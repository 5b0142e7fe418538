import Glaux.Library.IpAddress
import Glaux.Library.Outcome
import Glaux.Library.PercentCode

/-!
# Generated links

Links are written from the public API root, a list of path segments and a list of query
pairs.  Segments and pairs are data: every byte outside the unreserved class is written
as an escape, so a link can be taken apart again and two different inputs never have one
link.
-/

namespace Glaux
namespace Server
namespace HttpBoundary

open Library

/-- The kinds of problem that the modelled functions report. -/
inductive Kind where
  | badRequest
  | notAcceptable
  | internal
deriving DecidableEq

structure Problem where
  kind : Kind
  unsupported_coding : Bool
deriving DecidableEq

namespace Problem

def new (kind : Kind) : Problem := ⟨kind, false⟩

def internal : Problem := new .internal

def bad_request : Problem := new .badRequest

def not_acceptable : Problem := new .notAcceptable

end Problem

section Root

/-- An authority, with its host part as the URI parser gives it. -/
structure Authority where
  text : String
  host : String
deriving DecidableEq

structure Uri where
  scheme : Option String
  authority : Option Authority
  path : String
deriving DecidableEq

inductive BoundaryConfigError where
  | invalid
deriving DecidableEq

def isAsciiGraphic (c : Char) : Bool := decide (33 ≤ c.toNat ∧ c.toNat ≤ 126)

def isAsciiAlphanumeric (c : Char) : Bool :=
  decide (('0' ≤ c ∧ c ≤ '9') ∨ ('A' ≤ c ∧ c ≤ 'Z') ∨ ('a' ≤ c ∧ c ≤ 'z'))

def unreserved (c : Char) : Bool :=
  isAsciiAlphanumeric c || c == '-' || c == '.' || c == '_' || c == '~'

/-- `parse::<u16>` -/
def parseU16 (text : List Char) : Option ℕ :=
  let digits := if text.head? = some '+' then text.tail else text
  if digits ≠ [] ∧ digits.all (fun c => (IpAddress.digit 10 c).isSome) ∧
      IpAddress.numberValue 10 digits ≤ 65535 then
    some (IpAddress.numberValue 10 digits)
  else none

def stripPrefix (front : Char) (text : List Char) : Option (List Char) :=
  if text.head? = some front then some text.tail else none

def stripSuffix (back : Char) (text : List Char) : Option (List Char) :=
  if text.getLast? = some back then some text.dropLast else none

/-- A host in brackets is an IPv6 address; any other is a name. -/
def hostAccepted (host : List Char) : Bool :=
  if host.head? = some '[' then
    match (stripPrefix '[' host).bind (stripSuffix ']') with
    | some address => IpAddress.isIpv6 address
    | none => false
  else
    !host.isEmpty && host.all fun c => isAsciiAlphanumeric c || c == '.' || c == '-' || c == '_'

def portAccepted (port : List Char) : Bool :=
  port.isEmpty ||
    match (stripPrefix ':' port).bind parseU16 with
    | some port => port != 0
    | none => false

def segmentAccepted (segment : List Char) : Bool :=
  !segment.isEmpty && segment != ".".toList && segment != "..".toList && segment.all unreserved

def pathAccepted (path : List Char) : Bool :=
  path.isEmpty ||
    match stripPrefix '/' path with
    | some path => (path.splitOn '/').all segmentAccepted
    | none => false

def textAccepted (text : String) : Bool :=
  text.utf8ByteSize ≤ 2048 &&
    text.toList.all fun c => isAsciiGraphic c && c != '?' && c != '#' && c != '\\'

/-- The parts of a parsed root.  The text is ASCII, so that lengths in characters and in
bytes agree. -/
def rootOf (scheme : String) (authority : Authority) (path : String) :
    Except BoundaryConfigError String :=
  if scheme ≠ "http" ∧ scheme ≠ "https" then .error .invalid
  else if authority.text.toList.any (fun c => c == '@' || c == '%') then .error .invalid
  else if hostAccepted authority.host.toList = false then .error .invalid
  else if portAccepted (authority.text.toList.drop authority.host.length) = false then
    .error .invalid
  else
    let path := (stripSuffix '/' path.toList).getD path.toList
    if pathAccepted path = false then .error .invalid
    else .ok (scheme ++ "://" ++ authority.text ++ String.ofList path)

variable (parse : String → Option Uri)

def public_root (text : String) : Except BoundaryConfigError String :=
  if textAccepted text = false then .error .invalid
  else
    match parse text with
    | none => .error .invalid
    | some uri =>
        match uri.scheme with
        | none => .error .invalid
        | some scheme =>
            match uri.authority with
            | none => .error .invalid
            | some authority => rootOf scheme authority uri.path

/-- What is relied on of the URI parser: the authority is a part of the text. -/
structure UriParser : Prop where
  authority_part : ∀ text uri authority, parse text = some uri → uri.authority = some authority →
    ∀ c ∈ authority.text.toList, c ∈ text.toList

end Root

section Link

/-- `char::is_control` -/
def isControl (c : Char) : Bool := decide (c.toNat < 32 ∨ (127 ≤ c.toNat ∧ c.toNat ≤ 159))

def hex : List Char := "0123456789ABCDEF".toList

def encodeByte (target : String) (byte : UInt8) : String :=
  if unreserved (Char.ofNat byte.toNat) then target.push (Char.ofNat byte.toNat)
  else
    ((target.push '%').push (hex.getD (byte.toNat / 16) '0')).push
      (hex.getD (byte.toNat % 16) '0')

def encode (text target : String) : String := (utf8 text.toList).foldl encodeByte target

def appendSegment (result segment : String) : Except Problem String :=
  if segment.isEmpty ∨ segment = "." ∨ segment = ".." ∨ segment.utf8ByteSize > 2048 ∨
      segment.toList.any isControl then
    .error .internal
  else .ok (encode segment (result.push '/'))

def appendPair (result : String) (item : (String × String) × ℕ) : Except Problem String :=
  if item.1.1.utf8ByteSize > 2048 ∨ item.1.2.utf8ByteSize > 4096 then .error .internal
  else
    .ok (encode item.1.2
      ((encode item.1.1 (result.push (if item.2 = 0 then '?' else '&'))).push '='))

/-- What a boundary keeps of its configuration for links. -/
structure Boundary where
  public_api_root : Option String

def Boundary.link (boundary : Boundary) (segments : List String)
    (query : List (String × String)) : Except Problem String :=
  match boundary.public_api_root with
  | none => .error .internal
  | some root =>
      if segments.length > 64 ∨ query.length > 128 then .error .internal
      else do
        let result ← segments.foldlM appendSegment root
        let result ← query.zipIdx.foldlM appendPair result
        if result.utf8ByteSize > 16384 then .error .internal else .ok result

end Link

section Written

/-- One byte as an escape, or as itself. -/
def writtenByte (byte : UInt8) : List Char :=
  if unreserved (Char.ofNat byte.toNat) then [Char.ofNat byte.toNat]
  else ['%', hex.getD (byte.toNat / 16) '0', hex.getD (byte.toNat % 16) '0']

/-- How a text stands in a link. -/
def written (text : String) : List Char := (utf8 text.toList).flatMap writtenByte

theorem encode_toList (text target : String) :
    (encode text target).toList = target.toList ++ written text := by
  have hbyte : ∀ target byte, (encodeByte target byte).toList =
      target.toList ++ writtenByte byte := by
    intro target byte
    simp only [encodeByte, writtenByte]
    split <;> simp
  rw [encode, written]
  generalize utf8 text.toList = bytes
  induction bytes generalizing target with
  | nil => simp
  | cons byte bytes ih =>
      rw [List.foldl_cons, ih, hbyte, List.flatMap_cons, List.append_assoc]

/-- What is known of every byte. -/
theorem byte_facts : ∀ n < 256,
    (if unreserved (Char.ofNat n) then
      String.utf8EncodeChar (Char.ofNat n) = [UInt8.ofNat n] ∧ Char.ofNat n ≠ '%'
    else
      hexValue (hex.getD (n / 16) '0') = some (n / 16) ∧
        hexValue (hex.getD (n % 16) '0') = some (n % 16) ∧
          unreserved (hex.getD (n / 16) '0') ∧ unreserved (hex.getD (n % 16) '0')) := by
  decide +kernel

theorem decode_writtenByte (byte : UInt8) (rest : List Char) :
    percentDecode (writtenByte byte ++ rest) = (percentDecode rest).map (byte :: ·) := by
  have hfacts := byte_facts byte.toNat byte.toNat_lt
  rw [writtenByte]
  split
  · rename_i hplain
    rw [if_pos hplain, UInt8.ofNat_toNat] at hfacts
    rw [List.cons_append, List.nil_append, percentDecode_plain hfacts.2, hfacts.1]
    rfl
  · rename_i hescaped
    rw [if_neg hescaped] at hfacts
    obtain ⟨hhigh, hlow, -⟩ := hfacts
    have hbyte : UInt8.ofNat (16 * (byte.toNat / 16) + byte.toNat % 16) = byte := by
      rw [Nat.div_add_mod, UInt8.ofNat_toNat]
    simp only [List.cons_append, List.nil_append]
    rw [percentDecode_escape hhigh hlow, hbyte]

/-- **Decoding gives back the bytes.** -/
theorem decode_written (text : String) : percentDecode (written text) = some (utf8 text.toList) := by
  rw [written]
  generalize utf8 text.toList = bytes
  induction bytes with
  | nil => rfl
  | cons byte bytes ih => rw [List.flatMap_cons, decode_writtenByte, ih, Option.map_some]

/-- Nothing but unreserved characters and escapes is written. -/
theorem written_plain (text : String) : ∀ c ∈ written text, c = '%' ∨ unreserved c = true := by
  intro c hc
  obtain ⟨byte, -, hc⟩ := List.mem_flatMap.mp hc
  have hfacts := byte_facts byte.toNat byte.toNat_lt
  rw [writtenByte] at hc
  split at hc
  · rename_i hplain
    exact .inr (List.mem_singleton.mp hc ▸ hplain)
  · rename_i hescaped
    rw [if_neg hescaped] at hfacts
    obtain ⟨-, -, hhigh, hlow⟩ := hfacts
    simp only [List.mem_cons, List.not_mem_nil, or_false] at hc
    obtain rfl | rfl | rfl := hc
    · exact .inl rfl
    · exact .inr hhigh
    · exact .inr hlow

theorem written_injective {text text' : String} (h : written text = written text') :
    text = text' := by
  have hdecode := decode_written text
  rw [h, decode_written text'] at hdecode
  exact utf8_injective (Option.some.inj hdecode).symm

theorem not_mem_written {c : Char} (hc : c ≠ '%') (hreserved : unreserved c = false)
    (text : String) : c ∉ written text := by
  intro hmem
  obtain rfl | hplain := written_plain text c hmem
  · exact hc rfl
  · simp [hreserved] at hplain

end Written

section Reading

/-- Neither a name of its own nor the parent's. -/
def DotSegment (segment : List Char) : Prop := segment = ".".toList ∨ segment = "..".toList

/-- A piece of a link that stands for a text. -/
structure Stands (piece : List Char) (text : String) : Prop where
  decoded : percentDecode piece = some (utf8 text.toList)
  plain : ∀ c ∈ piece, c = '%' ∨ unreserved c = true

theorem stands_written (text : String) : Stands (written text) text :=
  ⟨decode_written text, written_plain text⟩

def readSegments (path : List Char) : Option (List (List UInt8)) :=
  (path.splitOn '/').tail.mapM percentDecode

def readPair (text : List Char) : Option (List UInt8 × List UInt8) := do
  let parts ← splitOnce '=' text
  let name ← percentDecode parts.1
  let value ← percentDecode parts.2
  some (name, value)

/-- What is left of a link when the root is taken away: the path is cut at `/`, the query
at `&` and each pair at its first `=`, and everything is decoded once. -/
def readRest (text : List Char) :
    Option (List (List UInt8) × List (List UInt8 × List UInt8)) :=
  match splitOnce '?' text with
  | none => (readSegments text).map (·, [])
  | some (path, search) => do
      let segments ← readSegments path
      let pairs ← (search.splitOn '&').mapM readPair
      some (segments, pairs)

def readLink (root url : String) :
    Option (List (List UInt8) × List (List UInt8 × List UInt8)) :=
  if root.toList.isPrefixOf url.toList then readRest (url.toList.drop root.toList.length)
  else none

def pathText (segments : List String) : List Char :=
  (segments.map written).flatMap ('/' :: ·)

def pairText (pair : String × String) : List Char := written pair.1 ++ '=' :: written pair.2

def searchText : List (String × String) → List Char
  | [] => []
  | pair :: query => '?' :: (pairText pair ++ (query.map pairText).flatMap ('&' :: ·))

theorem written_noSlash (text : String) : '/' ∉ written text :=
  not_mem_written (by decide) (by decide) text

theorem pathText_splitOn (segments : List String) :
    (pathText segments).splitOn '/' = [] :: segments.map written := by
  have hpieces : ∀ piece ∈ segments.map written, '/' ∉ piece := by
    intro piece hpiece
    obtain ⟨segment, -, rfl⟩ := List.mem_map.mp hpiece
    exact written_noSlash segment
  have h := splitOn_flatMap List.not_mem_nil hpieces
  simpa [pathText] using h

theorem pathText_noQuery (segments : List String) : '?' ∉ pathText segments := by
  intro hmem
  obtain ⟨piece, hpiece, hmem⟩ := List.mem_flatMap.mp hmem
  obtain ⟨segment, -, rfl⟩ := List.mem_map.mp hpiece
  obtain hslash | hmem := List.mem_cons.mp hmem
  · exact absurd hslash (by decide)
  · exact not_mem_written (by decide) (by decide) segment hmem

theorem pairText_noAmpersand (pair : String × String) : '&' ∉ pairText pair := by
  intro hmem
  obtain hmem | hmem := List.mem_append.mp hmem
  · exact not_mem_written (by decide) (by decide) pair.1 hmem
  · obtain hequals | hmem := List.mem_cons.mp hmem
    · exact absurd hequals (by decide)
    · exact not_mem_written (by decide) (by decide) pair.2 hmem

theorem pairText_splitOnce (pair : String × String) :
    splitOnce '=' (pairText pair) = some (written pair.1, written pair.2) :=
  splitOnce_append (not_mem_written (by decide) (by decide) pair.1) _

theorem searchText_splitOn (pair : String × String) (query : List (String × String)) :
    (pairText pair ++ (query.map pairText).flatMap ('&' :: ·)).splitOn '&' =
      (pair :: query).map pairText := by
  refine splitOn_flatMap (pairText_noAmpersand pair) fun piece hpiece => ?_
  obtain ⟨other, -, rfl⟩ := List.mem_map.mp hpiece
  exact pairText_noAmpersand other

/-- Every item of a list is read back. -/
theorem mapM_map_some {α β γ : Type} {read : β → Option γ} {write : α → β} {value : α → γ}
    (h : ∀ a, read (write a) = some (value a)) (l : List α) :
    (l.map write).mapM read = some (l.map value) := by
  induction l with
  | nil => rfl
  | cons a l ih =>
      rw [List.map_cons, List.mapM_cons, h, ih]
      rfl

def segmentBytes (segments : List String) : List (List UInt8) :=
  segments.map fun segment => utf8 segment.toList

def pairBytes (query : List (String × String)) : List (List UInt8 × List UInt8) :=
  query.map fun pair => (utf8 pair.1.toList, utf8 pair.2.toList)

theorem readSegments_pathText (segments : List String) :
    readSegments (pathText segments) = some (segmentBytes segments) := by
  rw [readSegments, pathText_splitOn, List.tail_cons]
  exact mapM_map_some decode_written segments

theorem readPair_pairText (pair : String × String) :
    readPair (pairText pair) = some (utf8 pair.1.toList, utf8 pair.2.toList) := by
  rw [readPair, pairText_splitOnce]
  simp [decode_written]

/-- **A link is read back.** -/
theorem readRest_written (segments : List String) (query : List (String × String)) :
    readRest (pathText segments ++ searchText query) =
      some (segmentBytes segments, pairBytes query) := by
  cases query with
  | nil =>
      have hquery : '?' ∉ pathText segments ++ searchText [] := by
        simpa [searchText] using pathText_noQuery segments
      rw [readRest, splitOnce_eq_none hquery]
      simp [searchText, readSegments_pathText, pairBytes]
  | cons pair query =>
      rw [searchText, readRest, splitOnce_append (pathText_noQuery segments)]
      simp only [readSegments_pathText, searchText_splitOn]
      rw [mapM_map_some readPair_pairText]
      rfl

end Reading

section Run

/-- What the code has checked of a segment. -/
structure SegmentAccepted (segment : String) : Prop where
  nonempty : segment ≠ ""
  named : ¬ DotSegment segment.toList
  size : segment.utf8ByteSize ≤ 2048
  noControl : ∀ c ∈ segment.toList, isControl c = false

theorem appendSegment_eq_ok {result segment result' : String}
    (h : appendSegment result segment = .ok result') :
    SegmentAccepted segment ∧ result'.toList = result.toList ++ '/' :: written segment := by
  rw [appendSegment] at h
  split at h
  · exact absurd h nofun
  · rename_i haccepted
    simp only [not_or, gt_iff_lt, Nat.not_lt] at haccepted
    obtain ⟨hempty, hdot, hdots, hsize, hcontrol⟩ := haccepted
    obtain rfl := Except.ok.inj h
    refine ⟨⟨fun hnil => hempty (by simp [hnil]), ?_, hsize, ?_⟩, ?_⟩
    · rintro (heq | heq)
      · exact hdot (String.toList_inj.mp heq)
      · exact hdots (String.toList_inj.mp heq)
    · simpa using hcontrol
    · simp [encode_toList]

theorem appendPair_eq_ok {result result' : String} {pair : String × String} {index : ℕ}
    (h : appendPair result (pair, index) = .ok result') :
    result'.toList =
      result.toList ++ (if index = 0 then '?' else '&') :: pairText pair := by
  rw [appendPair] at h
  split at h
  · exact absurd h nofun
  · obtain rfl := Except.ok.inj h
    simp [encode_toList, pairText]

theorem segments_eq_ok {segments : List String} {result result' : String}
    (h : segments.foldlM appendSegment result = .ok result') :
    (∀ segment ∈ segments, SegmentAccepted segment) ∧
      result'.toList = result.toList ++ pathText segments := by
  induction segments generalizing result with
  | nil =>
      obtain rfl := Except.ok.inj h
      simp [pathText]
  | cons segment segments ih =>
      obtain ⟨next, hnext, hrest⟩ := foldlM_cons_eq_ok.mp h
      obtain ⟨haccepted, hnext⟩ := appendSegment_eq_ok hnext
      obtain ⟨hall, hresult⟩ := ih hrest
      refine ⟨?_, ?_⟩
      · rintro s (_ | ⟨_, hs⟩)
        · exact haccepted
        · exact hall s hs
      · rw [hresult, hnext]
        simp [pathText]

/-- After the first pair every pair follows an ampersand. -/
theorem later_pairs_eq_ok {query : List (String × String)} {index : ℕ} {result result' : String}
    (h : (query.zipIdx (index + 1)).foldlM appendPair result = .ok result') :
    result'.toList = result.toList ++ (query.map pairText).flatMap ('&' :: ·) := by
  induction query generalizing index result with
  | nil =>
      obtain rfl := Except.ok.inj h
      simp
  | cons pair query ih =>
      rw [List.zipIdx_cons] at h
      obtain ⟨next, hnext, hrest⟩ := foldlM_cons_eq_ok.mp h
      have hnext := appendPair_eq_ok hnext
      rw [if_neg (Nat.succ_ne_zero index)] at hnext
      rw [ih hrest, hnext]
      simp

theorem pairs_eq_ok {query : List (String × String)} {result result' : String}
    (h : query.zipIdx.foldlM appendPair result = .ok result') :
    result'.toList = result.toList ++ searchText query := by
  cases query with
  | nil =>
      obtain rfl := Except.ok.inj h
      simp [searchText]
  | cons pair query =>
      rw [List.zipIdx_cons] at h
      obtain ⟨next, hnext, hrest⟩ := foldlM_cons_eq_ok.mp h
      have hnext := appendPair_eq_ok hnext
      rw [if_pos rfl] at hnext
      rw [later_pairs_eq_ok hrest, hnext]
      simp [searchText]

/-- **What a successful link is.** -/
theorem link_eq_ok {root url : String} {segments : List String} {query : List (String × String)}
    (h : (Boundary.mk (some root)).link segments query = .ok url) :
    (∀ segment ∈ segments, SegmentAccepted segment) ∧
      url.toList = root.toList ++ (pathText segments ++ searchText query) ∧
        url.utf8ByteSize ≤ 16384 := by
  simp only [Boundary.link] at h
  split at h
  · exact absurd h nofun
  · obtain ⟨path, hpath, h⟩ := bind_eq_ok.mp h
    obtain ⟨whole, hwhole, h⟩ := bind_eq_ok.mp h
    obtain ⟨haccepted, hpath⟩ := segments_eq_ok hpath
    have hwhole := pairs_eq_ok hwhole
    split at h
    · exact absurd h nofun
    · rename_i hsize
      obtain rfl := Except.ok.inj h
      exact ⟨haccepted, by rw [hwhole, hpath, List.append_assoc], Nat.le_of_not_lt hsize⟩

theorem readLink_eq {root url : String} {segments : List String} {query : List (String × String)}
    (h : (Boundary.mk (some root)).link segments query = .ok url) :
    readLink root url = some (segmentBytes segments, pairBytes query) := by
  obtain ⟨-, hurl, -⟩ := link_eq_ok h
  have hprefix : root.toList.isPrefixOf url.toList = true :=
    List.isPrefixOf_iff_prefix.mpr (hurl ▸ List.prefix_append ..)
  rw [readLink, if_pos hprefix, hurl, List.drop_left, readRest_written]

theorem segmentBytes_injective {segments segments' : List String}
    (h : segmentBytes segments = segmentBytes segments') : segments = segments' :=
  List.map_injective_iff.mpr (fun _ _ => utf8_injective) h

theorem pairBytes_injective {query query' : List (String × String)}
    (h : pairBytes query = pairBytes query') : query = query' := by
  refine List.map_injective_iff.mpr (fun pair pair' heq => ?_) h
  obtain ⟨hname, hvalue⟩ := Prod.mk.inj heq
  exact Prod.ext (utf8_injective hname) (utf8_injective hvalue)

/-- **Two inputs, two links.** -/
theorem link_injective {root url : String} {segments segments' : List String}
    {query query' : List (String × String)}
    (h : (Boundary.mk (some root)).link segments query = .ok url)
    (h' : (Boundary.mk (some root)).link segments' query' = .ok url) :
    segments' = segments ∧ query' = query := by
  have hread := readLink_eq h'
  rw [readLink_eq h] at hread
  obtain ⟨hsegments, hquery⟩ := Prod.mk.inj (Option.some.inj hread)
  exact ⟨(segmentBytes_injective hsegments).symm, (pairBytes_injective hquery).symm⟩

end Run

section Root

/-- The characters of a root: printable ASCII without the marks that end a path. -/
def RootCharacter (c : Char) : Prop :=
  isAsciiGraphic c = true ∧ c ≠ '?' ∧ c ≠ '#' ∧ c ≠ '\\'

theorem unreserved_root {c : Char} (h : unreserved c = true) : RootCharacter c := by
  have hrange : 33 ≤ c.toNat ∧ c.toNat ≤ 126 ∧ c.toNat ≠ 63 ∧ c.toNat ≠ 35 ∧ c.toNat ≠ 92 := by
    simp only [unreserved, isAsciiAlphanumeric, Bool.or_eq_true, decide_eq_true_eq, beq_iff_eq,
      Char.le_def, UInt32.le_iff_toNat_le] at h
    obtain (((hclass | rfl) | rfl) | rfl) | rfl := h
    · change ((48 ≤ c.toNat ∧ c.toNat ≤ 57) ∨ (65 ≤ c.toNat ∧ c.toNat ≤ 90) ∨
        (97 ≤ c.toNat ∧ c.toNat ≤ 122)) at hclass
      omega
    all_goals decide
  obtain ⟨hlow, hhigh, hquery, hfragment, hback⟩ := hrange
  refine ⟨by simp [isAsciiGraphic, hlow, hhigh], ?_, ?_, ?_⟩
  · rintro rfl
    exact hquery rfl
  · rintro rfl
    exact hfragment rfl
  · rintro rfl
    exact hback rfl

theorem mem_of_stripPrefix {front : Char} {text rest : List Char}
    (h : stripPrefix front text = some rest) : text = front :: rest := by
  rw [stripPrefix] at h
  split at h
  · rename_i hhead
    obtain rfl := Option.some.inj h
    cases text with
    | nil => simp at hhead
    | cons c text => rw [List.head?_cons, Option.some.injEq] at hhead; rw [hhead, List.tail_cons]
  · exact absurd h nofun

theorem pathAccepted_root {path : List Char} (h : pathAccepted path = true) :
    ∀ c ∈ path, RootCharacter c := by
  intro c hc
  rw [pathAccepted, Bool.or_eq_true] at h
  obtain hempty | h := h
  · rw [List.isEmpty_iff.mp hempty] at hc
    exact absurd hc List.not_mem_nil
  · cases hstrip : stripPrefix '/' path with
    | none => simp [hstrip] at h
    | some rest =>
        rw [hstrip] at h
        rw [mem_of_stripPrefix hstrip] at hc
        have hslash : RootCharacter '/' := by
          refine ⟨by decide, by decide, by decide, by decide⟩
        obtain rfl | hc := List.mem_cons.mp hc
        · exact hslash
        · obtain rfl | ⟨piece, hpiece, hc⟩ := mem_splitOn '/' hc
          · exact hslash
          · have haccepted := List.all_eq_true.mp h piece hpiece
            simp only [segmentAccepted, Bool.and_eq_true] at haccepted
            exact unreserved_root (List.all_eq_true.mp haccepted.2 c hc)

theorem rootOf_eq_ok {scheme path root : String} {authority : Authority}
    (h : rootOf scheme authority path = .ok root) :
    (scheme = "http" ∨ scheme = "https") ∧ ∃ path' : List Char, pathAccepted path' = true ∧
      root.toList = scheme.toList ++ "://".toList ++ authority.text.toList ++ path' := by
  simp only [rootOf] at h
  split at h
  · exact absurd h nofun
  · rename_i hscheme
    split at h
    · exact absurd h nofun
    · split at h
      · exact absurd h nofun
      · split at h
        · exact absurd h nofun
        · split at h
          · exact absurd h nofun
          · rename_i hpath
            obtain rfl := Except.ok.inj h
            refine ⟨?_, _, by simpa using hpath, by simp⟩
            by_cases hhttp : scheme = "http"
            · exact .inl hhttp
            · exact .inr (by_contra fun hhttps => hscheme ⟨hhttp, hhttps⟩)

theorem public_root_eq_ok {parse : String → Option Uri} {text root : String}
    (h : public_root parse text = .ok root) :
    textAccepted text = true ∧ ∃ uri scheme authority, parse text = some uri ∧
      uri.authority = some authority ∧ rootOf scheme authority uri.path = .ok root := by
  rw [public_root] at h
  split at h
  · exact absurd h nofun
  · rename_i htext
    refine ⟨by simpa using htext, ?_⟩
    cases hparse : parse text with
    | none => simp [hparse] at h
    | some uri =>
        simp only [hparse] at h
        cases hscheme : uri.scheme with
        | none => simp [hscheme] at h
        | some scheme =>
            cases hauthority : uri.authority with
            | none => simp [hscheme, hauthority] at h
            | some authority =>
                simp only [hscheme, hauthority] at h
                exact ⟨uri, scheme, authority, rfl, hauthority, h⟩

/-- **Accepted roots** have only root characters. -/
theorem public_root_plain {parse : String → Option Uri} (huri : UriParser parse)
    {text root : String} (h : public_root parse text = .ok root) :
    ∀ c ∈ root.toList, RootCharacter c := by
  obtain ⟨htext, uri, scheme, authority, hparse, hauthority, hroot⟩ := public_root_eq_ok h
  obtain ⟨hscheme, path, hpath, hroot⟩ := rootOf_eq_ok hroot
  have hplain : ∀ c ∈ text.toList, RootCharacter c := by
    intro c hc
    rw [textAccepted, Bool.and_eq_true] at htext
    have hc := List.all_eq_true.mp htext.2 c hc
    simp only [Bool.and_eq_true, bne_iff_ne, ne_eq] at hc
    obtain ⟨⟨⟨hgraphic, hquery⟩, hfragment⟩, hback⟩ := hc
    exact ⟨hgraphic, hquery, hfragment, hback⟩
  have hfront : ∀ c ∈ scheme.toList ++ "://".toList, RootCharacter c := by
    have hall : (scheme.toList ++ "://".toList).all
        (fun c => decide (isAsciiGraphic c = true ∧ c ≠ '?' ∧ c ≠ '#' ∧ c ≠ '\\')) = true := by
      obtain rfl | rfl := hscheme
      · decide
      · decide
    intro c hc
    unfold RootCharacter
    exact of_decide_eq_true (List.all_eq_true.mp hall c hc)
  intro c hc
  rw [hroot, List.mem_append, List.mem_append] at hc
  obtain (hc | hc) | hc := hc
  · exact hfront c hc
  · exact hplain c (huri.authority_part text uri authority hparse hauthority c hc)
  · exact pathAccepted_root hpath c hc

end Root

section Confined

/-- The path of a link: one piece behind every slash. -/
def PathOf (path : List Char) (segments : List String) : Prop :=
  ∃ pieces, path.splitOn '/' = [] :: pieces ∧
    List.Forall₂ (fun piece segment => Stands piece segment ∧ piece ≠ [] ∧
      ¬ DotSegment piece ∧ ¬ DotSegment segment.toList) pieces segments

/-- The query of a link: nothing, or one piece for every pair. -/
def SearchOf (search : List Char) (query : List (String × String)) : Prop :=
  (search = [] ∧ query = []) ∨
    ∃ body, search = '?' :: body ∧
      List.Forall₂ (fun piece pair => ∃ name value, splitOnce '=' piece = some (name, value) ∧
        Stands name pair.1 ∧ Stands value pair.2) (body.splitOn '&') query

/-- **Confinement.**  The root, then a path and a query that hold the segments and the
pairs and nothing else. -/
structure Confined (root : String) (segments : List String) (query : List (String × String))
    (url : String) : Prop where
  parts : ∃ path search, url.toList = root.toList ++ (path ++ search) ∧
    PathOf path segments ∧ SearchOf search query
  root_plain : ∀ c ∈ root.toList, RootCharacter c
  read : readLink root url = some (segmentBytes segments, pairBytes query)
  length : url.utf8ByteSize ≤ 16384

/-- A segment that is no dot segment is not written as one. -/
theorem written_named {segment : String} (h : SegmentAccepted segment) :
    written segment ≠ [] ∧ ¬ DotSegment (written segment) := by
  refine ⟨fun hnil => ?_, ?_⟩
  · have hwritten : written "" = [] := by decide
    exact h.nonempty (written_injective (hnil.trans hwritten.symm))
  · rintro (hdot | hdots)
    · have hwritten : written "." = ".".toList := by decide
      exact h.named (.inl (congrArg String.toList (written_injective (hdot.trans hwritten.symm))))
    · have hwritten : written ".." = "..".toList := by decide
      exact h.named (.inr (congrArg String.toList (written_injective (hdots.trans hwritten.symm))))

theorem pathOf_written {segments : List String}
    (h : ∀ segment ∈ segments, SegmentAccepted segment) : PathOf (pathText segments) segments := by
  refine ⟨segments.map written, pathText_splitOn segments, ?_⟩
  rw [List.forall₂_map_left_iff, List.forall₂_same]
  intro segment hsegment
  obtain ⟨hnonempty, hnamed⟩ := written_named (h segment hsegment)
  exact ⟨stands_written segment, hnonempty, hnamed, (h segment hsegment).named⟩

theorem searchOf_written (query : List (String × String)) : SearchOf (searchText query) query := by
  cases query with
  | nil => exact .inl ⟨rfl, rfl⟩
  | cons pair query =>
      refine .inr ⟨_, rfl, ?_⟩
      rw [searchText_splitOn, List.forall₂_map_left_iff, List.forall₂_same]
      intro pair _
      exact ⟨_, _, pairText_splitOnce pair, stands_written pair.1, stands_written pair.2⟩

/-- **Generated links are confined and injective.** -/
theorem link_confined {parse : String → Option Uri} (huri : UriParser parse) {text root : String}
    (hroot : public_root parse text = .ok root) {segments : List String}
    {query : List (String × String)} {url : String}
    (h : (Boundary.mk (some root)).link segments query = .ok url) :
    Confined root segments query url ∧
      ∀ segments' query', (Boundary.mk (some root)).link segments' query' = .ok url →
        segments' = segments ∧ query' = query := by
  obtain ⟨haccepted, hurl, hlength⟩ := link_eq_ok h
  refine ⟨⟨⟨_, _, hurl, pathOf_written haccepted, searchOf_written query⟩,
    public_root_plain huri hroot, readLink_eq h, hlength⟩, fun segments' query' h' => ?_⟩
  exact link_injective h h'

/-- A parser that knows one text. -/
def sampleParse (text : String) : Option Uri :=
  if text = "https://api.example/v1/" then
    some ⟨some "https", some ⟨"api.example", "api.example"⟩, "/v1/"⟩
  else none

theorem sampleParser : UriParser sampleParse where
  authority_part text uri authority hparse hauthority := by
    rw [sampleParse] at hparse
    split at hparse
    · rename_i htext
      obtain rfl := Option.some.inj hparse
      obtain rfl := Option.some.inj hauthority
      subst htext
      have hall : "api.example".toList.all
          (fun c => "https://api.example/v1/".toList.contains c) = true := by decide
      exact fun c hc => List.contains_iff_mem.mp (List.all_eq_true.mp hall c hc)
    · exact absurd hparse nofun

theorem link_confined_sample :
    Confined "https://api.example/v1" ["systems", "a/b ü"] [("q", "x&y=z"), ("", "")]
      "https://api.example/v1/systems/a%2Fb%20%C3%BC?q=x%26y%3Dz&=" :=
  (@link_confined sampleParse sampleParser "https://api.example/v1/" _ (by decide +kernel) _ _ _
    (by decide +kernel)).1

end Confined

end HttpBoundary
end Server
end Glaux
