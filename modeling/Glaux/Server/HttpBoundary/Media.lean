import Glaux.Library.FieldLines
import Glaux.Server.HttpBoundary

/-!
# Media types and media ranges (`http_boundary/media.rs`)

A list of elements is split at its commas by one scanner, an element is taken apart by
another.  A cursor stands as what is left of its bytes.
-/

namespace Glaux
namespace Server
namespace HttpBoundary

open Library FieldLines

structure Media where
  kind : List UInt8
  subtype : List UInt8
  parameters : List (List UInt8 × List UInt8)
  quality : ℕ
deriving DecidableEq

namespace Media

section Code

def maxBytes : ℕ := 16384

def maxRanges : ℕ := 128

def maxParameters : ℕ := 16

def maxEmptyElements : ℕ := 128

def quote : UInt8 := '"'.toUInt8

def backslash : UInt8 := '\\'.toUInt8

def semicolon : UInt8 := ';'.toUInt8

def slash : UInt8 := '/'.toUInt8

def equals : UInt8 := '='.toUInt8

def star : List UInt8 := ['*'.toUInt8]

def combined (lines : List (List UInt8)) : Except Problem (Option (List UInt8)) :=
  (joinLines maxBytes lines).mapError fun () => .bad_request

/-- The parts, and how many empty ones were passed over. -/
abbrev Parts := List (List UInt8) × ℕ

def push_part (input : List UInt8) (parts : Parts) : Except Unit Parts :=
  if trim input = [] then
    if parts.2 + 1 > maxEmptyElements then .error () else .ok (parts.1, parts.2 + 1)
  else if parts.1.length = maxRanges then .error ()
  else .ok (parts.1 ++ [trim input], parts.2)

/-- `part` is the input from `start` to the index. -/
structure Scanner where
  parts : Parts
  part : List UInt8
  quoted : Bool
  escaped : Bool

def scanByte (s : Scanner) (byte : UInt8) : Except Unit Scanner :=
  if s.escaped then .ok { s with part := s.part ++ [byte], escaped := false }
  else if s.quoted && byte == backslash then
    .ok { s with part := s.part ++ [byte], escaped := true }
  else if byte = quote then .ok { s with part := s.part ++ [byte], quoted := !s.quoted }
  else if !s.quoted && byte == comma then
    (push_part s.part s.parts).map fun parts => { s with parts := parts, part := [] }
  else .ok { s with part := s.part ++ [byte] }

def finish (s : Scanner) : Except Unit (List (List UInt8)) :=
  if s.quoted || s.escaped then .error () else (push_part s.part s.parts).map (·.1)

def scan (s : Scanner) (input : List UInt8) : Except Unit (List (List UInt8)) := do
  let s ← input.foldlM scanByte s
  finish s

def list (input : List UInt8) : Except Unit (List (List UInt8)) :=
  if input.length > maxBytes then .error () else scan ⟨([], 0), [], false, false⟩ input

def isAlphanumeric (byte : UInt8) : Bool :=
  (0x30 ≤ byte && byte ≤ 0x39) || (0x41 ≤ byte && byte ≤ 0x5a) || (0x61 ≤ byte && byte ≤ 0x7a)

def token_byte (byte : UInt8) : Bool :=
  isAlphanumeric byte || "!#$%&'*+-.^_\u0060|~".toList.any fun c => c.toUInt8 == byte

def to_ascii_lowercase (byte : UInt8) : UInt8 :=
  if 0x41 ≤ byte && byte ≤ 0x5a then byte + 0x20 else byte

def lowercase (bytes : List UInt8) : List UInt8 := bytes.map to_ascii_lowercase

def ows (cursor : List UInt8) : List UInt8 := cursor.dropWhile blank

def take (expected : UInt8) (cursor : List UInt8) : Except Unit (List UInt8) :=
  if cursor.head? = some expected then .ok cursor.tail else .error ()

def token (cursor : List UInt8) : Except Unit (List UInt8 × List UInt8) :=
  if cursor.takeWhile token_byte = [] then .error ()
  else .ok (cursor.takeWhile token_byte, cursor.dropWhile token_byte)

/-- What a backslash may stand before. -/
def quotable (byte : UInt8) : Bool :=
  byte == 0x09 || (0x20 ≤ byte && byte ≤ 0x7e) || 0x80 ≤ byte

/-- What stands for itself between quotes. -/
def qdtext (byte : UInt8) : Bool :=
  byte == 0x09 || byte == 0x20 || byte == 0x21 || (0x23 ≤ byte && byte ≤ 0x5b) ||
    (0x5d ≤ byte && byte ≤ 0x7e) || 0x80 ≤ byte

/-- The loop behind the opening quote, up to behind the closing one. -/
def quotedValue : List UInt8 → List UInt8 → Except Unit (List UInt8 × List UInt8)
  | _, [] => .error ()
  | value, byte :: cursor =>
      if byte = quote then .ok (value, cursor)
      else if byte = backslash then
        match cursor with
        | [] => .error ()
        | escaped :: cursor =>
            if quotable escaped then quotedValue (value ++ [escaped]) cursor else .error ()
      else if qdtext byte then quotedValue (value ++ [byte]) cursor
      else .error ()

/-- The value, and whether it was quoted. -/
def value (cursor : List UInt8) : Except Unit ((List UInt8 × Bool) × List UInt8) :=
  if cursor.head? ≠ some quote then (token cursor).map fun read => ((read.1, false), read.2)
  else (quotedValue [] cursor.tail).map fun read => ((read.1, true), read.2)

def isDigit (byte : UInt8) : Bool := 0x30 ≤ byte && byte ≤ 0x39

/-- The loop over the digits of the fraction. -/
def addDigits : ℕ → ℕ → List UInt8 → ℕ
  | quality, _, [] => quality
  | quality, multiplier, byte :: digits =>
      addDigits (quality + (byte - 0x30).toNat * multiplier) (multiplier / 10) digits

def parse_quality (value : List UInt8) : Except Unit ℕ :=
  match value with
  | [] => .error ()
  | whole :: rest =>
      if whole ≠ 0x30 ∧ whole ≠ 0x31 then .error ()
      else if rest ≠ [] ∧ rest.head? ≠ some '.'.toUInt8 then .error ()
      else if rest.tail.length > 3 ∨ ¬ rest.tail.all isDigit ∨
          (whole = 0x31 ∧ rest.tail.any fun byte => byte ≠ 0x30) then .error ()
      else .ok (addDigits ((whole - 0x30).toNat * 1000) 100 rest.tail)

structure Reading where
  parameters : List (List UInt8 × List UInt8)
  quality : Option ℕ
  empty : ℕ

def q : List UInt8 := ['q'.toUInt8]

/-- What a parameter does once it is read. -/
def enter (range : Bool) (s : Reading) (name value : List UInt8) (quoted : Bool) :
    Except Unit Reading :=
  if range && name == q then
    if s.quality.isSome || quoted then .error ()
    else (parse_quality value).map fun quality => { s with quality := some quality }
  else if s.parameters.any fun existing => existing.1 == name then .error ()
  else .ok { s with parameters := s.parameters ++ [(name, value)] }

/-- The body of the loop; `none` leaves it. -/
def turn (range : Bool) (s : Reading) (cursor : List UInt8) :
    Except Unit (Option (Reading × List UInt8)) :=
  if ows cursor = [] then .ok none
  else do
    let cursor ← take semicolon (ows cursor)
    let cursor := ows cursor
    if cursor.head? = none ∨ cursor.head? = some semicolon then
      if s.empty + 1 > maxEmptyElements then .error ()
      else .ok (some ({ s with empty := s.empty + 1 }, cursor))
    else if s.parameters.length + (if s.quality.isSome then 1 else 0) = maxParameters then
      .error ()
    else do
      let (name, cursor) ← token cursor
      let cursor ← take equals cursor
      let ((text, quoted), cursor) ← value cursor
      let s ← enter range s (lowercase name) text quoted
      .ok (some (s, cursor))

end Code

section Cursor

theorem take_eq_ok {expected : UInt8} {cursor after : List UInt8} :
    take expected cursor = .ok after ↔ cursor = expected :: after := by
  rw [take]
  constructor
  · intro h
    split at h
    · rename_i hhead
      obtain rfl := Except.ok.inj h
      exact (List.cons_head?_tail hhead).symm
    · exact absurd h nofun
  · rintro rfl
    exact if_pos rfl

theorem token_eq_ok {cursor text after : List UInt8} :
    token cursor = .ok (text, after) ↔
      (text ≠ [] ∧ ∀ byte ∈ text, token_byte byte = true) ∧
        (∀ byte ∈ after.head?, token_byte byte = false) ∧ cursor = text ++ after := by
  rw [token]
  constructor
  · intro h
    split at h
    · exact absurd h nofun
    · rename_i hne
      obtain ⟨rfl, rfl⟩ := Prod.mk.inj (Except.ok.inj h)
      exact ⟨⟨hne, takeWhile_accepted token_byte cursor⟩, dropWhile_stop token_byte cursor,
        List.takeWhile_append_dropWhile.symm⟩
  · rintro ⟨⟨hne, htext⟩, hstop, rfl⟩
    rw [takeWhile_append_stop htext hstop, dropWhile_append_stop htext hstop, if_neg hne]

/-- The text between quotes, and what it stands for. -/
inductive Quoted : List UInt8 → List UInt8 → Prop
  | nil : Quoted [] []
  | plain {byte : UInt8} {body text : List UInt8} (hbyte : qdtext byte = true)
      (h : Quoted body text) : Quoted (byte :: body) (byte :: text)
  | pair {byte : UInt8} {body text : List UInt8} (hbyte : quotable byte = true)
      (h : Quoted body text) : Quoted (backslash :: byte :: body) (byte :: text)

theorem qdtext_ne {byte : UInt8} (h : qdtext byte = true) : byte ≠ quote ∧ byte ≠ backslash := by
  constructor
  · rintro rfl
    exact absurd h (by decide)
  · rintro rfl
    exact absurd h (by decide)

/-- **A quoted string** is read up to its closing quote. -/
theorem quotedValue_eq_ok {read cursor result after : List UInt8} :
    quotedValue read cursor = .ok (result, after) ↔
      ∃ body text, Quoted body text ∧ cursor = body ++ quote :: after ∧
        result = read ++ text := by
  constructor
  · intro h
    induction read, cursor using quotedValue.induct with
    | case1 read => exact absurd h nofun
    | case2 read cursor =>
        rw [quotedValue.eq_def] at h
        obtain ⟨rfl, rfl⟩ := Prod.mk.inj (Except.ok.inj h)
        exact ⟨[], [], .nil, rfl, (List.append_nil _).symm⟩
    | case3 read hquote => exact absurd h nofun
    | case4 read escaped cursor hescaped hquote ih =>
        rw [quotedValue.eq_def] at h
        simp only [if_neg hquote, if_pos hescaped, if_true] at h
        obtain ⟨body, text, hbody, rfl, rfl⟩ := ih h
        exact ⟨_, _, .pair hescaped hbody, rfl, by simp⟩
    | case5 read escaped cursor hescaped hquote =>
        rw [quotedValue.eq_def] at h
        simp only [if_neg hquote, if_neg hescaped, if_true] at h
        exact absurd h nofun
    | case6 read byte cursor hquote hbackslash hqdtext ih =>
        rw [quotedValue.eq_def] at h
        simp only [if_neg hquote, if_neg hbackslash, if_pos hqdtext] at h
        obtain ⟨body, text, hbody, rfl, rfl⟩ := ih h
        exact ⟨_, _, .plain hqdtext hbody, rfl, by simp⟩
    | case7 read byte cursor hquote hbackslash hqdtext =>
        rw [quotedValue.eq_def] at h
        simp only [if_neg hquote, if_neg hbackslash, if_neg hqdtext] at h
        exact absurd h nofun
  · rintro ⟨body, text, hbody, rfl, rfl⟩
    induction hbody generalizing read with
    | nil =>
        rw [List.nil_append, quotedValue.eq_def, List.append_nil]
        exact if_pos rfl
    | @plain byte body text hbyte _ ih =>
        obtain ⟨hquote, hbackslash⟩ := qdtext_ne hbyte
        rw [List.cons_append, quotedValue.eq_def]
        simp only [if_neg hquote, if_neg hbackslash, if_pos hbyte]
        rw [ih, List.append_assoc, List.singleton_append]
    | @pair byte body text hbyte _ ih =>
        have hquote : ¬ backslash = quote := by decide
        rw [List.cons_append, List.cons_append, quotedValue.eq_def]
        simp only [if_neg hquote, if_pos hbyte, if_true]
        rw [ih, List.append_assoc, List.singleton_append]

/-- A value as it is written. -/
inductive Value where
  | token (text : List UInt8)
  | quoted (body text : List UInt8)

namespace Value

def written : Value → List UInt8
  | token text => text
  | quoted body _ => quote :: (body ++ [quote])

def text : Value → List UInt8
  | token text => text
  | quoted _ text => text

def isQuoted : Value → Bool
  | token _ => false
  | quoted _ _ => true

def WellFormed : Value → Prop
  | token text => text ≠ [] ∧ ∀ byte ∈ text, token_byte byte = true
  | quoted body text => Quoted body text

end Value

theorem value_eq_ok {cursor text after : List UInt8} {quoted : Bool} :
    value cursor = .ok ((text, quoted), after) ↔
      ∃ v : Value, v.WellFormed ∧
        (v.isQuoted = false → ∀ byte ∈ after.head?, token_byte byte = false) ∧
        cursor = v.written ++ after ∧ text = v.text ∧ quoted = v.isQuoted := by
  rw [value]
  constructor
  · intro h
    split at h
    · obtain ⟨⟨text, after⟩, hread, heq⟩ := map_eq_ok.mp h
      obtain ⟨hpair, rfl⟩ := Prod.mk.inj heq
      obtain ⟨rfl, rfl⟩ := Prod.mk.inj hpair
      obtain ⟨htext, hstop, rfl⟩ := token_eq_ok.mp hread
      exact ⟨.token text, htext, fun _ => hstop, rfl, rfl, rfl⟩
    · rename_i hquote
      obtain ⟨⟨text, after⟩, hread, heq⟩ := map_eq_ok.mp h
      obtain ⟨hpair, rfl⟩ := Prod.mk.inj heq
      obtain ⟨rfl, rfl⟩ := Prod.mk.inj hpair
      obtain ⟨body, unescaped, hbody, htail, htext⟩ := quotedValue_eq_ok.mp hread
      refine ⟨.quoted body unescaped, hbody, nofun, ?_, htext, rfl⟩
      rw [← List.cons_head?_tail (not_not.mp hquote), htail]
      simp [Value.written]
  · rintro ⟨v, hv, hafter, rfl, rfl, rfl⟩
    cases v with
    | token text =>
        have hhead : (text ++ after).head? ≠ some quote := by
          intro hhead
          obtain ⟨hne, htext⟩ := hv
          cases text with
          | nil => exact absurd rfl hne
          | cons byte text =>
              obtain rfl := Option.some.inj hhead
              exact absurd (htext _ List.mem_cons_self) (by decide)
        rw [Value.written, if_pos hhead, token_eq_ok.mpr ⟨hv, hafter rfl, rfl⟩]
        rfl
    | quoted body text =>
        have hread : quotedValue [] (body ++ [quote] ++ after) = .ok (text, after) :=
          quotedValue_eq_ok.mpr ⟨body, text, hv, by simp, rfl⟩
        rw [Value.written, if_neg (by simp), List.cons_append, List.tail_cons, hread]
        rfl

end Cursor

section Loop

theorem length_ows (cursor : List UInt8) : (ows cursor).length ≤ cursor.length :=
  (List.dropWhile_sublist _).length_le

/-- Every turn takes at least a semicolon. -/
theorem turn_shorter {range : Bool} {s s' : Reading} {cursor after : List UInt8}
    (h : turn range s cursor = .ok (some (s', after))) : after.length < cursor.length := by
  rw [turn] at h
  split at h
  · exact absurd h nofun
  · obtain ⟨rest, htake, h⟩ := bind_eq_ok.mp h
    have hlength : (ows rest).length < cursor.length := by
      have hows := congrArg List.length (take_eq_ok.mp htake)
      have := length_ows cursor
      have := length_ows rest
      simp only [List.length_cons] at hows
      omega
    dsimp only at h
    split at h
    · split at h
      · exact absurd h nofun
      · obtain ⟨-, rfl⟩ := Prod.mk.inj (Option.some.inj (Except.ok.inj h))
        exact hlength
    · by_cases hfull : s.parameters.length + (if s.quality.isSome then 1 else 0) = maxParameters
      · rw [if_pos hfull] at h
        exact absurd h nofun
      · rw [if_neg hfull] at h
        obtain ⟨⟨name, rest'⟩, hname, h⟩ := bind_eq_ok.mp h
        obtain ⟨rest'', hequals, h⟩ := bind_eq_ok.mp h
        obtain ⟨⟨⟨text, quoted⟩, last⟩, hvalue, h⟩ := bind_eq_ok.mp h
        obtain ⟨s'', henter, h⟩ := bind_eq_ok.mp h
        obtain ⟨-, rfl⟩ := Prod.mk.inj (Option.some.inj (Except.ok.inj h))
        have hname := congrArg List.length (token_eq_ok.mp hname).2.2
        have hequals := congrArg List.length (take_eq_ok.mp hequals)
        have hvalue : last.length ≤ rest''.length := by
          rw [value] at hvalue
          split at hvalue
          · obtain ⟨⟨read, after⟩, hread, heq⟩ := map_eq_ok.mp hvalue
            obtain ⟨-, rfl⟩ := Prod.mk.inj heq
            rw [(token_eq_ok.mp hread).2.2, List.length_append]
            exact Nat.le_add_left _ _
          · obtain ⟨⟨read, after⟩, hread, heq⟩ := map_eq_ok.mp hvalue
            obtain ⟨-, rfl⟩ := Prod.mk.inj heq
            obtain ⟨body, text, -, htail, -⟩ := quotedValue_eq_ok.mp hread
            have htail := congrArg List.length htail
            simp only [List.length_tail, List.length_append, List.length_cons] at htail ⊢
            omega
        simp only [List.length_append, List.length_cons] at hname hequals ⊢
        omega

def loop (range : Bool) (s : Reading) (cursor : List UInt8) : Except Unit Reading :=
  match _h : turn range s cursor with
  | .error () => .error ()
  | .ok none => .ok s
  | .ok (some (s, cursor)) => loop range s cursor
termination_by cursor.length
decreasing_by exact turn_shorter _h

def parse_media (input : List UInt8) (range : Bool) : Except Unit Media :=
  if input.length > maxBytes then .error ()
  else do
    let (kind, cursor) ← token (trim input)
    let kind := lowercase kind
    let cursor ← take slash cursor
    let (subtype, cursor) ← token cursor
    let subtype := lowercase subtype
    if (kind = star ∧ subtype ≠ star) ∨ (range = false ∧ (kind = star ∨ subtype = star)) then
      .error ()
    else do
      let s ← loop range ⟨[], none, 0⟩ cursor
      .ok ⟨kind, subtype, s.parameters, s.quality.getD 1000⟩

end Loop

def ranges (accept : List UInt8) : Except Problem (List Media) := do
  let parts ← (list accept).mapError fun () => .bad_request
  parts.mapM fun value => (parse_media value true).mapError fun () => .bad_request

/-- The ranges of an `Accept` field, if there is one. -/
def accepted (lines : List (List UInt8)) : Except Problem (Option (List Media)) := do
  match ← combined lines with
  | none => .ok none
  | some accept => (ranges accept).map some

end Media
end HttpBoundary
end Server
end Glaux
