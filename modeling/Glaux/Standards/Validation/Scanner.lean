import Glaux.Library.Json.Layout
import Glaux.Standards.Validation.Parse

/-!
# The lexical scan of a text (`validation::parse`)

The scan knows brackets, commas and quotes only.  Over a text cut into its values it ends
with the frames it began with, provided that depth, names and strings keep their bounds.
-/

namespace Glaux
namespace Standards
namespace Validation

open Library
open Library.Json (Layout width width_append)
open Library.Json.Layout (Blank Closing ItemGap MemberGap Plain Quoted Spelled StringBody isBlank
  isPlain)

/-! ### Bytes -/

section Bytes

variable {input bytes rest : Bytes} {i : ℕ} {byte : UInt8}

theorem drop_append (h : input.drop i = bytes ++ rest) : input.drop (i + bytes.length) = rest := by
  rw [← List.drop_drop, h, List.drop_left]

theorem drop_cons (h : input.drop i = byte :: rest) :
    ∃ hlt : i < input.length, input[i] = byte ∧ input.drop (i + 1) = rest := by
  have hlt : i < input.length := by
    by_contra hle
    rw [List.drop_eq_nil_of_le (Nat.le_of_not_lt hle)] at h
    cases h
  rw [List.drop_eq_getElem_cons hlt] at h
  obtain ⟨hbyte, hrest⟩ := List.cons.inj h
  exact ⟨hlt, hbyte, hrest⟩

/-- The bytes the scan stops at. -/
def marks : List UInt8 := [openBrace, openBracket, closeBrace, closeBracket, comma, quote]

theorem mark_lt {byte : UInt8} (h : byte ∈ marks) : byte.toNat < 128 := by
  simp only [marks, List.mem_cons, List.not_mem_nil, or_false] at h
  rcases h with rfl | rfl | rfl | rfl | rfl | rfl <;> decide

theorem plain_bytes {text : List Char} (h : Plain text) : ∀ byte ∈ utf8 text, byte ∉ marks := by
  intro byte hbyte hmark
  obtain ⟨c, hc, hbyte⟩ := List.mem_flatMap.mp hbyte
  obtain ⟨hnat, -⟩ := ascii_of_mem hbyte (mark_lt hmark)
  have hplain := h c hc
  have heq : c = Char.ofNat byte.toNat := by rw [← hnat, Char.ofNat_toNat]
  simp only [marks, List.mem_cons, List.not_mem_nil, or_false] at hmark
  rcases hmark with rfl | rfl | rfl | rfl | rfl | rfl <;>
    (rw [heq] at hplain; revert hplain; decide)

/-- A string ends behind its closing quote. -/
theorem stringStop_body {body : List Char} (hbody : StringBody body)
    (h : input.drop i = utf8 body ++ quote :: rest) : stringStop input i = i + width body + 1 := by
  induction hbody generalizing i with
  | nil =>
      obtain ⟨hlt, hbyte, -⟩ := drop_cons h
      rw [stringStop, dif_pos hlt, hbyte, if_neg (by decide), if_pos rfl]
      rfl
  | @char c body hquote hescape hbody ih =>
      have hskip : ∀ (bytes : Bytes) (i : ℕ) (rest : Bytes), input.drop i = bytes ++ rest →
          (∀ byte ∈ bytes, byte ≠ backslash ∧ byte ≠ quote) →
          stringStop input i = stringStop input (i + bytes.length) := by
        intro bytes
        induction bytes with
        | nil =>
            intro i rest _ _
            rfl
        | cons byte bytes ih =>
            intro i rest h hbytes
            obtain ⟨hlt, hbyte, hrest⟩ := drop_cons h
            obtain ⟨hne, hne'⟩ := hbytes byte List.mem_cons_self
            rw [stringStop, dif_pos hlt, hbyte, if_neg hne, if_neg hne',
              ih (i + 1) rest hrest fun b hb => hbytes b (List.mem_cons_of_mem _ hb),
              List.length_cons, Nat.add_assoc, Nat.add_comm 1]
      have hbytes : ∀ byte ∈ String.utf8EncodeChar c, byte ≠ backslash ∧ byte ≠ quote := by
        intro byte hbyte
        constructor
        · rintro rfl
          obtain ⟨hnat, -⟩ := ascii_of_mem hbyte (by decide)
          exact hescape (Char.toNat_inj.mp hnat)
        · rintro rfl
          obtain ⟨hnat, -⟩ := ascii_of_mem hbyte (by decide)
          exact hquote (Char.toNat_inj.mp hnat)
      have hcons : utf8 (c :: body) = String.utf8EncodeChar c ++ utf8 body := List.flatMap_cons
      rw [hcons, List.append_assoc] at h
      rw [hskip _ i _ h hbytes, ih (drop_append h), width, width, hcons, List.length_append]
      omega
  | @escape c body hascii hbody ih =>
      have hcons : utf8 ('\\' :: c :: body) = backslash :: UInt8.ofNat c.toNat :: utf8 body := by
        rw [utf8, List.flatMap_cons, List.flatMap_cons, utf8EncodeChar_ascii hascii]
        rfl
      rw [hcons] at h
      obtain ⟨hlt, hbyte, hrest⟩ := drop_cons h
      obtain ⟨-, -, hrest⟩ := drop_cons hrest
      rw [stringStop, dif_pos hlt, hbyte, if_pos rfl, ih hrest, width, width, hcons]
      simp only [List.length_cons]
      omega

end Bytes

/-! ### Steps -/

section Steps

variable {serde : Serde} {input bytes rest : Bytes} {i : ℕ} {frames : List Frame}

theorem scan_plain (h : input.drop i = bytes ++ rest) (hplain : ∀ byte ∈ bytes, byte ∉ marks) :
    scan serde input i frames = scan serde input (i + bytes.length) frames := by
  induction bytes generalizing i with
  | nil => rfl
  | cons byte bytes ih =>
      obtain ⟨hlt, hbyte, hrest⟩ := drop_cons h
      have hmark := hplain byte List.mem_cons_self
      simp only [marks, List.mem_cons, List.not_mem_nil, or_false, not_or] at hmark
      obtain ⟨hbrace, hbracket, hbrace', hbracket', hcomma, hquote⟩ := hmark
      rw [scan, dif_pos hlt, hbyte, if_neg (by simp [hbrace, hbracket]),
        if_neg (by simp [hbrace', hbracket']), if_neg hcomma, if_neg hquote,
        ih hrest fun b hb => hplain b (List.mem_cons_of_mem _ hb), List.length_cons,
        Nat.add_assoc, Nat.add_comm 1]

theorem scan_open {byte : UInt8} (hbyte : byte = openBrace ∨ byte = openBracket)
    (h : input.drop i = byte :: rest) :
    scan serde input i frames =
      if frames.length ≥ maxDepth then .error .depth
      else scan serde input (i + 1) (opened byte :: frames) := by
  obtain ⟨hlt, heq, -⟩ := drop_cons h
  rw [scan, dif_pos hlt, heq, if_pos hbyte]

theorem scan_close {byte : UInt8} (hbyte : byte = closeBrace ∨ byte = closeBracket)
    (h : input.drop i = byte :: rest) {frame : Frame}
    (hframe : frame.object = decide (byte = closeBrace)) :
    scan serde input i (frame :: frames) = scan serde input (i + 1) frames := by
  obtain ⟨hlt, heq, -⟩ := drop_cons h
  have hopen : ¬ (byte = openBrace ∨ byte = openBracket) := by
    obtain rfl | rfl := hbyte <;> decide
  rw [scan, dif_pos hlt, heq, if_neg hopen, if_pos hbyte]
  simp only [hframe, ne_eq, not_true_eq_false, if_false]

theorem scan_comma (h : input.drop i = comma :: rest) :
    scan serde input i frames = scan serde input (i + 1) (expectKey frames) := by
  obtain ⟨hlt, heq, -⟩ := drop_cons h
  rw [scan, dif_pos hlt, heq, if_neg (by decide), if_neg (by decide), if_pos rfl]

/-- A string of the input is read by `serde_json`. -/
theorem scan_quoted (serde : Serde) (frames : List Frame) {text : List Char} (hquoted : Quoted text)
    (h : input.drop i = utf8 text ++ rest) :
    scan serde input i frames =
      match serde.text (utf8 text) with
      | none => .error .malformed
      | some name =>
          if name.utf8ByteSize > maxStringBytes then .error .string
          else enterKey name frames >>= scan serde input (i + width text) := by
  obtain ⟨body, hbody, rfl⟩ := hquoted
  have htext : utf8 ('"' :: (body ++ ['"'])) = quote :: (utf8 body ++ [quote]) := by
    rw [utf8, List.flatMap_cons, ← utf8, utf8_append]
    rfl
  have hfull := h
  rw [htext, List.cons_append, List.append_assoc] at h
  obtain ⟨hlt, heq, hrest⟩ := drop_cons h
  have hstop : stringStop input (i + 1) = i + width ('"' :: (body ++ ['"'])) := by
    rw [stringStop_body hbody hrest, width, width, htext, List.length_cons, List.length_append]
    simp only [List.length_singleton]
    omega
  have hslice : (input.take (i + width ('"' :: (body ++ ['"'])))).drop i =
      utf8 ('"' :: (body ++ ['"'])) := by
    rw [List.drop_take, Nat.add_sub_cancel_left, hfull, width, List.take_left]
  have hlast : input[i + width ('"' :: (body ++ ['"'])) - 1]? = some quote := by
    have hbehind := drop_append hrest
    obtain ⟨hlt', heq', -⟩ := drop_cons hbehind
    have hindex : i + width ('"' :: (body ++ ['"'])) - 1 = i + 1 + (utf8 body).length := by
      rw [width, htext, List.length_cons, List.length_append]
      simp only [List.length_singleton]
      omega
    rw [hindex, List.getElem?_eq_getElem hlt', heq']
  have hinside : ¬ (i + width ('"' :: (body ++ ['"'])) > input.length) := by
    have hlength := congrArg List.length hfull
    rw [List.length_drop, List.length_append] at hlength
    rw [width]
    omega
  have hstep : scan serde input i frames =
      scanText serde input i (stringStop input (i + 1)) >>= fun text =>
        enterKey text frames >>= scan serde input (stringStop input (i + 1)) := by
    rw [scan, dif_pos hlt, heq, if_neg (by decide), if_neg (by decide), if_neg (by decide),
      if_pos rfl]
  rw [hstep, hstop, scanText, if_neg (by simp [hinside, hlast]), hslice]
  cases serde.text (utf8 ('"' :: (body ++ ['"']))) with
  | none => rfl
  | some name =>
      by_cases hsize : name.utf8ByteSize > maxStringBytes
      · simp only [if_pos hsize]
        rfl
      · simp only [if_neg hsize]
        rfl

end Steps

/-! ### Values -/

section Values

/-- The scan gets from one place to another under a condition, and not without it. -/
structure Gate (serde : Serde) (input : Bytes) (condition : Prop) (i : ℕ) (frames : List Frame)
    (j : ℕ) (frames' : List Frame) : Prop where
  pass : condition → scan serde input i frames = scan serde input j frames'
  need : ∀ result, scan serde input i frames = .ok result → condition

variable {serde : Serde} {input bytes rest : Bytes} {i j k : ℕ}
variable {frames frames' frames'' : List Frame} {p q : Prop}

theorem Gate.of_eq (h : scan serde input i frames = scan serde input j frames') :
    Gate serde input True i frames j frames' :=
  ⟨fun _ => h, fun _ _ => trivial⟩

theorem Gate.trans (h : Gate serde input p i frames j frames')
    (h' : p → Gate serde input q j frames' k frames'') :
    Gate serde input (p ∧ q) i frames k frames'' := by
  constructor
  · rintro ⟨hp, hq⟩
    rw [h.pass hp, (h' hp).pass hq]
  · intro result hscan
    have hp := h.need result hscan
    exact ⟨hp, (h' hp).need result ((h.pass hp).symm.trans hscan)⟩

theorem Gate.congr (h : Gate serde input p i frames j frames') (hpq : p ↔ q) :
    Gate serde input q i frames j frames' :=
  ⟨fun hq => h.pass (hpq.mpr hq), fun result hscan => hpq.mp (h.need result hscan)⟩

/-- A step without a condition in front. -/
theorem Gate.after (h : scan serde input i frames = scan serde input j frames')
    (h' : Gate serde input p j frames' k frames'') : Gate serde input p i frames k frames'' :=
  ((Gate.of_eq h).trans fun _ => h').congr (iff_of_eq (true_and _))

/-- A step without a condition behind. -/
theorem Gate.before (h : Gate serde input p i frames j frames')
    (h' : p → scan serde input j frames' = scan serde input k frames'') :
    Gate serde input p i frames k frames'' :=
  (h.trans fun hp => Gate.of_eq (h' hp)).congr (iff_of_eq (and_true _))

theorem Gate.of_ite {e : Failure} [Decidable p]
    (h : scan serde input i frames =
      if p then scan serde input j frames' else .error e) :
    Gate serde input p i frames j frames' := by
  constructor
  · intro hp
    rw [h, if_pos hp]
  · intro result hscan
    by_contra hp
    rw [h, if_neg hp] at hscan
    cases hscan

/-- A value is expected, not a name. -/
def AtValue (frames : List Frame) : Prop :=
  ∀ frame ∈ frames.head?, (frame.object && frame.key) = false

theorem enterKey_value (h : AtValue frames) (text : String) : enterKey text frames = .ok frames := by
  cases frames with
  | nil => rfl
  | cons frame frames =>
      rw [enterKey, h frame rfl]
      rfl

/-- What the scan asks of a value at a depth. -/
inductive Bounded (literal : List Char → Option String) : ℕ → Layout → Prop
  | plain {depth : ℕ} {text : List Char} (h : Plain text) : Bounded literal depth (.leaf text)
  | text {depth : ℕ} {text : List Char} {value : String} (hread : literal text = some value)
      (hsize : value.utf8ByteSize ≤ maxStringBytes) : Bounded literal depth (.leaf text)
  | array {depth : ℕ} {items : List (List Char × Layout)} {close : List Char}
      (hdepth : depth < maxDepth) (hitems : ∀ item ∈ items, Bounded literal (depth + 1) item.2) :
      Bounded literal depth (.array items close)
  | object {depth : ℕ} {members : List (String × List Char × Layout)} {close : List Char}
      (hdepth : depth < maxDepth) (hlength : members.length ≤ maxMembers)
      (hnodup : (members.map (·.1)).Nodup)
      (hnames : ∀ member ∈ members, member.1.utf8ByteSize ≤ maxStringBytes)
      (hmembers : ∀ member ∈ members, Bounded literal (depth + 1) member.2.2) :
      Bounded literal depth (.object members close)

/-- The strings of a text, as they are read. -/
def literal (serde : Serde) (text : List Char) : Option String := serde.text (utf8 text)

theorem gate_open {byte : UInt8} (hbyte : byte = openBrace ∨ byte = openBracket)
    (h : input.drop i = byte :: rest) :
    Gate serde input (frames.length < maxDepth) i frames (i + 1) (opened byte :: frames) := by
  refine Gate.of_ite (e := .depth) ?_
  rw [scan_open hbyte h]
  by_cases hdepth : frames.length < maxDepth
  · rw [if_neg (Nat.not_le.mpr hdepth), if_pos hdepth]
  · rw [if_pos (Nat.le_of_not_lt hdepth), if_neg hdepth]

/-- A string in the place of a value. -/
theorem gate_text {text : List Char} (hquoted : Quoted text) (hvalue : AtValue frames)
    (h : input.drop i = utf8 text ++ rest) :
    Gate serde input (∃ value, literal serde text = some value ∧
      value.utf8ByteSize ≤ maxStringBytes) i frames (i + width text) frames := by
  have hscan := scan_quoted serde frames hquoted h
  constructor
  · rintro ⟨value, hread, hsize⟩
    rw [literal] at hread
    rw [hscan, hread]
    simp only [if_neg (Nat.not_lt.mpr hsize), enterKey_value hvalue, ok_bind]
  · intro result hok
    rw [hscan] at hok
    cases hread : serde.text (utf8 text) with
    | none =>
        rw [hread] at hok
        cases hok
    | some value =>
        refine ⟨value, hread, ?_⟩
        by_contra hsize
        rw [hread] at hok
        simp only [if_pos (Nat.lt_of_not_le hsize)] at hok
        cases hok

/-- A string in the place of a name. -/
theorem gate_name {text : List Char} {name : String} {keys : List String} (hquoted : Quoted text)
    (hread : literal serde text = some name) (h : input.drop i = utf8 text ++ rest) :
    Gate serde input (name.utf8ByteSize ≤ maxStringBytes ∧ name ∉ keys ∧
      keys.length + 1 ≤ maxMembers) i (⟨true, true, keys⟩ :: frames) (i + width text)
      (⟨true, false, name :: keys⟩ :: frames) := by
  have hscan := scan_quoted serde (⟨true, true, keys⟩ :: frames) hquoted h
  rw [literal] at hread
  rw [hread] at hscan
  simp only [enterKey, Bool.and_self, if_true] at hscan
  constructor
  · rintro ⟨hsize, hfresh, hroom⟩
    rw [hscan, if_neg (Nat.not_lt.mpr hsize), if_neg hfresh, if_neg (Nat.not_lt.mpr hroom), ok_bind]
  · intro result hok
    rw [hscan] at hok
    by_cases hsize : name.utf8ByteSize > maxStringBytes
    · rw [if_pos hsize] at hok
      cases hok
    · rw [if_neg hsize] at hok
      by_cases hfresh : name ∈ keys
      · rw [if_pos hfresh] at hok
        cases hok
      · rw [if_neg hfresh] at hok
        by_cases hroom : keys.length + 1 > maxMembers
        · rw [if_pos hroom] at hok
          cases hok
        · exact ⟨Nat.le_of_not_lt hsize, hfresh, Nat.le_of_not_lt hroom⟩

theorem plain_of_blank {text : List Char} (h : Blank text) : Plain text := by
  intro c hc
  have hblank := h c hc
  simp only [isBlank, Bool.or_eq_true, decide_eq_true_eq] at hblank
  obtain ((rfl | rfl) | rfl) | rfl := hblank <;> decide

theorem scan_blank {text : List Char} (hblank : Blank text) (h : input.drop i = utf8 text ++ rest) :
    scan serde input i frames = scan serde input (i + width text) frames :=
  scan_plain h (plain_bytes (plain_of_blank hblank))

theorem utf8_cons {c : Char} (hc : c.toNat < 128) (text : List Char) :
    utf8 (c :: text) = UInt8.ofNat c.toNat :: utf8 text := by
  rw [utf8, List.flatMap_cons, utf8EncodeChar_ascii hc]
  rfl

/-- The gap in front of the first value opens a frame. -/
theorem gate_first (serde : Serde) (frames : List Frame) {c : Char} {gap : List Char}
    (hc : c = '[' ∨ c = Layout.openBrace)
    (hgap : ItemGap c 0 gap) (h : input.drop i = utf8 gap ++ rest) :
    Gate serde input (frames.length < maxDepth) i frames (i + width gap)
      (opened (UInt8.ofNat c.toNat) :: frames) := by
  obtain ⟨blank, blank', -, hblank', rfl⟩ := hgap
  have hascii : c.toNat < 128 := by obtain rfl | rfl := hc <;> decide
  have hbyte : UInt8.ofNat c.toNat = openBrace ∨ UInt8.ofNat c.toNat = openBracket := by
    obtain rfl | rfl := hc
    · exact .inr rfl
    · exact .inl rfl
  rw [if_pos rfl] at h ⊢
  rw [utf8_cons hascii, List.cons_append] at h
  refine (gate_open hbyte h).before fun _ => ?_
  obtain ⟨-, -, hrest⟩ := drop_cons h
  rw [scan_blank hblank' hrest, width, width, utf8_cons hascii, List.length_cons, Nat.add_assoc,
    Nat.add_comm 1]

/-- The gap in front of a later value. -/
theorem scan_next {c : Char} {gap : List Char} {n : ℕ} (hgap : ItemGap c (n + 1) gap)
    (h : input.drop i = utf8 gap ++ rest) :
    scan serde input i frames = scan serde input (i + width gap) (expectKey frames) := by
  obtain ⟨blank, blank', hblank, hblank', rfl⟩ := hgap
  have hcomma : utf8 (',' :: blank') = comma :: utf8 blank' := utf8_cons (by decide) blank'
  rw [if_neg (Nat.succ_ne_zero n)] at h ⊢
  rw [utf8_append, hcomma, List.append_assoc, List.cons_append] at h
  have hfront := drop_append h
  obtain ⟨-, -, hrest⟩ := drop_cons hfront
  rw [scan_blank hblank h, width, scan_comma hfront, scan_blank hblank' hrest]
  rw [width, width, utf8_append, hcomma, List.length_append, List.length_cons]
  congr 1
  omega

/-- The bracket that closes a frame. -/
theorem scan_closing {c : Char} {blank : List Char} {frame : Frame}
    (hc : c = ']' ∨ c = Layout.closeBrace) (hblank : Blank blank)
    (hframe : frame.object = decide (c = Layout.closeBrace))
    (h : input.drop i = utf8 (blank ++ [c]) ++ rest) :
    scan serde input i (frame :: frames) =
      scan serde input (i + width (blank ++ [c])) frames := by
  have hascii : c.toNat < 128 := by obtain rfl | rfl := hc <;> decide
  have hlast : utf8 [c] = [UInt8.ofNat c.toNat] := utf8_cons hascii []
  have hbyte : UInt8.ofNat c.toNat = closeBrace ∨ UInt8.ofNat c.toNat = closeBracket := by
    obtain rfl | rfl := hc
    · exact .inr rfl
    · exact .inl rfl
  have hframe' : frame.object = decide (UInt8.ofNat c.toNat = closeBrace) := by
    rw [hframe]
    obtain rfl | rfl := hc <;> decide
  rw [utf8_append, hlast, List.append_assoc, List.singleton_append] at h
  rw [scan_blank hblank h, width, scan_close hbyte (drop_append h) hframe', width, utf8_append,
    hlast, List.length_append, List.length_singleton, Nat.add_assoc]

/-- The scan passes the values of a layout. -/
def Scanned (serde : Serde) (input : Bytes) (layout : Layout) : Prop :=
  ∀ (i : ℕ) (frames : List Frame) (rest : Bytes), AtValue frames →
    input.drop i = utf8 layout.render ++ rest →
    Gate serde input (Bounded (literal serde) frames.length layout) i frames
      (i + width layout.render) frames

theorem gate_items (serde : Serde) (frames : List Frame) {items : List (List Char × Layout)}
    (hgaps : ∀ item ∈ items, ItemGap '[' 1 item.1)
    (hitems : ∀ item ∈ items, Scanned serde input item.2)
    (h : input.drop i = utf8 (Layout.renderItems items) ++ rest) :
    Gate serde input (∀ item ∈ items, Bounded (literal serde) (frames.length + 1) item.2) i
      (⟨false, false, []⟩ :: frames) (i + width (Layout.renderItems items))
      (⟨false, false, []⟩ :: frames) := by
  induction items generalizing i with
  | nil => exact (Gate.of_eq rfl).congr (by simp)
  | cons item items ih =>
      obtain ⟨gap, inner⟩ := item
      rw [Layout.renderItems, utf8_append, utf8_append, List.append_assoc, List.append_assoc] at h
      have hvalue := drop_append h
      have htail := drop_append hvalue
      refine Gate.after (scan_next (hgaps _ List.mem_cons_self) h) ?_
      have hfirst := hitems _ List.mem_cons_self _ (⟨false, false, []⟩ :: frames) _
        (by rintro frame ⟨⟩; rfl) hvalue
      have hrest := ih (fun item hitem => hgaps item (List.mem_cons_of_mem _ hitem))
        (fun item hitem => hitems item (List.mem_cons_of_mem _ hitem)) htail
      have hwidth : i + width (Layout.renderItems ((gap, inner) :: items)) =
          i + (utf8 gap).length + (utf8 inner.render).length +
            width (Layout.renderItems items) := by
        rw [Layout.renderItems, width_append, width_append, width, width, width]
        omega
      rw [hwidth]
      exact (hfirst.trans fun _ => hrest).congr (by simp)

/-- A name, from its opening quote to behind the colon. -/
theorem gate_head (frames : List Frame) (keys : List String) {text blank blank' head : List Char}
    {name : String} (hquoted : Quoted text) (hread : literal serde text = some name) (hblank : Blank blank)
    (hblank' : Blank blank') (hhead : head = text ++ blank ++ ':' :: blank')
    (h : input.drop i = utf8 head ++ rest) :
    Gate serde input (name.utf8ByteSize ≤ maxStringBytes ∧ name ∉ keys ∧
      keys.length + 1 ≤ maxMembers) i (⟨true, true, keys⟩ :: frames) (i + width head)
      (⟨true, false, name :: keys⟩ :: frames) := by
  have hplain : Plain (blank ++ ':' :: blank') := by
    intro c hc
    obtain hc | hc := List.mem_append.mp hc
    · exact plain_of_blank hblank c hc
    · obtain rfl | hc := List.mem_cons.mp hc
      · decide
      · exact plain_of_blank hblank' c hc
  have hsplit : utf8 head = utf8 text ++ utf8 (blank ++ ':' :: blank') := by
    rw [hhead, List.append_assoc, utf8_append]
  rw [hsplit, List.append_assoc] at h
  refine (gate_name hquoted hread h).before fun _ => ?_
  rw [width, scan_plain (drop_append h) (plain_bytes hplain), width, hsplit, List.length_append,
    Nat.add_assoc]

theorem gate_members {members : List (String × List Char × Layout)} {keys : List String}
    (hgaps : ∀ member ∈ members, MemberGap (literal serde) 1 member.1 member.2.1)
    (hmembers : ∀ member ∈ members, Scanned serde input member.2.2) (hkeys : keys.Nodup)
    (hlength : keys.length ≤ maxMembers)
    (h : input.drop i = utf8 (Layout.renderMembers members) ++ rest) :
    Gate serde input ((keys.length + members.length ≤ maxMembers ∧
        ((members.map (·.1)).reverse ++ keys).Nodup ∧
        ∀ member ∈ members, member.1.utf8ByteSize ≤ maxStringBytes) ∧
        ∀ member ∈ members, Bounded (literal serde) (frames.length + 1) member.2.2) i
      (⟨true, false, keys⟩ :: frames) (i + width (Layout.renderMembers members))
      (⟨true, false, (members.map (·.1)).reverse ++ keys⟩ :: frames) := by
  induction members generalizing i keys with
  | nil => exact (Gate.of_eq rfl).congr (by simpa using ⟨hlength, hkeys⟩)
  | cons member members ih =>
      obtain ⟨name, gap, inner⟩ := member
      obtain ⟨front, text, blank, blank', hfront, hquoted, hread, hblank, hblank', hgap⟩ :=
        hgaps _ List.mem_cons_self
      obtain ⟨head, hhead⟩ : ∃ head, head = text ++ blank ++ ':' :: blank' := ⟨_, rfl⟩
      rw [← hhead] at hgap
      obtain rfl : gap = front ++ head := hgap
      have hsplit : utf8 (Layout.renderMembers ((name, front ++ head, inner) :: members)) =
          utf8 front ++ (utf8 head ++ (utf8 inner.render ++ utf8 (Layout.renderMembers members))) := by
        simp only [Layout.renderMembers, utf8_append, List.append_assoc]
      rw [hsplit, List.append_assoc, List.append_assoc, List.append_assoc] at h
      have hname := drop_append h
      have hvalue := drop_append hname
      have htail := drop_append hvalue
      refine Gate.after (scan_next hfront h) ?_
      have hentered := gate_head frames keys hquoted hread hblank hblank' hhead hname
      have hinner := hmembers _ List.mem_cons_self _ (⟨true, false, name :: keys⟩ :: frames) _
        (by rintro frame ⟨⟩; rfl) hvalue
      have hwidth : i + width (Layout.renderMembers ((name, front ++ head, inner) :: members)) =
          i + (utf8 front).length + width head + width inner.render +
            width (Layout.renderMembers members) := by
        rw [width, hsplit, List.length_append, List.length_append, List.length_append, width, width,
          width]
        omega
      have hkeys' : ((((name, front ++ head, inner) :: members).map (·.1)).reverse ++ keys) =
          (members.map (·.1)).reverse ++ name :: keys := by
        rw [List.map_cons, List.reverse_cons, List.append_assoc, List.singleton_append]
      rw [hwidth, hkeys']
      refine ((hentered.trans fun hentry => hinner.trans fun _ =>
        ih (fun member hmember => hgaps member (List.mem_cons_of_mem _ hmember))
          (fun member hmember => hmembers member (List.mem_cons_of_mem _ hmember))
          (List.nodup_cons.mpr ⟨hentry.2.1, hkeys⟩) hentry.2.2 htail).congr ?_)
      simp only [List.length_cons, List.forall_mem_cons]
      constructor
      · rintro ⟨⟨hsize, -, -⟩, hbounded, ⟨hroom, hnodup, hsizes⟩, hrest⟩
        exact ⟨⟨by omega, hnodup, hsize, hsizes⟩, hbounded, hrest⟩
      · rintro ⟨⟨hroom, hnodup, hsize, hsizes⟩, hbounded, hrest⟩
        have hfresh := (List.nodup_cons.mp (List.Nodup.of_append_right hnodup)).1
        exact ⟨⟨hsize, hfresh, by omega⟩, hbounded, ⟨by omega, hnodup, hsizes⟩, hrest⟩

theorem bounded_array {depth : ℕ} {items : List (List Char × Layout)} {close : List Char}
    {literal : List Char → Option String} :
    Bounded literal depth (.array items close) ↔
      depth < maxDepth ∧ ∀ item ∈ items, Bounded literal (depth + 1) item.2 := by
  constructor
  · intro h
    cases h with
    | array hdepth hitems => exact ⟨hdepth, hitems⟩
  · rintro ⟨hdepth, hitems⟩
    exact .array hdepth hitems

theorem bounded_object {depth : ℕ} {members : List (String × List Char × Layout)}
    {close : List Char} {literal : List Char → Option String} :
    Bounded literal depth (.object members close) ↔
      depth < maxDepth ∧ members.length ≤ maxMembers ∧ (members.map (·.1)).Nodup ∧
        (∀ member ∈ members, member.1.utf8ByteSize ≤ maxStringBytes) ∧
        ∀ member ∈ members, Bounded literal (depth + 1) member.2.2 := by
  constructor
  · intro h
    cases h with
    | object hdepth hlength hnodup hnames hmembers =>
        exact ⟨hdepth, hlength, hnodup, hnames, hmembers⟩
  · rintro ⟨hdepth, hlength, hnodup, hnames, hmembers⟩
    exact .object hdepth hlength hnodup hnames hmembers

/-- Brackets without a value between them. -/
theorem gate_empty {c c' : Char} {blank : List Char}
    (hpair : c = '[' ∧ c' = ']' ∨ c = Layout.openBrace ∧ c' = Layout.closeBrace)
    (hblank : Blank blank) (h : input.drop i = utf8 (c :: (blank ++ [c'])) ++ rest) :
    Gate serde input (frames.length < maxDepth) i frames (i + width (c :: (blank ++ [c'])))
      frames := by
  have hsplit : utf8 (c :: (blank ++ [c'])) = utf8 (c :: blank) ++ utf8 ([] ++ [c']) := by
    rw [← utf8_append]
    rfl
  rw [hsplit, List.append_assoc] at h
  have hopen : ItemGap c 0 (c :: blank) := ⟨[], blank, by simp [Blank], hblank, rfl⟩
  refine (gate_first serde frames (hpair.imp (·.1) (·.1)) hopen h).before fun _ => ?_
  have hclose := drop_append h
  rw [width, scan_closing (hpair.imp (·.2) (·.2)) (by simp [Blank]) ?_ hclose, width, width,
    hsplit, List.length_append, Nat.add_assoc]
  obtain ⟨rfl, rfl⟩ | ⟨rfl, rfl⟩ := hpair <;> rfl

/-- **The scan leaves a value** with the frames it came with, exactly when the value keeps the
bounds. -/
theorem scanned {layout : Layout} (h : Spelled (literal serde) layout) :
    Scanned serde input layout := by
  induction h with
  | @leaf text hkind =>
      intro i frames rest hvalue htext
      obtain hword | hquoted := hkind
      · refine (Gate.of_eq (scan_plain htext (plain_bytes hword.plain))).congr ?_
        exact iff_of_true trivial (.plain hword.plain)
      · refine (gate_text hquoted hvalue htext).congr ?_
        constructor
        · rintro ⟨value, hread, hsize⟩
          exact .text hread hsize
        · intro hbounded
          cases hbounded with
          | plain hplain =>
              obtain ⟨body, -, rfl⟩ := hquoted
              exact absurd (hplain _ List.mem_cons_self) (by decide)
          | text hread hsize => exact ⟨_, hread, hsize⟩
  | @array items close hgaps hitems hclose ih =>
      intro i frames rest hvalue htext
      obtain ⟨blank, hblank, rfl⟩ := hclose
      rw [Layout.render] at htext ⊢
      cases items with
      | nil => exact (gate_empty (.inl ⟨rfl, rfl⟩) hblank htext).congr (by simp [bounded_array])
      | cons item items =>
          obtain ⟨gap, inner⟩ := item
          simp only [List.isEmpty_cons, Bool.false_eq_true, if_false] at htext ⊢
          have hsplit : utf8 (Layout.renderItems ((gap, inner) :: items) ++ (blank ++ [']'])) =
              utf8 gap ++ (utf8 inner.render ++ (utf8 (Layout.renderItems items) ++
                utf8 (blank ++ [']']))) := by
            simp only [Layout.renderItems, utf8_append, List.append_assoc]
          rw [hsplit, List.append_assoc, List.append_assoc, List.append_assoc] at htext
          have hfirst := drop_append htext
          have htail := drop_append hfirst
          have hend := drop_append htail
          have hgaps' : ∀ item ∈ items, ItemGap '[' 1 item.1 := by
            intro item hitem
            obtain ⟨n, hn⟩ := List.mem_iff_getElem?.mp hitem
            exact (hgaps (n + 1) item.1 item.2 hn).later (j := 0)
          have hopen := gate_first serde frames (.inl rfl)
            (hgaps 0 gap inner rfl) htext
          have hvalue' := ih _ List.mem_cons_self _ (⟨false, false, []⟩ :: frames) _
            (by rintro frame ⟨⟩; rfl) hfirst
          have hrest := gate_items serde frames hgaps'
            (fun item hitem => ih item (List.mem_cons_of_mem _ hitem)) htail
          have hwidth : i + width (Layout.renderItems ((gap, inner) :: items) ++ (blank ++ [']'])) =
              i + (utf8 gap).length + (utf8 inner.render).length +
                (utf8 (Layout.renderItems items)).length + width (blank ++ [']']) := by
            rw [width, hsplit, List.length_append, List.length_append, List.length_append, width]
            omega
          rw [hwidth]
          refine ((hopen.trans fun _ => hvalue'.trans fun _ => hrest.before fun _ => ?_).congr ?_)
          · exact scan_closing (.inl rfl) hblank rfl hend
          · rw [bounded_array, List.forall_mem_cons]
            rfl
  | @object members close hgaps hmembers hclose ih =>
      intro i frames rest hvalue htext
      obtain ⟨blank, hblank, rfl⟩ := hclose
      rw [Layout.render] at htext ⊢
      cases members with
      | nil =>
          refine (gate_empty (.inr ⟨rfl, rfl⟩) hblank htext).congr ?_
          simp [bounded_object]
      | cons member members =>
          obtain ⟨name, gap, inner⟩ := member
          simp only [List.isEmpty_cons, Bool.false_eq_true, if_false] at htext ⊢
          obtain ⟨front, text, space, space', hfront, hquoted, hread, hspace, hspace', hgap⟩ :=
            hgaps 0 name gap inner rfl
          obtain ⟨head, hhead⟩ : ∃ head, head = text ++ space ++ ':' :: space' := ⟨_, rfl⟩
          rw [← hhead] at hgap
          obtain rfl : gap = front ++ head := hgap
          have hsplit : utf8 (Layout.renderMembers ((name, front ++ head, inner) :: members) ++
                (blank ++ [Layout.closeBrace])) =
              utf8 front ++ (utf8 head ++ (utf8 inner.render ++ (utf8 (Layout.renderMembers members) ++
                utf8 (blank ++ [Layout.closeBrace])))) := by
            simp only [Layout.renderMembers, utf8_append, List.append_assoc]
          rw [hsplit, List.append_assoc, List.append_assoc, List.append_assoc,
            List.append_assoc] at htext
          have hname := drop_append htext
          have hfirst := drop_append hname
          have htail := drop_append hfirst
          have hend := drop_append htail
          have hgaps' : ∀ member ∈ members, MemberGap (literal serde) 1 member.1 member.2.1 := by
            intro member hmember
            obtain ⟨n, hn⟩ := List.mem_iff_getElem?.mp hmember
            exact (hgaps (n + 1) member.1 member.2.1 member.2.2 hn).later (j := 0)
          have hopen := gate_first serde frames (.inr rfl) hfront htext
          have hentered := gate_head frames [] hquoted hread hspace hspace'
            hhead hname
          have hvalue' := ih _ List.mem_cons_self _ (⟨true, false, [name]⟩ :: frames) _
            (by rintro frame ⟨⟩; rfl) hfirst
          have hwidth : i + width (Layout.renderMembers ((name, front ++ head, inner) :: members) ++
                (blank ++ [Layout.closeBrace])) =
              i + (utf8 front).length + width head + width inner.render +
                (utf8 (Layout.renderMembers members)).length +
                  width (blank ++ [Layout.closeBrace]) := by
            rw [width, hsplit, List.length_append, List.length_append, List.length_append,
              List.length_append, width, width, width]
            omega
          rw [hwidth]
          refine ((hopen.trans fun _ => hentered.trans fun hentry => hvalue'.trans fun _ =>
            (gate_members hgaps' (fun member hmember => ih member (List.mem_cons_of_mem _ hmember))
              (List.nodup_singleton name) hentry.2.2 htail).before fun _ =>
              scan_closing (.inr rfl) hblank rfl hend).congr ?_)
          have hnames : ((members.map (·.1)).reverse ++ [name]).Nodup ↔
              (name :: members.map (·.1)).Nodup := by
            rw [← List.reverse_cons, List.nodup_reverse]
          rw [bounded_object, List.forall_mem_cons, List.forall_mem_cons, hnames]
          simp only [List.length_cons, List.length_nil, List.map_cons]
          constructor
          · rintro ⟨hdepth, ⟨hsize, -, -⟩, hbounded, ⟨hroom, hnodup, hsizes⟩, hrest⟩
            exact ⟨hdepth, by omega, hnodup, ⟨hsize, hsizes⟩, hbounded, hrest⟩
          · rintro ⟨hdepth, hroom, hnodup, ⟨hsize, hsizes⟩, hbounded, hrest⟩
            exact ⟨hdepth, ⟨hsize, List.not_mem_nil, by omega⟩, hbounded,
              ⟨by omega, hnodup, hsizes⟩, hrest⟩

/-- **The scan of a document.** -/
theorem scan_eq_ok {layout : Layout} {before after : List Char} {result : List Frame}
    (h : Spelled (literal serde) layout) (hbefore : Blank before) (hafter : Blank after) :
    scan serde (utf8 (before ++ (layout.render ++ after))) 0 [] = .ok result ↔
      result = [] ∧ Bounded (literal serde) 0 layout := by
  have htext : (utf8 (before ++ (layout.render ++ after))).drop 0 =
      utf8 before ++ (utf8 layout.render ++ (utf8 after ++ [])) := by
    rw [List.drop_zero, utf8_append, utf8_append, List.append_nil]
  have hvalue := drop_append htext
  have hend := drop_append hvalue
  have hlast := drop_append hend
  have hstop : scan serde (utf8 (before ++ (layout.render ++ after)))
      (0 + (utf8 before).length + (utf8 layout.render).length + (utf8 after).length) [] = .ok [] := by
    rw [scan, dif_neg fun hlt => ?_]
    have hlength := List.length_pos_of_ne_nil (List.drop_eq_nil_iff.not.mpr (Nat.not_le.mpr hlt))
    rw [hlast] at hlength
    exact absurd hlength (Nat.lt_irrefl 0)
  have hgate := Gate.after (scan_blank hbefore htext)
    ((scanned h (0 + (utf8 before).length) [] (utf8 after ++ []) (by rintro frame ⟨⟩) hvalue).before
      fun _ => scan_blank hafter hend)
  constructor
  · intro hscan
    have hbounded := hgate.need result hscan
    rw [hgate.pass hbounded] at hscan
    exact ⟨Except.ok.inj (hscan.symm.trans hstop), hbounded⟩
  · rintro ⟨rfl, hbounded⟩
    exact (hgate.pass hbounded).trans hstop

theorem Bounded.shallower {literal : List Char → Option String} {depth depth' : ℕ}
    {layout : Layout} (h : Bounded literal depth layout) (hle : depth' ≤ depth) :
    Bounded literal depth' layout := by
  induction h generalizing depth' with
  | plain h => exact .plain h
  | text hread hsize => exact .text hread hsize
  | array hdepth hitems ih =>
      exact .array (Nat.lt_of_le_of_lt hle hdepth) fun item hitem =>
        ih item hitem (Nat.succ_le_succ hle)
  | object hdepth hlength hnodup hnames hmembers ih =>
      exact .object (Nat.lt_of_le_of_lt hle hdepth) hlength hnodup hnames fun member hmember =>
        ih member hmember (Nat.succ_le_succ hle)

theorem Bounded.part {literal : List Char → Option String} {depth : ℕ} {layout : Layout}
    (h : Bounded literal depth layout) {part : List Char × Layout} (hpart : part ∈ layout.parts) :
    Bounded literal depth part.2 := by
  cases h with
  | plain h => cases hpart
  | text hread hsize => cases hpart
  | array hdepth hitems => exact (hitems part hpart).shallower (Nat.le_succ _)
  | object hdepth hlength hnodup hnames hmembers =>
      obtain ⟨member, hmember, rfl⟩ := List.mem_map.mp hpart
      exact (hmembers member hmember).shallower (Nat.le_succ _)

end Values

end Validation
end Standards
end Glaux
