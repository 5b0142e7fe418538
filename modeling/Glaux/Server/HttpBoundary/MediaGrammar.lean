import Glaux.Server.HttpBoundary.Media

/-!
# The grammar of media ranges

An element of an `Accept` list as it is written, and what the two scanners make of it.
-/

namespace Glaux
namespace Server
namespace HttpBoundary
namespace Media

open Library FieldLines

section Weight

def point : UInt8 := '.'.toUInt8

def decimal (digits : List UInt8) : ℕ :=
  digits.foldl (fun n digit => 10 * n + (digit - 0x30).toNat) 0

/-- A weight between 0 and 1 with at most three decimals, in thousandths. -/
def QValue (text : List UInt8) (weight : ℕ) : Prop :=
  ∃ whole digits, (text = [whole] ∧ digits = [] ∨ text = whole :: point :: digits) ∧
    digits.length ≤ 3 ∧ (∀ digit ∈ digits, isDigit digit = true) ∧
    (whole = 0x30 ∨ whole = 0x31 ∧ ∀ digit ∈ digits, digit = 0x30) ∧
    weight = (whole - 0x30).toNat * 1000 + decimal digits * 10 ^ (3 - digits.length)

theorem addDigits_eq (quality : ℕ) {digits : List UInt8} (h : digits.length ≤ 3) :
    addDigits quality 100 digits = quality + decimal digits * 10 ^ (3 - digits.length) := by
  have hcases : digits = [] ∨ (∃ a, digits = [a]) ∨ (∃ a b, digits = [a, b]) ∨
      ∃ a b c, digits = [a, b, c] := by
    obtain h | h | h | h : digits.length = 0 ∨ digits.length = 1 ∨ digits.length = 2 ∨
      digits.length = 3 := by omega
    · exact .inl (List.length_eq_zero_iff.mp h)
    · exact .inr (.inl (List.length_eq_one_iff.mp h))
    · exact .inr (.inr (.inl (List.length_eq_two.mp h)))
    · exact .inr (.inr (.inr (List.length_eq_three.mp h)))
  obtain rfl | ⟨a, rfl⟩ | ⟨a, b, rfl⟩ | ⟨a, b, c, rfl⟩ := hcases
  · simp [addDigits, decimal]
  · simp [addDigits, decimal]
  · simp only [addDigits, decimal, List.foldl_cons, List.foldl_nil, List.length_cons,
      List.length_nil]
    omega
  · simp only [addDigits, decimal, List.foldl_cons, List.foldl_nil, List.length_cons,
      List.length_nil]
    omega

theorem parse_quality_eq_ok {text : List UInt8} {weight : ℕ} :
    parse_quality text = .ok weight ↔ QValue text weight := by
  have hpow : ∀ rest : List UInt8, rest ≠ [] → rest.head? = some point →
      rest = point :: rest.tail := fun rest _ h => (List.cons_head?_tail h).symm
  cases text with
  | nil =>
      refine iff_of_false nofun ?_
      rintro ⟨whole, digits, ⟨h, -⟩ | h, -⟩
      · exact absurd h nofun
      · exact absurd h nofun
  | cons whole rest =>
      rw [parse_quality]
      constructor
      · intro h
        split at h
        · exact absurd h nofun
        · rename_i hwhole
          split at h
          · exact absurd h nofun
          · rename_i hpoint
            split at h
            · exact absurd h nofun
            · rename_i hdigits
              rw [not_or, not_or, not_not] at hdigits
              obtain ⟨hlength, hall, hone⟩ := hdigits
              have hlength : rest.tail.length ≤ 3 := Nat.le_of_not_lt hlength
              refine ⟨whole, rest.tail, ?_, hlength, List.all_eq_true.mp hall, ?_, ?_⟩
              · by_cases hempty : rest = []
                · exact .inl ⟨by rw [hempty], by rw [hempty]; rfl⟩
                · have hhead : rest.head? = some point :=
                    not_not.mp fun hne => hpoint ⟨hempty, hne⟩
                  exact .inr (by rw [← hpow rest hempty hhead])
              · by_cases hzero : whole = 0x30
                · exact .inl hzero
                · have hwhole : whole = 0x31 := not_not.mp fun hne => hwhole ⟨hzero, hne⟩
                  refine .inr ⟨hwhole, fun digit hdigit => ?_⟩
                  by_contra hne
                  exact hone ⟨hwhole, List.any_eq_true.mpr ⟨digit, hdigit, by simpa using hne⟩⟩
              · rw [← addDigits_eq _ hlength]
                exact (Except.ok.inj h).symm
      · rintro ⟨whole', digits, htext, hlength, hall, hwhole, rfl⟩
        have hrest : whole = whole' ∧ rest.tail = digits ∧
            (rest ≠ [] → rest.head? = some point) := by
          obtain ⟨h, rfl⟩ | h := htext
          · obtain ⟨rfl, rfl⟩ := List.cons.inj h
            exact ⟨rfl, rfl, fun h => absurd rfl h⟩
          · obtain ⟨rfl, rfl⟩ := List.cons.inj h
            exact ⟨rfl, rfl, fun _ => rfl⟩
        obtain ⟨rfl, rfl, hpoint⟩ := hrest
        have hone : ¬ (whole = 0x31 ∧ (rest.tail.any fun byte => byte ≠ 0x30) = true) := by
          rintro ⟨rfl, hany⟩
          obtain ⟨digit, hdigit, hne⟩ := List.any_eq_true.mp hany
          obtain h | ⟨-, hzeros⟩ := hwhole
          · exact absurd h (by decide)
          · exact absurd (hzeros digit hdigit) (by simpa using hne)
        have hfirst : ¬ (whole ≠ 0x30 ∧ whole ≠ 0x31) := fun ⟨h, h'⟩ =>
          hwhole.elim (absurd · h) fun hw => absurd hw.1 h'
        rw [if_neg hfirst, if_neg fun h => h.2 (hpoint h.1),
          if_neg fun h => h.elim (Nat.not_lt.mpr hlength)
            fun h => h.elim (fun h => h (List.all_eq_true.mpr hall)) hone,
          addDigits_eq _ hlength]

end Weight

section Segments

def Blanks (bytes : List UInt8) : Prop := ∀ byte ∈ bytes, blank byte = true

def Token (bytes : List UInt8) : Prop := bytes ≠ [] ∧ ∀ byte ∈ bytes, token_byte byte = true

/-- A semicolon between blanks, with or without a parameter behind it. -/
inductive Segment where
  | empty (before after : List UInt8)
  | parameter (before after name : List UInt8) (value : Value)

namespace Segment

def text : Segment → List UInt8
  | empty before after => before ++ semicolon :: after
  | parameter before after name value =>
      before ++ semicolon :: (after ++ (name ++ equals :: value.written))

def WellFormed : Segment → Prop
  | empty before after => Blanks before ∧ Blanks after
  | parameter before after name value =>
      Blanks before ∧ Blanks after ∧ Token name ∧ value.WellFormed

/-- What the loop does at a segment. -/
def apply (range : Bool) (s : Reading) : Segment → Except Unit Reading
  | empty _ _ =>
      if s.empty + 1 > maxEmptyElements then .error () else .ok { s with empty := s.empty + 1 }
  | parameter _ _ name value =>
      if s.parameters.length + (if s.quality.isSome then 1 else 0) = maxParameters then .error ()
      else enter range s (lowercase name) value.text value.isQuoted

end Segment

/-- Behind the blanks there is a semicolon or nothing. -/
def Stops (rest : List UInt8) : Prop :=
  (ows rest).head? = none ∨ (ows rest).head? = some semicolon

theorem ows_blanks {blanks rest : List UInt8} (h : Blanks blanks) :
    ows (blanks ++ rest) = ows rest :=
  List.dropWhile_append_of_pos h

theorem ows_ows (cursor : List UInt8) : ows (ows cursor) = ows cursor :=
  List.dropWhile_idempotent _ _

theorem ows_first {byte : UInt8} {rest : List UInt8} (h : blank byte = false) :
    ows (byte :: rest) = byte :: rest :=
  List.dropWhile_cons_of_neg (by simp [h])

theorem blanks_ows (cursor : List UInt8) :
    Blanks (cursor.takeWhile blank) ∧ cursor = cursor.takeWhile blank ++ ows cursor :=
  ⟨takeWhile_accepted blank cursor, List.takeWhile_append_dropWhile.symm⟩

theorem Stops.token {rest : List UInt8} (h : Stops rest) :
    ∀ byte ∈ rest.head?, token_byte byte = false := by
  intro byte hbyte
  cases rest with
  | nil => exact absurd hbyte nofun
  | cons first rest =>
      obtain rfl := Option.some.inj hbyte
      cases hblank : blank first with
      | true =>
          rw [blank, Bool.or_eq_true, beq_iff_eq, beq_iff_eq] at hblank
          obtain rfl | rfl := hblank <;> decide
      | false =>
          rw [Stops, ows_first hblank] at h
          obtain h | h := h
          · exact absurd h nofun
          · obtain rfl := Option.some.inj h
            decide

theorem token_blank {byte : UInt8} (h : token_byte byte = true) :
    blank byte = false ∧ byte ≠ semicolon ∧ byte ≠ comma ∧ byte ≠ quote := by
  refine ⟨?_, ?_, ?_, ?_⟩
  · cases hblank : blank byte with
    | false => rfl
    | true =>
        rw [blank, Bool.or_eq_true, beq_iff_eq, beq_iff_eq] at hblank
        obtain rfl | rfl := hblank <;> exact absurd h (by decide)
  · rintro rfl
    exact absurd h (by decide)
  · rintro rfl
    exact absurd h (by decide)
  · rintro rfl
    exact absurd h (by decide)

theorem turn_ows (range : Bool) (s : Reading) (cursor : List UInt8) :
    turn range s (ows cursor) = turn range s cursor := by
  rw [turn, turn, ows_ows]

/-- **A turn** reads a segment and does what it says. -/
theorem segment_of_turn {range : Bool} {s s' : Reading} {cursor after : List UInt8}
    (h : turn range s cursor = .ok (some (s', after))) :
    ∃ segment : Segment, segment.WellFormed ∧ cursor = segment.text ++ after ∧
      segment.apply range s = .ok s' := by
  obtain ⟨hbefore, hcursor⟩ := blanks_ows cursor
  rw [turn] at h
  split at h
  · cases h
  · obtain ⟨rest, htake, h⟩ := bind_eq_ok.mp h
    rw [take_eq_ok.mp htake] at hcursor
    obtain ⟨hafter, hrest⟩ := blanks_ows rest
    dsimp only at h
    split at h
    · split at h
      · cases h
      · rename_i hroom
        obtain ⟨rfl, rfl⟩ := Prod.mk.inj (Option.some.inj (Except.ok.inj h))
        refine ⟨.empty _ _, ⟨hbefore, hafter⟩, ?_, if_neg hroom⟩
        rw [Segment.text, List.append_assoc, List.cons_append, ← hrest, ← hcursor]
    · by_cases hfull : s.parameters.length + (if s.quality.isSome then 1 else 0) = maxParameters
      · rw [if_pos hfull] at h
        cases h
      · rw [if_neg hfull] at h
        obtain ⟨⟨name, rest'⟩, hname, h⟩ := bind_eq_ok.mp h
        obtain ⟨rest'', hequals, h⟩ := bind_eq_ok.mp h
        obtain ⟨⟨⟨text, quoted⟩, last⟩, hvalue, h⟩ := bind_eq_ok.mp h
        obtain ⟨s'', henter, h⟩ := bind_eq_ok.mp h
        obtain ⟨rfl, rfl⟩ := Prod.mk.inj (Option.some.inj (Except.ok.inj h))
        obtain ⟨htoken, -, hrest'⟩ := token_eq_ok.mp hname
        obtain rfl := take_eq_ok.mp hequals
        obtain ⟨v, hv, -, rfl, rfl, rfl⟩ := value_eq_ok.mp hvalue
        refine ⟨.parameter _ _ name v, ⟨hbefore, hafter, htoken, hv⟩, ?_, ?_⟩
        · rw [hrest'] at hrest
          conv_lhs => rw [hcursor, hrest]
          simp only [Segment.text, List.append_assoc, List.cons_append]
        · rw [Segment.apply, if_neg hfull]
          exact henter

/-- A segment is read where another one or nothing follows. -/
theorem turn_of_segment {range : Bool} {s s' : Reading} {segment : Segment} {rest : List UInt8}
    (hsegment : segment.WellFormed) (hrest : Stops rest)
    (h : segment.apply range s = .ok s') :
    ∃ after, turn range s (segment.text ++ rest) = .ok (some (s', after)) ∧
      ows after = ows rest := by
  cases segment with
  | empty before after =>
      obtain ⟨hbefore, hafter⟩ := hsegment
      have hows : ows (Segment.text (.empty before after) ++ rest) =
          semicolon :: (after ++ rest) := by
        rw [Segment.text, List.append_assoc, List.cons_append, ows_blanks hbefore,
          ows_first (by decide)]
      refine ⟨ows rest, ?_, ows_ows rest⟩
      rw [Segment.apply] at h
      split at h
      · exact absurd h nofun
      · rename_i hroom
        obtain rfl := Except.ok.inj h
        rw [turn, hows, if_neg (by simp), take_eq_ok.mpr rfl, ok_bind]
        simp only [ows_blanks hafter, if_pos (show (ows rest).head? = none ∨
          (ows rest).head? = some semicolon from hrest), if_neg hroom]
  | parameter before after name v =>
      obtain ⟨hbefore, hafter, hname, hv⟩ := hsegment
      have hows : ows (Segment.text (.parameter before after name v) ++ rest) =
          semicolon :: (after ++ (name ++ (equals :: (v.written ++ rest)))) := by
        simp only [Segment.text, List.append_assoc, List.cons_append]
        rw [ows_blanks hbefore, ows_first (by decide)]
      obtain ⟨first, more, hfirst⟩ := List.exists_cons_of_ne_nil hname.1
      obtain ⟨hblank, hsemicolon, -, -⟩ :=
        token_blank (hname.2 first (by rw [hfirst]; exact List.mem_cons_self))
      have hcursor : ows (after ++ (name ++ (equals :: (v.written ++ rest)))) =
          name ++ (equals :: (v.written ++ rest)) := by
        rw [ows_blanks hafter, hfirst, List.cons_append, ows_first hblank]
      have hplain : ¬ ((name ++ (equals :: (v.written ++ rest))).head? = none ∨
          (name ++ (equals :: (v.written ++ rest))).head? = some semicolon) := by
        rw [hfirst]
        simpa using hsemicolon
      rw [Segment.apply] at h
      by_cases hfull : s.parameters.length + (if s.quality.isSome then 1 else 0) = maxParameters
      · rw [if_pos hfull] at h
        exact absurd h nofun
      · rw [if_neg hfull] at h
        have htoken : token (name ++ (equals :: (v.written ++ rest))) =
            .ok (name, equals :: (v.written ++ rest)) := by
          refine token_eq_ok.mpr ⟨hname, ?_, rfl⟩
          intro byte hbyte
          obtain rfl := Option.some.inj hbyte
          decide
        have hvalue : value (v.written ++ rest) = .ok ((v.text, v.isQuoted), rest) :=
          value_eq_ok.mpr ⟨v, hv, fun _ => hrest.token, rfl, rfl, rfl⟩
        refine ⟨rest, ?_, rfl⟩
        rw [turn, hows, if_neg (by simp), take_eq_ok.mpr rfl, ok_bind]
        simp only [hcursor, if_neg hplain, if_neg hfull, htoken, ok_bind, take_eq_ok.mpr rfl,
          hvalue, h]

theorem turn_none {range : Bool} {s : Reading} {cursor : List UInt8} :
    turn range s cursor = .ok none ↔ ows cursor = [] := by
  constructor
  · intro h
    by_contra hows
    rw [turn, if_neg hows] at h
    obtain ⟨rest, -, h⟩ := bind_eq_ok.mp h
    dsimp only at h
    split at h
    · split at h
      · cases h
      · cases Except.ok.inj h
    · by_cases hfull : s.parameters.length + (if s.quality.isSome then 1 else 0) = maxParameters
      · rw [if_pos hfull] at h
        cases h
      · rw [if_neg hfull] at h
        obtain ⟨_, -, h⟩ := bind_eq_ok.mp h
        obtain ⟨_, -, h⟩ := bind_eq_ok.mp h
        obtain ⟨_, -, h⟩ := bind_eq_ok.mp h
        obtain ⟨_, -, h⟩ := bind_eq_ok.mp h
        cases Except.ok.inj h
  · intro h
    rw [turn, if_pos h]

theorem loop_error {range : Bool} {s : Reading} {cursor : List UInt8}
    (h : turn range s cursor = .error ()) : loop range s cursor = .error () := by
  rw [loop.eq_def]
  split
  · rfl
  · rename_i hnone
    cases h.symm.trans hnone
  · rename_i hsome
    cases h.symm.trans hsome

theorem loop_none {range : Bool} {s : Reading} {cursor : List UInt8}
    (h : turn range s cursor = .ok none) : loop range s cursor = .ok s := by
  rw [loop.eq_def]
  split
  · rename_i herror
    cases h.symm.trans herror
  · rfl
  · rename_i hsome
    cases h.symm.trans hsome

theorem loop_some {range : Bool} {s s' : Reading} {cursor after : List UInt8}
    (h : turn range s cursor = .ok (some (s', after))) :
    loop range s cursor = loop range s' after := by
  rw [loop.eq_def]
  split
  · rename_i herror
    cases h.symm.trans herror
  · rename_i hnone
    cases h.symm.trans hnone
  · rename_i hsome
    obtain ⟨rfl, rfl⟩ := Prod.mk.inj (Option.some.inj (Except.ok.inj (h.symm.trans hsome)))
    rfl

theorem loop_ows (range : Bool) (s : Reading) (cursor : List UInt8) :
    loop range s (ows cursor) = loop range s cursor := by
  have hows := turn_ows range s cursor
  cases hturn : turn range s cursor with
  | error e =>
      rw [loop_error hturn, loop_error (hows.trans hturn)]
  | ok next =>
      cases next with
      | none => rw [loop_none hturn, loop_none (hows.trans hturn)]
      | some next => rw [loop_some hturn, loop_some (hows.trans hturn)]

/-- What the segments of an element make of the reading. -/
def enterAll (range : Bool) (s : Reading) (segments : List Segment) : Except Unit Reading :=
  segments.foldlM (fun s segment => segment.apply range s) s

theorem stops_segments {segments : List Segment} {after : List UInt8}
    (hsegments : ∀ segment ∈ segments, segment.WellFormed) (hafter : Blanks after) :
    Stops (segments.flatMap Segment.text ++ after) := by
  cases segments with
  | nil =>
      refine .inl ?_
      rw [List.flatMap_nil, List.nil_append, ← List.append_nil after, ows_blanks hafter]
      rfl
  | cons segment segments =>
      refine .inr ?_
      have hsegment := hsegments segment List.mem_cons_self
      cases segment with
      | empty before after' =>
          rw [List.flatMap_cons, Segment.text, List.append_assoc, List.append_assoc,
            ows_blanks hsegment.1, List.cons_append, ows_first (by decide)]
          rfl
      | parameter before after' name v =>
          rw [List.flatMap_cons, Segment.text, List.append_assoc, List.append_assoc,
            ows_blanks hsegment.1, List.cons_append, ows_first (by decide)]
          rfl

/-- **The loop** reads segments to the end. -/
theorem loop_eq_ok {range : Bool} {s s' : Reading} {cursor : List UInt8} :
    loop range s cursor = .ok s' ↔
      ∃ segments after, (∀ segment ∈ segments, segment.WellFormed) ∧ Blanks after ∧
        cursor = segments.flatMap Segment.text ++ after ∧ enterAll range s segments = .ok s' := by
  constructor
  · intro h
    induction s, cursor using loop.induct range with
    | case1 s cursor hturn =>
        rw [loop_error hturn] at h
        exact absurd h nofun
    | case2 s cursor hturn =>
        rw [loop_none hturn] at h
        obtain ⟨hblanks, hcursor⟩ := blanks_ows cursor
        rw [turn_none.mp hturn, List.append_nil] at hcursor
        exact ⟨[], cursor, nofun, hcursor ▸ hblanks, rfl, h⟩
    | case3 s cursor s₁ after hturn ih =>
        rw [loop_some hturn] at h
        obtain ⟨segment, hsegment, rfl, happly⟩ := segment_of_turn hturn
        obtain ⟨segments, last, hsegments, hlast, rfl, hall⟩ := ih h
        refine ⟨segment :: segments, last, List.forall_mem_cons.mpr ⟨hsegment, hsegments⟩, hlast,
          by simp, ?_⟩
        exact foldlM_cons_eq_ok.mpr ⟨s₁, happly, hall⟩
  · rintro ⟨segments, after, hsegments, hafter, rfl, h⟩
    induction segments generalizing s with
    | nil =>
        have hempty : ows (List.flatMap Segment.text [] ++ after) = [] := by
          rw [List.flatMap_nil, List.nil_append, ← List.append_nil after, ows_blanks hafter]
          rfl
        rw [loop_none (turn_none.mpr hempty)]
        exact h
    | cons segment segments ih =>
        obtain ⟨hsegment, hsegments⟩ := List.forall_mem_cons.mp hsegments
        obtain ⟨s₁, happly, hall⟩ := foldlM_cons_eq_ok.mp h
        obtain ⟨rest, hturn, hows⟩ :=
          turn_of_segment hsegment (stops_segments hsegments hafter) happly
        rw [List.flatMap_cons, List.append_assoc, loop_some hturn, ← loop_ows, hows, loop_ows]
        exact ih hsegments hall

end Segments

section Meaning

/-- The parameter of a segment; a weight is none. -/
def Segment.parameter? (range : Bool) : Segment → Option (List UInt8 × List UInt8)
  | empty _ _ => none
  | parameter _ _ name value =>
      if range && lowercase name == q then none else some (lowercase name, value.text)

/-- The weight of a segment, where weights are known. -/
def Segment.weight? (range : Bool) : Segment → Option Value
  | empty _ _ => none
  | parameter _ _ name value => if range && lowercase name == q then some value else none

def Segment.isEmpty : Segment → Bool
  | empty _ _ => true
  | parameter .. => false

/-- An unquoted weight. -/
def Weight (value : Value) (weight : ℕ) : Prop :=
  value.isQuoted = false ∧ QValue value.text weight

/-- What has been read keeps its bounds. -/
structure Reading.Within (s : Reading) : Prop where
  distinct : (s.parameters.map (·.1)).Nodup
  few : s.parameters.length + s.quality.toList.length ≤ maxParameters
  fewEmpty : s.empty ≤ maxEmptyElements

/-- What the segments add to the reading. -/
structure Adds (range : Bool) (s : Reading) (segments : List Segment) (s' : Reading) : Prop where
  parameters : s'.parameters = s.parameters ++ segments.filterMap (Segment.parameter? range)
  quality : ∃ weights, List.Forall₂ Weight (segments.filterMap (Segment.weight? range)) weights ∧
    s'.quality.toList = s.quality.toList ++ weights
  empty : s'.empty = s.empty + segments.countP Segment.isEmpty

theorem count_quality (s : Reading) :
    (if s.quality.isSome then 1 else 0) = s.quality.toList.length := by
  cases s.quality with
  | none => rfl
  | some weight => rfl

theorem toList_injective {a b : Option ℕ} (h : a.toList = b.toList) : a = b := by
  cases a <;> cases b <;> simp_all

theorem adds_nil {range : Bool} {s s' : Reading} : Adds range s [] s' ↔ s' = s := by
  constructor
  · rintro ⟨hparameters, ⟨weights, hweights, hquality⟩, hempty⟩
    obtain rfl := List.forall₂_nil_left_iff.mp hweights
    obtain ⟨parameters, quality, empty⟩ := s'
    obtain rfl : parameters = s.parameters := by simpa using hparameters
    obtain rfl : quality = s.quality := toList_injective (by simpa using hquality)
    obtain rfl : empty = s.empty := by simpa using hempty
    rfl
  · rintro rfl
    exact ⟨by simp, ⟨[], .nil, by simp⟩, by simp⟩

theorem Adds.within {range : Bool} {s s' : Reading} {segments : List Segment}
    (h : Adds range s segments s') (hs : s'.Within) : s.Within := by
  obtain ⟨weights, -, hquality⟩ := h.quality
  have hdistinct := hs.distinct
  have hfew := hs.few
  have hfewEmpty := hs.fewEmpty
  rw [h.parameters, List.map_append] at hdistinct
  rw [h.parameters, hquality, List.length_append, List.length_append] at hfew
  rw [h.empty] at hfewEmpty
  exact ⟨hdistinct.of_append_left, by omega, by omega⟩

theorem adds_empty {range : Bool} {s s' : Reading} {before after : List UInt8} :
    Adds range s [.empty before after] s' ↔ s' = { s with empty := s.empty + 1 } := by
  constructor
  · rintro ⟨hparameters, ⟨weights, hweights, hquality⟩, hempty⟩
    obtain rfl := List.forall₂_nil_left_iff.mp hweights
    obtain ⟨parameters, quality, empty⟩ := s'
    obtain rfl : parameters = s.parameters := hparameters.trans (List.append_nil _)
    obtain rfl : quality = s.quality := toList_injective (hquality.trans (List.append_nil _))
    obtain rfl : empty = s.empty + 1 := hempty
    rfl
  · rintro rfl
    exact ⟨(List.append_nil _).symm, ⟨[], .nil, (List.append_nil _).symm⟩, rfl⟩

theorem adds_weight {range : Bool} {s s' : Reading} {before after name : List UInt8} {v : Value}
    (hname : (range && lowercase name == q) = true) :
    Adds range s [.parameter before after name v] s' ↔
      ∃ weight, Weight v weight ∧ s.quality = none ∧ s' = { s with quality := some weight } := by
  have hparameter : [Segment.parameter before after name v].filterMap
      (Segment.parameter? range) = [] := List.filterMap_cons_none (if_pos hname)
  have hweight : [Segment.parameter before after name v].filterMap
      (Segment.weight? range) = [v] := List.filterMap_cons_some (if_pos hname)
  constructor
  · rintro ⟨hparameters, ⟨weights, hweights, hquality⟩, hempty⟩
    rw [hparameter] at hparameters
    rw [hweight] at hweights
    obtain ⟨weight, _, hv, hnil, rfl⟩ := List.forall₂_cons_left_iff.mp hweights
    obtain rfl := List.forall₂_nil_left_iff.mp hnil
    obtain ⟨parameters, quality, empty⟩ := s'
    obtain rfl : parameters = s.parameters := hparameters.trans (List.append_nil _)
    obtain rfl : empty = s.empty := hempty
    refine ⟨weight, hv, ?_⟩
    cases hold : s.quality with
    | none =>
        rw [hold] at hquality
        obtain rfl : quality = some weight := toList_injective hquality
        exact ⟨rfl, rfl⟩
    | some old =>
        rw [hold] at hquality
        have hlength := congrArg List.length hquality
        cases quality <;> simp at hlength
  · rintro ⟨weight, hv, hnone, rfl⟩
    refine ⟨?_, ⟨[weight], ?_, ?_⟩, rfl⟩
    · rw [hparameter, List.append_nil]
    · rw [hweight]
      exact .cons hv .nil
    · rw [hnone]
      rfl

theorem adds_parameter {range : Bool} {s s' : Reading} {before after name : List UInt8}
    {v : Value} (hname : ¬ (range && lowercase name == q) = true) :
    Adds range s [.parameter before after name v] s' ↔
      s' = { s with parameters := s.parameters ++ [(lowercase name, v.text)] } := by
  have hparameter : [Segment.parameter before after name v].filterMap
      (Segment.parameter? range) = [(lowercase name, v.text)] :=
    List.filterMap_cons_some (if_neg hname)
  have hweight : [Segment.parameter before after name v].filterMap
      (Segment.weight? range) = [] := List.filterMap_cons_none (if_neg hname)
  constructor
  · rintro ⟨hparameters, ⟨weights, hweights, hquality⟩, hempty⟩
    rw [hparameter] at hparameters
    rw [hweight] at hweights
    obtain rfl := List.forall₂_nil_left_iff.mp hweights
    obtain ⟨parameters, quality, empty⟩ := s'
    obtain rfl := hparameters
    obtain rfl : quality = s.quality := toList_injective (hquality.trans (List.append_nil _))
    obtain rfl : empty = s.empty := hempty
    rfl
  · rintro rfl
    refine ⟨?_, ⟨[], ?_, (List.append_nil _).symm⟩, rfl⟩
    · rw [hparameter]
    · rw [hweight]
      exact .nil

/-- **One segment** adds what it says, within the bounds. -/
theorem apply_eq_ok {range : Bool} {s s' : Reading} {segment : Segment} (hs : s.Within) :
    segment.apply range s = .ok s' ↔ Adds range s [segment] s' ∧ s'.Within := by
  obtain ⟨hdistinct, hfew, hfewEmpty⟩ := hs
  cases segment with
  | empty before after =>
      rw [Segment.apply, adds_empty]
      constructor
      · intro h
        split at h
        · exact absurd h nofun
        · rename_i hroom
          obtain rfl := Except.ok.inj h
          exact ⟨rfl, hdistinct, hfew, Nat.le_of_not_lt hroom⟩
      · rintro ⟨rfl, hs'⟩
        exact if_neg (Nat.not_lt.mpr hs'.fewEmpty)
  | parameter before after name v =>
      rw [Segment.apply, count_quality, enter]
      by_cases hname : (range && lowercase name == q) = true
      · rw [if_pos hname, adds_weight hname]
        constructor
        · intro h
          split at h
          · exact absurd h nofun
          · rename_i hfull
            split at h
            · exact absurd h nofun
            · rename_i hplain
              obtain ⟨weight, hquality, rfl⟩ := map_eq_ok.mp h
              rw [Bool.or_eq_true, not_or, Bool.not_eq_true, Bool.not_eq_true,
                Option.isSome_eq_false_iff, Option.isNone_iff_eq_none] at hplain
              obtain ⟨hnone, hunquoted⟩ := hplain
              refine ⟨⟨weight, ⟨hunquoted, parse_quality_eq_ok.mp hquality⟩, hnone, rfl⟩,
                hdistinct, ?_, hfewEmpty⟩
              rw [hnone] at hfull hfew
              simp only [Option.toList_none, Option.toList_some, List.length_nil,
                List.length_singleton] at hfull hfew ⊢
              omega
        · rintro ⟨⟨weight, ⟨hunquoted, hquality⟩, hnone, rfl⟩, hs'⟩
          have hroom := hs'.few
          simp only [Option.toList_some, List.length_singleton] at hroom
          rw [hnone, if_neg (by simp only [Option.toList_none, List.length_nil]; omega),
            if_neg (by simp [hunquoted]), parse_quality_eq_ok.mpr hquality]
          rfl
      · rw [if_neg hname, adds_parameter hname]
        have hknown : (s.parameters.any fun existing => existing.1 == lowercase name) = true ↔
            lowercase name ∈ s.parameters.map (·.1) := by
          rw [List.any_eq_true, List.mem_map]
          simp only [beq_iff_eq]
        constructor
        · intro h
          split at h
          · exact absurd h nofun
          · rename_i hfull
            split at h
            · exact absurd h nofun
            · rename_i hnew
              obtain rfl := Except.ok.inj h
              rw [hknown] at hnew
              refine ⟨rfl, ?_, ?_, hfewEmpty⟩
              · rw [List.map_append, List.map_singleton]
                refine List.nodup_append.mpr ⟨hdistinct, List.nodup_singleton _, ?_⟩
                intro a ha b hb hab
                rw [hab, List.mem_singleton.mp hb] at ha
                exact hnew ha
              · simp only [List.length_append, List.length_singleton]
                omega
        · rintro ⟨rfl, hs'⟩
          have hroom := hs'.few
          have hnodup := hs'.distinct
          simp only [List.length_append, List.length_singleton] at hroom
          rw [List.map_append, List.map_singleton] at hnodup
          rw [if_neg (by omega), if_neg]
          rw [hknown]
          exact fun hmem => (List.nodup_append.mp hnodup).2.2 _ hmem _ (List.mem_singleton_self _) rfl

theorem forall₂_append_left {α β : Type} {R : α → β → Prop} {as as' : List α} {bs : List β}
    (h : List.Forall₂ R (as ++ as') bs) :
    ∃ front back, List.Forall₂ R as front ∧ List.Forall₂ R as' back ∧ bs = front ++ back := by
  induction as generalizing bs with
  | nil => exact ⟨[], bs, .nil, h, rfl⟩
  | cons a as ih =>
      obtain ⟨b, rest, hb, hrest, rfl⟩ := List.forall₂_cons_left_iff.mp h
      obtain ⟨front, back, hfront, hback, rfl⟩ := ih hrest
      exact ⟨b :: front, back, .cons hb hfront, hback, rfl⟩

/-- An option with the items of a list that has at most one. -/
theorem toList_head? {items : List ℕ} (h : items.length ≤ 1) : items.head?.toList = items := by
  cases items with
  | nil => rfl
  | cons item items =>
      cases items with
      | nil => rfl
      | cons next items => exact absurd h (by simp)

theorem adds_cons {range : Bool} {s s' : Reading} {segment : Segment} {segments : List Segment} :
    Adds range s (segment :: segments) s' ↔
      ∃ s₁, Adds range s [segment] s₁ ∧ Adds range s₁ segments s' := by
  have hsplit : ∀ {β : Type} (f : Segment → Option β), (segment :: segments).filterMap f =
      [segment].filterMap f ++ segments.filterMap f := fun f =>
    @List.filterMap_append _ _ [segment] segments f
  constructor
  · rintro ⟨hparameters, ⟨weights, hweights, hquality⟩, hempty⟩
    rw [hsplit] at hparameters hweights
    obtain ⟨first, rest, hfirst, hrest, rfl⟩ := forall₂_append_left hweights
    have hlength := congrArg List.length hquality
    have hone : s'.quality.toList.length ≤ 1 := by
      cases s'.quality with
      | none => exact Nat.zero_le _
      | some weight => exact Nat.le_refl _
    rw [List.length_append, List.length_append] at hlength
    have hhead := @toList_head? (s.quality.toList ++ first)
      (by rw [List.length_append]; omega)
    refine ⟨⟨s.parameters ++ [segment].filterMap (Segment.parameter? range),
      (s.quality.toList ++ first).head?, s.empty + [segment].countP Segment.isEmpty⟩,
      ⟨rfl, ⟨first, hfirst, hhead⟩, rfl⟩, ⟨?_, ⟨rest, hrest, ?_⟩, ?_⟩⟩
    · rw [hparameters, List.append_assoc]
    · rw [hquality, hhead, List.append_assoc]
    · rw [hempty, Nat.add_assoc, ← List.countP_append, List.singleton_append]
  · rintro ⟨s₁, ⟨hparameters₁, ⟨first, hfirst, hquality₁⟩, hempty₁⟩, hparameters,
      ⟨rest, hrest, hquality⟩, hempty⟩
    refine ⟨?_, ⟨first ++ rest, ?_, ?_⟩, ?_⟩
    · rw [hsplit, hparameters, hparameters₁, List.append_assoc]
    · rw [hsplit]
      exact List.rel_append hfirst hrest
    · rw [hquality, hquality₁, List.append_assoc]
    · rw [hempty, hempty₁, Nat.add_assoc, ← List.countP_append, List.singleton_append]

/-- **All segments** add what they say, within the bounds. -/
theorem enterAll_eq_ok {range : Bool} {s s' : Reading} {segments : List Segment} (hs : s.Within) :
    enterAll range s segments = .ok s' ↔ Adds range s segments s' ∧ s'.Within := by
  induction segments generalizing s with
  | nil =>
      rw [adds_nil]
      constructor
      · intro h
        obtain rfl := Except.ok.inj h
        exact ⟨rfl, hs⟩
      · rintro ⟨rfl, -⟩
        rfl
  | cons segment segments ih =>
      rw [adds_cons]
      constructor
      · intro h
        obtain ⟨s₁, happly, hall⟩ := foldlM_cons_eq_ok.mp h
        obtain ⟨hadds, hs₁⟩ := (apply_eq_ok hs).mp happly
        obtain ⟨hall, hs'⟩ := (ih hs₁).mp hall
        exact ⟨⟨s₁, hadds, hall⟩, hs'⟩
      · rintro ⟨⟨s₁, hadds, hall⟩, hs'⟩
        have hs₁ := hall.within hs'
        exact foldlM_cons_eq_ok.mpr ⟨s₁, (apply_eq_ok hs).mpr ⟨hadds, hs₁⟩, (ih hs₁).mpr ⟨hall, hs'⟩⟩

end Meaning

section Trimming

/-- The last byte is no blank. -/
def EndsSolid (bytes : List UInt8) : Prop :=
  ∃ front byte, bytes = front ++ [byte] ∧ blank byte = false

theorem EndsSolid.append {bytes : List UInt8} (front : List UInt8) (h : EndsSolid bytes) :
    EndsSolid (front ++ bytes) := by
  obtain ⟨before, byte, rfl, hbyte⟩ := h
  exact ⟨front ++ before, byte, by rw [List.append_assoc], hbyte⟩

theorem endsSolid_token {bytes : List UInt8} (h : Token bytes) : EndsSolid bytes := by
  refine ⟨bytes.dropLast, bytes.getLast h.1, (List.dropLast_append_getLast h.1).symm, ?_⟩
  exact (token_blank (h.2 _ (List.getLast_mem h.1))).1

theorem endsSolid_value {v : Value} (h : v.WellFormed) : EndsSolid v.written := by
  cases v with
  | token text => exact endsSolid_token h
  | quoted body text => exact ⟨quote :: body, quote, rfl, by decide⟩

/-- Blanks behind a solid end are trimmed. -/
theorem trim_eq {before core after : List UInt8} (hbefore : Blanks before)
    (hfirst : ∀ byte ∈ core.head?, blank byte = false) (hcore : EndsSolid core)
    (hafter : Blanks after) : trim (before ++ (core ++ after)) = core := by
  obtain ⟨front, last, rfl, hlast⟩ := hcore
  have hstop : ∀ byte ∈ (front ++ [last] ++ after).head?, blank byte = false := by
    intro byte hbyte
    refine hfirst byte ?_
    cases front with
    | nil => exact hbyte
    | cons first front => exact hbyte
  rw [trim, dropWhile_append_stop hbefore hstop, List.rdropWhile, List.reverse_append,
    List.dropWhile_append_of_pos fun byte h => hafter byte (List.mem_reverse.mp h)]
  exact List.rdropWhile_concat_neg blank front last (by simp [hlast])

theorem exists_trim (input : List UInt8) :
    ∃ before after, Blanks before ∧ Blanks after ∧ input = before ++ (trim input ++ after) := by
  refine ⟨input.takeWhile blank, (input.dropWhile blank).rtakeWhile blank,
    takeWhile_accepted blank input, fun byte h => List.mem_rtakeWhile_imp h, ?_⟩
  rw [trim, List.rdropWhile_append_rtakeWhile, List.takeWhile_append_dropWhile]

/-- Without the blanks at the end of an empty segment. -/
def Segment.stripped : Segment → Segment
  | empty before _ => empty before []
  | parameter before after name value => parameter before after name value

theorem Segment.stripped_text {segment : Segment} (h : segment.WellFormed) :
    segment.stripped.WellFormed ∧ EndsSolid segment.stripped.text ∧
      ∃ blanks, Blanks blanks ∧ segment.text = segment.stripped.text ++ blanks := by
  cases segment with
  | empty before after =>
      exact ⟨⟨h.1, nofun⟩, ⟨before, semicolon, rfl, by decide⟩, after, h.2,
        by simp [stripped, text]⟩
  | parameter before after name value =>
      refine ⟨h, ?_, [], nofun, (List.append_nil _).symm⟩
      obtain ⟨-, -, -, hvalue⟩ := h
      have hsolid := endsSolid_value hvalue
      have htext : text (stripped (.parameter before after name value)) =
          (before ++ semicolon :: (after ++ (name ++ [equals]))) ++ value.written := by
        simp [stripped, text]
      rw [htext]
      exact hsolid.append _

/-- The blanks at the end belong to no segment. -/
theorem exists_stripped {segments : List Segment} {after : List UInt8}
    (hsegments : ∀ segment ∈ segments, segment.WellFormed) (hafter : Blanks after) :
    ∃ segments' blanks, (∀ segment ∈ segments', Segment.WellFormed segment) ∧ Blanks blanks ∧
      segments.flatMap Segment.text ++ after = segments'.flatMap Segment.text ++ blanks ∧
      (segments' = [] ∨ EndsSolid (segments'.flatMap Segment.text)) ∧
      ∀ range s, enterAll range s segments' = enterAll range s segments := by
  obtain rfl | ⟨init, last, rfl⟩ := List.eq_nil_or_concat segments
  · exact ⟨[], after, hsegments, hafter, rfl, .inl rfl, fun _ _ => rfl⟩
  · rw [List.concat_eq_append] at hsegments ⊢
    obtain ⟨hlast, hsolid, blanks, hblanks, htext⟩ :=
      Segment.stripped_text (hsegments last (by simp))
    refine ⟨init ++ [last.stripped], blanks ++ after, ?_, ?_, ?_, .inr ?_, ?_⟩
    · intro segment hsegment
      obtain h | h := List.mem_append.mp hsegment
      · exact hsegments segment (List.mem_append_left _ h)
      · exact List.mem_singleton.mp h ▸ hlast
    · exact fun byte hbyte => (List.mem_append.mp hbyte).elim (hblanks byte) (hafter byte)
    · simp [htext]
    · rw [List.flatMap_append, List.flatMap_singleton]
      exact hsolid.append _
    · intro range s
      have hsame : ∀ s, last.stripped.apply range s = last.apply range s := by
        cases last <;> exact fun _ => rfl
      simp only [enterAll, List.foldlM_append, List.foldlM_cons, List.foldlM_nil, hsame]

end Trimming

section Ranges

/-- A media type or range as it is written. -/
structure Written where
  before : List UInt8
  kind : List UInt8
  subtype : List UInt8
  segments : List Segment
  after : List UInt8

namespace Written

def text (m : Written) : List UInt8 :=
  m.before ++ (m.kind ++ slash :: (m.subtype ++ (m.segments.flatMap Segment.text ++ m.after)))

/-- Tokens, wildcards where they may stand, and the bounds of an element. -/
structure WellFormed (range : Bool) (m : Written) : Prop where
  before : Blanks m.before
  kind : Token m.kind
  subtype : Token m.subtype
  segments : ∀ segment ∈ m.segments, segment.WellFormed
  after : Blanks m.after
  wildcard : m.kind = star → m.subtype = star
  concrete : range = false → m.kind ≠ star ∧ m.subtype ≠ star
  distinct : ((m.segments.filterMap (Segment.parameter? range)).map (·.1)).Nodup
  few : (m.segments.filterMap (Segment.parameter? range)).length +
    (m.segments.filterMap (Segment.weight? range)).length ≤ maxParameters
  fewEmpty : m.segments.countP Segment.isEmpty ≤ maxEmptyElements

/-- What is written: the parameters with their values, and one weight or none. -/
structure Denotes (range : Bool) (m : Written) (media : Media) : Prop where
  kind : media.kind = lowercase m.kind
  subtype : media.subtype = lowercase m.subtype
  parameters : media.parameters = m.segments.filterMap (Segment.parameter? range)
  quality : ∃ weight : Option ℕ,
    List.Forall₂ Weight (m.segments.filterMap (Segment.weight? range)) weight.toList ∧
      media.quality = weight.getD 1000

end Written

theorem lowercase_star {bytes : List UInt8} : lowercase bytes = star ↔ bytes = star := by
  have hbyte : ∀ byte : UInt8, to_ascii_lowercase byte = '*'.toUInt8 ↔ byte = '*'.toUInt8 := by
    intro byte
    rw [to_ascii_lowercase]
    split
    · rename_i hupper
      rw [Bool.and_eq_true, decide_eq_true_iff, decide_eq_true_iff, UInt8.le_iff_toNat_le,
        UInt8.le_iff_toNat_le] at hupper
      have hstar : ('*'.toUInt8).toNat = 42 := rfl
      have hlow : (0x41 : UInt8).toNat = 65 := rfl
      have hhigh : (0x5a : UInt8).toNat = 90 := rfl
      have hshift : (0x20 : UInt8).toNat = 32 := rfl
      rw [← UInt8.toNat_inj, ← UInt8.toNat_inj, UInt8.toNat_add]
      omega
    · rfl
  cases bytes with
  | nil => exact iff_of_false nofun nofun
  | cons byte bytes =>
      cases bytes with
      | nil => simp [lowercase, star, hbyte]
      | cons next bytes => simp [lowercase, star]

theorem reading_within : Reading.Within ⟨[], none, 0⟩ :=
  ⟨List.nodup_nil, Nat.zero_le _, Nat.zero_le _⟩

/-- **One element** is read exactly when it is a media range, or a media type, and then as
what it denotes. -/
theorem parse_media_eq_ok {input : List UInt8} {range : Bool} {media : Media} :
    parse_media input range = .ok media ↔
      input.length ≤ maxBytes ∧ ∃ m : Written, m.WellFormed range ∧ input = m.text ∧
        m.Denotes range media := by
  constructor
  · intro h
    rw [parse_media] at h
    split at h
    · exact absurd h nofun
    · rename_i hsize
      refine ⟨Nat.le_of_not_lt hsize, ?_⟩
      obtain ⟨⟨kind, rest⟩, hkind, h⟩ := bind_eq_ok.mp h
      obtain ⟨rest', hslash, h⟩ := bind_eq_ok.mp h
      obtain ⟨⟨subtype, rest''⟩, hsubtype, h⟩ := bind_eq_ok.mp h
      dsimp only at hslash hsubtype h
      split at h
      · exact absurd h nofun
      · rename_i hwildcard
        obtain ⟨s, hloop, h⟩ := bind_eq_ok.mp h
        obtain rfl := Except.ok.inj h
        obtain ⟨hkindToken, -, htrim⟩ := token_eq_ok.mp hkind
        obtain rfl := take_eq_ok.mp hslash
        obtain ⟨hsubtypeToken, -, rfl⟩ := token_eq_ok.mp hsubtype
        obtain ⟨segments, last, hsegments, hlast, rfl, hall⟩ := loop_eq_ok.mp hloop
        obtain ⟨hadds, hwithin⟩ := (enterAll_eq_ok reading_within).mp hall
        obtain ⟨before, after, hbefore, hafter, hinput⟩ := exists_trim input
        obtain ⟨hparameters, ⟨weights, hweights, hquality⟩, hempty⟩ := hadds
        replace hparameters : s.parameters = segments.filterMap (Segment.parameter? range) :=
          hparameters
        replace hquality : s.quality.toList = weights := hquality
        rw [lowercase_star, not_or, not_and, not_not, lowercase_star] at hwildcard
        refine ⟨⟨before, kind, subtype, segments, last ++ after⟩, ⟨hbefore, hkindToken,
          hsubtypeToken, hsegments, ?_, hwildcard.1, ?_, ?_, ?_, ?_⟩, ?_, rfl, rfl, hparameters, s.quality,
          hquality ▸ hweights, rfl⟩
        · exact fun byte hbyte => (List.mem_append.mp hbyte).elim (hlast byte) (hafter byte)
        · exact fun hrange => not_or.mp fun hstar => hwildcard.2 ⟨hrange, hstar⟩
        · exact hparameters ▸ hwithin.distinct
        · rw [← hparameters, hweights.length_eq, ← hquality]
          exact hwithin.few
        · rw [← Nat.zero_add (List.countP _ _), ← hempty]
          exact hwithin.fewEmpty
        · rw [hinput, htrim]
          simp [Written.text]
  · rintro ⟨hsize, m, hm, rfl, hkind, hsubtype, hparameters, weight, hweights, hquality⟩
    obtain ⟨before, kind, subtype, segments, after⟩ := m
    obtain ⟨segments', blanks, hsegments, hblanks, htext, hsolid, hsame⟩ :=
      exists_stripped hm.segments hm.after
    -- the segments as they are left when the element is trimmed
    have htrim : trim (Written.text ⟨before, kind, subtype, segments, after⟩) =
        kind ++ slash :: (subtype ++ segments'.flatMap Segment.text) := by
      have hcore : EndsSolid (kind ++ slash :: (subtype ++ segments'.flatMap Segment.text)) := by
        have hsubtype : EndsSolid (subtype ++ segments'.flatMap Segment.text) := by
          obtain rfl | hsolid := hsolid
          · rw [List.flatMap_nil, List.append_nil]
            exact endsSolid_token hm.subtype
          · exact hsolid.append subtype
        exact EndsSolid.append kind (hsubtype.append [slash])
      have hfirst : ∀ byte ∈
          (kind ++ slash :: (subtype ++ segments'.flatMap Segment.text)).head?,
          blank byte = false := by
        intro byte hbyte
        obtain ⟨first, more, hfirst⟩ := List.exists_cons_of_ne_nil hm.kind.1
        dsimp only at hfirst
        rw [hfirst] at hbyte
        obtain rfl := Option.some.inj hbyte
        exact (token_blank (hm.kind.2 _ (by rw [hfirst]; exact List.mem_cons_self))).1
      have hwritten : Written.text ⟨before, kind, subtype, segments, after⟩ =
          before ++ ((kind ++ slash :: (subtype ++ segments'.flatMap Segment.text)) ++ blanks) := by
        simp only [Written.text, htext, List.append_assoc, List.cons_append]
      rw [hwritten]
      exact trim_eq hm.before hfirst hcore hblanks
    have hkindToken : token (kind ++ slash :: (subtype ++ segments'.flatMap Segment.text)) =
        .ok (kind, slash :: (subtype ++ segments'.flatMap Segment.text)) := by
      refine token_eq_ok.mpr ⟨hm.kind, fun byte hbyte => ?_, rfl⟩
      obtain rfl := Option.some.inj hbyte
      decide
    have hsubtypeToken : token (subtype ++ segments'.flatMap Segment.text) =
        .ok (subtype, segments'.flatMap Segment.text) := by
      have hstops := @stops_segments _ [] hsegments nofun
      rw [List.append_nil] at hstops
      exact token_eq_ok.mpr ⟨hm.subtype, hstops.token, rfl⟩
    have hloop : loop range ⟨[], none, 0⟩ (segments'.flatMap Segment.text) =
        .ok ⟨segments.filterMap (Segment.parameter? range), weight,
          segments.countP Segment.isEmpty⟩ := by
      refine loop_eq_ok.mpr ⟨segments', [], hsegments, nofun, (List.append_nil _).symm, ?_⟩
      rw [hsame, enterAll_eq_ok reading_within]
      refine ⟨⟨rfl, ⟨weight.toList, hweights, rfl⟩, (Nat.zero_add _).symm⟩, hm.distinct, ?_,
        hm.fewEmpty⟩
      dsimp only
      rw [← hweights.length_eq]
      exact hm.few
    have hwildcard : ¬ ((lowercase kind = star ∧ lowercase subtype ≠ star) ∨
        (range = false ∧ (lowercase kind = star ∨ lowercase subtype = star))) := by
      rw [lowercase_star, not_or, not_and, not_not, lowercase_star]
      exact ⟨hm.wildcard, fun h => not_or.mpr (hm.concrete h.1) h.2⟩
    rw [parse_media, if_neg (Nat.not_lt.mpr hsize), htrim, hkindToken, ok_bind]
    simp only [take_eq_ok.mpr rfl, ok_bind, hsubtypeToken, if_neg hwildcard, hloop]
    obtain ⟨kind', subtype', parameters', quality'⟩ := media
    obtain rfl := hkind
    obtain rfl := hsubtype
    obtain rfl := hparameters
    obtain rfl := hquality
    rfl

end Ranges

end Media
end HttpBoundary
end Server
end Glaux
