import Glaux.Standards.Scalar.Time

/-!
# The law of allowed values (`scalar.rs`)

A value is allowed when the constraint of its component names it or one of the
intervals contains it, and a finite number has no more digits than are allowed.  For
numbers the check decides exactly this.  For times it does not: in a frame without an
established meaning one listed text that differs from the value ends the check, even
where another entry is the value itself.
-/

namespace Glaux
namespace Standards

open Library Domain

/-- A compiled description and the sentinels it declares. -/
structure ScalarContract where
  component : ScalarComponent
  nilDeclarations : List NilDeclaration

/-- Only a reserved `NaN` matches `NaN`. -/
def sameValue : ScalarValue → ScalarValue → Bool
  | .quantity .nan, .quantity .nan => true
  | .time (.numeric .nan) reference, .time (.numeric .nan) reference' => reference.eq reference'
  | a, b => a.eq b

namespace ScalarContract

def checkParsedValue (contract : ScalarContract) (value : Json) (raw : Option String)
    (context : ValueContext) (enforced : Bool) : Except ScalarError CheckedScalarValue :=
  match contract.component with
  | .count limits => Numeric.checkCount limits value raw enforced
  | .quantity limits uom => Numeric.checkQuantity limits uom value raw enforced
  | .time component => Time.checkValue component value raw context enforced

def checkWithNil (contract : ScalarContract) (value : Json) (raw : Option String)
    (context : ValueContext) : Except ScalarError CheckedScalarValue :=
  if contract.nilDeclarations.isEmpty then contract.checkParsedValue value raw context true
  else do
    let candidate ← contract.checkParsedValue value raw .nilDeclaration false
    match contract.nilDeclarations.find?
        (fun declaration => sameValue declaration.value candidate.value) with
    | some declaration => .ok { candidate with nilReason := some declaration.reason }
    | none => contract.checkParsedValue value raw context true

end ScalarContract

/-! ### The law -/

/-- A finite number has no more digits than are allowed. -/
def FewDigits (maximum : Option Nat) (value : NumericValue) : Prop :=
  ∀ n ∈ maximum, ∀ number, value = .finite number → ∀ lexeme ∈ number.decimalLexeme,
    Numeric.significantDigits lexeme ≤ n

def AllowsNumber (limits : Constraint NumericValue) (value : NumericValue) : Prop :=
  limits.Admits NumericValue.Same NumericValue.AtMost value ∧
    FewDigits limits.significantFigures value

def FewPositionDigits (maximum : Option Nat) (position : TimePosition) : Prop :=
  ∀ value, position = .numeric value → FewDigits maximum value

def AllowsPosition (limits : Constraint TimePosition) (position : TimePosition) : Prop :=
  limits.Admits TimePosition.Same TimePosition.AtMost position ∧
    FewPositionDigits limits.significantFigures position

/-- The same entries in another order. -/
structure Rearranged {α : Type} (limits limits' : Constraint α) : Prop where
  entries : limits.Reordered limits'.toListing
  figures : limits.significantFigures = limits'.significantFigures

/-- A component whose constraint lists the same entries in another order. -/
inductive Rearranges : ScalarComponent → ScalarComponent → Prop
  | count {c c' : Constraint NumericValue} (h : Rearranged c c') :
      Rearranges (.count (some c)) (.count (some c'))
  | quantity {c c' : Constraint NumericValue} (h : Rearranged c c') (uom : UnitReference) :
      Rearranges (.quantity (some c) uom) (.quantity (some c') uom)
  | time {c c' : Constraint TimePosition} (h : Rearranged c c') (reference : TimeReference) :
      Rearranges (.time ⟨reference, some c⟩) (.time ⟨reference, some c'⟩)

/-- What the constraint of a component says of a value. -/
def Allows : ScalarComponent → ScalarValue → Prop
  | .count limits, .count value => ∀ c ∈ limits, AllowsNumber c (.finite value.number)
  | .quantity limits _, .quantity value => ∀ c ∈ limits, AllowsNumber c value
  | .time component, .time position _ => ∀ c ∈ component.constraint, AllowsPosition c position
  | _, _ => False

/-- The part of it that counts digits. -/
def MeetsFigures : ScalarComponent → ScalarValue → Prop
  | .count limits, .count value =>
      ∀ c ∈ limits, FewDigits c.significantFigures (.finite value.number)
  | .quantity limits _, .quantity value => ∀ c ∈ limits, FewDigits c.significantFigures value
  | .time component, .time position _ =>
      ∀ c ∈ component.constraint, FewPositionDigits c.significantFigures position
  | _, _ => False

/-- The text is listed, or it bounds an interval. -/
def Lists (limits : Constraint TimePosition) (text : String) : Prop :=
  .calendar (.unresolved text) ∈ limits.values ∨
    ∃ i ∈ limits.intervals, i.1 = .calendar (.unresolved text) ∨ i.2 = .calendar (.unresolved text)

/-- Beside calendar text without an established meaning, no other text is listed. -/
def Unmixed (limits : Constraint TimePosition) (position : TimePosition) : Prop :=
  ∀ text, position = .calendar (.unresolved text) → ∀ other, Lists limits other → other = text

/-- Where the check follows the law: no other text is listed beside an allowed one. -/
def Established : ScalarComponent → ScalarValue → Prop
  | .time component, .time position _ =>
      ∀ c ∈ component.constraint, AllowsPosition c position → Unmixed c position
  | _, _ => True

section Numbers

variable {limits : Constraint NumericValue} {value : NumericValue}

theorem checkFigures_eq_ok {maximum : Option Nat} {e : ScalarError}
    (hdecimal : ∀ number, value = .finite number → ∃ lexeme, number.decimalLexeme = some lexeme) :
    Numeric.checkFigures maximum e value = .ok () ↔ FewDigits maximum value := by
  cases maximum with
  | none => simp [Numeric.checkFigures, FewDigits]
  | some n =>
      cases value with
      | finite number =>
          obtain ⟨lexeme, hlexeme⟩ := hdecimal number rfl
          simp only [Numeric.checkFigures, hlexeme, FewDigits]
          by_cases hmany : Numeric.significantDigits lexeme > n
          · simp [hmany, hlexeme]
          · have hfew : Numeric.significantDigits lexeme ≤ n := Nat.not_lt.mp hmany
            simp [hmany, hlexeme, hfew]
      | _ => simp [Numeric.checkFigures, FewDigits]

theorem named_iff {a : NumericValue} : Numeric.named value a = true ↔ a.Same value := by
  rw [Numeric.named, Bool.or_eq_true, NumericValue.eq_iff, Bool.and_eq_true]
  cases a with
  | nan => cases value <;> simp [Numeric.isNaN, NumericValue.Same, NumericValue.place]
  | _ => simp [Numeric.isNaN]

theorem admitted_iff : Numeric.admitted limits value = true ↔
    limits.Admits NumericValue.Same NumericValue.AtMost value := by
  simp only [Numeric.admitted, Bool.or_eq_true, List.any_eq_true, named_iff, Numeric.within,
    Bool.and_eq_true, NumericValue.le_iff, Listing.Admits]

/-- For numbers the check is the law. -/
theorem checkNumber_eq_ok
    (hdecimal : ∀ number, value = .finite number → ∃ lexeme, number.decimalLexeme = some lexeme) :
    Numeric.checkConstraint limits value = .ok () ↔ AllowsNumber limits value := by
  rw [Numeric.checkConstraint, AllowsNumber, ← admitted_iff]
  split
  next hadmitted => simp [hadmitted, checkFigures_eq_ok hdecimal]
  next hadmitted => simp [hadmitted]

/-- The order of the entries does not matter. -/
theorem checkNumber_perm {limits' : Constraint NumericValue} (h : Rearranged limits limits') :
    Numeric.checkConstraint limits value = Numeric.checkConstraint limits' value := by
  have hadmitted : Numeric.admitted limits value = Numeric.admitted limits' value := by
    rw [Bool.eq_iff_iff, admitted_iff, admitted_iff]
    exact h.entries.admits value
  rw [Numeric.checkConstraint, Numeric.checkConstraint, hadmitted, h.figures]

end Numbers

section Comparison

variable {a b : TimePosition}

/-- Positions whose order is unknown. -/
inductive Unknown : TimePosition → TimePosition → Prop
  | texts {s t : String} (h : s ≠ t) :
      Unknown (.calendar (.unresolved s)) (.calendar (.unresolved t))
  | instantText (i : ExactInstant) (t : String) :
      Unknown (.calendar (.utc i)) (.calendar (.unresolved t))
  | textInstant (t : String) (i : ExactInstant) :
      Unknown (.calendar (.unresolved t)) (.calendar (.utc i))
  | number (n : ExactNumber) (time : CalendarTime) :
      Unknown (.numeric (.finite n)) (.calendar time)
  | calendar (time : CalendarTime) (n : ExactNumber) :
      Unknown (.calendar time) (.numeric (.finite n))

/-- The outcomes of a comparison. -/
inductive Compared (a b : TimePosition) : Except ScalarError (Option Ordering) → Prop
  | unknown (h : Unknown a b) : Compared a b (.error .unsupportedTimeMeaning)
  | known {order : Option Ordering} (hknown : ¬ Unknown a b)
      (hsame : order = some .eq ↔ Time.isNaN a = false ∧ a.Same b)
      (hbelow : order = some .lt ∨ order = some .eq ↔ a.AtMost b) : Compared a b (.ok order)

theorem compared : Compared a b (Time.compare a b) := by
  cases a with
  | numeric v =>
      cases b with
      | numeric w =>
          refine .known nofun ?_ ?_
          · rw [NumericValue.partialCmp_same]
            constructor
            · rintro ⟨hnan, hsame⟩
              refine ⟨?_, .numeric hsame⟩
              cases v <;> simp_all [Time.isNaN, Numeric.isNaN]
            · rintro ⟨hnan, ⟨hsame⟩⟩
              refine ⟨?_, hsame⟩
              rintro rfl
              simp [Time.isNaN, Numeric.isNaN] at hnan
          · rw [NumericValue.partialCmp_atMost]
            exact ⟨.numeric, fun (.numeric h) => h⟩
      | calendar t =>
          cases v with
          | finite n => exact .unknown (.number n t)
          | nan =>
              refine .known nofun ?_ ?_
              · exact ⟨nofun, fun ⟨_, h⟩ => nomatch h⟩
              · exact ⟨nofun, nofun⟩
          | negativeInfinity =>
              refine .known nofun ?_ ?_
              · exact ⟨nofun, fun ⟨_, h⟩ => nomatch h⟩
              · exact ⟨fun _ => .below t, fun _ => .inl rfl⟩
          | positiveInfinity =>
              refine .known nofun ?_ ?_
              · exact ⟨nofun, fun ⟨_, h⟩ => nomatch h⟩
              · exact ⟨nofun, nofun⟩
  | calendar s =>
      cases b with
      | numeric w =>
          cases w with
          | finite n => exact .unknown (.calendar s n)
          | nan =>
              refine .known nofun ?_ ?_
              · exact ⟨nofun, fun ⟨_, h⟩ => nomatch h⟩
              · exact ⟨nofun, nofun⟩
          | negativeInfinity =>
              refine .known nofun ?_ ?_
              · exact ⟨nofun, fun ⟨_, h⟩ => nomatch h⟩
              · exact ⟨nofun, nofun⟩
          | positiveInfinity =>
              refine .known nofun ?_ ?_
              · exact ⟨nofun, fun ⟨_, h⟩ => nomatch h⟩
              · exact ⟨fun _ => .above s, fun _ => .inl rfl⟩
      | calendar t =>
          cases s with
          | utc i =>
              cases t with
              | utc j =>
                  refine .known nofun ?_ ?_
                  · rw [ExactInstant.cmp_eq, Option.some.injEq, compare_eq_iff_eq]
                    exact ⟨fun h => ⟨rfl, .instant h⟩, fun ⟨_, .instant h⟩ => h⟩
                  · rw [ExactInstant.cmp_eq, Option.some.injEq, Option.some.injEq,
                      compare_eq_iff_eq, compare_lt_iff_lt, ← le_iff_lt_or_eq]
                    exact ⟨.instant, fun (.instant h) => h⟩
              | unresolved t => exact .unknown (.instantText i t)
          | unresolved s =>
              cases t with
              | utc j => exact .unknown (.textInstant s j)
              | unresolved t =>
                  by_cases hst : s = t
                  · subst hst
                    rw [Time.compare, if_pos rfl]
                    exact .known (fun (.texts h) => h rfl) ⟨fun _ => ⟨rfl, .text s⟩, fun _ => rfl⟩
                      ⟨fun _ => .text s, fun _ => .inr rfl⟩
                  · rw [Time.compare, if_neg hst]
                    exact .unknown (.texts hst)

end Comparison

section Positions

variable {reference : TimeReference} {value : Json} {raw : Option String} {p q : TimePosition}

/-- The positions the encoding of a component can give. -/
inductive Encoded (reference : TimeReference) : TimePosition → Prop
  | number (h : Time.calendarEncoding reference = false) (v : NumericValue) :
      Encoded reference (.numeric v)
  | special (h : Time.calendarEncoding reference = true) {v : NumericValue}
      (hv : ∀ n, v ≠ .finite n) : Encoded reference (.numeric v)
  | instant (h : Time.calendarEncoding reference = true)
      (hframe : Time.isUtc reference.frame = true) (i : ExactInstant) :
      Encoded reference (.calendar (.utc i))
  | text (h : Time.calendarEncoding reference = true)
      (hframe : Time.isUtc reference.frame = false) (t : String) :
      Encoded reference (.calendar (.unresolved t))

/-- Only two different texts of one component cannot be compared. -/
theorem Encoded.unknown (hp : Encoded reference p) (hq : Encoded reference q)
    (h : Unknown p q) :
    ∃ s t, p = .calendar (.unresolved s) ∧ q = .calendar (.unresolved t) ∧ s ≠ t := by
  cases h with
  | texts h => exact ⟨_, _, rfl, rfl, h⟩
  | instantText | textInstant | number | calendar => cases hp <;> cases hq <;> simp_all

/-- A special, a calendar text or a number: what a value can be read as. -/
def reading (value : Json) (raw : Option String) (reference : TimeReference) :
    Except ScalarError TimePosition :=
  if Time.calendarEncoding reference then
    match Time.special? value with
    | some special => .ok (.numeric special)
    | none =>
        match value.asString? with
        | none => .error .valueType
        | some text => (Time.calendar text reference.frame).map .calendar
  else Time.numericPosition value raw

theorem special_cases {text : String} {v : NumericValue}
    (h : NumericValue.fromSweSpecial text = .ok v) : ∀ n, v ≠ .finite n := by
  unfold NumericValue.fromSweSpecial at h
  split_ifs at h <;> cases h <;> nofun

theorem calendar_encoded {text : String} {time : CalendarTime}
    (henc : Time.calendarEncoding reference = true)
    (h : Time.calendar text reference.frame = .ok time) : Encoded reference (.calendar time) := by
  unfold Time.calendar at h
  split at h
  · cases h
  · split at h
    · cases h
    · cases hframe : Time.isUtc reference.frame with
      | true =>
          obtain rfl := Except.ok.inj h
          rw [if_pos hframe]
          exact .instant henc hframe _
      | false =>
          obtain rfl := Except.ok.inj h
          rw [if_neg (by simp [hframe])]
          exact .text henc hframe _

theorem reading_encoded (h : reading value raw reference = .ok p) : Encoded reference p := by
  unfold reading at h
  cases henc : Time.calendarEncoding reference with
  | false =>
      simp only [henc, Time.numericPosition] at h
      cases hnumber : Numeric.number value raw with
      | error e => simp [hnumber, Except.map] at h
      | ok v =>
          simp only [hnumber, Except.map] at h
          cases h
          exact .number henc v
  | true =>
      simp only [henc, if_true] at h
      cases hspecial : Time.special? value with
      | some v =>
          obtain ⟨text, -, htext⟩ := Option.bind_eq_some_iff.mp hspecial
          simp only [hspecial] at h
          cases h
          exact .special henc (special_cases (toOption_eq_some.mp htext))
      | none =>
          simp only [hspecial] at h
          cases htext : value.asString? with
          | none => simp [htext] at h
          | some text =>
              simp only [htext] at h
              cases hcalendar : Time.calendar text reference.frame with
              | error e => simp [hcalendar, Except.map] at h
              | ok time =>
                  simp only [hcalendar, Except.map] at h
                  cases h
                  exact calendar_encoded henc hcalendar

/-- A bound or a listed value is the reading of its text. -/
theorem position_reading {bound : Bool} (h : Time.position value raw reference bound = .ok p) :
    reading value raw reference = .ok p := by
  unfold Time.position at h
  unfold reading
  cases henc : Time.calendarEncoding reference with
  | false => simpa [henc] using h
  | true =>
      simp only [henc, if_true] at h ⊢
      cases htext : value.asString? with
      | none => simp [htext] at h
      | some text =>
          obtain rfl : value = .string text := by
            cases value <;> simp_all [Json.asString?]
          simp only [Json.asString?, Time.special?, Option.bind_some] at h ⊢
          cases hspecial : NumericValue.fromSweSpecial text with
          | ok v =>
              simp only [hspecial, Time.numericPosition, Numeric.number] at h
              split at h
              · simpa [hspecial, Except.toOption, Except.map] using h
              · simp [Except.isOk, Except.toBool] at h
          | error e =>
              simp only [hspecial, Time.numericPosition, Numeric.number] at h
              split at h
              · cases h
              · simpa [hspecial, Except.toOption, Except.isOk, Except.toBool] using h

theorem dataPosition_reading {context : ValueContext}
    (h : Time.dataPosition value raw reference context = .ok p) :
    reading value raw reference = .ok p := by
  unfold Time.dataPosition at h
  split at h
  next hcontext =>
    cases hspecial : Time.special? value with
    | some v =>
        simp only [hspecial] at h
        simpa [reading, hcontext.1, hspecial] using h
    | none =>
        simp only [hspecial] at h
        split at h
        · cases h
        · exact position_reading h
  next => exact position_reading h

/-- Data is a candidate for every sentinel. -/
theorem dataPosition_nil {context : ValueContext}
    (h : Time.dataPosition value raw reference context = .ok p) :
    Time.dataPosition value raw reference .nilDeclaration = .ok p := by
  have hreading := dataPosition_reading h
  unfold Time.dataPosition
  cases henc : Time.calendarEncoding reference with
  | false => simpa [Time.dataPosition, henc] using h
  | true =>
      simp only [reading, henc, if_true] at hreading
      cases hspecial : Time.special? value with
      | some v => simpa [hspecial] using hreading
      | none =>
          simp only [hspecial] at hreading
          cases htext : value.asString? with
          | none => simp [htext] at hreading
          | some text =>
              have hnumber : value.isNumber = false := by
                cases value <;> simp_all [Json.asString?, Json.isNumber]
              simp only [Time.dataPosition, henc, hspecial, hnumber] at h ⊢
              split at h <;> simpa using h

end Positions

section Times

variable {limits : Constraint TimePosition} {p q : TimePosition}

/-- A test of a position: what it says where it has a verdict, and where it has none. -/
structure Tests (outcome : Except ScalarError Bool) (holds unknown : Prop) : Prop where
  holds : outcome = .ok true ↔ ¬ unknown ∧ holds
  unknown : ∀ e, outcome = .error e ↔ e = .unsupportedTimeMeaning ∧ unknown

theorem Tests.of_known {b : Bool} {holds unknown : Prop} (hknown : ¬ unknown)
    (h : b = true ↔ holds) : Tests (.ok b) holds unknown :=
  ⟨by simp [hknown, h], fun e => by simp [hknown]⟩

theorem Tests.of_unknown {holds unknown : Prop} (h : unknown) :
    Tests (.error .unsupportedTimeMeaning) holds unknown :=
  ⟨by simp [h], fun e => by simp [h, eq_comm]⟩

/-- The verdict there is. -/
theorem Tests.defined {outcome : Except ScalarError Bool} {holds unknown : Prop}
    (h : Tests outcome holds unknown) : (∃ b, outcome = .ok b) ↔ ¬ unknown := by
  cases outcome with
  | ok b =>
      refine ⟨fun _ hunknown => ?_, fun _ => ⟨b, rfl⟩⟩
      cases (h.unknown _).mpr ⟨rfl, hunknown⟩
  | error e => simp [((h.unknown e).mp rfl).2]

theorem Tests.only {outcome : Except ScalarError Bool} {holds unknown : Prop}
    (h : Tests outcome holds unknown) {e : ScalarError} (herror : outcome = .error e) :
    e = .unsupportedTimeMeaning :=
  ((h.unknown e).mp herror).1

theorem inOrder_tests : Tests (Time.inOrder p q) (p.AtMost q) (Unknown p q) := by
  have hcompared := compared (a := p) (b := q)
  unfold Time.inOrder
  generalize Time.compare p q = outcome at hcompared
  cases hcompared with
  | unknown h => exact .of_unknown h
  | known hknown hsame hbelow => exact .of_known hknown (decide_eq_true_iff.trans hbelow)

theorem matchesValue_tests :
    Tests (Time.matchesValue p q) (q.Same p) (Unknown q p) := by
  have hcompared := compared (a := q) (b := p)
  unfold Time.matchesValue
  split
  next hnan =>
    obtain ⟨hq, hp⟩ := hnan
    cases q with
    | calendar t => simp [Time.isNaN] at hq
    | numeric v =>
        cases p with
        | calendar t => simp [Time.isNaN] at hp
        | numeric w =>
            obtain rfl : v = .nan := by cases v <;> simp_all [Time.isNaN, Numeric.isNaN]
            obtain rfl : w = .nan := by cases w <;> simp_all [Time.isNaN, Numeric.isNaN]
            exact .of_known nofun ⟨fun _ => .numeric rfl, fun _ => rfl⟩
  next hnan =>
    generalize Time.compare q p = outcome at hcompared
    cases hcompared with
    | unknown h => exact .of_unknown h
    | known hknown hsame hbelow =>
        refine .of_known hknown (decide_eq_true_iff.trans (hsame.trans ⟨And.right, fun h => ?_⟩))
        refine ⟨?_, h⟩
        -- the same position as `NaN` is `NaN`
        rw [← Bool.not_eq_true]
        intro hq
        refine hnan ⟨hq, ?_⟩
        cases h with
        | @numeric v w h =>
            obtain rfl : v = .nan := by cases v <;> simp_all [Time.isNaN, Numeric.isNaN]
            cases w <;> simp_all [NumericValue.Same, NumericValue.place, Time.isNaN, Numeric.isNaN]
        | instant | text => simp [Time.isNaN] at hq

theorem withinInterval_tests {bounds : TimePosition × TimePosition} :
    Tests (Time.withinInterval p bounds) (bounds.1.AtMost p ∧ p.AtMost bounds.2)
      (Unknown bounds.1 p ∨ (bounds.1.AtMost p ∧ Unknown p bounds.2)) := by
  have hlow := inOrder_tests (p := bounds.1) (q := p)
  have hhigh := inOrder_tests (p := p) (q := bounds.2)
  unfold Time.withinInterval
  cases hinOrder : Time.inOrder bounds.1 p with
  | error e =>
      obtain ⟨rfl, hunknown⟩ := (hlow.unknown e).mp hinOrder
      exact .of_unknown (.inl hunknown)
  | ok b =>
      have hknown : ¬ Unknown bounds.1 p := hlow.defined.mp ⟨b, hinOrder⟩
      cases b with
      | false =>
          have hafter : ¬ bounds.1.AtMost p := by
            intro h
            have := hlow.holds.mpr ⟨hknown, h⟩
            simp [hinOrder] at this
          exact .of_known (by simp [hknown, hafter]) (by simp [hafter])
      | true =>
          have hbelow : bounds.1.AtMost p := (hlow.holds.mp hinOrder).2
          simpa [hknown, hbelow] using hhigh

/-- Every test of the position has a verdict. -/
def Settled (limits : Constraint TimePosition) (p : TimePosition) : Prop :=
  (∀ listed ∈ limits.values, ¬ Unknown listed p) ∧
    ∀ i ∈ limits.intervals, ¬ (Unknown i.1 p ∨ (i.1.AtMost p ∧ Unknown p i.2))

theorem checkPositionFigures_eq_ok {maximum : Option Nat}
    (hdecimal : ∀ number, p = .numeric (.finite number) →
      ∃ lexeme, number.decimalLexeme = some lexeme) :
    Time.checkFigures maximum p = .ok () ↔ FewPositionDigits maximum p := by
  cases p with
  | calendar t => simp [Time.checkFigures, FewPositionDigits]
  | numeric v =>
      simp only [Time.checkFigures, FewPositionDigits, TimePosition.numeric.injEq, forall_eq']
      exact checkFigures_eq_ok fun number h => hdecimal number (by rw [h])

/-- The check of a position asks for a verdict of every test. -/
theorem checkPosition_eq_ok
    (hdecimal : ∀ number, p = .numeric (.finite number) →
      ∃ lexeme, number.decimalLexeme = some lexeme) :
    Time.checkConstraint limits p = .ok () ↔ Settled limits p ∧ AllowsPosition limits p := by
  have hvalues : (∀ listed ∈ limits.values, ∃ hit, Time.matchesValue p listed = .ok hit) ↔
      ∀ listed ∈ limits.values, ¬ Unknown listed p :=
    forall₂_congr fun _ _ => matchesValue_tests.defined
  have hintervals : (∀ i ∈ limits.intervals, ∃ hit, Time.withinInterval p i = .ok hit) ↔
      ∀ i ∈ limits.intervals, ¬ (Unknown i.1 p ∨ (i.1.AtMost p ∧ Unknown p i.2)) :=
    forall₂_congr fun _ _ => withinInterval_tests.defined
  simp only [Time.checkConstraint, bind_eq_ok]
  constructor
  · rintro ⟨m, hm, m', hm', h⟩
    obtain ⟨hsettled, hm⟩ := scan_eq_ok.mp hm
    obtain ⟨hsettled', hm'⟩ := scan_eq_ok.mp hm'
    cases m' with
    | false => simp at h
    | true =>
        refine ⟨⟨hvalues.mp hsettled, hintervals.mp hsettled'⟩, ?_,
          (checkPositionFigures_eq_ok hdecimal).mp (by simpa using h)⟩
        obtain hhit | ⟨i, hi, hhit⟩ := hm'.mp rfl
        · obtain hfalse | ⟨listed, hlisted, hhit⟩ := hm.mp hhit
          · cases hfalse
          · exact .inl ⟨listed, hlisted, (matchesValue_tests.holds.mp hhit).2⟩
        · exact .inr ⟨i, hi, (withinInterval_tests.holds.mp hhit).2⟩
  · rintro ⟨⟨hsettled, hsettled'⟩, hadmits, hfigures⟩
    obtain ⟨m, hm, hmatched⟩ := scan_defined (hvalues.mpr hsettled) false
    obtain ⟨m', hm', hmatched'⟩ := scan_defined (hintervals.mpr hsettled') m
    have htrue : m' = true := by
      obtain ⟨listed, hlisted, hsame⟩ | ⟨i, hi, hwithin⟩ := hadmits
      · exact hmatched'.mpr (.inl (hmatched.mpr (.inr ⟨listed, hlisted,
          matchesValue_tests.holds.mpr ⟨hsettled listed hlisted, hsame⟩⟩)))
      · exact hmatched'.mpr (.inr ⟨i, hi,
          withinInterval_tests.holds.mpr ⟨hsettled' i hi, hwithin⟩⟩)
    refine ⟨m, hm, m', hm', ?_⟩
    rw [if_pos htrue]
    exact (checkPositionFigures_eq_ok hdecimal).mpr hfigures

/-- The order of the entries does not matter, whatever the outcome. -/
theorem checkPosition_perm {limits' : Constraint TimePosition} (h : Rearranged limits limits') :
    Time.checkConstraint limits p = Time.checkConstraint limits' p := by
  rw [Time.checkConstraint, Time.checkConstraint, h.figures,
    scan_perm (fun _ _ => matchesValue_tests.only) h.entries.values]
  congr 1
  funext matched
  rw [scan_perm (fun _ _ => withinInterval_tests.only) h.entries.intervals]

/-- What compiling a constraint has established. -/
structure Compiled (reference : TimeReference) (limits : Constraint TimePosition) : Prop where
  values : ∀ listed ∈ limits.values, Encoded reference listed
  intervals : ∀ i ∈ limits.intervals,
    Encoded reference i.1 ∧ Encoded reference i.2 ∧ i.1.AtMost i.2

/-- For a compiled constraint only another text leaves a test without a verdict. -/
theorem settled_iff {reference : TimeReference} (hcompiled : Compiled reference limits)
    (hp : Encoded reference p) : Settled limits p ↔ Unmixed limits p := by
  constructor
  · rintro ⟨hvalues, hintervals⟩ text rfl other hother
    by_contra hne
    obtain hother | ⟨i, hi, hother⟩ := hother
    · exact hvalues _ hother (.texts hne)
    · obtain ⟨-, -, hbounds⟩ := hcompiled.intervals i hi
      obtain hlow | hhigh := hother
      · exact hintervals i hi (.inl (hlow ▸ .texts hne))
      · rw [hhigh] at hbounds
        generalize hlow : i.1 = low at hbounds
        cases hbounds with
        | text => exact hintervals i hi (.inl (hlow ▸ .texts hne))
        | below =>
            exact hintervals i hi (.inr ⟨hlow ▸ .below _, hhigh ▸ .texts (Ne.symm hne)⟩)
  · intro hunmixed
    refine ⟨fun listed hlisted hunknown => ?_, fun i hi hunknown => ?_⟩
    · obtain ⟨s, t, rfl, rfl, hne⟩ := (hcompiled.values listed hlisted).unknown hp hunknown
      exact hne (hunmixed t rfl s (.inl hlisted))
    · obtain ⟨hlow, hhigh, -⟩ := hcompiled.intervals i hi
      obtain hunknown | ⟨-, hunknown⟩ := hunknown
      · obtain ⟨s, t, hs, rfl, hne⟩ := hlow.unknown hp hunknown
        exact hne (hunmixed t rfl s (.inr ⟨i, hi, .inl hs⟩))
      · obtain ⟨s, t, rfl, ht, hne⟩ := hp.unknown hhigh hunknown
        exact hne.symm (hunmixed s rfl t (.inr ⟨i, hi, .inr ht⟩))

end Times

section Compiling

variable {source : Json} {reference : TimeReference} {context : ValueContext}

theorem interval_eq_ok {α : Type} {bound : Json → Except ScalarError α}
    {inOrder : α → α → Except ScalarError Bool} {item : Json} {bounds : α × α}
    (h : interval bound inOrder item = .ok bounds) :
    ∃ low high, bound low = .ok bounds.1 ∧ bound high = .ok bounds.2 ∧
      inOrder bounds.1 bounds.2 = .ok true := by
  unfold interval at h
  split at h
  next low high _ =>
    obtain ⟨a, ha, h⟩ := bind_eq_ok.mp h
    obtain ⟨b, hb, h⟩ := bind_eq_ok.mp h
    obtain ⟨ordered, hordered, h⟩ := bind_eq_ok.mp h
    cases ordered with
    | false => cases h
    | true =>
        cases h
        exact ⟨low, high, ha, hb, hordered⟩
  next => cases h

theorem listedPosition_reading {item : Json} {p : TimePosition}
    (h : Time.listedPosition reference context item = .ok p) :
    reading item none reference = .ok p := by
  unfold Time.listedPosition at h
  split at h
  · exact dataPosition_reading h
  · exact position_reading h

/-- The entries of a compiled constraint are the readings of those listed. -/
theorem constraint_compiled {limits : Constraint TimePosition}
    (h : Time.constraint source reference context = .ok (some limits)) :
    Compiled reference limits ∧ ∀ c, source.get? "constraint" = some c →
      ∀ item ∈ items c "values", ∃ p ∈ limits.values, reading item none reference = .ok p := by
  unfold Time.constraint at h
  cases hsource : source.get? "constraint" with
  | none => simp [hsource] at h
  | some c =>
      simp only [hsource] at h
      obtain ⟨values, hvalues, h⟩ := bind_eq_ok.mp h
      obtain ⟨intervals, hintervals, h⟩ := bind_eq_ok.mp h
      obtain ⟨figures, -, h⟩ := bind_eq_ok.mp h
      cases h
      obtain ⟨hleft, hright⟩ := mem_mapM hvalues
      refine ⟨⟨fun listed hlisted => ?_, fun i hi => ?_⟩, fun c' hc' item hitem => ?_⟩
      · obtain ⟨item, -, hitem⟩ := hright listed hlisted
        exact reading_encoded (listedPosition_reading hitem)
      · obtain ⟨item, -, hitem⟩ := (mem_mapM hintervals).2 i hi
        obtain ⟨low, high, hlow, hhigh, hordered⟩ := interval_eq_ok hitem
        exact ⟨reading_encoded (position_reading hlow), reading_encoded (position_reading hhigh),
          (inOrder_tests.holds.mp hordered).2⟩
      · obtain rfl := Option.some.inj hc'
        obtain ⟨p, hp, hread⟩ := hleft item hitem
        exact ⟨p, hp, listedPosition_reading hread⟩

theorem numericConstraint_compiled {limits : Constraint NumericValue} {count : Bool}
    (h : Numeric.constraint source count = .ok (some limits)) :
    ∀ c, source.get? "constraint" = some c →
      ∀ item ∈ items c "values", ∃ v ∈ limits.values, Numeric.number item none = .ok v := by
  unfold Numeric.constraint at h
  cases hsource : source.get? "constraint" with
  | none => simp [hsource] at h
  | some c =>
      simp only [hsource] at h
      obtain ⟨values, hvalues, h⟩ := bind_eq_ok.mp h
      obtain ⟨intervals, -, h⟩ := bind_eq_ok.mp h
      obtain ⟨figures, -, h⟩ := bind_eq_ok.mp h
      have hlimits : limits = ⟨⟨values, intervals⟩, figures⟩ := by
        split at h
        · cases h
        · cases h
          rfl
      subst hlimits
      intro c' hc' item hitem
      obtain rfl := Option.some.inj hc'
      exact (mem_mapM hvalues).1 item hitem

/-- A number read from a token keeps its lexeme. -/
theorem number_decimal {value : Json} {raw : Option String} {number : ExactNumber}
    (h : Numeric.number value raw = .ok (.finite number)) :
    ∃ lexeme, number.decimalLexeme = some lexeme := by
  cases value with
  | number lexeme =>
      simp only [Numeric.number] at h
      split at h
      next parsed hparsed =>
        cases h
        exact ⟨_, ExactNumber.decimalLexeme_of_parse hparsed⟩
      next => cases h
  | string text =>
      simp only [Numeric.number] at h
      split at h
      next special hspecial =>
        cases h
        exact absurd rfl (special_cases hspecial number)
      next => cases h
  | null | bool | array | object => cases h

theorem reading_decimal {value : Json} {raw : Option String} {number : ExactNumber}
    (h : reading value raw reference = .ok (.numeric (.finite number))) :
    ∃ lexeme, number.decimalLexeme = some lexeme := by
  cases reading_encoded h with
  | special henc hv => exact absurd rfl (hv number)
  | number henc =>
      simp only [reading, henc, Time.numericPosition] at h
      cases hnumber : Numeric.number value raw with
      | error e => simp [hnumber, Except.map] at h
      | ok v =>
          rw [hnumber] at h
          cases h
          exact number_decimal hnumber

end Compiling

section Law

variable {source : Json} {contract : ScalarContract} {value : Json} {raw : Option String}
  {context : ValueContext} {checked : CheckedScalarValue}

/-- The component's constraint was compiled from the description. -/
inductive CompiledFrom (source : Json) : ScalarComponent → Prop
  | count {limits : Option (Constraint NumericValue)}
      (h : Numeric.constraint source true = .ok limits) : CompiledFrom source (.count limits)
  | quantity {limits : Option (Constraint NumericValue)} (uom : UnitReference)
      (h : Numeric.constraint source false = .ok limits) :
      CompiledFrom source (.quantity limits uom)
  | time {component : TimeComponent} {context : ValueContext}
      (h : Time.constraint source component.reference context = .ok component.constraint) :
      CompiledFrom source (.time component)

/-- The raw text of a number is its token. -/
def RawOf (value : Json) (raw : Option String) : Prop :=
  ∀ lexeme, value = .number lexeme → raw.getD lexeme = lexeme

/-- The law of allowed values at one value of a component. -/
structure AllowedValueLaw (source : Json) (contract : ScalarContract) (value : Json)
    (raw : Option String) (context : ValueContext) (checked : CheckedScalarValue) : Prop where
  /-- accepted exactly when it is allowed -/
  verdict : (∃ result, contract.checkWithNil value raw context = .ok result) ↔
    Allows contract.component checked.value
  /-- whatever the order of the entries -/
  order : ∀ component, Rearranges contract.component component →
    ScalarContract.checkWithNil ⟨component, contract.nilDeclarations⟩ value raw context =
      contract.checkWithNil value raw context
  /-- a listed value is accepted, whatever is listed beside it -/
  listed : ∀ c, source.get? "constraint" = some c → value ∈ items c "values" →
    RawOf value raw → MeetsFigures contract.component checked.value →
    ∃ result, contract.checkWithNil value raw context = .ok result

/-- What a value is checked against once it has been read. -/
def enforced : ScalarComponent → ScalarValue → Except ScalarError Unit
  | .count limits, .count value => Numeric.enforce true limits (.finite value.number)
  | .quantity limits _, .quantity value => Numeric.enforce true limits value
  | .time component, .time position _ => Time.enforce true component.constraint position
  | _, _ => .ok ()

theorem countValue_eq_ok {v : NumericValue} {count : CountValue}
    (h : Numeric.countValue v = .ok count) : v = .finite count.number := by
  cases v with
  | finite number =>
      simp only [Numeric.countValue, CountValue.tryFrom] at h
      split_ifs at h with hinteger
      cases h
      rfl
  | _ => cases h

theorem bind_unit {x : Except ScalarError Unit} :
    (x >>= fun _ => Except.ok checked) = x.map (fun _ => checked) := by
  cases x <;> rfl

/-- A value that has been read, and what its component holds it against. -/
theorem checkParsedValue_cases {b : Bool}
    (h : contract.checkParsedValue value raw context b = .ok checked) :
    (∃ limits v count, contract.component = .count limits ∧ Numeric.number value raw = .ok v ∧
      Numeric.countValue v = .ok count ∧ checked = ⟨.count count, .notApplicable, none⟩) ∨
    (∃ limits uom v, contract.component = .quantity limits uom ∧
      Numeric.number value raw = .ok v ∧
      checked = ⟨.quantity v, Numeric.unitReferenceCheck uom, none⟩) ∨
    ∃ component p, contract.component = .time component ∧
      Time.dataPosition value raw component.reference context = .ok p ∧
      checked = ⟨.time p component.reference, Time.unitReferenceCheck component.reference, none⟩ := by
  obtain ⟨component, nils⟩ := contract
  cases component with
  | count limits =>
      obtain ⟨v, hv, h⟩ := bind_eq_ok.mp h
      obtain ⟨count, hcount, h⟩ := bind_eq_ok.mp h
      obtain ⟨-, -, h⟩ := bind_eq_ok.mp h
      exact .inl ⟨limits, v, count, rfl, hv, hcount, (Except.ok.inj h).symm⟩
  | quantity limits uom =>
      obtain ⟨v, hv, h⟩ := bind_eq_ok.mp h
      obtain ⟨-, -, h⟩ := bind_eq_ok.mp h
      exact .inr (.inl ⟨limits, uom, v, rfl, hv, (Except.ok.inj h).symm⟩)
  | time component =>
      obtain ⟨p, hp, h⟩ := bind_eq_ok.mp h
      obtain ⟨-, -, h⟩ := bind_eq_ok.mp h
      exact .inr (.inr ⟨component, p, rfl, hp, (Except.ok.inj h).symm⟩)

/-- Enforcing adds the constraint to the reading, which does not depend on it. -/
theorem checkParsedValue_enforced
    (hvalid : contract.checkParsedValue value raw context false = .ok checked) :
    contract.checkParsedValue value raw context true =
      (enforced contract.component checked.value).map (fun _ => checked) := by
  obtain ⟨limits, v, count, hcomponent, hv, hcount, rfl⟩ |
    ⟨limits, uom, v, hcomponent, hv, rfl⟩ | ⟨component, p, hcomponent, hp, rfl⟩ :=
    checkParsedValue_cases hvalid
  · obtain rfl := countValue_eq_ok hcount
    simp only [ScalarContract.checkParsedValue, hcomponent, Numeric.checkCount, hv, hcount, ok_bind,
      enforced, bind_unit]
  · simp only [ScalarContract.checkParsedValue, hcomponent, Numeric.checkQuantity, hv, ok_bind,
      enforced, bind_unit]
  · simp only [ScalarContract.checkParsedValue, hcomponent, Time.checkValue, hp, ok_bind,
      enforced, bind_unit]

/-- Data is its own candidate for the sentinels. -/
theorem checkParsedValue_nil
    (hvalid : contract.checkParsedValue value raw context false = .ok checked) :
    contract.checkParsedValue value raw .nilDeclaration false = .ok checked := by
  obtain ⟨limits, v, count, hcomponent, hv, hcount, rfl⟩ |
    ⟨limits, uom, v, hcomponent, hv, rfl⟩ | ⟨component, p, hcomponent, hp, rfl⟩ :=
    checkParsedValue_cases hvalid
  · simpa only [ScalarContract.checkParsedValue, hcomponent] using hvalid
  · simpa only [ScalarContract.checkParsedValue, hcomponent] using hvalid
  · have henforce : Time.enforce false component.constraint p = .ok () := by
      cases hlimits : component.constraint <;> rfl
    simp only [ScalarContract.checkParsedValue, hcomponent, Time.checkValue, dataPosition_nil hp,
      ok_bind, henforce]

theorem checkWithNil_eq
    (hvalid : contract.checkParsedValue value raw context false = .ok checked)
    (hnil : ∀ declaration ∈ contract.nilDeclarations,
      sameValue declaration.value checked.value = false) :
    contract.checkWithNil value raw context =
      (enforced contract.component checked.value).map (fun _ => checked) := by
  have hfind : contract.nilDeclarations.find?
      (fun declaration => sameValue declaration.value checked.value) = none := by
    rw [List.find?_eq_none]
    intro declaration hmem
    simp [hnil declaration hmem]
  rw [← checkParsedValue_enforced hvalid, ScalarContract.checkWithNil]
  split
  next => rfl
  next => rw [checkParsedValue_nil hvalid, ok_bind, hfind]

/-- The constraint holds the value exactly when it is allowed and no test lacks a
verdict. -/
theorem enforced_eq_ok (hcompiled : CompiledFrom source contract.component)
    (hvalid : contract.checkParsedValue value raw context false = .ok checked) :
    enforced contract.component checked.value = .ok () ↔
      Allows contract.component checked.value ∧ Established contract.component checked.value := by
  obtain ⟨limits, v, count, hcomponent, hv, hcount, rfl⟩ |
    ⟨limits, uom, v, hcomponent, hv, rfl⟩ | ⟨component, p, hcomponent, hp, rfl⟩ :=
    checkParsedValue_cases hvalid
  · obtain rfl := countValue_eq_ok hcount
    rw [hcomponent]
    cases limits with
    | none => simp [enforced, Numeric.enforce, Allows, Established]
    | some c =>
        simpa [enforced, Numeric.enforce, Allows, Established] using
          checkNumber_eq_ok fun number h => number_decimal (h ▸ hv)
  · rw [hcomponent]
    cases limits with
    | none => simp [enforced, Numeric.enforce, Allows, Established]
    | some c =>
        simpa [enforced, Numeric.enforce, Allows, Established] using
          checkNumber_eq_ok fun number h => number_decimal (h ▸ hv)
  · rw [hcomponent] at hcompiled ⊢
    obtain ⟨reference, limits⟩ := component
    cases limits with
    | none => simp [enforced, Time.enforce, Allows, Established]
    | some c =>
        cases hcompiled with
        | time h =>
            have hread := dataPosition_reading hp
            have hsettled := settled_iff (constraint_compiled h).1 (reading_encoded hread)
            have hcheck : Time.checkConstraint c p = .ok () ↔ Settled c p ∧ AllowsPosition c p :=
              checkPosition_eq_ok fun number h => reading_decimal (h ▸ hread)
            simp only [enforced, Time.enforce, if_true, Allows, Established, Option.mem_some_iff,
              forall_eq']
            rw [hcheck, hsettled]
            exact ⟨fun ⟨hunmixed, hallows⟩ => ⟨hallows, fun _ => hunmixed⟩,
              fun ⟨hallows, hestablished⟩ => ⟨hestablished hallows, hallows⟩⟩

theorem enforced_rearranged {component component' : ScalarComponent}
    (h : Rearranges component component') (v : ScalarValue) :
    enforced component' v = enforced component v := by
  cases h with
  | count h =>
      cases v with
      | count n => exact (checkNumber_perm h).symm
      | _ => rfl
  | quantity h =>
      cases v with
      | quantity n => exact (checkNumber_perm h).symm
      | _ => rfl
  | time h =>
      cases v with
      | time p _ => exact (checkPosition_perm h).symm
      | _ => rfl

/-- Reading does not look at the entries. -/
theorem checkParsedValue_rearranged {component : ScalarComponent} {nils : List NilDeclaration}
    (h : Rearranges contract.component component)
    (hvalid : contract.checkParsedValue value raw context false = .ok checked) :
    ScalarContract.checkParsedValue ⟨component, nils⟩ value raw context false = .ok checked := by
  obtain ⟨original, nils'⟩ := contract
  cases h <;> exact hvalid

/-- A listed value is named by the compiled constraint. -/
theorem allows_listed (hcompiled : CompiledFrom source contract.component)
    (hvalid : contract.checkParsedValue value raw context false = .ok checked) {c : Json}
    (hc : source.get? "constraint" = some c) (hlisted : value ∈ items c "values")
    (hraw : RawOf value raw) (hfigures : MeetsFigures contract.component checked.value) :
    Allows contract.component checked.value := by
  have hnumber : Numeric.number value raw = Numeric.number value none := by
    cases value with
    | number lexeme =>
        simp only [Numeric.number, hraw lexeme rfl, Option.getD_none]
    | _ => rfl
  obtain ⟨limits, v, count, hcomponent, hv, hcount, rfl⟩ |
    ⟨limits, uom, v, hcomponent, hv, rfl⟩ | ⟨component, p, hcomponent, hp, rfl⟩ :=
    checkParsedValue_cases hvalid
  · obtain rfl := countValue_eq_ok hcount
    rw [hcomponent] at hcompiled hfigures ⊢
    rintro limits rfl
    cases hcompiled with
    | count h =>
        obtain ⟨w, hw, hread⟩ := numericConstraint_compiled h c hc value hlisted
        obtain rfl := Except.ok.inj (hread.symm.trans (hnumber.symm.trans hv))
        exact ⟨.inl ⟨_, hw, rfl⟩, hfigures limits rfl⟩
  · rw [hcomponent] at hcompiled hfigures ⊢
    rintro limits rfl
    cases hcompiled with
    | quantity _ h =>
        obtain ⟨w, hw, hread⟩ := numericConstraint_compiled h c hc value hlisted
        obtain rfl := Except.ok.inj (hread.symm.trans (hnumber.symm.trans hv))
        exact ⟨.inl ⟨_, hw, rfl⟩, hfigures limits rfl⟩
  · rw [hcomponent] at hcompiled hfigures ⊢
    obtain ⟨reference, limits⟩ := component
    rintro limits rfl
    cases hcompiled with
    | time h =>
        obtain ⟨q, hq, hread⟩ := (constraint_compiled h).2 c hc value hlisted
        have hsame : reading value raw reference = reading value none reference := by
          simp only [reading, Time.numericPosition, hnumber]
        obtain rfl := Except.ok.inj (hread.symm.trans (hsame.symm.trans (dataPosition_reading hp)))
        refine ⟨.inl ⟨_, hq, ?_⟩, hfigures limits rfl⟩
        cases q with
        | numeric v => exact .numeric rfl
        | calendar t =>
            cases t with
            | utc i => exact .instant rfl
            | unresolved text => exact .text text

theorem established_of {component : ScalarComponent} {v : ScalarValue}
    (h : Allows component v → Established component v) : Established component v := by
  cases component with
  | time component =>
      cases v with
      | time p _ =>
          intro c hc hallows
          refine h (fun c' hc' => ?_) c hc hallows
          obtain rfl := Option.mem_unique hc hc'
          exact hallows
      | _ => trivial
  | _ => cases v <;> trivial

/-- **Allowed values.**  For a compiled component and data that is no declared sentinel,
the law holds exactly when no text of the frame beside an allowed one is listed. -/
theorem allowedValueLaw_iff_established (hcompiled : CompiledFrom source contract.component)
    (hvalid : contract.checkParsedValue value raw context false = .ok checked)
    (hnil : ∀ declaration ∈ contract.nilDeclarations,
      sameValue declaration.value checked.value = false) :
    AllowedValueLaw source contract value raw context checked ↔
      Established contract.component checked.value := by
  have haccepted : (∃ result, contract.checkWithNil value raw context = .ok result) ↔
      Allows contract.component checked.value ∧ Established contract.component checked.value := by
    rw [checkWithNil_eq hvalid hnil, ← enforced_eq_ok hcompiled hvalid]
    cases enforced contract.component checked.value with
    | ok => simp [Except.map]
    | error => simp [Except.map]
  constructor
  · intro hlaw
    exact established_of fun hallows => (haccepted.mp (hlaw.verdict.mpr hallows)).2
  · intro hestablished
    exact {
      verdict := haccepted.trans (and_iff_left hestablished)
      order := fun component hrearranges => by
        rw [checkWithNil_eq hvalid hnil,
          checkWithNil_eq (checkParsedValue_rearranged hrearranges hvalid) hnil,
          enforced_rearranged hrearranges]
      listed := fun c hc hlisted hraw hfigures => haccepted.mpr
        ⟨allows_listed hcompiled hvalid hc hlisted hraw hfigures, hestablished⟩ }

/-- The frame of GPS, whose meaning is not established. -/
def gpsReference : TimeReference :=
  ⟨.declared "http://www.opengis.net/def/trs/USNO/0/GPS", none, none,
    ⟨none, none, none, some Time.gregorian⟩⟩

/-- Two days are listed. -/
def twoDays : Json :=
  .object [("constraint", .object [("values",
    .array [.string "2000-01-01T00:00:00Z", .string "2001-01-01T00:00:00Z"])])]

def day (text : String) : TimePosition := .calendar (.unresolved text)

def gpsContract : ScalarContract :=
  ⟨.time ⟨gpsReference,
    some ⟨⟨[day "2000-01-01T00:00:00Z", day "2001-01-01T00:00:00Z"], []⟩, none⟩⟩, []⟩

def firstDay : CheckedScalarValue :=
  ⟨.time (day "2000-01-01T00:00:00Z") gpsReference, .calendarEncoding, none⟩

/-- A listed day is refused because of the other one. -/
theorem listed_day_refused :
    CompiledFrom twoDays gpsContract.component ∧
      gpsContract.checkParsedValue (.string "2000-01-01T00:00:00Z") none .scalar false =
        .ok firstDay ∧
      gpsContract.checkWithNil (.string "2000-01-01T00:00:00Z") none .scalar =
        .error .unsupportedTimeMeaning ∧
      ¬ AllowedValueLaw twoDays gpsContract (.string "2000-01-01T00:00:00Z") none .scalar
        firstDay := by
  have hrefused : gpsContract.checkWithNil (.string "2000-01-01T00:00:00Z") none .scalar =
      .error .unsupportedTimeMeaning := by decide +kernel
  have hcompiled : Time.constraint twoDays gpsReference .scalar =
      .ok (some ⟨⟨[day "2000-01-01T00:00:00Z", day "2001-01-01T00:00:00Z"], []⟩, none⟩) := by
    decide +kernel
  refine ⟨.time hcompiled, by decide +kernel, hrefused, fun hlaw => ?_⟩
  obtain ⟨result, haccepted⟩ := hlaw.verdict.mpr (by
    intro limits hlimits
    obtain rfl := Option.some.inj hlimits
    exact ⟨.inl ⟨_, List.mem_cons_self, .text _⟩, nofun⟩)
  rw [hrefused] at haccepted
  cases haccepted

def utcReference : TimeReference :=
  ⟨.defaultUtc, none, none, ⟨none, none, none, some Time.gregorian⟩⟩

def instant (civilSecond : Int) (text : String) : TimePosition :=
  .calendar (.utc ⟨civilSecond, false, "0", text⟩)

def utcLimits : Constraint TimePosition :=
  ⟨⟨[instant 946684800 "2000-01-01T00:00:00Z", instant 978307200 "2001-01-01T00:00:00Z"], []⟩,
    none⟩

def utcContract : ScalarContract := ⟨.time ⟨utcReference, some utcLimits⟩, []⟩

def firstInstant : CheckedScalarValue :=
  ⟨.time (instant 946684800 "2000-01-01T00:00:00Z") utcReference, .calendarEncoding, none⟩

/-- In an established frame the same listing follows the law. -/
theorem allowedValueLaw_utc :
    AllowedValueLaw twoDays utcContract (.string "2000-01-01T00:00:00Z") none .scalar
      firstInstant := by
  have hcompiled : Time.constraint twoDays utcReference .scalar = .ok (some utcLimits) := by
    decide +kernel
  have hvalid : utcContract.checkParsedValue (.string "2000-01-01T00:00:00Z") none .scalar false =
      .ok firstInstant := by
    decide +kernel
  have hnil : ∀ declaration ∈ utcContract.nilDeclarations,
      sameValue declaration.value firstInstant.value = false := by
    intro declaration hmem
    cases hmem
  refine (allowedValueLaw_iff_established (.time hcompiled) hvalid hnil).mpr ?_
  intro limits hlimits hallows text htext
  cases htext

end Law

end Standards
end Glaux
