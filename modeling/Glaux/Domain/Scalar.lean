import Glaux.Domain.Temporal
import Glaux.Library.Listing

/-!
# Scalar meaning (`scalar.rs` of the domain)

Positions in time, the constraints of numbers and times, and the values a component
can take.  The order of numbers is that of the rationals with both infinities added;
the order of calendar texts in a frame without an established meaning is unknown.
-/

namespace Glaux
namespace Domain

structure UnitReference where
  label : Option String
  symbol : Option String
  code : Option String
  href : Option String
deriving DecidableEq

inductive TimeFrame where
  | defaultUtc
  | declared (uri : String)
deriving DecidableEq

inductive CalendarTime where
  | utc (instant : ExactInstant)
  | unresolved (text : String)
deriving DecidableEq

inductive TimePosition where
  | calendar (time : CalendarTime)
  | numeric (value : NumericValue)
deriving DecidableEq

structure TimeReference where
  frame : TimeFrame
  origin : Option CalendarTime
  localFrame : Option String
  uom : UnitReference
deriving DecidableEq

/-- Enumeration and inclusive intervals, and a bound on the digits of a number. -/
structure Constraint (α : Type) extends Library.Listing α where
  significantFigures : Option Nat
deriving DecidableEq

structure TimeComponent where
  reference : TimeReference
  constraint : Option (Constraint TimePosition)

inductive ScalarComponent where
  | count (constraint : Option (Constraint NumericValue))
  | quantity (constraint : Option (Constraint NumericValue)) (uom : UnitReference)
  | time (component : TimeComponent)

inductive ScalarValue where
  | count (value : CountValue)
  | quantity (value : NumericValue)
  | time (position : TimePosition) (reference : TimeReference)
deriving DecidableEq

structure NilDeclaration where
  value : ScalarValue
  reason : String

/-! ### Equality as the code derives it -/

def CalendarTime.eq : CalendarTime → CalendarTime → Bool
  | .utc a, .utc b => a.cmp b = .eq
  | .unresolved a, .unresolved b => a = b
  | _, _ => false

def TimePosition.eq : TimePosition → TimePosition → Bool
  | .calendar a, .calendar b => a.eq b
  | .numeric a, .numeric b => a.eq b
  | _, _ => false

def TimeReference.eq (a b : TimeReference) : Bool :=
  a.frame = b.frame ∧ a.localFrame = b.localFrame ∧ a.uom = b.uom ∧
    ((a.origin = none ∧ b.origin = none) ∨
      a.origin.any (fun origin => b.origin.any origin.eq))

def ScalarValue.eq : ScalarValue → ScalarValue → Bool
  | .count a, .count b => a.number.cmp b.number = .eq
  | .quantity a, .quantity b => a.eq b
  | .time a reference, .time b reference' => a.eq b ∧ reference.eq reference'
  | _, _ => false

/-! ### What the values mean -/

/-- The rationals with both infinities; `NaN` has no place among them. -/
def NumericValue.place : NumericValue → Option (WithBot (WithTop ℚ))
  | .finite number => some ((number.value : WithTop ℚ) : WithBot (WithTop ℚ))
  | .nan => none
  | .positiveInfinity => some ((⊤ : WithTop ℚ) : WithBot (WithTop ℚ))
  | .negativeInfinity => some ⊥

/-- The same number, infinity or `NaN`. -/
def NumericValue.Same (a b : NumericValue) : Prop := a.place = b.place

/-- `a ≤ b`, which `NaN` is never part of. -/
def NumericValue.AtMost (a b : NumericValue) : Prop :=
  ∃ x ∈ a.place, ∃ y ∈ b.place, x ≤ y

/-- The same position. -/
inductive TimePosition.Same : TimePosition → TimePosition → Prop
  | numeric {a b : NumericValue} (h : a.Same b) : Same (.numeric a) (.numeric b)
  | instant {a b : ExactInstant} (h : a.key = b.key) :
      Same (.calendar (.utc a)) (.calendar (.utc b))
  | text (text : String) : Same (.calendar (.unresolved text)) (.calendar (.unresolved text))

/-- Known not to be later. -/
inductive TimePosition.AtMost : TimePosition → TimePosition → Prop
  | numeric {a b : NumericValue} (h : a.AtMost b) : AtMost (.numeric a) (.numeric b)
  | instant {a b : ExactInstant} (h : a.key ≤ b.key) :
      AtMost (.calendar (.utc a)) (.calendar (.utc b))
  | text (text : String) : AtMost (.calendar (.unresolved text)) (.calendar (.unresolved text))
  | below (time : CalendarTime) : AtMost (.numeric .negativeInfinity) (.calendar time)
  | above (time : CalendarTime) : AtMost (.calendar time) (.numeric .positiveInfinity)

section Places

variable {a b : NumericValue}

theorem NumericValue.partialCmp_nan (a : NumericValue) : a.partialCmp .nan = none := by
  cases a <;> rfl

/-- The comparison is that of the places. -/
theorem NumericValue.partialCmp_eq : a.partialCmp b =
    a.place.bind fun x => b.place.map fun y => compare x y := by
  have hbot : ∀ x : WithTop ℚ, compare (⊥ : WithBot (WithTop ℚ)) x = .lt :=
    fun x => compare_lt_iff_lt.mpr (WithBot.bot_lt_coe x)
  have hbot' : ∀ x : WithTop ℚ, compare (x : WithBot (WithTop ℚ)) ⊥ = .gt :=
    fun x => compare_gt_iff_gt.mpr (WithBot.bot_lt_coe x)
  have hcoe : ∀ x y : WithTop ℚ, compare (x : WithBot (WithTop ℚ)) y = compare x y := by
    intro x y
    rw [← cmp_eq_compare, ← cmp_eq_compare]
    exact WithBot.coe_strictMono.cmp_map_eq x y
  have htop : ∀ x : ℚ, compare (x : WithTop ℚ) ⊤ = .lt :=
    fun x => compare_lt_iff_lt.mpr (WithTop.coe_lt_top x)
  have htop' : ∀ x : ℚ, compare ⊤ (x : WithTop ℚ) = .gt :=
    fun x => compare_gt_iff_gt.mpr (WithTop.coe_lt_top x)
  have hvalue : ∀ x y : ℚ, compare (x : WithTop ℚ) y = compare x y := by
    intro x y
    rw [← cmp_eq_compare, ← cmp_eq_compare]
    exact WithTop.coe_strictMono.cmp_map_eq x y
  cases a with
  | nan => rfl
  | negativeInfinity =>
      cases b with
      | nan => rfl
      | negativeInfinity => exact congrArg some (compare_eq_iff_eq.mpr rfl).symm
      | positiveInfinity => exact congrArg some (hbot _).symm
      | finite n => exact congrArg some (hbot _).symm
  | positiveInfinity =>
      cases b with
      | nan => rfl
      | negativeInfinity => exact congrArg some (hbot' _).symm
      | positiveInfinity => exact congrArg some (compare_eq_iff_eq.mpr rfl).symm
      | finite n => exact congrArg some ((hcoe _ _).trans (htop' _)).symm
  | finite m =>
      cases b with
      | nan => rfl
      | negativeInfinity => exact congrArg some (hbot' _).symm
      | positiveInfinity => exact congrArg some ((hcoe _ _).trans (htop _)).symm
      | finite n => exact congrArg some ((hcoe _ _).trans (hvalue _ _)).symm

theorem NumericValue.partialCmp_same :
    a.partialCmp b = some .eq ↔ a ≠ .nan ∧ a.Same b := by
  have hplace : a.place = none ↔ a = .nan := by
    cases a <;> simp [place]
  rw [partialCmp_eq, Same, ne_eq, ← hplace]
  cases a.place with
  | none => simp
  | some x =>
      cases b.place with
      | none => simp
      | some y => simp

theorem NumericValue.partialCmp_atMost :
    a.partialCmp b = some .lt ∨ a.partialCmp b = some .eq ↔ a.AtMost b := by
  rw [partialCmp_eq, AtMost]
  cases a.place with
  | none => simp
  | some x =>
      cases b.place with
      | none => simp
      | some y =>
          have hle : compare x y = .lt ∨ compare x y = .eq ↔ x ≤ y :=
            (compare_lt_iff_lt.or compare_eq_iff_eq).trans le_iff_lt_or_eq.symm
          simpa using hle

theorem NumericValue.eq_iff : a.eq b = true ↔ a ≠ .nan ∧ a.Same b := by
  rw [NumericValue.eq, decide_eq_true_eq, partialCmp_same]

theorem NumericValue.le_iff : a.le b = true ↔ a.AtMost b := by
  rw [NumericValue.le, decide_eq_true_eq, partialCmp_atMost]

end Places

end Domain
end Glaux
