import Glaux.Domain.Scalar
import Glaux.Standards.Validation

/-!
# Numbers of a component (`scalar/numeric.rs`)

How Count and Quantity read their numbers and their `AllowedValues`, and how a value
is checked against them.
-/

namespace Glaux
namespace Standards

open Library Domain

inductive ScalarError where
  | syntaxError (failure : Failure)
  | unsupportedFeature
  | constraint
  | valueType
  | constraintViolation
  | numeric (error : NumericError)
  | time (error : TimeError)
  | unsupportedTimeMeaning
  | nilDeclaration
  | duplicateNilValue
  | nilLimit
deriving DecidableEq

inductive UnitReferenceCheck where
  | notApplicable
  | codeValidated
  | calendarEncoding
  /-- the syntax of the URI was checked, not its meaning -/
  | unresolved (uri : String)
deriving DecidableEq

structure CheckedScalarValue where
  value : ScalarValue
  unitReference : UnitReferenceCheck
  /-- the reason of the declared sentinel that was supplied -/
  nilReason : Option String
deriving DecidableEq

/-- The items of an array member; none where it is absent. -/
def items (source : Json) (member : String) : List Json :=
  ((source.get? member).bind Json.asArray?).getD []

/-- An interval is a pair of bounds in order. -/
def interval {α : Type} (bound : Json → Except ScalarError α)
    (inOrder : α → α → Except ScalarError Bool) (item : Json) : Except ScalarError (α × α) := do
  match item.asArray? with
  | some [low, high] =>
      let low ← bound low
      let high ← bound high
      if ← inOrder low high then .ok (low, high) else .error .constraint
  | _ => .error .constraint

namespace Numeric

def number (value : Json) (raw : Option String) : Except ScalarError NumericValue :=
  match value with
  | .number lexeme =>
      match ExactNumber.parseJsonNumber (raw.getD lexeme) with
      | .ok number => .ok (.finite number)
      | .error e => .error (.numeric e)
  | .string text =>
      match NumericValue.fromSweSpecial text with
      | .ok special => .ok special
      | .error _ => .error .valueType
  | _ => .error .valueType

def countValue : NumericValue → Except ScalarError CountValue
  | .finite number =>
      match CountValue.tryFrom number with
      | .ok count => .ok count
      | .error e => .error (.numeric e)
  | _ => .error .valueType

/-- The digits allowed, between 1 and 40. -/
def figures (value : CountValue) : Except ScalarError Nat :=
  match value.tryToU64 with
  | .ok n => if 1 ≤ n ∧ n ≤ 40 then .ok n else .error .constraint
  | .error e => .error (.numeric e)

def significantFigures (source : Json) (count : Bool) : Except ScalarError (Option Nat) :=
  match source.get? "significantFigures" with
  | none => .ok none
  | some v => do
      let value ← number v none
      let value ← countValue value
      let n ← figures value
      if count then .error .constraint else .ok (some n)

/-- Every number of a Count's constraint is an integer. -/
def integral (constraint : Constraint NumericValue) : Bool :=
  (constraint.values ++ constraint.intervals.flatMap (fun i => [i.1, i.2])).all
    (fun value => (countValue value).isOk)

def constraint (source : Json) (count : Bool) :
    Except ScalarError (Option (Constraint NumericValue)) :=
  match source.get? "constraint" with
  | none => .ok none
  | some source => do
      let values ← (items source "values").mapM (number · none)
      let intervals ← (items source "intervals").mapM
        (interval (number · none) (fun low high => .ok (low.le high)))
      let figures ← significantFigures source count
      let constraint := ⟨⟨values, intervals⟩, figures⟩
      if count ∧ ¬ integral constraint then .error .constraint else .ok (some constraint)

/-- The digits from the first that is not zero; a zero has its fractional places. -/
def significantDigits (source : String) : Nat :=
  let mantissa := source.toList.takeWhile (fun c => c ≠ 'e' ∧ c ≠ 'E')
  let significant := (mantissa.filter Char.isDigit).dropWhile (· = '0')
  if significant.length ≠ 0 then significant.length
  else max ((mantissa.dropWhile (· ≠ '.')).tail.length) 1

/-- The bound on the digits of a finite number. -/
def checkFigures (maximum : Option Nat) (unsupported : ScalarError) (value : NumericValue) :
    Except ScalarError Unit :=
  match maximum, value with
  | some maximum, .finite number =>
      match number.decimalLexeme with
      | none => .error unsupported
      | some source =>
          if significantDigits source > maximum then .error .constraintViolation else .ok ()
  | _, _ => .ok ()

def isNaN : NumericValue → Bool
  | .nan => true
  | _ => false

/-- `NaN` is named by `NaN`, which equals nothing. -/
def named (value allowed : NumericValue) : Bool :=
  allowed.eq value || (isNaN allowed && isNaN value)

def within (value : NumericValue) (bounds : NumericValue × NumericValue) : Bool :=
  bounds.1.le value && value.le bounds.2

def admitted (limits : Constraint NumericValue) (value : NumericValue) : Bool :=
  limits.values.any (named value) || limits.intervals.any (within value)

def checkConstraint (limits : Constraint NumericValue) (value : NumericValue) :
    Except ScalarError Unit :=
  if admitted limits value then checkFigures limits.significantFigures .unsupportedFeature value
  else .error .constraintViolation

/-- The constraint of a component that has one, where it is enforced. -/
def enforce (enforced : Bool) (constraint : Option (Constraint NumericValue))
    (value : NumericValue) : Except ScalarError Unit :=
  match constraint with
  | some constraint => if enforced then checkConstraint constraint value else .ok ()
  | none => .ok ()

def unitReferenceCheck (uom : UnitReference) : UnitReferenceCheck :=
  match uom.href with
  | some uri => .unresolved uri
  | none => .codeValidated

def checkCount (limits : Option (Constraint NumericValue)) (value : Json) (raw : Option String)
    (enforced : Bool) : Except ScalarError CheckedScalarValue := do
  let numeric ← number value raw
  let count ← countValue numeric
  enforce enforced limits numeric
  .ok ⟨.count count, .notApplicable, none⟩

def checkQuantity (limits : Option (Constraint NumericValue)) (uom : UnitReference)
    (value : Json) (raw : Option String) (enforced : Bool) :
    Except ScalarError CheckedScalarValue := do
  let numeric ← number value raw
  enforce enforced limits numeric
  .ok ⟨.quantity numeric, unitReferenceCheck uom, none⟩

end Numeric

end Standards
end Glaux
