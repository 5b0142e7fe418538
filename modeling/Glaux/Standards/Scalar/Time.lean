import Glaux.Standards.Scalar.Numeric

/-!
# Positions in time (`scalar/time.rs`)

A Time component is either encoded as Gregorian calendar text or as numbers.  Only
in an established UTC frame does calendar text become an instant; elsewhere it stays
text, whose order is unknown.
-/

namespace Glaux
namespace Standards

open Library Domain

/-- Who asks for a value. -/
inductive ValueContext where
  | scalar
  | rangeEndpoint
  | nilDeclaration
deriving DecidableEq

namespace Time

def gregorian : String := "http://www.opengis.net/def/uom/ISO-8601/0/Gregorian"

def utcUri : String := "http://www.opengis.net/def/trs/BIPM/0/UTC"

def isUtc : TimeFrame → Bool
  | .defaultUtc => true
  | .declared uri => uri = utcUri

def calendar (text : String) (frame : TimeFrame) : Except ScalarError CalendarTime :=
  if ¬ isUtc frame ∧ (text.toUTF8.data.toList.drop 17).take 2 = "60".toUTF8.data.toList then
    .error .unsupportedTimeMeaning
  else
    match ExactInstant.parseRfc3339 text with
    | .error e => .error (.time e)
    | .ok parsed => .ok (if isUtc frame then .utc parsed else .unresolved text)

def calendarEncoding (reference : TimeReference) : Bool :=
  reference.uom.href = some gregorian

def numericPosition (value : Json) (raw : Option String) : Except ScalarError TimePosition :=
  (Numeric.number value raw).map .numeric

def position (value : Json) (raw : Option String) (reference : TimeReference)
    (constraintBound : Bool) : Except ScalarError TimePosition :=
  if calendarEncoding reference then
    match value.asString? with
    | none => .error .valueType
    | some text =>
        -- infinite bounds may stand around calendar values, but are no data
        if constraintBound ∧ text ∈ ["Infinity", "+Infinity", "-Infinity"] then
          numericPosition value raw
        else if (NumericValue.fromSweSpecial text).isOk then .error .valueType
        else (calendar text reference.frame).map .calendar
  else numericPosition value raw

def special? (value : Json) : Option NumericValue :=
  value.asString?.bind (fun text => (NumericValue.fromSweSpecial text).toOption)

def dataPosition (value : Json) (raw : Option String) (reference : TimeReference)
    (context : ValueContext) : Except ScalarError TimePosition :=
  if calendarEncoding reference ∧ context ≠ .scalar then
    match special? value with
    | some special => .ok (.numeric special)
    | none =>
        if context = .nilDeclaration ∧ value.isNumber then .error .unsupportedTimeMeaning
        else position value raw reference false
  else position value raw reference false

def compare : TimePosition → TimePosition → Except ScalarError (Option Ordering)
  | .numeric a, .numeric b => .ok (a.partialCmp b)
  | .numeric .nan, .calendar _ | .calendar _, .numeric .nan => .ok none
  | .calendar (.utc a), .calendar (.utc b) => .ok (some (a.cmp b))
  | .calendar (.unresolved a), .calendar (.unresolved b) =>
      if a = b then .ok (some .eq) else .error .unsupportedTimeMeaning
  | .numeric .negativeInfinity, .calendar _ | .calendar _, .numeric .positiveInfinity =>
      .ok (some .lt)
  | .numeric .positiveInfinity, .calendar _ | .calendar _, .numeric .negativeInfinity =>
      .ok (some .gt)
  | .numeric (.finite _), .calendar _ | .calendar _, .numeric (.finite _)
  | .calendar (.utc _), .calendar (.unresolved _)
  | .calendar (.unresolved _), .calendar (.utc _) => .error .unsupportedTimeMeaning

/-- The comparison gives less or equal. -/
def inOrder (low high : TimePosition) : Except ScalarError Bool := do
  let order ← compare low high
  .ok (order = some .lt ∨ order = some .eq)

def significantFigures (source : Json) (reference : TimeReference) :
    Except ScalarError (Option Nat) :=
  match source.get? "significantFigures" with
  | none => .ok none
  | some v =>
      if calendarEncoding reference then .error .unsupportedTimeMeaning
      else do
        match ← Numeric.number v none with
        | .finite number =>
            match CountValue.tryFrom number with
            | .error e => .error (.numeric e)
            | .ok count => do
                let n ← Numeric.figures count
                .ok (some n)
        | _ => .error .constraint

/-- A listed value; an endpoint of a range is read as data. -/
def listedPosition (reference : TimeReference) (context : ValueContext) (item : Json) :
    Except ScalarError TimePosition :=
  if context = .rangeEndpoint then dataPosition item none reference context
  else position item none reference true

def constraint (source : Json) (reference : TimeReference) (context : ValueContext) :
    Except ScalarError (Option (Constraint TimePosition)) :=
  match source.get? "constraint" with
  | none => .ok none
  | some source => do
      let values ← (items source "values").mapM (listedPosition reference context)
      let intervals ← (items source "intervals").mapM
        (interval (position · none reference true) inOrder)
      let figures ← significantFigures source reference
      .ok (some ⟨⟨values, intervals⟩, figures⟩)

def isNaN : TimePosition → Bool
  | .numeric value => Numeric.isNaN value
  | .calendar _ => false

/-- One listed value is tested. -/
def matchesValue (value allowed : TimePosition) : Except ScalarError Bool :=
  if isNaN allowed ∧ isNaN value then .ok true
  else do
    let order ← compare allowed value
    .ok (order = some .eq)

/-- The upper bound is looked at where the lower one holds. -/
def withinInterval (value : TimePosition) (bounds : TimePosition × TimePosition) :
    Except ScalarError Bool := do
  if ← inOrder bounds.1 value then inOrder value bounds.2 else .ok false

def checkFigures (maximum : Option Nat) : TimePosition → Except ScalarError Unit
  | .numeric value => Numeric.checkFigures maximum .unsupportedTimeMeaning value
  | .calendar _ => .ok ()

/-- Every entry is compared, also after a match. -/
def checkConstraint (limits : Constraint TimePosition) (value : TimePosition) :
    Except ScalarError Unit := do
  let matched ← scan (matchesValue value) limits.values false
  let matched ← scan (withinInterval value) limits.intervals matched
  if matched then checkFigures limits.significantFigures value else .error .constraintViolation

def enforce (enforced : Bool) (constraint : Option (Constraint TimePosition))
    (value : TimePosition) : Except ScalarError Unit :=
  match constraint with
  | some constraint => if enforced then checkConstraint constraint value else .ok ()
  | none => .ok ()

def unitReferenceCheck (reference : TimeReference) : UnitReferenceCheck :=
  if calendarEncoding reference then .calendarEncoding
  else Numeric.unitReferenceCheck reference.uom

def checkValue (component : TimeComponent) (value : Json) (raw : Option String)
    (context : ValueContext) (enforced : Bool) : Except ScalarError CheckedScalarValue := do
  let position ← dataPosition value raw component.reference context
  enforce enforced component.constraint position
  .ok ⟨.time position component.reference, unitReferenceCheck component.reference, none⟩

end Time

end Standards
end Glaux
