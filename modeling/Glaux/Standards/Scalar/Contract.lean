import Glaux.Standards.Scalar.AllowedValues

/-!
# Scalar contracts with their sentinels (`scalar.rs`, `scalar/nil.rs`)

Boolean, Text and Category beside the measured kinds, and the reserved values a component
declares.  A supplied value is first read among the reserved values, which admit more than
the component does, and only then held against the component itself.
-/

namespace Glaux
namespace Standards
namespace Scalar

open Library Domain

inductive TokenConstraint where
  | values (tokens : List String)
  | pattern (pattern : String)
deriving DecidableEq

/-- `ScalarComponent`, all its kinds. -/
inductive Component where
  | boolean
  | text (constraint : Option TokenConstraint)
  | category (codeSpace : Option String) (constraint : Option TokenConstraint)
  | measured (component : ScalarComponent)

/-- `ScalarValue`, all its kinds. -/
inductive Value where
  | boolean (value : Bool)
  | text (value : String)
  | category (value : String)
  | measured (value : ScalarValue)
deriving DecidableEq

def Value.eq : Value → Value → Bool
  | .boolean a, .boolean b => a = b
  | .text a, .text b => a = b
  | .category a, .category b => a = b
  | .measured a, .measured b => a.eq b
  | _, _ => false

/-- `NilDeclaration`. -/
structure Nil where
  value : Value
  reason : String

inductive CodeSpaceCheck where
  | notApplicable
  | unresolved (uri : String)
deriving DecidableEq

/-- `CheckedScalarValue`. -/
structure Checked where
  value : Value
  codeSpace : CodeSpaceCheck
  unitReference : UnitReferenceCheck
  nilReason : Option String
deriving DecidableEq

/-- What a measured value is checked to be. -/
def Checked.ofMeasured (checked : CheckedScalarValue) : Checked :=
  ⟨.measured checked.value, .notApplicable, checked.unitReference, checked.nilReason⟩

/-- `ScalarContract`; `tokens` is the compiled validator of listed tokens or of a pattern. -/
structure Contract where
  component : Component
  tokens : Option (Json → Bool)
  nilDeclarations : List Nil

/-- `same_value`. -/
def sameValue : Value → Value → Bool
  | .measured a, .measured b => Standards.sameValue a b
  | a, b => a.eq b

namespace Contract

def checkTokens (contract : Contract) (value : Json) : Except ScalarError Unit :=
  if contract.tokens.any (fun accepts => !accepts value) then .error .constraintViolation
  else .ok ()

/-- The text of a token, held against the listed ones where that is asked for. -/
def checkText (contract : Contract) (value : Json) (enforced : Bool) :
    Except ScalarError String :=
  match value.asString? with
  | none => .error .valueType
  | some text =>
      if enforced then (contract.checkTokens value).map (fun _ => text) else .ok text

def codeSpaceCheck : Option String → CodeSpaceCheck
  | some uri => .unresolved uri
  | none => .notApplicable

def checkParsedValue (contract : Contract) (value : Json) (raw : Option String)
    (context : ValueContext) (enforced : Bool) : Except ScalarError Checked :=
  match contract.component with
  | .boolean =>
      match value.asBool? with
      | none => .error .valueType
      | some b => .ok ⟨.boolean b, .notApplicable, .notApplicable, none⟩
  | .text _ => do
      let text ← contract.checkText value enforced
      .ok ⟨.text text, .notApplicable, .notApplicable, none⟩
  | .category codeSpace _ => do
      let text ← contract.checkText value enforced
      .ok ⟨.category text, codeSpaceCheck codeSpace, .notApplicable, none⟩
  | .measured component =>
      (ScalarContract.checkParsedValue ⟨component, []⟩ value raw context enforced).map
        Checked.ofMeasured

/-- The first declared sentinel that is the value. -/
def declaration? (contract : Contract) (value : Value) : Option Nil :=
  contract.nilDeclarations.find? (fun declaration => sameValue declaration.value value)

def checkWithNil (contract : Contract) (value : Json) (raw : Option String)
    (context : ValueContext) : Except ScalarError Checked :=
  if contract.nilDeclarations.isEmpty then contract.checkParsedValue value raw context true
  else do
    let candidate ← contract.checkParsedValue value raw .nilDeclaration false
    match contract.declaration? candidate.value with
    | some declaration => .ok { candidate with nilReason := some declaration.reason }
    | none => contract.checkParsedValue value raw context true

def checkInput (reader : JsonReader) (contract : Contract) (input : Bytes)
    (context : ValueContext) : Except ScalarError Checked :=
  match reader.parse input with
  | .error failure => .error (.syntaxError failure)
  | .ok value =>
      match decode input with
      | none => .error .valueType
      | some raw => contract.checkWithNil value (some (trim raw)) context

def checkValue (reader : JsonReader) (contract : Contract) (input : Bytes) :
    Except ScalarError Checked :=
  contract.checkInput reader input .scalar

def checkRangeEndpoint (reader : JsonReader) (contract : Contract) (input : Bytes) :
    Except ScalarError Checked :=
  contract.checkInput reader input .rangeEndpoint

end Contract

/-! ### Declaring sentinels -/

def maxNilDeclarations : Nat := 128

/-- One entry of `nilValues`, beside those before it. -/
def declare (isUri : String → Bool) (reader : JsonReader) (contract : Contract)
    (declarations : List Nil) (entry : Json × String) : Except ScalarError (List Nil) :=
  match (entry.1.get? "reason").bind Json.asString? with
  | none => .error .nilDeclaration
  | some reason =>
      if isUri reason = false then .error .nilDeclaration
      else
        match reader.rawMembers (encode entry.2), entry.1.get? "value" with
        | some rawMembers, some value => do
            let checked ← contract.checkParsedValue value (rawMembers.lookup "value")
              .nilDeclaration false
            if declarations.any (fun declaration => sameValue declaration.value checked.value)
            then .error .duplicateNilValue
            else .ok (declarations ++ [⟨checked.value, reason⟩])
        | _, _ => .error .nilDeclaration

/-- `nil::compile`, on the members of a description and their raw texts. -/
def compileNil (isUri : String → Bool) (reader : JsonReader) (contract : Contract)
    (source : Json) (raw : List (String × String)) : Except ScalarError (List Nil) :=
  match source.get? "nilValues" with
  | none => .ok []
  | some entries =>
      match contract.component, entries.asArray? with
      | .boolean, _ | _, none => .error .nilDeclaration
      | _, some entries =>
          if entries.isEmpty then .error .nilDeclaration
          else if entries.length > maxNilDeclarations then .error .nilLimit
          else
            match (raw.lookup "nilValues").bind (fun text => reader.rawItems (encode text)) with
            | none => .error .nilDeclaration
            | some rawEntries =>
                if entries.length ≠ rawEntries.length then .error .nilDeclaration
                else (entries.zip rawEntries).foldlM (declare isUri reader contract) []

/-- `finish`: the sentinels, and the inline value if there is one. -/
def Contract.finish (isUri : String → Bool) (reader : JsonReader) (contract : Contract)
    (source : Json) (raw : List (String × String)) : Except ScalarError Contract := do
  let declarations ← compileNil isUri reader contract source raw
  let contract := { contract with nilDeclarations := declarations }
  match source.get? "value" with
  | none => .ok contract
  | some value => do
      let _ ← contract.checkWithNil value (raw.lookup "value") .scalar
      .ok contract

end Scalar
end Standards
end Glaux
