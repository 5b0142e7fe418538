import Glaux.Library.Slots
import Glaux.Standards.Choice
import Glaux.Standards.Range

/-!
# Aggregate contracts (`aggregate.rs`, `choice/value.rs`)

A record, a vector or a choice checks its members by the contracts of its declared children.
An error carries the indices of the declared children that lead to it.
-/

namespace Glaux
namespace Standards

open Library Domain

/-- A compiled leaf: what its metadata says of omission, and its `check_value`. -/
structure Leaf (ε α : Type) where
  optional : Option Bool
  check : Bytes → Except ε α

def Leaf.ofScalar (reader : JsonReader) (optional : Option Bool) (contract : Scalar.Contract) :
    Leaf ScalarError Scalar.Checked :=
  ⟨optional, contract.checkValue reader⟩

def Leaf.ofRange (reader : JsonReader) (optional : Option Bool) (contract : RangeContract) :
    Leaf RangeError CheckedRangeValue :=
  ⟨optional, contract.checkValue reader⟩

/-- `AggregateComponent`; children and metadata stand beside it. -/
inductive AggregateComponent where
  | record
  | vector (referenceFrame : String) (localFrame : Option String)
  | choice
  | array
deriving DecidableEq

/-- `ChildContract`, over checked geometries `G` and their errors `EG`. -/
inductive ChildContract (EG G : Type) where
  | scalar (leaf : Leaf ScalarError Scalar.Checked)
  | range (leaf : Leaf RangeError CheckedRangeValue)
  | geometry (leaf : Leaf EG G)
  | aggregate (component : AggregateComponent) (optional : Option Bool)
      (children : List (String × ChildContract EG G))

/-- `NamedContract`. -/
abbrev NamedContract (EG G : Type) := String × ChildContract EG G

inductive CheckedComponentValue (G : Type) where
  | scalar (value : Scalar.Checked)
  | range (value : CheckedRangeValue)
  | geometry (value : G)
  | record (members : List (String × Option (CheckedComponentValue G)))
  | vector (referenceFrame : String) (localFrame : Option String)
      (coordinates : List (String × Option (CheckedComponentValue G)))
  | choice (name : String) (value : CheckedComponentValue G)

/-- `CheckedNamedValue`; an omitted optional member has no value. -/
abbrev CheckedNamedValue (G : Type) := String × Option (CheckedComponentValue G)

/-- `ComponentErrorKind`, as far as values are checked. -/
inductive ComponentErrorKind (EG : Type) where
  | scalar (error : ScalarError)
  | range (error : RangeError)
  | geometry (error : EG)
  | valueType
  | unsupportedValue
  | selectionCardinality
  | unknownSelection
  | unknownMember
  | duplicateMember
  | missingMember
  | limit

structure ComponentError (EG : Type) where
  kind : ComponentErrorKind EG
  path : List Nat

variable {EG G : Type}

namespace ComponentError

/-- `ComponentError::new`. -/
def new (kind : ComponentErrorKind EG) : ComponentError EG := ⟨kind, []⟩

/-- `ComponentError::at`. -/
def atIndex (index : Nat) (error : ComponentError EG) : ComponentError EG :=
  if error.path.length < maxDepth then { error with path := index :: error.path }
  else { error with kind := .limit }

end ComponentError

/-! ### Compiled names -/

inductive AggregateError where
  /-- `Structure` -/
  | structural
  | duplicateName
deriving DecidableEq

/-- `valid_name`. -/
def validName (name : String) : Bool :=
  match name.toList with
  | [] => false
  | first :: rest => first.isAlpha && rest.all (fun c => c.isAlphanum || c = '_' || c = '-')

/-- A child's name, beside those of the children before it. -/
def declareName (names : List String) (name : String) : Except AggregateError (List String) :=
  if validName name = false then .error .structural
  else if name ∈ names then .error .duplicateName
  else .ok (names ++ [name])

/-- What `compile_tree` has checked at every level. -/
inductive ChildContract.Compiled : ChildContract EG G → Prop
  | scalar (leaf : Leaf ScalarError Scalar.Checked) : Compiled (.scalar leaf)
  | range (leaf : Leaf RangeError CheckedRangeValue) : Compiled (.range leaf)
  | geometry (leaf : Leaf EG G) : Compiled (.geometry leaf)
  | aggregate {component : AggregateComponent} {optional : Option Bool}
      {children : List (NamedContract EG G)} {names : List String}
      (hnames : (children.map (·.1)).foldlM declareName [] = .ok names)
      (hchildren : ∀ child ∈ children, Compiled child.2) :
      Compiled (.aggregate component optional children)

structure AggregateContract (EG G : Type) where
  component : AggregateComponent
  optional : Option Bool
  children : List (NamedContract EG G)
  compiled : ChildContract.Compiled (.aggregate component optional children)

/-- The contract as its own child. -/
def AggregateContract.asChild (contract : AggregateContract EG G) : ChildContract EG G :=
  .aggregate contract.component contract.optional contract.children

/-! ### Checking -/

/-- `optional`. -/
def ChildContract.isOptional : ChildContract EG G → Bool
  | .scalar leaf => leaf.optional = some true
  | .range leaf => leaf.optional = some true
  | .geometry leaf => leaf.optional = some true
  | .aggregate _ optional _ => optional = some true

/-- A leaf is checked by its own contract. -/
def checkLeaf {ε α : Type} (checked : α → CheckedComponentValue G)
    (kind : ε → ComponentErrorKind EG) (leaf : Leaf ε α) (raw : Bytes) :
    Except (ComponentError EG) (CheckedComponentValue G) :=
  match leaf.check raw with
  | .ok value => .ok (checked value)
  | .error e => .error (.new (kind e))

/-- The errors of the loop over supplied members. -/
def misplaced : Misplaced → ComponentError EG
  | .unknown => .new .unknownMember
  | .repeated index => (ComponentError.new .duplicateMember).atIndex index

/-- The supplied members in the slots of the declared children. -/
def supply (children : List (NamedContract EG G)) (values : List (String × ComponentValue)) :
    Except (ComponentError EG) (List (Option ComponentValue)) :=
  (placeAll (children.map (·.1)) values).mapError misplaced

mutual

/-- `check_child`, with the branches of `aggregate` for a nested one. -/
def checkChild :
    ChildContract EG G → ComponentValue → Except (ComponentError EG) (CheckedComponentValue G)
  | .scalar leaf, .scalarJson raw => checkLeaf .scalar .scalar leaf raw
  | .range leaf, .rangeJson raw => checkLeaf .range .range leaf raw
  | .geometry leaf, .geometryJson raw => checkLeaf .geometry .geometry leaf raw
  | .scalar _, _ | .range _, _ | .geometry _, _ => .error (.new .valueType)
  | .aggregate component _ children, input =>
      match component, input with
      | .array, _ => .error (.new .unsupportedValue)
      | .choice, .choice [(name, value)] => checkSelected name value 0 children
      | .choice, .choice _ => .error (.new .selectionCardinality)
      | .record, .record values => do
          let slots ← supply children values
          (checkMembers true 0 children slots).map .record
      | .vector referenceFrame localFrame, .vector values => do
          let slots ← supply children values
          (checkMembers false 0 children slots).map (.vector referenceFrame localFrame)
      | _, _ => .error (.new .valueType)

/-- The arm that has the selected name; no other arm is tried. -/
def checkSelected (name : String) (value : ComponentValue) :
    Nat → List (NamedContract EG G) → Except (ComponentError EG) (CheckedComponentValue G)
  | _, [] => .error (.new .unknownSelection)
  | index, (arm, child) :: rest =>
      if arm = name then
        ((checkChild child value).map (.choice arm)).mapError (ComponentError.atIndex index)
      else checkSelected name value (index + 1) rest

/-- The second loop of `members`. -/
def checkMembers (allowOptional : Bool) :
    Nat → List (NamedContract EG G) → List (Option ComponentValue) →
      Except (ComponentError EG) (List (CheckedNamedValue G))
  | _, [], _ | _, _ :: _, [] => .ok []
  | index, (name, child) :: rest, some value :: slots => do
      let value ← (checkChild child value).mapError (ComponentError.atIndex index)
      let members ← checkMembers allowOptional (index + 1) rest slots
      .ok ((name, some value) :: members)
  | index, (name, child) :: rest, none :: slots =>
      if allowOptional ∧ child.isOptional = true then do
        let members ← checkMembers allowOptional (index + 1) rest slots
        .ok ((name, none) :: members)
      else .error ((ComponentError.new .missingMember).atIndex index)

end

/-- `check`. -/
def AggregateContract.checkValue (contract : AggregateContract EG G) (input : ComponentValue) :
    Except (ComponentError EG) (CheckedComponentValue G) :=
  match input.budget with
  | none => .error (.new .limit)
  | some _ => checkChild contract.asChild input

end Standards
end Glaux
