import Glaux.Standards.Budgets

/-!
# Decoded component values (`choice.rs`, `choice/value.rs`)

The model input of value checking and quality binding, and the one budget pass
over the whole tree that runs before any of it.
-/

namespace Glaux
namespace Standards

/-- Record, vector and choice values are lists of named values. -/
inductive ComponentValue where
  | scalarJson (raw : Bytes)
  | rangeJson (raw : Bytes)
  | geometryJson (raw : Bytes)
  | record (members : List (String × ComponentValue))
  | vector (members : List (String × ComponentValue))
  | choice (members : List (String × ComponentValue))
  | array (values : List ComponentValue)

namespace ComponentValue

/-- The loop over the members of a record, vector or choice in `budget`. -/
def countNames : List (String × ComponentValue) → Nat → Option Nat
  | [], bytes => some bytes
  | (name, _) :: rest, bytes =>
      if maxStringBytes < name.utf8ByteSize then none
      else countNames rest (bytes + name.utf8ByteSize)

/-- One value of `budget`: the new byte count and the values it adds to the
stack, or `none` at a limit. -/
def budgetStep (value : ComponentValue) (bytes : Nat) :
    Option (Nat × List ComponentValue) :=
  let children : Option (Nat × List ComponentValue) :=
    match value with
    | .array values =>
        if maxMembers < values.length then none else some (bytes, values)
    | .scalarJson raw | .rangeJson raw | .geometryJson raw =>
        some (bytes + raw.length, [])
    | .record members | .vector members | .choice members =>
        if maxMembers < members.length then none
        else (countNames members bytes).map (fun bytes => (bytes, members.map (·.2)))
  children.filter (fun out => out.1 ≤ maxBytes)

/-- The loop of `budget`: `nodes` more values may be visited, and the last
value pushed is visited first. -/
def budgetLoop : Nat → List (ComponentValue × Nat) → Nat → Option Unit
  | _, [], _ => some ()
  | 0, _ :: _, _ => none
  | nodes + 1, (value, depth) :: pending, bytes =>
      if maxDepth < depth then none
      else
        match budgetStep value bytes with
        | none => none
        | some (bytes, children) =>
            budgetLoop nodes
              ((children.map (fun child => (child, depth + 1))).reverse ++ pending)
              bytes

/-- `budget`; `none` is its one error, `Limit`. -/
def budget (input : ComponentValue) : Option Unit :=
  budgetLoop maxNodes [(input, 1)] 0

end ComponentValue

end Standards
end Glaux
