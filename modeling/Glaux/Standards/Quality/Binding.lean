import Glaux.Library.Outcome
import Glaux.Standards.Choice
import Glaux.Standards.References

/-!
# Quality binding (`quality/binding.rs`)

`compile` checks the quality references of a resolved graph and prepares, for
every component, the contract its values are checked by when it is a target
and the references attached to it.  `bind` walks one value tree, records every
payload occurrence, and looks each attached local reference up among them.

The scalar and range compilers are a parameter: a compiled contract is its
`check_value` function.
-/

namespace Glaux
namespace Standards
namespace Quality

open Library

inductive QualityBindingError where
  | invalidTarget
  | invalidValue
  | valueShape
  | ambiguousOccurrence
  | limit
deriving DecidableEq, Repr

/-- `component` is the declaration, `path` the declared slots and element
indices that lead to it. -/
structure ComponentOccurrence (n : Nat) where
  component : Fin n
  path : List Nat
deriving DecidableEq

/-- Checked scalar values `S` and checked range values `R`. -/
inductive QualityReferenceValue (S R : Type) where
  | missing
  | nonlocal
  | scalar (value : S)
  | range (value : R)
deriving DecidableEq

structure BoundQualityReference (S R : Type) (n m : Nat) where
  reference : Fin m
  subject : ComponentOccurrence n
  target : Option (ComponentOccurrence n)
  value : QualityReferenceValue S R
deriving DecidableEq

inductive TargetContract (S R : Type) where
  | scalar (check : Bytes → Option S)
  | range (check : Bytes → Option R)

/-- `ScalarContract::compile` and `RangeContract::compile` with default options. -/
structure Compilers (S R : Type) where
  scalar : Bytes → Option (Bytes → Option S)
  range : Bytes → Option (Bytes → Option R)

structure Occurrence (S R : Type) (n : Nat) where
  address : ComponentOccurrence n
  context : List (ComponentOccurrence n)
  value : QualityReferenceValue S R

structure QualityReferencePlan (S R : Type) (n m : Nat) where
  graph : ComponentGraph n m
  targets : Fin (n + 1) → Option (TargetContract S R)
  attached : Fin (n + 1) → List (Fin m)

variable {S R : Type} {n m : Nat}

section Compile

/-- The first loop of `compile`: mark what payload edges reach. -/
def payloadLoop (g : ComponentGraph n m) (pending : List (Fin (n + 1)))
    (payload : Finset (Fin (n + 1))) : Finset (Fin (n + 1)) :=
  match pending with
  | [] => payload
  | node :: pending =>
      if node ∈ payload then payloadLoop g pending payload
      else
        payloadLoop g (((g.payloadEdges node).filterMap g.target).reverse ++ pending)
          (insert node payload)
termination_by ((Finset.univ \ payload).sum fun node => (g.payloadEdges node).length)
  + pending.length
decreasing_by
  · simp
  · rename_i hnode
    have hlen := List.length_filterMap_le g.target (g.payloadEdges node)
    have hsplit : Finset.univ \ payload =
        insert node (Finset.univ \ insert node payload) := by
      ext x
      by_cases hx : x = node
      · simp [hx, hnode]
      · simp [hx]
    rw [hsplit, Finset.sum_insert (by simp)]
    simp only [List.length_append, List.length_reverse, List.length_cons]
    omega

/-- One iteration of the second loop: the contract of one quality target. -/
def compileTarget (compilers : Compilers S R) (g : ComponentGraph n m)
    (payload : Finset (Fin (n + 1)))
    (targets : Fin (n + 1) → Option (TargetContract S R)) (reference : Fin m) :
    Except QualityBindingError (Fin (n + 1) → Option (TargetContract S R)) :=
  if (g.references reference).kind ≠ .quality then .ok targets
  else
    match (g.references reference).target with
    | .nonlocal => .ok targets
    | .localTo node =>
        if node ∉ payload then .error .invalidTarget
        else if (targets node).isSome then .ok targets
        else
          let compiled : Option (TargetContract S R) :=
            match (g.components node).kind with
            | .quantity | .category | .text =>
                (compilers.scalar (g.components node).source).map .scalar
            | .quantityRange =>
                (compilers.range (g.components node).source).map .range
            | _ => none
          match compiled with
          | none => .error .invalidTarget
          | some contract => .ok (Function.update targets node (some contract))

/-- The third loop: the references in the quality slots of a component and of
the quality declarations nested in them, in declaration order. -/
def attachedReferences (g : ComponentGraph n m) (node : Fin (n + 1)) :
    List (Fin m) :=
  (g.edges node).attach.flatMap (fun ⟨edge, _hedge⟩ =>
    if edge.slot = .quality then
      match _htarget : edge.target with
      | .reference reference => [reference]
      | .component owner => attachedReferences g owner
    else [])
termination_by n - node.val
decreasing_by
  have hlt := g.inline_after node edge _hedge owner _htarget
  have := owner.isLt
  simp only [Fin.lt_def] at hlt
  omega

/-- `QualityReferencePlan::compile`, from the resolved graph on. -/
def QualityReferencePlan.compile (compilers : Compilers S R)
    (g : ComponentGraph n m) :
    Except QualityBindingError (QualityReferencePlan S R n m) := do
  let payload := payloadLoop g [0] ∅
  let targets ← (List.finRange m).foldlM (compileTarget compilers g payload)
    (fun _ => none)
  return ⟨g, targets, attachedReferences g⟩

end Compile

section Bind

/-- The name checks at the head of `match_members`: every edge has a name and
no two share one. -/
def namesUsable (names : List (Option String)) : Bool :=
  (List.range names.length).all (fun index =>
    match names[index]? with
    | some (some name) => !(names.take index).contains (some name)
    | _ => false)

/-- One supplied member placed in its slot. -/
def placeMember (names : List (Option String))
    (slots : List (Option ComponentValue)) (member : String × ComponentValue) :
    Except QualityBindingError (List (Option ComponentValue)) :=
  match names.findIdx? (fun name => name == some member.1) with
  | none => .error .valueShape
  | some index =>
      match slots[index]? with
      | some none => .ok (slots.set index (some member.2))
      | _ => .error .valueShape

/-- `match_members`. -/
def matchMembers (names : List (Option String))
    (values : List (String × ComponentValue)) :
    Except QualityBindingError (List (Option ComponentValue)) :=
  if namesUsable names then
    values.foldlM (placeMember names) (List.replicate names.length none)
  else .error .valueShape

/-- The members a record, vector or choice declaration is given. -/
def containerMembers (kind : Contract) (input : Option ComponentValue) :
    Except QualityBindingError (List (String × ComponentValue)) :=
  match kind, input with
  | _, none => .ok []
  | .dataRecord, some (.record values) => .ok values
  | .vector, some (.vector values) => .ok values
  | .dataChoice, some (.choice values) => .ok values
  | _, _ => .error .valueShape

/-- The elements a data array or matrix declaration is given. -/
def arrayElements (input : Option ComponentValue) :
    Except QualityBindingError (List ComponentValue) :=
  match input with
  | none => .ok []
  | some (.array values) => .ok values
  | _ => .error .valueShape

/-- The shape test of leaf kinds. -/
def leafShape (kind : Contract) (input : Option ComponentValue) : Bool :=
  match input with
  | none => true
  | some value =>
      match kind, value with
      | .categoryRange, .rangeJson _ | .countRange, .rangeJson _
      | .quantityRange, .rangeJson _ | .timeRange, .rangeJson _ => true
      | .geometry, .geometryJson _ => true
      | .categoryRange, _ | .countRange, _ | .quantityRange, _ | .timeRange, _
      | .geometry, _ => false
      | _, .scalarJson _ => true
      | _, _ => false

namespace QualityReferencePlan

variable (plan : QualityReferencePlan S R n m)

/-- The value recorded for an occurrence. -/
def targetValue (node : Fin (n + 1)) (input : Option ComponentValue) :
    Except QualityBindingError (QualityReferenceValue S R) :=
  match plan.targets node, input with
  | some (.scalar check), some (.scalarJson raw) =>
      match check raw with
      | some value => .ok (.scalar value)
      | none => .error .invalidValue
  | some (.range check), some (.rangeJson raw) =>
      match check raw with
      | some value => .ok (.range value)
      | none => .error .invalidValue
  | some _, some _ => .error .valueShape
  | _, _ => .ok .missing

abbrev Occurrences (S R : Type) (n : Nat) := List (Occurrence S R (n + 1))

/-- The loop of `walk` over the declared slots of a record, vector or choice. -/
def walkSlots
    (walk : Fin (n + 1) → Option ComponentValue → List Nat → Occurrences S R n →
      Except QualityBindingError (Occurrences S R n))
    (kind : Contract) (path : List Nat) :
    Nat → List (Edge (n + 1) m × Option ComponentValue) → Occurrences S R n →
      Except QualityBindingError (Occurrences S R n)
  | _, [], occurrences => .ok occurrences
  | index, (edge, value) :: rest, occurrences =>
      if kind = .dataChoice ∧ value.isNone then
        walkSlots walk kind path (index + 1) rest occurrences
      else
        match plan.graph.target edge with
        | none =>
            if value.isSome then .error .valueShape
            else walkSlots walk kind path (index + 1) rest occurrences
        | some child => do
            let occurrences ← walk child value (path ++ [index]) occurrences
            walkSlots walk kind path (index + 1) rest occurrences

/-- The loop of `walk` over the elements of an array. -/
def walkElements
    (walk : Fin (n + 1) → ComponentValue → List Nat → Occurrences S R n →
      Except QualityBindingError (Occurrences S R n))
    (child : Option (Fin (n + 1))) (path : List Nat) :
    Nat → List ComponentValue → Occurrences S R n →
      Except QualityBindingError (Occurrences S R n)
  | _, [], occurrences => .ok occurrences
  | index, value :: rest, occurrences =>
      match child with
      | none => .error .valueShape
      | some node => do
          let occurrences ← walk node value (path ++ [index]) occurrences
          walkElements walk child path (index + 1) rest occurrences

/-- The record, vector and choice branch of `walk`. -/
def walkContainer
    (walk : Fin (n + 1) → Option ComponentValue → List Nat → Occurrences S R n →
      Except QualityBindingError (Occurrences S R n))
    (kind : Contract) (node : Fin (n + 1)) (input : Option ComponentValue)
    (path : List Nat) (occurrences : Occurrences S R n) :
    Except QualityBindingError (Occurrences S R n) := do
  let values ← containerMembers kind input
  if kind = .dataChoice ∧ input.isSome ∧ values.length ≠ 1 then
    .error .valueShape
  else
    let edges := plan.graph.payloadEdges node
    let slots ← matchMembers (edges.map plan.graph.edgeName) values
    plan.walkSlots walk kind path 0 (edges.zip slots) occurrences

/-- The data array and matrix branch of `walk`. -/
def walkArray
    (walk : Fin (n + 1) → ComponentValue → List Nat → Occurrences S R n →
      Except QualityBindingError (Occurrences S R n))
    (node : Fin (n + 1)) (input : Option ComponentValue)
    (path : List Nat) (occurrences : Occurrences S R n) :
    Except QualityBindingError (Occurrences S R n) := do
  let values ← arrayElements input
  match plan.graph.payloadEdges node with
  | [] => .error .valueShape
  | edge :: _ =>
      walkElements walk (plan.graph.target edge) path 0 values occurrences

/-- `walk`; `room` is `MAX_TRAVERSAL_DEPTH - path.len()`. -/
def walk : (room : Nat) → (node : Fin (n + 1)) → (input : Option ComponentValue) →
    (path : List Nat) → (context : List (ComponentOccurrence (n + 1))) →
    Occurrences S R n → Except QualityBindingError (Occurrences S R n)
  | 0, _, _, _, _, _ => .error .limit
  | room + 1, node, input, path, context, occurrences =>
      if maxTraversalSteps ≤ occurrences.length then .error .limit
      else do
        let kind := (plan.graph.components node).kind
        let address : ComponentOccurrence (n + 1) := ⟨node, path⟩
        let value ← plan.targetValue node input
        let occurrences := occurrences ++ [⟨address, context, value⟩]
        match kind with
        | .dataRecord | .vector | .dataChoice =>
            plan.walkContainer
              (fun child value childPath occurrences =>
                walk room child value childPath (context ++ [address]) occurrences)
              kind node input path occurrences
        | .dataArray | .matrix =>
            plan.walkArray
              (fun child value childPath occurrences =>
                -- each repetition is a context of its own
                walk room child (some value) childPath
                  (context ++ [⟨node, childPath⟩]) occurrences)
              node input path occurrences
        | _ => if leafShape kind input then .ok occurrences else .error .valueShape

/-- `compatible`. -/
def compatible (subject target : List (ComponentOccurrence (n + 1))) : Bool :=
  subject.all (fun left => target.all (fun right =>
    left.component != right.component || left.path == right.path))

/-- The lookup of one reference attached to one occurrence. -/
def lookup (occurrences : Occurrences S R n) (occurrence : Occurrence S R (n + 1))
    (reference : ComponentReference (n + 1)) :
    Except QualityBindingError
      (Option (ComponentOccurrence (n + 1)) × QualityReferenceValue S R) :=
  match reference.target with
  | .nonlocal => .ok (none, .nonlocal)
  | .localTo node =>
      match occurrences.filter (fun candidate =>
        candidate.address.component == node &&
          compatible occurrence.context candidate.context) with
      | [] => .ok (none, .missing)
      | [candidate] => .ok (some candidate.address, candidate.value)
      | _ => .error .ambiguousOccurrence

/-- One iteration of the inner loop of `bind`. -/
def bindReference (occurrences : Occurrences S R n)
    (occurrence : Occurrence S R (n + 1))
    (result : List (BoundQualityReference S R (n + 1) m)) (reference : Fin m) :
    Except QualityBindingError (List (BoundQualityReference S R (n + 1) m)) :=
  if maxTraversalSteps ≤ result.length then .error .limit
  else do
    let found ← lookup occurrences occurrence (plan.graph.references reference)
    return result ++
      [{ reference := reference
         subject := ⟨(plan.graph.references reference).owner, occurrence.address.path⟩
         target := found.1
         value := found.2 }]

/-- The two loops of `bind` over what the walk recorded. -/
def bindOccurrences (occurrences : Occurrences S R n) :
    Except QualityBindingError (List (BoundQualityReference S R (n + 1) m)) :=
  occurrences.foldlM (fun result occurrence =>
    (plan.attached occurrence.address.component).foldlM
      (plan.bindReference occurrences occurrence) result) []

/-- The occurrences of a whole value, after the budget pass. -/
def occurrencesOf (input : ComponentValue) :
    Except QualityBindingError (Occurrences S R n) :=
  match input.budget with
  | none => .error .limit
  | some _ => plan.walk maxTraversalDepth 0 (some input) [] [] []

/-- `bind`. -/
def bind (input : ComponentValue) :
    Except QualityBindingError (List (BoundQualityReference S R (n + 1) m)) := do
  let occurrences ← plan.occurrencesOf input
  plan.bindOccurrences occurrences

end QualityReferencePlan

end Bind

end Quality
end Standards
end Glaux
