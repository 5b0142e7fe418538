import Mathlib.Tactic

/-!
# Resolved component graphs (`references.rs`)

`ComponentGraph::resolve` indexes every declaration and every reference of one
document, in declaration order, and resolves local references.  Indices are
`Fin`, so no edge or target can leave the index; the remaining fields state
what the indexing pass guarantees about where declarations are written: a
declaration or reference is written in exactly one place, below its owner, and
a reference in a quality slot is a quality reference of that owner.

Byte ranges, paths, ids and link metadata are not read by the passes modelled
here and are left out.
-/

namespace Glaux
namespace Standards

/-- The component kinds among `validation::Contract`. -/
inductive Contract where
  | boolean | text | category | count | quantity | time
  | categoryRange | countRange | quantityRange | timeRange
  | dataRecord | vector | dataChoice | dataArray | matrix | geometry
deriving DecidableEq, Repr

/-- `source` is the declaration's own text. -/
structure ComponentNode where
  name : Option String
  kind : Contract
  source : List UInt8

inductive ReferenceKind where
  | component | elementCount | quality
deriving DecidableEq, Repr

/-- `localTo` is the source's `Local`. -/
inductive ReferenceTarget (n : Nat) where
  | localTo (node : Fin n)
  | nonlocal
deriving DecidableEq

structure ComponentReference (n : Nat) where
  owner : Fin n
  kind : ReferenceKind
  name : Option String
  target : ReferenceTarget n

inductive EdgeTarget (n m : Nat) where
  | component (node : Fin n)
  | reference (index : Fin m)
deriving DecidableEq

inductive Slot where
  | component | elementType | elementCount | selector | quality
deriving DecidableEq, Repr

structure Edge (n m : Nat) where
  target : EdgeTarget n m
  slot : Slot

/-- `n + 1` declarations, the root first, and `m` references. -/
structure ComponentGraph (n m : Nat) where
  components : Fin (n + 1) → ComponentNode
  references : Fin m → ComponentReference (n + 1)
  edges : Fin (n + 1) → List (Edge (n + 1) m)
  /-- Inline declarations are indexed after their owner. -/
  inline_after : ∀ node, ∀ edge ∈ edges node, ∀ child,
    edge.target = .component child → node < child
  /-- Each declaration or reference is written in one place. -/
  targets_nodup : ((List.finRange (n + 1)).flatMap fun node =>
    (edges node).map (·.target)).Nodup
  owned : ∀ node, ∀ edge ∈ edges node, ∀ index,
    edge.target = .reference index →
      (references index).owner = node ∧
      (edge.slot = .quality → (references index).kind = .quality)

namespace ComponentGraph

variable {n m : Nat}

/-- `payload_edges`. -/
def payloadEdges (g : ComponentGraph n m) (node : Fin (n + 1)) :
    List (Edge (n + 1) m) :=
  (g.edges node).filter (fun edge =>
    edge.slot = .component ∨ edge.slot = .elementType)

/-- `target`: the declaration an edge leads to, when it is known. -/
def target (g : ComponentGraph n m) (edge : Edge (n + 1) m) : Option (Fin (n + 1)) :=
  match edge.target with
  | .component node => some node
  | .reference index =>
      match (g.references index).target with
      | .localTo node => some node
      | .nonlocal => none

/-- The member name an edge is declared under. -/
def edgeName (g : ComponentGraph n m) (edge : Edge (n + 1) m) : Option String :=
  match edge.target with
  | .component node => (g.components node).name
  | .reference index => (g.references index).name

end ComponentGraph

/-- Shared traversal budgets. -/
def maxTraversalDepth : Nat := 32

def maxTraversalSteps : Nat := 4096

end Standards
end Glaux
