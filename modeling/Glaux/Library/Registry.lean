import Glaux.Library.Outcome
import Mathlib.Logic.Function.Basic

/-!
# Registration under names

Numbered items claim names.  The first item to claim a name keeps it; a later one may
claim it when it is a copy of the first.
-/

namespace Glaux
namespace Library

section Claims

variable {κ α ε : Type} {valueAt : Nat → Option α} {conflict : ε} {named : Nat → κ → Prop}
variable {map map' : κ → Option Nat} {key : κ} {item : Nat}

/-- Every claimed name leads to an item of that name, and all items of one name are
copies. -/
structure Registered (valueAt : Nat → Option α) (named : Nat → κ → Prop)
    (map : κ → Option Nat) : Prop where
  sound : ∀ {key item}, map key = some item → named item key
  complete : ∀ {item key}, named item key →
    ∃ first, map key = some first ∧ valueAt first = valueAt item

theorem registered_empty : Registered valueAt (fun _ (_ : κ) => False) fun _ => none where
  sound h := by cases h
  complete h := h.elim

/-- Items keep their values, and names are spelled differently. -/
theorem Registered.congr {valueAt' : Nat → Option α} {named' : Nat → κ → Prop}
    (h : Registered valueAt named map) (hnamed : ∀ item key, named' item key ↔ named item key)
    (hvalue : ∀ item key, named item key → valueAt' item = valueAt item) :
    Registered valueAt' named' map where
  sound hkey := (hnamed _ _).mpr (h.sound hkey)
  complete {item key} hitem := by
    have hitem := (hnamed item key).mp hitem
    obtain ⟨first, hkey, heq⟩ := h.complete hitem
    exact ⟨first, hkey,
      (hvalue first key (h.sound hkey)).trans (heq.trans (hvalue item key hitem).symm)⟩

variable [DecidableEq κ] [DecidableEq α]

def claim (valueAt : Nat → Option α) (conflict : ε) (map : κ → Option Nat) (key : κ)
    (item : Nat) : Except ε (κ → Option Nat) :=
  match map key with
  | some first => if valueAt first = valueAt item then .ok map else .error conflict
  | none => .ok (Function.update map key (some item))

/-- **One claim.** -/
theorem claim_registered (h : Registered valueAt named map)
    (hok : claim valueAt conflict map key item = .ok map') :
    Registered valueAt (fun i k => named i k ∨ i = item ∧ k = key) map' := by
  unfold claim at hok
  cases hmap : map key with
  | some first =>
      rw [hmap] at hok
      simp only at hok
      split at hok
      next hcopy =>
        obtain rfl := Except.ok.inj hok
        refine ⟨fun hkey => .inl (h.sound hkey), ?_⟩
        rintro i k (hnamed | ⟨rfl, rfl⟩)
        · exact h.complete hnamed
        · exact ⟨first, hmap, hcopy⟩
      next => cases hok
  | none =>
      rw [hmap] at hok
      obtain rfl := Except.ok.inj hok
      constructor
      · intro k i hkey
        by_cases hk : k = key
        · subst hk
          rw [Function.update_self] at hkey
          exact .inr ⟨(Option.some.inj hkey).symm, rfl⟩
        · rw [Function.update_of_ne hk] at hkey
          exact .inl (h.sound hkey)
      · rintro i k (hnamed | ⟨rfl, rfl⟩)
        · obtain ⟨first, hfirst, hcopy⟩ := h.complete hnamed
          have hk : k ≠ key := by
            rintro rfl
            rw [hmap] at hfirst
            cases hfirst
          exact ⟨first, by rw [Function.update_of_ne hk, hfirst], hcopy⟩
        · exact ⟨i, Function.update_self .., rfl⟩

/-- The claims of one item, in a row. -/
theorem claims_registered {keys : List κ} (h : Registered valueAt named map)
    (hok : keys.foldlM (fun map key => claim valueAt conflict map key item) map = .ok map') :
    Registered valueAt (fun i k => named i k ∨ i = item ∧ k ∈ keys) map' := by
  refine @foldlM_invariant _ _ _ _
    (fun done map => Registered valueAt (fun i k => named i k ∨ i = item ∧ k ∈ done) map)
    keys [] _ _ ?_ ?_ hok
  · intro done key map map' hdone hstep
    refine (claim_registered hdone hstep).congr (fun i k => ?_) fun _ _ _ => rfl
    rw [List.mem_append, List.mem_singleton, and_or_left, or_assoc]
  · exact h.congr (fun i k => by simp) fun _ _ _ => rfl

end Claims

end Library
end Glaux
