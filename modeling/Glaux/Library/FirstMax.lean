import Mathlib.Data.List.Induction
import Mathlib.Data.List.Perm.Basic
import Mathlib.Order.Lattice

/-!
# The first greatest item

A loop that keeps the best item so far, and replaces it by a strictly better one.
-/

namespace Glaux
namespace Library
namespace FirstMax

variable {α κ : Type} [LinearOrder κ] {key : α → κ}

/-- One turn of the loop. -/
def keep (key : α → κ) (best : Option α) (item : α) : Option α :=
  if best.all fun prior => key prior < key item then some item else best

def firstMax (key : α → κ) (items : List α) : Option α := items.foldl (keep key) none

/-- Nothing before the item is as good, and nothing behind it is better. -/
def IsFirstMax (key : α → κ) (items : List α) (item : α) : Prop :=
  ∃ before after, items = before ++ item :: after ∧ (∀ a ∈ before, key a < key item) ∧
    ∀ a ∈ after, key a ≤ key item

/-- What the loop keeps of the items so far. -/
def Kept (key : α → κ) (items : List α) : Option α → Prop
  | none => items = []
  | some item => IsFirstMax key items item

theorem kept_keep {items : List α} {best : Option α} (h : Kept key items best) (item : α) :
    Kept key (items ++ [item]) (keep key best item) := by
  cases best with
  | none =>
      obtain rfl : items = [] := h
      exact ⟨[], [], rfl, nofun, nofun⟩
  | some prior =>
      obtain ⟨before, after, rfl, hbefore, hafter⟩ := h
      by_cases hbetter : key prior < key item
      · rw [keep, if_pos (by simpa using hbetter)]
        refine ⟨before ++ prior :: after, [], rfl, fun a ha => ?_, nofun⟩
        obtain ha | ha := List.mem_append.mp ha
        · exact (hbefore a ha).trans hbetter
        · obtain rfl | ha := List.mem_cons.mp ha
          · exact hbetter
          · exact (hafter a ha).trans_lt hbetter
      · rw [keep, if_neg (by simpa using hbetter)]
        refine ⟨before, after ++ [item], by simp, hbefore, fun a ha => ?_⟩
        obtain ha | ha := List.mem_append.mp ha
        · exact hafter a ha
        · rw [List.mem_singleton.mp ha]
          exact not_lt.mp hbetter

/-- **The loop keeps the first greatest item.** -/
theorem kept_firstMax (key : α → κ) (items : List α) :
    Kept key items (firstMax key items) := by
  induction items using List.reverseRecOn with
  | nil => rfl
  | append_singleton items item ih =>
      rw [firstMax, List.foldl_append, List.foldl_cons, List.foldl_nil]
      exact kept_keep ih item

theorem firstMax_eq_none {items : List α} : firstMax key items = none ↔ items = [] := by
  have h := kept_firstMax key items
  constructor
  · intro hnone
    rw [hnone] at h
    exact h
  · rintro rfl
    rfl

/-- The key of the best item, and nothing of the order of the items. -/
theorem key_firstMax {items : List α} {best : κ} :
    (firstMax key items).map key = some best ↔
      (∃ item ∈ items, key item = best) ∧ ∀ item ∈ items, key item ≤ best := by
  have h := kept_firstMax key items
  cases hmax : firstMax key items with
  | none =>
      rw [hmax] at h
      obtain rfl : items = [] := h
      exact iff_of_false nofun fun ⟨⟨_, hmem, _⟩, _⟩ => absurd hmem List.not_mem_nil
  | some item =>
      rw [hmax] at h
      obtain ⟨before, after, rfl, hbefore, hafter⟩ := h
      have hmem : item ∈ before ++ item :: after :=
        List.mem_append_right before List.mem_cons_self
      have hgreatest : ∀ a ∈ before ++ item :: after, key a ≤ key item := by
        intro a ha
        obtain ha | ha := List.mem_append.mp ha
        · exact (hbefore a ha).le
        · obtain rfl | ha := List.mem_cons.mp ha
          · exact le_rfl
          · exact hafter a ha
      rw [Option.map_some, Option.some_inj]
      constructor
      · rintro rfl
        exact ⟨⟨item, hmem, rfl⟩, hgreatest⟩
      · rintro ⟨⟨a, ha, rfl⟩, hle⟩
        exact le_antisymm (hle item hmem) (hgreatest a ha)

/-- **The order of the items** does not change the best key. -/
theorem key_perm {items items' : List α} (h : items.Perm items') :
    (firstMax key items).map key = (firstMax key items').map key := by
  refine Option.ext fun best => ?_
  rw [key_firstMax, key_firstMax]
  simp only [h.mem_iff]

/-- **By position.**  Of items in the order of their indices, the first greatest is kept. -/
theorem firstMax_pairwise {ι : Type} [LinearOrder ι] {index : α → ι} {items : List α} {item : α}
    (h : items.Pairwise fun a b => index a < index b) :
    firstMax key items = some item ↔
      item ∈ items ∧ ∀ a ∈ items, key a ≤ key item ∧ (index a < index item → key a < key item) := by
  constructor
  · intro hsome
    have hkept := kept_firstMax key items
    rw [hsome] at hkept
    obtain ⟨before, after, rfl, hbefore, hafter⟩ := hkept
    refine ⟨List.mem_append_right before List.mem_cons_self, fun a ha => ?_⟩
    obtain ha | ha := List.mem_append.mp ha
    · exact ⟨(hbefore a ha).le, fun _ => hbefore a ha⟩
    · obtain rfl | ha := List.mem_cons.mp ha
      · exact ⟨le_rfl, fun hlt => absurd hlt (lt_irrefl _)⟩
      · have hbehind := (List.pairwise_cons.mp (List.pairwise_append.mp h).2.1).1 a ha
        exact ⟨hafter a ha, fun hlt => absurd hlt hbehind.not_gt⟩
  · rintro ⟨hmem, hgreatest⟩
    cases hmax : firstMax key items with
    | none =>
        rw [firstMax_eq_none.mp hmax] at hmem
        exact absurd hmem List.not_mem_nil
    | some best =>
        have hkept := kept_firstMax key items
        rw [hmax] at hkept
        obtain ⟨before, after, rfl, hbefore, hafter⟩ := hkept
        obtain hitem | hitem := List.mem_append.mp hmem
        · have hbest := (hgreatest best (List.mem_append_right before List.mem_cons_self)).1
          exact absurd hbest (hbefore item hitem).not_ge
        · obtain rfl | hitem := List.mem_cons.mp hitem
          · rfl
          · have hbehind := (List.pairwise_cons.mp (List.pairwise_append.mp h).2.1).1 item hitem
            have hless := (hgreatest best (List.mem_append_right before List.mem_cons_self)).2
              hbehind
            exact absurd hless (hafter item hitem).not_gt

end FirstMax
end Library
end Glaux
