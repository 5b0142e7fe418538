import Mathlib.Data.List.Basic

/-!
# Brackets that do not nest

A text whose brackets are balanced and not nested, with a test on the items outside them.
-/

namespace Glaux
namespace Library

/-- The brackets, and what may stand outside them. -/
structure Brackets (α : Type) where
  opening : α
  closing : α
  outside : α → Bool
  opening_refused : outside opening = false
  closing_refused : outside closing = false

namespace Brackets

variable {α : Type} [DecidableEq α] (b : Brackets α)

/-- From outside, or from inside, to outside. -/
def closed : Bool → List α → Bool
  | inside, [] => !inside
  | false, item :: items => if item = b.opening then closed true items
      else b.outside item && closed false items
  | true, item :: items => if item = b.opening then false
      else closed (item ≠ b.closing) items

variable {b}

theorem closed_append {inside : Bool} {front back : List α} (h : b.closed inside front = true) :
    b.closed inside (front ++ back) = b.closed false back := by
  induction front generalizing inside with
  | nil =>
      cases inside with
      | false => rfl
      | true => exact absurd h nofun
  | cons item front ih =>
      cases inside with
      | false =>
          rw [List.cons_append, closed]
          rw [closed] at h
          split at h
          · rename_i hopening
            rw [if_pos hopening, ih h]
          · rename_i hopening
            obtain ⟨hitem, hfront⟩ := Bool.and_eq_true_iff.mp h
            rw [if_neg hopening, hitem, Bool.true_and, ih hfront]
      | true =>
          rw [List.cons_append, closed]
          rw [closed] at h
          split at h
          · exact absurd h nofun
          · rename_i hopening
            rw [if_neg hopening, ih h]

/-- What is closed in front of a closed text is closed with it. -/
theorem closed_append_closed {front back : List α} (hfront : b.closed false front = true)
    (hback : b.closed false back = true) : b.closed false (front ++ back) = true := by
  rw [closed_append hfront, hback]

/-- Items that may stand outside. -/
theorem closed_outside {items : List α} (h : ∀ item ∈ items, b.outside item = true) :
    b.closed false items = true := by
  induction items with
  | nil => rfl
  | cons item items ih =>
      obtain ⟨hitem, hitems⟩ := List.forall_mem_cons.mp h
      have hopening : item ≠ b.opening := by
        rintro rfl
        rw [b.opening_refused] at hitem
        exact absurd hitem nofun
      rw [closed, if_neg hopening, hitem, Bool.true_and, ih hitems]

/-- Where a closed front ends, an item stands outside. -/
theorem outside_of_closed {front back : List α} {item : α} (hfront : b.closed false front = true)
    (h : b.closed false (front ++ item :: back) = true) (hopening : item ≠ b.opening) :
    b.outside item = true := by
  rw [closed_append hfront, closed, if_neg hopening] at h
  exact (Bool.and_eq_true_iff.mp h).1

/-- A closed text ends in a closing bracket or outside. -/
theorem closed_last {inside : Bool} {front : List α} {item : α}
    (h : b.closed inside (front ++ [item]) = true) :
    item = b.closing ∨ b.outside item = true := by
  induction front generalizing inside with
  | nil =>
      cases inside with
      | false =>
          rw [List.nil_append, closed] at h
          split at h
          · exact absurd h nofun
          · exact .inr (Bool.and_eq_true_iff.mp h).1
      | true =>
          rw [List.nil_append, closed] at h
          split at h
          · exact absurd h nofun
          · exact .inl (by simpa [closed] using h)
  | cons first front ih =>
      cases inside with
      | false =>
          rw [List.cons_append, closed] at h
          split at h
          · exact ih h
          · exact ih (Bool.and_eq_true_iff.mp h).2
      | true =>
          rw [List.cons_append, closed] at h
          split at h
          · exact absurd h nofun
          · exact ih h

/-- The front of a closed text, where it ends outside the same brackets. -/
theorem closed_of_append {c : Brackets α} (hopening : c.opening = b.opening)
    (hclosing : c.closing = b.closing) {inside : Bool} {front back : List α}
    (h : b.closed inside (front ++ back) = true) (hc : c.closed inside front = true) :
    b.closed inside front = true := by
  induction front generalizing inside with
  | nil => exact hc
  | cons item front ih =>
      rw [List.cons_append] at h
      cases inside with
      | false =>
          rw [closed] at h hc ⊢
          rw [hopening] at hc
          split at h
          · rename_i hitem
            rw [if_pos hitem] at hc ⊢
            exact ih h hc
          · rename_i hitem
            rw [if_neg hitem] at hc ⊢
            obtain ⟨houter, hitems⟩ := Bool.and_eq_true_iff.mp h
            rw [houter, ih hitems (Bool.and_eq_true_iff.mp hc).2]
            rfl
      | true =>
          rw [closed] at h hc ⊢
          rw [hopening, hclosing] at hc
          split at h
          · exact absurd h nofun
          · rename_i hitem
            rw [if_neg hitem] at hc ⊢
            exact ih h hc

/-- A weaker test outside. -/
theorem closed_mono {c : Brackets α} (hopening : c.opening = b.opening)
    (hclosing : c.closing = b.closing) (houtside : ∀ item, b.outside item = true →
      c.outside item = true) {inside : Bool} {items : List α} (h : b.closed inside items = true) :
    c.closed inside items = true := by
  induction items generalizing inside with
  | nil => exact h
  | cons item items ih =>
      cases inside with
      | false =>
          rw [closed] at h ⊢
          rw [hopening]
          split at h
          · rename_i hitem
            rw [if_pos hitem, ih h]
          · rename_i hitem
            obtain ⟨houter, hitems⟩ := Bool.and_eq_true_iff.mp h
            rw [if_neg hitem, houtside item houter, ih hitems]
            rfl
      | true =>
          rw [closed] at h ⊢
          rw [hopening, hclosing]
          split at h
          · exact absurd h nofun
          · rename_i hitem
            rw [if_neg hitem, ih h]

end Brackets
end Library
end Glaux
