import Glaux.Library.Machine
import Mathlib.Data.List.DropRight
import Mathlib.Data.List.TakeWhile

/-!
# Scanning by index

A scanner keeps an index into its input.  Each of its loops is described at an index
that stands behind some front part, by what is left of the input there.
-/

namespace Glaux
namespace Library

universe u

variable {α : Type}

section Span

variable {p : α → Bool}

/-- What a run of accepted items takes in front of an item that is not accepted. -/
theorem takeWhile_append_stop {run rest : List α} (hrun : ∀ a ∈ run, p a = true)
    (hstop : ∀ a ∈ rest.head?, p a = false) : (run ++ rest).takeWhile p = run := by
  rw [List.takeWhile_append_of_pos hrun]
  cases rest with
  | nil => simp
  | cons a rest =>
      have ha : p a = false := hstop a rfl
      simp [ha]

theorem dropWhile_append_stop {run rest : List α} (hrun : ∀ a ∈ run, p a = true)
    (hstop : ∀ a ∈ rest.head?, p a = false) : (run ++ rest).dropWhile p = rest := by
  rw [List.dropWhile_append_of_pos hrun]
  cases rest with
  | nil => rfl
  | cons a rest =>
      have ha : p a = false := hstop a rfl
      simp [ha]

/-- The item a run stops at is not accepted. -/
theorem dropWhile_stop (p : α → Bool) (items : List α) :
    ∀ a ∈ (items.dropWhile p).head?, p a = false := by
  intro a ha
  have hhead := List.head?_dropWhile_not p items
  rw [Option.mem_def.mp ha] at hhead
  exact hhead

theorem takeWhile_accepted (p : α → Bool) (items : List α) :
    ∀ a ∈ items.takeWhile p, p a = true :=
  fun _ ha => List.mem_takeWhile_imp ha

end Span

section Peek

theorem getElem?_front (front rest : List α) : (front ++ rest)[front.length]? = rest.head? := by
  rw [List.getElem?_append_right (Nat.le_refl _), Nat.sub_self]
  cases rest with
  | nil => rfl
  | cons a rest => rfl

end Peek

namespace Machine

variable {ε : Type}

theorem index_front (front rest : List α) (a : α) :
    (index (front ++ a :: rest) front.length : Run ε α) = .ok a := by
  rw [index, getElem?_front]
  rfl

theorem slice_front (front rest : List α) :
    (slice (front ++ rest) front.length (front ++ rest).length : Run ε (List α)) = .ok rest := by
  rw [slice, if_pos ⟨by simp, Nat.le_refl _⟩, List.take_length, List.drop_left]

/-- `while index < items.len() && p(items[index]) { index += 1 }` -/
def skipWhile (p : α → Bool) (items : List α) (start : ℕ) : Run ε ℕ :=
  if start < items.length then do
    let item ← index items start
    if p item then skipWhile p items (start + 1) else .ok start
  else .ok start
termination_by items.length - start

/-- **Skipping** stops behind the run of accepted items. -/
theorem skipWhile_front (p : α → Bool) (front rest : List α) :
    (skipWhile p (front ++ rest) front.length : Run ε ℕ) =
      .ok (front.length + (rest.takeWhile p).length) := by
  induction rest generalizing front with
  | nil =>
      rw [skipWhile, if_neg (by simp)]
      rfl
  | cons a rest ih =>
      rw [skipWhile, if_pos (by simp), index_front, ok_bind]
      cases hp : p a with
      | false => simp [hp]
      | true =>
          have hnext := ih (front ++ [a])
          rw [List.append_assoc, List.singleton_append, List.length_append,
            List.length_singleton] at hnext
          rw [if_pos rfl, hnext, List.takeWhile_cons, if_pos hp, List.length_cons]
          congr 1
          omega

end Machine

end Library
end Glaux
