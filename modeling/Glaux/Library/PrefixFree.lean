import Mathlib.Data.List.Basic

/-!
# Prefix-free codes

A code is prefix-free when a code word can be split off the front of any longer text
in one way only.  Words written one after the other can then be told apart without a
separator, whatever they contain.
-/

namespace Glaux
namespace Library

universe u v

variable {α : Type u} {β : Type v}

def PrefixFree (code : α → List β) : Prop :=
  ∀ a b s t, code a ++ s = code b ++ t → a = b ∧ s = t

/-- The first occurrence of a mark cuts a text in one way. -/
theorem cut_unique {stop : β} {front front' back back' : List β} (hfront : stop ∉ front)
    (hfront' : stop ∉ front') (h : front ++ stop :: back = front' ++ stop :: back') :
    front = front' ∧ back = back' := by
  induction front generalizing front' with
  | nil =>
      cases front' with
      | nil => exact ⟨rfl, (List.cons.inj h).2⟩
      | cons x front' =>
          exact absurd ((List.cons.inj h).1 ▸ List.mem_cons_self) hfront'
  | cons x front ih =>
      rw [List.cons_append] at h
      cases front' with
      | nil => exact absurd ((List.cons.inj h).1 ▸ List.mem_cons_self) hfront
      | cons y front' =>
          rw [List.cons_append] at h
          obtain ⟨rfl, htail⟩ := List.cons.inj h
          obtain ⟨rfl, hback⟩ := ih (fun hx => hfront (List.mem_cons_of_mem _ hx))
            (fun hx => hfront' (List.mem_cons_of_mem _ hx)) htail
          exact ⟨rfl, hback⟩

namespace PrefixFree

variable {code : α → List β}

theorem injective (h : PrefixFree code) : Function.Injective code := by
  intro a b heq
  exact (h a b [] [] (by rw [heq])).1

/-- A word of an injective code that is never the beginning of another word. -/
theorem of_front (hinj : Function.Injective code)
    (h : ∀ a b, code a <+: code b → code a = code b) : PrefixFree code := by
  intro a b s t heq
  have hab : code a = code b := by
    obtain hpre | hpre := List.prefix_or_prefix_of_prefix
      (List.prefix_append (code a) s) (heq ▸ List.prefix_append (code b) t)
    · exact h a b hpre
    · exact (h b a hpre).symm
  refine ⟨hinj hab, ?_⟩
  rw [hab] at heq
  exact List.append_cancel_left heq

/-- Words of a prefix-free code, closed by a mark that begins none of them. -/
theorem terminated (h : PrefixFree code) {stop : β} (hempty : ∀ a, code a ≠ [])
    (hstop : ∀ a, (code a).head? ≠ some stop) :
    PrefixFree (fun word : List α => word.flatMap code ++ [stop]) := by
  -- a word never continues where the other one stops
  have hcontinues : ∀ a rest s, code a ++ rest ≠ stop :: s := by
    intro a rest s heq
    cases hcode : code a with
    | nil => exact hempty a hcode
    | cons x more =>
        rw [hcode, List.cons_append] at heq
        exact hstop a (by rw [hcode, (List.cons.inj heq).1]; rfl)
  intro word
  induction word with
  | nil =>
      intro word' s t heq
      cases word' with
      | nil => exact ⟨rfl, by simpa using heq⟩
      | cons b word' =>
          simp only [List.flatMap_nil, List.nil_append, List.flatMap_cons, List.append_assoc,
            List.cons_append] at heq
          exact absurd heq.symm (hcontinues b _ _)
  | cons a word ih =>
      intro word' s t heq
      cases word' with
      | nil =>
          simp only [List.flatMap_nil, List.nil_append, List.flatMap_cons, List.append_assoc,
            List.cons_append] at heq
          exact absurd heq (hcontinues a _ _)
      | cons b word' =>
          simp only [List.flatMap_cons, List.append_assoc] at heq
          obtain ⟨rfl, hrest⟩ := h a b _ _ heq
          obtain ⟨rfl, rfl⟩ := ih word' s t (by simpa using hrest)
          exact ⟨rfl, rfl⟩

/-- Words behind their length, which a mark ends. -/
theorem counted {count : Nat → List β} {stop : β} (hcount : Function.Injective count)
    (hstop : ∀ n, stop ∉ count n) :
    PrefixFree (fun word : List β => count word.length ++ stop :: word) := by
  intro word word' s t heq
  simp only [List.append_assoc, List.cons_append] at heq
  obtain ⟨hlengths, hrest⟩ := cut_unique (hstop _) (hstop _) heq
  exact List.append_inj hrest (hcount hlengths)

/-- A fixed beginning changes nothing. -/
theorem cons (h : PrefixFree code) (x : β) : PrefixFree (fun a => x :: code a) := by
  intro a b s t heq
  exact h a b s t (List.cons.inj heq).2

end PrefixFree

end Library
end Glaux
