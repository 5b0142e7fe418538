import Mathlib.Data.List.Dedup
import Mathlib.Logic.Relation

/-!
# Reachability by rounds

A recursive query with `UNION` is evaluated by rounds: what the last round found is
the working table of the next one, and the query ends when a round finds nothing
new.  It ends on every finite set of edges, cyclic or not, and its result is exactly
what can be reached.
-/

namespace Glaux
namespace Library

open Relation

variable {α : Type} [DecidableEq α]

/-- `b` follows `a`. -/
def Follows (edges : List (α × α)) (a b : α) : Prop := (a, b) ∈ edges

/-- The result so far and the working table. -/
structure Rounds (α : Type) where
  result : List α
  work : List α
deriving DecidableEq

namespace Rounds

variable (edges : List (α × α))

/-- What follows the working table and is not in the result yet. -/
def found (r : Rounds α) : List α :=
  (((edges.filter (fun edge => edge.1 ∈ r.work)).map (·.2)).dedup).filter (· ∉ r.result)

def next (r : Rounds α) : Rounds α := ⟨r.result ++ r.found edges, r.found edges⟩

def from_ (start : α) : Rounds α := ⟨[start], [start]⟩

/-- The state after some rounds. -/
def after (start : α) : Nat → Rounds α
  | 0 => from_ start
  | n + 1 => (after start n).next edges

end Rounds

/-- What the query gives: one round for each edge is enough. -/
def closure (edges : List (α × α)) (start : α) : List α :=
  (Rounds.after edges start (edges.length + 1)).result

section Rounds

variable {edges : List (α × α)} {start : α} {r : Rounds α}

theorem mem_found {x : α} :
    x ∈ r.found edges ↔ (∃ a ∈ r.work, Follows edges a x) ∧ x ∉ r.result := by
  simp only [Rounds.found, List.mem_filter, List.mem_dedup, List.mem_map, decide_eq_true_eq,
    Follows]
  constructor
  · rintro ⟨⟨⟨a, _⟩, ⟨hmem, hwork⟩, rfl⟩, hnew⟩
    exact ⟨⟨a, hwork, hmem⟩, hnew⟩
  · rintro ⟨⟨a, hwork, hmem⟩, hnew⟩
    exact ⟨⟨(a, x), ⟨hmem, hwork⟩, rfl⟩, hnew⟩

/-- Targets of edges that are not in the result yet. -/
def Rounds.left (edges : List (α × α)) (r : Rounds α) : List α :=
  ((edges.map (·.2)).dedup).filter (· ∉ r.result)

/-- A round that finds something leaves less to be found. -/
theorem left_next (h : r.found edges ≠ []) :
    ((r.next edges).left edges).length < (r.left edges).length := by
  obtain ⟨x, hx⟩ := List.exists_mem_of_ne_nil _ h
  obtain ⟨⟨a, -, hedge⟩, hnew⟩ := mem_found.mp hx
  have hleft : (r.next edges).left edges =
      (r.left edges).filter (fun y => y ∉ r.found edges) := by
    simp only [Rounds.left, Rounds.next, List.filter_filter]
    refine List.filter_congr fun y _ => ?_
    simp [List.mem_append, not_or, Bool.and_comm]
  rw [hleft]
  refine List.length_filter_lt_length_iff_exists.mpr ⟨x, ?_, by simpa using hx⟩
  refine List.mem_filter.mpr ⟨List.mem_dedup.mpr ?_, by simpa using hnew⟩
  exact List.mem_map.mpr ⟨(a, x), hedge, rfl⟩

theorem left_after (edges : List (α × α)) (start : α) (n : Nat) : (Rounds.after edges start n).work = [] ∨
    ((Rounds.after edges start n).left edges).length + n ≤ edges.length := by
  induction n with
  | zero =>
      have hfilter := List.length_filter_le (· ∉ (Rounds.after edges start 0).result)
        (edges.map (·.2)).dedup
      have hdedup := (List.dedup_sublist (edges.map (·.2))).length_le
      rw [List.length_map] at hdedup
      exact .inr (Nat.le_trans hfilter hdedup)
  | succ n ih =>
      by_cases hfound : (Rounds.after edges start n).found edges = []
      · exact .inl hfound
      · right
        have hless := left_next hfound
        obtain hdone | hleft := ih
        · exact absurd (List.filter_eq_nil_iff.mpr (by simp [hdone])) hfound
        · simp only [Rounds.after]
          omega

/-- **Termination.**  After one round more than there are edges, nothing is found. -/
theorem after_done (edges : List (α × α)) (start : α) :
    (Rounds.after edges start (edges.length + 1)).work = [] := by
  obtain hdone | hleft := left_after edges start (edges.length + 1)
  · exact hdone
  · omega

theorem reaches_after (n : Nat) :
    (∀ x ∈ (Rounds.after edges start n).work, ReflTransGen (Follows edges) start x) ∧
      ∀ x ∈ (Rounds.after edges start n).result, ReflTransGen (Follows edges) start x := by
  induction n with
  | zero => simp [Rounds.after, Rounds.from_, ReflTransGen.refl]
  | succ n ih =>
      obtain ⟨hwork, hresult⟩ := ih
      have hfound : ∀ x ∈ (Rounds.after edges start n).found edges,
          ReflTransGen (Follows edges) start x := by
        intro x hx
        obtain ⟨⟨a, ha, hedge⟩, -⟩ := mem_found.mp hx
        exact (hwork a ha).tail hedge
      refine ⟨hfound, fun x hx => ?_⟩
      obtain hx | hx := List.mem_append.mp hx
      · exact hresult x hx
      · exact hfound x hx

/-- Results outside the working table have been followed. -/
theorem followed_after (edges : List (α × α)) (start : α) (n : Nat) : start ∈ (Rounds.after edges start n).result ∧
    ∀ a ∈ (Rounds.after edges start n).result, a ∉ (Rounds.after edges start n).work →
      ∀ b, Follows edges a b → b ∈ (Rounds.after edges start n).result := by
  induction n with
  | zero => simp [Rounds.after, Rounds.from_]
  | succ n ih =>
      obtain ⟨hstart, hfollowed⟩ := ih
      refine ⟨List.mem_append_left _ hstart, fun a ha hwork b hedge => ?_⟩
      have ha : a ∈ (Rounds.after edges start n).result :=
        (List.mem_append.mp ha).resolve_right hwork
      by_cases hb : b ∈ (Rounds.after edges start n).result
      · exact List.mem_append_left _ hb
      · by_cases hold : a ∈ (Rounds.after edges start n).work
        · exact List.mem_append_right _ (mem_found.mpr ⟨⟨a, hold, hedge⟩, hb⟩)
        · exact absurd (hfollowed a ha hold b hedge) hb

/-- **Exactness.** -/
theorem mem_closure {x : α} :
    x ∈ closure edges start ↔ ReflTransGen (Follows edges) start x := by
  constructor
  · exact (reaches_after _).2 x
  · intro h
    obtain ⟨hstart, hfollowed⟩ := followed_after edges start (edges.length + 1)
    induction h with
    | refl => exact hstart
    | tail _ hedge ih => exact hfollowed _ ih (by simp [after_done]) _ hedge

end Rounds

section Acyclic

variable {R R' : α → α → Prop}

/-- Nothing leads back to itself. -/
def Acyclic (R : α → α → Prop) : Prop := ∀ a, ¬ TransGen R a a

omit [DecidableEq α] in
theorem Acyclic.mono (h : Acyclic R) (hsub : ∀ a b, R' a b → R a b) : Acyclic R' :=
  fun a hcycle => h a (TransGen.mono hsub a a hcycle)

omit [DecidableEq α] in
/-- **One more edge** closes no cycle when its end does not lead back to its start. -/
theorem Acyclic.insert (h : Acyclic R) {c p : α} (hback : ¬ ReflTransGen R p c)
    (hedge : ∀ a b, R' a b → R a b ∨ (a = c ∧ b = p)) : Acyclic R' := by
  have hsplit : ∀ {x y}, TransGen R' x y →
      TransGen R x y ∨ (ReflTransGen R x c ∧ ReflTransGen R p y) := by
    intro x y hpath
    induction hpath with
    | single hxy =>
        obtain hxy | ⟨rfl, rfl⟩ := hedge _ _ hxy
        · exact .inl (.single hxy)
        · exact .inr ⟨.refl, .refl⟩
    | tail _ hyz ih =>
        obtain hyz | ⟨rfl, rfl⟩ := hedge _ _ hyz
        · exact ih.imp (·.tail hyz) (fun ⟨hx, hy⟩ => ⟨hx, hy.tail hyz⟩)
        · obtain hxy | ⟨-, hy⟩ := ih
          · exact .inr ⟨hxy.to_reflTransGen, .refl⟩
          · exact absurd hy hback
  intro a hcycle
  obtain hold | ⟨hto, hfrom⟩ := hsplit hcycle
  · exact h a hold
  · exact hback (hfrom.trans hto)

end Acyclic

end Library
end Glaux
