import Mathlib.Data.List.Dedup
import Mathlib.Data.List.Forall2
import Mathlib.Data.List.Sort
import Mathlib.Order.Defs.LinearOrder

/-!
# Relational operators on row lists

A left outer join and `GROUP BY … HAVING count(*) = 1`, as functions on lists
of rows, with the facts that let a query be read as a set of rows: what is
grouped once, and that joining with at most one match keeps the left rows.
-/

namespace Glaux
namespace Library

variable {α β κ : Type}

theorem length_le_one {l : List α} (hnodup : l.Nodup)
    (hsame : ∀ a ∈ l, ∀ b ∈ l, a = b) : l.length ≤ 1 := by
  match l with
  | [] => simp
  | [_] => simp
  | a :: b :: rest =>
      have hab := hsame a (by simp) b (by simp)
      simp [hab] at hnodup

theorem head?_eq_some_of_length_le_one {l : List α} (h : l.length ≤ 1) {a : α} :
    l.head? = some a ↔ a ∈ l := by
  match l with
  | [] => simp
  | [b] => simp [eq_comm]

/-- Every left row with its matches, or once with none. -/
def leftJoin (left : List α) (right : List β) (on : α → β → Bool) :
    List (α × Option β) :=
  left.flatMap (fun a =>
    match right.filter (on a) with
    | [] => [(a, none)]
    | b :: rest => (b :: rest).map (fun b => (a, some b)))

/-- The only entry of a list, if it has exactly one. -/
def only? : List α → Option α
  | [a] => some a
  | _ => none

theorem only?_eq_some {l : List α} {a : α} : only? l = some a ↔ l = [a] := by
  match l with
  | [] => simp [only?]
  | [b] => simp [only?]
  | b :: c :: rest => simp [only?]

/-- `GROUP BY key HAVING count(*) = 1`: the rows that are alone in their group,
by key. -/
def aloneBy [DecidableEq κ] (key : α → κ) (rows : List α) : List (κ × α) :=
  (rows.map key).dedup.filterMap (fun k =>
    (only? (rows.filter (fun row => key row = k))).map (fun row => (k, row)))

section AloneBy

variable [DecidableEq κ] {key : α → κ} {rows : List α}

theorem mem_aloneBy {k : κ} {row : α} :
    (k, row) ∈ aloneBy key rows ↔ rows.filter (fun row => key row = k) = [row] := by
  simp only [aloneBy, List.mem_filterMap, List.mem_dedup, List.mem_map]
  constructor
  · rintro ⟨k', -, h⟩
    obtain ⟨row', hrow', heq⟩ := Option.map_eq_some_iff.mp h
    obtain ⟨rfl, rfl⟩ := Prod.mk.inj heq
    exact only?_eq_some.mp hrow'
  · intro h
    refine ⟨k, ?_, ?_⟩
    · have hmem : row ∈ rows.filter (fun row => key row = k) := by simp [h]
      obtain ⟨hrow, hkey⟩ := List.mem_filter.mp hmem
      exact ⟨row, hrow, by simpa using hkey⟩
    · simp [only?_eq_some.mpr h]

/-- One entry for each key. -/
theorem aloneBy_keys_nodup : ((aloneBy key rows).map (·.1)).Nodup := by
  have hsub : ((aloneBy key rows).map (·.1)).Sublist (rows.map key).dedup := by
    unfold aloneBy
    generalize (rows.map key).dedup = ks
    induction ks with
    | nil => exact List.Sublist.slnil
    | cons k ks ih =>
        rw [List.filterMap_cons]
        cases only? (rows.filter (fun row => key row = k)) with
        | none => exact ih.cons k
        | some row => exact ih.cons_cons k
  exact (List.nodup_dedup _).sublist hsub

end AloneBy

/-- A left join with at most one match for each row is a map. -/
theorem leftJoin_eq_map {left : List α} {right : List β} {on : α → β → Bool}
    (h : ∀ a ∈ left, (right.filter (on a)).length ≤ 1) :
    leftJoin left right on = left.map (fun a => (a, (right.filter (on a)).head?)) := by
  induction left with
  | nil => rfl
  | cons a left ih =>
      have hone := h a (List.mem_cons_self ..)
      rw [List.map_cons, ← ih (fun a ha => h a (List.mem_cons_of_mem _ ha))]
      simp only [leftJoin, List.flatMap_cons]
      match hmatch : right.filter (on a) with
      | [] => rfl
      | [b] => rfl
      | b :: c :: rest => simp [hmatch] at hone

section LeftJoin

variable {left : List α} {right : List β} {on : α → β → Bool}

/-- What a left join adds to one left row. -/
theorem mem_leftJoin {row : α × Option β} :
    row ∈ leftJoin left right on ↔ row.1 ∈ left ∧
      ((row.2 = none ∧ right.filter (on row.1) = []) ∨
        ∃ b ∈ right, on row.1 b = true ∧ row.2 = some b) := by
  obtain ⟨a, column⟩ := row
  simp only [leftJoin, List.mem_flatMap]
  constructor
  · rintro ⟨a', ha', h⟩
    cases hfound : right.filter (on a') with
    | nil =>
        rw [hfound] at h
        obtain ⟨rfl, rfl⟩ := Prod.mk.inj (List.mem_singleton.mp h)
        exact ⟨ha', .inl ⟨rfl, hfound⟩⟩
    | cons b rest =>
        rw [hfound] at h
        obtain ⟨c, hc, heq⟩ := List.mem_map.mp h
        obtain ⟨rfl, rfl⟩ := Prod.mk.inj heq
        rw [← hfound, List.mem_filter] at hc
        exact ⟨ha', .inr ⟨c, hc.1, hc.2, rfl⟩⟩
  · rintro ⟨ha, h⟩
    refine ⟨a, ha, ?_⟩
    obtain ⟨rfl, hfound⟩ | ⟨b, hb, hon, rfl⟩ := h
    · simp [hfound]
    · have hmem : b ∈ right.filter (on a) := List.mem_filter.mpr ⟨hb, hon⟩
      cases hfound : right.filter (on a) with
      | nil =>
          rw [hfound] at hmem
          cases hmem
      | cons c rest => exact List.mem_map.mpr ⟨b, hfound ▸ hmem, rfl⟩

theorem leftJoin_ne_nil (h : left ≠ []) : leftJoin left right on ≠ [] := by
  obtain ⟨a, ha⟩ := List.exists_mem_of_ne_nil left h
  have hrow : ∃ column, (a, column) ∈ leftJoin left right on := by
    cases hfound : right.filter (on a) with
    | nil => exact ⟨none, mem_leftJoin.mpr ⟨ha, .inl ⟨rfl, hfound⟩⟩⟩
    | cons b rest =>
        have hb : b ∈ right.filter (on a) := hfound ▸ List.mem_cons_self
        obtain ⟨hb, hon⟩ := List.mem_filter.mp hb
        exact ⟨some b, mem_leftJoin.mpr ⟨ha, .inr ⟨b, hb, hon, rfl⟩⟩⟩
  obtain ⟨column, hmem⟩ := hrow
  exact List.ne_nil_of_mem hmem

end LeftJoin

/-- `ORDER BY key`. -/
def sortBy [LinearOrder κ] (key : α → κ) (rows : List α) : List α :=
  rows.insertionSort (fun a b => key a ≤ key b)

section SortBy

variable [LinearOrder κ] {key : α → κ} {rows rows' : List α}

theorem sortBy_perm (key : α → κ) (rows : List α) : (sortBy key rows).Perm rows :=
  List.perm_insertionSort _ rows

theorem mem_sortBy {a : α} : a ∈ sortBy key rows ↔ a ∈ rows :=
  (sortBy_perm key rows).mem_iff

theorem sortBy_pairwise (key : α → κ) (rows : List α) :
    (sortBy key rows).Pairwise (fun a b => key a ≤ key b) := by
  have : Std.Total (fun a b : α => key a ≤ key b) := ⟨fun a b => le_total (key a) (key b)⟩
  have : IsTrans α (fun a b : α => key a ≤ key b) := ⟨fun a b c => le_trans⟩
  exact List.pairwise_insertionSort _ rows

/-- Distinct keys leave one sorted order. -/
theorem sortBy_eq_of_perm (hperm : rows'.Perm rows)
    (hsorted : rows'.Pairwise (fun a b => key a ≤ key b))
    (hkey : ∀ a ∈ rows, ∀ b ∈ rows, key a = key b → a = b) : sortBy key rows = rows' := by
  refine List.Perm.eq_of_pairwise ?_ (sortBy_pairwise key rows) hsorted
    ((sortBy_perm key rows).trans hperm.symm)
  intro a b ha hb hab hba
  exact hkey a (mem_sortBy.mp ha) b (hperm.mem_iff.mp hb) (le_antisymm hab hba)

/-- Sorting forgets the order of its input. -/
theorem sortBy_congr (hperm : rows.Perm rows')
    (hkey : ∀ a ∈ rows, ∀ b ∈ rows, key a = key b → a = b) :
    sortBy key rows = sortBy key rows' :=
  sortBy_eq_of_perm ((sortBy_perm key rows').trans hperm.symm) (sortBy_pairwise key rows')
    hkey

/-- In a sorted list equal entries stand side by side. -/
theorem nodup_iff_adjacent [DecidableEq α] (key : α → κ) (hkey : Function.Injective key)
    (hsorted : rows.Pairwise (fun a b => key a ≤ key b)) :
    rows.Nodup ↔ ¬ (rows.zip rows.tail).any (fun pair => pair.1 = pair.2) = true := by
  induction rows with
  | nil => simp
  | cons a rows ih =>
      cases rows with
      | nil => simp
      | cons b rows =>
          obtain ⟨hfirst, hrest⟩ := List.pairwise_cons.mp hsorted
          have hmem : a ∈ b :: rows ↔ a = b := by
            constructor
            · intro ha
              obtain rfl | ha := List.mem_cons.mp ha
              · rfl
              · have hback : key b ≤ key a := (List.pairwise_cons.mp hrest).1 a ha
                exact hkey (le_antisymm (hfirst b List.mem_cons_self) hback)
            · rintro rfl
              exact List.mem_cons_self
          have htail := ih hrest
          simp only [List.tail_cons] at htail
          rw [List.nodup_cons, hmem, htail]
          simp only [List.tail_cons, List.zip_cons_cons, List.any_cons, Bool.or_eq_true,
            decide_eq_true_eq, not_or]

end SortBy

/-- Two lists in step satisfy corresponding properties somewhere together. -/
theorem exists_mem_iff_of_forall₂ {R : α → β → Prop} {p : α → Prop} {q : β → Prop}
    (hpq : ∀ a b, R a b → (p a ↔ q b)) {l : List α} {l' : List β}
    (h : List.Forall₂ R l l') : (∃ a ∈ l, p a) ↔ ∃ b ∈ l', q b := by
  induction h with
  | nil => simp
  | cons hab _ ih => simp [hpq _ _ hab, ih]

end Library
end Glaux
