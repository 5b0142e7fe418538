import Glaux.Library.Reachability
import Glaux.Library.Transition
import Glaux.Server.Storage.Database

/-!
# The parent graph (`migrations/0003_system_parent.sql`)

READ COMMITTED transactions whose statements insert, update and delete rows of
`system_parent`.  The statement trigger updates the guard row, whose lock the
transaction then holds to its end; the row trigger walks up from the new parent,
over the committed edges and the transaction's own changes so far.
-/

namespace Glaux
namespace Server
namespace ParentForest

open Domain Library Relation

/-- One row of a statement. -/
inductive RowChange where
  | insert (new : SystemParent)
  | update (old new : SystemParent)
  | delete (old : SystemParent)
deriving DecidableEq

abbrev Table := List SystemParent

/-- The edges that the walk follows; a row being replaced is passed over. -/
def edges (table : Table) (replacedChild : Option LocalId) : List (LocalId × LocalId) :=
  (table.filter (fun edge => some edge.childId ≠ replacedChild)).map
    (fun edge => (edge.childId, edge.parentId))

/-- `check_system_parent_cycle`: whether it raises. -/
def checkSystemParentCycle (table : Table) (new : SystemParent) (old : Option SystemParent) :
    Bool :=
  (closure (edges table (old.map (·.childId))) new.parentId).contains new.childId

namespace RowChange

/-- The row that the statement replaces or deletes is there. -/
def finds (table : Table) : RowChange → Bool
  | .insert _ => true
  | .update old _ | .delete old => table.contains old

/-- The row trigger, the primary key and the check constraint. -/
def passes (table : Table) : RowChange → Bool
  | .insert new =>
      !checkSystemParentCycle table new none && new.childId != new.parentId &&
        table.all (fun edge => edge.childId != new.childId)
  | .update old new =>
      !checkSystemParentCycle table new (some old) && new.childId != new.parentId &&
        (table.filter (fun edge => edge != old)).all (fun edge => edge.childId != new.childId)
  | .delete _ => true

def apply (table : Table) : RowChange → Table
  | .insert new => table ++ [new]
  | .update old new => table.filter (fun edge => edge != old) ++ [new]
  | .delete old => table.filter (fun edge => edge != old)

end RowChange

/-- An open transaction. -/
structure Transaction where
  changes : List RowChange
  /-- it holds the lock of the guard row -/
  guard : Bool
  inStatement : Bool
  /-- a statement has failed, and only a ROLLBACK is left -/
  failed : Bool
deriving DecidableEq

/-- What a statement of the transaction reads. -/
def Transaction.view (tx : Transaction) (table : Table) : Table :=
  tx.changes.foldl RowChange.apply table

structure Store where
  table : Table
  /-- the transactions in the order of their BEGIN; `none` once ended -/
  transactions : List (Option Transaction)

inductive Event where
  | begin
  /-- a statement begins, with the statement trigger -/
  | statement (i : Nat)
  | row (i : Nat) (change : RowChange)
  /-- the statement ends -/
  | finish (i : Nat)
  /-- the statement fails: a foreign key, a timeout, a deadlock -/
  | fail (i : Nat)
  | commit (i : Nat)
  | rollback (i : Nat)

namespace Store

def open? (w : Store) (i : Nat) : Option Transaction := (w.transactions[i]?).join

def set (w : Store) (i : Nat) (tx : Option Transaction) : Store :=
  { w with transactions := w.transactions.set i tx }

/-- Another transaction holds the guard row. -/
def guarded (w : Store) (i : Nat) : Bool :=
  (w.transactions.eraseIdx i).any (fun other => other.any (·.guard))

/-- A row is changed, or the statement raises. -/
def rowStep (w : Store) (i : Nat) (tx : Transaction) (change : RowChange) : Store :=
  if change.passes (tx.view w.table) then
    w.set i (some { tx with changes := tx.changes ++ [change] })
  else w.set i (some { tx with inStatement := false, failed := true })

def step (w : Store) : Event → Option Store
  | .begin => some { w with transactions := w.transactions ++ [some ⟨[], false, false, false⟩] }
  | .statement i =>
      (w.open? i).bind (fun tx =>
        if tx.inStatement || tx.failed || w.guarded i then none
        else some (w.set i (some { tx with guard := true, inStatement := true })))
  | .row i change =>
      (w.open? i).bind (fun tx =>
        if tx.inStatement && change.finds (tx.view w.table) then some (w.rowStep i tx change)
        else none)
  | .finish i =>
      (w.open? i).bind (fun tx =>
        if tx.inStatement then some (w.set i (some { tx with inStatement := false })) else none)
  | .fail i =>
      (w.open? i).map (fun tx => w.set i (some { tx with inStatement := false, failed := true }))
  | .commit i =>
      (w.open? i).bind (fun tx =>
        if tx.inStatement || tx.failed then none
        else some { w.set i none with table := tx.view w.table })
  | .rollback i => (w.open? i).map (fun _ => w.set i none)

/-- A migrated table, with no row and no transaction. -/
def empty : Store := ⟨[], []⟩

def machine : Machine Store Event where
  start := fun w => w = empty
  step := step

end Store

/-- `b` is the parent of `a`. -/
def Parent (table : Table) (a b : LocalId) : Prop := (⟨a, b⟩ : SystemParent) ∈ table

/-- Every System has at most one parent, and none is its own ancestor. -/
structure Forest (table : Table) : Prop where
  oneParent : (table.map (·.childId)).Nodup
  acyclic : Acyclic (Parent table)

section Changes

variable {table : Table}

theorem follows_edges {replaced : Option LocalId} {a b : LocalId} :
    Follows (edges table replaced) a b ↔ Parent table a b ∧ some a ≠ replaced := by
  simp only [Follows, edges, Parent, List.mem_map, List.mem_filter, decide_eq_true_eq]
  constructor
  · rintro ⟨edge, ⟨hmem, hkept⟩, heq⟩
    obtain ⟨rfl, rfl⟩ := Prod.mk.inj heq
    exact ⟨hmem, hkept⟩
  · rintro ⟨hmem, hkept⟩
    exact ⟨_, ⟨hmem, hkept⟩, rfl⟩

/-- **The walk.**  The trigger raises exactly when the child is among the ancestors. -/
theorem checkSystemParentCycle_iff {new : SystemParent} {old : Option SystemParent} :
    checkSystemParentCycle table new old = true ↔
      ReflTransGen (fun a b => Parent table a b ∧ some a ≠ old.map (·.childId))
        new.parentId new.childId := by
  have hfollows : Follows (edges table (old.map (·.childId))) =
      fun a b => Parent table a b ∧ some a ≠ old.map (·.childId) := by
    funext a b
    exact propext follows_edges
  rw [checkSystemParentCycle, List.contains_iff_mem, mem_closure, hfollows]

theorem Forest.delete (h : Forest table) (old : SystemParent) :
    Forest (table.filter (fun edge => edge != old)) where
  oneParent := h.oneParent.sublist (List.filter_sublist.map _)
  acyclic := h.acyclic.mono fun _ _ hmem => List.mem_of_mem_filter hmem

/-- An edge to a new child whose ancestors the child is not among. -/
theorem Forest.insert (h : Forest table) {new : SystemParent}
    (hkey : ∀ edge ∈ table, edge.childId ≠ new.childId)
    (hback : ¬ ReflTransGen (Parent table) new.parentId new.childId) :
    Forest (table ++ [new]) where
  oneParent := by
    rw [List.map_append, List.nodup_append']
    refine ⟨h.oneParent, List.nodup_singleton _, ?_⟩
    intro child hchild hnew
    obtain ⟨edge, hedge, rfl⟩ := List.mem_map.mp hchild
    exact hkey edge hedge (List.mem_singleton.mp hnew)
  acyclic := h.acyclic.insert hback fun a b hmem => by
    obtain hold | hnew := List.mem_append.mp hmem
    · exact .inl hold
    · rw [← List.mem_singleton.mp hnew]
      exact .inr ⟨rfl, rfl⟩

/-- **One row.**  What the trigger and the constraints let pass keeps the forest. -/
theorem Forest.apply (h : Forest table) {change : RowChange}
    (hfinds : change.finds table = true) (hpasses : change.passes table = true) :
    Forest (change.apply table) := by
  cases change with
  | delete old => exact h.delete old
  | insert new =>
      obtain ⟨hcheck, hkey⟩ := Bool.and_eq_true_iff.mp hpasses
      obtain ⟨hcheck, -⟩ := Bool.and_eq_true_iff.mp hcheck
      refine h.insert (fun edge hedge => by simpa using List.all_eq_true.mp hkey edge hedge) ?_
      intro hback
      have hraises : checkSystemParentCycle table new none = true :=
        checkSystemParentCycle_iff.mpr
          (ReflTransGen.mono (fun a b hmem => ⟨hmem, by simp⟩) _ _ hback)
      simp [hraises] at hcheck
  | update old new =>
      obtain ⟨hcheck, hkey⟩ := Bool.and_eq_true_iff.mp hpasses
      obtain ⟨hcheck, -⟩ := Bool.and_eq_true_iff.mp hcheck
      have hold : old ∈ table := by simpa [RowChange.finds] using hfinds
      refine (h.delete old).insert
        (fun edge hedge => by simpa using List.all_eq_true.mp hkey edge hedge) ?_
      intro hback
      -- the rows that are left are the ones the walk follows
      have hraises : checkSystemParentCycle table new (some old) = true := by
        refine checkSystemParentCycle_iff.mpr
          (ReflTransGen.mono (fun a b hmem => ?_) _ _ hback)
        obtain ⟨hmem, hne⟩ := List.mem_filter.mp hmem
        refine ⟨hmem, fun heq => ?_⟩
        have hchild : a = old.childId := Option.some.inj heq
        have hsame := List.inj_on_of_nodup_map h.oneParent hmem hold hchild
        simp [hsame] at hne
      simp [hraises] at hcheck

end Changes

section Runs

variable {w w' : Store} {e : Event}

namespace Store

theorem open?_lt {i : Nat} {tx : Transaction} (h : w.open? i = some tx) :
    i < w.transactions.length := by
  by_contra hi
  simp [open?, List.getElem?_eq_none (Nat.le_of_not_lt hi)] at h

theorem open?_set {i : Nat} (hi : i < w.transactions.length) (tx : Option Transaction) (j : Nat) :
    (w.set i tx).open? j = if j = i then tx else w.open? j := by
  by_cases hj : j = i
  · subst hj
    simp [open?, set, hi]
  · simp [open?, set, Ne.symm hj, hj]

theorem open?_begin (tx : Transaction) (j : Nat) :
    (open? { w with transactions := w.transactions ++ [some tx] } j) = w.open? j ∨
      (j = w.transactions.length ∧
        (open? { w with transactions := w.transactions ++ [some tx] } j) = some tx) := by
  simp only [open?]
  rw [List.getElem?_append]
  split
  · exact .inl rfl
  next hj =>
    rw [List.getElem?_singleton]
    split
    next => exact .inr ⟨by omega, rfl⟩
    next => exact .inl (by rw [List.getElem?_eq_none (Nat.le_of_not_lt hj)])

theorem not_guarded {i j : Nat} {tx : Transaction} (h : w.guarded i = false) (hne : j ≠ i)
    (hopen : w.open? j = some tx) : tx.guard = false := by
  have hmem : some tx ∈ w.transactions.eraseIdx i :=
    List.mem_eraseIdx_iff_getElem?.mpr ⟨j, hne, by simpa [open?, Option.join_eq_some_iff] using hopen⟩
  simpa using List.any_eq_false.mp h (some tx) hmem

end Store

/-- **The invariant.**  Only the holder of the guard row has changes, and it sees a
forest. -/
structure Inv (w : Store) : Prop where
  forest : Forest w.table
  guarded : ∀ i tx, w.open? i = some tx → tx.guard = true → Forest (tx.view w.table)
  unguarded : ∀ i tx, w.open? i = some tx → tx.guard = false →
    tx.changes = [] ∧ tx.inStatement = false
  exclusive : ∀ i j tx tx', i ≠ j → w.open? i = some tx → w.open? j = some tx' →
    tx.guard = true → tx'.guard = false

/-- What a transaction sees. -/
theorem Inv.view (hinv : Inv w) {i : Nat} {tx : Transaction} (hopen : w.open? i = some tx) :
    Forest (tx.view w.table) := by
  cases hguard : tx.guard with
  | true => exact hinv.guarded i tx hopen hguard
  | false =>
      rw [Transaction.view, (hinv.unguarded i tx hopen hguard).1]
      exact hinv.forest

/-- A transaction goes on, with the table as it is. -/
theorem Inv.set (hinv : Inv w) {i : Nat} {tx tx' : Transaction} (hopen : w.open? i = some tx)
    (hforest : tx'.guard = true → Forest (tx'.view w.table))
    (hnone : tx'.guard = false → tx'.changes = [] ∧ tx'.inStatement = false)
    (halone : tx'.guard = true → tx.guard = true ∨ w.guarded i = false) :
    Inv (w.set i (some tx')) := by
  have hi := Store.open?_lt hopen
  have hother : tx'.guard = true → ∀ j other, j ≠ i → w.open? j = some other →
      other.guard = false := by
    intro hguard j other hj hother
    obtain hheld | hfree := halone hguard
    · exact hinv.exclusive i j tx other (Ne.symm hj) hopen hother hheld
    · exact Store.not_guarded hfree hj hother
  refine ⟨hinv.forest, ?_, ?_, ?_⟩
  · intro j other hopen' hguard
    rw [Store.open?_set hi] at hopen'
    split at hopen'
    next => obtain rfl := Option.some.inj hopen'; exact hforest hguard
    next => exact hinv.guarded j other hopen' hguard
  · intro j other hopen' hguard
    rw [Store.open?_set hi] at hopen'
    split at hopen'
    next => obtain rfl := Option.some.inj hopen'; exact hnone hguard
    next => exact hinv.unguarded j other hopen' hguard
  · intro j k other other' hne hj hk hguard
    rw [Store.open?_set hi] at hj hk
    split at hj <;> split at hk
    next hj' hk' => exact absurd (hj'.trans hk'.symm) hne
    next hj' hk' =>
      obtain rfl := Option.some.inj hj
      exact hother hguard k other' hk' hk
    next hj' hk' =>
      obtain rfl := Option.some.inj hk
      by_contra hheld
      rw [hother (by simpa using hheld) j other hj' hj] at hguard
      cases hguard
    next => exact hinv.exclusive j k other other' hne hj hk hguard

/-- A transaction ends, and the others have made no change if the table has changed. -/
theorem Inv.ended (hinv : Inv w) {i : Nat} {tx : Transaction} {table : Table}
    (hopen : w.open? i = some tx) (hforest : Forest table)
    (htable : table = w.table ∨ tx.guard = true) :
    Inv { w.set i none with table := table } := by
  have hi := Store.open?_lt hopen
  have hopen' : ∀ j other, Store.open? { w.set i none with table := table } j = some other →
      j ≠ i ∧ w.open? j = some other := by
    intro j other hj
    have hj : (w.set i none).open? j = some other := hj
    rw [Store.open?_set hi] at hj
    split at hj
    next => cases hj
    next hne => exact ⟨hne, hj⟩
  refine ⟨hforest, ?_, ?_, ?_⟩
  · intro j other hj hguard
    obtain ⟨hne, hold⟩ := hopen' j other hj
    obtain rfl | hheld := htable
    · exact hinv.guarded j other hold hguard
    · rw [hinv.exclusive i j tx other (Ne.symm hne) hopen hold hheld] at hguard
      cases hguard
  · intro j other hj
    exact hinv.unguarded j other (hopen' j other hj).2
  · intro j k other other' hne hj hk
    exact hinv.exclusive j k other other' hne (hopen' j other hj).2 (hopen' k other' hk).2

theorem Inv.begin_ (hinv : Inv w) :
    Inv { w with transactions := w.transactions ++ [some ⟨[], false, false, false⟩] } := by
  have hopen : ∀ j other, Store.open? { w with
      transactions := w.transactions ++ [some ⟨[], false, false, false⟩] } j = some other →
      w.open? j = some other ∨ other = ⟨[], false, false, false⟩ := by
    intro j other hj
    obtain hold | ⟨-, hnew⟩ := Store.open?_begin (w := w) ⟨[], false, false, false⟩ j
    · exact .inl (hold ▸ hj)
    · exact .inr (Option.some.inj (hj.symm.trans hnew))
  refine ⟨hinv.forest, ?_, ?_, ?_⟩
  · intro j other hj hguard
    obtain hj | rfl := hopen j other hj
    · exact hinv.guarded j other hj hguard
    · cases hguard
  · intro j other hj hguard
    obtain hj | rfl := hopen j other hj
    · exact hinv.unguarded j other hj hguard
    · exact ⟨rfl, rfl⟩
  · intro j k other other' hne hj hk hguard
    obtain hj | rfl := hopen j other hj
    · obtain hk | rfl := hopen k other' hk
      · exact hinv.exclusive j k other other' hne hj hk hguard
      · rfl
    · cases hguard

/-- The guard row is held while a statement runs. -/
theorem Inv.guard_of_inStatement (hinv : Inv w) {i : Nat} {tx : Transaction}
    (hopen : w.open? i = some tx) (hin : tx.inStatement = true) : tx.guard = true := by
  cases hguard : tx.guard with
  | true => rfl
  | false =>
      rw [(hinv.unguarded i tx hopen hguard).2] at hin
      cases hin

theorem Inv.row (hinv : Inv w) {i : Nat} {tx : Transaction} {change : RowChange}
    (hopen : w.open? i = some tx) (hin : tx.inStatement = true)
    (hfinds : change.finds (tx.view w.table) = true) : Inv (w.rowStep i tx change) := by
  have hguard := hinv.guard_of_inStatement hopen hin
  have hview := hinv.guarded i tx hopen hguard
  simp only [Store.rowStep]
  split
  next hpasses =>
    refine hinv.set hopen (fun _ => ?_) (fun h => ?_) (fun _ => .inl hguard)
    · simp only [Transaction.view, List.foldl_append, List.foldl_cons, List.foldl_nil]
      exact hview.apply hfinds hpasses
    · rw [hguard] at h
      cases h
  next =>
    refine hinv.set hopen (fun _ => hview) (fun h => ?_) (fun _ => .inl hguard)
    rw [hguard] at h
    cases h

theorem Inv.step (hinv : Inv w) (h : w.step e = some w') : Inv w' := by
  cases e with
  | begin =>
      obtain rfl := Option.some.inj h
      exact hinv.begin_
  | statement i =>
      obtain ⟨tx, hopen, h⟩ := Option.bind_eq_some_iff.mp h
      split at h
      next => cases h
      next hfree =>
        obtain rfl := Option.some.inj h
        have hview := hinv.view hopen
        have hfree : (tx.inStatement = false ∧ tx.failed = false) ∧ w.guarded i = false := by
          simpa using hfree
        exact hinv.set hopen (fun _ => hview) (by simp) (fun _ => .inr hfree.2)
  | row i change =>
      obtain ⟨tx, hopen, h⟩ := Option.bind_eq_some_iff.mp h
      split at h
      next hin =>
        obtain rfl := Option.some.inj h
        obtain ⟨hin, hfinds⟩ := Bool.and_eq_true_iff.mp hin
        exact hinv.row hopen hin hfinds
      next => cases h
  | finish i =>
      obtain ⟨tx, hopen, h⟩ := Option.bind_eq_some_iff.mp h
      split at h
      next hin =>
        obtain rfl := Option.some.inj h
        have hguard := hinv.guard_of_inStatement hopen hin
        have hview := hinv.view hopen
        refine hinv.set hopen (fun _ => hview) (fun h => ?_) (fun _ => .inl hguard)
        rw [hguard] at h
        cases h
      next => cases h
  | fail i =>
      obtain ⟨tx, hopen, rfl⟩ := Option.map_eq_some_iff.mp h
      have hview := hinv.view hopen
      exact hinv.set hopen (fun _ => hview)
        (fun hguard => ⟨(hinv.unguarded i tx hopen hguard).1, rfl⟩) (fun hguard => .inl hguard)
  | commit i =>
      obtain ⟨tx, hopen, h⟩ := Option.bind_eq_some_iff.mp h
      split at h
      next => cases h
      next =>
        obtain rfl := Option.some.inj h
        refine hinv.ended hopen (hinv.view hopen) ?_
        cases hguard : tx.guard with
        | true => exact .inr rfl
        | false => exact .inl (by rw [Transaction.view, (hinv.unguarded i tx hopen hguard).1]; rfl)
  | rollback i =>
      obtain ⟨tx, hopen, rfl⟩ := Option.map_eq_some_iff.mp h
      exact hinv.ended hopen hinv.forest (.inl rfl)

theorem inv_of_reachable (h : Store.machine.Reachable w) : Inv w := by
  refine Machine.Reachable.invariant (P := Inv) ?_ (fun _ _ _ hinv hst => hinv.step hst) h
  rintro w rfl
  have hacyclic : Acyclic (Parent []) := by
    intro a hcycle
    obtain ⟨b, hedge, -⟩ := TransGen.head'_iff.mp hcycle
    cases hedge
  exact ⟨⟨List.nodup_nil, hacyclic⟩, by simp [Store.open?, Store.empty],
    by simp [Store.open?, Store.empty], by simp [Store.open?, Store.empty]⟩

/-- What holds of the parent graph and of the walk. -/
structure Sound (w : Store) : Prop where
  committed : Forest w.table
  /-- no statement sees anything but a forest -/
  seen : ∀ i tx, w.open? i = some tx → Forest (tx.view w.table)
  /-- edges are written by one open transaction at a time -/
  serialized : ∀ i j tx tx', i ≠ j → w.open? i = some tx → w.open? j = some tx' →
    tx.changes ≠ [] → tx'.changes = []
  /-- the walk ends on every table, and raises exactly when the new edge closes a cycle -/
  walks : ∀ (table : Table) (new : SystemParent) (old : Option SystemParent),
    (∃ n, (Rounds.after (edges table (old.map (·.childId))) new.parentId n).work = []) ∧
    (checkSystemParentCycle table new old = true ↔
      ReflTransGen (fun a b => Parent table a b ∧ some a ≠ old.map (·.childId))
        new.parentId new.childId)

/-- **The parent graph is a forest.** -/
theorem parent_forest (h : Store.machine.Reachable w) : Sound w := by
  have hinv := inv_of_reachable h
  exact {
    committed := hinv.forest
    seen := fun i tx hopen => hinv.view hopen
    serialized := fun i j tx tx' hne hi hj hchanges => by
      have hguard : tx.guard = true := by
        by_contra hfree
        exact hchanges (hinv.unguarded i tx hi (by simpa using hfree)).1
      exact (hinv.unguarded j tx' hj (hinv.exclusive i j tx tx' hne hi hj hguard)).1
    walks := fun table new old => ⟨⟨_, after_done _ _⟩, checkSystemParentCycle_iff⟩ }

def sampleA : LocalId := ⟨"01890f20-7b5a-7cc3-98c4-00000000000a", by decide +kernel⟩
def sampleB : LocalId := ⟨"01890f20-7b5a-7cc3-98c4-00000000000b", by decide +kernel⟩
def sampleC : LocalId := ⟨"01890f20-7b5a-7cc3-98c4-00000000000c", by decide +kernel⟩

/-- One transaction adds two edges; another one moves one of them, and then tries to
close a cycle. -/
def sampleMoves : List Event :=
  [.begin, .begin, .statement 0, .row 0 (.insert ⟨sampleA, sampleB⟩),
    .row 0 (.insert ⟨sampleB, sampleC⟩), .finish 0, .commit 0,
    .statement 1, .row 1 (.update ⟨sampleB, sampleC⟩ ⟨sampleC, sampleB⟩), .finish 1, .commit 1,
    .begin, .statement 2, .row 2 (.insert ⟨sampleB, sampleA⟩), .rollback 2]

theorem parent_forest_run : ∃ w : Store,
    Store.machine.runEvents Store.empty sampleMoves = some w ∧
    w.table = [⟨sampleA, sampleB⟩, ⟨sampleC, sampleB⟩] ∧ Sound w := by
  have hrun : (Store.machine.runEvents Store.empty sampleMoves).map (·.table) =
      some [⟨sampleA, sampleB⟩, ⟨sampleC, sampleB⟩] := by decide +kernel
  obtain ⟨w, hw, htable⟩ := Option.map_eq_some_iff.mp hrun
  exact ⟨w, hw, htable, parent_forest (Machine.reachable_of_runEvents rfl hw)⟩

end Runs

end ParentForest
end Server
end Glaux
