import Glaux.Library.Log
import Glaux.Server.Storage.Invariant
import Mathlib.Data.List.Induction

/-!
# What the history shows

Invariants that relate the commits so far to the database now.  A replaced head
never comes back, because each head is moved to a revision whose key was free.
A retention row stays until it has expired and another one of its scope is
stored, and whatever its scope delivers meanwhile is its receipt.
-/

namespace Glaux
namespace Server

open Domain Library

/-- The transaction moves the head of a System. -/
def Transaction.moves (tx : Transaction) (id : LocalId) : Prop :=
  ∃ row, Write.head row ∈ tx.writes ∧ row.systemId = id

/-- The transaction replaces this head. -/
def Transaction.replaces (tx : Transaction) (id : LocalId) (r : RevisionId) : Prop :=
  tx.moves id ∧ tx.head = some (some r)

/-- What a transaction under a scope's lock gives its caller. -/
def Transaction.delivers (tx : Transaction) (receipt : WriteReceipt) : Prop :=
  (∃ row, Write.retry row ∈ tx.writes ∧ row.receipt = receipt) ∨
    (tx.writes = [] ∧ ∃ clock row, tx.looked = some (clock, some row) ∧ row.receipt = receipt)

namespace World

variable {service : Service} {engine : Engine} {contract : service.Contract engine}
  {w w' : World service} {e : Event service}

/-- What one step does to the database, the clock and the history. -/
inductive Shared (w : World service) (e : Event service) (w' : World service) : Prop
  | unchanged (db : w'.db = w.db) (clock : w.now ≤ w'.now) (reads : List Happening)
      (history : w'.history = w.history ++ reads)
      (heads : ∀ happening ∈ reads, ∃ i id head, happening = .headRead i id head)
  | commits {i : Nat} {choice : Choice} {tx : Transaction} (event : e = .step i choice)
      (opened : w.Opened i tx) (db : w'.db = w.db.applyAll tx.writes) (clock : w'.now = w.now)
      (history : w'.history = w.history ++ [.committed i tx w.db w.now])

theorem Inv.shared (hinv : w.Inv contract) (h : step engine w e = some w') : Shared w e w' := by
  cases stepped h with
  | started request => exact .unchanged rfl le_rfl [] (by simp) (by simp)
  | ticked microseconds => exact .unchanged rfl (Nat.le_add_right _ _) [] (by simp) (by simp)
  | dropped hcall => exact .unchanged rfl le_rfl [] (by simp) (by simp)
  | @performed i choice call s next done hcall hrest hdone =>
      have hpermits := (hinv.step_kept hcall hrest hdone).1
      cases hcommitted : done.2.2 with
      | none =>
          refine .unchanged (by simp [World.after, hcommitted]) le_rfl (s.happened i done.1)
            (by simp [World.after, hcommitted]) ?_
          intro happening hmem
          obtain ⟨read, -, rfl⟩ := List.mem_map.mp hmem
          exact ⟨_, _, _, rfl⟩
      | some tx =>
          obtain ⟨htx, -, hnone⟩ := perform_committed hpermits hdone hcommitted
          have heffect := perform_effect hpermits hdone
          rw [htx, hnone] at heffect
          have hreads : s.headReads done.1 = [] := by
            generalize s.headReads done.1 = reads at heffect
            cases heffect
            rfl
          exact .commits rfl ⟨call, hcall, htx⟩ (by simp [World.after, hcommitted]) rfl
            (by simp [World.after, hcommitted, Statement.happened, hreads])

theorem Shared.clock_le (h : Shared w e w') : w.now ≤ w'.now := by
  cases h with
  | unchanged _ clock => exact clock
  | commits _ _ _ clock => exact clock.ge

/-- A commit in the history is an old one or the one just made. -/
theorem Shared.mem_committed (h : Shared w e w') {i : Nat} {tx : Transaction}
    {before : Database} {clock : Timestamp}
    (hmem : .committed i tx before clock ∈ w'.history) :
    .committed i tx before clock ∈ w.history ∨
      (w.Opened i tx ∧ before = w.db ∧ clock = w.now ∧ w'.db = w.db.applyAll tx.writes) := by
  cases h with
  | unchanged _ _ reads history heads =>
      rw [history] at hmem
      obtain hmem | hmem := List.mem_append.mp hmem
      · exact .inl hmem
      · obtain ⟨_, _, _, heq⟩ := heads _ hmem
        cases heq
  | commits _ opened db _ history =>
      rw [history] at hmem
      obtain hmem | hmem := List.mem_append.mp hmem
      · exact .inl hmem
      · obtain ⟨rfl, rfl, rfl, rfl⟩ := Happening.committed.inj (List.mem_singleton.mp hmem)
        exact .inr ⟨opened, rfl, rfl, db⟩

/-- Keys are never given back. -/
theorem Shared.keys_subset (h : Shared w e w') : w.db.keys ⊆ w'.db.keys := by
  cases h with
  | unchanged db => exact db ▸ List.Subset.refl _
  | commits _ _ db => exact db ▸ Database.keys_subset_applyAll

/-- What meets a foreign key goes on meeting it. -/
theorem Shared.meets (h : Shared w e w') {requirement : Requirement}
    (hmeets : w.db.meets requirement = true) : w'.db.meets requirement = true := by
  cases h with
  | unchanged db => exact db ▸ hmeets
  | commits _ _ db => exact db ▸ Database.meets_applyAll.mpr (.inl hmeets)

/-- Rows that no write changes stay. -/
theorem Shared.mem_of_stable (h : Shared w e w') {row : Row} (hrow : row.stable = true)
    (hmem : row ∈ w.db) : row ∈ w'.db := by
  cases h with
  | unchanged db => exact db ▸ hmem
  | commits _ _ db => exact db ▸ (Database.mem_applyAll_of_stable hrow).mpr (.inl hmem)

/-- Invariants that build on the invariant of the world. -/
theorem invariant_of_reachable (contract : service.Contract engine) {P : World service → Prop}
    (hstart : ∀ w, Start w → P w)
    (hstep : ∀ w e w', w.Inv contract → P w → step engine w e = some w' → P w')
    (h : (machine engine service).Reachable w) : P w := by
  have hboth : w.Inv contract ∧ P w :=
    Machine.Reachable.invariant (P := fun w => w.Inv contract ∧ P w)
      (fun w hw => ⟨World.Start.inv hw, hstart w hw⟩)
      (fun w e w' hw hst => ⟨hw.1.of_step hst, hstep w e w' hw.1 hw.2 hst⟩) h
  exact hboth.2

/-- A relation between every two commits, the earlier first, with the databases
they met. -/
def Ordered (R : Transaction → Database → Transaction → Database → Prop)
    (w : World service) : Prop :=
  w.history.Pairwise (fun earlier later =>
    ∀ i tx before clock i' tx' before' clock',
      earlier = .committed i tx before clock → later = .committed i' tx' before' clock' →
      R tx before tx' before')

theorem Ordered.of_split {R : Transaction → Database → Transaction → Database → Prop}
    (h : w.Ordered R) {earlier between later : List Happening} {i i' : Nat}
    {tx tx' : Transaction} {before before' : Database} {clock clock' : Timestamp}
    (hsplit : w.history = earlier ++ .committed i tx before clock ::
      (between ++ .committed i' tx' before' clock' :: later)) : R tx before tx' before' := by
  rw [Ordered, hsplit] at h
  have hcons := (List.pairwise_append.mp h).2.1
  exact (List.pairwise_cons.mp hcons).1 (.committed i' tx' before' clock') (by simp)
    _ _ _ _ _ _ _ _ rfl rfl

/-- Of two commits one comes first. -/
theorem Ordered.forall_mem_or {R : Transaction → Database → Transaction → Database → Prop}
    (h : w.Ordered R) {i j : Nat} {tx tx' : Transaction} {before before' : Database}
    {clock clock' : Timestamp} (hmem : .committed i tx before clock ∈ w.history)
    (hmem' : .committed j tx' before' clock' ∈ w.history)
    (hne : Happening.committed i tx before clock ≠ .committed j tx' before' clock') :
    R tx before tx' before' ∨ R tx' before' tx before := by
  obtain ⟨earlier, later, hsplit⟩ := List.append_of_mem hmem
  rw [Ordered, hsplit] at h
  rw [hsplit] at hmem'
  obtain ⟨-, hcons, hcross⟩ := List.pairwise_append.mp h
  obtain hearlier | hlater := List.mem_append.mp hmem'
  · exact .inr (hcross _ hearlier _ List.mem_cons_self _ _ _ _ _ _ _ _ rfl rfl)
  · obtain heq | hlater := List.mem_cons.mp hlater
    · exact absurd heq.symm hne
    · exact .inl ((List.pairwise_cons.mp hcons).1 _ hlater _ _ _ _ _ _ _ _ rfl rfl)

/-- It holds when each commit stands in it to the commits of its past. -/
theorem ordered_of_reachable (contract : service.Contract engine) {P : World service → Prop}
    {R : Transaction → Database → Transaction → Database → Prop}
    (hpast : ∀ w, (machine engine service).Reachable w → P w)
    (hcommit : ∀ w, w.Inv contract → P w → ∀ i tx before clock j tx',
      .committed i tx before clock ∈ w.history → w.Opened j tx' → R tx before tx' w.db)
    (h : (machine engine service).Reachable w) : w.Ordered R := by
  have hboth : (machine engine service).Reachable w ∧ w.Ordered R := by
    refine Machine.Reachable.invariant
      (P := fun w => (machine engine service).Reachable w ∧ w.Ordered R) ?_ ?_ h
    · intro w hw
      refine ⟨.of_start hw, ?_⟩
      simp [Ordered, (show Start w from hw).history]
    · rintro w e w' ⟨hw, hordered⟩ hst
      refine ⟨hw.step hst, ?_⟩
      have hinv := inv_of_reachable contract hw
      cases hinv.shared hst with
      | unchanged db clock reads history heads =>
          rw [Ordered, history]
          refine List.pairwise_append.mpr ⟨hordered, ?_, ?_⟩
          · refine List.Pairwise.imp_of_mem ?_ (List.pairwise_of_forall (fun _ _ => trivial))
            intro a b ha _ _ i tx before clock _ _ _ _ heq
            obtain ⟨_, _, _, hread⟩ := heads a ha
            cases hread.symm.trans heq
          · intro a _ b hb i tx before clock i' tx' before' clock' _ heq
            obtain ⟨_, _, _, hread⟩ := heads b hb
            cases hread.symm.trans heq
      | @commits j _ tx _ opened db clock history =>
          rw [Ordered, history]
          refine List.pairwise_append.mpr ⟨hordered, List.pairwise_singleton _ _, ?_⟩
          rintro a ha b hb i tx' before clock' i' tx'' before' clock'' rfl rfl
          obtain ⟨rfl, rfl, rfl, rfl⟩ := Happening.committed.inj (List.mem_singleton.mp hb)
          exact hcommit w hinv (hpast w hw) i tx' before clock' i' tx'' ha opened
  exact hboth.2

section Keys

/-- The keys of committed rows are taken. -/
def Taken (w : World service) : Prop :=
  ∀ i tx before clock, .committed i tx before clock ∈ w.history →
    ∀ key ∈ tx.newKeys, key ∈ w.db.keys

theorem Taken.step (hinv : w.Inv contract) (hpast : w.Taken)
    (h : World.step engine w e = some w') : w'.Taken := by
  have hshared := hinv.shared h
  intro i tx before clock hmem key hkey
  obtain hold | ⟨-, -, -, hdb⟩ := hshared.mem_committed hmem
  · exact hshared.keys_subset (hpast i tx before clock hold key hkey)
  · obtain ⟨write, hwrite, hkey⟩ := List.mem_flatMap.mp hkey
    exact hdb ▸ Database.newKeys_subset_applyAll hwrite hkey

theorem taken_of_reachable (contract : service.Contract engine)
    (h : (machine engine service).Reachable w) : w.Taken :=
  invariant_of_reachable contract
    (fun w hw i tx before clock hmem => by simp [hw.history] at hmem)
    (fun _ _ _ hinv hpast hst => hpast.step hinv hst) h

/-- No two commits insert the same key. -/
theorem newKeys_disjoint (contract : service.Contract engine)
    (h : (machine engine service).Reachable w) :
    w.Ordered (fun tx _ tx' _ => List.Disjoint tx.newKeys tx'.newKeys) := by
  refine ordered_of_reachable contract (fun w => taken_of_reachable contract) ?_ h
  intro w hinv htaken i tx before clock j tx' hmem hopen key hkey hkey'
  exact (hinv.sound j tx' hopen).fresh key hkey' (htaken i tx before clock hmem key hkey)

/-- A key is inserted by one commit of one call. -/
theorem commit_of_key (contract : service.Contract engine)
    (h : (machine engine service).Reachable w) {i j : Nat} {tx tx' : Transaction}
    {before before' : Database} {clock clock' : Timestamp}
    (hmem : .committed i tx before clock ∈ w.history)
    (hmem' : .committed j tx' before' clock' ∈ w.history) {key : Key}
    (hkey : key ∈ tx.newKeys) (hkey' : key ∈ tx'.newKeys) : i = j ∧ tx = tx' := by
  by_contra hne
  have hne' : Happening.committed i tx before clock ≠ .committed j tx' before' clock' := by
    rintro ⟨⟩
    exact hne ⟨rfl, rfl⟩
  have hordered := newKeys_disjoint contract h
  obtain hbefore | hafter := hordered.forall_mem_or hmem hmem' hne'
  · exact hbefore hkey hkey'
  · exact hafter hkey' hkey

end Keys

section Heads

/-- A moved head has a revision that is new to the database. -/
theorem revision_fresh {db : Database} {now : Timestamp} {tx : Transaction}
    (h : tx.Sound db now) {row : SystemWriteHead} (hrow : Write.head row ∈ tx.writes) :
    Key.revision row.revisionId ∉ db.keys := by
  obtain ⟨-, -, revision, hrevision, hid⟩ := h.moved row hrow
  refine h.fresh _ (List.mem_flatMap.mpr ⟨_, hrevision, ?_⟩)
  simp [Write.newKeys, Row.keys, hid]

/-- The head's revision is a row of the database. -/
theorem revision_of_head {db : Database} (hclosed : db.Closed) {id : LocalId}
    {row : SystemWriteHead} (h : db.head? id = some row) :
    ∃ revision, Row.systemRevision revision ∈ db ∧ revision.id = row.revisionId ∧
      revision.systemId = row.systemId ∧ revision.artifactId = row.artifactId := by
  obtain ⟨hmem, -⟩ := Database.head?_mem h
  have hmeets := hclosed _ hmem (.revision row.revisionId row.systemId row.artifactId)
    (by simp [Row.requires])
  obtain ⟨found, hfound, hprovides⟩ := Database.meets_iff.mp hmeets
  obtain ⟨revision, rfl, hrevision⟩ := provides_revision.mp hprovides
  exact ⟨revision, hfound, hrevision⟩

theorem revision_key_of_head {db : Database} (hclosed : db.Closed) {id : LocalId}
    {row : SystemWriteHead} (h : db.head? id = some row) :
    Key.revision row.revisionId ∈ db.keys := by
  obtain ⟨revision, hmem, hid, -⟩ := revision_of_head hclosed h
  exact List.mem_flatMap.mpr ⟨_, hmem, by simp [Row.keys, hid]⟩

/-- Every head a commit replaced is gone for good. -/
def Superseded (w : World service) : Prop :=
  ∀ i tx before clock, .committed i tx before clock ∈ w.history →
    ∀ id r, tx.replaces id r →
      (∃ row, before.head? id = some row ∧ row.revisionId = r) ∧
      Key.revision r ∈ w.db.keys ∧ ∃ row, w.db.head? id = some row ∧ row.revisionId ≠ r

theorem Superseded.step (hinv : w.Inv contract) (hpast : w.Superseded)
    (h : World.step engine w e = some w') : w'.Superseded := by
  have hshared := hinv.shared h
  intro i tx before clock hmem id r hreplaces
  obtain hold | ⟨hopen, rfl, rfl, hdb⟩ := hshared.mem_committed hmem
  · obtain ⟨hbefore, hkey, row, hrow, hne⟩ := hpast i tx before clock hold id r hreplaces
    refine ⟨hbefore, hshared.keys_subset hkey, ?_⟩
    cases hshared with
    | unchanged db => exact ⟨row, db.symm ▸ hrow, hne⟩
    | @commits j _ tx' _ opened db =>
        obtain ⟨row', hrow', ⟨rfl, -⟩ | ⟨hmoved, -⟩⟩ := Database.head?_applyAll tx'.writes hrow
        · exact ⟨row', db.symm ▸ hrow', hne⟩
        · refine ⟨row', db.symm ▸ hrow', ?_⟩
          rintro rfl
          exact revision_fresh (hinv.sound j tx' opened) hmoved hkey
  · obtain ⟨⟨moved, hmoved, hid⟩, hhead⟩ := hreplaces
    have hsound := hinv.sound i tx hopen
    have hlock := (hsound.moved moved hmoved).1
    obtain ⟨row, hrow, hrev⟩ := hsound.head id r (hid ▸ hlock) hhead
    have hkey : Key.revision r ∈ w.db.keys := hrev ▸ revision_key_of_head hinv.closed hrow
    refine ⟨⟨row, hrow, hrev⟩, hshared.keys_subset hkey, ?_⟩
    obtain ⟨row', hrow', ⟨-, hnone⟩ | ⟨hmoved', -⟩⟩ := Database.head?_applyAll tx.writes hrow
    · exact absurd hid (hnone moved hmoved)
    · refine ⟨row', hdb.symm ▸ hrow', ?_⟩
      rintro rfl
      exact revision_fresh hsound hmoved' hkey

theorem superseded_of_reachable (contract : service.Contract engine)
    (h : (machine engine service).Reachable w) : w.Superseded :=
  invariant_of_reachable contract
    (fun w hw i tx before clock hmem => by simp [hw.history] at hmem)
    (fun _ _ _ hinv hpast hst => hpast.step hinv hst) h

/-- Two commits never replace the same head. -/
theorem replaces_distinct (contract : service.Contract engine)
    (h : (machine engine service).Reachable w) :
    w.Ordered (fun tx _ tx' _ => ∀ id r r', tx.replaces id r → tx'.replaces id r' → r ≠ r') := by
  refine ordered_of_reachable contract (fun w => superseded_of_reachable contract) ?_ h
  rintro w hinv hpast i tx before clock j tx' hmem hopen id r r' hreplaces
    ⟨⟨moved, hmoved, hid⟩, hhead⟩ rfl
  obtain ⟨-, -, row, hrow, hne⟩ := hpast i tx before clock hmem id r hreplaces
  have hsound := hinv.sound j tx' hopen
  have hlock := (hsound.moved moved hmoved).1
  obtain ⟨row', hrow', hrev⟩ := hsound.head id r (hid ▸ hlock) hhead
  obtain rfl := Option.some.inj (hrow.symm.trans hrow')
  exact hne hrev

/-- Since it read a head, nobody else has moved it. -/
def ReadSince (history : List Happening) (i : Nat) (id : LocalId)
    (head : Option RevisionId) : Prop :=
  ∃ earlier since, history = earlier ++ .headRead i id head :: since ∧
    ∀ j tx before clock, .committed j tx before clock ∈ since → ¬ tx.moves id

theorem ReadSince.append {history more : List Happening} {i : Nat} {id : LocalId}
    {head : Option RevisionId} (h : ReadSince history i id head)
    (hmore : ∀ j tx before clock, .committed j tx before clock ∈ more → ¬ tx.moves id) :
    ReadSince (history ++ more) i id head := by
  obtain ⟨earlier, since, rfl, hsince⟩ := h
  refine ⟨earlier, since ++ more, by simp, fun j tx before clock hmem => ?_⟩
  obtain hmem | hmem := List.mem_append.mp hmem
  · exact hsince j tx before clock hmem
  · exact hmore j tx before clock hmem

/-- Open transactions and commits were preceded by the read of their head. -/
structure HeadsRead (w : World service) : Prop where
  opened : ∀ i tx, w.Opened i tx → ∀ id head, tx.systemLock = some id → tx.head = some head →
    ReadSince w.history i id head
  committed : ∀ earlier i tx before clock later,
    w.history = earlier ++ .committed i tx before clock :: later →
    ∀ id head, tx.systemLock = some id → tx.head = some head → ReadSince earlier i id head

/-- How a head comes to be noted in the open transaction. -/
theorem effect_head {others : List Session} {db : Database} {now : Timestamp}
    {before : Option Transaction} {tx : Transaction}
    {reads : List (LocalId × Option RevisionId)}
    (hbefore : ∀ tx, before = some tx → tx.Sound db now)
    (h : Effect engine others db now before (some tx) reads) {id : LocalId}
    {head : Option RevisionId} (hlock : tx.systemLock = some id) (hhead : tx.head = some head) :
    reads = [(id, head)] ∨
      (reads = [] ∧ ∃ old, before = some old ∧ old.systemLock = some id ∧
        old.head = some head) := by
  cases h with
  | same => exact .inr ⟨rfl, tx, rfl, hlock, hhead⟩
  | began => cases hhead
  | scopeLocked => exact .inr ⟨rfl, _, rfl, hlock, hhead⟩
  | @systemLocked tx id' free apart =>
      have := (hbefore tx rfl).locked head hhead
      rw [free] at this
      cases this
  | denialsLocked => exact .inr ⟨rfl, _, rfl, hlock, hhead⟩
  | wrote => exact .inr ⟨rfl, _, rfl, hlock, hhead⟩
  | stored => exact .inr ⟨rfl, _, rfl, hlock, hhead⟩
  | lookedUp => exact .inr ⟨rfl, _, rfl, hlock, hhead⟩
  | headRead lock =>
      obtain rfl := Option.some.inj (lock.symm.trans hlock)
      obtain rfl := Option.some.inj hhead
      exact .inl rfl
  | decided => exact .inr ⟨rfl, _, rfl, hlock, hhead⟩

/-- Reads of heads add no commit to a history. -/
theorem committed_before_reads {history reads earlier later : List Happening} {i : Nat}
    {tx : Transaction} {before : Database} {clock : Timestamp}
    (hreads : ∀ happening ∈ reads, ∃ i id head, happening = .headRead i id head)
    (h : history ++ reads = earlier ++ .committed i tx before clock :: later) :
    ∃ rest, history = earlier ++ .committed i tx before clock :: rest := by
  induction reads using List.reverseRecOn generalizing later with
  | nil => exact ⟨later, by simpa using h⟩
  | append_singleton reads last ih =>
      rw [← List.append_assoc] at h
      obtain ⟨-, rfl, -⟩ | ⟨rest, -, hrest⟩ := snoc_eq_append_cons h
      · obtain ⟨_, _, _, heq⟩ := hreads (.committed i tx before clock) (by simp)
        cases heq
      · exact ih (fun happening hmem => hreads happening (List.mem_append_left _ hmem)) hrest

theorem HeadsRead.step_opened (hinv : w.Inv contract) (hpast : w.HeadsRead)
    (h : World.step engine w e = some w') {i : Nat} {tx : Transaction} (hopen : w'.Opened i tx)
    {id : LocalId} {head : Option RevisionId} (hlock : tx.systemLock = some id)
    (hhead : tx.head = some head) : ReadSince w'.history i id head := by
  cases stepped h with
  | started request =>
      obtain ⟨call, hcall, htx⟩ := hopen
      rw [List.getElem?_append] at hcall
      split at hcall
      · exact hpast.opened i tx ⟨call, hcall, htx⟩ id head hlock hhead
      · rw [List.getElem?_singleton] at hcall
        split at hcall
        · obtain rfl := Option.some.inj hcall
          cases htx
        · cases hcall
  | ticked => exact hpast.opened i tx hopen id head hlock hhead
  | @dropped j call hcall =>
      obtain ⟨call', hcall', htx⟩ := hopen
      by_cases hj : i = j
      · subst hj
        obtain ⟨hi, -⟩ := List.getElem?_eq_some_iff.mp hcall
        obtain rfl : _ = call' := by simpa [hi] using hcall'
        cases htx
      · exact hpast.opened i tx ⟨call', by simpa [Ne.symm hj] using hcall', htx⟩ id head hlock
          hhead
  | @performed j choice call s next done hcall hrest hdone =>
      have hpermits := (hinv.step_kept hcall hrest hdone).1
      have heffect := perform_effect hpermits hdone
      -- a commit of call `j` does not move a head that another call has locked
      have hapart : ∀ tx', done.2.2 = some tx' → i ≠ j → w.Opened i tx → ¬ tx'.moves id := by
        rintro tx' hcommitted hne hopen ⟨row, hrow, rfl⟩
        obtain ⟨htx', -, -⟩ := perform_committed hpermits hdone hcommitted
        have hopen' : w.Opened j tx' := ⟨call, hcall, htx'⟩
        exact (hinv.apart i j tx tx' hne hopen hopen').systems _ hlock
          ((hinv.sound j tx' hopen').moved row hrow).1
      obtain ⟨rfl, htx⟩ | ⟨hne, hold⟩ := opened_after hcall hopen
      · have hnone : done.2.2 = none := by
          cases hcommitted : done.2.2 with
          | none => rfl
          | some tx' =>
              rw [(perform_committed hpermits hdone hcommitted).2.2] at htx
              cases htx
        have hhistory : (w.after i call s next done).history =
            w.history ++ s.happened i done.1 := by simp [World.after, hnone]
        rw [htx] at heffect
        rw [hhistory]
        obtain hread | ⟨hread, old, hold, holdlock, holdhead⟩ := effect_head
          (fun tx htx => hinv.sound i tx ⟨call, hcall, htx⟩) heffect hlock hhead
        · exact ⟨w.history, [], by simp [Statement.happened, hread], by simp⟩
        · rw [Statement.happened, hread, List.map_nil, List.append_nil]
          exact hpast.opened i old ⟨call, hcall, hold⟩ id head holdlock holdhead
      · have hold' := hpast.opened i tx hold id head hlock hhead
        simp only [World.after, List.append_assoc]
        refine hold'.append ?_
        intro k tx' before clock hmem
        obtain hmem | hmem := List.mem_append.mp hmem
        · obtain ⟨read, -, heq⟩ := List.mem_map.mp hmem
          cases heq
        · obtain ⟨tx'', htx'', heq⟩ := List.mem_map.mp hmem
          obtain ⟨-, rfl, -, -⟩ := Happening.committed.inj heq
          exact hapart tx'' (Option.mem_toList.mp htx'') hne hold

theorem HeadsRead.step (hinv : w.Inv contract) (hpast : w.HeadsRead)
    (h : World.step engine w e = some w') : w'.HeadsRead where
  opened := fun i tx hopen id head => hpast.step_opened hinv h hopen
  committed := fun earlier i tx before clock later hsplit id head hlock hhead => by
    cases hinv.shared h with
    | unchanged _ _ reads history heads =>
        rw [history] at hsplit
        obtain ⟨rest, hrest⟩ := committed_before_reads heads hsplit
        exact hpast.committed earlier i tx before clock rest hrest id head hlock hhead
    | commits _ opened _ _ history =>
        rw [history] at hsplit
        obtain ⟨-, heq, rfl⟩ | ⟨rest, -, hrest⟩ := snoc_eq_append_cons hsplit
        · obtain ⟨rfl, rfl, -, -⟩ := Happening.committed.inj heq
          exact hpast.opened i tx opened id head hlock hhead
        · exact hpast.committed earlier i tx before clock rest hrest id head hlock hhead

theorem headsRead_of_reachable (contract : service.Contract engine)
    (h : (machine engine service).Reachable w) : w.HeadsRead :=
  invariant_of_reachable contract
    (fun w hw => {
      opened := fun i tx hopen => by
        obtain ⟨call, hcall, -⟩ := hopen
        simp [hw.calls] at hcall
      committed := fun earlier i tx before clock later hsplit => by
        simp [hw.history] at hsplit })
    (fun _ _ _ hinv hpast hst => hpast.step hinv hst) h

end Heads

section Retention

/-- The row of a scope has been in place since the commit that stored it, or from
the start, and its scope has delivered nothing else since. -/
def DeliveredSince (w : World service) (row : SystemCreateRetry) : Prop :=
  ∃ earlier since, w.history = earlier ++ since ∧
    (earlier = [] ∨ ∃ i tx before clock rest,
      since = .committed i tx before clock :: rest ∧ Write.retry row ∈ tx.writes) ∧
    ∀ i tx before clock, .committed i tx before clock ∈ since →
      tx.scopeLock = some row.scope → ∀ receipt, tx.delivers receipt → receipt = row.receipt

def Delivered (w : World service) : Prop :=
  ∀ scope row, w.db.retryRow? scope = some row → w.DeliveredSince row

/-- What a COMMIT does to the retention row of a scope. -/
theorem retryRow?_commit {db : Database} {now : Timestamp} {tx : Transaction}
    (h : tx.Sound db now) (scope : RetryScope) :
    ((db.applyAll tx.writes).retryRow? scope = db.retryRow? scope ∧
        ∀ row, Write.retry row ∈ tx.writes → row.scope ≠ scope) ∨
      ∃ row, Write.retry row ∈ tx.writes ∧ row.scope = scope ∧
        (db.applyAll tx.writes).retryRow? scope = some row ∧ row.retainedAt ≤ now ∧
        (∀ old, db.retryRow? scope = some old → old.expiresAt ≤ row.retainedAt) ∧
        tx.emits row.receipt := by
  obtain hsame | ⟨row, hrow, rfl, hstored⟩ :=
    Database.retryRow?_applyAll db scope h.unscoped
  · exact .inl hsame
  · obtain ⟨-, hemits, hclock, hold⟩ := h.stored row hrow
    exact .inr ⟨row, hrow, rfl, hstored, hclock, hold, hemits⟩

/-- A transaction that stores no row of its scope delivers the row in place. -/
theorem delivers_row {db : Database} {now : Timestamp} {tx : Transaction}
    (h : tx.Sound db now) {row : SystemCreateRetry} (hrow : db.retryRow? row.scope = some row)
    (hlock : tx.scopeLock = some row.scope)
    (hnone : ∀ stored, Write.retry stored ∈ tx.writes → stored.scope ≠ row.scope)
    {receipt : WriteReceipt} (hdelivers : tx.delivers receipt) : receipt = row.receipt := by
  obtain ⟨stored, hstored, -⟩ | ⟨-, clock, found, hlooked, rfl⟩ := hdelivers
  · have := (h.stored stored hstored).1
    rw [hlock] at this
    exact absurd (Option.some.inj this).symm (hnone stored hstored)
  · obtain ⟨-, scope, hscope, hfound⟩ := h.looked clock (some found) hlooked
    obtain rfl := Option.some.inj (hlock.symm.trans hscope)
    obtain ⟨hfound, -⟩ := Option.filter_eq_some_iff.mp hfound.symm
    rw [Option.some.inj (hfound.symm.trans hrow)]

theorem Delivered.step (hinv : w.Inv contract) (hpast : w.Delivered)
    (h : World.step engine w e = some w') : w'.Delivered := by
  intro scope row hrow
  obtain ⟨-, rfl⟩ := Database.retryRow?_mem hrow
  cases hinv.shared h with
  | unchanged db _ reads history heads =>
      obtain ⟨earlier, since, hsplit, hstart, hsince⟩ := hpast row.scope row (db ▸ hrow)
      refine ⟨earlier, since ++ reads, by rw [history, hsplit, List.append_assoc], ?_, ?_⟩
      · obtain hnil | ⟨i, tx, before, clock, rest, rfl, hstored⟩ := hstart
        · exact .inl hnil
        · exact .inr ⟨i, tx, before, clock, rest ++ reads, rfl, hstored⟩
      · intro i tx before clock hmem
        obtain hmem | hmem := List.mem_append.mp hmem
        · exact hsince i tx before clock hmem
        · obtain ⟨_, _, _, heq⟩ := heads _ hmem
          cases heq
  | @commits j _ tx' _ opened db _ history =>
      have hsound := hinv.sound j tx' opened
      rw [db] at hrow
      obtain ⟨hsame, hnone⟩ | ⟨stored, hstored, -, hnew, -⟩ := retryRow?_commit hsound row.scope
      · rw [hsame] at hrow
        obtain ⟨earlier, since, hsplit, hstart, hsince⟩ := hpast row.scope row hrow
        refine ⟨earlier, since ++ [.committed j tx' w.db w.now],
          by rw [history, hsplit, List.append_assoc], ?_, ?_⟩
        · obtain hnil | ⟨i, tx, before, clock, rest, rfl, hstored⟩ := hstart
          · exact .inl hnil
          · exact .inr ⟨i, tx, before, clock, rest ++ _, rfl, hstored⟩
        · intro i tx before clock hmem hlock receipt hdelivers
          obtain hmem | hmem := List.mem_append.mp hmem
          · exact hsince i tx before clock hmem hlock receipt hdelivers
          · obtain ⟨-, rfl, -, -⟩ := Happening.committed.inj (List.mem_singleton.mp hmem)
            exact delivers_row hsound hrow hlock hnone hdelivers
      · rw [hnew] at hrow
        obtain rfl := Option.some.inj hrow
        refine ⟨w.history, [.committed j tx' w.db w.now], history,
          .inr ⟨j, tx', w.db, w.now, [], rfl, hstored⟩, ?_⟩
        intro i tx before clock hmem hlock receipt hdelivers
        obtain ⟨-, rfl, -, -⟩ := Happening.committed.inj (List.mem_singleton.mp hmem)
        obtain ⟨other, hother, rfl⟩ | ⟨hclean, -⟩ := hdelivers
        · rw [hsound.storedOnce other stored hother hstored]
        · rw [hclean] at hstored
          cases hstored

theorem delivered_of_reachable (contract : service.Contract engine)
    (h : (machine engine service).Reachable w) : w.Delivered :=
  invariant_of_reachable contract
    (fun w hw _ row _ => ⟨[], w.history, rfl, .inl rfl, fun i tx before clock hmem => by
      simp [hw.history] at hmem⟩)
    (fun _ _ _ hinv hpast hst => hpast.step hinv hst) h

/-- A step replaces a retention row only once it has expired. -/
theorem Inv.retention_step (hinv : w.Inv contract) (h : World.step engine w e = some w')
    {scope : RetryScope} {row : SystemCreateRetry} (hrow : w.db.retryRow? scope = some row) :
    w'.db.retryRow? scope = some row ∨ row.expiresAt ≤ w'.now := by
  cases hinv.shared h with
  | unchanged db => exact .inl (db.symm ▸ hrow)
  | @commits j _ tx _ opened db clock =>
      obtain ⟨hsame, -⟩ | ⟨stored, -, -, -, hclock, hold, -⟩ :=
        retryRow?_commit (hinv.sound j tx opened) scope
      · exact .inl ((db.symm ▸ hsame).trans hrow)
      · exact .inr (((hold row hrow).trans hclock).trans clock.ge)

/-- **Retention.**  An unexpired row is still the row of its scope. -/
theorem retention (contract : service.Contract engine)
    (hw : (machine engine service).Reachable w) (h : (machine engine service).Leads w w')
    {scope : RetryScope} {row : SystemCreateRetry} (hrow : w.db.retryRow? scope = some row)
    (hunexpired : w'.now < row.expiresAt) : w'.db.retryRow? scope = some row := by
  have hkept : w'.db.retryRow? scope = some row ∨ row.expiresAt ≤ w'.now := by
    induction h with
    | refl => exact .inl hrow
    | @step s' s'' e hrun hst ih =>
        have hinv := inv_of_reachable contract (hw.leads hrun)
        have hclock := (hinv.shared hst).clock_le
        obtain hrow' | hexpired := ih (lt_of_le_of_lt hclock hunexpired)
        · exact hinv.retention_step hst hrow'
        · exact .inr (hexpired.trans hclock)
  exact hkept.resolve_right (Nat.not_le.mpr hunexpired)

/-- What a commit has delivered is a creation's evidence in the database. -/
def Evident (w : World service) : Prop :=
  ∀ i tx before clock, .committed i tx before clock ∈ w.history →
    ∀ receipt, tx.delivers receipt → w.db.meets (.work receipt) = true

theorem Evident.step (hinv : w.Inv contract) (hpast : w.Evident)
    (h : World.step engine w e = some w') : w'.Evident := by
  have hshared := hinv.shared h
  intro i tx before clock hmem receipt hdelivers
  obtain hold | ⟨hopen, -, -, hdb⟩ := hshared.mem_committed hmem
  · exact hshared.meets (hpast i tx before clock hold receipt hdelivers)
  · have hsound := hinv.sound i tx hopen
    obtain ⟨row, hrow, rfl⟩ | ⟨-, clock', row, hlooked, rfl⟩ := hdelivers
    · rw [hdb]
      exact hsound.met _ hrow _ (by simp [Write.requires, Row.requires])
    · obtain ⟨-, scope, -, hfound⟩ := hsound.looked clock' (some row) hlooked
      obtain ⟨hfound, -⟩ := Option.filter_eq_some_iff.mp hfound.symm
      exact hshared.meets (hinv.closed _ (Database.retryRow?_mem hfound).1 _
        (by simp [Row.requires]))

theorem evident_of_reachable (contract : service.Contract engine)
    (h : (machine engine service).Reachable w) : w.Evident :=
  invariant_of_reachable contract
    (fun w hw i tx before clock hmem => by simp [hw.history] at hmem)
    (fun _ _ _ hinv hpast hst => hpast.step hinv hst) h

theorem work_key {db : Database} {receipt : WriteReceipt}
    (h : db.meets (.work receipt) = true) : Key.work receipt.eventId ∈ db.keys := by
  obtain ⟨found, hfound, hprovides⟩ := Database.meets_iff.mp h
  obtain rfl := provides_work.mp hprovides
  exact List.mem_flatMap.mpr ⟨_, hfound, by simp [Row.keys]⟩

theorem emitted_fresh {db : Database} {now : Timestamp} {tx : Transaction}
    (h : tx.Sound db now) {receipt : WriteReceipt} (hemits : tx.emits receipt) :
    Key.work receipt.eventId ∉ db.keys := by
  refine h.fresh _ (List.mem_flatMap.mpr ⟨_, hemits, ?_⟩)
  simp [Write.newKeys, Row.keys]

/-- The row that a store replaced is gone for good. -/
def Renewed (w : World service) : Prop :=
  ∀ i tx before clock, .committed i tx before clock ∈ w.history →
    ∀ row, Write.retry row ∈ tx.writes → row.retainedAt ≤ clock ∧
      (∀ old, before.retryRow? row.scope = some old → old.expiresAt ≤ row.retainedAt ∧
        Key.work old.receipt.eventId ∈ w.db.keys) ∧
      (∃ new, w.db.retryRow? row.scope = some new) ∧
      w.db.retryRow? row.scope ≠ before.retryRow? row.scope

theorem Renewed.step (hinv : w.Inv contract) (hpast : w.Renewed)
    (h : World.step engine w e = some w') : w'.Renewed := by
  have hshared := hinv.shared h
  intro i tx before clock hmem row hrow
  obtain hold | ⟨hopen, rfl, rfl, hdb⟩ := hshared.mem_committed hmem
  · obtain ⟨hclock, hreplaced, ⟨new, hnew⟩, hne⟩ := hpast i tx before clock hold row hrow
    refine ⟨hclock, fun old hold => ⟨(hreplaced old hold).1,
      hshared.keys_subset (hreplaced old hold).2⟩, ?_⟩
    cases hshared with
    | unchanged db => exact db.symm ▸ ⟨⟨new, hnew⟩, hne⟩
    | @commits j _ tx' _ opened db =>
        have hsound := hinv.sound j tx' opened
        obtain ⟨hsame, -⟩ | ⟨stored, -, -, hstored, -, -, hemits⟩ :=
          retryRow?_commit hsound row.scope
        · rw [db, hsame]
          exact ⟨⟨new, hnew⟩, hne⟩
        · rw [db, hstored]
          refine ⟨⟨stored, rfl⟩, fun heq => ?_⟩
          exact emitted_fresh hsound hemits (hreplaced stored heq.symm).2
  · have hsound := hinv.sound i tx hopen
    have hkey : ∀ old, w.db.retryRow? row.scope = some old →
        Key.work old.receipt.eventId ∈ w.db.keys := fun old hold =>
      work_key (hinv.closed _ (Database.retryRow?_mem hold).1 _ (by simp [Row.requires]))
    obtain ⟨-, hnone⟩ | ⟨stored, hmem', hscope, hstored, hclock, hexpired, hemits⟩ :=
      retryRow?_commit hsound row.scope
    · exact absurd rfl (hnone row hrow)
    · obtain rfl := hsound.storedOnce stored row hmem' hrow
      refine ⟨hclock, fun old hold => ⟨hexpired old hold, hshared.keys_subset (hkey old hold)⟩,
        ?_⟩
      rw [hdb, hstored]
      exact ⟨⟨stored, rfl⟩, fun heq => emitted_fresh hsound hemits (hkey stored heq.symm)⟩

theorem renewed_of_reachable (contract : service.Contract engine)
    (h : (machine engine service).Reachable w) : w.Renewed :=
  invariant_of_reachable contract
    (fun w hw i tx before clock hmem => by simp [hw.history] at hmem)
    (fun _ _ _ hinv hpast hst => hpast.step hinv hst) h

/-- Two stores of one scope never replace the same row. -/
theorem stores_distinct (contract : service.Contract engine)
    (h : (machine engine service).Reachable w) :
    w.Ordered (fun tx before tx' before' => ∀ row row', Write.retry row ∈ tx.writes →
      Write.retry row' ∈ tx'.writes → row.scope = row'.scope →
      before.retryRow? row.scope ≠ before'.retryRow? row.scope) := by
  refine ordered_of_reachable contract (fun w => renewed_of_reachable contract) ?_ h
  intro w _ hpast i tx before clock j tx' hmem _ row row' hrow _ _
  exact (hpast i tx before clock hmem row hrow).2.2.2.symm

end Retention

end World

end Server
end Glaux
