import Glaux.Server.Storage.World

/-!
# What holds while calls are under way

`Transaction.Sound` says how an open transaction stands to the committed
database, and `Apart` how two of them stand to each other.  A statement of the
session itself keeps both by `Effect`; a COMMIT of another session keeps them
because the two are apart.
-/

namespace Glaux
namespace Server

open Domain Library

section Perform

variable {engine : Engine} {accepts : Transaction → Prop} {others : List Session}
  {db : Database} {now : Timestamp} {session : Session} {s : Statement} {choice : Choice}

theorem Session.view_of_open {tx : Transaction} (h : session.transaction = some tx) :
    session.view db = db.applyAll tx.writes := by
  simp [Session.view, Session.writes, h]

/-- A failed statement, or the loss of a COMMIT, changes no open transaction. -/
theorem performFail_transaction {e : StorageError} {done : Performed s}
    (h : performFail session e s = some done) :
    s.headReads done.1 = [] ∧
      (done.2.1.transaction = session.transaction ∨ done.2.1.transaction = none) := by
  cases s <;> simp only [performFail, Option.some.injEq, Option.map_eq_some_iff,
    reduceCtorEq] at h
  case commit => obtain ⟨tx, -, rfl⟩ := h; exact ⟨rfl, .inr rfl⟩
  case rollback => obtain ⟨tx, -, rfl⟩ := h; exact ⟨rfl, .inr rfl⟩
  case query q => cases q <;> exact ⟨h ▸ rfl, .inl (h ▸ rfl)⟩
  all_goals exact ⟨h ▸ rfl, .inl (h ▸ rfl)⟩

/-- What a query leaves in the open transaction. -/
theorem query_effect {q : Query} (hpermits : session.permits accepts (.query q)) :
    Effect engine others db now session.transaction
      (session.note now q (q.eval engine now (session.view db))).transaction
      (Statement.headReads (.query q) (.ok (q.eval engine now (session.view db)))) := by
  cases q with
  | retry scope =>
      obtain ⟨tx, htx, hlock, hclean⟩ := hpermits
      rw [Session.view_of_open htx, hclean, htx]
      simp only [Session.note, Session.updateTransaction, htx, Option.map_some]
      exact .lookedUp hlock hclean
  | head id =>
      obtain ⟨tx, htx, hlock, hclean⟩ := hpermits
      rw [Session.view_of_open htx, hclean, htx]
      simp only [Session.note, Session.updateTransaction, htx, Option.map_some]
      exact .headRead hlock hclean
  | _ => exact .same _

theorem run_effect (hpermits : session.permits accepts s) {done : Performed s}
    (h : performRun engine others db now session s = some done) :
    Effect engine others db now session.transaction done.2.1.transaction
      (s.headReads done.1) := by
  cases s with
  | query q =>
      obtain rfl := Option.some.inj h
      exact query_effect hpermits
  | begin =>
      simp only [performRun] at h
      split at h
      next => cases h
      next =>
        obtain rfl := Option.some.inj h
        have hnone : session.transaction = none := hpermits
        rw [hnone]
        exact .began
  | lockScope scope =>
      obtain ⟨tx, htx, hfree⟩ := hpermits
      simp only [performRun] at h
      split at h
      next => cases h
      next hothers =>
        obtain rfl := Option.some.inj h
        simp only [Session.updateTransaction, htx, Option.map_some]
        exact .scopeLocked hfree (by simpa using hothers)
  | lockSystem id =>
      obtain ⟨tx, htx, hfree⟩ := hpermits
      simp only [performRun] at h
      split at h
      next => cases h
      next hothers =>
        split at h
        next =>
          obtain rfl := Option.some.inj h
          simp only [Session.updateTransaction, htx, Option.map_some]
          exact .systemLocked hfree (by simpa using hothers)
        next =>
          obtain rfl := Option.some.inj h
          exact .same _
  | lockDenials =>
      obtain ⟨tx, htx⟩ := Option.isSome_iff_exists.mp hpermits
      simp only [performRun] at h
      split at h
      next =>
        obtain rfl := Option.some.inj h
        exact .same _
      next hothers =>
        obtain rfl := Option.some.inj h
        simp only [Session.updateTransaction, htx, Option.map_some]
        exact .denialsLocked (by simpa using hothers)
  | write w =>
      obtain ⟨tx, htx, hmay⟩ := hpermits
      simp only [performRun, performWrite, Option.map_if] at h
      split at h
      next hgo =>
        obtain rfl := Option.some.inj h
        obtain ⟨hfree, hadmits⟩ := Bool.and_eq_true_iff.mp hgo
        rw [Session.view_of_open htx] at hadmits
        simp only [Session.updateTransaction, htx, Option.map_some]
        exact .wrote hmay hfree hadmits
      next => cases h
  | storeRetry scope digest receipt seconds =>
      obtain ⟨tx, htx, hlock, hfirst, hemits⟩ := hpermits
      simp only [performRun, performStore] at h
      split at h
      next hgo =>
        split at h
        next hexpired =>
          obtain rfl := Option.some.inj h
          obtain ⟨-, hadmits⟩ := Bool.and_eq_true_iff.mp hgo
          rw [Session.view_of_open htx] at hadmits hexpired
          simp only [Session.updateTransaction, htx, Option.map_some]
          refine .stored hlock hfirst hemits rfl hadmits ?_
          intro old hold
          rw [hold] at hexpired
          simpa using hexpired
        next =>
          obtain rfl := Option.some.inj h
          exact .same _
      next => cases h
  | commit =>
      obtain ⟨tx, htx, rfl⟩ := Option.map_eq_some_iff.mp h
      rw [htx]
      exact .ended tx
  | rollback =>
      obtain ⟨tx, htx, rfl⟩ := Option.map_eq_some_iff.mp h
      rw [htx]
      exact .ended tx
  | decided decision =>
      obtain rfl := Option.some.inj h
      cases htx : session.transaction with
      | none =>
          simpa [Session.updateTransaction, htx, Statement.headReads] using Effect.same _
      | some tx =>
          simp only [Session.updateTransaction, htx, Option.map_some]
          refine .decided ?_
          rintro receipt same rfl
          obtain ⟨tx', htx', hlast⟩ := hpermits
          exact Option.some.inj (htx.symm.trans htx') ▸ hlast
  | ask => cases h
  | inTransaction =>
      obtain rfl := Option.some.inj h
      exact .same _
  | setCallbackError =>
      obtain rfl := Option.some.inj h
      exact .same _
  | callbackError =>
      obtain rfl := Option.some.inj h
      exact .same _

theorem ask_effect {question : Question} {done : Performed (.ask question)}
    (h : performAsk session question choice = some done) :
    Effect engine others db now session.transaction done.2.1.transaction [] := by
  cases question with
  | permissions action =>
      cases choice <;> simp only [performAsk, Option.some.injEq, reduceCtorEq] at h
      subst h
      cases htx : session.transaction with
      | none => simpa [Session.updateTransaction, htx] using Effect.same _
      | some tx =>
          simp only [Session.updateTransaction, htx, Option.map_some]
          exact .decided (by simp)
  | _ =>
      cases choice <;> simp only [performAsk, Option.some.injEq, reduceCtorEq] at h
      exact h ▸ .same _

/-- **Effect of a statement.** -/
theorem perform_effect (hpermits : session.permits accepts s) {done : Performed s}
    (h : perform engine others db now session s choice = some done) :
    Effect engine others db now session.transaction done.2.1.transaction
      (s.headReads done.1) := by
  have hfail : ∀ {e}, performFail session e s = some done →
      Effect engine others db now session.transaction done.2.1.transaction
        (s.headReads done.1) := by
    intro e h
    obtain ⟨hreads, hsame | hnone⟩ := performFail_transaction h
    · rw [hreads, hsame]
      exact .same _
    · rw [hreads, hnone]
      cases session.transaction with
      | none => exact .same _
      | some tx => exact .ended tx
  cases choice with
  | run => exact run_effect hpermits h
  | fail e => exact hfail h
  | lost =>
      cases s <;> simp only [perform, reduceCtorEq] at h
      case commit =>
        obtain ⟨tx, htx, rfl⟩ := Option.map_eq_some_iff.mp h
        rw [htx]
        exact .ended tx
      case ask => exact ask_effect h
  | _ =>
      cases s <;> simp only [perform, reduceCtorEq] at h
      exact ask_effect h

/-- Only an accepted transaction is committed, and its session is then done with it. -/
theorem perform_committed (hpermits : session.permits accepts s) {done : Performed s}
    {tx : Transaction} (h : perform engine others db now session s choice = some done)
    (hcommitted : done.2.2 = some tx) :
    session.transaction = some tx ∧ accepts tx ∧ done.2.1.transaction = none := by
  have hcommit : s = .commit ∧ session.transaction = some tx ∧
      done.2.1.transaction = none := by
    cases choice with
    | run =>
        cases s <;> simp only [perform, performRun] at h
        case commit =>
          obtain ⟨tx', htx, rfl⟩ := Option.map_eq_some_iff.mp h
          obtain rfl := Option.some.inj hcommitted
          exact ⟨rfl, htx, rfl⟩
        case rollback =>
          obtain ⟨_, _, rfl⟩ := Option.map_eq_some_iff.mp h
          cases hcommitted
        case write =>
          obtain ⟨_, _, rfl⟩ := Option.map_eq_some_iff.mp h
          cases hcommitted
        case storeRetry =>
          obtain ⟨_, _, rfl⟩ := Option.map_eq_some_iff.mp h
          cases hcommitted
        all_goals
          try split at h
          all_goals try split at h
          all_goals
            first
              | (obtain rfl := Option.some.inj h; cases hcommitted)
              | cases h
    | fail e =>
        cases s <;> simp only [perform, performFail, Option.some.injEq,
          Option.map_eq_some_iff, reduceCtorEq] at h
        case commit => obtain ⟨_, _, rfl⟩ := h; cases hcommitted
        case rollback => obtain ⟨_, _, rfl⟩ := h; cases hcommitted
        all_goals (subst h; cases hcommitted)
    | lost =>
        cases s <;> simp only [perform, reduceCtorEq] at h
        case commit =>
          obtain ⟨tx', htx, rfl⟩ := Option.map_eq_some_iff.mp h
          obtain rfl := Option.some.inj hcommitted
          exact ⟨rfl, htx, rfl⟩
        case ask question => cases question <;> simp [performAsk] at h
    | _ =>
        cases s <;> simp only [perform, reduceCtorEq] at h
        case ask question =>
          cases question <;> simp only [performAsk, Option.some.injEq, reduceCtorEq] at h
          all_goals (subst h; cases hcommitted)
  obtain ⟨rfl, htx, hnone⟩ := hcommit
  obtain ⟨tx', htx', haccepts⟩ := hpermits
  obtain rfl := Option.some.inj (htx.symm.trans htx')
  exact ⟨htx, haccepts, hnone⟩

/-- How the records of a session follow the commits that are carried out. -/
structure Session.Records (session session' : Session) (committed : Option Transaction) :
    Prop where
  counted : session.committed.length + session.doubtful.length + committed.toList.length ≤
    session'.committed.length + session'.doubtful.length
  acknowledged : ∀ tx ∈ session'.committed, tx ∈ session.committed ∨ committed = some tx
  carriedOut : ∀ tx, committed = some tx → tx ∈ session'.committed ∨ tx ∈ session'.doubtful
  committed : ∀ tx ∈ session.committed, tx ∈ session'.committed
  doubtful : ∀ tx ∈ session.doubtful, tx ∈ session'.doubtful

theorem Session.Records.of_eq {session session' : Session}
    (hcommitted : session'.committed = session.committed)
    (hdoubtful : session'.doubtful = session.doubtful) :
    session.Records session' none where
  acknowledged := fun tx h => .inl (hcommitted ▸ h)
  carriedOut := by simp
  committed := fun tx h => hcommitted.symm ▸ h
  doubtful := fun tx h => hdoubtful.symm ▸ h
  counted := by simp [hcommitted, hdoubtful]

theorem Session.records_commit (tx : Transaction) :
    session.Records (session.commit tx) (some tx) where
  acknowledged := fun tx' h => by
    obtain h | h := List.mem_append.mp h
    · exact .inl h
    · exact .inr (congrArg some (List.mem_singleton.mp h).symm)
  carriedOut := by simp [Session.commit]
  committed := fun tx' h => List.mem_append_left _ h
  doubtful := fun tx' h => h
  counted := by
    simp only [Session.commit, List.length_append, List.length_singleton, Option.toList_some]
    omega

theorem Session.records_doubt (tx : Transaction) (committed : Option Transaction)
    (h : ∀ tx', committed = some tx' → tx' = tx) :
    session.Records (session.doubt tx) committed where
  acknowledged := fun tx' h => .inl h
  carriedOut := fun tx' h' => .inr (by simp [Session.doubt, h tx' h'])
  committed := fun tx' h => h
  doubtful := fun tx' h => List.mem_append_left _ h
  counted := by
    have : committed.toList.length ≤ 1 := by cases committed <;> simp
    simp only [Session.doubt, List.length_append, List.length_singleton]
    omega

theorem Session.note_records (q : Query) (result : q.Result) :
    session.Records (session.note now q result) none := by
  cases q <;> exact .of_eq rfl rfl

theorem perform_records {done : Performed s}
    (h : perform engine others db now session s choice = some done) :
    session.Records done.2.1 done.2.2 := by
  cases choice with
  | run =>
      cases s <;> simp only [perform, performRun] at h
      case query q =>
        obtain rfl := Option.some.inj h
        exact Session.note_records q _
      case commit =>
        obtain ⟨tx, -, rfl⟩ := Option.map_eq_some_iff.mp h
        exact Session.records_commit tx
      case rollback =>
        obtain ⟨tx, -, rfl⟩ := Option.map_eq_some_iff.mp h
        exact .of_eq rfl rfl
      case write =>
        obtain ⟨session', hwrite, rfl⟩ := Option.map_eq_some_iff.mp h
        simp only [performWrite] at hwrite
        split at hwrite
        · obtain rfl := Option.some.inj hwrite
          exact .of_eq rfl rfl
        · cases hwrite
      case storeRetry =>
        obtain ⟨⟨stored, session'⟩, hstore, rfl⟩ := Option.map_eq_some_iff.mp h
        simp only [performStore] at hstore
        split at hstore
        · split at hstore
          all_goals
            obtain ⟨-, rfl⟩ := Prod.mk.inj (Option.some.inj hstore)
            exact .of_eq rfl rfl
        · cases hstore
      all_goals
        try split at h
        all_goals try split at h
        all_goals
          first
            | (obtain rfl := Option.some.inj h; exact .of_eq rfl rfl)
            | cases h
  | fail e =>
      cases s <;> simp only [perform, performFail, Option.some.injEq,
        Option.map_eq_some_iff, reduceCtorEq] at h
      case commit =>
        obtain ⟨tx, -, rfl⟩ := h
        exact Session.records_doubt tx none (by simp)
      case rollback =>
        obtain ⟨tx, -, rfl⟩ := h
        exact .of_eq rfl rfl
      all_goals (subst h; exact .of_eq rfl rfl)
  | lost =>
      cases s <;> simp only [perform, reduceCtorEq] at h
      case commit =>
        obtain ⟨tx, -, rfl⟩ := Option.map_eq_some_iff.mp h
        exact Session.records_doubt tx (some tx) (by simp)
      case ask question => cases question <;> simp [performAsk] at h
  | _ =>
      cases s <;> simp only [perform, reduceCtorEq] at h
      case ask question =>
        cases question <;> simp only [performAsk, Option.some.injEq, reduceCtorEq] at h
        all_goals (subst h; exact .of_eq rfl rfl)

end Perform

section Sound

variable {engine : Engine} {others : List Session} {db : Database} {now now' : Timestamp}
  {tx tx' : Transaction}

def Transaction.newKeys (tx : Transaction) : List Key :=
  tx.writes.flatMap Write.newKeys

/-- How an open transaction stands to the committed database. -/
structure Transaction.Sound (db : Database) (now : Timestamp) (tx : Transaction) : Prop where
  fresh : ∀ key ∈ tx.newKeys, key ∉ db.keys
  distinct : tx.newKeys.Nodup
  unscoped : ∀ row, Write.insert (.systemCreateRetry row) ∉ tx.writes
  met : ∀ w ∈ tx.writes, ∀ requirement ∈ w.requires,
    (db.applyAll tx.writes).meets requirement = true
  belongs : ∀ row, Write.insert row ∈ tx.writes → ∀ id ∈ row.owner?, tx.creates id
  labels : ∀ id label, Write.label id label ∈ tx.writes → tx.systemLock = some id
  moved : ∀ row, Write.head row ∈ tx.writes →
    tx.systemLock = some row.systemId ∧ (∃ r, tx.head = some (some r)) ∧
      ∃ revision, Write.insert (.systemRevision revision) ∈ tx.writes ∧
        revision.id = row.revisionId
  locked : ∀ head, tx.head = some head → tx.systemLock.isSome = true
  head : ∀ id r, tx.systemLock = some id → tx.head = some (some r) →
    ∃ row, db.head? id = some row ∧ row.revisionId = r
  stored : ∀ row, Write.retry row ∈ tx.writes →
    tx.scopeLock = some row.scope ∧ tx.emits row.receipt ∧ row.retainedAt ≤ now ∧
      ∀ old, db.retryRow? row.scope = some old → old.expiresAt ≤ row.retainedAt
  storedOnce : ∀ row row', Write.retry row ∈ tx.writes → Write.retry row' ∈ tx.writes →
    row = row'
  looked : ∀ clock found, tx.looked = some (clock, found) → clock ≤ now ∧
    ∃ scope, tx.scopeLock = some scope ∧
      found = (db.retryRow? scope).filter (fun row => clock < row.expiresAt)
  ordered : ∀ earlier receipt same later,
    tx.decisions = earlier ++ .intent receipt same :: later →
    earlier.getLast? = some (.create receipt true true)

theorem Transaction.Sound.fresh_transaction : Transaction.fresh.Sound db now where
  fresh := by simp [Transaction.newKeys, Transaction.fresh]
  distinct := by simp [Transaction.newKeys, Transaction.fresh]
  unscoped := by simp [Transaction.fresh]
  met := by simp [Transaction.fresh]
  belongs := by simp [Transaction.fresh]
  labels := by simp [Transaction.fresh]
  moved := by simp [Transaction.fresh]
  locked := by simp [Transaction.fresh]
  head := by simp [Transaction.fresh]
  stored := by simp [Transaction.fresh]
  storedOnce := by simp [Transaction.fresh]
  looked := by simp [Transaction.fresh]
  ordered := by simp [Transaction.fresh]

theorem Transaction.Sound.later (h : tx.Sound db now) (hnow : now ≤ now') :
    tx.Sound db now' where
  __ := h
  stored := fun row hrow => by
    obtain ⟨hlock, hemits, hclock, hold⟩ := h.stored row hrow
    exact ⟨hlock, hemits, hclock.trans hnow, hold⟩
  looked := fun clock found hlooked => by
    obtain ⟨hclock, hscope⟩ := h.looked clock found hlooked
    exact ⟨hclock.trans hnow, hscope⟩

/-- Inserted keys are in the session's own view. -/
theorem newKeys_subset (tx : Transaction) {key : Key} (h : key ∈ tx.newKeys) :
    key ∈ Database.keys (db.applyAll tx.writes) := by
  obtain ⟨w, hw, hkey⟩ := List.mem_flatMap.mp h
  obtain ⟨before, later, hsplit⟩ := List.append_of_mem hw
  rw [hsplit, Database.applyAll_append, Database.applyAll_cons]
  refine Database.keys_subset_applyAll ?_
  cases w with
  | insert row => exact Database.keys_insert _ row ▸ List.mem_append_right _ hkey
  | _ => cases hkey

theorem meets_append {requirement : Requirement} {w : Write}
    (h : (db.applyAll tx.writes).meets requirement = true) :
    (db.applyAll (tx.writes ++ [w])).meets requirement = true := by
  rw [Database.applyAll_append, Database.meets_applyAll]
  exact .inl h

theorem Transaction.creates_append {id : LocalId} (w : Write) (h : tx.creates id) :
    Transaction.creates { tx with writes := tx.writes ++ [w] } id := by
  obtain ⟨label, hlabel⟩ := h
  exact ⟨label, List.mem_append_left _ hlabel⟩

theorem Transaction.emits_append {receipt : WriteReceipt} (w : Write) (h : tx.emits receipt) :
    Transaction.emits { tx with writes := tx.writes ++ [w] } receipt :=
  List.mem_append_left _ h

theorem mem_snoc {w w' : Write} : w' ∈ tx.writes ++ [w] ↔ w' ∈ tx.writes ∨ w' = w := by
  simp

/-- What an admitted write needs is there. -/
theorem Transaction.Sound.requires_met (h : tx.Sound db now) {w : Write} (hmay : tx.mayWrite w)
    (hadmits : (db.applyAll tx.writes).admits w = true) :
    ∀ requirement ∈ w.requires, (db.applyAll tx.writes).meets requirement = true := by
  intro requirement hreq
  cases w with
  | insert row =>
      simp only [Database.admits, Bool.and_eq_true, List.all_eq_true] at hadmits
      exact hadmits.1.2 requirement hreq
  | label => cases hreq
  | head row =>
      obtain ⟨hlock, ⟨r, hr⟩, -⟩ := hmay
      obtain ⟨old, hold, -⟩ := h.head _ r hlock hr
      have hkey : (db.applyAll tx.writes).hasKey (.head row.systemId) = true :=
        Database.hasKey_iff.mpr (Database.keys_subset_applyAll (Database.key_of_head? hold))
      simp only [Database.admits, hkey, Bool.not_true, Bool.false_or,
        List.all_eq_true] at hadmits
      exact hadmits requirement hreq
  | retry row => cases hmay

theorem Transaction.Sound.wrote (h : tx.Sound db now) {w : Write} (hmay : tx.mayWrite w)
    (hadmits : (db.applyAll tx.writes).admits w = true) :
    Transaction.Sound db now { tx with writes := tx.writes ++ [w] } := by
  have hfree : ∀ key ∈ w.newKeys, key ∉ Database.keys (db.applyAll tx.writes) := by
    intro key hkey
    cases w with
    | insert row =>
        simp only [Database.admits, Bool.and_eq_true, List.all_eq_true] at hadmits
        rw [← Database.hasKey_iff]
        simpa using hadmits.1.1 key hkey
    | _ => cases hkey
  have hsnoc : Transaction.newKeys { tx with writes := tx.writes ++ [w] } =
      tx.newKeys ++ w.newKeys := by simp [Transaction.newKeys]
  have hretry : ∀ row, w ≠ .retry row := by rintro row rfl; exact hmay
  exact {
    fresh := fun key hkey => by
      obtain hkey | hkey := List.mem_append.mp (hsnoc ▸ hkey)
      · exact h.fresh key hkey
      · exact fun hold => hfree key hkey (Database.keys_subset_applyAll hold)
    distinct := by
      rw [hsnoc]
      refine List.nodup_append'.mpr ⟨h.distinct, ?_, ?_⟩
      · cases w with
        | insert row => exact keys_nodup row
        | _ => exact List.nodup_nil
      · exact fun key hold hnew => hfree key hnew (newKeys_subset tx hold)
    unscoped := fun row hrow => by
      obtain hrow | rfl := mem_snoc.mp hrow
      · exact h.unscoped row hrow
      · exact hmay
    met := fun w' hw' requirement hreq => by
      refine meets_append ?_
      obtain hw' | rfl := mem_snoc.mp hw'
      · exact h.met w' hw' requirement hreq
      · exact h.requires_met hmay hadmits requirement hreq
    belongs := fun row hrow id hid => by
      refine Transaction.creates_append w ?_
      obtain hrow | rfl := mem_snoc.mp hrow
      · exact h.belongs row hrow id hid
      · cases row <;> first | exact hmay id hid | cases hid
    labels := fun id label hlabel => by
      obtain hlabel | rfl := mem_snoc.mp hlabel
      · exact h.labels id label hlabel
      · exact hmay
    moved := fun row hrow => by
      have hall : tx.systemLock = some row.systemId ∧ (∃ r, tx.head = some (some r)) ∧
          ∃ revision, Write.insert (.systemRevision revision) ∈ tx.writes ∧
            revision.id = row.revisionId := by
        obtain hrow | rfl := mem_snoc.mp hrow
        · exact h.moved row hrow
        · exact hmay
      obtain ⟨hlock, hhead, revision, hrevision, hid⟩ := hall
      exact ⟨hlock, hhead, revision, List.mem_append_left _ hrevision, hid⟩
    locked := h.locked
    head := h.head
    stored := fun row hrow => by
      obtain hrow | hrow := mem_snoc.mp hrow
      · obtain ⟨hlock, hemits, hrest⟩ := h.stored row hrow
        exact ⟨hlock, Transaction.emits_append w hemits, hrest⟩
      · exact absurd hrow.symm (hretry row)
    storedOnce := fun row row' hrow hrow' => by
      obtain hrow | hrow := mem_snoc.mp hrow
      · obtain hrow' | hrow' := mem_snoc.mp hrow'
        · exact h.storedOnce row row' hrow hrow'
        · exact absurd hrow'.symm (hretry row')
      · exact absurd hrow.symm (hretry row)
    looked := h.looked
    ordered := h.ordered }

theorem Transaction.Sound.stored_row (h : tx.Sound db now) {row : SystemCreateRetry}
    (hlock : tx.scopeLock = some row.scope) (hfirst : tx.retryFree)
    (hemits : tx.emits row.receipt) (hclock : row.retainedAt = now)
    (hadmits : (db.applyAll tx.writes).admits (.retry row) = true)
    (hexpired : ∀ old, (db.applyAll tx.writes).retryRow? row.scope = some old →
      old.expiresAt ≤ now) :
    Transaction.Sound db now { tx with writes := tx.writes ++ [.retry row] } := by
  have hview : (db.applyAll tx.writes).retryRow? row.scope = db.retryRow? row.scope := by
    obtain ⟨hsame, -⟩ | ⟨stored, hstored, -⟩ :=
      Database.retryRow?_applyAll db row.scope h.unscoped
    · exact hsame
    · exact absurd hstored (hfirst stored)
  have hsnoc : Transaction.newKeys { tx with writes := tx.writes ++ [.retry row] } =
      tx.newKeys := by simp [Transaction.newKeys, Write.newKeys]
  exact {
    fresh := hsnoc ▸ h.fresh
    distinct := hsnoc ▸ h.distinct
    unscoped := fun row' hrow' => by
      obtain hrow' | hrow' := mem_snoc.mp hrow'
      · exact h.unscoped row' hrow'
      · cases hrow'
    met := fun w hw requirement hreq => by
      refine meets_append ?_
      obtain hw | rfl := mem_snoc.mp hw
      · exact h.met w hw requirement hreq
      · exact List.all_eq_true.mp hadmits requirement hreq
    belongs := fun row' hrow' id hid => by
      obtain hrow' | hrow' := mem_snoc.mp hrow'
      · exact Transaction.creates_append _ (h.belongs row' hrow' id hid)
      · cases hrow'
    labels := fun id label hlabel => by
      obtain hlabel | hlabel := mem_snoc.mp hlabel
      · exact h.labels id label hlabel
      · cases hlabel
    moved := fun row' hrow' => by
      obtain hrow' | hrow' := mem_snoc.mp hrow'
      · obtain ⟨hlock, hhead, revision, hrevision, hid⟩ := h.moved row' hrow'
        exact ⟨hlock, hhead, revision, List.mem_append_left _ hrevision, hid⟩
      · cases hrow'
    locked := h.locked
    head := h.head
    stored := fun row' hrow' => by
      obtain hrow' | hrow' := mem_snoc.mp hrow'
      · exact absurd hrow' (hfirst row')
      · obtain rfl := Write.retry.inj hrow'
        refine ⟨hlock, Transaction.emits_append _ hemits, hclock.le, fun old hold => ?_⟩
        exact (hexpired old (hview.trans hold)).trans hclock.ge
    storedOnce := fun row₁ row₂ hrow₁ hrow₂ => by
      obtain hrow₁ | hrow₁ := mem_snoc.mp hrow₁
      · exact absurd hrow₁ (hfirst row₁)
      · obtain hrow₂ | hrow₂ := mem_snoc.mp hrow₂
        · exact absurd hrow₂ (hfirst row₂)
        · exact Write.retry.inj (hrow₁.trans hrow₂.symm)
    looked := h.looked
    ordered := h.ordered }

/-- **Own steps.**  A statement of the session keeps its transaction sound. -/
theorem Transaction.Sound.effect {before : Option Transaction}
    (hbefore : ∀ tx, before = some tx → tx.Sound db now)
    {reads : List (LocalId × Option RevisionId)}
    (h : Effect engine others db now before (some tx) reads) : tx.Sound db now := by
  cases h with
  | same => exact hbefore tx rfl
  | began => exact .fresh_transaction
  | @scopeLocked tx scope free apart =>
      have hs := hbefore tx rfl
      exact { hs with
        stored := fun row hrow => by
          have := (hs.stored row hrow).1
          rw [free] at this
          cases this
        looked := fun clock found hlooked => by
          obtain ⟨-, scope', hscope', -⟩ := hs.looked clock found hlooked
          rw [free] at hscope'
          cases hscope' }
  | @systemLocked tx id free apart =>
      have hs := hbefore tx rfl
      have hnone : tx.head = none := by
        cases hhead : tx.head with
        | none => rfl
        | some head =>
            have := hs.locked head hhead
            rw [free] at this
            cases this
      exact { hs with
        labels := fun id label hlabel => by
          have := hs.labels id label hlabel
          rw [free] at this
          cases this
        moved := fun row hrow => by
          have := (hs.moved row hrow).1
          rw [free] at this
          cases this
        locked := fun _ _ => rfl
        head := fun id r _ hr => by
          rw [hnone] at hr
          cases hr }
  | denialsLocked => exact { hbefore _ rfl with }
  | wrote may free admitted => exact (hbefore _ rfl).wrote may admitted
  | stored lock first emits clock admitted expired =>
      exact (hbefore _ rfl).stored_row lock first emits clock admitted expired
  | @lookedUp tx scope lock clean =>
      have hs := hbefore tx rfl
      exact { hs with
        looked := fun clock found hlooked => by
          obtain ⟨rfl, rfl⟩ := Prod.mk.inj (Option.some.inj hlooked)
          exact ⟨le_rfl, scope, lock, rfl⟩ }
  | @headRead tx id lock clean =>
      have hs := hbefore tx rfl
      exact { hs with
        moved := fun row hrow => by
          have hrow : Write.head row ∈ tx.writes := hrow
          rw [clean] at hrow
          cases hrow
        locked := fun _ _ => by simp [lock]
        head := fun id' r hid hr => by
          obtain rfl := Option.some.inj (lock.symm.trans hid)
          exact Option.map_eq_some_iff.mp (Option.some.inj hr) }
  | @decided tx decision ordered =>
      have hs := hbefore tx rfl
      exact { hs with
        ordered := fun earlier receipt same later heq => by
          obtain rfl | ⟨later', last, rfl⟩ := later.eq_nil_or_concat'
          · obtain ⟨rfl, hlast⟩ := List.append_inj' heq rfl
            exact ordered receipt same (List.cons.inj hlast).1
          · refine hs.ordered earlier receipt same later' ?_
            have heq' : tx.decisions ++ [decision] =
                (earlier ++ .intent receipt same :: later') ++ [last] := by
              simpa using heq
            exact (List.append_inj' heq' rfl).1 }

end Sound

section Apart

variable {engine : Engine} {others : List Session} {db : Database} {now : Timestamp}
  {tx tx' : Transaction}

/-- Two open transactions reserve different keys and hold different locks. -/
structure Apart (engine : Engine) (tx tx' : Transaction) : Prop where
  keys : ∀ key ∈ tx.newKeys, key ∉ tx'.newKeys
  systems : ∀ id, tx.systemLock = some id → tx'.systemLock ≠ some id
  scopes : ∀ scope scope', tx.scopeLock = some scope → tx'.scopeLock = some scope' →
    engine.lockHash scope ≠ engine.lockHash scope'
  denials : tx.denialLock = true → tx'.denialLock = false

theorem Apart.symm (h : Apart engine tx tx') : Apart engine tx' tx where
  keys := fun key hkey hkey' => h.keys key hkey' hkey
  systems := fun id hid hid' => h.systems id hid' hid
  scopes := fun scope scope' hscope hscope' heq => h.scopes scope' scope hscope' hscope heq.symm
  denials := fun hlock => by
    cases hlock' : tx.denialLock with
    | false => rfl
    | true => rw [h.denials hlock'] at hlock; cases hlock

theorem Apart.fresh (tx : Transaction) : Apart engine .fresh tx where
  keys := by simp [Transaction.newKeys, Transaction.fresh]
  systems := by simp [Transaction.fresh]
  scopes := by simp [Transaction.fresh]
  denials := by simp [Transaction.fresh]

theorem Session.pending_newKeys {session : Session} (htx : session.transaction = some tx)
    {key : Key} (h : key ∈ tx.newKeys) : key ∈ session.pendingKeys := by
  obtain ⟨w, hw, hkey⟩ := List.mem_flatMap.mp h
  refine List.mem_flatMap.mpr ⟨w, by simpa [Session.writes, htx] using hw, ?_⟩
  cases w with
  | insert row => exact hkey
  | _ => cases hkey

/-- A statement keeps its transaction apart from the open ones. -/
theorem Apart.effect {before : Option Transaction} {other : Session}
    (hother : other ∈ others) (htx' : other.transaction = some tx')
    (hbefore : ∀ tx, before = some tx → Apart engine tx tx')
    {reads : List (LocalId × Option RevisionId)}
    (h : Effect engine others db now before (some tx) reads) : Apart engine tx tx' := by
  cases h with
  | same => exact hbefore tx rfl
  | began => exact .fresh tx'
  | @scopeLocked tx scope free apart =>
      have hs := hbefore tx rfl
      exact { hs with
        scopes := fun scope₁ scope₂ h₁ h₂ heq => by
          obtain rfl := Option.some.inj h₁
          have := apart other hother
          simp [Session.holdsScope, htx', h₂, heq] at this }
  | @systemLocked tx id free apart =>
      have hs := hbefore tx rfl
      exact { hs with
        systems := fun id' h₁ h₂ => by
          obtain rfl := Option.some.inj h₁
          have := apart other hother
          simp [Session.holdsSystem, htx', h₂] at this }
  | @denialsLocked tx apart =>
      have hs := hbefore tx rfl
      exact { hs with
        denials := fun _ => by simpa [Session.holdsDenials, htx'] using apart other hother }
  | @wrote tx w may free admitted =>
      have hs := hbefore tx rfl
      exact { hs with
        keys := fun key hkey hkey' => by
          have hkey : key ∈ (tx.writes ++ [w]).flatMap Write.newKeys := hkey
          rw [List.flatMap_append, List.mem_append] at hkey
          obtain hkey | hkey := hkey
          · exact hs.keys key hkey hkey'
          · cases w with
            | insert row =>
                have hkey : key ∈ row.keys := by simpa [Write.newKeys] using hkey
                have hnone := List.all_eq_true.mp
                  (List.all_eq_true.mp free key hkey) other hother
                have hpending := Session.pending_newKeys htx' hkey'
                simp [hpending] at hnone
            | _ => simp [Write.newKeys] at hkey }
  | @stored tx row =>
      have hs := hbefore tx rfl
      exact { hs with
        keys := fun key hkey => hs.keys key (by
          simpa [Transaction.newKeys, Write.newKeys] using hkey) }
  | lookedUp => exact { hbefore _ rfl with }
  | headRead => exact { hbefore _ rfl with }
  | decided => exact { hbefore _ rfl with }

theorem Apart.scope_ne (h : Apart engine tx tx') {scope scope' : RetryScope}
    (hscope : tx.scopeLock = some scope) (hscope' : tx'.scopeLock = some scope') :
    scope ≠ scope' := by
  rintro rfl
  exact h.scopes scope scope hscope hscope' rfl

/-- A COMMIT leaves the retention row of a scope it has not locked. -/
theorem Transaction.Sound.retryRow?_of_apart (h : tx.Sound db now) (hapart : Apart engine tx tx')
    {scope : RetryScope} (hscope : tx'.scopeLock = some scope) :
    (db.applyAll tx.writes).retryRow? scope = db.retryRow? scope := by
  obtain ⟨hsame, -⟩ | ⟨row, hrow, hid, -⟩ :=
    Database.retryRow?_applyAll db scope h.unscoped
  · exact hsame
  · exact absurd hid (hapart.scope_ne (h.stored row hrow).1 hscope)

theorem Transaction.Sound.newKey_ne_scope (h : tx.Sound db now) {key : Key}
    (hkey : key ∈ tx.newKeys) (scope : RetryScope) : key ≠ .scope scope := by
  rintro rfl
  obtain ⟨w, hw, hkey⟩ := List.mem_flatMap.mp hkey
  cases w with
  | insert row =>
      cases row with
      | systemCreateRetry row => exact h.unscoped row hw
      | _ => simp [Write.newKeys, Row.keys] at hkey
  | _ => cases hkey

/-- **Commits of others.**  They keep a transaction sound that is apart from them. -/
theorem Transaction.Sound.committed (h : tx.Sound db now) (h' : tx'.Sound db now)
    (hapart : Apart engine tx tx') : tx'.Sound (db.applyAll tx.writes) now where
  fresh := fun key hkey hmem => by
    obtain hold | hnew | ⟨row, -, rfl⟩ := Database.mem_keys_applyAll hmem
    · exact h'.fresh key hkey hold
    · exact hapart.keys key hnew hkey
    · exact h'.newKey_ne_scope hkey row.scope rfl
  distinct := h'.distinct
  unscoped := h'.unscoped
  met := fun w hw requirement hreq => by
    obtain hold | hnew := Database.meets_applyAll.mp (h'.met w hw requirement hreq)
    · exact Database.meets_applyAll.mpr (.inl (Database.meets_applyAll.mpr (.inl hold)))
    · exact Database.meets_applyAll.mpr (.inr hnew)
  belongs := h'.belongs
  labels := h'.labels
  moved := h'.moved
  locked := h'.locked
  head := fun id r hid hr => by
    obtain ⟨row, hrow, hrev⟩ := h'.head id r hid hr
    obtain ⟨row', hrow', ⟨rfl, -⟩ | ⟨hmoved, hid'⟩⟩ := Database.head?_applyAll tx.writes hrow
    · exact ⟨row', hrow', hrev⟩
    · exact absurd hid (hapart.systems id (hid' ▸ (h.moved row' hmoved).1))
  stored := fun row hrow => by
    obtain ⟨hlock, hemits, hclock, hold⟩ := h'.stored row hrow
    exact ⟨hlock, hemits, hclock, (h.retryRow?_of_apart hapart hlock).symm ▸ hold⟩
  storedOnce := h'.storedOnce
  looked := fun clock found hlooked => by
    obtain ⟨hclock, scope, hscope, hfound⟩ := h'.looked clock found hlooked
    exact ⟨hclock, scope, hscope, (h.retryRow?_of_apart hapart hscope).symm ▸ hfound⟩
  ordered := h'.ordered

theorem Transaction.Sound.unique (h : tx.Sound db now) (hdb : db.Unique) :
    Database.Unique (db.applyAll tx.writes) :=
  hdb.applyAll h.distinct h.fresh (fun _ hkey scope => h.newKey_ne_scope hkey scope)

theorem Transaction.Sound.closed (h : tx.Sound db now) (hdb : db.Closed) :
    Database.Closed (db.applyAll tx.writes) :=
  hdb.applyAll h.met

end Apart

section World

variable {service : Service} {engine : Engine}

/-- What the requests of a service commit and how their programs end. -/
structure Service.Contract (service : Service) (engine : Engine) where
  accepts : service.Request → Transaction → Prop
  ends : service.Request → service.Outcome → Session → Prop
  kept : ∀ request, Keeps (discipline engine (accepts request)) (service.program request)
    Session.idle (ends request)

variable {contract : service.Contract engine}

/-- **The invariant.** -/
structure World.Inv (contract : service.Contract engine) (w : World service) : Prop where
  unique : w.db.Unique
  closed : w.db.Closed
  sound : ∀ i tx, w.Opened i tx → tx.Sound w.db w.now
  apart : ∀ i j tx tx', i ≠ j → w.Opened i tx → w.Opened j tx' → Apart engine tx tx'
  kept : ∀ (i : Nat) (call : Running service) rest, w.calls[i]? = some call →
    call.rest = some rest →
    Keeps (discipline engine (contract.accepts call.request)) rest call.session
      (contract.ends call.request)
  acknowledged : ∀ (i : Nat) (call : Running service), w.calls[i]? = some call →
    ∀ tx ∈ call.session.committed, ∃ before clock, .committed i tx before clock ∈ w.history
  carriedOut : ∀ i tx before clock, .committed i tx before clock ∈ w.history →
    ∃ call, w.calls[i]? = some call ∧ contract.accepts call.request tx ∧
      (tx ∈ call.session.committed ∨ tx ∈ call.session.doubtful)

theorem World.Start.inv {w : World service} (h : w.Start) : w.Inv contract where
  unique := h.unique
  closed := h.closed
  sound := fun i tx hopen => by
    obtain ⟨call, hcall, -⟩ := hopen
    simp [h.calls] at hcall
  apart := fun i j tx tx' _ hopen _ => by
    obtain ⟨call, hcall, -⟩ := hopen
    simp [h.calls] at hcall
  kept := fun i call rest hcall _ => by simp [h.calls] at hcall
  acknowledged := fun i call hcall => by simp [h.calls] at hcall
  carriedOut := fun i tx before clock hmem => by simp [h.history] at hmem

namespace World

variable {w w' : World service} {i : Nat} {call : Running service} {s : Statement}
  {next : s.Reply → Call service.Outcome} {choice : Choice} {done : Performed s}

theorem calls_after (hcall : w.calls[i]? = some call) :
    (w.after i call s next done).calls[i]? =
      some ⟨call.request, done.2.1, some (next done.1)⟩ := by
  obtain ⟨hi, -⟩ := List.getElem?_eq_some_iff.mp hcall
  simp [after, hi]

theorem calls_after_of_ne {j : Nat} (hne : j ≠ i) :
    (w.after i call s next done).calls[j]? = w.calls[j]? := by
  simp [after, Ne.symm hne]

/-- An open transaction after the step: the call's own or another's. -/
theorem opened_after {j : Nat} {tx : Transaction} (hcall : w.calls[i]? = some call)
    (h : (w.after i call s next done).Opened j tx) :
    (j = i ∧ done.2.1.transaction = some tx) ∨ (j ≠ i ∧ w.Opened j tx) := by
  obtain ⟨call', hcall', htx⟩ := h
  by_cases hj : j = i
  · subst hj
    rw [calls_after hcall] at hcall'
    obtain rfl := Option.some.inj hcall'
    exact .inl ⟨rfl, htx⟩
  · rw [calls_after_of_ne hj] at hcall'
    exact .inr ⟨hj, call', hcall', htx⟩

/-- A performed statement was permitted, and the rest of the program is kept. -/
theorem Inv.step_kept (hinv : w.Inv contract) (hcall : w.calls[i]? = some call)
    (hrest : call.rest = some (.perform s next))
    (hdone : perform engine (w.others i) w.db w.now call.session s choice = some done) :
    call.session.permits (contract.accepts call.request) s ∧
      Keeps (discipline engine (contract.accepts call.request)) (next done.1) done.2.1
        (contract.ends call.request) := by
  obtain ⟨hpermits, hnext⟩ := hinv.kept i call _ hcall hrest
  exact ⟨hpermits, hnext done.1 done.2.1 ⟨_, _, _, _, _, hdone⟩⟩

/-- The statement's effect on the call's own transaction. -/
theorem Inv.step_sound (hinv : w.Inv contract) (hcall : w.calls[i]? = some call)
    (hrest : call.rest = some (.perform s next))
    (hdone : perform engine (w.others i) w.db w.now call.session s choice = some done)
    {tx : Transaction} (htx : done.2.1.transaction = some tx) :
    tx.Sound w.db w.now ∧ ∀ j tx', j ≠ i → w.Opened j tx' → Apart engine tx tx' := by
  have heffect := perform_effect (hinv.step_kept hcall hrest hdone).1 hdone
  rw [htx] at heffect
  constructor
  · exact Transaction.Sound.effect (fun tx htx => hinv.sound i tx ⟨call, hcall, htx⟩) heffect
  · rintro j tx' hne ⟨call', hcall', htx'⟩
    refine Apart.effect (mem_others hne hcall') htx' ?_ heffect
    exact fun tx htx => hinv.apart i j tx tx' hne.symm ⟨call, hcall, htx⟩ ⟨call', hcall', htx'⟩

theorem Inv.after_records (hinv : w.Inv contract) (hcall : w.calls[i]? = some call)
    (hrest : call.rest = some (.perform s next))
    (hdone : perform engine (w.others i) w.db w.now call.session s choice = some done) :
    (∀ j call', (w.after i call s next done).calls[j]? = some call' →
      ∀ tx ∈ call'.session.committed,
        ∃ before clock, .committed j tx before clock ∈ (w.after i call s next done).history) ∧
    (∀ j tx before clock, .committed j tx before clock ∈ (w.after i call s next done).history →
      ∃ call', (w.after i call s next done).calls[j]? = some call' ∧
        contract.accepts call'.request tx ∧
        (tx ∈ call'.session.committed ∨ tx ∈ call'.session.doubtful)) := by
  have hrecords := perform_records hdone
  have hhistory : ∀ happening, happening ∈ w.history →
      happening ∈ (w.after i call s next done).history := by
    intro happening h
    simp [after, h]
  constructor
  · intro j call' hcall' tx htx
    by_cases hj : j = i
    · subst hj
      rw [calls_after hcall] at hcall'
      obtain rfl := Option.some.inj hcall'
      obtain hold | hnew := hrecords.acknowledged tx htx
      · obtain ⟨before, clock, hmem⟩ := hinv.acknowledged j call hcall tx hold
        exact ⟨before, clock, hhistory _ hmem⟩
      · exact ⟨w.db, w.now, by simp [after, hnew]⟩
    · rw [calls_after_of_ne hj] at hcall'
      obtain ⟨before, clock, hmem⟩ := hinv.acknowledged j call' hcall' tx htx
      exact ⟨before, clock, hhistory _ hmem⟩
  · intro j tx before clock hmem
    simp only [after, List.mem_append, List.mem_map, Option.mem_toList] at hmem
    obtain (hmem | hmem) | ⟨tx', htx', heq⟩ := hmem
    · obtain ⟨call', hcall', haccepts, hrecorded⟩ := hinv.carriedOut j tx before clock hmem
      by_cases hj : j = i
      · subst hj
        obtain rfl := Option.some.inj (hcall.symm.trans hcall')
        exact ⟨_, calls_after hcall, haccepts,
          hrecorded.imp (hrecords.committed tx) (hrecords.doubtful tx)⟩
      · exact ⟨call', (calls_after_of_ne hj).trans hcall', haccepts, hrecorded⟩
    · obtain ⟨read, -, heq⟩ := List.mem_map.mp hmem
      cases heq
    · obtain ⟨rfl, rfl, rfl, rfl⟩ := Happening.committed.inj heq
      have hpermits := (hinv.step_kept hcall hrest hdone).1
      obtain ⟨-, haccepts, -⟩ := perform_committed hpermits hdone htx'
      exact ⟨_, calls_after hcall, haccepts, hrecords.carriedOut tx' htx'⟩

theorem Inv.after (hinv : w.Inv contract) (hcall : w.calls[i]? = some call)
    (hrest : call.rest = some (.perform s next))
    (hdone : perform engine (w.others i) w.db w.now call.session s choice = some done) :
    (w.after i call s next done).Inv contract := by
  obtain ⟨hpermits, hnext⟩ := hinv.step_kept hcall hrest hdone
  obtain ⟨hacknowledged, hcarriedOut⟩ := hinv.after_records hcall hrest hdone
  -- a COMMIT closes the call's transaction; anything else leaves the database
  have hdb : (∃ tx, done.2.2 = some tx ∧ w.Opened i tx ∧ done.2.1.transaction = none ∧
      (w.after i call s next done).db = w.db.applyAll tx.writes) ∨
      (w.after i call s next done).db = w.db := by
    cases hcommitted : done.2.2 with
    | none => exact .inr (by simp [World.after, hcommitted])
    | some tx =>
        obtain ⟨htx, -, hnone⟩ := perform_committed hpermits hdone hcommitted
        exact .inl ⟨tx, rfl, ⟨call, hcall, htx⟩, hnone, by simp [World.after, hcommitted]⟩
  exact {
    unique := by
      obtain ⟨tx, -, hopen, -, heq⟩ | heq := hdb
      · exact heq ▸ (hinv.sound i tx hopen).unique hinv.unique
      · exact heq ▸ hinv.unique
    closed := by
      obtain ⟨tx, -, hopen, -, heq⟩ | heq := hdb
      · exact heq ▸ (hinv.sound i tx hopen).closed hinv.closed
      · exact heq ▸ hinv.closed
    sound := fun j tx' hopen' => by
      have hopened := opened_after hcall hopen'
      obtain ⟨tx, -, hopen, hnone, heq⟩ | heq := hdb
      · obtain ⟨-, htx'⟩ | ⟨hne, hopen'⟩ := hopened
        · rw [hnone] at htx'
          cases htx'
        · exact heq ▸ (hinv.sound i tx hopen).committed (hinv.sound j tx' hopen')
            (hinv.apart i j tx tx' (Ne.symm hne) hopen hopen')
      · obtain ⟨-, htx'⟩ | ⟨-, hopen'⟩ := hopened
        · exact heq ▸ (hinv.step_sound hcall hrest hdone htx').1
        · exact heq ▸ hinv.sound j tx' hopen'
    apart := fun j k tx tx' hne hopen hopen' => by
      obtain ⟨rfl, htx⟩ | ⟨hj, hold⟩ := opened_after hcall hopen <;>
        obtain ⟨rfl, htx'⟩ | ⟨hk, hold'⟩ := opened_after hcall hopen'
      · exact absurd rfl hne
      · exact (hinv.step_sound hcall hrest hdone htx).2 k tx' hk hold'
      · exact ((hinv.step_sound hcall hrest hdone htx').2 j tx hj hold).symm
      · exact hinv.apart j k tx tx' hne hold hold'
    kept := fun j call' rest hcall' hrest' => by
      by_cases hj : j = i
      · subst hj
        rw [calls_after hcall] at hcall'
        obtain rfl := Option.some.inj hcall'
        obtain rfl := Option.some.inj hrest'
        exact hnext
      · rw [calls_after_of_ne hj] at hcall'
        exact hinv.kept j call' rest hcall' hrest'
    acknowledged := hacknowledged
    carriedOut := hcarriedOut }

/-- A cut-off call has no transaction any more. -/
theorem Inv.dropped (hinv : w.Inv contract) (hcall : w.calls[i]? = some call) :
    Inv contract { w with calls := w.calls.set i call.cutOff } := by
  obtain ⟨hi, -⟩ := List.getElem?_eq_some_iff.mp hcall
  have hopened : ∀ j tx, Opened { w with calls := w.calls.set i call.cutOff } j tx →
      w.Opened j tx := by
    rintro j tx ⟨call', hcall', htx⟩
    by_cases hj : j = i
    · subst hj
      obtain rfl : _ = call' := by simpa [hi] using hcall'
      cases htx
    · exact ⟨call', by simpa [Ne.symm hj] using hcall', htx⟩
  exact {
    unique := hinv.unique
    closed := hinv.closed
    sound := fun j tx hopen => hinv.sound j tx (hopened j tx hopen)
    apart := fun j k tx tx' hne hopen hopen' =>
      hinv.apart j k tx tx' hne (hopened j tx hopen) (hopened k tx' hopen')
    kept := fun j call' rest hcall' hrest' => by
      by_cases hj : j = i
      · subst hj
        obtain rfl : _ = call' := by simpa [hi] using hcall'
        cases hrest'
      · exact hinv.kept j call' rest (by simpa [Ne.symm hj] using hcall') hrest'
    acknowledged := fun j call' hcall' tx htx => by
      by_cases hj : j = i
      · subst hj
        obtain rfl : _ = call' := by simpa [hi] using hcall'
        exact hinv.acknowledged j call hcall tx htx
      · exact hinv.acknowledged j call' (by simpa [Ne.symm hj] using hcall') tx htx
    carriedOut := fun j tx before clock hmem => by
      obtain ⟨call', hcall', hrest'⟩ := hinv.carriedOut j tx before clock hmem
      by_cases hj : j = i
      · subst hj
        obtain rfl := Option.some.inj (hcall.symm.trans hcall')
        exact ⟨call.cutOff, by simp [hi], hrest'⟩
      · exact ⟨call', by simpa [Ne.symm hj] using hcall', hrest'⟩ }

theorem Inv.started (hinv : w.Inv contract) (request : service.Request) :
    Inv contract { w with
      calls := w.calls ++ [⟨request, .idle, some (service.program request)⟩] } := by
  have hcalls : ∀ (j : Nat) (call : Running service),
      (w.calls ++ [⟨request, .idle, some (service.program request)⟩])[j]? = some call →
      w.calls[j]? = some call ∨ call = ⟨request, .idle, some (service.program request)⟩ := by
    intro j call hcall
    rw [List.getElem?_append] at hcall
    split at hcall
    · exact .inl hcall
    · rw [List.getElem?_singleton] at hcall
      split at hcall
      · exact .inr (Option.some.inj hcall).symm
      · cases hcall
  have hopened : ∀ j tx, Opened { w with
      calls := w.calls ++ [⟨request, .idle, some (service.program request)⟩] } j tx →
      w.Opened j tx := by
    rintro j tx ⟨call, hcall, htx⟩
    obtain hold | rfl := hcalls j call hcall
    · exact ⟨call, hold, htx⟩
    · cases htx
  exact {
    unique := hinv.unique
    closed := hinv.closed
    sound := fun j tx hopen => hinv.sound j tx (hopened j tx hopen)
    apart := fun j k tx tx' hne hopen hopen' =>
      hinv.apart j k tx tx' hne (hopened j tx hopen) (hopened k tx' hopen')
    kept := fun j call rest hcall hrest => by
      obtain hold | rfl := hcalls j call hcall
      · exact hinv.kept j call rest hold hrest
      · obtain rfl := Option.some.inj hrest
        exact contract.kept request
    acknowledged := fun j call hcall tx htx => by
      obtain hold | rfl := hcalls j call hcall
      · exact hinv.acknowledged j call hold tx htx
      · cases htx
    carriedOut := fun j tx before clock hmem => by
      obtain ⟨call, hcall, hrest⟩ := hinv.carriedOut j tx before clock hmem
      obtain ⟨hj, -⟩ := List.getElem?_eq_some_iff.mp hcall
      exact ⟨call, (List.getElem?_append_left hj).trans hcall, hrest⟩ }

theorem Inv.ticked (hinv : w.Inv contract) (microseconds : Nat) :
    Inv contract { w with now := w.now + microseconds } :=
  { hinv with
    sound := fun j tx hopen => (hinv.sound j tx hopen).later (Nat.le_add_right _ _) }

/-- **Invariant of the world.** -/
theorem Inv.of_step (hinv : w.Inv contract) {e : Event service}
    (h : step engine w e = some w') : w'.Inv contract := by
  cases stepped h with
  | started request => exact hinv.started request
  | ticked microseconds => exact hinv.ticked microseconds
  | performed hcall hrest hdone => exact hinv.after hcall hrest hdone
  | dropped hcall => exact hinv.dropped hcall

theorem inv_of_reachable (contract : service.Contract engine)
    (h : (machine engine service).Reachable w) : w.Inv contract :=
  Machine.Reachable.invariant (P := Inv contract) (fun _ hstart => World.Start.inv hstart)
    (fun _ _ _ hinv hstep => Inv.of_step hinv hstep) h

/-- A finished call has ended as its contract says. -/
theorem Inv.ended (hinv : w.Inv contract) (hcall : w.calls[i]? = some call)
    {outcome : service.Outcome} (houtcome : call.outcome? = some outcome) :
    contract.ends call.request outcome call.session := by
  simp only [Running.outcome?] at houtcome
  split at houtcome
  next outcome' hrest =>
    obtain rfl := Option.some.inj houtcome
    exact hinv.kept i call _ hcall hrest
  next => cases houtcome

/-- A call with no COMMIT acknowledged or in doubt has made none. -/
theorem Inv.uncommitted (hinv : w.Inv contract) (hcall : w.calls[i]? = some call)
    (hcommitted : call.session.committed = []) (hdoubtful : call.session.doubtful = [])
    (tx : Transaction) (before : Database) (clock : Timestamp) :
    .committed i tx before clock ∉ w.history := by
  intro hmem
  obtain ⟨call', hcall', -, hrecorded⟩ := hinv.carriedOut i tx before clock hmem
  obtain rfl := Option.some.inj (hcall.symm.trans hcall')
  simp [hcommitted, hdoubtful] at hrecorded

end World

end World

end Server
end Glaux
