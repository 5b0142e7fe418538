import Glaux.Server.AdmissionContract
import Glaux.Server.WriteEvidence

/-!
# The cap of denied audit rows

Recorders of denials with one `max_rows` and trusted write calls, interleaved
statement by statement.  A recorder counts the denied rows after it has the
advisory lock and inserts its own row before it gives the lock up, so no other
recorder can commit a row in between.
-/

namespace Glaux
namespace Server

open Domain Library

/-- The denied audit rows. -/
def Database.denied (db : Database) : List ServerAudit :=
  db.serverAudit.filter (fun audit => audit.outcome = .denied)

def DeniedMutation.row (input : DeniedMutation) : ServerAudit :=
  auditRow input.auditId input.target none input.audit .denied input.operation

inductive RecordedRequest where
  | write (request : TrustedRequest)
  | denial (input : DeniedMutation)

inductive RecordedOutcome where
  | write (outcome : Except StorageError WriteReceipt)
  | denial (outcome : Except StorageError DenialStorage)

/-- Trusted writes, and recorders of denials under one cap. -/
def recordedCalls (maxRows : Nat) : Service where
  Request := RecordedRequest
  Outcome := RecordedOutcome
  program
    | .write request => trustedCalls.program request >>= fun outcome => pure (.write outcome)
    | .denial input =>
        ExceptT.run (recordDeniedMutationBounded input maxRows) >>= fun outcome =>
          pure (.denial outcome)

/-- What each call commits and how it ends. -/
def recordedContract (maxRows : Nat) (engine : Engine) :
    (recordedCalls maxRows).Contract engine where
  accepts
    | .write request => (trustedContract engine).accepts request
    | .denial input => DenialCommits input
  ends
    | .write request => fun outcome session =>
        ∃ written, outcome = .write written ∧ (trustedContract engine).ends request written session
    | .denial input => fun outcome session =>
        ∃ stored, outcome = .denial stored ∧
          Finished (DenialStored input) (fun _ _ => True) .idle stored session
  kept := by
    rintro (request | input)
    · exact keeps_bind.mpr (Keeps.mono ((trustedContract engine).kept request)
        (fun outcome session h => ⟨outcome, rfl, h⟩))
    · refine keeps_bind.mpr (Keeps.mono (keeps_recordDeniedMutationBounded maxRows
        (fun tx h => h) rfl) ?_)
      rintro (e | stored) session h <;> exact ⟨_, rfl, h⟩

section Phases

/-- How far the transaction of a recorder has come. -/
inductive Phase where
  /-- no transaction is open -/
  | closed
  | begun
  /-- it holds the lock -/
  | locked
  /-- it has counted fewer rows than the cap -/
  | counted
  /-- it has inserted its row -/
  | recorded
deriving DecidableEq

/-- The statements of a recorder. -/
def Phase.permits (maxRows : Nat) (phase : Phase) : Statement → Prop
  | .inTransaction | .commit | .rollback => True
  | .begin => phase = .closed
  | .query (.deniedCount maximum) => phase = .locked ∧ maximum = maxRows
  | .query (.setLocal _) | .query .schema => True
  | .lockDenials => phase = .begun
  | .write (.insert (.serverAudit row)) => phase = .counted ∧ row.outcome = .denied
  | _ => False

/-- Where the answer to a statement takes the recorder. -/
def Phase.next (maxRows : Nat) (phase : Phase) : (s : Statement) → s.Reply → Phase
  | .begin, .ok _ => .begun
  | .lockDenials, .ok true => .locked
  | .query (.deniedCount _), .ok (count : Nat) => if maxRows ≤ count then phase else .counted
  | .write _, .ok _ => .recorded
  | .commit, _ => .closed
  | .rollback, _ => .closed
  | _, _ => phase

/-- A recorder's discipline. -/
def recorders (maxRows : Nat) : Discipline statements Phase where
  permits := Phase.permits maxRows
  after := fun phase s reply phase' => phase' = phase.next maxRows s reply

variable {maxRows : Nat} {phase : Phase} {input : DeniedMutation}

theorem recorders_roundTrip {s : Statement} {Q : s.Reply → Phase → Prop} :
    Keeps (recorders maxRows) (roundTrip s) phase Q ↔
      phase.permits maxRows s ∧ ∀ reply, Q reply (phase.next maxRows s reply) := by
  refine and_congr Iff.rfl ⟨fun h reply => h reply _ rfl, ?_⟩
  rintro h reply _ rfl
  exact h reply

theorem recorders_query {q : Query} {Q : q.Result → Phase → Prop}
    (hpermits : phase.permits maxRows (.query q))
    (hok : ∀ result, Q result (phase.next maxRows (.query q) (.ok result))) :
    KeepsE (recorders maxRows) (query q) phase Q (fun _ _ => True) :=
  keepsE_ofProgram.mpr (recorders_roundTrip.mpr ⟨hpermits, fun reply => by
    cases reply with
    | ok result => exact hok result
    | error => trivial⟩)

theorem recorders_lockDenials {Q : Bool → Phase → Prop} (hlocked : Q true .locked)
    (hbusy : Q false .begun) :
    KeepsE (recorders maxRows) lockDenials .begun Q (fun _ _ => True) :=
  keepsE_ofProgram.mpr (recorders_roundTrip.mpr ⟨rfl, fun reply => by
    cases reply with
    | ok acquired => cases acquired with
      | true => exact hlocked
      | false => exact hbusy
    | error => trivial⟩)

/-- The body of a recorder. -/
theorem recorders_denialBody : KeepsE (recorders maxRows) (denialBody input maxRows) .begun
    (fun _ _ => True) (fun _ _ => True) := by
  refine keepsE_bind.mpr (recorders_query trivial (fun _ => ?_))
  refine keepsE_bind.mpr (recorders_query trivial (fun _ => ?_))
  refine keepsE_bind.mpr (recorders_query trivial (fun _ => ?_))
  refine keepsE_bind.mpr (recorders_lockDenials ?_ trivial)
  refine keepsE_bind.mpr (recorders_query ⟨rfl, rfl⟩ (fun count => ?_))
  by_cases hcap : maxRows ≤ count
  · rw [if_pos hcap]
    trivial
  · have hcounted : Phase.next maxRows .locked (.query (.deniedCount maxRows)) (.ok count) =
        .counted := if_neg hcap
    rw [if_neg hcap, hcounted]
    refine keepsE_bind.mpr (keepsE_ofProgram.mpr (recorders_roundTrip.mpr
      ⟨⟨rfl, rfl⟩, fun reply => ?_⟩))
    cases reply <;> trivial

theorem recorders_transact {α : Type} {body : DbM α}
    (h : KeepsE (recorders maxRows) body .begun (fun _ _ => True) (fun _ _ => True)) :
    KeepsE (recorders maxRows) (transact body) .closed (fun _ _ => True) (fun _ _ => True) := by
  refine keepsE_bind.mpr (keepsE_ofProgram.mpr (recorders_roundTrip.mpr
    ⟨rfl, fun reply => ?_⟩))
  cases reply with
  | error => trivial
  | ok =>
      refine keepsE_bind.mpr (keepsE_attempt.mpr (h.mono (fun a _ _ => ?_) (fun e _ _ => ?_)))
      · refine keepsE_bind.mpr (keepsE_ofProgram.mpr (recorders_roundTrip.mpr
          ⟨trivial, fun reply => ?_⟩))
        cases reply <;> trivial
      · refine keepsE_bind.mpr (keepsE_ofProgram.mpr (recorders_roundTrip.mpr
          ⟨trivial, fun reply => ?_⟩))
        cases reply <;> trivial

/-- A recorder keeps its discipline. -/
theorem recorders_keep :
    Keeps (recorders maxRows) ((recordedCalls maxRows).program (.denial input)) .closed
      (fun _ _ => True) := by
  have hrecord : KeepsE (recorders maxRows) (recordDeniedMutationBounded input maxRows) .closed
      (fun _ _ => True) (fun _ _ => True) := by
    refine keepsE_bind.mpr (keepsE_lift.mpr (recorders_roundTrip.mpr
      ⟨trivial, fun busy => ?_⟩))
    refine keepsE_bind.mpr ?_
    unfold check
    split
    · exact recorders_transact recorders_denialBody
    · trivial
  exact keeps_bind.mpr (Keeps.mono hrecord fun _ _ _ => trivial)

/-- The session has this transaction, under the denials lock. -/
def Session.Recording (session : Session) (writes : List Write) : Prop :=
  ∃ tx, session.transaction = some tx ∧ tx.denialLock = true ∧ tx.writes = writes

/-- What each phase says of the session and of the committed database. -/
def Phase.Holds (maxRows : Nat) (db : Database) (session : Session) : Phase → Prop
  | .closed => session.transaction = none
  | .begun => ∃ tx, session.transaction = some tx ∧ tx.writes = []
  | .locked => session.Recording []
  | .counted => session.Recording [] ∧ db.denied.length < maxRows
  | .recorded => (∃ row, row.outcome = .denied ∧
      session.Recording [.insert (.serverAudit row)]) ∧ db.denied.length < maxRows

section Steps

variable {engine : Engine} {others : List Session} {db : Database} {now : Timestamp}
  {session : Session} {s : Statement} {choice : Choice}

theorem Session.updateTransaction_of_open {tx : Transaction}
    (h : session.transaction = some tx) (f : Transaction → Transaction) :
    (session.updateTransaction f).transaction = some (f tx) := by
  simp [Session.updateTransaction, h]

theorem Session.Recording.view (h : session.Recording []) : session.view db = db := by
  obtain ⟨tx, htx, -, hwrites⟩ := h
  rw [Session.view_of_open htx, hwrites]
  rfl

/-- The count is exact, up to the cap. -/
theorem Phase.Holds.count (h : Phase.Holds maxRows db session .locked) :
    (phase.next maxRows (.query (.deniedCount maxRows))
      (.ok (Query.eval engine now (session.view db) (.deniedCount maxRows)))) =
      if maxRows ≤ db.denied.length then phase else .counted := by
  have hcount : maxRows ≤ Nat.min maxRows (db.denied.length) ↔ maxRows ≤ db.denied.length := by
    rw [show Nat.min maxRows db.denied.length = min maxRows db.denied.length from rfl]
    omega
  rw [Session.Recording.view h]
  simp only [Phase.next, Query.eval]
  exact if_congr hcount rfl rfl

/-- A statement of a recorder that goes as it should. -/
theorem Phase.Holds.run (h : phase.Holds maxRows db session) (hpermits : phase.permits maxRows s)
    {done : Performed s} (hdone : performRun engine others db now session s = some done) :
    (phase.next maxRows s done.1).Holds maxRows db done.2.1 := by
  cases s with
  | inTransaction =>
      obtain rfl := Option.some.inj hdone
      exact h
  | begin =>
      obtain rfl : phase = .closed := hpermits
      have hnone : session.transaction = none := h
      simp only [performRun, hnone] at hdone
      obtain rfl := Option.some.inj hdone
      exact ⟨.fresh, rfl, rfl⟩
  | query q =>
      cases q with
      | deniedCount maximum =>
          obtain ⟨rfl, rfl⟩ := hpermits
          obtain rfl := Option.some.inj hdone
          rw [Phase.Holds.count h]
          split
          next => exact h
          next hcap => exact ⟨h, Nat.lt_of_not_le hcap⟩
      | setLocal => obtain rfl := Option.some.inj hdone; exact h
      | schema => obtain rfl := Option.some.inj hdone; exact h
      | _ => exact hpermits.elim
  | lockDenials =>
      obtain rfl : phase = .begun := hpermits
      obtain ⟨tx, htx, hwrites⟩ := h
      simp only [performRun] at hdone
      split at hdone
      next =>
        obtain rfl := Option.some.inj hdone
        exact ⟨tx, htx, hwrites⟩
      next =>
        obtain rfl := Option.some.inj hdone
        exact ⟨{ tx with denialLock := true }, Session.updateTransaction_of_open htx _, rfl, hwrites⟩
  | write w =>
      cases w with
      | insert row =>
          cases row with
          | serverAudit row =>
              obtain ⟨rfl, hdenied⟩ := hpermits
              obtain ⟨⟨tx, htx, hlock, hwrites⟩, hcount⟩ := h
              obtain ⟨session', hwrite, rfl⟩ := Option.map_eq_some_iff.mp hdone
              simp only [performWrite] at hwrite
              split at hwrite
              next =>
                obtain rfl := Option.some.inj hwrite
                exact ⟨⟨row, hdenied, _, Session.updateTransaction_of_open htx _, hlock,
                  congrArg (· ++ [_]) hwrites⟩, hcount⟩
              next => cases hwrite
          | _ => exact hpermits.elim
      | _ => exact hpermits.elim
  | commit =>
      obtain ⟨tx, -, rfl⟩ := Option.map_eq_some_iff.mp hdone
      exact rfl
  | rollback =>
      obtain ⟨tx, -, rfl⟩ := Option.map_eq_some_iff.mp hdone
      exact rfl
  | _ => exact hpermits.elim

/-- A statement that fails leaves the recorder where it is, or closes it. -/
theorem Phase.Holds.fail (h : phase.Holds maxRows db session) (hpermits : phase.permits maxRows s)
    {e : StorageError} {done : Performed s} (hdone : performFail session e s = some done) :
    (phase.next maxRows s done.1).Holds maxRows db done.2.1 := by
  cases s with
  | query q =>
      obtain rfl := Option.some.inj hdone
      cases q <;> exact h
  | begin => obtain rfl := Option.some.inj hdone; exact h
  | lockDenials => obtain rfl := Option.some.inj hdone; exact h
  | write => obtain rfl := Option.some.inj hdone; exact h
  | commit =>
      obtain ⟨tx, -, rfl⟩ := Option.map_eq_some_iff.mp hdone
      exact rfl
  | rollback =>
      obtain ⟨tx, -, rfl⟩ := Option.map_eq_some_iff.mp hdone
      exact rfl
  | inTransaction => cases hdone
  | _ => exact hpermits.elim

/-- **Phases.**  Every statement of a recorder keeps what its phase says. -/
theorem Phase.Holds.perform (h : phase.Holds maxRows db session)
    (hpermits : phase.permits maxRows s) {done : Performed s}
    (hdone : perform engine others db now session s choice = some done) :
    (phase.next maxRows s done.1).Holds maxRows db done.2.1 := by
  cases choice with
  | run => exact h.run hpermits hdone
  | fail e => exact h.fail hpermits hdone
  | lost =>
      cases s with
      | commit =>
          obtain ⟨tx, -, rfl⟩ := Option.map_eq_some_iff.mp hdone
          exact rfl
      | ask => exact hpermits.elim
      | _ => simp [Server.perform] at hdone
  | _ =>
      cases s with
      | ask => exact hpermits.elim
      | _ => simp [Server.perform] at hdone

end Steps

end Phases

section Cap

variable {engine : Engine} {maxRows : Nat} {w w' : World (recordedCalls maxRows)}
  {e : Event (recordedCalls maxRows)}

theorem Database.denied_applyAll (db : Database) (writes : List Write) :
    (db.applyAll writes).denied = db.denied ++
      (writes.filterMap (Write.inserted Row.serverAudit?)).filter
        (fun audit => audit.outcome = .denied) := by
  have hstable : ∀ row : Row, row.stable = false → Row.serverAudit? row = none := by
    intro row hrow
    cases row with
    | serverAudit => cases hrow
    | _ => rfl
  rw [denied, serverAudit, filterMap_applyAll hstable, List.filter_append]
  rfl

/-- A write call leaves the denied rows alone. -/
theorem denied_of_accepted {request : TrustedRequest} {tx : Transaction}
    (h : (trustedContract engine).accepts request tx) (db : Database) :
    (db.applyAll tx.writes).denied = db.denied := by
  rw [Database.denied_applyAll]
  obtain ⟨-, hnone⟩ | ⟨-, -, hleaves⟩ := accepted_leaves h
  · simp [hnone]
  · have haccepted : request.evidence.audit.outcome = .accepted := by cases request <;> rfl
    simp [hleaves.audit, haccepted]

theorem Phase.Holds.of_db {db db' : Database} {session : Session} {phase : Phase}
    (h : phase.Holds maxRows db session)
    (hdb : db'.denied.length = db.denied.length ∨
      ∀ tx, session.transaction = some tx → tx.denialLock = false) :
    phase.Holds maxRows db' session := by
  have hlocked : ∀ {writes}, session.Recording writes →
      db'.denied.length = db.denied.length := by
    rintro writes ⟨tx, htx, hlock, -⟩
    refine hdb.resolve_right (fun hfree => ?_)
    rw [hfree tx htx] at hlock
    cases hlock
  cases phase with
  | closed => exact h
  | begun => exact h
  | locked => exact h
  | counted => exact ⟨h.1, by rw [hlocked h.1]; exact h.2⟩
  | recorded =>
      obtain ⟨⟨row, hdenied, hrecording⟩, hcount⟩ := h
      exact ⟨⟨row, hdenied, hrecording⟩, by rw [hlocked hrecording]; exact hcount⟩

/-- What a recorder commits. -/
theorem Phase.Holds.commit {db : Database} {session : Session} {phase : Phase}
    (h : phase.Holds maxRows db session) {tx : Transaction} (htx : session.transaction = some tx) :
    (db.applyAll tx.writes).denied = db.denied ∨
      (tx.denialLock = true ∧ (db.applyAll tx.writes).denied.length = db.denied.length + 1 ∧
        db.denied.length < maxRows) := by
  have hnone : tx.writes = [] → (db.applyAll tx.writes).denied = db.denied := by
    intro hwrites
    rw [hwrites]
    rfl
  cases phase with
  | closed => cases htx.symm.trans h
  | begun =>
      obtain ⟨tx', htx', hwrites⟩ := h
      exact .inl (hnone (Option.some.inj (htx.symm.trans htx') ▸ hwrites))
  | locked =>
      obtain ⟨tx', htx', -, hwrites⟩ := h
      exact .inl (hnone (Option.some.inj (htx.symm.trans htx') ▸ hwrites))
  | counted =>
      obtain ⟨⟨tx', htx', -, hwrites⟩, -⟩ := h
      exact .inl (hnone (Option.some.inj (htx.symm.trans htx') ▸ hwrites))
  | recorded =>
      obtain ⟨⟨row, hdenied, tx', htx', hlock, hwrites⟩, hcount⟩ := h
      obtain rfl := Option.some.inj (htx.symm.trans htx')
      refine .inr ⟨hlock, ?_, hcount⟩
      rw [Database.denied_applyAll, hwrites]
      simp [Write.inserted, Row.serverAudit?, hdenied]

namespace World

/-- **The invariant.**  The cap holds, and every recorder is in some phase. -/
structure Capped (w : World (recordedCalls maxRows)) : Prop where
  capped : w.db.denied.length ≤ maxRows
  phases : ∀ (i : Nat) (call : Running (recordedCalls maxRows)) input, w.calls[i]? = some call →
    call.request = .denial input → ∃ phase : Phase, phase.Holds maxRows w.db call.session ∧
      ∀ rest, call.rest = some rest → Keeps (recorders maxRows) rest phase (fun _ _ => True)

/-- What a commit does to the denied rows. -/
theorem Capped.commit (hcap : w.Capped) {i : Nat} {call : Running (recordedCalls maxRows)} {tx : Transaction}
    (hcall : w.calls[i]? = some call) (htx : call.session.transaction = some tx)
    (haccepts : (recordedContract maxRows engine).accepts call.request tx) :
    (w.db.applyAll tx.writes).denied = w.db.denied ∨
      (tx.denialLock = true ∧ (w.db.applyAll tx.writes).denied.length = w.db.denied.length + 1 ∧
        w.db.denied.length < maxRows) := by
  cases hrequest : call.request with
  | write request =>
      rw [hrequest] at haccepts
      exact .inl (denied_of_accepted haccepts w.db)
  | denial input =>
      obtain ⟨phase, hholds, -⟩ := hcap.phases i call input hcall hrequest
      exact hholds.commit htx

theorem Capped.after (hcap : w.Capped) (hinv : w.Inv (recordedContract maxRows engine))
    {i : Nat} {call : Running (recordedCalls maxRows)} {s : Statement}
    {next : s.Reply → Call (recordedCalls maxRows).Outcome} {choice : Choice} {done : Performed s}
    (hcall : w.calls[i]? = some call) (hrest : call.rest = some (.perform s next))
    (hdone : perform engine (w.others i) w.db w.now call.session s choice = some done) :
    Capped (w.after i call s next done) := by
  have hpermits := (hinv.step_kept hcall hrest hdone).1
  -- a commit of a denied row is made under the lock, below the cap
  have hdb : (w.after i call s next done).db.denied.length = w.db.denied.length ∨
      ∃ tx, w.Opened i tx ∧ tx.denialLock = true ∧ done.2.1.transaction = none ∧
        (w.after i call s next done).db.denied.length = w.db.denied.length + 1 ∧
        w.db.denied.length < maxRows := by
    cases hcommitted : done.2.2 with
    | none => exact .inl (by simp [World.after, hcommitted])
    | some tx =>
        obtain ⟨htx, haccepts, hnone⟩ := perform_committed hpermits hdone hcommitted
        have heq : (w.after i call s next done).db = w.db.applyAll tx.writes := by
          simp [World.after, hcommitted]
        rw [heq]
        obtain hsame | ⟨hlock, hone, hlt⟩ := hcap.commit hcall htx haccepts
        · exact .inl (congrArg List.length hsame)
        · exact .inr ⟨tx, ⟨call, hcall, htx⟩, hlock, hnone, hone, hlt⟩
  constructor
  · have := hcap.capped
    obtain hsame | ⟨tx, -, -, -, hone, hlt⟩ := hdb <;> omega
  · intro j call' input hcall' hrequest
    by_cases hj : j = i
    · subst hj
      rw [calls_after hcall] at hcall'
      obtain rfl := Option.some.inj hcall'
      obtain ⟨phase, hholds, hkeeps⟩ := hcap.phases j call input hcall hrequest
      obtain ⟨hphase, hnext⟩ := hkeeps _ hrest
      refine ⟨phase.next maxRows s done.1, (hholds.perform hphase hdone).of_db ?_, ?_⟩
      · obtain hsame | ⟨tx, -, -, hnone, -⟩ := hdb
        · exact .inl hsame
        · exact .inr (fun tx htx => by rw [hnone] at htx; cases htx)
      · intro rest hrest'
        obtain rfl := Option.some.inj hrest'
        exact hnext done.1 _ rfl
    · rw [calls_after_of_ne hj] at hcall'
      obtain ⟨phase, hholds, hkeeps⟩ := hcap.phases j call' input hcall' hrequest
      refine ⟨phase, hholds.of_db ?_, hkeeps⟩
      obtain hsame | ⟨tx, hopen, hlock, -⟩ := hdb
      · exact .inl hsame
      · exact .inr (fun tx' htx' =>
          (hinv.apart i j tx tx' (Ne.symm hj) hopen ⟨call', hcall', htx'⟩).denials hlock)

theorem Capped.step (hinv : w.Inv (recordedContract maxRows engine)) (hcap : w.Capped)
    (h : World.step engine w e = some w') : w'.Capped := by
  cases stepped h with
  | started request =>
      refine ⟨hcap.capped, fun i call input hcall hrequest => ?_⟩
      rw [List.getElem?_append] at hcall
      split at hcall
      · exact hcap.phases i call input hcall hrequest
      · rw [List.getElem?_singleton] at hcall
        split at hcall
        · obtain rfl := Option.some.inj hcall
          obtain rfl : request = .denial input := hrequest
          refine ⟨.closed, rfl, fun rest hrest => ?_⟩
          obtain rfl := Option.some.inj hrest
          exact recorders_keep
        · cases hcall
  | ticked => exact ⟨hcap.capped, hcap.phases⟩
  | @dropped j call hcall =>
      refine ⟨hcap.capped, fun i call' input hcall' hrequest => ?_⟩
      by_cases hi : i = j
      · subst hi
        obtain ⟨hlt, -⟩ := List.getElem?_eq_some_iff.mp hcall
        obtain rfl : call.cutOff = call' := by simpa [hlt] using hcall'
        exact ⟨.closed, rfl, fun rest hrest => by cases hrest⟩
      · exact hcap.phases i call' input (by simpa [Ne.symm hi] using hcall') hrequest
  | performed hcall hrest hdone => exact hcap.after hinv hcall hrest hdone

theorem capped_of_leads {w₀ : World (recordedCalls maxRows)} (hstart : w₀.Start)
    (hcap : w₀.db.denied.length ≤ maxRows)
    (h : (machine engine (recordedCalls maxRows)).Leads w₀ w) : w.Capped := by
  induction h with
  | refl => exact ⟨hcap, fun i call input hcall => by simp [hstart.calls] at hcall⟩
  | step hrun hst ih =>
      exact ih.step (inv_of_reachable (recordedContract maxRows engine) ⟨_, hstart, hrun⟩) hst

end World

/-- What holds in `w` when denied rows are capped. -/
structure DenialCap (engine : Engine) (maxRows : Nat) (w : World (recordedCalls maxRows)) :
    Prop where
  /-- the denied rows never exceed the cap -/
  capped : w.db.denied.length ≤ maxRows
  /-- the database changes by whole commits only -/
  unchanged : ∀ e w', World.step engine w e = some w' → w'.db = w.db ∨
    ∃ i choice tx, e = .step i choice ∧ w'.db = w.db.applyAll tx.writes ∧
      w'.history = w.history ++ [.committed i tx w.db w.now]
  /-- a recorder that answers that its row is retained has added that row only -/
  retained : ∀ (i : Nat) (call : Running (recordedCalls maxRows)) input, w.calls[i]? = some call →
    call.request = .denial input → call.outcome? = some (.denial (.ok .retained)) →
    ∃ tx before clock, w.commitsOf i = [(tx, before, clock)] ∧
      before.applyAll tx.writes = before ++ [.serverAudit input.row]
  /-- one that answers anything else has changed nothing -/
  unretained : ∀ (i : Nat) (call : Running (recordedCalls maxRows)) input stored,
    w.calls[i]? = some call → call.request = .denial input →
    call.outcome? = some (.denial (.ok stored)) → stored ≠ .retained →
    ∀ tx before clock, (tx, before, clock) ∈ w.commitsOf i → before.applyAll tx.writes = before
  /-- nor has one that fails, unless it is its COMMIT that failed -/
  failed : ∀ (i : Nat) (call : Running (recordedCalls maxRows)) input e, w.calls[i]? = some call →
    call.request = .denial input → call.outcome? = some (.denial (.error e)) →
    call.session.doubtful = [] → w.commitsOf i = []
  /-- whatever its COMMIT was told, it has added at most its row -/
  bounded : ∀ (i : Nat) (call : Running (recordedCalls maxRows)) input outcome,
    w.calls[i]? = some call → call.request = .denial input →
    call.outcome? = some (.denial outcome) → (w.commitsOf i).length ≤ 1 ∧
    ∀ tx before clock, (tx, before, clock) ∈ w.commitsOf i →
      before.applyAll tx.writes = before ∨
        before.applyAll tx.writes = before ++ [.serverAudit input.row]

section Main

variable {engine : Engine} {maxRows : Nat} {w w₀ : World (recordedCalls maxRows)}

/-- How a finished recorder has ended. -/
theorem recorder_ended (hinv : w.Inv (recordedContract maxRows engine)) {i : Nat}
    {call : Running (recordedCalls maxRows)} {input : DeniedMutation}
    {outcome : Except StorageError DenialStorage} (hcall : w.calls[i]? = some call)
    (hrequest : call.request = .denial input) (houtcome : call.outcome? = some (.denial outcome)) :
    Finished (DenialStored input) (fun _ _ => True) .idle outcome call.session := by
  have hends := hinv.ended hcall houtcome
  rw [hrequest] at hends
  obtain ⟨stored, heq, hfinished⟩ := hends
  exact RecordedOutcome.denial.inj heq ▸ hfinished

/-- **The cap of denied rows.** -/
theorem denial_cap (hstart : w₀.Start) (hcap : w₀.db.denied.length ≤ maxRows)
    (h : (World.machine engine (recordedCalls maxRows)).Leads w₀ w) :
    DenialCap engine maxRows w := by
  have hreachable : (World.machine engine (recordedCalls maxRows)).Reachable w := ⟨w₀, hstart, h⟩
  have hinv := World.inv_of_reachable (recordedContract maxRows engine) hreachable
  exact {
    capped := (World.capped_of_leads hstart hcap h).capped
    unchanged := fun e w' hst => by
      cases hinv.shared hst with
      | unchanged db => exact .inl db
      | commits event _ db _ history => exact .inr ⟨_, _, _, event, db, history⟩
    retained := fun i call input hcall hrequest houtcome => by
      obtain ⟨tx, hcommitted, hdoubtful, hstored⟩ :=
        (recorder_ended hinv hcall hrequest houtcome).committed_of_ok Session.calm_idle
      obtain ⟨before, clock, hmem⟩ := hinv.acknowledged i call hcall tx (by simp [hcommitted])
      have hlength := (World.told_of_reachable (recordedContract maxRows engine) hreachable
        hcall).counted
      rw [hcommitted, hdoubtful] at hlength
      obtain ⟨only, honly⟩ := List.length_eq_one_iff.mp (le_antisymm hlength
        (List.length_pos_of_mem (World.mem_commitsOf.mpr hmem)))
      have heq : (tx, before, clock) = only := by
        simpa [honly] using World.mem_commitsOf.mpr hmem
      refine ⟨tx, before, clock, heq ▸ honly, ?_⟩
      rw [hstored.retained rfl]
      rfl
    unretained := fun i call input stored hcall hrequest houtcome hne tx before clock hmem => by
      obtain ⟨tx', hcommitted, hdoubtful, hstored⟩ :=
        (recorder_ended hinv hcall hrequest houtcome).committed_of_ok Session.calm_idle
      obtain ⟨call', hcall', -, hrecorded⟩ :=
        hinv.carriedOut i tx before clock (World.mem_commitsOf.mp hmem)
      obtain rfl := Option.some.inj (hcall.symm.trans hcall')
      obtain rfl : tx = tx' := by simpa [hcommitted, hdoubtful] using hrecorded
      rw [hstored.unretained hne]
      rfl
    failed := fun i call input e hcall hrequest houtcome hdoubtful => by
      have hfinished := recorder_ended hinv hcall hrequest houtcome
      refine List.eq_nil_iff_forall_not_mem.mpr ?_
      rintro ⟨tx, before, clock⟩ hmem
      have hnone : call.session.committed = [] := by
        generalize call.session = session at hfinished
        cases hfinished <;> rfl
      exact hinv.uncommitted hcall hnone hdoubtful tx before clock (World.mem_commitsOf.mp hmem)
    bounded := fun i call input outcome hcall hrequest houtcome => by
      have hfinished := recorder_ended hinv hcall hrequest houtcome
      have hcounted := (World.told_of_reachable (recordedContract maxRows engine) hreachable
        hcall).counted
      have hlength : call.session.committed.length + call.session.doubtful.length ≤ 1 := by
        generalize call.session = session at hfinished
        cases hfinished <;>
          simp [Session.commit, Session.doubt, Session.abandon, Session.at, Session.idle]
      refine ⟨hcounted.trans hlength, fun tx before clock hmem => ?_⟩
      obtain ⟨call', hcall', haccepts, -⟩ :=
        hinv.carriedOut i tx before clock (World.mem_commitsOf.mp hmem)
      obtain rfl := Option.some.inj (hcall.symm.trans hcall')
      rw [hrequest] at haccepts
      have hcommits : DenialCommits input tx := haccepts
      obtain hnone | hrow := hcommits.writes
      · exact .inl (by rw [hnone]; rfl)
      · exact .inr (by rw [hrow]; rfl) }

def sampleDenial (id : LocalId) : DeniedMutation := ⟨⟨id⟩, none, sampleAudit, .systemCreate⟩

/-- Two recorders, one of which finds the lock taken, a creation, and a recorder that
finds no room. -/
def sampleRecorders : List (Event (recordedCalls 1)) :=
  [.start (RecordedRequest.denial (sampleDenial sampleChild)),
    .start (RecordedRequest.denial (sampleDenial sampleChild))] ++
  runs 0 6 ++ runs 1 7 ++ runs 0 3 ++
  [.start (RecordedRequest.write (.create (sampleCreate sampleParent "urn:parent" none) none))] ++
  runs 2 3 ++ [.step 2 (.allow true)] ++ runs 2 9 ++
  [.start (RecordedRequest.denial (sampleDenial sampleChild))] ++ runs 3 8

/-- How a recorder has ended. -/
def RecordedOutcome.stored? : RecordedOutcome → Option DenialStorage
  | .denial (.ok stored) => some stored
  | _ => none

theorem denial_cap_run : ∃ w : World (recordedCalls 1),
    (World.machine sampleEngine (recordedCalls 1)).runEvents (World.empty (recordedCalls 1))
      sampleRecorders = some w ∧
    w.calls.map (fun call => call.outcome?.bind RecordedOutcome.stored?) =
      [some .retained, some .busy, none, some .capacity] ∧
    w.db.denied.length = 1 ∧ DenialCap sampleEngine 1 w := by
  have hrun : ((World.machine sampleEngine (recordedCalls 1)).runEvents
      (World.empty (recordedCalls 1)) sampleRecorders).map (fun w =>
        (w.calls.map (fun call => call.outcome?.bind RecordedOutcome.stored?),
          w.db.denied.length)) =
      some ([some .retained, some .busy, none, some .capacity], 1) := by decide +kernel
  obtain ⟨w, hw, hends⟩ := Option.map_eq_some_iff.mp hrun
  obtain ⟨houtcomes, hlength⟩ := Prod.mk.inj hends
  exact ⟨w, hw, houtcomes, hlength, denial_cap (World.start_empty (recordedCalls 1))
    (Nat.zero_le _) (Machine.leads_of_runEvents hw)⟩

/-- The COMMIT of a recorder is carried out and its reply is lost: the call ends in an
error, and its row is there. -/
theorem recorded_after_lost_commit : ∃ w : World (recordedCalls 1),
    (World.machine sampleEngine (recordedCalls 1)).runEvents (World.empty (recordedCalls 1))
      ([.start (RecordedRequest.denial (sampleDenial sampleChild))] ++ runs 0 8 ++
        [.step 0 .lost]) = some w ∧
    w.calls.map (fun call => call.outcome?.bind RecordedOutcome.stored?) = [none] ∧
    w.calls.map (fun call => call.outcome?.isSome) = [true] ∧ w.db.denied.length = 1 := by
  have hrun : ((World.machine sampleEngine (recordedCalls 1)).runEvents
      (World.empty (recordedCalls 1)) ([.start (RecordedRequest.denial (sampleDenial sampleChild))]
        ++ runs 0 8 ++ [.step 0 .lost])).map (fun w =>
        (w.calls.map (fun call => call.outcome?.bind RecordedOutcome.stored?),
          w.calls.map (fun call => call.outcome?.isSome), w.db.denied.length)) =
      some ([none], [true], 1) := by decide +kernel
  obtain ⟨w, hw, hends⟩ := Option.map_eq_some_iff.mp hrun
  obtain ⟨houtcomes, hends⟩ := Prod.mk.inj hends
  obtain ⟨hended, hlength⟩ := Prod.mk.inj hends
  exact ⟨w, hw, houtcomes, hended, hlength⟩

end Main

end Cap

end Server
end Glaux
