import Glaux.Server.Storage.Session

/-!
# The discipline of the server's programs

What the server's calls keep to: locks are taken once and inside a transaction,
a retry row is looked up and stored under the lock of its scope, a head is read
and moved under the lock of its System, and only an accepted transaction is
committed.  One rule for each statement says what is left to show of a program
after it.
-/

namespace Glaux
namespace Server

open Domain Library

/-- Programs of a call that can end in a storage error. -/
abbrev DbM := Fallible statements StorageError

/-- Programs of a call. -/
abbrev Call := Program statements

section Statements

def roundTrip (s : Statement) : Call s.Reply := .perform s .done

def query (q : Query) : DbM q.Result := Fallible.ofProgram (roundTrip (.query q))

def begin_ : DbM Unit := Fallible.ofProgram (roundTrip .begin)

def lockScope (scope : RetryScope) : DbM Unit :=
  Fallible.ofProgram (roundTrip (.lockScope scope))

def lockSystem (id : LocalId) : DbM Bool := Fallible.ofProgram (roundTrip (.lockSystem id))

def lockDenials : DbM Bool := Fallible.ofProgram (roundTrip .lockDenials)

def write (w : Write) : DbM Unit := Fallible.ofProgram (roundTrip (.write w))

def storeRetry (scope : RetryScope) (digest : Bytes) (receipt : WriteReceipt)
    (seconds : Nat) : DbM Bool :=
  Fallible.ofProgram (roundTrip (.storeRetry scope digest receipt seconds))

def commit : DbM Unit := Fallible.ofProgram (roundTrip .commit)

def rollback : DbM Unit := Fallible.ofProgram (roundTrip .rollback)

def inTransaction : Call Bool := roundTrip .inTransaction

def ask (question : Question) : Call question.Answer := roundTrip (.ask question)

def decided (decision : Decision) : Call Unit := roundTrip (.decided decision)

def setCallbackError (kind : AccessKind) : Call Unit := roundTrip (.setCallbackError kind)

def callbackError : Call AccessKind := roundTrip .callbackError

end Statements

/-- The transaction creates this System. -/
def Transaction.creates (tx : Transaction) (id : LocalId) : Prop :=
  ∃ label, Write.insert (.systemIdentity ⟨id, label⟩) ∈ tx.writes

/-- The System a row is created with: its parent, its provenance, its head. -/
def Row.owner? : Row → Option LocalId
  | .systemParent row => some row.childId
  | .outgoingWork row =>
      match row.kind with
      | .systemCreated => some row.systemId
      | .systemUpdated => none
  | .systemWriteHead row => some row.systemId
  | _ => none

/-- Writes a transaction may make on its own locks.  A row that is created with a
System is inserted with it; a head is moved to a revision of the same transaction
once it has been read. -/
def Transaction.mayWrite (tx : Transaction) : Write → Prop
  | .insert (.systemCreateRetry _) => False
  | .insert row => ∀ id ∈ row.owner?, tx.creates id
  | .label id _ => tx.systemLock = some id
  | .head row =>
      tx.systemLock = some row.systemId ∧ (∃ r, tx.head = some (some r)) ∧
        ∃ revision, Write.insert (.systemRevision revision) ∈ tx.writes ∧
          revision.id = row.revisionId
  | .retry _ => False

/-- The transaction has inserted the outgoing work of a creation. -/
def Transaction.emits (tx : Transaction) (receipt : WriteReceipt) : Prop :=
  Write.insert (.outgoingWork ⟨receipt.eventId, receipt.systemId, receipt.revisionId,
    receipt.artifactId, receipt.auditId, .systemCreated⟩) ∈ tx.writes

/-- No retry row is stored yet. -/
def Transaction.retryFree (tx : Transaction) : Prop :=
  ∀ row, Write.retry row ∉ tx.writes

/-- No transaction has been committed or is under way. -/
structure Session.Calm (session : Session) : Prop where
  closed : session.transaction = none
  committed : session.committed = []
  doubtful : session.doubtful = []

theorem Session.calm_idle : Session.idle.Calm := ⟨rfl, rfl, rfl⟩

/-- What a session may do next. -/
def Session.permits (accepts : Transaction → Prop) (session : Session) : Statement → Prop
  | .query (.retry scope) =>
      ∃ tx, session.transaction = some tx ∧ tx.scopeLock = some scope ∧ tx.writes = []
  | .query (.head id) =>
      ∃ tx, session.transaction = some tx ∧ tx.systemLock = some id ∧ tx.writes = []
  | .query (.systemSource _) => session.Calm
  | .query (.listRows ..) => session.Calm
  | .begin => session.transaction = none
  | .lockScope _ => ∃ tx, session.transaction = some tx ∧ tx.scopeLock = none
  | .lockSystem _ => ∃ tx, session.transaction = some tx ∧ tx.systemLock = none
  | .lockDenials => session.transaction.isSome
  | .write w => ∃ tx, session.transaction = some tx ∧ tx.mayWrite w
  | .storeRetry scope _ receipt _ =>
      ∃ tx, session.transaction = some tx ∧ tx.scopeLock = some scope ∧ tx.retryFree ∧
        tx.emits receipt
  | .commit => ∃ tx, session.transaction = some tx ∧ accepts tx
  | .rollback => session.transaction.isSome
  | .decided (.intent receipt _) => ∃ tx, session.transaction = some tx ∧
      tx.decisions.getLast? = some (.create receipt true true)
  | _ => True

/-- Where a reply can leave a session. -/
def Session.follows (engine : Engine) (session : Session) (s : Statement) (reply : s.Reply)
    (session' : Session) : Prop :=
  ∃ others db now choice committed,
    perform engine others db now session s choice = some (reply, session', committed)

/-- The discipline with a given set of acceptable transactions. -/
def discipline (engine : Engine) (accepts : Transaction → Prop) :
    Discipline statements Session where
  permits := Session.permits accepts
  after := Session.follows engine

section Rules

attribute [local simp] perform performRun performFail performAsk

variable {engine : Engine} {accepts : Transaction → Prop} {session : Session}

theorem keeps_query {q : Query} {Q : q.Result → Session → Prop}
    {E : StorageError → Session → Prop}
    (hpermits : session.permits accepts (.query q))
    (hok : ∀ now result, Q result (session.note now q result))
    (herror : ∀ e, E e session) :
    KeepsE (discipline engine accepts) (query q) session Q E := by
  refine ⟨hpermits, ?_⟩
  rintro reply session' ⟨others, db, now, choice, committed, h⟩
  cases choice with
  | run =>
      obtain ⟨rfl, rfl, rfl⟩ := by simpa [perform, performRun] using h
      exact hok _ _
  | fail e =>
      obtain ⟨rfl, rfl, rfl⟩ := by simpa [perform, performFail] using h
      exact herror e
  | _ => simp [perform] at h

/-- The digest is the database's. -/
theorem keeps_sha256 {content : Bytes} {Q : Bytes → Session → Prop}
    {E : StorageError → Session → Prop}
    (hok : Q (engine.sha256 content) session) (herror : ∀ e, E e session) :
    KeepsE (discipline engine accepts) (query (.sha256 content)) session Q E := by
  refine ⟨trivial, ?_⟩
  rintro reply session' ⟨others, db, now, choice, committed, h⟩
  cases choice with
  | run =>
      obtain ⟨rfl, rfl, rfl⟩ := by
        simpa [perform, performRun, Session.note, Query.eval] using h
      exact hok
  | fail e =>
      obtain ⟨rfl, rfl, rfl⟩ := by simpa [perform, performFail] using h
      exact herror e
  | _ => simp [perform] at h

theorem keeps_begin {Q : Unit → Session → Prop} {E : StorageError → Session → Prop}
    (hclosed : session.transaction = none)
    (hok : Q () { session with transaction := some .fresh })
    (herror : ∀ e, E e session) :
    KeepsE (discipline engine accepts) begin_ session Q E := by
  refine ⟨hclosed, ?_⟩
  rintro reply session' ⟨others, db, now, choice, committed, h⟩
  cases choice with
  | run =>
      obtain ⟨rfl, rfl, rfl⟩ := by simpa [perform, performRun, hclosed] using h
      exact hok
  | fail e =>
      obtain ⟨rfl, rfl, rfl⟩ := by simpa [perform, performFail] using h
      exact herror e
  | _ => simp [perform] at h

variable {tx : Transaction}

theorem keeps_lockScope {scope : RetryScope} {Q : Unit → Session → Prop}
    {E : StorageError → Session → Prop} (htx : session.transaction = some tx)
    (hfree : tx.scopeLock = none)
    (hok : Q () { session with transaction := some { tx with scopeLock := some scope } })
    (herror : ∀ e, E e session) :
    KeepsE (discipline engine accepts) (lockScope scope) session Q E := by
  refine ⟨⟨tx, htx, hfree⟩, ?_⟩
  rintro reply session' ⟨others, db, now, choice, committed, h⟩
  cases choice with
  | run =>
      simp only [perform, performRun, Session.updateTransaction, htx, Option.map_some] at h
      split at h
      next => cases h
      next =>
        obtain ⟨rfl, rfl, rfl⟩ := by simpa using h
        exact hok
  | fail e =>
      obtain ⟨rfl, rfl, rfl⟩ := by simpa [perform, performFail] using h
      exact herror e
  | _ => simp [perform] at h

theorem keeps_lockSystem {id : LocalId} {Q : Bool → Session → Prop}
    {E : StorageError → Session → Prop} (htx : session.transaction = some tx)
    (hfree : tx.systemLock = none)
    (hlocked : Q true { session with transaction := some { tx with systemLock := some id } })
    (hmissing : Q false session) (herror : ∀ e, E e session) :
    KeepsE (discipline engine accepts) (lockSystem id) session Q E := by
  refine ⟨⟨tx, htx, hfree⟩, ?_⟩
  rintro reply session' ⟨others, db, now, choice, committed, h⟩
  cases choice with
  | run =>
      simp only [perform, performRun, Session.updateTransaction, htx, Option.map_some] at h
      split at h
      next => cases h
      next =>
        split at h
        next =>
          obtain ⟨rfl, rfl, rfl⟩ := by simpa using h
          exact hlocked
        next =>
          obtain ⟨rfl, rfl, rfl⟩ := by simpa using h
          exact hmissing
  | fail e =>
      obtain ⟨rfl, rfl, rfl⟩ := by simpa [perform, performFail] using h
      exact herror e
  | _ => simp [perform] at h

theorem keeps_lockDenials {Q : Bool → Session → Prop}
    {E : StorageError → Session → Prop} (htx : session.transaction = some tx)
    (hlocked : Q true { session with transaction := some { tx with denialLock := true } })
    (hbusy : Q false session) (herror : ∀ e, E e session) :
    KeepsE (discipline engine accepts) lockDenials session Q E := by
  refine ⟨by simp [discipline, Session.permits, htx], ?_⟩
  rintro reply session' ⟨others, db, now, choice, committed, h⟩
  cases choice with
  | run =>
      simp only [perform, performRun, Session.updateTransaction, htx, Option.map_some] at h
      split at h
      next =>
        obtain ⟨rfl, rfl, rfl⟩ := by simpa using h
        exact hbusy
      next =>
        obtain ⟨rfl, rfl, rfl⟩ := by simpa using h
        exact hlocked
  | fail e =>
      obtain ⟨rfl, rfl, rfl⟩ := by simpa [perform, performFail] using h
      exact herror e
  | _ => simp [perform] at h

theorem keeps_write {w : Write} {Q : Unit → Session → Prop}
    {E : StorageError → Session → Prop} (htx : session.transaction = some tx)
    (hmay : tx.mayWrite w)
    (hok : Q () { session with transaction := some { tx with writes := tx.writes ++ [w] } })
    (herror : ∀ e, E e session) :
    KeepsE (discipline engine accepts) (write w) session Q E := by
  refine ⟨⟨tx, htx, hmay⟩, ?_⟩
  rintro reply session' ⟨others, db, now, choice, committed, h⟩
  cases choice with
  | run =>
      simp only [perform, performRun, performWrite, Session.updateTransaction, htx,
        Option.map_some, Option.map_if] at h
      split at h
      next =>
        obtain ⟨rfl, rfl, rfl⟩ := by simpa using h
        exact hok
      next => cases h
  | fail e =>
      obtain ⟨rfl, rfl, rfl⟩ := by simpa [perform, performFail] using h
      exact herror e
  | _ => simp [perform] at h

theorem keeps_storeRetry {scope : RetryScope} {digest : Bytes} {receipt : WriteReceipt}
    {seconds : Nat} {Q : Bool → Session → Prop} {E : StorageError → Session → Prop}
    (htx : session.transaction = some tx) (hlock : tx.scopeLock = some scope)
    (hfree : tx.retryFree) (hemits : tx.emits receipt)
    (hstored : ∀ now, Q true { session with transaction := some { tx with writes :=
      tx.writes ++ [.retry ⟨scope, digest, receipt, now, now + seconds * 1000000⟩] } })
    (hkept : Q false session) (herror : ∀ e, E e session) :
    KeepsE (discipline engine accepts) (storeRetry scope digest receipt seconds) session Q E := by
  refine ⟨⟨tx, htx, hlock, hfree, hemits⟩, ?_⟩
  rintro reply session' ⟨others, db, now, choice, committed, h⟩
  cases choice with
  | run =>
      simp only [perform, performRun, performStore, Session.updateTransaction, htx,
        Option.map_some] at h
      split at h
      next =>
        split at h
        next =>
          obtain ⟨rfl, rfl, rfl⟩ := by simpa using h
          exact hstored now
        next =>
          obtain ⟨rfl, rfl, rfl⟩ := by simpa using h
          exact hkept
      next => cases h
  | fail e =>
      obtain ⟨rfl, rfl, rfl⟩ := by simpa [perform, performFail] using h
      exact herror e
  | _ => simp [perform] at h

theorem keeps_commit {Q : Unit → Session → Prop} {E : StorageError → Session → Prop}
    (htx : session.transaction = some tx) (haccepts : accepts tx)
    (hok : Q () (session.commit tx)) (herror : ∀ e, E e (session.doubt tx)) :
    KeepsE (discipline engine accepts) commit session Q E := by
  refine ⟨⟨tx, htx, haccepts⟩, ?_⟩
  rintro reply session' ⟨others, db, now, choice, committed, h⟩
  cases choice with
  | run =>
      obtain ⟨rfl, rfl, rfl⟩ := by simpa [perform, performRun, htx] using h
      exact hok
  | fail e =>
      obtain ⟨rfl, rfl, rfl⟩ := by simpa [perform, performFail, htx] using h
      exact herror e
  | lost =>
      obtain ⟨rfl, rfl, rfl⟩ := by simpa [perform, htx] using h
      exact herror _
  | _ => simp [perform] at h

theorem keeps_rollback {Q : Unit → Session → Prop} {E : StorageError → Session → Prop}
    (htx : session.transaction = some tx) (hok : Q () (session.abandon tx none))
    (herror : ∀ e, E e (session.abandon tx (some e))) :
    KeepsE (discipline engine accepts) rollback session Q E := by
  refine ⟨by simp [discipline, Session.permits, htx], ?_⟩
  rintro reply session' ⟨others, db, now, choice, committed, h⟩
  cases choice with
  | run =>
      obtain ⟨rfl, rfl, rfl⟩ := by simpa [perform, performRun, htx] using h
      exact hok
  | fail e =>
      obtain ⟨rfl, rfl, rfl⟩ := by simpa [perform, performFail, htx] using h
      exact herror e
  | _ => simp [perform] at h

theorem keeps_inTransaction {Q : Bool → Session → Prop}
    (hok : Q session.transaction.isSome session) :
    Keeps (discipline engine accepts) inTransaction session Q := by
  refine ⟨trivial, ?_⟩
  rintro reply session' ⟨others, db, now, choice, committed, h⟩
  cases choice with
  | run =>
      obtain ⟨rfl, rfl, rfl⟩ := by simpa [perform, performRun] using h
      exact hok
  | _ => simp [perform, performFail] at h

theorem keeps_decided {decision : Decision} {Q : Unit → Session → Prop}
    (htx : session.transaction = some tx)
    (hintent : ∀ receipt same, decision = .intent receipt same →
      tx.decisions.getLast? = some (.create receipt true true))
    (hok : Q () { session with
      transaction := some { tx with decisions := tx.decisions ++ [decision] } }) :
    Keeps (discipline engine accepts) (decided decision) session Q := by
  refine ⟨?_, ?_⟩
  · cases decision with
    | intent receipt same => exact ⟨tx, htx, hintent _ _ rfl⟩
    | _ => trivial
  rintro reply session' ⟨others, db, now, choice, committed, h⟩
  cases choice with
  | run =>
      obtain ⟨rfl, rfl, rfl⟩ := by
        simpa [perform, performRun, Session.updateTransaction, htx] using h
      exact hok
  | _ => simp [perform, performFail] at h

theorem keeps_setCallbackError {kind : AccessKind} {Q : Unit → Session → Prop}
    (hok : Q () { session with callbackError := kind }) :
    Keeps (discipline engine accepts) (setCallbackError kind) session Q := by
  refine ⟨trivial, ?_⟩
  rintro reply session' ⟨others, db, now, choice, committed, h⟩
  cases choice with
  | run =>
      obtain ⟨rfl, rfl, rfl⟩ := by simpa [perform, performRun] using h
      exact hok
  | _ => simp [perform, performFail] at h

theorem keeps_callbackError {Q : AccessKind → Session → Prop}
    (hok : Q session.callbackError session) :
    Keeps (discipline engine accepts) callbackError session Q := by
  refine ⟨trivial, ?_⟩
  rintro reply session' ⟨others, db, now, choice, committed, h⟩
  cases choice with
  | run =>
      obtain ⟨rfl, rfl, rfl⟩ := by simpa [perform, performRun] using h
      exact hok
  | _ => simp [perform, performFail] at h

/-- A policy answer is kept in the open transaction, if there is one. -/
theorem keeps_permissions {action : Action} {Q : Option PermissionSet → Session → Prop}
    (hok : ∀ answer, Q answer (session.updateTransaction (fun tx =>
      { tx with decisions := tx.decisions ++ [.policy action answer] }))) :
    Keeps (discipline engine accepts) (ask (.permissions action)) session Q := by
  refine ⟨trivial, ?_⟩
  rintro reply session' ⟨others, db, now, choice, committed, h⟩
  cases choice with
  | policy answer =>
      obtain ⟨rfl, rfl, rfl⟩ := by simpa [perform, performAsk] using h
      exact hok _
  | _ => simp [perform, performRun, performFail, performAsk] at h

/-- The other questions leave the session as it is. -/
theorem keeps_ask {question : Question} {Q : question.Answer → Session → Prop}
    (hquestion : ∀ action, question ≠ .permissions action)
    (hok : ∀ answer, Q answer session) :
    Keeps (discipline engine accepts) (ask question) session Q := by
  refine ⟨trivial, ?_⟩
  rintro reply session' ⟨others, db, now, choice, committed, h⟩
  have hsame : session' = session := by
    cases choice <;> cases question <;>
      simp [perform, performRun, performFail, performAsk] at h hquestion <;>
      exact (Prod.mk.inj (Prod.mk.inj h).2).1.symm
  exact hsame ▸ hok reply

end Rules

end Server
end Glaux
