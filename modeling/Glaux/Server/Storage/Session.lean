import Glaux.Library.Program
import Glaux.Server.Authorization.Storage

/-!
# Sessions and statements

A call of the server owns one connection.  `Statement` lists what a call does
through it, one constructor for each kind of round trip, together with the
questions it asks outside the database (the policy, the denial limiter, the ID
generator).  `Session` is the call's own side: its open transaction with the
locks it holds and the writes not yet committed, and a record of what it was
told.  `perform` executes one statement at READ COMMITTED: every statement reads
the committed rows and the call's own writes.

A statement that has to wait for a lock, or for a row another call has not yet
committed, cannot run; any statement can fail with any error instead.  Waits
that only delay a call (the key-share locks of foreign keys, the guard row of
parent edges) are left out: leaving out a wait adds runs and removes none.
-/

namespace Glaux
namespace Server

open Domain Library

/-- `AccessKind`. -/
inductive AccessKind where
  | denied | notFound | unavailable | badRequest | conflict | precondition
deriving DecidableEq, Repr

/-- What the database computes besides reading rows. -/
structure Engine where
  sha256 : Bytes → Bytes
  /-- `hashtextextended` of the scope text. -/
  lockHash : RetryScope → Int

/-- Reads. -/
inductive Query where
  /-- `check_schema` -/
  | schema
  /-- `SET LOCAL` of a timeout -/
  | setLocal (setting : String)
  | sha256 (content : Bytes)
  | retry (scope : RetryScope)
  | head (id : LocalId)
  | systemSource (id : LocalId)
  | listRows (scope : Json) (exact : Option LocalId) (limit : Nat)
  | currentRows (scope : Json) (exact : LocalId)
  | deniedCount (maximum : Nat)

def Query.Result : Query → Type
  | .schema => Unit
  | .setLocal _ => Unit
  | .sha256 _ => Bytes
  | .retry _ => Option SystemCreateRetry
  | .head _ => Option RevisionId
  | .systemSource _ => Option String
  | .listRows .. => List Sql.ListRow
  | .currentRows .. => List Sql.CurrentRow
  | .deniedCount _ => Nat

/-- Questions answered outside the database. -/
inductive Question where
  /-- `AccessPolicy::permissions`; `none` is a policy error. -/
  | permissions (action : Action)
  /-- A caller's own authorization callbacks. -/
  | authorizeCreate (receipt : WriteReceipt) (replay : Bool)
  | authorizeUpdate
  /-- `DenialState::take_capacity`. -/
  | takeCapacity
  /-- `AuditId::generate`. -/
  | auditId

def Question.Answer : Question → Type
  | .permissions _ => Option PermissionSet
  | .authorizeCreate .. => Bool
  | .authorizeUpdate => Bool
  | .takeCapacity => Bool
  | .auditId => Option AuditId

/-- What was decided in a transaction. -/
inductive Decision where
  | policy (action : Action) (answer : Option PermissionSet)
  | create (receipt : WriteReceipt) (replay : Bool) (allowed : Bool)
  /-- the comparison of a stored digest with the call's own -/
  | intent (receipt : WriteReceipt) (same : Bool)
  | update (allowed : Bool)
deriving DecidableEq

inductive Statement where
  | inTransaction
  | query (q : Query)
  | begin
  /-- `pg_advisory_xact_lock` -/
  | lockScope (scope : RetryScope)
  /-- `SELECT … FOR UPDATE` on the identity row -/
  | lockSystem (id : LocalId)
  /-- `pg_try_advisory_xact_lock` -/
  | lockDenials
  | write (write : Write)
  /-- the conditional upsert of `PreparedRetry::store` -/
  | storeRetry (scope : RetryScope) (digest : Bytes) (receipt : WriteReceipt) (seconds : Nat)
  | commit
  | rollback
  | ask (question : Question)
  /-- keeps in the record of the transaction what was decided -/
  | decided (decision : Decision)
  /-- `callback_error`, the variable a callback shares with its caller -/
  | setCallbackError (kind : AccessKind)
  | callbackError

def Statement.Reply : Statement → Type
  | .inTransaction => Bool
  | .query q => Except StorageError q.Result
  | .begin => Except StorageError Unit
  | .lockScope _ => Except StorageError Unit
  | .lockSystem _ => Except StorageError Bool
  | .lockDenials => Except StorageError Bool
  | .write _ => Except StorageError Unit
  | .storeRetry .. => Except StorageError Bool
  | .commit => Except StorageError Unit
  | .rollback => Except StorageError Unit
  | .ask question => question.Answer
  | .decided _ => Unit
  | .setCallbackError _ => Unit
  | .callbackError => AccessKind

def statements : Signature := ⟨Statement, Statement.Reply⟩

/-- An open transaction. -/
structure Transaction where
  scopeLock : Option RetryScope
  systemLock : Option LocalId
  denialLock : Bool
  /-- writes made and not yet committed, in order -/
  writes : List Write
  /-- the last retry lookup, with the clock it was evaluated at -/
  looked : Option (Timestamp × Option SystemCreateRetry)
  /-- the last head read -/
  head : Option (Option RevisionId)
  decisions : List Decision

def Transaction.fresh : Transaction := ⟨none, none, false, [], none, none, []⟩

/-- The reads a call made, as they were answered. -/
inductive Reading where
  | owner (id : LocalId) (source : Option String)
  | list (scope : Json) (exact : Option LocalId) (rows : List Sql.ListRow)

structure Session where
  transaction : Option Transaction
  callbackError : AccessKind
  readings : List Reading
  /-- transactions whose COMMIT was acknowledged -/
  committed : List Transaction
  /-- transactions whose COMMIT ended in an error -/
  doubtful : List Transaction
  /-- transactions rolled back, with the error of the ROLLBACK if it failed -/
  abandoned : List (Transaction × Option StorageError)

def Session.idle : Session := ⟨none, .denied, [], [], [], []⟩

namespace Session

def writes (session : Session) : List Write :=
  (session.transaction.map (·.writes)).getD []

/-- What a statement of this session reads. -/
def view (session : Session) (db : Database) : Database :=
  db.applyAll session.writes

def updateTransaction (session : Session) (f : Transaction → Transaction) : Session :=
  { session with transaction := session.transaction.map f }

/-- The session ends its transaction without a COMMIT. -/
def abandon (session : Session) (tx : Transaction) (error : Option StorageError) : Session :=
  { session with transaction := none, abandoned := session.abandoned ++ [(tx, error)] }

/-- The session has been told that its transaction is committed. -/
def commit (session : Session) (tx : Transaction) : Session :=
  { session with transaction := none, committed := session.committed ++ [tx] }

/-- The session has not been told how its COMMIT ended. -/
def doubt (session : Session) (tx : Transaction) : Session :=
  { session with transaction := none, doubtful := session.doubtful ++ [tx] }

def holdsScope (engine : Engine) (session : Session) (scope : RetryScope) : Bool :=
  session.transaction.any (fun tx =>
    tx.scopeLock.any (fun held => engine.lockHash held == engine.lockHash scope))

def holdsSystem (session : Session) (id : LocalId) : Bool :=
  session.transaction.any (fun tx => tx.systemLock == some id)

def holdsDenials (session : Session) : Bool :=
  session.transaction.any (·.denialLock)

/-- Keys of rows inserted and not yet committed. -/
def pendingKeys (session : Session) : List Key :=
  session.writes.flatMap (fun write =>
    match write with
    | .insert row => row.keys
    | .retry row => [.scope row.scope]
    | _ => [])

end Session

namespace Database

/-- Whether one write can be made now, in the sight of its own session. -/
def admits (view : Database) : Write → Bool
  | .insert row =>
      row.keys.all (fun key => !view.hasKey key) && row.requires.all view.meets &&
        (match row with
        | .systemParent edge => edge.childId != edge.parentId
        | _ => true)
  | .label _ _ => true
  | .head row =>
      !view.hasKey (.head row.systemId) || (Row.systemWriteHead row).requires.all view.meets
  | .retry row => (Row.systemCreateRetry row).requires.all view.meets

end Database

def Query.eval (engine : Engine) (now : Timestamp) (view : Database) :
    (q : Query) → q.Result
  | .schema => ()
  | .setLocal _ => ()
  | .sha256 content => engine.sha256 content
  | .retry scope => (view.retryRow? scope).filter (fun row => now < row.expiresAt)
  | .head id => (view.head? id).map (·.revisionId)
  | .systemSource id => Sql.systemSource view id
  | .listRows scope exact limit => Sql.listRows view scope exact limit
  | .currentRows scope exact => Sql.currentRows view scope exact
  | .deniedCount maximum =>
      Nat.min maximum (view.serverAudit.filter (fun row => row.outcome = .denied)).length

/-- What a session keeps of an answered query. -/
def Session.note (session : Session) (now : Timestamp) : (q : Query) → q.Result → Session
  | .retry _, row => session.updateTransaction (fun tx => { tx with looked := some (now, row) })
  | .head _, head => session.updateTransaction (fun tx => { tx with head := some head })
  | .systemSource id, source =>
      { session with readings := session.readings ++ [.owner id source] }
  | .listRows scope exact _, rows =>
      { session with readings := session.readings ++ [.list scope exact rows] }
  | _, _ => session

/-- How a statement goes: it runs, it fails, a COMMIT is carried out but its
reply is lost, or a question is answered. -/
inductive Choice where
  | run
  | fail (e : StorageError)
  | lost
  | policy (answer : Option PermissionSet)
  | allow (answer : Bool)
  | auditId (answer : Option AuditId)

/-- The outcome of one statement: its reply, the session after it, and the
transaction it committed, if any. -/
abbrev Performed (s : Statement) := s.Reply × Session × Option Transaction

section Perform

variable (engine : Engine) (others : List Session) (db : Database) (now : Timestamp)
  (session : Session)

/-- A write waits for keys another session has inserted and not yet committed,
and for the row lock of the System it changes. -/
def unblocked : Write → Bool
  | .insert row => row.keys.all (fun key => others.all (fun other =>
      !other.pendingKeys.contains key))
  | .label id _ => others.all (fun other => !other.holdsSystem id)
  | _ => true

/-- A write inside the session's transaction. -/
def performWrite (write : Write) : Option Session :=
  if unblocked others write && (session.view db).admits write then
    some (session.updateTransaction (fun tx => { tx with writes := tx.writes ++ [write] }))
  else none

/-- The conditional upsert: it stores the row unless an unexpired one is there. -/
def performStore (scope : RetryScope) (digest : Bytes) (receipt : WriteReceipt)
    (seconds : Nat) : Option (Bool × Session) :=
  let row : SystemCreateRetry := ⟨scope, digest, receipt, now, now + seconds * 1000000⟩
  if others.all (fun other => !other.pendingKeys.contains (.scope scope)) &&
      (session.view db).admits (.retry row) then
    if ((session.view db).retryRow? scope).all (fun stored => stored.expiresAt ≤ now) then
      some (true, session.updateTransaction (fun tx =>
        { tx with writes := tx.writes ++ [.retry row] }))
    else some (false, session)
  else none

/-- A statement that goes as it should. -/
def performRun : (s : Statement) → Option (Performed s)
  | .inTransaction => some (session.transaction.isSome, session, none)
  | .query q =>
      let result := q.eval engine now (session.view db)
      some (.ok result, session.note now q result, none)
  | .begin =>
      if session.transaction.isSome then none
      else some (.ok (), { session with transaction := some .fresh }, none)
  | .lockScope scope =>
      if others.any (fun other => other.holdsScope engine scope) then none
      else
        some (.ok (), session.updateTransaction (fun tx =>
          { tx with scopeLock := some scope }), none)
  | .lockSystem id =>
      if others.any (fun other => other.holdsSystem id) then none
      else if (session.view db).hasKey (.system id) then
        some (.ok true, session.updateTransaction (fun tx =>
          { tx with systemLock := some id }), none)
      else some (.ok false, session, none)
  | .lockDenials =>
      if others.any (fun other => other.holdsDenials) then some (.ok false, session, none)
      else
        some (.ok true, session.updateTransaction (fun tx =>
          { tx with denialLock := true }), none)
  | .write write =>
      (performWrite others db session write).map (fun session => (.ok (), session, none))
  | .storeRetry scope digest receipt seconds =>
      (performStore others db now session scope digest receipt seconds).map
        (fun (stored, session) => (.ok stored, session, none))
  | .commit =>
      session.transaction.map (fun tx =>
        (.ok (), session.commit tx, some tx))
  | .rollback =>
      session.transaction.map (fun tx => (.ok (), session.abandon tx none, none))
  | .ask _ => none
  | .decided decision =>
      some ((), session.updateTransaction (fun tx =>
        { tx with decisions := tx.decisions ++ [decision] }), none)
  | .setCallbackError kind => some ((), { session with callbackError := kind }, none)
  | .callbackError => some (session.callbackError, session, none)

/-- A statement that fails.  A failed COMMIT or ROLLBACK ends the transaction. -/
def performFail (e : StorageError) : (s : Statement) → Option (Performed s)
  | .query _ => some (.error e, session, none)
  | .begin => some (.error e, session, none)
  | .lockScope _ => some (.error e, session, none)
  | .lockSystem _ => some (.error e, session, none)
  | .lockDenials => some (.error e, session, none)
  | .write _ => some (.error e, session, none)
  | .storeRetry .. => some (.error e, session, none)
  | .commit =>
      session.transaction.map (fun tx => (.error e, session.doubt tx, none))
  | .rollback =>
      session.transaction.map (fun tx => (.error e, session.abandon tx (some e), none))
  | _ => none

/-- An answered question; policy answers are kept in the transaction. -/
def performAsk : (question : Question) → Choice → Option (Performed (.ask question))
  | .permissions action, .policy answer =>
      some (answer, session.updateTransaction (fun tx =>
        { tx with decisions := tx.decisions ++ [.policy action answer] }), none)
  | .authorizeCreate .., .allow answer => some (answer, session, none)
  | .authorizeUpdate, .allow answer => some (answer, session, none)
  | .takeCapacity, .allow answer => some (answer, session, none)
  | .auditId, .auditId answer => some (answer, session, none)
  | _, _ => none

/-- One statement of a session, with the other sessions as they are. -/
def perform : (s : Statement) → Choice → Option (Performed s)
  | s, .run => performRun engine others db now session s
  | s, .fail e => performFail session e s
  | .commit, .lost =>
      session.transaction.map (fun tx =>
        (.error .database, session.doubt tx, some tx))
  | .ask question, choice => performAsk session question choice
  | _, _ => none

end Perform

end Server
end Glaux
