import Glaux.Library.Transition
import Glaux.Server.Storage.Discipline
import Glaux.Server.Storage.Growth

/-!
# Calls at work on one database

A service answers requests, each with a program.  In a `World` any number of
calls are under way on one database.  An event starts a call, moves the clock,
lets one call execute its next statement, or cuts a call off; a call that is cut
off loses its open transaction.  The database changes only when a COMMIT is
carried out.  The history keeps the commits and the reads of heads, in order.
-/

namespace Glaux
namespace Server

open Domain Library

structure Service where
  Request : Type
  Outcome : Type
  program : Request → Call Outcome

/-- One call. -/
structure Running (service : Service) where
  request : service.Request
  session : Session
  /-- what is left of its program; `none` once it is cut off -/
  rest : Option (Call service.Outcome)

/-- The call is cut off: its open transaction is gone. -/
def Running.cutOff {service : Service} (call : Running service) : Running service :=
  { call with session := { call.session with transaction := none }, rest := none }

def Running.outcome? {service : Service} (call : Running service) : Option service.Outcome :=
  match call.rest with
  | some (.done outcome) => some outcome
  | _ => none

inductive Happening where
  | headRead (call : Nat) (id : LocalId) (head : Option RevisionId)
  /-- a COMMIT carried out, with the database and the clock it met -/
  | committed (call : Nat) (tx : Transaction) (before : Database) (clock : Timestamp)

/-- The head an executed statement has read. -/
def Statement.headReads : (s : Statement) → s.Reply → List (LocalId × Option RevisionId)
  | .query (.head id), .ok head => [(id, head)]
  | _, _ => []

/-- What the history keeps of an executed statement. -/
def Statement.happened (call : Nat) (s : Statement) (reply : s.Reply) : List Happening :=
  (s.headReads reply).map (fun read => .headRead call read.1 read.2)

structure World (service : Service) where
  db : Database
  now : Timestamp
  calls : List (Running service)
  history : List Happening

inductive Event (service : Service) where
  | start (request : service.Request)
  | tick (microseconds : Nat)
  | step (call : Nat) (choice : Choice)
  | drop (call : Nat)

namespace World

variable {service : Service}

/-- The sessions of the other calls. -/
def others (w : World service) (i : Nat) : List Session :=
  (w.calls.eraseIdx i).map (·.session)

/-- The world after one statement of call `i`. -/
def after (w : World service) (i : Nat) (call : Running service) (s : Statement)
    (next : s.Reply → Call service.Outcome) (done : Performed s) : World service where
  db := done.2.2.elim w.db (fun tx => w.db.applyAll tx.writes)
  now := w.now
  calls := w.calls.set i ⟨call.request, done.2.1, some (next done.1)⟩
  history := w.history ++ s.happened i done.1 ++
    done.2.2.toList.map (fun tx => .committed i tx w.db w.now)

def step (engine : Engine) (w : World service) : Event service → Option (World service)
  | .start request =>
      some { w with calls := w.calls ++ [⟨request, .idle, some (service.program request)⟩] }
  | .tick microseconds => some { w with now := w.now + microseconds }
  | .step i choice =>
      match w.calls[i]? with
      | none => none
      | some call =>
          match call.rest with
          | some (.perform s next) =>
              (perform engine (w.others i) w.db w.now call.session s choice).map
                (w.after i call s next)
          | _ => none
  | .drop i =>
      w.calls[i]?.map (fun call => { w with calls := w.calls.set i call.cutOff })

/-- A consistent database with no call under way. -/
structure Start (w : World service) : Prop where
  unique : w.db.Unique
  closed : w.db.Closed
  calls : w.calls = []
  history : w.history = []

/-- The migrated database before any call. -/
def empty (service : Service) : World service := ⟨[], 0, [], []⟩

theorem start_empty (service : Service) : Start (empty service) where
  unique := List.nodup_nil
  closed := fun _ h => by cases h
  calls := rfl
  history := rfl

def machine (engine : Engine) (service : Service) : Machine (World service) (Event service) where
  start := Start
  step := step engine

/-- Call `i` has this transaction open. -/
def Opened (w : World service) (i : Nat) (tx : Transaction) : Prop :=
  ∃ call, w.calls[i]? = some call ∧ call.session.transaction = some tx

/-- What one event does. -/
inductive Stepped (engine : Engine) (w : World service) : Event service → World service → Prop
  | started (request : service.Request) :
      Stepped engine w (.start request)
        { w with calls := w.calls ++ [⟨request, .idle, some (service.program request)⟩] }
  | ticked (microseconds : Nat) :
      Stepped engine w (.tick microseconds) { w with now := w.now + microseconds }
  | performed {i : Nat} {choice : Choice} {call : Running service} {s : Statement}
      {next : s.Reply → Call service.Outcome} {done : Performed s}
      (hcall : w.calls[i]? = some call) (hrest : call.rest = some (.perform s next))
      (hdone : perform engine (w.others i) w.db w.now call.session s choice = some done) :
      Stepped engine w (.step i choice) (w.after i call s next done)
  | dropped {i : Nat} {call : Running service} (hcall : w.calls[i]? = some call) :
      Stepped engine w (.drop i) { w with calls := w.calls.set i call.cutOff }

theorem stepped {engine : Engine} {w w' : World service} {e : Event service}
    (h : step engine w e = some w') : Stepped engine w e w' := by
  cases e with
  | start request =>
      obtain rfl := Option.some.inj h
      exact .started request
  | tick microseconds =>
      obtain rfl := Option.some.inj h
      exact .ticked microseconds
  | step i choice =>
      simp only [step] at h
      split at h
      next => cases h
      next call hcall =>
        split at h
        next s next hrest =>
          obtain ⟨done, hdone, rfl⟩ := Option.map_eq_some_iff.mp h
          exact .performed hcall hrest hdone
        next => cases h
  | drop i =>
      obtain ⟨call, hcall, rfl⟩ := Option.map_eq_some_iff.mp h
      exact .dropped hcall

theorem mem_others {w : World service} {i j : Nat} {call : Running service}
    (hne : j ≠ i) (h : w.calls[j]? = some call) : call.session ∈ w.others i := by
  refine List.mem_map_of_mem ?_
  exact List.mem_eraseIdx_iff_getElem?.mpr ⟨j, hne, h⟩

end World

section Effect

/-- What one permitted statement can do to the transaction of its session, and the
head it reads. -/
inductive Effect (engine : Engine) (others : List Session) (db : Database) (now : Timestamp) :
    Option Transaction → Option Transaction → List (LocalId × Option RevisionId) → Prop
  | same (tx : Option Transaction) : Effect engine others db now tx tx []
  | began : Effect engine others db now none (some .fresh) []
  | scopeLocked {tx : Transaction} {scope : RetryScope} (free : tx.scopeLock = none)
      (apart : ∀ other ∈ others, other.holdsScope engine scope = false) :
      Effect engine others db now (some tx) (some { tx with scopeLock := some scope }) []
  | systemLocked {tx : Transaction} {id : LocalId} (free : tx.systemLock = none)
      (apart : ∀ other ∈ others, other.holdsSystem id = false) :
      Effect engine others db now (some tx) (some { tx with systemLock := some id }) []
  | denialsLocked {tx : Transaction} (apart : ∀ other ∈ others, other.holdsDenials = false) :
      Effect engine others db now (some tx) (some { tx with denialLock := true }) []
  | wrote {tx : Transaction} {w : Write} (may : tx.mayWrite w)
      (free : unblocked others w = true) (admitted : (db.applyAll tx.writes).admits w = true) :
      Effect engine others db now (some tx) (some { tx with writes := tx.writes ++ [w] }) []
  | stored {tx : Transaction} {row : SystemCreateRetry} (lock : tx.scopeLock = some row.scope)
      (first : tx.retryFree) (emits : tx.emits row.receipt) (clock : row.retainedAt = now)
      (admitted : (db.applyAll tx.writes).admits (.retry row) = true)
      (expired : ∀ old, (db.applyAll tx.writes).retryRow? row.scope = some old →
        old.expiresAt ≤ now) :
      Effect engine others db now (some tx)
        (some { tx with writes := tx.writes ++ [.retry row] }) []
  | lookedUp {tx : Transaction} {scope : RetryScope} (lock : tx.scopeLock = some scope)
      (clean : tx.writes = []) :
      Effect engine others db now (some tx) (some { tx with
        looked := some (now, (db.retryRow? scope).filter (fun row => now < row.expiresAt)) }) []
  | headRead {tx : Transaction} {id : LocalId} (lock : tx.systemLock = some id)
      (clean : tx.writes = []) :
      Effect engine others db now (some tx) (some { tx with
        head := some ((db.head? id).map (·.revisionId)) })
        [(id, (db.head? id).map (·.revisionId))]
  | decided {tx : Transaction} {decision : Decision}
      (ordered : ∀ receipt same, decision = .intent receipt same →
        tx.decisions.getLast? = some (.create receipt true true)) :
      Effect engine others db now (some tx)
        (some { tx with decisions := tx.decisions ++ [decision] }) []
  | ended (tx : Transaction) : Effect engine others db now (some tx) none []

end Effect

end Server
end Glaux
