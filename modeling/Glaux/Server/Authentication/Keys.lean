import Glaux.Library.Transition
import Mathlib.Tactic

/-!
# Issuer key cache (`authentication/keys.rs`)

One cache of decoded issuer keys is shared by every authenticator clone.  A
`RemoteKeys::get` call has two locked sections with an unlocked await between
them: the first answers from the cache, refuses, or records an attempt and
starts a fetch; the second installs a fetched key set.  Between the two, and
until its drop guard has run, the call owns the busy mark.

The machine below interleaves any number of calls.  A call is cancelled only
at its await point, as a dropped future is; its guard is then dropped by a
separate locked section.  Locked sections do not panic, so the poisoned-mutex
branches of the source are unreachable and left out.

Durations are counts of nanoseconds.  Clock readings are arbitrary: missing,
repeated or running backward.
-/

namespace Glaux
namespace Server
namespace Keys

open Library

/-- `Duration::MAX`: 2^64 - 1 seconds and 999999999 nanoseconds. -/
def maxDuration : Nat := (2 ^ 64 - 1) * 1000000000 + 999999999

/-- `Duration::checked_add`. -/
def checkedAdd (a b : Nat) : Option Nat :=
  if a + b ≤ maxDuration then some (a + b) else none

/-- `Duration::checked_sub`. -/
def checkedSub (a b : Nat) : Option Nat :=
  if b ≤ a then some (a - b) else none

/-- The refusals of `AuthError` that the key cache can give. -/
inductive AuthError where
  | invalidToken
  | unavailable
deriving DecidableEq, Repr

/-- Decoded keys of one fetched set, by key id. -/
abbrev KeySet (κ : Type) := List (String × κ)

/-- The timing fields of `RemoteKeys`; the fetch's own timeout is an outcome. -/
structure RemoteKeys where
  ttl : Nat
  interval : Nat

structure Cache (κ : Type) where
  keys : KeySet κ := []
  expiry : Option Nat := none
  lastAttempt : Option Nat := none
  lastClock : Option Nat := none
  busy : Bool := false
deriving DecidableEq

variable {κ : Type}

namespace Cache

/-- A reading is accepted only when present and not behind the last one. -/
def observe (c : Cache κ) (now : Option Nat) :
    Except AuthError (Nat × Cache κ) :=
  match now with
  | none => .error .unavailable
  | some now =>
      if c.lastClock.any (fun previous => now < previous) then
        .error .unavailable
      else .ok (now, { c with lastClock := some now })

def fresh (c : Cache κ) (now : Nat) : Bool :=
  c.expiry.any (fun expiry => now < expiry)

def coolingDown (c : Cache κ) (now interval : Nat) : Bool :=
  c.lastAttempt.any (fun attempt =>
    (checkedSub now attempt).all (fun age => age < interval))

/-- `Drop for Attempt`. -/
def dropAttempt (c : Cache κ) : Cache κ := { c with busy := false }

end Cache

/-- What the first locked section of `get` decides. -/
inductive Opening (κ : Type) where
  | answer (result : Except AuthError κ)
  | fetch (start : Nat)

/-- What the await of `timeout(self.timeout, self.fetch())` gives. -/
inductive FetchOutcome (κ : Type) where
  | fetched (keys : KeySet κ)
  | failed
  | timedOut
deriving DecidableEq

/-- `fetch` reports every failure as unavailable, and so does the timeout. -/
def FetchOutcome.result : FetchOutcome κ → Except AuthError (KeySet κ)
  | .fetched keys => .ok keys
  | .failed => .error .unavailable
  | .timedOut => .error .unavailable

/-- `state.keys.get(kid).cloned().ok_or(AuthError::InvalidToken)`. -/
def selectKey (keys : KeySet κ) (kid : String) : Except AuthError κ :=
  match keys.lookup kid with
  | some key => .ok key
  | none => .error .invalidToken

namespace RemoteKeys

/-- `get` up to the await. -/
def openGet (r : RemoteKeys) (c : Cache κ) (kid : String)
    (reading : Option Nat) : Opening κ × Cache κ :=
  match c.observe reading with
  | .error e => (.answer (.error e), c)
  | .ok (now, c) =>
      let fresh := c.fresh now
      match (if fresh then c.keys.lookup kid else none) with
      | some key => (.answer (.ok key), c)
      | none =>
          if c.busy || c.coolingDown now r.interval then
            (.answer (.error (if fresh then .invalidToken else .unavailable)), c)
          else
            (.fetch now, { c with busy := true, lastAttempt := some now })

/-- `get` from the end of the await to its result; the guard is still held. -/
def closeGet (r : RemoteKeys) (c : Cache κ) (kid : String) (start : Nat)
    (outcome : FetchOutcome κ) (reading : Option Nat) :
    Except AuthError κ × Cache κ :=
  match c.observe reading with
  | .error e => (.error e, c)
  | .ok (now, c) =>
      match checkedAdd start r.ttl with
      | none => (.error .unavailable, c)
      | some expiry =>
          if expiry ≤ now then (.error .unavailable, c)
          else
            match outcome.result with
            | .error e => (.error e, c)
            | .ok keys =>
                (selectKey keys kid,
                  { c with keys := keys, expiry := some expiry })

end RemoteKeys

/-- Where a call is.  `fetching` and `leaving` calls hold an `Attempt` guard. -/
inductive Phase (κ : Type) where
  | fetching (start : Nat)
  | leaving (result : Option (Except AuthError κ))
  | returned (result : Except AuthError κ)
  | cancelled

/-- A `get` call.  `observed` records the clock value that its last locked
section accepted; no code reads it. -/
structure Call (κ : Type) where
  kid : String
  phase : Phase κ
  observed : Option Nat

/-- The shared cache and the calls begun so far, with two records that no code
reads: the start of every fetch, latest first, and the key sets that a fetch
delivered, each with the start of that fetch. -/
structure State (κ : Type) where
  cache : Cache κ
  calls : List (Call κ)
  starts : List Nat
  fetched : List (Nat × KeySet κ)

inductive Event (κ : Type) where
  | get (kid : String) (reading : Option Nat)
  | complete (call : Nat) (outcome : FetchOutcome κ) (reading : Option Nat)
  | cancel (call : Nat)
  | dropGuard (call : Nat)

/-- The reading, when `observe` accepts it. -/
def Cache.accepted (c : Cache κ) (reading : Option Nat) : Option Nat :=
  match c.observe reading with
  | .ok (now, _) => some now
  | .error _ => none

/-- Phase after the guard of a leaving call is dropped. -/
def Phase.ofResult : Option (Except AuthError κ) → Phase κ
  | some result => .returned result
  | none => .cancelled

def FetchOutcome.record (start : Nat)
    (fetched : List (Nat × KeySet κ)) :
    FetchOutcome κ → List (Nat × KeySet κ)
  | .fetched keys => (start, keys) :: fetched
  | _ => fetched

def step (r : RemoteKeys) (s : State κ) : Event κ → Option (State κ)
  | .get kid reading =>
      match r.openGet s.cache kid reading with
      | (.answer result, c) =>
          some { s with
            cache := c
            calls := s.calls ++
              [⟨kid, .returned result, s.cache.accepted reading⟩] }
      | (.fetch start, c) =>
          some { s with
            cache := c
            calls := s.calls ++
              [⟨kid, .fetching start, s.cache.accepted reading⟩]
            starts := start :: s.starts }
  | .complete i outcome reading =>
      match s.calls[i]? with
      | some ⟨kid, .fetching start, _⟩ =>
          let closed := r.closeGet s.cache kid start outcome reading
          some { s with
            cache := closed.2
            calls := s.calls.set i
              ⟨kid, .leaving (some closed.1), s.cache.accepted reading⟩
            fetched := outcome.record start s.fetched }
      | _ => none
  | .cancel i =>
      match s.calls[i]? with
      | some ⟨kid, .fetching _, observed⟩ =>
          some { s with calls := s.calls.set i ⟨kid, .leaving none, observed⟩ }
      | _ => none
  | .dropGuard i =>
      match s.calls[i]? with
      | some ⟨kid, .leaving result, observed⟩ =>
          some { s with
            cache := s.cache.dropAttempt
            calls := s.calls.set i ⟨kid, .ofResult result, observed⟩ }
      | _ => none

/-- `RemoteKeys::new`: an empty cache and no call begun. -/
def initial : State κ := ⟨{}, [], [], []⟩

def machine (κ : Type) (r : RemoteKeys) : Machine (State κ) (Event κ) where
  start s := s = initial
  step := step r

end Keys
end Server
end Glaux
