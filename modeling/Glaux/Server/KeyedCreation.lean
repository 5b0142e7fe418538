import Glaux.Server.TrustedCalls

/-!
# Exactly-once keyed creation

Any number of creations, keyed or not, interleaved statement by statement, with
failures at any of them and a clock that only moves forward.
-/

namespace Glaux
namespace Server

open Domain Library

/-- The rows of one creation are in the database, bound to each other. -/
structure Names (db : Database) (receipt : WriteReceipt) : Prop where
  system : ∃ label, Row.systemIdentity ⟨receipt.systemId, label⟩ ∈ db
  revision : ∃ revision, Row.systemRevision revision ∈ db ∧
    revision.id = receipt.revisionId ∧ revision.systemId = receipt.systemId ∧
    revision.artifactId = receipt.artifactId
  artifact : ∃ artifact, Row.sourceArtifact artifact ∈ db ∧ artifact.id = receipt.artifactId
  audit : ∃ audit, Row.serverAudit audit ∈ db ∧ audit.id = receipt.auditId ∧
    audit.targetId = some receipt.systemId ∧ audit.revisionId = some receipt.revisionId ∧
    audit.outcome = .accepted ∧ audit.operation = .systemCreate
  work : Row.outgoingWork ⟨receipt.eventId, receipt.systemId, receipt.revisionId,
    receipt.artifactId, receipt.auditId, .systemCreated⟩ ∈ db

section Names

variable {db : Database}

/-- Evidence of a creation leads to all its rows. -/
theorem names_of_work (hclosed : db.Closed) {receipt : WriteReceipt}
    (h : db.meets (.work receipt) = true) : Names db receipt := by
  obtain ⟨found, hwork, hprovides⟩ := Database.meets_iff.mp h
  obtain rfl := provides_work.mp hprovides
  have hneeds := hclosed _ hwork
  obtain ⟨found, hrevision, hprovides⟩ := Database.meets_iff.mp
    (hneeds (.revision receipt.revisionId receipt.systemId receipt.artifactId)
      (by simp [Row.requires]))
  obtain ⟨revision, rfl, hid, hsystem, hartifact⟩ := provides_revision.mp hprovides
  obtain ⟨found, haudit, hprovides⟩ := Database.meets_iff.mp
    (hneeds (.audit receipt.auditId receipt.systemId receipt.revisionId .systemCreate)
      (by simp [Row.requires, WorkKind.auditOperation]))
  obtain ⟨audit, rfl, hauditRow⟩ := provides_audit.mp hprovides
  have hneeds' := hclosed _ hrevision
  obtain ⟨found, hidentity, hprovides⟩ := Database.meets_iff.mp
    (hneeds' (.system revision.systemId) (by simp [Row.requires]))
  obtain ⟨label, rfl⟩ := provides_system.mp hprovides
  obtain ⟨found, hbytes, hprovides⟩ := Database.meets_iff.mp
    (hneeds' (.artifact revision.artifactId) (by simp [Row.requires]))
  obtain ⟨artifact, rfl, hartifactId⟩ := provides_artifact.mp hprovides
  exact {
    system := ⟨label, hsystem ▸ hidentity⟩
    revision := ⟨revision, hrevision, hid, hsystem, hartifact⟩
    artifact := ⟨artifact, hbytes, hartifactId.trans hartifact⟩
    audit := ⟨audit, haudit, hauditRow⟩
    work := hwork }

end Names

/-- A keyed creation commits under the lock of its scope and delivers its receipt. -/
theorem CreateCommits.keyed {engine : Engine} {rule : CreateRule} {input : CreateSystem}
    {key : RetryKey} {tx : Transaction} {receipt : WriteReceipt}
    (h : CreateCommits engine rule input (some key) tx receipt) :
    ∃ actor, input.audit.actor = some actor ∧ tx.scopeLock = some (input.scope actor key) ∧
      tx.delivers receipt := by
  obtain ⟨prepared, hprepares, hdone⟩ := h
  cases hprepares with
  | @keyed _ content actor hcontent hactor =>
      refine ⟨actor, hactor, ?_⟩
      cases hdone with
      | replayed h =>
          obtain ⟨clock, row, hlooked, hreceipt, -⟩ := h.found
          exact ⟨h.scope, .inr ⟨h.writes, clock, row, hlooked, hreceipt⟩⟩
      | created h =>
          obtain ⟨now, hwrites⟩ := h.writes
          exact ⟨h.scope, .inl ⟨_, by simp [hwrites]; exact .inr rfl, rfl⟩⟩

section ExactlyOnce

variable {engine : Engine} {w : World trustedCalls}

namespace World

/-- Call `i` is a creation with this input and key. -/
def creates (w : World trustedCalls) (i : Nat) (input : CreateSystem) (key : RetryKey) : Prop :=
  ∃ call, w.calls[i]? = some call ∧ call.request = .create input (some key)

/-- Call `i`, a creation with a key in this scope, has returned this receipt. -/
def returned (w : World trustedCalls) (i : Nat) (scope : RetryScope)
    (receipt : WriteReceipt) : Prop :=
  ∃ call input key actor, w.calls[i]? = some call ∧ call.request = .create input (some key) ∧
    input.audit.actor = some actor ∧ input.scope actor key = scope ∧
    call.outcome? = some (.ok receipt)

end World

/-- What holds in `w` when keyed creation happens exactly once. -/
structure ExactlyOnce (engine : Engine) (w : World trustedCalls) : Prop where
  /-- an unexpired row stays the row of its scope, unchanged -/
  kept : ∀ w', (World.machine engine trustedCalls).Leads w w' →
    ∀ scope row, w.db.retryRow? scope = some row → w'.now < row.expiresAt →
      w'.db.retryRow? scope = some row
  /-- since the row of a scope was stored, by the one creation it names, every
  receipt returned in the scope is the row's -/
  same : ∀ scope row, w.db.retryRow? scope = some row →
    ∃ earlier since, w.history = earlier ++ since ∧
      (earlier = [] ∨ ∃ i input key tx before clock rest,
        since = .committed i tx before clock :: rest ∧ w.creates i input key ∧
        tx.writes = input.writes ++ [.retry row] ∧ row.receipt = input.receipt) ∧
      ∀ i tx before clock, .committed i tx before clock ∈ since →
        ∀ receipt, w.returned i scope receipt → receipt = row.receipt
  /-- a returned receipt is that of a COMMIT, and names the rows of one creation -/
  named : ∀ i scope receipt, w.returned i scope receipt →
    (∃ tx before clock, .committed i tx before clock ∈ w.history) ∧ Names w.db receipt
  /-- a lookup finds the row of the locked scope, unless its deadline has come; it
  stays accurate to the end of the transaction -/
  lookups : ∀ i tx, w.Opened i tx → ∀ clock found, tx.looked = some (clock, found) →
    clock ≤ w.now ∧ ∃ scope, tx.scopeLock = some scope ∧
      found = (w.db.retryRow? scope).filter (fun row => clock < row.expiresAt) ∧
      ∀ row, w.db.retryRow? scope = some row → row.expiresAt = clock → found = none
  /-- an authorized call with another intent gets Conflict, or the error of its
  ROLLBACK, and changes nothing -/
  conflict : ∀ (i : Nat) (call : Running trustedCalls) input key,
    w.calls[i]? = some call → call.request = .create input (some key) →
    ∀ outcome, call.outcome? = some outcome →
    ∀ tx, (tx ∈ call.session.committed ∨ tx ∈ call.session.doubtful ∨
        ∃ error, (tx, error) ∈ call.session.abandoned) →
    ∀ clock row, tx.looked = some (clock, some row) →
      .create row.receipt true true ∈ tx.decisions →
      (∀ content, retryContent input = .ok content → row.digest ≠ engine.sha256 content) →
      (∃ error, (tx, error) ∈ call.session.abandoned ∧
        outcome = .error (error.getD .conflict)) ∧
      ∀ tx before clock, .committed i tx before clock ∉ w.history
  /-- a replay writes nothing -/
  replays : ∀ i tx before clock, .committed i tx before clock ∈ w.history →
    ∀ clock' row, tx.looked = some (clock', some row) → tx.writes = []
  /-- a row is replaced once its deadline has come, not before -/
  renewed : ∀ i tx before clock, .committed i tx before clock ∈ w.history →
    ∀ row, Write.retry row ∈ tx.writes → row.retainedAt ≤ clock ∧
      ∀ old, before.retryRow? row.scope = some old → old.expiresAt ≤ row.retainedAt
  /-- and at most once -/
  once : ∀ earlier i tx before clock between i' tx' before' clock' later,
    w.history = earlier ++ .committed i tx before clock ::
      (between ++ .committed i' tx' before' clock' :: later) →
    ∀ row row', Write.retry row ∈ tx.writes → Write.retry row' ∈ tx'.writes →
      row.scope = row'.scope → before.retryRow? row.scope ≠ before'.retryRow? row.scope
  /-- the callback has allowed a stored receipt before its digest is compared -/
  compared : ∀ i tx, w.Opened i tx → ∀ earlier receipt same later,
    tx.decisions = earlier ++ .intent receipt same :: later →
    earlier.getLast? = some (.create receipt true true)
  /-- and before it is returned -/
  allowed : ∀ i tx before clock, .committed i tx before clock ∈ w.history →
    ∀ clock' row, tx.looked = some (clock', some row) →
      .create row.receipt true true ∈ tx.decisions

/-- The commits of a call are transactions of its contract. -/
theorem World.Inv.creationCommits (hinv : w.Inv (trustedContract engine)) {i : Nat}
    {tx : Transaction} {before : Database} {clock : Timestamp} {call : Running trustedCalls}
    {input : CreateSystem} {retry : Option RetryKey}
    (hmem : .committed i tx before clock ∈ w.history) (hcall : w.calls[i]? = some call)
    (hrequest : call.request = .create input retry) :
    ∃ receipt, CreateCommits engine freeCreate input retry tx receipt := by
  obtain ⟨call', hcall', haccepts, -⟩ := hinv.carriedOut i tx before clock hmem
  obtain rfl := Option.some.inj (hcall.symm.trans hcall')
  rw [hrequest] at haccepts
  exact haccepts

/-- A transaction that found a row writes nothing and was allowed to see it. -/
theorem CreateCommits.of_found {rule : CreateRule} {input : CreateSystem}
    {retry : Option RetryKey} {tx : Transaction} {receipt : WriteReceipt}
    (h : CreateCommits engine rule input retry tx receipt) {clock : Timestamp}
    {row : SystemCreateRetry} (hlooked : tx.looked = some (clock, some row)) :
    tx.writes = [] ∧ .create row.receipt true true ∈ tx.decisions ∧
      ∃ prepared, Prepares engine input retry (some prepared) ∧
        row.digest = prepared.digest := by
  obtain ⟨prepared, hprepares, hdone⟩ := h
  cases hdone with
  | replayed h =>
      obtain ⟨clock', row', hlooked', rfl, hdigest⟩ := h.found
      obtain ⟨-, rfl⟩ := Prod.mk.inj (Option.some.inj (hlooked.symm.trans hlooked')) |>.imp id
        Option.some.inj
      obtain ⟨asked, -, hdecisions⟩ := h.decisions
      exact ⟨h.writes, by simp [hdecisions], _, hprepares, hdigest⟩
  | created h => exact absurd hlooked (h.unfound clock row)

theorem found_commit (hinv : w.Inv (trustedContract engine)) {i : Nat} {tx : Transaction}
    {before : Database} {clock : Timestamp} (hmem : .committed i tx before clock ∈ w.history)
    {clock' : Timestamp} {row : SystemCreateRetry}
    (hlooked : tx.looked = some (clock', some row)) :
    tx.writes = [] ∧ .create row.receipt true true ∈ tx.decisions := by
  obtain ⟨call, hcall, haccepts, -⟩ := hinv.carriedOut i tx before clock hmem
  cases hrequest : call.request with
  | create input retry =>
      rw [hrequest] at haccepts
      obtain ⟨receipt, hcommits⟩ := haccepts
      obtain ⟨hwrites, hallowed, -⟩ := hcommits.of_found hlooked
      exact ⟨hwrites, hallowed⟩
  | update input =>
      rw [hrequest] at haccepts
      obtain ⟨receipt, hcommits⟩ := haccepts
      rw [hcommits.unlooked] at hlooked
      cases hlooked

/-- A returned receipt is that of the call's only commit. -/
theorem returned_commit (hinv : w.Inv (trustedContract engine)) {i : Nat} {scope : RetryScope}
    {receipt : WriteReceipt} (h : w.returned i scope receipt) :
    (∃ tx before clock, .committed i tx before clock ∈ w.history) ∧
      ∀ tx before clock, .committed i tx before clock ∈ w.history →
        tx.scopeLock = some scope ∧ tx.delivers receipt := by
  obtain ⟨call, input, key, actor, hcall, hrequest, hactor, hscope, houtcome⟩ := h
  have hends := hinv.ended hcall houtcome
  rw [hrequest] at hends
  generalize hsession : call.session = session at hends
  cases hends with
  | @committed kind tx _ hdone =>
      obtain ⟨actor', hactor', hlock, hdelivers⟩ := hdone.keyed
      obtain rfl := Option.some.inj (hactor.symm.trans hactor')
      constructor
      · obtain ⟨before, clock, hmem⟩ := hinv.acknowledged i call hcall tx
          (by simp [hsession, Session.commit])
        exact ⟨tx, before, clock, hmem⟩
      · intro tx' before clock hmem
        obtain ⟨call', hcall', -, hrecorded⟩ := hinv.carriedOut i tx' before clock hmem
        obtain rfl := Option.some.inj (hcall.symm.trans hcall')
        obtain rfl : tx' = tx := by
          simpa [hsession, Session.commit, Session.at, Session.idle] using hrecorded
        exact ⟨hscope ▸ hlock, hdelivers⟩

/-- Decisions to replay are not policy answers. -/
theorem not_mem_answers (asked : Answers) (receipt : WriteReceipt) (replay allowed : Bool) :
    .create receipt replay allowed ∉ asked.decisions := by
  simp [Answers.decisions]

/-- A refused comparison is the only way to abandon an authorized replay. -/
theorem CreateAbandons.of_allowed {rule : CreateRule} {input : CreateSystem}
    {retry : Option RetryKey} {tx : Transaction} {e : StorageError}
    (h : CreateAbandons engine rule input retry tx e) {receipt : WriteReceipt}
    (hallowed : .create receipt true true ∈ tx.decisions) : e = .conflict := by
  obtain ⟨prepared, -, hfailed⟩ := h
  cases hfailed with
  | unasked e decisions => simp [decisions] at hallowed
  | replayDenied _ _ _ decisions => simp [decisions, not_mem_answers] at hallowed
  | conflict => rfl
  | denied _ decisions => simp [decisions, not_mem_answers] at hallowed
  | failed e _ decisions => simp [decisions, not_mem_answers] at hallowed

/-- A retention row is stored by the creation it names. -/
theorem stored_commit (hinv : w.Inv (trustedContract engine)) {i : Nat} {tx : Transaction}
    {before : Database} {clock : Timestamp} (hmem : .committed i tx before clock ∈ w.history)
    {row : SystemCreateRetry} (hrow : Write.retry row ∈ tx.writes) :
    ∃ input key, w.creates i input key ∧ tx.writes = input.writes ++ [.retry row] ∧
      row.receipt = input.receipt := by
  obtain ⟨call, hcall, haccepts, -⟩ := hinv.carriedOut i tx before clock hmem
  cases hrequest : call.request with
  | create input retry =>
      rw [hrequest] at haccepts
      obtain ⟨receipt, prepared, hprepares, hdone⟩ := haccepts
      cases hdone with
      | replayed h =>
          rw [h.writes] at hrow
          cases hrow
      | created h =>
          obtain ⟨now, hwrites⟩ := h.writes
          have hstored : Write.retry row ∈ prepared.toList.map (fun p =>
              .retry (p.row input.receipt now)) := by
            rw [hwrites] at hrow
            exact (List.mem_append.mp hrow).resolve_left (retryFree_createWrites input row)
          obtain ⟨p, hp, heq⟩ := List.mem_map.mp hstored
          obtain rfl := Write.retry.inj heq
          obtain rfl := Option.mem_toList.mp hp
          cases hprepares with
          | keyed => exact ⟨input, _, ⟨call, hcall, hrequest⟩, hwrites, rfl⟩
  | update input =>
      rw [hrequest] at haccepts
      obtain ⟨receipt, hcommits⟩ := haccepts
      rw [hcommits.writes] at hrow
      simp [UpdateSystem.writes] at hrow

/-- **Exactly-once keyed creation.** -/
theorem exactly_once (h : (World.machine engine trustedCalls).Reachable w) :
    ExactlyOnce engine w := by
  have hinv := World.inv_of_reachable (trustedContract engine) h
  exact {
    kept := fun w' hleads scope row hrow hunexpired =>
      World.retention (trustedContract engine) h hleads hrow hunexpired
    same := fun scope row hrow => by
      obtain ⟨-, rfl⟩ := Database.retryRow?_mem hrow
      obtain ⟨earlier, since, hsplit, hstart, hsince⟩ :=
        World.delivered_of_reachable (trustedContract engine) h row.scope row hrow
      refine ⟨earlier, since, hsplit, ?_, ?_⟩
      · obtain hnil | ⟨i, tx, before, clock, rest, rfl, hstored⟩ := hstart
        · exact .inl hnil
        · have hmem : .committed i tx before clock ∈ w.history := by simp [hsplit]
          obtain ⟨input, key, hcreates, hwrites, hreceipt⟩ := stored_commit hinv hmem hstored
          exact .inr ⟨i, input, key, tx, before, clock, rest, rfl, hcreates, hwrites, hreceipt⟩
      · intro i tx before clock hmem receipt hreturned
        have hmem' : .committed i tx before clock ∈ w.history := by
          rw [hsplit]
          exact List.mem_append_right _ hmem
        obtain ⟨hlock, hdelivers⟩ := (returned_commit hinv hreturned).2 tx before clock hmem'
        exact hsince i tx before clock hmem hlock receipt hdelivers
    named := fun i scope receipt hreturned => by
      obtain ⟨⟨tx, before, clock, hmem⟩, hall⟩ := returned_commit hinv hreturned
      refine ⟨⟨tx, before, clock, hmem⟩, names_of_work hinv.closed ?_⟩
      exact World.evident_of_reachable (trustedContract engine) h i tx before clock hmem receipt
        (hall tx before clock hmem).2
    lookups := fun i tx hopen clock found hlooked => by
      obtain ⟨hclock, scope, hscope, hfound⟩ := (hinv.sound i tx hopen).looked clock found hlooked
      refine ⟨hclock, scope, hscope, hfound, fun row hrow hdeadline => ?_⟩
      simp [hfound, hrow, hdeadline]
    conflict := fun i call input key hcall hrequest outcome houtcome tx htx clock row hlooked
        hallowed hdiffers => by
      have hends := hinv.ended hcall houtcome
      rw [hrequest] at hends
      -- a committed transaction would have found the same digest
      have hcommits : ∀ receipt,
          ¬ CreateCommits engine freeCreate input (some key) tx receipt := by
        intro receipt hcommits
        obtain ⟨-, -, prepared, hprepares, hdigest⟩ := hcommits.of_found hlooked
        cases hprepares with
        | keyed hcontent => exact hdiffers _ hcontent hdigest
      have hnone := hinv.uncommitted (i := i) hcall
      generalize call.session = session at hends htx hnone
      cases hends with
      | @committed kind tx' receipt hdone =>
          obtain rfl : tx = tx' := by
            simpa [Session.commit, Session.at, Session.idle] using htx
          exact absurd hdone (hcommits receipt)
      | @doubtful kind tx' receipt hdone e =>
          obtain rfl : tx = tx' := by
            simpa [Session.doubt, Session.at, Session.idle] using htx
          exact absurd hdone (hcommits receipt)
      | @abandoned kind tx' e hfailed =>
          obtain rfl : tx = tx' := by
            simpa [Session.abandon, Session.at, Session.idle] using htx
          obtain rfl := hfailed.of_allowed hallowed
          exact ⟨⟨none, by simp [Session.abandon], rfl⟩, hnone rfl rfl⟩
      | @broken kind tx' e hfailed e' =>
          obtain rfl : tx = tx' := by
            simpa [Session.abandon, Session.at, Session.idle] using htx
          exact ⟨⟨some e', by simp [Session.abandon], rfl⟩, hnone rfl rfl⟩
      | unbegun e => simp [Session.idle] at htx
    replays := fun i tx before clock hmem clock' row hlooked =>
      (found_commit hinv hmem hlooked).1
    renewed := fun i tx before clock hmem row hrow => by
      obtain ⟨hclock, hold, -⟩ := World.renewed_of_reachable (trustedContract engine) h i tx
        before clock hmem row hrow
      exact ⟨hclock, fun old h => (hold old h).1⟩
    once := fun earlier i tx before clock between i' tx' before' clock' later hsplit =>
      (World.stores_distinct (trustedContract engine) h).of_split hsplit
    compared := fun i tx hopen => (hinv.sound i tx hopen).ordered
    allowed := fun i tx before clock hmem clock' row hlooked =>
      (found_commit hinv hmem hlooked).2 }

def sampleKey : RetryKey := ⟨"key", 1⟩

/-- SHA-256 on the two intents of the sample. -/
def sampleSha256 (content : Bytes) : Bytes :=
  if content.length = 122 then
    [184, 80, 168, 127, 53, 206, 63, 145, 214, 144, 222, 174, 76, 149, 241, 106, 135, 82, 83,
      137, 177, 112, 125, 62, 150, 147, 118, 201, 207, 175, 252, 153]
  else
    [162, 178, 163, 178, 251, 166, 147, 121, 57, 243, 45, 233, 210, 232, 219, 96, 174, 138, 78,
      170, 91, 104, 153, 193, 72, 33, 83, 152, 100, 42, 249, 157]

def sampleEngine : Engine := ⟨sampleSha256, fun _ => 0⟩

/-- A creation, a retry of it, a retry with another intent, and a creation when the
deadline has come. -/
def sampleRetries : List (Event trustedCalls) :=
  [.start (TrustedRequest.create (sampleCreate sampleParent "urn:parent" none) (some sampleKey))] ++
  runs 0 6 ++ [.step 0 (.allow true)] ++ runs 0 10 ++
  [.start (TrustedRequest.create (sampleCreate sampleChild "urn:parent" none) (some sampleKey))] ++
  runs 1 6 ++ [.step 1 (.allow true)] ++ runs 1 3 ++
  [.start (TrustedRequest.create (sampleCreate sampleChild "urn:child" none) (some sampleKey))] ++
  runs 2 6 ++ [.step 2 (.allow true)] ++ runs 2 3 ++
  [.tick 1000000,
    .start (TrustedRequest.create (sampleCreate sampleChild "urn:child" none) (some sampleKey))] ++
  runs 3 6 ++ [.step 3 (.allow true)] ++ runs 3 10

theorem exactly_once_retries : ∃ w : World trustedCalls,
    (World.machine sampleEngine trustedCalls).runEvents (World.empty trustedCalls)
      sampleRetries = some w ∧
    w.history.length = 3 ∧ w.calls.map (fun call => call.outcome?.map Except.isOk) =
      [some true, some true, some false, some true] ∧ ExactlyOnce sampleEngine w := by
  have hrun : ((World.machine sampleEngine trustedCalls).runEvents (World.empty trustedCalls)
      sampleRetries).map (fun w =>
        (w.history.length, w.calls.map (fun call => call.outcome?.map Except.isOk))) =
      some (3, [some true, some true, some false, some true]) := by decide +kernel
  obtain ⟨w, hw, hends⟩ := Option.map_eq_some_iff.mp hrun
  obtain ⟨hlength, houtcomes⟩ := Prod.mk.inj hends
  exact ⟨w, hw, hlength, houtcomes, exactly_once
    (Machine.reachable_of_runEvents (World.start_empty trustedCalls) hw)⟩

end ExactlyOnce

end Server
end Glaux
