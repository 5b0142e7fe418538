import Glaux.Server.Application

/-!
# What the write calls commit

For each call of `application.rs`, whatever the database and the callbacks
answer: the transactions it can commit, how a transaction of it can end without
a COMMIT, and which outcome the caller is told.
-/

namespace Glaux
namespace Server

open Domain Library

section Frame

variable {engine : Engine} {accepts : Transaction → Prop} {α : Type}

/-- The session with this transaction open. -/
def Session.at (base : Session) (kind : AccessKind) (tx : Transaction) : Session :=
  { base with transaction := some tx, callbackError := kind }

@[simp] theorem Session.at_transaction (base : Session) (kind : AccessKind) (tx : Transaction) :
    (base.at kind tx).transaction = some tx := rfl

/-- How a call that owns one transaction ends: committed, in doubt about its
COMMIT, abandoned with the body's error or the ROLLBACK's, or never begun. -/
inductive Finished (Done : Transaction → α → Prop) (Failed : Transaction → StorageError → Prop)
    (base : Session) : Except StorageError α → Session → Prop
  | committed (kind : AccessKind) {tx : Transaction} {a : α} (done : Done tx a) :
      Finished Done Failed base (.ok a) ((base.at kind tx).commit tx)
  | doubtful (kind : AccessKind) {tx : Transaction} {a : α} (done : Done tx a)
      (e : StorageError) : Finished Done Failed base (.error e) ((base.at kind tx).doubt tx)
  | abandoned (kind : AccessKind) {tx : Transaction} {e : StorageError} (failed : Failed tx e) :
      Finished Done Failed base (.error e) ((base.at kind tx).abandon tx none)
  | broken (kind : AccessKind) {tx : Transaction} {e : StorageError} (failed : Failed tx e)
      (e' : StorageError) :
      Finished Done Failed base (.error e') ((base.at kind tx).abandon tx (some e'))
  | unbegun (e : StorageError) : Finished Done Failed base (.error e) base

/-- **Transaction rule.** -/
theorem keeps_transact {body : DbM α} {Done : Transaction → α → Prop}
    {Failed : Transaction → StorageError → Prop} {base : Session}
    (hclosed : base.transaction = none) (haccepts : ∀ tx a, Done tx a → accepts tx)
    (hbody : KeepsE (discipline engine accepts) body (base.at base.callbackError .fresh)
      (fun a session => ∃ kind tx, session = base.at kind tx ∧ Done tx a)
      (fun e session => ∃ kind tx, session = base.at kind tx ∧ Failed tx e)) :
    KeepsE (discipline engine accepts) (transact body) base
      (fun a session => Finished Done Failed base (.ok a) session)
      (fun e session => Finished Done Failed base (.error e) session) := by
  refine keepsE_bind.mpr (keeps_begin hclosed ?_ (fun e => .unbegun e))
  refine keepsE_bind.mpr (keepsE_attempt.mpr (KeepsE.mono hbody ?_ ?_))
  · rintro a session ⟨kind, tx, rfl, hdone⟩
    refine keepsE_bind.mpr (keeps_commit rfl (haccepts tx a hdone) ?_ ?_)
    · exact keepsE_pure.mpr (.committed kind hdone)
    · exact fun e => .doubtful kind hdone e
  · rintro e session ⟨kind, tx, rfl, hfailed⟩
    refine keepsE_bind.mpr (keeps_rollback rfl ?_ ?_)
    · exact keepsE_throw.mpr (.abandoned kind hfailed)
    · exact fun e' => .broken kind hfailed e'

theorem keeps_check {condition : Bool} {e : StorageError} {session : Session}
    {Q : Unit → Session → Prop} {E : StorageError → Session → Prop}
    (hok : condition = true → Q () session) (herror : condition = false → E e session) :
    KeepsE (discipline engine accepts) (check condition e) session Q E := by
  cases condition with
  | true => exact hok rfl
  | false => exact herror rfl

end Frame

section Writes

variable {engine : Engine} {accepts : Transaction → Prop}

/-- The transaction with one more write. -/
def Transaction.push (tx : Transaction) (ws : List Write) : Transaction :=
  { tx with writes := tx.writes ++ ws }

@[simp] theorem Transaction.push_nil (tx : Transaction) : tx.push [] = tx := by
  simp [Transaction.push]

theorem Transaction.push_push (tx : Transaction) (ws ws' : List Write) :
    (tx.push ws).push ws' = tx.push (ws ++ ws') := by
  simp [Transaction.push]

/-- The transaction may make these writes, one after another. -/
def Writable (tx : Transaction) : List Write → Prop
  | [] => True
  | w :: ws => tx.mayWrite w ∧ Writable (tx.push [w]) ws

theorem writable_append {tx : Transaction} {ws ws' : List Write} :
    Writable tx (ws ++ ws') ↔ Writable tx ws ∧ Writable (tx.push ws) ws' := by
  induction ws generalizing tx with
  | nil => simp [Writable]
  | cons w ws ih =>
      rw [List.cons_append, Writable, ih, Transaction.push_push, Writable, and_assoc]
      rfl

/-- Rows that belong to no System can always be inserted. -/
theorem writable_of_unowned {ws : List Write} {tx : Transaction}
    (h : ∀ w ∈ ws, ∃ row, w = .insert row ∧ row.owner? = none ∧
      ∀ stored, row ≠ .systemCreateRetry stored) : Writable tx ws := by
  induction ws generalizing tx with
  | nil => trivial
  | cons w ws ih =>
      refine ⟨?_, ih (fun w hw => h w (List.mem_cons_of_mem _ hw))⟩
      obtain ⟨row, rfl, howner, hretry⟩ := h w List.mem_cons_self
      cases row with
      | systemCreateRetry stored => exact absurd rfl (hretry stored)
      | _ => exact fun id hid => by rw [howner] at hid; cases hid

/-- The program makes these writes and nothing else; a failure leaves some of
them. -/
def Pushes (engine : Engine) (accepts : Transaction → Prop) (x : DbM Unit)
    (ws : List Write) : Prop :=
  ∀ base kind tx, Writable tx ws →
    KeepsE (discipline engine accepts) x (Session.at base kind tx)
      (fun _ session => session = base.at kind (tx.push ws))
      (fun _ session => ∃ ws', session = base.at kind (tx.push ws'))

theorem pushes_pure : Pushes engine accepts (pure ()) [] := by
  intro base kind tx _
  exact keepsE_pure.mpr (by rw [Transaction.push_nil])

theorem pushes_write (w : Write) : Pushes engine accepts (write w) [w] := by
  intro base kind tx hws
  exact keeps_write rfl hws.1 rfl (fun _ => ⟨[], by rw [Transaction.push_nil]⟩)

theorem pushes_check (condition : Bool) (e : StorageError) :
    Pushes engine accepts (check condition e) [] := by
  intro base kind tx _
  refine keeps_check (fun _ => ?_) (fun _ => ⟨[], ?_⟩) <;> rw [Transaction.push_nil]

theorem Pushes.bind {x y : DbM Unit} {ws ws' : List Write}
    (hx : Pushes engine accepts x ws) (hy : Pushes engine accepts y ws') :
    Pushes engine accepts (x >>= fun _ => y) (ws ++ ws') := by
  intro base kind tx hws
  obtain ⟨hws, hws'⟩ := writable_append.mp hws
  refine keepsE_bind.mpr (KeepsE.mono (hx base kind tx hws) ?_ (fun _ _ h => h))
  rintro _ session rfl
  refine KeepsE.mono (hy base kind (tx.push ws) hws') ?_ ?_
  · rintro _ session rfl
    rw [Transaction.push_push]
  · rintro e session ⟨rest, rfl⟩
    exact ⟨ws ++ rest, by rw [Transaction.push_push]⟩

theorem pushes_forM {α : Type} {f : α → DbM Unit} {g : α → Write}
    (hf : ∀ a, Pushes engine accepts (f a) [g a]) (l : List α) :
    Pushes engine accepts (forM l f) (l.map g) := by
  induction l with
  | nil => exact pushes_pure
  | cons a l ih =>
      rw [List.forM_cons]
      exact (hf a).bind ih

/-- The writes of `insert_system`. -/
def systemWrites (record : SystemRecord) : List Write :=
  [.insert (.resourceIdentity ⟨record.id, record.uid.text⟩),
    .insert (.systemIdentity ⟨record.id, record.label⟩)] ++
  record.sources.map (fun source =>
    .insert (.sourceIdentity ⟨record.id, source.authority.text, source.identifier.text⟩)) ++
  record.parent.toList.map (fun parent => .insert (.systemParent ⟨record.id, parent⟩))

theorem pushes_insertSystem (record : SystemRecord) :
    Pushes engine accepts (insertSystem record) (systemWrites record) := by
  have hwrites : systemWrites record =
      [.insert (.resourceIdentity ⟨record.id, record.uid.text⟩)] ++
        ([.insert (.systemIdentity ⟨record.id, record.label⟩)] ++
          (record.sources.map (fun source => .insert (.sourceIdentity
              ⟨record.id, source.authority.text, source.identifier.text⟩)) ++
            record.parent.toList.map (fun parent =>
              .insert (.systemParent ⟨record.id, parent⟩)))) := by
    simp [systemWrites]
  rw [hwrites]
  refine (pushes_write _).bind ((pushes_write _).bind
    ((pushes_forM (fun _ => pushes_write _) _).bind ?_))
  cases record.parent with
  | none => exact pushes_pure
  | some parent => exact pushes_write _

/-- The row `insert_artifact` writes. -/
def NewSourceArtifact.row (artifact : NewSourceArtifact) : Row :=
  .sourceArtifact ⟨artifact.id, artifact.mediaType, artifact.bytes⟩

theorem pushes_insertArtifact (artifact : NewSourceArtifact) :
    Pushes engine accepts (insertArtifact artifact) [.insert artifact.row] :=
  (pushes_write _).bind (pushes_check _ _)

end Writes

/-- Policy answers, in the order they were given. -/
abbrev Answers := List (Action × Option PermissionSet)

/-- The record of policy answers. -/
def Answers.decisions (asked : Answers) : List Decision :=
  asked.map (fun answer => .policy answer.1 answer.2)

section Create

variable {engine : Engine} {accepts : Transaction → Prop}

/-- Which answers lead an authorization callback of a creation to its decision. -/
abbrev CreateRule := WriteReceipt → Bool → Answers → Bool → Prop

/-- The callback asks the policy and decides by the rule. -/
def DecidesCreate (engine : Engine) (accepts : Transaction → Prop)
    (authorize : WriteReceipt → Bool → Call Bool) (rule : CreateRule) : Prop :=
  ∀ receipt replay base kind tx,
    Keeps (discipline engine accepts) (authorize receipt replay) (Session.at base kind tx)
      (fun allowed session => ∃ kind' asked, rule receipt replay asked allowed ∧
        session = base.at kind' { tx with decisions := tx.decisions ++ asked.decisions })

/-- The retry prepared for a request. -/
inductive Prepares (engine : Engine) (input : CreateSystem) :
    Option RetryKey → Option PreparedRetry → Prop
  | unkeyed : Prepares engine input none none
  | keyed {key : RetryKey} {content : Bytes} {actor : String}
      (hcontent : retryContent input = .ok content) (hactor : input.audit.actor = some actor) :
      Prepares engine input (some key)
        (some ⟨input.scope actor key, engine.sha256 content, key.retentionSeconds⟩)

/-- The rows of a fresh creation. -/
def CreateSystem.writes (input : CreateSystem) : List Write :=
  systemWrites input.system ++
    [.insert input.artifact.row, .insert (.systemRevision input.revision),
      .insert (.serverAudit (auditRow input.auditId (some input.system.id)
        (some input.revision.id) input.audit .accepted .systemCreate)),
      .insert (.outgoingWork ⟨input.eventId, input.system.id, input.revision.id,
        input.artifact.id, input.auditId, .systemCreated⟩),
      .insert (.systemWriteHead ⟨input.system.id, input.revision.id, input.artifact.id⟩)]

/-- The retention row of a receipt stored at `now`. -/
def PreparedRetry.row (prepared : PreparedRetry) (receipt : WriteReceipt) (now : Timestamp) :
    SystemCreateRetry :=
  ⟨prepared.scope, prepared.digest, receipt, now, now + prepared.retentionSeconds * 1000000⟩

/-- A transaction that found an unexpired receipt for the same intent. -/
structure Replayed (rule : CreateRule) (prepared : PreparedRetry) (tx : Transaction)
    (receipt : WriteReceipt) : Prop where
  scope : tx.scopeLock = some prepared.scope
  unlocked : tx.systemLock = none
  writes : tx.writes = []
  found : ∃ clock row, tx.looked = some (clock, some row) ∧ row.receipt = receipt ∧
    row.digest = prepared.digest
  decisions : ∃ asked, rule receipt true asked true ∧ tx.decisions =
    asked.decisions ++ [.create receipt true true, .intent receipt true]

/-- A transaction that creates the System. -/
structure Created (rule : CreateRule) (input : CreateSystem) (prepared : Option PreparedRetry)
    (tx : Transaction) : Prop where
  scope : tx.scopeLock = prepared.map (·.scope)
  found : ∀ p, prepared = some p → ∃ clock, tx.looked = some (clock, none)
  unfound : ∀ clock row, tx.looked ≠ some (clock, some row)
  unlocked : tx.systemLock = none
  writes : ∃ now, tx.writes = input.writes ++
    prepared.toList.map (fun p => .retry (p.row input.receipt now))
  decisions : ∃ asked, rule input.receipt false asked true ∧ tx.decisions =
    asked.decisions ++ [.create input.receipt false true]

inductive CreateDone (rule : CreateRule) (input : CreateSystem) :
    Option PreparedRetry → Transaction → WriteReceipt → Prop
  | replayed {prepared : PreparedRetry} {tx : Transaction} {receipt : WriteReceipt}
      (h : Replayed rule prepared tx receipt) : CreateDone rule input (some prepared) tx receipt
  | created {prepared : Option PreparedRetry} {tx : Transaction}
      (h : Created rule input prepared tx) : CreateDone rule input prepared tx input.receipt

/-- How a creation's transaction ends without a COMMIT. -/
inductive CreateFailed (rule : CreateRule) (input : CreateSystem) :
    Option PreparedRetry → Transaction → StorageError → Prop
  | unasked {prepared : Option PreparedRetry} {tx : Transaction} (e : StorageError)
      (decisions : tx.decisions = []) : CreateFailed rule input prepared tx e
  | replayDenied {prepared : PreparedRetry} {tx : Transaction} {clock : Timestamp}
      {row : SystemCreateRetry} {asked : Answers} (scope : tx.scopeLock = some prepared.scope)
      (found : tx.looked = some (clock, some row)) (refused : rule row.receipt true asked false)
      (decisions : tx.decisions = asked.decisions ++ [.create row.receipt true false]) :
      CreateFailed rule input (some prepared) tx .denied
  | conflict {prepared : PreparedRetry} {tx : Transaction} {clock : Timestamp}
      {row : SystemCreateRetry} {asked : Answers} (scope : tx.scopeLock = some prepared.scope)
      (found : tx.looked = some (clock, some row)) (differs : row.digest ≠ prepared.digest)
      (allowed : rule row.receipt true asked true)
      (decisions : tx.decisions = asked.decisions ++
        [.create row.receipt true true, .intent row.receipt false]) :
      CreateFailed rule input (some prepared) tx .conflict
  | denied {prepared : Option PreparedRetry} {tx : Transaction} {asked : Answers}
      (refused : rule input.receipt false asked false)
      (decisions : tx.decisions = asked.decisions ++ [.create input.receipt false false]) :
      CreateFailed rule input prepared tx .denied
  | failed {prepared : Option PreparedRetry} {tx : Transaction} {asked : Answers}
      (e : StorageError) (allowed : rule input.receipt false asked true)
      (decisions : tx.decisions = asked.decisions ++ [.create input.receipt false true]) :
      CreateFailed rule input prepared tx e

/-- A System's identity row is inserted before the rows that come with it. -/
theorem writable_systemWrites (record : SystemRecord) (tx : Transaction) :
    Writable tx (systemWrites record) := by
  refine writable_append.mpr ⟨writable_append.mpr ⟨?_, ?_⟩, ?_⟩
  · refine writable_of_unowned ?_
    intro w hw
    obtain rfl | rfl : w = _ ∨ w = _ := by simpa using hw
    all_goals exact ⟨_, rfl, rfl, by simp⟩
  · refine writable_of_unowned ?_
    intro w hw
    obtain ⟨source, -, rfl⟩ := List.mem_map.mp hw
    exact ⟨_, rfl, rfl, by simp⟩
  · cases record.parent with
    | none => trivial
    | some parent =>
        refine ⟨?_, trivial⟩
        rintro id ⟨⟩
        exact ⟨record.label, by simp [Transaction.push]⟩

theorem writable_createWrites (input : CreateSystem) (tx : Transaction) :
    Writable tx input.writes := by
  refine writable_append.mpr ⟨writable_systemWrites input.system tx, ?_⟩
  have hcreates : ∀ ws, ((tx.push (systemWrites input.system)).push ws).creates
      input.system.id := fun ws => ⟨input.system.label, by
    simp [Transaction.push, systemWrites]⟩
  refine ⟨?_, ?_, ?_, ?_, ?_, trivial⟩
  · rintro id ⟨⟩
  · rintro id ⟨⟩
  · rintro id ⟨⟩
  · rintro id ⟨⟩
    simpa only [Transaction.push_push, List.append_assoc] using hcreates _
  · rintro id ⟨⟩
    simpa only [Transaction.push_push, List.append_assoc] using hcreates _

theorem pushes_createRows (input : CreateSystem) :
    Pushes engine accepts (createRows input) input.writes :=
  (pushes_insertSystem _).bind ((pushes_insertArtifact _).bind ((pushes_write _).bind
    ((pushes_write _).bind ((pushes_write _).bind (pushes_write _)))))

variable {rule : CreateRule} {input : CreateSystem} {base : Session} {kind : AccessKind}
  {authorize : WriteReceipt → Bool → Call Bool} {tx : Transaction}

/-- Created rows never include a retention row. -/
theorem retryFree_createWrites (input : CreateSystem) :
    ∀ row, Write.retry row ∉ input.writes := by
  intro row hrow
  simp [CreateSystem.writes, systemWrites] at hrow

theorem emits_createWrites (input : CreateSystem) :
    Write.insert (.outgoingWork ⟨input.eventId, input.system.id, input.revision.id,
      input.artifact.id, input.auditId, .systemCreated⟩) ∈ input.writes := by
  simp [CreateSystem.writes]

/-- A fresh creation that the callback has allowed. -/
theorem keeps_createFresh {prepared : Option PreparedRetry} {asked : Answers}
    (hscope : tx.scopeLock = prepared.map (·.scope)) (hunlocked : tx.systemLock = none)
    (hfound : ∀ p, prepared = some p → ∃ clock, tx.looked = some (clock, none))
    (hunfound : ∀ clock row, tx.looked ≠ some (clock, some row))
    (hwrites : tx.writes = []) (hrule : rule input.receipt false asked true)
    (hdecisions : tx.decisions = asked.decisions ++ [.create input.receipt false true]) :
    KeepsE (discipline engine accepts) (createFresh input prepared) (base.at kind tx)
      (fun receipt session => ∃ kind tx, session = base.at kind tx ∧
        CreateDone rule input prepared tx receipt)
      (fun e session => ∃ kind tx, session = base.at kind tx ∧
        CreateFailed rule input prepared tx e) := by
  have hfailed : ∀ (e : StorageError) ws, ∃ kind' tx',
      base.at kind (tx.push ws) = base.at kind' tx' ∧ CreateFailed rule input prepared tx' e :=
    fun e ws => ⟨kind, tx.push ws, rfl, .failed e hrule hdecisions⟩
  have hcreated : ∀ now, Created rule input prepared (tx.push (input.writes ++
      prepared.toList.map (fun p => .retry (p.row input.receipt now)))) := fun now => {
    scope := hscope
    found := hfound
    unfound := hunfound
    unlocked := hunlocked
    writes := ⟨now, by simp [Transaction.push, hwrites]⟩
    decisions := ⟨asked, hrule, hdecisions⟩ }
  refine keepsE_bind.mpr (KeepsE.mono
    (pushes_createRows input base kind tx (writable_createWrites input tx)) ?_ ?_)
  · rintro _ session rfl
    cases prepared with
    | none =>
        refine keepsE_pure.mpr ⟨kind, _, rfl, .created ?_⟩
        simpa using hcreated 0
    | some p =>
        refine keepsE_bind.mpr (keepsE_bind.mpr (keeps_storeRetry rfl hscope ?_ ?_ ?_ ?_ ?_))
        · intro row hrow
          exact retryFree_createWrites input row (by simpa [Transaction.push, hwrites] using hrow)
        · exact List.mem_append_right _ (emits_createWrites input)
        · intro now
          refine keeps_check (fun _ => ?_) (fun h => by cases h)
          refine keepsE_pure.mpr ⟨kind, _, rfl, .created ?_⟩
          have h := hcreated now
          rw [← Transaction.push_push] at h
          exact h
        · exact keeps_check (fun h => by cases h) (fun _ => hfailed _ _)
        · exact fun e => hfailed e _
  · rintro e session ⟨ws, rfl⟩
    exact hfailed e ws

/-- The lookup under the scope's lock, the callback, and the comparison. -/
theorem keeps_replay (input : CreateSystem) (hauthorize : DecidesCreate engine accepts authorize rule)
    (prepared : PreparedRetry) :
    KeepsE (discipline engine accepts) (prepared.replay authorize)
      (base.at kind .fresh)
      (fun recorded session => ∃ kind tx, session = base.at kind tx ∧
        match recorded with
        | some receipt => Replayed rule prepared tx receipt
        | none => ∃ clock, tx = { Transaction.fresh with
            scopeLock := some prepared.scope, looked := some (clock, none) })
      (fun e session => ∃ kind tx, session = base.at kind tx ∧
        CreateFailed rule input (some prepared) tx e) := by
  refine keepsE_bind.mpr (keeps_lockScope rfl rfl ?_ ?_)
  · refine keepsE_bind.mpr (keeps_query ⟨_, rfl, rfl, rfl⟩ ?_ ?_)
    · intro clock found
      cases found with
      | none => exact keepsE_pure.mpr ⟨kind, _, rfl, clock, rfl⟩
      | some row =>
          refine keepsE_bind.mpr (keepsE_lift.mpr (Keeps.mono
            (hauthorize row.receipt true base kind { Transaction.fresh with
              scopeLock := some prepared.scope, looked := some (clock, some row) }) ?_))
          rintro allowed session ⟨kind, asked, hrule, rfl⟩
          refine keepsE_bind.mpr (keepsE_lift.mpr (keeps_decided rfl (by simp) ?_))
          refine keepsE_bind.mpr (keeps_check ?_ ?_)
          · rintro rfl
            refine keepsE_bind.mpr (keepsE_lift.mpr (keeps_decided rfl ?_ ?_))
            · rintro receipt same heq
              obtain ⟨rfl, rfl⟩ := Decision.intent.inj heq
              simp
            refine keepsE_bind.mpr (keeps_check ?_ ?_)
            · intro hsame
              refine keepsE_pure.mpr ⟨kind, _, rfl, ?_⟩
              exact {
                scope := rfl
                unlocked := rfl
                writes := rfl
                found := ⟨clock, row, rfl, rfl, by simpa using hsame⟩
                decisions := ⟨asked, hrule, by simp [Transaction.fresh, hsame]⟩ }
            · intro hdiffers
              refine ⟨kind, _, rfl, .conflict rfl rfl (by simpa using hdiffers) hrule ?_⟩
              simp [Transaction.fresh, hdiffers]
          · rintro rfl
            exact ⟨kind, _, rfl, .replayDenied rfl rfl hrule (by simp [Transaction.fresh])⟩
    · exact fun e => ⟨kind, _, rfl, .unasked e rfl⟩
  · exact fun e => ⟨kind, _, rfl, .unasked e rfl⟩

theorem keeps_createBody (hauthorize : DecidesCreate engine accepts authorize rule)
    (prepared : Option PreparedRetry) :
    KeepsE (discipline engine accepts) (createBody input prepared authorize)
      (base.at kind .fresh)
      (fun receipt session => ∃ kind tx, session = base.at kind tx ∧
        CreateDone rule input prepared tx receipt)
      (fun e session => ∃ kind tx, session = base.at kind tx ∧
        CreateFailed rule input prepared tx e) := by
  -- a candidate that no retained receipt replaces
  have hcandidate : ∀ kind (tx : Transaction), tx.scopeLock = prepared.map (·.scope) →
      tx.systemLock = none → (∀ p, prepared = some p → ∃ clock, tx.looked = some (clock, none)) →
      (∀ clock row, tx.looked ≠ some (clock, some row)) → tx.writes = [] → tx.decisions = [] →
      KeepsE (discipline engine accepts) (do
          let allowed ← authorize input.receipt false
          decided (.create input.receipt false allowed)
          check allowed .denied
          createFresh input prepared) (base.at kind tx)
        (fun receipt session => ∃ kind tx, session = base.at kind tx ∧
          CreateDone rule input prepared tx receipt)
        (fun e session => ∃ kind tx, session = base.at kind tx ∧
          CreateFailed rule input prepared tx e) := by
    intro kind tx hscope hunlocked hfound hunfound hwrites hdecisions
    refine keepsE_bind.mpr (keepsE_lift.mpr (Keeps.mono
      (hauthorize input.receipt false base kind tx) ?_))
    rintro allowed session ⟨kind, asked, hrule, rfl⟩
    refine keepsE_bind.mpr (keepsE_lift.mpr (keeps_decided rfl (by simp) ?_))
    refine keepsE_bind.mpr (keeps_check ?_ ?_)
    · rintro rfl
      exact keeps_createFresh hscope hunlocked hfound hunfound hwrites hrule
        (by simp [hdecisions])
    · rintro rfl
      exact ⟨kind, _, rfl, .denied hrule (by simp [hdecisions])⟩
  cases prepared with
  | none =>
      refine keepsE_bind.mpr (keepsE_pure.mpr ?_)
      exact hcandidate kind .fresh rfl rfl (by simp) (by simp [Transaction.fresh]) rfl rfl
  | some p =>
      refine keepsE_bind.mpr (KeepsE.mono (keeps_replay input hauthorize p) ?_ ?_)
      · rintro recorded session ⟨kind, tx, rfl, hrecorded⟩
        cases recorded with
        | some receipt => exact keepsE_pure.mpr ⟨kind, tx, rfl, .replayed hrecorded⟩
        | none =>
            obtain ⟨clock, rfl⟩ := hrecorded
            exact hcandidate kind _ rfl rfl (fun p hp => ⟨clock, rfl⟩) (by simp) rfl rfl
      · exact fun e session h => h

/-- The transactions a creation commits, with the receipt it returns. -/
def CreateCommits (engine : Engine) (rule : CreateRule) (input : CreateSystem)
    (retry : Option RetryKey) (tx : Transaction) (receipt : WriteReceipt) : Prop :=
  ∃ prepared, Prepares engine input retry prepared ∧ CreateDone rule input prepared tx receipt

/-- The transactions a creation abandons, with its error. -/
def CreateAbandons (engine : Engine) (rule : CreateRule) (input : CreateSystem)
    (retry : Option RetryKey) (tx : Transaction) (e : StorageError) : Prop :=
  ∃ prepared, Prepares engine input retry prepared ∧ CreateFailed rule input prepared tx e

theorem keeps_prepareRetry {retry : Option RetryKey} :
    KeepsE (discipline engine accepts) (prepareRetry input retry) base
      (fun prepared session => session = base ∧ Prepares engine input retry prepared)
      (fun _ session => session = base) := by
  cases retry with
  | none => exact keepsE_pure.mpr ⟨rfl, .unkeyed⟩
  | some key =>
      refine keepsE_bind.mpr ?_
      cases hcontent : retryContent input with
      | error e => exact keepsE_throw.mpr rfl
      | ok content =>
          refine keepsE_pure.mpr ?_
          cases hactor : input.audit.actor with
          | none => exact keepsE_throw.mpr rfl
          | some actor =>
              refine keepsE_bind.mpr (keeps_sha256 ?_ (fun _ => rfl))
              exact keepsE_pure.mpr ⟨rfl, .keyed hcontent hactor⟩

/-- **Creation.** -/
theorem keeps_createSystemInner (hauthorize : DecidesCreate engine accepts authorize rule)
    {retry : Option RetryKey}
    (haccepts : ∀ tx receipt, CreateCommits engine rule input retry tx receipt → accepts tx)
    (hclosed : base.transaction = none) :
    KeepsE (discipline engine accepts) (createSystemInner input retry authorize) base
      (fun receipt session => Finished (CreateCommits engine rule input retry)
        (CreateAbandons engine rule input retry) base (.ok receipt) session)
      (fun e session => Finished (CreateCommits engine rule input retry)
        (CreateAbandons engine rule input retry) base (.error e) session) := by
  refine keepsE_bind.mpr (keepsE_lift.mpr (keeps_inTransaction ?_))
  refine keepsE_bind.mpr (keeps_check (fun _ => ?_) (fun _ => .unbegun _))
  refine keepsE_bind.mpr (keeps_query trivial (fun _ _ => ?_) (fun e => .unbegun e))
  refine keepsE_bind.mpr (KeepsE.mono keeps_prepareRetry ?_ ?_)
  · rintro prepared session ⟨rfl, hprepares⟩
    refine keeps_transact hclosed haccepts (KeepsE.mono (keeps_createBody hauthorize prepared) ?_ ?_)
    · rintro receipt session ⟨kind, tx, rfl, hdone⟩
      exact ⟨kind, tx, rfl, prepared, hprepares, hdone⟩
    · rintro e session ⟨kind, tx, rfl, hfailed⟩
      exact ⟨kind, tx, rfl, prepared, hprepares, hfailed⟩
  · rintro e session rfl
    exact .unbegun e

end Create

section Update

variable {engine : Engine} {accepts : Transaction → Prop}

/-- Which answers lead an authorization callback of an update to its decision. -/
abbrev UpdateRule := Answers → Bool → Prop

/-- The callback asks the policy and decides by the rule. -/
def DecidesUpdate (engine : Engine) (accepts : Transaction → Prop) (authorize : Call Bool)
    (rule : UpdateRule) : Prop :=
  ∀ base kind tx, Keeps (discipline engine accepts) authorize (Session.at base kind tx)
    (fun allowed session => ∃ kind' asked, rule asked allowed ∧
      session = base.at kind' { tx with decisions := tx.decisions ++ asked.decisions })

/-- The writes of an update. -/
def UpdateSystem.writes (input : UpdateSystem) : List Write :=
  [.insert input.artifact.row, .insert (.systemRevision input.revision),
    .label input.systemId input.label,
    .head ⟨input.systemId, input.revision.id, input.artifact.id⟩,
    .insert (.serverAudit (auditRow input.auditId (some input.systemId)
      (some input.revision.id) input.audit .accepted .systemUpdate)),
    .insert (.outgoingWork ⟨input.eventId, input.systemId, input.revision.id,
      input.artifact.id, input.auditId, .systemUpdated⟩)]

/-- A transaction that replaces a head the caller accepts. -/
structure UpdateCommits (rule : UpdateRule) (input : UpdateSystem) (tx : Transaction)
    (receipt : WriteReceipt) : Prop where
  receipt : receipt = input.receipt
  unscoped : tx.scopeLock = none
  unlooked : tx.looked = none
  locked : tx.systemLock = some input.systemId
  head : ∃ current, tx.head = some (some current) ∧
    ∀ expected, input.expectedRevision = some expected → expected = current
  writes : tx.writes = input.writes
  decisions : ∃ asked, rule asked true ∧ tx.decisions = asked.decisions ++ [.update true]

/-- How an update's transaction ends without a COMMIT. -/
inductive UpdateAbandons (rule : UpdateRule) (input : UpdateSystem) :
    Transaction → StorageError → Prop
  | unasked {tx : Transaction} (e : StorageError) (decisions : tx.decisions = []) :
      UpdateAbandons rule input tx e
  | denied {tx : Transaction} {asked : Answers} (refused : rule asked false)
      (decisions : tx.decisions = asked.decisions ++ [.update false]) :
      UpdateAbandons rule input tx .denied
  | failed {tx : Transaction} {asked : Answers} (e : StorageError) (allowed : rule asked true)
      (decisions : tx.decisions = asked.decisions ++ [.update true]) :
      UpdateAbandons rule input tx e

theorem pushes_updateRows (input : UpdateSystem) :
    Pushes engine accepts (updateRows input) input.writes :=
  (pushes_insertArtifact _).bind ((pushes_write _).bind ((pushes_write _).bind
    ((pushes_write _).bind ((pushes_write _).bind (pushes_write _)))))

theorem writable_updateWrites {input : UpdateSystem} {tx : Transaction} {r : RevisionId}
    (hlock : tx.systemLock = some input.systemId) (hhead : tx.head = some (some r)) :
    Writable tx input.writes := by
  refine ⟨?_, ?_, hlock, ⟨hlock, ⟨r, hhead⟩, input.revision, ?_, rfl⟩, ?_, ?_, trivial⟩
  · rintro id ⟨⟩
  · rintro id ⟨⟩
  · simp [Transaction.push]
  · rintro id ⟨⟩
  · rintro id ⟨⟩

variable {rule : UpdateRule} {input : UpdateSystem} {base : Session} {authorize : Call Bool}

/-- What follows the lock of `updateBody`. -/
def updateLocked (input : UpdateSystem) (authorize : Call Bool) (locked : Bool) :
    DbM WriteReceipt := do
  let allowed ← authorize
  decided (.update allowed)
  check allowed .denied
  check locked .notFound
  match ← query (.head input.systemId) with
  | none => throw .uninitializedRevision
  | some current =>
      checkRevision input.expectedRevision current
      updateRows input
      return input.receipt

theorem updateBody_eq (input : UpdateSystem) (authorize : Call Bool) :
    updateBody input authorize = lockSystem input.systemId >>= updateLocked input authorize :=
  rfl

theorem keeps_updateBody (hauthorize : DecidesUpdate engine accepts authorize rule)
    (kind : AccessKind) :
    KeepsE (discipline engine accepts) (updateBody input authorize) (base.at kind .fresh)
      (fun receipt session => ∃ kind tx, session = base.at kind tx ∧
        UpdateCommits rule input tx receipt)
      (fun e session => ∃ kind tx, session = base.at kind tx ∧
        UpdateAbandons rule input tx e) := by
  -- what follows the lock, whether or not there is a System to lock
  have hlocked : ∀ (locked : Bool) (tx : Transaction), tx.scopeLock = none →
      tx.looked = none → (locked = true → tx.systemLock = some input.systemId) → tx.writes = [] →
      tx.decisions = [] →
      KeepsE (discipline engine accepts) (updateLocked input authorize locked) (base.at kind tx)
        (fun receipt session => ∃ kind tx, session = base.at kind tx ∧
          UpdateCommits rule input tx receipt)
        (fun e session => ∃ kind tx, session = base.at kind tx ∧
          UpdateAbandons rule input tx e) := by
    intro locked tx hscope hlooked hlock hwrites hdecisions
    refine keepsE_bind.mpr (keepsE_lift.mpr (Keeps.mono (hauthorize base kind tx) ?_))
    rintro allowed session ⟨kind, asked, hrule, rfl⟩
    refine keepsE_bind.mpr (keepsE_lift.mpr (keeps_decided rfl (by simp) ?_))
    refine keepsE_bind.mpr (keeps_check ?_ ?_)
    · rintro rfl
      have hfailed : ∀ (e : StorageError) (tx' : Transaction),
          tx'.decisions = tx.decisions ++ asked.decisions ++ [.update true] →
          ∃ kind' tx'', base.at kind tx' = base.at kind' tx'' ∧
            UpdateAbandons rule input tx'' e :=
        fun e tx' h => ⟨kind, tx', rfl, .failed e hrule (by simpa [hdecisions] using h)⟩
      refine keepsE_bind.mpr (keeps_check ?_ (fun _ => hfailed _ _ rfl))
      intro hfound
      have hlock := hlock hfound
      refine keepsE_bind.mpr (keeps_query ⟨_, rfl, hlock, hwrites⟩ ?_ (fun e => hfailed e _ rfl))
      intro now head
      cases head with
      | none => exact keepsE_throw.mpr (hfailed _ _ rfl)
      | some current =>
          refine keepsE_bind.mpr (keeps_check ?_ (fun _ => hfailed _ _ rfl))
          intro hexpected
          refine keepsE_bind.mpr (KeepsE.mono
            (pushes_updateRows input base kind _ (writable_updateWrites hlock rfl)) ?_ ?_)
          · rintro _ session rfl
            refine keepsE_pure.mpr ⟨kind, _, rfl, ?_⟩
            exact {
              receipt := rfl
              unscoped := hscope
              unlooked := hlooked
              locked := hlock
              head := ⟨current, rfl, fun expected heq => by
                rw [heq] at hexpected
                simpa using hexpected⟩
              writes := by simp [Transaction.push, hwrites]
              decisions := ⟨asked, hrule, by simp [Transaction.push, hdecisions]⟩ }
          · rintro e session ⟨ws, rfl⟩
            exact hfailed e _ rfl
    · rintro rfl
      exact ⟨kind, _, rfl, .denied hrule (by simp [hdecisions])⟩
  rw [updateBody_eq]
  refine keepsE_bind.mpr (keeps_lockSystem rfl rfl ?_ ?_ ?_)
  · exact hlocked true _ rfl rfl (fun _ => rfl) rfl rfl
  · exact hlocked false .fresh rfl rfl (fun h => by cases h) rfl rfl
  · exact fun e => ⟨kind, _, rfl, .unasked e rfl⟩

/-- **Update.** -/
theorem keeps_updateSystemAdmission (hauthorize : DecidesUpdate engine accepts authorize rule)
    (haccepts : ∀ tx receipt, UpdateCommits rule input tx receipt → accepts tx)
    (hclosed : base.transaction = none) :
    KeepsE (discipline engine accepts) (updateSystemAdmission input authorize) base
      (fun receipt session => Finished (UpdateCommits rule input) (UpdateAbandons rule input)
        base (.ok receipt) session)
      (fun e session => Finished (UpdateCommits rule input) (UpdateAbandons rule input)
        base (.error e) session) := by
  refine keepsE_bind.mpr (keepsE_lift.mpr (keeps_inTransaction ?_))
  refine keepsE_bind.mpr (keeps_check (fun _ => ?_) (fun _ => .unbegun _))
  refine keepsE_bind.mpr (keeps_query trivial (fun _ _ => ?_) (fun e => .unbegun e))
  exact keeps_transact hclosed haccepts (keeps_updateBody hauthorize base.callbackError)

end Update

section Denial

variable {engine : Engine} {accepts : Transaction → Prop} {input : DeniedMutation}
  {base : Session}

/-- A denial's transaction writes its audit row or nothing. -/
structure DenialCommits (input : DeniedMutation) (tx : Transaction) : Prop where
  unscoped : tx.scopeLock = none
  unlocked : tx.systemLock = none
  undecided : tx.decisions = []
  writes : tx.writes = [] ∨ tx.writes = [.insert (.serverAudit
    (auditRow input.auditId input.target none input.audit .denied input.operation))]

/-- It writes the row exactly when it answers that the row is retained. -/
structure DenialStored (input : DeniedMutation) (tx : Transaction) (stored : DenialStorage) :
    Prop where
  commits : DenialCommits input tx
  retained : stored = .retained → tx.writes = [.insert (.serverAudit
    (auditRow input.auditId input.target none input.audit .denied input.operation))]
  unretained : stored ≠ .retained → tx.writes = []

theorem keeps_denialBody (maxRows : Nat) (kind : AccessKind) :
    KeepsE (discipline engine accepts) (denialBody input maxRows) (base.at kind .fresh)
      (fun stored session => ∃ kind tx, session = base.at kind tx ∧ DenialStored input tx stored)
      (fun _ session => ∃ kind tx, session = base.at kind tx ∧ True) := by
  have hfailed : ∀ tx, ∃ kind' tx', base.at kind tx = base.at kind' tx' ∧ True :=
    fun tx => ⟨kind, tx, rfl, trivial⟩
  refine keepsE_bind.mpr (keeps_query trivial (fun _ _ => ?_) (fun _ => hfailed _))
  refine keepsE_bind.mpr (keeps_query trivial (fun _ _ => ?_) (fun _ => hfailed _))
  refine keepsE_bind.mpr (keeps_query trivial (fun _ _ => ?_) (fun _ => hfailed _))
  refine keepsE_bind.mpr (keeps_lockDenials rfl ?_ ?_ (fun _ => hfailed _))
  · refine keepsE_bind.mpr (keeps_query trivial (fun _ count => ?_) (fun _ => hfailed _))
    split
    · exact keepsE_pure.mpr ⟨kind, _, rfl, ⟨rfl, rfl, rfl, .inl rfl⟩, by simp, fun _ => rfl⟩
    · refine keepsE_bind.mpr (keeps_write rfl ?_ ?_ (fun _ => hfailed _))
      · rintro id ⟨⟩
      · exact keepsE_pure.mpr ⟨kind, _, rfl, ⟨rfl, rfl, rfl, .inr rfl⟩, fun _ => rfl, by simp⟩
  · exact keepsE_pure.mpr ⟨kind, _, rfl, ⟨rfl, rfl, rfl, .inl rfl⟩, by simp, fun _ => rfl⟩

/-- **Denial.** -/
theorem keeps_recordDeniedMutationBounded (maxRows : Nat)
    (haccepts : ∀ tx, DenialCommits input tx → accepts tx)
    (hclosed : base.transaction = none) :
    KeepsE (discipline engine accepts) (recordDeniedMutationBounded input maxRows) base
      (fun stored session => Finished (DenialStored input) (fun _ _ => True) base
        (.ok stored) session)
      (fun e session => Finished (DenialStored input) (fun _ _ => True) base
        (.error e) session) := by
  refine keepsE_bind.mpr (keepsE_lift.mpr (keeps_inTransaction ?_))
  refine keepsE_bind.mpr (keeps_check (fun _ => ?_) (fun _ => .unbegun _))
  refine keeps_transact hclosed (fun tx _ h => haccepts tx h.commits) ?_
  exact KeepsE.mono (keeps_denialBody maxRows base.callbackError) (fun _ _ h => h)
    (fun _ _ h => h)

end Denial

end Server
end Glaux
