import Glaux.Server.Storage.Discipline

/-!
# System writes (`application.rs`, `storage.rs`, `revisions.rs`)

The write calls, statement by statement.  Each owns one transaction: `transact`
is the frame they share, and ends it with COMMIT or ROLLBACK.
-/

namespace Glaux
namespace Server

open Domain Library

structure AuditContext where
  actor : Option String
  source : Option String
  correlation : String
  time : ExactInstant
deriving DecidableEq

structure NewSourceArtifact where
  id : ArtifactId
  mediaType : String
  bytes : Bytes
deriving DecidableEq

structure CreateSystem where
  system : SystemRecord
  artifact : NewSourceArtifact
  revision : SystemRevision
  auditId : AuditId
  eventId : EventId
  audit : AuditContext
deriving DecidableEq

structure UpdateSystem where
  systemId : LocalId
  label : String
  artifact : NewSourceArtifact
  revision : SystemRevision
  auditId : AuditId
  eventId : EventId
  audit : AuditContext
  expectedRevision : Option RevisionId
deriving DecidableEq

structure RetryKey where
  key : String
  retentionSeconds : Nat
deriving DecidableEq

structure DeniedMutation where
  auditId : AuditId
  target : Option LocalId
  audit : AuditContext
  operation : Operation
deriving DecidableEq

inductive DenialStorage where
  | retained | capacity | busy
deriving DecidableEq, Repr

def maxSourceBytes : Nat := 1048576

def maxMediaTypeBytes : Nat := 1024

/-- `valid_artifact`. -/
def validArtifact (mediaType : String) (bytes : Bytes) : Bool :=
  !mediaType.isEmpty && mediaType.utf8ByteSize ≤ maxMediaTypeBytes &&
    !mediaType.toList.any isControl && bytes.length ≤ maxSourceBytes

/-- `valid_metadata`. -/
def validMetadata (value : String) : Bool :=
  !value.isEmpty && value.utf8ByteSize ≤ 256 && !value.toList.any isControl

/-- `valid_context`. -/
def validContext (context : AuditContext) : Bool :=
  context.actor.all validMetadata && context.source.all validMetadata &&
    validMetadata context.correlation

section RetryContent

/-- `u64::to_be_bytes`. -/
def bigEndian (n : Nat) : Bytes :=
  [56, 48, 40, 32, 24, 16, 8, 0].map (fun shift => UInt8.ofNat (n / 2 ^ shift))

def textBytes (text : String) : Bytes := text.toUTF8.toList

/-- `field`: a length and the bytes themselves. -/
def field (value : Bytes) : Bytes := bigEndian value.length ++ value

/-- `retry_content`. -/
def retryContent (input : CreateSystem) : Except StorageError Bytes :=
  let aliases := sortBy (fun (pair : String × String) => toLex pair)
    (input.system.sources.map (fun source => (source.authority.text, source.identifier.text)))
  if (aliases.zip aliases.tail).any (fun pair => pair.1 = pair.2) then .error .invalidInput
  else
    .ok (textBytes "glaux.system-create-intent.v1" ++
      field (textBytes input.system.uid.text) ++
      field (textBytes input.system.label) ++
      field (textBytes ((input.system.parent.map (·.text)).getD "")) ++
      bigEndian aliases.length ++
      aliases.flatMap (fun pair => field (textBytes pair.1) ++ field (textBytes pair.2)) ++
      field (textBytes ((input.revision.semanticTime.map (·.sourceLexeme)).getD "")) ++
      field (textBytes input.artifact.mediaType) ++
      field input.artifact.bytes)

end RetryContent

/-- A lookup of a `Result` value. -/
def liftExcept {α : Type} (x : Except StorageError α) : DbM α := ExceptT.mk (pure x)

def check (condition : Bool) (e : StorageError) : DbM Unit :=
  if condition then pure () else throw e

/-- A transaction of its own: COMMIT what the body has done, or ROLLBACK and hand
on the body's error. -/
def transact {α : Type} (body : DbM α) : DbM α := do
  begin_
  match ← Fallible.attempt body with
  | .ok a =>
      commit
      return a
  | .error e =>
      rollback
      throw e

section Inserts

/-- `insert_system`. -/
def insertSystem (record : SystemRecord) : DbM Unit := do
  write (.insert (.resourceIdentity ⟨record.id, record.uid.text⟩))
  write (.insert (.systemIdentity ⟨record.id, record.label⟩))
  forM record.sources (fun source =>
    write (.insert (.sourceIdentity ⟨record.id, source.authority.text, source.identifier.text⟩)))
  match record.parent with
  | none => return ()
  | some parent => write (.insert (.systemParent ⟨record.id, parent⟩))

/-- `insert_artifact`, with the checks of `artifact_from_row`. -/
def insertArtifact (artifact : NewSourceArtifact) : DbM Unit := do
  write (.insert (.sourceArtifact ⟨artifact.id, artifact.mediaType, artifact.bytes⟩))
  check (validArtifact artifact.mediaType artifact.bytes) .invalidStoredValue

/-- `insert_revision`. -/
def insertRevision (revision : SystemRevision) : DbM Unit :=
  write (.insert (.systemRevision revision))

/-- The row `insert_audit` writes. -/
def auditRow (id : AuditId) (target : Option LocalId) (revision : Option RevisionId)
    (context : AuditContext) (outcome : AuditOutcome) (operation : Operation) : ServerAudit where
  id := id
  actor := context.actor
  source := context.source
  operation := operation
  targetId := target
  revisionId := revision
  time := context.time
  outcome := outcome
  correlation := context.correlation

/-- `insert_audit`. -/
def insertAudit (id : AuditId) (target : Option LocalId) (revision : Option RevisionId)
    (context : AuditContext) (outcome : AuditOutcome) (operation : Operation) : DbM Unit :=
  write (.insert (.serverAudit (auditRow id target revision context outcome operation)))

/-- `insert_work`. -/
def insertWork (receipt : WriteReceipt) (kind : WorkKind) : DbM Unit :=
  write (.insert (.outgoingWork ⟨receipt.eventId, receipt.systemId, receipt.revisionId,
    receipt.artifactId, receipt.auditId, kind⟩))

end Inserts

section Retry

structure PreparedRetry where
  scope : RetryScope
  digest : Bytes
  retentionSeconds : Nat
deriving DecidableEq

/-- `PreparedRetry::replay`. -/
def PreparedRetry.replay (prepared : PreparedRetry)
    (authorize : WriteReceipt → Bool → Call Bool) : DbM (Option WriteReceipt) := do
  lockScope prepared.scope
  match ← query (.retry prepared.scope) with
  | none => return none
  | some row =>
      let allowed ← authorize row.receipt true
      decided (.create row.receipt true allowed)
      check allowed .denied
      decided (.intent row.receipt (row.digest == prepared.digest))
      check (row.digest == prepared.digest) .conflict
      return some row.receipt

/-- `PreparedRetry::store`. -/
def PreparedRetry.store (prepared : PreparedRetry) (receipt : WriteReceipt) : DbM Unit := do
  let recorded ← storeRetry prepared.scope prepared.digest receipt prepared.retentionSeconds
  check recorded .conflict

end Retry

section Create

namespace CreateSystem

def receipt (input : CreateSystem) : WriteReceipt :=
  ⟨input.system.id, input.revision.id, input.artifact.id, input.auditId, input.eventId⟩

/-- The checks before any statement. -/
def valid (input : CreateSystem) (retry : Option RetryKey) : Bool :=
  input.system.id == input.revision.systemId && input.artifact.id == input.revision.artifactId &&
    validArtifact input.artifact.mediaType input.artifact.bytes && validContext input.audit &&
    input.audit.actor.isSome && input.system.label.utf8ByteSize ≤ 4096 &&
    input.system.sources.length ≤ 64 &&
    retry.all (fun retry => validMetadata retry.key && retry.retentionSeconds != 0)

/-- The scope of a retry key. -/
def scope (input : CreateSystem) (actor : String) (retry : RetryKey) : RetryScope :=
  ⟨actor, input.audit.source, (input.system.parent.map (·.text)).getD "", retry.key⟩

end CreateSystem

/-- The retry that `create_system_inner` prepares before its transaction. -/
def prepareRetry (input : CreateSystem) : Option RetryKey → DbM (Option PreparedRetry)
  | none => return none
  | some retry => do
      let content ← liftExcept (retryContent input)
      match input.audit.actor with
      | none => throw .invalidInput
      | some actor =>
          let digest ← query (.sha256 content)
          return some ⟨input.scope actor retry, digest, retry.retentionSeconds⟩

/-- The rows of a fresh creation. -/
def createRows (input : CreateSystem) : DbM Unit := do
  insertSystem input.system
  insertArtifact input.artifact
  insertRevision input.revision
  insertAudit input.auditId (some input.system.id) (some input.revision.id) input.audit
    .accepted .systemCreate
  insertWork input.receipt .systemCreated
  write (.insert (.systemWriteHead ⟨input.system.id, input.revision.id, input.artifact.id⟩))

/-- A fresh creation and its retention row. -/
def createFresh (input : CreateSystem) (prepared : Option PreparedRetry) : DbM WriteReceipt := do
  createRows input
  match prepared with
  | none => return input.receipt
  | some prepared =>
      prepared.store input.receipt
      return input.receipt

/-- The transaction of `create_system_inner`. -/
def createBody (input : CreateSystem) (prepared : Option PreparedRetry)
    (authorize : WriteReceipt → Bool → Call Bool) : DbM WriteReceipt := do
  let recorded ←
    match prepared with
    | none => pure none
    | some prepared => prepared.replay authorize
  match recorded with
  | some recorded => return recorded
  | none =>
      let allowed ← authorize input.receipt false
      decided (.create input.receipt false allowed)
      check allowed .denied
      createFresh input prepared

/-- `create_system_inner`. -/
def createSystemInner (input : CreateSystem) (retry : Option RetryKey)
    (authorize : WriteReceipt → Bool → Call Bool) : DbM WriteReceipt := do
  let busy ← inTransaction
  check (!busy && input.valid retry) .invalidInput
  query .schema
  let prepared ← prepareRetry input retry
  transact (createBody input prepared authorize)

end Create

section Update

namespace UpdateSystem

def receipt (input : UpdateSystem) : WriteReceipt :=
  ⟨input.systemId, input.revision.id, input.artifact.id, input.auditId, input.eventId⟩

def valid (input : UpdateSystem) : Bool :=
  input.systemId == input.revision.systemId && input.artifact.id == input.revision.artifactId &&
    validArtifact input.artifact.mediaType input.artifact.bytes && validContext input.audit &&
    input.audit.actor.isSome && input.label.utf8ByteSize ≤ 4096

end UpdateSystem

/-- `check_revision`. -/
def checkRevision (expected : Option RevisionId) (current : RevisionId) : DbM Unit :=
  check (expected.all (fun expected => expected = current)) .preconditionFailed

/-- The rows of an update. -/
def updateRows (input : UpdateSystem) : DbM Unit := do
  insertArtifact input.artifact
  insertRevision input.revision
  write (.label input.systemId input.label)
  write (.head ⟨input.systemId, input.revision.id, input.artifact.id⟩)
  insertAudit input.auditId (some input.systemId) (some input.revision.id) input.audit
    .accepted .systemUpdate
  insertWork input.receipt .systemUpdated

/-- The transaction of `update_system_admission`. -/
def updateBody (input : UpdateSystem) (authorize : Call Bool) : DbM WriteReceipt := do
  let locked ← lockSystem input.systemId
  let allowed ← authorize
  decided (.update allowed)
  check allowed .denied
  check locked .notFound
  match ← query (.head input.systemId) with
  | none => throw .uninitializedRevision
  | some current =>
      checkRevision input.expectedRevision current
      updateRows input
      return input.receipt

/-- `update_system_admission`. -/
def updateSystemAdmission (input : UpdateSystem) (authorize : Call Bool) : DbM WriteReceipt := do
  let busy ← inTransaction
  check (!busy && input.valid) .invalidInput
  query .schema
  transact (updateBody input authorize)

end Update

section Denial

/-- The transaction of `record_denied_mutation_bounded`. -/
def denialBody (input : DeniedMutation) (maxRows : Nat) : DbM DenialStorage := do
  query (.setLocal "statement_timeout")
  query (.setLocal "lock_timeout")
  query .schema
  let acquired ← lockDenials
  if !acquired then return .busy
  else
    let count : Nat ← query (.deniedCount maxRows)
    if maxRows ≤ count then return .capacity
    else
      insertAudit input.auditId input.target none input.audit .denied input.operation
      return .retained

/-- `record_denied_mutation_bounded`. -/
def recordDeniedMutationBounded (input : DeniedMutation) (maxRows : Nat) :
    DbM DenialStorage := do
  let busy ← inTransaction
  check (!busy && validContext input.audit && 1 ≤ maxRows && maxRows ≤ 100000) .invalidInput
  transact (denialBody input maxRows)

end Denial

/-- The callbacks of callers that decide for themselves. -/
def askCreate (receipt : WriteReceipt) (replay : Bool) : Call Bool :=
  ask (.authorizeCreate receipt replay)

def askUpdate : Call Bool := ask .authorizeUpdate

end Server
end Glaux
