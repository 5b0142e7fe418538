import Glaux.Domain.Identity
import Glaux.Domain.Temporal

/-!
# The database (`migrations/*.sql`)

One row type for each table and the writes the server makes.  `keys` lists what
a row occupies in the unique constraints and `requires` what its foreign keys
need; both are the constraints the migrations declare.  Columns with one
permitted value (`family`, `outcome` of outgoing work, `operation` of a retry)
are left out, and so are the text checks the server repeats before writing.
-/

namespace Glaux
namespace Server

open Domain

abbrev Bytes := List UInt8

/-- Microseconds of the database clock. -/
abbrev Timestamp := Nat

structure RevisionId where
  id : LocalId
deriving DecidableEq

structure ArtifactId where
  id : LocalId
deriving DecidableEq

structure AuditId where
  id : LocalId
deriving DecidableEq

structure EventId where
  id : LocalId
deriving DecidableEq

/-- `WriteReceipt`. -/
structure WriteReceipt where
  systemId : LocalId
  revisionId : RevisionId
  artifactId : ArtifactId
  auditId : AuditId
  eventId : EventId
deriving DecidableEq

/-- The operations an audit row can name. -/
inductive Operation where
  | systemCreate | systemUpdate
deriving DecidableEq, Repr

inductive AuditOutcome where
  | accepted | denied
deriving DecidableEq, Repr

inductive WorkKind where
  | systemCreated | systemUpdated
deriving DecidableEq, Repr

/-- `audit_operation`, the generated column. -/
def WorkKind.auditOperation : WorkKind → Operation
  | .systemCreated => .systemCreate
  | .systemUpdated => .systemUpdate

structure ResourceIdentity where
  id : LocalId
  uid : String
deriving DecidableEq

structure SystemIdentity where
  id : LocalId
  label : String
deriving DecidableEq

structure SourceIdentityRow where
  resourceId : LocalId
  authority : String
  identifier : String
deriving DecidableEq

structure SystemParent where
  childId : LocalId
  parentId : LocalId
deriving DecidableEq

structure SourceArtifact where
  id : ArtifactId
  mediaType : String
  bytes : Bytes
deriving DecidableEq

structure SystemRevision where
  id : RevisionId
  systemId : LocalId
  artifactId : ArtifactId
  semanticTime : Option ExactInstant
  receiptTime : ExactInstant
deriving DecidableEq

structure ServerAudit where
  id : AuditId
  actor : Option String
  source : Option String
  operation : Operation
  targetId : Option LocalId
  revisionId : Option RevisionId
  time : ExactInstant
  outcome : AuditOutcome
  correlation : String
deriving DecidableEq

structure OutgoingWork where
  id : EventId
  systemId : LocalId
  revisionId : RevisionId
  artifactId : ArtifactId
  auditId : AuditId
  kind : WorkKind
deriving DecidableEq

structure SystemWriteHead where
  systemId : LocalId
  revisionId : RevisionId
  artifactId : ArtifactId
deriving DecidableEq

/-- `system_create_retry_scope`: a missing source is a value of its own. -/
structure RetryScope where
  actor : String
  source : Option String
  target : String
  key : String
deriving DecidableEq

structure SystemCreateRetry where
  scope : RetryScope
  digest : Bytes
  receipt : WriteReceipt
  retainedAt : Timestamp
  expiresAt : Timestamp
deriving DecidableEq

inductive Row where
  | resourceIdentity (row : ResourceIdentity)
  | systemIdentity (row : SystemIdentity)
  | sourceIdentity (row : SourceIdentityRow)
  | systemParent (row : SystemParent)
  | sourceArtifact (row : SourceArtifact)
  | systemRevision (row : SystemRevision)
  | serverAudit (row : ServerAudit)
  | outgoingWork (row : OutgoingWork)
  | systemWriteHead (row : SystemWriteHead)
  | systemCreateRetry (row : SystemCreateRetry)
deriving DecidableEq

/-- What a row occupies in a unique constraint. -/
inductive Key where
  | resource (id : LocalId)
  | uid (uid : String)
  | system (id : LocalId)
  | source (authority identifier : String)
  | parent (child : LocalId)
  | artifact (id : ArtifactId)
  | revision (id : RevisionId)
  | audit (id : AuditId)
  | work (id : EventId)
  | head (system : LocalId)
  | scope (scope : RetryScope)
deriving DecidableEq

def Row.keys : Row → List Key
  | .resourceIdentity row => [.resource row.id, .uid row.uid]
  | .systemIdentity row => [.system row.id]
  | .sourceIdentity row => [.source row.authority row.identifier]
  | .systemParent row => [.parent row.childId]
  | .sourceArtifact row => [.artifact row.id]
  | .systemRevision row => [.revision row.id]
  | .serverAudit row => [.audit row.id]
  | .outgoingWork row => [.work row.id]
  | .systemWriteHead row => [.head row.systemId]
  | .systemCreateRetry row => [.scope row.scope]

theorem keys_nodup (row : Row) : row.keys.Nodup := by
  cases row <;> simp [Row.keys]

/-- What a foreign key can refer to. -/
inductive Requirement where
  | resource (id : LocalId)
  | system (id : LocalId)
  | artifact (id : ArtifactId)
  | revision (id : RevisionId) (system : LocalId) (artifact : ArtifactId)
  | audit (id : AuditId) (system : LocalId) (revision : RevisionId) (operation : Operation)
  | work (receipt : WriteReceipt)
deriving DecidableEq

/-- What a row offers to foreign keys. -/
def Row.provides : Row → List Requirement
  | .resourceIdentity row => [.resource row.id]
  | .systemIdentity row => [.system row.id]
  | .sourceArtifact row => [.artifact row.id]
  | .systemRevision row => [.revision row.id row.systemId row.artifactId]
  | .serverAudit row =>
      match row.targetId, row.revisionId, row.outcome with
      | some target, some revision, .accepted =>
          [.audit row.id target revision row.operation]
      | _, _, _ => []
  | .outgoingWork row =>
      match row.kind with
      | .systemCreated =>
          [.work ⟨row.systemId, row.revisionId, row.artifactId, row.auditId, row.id⟩]
      | .systemUpdated => []
  | _ => []

def Row.requires : Row → List Requirement
  | .resourceIdentity _ => []
  | .systemIdentity row => [.resource row.id]
  | .sourceIdentity row => [.resource row.resourceId]
  | .systemParent row => [.system row.childId, .system row.parentId]
  | .sourceArtifact _ => []
  | .systemRevision row => [.system row.systemId, .artifact row.artifactId]
  | .serverAudit _ => []
  | .outgoingWork row =>
      [.revision row.revisionId row.systemId row.artifactId,
        .audit row.auditId row.systemId row.revisionId row.kind.auditOperation]
  | .systemWriteHead row =>
      [.system row.systemId, .revision row.revisionId row.systemId row.artifactId]
  | .systemCreateRetry row => [.work row.receipt]

/-- The writes of the server.  Rows are never deleted. -/
inductive Write where
  | insert (row : Row)
  /-- `UPDATE public.system_identity SET label` -/
  | label (id : LocalId) (label : String)
  /-- `UPDATE public.system_write_head` -/
  | head (row : SystemWriteHead)
  /-- the upsert of `PreparedRetry::store`, once its condition has held -/
  | retry (row : SystemCreateRetry)
deriving DecidableEq

abbrev Database := List Row

/-- One row under one write of an existing row. -/
def Row.rewrite (write : Write) (row : Row) : Row :=
  match write, row with
  | .label id label, .systemIdentity row =>
      if row.id = id then .systemIdentity { row with label := label }
      else .systemIdentity row
  | .head row', .systemWriteHead row =>
      if row.systemId = row'.systemId then .systemWriteHead row' else .systemWriteHead row
  | .retry row', .systemCreateRetry row =>
      if row.scope = row'.scope then .systemCreateRetry row' else .systemCreateRetry row
  | _, row => row

namespace Database

def keys (db : Database) : List Key := db.flatMap Row.keys

def meets (db : Database) (requirement : Requirement) : Bool :=
  db.any (fun row => row.provides.contains requirement)

def hasKey (db : Database) (key : Key) : Bool :=
  db.any (fun row => row.keys.contains key)

/-- The effect of one write. -/
def apply (db : Database) (write : Write) : Database :=
  match write with
  | .insert row => db ++ [row]
  | .label _ _ | .head _ => db.map (Row.rewrite write)
  | .retry row =>
      if db.hasKey (.scope row.scope) then db.map (Row.rewrite write)
      else db ++ [.systemCreateRetry row]

def applyAll (db : Database) (writes : List Write) : Database :=
  writes.foldl apply db

/-- The head row of a System, if any. -/
def head? (db : Database) (id : LocalId) : Option SystemWriteHead :=
  db.findSome? (fun row =>
    match row with
    | .systemWriteHead row => if row.systemId = id then some row else none
    | _ => none)

/-- The retention row of a scope, if any. -/
def retryRow? (db : Database) (scope : RetryScope) : Option SystemCreateRetry :=
  db.findSome? (fun row =>
    match row with
    | .systemCreateRetry row => if row.scope = scope then some row else none
    | _ => none)

end Database

end Server
end Glaux
