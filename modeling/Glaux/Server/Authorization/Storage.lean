import Glaux.Library.Json.Value
import Glaux.Library.Relational
import Glaux.Server.Authorization.Policy
import Glaux.Server.Storage.Database
import Mathlib.Data.List.Sort
import Mathlib.Data.Prod.Lex
import Mathlib.Data.String.Basic
import Mathlib.Order.WithBot

/-!
# Authorized selection (`authorization_storage.rs`)

The queries are functions of the database, written relation by relation as the
SQL names them, and the loops over their rows follow the Rust.  The scope
crosses to the database as a JSON value; its text form is not modelled.
-/

namespace Glaux
namespace Server

open Domain Library

inductive StorageError where
  | conflict | denied | preconditionFailed | notFound | uninitializedRevision
  | invalidAssociation | invalidInput | immutable | incompatibleSchema
  | invalidStoredValue | database
deriving DecidableEq, Repr

structure SystemRecord where
  id : LocalId
  uid : Uid
  label : String
  sources : List SourceIdentity
  parent : Option LocalId
deriving DecidableEq

structure SystemPage where
  items : List SystemRecord
  numberMatched : Nat
deriving DecidableEq

structure CurrentSystem where
  id : LocalId
  uid : Uid
  label : String
  parent : Option LocalId
  mediaType : String
  bytes : Bytes
deriving DecidableEq

section Tables

def Row.resourceIdentity? : Row → Option ResourceIdentity
  | .resourceIdentity row => some row
  | _ => none

def Row.systemIdentity? : Row → Option SystemIdentity
  | .systemIdentity row => some row
  | _ => none

def Row.sourceIdentity? : Row → Option SourceIdentityRow
  | .sourceIdentity row => some row
  | _ => none

def Row.systemParent? : Row → Option SystemParent
  | .systemParent row => some row
  | _ => none

def Row.sourceArtifact? : Row → Option SourceArtifact
  | .sourceArtifact row => some row
  | _ => none

def Row.serverAudit? : Row → Option ServerAudit
  | .serverAudit row => some row
  | _ => none

def Row.outgoingWork? : Row → Option OutgoingWork
  | .outgoingWork row => some row
  | _ => none

def Row.systemWriteHead? : Row → Option SystemWriteHead
  | .systemWriteHead row => some row
  | _ => none

namespace Database

variable (db : Database)

def resourceIdentity : List ResourceIdentity := db.filterMap Row.resourceIdentity?
def systemIdentity : List SystemIdentity := db.filterMap Row.systemIdentity?
def sourceIdentity : List SourceIdentityRow := db.filterMap Row.sourceIdentity?
def systemParent : List SystemParent := db.filterMap Row.systemParent?
def sourceArtifact : List SourceArtifact := db.filterMap Row.sourceArtifact?
def serverAudit : List ServerAudit := db.filterMap Row.serverAudit?
def outgoingWork : List OutgoingWork := db.filterMap Row.outgoingWork?
def systemWriteHead : List SystemWriteHead := db.filterMap Row.systemWriteHead?

end Database

end Tables

/-- `PermissionSet::scope_json`. -/
def PermissionSet.scopeJson (set : PermissionSet) : Json :=
  .array (set.grants.map (fun grant =>
    .object [
      ("resources",
        match grant.resources with
        | none => .null
        | some resources => .array (resources.map (fun id => .string id.text))),
      ("source", .string grant.source)]))

namespace Sql

/-- One record of `jsonb_to_recordset($1) AS g(source text, resources jsonb)`;
JSON null becomes SQL null. -/
structure Grant where
  source : Option String
  resources : Option Json

def grantOf (record : Json) : Grant where
  source :=
    match record.get? "source" with
    | some (.string text) => some text
    | _ => none
  resources :=
    match record.get? "resources" with
    | some .null => none
    | value => value

def grants : Json → List Grant
  | .array records => records.map grantOf
  | _ => []

/-- `resources @> to_jsonb(ARRAY[id])`. -/
def containsText : Json → String → Bool
  | .array items, text => items.any (fun item =>
      match item with
      | .string value => value == text
      | _ => false)
  | _, _ => false

/-- `g.resources IS NULL OR g.resources='null'::jsonb OR g.resources @> …` -/
def grantCovers (grant : Grant) (source : String) (id : LocalId) : Bool :=
  grant.source == some source &&
    match grant.resources with
    | none => true
    | some .null => true
    | some resources => containsText resources id.text

variable (db : Database)

/-- The join of outgoing work and audit in the origin queries. -/
def createdRows : List (OutgoingWork × ServerAudit) :=
  db.outgoingWork.flatMap (fun w =>
    (db.serverAudit.filter (fun a =>
      a.id = w.auditId ∧ a.targetId = some w.systemId ∧
        a.revisionId = some w.revisionId ∧ a.outcome = .accepted ∧
        a.operation = w.kind.auditOperation ∧ w.kind = .systemCreated ∧
        a.operation = .systemCreate)).map (fun a => (w, a)))

/-- `origins`: the Systems with one accepted creation, and that one's source. -/
def origins : List (LocalId × String) :=
  (aloneBy (fun row => row.1.systemId) (createdRows db)).filterMap (fun (id, row) =>
    row.2.source.map (fun source => (id, source)))

/-- `system_source`. -/
def systemSource (id : LocalId) : Option String :=
  match (createdRows db).filter (fun row => row.1.systemId = id) with
  | [row] => row.2.source
  | _ => none

/-- `readable`. -/
def readable (scope : Json) : List LocalId :=
  ((origins db).filter (fun origin =>
    (grants scope).any (fun grant => grantCovers grant origin.2 origin.1))).map (·.1)

/-- `visible`; the second argument is the optional exact ID. -/
def visible (scope : Json) (exact : Option LocalId) : List LocalId :=
  (readable db scope).filter (fun id =>
    !(db.systemParent.any (fun parent =>
        parent.childId = id && !(readable db scope).contains parent.parentId)) &&
      (exact.all (fun exact => id = exact)))

/-- One result row of the list query.  Columns of a missed join are null. -/
structure ListRow where
  numberMatched : Nat
  id : Option LocalId
  uid : Option String
  label : Option String
  parent : Option LocalId
  authority : Option String
  identifier : Option String

/-- `ORDER BY selected.system_id, a.authority, a.identifier`; null sorts last. -/
def listKey (id : LocalId) (source : Option SourceIdentityRow) :
    String ×ₗ WithTop String ×ₗ WithTop String :=
  toLex (id.text, toLex (source.map (·.authority), source.map (·.identifier)))

/-- `selected`. -/
def selected (scope : Json) (exact : Option LocalId) (limit : Nat) : List LocalId :=
  (sortBy (·.text) (visible db scope exact)).take limit

/-- The query of `list_systems`. -/
def listRows (scope : Json) (exact : Option LocalId) (limit : Nat) : List ListRow :=
  let number := (visible db scope exact).length
  match selected db scope exact limit with
  | [] => [⟨number, none, none, none, none, none, none⟩]
  | ids =>
      let resources := leftJoin ids db.resourceIdentity (fun id r => r.id = id)
      let systems := leftJoin resources db.systemIdentity (fun row s => s.id = row.1)
      let parents := leftJoin systems db.systemParent (fun row p => p.childId = row.1.1)
      let aliases := leftJoin parents db.sourceIdentity (fun row a => a.resourceId = row.1.1.1)
      (sortBy (fun row => listKey row.1.1.1.1 row.2) aliases).map (fun row =>
        { numberMatched := number
          id := row.1.1.1.2.map (·.id)
          uid := row.1.1.1.2.map (·.uid)
          label := row.1.1.2.map (·.label)
          parent := row.1.2.map (·.parentId)
          authority := row.2.map (·.authority)
          identifier := row.2.map (·.identifier) })

/-- One result row of the current-representation query. -/
structure CurrentRow where
  id : LocalId
  uid : String
  label : String
  parent : Option LocalId
  mediaType : Option String
  bytes : Option Bytes

/-- The query of `current_system`. -/
def currentRows (scope : Json) (exact : LocalId) : List CurrentRow :=
  (visible db scope (some exact)).flatMap (fun id =>
    (db.resourceIdentity.filter (fun r => r.id = id)).flatMap (fun r =>
      (db.systemIdentity.filter (fun s => s.id = id)).flatMap (fun s =>
        (leftJoin [id] db.systemParent (fun id p => p.childId = id)).flatMap (fun (_, p) =>
          (leftJoin [id] db.systemWriteHead (fun id h => h.systemId = id)).flatMap
            (fun (_, h) =>
              (leftJoin [h] db.sourceArtifact
                  (fun h a => h.any (fun h => a.id = h.artifactId))).map (fun (_, a) =>
                { id := r.id
                  uid := r.uid
                  label := s.label
                  parent := p.map (·.parentId)
                  mediaType := a.map (·.mediaType)
                  bytes := a.map (·.bytes) }))))))

end Sql

/-- `try_get` of a column that must not be null. -/
def tryGet {α : Type} (column : Option α) : Except StorageError α :=
  match column with
  | some value => .ok value
  | none => .error .database

/-- A stored text read as a typed value. -/
def parseStored {α : Type} (value : Option α) : Except StorageError α :=
  match value with
  | some value => .ok value
  | none => .error .invalidStoredValue

section Read

variable (isUri : String → Bool)

/-- A new record of the row's System, when the row starts one. -/
def startRecord (items : List SystemRecord) (id : LocalId) (row : Sql.ListRow) :
    Except StorageError (List SystemRecord) :=
  if items.getLast?.any (fun record => record.id = id) then .ok items
  else do
    let uid ← parseStored (Uid.parse isUri (← tryGet row.uid))
    let label ← tryGet row.label
    return items ++ [⟨id, uid, label, [], row.parent⟩]

/-- The row's alias, added to the last record. -/
def addAlias (items : List SystemRecord) (row : Sql.ListRow) :
    Except StorageError (List SystemRecord) :=
  match row.authority with
  | none => .ok items
  | some authority => do
      let record ← parseStored items.getLast?
      let authority ← parseStored (SourceText.parse authority)
      let identifier ← parseStored (SourceText.parse (← tryGet row.identifier))
      return items.dropLast ++
        [{ record with sources := record.sources ++ [⟨authority, identifier⟩] }]

/-- One iteration of the loop of `list_systems`. -/
def foldRow (items : List SystemRecord) (row : Sql.ListRow) :
    Except StorageError (List SystemRecord) :=
  match row.id with
  | none => .ok items
  | some id => do
      let items ← startRecord isUri items id row
      addAlias items row

/-- What `list_systems` makes of the result rows. -/
def readPage (rows : List Sql.ListRow) : Except StorageError SystemPage := do
  let first ← parseStored rows.head?
  let items ← rows.foldlM (foldRow isUri) []
  return ⟨items, first.numberMatched⟩

/-- What `current_system` makes of the result row. -/
def readCurrent (rows : List Sql.CurrentRow) : Except StorageError (Option CurrentSystem) :=
  match rows.head? with
  | none => .ok none
  | some row =>
      match row.mediaType, row.bytes with
      | some mediaType, some bytes => do
          let uid ← parseStored (Uid.parse isUri row.uid)
          return some ⟨row.id, uid, row.label, row.parent, mediaType, bytes⟩
      | _, _ => .error .uninitializedRevision

end Read

end Server
end Glaux
