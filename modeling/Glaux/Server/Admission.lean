import Glaux.Server.Application

/-!
# Admission (`authorization.rs`)

The policy boundary around reads and writes.  Each method asks the policy, reads
what it needs to decide, and hands an authorization callback to the write call;
the callback asks again inside the transaction.  Counters of the denial path are
left out.
-/

namespace Glaux
namespace Server

open Domain Library

structure AccessError where
  kind : AccessKind
  correlation : String
deriving DecidableEq, Repr

/-- The serializer's string literals. -/
structure StringWriter where
  write : String → String

/-- `serde_json::to_string` of an array of strings. -/
def StringWriter.array (writer : StringWriter) (values : List String) : String :=
  "[" ++ ",".intercalate (values.map writer.write) ++ "]"

structure OperationContext where
  caller : CallerContext
  actor : Option String
  time : ExactInstant
  correlation : String

def CallerKind.text : CallerKind → String
  | .jwt => "jwt"
  | .development => "development"

namespace OperationContext

/-- `OperationContext::new`, with the correlation it has generated. -/
def new (writer : StringWriter) (caller : CallerContext) (time : ExactInstant)
    (correlation : String) : OperationContext :=
  let actor := writer.array [caller.issuer, caller.subject, caller.kind.text]
  ⟨caller, if actor.utf8ByteSize ≤ 256 then some actor else none, time, correlation⟩

def audit (ctx : OperationContext) (source : Option String) : AuditContext :=
  ⟨ctx.actor, source, ctx.correlation, ctx.time⟩

def error (ctx : OperationContext) (kind : AccessKind) : AccessError := ⟨kind, ctx.correlation⟩

end OperationContext

/-- The denial limits of an `Admission`; its policy and clock answer questions. -/
structure Admission where
  limits : DenialLimits

/-- Programs of a call that can end in an access error. -/
abbrev AccessM := Fallible statements AccessError

/-- `Admission::storage_error`. -/
def storageErrorKind : StorageError → AccessKind
  | .denied => .denied
  | .notFound => .notFound
  | .conflict | .invalidAssociation => .conflict
  | .preconditionFailed => .precondition
  | .invalidInput => .badRequest
  | _ => .unavailable

/-- `map_err(|error| Self::storage_error(ctx, error))`. -/
def storage {α : Type} (ctx : OperationContext) (x : DbM α) : AccessM α := do
  match ← Fallible.attempt x with
  | .ok a => return a
  | .error e => throw (ctx.error (storageErrorKind e))

section Reads

variable (isUri : String → Bool)

/-- `authorization_storage::system_source`. -/
def systemSource (id : LocalId) : DbM (Option String) := do
  query .schema
  query (.systemSource id)

/-- `authorization_storage::list_systems`. -/
def listSystemsStored (scope : Json) (exact : Option LocalId) (limit : Nat) :
    DbM SystemPage := do
  let busy ← inTransaction
  check (!busy && 1 ≤ limit && limit ≤ 100) .invalidInput
  query .schema
  let rows ← query (.listRows scope exact limit)
  liftExcept (readPage isUri rows)

/-- `authorization_storage::current_system`. -/
def currentSystemStored (scope : Json) (id : LocalId) : DbM (Option CurrentSystem) := do
  let busy ← inTransaction
  check (!busy) .invalidInput
  query .schema
  let rows ← query (.currentRows scope id)
  liftExcept (readCurrent isUri rows)

end Reads

namespace Admission

variable (isUri : String → Bool) (admission : Admission) (ctx : OperationContext)

/-- `Admission::permissions`. -/
def permissions (action : Action) : AccessM PermissionSet := do
  match ← ask (.permissions action) with
  | some set => return set
  | none => throw (ctx.error .unavailable)

/-- `Admission::list_systems`. -/
def listSystems (limit : Nat) : AccessM SystemPage := do
  let scope ← permissions ctx .read
  storage ctx (listSystemsStored isUri scope.scopeJson none limit)

/-- `Admission::get_system`. -/
def getSystem (id : LocalId) : AccessM SystemRecord := do
  let scope ← permissions ctx .read
  let page ← storage ctx (listSystemsStored isUri scope.scopeJson (some id) 1)
  match page.items.getLast? with
  | some record => return record
  | none => throw (ctx.error .notFound)

/-- `Admission::current_system`. -/
def currentSystem (id : LocalId) : AccessM CurrentSystem := do
  let scope ← permissions ctx .read
  match ← storage ctx (currentSystemStored isUri scope.scopeJson id) with
  | some system => return system
  | none => throw (ctx.error .notFound)

/-- `Admission::deny`: it ends in the error, whether or not a row was kept. -/
def deny {α : Type} (operation : Operation) (kind : AccessKind)
    (safeTarget : Option (LocalId × String)) : AccessM α := do
  let capacity ← ask .takeCapacity
  if !capacity then throw (ctx.error kind)
  else
    match ← ask .auditId with
    | none => throw (ctx.error kind)
    | some auditId =>
        let denial : DeniedMutation :=
          ⟨auditId, safeTarget.map (·.1), ctx.audit (safeTarget.map (·.2)), operation⟩
        let _ ← Fallible.attempt (recordDeniedMutationBounded denial admission.limits.maxRecords)
        throw (ctx.error kind)

/-- `Admission::preflight_system_create`. -/
def preflightSystemCreate (source : String) : AccessM Unit := do
  let create ← permissions ctx .create
  if !boundedText source 256 || !create.allowsSource source then
    admission.deny ctx .systemCreate .denied none
  else if ctx.actor.isNone then throw (ctx.error .unavailable)
  else return ()

/-- What `create_system_if` knows of the parent: its owner, and its own parent
with that one's owner. -/
structure ParentLink where
  id : LocalId
  owner : String
  link : Option (LocalId × String)
deriving DecidableEq

/-- The parent of a creation, resolved before its transaction. -/
def resolveParent (create read : PermissionSet) (retry : Option RetryKey) :
    Option LocalId → AccessM (Option ParentLink)
  | none => return none
  | some parent => do
      let page ← storage ctx (listSystemsStored isUri read.scopeJson (some parent) 1)
      let owner ← storage ctx (systemSource parent)
      match owner, page.items.head? with
      | some owner, some record =>
          if retry.isSome || create.allows owner parent then
            match record.parent with
            | none => return some ⟨parent, owner, none⟩
            | some link =>
                match ← storage ctx (systemSource link) with
                | some linkOwner => return some ⟨parent, owner, some (link, linkOwner)⟩
                | none => admission.deny ctx .systemCreate .denied none
          else admission.deny ctx .systemCreate .denied none
      | _, _ => admission.deny ctx .systemCreate .denied none

/-- What the callback of a creation requires of the answers it gets. -/
def createPermitted (source : String) (parent : Option ParentLink)
    (create read : PermissionSet) (receipt : WriteReceipt) (replay : Bool) : Bool :=
  create.allows source receipt.systemId &&
    (!replay || read.allows source receipt.systemId) &&
    parent.all (fun parent =>
      (replay || create.allows parent.owner parent.id) &&
        read.allows parent.owner parent.id &&
        parent.link.all (fun link => read.allows link.2 link.1))

/-- The callback of `create_system_if`. -/
def createCallback (source : String) (parent : Option ParentLink) (precondition : Bool)
    (receipt : WriteReceipt) (replay : Bool) : Call Bool := do
  let create ← ask (.permissions .create)
  let read ← ask (.permissions .read)
  match create, read with
  | some create, some read =>
      let permitted := createPermitted source parent create read receipt replay
      if permitted && !precondition then
        setCallbackError .precondition
        return false
      else return permitted
  | _, _ =>
      setCallbackError .unavailable
      return false

/-- The request as it is written. -/
def createInput (source : String) (input : CreateSystem) : CreateSystem :=
  { input with
    audit := ctx.audit (some source)
    revision := { input.revision with receiptTime := ctx.time } }

/-- The write of `create_system_if` and the error it ends in. -/
def createAdmitted (source : String) (input : CreateSystem) (retry : Option RetryKey)
    (precondition : Bool) (parent : Option ParentLink) : AccessM WriteReceipt := do
  setCallbackError .denied
  match ← Fallible.attempt (createSystemInner (createInput ctx source input) retry
      (createCallback source parent precondition)) with
  | .ok receipt => return receipt
  | .error .denied =>
      match ← callbackError with
      | .precondition => throw (ctx.error .precondition)
      | .unavailable => throw (ctx.error .unavailable)
      | _ => admission.deny ctx .systemCreate .denied none
  | .error e => throw (ctx.error (storageErrorKind e))

/-- `Admission::create_system_if`. -/
def createSystemIf (source : String) (input : CreateSystem) (retry : Option RetryKey)
    (precondition : Bool) : AccessM WriteReceipt := do
  let create ← permissions ctx .create
  let permittedScope :=
    if retry.isSome then create.allowsSource source else create.allows source input.system.id
  if !boundedText source 256 || !permittedScope then
    admission.deny ctx .systemCreate .denied none
  else if ctx.actor.isNone then throw (ctx.error .unavailable)
  else
    let read ← permissions ctx .read
    let parent ← admission.resolveParent isUri ctx create read retry input.system.parent
    admission.createAdmitted ctx source input retry precondition parent

/-- `Admission::create_system`. -/
def createSystem (source : String) (input : CreateSystem) (retry : Option RetryKey) :
    AccessM WriteReceipt :=
  admission.createSystemIf isUri ctx source input retry true

/-- The callback of `update_system`. -/
def updateCallback (id : LocalId) (source : String) (parent : Option (LocalId × String)) :
    Call Bool := do
  let read ← ask (.permissions .read)
  let update ← ask (.permissions .update)
  match read, update with
  | some read, some update =>
      if !read.allows source id || parent.any (fun parent => !read.allows parent.2 parent.1) then
        setCallbackError .notFound
        return false
      else return update.allows source id
  | _, _ =>
      setCallbackError .unavailable
      return false

/-- The request as it is written. -/
def updateInput (source : String) (input : UpdateSystem) : UpdateSystem :=
  { input with
    audit := ctx.audit (some source)
    revision := { input.revision with receiptTime := ctx.time } }

/-- The write of `update_system` and the error it ends in. -/
def updateAdmitted (source : String) (input : UpdateSystem)
    (parent : Option (LocalId × String)) : AccessM WriteReceipt := do
  setCallbackError .denied
  match ← Fallible.attempt (updateSystemAdmission (updateInput ctx source input)
      (updateCallback input.systemId source parent)) with
  | .ok receipt => return receipt
  | .error .denied =>
      match ← callbackError with
      | .unavailable => throw (ctx.error .unavailable)
      | kind =>
          admission.deny ctx .systemUpdate kind
            (if kind = .denied then some (input.systemId, source) else none)
  | .error e => throw (ctx.error (storageErrorKind e))

/-- The parent of an update, resolved before its transaction. -/
def resolveUpdateParent : Option LocalId → AccessM (Option (LocalId × String))
  | none => return none
  | some parent => do
      match ← storage ctx (systemSource parent) with
      | some owner => return some (parent, owner)
      | none => admission.deny ctx .systemUpdate .notFound none

/-- `Admission::update_system`. -/
def updateSystem (input : UpdateSystem) : AccessM WriteReceipt := do
  let read ← permissions ctx .read
  let update ← permissions ctx .update
  let page ← storage ctx (listSystemsStored isUri read.scopeJson (some input.systemId) 1)
  match page.items.head? with
  | none => admission.deny ctx .systemUpdate .notFound none
  | some record =>
      match ← storage ctx (systemSource input.systemId) with
      | none => admission.deny ctx .systemUpdate .notFound none
      | some source =>
          if !update.allows source input.systemId then
            admission.deny ctx .systemUpdate .denied (some (input.systemId, source))
          else if ctx.actor.isNone then throw (ctx.error .unavailable)
          else
            let parent ← admission.resolveUpdateParent ctx record.parent
            admission.updateAdmitted ctx source input parent

end Admission

end Server
end Glaux
