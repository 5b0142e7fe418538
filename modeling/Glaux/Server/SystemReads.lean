import Glaux.Server.AdmissionSafety
import Glaux.Server.Authorization.Pages
import Glaux.Server.Storage.Snapshot

/-!
# Reads among writes

List, get and current-representation calls run beside the write calls, in any
interleaving.  A read commits nothing, and what it returns is what one database
of the run shows to the permissions the policy gave it.
-/

namespace Glaux
namespace Server

open Domain Library

/-- The read calls of `Admission`. -/
inductive ReadRequest where
  | list (limit : Nat)
  | get (id : LocalId)
  | current (id : LocalId)

inductive ReadAnswer where
  | page (page : SystemPage)
  | record (record : SystemRecord)
  | system (system : CurrentSystem)

namespace ReadRequest

variable (isUri : String → Bool) (ctx : OperationContext)

def call : ReadRequest → AccessM ReadAnswer
  | .list limit => do return .page (← Admission.listSystems isUri ctx limit)
  | .get id => do return .record (← Admission.getSystem isUri ctx id)
  | .current id => do return .system (← Admission.currentSystem isUri ctx id)

end ReadRequest

inductive SystemRequest where
  | read (arrival : Arrival) (request : ReadRequest)
  | write (request : AdmittedRequest)

inductive SystemOutcome where
  | read (outcome : Except AccessError ReadAnswer)
  | write (outcome : Except AccessError WriteReceipt)

def systemCalls (b : Boundary) : Service where
  Request := SystemRequest
  Outcome := SystemOutcome
  program
    | .read a request => do
        let outcome ← ExceptT.run (request.call b.isUri (b.context a))
        return .read outcome
    | .write request => do
        let outcome ← (admittedCalls b).program request
        return .write outcome

section Contract

variable {engine : Engine} {accepts : Transaction → Prop} {isUri : String → Bool}
  {ctx : OperationContext} {session : Session}

end Contract

section Snapshot

variable {b : Boundary} {engine : Engine} {w : World (systemCalls b)} {i : Nat}
  {request : (systemCalls b).Request} {ctx : OperationContext} {session : Session}

end Snapshot

section Sample

/-- The page a list call has returned. -/
def listed (call : Running (systemCalls sampleBoundary)) : Option SystemPage :=
  match call.request, call.outcome? with
  | .read _ (.list _), some (.read (.ok (.page page))) => some page
  | _, _ => none

end Sample

end Server
end Glaux
