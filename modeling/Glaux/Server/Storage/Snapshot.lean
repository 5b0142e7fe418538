import Glaux.Library.Program
import Glaux.Server.Storage.History

/-!
# What a call was told, and when

A statement that a call has executed was carried out in some world of the run.
A weakest precondition over executed statements holds of what is left of the
call's program in every reachable world, so a call's answer can be traced to the
databases its statements met.
-/

namespace Glaux
namespace Server

open Domain Library

namespace World

variable {service : Service} (engine : Engine) (w : World service) (i : Nat)
  (request : service.Request)

/-- Call `i`, in the world `w₁` of a run to `w`, executed a statement. -/
structure Executed (w₁ : World service) (session : Session) (s : Statement) (choice : Choice)
    (done : Performed s) : Prop where
  reachable : (machine engine service).Reachable w₁
  call : ∃ next, w₁.calls[i]? = some ⟨request, session, some (.perform s next)⟩ ∧
    (machine engine service).Leads
      (w₁.after i ⟨request, session, some (.perform s next)⟩ s next done) w
  done : perform engine (w₁.others i) w₁.db w₁.now session s choice = some done

variable {engine : Engine} {w w' : World service} {i : Nat} {request : service.Request}

theorem Executed.leads {w₁ : World service} {session : Session} {s : Statement} {choice : Choice}
    {done : Performed s} (h : Executed engine w i request w₁ session s choice done) :
    (machine engine service).Leads w₁ w := by
  obtain ⟨next, hcall, hleads⟩ := h.call
  refine Machine.Leads.trans (Machine.Leads.single (e := .step i choice) ?_) hleads
  simp [machine, step, hcall, h.done]

section Rules

variable {session : Session}

end Rules

end World

end Server
end Glaux
