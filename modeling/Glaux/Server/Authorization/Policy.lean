import Glaux.Domain.Identity

/-!
# Configured access policy (`authorization.rs`, `authentication.rs`)

Grants pair one source with a resource scope.  A permission set is what a
caller's grants for one action amount to; it is only built by a policy.
-/

namespace Glaux
namespace Server

open Domain

inductive CallerKind where
  | jwt | development
deriving DecidableEq, Repr

/-- The parts of a verified caller that admission reads. -/
structure CallerContext where
  issuer : String
  subject : String
  groups : List String
  kind : CallerKind
deriving DecidableEq

inductive Action where
  | read | create | update | submitCommand | reportStatus | publish | export | administer
deriving DecidableEq, Repr

structure DenialLimits where
  maxRecords : Nat
  maxPerWindow : Nat
  windowSeconds : Nat
deriving DecidableEq

/-- `DenialLimits::validate`; `none` is `PolicyError`. -/
def DenialLimits.validate (limits : DenialLimits) : Option DenialLimits :=
  if (1 ≤ limits.maxRecords ∧ limits.maxRecords ≤ 100000) ∧
      (1 ≤ limits.maxPerWindow ∧ limits.maxPerWindow ≤ 10000) ∧
      (1 ≤ limits.windowSeconds ∧ limits.windowSeconds ≤ 86400) then
    some limits
  else none

structure GrantConfig where
  issuer : String
  subject : Option String
  group : Option String
  source : String
  actions : List Action
  resources : Option (List String)

structure PolicyConfig where
  grants : List GrantConfig
  denialAudit : DenialLimits

/-- `resources = none` is unrestricted. -/
structure ResourceGrant where
  source : String
  resources : Option (List LocalId)
deriving DecidableEq

structure PermissionSet where
  grants : List ResourceGrant
deriving DecidableEq

namespace PermissionSet

/-- `PermissionSet::allows`. -/
def allows (set : PermissionSet) (source : String) (id : LocalId) : Bool :=
  set.grants.any (fun grant =>
    grant.source == source &&
      match grant.resources with
      | none => true
      | some resources => resources.contains id)

/-- `PermissionSet::allows_source`. -/
def allowsSource (set : PermissionSet) (source : String) : Bool :=
  set.grants.any (fun grant =>
    grant.source == source &&
      match grant.resources with
      | none => true
      | some resources => !resources.isEmpty)

end PermissionSet

structure PolicyGrant where
  issuer : String
  subject : Option String
  group : Option String
  actions : List Action
  scope : ResourceGrant
deriving DecidableEq

structure ConfiguredPolicy where
  grants : List PolicyGrant
  limits : DenialLimits
deriving DecidableEq

/-- `bounded_text`. -/
def boundedText (value : String) (maximum : Nat) : Bool :=
  !value.isEmpty && value.utf8ByteSize ≤ maximum && !value.toList.any isControl

namespace ConfiguredPolicy

/-- The field checks of one grant in `ConfiguredPolicy::new`. -/
def grantAccepted (grant : GrantConfig) : Bool :=
  boundedText grant.issuer 1024 && boundedText grant.source 256 &&
    grant.subject.isSome != grant.group.isSome &&
    grant.subject.all (boundedText · 1024) && grant.group.all (boundedText · 256) &&
    !grant.actions.isEmpty && grant.actions.length ≤ 8 && decide grant.actions.Nodup

/-- The inner loop over the resource texts of one grant. -/
def parseIds : List String → List LocalId → Option (List LocalId)
  | [], ids => some ids
  | value :: values, ids =>
      match LocalId.parse value with
      | none => none
      | some id => if ids.contains id then none else parseIds values (ids ++ [id])

/-- One iteration over the configured grants; the total counts listed resources. -/
def addGrant (state : List PolicyGrant × Nat) (grant : GrantConfig) :
    Option (List PolicyGrant × Nat) :=
  if !grantAccepted grant then none
  else
    match grant.resources with
    | none =>
        some (state.1 ++ [⟨grant.issuer, grant.subject, grant.group, grant.actions,
          ⟨grant.source, none⟩⟩], state.2)
    | some values =>
        if 1024 < values.length ∨ 4096 < state.2 + values.length then none
        else
          (parseIds values []).map (fun ids =>
            (state.1 ++ [⟨grant.issuer, grant.subject, grant.group, grant.actions,
              ⟨grant.source, some ids⟩⟩], state.2 + values.length))

/-- `ConfiguredPolicy::new`; `none` is `PolicyError`. -/
def new (config : PolicyConfig) : Option ConfiguredPolicy := do
  let limits ← config.denialAudit.validate
  if 256 < config.grants.length then none
  else
    let (grants, _) ← config.grants.foldlM addGrant ([], 0)
    return ⟨grants, limits⟩

/-- Whether a grant is one of the caller's for an action. -/
def grantMatches (caller : CallerContext) (action : Action) (grant : PolicyGrant) : Bool :=
  grant.issuer == caller.issuer && grant.actions.contains action &&
    (grant.subject == some caller.subject ||
      grant.group.any (fun group => caller.groups.contains group))

/-- `AccessPolicy::permissions` of a configured policy. -/
def permissions (policy : ConfiguredPolicy) (caller : CallerContext) (action : Action) :
    PermissionSet :=
  ⟨(policy.grants.filter (grantMatches caller action)).map (·.scope)⟩

end ConfiguredPolicy

end Server
end Glaux
