import Glaux.Server.Admission
import Glaux.Server.ApplicationContract

/-!
# What admission commits

The calls of `authorization.rs`, whatever the policy answers at each point: which
answers stand behind a committed write, and what is left of a refused one.
-/

namespace Glaux
namespace Server

open Domain Library

theorem Session.updateTransaction_of_closed {session : Session}
    (h : session.transaction = none) (f : Transaction → Transaction) :
    session.updateTransaction f = session := by
  obtain ⟨transaction⟩ := session
  cases h
  rfl

section Reads

variable {engine : Engine} {accepts : Transaction → Prop} {ctx : OperationContext}
  {isUri : String → Bool} {session : Session}

theorem keeps_storage {α : Type} {x : DbM α} {Q : α → Session → Prop}
    {E : StorageError → Session → Prop} {E' : AccessError → Session → Prop}
    (h : KeepsE (discipline engine accepts) x session Q E)
    (hE : ∀ e session, E e session → E' (ctx.error (storageErrorKind e)) session) :
    KeepsE (discipline engine accepts) (storage ctx x) session Q E' := by
  refine keepsE_bind.mpr (keepsE_attempt.mpr (KeepsE.mono h ?_ ?_))
  · exact fun a session hQ => keepsE_pure.mpr hQ
  · exact fun e session he => keepsE_throw.mpr (hE e session he)

/-- The session with one more reading. -/
def Session.read (session : Session) (reading : Reading) : Session :=
  { session with readings := session.readings ++ [reading] }

theorem Session.Calm.read (h : session.Calm) (reading : Reading) :
    (session.read reading).Calm := ⟨h.closed, h.committed, h.doubtful⟩

theorem Session.mem_read {reading reading' : Reading} :
    reading' ∈ (session.read reading).readings ↔
      reading' ∈ session.readings ∨ reading' = reading := by
  simp [Session.read]

theorem keeps_systemSource {id : LocalId} (hcalm : session.Calm) :
    KeepsE (discipline engine accepts) (systemSource id) session
      (fun source session' => session' = session.read (.owner id source))
      (fun _ session' => session' = session) := by
  refine keepsE_bind.mpr (keeps_query trivial (fun _ _ => ?_) (fun _ => rfl))
  exact keeps_query hcalm (fun _ _ => rfl) (fun _ => rfl)

theorem keeps_listSystemsStored {scope : Json} {exact : Option LocalId} {limit : Nat}
    (hcalm : session.Calm) :
    KeepsE (discipline engine accepts) (listSystemsStored isUri scope exact limit) session
      (fun page session' => ∃ rows, session' = session.read (.list scope exact rows) ∧
        readPage isUri rows = .ok page)
      (fun _ session' => session' = session ∨
        ∃ rows, session' = session.read (.list scope exact rows)) := by
  refine keepsE_bind.mpr (keepsE_lift.mpr (keeps_inTransaction ?_))
  refine keepsE_bind.mpr (keeps_check (fun _ => ?_) (fun _ => .inl rfl))
  refine keepsE_bind.mpr (keeps_query trivial (fun _ _ => ?_) (fun _ => .inl rfl))
  refine keepsE_bind.mpr (keeps_query hcalm (fun _ rows => ?_) (fun _ => .inl rfl))
  cases hpage : readPage isUri rows with
  | error e => exact keepsE_throw.mpr (.inr ⟨rows, rfl⟩)
  | ok page => exact keepsE_pure.mpr ⟨rows, rfl, hpage⟩

theorem keeps_admissionPermissions {action : Action} {Q : PermissionSet → Session → Prop}
    {E : AccessError → Session → Prop} (hclosed : session.transaction = none)
    (hok : ∀ set, Q set session) (herror : E (ctx.error .unavailable) session) :
    KeepsE (discipline engine accepts) (Admission.permissions ctx action) session Q E := by
  refine keepsE_bind.mpr (keepsE_lift.mpr (keeps_permissions (fun answer => ?_)))
  rw [Session.updateTransaction_of_closed hclosed]
  cases answer with
  | some set => exact keepsE_pure.mpr (hok set)
  | none => exact keepsE_throw.mpr herror

end Reads

section Endings

/-- What a denial may name: nothing, or a System with its owner. -/
abbrev Targets := Option (LocalId × String) → Prop

/-- A transaction of the denial path. -/
def Denies (ctx : OperationContext) (operation : Operation) (targets : Targets)
    (tx : Transaction) : Prop :=
  ∃ auditId target, targets target ∧ DenialCommits
    ⟨auditId, target.map (·.1), ctx.audit (target.map (·.2)), operation⟩ tx

/-- At most one transaction has been committed, or is in doubt, and that is a denial. -/
def Session.Refused (Refuses : Transaction → Prop) (session : Session) : Prop :=
  session.committed.length + session.doubtful.length ≤ 1 ∧
    (∀ tx ∈ session.committed, Refuses tx) ∧ ∀ tx ∈ session.doubtful, Refuses tx

/-- How a call with one write ends: with its receipt, or refused, or in doubt about
the write's COMMIT. -/
inductive WriteEnds (Writes : List Reading → Transaction → WriteReceipt → Prop)
    (Refuses : Transaction → Prop) : Except AccessError WriteReceipt → Session → Prop
  | accepted {session : Session} {tx : Transaction} {receipt : WriteReceipt}
      (committed : session.committed = [tx]) (doubtful : session.doubtful = [])
      (writes : Writes session.readings tx receipt) :
      WriteEnds Writes Refuses (.ok receipt) session
  | refused {session : Session} (e : AccessError) (refused : session.Refused Refuses) :
      WriteEnds Writes Refuses (.error e) session
  | inDoubt {session : Session} {tx : Transaction} {receipt : WriteReceipt} (e : AccessError)
      (doubtful : tx ∈ session.doubtful) (writes : Writes session.readings tx receipt) :
      WriteEnds Writes Refuses (.error e) session

variable {Refuses : Transaction → Prop} {Writes : List Reading → Transaction → WriteReceipt → Prop}
  {α : Type} {Done : Transaction → α → Prop} {Failed : Transaction → StorageError → Prop}
  {base session : Session}

theorem Session.Calm.refused (h : session.Calm) : session.Refused Refuses := by
  simp [Session.Refused, h.committed, h.doubtful]

theorem Finished.mono {Done' : Transaction → α → Prop} {outcome : Except StorageError α}
    (h : Finished Done Failed base outcome session) (hdone : ∀ tx a, Done tx a → Done' tx a) :
    Finished Done' Failed base outcome session := by
  cases h with
  | committed kind done => exact .committed kind (hdone _ _ done)
  | doubtful kind done e => exact .doubtful kind (hdone _ _ done) e
  | abandoned kind failed => exact .abandoned kind failed
  | broken kind failed e' => exact .broken kind failed e'
  | unbegun e => exact .unbegun e

theorem Finished.readings {outcome : Except StorageError α}
    (h : Finished Done Failed base outcome session) : session.readings = base.readings := by
  cases h <;> rfl

theorem Finished.committed_of_ok {a : α} (hcalm : base.Calm)
    (h : Finished Done Failed base (.ok a) session) :
    ∃ tx, session.committed = [tx] ∧ session.doubtful = [] ∧ Done tx a := by
  cases h with
  | @committed kind tx a done =>
      exact ⟨tx, by simp [Session.commit, Session.at, hcalm.committed],
        by simp [Session.commit, Session.at, hcalm.doubtful], done⟩

/-- An error leaves the session calm, or its write in doubt. -/
theorem Finished.of_error {e : StorageError} (hcalm : base.Calm)
    (h : Finished Done Failed base (.error e) session) :
    session.Calm ∨ session.transaction = none ∧
      ∃ tx a, tx ∈ session.doubtful ∧ Done tx a := by
  cases h with
  | @doubtful kind tx a done => exact .inr ⟨rfl, tx, a, by simp [Session.doubt], done⟩
  | abandoned => exact .inl ⟨rfl, hcalm.committed, hcalm.doubtful⟩
  | broken => exact .inl ⟨rfl, hcalm.committed, hcalm.doubtful⟩
  | unbegun => exact .inl hcalm

variable {ctx : OperationContext} {operation : Operation} {targets : Targets}

/-- What a denial leaves of the records it starts from. -/
theorem Finished.denied {auditId : AuditId} {target : Option (LocalId × String)}
    (htarget : targets target) {outcome : Except StorageError DenialStorage}
    (h : Finished (fun tx _ => DenialCommits
        ⟨auditId, target.map (·.1), ctx.audit (target.map (·.2)), operation⟩ tx)
      (fun _ _ => True) base outcome session) :
    base.doubtful ⊆ session.doubtful ∧
      (base.Calm → session.Refused (Denies ctx operation targets)) := by
  cases h with
  | @committed kind tx _ done =>
      refine ⟨List.Subset.refl _, fun hcalm => ?_⟩
      simpa [Session.Refused, Session.commit, Session.at, hcalm.committed, hcalm.doubtful]
        using ⟨auditId, target, htarget, done⟩
  | @doubtful kind tx _ done e =>
      refine ⟨List.subset_append_left _ _, fun hcalm => ?_⟩
      simpa [Session.Refused, Session.doubt, Session.at, hcalm.committed, hcalm.doubtful]
        using ⟨auditId, target, htarget, done⟩
  | abandoned =>
      exact ⟨List.Subset.refl _,
        fun hcalm => Session.Calm.refused ⟨rfl, hcalm.committed, hcalm.doubtful⟩⟩
  | broken =>
      exact ⟨List.Subset.refl _,
        fun hcalm => Session.Calm.refused ⟨rfl, hcalm.committed, hcalm.doubtful⟩⟩
  | unbegun => exact ⟨List.Subset.refl _, fun hcalm => hcalm.refused⟩

variable {engine : Engine} {accepts : Transaction → Prop} {admission : Admission}
  {kind : AccessKind} {safeTarget : Option (LocalId × String)} {β : Type}

/-- **Denial.**  It ends in its own error and adds at most one audit row. -/
theorem keeps_deny (haccepts : ∀ tx, Denies ctx operation targets tx → accepts tx)
    (htarget : targets safeTarget) (hclosed : base.transaction = none)
    {Q : β → Session → Prop} :
    KeepsE (discipline engine accepts) (admission.deny ctx operation kind safeTarget) base Q
      (fun e session => e = ctx.error kind ∧ session.readings = base.readings ∧
        base.doubtful ⊆ session.doubtful ∧
        (base.Calm → session.Refused (Denies ctx operation targets))) := by
  have hbase : base.readings = base.readings ∧ base.doubtful ⊆ base.doubtful ∧
      (base.Calm → base.Refused (Denies ctx operation targets)) :=
    ⟨rfl, List.Subset.refl _, fun hcalm => hcalm.refused⟩
  refine keepsE_bind.mpr (keepsE_lift.mpr (keeps_ask (by simp) (fun capacity => ?_)))
  cases capacity with
  | false => exact keepsE_throw.mpr ⟨rfl, hbase⟩
  | true =>
      refine keepsE_bind.mpr (keepsE_lift.mpr (keeps_ask (by simp) (fun auditId => ?_)))
      cases auditId with
      | none => exact keepsE_throw.mpr ⟨rfl, hbase⟩
      | some auditId =>
          refine keepsE_bind.mpr (keepsE_attempt.mpr (KeepsE.mono
            (keeps_recordDeniedMutationBounded admission.limits.maxRecords
              (fun tx h => haccepts tx ⟨auditId, safeTarget, htarget, h⟩) hclosed) ?_ ?_))
          · exact fun stored session h => keepsE_throw.mpr
              ⟨rfl, h.readings, (h.mono fun _ _ h => h.commits).denied htarget⟩
          · exact fun e session h => keepsE_throw.mpr
              ⟨rfl, h.readings, (h.mono fun _ _ h => h.commits).denied htarget⟩

/-- A denial before any write. -/
theorem keeps_deny_calm (haccepts : ∀ tx, Denies ctx operation targets tx → accepts tx)
    (htarget : targets safeTarget) (hcalm : base.Calm) {Q : β → Session → Prop} :
    KeepsE (discipline engine accepts) (admission.deny ctx operation kind safeTarget) base Q
      (fun e session =>
        WriteEnds Writes (Denies ctx operation targets) (.error e) session) :=
  KeepsE.mono (keeps_deny haccepts htarget hcalm.closed) (fun _ _ h => h)
    (fun e _ h => .refused e (h.2.2.2 hcalm))

/-- What is left after a write call has failed. -/
theorem WriteEnds.of_failed {e : StorageError} (e' : AccessError) (hcalm : base.Calm)
    (h : Finished (Writes base.readings) Failed base (.error e) session) :
    WriteEnds Writes Refuses (.error e') session := by
  obtain hcalm' | ⟨-, tx, receipt, hdoubtful, hwrites⟩ := h.of_error hcalm
  · exact .refused e' hcalm'.refused
  · exact .inDoubt e' hdoubtful (h.readings.symm ▸ hwrites)

/-- A denial after a write call has failed. -/
theorem keeps_deny_failed (haccepts : ∀ tx, Denies ctx operation targets tx → accepts tx)
    (htarget : targets safeTarget) {e : StorageError} (hcalm : base.Calm)
    (h : Finished (Writes base.readings) Failed base (.error e) session)
    {Q : β → Session → Prop} :
    KeepsE (discipline engine accepts) (admission.deny ctx operation kind safeTarget) session Q
      (fun e session =>
        WriteEnds Writes (Denies ctx operation targets) (.error e) session) := by
  obtain hcalm' | ⟨hclosed, tx, receipt, hdoubtful, hwrites⟩ := h.of_error hcalm
  · exact keeps_deny_calm haccepts htarget hcalm'
  · refine KeepsE.mono (keeps_deny haccepts htarget hclosed) (fun _ _ h => h) ?_
    rintro e' session' ⟨-, hreadings, hsubset, -⟩
    exact .inDoubt e' (hsubset hdoubtful) (hreadings.trans h.readings ▸ hwrites)

theorem WriteEnds.of_ok {receipt : WriteReceipt} (hcalm : base.Calm)
    (h : Finished (Writes base.readings) Failed base (.ok receipt) session) :
    WriteEnds Writes Refuses (.ok receipt) session := by
  obtain ⟨tx, hcommitted, hdoubtful, hwrites⟩ := h.committed_of_ok hcalm
  exact .accepted hcommitted hdoubtful (h.readings.symm ▸ hwrites)

end Endings

section Create

variable {engine : Engine} {accepts : Transaction → Prop} {isUri : String → Bool}
  {admission : Admission} {ctx : OperationContext} {source : String} {input : CreateSystem}
  {retry : Option RetryKey} {precondition : Bool}

/-- The answers behind a decision of `createCallback`. -/
def createRule (source : String) (parent : Option Admission.ParentLink) (precondition : Bool) :
    CreateRule := fun receipt replay asked allowed =>
  ∃ create read, asked = [(.create, create), (.read, read)] ∧
    (allowed = true → ∃ set set', create = some set ∧ read = some set' ∧
      Admission.createPermitted source parent set set' receipt replay = true ∧
      precondition = true)

theorem decides_createCallback (parent : Option Admission.ParentLink) :
    DecidesCreate engine accepts (Admission.createCallback source parent precondition)
      (createRule source parent precondition) := by
  intro receipt replay base kind tx
  refine keeps_bind.mpr (keeps_permissions (fun create => ?_))
  refine keeps_bind.mpr (keeps_permissions (fun read => ?_))
  -- both answers are kept; the decision follows
  have hsession : ∀ kind', { Session.at base kind { tx with
        decisions := tx.decisions ++ Answers.decisions [(.create, create), (.read, read)] } with
          callbackError := kind' } = base.at kind' { tx with
        decisions := tx.decisions ++ Answers.decisions [(.create, create), (.read, read)] } :=
    fun _ => rfl
  have hstart : ((base.at kind tx).updateTransaction (fun tx =>
        { tx with decisions := tx.decisions ++ [.policy .create create] })).updateTransaction
        (fun tx => { tx with decisions := tx.decisions ++ [.policy .read read] }) =
      base.at kind { tx with
        decisions := tx.decisions ++ Answers.decisions [(.create, create), (.read, read)] } := by
    simp [Session.updateTransaction, Session.at, Answers.decisions]
  rw [hstart]
  cases create with
  | none =>
      refine keeps_bind.mpr (keeps_setCallbackError ?_)
      exact keeps_pure.mpr ⟨_, _, ⟨none, read, rfl, by simp⟩, hsession _⟩
  | some create =>
      cases read with
      | none =>
          refine keeps_bind.mpr (keeps_setCallbackError ?_)
          exact keeps_pure.mpr ⟨_, _, ⟨some create, none, rfl, by simp⟩, hsession _⟩
      | some read =>
          dsimp only
          split
          · refine keeps_bind.mpr (keeps_setCallbackError ?_)
            exact keeps_pure.mpr ⟨_, _, ⟨some create, some read, rfl, by simp⟩, hsession _⟩
          case isFalse hnot =>
            refine keeps_pure.mpr ⟨_, _, ⟨some create, some read, rfl, ?_⟩, rfl⟩
            intro hpermitted
            exact ⟨create, read, rfl, rfl, hpermitted, by simpa [hpermitted] using hnot⟩

/-- What the readings of a call say of the parent of a System. -/
def Linked (isUri : String → Bool) (readings : List Reading) (id : LocalId)
    (link : Option (LocalId × String)) : Prop :=
  (∃ scope rows page record, .list scope (some id) rows ∈ readings ∧
    readPage isUri rows = .ok page ∧ page.items.head? = some record ∧
    record.parent = link.map (·.1)) ∧
  ∀ parent owner, link = some (parent, owner) → .owner parent (some owner) ∈ readings

/-- What they say of the parent a creation resolved. -/
def Resolves (isUri : String → Bool) (readings : List Reading) (parent : Option LocalId)
    (resolved : Option Admission.ParentLink) : Prop :=
  match parent with
  | none => resolved = none
  | some parent => ∃ owner link, resolved = some ⟨parent, owner, link⟩ ∧
      .owner parent (some owner) ∈ readings ∧ Linked isUri readings parent link

/-- The transactions `create_system_if` commits as its write. -/
def CreateWrites (engine : Engine) (isUri : String → Bool) (ctx : OperationContext)
    (source : String) (input : CreateSystem) (retry : Option RetryKey) (precondition : Bool)
    (readings : List Reading) (tx : Transaction) (receipt : WriteReceipt) : Prop :=
  ∃ parent, Resolves isUri readings input.system.parent parent ∧
    CreateCommits engine (createRule source parent precondition)
      (Admission.createInput ctx source input) retry tx receipt

/-- A creation's denials name nothing. -/
def createDenies (ctx : OperationContext) : Transaction → Prop :=
  Denies ctx .systemCreate (fun target => target = none)

theorem keeps_resolveParent (haccepts : ∀ tx, createDenies ctx tx → accepts tx)
    {base : Session} (hcalm : base.Calm) (create read : PermissionSet)
    (parent : Option LocalId)
    {Writes : List Reading → Transaction → WriteReceipt → Prop} :
    KeepsE (discipline engine accepts)
      (admission.resolveParent isUri ctx create read retry parent) base
      (fun resolved session => session.Calm ∧ Resolves isUri session.readings parent resolved)
      (fun e session => WriteEnds Writes (createDenies ctx) (.error e) session) := by
  have hdeny : ∀ {session : Session}, session.Calm →
      KeepsE (discipline engine accepts)
        (admission.deny ctx .systemCreate .denied none : AccessM (Option Admission.ParentLink))
        session (fun resolved session =>
          session.Calm ∧ Resolves isUri session.readings parent resolved)
        (fun e session => WriteEnds Writes (createDenies ctx) (.error e) session) :=
    fun h => keeps_deny_calm haccepts rfl h
  cases parent with
  | none => exact keepsE_pure.mpr ⟨hcalm, rfl⟩
  | some parent =>
      refine keepsE_bind.mpr (keeps_storage (KeepsE.mono
        (keeps_listSystemsStored hcalm) ?_ (fun _ _ h => h)) ?_)
      · rintro page session ⟨rows, rfl, hpage⟩
        have hcalm' := hcalm.read (.list read.scopeJson (some parent) rows)
        refine keepsE_bind.mpr (keeps_storage (KeepsE.mono
          (keeps_systemSource hcalm') ?_ (fun _ _ h => h)) ?_)
        · rintro owner session rfl
          have hcalm'' := hcalm'.read (.owner parent owner)
          cases owner with
          | none => exact hdeny hcalm''
          | some owner =>
              cases hrecord : page.items.head? with
              | none => exact hdeny hcalm''
              | some record =>
                  dsimp only
                  split
                  · cases hlink : record.parent with
                    | none =>
                        refine keepsE_pure.mpr ⟨hcalm'', owner, none, rfl, ?_, ?_, by simp⟩
                        · simp [Session.read]
                        · exact ⟨read.scopeJson, rows, page, record, by simp [Session.read],
                            hpage, hrecord, hlink⟩
                    | some link =>
                        refine keepsE_bind.mpr (keeps_storage (KeepsE.mono
                          (keeps_systemSource hcalm'') ?_ (fun _ _ h => h)) ?_)
                        · rintro linkOwner session rfl
                          have hcalm₃ := hcalm''.read (.owner link linkOwner)
                          cases linkOwner with
                          | none => exact hdeny hcalm₃
                          | some linkOwner =>
                              refine keepsE_pure.mpr
                                ⟨hcalm₃, owner, some (link, linkOwner), rfl, ?_, ?_, ?_⟩
                              · simp [Session.read]
                              · exact ⟨read.scopeJson, rows, page, record,
                                  by simp [Session.read], hpage, hrecord, hlink⟩
                              · rintro id owner' ⟨⟩
                                simp [Session.read]
                        · rintro e session rfl
                          exact .refused _ hcalm''.refused
                  · exact hdeny hcalm''
        · rintro e session rfl
          exact .refused _ hcalm'.refused
      · rintro e session (rfl | ⟨rows, rfl⟩)
        · exact .refused _ hcalm.refused
        · exact .refused _ (hcalm.read _).refused

theorem keeps_createAdmitted (haccepts : ∀ tx, createDenies ctx tx → accepts tx)
    {parent : Option Admission.ParentLink}
    (hwrites : ∀ tx receipt, CreateCommits engine (createRule source parent precondition)
      (Admission.createInput ctx source input) retry tx receipt → accepts tx)
    {base : Session} (hcalm : base.Calm)
    (hparent : Resolves isUri base.readings input.system.parent parent) :
    KeepsE (discipline engine accepts)
      (admission.createAdmitted ctx source input retry precondition parent) base
      (fun receipt session => WriteEnds
        (CreateWrites engine isUri ctx source input retry precondition) (createDenies ctx)
        (.ok receipt) session)
      (fun e session => WriteEnds
        (CreateWrites engine isUri ctx source input retry precondition) (createDenies ctx)
        (.error e) session) := by
  refine keepsE_bind.mpr (keepsE_lift.mpr (keeps_setCallbackError ?_))
  have hcalm' : Session.Calm { base with callbackError := .denied } :=
    ⟨hcalm.closed, hcalm.committed, hcalm.doubtful⟩
  have hkept : ∀ tx receipt, CreateCommits engine (createRule source parent precondition)
      (Admission.createInput ctx source input) retry tx receipt →
      CreateWrites engine isUri ctx source input retry precondition base.readings tx receipt :=
    fun tx receipt hdone => ⟨parent, hparent, hdone⟩
  refine keepsE_bind.mpr (keepsE_attempt.mpr (KeepsE.mono (keeps_createSystemInner
    (decides_createCallback parent) hwrites hcalm'.closed) ?_ ?_))
  · intro receipt session h
    exact keepsE_pure.mpr (.of_ok hcalm' (h.mono hkept))
  · intro e session h
    have h := h.mono hkept
    have hthrow : ∀ e', WriteEnds (CreateWrites engine isUri ctx source input retry precondition)
        (createDenies ctx) (.error e') session := fun e' => .of_failed e' hcalm' h
    cases e with
    | denied =>
        refine keepsE_bind.mpr (keepsE_lift.mpr (keeps_callbackError ?_))
        cases session.callbackError with
        | precondition => exact keepsE_throw.mpr (hthrow _)
        | unavailable => exact keepsE_throw.mpr (hthrow _)
        | _ => exact keeps_deny_failed haccepts rfl hcalm' h
    | _ => exact keepsE_throw.mpr (hthrow _)

/-- **Admitted creation.** -/
theorem keeps_createSystemIf
    (hdenies : ∀ tx, createDenies ctx tx → accepts tx)
    (hwrites : ∀ readings tx receipt, ctx.actor.isSome →
      CreateWrites engine isUri ctx source input retry precondition readings tx receipt →
      accepts tx) :
    KeepsE (discipline engine accepts)
      (admission.createSystemIf isUri ctx source input retry precondition) .idle
      (fun receipt session => WriteEnds
        (CreateWrites engine isUri ctx source input retry precondition) (createDenies ctx)
        (.ok receipt) session)
      (fun e session => WriteEnds
        (CreateWrites engine isUri ctx source input retry precondition) (createDenies ctx)
        (.error e) session) := by
  have hcalm := Session.calm_idle
  have hrefused : ∀ e, WriteEnds (CreateWrites engine isUri ctx source input retry precondition)
      (createDenies ctx) (.error e) Session.idle := fun e => .refused e hcalm.refused
  refine keepsE_bind.mpr (keeps_admissionPermissions hcalm.closed (fun create => ?_)
    (hrefused _))
  dsimp only
  generalize (if retry.isSome then create.allowsSource source
    else create.allows source input.system.id) = permittedScope
  split
  · exact keeps_deny_calm hdenies rfl hcalm
  · split
    · exact keepsE_throw.mpr (hrefused _)
    case isFalse hactor =>
      have hactor : ctx.actor.isSome := by simpa [Option.isSome_iff_ne_none] using hactor
      refine keepsE_bind.mpr (keeps_admissionPermissions hcalm.closed (fun read => ?_)
        (hrefused _))
      refine keepsE_bind.mpr (KeepsE.mono
        (keeps_resolveParent hdenies hcalm create read input.system.parent) ?_
        (fun _ _ h => h))
      rintro parent session ⟨hcalm', hparent⟩
      exact keeps_createAdmitted hdenies (fun tx receipt hcommits =>
        hwrites session.readings tx receipt hactor ⟨parent, hparent, hcommits⟩) hcalm' hparent

end Create

section Update

variable {engine : Engine} {accepts : Transaction → Prop} {isUri : String → Bool}
  {admission : Admission} {ctx : OperationContext} {source : String} {input : UpdateSystem}

/-- The answers behind a decision of `updateCallback`. -/
def updateRule (id : LocalId) (source : String) (parent : Option (LocalId × String)) :
    UpdateRule := fun asked allowed =>
  ∃ read update, asked = [(.read, read), (.update, update)] ∧
    (allowed = true → ∃ set set', read = some set ∧ update = some set' ∧
      set.allows source id = true ∧ set'.allows source id = true ∧
      ∀ link owner, parent = some (link, owner) → set.allows owner link = true)

theorem decides_updateCallback (id : LocalId) (parent : Option (LocalId × String)) :
    DecidesUpdate engine accepts (Admission.updateCallback id source parent)
      (updateRule id source parent) := by
  intro base kind tx
  refine keeps_bind.mpr (keeps_permissions (fun read => ?_))
  refine keeps_bind.mpr (keeps_permissions (fun update => ?_))
  have hstart : ((base.at kind tx).updateTransaction (fun tx =>
        { tx with decisions := tx.decisions ++ [.policy .read read] })).updateTransaction
        (fun tx => { tx with decisions := tx.decisions ++ [.policy .update update] }) =
      base.at kind { tx with
        decisions := tx.decisions ++ Answers.decisions [(.read, read), (.update, update)] } := by
    simp [Session.updateTransaction, Session.at, Answers.decisions]
  rw [hstart]
  cases read with
  | none =>
      refine keeps_bind.mpr (keeps_setCallbackError ?_)
      exact keeps_pure.mpr ⟨.unavailable, _, ⟨none, update, rfl, by simp⟩, rfl⟩
  | some read =>
      cases update with
      | none =>
          refine keeps_bind.mpr (keeps_setCallbackError ?_)
          exact keeps_pure.mpr ⟨.unavailable, _, ⟨some read, none, rfl, by simp⟩, rfl⟩
      | some update =>
          dsimp only
          split
          · refine keeps_bind.mpr (keeps_setCallbackError ?_)
            exact keeps_pure.mpr ⟨.notFound, _, ⟨some read, some update, rfl, by simp⟩, rfl⟩
          case isFalse hread =>
            refine keeps_pure.mpr ⟨kind, _, ⟨some read, some update, rfl, ?_⟩, rfl⟩
            intro hupdate
            obtain ⟨hsystem, hparent⟩ := by
              simpa only [Bool.or_eq_true, Bool.not_eq_true', not_or, Bool.not_eq_false,
                Bool.not_eq_true] using hread
            refine ⟨read, update, rfl, rfl, hsystem, hupdate, ?_⟩
            rintro link owner rfl
            simpa using hparent

/-- The transactions `update_system` commits as its write. -/
def UpdateWrites (isUri : String → Bool) (ctx : OperationContext) (input : UpdateSystem)
    (readings : List Reading) (tx : Transaction) (receipt : WriteReceipt) : Prop :=
  ∃ source parent, .owner input.systemId (some source) ∈ readings ∧
    Linked isUri readings input.systemId parent ∧
    UpdateCommits (updateRule input.systemId source parent)
      (Admission.updateInput ctx source input) tx receipt

/-- An update's denials name nothing, or the System and its owner. -/
def updateDenies (ctx : OperationContext) (input : UpdateSystem) : Transaction → Prop :=
  Denies ctx .systemUpdate (fun target =>
    target = none ∨ ∃ source, target = some (input.systemId, source))

theorem keeps_updateAdmitted (hdenies : ∀ tx, updateDenies ctx input tx → accepts tx)
    {parent : Option (LocalId × String)}
    (hwrites : ∀ tx receipt, UpdateCommits (updateRule input.systemId source parent)
      (Admission.updateInput ctx source input) tx receipt → accepts tx)
    {base : Session} (hcalm : base.Calm)
    (howner : .owner input.systemId (some source) ∈ base.readings)
    (hparent : Linked isUri base.readings input.systemId parent) :
    KeepsE (discipline engine accepts) (admission.updateAdmitted ctx source input parent) base
      (fun receipt session => WriteEnds (UpdateWrites isUri ctx input)
        (updateDenies ctx input) (.ok receipt) session)
      (fun e session => WriteEnds (UpdateWrites isUri ctx input)
        (updateDenies ctx input) (.error e) session) := by
  refine keepsE_bind.mpr (keepsE_lift.mpr (keeps_setCallbackError ?_))
  have hcalm' : Session.Calm { base with callbackError := .denied } :=
    ⟨hcalm.closed, hcalm.committed, hcalm.doubtful⟩
  have hkept : ∀ tx receipt, UpdateCommits (updateRule input.systemId source parent)
      (Admission.updateInput ctx source input) tx receipt →
      UpdateWrites isUri ctx input base.readings tx receipt :=
    fun tx receipt hdone => ⟨source, parent, howner, hparent, hdone⟩
  refine keepsE_bind.mpr (keepsE_attempt.mpr (KeepsE.mono (keeps_updateSystemAdmission
    (decides_updateCallback input.systemId parent) hwrites hcalm'.closed) ?_ ?_))
  · intro receipt session h
    exact keepsE_pure.mpr (.of_ok hcalm' (h.mono hkept))
  · intro e session h
    have h := h.mono hkept
    have hthrow : ∀ e', WriteEnds (UpdateWrites isUri ctx input) (updateDenies ctx input)
        (.error e') session := fun e' => .of_failed e' hcalm' h
    cases e with
    | denied =>
        refine keepsE_bind.mpr (keepsE_lift.mpr (keeps_callbackError ?_))
        cases session.callbackError with
        | unavailable => exact keepsE_throw.mpr (hthrow _)
        | denied => exact keeps_deny_failed hdenies (.inr ⟨source, rfl⟩) hcalm' h
        | _ => exact keeps_deny_failed hdenies (.inl rfl) hcalm' h
    | _ => exact keepsE_throw.mpr (hthrow _)

/-- The System's record was read before its parent is resolved. -/
theorem keeps_resolveUpdateParent (hdenies : ∀ tx, updateDenies ctx input tx → accepts tx)
    {base : Session} (hcalm : base.Calm) {parent : Option LocalId}
    (hrecord : ∃ scope rows page record, .list scope (some input.systemId) rows ∈ base.readings ∧
      readPage isUri rows = .ok page ∧ page.items.head? = some record ∧ record.parent = parent)
    {Writes : List Reading → Transaction → WriteReceipt → Prop} :
    KeepsE (discipline engine accepts) (admission.resolveUpdateParent ctx parent) base
      (fun link session => session.Calm ∧ base.readings ⊆ session.readings ∧
        Linked isUri session.readings input.systemId link)
      (fun e session => WriteEnds Writes (updateDenies ctx input) (.error e) session) := by
  obtain ⟨scope, rows, page, record, hrows, hpage, hhead, rfl⟩ := hrecord
  cases hlink : record.parent with
  | none =>
      exact keepsE_pure.mpr ⟨hcalm, List.Subset.refl _,
        ⟨scope, rows, page, record, hrows, hpage, hhead, hlink⟩, by simp⟩
  | some parent =>
      refine keepsE_bind.mpr (keeps_storage (KeepsE.mono
        (keeps_systemSource hcalm) ?_ (fun _ _ h => h)) ?_)
      · rintro owner session rfl
        have hcalm' := hcalm.read (.owner parent owner)
        cases owner with
        | none => exact keeps_deny_calm hdenies (.inl rfl) hcalm'
        | some owner =>
            refine keepsE_pure.mpr ⟨hcalm', List.subset_append_left _ _, ?_, ?_⟩
            · exact ⟨scope, rows, page, record, Session.mem_read.mpr (.inl hrows), hpage, hhead,
                hlink⟩
            · rintro id owner' ⟨⟩
              exact Session.mem_read.mpr (.inr rfl)
      · rintro e session rfl
        exact .refused _ hcalm.refused

/-- **Admitted update.** -/
theorem keeps_updateSystem (hdenies : ∀ tx, updateDenies ctx input tx → accepts tx)
    (hwrites : ∀ readings tx receipt, ctx.actor.isSome →
      UpdateWrites isUri ctx input readings tx receipt → accepts tx) :
    KeepsE (discipline engine accepts) (admission.updateSystem isUri ctx input) .idle
      (fun receipt session => WriteEnds (UpdateWrites isUri ctx input)
        (updateDenies ctx input) (.ok receipt) session)
      (fun e session => WriteEnds (UpdateWrites isUri ctx input)
        (updateDenies ctx input) (.error e) session) := by
  have hcalm := Session.calm_idle
  have hrefused : ∀ e {session : Session}, session.Calm →
      WriteEnds (UpdateWrites isUri ctx input) (updateDenies ctx input) (.error e) session :=
    fun e _ h => .refused e h.refused
  have hdeny : ∀ {α : Type} {session : Session} {Q : α → Session → Prop}, session.Calm →
      KeepsE (discipline engine accepts)
        (admission.deny ctx .systemUpdate .notFound none : AccessM α) session Q
        (fun e session => WriteEnds (UpdateWrites isUri ctx input) (updateDenies ctx input)
          (.error e) session) := fun h => keeps_deny_calm hdenies (.inl rfl) h
  refine keepsE_bind.mpr (keeps_admissionPermissions hcalm.closed (fun read => ?_)
    (hrefused _ hcalm))
  refine keepsE_bind.mpr (keeps_admissionPermissions hcalm.closed (fun update => ?_)
    (hrefused _ hcalm))
  refine keepsE_bind.mpr (keeps_storage (KeepsE.mono
    (keeps_listSystemsStored hcalm) ?_ (fun _ _ h => h)) ?_)
  · rintro page session ⟨rows, rfl, hpage⟩
    have hcalm' := hcalm.read (.list read.scopeJson (some input.systemId) rows)
    cases hrecord : page.items.head? with
    | none => exact hdeny hcalm'
    | some record =>
        refine keepsE_bind.mpr (keeps_storage (KeepsE.mono
          (keeps_systemSource hcalm') ?_ (fun _ _ h => h)) ?_)
        · rintro owner session rfl
          have hcalm'' := hcalm'.read (.owner input.systemId owner)
          cases owner with
          | none => exact hdeny hcalm''
          | some source =>
              dsimp only
              split
              · exact keeps_deny_calm hdenies (.inr ⟨source, rfl⟩) hcalm''
              · split
                · exact keepsE_throw.mpr (hrefused _ hcalm'')
                case isFalse hactor =>
                  have hactor : ctx.actor.isSome := by
                    simpa [Option.isSome_iff_ne_none] using hactor
                  refine keepsE_bind.mpr (KeepsE.mono (keeps_resolveUpdateParent hdenies
                    hcalm'' ⟨read.scopeJson, rows, page, record, by simp [Session.read],
                      hpage, hrecord, rfl⟩) ?_ (fun _ _ h => h))
                  rintro parent session ⟨hcalm₃, hsubset, hparent⟩
                  have howner : .owner input.systemId (some source) ∈ session.readings :=
                    hsubset (by simp [Session.read])
                  exact keeps_updateAdmitted hdenies (fun tx receipt hcommits =>
                    hwrites session.readings tx receipt hactor
                      ⟨source, parent, howner, hparent, hcommits⟩) hcalm₃ howner hparent
        · rintro e session rfl
          exact hrefused _ hcalm'
  · rintro e session (rfl | ⟨rows, rfl⟩)
    · exact hrefused _ hcalm
    · exact hrefused _ (hcalm.read _)

end Update

end Server
end Glaux
