import Glaux.Server.AdmittedCalls
import Glaux.Server.TrustedCalls

/-!
# Admission is safe against any policy

Any number of admitted calls on one database, under a policy that answers each
question as it likes.  A receipt is returned only if the answers inside the
committing transaction allowed it, for the owners and parents that its COMMIT
met; a refused call has written at most one denial.
-/

namespace Glaux
namespace Server

open Domain Library

/-- The answers inside a committing creation allowed it. -/
structure CreateAllowed (before : Database) (source : String) (input : CreateSystem)
    (precondition : Bool) (receipt : WriteReceipt) (replay : Bool)
    (create read : PermissionSet) : Prop where
  system : create.allows source receipt.systemId = true
  replayed : replay = true → read.allows source receipt.systemId = true
  parent : ∀ parent, input.system.parent = some parent → ∃ owner, OwnedBy before parent owner ∧
    (replay = false → create.allows owner parent = true) ∧ read.allows owner parent = true
  grandparent : ∀ parent link, input.system.parent = some parent →
    Row.systemParent ⟨parent, link⟩ ∈ before →
    ∃ owner, OwnedBy before link owner ∧ read.allows owner link = true
  precondition : precondition = true

/-- The answers inside a committing update allowed it, and the expected revision
was the head. -/
structure UpdateAllowed (before : Database) (input : UpdateSystem)
    (read update : PermissionSet) : Prop where
  system : ∃ owner, OwnedBy before input.systemId owner ∧
    read.allows owner input.systemId = true ∧ update.allows owner input.systemId = true
  parent : ∀ parent, Row.systemParent ⟨input.systemId, parent⟩ ∈ before →
    ∃ owner, OwnedBy before parent owner ∧ read.allows owner parent = true
  revision : ∀ expected, input.expectedRevision = some expected →
    ∃ head, before.head? input.systemId = some head ∧ head.revisionId = expected

/-- No COMMIT of a write has ended in an error. -/
def Session.certain (session : Session) : Prop :=
  ∀ tx ∈ session.doubtful, tx.decisions = []

/-- The only row a denial writes. -/
structure IsDenial (a : Arrival) (b : Boundary) (operation : Operation)
    (target : LocalId → String → Prop) (audit : ServerAudit) : Prop where
  outcome : audit.outcome = .denied
  operation : audit.operation = operation
  actor : audit.actor = (b.context a).actor
  correlation : audit.correlation = a.correlation
  time : audit.time = a.time
  revision : audit.revisionId = none
  target : (audit.targetId = none ∧ audit.source = none) ∨
    ∃ id source, target id source ∧ audit.targetId = some id ∧ audit.source = some source

def AdmittedRequest.operation : AdmittedRequest → Operation
  | .create .. => .systemCreate
  | .update .. => .systemUpdate

/-- What a denial of the call may name: only an update's own System. -/
def AdmittedRequest.target : AdmittedRequest → LocalId → String → Prop
  | .create .. => fun _ _ => False
  | .update _ input => fun id _ => id = input.systemId

/-- What holds of the calls in `w` when admission is safe. -/
structure AdmissionSafe (b : Boundary) (w : World (admittedCalls b)) : Prop where
  created : ∀ (i : Nat) (call : Running (admittedCalls b)) a source input retry precondition
    receipt, w.calls[i]? = some call →
    call.request = .create a source input retry precondition →
    call.outcome? = some (.ok receipt) →
    ∃ tx before clock create read replay rest, w.commitsOf i = [(tx, before, clock)] ∧
      tx.decisions = .policy .create (some create) :: .policy .read (some read) ::
        .create receipt replay true :: rest ∧
      (replay = true ↔ tx.writes = []) ∧
      CreateAllowed before source input precondition receipt replay create read
  updated : ∀ (i : Nat) (call : Running (admittedCalls b)) a input receipt,
    w.calls[i]? = some call → call.request = .update a input →
    call.outcome? = some (.ok receipt) →
    ∃ tx before clock read update, w.commitsOf i = [(tx, before, clock)] ∧
      tx.decisions = [.policy .read (some read), .policy .update (some update), .update true] ∧
      UpdateAllowed before input read update
  refused : ∀ (i : Nat) (call : Running (admittedCalls b)) (request : AdmittedRequest) e,
    w.calls[i]? = some call → call.request = request → call.outcome? = some (.error e) →
    call.session.certain →
    (w.commitsOf i).length ≤ 1 ∧ ∀ tx before clock, (tx, before, clock) ∈ w.commitsOf i →
      tx.writes = [] ∨ ∃ audit, tx.writes = [.insert (.serverAudit audit)] ∧
        IsDenial request.arrival b request.operation request.target audit

section Allowed

variable {engine : Engine} {isUri : String → Bool} {ctx : OperationContext} {db : Database}
  {readings : List Reading}

/-- The permission check of a creation, for the owners and parents of the database. -/
theorem createAllowed_of_permitted {source : String} {input : CreateSystem}
    {precondition : Bool} {receipt : WriteReceipt} {replay : Bool} {create read : PermissionSet}
    {parent : Option Admission.ParentLink}
    (hresolves : Resolves isUri readings input.system.parent parent)
    (hholds : ∀ reading ∈ readings, reading.Holds db)
    (hpermitted : Admission.createPermitted source parent create read receipt replay = true)
    (hprecondition : precondition = true) :
    CreateAllowed db source input precondition receipt replay create read := by
  simp only [Admission.createPermitted, Bool.and_eq_true] at hpermitted
  obtain ⟨⟨hsystem, hreplay⟩, hparent⟩ := hpermitted
  have hresolved : ∀ id, input.system.parent = some id → ∃ owner link,
      parent = some ⟨id, owner, link⟩ ∧ OwnedBy db id owner ∧ Linked isUri readings id link := by
    intro id hid
    rw [hid] at hresolves
    obtain ⟨owner, link, rfl, howner, hlinked⟩ := hresolves
    exact ⟨owner, link, rfl, hholds _ howner owner rfl, hlinked⟩
  exact {
    system := hsystem
    replayed := fun h => by simpa [h] using hreplay
    parent := fun id hid => by
      obtain ⟨owner, link, rfl, howner, -⟩ := hresolved id hid
      simp only [Option.all_some, Bool.and_eq_true] at hparent
      exact ⟨owner, howner, fun h => by simpa [h] using hparent.1.1, hparent.1.2⟩
    grandparent := fun id grandparent hid hedge => by
      obtain ⟨owner, link, rfl, -, hlinked⟩ := hresolved id hid
      obtain ⟨linkOwner, rfl, hlinkOwner⟩ := hlinked.holds hholds hedge
      simp only [Option.all_some, Bool.and_eq_true] at hparent
      exact ⟨linkOwner, hlinkOwner, hparent.2⟩
    precondition := hprecondition }

/-- What the policy answered inside a committed creation. -/
theorem CreateWrites.allowed {source : String} {input : CreateSystem}
    {retry : Option RetryKey} {precondition : Bool} {tx : Transaction} {receipt : WriteReceipt}
    (h : CreateWrites engine isUri ctx source input retry precondition readings tx receipt)
    (hholds : ∀ reading ∈ readings, reading.Holds db) :
    ∃ create read replay rest, tx.decisions = .policy .create (some create) ::
        .policy .read (some read) :: .create receipt replay true :: rest ∧
      (replay = true ↔ tx.writes = []) ∧
      CreateAllowed db source input precondition receipt replay create read := by
  obtain ⟨parent, hresolves, prepared, -, hdone⟩ := h
  have hrule : ∀ {receipt replay asked}, createRule source parent precondition receipt replay
      asked true → ∃ create read, asked.decisions =
        [.policy .create (some create), .policy .read (some read)] ∧
        CreateAllowed db source input precondition receipt replay create read := by
    rintro receipt replay asked ⟨_, _, rfl, hallowed⟩
    obtain ⟨create, read, rfl, rfl, hpermitted, hprecondition⟩ := hallowed rfl
    exact ⟨create, read, rfl,
      createAllowed_of_permitted hresolves hholds hpermitted hprecondition⟩
  cases hdone with
  | replayed h =>
      obtain ⟨asked, hasked, hdecisions⟩ := h.decisions
      obtain ⟨create, read, hanswers, hallowed⟩ := hrule hasked
      exact ⟨create, read, true, [.intent receipt true], by simp [hdecisions, hanswers],
        by simp [h.writes], hallowed⟩
  | created h =>
      obtain ⟨asked, hasked, hdecisions⟩ := h.decisions
      obtain ⟨create, read, hanswers, hallowed⟩ := hrule hasked
      obtain ⟨now, hwrites⟩ := h.writes
      exact ⟨create, read, false, [], by simp [hdecisions, hanswers],
        by simp [hwrites, CreateSystem.writes], hallowed⟩

/-- What the policy answered inside a committed update. -/
theorem UpdateWrites.allowed {input : UpdateSystem} {tx : Transaction} {receipt : WriteReceipt}
    {clock : Timestamp} (h : UpdateWrites isUri ctx input readings tx receipt)
    (hholds : ∀ reading ∈ readings, reading.Holds db) (hsound : tx.Sound db clock) :
    ∃ read update, tx.decisions =
        [.policy .read (some read), .policy .update (some update), .update true] ∧
      UpdateAllowed db input read update := by
  obtain ⟨source, parent, howner, hlinked, hcommits⟩ := h
  obtain ⟨asked, ⟨_, _, rfl, hallowed⟩, hdecisions⟩ := hcommits.decisions
  obtain ⟨read, update, rfl, rfl, hread, hupdate, hparent⟩ := hallowed rfl
  refine ⟨read, update, by simp [hdecisions, Answers.decisions], ?_⟩
  exact {
    system := ⟨source, hholds _ howner source rfl, hread, hupdate⟩
    parent := fun id hedge => by
      obtain ⟨owner, rfl, howned⟩ := hlinked.holds hholds hedge
      exact ⟨owner, howned, hparent id owner rfl⟩
    revision := fun expected hexpected => by
      obtain ⟨current, hhead, hmatches⟩ := hcommits.head
      obtain ⟨head, hfound, hrevision⟩ := hsound.head _ current hcommits.locked hhead
      exact ⟨head, hfound, hrevision.trans (hmatches expected hexpected).symm⟩ }

end Allowed

section Refused

variable {b : Boundary} {engine : Engine}

theorem CreateWrites.decided {isUri : String → Bool} {ctx : OperationContext} {source : String}
    {input : CreateSystem} {retry : Option RetryKey} {precondition : Bool}
    {readings : List Reading} {tx : Transaction} {receipt : WriteReceipt}
    (h : CreateWrites engine isUri ctx source input retry precondition readings tx receipt) :
    tx.decisions ≠ [] := by
  obtain ⟨parent, -, prepared, -, hdone⟩ := h
  cases hdone with
  | replayed h => obtain ⟨asked, -, hdecisions⟩ := h.decisions; simp [hdecisions]
  | created h => obtain ⟨asked, -, hdecisions⟩ := h.decisions; simp [hdecisions]

/-- Every write was decided in its transaction. -/
theorem AdmittedRequest.decided {request : AdmittedRequest} {readings : List Reading}
    {tx : Transaction} {receipt : WriteReceipt} (h : request.writes b engine readings tx receipt) :
    tx.decisions ≠ [] := by
  cases request with
  | create a source input retry precondition => exact CreateWrites.decided h
  | update a input =>
      obtain ⟨source, parent, -, -, hcommits⟩ := h
      obtain ⟨asked, -, hdecisions⟩ := hcommits.decisions
      simp [hdecisions]

theorem Denies.audit {a : Arrival} {operation : Operation} {targets : Targets}
    {target : LocalId → String → Prop} {tx : Transaction}
    (htargets : ∀ found, targets found → found = none ∨
      ∃ id source, target id source ∧ found = some (id, source))
    (h : Denies (b.context a) operation targets tx) :
    tx.writes = [] ∨ ∃ audit, tx.writes = [.insert (.serverAudit audit)] ∧
      IsDenial a b operation target audit := by
  obtain ⟨auditId, found, hfound, hcommits⟩ := h
  obtain hnone | hwrites := hcommits.writes
  · exact .inl hnone
  · refine .inr ⟨_, hwrites, rfl, rfl, rfl, rfl, rfl, rfl, ?_⟩
    obtain rfl | ⟨id, source, htarget, rfl⟩ := htargets found hfound
    · exact .inl ⟨rfl, rfl⟩
    · exact .inr ⟨id, source, htarget, rfl, rfl⟩

theorem AdmittedRequest.denies_audit {request : AdmittedRequest} {tx : Transaction}
    (h : request.denies b tx) :
    tx.writes = [] ∨ ∃ audit, tx.writes = [.insert (.serverAudit audit)] ∧
      IsDenial request.arrival b request.operation request.target audit := by
  cases request with
  | create a source input retry precondition =>
      exact Denies.audit (fun found hfound => .inl hfound) h
  | update a input =>
      refine Denies.audit (fun found hfound => ?_) h
      obtain rfl | ⟨source, rfl⟩ := hfound
      · exact .inl rfl
      · exact .inr ⟨input.systemId, source, rfl, rfl⟩

end Refused

section Main

variable {b : Boundary} {engine : Engine} {w : World (admittedCalls b)}

/-- The one commit of a call that returned a receipt. -/
theorem accepted_commit (h : (World.machine engine (admittedCalls b)).Reachable w) {i : Nat}
    {call : Running (admittedCalls b)} {receipt : WriteReceipt} (hcall : w.calls[i]? = some call)
    (houtcome : call.outcome? = some (.ok receipt)) :
    ∃ tx before clock, w.commitsOf i = [(tx, before, clock)] ∧ tx.Sound before clock ∧
      (∀ reading ∈ call.session.readings, reading.Holds before) ∧
      AdmittedRequest.writes b engine call.request call.session.readings tx receipt := by
  have hinv := World.inv_of_reachable (admittedContract b engine) h
  have htold := World.told_of_reachable (admittedContract b engine) h hcall
  have hends : WriteEnds (AdmittedRequest.writes b engine call.request)
      (AdmittedRequest.denies b call.request) (.ok receipt) call.session :=
    hinv.ended hcall houtcome
  cases hends with
  | @accepted _ tx _ committed doubtful writes =>
      obtain ⟨before, clock, hmem⟩ := hinv.acknowledged i call hcall tx (by simp [committed])
      have hmem' := World.mem_commitsOf.mpr hmem
      have hlength := htold.counted
      rw [committed, doubtful] at hlength
      have honly : w.commitsOf i = [(tx, before, clock)] := by
        match hcommits : w.commitsOf i, hmem', hlength with
        | [only], hmem', _ => rw [List.mem_singleton.mp hmem']
        | _ :: _ :: _, _, hlength => simp at hlength
      obtain ⟨hsound, -⟩ := World.met_of_reachable (admittedContract b engine) h i tx before
        clock hmem
      exact ⟨tx, before, clock, honly, hsound, htold.committed tx before clock hmem', writes⟩

/-- **Admission safety.** -/
theorem admission_safe (h : (World.machine engine (admittedCalls b)).Reachable w) :
    AdmissionSafe b w where
  created := fun i call a source input retry precondition receipt hcall hrequest houtcome => by
    obtain ⟨tx, before, clock, honly, -, hholds, hwrites⟩ := accepted_commit h hcall houtcome
    rw [hrequest] at hwrites
    obtain ⟨create, read, replay, rest, hallowed⟩ := CreateWrites.allowed hwrites hholds
    exact ⟨tx, before, clock, create, read, replay, rest, honly, hallowed⟩
  updated := fun i call a input receipt hcall hrequest houtcome => by
    obtain ⟨tx, before, clock, honly, hsound, hholds, hwrites⟩ := accepted_commit h hcall houtcome
    rw [hrequest] at hwrites
    obtain ⟨read, update, hdecisions, hallowed⟩ := UpdateWrites.allowed hwrites hholds hsound
    exact ⟨tx, before, clock, read, update, honly, hdecisions, hallowed⟩
  refused := fun i call request e hcall hrequest houtcome hcertain => by
    have hinv := World.inv_of_reachable (admittedContract b engine) h
    have htold := World.told_of_reachable (admittedContract b engine) h hcall
    have hends : WriteEnds (AdmittedRequest.writes b engine call.request)
        (AdmittedRequest.denies b call.request) (.error e) call.session :=
      hinv.ended hcall houtcome
    rw [hrequest] at hends
    generalize hsession : call.session = session at hends
    cases hends with
    | refused _ refused =>
        obtain ⟨hlength, hcommitted, hdoubtful⟩ := refused
        refine ⟨htold.counted.trans (hsession ▸ hlength), ?_⟩
        intro tx before clock hmem
        obtain ⟨call', hcall', -, hrecorded⟩ :=
          hinv.carriedOut i tx before clock (World.mem_commitsOf.mp hmem)
        obtain rfl := Option.some.inj (hcall.symm.trans hcall')
        rw [hsession] at hrecorded
        exact AdmittedRequest.denies_audit (hrecorded.elim (hcommitted tx) (hdoubtful tx))
    | @inDoubt _ tx _ _ doubtful writes =>
        exact absurd (hcertain tx (hsession ▸ doubtful)) (AdmittedRequest.decided writes)

def samplePermissions : PermissionSet := ⟨[⟨"north", none⟩]⟩

/-- A permitted creation without a key, up to its COMMIT. -/
def sampleAdmitted (id : LocalId) (i : Nat) : List (Event (admittedCalls sampleBoundary)) :=
  [.start (AdmittedRequest.create sampleArrival "north" (sampleCreate id "urn:system" none) none
      true),
    .step i (.policy (some samplePermissions)), .step i (.policy (some samplePermissions))] ++
  runs i 4 ++
  [.step i (.policy (some samplePermissions)), .step i (.policy (some samplePermissions))] ++
  runs i 8

/-- A creation, and one that a policy without grants refuses. -/
def sampleRefusal : List (Event (admittedCalls sampleBoundary)) :=
  sampleAdmitted sampleParent 0 ++ runs 0 1 ++
  [.start (AdmittedRequest.create sampleArrival "north" (sampleCreate sampleChild "urn:other" none)
      none true),
    .step 1 (.policy (some ⟨[]⟩)), .step 1 (.allow true),
    .step 1 (.auditId (some ⟨sampleChild⟩))] ++ runs 1 9

theorem admission_safe_refusal : ∃ w : World (admittedCalls sampleBoundary),
    (World.machine ⟨fun _ => [], fun _ => 0⟩ (admittedCalls sampleBoundary)).runEvents
      (World.empty (admittedCalls sampleBoundary)) sampleRefusal = some w ∧
    w.calls.map (fun call => call.outcome?.map Except.isOk) = [some true, some false] ∧
    w.db.length = 8 ∧ AdmissionSafe sampleBoundary w := by
  have hrun : ((World.machine ⟨fun _ => [], fun _ => 0⟩ (admittedCalls sampleBoundary)).runEvents
      (World.empty (admittedCalls sampleBoundary)) sampleRefusal).map (fun w =>
        (w.calls.map (fun call => call.outcome?.map Except.isOk), w.db.length)) =
      some ([some true, some false], 8) := by decide +kernel
  obtain ⟨w, hw, hends⟩ := Option.map_eq_some_iff.mp hrun
  obtain ⟨houtcomes, hlength⟩ := Prod.mk.inj hends
  exact ⟨w, hw, houtcomes, hlength, admission_safe
    (Machine.reachable_of_runEvents (World.start_empty (admittedCalls sampleBoundary)) hw)⟩

/-- The COMMIT of a permitted creation is carried out and its reply is lost: the
call ends in an error, and the System is there. -/
theorem refused_after_lost_commit : ∃ w : World (admittedCalls sampleBoundary),
    (World.machine ⟨fun _ => [], fun _ => 0⟩ (admittedCalls sampleBoundary)).runEvents
      (World.empty (admittedCalls sampleBoundary))
      (sampleAdmitted sampleParent 0 ++ [.step 0 .lost]) = some w ∧
    w.calls.map (fun call => call.outcome?.map Except.isOk) = [some false] ∧
    Row.resourceIdentity ⟨sampleParent, "urn:system"⟩ ∈ w.db := by
  have hrun : ((World.machine ⟨fun _ => [], fun _ => 0⟩ (admittedCalls sampleBoundary)).runEvents
      (World.empty (admittedCalls sampleBoundary))
      (sampleAdmitted sampleParent 0 ++ [.step 0 .lost])).map (fun w =>
        (w.calls.map (fun call => call.outcome?.map Except.isOk),
          decide (Row.resourceIdentity ⟨sampleParent, "urn:system"⟩ ∈ w.db))) =
      some ([some false], true) := by decide +kernel
  obtain ⟨w, hw, hends⟩ := Option.map_eq_some_iff.mp hrun
  obtain ⟨houtcomes, hmem⟩ := Prod.mk.inj hends
  exact ⟨w, hw, houtcomes, of_decide_eq_true hmem⟩

end Main

end Server
end Glaux
