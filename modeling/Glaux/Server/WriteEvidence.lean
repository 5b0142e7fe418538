import Glaux.Server.KeyedCreation
import Glaux.Server.Storage.Readings

/-!
# Write evidence

From the empty database on, every committed write call that is not a replay
leaves one artifact, one revision, one accepted audit row and one work row, and
nothing else leaves any.  The four tables are therefore the images of one list,
and their rows match one to one.
-/

namespace Glaux
namespace Server

open Domain Library

section Tables

def Row.systemRevision? : Row → Option SystemRevision
  | .systemRevision row => some row
  | _ => none

namespace Database

variable (db : Database) (id : LocalId)

def systemRevision : List SystemRevision := db.filterMap Row.systemRevision?

/-- The rows of one System. -/
def revisionsOf : List SystemRevision :=
  db.systemRevision.filter (fun revision => revision.systemId = id)

def acceptedOf : List ServerAudit :=
  db.serverAudit.filter (fun audit => audit.targetId = some id ∧ audit.outcome = .accepted)

def worksOf : List OutgoingWork := db.outgoingWork.filter (fun work => work.systemId = id)

end Database

end Tables

/-- What a write call leaves for good. -/
structure Evidence where
  resource : Option ResourceIdentity
  artifact : SourceArtifact
  revision : SystemRevision
  audit : ServerAudit
  work : OutgoingWork

namespace TrustedRequest

def receipt : TrustedRequest → WriteReceipt
  | .create input _ => input.receipt
  | .update input => input.receipt

def evidence : TrustedRequest → Evidence
  | .create input _ =>
      { resource := some ⟨input.system.id, input.system.uid.text⟩
        artifact := ⟨input.artifact.id, input.artifact.mediaType, input.artifact.bytes⟩
        revision := input.revision
        audit := auditRow input.auditId (some input.system.id) (some input.revision.id)
          input.audit .accepted .systemCreate
        work := ⟨input.eventId, input.system.id, input.revision.id, input.artifact.id,
          input.auditId, .systemCreated⟩ }
  | .update input =>
      { resource := none
        artifact := ⟨input.artifact.id, input.artifact.mediaType, input.artifact.bytes⟩
        revision := input.revision
        audit := auditRow input.auditId (some input.systemId) (some input.revision.id)
          input.audit .accepted .systemUpdate
        work := ⟨input.eventId, input.systemId, input.revision.id, input.artifact.id,
          input.auditId, .systemUpdated⟩ }

end TrustedRequest

/-- The transaction gives back a stored receipt. -/
def Transaction.replays (tx : Transaction) : Prop :=
  ∃ clock row, tx.looked = some (clock, some row)

/-- The rows of one piece of evidence name each other. -/
structure Evidence.Bound (e : Evidence) : Prop where
  revision : e.revision.id = e.work.revisionId
  system : e.revision.systemId = e.work.systemId
  revisionArtifact : e.revision.artifactId = e.work.artifactId
  artifact : e.artifact.id = e.work.artifactId
  audit : e.audit.id = e.work.auditId
  target : e.audit.targetId = some e.work.systemId
  auditRevision : e.audit.revisionId = some e.work.revisionId
  accepted : e.audit.outcome = .accepted
  operation : e.audit.operation = e.work.kind.auditOperation
  resource : ∀ r, e.resource = some r → r.id = e.work.systemId
  created : e.work.kind = .systemCreated ↔ e.resource.isSome

section Commits

variable {engine : Engine} {request : TrustedRequest} {tx : Transaction}

/-- What an accepted transaction inserts into the tables of evidence. -/
structure Leaves (request : TrustedRequest) (tx : Transaction) : Prop where
  resource : tx.writes.filterMap (Write.inserted Row.resourceIdentity?) =
    request.evidence.resource.toList
  artifact : tx.writes.filterMap (Write.inserted Row.sourceArtifact?) =
    [request.evidence.artifact]
  revision : tx.writes.filterMap (Write.inserted Row.systemRevision?) =
    [request.evidence.revision]
  audit : tx.writes.filterMap (Write.inserted Row.serverAudit?) = [request.evidence.audit]
  work : tx.writes.filterMap (Write.inserted Row.outgoingWork?) = [request.evidence.work]

/-- The alias rows of a System are in none of these tables. -/
theorem filterMap_systemWrites {τ : Type} {table : Row → Option τ}
    (hsystem : ∀ row, table (.systemIdentity row) = none)
    (hsource : ∀ row, table (.sourceIdentity row) = none)
    (hparent : ∀ row, table (.systemParent row) = none) (record : SystemRecord) :
    (systemWrites record).filterMap (Write.inserted table) =
      (table (.resourceIdentity ⟨record.id, record.uid.text⟩)).toList := by
  have hsources : (record.sources.map (fun source => Write.insert (.sourceIdentity
      ⟨record.id, source.authority.text, source.identifier.text⟩))).filterMap
        (Write.inserted table) = [] := by
    simp [List.filterMap_map, Function.comp_def, Write.inserted, hsource]
  have hparents : (record.parent.toList.map (fun parent => Write.insert (.systemParent
      ⟨record.id, parent⟩))).filterMap (Write.inserted table) = [] := by
    simp [List.filterMap_map, Function.comp_def, Write.inserted, hparent]
  simp only [systemWrites, List.filterMap_append, hsources, hparents, List.append_nil]
  cases hresource : table (.resourceIdentity ⟨record.id, record.uid.text⟩) <;>
    simp [Write.inserted, hresource, hsystem]

theorem leaves_create {input : CreateSystem} {retry : Option RetryKey} {stored : List Write}
    (hstored : ∀ w ∈ stored, ∃ row, w = .retry row)
    (hwrites : tx.writes = input.writes ++ stored) : Leaves (.create input retry) tx := by
  have hnone : ∀ {τ : Type} (table : Row → Option τ),
      stored.filterMap (Write.inserted table) = [] := by
    intro τ table
    refine List.filterMap_eq_nil_iff.mpr (fun w hw => ?_)
    obtain ⟨row, rfl⟩ := hstored w hw
    rfl
  have hrows : ∀ {τ : Type} {table : Row → Option τ}, (∀ row, table (.systemIdentity row) = none) →
      (∀ row, table (.sourceIdentity row) = none) → (∀ row, table (.systemParent row) = none) →
      tx.writes.filterMap (Write.inserted table) =
        (table (.resourceIdentity ⟨input.system.id, input.system.uid.text⟩)).toList ++
          (input.writes.drop (systemWrites input.system).length).filterMap
            (Write.inserted table) := by
    intro τ table hsystem hsource hparent
    rw [hwrites, CreateSystem.writes, List.drop_left, List.filterMap_append,
      List.filterMap_append, filterMap_systemWrites hsystem hsource hparent, hnone,
      List.append_nil]
  have hlater : input.writes.drop (systemWrites input.system).length = _ := List.drop_left
  constructor <;>
    rw [hrows (fun _ => rfl) (fun _ => rfl) (fun _ => rfl), hlater] <;> rfl

theorem leaves_update {input : UpdateSystem} (hwrites : tx.writes = input.writes) :
    Leaves (.update input) tx := by
  constructor <;> rw [hwrites] <;> rfl

/-- An accepted transaction replays and writes nothing, or leaves its evidence. -/
theorem accepted_leaves (h : (trustedContract engine).accepts request tx) :
    (tx.replays ∧ tx.writes = []) ∨ (¬ tx.replays ∧ tx.writes ≠ [] ∧ Leaves request tx) := by
  cases request with
  | create input retry =>
      obtain ⟨receipt, prepared, -, hdone⟩ := h
      cases hdone with
      | replayed h =>
          obtain ⟨clock, row, hlooked, -⟩ := h.found
          exact .inl ⟨⟨clock, row, hlooked⟩, h.writes⟩
      | created h =>
          obtain ⟨now, hwrites⟩ := h.writes
          refine .inr ⟨?_, by simp [hwrites, CreateSystem.writes], leaves_create ?_ hwrites⟩
          · rintro ⟨clock, row, hlooked⟩
            exact h.unfound clock row hlooked
          · intro w hw
            obtain ⟨p, -, rfl⟩ := List.mem_map.mp hw
            exact ⟨_, rfl⟩
  | update input =>
      obtain ⟨receipt, hcommits⟩ := h
      refine .inr ⟨?_, by simp [hcommits.writes, UpdateSystem.writes],
        leaves_update hcommits.writes⟩
      rintro ⟨clock, row, hlooked⟩
      rw [hcommits.unlooked] at hlooked
      cases hlooked

theorem mem_of_inserted {τ : Type} {table : Row → Option τ} {wrap : τ → Row} {t : τ}
    (htable : ∀ row, table row = some t ↔ row = wrap t) {writes : List Write}
    (h : t ∈ writes.filterMap (Write.inserted table)) : Write.insert (wrap t) ∈ writes := by
  obtain ⟨w, hw, hinserted⟩ := List.mem_filterMap.mp h
  cases w with
  | insert row => exact (htable row).mp hinserted ▸ hw
  | _ => cases hinserted

/-- Foreign keys bind the rows of a commit to each other. -/
theorem Leaves.bound {before : Database} {clock : Timestamp} (h : Leaves request tx)
    (hsound : tx.Sound before clock) (hunique : before.Unique) : request.evidence.Bound := by
  have hwork : Write.insert (.outgoingWork request.evidence.work) ∈ tx.writes :=
    mem_of_inserted (fun row => by cases row <;> simp [Row.outgoingWork?])
      (h.work ▸ List.mem_singleton_self _)
  have hrevision : Write.insert (.systemRevision request.evidence.revision) ∈ tx.writes :=
    mem_of_inserted (fun row => by cases row <;> simp [Row.systemRevision?])
      (h.revision ▸ List.mem_singleton_self _)
  -- the revision the work row needs is the one that is inserted with it
  have hmet := hsound.met _ hwork
    (.revision request.evidence.work.revisionId request.evidence.work.systemId
      request.evidence.work.artifactId) (by simp [Write.requires, Row.requires])
  obtain ⟨row, hrow, hprovides⟩ := Database.meets_iff.mp hmet
  obtain ⟨revision, rfl, hid, hsystem, hartifact⟩ := provides_revision.mp hprovides
  have hafter : Row.systemRevision request.evidence.revision ∈ before.applyAll tx.writes :=
    (Database.mem_applyAll_of_stable rfl).mpr (.inr hrevision)
  have hsame : request.evidence.revision.id = request.evidence.work.revisionId := by
    cases request <;> rfl
  have heq : Row.systemRevision revision = Row.systemRevision request.evidence.revision :=
    (hsound.unique hunique).eq_of_key (.revision request.evidence.work.revisionId) hrow hafter
      (by simp [Row.keys, hid]) (by simp [Row.keys, hsame])
  obtain rfl := Row.systemRevision.inj heq
  exact {
    revision := hsame
    system := hsystem
    revisionArtifact := hartifact
    artifact := by cases request <;> rfl
    audit := by cases request <;> rfl
    target := by cases request <;> rfl
    auditRevision := by cases request <;> rfl
    accepted := by cases request <;> rfl
    operation := by cases request <;> rfl
    resource := by cases request <;> simp [TrustedRequest.evidence]
    created := by cases request <;> simp [TrustedRequest.evidence] }

end Commits

namespace Happening

/-- What a commit writes. -/
def writes : Happening → List Write
  | .committed _ tx _ _ => tx.writes
  | .headRead .. => []

end Happening

namespace World

variable {engine : Engine} {w : World trustedCalls}

/-- The evidence a commit leaves, unless it is a replay. -/
def evidenceOf (w : World trustedCalls) : Happening → Option Evidence
  | .committed i tx _ _ =>
      if tx.writes.isEmpty then none else (w.calls[i]?).map (·.request.evidence)
  | .headRead .. => none

/-- All evidence, in the order of the commits. -/
def evidence (w : World trustedCalls) : List Evidence := w.history.filterMap w.evidenceOf

/-- Reached from the empty migrated database. -/
def FromEmpty (engine : Engine) (w : World trustedCalls) : Prop :=
  (machine engine trustedCalls).Leads (empty trustedCalls) w

theorem FromEmpty.reachable (h : FromEmpty engine w) : (machine engine trustedCalls).Reachable w :=
  ⟨_, start_empty trustedCalls, h⟩

/-- The database is its own log. -/
theorem FromEmpty.db_eq (h : FromEmpty engine w) :
    w.db = Database.applyAll [] (w.history.flatMap Happening.writes) := by
  induction h with
  | refl => rfl
  | @step s' s'' e hrun hst ih =>
      have hinv := inv_of_reachable (trustedContract engine) ⟨_, start_empty trustedCalls, hrun⟩
      cases hinv.shared hst with
      | unchanged db _ reads history heads =>
          have hreads : reads.flatMap Happening.writes = [] := by
            refine List.flatMap_eq_nil_iff.mpr (fun happening hmem => ?_)
            obtain ⟨_, _, _, rfl⟩ := heads happening hmem
            rfl
          rw [db, history, List.flatMap_append, hreads, List.append_nil, ih]
      | commits _ _ db _ history =>
          rw [db, history, List.flatMap_append, Database.applyAll_append, ← ih]
          simp [Happening.writes]

/-- A committed call that is no replay leaves its evidence. -/
theorem leaves_of_mem (hinv : w.Inv (trustedContract engine)) {i : Nat} {tx : Transaction}
    {before : Database} {clock : Timestamp} (hmem : .committed i tx before clock ∈ w.history) :
    ∃ call, w.calls[i]? = some call ∧
      ((tx.replays ∧ tx.writes = []) ∨
        (¬ tx.replays ∧ tx.writes ≠ [] ∧ Leaves call.request tx)) := by
  obtain ⟨call, hcall, haccepts, -⟩ := hinv.carriedOut i tx before clock hmem
  exact ⟨call, hcall, accepted_leaves haccepts⟩

theorem mem_evidence (hinv : w.Inv (trustedContract engine)) {e : Evidence} :
    e ∈ w.evidence ↔ ∃ i call tx before clock, w.calls[i]? = some call ∧
      .committed i tx before clock ∈ w.history ∧ ¬ tx.replays ∧ Leaves call.request tx ∧
      call.request.evidence = e := by
  simp only [evidence, List.mem_filterMap]
  constructor
  · rintro ⟨happening, hmem, he⟩
    cases happening with
    | headRead => cases he
    | committed i tx before clock =>
        obtain ⟨call, hcall, ⟨-, hnone⟩ | ⟨hfresh, hwrites, hleaves⟩⟩ := leaves_of_mem hinv hmem
        · simp [evidenceOf, hnone] at he
        · refine ⟨i, call, tx, before, clock, hcall, hmem, hfresh, hleaves, ?_⟩
          simpa [evidenceOf, hwrites, hcall] using he
  · rintro ⟨i, call, tx, before, clock, hcall, hmem, hfresh, -, rfl⟩
    obtain ⟨call', hcall', ⟨hreplays, -⟩ | ⟨-, hwrites, -⟩⟩ := leaves_of_mem hinv hmem
    · exact absurd hreplays hfresh
    · exact ⟨_, hmem, by simp [evidenceOf, hwrites, hcall]⟩

/-- A table of evidence is the image of one list. -/
theorem FromEmpty.table_eq (h : FromEmpty engine w) {τ : Type} {table : Row → Option τ}
    (htable : ∀ row, row.stable = false → table row = none) {part : Evidence → List τ}
    (hpart : ∀ request tx, Leaves request tx →
      tx.writes.filterMap (Write.inserted table) = part request.evidence) :
    w.db.filterMap table = w.evidence.flatMap part := by
  have hinv := inv_of_reachable (trustedContract engine) h.reachable
  have heach : ∀ happening ∈ w.history,
      happening.writes.filterMap (Write.inserted table) =
        (w.evidenceOf happening).toList.flatMap part := by
    intro happening hmem
    cases happening with
    | headRead => rfl
    | committed i tx before clock =>
        obtain ⟨call, hcall, ⟨-, hnone⟩ | ⟨-, hwrites, hleaves⟩⟩ := leaves_of_mem hinv hmem
        · simp [Happening.writes, evidenceOf, hnone]
        · simpa [Happening.writes, evidenceOf, hwrites, hcall] using hpart _ _ hleaves
  have hlist : ∀ l : List Happening, (∀ happening ∈ l,
      happening.writes.filterMap (Write.inserted table) =
        (w.evidenceOf happening).toList.flatMap part) →
      (l.flatMap Happening.writes).filterMap (Write.inserted table) =
        (l.filterMap w.evidenceOf).flatMap part := by
    intro l
    induction l with
    | nil => intro _; rfl
    | cons happening l ih =>
        intro hl
        rw [List.flatMap_cons, List.filterMap_append, hl happening List.mem_cons_self,
          ih (fun other hmem => hl other (List.mem_cons_of_mem _ hmem)), List.filterMap_cons]
        cases w.evidenceOf happening <;> simp
  rw [h.db_eq, Database.filterMap_applyAll htable, List.filterMap_nil, List.nil_append]
  exact hlist w.history heach

theorem FromEmpty.tables (h : FromEmpty engine w) :
    w.db.resourceIdentity = w.evidence.filterMap (·.resource) ∧
      w.db.sourceArtifact = w.evidence.map (·.artifact) ∧
      w.db.systemRevision = w.evidence.map (·.revision) ∧
      w.db.serverAudit = w.evidence.map (·.audit) ∧
      w.db.outgoingWork = w.evidence.map (·.work) := by
  have hstable : ∀ {τ : Type} {table : Row → Option τ},
      (∀ row, table (.systemIdentity row) = none) → (∀ row, table (.systemWriteHead row) = none) →
      (∀ row, table (.systemCreateRetry row) = none) →
      ∀ row, row.stable = false → table row = none := by
    intro τ table hidentity hhead hretry row hrow
    cases row <;> first | exact hidentity _ | exact hhead _ | exact hretry _ | cases hrow
  have hmap : ∀ {τ : Type} (part : Evidence → τ),
      w.evidence.flatMap (fun e => [part e]) = w.evidence.map part :=
    fun part => (List.map_eq_flatMap).symm
  refine ⟨?_, ?_, ?_, ?_, ?_⟩
  · have hresource : w.db.filterMap Row.resourceIdentity? =
        w.evidence.flatMap (fun e => e.resource.toList) :=
      h.table_eq (hstable (fun _ => rfl) (fun _ => rfl) (fun _ => rfl))
        (fun _ _ hleaves => hleaves.resource)
    exact hresource.trans (List.filterMap_eq_flatMap_toList _ _).symm
  · exact (h.table_eq (hstable (fun _ => rfl) (fun _ => rfl) (fun _ => rfl))
      (fun _ _ hleaves => hleaves.artifact)).trans (hmap _)
  · exact (h.table_eq (hstable (fun _ => rfl) (fun _ => rfl) (fun _ => rfl))
      (fun _ _ hleaves => hleaves.revision)).trans (hmap _)
  · exact (h.table_eq (hstable (fun _ => rfl) (fun _ => rfl) (fun _ => rfl))
      (fun _ _ hleaves => hleaves.audit)).trans (hmap _)
  · exact (h.table_eq (hstable (fun _ => rfl) (fun _ => rfl) (fun _ => rfl))
      (fun _ _ hleaves => hleaves.work)).trans (hmap _)

theorem FromEmpty.bound (h : FromEmpty engine w) {e : Evidence} (he : e ∈ w.evidence) :
    e.Bound := by
  have hinv := inv_of_reachable (trustedContract engine) h.reachable
  obtain ⟨i, call, tx, before, clock, -, hmem, -, hleaves, rfl⟩ := (mem_evidence hinv).mp he
  obtain ⟨hsound, hunique, -⟩ :=
    met_of_reachable (trustedContract engine) h.reachable i tx before clock hmem
  exact hleaves.bound hsound hunique

/-- Rows of one System, as images of its evidence. -/
theorem FromEmpty.rowsOf (h : FromEmpty engine w) (id : LocalId) :
    w.db.revisionsOf id = (w.evidence.filter (fun e => e.work.systemId = id)).map (·.revision) ∧
      w.db.acceptedOf id = (w.evidence.filter (fun e => e.work.systemId = id)).map (·.audit) ∧
      w.db.worksOf id = (w.evidence.filter (fun e => e.work.systemId = id)).map (·.work) := by
  obtain ⟨-, -, hrevision, haudit, hwork⟩ := h.tables
  refine ⟨?_, ?_, ?_⟩
  · rw [Database.revisionsOf, hrevision, List.filter_map]
    refine congrArg _ (List.filter_congr fun e he => ?_)
    simp [(h.bound he).system]
  · rw [Database.acceptedOf, haudit, List.filter_map]
    refine congrArg _ (List.filter_congr fun e he => ?_)
    simp [(h.bound he).target, (h.bound he).accepted]
  · rw [Database.worksOf, hwork, List.filter_map]
    rfl

/-- The evidence of the creation of a System is one entry. -/
theorem FromEmpty.creation (h : FromEmpty engine w) {id : LocalId} {label : String}
    (hsystem : Row.systemIdentity ⟨id, label⟩ ∈ w.db) :
    ∃ e, w.evidence.filter (fun e => e.work.systemId = id ∧ e.work.kind = .systemCreated) =
      [e] := by
  have hinv := inv_of_reachable (trustedContract engine) h.reachable
  obtain ⟨hresource, -⟩ := h.tables
  -- the creations of a System are its resource rows
  have hcount : (w.evidence.filter (fun e => e.work.systemId = id ∧
      e.work.kind = .systemCreated)).length =
      (w.db.resourceIdentity.filter (fun r => r.id = id)).length := by
    rw [hresource, List.filter_filterMap, List.length_filterMap_eq_countP,
      ← List.countP_eq_length_filter]
    refine List.countP_congr fun e he => ?_
    obtain ⟨hid, hcreated⟩ := And.intro (h.bound he).resource (h.bound he).created
    cases hr : e.resource with
    | none => simp [hcreated, hr]
    | some r => simp [hcreated, hr, hid r hr, Option.filter]
  have hone : (w.db.resourceIdentity.filter (fun r => r.id = id)).length = 1 := by
    obtain ⟨uid, huid⟩ := meets_resource (hinv.closed _ hsystem (.resource id)
      (by simp [Row.requires]))
    have hmem : (⟨id, uid⟩ : ResourceIdentity) ∈
        w.db.resourceIdentity.filter (fun r => r.id = id) :=
      List.mem_filter.mpr ⟨mem_resourceIdentity.mpr huid, by simp⟩
    have hle := Sql.resourceIdentity_filter hinv.unique id
    have hpos := List.length_pos_of_mem hmem
    omega
  exact List.length_eq_one_iff.mp (hcount.trans hone)

/-- Call `i` has committed, not as a replay, and this is its receipt. -/
def wrote (w : World trustedCalls) (i : Nat) (receipt : WriteReceipt) : Prop :=
  ∃ call tx before clock, w.calls[i]? = some call ∧ (tx, before, clock) ∈ w.commitsOf i ∧
    ¬ tx.replays ∧ call.request.receipt = receipt ∧
    ∀ returned, call.outcome? = some (.ok returned) → returned = receipt

end World

/-- The receipt a work row names. -/
def OutgoingWork.receipt (work : OutgoingWork) : WriteReceipt :=
  ⟨work.systemId, work.revisionId, work.artifactId, work.auditId, work.id⟩

/-- What holds in `w` when write evidence is exact. -/
structure WriteEvidence (engine : Engine) (w : World trustedCalls) : Prop where
  /-- one accepted creation and one created work row, of one revision -/
  origin : ∀ id label, Row.systemIdentity ⟨id, label⟩ ∈ w.db → ∃ audit work,
    (w.db.acceptedOf id).filter (fun audit => audit.operation = .systemCreate) = [audit] ∧
    (w.db.worksOf id).filter (fun work => work.kind = .systemCreated) = [work] ∧
    audit.revisionId = some work.revisionId
  /-- revisions, accepted audit rows and work rows match one to one -/
  matched : ∀ id,
    List.Forall₂ (fun revision work => revision.id = work.revisionId ∧
      revision.artifactId = work.artifactId) (w.db.revisionsOf id) (w.db.worksOf id) ∧
    List.Forall₂ (fun audit work => audit.id = work.auditId ∧
      audit.revisionId = some work.revisionId ∧ audit.operation = work.kind.auditOperation)
      (w.db.acceptedOf id) (w.db.worksOf id)
  counted : ∀ id, (w.db.revisionsOf id).length = (w.db.worksOf id).length ∧
    (w.db.acceptedOf id).length = (w.db.worksOf id).length
  distinct : (w.db.outgoingWork.map (·.revisionId)).Nodup ∧
    (w.db.outgoingWork.map (·.artifactId)).Nodup ∧ (w.db.outgoingWork.map (·.auditId)).Nodup
  /-- each belongs to exactly one committed call that is no replay -/
  belongs : ∀ work ∈ w.db.outgoingWork, ∃ i, w.wrote i work.receipt ∧
    ∀ j receipt, w.wrote j receipt → receipt.eventId = work.id → j = i
  /-- and every such call has left one -/
  left : ∀ i receipt, w.wrote i receipt → ∃ work ∈ w.db.outgoingWork, work.receipt = receipt
  /-- one current head, at one of the revisions -/
  heads : ∀ id label, Row.systemIdentity ⟨id, label⟩ ∈ w.db → ∃ head revision,
    w.db.systemWriteHead.filter (fun head => head.systemId = id) = [head] ∧
    revision ∈ w.db.revisionsOf id ∧ revision.id = head.revisionId ∧
    revision.artifactId = head.artifactId
  /-- nothing of it is ever changed or removed -/
  kept : ∀ w', (World.machine engine trustedCalls).Leads w w' →
    ∀ row, row.stable = true → row ∈ w.db → row ∈ w'.db ∧
      ∀ row' ∈ w'.db, ∀ key ∈ row.keys, key ∈ row'.keys → row' = row

section Exact

variable {engine : Engine} {w : World trustedCalls}

theorem auditOperation_eq_create {kind : WorkKind} :
    kind.auditOperation = .systemCreate ↔ kind = .systemCreated := by
  cases kind <;> simp [WorkKind.auditOperation]

/-- A receipt names the rows of the evidence. -/
theorem TrustedRequest.receipt_evidence {request : TrustedRequest}
    (h : request.evidence.Bound) : request.evidence.work.receipt = request.receipt := by
  have hsystem := h.system
  cases request with
  | create input retry => rfl
  | update input => rfl

/-- A returned receipt of a call that has committed, not as a replay. -/
theorem returned_receipt (hinv : w.Inv (trustedContract engine)) {i : Nat}
    {call : Running trustedCalls} {tx : Transaction} {before : Database} {clock : Timestamp}
    (hcall : w.calls[i]? = some call) (hmem : .committed i tx before clock ∈ w.history)
    (hfresh : ¬ tx.replays) {receipt : WriteReceipt}
    (houtcome : call.outcome? = some (.ok receipt)) : receipt = call.request.receipt := by
  obtain ⟨call', hcall', -, hrecorded⟩ := hinv.carriedOut i tx before clock hmem
  obtain rfl := Option.some.inj (hcall.symm.trans hcall')
  have hends := hinv.ended hcall houtcome
  cases hrequest : call.request with
  | create input retry =>
      rw [hrequest] at hends
      generalize call.session = session at hends hrecorded
      cases hends with
      | @committed kind tx' _ hdone =>
          obtain rfl : tx = tx' := by
            simpa [Session.commit, Session.at, Session.idle] using hrecorded
          obtain ⟨prepared, -, hcreate⟩ := hdone
          cases hcreate with
          | replayed h =>
              obtain ⟨clock', row, hlooked, -⟩ := h.found
              exact absurd ⟨clock', row, hlooked⟩ hfresh
          | created => rfl
  | update input =>
      rw [hrequest] at hends
      generalize call.session = session at hends
      cases hends with
      | @committed kind tx' _ hdone => exact hdone.receipt

/-- A creation that is no replay inserts the head of its System. -/
theorem head_of_creation {request : TrustedRequest} {tx : Transaction}
    (h : (trustedContract engine).accepts request tx) (hfresh : ¬ tx.replays)
    (hcreated : request.evidence.work.kind = .systemCreated) :
    Key.head request.evidence.work.systemId ∈ tx.newKeys := by
  cases request with
  | update input => cases hcreated
  | create input retry =>
      obtain ⟨receipt, prepared, -, hdone⟩ := h
      cases hdone with
      | replayed h =>
          obtain ⟨clock, row, hlooked, -⟩ := h.found
          exact absurd ⟨clock, row, hlooked⟩ hfresh
      | created h =>
          obtain ⟨now, hwrites⟩ := h.writes
          refine List.mem_flatMap.mpr
            ⟨.insert (.systemWriteHead ⟨input.system.id, input.revision.id, input.artifact.id⟩),
              ?_, ?_⟩
          · simp [hwrites, CreateSystem.writes]
          · simp [Write.newKeys, Row.keys, TrustedRequest.evidence]

/-- A key of every row of a table takes each value once. -/
theorem nodup_key {db : Database} (hunique : db.Unique) {τ α : Type} {table : Row → Option τ}
    {part : τ → α} (key : α → Key) (hkey : ∀ row t, table row = some t → key (part t) ∈ row.keys) :
    ((db.filterMap table).map part).Nodup := by
  refine List.Nodup.of_map key ?_
  rw [List.map_map, List.Nodup, List.pairwise_map, List.pairwise_filterMap]
  refine hunique.disjoint.imp ?_
  intro row row' hdisjoint t ht t' ht' heq
  have hshared : key (part t) = key (part t') := heq
  exact hdisjoint (hkey row t ht) (hshared ▸ hkey row' t' ht')

/-- The head of every System. -/
theorem World.FromEmpty.head (h : World.FromEmpty engine w) {id : LocalId} {label : String}
    (hsystem : Row.systemIdentity ⟨id, label⟩ ∈ w.db) :
    ∃ head, w.db.systemWriteHead.filter (fun head => head.systemId = id) = [head] := by
  have hinv := World.inv_of_reachable (trustedContract engine) h.reachable
  obtain ⟨e, he⟩ := h.creation hsystem
  obtain ⟨hmem, hcreation⟩ : e ∈ w.evidence ∧ (e.work.systemId = id ∧
      e.work.kind = .systemCreated) := by
    simpa using (he ▸ List.mem_singleton_self e :
      e ∈ w.evidence.filter (fun e => e.work.systemId = id ∧ e.work.kind = .systemCreated))
  obtain ⟨i, call, tx, before, clock, hcall, hcommit, hfresh, -, rfl⟩ :=
    (World.mem_evidence hinv).mp hmem
  obtain ⟨rfl, hcreated⟩ := hcreation
  obtain ⟨call', hcall', haccepts, -⟩ := hinv.carriedOut i tx before clock hcommit
  obtain rfl := Option.some.inj (hcall.symm.trans hcall')
  have hkey := World.taken_of_reachable (trustedContract engine) h.reachable i tx before clock
    hcommit _ (head_of_creation haccepts hfresh hcreated)
  obtain ⟨row, hrow, hkey⟩ := List.mem_flatMap.mp hkey
  have hle : (w.db.systemWriteHead.filter
      (fun head => head.systemId = call.request.evidence.work.systemId)).length ≤ 1 := by
    refine hinv.unique.filter_le_one (.head call.request.evidence.work.systemId) ?_ ?_
    · intro row row' t ht ht'
      cases row <;> cases row' <;> simp_all [Row.systemWriteHead?]
    · intro row t ht hid
      cases row <;> simp_all [Row.systemWriteHead?, Row.keys]
  cases row with
  | systemWriteHead head =>
      have hid : call.request.evidence.work.systemId = head.systemId := by
        simpa [Row.keys] using hkey
      have hpos := List.length_pos_of_mem (List.mem_filter.mpr
        ⟨mem_systemWriteHead.mpr hrow, by simpa using hid.symm⟩ : head ∈
          w.db.systemWriteHead.filter
            (fun head => head.systemId = call.request.evidence.work.systemId))
      exact List.length_eq_one_iff.mp (by omega)
  | _ => simp [Row.keys] at hkey

/-- Rows of a System's evidence that its work rows select. -/
theorem World.FromEmpty.origin (h : World.FromEmpty engine w) {id : LocalId} {label : String}
    (hsystem : Row.systemIdentity ⟨id, label⟩ ∈ w.db) : ∃ audit work,
    (w.db.acceptedOf id).filter (fun audit => audit.operation = .systemCreate) = [audit] ∧
    (w.db.worksOf id).filter (fun work => work.kind = .systemCreated) = [work] ∧
    audit.revisionId = some work.revisionId := by
  obtain ⟨e, he⟩ := h.creation hsystem
  obtain ⟨-, haudits, hworks⟩ := h.rowsOf id
  have hmem : e ∈ w.evidence := by
    have := (he ▸ List.mem_singleton_self e :
      e ∈ w.evidence.filter (fun e => e.work.systemId = id ∧ e.work.kind = .systemCreated))
    exact (List.mem_filter.mp this).1
  have hcreations : (w.evidence.filter (fun e => e.work.systemId = id)).filter
      (fun e => e.work.kind = .systemCreated) = [e] := by
    rw [List.filter_filter, ← he]
    refine List.filter_congr fun e _ => ?_
    rw [Bool.decide_and, Bool.and_comm]
  refine ⟨e.audit, e.work, ?_, ?_, (h.bound hmem).auditRevision⟩
  · have hoperation : (w.evidence.filter (fun e => e.work.systemId = id)).filter
        (fun e => e.audit.operation = .systemCreate) = [e] := by
      rw [← hcreations]
      refine List.filter_congr fun e he => ?_
      have hbound := h.bound (List.mem_of_mem_filter he)
      simp [hbound.operation, auditOperation_eq_create]
    rw [haudits, List.filter_map]
    exact congrArg (List.map (·.audit)) hoperation
  · rw [hworks, List.filter_map]
    exact congrArg (List.map (·.work)) hcreations

theorem World.FromEmpty.matched (h : World.FromEmpty engine w) (id : LocalId) :
    List.Forall₂ (fun revision work => revision.id = work.revisionId ∧
      revision.artifactId = work.artifactId) (w.db.revisionsOf id) (w.db.worksOf id) ∧
    List.Forall₂ (fun audit work => audit.id = work.auditId ∧
      audit.revisionId = some work.revisionId ∧ audit.operation = work.kind.auditOperation)
      (w.db.acceptedOf id) (w.db.worksOf id) := by
  obtain ⟨hrevisions, haudits, hworks⟩ := h.rowsOf id
  have hbound : ∀ e ∈ w.evidence.filter (fun e => e.work.systemId = id), e.Bound :=
    fun e he => h.bound (List.mem_of_mem_filter he)
  rw [hrevisions, haudits, hworks]
  constructor
  · rw [List.forall₂_map_left_iff, List.forall₂_map_right_iff, List.forall₂_same]
    exact fun e he => ⟨(hbound e he).revision, (hbound e he).revisionArtifact⟩
  · rw [List.forall₂_map_left_iff, List.forall₂_map_right_iff, List.forall₂_same]
    exact fun e he => ⟨(hbound e he).audit, (hbound e he).auditRevision, (hbound e he).operation⟩

/-- The IDs in the work rows are the keys of the rows they name. -/
theorem World.FromEmpty.distinct (h : World.FromEmpty engine w) :
    (w.db.outgoingWork.map (·.revisionId)).Nodup ∧
      (w.db.outgoingWork.map (·.artifactId)).Nodup ∧
      (w.db.outgoingWork.map (·.auditId)).Nodup := by
  have hinv := World.inv_of_reachable (trustedContract engine) h.reachable
  obtain ⟨-, hartifact, hrevision, haudit, hwork⟩ := h.tables
  have hmap : ∀ {α : Type} {f g : Evidence → α}, (∀ e, e.Bound → f e = g e) →
      w.evidence.map f = w.evidence.map g :=
    fun hfg => List.map_congr_left fun e he => hfg e (h.bound he)
  refine ⟨?_, ?_, ?_⟩
  · have heq : w.db.outgoingWork.map (·.revisionId) = w.db.systemRevision.map (·.id) := by
      rw [hwork, hrevision, List.map_map, List.map_map]
      exact hmap fun e he => he.revision.symm
    rw [heq]
    refine nodup_key hinv.unique Key.revision ?_
    intro row t ht
    cases row with
    | systemRevision =>
        obtain rfl := Option.some.inj ht
        simp [Row.keys]
    | _ => cases ht
  · have heq : w.db.outgoingWork.map (·.artifactId) = w.db.sourceArtifact.map (·.id) := by
      rw [hwork, hartifact, List.map_map, List.map_map]
      exact hmap fun e he => he.artifact.symm
    rw [heq]
    refine nodup_key hinv.unique Key.artifact ?_
    intro row t ht
    cases row with
    | sourceArtifact =>
        obtain rfl := Option.some.inj ht
        simp [Row.keys]
    | _ => cases ht
  · have heq : w.db.outgoingWork.map (·.auditId) = w.db.serverAudit.map (·.id) := by
      rw [hwork, haudit, List.map_map, List.map_map]
      exact hmap fun e he => he.audit.symm
    rw [heq]
    refine nodup_key hinv.unique Key.audit ?_
    intro row t ht
    cases row with
    | serverAudit =>
        obtain rfl := Option.some.inj ht
        simp [Row.keys]
    | _ => cases ht

/-- Evidence and writing calls are the same thing. -/
theorem World.FromEmpty.mem_outgoingWork_iff (h : World.FromEmpty engine w)
    {receipt : WriteReceipt} :
    (∃ work ∈ w.db.outgoingWork, work.receipt = receipt) ↔ ∃ i, w.wrote i receipt := by
  have hinv := World.inv_of_reachable (trustedContract engine) h.reachable
  obtain ⟨-, -, -, -, hwork⟩ := h.tables
  constructor
  · rintro ⟨work, hmem, rfl⟩
    obtain ⟨e, he, rfl⟩ := List.mem_map.mp (hwork ▸ hmem)
    obtain ⟨i, call, tx, before, clock, hcall, hcommit, hfresh, -, rfl⟩ :=
      (World.mem_evidence hinv).mp he
    have hreceipt := TrustedRequest.receipt_evidence (h.bound he)
    exact ⟨i, call, tx, before, clock, hcall, World.mem_commitsOf.mpr hcommit, hfresh,
      hreceipt.symm, fun returned houtcome =>
        (returned_receipt hinv hcall hcommit hfresh houtcome).trans hreceipt.symm⟩
  · rintro ⟨i, call, tx, before, clock, hcall, hcommit, hfresh, rfl, -⟩
    have hcommit := World.mem_commitsOf.mp hcommit
    obtain ⟨call', hcall', ⟨hreplays, -⟩ | ⟨-, -, hleaves⟩⟩ := World.leaves_of_mem hinv hcommit
    · exact absurd hreplays hfresh
    · obtain rfl := Option.some.inj (hcall.symm.trans hcall')
      have he : call.request.evidence ∈ w.evidence := (World.mem_evidence hinv).mpr
        ⟨i, call, tx, before, clock, hcall, hcommit, hfresh, hleaves, rfl⟩
      exact ⟨call.request.evidence.work, hwork ▸ List.mem_map_of_mem he,
        TrustedRequest.receipt_evidence (h.bound he)⟩

/-- Only one call writes a given work row. -/
theorem World.wrote_unique (h : World.FromEmpty engine w) {i j : Nat}
    {receipt receipt' : WriteReceipt} (hi : w.wrote i receipt) (hj : w.wrote j receipt')
    (hevent : receipt'.eventId = receipt.eventId) : j = i := by
  have hinv := World.inv_of_reachable (trustedContract engine) h.reachable
  have hkey : ∀ {i : Nat} {receipt : WriteReceipt}, w.wrote i receipt →
      ∃ tx before clock, .committed i tx before clock ∈ w.history ∧
        Key.work receipt.eventId ∈ tx.newKeys := by
    rintro i _ ⟨call, tx, before, clock, hcall, hcommit, hfresh, rfl, -⟩
    have hcommit := World.mem_commitsOf.mp hcommit
    refine ⟨tx, before, clock, hcommit, ?_⟩
    obtain ⟨call', hcall', ⟨hreplays, -⟩ | ⟨-, -, hleaves⟩⟩ := World.leaves_of_mem hinv hcommit
    · exact absurd hreplays hfresh
    · obtain rfl := Option.some.inj (hcall.symm.trans hcall')
      have hinsert : Write.insert (.outgoingWork call.request.evidence.work) ∈ tx.writes :=
        mem_of_inserted (fun row => by cases row <;> simp [Row.outgoingWork?])
          (hleaves.work ▸ List.mem_singleton_self _)
      refine List.mem_flatMap.mpr ⟨_, hinsert, ?_⟩
      cases call.request <;> simp [Write.newKeys, Row.keys, TrustedRequest.evidence,
        TrustedRequest.receipt, CreateSystem.receipt, UpdateSystem.receipt]
  obtain ⟨tx, before, clock, hmem, hnew⟩ := hkey hi
  obtain ⟨tx', before', clock', hmem', hnew'⟩ := hkey hj
  exact (World.commit_of_key (trustedContract engine) h.reachable hmem' hmem hnew'
    (hevent ▸ hnew)).1

/-- **Write evidence is exact.** -/
theorem write_evidence (h : World.FromEmpty engine w) : WriteEvidence engine w := by
  have hinv := World.inv_of_reachable (trustedContract engine) h.reachable
  exact {
    origin := fun id label hsystem => h.origin hsystem
    matched := h.matched
    counted := fun id => ⟨(h.matched id).1.length_eq, (h.matched id).2.length_eq⟩
    distinct := h.distinct
    belongs := fun work hwork => by
      obtain ⟨i, hwrote⟩ := h.mem_outgoingWork_iff.mp ⟨work, hwork, rfl⟩
      exact ⟨i, hwrote, fun j receipt hj hevent => World.wrote_unique h hwrote hj hevent⟩
    left := fun i receipt hwrote => h.mem_outgoingWork_iff.mpr ⟨i, hwrote⟩
    heads := fun id label hsystem => by
      obtain ⟨head, hhead⟩ := h.head hsystem
      obtain ⟨hrow, hid⟩ : Row.systemWriteHead head ∈ w.db ∧ head.systemId = id := by
        have hmem := hhead ▸ List.mem_singleton_self head
        obtain ⟨hmem, hid⟩ := List.mem_filter.mp hmem
        exact ⟨mem_systemWriteHead.mp hmem, by simpa using hid⟩
      have hmet := hinv.closed _ hrow (.revision head.revisionId head.systemId head.artifactId)
        (by simp [Row.requires])
      obtain ⟨row, hrevision, hprovides⟩ := Database.meets_iff.mp hmet
      obtain ⟨revision, rfl, hrevisionId, hsystemId, hartifactId⟩ :=
        provides_revision.mp hprovides
      refine ⟨head, revision, hhead, ?_, hrevisionId, hartifactId⟩
      refine List.mem_filter.mpr ⟨List.mem_filterMap.mpr ⟨_, hrevision, rfl⟩, ?_⟩
      simp [hsystemId, hid]
    kept := fun w' hleads row hstable hrow => by
      have hrow' : row ∈ w'.db := by
        induction hleads with
        | refl => exact hrow
        | step hrun hst ih =>
            have hinv' := World.inv_of_reachable (trustedContract engine)
              (h.reachable.leads hrun)
            exact (hinv'.shared hst).mem_of_stable hstable ih
      have hinv' := World.inv_of_reachable (trustedContract engine) (h.reachable.leads hleads)
      exact ⟨hrow', fun row' hmem key hkey hkey' =>
        hinv'.unique.eq_of_key key hmem hrow' hkey' hkey⟩ }

/-- A creation, a retry of it, an update that is cut off after its inserts, and an
update. -/
def sampleWrites : List (Event trustedCalls) :=
  [.start (TrustedRequest.create (sampleCreate sampleParent "urn:parent" none) (some sampleKey))] ++
  runs 0 6 ++ [.step 0 (.allow true)] ++ runs 0 10 ++
  [.start (TrustedRequest.create (sampleCreate sampleChild "urn:parent" none) (some sampleKey))] ++
  runs 1 6 ++ [.step 1 (.allow true)] ++ runs 1 3 ++
  [.start (TrustedRequest.update (sampleUpdate sampleParent sampleChild none))] ++
  runs 2 4 ++ [.step 2 (.allow true)] ++ runs 2 6 ++ [.drop 2] ++
  [.start (TrustedRequest.update (sampleUpdate sampleParent sampleChild none))] ++
  runs 3 4 ++ [.step 3 (.allow true)] ++ runs 3 9

theorem write_evidence_run : ∃ w : World trustedCalls,
    (World.machine sampleEngine trustedCalls).runEvents (World.empty trustedCalls)
      sampleWrites = some w ∧
    w.db.outgoingWork.length = 2 ∧ w.calls.map (fun call => call.outcome?.map Except.isOk) =
      [some true, some true, none, some true] ∧ WriteEvidence sampleEngine w := by
  have hrun : ((World.machine sampleEngine trustedCalls).runEvents (World.empty trustedCalls)
      sampleWrites).map (fun w =>
        (w.db.outgoingWork.length, w.calls.map (fun call => call.outcome?.map Except.isOk))) =
      some (2, [some true, some true, none, some true]) := by decide +kernel
  obtain ⟨w, hw, hends⟩ := Option.map_eq_some_iff.mp hrun
  obtain ⟨hlength, houtcomes⟩ := Prod.mk.inj hends
  exact ⟨w, hw, hlength, houtcomes, write_evidence (Machine.leads_of_runEvents hw)⟩

end Exact

end Server
end Glaux
