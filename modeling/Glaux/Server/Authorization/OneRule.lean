import Glaux.Server.Authorization.ListQuery

/-!
# One rule behind the three System queries

`Rule` is the access rule in its own terms: one origin with a source, one
configured grant that covers everything at once, and the same for the parent.
The list query, the single-ID query and the current-representation query select
a System exactly when it holds.
-/

namespace Glaux
namespace Server

open Domain Library

variable {db : Database}

instance : Decidable db.Unique := inferInstanceAs (Decidable db.keys.Nodup)

instance : Decidable db.Closed :=
  inferInstanceAs (Decidable (∀ row ∈ db, ∀ requirement ∈ row.requires,
    db.meets requirement = true))

/-- The caller may read the System by its own provenance. -/
def ReadableBy (config : PolicyConfig) (db : Database) (caller : CallerContext)
    (id : LocalId) : Prop :=
  ∃ source, OwnedBy db id source ∧
    ∃ grant ∈ config.grants, Grants grant caller .read source id

/-- The access rule. -/
def Rule (config : PolicyConfig) (db : Database) (caller : CallerContext) (id : LocalId) :
    Prop :=
  ReadableBy config db caller id ∧
    ∀ parent, Row.systemParent ⟨id, parent⟩ ∈ db → ReadableBy config db caller parent

section Closed

theorem meets_iff {requirement : Requirement} :
    db.meets requirement = true ↔ ∃ row ∈ db, requirement ∈ row.provides := by
  simp [Database.meets]

theorem meets_resource {id : LocalId} (h : db.meets (.resource id) = true) :
    ∃ uid, Row.resourceIdentity ⟨id, uid⟩ ∈ db := by
  obtain ⟨row, hrow, hprovides⟩ := meets_iff.mp h
  cases row <;> simp only [Row.provides] at hprovides
  case resourceIdentity row =>
    obtain rfl : id = row.id := by simpa using hprovides
    exact ⟨row.uid, hrow⟩
  case serverAudit row => split at hprovides <;> simp at hprovides
  case outgoingWork row => split at hprovides <;> simp at hprovides
  all_goals simp at hprovides

theorem meets_system {id : LocalId} (h : db.meets (.system id) = true) :
    ∃ label, Row.systemIdentity ⟨id, label⟩ ∈ db := by
  obtain ⟨row, hrow, hprovides⟩ := meets_iff.mp h
  cases row <;> simp only [Row.provides] at hprovides
  case systemIdentity row =>
    obtain rfl : id = row.id := by simpa using hprovides
    exact ⟨row.label, hrow⟩
  case serverAudit row => split at hprovides <;> simp at hprovides
  case outgoingWork row => split at hprovides <;> simp at hprovides
  all_goals simp at hprovides

theorem meets_revision {id : RevisionId} {system : LocalId} {artifact : ArtifactId}
    (h : db.meets (.revision id system artifact) = true) :
    ∃ row, Row.systemRevision row ∈ db ∧ row.id = id ∧ row.systemId = system ∧
      row.artifactId = artifact := by
  obtain ⟨row, hrow, hprovides⟩ := meets_iff.mp h
  cases row <;> simp only [Row.provides] at hprovides
  case systemRevision row =>
    obtain ⟨rfl, rfl, rfl⟩ : id = row.id ∧ system = row.systemId ∧
      artifact = row.artifactId := by simpa using hprovides
    exact ⟨row, hrow, rfl, rfl, rfl⟩
  case serverAudit row => split at hprovides <;> simp at hprovides
  case outgoingWork row => split at hprovides <;> simp at hprovides
  all_goals simp at hprovides

/-- Foreign keys lead from creation evidence to the identity rows. -/
theorem OwnedBy.identity (hclosed : db.Closed) {id : LocalId} {source : String}
    (h : OwnedBy db id source) :
    (∃ uid, Row.resourceIdentity ⟨id, uid⟩ ∈ db) ∧
      ∃ label, Row.systemIdentity ⟨id, label⟩ ∈ db := by
  obtain ⟨w, a, horigin, -, -⟩ := h
  obtain rfl := horigin.system
  obtain ⟨revision, hrevision, -, hsystem, -⟩ :=
    meets_revision (hclosed _ horigin.work _ (List.mem_cons_self ..))
  obtain ⟨label, hlabel⟩ := meets_system (hclosed _ hrevision _ (List.mem_cons_self ..))
  rw [hsystem] at hlabel
  exact ⟨meets_resource (hclosed _ hlabel _ (List.mem_cons_self ..)), label, hlabel⟩

theorem resource?_isSome {id : LocalId} {uid : String}
    (h : Row.resourceIdentity ⟨id, uid⟩ ∈ db) : ∃ r, Sql.resource? db id = some r ∧ r.id = id := by
  have hmem : (⟨id, uid⟩ : ResourceIdentity) ∈ db.resourceIdentity.filter (fun r => r.id = id) :=
    List.mem_filter.mpr ⟨mem_resourceIdentity.mpr h, by simp⟩
  cases hfound : db.resourceIdentity.filter (fun r => r.id = id) with
  | nil => simp [hfound] at hmem
  | cons r rest =>
      have hr : r ∈ db.resourceIdentity.filter (fun r => r.id = id) := by simp [hfound]
      exact ⟨r, by simp [Sql.resource?, hfound], by simpa using (List.mem_filter.mp hr).2⟩

end Closed

section Selection

variable {set : PermissionSet}

/-- Readable Systems have identity rows. -/
theorem readable_identity (hunique : db.Unique) (hclosed : db.Closed) {id : LocalId}
    (h : id ∈ Sql.readable db set.scopeJson) :
    (∃ uid, Row.resourceIdentity ⟨id, uid⟩ ∈ db) ∧
      ∃ label, Row.systemIdentity ⟨id, label⟩ ∈ db := by
  obtain ⟨source, hsource, -⟩ := mem_readable.mp h
  exact ((systemSource_eq_some hunique).mp hsource).identity hclosed

theorem mem_selected {exact : Option LocalId} {limit : Nat} {id : LocalId}
    (h : id ∈ Sql.selected db set.scopeJson exact limit) :
    id ∈ Sql.visible db set.scopeJson exact :=
  mem_sortBy.mp (List.mem_of_mem_take h)

theorem aliasColumns_ne_nil (db : Database) (id : LocalId) : Sql.aliasColumns db id ≠ [] := by
  simp only [Sql.aliasColumns]
  split <;> simp

/-- The list query returns rows of exactly the selected Systems. -/
theorem exists_listRow (hunique : db.Unique) (hclosed : db.Closed)
    {exact : Option LocalId} {limit : Nat} {id : LocalId} :
    (∃ row ∈ Sql.listRows db set.scopeJson exact limit, row.id = some id) ↔
      id ∈ Sql.selected db set.scopeJson exact limit := by
  have hresource : ∀ id ∈ Sql.selected db set.scopeJson exact limit,
      ∃ r, Sql.resource? db id = some r ∧ r.id = id := by
    intro id hid
    obtain ⟨uid, huid⟩ := (readable_identity hunique hclosed
      (mem_visible.mp (mem_selected hid)).1).1
    exact resource?_isSome huid
  rw [Sql.listRows_eq hunique]
  match hselected : Sql.selected db set.scopeJson exact limit, hresource with
  | [], _ => simp
  | first :: rest, hresource =>
      dsimp only
      constructor
      · rintro ⟨row, hrow, hid⟩
        obtain ⟨id', hid', hrow⟩ := List.mem_flatMap.mp hrow
        obtain ⟨column, -, rfl⟩ := List.mem_map.mp hrow
        obtain ⟨r, hr, rfl⟩ := hresource id' hid'
        obtain rfl : r.id = id := by simpa [Sql.listRow, hr] using hid
        exact hid'
      · intro hid
        obtain ⟨r, hr, hrid⟩ := hresource id hid
        obtain ⟨column, hcolumn⟩ := List.exists_mem_of_ne_nil _ (aliasColumns_ne_nil db id)
        refine ⟨Sql.listRow db (Sql.visible db set.scopeJson exact).length id column, ?_,
          by simp [Sql.listRow, hr, hrid]⟩
        exact List.mem_flatMap.mpr ⟨id, hid, List.mem_map_of_mem hcolumn⟩

/-- The current-representation query returns a row of exactly a visible System. -/
theorem currentRows_ne_nil (hunique : db.Unique) (hclosed : db.Closed) {id : LocalId} :
    Sql.currentRows db set.scopeJson id ≠ [] ↔
      id ∈ Sql.visible db set.scopeJson (some id) := by
  constructor
  · intro h
    obtain ⟨row, hrow⟩ := List.exists_mem_of_ne_nil _ h
    obtain ⟨id', hid', -⟩ := List.mem_flatMap.mp hrow
    obtain rfl := (mem_visible.mp hid').2.2 id rfl
    exact hid'
  · intro hid
    obtain ⟨⟨uid, huid⟩, label, hlabel⟩ :=
      readable_identity hunique hclosed (mem_visible.mp hid).1
    obtain ⟨⟨p, parent⟩, hp⟩ := List.exists_mem_of_ne_nil _
      (leftJoin_ne_nil (List.cons_ne_nil _ _) :
        leftJoin [id] db.systemParent (fun id p => p.childId = id) ≠ [])
    obtain ⟨⟨i, head⟩, hhead⟩ := List.exists_mem_of_ne_nil _
      (leftJoin_ne_nil (List.cons_ne_nil _ _) :
        leftJoin [id] db.systemWriteHead (fun id h => h.systemId = id) ≠ [])
    obtain ⟨⟨h', artifact⟩, hartifact⟩ := List.exists_mem_of_ne_nil _
      (leftJoin_ne_nil (List.cons_ne_nil _ _) :
        leftJoin [head] db.sourceArtifact
        (fun h a => h.any (fun h => a.id = h.artifactId)) ≠ [])
    refine List.ne_nil_of_mem (List.mem_flatMap.mpr ⟨id, hid, List.mem_flatMap.mpr
      ⟨⟨id, uid⟩, List.mem_filter.mpr ⟨mem_resourceIdentity.mpr huid, by simp⟩,
        List.mem_flatMap.mpr ⟨⟨id, label⟩,
          List.mem_filter.mpr ⟨mem_systemIdentity.mpr hlabel, by simp⟩,
          List.mem_flatMap.mpr ⟨(p, parent), hp, List.mem_flatMap.mpr ⟨(i, head), hhead,
            List.mem_map_of_mem hartifact⟩⟩⟩⟩⟩)

theorem visible_exact_length {exact : LocalId} :
    (Sql.visible db set.scopeJson (some exact)).length ≤ 1 := by
  refine length_le_one Sql.visible_nodup ?_
  intro a ha b hb
  exact ((mem_visible.mp ha).2.2 exact rfl).trans ((mem_visible.mp hb).2.2 exact rfl).symm

/-- Grants in another order or repeated give the same selection. -/
theorem visible_congr {set' : PermissionSet}
    (h : ∀ grant, grant ∈ set.grants ↔ grant ∈ set'.grants) (exact : Option LocalId) :
    Sql.visible db set.scopeJson exact = Sql.visible db set'.scopeJson exact := by
  have hreadable : Sql.readable db set.scopeJson = Sql.readable db set'.scopeJson := by
    simp only [Sql.readable, any_grantCovers]
    congr 2
    funext origin
    rw [Bool.eq_iff_iff]
    simp only [PermissionSet.allows, List.any_eq_true, h]
  simp only [Sql.visible, hreadable]

end Selection

section Main

variable {config : PolicyConfig} {policy : ConfiguredPolicy} {caller : CallerContext}

theorem mem_readable_iff (hpolicy : ConfiguredPolicy.new config = some policy)
    (hunique : db.Unique) {id : LocalId} :
    id ∈ Sql.readable db (policy.permissions caller .read).scopeJson ↔
      ReadableBy config db caller id := by
  simp only [mem_readable, ReadableBy, systemSource_eq_some hunique,
    allows_permissions hpolicy]

theorem mem_visible_iff (hpolicy : ConfiguredPolicy.new config = some policy)
    (hunique : db.Unique) {id : LocalId} {exact : Option LocalId} :
    id ∈ Sql.visible db (policy.permissions caller .read).scopeJson exact ↔
      Rule config db caller id ∧ ∀ only, exact = some only → id = only := by
  simp only [mem_visible, mem_readable_iff hpolicy hunique, Rule, and_assoc]

/-- **One access rule, four spellings.** -/
theorem access_rule_agreement (hpolicy : ConfiguredPolicy.new config = some policy)
    (hunique : db.Unique) (hclosed : db.Closed) (caller : CallerContext) (id : LocalId) :
    -- the list query, whole and cut at a limit
    (id ∈ Sql.visible db (policy.permissions caller .read).scopeJson none ↔
      Rule config db caller id) ∧
    (∀ limit, (Sql.visible db (policy.permissions caller .read).scopeJson none).length ≤ limit →
      ((∃ row ∈ Sql.listRows db (policy.permissions caller .read).scopeJson none limit,
        row.id = some id) ↔ Rule config db caller id)) ∧
    -- the single-ID query and the current-representation query
    ((∃ row ∈ Sql.listRows db (policy.permissions caller .read).scopeJson (some id) 1,
      row.id = some id) ↔ Rule config db caller id) ∧
    (Sql.currentRows db (policy.permissions caller .read).scopeJson id ≠ [] ↔
      Rule config db caller id) ∧
    -- `allows` on the source that `system_source` returns
    (id ∈ Sql.readable db (policy.permissions caller .read).scopeJson ↔
      ∃ source, Sql.systemSource db id = some source ∧
        (policy.permissions caller .read).allows source id = true) ∧
    (∀ source, Sql.systemSource db id = some source ↔ OwnedBy db id source) ∧
    -- the encoding, and the order and repetition of grants
    (∀ set set' : PermissionSet,
      Sql.grants set.scopeJson = Sql.grants set'.scopeJson → set = set') ∧
    (∀ config' policy', ConfiguredPolicy.new config' = some policy' →
      (∀ grant, grant ∈ config.grants ↔ grant ∈ config'.grants) →
      (id ∈ Sql.visible db (policy'.permissions caller .read).scopeJson none ↔
        id ∈ Sql.visible db (policy.permissions caller .read).scopeJson none)) := by
  have hvisible : ∀ exact, id ∈ Sql.visible db
      (policy.permissions caller .read).scopeJson exact ↔
      Rule config db caller id ∧ ∀ only, exact = some only → id = only :=
    fun exact => mem_visible_iff hpolicy hunique
  refine ⟨by simpa using hvisible none, ?_, ?_, ?_, mem_readable,
    fun source => systemSource_eq_some hunique,
    fun set set' h => grants_scopeJson_injective h, ?_⟩
  · intro limit hlimit
    rw [exists_listRow hunique hclosed, Sql.selected, List.take_of_length_le, mem_sortBy]
    · simpa using hvisible none
    · rw [(sortBy_perm _ _).length_eq]
      exact hlimit
  · rw [exists_listRow hunique hclosed, Sql.selected, List.take_of_length_le, mem_sortBy]
    · simpa using hvisible (some id)
    · rw [(sortBy_perm _ _).length_eq]
      exact visible_exact_length
  · rw [currentRows_ne_nil hunique hclosed]
    simpa using hvisible (some id)
  · intro config' policy' hpolicy' hgrants
    rw [mem_visible_iff hpolicy' hunique, mem_visible_iff hpolicy hunique]
    simp only [Rule, ReadableBy, hgrants]

/-- Two Systems of different sources, the second below the first. -/
def sampleParent : LocalId := ⟨"01890f20-7b5a-7cc3-98c4-000000000001", by decide +kernel⟩

def sampleChild : LocalId := ⟨"01890f20-7b5a-7cc3-98c4-000000000002", by decide +kernel⟩

def sampleTime : ExactInstant := ⟨0, false, "0", "1970-01-01T00:00:00Z"⟩

/-- The rows of one created System. -/
def sampleRows (id : LocalId) (uid source : String) : List Row :=
  [.resourceIdentity ⟨id, uid⟩, .systemIdentity ⟨id, uid⟩,
    .sourceArtifact ⟨⟨id⟩, "application/geo+json", []⟩,
    .systemRevision ⟨⟨id⟩, id, ⟨id⟩, none, sampleTime⟩,
    .serverAudit ⟨⟨id⟩, some "actor", some source, .systemCreate, some id, some ⟨id⟩,
      sampleTime, .accepted, "correlation"⟩,
    .outgoingWork ⟨⟨id⟩, id, ⟨id⟩, ⟨id⟩, ⟨id⟩, .systemCreated⟩,
    .systemWriteHead ⟨id, ⟨id⟩, ⟨id⟩⟩]

def sampleDatabase : Database :=
  sampleRows sampleParent "urn:parent" "north" ++ sampleRows sampleChild "urn:child" "south" ++
    [.systemParent ⟨sampleChild, sampleParent⟩]

def sampleCaller : CallerContext := ⟨"urn:issuer", "alice", ["operators"], .jwt⟩

def sampleGrants : List GrantConfig :=
  [⟨"urn:issuer", none, some "operators", "north", [.read], none⟩,
    ⟨"urn:issuer", some "alice", none, "south", [.create, .read], some [sampleChild.text]⟩]

theorem access_rule_agreement_sample :
    ∃ policy, ConfiguredPolicy.new ⟨sampleGrants, ⟨10, 10, 60⟩⟩ = some policy ∧
      sampleChild ∈ Sql.visible sampleDatabase
        (policy.permissions sampleCaller .read).scopeJson none ∧
      Rule ⟨sampleGrants, ⟨10, 10, 60⟩⟩ sampleDatabase sampleCaller sampleChild := by
  have hrun : ((ConfiguredPolicy.new ⟨sampleGrants, ⟨10, 10, 60⟩⟩).map (fun policy =>
      decide (sampleChild ∈ Sql.visible sampleDatabase
        (policy.permissions sampleCaller .read).scopeJson none))) = some true := by
    decide +kernel
  obtain ⟨policy, hpolicy, hvisible⟩ := Option.map_eq_some_iff.mp hrun
  have hmem := of_decide_eq_true hvisible
  exact ⟨policy, hpolicy, hmem, (access_rule_agreement hpolicy (by decide +kernel)
    (by decide +kernel) sampleCaller sampleChild).1.mp hmem⟩

end Main

end Server
end Glaux
