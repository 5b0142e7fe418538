import Glaux.Server.Authorization.Storage
import Mathlib.Data.List.Pairwise

/-!
# One access rule

`Grants` states the rule over configured grants and `Origin` over provenance
rows.  `PermissionSet::allows` on the owning source, the JSON scope decoded in
SQL, and the three queries all decide the same thing.
-/

namespace Glaux
namespace Server

open Domain Library

namespace Database

/-- No two rows share a key of a unique constraint. -/
def Unique (db : Database) : Prop := db.keys.Nodup

/-- Every foreign key is met. -/
def Closed (db : Database) : Prop :=
  ∀ row ∈ db, ∀ requirement ∈ row.requires, db.meets requirement = true

theorem Unique.disjoint {db : Database} (h : db.Unique) :
    db.Pairwise (fun row row' => List.Disjoint row.keys row'.keys) :=
  (List.nodup_flatMap.mp h).2

theorem keys_ne_nil (row : Row) : row.keys ≠ [] := by
  cases row <;> simp [Row.keys]

theorem Unique.nodup {db : Database} (h : db.Unique) : db.Nodup := by
  refine h.disjoint.imp ?_
  rintro row row' hdisjoint rfl
  obtain ⟨key, hkey⟩ := List.exists_mem_of_ne_nil _ (keys_ne_nil row)
  exact hdisjoint hkey hkey

/-- Rows that share a key are the same row. -/
theorem Unique.eq_of_key {db : Database} (h : db.Unique) {row row' : Row} (key : Key)
    (hrow : row ∈ db) (hrow' : row' ∈ db) (hkey : key ∈ row.keys)
    (hkey' : key ∈ row'.keys) : row = row' := by
  by_contra hne
  have : Std.Symm (fun row row' : Row => List.Disjoint row.keys row'.keys) :=
    ⟨fun _ _ hdisjoint => hdisjoint.symm⟩
  exact h.disjoint.forall hrow hrow' hne hkey hkey'

end Database

section Tables

variable {db : Database}

/-- A table holds the rows of its own kind. -/
theorem mem_table {τ : Type} {table : Row → Option τ} {wrap : τ → Row} {t : τ}
    (h : ∀ row, table row = some t ↔ row = wrap t) :
    t ∈ db.filterMap table ↔ wrap t ∈ db := by
  simp only [List.mem_filterMap, h, exists_eq_right]

theorem mem_outgoingWork {row : OutgoingWork} :
    row ∈ db.outgoingWork ↔ Row.outgoingWork row ∈ db :=
  mem_table (by rintro ⟨⟩ <;> simp [Row.outgoingWork?])

theorem mem_serverAudit {row : ServerAudit} :
    row ∈ db.serverAudit ↔ Row.serverAudit row ∈ db :=
  mem_table (by rintro ⟨⟩ <;> simp [Row.serverAudit?])

theorem mem_systemParent {row : SystemParent} :
    row ∈ db.systemParent ↔ Row.systemParent row ∈ db :=
  mem_table (by rintro ⟨⟩ <;> simp [Row.systemParent?])

theorem mem_resourceIdentity {row : ResourceIdentity} :
    row ∈ db.resourceIdentity ↔ Row.resourceIdentity row ∈ db :=
  mem_table (by rintro ⟨⟩ <;> simp [Row.resourceIdentity?])

theorem mem_systemIdentity {row : SystemIdentity} :
    row ∈ db.systemIdentity ↔ Row.systemIdentity row ∈ db :=
  mem_table (by rintro ⟨⟩ <;> simp [Row.systemIdentity?])

theorem mem_sourceIdentity {row : SourceIdentityRow} :
    row ∈ db.sourceIdentity ↔ Row.sourceIdentity row ∈ db :=
  mem_table (by rintro ⟨⟩ <;> simp [Row.sourceIdentity?])

theorem mem_sourceArtifact {row : SourceArtifact} :
    row ∈ db.sourceArtifact ↔ Row.sourceArtifact row ∈ db :=
  mem_table (by rintro ⟨⟩ <;> simp [Row.sourceArtifact?])

theorem mem_systemWriteHead {row : SystemWriteHead} :
    row ∈ db.systemWriteHead ↔ Row.systemWriteHead row ∈ db :=
  mem_table (by rintro ⟨⟩ <;> simp [Row.systemWriteHead?])

theorem outgoingWork_nodup (h : db.Unique) : db.outgoingWork.Nodup := by
  refine List.Nodup.filterMap ?_ h.nodup
  intro row row' work hwork hwork'
  cases row <;> cases row' <;> simp_all [Row.outgoingWork?]

theorem serverAudit_nodup (h : db.Unique) : db.serverAudit.Nodup := by
  refine List.Nodup.filterMap ?_ h.nodup
  intro row row' audit haudit haudit'
  cases row <;> cases row' <;> simp_all [Row.serverAudit?]

end Tables

section Origins

variable {db : Database}

/-- `w` and `a` are accepted creation evidence for one System. -/
structure Origin (db : Database) (id : LocalId) (w : OutgoingWork) (a : ServerAudit) :
    Prop where
  work : Row.outgoingWork w ∈ db
  audit : Row.serverAudit a ∈ db
  system : w.systemId = id
  created : w.kind = .systemCreated
  auditId : a.id = w.auditId
  target : a.targetId = some w.systemId
  revision : a.revisionId = some w.revisionId
  accepted : a.outcome = .accepted
  operation : a.operation = .systemCreate

/-- The System has exactly one origin, and it has a source. -/
def OwnedBy (db : Database) (id : LocalId) (source : String) : Prop :=
  ∃ w a, Origin db id w a ∧ a.source = some source ∧
    ∀ w' a', Origin db id w' a' → w' = w ∧ a' = a

theorem mem_createdRows {w : OutgoingWork} {a : ServerAudit} :
    (w, a) ∈ Sql.createdRows db ↔ Origin db w.systemId w a := by
  simp only [Sql.createdRows, List.mem_flatMap, List.mem_map, List.mem_filter,
    decide_eq_true_eq, Prod.mk.injEq, mem_outgoingWork, mem_serverAudit]
  constructor
  · rintro ⟨w', hw', a', ⟨ha', h₁, h₂, h₃, h₄, h₅, h₆, h₇⟩, rfl, rfl⟩
    exact ⟨hw', ha', rfl, h₆, h₁, h₂, h₃, h₄, h₇⟩
  · rintro ⟨hw, ha, -, h₆, h₁, h₂, h₃, h₄, h₇⟩
    exact ⟨w, hw, a, ⟨ha, h₁, h₂, h₃, h₄, by simp [h₆, h₇, WorkKind.auditOperation],
      h₆, h₇⟩, rfl, rfl⟩

theorem createdRows_nodup (h : db.Unique) : (Sql.createdRows db).Nodup := by
  rw [Sql.createdRows, List.nodup_flatMap]
  constructor
  · intro w _
    refine List.Nodup.map ?_ ((serverAudit_nodup h).filter _)
    exact fun _ _ heq => (Prod.mk.inj heq).2
  · refine (outgoingWork_nodup h).imp ?_
    intro w w' hne pair hpair hpair'
    obtain ⟨a, -, rfl⟩ := List.mem_map.mp hpair
    obtain ⟨a', -, heq⟩ := List.mem_map.mp hpair'
    exact hne (Prod.mk.inj heq).1.symm

theorem mem_originRows {id : LocalId} {w : OutgoingWork} {a : ServerAudit} :
    (w, a) ∈ (Sql.createdRows db).filter (fun row => row.1.systemId = id) ↔
      Origin db id w a := by
  simp only [List.mem_filter, decide_eq_true_eq, mem_createdRows]
  constructor
  · rintro ⟨horigin, rfl⟩
    exact horigin
  · intro horigin
    obtain rfl := horigin.system
    exact ⟨horigin, rfl⟩

/-- `system_source` decides ownership. -/
theorem systemSource_eq_some (h : db.Unique) {id : LocalId} {source : String} :
    Sql.systemSource db id = some source ↔ OwnedBy db id source := by
  have hnodup := (createdRows_nodup h).filter (fun row => row.1.systemId = id)
  have hmem : ∀ w a, (w, a) ∈ (Sql.createdRows db).filter
      (fun row => row.1.systemId = id) ↔ Origin db id w a := fun _ _ => mem_originRows
  simp only [Sql.systemSource]
  generalize (Sql.createdRows db).filter (fun row => row.1.systemId = id) = rows
    at hnodup hmem ⊢
  constructor
  · intro hsource
    split at hsource
    next row =>
      refine ⟨row.1, row.2, (hmem _ _).mp (List.mem_singleton_self _), hsource, ?_⟩
      intro w' a' horigin
      have := (hmem w' a').mpr horigin
      exact Prod.mk.inj (List.mem_singleton.mp this)
    next => cases hsource
  · rintro ⟨w, a, horigin, hsource, honly⟩
    have hrows : rows = [(w, a)] := by
      refine List.perm_singleton.mp
        ((List.perm_ext_iff_of_nodup hnodup (List.nodup_singleton _)).mpr ?_)
      rintro ⟨w', a'⟩
      rw [hmem, List.mem_singleton]
      constructor
      · intro horigin'
        obtain ⟨rfl, rfl⟩ := honly w' a' horigin'
        rfl
      · rintro ⟨rfl, rfl⟩
        exact horigin
    rw [hrows]
    exact hsource

/-- The grouped `origins` and the single `system_source` are the same relation. -/
theorem mem_origins {id : LocalId} {source : String} :
    (id, source) ∈ Sql.origins db ↔ Sql.systemSource db id = some source := by
  simp only [Sql.origins, List.mem_filterMap, Prod.exists, Option.map_eq_some_iff,
    Prod.mk.injEq]
  simp only [Sql.systemSource]
  constructor
  · rintro ⟨id', w, a, halone, source', hsource, rfl, rfl⟩
    rw [mem_aloneBy] at halone
    rw [halone]
    exact hsource
  · intro hsource
    split at hsource
    next row hrows =>
      exact ⟨id, row.1, row.2, mem_aloneBy.mpr hrows, source, hsource, rfl, rfl⟩
    next => cases hsource

end Origins

section Scope

/-- A decoded grant keeps source and resources apart and in place. -/
theorem grants_scopeJson (set : PermissionSet) :
    Sql.grants set.scopeJson = set.grants.map (fun grant =>
      ⟨some grant.source, grant.resources.map (fun resources =>
        .array (resources.map (fun id => .string id.text)))⟩) := by
  simp only [PermissionSet.scopeJson, Sql.grants, List.map_map]
  refine List.map_congr_left ?_
  intro grant _
  cases hresources : grant.resources with
  | none => simp [Sql.grantOf, Json.get?, List.lookup_cons, hresources]
  | some resources => simp [Sql.grantOf, Json.get?, List.lookup_cons, hresources]

/-- Decoding loses nothing of a permission set. -/
theorem grants_scopeJson_injective {set set' : PermissionSet}
    (h : Sql.grants set.scopeJson = Sql.grants set'.scopeJson) : set = set' := by
  rw [grants_scopeJson, grants_scopeJson] at h
  have hinj : Function.Injective (fun grant : ResourceGrant =>
      (⟨some grant.source, grant.resources.map (fun resources =>
        .array (resources.map (fun id => .string id.text)))⟩ : Sql.Grant)) := by
    rintro ⟨source, resources⟩ ⟨source', resources'⟩ heq
    obtain ⟨hsource, hresources⟩ := Sql.Grant.mk.inj heq
    obtain rfl := Option.some.inj hsource
    have htext : Function.Injective (fun id : LocalId => Json.string id.text) :=
      fun _ _ h => LocalId.ext_text (Json.string.inj h)
    have harray : Function.Injective (fun ids : List LocalId =>
        Json.array (ids.map (fun id => .string id.text))) :=
      fun _ _ h => List.map_injective_iff.mpr htext (Json.array.inj h)
    have hsame : resources = resources' := Option.map_injective harray hresources
    rw [hsame]
  obtain ⟨grants⟩ := set
  obtain ⟨grants'⟩ := set'
  exact congrArg PermissionSet.mk (List.map_injective_iff.mpr hinj h)

theorem containsText_array (ids : List LocalId) (id : LocalId) :
    Sql.containsText (.array (ids.map (fun id => .string id.text))) id.text =
      ids.contains id := by
  simp only [Sql.containsText, List.any_map]
  rw [← List.elem_eq_contains, Bool.eq_iff_iff]
  simp only [List.any_eq_true, Function.comp_apply, beq_iff_eq, List.elem_iff]
  constructor
  · rintro ⟨id', hid', heq⟩
    exact LocalId.ext_text heq ▸ hid'
  · exact fun hid => ⟨id, hid, rfl⟩

/-- The SQL grant test over the decoded scope is `PermissionSet::allows`. -/
theorem any_grantCovers (set : PermissionSet) (source : String) (id : LocalId) :
    (Sql.grants set.scopeJson).any (fun grant => Sql.grantCovers grant source id) =
      set.allows source id := by
  rw [grants_scopeJson, List.any_map, PermissionSet.allows]
  congr 1
  funext grant
  obtain ⟨source', resources⟩ := grant
  cases resources with
  | none => simp [Sql.grantCovers]
  | some resources =>
      have h := containsText_array resources id
      simp [Sql.grantCovers, h]

variable {db : Database} {set : PermissionSet}

/-- **Readable.**  The SQL predicate agrees with `allows` on the owning source. -/
theorem mem_readable {id : LocalId} :
    id ∈ Sql.readable db set.scopeJson ↔
      ∃ source, Sql.systemSource db id = some source ∧ set.allows source id = true := by
  simp only [Sql.readable, List.mem_map, List.mem_filter, Prod.exists, any_grantCovers,
    mem_origins]
  constructor
  · rintro ⟨id', source, ⟨hsource, hallows⟩, rfl⟩
    exact ⟨source, hsource, hallows⟩
  · rintro ⟨source, hsource, hallows⟩
    exact ⟨id, source, ⟨hsource, hallows⟩, rfl⟩

theorem mem_visible {id : LocalId} {exact : Option LocalId} :
    id ∈ Sql.visible db set.scopeJson exact ↔
      id ∈ Sql.readable db set.scopeJson ∧
      (∀ parent, Row.systemParent ⟨id, parent⟩ ∈ db →
        parent ∈ Sql.readable db set.scopeJson) ∧
      (∀ only, exact = some only → id = only) := by
  simp only [Sql.visible, List.mem_filter, Bool.and_eq_true, Bool.not_eq_true',
    List.any_eq_false, decide_eq_true_eq, not_and, mem_systemParent]
  refine and_congr Iff.rfl (and_congr ?_ ?_)
  · constructor
    · intro h parent hparent
      simpa using h _ hparent rfl
    · rintro h ⟨child, parent⟩ hparent rfl
      simpa using h parent hparent
  · cases exact <;> simp

end Scope

section Configured

/-- One configured grant covers the caller, the action, the source and the ID
all at once. -/
structure Grants (grant : GrantConfig) (caller : CallerContext) (action : Action)
    (source : String) (id : LocalId) : Prop where
  issuer : grant.issuer = caller.issuer
  action : action ∈ grant.actions
  holder : grant.subject = some caller.subject ∨
    ∃ group ∈ caller.groups, grant.group = some group
  source : grant.source = source
  resource : ∀ resources, grant.resources = some resources → id.text ∈ resources

/-- What `ConfiguredPolicy::new` keeps of one grant. -/
def KeptAs (grant : GrantConfig) (kept : PolicyGrant) : Prop :=
  kept.issuer = grant.issuer ∧ kept.subject = grant.subject ∧ kept.group = grant.group ∧
    kept.actions = grant.actions ∧ kept.scope.source = grant.source ∧
    (∀ resources, grant.resources = some resources →
      ∃ ids, kept.scope.resources = some ids ∧
        ∀ id : LocalId, id ∈ ids ↔ id.text ∈ resources) ∧
    (grant.resources = none → kept.scope.resources = none)

theorem mem_parseIds :
    ∀ {values : List String} {ids ids' : List LocalId},
      ConfiguredPolicy.parseIds values ids = some ids' →
      ∀ id : LocalId, id ∈ ids' ↔ id ∈ ids ∨ id.text ∈ values
  | [], ids, ids', h, id => by
      obtain rfl : ids = ids' := by simpa [ConfiguredPolicy.parseIds] using h
      simp
  | value :: values, ids, ids', h, id => by
      simp only [ConfiguredPolicy.parseIds] at h
      split at h
      next => cases h
      next parsed hparsed =>
        split at h
        next => cases h
        next =>
          have htext : parsed.text = value := by
            simp only [LocalId.parse] at hparsed
            split at hparsed
            next => rw [← Option.some.inj hparsed]
            next => cases hparsed
          have hvalue : id = parsed ↔ id.text = value := by
            rw [← htext]
            exact ⟨fun heq => heq ▸ rfl, LocalId.ext_text⟩
          rw [mem_parseIds h id, List.mem_append, List.mem_singleton, List.mem_cons,
            hvalue, or_assoc]

theorem addGrant_keeps {state state' : List PolicyGrant × Nat} {grant : GrantConfig}
    (h : ConfiguredPolicy.addGrant state grant = some state') :
    ∃ kept, state'.1 = state.1 ++ [kept] ∧ KeptAs grant kept := by
  simp only [ConfiguredPolicy.addGrant] at h
  split at h
  next => cases h
  next =>
    split at h
    next hresources =>
      obtain rfl := Option.some.inj h
      exact ⟨_, rfl, rfl, rfl, rfl, rfl, rfl, by simp [hresources], fun _ => rfl⟩
    next values hresources =>
      split at h
      next => cases h
      next =>
        obtain ⟨ids, hids, rfl⟩ := Option.map_eq_some_iff.mp h
        refine ⟨_, rfl, rfl, rfl, rfl, rfl, rfl, ?_, by simp [hresources]⟩
        rintro resources hsome
        obtain rfl : values = resources := by simpa [hresources] using hsome
        exact ⟨ids, rfl, fun id => by simpa using mem_parseIds hids id⟩

theorem foldlM_addGrant :
    ∀ {configs : List GrantConfig} {state state' : List PolicyGrant × Nat},
      configs.foldlM ConfiguredPolicy.addGrant state = some state' →
      ∃ kept, state'.1 = state.1 ++ kept ∧ List.Forall₂ KeptAs configs kept
  | [], state, state', h => by
      obtain rfl : state = state' := by simpa using h
      exact ⟨[], by simp, .nil⟩
  | grant :: configs, state, state', h => by
      rw [List.foldlM_cons] at h
      obtain ⟨state₁, hgrant, hrest⟩ := Option.bind_eq_some_iff.mp h
      obtain ⟨kept, hkept, hkeeps⟩ := addGrant_keeps hgrant
      obtain ⟨rest, hrest', hall⟩ := foldlM_addGrant hrest
      exact ⟨kept :: rest, by rw [hrest', hkept]; simp, .cons hkeeps hall⟩

/-- An accepted configuration keeps its grants one by one. -/
theorem new_keeps {config : PolicyConfig} {policy : ConfiguredPolicy}
    (h : ConfiguredPolicy.new config = some policy) :
    List.Forall₂ KeptAs config.grants policy.grants := by
  simp only [ConfiguredPolicy.new, Option.bind_eq_bind] at h
  obtain ⟨limits, -, h⟩ := Option.bind_eq_some_iff.mp h
  split at h
  next => cases h
  next =>
    obtain ⟨state, hfold, h⟩ := Option.bind_eq_some_iff.mp h
    obtain rfl := Option.some.inj h
    obtain ⟨kept, hkept, hall⟩ := foldlM_addGrant hfold
    simpa [hkept] using hall

theorem grantMatches_iff {grant : GrantConfig} {kept : PolicyGrant} (h : KeptAs grant kept)
    {caller : CallerContext} {action : Action} {source : String} {id : LocalId} :
    (ConfiguredPolicy.grantMatches caller action kept = true ∧
      (kept.scope.source == source &&
        match kept.scope.resources with
        | none => true
        | some resources => resources.contains id) = true) ↔
    Grants grant caller action source id := by
  obtain ⟨hissuer, hsubject, hgroup, hactions, hsource, hlisted, hfree⟩ := h
  have hresource : (match kept.scope.resources with
        | none => true
        | some resources => resources.contains id) = true ↔
      ∀ resources, grant.resources = some resources → id.text ∈ resources := by
    cases hresources : grant.resources with
    | none => simp [hfree hresources]
    | some resources =>
        obtain ⟨ids, hids, hmem⟩ := hlisted resources hresources
        simp [hids, hmem]
  simp only [ConfiguredPolicy.grantMatches, Bool.and_eq_true, Bool.or_eq_true, beq_iff_eq,
    hresource, hissuer, hsubject, hgroup, hactions, hsource]
  simp only [List.contains_eq_mem, decide_eq_true_eq, Option.any_eq_true_iff_get]
  constructor
  · rintro ⟨⟨⟨h₁, h₂⟩, h₃⟩, h₄, h₅⟩
    refine ⟨h₁, h₂, h₃.imp (fun h => h) ?_, h₄, h₅⟩
    rintro ⟨hsome, hgroup⟩
    exact ⟨_, hgroup, (Option.some_get hsome).symm⟩
  · rintro ⟨h₁, h₂, h₃, h₄, h₅⟩
    refine ⟨⟨⟨h₁, h₂⟩, h₃.imp (fun h => h) ?_⟩, h₄, h₅⟩
    rintro ⟨group, hgroup, hsome⟩
    exact ⟨by simp [hsome], by simpa [hsome] using hgroup⟩

/-- `allows` on a caller's permissions is the rule over configured grants. -/
theorem allows_permissions {config : PolicyConfig} {policy : ConfiguredPolicy}
    (h : ConfiguredPolicy.new config = some policy) {caller : CallerContext}
    {action : Action} {source : String} {id : LocalId} :
    (policy.permissions caller action).allows source id = true ↔
      ∃ grant ∈ config.grants, Grants grant caller action source id := by
  have hany : (policy.permissions caller action).allows source id = true ↔
      ∃ kept ∈ policy.grants, ConfiguredPolicy.grantMatches caller action kept = true ∧
        (kept.scope.source == source &&
          match kept.scope.resources with
          | none => true
          | some resources => resources.contains id) = true := by
    rw [PermissionSet.allows, ConfiguredPolicy.permissions, List.any_map, List.any_filter,
      List.any_eq_true]
    exact exists_congr fun kept => and_congr_right fun _ => Bool.and_eq_true_iff
  rw [hany]
  refine (exists_mem_iff_of_forall₂ ?_ (new_keeps h)).symm
  exact fun grant kept hkeep => (grantMatches_iff hkeep).symm

end Configured

end Server
end Glaux
