import Glaux.Library.Outcome
import Glaux.Server.Authorization.OneRule
import Glaux.Server.Storage.Readings

/-!
# Pages of visible Systems

What the row loop of `list_systems` and the row of `current_system` amount to,
said of Systems and not of rows: a page is the records of the first visible
Systems in ID order, each complete, with the number of all visible ones.  Two
databases that hold the same of the Systems a scope may see answer alike.
-/

namespace Glaux
namespace Server

open Domain Library

section Records

variable (isUri : String → Bool) (db : Database)

/-- One alias as it is read. -/
def sourceOf (row : SourceIdentityRow) : Except StorageError SourceIdentity := do
  let authority ← parseStored (SourceText.parse row.authority)
  let identifier ← parseStored (SourceText.parse row.identifier)
  return ⟨authority, identifier⟩

/-- What the identity rows of one System give, before its aliases. -/
def bareRecord (id : LocalId) : Except StorageError SystemRecord := do
  let uid ← parseStored (Uid.parse isUri (← tryGet ((Sql.resource? db id).map (·.uid))))
  let label ← tryGet ((Sql.system? db id).map (·.label))
  return ⟨id, uid, label, [], (Sql.parent? db id).map (·.parentId)⟩

/-- The record of one System, with all its aliases. -/
def recordOf (id : LocalId) : Except StorageError SystemRecord := do
  let record ← bareRecord isUri db id
  let sources ← (Sql.aliases db id).mapM sourceOf
  return { record with sources := sources }

/-- The page of a scope. -/
def pageOf (scope : Json) (exact : Option LocalId) (limit : Nat) :
    Except StorageError SystemPage := do
  let items ← (Sql.selected db scope exact limit).mapM (recordOf isUri db)
  return ⟨items, (Sql.visible db scope exact).length⟩

/-- The artifact the head of a System names. -/
def artifact? (id : LocalId) : Option SourceArtifact :=
  (db.systemWriteHead.filter (fun h => h.systemId = id)).head?.bind (fun h =>
    (db.sourceArtifact.filter (fun a => a.id = h.artifactId)).head?)

/-- The current representation of one System. -/
def currentOf (id : LocalId) : Except StorageError CurrentSystem :=
  match artifact? db id with
  | none => .error .uninitializedRevision
  | some artifact => do
      let record ← bareRecord isUri db id
      return ⟨id, record.uid, record.label, record.parent, artifact.mediaType, artifact.bytes⟩

end Records

section Loop

variable {isUri : String → Bool} {db : Database} {number : Nat} {id : LocalId}

/-- The alias of one row goes to the record it belongs to. -/
theorem addAlias_record (items : List SystemRecord) (record : SystemRecord)
    (source : SourceIdentityRow) :
    addAlias (items ++ [record]) (Sql.listRow db number id (some source)) =
      (sourceOf source).map (fun found =>
        items ++ [{ record with sources := record.sources ++ [found] }]) := by
  simp only [addAlias, Sql.listRow, Option.map_some, List.getLast?_concat, parseStored,
    List.dropLast_concat, sourceOf, tryGet, ok_bind]
  cases SourceText.parse source.authority with
  | none => rfl
  | some authority =>
      simp only [ok_bind]
      cases SourceText.parse source.identifier <;> rfl

/-- Rows of the record under way. -/
theorem foldRow_alias {r : ResourceIdentity} (hresource : Sql.resource? db id = some r)
    (hid : r.id = id) (items : List SystemRecord) {record : SystemRecord} (hrecord : record.id = id)
    (source : SourceIdentityRow) :
    foldRow isUri (items ++ [record]) (Sql.listRow db number id (some source)) =
      (sourceOf source).map (fun found =>
        items ++ [{ record with sources := record.sources ++ [found] }]) := by
  have hrow : (Sql.listRow db number id (some source)).id = some id := by
    simp [Sql.listRow, hresource, hid]
  have hstart : startRecord isUri (items ++ [record]) id (Sql.listRow db number id (some source)) =
      .ok (items ++ [record]) := by
    simp [startRecord, hrecord]
  rw [foldRow, hrow]
  simp only [hstart]
  exact addAlias_record items record source

/-- The aliases of one System, row by row. -/
theorem foldlM_aliases {r : ResourceIdentity} (hresource : Sql.resource? db id = some r)
    (hid : r.id = id) (items : List SystemRecord) :
    ∀ (sources : List SourceIdentityRow) (record : SystemRecord), record.id = id →
      (sources.map (fun source => Sql.listRow db number id (some source))).foldlM (foldRow isUri)
        (items ++ [record]) =
      (sources.mapM sourceOf).map (fun aliases =>
        items ++ [{ record with sources := record.sources ++ aliases }])
  | [], record, _ => by simp [pure, Except.pure, Except.map]
  | source :: sources, record, hrecord => by
      rw [List.map_cons, List.foldlM_cons, foldRow_alias hresource hid items hrecord,
        List.mapM_cons]
      cases sourceOf source with
      | error e => rfl
      | ok found =>
          have hrest := foldlM_aliases hresource hid items sources
            { record with sources := record.sources ++ [found] } hrecord
          have hmap : (Except.map (fun found =>
              items ++ [{ record with sources := record.sources ++ [found] }])
              (.ok found : Except StorageError SourceIdentity)) =
              .ok (items ++ [{ record with sources := record.sources ++ [found] }]) := rfl
          rw [hmap, ok_bind, hrest]
          cases sources.mapM sourceOf with
          | error e => rfl
          | ok aliases => simp [Except.map, pure, Except.pure, bind, Except.bind]

theorem bareRecord_id {record : SystemRecord} (h : bareRecord isUri db id = .ok record) :
    record.id = id := by
  obtain ⟨text, -, h⟩ := bind_eq_ok.mp h
  obtain ⟨uid, -, h⟩ := bind_eq_ok.mp h
  obtain ⟨label, -, h⟩ := bind_eq_ok.mp h
  exact (Except.ok.inj h) ▸ rfl

theorem bareRecord_sources {record : SystemRecord} (h : bareRecord isUri db id = .ok record) :
    record.sources = [] := by
  obtain ⟨text, -, h⟩ := bind_eq_ok.mp h
  obtain ⟨uid, -, h⟩ := bind_eq_ok.mp h
  obtain ⟨label, -, h⟩ := bind_eq_ok.mp h
  exact (Except.ok.inj h) ▸ rfl

/-- A row of another System than the last record starts a record. -/
theorem startRecord_new {items : List SystemRecord}
    (hlast : ∀ record ∈ items.getLast?, record.id ≠ id) (column : Option SourceIdentityRow) :
    startRecord isUri items id (Sql.listRow db number id column) =
      (bareRecord isUri db id).map (fun record => items ++ [record]) := by
  have hnew : items.getLast?.any (fun record => record.id = id) = false := by
    cases hfound : items.getLast? with
    | none => rfl
    | some record => simpa using hlast record (by simp [hfound])
  rw [startRecord, hnew, if_neg (by simp), bareRecord]
  simp only [Sql.listRow]
  cases tryGet ((Sql.resource? db id).map (·.uid)) with
  | error e => rfl
  | ok text =>
      simp only [ok_bind]
      cases parseStored (Uid.parse isUri text) with
      | error e => rfl
      | ok uid =>
          simp only [ok_bind]
          cases tryGet ((Sql.system? db id).map (·.label)) <;> rfl

/-- The rows of one System add its record. -/
theorem foldlM_block {r : ResourceIdentity} (hresource : Sql.resource? db id = some r)
    (hid : r.id = id) {items : List SystemRecord}
    (hlast : ∀ record ∈ items.getLast?, record.id ≠ id) :
    (Sql.block db number id).foldlM (foldRow isUri) items =
      (recordOf isUri db id).map (fun record => items ++ [record]) := by
  have hrow : ∀ column, foldRow isUri items (Sql.listRow db number id column) =
      ((bareRecord isUri db id).map (fun record => items ++ [record])) >>=
        fun items => addAlias items (Sql.listRow db number id column) := by
    intro column
    have hsome : (Sql.listRow db number id column).id = some id := by
      simp [Sql.listRow, hresource, hid]
    rw [foldRow, hsome, ← startRecord_new hlast column]
  rw [Sql.block, Sql.aliasColumns, recordOf]
  cases hbare : bareRecord isUri db id with
  | error e =>
      -- the first row, of which there is always one, stops the loop
      cases Sql.aliases db id with
      | nil =>
          rw [List.map_cons, List.foldlM_cons, hrow, hbare]
          rfl
      | cons a rest =>
          dsimp only
          rw [List.map_cons, List.map_cons, List.foldlM_cons, hrow, hbare]
          rfl
  | ok record =>
      have hrecord := bareRecord_id hbare
      have hsources := bareRecord_sources hbare
      cases Sql.aliases db id with
      | nil =>
          rw [List.map_cons, List.foldlM_cons, hrow, hbare]
          obtain ⟨i, uid, label, sources, parent⟩ := record
          obtain rfl : sources = [] := hsources
          rfl
      | cons a rest =>
          have hfirst : foldRow isUri items (Sql.listRow db number id (some a)) =
              foldRow isUri (items ++ [record]) (Sql.listRow db number id (some a)) := by
            rw [hrow, hbare, foldRow_alias hresource hid items hrecord]
            exact addAlias_record items record a
          have hall : ((a :: rest).map (fun source =>
                Sql.listRow db number id (some source))).foldlM (foldRow isUri) (items ++ [record]) =
              ((a :: rest).mapM sourceOf).map (fun aliases =>
                items ++ [{ record with sources := record.sources ++ aliases }]) :=
            foldlM_aliases hresource hid items (a :: rest) record hrecord
          rw [List.map_cons, List.foldlM_cons] at hall
          simp only [List.map_cons, List.map_map, List.foldlM_cons]
          rw [hfirst]
          refine hall.trans ?_
          rw [hsources]
          simp only [ok_bind, List.nil_append]
          cases (a :: rest).mapM sourceOf <;> rfl

theorem recordOf_id {record : SystemRecord} (h : recordOf isUri db id = .ok record) :
    record.id = id := by
  obtain ⟨bare, hbare, h⟩ := bind_eq_ok.mp h
  obtain ⟨sources, -, h⟩ := bind_eq_ok.mp h
  obtain rfl := Except.ok.inj h
  exact (bareRecord_id hbare : bare.id = id)

/-- Blocks of distinct Systems add one record each. -/
theorem foldlM_blocks :
    ∀ {ids : List LocalId} {items : List SystemRecord},
      (∀ id ∈ ids, ∃ r, Sql.resource? db id = some r ∧ r.id = id) → ids.Nodup →
      (∀ record ∈ items.getLast?, record.id ∉ ids) →
      (ids.flatMap (Sql.block db number)).foldlM (foldRow isUri) items =
        (ids.mapM (recordOf isUri db)).map (fun records => items ++ records)
  | [], items, _, _, _ => by simp [Except.map]
  | id :: ids, items, hresource, hnodup, hlast => by
      obtain ⟨r, hr, hid⟩ := hresource id List.mem_cons_self
      obtain ⟨hfresh, hnodup⟩ := List.nodup_cons.mp hnodup
      have hhead : ∀ record ∈ items.getLast?, record.id ≠ id :=
        fun record hmem heq => hlast record hmem (heq ▸ List.mem_cons_self)
      rw [List.flatMap_cons, List.foldlM_append, foldlM_block hr hid hhead, List.mapM_cons]
      cases hrecord : recordOf isUri db id with
      | error e => rfl
      | ok record =>
          have hrest : (ids.flatMap (Sql.block db number)).foldlM (foldRow isUri)
              (items ++ [record]) = (ids.mapM (recordOf isUri db)).map (fun records =>
                items ++ [record] ++ records) := foldlM_blocks
            (fun id hmem => hresource id (List.mem_cons_of_mem _ hmem)) hnodup (by
              intro last hlast
              obtain rfl : record = last := by simpa using hlast
              rwa [recordOf_id hrecord])
          simp only [Except.map, ok_bind]
          rw [hrest]
          cases ids.mapM (recordOf isUri db) with
          | error e => rfl
          | ok records => simp [Except.map]

end Loop

section Page

variable {isUri : String → Bool} {db : Database} {scope : Json} {exact : Option LocalId}
  {limit : Nat}

/-- Visible Systems have identity rows. -/
theorem visible_identity (hunique : db.Unique) (hclosed : db.Closed) {id : LocalId}
    (h : id ∈ Sql.visible db scope exact) :
    (∃ r, Sql.resource? db id = some r ∧ r.id = id) ∧
      ∃ s, Sql.system? db id = some s ∧ s.id = id := by
  obtain ⟨label, hlabel⟩ := meets_system (mem_visible_system hunique hclosed h).2
  obtain ⟨uid, huid⟩ := meets_resource (hclosed _ hlabel _ (List.mem_cons_self ..))
  refine ⟨resource?_isSome huid, ⟨id, label⟩, ?_, rfl⟩
  exact (Sql.system?_eq_some hunique).mpr ⟨mem_systemIdentity.mpr hlabel, rfl⟩

theorem selected_visible {id : LocalId} (h : id ∈ Sql.selected db scope exact limit) :
    id ∈ Sql.visible db scope exact :=
  mem_sortBy.mp (List.mem_of_mem_take h)

theorem selected_nodup : (Sql.selected db scope exact limit).Nodup :=
  List.Nodup.sublist (List.take_sublist _ _)
    ((sortBy_perm (fun id : LocalId => id.text) _).nodup_iff.mpr Sql.visible_nodup)

/-- **Pages.**  The rows of the list query are read as the records of the selected Systems, in
order, and the number of visible ones. -/
theorem readPage_listRows (hunique : db.Unique) (hclosed : db.Closed) :
    readPage isUri (Sql.listRows db scope exact limit) = pageOf isUri db scope exact limit := by
  have hresource : ∀ id ∈ Sql.selected db scope exact limit,
      ∃ r, Sql.resource? db id = some r ∧ r.id = id :=
    fun id hid => (visible_identity hunique hclosed (selected_visible hid)).1
  have hfold : ((Sql.selected db scope exact limit).flatMap
        (Sql.block db (Sql.visible db scope exact).length)).foldlM (foldRow isUri) [] =
      ((Sql.selected db scope exact limit).mapM (recordOf isUri db)).map (fun records =>
        [] ++ records) :=
    foldlM_blocks hresource selected_nodup (by simp)
  rw [Sql.listRows_eq hunique, pageOf]
  cases hselected : Sql.selected db scope exact limit with
  | nil => rfl
  | cons first rest =>
      rw [hselected] at hfold
      have hhead : ((first :: rest).flatMap
          (Sql.block db (Sql.visible db scope exact).length)).head? =
          ((Sql.aliasColumns db first).map (Sql.listRow db
            (Sql.visible db scope exact).length first)).head? := by
        obtain ⟨column, rest', hcolumns⟩ := List.exists_cons_of_ne_nil (aliasColumns_ne_nil db first)
        simp [Sql.block, hcolumns]
      obtain ⟨column, rest', hcolumns⟩ := List.exists_cons_of_ne_nil (aliasColumns_ne_nil db first)
      rw [readPage, hhead, hcolumns, hfold]
      cases (first :: rest).mapM (recordOf isUri db) <;> rfl

theorem systemWriteHead_filter (h : db.Unique) (id : LocalId) :
    (db.systemWriteHead.filter (fun h => h.systemId = id)).length ≤ 1 := by
  refine h.filter_le_one (.head id) ?_ ?_
  · intro row row' t ht ht'
    cases row <;> cases row' <;> simp_all [Row.systemWriteHead?]
  · intro row t ht hid
    cases row <;> simp_all [Row.systemWriteHead?, Row.keys]

theorem sourceArtifact_filter (h : db.Unique) (id : ArtifactId) :
    (db.sourceArtifact.filter (fun a => a.id = id)).length ≤ 1 := by
  refine h.filter_le_one (.artifact id) ?_ ?_
  · intro row row' t ht ht'
    cases row <;> cases row' <;> simp_all [Row.sourceArtifact?]
  · intro row t ht hid
    cases row <;> simp_all [Row.sourceArtifact?, Row.keys]

theorem filter_eq_singleton {α : Type} {l : List α} {p : α → Bool} {a : α}
    (hone : (l.filter p).length ≤ 1) (ha : (l.filter p).head? = some a) : l.filter p = [a] := by
  cases hfound : l.filter p with
  | nil => simp [hfound] at ha
  | cons b rest =>
      rw [hfound] at ha hone
      obtain rfl := Option.some.inj ha
      obtain rfl : rest = [] := by simpa using hone
      rfl

/-- The current-representation query has one row for a visible System. -/
theorem currentRows_eq (hunique : db.Unique) (hclosed : db.Closed) {id : LocalId} :
    Sql.currentRows db scope id =
      (Sql.visible db scope (some id)).flatMap (fun id =>
        (Sql.resource? db id).toList.flatMap (fun r => (Sql.system? db id).toList.map (fun s =>
          { id := r.id
            uid := r.uid
            label := s.label
            parent := (Sql.parent? db id).map (·.parentId)
            mediaType := (artifact? db id).map (·.mediaType)
            bytes := (artifact? db id).map (·.bytes) }))) := by
  refine List.flatMap_congr fun id hid => ?_
  obtain ⟨⟨r, hr, -⟩, s, hs, -⟩ := visible_identity hunique hclosed hid
  have hhead : leftJoin [id] db.systemWriteHead (fun id h => h.systemId = id) =
      [(id, (db.systemWriteHead.filter (fun h => h.systemId = id)).head?)] :=
    leftJoin_eq_map (fun id _ => systemWriteHead_filter hunique id)
  have hparent : leftJoin [id] db.systemParent (fun id p => p.childId = id) =
      [(id, Sql.parent? db id)] :=
    leftJoin_eq_map (fun id _ => Sql.systemParent_filter hunique id)
  have hartifact : ∀ head : Option SystemWriteHead,
      leftJoin [head] db.sourceArtifact (fun h a => h.any (fun h => a.id = h.artifactId)) =
        [(head, head.bind (fun h => (db.sourceArtifact.filter (fun a => a.id = h.artifactId)).head?))] := by
    intro head
    cases head with
    | none => simp [leftJoin]
    | some h => exact leftJoin_eq_map (fun head hmem => by
        obtain rfl := List.mem_singleton.mp hmem
        simpa using sourceArtifact_filter hunique h.artifactId)
  rw [filter_eq_singleton (Sql.resourceIdentity_filter hunique id) hr,
    filter_eq_singleton (Sql.systemIdentity_filter hunique id) hs, hhead, hparent, hr, hs]
  simp only [List.flatMap_cons, List.flatMap_nil, List.append_nil, hartifact, List.map_cons,
    List.map_nil, Option.toList_some]
  rfl

/-- **Current representation.**  The row is read as the System's, if it is visible. -/
theorem readCurrent_currentRows (hunique : db.Unique) (hclosed : db.Closed) {id : LocalId} :
    readCurrent isUri (Sql.currentRows db scope id) =
      if id ∈ Sql.visible db scope (some id) then (currentOf isUri db id).map some
      else .ok none := by
  rw [currentRows_eq hunique hclosed]
  split
  next hid =>
    have honly : ∀ other ∈ Sql.visible db scope (some id), other = id := fun other hmem =>
      (mem_visible_system hunique hclosed hmem).1 id rfl
    have hlength : (Sql.visible db scope (some id)).length = 1 :=
      le_antisymm (length_le_one Sql.visible_nodup
        (fun a ha b hb => (honly a ha).trans (honly b hb).symm)) (List.length_pos_of_mem hid)
    obtain ⟨other, hlist⟩ := List.length_eq_one_iff.mp hlength
    obtain rfl : id = other := by simpa [hlist] using hid
    obtain ⟨⟨r, hr, hrid⟩, s, hs, -⟩ := visible_identity hunique hclosed hid
    rw [hlist, List.flatMap_singleton, hr, hs, currentOf]
    cases artifact? db id with
    | none => rfl
    | some artifact =>
        simp only [bareRecord, hr, hs, Option.map_some, tryGet, ok_bind, Option.toList_some,
          List.flatMap_cons, List.flatMap_nil, List.map_cons, List.map_nil, List.append_nil,
          readCurrent, List.head?_cons]
        cases parseStored (Uid.parse isUri r.uid) with
        | error e => rfl
        | ok uid => rw [← hrid]; rfl
  next hid =>
    have hlist : Sql.visible db scope (some id) = [] := by
      refine List.eq_nil_iff_forall_not_mem.mpr fun other hmem => ?_
      exact hid ((mem_visible_system hunique hclosed hmem).1 id rfl ▸ hmem)
    rw [hlist]
    rfl

/-- With an exact ID the visible Systems are those that match it. -/
theorem mem_visible_exact {id : LocalId} :
    id ∈ Sql.visible db scope exact ↔
      id ∈ Sql.visible db scope none ∧ ∀ only, exact = some only → id = only := by
  cases exact with
  | none => simp
  | some only => simp [Sql.visible, and_assoc]

end Page

section View

theorem mapM_congr {ε α β : Type} {f g : α → Except ε β} :
    ∀ {l : List α}, (∀ a ∈ l, f a = g a) → l.mapM f = l.mapM g
  | [], _ => rfl
  | a :: l, h => by
      rw [List.mapM_cons, List.mapM_cons, h a List.mem_cons_self,
        mapM_congr fun b hb => h b (List.mem_cons_of_mem _ hb)]

/-- Two databases hold the same of a System: its identity, its parent link, its aliases and its
head artifact. -/
structure SameSystem (db db' : Database) (id : LocalId) : Prop where
  resource : Sql.resource? db id = Sql.resource? db' id
  system : Sql.system? db id = Sql.system? db' id
  parent : Sql.parent? db id = Sql.parent? db' id
  sources : ∀ a : SourceIdentityRow, a.resourceId = id →
    (a ∈ db.sourceIdentity ↔ a ∈ db'.sourceIdentity)
  artifact : artifact? db id = artifact? db' id

/-- Two databases show a scope the same Systems. -/
structure SameView (db db' : Database) (scope : Json) : Prop where
  visible : ∀ id, id ∈ Sql.visible db scope none ↔ id ∈ Sql.visible db' scope none
  same : ∀ id ∈ Sql.visible db scope none, SameSystem db db' id

variable {db db' : Database} {scope : Json} {isUri : String → Bool}

theorem SameSystem.aliases (hunique : db.Unique) (hunique' : db'.Unique) {id : LocalId}
    (h : SameSystem db db' id) : Sql.aliases db id = Sql.aliases db' id := by
  have hnodup : ∀ {db : Database}, db.Unique →
      (db.sourceIdentity.filter (fun a => a.resourceId = id)).Nodup := by
    intro db hunique
    refine List.Nodup.filter _ (List.Nodup.filterMap ?_ hunique.nodup)
    intro row row' t ht ht'
    cases row <;> cases row' <;> simp_all [Row.sourceIdentity?]
  have hperm : (db.sourceIdentity.filter (fun a => a.resourceId = id)).Perm
      (db'.sourceIdentity.filter (fun a => a.resourceId = id)) := by
    refine (List.perm_ext_iff_of_nodup (hnodup hunique) (hnodup hunique')).mpr fun a => ?_
    simp only [List.mem_filter, decide_eq_true_eq]
    exact and_congr_left fun ha => h.sources a ha
  refine sortBy_congr hperm fun a ha b hb hkey => ?_
  obtain ⟨hauthority, hidentifier⟩ := Prod.mk.inj (toLex.injective hkey)
  exact Sql.sourceIdentity_ext hunique (List.mem_filter.mp ha).1 (List.mem_filter.mp hb).1
    hauthority hidentifier

theorem SameSystem.bareRecord {id : LocalId} (h : SameSystem db db' id) :
    bareRecord isUri db id = bareRecord isUri db' id := by
  rw [Server.bareRecord, Server.bareRecord, h.resource, h.system, h.parent]

theorem SameSystem.recordOf (hunique : db.Unique) (hunique' : db'.Unique) {id : LocalId}
    (h : SameSystem db db' id) : recordOf isUri db id = recordOf isUri db' id := by
  rw [Server.recordOf, Server.recordOf, h.bareRecord, h.aliases hunique hunique']

theorem SameSystem.currentOf {id : LocalId} (h : SameSystem db db' id) :
    currentOf isUri db id = currentOf isUri db' id := by
  rw [Server.currentOf, Server.currentOf, h.artifact, h.bareRecord]

theorem SameView.perm (h : SameView db db' scope) (exact : Option LocalId) :
    (Sql.visible db scope exact).Perm (Sql.visible db' scope exact) := by
  refine (List.perm_ext_iff_of_nodup Sql.visible_nodup Sql.visible_nodup).mpr fun id => ?_
  exact mem_visible_exact.trans ((and_congr_left' (h.visible id)).trans mem_visible_exact.symm)

theorem SameView.selected (h : SameView db db' scope) (exact : Option LocalId) (limit : Nat) :
    Sql.selected db scope exact limit = Sql.selected db' scope exact limit := by
  have hsorted : sortBy (fun id : LocalId => id.text) (Sql.visible db scope exact) =
      sortBy (fun id : LocalId => id.text) (Sql.visible db' scope exact) :=
    sortBy_congr (h.perm exact) (fun a _ b _ hab => LocalId.ext_text hab)
  rw [Sql.selected, Sql.selected, hsorted]

/-- **The same view, the same page.** -/
theorem SameView.pageOf (h : SameView db db' scope) (hunique : db.Unique)
    (hunique' : db'.Unique) (exact : Option LocalId) (limit : Nat) :
    pageOf isUri db scope exact limit = pageOf isUri db' scope exact limit := by
  have hrecords : (Sql.selected db scope exact limit).mapM (Server.recordOf isUri db) =
      (Sql.selected db scope exact limit).mapM (Server.recordOf isUri db') := by
    refine mapM_congr fun id hid => ?_
    exact (h.same id (mem_visible_exact.mp (selected_visible hid)).1).recordOf hunique hunique'
  rw [Server.pageOf, Server.pageOf, hrecords, h.selected, (h.perm exact).length_eq]

end View

end Server
end Glaux
