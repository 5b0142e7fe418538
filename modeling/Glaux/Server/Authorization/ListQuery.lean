import Glaux.Server.Authorization.AccessRule
import Mathlib.Data.List.Perm.Basic

/-!
# The list query, row by row

With the unique constraints the joins of the list query add at most one
identity, label and parent to each selected System, and its sorted rows are one
block for each System in ID order, with one row for each alias.
-/

namespace Glaux
namespace Server

open Domain Library

namespace Database

/-- At most one row of a table holds a given key. -/
theorem Unique.filter_le_one {db : Database} (h : db.Unique) {τ : Type}
    {table : Row → Option τ} {p : τ → Bool} (key : Key)
    (htable : ∀ row row' t, table row = some t → table row' = some t → row = row')
    (hkey : ∀ row t, table row = some t → p t = true → key ∈ row.keys) :
    ((db.filterMap table).filter p).length ≤ 1 := by
  have hnodup : ((db.filterMap table).filter p).Nodup := by
    refine List.Nodup.filter p (List.Nodup.filterMap ?_ h.nodup)
    exact fun row row' t ht ht' => htable row row' t ht ht'
  refine length_le_one hnodup ?_
  intro a ha b hb
  obtain ⟨ha, hpa⟩ := List.mem_filter.mp ha
  obtain ⟨hb, hpb⟩ := List.mem_filter.mp hb
  obtain ⟨row, hrow, hta⟩ := List.mem_filterMap.mp ha
  obtain ⟨row', hrow', htb⟩ := List.mem_filterMap.mp hb
  obtain rfl := h.eq_of_key key hrow hrow' (hkey row a hta hpa) (hkey row' b htb hpb)
  exact Option.some.inj (hta.symm.trans htb)

end Database

namespace Sql

variable (db : Database)

/-- What the joins find for one System. -/
def resource? (id : LocalId) : Option ResourceIdentity :=
  (db.resourceIdentity.filter (fun r => r.id = id)).head?

def system? (id : LocalId) : Option SystemIdentity :=
  (db.systemIdentity.filter (fun s => s.id = id)).head?

def parent? (id : LocalId) : Option SystemParent :=
  (db.systemParent.filter (fun p => p.childId = id)).head?

/-- The aliases of one System, in order. -/
def aliases (id : LocalId) : List SourceIdentityRow :=
  sortBy (fun a => toLex (a.authority, a.identifier))
    (db.sourceIdentity.filter (fun a => a.resourceId = id))

/-- One entry for each alias, or a null one. -/
def aliasColumns (id : LocalId) : List (Option SourceIdentityRow) :=
  match aliases db id with
  | [] => [none]
  | a :: rest => (a :: rest).map some

/-- One result row for a System and an alias. -/
def listRow (number : Nat) (id : LocalId) (source : Option SourceIdentityRow) : ListRow where
  numberMatched := number
  id := (resource? db id).map (·.id)
  uid := (resource? db id).map (·.uid)
  label := (system? db id).map (·.label)
  parent := (parent? db id).map (·.parentId)
  authority := source.map (·.authority)
  identifier := source.map (·.identifier)

/-- The rows of one selected System. -/
def block (number : Nat) (id : LocalId) : List ListRow :=
  (aliasColumns db id).map (listRow db number id)

variable {db : Database}

theorem resourceIdentity_filter (h : db.Unique) (id : LocalId) :
    (db.resourceIdentity.filter (fun r => r.id = id)).length ≤ 1 := by
  refine h.filter_le_one (.resource id) ?_ ?_
  · intro row row' t ht ht'
    cases row <;> cases row' <;> simp_all [Row.resourceIdentity?]
  · intro row t ht hid
    cases row <;> simp_all [Row.resourceIdentity?, Row.keys]

theorem systemIdentity_filter (h : db.Unique) (id : LocalId) :
    (db.systemIdentity.filter (fun s => s.id = id)).length ≤ 1 := by
  refine h.filter_le_one (.system id) ?_ ?_
  · intro row row' t ht ht'
    cases row <;> cases row' <;> simp_all [Row.systemIdentity?]
  · intro row t ht hid
    cases row <;> simp_all [Row.systemIdentity?, Row.keys]

theorem systemParent_filter (h : db.Unique) (id : LocalId) :
    (db.systemParent.filter (fun p => p.childId = id)).length ≤ 1 := by
  refine h.filter_le_one (.parent id) ?_ ?_
  · intro row row' t ht ht'
    cases row <;> cases row' <;> simp_all [Row.systemParent?]
  · intro row t ht hid
    cases row <;> simp_all [Row.systemParent?, Row.keys]

theorem resource?_eq_some (h : db.Unique) {id : LocalId} {r : ResourceIdentity} :
    resource? db id = some r ↔ r ∈ db.resourceIdentity ∧ r.id = id := by
  rw [resource?, head?_eq_some_of_length_le_one (resourceIdentity_filter h id)]
  simp

theorem system?_eq_some (h : db.Unique) {id : LocalId} {s : SystemIdentity} :
    system? db id = some s ↔ s ∈ db.systemIdentity ∧ s.id = id := by
  rw [system?, head?_eq_some_of_length_le_one (systemIdentity_filter h id)]
  simp

theorem parent?_eq_some (h : db.Unique) {id : LocalId} {p : SystemParent} :
    parent? db id = some p ↔ p ∈ db.systemParent ∧ p.childId = id := by
  rw [parent?, head?_eq_some_of_length_le_one (systemParent_filter h id)]
  simp

/-- Two aliases with one authority and identifier are one row. -/
theorem sourceIdentity_ext (h : db.Unique) {a b : SourceIdentityRow}
    (ha : a ∈ db.sourceIdentity) (hb : b ∈ db.sourceIdentity)
    (hauthority : a.authority = b.authority) (hidentifier : a.identifier = b.identifier) :
    a = b := by
  have := h.eq_of_key (.source a.authority a.identifier)
    (mem_sourceIdentity.mp ha) (mem_sourceIdentity.mp hb)
    (by simp [Row.keys]) (by simp [Row.keys, hauthority, hidentifier])
  exact Row.sourceIdentity.inj this

theorem mem_aliases {id : LocalId} {a : SourceIdentityRow} :
    a ∈ aliases db id ↔ a ∈ db.sourceIdentity ∧ a.resourceId = id := by
  simp [aliases, mem_sortBy]

theorem mem_aliasColumns {id : LocalId} {column : Option SourceIdentityRow}
    (h : column ∈ aliasColumns db id) :
    ∀ a, column = some a → a ∈ aliases db id := by
  rintro a rfl
  simp only [aliasColumns] at h
  split at h
  next => simp at h
  next b rest hrest =>
    rw [hrest]
    obtain ⟨a', ha', heq⟩ := List.mem_map.mp h
    exact Option.some.inj heq ▸ ha'

theorem origins_nodup : ((origins db).map (·.1)).Nodup := by
  have hsub : ∀ l : List (LocalId × (OutgoingWork × ServerAudit)),
      ((l.filterMap (fun entry =>
        entry.2.2.source.map (fun source => (entry.1, source)))).map (·.1)).Sublist
        (l.map (·.1)) := by
    intro l
    induction l with
    | nil => exact List.Sublist.slnil
    | cons entry l ih =>
        obtain ⟨id, w, a⟩ := entry
        cases hsource : a.source with
        | none => simpa [hsource] using ih.cons id
        | some source => simpa [hsource] using ih.cons_cons id
  exact aloneBy_keys_nodup.sublist (hsub _)

theorem visible_nodup {scope : Json} {exact : Option LocalId} :
    (visible db scope exact).Nodup :=
  (origins_nodup.sublist (List.filter_sublist.map _)).filter _

theorem text_injective : ∀ a b : LocalId, a.text = b.text → a = b :=
  fun _ _ => LocalId.ext_text

/-- Selected IDs are strictly ordered. -/
theorem selected_sorted (db : Database) (scope : Json) (exact : Option LocalId)
    (limit : Nat) :
    (selected db scope exact limit).Pairwise (fun a b => a.text < b.text) := by
  have hsorted := sortBy_pairwise (fun id : LocalId => id.text) (visible db scope exact)
  have hnodup := (sortBy_perm (fun id : LocalId => id.text)
    (visible db scope exact)).nodup_iff.mpr visible_nodup
  refine List.Pairwise.sublist (List.take_sublist limit _) ?_
  refine (hsorted.and hnodup).imp ?_
  rintro a b ⟨hle, hne⟩
  exact lt_of_le_of_ne hle (fun heq => hne (LocalId.ext_text heq))

/-- The alias column of one System, before sorting. -/
theorem leftJoin_aliases (db : Database) (rows : List (((LocalId × Option ResourceIdentity) ×
    Option SystemIdentity) × Option SystemParent)) :
    (leftJoin rows db.sourceIdentity (fun row a => a.resourceId = row.1.1.1)).Perm
      (rows.flatMap (fun row =>
        (aliasColumns db row.1.1.1).map (fun column => (row, column)))) := by
  refine List.Perm.flatMap_left rows (fun row _ => ?_)
  have hperm := sortBy_perm (fun a : SourceIdentityRow => toLex (a.authority, a.identifier))
    (db.sourceIdentity.filter (fun a => a.resourceId = row.1.1.1))
  simp only [aliasColumns, aliases]
  generalize sortBy (fun a : SourceIdentityRow => toLex (a.authority, a.identifier))
    (db.sourceIdentity.filter (fun a => a.resourceId = row.1.1.1)) = sorted at hperm ⊢
  generalize db.sourceIdentity.filter (fun a => a.resourceId = row.1.1.1) = found at hperm ⊢
  match found, sorted, hperm with
  | [], [], _ => exact List.Perm.refl _
  | [], a :: rest, hperm => simp at hperm
  | a :: rest, [], hperm => simp at hperm
  | a :: rest, b :: rest', hperm =>
      rw [List.map_map]
      exact (hperm.map (fun a => (row, some a))).symm

/-- Keys of the alias column tell its entries apart. -/
theorem aliasColumns_ext (h : db.Unique) {id : LocalId}
    {column column' : Option SourceIdentityRow} (hcolumn : column ∈ aliasColumns db id)
    (hcolumn' : column' ∈ aliasColumns db id)
    (hauthority : column.map (·.authority) = column'.map (·.authority))
    (hidentifier : column.map (·.identifier) = column'.map (·.identifier)) :
    column = column' := by
  cases hc : column with
  | none =>
      cases hc' : column' with
      | none => rfl
      | some a => simp [hc, hc'] at hauthority
  | some a =>
      cases hc' : column' with
      | none => simp [hc, hc'] at hauthority
      | some b =>
          have ha := (mem_aliases.mp (mem_aliasColumns hcolumn a hc)).1
          have hb := (mem_aliases.mp (mem_aliasColumns hcolumn' b hc')).1
          rw [sourceIdentity_ext h ha hb (by simpa [hc, hc'] using hauthority)
            (by simpa [hc, hc'] using hidentifier)]

theorem listKey_le_iff {id id' : LocalId} {a b : SourceIdentityRow} (hid : id = id')
    (h : toLex (a.authority, a.identifier) ≤ toLex (b.authority, b.identifier)) :
    listKey id (some a) ≤ listKey id' (some b) := by
  subst hid
  rw [listKey, listKey, Prod.Lex.toLex_le_toLex]
  refine Or.inr ⟨rfl, ?_⟩
  rw [Prod.Lex.toLex_le_toLex] at h ⊢
  rcases h with h | ⟨h, h'⟩
  · exact Or.inl (WithTop.coe_lt_coe.mpr h)
  · exact Or.inr ⟨congrArg some h, WithTop.coe_le_coe.mpr h'⟩

theorem listKey_lt {id id' : LocalId} {a b : Option SourceIdentityRow}
    (h : id.text < id'.text) : listKey id a ≤ listKey id' b := by
  rw [listKey, listKey, Prod.Lex.toLex_le_toLex]
  exact Or.inl h

theorem aliasColumns_sorted {id : LocalId} :
    (aliasColumns db id).Pairwise (fun a b => listKey id a ≤ listKey id b) := by
  have hsorted := sortBy_pairwise
    (fun a : SourceIdentityRow => toLex (a.authority, a.identifier))
    (db.sourceIdentity.filter (fun a => a.resourceId = id))
  simp only [aliasColumns, aliases]
  generalize sortBy (fun a : SourceIdentityRow => toLex (a.authority, a.identifier))
    (db.sourceIdentity.filter (fun a => a.resourceId = id)) = sorted at hsorted ⊢
  match sorted, hsorted with
  | [], _ => exact List.pairwise_singleton _ _
  | a :: rest, hsorted =>
      refine List.Pairwise.map _ ?_ hsorted
      exact fun a b hab => listKey_le_iff rfl hab

/-- The columns the first three joins add to one System. -/
def joined (db : Database) (id : LocalId) :
    ((LocalId × Option ResourceIdentity) × Option SystemIdentity) × Option SystemParent :=
  (((id, resource? db id), system? db id), parent? db id)

theorem leftJoins_eq (h : db.Unique) (ids : List LocalId) :
    leftJoin (leftJoin (leftJoin ids db.resourceIdentity (fun id r => r.id = id))
      db.systemIdentity (fun row s => s.id = row.1))
      db.systemParent (fun row p => p.childId = row.1.1) = ids.map (joined db) := by
  rw [leftJoin_eq_map (fun id _ => resourceIdentity_filter h id),
    leftJoin_eq_map (fun (row : LocalId × Option ResourceIdentity) _ =>
      systemIdentity_filter h row.1),
    leftJoin_eq_map (fun (row : (LocalId × Option ResourceIdentity) × Option SystemIdentity) _ =>
      systemParent_filter h row.1.1), List.map_map, List.map_map]
  rfl

/-- The joined rows in their final order. -/
theorem sorted_rows (h : db.Unique) {ids : List LocalId}
    (hids : ids.Pairwise (fun a b => a.text < b.text)) :
    sortBy (fun row => listKey row.1.1.1.1 row.2)
        (leftJoin (ids.map (joined db)) db.sourceIdentity
          (fun row a => a.resourceId = row.1.1.1)) =
      ids.flatMap (fun id => (aliasColumns db id).map (fun column => (joined db id, column))) := by
  have hperm := leftJoin_aliases db (ids.map (joined db))
  rw [List.flatMap_map] at hperm
  refine sortBy_eq_of_perm hperm.symm ?_ ?_
  · refine List.pairwise_flatMap.mpr ⟨?_, hids.imp ?_⟩
    · intro id _
      exact List.Pairwise.map _ (fun _ _ hle => hle) aliasColumns_sorted
    · intro id id' hlt row hrow row' hrow'
      obtain ⟨column, -, rfl⟩ := List.mem_map.mp hrow
      obtain ⟨column', -, rfl⟩ := List.mem_map.mp hrow'
      exact listKey_lt hlt
  · intro row hrow row' hrow' hkey
    obtain ⟨id, -, hrow⟩ := List.mem_flatMap.mp (hperm.mem_iff.mp hrow)
    obtain ⟨id', -, hrow'⟩ := List.mem_flatMap.mp (hperm.mem_iff.mp hrow')
    obtain ⟨column, hcolumn, rfl⟩ := List.mem_map.mp hrow
    obtain ⟨column', hcolumn', rfl⟩ := List.mem_map.mp hrow'
    obtain ⟨htext, hrest⟩ := Prod.mk.inj (toLex.injective hkey)
    obtain ⟨hauthority, hidentifier⟩ := Prod.mk.inj (toLex.injective hrest)
    obtain rfl : id = id' := LocalId.ext_text htext
    rw [aliasColumns_ext h hcolumn hcolumn' hauthority hidentifier]

/-- **List query.**  Selected Systems in order, one row for each alias. -/
theorem listRows_eq (h : db.Unique) (scope : Json) (exact : Option LocalId) (limit : Nat) :
    listRows db scope exact limit =
      match selected db scope exact limit with
      | [] => [⟨(visible db scope exact).length, none, none, none, none, none, none⟩]
      | ids => ids.flatMap (block db (visible db scope exact).length) := by
  have hids := selected_sorted db scope exact limit
  simp only [listRows]
  cases hselected : selected db scope exact limit with
  | nil => rfl
  | cons first rest =>
      rw [hselected] at hids
      dsimp only
      rw [leftJoins_eq h, sorted_rows h hids, List.map_flatMap]
      simp only [List.map_map]
      rfl

end Sql

end Server
end Glaux
