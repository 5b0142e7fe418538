import Glaux.Server.Authorization.AccessRule

/-!
# What writes leave behind

How a list of writes changes what the database offers: foreign keys stay met,
unique keys stay unique when the new ones were free, heads and retention rows
change only through their own writes, and every other kind of row stays.
-/

namespace Glaux
namespace Server

open Domain Library

namespace Write

/-- What a write adds to the unique constraints. -/
def newKeys : Write → List Key
  | .insert row => row.keys
  | _ => []

/-- What the foreign keys of a written row need. -/
def requires : Write → List Requirement
  | .insert row => row.requires
  | .label _ _ => []
  | .head row => (Row.systemWriteHead row).requires
  | .retry row => (Row.systemCreateRetry row).requires

/-- What a write adds to a table. -/
def inserted {τ : Type} (table : Row → Option τ) : Write → Option τ
  | .insert row => table row
  | _ => none

end Write

namespace Row

/-- Rows that no write changes. -/
def stable : Row → Bool
  | .systemIdentity _ | .systemWriteHead _ | .systemCreateRetry _ => false
  | _ => true

theorem rewrite_of_stable {row : Row} (h : row.stable = true) (write : Write) :
    row.rewrite write = row := by
  cases row <;> first | rfl | (cases write <;> rfl) | cases h

theorem stable_rewrite (row : Row) (write : Write) :
    (row.rewrite write).stable = row.stable := by
  cases write <;> cases row <;> first | rfl | (simp only [rewrite]; split <;> rfl)

@[simp] theorem keys_rewrite (row : Row) (write : Write) :
    (row.rewrite write).keys = row.keys := by
  cases write <;> cases row <;>
    first | rfl | (simp only [rewrite]; split <;> simp_all [keys])

@[simp] theorem provides_rewrite (row : Row) (write : Write) :
    (row.rewrite write).provides = row.provides := by
  cases write <;> cases row <;>
    first | rfl | (simp only [rewrite]; split <;> simp_all [provides])

/-- A rewritten row needs what it needed, or what the write needs. -/
theorem requires_rewrite (row : Row) (write : Write) :
    (row.rewrite write).requires = row.requires ∨
      (row.rewrite write).requires = write.requires := by
  cases write <;> cases row <;>
    first | exact .inl rfl | (simp only [rewrite]; split <;> simp [Write.requires, requires])

end Row

/-! The one kind of row that meets each kind of foreign key. -/

section Provides

theorem provides_system {row : Row} {id : LocalId} :
    .system id ∈ row.provides ↔ ∃ label, row = .systemIdentity ⟨id, label⟩ := by
  cases row with
  | systemIdentity row =>
      obtain ⟨id', label⟩ := row
      simp [Row.provides, eq_comm]
  | serverAudit audit =>
      simp only [Row.provides]
      split <;> simp
  | outgoingWork work =>
      simp only [Row.provides]
      split <;> simp
  | _ => simp [Row.provides]

theorem provides_artifact {row : Row} {id : ArtifactId} :
    .artifact id ∈ row.provides ↔ ∃ artifact, row = .sourceArtifact artifact ∧
      artifact.id = id := by
  cases row with
  | sourceArtifact artifact => simp [Row.provides, eq_comm]
  | serverAudit audit =>
      simp only [Row.provides]
      split <;> simp
  | outgoingWork work =>
      simp only [Row.provides]
      split <;> simp
  | _ => simp [Row.provides]

theorem provides_revision {row : Row} {id : RevisionId} {system : LocalId}
    {artifact : ArtifactId} :
    .revision id system artifact ∈ row.provides ↔ ∃ revision,
      row = .systemRevision revision ∧ revision.id = id ∧ revision.systemId = system ∧
        revision.artifactId = artifact := by
  cases row with
  | systemRevision revision => simp [Row.provides, eq_comm]
  | serverAudit audit =>
      simp only [Row.provides]
      split <;> simp
  | outgoingWork work =>
      simp only [Row.provides]
      split <;> simp
  | _ => simp [Row.provides]

theorem provides_audit {row : Row} {id : AuditId} {system : LocalId} {revision : RevisionId}
    {operation : Operation} :
    .audit id system revision operation ∈ row.provides ↔ ∃ audit,
      row = .serverAudit audit ∧ audit.id = id ∧ audit.targetId = some system ∧
        audit.revisionId = some revision ∧ audit.outcome = .accepted ∧
        audit.operation = operation := by
  cases row with
  | serverAudit audit =>
      simp only [Row.provides]
      split
      next target revision' htarget hrevision houtcome =>
        simp [htarget, hrevision, houtcome, eq_comm]
      next hother =>
        simp only [List.not_mem_nil, Row.serverAudit.injEq, false_iff, not_exists, not_and]
        rintro audit rfl - htarget hrevision houtcome
        exact absurd houtcome (hother system revision htarget hrevision)
  | outgoingWork work =>
      simp only [Row.provides]
      split <;> simp
  | _ => simp [Row.provides]

theorem provides_work {row : Row} {receipt : WriteReceipt} :
    .work receipt ∈ row.provides ↔ row = .outgoingWork ⟨receipt.eventId, receipt.systemId,
      receipt.revisionId, receipt.artifactId, receipt.auditId, .systemCreated⟩ := by
  cases row with
  | outgoingWork work =>
      obtain ⟨id, system, revision, artifact, audit, kind⟩ := work
      obtain ⟨system', revision', artifact', audit', event'⟩ := receipt
      cases kind with
      | systemCreated =>
          simp only [Row.provides, List.mem_singleton, Requirement.work.injEq,
            WriteReceipt.mk.injEq, Row.outgoingWork.injEq, OutgoingWork.mk.injEq]
          tauto
      | systemUpdated => simp [Row.provides]
  | serverAudit audit =>
      simp only [Row.provides]
      split <;> simp
  | _ => simp [Row.provides]

end Provides

namespace Database

variable {db : Database} {writes : List Write}

theorem applyAll_cons (db : Database) (write : Write) (writes : List Write) :
    db.applyAll (write :: writes) = (db.apply write).applyAll writes := rfl

theorem applyAll_append (db : Database) (writes writes' : List Write) :
    db.applyAll (writes ++ writes') = (db.applyAll writes).applyAll writes' :=
  List.foldl_append

theorem apply_retry (db : Database) (row : SystemCreateRetry) :
    db.apply (.retry row) =
      if db.hasKey (.scope row.scope) then db.map (Row.rewrite (.retry row))
      else db ++ [.systemCreateRetry row] := rfl

section ForeignKeys

theorem meets_iff {requirement : Requirement} :
    db.meets requirement = true ↔ ∃ row ∈ db, requirement ∈ row.provides := by
  simp [meets]

theorem meets_map_rewrite (write : Write) (requirement : Requirement) :
    meets (db.map (Row.rewrite write)) requirement = db.meets requirement := by
  simp [meets, List.any_map, Function.comp_def]

theorem meets_apply {write : Write} {requirement : Requirement} :
    (db.apply write).meets requirement = true ↔
      db.meets requirement = true ∨
        ∃ row, write = .insert row ∧ requirement ∈ row.provides := by
  cases write with
  | insert row => simp [apply, meets]
  | label id label => simp [apply, meets_map_rewrite]
  | head row => simp [apply, meets_map_rewrite]
  | retry row =>
      rw [apply_retry]
      split
      · simp [meets_map_rewrite]
      · simp [meets, Row.provides]

theorem meets_applyAll {requirement : Requirement} :
    (db.applyAll writes).meets requirement = true ↔
      db.meets requirement = true ∨
        ∃ row, Write.insert row ∈ writes ∧ requirement ∈ row.provides := by
  induction writes generalizing db with
  | nil => simp [applyAll]
  | cons write writes ih =>
      rw [applyAll_cons, ih, meets_apply]
      constructor
      · rintro ((h | ⟨row, rfl, h⟩) | ⟨row, hrow, h⟩)
        · exact .inl h
        · exact .inr ⟨row, List.mem_cons_self, h⟩
        · exact .inr ⟨row, List.mem_cons_of_mem _ hrow, h⟩
      · rintro (h | ⟨row, hrow, h⟩)
        · exact .inl (.inl h)
        · obtain rfl | hrow := List.mem_cons.mp hrow
          · exact .inl (.inr ⟨row, rfl, h⟩)
          · exact .inr ⟨row, hrow, h⟩

/-- Where a foreign key of the changed database comes from. -/
theorem requires_applyAll {row : Row} {requirement : Requirement}
    (hrow : row ∈ db.applyAll writes) (hreq : requirement ∈ row.requires) :
    (∃ row ∈ db, requirement ∈ row.requires) ∨
      ∃ write ∈ writes, requirement ∈ write.requires := by
  induction writes generalizing db with
  | nil => exact .inl ⟨row, hrow, hreq⟩
  | cons write writes ih =>
      have hmap : ∀ row ∈ db.map (Row.rewrite write), requirement ∈ row.requires →
          (∃ row ∈ db, requirement ∈ row.requires) ∨ requirement ∈ write.requires := by
        intro row hrow hreq
        obtain ⟨old, hold, rfl⟩ := List.mem_map.mp hrow
        obtain h | h := old.requires_rewrite write
        · exact .inl ⟨old, hold, h ▸ hreq⟩
        · exact .inr (h ▸ hreq)
      have hone : ∀ row ∈ db.apply write, requirement ∈ row.requires →
          (∃ row ∈ db, requirement ∈ row.requires) ∨ requirement ∈ write.requires := by
        intro row hrow hreq
        cases write with
        | insert row' =>
            obtain hrow | hrow := List.mem_append.mp hrow
            · exact .inl ⟨row, hrow, hreq⟩
            · obtain rfl := List.mem_singleton.mp hrow
              exact .inr hreq
        | label => exact hmap row hrow hreq
        | head => exact hmap row hrow hreq
        | retry row' =>
            rw [apply_retry] at hrow
            split at hrow
            · exact hmap row hrow hreq
            · obtain hrow | hrow := List.mem_append.mp hrow
              · exact .inl ⟨row, hrow, hreq⟩
              · obtain rfl := List.mem_singleton.mp hrow
                exact .inr hreq
      obtain ⟨row', hrow', hreq'⟩ | ⟨write', hwrite', hreq'⟩ := ih hrow
      · obtain h | h := hone row' hrow' hreq'
        · exact .inl h
        · exact .inr ⟨write, List.mem_cons_self, h⟩
      · exact .inr ⟨write', List.mem_cons_of_mem _ hwrite', hreq'⟩

/-- Foreign keys stay met when those of the written rows are. -/
theorem Closed.applyAll (h : db.Closed)
    (hwrites : ∀ write ∈ writes, ∀ requirement ∈ write.requires,
      (db.applyAll writes).meets requirement = true) :
    Closed (db.applyAll writes) := by
  intro row hrow requirement hreq
  obtain ⟨row', hrow', hreq'⟩ | ⟨write, hwrite, hreq'⟩ := requires_applyAll hrow hreq
  · exact meets_applyAll.mpr (.inl (h row' hrow' requirement hreq'))
  · exact hwrites write hwrite requirement hreq'

end ForeignKeys

section UniqueKeys

theorem hasKey_iff {key : Key} : db.hasKey key = true ↔ key ∈ db.keys := by
  simp [hasKey, keys]

theorem keys_map_rewrite (db : Database) (write : Write) : keys (db.map (Row.rewrite write)) = db.keys := by
  simp [keys, List.flatMap_map]

theorem keys_insert (db : Database) (row : Row) : keys (db.apply (.insert row)) = db.keys ++ row.keys := by
  simp [apply, keys]

/-- A write that inserts no row adds at most the scope of its retention row. -/
theorem keys_apply_retry (db : Database) (row : SystemCreateRetry) :
    keys (db.apply (.retry row)) = db.keys ∨
      (Key.scope row.scope ∉ db.keys ∧
        keys (db.apply (.retry row)) = db.keys ++ [.scope row.scope]) := by
  rw [apply_retry]
  split
  case isTrue h => exact .inl (keys_map_rewrite db _)
  case isFalse h =>
    rw [hasKey_iff] at h
    exact .inr ⟨h, by simp [keys, Row.keys]⟩

theorem keys_subset_apply (write : Write) : db.keys ⊆ keys (db.apply write) := by
  intro key hkey
  cases write with
  | insert row => exact keys_insert db row ▸ List.mem_append_left _ hkey
  | label => exact (keys_map_rewrite db _).symm ▸ hkey
  | head => exact (keys_map_rewrite db _).symm ▸ hkey
  | retry row =>
      obtain h | ⟨-, h⟩ := keys_apply_retry db row
      · exact h.symm ▸ hkey
      · exact h.symm ▸ List.mem_append_left _ hkey

theorem keys_subset_applyAll : db.keys ⊆ keys (db.applyAll writes) := by
  induction writes generalizing db with
  | nil => exact List.Subset.refl _
  | cons write writes ih => exact List.Subset.trans (keys_subset_apply write) ih

/-- Inserted keys are taken. -/
theorem newKeys_subset_applyAll {write : Write} (h : write ∈ writes) :
    write.newKeys ⊆ keys (db.applyAll writes) := by
  induction writes generalizing db with
  | nil => cases h
  | cons first rest ih =>
      obtain rfl | hrest := List.mem_cons.mp h
      · intro key hkey
        have happly : key ∈ keys (db.apply write) := by
          cases write with
          | insert row => exact keys_insert db row ▸ List.mem_append_right _ hkey
          | _ => cases hkey
        rw [applyAll_cons]
        exact keys_subset_applyAll happly
      · exact ih hrest

/-- Keys of the changed database: old, inserted, or a stored scope. -/
theorem mem_keys_applyAll {key : Key} (h : key ∈ keys (db.applyAll writes)) :
    key ∈ db.keys ∨ key ∈ writes.flatMap Write.newKeys ∨
      ∃ row, Write.retry row ∈ writes ∧ key = .scope row.scope := by
  induction writes generalizing db with
  | nil => exact .inl h
  | cons write writes ih =>
      have hrest : key ∈ keys (db.apply write) ∨ key ∈ writes.flatMap Write.newKeys ∨
          ∃ row, Write.retry row ∈ writes ∧ key = .scope row.scope := ih h
      obtain hkey | hkey | ⟨row, hrow, hkey⟩ := hrest
      · cases write with
        | insert row =>
            rw [keys_insert] at hkey
            obtain hkey | hkey := List.mem_append.mp hkey
            · exact .inl hkey
            · exact .inr (.inl (List.mem_flatMap.mpr ⟨_, List.mem_cons_self, hkey⟩))
        | label => exact .inl (keys_map_rewrite db _ ▸ hkey)
        | head => exact .inl (keys_map_rewrite db _ ▸ hkey)
        | retry row =>
            obtain h | ⟨-, h⟩ := keys_apply_retry db row
            · exact .inl (h ▸ hkey)
            · rw [h] at hkey
              obtain hkey | hkey := List.mem_append.mp hkey
              · exact .inl hkey
              · exact .inr (.inr ⟨row, List.mem_cons_self, List.mem_singleton.mp hkey⟩)
      · exact .inr (.inl (by
          simp only [List.flatMap_cons, List.mem_append]
          exact .inr hkey))
      · exact .inr (.inr ⟨row, List.mem_cons_of_mem _ hrow, hkey⟩)

/-- Unique keys stay unique when the inserted ones are free and distinct. -/
theorem Unique.applyAll (h : db.Unique)
    (hnodup : (writes.flatMap Write.newKeys).Nodup)
    (hfresh : ∀ key ∈ writes.flatMap Write.newKeys, key ∉ db.keys)
    (hscope : ∀ key ∈ writes.flatMap Write.newKeys, ∀ scope, key ≠ .scope scope) :
    Unique (db.applyAll writes) := by
  induction writes generalizing db with
  | nil => exact h
  | cons write writes ih =>
      rw [List.flatMap_cons] at hnodup hfresh hscope
      obtain ⟨-, hrest, hdisjoint⟩ := List.nodup_append'.mp hnodup
      have hscope' : ∀ key ∈ writes.flatMap Write.newKeys, ∀ scope, key ≠ .scope scope :=
        fun key hkey => hscope key (List.mem_append_right _ hkey)
      have hold : ∀ key ∈ writes.flatMap Write.newKeys, key ∉ db.keys :=
        fun key hkey => hfresh key (List.mem_append_right _ hkey)
      refine ih ?_ hrest ?_ hscope'
      · cases write with
        | insert row =>
            rw [Unique, keys_insert]
            refine List.nodup_append'.mpr ⟨h, ?_, ?_⟩
            · exact (List.nodup_append'.mp hnodup).1
            · exact fun key hkey hrow => hfresh key (List.mem_append_left _ hrow) hkey
        | label id label =>
            have hsame : keys (db.apply (.label id label)) = db.keys := keys_map_rewrite db _
            rwa [Unique, hsame]
        | head row =>
            have hsame : keys (db.apply (.head row)) = db.keys := keys_map_rewrite db _
            rwa [Unique, hsame]
        | retry row =>
            obtain heq | ⟨hfree, heq⟩ := keys_apply_retry db row
            · rwa [Unique, heq]
            · rw [Unique, heq]
              exact List.nodup_append'.mpr ⟨h, List.nodup_singleton _,
                fun key hkey hscope => hfree (List.mem_singleton.mp hscope ▸ hkey)⟩
      · intro key hkey hnew
        cases write with
        | insert row =>
            rw [keys_insert] at hnew
            obtain hnew | hnew := List.mem_append.mp hnew
            · exact hold key hkey hnew
            · exact hdisjoint hnew hkey
        | label => exact hold key hkey (keys_map_rewrite db _ ▸ hnew)
        | head => exact hold key hkey (keys_map_rewrite db _ ▸ hnew)
        | retry row =>
            obtain heq | ⟨-, heq⟩ := keys_apply_retry db row
            · exact hold key hkey (heq ▸ hnew)
            · rw [heq] at hnew
              obtain hnew | hnew := List.mem_append.mp hnew
              · exact hold key hkey hnew
              · exact hscope' key hkey row.scope (List.mem_singleton.mp hnew)

end UniqueKeys

section Heads

variable {id : LocalId}

theorem head?_mem {row : SystemWriteHead} (h : db.head? id = some row) :
    Row.systemWriteHead row ∈ db ∧ row.systemId = id := by
  obtain ⟨found, hmem, hfound⟩ := List.exists_of_findSome?_eq_some h
  cases found with
  | systemWriteHead found =>
      by_cases hid : found.systemId = id
      · obtain rfl : found = row := by simpa [hid] using hfound
        exact ⟨hmem, hid⟩
      · simp [hid] at hfound
  | _ => cases hfound

theorem key_of_head? {row : SystemWriteHead} (h : db.head? id = some row) :
    Key.head id ∈ db.keys := by
  obtain ⟨hmem, rfl⟩ := head?_mem h
  exact List.mem_flatMap.mpr ⟨_, hmem, by simp [Row.keys]⟩

theorem head?_append_of_some {row : SystemWriteHead} {new : Row}
    (h : db.head? id = some row) : head? (db ++ [new]) id = some row := by
  unfold head? at h ⊢
  rw [List.findSome?_append, h, Option.some_or]

/-- A write that is not the System's own head write leaves its head. -/
theorem head?_map_rewrite_of_ne {write : Write}
    (h : ∀ row, write = .head row → row.systemId ≠ id) :
    head? (db.map (Row.rewrite write)) id = db.head? id := by
  unfold head?
  rw [List.findSome?_map]
  congr 1
  funext row
  cases write with
  | head row' =>
      cases row with
      | systemWriteHead row =>
          have hne := h row' rfl
          by_cases hrow : row.systemId = row'.systemId
          · simp [Row.rewrite, hrow, hne]
          · simp [Row.rewrite, hrow]
      | _ => rfl
  | _ =>
      cases row <;> simp only [Function.comp_apply, Row.rewrite]
      all_goals first | rfl | (split_ifs <;> rfl)

/-- The System's head write replaces its head. -/
theorem head?_map_rewrite {row row' : SystemWriteHead} (h : db.head? id = some row)
    (hid : row'.systemId = id) :
    head? (db.map (Row.rewrite (.head row'))) id = some row' := by
  have hmap : head? (db.map (Row.rewrite (.head row'))) id =
      (db.head? id).map (fun _ => row') := by
    unfold head?
    rw [List.findSome?_map, List.map_findSome?]
    congr 1
    funext row
    cases row with
    | systemWriteHead row =>
        by_cases hrow : row.systemId = row'.systemId
        · simp [Row.rewrite, hrow, hid]
        · simp [Row.rewrite, hrow, hid ▸ hrow]
    | _ => rfl
  rw [hmap, h, Option.map_some]

/-- Where the head of a System that has one comes from. -/
theorem head?_applyAll (writes : List Write) {row : SystemWriteHead} (h : db.head? id = some row) :
    ∃ row', (db.applyAll writes).head? id = some row' ∧
      ((row' = row ∧ ∀ moved, Write.head moved ∈ writes → moved.systemId ≠ id) ∨
        (Write.head row' ∈ writes ∧ row'.systemId = id)) := by
  induction writes generalizing db row with
  | nil => exact ⟨row, h, .inl ⟨rfl, by simp⟩⟩
  | cons write writes ih =>
      have hone : ∃ row', (db.apply write).head? id = some row' ∧
          ((row' = row ∧ ∀ moved, write = .head moved → moved.systemId ≠ id) ∨
            (write = .head row' ∧ row'.systemId = id)) := by
        cases write with
        | insert new => exact ⟨row, head?_append_of_some h, .inl ⟨rfl, by simp⟩⟩
        | label _ _ =>
            exact ⟨row, (head?_map_rewrite_of_ne (by simp)).trans h, .inl ⟨rfl, by simp⟩⟩
        | head moved =>
            by_cases hid : moved.systemId = id
            · exact ⟨moved, head?_map_rewrite h hid, .inr ⟨rfl, hid⟩⟩
            · refine ⟨row, (head?_map_rewrite_of_ne ?_).trans h, .inl ⟨rfl, ?_⟩⟩ <;>
                · rintro _ ⟨⟩
                  exact hid
        | retry stored =>
            refine ⟨row, ?_, .inl ⟨rfl, by simp⟩⟩
            rw [apply_retry]
            split
            · exact (head?_map_rewrite_of_ne (by simp)).trans h
            · exact head?_append_of_some h
      obtain ⟨mid, hmid, hcase⟩ := hone
      obtain ⟨row', hrow', hcase'⟩ := ih hmid
      refine ⟨row', hrow', ?_⟩
      rcases hcase' with ⟨rfl, hnone⟩ | ⟨hmem, hid⟩
      · rcases hcase with ⟨rfl, hne⟩ | ⟨rfl, hid⟩
        · refine .inl ⟨rfl, fun moved hmoved => ?_⟩
          obtain hmoved | hmoved := List.mem_cons.mp hmoved
          · exact hne moved hmoved.symm
          · exact hnone moved hmoved
        · exact .inr ⟨List.mem_cons_self, hid⟩
      · exact .inr ⟨List.mem_cons_of_mem _ hmem, hid⟩

end Heads

section Retention

variable {scope : RetryScope}

theorem retryRow?_mem {row : SystemCreateRetry} (h : db.retryRow? scope = some row) :
    Row.systemCreateRetry row ∈ db ∧ row.scope = scope := by
  obtain ⟨found, hmem, hfound⟩ := List.exists_of_findSome?_eq_some h
  cases found with
  | systemCreateRetry found =>
      by_cases hscope : found.scope = scope
      · obtain rfl : found = row := by simpa [hscope] using hfound
        exact ⟨hmem, hscope⟩
      · simp [hscope] at hfound
  | _ => cases hfound

theorem retryRow?_eq_none (h : db.hasKey (.scope scope) = false) : db.retryRow? scope = none := by
  cases hrow : db.retryRow? scope with
  | none => rfl
  | some row =>
      obtain ⟨hmem, rfl⟩ := retryRow?_mem hrow
      have : db.hasKey (.scope row.scope) = true :=
        hasKey_iff.mpr (List.mem_flatMap.mpr ⟨_, hmem, by simp [Row.keys]⟩)
      rw [h] at this
      cases this

theorem exists_retryRow? (h : db.hasKey (.scope scope) = true) :
    ∃ row, db.retryRow? scope = some row := by
  obtain ⟨row, hmem, hkey⟩ := List.mem_flatMap.mp (hasKey_iff.mp h)
  cases row with
  | systemCreateRetry row =>
      obtain rfl : scope = row.scope := by simpa [Row.keys] using hkey
      refine Option.isSome_iff_exists.mp (List.findSome?_isSome_iff.mpr ⟨_, hmem, ?_⟩)
      simp
  | _ => simp [Row.keys] at hkey

/-- Only a retention write for the scope changes its row. -/
theorem retryRow?_map_rewrite_of_ne {write : Write}
    (h : ∀ row, write = .retry row → row.scope ≠ scope) :
    retryRow? (db.map (Row.rewrite write)) scope = db.retryRow? scope := by
  unfold retryRow?
  rw [List.findSome?_map]
  congr 1
  funext row
  cases write with
  | retry row' =>
      cases row with
      | systemCreateRetry row =>
          have hne := h row' rfl
          by_cases hrow : row.scope = row'.scope
          · simp [Row.rewrite, hrow, hne]
          · simp [Row.rewrite, hrow]
      | _ => rfl
  | _ =>
      cases row <;> simp only [Function.comp_apply, Row.rewrite]
      all_goals first | rfl | (split_ifs <;> rfl)

theorem retryRow?_apply_retry_of_ne {row : SystemCreateRetry} (h : row.scope ≠ scope) :
    retryRow? (db.apply (.retry row)) scope = db.retryRow? scope := by
  rw [apply_retry]
  split
  · exact retryRow?_map_rewrite_of_ne (by rintro _ ⟨⟩; exact h)
  · simp [retryRow?, List.findSome?_append, h]

/-- The retention write of a scope puts its row in place. -/
theorem retryRow?_apply_retry (db : Database) (row : SystemCreateRetry) :
    retryRow? (db.apply (.retry row)) row.scope = some row := by
  rw [apply_retry]
  split
  case isTrue h =>
    obtain ⟨old, hold⟩ := exists_retryRow? h
    have hmap : retryRow? (db.map (Row.rewrite (.retry row))) row.scope =
        (db.retryRow? row.scope).map (fun _ => row) := by
      unfold retryRow?
      rw [List.findSome?_map, List.map_findSome?]
      congr 1
      funext old
      cases old with
      | systemCreateRetry old =>
          by_cases hold : old.scope = row.scope <;> simp [Row.rewrite, hold]
      | _ => rfl
    rw [hmap, hold, Option.map_some]
  case isFalse h =>
    have hnone := retryRow?_eq_none (Bool.not_eq_true _ ▸ h)
    unfold retryRow? at hnone ⊢
    simp [List.findSome?_append, hnone]

/-- Where the retention row of a scope comes from. -/
theorem retryRow?_applyAll (db : Database) (scope : RetryScope)
    (hinserts : ∀ row, Write.insert (.systemCreateRetry row) ∉ writes) :
    ((db.applyAll writes).retryRow? scope = db.retryRow? scope ∧
        ∀ row, Write.retry row ∈ writes → row.scope ≠ scope) ∨
      ∃ row, Write.retry row ∈ writes ∧ row.scope = scope ∧
        (db.applyAll writes).retryRow? scope = some row := by
  induction writes generalizing db with
  | nil => exact .inl ⟨rfl, by simp⟩
  | cons write writes ih =>
      have hrest : ∀ row, Write.insert (.systemCreateRetry row) ∉ writes :=
        fun row h => hinserts row (List.mem_cons_of_mem _ h)
      rcases ih (db.apply write) hrest with ⟨hsame, hnone⟩ | ⟨row, hmem, hscope, hrow⟩
      · by_cases hown : ∃ row, write = .retry row ∧ row.scope = scope
        · obtain ⟨row, rfl, rfl⟩ := hown
          exact .inr ⟨row, List.mem_cons_self, rfl,
            hsame.trans (retryRow?_apply_retry db row)⟩
        · have hother : ∀ row, write = .retry row → row.scope ≠ scope :=
            fun row hrow hscope => hown ⟨row, hrow, hscope⟩
          refine .inl ⟨hsame.trans ?_, fun row hrow => ?_⟩
          · cases write with
            | insert new =>
                cases new with
                | systemCreateRetry row => exact absurd List.mem_cons_self (hinserts row)
                | _ => simp [apply, retryRow?, List.findSome?_append]
            | label => exact retryRow?_map_rewrite_of_ne hother
            | head => exact retryRow?_map_rewrite_of_ne hother
            | retry row => exact retryRow?_apply_retry_of_ne (hother row rfl)
          · obtain hrow | hrow := List.mem_cons.mp hrow
            · exact hother row hrow.symm
            · exact hnone row hrow
      · exact .inr ⟨row, List.mem_cons_of_mem _ hmem, hscope, hrow⟩

end Retention

section StableRows

/-- Rows that no write changes are the old ones and the inserted ones. -/
theorem mem_apply_of_stable {row : Row} (hrow : row.stable = true) {write : Write} :
    row ∈ db.apply write ↔ row ∈ db ∨ write = .insert row := by
  have hmap : row ∈ db.map (Row.rewrite write) ↔ row ∈ db := by
    rw [List.mem_map]
    constructor
    · rintro ⟨old, hold, rfl⟩
      rw [Row.stable_rewrite] at hrow
      rwa [Row.rewrite_of_stable hrow]
    · exact fun h => ⟨row, h, Row.rewrite_of_stable hrow write⟩
  cases write with
  | insert new =>
      simp only [apply, List.mem_append, List.mem_singleton, Write.insert.injEq, eq_comm]
  | label => exact hmap.trans (by simp)
  | head => exact hmap.trans (by simp)
  | retry stored =>
      rw [apply_retry]
      split
      · simpa only [reduceCtorEq, or_false] using hmap
      · have : row ≠ .systemCreateRetry stored := by
          rintro rfl
          cases hrow
        simp [this]

theorem mem_applyAll_of_stable {row : Row} (hrow : row.stable = true) :
    row ∈ db.applyAll writes ↔ row ∈ db ∨ Write.insert row ∈ writes := by
  induction writes generalizing db with
  | nil => simp [applyAll]
  | cons write writes ih =>
      rw [applyAll_cons, ih, mem_apply_of_stable hrow, List.mem_cons, eq_comm (a := write),
        or_assoc]

theorem filterMap_apply {τ : Type} {table : Row → Option τ}
    (htable : ∀ row, row.stable = false → table row = none) (write : Write) :
    (db.apply write).filterMap table =
      db.filterMap table ++ (write.inserted table).toList := by
  have hrewrite : ∀ row : Row, table (row.rewrite write) = table row := by
    intro row
    cases hstable : row.stable with
    | true => rw [Row.rewrite_of_stable hstable]
    | false => rw [htable row hstable, htable _ ((Row.stable_rewrite row write).trans hstable)]
  have hmap : (db.map (Row.rewrite write)).filterMap table = db.filterMap table := by
    rw [List.filterMap_map]
    exact List.filterMap_congr fun row _ => hrewrite row
  cases write with
  | insert new =>
      cases hnew : table new <;> simp [apply, Write.inserted, List.filterMap_append, hnew]
  | label => exact hmap.trans (List.append_nil _).symm
  | head => exact hmap.trans (List.append_nil _).symm
  | retry stored =>
      rw [apply_retry]
      split
      · simpa [Write.inserted] using hmap
      · simp [Write.inserted, List.filterMap_append, htable (.systemCreateRetry stored) rfl]

/-- A table of rows that no write changes grows by the inserted rows, in order. -/
theorem filterMap_applyAll {τ : Type} {table : Row → Option τ}
    (htable : ∀ row, row.stable = false → table row = none) (db : Database)
    (writes : List Write) :
    (db.applyAll writes).filterMap table =
      db.filterMap table ++ writes.filterMap (Write.inserted table) := by
  induction writes generalizing db with
  | nil => simp [applyAll]
  | cons write writes ih =>
      rw [applyAll_cons, ih, filterMap_apply htable, List.append_assoc, List.filterMap_cons]
      cases write.inserted table <;> simp

end StableRows

end Database

end Server
end Glaux
