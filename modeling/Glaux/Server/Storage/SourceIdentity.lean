import Glaux.Library.PrefixFree
import Glaux.Library.Transition
import Glaux.Library.Utf8
import Glaux.Server.ApplicationContract
import Glaux.Server.Authorization.ListQuery
import Glaux.Server.Storage.Growth

/-!
# Source identities (`storage.rs`, `migrations/0002_system_identity.sql`)

The key of an (authority, identifier) pair, which the exclusion constraint and
`find_source` both compare, and the tables under any interleaving of the transactions
that create Systems.
-/

namespace Glaux
namespace Server

open Domain Library

section Key

/-- `octet_length(authority)::text || ':' || authority || identifier`. -/
def sourceKey (authority identifier : String) : String :=
  toString authority.utf8ByteSize ++ ":" ++ authority ++ identifier

/-- The bytes of a decimal number. -/
def decimalBytes (n : Nat) : List UInt8 := utf8 (toString n).toList

theorem decimalBytes_injective : Function.Injective decimalBytes := by
  intro n m h
  have htext : n.repr = m.repr := utf8_injective h
  have hdigits : Nat.toDigits 10 n = Nat.toDigits 10 m := by
    rw [Nat.repr_eq_ofList_toDigits, Nat.repr_eq_ofList_toDigits] at htext
    exact String.ofList_injective htext
  rw [← Nat.ofDigitChars_ten_toDigits (n := n), hdigits, Nat.ofDigitChars_ten_toDigits]

theorem colon_notMem_decimal (n : Nat) : (58 : UInt8) ∉ decimalBytes n := by
  have hdigit : ∀ k < 58, 48 ≤ k → (58 : UInt8) ∉ String.utf8EncodeChar (Char.ofNat k) := by
    decide +kernel
  intro hmem
  obtain ⟨c, hc, hbyte⟩ := List.mem_flatMap.mp hmem
  rw [Nat.toString_eq_repr, Nat.repr_eq_ofList_toDigits, String.toList_ofList] at hc
  have hc := Nat.isDigit_of_mem_toDigits (by decide) (by decide) hc
  simp only [Char.isDigit, Bool.and_eq_true, decide_eq_true_eq, ge_iff_le,
    UInt32.le_iff_toNat_le] at hc
  have hrange : 48 ≤ c.toNat ∧ c.toNat < 58 := ⟨hc.1, Nat.lt_succ_of_le hc.2⟩
  rw [← Char.ofNat_toNat c] at hbyte
  exact hdigit c.toNat hrange.2 hrange.1 hbyte

/-- The bytes of a key. -/
theorem utf8_sourceKey (authority identifier : String) :
    utf8 (sourceKey authority identifier).toList =
      (decimalBytes (utf8 authority.toList).length ++ 58 :: utf8 authority.toList) ++
        utf8 identifier.toList := by
  have hcolon : utf8 ":".toList = [58] := by decide
  rw [sourceKey, decimalBytes, utf8ByteSize_eq]
  simp only [String.toList_append, utf8_append, hcolon, List.append_assoc, List.cons_append,
    List.nil_append]

/-- **The key is injective.** -/
theorem sourceKey_inj {authority authority' identifier identifier' : String} :
    sourceKey authority identifier = sourceKey authority' identifier' ↔
      authority = authority' ∧ identifier = identifier' := by
  constructor
  · intro h
    have hbytes := congrArg (fun text : String => utf8 text.toList) h
    simp only [utf8_sourceKey] at hbytes
    obtain ⟨hauthority, hidentifier⟩ :=
      PrefixFree.counted decimalBytes_injective colon_notMem_decimal _ _ _ _ hbytes
    exact ⟨utf8_injective hauthority, utf8_injective hidentifier⟩
  · rintro ⟨rfl, rfl⟩
    rfl

end Key

/-! ### The constraints -/

section Constraints

/-- What the primary keys and the exclusion constraints refuse: `row` beside `stored`. -/
def conflicts (stored row : Row) : Bool :=
  match stored, row with
  | .sourceIdentity stored, .sourceIdentity row =>
      sourceKey stored.authority stored.identifier == sourceKey row.authority row.identifier
  | stored, row => stored.keys.any row.keys.contains

/-- **The key of a pair.**  The exclusion constraint on the text is uniqueness of the pair. -/
theorem conflicts_iff {stored row : Row} :
    conflicts stored row = true ↔ ∃ key ∈ stored.keys, key ∈ row.keys := by
  unfold conflicts
  split
  next stored row =>
    rw [beq_iff_eq, sourceKey_inj]
    simp [Row.keys]
  next => simp

/-- A row that can be inserted beside the rows in view. -/
def insertable (view : Database) (row : Row) : Bool :=
  !view.any (conflicts · row) && row.requires.all view.meets &&
    (match row with
    | .systemParent edge => edge.childId != edge.parentId
    | _ => true)

/-- The constraints are the ones of `Database.admits`. -/
theorem insertable_eq (view : Database) (row : Row) :
    insertable view row = view.admits (.insert row) := by
  have hkeys : view.any (conflicts · row) = !row.keys.all (fun key => !view.hasKey key) := by
    rw [Bool.eq_iff_iff, Bool.not_eq_true', List.all_eq_false, List.any_eq_true]
    simp only [conflicts_iff, Database.hasKey, Bool.not_eq_true', Bool.not_eq_false,
      List.any_eq_true, List.contains_iff_mem]
    constructor
    · rintro ⟨stored, hstored, key, hkey, hkey'⟩
      exact ⟨key, hkey', stored, hstored, hkey⟩
    · rintro ⟨key, hkey', stored, hstored, hkey⟩
      exact ⟨stored, hstored, key, hkey, hkey'⟩
  unfold insertable Database.admits
  rewrite [hkeys, Bool.not_not]
  cases row <;> rfl

/-- A row whose keys are free stays unique among the others. -/
theorem unique_insert {rows : Database} {row : Row} (h : rows.Unique)
    (hfree : ∀ stored ∈ rows, conflicts stored row = false) :
    Database.Unique (rows ++ [row]) := by
  unfold Database.Unique Database.keys at *
  rw [List.flatMap_append, List.flatMap_singleton, List.nodup_append']
  refine ⟨h, keys_nodup row, fun key hkey hrow => ?_⟩
  obtain ⟨stored, hstored, hkey⟩ := List.mem_flatMap.mp hkey
  have hconflict := conflicts_iff.mpr ⟨key, hkey, hrow⟩
  rw [hfree stored hstored] at hconflict
  cases hconflict

theorem unique_perm {rows rows' : Database} (hperm : rows.Perm rows') (h : rows.Unique) :
    rows'.Unique :=
  (hperm.flatMap_right Row.keys).nodup_iff.mp h

theorem unique_sublist {rows rows' : Database} (hsub : rows'.Sublist rows) (h : rows.Unique) :
    rows'.Unique :=
  h.sublist (hsub.flatMap Row.keys)

end Constraints

/-! ### Creations -/

namespace Identities

/-- The rows of `insert_system`, in order. -/
def systemRows (record : SystemRecord) : List Row :=
  [.resourceIdentity ⟨record.id, record.uid.text⟩, .systemIdentity ⟨record.id, record.label⟩] ++
    record.sources.map (fun source =>
      .sourceIdentity ⟨record.id, source.authority.text, source.identifier.text⟩) ++
    record.parent.toList.map (fun parent => .systemParent ⟨record.id, parent⟩)

/-- They are what the application writes for a System. -/
theorem systemWrites_eq (record : SystemRecord) :
    systemWrites record = (systemRows record).map .insert := by
  simp only [systemWrites, systemRows, List.map_append, List.map_cons, List.map_nil, List.map_map]
  rfl

/-- A transaction in which `insert_system` runs. -/
structure Creation where
  record : SystemRecord
  written : List Row
  left : List Row
  /-- a statement has failed, and only a ROLLBACK is left -/
  failed : Bool
deriving DecidableEq

def Creation.begin (record : SystemRecord) : Creation := ⟨record, [], systemRows record, false⟩

/-- One INSERT, in the sight of the transaction. -/
def Creation.insert (db : Database) (creation : Creation) : Creation :=
  match creation.left with
  | [] => creation
  | row :: left =>
      if insertable (db ++ creation.written) row then
        { creation with written := creation.written ++ [row], left := left }
      else { creation with failed := true }

/-- The committed rows, and the transactions under way. -/
structure Registry where
  db : Database
  creations : List Creation

inductive Event where
  | begin (record : SystemRecord)
  | insert (i : Nat)
  /-- a statement fails: a timeout, a deadlock, a lost connection -/
  | fail (i : Nat)
  | commit (i : Nat)
  | rollback (i : Nat)
  /-- a committed `UPDATE public.system_identity SET label` -/
  | label (id : LocalId) (label : String)

namespace Registry

/-- An INSERT waits for a transaction that has inserted a conflicting row. -/
def waits (w : Registry) (i : Nat) (row : Row) : Bool :=
  (w.creations.eraseIdx i).any (fun other => other.written.any (conflicts · row))

/-- Published UIDs are accepted ones: there is no other way to make a `Uid`. -/
def accepted (isUri : String → Bool) (record : SystemRecord) : Bool :=
  Uid.parse isUri record.uid.text == some record.uid

def step (isUri : String → Bool) (w : Registry) : Event → Option Registry
  | .begin record =>
      if accepted isUri record then
        some { w with creations := w.creations ++ [.begin record] }
      else none
  | .insert i =>
      (w.creations[i]?).bind (fun creation =>
        if creation.failed || creation.left.isEmpty || creation.left.head?.any (w.waits i) then none
        else some { w with creations := w.creations.set i (creation.insert w.db) })
  | .fail i =>
      (w.creations[i]?).map (fun creation =>
        { w with creations := w.creations.set i { creation with failed := true } })
  | .commit i =>
      (w.creations[i]?).bind (fun creation =>
        if creation.failed || !creation.left.isEmpty then none
        else some ⟨w.db ++ creation.written, w.creations.eraseIdx i⟩)
  | .rollback i =>
      (w.creations[i]?).map (fun _ => { w with creations := w.creations.eraseIdx i })
  | .label id label => some { w with db := w.db.map (Row.rewrite (.label id label)) }

/-- The migrated tables, with no row and no transaction. -/
def empty : Registry := ⟨[], []⟩

def machine (isUri : String → Bool) : Machine Registry Event where
  start := fun w => w = empty
  step := step isUri

/-- The rows of the database, committed or not. -/
def rows (w : Registry) : Database := w.db ++ w.creations.flatMap (·.written)

end Registry

section Runs

variable {isUri : String → Bool} {w w' : Registry} {e : Event}

/-- A transaction at its position among the others. -/
theorem creation_split {creations : List Creation} {i : Nat} {creation : Creation}
    (h : creations[i]? = some creation) :
    ∃ before after, creations = before ++ creation :: after ∧
      creations.eraseIdx i = before ++ after ∧
      ∀ creation', creations.set i creation' = before ++ creation' :: after := by
  obtain ⟨hi, rfl⟩ := List.getElem?_eq_some_iff.mp h
  refine ⟨creations.take i, creations.drop (i + 1), ?_, List.eraseIdx_eq_take_drop_succ _ _, ?_⟩
  · rw [← List.drop_eq_getElem_cons hi, List.take_append_drop]
  · intro creation'
    rw [List.set_eq_take_append_cons_drop, if_pos hi]

/-- The label of a record after an update of labels. -/
def relabel (id : LocalId) (label : String) (record : SystemRecord) : SystemRecord :=
  if record.id = id then { record with label := label } else record

theorem rewrite_systemRows (id : LocalId) (label : String) (record : SystemRecord) :
    (systemRows record).map (Row.rewrite (.label id label)) =
      systemRows (relabel id label record) := by
  have hsources : ∀ sources : List SourceIdentity, (sources.map (fun source =>
      Row.sourceIdentity ⟨record.id, source.authority.text, source.identifier.text⟩)).map
        (Row.rewrite (.label id label)) = sources.map (fun source =>
      Row.sourceIdentity ⟨record.id, source.authority.text, source.identifier.text⟩) := by
    intro sources
    rw [List.map_map]
    rfl
  unfold relabel
  split
  next heq =>
    cases hparent : record.parent <;>
      simp [systemRows, hparent, heq, Row.rewrite, Function.comp_def]
  next hne =>
    cases hparent : record.parent <;>
      simp [systemRows, hparent, hne, Row.rewrite, Function.comp_def]

theorem accepted_relabel {id : LocalId} {label : String} {record : SystemRecord} :
    Registry.accepted isUri (relabel id label record) = Registry.accepted isUri record := by
  unfold relabel
  split <;> rfl

/-- **The invariant.**  The committed rows are the ones of created Systems, and no two
rows of the database conflict, committed or not. -/
structure Inv (isUri : String → Bool) (w : Registry) : Prop where
  stored : ∃ records : List SystemRecord,
    (∀ record ∈ records, Registry.accepted isUri record = true) ∧
      w.db = records.flatMap systemRows
  unique : w.rows.Unique
  creations : ∀ creation ∈ w.creations, Registry.accepted isUri creation.record = true ∧
    creation.written ++ creation.left = systemRows creation.record

/-- The rows of one transaction after the rows of all others. -/
theorem rows_split {db : Database} {before after : List Creation} {creation : Creation} :
    (Registry.rows ⟨db, before ++ creation :: after⟩).Perm
      ((db ++ (before ++ after).flatMap (·.written)) ++ creation.written) := by
  simp only [Registry.rows, List.flatMap_append, List.flatMap_cons]
  rw [List.append_assoc, List.append_assoc]
  refine List.Perm.append_left db (List.Perm.append_left _ ?_)
  exact List.perm_append_comm

theorem Inv.base (h : Inv isUri w) : w.db.Unique :=
  unique_sublist (List.sublist_append_left _ _) h.unique

/-- One transaction goes on, with rows that conflict with no other. -/
theorem Inv.set (h : Inv isUri w) {i : Nat} {creation creation' : Creation}
    (hget : w.creations[i]? = some creation)
    (hrecord : creation'.record = creation.record)
    (hrows : creation'.written ++ creation'.left = creation.written ++ creation.left)
    (hunique : creation'.written = creation.written ∨
      ∃ row, creation'.written = creation.written ++ [row] ∧
        ∀ stored ∈ w.rows, conflicts stored row = false) :
    Inv isUri { w with creations := w.creations.set i creation' } := by
  obtain ⟨before, after, hsplit, -, hset⟩ := creation_split hget
  obtain ⟨db, creations⟩ := w
  simp only at hsplit hset hget
  subst hsplit
  refine ⟨h.stored, ?_, ?_⟩
  · rw [hset]
    refine unique_perm rows_split.symm ?_
    have hold := unique_perm rows_split h.unique
    obtain hsame | ⟨row, hsame, hfree⟩ := hunique
    · rwa [hsame]
    · rw [hsame, ← List.append_assoc]
      exact unique_insert hold fun stored hstored => hfree stored (rows_split.mem_iff.mpr hstored)
  · intro other hother
    simp only [hset] at hother
    obtain hother | hother := List.mem_append.mp hother
    · exact h.creations other (List.mem_append_left _ hother)
    · obtain rfl | hother := List.mem_cons.mp hother
      · obtain ⟨haccepted, hrows'⟩ :=
          h.creations creation (List.mem_append_right _ List.mem_cons_self)
        exact ⟨hrecord ▸ haccepted, by rw [hrows, hrows', hrecord]⟩
      · exact h.creations other (List.mem_append_right _ (List.mem_cons_of_mem _ hother))

/-- **One INSERT.** -/
theorem Inv.insert (h : Inv isUri w) {i : Nat} {creation : Creation}
    (hget : w.creations[i]? = some creation)
    (hfree : creation.left.head?.any (w.waits i) = false) :
    Inv isUri { w with creations := w.creations.set i (creation.insert w.db) } := by
  unfold Creation.insert
  split
  next => exact h.set hget rfl rfl (.inl rfl)
  next row left hleft =>
    split
    next hinsertable =>
      refine h.set hget rfl (by simp [hleft]) (.inr ⟨row, rfl, fun stored hstored => ?_⟩)
      have hview : ∀ stored ∈ w.db ++ creation.written, conflicts stored row = false := by
        simp only [insertable, Bool.and_eq_true, Bool.not_eq_true'] at hinsertable
        exact fun stored hstored => by simpa using List.any_eq_false.mp hinsertable.1.1 stored hstored
      have hothers : ∀ other ∈ w.creations.eraseIdx i, ∀ stored ∈ other.written,
          conflicts stored row = false := by
        rw [hleft, List.head?_cons, Option.any_some, Registry.waits] at hfree
        intro other hother stored hstored
        have hother := List.any_eq_false.mp hfree other hother
        simpa using List.any_eq_false.mp (by simpa using hother) stored hstored
      obtain ⟨before, after, hsplit, herase, -⟩ := creation_split hget
      have hstored : stored ∈ Registry.rows ⟨w.db, before ++ creation :: after⟩ := by
        rwa [← hsplit]
      rw [rows_split.mem_iff, ← herase] at hstored
      rcases List.mem_append.mp hstored with hstored | hstored
      · rcases List.mem_append.mp hstored with hstored | hstored
        · exact hview stored (List.mem_append_left _ hstored)
        · obtain ⟨other, hother, hstored⟩ := List.mem_flatMap.mp hstored
          exact hothers other hother stored hstored
      · exact hview stored (List.mem_append_right _ hstored)
    next => exact h.set hget rfl rfl (.inl rfl)

theorem Inv.commit (h : Inv isUri w) {i : Nat} {creation : Creation}
    (hget : w.creations[i]? = some creation) (hleft : creation.left = []) :
    Inv isUri ⟨w.db ++ creation.written, w.creations.eraseIdx i⟩ := by
  obtain ⟨before, after, hsplit, herase, -⟩ := creation_split hget
  obtain ⟨haccepted, hrows⟩ := h.creations creation (List.mem_of_getElem? hget)
  rw [hleft, List.append_nil] at hrows
  refine ⟨?_, ?_, fun other hother =>
    h.creations other ((List.eraseIdx_sublist _ _).subset hother)⟩
  · obtain ⟨records, hrecords, hdb⟩ := h.stored
    refine ⟨records ++ [creation.record], fun record hrecord => ?_, ?_⟩
    · obtain hrecord | hrecord := List.mem_append.mp hrecord
      · exact hrecords record hrecord
      · exact List.mem_singleton.mp hrecord ▸ haccepted
    · rw [List.flatMap_append, List.flatMap_singleton, hdb, hrows]
  · have hunique : Database.Unique (Registry.rows ⟨w.db, before ++ creation :: after⟩) :=
      hsplit ▸ h.unique
    refine unique_perm ?_ hunique
    rw [herase]
    refine rows_split.trans ?_
    rw [Registry.rows, List.append_assoc, List.append_assoc]
    exact List.Perm.append_left _ List.perm_append_comm

theorem Inv.rollback (h : Inv isUri w) (i : Nat) :
    Inv isUri { w with creations := w.creations.eraseIdx i } where
  stored := h.stored
  unique := unique_sublist
    (List.Sublist.append_left ((List.eraseIdx_sublist _ _).flatMap _) _) h.unique
  creations other hother := h.creations other ((List.eraseIdx_sublist _ _).subset hother)

theorem Inv.label (h : Inv isUri w) (id : LocalId) (label : String) :
    Inv isUri { w with db := w.db.map (Row.rewrite (.label id label)) } where
  stored := by
    obtain ⟨records, hrecords, hdb⟩ := h.stored
    refine ⟨records.map (relabel id label), fun record hrecord => ?_, ?_⟩
    · obtain ⟨before, hbefore, rfl⟩ := List.mem_map.mp hrecord
      rw [accepted_relabel]
      exact hrecords before hbefore
    · rw [hdb, List.map_flatMap, List.flatMap_map]
      simp only [rewrite_systemRows]
  unique := by
    have hkeys : Database.keys (Registry.rows { w with
        db := w.db.map (Row.rewrite (.label id label)) }) = w.rows.keys := by
      simp only [Registry.rows, Database.keys, List.flatMap_append, List.flatMap_map,
        Row.keys_rewrite]
    unfold Database.Unique
    rw [hkeys]
    exact h.unique
  creations := h.creations

theorem Inv.step (h : Inv isUri w) (hstep : w.step isUri e = some w') : Inv isUri w' := by
  cases e with
  | begin record =>
      simp only [Registry.step] at hstep
      split at hstep
      next haccepted =>
        obtain rfl := Option.some.inj hstep
        refine ⟨h.stored, ?_, fun creation hcreation => ?_⟩
        · simpa [Registry.rows, Creation.begin] using h.unique
        · obtain hcreation | hcreation := List.mem_append.mp hcreation
          · exact h.creations creation hcreation
          · obtain rfl := List.mem_singleton.mp hcreation
            exact ⟨haccepted, rfl⟩
      next => cases hstep
  | insert i =>
      obtain ⟨creation, hget, hstep⟩ := Option.bind_eq_some_iff.mp hstep
      split at hstep
      next => cases hstep
      next hgo =>
        obtain rfl := Option.some.inj hstep
        simp only [Bool.or_eq_true, not_or, Bool.not_eq_true] at hgo
        exact h.insert hget hgo.2
  | fail i =>
      obtain ⟨creation, hget, rfl⟩ := Option.map_eq_some_iff.mp hstep
      exact h.set hget rfl rfl (.inl rfl)
  | commit i =>
      obtain ⟨creation, hget, hstep⟩ := Option.bind_eq_some_iff.mp hstep
      split at hstep
      next => cases hstep
      next hgo =>
        obtain rfl := Option.some.inj hstep
        have hgo : creation.failed = false ∧ creation.left = [] := by simpa using hgo
        exact h.commit hget hgo.2
  | rollback i =>
      obtain ⟨creation, -, rfl⟩ := Option.map_eq_some_iff.mp hstep
      exact h.rollback i
  | label id label =>
      obtain rfl := Option.some.inj hstep
      exact h.label id label

theorem inv_of_reachable (h : (Registry.machine isUri).Reachable w) : Inv isUri w := by
  refine h.invariant ?_ fun _ _ _ hinv hstep => hinv.step hstep
  rintro _ rfl
  exact ⟨⟨[], by simp, rfl⟩, by simp [Registry.rows, Registry.empty, Database.Unique,
    Database.keys], by simp [Registry.empty]⟩

/-- Committed aliases stay. -/
theorem sourceIdentity_kept (h : (Registry.machine isUri).Leads w w') {row : SourceIdentityRow}
    (hrow : Row.sourceIdentity row ∈ w.db) : Row.sourceIdentity row ∈ w'.db := by
  refine h.invariant (P := fun w => Row.sourceIdentity row ∈ w.db) ?_ hrow
  intro w e w' hrow hstep
  cases e with
  | begin record =>
      simp only [Registry.machine, Registry.step] at hstep
      split at hstep
      next => exact Option.some.inj hstep ▸ hrow
      next => cases hstep
  | insert i =>
      obtain ⟨creation, -, hstep⟩ := Option.bind_eq_some_iff.mp hstep
      split at hstep
      next => cases hstep
      next => exact Option.some.inj hstep ▸ hrow
  | fail i =>
      obtain ⟨creation, -, rfl⟩ := Option.map_eq_some_iff.mp hstep
      exact hrow
  | commit i =>
      obtain ⟨creation, -, hstep⟩ := Option.bind_eq_some_iff.mp hstep
      split at hstep
      next => cases hstep
      next => exact Option.some.inj hstep ▸ List.mem_append_left _ hrow
  | rollback i =>
      obtain ⟨creation, -, rfl⟩ := Option.map_eq_some_iff.mp hstep
      exact hrow
  | label id label =>
      obtain rfl := Option.some.inj hstep
      exact List.mem_map.mpr ⟨_, hrow, rfl⟩

end Runs

/-! ### `find_source` -/

section Find

/-- One result row of `get`. -/
structure GetRow where
  id : String
  uid : String
  label : String
  parent : Option String
  authority : Option String
  identifier : Option String

/-- `ORDER BY a.authority, a.identifier`; null sorts last. -/
def aliasOrder (source : Option SourceIdentityRow) : WithTop String ×ₗ WithTop String :=
  toLex (source.map (·.authority), source.map (·.identifier))

/-- The columns of a joined row. -/
def getRow (row : ((SystemIdentity × ResourceIdentity) × Option SystemParent) ×
    Option SourceIdentityRow) : GetRow where
  id := row.1.1.2.id.text
  uid := row.1.1.2.uid
  label := row.1.1.1.label
  parent := row.1.2.map (·.parentId.text)
  authority := row.2.map (·.authority)
  identifier := row.2.map (·.identifier)

/-- The query of `get`. -/
def getRows (db : Database) (id : LocalId) : List GetRow :=
  let systems := db.systemIdentity.filter (fun s => s.id = id)
  let resources := systems.flatMap (fun s =>
    (db.resourceIdentity.filter (fun r => r.id = s.id)).map (fun r => (s, r)))
  let parents := leftJoin resources db.systemParent (fun row p => p.childId = row.1.id)
  let aliases := leftJoin parents db.sourceIdentity (fun row a => a.resourceId = row.1.1.id)
  (sortBy (fun row => aliasOrder row.2) aliases).map getRow

variable (isUri : String → Bool)

/-- The alias of a result row, added to the record. -/
def pushAlias (record : SystemRecord) (row : GetRow) : Except StorageError SystemRecord :=
  match row.authority with
  | none => .ok record
  | some authority => do
      let authority ← parseStored (SourceText.parse authority)
      let identifier ← parseStored (SourceText.parse (← tryGet row.identifier))
      return { record with sources := record.sources ++ [⟨authority, identifier⟩] }

/-- The parent column. -/
def storedParent : Option String → Except StorageError (Option LocalId)
  | none => .ok none
  | some text => (parseStored (LocalId.parse text)).map some

/-- What `get` makes of the result rows. -/
def readRecord (rows : List GetRow) : Except StorageError (Option SystemRecord) :=
  match rows.head? with
  | none => .ok none
  | some first => do
      let id ← parseStored (LocalId.parse first.id)
      let uid ← parseStored (Uid.parse isUri first.uid)
      let parent ← storedParent first.parent
      let record ← rows.foldlM pushAlias ⟨id, uid, first.label, [], parent⟩
      return some record

/-- `SystemRepository::get`, after `check_schema`. -/
def getSystem (schema : Except StorageError Unit) (db : Database) (id : LocalId) :
    Except StorageError (Option SystemRecord) := do
  schema
  readRecord isUri (getRows db id)

/-- The query of `find_source`. -/
def sourceQuery (db : Database) (source : SourceIdentity) : List String :=
  (db.sourceIdentity.filter (fun row => sourceKey row.authority row.identifier =
    sourceKey source.authority.text source.identifier.text)).map (·.resourceId.text)

/-- `SystemRepository::find_source`.  Its two statements see the committed rows of two
moments. -/
def findSource (schema : Except StorageError Unit) (first second : Database)
    (source : SourceIdentity) : Except StorageError (Option SystemRecord) := do
  schema
  match (sourceQuery first source).head? with
  | none => return none
  | some text => do
      let id ← parseStored (LocalId.parse text)
      getSystem isUri schema second id

end Find

/-- A record says what the tables say. -/
structure Describes (db : Database) (record : SystemRecord) : Prop where
  resource : Row.resourceIdentity ⟨record.id, record.uid.text⟩ ∈ db
  system : Row.systemIdentity ⟨record.id, record.label⟩ ∈ db
  parent : ∀ parent, record.parent = some parent ↔ Row.systemParent ⟨record.id, parent⟩ ∈ db
  sources : ∀ source : SourceIdentity, source ∈ record.sources ↔
    Row.sourceIdentity ⟨record.id, source.authority.text, source.identifier.text⟩ ∈ db

section Found

variable {isUri : String → Bool} {db : Database} {records : List SystemRecord}

/-- Rows of one table come from one column of the records. -/
theorem mem_systemRows {row : Row} {record : SystemRecord} :
    row ∈ systemRows record ↔ row = .resourceIdentity ⟨record.id, record.uid.text⟩ ∨
      row = .systemIdentity ⟨record.id, record.label⟩ ∨
      (∃ source ∈ record.sources,
        row = .sourceIdentity ⟨record.id, source.authority.text, source.identifier.text⟩) ∨
      ∃ parent, record.parent = some parent ∧ row = .systemParent ⟨record.id, parent⟩ := by
  simp only [systemRows, List.mem_append, List.mem_cons, List.not_mem_nil, or_false, List.mem_map,
    Option.mem_toList, or_assoc, eq_comm]

theorem source_text_inj {a b : SourceIdentity} (hauthority : a.authority.text = b.authority.text)
    (hidentifier : a.identifier.text = b.identifier.text) : a = b := by
  obtain ⟨⟨authority, _⟩, ⟨identifier, _⟩⟩ := a
  obtain ⟨⟨authority', _⟩, ⟨identifier', _⟩⟩ := b
  obtain rfl : authority = authority' := hauthority
  obtain rfl : identifier = identifier' := hidentifier
  rfl

theorem singleton_of_length_le_one {α : Type} {l : List α} {a : α} (h : l.length ≤ 1)
    (ha : a ∈ l) : l = [a] := by
  cases l with
  | nil => cases ha
  | cons b rest =>
      cases rest with
      | nil => rw [List.mem_singleton.mp ha]
      | cons c rest => simp at h

/-- The loop over the alias columns. -/
theorem foldlM_pushAlias (columns : List (Option SourceIdentity)) (rows : List GetRow)
    (hrows : rows.map (fun row => (row.authority, row.identifier)) =
      columns.map (fun column =>
        (column.map (·.authority.text), column.map (·.identifier.text))))
    (record : SystemRecord) :
    rows.foldlM pushAlias record =
      .ok { record with sources := record.sources ++ columns.filterMap id } := by
  induction columns generalizing rows record with
  | nil =>
      obtain rfl := List.map_eq_nil_iff.mp hrows
      simp
  | cons column columns ih =>
      cases rows with
      | nil => cases hrows
      | cons row rows =>
          obtain ⟨hrow, htail⟩ := List.cons.inj hrows
          obtain ⟨hauthority, hidentifier⟩ := Prod.mk.inj hrow
          rw [List.foldlM_cons]
          cases column with
          | none =>
              have hpush : pushAlias record row = .ok record := by
                rw [pushAlias, hauthority]
                rfl
              rw [hpush, ok_bind, ih rows htail]
              rfl
          | some source =>
              have hpush : pushAlias record row =
                  .ok { record with sources := record.sources ++ [source] } := by
                simp only [pushAlias, hauthority, hidentifier, Option.map_some, tryGet,
                  SourceText.parse_text, parseStored, ok_bind]
                rfl
              rw [hpush, ok_bind, ih rows htail]
              simp

/-- The pair of an alias row. -/
def sourceOf (row : SourceIdentityRow) : Option SourceIdentity :=
  (SourceText.parse row.authority).bind fun authority =>
    (SourceText.parse row.identifier).map fun identifier => ⟨authority, identifier⟩

theorem text_of_parse {text : String} {source : SourceText}
    (h : SourceText.parse text = some source) : source.text = text := by
  unfold SourceText.parse at h
  split at h
  next => exact Option.some.inj h ▸ rfl
  next => cases h

theorem sourceOf_eq_some {row : SourceIdentityRow} {source : SourceIdentity} :
    sourceOf row = some source ↔
      row.authority = source.authority.text ∧ row.identifier = source.identifier.text := by
  constructor
  · intro h
    obtain ⟨authority, hauthority, h⟩ := Option.bind_eq_some_iff.mp h
    obtain ⟨identifier, hidentifier, rfl⟩ := Option.map_eq_some_iff.mp h
    exact ⟨(text_of_parse hauthority).symm, (text_of_parse hidentifier).symm⟩
  · rintro ⟨hauthority, hidentifier⟩
    rw [sourceOf, hauthority, hidentifier, SourceText.parse_text, SourceText.parse_text]
    rfl

/-- A stored alias is a pair of source texts, under the ID of a created System. -/
theorem stored_alias (hdb : db = records.flatMap systemRows) {row : SourceIdentityRow}
    (hrow : Row.sourceIdentity row ∈ db) :
    ∃ created ∈ records, created.id = row.resourceId ∧ ∃ source, sourceOf row = some source := by
  rw [hdb] at hrow
  obtain ⟨created, hcreated, hrow⟩ := List.mem_flatMap.mp hrow
  rw [mem_systemRows] at hrow
  obtain hrow | hrow | ⟨source, -, hrow⟩ | ⟨parent, -, hrow⟩ := hrow
  · cases hrow
  · cases hrow
  · obtain rfl := Row.sourceIdentity.inj hrow
    exact ⟨created, hcreated, rfl, source, sourceOf_eq_some.mpr ⟨rfl, rfl⟩⟩
  · cases hrow

/-- The joined rows of one created System, before sorting. -/
theorem getRows_of_created (hunique : db.Unique) (hdb : db = records.flatMap systemRows)
    {created : SystemRecord} (hcreated : created ∈ records) :
    getRows db created.id =
      (sortBy (fun row => aliasOrder row.2)
        (leftJoin [((⟨created.id, created.label⟩, ⟨created.id, created.uid.text⟩),
            Sql.parent? db created.id)] db.sourceIdentity
          (fun row a => a.resourceId = row.1.1.id))).map getRow := by
  have hmem : ∀ row ∈ systemRows created, row ∈ db :=
    fun row hrow => hdb ▸ List.mem_flatMap.mpr ⟨created, hcreated, hrow⟩
  have hsystems : db.systemIdentity.filter (fun s => s.id = created.id) =
      [⟨created.id, created.label⟩] := by
    refine singleton_of_length_le_one (Sql.systemIdentity_filter hunique _) ?_
    exact List.mem_filter.mpr ⟨mem_systemIdentity.mpr (hmem _ (mem_systemRows.mpr (.inr (.inl rfl)))),
      by simp⟩
  have hresources : db.resourceIdentity.filter (fun r => r.id = created.id) =
      [⟨created.id, created.uid.text⟩] := by
    refine singleton_of_length_le_one (Sql.resourceIdentity_filter hunique _) ?_
    exact List.mem_filter.mpr ⟨mem_resourceIdentity.mpr (hmem _ (mem_systemRows.mpr (.inl rfl))),
      by simp⟩
  have hparents : leftJoin
      [((⟨created.id, created.label⟩ : SystemIdentity),
        (⟨created.id, created.uid.text⟩ : ResourceIdentity))] db.systemParent
      (fun row p => p.childId = row.1.id) =
        [((⟨created.id, created.label⟩, ⟨created.id, created.uid.text⟩),
          Sql.parent? db created.id)] := by
    rw [leftJoin_eq_map (fun row hrow => ?_)]
    · rfl
    · exact Sql.systemParent_filter hunique row.1.id
  simp only [getRows, hsystems, List.flatMap_singleton, hresources, List.map_singleton, hparents]

theorem storedParent_text (parent : Option LocalId) :
    storedParent (parent.map (·.text)) = .ok parent := by
  cases parent with
  | none => rfl
  | some parent =>
      rw [Option.map_some, storedParent, LocalId.parse_text]
      rfl

theorem parent_column (hunique : db.Unique) (id parent : LocalId) :
    (Sql.parent? db id).map (·.parentId) = some parent ↔ Row.systemParent ⟨id, parent⟩ ∈ db := by
  rw [Option.map_eq_some_iff]
  constructor
  · rintro ⟨⟨child, parent'⟩, hparent, rfl⟩
    obtain ⟨hmem, rfl⟩ := (Sql.parent?_eq_some hunique).mp hparent
    exact mem_systemParent.mp hmem
  · intro hrow
    exact ⟨_, (Sql.parent?_eq_some hunique).mpr ⟨mem_systemParent.mpr hrow, rfl⟩, rfl⟩

/-- **`get`** of a created System returns what the tables say of it. -/
theorem readRecord_created (hunique : db.Unique) (hdb : db = records.flatMap systemRows)
    {created : SystemRecord} (hcreated : created ∈ records)
    (haccepted : Registry.accepted isUri created = true) :
    ∃ record, readRecord isUri (getRows db created.id) = .ok (some record) ∧
      record.id = created.id ∧ Describes db record := by
  have hmem : ∀ row ∈ systemRows created, row ∈ db :=
    fun row hrow => hdb ▸ List.mem_flatMap.mpr ⟨created, hcreated, hrow⟩
  rw [getRows_of_created hunique hdb hcreated]
  generalize hjoined : leftJoin [(((⟨created.id, created.label⟩ : SystemIdentity),
    (⟨created.id, created.uid.text⟩ : ResourceIdentity)), Sql.parent? db created.id)]
    db.sourceIdentity (fun row a => a.resourceId = row.1.1.id) = joined
  have hjoin : joined ≠ [] := by
    rw [← hjoined]
    exact leftJoin_ne_nil (List.cons_ne_nil _ _)
  have hne : sortBy (fun row => aliasOrder row.2) joined ≠ [] := by
    intro hnil
    have hperm := sortBy_perm (fun row => aliasOrder row.2) joined
    rw [hnil] at hperm
    exact hjoin hperm.nil_eq.symm
  have hentry : ∀ entry ∈ sortBy (fun row => aliasOrder row.2) joined,
      entry.1 = ((⟨created.id, created.label⟩, ⟨created.id, created.uid.text⟩),
        Sql.parent? db created.id) ∧
      ∀ row, entry.2 = some row → Row.sourceIdentity row ∈ db ∧ row.resourceId = created.id := by
    intro entry hentry
    rw [mem_sortBy, ← hjoined, mem_leftJoin] at hentry
    obtain ⟨hleft, hcolumn⟩ := hentry
    have hleft := List.mem_singleton.mp hleft
    refine ⟨hleft, ?_⟩
    rintro row hrow
    obtain ⟨hnone, -⟩ | ⟨a, ha, hon, hsome⟩ := hcolumn
    · rw [hnone] at hrow
      cases hrow
    · obtain rfl := Option.some.inj (hrow.symm.trans hsome)
      rw [hleft] at hon
      exact ⟨mem_sourceIdentity.mp ha, of_decide_eq_true hon⟩
  have hfound : ∀ row, Row.sourceIdentity row ∈ db → row.resourceId = created.id →
      ∃ entry ∈ sortBy (fun row => aliasOrder row.2) joined, entry.2 = some row := by
    intro row hrow hid
    refine ⟨(((⟨created.id, created.label⟩, ⟨created.id, created.uid.text⟩),
      Sql.parent? db created.id), some row), ?_, rfl⟩
    rw [mem_sortBy, ← hjoined, mem_leftJoin]
    exact ⟨List.mem_singleton_self _,
      .inr ⟨row, mem_sourceIdentity.mpr hrow, decide_eq_true hid, rfl⟩⟩
  generalize sortBy (fun row => aliasOrder row.2) joined = sorted at hne hentry hfound
  obtain ⟨first, rest, rfl⟩ := List.exists_cons_of_ne_nil hne
  have hfirst := (hentry first List.mem_cons_self).1
  have hloop := foldlM_pushAlias ((first :: rest).map fun entry => entry.2.bind sourceOf)
    ((first :: rest).map getRow) (by
      rw [List.map_map, List.map_map]
      refine List.map_congr_left fun entry hmem => ?_
      cases hcolumn : entry.2 with
      | none => simp [getRow, hcolumn]
      | some row =>
          obtain ⟨hrow, -⟩ := (hentry entry hmem).2 row hcolumn
          obtain ⟨-, -, -, source, hsource⟩ := stored_alias hdb hrow
          obtain ⟨hauthority, hidentifier⟩ := sourceOf_eq_some.mp hsource
          simp [getRow, hcolumn, hsource, hauthority, hidentifier])
    ⟨created.id, created.uid, created.label, [], (Sql.parent? db created.id).map (·.parentId)⟩
  refine ⟨⟨created.id, created.uid, created.label,
    ((first :: rest).map fun entry => entry.2.bind sourceOf).filterMap id,
    (Sql.parent? db created.id).map (·.parentId)⟩, ?_, rfl, ?_⟩
  · have huid : Uid.parse isUri created.uid.text = some created.uid := eq_of_beq haccepted
    have hparent := storedParent_text ((Sql.parent? db created.id).map (·.parentId))
    rw [Option.map_map] at hparent
    have hfields : getRow first = ⟨created.id.text, created.uid.text, created.label,
        (Sql.parent? db created.id).map (LocalId.text ∘ SystemParent.parentId),
        first.2.map (·.authority), first.2.map (·.identifier)⟩ := by
      rw [getRow, hfirst]
      rfl
    rw [readRecord, List.map_cons, List.head?_cons, ← List.map_cons]
    simp only [hfields, LocalId.parse_text, huid, parseStored, ok_bind, hparent, hloop]
    rfl
  · refine ⟨hmem _ (mem_systemRows.mpr (.inl rfl)), hmem _ (mem_systemRows.mpr (.inr (.inl rfl))),
      parent_column hunique created.id, fun source => ?_⟩
    simp only [List.mem_filterMap, List.mem_map, id_eq]
    constructor
    · rintro ⟨_, ⟨entry, hentry', rfl⟩, hsource⟩
      obtain ⟨row, hcolumn, hsource⟩ := Option.bind_eq_some_iff.mp hsource
      obtain ⟨hrow, hid⟩ := (hentry entry hentry').2 row hcolumn
      obtain ⟨hauthority, hidentifier⟩ := sourceOf_eq_some.mp hsource
      rw [← hauthority, ← hidentifier, ← hid]
      exact hrow
    · intro hrow
      obtain ⟨entry, hentry', hcolumn⟩ := hfound _ hrow rfl
      refine ⟨some source, ⟨entry, hentry', ?_⟩, rfl⟩
      rw [hcolumn]
      exact sourceOf_eq_some.mpr ⟨rfl, rfl⟩

/-- The rows that `find_source` selects hold the pair. -/
theorem mem_sourceQuery {source : SourceIdentity} {text : String} :
    text ∈ sourceQuery db source ↔ ∃ row ∈ db.sourceIdentity,
      (row.authority = source.authority.text ∧ row.identifier = source.identifier.text) ∧
        row.resourceId.text = text := by
  simp only [sourceQuery, List.mem_map, List.mem_filter, decide_eq_true_eq, sourceKey_inj, and_assoc]

theorem sourceIdentity_nodup (hunique : db.Unique) :
    (db.sourceIdentity.map (fun row => (row.authority, row.identifier))).Nodup := by
  have hrows : db.sourceIdentity.Nodup := by
    refine List.Nodup.filterMap ?_ hunique.nodup
    intro row row' alias_ halias halias'
    cases row <;> cases row' <;> simp_all [Row.sourceIdentity?]
  refine hrows.map_on fun row hrow row' hrow' heq => ?_
  obtain ⟨hauthority, hidentifier⟩ := Prod.mk.inj heq
  exact Sql.sourceIdentity_ext hunique hrow hrow' hauthority hidentifier

end Found

section Exact

variable {isUri : String → Bool} {w w' : Registry} {source : SourceIdentity}

theorem findSource_absent (h : ∀ row ∈ w.db.sourceIdentity,
    ¬ (row.authority = source.authority.text ∧ row.identifier = source.identifier.text)) :
    findSource isUri (.ok ()) w.db w'.db source = .ok none := by
  have hnil : sourceQuery w.db source = [] := by
    refine List.eq_nil_iff_forall_not_mem.mpr fun text htext => ?_
    obtain ⟨row, hrow, hpair, -⟩ := mem_sourceQuery.mp htext
    exact h row hrow hpair
  simp only [findSource, hnil, List.head?_nil, ok_bind]
  rfl

theorem findSource_present (h : (Registry.machine isUri).Reachable w)
    (hrun : (Registry.machine isUri).Leads w w') {row : SourceIdentityRow}
    (hrow : row ∈ w.db.sourceIdentity) (hauthority : row.authority = source.authority.text)
    (hidentifier : row.identifier = source.identifier.text) :
    ∃ record, findSource isUri (.ok ()) w.db w'.db source = .ok (some record) ∧
      record.id = row.resourceId ∧ source ∈ record.sources ∧ Describes w'.db record := by
  have hunique := (inv_of_reachable h).base
  have hlater := inv_of_reachable (h.leads hrun)
  obtain ⟨records, haccepted, hdb⟩ := hlater.stored
  have hkept := sourceIdentity_kept hrun (mem_sourceIdentity.mp hrow)
  obtain ⟨created, hcreated, hid, -⟩ := stored_alias hdb hkept
  obtain ⟨record, hread, hrecord, hdescribes⟩ :=
    readRecord_created hlater.base hdb hcreated (haccepted created hcreated)
  have hhead : (sourceQuery w.db source).head? = some row.resourceId.text := by
    have hne : sourceQuery w.db source ≠ [] :=
      List.ne_nil_of_mem (mem_sourceQuery.mpr ⟨row, hrow, ⟨hauthority, hidentifier⟩, rfl⟩)
    obtain ⟨text, rest, hcons⟩ := List.exists_cons_of_ne_nil hne
    have htext : text ∈ sourceQuery w.db source := hcons ▸ List.mem_cons_self
    obtain ⟨row', hrow', ⟨hauthority', hidentifier'⟩, rfl⟩ := mem_sourceQuery.mp htext
    have hsame := Sql.sourceIdentity_ext hunique hrow hrow' (hauthority.trans hauthority'.symm)
      (hidentifier.trans hidentifier'.symm)
    rw [hcons, hsame]
    rfl
  refine ⟨record, ?_, hrecord.trans hid, ?_, hdescribes⟩
  · rw [← hid] at hhead
    simp only [findSource, hhead, ok_bind, LocalId.parse_text, parseStored, getSystem]
    exact hread
  · rw [hdescribes.sources, hrecord, hid, ← hauthority, ← hidentifier]
    exact hkept

end Exact

/-- What the key of a pair and `find_source` come to, for the contents of `w`, and of `w'`
for the second statement. -/
structure SourcesExact (isUri : String → Bool) (w w' : Registry) : Prop where
  injective : ∀ authority authority' identifier identifier',
    sourceKey authority identifier = sourceKey authority' identifier' ↔
      authority = authority' ∧ identifier = identifier'
  distinct : (w.db.sourceIdentity.map (fun row => (row.authority, row.identifier))).Nodup
  present : ∀ (source : SourceIdentity), ∀ row ∈ w.db.sourceIdentity,
    row.authority = source.authority.text → row.identifier = source.identifier.text →
      ∃ record, findSource isUri (.ok ()) w.db w'.db source = .ok (some record) ∧
        record.id = row.resourceId ∧ source ∈ record.sources ∧ Describes w'.db record
  absent : ∀ source : SourceIdentity, (∀ row ∈ w.db.sourceIdentity,
    ¬ (row.authority = source.authority.text ∧ row.identifier = source.identifier.text)) →
      findSource isUri (.ok ()) w.db w'.db source = .ok none

/-- **Source identities.**  The key tells all pairs apart; in every reachable state no two
rows hold one pair, and `find_source` returns the System that holds the pair, if any. -/
theorem source_identity_exact {isUri : String → Bool} {w w' : Registry}
    (h : (Registry.machine isUri).Reachable w) (hrun : (Registry.machine isUri).Leads w w') :
    SourcesExact isUri w w' where
  injective _ _ _ _ := sourceKey_inj
  distinct := sourceIdentity_nodup (inv_of_reachable h).base
  present _ _ hrow hauthority hidentifier := findSource_present h hrun hrow hauthority hidentifier
  absent _ habsent := findSource_absent habsent

def sampleSystem : LocalId := ⟨"01890f20-7b5a-7cc3-98c4-0000000000d1", by decide +kernel⟩
def sampleOther : LocalId := ⟨"01890f20-7b5a-7cc3-98c4-0000000000d2", by decide +kernel⟩

def sampleAlias : SourceIdentity :=
  ⟨⟨"1:é", by decide +kernel⟩, ⟨":x", by decide +kernel⟩⟩

def sampleCreated : SystemRecord := ⟨sampleSystem, ⟨"urn:a"⟩, "A", [sampleAlias], none⟩

/-- Two transactions create Systems under one pair: the second one waits, and then fails. -/
def sampleRun : List Event :=
  [.begin sampleCreated, .begin { sampleCreated with id := sampleOther, uid := ⟨"urn:b"⟩ },
    .insert 0, .insert 0, .insert 0, .insert 1, .insert 1, .commit 0, .insert 0, .rollback 0,
    .label sampleSystem "B"]

theorem source_identity_exact_run : ∃ w : Registry,
    (Registry.machine fun _ => true).runEvents Registry.empty sampleRun = some w ∧
      w.db.sourceIdentity = [⟨sampleSystem, "1:é", ":x"⟩] ∧
      SourcesExact (fun _ => true) w w := by
  have hrun : ((Registry.machine fun _ => true).runEvents Registry.empty sampleRun).map
      (·.db.sourceIdentity) = some [⟨sampleSystem, "1:é", ":x"⟩] := by decide +kernel
  obtain ⟨w, hw, hrows⟩ := Option.map_eq_some_iff.mp hrun
  exact ⟨w, hw, hrows, source_identity_exact (Machine.reachable_of_runEvents rfl hw) (.refl w)⟩

end Identities
end Server
end Glaux
