import Glaux.Domain.InstantOrder
import Glaux.Server.Authorization.Storage

/-!
# Stored instants (`temporal.rs`, `revisions.rs`)

An instant is stored as civil second, leap mark, decimal fraction and source.  Reading the
parts back parses the source again and refuses a key that does not belong to it.
-/

namespace Glaux
namespace Server

open Domain Library Library.Machine

/-! ### The row -/

/-- `SystemRevision` with its instants as they were parsed. -/
structure Revision where
  id : RevisionId
  systemId : LocalId
  artifactId : ArtifactId
  semanticTime : Option Instant
  receiptTime : Instant
deriving DecidableEq

/-- The columns of `system_revision`; the columns of the receipt are never null. -/
structure RevisionRow where
  id : String
  systemId : String
  artifactId : String
  semanticCivilSecond : Option Int
  semanticLeap : Option Bool
  semanticFraction : Option String
  semanticSource : Option String
  receiptCivilSecond : Int
  receiptLeap : Bool
  receiptFraction : String
  receiptSource : String

/-- `fraction_decimal` of an optional time. -/
def optionalFraction : Option Instant → Run TimeError (Option String)
  | none => .ok none
  | some instant => some <$> Machine.fractionDecimal instant

def Revision.row (revision : Revision) (semanticFraction : Option String)
    (receiptFraction : String) : RevisionRow where
  id := revision.id.id.text
  systemId := revision.systemId.text
  artifactId := revision.artifactId.id.text
  semanticCivilSecond := revision.semanticTime.map (·.civilSecond)
  semanticLeap := revision.semanticTime.map (·.leap)
  semanticFraction := semanticFraction
  semanticSource := revision.semanticTime.map (·.source)
  receiptCivilSecond := revision.receiptTime.civilSecond
  receiptLeap := revision.receiptTime.leap
  receiptFraction := receiptFraction
  receiptSource := revision.receiptTime.source

/-- The values `insert_revision` binds. -/
def Revision.insert (revision : Revision) : Run TimeError RevisionRow := do
  let semanticFraction ← optionalFraction revision.semanticTime
  let receiptFraction ← Machine.fractionDecimal revision.receiptTime
  .ok (revision.row semanticFraction receiptFraction)

/-- `from_storage_parts`, with its errors as stored values that are not valid. -/
def storedInstant (civilSecond : Int) (leap : Bool) (fraction source : String) :
    Run StorageError Instant :=
  mapRefused (fun _ => .invalidStoredValue)
    (Machine.fromStorageParts civilSecond leap fraction source)

/-- The optional time: all four columns or none. -/
def semanticTime : Option Int → Option Bool → Option String → Option String →
    Run StorageError (Option Instant)
  | none, none, none, none => .ok none
  | some second, some leap, some fraction, some source =>
      some <$> storedInstant second leap fraction source
  | _, _, _, _ => refuse .invalidStoredValue

def storedId (text : String) : Run StorageError LocalId :=
  match LocalId.parse text with
  | some id => .ok id
  | none => refuse .invalidStoredValue

def revisionFromRow (row : RevisionRow) : Run StorageError Revision := do
  let semantic ← semanticTime row.semanticCivilSecond row.semanticLeap row.semanticFraction
    row.semanticSource
  let receipt ← storedInstant row.receiptCivilSecond row.receiptLeap row.receiptFraction
    row.receiptSource
  let id ← storedId row.id
  let systemId ← storedId row.systemId
  let artifactId ← storedId row.artifactId
  .ok ⟨⟨id⟩, systemId, ⟨artifactId⟩, semantic, receipt⟩

/-! ### Parts of an instant -/

/-- What the parts have to be. -/
theorem fromStorageParts_eq_ok {civilSecond : Int} {leap : Bool} {fraction source : String}
    {instant : Instant} :
    Machine.fromStorageParts civilSecond leap fraction source = .ok instant ↔
      Machine.parseRfc3339 source = .ok instant ∧ civilSecond = instant.civilSecond ∧
        leap = instant.leap ∧
        ∃ number, Machine.parseJsonNumber fraction = .ok number ∧
          number.value = instant.fraction.value := by
  unfold Machine.fromStorageParts
  rw [bind_eq_ok]
  constructor
  · rintro ⟨parsed, hparsed, h⟩
    obtain ⟨stored, hstored, h⟩ := bind_eq_ok.mp h
    split at h
    · cases h
    · rename_i hsame
      simp only [not_or, not_not] at hsame
      obtain ⟨hsecond, hleap, hfraction⟩ := hsame
      obtain rfl := Except.ok.inj h
      refine ⟨hparsed, hsecond, hleap, stored, mapRefused_eq_ok.mp hstored, ?_⟩
      rw [ExactNumber.eq, decide_eq_true_iff] at hfraction
      exact compare_eq_iff_eq.mp hfraction
  · rintro ⟨hparsed, hsecond, hleap, number, hnumber, hvalue⟩
    refine ⟨instant, hparsed, bind_eq_ok.mpr ⟨number, mapRefused_eq_ok.mpr hnumber, ?_⟩⟩
    have hfraction : number.eq instant.fraction = true := by
      rw [ExactNumber.eq, decide_eq_true_iff]
      exact compare_eq_iff_eq.mpr hvalue
    rw [if_neg]
    rintro (h | h | h)
    · exact h hsecond
    · exact h hleap
    · exact h hfraction

/-- The decimal that is stored is the text the fraction was read from. -/
theorem fractionDecimal_of_read {text : String} {instant : Instant}
    (h : Machine.parseRfc3339 text = .ok instant) :
    ∃ decimal number, Machine.fractionDecimal instant = .ok decimal ∧
      Machine.parseJsonNumber decimal = .ok number ∧
      number.value = instant.fraction.value := by
  obtain ⟨hsize, stamp, hstamp, hreal, rfl⟩ := rfc3339_of_read h
  obtain ⟨-, hdenotes, -⟩ := read_of_rfc3339 hsize hstamp hreal
  obtain ⟨hlength, pointed, zone, hdrop, hfraction, -⟩ := rfc3339_tail hstamp
  have hfront : (text.toList.take 19).length = 19 := by
    rw [List.length_take]
    omega
  have hchars : text.toList.take 19 ++ (pointed ++ zone) = text.toList := by
    rw [← hdrop, List.take_append_drop]
  have hdecimal := Machine.fractionText_eq zone hfront hfraction
    (by rw [hchars]; exact (length_le_utf8ByteSize text).trans hsize)
  rw [hchars] at hdecimal
  have hstart : (stamp.instant text).whole.fractionStart =
      if (stamp.instant text).whole.fractionDigits = 0 then 19 else 20 := rfl
  refine ⟨stamp.fractionText, ⟨stamp.fractionValue, .decimal stamp.fractionText⟩, ?_, ?_, ?_⟩
  · unfold Machine.fractionDecimal
    rw [hstart, hdenotes.digits, hdenotes.source]
    exact hdecimal
  · rw [Machine.parseJsonNumber_eq, rfc3339_fraction hstamp hsize]
    rfl
  · exact hdenotes.fraction.symm

theorem source_of_read {text : String} {instant : Instant}
    (h : Machine.parseRfc3339 text = .ok instant) : instant.source = text := by
  obtain ⟨-, stamp, -, -, rfl⟩ := rfc3339_of_read h
  rfl

theorem storedInstant_of_read {text decimal : String} {instant : Instant}
    (h : Machine.parseRfc3339 text = .ok instant)
    (hdecimal : Machine.fractionDecimal instant = .ok decimal) :
    storedInstant instant.civilSecond instant.leap decimal instant.source = .ok instant := by
  obtain ⟨decimal', number, hdecimal', hnumber, hvalue⟩ := fractionDecimal_of_read h
  obtain rfl := Except.ok.inj (hdecimal.symm.trans hdecimal')
  refine mapRefused_eq_ok.mpr (fromStorageParts_eq_ok.mpr ⟨?_, rfl, rfl, number, hnumber, hvalue⟩)
  rw [source_of_read h]
  exact h

/-! ### Rows -/

/-- The times of a revision were parsed. -/
structure Revision.Parsed (revision : Revision) : Prop where
  receipt : ∃ text, Machine.parseRfc3339 text = .ok revision.receiptTime
  semantic : ∀ instant, revision.semanticTime = some instant →
    ∃ text, Machine.parseRfc3339 text = .ok instant

/-- A revision is read back from the row it was written to. -/
theorem revisionFromRow_insert {revision : Revision} (h : revision.Parsed) :
    ∃ row, Revision.insert revision = .ok row ∧ revisionFromRow row = .ok revision := by
  obtain ⟨text, hreceipt⟩ := h.receipt
  obtain ⟨decimal, -, hdecimal, -⟩ := fractionDecimal_of_read hreceipt
  have hstored := storedInstant_of_read hreceipt hdecimal
  have hsemantic : ∃ fraction, optionalFraction revision.semanticTime = .ok fraction ∧
      semanticTime (revision.semanticTime.map (·.civilSecond))
        (revision.semanticTime.map (·.leap)) fraction (revision.semanticTime.map (·.source)) =
        .ok revision.semanticTime := by
    cases htime : revision.semanticTime with
    | none => exact ⟨none, rfl, rfl⟩
    | some instant =>
        obtain ⟨text', hinstant⟩ := h.semantic instant htime
        obtain ⟨decimal', -, hdecimal', -⟩ := fractionDecimal_of_read hinstant
        refine ⟨some decimal', ?_, ?_⟩
        · rw [optionalFraction, hdecimal', map_ok]
        · simp only [Option.map_some, semanticTime]
          rw [storedInstant_of_read hinstant hdecimal', map_ok]
  obtain ⟨fraction, hfraction, hread⟩ := hsemantic
  have hid : ∀ id : LocalId, storedId id.text = .ok id := by
    intro id
    rw [storedId, id.parse_text]
  refine ⟨revision.row fraction decimal, ?_, ?_⟩
  · rw [Revision.insert, hfraction, ok_bind, hdecimal, ok_bind]
  · unfold revisionFromRow Revision.row
    dsimp only
    rw [hread, ok_bind, hstored, ok_bind, hid, ok_bind, hid, ok_bind, hid, ok_bind]

/-- How many of the four columns are present. -/
def RevisionRow.semanticColumns (row : RevisionRow) : Nat :=
  row.semanticCivilSecond.toList.length + row.semanticLeap.toList.length +
    row.semanticFraction.toList.length + row.semanticSource.toList.length

/-- A time that is partly there is refused. -/
theorem semanticTime_partial {row : RevisionRow} (hsome : 0 < row.semanticColumns)
    (hfew : row.semanticColumns < 4) :
    revisionFromRow row = refuse .invalidStoredValue := by
  have hsemantic : semanticTime row.semanticCivilSecond row.semanticLeap row.semanticFraction
      row.semanticSource = refuse .invalidStoredValue := by
    unfold RevisionRow.semanticColumns at hsome hfew
    cases hsecond : row.semanticCivilSecond <;> cases hleap : row.semanticLeap <;>
      cases hfraction : row.semanticFraction <;> cases hsource : row.semanticSource <;>
      simp_all [semanticTime]
  unfold revisionFromRow
  rw [hsemantic]
  rfl

theorem semanticTime_absent {row : RevisionRow} {revision : Revision}
    (hnone : row.semanticColumns = 0) (h : revisionFromRow row = .ok revision) :
    revision.semanticTime = none := by
  have hsemantic : semanticTime row.semanticCivilSecond row.semanticLeap row.semanticFraction
      row.semanticSource = .ok none := by
    unfold RevisionRow.semanticColumns at hnone
    cases hsecond : row.semanticCivilSecond <;> cases hleap : row.semanticLeap <;>
      cases hfraction : row.semanticFraction <;> cases hsource : row.semanticSource <;>
      simp_all [semanticTime]
  unfold revisionFromRow at h
  rw [hsemantic, ok_bind] at h
  obtain ⟨receipt, -, h₁⟩ := bind_eq_ok.mp h
  obtain ⟨id, -, h₂⟩ := bind_eq_ok.mp h₁
  obtain ⟨systemId, -, h₃⟩ := bind_eq_ok.mp h₂
  obtain ⟨artifactId, -, h₄⟩ := bind_eq_ok.mp h₃
  rw [← Except.ok.inj h₄]

/-- **Stored instants.**  The parts of an accepted instant give it back, in whatever
spelling the database returns its fraction; parts that do not belong to their source are
refused, and an optional time is there as a whole or not at all. -/
theorem instant_storage :
    (∀ text instant, Machine.parseRfc3339 text = .ok instant →
      instant.source = text ∧
        (∃ decimal, Machine.fractionDecimal instant = .ok decimal ∧
          Machine.fromStorageParts instant.civilSecond instant.leap decimal instant.source =
            .ok instant) ∧
        ∀ spelled number, Machine.parseJsonNumber spelled = .ok number →
          number.value = instant.fraction.value →
          Machine.fromStorageParts instant.civilSecond instant.leap spelled instant.source =
            .ok instant) ∧
      (∀ civilSecond leap fraction source instant,
        Machine.fromStorageParts civilSecond leap fraction source = .ok instant →
        Machine.parseRfc3339 source = .ok instant ∧ civilSecond = instant.civilSecond ∧
          leap = instant.leap ∧ ∃ number, Machine.parseJsonNumber fraction = .ok number ∧
            number.value = instant.fraction.value) ∧
      (∀ row : RevisionRow, 0 < row.semanticColumns → row.semanticColumns < 4 →
        revisionFromRow row = refuse .invalidStoredValue) ∧
      (∀ (row : RevisionRow) (revision : Revision), row.semanticColumns = 0 →
        revisionFromRow row = .ok revision → revision.semanticTime = none) ∧
      ∀ revision : Revision, revision.Parsed →
        ∃ row, Revision.insert revision = .ok row ∧ revisionFromRow row = .ok revision := by
  refine ⟨?_, fun _ _ _ _ _ h => fromStorageParts_eq_ok.mp h,
    fun _ hsome hfew => semanticTime_partial hsome hfew,
    fun _ _ hnone h => semanticTime_absent hnone h, fun _ h => revisionFromRow_insert h⟩
  intro text instant h
  obtain ⟨decimal, -, hdecimal, -⟩ := fractionDecimal_of_read h
  have hsource := source_of_read h
  refine ⟨hsource, ⟨decimal, hdecimal, mapRefused_eq_ok.mp (storedInstant_of_read h hdecimal)⟩, ?_⟩
  intro spelled number hnumber hvalue
  refine fromStorageParts_eq_ok.mpr ⟨?_, rfl, rfl, number, hnumber, hvalue⟩
  rw [hsource]
  exact h

end Server
end Glaux
