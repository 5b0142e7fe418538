import Glaux.Domain.Identity
import Glaux.Library.Hexadecimal
import Glaux.Library.Outcome

/-!
# Local IDs as the bytes of a UUID (`identity.rs`)

`generate_with`, `FromStr` and `Display` of a local ID, over the bytes that the type
keeps.  The uuid crate is a parameter: its text form, its parser and its version 7
builder.
-/

namespace Glaux
namespace Domain

open Library

/-- `uuid::Uuid`. -/
structure Uuid where
  bytes : Vector UInt8 16
deriving DecidableEq

namespace Uuid

/-- The version digit. -/
def versionSeven (uuid : Uuid) : Prop := uuid.bytes[6] >>> 4 = 7

/-- The two top bits of the RFC variant. -/
def rfcVariant (uuid : Uuid) : Prop := uuid.bytes[8] &&& 0xc0 = 0x80

instance (uuid : Uuid) : Decidable uuid.versionSeven :=
  inferInstanceAs (Decidable (_ = _))

instance (uuid : Uuid) : Decidable uuid.rfcVariant :=
  inferInstanceAs (Decidable (_ = _))

/-- The number in the first 48 bits. -/
def first48 (uuid : Uuid) : Nat := bigEndian (uuid.bytes.toList.take 6)

/-- The digits of the hyphenated form: eight, four, four, four and twelve. -/
def digits (uuid : Uuid) : List UInt8 := grouped [4, 2, 2, 2] uuid.bytes.toList

/-- The lowercase hyphenated text. -/
def hyphenated (uuid : Uuid) : String := asciiText uuid.digits

end Uuid

/-- What is used of the uuid crate. -/
structure UuidCrate where
  /-- `Uuid::try_parse` -/
  tryParse : String → Option Uuid
  /-- `Display` -/
  display : Uuid → String
  /-- `Builder::from_unix_timestamp_millis(millis, random_bytes).into_uuid()` -/
  fromUnixTimestampMillis : UInt64 → Vector UInt8 10 → Uuid

/-- What the crate documents: the hyphenated form is the text of a UUID and is read
back, and the version 7 layout. -/
structure UuidCrate.Documented (crate : UuidCrate) : Prop where
  display : ∀ uuid, crate.display uuid = uuid.hyphenated
  tryParse : ∀ uuid, crate.tryParse uuid.hyphenated = some uuid
  version : ∀ millis random, (crate.fromUnixTimestampMillis millis random).versionSeven
  variant : ∀ millis random, (crate.fromUnixTimestampMillis millis random).rfcVariant
  /-- a timestamp of 48 bits stands in the first of them -/
  timestamp : ∀ millis random, millis.toNat < 2 ^ 48 →
    (crate.fromUnixTimestampMillis millis random).first48 = millis.toNat

inductive IdentityError where
  | invalidLocalId | invalidUid | invalidSourceText
deriving DecidableEq, Repr

inductive GenerationError where
  | clockBeforeEpoch | clockOutOfRange | entropyUnavailable
deriving DecidableEq, Repr

/-- `std::time::Duration`. -/
structure Duration where
  secs : UInt64
  nanos : Nat
  subsec : nanos < 1000000000
deriving DecidableEq

/-- `Duration::as_millis`, in 128 bits. -/
def Duration.asMillis (duration : Duration) : Nat :=
  duration.secs.toNat * 1000 + duration.nanos / 1000000

def maxMillis : Nat := 2 ^ 48 - 1

/-- The type `LocalId` of the source; `Domain.LocalId` keeps the text of one. -/
structure LocalUuid where
  uuid : Uuid
deriving DecidableEq

/-- A callback that fills the bytes it is given, or leaves them half filled and fails. -/
abbrev Fill := Vector UInt8 10 → Except GenerationError Unit × Vector UInt8 10

namespace LocalUuid

variable (crate : UuidCrate)

/-- `generate_with`. -/
def generateWith (elapsed : Except GenerationError Duration) (fill : Fill) :
    Except GenerationError LocalUuid := do
  let duration ← elapsed
  if maxMillis < duration.asMillis then .error .clockOutOfRange
  else
    let filled := fill (Vector.replicate 10 0)
    filled.1
    .ok ⟨crate.fromUnixTimestampMillis (UInt64.ofNat duration.asMillis) filled.2⟩

/-- `generate`; the clock is `none` before the Unix epoch. -/
def generate (clock : Option Duration) (getrandom : Vector UInt8 10 → Bool × Vector UInt8 10) :
    Except GenerationError LocalUuid :=
  generateWith crate (clock.elim (.error .clockBeforeEpoch) .ok) fun bytes =>
    let filled := getrandom bytes
    (if filled.1 then .ok () else .error .entropyUnavailable, filled.2)

/-- The test of one byte of the text. -/
def canonicalByte (byte : UInt8) (i : Nat) : Bool :=
  if i = 8 ∨ i = 13 ∨ i = 18 ∨ i = 23 then byte == hyphen else isHexDigit byte

/-- `LocalId::from_str`. -/
def fromStr (text : String) : Except IdentityError LocalUuid :=
  let bytes := utf8 text.toList
  if bytes.length ≠ 36 || !bytes.zipIdx.all (fun entry => canonicalByte entry.1 entry.2) then
    .error .invalidLocalId
  else
    match crate.tryParse text with
    | none => .error .invalidLocalId
    | some value =>
        if value.bytes[6] >>> 4 ≠ 7 ∨ value.bytes[8] &&& 0xc0 ≠ 0x80 then .error .invalidLocalId
        else .ok ⟨value⟩

/-- `Display`. -/
def display (id : LocalUuid) : String := crate.display id.uuid

end LocalUuid

/-! ### The hyphenated form -/

section Hyphenated

variable {uuid uuid' : Uuid} {text : String}

theorem Uuid.length_bytes (uuid : Uuid) : uuid.bytes.toList.length = 16 := Vector.length_toList

theorem Uuid.length_digits (uuid : Uuid) : uuid.digits.length = 36 := by
  rw [digits, length_grouped (by simp), uuid.length_bytes]
  rfl

theorem Uuid.digits_ascii (uuid : Uuid) : ∀ byte ∈ uuid.digits, byte < 128 := by
  intro byte hbyte
  obtain rfl | h := mem_grouped hbyte
  · decide
  · exact isHexDigit_lt h

/-- The hyphenated text, by its bytes. -/
theorem eq_hyphenated : text = uuid.hyphenated ↔ utf8 text.toList = uuid.digits :=
  eq_asciiText uuid.digits_ascii

/-- The text is as long as `from_str` asks for. -/
theorem utf8ByteSize_hyphenated (uuid : Uuid) : uuid.hyphenated.utf8ByteSize = 36 := by
  rw [utf8ByteSize_eq, eq_hyphenated.mp rfl, uuid.length_digits]

/-- The text keeps the order of the bytes. -/
theorem hyphenated_lt (h : uuid.bytes < uuid'.bytes) : uuid.hyphenated < uuid'.hyphenated := by
  have hlist : uuid.bytes.toList < uuid'.bytes.toList := Vector.lt_toList.mpr h
  exact asciiText_lt
    (grouped_lt _ hlist (by rw [uuid.length_bytes, uuid'.length_bytes]))

/-- Strictly larger numbers in the first 48 bits give strictly larger bytes. -/
theorem bytes_lt_of_first48 (h : uuid.first48 < uuid'.first48) : uuid.bytes < uuid'.bytes := by
  have hlength : (uuid.bytes.toList.take 6).length = (uuid'.bytes.toList.take 6).length := by simp
  have hfirst := lt_of_bigEndian_lt hlength h
  have happend : uuid.bytes.toList.take 6 ++ uuid.bytes.toList.drop 6 <
      uuid'.bytes.toList.take 6 ++ uuid'.bytes.toList.drop 6 :=
    append_lt_append hlength (.inl hfirst)
  rwa [List.take_append_drop, List.take_append_drop, Vector.lt_toList] at happend

end Hyphenated

/-! ### The test of `from_str` -/

section Shape

variable {bytes : List UInt8}

/-- The positions where the form has a hyphen. -/
def hyphenAt (i : Nat) : Prop := i = 8 ∨ i = 13 ∨ i = 18 ∨ i = 23

theorem canonicalByte_digit {byte : UInt8} {i : Nat} (hi : ¬ hyphenAt i) :
    LocalUuid.canonicalByte byte i = isHexDigit byte := if_neg hi

theorem canonicalByte_hyphen {byte : UInt8} {i : Nat} (hi : hyphenAt i) :
    LocalUuid.canonicalByte byte i = (byte == hyphen) := if_pos hi

/-- Digits pass the test where no hyphen is due. -/
theorem all_hex (offset : Nat)
    (hplain : ∀ i, offset ≤ i → i < offset + 2 * bytes.length → ¬ hyphenAt i) :
    ((hex bytes).zipIdx offset).all (fun entry => LocalUuid.canonicalByte entry.1 entry.2) = true := by
  refine List.all_eq_true.mpr fun entry hentry => ?_
  obtain ⟨hlow, hhigh, hbyte⟩ := List.mem_zipIdx hentry
  rw [length_hex] at hhigh
  rw [canonicalByte_digit (hplain _ hlow hhigh)]
  have hmem : entry.1 ∈ hex bytes := hbyte ▸ List.getElem_mem _
  exact isHexDigit_of_mem_hex hmem

/-- The form passes the test. -/
theorem digits_canonical (uuid : Uuid) :
    uuid.digits.zipIdx.all (fun entry => LocalUuid.canonicalByte entry.1 entry.2) = true := by
  have hlength := uuid.length_bytes
  simp only [Uuid.digits, grouped, List.zipIdx_append, List.zipIdx_cons, List.all_append,
    List.all_cons, Bool.and_eq_true, length_hex, List.length_take, List.length_drop, hlength]
  norm_num only
  refine ⟨all_hex _ ?_, rfl, all_hex _ ?_, rfl, all_hex _ ?_, rfl, all_hex _ ?_, rfl,
    all_hex _ ?_⟩
  all_goals
    simp only [List.length_take, List.length_drop, hlength, hyphenAt]
    omega

/-- A group of digits between two positions. -/
theorem exists_group {a size : Nat} (hlength : a + 2 * size ≤ bytes.length)
    (hall : ∀ i (h : i < bytes.length), LocalUuid.canonicalByte bytes[i] i = true)
    (hplain : ∀ i, a ≤ i → i < a + 2 * size → ¬ hyphenAt i) :
    ∃ group : List UInt8, group.length = size ∧
      hex group = (bytes.drop a).take (2 * size) := by
  have hsize : ((bytes.drop a).take (2 * size)).length = 2 * size := by
    rw [List.length_take, List.length_drop]
    omega
  have hdigits : ∀ digit ∈ (bytes.drop a).take (2 * size), isHexDigit digit = true := by
    intro digit hdigit
    obtain ⟨i, hi, rfl⟩ := List.mem_iff_getElem.mp hdigit
    rw [hsize] at hi
    rw [List.getElem_take, List.getElem_drop,
      ← canonicalByte_digit (hplain (a + i) (by omega) (by omega))]
    exact hall (a + i) (by omega)
  exact ⟨_, hex_unhex hsize hdigits⟩

/-- One more group in front of the groups after its hyphen. -/
theorem exists_grouped_cons {a size count : Nat} {sizes : List Nat}
    (hall : ∀ i (h : i < bytes.length), LocalUuid.canonicalByte bytes[i] i = true)
    (hplain : ∀ i, a ≤ i → i < a + 2 * size → ¬ hyphenAt i) (hat : hyphenAt (a + 2 * size))
    (hlength : a + 2 * size < bytes.length)
    (hrest : ∃ rest : List UInt8, rest.length = count ∧
      grouped sizes rest = bytes.drop (a + 2 * size + 1)) :
    ∃ group : List UInt8, group.length = size + count ∧
      grouped (size :: sizes) group = bytes.drop a := by
  obtain ⟨rest, hcount, hrest⟩ := hrest
  obtain ⟨front, rfl, hfront⟩ := exists_group (Nat.le_of_lt hlength) hall hplain
  have hhyphen : bytes[a + 2 * front.length] = hyphen := by
    have h := hall (a + 2 * front.length) hlength
    rw [canonicalByte_hyphen hat] at h
    exact eq_of_beq h
  refine ⟨front ++ rest, by rw [List.length_append, hcount], ?_⟩
  rw [grouped_append, hfront, hrest, ← hhyphen, ← List.drop_eq_getElem_cons hlength,
    ← List.drop_drop, List.take_append_drop]

/-- **Shape.**  A text of 36 bytes that passes the test is the form of a UUID. -/
theorem exists_digits (hlength : bytes.length = 36)
    (hall : bytes.zipIdx.all (fun entry => LocalUuid.canonicalByte entry.1 entry.2) = true) :
    ∃ uuid : Uuid, uuid.digits = bytes := by
  have hall : ∀ i (h : i < bytes.length), LocalUuid.canonicalByte bytes[i] i = true := by
    intro i hi
    refine List.all_eq_true.mp hall (bytes[i], i) ?_
    exact List.mem_zipIdx_iff_getElem?.mpr (List.getElem?_eq_getElem hi)
  have hlast : ∃ group : List UInt8, group.length = 6 ∧ grouped [] group = bytes.drop 24 := by
    have hplain : ∀ i, 24 ≤ i → i < 24 + 2 * 6 → ¬ hyphenAt i := by
      simp only [hyphenAt]
      omega
    obtain ⟨group, hsize, htext⟩ := exists_group (by omega) hall hplain
    exact ⟨group, hsize, htext.trans (List.take_of_length_le (by rw [List.length_drop]; omega))⟩
  have hfourth : ∃ group : List UInt8, group.length = 2 + 6 ∧
      grouped [2] group = bytes.drop 19 :=
    exists_grouped_cons hall (by simp only [hyphenAt]; omega) (by simp [hyphenAt]) (by omega) hlast
  have hthird : ∃ group : List UInt8, group.length = 2 + (2 + 6) ∧
      grouped [2, 2] group = bytes.drop 14 :=
    exists_grouped_cons hall (by simp only [hyphenAt]; omega) (by simp [hyphenAt]) (by omega)
      hfourth
  have hsecond : ∃ group : List UInt8, group.length = 2 + (2 + (2 + 6)) ∧
      grouped [2, 2, 2] group = bytes.drop 9 :=
    exists_grouped_cons hall (by simp only [hyphenAt]; omega) (by simp [hyphenAt]) (by omega)
      hthird
  have hfirst : ∃ group : List UInt8, group.length = 4 + (2 + (2 + (2 + 6))) ∧
      grouped [4, 2, 2, 2] group = bytes.drop 0 :=
    exists_grouped_cons hall (by simp only [hyphenAt]; omega) (by simp [hyphenAt]) (by omega)
      hsecond
  obtain ⟨all, hcount, htext⟩ := hfirst
  refine ⟨⟨⟨all.toArray, hcount⟩⟩, ?_⟩
  exact htext

end Shape

section FromStr

variable {crate : UuidCrate} {text : String} {id : LocalUuid}

/-- **What `from_str` accepts.** -/
theorem fromStr_eq_ok (h : crate.Documented) :
    LocalUuid.fromStr crate text = .ok id ↔
      text = id.uuid.hyphenated ∧ id.uuid.versionSeven ∧ id.uuid.rfcVariant := by
  constructor
  · intro hparse
    rw [LocalUuid.fromStr] at hparse
    split at hparse
    · cases hparse
    next hshape =>
      simp only [ne_eq, Bool.or_eq_true, decide_eq_true_eq, Bool.not_eq_eq_eq_not, Bool.not_true,
        not_or, not_not, Bool.not_eq_false] at hshape
      obtain ⟨uuid, huuid⟩ := exists_digits hshape.1 hshape.2
      obtain rfl := eq_hyphenated.mpr huuid.symm
      rw [h.tryParse] at hparse
      simp only at hparse
      split at hparse
      · cases hparse
      next hbits =>
        rw [not_or, not_not, not_not] at hbits
        obtain rfl := Except.ok.inj hparse
        exact ⟨rfl, hbits.1, hbits.2⟩
  · rintro ⟨rfl, hversion, hvariant⟩
    have hbytes : utf8 id.uuid.hyphenated.toList = id.uuid.digits := eq_hyphenated.mp rfl
    have hshape : ¬ ((utf8 id.uuid.hyphenated.toList).length ≠ 36 ||
        !(utf8 id.uuid.hyphenated.toList).zipIdx.all
          (fun entry => LocalUuid.canonicalByte entry.1 entry.2)) = true := by
      rw [hbytes, id.uuid.length_digits, digits_canonical]
      simp
    rw [LocalUuid.fromStr, if_neg hshape, h.tryParse]
    simp only
    rw [if_neg]
    rw [not_or, not_not, not_not]
    exact ⟨hversion, hvariant⟩

/-- **A displayed ID is read back.** -/
theorem fromStr_display (h : crate.Documented) (hversion : id.uuid.versionSeven)
    (hvariant : id.uuid.rfcVariant) :
    LocalUuid.fromStr crate (id.display crate) = .ok id := by
  rw [LocalUuid.display, h.display]
  exact (fromStr_eq_ok h).mpr ⟨rfl, hversion, hvariant⟩

end FromStr

/-! ### The text of an ID -/

section Text

variable {bytes : List UInt8} {text : String}

/-- The test of one character of `canonicalLocalId`. -/
theorem canonicalByte_char (byte : UInt8) (i : Nat) :
    (if i = 8 ∨ i = 13 ∨ i = 18 ∨ i = 23 then Char.ofUInt8 byte == '-'
      else (Char.ofUInt8 byte).isDigit ||
        ('a' ≤ Char.ofUInt8 byte && Char.ofUInt8 byte ≤ 'f')) =
      LocalUuid.canonicalByte byte i := by
  have hhyphen : ∀ byte : UInt8, (Char.ofUInt8 byte == '-') = (byte == hyphen) :=
    forall_byte (by decide +kernel)
  have hdigit : ∀ byte : UInt8, ((Char.ofUInt8 byte).isDigit ||
      ('a' ≤ Char.ofUInt8 byte && Char.ofUInt8 byte ≤ 'f')) = isHexDigit byte :=
    forall_byte (by decide +kernel)
  rw [LocalUuid.canonicalByte, hhyphen, hdigit]

theorem canonicalLocalId_asciiText : canonicalLocalId (asciiText bytes) =
    (bytes.length == 36 &&
      bytes.zipIdx.all (fun entry => LocalUuid.canonicalByte entry.1 entry.2) &&
      (bytes[14]?.map Char.ofUInt8 == some '7') &&
      (bytes[19]?.map Char.ofUInt8).any (fun c => c == '8' || c == '9' || c == 'a' || c == 'b')) := by
  rw [canonicalLocalId, asciiText, String.toList_ofList, List.length_map, List.zipIdx_map,
    List.all_map, List.getElem?_map, List.getElem?_map]
  simp only [Function.comp_def, Prod.map, id_eq, canonicalByte_char]

/-- Where the digits of the version and the variant stand. -/
theorem digits_getElem? (uuid : Uuid) :
    uuid.digits[14]? = some (hexDigit (uuid.bytes[6] >>> 4)) ∧
      uuid.digits[19]? = some (hexDigit (uuid.bytes[8] >>> 4)) := by
  have hlength := uuid.length_bytes
  have hdrop : ∀ n, (uuid.bytes.toList.drop n).length = 16 - n := by
    intro n
    rw [List.length_drop, hlength]
  have hfirst : ∀ i, (grouped [4, 2, 2, 2] uuid.bytes.toList)[9 + i]? =
      (grouped [2, 2, 2] (uuid.bytes.toList.drop 4))[i]? :=
    fun i => grouped_skip (by rw [hlength]; decide)
  have hsecond : ∀ i, (grouped [2, 2, 2] (uuid.bytes.toList.drop 4))[5 + i]? =
      (grouped [2, 2] ((uuid.bytes.toList.drop 4).drop 2))[i]? :=
    fun i => grouped_skip (by rw [hdrop]; decide)
  have hthird : ∀ i, (grouped [2, 2] (uuid.bytes.toList.drop 6))[5 + i]? =
      (grouped [2] ((uuid.bytes.toList.drop 6).drop 2))[i]? :=
    fun i => grouped_skip (by rw [hdrop]; decide)
  simp only [List.drop_drop, Nat.reduceAdd] at hsecond hthird
  constructor
  · calc uuid.digits[14]? = (grouped [2, 2] (uuid.bytes.toList.drop 6))[2 * 0]? :=
          (hfirst 5).trans (hsecond 0)
      _ = (uuid.bytes.toList.drop 6)[0]?.map fun byte : UInt8 => hexDigit (byte >>> 4) :=
          grouped_first (by decide) (by rw [hdrop]; decide)
      _ = some (hexDigit (uuid.bytes[6] >>> 4)) := by simp
  · calc uuid.digits[19]? = (grouped [2] (uuid.bytes.toList.drop 8))[2 * 0]? :=
          (hfirst 10).trans ((hsecond 5).trans (hthird 0))
      _ = (uuid.bytes.toList.drop 8)[0]?.map fun byte : UInt8 => hexDigit (byte >>> 4) :=
          grouped_first (by decide) (by rw [hdrop]; decide)
      _ = some (hexDigit (uuid.bytes[8] >>> 4)) := by simp

/-- The digits of the version and the variant, as characters. -/
theorem canonical_bits (uuid : Uuid) :
    (uuid.versionSeven ↔ (uuid.digits[14]?.map Char.ofUInt8 == some '7') = true) ∧
      (uuid.rfcVariant ↔ (uuid.digits[19]?.map Char.ofUInt8).any
        (fun c => c == '8' || c == '9' || c == 'a' || c == 'b') = true) := by
  have hseven : ∀ byte : UInt8,
      byte >>> 4 = 7 ↔ (some (Char.ofUInt8 (hexDigit (byte >>> 4))) == some '7') = true :=
    forall_byte (by decide +kernel)
  have hvariant : ∀ byte : UInt8, byte &&& 0xc0 = 0x80 ↔
      (some (Char.ofUInt8 (hexDigit (byte >>> 4)))).any
        (fun c => c == '8' || c == '9' || c == 'a' || c == 'b') = true :=
    forall_byte (by decide +kernel)
  rw [(digits_getElem? uuid).1, (digits_getElem? uuid).2]
  exact ⟨hseven _, hvariant _⟩

theorem canonicalLocalId_hyphenated (uuid : Uuid) :
    canonicalLocalId uuid.hyphenated = true ↔ uuid.versionSeven ∧ uuid.rfcVariant := by
  rw [Uuid.hyphenated, canonicalLocalId_asciiText, uuid.length_digits, digits_canonical,
    (canonical_bits uuid).1, (canonical_bits uuid).2, beq_self_eq_true, Bool.true_and,
    Bool.true_and, Bool.and_eq_true]

/-- A text with the characters of the form is ASCII. -/
theorem exists_ascii (h : canonicalLocalId text = true) :
    ∃ bytes, text = asciiText bytes := by
  refine ⟨text.toList.map Char.toUInt8, ?_⟩
  have hchar : ∀ c : Char, c.toNat < 128 → Char.ofUInt8 c.toUInt8 = c := by
    intro c hc
    refine Char.ext (UInt32.toNat_inj.mp ?_)
    show (c.val.toUInt8.toUInt32).toNat = c.val.toNat
    have hval : c.val.toNat < 128 := hc
    simp only [UInt32.toNat_toUInt8, UInt8.toNat_toUInt32]
    omega
  have hascii : ∀ c ∈ text.toList, c.toNat < 128 := by
    intro c hc
    simp only [canonicalLocalId, Bool.and_eq_true] at h
    obtain ⟨i, hi, hget⟩ := List.mem_iff_getElem.mp hc
    have hentry : (c, i) ∈ text.toList.zipIdx :=
      List.mem_zipIdx_iff_getElem?.mpr (by rw [List.getElem?_eq_getElem hi, hget])
    have htest := List.all_eq_true.mp h.1.1.2 (c, i) hentry
    simp only at htest
    split at htest
    · rw [eq_of_beq htest]
      decide
    · simp only [Bool.or_eq_true, Bool.and_eq_true, decide_eq_true_eq, Char.isDigit,
        Char.le_def, UInt32.le_iff_toNat_le] at htest
      have hnine : '9'.val.toNat = 57 := rfl
      have hf : 'f'.val.toNat = 102 := rfl
      have hval : c.toNat = c.val.toNat := rfl
      omega
  have hmap : (text.toList.map Char.toUInt8).map Char.ofUInt8 = text.toList := by
    rw [List.map_map]
    calc text.toList.map (Char.ofUInt8 ∘ Char.toUInt8) = text.toList.map id :=
          List.map_congr_left fun c hc => hchar c (hascii c hc)
      _ = text.toList := List.map_id _
  rw [asciiText, hmap, String.ofList_toList]

/-- **The text of an ID.**  `from_str` accepts the texts that `LocalId` keeps. -/
theorem fromStr_iff_canonical {crate : UuidCrate} (h : crate.Documented) :
    (∃ id, LocalUuid.fromStr crate text = .ok id) ↔ canonicalLocalId text = true := by
  constructor
  · rintro ⟨id, hid⟩
    obtain ⟨rfl, hbits⟩ := (fromStr_eq_ok h).mp hid
    exact (canonicalLocalId_hyphenated id.uuid).mpr hbits
  · intro htext
    obtain ⟨bytes, rfl⟩ := exists_ascii htext
    have hshape := htext
    rw [canonicalLocalId_asciiText, Bool.and_eq_true, Bool.and_eq_true, Bool.and_eq_true,
      beq_iff_eq] at hshape
    obtain ⟨uuid, rfl⟩ := exists_digits hshape.1.1.1 hshape.1.1.2
    obtain ⟨hversion, hvariant⟩ := (canonicalLocalId_hyphenated uuid).mp htext
    exact ⟨⟨uuid⟩, (fromStr_eq_ok h).mpr ⟨rfl, hversion, hvariant⟩⟩

end Text

/-! ### Generation -/

section Generation

variable {crate : UuidCrate} {elapsed elapsed' : Except GenerationError Duration}
  {fill fill' : Fill} {duration duration' : Duration} {id id' : LocalUuid}

theorem generateWith_of_elapsed (duration : Duration) (fill : Fill) :
    LocalUuid.generateWith crate (.ok duration) fill =
      if maxMillis < duration.asMillis then .error .clockOutOfRange
      else (fill (Vector.replicate 10 0)).1 >>= fun _ =>
        .ok ⟨crate.fromUnixTimestampMillis (UInt64.ofNat duration.asMillis)
          (fill (Vector.replicate 10 0)).2⟩ := rfl

/-- **When an ID is returned.** -/
theorem generateWith_eq_ok :
    LocalUuid.generateWith crate elapsed fill = .ok id ↔
      ∃ duration, elapsed = .ok duration ∧ duration.asMillis ≤ maxMillis ∧
        (fill (Vector.replicate 10 0)).1 = .ok () ∧
        id = ⟨crate.fromUnixTimestampMillis (UInt64.ofNat duration.asMillis)
          (fill (Vector.replicate 10 0)).2⟩ := by
  cases elapsed with
  | error e => exact ⟨nofun, fun ⟨_, h, _⟩ => nomatch h⟩
  | ok duration =>
      rw [generateWith_of_elapsed]
      by_cases hlarge : maxMillis < duration.asMillis
      · rw [if_pos hlarge]
        refine ⟨nofun, ?_⟩
        rintro ⟨duration', heq, hsmall, -⟩
        obtain rfl := Except.ok.inj heq
        omega
      · rw [if_neg hlarge, bind_eq_ok]
        constructor
        · rintro ⟨_, hfill, hid⟩
          exact ⟨duration, rfl, Nat.le_of_not_lt hlarge, hfill, (Except.ok.inj hid).symm⟩
        · rintro ⟨duration', heq, -, hfill, rfl⟩
          obtain rfl := Except.ok.inj heq
          exact ⟨(), hfill, rfl⟩

/-- Within the range, the number of milliseconds passes to the builder as it is. -/
theorem toNat_millis (h : duration.asMillis ≤ maxMillis) :
    (UInt64.ofNat duration.asMillis).toNat = duration.asMillis := by
  have hmax : maxMillis = 281474976710655 := rfl
  rw [UInt64.toNat_ofNat']
  omega

theorem generated_bits (h : crate.Documented)
    (hid : LocalUuid.generateWith crate (.ok duration) fill = .ok id) :
    id.uuid.versionSeven ∧ id.uuid.rfcVariant ∧ id.uuid.first48 = duration.asMillis := by
  obtain ⟨duration', heq, hsmall, -, rfl⟩ := generateWith_eq_ok.mp hid
  obtain rfl := Except.ok.inj heq
  have hfits : (UInt64.ofNat duration.asMillis).toNat < 2 ^ 48 := by
    rw [toNat_millis hsmall]
    exact Nat.lt_of_le_pred (by decide) hsmall
  exact ⟨h.version _ _, h.variant _ _, (h.timestamp _ _ hfits).trans (toNat_millis hsmall)⟩

theorem generated_read_back (h : crate.Documented)
    (hid : LocalUuid.generateWith crate elapsed fill = .ok id) :
    LocalUuid.fromStr crate (id.display crate) = .ok id := by
  obtain ⟨duration, rfl, -⟩ := generateWith_eq_ok.mp hid
  obtain ⟨hversion, hvariant, -⟩ := generated_bits h hid
  exact fromStr_display h hversion hvariant

/-- Strictly larger milliseconds give a strictly larger ID. -/
theorem generated_lt (h : crate.Documented)
    (hid : LocalUuid.generateWith crate (.ok duration) fill = .ok id)
    (hid' : LocalUuid.generateWith crate (.ok duration') fill' = .ok id')
    (hlt : duration.asMillis < duration'.asMillis) :
    id.uuid.bytes < id'.uuid.bytes ∧ id.display crate < id'.display crate := by
  have hbytes : id.uuid.bytes < id'.uuid.bytes := by
    refine bytes_lt_of_first48 ?_
    rw [(generated_bits h hid).2.2, (generated_bits h hid').2.2]
    exact hlt
  refine ⟨hbytes, ?_⟩
  rw [LocalUuid.display, LocalUuid.display, h.display, h.display]
  exact hyphenated_lt hbytes

end Generation

/-- The texts and the bytes of local IDs agree. -/
structure TextsAgree (crate : UuidCrate) : Prop where
  accepted : ∀ text, (∃ id, LocalUuid.fromStr crate text = .ok id) ↔
    ∃ uuid : Uuid, uuid.versionSeven ∧ uuid.rfcVariant ∧ text = uuid.hyphenated
  display_parsed : ∀ text id, LocalUuid.fromStr crate text = .ok id → id.display crate = text
  /-- for an ID that `from_str` or `generate_with` has returned -/
  parse_displayed : ∀ id,
    ((∃ text, LocalUuid.fromStr crate text = .ok id) ∨
      ∃ elapsed fill, LocalUuid.generateWith crate elapsed fill = .ok id) →
    LocalUuid.fromStr crate (id.display crate) = .ok id
  millis : ∀ duration fill id, LocalUuid.generateWith crate (.ok duration) fill = .ok id →
    id.uuid.first48 = duration.asMillis
  ordered : ∀ duration duration' fill fill' id id',
    LocalUuid.generateWith crate (.ok duration) fill = .ok id →
    LocalUuid.generateWith crate (.ok duration') fill' = .ok id' →
    duration.asMillis < duration'.asMillis →
    id.uuid.bytes < id'.uuid.bytes ∧ id.display crate < id'.display crate
  clock_error : ∀ fill error, LocalUuid.generateWith crate (.error error) fill = .error error
  clock_range : ∀ (duration : Duration) fill, 2 ^ 48 ≤ duration.asMillis →
    LocalUuid.generateWith crate (.ok duration) fill = .error .clockOutOfRange
  entropy_error : ∀ (duration : Duration) (fill : Fill) error, duration.asMillis < 2 ^ 48 →
    (fill (Vector.replicate 10 0)).1 = .error error →
    LocalUuid.generateWith crate (.ok duration) fill = .error error
  generated : ∀ (duration : Duration) (fill : Fill), duration.asMillis < 2 ^ 48 →
    (fill (Vector.replicate 10 0)).1 = .ok () →
    ∃ id, LocalUuid.generateWith crate (.ok duration) fill = .ok id

/-- **Local IDs.**  With the crate as documented, the texts that `from_str` accepts are the
forms of the version 7 UUIDs of the RFC variant, and generated IDs are among them, in the
order of their milliseconds. -/
theorem local_id_texts_agree {crate : UuidCrate} (h : crate.Documented) : TextsAgree crate where
  accepted text := by
    constructor
    · rintro ⟨id, hid⟩
      obtain ⟨htext, hversion, hvariant⟩ := (fromStr_eq_ok h).mp hid
      exact ⟨id.uuid, hversion, hvariant, htext⟩
    · rintro ⟨uuid, hversion, hvariant, htext⟩
      exact ⟨⟨uuid⟩, (fromStr_eq_ok h).mpr ⟨htext, hversion, hvariant⟩⟩
  display_parsed text id hid := by
    rw [LocalUuid.display, h.display]
    exact ((fromStr_eq_ok h).mp hid).1.symm
  parse_displayed id hid := by
    obtain ⟨text, hid⟩ | ⟨elapsed, fill, hid⟩ := hid
    · obtain ⟨-, hversion, hvariant⟩ := (fromStr_eq_ok h).mp hid
      exact fromStr_display h hversion hvariant
    · exact generated_read_back h hid
  millis duration fill id hid := (generated_bits h hid).2.2
  ordered duration duration' fill fill' id id' hid hid' hlt := generated_lt h hid hid' hlt
  clock_error fill error := rfl
  clock_range duration fill hlarge := by
    rw [generateWith_of_elapsed, if_pos]
    exact hlarge
  entropy_error duration fill error hsmall hfill := by
    have hrange : ¬ maxMillis < duration.asMillis := Nat.not_lt.mpr (Nat.le_pred_of_lt hsmall)
    rw [generateWith_of_elapsed, if_neg hrange, hfill]
    rfl
  generated duration fill hsmall hfill :=
    ⟨_, generateWith_eq_ok.mpr ⟨duration, rfl, Nat.le_pred_of_lt hsmall, hfill, rfl⟩⟩

/-! ### A crate -/

section Crate

/-- The digits of a text read in pairs. -/
def readHyphenated (text : String) : Option Uuid :=
  let bytes := unhex ((utf8 text.toList).filter (· ≠ hyphen))
  if h : bytes.length = 16 then some ⟨⟨bytes.toArray, h⟩⟩ else none

/-- The version 7 layout: the timestamp, the version, the variant, and random bits. -/
def versionSevenLayout (millis : UInt64) (random : Vector UInt8 10) : Uuid :=
  ⟨#v[(millis >>> 40).toUInt8, (millis >>> 32).toUInt8, (millis >>> 24).toUInt8,
    (millis >>> 16).toUInt8, (millis >>> 8).toUInt8, millis.toUInt8,
    (0x70 : UInt8) ||| (random[0] &&& 0x0f), random[1],
    (0x80 : UInt8) ||| (random[2] &&& 0x3f), random[3],
    random[4], random[5], random[6], random[7], random[8], random[9]]⟩

def plainCrate : UuidCrate where
  tryParse := readHyphenated
  display := Uuid.hyphenated
  fromUnixTimestampMillis := versionSevenLayout

theorem readHyphenated_hyphenated (uuid : Uuid) :
    readHyphenated uuid.hyphenated = some uuid := by
  have hbytes : unhex ((utf8 uuid.hyphenated.toList).filter (· ≠ hyphen)) =
      uuid.bytes.toList := by
    rw [eq_hyphenated.mp rfl, Uuid.digits, filter_grouped, unhex_hex]
  have hlength : (unhex ((utf8 uuid.hyphenated.toList).filter (· ≠ hyphen))).length = 16 := by
    rw [hbytes, uuid.length_bytes]
  rw [readHyphenated, dif_pos hlength]
  refine congrArg some ?_
  obtain ⟨⟨⟨bytes⟩, hsize⟩⟩ := uuid
  simp only [Uuid.mk.injEq, Vector.mk.injEq]
  exact congrArg List.toArray hbytes

theorem layout_six (millis : UInt64) (random : Vector UInt8 10) :
    (versionSevenLayout millis random).bytes[6] = (0x70 : UInt8) ||| (random[0] &&& 0x0f) := rfl

theorem layout_eight (millis : UInt64) (random : Vector UInt8 10) :
    (versionSevenLayout millis random).bytes[8] = (0x80 : UInt8) ||| (random[2] &&& 0x3f) := rfl

theorem layout_first (millis : UInt64) (random : Vector UInt8 10) :
    (versionSevenLayout millis random).bytes.toList.take 6 =
      [(millis >>> 40).toUInt8, (millis >>> 32).toUInt8, (millis >>> 24).toUInt8,
        (millis >>> 16).toUInt8, (millis >>> 8).toUInt8, millis.toUInt8] := rfl

theorem layout_versionSeven (millis : UInt64) (random : Vector UInt8 10) :
    (versionSevenLayout millis random).versionSeven := by
  have hstamp : ∀ byte : UInt8, ((7 : UInt8) <<< 4 ||| (byte &&& 15)) >>> 4 = 7 :=
    fun byte => (hexByte_of_values (by decide) (low_lt byte)).1
  rw [Uuid.versionSeven, layout_six]
  exact hstamp _

theorem layout_rfcVariant (millis : UInt64) (random : Vector UInt8 10) :
    (versionSevenLayout millis random).rfcVariant := by
  have hstamp : ∀ byte : UInt8, ((0x80 : UInt8) ||| (byte &&& 0x3f)) &&& 0xc0 = 0x80 :=
    forall_byte (by decide +kernel)
  rw [Uuid.rfcVariant, layout_eight]
  exact hstamp _

theorem layout_first48 {millis : UInt64} (random : Vector UInt8 10) (h : millis.toNat < 2 ^ 48) :
    (versionSevenLayout millis random).first48 = millis.toNat := by
  have hbyte : ∀ n : UInt64, n.toUInt8.toNat = n.toNat % 256 := fun n => UInt64.toNat_toUInt8 n
  have hshift : ∀ k : UInt64, (millis >>> k).toNat = millis.toNat / 2 ^ (k.toNat % 64) := by
    intro k
    rw [UInt64.toNat_shiftRight, Nat.shiftRight_eq_div_pow]
  rw [Uuid.first48, layout_first]
  simp only [bigEndian, hbyte, hshift, List.length_cons, List.length_nil, UInt64.reduceToNat]
  norm_num only
  omega

theorem plainCrate_documented : plainCrate.Documented where
  display _ := rfl
  tryParse uuid := by
    have hread : plainCrate.tryParse = readHyphenated := rfl
    rw [hread, readHyphenated_hyphenated]
  version := layout_versionSeven
  variant := layout_rfcVariant
  timestamp _ random hfits := layout_first48 random hfits

theorem local_id_texts_agree_plain : TextsAgree plainCrate :=
  local_id_texts_agree plainCrate_documented

end Crate

end Domain
end Glaux
