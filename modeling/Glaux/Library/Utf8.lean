import Mathlib.Data.List.Basic

/-!
# Characters and their bytes
-/

namespace Glaux
namespace Library

/-- The bytes of a text. -/
def utf8 (text : List Char) : List UInt8 := text.flatMap String.utf8EncodeChar

theorem utf8_append (a b : List Char) : utf8 (a ++ b) = utf8 a ++ utf8 b :=
  List.flatMap_append

theorem utf8ByteSize_eq (text : String) : text.utf8ByteSize = (utf8 text.toList).length := by
  rw [← String.size_toByteArray, ← String.utf8Encode_toList]
  simp [List.utf8Encode, utf8]

theorem length_le_utf8 (text : List Char) : text.length ≤ (utf8 text).length := by
  induction text with
  | nil => exact Nat.le_refl _
  | cons c text ih =>
      have hc := c.utf8Size_pos
      rw [utf8, List.flatMap_cons, List.length_append, String.length_utf8EncodeChar,
        List.length_cons]
      unfold utf8 at ih
      omega

/-- A text has at most as many characters as bytes. -/
theorem length_le_utf8ByteSize (text : String) : text.toList.length ≤ text.utf8ByteSize :=
  utf8ByteSize_eq text ▸ length_le_utf8 text.toList

theorem utf8_eq_toByteArray (text : String) : utf8 text.toList = text.toByteArray.data.toList := by
  rw [← String.utf8Encode_toList]
  simp [List.utf8Encode, utf8]

/-- Different texts have different bytes. -/
theorem utf8_injective {text text' : String} (h : utf8 text.toList = utf8 text'.toList) :
    text = text' := by
  rw [utf8_eq_toByteArray, utf8_eq_toByteArray] at h
  exact String.toByteArray_inj.mp (ByteArray.ext (Array.toList_inj.mp h))

/-- What holds of the first numbers holds of the bytes. -/
theorem forall_byte {P : UInt8 → Prop} (h : ∀ n < 256, P (UInt8.ofNat n)) (byte : UInt8) :
    P byte := by
  have hbyte := h byte.toNat byte.toNat_lt
  rwa [UInt8.ofNat_toNat] at hbyte

/-- An ASCII byte is a character of its own. -/
theorem ascii_of_mem {c : Char} {byte : UInt8} (h : byte ∈ String.utf8EncodeChar c)
    (hascii : byte.toNat < 128) : c.toNat = byte.toNat ∧ String.utf8EncodeChar c = [byte] := by
  have hc : c.val.toNat = c.toNat := rfl
  rw [String.utf8EncodeChar] at h ⊢
  split at h
  next hle =>
    obtain rfl := List.mem_singleton.mp h
    rw [if_pos hle]
    refine ⟨?_, rfl⟩
    rw [UInt8.toNat_ofNat', ← hc]
    omega
  next hle =>
    have hhigh : ∀ n, 128 ≤ n → n < 256 → byte = UInt8.ofNat n → False := by
      rintro n hlow hlt rfl
      rw [UInt8.toNat_ofNat', Nat.mod_eq_of_lt hlt] at hascii
      omega
    exfalso
    split at h
    · simp only [List.mem_cons, List.not_mem_nil, or_false] at h
      obtain h | h := h
      · exact hhigh _ (by omega) (by omega) h
      · exact hhigh _ (by omega) (by omega) h
    · split at h
      · simp only [List.mem_cons, List.not_mem_nil, or_false] at h
        obtain h | h | h := h
        · exact hhigh _ (by omega) (by omega) h
        · exact hhigh _ (by omega) (by omega) h
        · exact hhigh _ (by omega) (by omega) h
      · simp only [List.mem_cons, List.not_mem_nil, or_false] at h
        obtain h | h | h | h := h
        · exact hhigh _ (by omega) (by omega) h
        · exact hhigh _ (by omega) (by omega) h
        · exact hhigh _ (by omega) (by omega) h
        · exact hhigh _ (by omega) (by omega) h

/-- The byte of an ASCII character. -/
theorem utf8EncodeChar_ascii {c : Char} (h : c.toNat < 128) :
    String.utf8EncodeChar c = [UInt8.ofNat c.toNat] := by
  have hc : c.val.toNat = c.toNat := rfl
  rw [String.utf8EncodeChar, if_pos (by omega), hc]

/-- The text of ASCII bytes. -/
def asciiText (bytes : List UInt8) : String := String.ofList (bytes.map Char.ofUInt8)

theorem utf8_asciiText {bytes : List UInt8} (h : ∀ byte ∈ bytes, byte < 128) :
    utf8 (asciiText bytes).toList = bytes := by
  have hchar : ∀ byte : UInt8, byte < 128 → String.utf8EncodeChar (Char.ofUInt8 byte) = [byte] :=
    forall_byte (by decide +kernel)
  rw [asciiText, String.toList_ofList]
  induction bytes with
  | nil => rfl
  | cons byte bytes ih =>
      rw [List.map_cons, utf8, List.flatMap_cons, hchar byte (h byte List.mem_cons_self), ← utf8,
        ih fun b hb => h b (List.mem_cons_of_mem _ hb)]
      rfl

/-- A text is the one of its bytes, when they are ASCII. -/
theorem eq_asciiText {text : String} {bytes : List UInt8} (h : ∀ byte ∈ bytes, byte < 128) :
    text = asciiText bytes ↔ utf8 text.toList = bytes := by
  constructor
  · rintro rfl
    exact utf8_asciiText h
  · intro heq
    exact utf8_injective (heq.trans (utf8_asciiText h).symm)

theorem asciiText_lt {a b : List UInt8} (h : a < b) : asciiText a < asciiText b := by
  have hchar : ∀ x y : UInt8, x < y → Char.ofUInt8 x < Char.ofUInt8 y := by
    intro x y hxy
    rw [Char.lt_def]
    exact hxy
  have hmap := List.map_lt hchar h
  rw [asciiText, asciiText]
  show (String.ofList _).toList < (String.ofList _).toList
  rwa [String.toList_ofList, String.toList_ofList]

end Library
end Glaux
