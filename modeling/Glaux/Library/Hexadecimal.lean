import Glaux.Library.Utf8
import Mathlib.Tactic

/-!
# Hexadecimal text and big-endian numbers

The two lowercase digits of a byte, texts of such digits cut into groups, and the number
that the bytes of a big-endian field stand for.  Fixed widths make all of them keep the
lexicographic order.
-/

namespace Glaux
namespace Library

section Lexicographic

variable {α β : Type} [LT α] [LT β]

theorem append_lt_append {a a' b b' : List α} (hlength : a.length = a'.length)
    (h : a < a' ∨ a = a' ∧ b < b') : a ++ b < a' ++ b' := by
  induction a generalizing a' with
  | nil =>
      cases a' with
      | nil =>
          obtain h | ⟨-, h⟩ := h
          · exact absurd h List.not_lex_nil
          · exact h
      | cons x a' => cases hlength
  | cons x a ih =>
      cases a' with
      | nil => cases hlength
      | cons x' a' =>
          have hlength' : a.length = a'.length := Nat.succ.inj hlength
          rw [List.cons_append, List.cons_append]
          obtain h | ⟨heq, h⟩ := h
          · obtain hx | ⟨rfl, ha⟩ := List.cons_lex_cons_iff.mp h
            · exact List.cons_lex_cons_iff.mpr (.inl hx)
            · exact List.cons_lex_cons_iff.mpr (.inr ⟨rfl, ih hlength' (.inl ha)⟩)
          · obtain ⟨rfl, rfl⟩ := List.cons.inj heq
            exact List.cons_lex_cons_iff.mpr (.inr ⟨rfl, ih hlength' (.inr ⟨rfl, h⟩)⟩)

/-- The first difference lies before the cut or after it. -/
theorem lt_take_or_drop {a b : List α} (h : a < b) (hlength : a.length = b.length) (n : Nat) :
    a.take n < b.take n ∨ a.take n = b.take n ∧ a.drop n < b.drop n := by
  induction n generalizing a b with
  | zero => exact .inr ⟨rfl, h⟩
  | succ n ih =>
      cases a with
      | nil =>
          cases b with
          | nil => exact absurd h List.not_lex_nil
          | cons y b => cases hlength
      | cons x a =>
          cases b with
          | nil => cases hlength
          | cons y b =>
              rw [List.take_succ_cons, List.take_succ_cons, List.drop_succ_cons,
                List.drop_succ_cons]
              obtain hx | ⟨rfl, hrest⟩ := List.cons_lex_cons_iff.mp h
              · exact .inl (List.cons_lex_cons_iff.mpr (.inl hx))
              · obtain hlt | ⟨heq, hlt⟩ := ih hrest (Nat.succ.inj hlength)
                · exact .inl (List.cons_lex_cons_iff.mpr (.inr ⟨rfl, hlt⟩))
                · exact .inr ⟨by rw [heq], hlt⟩

/-- Code words of one width that keep the order of the letters. -/
theorem flatMap_lt {code : α → List β} {width : Nat} (hwidth : ∀ x, (code x).length = width)
    (hcode : ∀ x y, x < y → code x < code y) {a b : List α} (h : a < b)
    (hlength : a.length = b.length) : a.flatMap code < b.flatMap code := by
  induction a generalizing b with
  | nil =>
      cases b with
      | nil => exact absurd h List.not_lex_nil
      | cons y b => cases hlength
  | cons x a ih =>
      cases b with
      | nil => cases hlength
      | cons y b =>
          rw [List.flatMap_cons, List.flatMap_cons]
          refine append_lt_append (by rw [hwidth, hwidth]) ?_
          obtain hx | ⟨rfl, hrest⟩ := List.cons_lex_cons_iff.mp h
          · exact .inl (hcode x y hx)
          · exact .inr ⟨rfl, ih hrest (Nat.succ.inj hlength)⟩

end Lexicographic

/-! ### Digits -/

/-- The digit of a number below sixteen. -/
def hexDigit (n : UInt8) : UInt8 := if n < 10 then 48 + n else 87 + n

def isHexDigit (byte : UInt8) : Bool := (48 ≤ byte && byte ≤ 57) || (97 ≤ byte && byte ≤ 102)

def hexDigitValue (byte : UInt8) : UInt8 := if byte ≤ 57 then byte - 48 else byte - 87

def hexByte (byte : UInt8) : List UInt8 := [hexDigit (byte >>> 4), hexDigit (byte &&& 15)]

/-- The two digits of every byte. -/
def hex (bytes : List UInt8) : List UInt8 := bytes.flatMap hexByte

/-- The bytes that pairs of digits stand for. -/
def unhex : List UInt8 → List UInt8
  | high :: low :: rest => (hexDigitValue high <<< 4 ||| hexDigitValue low) :: unhex rest
  | _ => []

theorem toNat_high (byte : UInt8) : (byte >>> 4).toNat = byte.toNat / 16 := by
  rw [UInt8.toNat_shiftRight]
  exact Nat.shiftRight_eq_div_pow byte.toNat 4
theorem toNat_low (byte : UInt8) : (byte &&& 15).toNat = byte.toNat % 16 := by
  rw [UInt8.toNat_and]
  exact Nat.and_two_pow_sub_one_eq_mod byte.toNat 4

theorem high_lt (byte : UInt8) : byte >>> 4 < 16 := by
  have hbyte := byte.toNat_lt
  rw [UInt8.lt_iff_toNat_lt, toNat_high]
  exact Nat.div_lt_of_lt_mul hbyte

theorem low_lt (byte : UInt8) : byte &&& 15 < 16 := by
  rw [UInt8.lt_iff_toNat_lt, toNat_low]
  exact Nat.mod_lt _ (by decide)

/-- The byte of two digits. -/
theorem toNat_join {high low : UInt8} (hhigh : high < 16) (hlow : low < 16) :
    (high <<< 4 ||| low).toNat = 16 * high.toNat + low.toNat := by
  rw [UInt8.lt_iff_toNat_lt] at hhigh hlow
  have hshift : (high <<< 4).toNat = high.toNat <<< 4 := by
    rw [UInt8.toNat_shiftLeft]
    refine Nat.mod_eq_of_lt ?_
    rw [Nat.shiftLeft_eq]
    exact Nat.mul_lt_mul_of_pos_right hhigh (by decide)
  have hbits : low.toNat < 2 ^ 4 := hlow
  rw [UInt8.toNat_or, hshift, ← Nat.shiftLeft_add_eq_or_of_lt hbits, Nat.shiftLeft_eq, Nat.mul_comm]

theorem hexDigit_of_lt {n : UInt8} (h : n < 16) :
    isHexDigit (hexDigit n) = true ∧ hexDigitValue (hexDigit n) = n := by
  have hall : ∀ k < 16, isHexDigit (hexDigit (UInt8.ofNat k)) = true ∧
      hexDigitValue (hexDigit (UInt8.ofNat k)) = UInt8.ofNat k := by decide
  have hn := hall n.toNat h
  rwa [UInt8.ofNat_toNat] at hn

theorem isHexDigit_hexByte (byte : UInt8) : (hexByte byte).all isHexDigit = true := by
  simp only [hexByte, List.all_cons, List.all_nil, (hexDigit_of_lt (high_lt byte)).1,
    (hexDigit_of_lt (low_lt byte)).1, Bool.and_true]

theorem hexDigitValue_hexByte (byte : UInt8) :
    hexDigitValue (hexDigit (byte >>> 4)) <<< 4 ||| hexDigitValue (hexDigit (byte &&& 15)) =
      byte := by
  have hjoin := toNat_join (high_lt byte) (low_lt byte)
  rw [(hexDigit_of_lt (high_lt byte)).2, (hexDigit_of_lt (low_lt byte)).2, ← UInt8.toNat_inj, hjoin,
    toNat_high, toNat_low]
  exact Nat.div_add_mod byte.toNat 16

theorem hexDigit_value {digit : UInt8} (h : isHexDigit digit = true) :
    hexDigitValue digit < 16 ∧ hexDigit (hexDigitValue digit) = digit := by
  unfold isHexDigit at h
  unfold hexDigitValue hexDigit
  grind

theorem isHexDigit_lt {digit : UInt8} (h : isHexDigit digit = true) : digit < 128 := by
  unfold isHexDigit at h
  grind

theorem isHexDigit_of_mem_hex {bytes : List UInt8} {digit : UInt8} (h : digit ∈ hex bytes) :
    isHexDigit digit = true := by
  obtain ⟨byte, -, hdigit⟩ := List.mem_flatMap.mp h
  exact List.all_eq_true.mp (isHexDigit_hexByte byte) digit hdigit

theorem length_hex (bytes : List UInt8) : (hex bytes).length = 2 * bytes.length := by
  induction bytes with
  | nil => rfl
  | cons byte bytes ih =>
      rw [hex, List.flatMap_cons, List.length_append, ← hex, ih, List.length_cons]
      simp only [hexByte, List.length_cons, List.length_nil]
      omega

theorem unhex_hex (bytes : List UInt8) : unhex (hex bytes) = bytes := by
  induction bytes with
  | nil => rfl
  | cons byte bytes ih =>
      rw [hex, List.flatMap_cons, ← hex]
      simp only [hexByte, List.cons_append, List.nil_append, unhex, ih, hexDigitValue_hexByte]

theorem hexByte_of_values {high low : UInt8} (hhigh : high < 16) (hlow : low < 16) :
    (high <<< 4 ||| low) >>> 4 = high ∧ (high <<< 4 ||| low) &&& 15 = low := by
  have hjoin := toNat_join hhigh hlow
  rw [UInt8.lt_iff_toNat_lt] at hlow
  have hbound : low.toNat < 16 := hlow
  rw [← UInt8.toNat_inj, ← UInt8.toNat_inj, toNat_high, toNat_low, hjoin]
  omega

/-- Digits in pairs are the text of their bytes. -/
theorem hex_unhex : ∀ {text : List UInt8} {n : Nat}, text.length = 2 * n →
    (∀ digit ∈ text, isHexDigit digit = true) →
    (unhex text).length = n ∧ hex (unhex text) = text
  | [], n, hlength, _ => ⟨by simp at hlength; simp [unhex, hlength], rfl⟩
  | [_], n, hlength, _ => by simp at hlength; omega
  | high :: low :: rest, n, hlength, hdigits => by
      simp only [List.length_cons] at hlength
      have hrest : rest.length = 2 * (n - 1) := by omega
      obtain ⟨hlength', hrest⟩ := hex_unhex hrest
        fun digit hdigit => hdigits digit (by simp [hdigit])
      obtain ⟨hhigh, hhigh'⟩ := hexDigit_value (hdigits high (by simp))
      obtain ⟨hlow, hlow'⟩ := hexDigit_value (hdigits low (by simp))
      obtain ⟨hfirst, hsecond⟩ := hexByte_of_values hhigh hlow
      refine ⟨by rw [unhex, List.length_cons, hlength']; omega, ?_⟩
      rw [unhex, hex, List.flatMap_cons, ← hex, hrest, hexByte, hfirst, hsecond, hhigh', hlow']
      rfl

theorem halves_lt {x y : UInt8} (h : x < y) :
    x >>> 4 < y >>> 4 ∨ x >>> 4 = y >>> 4 ∧ x &&& 15 < y &&& 15 := by
  rw [UInt8.lt_iff_toNat_lt] at h
  rw [UInt8.lt_iff_toNat_lt, UInt8.lt_iff_toNat_lt, ← UInt8.toNat_inj, toNat_high, toNat_high,
    toNat_low, toNat_low]
  omega

theorem hexDigit_lt {n m : UInt8} (h : n < m) (hm : m < 16) : hexDigit n < hexDigit m := by
  have hall : ∀ j < 16, ∀ i < j, hexDigit (UInt8.ofNat i) < hexDigit (UInt8.ofNat j) := by decide
  have hlt := hall m.toNat hm n.toNat h
  rwa [UInt8.ofNat_toNat, UInt8.ofNat_toNat] at hlt

/-- The digits keep the order of the bytes. -/
theorem hexByte_lt {x y : UInt8} (h : x < y) : hexByte x < hexByte y := by
  obtain hhigh | ⟨heq, hlow⟩ := halves_lt h
  · exact List.cons_lex_cons_iff.mpr (.inl (hexDigit_lt hhigh (high_lt y)))
  · refine List.cons_lex_cons_iff.mpr (.inr ⟨by rw [heq], ?_⟩)
    exact List.cons_lex_cons_iff.mpr (.inl (hexDigit_lt hlow (low_lt y)))

theorem hex_lt {a b : List UInt8} (h : a < b) (hlength : a.length = b.length) : hex a < hex b := by
  have hwidth : ∀ byte, (hexByte byte).length = 2 := fun _ => rfl
  exact flatMap_lt hwidth (fun _ _ => hexByte_lt) h hlength

/-! ### Groups -/

def hyphen : UInt8 := 45

/-- Digits with a hyphen after each of the first groups, whose sizes are given. -/
def grouped : List Nat → List UInt8 → List UInt8
  | [], bytes => hex bytes
  | size :: sizes, bytes => hex (bytes.take size) ++ hyphen :: grouped sizes (bytes.drop size)

theorem mem_grouped {sizes : List Nat} {bytes : List UInt8} {c : UInt8}
    (h : c ∈ grouped sizes bytes) : c = hyphen ∨ isHexDigit c = true := by
  induction sizes generalizing bytes with
  | nil => exact .inr (isHexDigit_of_mem_hex h)
  | cons size sizes ih =>
      obtain h | h := List.mem_append.mp h
      · exact .inr (isHexDigit_of_mem_hex h)
      · obtain rfl | h := List.mem_cons.mp h
        · exact .inl rfl
        · exact ih h

/-- Without the hyphens, the digits of the bytes are left. -/
theorem filter_grouped (sizes : List Nat) (bytes : List UInt8) :
    (grouped sizes bytes).filter (· ≠ hyphen) = hex bytes := by
  have hdigit : ∀ c : UInt8, isHexDigit c = true → c ≠ hyphen := by
    rintro c hc rfl
    revert hc
    decide
  have hhex : ∀ bytes, (hex bytes).filter (· ≠ hyphen) = hex bytes := by
    intro bytes
    refine List.filter_eq_self.mpr fun c hc => ?_
    simpa using hdigit c (isHexDigit_of_mem_hex hc)
  induction sizes generalizing bytes with
  | nil => exact hhex bytes
  | cons size sizes ih =>
      rw [grouped, List.filter_append, hhex, List.filter_cons_of_neg (by simp), ih, hex, hex,
        ← List.flatMap_append, List.take_append_drop, ← hex]

/-- Grouped digits keep the order of the bytes. -/
theorem grouped_lt (sizes : List Nat) {a b : List UInt8} (h : a < b)
    (hlength : a.length = b.length) : grouped sizes a < grouped sizes b := by
  induction sizes generalizing a b with
  | nil => exact hex_lt h hlength
  | cons size sizes ih =>
      have htake : (a.take size).length = (b.take size).length := by simp [hlength]
      have hdrop : (a.drop size).length = (b.drop size).length := by simp [hlength]
      refine append_lt_append (by rw [length_hex, length_hex, htake]) ?_
      obtain hlt | ⟨heq, hlt⟩ := lt_take_or_drop h hlength size
      · exact .inl (hex_lt hlt htake)
      · exact .inr ⟨by rw [heq], List.cons_lex_cons_iff.mpr (.inr ⟨rfl, ih hlt hdrop⟩)⟩

theorem length_grouped {sizes : List Nat} {bytes : List UInt8} (h : sizes.sum ≤ bytes.length) :
    (grouped sizes bytes).length = 2 * bytes.length + sizes.length := by
  induction sizes generalizing bytes with
  | nil => exact length_hex bytes
  | cons size sizes ih =>
      rw [List.sum_cons] at h
      rw [grouped, List.length_append, List.length_cons, length_hex, List.length_take,
        ih (by rw [List.length_drop]; omega), List.length_drop, List.length_cons]
      omega

/-- One more group in front. -/
theorem grouped_append {front bytes : List UInt8} (sizes : List Nat) :
    grouped (front.length :: sizes) (front ++ bytes) =
      hex front ++ hyphen :: grouped sizes bytes := by
  rw [grouped, List.take_left, List.drop_left]

theorem hex_getElem? (bytes : List UInt8) (i : Nat) :
    (hex bytes)[2 * i]? = bytes[i]?.map fun byte : UInt8 => hexDigit (byte >>> 4) := by
  induction bytes generalizing i with
  | nil => rfl
  | cons byte bytes ih =>
      cases i with
      | zero => rfl
      | succ i =>
          rw [hex, List.flatMap_cons, ← hex, List.getElem?_append_right (by simp [hexByte]),
            List.getElem?_cons_succ, ← ih]
          rfl

/-- A digit of the first group. -/
theorem grouped_first {size i : Nat} {sizes : List Nat} {bytes : List UInt8} (hi : i < size)
    (h : size ≤ bytes.length) :
    (grouped (size :: sizes) bytes)[2 * i]? =
      bytes[i]?.map fun byte : UInt8 => hexDigit (byte >>> 4) := by
  rw [grouped, List.getElem?_append_left, hex_getElem?, List.getElem?_take_of_lt hi]
  rw [length_hex, List.length_take, Nat.min_eq_left h]
  omega

/-- Past the first hyphen. -/
theorem grouped_skip {size i : Nat} {sizes : List Nat} {bytes : List UInt8}
    (h : size ≤ bytes.length) :
    (grouped (size :: sizes) bytes)[2 * size + 1 + i]? =
      (grouped sizes (bytes.drop size))[i]? := by
  have hlength : (hex (bytes.take size)).length = 2 * size := by
    rw [length_hex, List.length_take, Nat.min_eq_left h]
  rw [grouped, List.getElem?_append_right (by omega), hlength,
    show 2 * size + 1 + i - 2 * size = i + 1 by omega, List.getElem?_cons_succ]

/-! ### Big-endian numbers -/

def bigEndian : List UInt8 → Nat
  | [] => 0
  | byte :: bytes => byte.toNat * 256 ^ bytes.length + bigEndian bytes

theorem bigEndian_lt (bytes : List UInt8) : bigEndian bytes < 256 ^ bytes.length := by
  induction bytes with
  | nil => exact Nat.one_pos
  | cons byte bytes ih =>
      have hbyte : byte.toNat + 1 ≤ 256 := byte.toNat_lt
      calc byte.toNat * 256 ^ bytes.length + bigEndian bytes
          < byte.toNat * 256 ^ bytes.length + 256 ^ bytes.length := by omega
        _ = (byte.toNat + 1) * 256 ^ bytes.length := by ring
        _ ≤ 256 * 256 ^ bytes.length := Nat.mul_le_mul_right _ hbyte
        _ = 256 ^ (byte :: bytes).length := by rw [List.length_cons, pow_succ]; ring

/-- Larger numbers have larger fields. -/
theorem lt_of_bigEndian_lt {a b : List UInt8} (hlength : a.length = b.length)
    (h : bigEndian a < bigEndian b) : a < b := by
  induction a generalizing b with
  | nil =>
      obtain rfl := List.length_eq_zero_iff.mp hlength.symm
      exact absurd h (lt_irrefl _)
  | cons x a ih =>
      cases b with
      | nil => cases hlength
      | cons y b =>
          have hlength' : a.length = b.length := Nat.succ.inj hlength
          rw [bigEndian, bigEndian, hlength'] at h
          rcases Nat.lt_trichotomy x.toNat y.toNat with hlt | heq | hgt
          · exact List.cons_lex_cons_iff.mpr (.inl hlt)
          · refine List.cons_lex_cons_iff.mpr (.inr ⟨UInt8.toNat_inj.mp heq, ih hlength' ?_⟩)
            rw [heq] at h
            omega
          · have hb := bigEndian_lt b
            have hmul : (y.toNat + 1) * 256 ^ b.length ≤ x.toNat * 256 ^ b.length :=
              Nat.mul_le_mul_right _ hgt
            rw [Nat.add_mul, Nat.one_mul] at hmul
            omega

end Library
end Glaux
