import Glaux.Domain.NumberToken
import Glaux.Library.Machine
import Glaux.Library.Utf8

/-!
# The number parser on the machine (`numeric.rs`)

`parse_json_number` with the positions and the `i32` values of the source.  Every
arithmetic step states the range it has to stay in; the whole computes what
`ExactNumber.parseJsonNumber` does.
-/

namespace Glaux
namespace Domain
namespace Machine

open Library Library.Machine

/-- `while bytes.get(pos).is_some_and(u8::is_ascii_digit)`. -/
def skipDigits {ε : Type} (bytes : List Char) (pos : Nat) : Run ε Nat :=
  if h : pos < bytes.length ∧ (bytes[pos]?).any Char.isDigit then do
    Width.usize.fits (pos + 1)
    skipDigits bytes (pos + 1)
  else .ok pos
termination_by bytes.length - pos

def integerEnd (bytes : List Char) (pos : Nat) : Run NumericError Nat :=
  match bytes[pos]? with
  | some c =>
      if c = '0' then do
        Width.usize.fits (pos + 1)
        .ok (pos + 1)
      else if c.isDigit then skipDigits bytes pos
      else refuse .syntaxError
  | none => refuse .syntaxError

/-- `fraction_digits` and the end of the mantissa. -/
def fractionEnd (bytes : List Char) (pos : Nat) : Run NumericError (Nat × Nat) :=
  if bytes[pos]? = some '.' then do
    Width.usize.fits (pos + 1)
    let stop ← skipDigits bytes (pos + 1)
    Width.usize.fits (stop - (pos + 1) : Int)
    Width.i32.fits (stop - (pos + 1) : Int)
    if stop - (pos + 1) = 0 then refuse .syntaxError
    else .ok (stop - (pos + 1), stop)
  else .ok (0, pos)

/-- `while let Some(digit @ b'0'..=b'9') = bytes.get(pos)`. -/
def exponentLoop (bytes : List Char) (pos exponent : Nat) : Run NumericError (Nat × Nat) :=
  match h : bytes[pos]? with
  | some c =>
      if c.isDigit then do
        Width.i32.fits (exponent * 10 : Int)
        Width.u8.fits ((c.toNat : Int) - '0'.toNat)
        Width.i32.fits (exponent * 10 + ExactNumber.digit c : Int)
        if exponent * 10 + ExactNumber.digit c > maxDecimalExponent then refuse .exponentLimit
        else do
          Width.usize.fits (pos + 1)
          exponentLoop bytes (pos + 1) (exponent * 10 + ExactNumber.digit c)
      else .ok (exponent, pos)
  | none => .ok (exponent, pos)
termination_by bytes.length - pos
decreasing_by
  have hpos := (List.getElem?_eq_some_iff.mp h).1
  omega

/-- The digits of the exponent from `exponent_start` on. -/
def unsignedEnd (bytes : List Char) (start : Nat) (negative : Bool) :
    Run NumericError (Int × Nat) := do
  let (exponent, stop) ← exponentLoop bytes start 0
  if stop = start then refuse .syntaxError
  else if negative then do
    Width.i32.fits (-exponent : Int)
    .ok (-(exponent : Int), stop)
  else .ok ((exponent : Int), stop)

/-- `exponent` and the position after it. -/
def exponentEnd (bytes : List Char) (pos : Nat) : Run NumericError (Int × Nat) :=
  if bytes[pos]? = some 'e' ∨ bytes[pos]? = some 'E' then do
    Width.usize.fits (pos + 1)
    let negative : Bool := bytes[pos + 1]? = some '-'
    let signed : Bool := bytes[pos + 1]? = some '+' ∨ bytes[pos + 1]? = some '-'
    let start := if signed then pos + 2 else pos + 1
    Width.usize.fits start
    unsignedEnd bytes start negative
  else .ok (0, pos)

/-- The value, from `fraction_digits`, `mantissa_end`, `exponent` and the last position. -/
def parsed (text : String) (negative : Bool) (bytes : List Char) (start : Nat)
    (fraction : Nat × Nat) (exponent : Int × Nat) : Run NumericError ExactNumber :=
  if exponent.2 ≠ bytes.length then refuse .syntaxError
  else do
    let mantissa ← slice bytes start fraction.2
    let coefficient : Int := ExactNumber.natural (mantissa.filter (· ≠ '.'))
    Width.i32.fits (exponent.1 - fraction.1)
    let scale : Int := exponent.1 - fraction.1
    -- `scale as u32` and `unsigned_abs`, the exponents of the powers of ten
    Width.u32.fits |scale|
    .ok ⟨ExactNumber.scaled (if negative then -coefficient else coefficient) scale,
      .decimal text⟩

def parseJsonNumber (text : String) : Run NumericError ExactNumber :=
  let bytes := text.toList
  if text.utf8ByteSize > maxNumericTextBytes then refuse .inputLimit
  else do
    let negative : Bool := bytes.head? = some '-'
    let start := if negative then 1 else 0
    let pos ← integerEnd bytes start
    let fraction ← fractionEnd bytes pos
    let exponent ← exponentEnd bytes fraction.2
    parsed text negative bytes start fraction exponent

/-! ### What the positions stand for -/

section Positions

theorem getElem?_front (front rest : List Char) : (front ++ rest)[front.length]? = rest.head? := by
  rw [List.getElem?_append_right le_rfl, Nat.sub_self, List.head?_eq_getElem?]

/-- A position of a short text. -/
theorem fits_usize {ε : Type} {n : Int} (hn : 0 ≤ n) (hle : n ≤ 2 ^ 32) :
    (Width.usize.fits n : Run ε Unit) = .ok () :=
  Width.fits_of hn (hle.trans (by decide))

theorem fits_i32 {ε : Type} {n : Int} (hle : |n| ≤ 2 ^ 30) :
    (Width.i32.fits n : Run ε Unit) = .ok () := by
  have hbounds := abs_le.mp hle
  exact Width.fits_of (le_trans (by decide) hbounds.1) (hbounds.2.trans (by decide))

theorem skipDigits_eq {ε : Type} (front rest : List Char)
    (hsize : (front ++ rest).length ≤ maxNumericTextBytes) :
    (skipDigits (front ++ rest) front.length : Run ε Nat) =
      .ok (front.length + (rest.span Char.isDigit).1.length) := by
  induction rest generalizing front with
  | nil =>
      rw [skipDigits, dif_neg (by simp)]
      rfl
  | cons c rest ih =>
      rw [skipDigits, getElem?_front, List.span_eq_takeWhile_dropWhile]
      by_cases hc : c.isDigit = true
      · have hlength : front.length + (rest.length + 1) ≤ 4096 := by
          simpa [maxNumericTextBytes] using hsize
        have hmoved : front ++ c :: rest = (front ++ [c]) ++ rest := by simp
        rw [dif_pos ⟨by simp, by simpa using hc⟩, fits_usize (by omega) (by omega), ok_bind]
        have hrest := ih (front ++ [c]) (by rw [← hmoved]; exact hsize)
        rw [← hmoved, List.length_append, List.length_singleton,
          List.span_eq_takeWhile_dropWhile] at hrest
        rw [hrest, List.takeWhile_cons, if_pos hc]
        simp only [List.length_cons, Except.ok.injEq]
        omega
      · rw [dif_neg fun h => hc (by simpa using h.2), List.takeWhile_cons, if_neg hc]
        rfl

theorem integerEnd_eq (front rest : List Char)
    (hsize : (front ++ rest).length ≤ maxNumericTextBytes) :
    integerEnd (front ++ rest) front.length =
      lift ((fun part => front.length + part.1.length) <$> ExactNumber.integerPart rest) := by
  unfold integerEnd
  rw [getElem?_front]
  cases rest with
  | nil => rfl
  | cons c rest =>
      rw [List.head?_cons, ExactNumber.integerPart]
      dsimp only
      have hlength : front.length + (rest.length + 1) ≤ 4096 := by
        simpa [maxNumericTextBytes] using hsize
      by_cases hzero : c = '0'
      · rw [if_pos hzero, if_pos hzero, fits_usize (by omega) (by omega)]
        rfl
      · rw [if_neg hzero, if_neg hzero]
        by_cases hdigit : c.isDigit = true
        · rw [if_pos hdigit, if_pos hdigit, skipDigits_eq _ _ hsize]
          rfl
        · rw [if_neg hdigit, if_neg hdigit]
          rfl

theorem fractionEnd_eq (front rest : List Char)
    (hsize : (front ++ rest).length ≤ maxNumericTextBytes) :
    fractionEnd (front ++ rest) front.length =
      lift ((fun part => (part.1.length, (front ++ rest).length - part.2.length)) <$>
        ExactNumber.fractionPart rest) := by
  unfold fractionEnd
  rw [getElem?_front]
  cases rest with
  | nil => simp [ExactNumber.fractionPart, lift, Except.mapError]
  | cons c rest =>
      have hlength : front.length + (rest.length + 1) ≤ 4096 := by
        simpa [maxNumericTextBytes] using hsize
      rw [List.head?_cons, ExactNumber.fractionPart]
      by_cases hpoint : c = '.'
      · have hmoved : front ++ c :: rest = (front ++ [c]) ++ rest := by simp
        have hskip := skipDigits_eq (ε := NumericError) (front ++ [c]) rest
          (by rw [← hmoved]; exact hsize)
        rw [← hmoved, List.length_append, List.length_singleton] at hskip
        have hsplit := congrArg List.length (ExactNumber.span_append rest)
        rw [List.length_append] at hsplit
        rw [if_pos (by rw [hpoint]), if_pos hpoint, fits_usize (by omega) (by omega), ok_bind,
          hskip, ok_bind]
        generalize (rest.span Char.isDigit) = digits at hsplit ⊢
        rw [fits_usize (by omega) (by omega), ok_bind, fits_i32 (by rw [abs_le]; omega), ok_bind,
          Nat.add_sub_cancel_left]
        by_cases hempty : digits.1.length = 0
        · simp [hempty, refuse]
        · have htotal : (front ++ c :: rest).length - digits.2.length =
              front.length + 1 + digits.1.length := by
            simp only [List.length_append, List.length_cons]
            omega
          rw [if_neg hempty, if_neg hempty, ← htotal]
          rfl
      · rw [if_neg (by simpa using hpoint), if_neg hpoint]
        simp [lift, Except.mapError]

theorem exponentLoop_eq (front rest : List Char) {exponent : Nat}
    (hexponent : exponent ≤ maxDecimalExponent)
    (hsize : (front ++ rest).length ≤ maxNumericTextBytes) :
    exponentLoop (front ++ rest) front.length exponent =
      lift ((fun part => (part.1, (front ++ rest).length - part.2.length)) <$>
        ExactNumber.exponentDigits exponent rest) := by
  induction rest generalizing front exponent with
  | nil =>
      rw [exponentLoop]
      split
      · rename_i d hd
        rw [getElem?_front] at hd
        cases hd
      · simp [ExactNumber.exponentDigits]
  | cons c rest ih =>
      have hlength : front.length + (rest.length + 1) ≤ 4096 := by
        simpa [maxNumericTextBytes] using hsize
      rw [exponentLoop]
      split
      · rename_i d hd
        rw [getElem?_front, List.head?_cons] at hd
        obtain rfl := Option.some.inj hd
        rw [ExactNumber.exponentDigits]
        by_cases hdigit : c.isDigit = true
        · have hdigits : ('0'.toNat ≤ c.toNat) ∧ c.toNat ≤ 57 := by
            simpa [Char.isDigit, Char.le_def, UInt32.le_iff_toNat_le] using hdigit
          have hzero : '0'.toNat = 48 := rfl
          have hvalue : ExactNumber.digit c ≤ 9 := by
            unfold ExactNumber.digit
            omega
          unfold maxDecimalExponent at hexponent
          rw [if_pos hdigit, if_pos hdigit, fits_i32 (by rw [abs_le]; omega), ok_bind,
            Width.fits_of (w := Width.u8) (by change 0 ≤ _; omega) (by change _ ≤ 255; omega),
            ok_bind, fits_i32 (by rw [abs_le]; omega), ok_bind]
          dsimp only
          by_cases hbound : exponent * 10 + ExactNumber.digit c > maxDecimalExponent
          · rw [if_pos hbound, if_pos hbound]
            rfl
          · have hmoved : front ++ c :: rest = (front ++ [c]) ++ rest := by simp
            have hrest := ih (front ++ [c]) (Nat.le_of_not_lt hbound)
              (by rw [← hmoved]; exact hsize)
            rw [← hmoved, List.length_append, List.length_singleton] at hrest
            rw [if_neg hbound, if_neg hbound, fits_usize (by omega) (by omega), ok_bind, hrest]
        · rw [if_neg hdigit, if_neg hdigit]
          simp
      · rename_i hnone
        rw [getElem?_front] at hnone
        cases hnone

theorem unsignedEnd_eq (front rest : List Char) (negative : Bool)
    (hsize : (front ++ rest).length ≤ maxNumericTextBytes) :
    unsignedEnd (front ++ rest) front.length negative =
      lift ((fun part => (part.1, (front ++ rest).length - part.2.length)) <$>
        ExactNumber.unsignedExponent negative rest) := by
  unfold unsignedEnd ExactNumber.unsignedExponent
  rw [exponentLoop_eq front rest (Nat.zero_le _) hsize]
  cases hdigits : ExactNumber.exponentDigits 0 rest with
  | error e => rfl
  | ok part =>
      obtain ⟨digits, hrest, -, hvalue, hle⟩ :=
        ExactNumber.exponentDigits_eq_ok (Nat.zero_le _) hdigits
      have hlength := congrArg List.length hrest
      rw [List.length_append] at hlength
      have hsame : (front ++ rest).length - part.2.length = front.length ↔
          part.2.length = rest.length := by
        rw [List.length_append]
        omega
      unfold maxDecimalExponent at hle
      change (if (front ++ rest).length - part.2.length = front.length then _ else _) =
        lift (_ <$> if part.2.length = rest.length then _ else _)
      by_cases hempty : part.2.length = rest.length
      · rw [if_pos (hsame.mpr hempty), if_pos hempty]
        rfl
      · rw [if_neg (fun h => hempty (hsame.mp h)), if_neg hempty]
        cases negative with
        | true =>
            rw [if_pos rfl, if_pos rfl, fits_i32 (by rw [abs_le]; omega)]
            rfl
        | false => rfl

theorem exponentEnd_eq (front rest : List Char)
    (hsize : (front ++ rest).length ≤ maxNumericTextBytes) :
    exponentEnd (front ++ rest) front.length =
      lift ((fun part => (part.1, (front ++ rest).length - part.2.length)) <$>
        ExactNumber.exponentPart rest) := by
  unfold exponentEnd
  rw [getElem?_front]
  cases rest with
  | nil => simp [ExactNumber.exponentPart]
  | cons c rest =>
      have hlength : front.length + (rest.length + 1) ≤ 4096 := by
        simpa [maxNumericTextBytes] using hsize
      have hmoved : front ++ c :: rest = (front ++ [c]) ++ rest := by simp
      have hnext : (front ++ c :: rest)[front.length + 1]? = rest.head? := by
        have := getElem?_front (front ++ [c]) rest
        rwa [← hmoved, List.length_append, List.length_singleton] at this
      rw [List.head?_cons, ExactNumber.exponentPart]
      by_cases hmark : c = 'e' ∨ c = 'E'
      · rw [if_pos (by simpa using hmark), if_pos hmark, fits_usize (by omega) (by omega), ok_bind]
        simp only [hnext]
        by_cases hsign : rest.head? = some '+' ∨ rest.head? = some '-'
        · obtain ⟨d, tail, rfl⟩ : ∃ d tail, rest = d :: tail := by
            cases rest with
            | nil => simp at hsign
            | cons d tail => exact ⟨d, tail, rfl⟩
          have hmoved : front ++ c :: d :: tail = (front ++ [c, d]) ++ tail := by simp
          have hend := unsignedEnd_eq (front ++ [c, d]) tail
            (decide ((d :: tail).head? = some '-')) (by rw [← hmoved]; exact hsize)
          rw [← hmoved, List.length_append] at hend
          rw [List.length_cons] at hlength
          rw [if_pos hsign, if_pos (decide_eq_true hsign), fits_usize (by omega) (by omega),
            ok_bind]
          exact hend
        · have hend := unsignedEnd_eq (front ++ [c]) rest
            (decide (rest.head? = some '-')) (by rw [← hmoved]; exact hsize)
          rw [← hmoved, List.length_append] at hend
          rw [if_neg hsign, if_neg (by simpa using hsign), fits_usize (by omega) (by omega),
            ok_bind]
          exact hend
      · rw [if_neg (by simpa using hmark), if_neg hmark]
        simp

end Positions

/-! ### The whole token -/

/-- Without the point the mantissa is its digits. -/
theorem mantissa_digits {integer pointed fraction : List Char} (hinteger : Json.Integer integer)
    (hfraction : Json.Fraction pointed fraction) :
    (integer ++ pointed).filter (· ≠ '.') = integer ++ fraction := by
  have hdigits : ∀ l : List Char, (∀ c ∈ l, c.isDigit = true) → l.filter (· ≠ '.') = l := by
    intro l hl
    refine List.filter_eq_self.mpr fun c hc => decide_eq_true ?_
    rintro rfl
    exact absurd (hl _ hc) (by decide)
  have hleft : integer.filter (· ≠ '.') = integer := by
    rcases hinteger with rfl | ⟨h, -⟩
    · rfl
    · exact hdigits _ h.2
  rw [List.filter_append, hleft]
  cases hfraction with
  | absent => rfl
  | written h =>
      rw [List.filter_cons_of_neg (by decide), hdigits _ h.2]

/-- The last steps, from the end of the exponent on. -/
theorem finish (text : String) (negative : Bool)
    {front integer pointed fraction marked rest : List Char} {exponent : Int}
    (hsize : (front ++ (integer ++ (pointed ++ (marked ++ rest)))).length ≤ maxNumericTextBytes)
    (hinteger : Json.Integer integer) (hfraction : Json.Fraction pointed fraction)
    (hexponent : |exponent| ≤ maxDecimalExponent) :
    parsed text negative (front ++ (integer ++ (pointed ++ (marked ++ rest)))) front.length
        (fraction.length, front.length + (integer ++ pointed).length)
        (exponent, (front ++ (integer ++ (pointed ++ (marked ++ rest)))).length - rest.length) =
      lift (if rest.length ≠ 0 then .error .syntaxError
        else
          let coefficient : Int := ExactNumber.natural (integer ++ fraction)
          .ok ⟨ExactNumber.scaled (if negative then -coefficient else coefficient)
            (exponent - fraction.length), .decimal text⟩) := by
  unfold parsed
  dsimp only
  have hlength : fraction.length ≤ pointed.length := by
    cases hfraction with
    | absent => exact le_rfl
    | written _ => simp
  have htotal : pointed.length ≤ 4096 := by
    simp only [List.length_append, maxNumericTextBytes] at hsize
    omega
  have hbounds := abs_le.mp hexponent
  unfold maxDecimalExponent at hbounds
  by_cases hrest : rest.length = 0
  · obtain rfl : rest = [] := List.eq_nil_of_length_eq_zero hrest
    have hslice : (slice (front ++ (integer ++ (pointed ++ (marked ++ [])))) front.length
        (front.length + (integer ++ pointed).length) : Run NumericError (List Char)) =
        .ok (integer ++ pointed) := by
      have hparts : front ++ (integer ++ (pointed ++ (marked ++ []))) =
          front ++ ((integer ++ pointed) ++ marked) := by simp
      exact slice_eq hparts
    rw [if_neg (by simp), if_neg (by simp), hslice, ok_bind, mantissa_digits hinteger hfraction,
      fits_i32 (by rw [abs_le]; omega), ok_bind,
      Width.fits_of (w := Width.u32) (abs_nonneg _)
        ((abs_le.mpr ⟨by omega, by omega⟩ : |exponent - fraction.length| ≤ 8192).trans
          (by decide))]
    rfl
  · have hlong : rest.length ≤ (front ++ (integer ++ (pointed ++ (marked ++ rest)))).length := by
      simp only [List.length_append]
      omega
    rw [if_pos (by omega), if_pos hrest]
    rfl

/-- **No overflow.**  On every text the machine computes what the exact parser does. -/
theorem parseJsonNumber_eq (text : String) :
    parseJsonNumber text = lift (ExactNumber.parseJsonNumber text) := by
  unfold parseJsonNumber ExactNumber.parseJsonNumber
  dsimp only
  by_cases hlimit : text.utf8ByteSize > maxNumericTextBytes
  · rw [if_pos hlimit, if_pos hlimit]
    rfl
  have hsize : text.toList.length ≤ maxNumericTextBytes :=
    (length_le_utf8ByteSize text).trans (Nat.le_of_not_lt hlimit)
  rw [if_neg hlimit, if_neg hlimit]
  have hchars := ExactNumber.minus_append text.toList
  generalize hnegative : decide (text.toList.head? = some '-') = negative at hchars ⊢
  generalize hbody : (if negative = true then text.toList.tail else text.toList) = body
    at hchars ⊢
  generalize hfront : (if negative = true then ['-'] else []) = front at hchars
  have hstart : (if negative = true then 1 else 0) = front.length := by
    rw [← hfront]
    cases negative with
    | true => rfl
    | false => rfl
  rw [← hchars] at hsize ⊢
  rw [hstart, integerEnd_eq front body hsize, lift_bind]
  cases hinteger : ExactNumber.integerPart body with
  | error e => rfl
  | ok part =>
      obtain ⟨integer, rest⟩ := part
      obtain ⟨hdigits, rfl⟩ := ExactNumber.integerPart_eq_ok hinteger
      have hmoved : front ++ (integer ++ rest) = (front ++ integer) ++ rest := by simp
      have hfraction := fractionEnd_eq (front ++ integer) rest (by rw [← hmoved]; exact hsize)
      rw [← hmoved, List.length_append] at hfraction
      change (fractionEnd _ (front.length + integer.length) >>= _) = _
      rw [hfraction, lift_ok, ok_bind, lift_bind]
      cases hpart : ExactNumber.fractionPart rest with
      | error e => rfl
      | ok part =>
          obtain ⟨fraction, rest'⟩ := part
          obtain ⟨pointed, hpointed, rfl⟩ := ExactNumber.fractionPart_eq_ok hpart
          have hend : (front ++ (integer ++ (pointed ++ rest'))).length - rest'.length =
              front.length + (integer ++ pointed).length := by
            simp only [List.length_append]
            omega
          have hmoved : front ++ (integer ++ (pointed ++ rest')) =
              (front ++ (integer ++ pointed)) ++ rest' := by simp
          have hexponent := exponentEnd_eq (front ++ (integer ++ pointed)) rest'
            (by rw [← hmoved]; exact hsize)
          rw [← hmoved, List.length_append, ← hend] at hexponent
          change (exponentEnd _ ((front ++ (integer ++ (pointed ++ rest'))).length -
            rest'.length) >>= _) = _
          rw [hexponent, lift_ok, ok_bind, lift_bind]
          cases hmarked : ExactNumber.exponentPart rest' with
          | error e => rfl
          | ok part =>
              obtain ⟨exponent, rest''⟩ := part
              obtain ⟨marked, minus, digits, -, rfl, rfl, hle⟩ :=
                ExactNumber.exponentPart_eq_ok hmarked
              have hbound : |ExactNumber.signed minus digits| ≤ (maxDecimalExponent : Int) := by
                unfold ExactNumber.signed
                rw [abs_le]
                split <;> omega
              have hfinish := finish text negative hsize hdigits hpointed hbound
              rw [← hend] at hfinish
              exact hfinish

end Machine

open Library Library.Json

/-- What is read from a text: whether it is a number, which number, and how it compares
with another one. -/
structure ExactReading (text : String) : Prop where
  accepted : (∃ number, ExactNumber.parseJsonNumber text = .ok number) ↔
    text.utf8ByteSize ≤ 4096 ∧
      ∃ parts, NumberToken text.toList parts ∧ decimal parts.exponent ≤ 4096
  value : ∀ number parts, ExactNumber.parseJsonNumber text = .ok number →
    NumberToken text.toList parts →
    number.value = parts.sign * decimal (parts.integer ++ parts.fraction) *
      10 ^ (parts.power - parts.fraction.length)
  lexeme : ∀ number, ExactNumber.parseJsonNumber text = .ok number →
    number.decimalLexeme = some text
  count : ∀ number, ExactNumber.parseJsonNumber text = .ok number →
    ((∃ count, CountValue.tryFrom number = .ok count) ↔ ∃ n : ℤ, number.value = n)
  compared : ∀ other number number', ExactNumber.parseJsonNumber text = .ok number →
    ExactNumber.parseJsonNumber other = .ok number' →
    number.cmp number' = compare number.value number'.value ∧
      (number.eq number' = true ↔ number.value = number'.value) ∧
      (number.value = number'.value →
        ∀ (η : Type) (state : ℚ → η), number.hash state = number'.hash state)
  machine : Machine.parseJsonNumber text = Machine.lift (ExactNumber.parseJsonNumber text)

/-- **Exact number parsing.** -/
theorem exact_reading (text : String) : ExactReading text where
  accepted := by
    constructor
    · rintro ⟨number, h⟩
      obtain ⟨hsize, parts, htoken, hbound, -⟩ := ExactNumber.parseJsonNumber_eq_ok.mp h
      exact ⟨hsize, parts, htoken, hbound⟩
    · rintro ⟨hsize, parts, htoken, hbound⟩
      exact ⟨_, ExactNumber.parseJsonNumber_eq_ok.mpr ⟨hsize, parts, htoken, hbound, rfl⟩⟩
  value := by
    intro number parts h htoken
    obtain ⟨-, parts', htoken', -, rfl⟩ := ExactNumber.parseJsonNumber_eq_ok.mp h
    rw [ExactNumber.token_unique htoken htoken']
    rfl
  lexeme := fun number h => ExactNumber.decimalLexeme_of_parse h
  count := by
    intro number h
    rw [← ExactNumber.isInteger_iff]
    unfold CountValue.tryFrom
    constructor
    · rintro ⟨count, hcount⟩
      split at hcount
      · assumption
      · cases hcount
    · intro hinteger
      exact ⟨_, dif_pos hinteger⟩
  compared := by
    intro other number number' _ _
    refine ⟨rfl, ?_, ?_⟩
    · rw [ExactNumber.eq, decide_eq_true_iff]
      exact compare_eq_iff_eq
    · intro hvalue η state
      rw [ExactNumber.hash, ExactNumber.hash, hvalue]
  machine := Machine.parseJsonNumber_eq text

end Domain
end Glaux
