import Glaux.Domain.Numeric
import Glaux.Library.Json.Number
import Mathlib.Tactic

/-!
# Number tokens are read exactly

`parse_json_number` accepts the tokens of the grammar within its two limits, and the
number it returns is the one the token writes.
-/

namespace Glaux
namespace Domain
namespace ExactNumber

open Library Library.Json

/-! ### Digits -/

theorem natural_eq_decimal (digits : List Char) : natural digits = decimal digits := by
  induction digits using List.reverseRecOn with
  | nil => rfl
  | append_singleton digits c ih =>
      unfold natural decimal at *
      rw [List.foldl_append, List.reverse_append, ih]
      simp only [List.foldl_cons, List.foldl_nil, List.reverse_singleton, List.singleton_append,
        List.map_cons, Nat.ofDigits_cons, digit]
      ring

/-- What comes after is no digit. -/
def Stops (rest : List Char) : Prop := ∀ c, rest.head? = some c → c.isDigit = false

theorem span_digits {digits rest : List Char} (h : ∀ c ∈ digits, c.isDigit = true)
    (hrest : Stops rest) : (digits ++ rest).span Char.isDigit = (digits, rest) := by
  have htake : rest.takeWhile Char.isDigit = [] := by
    cases rest with
    | nil => rfl
    | cons c rest => simp [hrest c rfl]
  have hdrop : rest.dropWhile Char.isDigit = rest := by
    cases rest with
    | nil => rfl
    | cons c rest => simp [hrest c rfl]
  rw [List.span_eq_takeWhile_dropWhile, List.takeWhile_append_of_pos h,
    List.dropWhile_append_of_pos h, htake, hdrop, List.append_nil]

theorem span_append (text : List Char) :
    text = (text.span Char.isDigit).1 ++ (text.span Char.isDigit).2 := by
  rw [List.span_eq_takeWhile_dropWhile, List.takeWhile_append_dropWhile]

theorem span_isDigit {text : List Char} {c : Char} (h : c ∈ (text.span Char.isDigit).1) :
    c.isDigit = true := by
  rw [List.span_eq_takeWhile_dropWhile] at h
  exact List.all_eq_true.mp List.all_takeWhile c h

/-! ### The parts of a token -/

theorem integerPart_append {integer rest : List Char} (h : Integer integer)
    (hrest : Stops rest) : integerPart (integer ++ rest) = .ok (integer, rest) := by
  rcases h with rfl | ⟨⟨hne, hdigits⟩, hzero⟩
  · rfl
  · cases integer with
    | nil => exact absurd rfl hne
    | cons c tail =>
        have hc : c ≠ '0' := fun hc => hzero (by rw [hc]; rfl)
        rw [List.cons_append, integerPart, if_neg hc, if_pos (hdigits c List.mem_cons_self),
          ← List.cons_append, span_digits hdigits hrest]

theorem integerPart_eq_ok {text integer rest : List Char}
    (h : integerPart text = .ok (integer, rest)) : Integer integer ∧ text = integer ++ rest := by
  cases text with
  | nil => cases h
  | cons c tail =>
      rw [integerPart] at h
      split at h
      · rename_i hc
        cases h
        exact ⟨.inl (by rw [hc]), rfl⟩
      · rename_i hc
        split at h
        · rename_i hdigit
          have hpair := Except.ok.inj h
          have hinteger : ((c :: tail).span Char.isDigit).1 = integer := by rw [hpair]
          have hhead : integer.head? = some c := by
            rw [← hinteger, List.span_eq_takeWhile_dropWhile]
            simp [hdigit]
          refine ⟨.inr ⟨⟨?_, ?_⟩, ?_⟩, ?_⟩
          · rintro rfl
            cases hhead
          · exact fun d hd => span_isDigit (hinteger ▸ hd)
          · rw [hhead]
            exact fun h => hc (Option.some.inj h)
          · have happend := span_append (c :: tail)
            rwa [hpair] at happend
        · cases h

theorem fractionPart_append {pointed fraction rest : List Char} (h : Fraction pointed fraction)
    (hrest : Stops rest) (hpoint : rest.head? ≠ some '.') :
    fractionPart (pointed ++ rest) = .ok (fraction, rest) := by
  cases h with
  | absent =>
      cases rest with
      | nil => rfl
      | cons c rest =>
          have hc : c ≠ '.' := fun hc => hpoint (by rw [hc]; rfl)
          rw [List.nil_append, fractionPart, if_neg hc]
  | written h =>
      have hlength : fraction.length ≠ 0 := fun hzero => h.1 (List.eq_nil_of_length_eq_zero hzero)
      rw [List.cons_append, fractionPart, if_pos rfl, span_digits h.2 hrest]
      exact if_neg hlength

theorem fractionPart_eq_ok {text fraction rest : List Char}
    (h : fractionPart text = .ok (fraction, rest)) :
    ∃ pointed, Fraction pointed fraction ∧ text = pointed ++ rest := by
  cases text with
  | nil =>
      cases h
      exact ⟨[], .absent, rfl⟩
  | cons c tail =>
      rw [fractionPart] at h
      split at h
      · rename_i hc
        dsimp only at h
        split at h
        · cases h
        · rename_i hlength
          have hpair := Except.ok.inj h
          have hfraction : (tail.span Char.isDigit).1 = fraction := by rw [hpair]
          refine ⟨'.' :: fraction, .written ⟨?_, ?_⟩, ?_⟩
          · rintro rfl
            exact hlength (by rw [hpair]; rfl)
          · exact fun d hd => span_isDigit (hfraction ▸ hd)
          · have happend := span_append tail
            rw [hpair] at happend
            rw [hc, happend, List.cons_append]
      · cases h
        exact ⟨[], .absent, rfl⟩

/-- Every prefix of the digits is within the bound when the whole is. -/
theorem exponentDigits_digits {digits : List Char} {exponent : Nat}
    (h : ∀ c ∈ digits, c.isDigit = true)
    (hbound : digits.foldl (fun value c => value * 10 + digit c) exponent ≤ maxDecimalExponent) :
    exponentDigits exponent digits =
      .ok (digits.foldl (fun value c => value * 10 + digit c) exponent, []) := by
  induction digits generalizing exponent with
  | nil => rfl
  | cons c digits ih =>
      have hgrow : ∀ (l : List Char) (n : Nat),
          n ≤ l.foldl (fun value c => value * 10 + digit c) n := by
        intro l
        induction l with
        | nil => exact fun n => le_rfl
        | cons d l ihl =>
            intro n
            exact le_trans (by omega) (ihl (n * 10 + digit d))
      have hhead : exponent * 10 + digit c ≤ maxDecimalExponent := (hgrow digits _).trans hbound
      rw [exponentDigits, if_pos (h c List.mem_cons_self)]
      dsimp only
      rw [if_neg (by omega)]
      exact ih (fun d hd => h d (List.mem_cons_of_mem _ hd)) hbound

theorem exponentDigits_eq_ok {text rest : List Char} {exponent result : Nat}
    (hexponent : exponent ≤ maxDecimalExponent)
    (h : exponentDigits exponent text = .ok (result, rest)) :
    ∃ digits, text = digits ++ rest ∧ (∀ c ∈ digits, c.isDigit = true) ∧
      result = digits.foldl (fun value c => value * 10 + digit c) exponent ∧
      result ≤ maxDecimalExponent := by
  induction text generalizing exponent with
  | nil =>
      cases h
      exact ⟨[], rfl, by simp, rfl, hexponent⟩
  | cons c text ih =>
      rw [exponentDigits] at h
      split at h
      · rename_i hc
        dsimp only at h
        split at h
        · cases h
        · rename_i hbound
          obtain ⟨digits, rfl, hdigits, hresult, hle⟩ := ih (Nat.le_of_not_lt hbound) h
          refine ⟨c :: digits, rfl, ?_, hresult, hle⟩
          intro d hd
          rcases List.mem_cons.mp hd with rfl | hd
          · exact hc
          · exact hdigits d hd
      · cases h
        exact ⟨[], rfl, by simp, rfl, hexponent⟩

/-- The marked part of a token, with its digits as a number. -/
def signed (negative : Bool) (digits : List Char) : Int :=
  if negative then -(decimal digits : Int) else decimal digits

theorem unsignedExponent_digits {negative : Bool} {digits : List Char} (h : Digits digits)
    (hbound : decimal digits ≤ maxDecimalExponent) :
    unsignedExponent negative digits = .ok (signed negative digits, []) := by
  have hnatural := natural_eq_decimal digits
  unfold natural at hnatural
  have hlength : ([] : List Char).length ≠ digits.length :=
    fun hzero => h.1 (List.eq_nil_of_length_eq_zero hzero.symm)
  rw [unsignedExponent, exponentDigits_digits h.2 (by rw [hnatural]; exact hbound), hnatural]
  exact if_neg hlength

theorem unsignedExponent_eq_ok {negative : Bool} {text rest : List Char} {exponent : Int}
    (h : unsignedExponent negative text = .ok (exponent, rest)) :
    ∃ digits, text = digits ++ rest ∧ Digits digits ∧ exponent = signed negative digits ∧
      decimal digits ≤ maxDecimalExponent := by
  obtain ⟨⟨result, tail⟩, hdigits, h⟩ := bind_eq_ok.mp h
  dsimp only at h
  split at h
  · cases h
  · rename_i hlength
    obtain ⟨rfl, rfl⟩ := Prod.mk.inj (Except.ok.inj h)
    obtain ⟨digits, rfl, hall, rfl, hle⟩ := exponentDigits_eq_ok (Nat.zero_le _) hdigits
    have hnatural := natural_eq_decimal digits
    unfold natural at hnatural
    rw [hnatural] at hle
    refine ⟨digits, rfl, ⟨?_, hall⟩, by rw [hnatural, signed], hle⟩
    rintro rfl
    exact hlength rfl

theorem exponentPart_marked {marked digits : List Char} {negative : Bool}
    (h : Exponent marked negative digits) (hbound : decimal digits ≤ maxDecimalExponent) :
    exponentPart marked = .ok (signed negative digits, []) := by
  cases h with
  | absent => rfl
  | written hmark hsign h =>
      rw [exponentPart, if_pos hmark]
      cases hsign with
      | absent =>
          have hplus : digits.head? ≠ some '+' := fun hc =>
            absurd (h.2 _ (List.mem_of_mem_head? hc)) (by decide)
          have hminus : digits.head? ≠ some '-' := fun hc =>
            absurd (h.2 _ (List.mem_of_mem_head? hc)) (by decide)
          simp only [List.nil_append, hplus, hminus, or_self, if_false, decide_false]
          exact unsignedExponent_digits h hbound
      | plus => exact unsignedExponent_digits h hbound
      | minus => exact unsignedExponent_digits h hbound

theorem exponentPart_eq_ok {text rest : List Char} {exponent : Int}
    (h : exponentPart text = .ok (exponent, rest)) :
    ∃ marked negative digits, Exponent marked negative digits ∧ text = marked ++ rest ∧
      exponent = signed negative digits ∧ decimal digits ≤ maxDecimalExponent := by
  cases text with
  | nil =>
      cases h
      exact ⟨[], false, [], .absent, rfl, rfl, Nat.zero_le _⟩
  | cons c tail =>
      rw [exponentPart] at h
      split at h
      · rename_i hmark
        obtain ⟨digits, htail, hdigits, rfl, hle⟩ := unsignedExponent_eq_ok h
        by_cases hminus : tail.head? = some '-'
        · rw [if_pos (.inr hminus)] at htail
          obtain ⟨rest', rfl⟩ : ∃ l, tail = '-' :: l := by
            cases tail with
            | nil => cases hminus
            | cons d l => exact ⟨l, by rw [Option.some.inj hminus]⟩
          rw [List.tail_cons] at htail
          exact ⟨c :: (['-'] ++ digits), true, digits, .written hmark .minus hdigits,
            by rw [htail]; simp, by simp, hle⟩
        · by_cases hplus : tail.head? = some '+'
          · rw [if_pos (.inl hplus)] at htail
            obtain ⟨rest', rfl⟩ : ∃ l, tail = '+' :: l := by
              cases tail with
              | nil => cases hplus
              | cons d l => exact ⟨l, by rw [Option.some.inj hplus]⟩
            rw [List.tail_cons] at htail
            exact ⟨c :: (['+'] ++ digits), false, digits, .written hmark .plus hdigits,
              by rw [htail]; simp, by simp, hle⟩
          · rw [if_neg (not_or.mpr ⟨hplus, hminus⟩)] at htail
            exact ⟨c :: ([] ++ digits), false, digits, .written hmark .absent hdigits,
              by rw [htail]; simp, by simp [hminus], hle⟩
      · cases h
        exact ⟨[], false, [], .absent, rfl, rfl, Nat.zero_le _⟩

/-! ### The token -/

theorem integer_head? {integer : List Char} (rest : List Char) (h : Integer integer) :
    (integer ++ rest).head? ≠ some '-' := by
  rcases h with rfl | ⟨⟨hne, hdigits⟩, -⟩
  · simp
  · cases integer with
    | nil => exact absurd rfl hne
    | cons c tail =>
        intro hc
        obtain rfl : c = '-' := by simpa using hc
        exact absurd (hdigits _ List.mem_cons_self) (by decide)

theorem exponent_stops {marked digits : List Char} {negative : Bool}
    (h : Exponent marked negative digits) : Stops marked ∧ marked.head? ≠ some '.' := by
  cases h with
  | absent => exact ⟨fun c hc => (by cases hc), by simp⟩
  | written hmark _ _ =>
      rcases hmark with rfl | rfl
      · exact ⟨fun c hc => by cases hc; rfl, by simp⟩
      · exact ⟨fun c hc => by cases hc; rfl, by simp⟩

theorem fraction_stops {pointed fraction rest : List Char} (h : Fraction pointed fraction)
    (hrest : Stops rest) : Stops (pointed ++ rest) := by
  cases h with
  | absent => exact hrest
  | written _ => exact fun c hc => by cases hc; rfl

theorem digits_ne_cons {digits text : List Char} {c : Char} (h : Digits digits)
    (hc : c.isDigit = false) : digits ≠ c :: text := by
  rintro rfl
  rw [h.2 c List.mem_cons_self] at hc
  cases hc

theorem exponent_unique {marked digits digits' : List Char} {negative negative' : Bool}
    (h : Exponent marked negative digits) (h' : Exponent marked negative' digits') :
    negative = negative' ∧ digits = digits' := by
  cases h with
  | absent =>
      cases h' with
      | absent => exact ⟨rfl, rfl⟩
  | @written mark sign _ _ _ hsign hdigits =>
      generalize htext : mark :: (sign ++ digits) = text at h'
      cases h' with
      | absent => cases htext
      | @written mark' sign' _ _ _ hsign' hdigits' =>
          have hrest := (List.cons.inj htext).2
          -- a sign is no digit
          cases hsign with
          | absent =>
              cases hsign' with
              | absent => exact ⟨rfl, hrest⟩
              | plus => exact absurd hrest (digits_ne_cons hdigits rfl)
              | minus => exact absurd hrest (digits_ne_cons hdigits rfl)
          | plus =>
              cases hsign' with
              | absent => exact absurd hrest.symm (digits_ne_cons hdigits' rfl)
              | plus => exact ⟨rfl, (List.cons.inj hrest).2⟩
              | minus => cases (List.cons.inj hrest).1
          | minus =>
              cases hsign' with
              | absent => exact absurd hrest.symm (digits_ne_cons hdigits' rfl)
              | plus => cases (List.cons.inj hrest).1
              | minus => exact ⟨rfl, (List.cons.inj hrest).2⟩

/-- A text is its minus sign and what is read after it. -/
theorem minus_append (chars : List Char) :
    (if decide (chars.head? = some '-') then ['-'] else []) ++
      (if decide (chars.head? = some '-') then chars.tail else chars) = chars := by
  cases chars with
  | nil => rfl
  | cons c tail =>
      by_cases hminus : c = '-'
      · simp [hminus]
      · simp [hminus]

/-- The coefficient and the power of ten of a token give its value. -/
theorem scaled_eq (parts : NumberParts) :
    scaled (if parts.negative then -(natural (parts.integer ++ parts.fraction) : Int)
        else natural (parts.integer ++ parts.fraction))
      (signed parts.exponentNegative parts.exponent - parts.fraction.length) = parts.value := by
  have hpower : signed parts.exponentNegative parts.exponent = parts.power := rfl
  have hcoefficient : (((if parts.negative then
        -(natural (parts.integer ++ parts.fraction) : Int)
      else natural (parts.integer ++ parts.fraction) : Int)) : ℚ) =
      parts.sign * decimal (parts.integer ++ parts.fraction) := by
    rw [natural_eq_decimal, NumberParts.sign]
    split <;> simp
  rw [hpower, NumberParts.value, ← hcoefficient, scaled]
  generalize (if parts.negative then -(natural (parts.integer ++ parts.fraction) : Int)
    else natural (parts.integer ++ parts.fraction)) = coefficient
  generalize parts.power - (parts.fraction.length : Int) = scale
  split
  · rename_i hzero
    rw [hzero]
    simp
  · split
    · rename_i hscale
      congr 1
      rw [← zpow_natCast, Int.toNat_of_nonneg hscale]
    · rename_i hscale
      rw [div_eq_mul_inv, ← zpow_natCast, Int.toNat_of_nonneg (by omega), zpow_neg, inv_inv]

/-- **Accepted tokens.**  A text is read exactly when it is a token of the grammar within
the two limits, and then as the number it writes. -/
theorem parseJsonNumber_eq_ok {text : String} {number : ExactNumber} :
    parseJsonNumber text = .ok number ↔
      text.utf8ByteSize ≤ maxNumericTextBytes ∧
        ∃ parts, NumberToken text.toList parts ∧ decimal parts.exponent ≤ maxDecimalExponent ∧
          number = ⟨parts.value, .decimal text⟩ := by
  constructor
  · intro h
    unfold parseJsonNumber at h
    split at h
    · cases h
    · rename_i hsize
      obtain ⟨⟨integer, rest⟩, hinteger, h₁⟩ := bind_eq_ok.mp h
      obtain ⟨⟨fraction, rest'⟩, hfraction, h₂⟩ := bind_eq_ok.mp h₁
      obtain ⟨⟨exponent, rest''⟩, hexponent, h₃⟩ := bind_eq_ok.mp h₂
      dsimp only at hfraction hexponent h₃
      split at h₃
      · cases h₃
      · rename_i hempty
        obtain rfl : rest'' = [] := List.eq_nil_of_length_eq_zero (not_not.mp hempty)
        obtain ⟨marked, negative, digits, hmarked, rfl, rfl, hle⟩ := exponentPart_eq_ok hexponent
        obtain ⟨pointed, hpointed, rfl⟩ := fractionPart_eq_ok hfraction
        obtain ⟨hinteger, htext⟩ := integerPart_eq_ok hinteger
        rw [List.append_nil] at htext
        refine ⟨Nat.le_of_not_lt hsize, ⟨text.toList.head? = some '-', integer, fraction, negative,
          digits⟩, ?_, hle, ?_⟩
        · have hchars := minus_append text.toList
          rw [htext] at hchars
          have htoken : NumberToken _ ⟨decide (text.toList.head? = some '-'), integer, fraction,
            negative, digits⟩ := .intro hinteger hpointed hmarked
          rwa [hchars] at htoken
        · have hvalue := scaled_eq ⟨decide (text.toList.head? = some '-'), integer, fraction,
            negative, digits⟩
          rw [← hvalue]
          exact (Except.ok.inj h₃).symm
  · rintro ⟨hsize, parts, htoken, hle, rfl⟩
    unfold parseJsonNumber
    rw [if_neg (Nat.not_lt.mpr hsize), ← scaled_eq parts]
    generalize text.toList = chars at htoken
    cases htoken with
    | @intro negative _ integer fraction exponent pointed marked hinteger hfraction hexponent =>
        obtain ⟨hstops, hpoint⟩ := exponent_stops hexponent
        have hinteger' := integerPart_append hinteger (fraction_stops hfraction hstops)
        have hfraction' := fractionPart_append hfraction hstops hpoint
        have hexponent' := exponentPart_marked hexponent hle
        have hminus := integer_head? (pointed ++ marked) hinteger
        generalize integer ++ (pointed ++ marked) = body at hinteger' hminus
        cases negative with
        | true => simp [hinteger', hfraction', hexponent']
        | false => simp [hminus, hinteger', hfraction', hexponent']

/-- A token has one reading. -/
theorem token_unique {text : List Char} {parts parts' : NumberParts}
    (h : NumberToken text parts) (h' : NumberToken text parts') : parts = parts' := by
  generalize htext : text = text' at h'
  cases h with
  | @intro negative minus integer fraction exponent pointed marked hinteger hfraction hexponent =>
  cases h' with
  | @intro negative' minus' integer' fraction' exponent' pointed' marked'
      hinteger' hfraction' hexponent' =>
    obtain ⟨hstops, hpoint⟩ := exponent_stops hexponent
    obtain ⟨hstops', hpoint'⟩ := exponent_stops hexponent'
    have hhead := integer_head? (pointed ++ marked) hinteger
    have hhead' := integer_head? (pointed' ++ marked') hinteger'
    -- the sign is seen at the first character
    have hsign : negative = negative' ∧
        integer ++ (pointed ++ marked) = integer' ++ (pointed' ++ marked') := by
      cases negative with
      | true =>
          cases negative' with
          | true => exact ⟨rfl, by simpa using htext⟩
          | false => exact absurd (by simpa using congrArg List.head? htext.symm) hhead'
      | false =>
          cases negative' with
          | true => exact absurd (by simpa using congrArg List.head? htext) hhead
          | false => exact ⟨rfl, by simpa using htext⟩
    obtain ⟨rfl, hbody⟩ := hsign
    have hread := integerPart_append hinteger (fraction_stops hfraction hstops)
    rw [hbody, integerPart_append hinteger' (fraction_stops hfraction' hstops')] at hread
    obtain ⟨rfl, hrest⟩ := Prod.mk.inj (Except.ok.inj hread)
    have hread := fractionPart_append hfraction hstops hpoint
    rw [← hrest, fractionPart_append hfraction' hstops' hpoint'] at hread
    obtain ⟨rfl, rfl⟩ := Prod.mk.inj (Except.ok.inj hread)
    obtain ⟨rfl, rfl⟩ := exponent_unique hexponent hexponent'
    rfl

theorem isInteger_iff (number : ExactNumber) :
    number.isInteger = true ↔ ∃ n : ℤ, number.value = n := by
  unfold isInteger Rat.isInt
  rw [beq_iff_eq]
  constructor
  · exact fun h => ⟨number.value.num, ((Rat.den_eq_one_iff _).mp h).symm⟩
  · rintro ⟨n, h⟩
    rw [h]
    rfl

end ExactNumber
end Domain
end Glaux
