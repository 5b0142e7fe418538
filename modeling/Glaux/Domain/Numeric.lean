import Glaux.Library.Outcome
import Mathlib.Data.Rat.Defs
import Mathlib.Algebra.Order.Ring.Rat
import Mathlib.Order.Compare

/-!
# Exact numbers (`numeric.rs`)

A number token is read without rounding: its value is a rational and its spelling is
kept beside it.  Comparisons use the value alone.  `NaN` is unordered, also with
itself.
-/

namespace Glaux
namespace Domain

def maxNumericTextBytes : Nat := 4096

def maxDecimalExponent : Nat := 4096

inductive NumericError where
  | syntaxError
  | inputLimit
  | exponentLimit
  | nonIntegral
  | outOfRange
  | nonFinite
deriving DecidableEq

/-- What a number was read from. -/
inductive Source where
  | decimal (text : String)
  | binary64 (bits : BitVec 64)
deriving DecidableEq

structure ExactNumber where
  value : ℚ
  source : Source
deriving DecidableEq

namespace ExactNumber

/-! ### The token -/

/-- `0`, or digits that do not start with `0`. -/
def integerPart : List Char → Except NumericError (List Char × List Char)
  | [] => .error .syntaxError
  | c :: rest =>
      if c = '0' then .ok ([c], rest)
      else if c.isDigit then .ok ((c :: rest).span Char.isDigit)
      else .error .syntaxError

/-- A point is followed by a digit. -/
def fractionPart : List Char → Except NumericError (List Char × List Char)
  | [] => .ok ([], [])
  | c :: rest =>
      if c = '.' then
        let digits := rest.span Char.isDigit
        if digits.1.length = 0 then .error .syntaxError else .ok digits
      else .ok ([], c :: rest)

def digit (c : Char) : Nat := c.toNat - '0'.toNat

/-- The bound is checked at every digit. -/
def exponentDigits (exponent : Nat) : List Char → Except NumericError (Nat × List Char)
  | [] => .ok (exponent, [])
  | c :: rest =>
      if c.isDigit then
        let exponent := exponent * 10 + digit c
        if exponent > maxDecimalExponent then .error .exponentLimit
        else exponentDigits exponent rest
      else .ok (exponent, c :: rest)

/-- The magnitude after the mark and its sign. -/
def unsignedExponent (negative : Bool) (text : List Char) :
    Except NumericError (Int × List Char) := do
  let (exponent, rest) ← exponentDigits 0 text
  if rest.length = text.length then .error .syntaxError
  else .ok (if negative then -(exponent : Int) else exponent, rest)

def exponentPart : List Char → Except NumericError (Int × List Char)
  | [] => .ok (0, [])
  | c :: rest =>
      if c = 'e' ∨ c = 'E' then
        unsignedExponent (rest.head? = some '-')
          (if rest.head? = some '+' ∨ rest.head? = some '-' then rest.tail else rest)
      else .ok (0, c :: rest)

def natural (digits : List Char) : Nat :=
  digits.foldl (fun value c => value * 10 + digit c) 0

/-- The coefficient times a power of ten. -/
def scaled (coefficient : Int) (scale : Int) : ℚ :=
  if coefficient = 0 then 0
  else if 0 ≤ scale then (coefficient : ℚ) * 10 ^ scale.toNat
  else (coefficient : ℚ) / 10 ^ (-scale).toNat

/-- Exactly one number token. -/
def parseJsonNumber (text : String) : Except NumericError ExactNumber := do
  if text.utf8ByteSize > maxNumericTextBytes then .error .inputLimit
  else
    let negative : Bool := text.toList.head? = some '-'
    let (integer, rest) ← integerPart (if negative then text.toList.tail else text.toList)
    let (fraction, rest) ← fractionPart rest
    let (exponent, rest) ← exponentPart rest
    if rest.length ≠ 0 then .error .syntaxError
    else
      let coefficient : Int := natural (integer ++ fraction)
      .ok ⟨scaled (if negative then -coefficient else coefficient) (exponent - fraction.length),
        .decimal text⟩

def decimalLexeme (number : ExactNumber) : Option String :=
  match number.source with
  | .decimal text => some text
  | .binary64 _ => none

def isInteger (number : ExactNumber) : Bool := number.value.isInt

def cmp (a b : ExactNumber) : Ordering := compare a.value b.value

def eq (a b : ExactNumber) : Bool := a.cmp b = .eq

/-- `state` is what a hasher makes of the value. -/
def hash {η : Type} (state : ℚ → η) (number : ExactNumber) : η := state number.value

/-- The lexeme of an accepted token is the token. -/
theorem decimalLexeme_of_parse {text : String} {number : ExactNumber}
    (h : parseJsonNumber text = .ok number) : number.decimalLexeme = some text := by
  unfold parseJsonNumber at h
  split at h
  · cases h
  · obtain ⟨⟨integer, rest⟩, -, h⟩ := Library.bind_eq_ok.mp h
    obtain ⟨⟨fraction, rest⟩, -, h⟩ := Library.bind_eq_ok.mp h
    obtain ⟨⟨exponent, rest⟩, -, h⟩ := Library.bind_eq_ok.mp h
    dsimp only at h
    split at h
    · cases h
    · cases h
      rfl

end ExactNumber

/-- A `CountValue` is an exact number that is an integer. -/
structure CountValue where
  number : ExactNumber
  integral : number.isInteger = true
deriving DecidableEq

def CountValue.tryFrom (number : ExactNumber) : Except NumericError CountValue :=
  if h : number.isInteger = true then .ok ⟨number, h⟩ else .error .nonIntegral

def CountValue.tryToU64 (count : CountValue) : Except NumericError Nat :=
  if 0 ≤ count.number.value.num ∧ count.number.value.num < 2 ^ 64 then
    .ok count.number.value.num.toNat
  else .error .outOfRange

/-- A number or one of the states that are not finite. -/
inductive NumericValue where
  | finite (number : ExactNumber)
  | nan
  | positiveInfinity
  | negativeInfinity
deriving DecidableEq

namespace NumericValue

def fromSweSpecial (text : String) : Except NumericError NumericValue :=
  if text = "NaN" then .ok .nan
  else if text = "Infinity" ∨ text = "+Infinity" then .ok .positiveInfinity
  else if text = "-Infinity" then .ok .negativeInfinity
  else .error .syntaxError

def partialCmp : NumericValue → NumericValue → Option Ordering
  | .nan, _ | _, .nan => none
  | .negativeInfinity, .negativeInfinity | .positiveInfinity, .positiveInfinity => some .eq
  | .negativeInfinity, _ | _, .positiveInfinity => some .lt
  | .positiveInfinity, _ | _, .negativeInfinity => some .gt
  | .finite a, .finite b => some (a.cmp b)

/-- Equality of the primitive: the value alone counts, and `NaN` equals nothing. -/
def eq (a b : NumericValue) : Bool := a.partialCmp b = some .eq

def le (a b : NumericValue) : Bool := a.partialCmp b = some .lt ∨ a.partialCmp b = some .eq

end NumericValue

example : (ExactNumber.parseJsonNumber "-1.50e1").toOption.map (·.value) = some (-15) := by
  decide +kernel

end Domain
end Glaux
