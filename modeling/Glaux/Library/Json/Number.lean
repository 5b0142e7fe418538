import Mathlib.Data.Nat.Digits.Defs
import Mathlib.Data.Rat.Defs
import Mathlib.Algebra.Order.Ring.Rat
import Mathlib.Algebra.Order.Field.Basic

/-!
# JSON number tokens

The grammar of one number token over characters, and the rational number its parts stand
for.
-/

namespace Glaux
namespace Library
namespace Json

def Digits (text : List Char) : Prop := text ≠ [] ∧ ∀ c ∈ text, c.isDigit = true

/-- The number a row of digits writes. -/
def decimal (digits : List Char) : ℕ :=
  Nat.ofDigits 10 (digits.reverse.map fun c => c.toNat - '0'.toNat)

def Integer (text : List Char) : Prop :=
  text = ['0'] ∨ Digits text ∧ text.head? ≠ some '0'

inductive Fraction : List Char → List Char → Prop
  | absent : Fraction [] []
  | written {digits : List Char} (h : Digits digits) : Fraction ('.' :: digits) digits

/-- The sign of an exponent and whether it is a minus. -/
inductive Sign : List Char → Bool → Prop
  | absent : Sign [] false
  | plus : Sign ['+'] false
  | minus : Sign ['-'] true

inductive Exponent : List Char → Bool → List Char → Prop
  | absent : Exponent [] false []
  | written {mark : Char} {sign digits : List Char} {negative : Bool}
      (hmark : mark = 'e' ∨ mark = 'E') (hsign : Sign sign negative) (h : Digits digits) :
      Exponent (mark :: (sign ++ digits)) negative digits

/-- The parts of a number token that matter for its value. -/
structure NumberParts where
  negative : Bool
  integer : List Char
  fraction : List Char
  exponentNegative : Bool
  exponent : List Char

inductive NumberToken : List Char → NumberParts → Prop
  | intro {negative exponentNegative : Bool} {integer fraction exponent pointed marked : List Char}
      (hinteger : Integer integer) (hfraction : Fraction pointed fraction)
      (hexponent : Exponent marked exponentNegative exponent) :
      NumberToken ((if negative then ['-'] else []) ++ (integer ++ (pointed ++ marked)))
        ⟨negative, integer, fraction, exponentNegative, exponent⟩

namespace NumberParts

def sign (parts : NumberParts) : ℚ := if parts.negative then -1 else 1

def power (parts : NumberParts) : ℤ :=
  if parts.exponentNegative then -(decimal parts.exponent : ℤ) else decimal parts.exponent

/-- Sign, digits and a power of ten. -/
def value (parts : NumberParts) : ℚ :=
  parts.sign * decimal (parts.integer ++ parts.fraction) *
    10 ^ (parts.power - parts.fraction.length)

end NumberParts

end Json
end Library
end Glaux
