import Glaux.Domain.Numeric
import Mathlib.Data.Prod.Lex
import Mathlib.Order.Lattice

/-!
# Exact instants (`temporal.rs`)

The parts of an accepted instant that are stored: civil second, leap mark,
decimal fraction and source lexeme.  The order of instants is the lexicographic
order of the first three; a leap second has a slot of its own after the civil
second before it.
-/

namespace Glaux
namespace Domain

structure ExactInstant where
  civilSecond : Int
  leapSecond : Bool
  fraction : String
  sourceLexeme : String
deriving DecidableEq

inductive TimeError where
  | syntaxError
  | calendar
  | inputLimit
  | unrecognizedLeapSecond
  | inconsistentStorage
deriving DecidableEq

def maxTimestampBytes : Nat := 4096

/-- Historical positive leap dates, in UTC. -/
def positiveLeapDates : List (Nat × Nat × Nat) := [
  (1972, 6, 30), (1972, 12, 31), (1973, 12, 31), (1974, 12, 31), (1975, 12, 31),
  (1976, 12, 31), (1977, 12, 31), (1978, 12, 31), (1979, 12, 31), (1981, 6, 30),
  (1982, 6, 30), (1983, 6, 30), (1985, 6, 30), (1987, 12, 31), (1989, 12, 31),
  (1990, 12, 31), (1992, 6, 30), (1993, 6, 30), (1994, 6, 30), (1995, 12, 31),
  (1997, 6, 30), (1998, 12, 31), (2005, 12, 31), (2008, 12, 31), (2012, 6, 30),
  (2015, 6, 30), (2016, 12, 31)]

def leapYear (year : Nat) : Bool := year % 4 = 0 ∧ (year % 100 ≠ 0 ∨ year % 400 = 0)

def monthDays (year month : Nat) : Nat :=
  if month = 2 then if leapYear year then 29 else 28
  else if month ∈ [4, 6, 9, 11] then 30
  else if month ∈ [1, 3, 5, 7, 8, 10, 12] then 31
  else 0

def daysBeforeYear (year : Nat) : Int :=
  let leaps := if year = 0 then 0
    else (year - 1) / 4 - (year - 1) / 100 + (year - 1) / 400 + 1
  (year : Int) * 365 + leaps

def civilDays (year month day : Nat) : Int :=
  daysBeforeYear year - daysBeforeYear 1970
    + (((List.range month).drop 1).map (fun m => (monthDays year m : Int))).sum
    + day - 1

namespace ExactInstant

def digits (text : List Char) : Except TimeError Nat :=
  text.foldlM (fun value c =>
    if c.isDigit then .ok (value * 10 + ExactNumber.digit c) else .error .syntaxError) 0

/-- The digits after a point, if there is one. -/
def fractionDigits : List Char → Except TimeError (List Char × List Char)
  | [] => .ok ([], [])
  | c :: rest =>
      if c = '.' then
        let digits := rest.span Char.isDigit
        if digits.1.length = 0 then .error .syntaxError else .ok digits
      else .ok ([], c :: rest)

/-- The offset in seconds. -/
def offsetSeconds (text : List Char) : Except TimeError Int :=
  if text = ['Z'] ∨ text = ['z'] then .ok 0
  else if text.length = 6 ∧ (text[0]? = some '+' ∨ text[0]? = some '-') ∧ text[3]? = some ':' then do
    let hours ← digits ((text.drop 1).take 2)
    let minutes ← digits (text.drop 4)
    if hours > 23 ∨ minutes > 59 then .error .calendar
    else
      let magnitude : Int := hours * 3600 + minutes * 60
      .ok (if text[0]? = some '-' then -magnitude else magnitude)
  else .error .syntaxError

def parseRfc3339 (text : String) : Except TimeError ExactInstant := do
  let chars := text.toList
  if text.utf8ByteSize > maxTimestampBytes then .error .inputLimit
  else if chars.length < 20 ∨ chars.any (fun c => c.toNat ≥ 128)
      ∨ chars[4]? ≠ some '-' ∨ chars[7]? ≠ some '-'
      ∨ ¬ (chars[10]? = some 'T' ∨ chars[10]? = some 't')
      ∨ chars[13]? ≠ some ':' ∨ chars[16]? ≠ some ':' then .error .syntaxError
  else
    let year ← digits (chars.take 4)
    let month ← digits ((chars.drop 5).take 2)
    let day ← digits ((chars.drop 8).take 2)
    let hour ← digits ((chars.drop 11).take 2)
    let minute ← digits ((chars.drop 14).take 2)
    let second ← digits ((chars.drop 17).take 2)
    if ¬ (1 ≤ month ∧ month ≤ 12) ∨ day = 0 ∨ day > monthDays year month ∨ hour > 23
        ∨ minute > 59 ∨ second > 60 then .error .calendar
    else
      let (fraction, rest) ← fractionDigits (chars.drop 19)
      let offset ← offsetSeconds rest
      let leap : Bool := second = 60
      let civilSecond : Int := civilDays year month day * 86400
        + (hour * 3600 + minute * 60 + min second 59 : Nat) - offset
      if leap ∧ ¬ positiveLeapDates.any (fun date =>
          civilDays date.1 date.2.1 date.2.2 * 86400 + 86399 = civilSecond) then
        .error .unrecognizedLeapSecond
      else
        let fractionText := if fraction.length = 0 then "0" else "0." ++ String.ofList fraction
        match ExactNumber.parseJsonNumber fractionText with
        | .error _ => .error .syntaxError
        | .ok _ => .ok ⟨civilSecond, leap, fractionText, text⟩

/-- The value of the retained decimal. -/
def fractionValue (instant : ExactInstant) : ℚ :=
  match ExactNumber.parseJsonNumber instant.fraction with
  | .ok number => number.value
  | .error _ => 0

def cmp (a b : ExactInstant) : Ordering :=
  (compare a.civilSecond b.civilSecond).then
    ((compare a.leapSecond b.leapSecond).then (compare a.fractionValue b.fractionValue))

/-- What orders instants. -/
def key (instant : ExactInstant) : ℤ ×ₗ Bool ×ₗ ℚ :=
  toLex (instant.civilSecond, toLex (instant.leapSecond, instant.fractionValue))

/-- The comparison is the order of the keys. -/
theorem cmp_eq (a b : ExactInstant) : a.cmp b = compare a.key b.key := by
  simp only [cmp, key, Prod.Lex.compare_def, compareLex, compareOn]
  rfl

end ExactInstant

example : (ExactInstant.parseRfc3339 "2016-12-31T15:59:60.50-08:00").toOption =
    some ⟨1483228799, true, "0.50", "2016-12-31T15:59:60.50-08:00"⟩ := by
  decide +kernel

end Domain
end Glaux
