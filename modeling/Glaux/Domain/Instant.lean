import Glaux.Domain.NumericMachine
import Glaux.Domain.Temporal

/-!
# Instants as they are parsed (`temporal.rs`)

`parse_rfc3339` with the positions and machine integers of the source and every field it
keeps, and the way back from stored parts.
-/

namespace Glaux
namespace Domain

structure Instant where
  civilSecond : Int
  leap : Bool
  fraction : ExactNumber
  source : String
  fractionStart : Nat
  fractionDigits : Nat
  offsetSeconds : Int
  offsetKnown : Bool
deriving DecidableEq

namespace Instant

def cmp (a b : Instant) : Ordering :=
  (compare a.civilSecond b.civilSecond).then
    ((compare a.leap b.leap).then (a.fraction.cmp b.fraction))

def eq (a b : Instant) : Bool := a.cmp b = .eq

end Instant

namespace Machine

open Library Library.Machine

section Calendar

/-- One digit of `digits`. -/
def digitStep (value : Nat) (c : Char) : Run TimeError Nat :=
  if c.isDigit then do
    Width.u8.fits ((c.toNat : Int) - '0'.toNat)
    Width.u32.fits (value * 10 : Int)
    Width.u32.fits (value * 10 + ExactNumber.digit c : Int)
    .ok (value * 10 + ExactNumber.digit c)
  else refuse .syntaxError

def digits (part : List Char) : Run TimeError Nat := part.foldlM digitStep 0

def leapDaysBefore (year : Nat) : Run TimeError Nat :=
  if year = 0 then .ok 0
  else do
    Width.u32.fits (year - 1 : Int)
    let prior := year - 1
    Width.u32.fits ((prior / 4 : Nat) - (prior / 100 : Nat) : Int)
    Width.u32.fits (prior / 4 - prior / 100 + prior / 400 : Nat)
    Width.u32.fits (prior / 4 - prior / 100 + prior / 400 + 1 : Nat)
    .ok (prior / 4 - prior / 100 + prior / 400 + 1)

def daysBeforeYear (year : Nat) : Run TimeError Int := do
  let leaps ← leapDaysBefore year
  Width.i64.fits (year * 365 : Int)
  Width.i64.fits (year * 365 + leaps : Int)
  .ok (year * 365 + leaps)

/-- One month of the sum in `civil_days`. -/
def monthStep (year : Nat) (sum : Int) (month : Nat) : Run TimeError Int := do
  Width.i64.fits (sum + monthDays year month)
  .ok (sum + monthDays year month)

def civilDays (year month day : Nat) : Run TimeError Int := do
  let before ← daysBeforeYear year
  let epoch ← daysBeforeYear 1970
  Width.i64.fits (before - epoch)
  let months ← ((List.range month).drop 1).foldlM (monthStep year) 0
  Width.i64.fits (before - epoch + months)
  Width.i64.fits (before - epoch + months + day)
  Width.i64.fits (before - epoch + months + day - 1)
  .ok (before - epoch + months + day - 1)

/-- `POSITIVE_LEAP_DATES.iter().any(..)`. -/
def listedLeap (civilSecond : Int) : List (Nat × Nat × Nat) → Run TimeError Bool
  | [] => .ok false
  | date :: rest => do
      let days ← civilDays date.1 date.2.1 date.2.2
      Width.i64.fits (days * 86400)
      Width.i64.fits (days * 86400 + 86399)
      if days * 86400 + 86399 = civilSecond then .ok true else listedLeap civilSecond rest

end Calendar

section Parse

/-- `bytes[pos]` is one of the expected characters. -/
def mark (bytes : List Char) (pos : Nat) (expected : List Char) : Run TimeError Unit := do
  let c ← index bytes pos
  if c ∈ expected then .ok () else refuse .syntaxError

/-- `digits(&bytes[start..stop])`. -/
def field (bytes : List Char) (start stop : Nat) : Run TimeError Nat := do
  let part ← slice bytes start stop
  digits part

/-- `fraction_start`, `fraction_digits` and the position after them. -/
def fractionSpan (bytes : List Char) : Run TimeError (Nat × Nat × Nat) :=
  if bytes[19]? = some '.' then do
    Width.usize.fits 20
    let stop ← skipDigits bytes 20
    Width.usize.fits (stop - 20 : Int)
    if stop - 20 = 0 then refuse .syntaxError else .ok (20, stop - 20, stop)
  else .ok (19, 0, 19)

/-- `offset_seconds` and `offset_known`. -/
def offset : List Char → Run TimeError (Int × Bool)
  | [zulu] => if zulu = 'Z' ∨ zulu = 'z' then .ok (0, false) else refuse .syntaxError
  | [sign, h1, h2, colon, m1, m2] =>
      if (sign = '+' ∨ sign = '-') ∧ colon = ':' then do
        let hours ← digits [h1, h2]
        let minutes ← digits [m1, m2]
        if hours > 23 ∨ minutes > 59 then refuse .calendar
        else do
          Width.u32.fits (hours * 3600 : Int)
          Width.u32.fits (minutes * 60 : Int)
          Width.u32.fits (hours * 3600 + minutes * 60 : Int)
          Width.i32.fits (hours * 3600 + minutes * 60 : Int)
          Width.i32.fits (-(hours * 3600 + minutes * 60) : Int)
          let magnitude : Int := hours * 3600 + minutes * 60
          .ok (if sign = '-' then -magnitude else magnitude, !(sign == '-' && magnitude == 0))
      else refuse .syntaxError
  | _ => refuse .syntaxError

/-- The civil second of a local date and time. -/
def civilSecond (year month day hour minute second : Nat) (offset : Int) :
    Run TimeError Int := do
  let days ← civilDays year month day
  Width.i64.fits (days * 86400)
  Width.u32.fits (hour * 3600 : Int)
  Width.u32.fits (minute * 60 : Int)
  Width.u32.fits (hour * 3600 + minute * 60 : Int)
  Width.u32.fits (hour * 3600 + minute * 60 + min second 59 : Nat)
  Width.i64.fits (days * 86400 + (hour * 3600 + minute * 60 + min second 59 : Nat))
  Width.i64.fits (days * 86400 + (hour * 3600 + minute * 60 + min second 59 : Nat) - offset)
  .ok (days * 86400 + (hour * 3600 + minute * 60 + min second 59 : Nat) - offset)

/-- The text the fraction is read from. -/
def fractionText (bytes : List Char) (start digits : Nat) : Run TimeError String :=
  if digits = 0 then .ok "0"
  else do
    Width.usize.fits (start + digits : Int)
    let part ← slice bytes start (start + digits)
    .ok ("0." ++ String.ofList part)

/-- From the fields of the date and time on. -/
def parseFields (text : String) (year month day hour minute second : Nat) :
    Run TimeError Instant :=
  let bytes := text.toList
  if ¬ (1 ≤ month ∧ month ≤ 12) ∨ day = 0 ∨ day > monthDays year month ∨ hour > 23
      ∨ minute > 59 ∨ second > 60 then refuse .calendar
  else do
    let (fractionStart, fractionDigits, pos) ← fractionSpan bytes
    let (offsetSeconds, offsetKnown) ← offset (bytes.drop pos)
    let leap : Bool := second = 60
    let civil ← civilSecond year month day hour minute second offsetSeconds
    let listed ← if leap then listedLeap civil positiveLeapDates else .ok true
    if leap ∧ ¬ listed then refuse .unrecognizedLeapSecond
    else do
      let fractionText ← fractionText bytes fractionStart fractionDigits
      let fraction ← mapRefused (fun _ => .syntaxError) (parseJsonNumber fractionText)
      .ok ⟨civil, leap, fraction, text, fractionStart, fractionDigits, offsetSeconds,
        offsetKnown⟩

def parseRfc3339 (text : String) : Run TimeError Instant :=
  let bytes := text.toList
  if text.utf8ByteSize > maxTimestampBytes then refuse .inputLimit
  else if bytes.length < 20 ∨ bytes.any (fun c => c.toNat ≥ 128) then refuse .syntaxError
  else do
    mark bytes 4 ['-']
    mark bytes 7 ['-']
    mark bytes 10 ['T', 't']
    mark bytes 13 [':']
    mark bytes 16 [':']
    let year ← field bytes 0 4
    let month ← field bytes 5 7
    let day ← field bytes 8 10
    let hour ← field bytes 11 13
    let minute ← field bytes 14 16
    let second ← field bytes 17 19
    parseFields text year month day hour minute second

/-- `fraction_decimal`. -/
def fractionDecimal (instant : Instant) : Run TimeError String :=
  fractionText instant.source.toList instant.fractionStart instant.fractionDigits

def fromStorageParts (civilSecond : Int) (leap : Bool) (fraction source : String) :
    Run TimeError Instant := do
  let parsed ← parseRfc3339 source
  let stored ← mapRefused (fun _ => .inconsistentStorage) (parseJsonNumber fraction)
  if civilSecond ≠ parsed.civilSecond ∨ leap ≠ parsed.leap ∨ ¬ stored.eq parsed.fraction then
    refuse .inconsistentStorage
  else .ok parsed

end Parse

end Machine

example : (Machine.parseRfc3339 "2016-12-31T15:59:60.50-08:00").toOption.map
    (fun instant => (instant.civilSecond, instant.leap, instant.fraction.value)) =
      some (1483228799, true, 1 / 2) := by
  decide +kernel

end Domain
end Glaux
