import Mathlib.Data.List.Basic

/-!
# Textual IPv6 addresses

The standard parser: eight groups of one to four hexadecimal digits, `::` once for a
run of zero groups, and an IPv4 address for the last two groups.  A reader gives back
what it has not read.
-/

namespace Glaux
namespace Library
namespace IpAddress

abbrev Reader := List Char → Option (List Char)

def digit (radix : ℕ) (c : Char) : Option ℕ :=
  let value :=
    if '0' ≤ c ∧ c ≤ '9' then some (c.toNat - '0'.toNat)
    else if 'a' ≤ c ∧ c ≤ 'z' then some (c.toNat - 'a'.toNat + 10)
    else if 'A' ≤ c ∧ c ≤ 'Z' then some (c.toNat - 'A'.toNat + 10)
    else none
  value.filter (· < radix)

def numberValue (radix : ℕ) (digits : List Char) : ℕ :=
  digits.foldl (fun value c => value * radix + (digit radix c).getD 0) 0

def readNumber (radix maxDigits : ℕ) (zeroPrefix : Bool) (greatest : ℕ) : Reader := fun text =>
  let digits := text.takeWhile fun c => (digit radix c).isSome
  if digits = [] ∨ maxDigits < digits.length then none
  else if zeroPrefix = false ∧ digits.head? = some '0' ∧ 1 < digits.length then none
  else if greatest < numberValue radix digits then none
  else some (text.drop digits.length)

def readGivenChar (target : Char) : Reader
  | [] => none
  | c :: rest => if c = target then some rest else none

/-- The separator stands before every item but the first. -/
def readSeparator (separator : Char) (index : ℕ) (inner : Reader) : Reader := fun text =>
  if 0 < index then (readGivenChar separator text).bind inner else inner text

def readIpv4 : Reader := fun text =>
  (List.range 4).foldlM
    (fun text index => readSeparator '.' index (readNumber 10 3 false 255) text)
    text

/-- The groups read, whether an IPv4 address ended them, and the rest. -/
def readGroups (limit : ℕ) : ℕ → ℕ → List Char → ℕ × Bool × List Char
  | 0, _, text => (limit, false, text)
  | left + 1, index, text =>
      match if index < limit - 1 then readSeparator ':' index readIpv4 text else none with
      | some rest => (index + 2, true, rest)
      | none =>
          match readSeparator ':' index (readNumber 16 4 true 65535) text with
          | some rest => readGroups limit left (index + 1) rest
          | none => (index, false, text)

def readIpv6 : Reader := fun text =>
  let head := readGroups 8 8 0 text
  if head.1 = 8 then some head.2.2
  else if head.2.1 then none
  else do
    let text ← readGivenChar ':' head.2.2
    let text ← readGivenChar ':' text
    let limit := 8 - (head.1 + 1)
    some (readGroups limit limit 0 text).2.2

def isIpv6 (text : List Char) : Bool := readIpv6 text = some []

example : isIpv6 "2001:db8::192.0.2.1".toList = true := by decide +kernel

example : isIpv6 "1:2:3:4:5:6:7::".toList = true ∧ isIpv6 "1:2:3".toList = false := by
  decide +kernel

end IpAddress
end Library
end Glaux
