import Glaux.Library.Brackets
import Glaux.Library.Outcome
import Glaux.Library.Utf8
import Mathlib

/-!
# Unit codes (`units.rs`)

The parser stands at what is left of the code.  Its recursion is on the nesting that is
still free, its loop on what is left.
-/

namespace Glaux
namespace Standards
namespace Units

open Library

inductive UnitError where
  | Invalid
  | Limit
  | Unsupported
deriving DecidableEq

def MAX_CODE_BYTES : ℕ := 4096

def MAX_NESTING : ℕ := 32

def MAX_COMPONENTS : ℕ := 256

def MAX_EXPONENT_DIGITS : ℕ := 6

section Bytes

def ascii (text : String) : List UInt8 := text.toUTF8.data.toList

def quote : UInt8 := '"'.toUInt8

def openParen : UInt8 := '('.toUInt8

def closeParen : UInt8 := ')'.toUInt8

def plus : UInt8 := '+'.toUInt8

def minus : UInt8 := '-'.toUInt8

def dot : UInt8 := '.'.toUInt8

def slash : UInt8 := '/'.toUInt8

def equals : UInt8 := '='.toUInt8

def openBracket : UInt8 := '['.toUInt8

def closeBracket : UInt8 := ']'.toUInt8

def openBrace : UInt8 := 0x7b

def closeBrace : UInt8 := 0x7d

def zero : UInt8 := '0'.toUInt8

def one : UInt8 := '1'.toUInt8

def isDigit (byte : UInt8) : Bool := 0x30 ≤ byte && byte ≤ 0x39

def printable (byte : UInt8) : Bool := 33 ≤ byte && byte ≤ 126

/-- What ends a symbol outside of its brackets. -/
def terminator (byte : UInt8) : Bool :=
  byte ∈ [quote, openParen, closeParen, plus, minus, dot, slash, equals, closeBracket, openBrace,
    closeBrace]

end Bytes

section Dictionary

structure Atom where
  metric : Bool
  special : Bool
deriving DecidableEq

structure Dictionary where
  atoms : List UInt8 → Option Atom
  prefixes : List (List UInt8)
  longestFirst : prefixes.Pairwise fun first next => next.length ≤ first.length

/-- `symbol.strip_prefix(prefix)`, looked up and filtered. -/
def Dictionary.prefixed (dictionary : Dictionary) (symbol front : List UInt8) : Option Atom :=
  ((front.isPrefixOf? symbol).bind dictionary.atoms).filter (·.metric)

def known_atom (dictionary : Dictionary) (symbol : List UInt8) : Except UnitError Atom :=
  match dictionary.prefixes.findSome? (dictionary.prefixed symbol) with
  | some atom => .ok atom
  | none =>
      match dictionary.atoms symbol with
      | some atom => .ok atom
      | none => .error .Invalid

end Dictionary

structure Parser where
  code : List UInt8
  components : ℕ
  has_special : Bool
  has_operator : Bool
  unsupported_power : Bool
deriving DecidableEq

section Simple

/-- Where the scan of a symbol stands: `symbol` ends at the last byte that is no digit. -/
structure Scan where
  bracket : Bool
  symbol : List UInt8
  digits : List UInt8
  code : List UInt8
deriving DecidableEq

def Scan.unsignedExponent (read : Scan) : Bool := read.symbol ≠ [] && read.digits ≠ []

def scan : Bool → List UInt8 → List UInt8 → List UInt8 → Except UnitError Scan
  | bracket, symbol, digits, [] => .ok ⟨bracket, symbol, digits, []⟩
  | true, symbol, digits, byte :: code =>
      if byte = openBracket then .error .Invalid
      else scan (byte ≠ closeBracket) (symbol ++ digits ++ [byte]) [] code
  | false, symbol, digits, byte :: code =>
      if byte = openBracket then scan true (symbol ++ digits ++ [byte]) [] code
      else if terminator byte then .ok ⟨false, symbol, digits, byte :: code⟩
      else if isDigit byte then scan false symbol (digits ++ [byte]) code
      else scan false (symbol ++ digits ++ [byte]) [] code

/-- Whether the factor is a special unit; a number must not be zero. -/
def factor (dictionary : Dictionary) (symbol digits : List UInt8) : Except UnitError Bool :=
  if symbol = [] then
    if digits.all (· = zero) then .error .Invalid else .ok false
  else (known_atom dictionary symbol).map (·.special)

def sign (byte : UInt8) : Bool := byte = plus || byte = minus

def exponent (text : List UInt8) (special : Bool) : Except UnitError Bool :=
  if (text.dropWhile sign).length > MAX_EXPONENT_DIGITS then .error .Limit
  else .ok (special && (text.head? = some minus ||
    (text.dropWhile sign).dropWhile (· = zero) ≠ [one]))

def trailingExponent (special unsigned : Bool) (digits : List UInt8) : Except UnitError Bool :=
  if unsigned then exponent digits special else .ok false

/-- The exponent behind a sign, where there is one, and what is left. -/
def signedExponent (special unsigned : Bool) (code : List UInt8) :
    Except UnitError (Bool × List UInt8) :=
  if code.head?.any sign then
    if unsigned then .error .Invalid
    else if code.tail.takeWhile isDigit = [] then .error .Invalid
    else (exponent (code.take 1 ++ code.tail.takeWhile isDigit) special).map fun unsupported =>
      (unsupported, code.tail.dropWhile isDigit)
  else .ok (false, code)

/-- The loop behind the opening brace. -/
def annotation : List UInt8 → Except UnitError (List UInt8)
  | [] => .error .Invalid
  | byte :: code =>
      if byte = openBrace then .error .Invalid
      else if byte = closeBrace then .ok code
      else annotation code

def trailingAnnotation (code : List UInt8) : Except UnitError (List UInt8) :=
  if code.head? = some openBrace then annotation code.tail else .ok code

def simple (dictionary : Dictionary) (parser : Parser) : Except UnitError Parser := do
  let read ← scan false [] [] parser.code
  if read.bracket || read.symbol ++ read.digits = [] then .error .Invalid else do
  let special ← factor dictionary read.symbol read.digits
  let trailing ← trailingExponent special read.unsignedExponent read.digits
  let signed ← signedExponent special read.unsignedExponent read.code
  let code ← trailingAnnotation signed.2
  .ok { parser with
    code := code
    has_special := parser.has_special || special
    unsupported_power := parser.unsupported_power || trailing || signed.1 }

theorem scan_length {bracket : Bool} {symbol digits code : List UInt8} {read : Scan}
    (h : scan bracket symbol digits code = .ok read) :
    code.length + symbol.length + digits.length =
      read.code.length + read.symbol.length + read.digits.length := by
  induction code generalizing bracket symbol digits with
  | nil =>
      rw [scan] at h
      cases h
      rfl
  | cons byte code ih =>
      cases bracket with
      | true =>
          rw [scan] at h
          split at h
          · exact absurd h nofun
          · have hlength := ih h
            simp only [List.length_append, List.length_cons, List.length_nil] at hlength ⊢
            omega
      | false =>
          rw [scan] at h
          split at h
          · have hlength := ih h
            simp only [List.length_append, List.length_cons, List.length_nil] at hlength ⊢
            omega
          · split at h
            · cases h
              rfl
            · split at h
              · have hlength := ih h
                simp only [List.length_append, List.length_cons, List.length_nil] at hlength ⊢
                omega
              · have hlength := ih h
                simp only [List.length_append, List.length_cons, List.length_nil] at hlength ⊢
                omega

theorem annotation_length {code rest : List UInt8} (h : annotation code = .ok rest) :
    rest.length < code.length := by
  induction code with
  | nil => exact absurd h nofun
  | cons byte code ih =>
      rw [ annotation] at h
      split at h
      · exact absurd h nofun
      · split at h
        · cases h
          exact Nat.lt_succ_self _
        · exact Nat.lt_succ_of_lt (ih h)

theorem signedExponent_length {special unsigned : Bool} {code : List UInt8}
    {read : Bool × List UInt8} (h : signedExponent special unsigned code = .ok read) :
    read.2.length ≤ code.length := by
  rw [signedExponent] at h
  split at h
  · split at h
    · exact absurd h nofun
    · split at h
      · exact absurd h nofun
      · obtain ⟨unsupported, -, rfl⟩ := map_eq_ok.mp h
        have htail := List.length_tail (l := code)
        exact Nat.le_trans (List.dropWhile_sublist _).length_le (by omega)
  · cases h
    exact Nat.le_refl _

theorem simple_eq_ok {dictionary : Dictionary} {parser parser' : Parser} :
    simple dictionary parser = .ok parser' ↔ ∃ read special trailing signed code,
      scan false [] [] parser.code = .ok read ∧
      (read.bracket = false ∧ read.symbol ++ read.digits ≠ []) ∧
      factor dictionary read.symbol read.digits = .ok special ∧
      trailingExponent special read.unsignedExponent read.digits = .ok trailing ∧
      signedExponent special read.unsignedExponent read.code = .ok signed ∧
      trailingAnnotation signed.2 = .ok code ∧
      parser' = { parser with
        code := code
        has_special := parser.has_special || special
        unsupported_power := parser.unsupported_power || trailing || signed.1 } := by
  have hread : ∀ read : Scan, ¬ (read.bracket || read.symbol ++ read.digits = [] : Bool) = true ↔
      read.bracket = false ∧ read.symbol ++ read.digits ≠ [] := by
    intro read
    rw [Bool.or_eq_true, not_or, Bool.not_eq_true, decide_eq_true_eq]
  rw [simple]
  constructor
  · intro h
    obtain ⟨read, hscan, h⟩ := bind_eq_ok.mp h
    split at h
    · exact absurd h nofun
    · rename_i hbracket
      obtain ⟨special, hspecial, h⟩ := bind_eq_ok.mp h
      obtain ⟨trailing, htrailing, h⟩ := bind_eq_ok.mp h
      obtain ⟨signed, hsigned, h⟩ := bind_eq_ok.mp h
      obtain ⟨code, hcode, h⟩ := bind_eq_ok.mp h
      exact ⟨read, special, trailing, signed, code, hscan, (hread read).mp hbracket, hspecial,
        htrailing, hsigned, hcode, (Except.ok.inj h).symm⟩
  · rintro ⟨read, special, trailing, signed, code, hscan, hbracket, hspecial, htrailing, hsigned,
      hcode, rfl⟩
    refine bind_eq_ok.mpr ⟨read, hscan, ?_⟩
    rw [if_neg ((hread read).mpr hbracket)]
    exact bind_eq_ok.mpr ⟨special, hspecial, bind_eq_ok.mpr ⟨trailing, htrailing,
      bind_eq_ok.mpr ⟨signed, hsigned, bind_eq_ok.mpr ⟨code, hcode, rfl⟩⟩⟩⟩

theorem trailingAnnotation_length {code rest : List UInt8}
    (h : trailingAnnotation code = .ok rest) : rest.length ≤ code.length := by
  rw [ trailingAnnotation] at h
  split at h
  · have hshorter := annotation_length h
    have htail := List.length_tail (l := code)
    omega
  · cases h
    exact Nat.le_refl _

theorem simple_length {dictionary : Dictionary} {parser parser' : Parser}
    (h : simple dictionary parser = .ok parser') : parser'.code.length < parser.code.length := by
  obtain ⟨read, special, trailing, signed, code, hscan, ⟨-, hread⟩, -, -, hsigned, hcode, rfl⟩ :=
    simple_eq_ok.mp h
  have hlength := scan_length hscan
  have hleft := signedExponent_length hsigned
  have hrest := trailingAnnotation_length hcode
  have hpos := List.length_pos_of_ne_nil hread
  rw [List.length_append] at hpos
  rw [List.length_nil] at hlength
  change code.length < _
  omega

end Simple

section Terms

/-- A part of the parser that goes forward whenever it succeeds. -/
structure Consumer where
  run : Parser → Except UnitError Parser
  shorter : ∀ {parser parser' : Parser}, run parser = .ok parser' →
    parser'.code.length < parser.code.length

def operator (byte : UInt8) : Bool := byte = dot || byte = slash

/-- The loop of `term`. -/
def operators (component : Consumer) (parser : Parser) : Except UnitError Parser :=
  match parser with
  | ⟨[], _, _, _, _⟩ => .ok parser
  | ⟨byte :: code, _, _, _, _⟩ =>
      if operator byte then
        match _hrun : component.run { parser with code := code, has_operator := true } with
        | .ok parser' => operators component parser'
        | .error error => .error error
      else .ok parser
termination_by parser.code.length
decreasing_by
  exact Nat.lt_succ_of_lt (component.shorter _hrun)

def term (component : Consumer) (parser : Parser) : Except UnitError Parser :=
  component.run parser >>= operators component

theorem operators_stop {component : Consumer} {parser : Parser}
    (h : ∀ byte ∈ parser.code.head?, operator byte = false) :
    operators component parser = .ok parser := by
  obtain ⟨code, components, special, found, power⟩ := parser
  rw [operators.eq_def]
  cases code with
  | nil => rfl
  | cons byte code =>
      have hbyte : operator byte = false := h byte rfl
      simp only [hbyte, Bool.false_eq_true, if_false]

theorem operators_step {component : Consumer} {parser : Parser} {byte : UInt8}
    {code : List UInt8} (hcode : parser.code = byte :: code) (h : operator byte = true) :
    operators component parser =
      component.run { parser with code := code, has_operator := true } >>= operators component := by
  obtain ⟨code', components, special, found, power⟩ := parser
  obtain rfl : code' = byte :: code := hcode
  rw [operators.eq_def]
  simp only [h, if_true]
  split
  · rename_i parser' hparser
    rw [hparser, ok_bind]
  · rename_i error hparser
    rw [hparser, error_bind]

/-- **Loop rule.**  The loop goes from the parser it starts at in steps, to where it stops. -/
theorem operators_rule {component : Consumer} {P : Parser → Prop}
    (hstep : ∀ {parser parser' : Parser} {byte : UInt8} {code : List UInt8}, P parser →
      parser.code = byte :: code → operator byte = true →
      component.run { parser with code := code, has_operator := true } = .ok parser' → P parser')
    {parser last : Parser} (hstart : P parser) (h : operators component parser = .ok last) :
    P last ∧ ∀ byte ∈ last.code.head?, operator byte = false := by
  induction hn : parser.code.length using Nat.strong_induction_on generalizing parser with
  | _ n ih =>
    by_cases hhead : ∀ byte ∈ parser.code.head?, operator byte = false
    · rw [operators_stop hhead] at h
      cases h
      exact ⟨hstart, hhead⟩
    · simp only [not_forall, Bool.not_eq_false] at hhead
      obtain ⟨byte, hbyte, hoperator⟩ := hhead
      obtain ⟨code, hcode⟩ := List.head?_eq_some_iff.mp hbyte
      rw [operators_step hcode hoperator] at h
      obtain ⟨parser', hparser, h⟩ := bind_eq_ok.mp h
      have hshorter := component.shorter hparser
      refine ih parser'.code.length ?_ (hstep hstart hcode hoperator hparser) h rfl
      rw [← hn, hcode]
      exact Nat.lt_succ_of_lt hshorter

theorem operators_length {component : Consumer} {parser last : Parser}
    (h : operators component parser = .ok last) : last.code.length ≤ parser.code.length := by
  refine (operators_rule (P := fun p => p.code.length ≤ parser.code.length) ?_
    (Nat.le_refl _) h).1
  intro p p' byte code hp hcode _ hrun
  have hshorter := component.shorter hrun
  rw [hcode] at hp
  exact Nat.le_trans (Nat.le_of_lt (Nat.lt_succ_of_lt hshorter)) hp

theorem term_length {component : Consumer} {parser last : Parser}
    (h : term component parser = .ok last) : last.code.length < parser.code.length := by
  obtain ⟨parser', hrun, h⟩ := bind_eq_ok.mp h
  exact Nat.lt_of_le_of_lt (operators_length h) (component.shorter hrun)

/-- `inner` is the component one level deeper; there is none at the deepest one. -/
def componentRun (dictionary : Dictionary) (inner : Option Consumer) (parser : Parser) :
    Except UnitError Parser :=
  if parser.components + 1 > MAX_COMPONENTS then .error .Limit
  else
    let parser := { parser with components := parser.components + 1 }
    if parser.code.head? = some openParen then
      match inner with
      | none => .error .Limit
      | some inner => do
          let parser ← term inner { parser with code := parser.code.tail }
          if parser.code.head? = some closeParen then .ok { parser with code := parser.code.tail }
          else .error .Invalid
    else if parser.code.head? = some openBrace then
      ( annotation parser.code.tail).map fun code => { parser with code := code }
    else simple dictionary parser

theorem componentRun_length {dictionary : Dictionary} {inner : Option Consumer}
    {parser parser' : Parser} (h : componentRun dictionary inner parser = .ok parser') :
    parser'.code.length < parser.code.length := by
  have htail := List.length_tail (l := parser.code)
  rw [componentRun] at h
  split at h
  · exact absurd h nofun
  · simp only at h
    split at h
    · cases inner with
      | none => exact absurd h nofun
      | some inner =>
          obtain ⟨last, hterm, h⟩ := bind_eq_ok.mp h
          have hshorter : last.code.length < parser.code.tail.length := term_length hterm
          split at h
          · cases h
            have hlast := List.length_tail (l := last.code)
            change last.code.tail.length < _
            omega
          · exact absurd h nofun
    · split at h
      · obtain ⟨code, hcode, rfl⟩ := map_eq_ok.mp h
        have hshorter := annotation_length hcode
        change code.length < _
        omega
      · have hshorter := simple_length h
        exact hshorter

/-- A component where `room` more parentheses may be opened. -/
def component (dictionary : Dictionary) : ℕ → Consumer
  | 0 => ⟨componentRun dictionary none, componentRun_length⟩
  | room + 1 => ⟨componentRun dictionary (some (component dictionary room)), componentRun_length⟩

end Terms

section Validation

def start (code : List UInt8) : Parser :=
  if code.head? = some slash then ⟨code.tail, 0, false, true, false⟩
  else ⟨code, 0, false, false, false⟩

def validate_code (dictionary : Dictionary) (code : List UInt8) : Except UnitError Unit :=
  if code.length > MAX_CODE_BYTES then .error .Limit
  else if code = [] ∨ ¬ code.all printable then .error .Invalid
  else do
    let parser ← term (component dictionary MAX_NESTING) (start code)
    if parser.code ≠ [] then .error .Invalid
    else if parser.has_special && (parser.has_operator || parser.unsupported_power) then
      .error .Unsupported
    else .ok ()

end Validation

section Time

/-- `annotated` and `bracket` are the two flags of the loop. -/
def stripAnnotations : Bool → Bool → List UInt8 → List UInt8
  | _, _, [] => []
  | true, bracket, byte :: code => stripAnnotations (byte ≠ closeBrace) bracket code
  | false, bracket, byte :: code =>
      if byte = openBrace && !bracket then stripAnnotations true bracket code
      else if byte = openBracket then byte :: stripAnnotations false true code
      else if byte = closeBracket then byte :: stripAnnotations false false code
      else byte :: stripAnnotations false bracket code

def without_annotations (code : List UInt8) : List UInt8 := stripAnnotations false false code

def split_simple_power (code : List UInt8) : List UInt8 × List UInt8 :=
  let front := code.rdropWhile isDigit
  if front = [] ∨ front = code then (code, [])
  else if front.getLast?.any sign then
    (front.dropLast, code.drop (front.length - 1))
  else (front, code.drop front.length)

/-- The loop that takes the outer parentheses away. -/
def unwrap (code : List UInt8) : List UInt8 :=
  if 1 < code.length ∧ code.head? = some openParen ∧ code.getLast? = some closeParen then
    unwrap code.tail.dropLast
  else code
termination_by code.length
decreasing_by
  rename_i h
  rw [List.length_dropLast, List.length_tail]
  omega

def temporalAtoms : List (List UInt8) :=
  ["s", "min", "h", "d", "wk", "a_t", "a_j", "a_g", "a", "mo_s", "mo_j", "mo_g", "mo"].map ascii

def is_temporal_atom (dictionary : Dictionary) (symbol : List UInt8) : Bool :=
  symbol ∈ temporalAtoms ||
    (symbol.getLast? = some ('s'.toUInt8) && symbol.dropLast ∈ dictionary.prefixes)

def svedberg : List UInt8 := ascii "[S]"

def powerOne (power : List UInt8) : Bool :=
  power = [] || (power.head? ≠ some minus && power.dropWhile (· ∈ [plus, zero]) = [one])

def validate_time_code (dictionary : Dictionary) (code : List UInt8) : Except UnitError Unit := do
  validate_code dictionary code
  let split := split_simple_power (unwrap (without_annotations code))
  if split.1.all isDigit then .error .Invalid
  else if (known_atom dictionary split.1).toOption = none then .error .Unsupported
  else if split.1 = svedberg then .error .Unsupported
  else if is_temporal_atom dictionary split.1 && powerOne split.2 then .ok ()
  else if is_temporal_atom dictionary split.1 || powerOne split.2 then .error .Invalid
  else .error .Unsupported

end Time

end Units
end Standards
end Glaux
