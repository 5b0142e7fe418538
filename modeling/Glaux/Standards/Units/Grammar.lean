import Glaux.Library.Cursor
import Glaux.Standards.Units

/-!
# The grammar of unit codes

The trees of the grammar, with the factors, exponents and annotations that may stand in
them, and the parser as what finds the tree of a text.
-/

namespace Glaux
namespace Standards
namespace Units

open Library

section Symbols

namespace Dictionary

variable (dictionary : Dictionary)

/-- The symbol is a prefix and a metric atom. -/
def Splits (symbol front : List UInt8) (atom : Atom) : Prop :=
  front ∈ dictionary.prefixes ∧ ∃ rest, symbol = front ++ rest ∧
    dictionary.atoms rest = some atom ∧ atom.metric = true

/-- An atom, or a prefix followed by a metric atom. -/
def Known (symbol : List UInt8) : Prop :=
  (∃ atom, dictionary.atoms symbol = some atom) ∨
    ∃ front atom, dictionary.Splits symbol front atom

/-- The longest prefix is split off; a symbol without any is an atom itself. -/
def Resolves (symbol : List UInt8) (atom : Atom) : Prop :=
  (∃ front, dictionary.Splits symbol front atom ∧
    ∀ front' atom', dictionary.Splits symbol front' atom' → front'.length ≤ front.length) ∨
  (∀ front atom', ¬ dictionary.Splits symbol front atom') ∧ dictionary.atoms symbol = some atom

variable {dictionary}

theorem prefixed_eq_some {symbol front : List UInt8} {atom : Atom} :
    dictionary.prefixed symbol front = some atom ↔ ∃ rest, symbol = front ++ rest ∧
      dictionary.atoms rest = some atom ∧ atom.metric = true := by
  rw [prefixed, Option.filter_eq_some_iff, Option.bind_eq_some_iff]
  constructor
  · rintro ⟨⟨rest, hrest, hatom⟩, hmetric⟩
    exact ⟨rest, (List.isPrefixOf?_eq_some_iff_append_eq.mp hrest).symm, hatom, hmetric⟩
  · rintro ⟨rest, hrest, hatom, hmetric⟩
    exact ⟨⟨rest, List.isPrefixOf?_eq_some_iff_append_eq.mpr hrest.symm, hatom⟩, hmetric⟩

theorem splits_iff {symbol front : List UInt8} {atom : Atom} :
    dictionary.Splits symbol front atom ↔
      front ∈ dictionary.prefixes ∧ dictionary.prefixed symbol front = some atom := by
  rw [Splits, prefixed_eq_some]

/-- Of two prefixes of one length, one symbol has only one. -/
theorem Splits.unique {symbol front front' : List UInt8} {atom atom' : Atom}
    (h : dictionary.Splits symbol front atom) (h' : dictionary.Splits symbol front' atom')
    (hlength : front.length = front'.length) : atom = atom' := by
  obtain ⟨-, rest, rfl, hatom, -⟩ := h
  obtain ⟨-, rest', hrest', hatom', -⟩ := h'
  obtain ⟨-, rfl⟩ := List.append_inj hrest' hlength
  exact Option.some.inj (hatom.symm.trans hatom')

theorem findSome?_prefixed {symbol : List UInt8} {atom : Atom} :
    dictionary.prefixes.findSome? (dictionary.prefixed symbol) = some atom ↔
      ∃ front, dictionary.Splits symbol front atom ∧
        ∀ front' atom', dictionary.Splits symbol front' atom' →
          front'.length ≤ front.length := by
  have hsorted := dictionary.longestFirst
  constructor
  · intro h
    obtain ⟨before, front, after, hprefixes, hfront, hbefore⟩ := List.findSome?_eq_some_iff.mp h
    have hmem : front ∈ dictionary.prefixes := by
      rw [hprefixes]
      exact List.mem_append_right _ List.mem_cons_self
    refine ⟨front, splits_iff.mpr ⟨hmem, hfront⟩, fun front' atom' h' => ?_⟩
    obtain ⟨hmem', hfront'⟩ := splits_iff.mp h'
    rw [hprefixes, List.mem_append, List.mem_cons] at hmem'
    rw [hprefixes, List.pairwise_append] at hsorted
    obtain h | rfl | h := hmem'
    · exact absurd hfront' (by rw [hbefore front' h]; nofun)
    · exact Nat.le_refl _
    · exact (List.pairwise_cons.mp hsorted.2.1).1 front' h
  · rintro ⟨front, hsplits, hlongest⟩
    obtain ⟨hmem, hfront⟩ := splits_iff.mp hsplits
    cases hfound : dictionary.prefixes.findSome? (dictionary.prefixed symbol) with
    | none =>
        rw [List.findSome?_eq_none_iff.mp hfound front hmem] at hfront
        exact absurd hfront nofun
    | some found =>
        obtain ⟨before, first, after, hprefixes, hfirst, hbefore⟩ :=
          List.findSome?_eq_some_iff.mp hfound
        have hfirstMem : first ∈ dictionary.prefixes := by
          rw [hprefixes]
          exact List.mem_append_right _ List.mem_cons_self
        have hfirstSplits := splits_iff.mpr ⟨hfirstMem, hfirst⟩
        have hshorter : first.length ≤ front.length := hlongest first found hfirstSplits
        rw [hprefixes, List.mem_append, List.mem_cons] at hmem
        rw [hprefixes, List.pairwise_append] at hsorted
        obtain h | rfl | h := hmem
        · exact absurd hfront (by rw [hbefore front h]; nofun)
        · rw [hfront] at hfirst
          exact hfirst.symm
        · have hlonger := (List.pairwise_cons.mp hsorted.2.1).1 front h
          rw [hfirstSplits.unique hsplits (Nat.le_antisymm hshorter hlonger)]

/-- **The lookup resolves a symbol.** -/
theorem known_atom_eq_ok {symbol : List UInt8} {atom : Atom} :
    known_atom dictionary symbol = .ok atom ↔ dictionary.Resolves symbol atom := by
  rw [known_atom, Resolves, ← findSome?_prefixed]
  cases hfound : dictionary.prefixes.findSome? (dictionary.prefixed symbol) with
  | some found =>
      obtain ⟨front, hsplits, -⟩ := findSome?_prefixed.mp hfound
      constructor
      · intro h
        exact .inl (by rw [Except.ok.inj h])
      · rintro (h | ⟨h, -⟩)
        · rw [Option.some.inj h]
        · exact absurd hsplits (h front found)
  | none =>
      have hnone : ∀ front atom', ¬ dictionary.Splits symbol front atom' := by
        intro front atom' hsplits
        obtain ⟨hmem, hfront⟩ := splits_iff.mp hsplits
        rw [List.findSome?_eq_none_iff.mp hfound front hmem] at hfront
        exact absurd hfront nofun
      cases hatom : dictionary.atoms symbol with
      | none => exact iff_of_false nofun (not_or.mpr ⟨nofun, fun h => absurd h.2 nofun⟩)
      | some found =>
          constructor
          · intro h
            exact .inr ⟨hnone, by rw [Except.ok.inj h]⟩
          · rintro (h | ⟨-, h⟩)
            · exact absurd h nofun
            · rw [Option.some.inj h]

theorem known_iff {symbol : List UInt8} :
    dictionary.Known symbol ↔ ∃ atom, known_atom dictionary symbol = .ok atom := by
  constructor
  · intro h
    cases hfound : dictionary.prefixes.findSome? (dictionary.prefixed symbol) with
    | some found =>
        exact ⟨found, known_atom_eq_ok.mpr (.inl (findSome?_prefixed.mp hfound))⟩
    | none =>
        have hnone : ∀ front atom', ¬ dictionary.Splits symbol front atom' := by
          intro front atom' hsplits
          obtain ⟨hmem, hfront⟩ := splits_iff.mp hsplits
          rw [List.findSome?_eq_none_iff.mp hfound front hmem] at hfront
          exact absurd hfront nofun
        obtain ⟨atom, hatom⟩ | ⟨front, atom, hsplits⟩ := h
        · exact ⟨atom, known_atom_eq_ok.mpr (.inr ⟨hnone, hatom⟩)⟩
        · exact absurd hsplits (hnone front atom)
  · rintro ⟨atom, h⟩
    obtain ⟨front, hsplits, -⟩ | ⟨-, hatom⟩ := known_atom_eq_ok.mp h
    · exact .inr ⟨front, atom, hsplits⟩
    · exact .inl ⟨atom, hatom⟩

end Dictionary

/-- Brackets around anything but brackets; no terminator outside of them. -/
def brackets : Brackets UInt8 where
  opening := openBracket
  closing := closeBracket
  outside byte := !terminator byte && byte ≠ openBracket
  opening_refused := by decide
  closing_refused := by decide

/-- A symbol whose brackets are balanced and which does not end in a digit. -/
structure PlainSymbol (symbol : List UInt8) : Prop where
  closed : brackets.closed false symbol = true
  last : ∀ byte ∈ symbol.getLast?, isDigit byte = false

structure Dictionary.Plain (dictionary : Dictionary) : Prop where
  prefixes : ∀ front ∈ dictionary.prefixes, PlainSymbol front
  atoms : ∀ symbol atom, dictionary.atoms symbol = some atom → PlainSymbol symbol

theorem PlainSymbol.append {front back : List UInt8} (hfront : PlainSymbol front)
    (hback : PlainSymbol back) : PlainSymbol (front ++ back) := by
  refine ⟨Brackets.closed_append_closed hfront.closed hback.closed, fun byte hbyte => ?_⟩
  rw [List.getLast?_append] at hbyte
  cases hlast : back.getLast? with
  | none =>
      rw [hlast, Option.none_or] at hbyte
      exact hfront.last byte hbyte
  | some last =>
      rw [hlast, Option.some_or] at hbyte
      exact hback.last byte (by rw [hlast]; exact hbyte)

theorem Dictionary.Plain.known {dictionary : Dictionary} (h : dictionary.Plain)
    {symbol : List UInt8} (hsymbol : dictionary.Known symbol) : PlainSymbol symbol := by
  obtain ⟨atom, hatom⟩ | ⟨front, atom, hmem, rest, rfl, hatom, -⟩ := hsymbol
  · exact h.atoms symbol atom hatom
  · exact (h.prefixes front hmem).append (h.atoms rest atom hatom)

end Symbols

section Trees

def decimal (digits : List UInt8) : ℕ :=
  digits.foldl (fun n digit => 10 * n + (digit - 0x30).toNat) 0

structure Number where
  digits : List UInt8
  numeric : ∀ digit ∈ digits, isDigit digit = true
  positive : ∃ digit ∈ digits, digit ≠ zero

structure Symbol (dictionary : Dictionary) where
  text : List UInt8
  nonempty : text ≠ []
  known : dictionary.Known text

structure Exponent where
  digits : List UInt8
  nonempty : digits ≠ []
  numeric : ∀ digit ∈ digits, isDigit digit = true
  bounded : digits.length ≤ MAX_EXPONENT_DIGITS

/-- A sign and digits. -/
structure Signed where
  negative : Bool
  exponent : Exponent

inductive Power where
  | none
  | trailing (exponent : Exponent)
  | signed (signed : Signed)

/-- An annotation, by what stands between its braces. -/
structure Note where
  inside : List UInt8
  opening : openBrace ∉ inside
  closing : closeBrace ∉ inside

/-- A factor, its exponent and its annotation. -/
inductive Simple (dictionary : Dictionary) where
  | number (number : Number) (power : Option Signed) (note : Option Note)
  | symbol (symbol : Symbol dictionary) (power : Power) (note : Option Note)

inductive Rule where
  | component
  | term

inductive Tree (dictionary : Dictionary) : Rule → Type where
  | note (note : Note) : Tree dictionary .component
  | simple (simple : Simple dictionary) : Tree dictionary .component
  | paren (term : Tree dictionary .term) : Tree dictionary .component
  | single (component : Tree dictionary .component) : Tree dictionary .term
  | chain (term : Tree dictionary .term) (divided : Bool)
      (component : Tree dictionary .component) : Tree dictionary .term

def Signed.text (signed : Signed) : List UInt8 :=
  (if signed.negative then minus else plus) :: signed.exponent.digits

def Power.text : Power → List UInt8
  | .none => []
  | .trailing exponent => exponent.digits
  | .signed value => value.text

def Note.text (note : Note) : List UInt8 := openBrace :: note.inside ++ [closeBrace]

def noteText (note : Option Note) : List UInt8 := (note.map Note.text).getD []

variable {dictionary : Dictionary}

namespace Simple

def text : Simple dictionary → List UInt8
  | .number value power note =>
      value.digits ++ (power.map Signed.text).getD [] ++ noteText note
  | .symbol value power note => value.text ++ power.text ++ noteText note

/-- The symbol resolves to a special atom. -/
def Special : Simple dictionary → Prop
  | .number _ _ _ => False
  | .symbol value _ _ => ∃ atom, dictionary.Resolves value.text atom ∧ atom.special = true

end Simple

def Exponent.isOne (exponent : Exponent) : Prop := decimal exponent.digits = 1

instance (exponent : Exponent) : Decidable exponent.isOne := inferInstanceAs (Decidable (_ = _))

def Signed.isOne (signed : Signed) : Prop := signed.negative = false ∧ signed.exponent.isOne

instance (signed : Signed) : Decidable signed.isOne := inferInstanceAs (Decidable (_ ∧ _))

/-- No power, or a power of plus one. -/
def Power.isOne : Power → Prop
  | .none => True
  | .trailing exponent => exponent.isOne
  | .signed value => value.isOne

instance : (power : Power) → Decidable power.isOne
  | .none => inferInstanceAs (Decidable True)
  | .trailing exponent => inferInstanceAs (Decidable exponent.isOne)
  | .signed value => inferInstanceAs (Decidable value.isOne)

def Simple.powerOne : Simple dictionary → Prop
  | .number _ power _ => ∀ signed ∈ power, signed.isOne
  | .symbol _ power _ => power.isOne

def operatorByte (divided : Bool) : UInt8 := if divided then slash else dot

namespace Tree

def text : {rule : Rule} → Tree dictionary rule → List UInt8
  | _, .note value => value.text
  | _, .simple value => value.text
  | _, .paren term => openParen :: term.text ++ [closeParen]
  | _, .single component => component.text
  | _, .chain term divided component => term.text ++ operatorByte divided :: component.text

/-- The number of components, those in parentheses and the parentheses themselves. -/
def count : {rule : Rule} → Tree dictionary rule → ℕ
  | _, .note _ => 1
  | _, .simple _ => 1
  | _, .paren term => term.count + 1
  | _, .single component => component.count
  | _, .chain term _ component => term.count + component.count

def depth : {rule : Rule} → Tree dictionary rule → ℕ
  | _, .note _ => 0
  | _, .simple _ => 0
  | _, .paren term => term.depth + 1
  | _, .single component => component.depth
  | _, .chain term _ component => max term.depth component.depth

/-- An operator stands in the tree. -/
def joined : {rule : Rule} → Tree dictionary rule → Bool
  | _, .note _ => false
  | _, .simple _ => false
  | _, .paren term => term.joined
  | _, .single component => component.joined
  | _, .chain _ _ _ => true

def simples : {rule : Rule} → Tree dictionary rule → List (Simple dictionary)
  | _, .note _ => []
  | _, .simple value => [value]
  | _, .paren term => term.simples
  | _, .single component => component.simples
  | _, .chain term _ component => term.simples ++ component.simples

end Tree

end Trees

end Units
end Standards
end Glaux
