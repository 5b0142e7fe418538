import Glaux.Library.Json.Generic
import Glaux.Library.Outcome
import Glaux.Standards.Validation

/-!
# Quality assertions (`quality.rs`)

A quality entry is read by the generic reader, although its document was read by the boundary
parser, which keeps objects under private names.  The two agree where no object of the entry
starts with such a name; there the value of a foreign member has no effect.
-/

namespace Glaux
namespace Standards
namespace Quality

open Library

inductive QualityError where
  /-- `Shape` -/
  | shape
  | unsupportedComponent
  | invalidReference
  | invalidComponent
deriving DecidableEq

/-- What a `QualityReference` means; its retained source stands beside it. -/
structure QualityReference where
  href : String
  role : Option String
  arcrole : Option String
  title : Option String
deriving DecidableEq

/-- `InlineQuality`, over compiled scalars `S` and compiled ranges `R`. -/
inductive InlineQuality (S R : Type) where
  | quantity (contract : S)
  | quantityRange (contract : R)
  | category (contract : S)
  | text (contract : S)
  | reference (reference : QualityReference)
deriving DecidableEq

structure QualityAssertions (S R : Type) where
  present : Bool
  entries : List (InlineQuality S R)
deriving DecidableEq

/-- What an entry is compiled with: the generic reader, the formats and the compilers. -/
structure EntryCompilers (S R : Type) where
  generic : String → Option Json
  isUri : String → Bool
  isUriReference : String → Bool
  /-- `ScalarContract::compile` -/
  scalar : String → Option S
  /-- `RangeContract::compile` -/
  range : String → Option R

variable {S R : Type}

/-- The members that make an entry no association. -/
def inlineMembers : List String := ["type", "value", "quality", "constraint", "nilValues", "uom"]

/-- The string under a name, if there is one. -/
def stringMember (value : Json) (name : String) : Except QualityError (Option String) :=
  match value.get? name with
  | none => .ok none
  | some member =>
      match member.asString? with
      | some text => .ok (some text)
      | none => .error .invalidReference

/-- The second half of `QualityReference::compile`. -/
def QualityReference.ofObject (compilers : EntryCompilers S R) (value : Json) :
    Except QualityError QualityReference :=
  if inlineMembers.any (fun name => (value.get? name).isSome) then .error .invalidReference
  else do
    let href ← stringMember value "href"
    match href with
    | none => .error .invalidReference
    | some href =>
        if href = "" ∨ href = "#" ∨ compilers.isUriReference href = false then
          .error .invalidReference
        else do
          let role ← stringMember value "role"
          let arcrole ← stringMember value "arcrole"
          if role.any (fun uri => !compilers.isUri uri) ||
              arcrole.any (fun uri => !compilers.isUri uri) then .error .invalidReference
          else do
            let title ← stringMember value "title"
            if title = some "" then .error .invalidReference
            else .ok ⟨href, role, arcrole, title⟩

def QualityReference.compile (compilers : EntryCompilers S R) (raw : String) :
    Except QualityError QualityReference :=
  match compilers.generic raw with
  | some (.object members) => QualityReference.ofObject compilers (.object members)
  | _ => .error .shape

/-- A component of the conceptual union. -/
def component {C : Type} (compiled : Option C) (inline : C → InlineQuality S R) :
    Except QualityError (InlineQuality S R) :=
  match compiled with
  | some contract => .ok (inline contract)
  | none => .error .invalidComponent

/-- One entry of `QualityAssertions::compile`. -/
def compileEntry (compilers : EntryCompilers S R) (raw : String) :
    Except QualityError (InlineQuality S R) :=
  match compilers.generic raw with
  | some (.object members) =>
      if ((Json.object members).get? "href").isSome then
        (QualityReference.compile compilers raw).map .reference
      else
        match ((Json.object members).get? "type").bind Json.asString? with
        | some "Quantity" => component (compilers.scalar raw) .quantity
        | some "QuantityRange" => component (compilers.range raw) .quantityRange
        | some "Category" => component (compilers.scalar raw) .category
        | some "Text" => component (compilers.scalar raw) .text
        | _ => .error .unsupportedComponent
  | _ => .error .shape

def QualityAssertions.compile (reader : JsonReader) (compilers : EntryCompilers S R) :
    Option String → Except QualityError (QualityAssertions S R)
  | none => .ok ⟨false, []⟩
  | some raw =>
      match reader.rawItems (encode raw) with
      | none => .error .shape
      | some entries => do
          let compiled ← entries.mapM (compileEntry compilers)
          .ok ⟨true, compiled⟩

/-! ### Foreign members -/

section Foreign

variable {before after : List (String × Json)} {name : String} {value value' : Json}

end Foreign

section Agreement

variable {reader : JsonReader} {tree : String → Option Json} {hops : Nat}
  {compilers : EntryCompilers S R} {foreign : String → Prop} {raw raw' : String}
  {entry entry' : Json}

/-- An association with a note. -/
def sampleEntry (note : Json) : Json := .object [("href", .string "#q"), ("note", note)]

def samplePlain : String := "\x7b\"href\":\"#q\",\"note\":1\x7d"

/-- The note is an object under the private name of numbers. -/
def sampleMarked : String :=
  "\x7b\"href\":\"#q\",\"note\":\x7b\"$serde_json::private::Number\":\"one\"\x7d\x7d"

/-- The readers, on the two associations and on an array of each. -/
def sampleNotes : JsonReader where
  parse input :=
    if input = encode samplePlain then .ok (sampleEntry (.number "1"))
    else if input = encode sampleMarked then
      .ok (sampleEntry (.object [(Json.numberToken, .string "one")]))
    else .error .malformed
  rawItems input :=
    if input = encode ("[" ++ samplePlain ++ "]") then some [samplePlain]
    else if input = encode ("[" ++ sampleMarked ++ "]") then some [sampleMarked]
    else none
  rawMembers _ := none

def sampleTree (text : String) : Option Json := (sampleNotes.parse (encode text)).toOption

end Agreement

end Quality
end Standards
end Glaux
