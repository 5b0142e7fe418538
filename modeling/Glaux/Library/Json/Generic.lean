import Glaux.Library.Json.Value
import Mathlib.Data.List.Nodup
import Mathlib.Tactic

/-!
# The generic reader of `serde_json`

With `arbitrary_precision` and `raw_value` the visitor of `serde_json::Value` looks at the
first name of an object.  Two private names are its own: under one it reads a number from a
string, under the other a whole text.  A syntax tree keeps objects in source order; the trees
of texts are a parameter.
-/

namespace Glaux
namespace Library
namespace Json

/-- `number::TOKEN` -/
def numberToken : String := "$serde_json::private::Number"

/-- `raw::TOKEN` -/
def rawValueToken : String := "$serde_json::private::RawValue"

def isToken (name : String) : Bool := name = numberToken || name = rawValueToken

/-- A member is inserted; under a name that is present its value is replaced. -/
def insertMember (member : String × Json) : List (String × Json) → List (String × Json)
  | [] => [member]
  | first :: rest =>
      if first.1 = member.1 then member :: rest else first :: insertMember member rest

/-- The map of the members of an object. -/
def ofMembers (members : List (String × Json)) : List (String × Json) :=
  members.foldl (fun map member => insertMember member map) []

/-- The string of an only member. -/
def soleText : Json → List (String × Json) → Option String
  | .string text, [] => some text
  | _, _ => none

/-- `Number::from_str`: the whole string is one number. -/
def numberText (tree : String → Option Json) (text : String) : Option Json :=
  match tree text with
  | some (.number lexeme) => if lexeme = text then some (.number text) else none
  | _ => none

mutual

/-- `Deserialize for Value` on a syntax tree; `inside` reads a text kept in a string. -/
def genericWith (tree inside : String → Option Json) : Json → Option Json
  | .null => some .null
  | .bool b => some (.bool b)
  | .number lexeme => some (.number lexeme)
  | .string text => some (.string text)
  | .array items => (genericItems tree inside items).map .array
  | .object [] => some (.object [])
  | .object ((name, value) :: rest) =>
      if name = numberToken then (soleText value rest).bind (numberText tree)
      else if name = rawValueToken then (soleText value rest).bind inside
      else
        match genericWith tree inside value, genericMembers tree inside rest with
        | some value, some rest => some (.object (ofMembers ((name, value) :: rest)))
        | _, _ => none

def genericItems (tree inside : String → Option Json) : List Json → Option (List Json)
  | [] => some []
  | item :: items =>
      match genericWith tree inside item, genericItems tree inside items with
      | some item, some items => some (item :: items)
      | _, _ => none

def genericMembers (tree inside : String → Option Json) :
    List (String × Json) → Option (List (String × Json))
  | [] => some []
  | (name, value) :: members =>
      match genericWith tree inside value, genericMembers tree inside members with
      | some value, some members => some ((name, value) :: members)
      | _, _ => none

end

/-- `from_str::<Value>`; `hops` bounds how often a text is read inside of a text. -/
def generic (tree : String → Option Json) : Nat → String → Option Json
  | 0, text => (tree text).bind (genericWith tree fun _ => none)
  | hops + 1, text => (tree text).bind (genericWith tree (generic tree hops))

mutual

/-- No object of the tree starts with a private name. -/
def plain : Json → Bool
  | .null | .bool _ | .number _ | .string _ => true
  | .array items => plainItems items
  | .object members =>
      !(members.head?.any (fun first => isToken first.1)) && plainMembers members

def plainItems : List Json → Bool
  | [] => true
  | item :: items => plain item && plainItems items

def plainMembers : List (String × Json) → Bool
  | [] => true
  | (_, value) :: members => plain value && plainMembers members

end

mutual

/-- The names of every object of the tree differ. -/
def distinct : Json → Bool
  | .null | .bool _ | .number _ | .string _ => true
  | .array items => distinctItems items
  | .object members => decide (members.map (·.1)).Nodup && distinctMembers members

def distinctItems : List Json → Bool
  | [] => true
  | item :: items => distinct item && distinctItems items

def distinctMembers : List (String × Json) → Bool
  | [] => true
  | (_, value) :: members => distinct value && distinctMembers members

end

section Lists

variable {tree inside : String → Option Json}

theorem distinctItems_iff {items : List Json} :
    distinctItems items = true ↔ ∀ item ∈ items, distinct item = true := by
  induction items with
  | nil => simp [distinctItems]
  | cons item items ih => simp [distinctItems, ih]

theorem distinctMembers_iff {members : List (String × Json)} :
    distinctMembers members = true ↔ ∀ member ∈ members, distinct member.2 = true := by
  induction members with
  | nil => simp [distinctMembers]
  | cons member members ih =>
      obtain ⟨name, value⟩ := member
      rw [distinctMembers, Bool.and_eq_true, ih, List.forall_mem_cons]

end Lists

/-! ### Maps -/

section Agreement

variable {tree inside : String → Option Json}

end Agreement

end Json
end Library
end Glaux
