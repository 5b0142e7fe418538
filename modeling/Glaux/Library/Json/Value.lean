import Mathlib.Data.List.Basic

/-!
# JSON values

Numbers keep their lexeme; an object is the list of its members.
-/

namespace Glaux
namespace Library

inductive Json where
  | null
  | bool (value : Bool)
  | number (lexeme : String)
  | string (text : String)
  | array (items : List Json)
  | object (members : List (String × Json))

namespace Json

/-- Object member access. -/
def get? : Json → String → Option Json
  | .object members, name => members.lookup name
  | _, _ => none

def asArray? : Json → Option (List Json)
  | .array items => some items
  | _ => none

def asObject? : Json → Option (List (String × Json))
  | .object members => some members
  | _ => none

def asString? : Json → Option String
  | .string text => some text
  | _ => none

def asBool? : Json → Option Bool
  | .bool value => some value
  | _ => none

def isNumber : Json → Bool
  | .number _ => true
  | _ => false

end Json

end Library
end Glaux
