import Glaux.Domain.Numeric
import Glaux.Library.Json.Value
import Glaux.Standards.Budgets

/-!
# The syntax boundary (`validation.rs`)

What `validation::parse` refuses, and what the checks of values ask of it and of the raw
values of `serde_json`.  No check below depends on how a text is parsed.
-/

namespace Glaux
namespace Standards

open Library Domain

/-- `Failure`, as far as parsing reports it. -/
inductive Failure where
  | size
  | depth
  | nodes
  | members
  | string
  | malformed
  | duplicateKey
  | numeric (error : NumericError)
deriving DecidableEq

/-- The readers of a text. -/
structure JsonReader where
  /-- `validation::parse` -/
  parse : Bytes → Except Failure Json
  /-- `Vec<Box<RawValue>>` -/
  rawItems : Bytes → Option (List String)
  /-- `BTreeMap<String, Box<RawValue>>` -/
  rawMembers : Bytes → Option (List (String × String))

/-- The bytes of a text. -/
def encode (text : String) : Bytes := text.toUTF8.data.toList

/-- `str::from_utf8`. -/
def decode (bytes : Bytes) : Option String := String.fromUTF8? ⟨bytes.toArray⟩

/-- `White_Space`. -/
def isWhiteSpace (c : Char) : Bool :=
  (9 ≤ c.toNat && c.toNat ≤ 13) ||
    c.toNat ∈ [0x20, 0x85, 0xA0, 0x1680, 0x2028, 0x2029, 0x202F, 0x205F, 0x3000] ||
    (0x2000 ≤ c.toNat && c.toNat ≤ 0x200A)

/-- `str::trim`. -/
def trim (text : String) : String :=
  String.ofList (((text.toList.dropWhile isWhiteSpace).reverse.dropWhile isWhiteSpace).reverse)

end Standards
end Glaux
