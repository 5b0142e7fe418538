import Glaux.Library.Json.Value

/-!
# Equality of JSON values

Two values are equal when their trees are.  Of objects with their members in one order this
is equality of the maps.
-/

namespace Glaux
namespace Library
namespace Json

mutual

def decEq : (a b : Json) → Decidable (a = b)
  | .null, .null => .isTrue rfl
  | .bool a, .bool b => decidable_of_iff (a = b) (by simp)
  | .number a, .number b => decidable_of_iff (a = b) (by simp)
  | .string a, .string b => decidable_of_iff (a = b) (by simp)
  | .array as, .array bs =>
      have := decEqItems as bs
      decidable_of_iff (as = bs) (by simp)
  | .object as, .object bs =>
      have := decEqMembers as bs
      decidable_of_iff (as = bs) (by simp)
  | .null, .bool _ | .null, .number _ | .null, .string _ | .null, .array _ | .null, .object _
  | .bool _, .null | .bool _, .number _ | .bool _, .string _ | .bool _, .array _
  | .bool _, .object _
  | .number _, .null | .number _, .bool _ | .number _, .string _ | .number _, .array _
  | .number _, .object _
  | .string _, .null | .string _, .bool _ | .string _, .number _ | .string _, .array _
  | .string _, .object _
  | .array _, .null | .array _, .bool _ | .array _, .number _ | .array _, .string _
  | .array _, .object _
  | .object _, .null | .object _, .bool _ | .object _, .number _ | .object _, .string _
  | .object _, .array _ => .isFalse nofun

def decEqItems : (as bs : List Json) → Decidable (as = bs)
  | [], [] => .isTrue rfl
  | a :: as, b :: bs =>
      have := decEq a b
      have := decEqItems as bs
      decidable_of_iff (a = b ∧ as = bs) (by simp)
  | [], _ :: _ | _ :: _, [] => .isFalse nofun

def decEqMembers : (as bs : List (String × Json)) → Decidable (as = bs)
  | [], [] => .isTrue rfl
  | (name, a) :: as, (name', b) :: bs =>
      have := decEq a b
      have := decEqMembers as bs
      decidable_of_iff (name = name' ∧ a = b ∧ as = bs) (by simp [and_assoc])
  | [], _ :: _ | _ :: _, [] => .isFalse nofun

end

instance : DecidableEq Json := decEq

end Json
end Library
end Glaux
