import Glaux.Library.Json.Value
import Mathlib

/-!
# Parts of a JSON value

The values that stand anywhere in a value, and how many there are.
-/

namespace Glaux
namespace Library
namespace Json

/-- A value that stands somewhere in a document. -/
inductive Part : Json → Json → Prop
  | self {value : Json} : Part value value
  | item {value item : Json} {items : List Json} (hitem : item ∈ items) (h : Part value item) :
      Part value (.array items)
  | member {value : Json} {member : String × Json} {members : List (String × Json)}
      (hmember : member ∈ members) (h : Part value member.2) : Part value (.object members)

theorem Part.trans {a b c : Json} (hab : Part a b) (hbc : Part b c) : Part a c := by
  induction hbc with
  | self => exact hab
  | item hitem _ ih => exact .item hitem ih
  | member hmember _ ih => exact .member hmember ih

theorem part_array {value : Json} {items : List Json} :
    Part value (.array items) ↔ value = .array items ∨ ∃ item ∈ items, Part value item := by
  constructor
  · rintro (_ | ⟨hitem, h⟩)
    · exact .inl rfl
    · exact .inr ⟨_, hitem, h⟩
  · rintro (rfl | ⟨item, hitem, h⟩)
    · exact .self
    · exact .item hitem h

theorem part_object {value : Json} {members : List (String × Json)} :
    Part value (.object members) ↔
      value = .object members ∨ ∃ member ∈ members, Part value member.2 := by
  constructor
  · rintro (_ | _ | ⟨hmember, h⟩)
    · exact .inl rfl
    · exact .inr ⟨_, hmember, h⟩
  · rintro (rfl | ⟨member, hmember, h⟩)
    · exact .self
    · exact .member hmember h

mutual

/-- How many values a document has. -/
def size : Json → ℕ
  | .null | .bool _ | .number _ | .string _ => 1
  | .array items => sizeItems items + 1
  | .object members => sizeMembers members + 1

def sizeItems : List Json → ℕ
  | [] => 0
  | item :: items => size item + sizeItems items

def sizeMembers : List (String × Json) → ℕ
  | [] => 0
  | (_, value) :: members => size value + sizeMembers members

end

theorem sizeItems_eq (items : List Json) : sizeItems items = (items.map size).sum := by
  induction items with
  | nil => rfl
  | cons item items ih => rw [sizeItems, ih, List.map_cons, List.sum_cons]

theorem sizeMembers_eq (members : List (String × Json)) :
    sizeMembers members = ((members.map (·.2)).map size).sum := by
  induction members with
  | nil => rfl
  | cons member members ih =>
      rw [sizeMembers, ih, List.map_cons, List.map_cons, List.sum_cons]

theorem le_sum_of_mem {sizes : List ℕ} {n : ℕ} (h : n ∈ sizes) : n ≤ sizes.sum := by
  induction sizes with
  | nil => cases h
  | cons first sizes ih =>
      rw [List.sum_cons]
      obtain rfl | h := List.mem_cons.mp h
      · exact Nat.le_add_right _ _
      · exact Nat.le_add_left_of_le (ih h)

theorem Part.size_le {part value : Json} (h : Part part value) : part.size ≤ value.size := by
  induction h with
  | self => exact Nat.le_refl _
  | @item item items hitem _ ih =>
      rw [size, sizeItems_eq]
      exact Nat.le_succ_of_le (ih.trans (le_sum_of_mem (List.mem_map_of_mem hitem)))
  | @member member members hmember _ ih =>
      rw [size, sizeMembers_eq]
      exact Nat.le_succ_of_le (ih.trans
        (le_sum_of_mem (List.mem_map_of_mem (List.mem_map_of_mem (f := (·.2)) hmember))))

theorem size_pos (value : Json) : 0 < size value := by
  cases value <;> simp [size]

end Json
end Library
end Glaux
