import Glaux.Domain.Numeric

/-!
# Geometry values (`geometry.rs`)

A position keeps its ordinates in the supplied order with their exact lexemes.  Two
positions are equal when their ordinates are equal as numbers.
-/

namespace Glaux
namespace Domain

inductive GeometryKind where
  | point
  | multiPoint
  | lineString
  | multiLineString
  | polygon
  | multiPolygon
deriving DecidableEq

structure Position where
  ordinates : List ExactNumber
deriving DecidableEq

/-- The derived equality, on the values of the ordinates. -/
def Position.eq (a b : Position) : Bool :=
  a.ordinates.length = b.ordinates.length &&
    (a.ordinates.zip b.ordinates).all fun pair => pair.1.eq pair.2

inductive GeometryValue where
  | point (position : Position)
  | multiPoint (positions : List Position)
  | lineString (positions : List Position)
  | multiLineString (lines : List (List Position))
  | polygon (rings : List (List Position))
  | multiPolygon (polygons : List (List (List Position)))
deriving DecidableEq

namespace GeometryValue

def kind : GeometryValue → GeometryKind
  | point _ => .point
  | multiPoint _ => .multiPoint
  | lineString _ => .lineString
  | multiLineString _ => .multiLineString
  | polygon _ => .polygon
  | multiPolygon _ => .multiPolygon

/-- Every position anywhere in the value. -/
def positions : GeometryValue → List Position
  | point position => [position]
  | multiPoint positions => positions
  | lineString positions => positions
  | multiLineString lines => lines.flatten
  | polygon rings => rings.flatten
  | multiPolygon polygons => polygons.flatten.flatten

def lines : GeometryValue → List (List Position)
  | lineString positions => [positions]
  | multiLineString lines => lines
  | _ => []

def rings : GeometryValue → List (List Position)
  | polygon rings => rings
  | multiPolygon polygons => polygons.flatten
  | _ => []

end GeometryValue

/-- No kinds leave every kind free; an empty list allows none. -/
structure GeometryConstraint where
  geom_types : Option (List GeometryKind)
deriving DecidableEq

theorem ExactNumber.eq_iff {a b : ExactNumber} : a.eq b = true ↔ a.value = b.value := by
  rw [ExactNumber.eq, decide_eq_true_iff, ExactNumber.cmp, compare_eq_iff_eq]

/-- Equal positions have the same numbers. -/
theorem Position.eq_iff {a b : Position} :
    a.eq b = true ↔ a.ordinates.map (·.value) = b.ordinates.map (·.value) := by
  obtain ⟨xs⟩ := a
  obtain ⟨ys⟩ := b
  rw [Position.eq, Bool.and_eq_true, decide_eq_true_iff]
  induction xs generalizing ys with
  | nil => cases ys <;> simp
  | cons x xs ih =>
      cases ys with
      | nil => simp
      | cons y ys =>
          have htail := ih ys
          simp only [List.length_cons, Nat.add_right_cancel_iff, List.zip_cons_cons, List.all_cons,
            Bool.and_eq_true, ExactNumber.eq_iff, List.map_cons, List.cons.injEq] at htail ⊢
          rw [← htail]
          exact and_left_comm

end Domain
end Glaux
