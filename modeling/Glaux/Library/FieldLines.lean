import Glaux.Library.Cursor

/-!
# Header fields of several lines

The lines of one field are joined with commas under a limit on the joined bytes.  How a
list is spread over lines is not seen in the join.
-/

namespace Glaux
namespace Library
namespace FieldLines

def comma : UInt8 := ','.toUInt8

/-- Optional white space. -/
def blank (byte : UInt8) : Bool := byte == ' '.toUInt8 || byte == '\t'.toUInt8

/-- Without the blanks around it. -/
def trim (bytes : List UInt8) : List UInt8 := (bytes.dropWhile blank).rdropWhile blank

/-- One line more: what is joined, and whether there was a line before. -/
def joinLine (limit : ℕ) (joined : List UInt8 × Bool) (line : List UInt8) :
    Except Unit (List UInt8 × Bool) :=
  if line.length + (if joined.2 then 1 else 0) > limit - joined.1.length then .error ()
  else .ok ((if joined.2 then joined.1 ++ [comma] else joined.1) ++ line, true)

/-- The loop over the lines; without a line there is nothing. -/
def joinLines (limit : ℕ) (lines : List (List UInt8)) : Except Unit (Option (List UInt8)) :=
  (lines.foldlM (joinLine limit) ([], false)).map fun joined =>
    if joined.2 then some joined.1 else none

/-- The comma join. -/
def join (lines : List (List UInt8)) : List UInt8 := [comma].intercalate lines

theorem join_cons (line : List UInt8) (lines : List (List UInt8)) :
    join (line :: lines) = line ++ lines.flatMap (comma :: ·) := by
  induction lines generalizing line with
  | nil => simp [join]
  | cons next lines ih =>
      have hnext := ih next
      rw [join] at hnext ⊢
      rw [List.intercalate_cons_of_ne_nil (by simp), hnext]
      simp

theorem joinLine_fold (limit : ℕ) (lines : List (List UInt8)) {joined : List UInt8}
    (h : joined.length ≤ limit) :
    lines.foldlM (joinLine limit) (joined, true) =
      if (joined ++ lines.flatMap (comma :: ·)).length ≤ limit then
        .ok (joined ++ lines.flatMap (comma :: ·), true)
      else .error () := by
  induction lines generalizing joined with
  | nil => simp [h]
  | cons line lines ih =>
      rw [List.foldlM_cons, joinLine]
      simp only [if_true]
      by_cases hfits : line.length + 1 > limit - joined.length
      · have hlong : ¬ (joined ++ (line :: lines).flatMap (comma :: ·)).length ≤ limit := by
          simp only [List.flatMap_cons, List.length_append, List.length_cons]
          omega
        rw [if_pos hfits, if_neg hlong]
        rfl
      · have hnext : (joined ++ [comma] ++ line).length ≤ limit := by
          simp only [List.length_append, List.length_singleton]
          omega
        have hsame : joined ++ (line :: lines).flatMap (comma :: ·) =
            joined ++ [comma] ++ line ++ lines.flatMap (comma :: ·) := by
          simp
        rw [if_neg hfits, ok_bind, ih hnext, hsame]

/-- **The lines are joined** when the join keeps the limit. -/
theorem joinLines_eq (limit : ℕ) {lines : List (List UInt8)} (h : lines ≠ []) :
    joinLines limit lines =
      if (join lines).length ≤ limit then .ok (some (join lines)) else .error () := by
  cases lines with
  | nil => exact absurd rfl h
  | cons line lines =>
      rw [joinLines, List.foldlM_cons, joinLine, join_cons]
      simp only [Bool.false_eq_true, if_false, Nat.add_zero, List.length_nil, Nat.sub_zero,
        List.nil_append]
      by_cases hfits : line.length > limit
      · have hlong : ¬ (line ++ lines.flatMap (comma :: ·)).length ≤ limit := by
          rw [List.length_append]
          omega
        rw [if_pos hfits, if_neg hlong]
        rfl
      · rw [if_neg hfits, ok_bind, joinLine_fold limit lines (Nat.le_of_not_lt hfits)]
        split
        · rfl
        · rfl

theorem joinLines_nil (limit : ℕ) : joinLines limit [] = .ok none := rfl

/-- A line may be split at any of its commas. -/
theorem join_split (before after : List (List UInt8)) (left right : List UInt8) :
    join (before ++ (left ++ comma :: right) :: after) =
      join (before ++ left :: right :: after) := by
  cases before with
  | nil => simp [join_cons]
  | cons line before => simp [join_cons]

/-- **Spreading a list over lines** changes nothing. -/
theorem joinLines_split (limit : ℕ) (before after : List (List UInt8))
    (left right : List UInt8) :
    joinLines limit (before ++ (left ++ comma :: right) :: after) =
      joinLines limit (before ++ left :: right :: after) := by
  rw [joinLines_eq limit (by simp), joinLines_eq limit (by simp), join_split]

end FieldLines
end Library
end Glaux
