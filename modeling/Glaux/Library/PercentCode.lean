import Glaux.Library.Utf8

/-!
# Percent-encoded text

Percent-decoding gives back bytes: an escape stands for the byte of its two hexadecimal
digits, any other character for its own bytes.  The library also has the cut at the
first occurrence of a separator.
-/

namespace Glaux
namespace Library

section Split

variable {α : Type} [DecidableEq α]

/-- The text before and after the first separator. -/
def splitOnce (sep : α) : List α → Option (List α × List α)
  | [] => none
  | c :: rest =>
      if c = sep then some ([], rest)
      else (splitOnce sep rest).map fun parts => (c :: parts.1, parts.2)

theorem splitOnce_append {sep : α} {front : List α} (h : sep ∉ front) (back : List α) :
    splitOnce sep (front ++ sep :: back) = some (front, back) := by
  induction front with
  | nil => simp [splitOnce]
  | cons c front ih =>
      simp only [List.mem_cons, not_or] at h
      obtain ⟨hc, hfront⟩ := h
      rw [List.cons_append, splitOnce, if_neg (Ne.symm hc), ih hfront]
      rfl

theorem splitOnce_eq_none {sep : α} {text : List α} (h : sep ∉ text) :
    splitOnce sep text = none := by
  induction text with
  | nil => rfl
  | cons c text ih =>
      simp only [List.mem_cons, not_or] at h
      obtain ⟨hc, htext⟩ := h
      rw [splitOnce, if_neg (Ne.symm hc), ih htext]
      rfl

/-- Pieces without the separator, each put behind one. -/
theorem splitOn_flatMap {sep : α} {first : List α} {pieces : List (List α)} (hfirst : sep ∉ first)
    (h : ∀ piece ∈ pieces, sep ∉ piece) :
    (first ++ pieces.flatMap (sep :: ·)).splitOn sep = first :: pieces := by
  induction pieces generalizing first with
  | nil =>
      rw [List.flatMap_nil, List.append_nil]
      exact List.splitOn_eq_singleton hfirst
  | cons piece pieces ih =>
      rw [List.flatMap_cons, List.cons_append, List.splitOn_append_cons_self_of_not_mem hfirst,
        ih (h piece List.mem_cons_self) fun p hp => h p (List.mem_cons_of_mem _ hp)]

/-- Every character is a separator or stands in a piece. -/
theorem mem_splitOn (sep : α) {c : α} {text : List α} (h : c ∈ text) :
    c = sep ∨ ∃ piece ∈ text.splitOn sep, c ∈ piece := by
  have htext : [sep].intercalate (text.splitOn sep) = text := List.intercalate_splitOn sep
  rw [← htext] at h
  generalize text.splitOn sep = pieces at h
  induction pieces with
  | nil => simp at h
  | cons piece pieces ih =>
      cases pieces with
      | nil =>
          refine .inr ⟨piece, List.mem_cons_self, ?_⟩
          simpa using h
      | cons next pieces =>
          rw [List.intercalate_cons_of_ne_nil (by simp)] at h
          simp only [List.mem_append, List.mem_singleton] at h
          obtain (h | h) | h := h
          · exact .inr ⟨piece, List.mem_cons_self, h⟩
          · exact .inl h
          · exact (ih h).imp id fun ⟨p, hp, hc⟩ => ⟨p, List.mem_cons_of_mem _ hp, hc⟩

end Split

/-- The value of a hexadecimal digit of either case. -/
def hexValue (c : Char) : Option ℕ :=
  if '0' ≤ c ∧ c ≤ '9' then some (c.toNat - '0'.toNat)
  else if 'A' ≤ c ∧ c ≤ 'F' then some (c.toNat - 'A'.toNat + 10)
  else if 'a' ≤ c ∧ c ≤ 'f' then some (c.toNat - 'a'.toNat + 10)
  else none

/-- A `%` without two hexadecimal digits has no meaning. -/
def percentDecode : List Char → Option (List UInt8)
  | [] => some []
  | c :: rest =>
      if c = '%' then
        match rest with
        | high :: low :: rest => do
            let high ← hexValue high
            let low ← hexValue low
            let bytes ← percentDecode rest
            some (UInt8.ofNat (16 * high + low) :: bytes)
        | _ => none
      else (percentDecode rest).map (String.utf8EncodeChar c ++ ·)

theorem percentDecode_plain {c : Char} (h : c ≠ '%') (rest : List Char) :
    percentDecode (c :: rest) = (percentDecode rest).map (String.utf8EncodeChar c ++ ·) := by
  rw [percentDecode.eq_def]
  simp [h]

theorem percentDecode_escape {high low : Char} {m n : ℕ} (hhigh : hexValue high = some m)
    (hlow : hexValue low = some n) (rest : List Char) :
    percentDecode ('%' :: high :: low :: rest) =
      (percentDecode rest).map (UInt8.ofNat (16 * m + n) :: ·) := by
  rw [percentDecode.eq_def]
  simp only [if_true, hhigh, hlow]
  cases percentDecode rest <;> rfl

end Library
end Glaux
