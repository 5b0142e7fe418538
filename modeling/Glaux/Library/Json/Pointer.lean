import Glaux.Library.Json.Value
import Glaux.Library.PercentCode
import Mathlib.Data.Nat.Digits.Lemmas

/-!
# JSON pointers

A pointer is a sequence of reference tokens, each put behind a '/' with '~' and '/'
escaped.  What a token means depends on the value it is applied to: a member name in an
object, an index in an array.
-/

namespace Glaux
namespace Library
namespace Json

section Escape

/-- `str::replace` of a character. -/
def replaceChar (old : Char) (new : List Char) (text : List Char) : List Char :=
  text.flatMap fun c => if c = old then new else [c]

/-- `str::replace` of two characters in a row by one. -/
def replacePair (first second new : Char) : List Char → List Char
  | a :: b :: rest =>
      if a = first ∧ b = second then new :: replacePair first second new rest
      else a :: replacePair first second new (b :: rest)
  | text => text

def escape (name : List Char) : List Char :=
  replaceChar '/' ['~', '1'] (replaceChar '~' ['~', '0'] name)

def unescape (part : List Char) : List Char :=
  replacePair '~' '0' '~' (replacePair '~' '1' '/' part)

/-- What becomes of one character. -/
def escapeChar (c : Char) : List Char :=
  if c = '~' then ['~', '0'] else if c = '/' then ['~', '1'] else [c]

theorem escape_eq (name : List Char) : escape name = name.flatMap escapeChar := by
  rw [escape, replaceChar, replaceChar, List.flatMap_assoc]
  refine List.flatMap_congr fun c _ => ?_
  unfold escapeChar
  by_cases htilde : c = '~'
  · rw [if_pos htilde, if_pos htilde]
    rfl
  · rw [if_neg htilde, if_neg htilde, List.flatMap_singleton]

theorem replacePair_cons {first second new c : Char} (h : c ≠ first) (text : List Char) :
    replacePair first second new (c :: text) = c :: replacePair first second new text := by
  cases text with
  | nil => rfl
  | cons d text => rw [replacePair, if_neg fun hpair => h hpair.1]

theorem replacePair_hit {first second new : Char} (text : List Char) :
    replacePair first second new (first :: second :: text) =
      new :: replacePair first second new text := by
  rw [replacePair, if_pos ⟨rfl, rfl⟩]

theorem replacePair_miss {first second new c : Char} (hc : c ≠ second) (hne : c ≠ first)
    (text : List Char) :
    replacePair first second new (first :: c :: text) =
      first :: c :: replacePair first second new text := by
  rw [replacePair, if_neg fun hpair => hc hpair.2, replacePair_cons hne]

/-- **An escaped name is read back.** -/
theorem unescape_escape (name : List Char) : unescape (escape name) = name := by
  have hslash : ∀ name : List Char, replacePair '~' '1' '/' (name.flatMap escapeChar) =
      replaceChar '~' ['~', '0'] name := by
    intro name
    induction name with
    | nil => rfl
    | cons c name ih =>
        rw [List.flatMap_cons, replaceChar, List.flatMap_cons, ← replaceChar, escapeChar]
        by_cases htilde : c = '~'
        · rw [if_pos htilde, if_pos htilde, List.cons_append, List.cons_append, List.nil_append,
            replacePair_miss (by decide) (by decide), ih]
          rfl
        · rw [if_neg htilde, if_neg htilde]
          by_cases hslash : c = '/'
          · rw [if_pos hslash, List.cons_append, List.cons_append, List.nil_append,
              replacePair_hit, ih, hslash]
            rfl
          · rw [if_neg hslash, List.cons_append, List.nil_append, replacePair_cons htilde, ih]
            rfl
  have htilde : ∀ name : List Char,
      replacePair '~' '0' '~' (replaceChar '~' ['~', '0'] name) = name := by
    intro name
    induction name with
    | nil => rfl
    | cons c name ih =>
        rw [replaceChar, List.flatMap_cons, ← replaceChar]
        by_cases htilde : c = '~'
        · rw [if_pos htilde, List.cons_append, List.cons_append, List.nil_append,
            replacePair_hit, ih, htilde]
        · rw [if_neg htilde, List.cons_append, List.nil_append, replacePair_cons htilde, ih]
  rw [unescape, escape_eq, hslash, htilde]

theorem escape_injective : Function.Injective escape :=
  Function.LeftInverse.injective unescape_escape

theorem slash_notMem_escape (name : List Char) : '/' ∉ escape name := by
  rw [escape_eq]
  intro hmem
  obtain ⟨c, -, hc⟩ := List.mem_flatMap.mp hmem
  unfold escapeChar at hc
  split at hc
  · revert hc
    decide
  · split at hc
    · revert hc
      decide
    next hslash => exact hslash (List.mem_singleton.mp hc).symm

end Escape

section Steps

/-- `parse_index`: no sign and no leading zero. -/
def parseIndex (token : List Char) : Option Nat :=
  if token.head? = some '+' ∨ (token.head? = some '0' ∧ token.length ≠ 1) then none
  else if token ≠ [] ∧ token.all Char.isDigit then some (Nat.ofDigitChars 10 token 0)
  else none

/-- One reference token. -/
def step : Json → List Char → Option Json
  | .object members, token => members.lookup (String.ofList token)
  | .array items, token => (parseIndex token).bind fun index => items[index]?
  | _, _ => none

/-- What a sequence of names and indices leads to. -/
def follow (value : Json) (tokens : List String) : Option Json :=
  tokens.foldlM (fun value token => step value token.toList) value

/-- `Value::pointer`. -/
def pointer (value : Json) (text : List Char) : Option Json :=
  if text = [] then some value
  else if text.head? ≠ some '/' then none
  else ((text.splitOn '/').drop 1).foldlM (fun value part => step value (unescape part)) value

/-- The pointer of a sequence of tokens. -/
def pointerText (tokens : List String) : List Char :=
  tokens.flatMap fun token => '/' :: escape token.toList

theorem follow_append (value : Json) (front back : List String) :
    follow value (front ++ back) = (follow value front).bind fun inner => follow inner back := by
  simp only [follow, List.foldlM_append]
  rfl

theorem pointerText_append (front back : List String) :
    pointerText (front ++ back) = pointerText front ++ pointerText back := List.flatMap_append

theorem pointerText_eq (tokens : List String) :
    pointerText tokens = (tokens.map fun token => escape token.toList).flatMap ('/' :: ·) := by
  rw [pointerText, List.flatMap_map]

/-- A text from a '/' on is a sequence of parts. -/
theorem exists_parts (text : List Char) :
    ∃ (first : List Char) (parts : List (List Char)), text = first ++ parts.flatMap ('/' :: ·) ∧ '/' ∉ first ∧
      ∀ part ∈ parts, '/' ∉ part := by
  induction text with
  | nil => exact ⟨[], [], rfl, by simp, by simp⟩
  | cons c text ih =>
      obtain ⟨first, parts, rfl, hfirst, hparts⟩ := ih
      by_cases hc : c = '/'
      · refine ⟨[], first :: parts, by simp [hc], by simp, ?_⟩
        exact List.forall_mem_cons.mpr ⟨hfirst, hparts⟩
      · refine ⟨c :: first, parts, rfl, ?_, hparts⟩
        simpa [Ne.symm hc] using hfirst

/-- The parts of a pointer. -/
theorem pointer_parts (value : Json) {parts : List (List Char)}
    (h : ∀ part ∈ parts, '/' ∉ part) :
    pointer value (parts.flatMap ('/' :: ·)) =
      parts.foldlM (fun value part => step value (unescape part)) value := by
  cases parts with
  | nil => rfl
  | cons part parts =>
      have hsplit := splitOn_flatMap (List.not_mem_nil (a := '/')) h
      rw [List.nil_append] at hsplit
      rw [pointer, if_neg (by simp), if_neg (by simp), hsplit]
      rfl

/-- **Reading a pointer** follows the tokens it is the text of. -/
theorem pointer_text (value : Json) (tokens : List String) :
    pointer value (pointerText tokens) = follow value tokens := by
  have hparts : ∀ part ∈ tokens.map (fun token => escape token.toList), '/' ∉ part := by
    intro part hpart
    obtain ⟨token, -, rfl⟩ := List.mem_map.mp hpart
    exact slash_notMem_escape _
  rw [pointerText_eq, pointer_parts value hparts, List.foldlM_map]
  simp only [unescape_escape]
  rfl

/-- A pointer below another one. -/
theorem pointer_append (value : Json) (tokens : List String) {text : List Char}
    (h : text = [] ∨ text.head? = some '/') :
    pointer value (pointerText tokens ++ text) =
      (follow value tokens).bind fun inner => pointer inner text := by
  obtain ⟨first, parts, rfl, hfirst, hparts⟩ := exists_parts text
  obtain rfl : first = [] := by
    cases first with
    | nil => rfl
    | cons c first =>
        obtain h | h := h
        · cases h
        · obtain rfl : c = '/' := Option.some.inj h
          exact absurd List.mem_cons_self hfirst
  rw [List.nil_append]
  have hfront : ∀ part ∈ tokens.map (fun token => escape token.toList), '/' ∉ part := by
    intro part hpart
    obtain ⟨token, -, rfl⟩ := List.mem_map.mp hpart
    exact slash_notMem_escape _
  have hall : ∀ part ∈ tokens.map (fun token => escape token.toList) ++ parts, '/' ∉ part := by
    intro part hpart
    exact (List.mem_append.mp hpart).elim (hfront part) (hparts part)
  rw [pointerText_eq, ← List.flatMap_append, pointer_parts value hall, List.foldlM_append,
    List.foldlM_map]
  simp only [unescape_escape, pointer_parts _ hparts]
  rfl

/-- Different sequences of tokens have different pointers. -/
theorem pointerText_injective : Function.Injective pointerText := by
  intro tokens tokens' h
  have hparts : ∀ tokens : List String,
      ∀ part ∈ tokens.map (fun token => escape token.toList), '/' ∉ part := by
    intro tokens part hpart
    obtain ⟨token, -, rfl⟩ := List.mem_map.mp hpart
    exact slash_notMem_escape _
  rw [pointerText_eq, pointerText_eq] at h
  have hsplit := splitOn_flatMap List.not_mem_nil (hparts tokens)
  rw [h, splitOn_flatMap List.not_mem_nil (hparts tokens')] at hsplit
  refine List.map_injective_iff.mpr ?_ (List.cons.inj hsplit).2.symm
  intro token token' heq
  exact String.toList_inj.mp (escape_injective heq)

end Steps

section Index

theorem head_toDigits {n : Nat} (h : 0 < n) : (Nat.toDigits 10 n).head? ≠ some '0' := by
  induction n using Nat.strong_induction_on with
  | _ n ih =>
    by_cases hlt : n < 10
    · rw [Nat.toDigits_of_lt_base hlt]
      have hdigit : ∀ d < 10, 0 < d → (some d.digitChar) ≠ some '0' := by decide
      exact hdigit n hlt h
    · have hle : 10 ≤ n := Nat.le_of_not_lt hlt
      have hpos : 0 < n / 10 := Nat.div_pos hle (by decide)
      have hne : Nat.toDigits 10 (n / 10) ≠ [] := by
        intro hnil
        have hlength := Nat.length_toDigits_pos (b := 10) (n := n / 10)
        rw [hnil] at hlength
        exact absurd hlength (by decide)
      rw [Nat.toDigits_of_base_le (by decide) hle, List.head?_append_of_ne_nil _ hne]
      exact ih (n / 10) (Nat.div_lt_self h (by decide)) hpos

/-- An index in decimal digits is read back. -/
theorem parseIndex_toString (n : Nat) : parseIndex (toString n).toList = some n := by
  have htext : (toString n).toList = Nat.toDigits 10 n := by
    rw [Nat.toString_eq_repr, Nat.repr_eq_ofList_toDigits, String.toList_ofList]
  have hdigits : ∀ c ∈ Nat.toDigits 10 n, c.isDigit = true :=
    fun c hc => Nat.isDigit_of_mem_toDigits (by decide) (by decide) hc
  have hne : Nat.toDigits 10 n ≠ [] := by
    intro hnil
    have hlength := Nat.length_toDigits_pos (b := 10) (n := n)
    rw [hnil] at hlength
    exact absurd hlength (by decide)
  have hplain : ¬ ((Nat.toDigits 10 n).head? = some '+' ∨
      ((Nat.toDigits 10 n).head? = some '0' ∧ (Nat.toDigits 10 n).length ≠ 1)) := by
    rintro (hplus | ⟨hzero, hlength⟩)
    · have hdigit := hdigits '+' (List.mem_of_mem_head? hplus)
      exact absurd hdigit (by decide)
    · obtain rfl | hpos := Nat.eq_zero_or_pos n
      · exact hlength rfl
      · exact head_toDigits hpos hzero
  rw [htext, parseIndex, if_neg hplain, if_pos ⟨hne, List.all_eq_true.mpr hdigits⟩,
    Nat.ofDigitChars_ten_toDigits]

theorem step_index {items : List Json} (i : Nat) :
    step (.array items) (toString i).toList = items[i]? := by
  rw [step, parseIndex_toString]
  rfl

theorem lookup_of_mem {members : List (String × Json)} {name : String} {value : Json}
    (hnodup : (members.map (·.1)).Nodup) (h : (name, value) ∈ members) :
    members.lookup name = some value := by
  obtain ⟨before, after, rfl⟩ := List.append_of_mem h
  refine List.lookup_eq_some_iff.mpr ⟨before, after, rfl, fun member hmember => ?_⟩
  rw [List.map_append, List.nodup_append'] at hnodup
  have hne : member.1 ≠ name := by
    rintro rfl
    exact hnodup.2.2 (List.mem_map_of_mem hmember) (by simp)
  simpa using hne.symm

theorem step_member {members : List (String × Json)} (name : String) :
    step (.object members) name.toList = members.lookup name := by
  rw [step, String.ofList_toList]

end Index

end Json
end Library
end Glaux
