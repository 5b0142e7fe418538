import Glaux.Library.Outcome
import Mathlib.Data.List.Forall2
import Mathlib.Data.List.Nodup

/-!
# Named slots

Values given under names are put into the slots of a declared list of names, one by one.
The loop refuses an undeclared name and a name given twice; otherwise each slot ends with
the value given under its name, whatever the order they were given in.
-/

namespace Glaux
namespace Library

variable {κ α β : Type} [DecidableEq κ]

/-- Why a value has no slot. -/
inductive Misplaced where
  | unknown
  | repeated (index : Nat)
deriving DecidableEq

/-- The value given under a name. -/
def supplied (entries : List (κ × α)) (name : κ) : Option α :=
  (entries.find? (fun entry => entry.1 = name)).map (·.2)

/-- One value is put into its slot. -/
def place (names : List κ) (slots : List (Option α)) (entry : κ × α) :
    Except Misplaced (List (Option α)) :=
  match names.idxOf? entry.1 with
  | none => .error .unknown
  | some index =>
      match slots[index]? with
      | some none => .ok (slots.set index (some entry.2))
      | _ => .error (.repeated index)

def placeAll (names : List κ) (entries : List (κ × α)) : Except Misplaced (List (Option α)) :=
  entries.foldlM (place names) (List.replicate names.length none)

/-! ### Supplied values -/

section Supplied

variable {entries entries' : List (κ × α)} {name : κ} {a : α}

theorem supplied_cons (entry : κ × α) (entries : List (κ × α)) (name : κ) :
    supplied (entry :: entries) name =
      if entry.1 = name then some entry.2 else supplied entries name := by
  unfold supplied
  rw [List.find?_cons]
  by_cases hname : entry.1 = name <;> simp [hname]

theorem supplied_eq_none : supplied entries name = none ↔ name ∉ entries.map (·.1) := by
  unfold supplied
  rw [Option.map_eq_none_iff, List.find?_eq_none]
  constructor
  · intro h hmem
    obtain ⟨entry, hentry, rfl⟩ := List.mem_map.mp hmem
    exact h entry hentry (decide_eq_true rfl)
  · intro h entry hentry hname
    exact h (List.mem_map.mpr ⟨entry, hentry, of_decide_eq_true hname⟩)

theorem mem_of_supplied (h : supplied entries name = some a) : (name, a) ∈ entries := by
  unfold supplied at h
  obtain ⟨entry, hfound, rfl⟩ := Option.map_eq_some_iff.mp h
  rw [← List.head?_filter] at hfound
  obtain ⟨hmem, hname⟩ := List.mem_filter.mp (List.mem_of_head? hfound)
  rw [← of_decide_eq_true hname]
  exact hmem

/-- Where no name is given twice, the value is the one given. -/
theorem supplied_eq_some (hnodup : (entries.map (·.1)).Nodup) :
    supplied entries name = some a ↔ (name, a) ∈ entries := by
  refine ⟨mem_of_supplied, fun hmem => ?_⟩
  cases hsupplied : supplied entries name with
  | none =>
      exact absurd (List.mem_map.mpr ⟨_, hmem, rfl⟩) (supplied_eq_none.mp hsupplied)
  | some b =>
      have hsame := List.inj_on_of_nodup_map hnodup (mem_of_supplied hsupplied) hmem rfl
      rw [(Prod.mk.inj hsame).2]

theorem supplied_perm (hperm : entries.Perm entries') (hnodup : (entries.map (·.1)).Nodup) :
    supplied entries = supplied entries' := by
  have hnodup' : (entries'.map (·.1)).Nodup := ((hperm.map _).nodup_iff).mp hnodup
  funext name
  rw [Option.ext_iff]
  intro a
  rw [supplied_eq_some hnodup, supplied_eq_some hnodup', hperm.mem_iff]

/-- Values related under the same names are related where they are supplied. -/
theorem supplied_rel {R : α → β → Prop} {related : List (κ × β)}
    (h : List.Forall₂ (fun entry entry' => entry.1 = entry'.1 ∧ R entry.2 entry'.2) entries related)
    (name : κ) : Option.Rel R (supplied entries name) (supplied related name) := by
  induction h with
  | nil => exact .none
  | @cons entry entry' entries related hentry _ ih =>
      obtain ⟨hname, hrel⟩ := hentry
      rw [supplied_cons, supplied_cons]
      by_cases hfound : entry.1 = name
      · rw [if_pos hfound, if_pos (hname ▸ hfound)]
        exact .some hrel
      · rw [if_neg hfound, if_neg (hname ▸ hfound)]
        exact ih

theorem supplied_append (more : List (κ × α)) (name : κ) :
    supplied (entries ++ more) name = (supplied entries name).or (supplied more name) := by
  unfold supplied
  rw [List.find?_append, Option.map_or]

end Supplied

/-! ### Placing -/

section Placing

variable {names : List κ} {done entries : List (κ × α)} {slots : List (Option α)}

theorem idxOf?_of_nodup (hnodup : names.Nodup) {name : κ} {index : Nat} :
    names.idxOf? name = some index ↔ names[index]? = some name := by
  rw [List.idxOf?_eq_some_iff, List.getElem?_eq_some_iff]
  refine exists_congr fun hindex => and_iff_left_of_imp ?_
  intro hname j hj hsame
  exact absurd (hnodup.getElem_inj_iff.mp (hsame.trans hname.symm)) (Nat.ne_of_lt hj)

/-- A new slot is filled. -/
theorem set_supplied (hnodup : names.Nodup) {entry : κ × α} {index : Nat}
    (hindex : names[index]? = some entry.1) (hnew : entry.1 ∉ done.map (·.1)) :
    (names.map (supplied done)).set index (some entry.2) =
      names.map (supplied (done ++ [entry])) := by
  apply List.ext_getElem?
  intro i
  rw [List.getElem?_set, List.getElem?_map, List.getElem?_map]
  have hlt : index < (names.map (supplied done)).length := by
    obtain ⟨hlt, -⟩ := List.getElem?_eq_some_iff.mp hindex
    simpa using hlt
  by_cases hi : index = i
  · subst hi
    rw [if_pos rfl, if_pos hlt, hindex, Option.map_some, supplied_append,
      supplied_eq_none.mpr hnew, supplied_cons, if_pos rfl]
    rfl
  · rw [if_neg hi]
    cases hname : names[i]? with
    | none => rfl
    | some name =>
        have hother : entry.1 ≠ name := by
          rintro rfl
          have hi' := (idxOf?_of_nodup hnodup).mpr hname
          exact hi (Option.some.inj (((idxOf?_of_nodup hnodup).mpr hindex).symm.trans hi'))
        have hnone : supplied ([] : List (κ × α)) name = none := rfl
        rw [Option.map_some, Option.map_some, supplied_append, supplied_cons, if_neg hother, hnone,
          Option.or_none]

/-- A value is put in its slot when its name is declared and new. -/
theorem place_eq_ok (hnodup : names.Nodup) {entry : κ × α} :
    place names (names.map (supplied done)) entry = .ok slots ↔
      entry.1 ∈ names ∧ entry.1 ∉ done.map (·.1) ∧
        slots = names.map (supplied (done ++ [entry])) := by
  unfold place
  cases hindex : names.idxOf? entry.1 with
  | none =>
      have hout : entry.1 ∉ names := List.idxOf?_eq_none_iff.mp hindex
      exact ⟨nofun, fun h => absurd h.1 hout⟩
  | some index =>
      have hname := (idxOf?_of_nodup hnodup).mp hindex
      have hmem : entry.1 ∈ names := List.mem_of_getElem? hname
      have hslot : (names.map (supplied done))[index]? = some (supplied done entry.1) := by
        rw [List.getElem?_map, hname]
        rfl
      simp only [hslot]
      cases hsupplied : supplied done entry.1 with
      | none =>
          have hnew := supplied_eq_none.mp hsupplied
          simp only [Except.ok.injEq, set_supplied hnodup hname hnew]
          exact ⟨fun h => ⟨hmem, hnew, h.symm⟩, fun h => h.2.2.symm⟩
      | some a =>
          have hold : entry.1 ∈ done.map (·.1) := by
            by_contra hnew
            rw [supplied_eq_none.mpr hnew] at hsupplied
            cases hsupplied
          exact ⟨nofun, fun h => absurd hold h.2.1⟩

/-- The rest of the loop, after the values already placed. -/
theorem places_eq_ok (hnodup : names.Nodup) :
    entries.foldlM (place names) (names.map (supplied done)) = .ok slots ↔
      (∀ entry ∈ entries, entry.1 ∈ names ∧ entry.1 ∉ done.map (·.1)) ∧
        (entries.map (·.1)).Nodup ∧ slots = names.map (supplied (done ++ entries)) := by
  induction entries generalizing done with
  | nil =>
      rw [List.foldlM_nil, pure_eq_ok, Except.ok.injEq, List.append_nil]
      simp [eq_comm]
  | cons entry entries ih =>
      rw [foldlM_cons_eq_ok]
      constructor
      · rintro ⟨next, hnext, hrest⟩
        obtain ⟨hmem, hnew, rfl⟩ := (place_eq_ok hnodup).mp hnext
        obtain ⟨hall, hkeys, rfl⟩ := ih.mp hrest
        refine ⟨?_, ?_, by rw [List.append_assoc, List.singleton_append]⟩
        · intro other hother
          obtain rfl | hother := List.mem_cons.mp hother
          · exact ⟨hmem, hnew⟩
          · obtain ⟨hdeclared, hfresh⟩ := hall other hother
            rw [List.map_append, List.mem_append, not_or] at hfresh
            exact ⟨hdeclared, hfresh.1⟩
        · rw [List.map_cons, List.nodup_cons]
          refine ⟨?_, hkeys⟩
          intro hagain
          obtain ⟨other, hother, hname⟩ := List.mem_map.mp hagain
          apply (hall other hother).2
          rw [hname, List.map_append, List.mem_append]
          exact .inr (List.mem_singleton.mpr rfl)
      · rintro ⟨hall, hkeys, rfl⟩
        obtain ⟨hmem, hnew⟩ := hall entry List.mem_cons_self
        obtain ⟨hfirst, hkeys⟩ := List.nodup_cons.mp hkeys
        refine ⟨_, (place_eq_ok hnodup).mpr ⟨hmem, hnew, rfl⟩, ih.mpr ⟨?_, hkeys, ?_⟩⟩
        · intro other hother
          obtain ⟨hdeclared, hfresh⟩ := hall other (List.mem_cons_of_mem _ hother)
          refine ⟨hdeclared, ?_⟩
          rw [List.map_append, List.mem_append, not_or]
          refine ⟨hfresh, ?_⟩
          intro hsame
          rw [List.map_singleton, List.mem_singleton] at hsame
          exact hfirst (List.mem_map.mpr ⟨other, hother, hsame⟩)
        · rw [List.append_assoc, List.singleton_append]

/-- **Slots.**  All values are placed when their names are declared and distinct. -/
theorem placeAll_eq_ok (hnodup : names.Nodup) :
    placeAll names entries = .ok slots ↔
      (∀ entry ∈ entries, entry.1 ∈ names) ∧ (entries.map (·.1)).Nodup ∧
        slots = names.map (supplied entries) := by
  have hstart : List.replicate names.length (none : Option α) = names.map (supplied []) := by
    have hempty : supplied ([] : List (κ × α)) = fun _ => none := rfl
    rw [hempty, List.map_const']
  rw [placeAll, hstart, places_eq_ok hnodup]
  simp

/-- A repeated name is reported at its slot. -/
theorem place_repeated {slots : List (Option α)} {entry : κ × α} {index : Nat}
    (h : place names slots entry = .error (.repeated index)) : index < names.length := by
  unfold place at h
  cases hindex : names.idxOf? entry.1 with
  | none => simp [hindex] at h
  | some found =>
      simp only [hindex] at h
      split at h
      · cases h
      · cases h
        obtain ⟨hlt, -⟩ := List.idxOf?_eq_some_iff.mp hindex
        exact hlt

theorem placeAll_repeated {index : Nat}
    (h : placeAll names entries = .error (.repeated index)) : index < names.length := by
  unfold placeAll at h
  generalize List.replicate names.length (none : Option α) = start at h
  induction entries generalizing start with
  | nil => cases h
  | cons entry entries ih =>
      rw [List.foldlM_cons, bind_eq_error] at h
      obtain h | ⟨next, -, h⟩ := h
      · exact place_repeated h
      · exact ih next h

end Placing

end Library
end Glaux
