import Mathlib.Data.List.Basic

/-!
# Logs

A log grows at its end only.  What holds of every entry, relative to the entries
before it, goes on holding when the log grows, so a property of logs needs to be
checked for the new entry only.
-/

namespace Glaux
namespace Library

variable {α : Type}

theorem snoc_eq_append_cons {l earlier later : List α} {x y : α}
    (h : l ++ [x] = earlier ++ y :: later) :
    (later = [] ∧ y = x ∧ earlier = l) ∨
      ∃ rest, later = rest ++ [x] ∧ l = earlier ++ y :: rest := by
  obtain rfl | ⟨rest, last, rfl⟩ := later.eq_nil_or_concat'
  · obtain ⟨rfl, hlast⟩ := List.append_inj' h rfl
    exact .inl ⟨rfl, (List.cons.inj hlast).1.symm, rfl⟩
  · have h' : l ++ [x] = (earlier ++ y :: rest) ++ [last] := by simpa using h
    obtain ⟨rfl, hlast⟩ := List.append_inj' h' rfl
    exact .inr ⟨rest, by rw [(List.cons.inj hlast).1], rfl⟩

/-- Every entry stands in this relation to the entries before it. -/
def Entries (P : List α → α → Prop) (log : List α) : Prop :=
  ∀ earlier entry later, log = earlier ++ entry :: later → P earlier entry

variable {P Q : List α → α → Prop} {log : List α}

theorem entries_nil : Entries P [] := by
  intro earlier entry later h
  simp at h

/-- **Log rule.** -/
theorem entries_snoc {entry : α} : Entries P (log ++ [entry]) ↔ Entries P log ∧ P log entry := by
  constructor
  · intro h
    exact ⟨fun earlier x later hsplit => h earlier x (later ++ [entry]) (by simp [hsplit]),
      h log entry [] rfl⟩
  · rintro ⟨hold, hnew⟩ earlier x later hsplit
    obtain ⟨-, rfl, rfl⟩ | ⟨rest, -, hrest⟩ := snoc_eq_append_cons hsplit
    · exact hnew
    · exact hold earlier x rest hrest

theorem Entries.imp (h : Entries P log)
    (himp : ∀ earlier entry, (∀ x ∈ earlier, x ∈ log) → P earlier entry → Q earlier entry) :
    Entries Q log := by
  intro earlier entry later hsplit
  exact himp earlier entry (fun x hx => by simp [hsplit, hx]) (h earlier entry later hsplit)

/-- An entry is preceded by some entries. -/
theorem Entries.of_mem (h : Entries P log) {entry : α} (hmem : entry ∈ log) :
    ∃ earlier, (∀ x ∈ earlier, x ∈ log) ∧ P earlier entry := by
  obtain ⟨earlier, later, hsplit⟩ := List.append_of_mem hmem
  exact ⟨earlier, fun x hx => by simp [hsplit, hx], h earlier entry later hsplit⟩

end Library
end Glaux
