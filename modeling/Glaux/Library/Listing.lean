import Glaux.Library.Outcome
import Mathlib.Data.List.Perm.Basic

/-!
# Values given by a listing

A listing names single values and inclusive intervals; a value is admitted when it is
named or lies in an interval.  A scan that tests every entry, and stops at a test
without a verdict, decides this exactly when every test has one.
-/

namespace Glaux
namespace Library

universe u

section Scan

variable {ε : Type} {α : Type u}

/-- Every entry is tested; the first test without a verdict ends the scan. -/
def scan (test : α → Except ε Bool) (entries : List α) (found : Bool) : Except ε Bool :=
  entries.foldlM (fun found entry => do
    let hit ← test entry
    .ok (found || hit)) found

theorem scan_cons (test : α → Except ε Bool) (entry : α) (entries : List α) (found : Bool) :
    scan test (entry :: entries) found =
      test entry >>= fun hit => scan test entries (found || hit) := by
  simp only [scan, List.foldlM_cons]
  cases test entry with
  | error => rfl
  | ok => rfl

/-- **Scan rule.** -/
theorem scan_eq_ok {test : α → Except ε Bool} {entries : List α} {found b : Bool} :
    scan test entries found = .ok b ↔
      (∀ entry ∈ entries, ∃ hit, test entry = .ok hit) ∧
        (b = true ↔ found = true ∨ ∃ entry ∈ entries, test entry = .ok true) := by
  induction entries generalizing found with
  | nil =>
      have hscan : scan test [] found = .ok found := rfl
      rw [hscan]
      cases found <;> cases b <;> simp
  | cons entry entries ih =>
      rw [scan_cons]
      cases htest : test entry with
      | error e => simp [htest]
      | ok hit =>
          rw [ok_bind, ih]
          cases hit <;> cases found <;> simp [htest]

/-- A scan whose tests all have a verdict has one. -/
theorem scan_defined {test : α → Except ε Bool} {entries : List α}
    (h : ∀ entry ∈ entries, ∃ hit, test entry = .ok hit) (found : Bool) :
    ∃ b, scan test entries found = .ok b ∧
      (b = true ↔ found = true ∨ ∃ entry ∈ entries, test entry = .ok true) := by
  classical
  exact ⟨decide (found = true ∨ ∃ entry ∈ entries, test entry = .ok true),
    scan_eq_ok.mpr ⟨h, decide_eq_true_iff⟩, decide_eq_true_iff⟩

/-- The only way to end without a verdict. -/
theorem scan_eq_error {test : α → Except ε Bool} {e : ε}
    (honly : ∀ entry e', test entry = .error e' → e' = e) {entries : List α} {found : Bool} {e' : ε} :
    scan test entries found = .error e' ↔
      e' = e ∧ ∃ entry ∈ entries, test entry = .error e := by
  induction entries generalizing found with
  | nil =>
      have hscan : scan test [] found = .ok found := rfl
      simp [hscan]
  | cons entry entries ih =>
      rw [scan_cons]
      cases htest : test entry with
      | error e₁ =>
          obtain rfl := honly entry e₁ htest
          simp [htest, eq_comm]
      | ok hit =>
          rw [ok_bind, ih]
          simp [htest]

/-- The order of the entries does not matter. -/
theorem scan_perm {test : α → Except ε Bool} {e : ε}
    (honly : ∀ entry e', test entry = .error e' → e' = e) {entries entries' : List α}
    (hperm : entries.Perm entries') (found : Bool) :
    scan test entries found = scan test entries' found := by
  cases hscan : scan test entries found with
  | error e' =>
      obtain ⟨he, entry, hentry, htest⟩ := (scan_eq_error honly).mp hscan
      exact ((scan_eq_error honly).mpr ⟨he, entry, hperm.mem_iff.mp hentry, htest⟩).symm
  | ok b =>
      obtain ⟨hall, hb⟩ := scan_eq_ok.mp hscan
      refine (scan_eq_ok.mpr ⟨fun entry hentry => hall entry (hperm.mem_iff.mpr hentry), ?_⟩).symm
      simpa only [hperm.mem_iff] using hb

end Scan

section Listing

variable {α : Type u} {same below : α → α → Prop}

structure Listing (α : Type u) where
  values : List α
  intervals : List (α × α)
deriving DecidableEq

/-- The value is named, or it lies in an interval. -/
def Listing.Admits (listing : Listing α) (same below : α → α → Prop) (value : α) : Prop :=
  (∃ named ∈ listing.values, same named value) ∨
    ∃ interval ∈ listing.intervals, below interval.1 value ∧ below value interval.2

/-- The same entries in any order. -/
structure Listing.Reordered (listing listing' : Listing α) : Prop where
  values : listing.values.Perm listing'.values
  intervals : listing.intervals.Perm listing'.intervals

theorem Listing.Reordered.admits {listing listing' : Listing α}
    (h : listing.Reordered listing') (value : α) :
    listing.Admits same below value ↔ listing'.Admits same below value := by
  simp only [Listing.Admits, h.values.mem_iff, h.intervals.mem_iff]

end Listing

end Library
end Glaux
