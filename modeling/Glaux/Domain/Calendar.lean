import Glaux.Domain.Temporal
import Mathlib.Tactic

/-!
# The civil day number

Dates follow one another as in the proleptic Gregorian calendar, and `civil_days` numbers
them in this order.
-/

namespace Glaux
namespace Domain
namespace Calendar

structure Date where
  year : Nat
  month : Nat
  day : Nat
deriving DecidableEq

namespace Date

/-- A date of the calendar. -/
structure Real (date : Date) : Prop where
  month_pos : 1 ≤ date.month
  month_le : date.month ≤ 12
  day_pos : 1 ≤ date.day
  day_le : date.day ≤ monthDays date.year date.month

/-- The day after. -/
def next (date : Date) : Date :=
  if date.day < monthDays date.year date.month then ⟨date.year, date.month, date.day + 1⟩
  else if date.month < 12 then ⟨date.year, date.month + 1, 1⟩
  else ⟨date.year + 1, 1, 1⟩

def number (date : Date) : Int := civilDays date.year date.month date.day

end Date

theorem monthDays_le (year month : Nat) : monthDays year month ≤ 31 := by
  unfold monthDays
  split_ifs <;> omega

theorem monthDays_pos (year : Nat) {month : Nat} (hpos : 1 ≤ month) (hle : month ≤ 12) :
    1 ≤ monthDays year month := by
  unfold monthDays
  split_ifs with h₁ h₂ h₃ h₄
  · decide
  · decide
  · decide
  · decide
  · simp only [List.mem_cons, List.not_mem_nil, or_false, not_or] at h₃ h₄
    omega

/-- The days of the months before. -/
def daysBefore (year month : Nat) : Int :=
  (((List.range month).drop 1).map fun m => (monthDays year m : Int)).sum

theorem daysBefore_succ (year : Nat) {month : Nat} (hpos : 1 ≤ month) :
    daysBefore year (month + 1) = daysBefore year month + monthDays year month := by
  unfold daysBefore
  rw [List.range_succ, List.drop_append_of_le_length (by simpa using hpos)]
  simp

theorem daysBefore_bounds (year : Nat) {month : Nat} (hpos : 1 ≤ month) :
    0 ≤ daysBefore year month ∧ daysBefore year month ≤ 31 * (month - 1) := by
  induction month, hpos using Nat.le_induction with
  | base => exact ⟨le_rfl, le_rfl⟩
  | succ month hpos ih =>
      have hdays := monthDays_le year month
      rw [daysBefore_succ year hpos]
      push_cast
      omega

theorem daysBefore_year (year : Nat) :
    daysBefore year 12 + monthDays year 12 = if leapYear year then 366 else 365 := by
  rw [← daysBefore_succ year (by decide)]
  have hmonths : (List.range 13).drop 1 = [1, 2, 3, 4, 5, 6, 7, 8, 9, 10, 11, 12] := rfl
  rw [daysBefore, hmonths]
  cases hleap : leapYear year with
  | true => simp [monthDays, hleap]
  | false => simp [monthDays, hleap]

theorem leapYear_iff (year : Nat) :
    leapYear year = true ↔ 4 ∣ year ∧ (¬ 100 ∣ year ∨ 400 ∣ year) := by
  unfold leapYear
  rw [decide_eq_true_iff, Nat.dvd_iff_mod_eq_zero, Nat.dvd_iff_mod_eq_zero,
    Nat.dvd_iff_mod_eq_zero]

theorem daysBeforeYear_of_pos (prior : Nat) :
    daysBeforeYear (prior + 1) =
      (prior + 1) * 365 + ((prior / 4 - prior / 100 + prior / 400 + 1 : Nat) : Int) := by
  unfold daysBeforeYear
  rw [if_neg (Nat.succ_ne_zero prior), Nat.add_sub_cancel]
  push_cast
  rfl

/-- A year has as many days as its months. -/
theorem daysBeforeYear_succ (year : Nat) :
    daysBeforeYear (year + 1) = daysBeforeYear year + if leapYear year then 366 else 365 := by
  cases year with
  | zero => decide
  | succ prior =>
      have hless : prior / 100 ≤ prior / 4 := Nat.div_le_div_left (by decide) (by decide)
      have hleap := leapYear_iff (prior + 1)
      rw [daysBeforeYear_of_pos, daysBeforeYear_of_pos, Nat.succ_div, Nat.succ_div, Nat.succ_div]
      by_cases h : leapYear (prior + 1) = true
      · obtain ⟨hfour, hcentury⟩ := hleap.mp h
        rw [if_pos h, if_pos hfour]
        rcases hcentury with hcentury | hcentury
        · have hfourth : ¬ 400 ∣ prior + 1 := fun hd => hcentury ((by decide : 100 ∣ 400).trans hd)
          rw [if_neg hcentury, if_neg hfourth]
          omega
        · rw [if_pos ((by decide : 100 ∣ 400).trans hcentury), if_pos hcentury]
          omega
      · rw [if_neg h]
        by_cases hfour : 4 ∣ prior + 1
        · have hcentury : 100 ∣ prior + 1 ∧ ¬ 400 ∣ prior + 1 := by
            simpa [hfour, not_or] using fun hl => h (hleap.mpr hl)
          rw [if_pos hfour, if_pos hcentury.1, if_neg hcentury.2]
          omega
        · have hcentury : ¬ 100 ∣ prior + 1 := fun hd => hfour ((by decide : 4 ∣ 100).trans hd)
          have hfourth : ¬ 400 ∣ prior + 1 := fun hd => hfour ((by decide : 4 ∣ 400).trans hd)
          rw [if_neg hfour, if_neg hcentury, if_neg hfourth]
          omega

theorem daysBeforeYear_bounds (year : Nat) :
    0 ≤ daysBeforeYear year ∧ daysBeforeYear year ≤ 366 * year := by
  cases year with
  | zero => decide
  | succ prior =>
      rw [daysBeforeYear_of_pos]
      push_cast
      omega

theorem number_eq (date : Date) :
    date.number = daysBeforeYear date.year - daysBeforeYear 1970 +
      daysBefore date.year date.month + date.day - 1 := rfl

/-- **One day.**  The number of the next date is the next number. -/
theorem number_next {date : Date} (h : date.Real) : date.next.number = date.number + 1 := by
  have hpos := h.month_pos
  have hle := h.day_le
  unfold Date.next
  split_ifs with hday hmonth
  · rw [number_eq, number_eq]
    push_cast
    ring
  · rw [number_eq, number_eq]
    dsimp only
    rw [daysBefore_succ date.year hpos]
    omega
  · have hmonth : date.month = 12 := le_antisymm h.month_le (Nat.le_of_not_lt hmonth)
    have hyear := daysBefore_year date.year
    have hfirst : daysBefore (date.year + 1) 1 = 0 := rfl
    rw [number_eq, number_eq]
    dsimp only
    rw [daysBeforeYear_succ, hfirst, hmonth]
    rw [hmonth] at hday hle
    omega

/-- The next date is a date. -/
theorem real_next {date : Date} (h : date.Real) : date.next.Real := by
  unfold Date.next
  split_ifs with hday hmonth
  · exact ⟨h.month_pos, h.month_le, Nat.le_add_left _ _, hday⟩
  · exact ⟨Nat.le_add_left _ _, hmonth, le_rfl,
      monthDays_pos _ (Nat.le_add_left _ _) hmonth⟩
  · exact ⟨le_rfl, Nat.le_add_left 1 11, le_rfl, monthDays_pos _ le_rfl (Nat.le_add_left 1 11)⟩

theorem number_bounds {date : Date} (h : date.Real) (hyear : date.year ≤ 9999) :
    -719528 ≤ date.number ∧ date.number ≤ 3660000 := by
  have hyears := daysBeforeYear_bounds date.year
  have hmonths := daysBefore_bounds date.year h.month_pos
  have hmonth := h.month_le
  have hday := h.day_pos
  have hle := h.day_le.trans (monthDays_le _ _)
  have hepoch : daysBeforeYear 1970 = 719528 := by decide
  rw [number_eq, hepoch]
  omega

end Calendar
end Domain
end Glaux
