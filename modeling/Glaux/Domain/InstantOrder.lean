import Glaux.Domain.InstantGrammar
import Mathlib.Data.Finset.Card

/-!
# The order of instants is chronological

An instant is so many seconds after the start of 1970, the leap seconds that went by
counted with the others.  The order of the stored keys is the order of these times.
-/

namespace Glaux
namespace Domain

open Library Library.Json Library.Machine

/-- The last seconds of the days a leap second follows. -/
def leapSeconds : Finset ℤ :=
  (positiveLeapDates.map fun date =>
    civilDays date.1 date.2.1 date.2.2 * 86400 + 86399).toFinset

/-- The leap seconds before a civil second. -/
def leapsBefore (second : ℤ) : ℕ := (leapSeconds.filter (· < second)).card

theorem mem_leapSeconds {second : ℤ} : second ∈ leapSeconds ↔ Stamp.Leaps second := by
  simp [leapSeconds, Stamp.Leaps]

theorem leapsBefore_mono {a b : ℤ} (h : a ≤ b) : leapsBefore a ≤ leapsBefore b :=
  Finset.card_le_card fun _ hx =>
    Finset.mem_filter.mpr ⟨(Finset.mem_filter.mp hx).1, (Finset.mem_filter.mp hx).2.trans_le h⟩

/-- A leap second goes by between its own second and the next one. -/
theorem leapsBefore_succ {a b : ℤ} (hleap : Stamp.Leaps a) (h : a < b) :
    leapsBefore a + 1 ≤ leapsBefore b := by
  refine Finset.card_lt_card ((Finset.ssubset_iff_of_subset fun x hx => ?_).mpr ⟨a, ?_, ?_⟩)
  · exact Finset.mem_filter.mpr
      ⟨(Finset.mem_filter.mp hx).1, (Finset.mem_filter.mp hx).2.trans h⟩
  · exact Finset.mem_filter.mpr ⟨mem_leapSeconds.mpr hleap, h⟩
  · exact fun hmem => lt_irrefl a (Finset.mem_filter.mp hmem).2

namespace Instant

/-- What the parser guarantees of the fields that order instants. -/
structure Sound (instant : Instant) : Prop where
  nonneg : 0 ≤ instant.fraction.value
  lt_one : instant.fraction.value < 1
  leap : instant.leap = true → Stamp.Leaps instant.civilSecond

/-- Seconds since the start of 1970. -/
def elapsed (instant : Instant) : ℚ :=
  instant.civilSecond + leapsBefore instant.civilSecond + (if instant.leap then 1 else 0) +
    instant.fraction.value

def key (instant : Instant) : ℤ ×ₗ Bool ×ₗ ℚ :=
  toLex (instant.civilSecond, toLex (instant.leap, instant.fraction.value))

theorem cmp_eq (a b : Instant) : a.cmp b = compare a.key b.key := by
  simp only [cmp, key, Prod.Lex.compare_def, compareLex, compareOn]
  rfl

theorem elapsed_congr {a b : Instant} (h : a.key = b.key) : a.elapsed = b.elapsed := by
  simp only [key, EmbeddingLike.apply_eq_iff_eq, Prod.mk.injEq] at h
  obtain ⟨hsecond, hleap, hfraction⟩ := h
  rw [elapsed, elapsed, hsecond, hleap, hfraction]

theorem elapsed_lt {a b : Instant} (ha : a.Sound) (hb : b.Sound) (h : a.key < b.key) :
    a.elapsed < b.elapsed := by
  have hfa := ha.lt_one
  have hfb := hb.nonneg
  have hlb : (0 : ℚ) ≤ if b.leap then 1 else 0 := by split <;> norm_num
  rw [elapsed, elapsed]
  rcases Prod.Lex.toLex_lt_toLex.mp h with hsecond | ⟨hsecond, hrest⟩
  · have hnext : (a.civilSecond : ℚ) + 1 ≤ b.civilSecond := by exact_mod_cast hsecond
    cases hleap : a.leap with
    | true =>
        have hcount : (leapsBefore a.civilSecond : ℚ) + 1 ≤ leapsBefore b.civilSecond := by
          exact_mod_cast leapsBefore_succ (ha.leap hleap) hsecond
        simp only [if_true]
        linarith
    | false =>
        have hcount : (leapsBefore a.civilSecond : ℚ) ≤ leapsBefore b.civilSecond := by
          exact_mod_cast leapsBefore_mono hsecond.le
        simp only [Bool.false_eq_true, if_false]
        linarith
  · dsimp only at hsecond
    rw [hsecond]
    rcases Prod.Lex.toLex_lt_toLex.mp hrest with hleap | ⟨hleap, hfraction⟩
    · obtain ⟨hla, hlb⟩ := Bool.lt_iff.mp hleap
      dsimp only at hla hlb
      rw [hla, hlb]
      simp only [Bool.false_eq_true, if_false, if_true]
      linarith
    · dsimp only at hleap hfraction
      rw [hleap]
      linarith

/-- **Chronological order.** -/
theorem cmp_eq_elapsed {a b : Instant} (ha : a.Sound) (hb : b.Sound) :
    a.cmp b = compare a.elapsed b.elapsed := by
  rw [cmp_eq]
  rcases lt_trichotomy a.key b.key with h | h | h
  · rw [compare_lt_iff_lt.mpr h, compare_lt_iff_lt.mpr (elapsed_lt ha hb h)]
  · rw [compare_eq_iff_eq.mpr h, compare_eq_iff_eq.mpr (elapsed_congr h)]
  · rw [compare_gt_iff_gt.mpr h, compare_gt_iff_gt.mpr (elapsed_lt hb ha h)]

/-- The slot of a leap second is after its own second and before the next one. -/
theorem leap_between {a b : Instant} (ha : a.leap = true) (hb : b.leap = false) :
    (b.civilSecond ≤ a.civilSecond → b.cmp a = .lt) ∧
      (a.civilSecond < b.civilSecond → a.cmp b = .lt) := by
  rw [cmp_eq, cmp_eq, compare_lt_iff_lt, compare_lt_iff_lt]
  constructor
  · intro hle
    rcases hle.lt_or_eq with hlt | heq
    · exact Prod.Lex.toLex_lt_toLex.mpr (.inl hlt)
    · exact Prod.Lex.toLex_lt_toLex.mpr (.inr ⟨heq, Prod.Lex.toLex_lt_toLex.mpr
        (.inl (by rw [ha, hb]; exact Bool.false_lt_true))⟩)
  · exact fun hlt => Prod.Lex.toLex_lt_toLex.mpr (.inl hlt)

end Instant

/-! ### What is read -/

/-- The fields of an instant are those of a stamp. -/
structure Denotes (text : String) (stamp : Stamp) (instant : Instant) : Prop where
  second : instant.civilSecond = stamp.civilSecond
  leap : instant.leap = decide (stamp.second = 60)
  fraction : instant.fraction.value = stamp.fractionValue
  offset : instant.offsetSeconds = stamp.offset
  digits : instant.fractionDigits = stamp.fraction.length
  source : instant.source = text

theorem machine_eq_ok {text : String} {instant : Instant} :
    Machine.parseRfc3339 text = .ok instant ↔
      ∃ stored, ExactInstant.parseRfc3339 text = .ok stored ∧ instant = stored.whole := by
  rw [Machine.parseRfc3339_eq]
  cases ExactInstant.parseRfc3339 text with
  | error e => simp
  | ok stored => simp [eq_comm]

/-- The instant of an accepted text. -/
theorem read_of_rfc3339 {text : String} {stamp : Stamp}
    (hsize : text.utf8ByteSize ≤ maxTimestampBytes) (h : Rfc3339 text.toList stamp)
    (hreal : stamp.Real) :
    Machine.parseRfc3339 text = .ok (stamp.instant text).whole ∧
      Denotes text stamp (stamp.instant text).whole ∧ (stamp.instant text).whole.Sound := by
  have hnumber := rfc3339_fraction h hsize
  obtain ⟨zone, hpart, hoffset⟩ := rfc3339_parts h
  obtain ⟨-, pointed, -, -, hpointed, -⟩ := rfc3339_tail h
  have hfraction : (stamp.instant text).fractionNumber =
      ⟨stamp.fractionValue, .decimal stamp.fractionText⟩ := by
    unfold ExactInstant.fractionNumber Stamp.instant
    dsimp only
    rw [hnumber]
    rfl
  have hvalue : (stamp.instant text).whole.fraction.value = stamp.fractionValue := by
    change (stamp.instant text).fractionNumber.value = _
    rw [hfraction]
  refine ⟨machine_eq_ok.mpr ⟨_, parseRfc3339_eq_ok.mpr ⟨hsize, stamp, h, hreal, rfl⟩, rfl⟩, ?_, ?_⟩
  · have hparts : (ExactInstant.fractionDigits
        ((stamp.instant text).sourceLexeme.toList.drop 19)).toOption.getD ([], []) =
        (stamp.fraction, zone) := by
      change (ExactInstant.fractionDigits (text.toList.drop 19)).toOption.getD ([], []) = _
      rw [hpart]
      rfl
    exact {
      second := rfl
      leap := rfl
      fraction := hvalue
      offset := by
        unfold ExactInstant.whole
        dsimp only
        rw [hparts, hoffset]
        rfl
      digits := by
        unfold ExactInstant.whole
        dsimp only
        rw [hparts]
      source := rfl }
  · refine ⟨?_, ?_, fun hleap => hreal.leap (of_decide_eq_true hleap)⟩
    · rw [hvalue]
      exact stamp.fractionValue_nonneg
    · rw [hvalue]
      exact Stamp.fractionValue_lt_one (fraction_digits hpointed)

theorem rfc3339_of_read {text : String} {instant : Instant}
    (h : Machine.parseRfc3339 text = .ok instant) :
    text.utf8ByteSize ≤ maxTimestampBytes ∧
      ∃ stamp, Rfc3339 text.toList stamp ∧ stamp.Real ∧ instant = (stamp.instant text).whole := by
  obtain ⟨stored, hstored, rfl⟩ := machine_eq_ok.mp h
  obtain ⟨hsize, stamp, hstamp, hreal, rfl⟩ := parseRfc3339_eq_ok.mp hstored
  exact ⟨hsize, stamp, hstamp, hreal, rfl⟩

theorem sound_of_read {text : String} {instant : Instant}
    (h : Machine.parseRfc3339 text = .ok instant) : instant.Sound := by
  obtain ⟨hsize, stamp, hstamp, hreal, rfl⟩ := rfc3339_of_read h
  exact (read_of_rfc3339 hsize hstamp hreal).2.2

/-- The instant a text stands for: which texts are accepted, what is read from one, and
that reading it stays in the range of every machine integer. -/
structure InstantReading (text : String) : Prop where
  accepted : (∃ instant, Machine.parseRfc3339 text = .ok instant) ↔
    text.utf8ByteSize ≤ 4096 ∧ ∃ stamp, Rfc3339 text.toList stamp ∧ stamp.Real
  read : ∀ instant, Machine.parseRfc3339 text = .ok instant →
    ∃ stamp, Rfc3339 text.toList stamp ∧ stamp.Real ∧ Denotes text stamp instant
  inRange : ∃ result, Machine.parseRfc3339 text = Machine.lift result

/-- How two accepted instants compare. -/
structure Chronological (a b : Instant) : Prop where
  order : a.cmp b = compare a.elapsed b.elapsed
  eq : a.eq b = true ↔ a.elapsed = b.elapsed
  leap : a.leap = true → b.leap = false →
    (b.civilSecond ≤ a.civilSecond → b.cmp a = .lt) ∧
      (a.civilSecond < b.civilSecond → a.cmp b = .lt)

/-- **Exact instants.** -/
theorem exact_instants :
    (∀ text, InstantReading text) ∧
      (∀ text other a b, Machine.parseRfc3339 text = .ok a →
        Machine.parseRfc3339 other = .ok b → Chronological a b) ∧
      (∀ date : Calendar.Date, date.Real → date.year ≤ 9999 →
        date.next.Real ∧ date.next.number = date.number + 1 ∧
          (Machine.civilDays date.year date.month date.day) = .ok date.number) := by
  refine ⟨fun text => ⟨?_, ?_, ?_⟩, ?_, ?_⟩
  · constructor
    · rintro ⟨instant, h⟩
      obtain ⟨hsize, stamp, hstamp, hreal, -⟩ := rfc3339_of_read h
      exact ⟨hsize, stamp, hstamp, hreal⟩
    · rintro ⟨hsize, stamp, hstamp, hreal⟩
      exact ⟨_, (read_of_rfc3339 hsize hstamp hreal).1⟩
  · intro instant h
    obtain ⟨hsize, stamp, hstamp, hreal, rfl⟩ := rfc3339_of_read h
    exact ⟨stamp, hstamp, hreal, (read_of_rfc3339 hsize hstamp hreal).2.1⟩
  · exact ⟨_, Machine.parseRfc3339_eq text⟩
  · intro text other a b ha hb
    have horder := Instant.cmp_eq_elapsed (sound_of_read ha) (sound_of_read hb)
    refine ⟨horder, ?_, Instant.leap_between⟩
    rw [Instant.eq, decide_eq_true_iff, horder, compare_eq_iff_eq]
  · intro date hreal hyear
    exact ⟨Calendar.real_next hreal, Calendar.number_next hreal,
      Machine.civilDays_eq hyear hreal.month_pos hreal.month_le
        (hreal.day_le.trans (Calendar.monthDays_le _ _))⟩

end Domain
end Glaux
