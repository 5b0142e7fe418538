import Glaux.Domain.Calendar
import Glaux.Domain.Instant

/-!
# The instant parser stays in range

On every text the parser with machine integers computes what `ExactInstant.parseRfc3339`
does, and the fields it keeps beside are read from the source.
-/

namespace Glaux
namespace Domain
namespace Machine

open Library Library.Machine

theorem fits_u32 {ε : Type} {n : Int} (hn : 0 ≤ n) (hle : n ≤ 2 ^ 31) :
    (Width.u32.fits n : Run ε Unit) = .ok () :=
  Width.fits_of hn (hle.trans (by decide))

theorem fits_i64 {ε : Type} {n : Int} (hle : |n| ≤ 2 ^ 62) :
    (Width.i64.fits n : Run ε Unit) = .ok () := by
  have hbounds := abs_le.mp hle
  exact Width.fits_of (le_trans (by decide) hbounds.1) (hbounds.2.trans (by decide))

/-! ### Digits -/

theorem digit_le {c : Char} (h : c.isDigit = true) :
    '0'.toNat ≤ c.toNat ∧ ExactNumber.digit c ≤ 9 := by
  have hdigits : ('0'.toNat ≤ c.toNat) ∧ c.toNat ≤ 57 := by
    simpa [Char.isDigit, Char.le_def, UInt32.le_iff_toNat_le] using h
  have hzero : '0'.toNat = 48 := rfl
  refine ⟨hdigits.1, ?_⟩
  unfold ExactNumber.digit
  omega

/-- Four digits stay below ten thousand. -/
theorem foldlM_digits (part : List Char) (value k : Nat) (hvalue : value < 10 ^ k)
    (hk : k + part.length ≤ 4) :
    part.foldlM digitStep value =
        lift (part.foldlM (fun value c =>
          if c.isDigit then .ok (value * 10 + ExactNumber.digit c)
          else .error .syntaxError) value) ∧
      ∀ n, part.foldlM (fun value c =>
          if c.isDigit then (.ok (value * 10 + ExactNumber.digit c) : Except TimeError Nat)
          else .error .syntaxError) value = .ok n → n < 10 ^ (k + part.length) := by
  induction part generalizing value k with
  | nil =>
      refine ⟨rfl, fun n h => ?_⟩
      obtain rfl : value = n := Except.ok.inj h
      exact hvalue
  | cons c part ih =>
      rw [List.length_cons] at hk ⊢
      rw [List.foldlM_cons, List.foldlM_cons]
      by_cases hc : c.isDigit = true
      · obtain ⟨hzero, hdigit⟩ := digit_le hc
        have hsmall : (10 : Nat) ^ (k + 1) ≤ 10 ^ 4 := Nat.pow_le_pow_right (by decide) (by omega)
        have hnext : value * 10 + ExactNumber.digit c < 10 ^ (k + 1) := by
          rw [Nat.pow_succ]
          omega
        have hchar : c.toNat ≤ 57 := by
          have hnine : c.toNat - '0'.toNat ≤ 9 := hdigit
          have hzero' : '0'.toNat = 48 := rfl
          omega
        obtain ⟨hrun, hbound⟩ := ih _ _ hnext (by omega)
        have hstep : digitStep value c = .ok (value * 10 + ExactNumber.digit c) := by
          unfold digitStep
          rw [if_pos hc, Width.fits_of (w := Width.u8) (by change 0 ≤ _; omega)
            (by change _ ≤ 255; omega), ok_bind, fits_u32 (by omega) (by omega), ok_bind,
            fits_u32 (by omega) (by omega), ok_bind]
        rw [hstep, if_pos hc, ok_bind, ok_bind, hrun]
        refine ⟨rfl, fun n h => ?_⟩
        have := hbound n h
        rwa [show k + (part.length + 1) = k + 1 + part.length by omega]
      · rw [digitStep, if_neg hc, if_neg hc]
        exact ⟨rfl, fun n h => by cases h⟩

theorem digits_eq {part : List Char} (h : part.length ≤ 4) :
    digits part = lift (ExactInstant.digits part) :=
  (foldlM_digits part 0 0 (by decide) (by omega)).1

theorem digits_lt {part : List Char} {n : Nat} (h : part.length ≤ 4)
    (hn : ExactInstant.digits part = .ok n) : n < 10 ^ part.length := by
  have hbound := (foldlM_digits part 0 0 (by decide) (by omega)).2 n hn
  rwa [Nat.zero_add] at hbound

/-! ### Days -/

theorem daysBeforeYear_eq {year : Nat} (hyear : year ≤ 9999) :
    daysBeforeYear year = .ok (Domain.daysBeforeYear year) := by
  have hbounds := Calendar.daysBeforeYear_bounds year
  unfold daysBeforeYear leapDaysBefore
  cases year with
  | zero => rfl
  | succ prior =>
      have hless : prior / 100 ≤ prior / 4 := Nat.div_le_div_left (by decide) (by decide)
      rw [Calendar.daysBeforeYear_of_pos] at hbounds ⊢
      rw [if_neg (Nat.succ_ne_zero prior)]
      dsimp only
      rw [Nat.add_sub_cancel, fits_u32 (by omega) (by omega), ok_bind,
        fits_u32 (by omega) (by omega), ok_bind, fits_u32 (by omega) (by omega), ok_bind,
        fits_u32 (by omega) (by omega), ok_bind, ok_bind, fits_i64 (by rw [abs_le]; omega),
        ok_bind, fits_i64 (by rw [abs_le]; push_cast at hbounds ⊢; omega), ok_bind]
      push_cast
      rfl

theorem foldlM_months (year : Nat) {month : Nat} (hpos : 1 ≤ month) (hle : month ≤ 12) :
    ((List.range month).drop 1).foldlM (monthStep year) 0 =
      .ok (Calendar.daysBefore year month) := by
  induction month, hpos using Nat.le_induction with
  | base => rfl
  | succ month hpos ih =>
      have hbounds := Calendar.daysBefore_bounds year hpos
      have hdays := Calendar.monthDays_le year month
      rw [List.range_succ, List.drop_append_of_le_length (by simpa using hpos),
        List.foldlM_append, ih (by omega), Calendar.daysBefore_succ year hpos, ok_bind,
        List.foldlM_cons, monthStep, fits_i64 (by rw [abs_le]; omega)]
      rfl

theorem civilDays_eq {year month day : Nat} (hyear : year ≤ 9999) (hpos : 1 ≤ month)
    (hle : month ≤ 12) (hday : day ≤ 31) :
    civilDays year month day = .ok (Domain.civilDays year month day) := by
  have hyears := Calendar.daysBeforeYear_bounds year
  have hmonths := Calendar.daysBefore_bounds year hpos
  have hepoch : Domain.daysBeforeYear 1970 = 719528 := by decide
  have hnumber : Domain.civilDays year month day = Domain.daysBeforeYear year -
      Domain.daysBeforeYear 1970 + Calendar.daysBefore year month + day - 1 := rfl
  unfold civilDays
  rw [daysBeforeYear_eq hyear, ok_bind, daysBeforeYear_eq (by decide), ok_bind, hnumber, hepoch,
    foldlM_months year hpos hle, fits_i64 (by rw [abs_le]; omega), ok_bind, ok_bind,
    fits_i64 (by rw [abs_le]; omega), ok_bind, fits_i64 (by rw [abs_le]; omega), ok_bind,
    fits_i64 (by rw [abs_le]; omega), ok_bind]

theorem civilDays_bounds {year month day : Nat} (hyear : year ≤ 9999) (hpos : 1 ≤ month)
    (hle : month ≤ 12) (hday : day ≤ 31) : |Domain.civilDays year month day| ≤ 2 ^ 23 := by
  have hyears := Calendar.daysBeforeYear_bounds year
  have hmonths := Calendar.daysBefore_bounds year hpos
  have hepoch : Domain.daysBeforeYear 1970 = 719528 := by decide
  have hnumber : Domain.civilDays year month day = Domain.daysBeforeYear year -
      Domain.daysBeforeYear 1970 + Calendar.daysBefore year month + day - 1 := rfl
  rw [hnumber, hepoch, abs_le]
  omega

theorem listedLeap_eq (civil : Int) {dates : List (Nat × Nat × Nat)}
    (h : ∀ date ∈ dates, date.1 ≤ 9999 ∧ 1 ≤ date.2.1 ∧ date.2.1 ≤ 12 ∧ date.2.2 ≤ 31) :
    listedLeap civil dates = .ok (dates.any fun date =>
      Domain.civilDays date.1 date.2.1 date.2.2 * 86400 + 86399 = civil) := by
  induction dates with
  | nil => rfl
  | cons date dates ih =>
      obtain ⟨hyear, hpos, hle, hday⟩ := h date List.mem_cons_self
      have hbounds := abs_le.mp (civilDays_bounds hyear hpos hle hday)
      rw [listedLeap, civilDays_eq hyear hpos hle hday, ok_bind,
        fits_i64 (by rw [abs_le]; omega), ok_bind, fits_i64 (by rw [abs_le]; omega), ok_bind,
        ih fun date hdate => h date (List.mem_cons_of_mem _ hdate), List.any_cons]
      split_ifs with heq
      · rw [decide_eq_true heq, Bool.true_or]
      · rw [decide_eq_false heq, Bool.false_or]

/-! ### The parts of a text -/

theorem take_drop_slice {bytes : List Char} {start stop : Nat} (h : start ≤ stop)
    (hstop : stop ≤ bytes.length) :
    (slice bytes start stop : Run TimeError (List Char)) =
      .ok ((bytes.drop start).take (stop - start)) := by
  rw [slice, if_pos ⟨h, hstop⟩, List.drop_take]

theorem field_eq {bytes : List Char} {start stop : Nat} (h : start ≤ stop)
    (hstop : stop ≤ bytes.length) (hfour : stop - start ≤ 4) :
    field bytes start stop =
      lift (ExactInstant.digits ((bytes.drop start).take (stop - start))) := by
  unfold field
  rw [take_drop_slice h hstop, ok_bind]
  exact digits_eq (by rw [List.length_take]; omega)

theorem mark_eq {bytes expected : List Char} {pos : Nat} (hpos : pos < bytes.length) :
    mark bytes pos expected =
      if expected.any (fun c => bytes[pos]? = some c) then .ok () else refuse .syntaxError := by
  unfold mark index
  rw [List.getElem?_eq_getElem hpos]
  simp only [ok_bind, Option.some.injEq, List.any_eq_true, decide_eq_true_eq]
  by_cases h : bytes[pos] ∈ expected
  · rw [if_pos h, if_pos ⟨_, h, rfl⟩]
  · rw [if_neg h, if_neg]
    rintro ⟨c, hc, rfl⟩
    exact h hc

theorem fractionSpan_eq (front rest : List Char) (hfront : front.length = 19)
    (hsize : (front ++ rest).length ≤ maxTimestampBytes) :
    fractionSpan (front ++ rest) =
      lift ((fun part => (if part.1.length = 0 then 19 else 20, part.1.length,
        (front ++ rest).length - part.2.length)) <$> ExactInstant.fractionDigits rest) := by
  have hhead := getElem?_front front rest
  rw [hfront] at hhead
  unfold fractionSpan
  rw [hhead]
  cases rest with
  | nil => simp [ExactInstant.fractionDigits, hfront]
  | cons c rest =>
      have hlength : front.length + (rest.length + 1) ≤ 4096 := by
        simpa [maxTimestampBytes] using hsize
      rw [List.head?_cons, ExactInstant.fractionDigits]
      by_cases hpoint : c = '.'
      · have hmoved : front ++ c :: rest = (front ++ [c]) ++ rest := by simp
        have hskip := skipDigits_eq (ε := TimeError) (front ++ [c]) rest
          (by rw [← hmoved]; exact hsize)
        rw [← hmoved, List.length_append, List.length_singleton, hfront] at hskip
        have hsplit := congrArg List.length (ExactNumber.span_append rest)
        rw [List.length_append] at hsplit
        rw [if_pos (by rw [hpoint]), if_pos hpoint, fits_usize (by omega) (by omega), ok_bind,
          hskip, ok_bind]
        generalize (rest.span Char.isDigit) = digits at hsplit ⊢
        rw [fits_usize (by omega) (by omega), ok_bind, Nat.add_sub_cancel_left]
        by_cases hempty : digits.1.length = 0
        · simp [hempty, refuse]
        · have htotal : (front ++ c :: rest).length - digits.2.length =
              20 + digits.1.length := by
            simp only [List.length_append, List.length_cons]
            omega
          rw [if_neg hempty]
          simp only [hempty, if_false]
          rw [← htotal]
          simpa using hempty
      · rw [if_neg (by simpa using hpoint), if_neg hpoint]
        simp [hfront]

/-- An offset of `-00:00` is not known to be one. -/
def offsetKnown (rest : List Char) (seconds : Int) : Bool :=
  rest.length == 6 && !(rest.head? == some '-' && seconds == 0)

theorem offset_numeric (sign h1 h2 colon m1 m2 : Char) :
    offset [sign, h1, h2, colon, m1, m2] =
      lift ((fun seconds => (seconds, offsetKnown [sign, h1, h2, colon, m1, m2] seconds)) <$>
        ExactInstant.offsetSeconds [sign, h1, h2, colon, m1, m2]) := by
  have hzulu : ¬ ([sign, h1, h2, colon, m1, m2] = ['Z'] ∨ [sign, h1, h2, colon, m1, m2] = ['z']) := by
    simp
  rw [offset, ExactInstant.offsetSeconds, if_neg hzulu]
  by_cases hshape : (sign = '+' ∨ sign = '-') ∧ colon = ':'
  · have hshape' : [sign, h1, h2, colon, m1, m2].length = 6 ∧
        ([sign, h1, h2, colon, m1, m2][0]? = some '+' ∨
          [sign, h1, h2, colon, m1, m2][0]? = some '-') ∧
        [sign, h1, h2, colon, m1, m2][3]? = some ':' := by
      simpa using hshape
    rw [if_pos hshape, if_pos hshape']
    change (digits [h1, h2] >>= _) = lift (_ <$> (ExactInstant.digits [h1, h2] >>= fun hours =>
      ExactInstant.digits [m1, m2] >>= _))
    have hpair : ∀ a b : Char, [a, b].length ≤ 4 := fun _ _ => Nat.le_of_ble_eq_true rfl
    rw [digits_eq (hpair h1 h2), digits_eq (hpair m1 m2)]
    cases hhours : ExactInstant.digits [h1, h2] with
    | error e => rfl
    | ok hours =>
        cases hminutes : ExactInstant.digits [m1, m2] with
        | error e => rfl
        | ok minutes =>
            simp only [lift_ok, ok_bind]
            by_cases hrange : hours > 23 ∨ minutes > 59
            · rw [if_pos hrange, if_pos hrange]
              rfl
            · rw [if_neg hrange, if_neg hrange, fits_u32 (by omega) (by omega), ok_bind,
                fits_u32 (by omega) (by omega), ok_bind, fits_u32 (by omega) (by omega), ok_bind,
                fits_i32 (by rw [abs_le]; omega), ok_bind, fits_i32 (by rw [abs_le]; omega),
                ok_bind]
              by_cases hminus : sign = '-'
              · have hzero : (hours * 3600 + minutes * 60 : Int) = 0 ↔
                    -(minutes * 60 : Int) + -(hours * 3600) = 0 := by omega
                simpa [hminus, offsetKnown] using hzero
              · simp [hminus, offsetKnown]
  · have hshape' : ¬ ([sign, h1, h2, colon, m1, m2].length = 6 ∧
        ([sign, h1, h2, colon, m1, m2][0]? = some '+' ∨
          [sign, h1, h2, colon, m1, m2][0]? = some '-') ∧
        [sign, h1, h2, colon, m1, m2][3]? = some ':') := by
      simpa using hshape
    rw [if_neg hshape, if_neg hshape']
    rfl

theorem offset_eq (rest : List Char) :
    offset rest = lift ((fun seconds => (seconds, offsetKnown rest seconds)) <$>
      ExactInstant.offsetSeconds rest) := by
  rcases rest with _ | ⟨a, _ | ⟨b, _ | ⟨c, _ | ⟨d, _ | ⟨e, _ | ⟨f, _ | ⟨g, rest⟩⟩⟩⟩⟩⟩⟩
  · rfl
  · have hlength : ¬ ([a].length = 6 ∧ ([a][0]? = some '+' ∨ [a][0]? = some '-') ∧
        [a][3]? = some ':') := by
      simp
    rw [offset, ExactInstant.offsetSeconds]
    by_cases hzulu : a = 'Z' ∨ a = 'z'
    · rw [if_pos hzulu, if_pos (by simpa using hzulu)]
      rfl
    · rw [if_neg hzulu, if_neg (by simpa using hzulu), if_neg hlength]
      rfl
  · simp [offset, ExactInstant.offsetSeconds, refuse, lift, Except.mapError]
  · simp [offset, ExactInstant.offsetSeconds, refuse, lift, Except.mapError]
  · simp [offset, ExactInstant.offsetSeconds, refuse, lift, Except.mapError]
  · simp [offset, ExactInstant.offsetSeconds, refuse, lift, Except.mapError]
  · exact offset_numeric a b c d e f
  · simp [offset, ExactInstant.offsetSeconds, refuse, lift, Except.mapError]

theorem offsetSeconds_bounds {rest : List Char} {seconds : Int}
    (h : ExactInstant.offsetSeconds rest = .ok seconds) : |seconds| ≤ 86400 := by
  unfold ExactInstant.offsetSeconds at h
  split at h
  · cases h
    decide
  · split at h
    · obtain ⟨hours, -, h₁⟩ := bind_eq_ok.mp h
      obtain ⟨minutes, -, h₂⟩ := bind_eq_ok.mp h₁
      split at h₂
      · cases h₂
      · rename_i hrange
        have hseconds := Except.ok.inj h₂
        rw [← hseconds, abs_le]
        split <;> omega
    · cases h

theorem civilSecond_eq {year month day hour minute second : Nat} {offset : Int}
    (hyear : year ≤ 9999) (hpos : 1 ≤ month) (hle : month ≤ 12) (hday : day ≤ 31)
    (hhour : hour ≤ 23) (hminute : minute ≤ 59) (hoffset : |offset| ≤ 86400) :
    civilSecond year month day hour minute second offset =
      .ok (Domain.civilDays year month day * 86400
        + (hour * 3600 + minute * 60 + min second 59 : Nat) - offset) := by
  have hdays := abs_le.mp (civilDays_bounds hyear hpos hle hday)
  have hbounds := abs_le.mp hoffset
  have hclock : hour * 3600 + minute * 60 + min second 59 ≤ 86400 := by omega
  unfold civilSecond
  rw [civilDays_eq hyear hpos hle hday, ok_bind]
  generalize Domain.civilDays year month day = days at hdays ⊢
  rw [fits_i64 (by rw [abs_le]; omega), ok_bind, fits_u32 (by omega) (by omega), ok_bind,
    fits_u32 (by omega) (by omega), ok_bind, fits_u32 (by omega) (by omega), ok_bind]
  generalize hour * 3600 + minute * 60 + min second 59 = clock at hclock ⊢
  rw [fits_u32 (by omega) (by omega), ok_bind, fits_i64 (by rw [abs_le]; omega), ok_bind,
    fits_i64 (by rw [abs_le]; omega), ok_bind]

theorem fractionDigits_eq_ok {text : List Char} {part : List Char × List Char} :
    ExactInstant.fractionDigits text = .ok part ↔ ExactNumber.fractionPart text = .ok part := by
  cases text with
  | nil => simp [ExactInstant.fractionDigits, ExactNumber.fractionPart]
  | cons c text =>
      rw [ExactInstant.fractionDigits, ExactNumber.fractionPart]
      split
      · dsimp only
        split
        · simp
        · rw [Except.ok.injEq, Except.ok.injEq]
      · rw [Except.ok.injEq, Except.ok.injEq]

/-- The digits are found again where the positions say. -/
theorem fractionText_eq {front pointed fraction : List Char} (rest : List Char) (hfront : front.length = 19)
    (hfraction : Json.Fraction pointed fraction)
    (hsize : (front ++ (pointed ++ rest)).length ≤ maxTimestampBytes) :
    fractionText (front ++ (pointed ++ rest)) (if fraction.length = 0 then 19 else 20)
        fraction.length =
      .ok (if fraction.length = 0 then "0" else "0." ++ String.ofList fraction) := by
  unfold fractionText
  cases hfraction with
  | absent => rfl
  | written h =>
      have hempty : fraction.length ≠ 0 := fun hzero => h.1 (List.eq_nil_of_length_eq_zero hzero)
      have hlength : 20 + fraction.length ≤ 4096 := by
        simp only [List.length_append, List.length_cons, maxTimestampBytes, hfront] at hsize
        omega
      have hparts : front ++ ('.' :: fraction ++ rest) = (front ++ ['.']) ++ (fraction ++ rest) := by
        simp
      have hslice := slice_eq (ε := TimeError) hparts
      rw [List.length_append, hfront, List.length_singleton] at hslice
      rw [if_neg hempty, if_neg hempty, if_neg hempty, fits_usize (by omega) (by omega), ok_bind,
        hslice, ok_bind]

theorem positiveLeapDates_real : ∀ date ∈ positiveLeapDates,
    date.1 ≤ 9999 ∧ 1 ≤ date.2.1 ∧ date.2.1 ≤ 12 ∧ date.2.2 ≤ 31 := by
  decide

end Machine

namespace ExactInstant

/-- The number of the retained decimal. -/
def fractionNumber (instant : ExactInstant) : ExactNumber :=
  (ExactNumber.parseJsonNumber instant.fraction).toOption.getD ⟨0, .decimal instant.fraction⟩

/-- The fields beside, found again in the source. -/
def whole (instant : ExactInstant) : Instant :=
  let part := (fractionDigits (instant.sourceLexeme.toList.drop 19)).toOption.getD ([], [])
  let seconds := (offsetSeconds part.2).toOption.getD 0
  ⟨instant.civilSecond, instant.leapSecond, instant.fractionNumber, instant.sourceLexeme,
    if part.1.length = 0 then 19 else 20, part.1.length, seconds,
    Machine.offsetKnown part.2 seconds⟩

end ExactInstant

namespace Machine

open Library Library.Machine

/-- From the fields on: the same refusals, and the same instant. -/
theorem parseFields_eq {text : String} {year month day hour minute second : Nat}
    (hsize : text.utf8ByteSize ≤ maxTimestampBytes) (hlength : 20 ≤ text.toList.length)
    (hyear : year ≤ 9999) :
    parseFields text year month day hour minute second =
      lift (ExactInstant.whole <$>
        if ¬ (1 ≤ month ∧ month ≤ 12) ∨ day = 0 ∨ day > monthDays year month ∨ hour > 23
            ∨ minute > 59 ∨ second > 60 then .error .calendar
        else do
          let (fraction, rest) ← ExactInstant.fractionDigits (text.toList.drop 19)
          let offset ← ExactInstant.offsetSeconds rest
          let leap : Bool := second = 60
          let civilSecond : Int := Domain.civilDays year month day * 86400
            + (hour * 3600 + minute * 60 + min second 59 : Nat) - offset
          if leap ∧ ¬ positiveLeapDates.any (fun date =>
              Domain.civilDays date.1 date.2.1 date.2.2 * 86400 + 86399 = civilSecond) then
            .error .unrecognizedLeapSecond
          else
            let fractionText := if fraction.length = 0 then "0" else "0." ++ String.ofList fraction
            match ExactNumber.parseJsonNumber fractionText with
            | .error _ => .error .syntaxError
            | .ok _ => .ok ⟨civilSecond, leap, fractionText, text⟩) := by
  have hchars : (text.toList.take 19) ++ text.toList.drop 19 = text.toList :=
    List.take_append_drop 19 _
  have hfront : (text.toList.take 19).length = 19 := by
    rw [List.length_take]
    omega
  have hbytes : text.toList.length ≤ maxTimestampBytes :=
    (length_le_utf8ByteSize text).trans hsize
  unfold parseFields
  dsimp only
  by_cases hcalendar : ¬ (1 ≤ month ∧ month ≤ 12) ∨ day = 0 ∨ day > monthDays year month
      ∨ hour > 23 ∨ minute > 59 ∨ second > 60
  · rw [if_pos hcalendar, if_pos hcalendar]
    rfl
  rw [if_neg hcalendar, if_neg hcalendar]
  have hspan := fractionSpan_eq _ (text.toList.drop 19) hfront (by rw [hchars]; exact hbytes)
  rw [hchars] at hspan
  rw [hspan]
  cases hpart : ExactInstant.fractionDigits (text.toList.drop 19) with
  | error e => rfl
  | ok part =>
      obtain ⟨fraction, rest⟩ := part
      obtain ⟨pointed, hpointed, hdrop⟩ :=
        ExactNumber.fractionPart_eq_ok (fractionDigits_eq_ok.mp hpart)
      have hrest : text.toList.drop (text.toList.length - rest.length) = rest := by
        rw [← hchars, hdrop, ← List.append_assoc]
        exact List.drop_left' (by simp only [List.length_append]; omega)
      have htext := fractionText_eq rest hfront hpointed
        (by rw [← hdrop, hchars]; exact hbytes)
      rw [← hdrop, hchars] at htext
      simp only [map_ok, lift_ok, ok_bind]
      rw [hrest, offset_eq]
      cases hoffset : ExactInstant.offsetSeconds rest with
      | error e => rfl
      | ok seconds =>
          have hday := (Calendar.monthDays_le year month)
          simp only [not_or, not_and_or, not_not] at hcalendar
          obtain ⟨⟨hpos, hle⟩, hdaypos, hdayle, hhour, hminute, hsecond⟩ := hcalendar
          simp only [map_ok, lift_ok, ok_bind]
          rw [civilSecond_eq hyear hpos hle (by omega) (by omega) (by omega)
            (offsetSeconds_bounds hoffset), ok_bind, htext,
            listedLeap_eq _ positiveLeapDates_real]
          generalize (Domain.civilDays year month day * 86400
            + (hour * 3600 + minute * 60 + min second 59 : Nat) - seconds) = civil
          generalize (positiveLeapDates.any fun date =>
            Domain.civilDays date.1 date.2.1 date.2.2 * 86400 + 86399 = civil) = listed
          generalize (if fraction.length = 0 then "0" else "0." ++ String.ofList fraction) =
            decimal
          have hread : (mapRefused (fun _ => .syntaxError) (parseJsonNumber decimal) >>= fun number =>
              (.ok ⟨civil, decide (second = 60), number, text,
                if fraction.length = 0 then 19 else 20, fraction.length, seconds,
                offsetKnown rest seconds⟩ : Run TimeError Instant)) =
              lift (ExactInstant.whole <$> match ExactNumber.parseJsonNumber decimal with
                | .error _ => .error .syntaxError
                | .ok _ => .ok ⟨civil, decide (second = 60), decimal, text⟩) := by
            rw [parseJsonNumber_eq, mapRefused_lift]
            cases hnumber : ExactNumber.parseJsonNumber decimal with
            | error e => rfl
            | ok number =>
                have hwhole : ExactInstant.whole ⟨civil, decide (second = 60), decimal, text⟩ =
                    ⟨civil, decide (second = 60), number, text,
                      if fraction.length = 0 then 19 else 20, fraction.length, seconds,
                      offsetKnown rest seconds⟩ := by
                  simp [ExactInstant.whole, ExactInstant.fractionNumber, hpart, hoffset, hnumber,
                    Except.toOption]
                simp only [map_ok, lift_ok, hwhole]
                rfl
          simp only [ok_bind, hread]
          by_cases hleap : second = 60
          · cases listed with
            | true => simp [hleap]
            | false =>
                simp [hleap]
                rfl
          · simp [hleap]

/-- **No overflow.**  On every text the machine computes what the exact parser does. -/
theorem parseRfc3339_eq (text : String) :
    parseRfc3339 text = lift (ExactInstant.whole <$> ExactInstant.parseRfc3339 text) := by
  unfold parseRfc3339 ExactInstant.parseRfc3339
  dsimp only
  by_cases hlimit : text.utf8ByteSize > maxTimestampBytes
  · rw [if_pos hlimit, if_pos hlimit]
    rfl
  rw [if_neg hlimit, if_neg hlimit]
  by_cases hshort : text.toList.length < 20 ∨ text.toList.any (fun c => c.toNat ≥ 128)
  · rw [if_pos hshort, if_pos]
    · rfl
    · rcases hshort with h | h
      · exact .inl h
      · exact .inr (.inl h)
  obtain ⟨hlength, hascii⟩ := not_or.mp hshort
  have hlength : 20 ≤ text.toList.length := Nat.le_of_not_lt hlength
  have hmark : ∀ pos c, pos < 20 → mark text.toList pos [c] =
      if text.toList[pos]? = some c then .ok () else refuse .syntaxError := by
    intro pos c hpos
    rw [mark_eq (by omega)]
    simp
  have hdate : mark text.toList 10 ['T', 't'] =
      if text.toList[10]? = some 'T' ∨ text.toList[10]? = some 't' then .ok ()
      else refuse .syntaxError := by
    rw [mark_eq (by omega)]
    simp
  rw [if_neg hshort, hmark 4 _ (by decide), hmark 7 _ (by decide), hdate, hmark 13 _ (by decide),
    hmark 16 _ (by decide)]
  by_cases hmarks : text.toList[4]? = some '-' ∧ text.toList[7]? = some '-' ∧
      (text.toList[10]? = some 'T' ∨ text.toList[10]? = some 't') ∧
      text.toList[13]? = some ':' ∧ text.toList[16]? = some ':'
  · obtain ⟨h4, h7, h10, h13, h16⟩ := hmarks
    rw [if_pos h4, if_pos h7, if_pos h10, if_pos h13, if_pos h16]
    simp only [ok_bind]
    have hgood : ¬ (text.toList.length < 20 ∨ text.toList.any (fun c => c.toNat ≥ 128) ∨
        text.toList[4]? ≠ some '-' ∨ text.toList[7]? ≠ some '-' ∨
        ¬ (text.toList[10]? = some 'T' ∨ text.toList[10]? = some 't') ∨
        text.toList[13]? ≠ some ':' ∨ text.toList[16]? ≠ some ':') := by
      rintro (h | h | h | h | h | h | h)
      · omega
      · exact hascii h
      · exact h h4
      · exact h h7
      · exact h h10
      · exact h h13
      · exact h h16
    rw [if_neg hgood]
    rw [field_eq (by decide) (by omega) (by decide), field_eq (by decide) (by omega) (by decide),
      field_eq (by decide) (by omega) (by decide), field_eq (by decide) (by omega) (by decide),
      field_eq (by decide) (by omega) (by decide), field_eq (by decide) (by omega) (by decide)]
    simp only [Nat.sub_zero, List.drop_zero, Nat.reduceSub]
    cases hyear : ExactInstant.digits (text.toList.take 4) with
    | error e => rfl
    | ok year =>
    cases hmonth : ExactInstant.digits ((text.toList.drop 5).take 2) with
    | error e => rfl
    | ok month =>
    cases hday : ExactInstant.digits ((text.toList.drop 8).take 2) with
    | error e => rfl
    | ok day =>
    cases hhour : ExactInstant.digits ((text.toList.drop 11).take 2) with
    | error e => rfl
    | ok hour =>
    cases hminute : ExactInstant.digits ((text.toList.drop 14).take 2) with
    | error e => rfl
    | ok minute =>
    cases hsecond : ExactInstant.digits ((text.toList.drop 17).take 2) with
    | error e => rfl
    | ok second =>
        have hfour : (text.toList.take 4).length = 4 := by
          rw [List.length_take]
          omega
        have hbound := digits_lt (by omega) hyear
        rw [hfour] at hbound
        simp only [lift_ok, ok_bind]
        exact parseFields_eq (Nat.le_of_not_lt hlimit) hlength (Nat.le_of_lt_succ hbound)
  · have hbad : text.toList.length < 20 ∨ text.toList.any (fun c => c.toNat ≥ 128) ∨
        text.toList[4]? ≠ some '-' ∨ text.toList[7]? ≠ some '-' ∨
        ¬ (text.toList[10]? = some 'T' ∨ text.toList[10]? = some 't') ∨
        text.toList[13]? ≠ some ':' ∨ text.toList[16]? ≠ some ':' := by
      refine .inr (.inr ?_)
      simpa only [not_and_or] using hmarks
    rw [if_pos hbad]
    by_cases h4 : text.toList[4]? = some '-'
    · by_cases h7 : text.toList[7]? = some '-'
      · by_cases h10 : text.toList[10]? = some 'T' ∨ text.toList[10]? = some 't'
        · by_cases h13 : text.toList[13]? = some ':'
          · have h16 : ¬ text.toList[16]? = some ':' := fun h16 => hmarks ⟨h4, h7, h10, h13, h16⟩
            rw [if_pos h4, if_pos h7, if_pos h10, if_pos h13, if_neg h16]
            rfl
          · rw [if_pos h4, if_pos h7, if_pos h10, if_neg h13]
            rfl
        · rw [if_pos h4, if_pos h7, if_neg h10]
          rfl
      · rw [if_pos h4, if_neg h7]
        rfl
    · rw [if_neg h4]
      rfl

end Machine
end Domain
end Glaux
