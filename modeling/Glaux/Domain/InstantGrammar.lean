import Glaux.Domain.InstantMachine

/-!
# RFC 3339 texts

The grammar of an instant, the fields it writes, and which of them name an instant.
`ExactInstant.parseRfc3339` accepts these and no others.
-/

namespace Glaux
namespace Domain

open Library Library.Json

/-- So many digits, and the number they write. -/
structure Figures (width : Nat) (text : List Char) (number : Nat) : Prop where
  length : text.length = width
  digits : ∀ c ∈ text, c.isDigit = true
  number : decimal text = number

inductive ZoneText : List Char → Int → Prop
  | zulu {c : Char} (h : c = 'Z' ∨ c = 'z') : ZoneText [c] 0
  | numeric {sign : Char} {hours minutes : List Char} {h m : Nat}
      (hsign : sign = '+' ∨ sign = '-') (hhours : Figures 2 hours h)
      (hminutes : Figures 2 minutes m) (hle : h ≤ 23) (mle : m ≤ 59) :
      ZoneText (sign :: (hours ++ ':' :: minutes))
        (if sign = '-' then -(h * 3600 + m * 60 : Int) else h * 3600 + m * 60)

/-- The fields of a text: local date and time, and the offset in seconds. -/
structure Stamp where
  date : Calendar.Date
  hour : Nat
  minute : Nat
  second : Nat
  fraction : List Char
  offset : Int

inductive Rfc3339 : List Char → Stamp → Prop
  | intro {year month day hour minute second pointed fraction zone : List Char} {mark : Char}
      {y mo d h mi s : Nat} {offset : Int} (hyear : Figures 4 year y) (hmonth : Figures 2 month mo)
      (hday : Figures 2 day d) (hmark : mark = 'T' ∨ mark = 't') (hhour : Figures 2 hour h)
      (hminute : Figures 2 minute mi) (hsecond : Figures 2 second s)
      (hfraction : Fraction pointed fraction) (hzone : ZoneText zone offset) :
      Rfc3339 (year ++ '-' :: (month ++ '-' :: (day ++ mark :: (hour ++ ':' ::
        (minute ++ ':' :: (second ++ (pointed ++ zone)))))))
        ⟨⟨y, mo, d⟩, h, mi, s, fraction, offset⟩

namespace Stamp

/-- The UTC second, with a leap second in the slot of the second before it. -/
def civilSecond (stamp : Stamp) : Int :=
  stamp.date.number * 86400
    + (stamp.hour * 3600 + stamp.minute * 60 + min stamp.second 59 : Nat) - stamp.offset

/-- The last second of a day that a leap second follows. -/
def Leaps (second : Int) : Prop :=
  ∃ date ∈ positiveLeapDates, civilDays date.1 date.2.1 date.2.2 * 86400 + 86399 = second

/-- The fields name an instant. -/
structure Real (stamp : Stamp) : Prop where
  date : stamp.date.Real
  hour : stamp.hour ≤ 23
  minute : stamp.minute ≤ 59
  second : stamp.second ≤ 60
  leap : stamp.second = 60 → Leaps stamp.civilSecond

def fractionText (stamp : Stamp) : String :=
  if stamp.fraction.length = 0 then "0" else "0." ++ String.ofList stamp.fraction

/-- The instant of a stamp and of the text it was read from. -/
def instant (stamp : Stamp) (text : String) : ExactInstant :=
  ⟨stamp.civilSecond, stamp.second = 60, stamp.fractionText, text⟩

end Stamp

/-! ### Reading and writing fields -/

theorem digits_eq_ok {part : List Char} {n : Nat} :
    ExactInstant.digits part = .ok n ↔ (∀ c ∈ part, c.isDigit = true) ∧ decimal part = n := by
  have hfold : ∀ (part : List Char) (value : Nat),
      part.foldlM (fun value c =>
        if c.isDigit then (.ok (value * 10 + ExactNumber.digit c) : Except TimeError Nat)
        else .error .syntaxError) value = .ok n ↔
      (∀ c ∈ part, c.isDigit = true) ∧
        part.foldl (fun value c => value * 10 + ExactNumber.digit c) value = n := by
    intro part
    induction part with
    | nil =>
        intro value
        rw [List.foldlM_nil, pure_eq_ok, Except.ok.injEq]
        simp
    | cons c part ih =>
        intro value
        rw [List.foldlM_cons]
        by_cases hc : c.isDigit = true
        · rw [if_pos hc, ok_bind, ih]
          simp [hc]
        · rw [if_neg hc]
          simp [hc]
  have hnatural := ExactNumber.natural_eq_decimal part
  unfold ExactNumber.natural at hnatural
  rw [← hnatural]
  exact hfold part 0

theorem figures_iff {part : List Char} {n : Nat} :
    Figures part.length part n ↔ ExactInstant.digits part = .ok n :=
  ⟨fun h => digits_eq_ok.mpr ⟨h.digits, h.number⟩,
    fun h => ⟨rfl, (digits_eq_ok.mp h).1, (digits_eq_ok.mp h).2⟩⟩

theorem Figures.eq_ok {width n : Nat} {part : List Char} (h : Figures width part n) :
    ExactInstant.digits part = .ok n :=
  digits_eq_ok.mpr ⟨h.digits, h.number⟩

theorem Figures.two {n : Nat} {part : List Char} (h : Figures 2 part n) :
    ∃ a b, part = [a, b] :=
  List.length_eq_two.mp h.length

theorem Figures.four {n : Nat} {part : List Char} (h : Figures 4 part n) :
    ∃ a b c d, part = [a, b, c, d] := by
  have hlength := h.length
  rcases part with _ | ⟨a, _ | ⟨b, _ | ⟨c, _ | ⟨d, _ | ⟨e, rest⟩⟩⟩⟩⟩
  · cases hlength
  · cases hlength
  · cases hlength
  · cases hlength
  · exact ⟨a, b, c, d, rfl⟩
  · simp at hlength

/-- A list up to a mark, and what comes after. -/
theorem drop_mark {bytes : List Char} {pos : Nat} {c : Char} (h : bytes[pos]? = some c) :
    bytes.drop pos = c :: bytes.drop (pos + 1) := by
  obtain ⟨hpos, rfl⟩ := List.getElem?_eq_some_iff.mp h
  exact List.drop_eq_getElem_cons hpos

theorem drop_field (bytes : List Char) (pos width : Nat) :
    bytes.drop pos = (bytes.drop pos).take width ++ bytes.drop (pos + width) := by
  rw [← List.drop_drop, List.take_append_drop]

theorem offsetSeconds_eq_ok {rest : List Char} {seconds : Int} :
    ExactInstant.offsetSeconds rest = .ok seconds ↔ ZoneText rest seconds := by
  constructor
  · intro h
    unfold ExactInstant.offsetSeconds at h
    split at h
    · rename_i hzulu
      cases h
      rcases hzulu with rfl | rfl
      · exact .zulu (.inl rfl)
      · exact .zulu (.inr rfl)
    · split at h
      · rename_i hshape
        obtain ⟨hlength, hsign, hcolon⟩ := hshape
        obtain ⟨hours, hhours, h₁⟩ := bind_eq_ok.mp h
        obtain ⟨minutes, hminutes, h₂⟩ := bind_eq_ok.mp h₁
        split at h₂
        · cases h₂
        · rename_i hrange
          rcases rest with _ | ⟨a, _ | ⟨b, _ | ⟨c, _ | ⟨d, _ | ⟨e, _ | ⟨f, _ | ⟨g, rest⟩⟩⟩⟩⟩⟩⟩
          · cases hlength
          · cases hlength
          · cases hlength
          · cases hlength
          · cases hlength
          · cases hlength
          · obtain rfl : d = ':' := Option.some.inj hcolon
            have hseconds := Except.ok.inj h₂
            have hsign' : a = '+' ∨ a = '-' := by simpa using hsign
            have hzone : ZoneText (a :: ([b, c] ++ ':' :: [e, f]))
                (if a = '-' then -(hours * 3600 + minutes * 60 : Int)
                  else hours * 3600 + minutes * 60) :=
              .numeric hsign' (figures_iff.mpr hhours) (figures_iff.mpr hminutes) (by omega)
                (by omega)
            rw [← hseconds]
            simpa using hzone
          · simp at hlength
      · cases h
  · intro h
    cases h with
    | zulu h =>
        rcases h with rfl | rfl
        · rfl
        · rfl
    | @numeric sign hours minutes h m hsign hhours hminutes hle mle =>
        obtain ⟨a, b, rfl⟩ := hhours.two
        obtain ⟨c, d, rfl⟩ := hminutes.two
        have hshape : ¬ (sign :: ([a, b] ++ ':' :: [c, d]) = ['Z'] ∨
            sign :: ([a, b] ++ ':' :: [c, d]) = ['z']) := by simp
        have hmarks : (sign :: ([a, b] ++ ':' :: [c, d])).length = 6 ∧
            ((sign :: ([a, b] ++ ':' :: [c, d]))[0]? = some '+' ∨
              (sign :: ([a, b] ++ ':' :: [c, d]))[0]? = some '-') ∧
            (sign :: ([a, b] ++ ':' :: [c, d]))[3]? = some ':' := by
          simpa using hsign
        unfold ExactInstant.offsetSeconds
        rw [if_neg hshape, if_pos hmarks]
        change (ExactInstant.digits [a, b] >>= fun hours => ExactInstant.digits [c, d] >>= _) = _
        rw [hhours.eq_ok, hminutes.eq_ok, ok_bind, ok_bind, if_neg (by omega)]
        simp

/-! ### The fraction -/

theorem fraction_digits {pointed fraction : List Char} (h : Fraction pointed fraction) :
    ∀ c ∈ fraction, c.isDigit = true := by
  cases h with
  | absent => simp
  | written h => exact h.2

theorem decimal_cons (c : Char) (digits : List Char) :
    decimal (c :: digits) =
      decimal digits + 10 ^ digits.length * (c.toNat - '0'.toNat) := by
  unfold decimal
  rw [List.reverse_cons, List.map_append, Nat.ofDigits_append]
  simp

theorem decimal_lt {digits : List Char} (h : ∀ c ∈ digits, c.isDigit = true) :
    decimal digits < 10 ^ digits.length := by
  induction digits with
  | nil => decide
  | cons c digits ih =>
      obtain ⟨-, hdigit⟩ := Machine.digit_le (h c List.mem_cons_self)
      have hrest := ih fun d hd => h d (List.mem_cons_of_mem _ hd)
      unfold ExactNumber.digit at hdigit
      have hscaled : 10 ^ digits.length * (c.toNat - '0'.toNat) ≤ 10 ^ digits.length * 9 :=
        Nat.mul_le_mul_left _ hdigit
      rw [decimal_cons, List.length_cons, Nat.pow_succ]
      omega

namespace Stamp

def fractionValue (stamp : Stamp) : ℚ := decimal stamp.fraction / 10 ^ stamp.fraction.length

theorem fractionText_toList (stamp : Stamp) :
    stamp.fractionText.toList =
      '0' :: (if stamp.fraction.length = 0 then [] else '.' :: stamp.fraction) := by
  unfold fractionText
  split
  · rfl
  · simp

/-- The fraction is read as a number, between zero and one. -/
theorem parse_fractionText (stamp : Stamp) (hdigits : ∀ c ∈ stamp.fraction, c.isDigit = true)
    (hsize : (utf8 stamp.fraction).length + 2 ≤ maxNumericTextBytes) :
    ExactNumber.parseJsonNumber stamp.fractionText =
      .ok ⟨stamp.fractionValue, .decimal stamp.fractionText⟩ := by
  have hfraction : Fraction (if stamp.fraction.length = 0 then [] else '.' :: stamp.fraction)
      stamp.fraction := by
    split
    · rename_i hempty
      rw [List.eq_nil_of_length_eq_zero hempty]
      exact .absent
    · rename_i hempty
      exact .written ⟨fun hnil => hempty (by rw [hnil]; rfl), hdigits⟩
  have htoken : NumberToken stamp.fractionText.toList
      ⟨false, ['0'], stamp.fraction, false, []⟩ := by
    have h : NumberToken ((if false then ['-'] else []) ++ (['0'] ++
        ((if stamp.fraction.length = 0 then [] else '.' :: stamp.fraction) ++ [])))
        ⟨false, ['0'], stamp.fraction, false, []⟩ :=
      .intro (.inl rfl) hfraction .absent
    rw [fractionText_toList]
    simpa using h
  have hvalue : NumberParts.value ⟨false, ['0'], stamp.fraction, false, []⟩ =
      stamp.fractionValue := by
    have hzero : decimal ('0' :: stamp.fraction) = decimal stamp.fraction := by
      rw [decimal_cons, Nat.sub_self, Nat.mul_zero, Nat.add_zero]
    have hpower : NumberParts.power ⟨false, ['0'], stamp.fraction, false, []⟩ = 0 := rfl
    rw [NumberParts.value, hpower, List.singleton_append, hzero, NumberParts.sign, fractionValue,
      zero_sub, zpow_neg, zpow_natCast]
    simp [div_eq_mul_inv]
  have hbytes : stamp.fractionText.utf8ByteSize ≤ maxNumericTextBytes := by
    rw [utf8ByteSize_eq, fractionText_toList]
    split
    · decide
    · have hpoint : (utf8 ('0' :: '.' :: stamp.fraction)).length =
          (utf8 stamp.fraction).length + 2 := by
        simp only [utf8, List.flatMap_cons, List.length_append]
        have h0 : (String.utf8EncodeChar '0').length = 1 := by decide
        have hp : (String.utf8EncodeChar '.').length = 1 := by decide
        omega
      omega
  rw [← hvalue]
  exact ExactNumber.parseJsonNumber_eq_ok.mpr ⟨hbytes, _, htoken, Nat.zero_le _, rfl⟩

theorem fractionValue_nonneg (stamp : Stamp) : 0 ≤ stamp.fractionValue := by
  unfold fractionValue
  positivity

theorem fractionValue_lt_one {stamp : Stamp} (hdigits : ∀ c ∈ stamp.fraction, c.isDigit = true) :
    stamp.fractionValue < 1 := by
  have hlt := decimal_lt hdigits
  unfold fractionValue
  rw [div_lt_one (by positivity)]
  exact_mod_cast hlt

end Stamp

/-! ### The whole text -/

theorem zone_stops {zone : List Char} {offset : Int} (h : ZoneText zone offset) :
    ExactNumber.Stops zone ∧ zone.head? ≠ some '.' ∧ 1 ≤ zone.length := by
  cases h with
  | zulu h =>
      rcases h with rfl | rfl
      · exact ⟨fun c hc => (by cases hc; rfl), by simp, le_rfl⟩
      · exact ⟨fun c hc => (by cases hc; rfl), by simp, le_rfl⟩
  | numeric hsign _ _ _ _ =>
      rcases hsign with rfl | rfl
      · exact ⟨fun c hc => (by cases hc; rfl), by simp, by simp⟩
      · exact ⟨fun c hc => (by cases hc; rfl), by simp, by simp⟩

theorem digit_ascii {c : Char} (h : c.isDigit = true) : c.toNat < 128 := by
  obtain ⟨hzero, hle⟩ := Machine.digit_le h
  unfold ExactNumber.digit at hle
  have hzero' : '0'.toNat = 48 := rfl
  omega

theorem Figures.ascii {width n : Nat} {part : List Char} (h : Figures width part n) :
    ∀ c ∈ part, c.toNat < 128 :=
  fun c hc => digit_ascii (h.digits c hc)

theorem fraction_ascii {pointed fraction : List Char} (h : Fraction pointed fraction) :
    ∀ c ∈ pointed, c.toNat < 128 := by
  intro c hc
  cases h with
  | absent => cases hc
  | written h =>
      rcases List.mem_cons.mp hc with rfl | hc
      · decide
      · exact digit_ascii (h.2 c hc)

theorem zone_ascii {zone : List Char} {offset : Int} (h : ZoneText zone offset) :
    ∀ c ∈ zone, c.toNat < 128 := by
  intro c hc
  cases h with
  | zulu h =>
      obtain rfl := List.mem_singleton.mp hc
      rcases h with rfl | rfl <;> decide
  | numeric hsign hhours hminutes _ _ =>
      simp only [List.mem_cons, List.mem_append] at hc
      rcases hc with rfl | hc | rfl | hc
      · rcases hsign with rfl | rfl <;> decide
      · exact hhours.ascii c hc
      · decide
      · exact hminutes.ascii c hc

/-- A text of the grammar is ASCII. -/
theorem rfc3339_ascii {text : List Char} {stamp : Stamp} (h : Rfc3339 text stamp) :
    ∀ c ∈ text, c.toNat < 128 := by
  cases h with
  | intro hyear hmonth hday hmark hhour hminute hsecond hfraction hzone =>
      intro c hc
      simp only [List.mem_append, List.mem_cons] at hc
      rcases hc with hc | rfl | hc | rfl | hc | rfl | hc | rfl | hc | rfl | hc | hc | hc
      · exact hyear.ascii c hc
      · decide
      · exact hmonth.ascii c hc
      · decide
      · exact hday.ascii c hc
      · rcases hmark with rfl | rfl <;> decide
      · exact hhour.ascii c hc
      · decide
      · exact hminute.ascii c hc
      · decide
      · exact hsecond.ascii c hc
      · exact fraction_ascii hfraction c hc
      · exact zone_ascii hzone c hc

/-- A fraction leaves room for what stands around it. -/
theorem utf8_fraction_le {front pointed fraction zone : List Char} (hfront : 19 ≤ front.length)
    (hfraction : Fraction pointed fraction)
    (hsize : (utf8 (front ++ (pointed ++ zone))).length ≤ maxTimestampBytes) :
    (utf8 fraction).length + 2 ≤ maxNumericTextBytes := by
  have hlength := length_le_utf8 front
  have hparts : (utf8 fraction).length ≤ (utf8 pointed).length := by
    cases hfraction with
    | absent => exact le_rfl
    | written _ =>
        unfold utf8
        rw [List.flatMap_cons, List.length_append]
        omega
  rw [utf8_append, utf8_append, List.length_append, List.length_append] at hsize
  unfold maxTimestampBytes at hsize
  unfold maxNumericTextBytes
  omega

/-- What follows the seconds. -/
theorem rfc3339_tail {text : List Char} {stamp : Stamp} (h : Rfc3339 text stamp) :
    20 ≤ text.length ∧ ∃ pointed zone, text.drop 19 = pointed ++ zone ∧
      Fraction pointed stamp.fraction ∧ ZoneText zone stamp.offset := by
  cases h with
  | @intro _ _ _ _ _ _ pointed fraction zone _ _ _ _ _ _ _ _
      hyear hmonth hday _ hhour hminute hsecond hfraction hzone =>
      obtain ⟨a, b, c, e, rfl⟩ := hyear.four
      obtain ⟨a₁, b₁, rfl⟩ := hmonth.two
      obtain ⟨a₂, b₂, rfl⟩ := hday.two
      obtain ⟨a₃, b₃, rfl⟩ := hhour.two
      obtain ⟨a₄, b₄, rfl⟩ := hminute.two
      obtain ⟨a₅, b₅, rfl⟩ := hsecond.two
      obtain ⟨-, -, hnonempty⟩ := zone_stops hzone
      refine ⟨?_, pointed, zone, rfl, hfraction, hzone⟩
      simp only [List.length_append, List.length_cons, List.length_nil]
      omega

/-- The fraction of a short text is a number. -/
theorem rfc3339_fraction {text : String} {stamp : Stamp} (h : Rfc3339 text.toList stamp)
    (hsize : text.utf8ByteSize ≤ maxTimestampBytes) :
    ExactNumber.parseJsonNumber stamp.fractionText =
      .ok ⟨stamp.fractionValue, .decimal stamp.fractionText⟩ := by
  obtain ⟨hlength, pointed, zone, hdrop, hfraction, -⟩ := rfc3339_tail h
  have hfront : 19 ≤ (text.toList.take 19).length := by
    rw [List.length_take]
    omega
  have hwhole : text.toList.take 19 ++ (pointed ++ zone) = text.toList := by
    rw [← hdrop, List.take_append_drop]
  exact Stamp.parse_fractionText stamp (fraction_digits hfraction)
    (utf8_fraction_le hfront hfraction (by rw [hwhole, ← utf8ByteSize_eq]; exact hsize))

/-- The fraction and the zone are found after the seconds. -/
theorem rfc3339_parts {text : List Char} {stamp : Stamp} (h : Rfc3339 text stamp) :
    ∃ zone, ExactInstant.fractionDigits (text.drop 19) = .ok (stamp.fraction, zone) ∧
      ExactInstant.offsetSeconds zone = .ok stamp.offset := by
  obtain ⟨-, pointed, zone, hdrop, hfraction, hzone⟩ := rfc3339_tail h
  obtain ⟨hstops, hpoint, -⟩ := zone_stops hzone
  refine ⟨zone, ?_, offsetSeconds_eq_ok.mpr hzone⟩
  rw [hdrop]
  exact Machine.fractionDigits_eq_ok.mpr (ExactNumber.fractionPart_append hfraction hstops hpoint)

/-- **Accepted instants.**  A text is read exactly when it is short enough, follows the
grammar and its fields name an instant. -/
theorem parseRfc3339_eq_ok {text : String} {instant : ExactInstant} :
    ExactInstant.parseRfc3339 text = .ok instant ↔
      text.utf8ByteSize ≤ maxTimestampBytes ∧
        ∃ stamp, Rfc3339 text.toList stamp ∧ stamp.Real ∧ instant = stamp.instant text := by
  constructor
  · intro h
    unfold ExactInstant.parseRfc3339 at h
    dsimp only at h
    split at h
    · cases h
    rename_i hsize
    split at h
    · cases h
    rename_i hshape
    simp only [not_or, not_not] at hshape
    obtain ⟨hlength, -, h4, h7, h10, h13, h16⟩ := hshape
    obtain ⟨year, hyear, h₁⟩ := bind_eq_ok.mp h
    obtain ⟨month, hmonth, h₂⟩ := bind_eq_ok.mp h₁
    obtain ⟨day, hday, h₃⟩ := bind_eq_ok.mp h₂
    obtain ⟨hour, hhour, h₄⟩ := bind_eq_ok.mp h₃
    obtain ⟨minute, hminute, h₅⟩ := bind_eq_ok.mp h₄
    obtain ⟨second, hsecond, h₆⟩ := bind_eq_ok.mp h₅
    split at h₆
    · cases h₆
    rename_i hcalendar
    simp only [not_or, not_and_or, not_not] at hcalendar
    obtain ⟨⟨hpos, hle⟩, hdaypos, hdayle, hhourle, hminutele, hsecondle⟩ := hcalendar
    obtain ⟨⟨fraction, zone⟩, hfraction, h₇⟩ := bind_eq_ok.mp h₆
    obtain ⟨offset, hoffset, h₈⟩ := bind_eq_ok.mp h₇
    dsimp only at hoffset h₈
    split at h₈
    · cases h₈
    rename_i hleap
    obtain ⟨pointed, hpointed, hdrop⟩ :=
      ExactNumber.fractionPart_eq_ok (Machine.fractionDigits_eq_ok.mp hfraction)
    have hfigures : ∀ {pos width n : Nat}, pos + width ≤ 20 →
        ExactInstant.digits ((text.toList.drop pos).take width) = .ok n →
        Figures width ((text.toList.drop pos).take width) n := by
      intro pos width n hpos hdigits
      have hwidth : ((text.toList.drop pos).take width).length = width := by
        rw [List.length_take, List.length_drop]
        omega
      have hfigures := figures_iff.mpr hdigits
      rwa [hwidth] at hfigures
    obtain ⟨mark, hmark, h10⟩ : ∃ mark, (mark = 'T' ∨ mark = 't') ∧
        text.toList[10]? = some mark := by
      by_cases hupper : text.toList[10]? = some 'T'
      · exact ⟨'T', .inl rfl, hupper⟩
      · exact ⟨'t', .inr rfl, not_not.mp fun hlower => h10 ⟨hupper, hlower⟩⟩
    have hsplit : text.toList = (text.toList.drop 0).take 4 ++ '-' :: ((text.toList.drop 5).take 2
        ++ '-' :: ((text.toList.drop 8).take 2 ++ mark :: ((text.toList.drop 11).take 2 ++ ':' ::
        ((text.toList.drop 14).take 2 ++ ':' :: ((text.toList.drop 17).take 2 ++
        (pointed ++ zone)))))) := by
      rw [← hdrop, ← drop_field text.toList 17 2, ← drop_mark h16, ← drop_field text.toList 14 2,
        ← drop_mark h13, ← drop_field text.toList 11 2, ← drop_mark h10,
        ← drop_field text.toList 8 2, ← drop_mark h7, ← drop_field text.toList 5 2,
        ← drop_mark h4, ← drop_field text.toList 0 4, List.drop_zero]
    have hstamp : Rfc3339 text.toList ⟨⟨year, month, day⟩, hour, minute, second, fraction,
        offset⟩ := by
      rw [hsplit]
      exact .intro (hfigures (by omega) hyear) (hfigures (by omega) hmonth)
        (hfigures (by omega) hday) hmark (hfigures (by omega) hhour)
        (hfigures (by omega) hminute) (hfigures (by omega) hsecond) hpointed
        (offsetSeconds_eq_ok.mp hoffset)
    refine ⟨Nat.le_of_not_lt hsize, _, hstamp, ⟨⟨hpos, hle, ?_, ?_⟩, ?_, ?_, ?_, ?_⟩, ?_⟩
    · exact Nat.one_le_iff_ne_zero.mpr hdaypos
    · exact Nat.le_of_not_lt hdayle
    · exact Nat.le_of_not_lt hhourle
    · exact Nat.le_of_not_lt hminutele
    · exact Nat.le_of_not_lt hsecondle
    · intro hsixty
      dsimp only at hsixty
      have hlisted := not_not.mp fun hnot => hleap ⟨decide_eq_true hsixty, hnot⟩
      obtain ⟨date, hdate, heq⟩ := List.any_eq_true.mp hlisted
      exact ⟨date, hdate, of_decide_eq_true heq⟩
    · have hnumber := rfc3339_fraction hstamp (Nat.le_of_not_lt hsize)
      unfold Stamp.fractionText at hnumber
      dsimp only at hnumber
      rw [hnumber] at h₈
      exact (Except.ok.inj h₈).symm
  · rintro ⟨hsize, stamp, hstamp, hreal, rfl⟩
    have hascii := rfc3339_ascii hstamp
    have hnumber := rfc3339_fraction hstamp hsize
    obtain ⟨rest, hpart, hoffset⟩ := rfc3339_parts hstamp
    obtain ⟨hlength, -⟩ := rfc3339_tail hstamp
    generalize hchars : text.toList = chars at hstamp hascii
    cases hstamp with
    | @intro year month day hour minute second pointed fraction zone mark y mo d h mi s offset
        hyear hmonth hday hmark hhour hminute hsecond hfraction hzone =>
    obtain ⟨a, b, c, e, rfl⟩ := hyear.four
    obtain ⟨a₁, b₁, rfl⟩ := hmonth.two
    obtain ⟨a₂, b₂, rfl⟩ := hday.two
    obtain ⟨a₃, b₃, rfl⟩ := hhour.two
    obtain ⟨a₄, b₄, rfl⟩ := hminute.two
    obtain ⟨a₅, b₅, rfl⟩ := hsecond.two
    have hgood : ¬ (text.toList.length < 20 ∨ text.toList.any (fun c => c.toNat ≥ 128) ∨
        text.toList[4]? ≠ some '-' ∨ text.toList[7]? ≠ some '-' ∨
        ¬ (text.toList[10]? = some 'T' ∨ text.toList[10]? = some 't') ∨
        text.toList[13]? ≠ some ':' ∨ text.toList[16]? ≠ some ':') := by
      rintro (hshort | hany | h4 | h7 | h10 | h13 | h16)
      · omega
      · obtain ⟨x, hx, hbig⟩ := List.any_eq_true.mp hany
        exact absurd (hascii x (hchars ▸ hx)) (Nat.not_lt.mpr (of_decide_eq_true hbig))
      · exact h4 (by rw [hchars]; rfl)
      · exact h7 (by rw [hchars]; rfl)
      · refine h10 ?_
        rcases hmark with rfl | rfl
        · exact .inl (by rw [hchars]; rfl)
        · exact .inr (by rw [hchars]; rfl)
      · exact h13 (by rw [hchars]; rfl)
      · exact h16 (by rw [hchars]; rfl)
    have hyear' : ExactInstant.digits (text.toList.take 4) = .ok y := by
      rw [hchars]
      exact hyear.eq_ok
    have hmonth' : ExactInstant.digits ((text.toList.drop 5).take 2) = .ok mo := by
      rw [hchars]
      exact hmonth.eq_ok
    have hday' : ExactInstant.digits ((text.toList.drop 8).take 2) = .ok d := by
      rw [hchars]
      exact hday.eq_ok
    have hhour' : ExactInstant.digits ((text.toList.drop 11).take 2) = .ok h := by
      rw [hchars]
      exact hhour.eq_ok
    have hminute' : ExactInstant.digits ((text.toList.drop 14).take 2) = .ok mi := by
      rw [hchars]
      exact hminute.eq_ok
    have hsecond' : ExactInstant.digits ((text.toList.drop 17).take 2) = .ok s := by
      rw [hchars]
      exact hsecond.eq_ok
    have hcalendar : ¬ (¬ (1 ≤ mo ∧ mo ≤ 12) ∨ d = 0 ∨ d > monthDays y mo ∨ h > 23 ∨ mi > 59 ∨
        s > 60) := by
      have hpos := hreal.date.month_pos
      have hle := hreal.date.month_le
      have hdaypos := hreal.date.day_pos
      have hdayle := hreal.date.day_le
      have hhourle := hreal.hour
      have hminutele := hreal.minute
      have hsecondle := hreal.second
      dsimp only at hpos hle hdaypos hdayle hhourle hminutele hsecondle
      omega
    have hleap : ¬ (decide (s = 60) = true ∧ ¬ (positiveLeapDates.any fun date =>
        decide (civilDays date.1 date.2.1 date.2.2 * 86400 + 86399 =
          civilDays y mo d * 86400 + ((h * 3600 + mi * 60 + min s 59 : Nat) : Int) - offset)) =
        true) := by
      rintro ⟨hsixty, hnot⟩
      obtain ⟨date, hdate, heq⟩ := hreal.leap (of_decide_eq_true hsixty)
      exact hnot (List.any_eq_true.mpr ⟨date, hdate, decide_eq_true heq⟩)
    unfold Stamp.fractionText at hnumber
    dsimp only at hnumber
    unfold ExactInstant.parseRfc3339
    dsimp only
    rw [if_neg (Nat.not_lt.mpr hsize), if_neg hgood, hyear', ok_bind, hmonth', ok_bind, hday',
      ok_bind, hhour', ok_bind, hminute', ok_bind, hsecond', ok_bind, if_neg hcalendar, hpart,
      ok_bind]
    dsimp only
    rw [hoffset, ok_bind, if_neg hleap, hnumber]
    rfl

end Domain
end Glaux
