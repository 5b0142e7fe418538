import Glaux.Standards.Units.Table

/-!
# What the parser of unit codes accepts

One lemma for what a part of the parser reads, and one for what it was given; with the
flags it raises, from the factor up to the whole code.
-/

namespace Glaux
namespace Standards
namespace Units

open Library

section Scan

theorem getLast?_of_cons {α : Type} {a : α} {items : List α} {p : α → Prop}
    (h : ∀ b ∈ (a :: items).getLast?, p b) : ∀ b ∈ items.getLast?, p b := by
  intro b hb
  refine h b ?_
  rw [List.getLast?_cons, Option.mem_def.mp hb]
  rfl

/-- A closed front that ends in no digit belongs to the symbol. -/
theorem scan_closed {inside : Bool} {symbol digits front code : List UInt8}
    (h : brackets.closed inside front = true) (hlast : ∀ byte ∈ front.getLast?, isDigit byte = false)
    (hempty : front = [] → digits = []) :
    scan inside symbol digits (front ++ code) = scan false (symbol ++ digits ++ front) [] code := by
  induction front generalizing inside symbol digits with
  | nil =>
      cases inside with
      | true => cases h
      | false => rw [hempty rfl, List.nil_append, List.append_nil, List.append_nil]
  | cons byte front ih =>
      have hnext := getLast?_of_cons hlast
      have hassoc : ∀ symbol' : List UInt8, symbol' = symbol ++ digits →
          symbol' ++ byte :: front = symbol ++ digits ++ [byte] ++ front := by
        rintro symbol' rfl
        rw [List.append_assoc _ [byte] front]
        rfl
      rw [List.cons_append, hassoc _ rfl]
      cases inside with
      | true =>
          rw [Brackets.closed] at h
          split at h
          · cases h
          · rename_i hopening
            have hopening : byte ≠ openBracket := hopening
            rw [scan, if_neg hopening]
            exact (ih h hnext fun _ => rfl).trans (by rw [List.append_nil])
      | false =>
          rw [Brackets.closed] at h
          split at h
          · rename_i hopening
            have hopening : byte = openBracket := hopening
            rw [scan, if_pos hopening, ih h hnext fun _ => rfl, List.append_nil]
          · rename_i hopening
            have hopening : byte ≠ openBracket := hopening
            obtain ⟨houtside, hfront⟩ := Bool.and_eq_true_iff.mp h
            have hterminator : terminator byte = false := by
              simpa using (Bool.and_eq_true_iff.mp houtside).1
            rw [scan, if_neg hopening, hterminator, if_neg Bool.false_ne_true]
            split
            · rename_i hdigit
              have hne : front ≠ [] := by
                rintro rfl
                rw [hlast byte rfl] at hdigit
                cases hdigit
              rw [ih hfront hnext fun hnil => absurd hnil hne, ← List.append_assoc symbol]
            · rw [ih hfront hnext fun _ => rfl, List.append_nil]

theorem terminator_of_digit {byte : UInt8} (h : isDigit byte = true) :
    terminator byte = false ∧ byte ≠ openBracket := by
  have hall : ∀ byte, isDigit byte = true → terminator byte = false ∧ byte ≠ openBracket :=
    forall_byte (by decide +kernel)
  exact hall byte h

theorem scan_digits {symbol digits run code : List UInt8}
    (h : ∀ digit ∈ run, isDigit digit = true) :
    scan false symbol digits (run ++ code) = scan false symbol (digits ++ run) code := by
  induction run generalizing digits with
  | nil => rw [List.nil_append, List.append_nil]
  | cons digit run ih =>
      obtain ⟨hdigit, hrun⟩ := List.forall_mem_cons.mp h
      obtain ⟨hterminator, hopening⟩ := terminator_of_digit hdigit
      rw [List.cons_append, scan, if_neg hopening, hterminator, if_neg Bool.false_ne_true,
        if_pos hdigit, ih hrun, List.append_assoc]
      rfl

theorem scan_stop {symbol digits code : List UInt8}
    (h : ∀ byte ∈ code.head?, terminator byte = true) :
    scan false symbol digits code = .ok ⟨false, symbol, digits, code⟩ := by
  cases code with
  | nil => rfl
  | cons byte code =>
      have hbyte : terminator byte = true := h byte rfl
      have hopening : byte ≠ openBracket := by
        rintro rfl
        exact absurd hbyte (by decide)
      rw [scan, if_neg hopening, if_pos hbyte]

/-- A symbol and digits in front of a terminator are read as such. -/
theorem scan_symbol {symbol digits code : List UInt8} (hsymbol : PlainSymbol symbol)
    (hdigits : ∀ digit ∈ digits, isDigit digit = true)
    (hcode : ∀ byte ∈ code.head?, terminator byte = true) :
    scan false [] [] (symbol ++ digits ++ code) = .ok ⟨false, symbol, digits, code⟩ := by
  rw [List.append_assoc, scan_closed hsymbol.closed hsymbol.last fun _ => rfl,
    scan_digits hdigits, scan_stop hcode]
  rfl

theorem scan_sound {inside : Bool} {symbol digits code : List UInt8} {read : Scan}
    (h : scan inside symbol digits code = .ok read)
    (hdigits : ∀ digit ∈ digits, isDigit digit = true) :
    symbol ++ digits ++ code = read.symbol ++ read.digits ++ read.code ∧
      ∀ digit ∈ read.digits, isDigit digit = true := by
  induction code generalizing inside symbol digits with
  | nil =>
      rw [scan] at h
      cases h
      exact ⟨rfl, hdigits⟩
  | cons byte code ih =>
      have hnil : ∀ digit ∈ ([] : List UInt8), isDigit digit = true := by simp
      have hassoc : symbol ++ digits ++ [byte] ++ [] ++ code = symbol ++ digits ++ byte :: code := by
        simp only [List.append_assoc, List.nil_append, List.cons_append]
      cases inside with
      | true =>
          rw [scan] at h
          split at h
          · cases h
          · exact hassoc ▸ ih h hnil
      | false =>
          rw [scan] at h
          split at h
          · exact hassoc ▸ ih h hnil
          · split at h
            · cases h
              exact ⟨rfl, hdigits⟩
            · split at h
              · rename_i hdigit
                obtain ⟨htext, hread⟩ := ih h fun digit hmem =>
                  (List.mem_append.mp hmem).elim (hdigits digit) fun hmem => by
                    rw [List.mem_singleton.mp hmem]
                    exact hdigit
                refine ⟨?_, hread⟩
                rw [← htext]
                simp only [List.append_assoc, List.cons_append, List.nil_append]
              · exact hassoc ▸ ih h hnil

end Scan

section Exponents

theorem decimal_foldl (n : ℕ) (digits : List UInt8) :
    10 ^ digits.length * n ≤ digits.foldl (fun n digit => 10 * n + (digit - 0x30).toNat) n := by
  induction digits generalizing n with
  | nil => simp
  | cons digit digits ih =>
      rw [List.foldl_cons, List.length_cons]
      refine Nat.le_trans ?_ (ih _)
      rw [pow_succ, Nat.mul_assoc]
      exact Nat.mul_le_mul_left _ (Nat.le_add_right _ _)

theorem digit_value {digit : UInt8} (h : isDigit digit = true) :
    ((digit - 0x30).toNat = 0 ↔ digit = zero) ∧ ((digit - 0x30).toNat = 1 ↔ digit = one) := by
  have hall : ∀ digit, isDigit digit = true →
      ((digit - 0x30).toNat = 0 ↔ digit = zero) ∧ ((digit - 0x30).toNat = 1 ↔ digit = one) :=
    forall_byte (by decide +kernel)
  exact hall digit h

/-- Without its leading zeros, one is the digit one. -/
theorem dropWhile_zero_eq_one {digits : List UInt8} (h : ∀ digit ∈ digits, isDigit digit = true) :
    digits.dropWhile (· = zero) = [one] ↔ decimal digits = 1 := by
  induction digits with
  | nil => exact iff_of_false nofun nofun
  | cons digit digits ih =>
      obtain ⟨hdigit, hdigits⟩ := List.forall_mem_cons.mp h
      have hvalue := digit_value hdigit
      have hdecimal : decimal (digit :: digits) =
          digits.foldl (fun n digit => 10 * n + (digit - 0x30).toNat) (digit - 0x30).toNat := by
        rw [decimal, List.foldl_cons, Nat.mul_zero, Nat.zero_add]
      by_cases hzero : digit = zero
      · rw [List.dropWhile_cons_of_pos (by simpa using hzero), ih hdigits, hdecimal,
          hvalue.1.mpr hzero]
        rfl
      · rw [List.dropWhile_cons_of_neg (by simpa using hzero), hdecimal, List.cons.injEq,
          ← hvalue.2]
        constructor
        · rintro ⟨hone, rfl⟩
          exact hone
        · intro hone
          have hpos : 0 < (digit - 0x30).toNat := Nat.pos_of_ne_zero fun hz => hzero (hvalue.1.mp hz)
          have hbound := decimal_foldl (digit - 0x30).toNat digits
          rw [hone] at hbound
          cases digits with
          | nil => exact ⟨hone, rfl⟩
          | cons next digits =>
              rw [List.length_cons, pow_succ] at hbound
              have hten := Nat.pow_pos (n := digits.length) (show 0 < 10 by decide)
              have hlarge : 10 ≤ 10 ^ digits.length * 10 * (digit - 0x30).toNat :=
                Nat.le_trans (Nat.le_mul_of_pos_left 10 hten) (Nat.le_mul_of_pos_right _ hpos)
              omega

theorem sign_of_digit {byte : UInt8} (h : isDigit byte = true) : sign byte = false := by
  have hall : ∀ byte, isDigit byte = true → sign byte = false := forall_byte (by decide +kernel)
  exact hall byte h

theorem dropWhile_sign {digits : List UInt8} (h : ∀ digit ∈ digits, isDigit digit = true) :
    digits.dropWhile sign = digits := by
  cases digits with
  | nil => rfl
  | cons digit digits =>
      exact List.dropWhile_cons_of_neg (by rw [sign_of_digit (h digit List.mem_cons_self)]; nofun)

theorem exponent_digits (value : Exponent) (special : Bool) :
    exponent value.digits special = .ok (special && !decide value.isOne) := by
  have hhead : value.digits.head? ≠ some minus := by
    intro hhead
    have hdigit := value.numeric minus (List.mem_of_head? hhead)
    exact absurd hdigit (by decide)
  have hone := dropWhile_zero_eq_one value.numeric
  rw [exponent, dropWhile_sign value.numeric, if_neg (Nat.not_lt.mpr value.bounded),
    decide_eq_false hhead, Bool.false_or]
  simp only [Exponent.isOne, ← hone, ne_eq, decide_not]

theorem exponent_signed (value : Signed) (special : Bool) :
    exponent value.text special = .ok (special && !decide value.isOne) := by
  have hone := dropWhile_zero_eq_one value.exponent.numeric
  obtain ⟨negative, value⟩ := value
  have hdrop : (Signed.text ⟨negative, value⟩).dropWhile sign = value.digits := by
    have hsign : sign (if negative then minus else plus) = true := by
      cases negative <;> rfl
    rw [Signed.text, List.dropWhile_cons_of_pos hsign, dropWhile_sign value.numeric]
  rw [exponent, hdrop, if_neg (Nat.not_lt.mpr value.bounded)]
  simp only [Signed.isOne, Exponent.isOne, ← hone, Signed.text, List.head?_cons]
  cases negative with
  | true => simp
  | false =>
      have hsign : ¬ some plus = some minus := by decide
      simp [hsign]

theorem exponent_bounded {text : List UInt8} {special unsupported : Bool}
    (h : exponent text special = .ok unsupported) :
    (text.dropWhile sign).length ≤ MAX_EXPONENT_DIGITS := by
  rw [exponent] at h
  split at h
  · exact absurd h nofun
  · rename_i hlength
    exact Nat.le_of_not_lt hlength

theorem signedExponent_none {special unsigned : Bool} {code : List UInt8}
    (h : ∀ byte ∈ code.head?, sign byte = false) :
    signedExponent special unsigned code = .ok (false, code) := by
  rw [signedExponent, if_neg]
  intro hany
  cases code with
  | nil => cases hany
  | cons byte code => exact absurd (h byte rfl) (by rw [show sign byte = true from hany]; simp)

theorem head?_any_sign {byte : UInt8} {code : List UInt8} :
    (byte :: code).head?.any sign = sign byte := rfl

theorem sign_text (value : Signed) :
    sign (if value.negative then minus else plus) = true := by
  cases value.negative <;> rfl

theorem signedExponent_signed {special : Bool} (value : Signed) {code : List UInt8}
    (h : ∀ byte ∈ code.head?, isDigit byte = false) :
    signedExponent special false (value.text ++ code) =
      .ok (special && !decide value.isOne, code) := by
  have htake := takeWhile_append_stop value.exponent.numeric h
  have hdrop := dropWhile_append_stop value.exponent.numeric h
  rw [signedExponent, Signed.text, List.cons_append, head?_any_sign, if_pos (sign_text value),
    if_neg Bool.false_ne_true, List.tail_cons, htake, if_neg value.exponent.nonempty, hdrop]
  have hexponent := exponent_signed value special
  rw [Signed.text] at hexponent
  change ((exponent ((if value.negative then minus else plus) :: value.exponent.digits)
    special).map fun unsupported => (unsupported, code)) = _
  rw [hexponent]
  rfl

/-- A sign is read with its digits, and only where no digits stood before it. -/
theorem signedExponent_sound {special unsigned : Bool} {code : List UInt8}
    {read : Bool × List UInt8} (h : signedExponent special unsigned code = .ok read) :
    read = (false, code) ∨ unsigned = false ∧ ∃ value : Signed, code = value.text ++ read.2 ∧
      read.1 = (special && !decide value.isOne) := by
  rw [signedExponent] at h
  split at h
  · rename_i hany
    cases code with
    | nil => cases hany
    | cons byte code =>
        rw [head?_any_sign] at hany
        split at h
        · cases h
        · rename_i hunsigned
          split at h
          · cases h
          · rename_i hempty
            obtain ⟨unsupported, hexponent, rfl⟩ := map_eq_ok.mp h
            have hnumeric := takeWhile_accepted isDigit code
            have hbyte : byte = if byte = minus then minus else plus := by
              split
              · assumption
              · rename_i hminus
                simpa [sign, hminus] using hany
            have hbounded := exponent_bounded hexponent
            change ((byte :: code.takeWhile isDigit).dropWhile sign).length ≤ _ at hbounded
            rw [List.dropWhile_cons_of_pos hany, dropWhile_sign hnumeric] at hbounded
            refine .inr ⟨Bool.not_eq_true _ ▸ hunsigned,
              ⟨decide (byte = minus), ⟨code.takeWhile isDigit, hempty, hnumeric, hbounded⟩⟩, ?_, ?_⟩
            · rw [Signed.text]
              simp only [decide_eq_true_eq]
              rw [← hbyte, List.cons_append, List.tail_cons, List.takeWhile_append_dropWhile]
            · have hsigned := exponent_signed ⟨decide (byte = minus),
                ⟨code.takeWhile isDigit, hempty, hnumeric, hbounded⟩⟩ special
              rw [Signed.text] at hsigned
              simp only [decide_eq_true_eq] at hsigned
              rw [← hbyte] at hsigned
              exact Except.ok.inj (hexponent.symm.trans hsigned)
  · exact .inl (Except.ok.inj h).symm

end Exponents

section Annotations

theorem annotation_eq_ok {code rest : List UInt8} :
    annotation code = .ok rest ↔ ∃ note : Note, code = note.inside ++ closeBrace :: rest := by
  induction code with
  | nil =>
      refine iff_of_false (by intro h; cases h) ?_
      rintro ⟨note, h⟩
      exact absurd h.symm (List.append_ne_nil_of_right_ne_nil _ (List.cons_ne_nil _ _))
  | cons byte code ih =>
      rw [ annotation]
      split
      · rename_i hopening
        refine iff_of_false (by intro h; cases h) ?_
        rintro ⟨⟨inside, hinside, _⟩, h⟩
        cases inside with
        | nil => exact absurd (hopening.symm.trans (List.cons.inj h).1) (by decide)
        | cons first inside =>
            rw [List.cons_append] at h
            exact hinside (by rw [← hopening, (List.cons.inj h).1]; exact List.mem_cons_self)
      · rename_i hopening
        split
        · rename_i hclosing
          constructor
          · intro h
            exact ⟨⟨[], by simp, by simp⟩, by rw [hclosing, Except.ok.inj h]; rfl⟩
          · rintro ⟨⟨inside, _, hinside⟩, h⟩
            cases inside with
            | nil => rw [(List.cons.inj h).2]
            | cons first inside =>
                rw [List.cons_append] at h
                have hfirst := (List.cons.inj h).1
                exact absurd (show closeBrace ∈ first :: inside by
                  rw [← hclosing, hfirst]; exact List.mem_cons_self) hinside
        · rename_i hclosing
          rw [ih]
          constructor
          · rintro ⟨⟨inside, hinside, hinside'⟩, rfl⟩
            exact ⟨⟨byte :: inside, fun h => (List.mem_cons.mp h).elim (Ne.symm hopening) hinside,
              fun h => (List.mem_cons.mp h).elim (Ne.symm hclosing) hinside'⟩, rfl⟩
          · rintro ⟨⟨inside, hinside, hinside'⟩, h⟩
            cases inside with
            | nil => exact absurd (List.cons.inj h).1 hclosing
            | cons first inside =>
                exact ⟨⟨inside, fun h => hinside (List.mem_cons_of_mem _ h),
                  fun h => hinside' (List.mem_cons_of_mem _ h)⟩, (List.cons.inj h).2⟩

theorem noteText_some (note : Note) (rest : List UInt8) :
    noteText (some note) ++ rest = openBrace :: (note.inside ++ closeBrace :: rest) := by
  rw [noteText, Option.map_some, Option.getD_some, Note.text, List.cons_append, List.cons_append,
    List.append_assoc]
  rfl

theorem trailingAnnotation_note {note : Option Note} {rest : List UInt8}
    (h : rest.head? ≠ some openBrace) : trailingAnnotation (noteText note ++ rest) = .ok rest := by
  cases note with
  | none => exact if_neg h
  | some note =>
      rw [noteText_some]
      exact annotation_eq_ok.mpr ⟨note, rfl⟩

theorem trailingAnnotation_sound {code rest : List UInt8} (h : trailingAnnotation code = .ok rest) :
    ∃ note, code = noteText note ++ rest := by
  rw [ trailingAnnotation] at h
  split at h
  · rename_i hhead
    obtain ⟨tail, rfl⟩ := List.head?_eq_some_iff.mp hhead
    obtain ⟨note, hnote⟩ := annotation_eq_ok.mp h
    exact ⟨some note, by rw [noteText_some, ← hnote]; rfl⟩
  · exact ⟨none, Except.ok.inj h⟩

end Annotations

section Simples

variable {dictionary : Dictionary}

theorem factor_number {digits : List UInt8} {special : Bool} :
    factor dictionary [] digits = .ok special ↔
      (∃ digit ∈ digits, digit ≠ zero) ∧ special = false := by
  have hall : (digits.all (· = zero)) = true ↔ ¬ ∃ digit ∈ digits, digit ≠ zero := by
    rw [List.all_eq_true]
    push Not
    simp only [decide_eq_true_eq]
  rw [factor, if_pos rfl]
  split
  · rename_i hzero
    exact iff_of_false nofun fun h => hall.mp hzero h.1
  · rename_i hzero
    rw [hall, not_not] at hzero
    exact ⟨fun h => ⟨hzero, (Except.ok.inj h).symm⟩, fun h => by rw [h.2]⟩

theorem factor_symbol {symbol digits : List UInt8} {special : Bool} (hsymbol : symbol ≠ []) :
    factor dictionary symbol digits = .ok special ↔
      ∃ atom, known_atom dictionary symbol = .ok atom ∧ atom.special = special := by
  rw [factor, if_neg hsymbol, map_eq_ok]

namespace Simple

/-- As the parser finds it. -/
def special : Simple dictionary → Bool
  | .number _ _ _ => false
  | .symbol value _ _ => (known_atom dictionary value.text).toOption.any (·.special)

def unsupportedPower : Simple dictionary → Bool
  | .number _ _ _ => false
  | .symbol value power note =>
      special (.symbol value power note) && !decide power.isOne

theorem special_iff {simple : Simple dictionary} : simple.special = true ↔ simple.Special := by
  cases simple with
  | number value power note => exact iff_of_false nofun id
  | symbol value power note =>
      obtain ⟨atom, hatom⟩ := Dictionary.known_iff.mp value.known
      rw [special, hatom]
      constructor
      · intro h
        exact ⟨atom, Dictionary.known_atom_eq_ok.mp hatom, h⟩
      · rintro ⟨atom', hatom', hspecial⟩
        have hsame := hatom.symm.trans (Dictionary.known_atom_eq_ok.mpr hatom')
        rw [Except.ok.inj hsame]
        exact hspecial

theorem unsupportedPower_iff {simple : Simple dictionary} :
    simple.unsupportedPower = true ↔ simple.Special ∧ ¬ simple.powerOne := by
  cases simple with
  | number value power note => exact iff_of_false nofun fun h => h.1
  | symbol value power note =>
      rw [unsupportedPower, Bool.and_eq_true, special_iff, Bool.not_eq_true',
        decide_eq_false_iff_not]
      exact Iff.rfl

end Simple

/-- The parser behind a factor, its exponent and its annotation. -/
def Parser.behind (parser : Parser) (simple : Simple dictionary) (code : List UInt8) : Parser :=
  { parser with
    code := code
    has_special := parser.has_special || simple.special
    unsupported_power := parser.unsupported_power || simple.unsupportedPower }

/-- What may stand behind a component. -/
def Follow (code : List UInt8) : Prop :=
  ∀ byte ∈ code.head?, operator byte = true ∨ byte = closeParen

theorem follow_byte {byte : UInt8} (h : operator byte = true ∨ byte = closeParen) :
    terminator byte = true ∧ sign byte = false ∧ isDigit byte = false ∧ byte ≠ openBrace := by
  rw [operator, Bool.or_eq_true, decide_eq_true_eq, decide_eq_true_eq] at h
  obtain (rfl | rfl) | rfl := h <;> decide

/-- Behind an exponent stands an annotation, or what follows the component. -/
theorem note_follow {note : Option Note} {code : List UInt8} (h : Follow code) :
    ∀ byte ∈ (noteText note ++ code).head?,
      terminator byte = true ∧ sign byte = false ∧ isDigit byte = false := by
  intro byte hbyte
  cases note with
  | none =>
      obtain ⟨hterminator, hsign, hdigit, -⟩ := follow_byte (h byte hbyte)
      exact ⟨hterminator, hsign, hdigit⟩
  | some note =>
      rw [noteText_some] at hbyte
      obtain rfl := Option.some.inj hbyte
      decide

theorem Follow.no_brace {code : List UInt8} (h : Follow code) : code.head? ≠ some openBrace :=
  fun hhead => (follow_byte (h openBrace hhead)).2.2.2 rfl

theorem signedText_stop {power : Option Signed} {code : List UInt8}
    (h : ∀ byte ∈ code.head?, terminator byte = true) :
    ∀ byte ∈ ((power.map Signed.text).getD [] ++ code).head?, terminator byte = true := by
  cases power with
  | none => exact h
  | some signed =>
      rintro byte ⟨⟩
      cases signed.negative <;> rfl

theorem simple_number {parser : Parser} {value : Number} {power : Option Signed}
    {note : Option Note} {code : List UInt8}
    (hcode : parser.code =
      value.digits ++ ((power.map Signed.text).getD [] ++ (noteText note ++ code)))
    (hfollow : Follow code) :
    simple dictionary parser =
      .ok (parser.behind (.number value power note : Simple dictionary) code) := by
  have hnote := @note_follow note _ hfollow
  have hempty : PlainSymbol [] := ⟨rfl, nofun⟩
  have hscan := scan_symbol hempty value.numeric
    (@signedText_stop power _ fun byte hbyte => (hnote byte hbyte).1)
  have hdigits : value.digits ≠ [] := by
    obtain ⟨digit, hdigit, -⟩ := value.positive
    exact List.ne_nil_of_mem hdigit
  have hsigned : ∃ unsupported, signedExponent false false
      ((power.map Signed.text).getD [] ++ (noteText note ++ code)) =
        .ok (unsupported, noteText note ++ code) ∧ unsupported = false := by
    cases power with
    | none => exact ⟨false, signedExponent_none fun byte hbyte => (hnote byte hbyte).2.1, rfl⟩
    | some signed =>
        exact ⟨_, signedExponent_signed signed fun byte hbyte => (hnote byte hbyte).2.2, rfl⟩
  obtain ⟨unsupported, hsigned, rfl⟩ := hsigned
  refine simple_eq_ok.mpr ⟨⟨false, [], value.digits, _⟩, false, false, _, code,
    hcode ▸ hscan, ⟨rfl, hdigits⟩, factor_number.mpr ⟨value.positive, rfl⟩, rfl, hsigned,
    trailingAnnotation_note hfollow.no_brace, ?_⟩
  simp only [Parser.behind, Simple.special, Simple.unsupportedPower, Bool.or_false]

/-- The digits of a trailing exponent, and what a sign may begin. -/
def Power.digits : Power → List UInt8
  | .trailing exponent => exponent.digits
  | _ => []

def Power.signedText : Power → List UInt8
  | .signed value => value.text
  | _ => []

theorem Power.text_eq (power : Power) : power.text = power.digits ++ power.signedText := by
  cases power with
  | none => rfl
  | trailing exponent => exact (List.append_nil _).symm
  | signed value => rfl

theorem simple_symbol (hplain : dictionary.Plain) {parser : Parser} {value : Symbol dictionary}
    {power : Power} {note : Option Note} {code : List UInt8}
    (hcode : parser.code = value.text ++ power.digits ++ (power.signedText ++ (noteText note ++ code)))
    (hfollow : Follow code) :
    simple dictionary parser =
      .ok (parser.behind (.symbol value power note : Simple dictionary) code) := by
  have hnote := @note_follow note _ hfollow
  obtain ⟨atom, hatom⟩ := Dictionary.known_iff.mp value.known
  have hspecial : (Simple.symbol value power note).special = atom.special := by
    rw [Simple.special, hatom]
    rfl
  have hfactor : factor dictionary value.text power.digits = .ok atom.special :=
    (factor_symbol value.nonempty).mpr ⟨atom, hatom, rfl⟩
  have hnumeric : ∀ digit ∈ power.digits, isDigit digit = true := by
    cases power with
    | trailing exponent => exact exponent.numeric
    | none => nofun
    | signed signed => nofun
  have hstop : ∀ byte ∈ (power.signedText ++ (noteText note ++ code)).head?,
      terminator byte = true := by
    cases power with
    | signed signed =>
        exact @signedText_stop (some signed) _ fun byte hbyte => (hnote byte hbyte).1
    | none => exact fun byte hbyte => (hnote byte hbyte).1
    | trailing exponent => exact fun byte hbyte => (hnote byte hbyte).1
  have hscan := scan_symbol (hplain.known value.known) hnumeric hstop
  have hnonempty : value.text ++ power.digits ≠ [] :=
    List.append_ne_nil_of_left_ne_nil value.nonempty _
  have hnosign : ∀ byte ∈ (noteText note ++ code).head?, sign byte = false :=
    fun byte hbyte => (hnote byte hbyte).2.1
  have hpowers : ∃ trailing unsupported,
      trailingExponent atom.special (Scan.unsignedExponent ⟨false, value.text, power.digits,
        power.signedText ++ (noteText note ++ code)⟩) power.digits = .ok trailing ∧
      signedExponent atom.special (Scan.unsignedExponent ⟨false, value.text, power.digits,
        power.signedText ++ (noteText note ++ code)⟩)
        (power.signedText ++ (noteText note ++ code)) =
          .ok (unsupported, noteText note ++ code) ∧
      (trailing || unsupported) = (atom.special && !decide power.isOne) := by
    cases power with
    | none =>
        exact ⟨false, false, by simp [trailingExponent, Scan.unsignedExponent, Power.digits],
          signedExponent_none hnosign, (Bool.and_false atom.special).symm⟩
    | trailing exponent =>
        have hunsigned : Scan.unsignedExponent ⟨false, value.text, (Power.trailing exponent).digits,
            (Power.trailing exponent).signedText ++ (noteText note ++ code)⟩ = true := by
          simp [Scan.unsignedExponent, Power.digits, value.nonempty, exponent.nonempty]
        refine ⟨_, false, ?_, signedExponent_none hnosign, Bool.or_false _⟩
        rw [hunsigned]
        exact exponent_digits exponent atom.special
    | signed signed =>
        have hunsigned : Scan.unsignedExponent ⟨false, value.text, (Power.signed signed).digits,
            (Power.signed signed).signedText ++ (noteText note ++ code)⟩ = false := by
          simp [Scan.unsignedExponent, Power.digits]
        refine ⟨false, _, by rw [hunsigned]; rfl, ?_, Bool.false_or _⟩
        rw [hunsigned]
        exact signedExponent_signed signed fun byte hbyte => (hnote byte hbyte).2.2
  obtain ⟨trailing, unsupported, htrailing, hsigned, hpower⟩ := hpowers
  refine simple_eq_ok.mpr ⟨⟨false, value.text, power.digits, _⟩, atom.special, trailing, _, code,
    hcode ▸ hscan, ⟨rfl, hnonempty⟩, hfactor, htrailing, hsigned,
    trailingAnnotation_note hfollow.no_brace, ?_⟩
  rw [Parser.behind, Simple.unsupportedPower, hspecial, Bool.or_assoc, hpower]

/-- **A factor is read.** -/
theorem simple_complete (hplain : dictionary.Plain) {parser : Parser} (value : Simple dictionary)
    {code : List UInt8} (hcode : parser.code = value.text ++ code) (hfollow : Follow code) :
    simple dictionary parser = .ok (parser.behind value code) := by
  cases value with
  | number value power note =>
      refine simple_number ?_ hfollow
      rw [hcode, Simple.text]
      simp only [List.append_assoc]
  | symbol value power note =>
      refine simple_symbol hplain ?_ hfollow
      rw [hcode, Simple.text, Power.text_eq]
      simp only [List.append_assoc]

/-- **What is read is a factor.** -/
theorem simple_sound {parser parser' : Parser} (h : simple dictionary parser = .ok parser') :
    ∃ value : Simple dictionary, parser.code = value.text ++ parser'.code ∧
      parser' = parser.behind value parser'.code := by
  obtain ⟨⟨bracket, symbol, digits, left⟩, special, trailing, ⟨unsupported, left'⟩, code, hscan,
    ⟨-, hread⟩, hfactor, htrailing, hsigned, hcode, rfl⟩ := simple_eq_ok.mp h
  obtain ⟨htext, hnumeric⟩ := scan_sound hscan (by simp)
  obtain ⟨note, rfl⟩ := trailingAnnotation_sound hcode
  simp only at hread hfactor htrailing hsigned htext hnumeric
  by_cases hsymbol : symbol = []
  · obtain rfl := hsymbol
    obtain ⟨hpositive, rfl⟩ := factor_number.mp hfactor
    obtain rfl : false = trailing := Except.ok.inj htrailing
    have hpower : unsupported = false ∧ ∃ power : Option Signed,
        left = (power.map Signed.text).getD [] ++ (noteText note ++ code) := by
      obtain hsame | ⟨-, value, hvalue, hunsupported⟩ := signedExponent_sound hsigned
      · obtain ⟨rfl, rfl⟩ := Prod.mk.inj hsame
        exact ⟨rfl, none, rfl⟩
      · exact ⟨hunsupported, some value, hvalue⟩
    obtain ⟨rfl, power, rfl⟩ := hpower
    refine ⟨.number ⟨digits, hnumeric, hpositive⟩ power note, ?_, ?_⟩
    · rw [Simple.text]
      simpa only [List.append_assoc, List.nil_append] using htext
    · simp only [Parser.behind, Simple.special, Simple.unsupportedPower, Bool.or_false]
  · obtain ⟨atom, hatom, rfl⟩ := (factor_symbol hsymbol).mp hfactor
    have hpower : ∃ power : Power, digits ++ left = power.text ++ (noteText note ++ code) ∧
        (trailing || unsupported) = (atom.special && !decide power.isOne) := by
      by_cases hdigits : digits = []
      · obtain rfl := hdigits
        have hunsigned : Scan.unsignedExponent ⟨bracket, symbol, [], left⟩ = false := by
          simp [Scan.unsignedExponent]
        rw [hunsigned] at htrailing hsigned
        obtain rfl : false = trailing := Except.ok.inj htrailing
        obtain hsame | ⟨-, value, hvalue, hunsupported⟩ := signedExponent_sound hsigned
        · obtain ⟨rfl, rfl⟩ := Prod.mk.inj hsame
          exact ⟨.none, rfl, (Bool.and_false atom.special).symm⟩
        · exact ⟨.signed value, hvalue, by rw [Bool.false_or]; exact hunsupported⟩
      · have hunsigned : Scan.unsignedExponent ⟨bracket, symbol, digits, left⟩ = true := by
          simp [Scan.unsignedExponent, hsymbol, hdigits]
        rw [hunsigned] at htrailing hsigned
        have hbounded := exponent_bounded htrailing
        rw [dropWhile_sign hnumeric] at hbounded
        have hone := exponent_digits ⟨digits, hdigits, hnumeric, hbounded⟩ atom.special
        obtain hsame | ⟨hfalse, -⟩ := signedExponent_sound hsigned
        · obtain ⟨rfl, rfl⟩ := Prod.mk.inj hsame
          refine ⟨.trailing ⟨digits, hdigits, hnumeric, hbounded⟩, rfl, ?_⟩
          rw [Bool.or_false]
          exact Except.ok.inj (htrailing.symm.trans hone)
        · cases hfalse
    obtain ⟨power, hdigits, hflag⟩ := hpower
    refine ⟨.symbol ⟨symbol, hsymbol, Dictionary.known_iff.mpr ⟨atom, hatom⟩⟩ power note, ?_, ?_⟩
    · rw [Simple.text, List.append_assoc, List.append_assoc, ← hdigits, ← List.append_assoc]
      simpa only [List.nil_append] using htext
    · have hspecial : (known_atom dictionary symbol).toOption.any (·.special) = atom.special := by
        rw [hatom]
        rfl
      simp only [Parser.behind, Simple.special, Simple.unsupportedPower, hspecial, ← hflag,
        Bool.or_assoc]

end Simples

section Terms

variable {dictionary : Dictionary} {rule : Rule}

/-- The parser behind a tree. -/
def Parser.after (parser : Parser) (tree : Tree dictionary rule) (code : List UInt8) : Parser where
  code := code
  components := parser.components + tree.count
  has_special := parser.has_special || tree.simples.any (·.special)
  has_operator := parser.has_operator || tree.joined
  unsupported_power := parser.unsupported_power || tree.simples.any (·.unsupportedPower)

theorem component_run (room : ℕ) :
    (component dictionary room).run = componentRun dictionary
      (if room = 0 then none else some (component dictionary (room - 1))) := by
  cases room <;> rfl

theorem count_pos (tree : Tree dictionary rule) : 0 < tree.count := by
  induction tree with
  | note => exact Nat.one_pos
  | simple => exact Nat.one_pos
  | paren => exact Nat.succ_pos _
  | single _ ih => exact ih
  | chain _ _ _ ih => exact Nat.add_pos_left ih _

/-- What the parser runs for a rule, and what is left to run behind it. -/
def runRule (inner : Consumer) : Rule → Parser → Except UnitError Parser
  | .component => inner.run
  | .term => term inner

def resume (inner : Consumer) : Rule → Parser → Except UnitError Parser
  | .component => .ok
  | .term => operators inner

/-- No factor begins with a terminator. -/
theorem simple_head {parser parser' : Parser} (h : simple dictionary parser = .ok parser') :
    ∀ byte ∈ parser.code.head?, terminator byte = false := by
  intro byte hbyte
  by_contra hterminator
  obtain ⟨read, -, -, -, -, hscan, ⟨-, hread⟩, -⟩ := simple_eq_ok.mp h
  have hstop : ∀ byte' ∈ parser.code.head?, terminator byte' = true := by
    intro byte' hbyte'
    rw [Option.mem_unique hbyte' hbyte]
    exact Bool.not_eq_false _ ▸ hterminator
  rw [scan_stop hstop] at hscan
  obtain rfl := Except.ok.inj hscan
  exact hread rfl

theorem follow_closeParen (code : List UInt8) : Follow (closeParen :: code) := by
  rintro byte ⟨⟩
  exact .inr rfl

theorem operator_operatorByte (divided : Bool) : operator (operatorByte divided) = true := by
  cases divided <;> rfl

theorem follow_operatorByte (divided : Bool) (code : List UInt8) :
    Follow (operatorByte divided :: code) := by
  rintro byte ⟨⟩
  exact .inl (operator_operatorByte divided)

/-- **A tree is read.** -/
theorem run_complete (hplain : dictionary.Plain) (tree : Tree dictionary rule) {room : ℕ}
    (hdepth : tree.depth ≤ room) {parser : Parser} {code : List UInt8}
    (hcode : parser.code = tree.text ++ code) (hfollow : Follow code)
    (hcount : parser.components + tree.count ≤ MAX_COMPONENTS) :
    runRule (component dictionary room) rule parser =
      resume (component dictionary room) rule (parser.after tree code) := by
  induction tree generalizing room parser code with
  | note value =>
      have hlimit : ¬ parser.components + 1 > MAX_COMPONENTS := Nat.not_lt.mpr hcount
      have hhead : parser.code = openBrace :: (value.inside ++ closeBrace :: code) := by
        rw [hcode, Tree.text, Note.text, List.cons_append, List.cons_append, List.append_assoc]
        rfl
      rw [runRule, resume, component_run, componentRun, if_neg hlimit]
      simp only [hhead, List.head?_cons, List.tail_cons]
      rw [if_neg (by decide), if_pos trivial, annotation_eq_ok.mpr ⟨value, rfl⟩]
      simp only [Except.map, Parser.after, Tree.count, Tree.simples, Tree.joined, List.any_nil,
        Bool.or_false]
  | simple value =>
      have hlimit : ¬ parser.components + 1 > MAX_COMPONENTS := Nat.not_lt.mpr hcount
      have hrun := @simple_complete _ hplain
        { parser with components := parser.components + 1 } value _ hcode hfollow
      have hhead := simple_head hrun
      have hparen : parser.code.head? ≠ some openParen := fun h =>
        absurd (hhead openParen h) (by decide)
      have hbrace : parser.code.head? ≠ some openBrace := fun h =>
        absurd (hhead openBrace h) (by decide)
      rw [runRule, resume, component_run, componentRun, if_neg hlimit]
      simp only
      rw [if_neg hparen, if_neg hbrace, hrun]
      simp only [Parser.behind, Parser.after, Tree.count, Tree.simples, Tree.joined, List.any_cons,
        List.any_nil, Bool.or_false]
  | paren inner ih =>
      have hlimit : ¬ parser.components + 1 > MAX_COMPONENTS :=
        Nat.not_lt.mpr (Nat.le_trans (Nat.add_le_add_left (Nat.succ_pos _) _) hcount)
      have hcode : parser.code = openParen :: (inner.text ++ closeParen :: code) := by
        rw [hcode, Tree.text, List.cons_append, List.cons_append, List.append_assoc]
        rfl
      obtain ⟨room, rfl⟩ := Nat.exists_eq_succ_of_ne_zero (n := room)
        (Nat.ne_of_gt (Nat.lt_of_lt_of_le (Nat.succ_pos _) hdepth))
      have hinner := @ih room (Nat.le_of_succ_le_succ hdepth)
        { parser with
          code := inner.text ++ closeParen :: code
          components := parser.components + 1 } _ rfl (follow_closeParen code)
        (by
          rw [Tree.count] at hcount
          change parser.components + 1 + inner.count ≤ _
          omega)
      rw [resume, operators_stop (by rintro byte ⟨⟩; rfl)] at hinner
      rw [runRule, resume, component_run, componentRun, if_neg hlimit]
      simp only [hcode, List.head?_cons, List.tail_cons, if_true, Nat.succ_ne_zero, if_false,
        Nat.succ_sub_one]
      change (runRule (component dictionary room) .term _ >>= _) = _
      rw [hinner, ok_bind]
      simp only [Parser.after, Tree.count, Tree.simples, Tree.joined, List.head?_cons,
        List.tail_cons, if_true, Nat.add_assoc, Nat.add_comm inner.count]
  | single inner ih =>
      have hinner := ih hdepth hcode hfollow hcount
      rw [runRule, resume] at hinner
      rw [runRule, resume, term, hinner]
      rfl
  | chain left divided right ihl ihr =>
      have hcode : parser.code =
          left.text ++ operatorByte divided :: (right.text ++ code) := by
        rw [hcode, Tree.text, List.append_assoc]
        rfl
      rw [Tree.depth, Nat.max_le] at hdepth
      rw [Tree.count] at hcount
      have hleft := ihl hdepth.1 hcode (follow_operatorByte divided _) (by omega)
      have hright := @ihr room hdepth.2
        { parser.after left (right.text ++ code) with has_operator := true } _ rfl hfollow
        (by
          change parser.components + left.count + right.count ≤ _
          omega)
      rw [runRule, resume] at hright
      rw [hleft, resume, operators_step rfl (operator_operatorByte divided)]
      change (component dictionary room).run { parser.after left (right.text ++ code) with
        has_operator := true } >>= _ = _
      rw [hright, ok_bind]
      simp only [Parser.after, Tree.count, Tree.simples, Tree.joined, List.any_append,
        Nat.add_assoc, Bool.or_assoc, Bool.true_or, Bool.or_true]

/-- A tree of the grammar has been read from one parser to the other. -/
def Reads (dictionary : Dictionary) (rule : Rule) (room : ℕ) (parser parser' : Parser) : Prop :=
  ∃ tree : Tree dictionary rule, tree.depth ≤ room ∧ parser.code = tree.text ++ parser'.code ∧
    parser' = parser.after tree parser'.code ∧ parser.components + tree.count ≤ MAX_COMPONENTS

theorem operator_cases {byte : UInt8} (h : operator byte = true) :
    ∃ divided, operatorByte divided = byte := by
  rw [operator, Bool.or_eq_true, decide_eq_true_eq, decide_eq_true_eq] at h
  obtain rfl | rfl := h
  · exact ⟨false, rfl⟩
  · exact ⟨true, rfl⟩

/-- One more component behind an operator. -/
theorem Reads.step {room : ℕ} {parser middle last : Parser} {byte : UInt8} {code : List UInt8}
    (h : Reads dictionary .term room parser middle) (hcode : middle.code = byte :: code)
    (hbyte : operator byte = true)
    (hlast : Reads dictionary .component room { middle with code := code, has_operator := true }
      last) : Reads dictionary .term room parser last := by
  obtain ⟨left, hdepth, htext, hmiddle, hcount⟩ := h
  obtain ⟨right, hdepth', htext', hlast, hcount'⟩ := hlast
  obtain ⟨divided, rfl⟩ := operator_cases hbyte
  have htext' : code = right.text ++ last.code := htext'
  have hcomponents : middle.components = parser.components + left.count := by rw [hmiddle]; rfl
  refine ⟨.chain left divided right, Nat.max_le.mpr ⟨hdepth, hdepth'⟩, ?_, ?_, ?_⟩
  · rw [htext, hcode, htext', Tree.text, List.append_assoc]
    rfl
  · rw [hlast, hmiddle]
    simp only [Parser.after, Tree.count, Tree.simples, Tree.joined, List.any_append, Nat.add_assoc,
      Bool.or_assoc, Bool.true_or, Bool.or_true]
  · change middle.components + right.count ≤ _ at hcount'
    rw [Tree.count]
    omega

theorem term_sound {inner : Consumer} {room : ℕ}
    (hinner : ∀ {parser parser' : Parser}, inner.run parser = .ok parser' →
      Reads dictionary .component room parser parser')
    {parser last : Parser} (h : term inner parser = .ok last) :
    Reads dictionary .term room parser last := by
  obtain ⟨middle, hrun, hloop⟩ := bind_eq_ok.mp h
  obtain ⟨tree, hdepth, htext, hmiddle, hcount⟩ := hinner hrun
  have hstart : Reads dictionary .term room parser middle :=
    ⟨.single tree, hdepth, htext, hmiddle, hcount⟩
  exact (operators_rule (fun hreads hcode hbyte hnext => hreads.step hcode hbyte (hinner hnext))
    hstart hloop).1

/-- A component that opens no parenthesis. -/
theorem componentRun_sound {inner : Option Consumer} {room : ℕ}
    (hinner : ∀ consumer ∈ inner, 0 < room ∧
      ∀ {parser parser' : Parser}, term consumer parser = .ok parser' →
        Reads dictionary .term (room - 1) parser parser')
    {parser last : Parser} (h : componentRun dictionary inner parser = .ok last) :
    Reads dictionary .component room parser last := by
  rw [componentRun] at h
  split at h
  · cases h
  · rename_i hlimit
    have hlimit : parser.components + 1 ≤ MAX_COMPONENTS := Nat.le_of_not_lt hlimit
    simp only at h
    split at h
    · rename_i hparen
      obtain ⟨code, hcode⟩ := List.head?_eq_some_iff.mp hparen
      cases inner with
      | none => cases h
      | some consumer =>
          obtain ⟨hroom, hterm⟩ := hinner consumer rfl
          obtain ⟨middle, hrun, h⟩ := bind_eq_ok.mp h
          obtain ⟨tree, hdepth, htext, hmiddle, hcount⟩ := hterm hrun
          split at h
          · rename_i hclose
            obtain ⟨rest, hrest⟩ := List.head?_eq_some_iff.mp hclose
            obtain rfl := Except.ok.inj h
            change parser.code.tail = tree.text ++ middle.code at htext
            change parser.components + 1 + tree.count ≤ _ at hcount
            refine ⟨.paren tree, Nat.succ_le_of_lt (Nat.lt_of_le_of_lt hdepth
              (Nat.sub_lt hroom Nat.one_pos)), ?_, ?_, ?_⟩
            · rw [hcode, List.tail_cons] at htext
              rw [hcode, htext, hrest, Tree.text, List.cons_append, List.cons_append, List.append_assoc]
              rfl
            · rw [hmiddle, hrest]
              simp only [Parser.after, Tree.count, Tree.simples, Tree.joined, Nat.add_assoc,
                Nat.add_comm tree.count, List.tail_cons]
            · rw [Tree.count]
              omega
          · cases h
    · split at h
      · rename_i hbrace
        obtain ⟨code, hcode⟩ := List.head?_eq_some_iff.mp hbrace
        obtain ⟨rest, hrest, rfl⟩ := map_eq_ok.mp h
        obtain ⟨note, hnote⟩ := annotation_eq_ok.mp hrest
        refine ⟨.note note, Nat.zero_le _, ?_, ?_, hlimit⟩
        · rw [hcode, List.tail_cons] at hnote
          rw [hcode, hnote, Tree.text, Note.text, List.cons_append, List.cons_append,
            List.append_assoc]
          rfl
        · simp only [Parser.after, Tree.count, Tree.simples, Tree.joined, List.any_nil,
            Bool.or_false]
      · obtain ⟨value, htext, hlast⟩ := simple_sound h
        refine ⟨.simple value, Nat.zero_le _, htext, ?_, hlimit⟩
        rw [hlast]
        simp only [Parser.behind, Parser.after, Tree.count, Tree.simples, Tree.joined,
          List.any_cons, List.any_nil, Bool.or_false]

/-- **What is read is a tree.** -/
theorem component_sound {room : ℕ} {parser last : Parser}
    (h : (component dictionary room).run parser = .ok last) :
    Reads dictionary .component room parser last := by
  induction room generalizing parser last with
  | zero =>
      change componentRun dictionary none parser = .ok last at h
      exact componentRun_sound (fun _ hnone => absurd hnone (Option.not_mem_none _)) h
  | succ room ih =>
      change componentRun dictionary (some (component dictionary room)) parser = .ok last at h
      refine componentRun_sound ?_ h
      rintro consumer ⟨⟩
      exact ⟨Nat.succ_pos room, fun hterm => term_sound ih hterm⟩

end Terms

section Codes

variable {dictionary : Dictionary}

/-- A code by its tree: an optional solidus and a term. -/
structure Parse (dictionary : Dictionary) where
  divided : Bool
  term : Tree dictionary .term

def Parse.text (parse : Parse dictionary) : List UInt8 :=
  (if parse.divided then [slash] else []) ++ parse.term.text

/-- The limits on nesting and components, and no special unit in an expression. -/
structure Parse.Accepted (parse : Parse dictionary) : Prop where
  depth : parse.term.depth ≤ MAX_NESTING
  count : parse.term.count ≤ MAX_COMPONENTS
  special : ∀ simple ∈ parse.term.simples, simple.Special →
    parse.divided = false ∧ parse.term.joined = false ∧ simple.powerOne

/-- From 1 to 4096 bytes, all printable and not blank. -/
structure WithinLimits (code : List UInt8) : Prop where
  positive : 1 ≤ code.length
  bounded : code.length ≤ MAX_CODE_BYTES
  printable : ∀ byte ∈ code, 33 ≤ byte ∧ byte ≤ 126

theorem symbol_head {symbol : List UInt8} (hplain : PlainSymbol symbol) :
    ∀ byte ∈ symbol.head?, terminator byte = false := by
  cases symbol with
  | nil => nofun
  | cons byte symbol =>
      rintro _ ⟨⟩
      have hclosed := hplain.closed
      rw [Brackets.closed] at hclosed
      split at hclosed
      · rename_i hopening
        rw [hopening]
        rfl
      · have houtside := (Bool.and_eq_true_iff.mp (Bool.and_eq_true_iff.mp hclosed).1).1
        simpa using houtside

/-- A factor is not empty, and begins with no terminator. -/
theorem Simple.text_head (hplain : dictionary.Plain) (value : Simple dictionary) :
    ∃ byte, value.text.head? = some byte ∧ terminator byte = false := by
  cases value with
  | number value power note =>
      obtain ⟨digits, hnumeric, hpositive⟩ := value
      cases digits with
      | nil =>
          obtain ⟨digit, hdigit, -⟩ := hpositive
          exact absurd hdigit nofun
      | cons digit digits =>
          exact ⟨digit, rfl, (terminator_of_digit (hnumeric digit List.mem_cons_self)).1⟩
  | symbol value power note =>
      obtain ⟨symbol, hnonempty, hknown⟩ := value
      cases symbol with
      | nil => exact absurd rfl hnonempty
      | cons byte symbol => exact ⟨byte, rfl, symbol_head (hplain.known hknown) byte rfl⟩

theorem head?_append_some {α : Type} {front : List α} {a : α} (h : front.head? = some a)
    (back : List α) : (front ++ back).head? = some a := by
  rw [List.head?_append, h]
  rfl

/-- No term begins with an operator. -/
theorem Tree.text_head (hplain : dictionary.Plain) {rule : Rule} (tree : Tree dictionary rule) :
    ∃ byte, tree.text.head? = some byte ∧ byte ≠ slash ∧ byte ≠ closeParen := by
  induction tree with
  | note value => exact ⟨openBrace, rfl, by decide, by decide⟩
  | simple value =>
      obtain ⟨byte, hhead, hbyte⟩ := value.text_head hplain
      refine ⟨byte, hhead, ?_, ?_⟩ <;>
        · rintro rfl
          exact absurd hbyte (by decide)
  | paren => exact ⟨openParen, rfl, by decide, by decide⟩
  | single _ ih => exact ih
  | chain left divided right ih =>
      obtain ⟨byte, hhead, hbyte⟩ := ih
      exact ⟨byte, head?_append_some hhead _, hbyte⟩

theorem start_text (hplain : dictionary.Plain) (parse : Parse dictionary) :
    start parse.text = ⟨parse.term.text, 0, false, parse.divided, false⟩ := by
  obtain ⟨divided, term⟩ := parse
  cases divided with
  | true => rfl
  | false =>
      obtain ⟨byte, hhead, hslash, -⟩ := term.text_head hplain
      have hne : (Parse.text ⟨false, term⟩).head? ≠ some slash := by
        intro hsome
        exact hslash (Option.some.inj (hhead.symm.trans hsome))
      exact if_neg hne

theorem text_start (code : List UInt8) :
    code = (if decide (code.head? = some slash) then [slash] else []) ++ (start code).code := by
  rw [start]
  by_cases hslash : code.head? = some slash
  · rw [if_pos hslash, decide_eq_true hslash]
    exact (List.cons_head?_tail hslash).symm
  · rw [if_neg hslash, decide_eq_false hslash]
    rfl

theorem start_flags (code : List UInt8) :
    (start code).components = 0 ∧ (start code).has_special = false ∧
      (start code).has_operator = decide (code.head? = some slash) ∧
      (start code).unsupported_power = false := by
  rw [start]
  split
  · rename_i hslash
    exact ⟨rfl, rfl, (decide_eq_true hslash).symm, rfl⟩
  · rename_i hslash
    exact ⟨rfl, rfl, (decide_eq_false hslash).symm, rfl⟩

/-- The flags of a whole code, and what they say of its tree. -/
theorem special_flags {divided : Bool} {tree : Tree dictionary .term} :
    (tree.simples.any (·.special) &&
      ((divided || tree.joined) || tree.simples.any (·.unsupportedPower))) = false ↔
      ∀ simple ∈ tree.simples, simple.Special →
        divided = false ∧ tree.joined = false ∧ simple.powerOne := by
  rw [Bool.and_eq_false_iff, Bool.or_eq_false_iff, Bool.or_eq_false_iff, List.any_eq_false,
    List.any_eq_false]
  simp only [Simple.special_iff, Simple.unsupportedPower_iff, not_and, not_not]
  constructor
  · rintro (hnone | ⟨⟨hdivided, hjoined⟩, hpower⟩) simple hsimple hspecial
    · exact absurd hspecial (hnone simple hsimple)
    · exact ⟨hdivided, hjoined, hpower simple hsimple hspecial⟩
  · intro h
    by_cases hany : ∃ simple ∈ tree.simples, simple.Special
    · obtain ⟨simple, hsimple, hspecial⟩ := hany
      obtain ⟨hdivided, hjoined, -⟩ := h simple hsimple hspecial
      exact .inr ⟨⟨hdivided, hjoined⟩, fun simple hsimple hspecial =>
        (h simple hsimple hspecial).2.2⟩
    · exact .inl fun simple hsimple hspecial => hany ⟨simple, hsimple, hspecial⟩

theorem printable_iff {byte : UInt8} : printable byte = true ↔ 33 ≤ byte ∧ byte ≤ 126 := by
  rw [printable, Bool.and_eq_true, decide_eq_true_eq, decide_eq_true_eq]

theorem bytes_iff {code : List UInt8} : ¬ (code = [] ∨ ¬ code.all printable) ↔
    1 ≤ code.length ∧ ∀ byte ∈ code, 33 ≤ byte ∧ byte ≤ 126 := by
  rw [not_or, not_not, List.all_eq_true, ← ne_eq, ← List.length_pos_iff_ne_nil]
  simp only [printable_iff]
  exact Iff.rfl

theorem validate_code_eq_ok (hplain : dictionary.Plain) {code : List UInt8} :
    validate_code dictionary code = .ok () ↔ WithinLimits code ∧
      ∃ parse : Parse dictionary, code = parse.text ∧ parse.Accepted := by
  rw [validate_code]
  constructor
  · intro h
    split at h
    · exact absurd h nofun
    · rename_i hlength
      split at h
      · exact absurd h nofun
      · rename_i hbytes
        obtain ⟨hpos, hprintable⟩ := bytes_iff.mp hbytes
        obtain ⟨last, hterm, h⟩ := bind_eq_ok.mp h
        split at h
        · exact absurd h nofun
        · rename_i hempty
          split at h
          · exact absurd h nofun
          · rename_i hspecial
            obtain ⟨tree, hdepth, htext, hlast, hcount⟩ := term_sound component_sound hterm
            obtain ⟨hcomponents, hstart, hoperator, hpower⟩ := start_flags code
            rw [not_not.mp hempty] at htext hlast
            rw [hcomponents, Nat.zero_add] at hcount
            refine ⟨⟨hpos, Nat.le_of_not_lt hlength, hprintable⟩,
              ⟨decide (code.head? = some slash), tree⟩, ?_, hdepth, hcount, ?_⟩
            · rw [List.append_nil] at htext
              exact (text_start code).trans (by rw [Parse.text, htext])
            · refine special_flags.mp ?_
              rw [hlast, Parser.after, hstart, hoperator, hpower, Bool.false_or,
                Bool.false_or] at hspecial
              exact Bool.not_eq_true _ ▸ hspecial
  · rintro ⟨⟨hpos, hlength, hprintable⟩, parse, rfl, hdepth, hcount, hspecial⟩
    have hrun := @run_complete _ _ hplain parse.term _ hdepth (start parse.text) []
      (by rw [start_text hplain, List.append_nil]) nofun
      (by rw [start_text hplain]; simpa using hcount)
    have hlimit : ¬ parse.text.length > MAX_CODE_BYTES := Nat.not_lt.mpr hlength
    rw [if_neg hlimit, if_neg (bytes_iff.mpr ⟨hpos, hprintable⟩)]
    change (runRule _ .term _ >>= _) = _
    rw [hrun, resume, operators_stop (fun _ hnone => absurd hnone (Option.not_mem_none _)), ok_bind, start_text hplain]
    have hflags := special_flags.mpr hspecial
    simp only [Parser.after, Bool.false_or, ne_eq, not_true_eq_false, if_false, hflags,
      Bool.false_eq_true]

/-- **Unit codes.**  A code is accepted exactly when it is printable, within the limits and
an optional solidus with a term, and no special unit stands in it beside an operator or
with another power than one. -/
theorem validate_code_exact (dictionary : Dictionary) (hplain : dictionary.Plain)
    (code : List UInt8) :
    validate_code dictionary code = .ok () ↔
      1 ≤ code.length ∧ code.length ≤ 4096 ∧ (∀ byte ∈ code, 33 ≤ byte ∧ byte ≤ 126) ∧
        ∃ (divided : Bool) (term : Tree dictionary .term),
          code = (if divided then [slash] else []) ++ term.text ∧
          term.depth ≤ 32 ∧ term.count ≤ 256 ∧
          ∀ simple ∈ term.simples, simple.Special →
            divided = false ∧ term.joined = false ∧ simple.powerOne := by
  rw [validate_code_eq_ok hplain]
  constructor
  · rintro ⟨hlimits, ⟨divided, term⟩, hcode, haccepted⟩
    exact ⟨hlimits.positive, hlimits.bounded, hlimits.printable, divided, term, hcode,
      haccepted.depth, haccepted.count, haccepted.special⟩
  · rintro ⟨hpositive, hbounded, hprintable, divided, term, hcode, hdepth, hcount, hspecial⟩
    exact ⟨⟨hpositive, hbounded, hprintable⟩, ⟨divided, term⟩, hcode, hdepth, hcount, hspecial⟩

theorem validate_code_exact_force :
    1 ≤ (ascii "kg.m/s2").length ∧ (ascii "kg.m/s2").length ≤ 4096 ∧
      (∀ byte ∈ ascii "kg.m/s2", 33 ≤ byte ∧ byte ≤ 126) ∧
        ∃ (divided : Bool) (term : Tree pinned .term),
          ascii "kg.m/s2" = (if divided then [slash] else []) ++ term.text ∧
          term.depth ≤ 32 ∧ term.count ≤ 256 ∧
          ∀ simple ∈ term.simples, simple.Special →
            divided = false ∧ term.joined = false ∧ simple.powerOne :=
  (validate_code_exact pinned pinned_plain (ascii "kg.m/s2")).mp
    (toOption_eq_some.mp (by decide +kernel))

end Codes

end Units
end Standards
end Glaux
