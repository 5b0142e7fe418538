import Glaux.Standards.Units.Parser

/-!
# Temporal unit codes

The check works on the text without its annotations and outer parentheses.  Both are
followed along the tree of the code.
-/

namespace Glaux
namespace Standards
namespace Units

open Library

section Extents

/-- What a byte of a code belongs to. -/
inductive Extent where
  | plain
  | bracket
  | braced
deriving DecidableEq

/-- The bytes with what the loop over them takes them to belong to. -/
def tagged : Bool → Bool → List UInt8 → List (UInt8 × Extent)
  | _, _, [] => []
  | true, bracket, byte :: code => (byte, .braced) :: tagged (byte ≠ closeBrace) bracket code
  | false, bracket, byte :: code =>
      if byte = openBrace && !bracket then (byte, .braced) :: tagged true bracket code
      else if byte = openBracket then (byte, .bracket) :: tagged false true code
      else if byte = closeBracket then (byte, .bracket) :: tagged false false code
      else (byte, if bracket then .bracket else .plain) :: tagged false bracket code

def untagged (bytes : List (UInt8 × Extent)) : List UInt8 :=
  (bytes.filter (·.2 ≠ .braced)).map Prod.fst

theorem untagged_append (front back : List (UInt8 × Extent)) :
    untagged (front ++ back) = untagged front ++ untagged back := by
  rw [untagged, List.filter_append, List.map_append]
  rfl

theorem untagged_braced (byte : UInt8) (bytes : List (UInt8 × Extent)) :
    untagged ((byte, .braced) :: bytes) = untagged bytes := rfl

theorem untagged_cons {extent : Extent} (h : extent ≠ .braced) (byte : UInt8)
    (bytes : List (UInt8 × Extent)) :
    untagged ((byte, extent) :: bytes) = byte :: untagged bytes := by
  rw [untagged, List.filter_cons_of_pos (by simpa using h), List.map_cons]
  rfl

/-- What is left without annotations is what the loop takes for something else. -/
theorem stripAnnotations_eq (annotated bracket : Bool) (code : List UInt8) :
    stripAnnotations annotated bracket code = untagged (tagged annotated bracket code) := by
  induction code generalizing annotated bracket with
  | nil => cases annotated <;> rfl
  | cons byte code ih =>
      cases annotated with
      | true => rw [stripAnnotations, tagged, untagged_braced, ih]
      | false =>
          rw [stripAnnotations, tagged]
          split
          · rw [untagged_braced, ih]
          · split
            · rw [untagged_cons (show Extent.bracket ≠ .braced from nofun), ih]
            · split
              · rw [untagged_cons (show Extent.bracket ≠ .braced from nofun), ih]
              · rw [untagged_cons (by cases bracket <;> nofun), ih]

def plainTags (bytes : List UInt8) : List (UInt8 × Extent) := bytes.map (·, .plain)

def noteTags (note : Option Note) : List (UInt8 × Extent) := (noteText note).map (·, .braced)

/-- As the parser scans a symbol. -/
def symbolTags : Bool → List UInt8 → List (UInt8 × Extent)
  | _, [] => []
  | true, byte :: symbol => (byte, .bracket) :: symbolTags (byte ≠ closeBracket) symbol
  | false, byte :: symbol =>
      if byte = openBracket then (byte, .bracket) :: symbolTags true symbol
      else (byte, .plain) :: symbolTags false symbol

variable {dictionary : Dictionary}

def Simple.tags : Simple dictionary → List (UInt8 × Extent)
  | .number value power note =>
      plainTags value.digits ++ plainTags ((power.map Signed.text).getD []) ++ noteTags note
  | .symbol value power note =>
      symbolTags false value.text ++ plainTags power.text ++ noteTags note

def Tree.tags : {rule : Rule} → Tree dictionary rule → List (UInt8 × Extent)
  | _, .note value => noteTags (some value)
  | _, .simple value => value.tags
  | _, .paren term => plainTags [openParen] ++ term.tags ++ plainTags [closeParen]
  | _, .single component => component.tags
  | _, .chain term divided component =>
      term.tags ++ plainTags [operatorByte divided] ++ component.tags

def Parse.tags (parse : Parse dictionary) : List (UInt8 × Extent) :=
  plainTags (if parse.divided then [slash] else []) ++ parse.term.tags

/-- No brace and no bracket. -/
def Unmarked (bytes : List UInt8) : Prop :=
  ∀ byte ∈ bytes, byte ≠ openBrace ∧ byte ≠ openBracket ∧ byte ≠ closeBracket

instance (bytes : List UInt8) : Decidable (Unmarked bytes) :=
  List.decidableBAll _ bytes

theorem tagged_plain {run : List UInt8} (h : Unmarked run) (rest : List UInt8) :
    tagged false false (run ++ rest) = plainTags run ++ tagged false false rest := by
  induction run with
  | nil => rfl
  | cons byte run ih =>
      obtain ⟨⟨hbrace, hopening, hclosing⟩, hrun⟩ := List.forall_mem_cons.mp h
      have hbraced : ¬ (byte = openBrace && !false : Bool) = true := by simpa using hbrace
      rw [List.cons_append, tagged, if_neg hbraced, if_neg hopening, if_neg hclosing, ih hrun]
      rfl

theorem tagged_inside {inside : List UInt8} (h : closeBrace ∉ inside) (rest : List UInt8) :
    tagged true false (inside ++ closeBrace :: rest) =
      (inside ++ [closeBrace]).map (·, .braced) ++ tagged false false rest := by
  induction inside with
  | nil => rfl
  | cons byte inside ih =>
      obtain ⟨hbyte, hinside⟩ := not_or.mp (List.mem_cons.not.mp h)
      rw [List.cons_append, tagged, decide_eq_true (Ne.symm hbyte), ih hinside]
      rfl

theorem tagged_note (note : Option Note) (rest : List UInt8) :
    tagged false false (noteText note ++ rest) = noteTags note ++ tagged false false rest := by
  cases note with
  | none => rfl
  | some note =>
      rw [noteText_some, tagged, if_pos (by decide), tagged_inside note.closing]
      rfl

theorem tagged_symbol {inside : Bool} {symbol : List UInt8}
    (h : brackets.closed inside symbol = true) (rest : List UInt8) :
    tagged false inside (symbol ++ rest) = symbolTags inside symbol ++ tagged false false rest := by
  induction symbol generalizing inside with
  | nil =>
      cases inside with
      | true => cases h
      | false => rfl
  | cons byte symbol ih =>
      rw [List.cons_append]
      cases inside with
      | true =>
          rw [Brackets.closed] at h
          split at h
          · cases h
          · rename_i hopening
            have hopening : byte ≠ openBracket := hopening
            have hinner := ih h
            rw [tagged, if_neg (by simp), if_neg hopening, symbolTags]
            split
            · rename_i hclosing
              have hdecide : decide (byte ≠ brackets.closing) = false :=
                decide_eq_false (not_not.mpr hclosing)
              rw [hdecide] at hinner
              rw [decide_eq_false (not_not.mpr hclosing), hinner]
              rfl
            · rename_i hclosing
              have hdecide : decide (byte ≠ brackets.closing) = true := decide_eq_true hclosing
              rw [hdecide] at hinner
              rw [decide_eq_true hclosing, hinner]
              rfl
      | false =>
          rw [Brackets.closed] at h
          split at h
          · rename_i hopening
            obtain rfl : byte = openBracket := hopening
            rw [tagged, if_neg (by decide), if_pos rfl, symbolTags, if_pos rfl, ih h]
            rfl
          · rename_i hopening
            have hopening : byte ≠ openBracket := hopening
            obtain ⟨houtside, hsymbol⟩ := Bool.and_eq_true_iff.mp h
            have hterminator : terminator byte = false := by
              simpa using (Bool.and_eq_true_iff.mp houtside).1
            have hbrace : ¬ (byte = openBrace && !false : Bool) = true := by
              intro hbrace
              obtain rfl : byte = openBrace := by simpa using hbrace
              exact absurd hterminator (by decide)
            have hclosing : byte ≠ closeBracket := by
              rintro rfl
              exact absurd hterminator (by decide)
            rw [tagged, if_neg hbrace, if_neg hopening, if_neg hclosing, symbolTags,
              if_neg hopening, ih hsymbol]
            rfl

theorem digits_unmarked {digits : List UInt8} (h : ∀ digit ∈ digits, isDigit digit = true) :
    Unmarked digits := by
  have hall : ∀ digit, isDigit digit = true →
      digit ≠ openBrace ∧ digit ≠ openBracket ∧ digit ≠ closeBracket :=
    forall_byte (by decide +kernel)
  exact fun digit hdigit => hall digit (h digit hdigit)

theorem signed_unmarked (value : Signed) : Unmarked value.text := by
  refine List.forall_mem_cons.mpr ⟨?_, digits_unmarked value.exponent.numeric⟩
  cases value.negative <;> decide

theorem power_unmarked (power : Power) : Unmarked power.text := by
  cases power with
  | none => nofun
  | trailing exponent => exact digits_unmarked exponent.numeric
  | signed value => exact signed_unmarked value

theorem signedText_unmarked (power : Option Signed) :
    Unmarked ((power.map Signed.text).getD []) := by
  cases power with
  | none => nofun
  | some value => exact signed_unmarked value

theorem operatorByte_unmarked (divided : Bool) : Unmarked [operatorByte divided] := by
  cases divided <;> decide

/-- **The stripper follows the tree.** -/
theorem tagged_tree (hplain : dictionary.Plain) {rule : Rule} (tree : Tree dictionary rule)
    (rest : List UInt8) :
    tagged false false (tree.text ++ rest) = tree.tags ++ tagged false false rest := by
  induction tree generalizing rest with
  | note value => exact tagged_note (some value) rest
  | simple value =>
      cases value with
      | number value power note =>
          rw [Tree.text, Simple.text, List.append_assoc, List.append_assoc,
            tagged_plain (digits_unmarked value.numeric), tagged_plain (signedText_unmarked power),
            tagged_note, Tree.tags, Simple.tags, List.append_assoc, List.append_assoc]
      | symbol value power note =>
          rw [Tree.text, Simple.text, List.append_assoc, List.append_assoc,
            tagged_symbol (hplain.known value.known).closed, tagged_plain (power_unmarked power),
            tagged_note, Tree.tags, Simple.tags, List.append_assoc, List.append_assoc]
  | paren term ih =>
      have hopen : Unmarked [openParen] := by decide
      have hclose : Unmarked [closeParen] := by decide
      have htext : (Tree.paren term).text ++ rest =
          [openParen] ++ (term.text ++ ([closeParen] ++ rest)) := by
        simp only [Tree.text, List.cons_append, List.nil_append, List.append_assoc]
      rw [htext, tagged_plain hopen, ih, tagged_plain hclose, Tree.tags, List.append_assoc,
        List.append_assoc]
  | single component ih => exact ih rest
  | chain term divided component ihl ihr =>
      have htext : (Tree.chain term divided component).text ++ rest =
          term.text ++ ([operatorByte divided] ++ (component.text ++ rest)) := by
        simp only [Tree.text, List.cons_append, List.nil_append, List.append_assoc]
      rw [htext, ihl, tagged_plain (operatorByte_unmarked divided), ihr, Tree.tags,
        List.append_assoc, List.append_assoc]

theorem tagged_parse (hplain : dictionary.Plain) (parse : Parse dictionary) :
    tagged false false parse.text = parse.tags := by
  have hslash : Unmarked (if parse.divided then [slash] else []) := by
    cases parse.divided <;> decide
  have hterm := tagged_tree hplain parse.term []
  rw [List.append_nil, tagged, List.append_nil] at hterm
  rw [Parse.text, tagged_plain hslash, hterm]
  rfl

end Extents

section Plain

variable {dictionary : Dictionary}

def Simple.plain : Simple dictionary → List UInt8
  | .number value power _ => value.digits ++ (power.map Signed.text).getD []
  | .symbol value power _ => value.text ++ power.text

/-- The text without its annotations. -/
def Tree.plain : {rule : Rule} → Tree dictionary rule → List UInt8
  | _, .note _ => []
  | _, .simple value => value.plain
  | _, .paren term => openParen :: term.plain ++ [closeParen]
  | _, .single component => component.plain
  | _, .chain term divided component => term.plain ++ operatorByte divided :: component.plain

theorem untagged_plain (bytes : List UInt8) : untagged (plainTags bytes) = bytes := by
  induction bytes with
  | nil => rfl
  | cons byte bytes ih =>
      have hcons : plainTags (byte :: bytes) = (byte, .plain) :: plainTags bytes := rfl
      rw [hcons, untagged_cons (show Extent.plain ≠ .braced from nofun), ih]

theorem untagged_note (note : Option Note) : untagged (noteTags note) = [] := by
  rw [untagged, List.map_eq_nil_iff, List.filter_eq_nil_iff]
  intro byte hbyte
  obtain ⟨_, -, rfl⟩ := List.mem_map.mp hbyte
  simp

theorem untagged_symbol (inside : Bool) (symbol : List UInt8) :
    untagged (symbolTags inside symbol) = symbol := by
  induction symbol generalizing inside with
  | nil => cases inside <;> rfl
  | cons byte symbol ih =>
      have hbracket : Extent.bracket ≠ .braced := nofun
      have hplain : Extent.plain ≠ .braced := nofun
      cases inside with
      | true => rw [symbolTags, untagged_cons hbracket, ih]
      | false =>
          rw [symbolTags]
          split
          · rw [untagged_cons hbracket, ih]
          · rw [untagged_cons hplain, ih]

theorem untagged_simple (value : Simple dictionary) : untagged value.tags = value.plain := by
  cases value with
  | number value power note =>
      rw [Simple.tags, untagged_append, untagged_append, untagged_plain, untagged_plain,
        untagged_note, List.append_nil, Simple.plain]
  | symbol value power note =>
      rw [Simple.tags, untagged_append, untagged_append, untagged_symbol, untagged_plain,
        untagged_note, List.append_nil, Simple.plain]

theorem untagged_tree {rule : Rule} (tree : Tree dictionary rule) :
    untagged tree.tags = tree.plain := by
  induction tree with
  | note value => exact untagged_note _
  | simple value => exact untagged_simple value
  | paren term ih =>
      rw [Tree.tags, untagged_append, untagged_append, untagged_plain, untagged_plain, ih]
      rfl
  | single component ih => exact ih
  | chain term divided component ihl ihr =>
      rw [Tree.tags, untagged_append, untagged_append, untagged_plain, ihl, ihr, List.append_assoc]
      rfl

theorem without_annotations_text (hplain : dictionary.Plain) (parse : Parse dictionary) :
    without_annotations parse.text =
      (if parse.divided then [slash] else []) ++ parse.term.plain := by
  rw [without_annotations, stripAnnotations_eq, tagged_parse hplain, Parse.tags, untagged_append,
    untagged_plain, untagged_tree]

end Plain

section Operators

variable {dictionary : Dictionary}

/-- Brackets around anything but brackets, and anything but brackets outside of them. -/
def loose : Brackets UInt8 where
  opening := openBracket
  closing := closeBracket
  outside byte := byte ≠ openBracket && byte ≠ closeBracket
  opening_refused := by decide
  closing_refused := by decide

theorem loose_of_outside {bytes : List UInt8} (h : Unmarked bytes) :
    loose.closed false bytes = true := by
  refine Brackets.closed_outside fun byte hbyte => ?_
  obtain ⟨-, hopening, hclosing⟩ := h byte hbyte
  change (decide (byte ≠ openBracket) && decide (byte ≠ closeBracket)) = true
  rw [decide_eq_true hopening, decide_eq_true hclosing]
  rfl

theorem loose_of_symbol {symbol : List UInt8} (h : PlainSymbol symbol) :
    loose.closed false symbol = true := by
  have houtside : ∀ byte, brackets.outside byte = true → loose.outside byte = true := by
    intro byte hbyte
    obtain ⟨hterminator, hopening⟩ := Bool.and_eq_true_iff.mp hbyte
    have hclosing : byte ≠ closeBracket := by
      rintro rfl
      exact absurd hterminator (by decide)
    exact Bool.and_eq_true_iff.mpr ⟨hopening, decide_eq_true hclosing⟩
  have hopening : loose.opening = brackets.opening := rfl
  exact Brackets.closed_mono hopening rfl houtside h.closed

theorem loose_tree (hplain : dictionary.Plain) {rule : Rule} (tree : Tree dictionary rule) :
    loose.closed false tree.plain = true := by
  induction tree with
  | note value => rfl
  | simple value =>
      cases value with
      | number value power note =>
          exact Brackets.closed_append_closed (loose_of_outside (digits_unmarked value.numeric))
            (loose_of_outside (signedText_unmarked power))
      | symbol value power note =>
          exact Brackets.closed_append_closed (loose_of_symbol (hplain.known value.known))
            (loose_of_outside (power_unmarked power))
  | paren term ih =>
      have hopen : loose.closed false [openParen] = true := by decide
      have hclose : loose.closed false [closeParen] = true := by decide
      exact Brackets.closed_append_closed (Brackets.closed_append_closed hopen ih) hclose
  | single component ih => exact ih
  | chain term divided component ihl ihr =>
      have hoperator : loose.closed false [operatorByte divided] = true :=
        loose_of_outside (operatorByte_unmarked divided)
      exact Brackets.closed_append_closed ihl (Brackets.closed_append_closed hoperator ihr)

/-- An operator that stands outside of brackets. -/
structure HasOperator (text : List UInt8) (front : List UInt8) (byte : UInt8)
    (back : List UInt8) : Prop where
  text_eq : text = front ++ byte :: back
  closed : loose.closed false front = true
  operator : operator byte = true

theorem operator_of_joined (hplain : dictionary.Plain) {rule : Rule} {tree : Tree dictionary rule}
    (h : tree.joined = true) : ∃ front byte back, HasOperator tree.plain front byte back := by
  induction tree with
  | note => exact absurd h nofun
  | simple => exact absurd h nofun
  | paren term ih =>
      obtain ⟨front, byte, back, htext, hclosed, hoperator⟩ := ih h
      have hopen : loose.closed false [openParen] = true := by decide
      refine ⟨openParen :: front, byte, back ++ [closeParen], ?_,
        Brackets.closed_append_closed hopen hclosed, hoperator⟩
      rw [Tree.plain, htext, List.cons_append, List.append_assoc]
      rfl
  | single component ih => exact ih h
  | chain term divided component =>
      exact ⟨_, _, _, rfl, loose_tree hplain term, operator_operatorByte divided⟩

/-- Taking the outer parentheses away leaves an operator where it is. -/
theorem HasOperator.unwrap {text front back : List UInt8} {byte : UInt8}
    (h : HasOperator text front byte back) :
    ∃ front' back', HasOperator (unwrap text) front' byte back' := by
  induction hn : text.length using Nat.strong_induction_on generalizing text front back with
  | _ n ih =>
    rw [Units.unwrap]
    split
    · rename_i hparens
      obtain ⟨-, hopen, hclose⟩ := hparens
      obtain ⟨rfl, hclosed, hoperator⟩ := h
      have hbyte : byte ≠ openParen ∧ byte ≠ closeParen := by
        constructor <;>
          · rintro rfl
            exact absurd hoperator (by decide)
      cases front with
      | nil => exact absurd (Option.some.inj hopen) hbyte.1
      | cons first front =>
          obtain rfl : first = openParen := Option.some.inj hopen
          have hback : back ≠ [] := by
            rintro rfl
            rw [List.getLast?_concat] at hclose
            exact hbyte.2 (Option.some.inj hclose)
          have hfront : loose.closed false front = true := by
            rw [Brackets.closed, if_neg (by decide)] at hclosed
            exact (Bool.and_eq_true_iff.mp hclosed).2
          have hinner : HasOperator (openParen :: front ++ byte :: back).tail.dropLast front byte
              back.dropLast := by
            refine ⟨?_, hfront, hoperator⟩
            rw [List.cons_append, List.tail_cons, List.dropLast_append_of_ne_nil (List.cons_ne_nil _ _),
              List.dropLast_cons_of_ne_nil hback]
          refine ih _ ?_ hinner rfl
          rw [← hn, List.length_dropLast, List.length_tail]
          simp only [List.length_append, List.length_cons]
          omega
    · exact ⟨front, back, h⟩

theorem rdropWhile_behind (front : List UInt8) {byte : UInt8} (h : isDigit byte = false)
    (back : List UInt8) :
    (front ++ byte :: back).rdropWhile isDigit = front ++ byte :: back.rdropWhile isDigit := by
  induction back using List.reverseRecOn with
  | nil => exact List.rdropWhile_concat_neg _ _ _ (by rw [h]; nofun)
  | append_singleton back last ih =>
      have hassoc : front ++ byte :: (back ++ [last]) = (front ++ byte :: back) ++ [last] := by
        rw [List.append_assoc, List.cons_append]
      rw [hassoc]
      by_cases hlast : isDigit last = true
      · rw [List.rdropWhile_concat_pos _ _ _ hlast, List.rdropWhile_concat_pos _ _ _ hlast, ih]
      · rw [List.rdropWhile_concat_neg _ _ _ hlast, List.rdropWhile_concat_neg _ _ _ hlast, hassoc]

/-- The power is split off behind the operator. -/
theorem HasOperator.split {text front back : List UInt8} {byte : UInt8}
    (h : HasOperator text front byte back) :
    ∃ back', HasOperator (split_simple_power text).1 front byte back' := by
  obtain ⟨rfl, hclosed, hoperator⟩ := h
  obtain ⟨-, hsign, hdigit, -⟩ := follow_byte (.inl hoperator)
  rw [split_simple_power]
  simp only [rdropWhile_behind front hdigit]
  split
  · exact ⟨back, rfl, hclosed, hoperator⟩
  · split
    · rename_i hlast
      refine ⟨(back.rdropWhile isDigit).dropLast, ?_, hclosed, hoperator⟩
      have hne : back.rdropWhile isDigit ≠ [] := by
        intro hnil
        rw [hnil, List.getLast?_concat, Option.any_some, hsign] at hlast
        exact absurd hlast nofun
      rw [List.dropLast_append_of_ne_nil (List.cons_ne_nil _ _), List.dropLast_cons_of_ne_nil hne]
    · exact ⟨_, rfl, hclosed, hoperator⟩

/-- No symbol has an operator outside of its brackets. -/
theorem HasOperator.unknown (hplain : dictionary.Plain) {text front back : List UInt8}
    {byte : UInt8} (h : HasOperator text front byte back) : ¬ dictionary.Known text := by
  intro hknown
  obtain ⟨rfl, hclosed, hoperator⟩ := h
  have hsymbol := (hplain.known hknown).closed
  have hloose : loose.opening = brackets.opening := rfl
  have hfront := Brackets.closed_of_append hloose rfl hsymbol hclosed
  have hopening : byte ≠ brackets.opening := by
    rintro rfl
    exact absurd hoperator (by decide)
  have houtside := Brackets.outside_of_closed hfront hsymbol hopening
  have hterminator := (follow_byte (.inl hoperator)).1
  rw [show brackets.outside byte = (!terminator byte && decide (byte ≠ openBracket)) from rfl,
    hterminator] at houtside
  exact absurd houtside nofun

theorem HasOperator.not_digits {text front back : List UInt8} {byte : UInt8}
    (h : HasOperator text front byte back) : text.all isDigit = false := by
  obtain ⟨rfl, -, hoperator⟩ := h
  rw [List.all_append, List.all_cons, (follow_byte (.inl hoperator)).2.2.1, Bool.false_and,
    Bool.and_false]

end Operators

section Alone

variable {dictionary : Dictionary}

/-- A factor in its parentheses. -/
def Tree.wrap (value : Simple dictionary) : ℕ → Tree dictionary .term
  | 0 => .single (.simple value)
  | room + 1 => .single (.paren (Tree.wrap value room))

/-- An annotation in its parentheses. -/
inductive Tree.Empty : {rule : Rule} → Tree dictionary rule → Prop where
  | note (value : Note) : Empty (.note value)
  | paren {term : Tree dictionary .term} (h : Empty term) : Empty (.paren term)
  | single {component : Tree dictionary .component} (h : Empty component) :
      Empty (.single component)

def Tree.asTerm : {rule : Rule} → Tree dictionary rule → Tree dictionary .term
  | .component, component => .single component
  | .term, term => term

/-- Without an operator, a factor or an annotation stands in the parentheses. -/
theorem alone_of_not_joined {rule : Rule} {tree : Tree dictionary rule} (h : tree.joined = false) :
    tree.Empty ∨ ∃ value room, tree.asTerm = Tree.wrap value room := by
  induction tree with
  | note value => exact .inl (.note value)
  | simple value => exact .inr ⟨value, 0, rfl⟩
  | paren term ih =>
      obtain hempty | ⟨value, room, hterm⟩ := ih h
      · exact .inl (.paren hempty)
      · refine .inr ⟨value, room + 1, ?_⟩
        rw [Tree.wrap, ← hterm]
        rfl
  | single component ih =>
      obtain hempty | ⟨value, room, hterm⟩ := ih h
      · exact .inl (.single hempty)
      · exact .inr ⟨value, room, hterm⟩
  | chain => exact absurd h nofun

theorem wrap_joined (value : Simple dictionary) (room : ℕ) :
    (Tree.wrap value room).joined = false := by
  induction room with
  | zero => rfl
  | succ room ih => exact ih

theorem wrap_simples (value : Simple dictionary) (room : ℕ) :
    (Tree.wrap value room).simples = [value] := by
  induction room with
  | zero => rfl
  | succ room ih => exact ih

theorem wrap_depth (value : Simple dictionary) (room : ℕ) :
    (Tree.wrap value room).depth = room ∧ (Tree.wrap value room).count = room + 1 := by
  induction room with
  | zero => exact ⟨rfl, rfl⟩
  | succ room ih => exact ⟨congrArg Nat.succ ih.1, congrArg Nat.succ ih.2⟩

theorem wrap_text (value : Simple dictionary) (room : ℕ) :
    (Tree.wrap value room).text =
      List.replicate room openParen ++ value.text ++ List.replicate room closeParen := by
  induction room with
  | zero => exact (List.append_nil _).symm
  | succ room ih =>
      rw [Tree.wrap, Tree.text, Tree.text, ih, List.replicate_succ, List.replicate_succ']
      simp only [List.cons_append, List.append_assoc]

/-- The nesting can be read off the text. -/
theorem wrap_parens (hplain : dictionary.Plain) (value : Simple dictionary) (room : ℕ) :
    ((Tree.wrap value room).text.takeWhile (· = openParen)).length = room := by
  obtain ⟨byte, hhead, hbyte⟩ := value.text_head hplain
  have hstop : ∀ first ∈ (value.text ++ List.replicate room closeParen).head?,
      decide (first = openParen) = false := by
    intro first hfirst
    rw [head?_append_some hhead] at hfirst
    obtain rfl := Option.some.inj hfirst
    refine decide_eq_false ?_
    rintro rfl
    exact absurd hbyte (by decide)
  have hrun : ∀ byte ∈ List.replicate room openParen, decide (byte = openParen) = true :=
    fun byte hmem => decide_eq_true (List.eq_of_mem_replicate hmem)
  rw [wrap_text, List.append_assoc, takeWhile_append_stop hrun hstop, List.length_replicate]

theorem wrap_value {value value' : Simple dictionary} {room room' : ℕ}
    (h : Tree.wrap value room = Tree.wrap value' room') : value = value' := by
  have hsimples := congrArg Tree.simples h
  rw [wrap_simples, wrap_simples] at hsimples
  exact (List.cons.inj hsimples).1

theorem unwrap_paren (text : List UInt8) :
    unwrap (openParen :: text ++ [closeParen]) = unwrap text := by
  rw [unwrap.eq_1 (openParen :: text ++ [closeParen]), if_pos]
  · rw [List.cons_append, List.tail_cons, List.dropLast_concat]
  · refine ⟨by simp, rfl, List.getLast?_concat⟩

theorem unwrap_of_head {text : List UInt8} (h : text.head? ≠ some openParen) :
    unwrap text = text := by
  rw [unwrap, if_neg fun hparens => h hparens.2.1]

theorem unwrap_empty {rule : Rule} {tree : Tree dictionary rule} (h : tree.Empty) :
    unwrap tree.plain = [] := by
  induction h with
  | note value => exact unwrap_of_head nofun
  | paren _ ih => rw [Tree.plain, unwrap_paren, ih]
  | single _ ih => exact ih

theorem Simple.plain_head (hplain : dictionary.Plain) (value : Simple dictionary) :
    ∃ byte, value.plain.head? = some byte ∧ terminator byte = false := by
  cases value with
  | number value power note =>
      obtain ⟨byte, hhead, hbyte⟩ := Simple.text_head hplain (.number value power none)
      rw [Simple.text, noteText, Option.map_none, Option.getD_none, List.append_nil] at hhead
      exact ⟨byte, hhead, hbyte⟩
  | symbol value power note =>
      obtain ⟨byte, hhead, hbyte⟩ := Simple.text_head hplain (.symbol value power none)
      rw [Simple.text, noteText, Option.map_none, Option.getD_none, List.append_nil] at hhead
      exact ⟨byte, hhead, hbyte⟩

theorem unwrap_wrap (hplain : dictionary.Plain) (value : Simple dictionary) (room : ℕ) :
    unwrap (Tree.wrap value room).plain = value.plain := by
  induction room with
  | zero =>
      obtain ⟨byte, hhead, hbyte⟩ := value.plain_head hplain
      refine unwrap_of_head fun hopen => ?_
      obtain rfl := Option.some.inj (hhead.symm.trans hopen)
      exact absurd hbyte (by decide)
  | succ room ih => rw [Tree.wrap, Tree.plain, Tree.plain, unwrap_paren, ih]

end Alone

section Splitting

variable {dictionary : Dictionary}

theorem rdropWhile_digits {front digits : List UInt8}
    (hfront : ∀ byte ∈ front.getLast?, isDigit byte = false)
    (hdigits : ∀ digit ∈ digits, isDigit digit = true) :
    (front ++ digits).rdropWhile isDigit = front := by
  induction digits using List.reverseRecOn with
  | nil =>
      rw [List.append_nil, List.rdropWhile_eq_self_iff]
      intro hne
      rw [hfront _ (List.getLast?_eq_some_getLast hne)]
      exact Bool.false_ne_true
  | append_singleton digits last ih =>
      rw [← List.append_assoc, List.rdropWhile_concat_pos _ _ _ (hdigits last (by simp)),
        ih fun digit hdigit => hdigits digit (List.mem_append_left _ hdigit)]

theorem symbol_last {symbol : List UInt8} (h : PlainSymbol symbol) :
    ∀ byte ∈ symbol.getLast?, sign byte = false := by
  have hall : ∀ byte, (byte = brackets.closing ∨ brackets.outside byte = true) →
      sign byte = false := forall_byte (by decide +kernel)
  intro byte hbyte
  obtain ⟨front, rfl⟩ := List.getLast?_eq_some_iff.mp hbyte
  exact hall byte (Brackets.closed_last h.closed)

theorem symbol_not_digits {symbol : List UInt8} (h : PlainSymbol symbol) (hne : symbol ≠ []) :
    symbol.all isDigit = false := by
  rw [List.all_eq_false]
  refine ⟨symbol.getLast hne, List.getLast_mem hne, ?_⟩
  rw [h.last _ (List.getLast?_eq_some_getLast hne)]
  exact Bool.false_ne_true

theorem split_signed (front : List UInt8) (value : Signed) :
    split_simple_power (front ++ value.text) = (front, value.text) := by
  have hsign := sign_text value
  have hdigit : isDigit (if value.negative then minus else plus) = false := by
    cases value.negative <;> rfl
  have htext : front ++ value.text =
      (front ++ [if value.negative then minus else plus]) ++ value.exponent.digits := by
    rw [Signed.text, List.append_assoc]
    rfl
  have hlast : ∀ byte ∈ (front ++ [if value.negative then minus else plus]).getLast?,
      isDigit byte = false := by
    rw [List.getLast?_concat]
    rintro byte ⟨⟩
    exact hdigit
  have hdrop := rdropWhile_digits hlast value.exponent.numeric
  rw [← htext] at hdrop
  have hlonger : ¬ (front ++ [if value.negative then minus else plus] = [] ∨
      front ++ [if value.negative then minus else plus] = front ++ value.text) := by
    rintro (hnil | hsame)
    · exact List.append_ne_nil_of_right_ne_nil _ (List.cons_ne_nil _ _) hnil
    · rw [htext] at hsame
      exact value.exponent.nonempty (List.self_eq_append_right.mp hsame)
  rw [split_simple_power]
  simp only [hdrop, if_neg hlonger, List.getLast?_concat, Option.any_some, hsign, if_true,
    List.dropLast_concat, List.length_append, List.length_cons, List.length_nil,
    Nat.add_sub_cancel, List.drop_left, Nat.zero_add]

theorem split_number (value : Number) (power : Option Signed) :
    (split_simple_power (value.digits ++ (power.map Signed.text).getD [])).1.all isDigit = true := by
  have hdigits := List.all_eq_true.mpr value.numeric
  cases power with
  | none =>
      have hdrop : value.digits.rdropWhile isDigit = [] :=
        List.rdropWhile_eq_nil_iff.mpr value.numeric
      rw [Option.map_none, Option.getD_none, List.append_nil, split_simple_power]
      simp only [hdrop, true_or, if_true]
      exact hdigits
  | some signed =>
      rw [Option.map_some, Option.getD_some, split_signed]
      exact hdigits

theorem split_symbol {symbol : List UInt8} (h : PlainSymbol symbol) (hne : symbol ≠ [])
    (power : Power) : split_simple_power (symbol ++ power.text) = (symbol, power.text) := by
  cases power with
  | none =>
      have hdrop := @rdropWhile_digits _ [] h.last nofun
      rw [List.append_nil] at hdrop
      rw [Power.text, List.append_nil, split_simple_power]
      simp only [hdrop, or_true, if_true]
  | trailing exponent =>
      have hdrop := rdropWhile_digits h.last exponent.numeric
      have hlast : symbol.getLast?.any sign = false := by
        cases hsome : symbol.getLast? with
        | none => rfl
        | some last => exact symbol_last h last hsome
      have hlonger : ¬ (symbol = [] ∨ symbol = symbol ++ exponent.digits) := by
        rintro (hnil | hsame)
        · exact hne hnil
        · exact exponent.nonempty (List.self_eq_append_right.mp hsame)
      rw [Power.text, split_simple_power]
      simp only [hdrop, hlast, if_neg hlonger, Bool.false_eq_true, if_false, List.drop_left]
  | signed value => exact split_signed symbol value

theorem powerOne_iff (power : Power) : powerOne power.text = true ↔ power.isOne := by
  have hdigits : ∀ digits : List UInt8, (∀ digit ∈ digits, isDigit digit = true) →
      (digits.dropWhile (· ∈ [plus, zero]) = [one] ↔ decimal digits = 1) := by
    intro digits hnumeric
    rw [← dropWhile_zero_eq_one hnumeric]
    have hsame : digits.dropWhile (· ∈ [plus, zero]) = digits.dropWhile (· = zero) := by
      induction digits with
      | nil => rfl
      | cons digit digits ih =>
          obtain ⟨hdigit, hrest⟩ := List.forall_mem_cons.mp hnumeric
          have hplus : digit ≠ plus := by
            rintro rfl
            exact absurd hdigit (by decide)
          have hmem : decide (digit ∈ [plus, zero]) = decide (digit = zero) := by
            simp [hplus]
          rw [List.dropWhile_cons, List.dropWhile_cons, hmem, ih hrest]
    rw [hsame]
  cases power with
  | none => exact iff_of_true rfl trivial
  | trailing exponent =>
      have hhead : exponent.digits.head? ≠ some minus := by
        intro hhead
        exact absurd (exponent.numeric minus (List.mem_of_head? hhead)) (by decide)
      rw [powerOne, Power.text, decide_eq_false exponent.nonempty, Bool.false_or,
        decide_eq_true hhead, Bool.true_and, decide_eq_true_eq, hdigits _ exponent.numeric]
      rfl
  | signed value =>
      obtain ⟨negative, exponent⟩ := value
      rw [powerOne, Power.text, Signed.text, decide_eq_false (List.cons_ne_nil _ _), Bool.false_or,
        List.head?_cons]
      cases negative with
      | true => exact iff_of_false (by simp) (fun h => by cases h.1)
      | false =>
          have hsign : ¬ (some plus = some minus) := by decide
          simp only [if_neg Bool.false_ne_true, ne_eq, hsign, not_false_eq_true, decide_true,
            Bool.true_and, decide_eq_true_eq]
          rw [List.dropWhile_cons_of_pos (by simp), hdigits _ exponent.numeric]
          exact ⟨fun h => ⟨rfl, h⟩, fun h => h.2⟩

end Splitting

section Time

variable {dictionary : Dictionary}

/-- One of the temporal atoms, or a prefixed second. -/
def Temporal (dictionary : Dictionary) (symbol : List UInt8) : Prop :=
  symbol ∈ temporalAtoms ∨ ∃ front ∈ dictionary.prefixes, symbol = front ++ ['s'.toUInt8]

theorem is_temporal_atom_iff {symbol : List UInt8} :
    is_temporal_atom dictionary symbol = true ↔ Temporal dictionary symbol := by
  rw [is_temporal_atom, Temporal, Bool.or_eq_true, Bool.and_eq_true, decide_eq_true_eq,
    decide_eq_true_eq, decide_eq_true_eq]
  constructor
  · rintro (hatom | ⟨hlast, hmem⟩)
    · exact .inl hatom
    · exact .inr ⟨_, hmem, (List.dropLast_append_getLast? _ hlast).symm⟩
  · rintro (hatom | ⟨front, hmem, rfl⟩)
    · exact .inl hatom
    · exact .inr ⟨List.getLast?_concat, by rwa [List.dropLast_concat]⟩

/-- A temporal symbol with no power but one, annotated or not, in parentheses or not. -/
def Parse.Temporal (parse : Parse dictionary) : Prop :=
  parse.divided = false ∧ ∃ symbol power note room,
    parse.term = Tree.wrap (.symbol symbol power note) room ∧
      Units.Temporal dictionary symbol.text ∧ power.isOne

theorem svedberg_not_temporal : ¬ Temporal dictionary svedberg := by
  rintro (hatom | ⟨front, -, hsymbol⟩)
  · exact absurd hatom (by decide +kernel)
  · have hlast := congrArg List.getLast? hsymbol
    rw [List.getLast?_concat] at hlast
    exact absurd hlast (by decide +kernel)

theorem known_error {symbol : List UInt8} :
    (known_atom dictionary symbol).toOption = none ↔ ¬ dictionary.Known symbol := by
  rw [Dictionary.known_iff]
  cases known_atom dictionary symbol with
  | error error => exact iff_of_true rfl nofun
  | ok atom => exact iff_of_false nofun fun h => h ⟨atom, rfl⟩

/-- What the check makes of the text without annotations and outer parentheses. -/
theorem validate_time_code_eq_ok {code : List UInt8} :
    validate_time_code dictionary code = .ok () ↔ validate_code dictionary code = .ok () ∧
      ∃ symbol power, split_simple_power (unwrap (without_annotations code)) = (symbol, power) ∧
        symbol.all isDigit = false ∧ dictionary.Known symbol ∧ Temporal dictionary symbol ∧
        powerOne power = true := by
  rw [validate_time_code, bind_eq_ok]
  generalize split_simple_power (unwrap (without_annotations code)) = split
  obtain ⟨symbol, power⟩ := split
  refine ⟨?_, ?_⟩
  · rintro ⟨⟨⟩, hcode, h⟩
    refine ⟨hcode, symbol, power, rfl, ?_⟩
    simp only at h
    split at h
    · exact absurd h nofun
    · rename_i hdigits
      split at h
      · exact absurd h nofun
      · rename_i hknown
        split at h
        · exact absurd h nofun
        · split at h
          · rename_i htemporal
            obtain ⟨htemporal, hpower⟩ := Bool.and_eq_true_iff.mp htemporal
            exact ⟨Bool.not_eq_true _ ▸ hdigits, not_not.mp (known_error.not.mp hknown),
              is_temporal_atom_iff.mp htemporal, hpower⟩
          · split at h <;> exact absurd h nofun
  · rintro ⟨hcode, symbol', power', hsplit, hdigits, hknown, htemporal, hpower⟩
    obtain ⟨rfl, rfl⟩ := Prod.mk.inj hsplit
    have hsvedberg : symbol ≠ svedberg := by
      rintro rfl
      exact svedberg_not_temporal htemporal
    refine ⟨(), hcode, ?_⟩
    simp only [hdigits, Bool.false_eq_true, if_false, known_error.not.mpr (not_not.mpr hknown),
      if_neg hsvedberg, is_temporal_atom_iff.mpr htemporal, hpower, Bool.and_true, if_true]

/-- **The check sees the tree.** -/
theorem validate_time_code_parse (hplain : dictionary.Plain) (parse : Parse dictionary) :
    validate_time_code dictionary parse.text = .ok () ↔
      validate_code dictionary parse.text = .ok () ∧ parse.Temporal := by
  rw [validate_time_code_eq_ok, without_annotations_text hplain]
  refine and_congr_right fun _ => ?_
  obtain ⟨divided, term⟩ := parse
  by_cases hoperator : divided = true ∨ term.joined = true
  · have hpart : ∃ front byte back,
        HasOperator ((if divided then [slash] else []) ++ term.plain) front byte back := by
      cases divided with
      | true => exact ⟨[], slash, term.plain, rfl, rfl, rfl⟩
      | false => exact operator_of_joined hplain (hoperator.resolve_left nofun)
    obtain ⟨front, byte, back, hpart⟩ := hpart
    obtain ⟨front, back, hpart⟩ := hpart.unwrap
    obtain ⟨back, hpart⟩ := hpart.split
    refine iff_of_false ?_ ?_
    · rintro ⟨symbol, power, hsplit, -, hknown, -⟩
      rw [hsplit] at hpart
      exact hpart.unknown hplain hknown
    · rintro ⟨rfl, symbol, power, note, room, hterm, -⟩
      obtain hdivided | hjoined := hoperator
      · exact absurd hdivided nofun
      · obtain rfl : term = Tree.wrap (.symbol symbol power note) room := hterm
        rw [wrap_joined] at hjoined
        exact absurd hjoined nofun
  · obtain ⟨hdivided, hjoined⟩ := not_or.mp hoperator
    obtain rfl : divided = false := Bool.not_eq_true _ ▸ hdivided
    have hjoined : term.joined = false := Bool.not_eq_true _ ▸ hjoined
    rw [if_neg Bool.false_ne_true, List.nil_append]
    obtain hempty | ⟨value, room, hterm⟩ := alone_of_not_joined hjoined
    · rw [unwrap_empty hempty]
      refine iff_of_false ?_ ?_
      · rintro ⟨symbol, power, hsplit, hdigits, -⟩
        rw [← (Prod.mk.inj hsplit).1] at hdigits
        exact absurd hdigits nofun
      · rintro ⟨-, symbol, power, note, room, hterm, -⟩
        obtain rfl : term = Tree.wrap (.symbol symbol power note) room := hterm
        have hplainText := unwrap_wrap hplain (.symbol symbol power note) room
        rw [unwrap_empty hempty] at hplainText
        exact symbol.nonempty (List.append_eq_nil_iff.mp hplainText.symm).1
    · obtain rfl : term = Tree.wrap value room := hterm
      rw [unwrap_wrap hplain]
      cases value with
      | number value power note =>
          refine iff_of_false ?_ ?_
          · rintro ⟨symbol, power', hsplit, hdigits, -⟩
            have hnumber := split_number value power
            rw [Simple.plain] at hsplit
            rw [hsplit, hdigits] at hnumber
            exact absurd hnumber nofun
          · rintro ⟨-, symbol, power', note', room', hterm, -⟩
            exact absurd (wrap_value hterm) nofun
      | symbol symbol power note =>
          have hsymbol := hplain.known symbol.known
          rw [Simple.plain, split_symbol hsymbol symbol.nonempty]
          constructor
          · rintro ⟨symbol', power', hsplit, -, -, htemporal, hpower⟩
            obtain ⟨rfl, rfl⟩ := Prod.mk.inj hsplit
            exact ⟨rfl, symbol, power, note, room, rfl, htemporal, (powerOne_iff power).mp hpower⟩
          · rintro ⟨-, symbol', power', note', room', hterm, htemporal, hpower⟩
            obtain ⟨rfl, rfl, rfl⟩ := Simple.symbol.inj (wrap_value hterm)
            exact ⟨_, _, rfl, symbol_not_digits hsymbol symbol.nonempty, symbol.known, htemporal,
              (powerOne_iff power).mpr hpower⟩

/-- **The codes of one temporal symbol.** -/
theorem validate_time_code_wrap (hplain : dictionary.Plain) {code : List UInt8} :
    validate_time_code dictionary code = .ok () ↔ WithinLimits code ∧
      ∃ symbol power note, ∃ room ≤ MAX_NESTING,
        code = (Tree.wrap (.symbol symbol power note : Simple dictionary) room).text ∧
          Temporal dictionary symbol.text ∧ power.isOne := by
  constructor
  · intro h
    obtain ⟨hlimits, parse, rfl, haccepted⟩ :=
      (validate_code_eq_ok hplain).mp (validate_time_code_eq_ok.mp h).1
    obtain ⟨-, hdivided, symbol, power, note, room, hterm, htemporal, hpower⟩ :=
      (validate_time_code_parse hplain parse).mp h
    have hdepth := haccepted.depth
    rw [hterm, (wrap_depth _ room).1] at hdepth
    refine ⟨hlimits, symbol, power, note, room, hdepth, ?_, htemporal, hpower⟩
    rw [Parse.text, hdivided, hterm]
    rfl
  · rintro ⟨hlimits, symbol, power, note, room, hroom, rfl, htemporal, hpower⟩
    have hparse := validate_time_code_parse hplain
      ⟨false, Tree.wrap (.symbol symbol power note) room⟩
    refine hparse.mpr ⟨(validate_code_eq_ok hplain).mpr ⟨hlimits, _, rfl, ?_⟩, rfl, symbol, power,
      note, room, rfl, htemporal, hpower⟩
    obtain ⟨hdepth, hcount⟩ :=
      wrap_depth (.symbol symbol power note : Simple dictionary) room
    refine ⟨hdepth.trans_le hroom, ?_, fun simple hsimple _ => ⟨rfl, wrap_joined _ _, ?_⟩⟩
    · change (Tree.wrap (.symbol symbol power note : Simple dictionary) room).count ≤ 256
      rw [hcount]
      exact Nat.succ_le_of_lt (Nat.lt_of_le_of_lt hroom (by decide))
    · rw [wrap_simples] at hsimple
      obtain rfl := List.mem_singleton.mp hsimple
      exact hpower

/-- A longer text of printable bytes. -/
theorem WithinLimits.widen {code wider : List UInt8} (h : WithinLimits code)
    (hmem : ∀ byte ∈ wider, byte ∈ code ∨ 33 ≤ byte ∧ byte ≤ 126)
    (hlength : code.length ≤ wider.length) (hbound : wider.length ≤ MAX_CODE_BYTES) :
    WithinLimits wider :=
  ⟨Nat.le_trans h.positive hlength, hbound, fun byte hbyte =>
    (hmem byte hbyte).elim (h.printable byte) id⟩

theorem validate_time_code_parens (hplain : dictionary.Plain) {code : List UInt8}
    (h : validate_time_code dictionary code = .ok ())
    (hnesting : (code.takeWhile (· = openParen)).length < MAX_NESTING)
    (hlength : code.length + 2 ≤ MAX_CODE_BYTES) :
    validate_time_code dictionary (openParen :: code ++ [closeParen]) = .ok () := by
  obtain ⟨hlimits, symbol, power, note, room, -, rfl, htemporal, hpower⟩ :=
    (validate_time_code_wrap hplain).mp h
  rw [wrap_parens hplain] at hnesting
  refine (validate_time_code_wrap hplain).mpr ⟨hlimits.widen ?_ ?_ ?_, symbol, power, note,
    room + 1, hnesting, rfl, htemporal, hpower⟩
  · intro byte hbyte
    rw [List.cons_append, List.mem_cons, List.mem_append, List.mem_singleton] at hbyte
    obtain rfl | hbyte | rfl := hbyte
    · exact .inr (by decide)
    · exact .inl hbyte
    · exact .inr (by decide)
  · simp only [List.length_append, List.length_cons]
    omega
  · simp only [List.length_append, List.length_cons, List.length_nil]
    exact hlength

theorem validate_time_code_note (hplain : dictionary.Plain) {room : ℕ} {symbol : Symbol dictionary}
    {power : Power} {note : Note} (h : validate_time_code dictionary
      (List.replicate room openParen ++ (symbol.text ++ power.text) ++
        List.replicate room closeParen) = .ok ())
    (hnote : ∀ byte ∈ note.inside, 33 ≤ byte ∧ byte ≤ 126)
    (hlength : (List.replicate room openParen ++ (symbol.text ++ power.text) ++
      List.replicate room closeParen).length + note.text.length ≤ MAX_CODE_BYTES) :
    validate_time_code dictionary
      (List.replicate room openParen ++ (symbol.text ++ power.text ++ note.text) ++
        List.replicate room closeParen) = .ok () := by
  have hbare : List.replicate room openParen ++ (symbol.text ++ power.text) ++
      List.replicate room closeParen =
        (Tree.wrap (.symbol symbol power none : Simple dictionary) room).text := by
    rw [wrap_text, Simple.text, noteText, Option.map_none, Option.getD_none, List.append_nil]
  have hnoted : List.replicate room openParen ++ (symbol.text ++ power.text ++ note.text) ++
      List.replicate room closeParen =
        (Tree.wrap (.symbol symbol power (some note) : Simple dictionary) room).text := by
    rw [wrap_text, Simple.text, noteText, Option.map_some, Option.getD_some]
  have hwrapped := h
  rw [hbare] at hwrapped
  have htree := (validate_time_code_parse hplain
    ⟨false, Tree.wrap (.symbol symbol power none) room⟩).mp hwrapped
  obtain ⟨-, -, symbol', power', note', room', hterm, htemporal, hpower⟩ := htree
  obtain ⟨rfl, rfl, -⟩ := Simple.symbol.inj (wrap_value hterm)
  obtain ⟨hlimits, symbol', power', note', room', hroom, hcode, -⟩ :=
    (validate_time_code_wrap hplain).mp h
  have hsame : room = room' := by
    rw [← wrap_parens hplain (.symbol symbol power none) room, ← hbare, hcode, wrap_parens hplain]
  refine (validate_time_code_wrap hplain).mpr ⟨hlimits.widen ?_ ?_ ?_, symbol, power, some note,
    room, hsame ▸ hroom, hnoted, htemporal, hpower⟩
  · intro byte hbyte
    simp only [List.mem_append] at hbyte ⊢
    obtain (hbyte | hbyte | hbyte) | hbyte := hbyte
    · exact .inl (.inl (.inl hbyte))
    · exact .inl (.inl (.inr hbyte))
    · rw [Note.text, List.cons_append, List.mem_cons, List.mem_append, List.mem_singleton] at hbyte
      obtain rfl | hbyte | rfl := hbyte
      · exact .inr (by decide)
      · exact .inr (hnote byte hbyte)
      · exact .inr (by decide)
    · exact .inl (.inr hbyte)
  · simp only [List.length_append]
    omega
  · simp only [List.length_append] at hlength ⊢
    omega

/-- **Temporal unit codes.**  The check accepts what is accepted as a code and is, in any
number of parentheses and annotated or not, one temporal symbol with no power but one. -/
theorem validate_time_code_exact (dictionary : Dictionary) (hplain : dictionary.Plain)
    (code : List UInt8) :
    (validate_time_code dictionary code = .ok () ↔ validate_code dictionary code = .ok () ∧
      ∃ parse : Parse dictionary, code = parse.text ∧ parse.Accepted ∧ parse.Temporal) ∧
    (∀ parse : Parse dictionary, code = parse.text →
      validate_time_code dictionary code = .ok () → parse.Temporal) ∧
    (validate_time_code dictionary code = .ok () →
      (code.takeWhile (· = openParen)).length < 32 → code.length + 2 ≤ 4096 →
      validate_time_code dictionary (openParen :: code ++ [closeParen]) = .ok ()) ∧
    (∀ (room : ℕ) (symbol : Symbol dictionary) (power : Power) (note : Note),
      code = List.replicate room openParen ++ (symbol.text ++ power.text) ++
        List.replicate room closeParen →
      validate_time_code dictionary code = .ok () →
      (∀ byte ∈ note.inside, 33 ≤ byte ∧ byte ≤ 126) →
      code.length + note.text.length ≤ 4096 →
      validate_time_code dictionary
        (List.replicate room openParen ++ (symbol.text ++ power.text ++ note.text) ++
          List.replicate room closeParen) = .ok ()) ∧
    (validate_code dictionary code = .ok () →
      (∃ parse : Parse dictionary, code = parse.text ∧ parse.Accepted) ∧
      ∀ parse : Parse dictionary, code = parse.text →
        tagged false false code = parse.tags ∧
          without_annotations code = untagged parse.tags) := by
  refine ⟨⟨fun h => ?_, ?_⟩, ?_, fun h => validate_time_code_parens hplain h, ?_, fun h => ?_⟩
  · have hcode := (validate_time_code_eq_ok.mp h).1
    obtain ⟨-, parse, rfl, haccepted⟩ := (validate_code_eq_ok hplain).mp hcode
    exact ⟨hcode, parse, rfl, haccepted, ((validate_time_code_parse hplain parse).mp h).2⟩
  · rintro ⟨hcode, parse, rfl, -, htemporal⟩
    exact (validate_time_code_parse hplain parse).mpr ⟨hcode, htemporal⟩
  · rintro parse rfl h
    exact ((validate_time_code_parse hplain parse).mp h).2
  · rintro room symbol power note rfl h hnote hlength
    exact validate_time_code_note hplain h hnote hlength
  · obtain ⟨-, hparse⟩ := (validate_code_eq_ok hplain).mp h
    refine ⟨hparse, ?_⟩
    rintro parse rfl
    have htags := tagged_parse hplain parse
    exact ⟨htags, by rw [without_annotations, stripAnnotations_eq, htags]⟩

theorem validate_time_code_exact_millisecond :
    validate_time_code pinned (openParen :: ascii "ms+1" ++ [closeParen]) = .ok () :=
  (validate_time_code_exact pinned pinned_plain (ascii "ms+1")).2.2.1
    (toOption_eq_some.mp (by decide +kernel)) (by decide +kernel) (by decide +kernel)

/-- The symbol `s`. -/
def second : Symbol pinned where
  text := ascii "s"
  nonempty := by decide +kernel
  known := Dictionary.known_iff.mpr ⟨⟨true, false⟩, toOption_eq_some.mp (by decide +kernel)⟩

/-- The exponent `1`. -/
def unsignedOne : Power :=
  .trailing ⟨ascii "1", by decide +kernel, by decide +kernel, by decide +kernel⟩

/-- An annotation by `x`. -/
def remark : Note := ⟨ascii "x", by decide +kernel, by decide +kernel⟩

/-- Between a symbol and its exponent no annotation may stand. -/
theorem not_annotated_symbol : ¬ ∀ (symbol : Symbol pinned) (power : Power) (note : Note),
    validate_time_code pinned (symbol.text ++ power.text) = .ok () →
    (∀ byte ∈ note.inside, 33 ≤ byte ∧ byte ≤ 126) →
    (symbol.text ++ power.text).length + note.text.length ≤ 4096 →
    validate_time_code pinned (symbol.text ++ note.text ++ power.text) = .ok () := by
  intro h
  have hbroken := h second unsignedOne remark (toOption_eq_some.mp (by decide +kernel))
    (by decide +kernel) (by decide +kernel)
  have hrefused : (validate_time_code pinned
      (second.text ++ remark.text ++ unsignedOne.text)).toOption = none := by
    decide +kernel
  rw [hbroken] at hrefused
  exact absurd hrefused nofun

end Time

end Units
end Standards
end Glaux
