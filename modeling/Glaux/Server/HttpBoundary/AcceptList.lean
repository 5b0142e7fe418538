import Glaux.Server.HttpBoundary.MediaGrammar

/-!
# The list of media ranges

The splitter cuts at the commas outside its strings.  The strings of an element that is
accepted are the strings of the splitter, so an element is never cut inside a string.
-/

namespace Glaux
namespace Server
namespace HttpBoundary
namespace Media

open Library FieldLines

section Split

/-- The text between quotes, for the splitter: a backslash passes over the next byte. -/
inductive Body : List UInt8 → Prop
  | nil : Body []
  | plain {byte : UInt8} {body : List UInt8} (hquote : byte ≠ quote)
      (hbackslash : byte ≠ backslash) (h : Body body) : Body (byte :: body)
  | pair (byte : UInt8) {body : List UInt8} (h : Body body) : Body (backslash :: byte :: body)

/-- A part of the list: every quote is closed, and no comma stands outside quotes. -/
inductive Piece : List UInt8 → Prop
  | nil : Piece []
  | plain {byte : UInt8} {rest : List UInt8} (hquote : byte ≠ quote) (hcomma : byte ≠ comma)
      (h : Piece rest) : Piece (byte :: rest)
  | string {body rest : List UInt8} (hbody : Body body) (h : Piece rest) :
      Piece (quote :: (body ++ quote :: rest))

theorem Piece.append {front back : List UInt8} (hfront : Piece front) (hback : Piece back) :
    Piece (front ++ back) := by
  induction hfront with
  | nil => exact hback
  | plain hquote hcomma _ ih => exact .plain hquote hcomma ih
  | string hbody _ ih =>
      rw [List.cons_append, List.append_assoc, List.cons_append]
      exact .string hbody ih

/-- The scanner outside a string. -/
def outside (parts : Parts) (part : List UInt8) : Scanner := ⟨parts, part, false, false⟩

/-- The scanner inside a string. -/
def inside (parts : Parts) (part : List UInt8) : Scanner := ⟨parts, part, true, false⟩

variable {parts : Parts} {part rest : List UInt8} {result : List (List UInt8)}

theorem scan_cons {s s' : Scanner} {byte : UInt8} (h : scanByte s byte = .ok s')
    (rest : List UInt8) : scan s (byte :: rest) = scan s' rest := by
  rw [scan, scan, List.foldlM_cons, h, ok_bind]

theorem scan_plain {byte : UInt8} (hquote : byte ≠ quote) (hcomma : byte ≠ comma) :
    scan (outside parts part) (byte :: rest) = scan (outside parts (part ++ [byte])) rest := by
  refine scan_cons ?_ rest
  simp [scanByte, outside, hquote, hcomma]

theorem scan_open :
    scan (outside parts part) (quote :: rest) = scan (inside parts (part ++ [quote])) rest := by
  refine scan_cons ?_ rest
  simp [scanByte, outside, inside]

theorem scan_comma :
    scan (outside parts part) (comma :: rest) =
      push_part part parts >>= fun parts => scan (outside parts []) rest := by
  have hbyte : scanByte (outside parts part) comma =
      (push_part part parts).map fun parts => outside parts [] := by
    have hquote : ¬ comma = quote := by decide
    simp [scanByte, outside, hquote]
  rw [scan, List.foldlM_cons, hbyte]
  cases push_part part parts with
  | error e => rfl
  | ok parts => rfl

theorem scan_body {body : List UInt8} (hbody : Body body) :
    scan (inside parts part) (body ++ quote :: rest) =
      scan (outside parts (part ++ body ++ [quote])) rest := by
  induction hbody generalizing part with
  | nil =>
      rw [List.nil_append, List.append_nil]
      refine scan_cons ?_ rest
      simp [scanByte, outside, inside, show quote ≠ backslash by decide]
  | @plain byte body hquote hbackslash _ ih =>
      have hbyte : scanByte (inside parts part) byte = .ok (inside parts (part ++ [byte])) := by
        simp [scanByte, inside, hquote, hbackslash]
      rw [List.cons_append, scan_cons hbyte, ih]
      simp
  | @pair byte body _ ih =>
      have hbackslash : scanByte (inside parts part) backslash =
          .ok ⟨parts, part ++ [backslash], true, true⟩ := by
        simp [scanByte, inside]
      have hbyte : scanByte ⟨parts, part ++ [backslash], true, true⟩ byte =
          .ok (inside parts (part ++ [backslash] ++ [byte])) := rfl
      rw [List.cons_append, List.cons_append, scan_cons hbackslash, scan_cons hbyte, ih]
      simp

/-- A string that the scan leaves has been closed. -/
theorem exists_body {input : List UInt8} (h : scan (inside parts part) input = .ok result) :
    ∃ body rest, Body body ∧ input = body ++ quote :: rest := by
  induction hlength : input.length using Nat.strong_induction_on generalizing input part with
  | _ n ih =>
      cases input with
      | nil => exact absurd h nofun
      | cons byte input =>
          by_cases hquote : byte = quote
          · exact ⟨[], input, .nil, by rw [hquote]; rfl⟩
          · by_cases hbackslash : byte = backslash
            · subst hbackslash
              have hbyte : scanByte (inside parts part) backslash =
                  .ok ⟨parts, part ++ [backslash], true, true⟩ := by
                simp [scanByte, inside]
              rw [scan_cons hbyte] at h
              cases input with
              | nil => exact absurd h nofun
              | cons next input =>
                  have hnext : scanByte ⟨parts, part ++ [backslash], true, true⟩ next =
                      .ok (inside parts (part ++ [backslash] ++ [next])) := rfl
                  rw [scan_cons hnext] at h
                  obtain ⟨body, rest, hbody, rfl⟩ :=
                    ih input.length (by rw [← hlength, List.length_cons, List.length_cons]; omega) h rfl
                  exact ⟨backslash :: next :: body, rest, .pair next hbody, rfl⟩
            · have hbyte : scanByte (inside parts part) byte =
                  .ok (inside parts (part ++ [byte])) := by
                simp [scanByte, inside, hquote, hbackslash]
              rw [scan_cons hbyte] at h
              obtain ⟨body, rest, hbody, rfl⟩ :=
                ih input.length (by rw [← hlength]; simp) h rfl
              exact ⟨byte :: body, rest, .plain hquote hbackslash hbody, rfl⟩

theorem scan_piece {piece : List UInt8} (h : Piece piece) :
    scan (outside parts part) (piece ++ rest) = scan (outside parts (part ++ piece)) rest := by
  induction h generalizing part with
  | nil => rw [List.nil_append, List.append_nil]
  | @plain byte piece hquote hcomma _ ih =>
      rw [List.cons_append, scan_plain hquote hcomma, ih, List.append_assoc, List.singleton_append]
  | @string body piece hbody _ ih =>
      rw [List.cons_append, List.append_assoc, List.cons_append, scan_open, scan_body hbody, ih]
      simp

/-- All parts are pushed. -/
def pushAll (pieces : List (List UInt8)) (parts : Parts) : Except Unit Parts :=
  pieces.foldlM (fun parts piece => push_part piece parts) parts

theorem pushAll_cons (piece : List UInt8) (pieces : List (List UInt8)) (parts : Parts) :
    pushAll (piece :: pieces) parts =
      push_part piece parts >>= fun parts => pushAll pieces parts :=
  List.foldlM_cons

theorem scan_end : scan (outside parts part) [] = (push_part part parts).map (·.1) := rfl

/-- **The splitter** cuts a list into its pieces. -/
theorem scan_eq_ok {input : List UInt8} :
    scan (outside parts part) input = .ok result ↔
      ∃ piece pieces, Piece piece ∧ (∀ piece ∈ pieces, Piece piece) ∧
        input = piece ++ pieces.flatMap (comma :: ·) ∧
        (pushAll ((part ++ piece) :: pieces) parts).map (·.1) = .ok result := by
  constructor
  · intro h
    induction hlength : input.length using Nat.strong_induction_on
      generalizing input part parts with
    | _ n ih =>
        cases input with
        | nil =>
            refine ⟨[], [], .nil, nofun, rfl, ?_⟩
            obtain ⟨parts', hpart, hresult⟩ := map_eq_ok.mp (scan_end.symm.trans h)
            rw [List.append_nil, pushAll_cons, hpart, ← hresult]
            rfl
        | cons byte input =>
            by_cases hquote : byte = quote
            · subst hquote
              rw [scan_open] at h
              obtain ⟨body, rest, hbody, rfl⟩ := exists_body h
              rw [scan_body hbody] at h
              obtain ⟨piece, pieces, hpiece, hpieces, rfl, hpush⟩ :=
                ih rest.length (by rw [← hlength, List.length_cons, List.length_append,
                  List.length_cons]; omega) h rfl
              refine ⟨quote :: (body ++ quote :: piece), pieces, .string hbody hpiece, hpieces,
                by simp, ?_⟩
              simpa using hpush
            · by_cases hcomma : byte = comma
              · subst hcomma
                rw [scan_comma] at h
                obtain ⟨parts', hpart, h⟩ := bind_eq_ok.mp h
                obtain ⟨piece, pieces, hpiece, hpieces, rfl, hpush⟩ :=
                  ih input.length (by rw [← hlength]; simp) h rfl
                refine ⟨[], piece :: pieces, .nil, List.forall_mem_cons.mpr ⟨hpiece, hpieces⟩,
                  by simp, ?_⟩
                rw [pushAll_cons, List.append_nil, hpart, ok_bind]
                exact hpush
              · rw [scan_plain hquote hcomma] at h
                obtain ⟨piece, pieces, hpiece, hpieces, rfl, hpush⟩ :=
                  ih input.length (by rw [← hlength]; simp) h rfl
                refine ⟨byte :: piece, pieces, .plain hquote hcomma hpiece, hpieces, by simp, ?_⟩
                simpa using hpush
  · rintro ⟨piece, pieces, hpiece, hpieces, rfl, hpush⟩
    rw [scan_piece hpiece]
    generalize part ++ piece = part at hpush
    induction pieces generalizing part parts with
    | nil =>
        obtain ⟨parts', hall, hresult⟩ := map_eq_ok.mp hpush
        rw [pushAll_cons] at hall
        obtain ⟨parts'', hpart, hall⟩ := bind_eq_ok.mp hall
        obtain rfl := Except.ok.inj hall
        rw [List.flatMap_nil, scan_end, hpart, ← hresult]
        rfl
    | cons next pieces ih =>
        obtain ⟨hnext, hpieces⟩ := List.forall_mem_cons.mp hpieces
        obtain ⟨parts', hall, hresult⟩ := map_eq_ok.mp hpush
        rw [pushAll_cons] at hall
        obtain ⟨parts'', hpart, hall⟩ := bind_eq_ok.mp hall
        rw [List.flatMap_cons, List.cons_append, scan_comma, hpart, ok_bind, scan_piece hnext,
          List.nil_append]
        exact ih hpieces next (map_eq_ok.mpr ⟨parts', hall, hresult⟩)

/-- The pieces that are not blank, trimmed. -/
def cores (pieces : List (List UInt8)) : List (List UInt8) :=
  pieces.filterMap fun piece => if trim piece = [] then none else some (trim piece)

/-- How many pieces are blank. -/
def empties (pieces : List (List UInt8)) : ℕ := pieces.countP fun piece => trim piece = []

theorem cores_blank {piece : List UInt8} (h : trim piece = []) (pieces : List (List UInt8)) :
    cores (piece :: pieces) = cores pieces ∧ empties (piece :: pieces) = empties pieces + 1 :=
  ⟨List.filterMap_cons_none (if_pos h), List.countP_cons_of_pos (by simpa using h)⟩

theorem cores_solid {piece : List UInt8} (h : trim piece ≠ []) (pieces : List (List UInt8)) :
    cores (piece :: pieces) = trim piece :: cores pieces ∧
      empties (piece :: pieces) = empties pieces :=
  ⟨List.filterMap_cons_some (if_neg h), List.countP_cons_of_neg (by simpa using h)⟩

theorem pushAll_eq_ok {pieces : List (List UInt8)} {parts' : Parts}
    (hfew : parts.1.length ≤ maxRanges) (hempty : parts.2 ≤ maxEmptyElements) :
    pushAll pieces parts = .ok parts' ↔
      parts' = (parts.1 ++ cores pieces, parts.2 + empties pieces) ∧
        parts'.1.length ≤ maxRanges ∧ parts'.2 ≤ maxEmptyElements := by
  induction pieces generalizing parts with
  | nil =>
      constructor
      · intro h
        obtain rfl := Except.ok.inj h
        exact ⟨by simp [cores, empties], hfew, hempty⟩
      · rintro ⟨rfl, -⟩
        simp [pushAll, cores, empties]
  | cons piece pieces ih =>
      rw [pushAll_cons, push_part]
      by_cases hblank : trim piece = []
      · obtain ⟨hcores, hempties⟩ := cores_blank hblank pieces
        rw [if_pos hblank, hcores, hempties]
        by_cases hroom : parts.2 + 1 > maxEmptyElements
        · rw [if_pos hroom]
          refine iff_of_false nofun ?_
          rintro ⟨rfl, -, h⟩
          dsimp only at h
          omega
        · rw [if_neg hroom, ok_bind,
            @ih (parts.1, parts.2 + 1) hfew (Nat.le_of_not_lt hroom)]
          simp only [Nat.add_assoc, Nat.add_comm 1]
      · obtain ⟨hcores, hempties⟩ := cores_solid hblank pieces
        rw [if_neg hblank, hcores, hempties]
        by_cases hroom : parts.1.length = maxRanges
        · rw [if_pos hroom]
          refine iff_of_false nofun ?_
          rintro ⟨rfl, h, -⟩
          simp only [List.length_append, List.length_cons] at h
          omega
        · have hnext : (parts.1 ++ [trim piece]).length ≤ maxRanges := by
            rw [List.length_append, List.length_singleton]
            omega
          rw [if_neg hroom, ok_bind, @ih (parts.1 ++ [trim piece], parts.2) hnext hempty]
          simp only [List.append_assoc, List.singleton_append]

/-- **Lists.**  The parts are the trimmed pieces between the commas outside strings. -/
theorem list_eq_ok {input : List UInt8} :
    list input = .ok result ↔
      input.length ≤ maxBytes ∧ ∃ pieces, pieces ≠ [] ∧ (∀ piece ∈ pieces, Piece piece) ∧
        input = join pieces ∧ result = cores pieces ∧ (cores pieces).length ≤ maxRanges ∧
        empties pieces ≤ maxEmptyElements := by
  rw [list]
  by_cases hsize : input.length > maxBytes
  · rw [if_pos hsize]
    exact iff_of_false nofun fun h => absurd h.1 (Nat.not_le.mpr hsize)
  · rw [if_neg hsize]
    refine (@scan_eq_ok ([], 0) [] result input).trans ?_
    have hpush : ∀ pieces, (pushAll pieces ([], 0)).map (·.1) = .ok result ↔
        result = cores pieces ∧ (cores pieces).length ≤ maxRanges ∧
          empties pieces ≤ maxEmptyElements := by
      intro pieces
      constructor
      · intro h
        obtain ⟨parts', hall, rfl⟩ := map_eq_ok.mp h
        obtain ⟨rfl, hfew, hempty⟩ :=
          (pushAll_eq_ok (Nat.zero_le _) (Nat.zero_le _)).mp hall
        exact ⟨List.nil_append _, by simpa using hfew, by simpa using hempty⟩
      · rintro ⟨rfl, hfew, hempty⟩
        refine map_eq_ok.mpr ⟨(cores pieces, empties pieces), ?_, rfl⟩
        exact (pushAll_eq_ok (Nat.zero_le _) (Nat.zero_le _)).mpr ⟨by simp, hfew, hempty⟩
    constructor
    · rintro ⟨piece, pieces, hpiece, hpieces, rfl, h⟩
      rw [List.nil_append] at h
      exact ⟨Nat.le_of_not_lt hsize, piece :: pieces, List.cons_ne_nil _ _,
        List.forall_mem_cons.mpr ⟨hpiece, hpieces⟩, (join_cons piece pieces).symm,
        (hpush _).mp h⟩
    · rintro ⟨-, pieces, hne, hpieces, rfl, h⟩
      obtain ⟨piece, pieces, rfl⟩ := List.exists_cons_of_ne_nil hne
      obtain ⟨hpiece, hpieces⟩ := List.forall_mem_cons.mp hpieces
      exact ⟨piece, pieces, hpiece, hpieces, join_cons piece pieces, (hpush _).mpr h⟩

end Split

section Elements

/-- An element of the list: blanks only, or a media range between blanks. -/
inductive Element where
  | empty (blanks : List UInt8)
  | range (written : Written)

namespace Element

def text : Element → List UInt8
  | empty blanks => blanks
  | range written => written.text

def WellFormed : Element → Prop
  | empty blanks => Blanks blanks
  | range written => written.WellFormed true

def range? : Element → Option Written
  | empty _ => none
  | range written => some written

def isEmpty : Element → Bool
  | empty _ => true
  | range _ => false

end Element

theorem piece_plain {bytes : List UInt8} (h : ∀ byte ∈ bytes, byte ≠ quote ∧ byte ≠ comma) :
    Piece bytes := by
  induction bytes with
  | nil => exact .nil
  | cons byte bytes ih =>
      obtain ⟨⟨hquote, hcomma⟩, hbytes⟩ := List.forall_mem_cons.mp h
      exact .plain hquote hcomma (ih hbytes)

theorem piece_blanks {bytes : List UInt8} (h : Blanks bytes) : Piece bytes := by
  refine piece_plain fun byte hbyte => ?_
  have hblank := h byte hbyte
  rw [blank, Bool.or_eq_true, beq_iff_eq, beq_iff_eq] at hblank
  obtain rfl | rfl := hblank <;> decide

theorem piece_token {bytes : List UInt8} (h : Token bytes) : Piece bytes := by
  refine piece_plain fun byte hbyte => ?_
  obtain ⟨-, -, hcomma, hquote⟩ := token_blank (h.2 byte hbyte)
  exact ⟨hquote, hcomma⟩

/-- What the cursor reads as a string is a string of the splitter. -/
theorem Quoted.body {body text : List UInt8} (h : Quoted body text) : Body body := by
  induction h with
  | nil => exact .nil
  | plain hbyte _ ih => exact .plain (qdtext_ne hbyte).1 (qdtext_ne hbyte).2 ih
  | pair _ _ ih => exact .pair _ ih

theorem piece_value {v : Value} (h : v.WellFormed) : Piece v.written := by
  cases v with
  | token text => exact piece_token h
  | quoted body text => exact .string (Quoted.body h) .nil

theorem piece_segment {segment : Segment} (h : segment.WellFormed) : Piece segment.text := by
  cases segment with
  | empty before after =>
      exact (piece_blanks h.1).append (.plain (by decide) (by decide) (piece_blanks h.2))
  | parameter before after name v =>
      obtain ⟨hbefore, hafter, hname, hv⟩ := h
      refine (piece_blanks hbefore).append (.plain (by decide) (by decide) ?_)
      refine (piece_blanks hafter).append ((piece_token hname).append ?_)
      exact .plain (by decide) (by decide) (piece_value hv)

/-- **An element is one piece.** -/
theorem piece_element {element : Element} (h : element.WellFormed) : Piece element.text := by
  cases element with
  | empty blanks => exact piece_blanks h
  | range m =>
      obtain ⟨before, kind, subtype, segments, after⟩ := m
      have hsegments : Piece (segments.flatMap Segment.text) := by
        have hall := Written.WellFormed.segments h
        dsimp only at hall
        clear h
        induction segments with
        | nil => exact .nil
        | cons segment segments ih =>
            obtain ⟨hsegment, hsegments⟩ := List.forall_mem_cons.mp hall
            exact (piece_segment hsegment).append (ih hsegments)
      refine (piece_blanks h.before).append ((piece_token h.kind).append ?_)
      refine .plain (by decide) (by decide) ((piece_token h.subtype).append ?_)
      exact hsegments.append (piece_blanks h.after)

theorem trim_eq_nil {input : List UInt8} : trim input = [] ↔ Blanks input := by
  rw [trim, List.rdropWhile_eq_nil_iff]
  constructor
  · intro h byte hbyte
    rw [← @List.takeWhile_append_dropWhile _ blank input] at hbyte
    exact (List.mem_append.mp hbyte).elim (takeWhile_accepted blank input byte) (h byte)
  · exact fun h byte hbyte => h byte ((List.dropWhile_sublist _).subset hbyte)

/-- Trimming leaves no blank at either end. -/
theorem trim_solid (input : List UInt8) :
    trim input = [] ∨
      (∀ byte ∈ (trim input).head?, blank byte = false) ∧ EndsSolid (trim input) := by
  by_cases hempty : trim input = []
  · exact .inl hempty
  · refine .inr ⟨fun byte hbyte => ?_, ?_⟩
    · obtain ⟨back, hback⟩ := List.rdropWhile_prefix blank (input.dropWhile blank)
      change trim input ++ back = _ at hback
      refine dropWhile_stop blank input byte ?_
      rw [← hback, List.head?_append, Option.mem_def.mp hbyte]
      rfl
    · have hlast := List.rdropWhile_last_not blank (input.dropWhile blank) hempty
      exact ⟨(trim input).dropLast, (trim input).getLast hempty,
        (List.dropLast_append_getLast hempty).symm, Bool.eq_false_iff.mpr hlast⟩

theorem trim_trim (input : List UInt8) : trim (trim input) = trim input := by
  obtain h | ⟨hfirst, hsolid⟩ := trim_solid input
  · rw [h]
    rfl
  · have htrim := @trim_eq [] _ [] nofun hfirst hsolid nofun
    rwa [List.nil_append, List.append_nil] at htrim

theorem length_trim (input : List UInt8) : (trim input).length ≤ input.length :=
  ((List.rdropWhile_prefix _ _).sublist.trans (List.dropWhile_sublist _)).length_le

theorem parse_media_trim {input : List UInt8} (h : input.length ≤ maxBytes) (range : Bool) :
    parse_media (trim input) range = parse_media input range := by
  have htrim := Nat.not_lt.mpr ((length_trim input).trans h)
  rw [parse_media, parse_media, if_neg (Nat.not_lt.mpr h), if_neg htrim, trim_trim]

theorem not_blank_written {m : Written} {range : Bool} (h : m.WellFormed range) :
    trim m.text ≠ [] := by
  obtain ⟨first, more, hfirst⟩ := List.exists_cons_of_ne_nil h.kind.1
  have hkind : first ∈ m.kind := by
    rw [hfirst]
    exact List.mem_cons_self
  intro hempty
  have hblank := trim_eq_nil.mp hempty first (by simp [Written.text, hkind])
  rw [(token_blank (h.kind.2 first hkind)).1] at hblank
  cases hblank

/-- The pieces of elements. -/
theorem cores_elements {elements : List Element} (h : ∀ e ∈ elements, e.WellFormed) :
    cores (elements.map Element.text) =
        (elements.filterMap Element.range?).map (fun m => trim m.text) ∧
      empties (elements.map Element.text) = elements.countP Element.isEmpty := by
  induction elements with
  | nil => exact ⟨rfl, rfl⟩
  | cons element elements ih =>
      obtain ⟨helement, helements⟩ := List.forall_mem_cons.mp h
      obtain ⟨hcores, hempties⟩ := ih helements
      cases element with
      | empty blanks =>
          obtain ⟨hcores', hempties'⟩ :=
            cores_blank (trim_eq_nil.mpr helement) (elements.map Element.text)
          refine ⟨hcores'.trans hcores, hempties'.trans ?_⟩
          rw [hempties, List.countP_cons_of_pos rfl]
      | range m =>
          obtain ⟨hcores', hempties'⟩ :=
            cores_solid (not_blank_written helement) (elements.map Element.text)
          exact ⟨hcores'.trans (congrArg (trim m.text :: ·) hcores), hempties'.trans hempties⟩

/-- Blanks around a media range belong to its element. -/
def Written.within (m : Written) (before after : List UInt8) : Written :=
  { m with before := before ++ m.before, after := m.after ++ after }

theorem Written.within_wellFormed {m : Written} {range : Bool} {before after : List UInt8}
    (h : m.WellFormed range) (hbefore : Blanks before) (hafter : Blanks after) :
    (m.within before after).WellFormed range ∧
      (m.within before after).text = before ++ (m.text ++ after) := by
  refine ⟨⟨?_, h.kind, h.subtype, h.segments, ?_, h.wildcard, h.concrete, h.distinct, h.few,
    h.fewEmpty⟩, by simp [Written.text, within]⟩
  · exact fun byte hbyte => (List.mem_append.mp hbyte).elim (hbefore byte) (h.before byte)
  · exact fun byte hbyte => (List.mem_append.mp hbyte).elim (h.after byte) (hafter byte)

/-- **From pieces to elements.**  When every piece that is not blank is read, the pieces are
elements. -/
theorem exists_elements {pieces : List (List UInt8)} {result : List Media}
    (h : List.Forall₂ (fun piece media => parse_media piece true = .ok media) (cores pieces)
      result) :
    ∃ elements : List Element, elements.map Element.text = pieces ∧
      (∀ e ∈ elements, e.WellFormed) ∧
      List.Forall₂ (Written.Denotes true) (elements.filterMap Element.range?) result := by
  induction pieces generalizing result with
  | nil =>
      obtain rfl := List.forall₂_nil_left_iff.mp h
      exact ⟨[], rfl, nofun, .nil⟩
  | cons piece pieces ih =>
      by_cases hblank : trim piece = []
      · rw [(cores_blank hblank pieces).1] at h
        obtain ⟨elements, htexts, helements, hdenotes⟩ := ih h
        refine ⟨.empty piece :: elements, ?_, ?_, hdenotes⟩
        · rw [List.map_cons, htexts]
          rfl
        · exact List.forall_mem_cons.mpr ⟨trim_eq_nil.mp hblank, helements⟩
      · rw [(cores_solid hblank pieces).1] at h
        obtain ⟨media, result, hmedia, hrest, rfl⟩ := List.forall₂_cons_left_iff.mp h
        obtain ⟨elements, htexts, helements, hdenotes⟩ := ih hrest
        obtain ⟨-, m, hm, htext, hmeans⟩ := parse_media_eq_ok.mp hmedia
        obtain ⟨before, after, hbefore, hafter, hpiece⟩ := exists_trim piece
        obtain ⟨hwithin, hwritten⟩ := Written.within_wellFormed hm hbefore hafter
        refine ⟨.range (m.within before after) :: elements, ?_, ?_, ?_⟩
        · rw [List.map_cons, htexts, Element.text, hwritten, ← htext, ← hpiece]
        · exact List.forall_mem_cons.mpr ⟨hwithin, helements⟩
        · exact .cons ⟨hmeans.kind, hmeans.subtype, hmeans.parameters, hmeans.quality⟩ hdenotes

theorem length_le_join {piece : List UInt8} {pieces : List (List UInt8)} (h : piece ∈ pieces) :
    piece.length ≤ (join pieces).length := by
  obtain ⟨before, after, rfl⟩ := List.append_of_mem h
  cases before with
  | nil =>
      rw [List.nil_append, join_cons, List.length_append]
      exact Nat.le_add_right _ _
  | cons first before =>
      rw [List.cons_append, join_cons, List.flatMap_append, List.flatMap_cons]
      simp only [List.length_append, List.length_cons]
      omega

theorem parse_elements {elements : List Element} {result : List Media}
    (h : ∀ e ∈ elements, e.WellFormed) (hsize : ∀ e ∈ elements, e.text.length ≤ maxBytes)
    (hdenotes : List.Forall₂ (Written.Denotes true) (elements.filterMap Element.range?) result) :
    List.Forall₂ (fun part media => parse_media part true = .ok media)
      ((elements.filterMap Element.range?).map fun m => trim m.text) result := by
  induction elements generalizing result with
  | nil => exact List.forall₂_nil_left_iff.mpr (List.forall₂_nil_left_iff.mp hdenotes)
  | cons element elements ih =>
      obtain ⟨helement, helements⟩ := List.forall_mem_cons.mp h
      obtain ⟨hlength, hlengths⟩ := List.forall_mem_cons.mp hsize
      cases element with
      | empty blanks => exact ih helements hlengths hdenotes
      | range m =>
          obtain ⟨media, result, hmedia, hrest, rfl⟩ := List.forall₂_cons_left_iff.mp hdenotes
          refine .cons ?_ (ih helements hlengths hrest)
          exact (parse_media_trim hlength true).trans
            (parse_media_eq_ok.mpr ⟨hlength, m, helement, rfl, hmedia⟩)

end Elements

section Accept

/-- An `Accept` field as it is written, within the bounds. -/
structure AcceptOf (lines : List (List UInt8)) (elements : List Element) : Prop where
  join : join lines = join (elements.map Element.text)
  size : (FieldLines.join lines).length ≤ maxBytes
  present : lines ≠ []
  nonempty : elements ≠ []
  wellFormed : ∀ e ∈ elements, e.WellFormed
  few : (elements.filterMap Element.range?).length ≤ maxRanges
  fewEmpty : elements.countP Element.isEmpty ≤ maxEmptyElements

theorem combined_eq_ok {lines : List (List UInt8)} {accept : List UInt8} :
    combined lines = .ok (some accept) ↔
      lines ≠ [] ∧ (join lines).length ≤ maxBytes ∧ accept = join lines := by
  rw [combined, mapError_eq_ok]
  by_cases hlines : lines = []
  · subst hlines
    rw [joinLines_nil]
    exact iff_of_false nofun fun h => h.1 rfl
  · rw [joinLines_eq maxBytes hlines]
    by_cases hsize : (join lines).length ≤ maxBytes
    · rw [if_pos hsize]
      constructor
      · intro h
        exact ⟨hlines, hsize, (Option.some.inj (Except.ok.inj h)).symm⟩
      · rintro ⟨-, -, rfl⟩
        rfl
    · rw [if_neg hsize]
      exact iff_of_false nofun fun h => hsize h.2.1

theorem ranges_eq_ok {accept : List UInt8} {result : List Media} :
    ranges accept = .ok result ↔ ∃ parts, list accept = .ok parts ∧
      List.Forall₂ (fun part media => parse_media part true = .ok media) parts result := by
  rw [ranges, bind_eq_ok]
  simp only [mapError_eq_ok, mapM_eq_ok]

/-- **`Accept` is read exactly.**  The ranges of a field are read when its lines join to a
list of media ranges within the bounds, and they are the ranges that are written.  The parts
of the list are then its elements: none is cut or joined inside a string. -/
theorem accepted_exact (lines : List (List UInt8)) :
    (∀ result, accepted lines = .ok (some result) ↔ ∃ elements, AcceptOf lines elements ∧
      List.Forall₂ (Written.Denotes true) (elements.filterMap Element.range?) result) ∧
    ∀ elements, AcceptOf lines elements →
      list (join lines) = .ok ((elements.filterMap Element.range?).map fun m => trim m.text) := by
  have hlist : ∀ elements, AcceptOf lines elements →
      list (join lines) =
        .ok ((elements.filterMap Element.range?).map fun m => trim m.text) := by
    intro elements h
    obtain ⟨hcores, hempties⟩ := cores_elements h.wellFormed
    refine list_eq_ok.mpr ⟨h.size, elements.map Element.text, by simpa using h.nonempty, ?_,
      h.join, hcores.symm, ?_, ?_⟩
    · intro piece hpiece
      obtain ⟨element, helement, rfl⟩ := List.mem_map.mp hpiece
      exact piece_element (h.wellFormed element helement)
    · rw [hcores, List.length_map]
      exact h.few
    · rw [hempties]
      exact h.fewEmpty
  refine ⟨fun result => ?_, hlist⟩
  rw [accepted, bind_eq_ok]
  constructor
  · rintro ⟨found, hcombined, h⟩
    cases found with
    | none => exact absurd (Except.ok.inj h) nofun
    | some accept =>
        obtain ⟨hpresent, hsize, rfl⟩ := combined_eq_ok.mp hcombined
        obtain ⟨result', hranges, heq⟩ := map_eq_ok.mp h
        obtain rfl := Option.some.inj heq
        obtain ⟨parts, hparts, hread⟩ := ranges_eq_ok.mp hranges
        obtain ⟨-, pieces, hne, -, hjoin, rfl, hfew, hempty⟩ := list_eq_ok.mp hparts
        obtain ⟨elements, rfl, helements, hdenotes⟩ := exists_elements hread
        obtain ⟨hcores, hempties⟩ := cores_elements helements
        rw [hcores, List.length_map] at hfew
        rw [hempties] at hempty
        exact ⟨elements, ⟨hjoin, hsize, hpresent, by simpa using hne, helements, hfew, hempty⟩,
          hdenotes⟩
  · rintro ⟨elements, h, hdenotes⟩
    refine ⟨some (join lines), combined_eq_ok.mpr ⟨h.present, h.size, rfl⟩, ?_⟩
    refine map_eq_ok.mpr ⟨result, ranges_eq_ok.mpr ⟨_, hlist elements h, ?_⟩, rfl⟩
    refine parse_elements h.wellFormed (fun element helement => ?_) hdenotes
    exact (length_le_join (List.mem_map_of_mem helement)).trans (h.join ▸ h.size)

end Accept

end Media
end HttpBoundary
end Server
end Glaux
