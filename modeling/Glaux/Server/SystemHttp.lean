import Glaux.Library.FieldLines
import Glaux.Server.HttpBoundary

/-!
# Conditions of a creation

`If-Match` and `If-None-Match` are read by a scanner that keeps an index into the joined
lines.  It accepts `*` and the lists of entity-tags, within its limits, and nothing else;
it never reads outside the lines.
-/

namespace Glaux
namespace Server
namespace SystemHttp

open Library FieldLines HttpBoundary

section Code

def quote : UInt8 := '"'.toUInt8

def star : List UInt8 := ['*'.toUInt8]

/-- `W/` -/
def weakMark : List UInt8 := ['W'.toUInt8, '/'.toUInt8]

/-- The characters of an opaque tag. -/
def etagc (byte : UInt8) : Bool :=
  byte == 0x21 || (decide (0x23 ≤ byte) && decide (byte ≤ 0x7e)) || decide (0x80 ≤ byte)

/-- From the first byte that is no blank to the last one. -/
def trimRange (bytes : List UInt8) : ℕ × ℕ :=
  let start := bytes.findIdx fun byte => !blank byte
  (start, (bytes.reverse.findIdx? fun byte => !blank byte).elim start (bytes.length - ·))

/-- The loop over the bytes between the quotes. -/
def scanOpaque (bytes : List UInt8) (index : ℕ) : Machine.Run Problem ℕ :=
  match h : bytes[index]? with
  | none => .ok index
  | some byte =>
      if byte = quote then .ok index
      else if etagc byte then scanOpaque bytes (index + 1)
      else Machine.refuse .bad_request
termination_by bytes.length - index
decreasing_by
  have hindex := (List.getElem?_eq_some_iff.mp h).1
  omega

/-- From the opening quote to behind the closing one. -/
def scanQuoted (bytes : List UInt8) (start : ℕ) : Machine.Run Problem ℕ :=
  if bytes[start]? ≠ some quote then Machine.refuse .bad_request
  else do
    let stop ← scanOpaque bytes (start + 1)
    if bytes[stop]? ≠ some quote then Machine.refuse .bad_request else .ok (stop + 1)

def scanTag (bytes : List UInt8) (index : ℕ) : Machine.Run Problem ℕ := do
  let rest ← Machine.slice bytes index bytes.length
  scanQuoted bytes (if weakMark.isPrefixOf rest then index + 2 else index)

structure Scan where
  index : ℕ
  tags : ℕ
  empty : ℕ

/-- The body of the loop; `none` leaves it. -/
def turn (bytes : List UInt8) (s : Scan) : Machine.Run Problem (Option Scan) := do
  let index ← Machine.skipWhile blank bytes s.index
  if index = bytes.length then .ok none
  else do
    let byte ← Machine.index bytes index
    if byte = comma then
      if s.empty + 1 > 64 then Machine.refuse .bad_request
      else .ok (some ⟨index + 1, s.tags, s.empty + 1⟩)
    else do
      let index ← scanTag bytes index
      if s.tags + 1 > 64 then Machine.refuse .bad_request
      else do
        let index ← Machine.skipWhile blank bytes index
        if index < bytes.length then do
          let byte ← Machine.index bytes index
          if byte ≠ comma then Machine.refuse .bad_request
          else .ok (some ⟨index + 1, s.tags + 1, s.empty⟩)
        else .ok (some ⟨index, s.tags + 1, s.empty⟩)

end Code

section Reading

/-! ## The scanner on what is left of the input -/

/-- What is left behind a quoted tag. -/
def readQuoted (rest : List UInt8) : Option (List UInt8) :=
  if rest.head? = some quote ∧ (rest.tail.dropWhile etagc).head? = some quote then
    some (rest.tail.dropWhile etagc).tail
  else none

/-- What is left behind an entity-tag. -/
def readTag (rest : List UInt8) : Option (List UInt8) :=
  readQuoted (if weakMark.isPrefixOf rest then rest.drop 2 else rest)

/-- The index in front of what is left. -/
def behind (bytes : List UInt8) : Option (List UInt8) → Machine.Run Problem ℕ
  | some after => .ok (bytes.length - after.length)
  | none => Machine.refuse .bad_request

structure Left where
  rest : List UInt8
  tags : ℕ
  empty : ℕ

def readTurn (s : Left) : Except Problem (Option Left) :=
  match s.rest.dropWhile blank with
  | [] => .ok none
  | byte :: rest =>
      if byte = comma then
        if s.empty + 1 > 64 then .error .bad_request
        else .ok (some ⟨rest, s.tags, s.empty + 1⟩)
      else
        match readTag (byte :: rest) with
        | none => .error .bad_request
        | some after =>
            if s.tags + 1 > 64 then .error .bad_request
            else
              match after.dropWhile blank with
              | [] => .ok (some ⟨[], s.tags + 1, s.empty⟩)
              | next :: rest =>
                  if next ≠ comma then .error .bad_request
                  else .ok (some ⟨rest, s.tags + 1, s.empty⟩)

/-- The index in front of what is left. -/
def Left.scan (bytes : List UInt8) (s : Left) : Scan :=
  ⟨bytes.length - s.rest.length, s.tags, s.empty⟩

theorem scanOpaque_front (front rest : List UInt8) :
    scanOpaque (front ++ rest) front.length =
      if (rest.dropWhile etagc).head? = none ∨ (rest.dropWhile etagc).head? = some quote then
        .ok (front.length + (rest.takeWhile etagc).length)
      else Machine.refuse .bad_request := by
  induction rest generalizing front with
  | nil =>
      rw [scanOpaque]
      split
      · simp
      · rename_i byte hbyte
        rw [getElem?_front] at hbyte
        exact absurd hbyte nofun
  | cons first rest ih =>
      rw [scanOpaque]
      split
      · rename_i hbyte
        rw [getElem?_front] at hbyte
        exact absurd hbyte nofun
      · rename_i byte hbyte
        rw [getElem?_front] at hbyte
        obtain rfl := Option.some.inj hbyte
        by_cases hquote : first = quote
        · have hstop : etagc first = false := by rw [hquote]; decide
          rw [if_pos hquote, List.dropWhile_cons_of_neg (by simp [hstop]),
            List.takeWhile_cons_of_neg (by simp [hstop])]
          simp [hquote]
        · rw [if_neg hquote]
          cases hetagc : etagc first with
          | false => simp [hetagc, hquote]
          | true =>
              have hnext := ih (front ++ [first])
              rw [List.append_assoc, List.singleton_append, List.length_append,
                List.length_singleton] at hnext
              rw [if_pos rfl, hnext, List.dropWhile_cons, if_pos hetagc, List.takeWhile_cons,
                if_pos hetagc, List.length_cons]
              split
              · congr 1
                omega
              · rfl

theorem scanQuoted_front (front rest : List UInt8) :
    scanQuoted (front ++ rest) front.length = behind (front ++ rest) (readQuoted rest) := by
  rw [scanQuoted, getElem?_front]
  cases rest with
  | nil => rfl
  | cons first rest =>
      by_cases hfirst : first = quote
      · subst hfirst
        have hscan := scanOpaque_front (front ++ [quote]) rest
        have hbytes : front ++ [quote] ++ rest =
            (front ++ quote :: rest.takeWhile etagc) ++ rest.dropWhile etagc := by
          rw [List.append_assoc, List.append_assoc, List.singleton_append, List.cons_append,
            List.takeWhile_append_dropWhile]
        have hstop : (front ++ [quote]).length + (rest.takeWhile etagc).length =
            (front ++ quote :: rest.takeWhile etagc).length := by
          simp only [List.length_append, List.length_cons, List.length_nil]
          omega
        have hsame : front ++ quote :: rest = front ++ [quote] ++ rest := by simp
        rw [if_neg (by simp), hsame, show front.length + 1 = (front ++ [quote]).length by simp,
          hscan, hstop, hbytes]
        cases hafter : rest.dropWhile etagc with
        | nil => simp [readQuoted, hafter, behind]
        | cons last after =>
            by_cases hlast : last = quote
            · subst hlast
              simp only [List.head?_cons, reduceCtorEq, false_or, if_true, ok_bind]
              rw [getElem?_front]
              simp only [readQuoted, hafter, List.head?_cons, List.tail_cons, and_self, if_true,
                ne_eq, not_true_eq_false, if_false, behind, List.length_append, List.length_cons]
              congr 1
              omega
            · simp [readQuoted, hafter, hlast, behind, Machine.refuse]
      · simp [readQuoted, hfirst, behind]

/-- **Scanning a tag** is reading it. -/
theorem scanTag_front (front rest : List UInt8) :
    scanTag (front ++ rest) front.length = behind (front ++ rest) (readTag rest) := by
  rw [scanTag, Machine.slice_front, ok_bind, readTag]
  split
  · rename_i hmark
    obtain ⟨unmarked, rfl⟩ := List.isPrefixOf_iff_prefix.mp hmark
    have hquoted := scanQuoted_front (front ++ weakMark) unmarked
    rw [List.append_assoc, List.length_append] at hquoted
    exact hquoted
  · exact scanQuoted_front front rest

theorem readQuoted_eq_some {rest after : List UInt8} :
    readQuoted rest = some after ↔
      ∃ body, (∀ byte ∈ body, etagc byte = true) ∧ rest = quote :: (body ++ quote :: after) := by
  constructor
  · intro h
    rw [readQuoted] at h
    split at h
    · rename_i hquotes
      obtain rfl := Option.some.inj h
      refine ⟨rest.tail.takeWhile etagc, takeWhile_accepted etagc _, ?_⟩
      rw [List.cons_head?_tail hquotes.2, List.takeWhile_append_dropWhile,
        List.cons_head?_tail hquotes.1]
    · exact absurd h nofun
  · rintro ⟨body, hbody, rfl⟩
    have hstop : ∀ a ∈ (quote :: after).head?, etagc a = false := by
      intro a ha
      obtain rfl := Option.some.inj ha
      decide
    rw [readQuoted, List.tail_cons, dropWhile_append_stop hbody hstop]
    simp

/-- An entity-tag, weak or strong. -/
def EntityTag (tag : List UInt8) : Prop :=
  ∃ mark body, (mark = [] ∨ mark = weakMark) ∧ (∀ byte ∈ body, etagc byte = true) ∧
    tag = mark ++ quote :: (body ++ [quote])

theorem readTag_eq_some {rest after : List UInt8} :
    readTag rest = some after ↔ ∃ tag, EntityTag tag ∧ rest = tag ++ after := by
  rw [readTag]
  constructor
  · intro h
    split at h
    · rename_i hmark
      obtain ⟨unmarked, rfl⟩ := List.isPrefixOf_iff_prefix.mp hmark
      obtain ⟨body, hbody, hrest⟩ := readQuoted_eq_some.mp h
      have hdrop : (weakMark ++ unmarked).drop 2 = unmarked := rfl
      rw [hdrop] at hrest
      exact ⟨_, ⟨weakMark, body, .inr rfl, hbody, rfl⟩, by simp [hrest]⟩
    · obtain ⟨body, hbody, hrest⟩ := readQuoted_eq_some.mp h
      exact ⟨_, ⟨[], body, .inl rfl, hbody, rfl⟩, by simp [hrest]⟩
  · rintro ⟨tag, ⟨mark, body, hmark, hbody, rfl⟩, rfl⟩
    obtain rfl | rfl := hmark
    · have hplain : weakMark.isPrefixOf (([] ++ quote :: (body ++ [quote])) ++ after) = false :=
        rfl
      rw [hplain]
      exact readQuoted_eq_some.mpr ⟨body, hbody, by simp⟩
    · have hweak : weakMark.isPrefixOf ((weakMark ++ quote :: (body ++ [quote])) ++ after) =
          true := rfl
      rw [hweak]
      exact readQuoted_eq_some.mpr ⟨body, hbody, by simp [weakMark]⟩

/-- The blanks in front of the next item. -/
theorem front_blanks (front : List UInt8) {rest left : List UInt8}
    (h : rest.dropWhile blank = left) :
    front ++ rest = (front ++ rest.takeWhile blank) ++ left ∧
      front.length + (rest.takeWhile blank).length = (front ++ rest.takeWhile blank).length := by
  rw [← h, List.append_assoc, List.takeWhile_append_dropWhile, List.length_append]
  exact ⟨rfl, rfl⟩

theorem left_scan (front rest : List UInt8) (tags empty : ℕ) :
    (Left.mk rest tags empty).scan (front ++ rest) = ⟨front.length, tags, empty⟩ := by
  simp [Left.scan]

/-- **Refinement of the loop body.** -/
theorem turn_front (front rest : List UInt8) (tags empty : ℕ) :
    turn (front ++ rest) ⟨front.length, tags, empty⟩ =
      Machine.lift ((readTurn ⟨rest, tags, empty⟩).map
        (Option.map (Left.scan (front ++ rest)))) := by
  rw [turn, Machine.skipWhile_front, ok_bind, readTurn]
  cases hblanks : rest.dropWhile blank with
  | nil =>
      obtain ⟨hbytes, hindex⟩ := front_blanks front hblanks
      rw [if_pos (by rw [hindex, hbytes, List.append_nil])]
      rfl
  | cons byte after =>
      obtain ⟨hbytes, hindex⟩ := front_blanks front hblanks
      rw [hindex, hbytes]
      generalize front ++ rest.takeWhile blank = front
      rw [if_neg (by simp), Machine.index_front, ok_bind]
      by_cases hcomma : byte = comma
      · simp only [if_pos hcomma]
        split
        · rfl
        · have hscan := left_scan (front ++ [byte]) after tags (empty + 1)
          rw [List.append_assoc, List.singleton_append, List.length_append,
            List.length_singleton] at hscan
          simp only [Except.map, Option.map_some, hscan, Machine.lift_ok]
      · simp only [if_neg hcomma]
        rw [scanTag_front]
        cases htag : readTag (byte :: after) with
        | none => rfl
        | some left =>
            obtain ⟨tag, -, hafter⟩ := readTag_eq_some.mp htag
            rw [hafter, ← List.append_assoc]
            generalize front ++ tag = front
            have hbehind : behind (front ++ left) (some left) = .ok front.length := by
              simp [behind]
            rw [hbehind, ok_bind]
            split
            · rfl
            · rw [Machine.skipWhile_front, ok_bind]
              cases hleft : left.dropWhile blank with
              | nil =>
                  obtain ⟨hbytes, hindex⟩ := front_blanks front hleft
                  rw [hindex, hbytes, List.append_nil, if_neg (Nat.lt_irrefl _)]
                  simp only [hleft]
                  rfl
              | cons next last =>
                  obtain ⟨hbytes, hindex⟩ := front_blanks front hleft
                  rw [hindex, hbytes]
                  generalize front ++ left.takeWhile blank = front
                  rw [if_pos (by simp), Machine.index_front, ok_bind]
                  simp only [hleft]
                  by_cases hnext : next ≠ comma
                  · simp only [if_pos hnext]
                    rfl
                  · simp only [if_neg hnext]
                    have hscan := left_scan (front ++ [next]) last (tags + 1) empty
                    rw [List.append_assoc, List.singleton_append, List.length_append,
                      List.length_singleton] at hscan
                    simp only [Except.map, Option.map_some, hscan, Machine.lift_ok]

end Reading

section Grammar

/-- An element of the list: blanks only, or an entity-tag between blanks. -/
inductive Element where
  | empty (blanks : List UInt8)
  | entity (before tag after : List UInt8)

namespace Element

def text : Element → List UInt8
  | empty blanks => blanks
  | entity before tag after => before ++ (tag ++ after)

def isTag : Element → Bool
  | empty _ => false
  | entity .. => true

def WellFormed : Element → Prop
  | empty blanks => ∀ byte ∈ blanks, blank byte = true
  | entity before tag after =>
      (∀ byte ∈ before, blank byte = true) ∧ EntityTag tag ∧ ∀ byte ∈ after, blank byte = true

end Element

/-- What is left behind an element. -/
def Left.after (s : Left) (element : Element) (rest : List UInt8) : Left :=
  ⟨rest, s.tags + (if element.isTag then 1 else 0), s.empty + (if element.isTag then 0 else 1)⟩

/-- There is room for an element that a comma follows. -/
def Left.Allows (s : Left) (element : Element) : Prop :=
  (element.isTag = true → s.tags + 1 ≤ 64) ∧ (element.isTag = false → s.empty + 1 ≤ 64)

theorem entityTag_first {tag : List UInt8} (h : EntityTag tag) :
    ∃ first more, tag = first :: more ∧ blank first = false ∧ first ≠ comma := by
  obtain ⟨mark, body, rfl | rfl, -, rfl⟩ := h
  · exact ⟨quote, _, rfl, by decide, by decide⟩
  · exact ⟨'W'.toUInt8, _, rfl, by decide, by decide⟩

theorem comma_stop (rest : List UInt8) : ∀ a ∈ (comma :: rest).head?, blank a = false := by
  intro a ha
  obtain rfl := Option.some.inj ha
  decide

/-- A turn at an entity-tag. -/
theorem readTurn_tag {s : Left} {before tag rest : List UInt8}
    (hbefore : ∀ byte ∈ before, blank byte = true) (htag : EntityTag tag)
    (hs : s.rest = before ++ (tag ++ rest)) (htags : s.tags + 1 ≤ 64) :
    (rest.dropWhile blank = [] → readTurn s = .ok (some ⟨[], s.tags + 1, s.empty⟩)) ∧
      ∀ last, rest.dropWhile blank = comma :: last →
        readTurn s = .ok (some ⟨last, s.tags + 1, s.empty⟩) := by
  obtain ⟨first, more, hfirst, hblank, hcomma⟩ := entityTag_first htag
  have hstop : ∀ a ∈ (tag ++ rest).head?, blank a = false := by
    intro a ha
    rw [hfirst] at ha
    obtain rfl := Option.some.inj ha
    exact hblank
  have hdrop : s.rest.dropWhile blank = first :: (more ++ rest) := by
    rw [hs, dropWhile_append_stop hbefore hstop, hfirst, List.cons_append]
  have hread : readTag (first :: (more ++ rest)) = some rest :=
    readTag_eq_some.mpr ⟨tag, htag, by rw [hfirst, List.cons_append]⟩
  refine ⟨fun hrest => ?_, fun last hrest => ?_⟩
  · simp [readTurn, hdrop, hcomma, hread, Nat.not_lt.mpr htags, hrest]
  · simp [readTurn, hdrop, hcomma, hread, Nat.not_lt.mpr htags, hrest]

/-- A turn on an element that a comma follows. -/
theorem readTurn_comma {s : Left} {element : Element} {rest : List UInt8}
    (hformed : element.WellFormed) (hs : s.rest = element.text ++ comma :: rest)
    (hallows : s.Allows element) : readTurn s = .ok (some (s.after element rest)) := by
  cases element with
  | empty blanks =>
      have hempty : s.empty + 1 ≤ 64 := hallows.2 rfl
      have hdrop : s.rest.dropWhile blank = comma :: rest := by
        rw [hs]
        exact dropWhile_append_stop hformed (comma_stop rest)
      simp [readTurn, hdrop, Nat.not_lt.mpr hempty, Left.after, Element.isTag]
  | entity before tag after =>
      obtain ⟨hbefore, htag, hafter⟩ := hformed
      have hs' : s.rest = before ++ (tag ++ (after ++ comma :: rest)) := by
        simpa [Element.text] using hs
      exact (readTurn_tag hbefore htag hs' (hallows.1 rfl)).2 rest
        (dropWhile_append_stop hafter (comma_stop rest))

/-- A turn on the last element. -/
theorem readTurn_last {s : Left} {element : Element} (hformed : element.WellFormed)
    (hs : s.rest = element.text) (htags : element.isTag = true → s.tags + 1 ≤ 64) :
    readTurn s = .ok (if element.isTag then some (s.after element []) else none) := by
  cases element with
  | empty blanks =>
      have hdrop : s.rest.dropWhile blank = [] := by
        rw [hs]
        exact List.dropWhile_eq_nil_iff.mpr hformed
      simp [readTurn, hdrop, Element.isTag]
  | entity before tag after =>
      obtain ⟨hbefore, htag, hafter⟩ := hformed
      exact (readTurn_tag hbefore htag hs (htags rfl)).1 (List.dropWhile_eq_nil_iff.mpr hafter)

/-- **Inversion of a turn.** -/
theorem readTurn_eq_ok {s : Left} {next : Option Left} (h : readTurn s = .ok next) :
    ∃ element : Element, element.WellFormed ∧
      ((∃ rest, s.rest = element.text ++ comma :: rest ∧ next = some (s.after element rest) ∧
          s.Allows element) ∨
        (s.rest = element.text ∧ (element.isTag = true → s.tags + 1 ≤ 64) ∧
          next = if element.isTag then some (s.after element []) else none)) := by
  have hrest : s.rest = s.rest.takeWhile blank ++ s.rest.dropWhile blank :=
    (List.takeWhile_append_dropWhile ..).symm
  have hblanks := takeWhile_accepted blank s.rest
  rw [readTurn] at h
  cases hdrop : s.rest.dropWhile blank with
  | nil =>
      simp only [hdrop] at h
      obtain rfl := Except.ok.inj h
      rw [hdrop, List.append_nil] at hrest
      exact ⟨.empty _, hblanks, .inr ⟨hrest, nofun, rfl⟩⟩
  | cons byte after =>
      simp only [hdrop] at h
      rw [hdrop] at hrest
      split at h
      · rename_i hcomma
        split at h
        · exact absurd h nofun
        · rename_i hempty
          obtain rfl := Except.ok.inj h
          subst hcomma
          exact ⟨.empty _, hblanks, .inl ⟨after, hrest, rfl, nofun,
            fun _ => Nat.le_of_not_lt hempty⟩⟩
      · split at h
        · exact absurd h nofun
        · rename_i left hread
          obtain ⟨tag, htag, hafter⟩ := readTag_eq_some.mp hread
          have hleft : left = left.takeWhile blank ++ left.dropWhile blank :=
            (List.takeWhile_append_dropWhile ..).symm
          have hmore := takeWhile_accepted blank left
          rw [hafter] at hrest
          split at h
          · exact absurd h nofun
          · rename_i htags
            have htags := Nat.le_of_not_lt htags
            split at h
            · rename_i hend
              obtain rfl := Except.ok.inj h
              rw [hend, List.append_nil] at hleft
              refine ⟨.entity (s.rest.takeWhile blank) tag (left.takeWhile blank),
                ⟨hblanks, htag, hmore⟩, .inr ⟨?_, fun _ => htags, rfl⟩⟩
              rw [Element.text, ← hleft]
              exact hrest
            · rename_i last rest hend
              split at h
              · exact absurd h nofun
              · rename_i hcomma
                obtain rfl := Except.ok.inj h
                obtain rfl := not_not.mp hcomma
                rw [hend] at hleft
                refine ⟨.entity (s.rest.takeWhile blank) tag (left.takeWhile blank),
                  ⟨hblanks, htag, hmore⟩, .inl ⟨rest, ?_, rfl, fun _ => htags, nofun⟩⟩
                rw [Element.text, List.append_assoc, List.append_assoc, ← hleft]
                exact hrest

theorem readTurn_error {s : Left} {e : Problem} (h : readTurn s = .error e) :
    e = .bad_request := by
  rw [readTurn] at h
  split at h
  · exact absurd h nofun
  · split at h
    · split at h
      · exact (Except.error.inj h).symm
      · exact absurd h nofun
    · split at h
      · exact (Except.error.inj h).symm
      · split at h
        · exact (Except.error.inj h).symm
        · split at h
          · exact absurd h nofun
          · split at h
            · exact (Except.error.inj h).symm
            · exact absurd h nofun

/-- Every turn takes something from the input. -/
theorem readTurn_takes {s s' : Left} (h : readTurn s = .ok (some s')) (hrest : s.rest ≠ []) :
    ∃ taken, taken ≠ [] ∧ s.rest = taken ++ s'.rest := by
  obtain ⟨element, -, ⟨rest, hs, hnext, -⟩ | ⟨hs, -, hnext⟩⟩ := readTurn_eq_ok h
  · obtain rfl := Option.some.inj hnext
    exact ⟨element.text ++ [comma], by simp, by simp [hs, Left.after]⟩
  · split at hnext
    · obtain rfl := Option.some.inj hnext
      exact ⟨element.text, hs ▸ hrest, by simp [hs, Left.after]⟩
    · exact absurd hnext nofun

end Grammar

section Loop

/-- Every turn moves the index forward. -/
theorem turn_forward {bytes : List UInt8} {s s' : Scan} (hindex : s.index < bytes.length)
    (h : turn bytes s = .ok (some s')) : s.index < s'.index ∧ s'.index ≤ bytes.length := by
  have hfront : (bytes.take s.index).length = s.index := by
    rw [List.length_take]
    omega
  have hrefines := turn_front (bytes.take s.index) (bytes.drop s.index) s.tags s.empty
  rw [List.take_append_drop, hfront] at hrefines
  rw [show s = ⟨s.index, s.tags, s.empty⟩ from rfl, hrefines] at h
  obtain ⟨next, hnext, hscan⟩ := map_eq_ok.mp (mapError_eq_ok.mp h)
  obtain ⟨left, rfl, rfl⟩ := Option.map_eq_some_iff.mp hscan
  have hdrop : (bytes.drop s.index) ≠ [] := by
    rw [ne_eq, List.drop_eq_nil_iff]
    omega
  obtain ⟨taken, htaken, hrest⟩ := readTurn_takes hnext hdrop
  have hlength := congrArg List.length hrest
  have hpos := List.length_pos_iff.mpr htaken
  rw [List.length_append, List.length_drop] at hlength
  simp only [Left.scan]
  omega

/-- The loop of the code. -/
def scan (bytes : List UInt8) (s : Scan) : Machine.Run Problem Unit :=
  if hindex : s.index < bytes.length then
    match hturn : turn bytes s with
    | .error e => .error e
    | .ok none => .ok ()
    | .ok (some s') => scan bytes s'
  else .ok ()
termination_by bytes.length - s.index
decreasing_by
  have hforward := turn_forward hindex hturn
  omega

/-- The loop on what is left. -/
def readList (s : Left) : Except Problem Unit :=
  if hrest : s.rest = [] then .ok ()
  else
    match hturn : readTurn s with
    | .error e => .error e
    | .ok none => .ok ()
    | .ok (some s') => readList s'
termination_by s.rest.length
decreasing_by
  obtain ⟨taken, htaken, hs⟩ := readTurn_takes hturn hrest
  have hpos := List.length_pos_iff.mpr htaken
  rw [hs, List.length_append]
  omega

theorem scan_turn {bytes : List UInt8} {s : Scan} (hindex : s.index < bytes.length) :
    scan bytes s = turn bytes s >>= fun next => next.elim (.ok ()) (scan bytes) := by
  rw [scan, dif_pos hindex]
  split
  · rename_i hturn
    rw [hturn]
    rfl
  · rename_i hturn
    rw [hturn]
    rfl
  · rename_i hturn
    rw [hturn]
    rfl

theorem readList_turn {s : Left} (hrest : s.rest ≠ []) :
    readList s = readTurn s >>= fun next => next.elim (.ok ()) readList := by
  rw [readList, dif_neg hrest]
  split
  · rename_i hturn
    rw [hturn]
    rfl
  · rename_i hturn
    rw [hturn]
    rfl
  · rename_i hturn
    rw [hturn]
    rfl

theorem readList_nil {s : Left} (hrest : s.rest = []) : readList s = .ok () := by
  rw [readList, dif_pos hrest]

/-- **Refinement of the loop.** -/
theorem scan_front (front rest : List UInt8) (tags empty : ℕ) :
    scan (front ++ rest) ⟨front.length, tags, empty⟩ =
      Machine.lift (readList ⟨rest, tags, empty⟩) := by
  induction hlength : rest.length using Nat.strong_induction_on generalizing front rest tags empty
    with
  | _ length ih =>
      by_cases hrest : rest = []
      · subst hrest
        rw [scan, dif_neg (by simp), readList_nil rfl]
        rfl
      · have hpos := List.length_pos_iff.mpr hrest
        rw [scan_turn (by simpa using hpos), turn_front, readList_turn hrest]
        cases hturn : readTurn ⟨rest, tags, empty⟩ with
        | error e => rfl
        | ok next =>
            cases next with
            | none => rfl
            | some next =>
                obtain ⟨taken, htaken, hs⟩ := readTurn_takes hturn hrest
                simp only at hs
                have hshorter : next.rest.length < length := by
                  have htaken := List.length_pos_iff.mpr htaken
                  rw [← hlength, hs, List.length_append]
                  omega
                have hnext := ih _ hshorter (front ++ taken) next.rest next.tags next.empty rfl
                have hscan := left_scan (front ++ taken) next.rest next.tags next.empty
                rw [List.append_assoc, ← hs] at hnext hscan
                simp only [Except.map, Option.map_some, Machine.lift_ok, ok_bind,
                  Option.elim_some]
                rw [hscan, hnext]

end Loop

section Accepted

/-- The comma-separated elements of the text. -/
structure Listed (text : List UInt8) (elements : List Element) : Prop where
  nonempty : elements ≠ []
  formed : ∀ element ∈ elements, element.WellFormed
  text_eq : text = join (elements.map Element.text)

/-- Entity-tags among the elements. -/
def tagCount (elements : List Element) : ℕ := elements.countP (·.isTag)

/-- Empty elements that a comma follows. -/
def emptyCount (elements : List Element) : ℕ := elements.dropLast.countP (!·.isTag)

theorem join_elements {element next : Element} {elements : List Element} :
    join ((element :: next :: elements).map Element.text) =
      element.text ++ comma :: join ((next :: elements).map Element.text) := by
  simp [join_cons]

theorem readList_listed {elements : List Element} {s : Left} (h : Listed s.rest elements)
    (htags : s.tags + tagCount elements ≤ 64) (hempty : s.empty + emptyCount elements ≤ 64) :
    readList s = .ok () := by
  induction elements generalizing s with
  | nil => exact absurd rfl h.nonempty
  | cons element elements ih =>
      have hformed := h.formed element List.mem_cons_self
      by_cases hrest : s.rest = []
      · exact readList_nil hrest
      · rw [readList_turn hrest]
        cases elements with
        | nil =>
            have hs : s.rest = element.text := by simpa [join_cons] using h.text_eq
            rw [readTurn_last hformed hs fun htag => by simpa [tagCount, htag] using htags]
            cases element.isTag with
            | false => rfl
            | true => exact readList_nil rfl
        | cons next elements =>
            have hs := h.text_eq.trans join_elements
            have hallows : s.Allows element := by
              refine ⟨fun htag => ?_, fun htag => ?_⟩
              · rw [tagCount, List.countP_cons_of_pos htag] at htags
                omega
              · rw [emptyCount, List.dropLast_cons_of_ne_nil (by simp),
                  List.countP_cons_of_pos (by simp [htag])] at hempty
                omega
            rw [readTurn_comma hformed hs hallows, ok_bind, Option.elim_some]
            refine ih ⟨by simp, fun e he => h.formed e (List.mem_cons_of_mem _ he), rfl⟩ ?_ ?_
            · simp only [tagCount, List.countP_cons, Left.after] at htags ⊢
              omega
            · rw [emptyCount, List.dropLast_cons_of_ne_nil (by simp), List.countP_cons] at hempty
              simp only [emptyCount, Left.after]
              cases htag : element.isTag with
              | false =>
                  simp only [htag, Bool.not_false, if_true, Bool.false_eq_true, if_false] at hempty ⊢
                  omega
              | true =>
                  simp only [htag, Bool.not_true, Bool.false_eq_true, if_false, if_true] at hempty ⊢
                  omega

/-- One element in front of a list. -/
theorem Listed.cons {element : Element} {elements : List Element} {rest text : List UInt8}
    (h : Listed rest elements) (hformed : element.WellFormed)
    (htext : text = element.text ++ comma :: rest) : Listed text (element :: elements) := by
  cases elements with
  | nil => exact absurd rfl h.nonempty
  | cons next elements =>
      refine ⟨by simp, ?_, ?_⟩
      · rintro e (_ | ⟨_, he⟩)
        · exact hformed
        · exact h.formed e he
      · rw [htext, h.text_eq, join_elements]

theorem listed_singleton {element : Element} (hformed : element.WellFormed) :
    Listed element.text [element] := by
  refine ⟨by simp, ?_, by simp [join_cons]⟩
  rintro e (_ | ⟨_, he⟩)
  · exact hformed
  · exact absurd he List.not_mem_nil

theorem listed_readList {s : Left} (h : readList s = .ok ()) (htags : s.tags ≤ 64)
    (hempty : s.empty ≤ 64) :
    ∃ elements, Listed s.rest elements ∧ s.tags + tagCount elements ≤ 64 ∧
      s.empty + emptyCount elements ≤ 64 := by
  induction hlength : s.rest.length using Nat.strong_induction_on generalizing s with
  | _ length ih =>
      by_cases hrest : s.rest = []
      · have hblanks : (Element.empty []).WellFormed := fun _ h => absurd h List.not_mem_nil
        exact ⟨[.empty []], hrest ▸ listed_singleton hblanks, htags, hempty⟩
      · rw [readList_turn hrest] at h
        obtain ⟨next, hturn, h⟩ := bind_eq_ok.mp h
        obtain ⟨element, hformed, ⟨rest, hs, rfl, hallows⟩ | ⟨hs, hroom, -⟩⟩ :=
          readTurn_eq_ok hturn
        · have hshorter : (s.after element rest).rest.length < length := by
            rw [← hlength, hs]
            simp only [Left.after, List.length_append, List.length_cons]
            omega
          have htags' : (s.after element rest).tags ≤ 64 := by
            simp only [Left.after]
            split
            · rename_i htag
              exact hallows.1 htag
            · exact htags
          have hempty' : (s.after element rest).empty ≤ 64 := by
            simp only [Left.after]
            split
            · exact hempty
            · rename_i htag
              exact hallows.2 (by simpa using htag)
          obtain ⟨elements, hlisted, hmore, hmoreEmpty⟩ := ih _ hshorter h htags' hempty' rfl
          refine ⟨element :: elements, hlisted.cons hformed hs, ?_, ?_⟩
          · simp only [tagCount, List.countP_cons, Left.after] at hmore ⊢
            omega
          · rw [emptyCount, List.dropLast_cons_of_ne_nil hlisted.nonempty, List.countP_cons]
            simp only [emptyCount, Left.after] at hmoreEmpty
            cases htag : element.isTag with
            | false =>
                simp only [htag, Bool.false_eq_true, if_false, Bool.not_false, if_true]
                  at hmoreEmpty ⊢
                omega
            | true =>
                simp only [htag, if_true, Bool.not_true, Bool.false_eq_true, if_false]
                  at hmoreEmpty ⊢
                omega
        · refine ⟨[element], hs ▸ listed_singleton hformed, ?_, hempty⟩
          cases htag : element.isTag with
          | false => simpa [tagCount, htag] using htags
          | true => simpa [tagCount, htag] using hroom htag

/-- **The lists of a condition.** -/
def ConditionList (text : List UInt8) : Prop :=
  ∃ elements, Listed text elements ∧ tagCount elements ≤ 64 ∧ emptyCount elements ≤ 64

theorem readList_eq_ok {text : List UInt8} :
    readList ⟨text, 0, 0⟩ = .ok () ↔ ConditionList text := by
  constructor
  · intro h
    obtain ⟨elements, hlisted, htags, hempty⟩ := listed_readList h (by simp) (by simp)
    exact ⟨elements, hlisted, by simpa using htags, by simpa using hempty⟩
  · rintro ⟨elements, hlisted, htags, hempty⟩
    exact readList_listed hlisted (by simpa using htags) (by simpa using hempty)

theorem readList_error {s : Left} {e : Problem} (h : readList s = .error e) :
    e = .bad_request := by
  induction hlength : s.rest.length using Nat.strong_induction_on generalizing s with
  | _ length ih =>
      by_cases hrest : s.rest = []
      · rw [readList_nil hrest] at h
        exact absurd h nofun
      · rw [readList_turn hrest] at h
        obtain h | ⟨next, hturn, h⟩ := bind_eq_error.mp h
        · exact readTurn_error h
        · cases next with
          | none => exact absurd h nofun
          | some next =>
              obtain ⟨taken, htaken, hs⟩ := readTurn_takes hturn hrest
              have hpos := List.length_pos_iff.mpr htaken
              refine ih next.rest.length ?_ h rfl
              rw [← hlength, hs, List.length_append]
              omega

end Accepted

section Condition

theorem findIdx_takeWhile (bytes : List UInt8) :
    (bytes.findIdx fun byte => !blank byte) = (bytes.takeWhile blank).length := by
  induction bytes with
  | nil => rfl
  | cons byte bytes ih =>
      cases hblank : blank byte with
      | false => simp [List.findIdx_cons, hblank]
      | true => simp [List.findIdx_cons, hblank, ih]

/-- The range of the code is what is left without the blanks around. -/
theorem slice_trimRange (bytes : List UInt8) :
    (Machine.slice bytes (trimRange bytes).1 (trimRange bytes).2 :
      Machine.Run Problem (List UInt8)) = .ok (trim bytes) := by
  have hbytes : bytes = bytes.takeWhile blank ++ bytes.dropWhile blank :=
    (List.takeWhile_append_dropWhile ..).symm
  cases hrest : bytes.dropWhile blank with
  | nil =>
      -- only blanks: both ends of the range stand behind the last byte
      have hall : ∀ byte ∈ bytes, blank byte = true := List.dropWhile_eq_nil_iff.mp hrest
      have hnone : (bytes.reverse.findIdx? fun byte => !blank byte) = none := by
        simpa using hall
      have hstart : (bytes.findIdx fun byte => !blank byte) = bytes.length := by
        rw [findIdx_takeWhile, List.takeWhile_eq_self_iff.mpr hall]
      simp only [trimRange, hnone, hstart, Option.elim_none]
      rw [trim, hrest, Machine.slice, if_pos ⟨Nat.le_refl _, Nat.le_refl _⟩]
      simp
  | cons first rest =>
      have hfirst : blank first = false := dropWhile_stop blank bytes first (by rw [hrest]; rfl)
      have hmiddle : (first :: rest).reverse =
          (first :: rest).reverse.takeWhile blank ++ (first :: rest).reverse.dropWhile blank :=
        (List.takeWhile_append_dropWhile ..).symm
      have hcut : bytes = bytes.takeWhile blank ++
          (trim bytes ++ ((first :: rest).reverse.takeWhile blank).reverse) := by
        rw [trim, hrest, List.rdropWhile, ← List.reverse_append, ← hmiddle, List.reverse_reverse,
          ← hrest]
        exact hbytes
      have hback : (bytes.reverse.findIdx? fun byte => !blank byte) =
          some ((first :: rest).reverse.takeWhile blank).length := by
        have hshort : ((first :: rest).reverse.takeWhile blank).length ≠
            (first :: rest).reverse.length := by
          intro hlength
          have hall := (List.takeWhile_sublist blank).eq_of_length hlength
          have hmem := takeWhile_accepted blank (first :: rest).reverse first
            (by rw [hall]; simp)
          simp [hfirst] at hmem
        have hreverse : bytes.reverse = (first :: rest).reverse ++ (bytes.takeWhile blank).reverse := by
          rw [← List.reverse_append, ← hrest, List.takeWhile_append_dropWhile]
        have hle := (List.takeWhile_sublist (l := (first :: rest).reverse) blank).length_le
        refine List.findIdx?_eq_some_iff_findIdx_eq.mpr ⟨?_, ?_⟩
        · rw [hreverse, List.length_append]
          omega
        · rw [findIdx_takeWhile, hreverse, List.takeWhile_append, if_neg hshort]
      have hstop : bytes.length - ((first :: rest).reverse.takeWhile blank).length =
          (bytes.takeWhile blank).length + (trim bytes).length := by
        have hlength := congrArg List.length hcut
        simp only [List.length_append, List.length_reverse] at hlength ⊢
        omega
      simp only [trimRange, hback, findIdx_takeWhile, Option.elim_some, hstop]
      exact Machine.slice_eq hcut

/-- The values are the lines of one field. -/
def entity_condition (values : List (List UInt8)) : Machine.Run Problem Bool :=
  match joinLines 4096 values with
  | .error _ => Machine.refuse .bad_request
  | .ok none => .ok false
  | .ok (some bytes) => do
      let bytes ← Machine.slice bytes (trimRange bytes).1 (trimRange bytes).2
      if bytes = star then .ok true
      else do
        scan bytes ⟨0, 0, 0⟩
        .ok true

def precondition (ifMatch ifNoneMatch : List (List UInt8)) : Machine.Run Problem Bool := do
  let has_match ← entity_condition ifMatch
  let _ ← entity_condition ifNoneMatch
  .ok (!has_match)

/-- What a present field must be. -/
structure Conditional (values : List (List UInt8)) : Prop where
  size : (join values).length ≤ 4096
  form : trim (join values) = star ∨ ConditionList (trim (join values))

theorem entity_condition_nil : entity_condition [] = .ok false := rfl

/-- **A present field** is accepted or is a bad request. -/
theorem entity_condition_present {values : List (List UInt8)} (h : values ≠ []) :
    (Conditional values ∧ entity_condition values = .ok true) ∨
      (¬ Conditional values ∧ entity_condition values = Machine.refuse .bad_request) := by
  rw [entity_condition, joinLines_eq 4096 h]
  by_cases hsize : (join values).length ≤ 4096
  · simp only [if_pos hsize, slice_trimRange, ok_bind]
    by_cases hstar : trim (join values) = star
    · rw [if_pos hstar]
      exact .inl ⟨⟨hsize, .inl hstar⟩, rfl⟩
    · rw [if_neg hstar]
      have hscan := scan_front [] (trim (join values)) 0 0
      rw [List.nil_append, List.length_nil] at hscan
      rw [hscan]
      cases hread : readList ⟨trim (join values), 0, 0⟩ with
      | ok _ => exact .inl ⟨⟨hsize, .inr (readList_eq_ok.mp hread)⟩, rfl⟩
      | error e =>
          obtain rfl := readList_error hread
          refine .inr ⟨fun hconditional => ?_, rfl⟩
          obtain hform | hform := hconditional.form
          · exact hstar hform
          · rw [readList_eq_ok.mpr hform] at hread
            exact absurd hread nofun
  · simp only [if_neg hsize]
    refine .inr ⟨fun hconditional => hsize hconditional.size, ?_⟩
    trivial

theorem entity_condition_split (before after : List (List UInt8)) (left right : List UInt8) :
    entity_condition (before ++ (left ++ comma :: right) :: after) =
      entity_condition (before ++ left :: right :: after) := by
  rw [entity_condition, entity_condition, joinLines_split]

/-- **The conditional headers.**  An absent field gives `false`, a field of the grammar
`true`, and any other input is a bad request: nothing is read outside the bytes.  Lines
may be joined and split at commas. -/
theorem entity_condition_exact (values : List (List UInt8)) :
    (entity_condition values = .ok false ↔ values = []) ∧
      (entity_condition values = .ok true ↔ values ≠ [] ∧ Conditional values) ∧
        (entity_condition values = Machine.refuse .bad_request ↔
          values ≠ [] ∧ ¬ Conditional values) ∧
          ∀ (before after : List (List UInt8)) (left right : List UInt8),
            entity_condition (before ++ (left ++ comma :: right) :: after) =
              entity_condition (before ++ left :: right :: after) := by
  by_cases hvalues : values = []
  · subst hvalues
    exact ⟨iff_of_true rfl rfl, iff_of_false nofun fun h => h.1 rfl,
      iff_of_false nofun fun h => h.1 rfl, entity_condition_split⟩
  · obtain ⟨hconditional, hresult⟩ | ⟨hconditional, hresult⟩ := entity_condition_present hvalues
    · rw [hresult]
      exact ⟨iff_of_false nofun hvalues, iff_of_true rfl ⟨hvalues, hconditional⟩,
        iff_of_false nofun fun h => h.2 hconditional, entity_condition_split⟩
    · rw [hresult]
      exact ⟨iff_of_false nofun hvalues, iff_of_false nofun fun h => hconditional h.2,
        iff_of_true rfl ⟨hvalues, hconditional⟩, entity_condition_split⟩

example : entity_condition [utf8 "\"comma,inside\"".toList, utf8 "W/\"second\"".toList] =
    .ok true := by decide +kernel

example : entity_condition [utf8 "w/\"lowercase\"".toList] = Machine.refuse .bad_request := by
  decide +kernel

/-- **Both fields are checked**; a match condition always fails, the other one never. -/
theorem precondition_eq_ok {ifMatch ifNoneMatch : List (List UInt8)} {passes : Bool} :
    precondition ifMatch ifNoneMatch = .ok passes ↔
      (ifMatch = [] ∨ Conditional ifMatch) ∧ (ifNoneMatch = [] ∨ Conditional ifNoneMatch) ∧
        (passes = true ↔ ifMatch = []) := by
  have hresult : ∀ values, (∃ b, entity_condition values = .ok b) ↔
      values = [] ∨ Conditional values := by
    intro values
    obtain ⟨habsent, hpresent, -⟩ := entity_condition_exact values
    constructor
    · rintro ⟨_ | _, h⟩
      · exact .inl (habsent.mp h)
      · exact .inr (hpresent.mp h).2
    · rintro (h | h)
      · exact ⟨false, habsent.mpr h⟩
      · by_cases hvalues : values = []
        · exact ⟨false, habsent.mpr hvalues⟩
        · exact ⟨true, hpresent.mpr ⟨hvalues, h⟩⟩
  obtain ⟨habsent, hpresent, -⟩ := entity_condition_exact ifMatch
  rw [precondition, bind_eq_ok]
  constructor
  · rintro ⟨has, hmatch, h⟩
    obtain ⟨ignored, hnone, h⟩ := bind_eq_ok.mp h
    obtain rfl := Except.ok.inj h
    refine ⟨(hresult ifMatch).mp ⟨has, hmatch⟩, (hresult ifNoneMatch).mp ⟨ignored, hnone⟩, ?_⟩
    cases has with
    | false => exact iff_of_true rfl (habsent.mp hmatch)
    | true => exact iff_of_false nofun (hpresent.mp hmatch).1
  · rintro ⟨hmatch, hnone, hpasses⟩
    obtain ⟨has, hmatch⟩ := (hresult ifMatch).mpr hmatch
    obtain ⟨ignored, hnone⟩ := (hresult ifNoneMatch).mpr hnone
    refine ⟨has, hmatch, bind_eq_ok.mpr ⟨ignored, hnone, ?_⟩⟩
    cases has with
    | false => exact congrArg _ (hpasses.mpr (habsent.mp hmatch)).symm
    | true =>
        have hfails : passes = false := by
          rw [← Bool.not_eq_true, hpasses]
          exact (hpresent.mp hmatch).1
        exact congrArg _ hfails.symm

end Condition

end SystemHttp
end Server
end Glaux
