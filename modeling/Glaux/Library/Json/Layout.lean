import Glaux.Library.Json.Pointer

/-!
# JSON texts, cut at their values

A text is the tree of its values with everything that stands between them: brackets,
commas, names and blanks.  Every value has a place, given by its path, and the place of a
value is its range of bytes.
-/

namespace Glaux
namespace Library
namespace Json

inductive Layout where
  | leaf (text : List Char)
  | array (items : List (List Char × Layout)) (close : List Char)
  | object (members : List (String × List Char × Layout)) (close : List Char)

/-- One step of a path. -/
inductive Key where
  | name (name : String)
  | index (index : Nat)
deriving DecidableEq

/-- The reference token of a step. -/
def Key.token : Key → String
  | .name text => text
  | .index i => toString i

/-- How many bytes a text has. -/
def width (text : List Char) : Nat := (utf8 text).length

theorem width_append (a b : List Char) : width (a ++ b) = width a + width b := by
  rw [width, utf8_append, List.length_append, width, width]

theorem length_le_width (text : List Char) : text.length ≤ width text := length_le_utf8 text

namespace Layout

mutual

def render : Layout → List Char
  | .leaf text => text
  | .array items close => renderItems items ++ close
  | .object members close => renderMembers members ++ close

def renderItems : List (List Char × Layout) → List Char
  | [] => []
  | (gap, inner) :: rest => gap ++ (render inner ++ renderItems rest)

def renderMembers : List (String × List Char × Layout) → List Char
  | [] => []
  | (_, gap, inner) :: rest => gap ++ (render inner ++ renderMembers rest)

end

/-- The values directly inside, each with the gap in front of it. -/
def parts : Layout → List (List Char × Layout)
  | .leaf _ => []
  | .array items _ => items
  | .object members _ => members.map (·.2)

/-- What stands behind the values. -/
def rest : Layout → List Char
  | .leaf text => text
  | .array _ close => close
  | .object _ close => close

theorem renderMembers_eq (members : List (String × List Char × Layout)) :
    renderMembers members = renderItems (members.map (·.2)) := by
  induction members with
  | nil => rfl
  | cons member members ih =>
      obtain ⟨name, gap, inner⟩ := member
      rw [renderMembers, ih]
      rfl

theorem render_eq (layout : Layout) : layout.render = renderItems layout.parts ++ layout.rest := by
  cases layout with
  | leaf text => rfl
  | array items close => rfl
  | object members close =>
      rw [render, renderMembers_eq]
      rfl

/-! ### Places -/

/-- Where the values of a list of parts start, from where the first gap starts. -/
def places : Nat → List (List Char × Layout) → List (Nat × Layout)
  | _, [] => []
  | start, (gap, inner) :: rest =>
      (start + width gap, inner) :: places (start + width gap + width inner.render) rest

def memberPlaces (members : List (String × List Char × Layout)) : List (String × Nat × Layout) :=
  (members.map (·.1)).zip (places 0 (members.map (·.2)))

/-- The value one step leads to, and where it starts.  Of members with one name the last
counts. -/
def step : Layout → Key → Option (Nat × Layout)
  | .array items _, .index index => (places 0 items)[index]?
  | .object members _, .name name => (memberPlaces members).reverse.lookup name
  | _, _ => none

def locate (layout : Layout) : List Key → Option (Nat × Layout)
  | [] => some (0, layout)
  | key :: path => do
      let (start, inner) ← layout.step key
      let (offset, found) ← inner.locate path
      some (start + offset, found)

section Places

variable {items : List (List Char × Layout)} {layout inner inner' : Layout} {key key' : Key}
variable {path path' : List Key} {start offset offset' : Nat}

theorem length_places (start : Nat) (items : List (List Char × Layout)) :
    (places start items).length = items.length := by
  induction items generalizing start with
  | nil => rfl
  | cons item items ih => rw [places, List.length_cons, List.length_cons, ih]

/-- A place splits the text of the parts. -/
theorem places_split {i : Nat} (h : (places start items)[i]? = some (offset, inner)) :
    ∃ gap before after, items[i]? = some (gap, inner) ∧
      renderItems items = before ++ gap ++ (inner.render ++ after) ∧
      offset = start + width before + width gap := by
  induction items generalizing start i with
  | nil => cases h
  | cons item items ih =>
      obtain ⟨gap, first⟩ := item
      cases i with
      | zero =>
          obtain ⟨rfl, rfl⟩ := Prod.mk.inj (Option.some.inj h)
          exact ⟨gap, [], renderItems items, rfl, rfl, rfl⟩
      | succ i =>
          obtain ⟨gap', before, after, hitem, htext, rfl⟩ := ih h
          refine ⟨gap', gap ++ (first.render ++ before), after, hitem, ?_, ?_⟩
          · rw [renderItems, htext]
            simp only [List.append_assoc]
          · rw [width_append, width_append]
            omega

theorem memberPlaces_lookup {members : List (String × List Char × Layout)} {name : String}
    {place : Nat × Layout} (h : (memberPlaces members).reverse.lookup name = some place) :
    ∃ i : Nat, (members.map (·.1))[i]? = some name ∧ (places 0 (members.map (·.2)))[i]? = some place := by
  obtain ⟨before, after, hsplit, -⟩ := List.lookup_eq_some_iff.mp h
  have hmem : (name, place) ∈ memberPlaces members := by
    rw [← List.mem_reverse, hsplit]
    exact List.mem_append_right _ List.mem_cons_self
  obtain ⟨i, hi⟩ := List.mem_iff_getElem?.mp hmem
  exact ⟨i, List.getElem?_zip_eq_some.mp hi⟩

/-- A step leads to one of the parts. -/
theorem step_place (h : layout.step key = some (offset, inner)) :
    ∃ i : Nat, (places 0 layout.parts)[i]? = some (offset, inner) := by
  cases layout with
  | leaf text => cases key <;> cases h
  | array items close =>
      cases key with
      | name name => cases h
      | index index => exact ⟨index, h⟩
  | object members close =>
      cases key with
      | index index => cases h
      | name name =>
          obtain ⟨i, -, hi⟩ := memberPlaces_lookup h
          exact ⟨i, hi⟩

theorem locate_cons : layout.locate (key :: path) = some (offset, inner') ↔
    ∃ start inner further, layout.step key = some (start, inner) ∧
      inner.locate path = some (further, inner') ∧ offset = start + further := by
  rw [locate]
  cases hstep : layout.step key with
  | none => simp
  | some place =>
      obtain ⟨start, inner⟩ := place
      cases hfound : inner.locate path with
      | none =>
          refine iff_of_false (by simp [hfound]) ?_
          rintro ⟨_, _, _, heq, hlocate, -⟩
          obtain ⟨rfl, rfl⟩ := Prod.mk.inj (Option.some.inj heq)
          rw [hfound] at hlocate
          cases hlocate
      | some place =>
          obtain ⟨further, found⟩ := place
          constructor
          · intro h
            have h : some (start + further, found) = some (offset, inner') := by
              simpa [hfound] using h
            obtain ⟨rfl, rfl⟩ := Prod.mk.inj (Option.some.inj h)
            exact ⟨start, inner, further, rfl, hfound, rfl⟩
          · rintro ⟨_, _, _, heq, hlocate, rfl⟩
            obtain ⟨rfl, rfl⟩ := Prod.mk.inj (Option.some.inj heq)
            obtain ⟨rfl, rfl⟩ := Prod.mk.inj (Option.some.inj (hfound.symm.trans hlocate))
            simp [hfound]

theorem locate_append : layout.locate (path ++ path') = some (offset, inner') ↔
    ∃ start inner further, layout.locate path = some (start, inner) ∧
      inner.locate path' = some (further, inner') ∧ offset = start + further := by
  induction path generalizing layout offset with
  | nil =>
      constructor
      · exact fun h => ⟨0, layout, offset, rfl, h, (Nat.zero_add _).symm⟩
      · rintro ⟨start, inner, further, heq, hlocate, rfl⟩
        obtain ⟨rfl, rfl⟩ := Prod.mk.inj (Option.some.inj heq)
        rwa [Nat.zero_add]
  | cons key path ih =>
      rw [List.cons_append, locate_cons]
      constructor
      · rintro ⟨start, middle, further, hstep, hlocate, rfl⟩
        obtain ⟨start', inner, further', hfirst, hsecond, rfl⟩ := ih.mp hlocate
        exact ⟨start + start', inner, further', locate_cons.mpr ⟨_, _, _, hstep, hfirst, rfl⟩,
          hsecond, (Nat.add_assoc ..).symm⟩
      · rintro ⟨start, inner, further, hfirst, hsecond, rfl⟩
        obtain ⟨start', middle, further', hstep, hlocate, rfl⟩ := locate_cons.mp hfirst
        exact ⟨start', middle, further' + further, hstep, ih.mpr ⟨_, _, _, hlocate, hsecond, rfl⟩,
          Nat.add_assoc ..⟩

/-- What every value inside takes over from the value around it holds of all places. -/
theorem locate_inherits {P : Layout → Prop}
    (hparts : ∀ layout, P layout → ∀ part ∈ layout.parts, P part.2) (h : P layout)
    (hfound : layout.locate path = some (offset, inner)) : P inner := by
  induction path generalizing layout offset with
  | nil =>
      obtain ⟨-, rfl⟩ := Prod.mk.inj (Option.some.inj hfound)
      exact h
  | cons key path ih =>
      obtain ⟨start, middle, further, hstep, hlocate, -⟩ := locate_cons.mp hfound
      obtain ⟨i, hi⟩ := step_place hstep
      obtain ⟨gap, -, -, hpart, -, -⟩ := places_split hi
      exact ih (hparts layout h _ (List.mem_of_getElem? hpart)) hlocate

/-- The text of a place stands in the text. -/
theorem locate_split (h : layout.locate path = some (offset, inner)) :
    ∃ before after, layout.render = before ++ (inner.render ++ after) ∧ offset = width before := by
  induction path generalizing layout offset with
  | nil =>
      obtain ⟨rfl, rfl⟩ := Prod.mk.inj (Option.some.inj h)
      exact ⟨[], [], by simp, rfl⟩
  | cons key path ih =>
      obtain ⟨start, middle, further, hstep, hlocate, rfl⟩ := locate_cons.mp h
      obtain ⟨i, hi⟩ := step_place hstep
      obtain ⟨gap, before, after, -, htext, rfl⟩ := places_split hi
      obtain ⟨before', after', htext', rfl⟩ := ih hlocate
      refine ⟨before ++ gap ++ before', after' ++ after ++ layout.rest, ?_, ?_⟩
      · rw [render_eq, htext, htext']
        simp only [List.append_assoc]
      · rw [width_append, width_append]
        omega

theorem locate_inside (h : layout.locate path = some (offset, inner)) :
    offset + width inner.render ≤ width layout.render := by
  obtain ⟨before, after, htext, rfl⟩ := locate_split h
  rw [htext, width_append, width_append]
  omega

end Places

/-! ### Punctuation -/

section Punctuation

def isBlank (c : Char) : Bool := c = ' ' || c = '\t' || c = '\n' || c = '\r'

def Blank (text : List Char) : Prop := ∀ c ∈ text, isBlank c = true

def openBrace : Char := Char.ofNat 0x7b

def closeBrace : Char := Char.ofNat 0x7d

/-- A character that neither opens nor closes a value and separates none. -/
def isPlain (c : Char) : Bool :=
  c ≠ '"' && c ≠ '[' && c ≠ ']' && c ≠ ',' && c ≠ openBrace && c ≠ closeBrace

def Plain (text : List Char) : Prop := ∀ c ∈ text, isPlain c = true

/-- A number or one of the three names: visible ASCII characters. -/
structure Word (text : List Char) : Prop where
  nonempty : text ≠ []
  plain : Plain text
  visible : ∀ c ∈ text, 32 < c.toNat ∧ c.toNat < 127

/-- What stands between the quotes of a string. -/
inductive StringBody : List Char → Prop
  | nil : StringBody []
  | char {c : Char} {rest : List Char} (hquote : c ≠ '"') (hescape : c ≠ '\\')
      (h : StringBody rest) : StringBody (c :: rest)
  | escape {c : Char} {rest : List Char} (hascii : c.toNat < 128) (h : StringBody rest) :
      StringBody ('\\' :: c :: rest)

def Quoted (text : List Char) : Prop :=
  ∃ body, StringBody body ∧ text = '"' :: (body ++ ['"'])

/-- A text without blanks around it. -/
structure Tight (text : List Char) : Prop where
  front : ∃ c ∈ text.head?, isBlank c = false
  back : ∃ c ∈ text.getLast?, isBlank c = false

/-- The opening bracket stands in front of the first item, a comma in front of every other
one. -/
def ItemGap (opening : Char) (i : Nat) (gap : List Char) : Prop :=
  ∃ blank blank', Blank blank ∧ Blank blank' ∧
    gap = if i = 0 then opening :: blank' else blank ++ ',' :: blank'

/-- In front of a member its name follows, read by `literal`, with a colon. -/
def MemberGap (literal : List Char → Option String) (i : Nat) (name : String)
    (gap : List Char) : Prop :=
  ∃ front text blank blank', ItemGap openBrace i front ∧ Quoted text ∧
    literal text = some name ∧ Blank blank ∧ Blank blank' ∧
    gap = front ++ (text ++ blank ++ ':' :: blank')

/-- The closing bracket; without any items it follows the opening one. -/
def Closing (opening closing : Char) (empty : Bool) (close : List Char) : Prop :=
  ∃ blank, Blank blank ∧
    close = if empty then opening :: (blank ++ [closing]) else blank ++ [closing]

/-- The text is one of JSON. -/
inductive Spelled (literal : List Char → Option String) : Layout → Prop
  | leaf {text : List Char} (h : Word text ∨ Quoted text) : Spelled literal (.leaf text)
  | array {items : List (List Char × Layout)} {close : List Char}
      (hgaps : ∀ i gap inner, items[i]? = some (gap, inner) → ItemGap '[' i gap)
      (hitems : ∀ item ∈ items, Spelled literal item.2)
      (hclose : Closing '[' ']' items.isEmpty close) : Spelled literal (.array items close)
  | object {members : List (String × List Char × Layout)} {close : List Char}
      (hgaps : ∀ i name gap inner, members[i]? = some (name, gap, inner) →
        MemberGap literal i name gap)
      (hmembers : ∀ member ∈ members, Spelled literal member.2.2)
      (hclose : Closing openBrace closeBrace members.isEmpty close) :
      Spelled literal (.object members close)

variable {literal : List Char → Option String} {layout inner inner' : Layout}
variable {path path' : List Key} {offset offset' : Nat}

theorem ItemGap.front {opening : Char} {gap : List Char} (h : ItemGap opening 0 gap) :
    gap.head? = some opening := by
  obtain ⟨blank, blank', -, -, rfl⟩ := h
  rfl

theorem ItemGap.ne_nil {opening : Char} {i : Nat} {gap : List Char} (h : ItemGap opening i gap) :
    gap ≠ [] := by
  obtain ⟨blank, blank', -, -, rfl⟩ := h
  split
  · exact List.cons_ne_nil _ _
  · simp

/-- The gaps behind the first one do not differ. -/
theorem ItemGap.later {opening : Char} {i j : Nat} {gap : List Char}
    (h : ItemGap opening (i + 1) gap) : ItemGap opening (j + 1) gap := by
  obtain ⟨blank, blank', hblank, hblank', rfl⟩ := h
  exact ⟨blank, blank', hblank, hblank', by rw [if_neg (Nat.succ_ne_zero i), if_neg (Nat.succ_ne_zero j)]⟩

theorem MemberGap.later {i j : Nat} {name : String} {gap : List Char}
    (h : MemberGap literal (i + 1) name gap) : MemberGap literal (j + 1) name gap := by
  obtain ⟨front, text, blank, blank', hfront, hrest⟩ := h
  exact ⟨front, text, blank, blank', hfront.later, hrest⟩

theorem head?_append_of_some {c : Char} {front : List Char} (h : front.head? = some c)
    (back : List Char) : (front ++ back).head? = some c := by
  rw [List.head?_append, h]
  rfl

/-- The first character of a bracketed text. -/
theorem bracketed_head {opening closing : Char} {items : List (List Char × Layout)}
    {close : List Char} (hgap : ∀ gap inner, items[0]? = some (gap, inner) →
      gap.head? = some opening) (hclose : Closing opening closing items.isEmpty close) :
    (renderItems items ++ close).head? = some opening := by
  cases items with
  | nil =>
      obtain ⟨blank, -, rfl⟩ := hclose
      rfl
  | cons item items =>
      obtain ⟨gap, inner⟩ := item
      rw [renderItems, List.append_assoc]
      exact head?_append_of_some (hgap gap inner rfl) _

theorem closing_last {opening closing : Char} {empty : Bool} {close : List Char}
    (h : Closing opening closing empty close) (front : List Char) :
    (front ++ close).getLast? = some closing := by
  obtain ⟨blank, -, rfl⟩ := h
  split
  · rw [← List.cons_append, ← List.append_assoc, List.getLast?_append]
    rfl
  · rw [← List.append_assoc, List.getLast?_append]
    rfl

theorem spelled_array_head {items : List (List Char × Layout)} {close : List Char}
    (h : Spelled literal (.array items close)) : (render (.array items close)).head? = some '[' := by
  cases h with
  | array hgaps hitems hclose =>
      rw [render]
      exact bracketed_head (fun gap inner hfirst => (hgaps 0 gap inner hfirst).front) hclose

theorem spelled_object_head {members : List (String × List Char × Layout)} {close : List Char}
    (h : Spelled literal (.object members close)) :
    (render (.object members close)).head? = some openBrace := by
  cases h with
  | object hgaps hmembers hclose =>
      rw [render, renderMembers_eq]
      refine bracketed_head (fun gap inner hfirst => ?_) (by rwa [List.isEmpty_map])
      rw [List.getElem?_map, Option.map_eq_some_iff] at hfirst
      obtain ⟨⟨name, gap', inner'⟩, hmember, heq⟩ := hfirst
      obtain ⟨rfl, rfl⟩ := Prod.mk.inj heq
      obtain ⟨front, text, blank, blank', hfront, -, -, -, -, rfl⟩ := hgaps 0 name _ _ hmember
      exact head?_append_of_some hfront.front _

/-- **No blanks surround a value.** -/
theorem Spelled.tight (h : Spelled literal layout) : Tight layout.render := by
  cases h with
  | @leaf text h =>
      obtain hword | ⟨body, -, rfl⟩ := h
      · have hblank : ∀ c ∈ text, isBlank c = false := by
          intro c hc
          obtain ⟨hlow, -⟩ := hword.visible c hc
          simp only [isBlank, Bool.or_eq_false_iff, decide_eq_false_iff_not]
          refine ⟨⟨⟨?_, ?_⟩, ?_⟩, ?_⟩ <;> (rintro rfl; revert hlow; decide)
        refine ⟨⟨text.head hword.nonempty, List.head_mem_head? hword.nonempty,
          hblank _ (List.head_mem _)⟩, ⟨text.getLast hword.nonempty, ?_,
          hblank _ (List.getLast_mem _)⟩⟩
        rw [render, List.getLast?_eq_getLast_of_ne_nil hword.nonempty]
        rfl
      · refine ⟨⟨'"', rfl, rfl⟩, ⟨'"', ?_, rfl⟩⟩
        rw [render, ← List.cons_append, List.getLast?_append]
        rfl
  | @array items close hgaps hitems hclose =>
      refine ⟨⟨'[', spelled_array_head (.array hgaps hitems hclose), rfl⟩, ⟨']', ?_, rfl⟩⟩
      exact closing_last hclose _
  | @object members close hgaps hmembers hclose =>
      refine ⟨⟨openBrace, spelled_object_head (.object hgaps hmembers hclose), rfl⟩,
        ⟨closeBrace, ?_, rfl⟩⟩
      exact closing_last hclose _

/-- The text without the blanks around it. -/
def trimBlanks (text : List Char) : List Char :=
  ((text.dropWhile isBlank).reverse.dropWhile isBlank).reverse

theorem dropWhile_blank {text after : List Char} (hblank : Blank text) :
    (text ++ after).dropWhile isBlank = after.dropWhile isBlank := by
  induction text with
  | nil => rfl
  | cons c text ih =>
      rw [List.cons_append, List.dropWhile_cons_of_pos (hblank c List.mem_cons_self)]
      exact ih fun c hc => hblank c (List.mem_cons_of_mem _ hc)

theorem dropWhile_solid {text : List Char} (h : ∃ c ∈ text.head?, isBlank c = false)
    (after : List Char) : (text ++ after).dropWhile isBlank = text ++ after := by
  obtain ⟨c, hc, hsolid⟩ := h
  cases text with
  | nil => cases hc
  | cons d text =>
      obtain rfl : d = c := Option.some.inj hc
      exact List.dropWhile_cons_of_neg (by rw [hsolid]; decide)

/-- **A text is found between blanks.** -/
theorem trimBlanks_between {before text after : List Char} (hbefore : Blank before)
    (htext : Tight text) (hafter : Blank after) :
    trimBlanks (before ++ (text ++ after)) = text := by
  have hback : ∃ c ∈ text.reverse.head?, isBlank c = false := by
    rw [List.head?_reverse]
    exact htext.back
  have hreverse : Blank after.reverse := fun c hc => hafter c (List.mem_reverse.mp hc)
  rw [trimBlanks, dropWhile_blank hbefore, dropWhile_solid htext.front, List.reverse_append,
    dropWhile_blank hreverse]
  have hsolid := dropWhile_solid hback []
  rw [List.append_nil] at hsolid
  rw [hsolid, List.reverse_reverse]

theorem exists_blanks (text : List Char) :
    ∃ after, Blank (text.takeWhile isBlank) ∧ Blank after ∧
      text = text.takeWhile isBlank ++ (trimBlanks text ++ after) := by
  have hfront : ∀ text : List Char, Blank (text.takeWhile isBlank) :=
    fun text c hc => List.all_eq_true.mp List.all_takeWhile c hc
  refine ⟨((text.dropWhile isBlank).reverse.takeWhile isBlank).reverse, hfront text,
    fun c hc => hfront _ c (List.mem_reverse.mp hc), ?_⟩
  rw [trimBlanks, ← List.reverse_append, List.takeWhile_append_dropWhile, List.reverse_reverse,
    List.takeWhile_append_dropWhile]

/-- Every value inside is spelled, and something stands in front of it. -/
theorem Spelled.part (h : Spelled literal layout) {i : Nat} {gap : List Char}
    (hpart : layout.parts[i]? = some (gap, inner)) : Spelled literal inner ∧ gap ≠ [] := by
  cases h with
  | leaf h => cases hpart
  | array hgaps hitems hclose =>
      exact ⟨hitems _ (List.mem_of_getElem? hpart), (hgaps i gap inner hpart).ne_nil⟩
  | object hgaps hmembers hclose =>
      rw [parts, List.getElem?_map, Option.map_eq_some_iff] at hpart
      obtain ⟨⟨name, gap', inner'⟩, hmember, heq⟩ := hpart
      obtain ⟨rfl, rfl⟩ := Prod.mk.inj heq
      refine ⟨hmembers _ (List.mem_of_getElem? hmember), ?_⟩
      obtain ⟨front, text, blank, blank', hfront, -, -, -, -, rfl⟩ := hgaps i name _ _ hmember
      exact List.append_ne_nil_of_left_ne_nil hfront.ne_nil _

theorem Spelled.step (h : Spelled literal layout) {key : Key}
    (hstep : layout.step key = some (offset, inner)) : Spelled literal inner ∧ 0 < offset := by
  obtain ⟨i, hi⟩ := step_place hstep
  obtain ⟨gap, before, after, hpart, -, rfl⟩ := places_split hi
  obtain ⟨hspelled, hgap⟩ := h.part hpart
  have hwidth := length_le_width gap
  have hpos := List.length_pos_of_ne_nil hgap
  exact ⟨hspelled, by omega⟩

theorem Spelled.locate (h : Spelled literal layout)
    (hfound : layout.locate path = some (offset, inner)) :
    Spelled literal inner ∧ (path ≠ [] → 0 < offset) := by
  induction path generalizing layout offset with
  | nil =>
      obtain ⟨rfl, rfl⟩ := Prod.mk.inj (Option.some.inj hfound)
      exact ⟨h, fun hne => absurd rfl hne⟩
  | cons key path ih =>
      obtain ⟨start, middle, further, hstep, hlocate, rfl⟩ := locate_cons.mp hfound
      obtain ⟨hmiddle, hpos⟩ := h.step hstep
      exact ⟨(ih hmiddle hlocate).1, fun _ => by omega⟩

end Punctuation

end Layout
end Json
end Library
end Glaux
