import Glaux.Library.Json.Meaning
import Glaux.Standards.Validation.Scanner

/-!
# The documents that are accepted (`validation::parse`)

Under the grammar of JSON, parsing accepts exactly the documents within the bounds and returns
what they spell.  Every value inside an accepted document is a document of its own.
-/

namespace Glaux
namespace Standards
namespace Validation

open Library Domain
open Library.Json (Denotes Key Layout Part scalar width)
open Library.Json.Layout (Blank Quoted Spelled Word trimBlanks)

section Text

theorem decode_utf8 (text : String) : decode (utf8 text.toList) = some text := by
  have hbytes : (⟨(utf8 text.toList).toArray⟩ : ByteArray) = text.toByteArray := by
    rw [utf8_eq_toByteArray, Array.toArray_toList]
  rw [decode, hbytes, String.fromUTF8?, dif_pos text.isValidUTF8]
  rfl

theorem eq_utf8_of_decode {input : Bytes} {text : String} (h : decode input = some text) :
    input = utf8 text.toList := by
  rw [decode, String.fromUTF8?] at h
  split at h
  next hvalid =>
    obtain rfl := Option.some.inj h
    rw [utf8_eq_toByteArray]
    rfl
  next => cases h

end Text

/-- The text a layout is cut from. -/
abbrev sourceOf (layout : Layout) : String := String.ofList layout.render

/-- `serde_json` follows a grammar: `tree` cuts the texts of values at the values inside. -/
structure Documented (serde : Serde) (tree : String → Option Layout) : Prop where
  spelled : ∀ text layout, tree text = some layout →
    Spelled (literal serde) layout ∧ sourceOf layout = text
  part : ∀ text layout, tree text = some layout → ∀ part ∈ layout.parts,
    tree (sourceOf part.2) = some part.2
  raw : ∀ input, serde.raw input = (decode input).bind fun text =>
    (tree (String.ofList (trimBlanks text.toList))).map sourceOf
  members : ∀ text members close, tree text = some (.object members close) →
    (members.map (·.1)).Nodup → ∃ sorted : List (String × List Char × Layout),
      sorted.Perm members ∧ sorted.Pairwise (fun a b => a.1 < b.1) ∧
      serde.members text = some (sorted.map fun member => (member.1, sourceOf member.2.2))
  items : ∀ text items close, tree text = some (.array items close) →
    serde.items text = some (items.map fun item => sourceOf item.2)
  value : ∀ text leaf, tree text = some (.leaf leaf) →
    serde.value text = scalar (literal serde) leaf

section Reading

variable {serde : Serde} {tree : String → Option Layout} {layout inner : Layout} {value : Json}
variable {depth room : ℕ} {text : String}

/-- No character in front of a value is trimmed. -/
theorem head_spelled (h : Spelled (literal serde) layout) :
    ∃ c ∈ layout.render.head?, isWhiteSpace c = false ∧
      (c = Char.ofNat 0x7b ↔ ∃ members close, layout = .object members close) ∧
      (c = '[' ↔ ∃ items close, layout = .array items close) := by
  cases h with
  | @leaf text h =>
      have hnone : ∀ c ∈ text.head?, Word text ∨ c = '"' →
          ∃ c ∈ text.head?, isWhiteSpace c = false ∧
            (c = Char.ofNat 0x7b ↔ ∃ members close, Layout.leaf text = .object members close) ∧
            (c = '[' ↔ ∃ items close, Layout.leaf text = .array items close) := by
        intro c hc hkind
        refine ⟨c, hc, ?_, ?_, ?_⟩
        · obtain hword | rfl := hkind
          · obtain ⟨hlow, hhigh⟩ := hword.visible c (List.mem_of_mem_head? hc)
            simp only [isWhiteSpace, List.mem_cons, List.not_mem_nil, or_false, Bool.or_eq_false_iff,
              Bool.and_eq_false_iff, decide_eq_false_iff_not]
            omega
          · decide
        · refine iff_of_false ?_ (by rintro ⟨members, close, h⟩; cases h)
          obtain hword | rfl := hkind
          · rintro rfl
            exact absurd (hword.plain _ (List.mem_of_mem_head? hc)) (by decide)
          · decide
        · refine iff_of_false ?_ (by rintro ⟨items, close, h⟩; cases h)
          obtain hword | rfl := hkind
          · rintro rfl
            exact absurd (hword.plain _ (List.mem_of_mem_head? hc)) (by decide)
          · decide
      obtain hword | ⟨body, -, rfl⟩ := h
      · exact hnone (text.head hword.nonempty) (List.head_mem_head? hword.nonempty) (.inl hword)
      · exact hnone '"' rfl (.inr rfl)
  | @array items close hgaps hitems hclose =>
      refine ⟨'[', Layout.spelled_array_head (.array hgaps hitems hclose), by decide, ?_, ?_⟩
      · exact iff_of_false (by decide) (by rintro ⟨members, close, h⟩; cases h)
      · exact iff_of_true rfl ⟨items, close, rfl⟩
  | @object members close hgaps hmembers hclose =>
      refine ⟨Layout.openBrace, Layout.spelled_object_head (.object hgaps hmembers hclose),
        by decide, ?_, ?_⟩
      · exact iff_of_true rfl ⟨members, close, rfl⟩
      · exact iff_of_false (by decide) (by rintro ⟨items, close, h⟩; cases h)

theorem trimStart_sourceOf (h : Spelled (literal serde) layout) :
    trimStart (sourceOf layout) = sourceOf layout := by
  obtain ⟨c, hc, hsolid, -, -⟩ := head_spelled h
  rw [trimStart, String.toList_ofList]
  cases htext : layout.render with
  | nil =>
      rw [htext] at hc
      cases hc
  | cons d rest =>
      rw [htext] at hc
      obtain rfl : d = c := Option.some.inj hc
      rw [List.dropWhile_cons_of_neg (by rw [hsolid]; decide)]
      exact congrArg String.ofList htext.symm

theorem utf8ByteSize_sourceOf (layout : Layout) :
    (sourceOf layout).utf8ByteSize = width layout.render := by
  rw [utf8ByteSize_eq, String.toList_ofList, width]

/-- A value inside is shorter. -/
theorem width_part (h : Spelled (literal serde) layout) {part : List Char × Layout}
    (hpart : part ∈ layout.parts) : width part.2.render < width layout.render := by
  obtain ⟨i, hi⟩ := List.mem_iff_getElem?.mp hpart
  obtain ⟨gap, inner⟩ := part
  obtain ⟨hinner, hgap⟩ := h.part hi
  obtain ⟨offset, hplace⟩ := Json.places_getElem? 0 hi
  obtain ⟨gap', before, after, hitem, hsplit, -⟩ := Layout.places_split hplace
  obtain ⟨rfl, -⟩ := Prod.mk.inj (Option.some.inj (hitem.symm.trans hi))
  have hpos := List.length_pos_of_ne_nil hgap
  have hgapWidth := Json.length_le_width gap'
  rw [Layout.render_eq layout, hsplit]
  simp only [Json.width_append]
  omega

/-- A leaf within the bounds is read. -/
theorem scalar_of_bounded {leaf : List Char}
    (hbounded : Bounded (literal serde) depth (.leaf leaf)) :
    ∃ value, scalar (literal serde) leaf = some value := by
  rw [scalar]
  split
  next hhead =>
    cases hbounded with
    | plain hplain => exact absurd (hplain _ (List.mem_of_mem_head? hhead)) (by decide)
    | text hread hsize => exact ⟨_, by rw [hread]; rfl⟩
  next =>
    repeat (split; · exact ⟨_, rfl⟩)
    exact ⟨_, rfl⟩

/-- **Reading a value** gives the document its text spells, whatever the room above it. -/
theorem preserve_eq_ok (hdoc : Documented serde tree) (htree : tree text = some layout)
    (hbounded : Bounded (literal serde) depth layout) (hroom : text.utf8ByteSize < room) :
    ∃ value, preserve_wire_kind serde room text = .ok value ∧
      Denotes (literal serde) layout value := by
  induction room generalizing text layout depth with
  | zero => exact absurd hroom (Nat.not_lt_zero _)
  | succ room ih =>
      obtain ⟨hspelled, rfl⟩ := hdoc.spelled text layout htree
      have hparts : ∀ depth part, part ∈ layout.parts → Bounded (literal serde) depth part.2 →
          ∃ value, preserve_wire_kind serde room (sourceOf part.2) = .ok value ∧
            Denotes (literal serde) part.2 value := by
        intro depth part hpart hbounded
        refine ih (hdoc.part _ layout htree part hpart) hbounded ?_
        have hlt := width_part hspelled hpart
        rw [utf8ByteSize_sourceOf] at hroom ⊢
        omega
      obtain ⟨c, hc, -, hobject, harray⟩ := head_spelled hspelled
      have hhead : (sourceOf layout).toList.head? = some c := by rw [String.toList_ofList]; exact hc
      rw [preserve_wire_kind]
      simp only [trimStart_sourceOf hspelled, hhead, Option.some.injEq]
      cases layout with
      | leaf leaf =>
          obtain ⟨value, hvalue⟩ := scalar_of_bounded hbounded
          rw [if_neg (hobject.not.mpr (by rintro ⟨members, close, h⟩; cases h)),
            if_neg (harray.not.mpr (by rintro ⟨items, close, h⟩; cases h)),
            hdoc.value _ leaf htree, hvalue]
          exact ⟨value, rfl, .leaf hvalue⟩
      | array items close =>
          rw [if_neg (hobject.not.mpr (by rintro ⟨members, close, h⟩; cases h)),
            if_pos (harray.mpr ⟨items, close, rfl⟩), hdoc.items _ items close htree]
          obtain ⟨hdepth, hitems⟩ := bounded_array.mp hbounded
          obtain ⟨values, hvalues, hrel⟩ := mapM_exists fun item hitem =>
            hparts _ item hitem (hitems item hitem)
          have hread : (items.map fun item => sourceOf item.2).mapM
              (preserve_wire_kind serde room) = .ok values := by
            rw [List.mapM_map]
            exact hvalues
          refine ⟨.array values, by simp only [hread, ok_bind], .array hrel.length_eq.symm ?_⟩
          intro i gap inner value hitem hvalue
          obtain ⟨hi, heq⟩ := List.getElem?_eq_some_iff.mp hitem
          obtain ⟨hi', heq'⟩ := List.getElem?_eq_some_iff.mp hvalue
          have hget : Denotes (literal serde) items[i].2 values[i] := hrel.get hi hi'
          rwa [heq, heq'] at hget
      | object members close =>
          obtain ⟨hdepth, -, hnodup, -, hmembers⟩ := bounded_object.mp hbounded
          obtain ⟨sorted, hperm, hsorted, hread⟩ := hdoc.members _ members close htree hnodup
          rw [if_pos (hobject.mpr ⟨members, close, rfl⟩), hread]
          have hmember : ∀ member ∈ sorted, ∃ value,
              (preserve_wire_kind serde room (sourceOf member.2.2)).map (member.1, ·) = .ok value ∧
                value.1 = member.1 ∧ Denotes (literal serde) member.2.2 value.2 := by
            intro member hmember
            have hmem := hperm.mem_iff.mp hmember
            obtain ⟨value, hvalue, hdenotes⟩ := hparts _ member.2
              (List.mem_map_of_mem (f := (·.2)) hmem) (hmembers member hmem)
            exact ⟨(member.1, value), by rw [hvalue]; rfl, rfl, hdenotes⟩
          obtain ⟨values, hvalues, hrel⟩ := mapM_exists hmember
          have hread : (sorted.map fun member => (member.1, sourceOf member.2.2)).mapM
              (fun member => (preserve_wire_kind serde room member.2).map (member.1, ·)) =
                .ok values := by
            rw [List.mapM_map]
            exact hvalues
          have hnames : values.map (·.1) = sorted.map (·.1) := by
            have hrel' : List.Forall₂ Eq (values.map (·.1)) (sorted.map (·.1)) :=
              List.forall₂_map_left_iff.mpr (List.forall₂_map_right_iff.mpr
                (List.Forall₂.flip (hrel.imp fun member value h => h.1)))
            rwa [List.forall₂_eq_eq_eq] at hrel'
          refine ⟨.object values, by simp only [hread, ok_bind], .object ?_ ?_ ?_⟩
          · have hpairwise : (values.map (·.1)).Pairwise (· < ·) := by
              rw [hnames, List.pairwise_map]
              exact hsorted
            exact List.pairwise_map.mp hpairwise
          · rw [hnames]
            exact hperm.map _
          · intro name gap inner value hmem hvalue
            obtain ⟨member, hmem', heq⟩ := (mem_mapM hvalues).2 _ hvalue
            obtain ⟨value', heq', hname, hdenotes⟩ := hmember member hmem'
            obtain rfl := Except.ok.inj (heq.symm.trans heq')
            have hsame := List.inj_on_of_nodup_map hnodup (hperm.mem_iff.mp hmem') hmem hname.symm
            rw [hsame] at hdenotes
            exact hdenotes

/-- **Reading a value** needs no more room than its text is long. -/
theorem preserve_room (hdoc : Documented serde tree) (htree : tree text = some layout)
    (hbounded : Bounded (literal serde) depth layout) (hroom : text.utf8ByteSize < room) :
    preserve_wire_kind serde room text = .ok value ↔ Denotes (literal serde) layout value := by
  obtain ⟨value', hread, hdenotes⟩ := preserve_eq_ok hdoc htree hbounded hroom
  constructor
  · intro h
    obtain rfl := Except.ok.inj (hread.symm.trans h)
    exact hdenotes
  · intro h
    rw [hdenotes.unique h] at hread
    exact hread

end Reading

section Documents

theorem Checked.part {part value : Json} (h : Checked value) (hpart : Part part value) :
    Checked part :=
  ⟨fun lexeme hp => h.exact lexeme (hp.trans hpart), fun items hp => h.items items (hp.trans hpart),
    fun members hp => h.members members (hp.trans hpart)⟩

variable {serde : Serde} {tree : String → Option Layout} {layout inner : Layout}
variable {value part : Json} {input : Bytes}

/-- The bytes are one JSON text within the bounds, and it spells the value. -/
structure Document (serde : Serde) (tree : String → Option Layout) (input : Bytes)
    (layout : Layout) (value : Json) : Prop where
  spaced : ∃ before after, Blank before ∧ Blank after ∧
    input = utf8 (before ++ (layout.render ++ after))
  grammar : tree (sourceOf layout) = some layout
  size : input.length ≤ maxBytes
  bounded : Bounded (literal serde) 0 layout
  denotes : Denotes (literal serde) layout value
  checked : Checked value
  nodes : value.size ≤ maxNodes

theorem raw_eq_some (hdoc : Documented serde tree) {text : String} :
    serde.raw input = some text ↔ ∃ layout before after, Blank before ∧ Blank after ∧
      input = utf8 (before ++ (layout.render ++ after)) ∧ tree (sourceOf layout) = some layout ∧
      sourceOf layout = text := by
  rw [hdoc.raw]
  constructor
  · intro h
    obtain ⟨whole, hwhole, h⟩ := Option.bind_eq_some_iff.mp h
    obtain ⟨layout, htree, rfl⟩ := Option.map_eq_some_iff.mp h
    obtain ⟨after, hbefore, hafter, hsplit⟩ := Layout.exists_blanks whole.toList
    obtain ⟨-, hsource⟩ := hdoc.spelled _ layout htree
    have hrender : layout.render = trimBlanks whole.toList := by
      simpa using congrArg String.toList hsource
    refine ⟨layout, _, after, hbefore, hafter, ?_, ?_, rfl⟩
    · rw [eq_utf8_of_decode hwhole, hrender, ← hsplit]
    · rw [hsource]
      exact htree
  · rintro ⟨layout, before, after, hbefore, hafter, rfl, htree, rfl⟩
    obtain ⟨hspelled, -⟩ := hdoc.spelled _ layout htree
    have hwhole := decode_utf8 (String.ofList (before ++ (layout.render ++ after)))
    rw [String.toList_ofList] at hwhole
    rw [hwhole, Option.bind_some, String.toList_ofList,
      Layout.trimBlanks_between hbefore hspelled.tight hafter]
    rw [htree]
    rfl

/-- **What is accepted**, and what is returned. -/
theorem parse_eq_ok (hdoc : Documented serde tree) :
    parse serde input = .ok value ↔ ∃ layout, Document serde tree input layout value := by
  constructor
  · intro h
    rw [parse] at h
    split at h
    next => cases h
    next hsize =>
      obtain ⟨frames, hscan, h⟩ := bind_eq_ok.mp h
      split at h
      next => cases h
      next hframes =>
        obtain rfl : frames = [] := not_not.mp hframes
        cases hraw : serde.raw input with
        | none =>
            rw [hraw] at h
            cases h
        | some text =>
            rw [hraw] at h
            obtain ⟨layout, before, after, hbefore, hafter, rfl, htree, rfl⟩ :=
              (raw_eq_some hdoc).mp hraw
            obtain ⟨value', hread, h⟩ := bind_eq_ok.mp h
            obtain ⟨_, hwalk, h⟩ := bind_eq_ok.mp h
            obtain rfl := Except.ok.inj h
            obtain ⟨hspelled, -⟩ := hdoc.spelled _ layout htree
            obtain ⟨-, hbounded⟩ := (scan_eq_ok hspelled hbefore hafter).mp hscan
            obtain ⟨hnodes, hchecked⟩ := (checkNodes_eq_ok [value'] 0 (Nat.zero_le _)).mp hwalk
            exact ⟨layout, ⟨before, after, hbefore, hafter, rfl⟩, htree, Nat.le_of_not_lt hsize,
              hbounded, (preserve_room hdoc htree hbounded (Nat.lt_succ_self _)).mp hread,
              hchecked _ List.mem_cons_self, by simpa using hnodes⟩
  · rintro ⟨layout, ⟨before, after, hbefore, hafter, rfl⟩, htree, hsize, hbounded, hdenotes,
      hchecked, hnodes⟩
    obtain ⟨hspelled, -⟩ := hdoc.spelled _ layout htree
    have hscan : scan serde (utf8 (before ++ (layout.render ++ after))) 0 [] = .ok [] :=
      (scan_eq_ok hspelled hbefore hafter).mpr ⟨rfl, hbounded⟩
    have hraw := (raw_eq_some hdoc).mpr ⟨layout, before, after, hbefore, hafter, rfl, htree, rfl⟩
    have hread := (preserve_room hdoc htree hbounded (Nat.lt_succ_self _)).mpr hdenotes
    have hwalk := (checkNodes_eq_ok [value] 0 (Nat.zero_le _)).mpr
      ⟨by simpa using hnodes, fun node hnode => List.mem_singleton.mp hnode ▸ hchecked⟩
    rw [parse, if_neg (Nat.not_lt.mpr hsize), hscan, ok_bind, if_neg (fun h => h rfl), hraw]
    simp only [hread, hwalk, ok_bind]

/-- A value inside a document within the bounds is one, in its own bytes. -/
theorem Document.inside (hdoc : Documented serde tree) (h : Document serde tree input layout value)
    {path : List Key} {offset : ℕ} (hfound : layout.locate path = some (offset, inner)) :
    ∃ part, value.follow (path.map Key.token) = some part ∧ Part part value ∧
      Document serde tree (utf8 inner.render) inner part := by
  obtain ⟨part, hfollow, hdenotes⟩ := h.denotes.locate hfound
  have hpart := Json.part_of_follow hfollow
  have hsize : (utf8 inner.render).length ≤ input.length := by
    obtain ⟨before, after, -, -, rfl⟩ := h.spaced
    have hinside : offset + (utf8 inner.render).length ≤ (utf8 layout.render).length :=
      Layout.locate_inside hfound
    rw [utf8_append, utf8_append, List.length_append, List.length_append]
    omega
  have hgrammar := Layout.locate_inherits (P := fun layout => tree (sourceOf layout) = some layout)
    (fun layout h part hpart => hdoc.part _ layout h part hpart) h.grammar hfound
  have hbounded := Layout.locate_inherits (P := Bounded (literal serde) 0)
    (fun layout h part hpart => h.part hpart) h.bounded hfound
  exact ⟨part, hfollow, hpart, ⟨[], [], by simp [Blank], by simp [Blank], by simp⟩, hgrammar,
    hsize.trans h.size, hbounded, hdenotes, h.checked.part hpart, hpart.size_le.trans h.nodes⟩

end Documents

section Grammar

/-- The readers that follow a grammar in which names stand in order. -/
def Serde.ofTree (text : Bytes → Option String) (tree : String → Option Layout) : Serde where
  text := text
  raw input := (decode input).bind fun text =>
    (tree (String.ofList (trimBlanks text.toList))).map sourceOf
  members source :=
    match tree source with
    | some (.object members _) => some (members.map fun member => (member.1, sourceOf member.2.2))
    | _ => none
  items source :=
    match tree source with
    | some (.array items _) => some (items.map fun item => sourceOf item.2)
    | _ => none
  value source :=
    match tree source with
    | some (.leaf leaf) => scalar (fun text' => text (utf8 text')) leaf
    | _ => none

theorem documented_ofTree {text : Bytes → Option String} {tree : String → Option Layout}
    (hspelled : ∀ source layout, tree source = some layout →
      Spelled (fun text' => text (utf8 text')) layout ∧ sourceOf layout = source)
    (hpart : ∀ source layout, tree source = some layout → ∀ part ∈ layout.parts,
      tree (sourceOf part.2) = some part.2)
    (hsorted : ∀ source members close, tree source = some (.object members close) →
      members.Pairwise fun a b => a.1 < b.1) :
    Documented (Serde.ofTree text tree) tree where
  spelled := hspelled
  part := hpart
  raw _ := rfl
  members source members close htree _ :=
    ⟨members, .refl _, hsorted source members close htree, by simp only [Serde.ofTree, htree]⟩
  items source items close htree := by simp only [Serde.ofTree, htree]
  value source leaf htree := by
    simp only [Serde.ofTree, htree]
    rfl

/-! #### A document -/

/-- `1` -/
def sampleOne : Layout := .leaf ['1']

/-- `[1]` -/
def sampleList : Layout := .array [(['['], sampleOne)] [']']

/-- `"a":[1]` in braces -/
def sampleObject : Layout :=
  .object [("a", [Layout.openBrace, '"', 'a', '"', ':'], sampleList)] [Layout.closeBrace]

def sampleTree (source : String) : Option Layout :=
  if source = sourceOf sampleObject then some sampleObject
  else if source = sourceOf sampleList then some sampleList
  else if source = sourceOf sampleOne then some sampleOne
  else none

def sampleText (bytes : Bytes) : Option String := if bytes = [0x22, 0x61, 0x22] then some "a" else none

def sampleSerde : Serde := .ofTree sampleText sampleTree

theorem blank_nil : Blank [] := fun _ hc => absurd hc List.not_mem_nil

def sampleValue : Json := .object [("a", .array [.number "1"])]

theorem sampleValue_checked : Checked sampleValue := by
  have hone : Checked (.number "1") :=
    checked_leaf (fun lexeme h => Json.number.inj h ▸ ⟨_, rfl⟩) (by intro _ h; cases h)
      (by intro _ h; cases h)
  have hlist : Checked (.array [.number "1"]) :=
    checked_array.mpr ⟨by decide, fun item hitem => List.mem_singleton.mp hitem ▸ hone⟩
  exact checked_object.mpr ⟨by decide, fun value hvalue => List.mem_singleton.mp hvalue ▸ hlist⟩

theorem sampleList_denotes {literal : List Char → Option String} :
    Denotes literal sampleList (.array [.number "1"]) := by
  refine .array rfl fun i gap inner value hitem hvalue => ?_
  obtain ⟨hi, heq⟩ := List.getElem?_eq_some_iff.mp hitem
  obtain rfl : i = 0 := Nat.lt_one_iff.mp hi
  obtain ⟨-, rfl⟩ := Prod.mk.inj heq
  obtain rfl := Option.some.inj hvalue
  exact .leaf rfl

/-- Between blanks. -/
theorem sampleDocument :
    Document sampleSerde sampleTree (utf8 (' ' :: (sampleObject.render ++ ['\n']))) sampleObject
      sampleValue where
  spaced := ⟨[' '], ['\n'], by simp [Blank, Layout.isBlank], by simp [Blank, Layout.isBlank], rfl⟩
  grammar := by rw [sampleTree, if_pos rfl]
  size := by decide
  bounded := by
    refine bounded_object.mpr ⟨by decide, by decide, by decide, by decide, fun member hmember => ?_⟩
    obtain rfl := List.mem_singleton.mp hmember
    refine bounded_array.mpr ⟨by decide, fun item hitem => ?_⟩
    obtain rfl := List.mem_singleton.mp hitem
    exact .plain fun c hc => List.mem_singleton.mp hc ▸ by decide
  denotes := by
    refine .object (List.pairwise_singleton _ _) (List.Perm.refl _)
      fun name gap inner value hmember hvalue => ?_
    obtain ⟨-, hinner⟩ := Prod.mk.inj (List.mem_singleton.mp hmember)
    obtain ⟨-, rfl⟩ := Prod.mk.inj hinner
    obtain ⟨-, rfl⟩ := Prod.mk.inj (List.mem_singleton.mp hvalue)
    exact sampleList_denotes
  checked := sampleValue_checked
  nodes := by decide

end Grammar

end Validation
end Standards
end Glaux
