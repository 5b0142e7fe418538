import Glaux.Standards.Validation.Documents

/-!
# Borrowed raw values (`references.rs`)

A borrowed raw value is a slice of the submitted bytes; its address tells where it stands.
-/

namespace Glaux
namespace Standards

open Library
open Library.Json (Key Layout width)
open Library.Json.Layout (Blank)
open Validation (sourceOf)

/-- `&RawValue`: a text and where it stands in memory. -/
structure RawValue where
  address : ℕ
  text : String

/-- The submitted bytes, and where they stand in memory. -/
structure SubmittedBytes where
  address : ℕ
  bytes : Bytes

/-- `Range<usize>` -/
structure ByteRange where
  start : ℕ
  stop : ℕ
deriving DecidableEq

/-- The bytes of a range. -/
def ByteRange.slice (range : ByteRange) (bytes : Bytes) : Bytes :=
  (bytes.drop range.start).take (range.stop - range.start)

/-- `serde_json`, with the offsets of the raw values it borrows. -/
structure Borrowing where
  /-- `from_slice::<String>` -/
  text : Bytes → Option String
  /-- `from_slice::<&RawValue>` -/
  whole : Bytes → Option (ℕ × String)
  /-- `from_str::<BTreeMap<String, &RawValue>>` -/
  members : String → Option (List (String × ℕ × String))
  /-- `from_str::<Vec<&RawValue>>` -/
  items : String → Option (List (ℕ × String))
  /-- `from_str::<Value>` -/
  value : String → Option Json

namespace Borrowing

/-- The same entry points for owned raw values. -/
def serde (borrowing : Borrowing) : Validation.Serde where
  text := borrowing.text
  raw input := (borrowing.whole input).map (·.2)
  members text := (borrowing.members text).map (·.map fun member => (member.1, member.2.2))
  items text := (borrowing.items text).map (·.map (·.2))
  value := borrowing.value

def reader (borrowing : Borrowing) : JsonReader where
  parse := Validation.parse borrowing.serde
  rawItems input := (decode input).bind borrowing.serde.items
  rawMembers input := (decode input).bind borrowing.serde.members

end Borrowing

namespace RawValue

def members (borrowing : Borrowing) (raw : RawValue) : Option (List (String × RawValue)) :=
  (borrowing.members raw.text).map
    (·.map fun member => (member.1, ⟨raw.address + member.2.1, member.2.2⟩))

def items (borrowing : Borrowing) (raw : RawValue) : Option (List RawValue) :=
  (borrowing.items raw.text).map (·.map fun item => ⟨raw.address + item.1, item.2⟩)

end RawValue

/-- `serde_json` follows a grammar, and borrows every value from the place where it stands. -/
structure Borrowing.Documented (borrowing : Borrowing) (tree : String → Option Layout) : Prop where
  grammar : Validation.Documented borrowing.serde tree
  whole : ∀ input start text, borrowing.whole input = some (start, text) →
    ∃ before after, Blank before ∧ Blank after ∧ start = width before ∧
      input = utf8 (before ++ (text.toList ++ after))
  members : ∀ text layout found, tree text = some layout → borrowing.members text = some found →
    ∀ name offset source, found.lookup name = some (offset, source) →
      ∃ inner, layout.step (.name name) = some (offset, inner) ∧ sourceOf inner = source
  items : ∀ text layout found, tree text = some layout → borrowing.items text = some found →
    ∀ i offset source, found[i]? = some (offset, source) →
      ∃ inner, layout.step (.index i) = some (offset, inner) ∧ sourceOf inner = source

section Places

variable {borrowing : Borrowing} {tree : String → Option Layout} {root inner : Layout}
variable {base : ℕ} {path : List Key} {raw : RawValue}

/-- A raw value that stands at the end of a path. -/
structure RawAt (tree : String → Option Layout) (root : Layout) (base : ℕ) (path : List Key)
    (raw : RawValue) : Prop where
  place : ∃ offset inner, root.locate path = some (offset, inner) ∧
    raw = ⟨base + offset, sourceOf inner⟩ ∧ tree (sourceOf inner) = some inner

theorem rawAt_step {offset : ℕ} {source : String} {key : Key}
    (hdoc : borrowing.Documented tree) (h : RawAt tree root base path raw)
    (hstep : ∀ layout, tree raw.text = some layout →
      ∃ inner, layout.step key = some (offset, inner) ∧ sourceOf inner = source) :
    RawAt tree root base (path ++ [key]) ⟨raw.address + offset, source⟩ := by
  obtain ⟨start, middle, hlocate, rfl, htree⟩ := h.place
  obtain ⟨inner, hinner, rfl⟩ := hstep middle htree
  refine ⟨start + offset, inner, ?_, by rw [Nat.add_assoc], ?_⟩
  · refine Layout.locate_append.mpr ⟨start, middle, offset, hlocate, ?_, rfl⟩
    exact Layout.locate_cons.mpr ⟨offset, inner, 0, hinner, rfl, rfl⟩
  · obtain ⟨i, hi⟩ := Layout.step_place hinner
    obtain ⟨gap, -, -, hpart, -, -⟩ := Layout.places_split hi
    exact hdoc.grammar.part _ middle htree _ (List.mem_of_getElem? hpart)

/-- **A borrowed member** stands at the path of its name. -/
theorem RawAt.member (hdoc : borrowing.Documented tree) (h : RawAt tree root base path raw)
    {members : List (String × RawValue)} (hmembers : raw.members borrowing = some members)
    {name : String} {member : RawValue} (hlookup : members.lookup name = some member) :
    RawAt tree root base (path ++ [.name name]) member := by
  obtain ⟨found, hfound, rfl⟩ := Option.map_eq_some_iff.mp hmembers
  obtain ⟨offset, source, hlookup', rfl⟩ : ∃ offset source,
      found.lookup name = some (offset, source) ∧ member = ⟨raw.address + offset, source⟩ := by
    clear hmembers hfound
    induction found with
    | nil => cases hlookup
    | cons first found ih =>
        rw [List.map_cons, List.lookup_cons] at hlookup
        rw [List.lookup_cons]
        cases hname : name == first.1 with
        | true =>
            rw [hname] at hlookup
            exact ⟨first.2.1, first.2.2, rfl, (Option.some.inj hlookup).symm⟩
        | false =>
            rw [hname] at hlookup
            exact ih hlookup
  exact rawAt_step hdoc h fun layout htree =>
    hdoc.members raw.text layout found htree hfound name offset source hlookup'

/-- **A borrowed item** stands at the path of its index. -/
theorem RawAt.item (hdoc : borrowing.Documented tree) (h : RawAt tree root base path raw)
    {items : List RawValue} (hitems : raw.items borrowing = some items) {i : ℕ} {item : RawValue}
    (hitem : items[i]? = some item) : RawAt tree root base (path ++ [.index i]) item := by
  obtain ⟨found, hfound, rfl⟩ := Option.map_eq_some_iff.mp hitems
  rw [List.getElem?_map] at hitem
  obtain ⟨⟨offset, source⟩, hget, rfl⟩ := Option.map_eq_some_iff.mp hitem
  exact rawAt_step hdoc h fun layout htree =>
    hdoc.items raw.text layout found htree hfound i offset source hget

end Places

section Grammar

/-- The borrowing readers that follow a grammar in which names stand in order. -/
def Borrowing.ofTree (text : Bytes → Option String) (tree : String → Option Layout) : Borrowing where
  text := text
  whole input := (decode input).bind fun text =>
    (tree (String.ofList (Layout.trimBlanks text.toList))).map fun layout =>
      (width (text.toList.takeWhile Layout.isBlank), sourceOf layout)
  members source :=
    match tree source with
    | some (.object members _) => some ((Layout.memberPlaces members).map fun member =>
        (member.1, member.2.1, sourceOf member.2.2))
    | _ => none
  items source :=
    match tree source with
    | some (.array items _) => some ((Layout.places 0 items).map fun item =>
        (item.1, sourceOf item.2))
    | _ => none
  value source :=
    match tree source with
    | some (.leaf leaf) => Json.scalar (fun text' => text (utf8 text')) leaf
    | _ => none

theorem places_inner (start : ℕ) (items : List (List Char × Layout)) :
    (Layout.places start items).map (·.2) = items.map (·.2) := by
  induction items generalizing start with
  | nil => rfl
  | cons item items ih => rw [Layout.places, List.map_cons, List.map_cons, ih]

theorem memberPlaces_inner (members : List (String × List Char × Layout)) :
    (Layout.memberPlaces members).map (fun member => (member.1, member.2.2)) =
      members.map fun member => (member.1, member.2.2) := by
  have hzip : ∀ (names : List String) (places : List (ℕ × Layout)),
      (names.zip places).map (fun member => (member.1, member.2.2)) =
        names.zip (places.map (·.2)) := by
    intro names places
    rw [List.zip_map_right]
    rfl
  rw [Layout.memberPlaces, hzip, places_inner, List.map_map, List.zip_map']
  rfl

theorem serde_ofTree (text : Bytes → Option String) (tree : String → Option Layout) :
    (Borrowing.ofTree text tree).serde = Validation.Serde.ofTree text tree := by
  rw [Borrowing.serde, Borrowing.ofTree, Validation.Serde.ofTree]
  congr 1
  · funext input
    rw [Option.map_bind]
    refine Option.bind_congr fun text _ => ?_
    rw [Function.comp_apply, Option.map_map]
    rfl
  · funext source
    dsimp only
    cases tree source with
    | none => rfl
    | some layout =>
        cases layout with
        | leaf leaf => rfl
        | array items close => rfl
        | object members close =>
            have hinner := congrArg (List.map fun member : String × Layout =>
              (member.1, sourceOf member.2)) (memberPlaces_inner members)
            rw [List.map_map, List.map_map] at hinner
            simp only [Option.map_some, List.map_map]
            exact congrArg some hinner
  · funext source
    dsimp only
    cases tree source with
    | none => rfl
    | some layout =>
        cases layout with
        | leaf leaf => rfl
        | object members close => rfl
        | array items close =>
            have hinner := congrArg (List.map sourceOf) (places_inner 0 items)
            rw [List.map_map, List.map_map] at hinner
            simp only [Option.map_some, List.map_map]
            exact congrArg some hinner

theorem borrowing_ofTree {text : Bytes → Option String} {tree : String → Option Layout}
    (hspelled : ∀ source layout, tree source = some layout →
      Layout.Spelled (fun text' => text (utf8 text')) layout ∧ sourceOf layout = source)
    (hpart : ∀ source layout, tree source = some layout → ∀ part ∈ layout.parts,
      tree (sourceOf part.2) = some part.2)
    (hsorted : ∀ source members close, tree source = some (.object members close) →
      members.Pairwise fun a b => a.1 < b.1) :
    (Borrowing.ofTree text tree).Documented tree where
  grammar := serde_ofTree text tree ▸ Validation.documented_ofTree hspelled hpart hsorted
  whole input start source h := by
    obtain ⟨whole, hwhole, h⟩ := Option.bind_eq_some_iff.mp h
    obtain ⟨layout, htree, heq⟩ := Option.map_eq_some_iff.mp h
    obtain ⟨rfl, rfl⟩ := Prod.mk.inj heq
    obtain ⟨after, hbefore, hafter, hsplit⟩ := Layout.exists_blanks whole.toList
    obtain ⟨-, hsource⟩ := hspelled _ layout htree
    refine ⟨_, after, hbefore, hafter, rfl, ?_⟩
    rw [hsource, String.toList_ofList, ← hsplit]
    exact Validation.eq_utf8_of_decode hwhole
  members source layout found htree hfound name offset inner hlookup := by
    simp only [Borrowing.ofTree, htree] at hfound
    cases layout with
    | leaf leaf => cases hfound
    | array items close => cases hfound
    | object members close =>
        obtain rfl := Option.some.inj hfound
        obtain ⟨before, after, hlist, -⟩ := List.lookup_eq_some_iff.mp hlookup
        have hmem := hlist ▸ List.mem_append_right before List.mem_cons_self
        obtain ⟨⟨name', offset', inner'⟩, hplace, heq⟩ := List.mem_map.mp hmem
        obtain rfl : name' = name := congrArg Prod.fst heq
        obtain ⟨rfl, rfl⟩ := Prod.mk.inj (Prod.mk.inj heq).2
        refine ⟨inner', Json.lookup_reverse_of_mem ?_ hplace, rfl⟩
        rw [Json.memberPlaces_names, List.nodup_iff_pairwise_ne, List.pairwise_map]
        exact (hsorted source members close htree).imp fun hlt => ne_of_lt hlt
  items source layout found htree hfound i offset inner hitem := by
    simp only [Borrowing.ofTree, htree] at hfound
    cases layout with
    | leaf leaf => cases hfound
    | object members close => cases hfound
    | array items close =>
        obtain rfl := Option.some.inj hfound
        rw [List.getElem?_map] at hitem
        obtain ⟨⟨offset', inner'⟩, hplace, heq⟩ := Option.map_eq_some_iff.mp hitem
        obtain ⟨rfl, rfl⟩ := Prod.mk.inj heq
        exact ⟨inner', hplace, rfl⟩

end Grammar

end Standards
end Glaux
