import Glaux.Standards.References.Rule

/-!
# Source ranges of a component graph (`references.rs`)

The range of a declaration or a reference comes from the address of a borrowed raw value, its
pointer from names and indices.  By the rule of indexing they stay in step.
-/

namespace Glaux
namespace Standards

open Library
open Library.Json (Key Layout width)
open Validation (Document literal sourceOf)

/-! ### Pointers -/

section Pointers

/-- The steps of a segment. -/
def Segment.keys : Segment → List Key
  | .choiceValue => [.name "choiceValue"]
  | .elementCount => [.name "elementCount"]
  | .elementType => [.name "elementType"]
  | .member name offset => [.name name, .index offset]
  | .quality offset => [.name "quality", .index offset]

def Pointer.keys (path : Pointer) : List Key := path.flatMap Segment.keys

/-- The names of a pointer are those of the source. -/
def Pointer.Known (path : Pointer) : Prop :=
  ∀ name offset, Segment.member name offset ∈ path → name ∈ childMembers

end Pointers

/-! ### Pointers and ranges stay in step -/

namespace Index

/-- Every declaration and every reference has a pointer and a range that fit. -/
structure All (P : Pointer → ByteRange → Prop) (index : Index) : Prop where
  components : ∀ node ∈ index.components, P node.path node.source
  references : ∀ reference ∈ index.references, P reference.path reference.source

theorem All.pushEdge {P : Pointer → ByteRange → Prop} {index : Index} (h : All P index)
    (node : Nat) (edge : IndexedEdge) : All P (index.pushEdge node edge) := by
  refine ⟨fun component hcomponent => ?_, h.references⟩
  rw [Index.pushEdge] at hcomponent
  obtain ⟨i, hi⟩ := List.mem_iff_getElem?.mp hcomponent
  rw [List.getElem?_modify] at hi
  obtain ⟨component', hget, rfl⟩ := Option.map_eq_some_iff.mp hi
  have hP := h.components component' (List.mem_of_getElem? hget)
  split
  · exact hP
  · exact hP

section Slices

variable {S R : Type} {readers : Readers S R} {input : SubmittedBytes}
variable {options : CountReferenceSchema} {tree : String → Option Layout} {layout : Layout}
variable {start : Nat} {value : Json} {index : Index}

/-- The pointers and ranges of declarations and references. -/
def entries (index : Index) : List (Pointer × ByteRange) :=
  index.components.map (fun node => (node.path, node.source)) ++
    index.references.map fun reference => (reference.path, reference.source)

theorem All.entry {P : Pointer → ByteRange → Prop} (h : All P index)
    {entry : Pointer × ByteRange} (hentry : entry ∈ index.entries) : P entry.1 entry.2 := by
  obtain hentry | hentry := List.mem_append.mp hentry
  · obtain ⟨node, hnode, rfl⟩ := List.mem_map.mp hentry
    exact h.components node hnode
  · obtain ⟨reference, hreference, rfl⟩ := List.mem_map.mp hentry
    exact h.references reference hreference

end Slices

/-! #### Two members with one text -/

section Sample

def quoted (text : String) : List Char := '"' :: (text.toList ++ ['"'])

def sampleCount : Layout :=
  .object [("type", Layout.openBrace :: (quoted "type" ++ [':']), .leaf (quoted "Count"))]
    [Layout.closeBrace]

def sampleFields : Layout := .array [(['['], sampleCount), ([',', ' '], sampleCount)] [']']

def sampleRecord : Layout :=
  .object [("fields", Layout.openBrace :: (quoted "fields" ++ [':']), sampleFields),
    ("type", ',' :: (quoted "type" ++ [':']), .leaf (quoted "DataRecord"))] [Layout.closeBrace]

def sampleLayouts : List Layout :=
  [sampleRecord, sampleFields, sampleCount, .leaf (quoted "Count"), .leaf (quoted "DataRecord")]

def sampleTree (source : String) : Option Layout :=
  sampleLayouts.find? fun layout => sourceOf layout = source

def sampleText (bytes : Bytes) : Option String :=
  ["fields", "type", "Count", "DataRecord"].find? fun text => utf8 (quoted text) = bytes

def sampleReaders : Readers Unit Unit where
  borrowing := .ofTree sampleText sampleTree
  compilers := ⟨fun _ => none, fun _ => false, fun _ => false, fun _ => none, fun _ => none⟩
  structured _ _ _ := .ok .original

def sampleBytes : SubmittedBytes := ⟨4096, utf8 (' ' :: (sampleRecord.render ++ ['\n']))⟩

def sampleNames : List String := ["fields", "type", "Count", "DataRecord"]

theorem body_of_plain {text : List Char} (h : text.all (fun c => c ≠ '"' && c ≠ '\\') = true) :
    Layout.StringBody text := by
  induction text with
  | nil => exact .nil
  | cons c text ih =>
      rw [List.all_cons, Bool.and_eq_true] at h
      simp only [Bool.and_eq_true, decide_eq_true_eq] at h
      exact .char h.1.1 h.1.2 (ih (by simpa using h.2))

theorem quoted_name (text : String) (h : text ∈ sampleNames) :
    Layout.Quoted (quoted text) ∧ sampleText (utf8 (quoted text)) = some text := by
  have hall : ∀ text ∈ sampleNames,
      text.toList.all (fun c => c ≠ '"' && c ≠ '\\') = true ∧
        sampleText (utf8 (quoted text)) = some text := by
    simp only [sampleNames, List.forall_mem_cons]
    decide
  obtain ⟨hplain, hread⟩ := hall text h
  exact ⟨⟨text.toList, body_of_plain hplain, rfl⟩, hread⟩

theorem blank_nil : Layout.Blank [] := fun _ hc => absurd hc List.not_mem_nil

theorem blank_space : Layout.Blank [' '] := fun _ hc => List.mem_singleton.mp hc ▸ rfl

theorem leaf_spelled {text : String} (h : text ∈ sampleNames) :
    Layout.Spelled (fun text' => sampleText (utf8 text')) (.leaf (quoted text)) :=
  .leaf (.inr (quoted_name _ h).1)

theorem sampleCount_spelled : Layout.Spelled (fun text => sampleText (utf8 text)) sampleCount := by
  refine .object (fun i name gap inner hmember => ?_) (fun member hmember => ?_)
    ⟨[], blank_nil, rfl⟩
  · rcases i with _ | i
    · obtain ⟨rfl, hpart⟩ := Prod.mk.inj (Option.some.inj hmember)
      obtain ⟨rfl, rfl⟩ := Prod.mk.inj hpart
      obtain ⟨hquoted, hread⟩ := quoted_name "type" (by decide)
      exact ⟨[Layout.openBrace], quoted "type", [], [], ⟨[], [], blank_nil, blank_nil, rfl⟩,
        hquoted, hread, blank_nil, blank_nil, rfl⟩
    · cases hmember
  · obtain rfl := List.mem_singleton.mp hmember
    exact leaf_spelled (by decide)

theorem sampleFields_spelled : Layout.Spelled (fun text => sampleText (utf8 text)) sampleFields := by
  refine .array (fun i gap inner hitem => ?_) (fun item hitem => ?_) ⟨[], blank_nil, rfl⟩
  · rcases i with _ | _ | i
    · obtain ⟨rfl, rfl⟩ := Prod.mk.inj (Option.some.inj hitem)
      exact ⟨[], [], blank_nil, blank_nil, rfl⟩
    · obtain ⟨rfl, rfl⟩ := Prod.mk.inj (Option.some.inj hitem)
      exact ⟨[], [' '], blank_nil, blank_space, rfl⟩
    · cases hitem
  · obtain rfl | hitem := List.mem_cons.mp hitem
    · exact sampleCount_spelled
    · obtain rfl := List.mem_singleton.mp hitem
      exact sampleCount_spelled

theorem sampleRecord_spelled : Layout.Spelled (fun text => sampleText (utf8 text)) sampleRecord := by
  refine .object (fun i name gap inner hmember => ?_) (fun member hmember => ?_)
    ⟨[], blank_nil, rfl⟩
  · rcases i with _ | _ | i
    · obtain ⟨rfl, hpart⟩ := Prod.mk.inj (Option.some.inj hmember)
      obtain ⟨rfl, rfl⟩ := Prod.mk.inj hpart
      obtain ⟨hquoted, hread⟩ := quoted_name "fields" (by decide)
      exact ⟨[Layout.openBrace], quoted "fields", [], [], ⟨[], [], blank_nil, blank_nil, rfl⟩,
        hquoted, hread, blank_nil, blank_nil, rfl⟩
    · obtain ⟨rfl, hpart⟩ := Prod.mk.inj (Option.some.inj hmember)
      obtain ⟨rfl, rfl⟩ := Prod.mk.inj hpart
      obtain ⟨hquoted, hread⟩ := quoted_name "type" (by decide)
      exact ⟨[','], quoted "type", [], [], ⟨[], [], blank_nil, blank_nil, rfl⟩,
        hquoted, hread, blank_nil, blank_nil, rfl⟩
    · cases hmember
  · obtain rfl | hmember := List.mem_cons.mp hmember
    · exact sampleFields_spelled
    · obtain rfl := List.mem_singleton.mp hmember
      exact leaf_spelled (by decide)

theorem find?_of_nodup {α β : Type} [DecidableEq β] {f : α → β} {a : α} {l : List α}
    (hnodup : (l.map f).Nodup) (h : a ∈ l) : l.find? (fun b => decide (f b = f a)) = some a := by
  induction l with
  | nil => cases h
  | cons b l ih =>
      rw [List.map_cons, List.nodup_cons] at hnodup
      obtain rfl | h := List.mem_cons.mp h
      · rw [List.find?_cons_of_pos (by simp)]
      · have hne : f b ≠ f a := by
          intro heq
          exact hnodup.1 (heq ▸ List.mem_map_of_mem h)
        rw [List.find?_cons_of_neg (by simpa using hne), ih hnodup.2 h]

theorem sampleTree_source {layout : Layout} (h : layout ∈ sampleLayouts) :
    sampleTree (sourceOf layout) = some layout :=
  find?_of_nodup (by decide) h

theorem sampleReaders_documented : sampleReaders.borrowing.Documented sampleTree := by
  have hcases : ∀ source layout, sampleTree source = some layout →
      layout ∈ sampleLayouts ∧ sourceOf layout = source := by
    intro source layout h
    have hsource := List.find?_some h
    exact ⟨List.mem_of_find?_eq_some h, of_decide_eq_true hsource⟩
  refine borrowing_ofTree (fun source layout htree => ?_) (fun source layout htree part hpart => ?_)
    fun source members close htree => ?_
  · obtain ⟨hlayout, hsource⟩ := hcases source layout htree
    refine ⟨?_, hsource⟩
    simp only [sampleLayouts, List.mem_cons, List.not_mem_nil, or_false] at hlayout
    obtain rfl | rfl | rfl | rfl | rfl := hlayout
    · exact sampleRecord_spelled
    · exact sampleFields_spelled
    · exact sampleCount_spelled
    · exact leaf_spelled (by decide)
    · exact leaf_spelled (by decide)
  · refine sampleTree_source ?_
    obtain ⟨hlayout, -⟩ := hcases source layout htree
    simp only [sampleLayouts, List.mem_cons, List.not_mem_nil, or_false] at hlayout
    obtain rfl | rfl | rfl | rfl | rfl := hlayout
    · simp only [sampleRecord, Layout.parts, List.map_cons, List.map_nil, List.mem_cons,
        List.not_mem_nil, or_false] at hpart
      obtain rfl | rfl := hpart <;> simp [sampleLayouts]
    · simp only [sampleFields, Layout.parts, List.mem_cons, List.not_mem_nil, or_false] at hpart
      obtain rfl | rfl := hpart <;> simp [sampleLayouts]
    · simp only [sampleCount, Layout.parts, List.map_cons, List.map_nil, List.mem_cons,
        List.not_mem_nil, or_false] at hpart
      obtain rfl := hpart
      simp [sampleLayouts]
    · cases hpart
    · cases hpart
  · obtain ⟨hlayout, -⟩ := hcases source _ htree
    simp only [sampleLayouts, List.mem_cons, List.not_mem_nil, or_false] at hlayout
    obtain h | h | h | h | h := hlayout
    · obtain ⟨rfl, rfl⟩ := Layout.object.inj h
      exact List.pairwise_pair.mpr (by decide)
    · cases h
    · obtain ⟨rfl, rfl⟩ := Layout.object.inj h
      exact List.pairwise_singleton _ _
    · cases h
    · cases h

def sampleField : Json := .object [("type", .string "Count")]

def sampleValue : Json :=
  .object [("fields", .array [sampleField, sampleField]), ("type", .string "DataRecord")]

theorem text_checked (text : String) : Validation.Checked (.string text) :=
  Validation.checked_leaf (by intro _ h; cases h) (by intro _ h; cases h) (by intro _ h; cases h)

theorem sampleField_checked : Validation.Checked sampleField :=
  Validation.checked_object.mpr
    ⟨by decide, fun value hvalue => List.mem_singleton.mp hvalue ▸ text_checked _⟩

theorem sampleValue_checked : Validation.Checked sampleValue := by
  have hfields : Validation.Checked (.array [sampleField, sampleField]) :=
    Validation.checked_array.mpr ⟨by decide, by simp [sampleField_checked]⟩
  exact Validation.checked_object.mpr ⟨by decide, by simp [hfields, text_checked]⟩

theorem leaf_denotes {text : String} (h : text ∈ sampleNames) :
    Json.Denotes (fun text' => sampleText (utf8 text')) (.leaf (quoted text)) (.string text) := by
  refine .leaf ?_
  have hhead : (quoted text).head? = some '"' := rfl
  rw [Json.scalar, if_pos hhead, (quoted_name _ h).2]
  rfl

theorem sampleField_denotes :
    Json.Denotes (fun text => sampleText (utf8 text)) sampleCount sampleField := by
  refine .object (List.pairwise_singleton _ _) (List.Perm.refl _)
    fun name gap inner value hmember hvalue => ?_
  obtain ⟨-, hinner⟩ := Prod.mk.inj (List.mem_singleton.mp hmember)
  obtain ⟨-, rfl⟩ := Prod.mk.inj hinner
  obtain ⟨-, rfl⟩ := Prod.mk.inj (List.mem_singleton.mp hvalue)
  exact leaf_denotes (by decide)

theorem sampleFields_denotes : Json.Denotes (fun text => sampleText (utf8 text)) sampleFields
    (.array [sampleField, sampleField]) := by
  refine .array rfl fun i gap inner value hitem hvalue => ?_
  rcases i with _ | _ | i
  · obtain ⟨-, rfl⟩ := Prod.mk.inj (Option.some.inj hitem)
    exact Option.some.inj hvalue ▸ sampleField_denotes
  · obtain ⟨-, rfl⟩ := Prod.mk.inj (Option.some.inj hitem)
    exact Option.some.inj hvalue ▸ sampleField_denotes
  · cases hitem

theorem sampleValue_denotes :
    Json.Denotes (fun text => sampleText (utf8 text)) sampleRecord sampleValue := by
  refine .object (List.pairwise_pair.mpr (by decide)) (List.Perm.refl _)
    fun name gap inner value hmember hvalue => ?_
  obtain hmember | hmember := List.mem_cons.mp hmember
  · obtain ⟨rfl, hinner⟩ := Prod.mk.inj hmember
    obtain ⟨-, rfl⟩ := Prod.mk.inj hinner
    obtain hvalue | hvalue := List.mem_cons.mp hvalue
    · exact (Prod.mk.inj hvalue).2 ▸ sampleFields_denotes
    · exact absurd (Prod.mk.inj (List.mem_singleton.mp hvalue)).1 (by decide)
  · obtain ⟨rfl, hinner⟩ := Prod.mk.inj (List.mem_singleton.mp hmember)
    obtain ⟨-, rfl⟩ := Prod.mk.inj hinner
    obtain hvalue | hvalue := List.mem_cons.mp hvalue
    · exact absurd (Prod.mk.inj hvalue).1 (by decide)
    · exact (Prod.mk.inj (List.mem_singleton.mp hvalue)).2 ▸ leaf_denotes (by decide)

theorem sampleCount_bounded (depth : Nat) (h : depth < maxDepth) :
    Validation.Bounded (fun text => sampleText (utf8 text)) depth sampleCount := by
  refine Validation.bounded_object.mpr ⟨h, by decide, by decide, by decide, fun member hmember => ?_⟩
  obtain rfl := List.mem_singleton.mp hmember
  exact .text (quoted_name "Count" (by decide)).2 (by decide)

theorem sampleRecord_bounded :
    Validation.Bounded (fun text => sampleText (utf8 text)) 0 sampleRecord := by
  refine Validation.bounded_object.mpr
    ⟨by decide, by decide, by decide, by decide, fun member hmember => ?_⟩
  obtain rfl | hmember := List.mem_cons.mp hmember
  · refine Validation.bounded_array.mpr ⟨by decide, fun item hitem => ?_⟩
    obtain rfl | hitem := List.mem_cons.mp hitem
    · exact sampleCount_bounded _ (by decide)
    · obtain rfl := List.mem_singleton.mp hitem
      exact sampleCount_bounded _ (by decide)
  · obtain rfl := List.mem_singleton.mp hmember
    exact .text (quoted_name "DataRecord" (by decide)).2 (by decide)

theorem sampleDocument : Document sampleReaders.borrowing.serde sampleTree sampleBytes.bytes
    sampleRecord sampleValue where
  spaced := ⟨[' '], ['\n'], blank_space, fun _ hc => List.mem_singleton.mp hc ▸ rfl, rfl⟩
  grammar := sampleTree_source List.mem_cons_self
  size := by decide
  bounded := sampleRecord_bounded
  denotes := sampleValue_denotes
  checked := sampleValue_checked
  nodes := by decide

/-- The index of the record: itself and its two fields. -/
def sampleIndex : Index where
  components := [⟨none, none, .dataRecord, [], ⟨1, 68⟩, false,
      [⟨.component 1, .component⟩, ⟨.component 2, .component⟩]⟩,
    ⟨none, none, .count, [.member "fields" 0], ⟨12, 28⟩, false, []⟩,
    ⟨none, none, .count, [.member "fields" 1], ⟨30, 46⟩, false, []⟩]
  references := []
  ids := []

theorem sample_whole : sampleReaders.borrowing.whole sampleBytes.bytes =
    some (1, sourceOf sampleRecord) := by
  have hdecode := Validation.decode_utf8 (String.ofList (' ' :: (sampleRecord.render ++ ['\n'])))
  have hafter : Layout.Blank ['\n'] := fun _ hc => List.mem_singleton.mp hc ▸ rfl
  have htrim := Layout.trimBlanks_between blank_space sampleRecord_spelled.tight hafter
  rw [String.toList_ofList] at hdecode
  have hwhole : sampleReaders.borrowing.whole sampleBytes.bytes =
      (decode sampleBytes.bytes).bind fun text =>
        (sampleTree (String.ofList (Layout.trimBlanks text.toList))).map fun layout =>
          (width (text.toList.takeWhile Layout.isBlank), sourceOf layout) := rfl
  rw [hwhole, sampleBytes, hdecode, Option.bind_some, String.toList_ofList]
  have htree : sampleTree (String.ofList
      (Layout.trimBlanks (' ' :: (sampleRecord.render ++ ['\n'])))) = some sampleRecord := by
    rw [← List.singleton_append, htrim]
    exact sampleTree_source List.mem_cons_self
  rw [htree]
  rfl

theorem sample_build :
    build sampleReaders sampleBytes .original = .ok (sampleValue, sampleIndex) := by
  have hparse := (Validation.parse_eq_ok sampleReaders_documented.grammar).mpr ⟨_, sampleDocument⟩
  have hcomponent : component sampleReaders sampleBytes .original (maxComponents + 1) sampleValue
      ⟨4096 + 1, sourceOf sampleRecord⟩ [] .dataRecord empty = .ok (0, sampleIndex) := rfl
  refine bind_eq_ok.mpr ⟨sampleValue, mapError_eq_ok.mpr hparse, ?_⟩
  refine bind_eq_ok.mpr ⟨.dataRecord, rfl, bind_eq_ok.mpr ⟨.original, rfl, ?_⟩⟩
  refine bind_eq_ok.mpr ⟨(1, sourceOf sampleRecord), okOr_eq_ok.mpr sample_whole, ?_⟩
  exact bind_eq_ok.mpr ⟨(0, sampleIndex), hcomponent, rfl⟩

end Sample

end Index

end Standards
end Glaux
