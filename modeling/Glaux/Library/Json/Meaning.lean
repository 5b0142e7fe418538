import Glaux.Library.Json.Layout
import Glaux.Library.Json.Part

/-!
# What a JSON text means

A text cut at its values is read value by value: its leaves by their spelling, its arrays in
order, its objects as tables sorted by name.
-/

namespace Glaux
namespace Library
namespace Json

open Layout

/-- A leaf: a string read by `literal`, a name, or a number kept as it is spelled. -/
def scalar (literal : List Char → Option String) (text : List Char) : Option Json :=
  if text.head? = some '"' then (literal text).map .string
  else if text = ['n', 'u', 'l', 'l'] then some .null
  else if text = ['t', 'r', 'u', 'e'] then some (.bool true)
  else if text = ['f', 'a', 'l', 's', 'e'] then some (.bool false)
  else some (.number (String.ofList text))

/-- The document a text spells. -/
inductive Denotes (literal : List Char → Option String) : Layout → Json → Prop
  | leaf {text : List Char} {value : Json} (h : scalar literal text = some value) :
      Denotes literal (.leaf text) value
  | array {items : List (List Char × Layout)} {close : List Char} {values : List Json}
      (hlength : values.length = items.length)
      (hitems : ∀ (i : Nat) gap inner value, items[i]? = some (gap, inner) →
        values[i]? = some value → Denotes literal inner value) :
      Denotes literal (.array items close) (.array values)
  | object {members : List (String × List Char × Layout)} {close : List Char}
      {values : List (String × Json)} (hsorted : values.Pairwise fun a b => a.1 < b.1)
      (hnames : (values.map (·.1)).Perm (members.map (·.1)))
      (hvalues : ∀ name gap inner value, (name, gap, inner) ∈ members → (name, value) ∈ values →
        Denotes literal inner value) :
      Denotes literal (.object members close) (.object values)

section Names

theorem nodup_of_sorted {values : List (String × Json)}
    (h : values.Pairwise fun a b => a.1 < b.1) : (values.map (·.1)).Nodup := by
  rw [List.nodup_iff_pairwise_ne, List.pairwise_map]
  exact h.imp fun hlt => ne_of_lt hlt

/-- Two sorted tables with the same names list them alike. -/
theorem names_eq {values values' : List (String × Json)}
    (h : values.Pairwise fun a b => a.1 < b.1) (h' : values'.Pairwise fun a b => a.1 < b.1)
    (hperm : (values.map (·.1)).Perm (values'.map (·.1))) :
    values.map (·.1) = values'.map (·.1) := by
  have hsort : ∀ {values : List (String × Json)}, values.Pairwise (fun a b => a.1 < b.1) →
      (values.map (·.1)).Pairwise (· ≤ ·) := fun h =>
    List.pairwise_map.mpr (h.imp fun hlt => le_of_lt hlt)
  exact hperm.eq_of_pairwise (fun _ _ _ _ hle hge => le_antisymm hle hge) (hsort h) (hsort h')

theorem mem_of_name {values : List (String × Json)} {name : String}
    (h : name ∈ values.map (·.1)) : ∃ value, (name, value) ∈ values := by
  obtain ⟨⟨name, value⟩, hmem, rfl⟩ := List.mem_map.mp h
  exact ⟨value, hmem⟩

end Names

section Reading

variable {literal : List Char → Option String} {layout inner : Layout} {value value' : Json}
variable {path : List Key} {key : Key} {offset : Nat}

/-- **A text spells one document.** -/
theorem Denotes.unique (h : Denotes literal layout value) (h' : Denotes literal layout value') :
    value = value' := by
  induction h generalizing value' with
  | leaf h =>
      cases h' with
      | leaf h' => exact Option.some.inj (h.symm.trans h')
  | @array items close values hlength hitems ih =>
      cases h' with
      | @array _ _ values' hlength' hitems' =>
          refine congrArg Json.array (List.ext_getElem (hlength.trans hlength'.symm) ?_)
          intro i hi hi'
          have hlt : i < items.length := hlength ▸ hi
          exact ih i items[i].1 items[i].2 values[i] (List.getElem?_eq_getElem hlt)
            (List.getElem?_eq_getElem hi) (hitems' i _ _ _ (List.getElem?_eq_getElem hlt)
              (List.getElem?_eq_getElem hi'))
  | @object members close values hsorted hnames hvalues ih =>
      cases h' with
      | @object _ _ values' hsorted' hnames' hvalues' =>
          have heq := names_eq hsorted hsorted' (hnames.trans hnames'.symm)
          have hlength : values.length = values'.length := by
            simpa using congrArg List.length heq
          refine congrArg Json.object (List.ext_getElem hlength ?_)
          intro i hi hi'
          have hname : values[i].1 = values'[i].1 := by
            have hget := congrArg (·[i]?) heq
            simpa [hi, hi'] using hget
          have hmem : (values[i].1, values[i].2) ∈ values := List.getElem_mem hi
          have hmem' : (values[i].1, values'[i].2) ∈ values' := by
            rw [hname]
            exact List.getElem_mem hi'
          obtain ⟨member, hmember, hfirst⟩ := List.mem_map.mp
            (hnames.mem_iff.mp (List.mem_map_of_mem hmem))
          obtain ⟨name, gap, inner⟩ := member
          obtain rfl : name = values[i].1 := hfirst
          exact Prod.ext hname
            (ih _ gap inner _ hmember hmem (hvalues' _ gap inner _ hmember hmem'))

theorem part_of_step {token : List Char} (h : Json.step value token = some value') :
    Part value' value := by
  cases value with
  | object members =>
      obtain ⟨before, after, heq, -⟩ := List.lookup_eq_some_iff.mp h
      exact .member (heq ▸ List.mem_append_right _ List.mem_cons_self) .self
  | array items =>
      obtain ⟨index, -, hitem⟩ := Option.bind_eq_some_iff.mp h
      exact .item (List.mem_of_getElem? hitem) .self
  | null => cases h
  | bool b => cases h
  | number lexeme => cases h
  | string text => cases h

/-- What a path leads to is a part. -/
theorem part_of_follow {tokens : List String} (h : value.follow tokens = some value') :
    Part value' value := by
  induction tokens generalizing value with
  | nil =>
      obtain rfl := Option.some.inj h
      exact .self
  | cons token tokens ih =>
      rw [follow, List.foldlM_cons] at h
      obtain ⟨middle, hstep, hrest⟩ := Option.bind_eq_some_iff.mp h
      exact (ih hrest).trans (part_of_step hstep)

/-- The steps of a text are the steps of its document. -/
theorem Denotes.step (h : Denotes literal layout value)
    (hstep : layout.step key = some (offset, inner)) :
    ∃ value', Json.step value key.token.toList = some value' ∧ Denotes literal inner value' := by
  cases h with
  | leaf h => cases key <;> cases hstep
  | @array items close values hlength hitems =>
      cases key with
      | name name => cases hstep
      | index i =>
          obtain ⟨gap, -, -, hitem, -, -⟩ := places_split hstep
          have hlt : i < values.length := hlength ▸ (List.getElem?_eq_some_iff.mp hitem).1
          exact ⟨values[i], by rw [Key.token, step_index, List.getElem?_eq_getElem hlt],
            hitems i gap inner _ hitem (List.getElem?_eq_getElem hlt)⟩
  | @object members close values hsorted hnames hvalues =>
      cases key with
      | index i => cases hstep
      | name name =>
          obtain ⟨i, hname, hi⟩ := memberPlaces_lookup hstep
          obtain ⟨gap, -, -, hpart, -, -⟩ := places_split hi
          obtain ⟨⟨name', gap', inner'⟩, hmember, hname'⟩ :=
            Option.map_eq_some_iff.mp (List.getElem?_map ▸ hname)
          rw [List.getElem?_map, hmember] at hpart
          obtain ⟨rfl, rfl⟩ := Prod.mk.inj (Option.some.inj hpart)
          obtain rfl : name' = name := hname'
          have hmem := List.mem_of_getElem? hmember
          obtain ⟨value, hvalue⟩ := mem_of_name
            (hnames.mem_iff.mpr (List.mem_map_of_mem (f := (·.1)) hmem))
          exact ⟨value, by rw [Key.token, step_member, lookup_of_mem (nodup_of_sorted hsorted) hvalue],
            hvalues _ _ _ _ hmem hvalue⟩

/-- **A place in a text** holds the value at the same path in its document. -/
theorem Denotes.locate (h : Denotes literal layout value)
    (hfound : layout.locate path = some (offset, inner)) :
    ∃ value', value.follow (path.map Key.token) = some value' ∧ Denotes literal inner value' := by
  induction path generalizing layout value offset with
  | nil =>
      obtain ⟨rfl, rfl⟩ := Prod.mk.inj (Option.some.inj hfound)
      exact ⟨value, rfl, h⟩
  | cons key path ih =>
      obtain ⟨start, middle, further, hstep, hlocate, rfl⟩ := locate_cons.mp hfound
      obtain ⟨value', hstep', hmiddle⟩ := h.step hstep
      obtain ⟨value'', hfollow, hinner⟩ := ih hmiddle hlocate
      refine ⟨value'', ?_, hinner⟩
      rw [List.map_cons, follow, List.foldlM_cons, hstep']
      exact hfollow

theorem lookup_reverse_of_mem {β : Type} {members : List (String × β)} {name : String} {b : β}
    (hnodup : (members.map (·.1)).Nodup) (h : (name, b) ∈ members) :
    members.reverse.lookup name = some b := by
  obtain ⟨before, after, heq⟩ := List.append_of_mem (List.mem_reverse.mpr h)
  refine List.lookup_eq_some_iff.mpr ⟨before, after, heq, fun member hmember => ?_⟩
  have hnodup' : (members.reverse.map (·.1)).Nodup := by
    rwa [List.map_reverse, List.nodup_reverse]
  rw [heq, List.map_append, List.nodup_append'] at hnodup'
  have hne : member.1 ≠ name := by
    rintro rfl
    exact hnodup'.2.2 (List.mem_map_of_mem hmember) (by simp)
  simpa using hne.symm

theorem places_getElem? {items : List (List Char × Layout)} (start : Nat) {i : Nat}
    {gap : List Char} (h : items[i]? = some (gap, inner)) : ∃ offset, (places start items)[i]? = some (offset, inner) := by
  have hlt : i < (places start items).length := by
    rw [length_places]
    exact (List.getElem?_eq_some_iff.mp h).1
  obtain ⟨offset, found⟩ : ∃ offset, (places start items)[i]? = some offset :=
    ⟨_, List.getElem?_eq_getElem hlt⟩
  obtain ⟨offset, inner'⟩ := offset
  obtain ⟨gap', -, -, hitem, -, -⟩ := places_split found
  obtain ⟨-, rfl⟩ := Prod.mk.inj (Option.some.inj (hitem.symm.trans h))
  exact ⟨offset, found⟩

theorem memberPlaces_names (members : List (String × List Char × Layout)) :
    (memberPlaces members).map (·.1) = members.map (·.1) := by
  rw [memberPlaces]
  exact List.map_fst_zip (by rw [length_places, List.length_map, List.length_map])

/-- The step to a member whose name is the only one of its kind. -/
theorem step_of_mem {members : List (String × List Char × Layout)} (close : List Char)
    {name : String} {gap : List Char} (hnodup : (members.map (·.1)).Nodup)
    (h : (name, gap, inner) ∈ members) :
    ∃ offset, (Layout.object members close).step (.name name) = some (offset, inner) := by
  obtain ⟨i, hi⟩ := List.mem_iff_getElem?.mp h
  have hpart : (members.map (·.2))[i]? = some (gap, inner) := by rw [List.getElem?_map, hi]; rfl
  have hname : (members.map (·.1))[i]? = some name := by rw [List.getElem?_map, hi]; rfl
  obtain ⟨offset, hplace⟩ := places_getElem? 0 hpart
  refine ⟨offset, lookup_reverse_of_mem (by rwa [memberPlaces_names]) ?_⟩
  exact List.mem_of_getElem? (List.getElem?_zip_eq_some.mpr ⟨hname, hplace⟩)

theorem part_scalar {text : List Char} {part : Json} (h : scalar literal text = some value)
    (hpart : Part part value) : part = value := by
  cases hpart with
  | self => rfl
  | item hitem hinner =>
      exfalso
      rw [scalar] at h
      split at h
      · obtain ⟨_, -, h⟩ := Option.map_eq_some_iff.mp h
        cases h
      · repeat (split at h; · cases h)
        cases h
  | member hmember hinner =>
      exfalso
      rw [scalar] at h
      split at h
      · obtain ⟨_, -, h⟩ := Option.map_eq_some_iff.mp h
        cases h
      · repeat (split at h; · cases h)
        cases h

/-- **Every value of the document** has a place in the text. -/
theorem Denotes.part {part : Json} (h : Denotes literal layout value) (hpart : Part part value) :
    ∃ path offset inner, layout.locate path = some (offset, inner) ∧
      Denotes literal inner part := by
  induction h with
  | leaf h =>
      obtain rfl := part_scalar h hpart
      exact ⟨[], 0, _, rfl, .leaf h⟩
  | @array items close values hlength hitems ih =>
      obtain rfl | ⟨value, hvalue, hinner⟩ := part_array.mp hpart
      · exact ⟨[], 0, _, rfl, .array hlength hitems⟩
      · obtain ⟨i, hi⟩ := List.mem_iff_getElem?.mp hvalue
        have hlt : i < items.length := hlength ▸ (List.getElem?_eq_some_iff.mp hi).1
        have hitem : items[i]? = some (items[i].1, items[i].2) := List.getElem?_eq_getElem hlt
        obtain ⟨path, further, found, hlocate, hfound⟩ := ih i _ _ value hitem hi hinner
        obtain ⟨start, hplace⟩ := places_getElem? 0 hitem
        exact ⟨.index i :: path, start + further, found,
          locate_cons.mpr ⟨start, _, further, hplace, hlocate, rfl⟩, hfound⟩
  | @object members close values hsorted hnames hvalues ih =>
      obtain rfl | ⟨⟨name, value⟩, hvalue, hinner⟩ := part_object.mp hpart
      · exact ⟨[], 0, _, rfl, .object hsorted hnames hvalues⟩
      · obtain ⟨⟨name', gap, inner⟩, hmember, hname⟩ := List.mem_map.mp
          (hnames.mem_iff.mp (List.mem_map_of_mem (f := (·.1)) hvalue))
        obtain rfl : name' = name := hname
        obtain ⟨path, further, found, hlocate, hfound⟩ := ih _ _ _ value hmember hvalue hinner
        obtain ⟨start, hstep⟩ := step_of_mem close
          (hnames.nodup_iff.mp (nodup_of_sorted hsorted)) hmember
        exact ⟨.name name' :: path, start + further, found,
          locate_cons.mpr ⟨start, inner, further, hstep, hlocate, rfl⟩, hfound⟩

end Reading

end Json
end Library
end Glaux
