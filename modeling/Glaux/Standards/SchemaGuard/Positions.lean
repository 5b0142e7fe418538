import Glaux.Library.Json.Equality
import Glaux.Library.Json.Generic
import Glaux.Library.Json.Pointer
import Glaux.Library.Registry
import Mathlib.Logic.Relation

/-!
# Schema positions and their pointers (`schema_guard.rs`)

The guard walks through every schema position of a catalog.  A position is recorded under
its document and the JSON Pointer the walk has built, a resource under its URI, an anchor
under its resource and name.  A reference is looked up later: the fragment of its URI is
appended to the pointer of the resource it names.

The URI library is a parameter.
-/

namespace Glaux
namespace Standards
namespace SchemaGuard

open Library Json

/-- The library behind `jsonschema::Uri`.  A fragment is percent-encoded text; `decode` gives
its characters, when its bytes are UTF-8. -/
structure UriLibrary where
  Uri : Type
  parse : String → Option Uri
  asStr : Uri → String
  fragment : Uri → Option (List Char)
  /-- `set_fragment(None)` -/
  unsetFragment : Uri → Uri
  decode : List Char → Option (List Char)
  resolveAgainst : Uri → String → Option Uri

structure Limits where
  nodes : Nat
  depth : Nat
  sameInstanceDepth : Nat

structure Node where
  document : String
  pointer : List Char
  value : Json
  edges : List Nat

/-- Where a node is recorded, and its value. -/
def Node.place (node : Node) : String × List Char × Json :=
  (node.document, node.pointer, node.value)

structure Reference where
  source : Nat
  target : String
  applies : Bool

/-- The three maps are the source's `BTreeMap`s. -/
structure Guard where
  nodes : List Node
  positions : String × List Char → Option Nat
  resources : String → Option Nat
  anchors : String × String → Option Nat
  references : List Reference

namespace Guard

def empty : Guard := ⟨[], fun _ => none, fun _ => none, fun _ => none, []⟩

def valueAt (guard : Guard) (node : Nat) : Option Json := (guard.nodes[node]?).map (·.value)

/-- A new node, at its position. -/
def push (guard : Guard) (document : String) (pointer : List Char) (value : Json) : Guard :=
  { guard with
    nodes := guard.nodes ++ [⟨document, pointer, value, []⟩]
    positions := Function.update guard.positions (document, pointer) (some guard.nodes.length) }

/-- `self.nodes[node].edges.push(child)` -/
def addEdge (guard : Guard) (node child : Nat) : Guard :=
  { guard with
    nodes := guard.nodes.modify node fun node => { node with edges := node.edges ++ [child] } }

end Guard

section Pointers

def pointerChild (parent : List Char) (name : String) : List Char :=
  parent ++ '/' :: escape name.toList

def validPointerPart : List Char → Bool
  | [] => true
  | c :: rest =>
      if c = '~' then
        match rest with
        | d :: rest => (d = '0' || d = '1') && validPointerPart rest
        | [] => false
      else validPointerPart rest

/-- `valid_anchor` -/
def validAnchor (name : String) : Bool :=
  match name.toList with
  | [] => false
  | first :: rest =>
      (first.isAlpha || first = '_') &&
        rest.all fun c => c.isAlphanum || c = '_' || c = '-' || c = '.'

end Pointers

section Slots

/-- A schema in a keyword of another one: its path from there and whether it applies to the
same instance. -/
structure Child where
  path : List String
  value : Json
  edge : Bool

def mapKeywords : List String :=
  ["$defs", "definitions", "properties", "patternProperties", "dependentSchemas",
    "dependencies"]

def arrayKeywords : List String := ["allOf", "anyOf", "oneOf", "prefixItems"]

def schemaKeywords : List String :=
  ["not", "if", "then", "else", "items", "additionalItems", "contains",
    "additionalProperties", "unevaluatedItems", "unevaluatedProperties", "propertyNames",
    "contentSchema"]

/-- What the loops come to under a keyword, in order: the child schemas, or the error of a
value of the wrong kind. -/
abbrev Slots := List (Except String Child)

def mapSlots (keyword : String) : Json → Slots
  | .object children =>
      (children.filter fun child => !(keyword = "dependencies" && child.2.asArray?.isSome)).map
        fun child => .ok ⟨[keyword, child.1], child.2,
          keyword = "dependentSchemas" || keyword = "dependencies"⟩
  | _ => [.error "schema map keyword is not an object"]

/-- The children in an array, by their indices. -/
def indexedSlots (keyword : String) (edge : Bool) (children : List Json) : Slots :=
  children.mapIdx fun index child => .ok ⟨[keyword, toString index], child, edge⟩

def arraySlots (keyword : String) : Json → Slots
  | .array children => indexedSlots keyword (keyword ≠ "prefixItems") children
  | _ => [.error "schema array keyword is not an array"]

def schemaSlots (keyword : String) (child : Json) : Slots :=
  let schema : Slots := [.ok ⟨[keyword], child,
    keyword = "not" || keyword = "if" || keyword = "then" || keyword = "else"⟩]
  match child with
  | .array children => if keyword = "items" then indexedSlots keyword false children else schema
  | _ => schema

/-- The keywords in the order of the loops. -/
def keywords : List (String × (String → Json → Slots)) :=
  mapKeywords.map (·, mapSlots) ++ arrayKeywords.map (·, arraySlots) ++
    schemaKeywords.map (·, schemaSlots)

def slots (value : Json) : Slots :=
  keywords.flatMap fun keyword => ((value.get? keyword.1).map (keyword.2 keyword.1)).getD []

/-- The schemas directly inside a schema. -/
def subschemas (value : Json) : List Child := (slots value).filterMap Except.toOption

end Slots

section Code

variable (lib : UriLibrary)

def resolve (base reference : String) : Except String String := do
  let base ← okOr (lib.parse base) "invalid schema base URI"
  let uri ← okOr (lib.resolveAgainst base reference) "invalid schema reference URI"
  .ok (lib.asStr uri)

/-- The base URI at a position, from the one of the schema around it. -/
def rebase (value : Json) (inherited : String) : Except String String :=
  match value.get? "$id" with
  | none => .ok inherited
  | some id => do
      let id ← okOr id.asString? "schema identifier is not a string"
      let base ← resolve lib inherited id
      let uri ← okOr (lib.parse base) "invalid schema identifier"
      if (lib.fragment uri).any (· ≠ []) then
        .error "nonempty schema identifier fragment is unsupported"
      else .ok (lib.asStr (lib.unsetFragment uri))

/-- The URIs a position is registered as a resource under. -/
def resourceNames (document : String) (pointer : List Char) (value : Json) (base : String) :
    List String :=
  (if pointer = [] then [document] else []) ++
    if (value.get? "$id").isSome then [base] else []

def Guard.registerResource (guard : Guard) (node : Nat) (resources : String → Option Nat)
    (uri : String) : Except String (String → Option Nat) :=
  claim guard.valueAt "conflicting schema resource identity" resources uri node

def anchorKeywords : List String := ["$anchor", "$dynamicAnchor"]

def Guard.registerAnchor (guard : Guard) (value : Json) (base : String) (node : Nat)
    (anchors : String × String → Option Nat) (keyword : String) :
    Except String (String × String → Option Nat) :=
  match value.get? keyword with
  | none => .ok anchors
  | some anchor => do
      let name ← okOr (anchor.asString?.filter validAnchor) "invalid schema anchor"
      claim guard.valueAt "conflicting schema anchor" anchors (base, name) node

def referenceKeywords : List String := ["$ref", "$dynamicRef", "$recursiveRef", "$schema"]

def readReference (value : Json) (base : String) (node : Nat) (references : List Reference)
    (keyword : String) : Except String (List Reference) :=
  match value.get? keyword with
  | none => .ok references
  | some reference => do
      let reference ← okOr reference.asString? "schema reference is not a string"
      let target ← resolve lib base reference
      -- A dialect declaration does not apply the schema it names.
      .ok (references ++ [⟨node, target, keyword ≠ "$schema"⟩])

/-- `visit` up to the loops over the child schemas: the new node is recorded, with its
names and references.  A boolean has none of the keywords. -/
def enter (limits : Limits) (document : String) (pointer : List Char) (value : Json)
    (inherited : String) (guard : Guard) : Except String (Guard × String) :=
  if limits.nodes ≤ guard.nodes.length then .error "schema node limit exceeded"
  else if value.asObject?.isNone && value.asBool?.isNone then
    .error "schema position is neither an object nor a boolean"
  else do
    let base ← rebase lib value inherited
    let node := guard.nodes.length
    let guard := guard.push document pointer value
    let resources ←
      (resourceNames document pointer value base).foldlM (guard.registerResource node)
        guard.resources
    let anchors ← anchorKeywords.foldlM (guard.registerAnchor value base node) guard.anchors
    let references ←
      referenceKeywords.foldlM (readReference lib value base node) guard.references
    .ok ({ guard with resources, anchors, references }, base)

/-- `visit` at one document, below the depth that is left. -/
abbrev Visit := List Char → Json → String → Guard → Except String (Guard × Nat)

/-- One child schema. -/
def visitSlot (inner : Visit) (pointer : List Char) (base : String) (node : Nat)
    (guard : Guard) (slot : Except String Child) : Except String Guard := do
  let child ← slot
  let (guard, index) ← inner (child.path.foldl pointerChild pointer) child.value base guard
  .ok (if child.edge then guard.addEdge node index else guard)

/-- `remaining` is what is left of the depth limit. -/
def visit (limits : Limits) (document : String) : (remaining : Nat) → Visit
  | 0 => fun _ _ _ _ => .error "schema nesting depth limit exceeded"
  | remaining + 1 => fun pointer value inherited guard => do
      let node := guard.nodes.length
      let (guard, base) ← enter lib limits document pointer value inherited guard
      let guard ←
        (slots value).foldlM (visitSlot (visit limits document remaining) pointer base node) guard
      .ok (guard, node)

/-- The first loop of `check_with_limits`. -/
def index (limits : Limits) (catalog : List (String × Json)) : Except String Guard :=
  catalog.foldlM (fun guard entry => do
    let uri ← okOr (lib.parse entry.1) "invalid catalog resource URI"
    if (lib.fragment uri).isSome then .error "catalog resource URI contains a fragment"
    else do
      let (guard, _) ← visit lib limits entry.1 limits.depth [] entry.2 entry.1 guard
      .ok guard) Guard.empty

/-- The fragment of a target, decoded. -/
def targetFragment (uri : lib.Uri) : Option (List Char) :=
  match lib.fragment uri with
  | some fragment => lib.decode fragment
  | none => some []

/-- The parts a pointer is split into. -/
def pointerParts (fragment : List Char) : List (List Char) := (fragment.splitOn '/').drop 1

def resourceOf (uri : lib.Uri) : String := lib.asStr (lib.unsetFragment uri)

def Guard.target (guard : Guard) (target : String) : Except String Nat := do
  let uri ← okOr (lib.parse target) "invalid resolved schema URI"
  let fragment ← okOr (targetFragment lib uri) "schema fragment is not UTF-8"
  let resource := resourceOf lib uri
  let root ← okOr (guard.resources resource) "schema reference is outside the embedded catalog"
  if fragment = [] then .ok root
  else if fragment.head? ≠ some '/' then
    okOr (guard.anchors (resource, String.ofList fragment)) "schema anchor target is missing"
  else if (pointerParts fragment).any (fun part => !validPointerPart part) then
    .error "invalid schema JSON Pointer escape"
  else do
    let root ← okOr guard.nodes[root]? "index out of bounds"
    let _ ← okOr (pointer root.value fragment) "schema JSON Pointer target is missing"
    okOr (guard.positions (root.document, root.pointer ++ fragment))
      "reference target is not an indexed schema position"

end Code

/-! ### Schema positions -/

section Positions

variable (lib : UriLibrary)

/-- A schema position, with the base URI of the schema around it. -/
structure Entry where
  document : String
  tokens : List String
  value : Json
  inherited : String

/-- What a position is recorded under. -/
def Entry.key (e : Entry) : String × List Char := (e.document, pointerText e.tokens)

def Entry.place (e : Entry) : String × List Char × Json :=
  (e.document, pointerText e.tokens, e.value)

def Entry.child (e : Entry) (base : String) (child : Child) : Entry :=
  ⟨e.document, e.tokens ++ child.path, child.value, base⟩

def Holds (outer inner : Entry) : Prop :=
  ∃ base, rebase lib outer.value outer.inherited = .ok base ∧
    ∃ child ∈ subschemas outer.value, inner = outer.child base child

def Below : Entry → Entry → Prop := Relation.ReflTransGen (Holds lib)

/-- The positions that nested schemas lead to from the roots of the documents. -/
def Position (catalog : List (String × Json)) (e : Entry) : Prop :=
  ∃ root ∈ catalog, Below lib ⟨root.1, [], root.2, root.1⟩ e

/-- The position is a root of the resource. -/
def Names (uri : String) (e : Entry) : Prop :=
  (e.tokens = [] ∧ uri = e.document) ∨
    ((e.value.get? "$id").isSome ∧ rebase lib e.value e.inherited = .ok uri)

/-- The position has the anchor, in the resource. -/
def Anchored (anchor : String × String) (e : Entry) : Prop :=
  rebase lib e.value e.inherited = .ok anchor.1 ∧
    ∃ keyword ∈ anchorKeywords, e.value.get? keyword = some (.string anchor.2)

end Positions

/-! ### Subschemas -/

section Subschemas

variable {value : Json} {child : Child}

/-- The text of a path below a pointer. -/
theorem foldl_pointerChild (tokens path : List String) :
    path.foldl pointerChild (pointerText tokens) = pointerText (tokens ++ path) := by
  induction path generalizing tokens with
  | nil => rw [List.foldl_nil, List.append_nil]
  | cons name path ih =>
      have hname : pointerChild (pointerText tokens) name = pointerText (tokens ++ [name]) := by
        simp [pointerChild, pointerText]
      rw [List.foldl_cons, hname, ih, List.append_assoc]
      rfl

/-- Neither path leads through the other. -/
def Apart (a b : Child) : Prop := ¬ a.path <+: b.path ∧ ¬ b.path <+: a.path

/-- What the slots of a keyword have in common: every child lies under the keyword, at its
path, and the paths of two of them part. -/
structure Slotted (read : String → Json → Slots) : Prop where
  under : ∀ {keyword value child}, value.distinct = true → .ok child ∈ read keyword value →
    ∃ path, child.path = keyword :: path ∧ follow value path = some child.value ∧
      child.value.distinct = true
  apart : ∀ {keyword value}, value.distinct = true →
    ((read keyword value).filterMap Except.toOption).Pairwise Apart

theorem not_prefix_of_ne {keyword a b : String} (h : a ≠ b) :
    ¬ [keyword, a] <+: [keyword, b] := by
  intro hprefix
  have heq := hprefix.eq_of_length rfl
  exact h (List.cons.inj (List.cons.inj heq).2).1

theorem apart_of_ne {keyword a b : String} {value value' : Json} {edge edge' : Bool}
    (h : a ≠ b) : Apart ⟨[keyword, a], value, edge⟩ ⟨[keyword, b], value', edge'⟩ :=
  ⟨not_prefix_of_ne h, not_prefix_of_ne (Ne.symm h)⟩

theorem mem_children {members : List (String × Json)} {name : String} {value : Json}
    (hdistinct : (Json.object members).distinct = true) (h : (name, value) ∈ members) :
    members.lookup name = some value ∧ value.distinct = true := by
  rw [distinct, Bool.and_eq_true, decide_eq_true_iff, distinctMembers_iff] at hdistinct
  exact ⟨lookup_of_mem hdistinct.1 h, hdistinct.2 _ h⟩

theorem slotted_map : Slotted mapSlots where
  under {keyword value child} hdistinct hchild := by
    cases value with
    | object members =>
        obtain ⟨⟨name, value⟩, hmember, heq⟩ := List.mem_map.mp hchild
        obtain rfl := Except.ok.inj heq
        obtain ⟨hlookup, hvalue⟩ := mem_children hdistinct (List.mem_of_mem_filter hmember)
        refine ⟨[name], rfl, ?_, hvalue⟩
        show (step (.object members) name.toList).bind some = some value
        rw [step_member, hlookup]
        rfl
    | _ =>
        have herror := List.mem_singleton.mp hchild
        cases herror
  apart {keyword value} hdistinct := by
    cases value with
    | object members =>
        rw [distinct, Bool.and_eq_true, decide_eq_true_iff] at hdistinct
        have hnames := (List.pairwise_map.mp hdistinct.1).filter
          fun child => !(keyword = "dependencies" && child.2.asArray?.isSome)
        simp only [mapSlots, List.filterMap_map]
        exact List.Pairwise.filterMap _ (fun a b hne x hx y hy => by
          obtain rfl := Option.some.inj hx
          obtain rfl := Option.some.inj hy
          exact apart_of_ne hne) hnames
    | _ => exact List.Pairwise.nil

theorem slotted_indexed {keyword : String} {edge : Bool} {children : List Json}
    (hdistinct : (Json.array children).distinct = true) :
    (∀ child, .ok child ∈ indexedSlots keyword edge children →
      ∃ path, child.path = keyword :: path ∧ follow (.array children) path = some child.value ∧
        child.value.distinct = true) ∧
      ((indexedSlots keyword edge children).filterMap Except.toOption).Pairwise Apart := by
  rw [distinct, distinctItems_iff] at hdistinct
  constructor
  · intro child hchild
    obtain ⟨i, hi, heq⟩ := List.mem_mapIdx.mp hchild
    obtain rfl := Except.ok.inj heq
    refine ⟨[toString i], rfl, ?_, hdistinct _ (List.getElem_mem hi)⟩
    show (step (.array children) (toString i).toList).bind some = some children[i]
    rw [step_index, List.getElem?_eq_getElem hi]
    rfl
  · rw [indexedSlots, List.mapIdx_eq_zipIdx_map, List.filterMap_map]
    refine List.Pairwise.filterMap (R := fun a b => a.2 < b.2) _ ?_ ?_
    · intro a b hlt x hx y hy
      obtain rfl := Option.some.inj hx
      obtain rfl := Option.some.inj hy
      refine apart_of_ne fun heq => Nat.ne_of_lt hlt ?_
      have hindex := congrArg (fun name : String => parseIndex name.toList) heq
      simpa only [parseIndex_toString, Option.some.injEq] using hindex
    · refine List.pairwise_map.mp ?_
      rw [List.zipIdx_map_snd]
      exact List.pairwise_lt_range'

theorem slotted_array : Slotted arraySlots where
  under {keyword value child} hdistinct hchild := by
    cases value with
    | array children => exact (slotted_indexed hdistinct).1 child hchild
    | _ =>
        have herror := List.mem_singleton.mp hchild
        cases herror
  apart {keyword value} hdistinct := by
    cases value with
    | array children => exact (slotted_indexed hdistinct).2
    | _ => exact List.Pairwise.nil

theorem slotted_schema : Slotted schemaSlots where
  under {keyword value child} hdistinct hchild := by
    have hself : ∀ edge, (.ok child : Except String Child) ∈ [.ok ⟨[keyword], value, edge⟩] →
        ∃ path, child.path = keyword :: path ∧ follow value path = some child.value ∧
          child.value.distinct = true := by
      intro edge hmem
      obtain rfl := Except.ok.inj (List.mem_singleton.mp hmem)
      exact ⟨[], rfl, rfl, hdistinct⟩
    cases value with
    | array children =>
        rw [schemaSlots] at hchild
        split at hchild
        · exact (slotted_indexed hdistinct).1 child hchild
        · exact hself _ hchild
    | _ => exact hself _ hchild
  apart {keyword value} hdistinct := by
    have hself : ∀ child : Child,
        (([.ok child] : Slots).filterMap Except.toOption).Pairwise Apart :=
      fun child => List.pairwise_singleton _ _
    cases value with
    | array children =>
        rw [schemaSlots]
        split
        · exact (slotted_indexed hdistinct).2
        · exact hself _
    | _ => exact hself _

theorem slotted_keywords : ∀ keyword ∈ keywords, Slotted keyword.2 := by
  intro keyword hkeyword
  obtain (h | h) | h := (List.mem_append.mp hkeyword).imp_left List.mem_append.mp
  · obtain ⟨name, -, rfl⟩ := List.mem_map.mp h
    exact slotted_map
  · obtain ⟨name, -, rfl⟩ := List.mem_map.mp h
    exact slotted_array
  · obtain ⟨name, -, rfl⟩ := List.mem_map.mp h
    exact slotted_schema

theorem keywords_nodup : (keywords.map (·.1)).Nodup := by decide

theorem get?_distinct {keyword : String} {inner : Json} (hdistinct : value.distinct = true)
    (h : value.get? keyword = some inner) :
    step value keyword.toList = some inner ∧ inner.distinct = true := by
  cases value with
  | object members =>
      obtain ⟨before, after, rfl, -⟩ := List.lookup_eq_some_iff.mp h
      exact ⟨(step_member keyword).trans h,
        (mem_children hdistinct (List.mem_append_right _ List.mem_cons_self)).2⟩
  | _ => cases h

/-- **A child schema** is what its path leads to. -/
theorem subschema_follow (hdistinct : value.distinct = true) (h : child ∈ subschemas value) :
    child.path ≠ [] ∧ follow value child.path = some child.value ∧
      child.value.distinct = true := by
  obtain ⟨slot, hslot, hchild⟩ := List.mem_filterMap.mp h
  obtain rfl := toOption_eq_some.mp hchild
  obtain ⟨keyword, hkeyword, hmem⟩ := List.mem_flatMap.mp hslot
  cases hget : value.get? keyword.1 with
  | none =>
      rw [hget] at hmem
      cases hmem
  | some inner =>
      rw [hget] at hmem
      obtain ⟨hstep, hinner⟩ := get?_distinct hdistinct hget
      obtain ⟨path, hpath, hfollow, hvalue⟩ := (slotted_keywords keyword hkeyword).under hinner hmem
      refine ⟨by rw [hpath]; exact List.cons_ne_nil _ _, ?_, hvalue⟩
      rw [hpath, follow, List.foldlM_cons, hstep]
      exact hfollow

/-- **The paths of two child schemas** part. -/
theorem subschemas_apart (hdistinct : value.distinct = true) :
    (subschemas value).Pairwise Apart := by
  rw [subschemas, slots, List.filterMap_flatMap, List.pairwise_flatMap]
  constructor
  · intro keyword hkeyword
    cases hget : value.get? keyword.1 with
    | none => exact List.Pairwise.nil
    | some inner =>
        exact (slotted_keywords keyword hkeyword).apart (get?_distinct hdistinct hget).2
  · have hfirst : ∀ keyword ∈ keywords, ∀ child ∈
        (((value.get? keyword.1).map (keyword.2 keyword.1)).getD []).filterMap Except.toOption,
        ∃ path, child.path = keyword.1 :: path := by
      intro keyword hkeyword child hchild
      obtain ⟨slot, hslot, hok⟩ := List.mem_filterMap.mp hchild
      obtain rfl := toOption_eq_some.mp hok
      cases hget : value.get? keyword.1 with
      | none =>
          rw [hget] at hslot
          cases hslot
      | some inner =>
          rw [hget] at hslot
          obtain ⟨path, hpath, -⟩ := (slotted_keywords keyword hkeyword).under
            (get?_distinct hdistinct hget).2 hslot
          exact ⟨path, hpath⟩
    refine (List.pairwise_map.mp keywords_nodup).imp_of_mem ?_
    intro a b ha hb hne x hx y hy
    obtain ⟨path, hpath⟩ := hfirst a ha x hx
    obtain ⟨path', hpath'⟩ := hfirst b hb y hy
    unfold Apart
    rw [hpath, hpath', List.cons_prefix_cons, List.cons_prefix_cons]
    exact ⟨fun h => hne h.1, fun h => hne h.1.symm⟩

end Subschemas


/-! ### What the index holds -/

section Indexed

variable (lib : UriLibrary)

/-- The positions that have been visited, in the order of their nodes. -/
structure Indexed (guard : Guard) (entries : List Entry) : Prop where
  nodes : guard.nodes.map Node.place = entries.map Entry.place
  positions : ∀ key i, guard.positions key = some i ↔ ∃ e, entries[i]? = some e ∧ e.key = key
  resources : Registered guard.valueAt (fun i uri => ∃ e, entries[i]? = some e ∧ Names lib uri e)
    guard.resources
  anchors : Registered guard.valueAt
    (fun i anchor => ∃ e, entries[i]? = some e ∧ Anchored lib anchor e) guard.anchors

variable {lib} {guard guard' : Guard} {entries : List Entry} {e : Entry}

theorem indexed_empty : Indexed lib Guard.empty [] where
  nodes := rfl
  positions key i := by simp [Guard.empty]
  resources := registered_empty.congr (fun i uri => by simp) fun _ _ _ => rfl
  anchors := registered_empty.congr (fun i uri => by simp) fun _ _ _ => rfl

theorem place_eq {node : Node} : node.place = e.place ↔
    node.document = e.document ∧ node.pointer = pointerText e.tokens ∧ node.value = e.value := by
  simp only [Node.place, Entry.place, Prod.mk.injEq]

theorem Indexed.length (h : Indexed lib guard entries) : guard.nodes.length = entries.length := by
  simpa using congrArg List.length h.nodes

/-- The node of a position. -/
theorem Indexed.getElem? (h : Indexed lib guard entries) (i : Nat) :
    (guard.nodes[i]?).map Node.place = (entries[i]?).map Entry.place := by
  rw [← List.getElem?_map, ← List.getElem?_map, h.nodes]

theorem Indexed.valueAt (h : Indexed lib guard entries) (i : Nat) :
    guard.valueAt i = (entries[i]?).map (·.value) := by
  have hvalue := congrArg (Option.map fun place => place.2.2) (h.getElem? i)
  rw [Option.map_map, Option.map_map] at hvalue
  exact hvalue

/-- Two positions under one key are one position. -/
theorem Indexed.key_injective (h : Indexed lib guard entries) {i j : Nat} {e e' : Entry}
    (hi : entries[i]? = some e) (hj : entries[j]? = some e') (hkey : e.key = e'.key) : i = j := by
  have hfirst := (h.positions e.key i).mpr ⟨e, hi, rfl⟩
  have hsecond := (h.positions e.key j).mpr ⟨e', hj, hkey.symm⟩
  exact Option.some.inj (hfirst.symm.trans hsecond)

theorem Indexed.addEdge (h : Indexed lib guard entries) (node child : Nat) :
    Indexed lib (guard.addEdge node child) entries := by
  have hplaces : (guard.addEdge node child).nodes.map Node.place =
      guard.nodes.map Node.place := by
    refine List.ext_getElem? fun i => ?_
    rw [Guard.addEdge, List.getElem?_map, List.getElem?_map, List.getElem?_modify]
    split <;> cases guard.nodes[i]? <;> rfl
  have hvalues : ∀ i, (guard.addEdge node child).valueAt i = guard.valueAt i := by
    intro i
    have hplace := congrArg (fun places => places[i]?) hplaces
    simp only [List.getElem?_map] at hplace
    have hvalue := congrArg (Option.map fun place => place.2.2) hplace
    rw [Option.map_map, Option.map_map] at hvalue
    exact hvalue
  exact ⟨hplaces.trans h.nodes, h.positions,
    h.resources.congr (fun _ _ => Iff.rfl) fun i _ _ => hvalues i,
    h.anchors.congr (fun _ _ => Iff.rfl) fun i _ _ => hvalues i⟩

theorem exists_append_singleton {α : Type} {items : List α} {a : α} {i : Nat} {P : α → Prop} :
    (∃ x, (items ++ [a])[i]? = some x ∧ P x) ↔
      (∃ x, items[i]? = some x ∧ P x) ∨ i = items.length ∧ P a := by
  rw [List.getElem?_append]
  split
  next hlt =>
    constructor
    · exact .inl
    · rintro (h | ⟨rfl, -⟩)
      · exact h
      · exact absurd hlt (Nat.lt_irrefl _)
  next hle =>
    have hnone : items[i]? = none := List.getElem?_eq_none (Nat.le_of_not_lt hle)
    rw [hnone, List.getElem?_singleton]
    constructor
    · rintro ⟨x, hx, hP⟩
      split at hx
      next hzero =>
        obtain rfl := Option.some.inj hx
        exact .inr ⟨by omega, hP⟩
      next => cases hx
    · rintro (⟨x, hx, -⟩ | ⟨rfl, hP⟩)
      · cases hx
      · exact ⟨a, by simp, hP⟩

theorem mem_resourceNames {base uri : String} (hbase : rebase lib e.value e.inherited = .ok base) :
    uri ∈ resourceNames e.document (pointerText e.tokens) e.value base ↔ Names lib uri e := by
  have hroot : pointerText e.tokens = [] ↔ e.tokens = [] := by
    rw [← pointerText_injective.eq_iff]
    rfl
  have hmem : ∀ (p : Prop) [Decidable p] (name : String),
      uri ∈ (if p then [name] else []) ↔ p ∧ uri = name := by
    intro p _ name
    by_cases hp : p <;> simp [hp]
  rw [resourceNames, Names, List.mem_append, hmem, hmem, hroot, hbase, Except.ok.injEq,
    eq_comm (a := base)]

/-- The anchors of a position have been claimed. -/
theorem anchors_registered {named : Nat → String × String → Prop} {base : String} {node : Nat}
    {anchors : String × String → Option Nat}
    (h : Registered guard.valueAt named guard.anchors)
    (hok : anchorKeywords.foldlM (guard.registerAnchor e.value base node) guard.anchors =
      .ok anchors) :
    Registered guard.valueAt (fun i anchor => named i anchor ∨
      i = node ∧ anchor.1 = base ∧
        ∃ keyword ∈ anchorKeywords, e.value.get? keyword = some (.string anchor.2)) anchors := by
  refine @foldlM_invariant _ _ _ _
    (fun done map => Registered guard.valueAt (fun i anchor => named i anchor ∨
      i = node ∧ anchor.1 = base ∧
        ∃ keyword ∈ done, e.value.get? keyword = some (.string anchor.2)) map)
    anchorKeywords [] _ _ ?_ ?_ hok
  · intro done keyword map map' hdone hstep
    unfold Guard.registerAnchor at hstep
    cases hget : e.value.get? keyword with
    | none =>
        rw [hget] at hstep
        obtain rfl := Except.ok.inj hstep
        refine hdone.congr (fun i anchor => ?_) fun _ _ _ => rfl
        simp [or_and_right, exists_or, hget]
    | some anchor =>
        rw [hget] at hstep
        obtain ⟨name, hname, hclaim⟩ := bind_eq_ok.mp hstep
        obtain ⟨hstring, -⟩ := Option.filter_eq_some_iff.mp (okOr_eq_ok.mp hname)
        obtain rfl : anchor = .string name := by
          cases anchor with
          | string text => rw [Option.some.inj hstring]
          | _ => cases hstring
        refine (claim_registered hdone hclaim).congr (fun i key => ?_) fun _ _ _ => rfl
        simp only [List.mem_append, List.mem_singleton, or_and_right, exists_or, exists_eq_left,
          hget, Option.some.injEq, Json.string.injEq, Prod.ext_iff, and_or_left, or_assoc]
        rw [eq_comm (a := key.2)]
  · exact h.congr (fun i key => by simp) fun _ _ _ => rfl

end Indexed

/-! ### One visit -/

section Visits

variable {lib : UriLibrary} {limits : Limits} {guard guard' : Guard} {entries : List Entry}
variable {e : Entry} {base : String}

/-- Inversion of `enter`. -/
theorem enter_eq_ok (h : enter lib limits e.document (pointerText e.tokens) e.value e.inherited
      guard = .ok (guard', base)) :
    rebase lib e.value e.inherited = .ok base ∧
      ∃ resources anchors references,
        (resourceNames e.document (pointerText e.tokens) e.value base).foldlM
          ((guard.push e.document (pointerText e.tokens) e.value).registerResource
            guard.nodes.length) guard.resources = .ok resources ∧
        anchorKeywords.foldlM
          ((guard.push e.document (pointerText e.tokens) e.value).registerAnchor e.value base
            guard.nodes.length) guard.anchors = .ok anchors ∧
        guard' = { guard.push e.document (pointerText e.tokens) e.value with
          resources, anchors, references } := by
  unfold enter at h
  split at h
  · cases h
  · split at h
    · cases h
    · obtain ⟨base', hbase, h⟩ := bind_eq_ok.mp h
      obtain ⟨resources, hresources, h⟩ := bind_eq_ok.mp h
      obtain ⟨anchors, hanchors, h⟩ := bind_eq_ok.mp h
      obtain ⟨references, -, h⟩ := bind_eq_ok.mp h
      obtain ⟨rfl, rfl⟩ := Prod.mk.inj (Except.ok.inj h)
      exact ⟨hbase, resources, anchors, references, hresources, hanchors, rfl⟩

/-- **A new node** is indexed under its position and all its names. -/
theorem Indexed.enter (h : Indexed lib guard entries) (hfresh : ∀ e' ∈ entries, e'.key ≠ e.key)
    (hok : enter lib limits e.document (pointerText e.tokens) e.value e.inherited guard =
      .ok (guard', base)) : Indexed lib guard' (entries ++ [e]) := by
  obtain ⟨hbase, resources, anchors, references, hresources, hanchors, rfl⟩ := enter_eq_ok hok
  have hkeep : ∀ i, i < entries.length →
      (guard.push e.document (pointerText e.tokens) e.value).valueAt i = guard.valueAt i := by
    intro i hi
    rw [← h.length] at hi
    rw [Guard.valueAt, Guard.push, List.getElem?_append_left hi]
    rfl
  have hold : ∀ {P : Entry → Prop} {i : Nat}, (∃ x, entries[i]? = some x ∧ P x) →
      i < entries.length :=
    fun ⟨x, hx, _⟩ => (List.getElem?_eq_some_iff.mp hx).1
  constructor
  · rw [List.map_append, ← h.nodes]
    exact List.map_append
  · intro key i
    rw [exists_append_singleton, ← h.positions]
    simp only [Guard.push]
    by_cases hkey : key = (e.document, pointerText e.tokens)
    · have hnone : guard.positions key ≠ some i := by
        intro hsome
        obtain ⟨e', he', hsame⟩ := (h.positions key i).mp hsome
        exact hfresh e' (List.mem_of_getElem? he') (hsame.trans hkey)
      subst hkey
      rw [Function.update_self, Option.some.injEq, h.length]
      constructor
      · rintro rfl
        exact .inr ⟨rfl, rfl⟩
      · rintro (hsome | ⟨rfl, -⟩)
        · exact absurd hsome hnone
        · rfl
    · rw [Function.update_of_ne hkey]
      constructor
      · exact .inl
      · rintro (hsome | ⟨-, hsame⟩)
        · exact hsome
        · exact absurd hsame.symm hkey
  · have hpushed : Registered (guard.push e.document (pointerText e.tokens) e.value).valueAt
        (fun i uri => ∃ x, entries[i]? = some x ∧ Names lib uri x) guard.resources :=
      h.resources.congr (fun _ _ => Iff.rfl) fun i _ hi => hkeep i (hold hi)
    refine (claims_registered hpushed hresources).congr (fun i uri => ?_) fun _ _ _ => rfl
    rw [exists_append_singleton, mem_resourceNames hbase, h.length]
  · have hpushed : Registered (guard.push e.document (pointerText e.tokens) e.value).valueAt
        (fun i anchor => ∃ x, entries[i]? = some x ∧ Anchored lib anchor x) guard.anchors :=
      h.anchors.congr (fun _ _ => Iff.rfl) fun i _ hi => hkeep i (hold hi)
    refine (anchors_registered hpushed hanchors).congr (fun i anchor => ?_) fun _ _ _ => rfl
    rw [exists_append_singleton, h.length, Anchored, hbase, Except.ok.injEq, eq_comm (a := base)]

theorem Below.extends {e e' : Entry} (h : Below lib e e') :
    e'.document = e.document ∧ e.tokens <+: e'.tokens := by
  induction h with
  | refl => exact ⟨rfl, List.prefix_rfl⟩
  | tail _ hstep ih =>
      obtain ⟨base, -, child, -, rfl⟩ := hstep
      exact ⟨ih.1, ih.2.trans (List.prefix_append _ _)⟩

/-- What a schema leads to: itself, or what a child schema leads to. -/
theorem below_iff {e e' : Entry} (hbase : rebase lib e.value e.inherited = .ok base) :
    Below lib e e' ↔ e' = e ∨ ∃ child ∈ subschemas e.value, Below lib (e.child base child) e' := by
  rw [Below, Relation.ReflTransGen.cases_head_iff, eq_comm]
  refine or_congr Iff.rfl ?_
  constructor
  · rintro ⟨inner, ⟨base', hbase', child, hchild, rfl⟩, hbelow⟩
    obtain rfl := Except.ok.inj (hbase.symm.trans hbase')
    exact ⟨child, hchild, hbelow⟩
  · rintro ⟨child, hchild, hbelow⟩
    exact ⟨e.child base child, ⟨base, hbase, child, hchild, rfl⟩, hbelow⟩

/-- The slots that were all visited are the child schemas. -/
theorem slots_of_visited {inner : Visit} {pointer : List Char} {node : Nat} {found : Slots}
    (hok : found.foldlM (visitSlot inner pointer base node) guard = .ok guard') :
    found = (found.filterMap Except.toOption).map .ok := by
  induction found generalizing guard with
  | nil => rfl
  | cons slot found ih =>
      obtain ⟨next, hslot, hrest⟩ := foldlM_cons_eq_ok.mp hok
      obtain ⟨child, rfl, -⟩ := bind_eq_ok.mp hslot
      exact congrArg (List.cons (.ok child)) (ih hrest)

/-- What a visit of a position does. -/
def Visits (lib : UriLibrary) (document : String) (visit : Visit) : Prop :=
  ∀ {e : Entry} {guard guard' : Guard} {entries : List Entry} {node : Nat},
    e.document = document → Indexed lib guard entries → e.value.distinct = true →
    (∀ e' ∈ entries, e'.document = document → ¬ e.tokens <+: e'.tokens) →
    visit (pointerText e.tokens) e.value e.inherited guard = .ok (guard', node) →
    ∃ added, Indexed lib guard' (entries ++ added) ∧ ∀ e', e' ∈ added ↔ Below lib e e'

/-- **The loop over the child schemas.** -/
theorem visitSlots_indexed {inner : Visit} (hinner : Visits lib e.document inner) {node : Nat}
    {children : List Child} (hdistinct : ∀ child ∈ children, child.value.distinct = true)
    (hapart : children.Pairwise Apart) (h : Indexed lib guard entries)
    (hfresh : ∀ child ∈ children, ∀ e' ∈ entries, e'.document = e.document →
      ¬ e.tokens ++ child.path <+: e'.tokens)
    (hok : (children.map .ok).foldlM (visitSlot inner (pointerText e.tokens) base node) guard =
      .ok guard') :
    ∃ added, Indexed lib guard' (entries ++ added) ∧
      ∀ e', e' ∈ added ↔ ∃ child ∈ children, Below lib (e.child base child) e' := by
  induction children generalizing guard entries with
  | nil =>
      obtain rfl := Except.ok.inj hok
      exact ⟨[], by rwa [List.append_nil], by simp⟩
  | cons child children ih =>
      rw [List.map_cons] at hok
      obtain ⟨next, hslot, hrest⟩ := foldlM_cons_eq_ok.mp hok
      obtain ⟨_, heq, hvisit⟩ := bind_eq_ok.mp hslot
      obtain rfl := Except.ok.inj heq
      obtain ⟨⟨visited, index⟩, hvisit, hnext⟩ := bind_eq_ok.mp hvisit
      rw [foldl_pointerChild] at hvisit
      obtain ⟨hhere, hlater⟩ := List.pairwise_cons.mp hapart
      obtain ⟨added, hindexed, hadded⟩ := hinner (e := e.child base child) rfl h
        (hdistinct child List.mem_cons_self) (hfresh child List.mem_cons_self) hvisit
      have hindexed' : Indexed lib next (entries ++ added) := by
        obtain rfl := Except.ok.inj hnext
        split
        · exact hindexed.addEdge node index
        · exact hindexed
      obtain ⟨added', hindexed', hadded'⟩ := ih
        (fun other hother => hdistinct other (List.mem_cons_of_mem _ hother)) hlater hindexed'
        (fun other hother e' he' hdocument hprefix => by
          obtain he' | he' := List.mem_append.mp he'
          · exact hfresh other (List.mem_cons_of_mem _ hother) e' he' hdocument hprefix
          · -- A position below one child is not below another one.
            have hbelow := ((hadded e').mp he').extends.2
            obtain hle | hle := List.prefix_or_prefix_of_prefix hbelow hprefix
            · exact (hhere other hother).1 ((List.prefix_append_right_inj _).mp hle)
            · exact (hhere other hother).2 ((List.prefix_append_right_inj _).mp hle))
        hrest
      refine ⟨added ++ added', by rwa [← List.append_assoc], fun e' => ?_⟩
      rw [List.mem_append, hadded, hadded', List.exists_mem_cons_iff]

/-- **A visit** indexes exactly the positions at and below its own. -/
theorem visit_indexed (document : String) (remaining : Nat) :
    Visits lib document (visit lib limits document remaining) := by
  induction remaining with
  | zero =>
      intro e guard guard' entries node _ _ _ _ hok
      cases hok
  | succ remaining ih =>
      intro e guard guard' entries node hdocument h hdistinct hfresh hok
      subst hdocument
      obtain ⟨⟨entered, base⟩, henter, hok⟩ := bind_eq_ok.mp hok
      obtain ⟨visited, hslots, hok⟩ := bind_eq_ok.mp hok
      obtain ⟨rfl, -⟩ := Prod.mk.inj (Except.ok.inj hok)
      have hnew : ∀ e' ∈ entries, e'.key ≠ e.key := by
        intro e' he' hkey
        obtain ⟨hdocument, hpointer⟩ := Prod.mk.inj hkey
        refine hfresh e' he' hdocument ?_
        rw [pointerText_injective hpointer]
      have hentered := h.enter hnew henter
      rw [slots_of_visited hslots] at hslots
      have hchildren : ∀ child ∈ subschemas e.value,
          child.path ≠ [] ∧ follow e.value child.path = some child.value ∧
            child.value.distinct = true :=
        fun child hchild => subschema_follow hdistinct hchild
      obtain ⟨added, hindexed, hadded⟩ := visitSlots_indexed ih
        (fun child hchild => (hchildren child hchild).2.2) (subschemas_apart hdistinct) hentered
        (fun child hchild e' he' hdocument hprefix => by
          obtain he' | he' := List.mem_append.mp he'
          · exact hfresh e' he' hdocument ((List.prefix_append _ _).trans hprefix)
          · obtain rfl := List.mem_singleton.mp he'
            have hle := hprefix.length_le
            have hpath := List.length_pos_of_ne_nil (hchildren child hchild).1
            rw [List.length_append] at hle
            omega)
        hslots
      refine ⟨e :: added, by rwa [List.append_cons], fun e' => ?_⟩
      rw [List.mem_cons, hadded, below_iff (enter_eq_ok henter).1]

end Visits

end SchemaGuard
end Standards
end Glaux
