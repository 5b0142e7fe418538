import Glaux.Library.PercentCode
import Glaux.Standards.SchemaGuard.Positions

/-!
# The pointer index of a schema catalog (`schema_guard.rs`)

What is recorded of a whole catalog, and what the targets of references resolve to.
-/

namespace Glaux
namespace Standards
namespace SchemaGuard

open Library Json

/-! ### The index of a catalog -/

section Catalogs

variable {lib : UriLibrary} {limits : Limits} {guard : Guard} {entries : List Entry}
variable {e e' : Entry}

/-- `BTreeMap<String, Value>`: the names of the documents differ, and so do the names in
every object of them. -/
structure Catalog where
  documents : List (String × Json)
  names : (documents.map (·.1)).Nodup
  distinct : ∀ entry ∈ documents, entry.2.distinct = true

theorem index_indexed (catalog : Catalog) (hok : index lib limits catalog.documents = .ok guard) :
    ∃ entries, Indexed lib guard entries ∧
      ∀ e, e ∈ entries ↔ Position lib catalog.documents e := by
  have hrun := @foldlM_invariant _ _ _ _
    (fun done guard => (done.map (·.1)).Nodup → (∀ entry ∈ done, entry.2.distinct = true) →
      ∃ entries, Indexed lib guard entries ∧ ∀ e, e ∈ entries ↔ Position lib done e)
    catalog.documents [] _ _ ?_ ?_ hok
  · exact hrun catalog.names catalog.distinct
  · intro done entry guard guard' hdone hstep hnames hdistinct
    rw [List.map_append, List.map_singleton, List.nodup_append'] at hnames
    obtain ⟨entries, hindexed, hentries⟩ := hdone hnames.1 fun other hother =>
      hdistinct other (List.mem_append_left _ hother)
    obtain ⟨uri, -, hstep⟩ := bind_eq_ok.mp hstep
    split at hstep
    · cases hstep
    · obtain ⟨⟨visited, node⟩, hvisit, hstep⟩ := bind_eq_ok.mp hstep
      obtain rfl := Except.ok.inj hstep
      obtain ⟨added, hindexed', hadded⟩ := visit_indexed entry.1 limits.depth
        (e := ⟨entry.1, [], entry.2, entry.1⟩) rfl hindexed
        (hdistinct entry (List.mem_append_right _ (List.mem_singleton_self _)))
        (fun e' he' hdocument _ => by
          obtain ⟨root, hroot, hbelow⟩ := (hentries e').mp he'
          refine hnames.2.2 (List.mem_map_of_mem hroot) ?_
          rw [List.mem_singleton, ← hdocument]
          exact hbelow.extends.1.symm)
        hvisit
      refine ⟨entries ++ added, hindexed', fun e' => ?_⟩
      simp only [List.mem_append, hentries, hadded, Position, List.mem_singleton, or_and_right,
        exists_or, exists_eq_left]
  · exact fun _ _ => ⟨[], indexed_empty, fun e => by simp [Position]⟩

theorem Below.follow (h : Below lib e e') (hdistinct : e.value.distinct = true) :
    ∃ path, e'.tokens = e.tokens ++ path ∧ follow e.value path = some e'.value ∧
      e'.value.distinct = true := by
  induction h with
  | refl => exact ⟨[], (List.append_nil _).symm, rfl, hdistinct⟩
  | tail _ hstep ih =>
      obtain ⟨path, htokens, hfollow, hvalue⟩ := ih
      obtain ⟨base, -, child, hchild, rfl⟩ := hstep
      obtain ⟨-, hpath, hdistinct'⟩ := subschema_follow hvalue hchild
      refine ⟨path ++ child.path, ?_, ?_, hdistinct'⟩
      · rw [Entry.child, htokens, List.append_assoc]
      · rw [follow_append, hfollow]
        exact hpath

/-- A position is what its tokens lead to in its document. -/
theorem Position.follow {catalog : Catalog} (h : Position lib catalog.documents e) :
    ∃ schema, (e.document, schema) ∈ catalog.documents ∧
      Json.follow schema e.tokens = some e.value := by
  obtain ⟨root, hroot, hbelow⟩ := h
  obtain ⟨path, htokens, hfollow, -⟩ := hbelow.follow (catalog.distinct root hroot)
  refine ⟨root.2, ?_, ?_⟩
  · rw [hbelow.extends.1]
    exact hroot
  · rw [htokens]
    exact hfollow

end Catalogs

/-! ### Targets -/

section Targets

theorem validPointerPart_plain {c : Char} (h : c ≠ '~') (rest : List Char) :
    validPointerPart (c :: rest) = validPointerPart rest := by
  rw [validPointerPart.eq_def]
  exact if_neg h

theorem validPointerPart_tilde (c : Char) (rest : List Char) :
    validPointerPart ('~' :: c :: rest) = ((c = '0' || c = '1') && validPointerPart rest) := by
  rw [validPointerPart.eq_def]
  exact if_pos rfl

theorem validPointerPart_escape (name : List Char) : validPointerPart (escape name) = true := by
  rw [escape_eq]
  induction name with
  | nil => rfl
  | cons c name ih =>
      rw [List.flatMap_cons, escapeChar]
      split
      · exact ih
      · split
        · exact ih
        next hc _ =>
          rw [List.singleton_append, validPointerPart_plain hc]
          exact ih

/-- A part without a broken escape is a name escaped. -/
theorem exists_escape : ∀ {part : List Char}, validPointerPart part = true → '/' ∉ part →
    ∃ name, part = escape name
  | [], _, _ => ⟨[], rfl⟩
  | c :: part, hvalid, hslash => by
      by_cases htilde : c = '~'
      · subst htilde
        cases part with
        | nil => cases hvalid
        | cons d part =>
            rw [validPointerPart_tilde] at hvalid
            obtain ⟨hdigit, hvalid⟩ := Bool.and_eq_true_iff.mp hvalid
            obtain ⟨name, rfl⟩ := exists_escape hvalid fun h => hslash (by simp [h])
            obtain hd | hd := Bool.or_eq_true_iff.mp hdigit
            · obtain rfl := of_decide_eq_true hd
              exact ⟨'~' :: name, by rw [escape_eq, escape_eq]; rfl⟩
            · obtain rfl := of_decide_eq_true hd
              exact ⟨'/' :: name, by rw [escape_eq, escape_eq]; rfl⟩
      · rw [validPointerPart_plain htilde] at hvalid
        obtain ⟨name, rfl⟩ := exists_escape hvalid fun h => hslash (List.mem_cons_of_mem _ h)
        have hc : c ≠ '/' := fun h => hslash (h ▸ List.mem_cons_self)
        refine ⟨c :: name, ?_⟩
        rw [escape_eq, escape_eq, List.flatMap_cons, escapeChar, if_neg htilde, if_neg hc]
        rfl

/-- A fragment that is no pointer of names and indices has a broken escape. -/
theorem exists_tokens {fragment : List Char} (hhead : fragment.head? = some '/')
    (hvalid : (pointerParts fragment).any (fun part => !validPointerPart part) = false) :
    ∃ tokens, fragment = pointerText tokens := by
  obtain ⟨first, parts, rfl, hfirst, hparts⟩ := exists_parts fragment
  obtain rfl : first = [] := by
    cases first with
    | nil => rfl
    | cons c first =>
        obtain rfl : c = '/' := Option.some.inj hhead
        exact absurd List.mem_cons_self hfirst
  rw [pointerParts, splitOn_flatMap hfirst hparts] at hvalid
  rw [List.nil_append]
  replace hvalid : ∀ part ∈ parts, validPointerPart part = true := by
    intro part hpart
    simpa using List.any_eq_false.mp hvalid part hpart
  clear hhead
  induction parts with
  | nil => exact ⟨[], rfl⟩
  | cons part parts ih =>
      obtain ⟨tokens, htokens⟩ := ih (fun p hp => hparts p (List.mem_cons_of_mem _ hp))
        fun p hp => hvalid p (List.mem_cons_of_mem _ hp)
      obtain ⟨name, rfl⟩ := exists_escape (hvalid part List.mem_cons_self)
        (hparts part List.mem_cons_self)
      refine ⟨String.ofList name :: tokens, ?_⟩
      rw [List.flatMap_cons, htokens, pointerText, pointerText, List.flatMap_cons,
        String.toList_ofList]

variable {lib : UriLibrary} {guard : Guard} {text : String} {n : Nat}

/-- **Inversion of `target`.** -/
theorem target_eq_ok (h : guard.target lib text = .ok n) :
    ∃ uri fragment root, lib.parse text = some uri ∧ targetFragment lib uri = some fragment ∧
      guard.resources (resourceOf lib uri) = some root ∧
      ((fragment = [] ∧ n = root) ∨
        (fragment ≠ [] ∧ fragment.head? ≠ some '/' ∧
          guard.anchors (resourceOf lib uri, String.ofList fragment) = some n) ∨
        (fragment.head? = some '/' ∧ (∃ tokens, fragment = pointerText tokens) ∧
          ∃ node, guard.nodes[root]? = some node ∧
            guard.positions (node.document, node.pointer ++ fragment) = some n)) := by
  obtain ⟨uri, huri, h⟩ := bind_eq_ok.mp h
  obtain ⟨fragment, hfragment, h⟩ := bind_eq_ok.mp h
  obtain ⟨root, hroot, h⟩ := bind_eq_ok.mp h
  refine ⟨uri, fragment, root, okOr_eq_ok.mp huri, okOr_eq_ok.mp hfragment, okOr_eq_ok.mp hroot, ?_⟩
  split at h
  next hempty => exact .inl ⟨hempty, (Except.ok.inj h).symm⟩
  next hempty =>
    split at h
    next hhead => exact .inr (.inl ⟨hempty, hhead, okOr_eq_ok.mp h⟩)
    next hhead =>
      have hslash := not_not.mp hhead
      split at h
      · cases h
      next hvalid =>
        obtain ⟨node, hnode, h⟩ := bind_eq_ok.mp h
        obtain ⟨value, -, h⟩ := bind_eq_ok.mp h
        exact .inr (.inr ⟨hslash, exists_tokens hslash (Bool.eq_false_iff.mpr hvalid), node,
          okOr_eq_ok.mp hnode, okOr_eq_ok.mp h⟩)

end Targets

/-! ### The pointer index -/

section PointerIndex

variable (lib : UriLibrary) (catalog : List (String × Json))

/-- What a fragment denotes from a root of the resource: the value its pointer leads to, or
the one that every position with the anchor has. -/
def Denotes (resource : String) (fragment : List Char) (root : Entry) (value : Json) : Prop :=
  if fragment = [] ∨ fragment.head? = some '/' then pointer root.value fragment = some value
  else
    (∃ e, Position lib catalog e ∧ Anchored lib (resource, String.ofList fragment) e) ∧
      ∀ e, Position lib catalog e → Anchored lib (resource, String.ofList fragment) e →
        e.value = value

/-- The node is what the target denotes. -/
structure Resolved (guard : Guard) (uri : lib.Uri) (fragment : List Char) (n : Nat) : Prop where
  indexed : ∃ node, guard.nodes[n]? = some node ∧
    (∀ root, Position lib catalog root → Names lib (resourceOf lib uri) root →
      Denotes lib catalog (resourceOf lib uri) fragment root node.value) ∧
    (fragment.head? = some '/' → ∃ root, Position lib catalog root ∧
      Names lib (resourceOf lib uri) root ∧ node.document = root.document ∧
        node.pointer = pointerText root.tokens ++ fragment)
  named : ∃ root, Position lib catalog root ∧ Names lib (resourceOf lib uri) root

/-- The pointers of the index, and what targets resolve to. -/
structure PointerIndex (guard : Guard) : Prop where
  /-- The nodes are the schema positions. -/
  visited : ∀ place, place ∈ guard.nodes.map Node.place ↔
    ∃ e, Position lib catalog e ∧ e.place = place
  resolves : ∀ node ∈ guard.nodes, ∃ schema, (node.document, schema) ∈ catalog ∧
    pointer schema node.pointer = some node.value
  distinct : ∀ {i j : Nat} {node node' : Node}, guard.nodes[i]? = some node → guard.nodes[j]? = some node' →
    node.document = node'.document → node.pointer = node'.pointer → i = j
  positions : ∀ {e e' : Entry}, Position lib catalog e → Position lib catalog e' →
    e.document = e'.document → e ≠ e' → pointerText e.tokens ≠ pointerText e'.tokens
  target : ∀ {text n}, guard.target lib text = .ok n →
    ∃ uri fragment, lib.parse text = some uri ∧ targetFragment lib uri = some fragment ∧
      Resolved lib catalog guard uri fragment n
  /-- No resource of the catalog has the name. -/
  outside : ∀ {text uri}, lib.parse text = some uri →
    (∀ root, Position lib catalog root → ¬ Names lib (resourceOf lib uri) root) →
    ∃ message, guard.target lib text = .error message
  /-- No position stands where the fragment leads. -/
  unindexed : ∀ {text uri fragment}, lib.parse text = some uri →
    targetFragment lib uri = some fragment → fragment.head? = some '/' →
    (∀ root e, Position lib catalog root → Names lib (resourceOf lib uri) root →
      Position lib catalog e → e.document = root.document →
        pointerText e.tokens ≠ pointerText root.tokens ++ fragment) →
    ∃ message, guard.target lib text = .error message
  /-- No position has the anchor. -/
  unanchored : ∀ {text uri fragment}, lib.parse text = some uri →
    targetFragment lib uri = some fragment → fragment ≠ [] → fragment.head? ≠ some '/' →
    (∀ e, Position lib catalog e →
      ¬ Anchored lib (resourceOf lib uri, String.ofList fragment) e) →
    ∃ message, guard.target lib text = .error message
  /-- A '~' stands before something else than a '0' or a '1'. -/
  malformed : ∀ {text uri fragment}, lib.parse text = some uri →
    targetFragment lib uri = some fragment → fragment.head? = some '/' →
    (∀ tokens, fragment ≠ pointerText tokens) →
    ∃ message, guard.target lib text = .error message
  unreadable : ∀ {text}, (∀ uri, lib.parse text = some uri → targetFragment lib uri = none) →
    ∃ message, guard.target lib text = .error message
  /-- A '%' without two digits, with a library that parses no such text. -/
  percent : (∀ text uri, lib.parse text = some uri → (percentDecode text.toList).isSome) →
    ∀ {text}, percentDecode text.toList = none →
    ∃ message, guard.target lib text = .error message

variable {lib} {guard : Guard} {entries : List Entry}

theorem Catalog.unique (catalog : Catalog) {document : String} {schema schema' : Json}
    (h : (document, schema) ∈ catalog.documents) (h' : (document, schema') ∈ catalog.documents) :
    schema = schema' := by
  have hlookup := lookup_of_mem catalog.names h
  rw [lookup_of_mem catalog.names h'] at hlookup
  exact (Option.some.inj hlookup).symm

/-- Positions of one name have one value. -/
theorem Registered.value_eq {κ : Type} {named : κ → Entry → Prop} {map : κ → Option Nat}
    (hvalue : ∀ i, guard.valueAt i = (entries[i]?).map (·.value))
    (h : Registered guard.valueAt (fun i key => ∃ e, entries[i]? = some e ∧ named key e) map)
    {key : κ} {first : Nat} {e e' : Entry} (hfirst : map key = some first)
    (he : entries[first]? = some e) (hmem : e' ∈ entries) (hnamed : named key e') :
    e'.value = e.value := by
  obtain ⟨i, hi⟩ := List.mem_iff_getElem?.mp hmem
  obtain ⟨other, hother, hcopy⟩ := h.complete ⟨e', hi, hnamed⟩
  obtain rfl := Option.some.inj (hfirst.symm.trans hother)
  rw [hvalue, hvalue, he, hi] at hcopy
  exact (Option.some.inj hcopy).symm

variable {catalog : Catalog}

/-- **What a target resolves to.** -/
theorem target_resolved (h : Indexed lib guard entries)
    (hentries : ∀ e, e ∈ entries ↔ Position lib catalog.documents e) {text : String} {n : Nat}
    (hok : guard.target lib text = .ok n) :
    ∃ uri fragment, lib.parse text = some uri ∧ targetFragment lib uri = some fragment ∧
      Resolved lib catalog.documents guard uri fragment n := by
  obtain ⟨uri, fragment, first, huri, hfragment, hfirst, hcases⟩ := target_eq_ok hok
  refine ⟨uri, fragment, huri, hfragment, ?_⟩
  obtain ⟨root, hroot, hnames⟩ := h.resources.sound hfirst
  have hposition := (hentries root).mp (List.mem_of_getElem? hroot)
  have hcopies : ∀ other, Position lib catalog.documents other →
      Names lib (resourceOf lib uri) other → other.value = root.value :=
    fun other hother hname =>
      Registered.value_eq h.valueAt h.resources hfirst hroot ((hentries other).mpr hother) hname
  have hnode : ∀ {i : Nat} {e : Entry}, entries[i]? = some e →
      ∃ node, guard.nodes[i]? = some node ∧ node.place = e.place := by
    intro i e he
    have hplace := h.getElem? i
    rw [he, Option.map_some] at hplace
    exact Option.map_eq_some_iff.mp hplace
  refine ⟨?_, root, hposition, hnames⟩
  obtain ⟨rfl, rfl⟩ | ⟨hempty, hhead, hanchor⟩ | ⟨hhead, ⟨tokens, rfl⟩, node, hfound, hlookup⟩ :=
    hcases
  · obtain ⟨node, hfound, hplace⟩ := hnode hroot
    obtain ⟨-, -, hvalue⟩ := place_eq.mp hplace
    refine ⟨node, hfound, fun other hother hname => ?_, fun hhead => by cases hhead⟩
    rw [Denotes, if_pos (.inl rfl), hvalue, ← hcopies other hother hname]
    rfl
  · obtain ⟨e, he, hanchored⟩ := h.anchors.sound hanchor
    obtain ⟨node, hfound, hplace⟩ := hnode he
    obtain ⟨-, -, hvalue⟩ := place_eq.mp hplace
    refine ⟨node, hfound, fun other hother hname => ?_, fun h => absurd h hhead⟩
    rw [Denotes, if_neg (not_or.mpr ⟨hempty, hhead⟩), hvalue]
    refine ⟨⟨e, (hentries e).mp (List.mem_of_getElem? he), hanchored⟩, fun e' he' hanchored' => ?_⟩
    exact Registered.value_eq h.valueAt h.anchors hanchor he ((hentries e').mpr he') hanchored'
  · obtain ⟨node', hfound', hplace'⟩ := hnode hroot
    obtain rfl := Option.some.inj (hfound.symm.trans hfound')
    obtain ⟨hdocument, hpointer, -⟩ := place_eq.mp hplace'
    obtain ⟨e, he, hkey⟩ := (h.positions _ _).mp hlookup
    obtain ⟨hdocument', htext⟩ := Prod.mk.inj hkey
    rw [hpointer, ← pointerText_append] at htext
    have htokens := pointerText_injective htext
    obtain ⟨target, htarget, hplace⟩ := hnode he
    obtain ⟨hdoc, hptr, hvalue⟩ := place_eq.mp hplace
    -- The fragment leads from the root to the position.
    obtain ⟨schema, hschema, hfollow⟩ := hposition.follow
    obtain ⟨schema', hschema', hfollow'⟩ :=
      ((hentries e).mp (List.mem_of_getElem? he)).follow
    rw [hdocument', hdocument] at hschema'
    obtain rfl := catalog.unique hschema hschema'
    rw [htokens, follow_append, hfollow] at hfollow'
    refine ⟨target, htarget, fun other hother hname => ?_, fun _ => ⟨root, hposition, hnames, ?_, ?_⟩⟩
    · rw [Denotes, if_pos (.inr hhead), pointer_text, hvalue, hcopies other hother hname]
      exact hfollow'
    · rw [hdoc, hdocument', hdocument]
    · rw [hptr, htext, pointerText_append]

theorem exists_error {α : Type} {x : Except String α} (h : ∀ a, x ≠ .ok a) :
    ∃ message, x = .error message := by
  cases x with
  | error message => exact ⟨message, rfl⟩
  | ok a => exact absurd rfl (h a)

/-- **The pointer index.**  The pointer of every indexed position leads to its value in its
document, and to no other position; a target that is accepted is the indexed position its
fragment denotes from the root of its resource, and every other one is an error. -/
theorem pointer_index {limits : Limits} (hok : index lib limits catalog.documents = .ok guard) :
    PointerIndex lib catalog.documents guard := by
  obtain ⟨entries, h, hentries⟩ := index_indexed catalog hok
  have hplaces : ∀ {i : Nat} {node : Node}, guard.nodes[i]? = some node →
      ∃ e, entries[i]? = some e ∧ node.place = e.place := by
    intro i node hnode
    have hplace := h.getElem? i
    rw [hnode, Option.map_some] at hplace
    obtain ⟨e, he, heq⟩ := Option.map_eq_some_iff.mp hplace.symm
    exact ⟨e, he, heq.symm⟩
  have htarget : ∀ {text : String} {uri : lib.Uri} {fragment : List Char},
      lib.parse text = some uri → targetFragment lib uri = some fragment →
      (∀ n, ¬ Resolved lib catalog.documents guard uri fragment n) →
      ∃ message, guard.target lib text = .error message := by
    intro text uri fragment huri hfragment hnone
    refine exists_error fun n hn => ?_
    obtain ⟨uri', fragment', huri', hfragment', hresolved⟩ := target_resolved h hentries hn
    obtain rfl := Option.some.inj (huri.symm.trans huri')
    obtain rfl := Option.some.inj (hfragment.symm.trans hfragment')
    exact hnone n hresolved
  constructor
  case visited =>
    intro place
    rw [h.nodes, List.mem_map]
    exact exists_congr fun e => and_congr_left' (hentries e)
  case resolves =>
    intro node hnode
    obtain ⟨i, hi⟩ := List.mem_iff_getElem?.mp hnode
    obtain ⟨e, he, hplace⟩ := hplaces hi
    obtain ⟨hdocument, hpointer, hvalue⟩ := place_eq.mp hplace
    obtain ⟨schema, hschema, hfollow⟩ :=
      ((hentries e).mp (List.mem_of_getElem? he)).follow
    refine ⟨schema, hdocument ▸ hschema, ?_⟩
    rw [hpointer, pointer_text, hfollow, hvalue]
  case distinct =>
    intro i j node node' hi hj hdocument hpointer
    obtain ⟨e, he, hplace⟩ := hplaces hi
    obtain ⟨e', he', hplace'⟩ := hplaces hj
    obtain ⟨hdoc, hptr, -⟩ := place_eq.mp hplace
    obtain ⟨hdoc', hptr', -⟩ := place_eq.mp hplace'
    refine h.key_injective he he' (Prod.mk.injEq .. ▸ ⟨?_, ?_⟩)
    · exact hdoc.symm.trans (hdocument.trans hdoc')
    · exact hptr.symm.trans (hpointer.trans hptr')
  case positions =>
    intro e e' he he' hdocument hne hpointer
    obtain ⟨i, hi⟩ := List.mem_iff_getElem?.mp ((hentries e).mpr he)
    obtain ⟨j, hj⟩ := List.mem_iff_getElem?.mp ((hentries e').mpr he')
    obtain rfl := h.key_injective hi hj (Prod.mk.injEq .. ▸ ⟨hdocument, hpointer⟩)
    exact hne (Option.some.inj (hi.symm.trans hj))
  case target => exact fun hn => target_resolved h hentries hn
  case outside =>
    intro text uri huri hnone
    cases hfragment : targetFragment lib uri with
    | none =>
        refine exists_error fun n hn => ?_
        obtain ⟨uri', fragment', huri', hfragment', -⟩ := target_resolved h hentries hn
        obtain rfl := Option.some.inj (huri.symm.trans huri')
        rw [hfragment] at hfragment'
        cases hfragment'
    | some fragment =>
        refine htarget huri hfragment fun n hresolved => ?_
        obtain ⟨root, hroot, hnames⟩ := hresolved.named
        exact hnone root hroot hnames
  case unindexed =>
    intro text uri fragment huri hfragment hhead hnone
    refine htarget huri hfragment fun n hresolved => ?_
    obtain ⟨node, hnode, -, hplace⟩ := hresolved.indexed
    obtain ⟨root, hroot, hnames, hdocument, hpointer⟩ := hplace hhead
    obtain ⟨e, he, hsame⟩ := hplaces hnode
    obtain ⟨hdoc, hptr, -⟩ := place_eq.mp hsame
    exact hnone root e hroot hnames ((hentries e).mp (List.mem_of_getElem? he))
      (hdoc.symm.trans hdocument) (hptr.symm.trans hpointer)
  case unanchored =>
    intro text uri fragment huri hfragment hempty hhead hnone
    refine htarget huri hfragment fun n hresolved => ?_
    obtain ⟨root, hroot, hnames⟩ := hresolved.named
    obtain ⟨node, -, hdenotes, -⟩ := hresolved.indexed
    have hanchor := hdenotes root hroot hnames
    rw [Denotes, if_neg (not_or.mpr ⟨hempty, hhead⟩)] at hanchor
    obtain ⟨⟨e, he, hanchored⟩, -⟩ := hanchor
    exact hnone e he hanchored
  case malformed =>
    intro text uri fragment huri hfragment hhead hnone
    refine exists_error fun n hn => ?_
    obtain ⟨uri', fragment', _, huri', hfragment', -, hcases⟩ := target_eq_ok hn
    obtain rfl := Option.some.inj (huri.symm.trans huri')
    obtain rfl := Option.some.inj (hfragment.symm.trans hfragment')
    obtain ⟨rfl, -⟩ | ⟨-, hplain, -⟩ | ⟨-, ⟨tokens, htokens⟩, -⟩ := hcases
    · cases hhead
    · exact hplain hhead
    · exact hnone tokens htokens
  case unreadable =>
    intro text hnone
    refine exists_error fun n hn => ?_
    obtain ⟨uri, fragment, huri, hfragment, -⟩ := target_resolved h hentries hn
    rw [hnone uri huri] at hfragment
    cases hfragment
  case percent =>
    intro hparse text hpercent
    refine exists_error fun n hn => ?_
    obtain ⟨uri, -, huri, -⟩ := target_resolved h hentries hn
    have hsome := hparse text uri huri
    rw [hpercent] at hsome
    cases hsome

section Sample

/-- A library for ASCII texts whose references are absolute or fragments. -/
def plainUris : UriLibrary where
  Uri := String
  parse text := if (percentDecode text.toList).isSome then some text else none
  asStr := id
  fragment uri := (splitOnce '#' uri.toList).map (·.2)
  unsetFragment uri := String.ofList (uri.toList.takeWhile (· ≠ '#'))
  decode fragment := (percentDecode fragment).map fun bytes => bytes.map Char.ofUInt8
  resolveAgainst base reference :=
    some (if reference.toList.head? = some '#' then base ++ reference else reference)

/-- A resource below a member whose name has to be escaped. -/
def embeddedResource : Catalog where
  documents := [("https://a/outer", .object
    [("$ref", .string "#/properties/p~1q~0%25"),
      ("properties", .object [("p/q~%", .object
        [("$anchor", .string "here"), ("$defs", .object [("x~y", .bool true)]),
          ("$id", .string "https://a/inner")])])])]
  names := by decide
  distinct := by decide

def embeddedIndex : Guard :=
  (index plainUris ⟨8, 8, 8⟩ embeddedResource.documents).toOption.getD Guard.empty

theorem pointer_index_embedded :
    PointerIndex plainUris embeddedResource.documents embeddedIndex ∧
      embeddedIndex.target plainUris "https://a/inner#/$defs/x~0y" = .ok 2 := by
  have hindex : (index plainUris ⟨8, 8, 8⟩ embeddedResource.documents).toOption.isSome = true := by
    decide +kernel
  obtain ⟨guard, hguard⟩ := Option.isSome_iff_exists.mp hindex
  have hok : index plainUris ⟨8, 8, 8⟩ embeddedResource.documents = .ok embeddedIndex := by
    rw [embeddedIndex, hguard]
    exact toOption_eq_some.mp hguard
  exact ⟨pointer_index hok, by decide +kernel⟩

end Sample

end PointerIndex

end SchemaGuard
end Standards
end Glaux
