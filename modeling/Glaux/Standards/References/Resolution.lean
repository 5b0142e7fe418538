import Glaux.Standards.References.Rule
import Glaux.Standards.References.Traversal
import Mathlib.Data.List.Perm.Basic

/-!
# Resolved documents (`ComponentGraph::resolve`)

The index of a document is a tree of declarations with references at its leaves.  Local
references lead back into it by their ids, and the traversal unfolds what results from the root.
-/

namespace Glaux
namespace Standards

open Library Relation
open Library.Unfolding (Graph followed)

namespace Index

/-! ### What an index holds -/

section Linked

variable {S R : Type} {readers : Readers S R} {input : SubmittedBytes}
variable {options : CountReferenceSchema} {index : Index} {pending : List IndexedTarget}
variable {node : Nat} {edge : IndexedEdge} {value : Json}

/-- All declarations and references. -/
def written (index : Index) : List IndexedTarget :=
  (List.range index.components.length).map .component ++
    (List.range index.references.length).map .reference

/-- What the edges lead to. -/
def edgeTargets (index : Index) : List IndexedTarget :=
  index.components.flatMap fun component => component.edges.map (·.target)

/-- Ids are distinct, and everything written has one edge or is pending. -/
structure Linked (pending : List IndexedTarget) (index : Index) : Prop where
  components : index.components.length ≤ maxComponents
  references : index.references.length ≤ maxReferences
  ids : ∀ id node, (id, node) ∈ index.ids ↔
    ∃ component, index.components[node]? = some component ∧ component.id = some id
  distinct : (index.ids.map Prod.fst).Nodup
  once : (index.edgeTargets ++ pending).Perm index.written
  fits : ∀ node component, index.components[node]? = some component →
    ∀ edge ∈ component.edges, Fits index node edge

theorem linked_empty : Linked [] empty where
  components := Nat.zero_le _
  references := Nat.zero_le _
  ids id node := by
    constructor
    · intro h
      cases h
    · rintro ⟨component, h, -⟩
      cases h
  distinct := List.nodup_nil
  once := .nil
  fits node component h := by cases h

/-- A component of an index after an edge has been entered. -/
theorem getElem?_pushEdge {component : IndexedNode} {i : Nat}
    (h : (index.pushEdge node edge).components[i]? = some component) :
    ∃ before, index.components[i]? = some before ∧ before.id = component.id ∧
      ∀ edge' ∈ component.edges, edge' ∈ before.edges ∨ i = node ∧ edge' = edge := by
  rw [pushEdge, List.getElem?_modify] at h
  obtain ⟨before, hbefore, rfl⟩ := Option.map_eq_some_iff.mp h
  refine ⟨before, hbefore, ?_⟩
  split
  next hnode =>
    refine ⟨rfl, fun edge' hedge' => ?_⟩
    obtain hedge' | hedge' := List.mem_append.mp hedge'
    · exact .inl hedge'
    · exact .inr ⟨hnode.symm, List.mem_singleton.mp hedge'⟩
  · exact ⟨rfl, fun edge' hedge' => .inl hedge'⟩

theorem ids_pushEdge (i : Nat) (id : String) :
    (∃ component, (index.pushEdge node edge).components[i]? = some component ∧
      component.id = some id) ↔
    ∃ component, index.components[i]? = some component ∧ component.id = some id := by
  constructor
  · rintro ⟨component, hcomponent, hid⟩
    obtain ⟨before, hbefore, heq, -⟩ := getElem?_pushEdge hcomponent
    exact ⟨before, hbefore, heq.trans hid⟩
  · rintro ⟨component, hcomponent, hid⟩
    rw [pushEdge, List.getElem?_modify]
    refine ⟨_, Option.map_eq_some_iff.mpr ⟨component, hcomponent, rfl⟩, ?_⟩
    split
    · exact hid
    · exact hid

theorem edgeTargets_pushEdge (hnode : node < index.components.length) :
    (index.pushEdge node edge).edgeTargets.Perm (index.edgeTargets ++ [edge.target]) := by
  obtain ⟨component, rest, hdrop⟩ : ∃ component rest,
      index.components.drop node = component :: rest :=
    ⟨_, _, List.drop_eq_getElem_cons hnode⟩
  have hsplit : index.components = index.components.take node ++ component :: rest := by
    rw [← hdrop, List.take_append_drop]
  rw [edgeTargets, edgeTargets, pushEdge]
  simp only [List.modify_eq_take_drop, hdrop, List.modifyHead_cons]
  conv_rhs => rw [hsplit]
  simp only [List.flatMap_append, List.flatMap_cons, List.map_append, List.map_cons, List.map_nil,
    List.append_assoc]
  exact (List.perm_append_comm.append_left _).append_left _

theorem Fits.mono {index' : Index} (h : Fits index node edge)
    (hcomponents : index.components.length ≤ index'.components.length)
    (hreferences : ∀ (i : Nat) reference, index.references[i]? = some reference →
      index'.references[i]? = some reference) : Fits index' node edge where
  owner := Nat.lt_of_lt_of_le h.owner hcomponents
  component child heq := by
    obtain ⟨hafter, hlt⟩ := h.component child heq
    exact ⟨hafter, Nat.lt_of_lt_of_le hlt hcomponents⟩
  reference i heq := by
    obtain ⟨reference, hget, howner, hkind⟩ := h.reference i heq
    exact ⟨reference, hreferences i reference hget, howner, hkind⟩

theorem Linked.pushEdge (h : Linked (pending ++ [edge.target]) index) (hfits : Fits index node edge) :
    Linked pending (index.pushEdge node edge) where
  components := by
    rw [length_pushEdge]
    exact h.components
  references := h.references
  ids id i := (h.ids id i).trans (ids_pushEdge i id).symm
  distinct := h.distinct
  once := by
    have hwritten : (index.pushEdge node edge).written = index.written := by
      rw [written, length_pushEdge]
      rfl
    rw [hwritten]
    have hmoved : List.Perm (index.edgeTargets ++ [edge.target] ++ pending)
        (index.edgeTargets ++ (pending ++ [edge.target])) := by
      rw [List.append_assoc]
      exact List.perm_append_comm.append_left _
    exact ((edgeTargets_pushEdge hfits.owner).append_right _).trans (hmoved.trans h.once)
  fits i component hcomponent edge' hedge' := by
    obtain ⟨before, hbefore, -, hedges⟩ := getElem?_pushEdge hcomponent
    have hlength := Nat.le_of_eq (length_pushEdge node edge index).symm
    obtain hold | ⟨rfl, rfl⟩ := hedges edge' hedge'
    · exact (h.fits i before hbefore edge' hold).mono hlength fun _ _ hget => hget
    · exact hfits.mono hlength fun _ _ hget => hget

theorem Linked.declare {entered : IndexedNode} {id : Option String} (h : Linked pending index)
    (hfew : index.components.length < maxComponents) (hid : entered.id = id)
    (hedges : entered.edges = []) (hnew : id.any (fun id => (index.ids.lookup id).isSome) = false) :
    Linked (pending ++ [.component index.components.length])
      { index with
        ids := index.ids ++ id.toList.map (fun id => (id, index.components.length))
        components := index.components ++ [entered] } where
  components := by
    rw [List.length_append, List.length_singleton]
    exact hfew
  references := h.references
  ids id' i := by
    simp only [List.mem_append, h.ids id' i, List.getElem?_append]
    by_cases hi : i < index.components.length
    · simp only [hi, if_true]
      refine or_iff_left ?_
      intro hmem
      obtain ⟨_, -, heq⟩ := List.mem_map.mp hmem
      exact Nat.lt_irrefl i ((Prod.mk.inj heq).2 ▸ hi)
    · simp only [hi, if_false, List.getElem?_eq_none (Nat.le_of_not_lt hi)]
      constructor
      · rintro (⟨component, hget, -⟩ | hmem)
        · cases hget
        · obtain ⟨id'', hid'', heq⟩ := List.mem_map.mp hmem
          obtain ⟨rfl, rfl⟩ := Prod.mk.inj heq
          refine ⟨entered, by rw [Nat.sub_self]; rfl, hid.trans (Option.mem_toList.mp hid'')⟩
      · rintro ⟨component, hget, hsome⟩
        obtain rfl := List.mem_singleton.mp (List.mem_of_getElem? hget)
        obtain ⟨hlt, -⟩ := List.getElem?_eq_some_iff.mp hget
        obtain rfl : i = index.components.length := by
          rw [List.length_singleton] at hlt
          omega
        exact .inr (List.mem_map.mpr ⟨id', Option.mem_toList.mpr (hid ▸ hsome), rfl⟩)
  distinct := by
    rw [List.map_append, List.nodup_append]
    cases id with
    | none => exact ⟨h.distinct, List.nodup_nil, by intro _ _ _ hmem; cases hmem⟩
    | some id =>
        refine ⟨h.distinct, List.nodup_singleton _, ?_⟩
        rintro id' hid' _ hmem rfl
        obtain rfl := List.mem_singleton.mp hmem
        obtain ⟨entry, hentry, rfl⟩ := List.mem_map.mp hid'
        have hnone : index.ids.lookup entry.1 = none := by
          simpa only [Option.any_some, Option.isSome_eq_false_iff, Option.isNone_iff_eq_none] using hnew
        have hne := List.lookup_eq_none_iff.mp hnone entry hentry
        rw [bne_self_eq_false] at hne
        cases hne
  once := by
    have hedge : edgeTargets { index with
        ids := index.ids ++ id.toList.map (fun id => (id, index.components.length))
        components := index.components ++ [entered] } = index.edgeTargets := by
      rw [edgeTargets, List.flatMap_append, List.flatMap_singleton, hedges, List.map_nil,
        List.append_nil]
      rfl
    rw [hedge, written, List.length_append, List.length_singleton, List.range_succ, List.map_append,
      ← List.append_assoc, List.map_singleton]
    refine (h.once.append_right _).trans ?_
    rw [written, List.append_assoc, List.append_assoc]
    exact List.perm_append_comm.append_left _
  fits i component hcomponent edge hedge := by
    have hlength : index.components.length ≤ (index.components ++ [entered]).length := by
      rw [List.length_append]
      exact Nat.le_add_right _ _
    by_cases hi : i < index.components.length
    · rw [List.getElem?_append_left hi] at hcomponent
      exact (h.fits i component hcomponent edge hedge).mono hlength fun _ _ hget => hget
    · rw [List.getElem?_append_right (Nat.le_of_not_lt hi)] at hcomponent
      obtain rfl := List.mem_singleton.mp (List.mem_of_getElem? hcomponent)
      rw [hedges] at hedge
      cases hedge

theorem Linked.reference {entered : IndexedReference} (h : Linked pending index)
    (hfew : index.references.length < maxReferences) :
    Linked (pending ++ [.reference index.references.length])
      { index with references := index.references ++ [entered] } where
  components := h.components
  references := by
    rw [List.length_append, List.length_singleton]
    exact hfew
  ids := h.ids
  distinct := h.distinct
  once := by
    rw [written, List.length_append, List.length_singleton, List.range_succ, List.map_append,
      ← List.append_assoc, ← List.append_assoc, List.map_singleton]
    exact h.once.append_right _
  fits i component hcomponent edge hedge := by
    refine (h.fits i component hcomponent edge hedge).mono (Nat.le_refl _) fun i reference hget => ?_
    obtain ⟨hlt, -⟩ := List.getElem?_eq_some_iff.mp hget
    exact (List.getElem?_append_left hlt).trans hget

theorem linked_rule : Rule readers.borrowing input (fun _ _ => True) Linked where
  member := by intros; trivial
  item := by intros; trivial
  declare value raw path kind index index' pending _ h hfew hok := by
    obtain ⟨id, range, -, -, hnew, rfl⟩ := declare_eq_ok hok
    exact h.declare hfew rfl rfl hnew
  reference owner value raw path kind index target index' pending _ h _ hok := by
    obtain ⟨hfew, rfl, entered, -, -, -, -, rfl⟩ := reference_eq_ok hok
    exact h.reference hfew
  pushEdge node edge index pending h hfits := h.pushEdge hfits

/-- **A built index is linked**, with the root as its only component without an owner. -/
theorem linked_of_build (h : build readers input options = .ok (value, index)) :
    Linked [.component 0] index := by
  obtain ⟨value', -, h⟩ := bind_eq_ok.mp h
  obtain ⟨kind, -, h⟩ := bind_eq_ok.mp h
  obtain ⟨validation, -, h⟩ := bind_eq_ok.mp h
  obtain ⟨⟨start, text⟩, -, h⟩ := bind_eq_ok.mp h
  obtain ⟨⟨node, index'⟩, hcomponent, h⟩ := bind_eq_ok.mp h
  obtain ⟨rfl, rfl⟩ := Prod.mk.inj (Except.ok.inj h)
  obtain ⟨rfl, -, hlinked⟩ := visits_component linked_rule (maxComponents + 1) value' _ [] kind empty
    node index' [] trivial linked_empty hcomponent
  exact hlinked

end Linked

/-! ### What resolution gives -/

section Resolve

variable {S R : Type}

/-- A `ComponentGraph`, with the targets of its references beside them. -/
structure Resolution where
  index : Index
  targets : List (Option Nat)
  traversal : List Nat

/-- `ComponentGraph::resolve`. -/
def resolve (readers : Readers S R) (input : SubmittedBytes) (options : CountReferenceSchema) :
    Except ReferenceError Resolution := do
  let (_, index) ← build readers input options
  let targets ← index.resolveTargets
  let traversal ← traverse index targets
  .ok ⟨index, targets, traversal⟩

variable {readers : Readers S R} {input : SubmittedBytes} {options : CountReferenceSchema}
variable {index : Index} {targets : List (Option Nat)} {resolution : Resolution} {node target : Nat}
variable {element : Bool}

/-- The three passes of resolution. -/
theorem resolve_passes : resolve readers input options = .ok resolution ↔
    (∃ value, build readers input options = .ok (value, resolution.index)) ∧
    resolution.index.resolveTargets = .ok resolution.targets ∧
    traverse resolution.index resolution.targets = .ok resolution.traversal := by
  constructor
  · intro h
    obtain ⟨⟨value, index⟩, hbuild, h⟩ := bind_eq_ok.mp h
    obtain ⟨targets, htargets, h⟩ := bind_eq_ok.mp h
    obtain ⟨traversal, htraverse, h⟩ := bind_eq_ok.mp h
    obtain rfl := Except.ok.inj h
    exact ⟨⟨value, hbuild⟩, htargets, htraverse⟩
  · rintro ⟨⟨value, hbuild⟩, htargets, htraverse⟩
    exact bind_eq_ok.mpr ⟨_, hbuild, bind_eq_ok.mpr ⟨_, htargets, bind_eq_ok.mpr ⟨_, htraverse, rfl⟩⟩⟩

theorem root_of_once {pending : List IndexedTarget}
    (h : (index.edgeTargets ++ (.component 0 :: pending)).Perm index.written) :
    0 < index.components.length := by
  have hroot : IndexedTarget.component 0 ∈ index.written :=
    h.mem_iff.mp (List.mem_append_right _ List.mem_cons_self)
  obtain hroot | hroot := List.mem_append.mp hroot
  · obtain ⟨i, hi, heq⟩ := List.mem_map.mp hroot
    obtain rfl := IndexedTarget.component.inj heq
    exact List.mem_range.mp hi
  · obtain ⟨i, -, heq⟩ := List.mem_map.mp hroot
    cases heq

/-- Every component is written below the root. -/
theorem Linked.reached (h : Linked [.component 0] index) (hnode : node < index.components.length) :
    ReflTransGen (Leads index targets) 0 node := by
  induction node using Nat.strong_induction_on with
  | h node ih =>
      by_cases hzero : node = 0
      · rw [hzero]
      · have hmem : IndexedTarget.component node ∈ index.edgeTargets ++ [.component 0] :=
          h.once.mem_iff.mpr (List.mem_append_left _ (List.mem_map_of_mem (List.mem_range.mpr hnode)))
        obtain hmem | hmem := List.mem_append.mp hmem
        · obtain ⟨owner, howner, hmem⟩ := List.mem_flatMap.mp hmem
          obtain ⟨edge, hedge, htarget⟩ := List.mem_map.mp hmem
          obtain ⟨i, hi⟩ := List.mem_iff_getElem?.mp howner
          have hfits := h.fits i owner hi edge hedge
          obtain ⟨hlt, -⟩ := hfits.component node htarget
          refine (ih i hlt hfits.owner).tail ⟨edge, ?_, ?_⟩
          · rw [edgesOf, hi]
            exact hedge
          · rw [targetOf, htarget]
        · exact absurd (IndexedTarget.component.inj (List.mem_singleton.mp hmem)) hzero

/-- A reference and what it resolves to. -/
theorem resolveTargets_getElem? (h : index.resolveTargets = .ok targets) {i : Nat}
    {reference : IndexedReference} (hget : index.references[i]? = some reference) :
    ∃ target, targets[i]? = some target ∧ index.resolveTarget reference = .ok target := by
  obtain ⟨hlength, hall⟩ := List.forall₂_iff_get.mp (mapM_eq_ok.mp h)
  obtain ⟨hlt, rfl⟩ := List.getElem?_eq_some_iff.mp hget
  exact ⟨targets[i], List.getElem?_eq_getElem _, hall i hlt (hlength ▸ hlt)⟩

/-- What a local reference leads to. -/
structure LeadsTo (index : Index) (reference : IndexedReference) (fragment : String)
    (target : Nat) : Prop where
  component : ∃ component, index.components[target]? = some component ∧
    (∃ id, decodeFragment fragment = .ok id ∧ component.id = some id) ∧
    targetAllowed reference.kind component.kind = true

theorem Linked.resolveTarget {pending : List IndexedTarget} (h : Linked pending index)
    {reference : IndexedReference} {target : Option Nat}
    (hresolve : index.resolveTarget reference = .ok target) :
    (localFragment reference.href = none ∧ target = none) ∨
      ∃ fragment node, localFragment reference.href = some fragment ∧ target = some node ∧
        LeadsTo index reference fragment node := by
  rw [Index.resolveTarget] at hresolve
  split at hresolve
  next hhref => exact .inl ⟨hhref, (Except.ok.inj hresolve).symm⟩
  next fragment hhref =>
    obtain ⟨id, hid, hresolve⟩ := bind_eq_ok.mp hresolve
    split at hresolve
    · cases hresolve
    next node hlookup =>
      split at hresolve
      next hallowed =>
        obtain rfl := Except.ok.inj hresolve
        obtain ⟨before, after, hsplit, -⟩ := List.lookup_eq_some_iff.mp hlookup
        obtain ⟨component, hcomponent, hid'⟩ := (h.ids id node).mp
          (hsplit ▸ List.mem_append_right before List.mem_cons_self)
        rw [hcomponent, Option.any_some] at hallowed
        exact .inr ⟨fragment, node, hhref, rfl, ⟨component, hcomponent, ⟨id, hid, hid'⟩, hallowed⟩⟩
      · cases hresolve

/-- **Resolved documents.** -/
structure Resolved (index : Index) (targets : List (Option Nat)) (traversal : List Nat) :
    Prop where
  components : index.components.length ≤ maxComponents
  references : index.references.length ≤ maxReferences
  /-- Component ids are unique. -/
  unique : ∀ id (i j : Nat) component component', index.components[i]? = some component →
    index.components[j]? = some component' → component.id = some id → component'.id = some id → i = j
  /-- Local references lead to the component with their decoded id. -/
  locals : ∀ (i : Nat) reference fragment, index.references[i]? = some reference →
    localFragment reference.href = some fragment →
    ∃ target, targets[i]? = some (some target) ∧ LeadsTo index reference fragment target
  nonlocals : ∀ (i : Nat) reference, index.references[i]? = some reference →
    localFragment reference.href = none → targets[i]? = some none
  /-- Everything but the root is written in exactly one place, after its owner. -/
  once : (index.edgeTargets ++ [IndexedTarget.component 0]).Perm index.written
  fits : ∀ node component, index.components[node]? = some component →
    ∀ edge ∈ component.edges, Fits index node edge
  acyclic : ∀ node, ¬ TransGen (Leads index targets) node node
  inside : ∀ node target, Leads index targets node target → target < index.components.length
  /-- The traversal is the whole unfolding of the root, however deep it is followed. -/
  unfolded : ∀ depth, maxTraversalDepth ≤ depth → descend index targets depth 0 = traversal
  steps : traversal.length ≤ maxTraversalSteps
  listed : ∀ node, node ∈ traversal ↔ node < index.components.length
  permitted : ∀ node element, Context index targets node element →
    ∀ edge ∈ index.edgesOf node, ∀ target, targetOf targets edge = some target →
      Permitted index node element edge.slot target

theorem Linked.unique {pending : List IndexedTarget} (h : Linked pending index) {id : String}
    {i j : Nat} {component component' : IndexedNode} (hi : index.components[i]? = some component)
    (hj : index.components[j]? = some component') (hid : component.id = some id)
    (hid' : component'.id = some id) : i = j := by
  have hmem := (h.ids id i).mpr ⟨component, hi, hid⟩
  have hmem' := (h.ids id j).mpr ⟨component', hj, hid'⟩
  exact (Prod.mk.inj (List.inj_on_of_nodup_map h.distinct hmem hmem' rfl)).2

theorem Linked.inside (h : Linked [.component 0] index) (htargets : index.resolveTargets = .ok targets)
    (hleads : Leads index targets node target) : target < index.components.length := by
  obtain ⟨edge, hedge, htarget⟩ := hleads
  rw [edgesOf] at hedge
  cases hnode : index.components[node]? with
  | none =>
      rw [hnode] at hedge
      cases hedge
  | some component =>
      rw [hnode] at hedge
      have hfits := h.fits node component hnode edge hedge
      rw [targetOf] at htarget
      split at htarget
      next child hchild =>
        obtain rfl := Option.some.inj htarget
        exact (hfits.component _ hchild).2
      next i hreference =>
        obtain ⟨reference, hget, -⟩ := hfits.reference i hreference
        obtain ⟨target', hget', hresolve⟩ := resolveTargets_getElem? htargets hget
        rw [hget'] at htarget
        obtain rfl : target' = some target := htarget
        obtain ⟨-, hnone⟩ | ⟨fragment, node', -, hsome, hleads⟩ := h.resolveTarget hresolve
        · cases hnone
        · obtain rfl := Option.some.inj hsome
          obtain ⟨component, hcomponent, -⟩ := hleads.component
          exact (List.getElem?_eq_some_iff.mp hcomponent).1

/-- **What resolution establishes** of a document. -/
theorem resolved_of_resolve (h : resolve readers input options = .ok resolution) :
    Resolved resolution.index resolution.targets resolution.traversal := by
  obtain ⟨⟨value, hbuild⟩, htargets, htraverse⟩ := resolve_passes.mp h
  obtain ⟨hshort, hpermitted, htraversal, hsteps⟩ := traverse_eq_ok.mp htraverse
  have hlinked := linked_of_build hbuild
  have hsound := contexts_sound.mpr hshort
  have hlisted : ∀ node, node ∈ resolution.traversal ↔
      ReflTransGen (Leads resolution.index resolution.targets) 0 node := by
    intro node
    rw [htraversal]
    exact mem_descend hsound
  refine
    { components := hlinked.components
      references := hlinked.references
      unique := fun id i j component component' hi hj hid hid' => hlinked.unique hi hj hid hid'
      locals := fun i reference fragment hget hhref => ?_
      nonlocals := fun i reference hget hhref => ?_
      once := hlinked.once
      fits := hlinked.fits
      acyclic := fun node hcycle => ?_
      inside := fun node target hleads => hlinked.inside htargets hleads
      unfolded := fun depth hdepth => ?_
      steps := hsteps
      listed := fun node => ?_
      permitted := hpermitted }
  · obtain ⟨target, hget', hresolve⟩ := resolveTargets_getElem? htargets hget
    obtain ⟨hnone, -⟩ | ⟨fragment', node, hsome, rfl, hleads⟩ := hlinked.resolveTarget hresolve
    · rw [hnone] at hhref
      cases hhref
    · obtain rfl := Option.some.inj (hhref.symm.trans hsome)
      exact ⟨node, hget', hleads⟩
  · obtain ⟨target, hget', hresolve⟩ := resolveTargets_getElem? htargets hget
    obtain ⟨-, rfl⟩ | ⟨fragment', node, hsome, -, -⟩ := hlinked.resolveTarget hresolve
    · exact hget'
    · rw [hsome] at hhref
      cases hhref
  · have hnode : node < resolution.index.components.length := by
      obtain ⟨next, ⟨edge, hedge, -⟩, -⟩ := TransGen.head'_iff.mp hcycle
      by_contra hle
      rw [edgesOf, List.getElem?_eq_none (Nat.le_of_not_lt hle)] at hedge
      cases hedge
    exact no_cycle hsound (hlinked.reached hnode) hcycle
  · rw [htraversal, descend_deeper hsound hdepth]
  · rw [hlisted]
    constructor
    · intro hreach
      obtain rfl | ⟨before, -, hleads⟩ := hreach.cases_tail
      · exact root_of_once hlinked.once
      · exact hlinked.inside htargets hleads
    · exact fun hlt => hlinked.reached hlt

end Resolve

end Index

end Standards
end Glaux
