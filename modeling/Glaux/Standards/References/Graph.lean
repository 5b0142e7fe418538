import Glaux.Standards.Quality.Occurrences
import Glaux.Standards.References.Resolution
import Glaux.Standards.References.Sources

/-!
# The graph of a resolved document

Indices within a resolved document are in range, so it is a component graph: the structure the
passes over a document are stated for.
-/

namespace Glaux
namespace Standards

open Library Relation

/-- The components below one of a graph in preorder, down to a depth. -/
def ComponentGraph.unfold {n m : Nat} (g : ComponentGraph n m) :
    Nat → Fin (n + 1) → List (Fin (n + 1))
  | 0, _ => []
  | depth + 1, node =>
      node :: ((g.edges node).filterMap g.target).flatMap (g.unfold depth)

namespace Index

variable {index : Index} {targets : List (Option Nat)} {traversal : List Nat} {n : Nat}

/-- An edge with its indices in range. -/
def edgeIn (hn : index.components.length = n + 1) {node : Nat} (edge : IndexedEdge)
    (h : Fits index node edge) : Edge (n + 1) index.references.length where
  target :=
    match htarget : edge.target with
    | .component child => .component ⟨child, hn ▸ (h.component child htarget).2⟩
    | .reference i => .reference ⟨i, by
        obtain ⟨reference, hget, -⟩ := h.reference i htarget
        exact (List.getElem?_eq_some_iff.mp hget).1⟩
  slot := edge.slot

/-- The target of a reference; one that is not local has none. -/
def targetIn (n : Nat) : Option Nat → ReferenceTarget (n + 1)
  | some target => if h : target < n + 1 then .localTo ⟨target, h⟩ else .nonlocal
  | none => .nonlocal

/-- A target without its range. -/
def indexed {m : Nat} : EdgeTarget (n + 1) m → IndexedTarget
  | .component node => .component node
  | .reference i => .reference i

theorem indexed_edgeIn (hn : index.components.length = n + 1) {node : Nat} {edge : IndexedEdge}
    (h : Fits index node edge) : indexed (edgeIn hn edge h).target = edge.target := by
  rw [edgeIn]
  split
  next child htarget => exact htarget.symm
  next i htarget => exact htarget.symm

theorem indexed_injective {m : Nat} : Function.Injective (indexed (n := n) (m := m)) := by
  intro target target' h
  cases target with
  | component node =>
      cases target' with
      | component node' => rw [Fin.ext (IndexedTarget.component.inj h)]
      | reference i' => cases h
  | reference i =>
      cases target' with
      | component node' => cases h
      | reference i' => rw [Fin.ext (IndexedTarget.reference.inj h)]

section Build

variable {m : Nat}

/-- A resolved document as a component graph. -/
structure Represents (g : ComponentGraph n m) (bytes : Bytes) (index : Index)
    (targets : List (Option Nat)) (traversal : List Nat) : Prop where
  size : index.components.length = n + 1
  count : index.references.length = m
  components : ∀ node : Fin (n + 1), ∃ component, index.components[node.val]? = some component ∧
    g.components node = ⟨component.name, component.kind, component.source.slice bytes⟩
  references : ∀ i : Fin m, ∃ reference, index.references[i.val]? = some reference ∧
    (g.references i).owner.val = reference.owner ∧ (g.references i).kind = reference.kind ∧
    (g.references i).name = reference.name
  edges : ∀ node : Fin (n + 1),
    (g.edges node).map (fun edge => (edge.slot, indexed edge.target)) =
      (index.edgesOf node).map fun edge => (edge.slot, edge.target)
  targets : ∀ node : Fin (n + 1), (g.edges node).map (fun edge => (g.target edge).map Fin.val) =
    (index.edgesOf node).map (targetOf targets)
  traversal : (g.unfold maxTraversalDepth 0).map Fin.val = traversal

theorem Resolved.owner (h : Resolved index targets traversal) {i : Nat}
    (hi : i < index.references.length) : index.references[i].owner < index.components.length := by
  have hmem : IndexedTarget.reference i ∈ index.edgeTargets ++ [.component 0] :=
    h.once.mem_iff.mpr (List.mem_append_right _ (List.mem_map_of_mem (List.mem_range.mpr hi)))
  obtain hmem | hmem := List.mem_append.mp hmem
  · obtain ⟨component, hcomponent, hmem⟩ := List.mem_flatMap.mp hmem
    obtain ⟨edge, hedge, htarget⟩ := List.mem_map.mp hmem
    obtain ⟨node, hnode⟩ := List.mem_iff_getElem?.mp hcomponent
    have hfits := h.fits node component hnode edge hedge
    obtain ⟨reference, hget, howner, -⟩ := hfits.reference i htarget
    obtain ⟨hlt, heq⟩ := List.getElem?_eq_some_iff.mp hget
    rw [heq, howner]
    exact hfits.owner
  · cases List.mem_singleton.mp hmem

theorem written_nodup : index.written.Nodup := by
  refine List.nodup_append.mpr ⟨?_, ?_, ?_⟩
  · exact List.nodup_range.map fun _ _ h => IndexedTarget.component.inj h
  · exact List.nodup_range.map fun _ _ h => IndexedTarget.reference.inj h
  · rintro target htarget target' htarget' rfl
    obtain ⟨node, -, rfl⟩ := List.mem_map.mp htarget
    obtain ⟨i, -, heq⟩ := List.mem_map.mp htarget'
    cases heq

section Graph

variable (h : Resolved index targets traversal) (hn : index.components.length = n + 1)

/-- A component by its index in range. -/
def componentAt (node : Fin (n + 1)) : IndexedNode := index.components.get (node.cast hn.symm)

theorem componentAt_eq (node : Fin (n + 1)) :
    index.components[node.val]? = some (componentAt hn node) := List.getElem?_eq_getElem _

theorem edgesOf_componentAt (node : Fin (n + 1)) :
    index.edgesOf node = (componentAt hn node).edges := by
  rw [edgesOf, componentAt_eq hn node]
  rfl

/-- The edges of a component with their indices in range. -/
def edgesIn (node : Fin (n + 1)) : List (Edge (n + 1) index.references.length) :=
  (componentAt hn node).edges.attach.map fun edge =>
    edgeIn hn edge.1 (h.fits node _ (componentAt_eq hn node) edge.1 edge.2)

theorem edgesIn_map {α : Type} (node : Fin (n + 1)) (f : Slot → IndexedTarget → α) :
    (edgesIn h hn node).map (fun edge => f edge.slot (indexed edge.target)) =
      (index.edgesOf node).map fun edge => f edge.slot edge.target := by
  have hattach : (componentAt hn node).edges.attach.map (fun edge => f edge.1.slot edge.1.target) =
      (componentAt hn node).edges.map fun edge => f edge.slot edge.target := by
    conv_rhs => rw [← List.attach_map_subtype_val (componentAt hn node).edges, List.map_map]
    rfl
  rw [edgesIn, List.map_map, edgesOf_componentAt hn, ← hattach]
  refine List.map_congr_left fun edge hedge => ?_
  simp only [Function.comp, indexed_edgeIn]
  rfl

theorem mem_edgesIn {node : Fin (n + 1)} {edge : Edge (n + 1) index.references.length}
    (hedge : edge ∈ edgesIn h hn node) :
    ∃ edge' ∈ (componentAt hn node).edges, edge.slot = edge'.slot ∧
      indexed edge.target = edge'.target ∧ Fits index node edge' := by
  obtain ⟨⟨edge', hedge'⟩, -, rfl⟩ := List.mem_map.mp hedge
  exact ⟨edge', hedge', rfl, indexed_edgeIn hn _, h.fits node _ (componentAt_eq hn node) edge' hedge'⟩

theorem edgesIn_nodup : ((List.finRange (n + 1)).flatMap fun node =>
    (edgesIn h hn node).map (·.target)).Nodup := by
  refine List.Nodup.of_map indexed ?_
  have hmap : ((List.finRange (n + 1)).flatMap fun node =>
      (edgesIn h hn node).map (·.target)).map indexed = index.edgeTargets := by
    rw [List.map_flatMap, edgeTargets]
    have hcomponents : index.components = (List.finRange (n + 1)).map (componentAt hn) := by
      refine List.ext_getElem ?_ fun i hi hi' => ?_
      · rw [List.length_map, List.length_finRange, hn]
      · rw [List.getElem_map, List.getElem_finRange]
        rfl
    conv_rhs => rw [hcomponents, List.flatMap_map]
    refine List.flatMap_congr fun node _ => ?_
    rw [List.map_map, ← edgesOf_componentAt hn]
    exact edgesIn_map h hn node fun _ target => target
  rw [hmap]
  exact (List.nodup_append.mp (h.once.nodup_iff.mpr written_nodup)).1

/-- The component graph of a resolved document. -/
def graphOf (bytes : Bytes) : ComponentGraph n index.references.length where
  components node :=
    ⟨(componentAt hn node).name, (componentAt hn node).kind, (componentAt hn node).source.slice bytes⟩
  references i :=
    ⟨⟨index.references[i.val].owner, hn ▸ h.owner i.isLt⟩, index.references[i.val].kind,
      index.references[i.val].name, targetIn n (targets[i.val]?).join⟩
  edges := edgesIn h hn
  inline_after node edge hedge child htarget := by
    obtain ⟨edge', -, -, htarget', hfits⟩ := mem_edgesIn h hn hedge
    rw [htarget] at htarget'
    exact (hfits.component child.val htarget'.symm).1
  targets_nodup := edgesIn_nodup h hn
  owned node edge hedge i htarget := by
    obtain ⟨edge', -, hslot, htarget', hfits⟩ := mem_edgesIn h hn hedge
    rw [htarget] at htarget'
    obtain ⟨reference, hget, howner, hkind⟩ := hfits.reference i.val htarget'.symm
    obtain ⟨hlt, heq⟩ := List.getElem?_eq_some_iff.mp hget
    refine ⟨Fin.ext ?_, fun hquality => ?_⟩
    · show index.references[i.val].owner = node.val
      rw [heq, howner]
    · show index.references[i.val].kind = .quality
      rw [heq]
      exact hkind (hslot ▸ hquality)

/-- The graph unfolds as its document does. -/
theorem graphOf_target (bytes : Bytes) (node : Fin (n + 1)) :
    ((graphOf h hn bytes).edges node).map
        (fun edge => ((graphOf h hn bytes).target edge).map Fin.val) =
      (index.edgesOf node).map (targetOf targets) := by
  have hedges : ∀ edge ∈ edgesIn h hn node,
      ((graphOf h hn bytes).target edge).map Fin.val =
        targetOf targets ⟨indexed edge.target, edge.slot⟩ := by
    rintro ⟨target, slot⟩ hedge
    obtain ⟨edge', hedge', -, htarget', -⟩ := mem_edgesIn h hn hedge
    cases target with
    | component child => rfl
    | reference i =>
        have hin : ∀ target, (targets[i.val]?).join = some target → target < n + 1 := by
          intro target htarget
          refine hn ▸ h.inside node target ⟨edge', ?_, ?_⟩
          · rw [edgesOf_componentAt hn]
            exact hedge'
          · rw [targetOf, ← htarget']
            exact htarget
        rw [ComponentGraph.target, targetOf, graphOf]
        simp only [indexed]
        cases htarget : (targets[i.val]?).join with
        | none => rfl
        | some target => simp only [targetIn, dif_pos (hin target htarget), Option.map_some]
  rw [← edgesIn_map h hn node fun slot target => targetOf targets ⟨target, slot⟩]
  exact List.map_congr_left hedges

theorem graphOf_unfold (bytes : Bytes) (depth : Nat) (node : Fin (n + 1)) :
    ((graphOf h hn bytes).unfold depth node).map Fin.val = descend index targets depth node := by
  induction depth generalizing node with
  | zero => rfl
  | succ depth ih =>
      have hchildren : (((graphOf h hn bytes).edges node).filterMap
          (graphOf h hn bytes).target).map Fin.val =
          (index.edgesOf node).filterMap (targetOf targets) := by
        have htargets := congrArg (List.filterMap id) (graphOf_target h hn bytes node)
        rw [List.filterMap_map, List.filterMap_map] at htargets
        rw [List.map_filterMap]
        exact htargets
      rw [ComponentGraph.unfold, descend, List.map_cons, List.map_flatMap, ← hchildren,
        List.flatMap_map]
      congr 1
      exact List.flatMap_congr fun next _ => ih next

theorem graphOf_represents (bytes : Bytes) :
    Represents (graphOf h hn bytes) bytes index targets traversal where
  size := hn
  count := rfl
  components node := ⟨componentAt hn node, componentAt_eq hn node, rfl⟩
  references i := ⟨index.references[i.val], List.getElem?_eq_getElem i.isLt, rfl, rfl, rfl⟩
  edges node := edgesIn_map h hn node fun slot target => (slot, target)
  targets := graphOf_target h hn bytes
  traversal := (graphOf_unfold h hn bytes maxTraversalDepth 0).trans
    (h.unfolded maxTraversalDepth (Nat.le_refl _))

end Graph

section Represented

variable {S R : Type} {readers : Readers S R} {input : SubmittedBytes}
variable {options : CountReferenceSchema} {resolution : Resolution}

theorem size_of_resolve (h : resolve readers input options = .ok resolution) :
    resolution.index.components.length = resolution.index.components.length - 1 + 1 := by
  have hroot : 0 < resolution.index.components.length :=
    root_of_once (resolved_of_resolve h).once
  omega

/-- **Resolution is sound**: what it returns is a graph of unique declarations, each written once
below the root, whose traversal is the whole unfolding. -/
theorem resolve_sound (h : resolve readers input options = .ok resolution) :
    Resolved resolution.index resolution.targets resolution.traversal ∧
      ∃ n m, ∃ g : ComponentGraph n m, Represents g input.bytes resolution.index
        resolution.targets resolution.traversal := by
  have hresolved := resolved_of_resolve h
  exact ⟨hresolved, _, _, graphOf hresolved (size_of_resolve h) input.bytes,
    graphOf_represents hresolved (size_of_resolve h) input.bytes⟩

theorem sample_traverse : traverse sampleIndex [] = .ok [0, 1, 2] := by
  simp [traverse, traverseFrom, sampleIndex, edgesOf, edgeOutcome, targetOf, elementOf,
    maxTraversalDepth, maxTraversalSteps]

/-- The record and its fields. -/
theorem resolve_sound_fields : Resolved sampleIndex [] [0, 1, 2] ∧
    ∃ n m, ∃ g : ComponentGraph n m, Represents g sampleBytes.bytes sampleIndex [] [0, 1, 2] := by
  have hresolve : resolve sampleReaders sampleBytes .original = .ok ⟨sampleIndex, [], [0, 1, 2]⟩ :=
    bind_eq_ok.mpr ⟨_, sample_build, bind_eq_ok.mpr ⟨[], rfl, bind_eq_ok.mpr ⟨_, sample_traverse, rfl⟩⟩⟩
  exact resolve_sound hresolve

end Represented

end Build

end Index

end Standards
end Glaux
