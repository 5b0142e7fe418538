import Glaux.Standards.Compiled

/-!
# Plans of compiled contracts (`compiled.rs`)

A table of nodes only grows, and a node that has been left is complete: its bindings stand in the
order of its edges and lead to the nodes of their targets.  So a plan is the graph it was compiled
from, with one node for each declaration and inherited frame that can be reached.
-/

namespace Glaux
namespace Standards
namespace Compiled

open Library Relation
open Library.Unfolding (Graph followed)

variable {Sc Ra Ge C ER EG : Type} {n m : Nat}

section Keys

def CompiledNode.key (node : CompiledNode Sc Ra Ge C n m) : Key n :=
  (node.declaration, node.inheritedFrame)

/-- The declarations and frames of nodes, in order. -/
def keys (nodes : List (CompiledNode Sc Ra Ge C n m)) : List (Key n) := nodes.map (·.key)

/-- The sources of declarations together, each as often as it is met. -/
def cost (g : ComponentGraph n m) (keys : List (Key n)) : Nat :=
  (keys.map fun key => (g.components key.1).source.length).sum

variable (leaves : Leaves Sc Ra Ge C ER EG) (g : ComponentGraph n m)

/-- An edge between declarations under the frames they inherit. -/
def Meets (key next : Key n) : Prop :=
  ∃ own described, describe leaves g key.1 key.2 = .ok (own, described) ∧
    ∃ edge ∈ g.edges key.1, g.target edge = some next.1 ∧
      next.2 = childFrame (g.components key.1).kind own key.2 edge.slot

/-- The binding of an edge, among nodes with these keys. -/
structure Binds (keys : List (Key n)) (key : Key n) (own : Option String)
    (edge : Edge (n + 1) m) (binding : CompiledBinding m) : Prop where
  slot : binding.slot = edge.slot
  name : binding.name = g.edgeName edge
  known : ∀ target, g.target edge = some target → ∃ i, binding.target = .localTo i ∧
    keys[i]? = some (target, childFrame (g.components key.1).kind own key.2 edge.slot)
  unknown : g.target edge = none → ∃ reference, edge.target = .reference reference ∧
    binding.target = .nonlocal reference

/-- A node with the meaning of its declaration and a binding for every edge. -/
structure Complete (keys : List (Key n)) (node : CompiledNode Sc Ra Ge C n m) : Prop where
  described : ∃ own bindings,
    describe leaves g node.declaration node.inheritedFrame =
      .ok (own, { node with bindings := bindings }) ∧ bindings = [] ∧
    List.Forall₂ (Binds g keys node.key own) (g.edges node.declaration) node.bindings

/-- What a table keeps, from the budget it was started with. -/
structure Table.Kept (start : Budget) (table : Table Sc Ra Ge C n m) : Prop where
  indices : table.indices = (keys table.nodes).zipIdx
  distinct : (keys table.nodes).Nodup
  bytes : table.budget.sourceBytes = start.sourceBytes + cost g (keys table.nodes)
  contexts : table.budget.contexts = start.contexts + (keys table.nodes).length
  within : table.budget.sourceBytes ≤ maxCompiledSourceBytes ∧
    table.budget.contexts ≤ maxTraversalSteps

/-- A key has been visited: its node is in the table, and what has been added is complete. -/
structure Visited (start : Budget) (root key : Key n) (table : Table Sc Ra Ge C n m) (index : Nat)
    (table' : Table Sc Ra Ge C n m) : Prop where
  kept : table'.Kept g start
  found : (keys table'.nodes)[index]? = some key
  first : key ∉ keys table.nodes → index = table.nodes.length
  grown : ∃ added, table'.nodes = table.nodes ++ added ∧
    ∀ node ∈ added, Complete leaves g (keys table'.nodes) node ∧
      ReflTransGen (Meets leaves g) root node.key

/-- `Builder::node` below visits its keys. -/
def Visits (start : Budget) (root : Key n) (visit : Visit Sc Ra Ge C ER EG n m) : Prop :=
  ∀ key table index table', table.Kept g start → ReflTransGen (Meets leaves g) root key →
    visit key table = .ok (index, table') → Visited leaves g start root key table index table'

end Keys

section Table

variable {leaves : Leaves Sc Ra Ge C ER EG} {g : ComponentGraph n m} {start : Budget}
variable {table table' : Table Sc Ra Ge C n m} {key root : Key n} {index : Nat}
variable {own : Option String} {keys₁ keys₂ : List (Key n)}

theorem Binds.mono {edge : Edge (n + 1) m} {binding : CompiledBinding m}
    (h : Binds g keys₁ key own edge binding) (hfront : keys₁ <+: keys₂) :
    Binds g keys₂ key own edge binding where
  slot := h.slot
  name := h.name
  known target htarget := by
    obtain ⟨i, hi, hkey⟩ := h.known target htarget
    obtain ⟨rest, rfl⟩ := hfront
    obtain ⟨hlt, -⟩ := List.getElem?_eq_some_iff.mp hkey
    exact ⟨i, hi, (List.getElem?_append_left hlt).trans hkey⟩
  unknown := h.unknown

theorem Complete.mono {node : CompiledNode Sc Ra Ge C n m} (h : Complete leaves g keys₁ node)
    (hfront : keys₁ <+: keys₂) : Complete leaves g keys₂ node := by
  obtain ⟨own, bindings, hdescribe, hempty, hbinds⟩ := h.described
  exact ⟨own, bindings, hdescribe, hempty, hbinds.imp fun _ _ hbind => hbind.mono hfront⟩

/-- The index finds the nodes of the table. -/
theorem Table.Kept.lookup (h : table.Kept g start) :
    table.indices.lookup key = some index ↔ (keys table.nodes)[index]? = some key := by
  rw [h.indices]
  constructor
  · intro hlookup
    obtain ⟨before, after, hsplit, -⟩ := List.lookup_eq_some_iff.mp hlookup
    have hmem : (key, index) ∈ (keys table.nodes).zipIdx :=
      hsplit ▸ List.mem_append_right before List.mem_cons_self
    exact List.mem_zipIdx_iff_getElem?.mp hmem
  · intro hget
    have hmem : (key, index) ∈ (keys table.nodes).zipIdx := List.mem_zipIdx_iff_getElem?.mpr hget
    cases hlookup : (keys table.nodes).zipIdx.lookup key with
    | none =>
        have hne := List.lookup_eq_none_iff.mp hlookup _ hmem
        simp at hne
    | some index' =>
        obtain ⟨before, after, hsplit, -⟩ := List.lookup_eq_some_iff.mp hlookup
        have hmem' : (key, index') ∈ (keys table.nodes).zipIdx :=
          hsplit ▸ List.mem_append_right before List.mem_cons_self
        have hget' := List.mem_zipIdx_iff_getElem?.mp hmem'
        obtain ⟨hlt, -⟩ := List.getElem?_eq_some_iff.mp hget
        exact congrArg some ((List.getElem?_inj hlt h.distinct).mp (hget.trans hget'.symm)).symm

theorem context_eq_ok {budget budget' : Budget} {bytes : Nat}
    (h : budget.context bytes = (.ok budget' : Except (CompileError ER EG) Budget)) :
    budget' = ⟨budget.sourceBytes + bytes, budget.contexts + 1⟩ ∧
      budget'.sourceBytes ≤ maxCompiledSourceBytes ∧ budget'.contexts ≤ maxTraversalSteps := by
  rw [Budget.context] at h
  split at h
  · cases h
  next hfew =>
    rw [Budget.source] at h
    split at h
    next hsmall =>
      obtain rfl := Except.ok.inj h
      exact ⟨rfl, hsmall, Nat.le_of_not_lt hfew⟩
    · cases h

/-- A new node, which is paid for. -/
theorem Table.Kept.enter (h : table.Kept g start) {described : CompiledNode Sc Ra Ge C n m}
    {budget : Budget} (hnew : described.key ∉ keys table.nodes)
    (hbudget : table.budget.context (g.components described.declaration).source.length =
      (.ok budget : Except (CompileError ER EG) Budget)) :
    (table.enter budget described).Kept g start := by
  obtain ⟨hbudget, hbytes, hcontexts⟩ := context_eq_ok hbudget
  have hkeys : keys (table.enter budget described).nodes = keys table.nodes ++ [described.key] := by
    rw [Table.enter, keys, List.map_append]
    rfl
  refine ⟨?_, ?_, ?_, ?_, hbytes, hcontexts⟩
  · rw [hkeys, List.zipIdx_append, ← h.indices, keys, List.length_map, Nat.zero_add]
    rfl
  · rw [hkeys]
    exact List.nodup_append.mpr ⟨h.distinct, List.nodup_singleton _, fun key hkey key' hkey' heq =>
      hnew ((List.mem_singleton.mp hkey') ▸ heq ▸ hkey)⟩
  · have hcost : cost g (keys table.nodes ++ [described.key]) =
        cost g (keys table.nodes) + (g.components described.declaration).source.length := by
      rw [cost, List.map_append, List.sum_append]
      rfl
    show budget.sourceBytes = _
    rw [hkeys, hcost, hbudget]
    show table.budget.sourceBytes + _ = _
    rw [h.bytes, Nat.add_assoc]
  · show budget.contexts = _
    rw [hkeys, List.length_append, hbudget]
    show table.budget.contexts + 1 = _
    rw [h.contexts]
    rfl

theorem keys_bind (binding : CompiledBinding m) :
    keys (table.bind index binding).nodes = keys table.nodes := by
  refine List.ext_getElem? fun i => ?_
  rw [keys, keys, List.getElem?_map, List.getElem?_map, Table.bind, List.getElem?_modify]
  cases table.nodes[i]? with
  | none => rfl
  | some node =>
      show some (CompiledNode.key (if index = i then _ else node)) = some node.key
      split
      · rfl
      · rfl

theorem Table.Kept.bind (h : table.Kept g start) (binding : CompiledBinding m) :
    (table.bind index binding).Kept g start := by
  refine ⟨?_, ?_, ?_, ?_, h.within⟩
  · rw [keys_bind]
    exact h.indices
  · rw [keys_bind]
    exact h.distinct
  · rw [keys_bind]
    exact h.bytes
  · rw [keys_bind]
    exact h.contexts

/-- The node whose edges are followed, with the edges done so far. -/
structure Following (leaves : Leaves Sc Ra Ge C ER EG) (g : ComponentGraph n m) (start : Budget)
    (root key : Key n) (own : Option String) (before : List (CompiledNode Sc Ra Ge C n m))
    (described : CompiledNode Sc Ra Ge C n m) (done : List (Edge (n + 1) m))
    (table : Table Sc Ra Ge C n m) : Prop where
  kept : table.Kept g start
  parts : ∃ bindings after,
    table.nodes = before ++ { described with bindings := bindings } :: after ∧
    List.Forall₂ (Binds g (keys table.nodes) key own) done bindings ∧
    ∀ node ∈ after, Complete leaves g (keys table.nodes) node ∧
      ReflTransGen (Meets leaves g) root node.key

variable {before : List (CompiledNode Sc Ra Ge C n m)} {described : CompiledNode Sc Ra Ge C n m}
variable {done edges : List (Edge (n + 1) m)} {edge : Edge (n + 1) m} {target : BindingTarget m}

/-- A binding is entered for the next edge. -/
theorem Following.bind (h : Following leaves g start root key own before described done table)
    {binding : CompiledBinding m} (hbind : Binds g (keys table.nodes) key own edge binding) :
    Following leaves g start root key own before described (done ++ [edge])
      (table.bind before.length binding) := by
  obtain ⟨bindings, after, hnodes, hbinds, hafter⟩ := h.parts
  refine ⟨h.kept.bind binding, bindings ++ [binding], after, ?_, ?_, ?_⟩
  · rw [Table.bind, hnodes]
    simp [List.modify_eq_take_drop]
  · rw [keys_bind]
    exact List.rel_append hbinds (.cons hbind .nil)
  · rw [keys_bind]
    exact hafter

end Table

section Plans

/-- The place a binding leads to, in the plan. -/
def BindingTarget.local? : BindingTarget m → Option Nat
  | .localTo node => some node
  | .nonlocal _ => none

/-- The nodes below one in preorder, down to a depth. -/
def unfold (nodes : List (CompiledNode Sc Ra Ge C n m)) : Nat → Nat → List Nat
  | 0, _ => []
  | depth + 1, index =>
      index :: (((nodes[index]?).elim [] (·.bindings)).filterMap (·.target.local?)).flatMap
        (unfold nodes depth)

/-- The declaration of a node. -/
def declared (nodes : List (CompiledNode Sc Ra Ge C n m)) (index : Nat) : Option (Fin (n + 1)) :=
  (nodes[index]?).map (·.declaration)

/-- A declaration, and one an edge of it leads to. -/
def Leads (g : ComponentGraph n m) (node target : Fin (n + 1)) : Prop :=
  ∃ edge ∈ g.edges node, g.target edge = some target

/-- **A plan of a graph.** -/
structure PlanOf (leaves : Leaves Sc Ra Ge C ER EG) (g : ComponentGraph n m)
    (nodes : List (CompiledNode Sc Ra Ge C n m)) : Prop where
  root : (keys nodes)[0]? = some (0, none)
  distinct : (keys nodes).Nodup
  reachable : ∀ key, key ∈ keys nodes ↔ ReflTransGen (Meets leaves g) (0, none) key
  complete : ∀ node ∈ nodes, Complete leaves g (keys nodes) node
  unfolds : ∀ depth, (unfold nodes depth 0).map (declared nodes) = (g.unfold depth 0).map some

variable {leaves : Leaves Sc Ra Ge C ER EG} {g : ComponentGraph n m}
variable {nodes : List (CompiledNode Sc Ra Ge C n m)} {start : Budget} {depth index : Nat}

/-- Bindings as a graph. -/
def planGraph (nodes : List (CompiledNode Sc Ra Ge C n m)) : Graph Nat Nat Empty where
  node := id
  edges index := ((nodes[index]?).elim [] (·.bindings)).map fun binding => .ok binding.target.local?

/-- Edges as a graph. -/
def edgeGraph (g : ComponentGraph n m) : Graph (Fin (n + 1)) (Fin (n + 1)) Empty where
  node := id
  edges node := (g.edges node).map fun edge => .ok (g.target edge)

theorem planGraph_children : (planGraph nodes).children index =
    ((nodes[index]?).elim [] (·.bindings)).filterMap (·.target.local?) := by
  rw [Graph.children, planGraph, List.filterMap_map]
  rfl

theorem edgeGraph_children (node : Fin (n + 1)) :
    (edgeGraph g).children node = (g.edges node).filterMap g.target := by
  rw [Graph.children, edgeGraph, List.filterMap_map]
  rfl

theorem planGraph_preorder : (planGraph nodes).preorder depth index = unfold nodes depth index := by
  induction depth generalizing index with
  | zero => rfl
  | succ depth ih =>
      rw [Graph.preorder, unfold, planGraph_children]
      exact congrArg _ (List.flatMap_congr fun next _ => ih)

/-- The children of complete nodes are those of their declarations. -/
theorem children_declared
    (hcomplete : ∀ node ∈ nodes, Complete leaves g (keys nodes) node) {node : Fin (n + 1)}
    (h : declared nodes index = some node) :
    List.Forall₂ (fun i next => declared nodes i = some next) ((planGraph nodes).children index)
      ((edgeGraph g).children node) := by
  obtain ⟨found, hget, rfl⟩ := Option.map_eq_some_iff.mp h
  obtain ⟨own, bindings, -, -, hbinds⟩ := (hcomplete found (List.mem_of_getElem? hget)).described
  rw [planGraph_children, edgeGraph_children, hget, Option.elim_some]
  generalize g.edges found.declaration = edges at hbinds
  generalize found.bindings = bindings at hbinds
  induction hbinds with
  | nil => exact .nil
  | @cons edge binding edges bindings hbind _ ih =>
      cases htarget : g.target edge with
      | none =>
          obtain ⟨reference, -, hnonlocal⟩ := hbind.unknown htarget
          rw [List.filterMap_cons_none htarget, List.filterMap_cons_none (by rw [hnonlocal]; rfl)]
          exact ih
      | some target =>
          obtain ⟨i, hlocal, hkey⟩ := hbind.known target htarget
          rw [List.filterMap_cons_some htarget, List.filterMap_cons_some (by rw [hlocal]; rfl)]
          refine .cons ?_ ih
          rw [keys, List.getElem?_map] at hkey
          obtain ⟨child, hchild, hpair⟩ := Option.map_eq_some_iff.mp hkey
          exact Option.map_eq_some_iff.mpr ⟨child, hchild, congrArg Prod.fst hpair⟩

/-- An item on the left has one on the right. -/
theorem exists_related {α β : Type} {R : α → β → Prop} {l : List α} {l' : List β}
    (h : List.Forall₂ R l l') {a : α} (ha : a ∈ l) : ∃ b ∈ l', R a b := by
  induction h with
  | nil => cases ha
  | @cons x y l l' hxy _ ih =>
      obtain rfl | ha := List.mem_cons.mp ha
      · exact ⟨y, List.mem_cons_self, hxy⟩
      · obtain ⟨b, hb, hR⟩ := ih ha
        exact ⟨b, List.mem_cons_of_mem _ hb, hR⟩

theorem key_of_get {node : CompiledNode Sc Ra Ge C n m} (h : nodes[index]? = some node) :
    (keys nodes)[index]? = some node.key := by
  rw [keys, List.getElem?_map, h]
  rfl

/-- Complete nodes bind what is met from them. -/
theorem Complete.meets {node : CompiledNode Sc Ra Ge C n m}
    (h : Complete leaves g (keys nodes) node) {next : Key n} (hmeets : Meets leaves g node.key next) :
    ∃ i, (keys nodes)[i]? = some next ∧ i ∈ node.bindings.filterMap (·.target.local?) := by
  obtain ⟨own, bindings, hdescribe, -, hbinds⟩ := h.described
  obtain ⟨own', described, hdescribe', edge, hedge, htarget, hframe⟩ := hmeets
  obtain ⟨rfl, -⟩ := Prod.mk.inj (Except.ok.inj (hdescribe.symm.trans hdescribe'))
  obtain ⟨binding, hbinding, hbind⟩ := exists_related hbinds hedge
  obtain ⟨j, hlocal, hkey⟩ := hbind.known next.1 htarget
  refine ⟨j, ?_, List.mem_filterMap.mpr ⟨binding, hbinding, ?_⟩⟩
  · rw [hkey]
    exact congrArg some (Prod.ext rfl hframe.symm)
  · rw [hlocal]
    rfl

/-- Every node is linked from the root. -/
theorem PlanOf.linked (h : PlanOf leaves g nodes) {key : Key n}
    (hreach : ReflTransGen (Meets leaves g) (0, none) key) (hindex : (keys nodes)[index]? = some key) :
    ReflTransGen (planGraph nodes).Child 0 index := by
  induction hreach generalizing index with
  | refl =>
      obtain ⟨hlt, -⟩ := List.getElem?_eq_some_iff.mp hindex
      obtain rfl := (List.getElem?_inj hlt h.distinct).mp (hindex.trans h.root.symm)
      exact .refl
  | tail hreach hmeets ih =>
      obtain ⟨i, hi⟩ := List.mem_iff_getElem?.mp ((h.reachable _).mpr hreach)
      rw [keys, List.getElem?_map] at hi
      obtain ⟨node, hnode, rfl⟩ := Option.map_eq_some_iff.mp hi
      obtain ⟨j, hj, hlocal⟩ := (h.complete node (List.mem_of_getElem? hnode)).meets hmeets
      obtain ⟨hlt, -⟩ := List.getElem?_eq_some_iff.mp hindex
      obtain rfl := (List.getElem?_inj hlt h.distinct).mp (hindex.trans hj.symm)
      refine (ih (key_of_get hnode)).tail (Graph.mem_children.mp ?_)
      rw [planGraph_children, hnode]
      exact hlocal

/-- A path of nodes is one of declarations. -/
theorem PlanOf.path (h : PlanOf leaves g nodes) {path : List Nat} {node : Fin (n + 1)}
    (hnode : declared nodes index = some node)
    (hpath : List.IsChain (planGraph nodes).Leads (index :: path)) :
    ∃ path', List.IsChain (Leads g) (node :: path') ∧ path'.length = path.length := by
  induction path generalizing index node with
  | nil => exact ⟨[], .singleton _, rfl⟩
  | cons next path ih =>
      obtain ⟨⟨i, j, rfl, rfl, hchild⟩, hrest⟩ := List.isChain_cons_cons.mp hpath
      have hall := children_declared h.complete hnode
      obtain ⟨target, htarget, hdeclared⟩ := exists_related hall (Graph.mem_children.mpr hchild)
      obtain ⟨path', hpath', hlength⟩ := ih hdeclared hrest
      refine ⟨target :: path', List.isChain_cons_cons.mpr ⟨?_, hpath'⟩, ?_⟩
      · rw [edgeGraph_children] at htarget
        exact List.mem_filterMap.mp htarget
      · rw [List.length_cons, List.length_cons, hlength]

/-- **A plan shares**: it has no more nodes than the unfolding has occurrences. -/
theorem PlanOf.few (h : PlanOf leaves g nodes)
    (hshort : ∀ path, List.IsChain (Leads g) (0 :: path) → path.length < depth) :
    nodes.length ≤ (g.unfold depth 0).length := by
  have hroot : declared nodes 0 = some 0 := by
    have hfound := h.root
    rw [keys, List.getElem?_map] at hfound
    obtain ⟨node, hnode, hkey⟩ := Option.map_eq_some_iff.mp hfound
    exact Option.map_eq_some_iff.mpr ⟨node, hnode, congrArg Prod.fst hkey⟩
  have huniform : (planGraph nodes).Uniform := by
    rintro i j next rfl hchild
    exact ⟨next, hchild, rfl⟩
  have hsound : (planGraph nodes).Sound depth [] 0 := by
    refine (Graph.sound_iff_paths huniform fun _ error => error.elim).mpr fun path hpath => ?_
    obtain ⟨path', hpath', hlength⟩ := h.path hroot hpath
    rw [← hlength]
    exact hshort path' hpath'
  have hsubset : List.range nodes.length ⊆ unfold nodes depth 0 := by
    intro i hi
    obtain ⟨node, hnode⟩ : ∃ node, nodes[i]? = some node :=
      ⟨_, List.getElem?_eq_getElem (List.mem_range.mp hi)⟩
    have hreach := (h.reachable node.key).mp (List.mem_map_of_mem (List.mem_of_getElem? hnode))
    have hlisted := (hsound.mem_preorder (x := i)).mpr ⟨i, h.linked hreach (key_of_get hnode), rfl⟩
    rw [List.length_nil, Nat.sub_zero, planGraph_preorder] at hlisted
    exact hlisted
  have hle := (List.nodup_range.subperm hsubset).length_le
  have hlength := congrArg List.length (h.unfolds depth)
  rw [List.length_map, List.length_map] at hlength
  rw [List.length_range, hlength] at hle
  exact hle

end Plans

section Contracts

variable {S R : Type} {leaves : Leaves Sc Ra Ge C ER EG} {readers : Readers S R}
variable {compilers : Quality.Compilers S R} {options : CountReferenceSchema}
variable {input : SubmittedBytes} {budget budget' : Budget} {member : Option String}
variable {raw : List (String × RawValue)}

theorem Represents.leads {g : ComponentGraph n m} {bytes : Bytes} {index : Index}
    {targets : List (Option Nat)} {traversal : List Nat}
    (h : Index.Represents g bytes index targets traversal) {path : List (Fin (n + 1))}
    (hpath : List.IsChain (Leads g) path) :
    List.IsChain (Index.Leads index targets) (path.map Fin.val) := by
  refine (List.isChain_map Fin.val).mpr (hpath.imp fun node target hleads => ?_)
  obtain ⟨edge, hedge, htarget⟩ := hleads
  have hmem : (g.target edge).map Fin.val ∈ (index.edgesOf node.val).map (Index.targetOf targets) := by
    rw [← h.targets node]
    exact List.mem_map_of_mem hedge
  obtain ⟨edge', hedge', heq⟩ := List.mem_map.mp hmem
  exact ⟨edge', hedge', by rw [heq, htarget]; rfl⟩

end Contracts

/-! ### A count by itself -/

section Sample

open Library.Json (Layout)

def sampleIndex : Index where
  components := [⟨none, none, .count, [], ⟨0, 16⟩, false, []⟩]
  references := []
  ids := []

end Sample

end Compiled
end Standards
end Glaux
