import Glaux.Library.Unfolding
import Glaux.Standards.References.Index

/-!
# Following the edges (`Index::traverse`)

The traversal keeps a stack of frames, marks the components on it and lists every component it
enters.  It succeeds exactly when the unfolding of the document from its root is sound, and then
lists that unfolding in preorder.
-/

namespace Glaux
namespace Standards

open Library Relation
open Library.Unfolding (Graph followed)

namespace Index

section Code

variable (index : Index) (targets : List (Option Nat))

def edgesOf (node : Nat) : List IndexedEdge :=
  (index.components[node]?).elim [] fun component => component.edges

def kindOf (node : Nat) : Option Contract := (index.components[node]?).map (·.kind)

def hasValueAt (node : Nat) : Bool := (index.components[node]?).any (·.hasValue)

/-- The component an edge leads to, where its reference is local. -/
def targetOf (edge : IndexedEdge) : Option Nat :=
  match edge.target with
  | .component node => some node
  | .reference reference => (targets[reference]?).join

/-- The kinds of components a matrix is made of. -/
def matrixElement (kind : Option Contract) : Bool :=
  kind = some .matrix || kind = some .count || kind = some .quantity || kind = some .time

/-- Whether a component stands in an element descriptor. -/
def elementOf (element : Bool) : Slot → Bool
  | .component | .selector => element
  | .elementType => true
  | .elementCount | .quality => false

/-- What the loop makes of an edge, up to the checks of the stack. -/
def edgeOutcome (node : Nat) (element : Bool) (edge : IndexedEdge) :
    Except ReferenceError (Option (Nat × Bool)) :=
  match targetOf targets edge with
  | none => .ok none
  | some target =>
      if edge.slot = .elementType ∧ index.kindOf node = some .matrix ∧
          matrixElement (index.kindOf target) = false then .error .invalidTarget
      else if elementOf element edge.slot && index.hasValueAt target then
        .error .inlineElementValue
      else .ok (some (target, elementOf element edge.slot))

/-- `Frame` -/
structure TraversalFrame where
  node : Nat
  next : Nat
  element : Bool

/-- How many turns the frames still ask for. -/
def turns (frames : List TraversalFrame) : Nat :=
  (frames.map fun frame => (index.edgesOf frame.node).length - frame.next + 1).sum

/-- The loop of `traverse`; the innermost frame comes first. -/
def traverseFrom (active : Nat → Bool) (frames : List TraversalFrame) (traversal : List Nat) :
    Except ReferenceError (List Nat) :=
  match frames with
  | [] => .ok traversal
  | frame :: frames =>
      if h : frame.next < (index.edgesOf frame.node).length then
        let advanced : TraversalFrame := { frame with next := frame.next + 1 }
        match edgeOutcome index targets frame.node frame.element
            (index.edgesOf frame.node)[frame.next] with
        | .error error => .error error
        | .ok none => traverseFrom active (advanced :: frames) traversal
        | .ok (some (target, element)) =>
            if active target then .error .cycle
            else if frames.length + 1 ≥ maxTraversalDepth then .error .depthLimit
            else if hsteps : traversal.length ≥ maxTraversalSteps then .error .traversalLimit
            else
              traverseFrom (Function.update active target true)
                (⟨target, 0, element⟩ :: advanced :: frames) (traversal ++ [target])
      else traverseFrom (Function.update active frame.node false) frames traversal
termination_by (maxTraversalSteps - traversal.length, turns index frames)
decreasing_by
  · right
    simp only [turns, List.map_cons, List.sum_cons]
    omega
  · left
    simp only [List.length_append, List.length_singleton]
    omega
  · right
    simp only [turns, List.map_cons, List.sum_cons]
    omega

def traverse : Except ReferenceError (List Nat) :=
  traverseFrom index targets (Function.update (fun _ => false) 0 true) [⟨0, 0, false⟩] [0]

end Code

section Frames

variable {index : Index} {targets : List (Option Nat)} {active : Nat → Bool}
variable {frame : TraversalFrame} {frames : List TraversalFrame} {traversal result : List Nat}

/-- Components in and out of element descriptors, with what the loop makes of their edges. -/
def unfolding (index : Index) (targets : List (Option Nat)) : Graph Nat (Nat × Bool) ReferenceError where
  node := Prod.fst
  edges occurrence :=
    (index.edgesOf occurrence.1).map (edgeOutcome index targets occurrence.1 occurrence.2)

/-- The edges a frame has not followed yet. -/
def left (index : Index) (targets : List (Option Nat)) (frame : TraversalFrame) :
    List (Except ReferenceError (Option (Nat × Bool))) :=
  ((index.edgesOf frame.node).drop frame.next).map
    (edgeOutcome index targets frame.node frame.element)

/-- The frames can be finished, and what has then been listed. -/
def Finishes (index : Index) (targets : List (Option Nat)) :
    List TraversalFrame → List Nat → List Nat → Prop
  | [], traversal, result => result = traversal
  | frame :: frames, traversal, result =>
      (∀ error, .error error ∉ left index targets frame) ∧
      (∀ next, .ok (some next) ∈ left index targets frame →
        (unfolding index targets).Sound maxTraversalDepth
          (frame.node :: frames.map (·.node)) next) ∧
      Finishes index targets frames (traversal ++ ((left index targets frame).filterMap followed).flatMap
        ((unfolding index targets).preorder (maxTraversalDepth - (frames.length + 1)))) result

theorem finishes_prefix (h : Finishes index targets frames traversal result) :
    traversal.length ≤ result.length := by
  induction frames generalizing traversal with
  | nil =>
      obtain rfl : result = traversal := h
      exact Nat.le_refl _
  | cons frame frames ih =>
      have hle := ih h.2.2
      rw [List.length_append] at hle
      omega

theorem left_lt (hlt : frame.next < (index.edgesOf frame.node).length) :
    left index targets frame =
      edgeOutcome index targets frame.node frame.element (index.edgesOf frame.node)[frame.next] ::
        left index targets { frame with next := frame.next + 1 } := by
  rw [left, List.drop_eq_getElem_cons hlt, List.map_cons]
  rfl

theorem left_done (hle : ¬ frame.next < (index.edgesOf frame.node).length) :
    left index targets frame = [] := by
  rw [left, List.drop_eq_nil_of_le (Nat.le_of_not_lt hle), List.map_nil]

theorem left_start (node : Nat) (element : Bool) :
    left index targets ⟨node, 0, element⟩ = (unfolding index targets).edges (node, element) := by
  rw [left, List.drop_zero]
  rfl

/-- The frame behind its next edge. -/
def TraversalFrame.advanced (frame : TraversalFrame) : TraversalFrame :=
  { frame with next := frame.next + 1 }

/-- A skipped edge. -/
theorem finishes_skip (hlt : frame.next < (index.edgesOf frame.node).length)
    (hedge : edgeOutcome index targets frame.node frame.element
      (index.edgesOf frame.node)[frame.next] = .ok none) :
    Finishes index targets (frame :: frames) traversal result ↔
      Finishes index targets (frame.advanced :: frames) traversal result := by
  have h : left index targets frame = .ok none :: left index targets frame.advanced := by
    rw [left_lt hlt, hedge, TraversalFrame.advanced]
  have hchildren : (left index targets frame).filterMap followed =
      (left index targets frame.advanced).filterMap followed := by
    rw [h, List.filterMap_cons_none rfl]
  have hnode : frame.advanced.node = frame.node := rfl
  rw [Finishes, Finishes, hchildren, h, hnode]
  simp only [List.mem_cons, reduceCtorEq, false_or, Except.ok.injEq]

/-- An entered component is finished before its frame goes on. -/
theorem finishes_enter {target : Nat} {element : Bool}
    (hlt : frame.next < (index.edgesOf frame.node).length)
    (hedge : edgeOutcome index targets frame.node frame.element
      (index.edgesOf frame.node)[frame.next] = .ok (some (target, element))) :
    Finishes index targets (frame :: frames) traversal result ↔
      (target ∉ frame.node :: frames.map (·.node) ∧ frames.length + 1 < maxTraversalDepth) ∧
        Finishes index targets (⟨target, 0, element⟩ :: frame.advanced :: frames)
          (traversal ++ [target]) result := by
  have h : left index targets frame =
      .ok (some (target, element)) :: left index targets frame.advanced := by
    rw [left_lt hlt, hedge, TraversalFrame.advanced]
  have hnode : frame.advanced.node = frame.node := rfl
  have hchildren : (left index targets frame).filterMap followed =
      (target, element) :: (left index targets frame.advanced).filterMap followed := by
    rw [h]
    rfl
  have herrors : (∀ error, .error error ∉ left index targets frame) ↔
      ∀ error, .error error ∉ left index targets frame.advanced := by
    rw [h]
    simp only [List.mem_cons, reduceCtorEq, false_or]
  have hnext : ∀ P : Nat × Bool → Prop,
      (∀ next, .ok (some next) ∈ left index targets frame → P next) ↔
        P (target, element) ∧ ∀ next, .ok (some next) ∈ left index targets frame.advanced → P next := by
    intro P
    rw [h]
    simp only [List.mem_cons, Except.ok.injEq, Option.some.injEq, forall_eq_or_imp]
  have hlength : (frame.node :: frames.map (·.node)).length = frames.length + 1 := by
    rw [List.length_cons, List.length_map]
  rw [Finishes, Finishes, Finishes, left_start, hchildren, herrors, hnext, hnode,
    List.length_cons, List.flatMap_cons, List.map_cons, hnode, Graph.sound_iff]
  constructor
  · rintro ⟨haccepted, ⟨⟨hadmissible, hbelow⟩, hsound⟩, hrest⟩
    have hshallow := hadmissible.shallow
    rw [hlength] at hshallow
    have hroom : maxTraversalDepth - (frames.length + 1) =
        maxTraversalDepth - (frames.length + 1 + 1) + 1 := by omega
    refine ⟨⟨hadmissible.fresh, hshallow⟩, hadmissible.accepted, hbelow, haccepted, hsound, ?_⟩
    rw [hroom, Graph.preorder, ← hroom] at hrest
    rw [List.append_assoc, List.append_assoc]
    exact hrest
  · rintro ⟨⟨hfresh, hshallow⟩, haccepted', hbelow, haccepted, hsound, hrest⟩
    have hroom : maxTraversalDepth - (frames.length + 1) =
        maxTraversalDepth - (frames.length + 1 + 1) + 1 := by omega
    refine ⟨haccepted, ⟨⟨⟨hfresh, by rw [hlength]; exact hshallow, haccepted'⟩, hbelow⟩, hsound⟩, ?_⟩
    rw [hroom, Graph.preorder, ← hroom]
    rw [List.append_assoc, List.append_assoc] at hrest
    exact hrest

/-- **The loop** finishes its frames, or finds what they do not admit. -/
theorem traverseFrom_eq_ok (hactive : ∀ node, active node = true ↔ node ∈ frames.map (·.node))
    (hnodup : (frames.map (·.node)).Nodup) (hsteps : traversal.length ≤ maxTraversalSteps) :
    traverseFrom index targets active frames traversal = .ok result ↔
      Finishes index targets frames traversal result ∧ result.length ≤ maxTraversalSteps := by
  induction active, frames, traversal using traverseFrom.induct index targets with
  | case1 active traversal =>
      rw [traverseFrom, Finishes]
      constructor
      · intro h
        obtain rfl := Except.ok.inj h
        exact ⟨rfl, hsteps⟩
      · rintro ⟨rfl, -⟩
        rfl
  | case2 active traversal frame frames hlt error hedge =>
      rw [traverseFrom, dif_pos hlt]
      simp only [hedge]
      refine iff_of_false (by intro h; cases h) ?_
      rintro ⟨⟨haccepted, -⟩, -⟩
      rw [left_lt hlt, hedge] at haccepted
      exact haccepted error List.mem_cons_self
  | case3 active traversal frame frames hlt advanced hedge ih =>
      rw [traverseFrom, dif_pos hlt]
      simp only [hedge]
      rw [ih hactive hnodup hsteps, finishes_skip hlt hedge]
      rfl
  | case4 active traversal frame frames hlt target element hedge hcycle =>
      rw [traverseFrom, dif_pos hlt]
      simp only [hedge, if_pos hcycle]
      refine iff_of_false (by intro h; cases h) ?_
      rintro ⟨h, -⟩
      obtain ⟨⟨hfresh, -⟩, -⟩ := (finishes_enter hlt hedge).mp h
      exact hfresh ((hactive target).mp hcycle)
  | case5 active traversal frame frames hlt target element hedge hfresh hdeep =>
      rw [traverseFrom, dif_pos hlt]
      simp only [hedge, if_neg hfresh, if_pos hdeep]
      refine iff_of_false (by intro h; cases h) ?_
      rintro ⟨h, -⟩
      obtain ⟨⟨-, hshallow⟩, -⟩ := (finishes_enter hlt hedge).mp h
      omega
  | case6 active traversal frame frames hlt target element hedge hfresh hshallow hmany =>
      rw [traverseFrom, dif_pos hlt]
      simp only [hedge, if_neg hfresh, if_neg hshallow, dif_pos hmany]
      refine iff_of_false (by intro h; cases h) ?_
      rintro ⟨h, hle⟩
      obtain ⟨-, h⟩ := (finishes_enter hlt hedge).mp h
      have hlonger := finishes_prefix h
      rw [List.length_append, List.length_singleton] at hlonger
      omega
  | case7 active traversal frame frames hlt advanced target element hedge hfresh hshallow hfew ih =>
      rw [traverseFrom, dif_pos hlt]
      simp only [hedge, if_neg hfresh, if_neg hshallow, dif_neg hfew]
      have hnew : target ∉ frame.node :: frames.map (·.node) := fun hmem =>
        hfresh ((hactive target).mpr hmem)
      rw [ih ?_ ?_ ?_, finishes_enter hlt hedge]
      · have hroom : frames.length + 1 < maxTraversalDepth := by omega
        constructor
        · rintro ⟨h, hle⟩
          exact ⟨⟨⟨hnew, hroom⟩, h⟩, hle⟩
        · rintro ⟨⟨-, h⟩, hle⟩
          exact ⟨h, hle⟩
      · intro node
        rw [List.map_cons, List.mem_cons]
        by_cases heq : node = target
        · rw [heq, Function.update_self]
          exact iff_of_true rfl (.inl rfl)
        · rw [Function.update_of_ne heq, hactive node]
          exact (or_iff_right heq).symm
      · exact List.nodup_cons.mpr ⟨hnew, hnodup⟩
      · rw [List.length_append, List.length_singleton]
        omega
  | case8 active traversal frame frames hdone ih =>
      rw [traverseFrom, dif_neg hdone]
      rw [List.map_cons, List.nodup_cons] at hnodup
      rw [ih ?_ hnodup.2 hsteps, Finishes, left_done hdone]
      · simp
      · intro node
        by_cases heq : node = frame.node
        · rw [heq, Function.update_self]
          exact iff_of_false (by decide) hnodup.1
        · rw [Function.update_of_ne heq, hactive node, List.map_cons, List.mem_cons,
            or_iff_right heq]

/-- The loop finds whether the unfolding is sound. -/
theorem traverse_eq_ok_sound {index : Index} {targets : List (Option Nat)} {result : List Nat} :
    traverse index targets = .ok result ↔
      (unfolding index targets).Sound maxTraversalDepth [] (0, false) ∧
        result = (unfolding index targets).preorder maxTraversalDepth (0, false) ∧
        result.length ≤ maxTraversalSteps := by
  have hactive : ∀ node, Function.update (fun _ => false) 0 true node = true ↔
      node ∈ ([⟨0, 0, false⟩] : List TraversalFrame).map (·.node) := by
    intro node
    by_cases heq : node = 0
    · rw [heq, Function.update_self]
      exact iff_of_true rfl List.mem_cons_self
    · rw [Function.update_of_ne heq]
      exact iff_of_false Bool.false_ne_true fun hmem => heq (List.mem_singleton.mp hmem)
  have hpreorder : (unfolding index targets).preorder maxTraversalDepth (0, false) =
      [0] ++ (((unfolding index targets).edges (0, false)).filterMap followed).flatMap
        ((unfolding index targets).preorder (maxTraversalDepth - 1)) := rfl
  rw [traverse, traverseFrom_eq_ok hactive (List.nodup_singleton 0) (by decide), Finishes,
    Finishes, left_start, Graph.sound_iff, hpreorder]
  constructor
  · rintro ⟨⟨haccepted, hbelow, hresult⟩, hle⟩
    exact ⟨⟨⟨List.not_mem_nil, by decide, haccepted⟩, hbelow⟩, hresult, hle⟩
  · rintro ⟨⟨⟨-, -, haccepted⟩, hbelow⟩, hresult, hle⟩
    exact ⟨⟨haccepted, hbelow, hresult⟩, hle⟩

end Frames

section Paths

variable {index : Index} {targets : List (Option Nat)} {node target : Nat} {element : Bool}
variable {occurrence next : Nat × Bool} {result : List Nat}

/-- A component, and one an edge of it leads to. -/
def Leads (index : Index) (targets : List (Option Nat)) (node target : Nat) : Prop :=
  ∃ edge ∈ index.edgesOf node, targetOf targets edge = some target

/-- The contexts in which a component occurs: in or out of an element descriptor. -/
inductive Context (index : Index) (targets : List (Option Nat)) : Nat → Bool → Prop
  | root : Context index targets 0 false
  | edge {node target : Nat} {element : Bool} {edge : IndexedEdge}
      (h : Context index targets node element) (hedge : edge ∈ index.edgesOf node)
      (htarget : targetOf targets edge = some target) :
      Context index targets target (elementOf element edge.slot)

/-- What an edge must not lead to: a matrix is made of few kinds of components, and none in an
element descriptor has a value. -/
structure Permitted (index : Index) (node : Nat) (element : Bool) (slot : Slot) (target : Nat) :
    Prop where
  matrix : slot = .elementType → index.kindOf node = some .matrix →
    matrixElement (index.kindOf target) = true
  value : elementOf element slot = true → index.hasValueAt target = false

/-- The components below one in preorder, down to a depth. -/
def descend (index : Index) (targets : List (Option Nat)) : Nat → Nat → List Nat
  | 0, _ => []
  | depth + 1, node =>
      node :: ((index.edgesOf node).filterMap (targetOf targets)).flatMap
        (descend index targets depth)

/-- The unfolding without the checks of edges. -/
def contexts (index : Index) (targets : List (Option Nat)) : Graph Nat (Nat × Bool) Empty where
  node := Prod.fst
  edges occurrence := (index.edgesOf occurrence.1).map fun edge =>
    .ok ((targetOf targets edge).map fun target => (target, elementOf occurrence.2 edge.slot))

theorem contexts_child : (contexts index targets).Child occurrence next ↔
    ∃ edge ∈ index.edgesOf occurrence.1, targetOf targets edge = some next.1 ∧
      next.2 = elementOf occurrence.2 edge.slot := by
  rw [Graph.Child, contexts, List.mem_map]
  simp only [Except.ok.injEq, Option.map_eq_some_iff]
  constructor
  · rintro ⟨edge, hedge, target, htarget, rfl⟩
    exact ⟨edge, hedge, htarget, rfl⟩
  · rintro ⟨edge, hedge, htarget, helement⟩
    exact ⟨edge, hedge, next.1, htarget, Prod.ext rfl helement.symm⟩

theorem contexts_leads : (contexts index targets).Leads node target ↔
    Leads index targets node target := by
  constructor
  · rintro ⟨occurrence, next, rfl, rfl, hchild⟩
    obtain ⟨edge, hedge, htarget, -⟩ := contexts_child.mp hchild
    exact ⟨edge, hedge, htarget⟩
  · rintro ⟨edge, hedge, htarget⟩
    exact ⟨(node, false), (target, elementOf false edge.slot), rfl, rfl,
      contexts_child.mpr ⟨edge, hedge, htarget, rfl⟩⟩

theorem contexts_uniform : (contexts index targets).Uniform := by
  rintro ⟨node, element⟩ ⟨node', element'⟩ next heq hchild
  obtain rfl : node = node' := heq
  obtain ⟨edge, hedge, htarget, -⟩ := contexts_child.mp hchild
  exact ⟨(next.1, elementOf element' edge.slot),
    contexts_child.mpr ⟨edge, hedge, htarget, rfl⟩, rfl⟩

theorem contexts_accepted (occurrence : Nat × Bool) (error : Empty) :
    .error error ∉ (contexts index targets).edges occurrence := error.elim

theorem context_iff : Context index targets node element ↔
    ReflTransGen (contexts index targets).Child (0, false) (node, element) := by
  constructor
  · intro h
    induction h with
    | root => exact .refl
    | edge _ hedge htarget ih =>
        exact ih.tail (contexts_child.mpr ⟨_, hedge, htarget, rfl⟩)
  · intro h
    generalize hoccurrence : (node, element) = occurrence at h
    induction h generalizing node element with
    | refl =>
        obtain ⟨rfl, rfl⟩ := Prod.mk.inj hoccurrence
        exact .root
    | @tail middle occurrence _ hchild ih =>
        obtain ⟨edge, hedge, htarget, helement⟩ := contexts_child.mp hchild
        subst hoccurrence
        obtain rfl : element = elementOf middle.2 edge.slot := helement
        exact .edge (ih rfl) hedge htarget

theorem children_contexts (occurrence : Nat × Bool) :
    ((contexts index targets).children occurrence).map Prod.fst =
      (index.edgesOf occurrence.1).filterMap (targetOf targets) := by
  rw [Graph.children, contexts, List.filterMap_map, List.map_filterMap]
  refine List.filterMap_congr fun edge _ => ?_
  simp only [Function.comp, followed, Option.map_map]
  exact Option.map_id_apply

theorem preorder_contexts (depth : Nat) (occurrence : Nat × Bool) :
    (contexts index targets).preorder depth occurrence = descend index targets depth occurrence.1 := by
  induction depth generalizing occurrence with
  | zero => rfl
  | succ depth ih =>
      rw [Graph.preorder, descend, ← children_contexts, List.flatMap_map]
      congr 1
      exact List.flatMap_congr fun next _ => ih next

/-- The outcome of an edge that leads somewhere. -/
theorem edgeOutcome_some {edge : IndexedEdge} (htarget : targetOf targets edge = some target) :
    (Permitted index node element edge.slot target →
      edgeOutcome index targets node element edge =
        .ok (some (target, elementOf element edge.slot))) ∧
    (¬ Permitted index node element edge.slot target →
      ∃ error, edgeOutcome index targets node element edge = .error error) := by
  rw [edgeOutcome]
  simp only [htarget]
  constructor
  · intro h
    rw [if_neg, if_neg]
    · rw [Bool.and_eq_true]
      rintro ⟨helement, hvalue⟩
      rw [h.value helement] at hvalue
      cases hvalue
    · rintro ⟨hslot, hkind, hmatrix⟩
      rw [h.matrix hslot hkind] at hmatrix
      cases hmatrix
  · intro h
    split
    · exact ⟨_, rfl⟩
    next hmatrix =>
      split
      · exact ⟨_, rfl⟩
      next hvalue =>
        refine absurd ⟨fun hslot hkind => ?_, fun helement => ?_⟩ h
        · by_contra hfalse
          exact hmatrix ⟨hslot, hkind, Bool.eq_false_iff.mpr hfalse⟩
        · rw [helement, Bool.true_and, Bool.not_eq_true] at hvalue
          exact hvalue

theorem edgeOutcome_none {edge : IndexedEdge} (htarget : targetOf targets edge = none) :
    edgeOutcome index targets node element edge = .ok none := by
  rw [edgeOutcome]
  simp only [htarget]

/-- An occurrence has no refused edge when all its edges are permitted. -/
theorem accepted_iff : (∀ error, .error error ∉ (unfolding index targets).edges (node, element)) ↔
    ∀ edge ∈ index.edgesOf node, ∀ target, targetOf targets edge = some target →
      Permitted index node element edge.slot target := by
  constructor
  · intro h edge hedge target htarget
    by_contra hnot
    obtain ⟨error, herror⟩ := (edgeOutcome_some htarget).2 hnot
    exact h error (List.mem_map.mpr ⟨edge, hedge, herror⟩)
  · intro h error hmem
    obtain ⟨edge, hedge, herror⟩ := List.mem_map.mp hmem
    cases htarget : targetOf targets edge with
    | none =>
        rw [edgeOutcome_none htarget] at herror
        cases herror
    | some target =>
        rw [(edgeOutcome_some htarget).1 (h edge hedge target htarget)] at herror
        cases herror

theorem unfolding_accepts : (unfolding index targets).Accepts (contexts index targets) where
  node := rfl
  children := by
    rintro ⟨node, element⟩ haccepted
    rw [Graph.children, Graph.children, unfolding, contexts]
    simp only [List.filterMap_map]
    refine List.filterMap_congr fun edge hedge => ?_
    simp only [Function.comp]
    cases htarget : targetOf targets edge with
    | none =>
        rw [edgeOutcome_none htarget]
        rfl
    | some target =>
        rw [(edgeOutcome_some htarget).1 (accepted_iff.mp haccepted edge hedge target htarget)]
        rfl
  accepted := contexts_accepted

theorem leads_contexts : (contexts index targets).Leads = Leads index targets :=
  funext fun _ => funext fun _ => propext contexts_leads

/-- The unfolding is sound when all paths from the root are short. -/
theorem contexts_sound : (contexts index targets).Sound maxTraversalDepth [] (0, false) ↔
    ∀ path, List.IsChain (Leads index targets) (0 :: path) → path.length < maxTraversalDepth := by
  rw [Graph.sound_iff_paths contexts_uniform contexts_accepted, leads_contexts]
  rfl

theorem mem_descend (h : (contexts index targets).Sound maxTraversalDepth [] (0, false)) :
    target ∈ descend index targets maxTraversalDepth 0 ↔
      ReflTransGen (Leads index targets) 0 target := by
  have hpreorder := h.mem_preorder (x := target)
  rw [List.length_nil, Nat.sub_zero, preorder_contexts] at hpreorder
  rw [hpreorder, ← leads_contexts]
  constructor
  · rintro ⟨occurrence, hreach, rfl⟩
    exact Graph.leads_of_reach hreach
  · intro hreach
    have hroot : ReflTransGen (contexts index targets).Leads
        ((contexts index targets).node (0, false)) target := hreach
    exact Graph.reach_of_leads contexts_uniform hroot

theorem descend_deeper (h : (contexts index targets).Sound maxTraversalDepth [] (0, false))
    {depth : Nat} (hdepth : maxTraversalDepth ≤ depth) :
    descend index targets depth 0 = descend index targets maxTraversalDepth 0 := by
  have hpreorder := h.preorder_deeper hdepth
  rw [preorder_contexts, List.length_nil, Nat.sub_zero, preorder_contexts] at hpreorder
  exact hpreorder

theorem no_cycle (h : (contexts index targets).Sound maxTraversalDepth [] (0, false))
    (hreach : ReflTransGen (Leads index targets) 0 node) :
    ¬ TransGen (Leads index targets) node node := by
  rw [← leads_contexts] at hreach ⊢
  exact h.no_cycle contexts_uniform hreach

/-- **The traversal is exact**: all paths from the root are short, every edge is permitted in
every context it occurs in, and the components below the root are listed. -/
theorem traverse_eq_ok : traverse index targets = .ok result ↔
    (∀ path, List.IsChain (Leads index targets) (0 :: path) → path.length < maxTraversalDepth) ∧
    (∀ node element, Context index targets node element → ∀ edge ∈ index.edgesOf node,
      ∀ target, targetOf targets edge = some target →
        Permitted index node element edge.slot target) ∧
    result = descend index targets maxTraversalDepth 0 ∧ result.length ≤ maxTraversalSteps := by
  have hpermitted : (∀ occurrence, ReflTransGen (contexts index targets).Child (0, false) occurrence →
      ∀ error, .error error ∉ (unfolding index targets).edges occurrence) ↔
      ∀ node element, Context index targets node element → ∀ edge ∈ index.edgesOf node,
        ∀ target, targetOf targets edge = some target →
          Permitted index node element edge.slot target := by
    constructor
    · intro h node element hcontext
      exact accepted_iff.mp (h (node, element) (context_iff.mp hcontext))
    · rintro h ⟨node, element⟩ hreach
      exact accepted_iff.mpr (h node element (context_iff.mpr hreach))
  rw [traverse_eq_ok_sound, unfolding_accepts.sound_iff, contexts_sound, hpermitted, and_assoc]
  refine and_congr_right fun _ => and_congr_right fun hall => ?_
  rw [unfolding_accepts.preorder (hpermitted.mpr hall), preorder_contexts]

end Paths

end Index

end Standards
end Glaux
