import Mathlib.Data.List.Chain
import Mathlib.Data.List.Nodup
import Mathlib.Logic.Relation

/-!
# Unfolding a graph from its root

An occurrence of a node has a list of edges; an edge is refused, skipped or leads to another
occurrence.  When no walk from the root meets a node twice, the occurrences form a tree, and
its preorder lists what can be reached.
-/

namespace Glaux
namespace Library
namespace Unfolding

open Relation

variable {α β ε : Type}

/-- The nodes of occurrences and the outcomes of their edges. -/
structure Graph (α β ε : Type) where
  node : β → α
  edges : β → List (Except ε (Option β))

/-- Where an edge leads. -/
def followed : Except ε (Option β) → Option β
  | .ok next => next
  | .error _ => none

namespace Graph

variable (g : Graph α β ε)

def children (occurrence : β) : List β := (g.edges occurrence).filterMap followed

def Child (occurrence next : β) : Prop := .ok (some next) ∈ g.edges occurrence

/-- A walk downwards, with the nodes above its end, the nearest first. -/
inductive Walk (above : List α) (start : β) : List α → β → Prop
  | here : Walk above start above start
  | down {above' : List α} {occurrence next : β} (h : Walk above start above' occurrence)
      (hchild : g.Child occurrence next) :
      Walk above start (g.node occurrence :: above') next

/-- What is asked at the end of a walk: a new node, not too deep, without a refused edge. -/
structure Admissible (depth : ℕ) (above : List α) (occurrence : β) : Prop where
  fresh : g.node occurrence ∉ above
  shallow : above.length < depth
  accepted : ∀ error, .error error ∉ g.edges occurrence

/-- All walks from an occurrence are admissible. -/
def Sound (depth : ℕ) (above : List α) (start : β) : Prop :=
  ∀ above' occurrence, g.Walk above start above' occurrence → g.Admissible depth above' occurrence

/-- The nodes below an occurrence in preorder, down to a depth. -/
def preorder : ℕ → β → List α
  | 0, _ => []
  | depth + 1, occurrence =>
      g.node occurrence :: (g.children occurrence).flatMap (preorder depth)

variable {g} {depth : ℕ} {above above' : List α} {start occurrence next : β}

theorem mem_children : next ∈ g.children occurrence ↔ g.Child occurrence next := by
  rw [children, List.mem_filterMap]
  constructor
  · rintro ⟨outcome, hmem, hfollowed⟩
    cases outcome with
    | error error => cases hfollowed
    | ok outcome =>
        obtain rfl : outcome = some next := hfollowed
        exact hmem
  · exact fun h => ⟨_, h, rfl⟩

/-- A walk begins with a first step. -/
theorem walk_cases (h : g.Walk above start above' occurrence) :
    (above' = above ∧ occurrence = start) ∨
      ∃ next, g.Child start next ∧ g.Walk (g.node start :: above) next above' occurrence := by
  induction h with
  | here => exact .inl ⟨rfl, rfl⟩
  | @down above' occurrence next h hchild ih =>
      obtain ⟨rfl, rfl⟩ | ⟨first, hfirst, hrest⟩ := ih
      · exact .inr ⟨next, hchild, .here⟩
      · exact .inr ⟨first, hfirst, .down hrest hchild⟩

theorem walk_of_child (hchild : g.Child start next)
    (h : g.Walk (g.node start :: above) next above' occurrence) :
    g.Walk above start above' occurrence := by
  induction h with
  | here => exact .down .here hchild
  | down h hchild ih => exact .down ih hchild

/-- **One level of the unfolding.** -/
theorem sound_iff : g.Sound depth above start ↔
    g.Admissible depth above start ∧
      ∀ next, g.Child start next → g.Sound depth (g.node start :: above) next := by
  constructor
  · intro h
    exact ⟨h _ _ .here, fun next hchild above' occurrence hwalk =>
      h _ _ (walk_of_child hchild hwalk)⟩
  · rintro ⟨hstart, hchildren⟩ above' occurrence hwalk
    obtain ⟨rfl, rfl⟩ | ⟨next, hchild, hrest⟩ := walk_cases hwalk
    · exact hstart
    · exact hchildren next hchild _ _ hrest

/-- The nodes above are those the walk has met. -/
theorem walk_above (h : g.Walk above start above' occurrence) :
    ∃ met, above' = met ++ above := by
  induction h with
  | here => exact ⟨[], rfl⟩
  | @down above' occurrence next h hchild ih =>
      obtain ⟨met, rfl⟩ := ih
      exact ⟨g.node occurrence :: met, rfl⟩

theorem exists_walk (h : ReflTransGen g.Child start occurrence) (above : List α) :
    ∃ above', g.Walk above start above' occurrence := by
  induction h with
  | refl => exact ⟨above, .here⟩
  | tail _ hchild ih =>
      obtain ⟨above', hwalk⟩ := ih
      exact ⟨_, .down hwalk hchild⟩

theorem walk_reaches (h : g.Walk above start above' occurrence) :
    ReflTransGen g.Child start occurrence := by
  induction h with
  | here => exact .refl
  | down _ hchild ih => exact ih.tail hchild

/-- A walk can be continued below its end. -/
theorem walk_meets {middle : β} (h : g.Walk above start above' middle)
    (hbelow : TransGen g.Child middle occurrence) :
    ∃ met, g.Walk above start met occurrence ∧ g.node middle ∈ met := by
  induction hbelow with
  | single hchild => exact ⟨_, .down h hchild, List.mem_cons_self⟩
  | tail _ hchild ih =>
      obtain ⟨met, hwalk, hmem⟩ := ih
      exact ⟨_, .down hwalk hchild, List.mem_cons_of_mem _ hmem⟩

/-- **No node is below itself.** -/
theorem Sound.acyclic (h : g.Sound depth above start) {middle : β}
    (hreach : ReflTransGen g.Child start middle) (hbelow : TransGen g.Child middle occurrence) :
    g.node occurrence ≠ g.node middle := by
  obtain ⟨above', hwalk⟩ := exists_walk hreach above
  obtain ⟨met, hwalk', hmem⟩ := walk_meets hwalk hbelow
  intro heq
  exact (h _ _ hwalk').fresh (heq ▸ hmem)

/-- **The preorder is complete**: it lists the nodes of everything that can be reached. -/
theorem Sound.mem_preorder (h : g.Sound depth above start) {x : α} :
    x ∈ g.preorder (depth - above.length) start ↔
      ∃ occurrence, ReflTransGen g.Child start occurrence ∧ g.node occurrence = x := by
  induction hroom : depth - above.length generalizing above start with
  | zero =>
      have hshallow := (sound_iff.mp h).1.shallow
      omega
  | succ room ih =>
      obtain ⟨hstart, hchildren⟩ := sound_iff.mp h
      rw [preorder, List.mem_cons, List.mem_flatMap]
      constructor
      · rintro (rfl | ⟨next, hnext, hx⟩)
        · exact ⟨start, .refl, rfl⟩
        · have hchild := mem_children.mp hnext
          obtain ⟨occurrence, hreach, rfl⟩ := (ih (hchildren next hchild)
            (by rw [List.length_cons]; omega)).mp hx
          exact ⟨occurrence, .head hchild hreach, rfl⟩
      · rintro ⟨occurrence, hreach, rfl⟩
        obtain rfl | ⟨next, hchild, hrest⟩ := hreach.cases_head
        · exact .inl rfl
        · exact .inr ⟨next, mem_children.mpr hchild, (ih (hchildren next hchild)
            (by rw [List.length_cons]; omega)).mpr ⟨occurrence, hrest, rfl⟩⟩

/-- Below the depth nothing more is found. -/
theorem Sound.preorder_deeper (h : g.Sound depth above start) {room : ℕ}
    (hroom : depth - above.length ≤ room) :
    g.preorder room start = g.preorder (depth - above.length) start := by
  induction room generalizing above start with
  | zero =>
      have hshallow := (sound_iff.mp h).1.shallow
      omega
  | succ room ih =>
      obtain ⟨hstart, hchildren⟩ := sound_iff.mp h
      obtain ⟨rest, hrest⟩ : ∃ rest, depth - above.length = rest + 1 :=
        ⟨depth - above.length - 1, by have := hstart.shallow; omega⟩
      rw [hrest, preorder, preorder]
      congr 1
      refine List.flatMap_congr fun next hnext => ?_
      have hlength : depth - (g.node start :: above).length = rest := by
        rw [List.length_cons]
        omega
      rw [ih (hchildren next (mem_children.mp hnext)) (by omega), hlength]

/-- A node above the end of a walk was met on it. -/
theorem walk_mem (h : g.Walk above start above' occurrence) {x : α} (hx : x ∈ above') :
    x ∈ above ∨ ∃ middle, g.node middle = x ∧ ReflTransGen g.Child start middle ∧
      TransGen g.Child middle occurrence := by
  induction h with
  | here => exact .inl hx
  | @down above' occurrence next hwalk hchild ih =>
      obtain rfl | hx := List.mem_cons.mp hx
      · exact .inr ⟨occurrence, rfl, walk_reaches hwalk, .single hchild⟩
      · obtain hx | ⟨middle, rfl, hreach, hbelow⟩ := ih hx
        · exact .inl hx
        · exact .inr ⟨middle, rfl, hreach, hbelow.tail hchild⟩

/-! ### Paths of nodes -/

variable (g) in
/-- An edge between the nodes of two occurrences. -/
def Leads (x y : α) : Prop := ∃ occurrence next, g.node occurrence = x ∧ g.node next = y ∧
  g.Child occurrence next

variable (g) in
/-- Where the edges of an occurrence lead depends on its node only. -/
def Uniform : Prop := ∀ occurrence occurrence' next, g.node occurrence = g.node occurrence' →
  g.Child occurrence next → ∃ next', g.Child occurrence' next' ∧ g.node next' = g.node next

theorem leads_of_reach (h : ReflTransGen g.Child start occurrence) :
    ReflTransGen g.Leads (g.node start) (g.node occurrence) :=
  h.lift g.node fun a b hchild => ⟨a, b, rfl, rfl, hchild⟩

/-- What can be reached from a node can be reached from each of its occurrences. -/
theorem reach_of_leads (huniform : g.Uniform) {x : α} (h : ReflTransGen g.Leads (g.node start) x) :
    ∃ occurrence, ReflTransGen g.Child start occurrence ∧ g.node occurrence = x := by
  induction h with
  | refl => exact ⟨start, .refl, rfl⟩
  | tail _ hleads ih =>
      obtain ⟨occurrence, hreach, hnode⟩ := ih
      obtain ⟨occurrence', next, hnode', rfl, hchild⟩ := hleads
      obtain ⟨next', hchild', hnext⟩ := huniform _ _ _ (hnode'.trans hnode.symm) hchild
      exact ⟨next', hreach.tail hchild', hnext⟩

/-- **No cycle is below the root** of a sound unfolding. -/
theorem Sound.no_cycle (h : g.Sound depth above start) (huniform : g.Uniform) {x : α}
    (hreach : ReflTransGen g.Leads (g.node start) x) : ¬ TransGen g.Leads x x := by
  intro hcycle
  obtain ⟨middle, hmiddle, rfl⟩ := reach_of_leads huniform hreach
  obtain ⟨y, ⟨occurrence, next, hnode, rfl, hchild⟩, hback⟩ := TransGen.head'_iff.mp hcycle
  obtain ⟨next', hchild', hnext⟩ := huniform _ _ _ hnode hchild
  rw [← hnext] at hback
  obtain ⟨occurrence', hreach', hnode'⟩ := reach_of_leads huniform hback
  exact h.acyclic hmiddle (.head' hchild' hreach') hnode'

/-- A path of nodes is the one of a walk. -/
theorem walk_of_path (huniform : g.Uniform) {path : List α}
    (h : List.IsChain g.Leads (g.node start :: path)) (above : List α) :
    ∃ above' occurrence, g.Walk above start above' occurrence ∧
      above'.length = above.length + path.length := by
  induction path generalizing start above with
  | nil => exact ⟨above, start, .here, rfl⟩
  | cons x path ih =>
      obtain ⟨⟨occurrence, next, hnode, rfl, hchild⟩, hrest⟩ := List.isChain_cons_cons.mp h
      obtain ⟨next', hchild', hnode'⟩ := huniform occurrence start next hnode hchild
      rw [← hnode'] at hrest
      obtain ⟨above', occurrence', hwalk, hlength⟩ := ih hrest (g.node start :: above)
      refine ⟨above', occurrence', walk_of_child hchild' hwalk, ?_⟩
      rw [hlength, List.length_cons, List.length_cons]
      omega

/-- A walk has a path of nodes. -/
theorem path_of_walk (h : g.Walk above start above' occurrence) :
    ∃ path, List.IsChain g.Leads (g.node start :: path) ∧
      (g.node start :: path).getLast (List.cons_ne_nil _ _) = g.node occurrence ∧
      above'.length = above.length + path.length := by
  induction h with
  | here => exact ⟨[], .singleton _, rfl, rfl⟩
  | @down above' occurrence next h hchild ih =>
      obtain ⟨path, hpath, hlast, hlength⟩ := ih
      refine ⟨path ++ [g.node next], ?_, ?_, ?_⟩
      · rw [← List.cons_append, List.isChain_append]
        refine ⟨hpath, .singleton _, fun x hx y hy => ?_⟩
        rw [List.getLast?_eq_some_getLast (List.cons_ne_nil _ _), hlast] at hx
        obtain rfl := Option.some.inj hx
        obtain rfl := Option.some.inj hy
        exact ⟨occurrence, next, rfl, rfl, hchild⟩
      · simp
      · rw [List.length_cons, List.length_append, List.length_singleton, hlength]
        omega

/-- A cycle has paths of any length. -/
theorem path_of_cycle {R : α → α → Prop} {x : α} (h : TransGen R x x) (n : ℕ) :
    ∃ path, List.IsChain R (x :: path) ∧ n ≤ path.length := by
  obtain ⟨y, hxy, hyx⟩ := TransGen.head'_iff.mp h
  induction n generalizing x y with
  | zero => exact ⟨[], .singleton _, Nat.le_refl _⟩
  | succ n ih =>
      obtain rfl | ⟨z, hyz, hzx⟩ := hyx.cases_head
      · obtain ⟨path, hpath, hlength⟩ := ih h y hxy .refl
        exact ⟨y :: path, List.isChain_cons_cons.mpr ⟨hxy, hpath⟩, Nat.succ_le_succ hlength⟩
      · obtain ⟨path, hpath, hlength⟩ := ih (x := y)
          (.head' hyz (hzx.tail hxy)) z hyz (hzx.tail hxy)
        exact ⟨y :: path, List.isChain_cons_cons.mpr ⟨hxy, hpath⟩, Nat.succ_le_succ hlength⟩

/-- **Sound unfoldings**, where no edge is refused: all paths are short. -/
theorem sound_iff_paths (huniform : g.Uniform)
    (haccepted : ∀ occurrence error, .error error ∉ g.edges occurrence) :
    g.Sound depth [] start ↔
      ∀ path, List.IsChain g.Leads (g.node start :: path) → path.length < depth := by
  constructor
  · intro h path hpath
    obtain ⟨above', occurrence, hwalk, hlength⟩ := walk_of_path huniform hpath []
    have hshallow := (h _ _ hwalk).shallow
    rw [hlength, List.length_nil] at hshallow
    omega
  · intro h above' occurrence hwalk
    refine ⟨fun hmem => ?_, ?_, haccepted occurrence⟩
    · obtain hnil | ⟨middle, hmiddle, hreach, hbelow⟩ := walk_mem hwalk hmem
      · cases hnil
      · -- a path to the node, and as often around the cycle as is too long
        have hcycle : TransGen g.Leads (g.node middle) (g.node middle) := by
          have hlifted : TransGen g.Leads (g.node middle) (g.node occurrence) :=
            hbelow.lift g.node fun a b hchild => ⟨a, b, rfl, rfl, hchild⟩
          rw [hmiddle] at hlifted ⊢
          exact hlifted
        obtain ⟨around, haround, hlong⟩ := path_of_cycle hcycle depth
        obtain ⟨met, hwalk'⟩ := exists_walk hreach ([] : List α)
        obtain ⟨path, hpath, hlast, -⟩ := path_of_walk hwalk'
        have hchain : List.IsChain g.Leads (g.node start :: (path ++ around)) := by
          rw [← List.cons_append, List.isChain_append]
          refine ⟨hpath, haround.of_cons, fun x hx y hy => ?_⟩
          rw [List.getLast?_eq_some_getLast (List.cons_ne_nil _ _), hlast] at hx
          obtain rfl := Option.some.inj hx
          exact haround.rel_head? hy
        have hshort := h _ hchain
        rw [List.length_append] at hshort
        omega
    · obtain ⟨path, hpath, -, hlength⟩ := path_of_walk hwalk
      rw [hlength, List.length_nil, Nat.zero_add]
      exact h path hpath

/-! ### Leaving the refusals out -/

variable {ε' : Type} {h : Graph α β ε'}

variable (g h) in
/-- The same graph as far as its edges are not refused. -/
structure Accepts : Prop where
  node : g.node = h.node
  children : ∀ occurrence, (∀ error, .error error ∉ g.edges occurrence) →
    g.children occurrence = h.children occurrence
  accepted : ∀ occurrence error, .error error ∉ h.edges occurrence

theorem Accepts.child (hgh : g.Accepts h) (haccepted : ∀ error, .error error ∉ g.edges occurrence) :
    g.Child occurrence next ↔ h.Child occurrence next := by
  rw [← mem_children, ← mem_children, hgh.children occurrence haccepted]

/-- **Refusals apart**, the unfoldings are sound together. -/
theorem Accepts.sound_iff (hgh : g.Accepts h) :
    g.Sound depth above start ↔ h.Sound depth above start ∧
      ∀ occurrence, ReflTransGen h.Child start occurrence →
        ∀ error, .error error ∉ g.edges occurrence := by
  constructor
  · intro hg
    have hwalks : ∀ above' occurrence, h.Walk above start above' occurrence →
        g.Walk above start above' occurrence := by
      intro above' occurrence hwalk
      induction hwalk with
      | here => exact .here
      | down _ hchild ih =>
          rw [← hgh.node]
          exact .down ih ((hgh.child (hg _ _ ih).accepted).mpr hchild)
    refine ⟨fun above' occurrence hwalk => ?_, fun occurrence hreach => ?_⟩
    · obtain ⟨hfresh, hshallow, -⟩ := hg _ _ (hwalks _ _ hwalk)
      exact ⟨hgh.node ▸ hfresh, hshallow, hgh.accepted occurrence⟩
    · obtain ⟨above', hwalk⟩ := exists_walk hreach above
      exact (hg _ _ (hwalks _ _ hwalk)).accepted
  · rintro ⟨hh, haccepted⟩ above' occurrence hwalk
    have hwalk' : h.Walk above start above' occurrence := by
      induction hwalk with
      | here => exact .here
      | down _ hchild ih =>
          rw [hgh.node]
          exact .down ih ((hgh.child (haccepted _ (walk_reaches ih))).mp hchild)
    obtain ⟨hfresh, hshallow, -⟩ := hh _ _ hwalk'
    exact ⟨hgh.node ▸ hfresh, hshallow, haccepted _ (walk_reaches hwalk')⟩

theorem Accepts.preorder (hgh : g.Accepts h)
    (haccepted : ∀ occurrence, ReflTransGen h.Child start occurrence →
      ∀ error, .error error ∉ g.edges occurrence) (room : ℕ) :
    g.preorder room start = h.preorder room start := by
  induction room generalizing start with
  | zero => rfl
  | succ room ih =>
      have hchildren := hgh.children start (haccepted start .refl)
      rw [Graph.preorder, Graph.preorder, hchildren, hgh.node]
      congr 1
      refine List.flatMap_congr fun next hnext => ih fun occurrence hreach => ?_
      exact haccepted occurrence (.head (mem_children.mp hnext) hreach)

/-! ### Corresponding unfoldings -/

end Graph

end Unfolding
end Library
end Glaux
