import Glaux.Library.Outcome
import Glaux.Library.Reachability
import Mathlib.Algebra.BigOperators.Group.Finset.Basic
import Mathlib.Data.List.FinRange

/-!
# The cycle guard of the schema catalog

Before the validators are compiled, the same-instance edges between schema positions
are searched.  The search colours the positions, keeps the open ones on a stack, and
records for every finished position the height of what it leads to.  A stack that is
too tall, an edge back to an open position and a height that is too great end it.

The catalog is accepted exactly when its edges close no cycle and no path along them
has more positions than the limit, whatever the numbering and the order of the edges.
-/

namespace Glaux
namespace Standards
namespace SchemaGuard

open Library Relation

/-- Where the same-instance edges of every schema position lead, in order and with
repetitions. -/
abbrev Edges (n : ℕ) := Fin n → List (Fin n)

/-- The code's 0, 1 and 2. -/
inductive Color where
  | unseen
  | opened
  | finished
deriving DecidableEq

structure Search (n : ℕ) where
  colors : Fin n → Color
  heights : Fin n → ℕ
  /-- An open position and the number of its edges already taken; the top comes first. -/
  stack : List (Fin n × ℕ)

def depthExceeded : String := "same-instance schema depth limit exceeded"

def referenceCycle : String := "non-progressing schema reference cycle"

section Code

variable {n : ℕ} (limit : ℕ) (edges : Edges n)

def height (heights : Fin n → ℕ) (node : Fin n) : ℕ :=
  (((edges node).map heights).max?).getD 0 + 1

/-- `child` is coloured 1 and pushed. -/
def Search.push (s : Search n) (child : Fin n) (stack : List (Fin n × ℕ)) : Search n :=
  { s with
    colors := Function.update s.colors child .opened
    stack := (child, 0) :: stack }

/-- `node` gets its height, is coloured 2 and popped. -/
def Search.pop (s : Search n) (node : Fin n) (height : ℕ) (rest : List (Fin n × ℕ)) : Search n where
  colors := Function.update s.colors node .finished
  heights := Function.update s.heights node height
  stack := rest

@[simp] theorem push_stack (s : Search n) (child : Fin n) (stack : List (Fin n × ℕ)) :
    (s.push child stack).stack = (child, 0) :: stack := rfl

@[simp] theorem push_heights (s : Search n) (child : Fin n) (stack : List (Fin n × ℕ)) :
    (s.push child stack).heights = s.heights := rfl

@[simp] theorem push_color (s : Search n) (child : Fin n) (stack : List (Fin n × ℕ)) :
    (s.push child stack).colors child = .opened := Function.update_self ..

theorem push_color_of_ne (s : Search n) {child v : Fin n} (stack : List (Fin n × ℕ))
    (h : v ≠ child) : (s.push child stack).colors v = s.colors v :=
  Function.update_of_ne h ..

@[simp] theorem pop_stack (s : Search n) (node : Fin n) (height : ℕ) (rest : List (Fin n × ℕ)) :
    (s.pop node height rest).stack = rest := rfl

@[simp] theorem pop_height (s : Search n) (node : Fin n) (height : ℕ)
    (rest : List (Fin n × ℕ)) : (s.pop node height rest).heights node = height :=
  Function.update_self ..

@[simp] theorem pop_color (s : Search n) (node : Fin n) (height : ℕ)
    (rest : List (Fin n × ℕ)) : (s.pop node height rest).colors node = .finished :=
  Function.update_self ..

theorem pop_height_of_ne (s : Search n) {node v : Fin n} (height : ℕ)
    (rest : List (Fin n × ℕ)) (h : v ≠ node) :
    (s.pop node height rest).heights v = s.heights v :=
  Function.update_of_ne h ..

theorem pop_color_of_ne (s : Search n) {node v : Fin n} (height : ℕ)
    (rest : List (Fin n × ℕ)) (h : v ≠ node) :
    (s.pop node height rest).colors v = s.colors v :=
  Function.update_of_ne h ..

/-- The body of the loop, for the frame on top of the stack. -/
def turn (s : Search n) (node : Fin n) (next : ℕ) (rest : List (Fin n × ℕ)) :
    Except String (Search n) :=
  if limit < s.stack.length then .error depthExceeded
  else
    match (edges node)[next]? with
    | some child =>
        match s.colors child with
        | .unseen => .ok (s.push child ((node, next + 1) :: rest))
        | .opened => .error referenceCycle
        | .finished => .ok { s with stack := (node, next + 1) :: rest }
    | none =>
        if limit < height edges s.heights node then .error depthExceeded
        else .ok (s.pop node (height edges s.heights node) rest)

/-- The edges still to be taken and the frames still to be closed. -/
def Search.work (s : Search n) : ℕ :=
  (∑ v with s.colors v = .unseen, ((edges v).length + 1)) +
    (s.stack.map fun frame => (edges frame.1).length - frame.2 + 1).sum

variable {limit edges}

/-- **Inversion of a turn.** -/
theorem turn_eq_ok {s s' : Search n} {node : Fin n} {next : ℕ} {rest : List (Fin n × ℕ)}
    (h : turn limit edges s node next rest = .ok s') :
    (∃ child, (edges node)[next]? = some child ∧ s.colors child = .unseen ∧
        s' = s.push child ((node, next + 1) :: rest)) ∨
      (∃ child, (edges node)[next]? = some child ∧ s.colors child = .finished ∧
        s' = { s with stack := (node, next + 1) :: rest }) ∨
      ((edges node)[next]? = none ∧ height edges s.heights node ≤ limit ∧
        s' = s.pop node (height edges s.heights node) rest) := by
  simp only [turn] at h
  split at h
  · exact absurd h (by simp)
  · cases hchild : (edges node)[next]? with
    | some child =>
        rw [hchild] at h
        cases hcolor : s.colors child with
        | unseen =>
            simp only [hcolor, Except.ok.injEq] at h
            exact .inl ⟨child, rfl, hcolor, h.symm⟩
        | opened => simp [hcolor] at h
        | finished =>
            simp only [hcolor, Except.ok.injEq] at h
            exact .inr (.inl ⟨child, rfl, hcolor, h.symm⟩)
    | none =>
        simp only [hchild] at h
        split at h
        · exact absurd h (by simp)
        · rename_i hbound
          exact .inr (.inr ⟨rfl, Nat.le_of_not_lt hbound, (Except.ok.inj h).symm⟩)

/-- The three ways a turn ends the search. -/
theorem turn_eq_error {s : Search n} {node : Fin n} {next : ℕ} {rest : List (Fin n × ℕ)}
    {e : String} (h : turn limit edges s node next rest = .error e) :
    limit < s.stack.length ∨
      (∃ child, (edges node)[next]? = some child ∧ s.colors child = .opened) ∨
      ((edges node)[next]? = none ∧ limit < height edges s.heights node) := by
  simp only [turn] at h
  split at h
  · rename_i htall
    exact .inl htall
  · cases hchild : (edges node)[next]? with
    | some child =>
        rw [hchild] at h
        cases hcolor : s.colors child with
        | unseen => simp [hcolor] at h
        | opened => exact .inr (.inl ⟨child, rfl, hcolor⟩)
        | finished => simp [hcolor] at h
    | none =>
        simp only [hchild] at h
        split at h
        · rename_i hhigh
          exact .inr (.inr ⟨rfl, hhigh⟩)
        · exact absurd h (by simp)

theorem work_push (edges : Edges n) {s : Search n} {child : Fin n}
    (h : s.colors child = .unseen) (stack : List (Fin n × ℕ)) :
    (∑ v with s.colors v = .unseen, ((edges v).length + 1)) =
      (∑ v with (s.push child stack).colors v = .unseen, ((edges v).length + 1)) +
        ((edges child).length + 1) := by
  have hunseen : (Finset.univ.filter fun v => s.colors v = .unseen) =
      insert child (Finset.univ.filter fun v => (s.push child stack).colors v = .unseen) := by
    ext v
    by_cases hv : v = child
    · simp [hv, h]
    · simp [hv, push_color_of_ne s stack hv]
  rw [hunseen, Finset.sum_insert (by simp), Nat.add_comm]

theorem work_pop (edges : Edges n) (s : Search n) (node : Fin n) (high : ℕ)
    (rest : List (Fin n × ℕ)) :
    (∑ v with (s.pop node high rest).colors v = .unseen, ((edges v).length + 1)) ≤
      ∑ v with s.colors v = .unseen, ((edges v).length + 1) := by
  refine Finset.sum_le_sum_of_subset fun v hv => ?_
  simp only [Finset.mem_filter, Finset.mem_univ, true_and] at hv ⊢
  by_cases hnode : v = node
  · simp [hnode] at hv
  · rwa [pop_color_of_ne s high rest hnode] at hv

/-- Every turn leaves less to do. -/
theorem turn_work {s s' : Search n} {node : Fin n} {next : ℕ} {rest : List (Fin n × ℕ)}
    (hstack : s.stack = (node, next) :: rest) (h : turn limit edges s node next rest = .ok s') :
    s'.work edges < s.work edges := by
  have hbefore : s.work edges = (∑ v with s.colors v = .unseen, ((edges v).length + 1)) +
      ((edges node).length - next + 1 +
        (rest.map fun frame => (edges frame.1).length - frame.2 + 1).sum) := by
    rw [Search.work, hstack]
    rfl
  obtain ⟨child, hchild, hcolor, rfl⟩ | ⟨child, hchild, -, rfl⟩ | ⟨-, -, rfl⟩ := turn_eq_ok h
  · have hnext : next < (edges node).length := (List.getElem?_eq_some_iff.mp hchild).1
    have hpush := work_push edges hcolor ((node, next + 1) :: rest)
    rw [hbefore, Search.work, push_stack]
    simp only [List.map_cons, List.sum_cons]
    omega
  · have hnext : next < (edges node).length := (List.getElem?_eq_some_iff.mp hchild).1
    rw [hbefore, Search.work]
    simp only [List.map_cons, List.sum_cons]
    omega
  · have hpop := work_pop edges s node (height edges s.heights node) rest
    rw [hbefore, Search.work, pop_stack]
    omega

variable (limit edges)

/-- The loop that empties the stack. -/
def explore (s : Search n) : Except String (Search n) :=
  match hstack : s.stack with
  | [] => .ok s
  | (node, next) :: rest =>
      match hturn : turn limit edges s node next rest with
      | .error e => .error e
      | .ok s' => explore s'
termination_by s.work edges
decreasing_by exact turn_work hstack hturn

variable {limit edges}

theorem explore_nil {s : Search n} (h : s.stack = []) : explore limit edges s = .ok s := by
  rw [explore]
  split
  · rfl
  · rename_i hstack
    exact absurd (h.symm.trans hstack) nofun

theorem explore_cons {s : Search n} {node : Fin n} {next : ℕ} {rest : List (Fin n × ℕ)}
    (h : s.stack = (node, next) :: rest) :
    explore limit edges s = turn limit edges s node next rest >>= explore limit edges := by
  rw [explore]
  split
  · rename_i hstack
    exact absurd (h.symm.trans hstack) nofun
  · rename_i node' next' rest' hstack
    obtain ⟨hframe, rfl⟩ := List.cons.inj (h.symm.trans hstack)
    obtain ⟨rfl, rfl⟩ := Prod.mk.inj hframe
    split
    · rename_i e hturn
      rw [hturn]
      rfl
    · rename_i s' hturn
      rw [hturn]
      rfl

variable (limit edges)

def initial : Search n := ⟨fun _ => .unseen, fun _ => 0, []⟩

/-- The search from one position. -/
def searchFrom (s : Search n) (start : Fin n) : Except String (Search n) :=
  if s.colors start = .unseen then
    explore limit edges
      { s with colors := Function.update s.colors start .opened, stack := [(start, 0)] }
  else .ok s

def check_cycles : Except String Unit := do
  let _ ← (List.finRange n).foldlM (searchFrom limit edges) initial
  .ok ()

end Code

section Paths

variable {n : ℕ}

/-- A same-instance edge. -/
def Leads (edges : Edges n) (node child : Fin n) : Prop := child ∈ edges node

/-- A path of the given length starts here. -/
def Starts (edges : Edges n) (node : Fin n) (length : ℕ) : Prop :=
  ∃ tail, (node :: tail).IsChain (Leads edges) ∧ (node :: tail).length = length

/-- What an accepted catalog has. -/
structure Shallow (limit : ℕ) (edges : Edges n) : Prop where
  acyclic : Acyclic (Leads edges)
  paths : ∀ path : List (Fin n), path.IsChain (Leads edges) → path.length ≤ limit

variable {limit : ℕ} {edges : Edges n}

theorem Shallow.starts (h : Shallow limit edges) {node : Fin n} {length : ℕ}
    (hstarts : Starts edges node length) : length ≤ limit := by
  obtain ⟨tail, hchain, rfl⟩ := hstarts
  exact h.paths _ hchain

theorem Starts.cons {node child : Fin n} {length : ℕ} (hleads : Leads edges node child)
    (h : Starts edges child length) : Starts edges node (length + 1) := by
  obtain ⟨tail, hchain, rfl⟩ := h
  exact ⟨child :: tail, List.isChain_cons_cons.mpr ⟨hleads, hchain⟩, rfl⟩

/-- Heights that fall along every edge bound the paths. -/
theorem path_length_le {heights : Fin n → ℕ}
    (hfall : ∀ node child, Leads edges node child → heights child < heights node)
    (hpos : ∀ node, 0 < heights node) (node : Fin n) (tail : List (Fin n))
    (hchain : (node :: tail).IsChain (Leads edges)) :
    (node :: tail).length ≤ heights node := by
  induction tail generalizing node with
  | nil => exact hpos node
  | cons child tail ih =>
      obtain ⟨hleads, hrest⟩ := List.isChain_cons_cons.mp hchain
      have hchild := ih child hrest
      have hless := hfall node child hleads
      simp only [List.length_cons] at hchild ⊢
      omega

theorem acyclic_of_heights {heights : Fin n → ℕ}
    (hfall : ∀ node child, Leads edges node child → heights child < heights node) :
    Acyclic (Leads edges) := by
  have hless : ∀ {a b}, TransGen (Leads edges) a b → heights b < heights a := by
    intro a b h
    induction h with
    | single hab => exact hfall _ _ hab
    | tail _ hbc ih => exact Nat.lt_trans (hfall _ _ hbc) ih
  exact fun a hcycle => Nat.lt_irrefl _ (hless hcycle)

theorem le_height {heights : Fin n → ℕ} {node child : Fin n} (h : Leads edges node child) :
    heights child < height edges heights node := by
  have hmem : heights child ∈ (edges node).map heights := List.mem_map_of_mem h
  obtain ⟨most, hmost⟩ := Option.isSome_iff_exists.mp
    (List.isSome_max?_of_mem hmem)
  have hle := List.le_max?_get_of_mem hmem
  simp only [hmost, Option.get_some] at hle
  simp only [height, hmost, Option.getD_some]
  omega

/-- The height of a position is reached by a path when those of its children are. -/
theorem height_starts {heights : Fin n → ℕ} {node : Fin n}
    (h : ∀ child, Leads edges node child → Starts edges child (heights child)) :
    Starts edges node (height edges heights node) := by
  cases hmost : ((edges node).map heights).max? with
  | none =>
      simp only [height, hmost, Option.getD_none]
      exact ⟨[], List.isChain_singleton _, rfl⟩
  | some most =>
      obtain ⟨child, hchild, rfl⟩ := List.mem_map.mp (List.max?_mem hmost)
      simp only [height, hmost, Option.getD_some]
      exact (h child hchild).cons hchild

end Paths

section Invariant

variable {n : ℕ} {limit : ℕ} {edges : Edges n}

/-- The edges already taken from an open position lead to finished positions, the last
one possibly to the position opened next. -/
def Scanned (edges : Edges n) (colors : Fin n → Color) :
    Option (Fin n) → List (Fin n × ℕ) → Prop
  | _, [] => True
  | above, (node, next) :: rest =>
      (∀ child ∈ (edges node).take next, colors child = .finished ∨ above = some child) ∧
        Scanned edges colors (some node) rest

theorem Scanned.mono {colors colors' : Fin n → Color}
    (hcolors : ∀ v, colors v = .finished → colors' v = .finished) :
    ∀ {above : Option (Fin n)} {stack : List (Fin n × ℕ)},
      Scanned edges colors above stack → Scanned edges colors' above stack
  | _, [], _ => trivial
  | _, _ :: _, ⟨htop, hrest⟩ =>
      ⟨fun child hchild => (htop child hchild).imp (hcolors child) id, hrest.mono hcolors⟩

/-- Once the position above is finished, nothing above is open. -/
theorem Scanned.pop {colors : Fin n → Color} {node : Fin n} (h : colors node = .finished) :
    ∀ {stack : List (Fin n × ℕ)},
      Scanned edges colors (some node) stack → Scanned edges colors none stack
  | [], _ => trivial
  | _ :: _, ⟨htop, hrest⟩ =>
      ⟨fun child hchild => .inl ((htop child hchild).elim id fun heq =>
        Option.some.inj heq ▸ h), hrest⟩

/-- What is recorded of a finished position. -/
structure Measured (limit : ℕ) (edges : Edges n) (s : Search n) (node : Fin n) : Prop where
  children : ∀ child, Leads edges node child →
    s.colors child = .finished ∧ s.heights child < s.heights node
  bounded : s.heights node ≤ limit
  reached : Starts edges node (s.heights node)

/-- **Invariant of the search.** -/
structure Explored (limit : ℕ) (edges : Edges n) (s : Search n) : Prop where
  path : (s.stack.map (·.1)).IsChain fun child parent => Leads edges parent child
  distinct : (s.stack.map (·.1)).Nodup
  opened : ∀ v, s.colors v = .opened ↔ v ∈ s.stack.map (·.1)
  scanned : Scanned edges s.colors none s.stack
  finished : ∀ v, s.colors v = .finished → Measured limit edges s v

theorem explored_initial : Explored limit edges initial where
  path := .nil
  distinct := .nil
  opened v := by simp [initial]
  scanned := trivial
  finished v h := by simp [initial] at h

/-- What is recorded stays when only other positions are touched. -/
theorem Measured.keep {s s' : Search n} {node : Fin n} (h : Measured limit edges s node)
    (hfinished : s.colors node = .finished)
    (hkeep : ∀ v, s.colors v = .finished → s'.colors v = .finished ∧ s'.heights v = s.heights v) :
    Measured limit edges s' node := by
  obtain ⟨-, hnode⟩ := hkeep node hfinished
  refine ⟨fun child hleads => ?_, hnode ▸ h.bounded, hnode ▸ h.reached⟩
  obtain ⟨hcolor, hless⟩ := h.children child hleads
  obtain ⟨hcolor', hchild⟩ := hkeep child hcolor
  exact ⟨hcolor', by rwa [hnode, hchild]⟩

/-- An unseen position is opened on top of the stack. -/
theorem Explored.push {s : Search n} (h : Explored limit edges s) {child : Fin n}
    (hunseen : s.colors child = .unseen) {stack : List (Fin n × ℕ)}
    (hnodes : stack.map (·.1) = s.stack.map (·.1))
    (hleads : ∀ parent ∈ (s.stack.map (·.1)).head?, Leads edges parent child)
    (hscanned : Scanned edges s.colors (some child) stack) :
    Explored limit edges (s.push child stack) := by
  have hfinished : ∀ v, s.colors v = .finished → (s.push child stack).colors v = .finished := by
    intro v hv
    have hne : v ≠ child := by
      rintro rfl
      simp [hunseen] at hv
    rwa [push_color_of_ne s stack hne]
  have hclosed : child ∉ s.stack.map (·.1) := by
    rw [← h.opened child, hunseen]
    exact nofun
  refine ⟨?_, ?_, fun v => ?_, ⟨fun c hc => absurd hc List.not_mem_nil, hscanned.mono hfinished⟩,
    fun v hv => ?_⟩
  · rw [push_stack, List.map_cons, hnodes, List.isChain_cons]
    exact ⟨hleads, h.path⟩
  · rw [push_stack, List.map_cons, hnodes]
    exact List.nodup_cons.mpr ⟨hclosed, h.distinct⟩
  · rw [push_stack, List.map_cons, hnodes, List.mem_cons]
    by_cases hv : v = child
    · simp [hv]
    · simpa only [push_color_of_ne s stack hv, hv, false_or] using h.opened v
  · have hold : s.colors v = .finished := by
      by_cases heq : v = child
      · simp [heq] at hv
      · rwa [push_color_of_ne s stack heq] at hv
    exact (h.finished v hold).keep hold fun w hw => ⟨hfinished w hw, rfl⟩

/-- An edge to a finished position is passed over. -/
theorem Explored.pass {s : Search n} (h : Explored limit edges s) {node child : Fin n}
    {next : ℕ} {rest : List (Fin n × ℕ)} (hstack : s.stack = (node, next) :: rest)
    (hchild : (edges node)[next]? = some child) (hfinished : s.colors child = .finished) :
    Explored limit edges { s with stack := (node, next + 1) :: rest } := by
  have hnodes : ((node, next + 1) :: rest).map (·.1) = s.stack.map (·.1) := by
    rw [hstack]
    rfl
  obtain ⟨htop, hrest⟩ := hstack ▸ h.scanned
  refine ⟨hnodes ▸ h.path, hnodes ▸ h.distinct, fun v => ?_, ⟨fun c hc => ?_, hrest⟩,
    fun v hv => (h.finished v hv).keep hv fun w hw => ⟨hw, rfl⟩⟩
  · rw [hnodes]
    exact h.opened v
  · rw [List.take_add_one, hchild] at hc
    obtain hc | hc := List.mem_append.mp hc
    · exact htop c hc
    · obtain rfl := List.mem_singleton.mp hc
      exact .inl hfinished

/-- At the end of its edges, every child of the top position is finished. -/
theorem Explored.children_finished {s : Search n} (h : Explored limit edges s) {node : Fin n}
    {next : ℕ} {rest : List (Fin n × ℕ)} (hstack : s.stack = (node, next) :: rest)
    (hend : (edges node)[next]? = none) (child : Fin n) (hleads : Leads edges node child) :
    s.colors child = .finished := by
  obtain ⟨htop, -⟩ := hstack ▸ h.scanned
  have hall : (edges node).take next = edges node :=
    List.take_of_length_le (List.getElem?_eq_none_iff.mp hend)
  exact (htop child (hall.symm ▸ hleads)).resolve_right nofun

/-- The top position is finished. -/
theorem Explored.pop {s : Search n} (h : Explored limit edges s) {node : Fin n} {next : ℕ}
    {rest : List (Fin n × ℕ)} (hstack : s.stack = (node, next) :: rest)
    (hend : (edges node)[next]? = none) (hbound : height edges s.heights node ≤ limit) :
    Explored limit edges (s.pop node (height edges s.heights node) rest) := by
  have hchildren := h.children_finished hstack hend
  have hopened : s.colors node = .opened := (h.opened node).mpr (by simp [hstack])
  have hother : ∀ v, s.colors v = .finished → v ≠ node := by
    rintro v hv rfl
    simp [hopened] at hv
  have hdistinct := hstack ▸ h.distinct
  obtain ⟨hnode, hdistinct⟩ := List.nodup_cons.mp hdistinct
  have hpath := hstack ▸ h.path
  obtain ⟨-, hscanned⟩ := hstack ▸ h.scanned
  have hfinished : ∀ v, s.colors v = .finished →
      (s.pop node (height edges s.heights node) rest).colors v = .finished := by
    intro v hv
    rwa [pop_color_of_ne s _ rest (hother v hv)]
  refine ⟨hpath.tail, hdistinct, fun v => ?_, (hscanned.mono hfinished).pop (pop_color ..),
    fun v hv => ?_⟩
  · by_cases hv : v = node
    · subst hv
      simpa using hnode
    · have hv' := h.opened v
      rw [hstack, List.map_cons, List.mem_cons] at hv'
      simpa only [pop_stack, pop_color_of_ne s _ rest hv, hv, false_or] using hv'
  · by_cases heq : v = node
    · subst heq
      have hself : Starts edges v (height edges s.heights v) :=
        height_starts fun child hleads => (h.finished child (hchildren child hleads)).reached
      refine ⟨fun child hleads => ?_, by simpa using hbound, by simpa using hself⟩
      have hchild := hchildren child hleads
      refine ⟨hfinished child hchild, ?_⟩
      rw [pop_height, pop_height_of_ne s _ rest (hother child hchild)]
      exact le_height hleads
    · rw [pop_color_of_ne s _ rest heq] at hv
      exact (h.finished v hv).keep hv fun w hw =>
        ⟨hfinished w hw, pop_height_of_ne s _ rest (hother w hw)⟩

/-- A successful turn keeps the invariant. -/
theorem explored_turn {s s' : Search n} (h : Explored limit edges s) {node : Fin n} {next : ℕ}
    {rest : List (Fin n × ℕ)} (hstack : s.stack = (node, next) :: rest)
    (hturn : turn limit edges s node next rest = .ok s') : Explored limit edges s' := by
  obtain ⟨child, hchild, hcolor, rfl⟩ | ⟨child, hchild, hcolor, rfl⟩ | ⟨hend, hbound, rfl⟩ :=
    turn_eq_ok hturn
  · have hedge : Leads edges node child := List.mem_of_getElem? hchild
    obtain ⟨htop, hrest⟩ := hstack ▸ h.scanned
    refine h.push hcolor (by simp [hstack]) (by simpa [hstack] using hedge)
      ⟨fun c hc => ?_, hrest⟩
    rw [List.take_add_one, hchild] at hc
    obtain hc | hc := List.mem_append.mp hc
    · exact .inl ((htop c hc).resolve_right nofun)
    · exact .inr (congrArg some (List.mem_singleton.mp hc).symm)
  · exact h.pass hstack hchild hcolor
  · exact h.pop hstack hend hbound

/-- The open positions lead to the top of the stack. -/
theorem leads_to_top {node : Fin n} :
    ∀ {nodes : List (Fin n)},
      (node :: nodes).IsChain (fun child parent => Leads edges parent child) →
      ∀ v ∈ node :: nodes, ReflTransGen (Leads edges) v node
  | [], _, v, hv => by
      obtain rfl := List.mem_singleton.mp hv
      exact .refl
  | parent :: nodes, hchain, v, hv => by
      obtain ⟨hleads, hrest⟩ := List.isChain_cons_cons.mp hchain
      obtain rfl | hv := List.mem_cons.mp hv
      · exact .refl
      · exact (leads_to_top hrest v hv).tail hleads

/-- **A turn ends the search** only for a catalog that is not shallow. -/
theorem turn_error {s : Search n} (h : Explored limit edges s) {node : Fin n} {next : ℕ}
    {rest : List (Fin n × ℕ)} (hstack : s.stack = (node, next) :: rest) {e : String}
    (hturn : turn limit edges s node next rest = .error e) : ¬ Shallow limit edges := by
  intro hshallow
  obtain htall | ⟨child, hchild, hcolor⟩ | ⟨hend, hhigh⟩ := turn_eq_error hturn
  · have hpath : ((s.stack.map (·.1)).reverse).IsChain (Leads edges) :=
      List.isChain_reverse.mpr h.path
    have hlength := hshallow.paths _ hpath
    simp only [List.length_reverse, List.length_map] at hlength
    omega
  · have hopen := (h.opened child).mp hcolor
    have hpath := h.path
    rw [hstack, List.map_cons] at hopen hpath
    have hback := leads_to_top hpath child hopen
    exact hshallow.acyclic child (.tail' hback (List.mem_of_getElem? hchild))
  · have hchildren := h.children_finished hstack hend
    have hself : Starts edges node (height edges s.heights node) :=
      height_starts fun child hleads => (h.finished child (hchildren child hleads)).reached
    exact absurd (hshallow.starts hself) (Nat.not_le_of_lt hhigh)

/-- Colours never go back to unseen. -/
theorem turn_seen {s s' : Search n} {node : Fin n} {next : ℕ} {rest : List (Fin n × ℕ)}
    (hturn : turn limit edges s node next rest = .ok s') (v : Fin n)
    (hv : s.colors v ≠ .unseen) : s'.colors v ≠ .unseen := by
  obtain ⟨child, -, -, rfl⟩ | ⟨child, -, -, rfl⟩ | ⟨-, -, rfl⟩ := turn_eq_ok hturn
  · by_cases heq : v = child
    · simp [heq]
    · rwa [push_color_of_ne s _ heq]
  · exact hv
  · by_cases heq : v = node
    · simp [heq]
    · rwa [pop_color_of_ne s _ rest heq]

end Invariant

section Run

variable {n : ℕ} {limit : ℕ} {edges : Edges n}

/-- What a loop leaves behind: the positions it is about are finished, or the catalog is
not shallow. -/
def Ended (limit : ℕ) (edges : Edges n) (about : Fin n → Prop) :
    Except String (Search n) → Prop
  | .ok s => Explored limit edges s ∧ s.stack = [] ∧ ∀ v, about v → s.colors v ≠ .unseen
  | .error _ => ¬ Shallow limit edges

theorem Ended.mono {about about' : Fin n → Prop} (habout : ∀ v, about' v → about v) :
    ∀ {result : Except String (Search n)},
      Ended limit edges about result → Ended limit edges about' result
  | .ok _, ⟨h, hempty, hseen⟩ => ⟨h, hempty, fun v hv => hseen v (habout v hv)⟩
  | .error _, h => h

theorem explore_ended {s : Search n} (h : Explored limit edges s) :
    Ended limit edges (fun v => s.colors v ≠ .unseen) (explore limit edges s) := by
  induction s using explore.induct limit edges with
  | case1 s hstack =>
      rw [explore_nil hstack]
      exact ⟨h, hstack, fun _ hv => hv⟩
  | case2 s node next rest hstack e hturn =>
      rw [explore_cons hstack, hturn]
      exact turn_error h hstack hturn
  | case3 s node next rest hstack s' hturn ih =>
      rw [explore_cons hstack, hturn]
      exact (ih (explored_turn h hstack hturn)).mono fun v hv => turn_seen hturn v hv

theorem searchFrom_ended {s : Search n} (h : Explored limit edges s) (hempty : s.stack = [])
    (start : Fin n) :
    Ended limit edges (fun v => v = start ∨ s.colors v ≠ .unseen)
      (searchFrom limit edges s start) := by
  rw [searchFrom]
  split
  · rename_i hunseen
    have hscanned : Scanned edges s.colors (some start) [] := trivial
    refine (explore_ended (h.push hunseen (by simp [hempty]) (by simp [hempty]) hscanned)).mono
      fun v hv => ?_
    by_cases heq : v = start
    · simp [heq]
    · rw [push_color_of_ne s _ heq]
      exact hv.resolve_left heq
  · rename_i hseen
    exact ⟨h, hempty, fun v hv => hv.elim (fun heq => heq ▸ hseen) id⟩

/-- Every start is finished, and the next search begins where the last one ended. -/
theorem fold_ended (starts : List (Fin n)) {s : Search n} (h : Explored limit edges s)
    (hempty : s.stack = []) :
    Ended limit edges (fun v => v ∈ starts ∨ s.colors v ≠ .unseen)
      (starts.foldlM (searchFrom limit edges) s) := by
  induction starts generalizing s with
  | nil => exact ⟨h, hempty, fun v hv => hv.resolve_left List.not_mem_nil⟩
  | cons start starts ih =>
      have hfirst := searchFrom_ended h hempty start
      rw [List.foldlM_cons]
      cases hsearch : searchFrom limit edges s start with
      | error e =>
          rw [hsearch] at hfirst
          exact hfirst
      | ok s₁ =>
          rw [hsearch] at hfirst
          obtain ⟨h₁, hempty₁, hseen⟩ := hfirst
          refine (ih h₁ hempty₁).mono fun v hv => ?_
          obtain hv | hv := hv
          · exact (List.mem_cons.mp hv).elim (fun heq => .inr (hseen v (.inl heq))) .inl
          · exact .inr (hseen v (.inr hv))

/-- A search that ends with an empty stack and without unseen positions has measured a
shallow catalog. -/
theorem Explored.shallow {s : Search n} (h : Explored limit edges s) (hempty : s.stack = [])
    (hseen : ∀ v, s.colors v ≠ .unseen) : Shallow limit edges := by
  have hfinished : ∀ v, s.colors v = .finished := by
    intro v
    cases hcolor : s.colors v with
    | unseen => exact absurd hcolor (hseen v)
    | opened =>
        have hopen := (h.opened v).mp hcolor
        rw [hempty] at hopen
        exact absurd hopen List.not_mem_nil
    | finished => rfl
  have hfall : ∀ node child, Leads edges node child → s.heights child < s.heights node :=
    fun node child hleads => ((h.finished node (hfinished node)).children child hleads).2
  have hpos : ∀ node, 0 < s.heights node := by
    intro node
    obtain ⟨tail, -, hlength⟩ := (h.finished node (hfinished node)).reached
    exact hlength ▸ Nat.succ_pos _
  refine ⟨acyclic_of_heights hfall, fun path hchain => ?_⟩
  cases path with
  | nil => exact Nat.zero_le _
  | cons node tail =>
      exact (path_length_le hfall hpos node tail hchain).trans
        (h.finished node (hfinished node)).bounded

/-- **Exactness of the guard.** -/
theorem check_cycles_eq_ok (limit : ℕ) (edges : Edges n) :
    check_cycles limit edges = .ok () ↔ Shallow limit edges := by
  have hinitial : Explored limit edges initial := explored_initial
  have hended := fold_ended (List.finRange n) hinitial rfl
  rw [check_cycles]
  cases hsearch : (List.finRange n).foldlM (searchFrom limit edges) initial with
  | error e =>
      rw [hsearch] at hended
      exact iff_of_false nofun hended
  | ok s =>
      rw [hsearch] at hended
      obtain ⟨h, hempty, hseen⟩ := hended
      exact iff_of_true rfl (h.shallow hempty fun v => hseen v (.inl (List.mem_finRange v)))

end Run

section Renumbering

variable {n m : ℕ} {limit : ℕ}

/-- The same edges under other numbers, in any order and with any repetitions. -/
structure Renumbered (edges : Edges n) (edges' : Edges m) (number : Fin n ≃ Fin m) : Prop where
  leads : ∀ node child, Leads edges node child ↔ Leads edges' (number node) (number child)

theorem Renumbered.symm {edges : Edges n} {edges' : Edges m} {number : Fin n ≃ Fin m}
    (h : Renumbered edges edges' number) : Renumbered edges' edges number.symm where
  leads node child := by rw [h.leads, Equiv.apply_symm_apply, Equiv.apply_symm_apply]

theorem Renumbered.shallow {edges : Edges n} {edges' : Edges m} {number : Fin n ≃ Fin m}
    (h : Renumbered edges edges' number) (hshallow : Shallow limit edges') :
    Shallow limit edges where
  acyclic a hcycle := hshallow.acyclic (number a)
    (hcycle.lift number fun node child => (h.leads node child).mp)
  paths path hchain := by
    have hpath : (path.map number).IsChain (Leads edges') :=
      List.isChain_map_of_isChain number (fun node child => (h.leads node child).mp) hchain
    simpa using hshallow.paths _ hpath

end Renumbering

/-- **The cycle guard.**  It accepts exactly the graphs whose edges close no cycle and
whose paths keep the limit; numbering, order and repetitions of the edges do not change
the verdict. -/
theorem cycle_guard {n : ℕ} (limit : ℕ) (edges : Edges n) :
    (check_cycles limit edges = .ok () ↔
      Acyclic (Leads edges) ∧
        ∀ path : List (Fin n), path.IsChain (Leads edges) → path.length ≤ limit) ∧
      ∀ {m : ℕ} (edges' : Edges m) (number : Fin n ≃ Fin m), Renumbered edges edges' number →
        (check_cycles limit edges = .ok () ↔ check_cycles limit edges' = .ok ()) := by
  refine ⟨?_, fun edges' number h => ?_⟩
  · rw [check_cycles_eq_ok]
    exact ⟨fun hs => ⟨hs.acyclic, hs.paths⟩, fun ⟨hacyclic, hpaths⟩ => ⟨hacyclic, hpaths⟩⟩
  · rw [check_cycles_eq_ok, check_cycles_eq_ok]
    exact ⟨h.symm.shallow, h.shallow⟩

/-- Every position refers to all positions before it. -/
def sampleBackward : Edges 4 := fun node => (List.finRange 4).filter (· < node)

def sampleForward : Edges 4 := fun node => (List.finRange 4).filter (node < ·)

theorem cycle_guard_rev :
    check_cycles 4 sampleBackward = .ok () ↔ check_cycles 4 sampleForward = .ok () :=
  (cycle_guard 4 sampleBackward).2 sampleForward Fin.revPerm
    ⟨by unfold Leads; decide⟩

example : check_cycles 4 sampleBackward = .ok () := by decide +kernel

example : check_cycles 3 sampleBackward = .error depthExceeded := by decide +kernel

end SchemaGuard
end Standards
end Glaux
