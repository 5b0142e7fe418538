import Glaux.Standards.Quality.Binding

/-!
# Payload occurrences

`Below` says which places a declared place encloses directly, from the graph
and the value alone; `Occurs` is its closure from the root.  The walk records
exactly these places, in address order, each with the value checked at it.
-/

namespace Glaux
namespace Standards
namespace Quality

open Library
open Relation (ReflTransGen)

/-- Members of a record, vector or choice value. -/
def members : ComponentValue → List (String × ComponentValue)
  | .record values | .vector values | .choice values => values
  | _ => []

/-- Elements of an array value. -/
def elements : ComponentValue → List ComponentValue
  | .array values => values
  | _ => []

/-- What a container value supplies under a declared name. -/
def suppliedMember (supplied : Option ComponentValue) (name : Option String) :
    Option ComponentValue :=
  name.bind (fun name => ((supplied.map members).getD []).lookup name)

def suppliedElements (supplied : Option ComponentValue) : List ComponentValue :=
  (supplied.map elements).getD []

/-- A declared place in one value tree: a component, its address, what is
supplied there, and the enclosing containers.  An array encloses by the
repetition, not by its own address. -/
structure Place (n : Nat) where
  component : Fin n
  path : List Nat
  supplied : Option ComponentValue
  context : List (ComponentOccurrence n)

def Place.address {n : Nat} (place : Place n) : ComponentOccurrence n :=
  ⟨place.component, place.path⟩

variable {S R : Type} {n m : Nat}

/-- `Below g place child`: `child` is a payload place directly inside `place`.
An omitted record or vector still has its declared places; an unselected
choice arm and an absent repetition have none. -/
inductive Below (g : ComponentGraph n m) : Place (n + 1) → Place (n + 1) → Prop
  | member {place : Place (n + 1)} {index : Nat} {edge : Edge (n + 1) m}
      {child : Fin (n + 1)}
      (hkind : (g.components place.component).kind = .dataRecord ∨
        (g.components place.component).kind = .vector)
      (hedge : (g.payloadEdges place.component)[index]? = some edge)
      (htarget : g.target edge = some child) :
      Below g place ⟨child, place.path ++ [index],
        suppliedMember place.supplied (g.edgeName edge),
        place.context ++ [place.address]⟩
  | arm {place : Place (n + 1)} {index : Nat} {edge : Edge (n + 1) m}
      {child : Fin (n + 1)} {value : ComponentValue}
      (hkind : (g.components place.component).kind = .dataChoice)
      (hedge : (g.payloadEdges place.component)[index]? = some edge)
      (htarget : g.target edge = some child)
      (hvalue : suppliedMember place.supplied (g.edgeName edge) = some value) :
      Below g place ⟨child, place.path ++ [index], some value,
        place.context ++ [place.address]⟩
  | element {place : Place (n + 1)} {index : Nat} {edge : Edge (n + 1) m}
      {child : Fin (n + 1)} {value : ComponentValue}
      (hkind : (g.components place.component).kind = .dataArray ∨
        (g.components place.component).kind = .matrix)
      (hedge : (g.payloadEdges place.component).head? = some edge)
      (htarget : g.target edge = some child)
      (hvalue : (suppliedElements place.supplied)[index]? = some value) :
      Below g place ⟨child, place.path ++ [index], some value,
        place.context ++ [⟨place.component, place.path ++ [index]⟩]⟩

/-- The place of a whole value. -/
def rootPlace (input : ComponentValue) : Place (n + 1) := ⟨⟨0, Nat.succ_pos n⟩, [], some input, []⟩

/-- The payload places of a value. -/
def Occurs (g : ComponentGraph n m) (input : ComponentValue) (place : Place (n + 1)) :
    Prop :=
  ReflTransGen (Below g) (rootPlace input) place

section Paths

theorem Below.path_eq {g : ComponentGraph n m} {place child : Place (n + 1)}
    (h : Below g place child) : ∃ index, child.path = place.path ++ [index] := by
  cases h with
  | member => exact ⟨_, rfl⟩
  | arm => exact ⟨_, rfl⟩
  | element => exact ⟨_, rfl⟩

/-- A place encloses at most one place under each index. -/
theorem Below.unique {g : ComponentGraph n m} {place child child' : Place (n + 1)}
    (h : Below g place child) (h' : Below g place child')
    (hpath : child.path = child'.path) : child = child' := by
  cases h with
  | member hkind hedge htarget =>
      cases h' with
      | member hkind' hedge' htarget' =>
          obtain rfl : _ = _ := by simpa using hpath
          obtain rfl := Option.some.inj (hedge.symm.trans hedge')
          obtain rfl := Option.some.inj (htarget.symm.trans htarget')
          rfl
      | arm hkind' => simp [hkind'] at hkind
      | element hkind' => rcases hkind with hk | hk <;> simp [hk] at hkind'
  | arm hkind hedge htarget hvalue =>
      cases h' with
      | member hkind' => simp [hkind] at hkind'
      | arm hkind' hedge' htarget' hvalue' =>
          obtain rfl : _ = _ := by simpa using hpath
          obtain rfl := Option.some.inj (hedge.symm.trans hedge')
          obtain rfl := Option.some.inj (htarget.symm.trans htarget')
          obtain rfl := Option.some.inj (hvalue.symm.trans hvalue')
          rfl
      | element hkind' => simp [hkind] at hkind'
  | element hkind hedge htarget hvalue =>
      cases h' with
      | member hkind' => rcases hkind with hk | hk <;> simp [hk] at hkind'
      | arm hkind' => simp [hkind'] at hkind
      | element hkind' hedge' htarget' hvalue' =>
          obtain rfl : _ = _ := by simpa using hpath
          obtain rfl := Option.some.inj (hedge.symm.trans hedge')
          obtain rfl := Option.some.inj (htarget.symm.trans htarget')
          obtain rfl := Option.some.inj (hvalue.symm.trans hvalue')
          rfl

theorem prefix_of_below {g : ComponentGraph n m} {place place' : Place (n + 1)}
    (h : ReflTransGen (Below g) place place') : place.path <+: place'.path := by
  induction h with
  | refl => exact List.prefix_refl _
  | tail _ hstep ih =>
      obtain ⟨index, hpath⟩ := hstep.path_eq
      rw [hpath]
      exact ih.trans (List.prefix_append _ _)

/-- The address determines the place. -/
theorem Occurs.unique {g : ComponentGraph n m} {input : ComponentValue}
    {place place' : Place (n + 1)} (h : Occurs g input place)
    (h' : Occurs g input place') (hpath : place.path = place'.path) :
    place = place' := by
  induction h generalizing place' with
  | refl =>
      rcases ReflTransGen.cases_tail h' with h' | ⟨parent, -, hstep⟩
      · exact h'.symm
      · obtain ⟨index, he⟩ := hstep.path_eq
        simp [rootPlace, he] at hpath
  | tail _ hstep ih =>
      obtain ⟨index, he⟩ := hstep.path_eq
      rcases ReflTransGen.cases_tail h' with h' | ⟨parent', hp', hstep'⟩
      · rw [h', he] at hpath
        simp [rootPlace] at hpath
      · obtain ⟨index', he'⟩ := hstep'.path_eq
        have hparts := hpath
        rw [he, he'] at hparts
        have hparent := List.append_inj_left' hparts rfl
        obtain rfl := ih hp' hparent
        exact hstep.unique hstep' hpath

theorem path_lt_of_index_lt {path p q : List Nat} {i j : Nat} (hij : i < j)
    (hp : path ++ [i] <+: p) (hq : path ++ [j] <+: q) : p < q := by
  obtain ⟨p', rfl⟩ := hp
  obtain ⟨q', rfl⟩ := hq
  rw [List.append_assoc, List.append_assoc]
  exact List.append_left_lt (List.cons_lt_cons_iff.mpr (Or.inl hij))

theorem path_lt_of_extends {path p : List Nat} {i : Nat}
    (hp : path ++ [i] <+: p) : path < p := by
  obtain ⟨p', rfl⟩ := hp
  have h : path ++ [] < path ++ (i :: p') := List.append_left_lt (List.nil_lt_cons _ _)
  simpa using h

end Paths

section Members

theorem namesUsable_getElem? {names : List (Option String)}
    (h : namesUsable names = true) {index : Nat} (hindex : index < names.length) :
    ∃ name, names[index]? = some (some name) ∧ some name ∉ names.take index := by
  have hall := List.all_eq_true.mp h index (List.mem_range.mpr hindex)
  split at hall
  next name hname =>
    exact ⟨name, hname, by simpa using hall⟩
  next => cases hall

end Members

section Walk

variable (plan : QualityReferencePlan S R n m)

/-- An occurrence record describes a place: same address and context, and the
value checked on what is supplied there. -/
structure Records (occurrence : Occurrence S R (n + 1)) (place : Place (n + 1)) :
    Prop where
  address : occurrence.address = place.address
  context : occurrence.context = place.context
  value : plan.targetValue place.component place.supplied = .ok occurrence.value

/-- `records` lists exactly the places satisfying `P`, in address order. -/
def Covers (P : Place (n + 1) → Prop) (records : List (Occurrence S R (n + 1))) :
    Prop :=
  ∃ places : List (Place (n + 1)),
    List.Forall₂ (Records plan) records places ∧
    places.Pairwise (fun place place' => place.path < place'.path) ∧
    ∀ place, place ∈ places ↔ P place

/-- Places at or below a child of `parent` whose index is at least `first`. -/
def BelowFrom (g : ComponentGraph n m) (parent : Place (n + 1)) (first : Nat)
    (place : Place (n + 1)) : Prop :=
  ∃ child index, Below g parent child ∧ first ≤ index ∧
    child.path = parent.path ++ [index] ∧ ReflTransGen (Below g) child place

variable {plan}

theorem Covers.congr {P Q : Place (n + 1) → Prop}
    {records : List (Occurrence S R (n + 1))}
    (h : Covers plan P records) (hPQ : ∀ place, P place ↔ Q place) :
    Covers plan Q records := by
  obtain ⟨places, hrec, hsorted, hmem⟩ := h
  exact ⟨places, hrec, hsorted, fun place => (hmem place).trans (hPQ place)⟩

theorem Covers.nil {P : Place (n + 1) → Prop} (h : ∀ place, ¬ P place) :
    Covers plan P [] :=
  ⟨[], List.Forall₂.nil, List.Pairwise.nil, fun place => by simp [h place]⟩

/-- Two listings concatenate when the first comes before the second. -/
theorem Covers.append {P Q : Place (n + 1) → Prop}
    {records records' : List (Occurrence S R (n + 1))}
    (h : Covers plan P records) (h' : Covers plan Q records')
    (hlt : ∀ place place', P place → Q place' → place.path < place'.path) :
    Covers plan (fun place => P place ∨ Q place) (records ++ records') := by
  obtain ⟨places, hrec, hsorted, hmem⟩ := h
  obtain ⟨places', hrec', hsorted', hmem'⟩ := h'
  refine ⟨places ++ places', List.rel_append hrec hrec', ?_, ?_⟩
  · refine List.pairwise_append.mpr ⟨hsorted, hsorted', ?_⟩
    intro place hp place' hp'
    exact hlt place place' ((hmem place).mp hp) ((hmem' place').mp hp')
  · intro place
    rw [List.mem_append, hmem, hmem']

/-- Splitting off the children at index `first`. -/
theorem belowFrom_succ (g : ComponentGraph n m) (parent : Place (n + 1))
    (first : Nat) (place : Place (n + 1)) :
    BelowFrom g parent first place ↔
      (∃ child, Below g parent child ∧ child.path = parent.path ++ [first] ∧
        ReflTransGen (Below g) child place) ∨
      BelowFrom g parent (first + 1) place := by
  constructor
  · rintro ⟨child, index, hstep, hle, hpath, hrun⟩
    rcases Nat.eq_or_lt_of_le hle with rfl | hlt
    · exact Or.inl ⟨child, hstep, hpath, hrun⟩
    · exact Or.inr ⟨child, index, hstep, hlt, hpath, hrun⟩
  · rintro (⟨child, hstep, hpath, hrun⟩ | ⟨child, index, hstep, hle, hpath, hrun⟩)
    · exact ⟨child, first, hstep, le_rfl, hpath, hrun⟩
    · exact ⟨child, index, hstep, by omega, hpath, hrun⟩

/-- The child at index `first`, then the later ones. -/
theorem Covers.child {g : ComponentGraph n m} {parent child : Place (n + 1)}
    {first : Nat} {records records' : List (Occurrence S R (n + 1))}
    (hstep : Below g parent child) (hpath : child.path = parent.path ++ [first])
    (h : Covers plan (ReflTransGen (Below g) child) records)
    (h' : Covers plan (BelowFrom g parent (first + 1)) records') :
    Covers plan (BelowFrom g parent first) (records ++ records') := by
  refine (h.append h' ?_).congr ?_
  · rintro place place' hrun ⟨child', index, -, hle, hpath', hrun'⟩
    have hfirst := prefix_of_below hrun
    have hlater := prefix_of_below hrun'
    rw [hpath] at hfirst
    rw [hpath'] at hlater
    exact path_lt_of_index_lt (by omega) hfirst hlater
  · intro place
    rw [belowFrom_succ g parent first place]
    refine or_congr ⟨fun hrun => ⟨child, hstep, hpath, hrun⟩, ?_⟩ Iff.rfl
    rintro ⟨child', hstep', hpath', hrun⟩
    obtain rfl := hstep.unique hstep' (hpath.trans hpath'.symm)
    exact hrun

/-- A place and everything below it. -/
theorem Covers.root {g : ComponentGraph n m} {place : Place (n + 1)}
    {record : Occurrence S R (n + 1)} {records : List (Occurrence S R (n + 1))}
    (hrec : Records plan record place)
    (h : Covers plan (BelowFrom g place 0) records) :
    Covers plan (ReflTransGen (Below g) place) (record :: records) := by
  have hself : Covers plan (fun place' => place' = place) [record] :=
    ⟨[place], List.Forall₂.cons hrec List.Forall₂.nil, List.pairwise_singleton _ _,
      fun place' => by simp⟩
  refine (hself.append h ?_).congr ?_
  · rintro _ place' rfl ⟨child, index, -, -, hpath, hrun⟩
    have := prefix_of_below hrun
    rw [hpath] at this
    exact path_lt_of_extends this
  · intro place'
    constructor
    · rintro (rfl | ⟨child, index, hstep, -, -, hrun⟩)
      · exact ReflTransGen.refl
      · exact ReflTransGen.head hstep hrun
    · intro hrun
      rcases ReflTransGen.cases_head hrun with rfl | ⟨child, hstep, hrest⟩
      · exact Or.inl rfl
      · obtain ⟨index, hpath⟩ := hstep.path_eq
        exact Or.inr ⟨child, index, hstep, Nat.zero_le _, hpath, hrest⟩

/-- The slots of a container from index `first` on. -/
structure SlotsFrom (plan : QualityReferencePlan S R n m) (place : Place (n + 1))
    (first : Nat) (slots : List (Edge (n + 1) m × Option ComponentValue)) : Prop where
  covered : (plan.graph.payloadEdges place.component).length = first + slots.length
  slot : ∀ (j : Nat) edge value, slots[j]? = some (edge, value) →
    (plan.graph.payloadEdges place.component)[first + j]? = some edge ∧
      value = suppliedMember place.supplied (plan.graph.edgeName edge)

theorem SlotsFrom.tail {place : Place (n + 1)} {first : Nat}
    {slot : Edge (n + 1) m × Option ComponentValue}
    {slots : List (Edge (n + 1) m × Option ComponentValue)}
    (h : SlotsFrom plan place first (slot :: slots)) :
    SlotsFrom plan place (first + 1) slots where
  covered := by
    have := h.covered
    simp only [List.length_cons] at this
    omega
  slot := by
    intro j edge value hj
    have := h.slot (j + 1) edge value (by simpa using hj)
    rwa [show first + (j + 1) = first + 1 + j by omega] at this

/-- Children of a record, vector or choice come from its payload edges. -/
theorem Below.edge {g : ComponentGraph n m} {place child : Place (n + 1)} {index : Nat}
    (h : Below g place child) (hpath : child.path = place.path ++ [index])
    (hkind : (g.components place.component).kind = .dataRecord ∨
      (g.components place.component).kind = .vector ∨
      (g.components place.component).kind = .dataChoice) :
    ∃ edge, (g.payloadEdges place.component)[index]? = some edge ∧
      g.target edge = some child.component ∧
      ((g.components place.component).kind = .dataChoice →
        suppliedMember place.supplied (g.edgeName edge) ≠ none) := by
  cases h with
  | member hk hedge htarget =>
      obtain rfl : _ = _ := by simpa using hpath
      refine ⟨_, hedge, htarget, ?_⟩
      intro hc
      rcases hk with hk | hk <;> simp [hk] at hc
  | arm hk hedge htarget hvalue =>
      obtain rfl : _ = _ := by simpa using hpath
      exact ⟨_, hedge, htarget, fun _ => by simp [hvalue]⟩
  | element hk =>
      rcases hk with hk | hk <;> rcases hkind with h | h | h <;> simp [hk] at h

/-- Only containers and arrays enclose places. -/
theorem Below.kind {g : ComponentGraph n m} {place child : Place (n + 1)}
    (h : Below g place child) :
    (g.components place.component).kind = .dataRecord ∨
      (g.components place.component).kind = .vector ∨
      (g.components place.component).kind = .dataChoice ∨
      (g.components place.component).kind = .dataArray ∨
      (g.components place.component).kind = .matrix := by
  cases h with
  | member hk => rcases hk with hk | hk <;> simp [hk]
  | arm hk => simp [hk]
  | element hk => rcases hk with hk | hk <;> simp [hk]

end Walk

end Quality
end Standards
end Glaux
