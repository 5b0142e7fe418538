import Glaux.Standards.AggregateCheck
import Glaux.Standards.Quality.Occurrences

/-!
# The order of members (`choice/value.rs`, `quality/binding.rs`)

Records and vectors are given by name.  Values that differ by the order of members, at any
depth, are checked alike and bind alike.
-/

namespace Glaux
namespace Standards

open Library

/-- The values differ by the order of members of records and vectors. -/
inductive Permuted : ComponentValue → ComponentValue → Prop
  | refl (value : ComponentValue) : Permuted value value
  | trans {a b c : ComponentValue} (hab : Permuted a b) (hbc : Permuted b c) : Permuted a c
  | record {values values' : List (String × ComponentValue)} (h : values.Perm values') :
      Permuted (.record values) (.record values')
  | vector {values values' : List (String × ComponentValue)} (h : values.Perm values') :
      Permuted (.vector values) (.vector values')
  | inRecord {a b : ComponentValue} (before after : List (String × ComponentValue))
      (name : String) (h : Permuted a b) :
      Permuted (.record (before ++ (name, a) :: after)) (.record (before ++ (name, b) :: after))
  | inVector {a b : ComponentValue} (before after : List (String × ComponentValue))
      (name : String) (h : Permuted a b) :
      Permuted (.vector (before ++ (name, a) :: after)) (.vector (before ++ (name, b) :: after))
  | inChoice {a b : ComponentValue} (before after : List (String × ComponentValue))
      (name : String) (h : Permuted a b) :
      Permuted (.choice (before ++ (name, a) :: after)) (.choice (before ++ (name, b) :: after))
  | inArray {a b : ComponentValue} (before after : List ComponentValue) (h : Permuted a b) :
      Permuted (.array (before ++ a :: after)) (.array (before ++ b :: after))

/-! ### The budget -/

namespace ComponentValue

theorem namesFit_perm {values values' : List (String × ComponentValue)} (h : values.Perm values') :
    namesFit values = namesFit values' := by
  unfold namesFit
  rw [h.length_eq, h.all_eq]

theorem loads_members {value value' : ComponentValue} (hfits : value.fits = value'.fits)
    (hbytes : value.ownBytes = value'.ownBytes) {depth : Nat}
    (hbelow : (value.children.flatMap (fun child => child.loads (depth + 1))).Perm
      (value'.children.flatMap (fun child => child.loads (depth + 1)))) :
    (value.loads depth).Perm (value'.loads depth) := by
  rw [loads_eq, loads_eq, hfits, hbytes]
  exact hbelow.cons _

/-- The same visits are made, in some order. -/
theorem loads_perm {value value' : ComponentValue} (h : Permuted value value') (depth : Nat) :
    (value.loads depth).Perm (value'.loads depth) := by
  induction h generalizing depth with
  | refl value => exact .refl _
  | trans _ _ ihab ihbc => exact (ihab depth).trans (ihbc depth)
  | record h | vector h =>
      refine loads_members ?_ ?_ ?_
      · exact namesFit_perm h
      · exact (h.map _).sum_nat
      · exact (h.map _).flatMap_right _
  | inRecord before after name _ ih | inVector before after name _ ih
    | inChoice before after name _ ih =>
      refine loads_members ?_ ?_ ?_
      · simp [fits, namesFit]
      · simp [ownBytes]
      · simp only [children, List.map_append, List.map_cons, List.flatMap_append,
          List.flatMap_cons]
        exact ((ih (depth + 1)).append_right _).append_left _
  | inArray before after _ ih =>
      refine loads_members ?_ ?_ ?_
      · simp [fits]
      · rfl
      · simp only [children, List.flatMap_append, List.flatMap_cons]
        exact ((ih (depth + 1)).append_right _).append_left _

theorem budget_perm {value value' : ComponentValue} (h : Permuted value value') :
    value.budget = value'.budget := by
  rw [Option.ext_iff]
  rintro ⟨⟩
  rw [budget_eq_some, budget_eq_some]
  exact ⟨fun hw => hw.perm (loads_perm h 1), fun hw => hw.perm (loads_perm h 1).symm⟩

end ComponentValue

/-! ### Given members -/

section Given

variable {R : ComponentValue → ComponentValue → Prop}
  {values values' : List (String × ComponentValue)}

/-- The same names are given, whatever their order, and related values under each. -/
structure GivenAlike (R : ComponentValue → ComponentValue → Prop)
    (values values' : List (String × ComponentValue)) : Prop where
  names : (values.map (·.1)).Perm (values'.map (·.1))
  slots : (values.map (·.1)).Nodup → ∀ name,
    Option.Rel R (supplied values name) (supplied values' name)

theorem GivenAlike.of_perm (hrefl : ∀ value, R value value) (h : values.Perm values') :
    GivenAlike R values values' where
  names := h.map _
  slots := by
    intro hdistinct name
    rw [supplied_perm h hdistinct]
    cases supplied values' name with
    | none => exact .none
    | some value => exact .some (hrefl value)

/-- One item of a list is replaced. -/
theorem forall₂_replaced {α : Type} {R : α → α → Prop} (hrefl : ∀ a, R a a)
    (before after : List α) {a b : α} (h : R a b) :
    List.Forall₂ R (before ++ a :: after) (before ++ b :: after) :=
  List.rel_append (List.forall₂_same.mpr fun x _ => hrefl x)
    (.cons h (List.forall₂_same.mpr fun x _ => hrefl x))

theorem GivenAlike.of_member (hrefl : ∀ value, R value value) {a b : ComponentValue}
    (before after : List (String × ComponentValue)) (name : String) (h : R a b) :
    GivenAlike R (before ++ (name, a) :: after) (before ++ (name, b) :: after) where
  names := by simp
  slots := fun _ => supplied_rel
    (forall₂_replaced (fun value => ⟨rfl, hrefl value.2⟩) before after ⟨rfl, h⟩)

theorem GivenAlike.forall_name (h : GivenAlike R values values') (P : String → Prop) :
    (∀ value ∈ values, P value.1) ↔ ∀ value ∈ values', P value.1 := by
  rw [← List.forall_mem_map (f := Prod.fst) (P := P),
    ← List.forall_mem_map (f := Prod.fst) (P := P)]
  exact forall_congr' fun name => by rw [h.names.mem_iff]

end Given

/-! ### Checking -/

section Check

variable {EG G : Type}

/-- All compiled contracts give the same results. -/
def CheckedAlike (EG G : Type) (value value' : ComponentValue) : Prop :=
  ∀ contract : ChildContract EG G, contract.Compiled → ∀ result,
    checkChild contract value = .ok result ↔ checkChild contract value' = .ok result

theorem CheckedAlike.refl (value : ComponentValue) : CheckedAlike EG G value value :=
  fun _ _ _ => Iff.rfl

theorem MemberResult.alike {allowOptional : Bool} {child : NamedContract EG G}
    {slot slot' : Option ComponentValue} {member : CheckedNamedValue G}
    (hcompiled : child.2.Compiled) (hslot : Option.Rel (CheckedAlike EG G) slot slot') :
    MemberResult allowOptional child slot member ↔
      MemberResult allowOptional child slot' member := by
  cases hslot with
  | none => rfl
  | some halike =>
      constructor
      · rintro ⟨h⟩
        exact .present ((halike _ hcompiled _).mp h)
      · rintro ⟨h⟩
        exact .present ((halike _ hcompiled _).mpr h)

/-- Members that are given alike have the same results. -/
theorem members_alike {allowOptional : Bool} {children : List (NamedContract EG G)}
    (hnodup : (children.map (·.1)).Nodup) (hcompiled : ∀ child ∈ children, child.2.Compiled)
    {values values' : List (String × ComponentValue)} (h : GivenAlike (CheckedAlike EG G) values values')
    {members : List (CheckedNamedValue G)} :
    (supply children values >>= checkMembers allowOptional 0 children) = .ok members ↔
      (supply children values' >>= checkMembers allowOptional 0 children) = .ok members := by
  rw [members_eq_ok hnodup, members_eq_ok hnodup, h.forall_name (· ∈ children.map (·.1)),
    h.names.nodup_iff]
  refine and_congr_right fun _ => and_congr_right fun hdistinct => ?_
  have hslots := h.slots (h.names.nodup_iff.mpr hdistinct)
  constructor
  · intro hmembers
    exact ((List.forall₂_and_left _ _).mpr ⟨hcompiled, hmembers⟩).imp fun child _ hmember =>
      (MemberResult.alike hmember.1 (hslots child.1)).mp hmember.2
  · intro hmembers
    exact ((List.forall₂_and_left _ _).mpr ⟨hcompiled, hmembers⟩).imp fun child _ hmember =>
      (MemberResult.alike hmember.1 (hslots child.1)).mpr hmember.2

theorem record_alike {values values' : List (String × ComponentValue)}
    (h : GivenAlike (CheckedAlike EG G) values values') :
    CheckedAlike EG G (.record values) (.record values') := by
  intro contract hcompiled result
  cases contract with
  | scalar leaf | range leaf | geometry leaf => simp only [checkChild]
  | aggregate component optional children =>
      obtain ⟨hnodup, hbelow⟩ := hcompiled.children
      cases component with
      | array | choice | vector => simp only [checkChild]
      | record => simp only [checkChild, bind_map_eq, map_eq_ok, members_alike hnodup hbelow h]

theorem vector_alike {values values' : List (String × ComponentValue)}
    (h : GivenAlike (CheckedAlike EG G) values values') :
    CheckedAlike EG G (.vector values) (.vector values') := by
  intro contract hcompiled result
  cases contract with
  | scalar leaf | range leaf | geometry leaf => simp only [checkChild]
  | aggregate component optional children =>
      obtain ⟨hnodup, hbelow⟩ := hcompiled.children
      cases component with
      | array | choice | record => simp only [checkChild]
      | vector => simp only [checkChild, bind_map_eq, map_eq_ok, members_alike hnodup hbelow h]

theorem choice_alike {a b : ComponentValue} (before after : List (String × ComponentValue))
    (name : String) (h : CheckedAlike EG G a b) :
    CheckedAlike EG G (.choice (before ++ (name, a) :: after))
      (.choice (before ++ (name, b) :: after)) := by
  intro contract hcompiled result
  cases contract with
  | scalar leaf | range leaf | geometry leaf => simp only [checkChild]
  | aggregate component optional children =>
      obtain ⟨hnodup, hbelow⟩ := hcompiled.children
      cases component with
      | array | vector | record => simp only [checkChild]
      | choice =>
          -- one member is the selected one; with more there is no result
          cases before with
          | nil =>
              cases after with
              | nil =>
                  simp only [List.nil_append, checkChild, checkSelected_eq_ok hnodup]
                  refine exists_congr fun child => exists_congr fun inner => ?_
                  refine and_congr_right fun hchild => and_congr_left fun _ => ?_
                  exact h child (hbelow _ hchild) inner
              | cons next after => simp only [List.nil_append, checkChild]
          | cons first before =>
              cases before with
              | nil => simp only [List.cons_append, List.nil_append, checkChild]
              | cons second before => simp only [List.cons_append, checkChild]

/-- Values that differ by the order of members are checked alike. -/
theorem Permuted.checkedAlike {value value' : ComponentValue} (h : Permuted value value') :
    CheckedAlike EG G value value' := by
  induction h with
  | refl value => exact .refl value
  | trans _ _ ihab ihbc =>
      exact fun contract hcompiled result =>
        (ihab contract hcompiled result).trans (ihbc contract hcompiled result)
  | record h => exact record_alike (.of_perm .refl h)
  | vector h => exact vector_alike (.of_perm .refl h)
  | inRecord before after name _ ih => exact record_alike (.of_member .refl before after name ih)
  | inVector before after name _ ih => exact vector_alike (.of_member .refl before after name ih)
  | inChoice before after name _ ih => exact choice_alike before after name ih
  | inArray before after _ ih =>
      intro contract hcompiled result
      cases contract with
      | scalar leaf | range leaf | geometry leaf => simp only [checkChild]
      | aggregate component optional children =>
          cases component with
          | array | vector | record | choice => simp only [checkChild]

theorem AggregateContract.checkValue_perm (contract : AggregateContract EG G)
    {value value' : ComponentValue} (h : Permuted value value') :
    (contract.checkValue value).toOption = (contract.checkValue value').toOption := by
  unfold checkValue
  rw [ComponentValue.budget_perm h]
  cases value'.budget with
  | none => rfl
  | some _ =>
      rw [Option.ext_iff]
      intro result
      rw [toOption_eq_some, toOption_eq_some]
      exact h.checkedAlike contract.asChild contract.compiled result

end Check

/-! ### Binding -/

/-- The value is no leaf. -/
def ComponentValue.nested : ComponentValue → Bool
  | .scalarJson _ | .rangeJson _ | .geometryJson _ => false
  | .record _ | .vector _ | .choice _ | .array _ => true

namespace Quality

variable {S R : Type} {n m : Nat}

/-- The loop of `match_members` fills slots by name. -/
theorem placeMembers_eq (names : List (Option String)) (values : List (String × ComponentValue))
    (slots : List (Option ComponentValue)) :
    values.foldlM (placeMember names) slots =
      ((values.map (fun value => (some value.1, value.2))).foldlM (place names) slots).mapError
        (fun _ => .valueShape) := by
  induction values generalizing slots with
  | nil => rfl
  | cons value values ih =>
      have hplace : placeMember names slots value =
          (place names slots (some value.1, value.2)).mapError (fun _ => .valueShape) := by
        -- the two searches compare optional names by different instances
        have hindex : names.findIdx? (fun name => name == some value.1) =
            @List.idxOf? _ instBEqOfDecidableEq (some value.1) names := by
          unfold List.idxOf?
          refine congrArg (fun p => names.findIdx? p) (funext fun name => ?_)
          rw [Bool.eq_iff_iff]
          exact beq_iff_eq.trans (@beq_iff_eq _ instBEqOfDecidableEq _ name (some value.1)).symm
        unfold placeMember place
        dsimp only
        rw [hindex]
        cases @List.idxOf? _ instBEqOfDecidableEq (some value.1) names with
        | none => rfl
        | some index =>
            dsimp only
            cases slots[index]? with
            | none => rfl
            | some slot => cases slot <;> rfl
      rw [List.map_cons, List.foldlM_cons, List.foldlM_cons, hplace]
      cases place names slots (some value.1, value.2) with
      | error reason => rfl
      | ok next => exact ih next

theorem matchMembers_eq_ok {names : List (Option String)}
    {values : List (String × ComponentValue)} {slots : List (Option ComponentValue)} :
    matchMembers names values = .ok slots ↔
      namesUsable names = true ∧
        placeAll names (values.map (fun value => (some value.1, value.2))) = .ok slots := by
  unfold matchMembers placeAll
  split
  next husable => rw [placeMembers_eq, mapError_eq_ok, and_iff_right husable]
  next hunusable => exact ⟨nofun, fun h => absurd h.1 hunusable⟩

theorem namesUsable_nodup {names : List (Option String)} (h : namesUsable names = true) :
    names.Nodup := by
  rw [List.nodup_iff_getElem?_ne_getElem?]
  intro i j hij hj hsame
  obtain ⟨name, hname, hfresh⟩ := namesUsable_getElem? h hj
  rw [hname] at hsame
  refine hfresh (List.mem_of_getElem? (i := i) ?_)
  rw [List.getElem?_take, if_pos hij, hsame]

theorem supplied_some (values : List (String × ComponentValue)) (key : Option String) :
    supplied (values.map (fun value => (some value.1, value.2))) key =
      key.bind (supplied values) := by
  induction values with
  | nil => cases key <;> rfl
  | cons value values ih =>
      rw [List.map_cons, supplied_cons, ih]
      cases key with
      | none => rfl
      | some name =>
          rw [Option.bind_some, Option.bind_some, supplied_cons]
          simp only [Option.some.injEq]

/-- Members match when they are declared and distinct. -/
theorem matchMembers_iff {names : List (Option String)}
    {values : List (String × ComponentValue)} {slots : List (Option ComponentValue)} :
    matchMembers names values = .ok slots ↔
      namesUsable names = true ∧ (∀ value ∈ values, some value.1 ∈ names) ∧
        (values.map (·.1)).Nodup ∧ slots = names.map (fun key => key.bind (supplied values)) := by
  rw [matchMembers_eq_ok]
  refine and_congr_right fun husable => ?_
  have hkeys : (values.map (fun value => (some value.1, value.2))).map (·.1) =
      (values.map (·.1)).map some := by
    rw [List.map_map, List.map_map]
    rfl
  rw [placeAll_eq_ok (namesUsable_nodup husable), hkeys,
    List.nodup_map_iff (Option.some_injective _), List.forall_mem_map,
    funext (supplied_some values)]

theorem matchMembers_alike {R : ComponentValue → ComponentValue → Prop}
    {names : List (Option String)} {values values' : List (String × ComponentValue)}
    (h : GivenAlike R values values') :
    (∃ e e', matchMembers names values = .error e ∧ matchMembers names values' = .error e') ∨
      ∃ slots slots', matchMembers names values = .ok slots ∧
        matchMembers names values' = .ok slots' ∧ List.Forall₂ (Option.Rel R) slots slots' := by
  by_cases hmatch : namesUsable names = true ∧ (∀ value ∈ values, some value.1 ∈ names) ∧
      (values.map (·.1)).Nodup
  · obtain ⟨husable, hdeclared, hdistinct⟩ := hmatch
    have hdeclared' := (h.forall_name (some · ∈ names)).mp hdeclared
    have hdistinct' := h.names.nodup_iff.mp hdistinct
    refine .inr ⟨_, _, matchMembers_iff.mpr ⟨husable, hdeclared, hdistinct, rfl⟩,
      matchMembers_iff.mpr ⟨husable, hdeclared', hdistinct', rfl⟩, ?_⟩
    rw [List.forall₂_map_left_iff, List.forall₂_map_right_iff, List.forall₂_same]
    intro key _
    cases key with
    | none => exact .none
    | some name => exact h.slots hdistinct name
  · left
    have herror : ∀ given : List (String × ComponentValue),
        (∀ slots, matchMembers names given ≠ .ok slots) → ∃ e, matchMembers names given = .error e := by
      intro given hnone
      cases hresult : matchMembers names given with
      | error e => exact ⟨e, rfl⟩
      | ok slots => exact absurd hresult (hnone slots)
    obtain ⟨e, he⟩ := herror values fun slots hslots => by
      obtain ⟨husable, hdeclared, hdistinct, -⟩ := matchMembers_iff.mp hslots
      exact hmatch ⟨husable, hdeclared, hdistinct⟩
    obtain ⟨e', he'⟩ := herror values' fun slots hslots => by
      obtain ⟨husable, hdeclared, hdistinct, -⟩ := matchMembers_iff.mp hslots
      exact hmatch ⟨husable, (h.forall_name (some · ∈ names)).mpr hdeclared,
        h.names.nodup_iff.mpr hdistinct⟩
    exact ⟨e, e', he, he'⟩

namespace QualityReferencePlan

variable (plan : QualityReferencePlan S R n m)

/-- Both values are walked alike, wherever they stand. -/
def WalkedAlike (value value' : ComponentValue) : Prop :=
  ∀ room node path context occurrences,
    (plan.walk room node (some value) path context occurrences).toOption =
      (plan.walk room node (some value') path context occurrences).toOption

theorem walkSlots_alike
    {walk : Fin (n + 1) → Option ComponentValue → List Nat → Occurrences S R n →
      Except QualityBindingError (Occurrences S R n)}
    {kind : Contract} {path : List Nat} {edges : List (Edge (n + 1) m)}
    {slots slots' : List (Option ComponentValue)}
    (h : List.Forall₂ (Option.Rel fun value value' => ∀ node path occurrences,
      (walk node (some value) path occurrences).toOption =
        (walk node (some value') path occurrences).toOption) slots slots')
    (index : Nat) (occurrences : Occurrences S R n) :
    (plan.walkSlots walk kind path index (edges.zip slots) occurrences).toOption =
      (plan.walkSlots walk kind path index (edges.zip slots') occurrences).toOption := by
  induction h generalizing edges index occurrences with
  | nil => rfl
  | @cons slot slot' slots slots' hslot _ ih =>
      cases edges with
      | nil => rfl
      | cons edge edges =>
          have hempty : slot.isNone = slot'.isNone := by cases hslot <;> rfl
          have hfull : slot.isSome = slot'.isSome := by cases hslot <;> rfl
          rw [List.zip_cons_cons, List.zip_cons_cons, walkSlots, walkSlots, hempty, hfull]
          split
          · exact ih (index + 1) occurrences
          · cases plan.graph.target edge with
            | none =>
                dsimp only
                split
                · rfl
                · exact ih (index + 1) occurrences
            | some child =>
                dsimp only
                have hwalk : (walk child slot (path ++ [index]) occurrences).toOption =
                    (walk child slot' (path ++ [index]) occurrences).toOption := by
                  cases hslot with
                  | none => rfl
                  | some hvalue => exact hvalue child _ occurrences
                rw [toOption_bind, toOption_bind, hwalk]
                congr 1
                funext next
                exact ih (index + 1) next

theorem walkElements_alike
    {walk : Fin (n + 1) → ComponentValue → List Nat → Occurrences S R n →
      Except QualityBindingError (Occurrences S R n)}
    {child : Option (Fin (n + 1))} {path : List Nat} {values values' : List ComponentValue}
    (h : List.Forall₂ (fun value value' => ∀ node path occurrences,
      (walk node value path occurrences).toOption =
        (walk node value' path occurrences).toOption) values values')
    (index : Nat) (occurrences : Occurrences S R n) :
    (walkElements walk child path index values occurrences).toOption =
      (walkElements walk child path index values' occurrences).toOption := by
  induction h generalizing index occurrences with
  | nil => rfl
  | cons hvalue _ ih =>
      simp only [walkElements]
      cases child with
      | none => rfl
      | some node =>
          dsimp only
          rw [toOption_bind, toOption_bind, hvalue node _ occurrences]
          congr 1
          funext next
          exact ih (index + 1) next

theorem WalkedAlike.refl (value : ComponentValue) : plan.WalkedAlike value value :=
  fun _ _ _ _ _ => rfl

/-- The walk into the slots of a container. -/
abbrev into (room : Nat) (node : Fin (n + 1)) (path : List Nat)
    (context : List (ComponentOccurrence (n + 1))) :
    Fin (n + 1) → Option ComponentValue → List Nat → Occurrences S R n →
      Except QualityBindingError (Occurrences S R n) :=
  fun child value childPath occurrences =>
    plan.walk room child value childPath (context ++ [⟨node, path⟩]) occurrences

/-- Containers given members alike are walked alike. -/
theorem walkContainer_alike {input input' : ComponentValue} {kind : Contract}
    {values values' : List (String × ComponentValue)}
    (hinput : containerMembers kind (some input) = .ok values)
    (hinput' : containerMembers kind (some input') = .ok values')
    (h : GivenAlike plan.WalkedAlike values values') (room : Nat) (node : Fin (n + 1))
    (path : List Nat) (context : List (ComponentOccurrence (n + 1)))
    (occurrences : Occurrences S R n) :
    (plan.walkContainer (plan.into room node path context) kind node (some input) path
        occurrences).toOption =
      (plan.walkContainer (plan.into room node path context) kind node (some input') path
        occurrences).toOption := by
  have hlength : values.length = values'.length := by simpa using h.names.length_eq
  unfold walkContainer
  rw [hinput, hinput', ok_bind, ok_bind, hlength, Option.isSome_some, Option.isSome_some]
  by_cases hmany : kind = .dataChoice ∧ true = true ∧ values'.length ≠ 1
  · rw [if_pos hmany, if_pos hmany]
  · rw [if_neg hmany, if_neg hmany]
    dsimp only
    obtain ⟨e, e', he, he'⟩ | ⟨slots, slots', hslots, hslots', halike⟩ :=
      @matchMembers_alike _ ((plan.graph.payloadEdges node).map plan.graph.edgeName) _ _ h
    · rw [he, he']
      rfl
    · rw [hslots, hslots']
      refine plan.walkSlots_alike (halike.imp fun _ _ hslot => ?_) 0 occurrences
      cases hslot with
      | none => exact .none
      | some hvalue => exact .some fun node path occurrences => hvalue room node path _ occurrences

/-- The walk into the elements of an array. -/
abbrev intoElements (room : Nat) (node : Fin (n + 1))
    (context : List (ComponentOccurrence (n + 1))) :
    Fin (n + 1) → ComponentValue → List Nat → Occurrences S R n →
      Except QualityBindingError (Occurrences S R n) :=
  fun child value childPath occurrences =>
    plan.walk room child (some value) childPath (context ++ [⟨node, childPath⟩]) occurrences

theorem walkArray_alike {values values' : List ComponentValue}
    (h : List.Forall₂ plan.WalkedAlike values values') (room : Nat) (node : Fin (n + 1))
    (path : List Nat) (context : List (ComponentOccurrence (n + 1)))
    (occurrences : Occurrences S R n) :
    (plan.walkArray (plan.intoElements room node context) node (some (.array values)) path
        occurrences).toOption =
      (plan.walkArray (plan.intoElements room node context) node (some (.array values')) path
        occurrences).toOption := by
  unfold walkArray arrayElements
  rw [ok_bind, ok_bind]
  cases plan.graph.payloadEdges node with
  | nil => rfl
  | cons edge edges =>
      refine walkElements_alike (h.imp fun _ _ hvalue => ?_) 0 occurrences
      exact fun node path occurrences => hvalue room node path _ occurrences

/-- No target has a value that is no leaf. -/
theorem targetValue_nested {input : ComponentValue} (h : input.nested = true)
    (node : Fin (n + 1)) :
    plan.targetValue node (some input) =
      if (plan.targets node).isSome then .error .valueShape else .ok .missing := by
  unfold targetValue
  cases plan.targets node with
  | none => rfl
  | some contract =>
      cases contract <;> cases input <;> first | rfl | cases h

theorem leafShape_nested {input : ComponentValue} (h : input.nested = true) (kind : Contract) :
    leafShape kind (some input) = false := by
  cases input <;> cases kind <;> first | rfl | cases h

/-- Values of one shape are walked alike when what is inside them is. -/
theorem walkedAlike_of {input input' : ComponentValue} (hnested : input.nested = true)
    (hnested' : input'.nested = true)
    (hcontainer : ∀ kind room node path context occurrences,
      (plan.walkContainer (plan.into room node path context) kind node (some input) path
          occurrences).toOption =
        (plan.walkContainer (plan.into room node path context) kind node (some input') path
          occurrences).toOption)
    (harray : ∀ room node path context occurrences,
      (plan.walkArray (plan.intoElements room node context) node (some input) path
          occurrences).toOption =
        (plan.walkArray (plan.intoElements room node context) node (some input') path
          occurrences).toOption) :
    plan.WalkedAlike input input' := by
  intro room node path context occurrences
  cases room with
  | zero => rfl
  | succ room =>
      rw [walk, walk]
      split
      · rfl
      · rw [plan.targetValue_nested hnested, plan.targetValue_nested hnested', toOption_bind,
          toOption_bind]
        congr 1
        funext value
        cases (plan.graph.components node).kind with
        | dataRecord => exact hcontainer _ room node path context _
        | vector => exact hcontainer _ room node path context _
        | dataChoice => exact hcontainer _ room node path context _
        | dataArray => exact harray room node path context _
        | matrix => exact harray room node path context _
        | _ =>
            dsimp only
            rw [leafShape_nested hnested, leafShape_nested hnested']

theorem record_walkedAlike {values values' : List (String × ComponentValue)}
    (h : GivenAlike plan.WalkedAlike values values') :
    plan.WalkedAlike (.record values) (.record values') := by
  refine plan.walkedAlike_of rfl rfl (fun kind => ?_) (fun _ _ _ _ _ => rfl)
  cases kind with
  | dataRecord => exact plan.walkContainer_alike rfl rfl h
  | _ => exact fun _ _ _ _ _ => rfl

theorem vector_walkedAlike {values values' : List (String × ComponentValue)}
    (h : GivenAlike plan.WalkedAlike values values') :
    plan.WalkedAlike (.vector values) (.vector values') := by
  refine plan.walkedAlike_of rfl rfl (fun kind => ?_) (fun _ _ _ _ _ => rfl)
  cases kind with
  | vector => exact plan.walkContainer_alike rfl rfl h
  | _ => exact fun _ _ _ _ _ => rfl

theorem choice_walkedAlike {values values' : List (String × ComponentValue)}
    (h : GivenAlike plan.WalkedAlike values values') :
    plan.WalkedAlike (.choice values) (.choice values') := by
  refine plan.walkedAlike_of rfl rfl (fun kind => ?_) (fun _ _ _ _ _ => rfl)
  cases kind with
  | dataChoice => exact plan.walkContainer_alike rfl rfl h
  | _ => exact fun _ _ _ _ _ => rfl

theorem array_walkedAlike {values values' : List ComponentValue}
    (h : List.Forall₂ plan.WalkedAlike values values') :
    plan.WalkedAlike (.array values) (.array values') := by
  refine plan.walkedAlike_of rfl rfl (fun kind => ?_) (plan.walkArray_alike h)
  cases kind <;> exact fun _ _ _ _ _ => rfl

/-- Values that differ by the order of members are walked alike. -/
theorem walkedAlike_of_permuted {value value' : ComponentValue} (h : Permuted value value') :
    plan.WalkedAlike value value' := by
  induction h with
  | refl value => exact .refl plan value
  | trans _ _ ihab ihbc =>
      exact fun room node path context occurrences =>
        (ihab room node path context occurrences).trans (ihbc room node path context occurrences)
  | record h => exact plan.record_walkedAlike (.of_perm (.refl plan) h)
  | vector h => exact plan.vector_walkedAlike (.of_perm (.refl plan) h)
  | inRecord before after name _ ih =>
      exact plan.record_walkedAlike (.of_member (.refl plan) before after name ih)
  | inVector before after name _ ih =>
      exact plan.vector_walkedAlike (.of_member (.refl plan) before after name ih)
  | inChoice before after name _ ih =>
      exact plan.choice_walkedAlike (.of_member (.refl plan) before after name ih)
  | inArray before after _ ih =>
      exact plan.array_walkedAlike (forall₂_replaced (.refl plan) before after ih)

theorem bind_perm {value value' : ComponentValue} (h : Permuted value value') :
    (plan.bind value).toOption = (plan.bind value').toOption := by
  have hoccurrences :
      (plan.occurrencesOf value).toOption = (plan.occurrencesOf value').toOption := by
    unfold occurrencesOf
    rw [ComponentValue.budget_perm h]
    cases value'.budget with
    | none => rfl
    | some _ => exact plan.walkedAlike_of_permuted h _ _ _ _ _
  unfold bind
  rw [toOption_bind, toOption_bind, hoccurrences]

end QualityReferencePlan

end Quality

/-- **Member order.**  Values that differ by the order of members give the same checked
values and the same bound references. -/
theorem member_order {EG G S R : Type} {value value' : ComponentValue}
    (h : Permuted value value') :
    (∀ contract : AggregateContract EG G,
      (contract.checkValue value).toOption = (contract.checkValue value').toOption) ∧
      ∀ {n m : Nat} (plan : Quality.QualityReferencePlan S R n m),
        (plan.bind value).toOption = (plan.bind value').toOption :=
  ⟨fun contract => contract.checkValue_perm h, fun plan => plan.bind_perm h⟩

/-- A record below another one, with its members in the two orders. -/
def sampleNested (swapped : Bool) : ComponentValue :=
  .record [("body", .record (if swapped then [("b", .scalarJson [50]), ("a", .scalarJson [49])]
    else [("a", .scalarJson [49]), ("b", .scalarJson [50])]))]

/-- The two are checked alike and bind alike. -/
theorem member_order_nested :
    (∀ contract : AggregateContract Unit Unit,
      (contract.checkValue (sampleNested false)).toOption =
        (contract.checkValue (sampleNested true)).toOption) ∧
      ∀ {n m : Nat} (plan : Quality.QualityReferencePlan Unit Unit n m),
        (plan.bind (sampleNested false)).toOption = (plan.bind (sampleNested true)).toOption :=
  member_order (.inRecord [] [] "body" (.record (.swap _ _ [])))

end Standards
end Glaux
