import Glaux.Standards.Aggregate
import Glaux.Standards.ChoiceBudget

/-!
# Conforming values (`choice/value.rs`)

A value conforms to a declaration by recursion on the declaration.  The check accepts just
these values; what it returns stands in declared order, and where it fails it names the
declared children on the way.
-/

namespace Glaux
namespace Standards

open Library Domain ComponentValue

variable {EG G : Type}

/-- A value is of the shape that is declared, through all levels. -/
inductive Conforms : ChildContract EG G → ComponentValue → Prop
  | scalar {leaf : Leaf ScalarError Scalar.Checked} {raw : Bytes} {value : Scalar.Checked}
      (h : leaf.check raw = .ok value) : Conforms (.scalar leaf) (.scalarJson raw)
  | range {leaf : Leaf RangeError CheckedRangeValue} {raw : Bytes} {value : CheckedRangeValue}
      (h : leaf.check raw = .ok value) : Conforms (.range leaf) (.rangeJson raw)
  | geometry {leaf : Leaf EG G} {raw : Bytes} {value : G}
      (h : leaf.check raw = .ok value) : Conforms (.geometry leaf) (.geometryJson raw)
  | record {optional : Option Bool} {children : List (NamedContract EG G)}
      {values : List (String × ComponentValue)}
      (declared : ∀ value ∈ values, value.1 ∈ children.map (·.1))
      (distinct : (values.map (·.1)).Nodup)
      (required : ∀ child ∈ children, child.2.isOptional = false → child.1 ∈ values.map (·.1))
      (each : ∀ child ∈ children, ∀ value, (child.1, value) ∈ values → Conforms child.2 value) :
      Conforms (.aggregate .record optional children) (.record values)
  | vector {referenceFrame : String} {localFrame : Option String} {optional : Option Bool}
      {children : List (NamedContract EG G)} {values : List (String × ComponentValue)}
      (declared : ∀ value ∈ values, value.1 ∈ children.map (·.1))
      (distinct : (values.map (·.1)).Nodup)
      (required : ∀ child ∈ children, child.1 ∈ values.map (·.1))
      (each : ∀ child ∈ children, ∀ value, (child.1, value) ∈ values → Conforms child.2 value) :
      Conforms (.aggregate (.vector referenceFrame localFrame) optional children) (.vector values)
  | choice {optional : Option Bool} {children : List (NamedContract EG G)} {name : String}
      {child : ChildContract EG G} {value : ComponentValue} (arm : (name, child) ∈ children)
      (h : Conforms child value) :
      Conforms (.aggregate .choice optional children) (.choice [(name, value)])

/-- The result stands in declared order; just the omitted members have no value. -/
inductive Arranged :
    ChildContract EG G → ComponentValue → CheckedComponentValue G → Prop
  | scalar {leaf : Leaf ScalarError Scalar.Checked} {raw : Bytes} {value : Scalar.Checked}
      (h : leaf.check raw = .ok value) : Arranged (.scalar leaf) (.scalarJson raw) (.scalar value)
  | range {leaf : Leaf RangeError CheckedRangeValue} {raw : Bytes} {value : CheckedRangeValue}
      (h : leaf.check raw = .ok value) : Arranged (.range leaf) (.rangeJson raw) (.range value)
  | geometry {leaf : Leaf EG G} {raw : Bytes} {value : G}
      (h : leaf.check raw = .ok value) :
      Arranged (.geometry leaf) (.geometryJson raw) (.geometry value)
  | record {optional : Option Bool} {children : List (NamedContract EG G)}
      {values : List (String × ComponentValue)} {members : List (CheckedNamedValue G)}
      (order : members.map (·.1) = children.map (·.1))
      (omitted : ∀ member ∈ members, member.2 = none ↔ member.1 ∉ values.map (·.1))
      (each : ∀ child ∈ children, ∀ value result, (child.1, value) ∈ values →
        (child.1, some result) ∈ members → Arranged child.2 value result) :
      Arranged (.aggregate .record optional children) (.record values) (.record members)
  | vector {referenceFrame : String} {localFrame : Option String} {optional : Option Bool}
      {children : List (NamedContract EG G)} {values : List (String × ComponentValue)}
      {members : List (CheckedNamedValue G)}
      (order : members.map (·.1) = children.map (·.1))
      (present : ∀ member ∈ members, member.2 ≠ none)
      (each : ∀ child ∈ children, ∀ value result, (child.1, value) ∈ values →
        (child.1, some result) ∈ members → Arranged child.2 value result) :
      Arranged (.aggregate (.vector referenceFrame localFrame) optional children)
        (.vector values) (.vector referenceFrame localFrame members)
  | choice {optional : Option Bool} {children : List (NamedContract EG G)} {name : String}
      {child : ChildContract EG G} {value : ComponentValue} {result : CheckedComponentValue G}
      (arm : (name, child) ∈ children) (h : Arranged child value result) :
      Arranged (.aggregate .choice optional children) (.choice [(name, value)])
        (.choice name result)

/-- The path leads from child to declared child. -/
inductive Addresses : ChildContract EG G → List Nat → Prop
  | here (contract : ChildContract EG G) : Addresses contract []
  | child {component : AggregateComponent} {optional : Option Bool}
      {children : List (NamedContract EG G)} {index : Nat} {child : NamedContract EG G}
      {path : List Nat} (h : children[index]? = some child) (rest : Addresses child.2 path) :
      Addresses (.aggregate component optional children) (index :: path)

/-! ### Names -/

section Names

theorem declareName_eq_ok {names names' : List String} {name : String} :
    declareName names name = .ok names' ↔
      validName name = true ∧ name ∉ names ∧ names' = names ++ [name] := by
  unfold declareName
  cases validName name with
  | false => simp
  | true =>
      by_cases hmem : name ∈ names
      · simp [hmem]
      · simp [hmem, eq_comm]

/-- The names of the children of one level are distinct. -/
theorem declareNames_nodup {names names' added : List String} (hnodup : names.Nodup)
    (h : added.foldlM declareName names = .ok names') : (names ++ added).Nodup := by
  induction added generalizing names with
  | nil => simpa using hnodup
  | cons name added ih =>
      obtain ⟨next, hnext, hrest⟩ := foldlM_cons_eq_ok.mp h
      obtain ⟨-, hnew, rfl⟩ := declareName_eq_ok.mp hnext
      have hsnoc : (names ++ [name]).Nodup := by
        rw [List.nodup_append]
        refine ⟨hnodup, List.nodup_singleton _, ?_⟩
        rintro a ha b hb rfl
        exact hnew (List.mem_singleton.mp hb ▸ ha)
      simpa using ih hsnoc hrest

theorem ChildContract.Compiled.children {component : AggregateComponent} {optional : Option Bool}
    {children : List (NamedContract EG G)}
    (h : ChildContract.Compiled (.aggregate component optional children)) :
    (children.map (·.1)).Nodup ∧ ∀ child ∈ children, child.2.Compiled := by
  cases h with
  | aggregate hnames hchildren =>
      exact ⟨by simpa using declareNames_nodup List.nodup_nil hnames, hchildren⟩

/-- Induction over declarations. -/
theorem ChildContract.declared_induction {P : ChildContract EG G → Prop}
    (scalar : ∀ leaf, P (.scalar leaf)) (range : ∀ leaf, P (.range leaf))
    (geometry : ∀ leaf, P (.geometry leaf))
    (aggregate : ∀ component optional children, (∀ child ∈ children, P child.2) →
      P (.aggregate component optional children)) (contract : ChildContract EG G) : P contract :=
  @ChildContract.rec EG G P (fun children => ∀ child ∈ children, P child.2)
    (fun child => P child.2) scalar range geometry
    (fun component optional children h => aggregate component optional children h)
    (fun _ h => absurd h List.not_mem_nil)
    (fun _ _ hhead htail child hchild =>
      (List.mem_cons.mp hchild).elim (fun h => h ▸ hhead) (htail child))
    (fun _ _ h => h) contract

end Names

/-! ### Members -/

section Members

variable {allowOptional : Bool} {children : List (NamedContract EG G)}

/-- What a declared child and its slot give. -/
inductive MemberResult (allowOptional : Bool) :
    NamedContract EG G → Option ComponentValue → CheckedNamedValue G → Prop
  | present {child : NamedContract EG G} {value : ComponentValue}
      {result : CheckedComponentValue G} (h : checkChild child.2 value = .ok result) :
      MemberResult allowOptional child (some value) (child.1, some result)
  | omitted {child : NamedContract EG G} (hallow : allowOptional = true)
      (hoptional : child.2.isOptional = true) :
      MemberResult allowOptional child none (child.1, none)

theorem MemberResult.name {child : NamedContract EG G} {slot : Option ComponentValue}
    {member : CheckedNamedValue G} (h : MemberResult allowOptional child slot member) :
    member.1 = child.1 := by
  cases h <;> rfl

/-- The second loop gives one member for every declared child. -/
theorem checkMembers_eq_ok {slot : String → Option ComponentValue} {index : Nat}
    {members : List (CheckedNamedValue G)} :
    checkMembers allowOptional index children (children.map (fun child => slot child.1)) =
        .ok members ↔
      List.Forall₂ (fun child member => MemberResult allowOptional child (slot child.1) member)
        children members := by
  induction children generalizing index members with
  | nil =>
      rw [List.map_nil, checkMembers, Except.ok.injEq, List.forall₂_nil_left_iff]
      exact eq_comm
  | cons child children ih =>
      obtain ⟨name, child⟩ := child
      rw [List.map_cons, List.forall₂_cons_left_iff]
      dsimp only
      cases hslot : slot name with
      | some value =>
          rw [checkMembers, bind_eq_ok]
          constructor
          · rintro ⟨result, hresult, hmembers⟩
            obtain ⟨rest, hrest, hmembers⟩ := bind_eq_ok.mp hmembers
            obtain rfl := Except.ok.inj hmembers
            exact ⟨_, rest, .present (mapError_eq_ok.mp hresult), ih.mp hrest, rfl⟩
          · rintro ⟨member, rest, hmember, hrest, rfl⟩
            cases hmember with
            | @present _ result hresult =>
                exact ⟨result, mapError_eq_ok.mpr hresult, bind_eq_ok.mpr ⟨rest, ih.mpr hrest, rfl⟩⟩
      | none =>
          rw [checkMembers]
          by_cases hallowed : allowOptional = true ∧ child.isOptional = true
          · rw [if_pos hallowed, bind_eq_ok]
            constructor
            · rintro ⟨rest, hrest, hmembers⟩
              obtain rfl := Except.ok.inj hmembers
              exact ⟨_, rest, .omitted hallowed.1 hallowed.2, ih.mp hrest, rfl⟩
            · rintro ⟨member, rest, hmember, hrest, rfl⟩
              cases hmember with
              | omitted => exact ⟨rest, ih.mpr hrest, rfl⟩
          · rw [if_neg hallowed]
            refine ⟨nofun, ?_⟩
            rintro ⟨member, rest, hmember, hrest, rfl⟩
            cases hmember with
            | omitted hallow hoptional => exact absurd ⟨hallow, hoptional⟩ hallowed

/-- Both loops of `members`. -/
theorem members_eq_ok (hnodup : (children.map (·.1)).Nodup)
    {values : List (String × ComponentValue)} {members : List (CheckedNamedValue G)} :
    (supply children values >>= checkMembers allowOptional 0 children) = .ok members ↔
      (∀ value ∈ values, value.1 ∈ children.map (·.1)) ∧ (values.map (·.1)).Nodup ∧
        List.Forall₂
          (fun child member => MemberResult allowOptional child (supplied values child.1) member)
          children members := by
  rw [bind_eq_ok]
  constructor
  · rintro ⟨slots, hslots, hmembers⟩
    obtain ⟨hdeclared, hdistinct, rfl⟩ := (placeAll_eq_ok hnodup).mp (mapError_eq_ok.mp hslots)
    rw [List.map_map] at hmembers
    exact ⟨hdeclared, hdistinct, checkMembers_eq_ok.mp hmembers⟩
  · rintro ⟨hdeclared, hdistinct, hmembers⟩
    refine ⟨_, mapError_eq_ok.mpr ((placeAll_eq_ok hnodup).mpr ⟨hdeclared, hdistinct, rfl⟩), ?_⟩
    rw [List.map_map]
    exact checkMembers_eq_ok.mpr hmembers

/-- Every declared child has its result. -/
theorem exists_members {slot : String → Option ComponentValue} :
    (∃ members, List.Forall₂
      (fun child member => MemberResult allowOptional child (slot child.1) member)
      children members) ↔
      ∀ child ∈ children, ∃ member, MemberResult allowOptional child (slot child.1) member := by
  induction children with
  | nil => exact ⟨fun _ _ h => absurd h List.not_mem_nil, fun _ => ⟨[], .nil⟩⟩
  | cons child children ih =>
      rw [List.forall_mem_cons, ← ih]
      constructor
      · rintro ⟨_, hall⟩
        obtain ⟨member, rest, hmember, hrest, rfl⟩ := List.forall₂_cons_left_iff.mp hall
        exact ⟨⟨member, hmember⟩, ⟨rest, hrest⟩⟩
      · rintro ⟨⟨member, hmember⟩, ⟨rest, hrest⟩⟩
        exact ⟨member :: rest, .cons hmember hrest⟩

theorem mem_of_forall₂ {slot : String → Option ComponentValue}
    {members : List (CheckedNamedValue G)}
    (h : List.Forall₂ (fun child member => MemberResult allowOptional child (slot child.1) member)
      children members) {member : CheckedNamedValue G} (hmember : member ∈ members) :
    ∃ child ∈ children, MemberResult allowOptional child (slot child.1) member := by
  induction h with
  | nil => exact absurd hmember List.not_mem_nil
  | cons hhead _ ih =>
      obtain rfl | hmember := List.mem_cons.mp hmember
      · exact ⟨_, List.mem_cons_self, hhead⟩
      · obtain ⟨child, hchild, hresult⟩ := ih hmember
        exact ⟨child, List.mem_cons_of_mem _ hchild, hresult⟩

/-- The results stand in declared order, each beside its child's value. -/
theorem arranged_of_members (hnodup : (children.map (·.1)).Nodup)
    {values : List (String × ComponentValue)} (hdistinct : (values.map (·.1)).Nodup)
    {members : List (CheckedNamedValue G)}
    (h : List.Forall₂
      (fun child member => MemberResult allowOptional child (supplied values child.1) member)
      children members) :
    members.map (·.1) = children.map (·.1) ∧
      (∀ member ∈ members, member.2 = none ↔ member.1 ∉ values.map (·.1)) ∧
      ∀ child ∈ children, ∀ value result, (child.1, value) ∈ values →
        (child.1, some result) ∈ members → checkChild child.2 value = .ok result := by
  refine ⟨?_, ?_, ?_⟩
  · clear hnodup hdistinct
    induction h with
    | nil => rfl
    | cons hhead _ ih => rw [List.map_cons, List.map_cons, hhead.name, ih]
  · intro member hmember
    obtain ⟨child, -, hresult⟩ := mem_of_forall₂ h hmember
    rw [← supplied_eq_none, hresult.name]
    generalize supplied values child.1 = slot at hresult
    cases hresult <;> simp
  · intro child hchild value result hvalue hmember
    obtain ⟨child', hchild', hresult⟩ := mem_of_forall₂ h hmember
    obtain rfl : child = child' := List.inj_on_of_nodup_map hnodup hchild hchild' hresult.name
    rw [(supplied_eq_some hdistinct).mpr hvalue] at hresult
    cases hresult with
    | present hchecked => exact hchecked

/-- Members are accepted when they are declared, distinct and none is missing. -/
theorem members_accepted (hnodup : (children.map (·.1)).Nodup)
    {values : List (String × ComponentValue)} :
    (∃ members, (supply children values >>= checkMembers allowOptional 0 children) =
        .ok members) ↔
      (∀ value ∈ values, value.1 ∈ children.map (·.1)) ∧ (values.map (·.1)).Nodup ∧
        (∀ child ∈ children, (allowOptional = true → child.2.isOptional = false) →
          child.1 ∈ values.map (·.1)) ∧
        ∀ child ∈ children, ∀ value, (child.1, value) ∈ values →
          ∃ result, checkChild child.2 value = .ok result := by
  simp only [members_eq_ok hnodup, exists_and_left, exists_members]
  refine and_congr_right fun _ => and_congr_right fun hdistinct => ?_
  constructor
  · intro h
    constructor
    · intro child hchild hrequired
      by_contra hmissing
      obtain ⟨member, hmember⟩ := h child hchild
      rw [supplied_eq_none.mpr hmissing] at hmember
      cases hmember with
      | omitted hallow hoptional =>
          exact Bool.false_ne_true ((hrequired hallow).symm.trans hoptional)
    · intro child hchild value hvalue
      obtain ⟨member, hmember⟩ := h child hchild
      rw [(supplied_eq_some hdistinct).mpr hvalue] at hmember
      cases hmember with
      | present hchecked => exact ⟨_, hchecked⟩
  · rintro ⟨hrequired, heach⟩ child hchild
    cases hsupplied : supplied values child.1 with
    | some value =>
        obtain ⟨result, hresult⟩ := heach child hchild value (mem_of_supplied hsupplied)
        exact ⟨_, .present hresult⟩
    | none =>
        by_cases hallowed : allowOptional = true ∧ child.2.isOptional = true
        · exact ⟨_, .omitted hallowed.1 hallowed.2⟩
        · have hmust : allowOptional = true → child.2.isOptional = false :=
            fun hallow => Bool.eq_false_iff.mpr fun hoptional => hallowed ⟨hallow, hoptional⟩
          exact absurd (hrequired child hchild hmust) (supplied_eq_none.mp hsupplied)

/-- The error of the second loop is that of one declared child. -/
theorem checkMembers_eq_error {slots : List (Option ComponentValue)} {index : Nat}
    {e : ComponentError EG} (h : checkMembers allowOptional index children slots = .error e) :
    ∃ j child, children[j]? = some child ∧
      (e = (ComponentError.new .missingMember).atIndex (index + j) ∨
        ∃ value inner, slots[j]? = some (some value) ∧ checkChild child.2 value = .error inner ∧
          e = inner.atIndex (index + j)) := by
  induction children generalizing index slots with
  | nil =>
      rw [checkMembers] at h
      cases h
  | cons child children ih =>
      have hlater : ∀ {slots' : List (Option ComponentValue)},
          checkMembers allowOptional (index + 1) children slots' = .error e →
          ∀ slot, slots = slot :: slots' →
          ∃ j declared, (child :: children)[j]? = some declared ∧
            (e = (ComponentError.new .missingMember).atIndex (index + j) ∨
              ∃ value inner, slots[j]? = some (some value) ∧
                checkChild declared.2 value = .error inner ∧ e = inner.atIndex (index + j)) := by
        rintro slots' hrest slot rfl
        obtain ⟨j, declared, hdeclared, herror⟩ := ih hrest
        rw [Nat.add_assoc, Nat.add_comm 1 j] at herror
        exact ⟨j + 1, declared, hdeclared, herror⟩
      obtain ⟨name, child⟩ := child
      cases slots with
      | nil =>
          rw [checkMembers] at h
          cases h
      | cons slot slots =>
          cases slot with
          | some value =>
              rw [checkMembers, bind_eq_error] at h
              obtain h | ⟨result, -, h⟩ := h
              · obtain ⟨inner, hinner, rfl⟩ := mapError_eq_error.mp h
                exact ⟨0, (name, child), rfl, .inr ⟨value, inner, rfl, hinner, rfl⟩⟩
              · obtain h | ⟨_, -, h⟩ := bind_eq_error.mp h
                · exact hlater h _ rfl
                · cases h
          | none =>
              rw [checkMembers] at h
              split at h
              · obtain h | ⟨_, -, h⟩ := bind_eq_error.mp h
                · exact hlater h _ rfl
                · cases h
              · cases h
                exact ⟨0, (name, child), rfl, .inl rfl⟩

/-- The error of both loops is that of no child or of one declared child. -/
theorem members_eq_error (hnodup : (children.map (·.1)).Nodup)
    {values : List (String × ComponentValue)} {e : ComponentError EG}
    (h : (supply children values >>= checkMembers allowOptional 0 children) = .error e) :
    e.path = [] ∨ ∃ index child, children[index]? = some child ∧
      (e.path = [index] ∨ ∃ value inner, value ∈ values.map (·.2) ∧
        checkChild child.2 value = .error inner ∧ e = inner.atIndex index) := by
  obtain h | ⟨slots, hslots, h⟩ := bind_eq_error.mp h
  · obtain ⟨reason, hreason, rfl⟩ := mapError_eq_error.mp h
    cases reason with
    | unknown => exact .inl rfl
    | repeated index =>
        have hlt : index < children.length := by simpa using placeAll_repeated hreason
        exact .inr ⟨index, _, List.getElem?_eq_getElem hlt, .inl rfl⟩
  · obtain ⟨index, child, hchild, herror⟩ := checkMembers_eq_error h
    rw [Nat.zero_add] at herror
    refine .inr ⟨index, child, hchild, ?_⟩
    obtain rfl | ⟨value, inner, hslot, hinner, rfl⟩ := herror
    · exact .inl rfl
    · refine .inr ⟨value, inner, ?_, hinner, rfl⟩
      obtain ⟨-, -, rfl⟩ := (placeAll_eq_ok hnodup).mp (mapError_eq_ok.mp hslots)
      obtain ⟨name, -, hsupplied⟩ := List.mem_map.mp (List.mem_of_getElem? hslot)
      exact List.mem_map_of_mem (mem_of_supplied hsupplied)

end Members

/-! ### The selected arm -/

section Selected

variable {children : List (NamedContract EG G)} {name : String} {value : ComponentValue}

theorem checkSelected_eq_ok (hnodup : (children.map (·.1)).Nodup) {index : Nat}
    {result : CheckedComponentValue G} :
    checkSelected name value index children = .ok result ↔
      ∃ child inner, (name, child) ∈ children ∧ checkChild child value = .ok inner ∧
        result = .choice name inner := by
  induction children generalizing index with
  | nil =>
      rw [checkSelected]
      exact ⟨nofun, fun ⟨_, _, h, _⟩ => absurd h List.not_mem_nil⟩
  | cons arm children ih =>
      obtain ⟨arm, child⟩ := arm
      obtain ⟨hnew, hnodup⟩ := List.nodup_cons.mp hnodup
      rw [checkSelected]
      by_cases hname : arm = name
      · subst hname
        rw [if_pos rfl, mapError_eq_ok, map_eq_ok]
        constructor
        · rintro ⟨inner, hinner, rfl⟩
          exact ⟨child, inner, List.mem_cons_self, hinner, rfl⟩
        · rintro ⟨child', inner, hmem, hinner, rfl⟩
          obtain hsame | hmem := List.mem_cons.mp hmem
          · obtain ⟨-, rfl⟩ := Prod.mk.inj hsame
            exact ⟨inner, hinner, rfl⟩
          · exact absurd (List.mem_map.mpr ⟨_, hmem, rfl⟩) hnew
      · rw [if_neg hname, ih hnodup]
        refine exists_congr fun child' => exists_congr fun inner => and_congr_left fun _ => ?_
        rw [List.mem_cons, or_iff_right]
        exact fun hsame => hname (Prod.mk.inj hsame).1.symm

theorem checkSelected_eq_error {index : Nat} {e : ComponentError EG}
    (h : checkSelected name value index children = .error e) :
    e.path = [] ∨ ∃ j child, children[j]? = some child ∧
      ∃ inner, checkChild child.2 value = .error inner ∧ e = inner.atIndex (index + j) := by
  induction children generalizing index with
  | nil =>
      rw [checkSelected] at h
      cases h
      exact .inl rfl
  | cons arm children ih =>
      obtain ⟨arm, child⟩ := arm
      rw [checkSelected] at h
      split at h
      · obtain ⟨inner, hinner, rfl⟩ := mapError_eq_error.mp h
        exact .inr ⟨0, _, rfl, inner, map_eq_error.mp hinner, rfl⟩
      · obtain hnone | ⟨j, declared, hdeclared, inner, hinner, herror⟩ := ih h
        · exact .inl hnone
        · rw [Nat.add_assoc, Nat.add_comm 1 j] at herror
          exact .inr ⟨j + 1, declared, hdeclared, inner, hinner, herror⟩

end Selected

/-! ### Values -/

section Values

theorem checkLeaf_eq_ok {ε α : Type} {checked : α → CheckedComponentValue G}
    {kind : ε → ComponentErrorKind EG} {leaf : Leaf ε α} {raw : Bytes}
    {result : CheckedComponentValue G} :
    checkLeaf checked kind leaf raw = .ok result ↔
      ∃ value, leaf.check raw = .ok value ∧ result = checked value := by
  unfold checkLeaf
  cases leaf.check raw with
  | error e => simp
  | ok value => simp [eq_comm]

theorem checkLeaf_eq_error {ε α : Type} {checked : α → CheckedComponentValue G}
    {kind : ε → ComponentErrorKind EG} {leaf : Leaf ε α} {raw : Bytes} {e : ComponentError EG}
    (h : checkLeaf checked kind leaf raw = .error e) : e.path = [] := by
  unfold checkLeaf at h
  cases hcheck : leaf.check raw with
  | error error =>
      rw [hcheck] at h
      cases h
      rfl
  | ok value =>
      rw [hcheck] at h
      cases h

/-- The values that conform are accepted, at every level. -/
theorem checkChild_accepts {contract : ChildContract EG G} (hcompiled : contract.Compiled)
    {value : ComponentValue} :
    (∃ result, checkChild contract value = .ok result) ↔ Conforms contract value := by
  induction contract using ChildContract.declared_induction generalizing value with
  | scalar leaf =>
      cases value with
      | scalarJson raw =>
          simp only [checkChild, checkLeaf_eq_ok]
          exact ⟨fun ⟨_, _, h, _⟩ => .scalar h, fun (.scalar h) => ⟨_, _, h, rfl⟩⟩
      | _ => exact ⟨by simp [checkChild], nofun⟩
  | range leaf =>
      cases value with
      | rangeJson raw =>
          simp only [checkChild, checkLeaf_eq_ok]
          exact ⟨fun ⟨_, _, h, _⟩ => .range h, fun (.range h) => ⟨_, _, h, rfl⟩⟩
      | _ => exact ⟨by simp [checkChild], nofun⟩
  | geometry leaf =>
      cases value with
      | geometryJson raw =>
          simp only [checkChild, checkLeaf_eq_ok]
          exact ⟨fun ⟨_, _, h, _⟩ => .geometry h, fun (.geometry h) => ⟨_, _, h, rfl⟩⟩
      | _ => exact ⟨by simp [checkChild], nofun⟩
  | aggregate component optional children ih =>
      obtain ⟨hnodup, hbelow⟩ := hcompiled.children
      -- the children accept what conforms to them
      have hchildren : ∀ child ∈ children, ∀ value,
          (∃ result, checkChild child.2 value = .ok result) ↔ Conforms child.2 value :=
        fun child hchild value => ih child hchild (hbelow child hchild)
      cases component with
      | array => exact ⟨by simp [checkChild], nofun⟩
      | choice =>
          cases value with
          | choice members =>
              match members with
              | [] => exact ⟨by simp [checkChild], nofun⟩
              | [(name, value)] =>
                  simp only [checkChild, checkSelected_eq_ok hnodup]
                  constructor
                  · rintro ⟨result, child, inner, hmem, hinner, -⟩
                    exact .choice hmem ((hchildren _ hmem value).mp ⟨inner, hinner⟩)
                  · intro h
                    cases h with
                    | choice hmem hconforms =>
                        obtain ⟨inner, hinner⟩ := (hchildren _ hmem value).mpr hconforms
                        exact ⟨_, _, inner, hmem, hinner, rfl⟩
              | _ :: _ :: _ => exact ⟨by simp [checkChild], nofun⟩
          | _ => exact ⟨by simp [checkChild], nofun⟩
      | record =>
          cases value with
          | record values =>
              simp only [checkChild, bind_map_eq, map_eq_ok]
              rw [exists_comm]
              simp only [exists_and_left, exists_eq', and_true, members_accepted hnodup]
              constructor
              · rintro ⟨hdeclared, hdistinct, hrequired, heach⟩
                refine .record hdeclared hdistinct ?_ ?_
                · exact fun child hchild h => hrequired child hchild fun _ => h
                · exact fun child hchild value hvalue =>
                    (hchildren child hchild value).mp (heach child hchild value hvalue)
              · intro h
                cases h with
                | record hdeclared hdistinct hrequired heach =>
                    refine ⟨hdeclared, hdistinct, ?_, ?_⟩
                    · exact fun child hchild h => hrequired child hchild (h trivial)
                    · exact fun child hchild value hvalue =>
                        (hchildren child hchild value).mpr (heach child hchild value hvalue)
          | _ => exact ⟨by simp [checkChild], nofun⟩
      | vector referenceFrame localFrame =>
          cases value with
          | vector values =>
              simp only [checkChild, bind_map_eq, map_eq_ok]
              rw [exists_comm]
              simp only [exists_and_left, exists_eq', and_true, members_accepted hnodup]
              constructor
              · rintro ⟨hdeclared, hdistinct, hrequired, heach⟩
                refine .vector hdeclared hdistinct ?_ ?_
                · exact fun child hchild => hrequired child hchild nofun
                · exact fun child hchild value hvalue =>
                    (hchildren child hchild value).mp (heach child hchild value hvalue)
              · intro h
                cases h with
                | vector hdeclared hdistinct hrequired heach =>
                    refine ⟨hdeclared, hdistinct, ?_, ?_⟩
                    · exact fun child hchild _ => hrequired child hchild
                    · exact fun child hchild value hvalue =>
                        (hchildren child hchild value).mpr (heach child hchild value hvalue)
          | _ => exact ⟨by simp [checkChild], nofun⟩

/-- The members of a result are arranged, at every level. -/
theorem checkChild_arranged {contract : ChildContract EG G} (hcompiled : contract.Compiled)
    {value : ComponentValue} {result : CheckedComponentValue G}
    (h : checkChild contract value = .ok result) : Arranged contract value result := by
  induction contract using ChildContract.declared_induction generalizing value result with
  | scalar leaf =>
      cases value with
      | scalarJson raw =>
          rw [checkChild] at h
          obtain ⟨checked, hchecked, rfl⟩ := checkLeaf_eq_ok.mp h
          exact .scalar hchecked
      | _ => simp [checkChild] at h
  | range leaf =>
      cases value with
      | rangeJson raw =>
          rw [checkChild] at h
          obtain ⟨checked, hchecked, rfl⟩ := checkLeaf_eq_ok.mp h
          exact .range hchecked
      | _ => simp [checkChild] at h
  | geometry leaf =>
      cases value with
      | geometryJson raw =>
          rw [checkChild] at h
          obtain ⟨checked, hchecked, rfl⟩ := checkLeaf_eq_ok.mp h
          exact .geometry hchecked
      | _ => simp [checkChild] at h
  | aggregate component optional children ih =>
      obtain ⟨hnodup, hbelow⟩ := hcompiled.children
      cases component with
      | array => simp [checkChild] at h
      | choice =>
          cases value with
          | choice members =>
              match members with
              | [] => simp [checkChild] at h
              | [(name, value)] =>
                  simp only [checkChild] at h
                  obtain ⟨child, inner, hmem, hinner, rfl⟩ := (checkSelected_eq_ok hnodup).mp h
                  exact .choice hmem (ih _ hmem (hbelow _ hmem) hinner)
              | _ :: _ :: _ => simp [checkChild] at h
          | _ => simp [checkChild] at h
      | record =>
          cases value with
          | record values =>
              simp only [checkChild, bind_map_eq, map_eq_ok] at h
              obtain ⟨members, hmembers, rfl⟩ := h
              obtain ⟨-, hdistinct, hmembers⟩ := (members_eq_ok hnodup).mp hmembers
              obtain ⟨horder, homitted, heach⟩ := arranged_of_members hnodup hdistinct hmembers
              refine .record horder homitted ?_
              intro child hchild value result hvalue hmember
              exact ih _ hchild (hbelow _ hchild) (heach child hchild value result hvalue hmember)
          | _ => simp [checkChild] at h
      | vector referenceFrame localFrame =>
          cases value with
          | vector values =>
              simp only [checkChild, bind_map_eq, map_eq_ok] at h
              obtain ⟨members, hmembers, rfl⟩ := h
              obtain ⟨-, hdistinct, hmembers⟩ := (members_eq_ok hnodup).mp hmembers
              obtain ⟨horder, -, heach⟩ := arranged_of_members hnodup hdistinct hmembers
              refine .vector horder ?_ ?_
              · intro member hmember
                obtain ⟨child, -, hresult⟩ := mem_of_forall₂ hmembers hmember
                generalize supplied values child.1 = slot at hresult
                cases hresult with
                | present => exact Option.some_ne_none _
                | omitted hallow => cases hallow
              · intro child hchild value result hvalue hmember
                exact ih _ hchild (hbelow _ hchild) (heach child hchild value result hvalue hmember)
          | _ => simp [checkChild] at h

/-- A path is prolonged by the child it leads through. -/
theorem atIndex_addresses {component : AggregateComponent} {optional : Option Bool}
    {children : List (NamedContract EG G)} {index room : Nat} {child : NamedContract EG G}
    (hchild : children[index]? = some child) {inner : ComponentError EG}
    (hshort : inner.path.length ≤ room) (hroom : room + 1 ≤ maxDepth)
    (h : Addresses child.2 inner.path) :
    (inner.atIndex index).path.length ≤ room + 1 ∧
      Addresses (.aggregate component optional children) (inner.atIndex index).path := by
  unfold ComponentError.atIndex
  rw [if_pos (Nat.lt_of_lt_of_le (Nat.lt_succ_of_le hshort) hroom)]
  exact ⟨Nat.succ_le_succ hshort, .child hchild h⟩

/-- An error of the members of a record or a vector. -/
theorem members_addresses {component : AggregateComponent} {optional : Option Bool}
    {allowOptional : Bool} {children : List (NamedContract EG G)} {room : Nat}
    (hnodup : (children.map (·.1)).Nodup) (hroom : room + 1 ≤ maxDepth)
    {values : List (String × ComponentValue)}
    (hchildren : ∀ child ∈ children, ∀ value ∈ values.map (·.2), ∀ inner,
      checkChild child.2 value = .error inner →
        inner.path.length ≤ room ∧ Addresses child.2 inner.path) {e : ComponentError EG}
    (h : (supply children values >>= checkMembers allowOptional 0 children) = .error e) :
    e.path.length ≤ room + 1 ∧ Addresses (.aggregate component optional children) e.path := by
  obtain hnone | ⟨index, child, hchild, hpath | ⟨value, inner, hvalue, hinner, rfl⟩⟩ :=
    members_eq_error hnodup h
  · rw [hnone]
    exact ⟨Nat.zero_le _, .here _⟩
  · rw [hpath]
    exact ⟨Nat.succ_le_succ (Nat.zero_le _), .child hchild (.here _)⟩
  · obtain ⟨hshort, haddresses⟩ :=
      hchildren child (List.mem_of_getElem? hchild) value hvalue inner hinner
    exact atIndex_addresses hchild hshort hroom haddresses

/-- The path of an error leads along declared children; it is never too long. -/
theorem checkChild_addresses {contract : ChildContract EG G} (hcompiled : contract.Compiled)
    {value : ComponentValue} {room : Nat} (hroom : room ≤ maxDepth) (hfits : FitsDepth room value)
    {e : ComponentError EG} (h : checkChild contract value = .error e) :
    e.path.length ≤ room ∧ Addresses contract e.path := by
  induction contract using ChildContract.declared_induction generalizing value room e with
  | scalar leaf | range leaf | geometry leaf =>
      have hnone : e.path = [] := by
        cases value <;> simp only [checkChild, Except.error.injEq] at h
        all_goals first | exact checkLeaf_eq_error h | (subst h; rfl)
      rw [hnone]
      exact ⟨Nat.zero_le _, .here _⟩
  | aggregate component optional children ih =>
      obtain ⟨hnodup, hbelow⟩ := hcompiled.children
      cases room with
      | zero => exact hfits.elim
      | succ room =>
          -- what a child says of a value inside this one
          have hchildren : ∀ child ∈ children, ∀ inside ∈ value.children, ∀ inner,
              checkChild child.2 inside = .error inner →
                inner.path.length ≤ room ∧ Addresses child.2 inner.path :=
            fun child hchild inside hinside inner hinner =>
              ih child hchild (hbelow child hchild) (Nat.le_of_succ_le hroom)
                (hfits inside hinside) hinner
          have hnone : e.path = [] → e.path.length ≤ room + 1 ∧
              Addresses (.aggregate component optional children) e.path := by
            intro hnone
            rw [hnone]
            exact ⟨Nat.zero_le _, .here _⟩
          cases component with
          | array =>
              simp only [checkChild, Except.error.injEq] at h
              exact hnone (h ▸ rfl)
          | choice =>
              cases value with
              | choice members =>
                  match members with
                  | [(name, value)] =>
                      simp only [checkChild] at h
                      obtain hpath | ⟨index, child, hchild, inner, hinner, rfl⟩ :=
                        checkSelected_eq_error h
                      · exact hnone hpath
                      · rw [Nat.zero_add]
                        obtain ⟨hshort, haddresses⟩ :=
                          hchildren child (List.mem_of_getElem? hchild) value
                            List.mem_cons_self inner hinner
                        exact atIndex_addresses hchild hshort hroom haddresses
                  | [] | _ :: _ :: _ =>
                      simp only [checkChild, Except.error.injEq] at h
                      exact hnone (h ▸ rfl)
              | _ =>
                  simp only [checkChild, Except.error.injEq] at h
                  exact hnone (h ▸ rfl)
          | record =>
              cases value with
              | record values =>
                  simp only [checkChild, bind_map_eq, map_eq_error] at h
                  exact members_addresses hnodup hroom hchildren h
              | _ =>
                  simp only [checkChild, Except.error.injEq] at h
                  exact hnone (h ▸ rfl)
          | vector referenceFrame localFrame =>
              cases value with
              | vector values =>
                  simp only [checkChild, bind_map_eq, map_eq_error] at h
                  exact members_addresses hnodup hroom hchildren h
              | _ =>
                  simp only [checkChild, Except.error.injEq] at h
                  exact hnone (h ▸ rfl)

/-- **Aggregate check.**  Within the budget the values accepted are those that conform;
results are arranged and errors point at declared children. -/
theorem aggregate_check (contract : AggregateContract EG G) {input : ComponentValue}
    (hbudget : input.budget = some ()) :
    ((∃ result, contract.checkValue input = .ok result) ↔ Conforms contract.asChild input) ∧
      (∀ result, contract.checkValue input = .ok result →
        Arranged contract.asChild input result) ∧
      (∀ e, contract.checkValue input = .error e → Addresses contract.asChild e.path) := by
  have hcheck : contract.checkValue input = checkChild contract.asChild input := by
    rw [AggregateContract.checkValue, hbudget]
  rw [hcheck]
  refine ⟨checkChild_accepts contract.compiled, ?_, ?_⟩
  · exact fun result h => checkChild_arranged contract.compiled h
  · exact fun e h =>
      (checkChild_addresses contract.compiled (Nat.le_refl _) (fitsDepth_of_budget hbudget) h).2

/-- A reader of one number. -/
def sampleNumber : JsonReader where
  parse input := if input = encode "2" then .ok (.number "2") else .error .malformed
  rawItems _ := none
  rawMembers _ := none

def sampleLeaf (optional : Option Bool) : Leaf ScalarError Scalar.Checked :=
  .ofScalar sampleNumber optional ⟨.measured (.count none), none, []⟩

/-- A record of a count and of a count that may be left out. -/
def sampleRecord : AggregateContract Unit Unit where
  component := .record
  optional := none
  children := [("hits", .scalar (sampleLeaf none)), ("misses", .scalar (sampleLeaf (some true)))]
  compiled := by
    refine .aggregate (show _ = Except.ok ["hits", "misses"] by decide +kernel) ?_
    intro child hchild
    simp only [List.mem_cons, List.not_mem_nil, or_false] at hchild
    obtain rfl | rfl := hchild <;> exact .scalar _

/-- The count alone conforms, and is accepted. -/
theorem aggregate_check_omitted :
    Conforms sampleRecord.asChild (.record [("hits", .scalarJson (encode "2"))]) := by
  have hbudget : (ComponentValue.record [("hits", .scalarJson (encode "2"))]).budget = some () := by
    decide +kernel
  have haccepted :
      (sampleRecord.checkValue (.record [("hits", .scalarJson (encode "2"))])).toOption.isSome := by
    decide +kernel
  obtain ⟨result, hresult⟩ := Option.isSome_iff_exists.mp haccepted
  exact (aggregate_check sampleRecord hbudget).1.mp ⟨result, toOption_eq_some.mp hresult⟩

end Values

end Standards
end Glaux
