import Glaux.Standards.References.Index

/-!
# Count references of an aggregate (`array.rs`)

`references` scans the component positions of a document with a work list and compares the
fragments of count references with the ids found there, as text.
-/

namespace Glaux
namespace Standards

open Library

/-- Where the count reference stands that is refused; its kind is `CountReference`. -/
structure CountReferenceError where
  path : List Nat
deriving DecidableEq

namespace CountScan

def stringOf (value : Json) (name : String) : Option String := (value.get? name).bind Json.asString?

def isArrayType (component : Json) : Bool :=
  stringOf component "type" = some "DataArray" || stringOf component "type" = some "Matrix"

/-- The id of an inline element count. -/
def countIds (component : Json) : List (String × Bool) :=
  if isArrayType component then
    match component.get? "elementCount" with
    | some count =>
        if (count.get? "href").isNone then (stringOf count "id").toList.map (fun id => (id, true))
        else []
    | none => []
  else []

/-- The ids a component declares itself, each with whether it is that of a count. -/
def declaredIds (component : Json) : List (String × Bool) :=
  (stringOf component "id").toList.map
      (fun id => (id, decide (stringOf component "type" = some "Count"))) ++ countIds component

/-- The count reference of a component. -/
def countHrefs (component : Json) : List String :=
  if isArrayType component then
    ((component.get? "elementCount").bind (stringOf · "href")).toList
  else []

def childMember (component : Json) : Option String :=
  match stringOf component "type" with
  | some "DataRecord" => some "fields"
  | some "Vector" => some "coordinates"
  | some "DataChoice" => some "items"
  | _ => none

/-- The components below a component. -/
def elementParts (component : Json) : List Json :=
  if isArrayType component then (component.get? "elementType").toList else []

def memberParts (component : Json) : List Json :=
  (((childMember component).bind component.get?).bind Json.asArray?).getD []

def selectorParts (component : Json) : List Json :=
  if stringOf component "type" = some "DataChoice" then (component.get? "choiceValue").toList
  else []

/-- What is pushed for a component, the last pushed last. -/
def pushed (component : Json) (path : List Nat) : List (Json × List Nat) :=
  (elementParts component).map (fun part => (part, path ++ [0])) ++
    ((memberParts component).zipIdx.map (fun part => (part.1, path ++ [part.2])) ++
      (selectorParts component).map (fun part => (part, path)))

/-! ### Sizes -/

theorem sizeOf_lookup {members : List (String × Json)} {name : String} {member : Json}
    (h : members.lookup name = some member) : sizeOf member < sizeOf members := by
  induction members with
  | nil => cases h
  | cons first rest ih =>
      obtain ⟨key, value⟩ := first
      rw [List.lookup_cons] at h
      simp only [List.cons.sizeOf_spec, Prod.mk.sizeOf_spec]
      cases hkey : name == key with
      | true =>
          rw [hkey] at h
          obtain rfl := Option.some.inj h
          omega
      | false =>
          rw [hkey] at h
          have := ih h
          omega

/-- Two members of an object are smaller together. -/
theorem sizeOf_lookup_two {members : List (String × Json)} {name name' : String}
    {member member' : Json} (hne : name ≠ name') (h : members.lookup name = some member)
    (h' : members.lookup name' = some member') :
    sizeOf member + sizeOf member' < sizeOf members := by
  induction members with
  | nil => cases h
  | cons first rest ih =>
      obtain ⟨key, value⟩ := first
      rw [List.lookup_cons] at h h'
      simp only [List.cons.sizeOf_spec, Prod.mk.sizeOf_spec]
      cases hkey : name == key with
      | true =>
          have hother : (name' == key) = false :=
            beq_eq_false_iff_ne.mpr fun heq => hne ((beq_iff_eq.mp hkey).trans heq.symm)
          rw [hkey] at h
          rw [hother] at h'
          obtain rfl := Option.some.inj h
          have := sizeOf_lookup h'
          omega
      | false =>
          rw [hkey] at h
          cases hkey' : name' == key with
          | true =>
              rw [hkey'] at h'
              obtain rfl := Option.some.inj h'
              have := sizeOf_lookup h
              omega
          | false =>
              rw [hkey'] at h'
              have := ih h h'
              omega

theorem sizeOf_get? {value member : Json} {name : String} (h : value.get? name = some member) :
    sizeOf member < sizeOf value := by
  cases value with
  | object members =>
      have := sizeOf_lookup h
      simp only [Json.object.sizeOf_spec]
      omega
  | _ => cases h

theorem sizeOf_get?_two {value member member' : Json} {name name' : String} (hne : name ≠ name')
    (h : value.get? name = some member) (h' : value.get? name' = some member') :
    sizeOf member + sizeOf member' < sizeOf value := by
  cases value with
  | object members =>
      have := sizeOf_lookup_two hne h h'
      simp only [Json.object.sizeOf_spec]
      omega
  | _ => cases h

/-- The measure of the work list. -/
noncomputable def weight (parts : List Json) : Nat := (parts.map sizeOf).sum

theorem weight_le (parts : List Json) : weight parts ≤ sizeOf parts := by
  induction parts with
  | nil => exact Nat.zero_le _
  | cons part parts ih =>
      unfold weight at ih ⊢
      rw [List.map_cons, List.sum_cons]
      simp only [List.cons.sizeOf_spec]
      omega

theorem weight_option (part : Option Json) {bound : Nat} (hbound : 0 < bound)
    (h : ∀ value, part = some value → sizeOf value < bound) : weight part.toList < bound := by
  cases part with
  | none => simpa [weight] using hbound
  | some value => simpa [weight] using h value rfl

theorem weight_append (parts more : List Json) :
    weight (parts ++ more) = weight parts + weight more := by
  rw [weight, List.map_append, List.sum_append]
  rfl

/-- The items of a member are together no larger than the member. -/
theorem weight_items {member : Json} {items : List Json} (h : member.asArray? = some items) :
    weight items < sizeOf member := by
  cases member with
  | array items =>
      obtain rfl := Option.some.inj h
      have := weight_le items
      simp only [Json.array.sizeOf_spec]
      omega
  | _ => cases h

theorem pushed_parts (component : Json) (path : List Nat) :
    (pushed component path).map (·.1) =
      elementParts component ++ (memberParts component ++ selectorParts component) := by
  unfold pushed
  rw [List.map_append, List.map_append, List.map_map, List.map_map, List.map_map]
  congr 1
  · exact List.map_id _
  · congr 1
    · exact List.zipIdx_map_fst 0 _
    · exact List.map_id _

/-- All components pushed for one are smaller together. -/
theorem pushed_weight (component : Json) (path : List Nat) :
    weight ((pushed component path).map (·.1)) < sizeOf component := by
  have hpos : 0 < sizeOf component := by cases component <;> simp
  have hnone : weight [] = 0 := rfl
  have hitems : ∀ name, weight (((component.get? name).bind Json.asArray?).getD []) <
      sizeOf component := by
    intro name
    cases hmember : component.get? name with
    | none => simpa [weight] using hpos
    | some member =>
        have := sizeOf_get? hmember
        rw [Option.bind_some]
        cases hitems : member.asArray? with
        | none => simpa [weight] using hpos
        | some items => exact (weight_items hitems).trans this
  rw [pushed_parts, weight_append, weight_append]
  unfold elementParts memberParts selectorParts childMember
  by_cases harray : isArrayType component = true
  · -- an array has an element and nothing else
    have hkinds : stringOf component "type" = some "DataArray" ∨
        stringOf component "type" = some "Matrix" := by simpa [isArrayType] using harray
    have helement : weight (component.get? "elementType").toList < sizeOf component := by
      cases helement : component.get? "elementType" with
      | none => simpa [weight] using hpos
      | some element => simpa [weight] using sizeOf_get? helement
    obtain h | h := hkinds <;> simp [h, harray, hnone, helement]
  · rw [if_neg harray, hnone, Nat.zero_add]
    cases htype : stringOf component "type" with
    | none => simpa [hnone] using hpos
    | some kind =>
        by_cases hchoice : kind = "DataChoice"
        · subst hchoice
          rw [if_pos rfl]
          cases hselector : component.get? "choiceValue" with
          | none => simpa [hnone] using hitems "items"
          | some selector =>
              cases hmember : component.get? "items" with
              | none => simpa [weight, hmember] using sizeOf_get? hselector
              | some member =>
                  have htwo := sizeOf_get?_two (by decide) hmember hselector
                  have hweight : weight (member.asArray?.getD []) ≤ sizeOf member := by
                    cases hlist : member.asArray? with
                    | none => exact Nat.zero_le _
                    | some items => exact (weight_items hlist).le
                  simp only [Option.bind_some, hmember, Option.toList_some]
                  have hone : weight [selector] = sizeOf selector := by simp [weight]
                  rw [hone]
                  omega
        · have hother : some kind ≠ some "DataChoice" := fun h => hchoice (Option.some.inj h)
          rw [if_neg hother, hnone, Nat.add_zero]
          split
          next => exact hitems "fields"
          next => exact hitems "coordinates"
          next heq => exact absurd (Option.some.inj heq) hchoice
          next => simpa [hnone] using hpos

/-! ### The scan -/

structure Scan where
  ids : List (String × Bool)
  references : List (String × List Nat)

/-- What one component adds. -/
def Scan.visit (scan : Scan) (component : Json) (path : List Nat) : Scan where
  ids := scan.ids ++ declaredIds component
  references := scan.references ++ (countHrefs component).map (fun href => (href, path))

/-- The work list; its head is the component that was pushed last. -/
def scanAll : List (Json × List Nat) → Scan → Scan
  | [], scan => scan
  | (component, path) :: pending, scan =>
      scanAll ((pushed component path).reverse ++ pending) (scan.visit component path)
termination_by pending => weight (pending.map (·.1))
decreasing_by
  have hpushed := pushed_weight component path
  have hreverse : weight ((pushed component path).reverse.map (·.1)) =
      weight ((pushed component path).map (·.1)) := by
    unfold weight
    rw [List.map_map, List.map_map]
    exact (((List.reverse_perm _).map _)).sum_nat
  rw [List.map_append, weight_append, hreverse]
  simp only [List.map_cons]
  unfold weight at hpushed ⊢
  rw [List.map_cons, List.sum_cons]
  omega

/-- A local fragment names components, and none of them is a count. -/
def inconsistent (ids : List (String × Bool)) (href : String) : Bool :=
  match localFragment href with
  | none => false
  | some id => ids.any (fun target => target.1 = id) && ids.all (fun target => target.1 ≠ id || !target.2)

/-- `references`. -/
def references (source : Json) : Except CountReferenceError Unit :=
  let scan := scanAll [(source, [])] ⟨[], []⟩
  match scan.references.find? (fun reference => inconsistent scan.ids reference.1) with
  | some reference => .error ⟨reference.2⟩
  | none => .ok ()

/-- A component stands in a position below another one. -/
inductive Position : Json → Json → Prop
  | here (component : Json) : Position component component
  | under {component part inside : Json}
      (hpart : part ∈ elementParts component ++ (memberParts component ++ selectorParts component))
      (h : Position part inside) : Position component inside

theorem position_iff {component inside : Json} :
    Position component inside ↔ inside = component ∨
      ∃ part ∈ elementParts component ++ (memberParts component ++ selectorParts component),
        Position part inside := by
  constructor
  · intro h
    cases h with
    | here => exact .inl rfl
    | under hpart h => exact .inr ⟨_, hpart, h⟩
  · rintro (rfl | ⟨part, hpart, h⟩)
    · exact .here _
    · exact .under hpart h

/-- What stands below a work list: the component taken, or what stands below the rest. -/
theorem below_step {component : Json} {path : List Nat} {pending : List (Json × List Nat)}
    (Q : Json → Prop) :
    (∃ entry ∈ (component, path) :: pending, ∃ inside, Position entry.1 inside ∧ Q inside) ↔
      Q component ∨ ∃ entry ∈ (pushed component path).reverse ++ pending,
        ∃ inside, Position entry.1 inside ∧ Q inside := by
  have hpushed : ∀ part, (∃ entry ∈ pushed component path, entry.1 = part) ↔
      part ∈ elementParts component ++ (memberParts component ++ selectorParts component) := by
    intro part
    rw [← pushed_parts component path, List.mem_map]
  constructor
  · rintro ⟨entry, hentry, inside, hposition, hinside⟩
    obtain rfl | hentry := List.mem_cons.mp hentry
    · obtain rfl | ⟨part, hpart, hposition⟩ := position_iff.mp hposition
      · exact .inl hinside
      · obtain ⟨entry, hentry, rfl⟩ := (hpushed part).mpr hpart
        exact .inr ⟨entry, List.mem_append_left _ (List.mem_reverse.mpr hentry), inside,
          hposition, hinside⟩
    · exact .inr ⟨entry, List.mem_append_right _ hentry, inside, hposition, hinside⟩
  · rintro (hinside | ⟨entry, hentry, inside, hposition, hinside⟩)
    · exact ⟨_, List.mem_cons_self, component, .here _, hinside⟩
    · obtain hentry | hentry := List.mem_append.mp hentry
      · refine ⟨_, List.mem_cons_self, inside, .under ?_ hposition, hinside⟩
        exact (hpushed entry.1).mp ⟨entry, List.mem_reverse.mp hentry, rfl⟩
      · exact ⟨entry, List.mem_cons_of_mem _ hentry, inside, hposition, hinside⟩

/-- The scan collects what stands in the positions below its work list. -/
theorem mem_scanAll (pending : List (Json × List Nat)) (scan : Scan) :
    (∀ target, target ∈ (scanAll pending scan).ids ↔ target ∈ scan.ids ∨
      ∃ entry ∈ pending, ∃ component, Position entry.1 component ∧ target ∈ declaredIds component) ∧
    ∀ href, href ∈ (scanAll pending scan).references.map (·.1) ↔
      href ∈ scan.references.map (·.1) ∨
        ∃ entry ∈ pending, ∃ component, Position entry.1 component ∧
          href ∈ countHrefs component := by
  induction pending, scan using scanAll.induct with
  | case1 scan => simp [scanAll]
  | case2 component path pending scan ih =>
      obtain ⟨hids, hreferences⟩ := ih
      rw [scanAll]
      constructor
      · intro target
        rw [hids, below_step (fun component => target ∈ declaredIds component), Scan.visit,
          List.mem_append, or_assoc]
      · intro href
        rw [hreferences, below_step (fun component => href ∈ countHrefs component), Scan.visit,
          List.map_append, List.mem_append, or_assoc, List.map_map]
        simp only [Function.comp_def, List.map_id']

theorem inconsistent_eq_false {ids : List (String × Bool)} {href : String} :
    inconsistent ids href = false ↔ ∀ id, localFragment href = some id →
      (∃ isCount, (id, isCount) ∈ ids) → (id, true) ∈ ids := by
  unfold inconsistent
  cases localFragment href with
  | none => simp
  | some id =>
      simp only [Option.some.injEq, forall_eq']
      rw [Bool.and_eq_false_iff, List.any_eq_false, List.all_eq_false]
      constructor
      · rintro (hnone | ⟨target, htarget, hcount⟩) ⟨isCount, hmem⟩
        · exact absurd (decide_eq_true rfl) (hnone _ hmem)
        · obtain ⟨name, isCount⟩ := target
          simp only [ne_eq, Bool.or_eq_true, decide_eq_true_eq, Bool.not_eq_true', not_or,
            not_not, Bool.not_eq_false] at hcount
          obtain ⟨rfl, rfl⟩ := hcount
          exact htarget
      · intro h
        by_cases hnamed : ∃ isCount, (id, isCount) ∈ ids
        · exact .inr ⟨_, h hnamed, by simp⟩
        · refine .inl fun target htarget hname => ?_
          obtain rfl := of_decide_eq_true hname
          exact hnamed ⟨target.2, htarget⟩

/-- **The scan.**  A document is accepted unless a count reference names a component in some
position, and every component of that id in a position is no count. -/
theorem references_eq_ok {source : Json} :
    references source = .ok () ↔
      ∀ component, Position source component → ∀ href ∈ countHrefs component,
        ∀ id, localFragment href = some id →
          (∃ inside isCount, Position source inside ∧ (id, isCount) ∈ declaredIds inside) →
          ∃ inside, Position source inside ∧ (id, true) ∈ declaredIds inside := by
  obtain ⟨hids, hreferences⟩ := mem_scanAll [(source, [])] ⟨[], []⟩
  have hids : ∀ target, target ∈ (scanAll [(source, [])] ⟨[], []⟩).ids ↔
      ∃ inside, Position source inside ∧ target ∈ declaredIds inside := by
    simpa using hids
  have hreferences : ∀ href, href ∈ (scanAll [(source, [])] ⟨[], []⟩).references.map (·.1) ↔
      ∃ component, Position source component ∧ href ∈ countHrefs component := by
    simpa using hreferences
  unfold references
  generalize scanAll [(source, [])] ⟨[], []⟩ = scan at hids hreferences
  have haccepted : ∀ found : Option (String × List Nat),
      (match found with
        | some reference => Except.error ⟨reference.2⟩
        | none => .ok () : Except CountReferenceError Unit) = .ok () ↔ found = none := by
    rintro (_ | found) <;> simp
  dsimp only
  rw [haccepted, List.find?_eq_none]
  have hconsistent : (∀ reference ∈ scan.references, ¬ inconsistent scan.ids reference.1 = true) ↔
      ∀ href ∈ scan.references.map (·.1), inconsistent scan.ids href = false := by
    simp
  rw [hconsistent]
  simp only [inconsistent_eq_false, hids, hreferences]
  constructor
  · rintro h component hposition href hhref id hid ⟨inside, isCount, hinside, hmem⟩
    exact h href ⟨component, hposition, hhref⟩ id hid ⟨isCount, inside, hinside, hmem⟩
  · rintro h href ⟨component, hposition, hhref⟩ id hid ⟨isCount, inside, hinside, hmem⟩
    exact h component hposition href hhref id hid ⟨inside, isCount, hinside, hmem⟩

end CountScan

end Standards
end Glaux
