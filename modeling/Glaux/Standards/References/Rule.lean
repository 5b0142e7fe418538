import Glaux.Standards.References.Index

/-!
# The rule of indexing (`Index::component`)

Indexing a component declares it, visits its slots and enters an edge for every value it has
visited.  A property of the index that these steps keep holds of every index built; targets that
have no edge yet are pending.
-/

namespace Glaux
namespace Standards

open Library

/-- The members that hold children. -/
def childMembers : List String := ["fields", "coordinates", "items"]

theorem childMember_known {kind : Contract} {member : String}
    (h : kind.childMember = some member) : member ∈ childMembers := by
  cases kind <;> cases h <;> decide

namespace Index

section Rule

variable {S R : Type} {readers : Readers S R} {input : SubmittedBytes}
variable {options : CountReferenceSchema} {At : Pointer → RawValue → Prop}
variable {Inv : List IndexedTarget → Index → Prop} {visit : Visit}
variable {value : Json} {raw : RawValue} {members : List (String × RawValue)} {path : Pointer}
variable {kind : Contract} {node : Nat} {target : IndexedTarget} {index index' : Index}
variable {pending : List IndexedTarget} {referenceKind : ReferenceKind} {slot : Slot}

/-- An edge leads to a later component, or to a reference of its owner. -/
structure Fits (index : Index) (node : Nat) (edge : IndexedEdge) : Prop where
  owner : node < index.components.length
  component : ∀ child, edge.target = .component child →
    node < child ∧ child < index.components.length
  reference : ∀ i, edge.target = .reference i → ∃ reference, index.references[i]? = some reference ∧
    reference.owner = node ∧ (edge.slot = .quality → reference.kind = .quality)

/-- What is known of a raw value and its pointer goes over to the values inside, and the steps of
indexing keep a property. -/
structure Rule (borrowing : Borrowing) (input : SubmittedBytes) (At : Pointer → RawValue → Prop)
    (Inv : List IndexedTarget → Index → Prop) : Prop where
  member : ∀ path raw members name member segment, At path raw →
    raw.members borrowing = some members → members.lookup name = some member →
    (segment = .choiceValue ∧ name = "choiceValue" ∨
      segment = .elementCount ∧ name = "elementCount" ∨
      segment = .elementType ∧ name = "elementType") → At (path ++ [segment]) member
  item : ∀ path raw members name member items i item segment, At path raw →
    raw.members borrowing = some members → members.lookup name = some member →
    member.items borrowing = some items → items[i]? = some item →
    (segment = .member name i ∧ name ∈ childMembers ∨
      segment = .quality i ∧ name = "quality") → At (path ++ [segment]) item
  declare : ∀ value raw path kind index index' pending, At path raw → Inv pending index →
    index.components.length < maxComponents →
    declare input value raw path kind index = .ok index' →
    Inv (pending ++ [.component index.components.length]) index'
  reference : ∀ owner value raw path kind index target index' pending, At path raw →
    Inv pending index → owner < index.components.length →
    reference input owner value raw path kind index = .ok (target, index') →
    Inv (pending ++ [target]) index'
  pushEdge : ∀ node edge index pending, Inv (pending ++ [edge.target]) index →
    Fits index node edge → Inv pending (index.pushEdge node edge)

/-- The function that indexes a component inside another one. -/
def Visits (At : Pointer → RawValue → Prop) (Inv : List IndexedTarget → Index → Prop)
    (visit : Visit) : Prop :=
  ∀ value raw path kind index node index' pending, At path raw → Inv pending index →
    visit value raw path kind index = .ok (node, index') →
    node = index.components.length ∧ node < index'.components.length ∧
      Inv (pending ++ [.component node]) index'

/-- A target has been visited for an owner. -/
structure Entered (Inv : List IndexedTarget → Index → Prop) (pending : List IndexedTarget)
    (owner : Nat) (kind : ReferenceKind) (index : Index) (target : IndexedTarget)
    (index' : Index) : Prop where
  holds : Inv (pending ++ [target]) index'
  grows : index.components.length ≤ index'.components.length
  component : ∀ child, target = .component child →
    index.components.length ≤ child ∧ child < index'.components.length
  reference : ∀ i, target = .reference i → ∃ reference, index'.references[i]? = some reference ∧
    reference.owner = owner ∧ reference.kind = kind

/-- A slot has been visited. -/
structure Advanced (Inv : List IndexedTarget → Index → Prop) (pending : List IndexedTarget)
    (index index' : Index) : Prop where
  holds : Inv pending index'
  grows : index.components.length ≤ index'.components.length

theorem length_pushEdge (node : Nat) (edge : IndexedEdge) (index : Index) :
    (index.pushEdge node edge).components.length = index.components.length :=
  List.length_modify ..

/-- What a declaration adds. -/
theorem declare_eq_ok (hok : declare input value raw path kind index = .ok index') :
    ∃ id range, optionalString value "id" = .ok id ∧ sourceRange input raw = .ok range ∧
      id.any (fun id => (index.ids.lookup id).isSome) = false ∧
      index' = { index with
        ids := index.ids ++ id.toList.map (fun id => (id, index.components.length))
        components := index.components ++
          [{ id := id, name := nameOf value, kind := kind, path := path, source := range,
             hasValue := (value.get? "value").isSome ||
               (kind.isArray && (value.get? "values").isSome)
             edges := [] }] } := by
  obtain ⟨id, hid, hok⟩ := bind_eq_ok.mp hok
  split at hok
  · cases hok
  next hnew =>
    obtain ⟨range, hrange, hok⟩ := bind_eq_ok.mp hok
    exact ⟨id, range, hid, hrange, Bool.eq_false_iff.mpr hnew, (Except.ok.inj hok).symm⟩

/-- What a reference adds. -/
theorem reference_eq_ok {owner : Nat}
    (hok : reference input owner value raw path referenceKind index = .ok (target, index')) :
    index.references.length < maxReferences ∧ target = .reference index.references.length ∧
      ∃ entered : IndexedReference, entered.owner = owner ∧ entered.kind = referenceKind ∧
        entered.path = path ∧ sourceRange input raw = .ok entered.source ∧
        index' = { index with references := index.references ++ [entered] } := by
  rw [Index.reference] at hok
  split at hok
  · cases hok
  next hfew =>
    split at hok
    · cases hok
    · obtain ⟨href, -, hok⟩ := bind_eq_ok.mp hok
      cases href with
      | none => cases hok
      | some href =>
          simp only at hok
          split at hok
          · cases hok
          · obtain ⟨range, hrange, hok⟩ := bind_eq_ok.mp hok
            obtain ⟨role, -, hok⟩ := bind_eq_ok.mp hok
            obtain ⟨arcrole, -, hok⟩ := bind_eq_ok.mp hok
            obtain ⟨title, -, hok⟩ := bind_eq_ok.mp hok
            obtain ⟨rfl, rfl⟩ := Prod.mk.inj (Except.ok.inj hok)
            exact ⟨Nat.lt_of_not_le hfew, rfl, _, rfl, rfl, rfl, hrange, rfl⟩

theorem entered_inline {owner : Nat} (hvisit : Visits At Inv visit) (hat : At path raw)
    (h : Inv pending index)
    (hok : inline visit value raw path kind index = .ok (target, index')) :
    Entered Inv pending owner referenceKind index target index' := by
  obtain ⟨⟨child, index''⟩, hvisited, hok⟩ := bind_eq_ok.mp hok
  obtain ⟨rfl, rfl⟩ := Prod.mk.inj (Except.ok.inj hok)
  obtain ⟨rfl, hlt, hinv⟩ := hvisit value raw path kind index child index'' pending hat h hvisited
  refine ⟨hinv, Nat.le_of_lt hlt, fun child heq => ?_, fun i heq => ?_⟩
  · obtain rfl := IndexedTarget.component.inj heq
    exact ⟨Nat.le_refl _, hlt⟩
  · cases heq

variable (hrule : Rule readers.borrowing input At Inv)
include hrule

/-- An edge is entered for what has been visited. -/
theorem Entered.push (h : Entered Inv pending node referenceKind index target index')
    (hnode : node < index.components.length)
    (hslot : slot = .quality → referenceKind = .quality) :
    Advanced Inv pending index (index'.pushEdge node ⟨target, slot⟩) := by
  refine ⟨hrule.pushEdge node ⟨target, slot⟩ index' pending h.holds
    ⟨Nat.lt_of_lt_of_le hnode h.grows, fun child heq => ?_, fun i heq => ?_⟩, ?_⟩
  · obtain ⟨hle, hlt⟩ := h.component child heq
    exact ⟨Nat.lt_of_lt_of_le hnode hle, hlt⟩
  · obtain ⟨reference, hget, howner, hkind⟩ := h.reference i heq
    exact ⟨reference, hget, howner, fun hquality => hkind.trans (hslot hquality)⟩
  · rw [length_pushEdge]
    exact h.grows

theorem entered_reference {owner : Nat} (hat : At path raw) (h : Inv pending index)
    (howner : owner < index.components.length)
    (hok : reference input owner value raw path referenceKind index = .ok (target, index')) :
    Entered Inv pending owner referenceKind index target index' := by
  have hinv := hrule.reference owner value raw path referenceKind index target index' pending hat h
    howner hok
  obtain ⟨-, rfl, reference, howner, hkind, -, -, rfl⟩ := reference_eq_ok hok
  refine ⟨hinv, Nat.le_refl _, fun child heq => ?_, fun i heq => ?_⟩
  · cases heq
  · obtain rfl := IndexedTarget.reference.inj heq
    exact ⟨reference, List.getElem?_concat_length, howner, hkind⟩

theorem entered_child {owner : Nat} (hvisit : Visits At Inv visit) (hat : At path raw)
    (h : Inv pending index) (howner : owner < index.components.length)
    (hok : child readers input options visit owner value raw path index = .ok (target, index')) :
    Entered Inv pending owner .component index target index' := by
  rw [child] at hok
  split at hok
  · split at hok
    · exact entered_inline hvisit hat h hok
    · exact entered_reference hrule hat h howner hok
  · split at hok
    · exact entered_reference hrule hat h howner hok
    · cases hok

omit hrule in
theorem withRaw_eq_some {name : String} {member : Json × RawValue}
    (h : withRaw value members name = .ok (some member)) :
    members.lookup name = some member.2 := by
  rw [withRaw] at h
  split at h
  · cases Except.ok.inj h
  · cases h
  next heq =>
    obtain rfl := Option.some.inj (Except.ok.inj h)
    exact heq

theorem advanced_choiceSlot (hvisit : Visits At Inv visit) (hat : At path raw)
    (hmembers : raw.members readers.borrowing = some members) (h : Inv pending index)
    (hnode : node < index.components.length)
    (hok : choiceSlot visit kind node value members path index = .ok index') :
    Advanced Inv pending index index' := by
  rw [choiceSlot] at hok
  split at hok
  · obtain ⟨member, hmember, hok⟩ := bind_eq_ok.mp hok
    cases member with
    | none =>
        obtain rfl := Except.ok.inj hok
        exact ⟨h, Nat.le_refl _⟩
    | some member =>
        obtain ⟨⟨target, index''⟩, hinline, hok⟩ := bind_eq_ok.mp hok
        obtain rfl := Except.ok.inj hok
        have hat' := hrule.member path raw members _ _ .choiceValue hat hmembers
          (withRaw_eq_some hmember) (.inl ⟨rfl, rfl⟩)
        have hentered : Entered Inv pending node .component index target index'' :=
          entered_inline hvisit hat' h hinline
        exact Entered.push hrule hentered hnode (by intro heq; cases heq)
  · obtain rfl := Except.ok.inj hok
    exact ⟨h, Nat.le_refl _⟩

theorem advanced_countSlot (hvisit : Visits At Inv visit) (hat : At path raw)
    (hmembers : raw.members readers.borrowing = some members) (h : Inv pending index)
    (hnode : node < index.components.length)
    (hok : countSlot input visit node value members path index = .ok index') :
    Advanced Inv pending index index' := by
  obtain ⟨member, hmember, hok⟩ := bind_eq_ok.mp hok
  cases member with
  | none =>
      obtain rfl := Except.ok.inj hok
      exact ⟨h, Nat.le_refl _⟩
  | some member =>
      obtain ⟨⟨target, index''⟩, htarget, hok⟩ := bind_eq_ok.mp hok
      obtain rfl := Except.ok.inj hok
      have hat' := hrule.member path raw members _ _ .elementCount hat hmembers
        (withRaw_eq_some hmember) (.inr (.inl ⟨rfl, rfl⟩))
      have hentered : Entered Inv pending node .elementCount index target index'' := by
        rw [countTarget] at htarget
        split at htarget
        · exact entered_reference hrule hat' h hnode htarget
        · split at htarget
          · cases htarget
          · exact entered_inline hvisit hat' h htarget
      exact Entered.push hrule hentered hnode (by intro heq; cases heq)

theorem advanced_elementSlot (hvisit : Visits At Inv visit) (hat : At path raw)
    (hmembers : raw.members readers.borrowing = some members) (h : Inv pending index)
    (hnode : node < index.components.length)
    (hok : elementSlot readers input options visit node value members path index = .ok index') :
    Advanced Inv pending index index' := by
  obtain ⟨member, hmember, hok⟩ := bind_eq_ok.mp hok
  cases member with
  | none => cases hok
  | some member =>
      obtain ⟨⟨target, index''⟩, htarget, hok⟩ := bind_eq_ok.mp hok
      obtain rfl := Except.ok.inj hok
      have hat' := hrule.member path raw members _ _ .elementType hat hmembers
        (withRaw_eq_some hmember) (.inr (.inr ⟨rfl, rfl⟩))
      exact Entered.push hrule (entered_child hrule hvisit hat' h hnode htarget) hnode
        (by intro heq; cases heq)

omit hrule in
theorem Advanced.trans {index'' : Index} (h : Advanced Inv pending index index')
    (h' : Advanced Inv pending index' index'') : Advanced Inv pending index index'' :=
  ⟨h'.holds, h.grows.trans h'.grows⟩

theorem advanced_arraySlots (hvisit : Visits At Inv visit) (hat : At path raw)
    (hmembers : raw.members readers.borrowing = some members) (h : Inv pending index)
    (hnode : node < index.components.length)
    (hok : arraySlots readers input options visit kind node value members path index = .ok index') :
    Advanced Inv pending index index' := by
  rw [arraySlots] at hok
  split at hok
  · obtain ⟨index'', hcount, hok⟩ := bind_eq_ok.mp hok
    have hadvanced := advanced_countSlot hrule hvisit hat hmembers h hnode hcount
    exact hadvanced.trans (advanced_elementSlot hrule hvisit hat hmembers hadvanced.holds
      (Nat.lt_of_lt_of_le hnode hadvanced.grows) hok)
  · obtain rfl := Except.ok.inj hok
    exact ⟨h, Nat.le_refl _⟩

theorem entered_memberTarget (hvisit : Visits At Inv visit) (hat : At path raw)
    (h : Inv pending index) (hnode : node < index.components.length)
    (hok : memberTarget readers input options visit kind node value raw path index =
      .ok (target, index')) : Entered Inv pending node .component index target index' := by
  rw [memberTarget] at hok
  split at hok
  · obtain ⟨kind', -, hok⟩ := bind_eq_ok.mp hok
    exact entered_inline hvisit hat h hok
  · exact entered_child hrule hvisit hat h hnode hok

/-- The loop starts at the item it has come to. -/
theorem advanced_memberSlots (hvisit : Visits At Inv visit) {member : String} {offset : Nat}
    {items : List (Json × RawValue)}
    (hitems : ∀ (i : Nat) item, items[i]? = some item →
      At (path ++ [.member member (offset + i)]) item.2)
    (h : Inv pending index) (hnode : node < index.components.length)
    (hok : memberSlots readers input options visit kind node path member offset items index =
      .ok index') : Advanced Inv pending index index' := by
  induction items generalizing offset index with
  | nil =>
      obtain rfl := Except.ok.inj hok
      exact ⟨h, Nat.le_refl _⟩
  | cons item items ih =>
      obtain ⟨value, raw⟩ := item
      obtain ⟨⟨target, index''⟩, htarget, hok⟩ := bind_eq_ok.mp hok
      have hrest : ∀ (i : Nat) item, items[i]? = some item →
          At (path ++ [.member member (offset + 1 + i)]) item.2 := by
        intro i item hitem
        rw [Nat.add_assoc, Nat.add_comm 1]
        exact hitems (i + 1) item hitem
      have hentered := entered_memberTarget hrule hvisit (hitems 0 _ rfl) h hnode htarget
      have hadvanced : Advanced Inv pending index (index''.pushEdge node ⟨target, .component⟩) :=
        Entered.push hrule hentered hnode (by intro heq; cases heq)
      exact hadvanced.trans (ih hrest hadvanced.holds (Nat.lt_of_lt_of_le hnode hadvanced.grows) hok)

theorem advanced_membersSlot (hvisit : Visits At Inv visit) (hat : At path raw)
    (hmembers : raw.members readers.borrowing = some members) (h : Inv pending index)
    (hnode : node < index.components.length)
    (hok : membersSlot readers input options visit kind node value members path index =
      .ok index') : Advanced Inv pending index index' := by
  rw [membersSlot] at hok
  split at hok
  · obtain rfl := Except.ok.inj hok
    exact ⟨h, Nat.le_refl _⟩
  next member hchild =>
    split at hok
    next children raws hchildren hraws =>
      obtain ⟨inner, hinner, hraws⟩ := Option.bind_eq_some_iff.mp hraws
      refine advanced_memberSlots hrule hvisit (fun i item hitem => ?_) h hnode hok
      rw [Nat.zero_add]
      exact hrule.item path raw members member inner raws i item.2 _ hat hmembers hinner hraws
        (List.getElem?_zip_eq_some.mp hitem).2 (.inl ⟨rfl, childMember_known hchild⟩)
    · cases hok

theorem entered_qualityTarget (hvisit : Visits At Inv visit) (hat : At path raw)
    (h : Inv pending index) (hnode : node < index.components.length)
    (hok : qualityTarget input visit node value raw path index = .ok (target, index')) :
    Entered Inv pending node .quality index target index' := by
  rw [qualityTarget] at hok
  split at hok
  · exact entered_reference hrule hat h hnode hok
  · obtain ⟨kind', -, hok⟩ := bind_eq_ok.mp hok
    exact entered_inline hvisit hat h hok

theorem advanced_qualitySlots (hvisit : Visits At Inv visit) {offset : Nat} {items : List RawValue}
    (hitems : ∀ (i : Nat) item, items[i]? = some item → At (path ++ [.quality (offset + i)]) item)
    (h : Inv pending index) (hnode : node < index.components.length)
    (hok : qualitySlots readers input visit node path offset items index = .ok index') :
    Advanced Inv pending index index' := by
  induction items generalizing offset index with
  | nil =>
      obtain rfl := Except.ok.inj hok
      exact ⟨h, Nat.le_refl _⟩
  | cons raw items ih =>
      rw [qualitySlots] at hok
      split at hok
      · cases hok
      · obtain ⟨⟨target, index''⟩, htarget, hok⟩ := bind_eq_ok.mp hok
        have hrest : ∀ (i : Nat) item, items[i]? = some item →
            At (path ++ [.quality (offset + 1 + i)]) item := by
          intro i item hitem
          rw [Nat.add_assoc, Nat.add_comm 1]
          exact hitems (i + 1) item hitem
        have hentered := entered_qualityTarget hrule hvisit (hitems 0 _ rfl) h hnode htarget
        have hadvanced : Advanced Inv pending index (index''.pushEdge node ⟨target, .quality⟩) :=
          Entered.push hrule hentered hnode fun _ => rfl
        exact hadvanced.trans
          (ih hrest hadvanced.holds (Nat.lt_of_lt_of_le hnode hadvanced.grows) hok)

theorem advanced_qualitySlot (hvisit : Visits At Inv visit) (hat : At path raw)
    (hmembers : raw.members readers.borrowing = some members) (h : Inv pending index)
    (hnode : node < index.components.length)
    (hok : qualitySlot readers input visit kind node members path index = .ok index') :
    Advanced Inv pending index index' := by
  rw [qualitySlot] at hok
  split at hok
  · obtain rfl := Except.ok.inj hok
    exact ⟨h, Nat.le_refl _⟩
  next quality hquality =>
    split at hok
    · cases hok
    · split at hok
      · cases hok
      · cases hok
      next entries hcompile hentries =>
        refine advanced_qualitySlots hrule hvisit (fun i item hitem => ?_) h hnode hok
        rw [Nat.zero_add]
        exact hrule.item path raw members "quality" quality entries i item _ hat hmembers
          hquality hentries hitem (.inr ⟨rfl, rfl⟩)

/-- **The rule of indexing.** -/
theorem visits_component (room : Nat) : Visits At Inv (component readers input options room) := by
  induction room with
  | zero =>
      intro value raw path kind index node index' pending hat h hok
      cases hok
  | succ room ih =>
      intro value raw path kind index node index' pending hat h hok
      rw [component] at hok
      split at hok
      · cases hok
      next hfew =>
        obtain ⟨declared, hdeclare, hok⟩ := bind_eq_ok.mp hok
        have hdeclared := hrule.declare value raw path kind index declared pending hat h
          (Nat.lt_of_not_le hfew) hdeclare
        have hnode : index.components.length < declared.components.length := by
          obtain ⟨id, range, -, -, -, rfl⟩ := declare_eq_ok hdeclare
          rw [List.length_append]
          exact Nat.lt_succ_self _
        split at hok
        · cases hok
        next members hmembers =>
          obtain ⟨index₁, hchoice, hok⟩ := bind_eq_ok.mp hok
          obtain ⟨index₂, harray, hok⟩ := bind_eq_ok.mp hok
          obtain ⟨index₃, hchildren, hok⟩ := bind_eq_ok.mp hok
          obtain ⟨index₄, hquality, hok⟩ := bind_eq_ok.mp hok
          obtain ⟨rfl, rfl⟩ := Prod.mk.inj (Except.ok.inj hok)
          have h₁ := advanced_choiceSlot hrule ih hat hmembers hdeclared hnode hchoice
          have h₂ := h₁.trans (advanced_arraySlots hrule ih hat hmembers h₁.holds
            (Nat.lt_of_lt_of_le hnode h₁.grows) harray)
          have h₃ := h₂.trans (advanced_membersSlot hrule ih hat hmembers h₂.holds
            (Nat.lt_of_lt_of_le hnode h₂.grows) hchildren)
          have h₄ := h₃.trans (advanced_qualitySlot hrule ih hat hmembers h₃.holds
            (Nat.lt_of_lt_of_le hnode h₃.grows) hquality)
          exact ⟨rfl, Nat.lt_of_lt_of_le hnode h₄.grows, h₄.holds⟩

end Rule

end Index

end Standards
end Glaux
