import Glaux.Standards.Choice

/-!
# The budget of a value (`choice/value.rs`)

The budget pass is a loop over a stack that stops at the first limit.  What it decides does
not depend on the order of its visits: every value of the tree is within its own limits, and
the numbers of values and of bytes are within theirs.
-/

namespace Glaux
namespace Standards
namespace ComponentValue

/-- The values directly inside a value. -/
def children : ComponentValue → List ComponentValue
  | .array values => values
  | .record members | .vector members | .choice members => members.map (·.2)
  | .scalarJson _ | .rangeJson _ | .geometryJson _ => []

/-- The bytes a value counts itself. -/
def ownBytes : ComponentValue → Nat
  | .scalarJson raw | .rangeJson raw | .geometryJson raw => raw.length
  | .record members | .vector members | .choice members =>
      (members.map (fun member => member.1.utf8ByteSize)).sum
  | .array _ => 0

def namesFit (members : List (String × ComponentValue)) : Bool :=
  members.length ≤ maxMembers && members.all (fun member => member.1.utf8ByteSize ≤ maxStringBytes)

/-- The limits on a value itself. -/
def fits : ComponentValue → Bool
  | .array values => values.length ≤ maxMembers
  | .record members | .vector members | .choice members => namesFit members
  | .scalarJson _ | .rangeJson _ | .geometryJson _ => true

/-- What one visit looks at. -/
structure Load where
  depth : Nat
  fits : Bool
  bytes : Nat

theorem sizeOf_child {value child : ComponentValue} (h : child ∈ value.children) :
    sizeOf child < sizeOf value := by
  cases value with
  | scalarJson | rangeJson | geometryJson => cases h
  | array values =>
      have hlt : sizeOf child < sizeOf values := List.sizeOf_lt_of_mem h
      simp only [array.sizeOf_spec]
      omega
  | record members | vector members | choice members =>
      obtain ⟨⟨name, value⟩, hmem, rfl⟩ := List.mem_map.mp h
      have hlt := List.sizeOf_lt_of_mem hmem
      simp only [Prod.mk.sizeOf_spec, record.sizeOf_spec, vector.sizeOf_spec,
        choice.sizeOf_spec] at hlt ⊢
      omega

/-- The loads of all values of a tree. -/
def loads (value : ComponentValue) (depth : Nat) : List Load :=
  ⟨depth, value.fits, value.ownBytes⟩ ::
    value.children.attach.flatMap (fun child => loads child.1 (depth + 1))
termination_by sizeOf value
decreasing_by exact sizeOf_child child.2

theorem loads_eq (value : ComponentValue) (depth : Nat) :
    value.loads depth = ⟨depth, value.fits, value.ownBytes⟩ ::
      value.children.flatMap (fun child => child.loads (depth + 1)) := by
  rw [loads]
  rw [List.flatMap_subtype (g := fun child => loads child (depth + 1)) (fun _ _ => rfl),
    List.unattach_attach]

/-- All limits are kept by the visits to come. -/
structure Within (nodes bytes : Nat) (visits : List Load) : Prop where
  nodes : visits.length ≤ nodes
  each : ∀ load ∈ visits, load.depth ≤ maxDepth ∧ load.fits = true
  bytes : bytes + (visits.map (·.bytes)).sum ≤ maxBytes

theorem Within.perm {nodes bytes : Nat} {visits visits' : List Load} (h : Within nodes bytes visits)
    (hperm : visits.Perm visits') : Within nodes bytes visits' where
  nodes := hperm.length_eq ▸ h.nodes
  each := fun load hload => h.each load (hperm.mem_iff.mpr hload)
  bytes := (hperm.map _).sum_nat ▸ h.bytes

theorem within_cons {nodes bytes : Nat} {load : Load} {visits : List Load} :
    Within (nodes + 1) bytes (load :: visits) ↔
      load.depth ≤ maxDepth ∧ load.fits = true ∧ Within nodes (bytes + load.bytes) visits := by
  constructor
  · intro h
    obtain ⟨hdepth, hfits⟩ := h.each load List.mem_cons_self
    have hnodes := h.nodes
    have hbytes := h.bytes
    rw [List.length_cons] at hnodes
    rw [List.map_cons, List.sum_cons] at hbytes
    exact ⟨hdepth, hfits, ⟨by omega, fun l hl => h.each l (List.mem_cons_of_mem _ hl), by omega⟩⟩
  · rintro ⟨hdepth, hfits, h⟩
    have hnodes := h.nodes
    have hbytes := h.bytes
    refine ⟨?_, ?_, ?_⟩
    · rw [List.length_cons]
      omega
    · intro l hl
      obtain rfl | hl := List.mem_cons.mp hl
      · exact ⟨hdepth, hfits⟩
      · exact h.each l hl
    · rw [List.map_cons, List.sum_cons]
      omega

/-! ### The loop -/

theorem countNames_eq (members : List (String × ComponentValue)) (bytes : Nat) :
    countNames members bytes =
      if members.all (fun member => member.1.utf8ByteSize ≤ maxStringBytes) then
        some (bytes + (members.map (fun member => member.1.utf8ByteSize)).sum)
      else none := by
  induction members generalizing bytes with
  | nil => simp [countNames]
  | cons member rest ih =>
      obtain ⟨name, value⟩ := member
      rw [countNames, List.all_cons, List.map_cons, List.sum_cons]
      by_cases hlong : maxStringBytes < name.utf8ByteSize
      · rw [if_pos hlong]
        simp [Nat.not_le.mpr hlong]
      · have hshort : name.utf8ByteSize ≤ maxStringBytes := Nat.not_lt.mp hlong
        rw [if_neg hlong, ih]
        simp only [hshort, decide_true, Bool.true_and, Nat.add_assoc]

/-- One visit. -/
theorem budgetStep_eq (value : ComponentValue) (bytes : Nat) :
    budgetStep value bytes =
      if value.fits = true ∧ bytes + value.ownBytes ≤ maxBytes then
        some (bytes + value.ownBytes, value.children)
      else none := by
  cases value with
  | scalarJson raw | rangeJson raw | geometryJson raw =>
      by_cases hbytes : bytes + raw.length ≤ maxBytes <;>
        simp [budgetStep, fits, ownBytes, children, Option.filter, hbytes]
  | array values =>
      by_cases hmany : maxMembers < values.length
      · simp [budgetStep, fits, hmany, Nat.not_le.mpr hmany]
      · by_cases hbytes : bytes ≤ maxBytes <;>
          simp [budgetStep, fits, ownBytes, children, Option.filter, hmany, hbytes,
            Nat.not_lt.mp hmany]
  | record members | vector members | choice members =>
      by_cases hmany : maxMembers < members.length
      · simp [budgetStep, fits, namesFit, hmany, Nat.not_le.mpr hmany]
      · have hfew : members.length ≤ maxMembers := Nat.not_lt.mp hmany
        simp only [budgetStep, if_neg hmany, countNames_eq, fits, namesFit, hfew, decide_true,
          Bool.true_and, ownBytes, children]
        cases members.all (fun member => decide (member.1.utf8ByteSize ≤ maxStringBytes)) with
        | false => simp
        | true =>
            by_cases hbytes :
                bytes + (members.map (fun member => member.1.utf8ByteSize)).sum ≤ maxBytes <;>
              simp [Option.filter, hbytes]

/-- The visits a stack stands for. -/
def visits (pending : List (ComponentValue × Nat)) : List Load :=
  pending.flatMap (fun entry => entry.1.loads entry.2)

/-- What is pushed stands for the visits below a value. -/
theorem visits_pushed (children : List ComponentValue) (depth : Nat)
    (pending : List (ComponentValue × Nat)) :
    (visits ((children.map (fun child => (child, depth))).reverse ++ pending)).Perm
      (children.flatMap (fun child => child.loads depth) ++ visits pending) := by
  unfold visits
  rw [List.flatMap_append]
  refine List.Perm.append_right _ ?_
  have hmap : children.flatMap (fun child => child.loads depth) =
      (children.map (fun child => (child, depth))).flatMap (fun entry => entry.1.loads entry.2) := by
    rw [List.flatMap_map]
  rw [hmap]
  exact (List.reverse_perm _).flatMap_right _

theorem budgetLoop_eq_some {nodes : Nat} {pending : List (ComponentValue × Nat)} {bytes : Nat}
    (hbytes : bytes ≤ maxBytes) :
    budgetLoop nodes pending bytes = some () ↔ Within nodes bytes (visits pending) := by
  induction nodes generalizing pending bytes with
  | zero =>
      cases pending with
      | nil => exact ⟨fun _ => ⟨Nat.le_refl _, nofun, by simpa [visits] using hbytes⟩, fun _ => rfl⟩
      | cons entry pending =>
          refine ⟨nofun, fun h => ?_⟩
          have hnodes := h.nodes
          rw [visits, List.flatMap_cons, loads_eq, List.cons_append, List.length_cons] at hnodes
          omega
  | succ nodes ih =>
      cases pending with
      | nil =>
          exact ⟨fun _ => ⟨Nat.zero_le _, nofun, by simpa [visits] using hbytes⟩, fun _ => rfl⟩
      | cons entry pending =>
          obtain ⟨value, depth⟩ := entry
          have hvisits : visits ((value, depth) :: pending) =
              ⟨depth, value.fits, value.ownBytes⟩ ::
                (value.children.flatMap (fun child => child.loads (depth + 1)) ++
                  visits pending) := by
            rw [visits, List.flatMap_cons, loads_eq, List.cons_append]
            rfl
          rw [hvisits, within_cons, budgetLoop, budgetStep_eq]
          have hpushed := visits_pushed value.children (depth + 1) pending
          by_cases hdepth : maxDepth < depth
          · rw [if_pos hdepth]
            exact ⟨nofun, fun h => absurd h.1 (Nat.not_le.mpr hdepth)⟩
          · rw [if_neg hdepth]
            by_cases hstep : value.fits = true ∧ bytes + value.ownBytes ≤ maxBytes
            · rw [if_pos hstep]
              dsimp only
              rw [ih hstep.2]
              constructor
              · intro h
                exact ⟨Nat.not_lt.mp hdepth, hstep.1, h.perm hpushed⟩
              · rintro ⟨-, -, h⟩
                exact h.perm hpushed.symm
            · rw [if_neg hstep]
              refine ⟨nofun, fun h => absurd ⟨h.2.1, ?_⟩ hstep⟩
              have hbytes := h.2.2.bytes
              dsimp only at hbytes
              omega

/-- **Budget.**  The pass succeeds when all limits are kept, in whatever order. -/
theorem budget_eq_some {input : ComponentValue} :
    input.budget = some () ↔ Within maxNodes 0 (input.loads 1) := by
  rw [budget, budgetLoop_eq_some (Nat.zero_le _)]
  simp [visits]

/-! ### Depth -/

/-- No value is nested more than `room` deep. -/
def FitsDepth : Nat → ComponentValue → Prop
  | 0, _ => False
  | room + 1, value => ∀ child ∈ value.children, FitsDepth room child

theorem fitsDepth_of_loads {value : ComponentValue} {depth room : Nat}
    (h : ∀ load ∈ value.loads depth, load.depth ≤ maxDepth) (hroom : maxDepth < depth + room) :
    FitsDepth room value := by
  induction room generalizing value depth with
  | zero =>
      rw [loads_eq] at h
      have hdepth := h _ List.mem_cons_self
      exact absurd hdepth (by simpa using hroom)
  | succ room ih =>
      intro child hchild
      refine @ih child (depth + 1) (fun load hload => h load ?_) (by omega)
      rw [loads_eq]
      exact List.mem_cons_of_mem _ (List.mem_flatMap.mpr ⟨child, hchild, hload⟩)

theorem fitsDepth_of_budget {input : ComponentValue} (h : input.budget = some ()) :
    FitsDepth maxDepth input := by
  have hwithin := budget_eq_some.mp h
  exact fitsDepth_of_loads (fun load hload => (hwithin.each load hload).1) (Nat.lt_add_left_iff_pos.mpr Nat.one_pos)

end ComponentValue
end Standards
end Glaux
