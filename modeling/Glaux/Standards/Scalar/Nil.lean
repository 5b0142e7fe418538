import Glaux.Library.Relational
import Glaux.Standards.Scalar.Contract

/-!
# The law of sentinels (`scalar/nil.rs`)

Declared sentinels change the outcome of a check only for the values that are one of them.
What carries this is that every reading of a value is also its reading among the reserved
values, so that the wider first reading never takes a value away.
-/

namespace Glaux
namespace Standards
namespace Scalar

open Library Domain

/-! ### What a sentinel is equal to -/

/-- The same value, whatever its spelling. -/
inductive Value.Same : Value → Value → Prop
  | boolean (b : Bool) : Same (.boolean b) (.boolean b)
  | text (text : String) : Same (.text text) (.text text)
  | category (text : String) : Same (.category text) (.category text)
  | count {a b : CountValue} (h : a.number.value = b.number.value) :
      Same (.measured (.count a)) (.measured (.count b))
  | quantity {a b : NumericValue} (h : a.Same b) :
      Same (.measured (.quantity a)) (.measured (.quantity b))
  | time {p q : TimePosition} (h : p.Same q) (reference : TimeReference) :
      Same (.measured (.time p reference)) (.measured (.time q reference))

/-- The values of a component's own kind. -/
inductive Value.Of : Component → Value → Prop
  | boolean (b : Bool) : Of .boolean (.boolean b)
  | text (constraint : Option TokenConstraint) (text : String) : Of (.text constraint) (.text text)
  | category (codeSpace : Option String) (constraint : Option TokenConstraint) (text : String) :
      Of (.category codeSpace constraint) (.category text)
  | count (limits : Option (Constraint NumericValue)) (n : CountValue) :
      Of (.measured (.count limits)) (.measured (.count n))
  | quantity (limits : Option (Constraint NumericValue)) (uom : UnitReference)
      (n : NumericValue) : Of (.measured (.quantity limits uom)) (.measured (.quantity n))
  | time (component : TimeComponent) (p : TimePosition) :
      Of (.measured (.time component)) (.measured (.time p component.reference))

/-- The values a component can be given, enforced or not. -/
def Contract.Reads (contract : Contract) (v : Value) : Prop :=
  ∃ value raw context checked,
    contract.checkParsedValue value raw context false = .ok checked ∧ checked.value = v

section Sameness

theorem position_same_refl (p : TimePosition) : p.Same p := by
  cases p with
  | numeric v => exact .numeric rfl
  | calendar t =>
      cases t with
      | utc i => exact .instant rfl
      | unresolved text => exact .text text

theorem position_same_symm {p q : TimePosition} (h : p.Same q) : q.Same p := by
  cases h with
  | numeric h => exact .numeric h.symm
  | instant h => exact .instant h.symm
  | text text => exact .text text

theorem position_same_trans {p q r : TimePosition} (h : p.Same q) (h' : q.Same r) : p.Same r := by
  cases h with
  | numeric h =>
      cases h' with
      | numeric h' => exact .numeric (h.trans h')
  | instant h =>
      cases h' with
      | instant h' => exact .instant (h.trans h')
  | text text => exact h'

theorem same_equivalence : Equivalence Value.Same where
  refl v := by
    cases v with
    | boolean b => exact .boolean b
    | text text => exact .text text
    | category text => exact .category text
    | measured v =>
        cases v with
        | count n => exact .count rfl
        | quantity n => exact .quantity rfl
        | time p reference => exact .time (position_same_refl p) reference
  symm h := by
    cases h with
    | boolean b => exact .boolean b
    | text text => exact .text text
    | category text => exact .category text
    | count h => exact .count h.symm
    | quantity h => exact .quantity h.symm
    | time h reference => exact .time (position_same_symm h) reference
  trans h h' := by
    cases h with
    | boolean | text | category => exact h'
    | count h =>
        cases h' with
        | count h' => exact .count (h.trans h')
    | quantity h =>
        cases h' with
        | quantity h' => exact .quantity (h.trans h')
    | time h reference =>
        cases h' with
        | time h' => exact .time (position_same_trans h h') reference

theorem calendar_eq_refl (time : CalendarTime) : time.eq time = true := by
  cases time with
  | utc i => simp [CalendarTime.eq, ExactInstant.cmp_eq]
  | unresolved text => simp [CalendarTime.eq]

theorem reference_eq_refl (reference : TimeReference) : reference.eq reference = true := by
  cases horigin : reference.origin with
  | none => simp [TimeReference.eq, horigin]
  | some origin => simp [TimeReference.eq, horigin, calendar_eq_refl]

/-- Derived equality of positions leaves `NaN` out. -/
theorem position_eq_iff {p q : TimePosition} :
    p.eq q = true ↔ p ≠ .numeric .nan ∧ p.Same q := by
  cases p with
  | numeric v =>
      cases q with
      | numeric w =>
          rw [TimePosition.eq, NumericValue.eq_iff]
          constructor
          · rintro ⟨hnan, hsame⟩
            exact ⟨fun h => hnan (TimePosition.numeric.inj h), .numeric hsame⟩
          · rintro ⟨hnan, ⟨hsame⟩⟩
            exact ⟨fun h => hnan (congrArg _ h), hsame⟩
      | calendar t => exact ⟨nofun, nofun⟩
  | calendar s =>
      cases q with
      | numeric w => exact ⟨nofun, nofun⟩
      | calendar t =>
          cases s with
          | utc i =>
              cases t with
              | utc j =>
                  rw [TimePosition.eq, CalendarTime.eq, ExactInstant.cmp_eq, decide_eq_true_eq,
                    compare_eq_iff_eq]
                  exact ⟨fun h => ⟨nofun, .instant h⟩, fun ⟨_, .instant h⟩ => h⟩
              | unresolved t => exact ⟨nofun, nofun⟩
          | unresolved s =>
              cases t with
              | utc j => exact ⟨nofun, nofun⟩
              | unresolved t =>
                  rw [TimePosition.eq, CalendarTime.eq, decide_eq_true_eq]
                  constructor
                  · rintro rfl
                    exact ⟨nofun, .text s⟩
                  · rintro ⟨-, ⟨⟩⟩
                    rfl

theorem quantity_sameValue {a b : NumericValue} :
    Standards.sameValue (.quantity a) (.quantity b) = true ↔ a.Same b := by
  by_cases hnan : a = .nan
  · subst hnan
    cases b <;> simp [Standards.sameValue, ScalarValue.eq, NumericValue.eq, NumericValue.partialCmp,
      NumericValue.Same, NumericValue.place]
  · have hplain : Standards.sameValue (.quantity a) (.quantity b) = a.eq b := by
      cases a <;> first | rfl | exact absurd rfl hnan
    rw [hplain, NumericValue.eq_iff]
    exact and_iff_right hnan

theorem time_sameValue {p q : TimePosition} {reference : TimeReference} :
    Standards.sameValue (.time p reference) (.time q reference) = true ↔ p.Same q := by
  have hreference := reference_eq_refl reference
  by_cases hnan : p = .numeric .nan
  · subst hnan
    by_cases hnan' : q = .numeric .nan
    · subst hnan'
      exact ⟨fun _ => .numeric rfl, fun _ => hreference⟩
    · have hplain : Standards.sameValue (.time (.numeric .nan) reference) (.time q reference) =
          ScalarValue.eq (.time (.numeric .nan) reference) (.time q reference) := by
        cases q with
        | numeric w => cases w <;> first | rfl | exact absurd rfl hnan'
        | calendar t => rfl
      rw [hplain, ScalarValue.eq, decide_eq_true_eq, position_eq_iff]
      constructor
      · rintro ⟨⟨h, -⟩, -⟩
        exact absurd rfl h
      · intro h
        cases h with
        | @numeric _ w h => cases w <;> simp_all [NumericValue.Same, NumericValue.place]
  · have hplain : Standards.sameValue (.time p reference) (.time q reference) =
        ScalarValue.eq (.time p reference) (.time q reference) := by
      cases p with
      | numeric v => cases v <;> first | rfl | exact absurd rfl hnan
      | calendar t => rfl
    rw [hplain, ScalarValue.eq, decide_eq_true_eq, position_eq_iff]
    exact ⟨fun h => h.1.2, fun h => ⟨⟨hnan, h⟩, hreference⟩⟩

theorem count_sameValue {a b : CountValue} :
    Standards.sameValue (.count a) (.count b) = true ↔ a.number.value = b.number.value := by
  have hplain : Standards.sameValue (.count a) (.count b) =
      decide (compare a.number.value b.number.value = .eq) := rfl
  rw [hplain, decide_eq_true_eq, compare_eq_iff_eq]

/-- Values of one component are matched when they are the same. -/
theorem sameValue_iff {component : Component} {v w : Value} (hv : v.Of component)
    (hw : w.Of component) : sameValue v w = true ↔ v.Same w := by
  cases hv with
  | boolean b =>
      cases hw with
      | boolean b' =>
          refine decide_eq_true_iff.trans ⟨?_, fun (.boolean _) => rfl⟩
          rintro rfl
          exact .boolean b
  | text constraint text =>
      cases hw with
      | text _ text' =>
          refine decide_eq_true_iff.trans ⟨?_, fun (.text _) => rfl⟩
          rintro rfl
          exact .text text
  | category codeSpace constraint text =>
      cases hw with
      | category _ _ text' =>
          refine decide_eq_true_iff.trans ⟨?_, fun (.category _) => rfl⟩
          rintro rfl
          exact .category text
  | count limits n =>
      cases hw with
      | count _ m => exact count_sameValue.trans ⟨.count, fun (.count h) => h⟩
  | quantity limits uom n =>
      cases hw with
      | quantity _ _ m => exact quantity_sameValue.trans ⟨.quantity, fun (.quantity h) => h⟩
  | time component p =>
      cases hw with
      | time _ q =>
          exact time_sameValue.trans ⟨fun h => .time h component.reference, fun (.time h _) => h⟩

end Sameness

/-! ### Readings -/

section Readings

variable {contract : Contract} {value : Json} {raw : Option String} {context : ValueContext}
variable {checked : Checked}

theorem checkText_of_enforced {text : String} (h : contract.checkText value true = .ok text) :
    contract.checkText value false = .ok text := by
  unfold Contract.checkText at h ⊢
  cases htext : value.asString? with
  | none => simp [htext] at h
  | some text' =>
      simp only [htext, if_true] at h
      cases htokens : contract.checkTokens value with
      | error e => simp [htokens, Except.map] at h
      | ok _ => simpa [htokens, Except.map] using h

theorem map_eq_ok {α β ε : Type} {x : Except ε α} {f : α → β} {b : β} :
    x.map f = .ok b ↔ ∃ a, x = .ok a ∧ f a = b := by
  cases x <;> simp [Except.map]

/-- A measured value is read alike where its constraint is not enforced. -/
theorem measured_of_enforced {component : ScalarContract} {measured : CheckedScalarValue}
    (h : component.checkParsedValue value raw context true = .ok measured) :
    component.checkParsedValue value raw context false = .ok measured := by
  obtain ⟨limits, v, count, hcomponent, hv, hcount, rfl⟩ |
    ⟨limits, uom, v, hcomponent, hv, rfl⟩ | ⟨time, p, hcomponent, hp, rfl⟩ :=
    checkParsedValue_cases h
  · have henforce : Numeric.enforce false limits v = .ok () := by
      cases limits <;> rfl
    simp only [ScalarContract.checkParsedValue, hcomponent, Numeric.checkCount, hv, hcount,
      ok_bind, henforce]
  · have henforce : Numeric.enforce false limits v = .ok () := by
      cases limits <;> rfl
    simp only [ScalarContract.checkParsedValue, hcomponent, Numeric.checkQuantity, hv, ok_bind,
      henforce]
  · have henforce : Time.enforce false time.constraint p = .ok () := by
      cases time.constraint <;> rfl
    simp only [ScalarContract.checkParsedValue, hcomponent, Time.checkValue, hp, ok_bind,
      henforce]

/-- What is accepted is read alike where the constraint is not enforced. -/
theorem checkParsedValue_of_enforced
    (h : contract.checkParsedValue value raw context true = .ok checked) :
    contract.checkParsedValue value raw context false = .ok checked := by
  unfold Contract.checkParsedValue at h ⊢
  cases hcomponent : contract.component with
  | boolean => simpa only [hcomponent] using h
  | text constraint =>
      simp only [hcomponent] at h ⊢
      obtain ⟨text, htext, h⟩ := bind_eq_ok.mp h
      rw [checkText_of_enforced htext, ok_bind]
      exact h
  | category codeSpace constraint =>
      simp only [hcomponent] at h ⊢
      obtain ⟨text, htext, h⟩ := bind_eq_ok.mp h
      rw [checkText_of_enforced htext, ok_bind]
      exact h
  | measured component =>
      simp only [hcomponent] at h ⊢
      obtain ⟨measured, hmeasured, rfl⟩ := map_eq_ok.mp h
      rw [measured_of_enforced hmeasured]
      rfl

/-- Every reading is one among the reserved values. -/
theorem checkParsedValue_reserved
    (h : contract.checkParsedValue value raw context false = .ok checked) :
    contract.checkParsedValue value raw .nilDeclaration false = .ok checked := by
  unfold Contract.checkParsedValue at h ⊢
  cases hcomponent : contract.component with
  | boolean | text | category => simpa only [hcomponent] using h
  | measured component =>
      simp only [hcomponent] at h ⊢
      obtain ⟨measured, hmeasured, rfl⟩ := map_eq_ok.mp h
      rw [checkParsedValue_nil hmeasured]
      rfl

theorem reads_of_parsed {enforced : Bool}
    (h : contract.checkParsedValue value raw context enforced = .ok checked) :
    contract.Reads checked.value := by
  cases enforced with
  | false => exact ⟨value, raw, context, checked, h, rfl⟩
  | true => exact ⟨value, raw, context, checked, checkParsedValue_of_enforced h, rfl⟩

/-- A reading carries no reason of its own. -/
theorem nilReason_of_parsed {enforced : Bool}
    (h : contract.checkParsedValue value raw context enforced = .ok checked) :
    checked.nilReason = none := by
  unfold Contract.checkParsedValue at h
  cases hcomponent : contract.component with
  | boolean =>
      simp only [hcomponent] at h
      split at h
      · cases h
      · rw [← Except.ok.inj h]
  | text constraint =>
      simp only [hcomponent] at h
      obtain ⟨text, -, h⟩ := bind_eq_ok.mp h
      rw [← Except.ok.inj h]
  | category codeSpace constraint =>
      simp only [hcomponent] at h
      obtain ⟨text, -, h⟩ := bind_eq_ok.mp h
      rw [← Except.ok.inj h]
  | measured component =>
      simp only [hcomponent] at h
      obtain ⟨measured, hmeasured, rfl⟩ := map_eq_ok.mp h
      obtain ⟨_, _, _, -, -, -, rfl⟩ | ⟨_, _, _, -, -, rfl⟩ | ⟨_, _, -, -, rfl⟩ :=
        checkParsedValue_cases hmeasured <;> rfl

theorem of_reads {v : Value} (h : contract.Reads v) : v.Of contract.component := by
  obtain ⟨value, raw, context, checked, h, rfl⟩ := h
  unfold Contract.checkParsedValue at h
  cases hcomponent : contract.component with
  | boolean =>
      simp only [hcomponent] at h
      split at h
      · cases h
      · rw [← Except.ok.inj h]
        exact .boolean _
  | text constraint =>
      simp only [hcomponent] at h
      obtain ⟨text, -, h⟩ := bind_eq_ok.mp h
      rw [← Except.ok.inj h]
      exact .text _ _
  | category codeSpace constraint =>
      simp only [hcomponent] at h
      obtain ⟨text, -, h⟩ := bind_eq_ok.mp h
      rw [← Except.ok.inj h]
      exact .category _ _ _
  | measured component =>
      simp only [hcomponent] at h
      obtain ⟨measured, hmeasured, rfl⟩ := map_eq_ok.mp h
      obtain ⟨limits, v, count, rfl, -, -, rfl⟩ | ⟨limits, uom, v, rfl, -, rfl⟩ |
        ⟨time, p, rfl, -, rfl⟩ := checkParsedValue_cases hmeasured
      · exact .count limits count
      · exact .quantity limits uom v
      · exact .time time p

theorem reads_sameValue_iff {v w : Value} (hv : contract.Reads v) (hw : contract.Reads w) :
    sameValue v w = true ↔ v.Same w :=
  sameValue_iff (of_reads hv) (of_reads hw)

end Readings

/-! ### Declarations -/

/-- The sentinels of a contract: values of its component, no two of them the same. -/
structure Declared (contract : Contract) (declarations : List Nil) : Prop where
  reads : ∀ declaration ∈ declarations, contract.Reads declaration.value
  distinct : declarations.Pairwise (fun first second => ¬ first.value.Same second.value)

section Declarations

variable {isUri : String → Bool} {reader : JsonReader} {contract : Contract}

/-- A further entry is none of those before it. -/
theorem declare_declared {declarations declarations' : List Nil} {entry : Json × String}
    (hdeclared : Declared contract declarations)
    (h : declare isUri reader contract declarations entry = .ok declarations') :
    Declared contract declarations' := by
  unfold declare at h
  split at h
  · cases h
  · split at h
    · cases h
    · split at h
      · obtain ⟨checked, hchecked, h⟩ := bind_eq_ok.mp h
        split at h
        · cases h
        · rename_i hnew
          obtain rfl := Except.ok.inj h
          have hreads := reads_of_parsed hchecked
          refine ⟨?_, ?_⟩
          · intro declaration hmem
            obtain hmem | hmem := List.mem_append.mp hmem
            · exact hdeclared.reads declaration hmem
            · obtain rfl := List.mem_singleton.mp hmem
              exact hreads
          · rw [List.pairwise_append]
            refine ⟨hdeclared.distinct, List.pairwise_singleton _ _, ?_⟩
            intro declaration hmem last hlast hsame
            obtain rfl := List.mem_singleton.mp hlast
            apply hnew
            rw [List.any_eq_true]
            exact ⟨declaration, hmem,
              (reads_sameValue_iff (hdeclared.reads declaration hmem) hreads).mpr hsame⟩
      · cases h

theorem compileNil_declared {source : Json} {raw : List (String × String)}
    {declarations : List Nil}
    (h : compileNil isUri reader contract source raw = .ok declarations) :
    Declared contract declarations := by
  have hempty : Declared contract [] :=
    ⟨fun _ hmem => absurd hmem List.not_mem_nil, List.Pairwise.nil⟩
  unfold compileNil at h
  split at h
  · obtain rfl := Except.ok.inj h
    exact hempty
  · split at h
    · cases h
    · cases h
    · split at h
      · cases h
      · split at h
        · cases h
        · split at h
          · cases h
          · split at h
            · cases h
            · exact @foldlM_invariant _ _ _ _ (fun _ => Declared contract) _ [] _ _
                (fun _ _ _ _ hdone hstep => declare_declared hdone hstep) hempty h

/-- A compiled contract has its sentinels declared. -/
theorem finish_declared {source : Json} {raw : List (String × String)} {compiled : Contract}
    (h : contract.finish isUri reader source raw = .ok compiled) :
    Declared compiled compiled.nilDeclarations := by
  obtain ⟨declarations, hdeclarations, h⟩ := bind_eq_ok.mp h
  have hdeclared := compileNil_declared hdeclarations
  have hcompiled : compiled = { contract with nilDeclarations := declarations } := by
    dsimp only at h
    split at h
    · exact (Except.ok.inj h).symm
    · obtain ⟨-, -, h⟩ := bind_eq_ok.mp h
      exact (Except.ok.inj h).symm
  rw [hcompiled]
  exact ⟨hdeclared.reads, hdeclared.distinct⟩

end Declarations

/-! ### The law -/

/-- What sentinels may change, and what they may not. -/
structure NilLaw (contract : Contract) : Prop where
  equivalence : Equivalence
    (fun v w : { v // contract.Reads v } => sameValue v.1 w.1 = true)
  /-- spelling and offset do not matter, and `NaN` is itself -/
  meaning : ∀ v w, contract.Reads v → contract.Reads w → (sameValue v w = true ↔ v.Same w)
  unique : ∀ v, contract.Reads v →
    (contract.nilDeclarations.filter (fun d => sameValue d.value v)).length ≤ 1
  /-- what is accepted is read alike among the reserved values -/
  agree : ∀ value raw context checked,
    contract.checkParsedValue value raw context true = .ok checked →
    contract.checkParsedValue value raw .nilDeclaration false = .ok checked
  reason : ∀ value raw context checked, contract.checkWithNil value raw context = .ok checked →
    ∀ reason, checked.nilReason = some reason ↔
      ∃ d ∈ contract.nilDeclarations, d.reason = reason ∧ sameValue d.value checked.value = true
  /-- also outside the constraint -/
  sentinel : ∀ value raw context candidate,
    contract.checkParsedValue value raw .nilDeclaration false = .ok candidate →
    ∀ d ∈ contract.nilDeclarations, sameValue d.value candidate.value = true →
    contract.checkWithNil value raw context = .ok { candidate with nilReason := some d.reason }
  conservative : ∀ value raw context,
    (∀ candidate, contract.checkParsedValue value raw .nilDeclaration false = .ok candidate →
      ∀ d ∈ contract.nilDeclarations, sameValue d.value candidate.value = false) →
    (contract.checkWithNil value raw context).toOption =
      (Contract.checkWithNil { contract with nilDeclarations := [] } value raw context).toOption

section Law

variable {contract : Contract} {value : Json} {raw : Option String} {context : ValueContext}
variable {checked : Checked}

/-- A value is one sentinel at most. -/
theorem Declared.unique (h : Declared contract contract.nilDeclarations) {v : Value}
    (hv : contract.Reads v) {d d' : Nil} (hd : d ∈ contract.nilDeclarations)
    (hd' : d' ∈ contract.nilDeclarations) (hsame : sameValue d.value v = true)
    (hsame' : sameValue d'.value v = true) : d.value.Same d'.value :=
  same_equivalence.trans ((reads_sameValue_iff (h.reads d hd) hv).mp hsame)
    (same_equivalence.symm ((reads_sameValue_iff (h.reads d' hd') hv).mp hsame'))

theorem Declared.matches_le_one (h : Declared contract contract.nilDeclarations) {v : Value}
    (hv : contract.Reads v) :
    (contract.nilDeclarations.filter (fun d => sameValue d.value v)).length ≤ 1 := by
  have hdistinct := h.distinct.filter (fun d => sameValue d.value v)
  generalize hmatches : contract.nilDeclarations.filter (fun d => sameValue d.value v) = found
    at hdistinct
  match found with
  | [] => exact Nat.zero_le _
  | [_] => exact Nat.le_refl _
  | d :: d' :: rest =>
      have hmem : ∀ e ∈ d :: d' :: rest, e ∈ contract.nilDeclarations ∧
          sameValue e.value v = true := by
        intro e he
        exact List.mem_filter.mp (hmatches ▸ he)
      obtain ⟨hd, hsame⟩ := hmem d (by simp)
      obtain ⟨hd', hsame'⟩ := hmem d' (by simp)
      exact absurd (h.unique hv hd hd' hsame hsame')
        ((List.pairwise_cons.mp hdistinct).1 d' List.mem_cons_self)

/-- The first match is the only one. -/
theorem Declared.declaration?_eq (h : Declared contract contract.nilDeclarations) {v : Value}
    (hv : contract.Reads v) {d : Nil} (hd : d ∈ contract.nilDeclarations)
    (hsame : sameValue d.value v = true) : contract.declaration? v = some d := by
  have hone := h.matches_le_one hv
  have hmem : d ∈ contract.nilDeclarations.filter (fun d => sameValue d.value v) :=
    List.mem_filter.mpr ⟨hd, hsame⟩
  rw [Contract.declaration?, ← List.head?_filter]
  exact (head?_eq_some_of_length_le_one hone).mpr hmem

theorem declaration?_eq_none {v : Value}
    (h : ∀ d ∈ contract.nilDeclarations, sameValue d.value v = false) :
    contract.declaration? v = none := by
  rw [Contract.declaration?, List.find?_eq_none]
  intro d hd
  rw [h d hd]
  exact Bool.false_ne_true

theorem declaration?_eq_some {v : Value} {d : Nil} (h : contract.declaration? v = some d) :
    d ∈ contract.nilDeclarations ∧ sameValue d.value v = true := by
  rw [Contract.declaration?, ← List.head?_filter] at h
  exact List.mem_filter.mp (List.mem_of_head? h)

/-- The two ways a value is accepted. -/
theorem checkWithNil_cases (h : contract.checkWithNil value raw context = .ok checked) :
    (∃ candidate d, contract.checkParsedValue value raw .nilDeclaration false = .ok candidate ∧
      contract.declaration? candidate.value = some d ∧
      checked = { candidate with nilReason := some d.reason }) ∨
    (contract.declaration? checked.value = none ∧
      contract.checkParsedValue value raw context true = .ok checked) := by
  unfold Contract.checkWithNil at h
  split at h
  · rename_i hempty
    rw [List.isEmpty_iff] at hempty
    refine .inr ⟨?_, h⟩
    rw [Contract.declaration?, hempty]
    rfl
  · obtain ⟨candidate, hcandidate, h⟩ := bind_eq_ok.mp h
    cases hfound : contract.declaration? candidate.value with
    | some d =>
        rw [hfound] at h
        exact .inl ⟨candidate, d, hcandidate, hfound, (Except.ok.inj h).symm⟩
    | none =>
        rw [hfound] at h
        have hreserved := checkParsedValue_reserved (checkParsedValue_of_enforced h)
        obtain rfl := Except.ok.inj (hcandidate.symm.trans hreserved)
        exact .inr ⟨hfound, h⟩

theorem Declared.checkWithNil_sentinel (h : Declared contract contract.nilDeclarations)
    {candidate : Checked}
    (hcandidate : contract.checkParsedValue value raw .nilDeclaration false = .ok candidate)
    {d : Nil} (hd : d ∈ contract.nilDeclarations) (hsame : sameValue d.value candidate.value = true) :
    contract.checkWithNil value raw context =
      .ok { candidate with nilReason := some d.reason } := by
  have hsome : contract.nilDeclarations.isEmpty = false := by
    rw [List.isEmpty_eq_false_iff]
    exact List.ne_nil_of_mem hd
  unfold Contract.checkWithNil
  rw [hsome, hcandidate, ok_bind, h.declaration?_eq (reads_of_parsed hcandidate) hd hsame]
  rfl

theorem Declared.nilReason_iff (h : Declared contract contract.nilDeclarations)
    (haccepted : contract.checkWithNil value raw context = .ok checked) (reason : String) :
    checked.nilReason = some reason ↔
      ∃ d ∈ contract.nilDeclarations, d.reason = reason ∧
        sameValue d.value checked.value = true := by
  obtain ⟨candidate, d, hcandidate, hfound, rfl⟩ | ⟨hnone, hparsed⟩ :=
    checkWithNil_cases haccepted
  · obtain ⟨hd, hsame⟩ := declaration?_eq_some hfound
    constructor
    · intro hreason
      exact ⟨d, hd, Option.some.inj hreason, hsame⟩
    · rintro ⟨d', hd', rfl, hsame'⟩
      have hfound' := h.declaration?_eq (reads_of_parsed hcandidate) hd' hsame'
      rw [Option.some.inj (hfound.symm.trans hfound')]
  · rw [nilReason_of_parsed hparsed]
    constructor
    · intro hreason
      cases hreason
    · rintro ⟨d, hd, -, hsame⟩
      rw [Contract.declaration?, List.find?_eq_none] at hnone
      exact absurd hsame (hnone d hd)

/-- A value that is no sentinel is checked as if there were none. -/
theorem checkWithNil_conservative
    (hother : ∀ candidate,
      contract.checkParsedValue value raw .nilDeclaration false = .ok candidate →
      ∀ d ∈ contract.nilDeclarations, sameValue d.value candidate.value = false) :
    (contract.checkWithNil value raw context).toOption =
      (contract.checkParsedValue value raw context true).toOption := by
  unfold Contract.checkWithNil
  split
  · rfl
  · cases hcandidate : contract.checkParsedValue value raw .nilDeclaration false with
    | ok candidate => rw [ok_bind, declaration?_eq_none (hother candidate hcandidate)]
    | error e =>
        cases hparsed : contract.checkParsedValue value raw context true with
        | error e' => rfl
        | ok checked =>
            have hreserved := checkParsedValue_reserved (checkParsedValue_of_enforced hparsed)
            rw [hcandidate] at hreserved
            cases hreserved

/-- **Sentinels.**  Declarations that compile are a conservative extension of the component. -/
theorem nil_conservative {isUri : String → Bool} {reader : JsonReader} {description : Contract}
    {source : Json} {members : List (String × String)} {contract : Contract}
    (h : description.finish isUri reader source members = .ok contract) : NilLaw contract := by
  have hdeclared := finish_declared h
  exact {
    equivalence := {
      refl := fun v => (reads_sameValue_iff v.2 v.2).mpr (same_equivalence.refl v.1)
      symm := fun {v w} hvw => (reads_sameValue_iff w.2 v.2).mpr
        (same_equivalence.symm ((reads_sameValue_iff v.2 w.2).mp hvw))
      trans := fun {u v w} huv hvw => (reads_sameValue_iff u.2 w.2).mpr
        (same_equivalence.trans ((reads_sameValue_iff u.2 v.2).mp huv)
          ((reads_sameValue_iff v.2 w.2).mp hvw)) }
    meaning := fun _ _ hv hw => reads_sameValue_iff hv hw
    unique := fun _ hv => hdeclared.matches_le_one hv
    agree := fun _ _ _ _ hparsed => checkParsedValue_reserved (checkParsedValue_of_enforced hparsed)
    reason := fun _ _ _ _ haccepted reason => hdeclared.nilReason_iff haccepted reason
    sentinel := fun _ _ _ _ hcandidate _ hd hsame =>
      hdeclared.checkWithNil_sentinel hcandidate hd hsame
    conservative := fun _ _ _ hother => checkWithNil_conservative hother }

/-- A Quantity without a constraint, and its description with one sentinel. -/
def sampleQuantity : Contract :=
  ⟨.measured (.quantity none ⟨none, none, some "m", none⟩), none, []⟩

def sampleNil : Json :=
  .object [("nilValues", .array [.object [("reason", .string "urn:nil"),
    ("value", .string "NaN")]])]

def sampleMembers : List (String × String) :=
  [("nilValues", "[\x7b\"reason\":\"urn:nil\",\"value\":\"NaN\"\x7d]")]

/-- The readers, on the one array and the one object of that description. -/
def sampleReader : JsonReader where
  parse _ := .error .malformed
  rawItems _ := some ["\x7b\"reason\":\"urn:nil\",\"value\":\"NaN\"\x7d"]
  rawMembers _ := some [("reason", "\"urn:nil\""), ("value", "\"NaN\"")]

/-- `NaN` is declared, and the law holds. -/
theorem nil_conservative_nan :
    NilLaw { sampleQuantity with nilDeclarations := [⟨.measured (.quantity .nan), "urn:nil"⟩] } := by
  have hdeclared : sampleQuantity.finish (fun _ => true) sampleReader sampleNil sampleMembers =
      .ok { sampleQuantity with
        nilDeclarations := [⟨.measured (.quantity .nan), "urn:nil"⟩] } := by
    rfl
  exact nil_conservative hdeclared

end Law

end Scalar
end Standards
end Glaux
