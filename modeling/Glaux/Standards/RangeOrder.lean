import Glaux.Library.Slots
import Glaux.Standards.Range

/-!
# The order of range endpoints (`range.rs`)

Each kind has an exact order of its own: the rationals with both infinities, instants, and
the positions of a supplied category order.  A pair is established when it is in that
order, refused when it is strictly reversed, and left open otherwise.
-/

namespace Glaux
namespace Standards

open Library Domain Scalar

/-! ### Outcomes of a comparison -/

section Comparisons

/-- A comparison says in which directions the order holds. -/
structure Decides (outcome : Option Ordering) (upward downward : Prop) : Prop where
  upward : outcome = some .lt ∨ outcome = some .eq ↔ upward
  downward : outcome = some .gt ∨ outcome = some .eq ↔ downward

theorem Decides.of_compare {α : Type} [LinearOrder α] (a b : α) :
    Decides (some (compare a b)) (a ≤ b) (b ≤ a) where
  upward := by
    rw [Option.some.injEq, Option.some.injEq, compare_lt_iff_lt, compare_eq_iff_eq]
    exact le_iff_lt_or_eq.symm
  downward := by
    rw [Option.some.injEq, Option.some.injEq, compare_gt_iff_gt, compare_eq_iff_eq, eq_comm]
    exact le_iff_lt_or_eq.symm

theorem Decides.none : Decides none False False := by
  constructor <;> simp

theorem Decides.congr {outcome : Option Ordering} {upward downward upward' downward' : Prop}
    (h : Decides outcome upward downward) (hup : upward ↔ upward')
    (hdown : downward ↔ downward') : Decides outcome upward' downward' :=
  ⟨h.upward.trans hup, h.downward.trans hdown⟩

variable {outcome : Option Ordering} {upward downward : Prop}

theorem Decides.established (h : Decides outcome upward downward) :
    concluded outcome = .ok .established ↔ upward := by
  rw [← h.upward]
  obtain _ | _ | _ | _ := outcome <;> simp [concluded]

theorem Decides.reversed (h : Decides outcome upward downward) :
    concluded outcome = .error .reversedBounds ↔ downward ∧ ¬ upward := by
  rw [← h.upward, ← h.downward]
  obtain _ | _ | _ | _ := outcome <;> simp [concluded]

theorem concluded_unordered : concluded outcome = .ok .unorderedSpecial ↔ outcome = none := by
  obtain _ | _ | _ | _ := outcome <;> simp [concluded]

/-- The other conclusions are not drawn from a comparison. -/
theorem concluded_ne : concluded outcome ≠ .error .categoryOrder ∧
    concluded outcome ≠ .ok .nilEndpoint ∧ concluded outcome ≠ .ok .unresolvedTimeFrame ∧
    concluded outcome ≠ .ok .unresolvedCategory := by
  obtain _ | _ | _ | _ := outcome <;> simp [concluded]

theorem numeric_decides (a b : NumericValue) :
    Decides (a.partialCmp b) (a.AtMost b) (b.AtMost a) := by
  rw [NumericValue.partialCmp_eq]
  simp only [NumericValue.AtMost]
  cases ha : a.place with
  | none => exact Decides.none.congr (by simp) (by simp)
  | some x =>
      cases hb : b.place with
      | none => exact Decides.none.congr (by simp) (by simp)
      | some y => exact (Decides.of_compare x y).congr (by simp) (by simp)

theorem numeric_unordered {a b : NumericValue} :
    a.partialCmp b = none ↔ a = .nan ∨ b = .nan := by
  cases a <;> cases b <;> simp [NumericValue.partialCmp]

end Comparisons

/-! ### The order of each kind -/

/-- `low` is not above `high`, as far as that is known. -/
inductive AtMost (order : Option CategoryOrder) : Value → Value → Prop
  | count {a b : CountValue} (h : a.number.value ≤ b.number.value) :
      AtMost order (.measured (.count a)) (.measured (.count b))
  | quantity {a b : NumericValue} (h : a.AtMost b) :
      AtMost order (.measured (.quantity a)) (.measured (.quantity b))
  | time {p q : TimePosition} (h : p.AtMost q) (reference reference' : TimeReference) :
      AtMost order (.measured (.time p reference)) (.measured (.time q reference'))
  | category {supplied : CategoryOrder} (horder : order = some supplied) {a b : String}
      {i j : Nat} (hi : supplied.ascendingTokens[i]? = some a)
      (hj : supplied.ascendingTokens[j]? = some b) (hij : i ≤ j) :
      AtMost order (.category a) (.category b)

def isNaN : Value → Bool
  | .measured (.quantity v) => Numeric.isNaN v
  | .measured (.time p _) => Time.isNaN p
  | _ => false

/-- What the outcome says about the order of two endpoints that are no sentinels. -/
structure OrderLaw (order : Option CategoryOrder) (low high : Value)
    (outcome : Except RangeError OrderCheck) : Prop where
  established : outcome = .ok .established ↔ AtMost order low high
  reversed : outcome = .error .reversedBounds ↔ AtMost order high low ∧ ¬ AtMost order low high
  unordered : outcome = .ok .unorderedSpecial ↔ isNaN low = true ∨ isNaN high = true
  inside : outcome ≠ .error .categoryOrder
  reasoned : outcome ≠ .ok .nilEndpoint

section Kinds

variable {order : Option CategoryOrder}

/-- The law of a kind whose values are compared. -/
theorem OrderLaw.of_decides {low high : Value} {outcome : Option Ordering}
    (h : Decides outcome (AtMost order low high) (AtMost order high low))
    (hnan : outcome = none ↔ isNaN low = true ∨ isNaN high = true) :
    OrderLaw order low high (concluded outcome) where
  established := h.established
  reversed := h.reversed
  unordered := concluded_unordered.trans hnan
  inside := concluded_ne.1
  reasoned := concluded_ne.2.1

theorem isNaN_iff {v : NumericValue} : Numeric.isNaN v = true ↔ v = .nan := by
  cases v <;> simp [Numeric.isNaN]

theorem count_law (a b : CountValue) :
    OrderLaw order (.measured (.count a)) (.measured (.count b))
      (concluded (some (a.number.cmp b.number))) := by
  refine .of_decides ((Decides.of_compare a.number.value b.number.value).congr ?_ ?_) ?_
  · exact ⟨.count, fun (.count h) => h⟩
  · exact ⟨.count, fun (.count h) => h⟩
  · simp [isNaN]

theorem quantity_law (a b : NumericValue) :
    OrderLaw order (.measured (.quantity a)) (.measured (.quantity b))
      (concluded (a.partialCmp b)) := by
  refine .of_decides ((numeric_decides a b).congr ?_ ?_) ?_
  · exact ⟨.quantity, fun (.quantity h) => h⟩
  · exact ⟨.quantity, fun (.quantity h) => h⟩
  · rw [numeric_unordered, isNaN, isNaN, isNaN_iff, isNaN_iff]

/-- What the range makes of the scalar comparison. -/
def ofComparison : Except ScalarError (Option Ordering) → Except RangeError OrderCheck
  | .ok outcome => concluded outcome
  | .error _ => .ok .unresolvedTimeFrame

/-- The two comparisons of positions agree. -/
theorem checkPositions_eq (p q : TimePosition) :
    checkPositions p q = ofComparison (Time.compare p q) := by
  cases p with
  | numeric v =>
      cases q with
      | numeric w => rfl
      | calendar t => cases v <;> rfl
  | calendar s =>
      cases q with
      | numeric w => cases w <;> cases s <;> rfl
      | calendar t =>
          cases s with
          | utc i => cases t <;> rfl
          | unresolved s =>
              cases t with
              | utc j => rfl
              | unresolved t =>
                  rw [checkPositions, Time.compare]
                  split <;> rfl

theorem partialCmp_swap (a b : NumericValue) :
    b.partialCmp a = (a.partialCmp b).map Ordering.swap := by
  rw [NumericValue.partialCmp_eq, NumericValue.partialCmp_eq]
  cases a.place with
  | none => cases b.place <;> rfl
  | some x =>
      cases b.place with
      | none => rfl
      | some y => exact congrArg some Std.OrientedCmp.eq_swap

theorem compare_swap (p q : TimePosition) :
    Time.compare q p = (Time.compare p q).map (Option.map Ordering.swap) := by
  cases p with
  | numeric v =>
      cases q with
      | numeric w => exact congrArg Except.ok (partialCmp_swap v w)
      | calendar t => cases v <;> rfl
  | calendar s =>
      cases q with
      | numeric w => cases w <;> rfl
      | calendar t =>
          cases s with
          | utc i =>
              cases t with
              | utc j =>
                  have hswap : j.cmp i = (i.cmp j).swap := by
                    rw [ExactInstant.cmp_eq, ExactInstant.cmp_eq]
                    exact Std.OrientedCmp.eq_swap
                  exact congrArg (fun o => Except.ok (some o)) hswap
              | unresolved t => rfl
          | unresolved s =>
              cases t with
              | utc j => rfl
              | unresolved t =>
                  rw [Time.compare, Time.compare]
                  by_cases hst : s = t
                  · rw [if_pos hst, if_pos hst.symm]
                    rfl
                  · rw [if_neg hst, if_neg (Ne.symm hst)]
                    rfl

theorem swap_eq {outcome : Option Ordering} :
    outcome.map Ordering.swap = some .lt ∨ outcome.map Ordering.swap = some .eq ↔
      outcome = some .gt ∨ outcome = some .eq := by
  obtain _ | _ | _ | _ := outcome <;> simp

/-- Where positions can be compared, the order is decided in both directions. -/
theorem time_decides {p q : TimePosition} {outcome : Option Ordering}
    (h : Time.compare p q = .ok outcome) : Decides outcome (p.AtMost q) (q.AtMost p) := by
  have hforth := compared (a := p) (b := q)
  have hback := compared (a := q) (b := p)
  have hswap : Time.compare q p = .ok (outcome.map Ordering.swap) := by
    rw [compare_swap p q, h]
    rfl
  rw [h] at hforth
  rw [hswap] at hback
  cases hforth with
  | known _ _ hbelow =>
      cases hback with
      | known _ _ hbelow' => exact ⟨hbelow, swap_eq.symm.trans hbelow'⟩

theorem time_unordered {p q : TimePosition} :
    Time.compare p q = .ok none ↔ Time.isNaN p = true ∨ Time.isNaN q = true := by
  cases p with
  | numeric v =>
      cases q with
      | numeric w =>
          rw [Time.compare, Except.ok.injEq, numeric_unordered, Time.isNaN, Time.isNaN,
            isNaN_iff, isNaN_iff]
      | calendar t => cases v <;> simp [Time.compare, Time.isNaN, Numeric.isNaN]
  | calendar s =>
      cases q with
      | numeric w => cases w <;> simp [Time.compare, Time.isNaN, Numeric.isNaN]
      | calendar t =>
          cases s <;> cases t <;> simp only [Time.compare, Time.isNaN]
          · simp
          · simp
          · simp
          · split <;> simp

/-- Positions of unknown order are in no order. -/
theorem unknown_not_atMost {p q : TimePosition} (h : Unknown p q) :
    ¬ p.AtMost q ∧ ¬ q.AtMost p := by
  cases h with
  | texts h => exact ⟨fun (.text _) => h rfl, fun (.text _) => h rfl⟩
  | instantText | textInstant | number | calendar => exact ⟨nofun, nofun⟩

theorem time_law (p q : TimePosition) (reference reference' : TimeReference) :
    OrderLaw order (.measured (.time p reference)) (.measured (.time q reference'))
      (checkPositions p q) := by
  rw [checkPositions_eq]
  cases hcompare : Time.compare p q with
  | ok outcome =>
      refine .of_decides ((time_decides hcompare).congr ?_ ?_) ?_
      · exact ⟨fun h => .time h _ _, fun (.time h _ _) => h⟩
      · exact ⟨fun h => .time h _ _, fun (.time h _ _) => h⟩
      · rw [isNaN, isNaN, ← time_unordered, hcompare, Except.ok.injEq]
  | error e =>
      have hcompared := compared (a := p) (b := q)
      rw [hcompare] at hcompared
      cases hcompared with
      | unknown hunknown =>
          obtain ⟨hforth, hback⟩ := unknown_not_atMost hunknown
          have hnan : ¬ (Time.isNaN p = true ∨ Time.isNaN q = true) := by
            rw [← time_unordered, hcompare]
            exact nofun
          exact {
            established := ⟨nofun, fun (.time h _ _) => absurd h hforth⟩
            reversed := ⟨nofun, fun ⟨.time h _ _, _⟩ => absurd h hback⟩
            unordered := ⟨nofun, fun h => absurd h hnan⟩
            inside := nofun
            reasoned := nofun }

theorem position_eq_ok {supplied : CategoryOrder} (hnodup : supplied.ascendingTokens.Nodup)
    {token : String} {i : Nat} :
    supplied.position token = .ok i ↔ supplied.ascendingTokens[i]? = some token := by
  rw [← idxOf?_of_nodup hnodup, CategoryOrder.position]
  cases supplied.ascendingTokens.idxOf? token <;> simp

/-- Tokens of a supplied order are compared by their places in it. -/
theorem category_law {supplied : CategoryOrder} (hnodup : supplied.ascendingTokens.Nodup)
    {a b : String} (ha : a ∈ supplied.ascendingTokens) (hb : b ∈ supplied.ascendingTokens) :
    OrderLaw (some supplied) (.category a) (.category b)
      (checkCategories (some supplied) a b) := by
  obtain ⟨i, hi⟩ := List.mem_iff_getElem?.mp ha
  obtain ⟨j, hj⟩ := List.mem_iff_getElem?.mp hb
  have hplace : ∀ {token : String} {k l : Nat}, supplied.ascendingTokens[k]? = some token →
      supplied.ascendingTokens[l]? = some token → k = l := by
    intro token k l hk hl
    have hk' := (position_eq_ok hnodup).mpr hk
    exact Except.ok.inj (hk'.symm.trans ((position_eq_ok hnodup).mpr hl))
  rw [checkCategories, (position_eq_ok hnodup).mpr hi, ok_bind, (position_eq_ok hnodup).mpr hj,
    ok_bind]
  refine .of_decides ((Decides.of_compare i j).congr ?_ ?_) ?_
  · constructor
    · exact .category rfl hi hj
    · intro h
      cases h with
      | category horder hi' hj' hij =>
          obtain rfl := Option.some.inj horder
          rw [hplace hi hi', hplace hj hj']
          exact hij
  · constructor
    · exact .category rfl hj hi
    · intro h
      cases h with
      | category horder hj' hi' hji =>
          obtain rfl := Option.some.inj horder
          rw [hplace hi hi', hplace hj hj']
          exact hji
  · simp [isNaN]

/-- Without an order nothing is said of tokens. -/
theorem unresolvedCategory_law (a b : String) :
    OrderLaw none (.category a) (.category b) (checkCategories none a b) where
  established := ⟨nofun, fun (.category h _ _ _) => nomatch h⟩
  reversed := ⟨nofun, fun ⟨.category h _ _ _, _⟩ => nomatch h⟩
  unordered := ⟨nofun, fun h => by simp [isNaN] at h⟩
  inside := nofun
  reasoned := nofun

end Kinds

/-! ### Supplied orders -/

/-- A validated order names each token once, and orders categories. -/
theorem validated_nodup {kind : RangeKind} {endpoint : Scalar.Contract}
    {evidence : Option CategoryOrder} {supplied : CategoryOrder}
    (h : validateCategoryOrder kind endpoint evidence = .ok (some supplied)) :
    supplied.ascendingTokens.Nodup := by
  have hfit : ∃ codeSpace, unfitOrder kind codeSpace supplied = false := by
    unfold validateCategoryOrder at h
    split at h
    · cases h
    · split at h
      · rename_i codeSpace constraint _
        split at h
        · cases h
        · rename_i hfit
          rw [Bool.not_eq_true] at hfit
          split at h
          · split at h
            · cases h
            · obtain rfl := Option.some.inj (Except.ok.inj h)
              exact ⟨codeSpace, hfit⟩
          · obtain rfl := Option.some.inj (Except.ok.inj h)
            exact ⟨codeSpace, hfit⟩
      · cases h
  obtain ⟨codeSpace, hfit⟩ := hfit
  simp only [unfitOrder, Bool.or_eq_false_iff, decide_eq_false_iff_not, not_not] at hfit
  exact List.dedup_eq_self.mp ((List.dedup_sublist _).eq_of_length hfit.2)

namespace RangeContract

variable {contract : RangeContract} {low high : Checked}

theorem nodup {supplied : CategoryOrder} (h : contract.categoryOrder = some supplied) :
    supplied.ascendingTokens.Nodup := by
  obtain ⟨evidence, hvalidated⟩ := contract.validated
  rw [h] at hvalidated
  exact validated_nodup hvalidated

/-- An endpoint the supplied order refuses. -/
def Outside (contract : RangeContract) (endpoint : Checked) : Prop :=
  ∃ supplied token, contract.categoryOrder = some supplied ∧ endpoint.nilReason = none ∧
    endpoint.value = .category token ∧ token ∉ supplied.ascendingTokens

theorem unordered_iff : contract.unordered low = true ↔ contract.Outside low := by
  unfold unordered Outside
  rw [Option.any_eq_true]
  constructor
  · rintro ⟨supplied, horder, h⟩
    rw [Bool.and_eq_true, Option.isNone_iff_eq_none] at h
    obtain ⟨hnil, h⟩ := h
    split at h
    · rename_i token hvalue
      exact ⟨supplied, token, horder, hnil, hvalue, of_decide_eq_true h⟩
    · cases h
  · rintro ⟨supplied, token, horder, hnil, hvalue, houtside⟩
    refine ⟨supplied, horder, ?_⟩
    rw [hnil, hvalue]
    exact decide_eq_true houtside

/-- Both endpoints are values of the range's own kind. -/
theorem order_law (hlow : low.value.Of contract.endpoint.component)
    (hhigh : high.value.Of contract.endpoint.component)
    (hinside : ¬ (contract.Outside low ∨ contract.Outside high))
    (hnil : low.nilReason = none) (hnil' : high.nilReason = none) :
    OrderLaw contract.categoryOrder low.value high.value
      (contract.checkOrder low.value high.value) := by
  have hkind := contract.ofKind
  generalize hcomponent : contract.endpoint.component = component at hlow hhigh hkind
  generalize hv : low.value = v at hlow
  generalize hw : high.value = w at hhigh
  cases hlow with
  | boolean | text => cases hkind
  | count _ a =>
      cases hhigh with
      | count _ b => exact count_law a b
  | quantity _ _ a =>
      cases hhigh with
      | quantity _ _ b => exact quantity_law a b
  | time _ p =>
      cases hhigh with
      | time _ q => exact time_law p q _ _
  | category _ _ a =>
      cases hhigh with
      | category _ _ b =>
          cases horder : contract.categoryOrder with
          | none =>
              rw [checkOrder, horder]
              exact unresolvedCategory_law a b
          | some supplied =>
              rw [checkOrder, horder]
              have hin : ∀ {endpoint : Checked} {token : String},
                  ¬ contract.Outside endpoint → endpoint.nilReason = none →
                    endpoint.value = .category token → token ∈ supplied.ascendingTokens := by
                intro endpoint token hinside hnil hvalue
                by_contra houtside
                exact hinside ⟨supplied, token, horder, hnil, hvalue, houtside⟩
              exact category_law (nodup horder) (hin (fun h => hinside (.inl h)) hnil hv)
                (hin (fun h => hinside (.inr h)) hnil' hw)

/-- Neither endpoint is a sentinel. -/
def Ordinary (low high : Checked) : Prop := low.nilReason = none ∧ high.nilReason = none

/-- What the check of two accepted endpoints reports. -/
structure RangeLaw (contract : RangeContract) (low high : Checked)
    (result : Except RangeError CheckedRangeValue) : Prop where
  /-- a token outside the supplied order is refused, also beside a sentinel -/
  refused : result = .error .categoryOrder ↔ contract.Outside low ∨ contract.Outside high
  sentinel : ¬ (contract.Outside low ∨ contract.Outside high) →
    (result = .ok ⟨low, high, .nilEndpoint⟩ ↔ ¬ Ordinary low high)
  established : result = .ok ⟨low, high, .established⟩ ↔
    Ordinary low high ∧ AtMost contract.categoryOrder low.value high.value
  reversed : result = .error .reversedBounds ↔
    Ordinary low high ∧ AtMost contract.categoryOrder high.value low.value ∧
      ¬ AtMost contract.categoryOrder low.value high.value
  unordered : result = .ok ⟨low, high, .unorderedSpecial⟩ ↔
    Ordinary low high ∧ (isNaN low.value = true ∨ isNaN high.value = true)
  /-- the two comparisons of times agree -/
  time : ∀ p q reference reference', low.value = .measured (.time p reference) →
    high.value = .measured (.time q reference') → Ordinary low high →
    result = (ofComparison (Time.compare p q)).map (fun order => ⟨low, high, order⟩) ∧
      (result = .ok ⟨low, high, .unresolvedTimeFrame⟩ ↔ ∃ e, Time.compare p q = .error e)

theorem not_ordinary : ¬ Ordinary low high ↔
    (low.nilReason.isSome || high.nilReason.isSome) = true := by
  cases hlow : low.nilReason <;> cases hhigh : high.nilReason <;> simp [Ordinary, hlow, hhigh]

/-- Values of a supplied order are inside it. -/
theorem inside_of_atMost
    (h : AtMost contract.categoryOrder low.value high.value ∨
      AtMost contract.categoryOrder high.value low.value) :
    ¬ (contract.Outside low ∨ contract.Outside high) := by
  have hboth : ∀ {v w : Value}, AtMost contract.categoryOrder v w →
      ∀ supplied token, contract.categoryOrder = some supplied →
        v = .category token ∨ w = .category token → token ∈ supplied.ascendingTokens := by
    intro v w h supplied token horder hvalue
    cases h with
    | count | quantity | time => simp at hvalue
    | category hsupplied hi hj =>
        obtain rfl := Option.some.inj (horder.symm.trans hsupplied)
        obtain hvalue | hvalue := hvalue
        · obtain rfl := Value.category.inj hvalue
          exact List.mem_of_getElem? hi
        · obtain rfl := Value.category.inj hvalue
          exact List.mem_of_getElem? hj
  rintro (⟨supplied, token, horder, -, hvalue, hout⟩ | ⟨supplied, token, horder, -, hvalue, hout⟩)
  · obtain h | h := h
    · exact hout (hboth h supplied token horder (.inl hvalue))
    · exact hout (hboth h supplied token horder (.inr hvalue))
  · obtain h | h := h
    · exact hout (hboth h supplied token horder (.inr hvalue))
    · exact hout (hboth h supplied token horder (.inl hvalue))

theorem inside_of_isNaN (hlow : low.value.Of contract.endpoint.component)
    (hhigh : high.value.Of contract.endpoint.component)
    (h : isNaN low.value = true ∨ isNaN high.value = true) :
    ¬ (contract.Outside low ∨ contract.Outside high) := by
  generalize contract.endpoint.component = component at hlow hhigh
  rintro (⟨_, token, -, -, hvalue, -⟩ | ⟨_, token, -, -, hvalue, -⟩)
  · rw [hvalue] at hlow h
    generalize high.value = w at hhigh h
    cases hlow
    cases hhigh
    simp [isNaN] at h
  · rw [hvalue] at hhigh h
    generalize low.value = v at hlow h
    cases hhigh
    cases hlow
    simp [isNaN] at h

theorem map_order_eq {outcome : Except RangeError OrderCheck} {order : OrderCheck} :
    outcome.map (fun order => (⟨low, high, order⟩ : CheckedRangeValue)) =
      .ok ⟨low, high, order⟩ ↔ outcome = .ok order := by
  cases outcome <;> simp [Except.map]

theorem map_order_error {outcome : Except RangeError OrderCheck} {e : RangeError} :
    outcome.map (fun order => (⟨low, high, order⟩ : CheckedRangeValue)) = .error e ↔
      outcome = .error e := by
  cases outcome <;> simp [Except.map]

theorem ofComparison_unresolved {outcome : Except ScalarError (Option Ordering)} :
    ofComparison outcome = .ok .unresolvedTimeFrame ↔ ∃ e, outcome = .error e := by
  cases outcome with
  | error e => simp [ofComparison]
  | ok outcome => simpa [ofComparison] using concluded_ne.2.2.1

/-- The check of accepted endpoints follows the law. -/
theorem checkEndpoints_law (hlow : low.value.Of contract.endpoint.component)
    (hhigh : high.value.Of contract.endpoint.component) :
    RangeLaw contract low high (contract.checkEndpoints low high) := by
  unfold checkEndpoints
  by_cases hout : contract.Outside low ∨ contract.Outside high
  · have hrefused : (contract.unordered low || contract.unordered high) = true := by
      rw [Bool.or_eq_true, unordered_iff, unordered_iff]
      exact hout
    rw [if_pos hrefused]
    exact {
      refused := ⟨fun _ => hout, fun _ => rfl⟩
      sentinel := fun hin => absurd hout hin
      established := ⟨nofun, fun ⟨_, h⟩ => absurd hout (inside_of_atMost (.inl h))⟩
      reversed := ⟨nofun, fun ⟨_, h, _⟩ => absurd hout (inside_of_atMost (.inr h))⟩
      unordered := ⟨nofun, fun ⟨_, h⟩ => absurd hout (inside_of_isNaN hlow hhigh h)⟩
      time := by
        rintro p q _ _ hp hq -
        obtain ⟨_, _, -, -, hvalue, -⟩ | ⟨_, _, -, -, hvalue, -⟩ := hout
        · rw [hp] at hvalue
          cases hvalue
        · rw [hq] at hvalue
          cases hvalue }
  · have hrefused : ¬ (contract.unordered low || contract.unordered high) = true := by
      rw [Bool.or_eq_true, unordered_iff, unordered_iff]
      exact hout
    rw [if_neg hrefused]
    by_cases hordinary : Ordinary low high
    · have hnil : ¬ (low.nilReason.isSome || high.nilReason.isSome) = true :=
        fun h => not_ordinary.mpr h hordinary
      have hlaw := order_law hlow hhigh hout hordinary.1 hordinary.2
      rw [if_neg hnil]
      exact {
        refused := ⟨fun h => absurd (map_order_error.mp h) hlaw.inside, fun h => absurd h hout⟩
        sentinel := fun _ =>
          ⟨fun h => absurd (map_order_eq.mp h) hlaw.reasoned, fun h => absurd hordinary h⟩
        established := (map_order_eq.trans hlaw.established).trans (and_iff_right hordinary).symm
        reversed := (map_order_error.trans hlaw.reversed).trans (and_iff_right hordinary).symm
        unordered := (map_order_eq.trans hlaw.unordered).trans (and_iff_right hordinary).symm
        time := by
          rintro p q _ _ hp hq -
          have hcheck : contract.checkOrder low.value high.value =
              ofComparison (Time.compare p q) := by
            rw [hp, hq, ← checkPositions_eq]
            rfl
          rw [hcheck]
          exact ⟨rfl, map_order_eq.trans ofComparison_unresolved⟩ }
    · have hnil := not_ordinary.mp hordinary
      rw [if_pos hnil]
      exact {
        refused := ⟨nofun, fun h => absurd h hout⟩
        sentinel := fun _ => ⟨fun _ => hordinary, fun _ => rfl⟩
        established := ⟨nofun, fun h => absurd h.1 hordinary⟩
        reversed := ⟨nofun, fun h => absurd h.1 hordinary⟩
        unordered := ⟨nofun, fun h => absurd h.1 hordinary⟩
        time := fun _ _ _ _ _ _ h => absurd h hordinary }

/-- An accepted endpoint is a value of the described component. -/
theorem of_checkWithNil {endpoint : Scalar.Contract} {value : Json} {raw : Option String}
    {context : ValueContext} {checked : Checked}
    (h : endpoint.checkWithNil value raw context = .ok checked) :
    checked.value.Of endpoint.component := by
  obtain ⟨candidate, d, hcandidate, -, rfl⟩ | ⟨-, hparsed⟩ := checkWithNil_cases h
  · have hof := of_reads (reads_of_parsed hcandidate)
    exact hof
  · exact of_reads (reads_of_parsed hparsed)

theorem of_checkRangeEndpoint {reader : JsonReader} {endpoint : Scalar.Contract} {input : Bytes}
    {checked : Checked} (h : endpoint.checkRangeEndpoint reader input = .ok checked) :
    checked.value.Of endpoint.component := by
  unfold Scalar.Contract.checkRangeEndpoint Scalar.Contract.checkInput at h
  split at h
  · cases h
  · split at h
    · cases h
    · exact of_checkWithNil h

/-- **Range order.**  A pair of accepted endpoints is reported as the order of its kind
says. -/
theorem range_order (contract : RangeContract) (reader : JsonReader) {input : Bytes}
    {value : Json} {lowText highText : String} {low high : Checked}
    (hparse : reader.parse input = .ok value)
    (hitems : reader.rawItems input = some [lowText, highText])
    (hlow : contract.endpoint.checkRangeEndpoint reader (encode lowText) = .ok low)
    (hhigh : contract.endpoint.checkRangeEndpoint reader (encode highText) = .ok high) :
    RangeLaw contract low high (contract.checkValue reader input) := by
  have hcheck : contract.checkValue reader input = contract.checkEndpoints low high := by
    unfold checkValue checkEndpoint
    rw [hparse, hitems]
    dsimp only
    rw [hlow, hhigh]
    rfl
  rw [hcheck]
  exact checkEndpoints_law (of_checkRangeEndpoint hlow) (of_checkRangeEndpoint hhigh)

/-- Counts without a constraint. -/
def sampleCounts : RangeContract :=
  ⟨.count, ⟨.measured (.count none), none, []⟩, none, rfl, none, rfl⟩

/-- The readers, on one pair and its two numbers. -/
def samplePairs : JsonReader where
  parse input :=
    if input = encode "[2,1]" then .ok (.array [.number "2", .number "1"])
    else if input = encode "2" then .ok (.number "2")
    else if input = encode "1" then .ok (.number "1")
    else .error .malformed
  rawItems input := if input = encode "[2,1]" then some ["2", "1"] else none
  rawMembers _ := none

def sampleCount (n : ℕ) (text : String) (h : ExactNumber.isInteger ⟨n, .decimal text⟩ = true) :
    Checked :=
  ⟨.measured (.count ⟨⟨n, .decimal text⟩, h⟩), .notApplicable, .notApplicable, none⟩

/-- Two and one are reversed. -/
theorem range_order_counts :
    sampleCounts.checkValue samplePairs (encode "[2,1]") = .error .reversedBounds ∧
      RangeLaw sampleCounts (sampleCount 2 "2" (by decide +kernel))
        (sampleCount 1 "1" (by decide +kernel))
        (sampleCounts.checkValue samplePairs (encode "[2,1]")) := by
  have hparse : samplePairs.parse (encode "[2,1]") = .ok (.array [.number "2", .number "1"]) := by
    simp [samplePairs]
  have hitems : samplePairs.rawItems (encode "[2,1]") = some ["2", "1"] := by
    simp [samplePairs]
  refine ⟨by decide +kernel, range_order sampleCounts samplePairs hparse hitems ?_ ?_⟩
  · decide +kernel
  · decide +kernel

end RangeContract

end Standards
end Glaux
