import Glaux.Standards.Scalar.Nil

/-!
# Range values (`range.rs`)

Both endpoints of a pair are checked on their own; only then is their order looked at.  An
order is claimed where the endpoints can be compared and neither of them is a sentinel.
-/

namespace Glaux
namespace Standards

open Library Domain

inductive RangeKind where
  | category
  | count
  | quantity
  | time
deriving DecidableEq

/-- The kind whose endpoints a component describes. -/
def Scalar.Component.rangeKind : Scalar.Component → Option RangeKind
  | .category _ _ => some .category
  | .measured (.count _) => some .count
  | .measured (.quantity _ _) => some .quantity
  | .measured (.time _) => some .time
  | .boolean | .text _ => none

/-- Ordering evidence that the caller supplies. -/
structure CategoryOrder where
  codeSpace : Option String
  ascendingTokens : List String
deriving DecidableEq

inductive OrderCheck where
  | established
  | unresolvedCategory
  | unresolvedTimeFrame
  | unorderedSpecial
  | nilEndpoint
deriving DecidableEq

inductive RangeError where
  | syntaxError (failure : Failure)
  | endpoint (error : ScalarError)
  | cardinality
  | reversedBounds
  | categoryOrder
deriving DecidableEq

structure CheckedRangeValue where
  low : Scalar.Checked
  high : Scalar.Checked
  order : OrderCheck
deriving DecidableEq

/-! ### Category orders -/

/-- The tokens are no order for this description. -/
def unfitOrder (kind : RangeKind) (codeSpace : Option String) (evidence : CategoryOrder) : Bool :=
  kind ≠ .category || codeSpace ≠ evidence.codeSpace || evidence.ascendingTokens.isEmpty ||
    maxNodes < evidence.ascendingTokens.length ||
    evidence.ascendingTokens.any (fun v => v.isEmpty || maxStringBytes < v.utf8ByteSize) ||
    maxBytes < (evidence.ascendingTokens.map String.utf8ByteSize).sum ||
    evidence.ascendingTokens.dedup.length ≠ evidence.ascendingTokens.length

/-- A listed token is neither ordered nor a sentinel. -/
def leavesOut (endpoint : Scalar.Contract) (evidence : CategoryOrder) (token : String) : Bool :=
  token ∉ evidence.ascendingTokens &&
    !endpoint.nilDeclarations.any (fun nil => nil.value = .category token)

def validateCategoryOrder (kind : RangeKind) (endpoint : Scalar.Contract) :
    Option CategoryOrder → Except RangeError (Option CategoryOrder)
  | none => .ok none
  | some evidence =>
      match endpoint.component with
      | .category codeSpace constraint =>
          if unfitOrder kind codeSpace evidence then .error .categoryOrder
          else
            match constraint with
            | some (.values values) =>
                if values.any (leavesOut endpoint evidence) then .error .categoryOrder
                else .ok (some evidence)
            | _ => .ok (some evidence)
      | _ => .error .categoryOrder

/-- A compiled range: its endpoints are of its kind, and its order was validated. -/
structure RangeContract where
  kind : RangeKind
  endpoint : Scalar.Contract
  categoryOrder : Option CategoryOrder
  ofKind : endpoint.component.rangeKind = some kind
  validated : ∃ evidence, validateCategoryOrder kind endpoint evidence = .ok categoryOrder

/-! ### The order of a pair -/

/-- What a comparison concludes. -/
def concluded : Option Ordering → Except RangeError OrderCheck
  | some .gt => .error .reversedBounds
  | some _ => .ok .established
  | none => .ok .unorderedSpecial

def CategoryOrder.position (order : CategoryOrder) (token : String) : Except RangeError Nat :=
  match order.ascendingTokens.idxOf? token with
  | some i => .ok i
  | none => .error .categoryOrder

def checkCategories (order : Option CategoryOrder) (low high : String) :
    Except RangeError OrderCheck :=
  match order with
  | none => .ok .unresolvedCategory
  | some order => do
      let i ← order.position low
      let j ← order.position high
      concluded (some (compare i j))

def checkPositions : TimePosition → TimePosition → Except RangeError OrderCheck
  | .numeric a, .numeric b => concluded (a.partialCmp b)
  | .calendar (.utc a), .calendar (.utc b) => concluded (some (a.cmp b))
  | .calendar (.unresolved a), .calendar (.unresolved b) =>
      if a = b then concluded (some .eq) else .ok .unresolvedTimeFrame
  | .numeric .negativeInfinity, .calendar _ | .calendar _, .numeric .positiveInfinity =>
      concluded (some .lt)
  | .numeric .positiveInfinity, .calendar _ | .calendar _, .numeric .negativeInfinity =>
      concluded (some .gt)
  | .numeric .nan, _ | _, .numeric .nan => concluded none
  | _, _ => .ok .unresolvedTimeFrame

namespace RangeContract

def checkOrder (contract : RangeContract) (low high : Scalar.Value) :
    Except RangeError OrderCheck :=
  match low, high with
  | .measured (.count a), .measured (.count b) => concluded (some (a.number.cmp b.number))
  | .measured (.quantity a), .measured (.quantity b) => concluded (a.partialCmp b)
  | .category a, .category b => checkCategories contract.categoryOrder a b
  | .measured (.time p _), .measured (.time q _) => checkPositions p q
  | _, _ => .error (.endpoint .valueType)

/-- An endpoint that is no sentinel is a token outside the order. -/
def unordered (contract : RangeContract) (endpoint : Scalar.Checked) : Bool :=
  contract.categoryOrder.any (fun order =>
    endpoint.nilReason.isNone &&
      match endpoint.value with
      | .category token => token ∉ order.ascendingTokens
      | _ => false)

/-- What `check_value` does with checked endpoints. -/
def checkEndpoints (contract : RangeContract) (low high : Scalar.Checked) :
    Except RangeError CheckedRangeValue :=
  if contract.unordered low || contract.unordered high then .error .categoryOrder
  else if low.nilReason.isSome || high.nilReason.isSome then .ok ⟨low, high, .nilEndpoint⟩
  else (contract.checkOrder low.value high.value).map (fun order => ⟨low, high, order⟩)

def checkEndpoint (reader : JsonReader) (contract : RangeContract) (text : String) :
    Except RangeError Scalar.Checked :=
  (contract.endpoint.checkRangeEndpoint reader (encode text)).mapError .endpoint

def checkValue (reader : JsonReader) (contract : RangeContract) (input : Bytes) :
    Except RangeError CheckedRangeValue :=
  match reader.parse input with
  | .error failure => .error (.syntaxError failure)
  | .ok _ =>
      match reader.rawItems input with
      | some [low, high] => do
          let low ← contract.checkEndpoint reader low
          let high ← contract.checkEndpoint reader high
          contract.checkEndpoints low high
      | _ => .error .cardinality

end RangeContract

end Standards
end Glaux
