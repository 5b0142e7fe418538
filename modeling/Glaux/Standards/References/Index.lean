import Glaux.Standards.Quality.Assertions
import Glaux.Standards.References
import Glaux.Standards.Validation.Borrowing

/-!
# Indexing a document (`references.rs`)

`Index::component` walks a parsed document beside its raw values and collects its declarations,
its references and the edges between them, with the range of bytes each was read from.  The
children of a component are visited by the same function; `room` bounds the nesting, which no
document within the component limit exceeds.
-/

namespace Glaux
namespace Standards

open Library

inductive ReferenceError where
  /-- `Syntax` -/
  | syntaxError (failure : Failure)
  /-- `Structure` -/
  | structural
  | unsupportedComponent
  | invalidReference
  | invalidTarget
  | inlineElementValue
  | duplicateId
  | unresolvedLocal
  | cycle
  | componentLimit
  | referenceLimit
  | depthLimit
  | traversalLimit
  | adaptationSourceChanged
  | quality (error : Quality.QualityError)
deriving DecidableEq

def maxComponents : Nat := 512

def maxReferences : Nat := 512

/-- One step of a JSON pointer to a declaration. -/
inductive Segment where
  | choiceValue
  | elementCount
  | elementType
  | member (name : String) (offset : Nat)
  | quality (offset : Nat)
deriving DecidableEq

def Segment.text : Segment → String
  | .choiceValue => "/choiceValue"
  | .elementCount => "/elementCount"
  | .elementType => "/elementType"
  | .member name offset => "/" ++ name ++ "/" ++ toString offset
  | .quality offset => "/quality/" ++ toString offset

abbrev Pointer := List Segment

/-- The pointer as it is reported; the root pointer is empty. -/
def pointerText (path : Pointer) : String := String.join (path.map Segment.text)

inductive IndexedTarget where
  | component (node : Nat)
  | reference (index : Nat)
deriving DecidableEq

structure IndexedEdge where
  target : IndexedTarget
  slot : Slot

/-- A `ComponentNode`, with its entries of `edges` and `has_value`. -/
structure IndexedNode where
  id : Option String
  name : Option String
  kind : Contract
  path : Pointer
  source : ByteRange
  hasValue : Bool
  edges : List IndexedEdge

/-- A `ComponentReference` before its target is resolved. -/
structure IndexedReference where
  owner : Nat
  kind : ReferenceKind
  name : Option String
  path : Pointer
  source : ByteRange
  href : String
  role : Option String
  arcrole : Option String
  title : Option String

structure Index where
  components : List IndexedNode
  references : List IndexedReference
  ids : List (String × Nat)

inductive CountReferenceSchema where
  | original
  | disjointReferenceCorrection
deriving DecidableEq

inductive SourceValidation where
  | original
  | countReferenceCorrection
deriving DecidableEq

/-- What a document is indexed with. -/
structure Readers (S R : Type) where
  borrowing : Borrowing
  compilers : Quality.EntryCompilers S R
  /-- `structure` -/
  structured : CountReferenceSchema → Contract → Bytes → Except ReferenceError SourceValidation

variable {S R : Type}

/-! ### Members -/

def optionalString (value : Json) (name : String) : Except ReferenceError (Option String) :=
  match value.get? name with
  | none => .ok none
  | some member =>
      match member.asString? with
      | some text => .ok (some text)
      | none => .error .structural

def componentKind (value : Json) : Except ReferenceError Contract :=
  match (value.get? "type").bind Json.asString? with
  | some "Boolean" => .ok .boolean
  | some "Text" => .ok .text
  | some "Category" => .ok .category
  | some "Count" => .ok .count
  | some "Quantity" => .ok .quantity
  | some "Time" => .ok .time
  | some "CategoryRange" => .ok .categoryRange
  | some "CountRange" => .ok .countRange
  | some "QuantityRange" => .ok .quantityRange
  | some "TimeRange" => .ok .timeRange
  | some "DataRecord" => .ok .dataRecord
  | some "Vector" => .ok .vector
  | some "DataChoice" => .ok .dataChoice
  | some "DataArray" => .ok .dataArray
  | some "Matrix" => .ok .matrix
  | some "Geometry" => .ok .geometry
  | _ => .error .unsupportedComponent

/-- The name of a component, if it is text. -/
def nameOf (value : Json) : Option String := (value.get? "name").bind Json.asString?

def Contract.isArray (kind : Contract) : Bool := kind = .dataArray || kind = .matrix

/-- The member that holds the children of a component. -/
def Contract.childMember : Contract → Option String
  | .dataRecord => some "fields"
  | .vector => some "coordinates"
  | .dataChoice => some "items"
  | _ => none

/-- The kinds that may carry quality. -/
def Contract.carriesQuality : Contract → Bool
  | .boolean | .text | .category | .count | .quantity | .time | .categoryRange | .countRange
  | .quantityRange | .timeRange => true
  | .dataRecord | .vector | .dataChoice | .dataArray | .matrix | .geometry => false

namespace Index

section Code

variable (readers : Readers S R) (input : SubmittedBytes) (options : CountReferenceSchema)

def empty : Index := ⟨[], [], []⟩

/-- `edges[node].push(edge)`. -/
def pushEdge (node : Nat) (edge : IndexedEdge) (index : Index) : Index :=
  { index with
    components := index.components.modify node fun component =>
      { component with edges := component.edges ++ [edge] } }

def sourceRange (raw : RawValue) : Except ReferenceError ByteRange :=
  if raw.address < input.address then .error .structural
  else
    let start := raw.address - input.address
    let stop := start + raw.text.utf8ByteSize
    if stop ≤ input.bytes.length then .ok ⟨start, stop⟩ else .error .structural

/-- A new declaration; its id must be new. -/
def declare (value : Json) (raw : RawValue) (path : Pointer) (kind : Contract) (index : Index) :
    Except ReferenceError Index := do
  let id ← optionalString value "id"
  let node := index.components.length
  if id.any (fun id => (index.ids.lookup id).isSome) then .error .duplicateId
  else do
    let range ← sourceRange input raw
    .ok { index with
      ids := index.ids ++ id.toList.map (fun id => (id, node))
      components := index.components ++
        [{ id := id, name := nameOf value, kind := kind, path := path, source := range,
           hasValue := (value.get? "value").isSome ||
             (kind.isArray && (value.get? "values").isSome)
           edges := [] }] }

/-- The members that make a count reference no reference. -/
def mixedMembers : List String :=
  ["type", "value", "constraint", "nilValues", "referenceFrame", "axisID"]

/-- `reference`. -/
def reference (owner : Nat) (value : Json) (raw : RawValue) (path : Pointer)
    (kind : ReferenceKind) (index : Index) : Except ReferenceError (IndexedTarget × Index) :=
  if maxReferences ≤ index.references.length then .error .referenceLimit
  else if kind = .elementCount ∧ mixedMembers.any (fun name => (value.get? name).isSome) then
    .error .invalidReference
  else do
    let href ← optionalString value "href"
    match href with
    | none => .error .invalidReference
    | some href =>
        if href = "" ∨ href = "#" then .error .invalidReference
        else do
          let range ← sourceRange input raw
          let role ← optionalString value "role"
          let arcrole ← optionalString value "arcrole"
          let title ← optionalString value "title"
          .ok (.reference index.references.length, { index with
            references := index.references ++
              [⟨owner, kind, nameOf value, path, range, href, role, arcrole, title⟩] })

/-- The function that indexes a component inside another one. -/
abbrev Visit := Json → RawValue → Pointer → Contract → Index → Except ReferenceError (Nat × Index)

/-- A component as the target of an edge. -/
def inline (visit : Visit) (value : Json) (raw : RawValue) (path : Pointer) (kind : Contract)
    (index : Index) : Except ReferenceError (IndexedTarget × Index) := do
  let (node, index) ← visit value raw path kind index
  .ok (.component node, index)

/-- `child`. -/
def child (visit : Visit) (owner : Nat) (value : Json) (raw : RawValue) (path : Pointer)
    (index : Index) : Except ReferenceError (IndexedTarget × Index) :=
  let linked := (value.get? "href").isSome
  match componentKind value with
  | .ok kind =>
      if !linked || (readers.structured options kind (encode raw.text)).isOk then
        inline visit value raw path kind index
      else reference input owner value raw path .component index
  | .error _ =>
      if linked then reference input owner value raw path .component index
      else .error .unsupportedComponent

/-- A member and its raw value. -/
def withRaw (value : Json) (members : List (String × RawValue)) (name : String) :
    Except ReferenceError (Option (Json × RawValue)) :=
  match value.get? name, members.lookup name with
  | none, _ => .ok none
  | some _, none => .error .structural
  | some member, some raw => .ok (some (member, raw))

/-- The branch of choices. -/
def choiceSlot (visit : Visit) (kind : Contract) (node : Nat) (value : Json)
    (members : List (String × RawValue)) (path : Pointer) (index : Index) :
    Except ReferenceError Index :=
  if kind = .dataChoice then do
    match ← withRaw value members "choiceValue" with
    | none => .ok index
    | some (selector, raw) =>
        let (target, index) ←
          inline visit selector raw (path ++ [.choiceValue]) .category index
        .ok (index.pushEdge node ⟨target, .selector⟩)
  else .ok index

def countTarget (visit : Visit) (node : Nat) (count : Json) (raw : RawValue) (path : Pointer)
    (index : Index) : Except ReferenceError (IndexedTarget × Index) :=
  if (count.get? "href").isSome then reference input node count raw path .elementCount index
  else if (count.get? "type").any (fun kind => kind.asString? ≠ some "Count") then
    .error .invalidTarget
  else inline visit count raw path .count index

def countSlot (visit : Visit) (node : Nat) (value : Json) (members : List (String × RawValue))
    (path : Pointer) (index : Index) : Except ReferenceError Index := do
  match ← withRaw value members "elementCount" with
  | none => .ok index
  | some (count, raw) =>
      let (target, index) ←
        countTarget input visit node count raw (path ++ [.elementCount]) index
      .ok (index.pushEdge node ⟨target, .elementCount⟩)

def elementSlot (visit : Visit) (node : Nat) (value : Json) (members : List (String × RawValue))
    (path : Pointer) (index : Index) : Except ReferenceError Index := do
  match ← withRaw value members "elementType" with
  | none => .error .structural
  | some (element, raw) =>
      let (target, index) ←
        child readers input options visit node element raw (path ++ [.elementType]) index
      .ok (index.pushEdge node ⟨target, .elementType⟩)

/-- The branch of arrays. -/
def arraySlots (visit : Visit) (kind : Contract) (node : Nat) (value : Json)
    (members : List (String × RawValue)) (path : Pointer) (index : Index) :
    Except ReferenceError Index :=
  if kind.isArray then do
    let index ← countSlot input visit node value members path index
    elementSlot readers input options visit node value members path index
  else .ok index

/-- One field, coordinate or item; a coordinate has no association branch. -/
def memberTarget (visit : Visit) (kind : Contract) (node : Nat) (value : Json) (raw : RawValue)
    (path : Pointer) (index : Index) :
    Except ReferenceError (IndexedTarget × Index) :=
  if kind = .vector then do
    let kind ← componentKind value
    inline visit value raw path kind index
  else child readers input options visit node value raw path index

/-- The loop over fields, coordinates or items. -/
def memberSlots (visit : Visit) (kind : Contract) (node : Nat) (path : Pointer)
    (member : String) : Nat → List (Json × RawValue) → Index →
      Except ReferenceError Index
  | _, [], index => .ok index
  | offset, (value, raw) :: rest, index => do
      let (target, index) ← memberTarget readers input options visit kind node value raw
        (path ++ [.member member offset]) index
      memberSlots visit kind node path member (offset + 1) rest
        (index.pushEdge node ⟨target, .component⟩)

def membersSlot (visit : Visit) (kind : Contract) (node : Nat) (value : Json)
    (members : List (String × RawValue)) (path : Pointer) (index : Index) :
    Except ReferenceError Index :=
  match kind.childMember with
  | none => .ok index
  | some member =>
      match (value.get? member).bind Json.asArray?,
        (members.lookup member).bind (·.items readers.borrowing) with
      | some children, some raws =>
          memberSlots readers input options visit kind node path member 0 (children.zip raws)
            index
      | _, _ => .error .structural

/-- One quality entry. -/
def qualityTarget (visit : Visit) (node : Nat) (value : Json) (raw : RawValue) (path : Pointer)
    (index : Index) : Except ReferenceError (IndexedTarget × Index) :=
  if (value.get? "href").isSome then reference input node value raw path .quality index
  else do
    let kind ← componentKind value
    inline visit value raw path kind index

/-- The loop over quality entries. -/
def qualitySlots (visit : Visit) (node : Nat) (path : Pointer) :
    Nat → List RawValue → Index → Except ReferenceError Index
  | _, [], index => .ok index
  | offset, raw :: rest, index =>
      match readers.compilers.generic raw.text with
      | none => .error (.quality .shape)
      | some value => do
          let (target, index) ←
            qualityTarget input visit node value raw (path ++ [.quality offset]) index
          qualitySlots visit node path (offset + 1) rest
            (index.pushEdge node ⟨target, .quality⟩)

def qualitySlot (visit : Visit) (kind : Contract) (node : Nat)
    (members : List (String × RawValue)) (path : Pointer) (index : Index) :
    Except ReferenceError Index :=
  match members.lookup "quality" with
  | none => .ok index
  | some quality =>
      if kind.carriesQuality = false then .error (.quality .unsupportedComponent)
      else
        match Quality.QualityAssertions.compile readers.borrowing.reader readers.compilers
            (some quality.text), quality.items readers.borrowing with
        | .error error, _ => .error (.quality error)
        | .ok _, none => .error (.quality .shape)
        | .ok _, some entries => qualitySlots readers input visit node path 0 entries index

/-- `component`, with the slots of a component in the order they are visited. -/
def component : Nat → Visit
  | 0, _, _, _, _, _ => .error .componentLimit
  | room + 1, value, raw, path, kind, index =>
      if maxComponents ≤ index.components.length then .error .componentLimit
      else do
        let node := index.components.length
        let index ← declare input value raw path kind index
        match raw.members readers.borrowing with
        | none => .error .structural
        | some members => do
            let index ← choiceSlot (component room) kind node value members path index
            let index ←
              arraySlots readers input options (component room) kind node value members path index
            let index ←
              membersSlot readers input options (component room) kind node value members path index
            let index ← qualitySlot readers input (component room) kind node members path index
            .ok (node, index)

/-- `resolve`, up to the passes that resolve targets and follow edges.  More than `maxComponents`
nested components are more than that many. -/
def build : Except ReferenceError (Json × Index) := do
  let value ← (Validation.parse readers.borrowing.serde input.bytes).mapError .syntaxError
  let kind ← componentKind value
  let validation ← readers.structured options kind input.bytes
  let (start, text) ← okOr (readers.borrowing.whole input.bytes) .structural
  let options := match validation with
    | .original => CountReferenceSchema.original
    | .countReferenceCorrection => .disjointReferenceCorrection
  let (_, index) ←
    component readers input options (maxComponents + 1) value ⟨input.address + start, text⟩ []
      kind empty
  .ok (value, index)

end Code

end Index

/-! ### Fragments -/

def hex (byte : UInt8) : Option UInt8 :=
  if 48 ≤ byte ∧ byte ≤ 57 then some (byte - 48)
  else if 97 ≤ byte ∧ byte ≤ 102 then some (byte - 97 + 10)
  else if 65 ≤ byte ∧ byte ≤ 70 then some (byte - 65 + 10)
  else none

/-- The loop of `decode_fragment`. -/
def decodeBytes : Bytes → Option Bytes
  | [] => some []
  | byte :: rest =>
      if byte = 37 then
        match rest with
        | high :: low :: rest => do
            let high ← hex high
            let low ← hex low
            let decoded ← decodeBytes rest
            some ((high * 16 + low) :: decoded)
        | _ => none
      else (decodeBytes rest).map (byte :: ·)

def decodeFragment (fragment : String) : Except ReferenceError String :=
  match (decodeBytes (encode fragment)).bind decode with
  | some id => .ok id
  | none => .error .invalidReference

/-- `strip_prefix('#')`. -/
def localFragment (href : String) : Option String :=
  match href.toList with
  | '#' :: fragment => some (String.ofList fragment)
  | _ => none

/-! ### Targets -/

namespace Index

/-- The kinds a reference may lead to. -/
def targetAllowed : ReferenceKind → Contract → Bool
  | .component, _ => true
  | .elementCount, kind => kind = .count
  | .quality, kind => kind = .quantity || kind = .quantityRange || kind = .category || kind = .text

/-- One reference of `resolve_targets`; a reference that is not local has no target. -/
def resolveTarget (index : Index) (reference : IndexedReference) :
    Except ReferenceError (Option Nat) :=
  match localFragment reference.href with
  | none => .ok none
  | some fragment => do
      let id ← decodeFragment fragment
      match index.ids.lookup id with
      | none => .error .unresolvedLocal
      | some target =>
          if (index.components[target]?).any
              (fun component => targetAllowed reference.kind component.kind) then
            .ok (some target)
          else .error .invalidTarget

def resolveTargets (index : Index) : Except ReferenceError (List (Option Nat)) :=
  index.references.mapM index.resolveTarget

end Index

end Standards
end Glaux
