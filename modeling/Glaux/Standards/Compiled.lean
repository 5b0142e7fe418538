import Glaux.Standards.Aggregate
import Glaux.Standards.References.Graph

/-!
# Compiled contracts (`compiled.rs`)

A plan has one node for each declaration and inherited frame that is met from the root.  A node
is entered in the table before its edges are followed, so that repeated references share it.
`room` bounds the nesting; one budget, shared by all members of a wrapper, exceeds it nowhere.
The compilers of leaves are a parameter.
-/

namespace Glaux
namespace Standards
namespace Compiled

open Library Domain

/-- `AggregateError`, as far as compiled plans report it. -/
inductive AggregateError where
  /-- `Structure` -/
  | structural
  | unsupportedFeature
  | metadata
  | duplicateName
  | emptyVector
  | coordinateType
  | coordinateReferenceFrame
  | coordinateAxis
  | optionalCoordinate
  | choiceCardinality
  | missingElementCount
  | elementCount
  | countReference
  | scalar (error : ScalarError)
deriving DecidableEq

/-- `EG` are the errors of geometries, `ER` those of ranges. -/
inductive CompileError (ER EG : Type) where
  | syntaxError (failure : Failure)
  /-- `Structure` -/
  | structural
  | mediaType
  | limit
  | resolution (error : ReferenceError)
  | reference (error : Quality.QualityBindingError)
  | scalar (error : ScalarError)
  | range (error : ER)
  | geometry (error : EG)
  | aggregate (error : AggregateError)

/-- `MAX_COMPILED_SOURCE_BYTES` -/
def maxCompiledSourceBytes : Nat := maxBytes * maxDepth

inductive Encoding where
  | json | text | binary
deriving DecidableEq

/-- `EncodingDescriptor` -/
structure EncodingDescriptor where
  kind : Encoding
  source : Bytes
  value : Json

structure AggregateMetadata where
  id : Option String
  definition : Option String
  label : Option String
  description : Option String
  optional : Option Bool
  updatable : Option Bool
deriving DecidableEq

/-- `ElementCount`, over numeric constraints `C`. -/
inductive ElementCount (C : Type) where
  | inline (metadata : AggregateMetadata) (referenceFrame axisId : Option String)
      (constraint : C) (value : Option CountValue)
  | reference (href : String) (role arcrole title : Option String)

structure AggregateDescription (C : Type) where
  kind : Contract
  metadata : AggregateMetadata
  referenceFrame : Option String
  localFrame : Option String
  elementCount : Option (ElementCount C)

/-- `CompiledSemantics`, over scalar contracts `Sc`, ranges `Ra` and geometries `Ge`. -/
inductive CompiledSemantics (Sc Ra Ge C : Type) where
  | scalar (contract : Sc)
  | range (contract : Ra)
  | geometry (contract : Ge)
  | aggregate (description : AggregateDescription C)
  | elementCount (count : ElementCount C)

/-- What leaves and encodings are compiled with. -/
structure Leaves (Sc Ra Ge C ER EG : Type) where
  reader : JsonReader
  /-- `ScalarContract::compile` -/
  scalar : Bytes → Except ScalarError Sc
  /-- `ScalarContract::compile_vector_coordinate` -/
  coordinate : Bytes → String → Except ScalarError Sc
  /-- `RangeContract::compile` -/
  range : Bytes → Except ER Ra
  /-- `GeometryContract::compile` -/
  geometry : Bytes → Except EG Ge
  /-- `scalar::element_count` -/
  elementCount : Json → Option String → Except ScalarError (C × Option CountValue)
  isUriReference : String → Bool
  /-- `validate_encoding` -/
  validEncoding : Encoding → Bytes → Bool

inductive BindingTarget (m : Nat) where
  | localTo (node : Nat)
  | nonlocal (reference : Fin m)
deriving DecidableEq

structure CompiledBinding (m : Nat) where
  slot : Slot
  name : Option String
  target : BindingTarget m
deriving DecidableEq

structure CompiledNode (Sc Ra Ge C : Type) (n m : Nat) where
  declaration : Fin (n + 1)
  inheritedFrame : Option String
  semantics : CompiledSemantics Sc Ra Ge C
  bindings : List (CompiledBinding m)
  encoding : Option EncodingDescriptor

structure Budget where
  sourceBytes : Nat
  contexts : Nat

variable {Sc Ra Ge C ER EG : Type} {n m : Nat}

section Code

/-- `aggregate::optional_string`. -/
def optionalString (source : Json) (member : String) : Except AggregateError (Option String) :=
  match source.get? member with
  | none => .ok none
  | some value =>
      match value.asString? with
      | some text => .ok (some text)
      | none => .error .metadata

/-- `aggregate::metadata`. -/
def metadata (source : Json) : Except AggregateError AggregateMetadata := do
  let id ← optionalString source "id"
  let definition ← optionalString source "definition"
  let label ← optionalString source "label"
  let description ← optionalString source "description"
  .ok ⟨id, definition, label, description, (source.get? "optional").bind Json.asBool?,
    (source.get? "updatable").bind Json.asBool?⟩

def has (source : Json) (members : List String) : Bool :=
  members.any fun member => (source.get? member).isSome

namespace Budget

def source {ER EG : Type} (budget : Budget) (bytes : Nat) : Except (CompileError ER EG) Budget :=
  if budget.sourceBytes + bytes ≤ maxCompiledSourceBytes then
    .ok { budget with sourceBytes := budget.sourceBytes + bytes }
  else .error .limit

def context {ER EG : Type} (budget : Budget) (bytes : Nat) : Except (CompileError ER EG) Budget :=
  if budget.contexts + 1 > maxTraversalSteps then .error .limit
  else Budget.source { budget with contexts := budget.contexts + 1 } bytes

end Budget

variable (leaves : Leaves Sc Ra Ge C ER EG)

/-- `array::count`. -/
def count (source : Json) (raw : Bytes) : Except AggregateError (ElementCount C) :=
  if (source.get? "href").isSome then
    if has source Index.mixedMembers then .error .countReference
    else do
      let href ← optionalString source "href"
      match href with
      | none => .error .countReference
      | some href =>
          if leaves.isUriReference href = false ∨ href = "" ∨ href = "#" then .error .countReference
          else do
            let role ← optionalString source "role"
            let arcrole ← optionalString source "arcrole"
            let title ← optionalString source "title"
            .ok (.reference href role arcrole title)
  else if (source.get? "type").any fun kind => kind.asString? ≠ some "Count" then
    .error .elementCount
  else if has source ["nilValues", "quality"] then .error .unsupportedFeature
  else
    match leaves.reader.rawMembers raw with
    | none => .error .elementCount
    | some members => do
        let (constraint, value) ←
          (leaves.elementCount source (members.lookup "value")).mapError .scalar
        if value.any fun value => value.number.value ≤ 0 then .error .elementCount
        else do
          let metadata ← metadata source
          let referenceFrame ← optionalString source "referenceFrame"
          let axisId ← optionalString source "axisID"
          .ok (.inline metadata referenceFrame axisId constraint value)

/-- `EncodingDescriptor::compile`. -/
def EncodingDescriptor.compile (raw : String) (expected : Option Encoding) :
    Except (CompileError ER EG) EncodingDescriptor := do
  let value ← (leaves.reader.parse (encode raw)).mapError .syntaxError
  let kind ← match (value.get? "type").bind Json.asString? with
    | some "JSONEncoding" => .ok Encoding.json
    | some "TextEncoding" => .ok .text
    | some "BinaryEncoding" => .ok .binary
    | _ => .error .structural
  if expected.any fun expected => expected ≠ kind then .error .structural
  else if leaves.validEncoding kind (encode raw) = false then .error .structural
  else .ok ⟨kind, encode raw, value⟩

variable (g : ComponentGraph n m)

/-- The kinds that declare a frame of their own. -/
def framed : Contract → Bool
  | .vector | .matrix | .count | .quantity | .time => true
  | _ => false

/-- Whether a declaration is the element count of an array. -/
def isElementCount (declaration : Fin (n + 1)) : Bool :=
  (List.finRange (n + 1)).any fun node => (g.edges node).any fun edge =>
    edge.slot = .elementCount && edge.target = .component declaration

/-- What a vector asks of a coordinate. -/
def checkCoordinate (target : Option (Fin (n + 1))) : Except (CompileError ER EG) Unit :=
  match target with
  | none => .error (.aggregate .coordinateType)
  | some target =>
      let kind := (g.components target).kind
      if ¬ (kind = .count ∨ kind = .quantity ∨ kind = .time) then
        .error (.aggregate .coordinateType)
      else do
        let child ← (leaves.reader.parse (g.components target).source).mapError .syntaxError
        if (child.get? "referenceFrame").isSome then .error (.aggregate .coordinateReferenceFrame)
        else if ((child.get? "axisID").bind Json.asString?).all fun axis => axis = "" then
          .error (.aggregate .coordinateAxis)
        else if (child.get? "optional").bind Json.asBool? = some true then
          .error (.aggregate .optionalCoordinate)
        else .ok ()

/-- The loop over the children of an aggregate; the names before are kept. -/
def checkChildren (kind : Contract) :
    List String → List (Edge (n + 1) m) → Except (CompileError ER EG) Unit
  | _, [] => .ok ()
  | names, edge :: edges =>
      match (g.edgeName edge).filter validName with
      | none => .error (.aggregate .structural)
      | some name =>
          if name ∈ names then .error (.aggregate .duplicateName)
          else do
            if kind = .vector then checkCoordinate leaves g (g.target edge) else .ok ()
            checkChildren kind (name :: names) edges

/-- `Builder::aggregate`. -/
def aggregate (declaration : Fin (n + 1)) (kind : Contract) (source : Json)
    (raw : List (String × String)) : Except (CompileError ER EG) (AggregateDescription C) := do
  let array := kind = .dataArray ∨ kind = .matrix
  if has source ["value", "quality", "nilValues", "constraint"] then
    .error (.aggregate .unsupportedFeature)
  else if array ∧ (source.get? "values").isSome then .error (.aggregate .unsupportedFeature)
  else do
    let metadata ← (metadata source).mapError .aggregate
    let (referenceFrame, localFrame) ←
      if kind = .vector ∨ kind = .matrix then do
        let referenceFrame ← (optionalString source "referenceFrame").mapError .aggregate
        let localFrame ← (optionalString source "localFrame").mapError .aggregate
        .ok (referenceFrame, localFrame)
      else .ok (none, none)
    if kind = .vector ∧
        (referenceFrame = none ∨ localFrame.isSome ∧ localFrame = referenceFrame) then
      .error (.aggregate .metadata)
    else do
      checkChildren leaves g kind [] (g.payloadEdges declaration)
      let children := (g.payloadEdges declaration).length
      if kind = .vector ∧ children = 0 then .error (.aggregate .emptyVector)
      else if kind = .dataChoice ∧ children < 2 then .error (.aggregate .choiceCardinality)
      else if array then
        match source.get? "elementCount", raw.lookup "elementCount" with
        | some count, some raw => do
            let count ← (Compiled.count leaves count (encode raw)).mapError .aggregate
            .ok ⟨kind, metadata, referenceFrame, localFrame, some count⟩
        | _, _ => .error (.aggregate .missingElementCount)
      else .ok ⟨kind, metadata, referenceFrame, localFrame, none⟩

/-- The frame a declaration declares itself. -/
def ownFrame (kind : Contract) (source : Json) : Except (CompileError ER EG) (Option String) :=
  if framed kind then (optionalString source "referenceFrame").mapError .aggregate else .ok none

/-- The meaning of a declaration under an inherited frame. -/
def semantics (declaration : Fin (n + 1)) (inherited own : Option String) (source : Json)
    (raw : List (String × String)) : Except (CompileError ER EG) (CompiledSemantics Sc Ra Ge C) :=
  let input := (g.components declaration).source
  let kind := (g.components declaration).kind
  if isElementCount g declaration then
    ((count leaves source input).mapError .aggregate).map .elementCount
  else
    match kind with
    | .boolean | .text | .category | .count | .quantity | .time =>
        match own, inherited with
        | none, some frame => ((leaves.coordinate input frame).mapError .scalar).map .scalar
        | _, _ => ((leaves.scalar input).mapError .scalar).map .scalar
    | .categoryRange | .countRange | .quantityRange | .timeRange =>
        ((leaves.range input).mapError .range).map .range
    | .geometry => ((leaves.geometry input).mapError .geometry).map .geometry
    | .dataRecord | .vector | .dataChoice | .dataArray | .matrix =>
        (aggregate leaves g declaration kind source raw).map .aggregate

/-- The encoding an array declares. -/
def encoding (kind : Contract) (raw : List (String × String)) :
    Except (CompileError ER EG) (Option EncodingDescriptor) :=
  if kind = .dataArray ∨ kind = .matrix then
    match raw.lookup "encoding" with
    | some raw => (EncodingDescriptor.compile leaves raw none).map some
    | none => .ok none
  else .ok none

/-- `Builder::node`, up to the edges: the node without its bindings, and its own frame. -/
def describe (declaration : Fin (n + 1)) (inherited : Option String) :
    Except (CompileError ER EG) (Option String × CompiledNode Sc Ra Ge C n m) := do
  let input := (g.components declaration).source
  let source ← (leaves.reader.parse input).mapError .syntaxError
  let raw ← okOr (leaves.reader.rawMembers input) .structural
  let own ← ownFrame (g.components declaration).kind source
  let semantics ← semantics leaves g declaration inherited own source raw
  let encoding ← encoding leaves (g.components declaration).kind raw
  .ok (own, ⟨declaration, inherited, semantics, [], encoding⟩)

/-- The frame a child inherits. -/
def childFrame (kind : Contract) (own inherited : Option String) (slot : Slot) : Option String :=
  if kind = .vector ∧ slot = .component then own
  else if kind = .matrix ∧ slot = .elementType then own <|> inherited
  else none

/-- A declaration with the frame it inherits. -/
abbrev Key (n : Nat) := Fin (n + 1) × Option String

/-- The parts of a `Builder` that change. -/
structure Table (Sc Ra Ge C : Type) (n m : Nat) where
  nodes : List (CompiledNode Sc Ra Ge C n m)
  indices : List (Key n × Nat)
  budget : Budget

variable {leaves g}

namespace Table

/-- A new node. -/
def enter (table : Table Sc Ra Ge C n m) (budget : Budget) (node : CompiledNode Sc Ra Ge C n m) :
    Table Sc Ra Ge C n m :=
  ⟨table.nodes ++ [node],
    table.indices ++ [((node.declaration, node.inheritedFrame), table.nodes.length)], budget⟩

/-- `nodes[index].bindings.push(binding)`. -/
def bind (table : Table Sc Ra Ge C n m) (index : Nat) (binding : CompiledBinding m) :
    Table Sc Ra Ge C n m :=
  { table with nodes := table.nodes.modify index fun node =>
      { node with bindings := node.bindings ++ [binding] } }

end Table

variable (leaves g)

/-- The target of a reference that is not local. -/
def nonlocalTarget (edge : Edge (n + 1) m) : Except (CompileError ER EG) (BindingTarget m) :=
  match edge.target with
  | .component _ => .error .structural
  | .reference reference => .ok (.nonlocal reference)

/-- `Builder::node` below. -/
abbrev Visit (Sc Ra Ge C ER EG : Type) (n m : Nat) :=
  Key n → Table Sc Ra Ge C n m → Except (CompileError ER EG) (Nat × Table Sc Ra Ge C n m)

/-- The target of the next binding. -/
def bindingTarget (visit : Visit Sc Ra Ge C ER EG n m) (kind : Contract)
    (own inherited : Option String) (edge : Edge (n + 1) m) (table : Table Sc Ra Ge C n m) :
    Except (CompileError ER EG) (BindingTarget m × Table Sc Ra Ge C n m) :=
  match g.target edge with
  | some target => do
      let (node, table) ← visit (target, childFrame kind own inherited edge.slot) table
      .ok (.localTo node, table)
  | none => do
      let target ← nonlocalTarget edge
      .ok (target, table)

/-- The loop over the edges of a node. -/
def follow (visit : Visit Sc Ra Ge C ER EG n m) (index : Nat) (kind : Contract)
    (own inherited : Option String) :
    List (Edge (n + 1) m) → Table Sc Ra Ge C n m → Except (CompileError ER EG) (Table Sc Ra Ge C n m)
  | [], table => .ok table
  | edge :: edges, table => do
      let (target, table) ← bindingTarget g visit kind own inherited edge table
      follow visit index kind own inherited edges
        (table.bind index ⟨edge.slot, g.edgeName edge, target⟩)

/-- `Builder::node`. -/
def node : Nat → Visit Sc Ra Ge C ER EG n m
  | 0, _, _ => .error .limit
  | room + 1, key, table =>
      match table.indices.lookup key with
      | some index => .ok (index, table)
      | none => do
          let index := table.nodes.length
          let budget ← table.budget.context (g.components key.1).source.length
          let (own, described) ← describe leaves g key.1 key.2
          let table ← follow g (node room) index (g.components key.1).kind own key.2
            (g.edges key.1) (table.enter budget described)
          .ok (index, table)

variable {S R : Type}

/-- `ComponentPlan`, of a graph of any size. -/
structure ComponentPlan (S R Sc Ra Ge C : Type) where
  member : Option String
  size : Nat
  references : Nat
  quality : Quality.QualityReferencePlan S R size references
  nodes : List (CompiledNode Sc Ra Ge C size references)

/-- The plan of a resolved document. -/
def ComponentPlan.ofResolved {readers : Readers S R} {input : SubmittedBytes}
    {options : CountReferenceSchema} {resolution : Index.Resolution}
    (compilers : Quality.Compilers S R) (member : Option String) (budget : Budget)
    (h : Index.resolve readers input options = .ok resolution) :
    Except (CompileError ER EG) (ComponentPlan S R Sc Ra Ge C × Budget) := do
  let g := Index.graphOf (Index.resolved_of_resolve h) (Index.size_of_resolve h) input.bytes
  let quality ← (Quality.QualityReferencePlan.compile compilers g).mapError .reference
  let (_, table) ← node leaves quality.graph (maxTraversalSteps + 1) (0, none) ⟨[], [], budget⟩
  .ok (⟨member, _, _, quality, table.nodes⟩, table.budget)

/-- `ComponentPlan::compile`; the budget is charged before the graph is resolved. -/
def ComponentPlan.compile (readers : Readers S R) (compilers : Quality.Compilers S R)
    (input : SubmittedBytes) (member : Option String) (options : CountReferenceSchema)
    (budget : Budget) :
    Except (CompileError ER EG) (ComponentPlan S R Sc Ra Ge C × Budget) := do
  let budget ← budget.source input.bytes.length
  match h : Index.resolve readers input options with
  | .error error => .error (.resolution error)
  | .ok _ => ComponentPlan.ofResolved leaves compilers member budget h

inductive Descriptor where
  | component | observationJson | commandJson | observationSwe | commandSwe
deriving DecidableEq

/-- The members of a wrapper that are component descriptors. -/
def Descriptor.members : Descriptor → List String
  | .component => []
  | .observationJson => ["resultSchema", "parametersSchema"]
  | .commandJson => ["parametersSchema", "resultSchema", "feasibilityResultSchema"]
  | .observationSwe | .commandSwe => ["recordSchema"]

/-- The member that names the format of a wrapper with an encoding. -/
def Descriptor.format : Descriptor → Option String
  | .observationSwe => some "obsFormat"
  | .commandSwe => some "commandFormat"
  | _ => none

structure CompiledContract (S R Sc Ra Ge C : Type) where
  source : Bytes
  mediaType : String
  descriptor : Descriptor
  plans : List (ComponentPlan S R Sc Ra Ge C)
  encoding : Option EncodingDescriptor

/-- The encoding of a wrapper, which its format announces. -/
def wrapperEncoding (descriptor : Descriptor) (value : Json) (raw : List (String × RawValue)) :
    Except (CompileError ER EG) (Option EncodingDescriptor) :=
  match descriptor.format with
  | none => .ok none
  | some format => do
      let encoding ← okOr (raw.lookup "encoding") .structural
      let expected ← match (value.get? format).bind Json.asString? with
        | some "application/swe+json" => .ok Encoding.json
        | some "application/swe+text" | some "application/swe+csv" => .ok .text
        | some "application/swe+binary" => .ok .binary
        | _ => .error .structural
      (EncodingDescriptor.compile leaves encoding.text (some expected)).map some

/-- The loop over the members of a wrapper, with one budget. -/
def compileMembers (readers : Readers S R) (compilers : Quality.Compilers S R)
    (options : CountReferenceSchema) (raw : List (String × RawValue)) :
    List String → Budget →
      Except (CompileError ER EG) (List (ComponentPlan S R Sc Ra Ge C) × Budget)
  | [], budget => .ok ([], budget)
  | member :: members, budget =>
      match raw.lookup member with
      | none => compileMembers readers compilers options raw members budget
      | some source => do
          let (plan, budget) ← ComponentPlan.compile leaves readers compilers
            ⟨source.address, encode source.text⟩ (some member) options budget
          let (plans, budget) ← compileMembers readers compilers options raw members budget
          .ok (plan :: plans, budget)

/-- The plans of a descriptor, on a budget of their own. -/
def compilePlans (readers : Readers S R) (compilers : Quality.Compilers S R)
    (options : CountReferenceSchema) (descriptor : Descriptor) (input : SubmittedBytes)
    (raw : List (String × RawValue)) :
    Except (CompileError ER EG) (List (ComponentPlan S R Sc Ra Ge C)) :=
  if descriptor = .component then
    (ComponentPlan.compile leaves readers compilers input none options ⟨0, 0⟩).map fun plan => [plan.1]
  else (compileMembers leaves readers compilers options raw descriptor.members ⟨0, 0⟩).map (·.1)

/-- The whole wrapper is checked, not its members alone. -/
def wrapperStructure (structured : Descriptor → Bytes → Except AggregateError SourceValidation)
    (descriptor : Descriptor) (input : Bytes) : Except (CompileError ER EG) Unit :=
  if descriptor = .component then .ok ()
  else ((structured descriptor input).mapError .aggregate).map fun _ => ()

/-- `CompiledContract::compile`; `structured` is `array::structure` for the wrapper of a
descriptor, and a component has none. -/
def CompiledContract.compile (readers : Readers S R) (compilers : Quality.Compilers S R)
    (structured : Descriptor → Bytes → Except AggregateError SourceValidation)
    (input : SubmittedBytes) (mediaType : String) (descriptor : Descriptor)
    (options : CountReferenceSchema) :
    Except (CompileError ER EG) (CompiledContract S R Sc Ra Ge C) :=
  if mediaType.utf8ByteSize = 0 ∨ mediaType.utf8ByteSize > 256 ∨
      (encode mediaType).any fun byte => byte < 0x20 || 0x7e < byte then .error .mediaType
  else do
    let value ← (Validation.parse readers.borrowing.serde input.bytes).mapError .syntaxError
    let (start, text) ← okOr (readers.borrowing.whole input.bytes) .structural
    let raw ← okOr (RawValue.members readers.borrowing ⟨input.address + start, text⟩) .structural
    wrapperStructure structured descriptor input.bytes
    let encoding ← wrapperEncoding leaves descriptor value raw
    let plans ← compilePlans leaves readers compilers options descriptor input raw
    .ok ⟨input.bytes, mediaType, descriptor, plans, encoding⟩

end Code

end Compiled
end Standards
end Glaux
