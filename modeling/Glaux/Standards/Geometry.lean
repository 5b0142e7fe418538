import Glaux.Domain.Geometry
import Glaux.Library.Json.Value
import Glaux.Standards.Validation

/-!
# Geometry value objects (`geometry/value.rs`)

The coordinates of six kinds are read from nested arrays.  The dimension of the positions
is handed from one position to the next: the reference system fixes it, or the first
position does.  What is accepted does not depend on which position is met first.

A raw value stands as its syntax tree.  The raw text of a number is its lexeme, and no
other text is a number token.
-/

namespace Glaux
namespace Standards
namespace Geometry

open Library Domain

/-- The errors of this file and of `check_value`. -/
inductive GeometryError where
  | syntaxError (failure : Failure)
  | structural
  | constraintViolation
  | coordinates
  | dimension
  | ring
  | bbox
deriving DecidableEq

inductive SrsCheck where
  | knownDimensions (dimension : ℕ)
  | unresolved (srs : String)
deriving DecidableEq

section Code

def array (raw : Json) : Except GeometryError (List Json) :=
  match raw with
  | .array items => .ok items
  | _ => .error .coordinates

def number (raw : Json) : Except GeometryError ExactNumber :=
  match raw with
  | .number lexeme => (ExactNumber.parseJsonNumber lexeme).mapError fun _ => .coordinates
  | _ => .error .coordinates

def numbers (raw : Json) : Except GeometryError (List ExactNumber) := do
  let items ← array raw
  items.mapM number

/-- A reader that is handed the dimension and hands it on. -/
abbrev Reader (α : Type) := Json → Option ℕ → Except GeometryError (α × Option ℕ)

def position : Reader Position := fun raw dimension => do
  let ordinates ← numbers raw
  if (ordinates.length ≠ 2 ∧ ordinates.length ≠ 3) ∨
      dimension.any (fun n => n ≠ ordinates.length) then .error .dimension
  else .ok (⟨ordinates⟩, some ordinates.length)

variable {α : Type}

def collect (read : Reader α) : List Json → Option ℕ → Except GeometryError (List α × Option ℕ)
  | [], dimension => .ok ([], dimension)
  | item :: items, dimension => do
      let (first, dimension) ← read item dimension
      let (rest, dimension) ← collect read items dimension
      .ok (first :: rest, dimension)

/-- `array(raw)?.iter().map(…).collect()` -/
def rows (read : Reader α) : Reader (List α) := fun raw dimension => do
  let items ← array raw
  collect read items dimension

def positions : Reader (List Position) := rows position

/-- What has been read must pass a test. -/
def checked (read : Reader α) (test : α → Bool) (error : GeometryError) : Reader α :=
  fun raw dimension => do
    let (value, dimension) ← read raw dimension
    if test value then .ok (value, dimension) else .error error

def line : Reader (List Position) :=
  checked positions (fun positions => 2 ≤ positions.length) .coordinates

/-- `positions.first() == positions.last()` -/
def closed (positions : List Position) : Bool :=
  match positions.head?, positions.getLast? with
  | some first, some last => first.eq last
  | none, none => true
  | _, _ => false

def ring : Reader (List Position) :=
  checked positions (fun positions => 4 ≤ positions.length && closed positions) .ring

def polygon : Reader (List (List Position)) := rows ring

/-- The value of a constructor. -/
def built (read : Reader α) (build : α → GeometryValue) : Reader GeometryValue :=
  fun raw dimension => do
    let (value, dimension) ← read raw dimension
    .ok (build value, dimension)

def kind_from_name (name : String) : Option GeometryKind :=
  if name = "Point" then some .point
  else if name = "MultiPoint" then some .multiPoint
  else if name = "LineString" then some .lineString
  else if name = "MultiLineString" then some .multiLineString
  else if name = "Polygon" then some .polygon
  else if name = "MultiPolygon" then some .multiPolygon
  else none

/-- The coordinates of a kind. -/
def coordinatesOf : GeometryKind → Reader GeometryValue
  | .point => built position .point
  | .multiPoint => built positions .multiPoint
  | .lineString => built line .lineString
  | .multiLineString => built (rows line) .multiLineString
  | .polygon => built polygon .polygon
  | .multiPolygon => built (rows polygon) .multiPolygon

def reserved : List String := ["geometry", "properties", "features"]

def SrsCheck.dimension : SrsCheck → Option ℕ
  | .knownDimensions dimension => some dimension
  | .unresolved _ => none

def boundingBox (raw : Json) (dimension : Option ℕ) :
    Except GeometryError (List ExactNumber) := do
  let bbox ← (numbers raw).mapError fun _ => .bbox
  if (bbox.length ≠ 4 ∧ bbox.length ≠ 6) ∨ dimension.any (fun n => bbox.length ≠ 2 * n) then
    .error .bbox
  else .ok bbox

/-- The value and the box, once the kind is known. -/
def valueOf (kind : GeometryKind) (coordinates : Json) (bbox : Option Json) (srs : SrsCheck) :
    Except GeometryError (GeometryValue × Option (List ExactNumber)) := do
  let (value, dimension) ← coordinatesOf kind coordinates srs.dimension
  match bbox with
  | none => .ok (value, none)
  | some bbox => do
      let bbox ← boundingBox bbox dimension
      .ok (value, some bbox)

def parse (members : List (String × Json)) (srs : SrsCheck) :
    Except GeometryError (GeometryValue × Option (List ExactNumber)) :=
  if reserved.any fun name => (members.lookup name).isSome then .error .structural
  else
    match (members.lookup "type").bind Json.asString? with
    | none => .error .structural
    | some kind =>
        match members.lookup "coordinates" with
        | none => .error .coordinates
        | some coordinates =>
            match kind_from_name kind with
            | none => .error .structural
            | some kind => valueOf kind coordinates (members.lookup "bbox") srs

/-- The dimensions of the reference systems that are known by name. -/
def srs_check (srs : String) : SrsCheck :=
  if srs = "http://www.opengis.net/def/crs/OGC/1.3/CRS84" ∨
      srs = "urn:ogc:def:crs:OGC::CRS84" ∨
      srs = "http://www.opengis.net/def/crs/EPSG/0/4326" then .knownDimensions 2
  else if srs = "http://www.opengis.net/def/crs/OGC/0/CRS84h" ∨
      srs = "http://www.opengis.net/def/crs/EPSG/0/4979" then .knownDimensions 3
  else .unresolved srs

structure GeometryContract where
  srs : String
  constraint : Option GeometryConstraint
  srs_check : SrsCheck

structure CheckedGeometryValue where
  value : GeometryValue
  srs : String
  srs_check : SrsCheck
  bbox : Option (List ExactNumber)
  source : Bytes
deriving DecidableEq

/-- `GeometryContract::check_value`; `valid` is the schema of a value. -/
def check_value (reader : JsonReader) (valid : Json → Bool) (contract : GeometryContract)
    (input : Bytes) : Except GeometryError CheckedGeometryValue := do
  let source ← (reader.parse input).mapError .syntaxError
  if !valid source then .error .structural
  else
    match source with
    | .object members => do
        let (value, bbox) ← parse members contract.srs_check
        if (contract.constraint.bind (·.geom_types)).any fun kinds => value.kind ∉ kinds then
          .error .constraintViolation
        else .ok ⟨value, contract.srs, contract.srs_check, bbox, input⟩
    | _ => .error .structural

end Code

end Geometry
end Standards
end Glaux
