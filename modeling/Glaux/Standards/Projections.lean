import Glaux.Domain.Identity
import Glaux.Library.Json.Equality
import Glaux.Standards.Validation.Parse

/-!
# Request projections (`projection.rs`)

What a client may write is its body without the members that the server owns.  The members
are taken out at the root only, after the submitted identity, parent link and retained schema
have been compared with the trusted ones.
-/

namespace Glaux
namespace Standards
namespace Projections

open Library Domain Validation

inductive Resource where
  | systemGeoJson
  | systemSensorMl
  | dataStream
  | controlStream
  | observation
deriving DecidableEq

inductive Projection where
  | createRequest
  | replaceRequest
  | mergedPatch
  | response
deriving DecidableEq

inductive ProjectionError where
  | input (failure : Failure)
  | missing (path : String)
  | writeOnly (path : String)
  | protectedMember (path : String)
  | unmappedMember
  | context
  | unsupportedProjection
  | structural
deriving DecidableEq

inductive Parent where
  | system (uid : Uid)
  | datastream (id : LocalId)
deriving DecidableEq

structure RequestContext where
  existing_uid : Option Uid
  parent : Option Parent
  locked_schema : Option Bytes

/-- The compiled schemas and the URI syntax. -/
structure ProjectionValidator where
  original : Resource → Json → Bool
  request : Resource → Json → Bool
  isUri : String → Bool

section Code

def dataGenerated : List String :=
  ["id", "formats", "system@link", "observedProperties", "phenomenonTime", "resultTime",
    "resultType", "live"]

def controlGenerated : List String :=
  ["id", "formats", "system@link", "controlledProperties", "issueTime", "executionTime", "live"]

def observationMembers : List String :=
  ["id", "datastream@id", "samplingFeature@id", "procedure@link", "phenomenonTime", "resultTime",
    "parameters", "result", "result@link"]

namespace Resource

def stream : Resource → Bool
  | dataStream | controlStream => true
  | _ => false

def generated : Resource → List String
  | systemGeoJson | systemSensorMl => ["id", "links"]
  | dataStream => dataGenerated
  | controlStream => controlGenerated
  | observation => ["id", "datastream@id"]

/-- The names on the way to the UID. -/
def uid_path : Resource → Option (List String)
  | systemGeoJson => some ["properties", "uid"]
  | systemSensorMl => some ["uniqueId"]
  | _ => none

end Resource

abbrev Members := List (String × Json)

/-- `Map::remove` -/
def remove (members : Members) (name : String) : Members :=
  members.filter fun member => member.1 ≠ name

/-- `Value::pointer`, for names. -/
def pointer (value : Json) (path : List String) : Option Json := path.foldlM Json.get? value

/-- The text of a path. -/
def written (path : List String) : String := String.join (path.map ("/" ++ ·))

variable (serde : Serde) (validator : ProjectionValidator)

def withoutId : Json → Json
  | .object members => .object (remove members "id")
  | value => value

def direction_input (projection : Projection) (input : Bytes) : Except ProjectionError Json := do
  let value ← (Validation.parse serde input).mapError .input
  if projection = .replaceRequest ∨ projection = .mergedPatch then .ok (withoutId value)
  else .ok value

def isObject : Json → Bool
  | .object _ => true
  | _ => false

def names : Json → List String
  | .object members => members.map (·.1)
  | _ => []

def validate_value (resource : Resource) (projection : Projection) (value : Json) :
    Except ProjectionError Unit :=
  if !isObject value then .error .structural
  else if projection = .mergedPatch ∧ resource = .systemGeoJson then
    .error .unsupportedProjection
  else if projection = .response then
    if resource = .observation ∧ (names value).any fun name => name ∉ observationMembers then
      .error .unmappedMember
    else if resource.stream ∧ (value.get? "schema").isSome then .error (.writeOnly "/schema")
    else if (resource = .systemGeoJson ∨ resource = .systemSensorMl) ∧
        value.get? "id" = none then .error (.missing "/id")
    else if (resource = .systemGeoJson ∨ resource = .systemSensorMl) ∧
        value.get? "links" = none then .error (.missing "/links")
    else if !validator.original resource value then .error .structural
    else .ok ()
  else if projection = .createRequest ∧ resource.stream ∧ value.get? "schema" = none then
    .error (.missing "/schema")
  else if !validator.request resource value then .error .structural
  else .ok ()

/-- The submitted UID against the trusted one. -/
def checkUid (resource : Resource) (projection : Projection) (value : Json)
    (existing_uid : Option Uid) : Except ProjectionError Unit :=
  match resource.uid_path with
  | none => .ok ()
  | some path =>
      match (pointer value path).bind Json.asString? with
      | none => .error (.missing (written path))
      | some text =>
          match Uid.parse validator.isUri text with
          | none => .error .structural
          | some uid =>
              if projection ≠ .createRequest ∧ existing_uid = none then .error .context
              else if existing_uid.any fun expected => expected ≠ uid then
                .error (.protectedMember (written path))
              else .ok ()

/-- The submitted parent link against the trusted one. -/
def checkParent (resource : Resource) (value : Json) (parent : Option Parent) :
    Except ProjectionError Unit :=
  match resource, parent with
  | .dataStream, some (.system parent) | .controlStream, some (.system parent) =>
      if (value.get? "system@link").any fun supplied =>
          (supplied.get? "href").bind Json.asString? ≠ some parent.text then
        .error (.protectedMember "/system@link")
      else .ok ()
  | .observation, some (.datastream parent) =>
      if (value.get? "datastream@id").any fun supplied =>
          supplied.asString? ≠ some parent.text then
        .error (.protectedMember "/datastream@id")
      else .ok ()
  | .systemGeoJson, none | .systemSensorMl, none => .ok ()
  | _, _ => .error .context

/-- The submitted schema against the retained one. -/
def checkSchema (resource : Resource) (projection : Projection) (value : Json)
    (locked_schema : Option Bytes) : Except ProjectionError Unit :=
  match locked_schema with
  | none => .ok ()
  | some retained =>
      if !resource.stream then .error .context
      else do
        let retained ← (Validation.parse serde retained).mapError .input
        if (value.get? "schema").any (fun submitted => submitted ≠ retained) ∨
            (projection = .mergedPatch ∧ value.get? "schema" = none) then
          .error (.protectedMember "/schema")
        else .ok ()

def writable (resource : Resource) (members : Members) : Members :=
  let members := resource.generated.foldl remove members
  if resource = .observation then
    members.filter fun member => member.1 ∈ observationMembers
  else members

def request (resource : Resource) (projection : Projection) (input : Bytes)
    (context : RequestContext) : Except ProjectionError Json :=
  if projection = .response then .error .unsupportedProjection
  else do
    let value ← direction_input serde projection input
    validate_value validator resource projection value
    checkUid validator resource projection value context.existing_uid
    checkParent resource value context.parent
    checkSchema serde resource projection value context.locked_schema
    match value with
    | .object members => .ok (.object (writable resource members))
    | _ => .error .structural

def patch_members (resource : Resource) (input : Bytes) : Except ProjectionError Json := do
  let value ← (Validation.parse serde input).mapError .input
  if resource = .systemGeoJson then .error .unsupportedProjection
  else
    match value with
    | .object members =>
        let members := remove members "id"
        match (resource.generated.filter (· ≠ "id")).find? fun field =>
            (members.lookup field).isSome with
        | some field => .error (.protectedMember (written [field]))
        | none =>
            if resource = .observation then
              .ok (.object (members.filter fun member => member.1 ∈ observationMembers))
            else .ok (.object members)
    | _ => .error .structural

end Code

section Members

theorem lookup_filter {members : Members} {p : String → Bool} {name : String}
    (h : p name = true) :
    (members.filter fun member => p member.1).lookup name = members.lookup name := by
  induction members with
  | nil => rfl
  | cons member members ih =>
      obtain ⟨other, value⟩ := member
      rw [List.filter_cons]
      by_cases hname : name = other
      · subst hname
        rw [if_pos h, List.lookup_cons_self, List.lookup_cons_self]
      · have hbeq : (name == other) = false := beq_eq_false_iff_ne.mpr hname
        rw [List.lookup_cons, hbeq]
        split
        · rw [List.lookup_cons, hbeq]
          exact ih
        · exact ih

theorem lookup_remove {members : Members} {name other : String} (h : name ≠ other) :
    (remove members other).lookup name = members.lookup name :=
  lookup_filter (p := fun name => name ≠ other) (by simpa using h)

theorem lookup_remove_self (members : Members) (name : String) :
    (remove members name).lookup name = none := by
  rw [List.lookup_eq_none_iff]
  intro member hmember
  have hne := (List.mem_filter.mp hmember).2
  rw [decide_eq_true_iff] at hne
  exact bne_iff_ne.mpr (Ne.symm hne)

/-- The members that stay. -/
def kept (resource : Resource) (name : String) : Bool :=
  name ∉ resource.generated && (resource ≠ .observation || name ∈ observationMembers)

theorem foldl_remove (members : Members) (names : List String) :
    names.foldl remove members = members.filter fun member => member.1 ∉ names := by
  induction names generalizing members with
  | nil => simp
  | cons name names ih =>
      rw [List.foldl_cons, ih, remove, List.filter_filter]
      refine congrArg (List.filter · members) (funext fun member => ?_)
      simp [Bool.and_comm]

theorem writable_eq (resource : Resource) (members : Members) :
    writable resource members = members.filter fun member => kept resource member.1 := by
  rw [writable, foldl_remove]
  split
  · rename_i hresource
    subst hresource
    rw [List.filter_filter]
    refine congrArg (List.filter · members) (funext fun member => ?_)
    simp [kept, Bool.and_comm]
  · rename_i hresource
    refine congrArg (List.filter · members) (funext fun member => ?_)
    simp [kept, hresource]

end Members

section Requests

/-- The submitted UID is there, and it is the trusted one. -/
def UidAgrees (resource : Resource) (projection : Projection) (body : Members)
    (existing_uid : Option Uid) : Prop :=
  ∀ path, resource.uid_path = some path →
    (∃ text, pointer (.object body) path = some (.string text) ∧
      ∀ expected, existing_uid = some expected → text = expected.text) ∧
    (projection ≠ .createRequest → existing_uid ≠ none)

/-- The submitted parent link, if any, is the trusted one. -/
structure ParentAgrees (resource : Resource) (body : Members) (parent : Option Parent) :
    Prop where
  stream : resource.stream = true → ∃ uid, parent = some (.system uid) ∧
    ∀ link, body.lookup "system@link" = some link → link.get? "href" = some (.string uid.text)
  observation : resource = .observation → ∃ id, parent = some (.datastream id) ∧
    ∀ link, body.lookup "datastream@id" = some link → link = .string id.text

/-- The submitted schema, if any, is the retained one. -/
def SchemaAgrees (serde : Serde) (body : Members) (locked_schema : Option Bytes) : Prop :=
  ∀ retained, locked_schema = some retained →
    ∃ trusted, Validation.parse serde retained = .ok trusted ∧
      ∀ submitted, body.lookup "schema" = some submitted → submitted = trusted

variable {serde : Serde} {validator : ProjectionValidator} {resource : Resource}
  {projection : Projection} {input : Bytes} {context : RequestContext} {output : Json}

theorem asString?_eq_some {raw : Json} {text : String} :
    raw.asString? = some text ↔ raw = .string text := by
  cases raw <;> simp [Json.asString?]

theorem id_generated (resource : Resource) : "id" ∈ resource.generated := by
  cases resource <;> decide

/-- The direction takes the root `id` at most. -/
theorem direction_input_object {members : Members}
    (h : direction_input serde projection input = .ok (.object members)) :
    ∃ body, Validation.parse serde input = .ok (.object body) ∧
      (members = body ∨ members = remove body "id") := by
  obtain ⟨value, hparse, h⟩ := bind_eq_ok.mp h
  rw [mapError_eq_ok] at hparse
  split at h
  · cases value with
    | object body => exact ⟨body, hparse, .inr (Json.object.inj (Except.ok.inj h)).symm⟩
    | _ => exact absurd (Except.ok.inj h) nofun
  · exact ⟨members, Except.ok.inj h ▸ hparse, .inl rfl⟩

theorem of_checkUid {value : Json} {existing_uid : Option Uid}
    (h : checkUid validator resource projection value existing_uid = .ok ()) :
    ∀ path, resource.uid_path = some path →
      (∃ text, pointer value path = some (.string text) ∧
        ∀ expected, existing_uid = some expected → text = expected.text) ∧
      (projection ≠ .createRequest → existing_uid ≠ none) := by
  intro path hpath
  rw [checkUid, hpath] at h
  dsimp only at h
  split at h
  · exact absurd h nofun
  · rename_i text htext
    obtain ⟨raw, hraw, hstring⟩ := Option.bind_eq_some_iff.mp htext
    obtain rfl := asString?_eq_some.mp hstring
    split at h
    · exact absurd h nofun
    · rename_i uid huid
      have huid : uid = ⟨text⟩ := by
        rw [Uid.parse] at huid
        split at huid
        · exact absurd huid nofun
        · exact (Option.some.inj huid).symm
      split at h
      · exact absurd h nofun
      · rename_i hcontext
        split at h
        · exact absurd h nofun
        · rename_i hsame
          refine ⟨⟨text, hraw, fun expected hexpected => ?_⟩,
            fun hprojection hnone => hcontext ⟨hprojection, hnone⟩⟩
          rw [hexpected, Option.any_some, decide_eq_true_iff, not_not] at hsame
          rw [hsame, huid]

theorem of_checkParent {members : Members} {parent : Option Parent}
    (h : checkParent resource (.object members) parent = .ok ()) :
    ParentAgrees resource members parent := by
  have hlink : ∀ uid : Uid, (if (Json.get? (.object members) "system@link").any fun supplied =>
      (supplied.get? "href").bind Json.asString? ≠ some uid.text then
      .error (.protectedMember "/system@link") else .ok () : Except ProjectionError Unit) = .ok () →
      ∀ link, members.lookup "system@link" = some link →
        link.get? "href" = some (.string uid.text) := by
    intro uid h link hlink
    split at h
    · exact absurd h nofun
    · rename_i hsame
      rw [Json.get?, hlink, Option.any_some, decide_eq_true_iff, not_not] at hsame
      obtain ⟨raw, hraw, hstring⟩ := Option.bind_eq_some_iff.mp hsame
      rw [hraw, asString?_eq_some.mp hstring]
  cases resource with
  | systemGeoJson => exact ⟨nofun, nofun⟩
  | systemSensorMl => exact ⟨nofun, nofun⟩
  | dataStream =>
      obtain _ | uid | id := parent
      · exact absurd h nofun
      · exact ⟨fun _ => ⟨uid, rfl, hlink uid h⟩, nofun⟩
      · exact absurd h nofun
  | controlStream =>
      obtain _ | uid | id := parent
      · exact absurd h nofun
      · exact ⟨fun _ => ⟨uid, rfl, hlink uid h⟩, nofun⟩
      · exact absurd h nofun
  | observation =>
      obtain _ | uid | id := parent
      · exact absurd h nofun
      · exact absurd h nofun
      · refine ⟨nofun, fun _ => ⟨id, rfl, fun link hlink => ?_⟩⟩
        rw [checkParent] at h
        split at h
        · exact absurd h nofun
        · rename_i hsame
          rw [Json.get?, hlink, Option.any_some, decide_eq_true_iff, not_not] at hsame
          exact asString?_eq_some.mp hsame

theorem of_checkSchema {members : Members} {locked_schema : Option Bytes}
    (h : checkSchema serde resource projection (.object members) locked_schema = .ok ()) :
    SchemaAgrees serde members locked_schema := by
  rintro retained rfl
  rw [checkSchema] at h
  split at h
  · exact absurd h nofun
  · obtain ⟨trusted, hparse, h⟩ := bind_eq_ok.mp h
    refine ⟨trusted, mapError_eq_ok.mp hparse, fun submitted hsubmitted => ?_⟩
    split at h
    · exact absurd h nofun
    · rename_i hsame
      rw [Json.get?, hsubmitted, Option.any_some, decide_eq_true_iff, not_or, not_not] at hsame
      exact hsame.1

/-- **A request that is accepted.** -/
theorem of_request (h : request serde validator resource projection input context = .ok output) :
    projection ≠ .response ∧ ∃ body, Validation.parse serde input = .ok (.object body) ∧
      output = .object (body.filter fun member => kept resource member.1) ∧
      UidAgrees resource projection body context.existing_uid ∧
      ParentAgrees resource body context.parent ∧ SchemaAgrees serde body context.locked_schema := by
  rw [request] at h
  split at h
  · exact absurd h nofun
  · rename_i hprojection
    refine ⟨hprojection, ?_⟩
    obtain ⟨value, hdirection, h⟩ := bind_eq_ok.mp h
    obtain ⟨_, -, h⟩ := bind_eq_ok.mp h
    obtain ⟨_, huid, h⟩ := bind_eq_ok.mp h
    obtain ⟨_, hparent, h⟩ := bind_eq_ok.mp h
    obtain ⟨_, hschema, h⟩ := bind_eq_ok.mp h
    cases value with
    | object members =>
        obtain rfl := Except.ok.inj h
        obtain ⟨body, hparse, hmembers⟩ := direction_input_object hdirection
        have hlookup : ∀ name, name ≠ "id" → members.lookup name = body.lookup name := by
          obtain rfl | rfl := hmembers
          · exact fun _ _ => rfl
          · exact fun name hname => lookup_remove hname
        have hwritable : writable resource members =
            body.filter fun member => kept resource member.1 := by
          rw [writable_eq]
          obtain rfl | rfl := hmembers
          · rfl
          · rw [remove, List.filter_filter]
            refine congrArg (List.filter · body) (funext fun member => ?_)
            by_cases hid : member.1 = "id"
            · simp [hid, kept, id_generated]
            · simp [hid]
        have huid := of_checkUid huid
        have hparent := of_checkParent hparent
        refine ⟨body, hparse, by rw [hwritable], fun path hpath => ?_, ⟨fun hstream => ?_,
          fun hobservation => ?_⟩, fun retained hretained => ?_⟩
        · obtain ⟨⟨text, htext, hsame⟩, hgiven⟩ := huid path hpath
          have hpointer : pointer (.object members) path = pointer (.object body) path := by
            cases resource with
            | systemGeoJson =>
                obtain rfl := Option.some.inj hpath
                simp only [pointer, List.foldlM_cons, Json.get?, hlookup "properties" (by decide)]
            | systemSensorMl =>
                obtain rfl := Option.some.inj hpath
                simp only [pointer, List.foldlM_cons, Json.get?, hlookup "uniqueId" (by decide)]
            | _ => exact absurd hpath nofun
          exact ⟨⟨text, hpointer ▸ htext, hsame⟩, hgiven⟩
        · obtain ⟨uid, hgiven, hlink⟩ := hparent.stream hstream
          rw [hlookup "system@link" (by decide)] at hlink
          exact ⟨uid, hgiven, hlink⟩
        · obtain ⟨id, hid, hlink⟩ := hparent.observation hobservation
          rw [hlookup "datastream@id" (by decide)] at hlink
          exact ⟨id, hid, hlink⟩
        · obtain ⟨trusted, htrusted, hsame⟩ := of_checkSchema hschema retained hretained
          rw [hlookup "schema" (by decide)] at hsame
          exact ⟨trusted, htrusted, hsame⟩
    | _ => exact absurd h nofun

/-- **The root `id`** of a replacement or a merged patch is not seen. -/
theorem request_id (hprojection : projection = .replaceRequest ∨ projection = .mergedPatch)
    {input' : Bytes} {body body' : Members}
    (hparse : Validation.parse serde input = .ok (.object body))
    (hparse' : Validation.parse serde input' = .ok (.object body'))
    (hsame : remove body "id" = remove body' "id") :
    request serde validator resource projection input context =
      request serde validator resource projection input' context := by
  have hdirection : direction_input serde projection input =
      direction_input serde projection input' := by
    rw [direction_input, direction_input, hparse, hparse']
    simp only [Except.mapError, ok_bind, if_pos hprojection, withoutId, hsame]
  rw [request, request, hdirection]

/-- **A partial patch** names no generated member but `id`, and loses that one. -/
theorem patch_members_eq_ok :
    patch_members serde resource input = .ok output ↔
      resource ≠ .systemGeoJson ∧ ∃ body, Validation.parse serde input = .ok (.object body) ∧
        (∀ name ∈ resource.generated, name ≠ "id" → body.lookup name = none) ∧
        output = .object ((remove body "id").filter fun member =>
          resource ≠ .observation ∨ member.1 ∈ observationMembers) := by
  have hnamed : ∀ body : Members, ((resource.generated.filter (· ≠ "id")).find? fun field =>
      ((remove body "id").lookup field).isSome) = none ↔
      ∀ name ∈ resource.generated, name ≠ "id" → body.lookup name = none := by
    intro body
    rw [List.find?_eq_none]
    constructor
    · intro h name hname hid
      have hnone := h name (List.mem_filter.mpr ⟨hname, by simpa using hid⟩)
      rw [lookup_remove hid] at hnone
      exact Option.not_isSome_iff_eq_none.mp hnone
    · intro h name hname
      obtain ⟨hname, hid⟩ := List.mem_filter.mp hname
      have hid : name ≠ "id" := by simpa using hid
      rw [lookup_remove hid, h name hname hid]
      exact nofun
  have hoperation : ∀ members : Members, (if resource = .observation then
      .ok (.object (members.filter fun member => member.1 ∈ observationMembers))
      else .ok (.object members) : Except ProjectionError Json) =
      .ok (.object (members.filter fun member =>
        resource ≠ .observation ∨ member.1 ∈ observationMembers)) := by
    intro members
    split
    · rename_i hresource
      simp [hresource]
    · rename_i hresource
      simp [hresource]
  rw [patch_members, bind_eq_ok]
  constructor
  · rintro ⟨value, hparse, h⟩
    split at h
    · exact absurd h nofun
    · rename_i hresource
      cases value with
      | object body =>
          dsimp only at h
          split at h
          · exact absurd h nofun
          · rename_i hnone
            rw [hoperation] at h
            exact ⟨hresource, body, mapError_eq_ok.mp hparse, (hnamed body).mp hnone,
              (Except.ok.inj h).symm⟩
      | _ => exact absurd h nofun
  · rintro ⟨hresource, body, hparse, hnone, rfl⟩
    refine ⟨.object body, mapError_eq_ok.mpr hparse, ?_⟩
    rw [if_neg hresource]
    dsimp only
    rw [(hnamed body).mpr hnone]
    exact hoperation _

/-- **Server-owned members stay the server's.**  What an accepted request gives is the body
without them, whatever they were; a partial patch may not name them. -/
theorem request_isolates (serde : Serde) (validator : ProjectionValidator) (resource : Resource)
    (projection : Projection) (context : RequestContext) :
    (∀ input output, request serde validator resource projection input context = .ok output →
      projection ≠ .response ∧ ∃ body, Validation.parse serde input = .ok (.object body) ∧
        output = .object (body.filter fun member => kept resource member.1) ∧
        UidAgrees resource projection body context.existing_uid ∧
        ParentAgrees resource body context.parent ∧
        SchemaAgrees serde body context.locked_schema) ∧
    (∀ input input' body body' output output',
      Validation.parse serde input = .ok (.object body) →
      Validation.parse serde input' = .ok (.object body') →
      (body.filter fun member => member.1 ∉ resource.generated) =
        (body'.filter fun member => member.1 ∉ resource.generated) →
      request serde validator resource projection input context = .ok output →
      request serde validator resource projection input' context = .ok output' →
      output = output') ∧
    (projection = .replaceRequest ∨ projection = .mergedPatch →
      ∀ input input' body body', Validation.parse serde input = .ok (.object body) →
        Validation.parse serde input' = .ok (.object body') →
        remove body "id" = remove body' "id" →
        request serde validator resource projection input context =
          request serde validator resource projection input' context) ∧
    (∀ input body name, Validation.parse serde input = .ok (.object body) →
      name ∈ resource.generated → name ≠ "id" → body.lookup name ≠ none →
      ∃ e, patch_members serde resource input = .error e) ∧
    ∀ input output, patch_members serde resource input = .ok output →
      output.get? "id" = none := by
  refine ⟨fun input output => of_request, ?_, fun hprojection input input' body body' =>
    request_id hprojection, ?_, ?_⟩
  · intro input input' body body' output output' hparse hparse' hsame h h'
    obtain ⟨-, found, hfound, rfl, -⟩ := of_request h
    obtain ⟨-, found', hfound', rfl, -⟩ := of_request h'
    obtain rfl := Json.object.inj (Except.ok.inj (hfound.symm.trans hparse))
    obtain rfl := Json.object.inj (Except.ok.inj (hfound'.symm.trans hparse'))
    have hkept : ∀ body : Members, (body.filter fun member => kept resource member.1) =
        (body.filter fun member => member.1 ∉ resource.generated).filter fun member =>
          kept resource member.1 := by
      intro body
      rw [List.filter_filter]
      refine congrArg (List.filter · body) (funext fun member => ?_)
      cases hmember : kept resource member.1 with
      | false => rfl
      | true =>
          rw [kept, Bool.and_eq_true] at hmember
          exact hmember.1.symm
    rw [hkept found, hkept found', hsame]
  · intro input body name hparse hname hid hnamed
    cases hpatch : patch_members serde resource input with
    | error e => exact ⟨e, rfl⟩
    | ok output =>
        obtain ⟨-, found, hfound, hnone, -⟩ := patch_members_eq_ok.mp hpatch
        obtain rfl := Json.object.inj (Except.ok.inj (hfound.symm.trans hparse))
        exact absurd (hnone name hname hid) hnamed
  · intro input output h
    obtain ⟨-, body, -, -, rfl⟩ := patch_members_eq_ok.mp h
    rw [Json.get?, List.lookup_eq_none_iff]
    intro member hmember
    have hne := (List.mem_filter.mp (List.mem_filter.mp hmember).1).2
    rw [decide_eq_true_iff] at hne
    exact bne_iff_ne.mpr (Ne.symm hne)

/-- An observation with an identity of its own. -/
def observedText : Bytes :=
  encode "\x7b\"id\":\"o\",\"result\":5,\"resultTime\":\"2026-01-01T00:00:00Z\"\x7d"

/-- The readers of `serde_json`, as far as the observation needs them. -/
def observedSerde : Serde where
  text bytes := decode (bytes.drop 1).dropLast
  raw := decode
  members _ :=
    some [("id", "\"o\""), ("result", "5"), ("resultTime", "\"2026-01-01T00:00:00Z\"")]
  items _ := none
  value text :=
    if text.toList.head? = some '"' then
      some (.string (String.ofList (text.toList.drop 1).dropLast))
    else some (.number text)

def observedContext : RequestContext :=
  ⟨none, some (.datastream ⟨"01890a5d-ac96-774b-bcce-b302099a8057", by decide +kernel⟩), none⟩

def observedValue : Json :=
  .object [("result", .number "5"), ("resultTime", .string "2026-01-01T00:00:00Z")]

theorem request_isolates_observed : ∃ body,
    Validation.parse observedSerde observedText = .ok (.object body) ∧
      observedValue = .object (body.filter fun member => kept .observation member.1) := by
  have h := ((request_isolates observedSerde ⟨fun _ _ => true, fun _ _ => true, fun _ => true⟩
    .observation .createRequest observedContext).1 observedText observedValue
    (toOption_eq_some.mp (by decide +kernel))).2
  obtain ⟨body, hparse, hvalue, -⟩ := h
  exact ⟨body, hparse, hvalue⟩

end Requests

end Projections
end Standards
end Glaux
