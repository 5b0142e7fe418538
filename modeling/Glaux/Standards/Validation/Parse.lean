import Glaux.Library.Json.Part
import Glaux.Library.Outcome
import Glaux.Standards.Validation

/-!
# Parsing (`validation::parse`)

A lexical scan bounds depth, strings and names before `serde_json` reads the text, and a
walk over the values bounds their number and reads every number exactly.  The entry points
of `serde_json` are a parameter.
-/

namespace Glaux
namespace Standards
namespace Validation

open Library Domain

/-- The entry points of `serde_json`. -/
structure Serde where
  /-- `from_slice::<String>` -/
  text : Bytes → Option String
  /-- `from_slice::<Box<RawValue>>` -/
  raw : Bytes → Option String
  /-- `from_str::<BTreeMap<String, Box<RawValue>>>` -/
  members : String → Option (List (String × String))
  /-- `from_str::<Vec<Box<RawValue>>>` -/
  items : String → Option (List String)
  /-- `from_str::<Value>` -/
  value : String → Option Json

section Scan

structure Frame where
  object : Bool
  key : Bool
  keys : List String
deriving DecidableEq

def openBrace : UInt8 := 0x7b

def closeBrace : UInt8 := 0x7d

def openBracket : UInt8 := 0x5b

def closeBracket : UInt8 := 0x5d

def comma : UInt8 := 0x2c

def quote : UInt8 := 0x22

def backslash : UInt8 := 0x5c

/-- The loop over the bytes of a string; it stops behind the closing quote. -/
def stringStop (input : Bytes) (i : ℕ) : ℕ :=
  if h : i < input.length then
    if input[i] = backslash then stringStop input (i + 2)
    else if input[i] = quote then i + 1
    else stringStop input (i + 1)
  else i
termination_by input.length - i

theorem le_stringStop (input : Bytes) (i : ℕ) : i ≤ stringStop input i := by
  induction i using stringStop.induct input with
  | case1 i h hbackslash ih =>
      rw [stringStop, dif_pos h, if_pos hbackslash]
      omega
  | case2 i h hbackslash hquote =>
      rw [stringStop, dif_pos h, if_neg hbackslash, if_pos hquote]
      omega
  | case3 i h hbackslash hquote ih =>
      rw [stringStop, dif_pos h, if_neg hbackslash, if_neg hquote]
      omega
  | case4 i h =>
      rw [stringStop, dif_neg h]

/-- A string in the place of a name is entered into the open object. -/
def enterKey (text : String) : List Frame → Except Failure (List Frame)
  | [] => .ok []
  | frame :: frames =>
      if frame.object && frame.key then
        if text ∈ frame.keys then .error .duplicateKey
        else if frame.keys.length + 1 > maxMembers then .error .members
        else .ok (⟨frame.object, false, text :: frame.keys⟩ :: frames)
      else .ok (frame :: frames)

/-- After a comma an object expects a name. -/
def expectKey : List Frame → List Frame
  | [] => []
  | frame :: frames => { frame with key := frame.object } :: frames

def opened (byte : UInt8) : Frame := ⟨byte = openBrace, byte = openBrace, []⟩

variable (serde : Serde)

/-- A string token of the input. -/
def scanText (input : Bytes) (start stop : ℕ) : Except Failure String :=
  if stop > input.length ∨ input[stop - 1]? ≠ some quote then .error .malformed
  else
    match serde.text ((input.take stop).drop start) with
    | none => .error .malformed
    | some text => if text.utf8ByteSize > maxStringBytes then .error .string else .ok text

/-- The open frames, the innermost first. -/
def scan (input : Bytes) (i : ℕ) (frames : List Frame) : Except Failure (List Frame) :=
  if h : i < input.length then
    if input[i] = openBrace ∨ input[i] = openBracket then
      if frames.length ≥ maxDepth then .error .depth
      else scan input (i + 1) (opened input[i] :: frames)
    else if input[i] = closeBrace ∨ input[i] = closeBracket then
      match frames with
      | [] => .error .malformed
      | frame :: frames =>
          if frame.object ≠ decide (input[i] = closeBrace) then .error .malformed
          else scan input (i + 1) frames
    else if input[i] = comma then scan input (i + 1) (expectKey frames)
    else if input[i] = quote then do
      let text ← scanText serde input i (stringStop input (i + 1))
      let frames ← enterKey text frames
      have := le_stringStop input (i + 1)
      scan input (stringStop input (i + 1)) frames
    else scan input (i + 1) frames
  else .ok frames
termination_by input.length - i

end Scan

section Values

/-- `str::trim_start` -/
def trimStart (text : String) : String := String.ofList (text.toList.dropWhile isWhiteSpace)

variable (serde : Serde)

/-- Objects and arrays are taken apart as raw values; the first number bounds the nesting. -/
def preserve_wire_kind : ℕ → String → Except Failure Json
  | 0, _ => .error .malformed
  | room + 1, raw =>
      let text := trimStart raw
      if text.toList.head? = some (Char.ofNat 0x7b) then
        match serde.members text with
        | none => .error .malformed
        | some members => do
            let members ← members.mapM fun member =>
              (preserve_wire_kind room member.2).map (member.1, ·)
            .ok (.object members)
      else if text.toList.head? = some '[' then
        match serde.items text with
        | none => .error .malformed
        | some items => do
            let items ← items.mapM (preserve_wire_kind room)
            .ok (.array items)
      else
        match serde.value text with
        | none => .error .malformed
        | some value => .ok value

/-- The walk over all values; the next one comes first. -/
def checkNodes (pending : List Json) (nodes : ℕ) : Except Failure Unit :=
  match pending with
  | [] => .ok ()
  | node :: pending =>
      if nodes + 1 > maxNodes then .error .nodes
      else
        match node with
        | .number lexeme =>
            match ExactNumber.parseJsonNumber lexeme with
            | .error e => .error (.numeric e)
            | .ok _ => checkNodes pending (nodes + 1)
        | .array values =>
            if values.length > maxMembers then .error .members
            else checkNodes (values.reverse ++ pending) (nodes + 1)
        | .object members =>
            if members.length > maxMembers then .error .members
            else checkNodes ((members.map (·.2)).reverse ++ pending) (nodes + 1)
        | _ => checkNodes pending (nodes + 1)
termination_by maxNodes - nodes

def parse (input : Bytes) : Except Failure Json :=
  if input.length > maxBytes then .error .size
  else do
    let frames ← scan serde input 0 []
    if frames ≠ [] then .error .malformed
    else
      match serde.raw input with
      | none => .error .malformed
      | some raw => do
          let value ← preserve_wire_kind serde (raw.utf8ByteSize + 1) raw
          checkNodes [value] 0
          .ok value

end Values

section Walk

/-- What the walk asks of a document. -/
structure Checked (document : Json) : Prop where
  exact : ∀ lexeme, Json.Part (.number lexeme) document →
    ∃ number, ExactNumber.parseJsonNumber lexeme = .ok number
  items : ∀ items, Json.Part (.array items) document → items.length ≤ maxMembers
  members : ∀ members, Json.Part (.object members) document → members.length ≤ maxMembers

/-- A value without values of its own. -/
theorem checked_leaf {value : Json} (hexact : ∀ lexeme, value = .number lexeme →
    ∃ number, ExactNumber.parseJsonNumber lexeme = .ok number)
    (harray : ∀ items, value ≠ .array items) (hobject : ∀ members, value ≠ .object members) :
    Checked value := by
  have hself : ∀ part, Json.Part part value → part = value := by
    rintro part (_ | ⟨_, _⟩ | ⟨_, _⟩)
    · rfl
    · exact absurd rfl (harray _)
    · exact absurd rfl (hobject _)
  exact ⟨fun lexeme h => hexact lexeme (hself _ h).symm,
    fun items h => absurd (hself _ h).symm (harray items),
    fun members h => absurd (hself _ h).symm (hobject members)⟩

theorem checked_array {items : List Json} :
    Checked (.array items) ↔ items.length ≤ maxMembers ∧ ∀ item ∈ items, Checked item := by
  constructor
  · intro h
    exact ⟨h.items items .self, fun item hitem => ⟨fun lexeme hp => h.exact lexeme (.item hitem hp),
      fun items hp => h.items items (.item hitem hp),
      fun members hp => h.members members (.item hitem hp)⟩⟩
  · rintro ⟨hlength, hitems⟩
    refine ⟨fun lexeme hp => ?_, fun inner hp => ?_, fun inner hp => ?_⟩
    · obtain heq | ⟨item, hitem, hp⟩ := Json.part_array.mp hp
      · exact absurd heq nofun
      · exact (hitems item hitem).exact lexeme hp
    · obtain heq | ⟨item, hitem, hp⟩ := Json.part_array.mp hp
      · exact Json.array.inj heq ▸ hlength
      · exact (hitems item hitem).items inner hp
    · obtain heq | ⟨item, hitem, hp⟩ := Json.part_array.mp hp
      · exact absurd heq nofun
      · exact (hitems item hitem).members inner hp

theorem checked_object {members : List (String × Json)} :
    Checked (.object members) ↔
      members.length ≤ maxMembers ∧ ∀ value ∈ members.map (·.2), Checked value := by
  constructor
  · intro h
    refine ⟨h.members members .self, fun value hvalue => ?_⟩
    obtain ⟨member, hmember, rfl⟩ := List.mem_map.mp hvalue
    exact ⟨fun lexeme hp => h.exact lexeme (.member hmember hp),
      fun items hp => h.items items (.member hmember hp),
      fun members hp => h.members members (.member hmember hp)⟩
  · rintro ⟨hlength, hvalues⟩
    have hmember : ∀ member ∈ members, Checked member.2 := fun member hmember =>
      hvalues member.2 (List.mem_map_of_mem hmember)
    refine ⟨fun lexeme hp => ?_, fun inner hp => ?_, fun inner hp => ?_⟩
    · obtain heq | ⟨member, hm, hp⟩ := Json.part_object.mp hp
      · exact absurd heq nofun
      · exact (hmember member hm).exact lexeme hp
    · obtain heq | ⟨member, hm, hp⟩ := Json.part_object.mp hp
      · exact absurd heq nofun
      · exact (hmember member hm).items inner hp
    · obtain heq | ⟨member, hm, hp⟩ := Json.part_object.mp hp
      · exact Json.object.inj heq ▸ hlength
      · exact (hmember member hm).members inner hp

/-- **The walk** bounds the number of values and checks every one of them. -/
theorem checkNodes_eq_ok (pending : List Json) (nodes : ℕ) (hnodes : nodes ≤ maxNodes) :
    checkNodes pending nodes = .ok () ↔
      nodes + (pending.map Json.size).sum ≤ maxNodes ∧ ∀ node ∈ pending, Checked node := by
  induction pending, nodes using checkNodes.induct with
  | case1 nodes => simpa [checkNodes] using hnodes
  | case2 nodes node pending hmany =>
      have hpos := Json.size_pos node
      rw [checkNodes.eq_def]
      simp only [if_pos hmany, List.map_cons, List.sum_cons]
      exact iff_of_false (by intro h; cases h) fun h => by omega
  | case3 nodes pending hfew lexeme e hparse =>
      rw [checkNodes.eq_def]
      simp only [if_neg hfew, hparse]
      refine iff_of_false (by intro h; cases h) fun h => ?_
      obtain ⟨number, hnumber⟩ := (h.2 _ List.mem_cons_self).exact lexeme .self
      rw [hparse] at hnumber
      cases hnumber
  | case4 nodes pending hfew lexeme number hparse ih =>
      have hchecked : Checked (.number lexeme) :=
        checked_leaf (fun l hl => Json.number.inj hl ▸ ⟨number, hparse⟩)
          (by intro _ h; cases h) (by intro _ h; cases h)
      rw [checkNodes.eq_def]
      simp only [if_neg hfew, hparse]
      rw [ih (Nat.le_of_not_lt hfew)]
      simp only [List.map_cons, List.sum_cons, Json.size, List.forall_mem_cons, hchecked,
        true_and, Nat.add_assoc]
  | case5 nodes pending hfew values hmany =>
      rw [checkNodes.eq_def]
      simp only [if_neg hfew, if_pos hmany]
      refine iff_of_false (by intro h; cases h) fun h => ?_
      exact Nat.not_lt.mpr (checked_array.mp (h.2 _ List.mem_cons_self)).1 hmany
  | case6 nodes pending hfew values hlength ih =>
      rw [checkNodes.eq_def]
      simp only [if_neg hfew, if_neg hlength]
      simp only [List.unattach_reverse, List.unattach_attach] at ih
      rw [ih (Nat.le_of_not_lt hfew)]
      simp only [List.map_append, List.map_reverse, List.sum_append, List.sum_reverse,
        List.mem_append, List.mem_reverse, List.map_cons, List.sum_cons, Json.size,
        Json.sizeItems_eq, List.forall_mem_cons, checked_array]
      constructor
      · rintro ⟨hsum, hall⟩
        exact ⟨by omega, ⟨Nat.le_of_not_lt hlength, fun v hv => hall v (.inl hv)⟩,
          fun v hv => hall v (.inr hv)⟩
      · rintro ⟨hsum, ⟨-, hvalues⟩, hpending⟩
        exact ⟨by omega, fun v hv => hv.elim (hvalues v) (hpending v)⟩
  | case7 nodes pending hfew members hmany =>
      rw [checkNodes.eq_def]
      simp only [if_neg hfew, if_pos hmany]
      refine iff_of_false (by intro h; cases h) fun h => ?_
      exact Nat.not_lt.mpr (checked_object.mp (h.2 _ List.mem_cons_self)).1 hmany
  | case8 nodes pending hfew members hlength ih =>
      rw [checkNodes.eq_def]
      simp only [if_neg hfew, if_neg hlength]
      have hvalues : (members.attach.map fun member => member.1.2) = members.map (·.2) :=
        List.attach_map_val
      replace ih := ih (Nat.le_of_not_lt hfew)
      change checkNodes ((members.attach.map fun member => member.1.2).reverse ++ pending) _ = _ ↔
        _ + (((members.attach.map fun member => member.1.2).reverse ++ pending).map _).sum ≤ _ ∧
          ∀ node ∈ (members.attach.map fun member => member.1.2).reverse ++ pending, _ at ih
      rw [hvalues] at ih
      rw [ih]
      simp only [List.map_append, List.map_reverse, List.sum_append, List.sum_reverse,
        List.mem_append, List.mem_reverse, List.map_cons, List.sum_cons, Json.size,
        Json.sizeMembers_eq, List.forall_mem_cons, checked_object]
      constructor
      · rintro ⟨hsum, hall⟩
        exact ⟨by omega, ⟨Nat.le_of_not_lt hlength, fun v hv => hall v (.inl hv)⟩,
          fun v hv => hall v (.inr hv)⟩
      · rintro ⟨hsum, ⟨-, hvalues⟩, hpending⟩
        exact ⟨by omega, fun v hv => hv.elim (hvalues v) (hpending v)⟩
  | case9 nodes node pending hfew hnumber harray hobject ih =>
      have hchecked : Checked node := checked_leaf
        (fun lexeme h => absurd h fun h => hnumber lexeme h) harray hobject
      have hwalk : checkNodes (node :: pending) nodes = checkNodes pending (nodes + 1) := by
        rw [checkNodes.eq_def]
        simp only [if_neg hfew]
      have hsize : Json.size node = 1 := by
        cases node with
        | null => rfl
        | bool b => rfl
        | string text => rfl
        | number lexeme => rfl
        | array items => exact absurd rfl (harray items)
        | object members => exact absurd rfl (hobject members)
      rw [hwalk, ih (Nat.le_of_not_lt hfew)]
      simp only [List.map_cons, List.sum_cons, hsize, List.forall_mem_cons, hchecked, true_and,
        Nat.add_assoc]

/-- **What parsing has established** of an accepted document. -/
theorem checked_of_parse {serde : Serde} {input : Bytes} {document : Json}
    (h : parse serde input = .ok document) :
    Checked document ∧ document.size ≤ maxNodes := by
  rw [parse] at h
  split at h
  · exact absurd h nofun
  · obtain ⟨frames, -, h⟩ := bind_eq_ok.mp h
    split at h
    · exact absurd h nofun
    · split at h
      · exact absurd h nofun
      · obtain ⟨value, -, h⟩ := bind_eq_ok.mp h
        obtain ⟨_, hwalk, h⟩ := bind_eq_ok.mp h
        obtain rfl := Except.ok.inj h
        obtain ⟨hsize, hchecked⟩ := (checkNodes_eq_ok [value] 0 (Nat.zero_le _)).mp hwalk
        exact ⟨hchecked value List.mem_cons_self, by simpa using hsize⟩

end Walk

end Validation
end Standards
end Glaux
