import Glaux.Library.PrefixFree
import Glaux.Server.Application

/-!
# The intent behind a digest (`application.rs`)

`retry_content` writes each part of an intent after its length, so that the content
gives the parts back.  Lengths are written as 64-bit numbers.
-/

namespace Glaux
namespace Server

open Domain Library

section Bytes

theorem toList_eq_data (bytes : ByteArray) : bytes.toList = bytes.data.toList := by
  have hloop : ∀ i r, ByteArray.toList.loop bytes i r = r.reverse ++ bytes.data.toList.drop i := by
    intro i r
    fun_induction ByteArray.toList.loop bytes i r with
    | case1 i r hlt ih =>
        have hi : i < bytes.data.toList.length := by simpa using hlt
        rw [ih, List.reverse_cons, List.append_assoc, List.drop_eq_getElem_cons hi]
        congr 2
        simp [ByteArray.get!, getElem!_pos bytes.data i (by simpa using hi)]
    | case2 i r hge =>
        have hi : bytes.data.toList.length ≤ i := by simpa using Nat.le_of_not_lt hge
        rw [List.drop_eq_nil_of_le hi, List.append_nil]
  simpa [ByteArray.toList] using hloop 0 []

theorem textBytes_injective : Function.Injective textBytes := by
  intro a b h
  simp only [textBytes, toList_eq_data] at h
  have hdata : a.toUTF8.data = b.toUTF8.data := Array.toList_inj.mp h
  exact String.toByteArray_inj.mp (ByteArray.ext hdata)

theorem bigEndian_length (n : Nat) : (bigEndian n).length = 8 := rfl

/-- A quotient is read back from the next one and a byte. -/
theorem quotient_of_byte {n m k : Nat} (hnext : n / (k * 256) = m / (k * 256))
    (hbyte : UInt8.ofNat (n / k) = UInt8.ofNat (m / k)) : n / k = m / k := by
  have hmod : n / k % 256 = m / k % 256 := by
    simpa using congrArg UInt8.toNat hbyte
  rw [← Nat.div_div_eq_div_mul, ← Nat.div_div_eq_div_mul] at hnext
  omega

/-- A 64-bit number is read back from its bytes, from the first one on. -/
theorem bigEndian_injective {n m : Nat} (hn : n < 2 ^ 64) (hm : m < 2 ^ 64)
    (h : bigEndian n = bigEndian m) : n = m := by
  simp only [bigEndian, List.map_cons, List.map_nil, List.cons.injEq, and_true] at h
  obtain ⟨h7, h6, h5, h4, h3, h2, h1, h0⟩ := h
  have h64 : n / (2 ^ 56 * 256) = m / (2 ^ 56 * 256) := by
    rw [Nat.div_eq_of_lt (by omega), Nat.div_eq_of_lt (by omega)]
  have h56 := quotient_of_byte h64 h7
  have h48 := quotient_of_byte (k := 2 ^ 48) h56 h6
  have h40 := quotient_of_byte (k := 2 ^ 40) h48 h5
  have h32 := quotient_of_byte (k := 2 ^ 32) h40 h4
  have h24 := quotient_of_byte (k := 2 ^ 24) h32 h3
  have h16 := quotient_of_byte (k := 2 ^ 16) h24 h2
  have h8 := quotient_of_byte (k := 2 ^ 8) h16 h1
  have hlast := quotient_of_byte (k := 2 ^ 0) h8 h0
  simpa using hlast

/-- A field is split off by its length. -/
theorem field_split {a b s t : Bytes} (ha : a.length < 2 ^ 64) (hb : b.length < 2 ^ 64)
    (h : field a ++ s = field b ++ t) : a = b ∧ s = t := by
  simp only [field, List.append_assoc] at h
  obtain ⟨hlength, hrest⟩ := List.append_inj h (by simp [bigEndian_length])
  exact List.append_inj hrest (bigEndian_injective ha hb hlength)

end Bytes

section Intents

/-- Two creations with the same intent: the content is all that is asked for, and the
aliases are a set. -/
structure SameIntent (input input' : CreateSystem) : Prop where
  uid : input.system.uid.text = input'.system.uid.text
  label : input.system.label = input'.system.label
  parent : input.system.parent = input'.system.parent
  aliases : (input.system.sources.map (fun source =>
      (source.authority.text, source.identifier.text))).Perm
    (input'.system.sources.map (fun source => (source.authority.text, source.identifier.text)))
  time : (input.revision.semanticTime.map (·.sourceLexeme)).getD "" =
    (input'.revision.semanticTime.map (·.sourceLexeme)).getD ""
  mediaType : input.artifact.mediaType = input'.artifact.mediaType
  bytes : input.artifact.bytes = input'.artifact.bytes

/-- Every length of the request fits a machine word. -/
structure Fits (input : CreateSystem) : Prop where
  uid : (textBytes input.system.uid.text).length < 2 ^ 64
  label : (textBytes input.system.label).length < 2 ^ 64
  parent : (textBytes ((input.system.parent.map (·.text)).getD "")).length < 2 ^ 64
  count : input.system.sources.length < 2 ^ 64
  aliases : ∀ source ∈ input.system.sources, (textBytes source.authority.text).length < 2 ^ 64 ∧
    (textBytes source.identifier.text).length < 2 ^ 64
  time : (textBytes ((input.revision.semanticTime.map (·.sourceLexeme)).getD "")).length < 2 ^ 64
  mediaType : (textBytes input.artifact.mediaType).length < 2 ^ 64
  bytes : input.artifact.bytes.length < 2 ^ 64

/-- The target of a scope is the parent. -/
theorem parent_of_target {parent parent' : Option LocalId}
    (h : (parent.map (·.text)).getD "" = (parent'.map (·.text)).getD "") : parent = parent' := by
  cases parent with
  | none =>
      cases parent' with
      | none => rfl
      | some id => exact absurd h.symm id.text_ne_empty
  | some id =>
      cases parent' with
      | none => exact absurd h id.text_ne_empty
      | some id' => exact congrArg some (LocalId.ext_text h)

/-- As many pairs of fields as are announced are split off. -/
theorem aliases_split : ∀ {pairs pairs' : List (String × String)} {s t : Bytes},
    (∀ pair ∈ pairs, (textBytes pair.1).length < 2 ^ 64 ∧ (textBytes pair.2).length < 2 ^ 64) →
    (∀ pair ∈ pairs', (textBytes pair.1).length < 2 ^ 64 ∧ (textBytes pair.2).length < 2 ^ 64) →
    pairs.length = pairs'.length →
    pairs.flatMap (fun pair => field (textBytes pair.1) ++ field (textBytes pair.2)) ++ s =
      pairs'.flatMap (fun pair => field (textBytes pair.1) ++ field (textBytes pair.2)) ++ t →
    pairs = pairs' ∧ s = t
  | [], [], s, t, _, _, _, h => ⟨rfl, by simpa using h⟩
  | [], _ :: _, _, _, _, _, hlength, _ => by simp at hlength
  | _ :: _, [], _, _, _, _, hlength, _ => by simp at hlength
  | pair :: pairs, pair' :: pairs', s, t, hsize, hsize', hlength, h => by
      simp only [List.flatMap_cons, List.append_assoc] at h
      obtain ⟨hfirst, hsecond⟩ := hsize pair List.mem_cons_self
      obtain ⟨hfirst', hsecond'⟩ := hsize' pair' List.mem_cons_self
      obtain ⟨hauthority, h⟩ := field_split hfirst hfirst' h
      obtain ⟨hidentifier, h⟩ := field_split hsecond hsecond' h
      obtain ⟨rfl, rfl⟩ := aliases_split (fun p hp => hsize p (List.mem_cons_of_mem _ hp))
        (fun p hp => hsize' p (List.mem_cons_of_mem _ hp)) (by simpa using hlength) h
      exact ⟨by rw [Prod.ext (textBytes_injective hauthority) (textBytes_injective hidentifier)],
        rfl⟩

/-- **Intents.**  Equal contents are of equal intents. -/
theorem sameIntent_of_content {input input' : CreateSystem} {content : Bytes}
    (hfits : Fits input) (hfits' : Fits input') (h : retryContent input = .ok content)
    (h' : retryContent input' = .ok content) : SameIntent input input' := by
  unfold retryContent at h h'
  generalize haliases : sortBy (fun (pair : String × String) => toLex pair)
    (input.system.sources.map (fun source =>
      (source.authority.text, source.identifier.text))) = aliases at h
  generalize haliases' : sortBy (fun (pair : String × String) => toLex pair)
    (input'.system.sources.map (fun source =>
      (source.authority.text, source.identifier.text))) = aliases' at h'
  dsimp only at h h'
  split at h
  · cases h
  split at h'
  · cases h'
  have hperm : aliases.Perm (input.system.sources.map (fun source =>
      (source.authority.text, source.identifier.text))) :=
    haliases ▸ sortBy_perm (fun (pair : String × String) => toLex pair) _
  have hperm' : aliases'.Perm (input'.system.sources.map (fun source =>
      (source.authority.text, source.identifier.text))) :=
    haliases' ▸ sortBy_perm (fun (pair : String × String) => toLex pair) _
  have hlength : aliases.length = input.system.sources.length := by
    simpa using hperm.length_eq
  have hlength' : aliases'.length = input'.system.sources.length := by
    simpa using hperm'.length_eq
  have hsize : ∀ pair ∈ aliases,
      (textBytes pair.1).length < 2 ^ 64 ∧ (textBytes pair.2).length < 2 ^ 64 := by
    intro pair hpair
    obtain ⟨source, hsource, rfl⟩ := List.mem_map.mp (hperm.mem_iff.mp hpair)
    exact hfits.aliases source hsource
  have hsize' : ∀ pair ∈ aliases',
      (textBytes pair.1).length < 2 ^ 64 ∧ (textBytes pair.2).length < 2 ^ 64 := by
    intro pair hpair
    obtain ⟨source, hsource, rfl⟩ := List.mem_map.mp (hperm'.mem_iff.mp hpair)
    exact hfits'.aliases source hsource
  have heq := (Except.ok.inj h).trans (Except.ok.inj h').symm
  simp only [List.append_assoc] at heq
  have heq := List.append_cancel_left heq
  obtain ⟨huid, heq⟩ := field_split hfits.uid hfits'.uid heq
  obtain ⟨hlabel, heq⟩ := field_split hfits.label hfits'.label heq
  obtain ⟨hparent, heq⟩ := field_split hfits.parent hfits'.parent heq
  obtain ⟨hcount, heq⟩ := List.append_inj heq (by simp [bigEndian_length])
  have hcount := bigEndian_injective (hlength ▸ hfits.count) (hlength' ▸ hfits'.count) hcount
  obtain ⟨hsame, hrest⟩ := aliases_split hsize hsize' hcount heq
  obtain ⟨htime, hrest⟩ := field_split hfits.time hfits'.time hrest
  obtain ⟨hmedia, hrest⟩ := field_split hfits.mediaType hfits'.mediaType hrest
  have hbytes : field input.artifact.bytes ++ [] = field input'.artifact.bytes ++ [] := by
    rw [hrest]
  obtain ⟨hbytes, -⟩ := field_split hfits.bytes hfits'.bytes hbytes
  exact {
    uid := textBytes_injective huid
    label := textBytes_injective hlabel
    parent := parent_of_target (textBytes_injective hparent)
    aliases := hperm.symm.trans (hsame ▸ hperm')
    time := textBytes_injective htime
    mediaType := textBytes_injective hmedia
    bytes := hbytes }

end Intents

section Encoding

/-- The pairs of a request's source identities. -/
def CreateSystem.aliases (input : CreateSystem) : List (String × String) :=
  input.system.sources.map (fun source => (source.authority.text, source.identifier.text))

/-- Two requests that ask for the same, whatever the order of their aliases. -/
structure SameRequest (input input' : CreateSystem) : Prop where
  uid : input.system.uid = input'.system.uid
  label : input.system.label = input'.system.label
  parent : input.system.parent = input'.system.parent
  aliases : ∀ pair, pair ∈ input.aliases ↔ pair ∈ input'.aliases
  time : input.revision.semanticTime.map (·.sourceLexeme) =
    input'.revision.semanticTime.map (·.sourceLexeme)
  mediaType : input.artifact.mediaType = input'.artifact.mediaType
  bytes : input.artifact.bytes = input'.artifact.bytes

/-- A request that a process can hold: its lengths are machine words, and its semantic time
was parsed. -/
structure Held (input : CreateSystem) : Prop where
  fits : Fits input
  parsed : ∀ instant, input.revision.semanticTime = some instant →
    ExactInstant.parseRfc3339 instant.sourceLexeme = .ok instant

/-- What is written once the aliases are sorted. -/
def CreateSystem.framed (input : CreateSystem) (aliases : List (String × String)) : Bytes :=
  textBytes "glaux.system-create-intent.v1" ++
    field (textBytes input.system.uid.text) ++
    field (textBytes input.system.label) ++
    field (textBytes ((input.system.parent.map (·.text)).getD "")) ++
    bigEndian aliases.length ++
    aliases.flatMap (fun pair => field (textBytes pair.1) ++ field (textBytes pair.2)) ++
    field (textBytes ((input.revision.semanticTime.map (·.sourceLexeme)).getD "")) ++
    field (textBytes input.artifact.mediaType) ++
    field input.artifact.bytes

/-- A repeated alias is refused; nothing else is. -/
theorem retryContent_eq (input : CreateSystem) :
    retryContent input =
      if input.aliases.Nodup then
        .ok (input.framed (sortBy (fun (pair : String × String) => toLex pair) input.aliases))
      else .error .invalidInput := by
  have hnodup := nodup_iff_adjacent (fun (pair : String × String) => toLex pair)
    toLex.injective (sortBy_pairwise _ input.aliases)
  rw [(sortBy_perm _ input.aliases).nodup_iff] at hnodup
  by_cases h : input.aliases.Nodup
  · rw [if_pos h]
    unfold retryContent
    exact if_neg (hnodup.mp h)
  · rw [if_neg h]
    unfold retryContent
    exact if_pos (not_not.mp (fun hadjacent => h (hnodup.mpr hadjacent)))

/-- Parsed times have a text. -/
theorem sourceLexeme_ne_empty {instant : ExactInstant}
    (h : ExactInstant.parseRfc3339 instant.sourceLexeme = .ok instant) :
    instant.sourceLexeme ≠ "" := by
  intro hempty
  rw [hempty] at h
  cases h

theorem time_of_lexeme {time time' : Option ExactInstant}
    (hparsed : ∀ instant, time = some instant →
      ExactInstant.parseRfc3339 instant.sourceLexeme = .ok instant)
    (hparsed' : ∀ instant, time' = some instant →
      ExactInstant.parseRfc3339 instant.sourceLexeme = .ok instant)
    (h : (time.map (·.sourceLexeme)).getD "" = (time'.map (·.sourceLexeme)).getD "") :
    time.map (·.sourceLexeme) = time'.map (·.sourceLexeme) := by
  cases time with
  | none =>
      cases time' with
      | none => rfl
      | some instant => exact absurd h.symm (sourceLexeme_ne_empty (hparsed' instant rfl))
  | some instant =>
      cases time' with
      | none => exact absurd h (sourceLexeme_ne_empty (hparsed instant rfl))
      | some instant' => exact congrArg some h

/-- Sorting the aliases of one set gives one list. -/
theorem sorted_aliases_eq {aliases aliases' : List (String × String)} (h : aliases.Perm aliases') :
    sortBy (fun (pair : String × String) => toLex pair) aliases =
      sortBy (fun (pair : String × String) => toLex pair) aliases' :=
  sortBy_congr h (fun _ _ _ _ hkey => toLex.injective hkey)

theorem framed_congr {input input' : CreateSystem} (h : SameRequest input input')
    (aliases : List (String × String)) : input.framed aliases = input'.framed aliases := by
  unfold CreateSystem.framed
  rw [h.uid, h.label, h.parent, h.time, h.mediaType, h.bytes]

theorem content_eq_of_same {input input' : CreateSystem} {content content' : Bytes}
    (hsame : SameRequest input input') (h : retryContent input = .ok content)
    (h' : retryContent input' = .ok content') : content = content' := by
  rw [retryContent_eq] at h h'
  split at h
  · rename_i hnodup
    split at h'
    · rename_i hnodup'
      have hperm : input.aliases.Perm input'.aliases :=
        (List.perm_ext_iff_of_nodup hnodup hnodup').mpr hsame.aliases
      rw [← Except.ok.inj h, ← Except.ok.inj h', sorted_aliases_eq hperm]
      exact framed_congr hsame _
    · cases h'
  · cases h

theorem sameRequest_of_content {input input' : CreateSystem} {content : Bytes}
    (hheld : Held input) (hheld' : Held input') (h : retryContent input = .ok content)
    (h' : retryContent input' = .ok content) : SameRequest input input' := by
  have hsame := sameIntent_of_content hheld.fits hheld'.fits h h'
  exact {
    uid := by
      have huid := hsame.uid
      cases huid' : input.system.uid
      cases huid'' : input'.system.uid
      rw [huid', huid''] at huid
      exact congrArg Uid.mk huid
    label := hsame.label
    parent := hsame.parent
    aliases := fun _ => hsame.aliases.mem_iff
    time := time_of_lexeme hheld.parsed hheld'.parsed hsame.time
    mediaType := hsame.mediaType
    bytes := hsame.bytes }

/-- The order of the aliases is not written. -/
theorem retryContent_perm (input : CreateSystem) {sources : List SourceIdentity}
    (h : sources.Perm input.system.sources) :
    retryContent { input with system := { input.system with sources := sources } } =
      retryContent input := by
  have haliases : ({ input with system := { input.system with sources := sources } } :
      CreateSystem).aliases.Perm input.aliases := h.map _
  rw [retryContent_eq, retryContent_eq, sorted_aliases_eq haliases]
  by_cases hnodup : input.aliases.Nodup
  · rw [if_pos hnodup, if_pos (haliases.nodup_iff.mpr hnodup)]
    rfl
  · rw [if_neg hnodup, if_neg (fun hnodup' => hnodup (haliases.nodup_iff.mp hnodup'))]

theorem retryContent_refused (input : CreateSystem) (h : ¬ input.aliases.Nodup) :
    retryContent input = .error .invalidInput := by
  rw [retryContent_eq, if_neg h]

/-- **Intent encoding.**  Contents are equal exactly when the requests ask for the same. -/
theorem intent_encoding {input input' : CreateSystem} (hheld : Held input)
    (hheld' : Held input') :
    (∀ content content', retryContent input = .ok content → retryContent input' = .ok content' →
      (content = content' ↔ SameRequest input input')) ∧
      (∀ sources : List SourceIdentity, sources.Perm input.system.sources →
        retryContent { input with system := { input.system with sources := sources } } =
          retryContent input) ∧
      (¬ input.aliases.Nodup → retryContent input = .error .invalidInput) := by
  refine ⟨?_, fun _ h => retryContent_perm input h, retryContent_refused input⟩
  intro content content' h h'
  constructor
  · rintro rfl
    exact sameRequest_of_content hheld hheld' h h'
  · intro hsame
    exact content_eq_of_same hsame h h'

section Samples

def sampleLeap : ExactInstant := ⟨1483228799, true, "0.50", "2016-12-31T15:59:60.50-08:00"⟩

def sampleAlias (identifier : String) (h : sourceText identifier = true) :
    SourceIdentity :=
  ⟨⟨"navy", by decide +kernel⟩, ⟨identifier, h⟩⟩

def sampleIntentId : LocalId := ⟨"01890f20-7b5a-7cc3-98c4-00000000000d", by decide +kernel⟩

/-- A creation with two aliases and a semantic time. -/
def sampleIntent (label : String) : CreateSystem where
  system := {
    id := sampleIntentId
    uid := ⟨"urn:example:system"⟩
    label := label
    sources := [sampleAlias "b" (by decide +kernel), sampleAlias "a" (by decide +kernel)]
    parent := none }
  artifact := ⟨⟨sampleIntentId⟩, "application/json", [123, 125]⟩
  revision := ⟨⟨sampleIntentId⟩, sampleIntentId, ⟨sampleIntentId⟩, some sampleLeap, sampleLeap⟩
  auditId := ⟨sampleIntentId⟩
  eventId := ⟨sampleIntentId⟩
  audit := ⟨some "actor", none, "correlation", sampleLeap⟩

theorem held_sampleIntent {label : String} (h : (textBytes label).length < 2 ^ 64) :
    Held (sampleIntent label) where
  fits := {
    uid := (by decide +kernel : (textBytes "urn:example:system").length < 2 ^ 64)
    label := h
    parent := (by decide +kernel : (textBytes "").length < 2 ^ 64)
    count := (by decide : 2 < 2 ^ 64)
    aliases := by
      have hsources : ∀ source ∈ (sampleIntent "").system.sources,
          (textBytes source.authority.text).length < 2 ^ 64 ∧
            (textBytes source.identifier.text).length < 2 ^ 64 := by
        decide +kernel
      exact hsources
    time := (by decide +kernel : (textBytes sampleLeap.sourceLexeme).length < 2 ^ 64)
    mediaType := (by decide +kernel : (textBytes "application/json").length < 2 ^ 64)
    bytes := (by decide : 2 < 2 ^ 64) }
  parsed := by
    rintro instant ⟨⟩
    have hparse : (ExactInstant.parseRfc3339 sampleLeap.sourceLexeme).toOption =
        some sampleLeap := by
      decide +kernel
    cases h : ExactInstant.parseRfc3339 sampleLeap.sourceLexeme with
    | error e =>
        rw [h] at hparse
        cases hparse
    | ok instant =>
        rw [h] at hparse
        exact congrArg Except.ok (Option.some.inj hparse)

/-- Two labels are two intents; two orders of the aliases are one. -/
theorem intent_encoding_labels :
    (∀ content, retryContent (sampleIntent "buoy") = .ok content →
      retryContent (sampleIntent "vessel") ≠ .ok content) ∧
      retryContent { sampleIntent "buoy" with
        system := { (sampleIntent "buoy").system with
          sources := (sampleIntent "buoy").system.sources.reverse } } =
        retryContent (sampleIntent "buoy") := by
  have hbuoy : Held (sampleIntent "buoy") := held_sampleIntent (by decide +kernel)
  have hvessel : Held (sampleIntent "vessel") := held_sampleIntent (by decide +kernel)
  obtain ⟨hsame, hperm, -⟩ := intent_encoding hbuoy hvessel
  refine ⟨?_, hperm _ (List.reverse_perm _)⟩
  intro content h h'
  exact absurd ((hsame content content h h').mp rfl).label (by decide)

end Samples

end Encoding

end Server
end Glaux
