import Mathlib.Data.List.Basic

/-!
# Local locators, published UIDs and source identities (`identity.rs`)
-/

namespace Glaux
namespace Domain

def maxIdentityTextBytes : Nat := 4096

/-- `char::is_control`. -/
def isControl (c : Char) : Bool :=
  c.toNat < 32 || (127 ≤ c.toNat && c.toNat < 160)

/-- The text test of `LocalId::from_str`, with the version and variant digits. -/
def canonicalLocalId (text : String) : Bool :=
  text.toList.length == 36 &&
    text.toList.zipIdx.all (fun (c, i) =>
      if i = 8 ∨ i = 13 ∨ i = 18 ∨ i = 23 then c == '-'
      else c.isDigit || ('a' ≤ c && c ≤ 'f')) &&
    text.toList[14]? == some '7' &&
    (text.toList[19]?.any (fun c => c == '8' || c == '9' || c == 'a' || c == 'b'))

/-- A local ID, kept as its canonical text; the order of the texts is the order
of the stored UUIDs. -/
structure LocalId where
  text : String
  canonical : canonicalLocalId text = true
deriving DecidableEq

/-- `LocalId::from_str`. -/
def LocalId.parse (text : String) : Option LocalId :=
  if h : canonicalLocalId text = true then some ⟨text, h⟩ else none

theorem LocalId.ext_text {a b : LocalId} (h : a.text = b.text) : a = b := by
  obtain ⟨text, canonical⟩ := a
  obtain ⟨text', canonical'⟩ := b
  cases h
  rfl

theorem LocalId.parse_text (id : LocalId) : LocalId.parse id.text = some id := by
  simp [LocalId.parse, id.canonical]

/-- Texts of local IDs are never empty. -/
theorem LocalId.text_ne_empty (id : LocalId) : id.text ≠ "" := by
  intro h
  have hlen : id.text.toList.length = 36 := by
    have := id.canonical
    simp only [canonicalLocalId, Bool.and_eq_true, beq_iff_eq] at this
    exact this.1.1.1
  simp [h] at hlen

/-- A published UID; `isUri` stands for the URI syntax check. -/
structure Uid where
  text : String
deriving DecidableEq

/-- `Uid::from_str`. -/
def Uid.parse (isUri : String → Bool) (text : String) : Option Uid :=
  if maxIdentityTextBytes < text.utf8ByteSize || !isUri text then none
  else some ⟨text⟩

/-- `source_text`. -/
def sourceText (text : String) : Bool :=
  !text.isEmpty && text.utf8ByteSize ≤ maxIdentityTextBytes && !text.toList.any isControl

/-- A source authority or identifier. -/
structure SourceText where
  text : String
  valid : sourceText text = true
deriving DecidableEq

def SourceText.parse (text : String) : Option SourceText :=
  if h : sourceText text = true then some ⟨text, h⟩ else none

theorem SourceText.parse_text (source : SourceText) :
    SourceText.parse source.text = some source := by
  simp [SourceText.parse, source.valid]

structure SourceIdentity where
  authority : SourceText
  identifier : SourceText
deriving DecidableEq

end Domain
end Glaux
