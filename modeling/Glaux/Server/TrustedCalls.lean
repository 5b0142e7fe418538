import Glaux.Server.ApplicationContract
import Glaux.Server.Authorization.OneRule
import Glaux.Server.Storage.History

/-!
# Trusted callers

The write calls as `application.rs` offers them: any creation and any update, by
callers whose authorization callbacks answer as they like.
-/

namespace Glaux
namespace Server

open Domain Library

inductive TrustedRequest where
  | create (input : CreateSystem) (retry : Option RetryKey)
  | update (input : UpdateSystem)

def trustedCalls : Service where
  Request := TrustedRequest
  Outcome := Except StorageError WriteReceipt
  program
    | .create input retry => ExceptT.run (createSystemInner input retry askCreate)
    | .update input => ExceptT.run (updateSystemAdmission input askUpdate)

/-- A caller's own callback asks no policy. -/
def freeCreate : CreateRule := fun _ _ asked _ => asked = []

def freeUpdate : UpdateRule := fun asked _ => asked = []

section Callbacks

variable {engine : Engine} {accepts : Transaction → Prop}

theorem decides_askCreate : DecidesCreate engine accepts askCreate freeCreate := by
  intro receipt replay base kind tx
  refine keeps_ask (by simp) (fun allowed => ?_)
  exact ⟨kind, [], rfl, by simp [Answers.decisions]⟩

theorem decides_askUpdate : DecidesUpdate engine accepts askUpdate freeUpdate := by
  intro base kind tx
  refine keeps_ask (by simp) (fun allowed => ?_)
  exact ⟨kind, [], rfl, by simp [Answers.decisions]⟩

end Callbacks

/-- What each trusted call commits and how it ends. -/
def trustedContract (engine : Engine) : trustedCalls.Contract engine where
  accepts
    | .create input retry => fun tx => ∃ receipt,
        CreateCommits engine freeCreate input retry tx receipt
    | .update input => fun tx => ∃ receipt, UpdateCommits freeUpdate input tx receipt
  ends
    | .create input retry => fun outcome session =>
        Finished (CreateCommits engine freeCreate input retry)
          (CreateAbandons engine freeCreate input retry) .idle outcome session
    | .update input => fun outcome session =>
        Finished (UpdateCommits freeUpdate input) (UpdateAbandons freeUpdate input) .idle
          outcome session
  kept := by
    rintro (⟨input, retry⟩ | input)
    · refine Keeps.mono (keeps_createSystemInner decides_askCreate
        (fun tx receipt h => ⟨receipt, h⟩) rfl) ?_
      rintro (e | receipt) session h <;> exact h
    · refine Keeps.mono (keeps_updateSystemAdmission decides_askUpdate
        (fun tx receipt h => ⟨receipt, h⟩) rfl) ?_
      rintro (e | receipt) session h <;> exact h

section Samples

def sampleAudit : AuditContext := ⟨some "actor", some "north", "correlation", sampleTime⟩

def sampleArtifact (id : LocalId) : NewSourceArtifact := ⟨⟨id⟩, "application/geo+json", []⟩

/-- A creation under one ID for all its rows. -/
def sampleCreate (id : LocalId) (uid : String) (parent : Option LocalId) : CreateSystem where
  system := ⟨id, ⟨uid⟩, "created", [], parent⟩
  artifact := sampleArtifact id
  revision := ⟨⟨id⟩, id, ⟨id⟩, none, sampleTime⟩
  auditId := ⟨id⟩
  eventId := ⟨id⟩
  audit := sampleAudit

/-- An update whose new rows share one ID. -/
def sampleUpdate (system new : LocalId) (expected : Option RevisionId) : UpdateSystem where
  systemId := system
  label := "updated"
  artifact := sampleArtifact new
  revision := ⟨⟨new⟩, system, ⟨new⟩, none, sampleTime⟩
  auditId := ⟨new⟩
  eventId := ⟨new⟩
  audit := sampleAudit
  expectedRevision := expected

/-- `n` statements of call `i`, all as they should go. -/
def runs {service : Service} (i n : Nat) : List (Event service) :=
  List.replicate n (.step i .run)

end Samples

end Server
end Glaux
