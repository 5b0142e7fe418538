import Glaux.Server.TrustedCalls

/-!
# No lost update

Any number of creations and conditional or unconditional updates, interleaved
statement by statement, with failures at any of them.
-/

namespace Glaux
namespace Server

open Domain Library

/-- Call `i` is an update with this input. -/
def World.updates (w : World trustedCalls) (i : Nat) (input : UpdateSystem) : Prop :=
  ∃ call, w.calls[i]? = some call ∧ call.request = .update input

/-- What holds in `w` when no update has been lost. -/
structure NoLostUpdate (engine : Engine) (w : World trustedCalls) : Prop where
  /-- every head names a revision of its System and the artifact bound to it -/
  heads : ∀ row, Row.systemWriteHead row ∈ w.db →
    ∃ revision artifact, Row.systemRevision revision ∈ w.db ∧
      revision.id = row.revisionId ∧ revision.systemId = row.systemId ∧
      revision.artifactId = row.artifactId ∧ Row.sourceArtifact artifact ∈ w.db ∧
      artifact.id = row.artifactId
  /-- a committed conditional update replaced the head it expected, and nobody had
  moved that head since the update read it -/
  replaced : ∀ earlier i tx before clock later,
    w.history = earlier ++ .committed i tx before clock :: later →
    ∀ input r, w.updates i input → input.expectedRevision = some r →
      tx.writes = input.writes ∧
      (∃ row, before.head? input.systemId = some row ∧ row.revisionId = r) ∧
      World.ReadSince earlier i input.systemId (some r)
  /-- two committed conditional updates of one System expected different revisions -/
  distinct : ∀ earlier i tx before clock between i' tx' before' clock' later,
    w.history = earlier ++ .committed i tx before clock ::
      (between ++ .committed i' tx' before' clock' :: later) →
    ∀ input input' r r', w.updates i input → w.updates i' input' →
      input.systemId = input'.systemId → input.expectedRevision = some r →
      input'.expectedRevision = some r' → r ≠ r'
  /-- the database changes by whole commits only -/
  unchanged : ∀ e w', World.step engine w e = some w' → w'.db = w.db ∨
    ∃ i choice tx, e = .step i choice ∧ w'.db = w.db.applyAll tx.writes ∧
      w'.history = w.history ++ [.committed i tx w.db w.now]
  /-- a call that was told of no COMMIT and is in doubt about none made none -/
  uncommitted : ∀ (i : Nat) (call : Running trustedCalls), w.calls[i]? = some call →
    call.session.committed = [] → call.session.doubtful = [] →
    ∀ tx before clock, .committed i tx before clock ∉ w.history

section LostUpdate

variable {engine : Engine} {w : World trustedCalls}

/-- What an update has committed is an update's transaction. -/
theorem World.Inv.updateCommits (hinv : w.Inv (trustedContract engine)) {i : Nat}
    {tx : Transaction} {before : Database} {clock : Timestamp} {input : UpdateSystem}
    (hmem : .committed i tx before clock ∈ w.history) (hinput : w.updates i input) :
    ∃ receipt, UpdateCommits freeUpdate input tx receipt := by
  obtain ⟨call, hcall, hrequest⟩ := hinput
  obtain ⟨call', hcall', haccepts, -⟩ := hinv.carriedOut i tx before clock hmem
  obtain rfl := Option.some.inj (hcall.symm.trans hcall')
  rw [hrequest] at haccepts
  exact haccepts

/-- A conditional update replaces the head it expected. -/
theorem UpdateCommits.replaces {input : UpdateSystem} {tx : Transaction}
    {receipt : WriteReceipt} {r : RevisionId} (h : UpdateCommits freeUpdate input tx receipt)
    (hexpected : input.expectedRevision = some r) : tx.replaces input.systemId r := by
  obtain ⟨current, hcurrent, hmatches⟩ := h.head
  refine ⟨⟨⟨input.systemId, input.revision.id, input.artifact.id⟩, ?_, rfl⟩,
    hmatches r hexpected ▸ hcurrent⟩
  simp [h.writes, UpdateSystem.writes]

theorem artifact_of_revision {db : Database} (hclosed : db.Closed) {revision : SystemRevision}
    (h : Row.systemRevision revision ∈ db) :
    ∃ artifact, Row.sourceArtifact artifact ∈ db ∧ artifact.id = revision.artifactId := by
  have hmeets := hclosed _ h (.artifact revision.artifactId) (by simp [Row.requires])
  obtain ⟨found, hfound, hprovides⟩ := Database.meets_iff.mp hmeets
  obtain ⟨artifact, rfl, hid⟩ := provides_artifact.mp hprovides
  exact ⟨artifact, hfound, hid⟩

/-- **No lost update.** -/
theorem no_lost_update (h : (World.machine engine trustedCalls).Reachable w) :
    NoLostUpdate engine w := by
  have hinv := World.inv_of_reachable (trustedContract engine) h
  exact {
    heads := fun row hrow => by
      obtain ⟨head, hhead⟩ : ∃ head, w.db.head? row.systemId = some head :=
        Option.isSome_iff_exists.mp (List.findSome?_isSome_iff.mpr ⟨_, hrow, by simp⟩)
      obtain ⟨hmem, hid⟩ := Database.head?_mem hhead
      obtain rfl : head = row := Row.systemWriteHead.inj
        (hinv.unique.eq_of_key (.head row.systemId) hmem hrow (by simp [Row.keys, hid])
          (by simp [Row.keys]))
      obtain ⟨revision, hrevision, h₁, h₂, h₃⟩ := World.revision_of_head hinv.closed hhead
      obtain ⟨artifact, hartifact, h₄⟩ := artifact_of_revision hinv.closed hrevision
      exact ⟨revision, artifact, hrevision, h₁, h₂, h₃, hartifact, h₄.trans h₃⟩
    replaced := fun earlier i tx before clock later hsplit input r hinput hexpected => by
      have hmem : .committed i tx before clock ∈ w.history := by simp [hsplit]
      obtain ⟨receipt, hcommits⟩ := hinv.updateCommits hmem hinput
      have hreplaces := hcommits.replaces hexpected
      have hpast := World.superseded_of_reachable (trustedContract engine) h
      refine ⟨hcommits.writes, (hpast i tx before clock hmem _ _ hreplaces).1, ?_⟩
      exact (World.headsRead_of_reachable (trustedContract engine) h).committed earlier i tx
        before clock later hsplit _ _ hcommits.locked hreplaces.2
    distinct := fun earlier i tx before clock between i' tx' before' clock' later hsplit input
        input' r r' hinput hinput' hsame hexpected hexpected' => by
      have hmem : .committed i tx before clock ∈ w.history := by simp [hsplit]
      have hmem' : .committed i' tx' before' clock' ∈ w.history := by simp [hsplit]
      obtain ⟨receipt, hcommits⟩ := hinv.updateCommits hmem hinput
      obtain ⟨receipt', hcommits'⟩ := hinv.updateCommits hmem' hinput'
      exact (World.replaces_distinct (trustedContract engine) h).of_split hsplit
        input.systemId r r' (hcommits.replaces hexpected) (hsame ▸ hcommits'.replaces hexpected')
    unchanged := fun e w' hst => by
      cases hinv.shared hst with
      | unchanged db => exact .inl db
      | commits event _ db _ history => exact .inr ⟨_, _, _, event, db, history⟩
    uncommitted := fun i call hcall hcommitted hdoubtful =>
      hinv.uncommitted hcall hcommitted hdoubtful }

def sampleThird : LocalId := ⟨"01890f20-7b5a-7cc3-98c4-000000000003", by decide +kernel⟩

/-- Two updates that expect the same revision.  The second has begun before the
first commits, and reads the head after it. -/
def sampleRace : List (Event trustedCalls) :=
  [.start (TrustedRequest.create (sampleCreate sampleParent "urn:parent" none) none)] ++
  runs 0 3 ++ [.step 0 (.allow true)] ++ runs 0 9 ++
  [.start (TrustedRequest.update (sampleUpdate sampleParent sampleChild (some ⟨sampleParent⟩))),
    .start (TrustedRequest.update (sampleUpdate sampleParent sampleThird (some ⟨sampleParent⟩)))] ++
  runs 2 3 ++ runs 1 4 ++ [.step 1 (.allow true)] ++ runs 1 9 ++
  runs 2 1 ++ [.step 2 (.allow true)] ++ runs 2 3

theorem no_lost_update_race : ∃ w : World trustedCalls,
    (World.machine ⟨fun _ => [], fun _ => 0⟩ trustedCalls).runEvents
      (World.empty trustedCalls) sampleRace = some w ∧
    w.history.length = 4 ∧ w.calls.map (fun call => call.outcome?.map Except.isOk) =
      [some true, some true, some false] ∧
    NoLostUpdate ⟨fun _ => [], fun _ => 0⟩ w := by
  have hrun : ((World.machine ⟨fun _ => [], fun _ => 0⟩ trustedCalls).runEvents
      (World.empty trustedCalls) sampleRace).map (fun w =>
        (w.history.length, w.calls.map (fun call => call.outcome?.map Except.isOk))) =
      some (4, [some true, some true, some false]) := by decide +kernel
  obtain ⟨w, hw, hends⟩ := Option.map_eq_some_iff.mp hrun
  obtain ⟨hlength, houtcomes⟩ := Prod.mk.inj hends
  exact ⟨w, hw, hlength, houtcomes, no_lost_update
    (Machine.reachable_of_runEvents (World.start_empty trustedCalls) hw)⟩

end LostUpdate

end Server
end Glaux
