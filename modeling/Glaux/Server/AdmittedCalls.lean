import Glaux.Library.Outcome
import Glaux.Server.AdmissionContract
import Glaux.Server.Storage.Readings

/-!
# Admitted calls

The write calls as `authorization.rs` offers them, to any caller under any
policy: at every question the policy may answer with any permission set or fail.
-/

namespace Glaux
namespace Server

open Domain Library

/-- What surrounds the calls: the serializer, the URI check, and the denial limits. -/
structure Boundary where
  writer : StringWriter
  isUri : String → Bool
  admission : Admission

/-- Who calls, when, and under which correlation. -/
structure Arrival where
  caller : CallerContext
  time : ExactInstant
  correlation : String

namespace Boundary

variable (b : Boundary)

def context (a : Arrival) : OperationContext :=
  .new b.writer a.caller a.time a.correlation

end Boundary

inductive AdmittedRequest where
  | create (arrival : Arrival) (source : String) (input : CreateSystem)
      (retry : Option RetryKey) (precondition : Bool)
  | update (arrival : Arrival) (input : UpdateSystem)

def admittedCalls (b : Boundary) : Service where
  Request := AdmittedRequest
  Outcome := Except AccessError WriteReceipt
  program
    | .create a source input retry precondition =>
        ExceptT.run (b.admission.createSystemIf b.isUri (b.context a) source input retry
          precondition)
    | .update a input => ExceptT.run (b.admission.updateSystem b.isUri (b.context a) input)

/-- The write each call commits. -/
def AdmittedRequest.writes (b : Boundary) (engine : Engine) :
    AdmittedRequest → List Reading → Transaction → WriteReceipt → Prop
  | .create a source input retry precondition =>
      CreateWrites engine b.isUri (b.context a) source input retry precondition
  | .update a input => UpdateWrites b.isUri (b.context a) input

/-- The denial each call can leave. -/
def AdmittedRequest.denies (b : Boundary) : AdmittedRequest → Transaction → Prop
  | .create a .. => createDenies (b.context a)
  | .update a input => updateDenies (b.context a) input

def AdmittedRequest.arrival : AdmittedRequest → Arrival
  | .create a .. => a
  | .update a _ => a

/-- What each admitted call commits and how it ends. -/
def admittedContract (b : Boundary) (engine : Engine) : (admittedCalls b).Contract engine where
  accepts request tx := request.denies b tx ∨ ∃ readings receipt,
    (b.context request.arrival).actor.isSome ∧ request.writes b engine readings tx receipt
  ends request outcome session :=
    WriteEnds (request.writes b engine) (request.denies b) outcome session
  kept := by
    rintro (⟨a, source, input, retry, precondition⟩ | ⟨a, input⟩)
    · refine Keeps.mono (keeps_createSystemIf (fun tx h => .inl h)
        (fun readings tx receipt hactor h => .inr ⟨readings, receipt, hactor, h⟩)) ?_
      rintro (e | receipt) session h <;> exact h
    · refine Keeps.mono (keeps_updateSystem (fun tx h => .inl h)
        (fun readings tx receipt hactor h => .inr ⟨readings, receipt, hactor, h⟩)) ?_
      rintro (e | receipt) session h <;> exact h

section Parents

variable {isUri : String → Bool}

/-- Reading a page keeps each record's ID and parent. -/
theorem foldRow_items {items items' : List SystemRecord} {row : Sql.ListRow}
    (h : foldRow isUri items row = .ok items') {record : SystemRecord}
    (hrecord : record ∈ items') :
    (∃ old ∈ items, old.id = record.id ∧ old.parent = record.parent) ∨
      row.id = some record.id ∧ row.parent = record.parent := by
  unfold foldRow at h
  cases hid : row.id with
  | none =>
      rw [hid] at h
      obtain rfl := Except.ok.inj h
      exact .inl ⟨record, hrecord, rfl, rfl⟩
  | some id =>
      rw [hid] at h
      obtain ⟨started, hstarted, hadded⟩ := bind_eq_ok.mp h
      -- the records the alias is added to
      have hstart : ∀ old ∈ started, (∃ old' ∈ items, old'.id = old.id ∧
          old'.parent = old.parent) ∨ id = old.id ∧ row.parent = old.parent := by
        intro old hold
        unfold startRecord at hstarted
        split at hstarted
        · obtain rfl := Except.ok.inj hstarted
          exact .inl ⟨old, hold, rfl, rfl⟩
        · obtain ⟨uidText, -, hrest⟩ := bind_eq_ok.mp hstarted
          obtain ⟨uid, -, hrest⟩ := bind_eq_ok.mp hrest
          obtain ⟨label, -, hrest⟩ := bind_eq_ok.mp hrest
          obtain rfl := Except.ok.inj hrest
          obtain hold | hnew := List.mem_append.mp hold
          · exact .inl ⟨old, hold, rfl, rfl⟩
          · obtain rfl := List.mem_singleton.mp hnew
            exact .inr ⟨rfl, rfl⟩
      obtain ⟨old, hold, hsame⟩ : ∃ old ∈ started,
          old.id = record.id ∧ old.parent = record.parent := by
        unfold addAlias at hadded
        split at hadded
        · obtain rfl := Except.ok.inj hadded
          exact ⟨record, hrecord, rfl, rfl⟩
        · obtain ⟨last, hlast, hrest⟩ := bind_eq_ok.mp hadded
          obtain ⟨authority, -, hrest⟩ := bind_eq_ok.mp hrest
          obtain ⟨text, -, hrest⟩ := bind_eq_ok.mp hrest
          obtain ⟨identifier, -, hrest⟩ := bind_eq_ok.mp hrest
          obtain rfl := Except.ok.inj hrest
          have hmem : last ∈ started := by
            cases hfound : started.getLast? with
            | none => rw [hfound] at hlast; cases hlast
            | some found =>
                rw [hfound] at hlast
                obtain rfl := Except.ok.inj hlast
                exact List.mem_of_getLast? hfound
          obtain hold | hnew := List.mem_append.mp hrecord
          · exact ⟨record, List.mem_of_mem_dropLast hold, rfl, rfl⟩
          · obtain rfl := List.mem_singleton.mp hnew
            exact ⟨last, hmem, rfl, rfl⟩
      obtain ⟨hsameId, hparent⟩ := hsame
      obtain ⟨old', hold', hid', hparent'⟩ | ⟨rfl, hparent'⟩ := hstart old hold
      · exact .inl ⟨old', hold', hid'.trans hsameId, hparent'.trans hparent⟩
      · exact .inr ⟨congrArg some hsameId, hparent'.trans hparent⟩

theorem readPage_items {rows : List Sql.ListRow} {page : SystemPage}
    (h : readPage isUri rows = .ok page) {record : SystemRecord} (hrecord : record ∈ page.items) :
    ∃ row ∈ rows, row.id = some record.id ∧ row.parent = record.parent := by
  obtain ⟨first, -, hrest⟩ := bind_eq_ok.mp h
  obtain ⟨items, hitems, hpage⟩ := bind_eq_ok.mp hrest
  obtain rfl := Except.ok.inj hpage
  have hrows : ∀ record ∈ items, ∃ row ∈ [] ++ rows, row.id = some record.id ∧
      row.parent = record.parent := by
    refine foldlM_invariant (P := fun done items => ∀ record ∈ items,
      ∃ row ∈ done, row.id = some record.id ∧ row.parent = record.parent) ?_ (by simp) hitems
    intro done row items items' hitems hfold record hrecord
    obtain ⟨old, hold, hid, hparent⟩ | ⟨hid, hparent⟩ := foldRow_items hfold hrecord
    · obtain ⟨row', hrow', hid', hparent'⟩ := hitems old hold
      exact ⟨row', List.mem_append_left _ hrow', hid ▸ hid', hparent'.trans hparent⟩
    · exact ⟨row, by simp, hid, hparent⟩
  simpa using hrows record hrecord

/-- What a call has read of a System's parent, in the rows of the database. -/
theorem Linked.holds {db : Database} {readings : List Reading} {id : LocalId}
    {link : Option (LocalId × String)} (h : Linked isUri readings id link)
    (hholds : ∀ reading ∈ readings, reading.Holds db) {parent : LocalId}
    (hparent : Row.systemParent ⟨id, parent⟩ ∈ db) :
    ∃ owner, link = some (parent, owner) ∧ OwnedBy db parent owner := by
  obtain ⟨⟨scope, rows, page, record, hrows, hpage, hhead, hrecord⟩, howner⟩ := h
  obtain ⟨row, hrow, hid, hrowParent⟩ := readPage_items hpage (List.mem_of_head? hhead)
  obtain ⟨honly, -, hedge⟩ := hholds _ hrows row hrow record.id hid
  obtain rfl := honly id rfl
  have hlink : link.map (·.1) = some parent := by
    rw [← hrecord, ← hrowParent]
    exact (hedge parent).mpr hparent
  obtain ⟨⟨_, owner⟩, rfl, rfl⟩ := Option.map_eq_some_iff.mp hlink
  exact ⟨owner, rfl, hholds _ (howner _ owner rfl) owner rfl⟩

end Parents

section Samples

/-- How `serde_json` writes one character of a string. -/
def escapedChar (c : Char) : List Char :=
  let escape (n : Nat) : List Char := [Char.ofNat 92, Char.ofNat n]
  match c.toNat with
  | 34 => escape 34
  | 92 => escape 92
  | 8 => escape 98
  | 9 => escape 116
  | 10 => escape 110
  | 12 => escape 102
  | 13 => escape 114
  | n =>
      if n < 32 then escape 117 ++ ['0', '0', Nat.digitChar (n / 16), Nat.digitChar (n % 16)]
      else [c]

def sampleWriter : StringWriter where
  write text := String.ofList
    (Char.ofNat 34 :: (text.toList.flatMap escapedChar ++ [Char.ofNat 34]))

def sampleBoundary : Boundary := ⟨sampleWriter, fun _ => true, ⟨⟨10, 10, 60⟩⟩⟩

def sampleArrival : Arrival := ⟨sampleCaller, sampleTime, "correlation"⟩

end Samples

end Server
end Glaux
