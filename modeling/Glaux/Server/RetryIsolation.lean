import Glaux.Library.PrefixFree
import Glaux.Server.AdmissionSafety
import Glaux.Server.KeyedCreation
import Glaux.Server.RetryIntent

/-!
# Retries stay with their caller

A retained receipt is found by actor, source, target and key.  The actor is a JSON
array of three strings that the caller chooses, so it is the encoding that keeps
callers apart.  Any number of callers and calls, interleaved statement by statement.
-/

namespace Glaux
namespace Server

open Domain Library

section Actors

def quote : Char := Char.ofNat 34

def backslash : Char := Char.ofNat 92

/-- What can stand between the quotes of a JSON string. -/
inductive Quoted : List Char → Prop
  | nil : Quoted []
  | plain {c : Char} {rest : List Char} (hquote : c ≠ quote) (hbackslash : c ≠ backslash)
      (h : Quoted rest) : Quoted (c :: rest)
  | escaped {c : Char} {rest : List Char} (h : Quoted rest) : Quoted (backslash :: c :: rest)

/-- The first quote that is not escaped ends a string. -/
theorem Quoted.split {body body' s t : List Char} (h : Quoted body) (h' : Quoted body')
    (heq : body ++ quote :: s = body' ++ quote :: t) : body = body' ∧ s = t := by
  have hne : quote ≠ backslash := by decide
  induction h generalizing body' with
  | nil =>
      cases h' with
      | nil => exact ⟨rfl, (List.cons.inj heq).2⟩
      | plain hquote => exact absurd (List.cons.inj heq).1.symm hquote
      | escaped => exact absurd (List.cons.inj heq).1 hne
  | plain hquote hbackslash _ ih =>
      cases h' with
      | nil => exact absurd (List.cons.inj heq).1 hquote
      | plain _ _ h' =>
          obtain ⟨rfl, hrest⟩ := List.cons.inj heq
          obtain ⟨rfl, rfl⟩ := ih h' hrest
          exact ⟨rfl, rfl⟩
      | escaped => exact absurd (List.cons.inj heq).1 hbackslash
  | escaped _ ih =>
      cases h' with
      | nil => exact absurd (List.cons.inj heq).1.symm hne
      | plain _ hbackslash => exact absurd (List.cons.inj heq).1.symm hbackslash
      | escaped h' =>
          obtain ⟨rfl, hrest⟩ := List.cons.inj (List.cons.inj heq).2
          obtain ⟨rfl, rfl⟩ := ih h' hrest
          exact ⟨rfl, rfl⟩

/-- The serializer writes different strings differently, each as a JSON string. -/
structure StringWriter.Json (writer : StringWriter) : Prop where
  injective : Function.Injective writer.write
  literal : ∀ text, ∃ body, (writer.write text).toList = quote :: (body ++ [quote]) ∧ Quoted body

variable {writer : StringWriter}

/-- A written string ends where its text says. -/
theorem StringWriter.Json.prefixFree (h : writer.Json) :
    PrefixFree (fun text => (writer.write text).toList) := by
  intro a b s t heq
  obtain ⟨body, hbody, hquoted⟩ := h.literal a
  obtain ⟨body', hbody', hquoted'⟩ := h.literal b
  simp only [hbody, hbody', List.cons_append, List.append_assoc, List.nil_append] at heq
  obtain ⟨rfl, rfl⟩ := hquoted.split hquoted' (List.cons.inj heq).2
  exact ⟨h.injective (String.toList_inj.mp (hbody.trans hbody'.symm)), rfl⟩

theorem StringWriter.array_toList (a b c : String) :
    (writer.array [a, b, c]).toList =
      '[' :: ((writer.write a).toList ++ ',' :: ((writer.write b).toList ++
        ',' :: ((writer.write c).toList ++ [']']))) := by
  have harray : writer.array [a, b, c] =
      "[" ++ (writer.write a ++ "," ++ writer.write b ++ "," ++ writer.write c) ++ "]" := rfl
  simp [harray]

/-- The caller's identity. -/
structure SameCaller (caller caller' : CallerContext) : Prop where
  issuer : caller.issuer = caller'.issuer
  subject : caller.subject = caller'.subject
  kind : caller.kind = caller'.kind

/-- One actor, one identity. -/
theorem sameCaller_of_array (hjson : writer.Json) {caller caller' : CallerContext}
    (h : writer.array [caller.issuer, caller.subject, caller.kind.text] =
      writer.array [caller'.issuer, caller'.subject, caller'.kind.text]) :
    SameCaller caller caller' := by
  have hlist := congrArg String.toList h
  rw [StringWriter.array_toList, StringWriter.array_toList] at hlist
  obtain ⟨hissuer, hlist⟩ := hjson.prefixFree _ _ _ _ (List.cons.inj hlist).2
  obtain ⟨hsubject, hlist⟩ := hjson.prefixFree _ _ _ _ (List.cons.inj hlist).2
  obtain ⟨hkind, -⟩ := hjson.prefixFree _ _ _ _ (List.cons.inj hlist).2
  refine ⟨hissuer, hsubject, ?_⟩
  cases hcaller : caller.kind <;> cases hcaller' : caller'.kind <;>
    simp [hcaller, hcaller', CallerKind.text] at hkind ⊢

variable {b : Boundary}

/-- A recorded actor is the whole identity. -/
theorem context_actor {a : Arrival} {actor : String} (h : (b.context a).actor = some actor) :
    actor = b.writer.array [a.caller.issuer, a.caller.subject, a.caller.kind.text] := by
  simp only [Boundary.context, OperationContext.new] at h
  split at h
  · exact (Option.some.inj h).symm
  · cases h

theorem sameCaller_of_actor (hjson : b.writer.Json) {a a' : Arrival} {actor : String}
    (h : (b.context a).actor = some actor) (h' : (b.context a').actor = some actor) :
    SameCaller a.caller a'.caller :=
  sameCaller_of_array hjson ((context_actor h).symm.trans (context_actor h'))

end Actors

section Rows

variable {service : Service} {engine : Engine} {contract : service.Contract engine}
  {w w' : World service}

/-- A commit of the history stored the row. -/
def StoredBy (history : List Happening) (row : SystemCreateRetry) : Prop :=
  ∃ i tx before clock, .committed i tx before clock ∈ history ∧ Write.retry row ∈ tx.writes

theorem StoredBy.append {history : List Happening} {row : SystemCreateRetry}
    (h : StoredBy history row) (more : List Happening) : StoredBy (history ++ more) row := by
  obtain ⟨i, tx, before, clock, hmem, hrow⟩ := h
  exact ⟨i, tx, before, clock, List.mem_append_left _ hmem, hrow⟩

/-- Where the retention rows come from when there were none. -/
structure World.Traced (w : World service) : Prop where
  rows : ∀ scope row, w.db.retryRow? scope = some row → StoredBy w.history row
  /-- a row that a transaction has found is of its scope and was stored before its COMMIT -/
  found : ∀ earlier i tx before clock later,
    w.history = earlier ++ .committed i tx before clock :: later →
    ∀ clock' row, tx.looked = some (clock', some row) →
      tx.scopeLock = some row.scope ∧ StoredBy earlier row

theorem World.Traced.step (hinv : w.Inv contract) (hpast : w.Traced) {e : Event service}
    (h : World.step engine w e = some w') : w'.Traced where
  rows := fun scope row hrow => by
    cases hinv.shared h with
    | unchanged db _ reads history =>
        rw [history]
        exact (hpast.rows scope row (db ▸ hrow)).append reads
    | @commits j _ tx _ opened db _ history =>
        rw [history]
        rw [db] at hrow
        obtain ⟨hsame, -⟩ | ⟨stored, hstored, -, hnew, -⟩ :=
          retryRow?_commit (hinv.sound j tx opened) scope
        · exact (hpast.rows scope row (hsame ▸ hrow)).append _
        · obtain rfl := Option.some.inj (hnew.symm.trans hrow)
          exact ⟨j, tx, w.db, w.now, by simp, hstored⟩
  found := fun earlier i tx before clock later hsplit clock' row hlooked => by
    cases hinv.shared h with
    | unchanged _ _ reads history heads =>
        rw [history] at hsplit
        obtain ⟨rest, hrest⟩ := committed_before_reads heads hsplit
        exact hpast.found earlier i tx before clock rest hrest clock' row hlooked
    | commits _ opened _ _ history =>
        rw [history] at hsplit
        obtain ⟨-, heq, rfl⟩ | ⟨rest, -, hrest⟩ := snoc_eq_append_cons hsplit
        · obtain ⟨rfl, rfl, -, -⟩ := Happening.committed.inj heq
          obtain ⟨-, scope, hscope, hfound⟩ := (hinv.sound i tx opened).looked clock' _ hlooked
          obtain ⟨hrow, -⟩ := Option.filter_eq_some_iff.mp hfound.symm
          obtain ⟨-, rfl⟩ := Database.retryRow?_mem hrow
          exact ⟨hscope, hpast.rows _ row hrow⟩
        · exact hpast.found earlier i tx before clock rest hrest clock' row hlooked

/-- A run from a database without retention rows. -/
theorem World.traced_of_leads (contract : service.Contract engine) {w₀ : World service}
    (hstart : w₀.Start) (hnone : ∀ row, Row.systemCreateRetry row ∉ w₀.db)
    (hrun : (World.machine engine service).Leads w₀ w) : w.Traced := by
  have hboth : w.Inv contract ∧ w.Traced := by
    refine hrun.invariant (P := fun w => w.Inv contract ∧ w.Traced)
      (fun w e w' hw hst => ⟨hw.1.of_step hst, hw.2.step hw.1 hst⟩) ⟨hstart.inv, ?_⟩
    exact {
      rows := fun scope row hrow => absurd (Database.retryRow?_mem hrow).1 (hnone row)
      found := fun earlier i tx before clock later hsplit => by
        simp [hstart.history] at hsplit }
  exact hboth.2

end Rows

section Isolation

variable {b : Boundary} {engine : Engine} {w : World (admittedCalls b)}

/-- Two keyed creations of one identity, source, parent, key and intent. -/
structure SameCreation (engine : Engine) (a : Arrival) (source : String) (input : CreateSystem)
    (key : RetryKey) (a' : Arrival) (source' : String) (input' : CreateSystem)
    (key' : RetryKey) : Prop where
  caller : SameCaller a.caller a'.caller
  source : source = source'
  parent : input.system.parent = input'.system.parent
  key : key.key = key'.key
  /-- the digests agree, so the intents do unless SHA-256 collides on their contents -/
  intent : ∃ content content', retryContent input = .ok content ∧
    retryContent input' = .ok content' ∧ engine.sha256 content = engine.sha256 content' ∧
    (content = content' → Fits input → Fits input' → SameIntent input input')

/-- The rows of the creation are part of the transaction. -/
def Creates (b : Boundary) (a : Arrival) (source : String) (input : CreateSystem)
    (tx : Transaction) : Prop :=
  ∀ write ∈ (Admission.createInput (b.context a) source input).writes, write ∈ tx.writes

/-- What holds in `w` when retries do not cross callers. -/
structure RetryIsolated (b : Boundary) (engine : Engine) (w : World (admittedCalls b)) : Prop where
  /-- a returned receipt is the call's own, or that of an earlier creation that is the same -/
  receipts : ∀ (i : Nat) (call : Running (admittedCalls b)) a source input key precondition
    receipt, w.calls[i]? = some call →
    call.request = .create a source input (some key) precondition →
    call.outcome? = some (.ok receipt) →
    ∃ earlier tx before clock later,
      w.history = earlier ++ .committed i tx before clock :: later ∧
      ((receipt = input.receipt ∧ Creates b a source input tx) ∨
        ∃ j call' a' source' input' key' precondition' tx' before' clock',
          .committed j tx' before' clock' ∈ earlier ∧ w.calls[j]? = some call' ∧
          call'.request = .create a' source' input' (some key') precondition' ∧
          Creates b a' source' input' tx' ∧ receipt = input'.receipt ∧
          SameCreation engine a source input key a' source' input' key')
  /-- a scope has one identity -/
  scopes : ∀ a source input key actor a' source' input' key' actor',
    (b.context a).actor = some actor → (b.context a').actor = some actor' →
    (Admission.createInput (b.context a) source input).scope actor key =
      (Admission.createInput (b.context a') source' input').scope actor' key' →
    SameCaller a.caller a'.caller
  /-- and so has the actor of the committed audit rows -/
  actors : ∀ i j tx tx' before before' clock clock',
    .committed i tx before clock ∈ w.history → .committed j tx' before' clock' ∈ w.history →
    ∀ audit audit', Write.insert (.serverAudit audit) ∈ tx.writes →
      Write.insert (.serverAudit audit') ∈ tx'.writes →
      ∀ actor, audit.actor = some actor → audit'.actor = some actor →
      ∃ (call call' : Running (admittedCalls b)), w.calls[i]? = some call ∧
        w.calls[j]? = some call' ∧
        SameCaller call.request.arrival.caller call'.request.arrival.caller
  /-- an identity too long to record writes nothing but denials, and without an actor -/
  refused : ∀ (i : Nat) (call : Running (admittedCalls b)), w.calls[i]? = some call →
    256 < (b.writer.array [call.request.arrival.caller.issuer,
      call.request.arrival.caller.subject,
      call.request.arrival.caller.kind.text]).utf8ByteSize →
    (∀ receipt, call.outcome? ≠ some (.ok receipt)) ∧
      ∀ tx before clock, .committed i tx before clock ∈ w.history →
        call.request.denies b tx ∧
        ∀ audit, Write.insert (.serverAudit audit) ∈ tx.writes → audit.actor = none

/-- What a keyed creation prepares. -/
theorem CreateWrites.prepared {isUri : String → Bool} {ctx : OperationContext} {source : String}
    {input : CreateSystem} {key : RetryKey} {precondition : Bool} {readings : List Reading}
    {tx : Transaction} {receipt : WriteReceipt}
    (h : CreateWrites engine isUri ctx source input (some key) precondition readings tx receipt) :
    ∃ content actor parent, retryContent input = .ok content ∧ ctx.actor = some actor ∧
      CreateDone (createRule source parent precondition) (Admission.createInput ctx source input)
        (some ⟨(Admission.createInput ctx source input).scope actor key, engine.sha256 content,
          key.retentionSeconds⟩) tx receipt := by
  obtain ⟨parent, -, prepared, hprepares, hdone⟩ := h
  cases hprepares with
  | @keyed _ content actor hcontent hactor =>
      exact ⟨content, actor, parent, hcontent, hactor, hdone⟩

/-- A denial stores no receipt. -/
theorem AdmittedRequest.denies_unstored {request : AdmittedRequest} {tx : Transaction}
    (h : request.denies b tx) (row : SystemCreateRetry) : Write.retry row ∉ tx.writes := by
  obtain hnil | ⟨audit, hwrites, -⟩ := request.denies_audit h
  · simp [hnil]
  · simp [hwrites]

/-- A stored row is of a keyed creation. -/
theorem stored_creation {request : AdmittedRequest} {tx : Transaction} {row : SystemCreateRetry}
    (haccepts : (admittedContract b engine).accepts request tx)
    (hrow : Write.retry row ∈ tx.writes) :
    ∃ a source input key precondition content actor,
      request = .create a source input (some key) precondition ∧
      retryContent input = .ok content ∧ (b.context a).actor = some actor ∧
      row.scope = (Admission.createInput (b.context a) source input).scope actor key ∧
      row.digest = engine.sha256 content ∧ row.receipt = input.receipt ∧
      Creates b a source input tx := by
  obtain hdenies | ⟨readings, receipt, -, hwrites⟩ := haccepts
  · exact absurd hrow (request.denies_unstored hdenies row)
  · cases request with
    | update a input =>
        obtain ⟨source, parent, -, -, hcommits⟩ := hwrites
        rw [hcommits.writes] at hrow
        simp [UpdateSystem.writes] at hrow
    | create a source input retry precondition =>
        cases retry with
        | none =>
            obtain ⟨parent, -, prepared, hprepares, hdone⟩ := hwrites
            cases hprepares
            cases hdone with
            | created h =>
                obtain ⟨now, hwrites⟩ := h.writes
                rw [hwrites] at hrow
                exact absurd (by simpa using hrow) (retryFree_createWrites _ row)
        | some key =>
            obtain ⟨content, actor, parent, hcontent, hactor, hdone⟩ := hwrites.prepared
            cases hdone with
            | replayed h =>
                rw [h.writes] at hrow
                cases hrow
            | created h =>
                obtain ⟨now, hwrites⟩ := h.writes
                rw [hwrites] at hrow
                obtain hrow | hrow := List.mem_append.mp hrow
                · exact absurd hrow (retryFree_createWrites _ row)
                · obtain rfl : row = _ := Write.retry.inj (List.mem_singleton.mp hrow)
                  exact ⟨a, source, input, key, precondition, content, actor, rfl, hcontent,
                    hactor, rfl, rfl, rfl, fun write hwrite => by
                      rw [hwrites]
                      exact List.mem_append_left _ hwrite⟩

/-- Equal scopes are of equal requests. -/
theorem sameCreation_of_scope (hjson : b.writer.Json) {a a' : Arrival} {source source' : String}
    {input input' : CreateSystem} {key key' : RetryKey} {actor actor' : String}
    {content content' : Bytes} (hactor : (b.context a).actor = some actor)
    (hactor' : (b.context a').actor = some actor')
    (hcontent : retryContent input = .ok content) (hcontent' : retryContent input' = .ok content')
    (hscope : (Admission.createInput (b.context a) source input).scope actor key =
      (Admission.createInput (b.context a') source' input').scope actor' key')
    (hdigest : engine.sha256 content = engine.sha256 content') :
    SameCreation engine a source input key a' source' input' key' := by
  obtain ⟨hsameActor, hsource, htarget, hkey⟩ := RetryScope.mk.inj hscope
  subst hsameActor
  refine ⟨sameCaller_of_actor hjson hactor hactor', Option.some.inj hsource,
    parent_of_target htarget, hkey, content, content', hcontent, hcontent', hdigest, ?_⟩
  rintro rfl hfits hfits'
  exact sameIntent_of_content hfits hfits' hcontent hcontent'

theorem UpdateSystem.audit_actor {input : UpdateSystem} {audit : ServerAudit}
    (h : Write.insert (.serverAudit audit) ∈ input.writes) : audit.actor = input.audit.actor := by
  have hrow : audit = auditRow input.auditId (some input.systemId) (some input.revision.id)
      input.audit .accepted .systemUpdate := by
    simpa [UpdateSystem.writes, NewSourceArtifact.row] using h
  rw [hrow]
  rfl

theorem CreateSystem.audit_actor {input : CreateSystem} {audit : ServerAudit}
    (h : Write.insert (.serverAudit audit) ∈ input.writes) : audit.actor = input.audit.actor := by
  have hrow : audit = auditRow input.auditId (some input.system.id) (some input.revision.id)
      input.audit .accepted .systemCreate := by
    simpa [CreateSystem.writes, systemWrites, NewSourceArtifact.row] using h
  rw [hrow]
  rfl

/-- Audit rows name the caller they are about. -/
theorem audit_actor {request : AdmittedRequest} {tx : Transaction} {audit : ServerAudit}
    (haccepts : (admittedContract b engine).accepts request tx)
    (haudit : Write.insert (.serverAudit audit) ∈ tx.writes) :
    audit.actor = (b.context request.arrival).actor := by
  obtain hdenies | ⟨readings, receipt, -, hwrites⟩ := haccepts
  · obtain hnil | ⟨audit', hwrites, hdenial⟩ := request.denies_audit hdenies
    · simp [hnil] at haudit
    · rw [hwrites] at haudit
      obtain rfl : audit = audit' := by simpa using haudit
      exact hdenial.actor
  · cases request with
    | update a input =>
        obtain ⟨source, parent, -, -, hcommits⟩ := hwrites
        rw [hcommits.writes] at haudit
        exact UpdateSystem.audit_actor haudit
    | create a source input retry precondition =>
        obtain ⟨parent, -, prepared, hprepares, hdone⟩ := hwrites
        cases hdone with
        | replayed h =>
            rw [h.writes] at haudit
            cases haudit
        | created h =>
            obtain ⟨now, hwrites⟩ := h.writes
            rw [hwrites] at haudit
            obtain haudit | haudit := List.mem_append.mp haudit
            · exact CreateSystem.audit_actor haudit
            · obtain ⟨p, -, heq⟩ := List.mem_map.mp haudit
              cases heq

/-- A denial asks nothing, a write has been decided. -/
theorem AdmittedRequest.not_denies_of_writes {request : AdmittedRequest}
    {readings : List Reading} {tx : Transaction} {receipt : WriteReceipt}
    (hwrites : request.writes b engine readings tx receipt) : ¬ request.denies b tx := by
  intro hdenies
  refine AdmittedRequest.decided hwrites ?_
  cases request with
  | create a source input retry precondition =>
      obtain ⟨auditId, target, -, hcommits⟩ := hdenies
      exact hcommits.undecided
  | update a input =>
      obtain ⟨auditId, target, -, hcommits⟩ := hdenies
      exact hcommits.undecided

/-- **Retries stay with their caller.** -/
theorem retry_isolated (hjson : b.writer.Json) {w₀ : World (admittedCalls b)}
    (hstart : w₀.Start) (hnone : ∀ row, Row.systemCreateRetry row ∉ w₀.db)
    (hrun : (World.machine engine (admittedCalls b)).Leads w₀ w) : RetryIsolated b engine w := by
  have hreachable : (World.machine engine (admittedCalls b)).Reachable w := ⟨w₀, hstart, hrun⟩
  have hinv := World.inv_of_reachable (admittedContract b engine) hreachable
  have htraced := World.traced_of_leads (admittedContract b engine) hstart hnone hrun
  exact {
    receipts := fun i call a source input key precondition receipt hcall hrequest houtcome => by
      obtain ⟨tx, before, clock, honly, -, -, hwrites⟩ := accepted_commit hreachable hcall houtcome
      rw [hrequest] at hwrites
      have hmem : .committed i tx before clock ∈ w.history :=
        World.mem_commitsOf.mp (by simp [honly])
      obtain ⟨earlier, later, hsplit⟩ := List.append_of_mem hmem
      refine ⟨earlier, tx, before, clock, later, hsplit, ?_⟩
      obtain ⟨content, actor, parent, hcontent, hactor, hdone⟩ := CreateWrites.prepared hwrites
      cases hdone with
      | created h =>
          obtain ⟨now, hwrites⟩ := h.writes
          refine .inl ⟨rfl, fun write hwrite => ?_⟩
          rw [hwrites]
          exact List.mem_append_left _ hwrite
      | replayed h =>
          obtain ⟨clock', row, hlooked, rfl, hdigest⟩ := h.found
          obtain ⟨hscope, j, tx', before', clock'', hmem', hrow⟩ :=
            htraced.found earlier i tx before clock later hsplit clock' row hlooked
          obtain ⟨call', hcall', haccepts, -⟩ :=
            hinv.carriedOut j tx' before' clock'' (by simp [hsplit, hmem'])
          obtain ⟨a', source', input', key', precondition', content', actor', hrequest',
            hcontent', hactor', hscope', hdigest', hreceipt, hcreates⟩ :=
            stored_creation haccepts hrow
          refine .inr ⟨j, call', a', source', input', key', precondition', tx', before', clock'',
            hmem', hcall', hrequest', hcreates, hreceipt, ?_⟩
          have hsame := Option.some.inj (h.scope.symm.trans hscope)
          exact sameCreation_of_scope hjson hactor hactor' hcontent hcontent'
            (hsame.trans hscope') (hdigest.symm.trans hdigest')
    scopes := fun a source input key actor a' source' input' key' actor' hactor hactor' hscope => by
      obtain ⟨rfl, -⟩ := RetryScope.mk.inj hscope
      exact sameCaller_of_actor hjson hactor hactor'
    actors := fun i j tx tx' before before' clock clock' hmem hmem' audit audit' haudit haudit'
        actor hactor hactor' => by
      obtain ⟨call, hcall, haccepts, -⟩ := hinv.carriedOut i tx before clock hmem
      obtain ⟨call', hcall', haccepts', -⟩ := hinv.carriedOut j tx' before' clock' hmem'
      exact ⟨call, call', hcall, hcall', sameCaller_of_actor hjson
        ((audit_actor haccepts haudit).symm.trans hactor)
        ((audit_actor haccepts' haudit').symm.trans hactor')⟩
    refused := fun i call hcall hlong => by
      have hactor : (b.context call.request.arrival).actor = none := by
        simp only [Boundary.context, OperationContext.new]
        exact if_neg (Nat.not_le.mpr hlong)
      have hdenies : ∀ tx before clock, .committed i tx before clock ∈ w.history →
          call.request.denies b tx ∧
            ∀ audit, Write.insert (.serverAudit audit) ∈ tx.writes → audit.actor = none := by
        intro tx before clock hmem
        obtain ⟨call', hcall', haccepts, -⟩ := hinv.carriedOut i tx before clock hmem
        obtain rfl := Option.some.inj (hcall.symm.trans hcall')
        refine ⟨?_, fun audit haudit => (audit_actor haccepts haudit).trans hactor⟩
        obtain hdenies | ⟨readings, receipt, hsome, -⟩ := haccepts
        · exact hdenies
        · rw [hactor] at hsome
          cases hsome
      refine ⟨fun receipt houtcome => ?_, hdenies⟩
      obtain ⟨tx, before, clock, honly, -, -, hwrites⟩ := accepted_commit hreachable hcall houtcome
      exact AdmittedRequest.not_denies_of_writes hwrites
        (hdenies tx before clock (World.mem_commitsOf.mp (by simp [honly]))).1 }

end Isolation

section Samples

theorem Quoted.of_plain {l : List Char} (h : ∀ c ∈ l, c ≠ quote ∧ c ≠ backslash) : Quoted l := by
  induction l with
  | nil => exact .nil
  | cons c l ih =>
      obtain ⟨hquote, hbackslash⟩ := h c List.mem_cons_self
      exact .plain hquote hbackslash (ih fun d hd => h d (List.mem_cons_of_mem _ hd))

theorem Quoted.append {l l' : List Char} (h : Quoted l) (h' : Quoted l') : Quoted (l ++ l') := by
  induction h with
  | nil => exact h'
  | plain hquote hbackslash _ ih => exact .plain hquote hbackslash ih
  | escaped _ ih => exact .escaped ih

/-- The characters that are escaped, by number. -/
def escapedNumbers : List Nat := 34 :: 92 :: List.range 32

/-- Each is a backslash, a character, and perhaps digits. -/
theorem escaped_shape : ∀ n ∈ escapedNumbers,
    (escapedChar (Char.ofNat n)).head? = some backslash ∧
      2 ≤ (escapedChar (Char.ofNat n)).length ∧
      ((escapedChar (Char.ofNat n)).drop 2).all
        (fun c => decide (c ≠ quote) && decide (c ≠ backslash)) = true := by
  decide +kernel

theorem escaped_prefix : ∀ n ∈ escapedNumbers, ∀ m ∈ escapedNumbers,
    (escapedChar (Char.ofNat n)).isPrefixOf (escapedChar (Char.ofNat m)) = true → n = m := by
  decide +kernel

/-- Any other character stands for itself. -/
theorem escapedChar_plain {c : Char} (h : c.toNat ∉ escapedNumbers) : escapedChar c = [c] := by
  simp only [escapedNumbers, List.mem_cons, List.mem_range, not_or, not_lt] at h
  obtain ⟨hquote, hbackslash, hlow⟩ := h
  unfold escapedChar
  split
  all_goals try omega
  next => exact if_neg (by omega)

theorem plain_of_not_escaped {c : Char} (h : c.toNat ∉ escapedNumbers) :
    c ≠ quote ∧ c ≠ backslash := by
  constructor
  · rintro rfl
    exact h (by decide)
  · rintro rfl
    exact h (by decide)

theorem escapedChar_escaped {c : Char} (h : c.toNat ∈ escapedNumbers) :
    ∃ d tail, escapedChar c = backslash :: d :: tail ∧ Quoted tail := by
  obtain ⟨hhead, hlength, htail⟩ := escaped_shape c.toNat h
  rw [Char.ofNat_toNat] at hhead hlength htail
  cases hcode : escapedChar c with
  | nil => simp [hcode] at hlength
  | cons x rest =>
      cases rest with
      | nil => simp [hcode] at hlength
      | cons d tail =>
          rw [hcode] at hhead htail
          obtain rfl := Option.some.inj hhead
          refine ⟨d, tail, rfl, .of_plain fun e he => ?_⟩
          simpa using List.all_eq_true.mp htail e (by simpa using he)

theorem escapedChar_prefixFree : PrefixFree escapedChar := by
  have hfront : ∀ a b, escapedChar a <+: escapedChar b → a = b := by
    intro a b hpre
    by_cases ha : a.toNat ∈ escapedNumbers
    · by_cases hb : b.toNat ∈ escapedNumbers
      · have hnumber := escaped_prefix a.toNat ha b.toNat hb (by
          rw [Char.ofNat_toNat, Char.ofNat_toNat]
          exact List.isPrefixOf_iff_prefix.mpr hpre)
        exact Char.toNat_inj.mp hnumber
      · obtain ⟨d, tail, hcode, -⟩ := escapedChar_escaped ha
        rw [hcode, escapedChar_plain hb] at hpre
        exact absurd hpre.length_le (by simp)
    · rw [escapedChar_plain ha] at hpre
      by_cases hb : b.toNat ∈ escapedNumbers
      · obtain ⟨d, tail, hcode, -⟩ := escapedChar_escaped hb
        rw [hcode] at hpre
        obtain ⟨rest, hrest⟩ := hpre
        exact absurd (List.cons.inj hrest).1 (plain_of_not_escaped ha).2
      · rw [escapedChar_plain hb] at hpre
        obtain ⟨rest, hrest⟩ := hpre
        exact (List.cons.inj hrest).1
  refine .of_front (fun a b h => hfront a b (by rw [h])) (fun a b hpre => ?_)
  rw [hfront a b hpre]

theorem quoted_escaped (text : List Char) : Quoted (text.flatMap escapedChar) := by
  induction text with
  | nil => exact .nil
  | cons c text ih =>
      rw [List.flatMap_cons]
      refine Quoted.append ?_ ih
      by_cases hc : c.toNat ∈ escapedNumbers
      · obtain ⟨d, tail, hcode, htail⟩ := escapedChar_escaped hc
        exact hcode ▸ .escaped htail
      · obtain ⟨hquote, hbackslash⟩ := plain_of_not_escaped hc
        exact escapedChar_plain hc ▸ .plain hquote hbackslash .nil

theorem sampleWriter_json : sampleWriter.Json where
  injective := by
    have hempty : ∀ c, escapedChar c ≠ [] := by
      intro c
      by_cases hc : c.toNat ∈ escapedNumbers
      · obtain ⟨d, tail, hcode, -⟩ := escapedChar_escaped hc
        simp [hcode]
      · simp [escapedChar_plain hc]
    have hstop : ∀ c, (escapedChar c).head? ≠ some quote := by
      intro c
      by_cases hc : c.toNat ∈ escapedNumbers
      · obtain ⟨d, tail, hcode, -⟩ := escapedChar_escaped hc
        rw [hcode]
        exact fun h => absurd (Option.some.inj h) (by decide)
      · rw [escapedChar_plain hc]
        simpa using (plain_of_not_escaped hc).1
    have hcode := ((escapedChar_prefixFree.terminated hempty hstop).cons quote).injective
    intro a b h
    exact String.toList_inj.mp (hcode (String.ofList_injective h))
  literal text := ⟨text.toList.flatMap escapedChar, by simp [sampleWriter, quote],
    quoted_escaped text.toList⟩

/-- A subject that looks like the end of its string. -/
def sampleIntruder : Arrival :=
  ⟨⟨"urn:issuer", String.ofList ['a', 'l', 'i', 'c', 'e', quote, ',', quote], ["operators"], .jwt⟩,
    sampleTime, "correlation"⟩

/-- A permitted keyed creation up to the lookup, and `n` statements more. -/
def sampleKeyed (a : Arrival) (id : LocalId) (uid : String) (i n : Nat) :
    List (Event (admittedCalls sampleBoundary)) :=
  [.start (AdmittedRequest.create a "north" (sampleCreate id uid none) (some sampleKey) true),
    .step i (.policy (some samplePermissions)), .step i (.policy (some samplePermissions))] ++
  runs i 7 ++
  [.step i (.policy (some samplePermissions)), .step i (.policy (some samplePermissions))] ++
  runs i n

/-- A creation, its retry, and the same key in the hands of another caller. -/
def sampleCallers : List (Event (admittedCalls sampleBoundary)) :=
  sampleKeyed sampleArrival sampleParent "urn:parent" 0 10 ++
  sampleKeyed sampleArrival sampleChild "urn:parent" 1 3 ++
  sampleKeyed sampleIntruder sampleChild "urn:child" 2 10

theorem retry_isolated_run : ∃ w : World (admittedCalls sampleBoundary),
    (World.machine sampleEngine (admittedCalls sampleBoundary)).runEvents
      (World.empty (admittedCalls sampleBoundary)) sampleCallers = some w ∧
    w.calls.map (fun call => call.outcome?.map (fun outcome =>
      outcome.toOption.map (·.systemId))) =
      [some (some sampleParent), some (some sampleParent), some (some sampleChild)] ∧
    RetryIsolated sampleBoundary sampleEngine w := by
  have hrun : ((World.machine sampleEngine (admittedCalls sampleBoundary)).runEvents
      (World.empty (admittedCalls sampleBoundary)) sampleCallers).map (fun w =>
        w.calls.map (fun call => call.outcome?.map (fun outcome =>
          outcome.toOption.map (·.systemId)))) =
      some [some (some sampleParent), some (some sampleParent), some (some sampleChild)] := by
    decide +kernel
  obtain ⟨w, hw, houtcomes⟩ := Option.map_eq_some_iff.mp hrun
  exact ⟨w, hw, houtcomes, retry_isolated sampleWriter_json
    (World.start_empty (admittedCalls sampleBoundary)) (fun row hrow => by cases hrow)
    (Machine.leads_of_runEvents hw)⟩

end Samples

end Server
end Glaux
