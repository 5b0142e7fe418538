import Glaux.Library.TwoRuns
import Glaux.Server.SystemReads

/-!
# What reads can tell

A call is carried out on a database, as the policy answers and statements fail.
Two databases that show a caller the same Systems leave a read with the same
outcome, whatever else they hold.  A concealed System and a missing one are
refused alike, by reads and by updates, and leave the same record.
-/

namespace Glaux
namespace Server

open Domain Library

/-- A session but for the reads it made. -/
def Session.forget (session : Session) : Session := { session with readings := [] }

section AnswerOn

variable (engine : Engine) (others : List Session) (db : Database) (now : Timestamp)

/-- Statements answered on a database, as the choices come. -/
def answerOn : Answering statements (Session × List Choice)
  | _, (_, []) => none
  | statement, (session, choice :: choices) =>
      (perform engine others db now session statement choice).map (fun done =>
        (done.1, done.2.1, choices))

/-- What a call ends in and the session it leaves, if the choices are fit for its statements. -/
def outcomeOn {α : Type} (x : AccessM α) (choices : List Choice) :
    Option (Except AccessError α × Session) :=
  (carryOut (answerOn engine others db now) (ExceptT.run x) (.idle, choices)).map (fun ending =>
    (ending.1, ending.2.1.forget))

end AnswerOn

/-- Two sessions outside transactions that differ in what they read, with the same choices left. -/
structure Beside (s s' : Session × List Choice) : Prop where
  closed : s.1.transaction = none
  same : s.1.forget = s'.1.forget
  left : s.2 = s'.2

theorem Session.forget_transaction {session session' : Session}
    (h : session.forget = session'.forget) : session.transaction = session'.transaction :=
  congrArg (·.transaction) h

theorem Beside.closed' {s s' : Session × List Choice} (h : Beside s s') :
    s'.1.transaction = none :=
  (Session.forget_transaction h.same).symm.trans h.closed

theorem Session.forget_note {session : Session} {now : Timestamp} {q : Query} {result : q.Result}
    (h : session.transaction = none) : (session.note now q result).forget = session.forget := by
  cases q <;> simp [Session.note, Session.updateTransaction_of_closed h, Session.forget]

section Alike

variable {engine : Engine} {others : List Session} {db db' : Database} {now : Timestamp}
  {s s' : Session × List Choice} {α β : Type}

/-- Two calls end alike on two databases, outside transactions. -/
def Alike {ε : Type} (engine : Engine) (others : List Session) (db db' : Database)
    (now : Timestamp) (x x' : Fallible statements ε α) (s s' : Session × List Choice)
    (P : α → Prop) : Prop :=
  AgreesE (answerOn engine others db now) (answerOn engine others db' now) x x' s s'
    (fun a a' t t' => (a = a' ∧ P a) ∧ Beside t t') (fun e e' t t' => e = e' ∧ Beside t t')

theorem Alike.pure {ε : Type} {P : α → Prop} {a : α} (hP : P a) (h : Beside s s') :
    Alike engine others db db' now (pure a : Fallible statements ε α) (pure a) s s' P :=
  agreesE_pure ⟨⟨rfl, hP⟩, h⟩

theorem Alike.throw {ε : Type} {P : α → Prop} {e : ε} (h : Beside s s') :
    Alike engine others db db' now (throw e : Fallible statements ε α) (throw e) s s' P :=
  agreesE_throw ⟨rfl, h⟩

theorem Alike.bind {ε : Type} {x x' : Fallible statements ε α}
    {f f' : α → Fallible statements ε β} {P : α → Prop} {P' : β → Prop}
    (h : Alike engine others db db' now x x' s s' P)
    (hnext : ∀ a t t', P a → Beside t t' → Alike engine others db db' now (f a) (f' a) t t' P') :
    Alike engine others db db' now (x >>= f) (x' >>= f') s s' P' := by
  refine agreesE_bind (AgreesE.mono h ?_ fun _ _ _ _ hE => hE)
  rintro a a' t t' ⟨⟨rfl, hP⟩, hbeside⟩
  exact hnext a t t' hP hbeside

theorem Alike.weaken {ε : Type} {x x' : Fallible statements ε α} {P : α → Prop}
    (h : Alike engine others db db' now x x' s s' P) :
    Alike engine others db db' now x x' s s' fun _ => True :=
  AgreesE.mono h (fun _ _ _ _ hQ => ⟨⟨hQ.1.1, trivial⟩, hQ.2⟩) fun _ _ _ _ hE => hE

theorem Alike.answer {ε : Type} {x x' : Fallible statements ε α} {P : α → Prop} (f : α → β)
    (h : Alike engine others db db' now x x' s s' P) :
    Alike engine others db db' now (do return f (← x)) (do return f (← x')) s s' fun _ => True :=
  h.bind fun _ _ _ _ hbeside => Alike.pure trivial hbeside

theorem Alike.storage {ctx : OperationContext} {x x' : DbM α} {P : α → Prop}
    (h : Alike engine others db db' now x x' s s' P) :
    Alike engine others db db' now (storage ctx x) (storage ctx x') s s' P := by
  refine agreesE_bind (agreesE_attempt (AgreesE.mono h ?_ ?_))
  · rintro a a' t t' ⟨⟨rfl, hP⟩, hbeside⟩
    exact Alike.pure hP hbeside
  · rintro e e' t t' ⟨rfl, hbeside⟩
    exact Alike.throw hbeside

theorem Alike.check {condition : Bool} {e : StorageError} (h : Beside s s') :
    Alike engine others db db' now (check condition e) (check condition e) s s' fun _ => True := by
  cases condition with
  | true => exact Alike.pure trivial h
  | false => exact Alike.throw h

/-! ### Statements -/

/-- One statement, answered on two databases as the next choice says. -/
theorem agrees_statement {statement statement' : Statement}
    {Q : statement.Reply → statement'.Reply → Session × List Choice → Session × List Choice → Prop}
    (hleft : s.2 = s'.2) (hstep : ∀ choice choices, s.2 = choice :: choices →
      Option.Rel (fun done done' => Q done.1 done'.1 (done.2.1, choices) (done'.2.1, choices))
        (perform engine others db now s.1 statement choice)
        (perform engine others db' now s'.1 statement' choice)) :
    Agrees (answerOn engine others db now) (answerOn engine others db' now)
      (roundTrip statement) (roundTrip statement') s s' Q := by
  obtain ⟨session, choices⟩ := s
  obtain ⟨session', choices'⟩ := s'
  obtain rfl : choices = choices' := hleft
  rcases choices with _ | ⟨choice, choices⟩
  · exact .none
  · exact agrees_run (rel_map (hstep choice choices rfl) fun _ _ hQ => hQ)

theorem Alike.inTransaction {ε : Type} (h : Beside s s') :
    Alike engine others db db' now (liftM inTransaction : Fallible statements ε Bool)
      (liftM inTransaction) s s' fun _ => True := by
  refine agreesE_lift (agrees_statement h.left fun choice choices hchoices => ?_)
  cases choice with
  | run =>
      refine .some ⟨⟨?_, trivial⟩, h.closed, h.same, rfl⟩
      exact congrArg Option.isSome (Session.forget_transaction h.same)
  | _ => exact .none

/-- Outside transactions a query is answered by the database. -/
theorem queried {q q' : Query} (h : Beside s s') :
    AgreesE (answerOn engine others db now) (answerOn engine others db' now) (query q) (query q')
      s s' (fun rows rows' t t' => (rows = q.eval engine now db ∧ rows' = q'.eval engine now db') ∧
        Beside t t') (fun e e' t t' => e = e' ∧ Beside t t') := by
  refine agrees_statement h.left fun choice choices hchoices => ?_
  cases choice with
  | run =>
      refine .some ⟨⟨?_, ?_⟩, ?_, ?_, rfl⟩
      · rw [Session.view_of_closed h.closed]
      · rw [Session.view_of_closed h.closed']
      · exact (Session.forget_transaction (Session.forget_note h.closed)).trans h.closed
      · exact (Session.forget_note h.closed).trans
          (h.same.trans (Session.forget_note h.closed').symm)
  | fail e => exact .some ⟨rfl, h.closed, h.same, rfl⟩
  | _ => exact .none

/-- The policy answers as the first of the choices says. -/
theorem Alike.permissions {ctx : OperationContext} {action : Action} (h : Beside s s') :
    Alike engine others db db' now (Admission.permissions ctx action)
      (Admission.permissions ctx action) s s'
      fun set => s.2.head? = some (.policy (some set)) := by
  refine agreesE_bind (agreesE_lift (agrees_statement h.left fun choice choices hchoices => ?_))
  cases choice with
  | policy answer =>
      have hbeside : ∀ f, Beside (s.1.updateTransaction f, choices)
          (s'.1.updateTransaction f, choices) := by
        intro f
        rw [Session.updateTransaction_of_closed h.closed,
          Session.updateTransaction_of_closed h.closed']
        exact ⟨h.closed, h.same, rfl⟩
      cases answer with
      | some set => exact .some (Alike.pure (by rw [hchoices]; rfl) (hbeside _))
      | none => exact .some (Alike.throw (hbeside _))
  | _ => exact .none

/-! ### Reads -/

theorem Alike.schema (h : Beside s s') :
    Alike engine others db db' now (query .schema) (query .schema) s s' fun _ => True :=
  AgreesE.mono (queried h) (fun _ _ _ _ hQ => ⟨⟨hQ.1.1.trans hQ.1.2.symm, trivial⟩, hQ.2⟩)
    fun _ _ _ _ hE => hE

/-- Rows of two queries that are read alike. -/
theorem Alike.decoded {q q' : Query} {decode : q.Result → Except StorageError α}
    {decode' : q'.Result → Except StorageError α}
    (hdecode : decode (q.eval engine now db) = decode' (q'.eval engine now db'))
    (h : Beside s s') :
    Alike engine others db db' now (query q >>= fun rows => liftExcept (decode rows))
      (query q' >>= fun rows => liftExcept (decode' rows)) s s'
      fun a => decode (q.eval engine now db) = .ok a := by
  refine agreesE_bind (AgreesE.mono (queried h) ?_ fun _ _ _ _ hE => hE)
  rintro rows rows' t t' ⟨⟨rfl, rfl⟩, hbeside⟩
  rw [← hdecode]
  cases decode (q.eval engine now db) with
  | ok a => exact Alike.pure rfl hbeside
  | error e => exact Alike.throw hbeside

section Stored

variable {isUri : String → Bool} {scope : Json}

theorem Alike.listed {exact exact' : Option LocalId} {limit : Nat}
    (hpage : readPage isUri (Sql.listRows db scope exact limit) =
      readPage isUri (Sql.listRows db' scope exact' limit)) (h : Beside s s') :
    Alike engine others db db' now (listSystemsStored isUri scope exact limit)
      (listSystemsStored isUri scope exact' limit) s s'
      fun page => readPage isUri (Sql.listRows db scope exact limit) = .ok page :=
  (Alike.inTransaction h).bind fun _ _ _ _ h => (Alike.check h).bind fun _ _ _ _ h =>
    (Alike.schema h).bind fun _ _ _ _ h => Alike.decoded hpage h

theorem Alike.current {id id' : LocalId}
    (hcurrent : readCurrent isUri (Sql.currentRows db scope id) =
      readCurrent isUri (Sql.currentRows db' scope id')) (h : Beside s s') :
    Alike engine others db db' now (currentSystemStored isUri scope id)
      (currentSystemStored isUri scope id') s s' fun _ => True :=
  (Alike.inTransaction h).bind fun _ _ _ _ h => (Alike.check h).bind fun _ _ _ _ h =>
    (Alike.schema h).bind fun _ _ _ _ h =>
      (Alike.decoded hcurrent h).weaken

theorem Alike.listSystems {ctx : OperationContext} {limit : Nat}
    (hpage : ∀ set : PermissionSet, s.2.head? = some (.policy (some set)) →
      readPage isUri (Sql.listRows db set.scopeJson none limit) =
        readPage isUri (Sql.listRows db' set.scopeJson none limit)) (h : Beside s s') :
    Alike engine others db db' now (Admission.listSystems isUri ctx limit)
      (Admission.listSystems isUri ctx limit) s s' fun _ => True :=
  (Alike.permissions h).bind fun set _ _ hset h =>
    (Alike.listed (hpage set hset) h).storage.weaken

theorem Alike.getSystem {ctx : OperationContext} {id id' : LocalId}
    (hpage : ∀ set : PermissionSet, s.2.head? = some (.policy (some set)) →
      readPage isUri (Sql.listRows db set.scopeJson (some id) 1) =
        readPage isUri (Sql.listRows db' set.scopeJson (some id') 1)) (h : Beside s s') :
    Alike engine others db db' now (Admission.getSystem isUri ctx id)
      (Admission.getSystem isUri ctx id') s s' fun _ => True := by
  refine (Alike.permissions h).bind fun set _ _ hset h => ?_
  refine ((Alike.listed (hpage set hset) h).storage).bind fun page _ _ _ h => ?_
  cases page.items.getLast? with
  | some record => exact Alike.pure trivial h
  | none => exact Alike.throw h

theorem Alike.currentSystem {ctx : OperationContext} {id id' : LocalId}
    (hcurrent : ∀ set : PermissionSet, s.2.head? = some (.policy (some set)) →
      readCurrent isUri (Sql.currentRows db set.scopeJson id) =
        readCurrent isUri (Sql.currentRows db' set.scopeJson id')) (h : Beside s s') :
    Alike engine others db db' now (Admission.currentSystem isUri ctx id)
      (Admission.currentSystem isUri ctx id') s s' fun _ => True := by
  refine (Alike.permissions h).bind fun set _ _ hset h => ?_
  refine ((Alike.current (hcurrent set hset) h).storage).bind fun found _ _ _ h => ?_
  cases found with
  | some system => exact Alike.pure trivial h
  | none => exact Alike.throw h

end Stored

theorem Beside.idle (choices : List Choice) : Beside (.idle, choices) (.idle, choices) :=
  ⟨rfl, rfl, rfl⟩

/-- Runs that agree have one outcome. -/
theorem outcomeOn_eq {x x' : AccessM α} {choices : List Choice}
    (h : Agrees (answerOn engine others db now) (answerOn engine others db' now) (ExceptT.run x)
      (ExceptT.run x') (.idle, choices) (.idle, choices) fun r r' t t' =>
        r = r' ∧ t.1.forget = t'.1.forget) :
    outcomeOn engine others db now x choices = outcomeOn engine others db' now x' choices := by
  unfold Agrees at h
  unfold outcomeOn
  generalize carryOut (answerOn engine others db now) (ExceptT.run x) (.idle, choices) = ending
    at h ⊢
  generalize carryOut (answerOn engine others db' now) (ExceptT.run x') (.idle, choices) = ending'
    at h ⊢
  cases h with
  | none => rfl
  | some h => exact congrArg some (Prod.ext h.1 h.2)

theorem outcomeOn_of_agreesE {x x' : AccessM α} {choices : List Choice}
    (h : AgreesE (answerOn engine others db now) (answerOn engine others db' now) x x'
      (.idle, choices) (.idle, choices) (fun a a' t t' => a = a' ∧ t.1.forget = t'.1.forget)
      fun e e' t t' => e = e' ∧ t.1.forget = t'.1.forget) :
    outcomeOn engine others db now x choices = outcomeOn engine others db' now x' choices := by
  refine outcomeOn_eq (Agrees.mono h ?_)
  rintro (e | a) (e' | a') t t' hends
  · exact ⟨congrArg Except.error hends.1, hends.2⟩
  · exact hends.elim
  · exact hends.elim
  · exact ⟨congrArg Except.ok hends.1, hends.2⟩

theorem Alike.outcomeOn {x x' : AccessM α} {choices : List Choice} {P : α → Prop}
    (h : Alike engine others db db' now x x' (.idle, choices) (.idle, choices) P) :
    outcomeOn engine others db now x choices = outcomeOn engine others db' now x' choices :=
  outcomeOn_of_agreesE (AgreesE.mono h (fun _ _ _ _ hends => ⟨hends.1.1, hends.2.same⟩)
    fun _ _ _ _ hends => ⟨hends.1, hends.2.same⟩)

end Alike

section Main

variable {isUri : String → Bool} {ctx : OperationContext} {engine : Engine}
  {others : List Session} {now : Timestamp} {db db' : Database} {α β : Type}

theorem SameView.readPage {scope : Json} (h : SameView db db' scope) (hunique : db.Unique)
    (hclosed : db.Closed) (hunique' : db'.Unique) (hclosed' : db'.Closed)
    (exact : Option LocalId) (limit : Nat) :
    readPage isUri (Sql.listRows db scope exact limit) =
      readPage isUri (Sql.listRows db' scope exact limit) := by
  rw [readPage_listRows hunique hclosed, readPage_listRows hunique' hclosed']
  exact h.pageOf hunique hunique' exact limit

theorem SameView.readCurrent {scope : Json} (h : SameView db db' scope) (hunique : db.Unique)
    (hclosed : db.Closed) (hunique' : db'.Unique) (hclosed' : db'.Closed) (id : LocalId) :
    readCurrent isUri (Sql.currentRows db scope id) =
      readCurrent isUri (Sql.currentRows db' scope id) := by
  rw [readCurrent_currentRows hunique hclosed, readCurrent_currentRows hunique' hclosed']
  by_cases hid : id ∈ Sql.visible db scope (some id)
  · rw [if_pos hid, if_pos ((h.perm (some id)).mem_iff.mp hid),
      (h.same id (mem_visible_exact.mp hid).1).currentOf]
  · rw [if_neg hid, if_neg (fun hid' => hid ((h.perm (some id)).mem_iff.mpr hid'))]

/-- **Confidentiality.**  Two databases that show the same Systems to the permissions the policy
answers with leave a read with the same outcome, whatever else they hold. -/
theorem reads_agree (hunique : db.Unique) (hclosed : db.Closed) (hunique' : db'.Unique)
    (hclosed' : db'.Closed) (read : ReadRequest) {choices : List Choice}
    (hview : ∀ set : PermissionSet, choices.head? = some (.policy (some set)) →
      SameView db db' set.scopeJson) :
    outcomeOn engine others db now (read.call isUri ctx) choices =
      outcomeOn engine others db' now (read.call isUri ctx) choices := by
  have hbeside := Beside.idle choices
  cases read with
  | list limit =>
      refine (Alike.answer _ (Alike.listSystems (fun set hset => ?_) hbeside)).outcomeOn
      exact (hview set hset).readPage hunique hclosed hunique' hclosed' none limit
  | get id =>
      refine (Alike.answer _ (Alike.getSystem (fun set hset => ?_) hbeside)).outcomeOn
      exact (hview set hset).readPage hunique hclosed hunique' hclosed' (some id) 1
  | current id =>
      refine (Alike.answer _ (Alike.currentSystem (fun set hset => ?_) hbeside)).outcomeOn
      exact (hview set hset).readCurrent hunique hclosed hunique' hclosed' id

/-- Nothing fails: the policy answers, and the three statements of the read run. -/
def smooth (set : PermissionSet) : List Choice := [.policy (some set), .run, .run, .run]

/-- A database without the System the caller may not see. -/
def sampleShown : Database := sampleRows sampleParent "urn:parent" "north"

theorem sample_view : SameView sampleShown sampleDatabase samplePermissions.scopeJson := by
  have hshown : Sql.visible sampleShown samplePermissions.scopeJson none = [sampleParent] := by
    decide +kernel
  have hwhole : Sql.visible sampleDatabase samplePermissions.scopeJson none = [sampleParent] := by
    decide +kernel
  refine ⟨fun id => by rw [hshown, hwhole], fun id hid => ?_⟩
  rw [hshown] at hid
  obtain rfl := List.mem_singleton.mp hid
  exact ⟨by decide +kernel, by decide +kernel, by decide +kernel, fun a _ => Iff.rfl,
    by decide +kernel⟩

theorem reads_agree_hidden :
    outcomeOn ⟨fun _ => [], fun _ => 0⟩ [] sampleShown 0
        ((ReadRequest.list 10).call sampleBoundary.isUri (sampleBoundary.context sampleArrival))
        (smooth samplePermissions) =
      outcomeOn ⟨fun _ => [], fun _ => 0⟩ [] sampleDatabase 0
        ((ReadRequest.list 10).call sampleBoundary.isUri (sampleBoundary.context sampleArrival))
        (smooth samplePermissions) ∧
    (outcomeOn ⟨fun _ => [], fun _ => 0⟩ [] sampleDatabase 0
        ((ReadRequest.list 10).call sampleBoundary.isUri (sampleBoundary.context sampleArrival))
        (smooth samplePermissions)).isSome := by
  refine ⟨reads_agree (by decide +kernel) (by decide +kernel) (by decide +kernel)
    (by decide +kernel) (.list 10) fun set hset => ?_, by decide +kernel⟩
  obtain rfl : samplePermissions = set := by simpa [smooth] using hset
  exact sample_view

theorem visible_exact_nil {scope : Json} {id : LocalId}
    (h : id ∉ Sql.visible db scope none) : Sql.visible db scope (some id) = [] := by
  refine List.eq_nil_iff_forall_not_mem.mpr fun other hmem => ?_
  obtain ⟨hall, honly⟩ := mem_visible_exact.mp hmem
  obtain rfl := honly id rfl
  exact h hall

theorem readPage_concealed {scope : Json} {id : LocalId} (hunique : db.Unique)
    (hclosed : db.Closed) (h : id ∉ Sql.visible db scope none) :
    readPage isUri (Sql.listRows db scope (some id) 1) = .ok ⟨[], 0⟩ := by
  rw [readPage_listRows hunique hclosed, pageOf, Sql.selected, visible_exact_nil h]
  rfl

theorem readCurrent_concealed {scope : Json} {id : LocalId} (hunique : db.Unique)
    (hclosed : db.Closed) (h : id ∉ Sql.visible db scope none) :
    readCurrent isUri (Sql.currentRows db scope id) = .ok none := by
  rw [readCurrent_currentRows hunique hclosed, if_neg]
  exact fun hmem => h (mem_visible_exact.mp hmem).1

/-! ### Concealed and missing -/

/-- What follows may open transactions. -/
theorem Alike.bind_outcome {x x' : AccessM α} {f f' : α → AccessM β} {P : α → Prop}
    {s s' : Session × List Choice} (h : Alike engine others db db' now x x' s s' P)
    (hnext : ∀ a t t', P a → Beside t t' →
      AgreesE (answerOn engine others db now) (answerOn engine others db' now) (f a) (f' a) t t'
        (fun b b' t t' => b = b' ∧ t.1.forget = t'.1.forget)
        fun e e' t t' => e = e' ∧ t.1.forget = t'.1.forget) :
    AgreesE (answerOn engine others db now) (answerOn engine others db' now) (x >>= f) (x' >>= f')
      s s' (fun b b' t t' => b = b' ∧ t.1.forget = t'.1.forget)
      fun e e' t t' => e = e' ∧ t.1.forget = t'.1.forget := by
  refine agreesE_bind (AgreesE.mono h ?_ fun _ _ _ _ hE => ⟨hE.1, hE.2.same⟩)
  rintro a a' t t' ⟨⟨rfl, hP⟩, hbeside⟩
  exact hnext a t t' hP hbeside

/-- The session plays no part but for its readings. -/
theorem perform_forget {session session' : Session} (h : session.forget = session'.forget)
    (statement : Statement) (choice : Choice) :
    Option.Rel (fun (done done' : Performed statement) => done.1 = done'.1 ∧
      done.2.1.forget = done'.2.1.forget)
      (perform engine others db now session statement choice)
      (perform engine others db now session' statement choice) := by
  obtain ⟨transaction, callbackError, readings, committed, doubtful, abandoned⟩ := session
  obtain ⟨transaction', callbackError', readings', committed', doubtful', abandoned'⟩ := session'
  simp only [Session.forget, Session.mk.injEq, true_and] at h
  obtain ⟨rfl, rfl, rfl, rfl, rfl⟩ := h
  cases choice with
  | run =>
      cases statement with
      | query q =>
          refine .some ⟨rfl, ?_⟩
          cases q <;> rfl
      | lockScope scope => exact rel_ite .none (.some ⟨rfl, rfl⟩)
      | lockSystem id => exact rel_ite .none (rel_ite (.some ⟨rfl, rfl⟩) (.some ⟨rfl, rfl⟩))
      | lockDenials => exact rel_ite (.some ⟨rfl, rfl⟩) (.some ⟨rfl, rfl⟩)
      | write w =>
          have hwrite : Option.Rel (fun session session' => session.forget = session'.forget)
              (performWrite others db ⟨transaction, callbackError, readings, committed, doubtful,
                abandoned⟩ w)
              (performWrite others db ⟨transaction, callbackError, readings', committed, doubtful,
                abandoned⟩ w) := rel_ite (.some rfl) .none
          exact rel_map hwrite fun _ _ h => ⟨rfl, h⟩
      | storeRetry scope digest receipt seconds =>
          have hstore : Option.Rel (fun done done' => done.1 = done'.1 ∧
                done.2.forget = done'.2.forget)
              (performStore others db now ⟨transaction, callbackError, readings, committed,
                doubtful, abandoned⟩ scope digest receipt seconds)
              (performStore others db now ⟨transaction, callbackError, readings', committed,
                doubtful, abandoned⟩ scope digest receipt seconds) :=
            rel_ite (rel_ite (.some ⟨rfl, rfl⟩) (.some ⟨rfl, rfl⟩)) .none
          exact rel_map hstore fun _ _ h => ⟨congrArg Except.ok h.1, h.2⟩
      | ask question => exact .none
      | _ => cases transaction <;> first | exact .none | exact .some ⟨rfl, rfl⟩
  | fail e =>
      cases statement with
      | commit => cases transaction <;> first | exact .none | exact .some ⟨rfl, rfl⟩
      | rollback => cases transaction <;> first | exact .none | exact .some ⟨rfl, rfl⟩
      | _ => first | exact .none | exact .some ⟨rfl, rfl⟩
  | lost =>
      cases statement with
      | commit => cases transaction <;> first | exact .none | exact .some ⟨rfl, rfl⟩
      | ask question => cases question <;> exact .none
      | _ => exact .none
  | policy answer =>
      cases statement with
      | ask question => cases question <;> first | exact .none | exact .some ⟨rfl, rfl⟩
      | _ => exact .none
  | allow answer =>
      cases statement with
      | ask question => cases question <;> first | exact .none | exact .some ⟨rfl, rfl⟩
      | _ => exact .none
  | auditId answer =>
      cases statement with
      | ask question => cases question <;> first | exact .none | exact .some ⟨rfl, rfl⟩
      | _ => exact .none

/-- The reads of one System. -/
def ReadRequest.ofSystem : List (LocalId → ReadRequest) := [.get, .current]

theorem carryOut_storage {answer : Answering statements (Session × List Choice)} {x : DbM α}
    {s t : Session × List Choice} {a : α}
    (h : carryOut answer (ExceptT.run x) s = some (.ok a, t)) :
    carryOut answer (ExceptT.run (storage ctx x)) s = some (.ok a, t) :=
  carryOut_bind_ok (carryOut_attempt h)

/-- The read of a concealed System, if nothing fails. -/
theorem outcomeOn_concealed (hunique : db.Unique) (hclosed : db.Closed)
    {read : LocalId → ReadRequest} (hread : read ∈ ReadRequest.ofSystem) {id : LocalId}
    {set : PermissionSet} (hhidden : id ∉ Sql.visible db set.scopeJson none) :
    outcomeOn engine others db now ((read id).call isUri ctx) (smooth set) =
      some (.error (ctx.error .notFound), .idle) := by
  have hpermissions : carryOut (answerOn engine others db now)
      (ExceptT.run (Admission.permissions ctx .read)) (.idle, smooth set) =
      some (.ok set, .idle, [.run, .run, .run]) := rfl
  simp only [ReadRequest.ofSystem, List.mem_cons, List.not_mem_nil, or_false] at hread
  rcases hread with rfl | rfl
  · have hstored : carryOut (answerOn engine others db now)
        (ExceptT.run (listSystemsStored isUri set.scopeJson (some id) 1))
        (.idle, [.run, .run, .run]) =
        some (readPage isUri (Sql.listRows db set.scopeJson (some id) 1),
          Session.idle.note now (.listRows set.scopeJson (some id) 1)
            (Sql.listRows db set.scopeJson (some id) 1), []) := rfl
    rw [readPage_concealed hunique hclosed hhidden] at hstored
    have hget : carryOut (answerOn engine others db now)
        (ExceptT.run (Admission.getSystem isUri ctx id)) (.idle, smooth set) =
        some (.error (ctx.error .notFound), Session.idle.note now
          (.listRows set.scopeJson (some id) 1) (Sql.listRows db set.scopeJson (some id) 1), []) :=
      (carryOut_bind_ok hpermissions).trans ((carryOut_bind_ok (carryOut_storage hstored)).trans rfl)
    rw [outcomeOn, ReadRequest.call, ExceptT.run_bind, carryOut_bind, hget]
    rfl
  · have hstored : carryOut (answerOn engine others db now)
        (ExceptT.run (currentSystemStored isUri set.scopeJson id))
        (.idle, [.run, .run, .run]) =
        some (readCurrent isUri (Sql.currentRows db set.scopeJson id), .idle, []) := rfl
    rw [readCurrent_concealed hunique hclosed hhidden] at hstored
    have hcurrent : carryOut (answerOn engine others db now)
        (ExceptT.run (Admission.currentSystem isUri ctx id)) (.idle, smooth set) =
        some (.error (ctx.error .notFound), .idle, []) :=
      (carryOut_bind_ok hpermissions).trans ((carryOut_bind_ok (carryOut_storage hstored)).trans rfl)
    rw [outcomeOn, ReadRequest.call, ExceptT.run_bind, carryOut_bind, hcurrent]
    rfl

/-- **Concealed as missing.**  A read of a System that the permissions the policy answers with do
not show ends like a read of any other such ID, one without a System among them; if nothing fails
it ends in `NotFound`. -/
theorem concealed_as_missing (hunique : db.Unique) (hclosed : db.Closed)
    {read : LocalId → ReadRequest} (hread : read ∈ ReadRequest.ofSystem) {id id' : LocalId}
    {choices : List Choice}
    (hhidden : ∀ set : PermissionSet, choices.head? = some (.policy (some set)) →
      id ∉ Sql.visible db set.scopeJson none ∧ id' ∉ Sql.visible db set.scopeJson none) :
    outcomeOn engine others db now ((read id).call isUri ctx) choices =
      outcomeOn engine others db now ((read id').call isUri ctx) choices ∧
    ∀ set, choices = smooth set →
      outcomeOn engine others db now ((read id).call isUri ctx) choices =
        some (.error (ctx.error .notFound), .idle) := by
  constructor
  · have hbeside := Beside.idle choices
    simp only [ReadRequest.ofSystem, List.mem_cons, List.not_mem_nil, or_false] at hread
    rcases hread with rfl | rfl
    · refine (Alike.answer _ (Alike.getSystem (fun set hset => ?_) hbeside)).outcomeOn
      obtain ⟨hid, hid'⟩ := hhidden set hset
      rw [readPage_concealed hunique hclosed hid, readPage_concealed hunique hclosed hid']
    · refine (Alike.answer _ (Alike.currentSystem (fun set hset => ?_) hbeside)).outcomeOn
      obtain ⟨hid, hid'⟩ := hhidden set hset
      rw [readCurrent_concealed hunique hclosed hid, readCurrent_concealed hunique hclosed hid']
  · rintro set rfl
    exact outcomeOn_concealed hunique hclosed hread (hhidden set rfl).1

/-- An ID without a System. -/
def sampleMissing : LocalId := ⟨"01890f20-7b5a-7cc3-98c4-00000000000e", by decide +kernel⟩

theorem concealed_as_missing_child :
    outcomeOn ⟨fun _ => [], fun _ => 0⟩ [] sampleDatabase 0
        ((ReadRequest.get sampleChild).call sampleBoundary.isUri
          (sampleBoundary.context sampleArrival)) (smooth samplePermissions) =
      outcomeOn ⟨fun _ => [], fun _ => 0⟩ [] sampleDatabase 0
        ((ReadRequest.get sampleMissing).call sampleBoundary.isUri
          (sampleBoundary.context sampleArrival)) (smooth samplePermissions) := by
  refine (concealed_as_missing (by decide +kernel) (by decide +kernel) List.mem_cons_self
    fun set hset => ?_).1
  obtain rfl : samplePermissions = set := by simpa [smooth] using hset
  exact ⟨by decide +kernel, by decide +kernel⟩

/-- A program runs alike from sessions that differ in their readings. -/
theorem agrees_forget {p : Call α} {s s' : Session × List Choice}
    (hsession : s.1.forget = s'.1.forget) (hleft : s.2 = s'.2) :
    Agrees (answerOn engine others db now) (answerOn engine others db now) p p s s'
      fun a a' t t' => a = a' ∧ t.1.forget = t'.1.forget ∧ t.2 = t'.2 := by
  refine agrees_self (fun statement s s' h => ?_) p ⟨hsession, hleft⟩
  obtain ⟨session, choices⟩ := s
  obtain ⟨session', choices'⟩ := s'
  obtain ⟨hsession, rfl⟩ := h
  rcases choices with _ | ⟨choice, choices⟩
  · exact .none
  · exact rel_map (perform_forget hsession statement choice) fun _ _ h => ⟨h.1, h.2, rfl⟩

/-- **Refused alike.**  An update of a System that the read permissions do not show ends like an
update of any other such ID, and leaves the same transactions behind: what is recorded of the
refusal does not depend on the target. -/
theorem update_concealed_as_missing (hunique : db.Unique) (hclosed : db.Closed)
    (admission : Admission) {input input' : UpdateSystem} {choices : List Choice}
    (hhidden : ∀ set : PermissionSet, choices.head? = some (.policy (some set)) →
      input.systemId ∉ Sql.visible db set.scopeJson none ∧
        input'.systemId ∉ Sql.visible db set.scopeJson none) :
    outcomeOn engine others db now (admission.updateSystem isUri ctx input) choices =
      outcomeOn engine others db now (admission.updateSystem isUri ctx input') choices := by
  refine outcomeOn_of_agreesE ((Alike.permissions (Beside.idle choices)).bind_outcome
    fun read _ _ hread h => ?_)
  refine (Alike.permissions h).bind_outcome fun update _ _ _ h => ?_
  obtain ⟨hid, hid'⟩ := hhidden read hread
  have hempty : readPage isUri (Sql.listRows db read.scopeJson (some input.systemId) 1) =
      .ok ⟨[], 0⟩ := readPage_concealed hunique hclosed hid
  have hempty' : readPage isUri (Sql.listRows db read.scopeJson (some input'.systemId) 1) =
      .ok ⟨[], 0⟩ := readPage_concealed hunique hclosed hid'
  refine (Alike.listed (hempty.trans hempty'.symm) h).storage.bind_outcome
    fun page t t' hfound h => ?_
  -- nothing was found, so what is left is the denial, which names no target
  obtain rfl := Except.ok.inj (hempty.symm.trans hfound)
  refine Agrees.mono (agrees_forget h.same h.left) ?_
  rintro (e | receipt) _ t t' ⟨rfl, hforget, -⟩
  · exact ⟨rfl, hforget⟩
  · exact ⟨rfl, hforget⟩

/-- A refused update, up to the COMMIT of its denial. -/
def sampleRefused : List Choice :=
  [.policy (some samplePermissions), .policy (some samplePermissions), .run, .run, .run,
    .allow true, .auditId (some ⟨sampleMissing⟩)] ++ List.replicate 9 .run

theorem update_concealed_as_missing_child :
    outcomeOn ⟨fun _ => [], fun _ => 0⟩ [] sampleDatabase 0
        (sampleBoundary.admission.updateSystem sampleBoundary.isUri
          (sampleBoundary.context sampleArrival) (sampleUpdate sampleChild sampleMissing none))
        sampleRefused =
      outcomeOn ⟨fun _ => [], fun _ => 0⟩ [] sampleDatabase 0
        (sampleBoundary.admission.updateSystem sampleBoundary.isUri
          (sampleBoundary.context sampleArrival) (sampleUpdate sampleMissing sampleChild none))
        sampleRefused ∧
    (outcomeOn ⟨fun _ => [], fun _ => 0⟩ [] sampleDatabase 0
        (sampleBoundary.admission.updateSystem sampleBoundary.isUri
          (sampleBoundary.context sampleArrival) (sampleUpdate sampleChild sampleMissing none))
        sampleRefused).map (fun ending => ending.2.committed.length) = some 1 := by
  refine ⟨update_concealed_as_missing (by decide +kernel) (by decide +kernel) _
    fun set hset => ?_, by decide +kernel⟩
  obtain rfl : samplePermissions = set := by simpa [sampleRefused] using hset
  exact ⟨by decide +kernel, by decide +kernel⟩

end Main

end Server
end Glaux
