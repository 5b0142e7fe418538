import Glaux.Server.Authorization.OneRule
import Glaux.Server.Storage.History

/-!
# What a call has read

A call reads owners and records before its transaction begins.  Rows of existing
Systems are never added, removed or replaced, so what it has read still holds
when it commits, whatever others have committed meanwhile.  The history counts
the commits of each call.
-/

namespace Glaux
namespace Server

open Domain Library

section Extension

/-- What every commit preserves of the rows of existing Systems. -/
structure Database.Extends (db db' : Database) : Prop where
  meets : ∀ requirement, db.meets requirement = true → db'.meets requirement = true
  rows : ∀ row, row.stable = true → row ∈ db → row ∈ db'
  owned : ∀ row, row.stable = true → row ∈ db' → ∀ id ∈ row.owner?,
    db.meets (.system id) = true → row ∈ db

variable {engine : Engine} {db db' : Database} {now : Timestamp} {tx : Transaction}

theorem system_key {id : LocalId} (h : db.meets (.system id) = true) :
    Key.system id ∈ db.keys := by
  obtain ⟨row, hrow, hprovides⟩ := Database.meets_iff.mp h
  obtain ⟨label, rfl⟩ := provides_system.mp hprovides
  exact List.mem_flatMap.mpr ⟨_, hrow, by simp [Row.keys]⟩

/-- A commit adds no row to an existing System. -/
theorem Transaction.Sound.extends (h : tx.Sound db now) :
    db.Extends (db.applyAll tx.writes) where
  meets := fun requirement hmeets => Database.meets_applyAll.mpr (.inl hmeets)
  rows := fun row hrow hmem => (Database.mem_applyAll_of_stable hrow).mpr (.inl hmem)
  owned := fun row hrow hmem id hid hsystem => by
    obtain hold | hnew := (Database.mem_applyAll_of_stable hrow).mp hmem
    · exact hold
    · obtain ⟨label, hcreates⟩ := h.belongs row hnew id hid
      exact absurd (system_key hsystem) (h.fresh _ (List.mem_flatMap.mpr
        ⟨_, hcreates, by simp [Write.newKeys, Row.keys]⟩))

theorem OwnedBy.system (hclosed : db.Closed) {id : LocalId} {source : String}
    (h : OwnedBy db id source) : db.meets (.system id) = true := by
  obtain ⟨-, label, hlabel⟩ := h.identity hclosed
  exact Database.meets_iff.mpr ⟨_, hlabel, by simp [Row.provides]⟩

/-- Ownership is for good. -/
theorem OwnedBy.extends (hext : db.Extends db') (hclosed : db.Closed) (hunique : db'.Unique)
    {id : LocalId} {source : String} (h : OwnedBy db id source) : OwnedBy db' id source := by
  have hsystem := h.system hclosed
  obtain ⟨w, a, horigin, hsource, honly⟩ := h
  have hold : ∀ w a, Origin db id w a → Origin db' id w a := fun w a horigin => {
    horigin with
    work := hext.rows _ rfl horigin.work
    audit := hext.rows _ rfl horigin.audit }
  refine ⟨w, a, hold w a horigin, hsource, ?_⟩
  intro w' a' horigin'
  have hwork : Row.outgoingWork w' ∈ db :=
    hext.owned _ rfl horigin'.work id
      (by simp [Row.owner?, horigin'.created, horigin'.system]) hsystem
  -- the audit row the old work refers to is the one the new origin names
  obtain ⟨found, hfound, hprovides⟩ := Database.meets_iff.mp (hclosed _ hwork
    (.audit w'.auditId w'.systemId w'.revisionId w'.kind.auditOperation) (by simp [Row.requires]))
  obtain ⟨a'', rfl, hid, -⟩ := provides_audit.mp hprovides
  have haudit : Row.serverAudit a' = Row.serverAudit a'' :=
    hunique.eq_of_key (.audit w'.auditId) horigin'.audit (hext.rows _ rfl hfound)
      (by simp [Row.keys, horigin'.auditId]) (by simp [Row.keys, hid])
  obtain rfl := Row.serverAudit.inj haudit
  exact honly w' a' { horigin' with work := hwork, audit := hfound }

end Extension

section Readings

/-- What a reading says for good: an owner, and the parents of listed Systems. -/
def Reading.Holds (db : Database) : Reading → Prop
  | .owner id source => ∀ owner, source = some owner → OwnedBy db id owner
  | .list _ exact rows => ∀ row ∈ rows, ∀ id, row.id = some id →
      (∀ only, exact = some only → id = only) ∧ db.meets (.system id) = true ∧
        ∀ parent, row.parent = some parent ↔ Row.systemParent ⟨id, parent⟩ ∈ db

variable {db db' : Database}

theorem Reading.Holds.extends (hext : db.Extends db') (hclosed : db.Closed)
    (hunique : db'.Unique) {reading : Reading} (h : reading.Holds db) : reading.Holds db' := by
  cases reading with
  | owner id source =>
      exact fun owner howner => (h owner howner).extends hext hclosed hunique
  | list scope exact rows =>
      intro row hrow id hid
      obtain ⟨honly, hsystem, hparent⟩ := h row hrow id hid
      refine ⟨honly, hext.meets _ hsystem, fun parent => (hparent parent).trans ?_⟩
      exact ⟨hext.rows _ rfl, fun hmem => hext.owned _ rfl hmem id (by simp [Row.owner?]) hsystem⟩

theorem holds_systemSource (hunique : db.Unique) (id : LocalId) :
    (Reading.owner id (Sql.systemSource db id)).Holds db :=
  fun _ howner => (systemSource_eq_some hunique).mp howner

/-- Selected Systems exist, and match the exact ID. -/
theorem mem_visible_system (hunique : db.Unique) (hclosed : db.Closed) {scope : Json}
    {exact : Option LocalId} {id : LocalId} (h : id ∈ Sql.visible db scope exact) :
    (∀ only, exact = some only → id = only) ∧ db.meets (.system id) = true := by
  obtain ⟨hreadable, hexact⟩ := List.mem_filter.mp h
  constructor
  · rintro only rfl
    simpa using (Bool.and_eq_true_iff.mp hexact).2
  · obtain ⟨⟨id', source⟩, horigin, rfl⟩ := List.mem_map.mp hreadable
    exact OwnedBy.system hclosed
      ((systemSource_eq_some hunique).mp (mem_origins.mp (List.mem_filter.mp horigin).1))

theorem holds_listRows (hunique : db.Unique) (hclosed : db.Closed) (scope : Json)
    (exact : Option LocalId) (limit : Nat) :
    (Reading.list scope exact (Sql.listRows db scope exact limit)).Holds db := by
  intro row hrow id hid
  rw [Sql.listRows_eq hunique] at hrow
  cases hselected : Sql.selected db scope exact limit with
  | nil =>
      rw [hselected] at hrow
      obtain rfl := List.mem_singleton.mp hrow
      cases hid
  | cons first rest =>
      rw [hselected] at hrow
      obtain ⟨id', hid', hrow⟩ := List.mem_flatMap.mp hrow
      obtain ⟨column, -, rfl⟩ := List.mem_map.mp hrow
      obtain ⟨r, hr, rfl⟩ := Option.map_eq_some_iff.mp hid
      obtain ⟨-, rfl⟩ := (Sql.resource?_eq_some hunique).mp hr
      rw [← hselected] at hid'
      obtain ⟨honly, hsystem⟩ := mem_visible_system hunique hclosed
        (mem_sortBy.mp (List.mem_of_mem_take hid'))
      refine ⟨honly, hsystem, fun parent => ?_⟩
      simp only [Sql.listRow, Option.map_eq_some_iff, Sql.parent?_eq_some hunique,
        mem_systemParent]
      constructor
      · rintro ⟨p, ⟨hmem, hchild⟩, rfl⟩
        exact hchild ▸ hmem
      · exact fun hmem => ⟨⟨r.id, parent⟩, ⟨hmem, rfl⟩, rfl⟩

/-- How the database has answered a reading. -/
def Reading.Answers (db : Database) : Reading → Prop
  | .owner id source => source = Sql.systemSource db id
  | .list scope exact rows => ∃ limit, rows = Sql.listRows db scope exact limit

theorem Reading.Answers.holds (hunique : db.Unique) (hclosed : db.Closed) {reading : Reading}
    (h : reading.Answers db) : reading.Holds db := by
  cases reading with
  | owner id source =>
      obtain rfl : source = _ := h
      exact holds_systemSource hunique id
  | list scope exact rows =>
      obtain ⟨limit, rfl⟩ := h
      exact holds_listRows hunique hclosed scope exact limit

end Readings

section Perform

variable {engine : Engine} {accepts : Transaction → Prop} {others : List Session}
  {db : Database} {now : Timestamp} {session : Session} {s : Statement} {choice : Choice}

/-- What one statement adds to the readings of its session. -/
inductive Reads (db : Database) (session session' : Session) (committed : Option Transaction) :
    Prop
  | same (readings : session'.readings = session.readings)
  | one (calm : session.Calm) (committed : committed = none) {reading : Reading}
      (answers : reading.Answers db)
      (readings : session'.readings = session.readings ++ [reading])

theorem Session.view_of_closed (h : session.transaction = none) : session.view db = db := by
  simp [Session.view, Session.writes, h, Database.applyAll]

theorem query_reads {q : Query} (hpermits : session.permits accepts (.query q)) :
    Reads db session (session.note now q (q.eval engine now (session.view db))) none := by
  cases q with
  | systemSource id =>
      have hcalm : session.Calm := hpermits
      have hanswers : Reading.Answers db (.owner id (Sql.systemSource (session.view db) id)) := by
        rw [Session.view_of_closed hcalm.closed]
        rfl
      exact .one hcalm rfl hanswers rfl
  | listRows scope exact limit =>
      have hcalm : session.Calm := hpermits
      have hanswers : Reading.Answers db
          (.list scope exact (Sql.listRows (session.view db) scope exact limit)) :=
        ⟨limit, by rw [Session.view_of_closed hcalm.closed]⟩
      exact .one hcalm rfl hanswers rfl
  | _ => exact .same rfl

theorem perform_reads (hpermits : session.permits accepts s) {done : Performed s}
    (h : perform engine others db now session s choice = some done) :
    Reads db session done.2.1 done.2.2 := by
  cases choice with
  | run =>
      cases s <;> simp only [perform, performRun] at h
      case query q =>
        obtain rfl := Option.some.inj h
        exact query_reads hpermits
      case commit =>
        obtain ⟨tx, -, rfl⟩ := Option.map_eq_some_iff.mp h
        exact .same rfl
      case rollback =>
        obtain ⟨tx, -, rfl⟩ := Option.map_eq_some_iff.mp h
        exact .same rfl
      case write =>
        obtain ⟨session', hwrite, rfl⟩ := Option.map_eq_some_iff.mp h
        simp only [performWrite] at hwrite
        split at hwrite
        · obtain rfl := Option.some.inj hwrite
          exact .same rfl
        · cases hwrite
      case storeRetry =>
        obtain ⟨⟨stored, session'⟩, hstore, rfl⟩ := Option.map_eq_some_iff.mp h
        simp only [performStore] at hstore
        split at hstore
        · split at hstore
          all_goals
            obtain ⟨-, rfl⟩ := Prod.mk.inj (Option.some.inj hstore)
            exact .same rfl
        · cases hstore
      all_goals
        try split at h
        all_goals try split at h
        all_goals
          first
            | (obtain rfl := Option.some.inj h; exact .same rfl)
            | cases h
  | fail e =>
      cases s <;> simp only [perform, performFail, Option.some.injEq,
        Option.map_eq_some_iff, reduceCtorEq] at h
      case commit => obtain ⟨tx, -, rfl⟩ := h; exact .same rfl
      case rollback => obtain ⟨tx, -, rfl⟩ := h; exact .same rfl
      all_goals (subst h; exact .same rfl)
  | lost =>
      cases s <;> simp only [perform, reduceCtorEq] at h
      case commit =>
        obtain ⟨tx, -, rfl⟩ := Option.map_eq_some_iff.mp h
        exact .same rfl
      case ask question => cases question <;> simp [performAsk] at h
  | _ =>
      cases s <;> simp only [perform, reduceCtorEq] at h
      case ask question =>
        cases question <;> simp only [performAsk, Option.some.injEq, reduceCtorEq] at h
        all_goals (subst h; exact .same rfl)

end Perform

namespace World

variable {service : Service} {engine : Engine} {contract : service.Contract engine}
  {w w' : World service} {e : Event service}

/-- The commits of call `i`, in order, each with the database and the clock it met. -/
def commitsOf (w : World service) (i : Nat) : List (Transaction × Database × Timestamp) :=
  w.history.filterMap (fun happening =>
    match happening with
    | .committed j tx before clock => if j = i then some (tx, before, clock) else none
    | .headRead .. => none)

theorem mem_commitsOf {i : Nat} {tx : Transaction} {before : Database} {clock : Timestamp} :
    (tx, before, clock) ∈ w.commitsOf i ↔ .committed i tx before clock ∈ w.history := by
  simp only [commitsOf, List.mem_filterMap]
  constructor
  · rintro ⟨happening, hmem, heq⟩
    split at heq
    · split at heq
      next hj =>
        cases heq
        exact hj ▸ hmem
      next => cases heq
    · cases heq
  · exact fun hmem => ⟨_, hmem, by simp⟩

/-- Every commit was sound on the database it met. -/
def Met (w : World service) : Prop :=
  ∀ i tx before clock, .committed i tx before clock ∈ w.history →
    tx.Sound before clock ∧ before.Unique ∧ before.Closed ∧ clock ≤ w.now

theorem Met.step (hinv : w.Inv contract) (hpast : w.Met)
    (h : World.step engine w e = some w') : w'.Met := by
  have hshared := hinv.shared h
  intro i tx before clock hmem
  obtain hold | ⟨hopen, rfl, rfl, -⟩ := hshared.mem_committed hmem
  · obtain ⟨hsound, hunique, hclosed, hclock⟩ := hpast i tx before clock hold
    exact ⟨hsound, hunique, hclosed, hclock.trans hshared.clock_le⟩
  · exact ⟨hinv.sound i tx hopen, hinv.unique, hinv.closed, hshared.clock_le⟩

theorem met_of_reachable (contract : service.Contract engine)
    (h : (machine engine service).Reachable w) : w.Met :=
  invariant_of_reachable contract
    (fun w hw i tx before clock hmem => by simp [hw.history] at hmem)
    (fun _ _ _ hinv hpast hst => hpast.step hinv hst) h

/-- What call `i` has read still holds, held whenever the call committed, and its
commits are counted in its session. -/
structure Told (w : World service) (i : Nat) (call : Running service) : Prop where
  now : ∀ reading ∈ call.session.readings, reading.Holds w.db
  committed : ∀ tx before clock, (tx, before, clock) ∈ w.commitsOf i →
    ∀ reading ∈ call.session.readings, reading.Holds before
  counted : (w.commitsOf i).length ≤
    call.session.committed.length + call.session.doubtful.length

theorem commitsOf_after {i j : Nat} {call : Running service} {s : Statement}
    {next : s.Reply → Call service.Outcome} {done : Performed s} :
    (w.after i call s next done).commitsOf j = w.commitsOf j ++
      (if i = j then done.2.2.toList.map (fun tx => (tx, w.db, w.now)) else []) := by
  have hreads : (s.happened i done.1).filterMap (fun happening =>
      match happening with
      | .committed k tx before clock => if k = j then some (tx, before, clock) else none
      | .headRead .. => none) = [] := by
    refine List.filterMap_eq_nil_iff.mpr (fun happening hmem => ?_)
    obtain ⟨read, -, rfl⟩ := List.mem_map.mp hmem
    rfl
  simp only [commitsOf, World.after, List.filterMap_append, hreads, List.append_nil]
  congr 1
  cases done.2.2 with
  | none => simp
  | some tx => by_cases hij : i = j <;> simp [hij]

theorem Told.of_same {i : Nat} {call call' : Running service} (h : w.Told i call)
    (hdb : w'.db = w.db) (hhistory : w'.history = w.history)
    (hsession : call'.session.readings = call.session.readings)
    (hcommitted : call'.session.committed = call.session.committed)
    (hdoubtful : call'.session.doubtful = call.session.doubtful) : w'.Told i call' where
  now := by rw [hsession, hdb]; exact h.now
  committed := by rw [hsession, commitsOf, hhistory]; exact h.committed
  counted := by rw [hcommitted, hdoubtful, commitsOf, hhistory]; exact h.counted

/-- The statement of a call itself. -/
theorem Told.performed {i : Nat} {choice : Choice} {call : Running service} {s : Statement}
    {next : s.Reply → Call service.Outcome} {done : Performed s} (hinv : w.Inv contract)
    (hcall : w.calls[i]? = some call) (hrest : call.rest = some (.perform s next))
    (hdone : perform engine (w.others i) w.db w.now call.session s choice = some done)
    (h : w.Told i call) :
    (w.after i call s next done).Told i ⟨call.request, done.2.1, some (next done.1)⟩ := by
  have hpermits := (hinv.step_kept hcall hrest hdone).1
  have hcounted := (perform_records hdone).counted
  have hcount : ((w.after i call s next done).commitsOf i).length ≤
      done.2.1.committed.length + done.2.1.doubtful.length := by
    have := h.counted
    rw [commitsOf_after, if_pos rfl, List.length_append, List.length_map]
    omega
  cases hcommitted : done.2.2 with
  | none =>
      have hdb : (w.after i call s next done).db = w.db := by simp [World.after, hcommitted]
      have hcommits : (w.after i call s next done).commitsOf i = w.commitsOf i := by
        simp [commitsOf_after, hcommitted]
      cases perform_reads hpermits hdone with
      | same readings =>
          exact {
            now := by rw [hdb, readings]; exact h.now
            committed := by rw [hcommits, readings]; exact h.committed
            counted := hcount }
      | @one calm _ reading answers readings =>
          have hnone : w.commitsOf i = [] := by
            refine List.eq_nil_of_length_eq_zero ?_
            have := h.counted
            rw [calm.committed, calm.doubtful] at this
            exact Nat.le_zero.mp this
          exact {
            now := fun reading' hmem => by
              rw [hdb]
              rw [readings] at hmem
              obtain hold | hnew := List.mem_append.mp hmem
              · exact h.now reading' hold
              · rw [List.mem_singleton.mp hnew]
                exact answers.holds hinv.unique hinv.closed
            committed := by simp [hcommits, hnone]
            counted := hcount }
  | some tx =>
      obtain ⟨htx, -, -⟩ := perform_committed hpermits hdone hcommitted
      have hsound := hinv.sound i tx ⟨call, hcall, htx⟩
      have hdb : (w.after i call s next done).db = w.db.applyAll tx.writes := by
        simp [World.after, hcommitted]
      cases perform_reads hpermits hdone with
      | same readings =>
          exact {
            now := fun reading hmem => by
              rw [hdb]
              exact (h.now reading (readings ▸ hmem)).extends hsound.extends hinv.closed
                (hsound.unique hinv.unique)
            committed := fun tx' before clock hmem reading hreading => by
              rw [commitsOf_after, if_pos rfl, hcommitted] at hmem
              obtain hold | hnew := List.mem_append.mp hmem
              · exact h.committed tx' before clock hold reading (readings ▸ hreading)
              · obtain ⟨rfl, rfl, rfl⟩ : tx' = tx ∧ before = w.db ∧ clock = w.now := by
                  simpa using hnew
                exact h.now reading (readings ▸ hreading)
            counted := hcount }
      | one _ committed => rw [hcommitted] at committed; cases committed

/-- A statement of another call. -/
theorem Told.performed_other {i j : Nat} (hne : j ≠ i) {choice : Choice}
    {call call' : Running service} {s : Statement} {next : s.Reply → Call service.Outcome}
    {done : Performed s} (hinv : w.Inv contract)
    (hcall : w.calls[i]? = some call) (hrest : call.rest = some (.perform s next))
    (hdone : perform engine (w.others i) w.db w.now call.session s choice = some done)
    (h : w.Told j call') : (w.after i call s next done).Told j call' := by
  have hpermits := (hinv.step_kept hcall hrest hdone).1
  have hcommits : (w.after i call s next done).commitsOf j = w.commitsOf j := by
    simp [commitsOf_after, hne.symm]
  refine ⟨fun reading hmem => ?_, by rw [hcommits]; exact h.committed,
    by rw [hcommits]; exact h.counted⟩
  cases hcommitted : done.2.2 with
  | none =>
      rw [show (w.after i call s next done).db = w.db by simp [World.after, hcommitted]]
      exact h.now reading hmem
  | some tx =>
      obtain ⟨htx, -, -⟩ := perform_committed hpermits hdone hcommitted
      have hsound := hinv.sound i tx ⟨call, hcall, htx⟩
      rw [show (w.after i call s next done).db = w.db.applyAll tx.writes by
        simp [World.after, hcommitted]]
      exact (h.now reading hmem).extends hsound.extends hinv.closed (hsound.unique hinv.unique)

theorem told_step (hinv : w.Inv contract)
    (hpast : ∀ i call, w.calls[i]? = some call → w.Told i call)
    (h : World.step engine w e = some w') :
    ∀ i call, w'.calls[i]? = some call → w'.Told i call := by
  intro i call hcall
  cases stepped h with
  | started request =>
      rw [List.getElem?_append] at hcall
      split at hcall
      next hi => exact (hpast i call hcall).of_same rfl rfl rfl rfl rfl
      next hi =>
        rw [List.getElem?_singleton] at hcall
        split at hcall
        · obtain rfl := Option.some.inj hcall
          have hnone : w.commitsOf i = [] := by
            refine List.eq_nil_iff_forall_not_mem.mpr ?_
            rintro ⟨tx, before, clock⟩ hmem
            obtain ⟨call', hcall', -⟩ := hinv.carriedOut i tx before clock (mem_commitsOf.mp hmem)
            obtain ⟨hlt, -⟩ := List.getElem?_eq_some_iff.mp hcall'
            exact hi hlt
          have hnone' : commitsOf { w with calls :=
              w.calls ++ [⟨request, .idle, some (service.program request)⟩] } i = [] := hnone
          exact ⟨by simp [Session.idle], by simp [hnone'], by simp [hnone']⟩
        · cases hcall
  | ticked => exact (hpast i call hcall).of_same rfl rfl rfl rfl rfl
  | @dropped j call' hcall' =>
      by_cases hi : i = j
      · subst hi
        obtain ⟨hlt, -⟩ := List.getElem?_eq_some_iff.mp hcall'
        obtain rfl : call'.cutOff = call := by simpa [hlt] using hcall
        exact (hpast i call' hcall').of_same rfl rfl rfl rfl rfl
      · refine (hpast i call ?_).of_same rfl rfl rfl rfl rfl
        simpa [Ne.symm hi] using hcall
  | @performed j choice call' s next done hcall' hrest hdone =>
      by_cases hi : i = j
      · subst hi
        rw [calls_after hcall'] at hcall
        obtain rfl := Option.some.inj hcall
        exact (hpast i call' hcall').performed hinv hcall' hrest hdone
      · rw [calls_after_of_ne hi] at hcall
        exact (hpast i call hcall).performed_other hi hinv hcall' hrest hdone

/-- **Readings.**  What a call has read held at each of its commits. -/
theorem told_of_reachable (contract : service.Contract engine)
    (h : (machine engine service).Reachable w) {i : Nat} {call : Running service}
    (hcall : w.calls[i]? = some call) : w.Told i call :=
  invariant_of_reachable contract (P := fun w => ∀ i call, w.calls[i]? = some call → w.Told i call)
    (fun w hw i call hcall => by simp [hw.calls] at hcall)
    (fun _ _ _ hinv hpast hst => told_step hinv hpast hst) h i call hcall

end World

end Server
end Glaux
