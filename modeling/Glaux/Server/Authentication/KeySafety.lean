import Glaux.Server.Authentication.Keys

/-!
# Safety of the issuer key cache

Everything is derived from three facts about one step: what the first locked
section may decide, what the second may install, and that nothing else touches
keys, expiry or the recorded attempt.  The machine invariant `Inv` ties the
busy mark to the one outstanding guard and the stored deadline to the start of
the fetch that delivered the stored keys.
-/

namespace Glaux
namespace Server
namespace Keys

open Library

variable {κ : Type}

/-- The cache after an accepted reading. -/
def Cache.tick (c : Cache κ) (now : Nat) : Cache κ :=
  { c with lastClock := some now }

theorem Cache.accepted_eq_some {c : Cache κ} {reading : Option Nat}
    {now : Nat} :
    c.accepted reading = some now ↔
      reading = some now ∧ ∀ previous, c.lastClock = some previous → previous ≤ now := by
  cases reading with
  | none => simp [Cache.accepted, Cache.observe]
  | some t =>
      by_cases h : c.lastClock.any (fun previous => t < previous) = true
      · obtain ⟨previous, hprev, hlt⟩ :
            ∃ previous, c.lastClock = some previous ∧ t < previous := by
          simpa [Option.any_eq_true] using h
        simp only [Cache.accepted, Cache.observe, h, if_true]
        constructor
        · intro h'
          cases h'
        · rintro ⟨ht, hall⟩
          have hle := hall previous hprev
          obtain rfl : t = now := by simpa using ht
          omega
      · have hall : ∀ previous, c.lastClock = some previous → previous ≤ t := by
          intro previous hprev
          simpa [hprev] using h
        simp only [Cache.accepted, Cache.observe, h]
        constructor
        · intro h'
          obtain rfl : t = now := by simpa using h'
          exact ⟨rfl, hall⟩
        · rintro ⟨ht, -⟩
          simpa using ht

theorem Cache.observe_of_accepted {c : Cache κ} {reading : Option Nat}
    {now : Nat} (h : c.accepted reading = some now) :
    c.observe reading = .ok (now, c.tick now) := by
  cases reading with
  | none => simp [Cache.accepted, Cache.observe] at h
  | some t =>
      by_cases hback : c.lastClock.any (fun previous => t < previous) = true
      · simp [Cache.accepted, Cache.observe, hback] at h
      · obtain rfl : t = now := by
          simpa [Cache.accepted, Cache.observe, hback] using h
        simp [Cache.observe, hback, Cache.tick]

theorem Cache.observe_of_rejected {c : Cache κ} {reading : Option Nat}
    (h : c.accepted reading = none) :
    c.observe reading = .error .unavailable := by
  cases reading with
  | none => rfl
  | some t =>
      by_cases hback : c.lastClock.any (fun previous => t < previous) = true
      · simp [Cache.observe, hback]
      · simp [Cache.accepted, Cache.observe, hback] at h

theorem Cache.not_coolingDown {c : Cache κ} {now interval attempt : Nat}
    (h : c.coolingDown now interval = false) (ha : c.lastAttempt = some attempt) :
    attempt + interval ≤ now := by
  simp only [Cache.coolingDown, ha, Option.any_some, checkedSub] at h
  split_ifs at h with hle
  · have hage : interval ≤ now - attempt := by simpa using h
    omega
  · simp at h

theorem openGet_of_rejected {r : RemoteKeys} {c : Cache κ} {kid : String}
    {reading : Option Nat} (h : c.accepted reading = none) :
    r.openGet c kid reading = (.answer (.error .unavailable), c) := by
  simp [RemoteKeys.openGet, Cache.observe_of_rejected h]

/-- The first locked section, once its reading is accepted, answers from an
unexpired key set, refuses, or starts a fetch outside the cooldown. -/
theorem openGet_of_accepted (r : RemoteKeys) {c : Cache κ} (kid : String)
    {reading : Option Nat} {now : Nat}
    (h : c.accepted reading = some now) :
    (∃ key expiry, c.expiry = some expiry ∧ now < expiry ∧
        c.keys.lookup kid = some key ∧
        r.openGet c kid reading = (.answer (.ok key), c.tick now)) ∨
    (∃ e, r.openGet c kid reading = (.answer (.error e), c.tick now)) ∨
    (c.busy = false ∧
        (∀ attempt, c.lastAttempt = some attempt → attempt + r.interval ≤ now) ∧
        r.openGet c kid reading =
          (.fetch now, { c.tick now with busy := true, lastAttempt := some now })) := by
  simp only [RemoteKeys.openGet, Cache.observe_of_accepted h]
  cases hkey : (if (c.tick now).fresh now then (c.tick now).keys.lookup kid else none) with
  | some key =>
      left
      by_cases hfresh : (c.tick now).fresh now = true
      · simp only [hfresh, if_true] at hkey
        cases hexp : c.expiry with
        | none => simp [Cache.fresh, Cache.tick, hexp] at hfresh
        | some expiry =>
            have hlt : now < expiry := by
              simpa [Cache.fresh, Cache.tick, hexp] using hfresh
            exact ⟨key, expiry, rfl, hlt, hkey, rfl⟩
      · simp [hfresh] at hkey
  | none =>
      right
      by_cases hbusy : ((c.tick now).busy || (c.tick now).coolingDown now r.interval) = true
      · left
        simp only [hbusy, if_true]
        exact ⟨_, rfl⟩
      · right
        simp only [Bool.or_eq_true, not_or, Bool.not_eq_true] at hbusy
        refine ⟨hbusy.1, ?_, ?_⟩
        · intro attempt ha
          exact Cache.not_coolingDown (c := c.tick now) hbusy.2 ha
        · simp only [hbusy.1, hbusy.2, Bool.or_self, Bool.false_eq_true, if_false]

/-- The fetch was delivered, and the second section read the clock within the
trust period that began at `start`. -/
def Installs (r : RemoteKeys) (c : Cache κ) (start : Nat)
    (outcome : FetchOutcome κ) (reading : Option Nat) : Prop :=
  (∃ keys, outcome = .fetched keys) ∧
    ∃ now, c.accepted reading = some now ∧
      ∃ expiry, checkedAdd start r.ttl = some expiry ∧ now < expiry

theorem checkedAdd_eq_some {a b e : Nat} (h : checkedAdd a b = some e) :
    e = a + b := by
  simp only [checkedAdd] at h
  split_ifs at h
  exact (Option.some.inj h).symm

/-- The second locked section installs a delivered set within its trust period
and answers from it. -/
theorem closeGet_of_installs {r : RemoteKeys} {c : Cache κ} (kid : String)
    {start now : Nat} {keys : KeySet κ} {reading : Option Nat}
    (h : Installs r c start (.fetched keys) reading)
    (hnow : c.accepted reading = some now) :
    r.closeGet c kid start (.fetched keys) reading =
      (selectKey keys kid,
        { c.tick now with keys := keys, expiry := some (start + r.ttl) }) ∧
    now < start + r.ttl := by
  obtain ⟨-, now', hnow', expiry, hadd, hlt⟩ := h
  obtain rfl : now' = now := by simpa [hnow'] using hnow
  obtain rfl := checkedAdd_eq_some hadd
  have hle : ¬ start + r.ttl ≤ now' := by omega
  refine ⟨?_, hlt⟩
  simp [RemoteKeys.closeGet, Cache.observe_of_accepted hnow', hadd, hle,
    FetchOutcome.result]

/-- Otherwise it refuses, and of the cache it may only advance the clock. -/
theorem closeGet_of_not_installs {r : RemoteKeys} {c : Cache κ} (kid : String)
    {start : Nat} {outcome : FetchOutcome κ} {reading : Option Nat}
    (h : ¬ Installs r c start outcome reading) :
    ∃ e, r.closeGet c kid start outcome reading =
      (.error e, match c.accepted reading with
        | some now => c.tick now
        | none => c) := by
  cases hacc : c.accepted reading with
  | none =>
      exact ⟨.unavailable, by
        simp [RemoteKeys.closeGet, Cache.observe_of_rejected hacc]⟩
  | some now =>
      simp only [RemoteKeys.closeGet, Cache.observe_of_accepted hacc]
      cases hadd : checkedAdd start r.ttl with
      | none => exact ⟨.unavailable, rfl⟩
      | some expiry =>
          by_cases hle : expiry ≤ now
          · exact ⟨.unavailable, by simp [hle]⟩
          · cases outcome with
            | fetched keys =>
                exact absurd
                  ⟨⟨keys, rfl⟩, now, hacc, expiry, hadd, by omega⟩ h
            | failed => exact ⟨.unavailable, by simp [hle, FetchOutcome.result]⟩
            | timedOut => exact ⟨.unavailable, by simp [hle, FetchOutcome.result]⟩

theorem selectKey_eq_ok {keys : KeySet κ} {kid : String} {key : κ}
    (h : selectKey keys kid = .ok key) : keys.lookup kid = some key := by
  cases hl : keys.lookup kid with
  | none => simp [selectKey, hl] at h
  | some k => simpa [selectKey, hl] using h

/-- A call whose drop guard has not run. -/
def Phase.Guarded : Phase κ → Prop
  | .fetching _ => True
  | .leaving _ => True
  | .returned _ => False
  | .cancelled => False

/-- The key a call has been or is about to be given. -/
def Call.Yields (call : Call κ) (key : κ) : Prop :=
  call.phase = .leaving (some (.ok key)) ∨ call.phase = .returned (.ok key)

/-- `key` belongs to a delivered set whose fetch began at some `start` with
`start ≤ now < start + ttl`, for the clock value `now` last observed. -/
def WithinTrust (r : RemoteKeys) (fetched : List (Nat × KeySet κ))
    (kid : String) (key : κ) (observed : Option Nat) : Prop :=
  ∃ start keys now, (start, keys) ∈ fetched ∧ keys.lookup kid = some key ∧
    observed = some now ∧ start ≤ now ∧ now < start + r.ttl

theorem WithinTrust.mono {r : RemoteKeys} {fetched fetched' : List (Nat × KeySet κ)}
    {kid : String} {key : κ} {observed : Option Nat}
    (hsub : fetched ⊆ fetched')
    (h : WithinTrust r fetched kid key observed) :
    WithinTrust r fetched' kid key observed := by
  obtain ⟨start, keys, now, hmem, hrest⟩ := h
  exact ⟨start, keys, now, hsub hmem, hrest⟩

structure Inv (r : RemoteKeys) (s : State κ) : Prop where
  guard_busy : ∀ (i : Nat) (call : Call κ), s.calls[i]? = some call → call.phase.Guarded →
    s.cache.busy = true
  guard_unique : ∀ (i j : Nat) (ci cj : Call κ),
    s.calls[i]? = some ci → s.calls[j]? = some cj →
    ci.phase.Guarded → cj.phase.Guarded → i = j
  attempt : s.cache.lastAttempt = s.starts.head?
  observed_starts : ∀ start ∈ s.starts,
    ∃ clock, s.cache.lastClock = some clock ∧ start ≤ clock
  spaced : s.starts.Pairwise (fun later earlier => earlier + r.interval ≤ later)
  fetching_started : ∀ (i : Nat) kid start observed,
    s.calls[i]? = some ⟨kid, .fetching start, observed⟩ → start ∈ s.starts
  stored : ∀ expiry, s.cache.expiry = some expiry →
    ∃ start, start ∈ s.starts ∧ (start, s.cache.keys) ∈ s.fetched ∧
      expiry = start + r.ttl
  answered : ∀ (i : Nat) (call : Call κ) key, s.calls[i]? = some call → call.Yields key →
    WithinTrust r s.fetched call.kid key call.observed

theorem inv_initial (r : RemoteKeys) : Inv r (initial : State κ) where
  guard_busy := by simp [initial]
  guard_unique := by simp [initial]
  attempt := rfl
  observed_starts := by simp [initial]
  spaced := List.Pairwise.nil
  fetching_started := by simp [initial]
  stored := by simp [initial]
  answered := by simp [initial]

/-- A call appended to the list is the only new entry. -/
theorem getElem?_snoc {α : Type} {l : List α} {x y : α} {i : Nat}
    (h : (l ++ [x])[i]? = some y) : l[i]? = some y ∨ (i = l.length ∧ y = x) := by
  rcases Nat.lt_trichotomy i l.length with hlt | heq | hgt
  · rw [List.getElem?_append_left hlt] at h
    exact Or.inl h
  · subst heq
    right
    exact ⟨rfl, by simpa using h.symm⟩
  · rw [List.getElem?_append_right (by omega), List.getElem?_singleton] at h
    simp [show i - l.length ≠ 0 by omega] at h

theorem getElem?_set_cases {α : Type} {l : List α} {x y : α} {i j : Nat}
    (h : (l.set i x)[j]? = some y) : (j ≠ i ∧ l[j]? = some y) ∨ (j = i ∧ y = x) := by
  by_cases hij : i = j
  · subst hij
    rw [List.getElem?_set_self'] at h
    cases hl : l[i]? with
    | none => simp [hl] at h
    | some z => exact Or.inr ⟨rfl, by simpa [hl] using h.symm⟩
  · rw [List.getElem?_set_ne hij] at h
    exact Or.inl ⟨fun he => hij he.symm, h⟩

/-- Every recorded start is at most an accepted reading. -/
theorem Inv.start_le {r : RemoteKeys} {s : State κ} (hs : Inv r s)
    {reading : Option Nat} {now start : Nat}
    (hnow : s.cache.accepted reading = some now) (h : start ∈ s.starts) :
    start ≤ now := by
  obtain ⟨clock, hclock, hle⟩ := hs.observed_starts start h
  have := (Cache.accepted_eq_some.mp hnow).2 clock hclock
  omega

/-- Appending a call that holds no guard, with at most the clock advanced. -/
theorem Inv.append_answer {r : RemoteKeys} {s : State κ} (hs : Inv r s)
    {c : Cache κ} {kid : String} {result : Except AuthError κ}
    {observed : Option Nat}
    (hc : c = s.cache ∨ ∃ reading now, s.cache.accepted reading = some now ∧
      c = s.cache.tick now)
    (hans : ∀ key, result = .ok key → WithinTrust r s.fetched kid key observed) :
    Inv r { s with
      cache := c, calls := s.calls ++ [⟨kid, .returned result, observed⟩] } := by
  have hsame : c.busy = s.cache.busy ∧ c.lastAttempt = s.cache.lastAttempt ∧
      c.expiry = s.cache.expiry ∧ c.keys = s.cache.keys := by
    rcases hc with rfl | ⟨_, now, _, rfl⟩ <;> exact ⟨rfl, rfl, rfl, rfl⟩
  obtain ⟨hbusy, hattempt, hexpiry, hkeys⟩ := hsame
  constructor
  · intro i call hi hg
    rcases getElem?_snoc hi with hi | ⟨-, rfl⟩
    · exact hbusy ▸ hs.guard_busy i call hi hg
    · exact hg.elim
  · intro i j ci cj hi hj hgi hgj
    rcases getElem?_snoc hi with hi | ⟨-, rfl⟩
    · rcases getElem?_snoc hj with hj | ⟨-, rfl⟩
      · exact hs.guard_unique i j ci cj hi hj hgi hgj
      · exact hgj.elim
    · exact hgi.elim
  · exact hattempt ▸ hs.attempt
  · intro start hstart
    rcases hc with rfl | ⟨reading, now, hnow, rfl⟩
    · exact hs.observed_starts start hstart
    · exact ⟨now, rfl, hs.start_le hnow hstart⟩
  · exact hs.spaced
  · intro i kid' start observed' hi
    rcases getElem?_snoc hi with hi | ⟨-, h⟩
    · exact hs.fetching_started i kid' start observed' hi
    · cases h
  · intro expiry he
    obtain ⟨start, h₁, h₂, h₃⟩ := hs.stored expiry (hexpiry ▸ he)
    exact ⟨start, h₁, hkeys ▸ h₂, h₃⟩
  · intro i call key hi hy
    rcases getElem?_snoc hi with hi | ⟨-, rfl⟩
    · exact hs.answered i call key hi hy
    · rcases hy with hy | hy
      · cases hy
      · exact hans key (by simpa using hy)

/-- Appending a fetching call to an idle cache outside the cooldown. -/
theorem Inv.append_fetch {r : RemoteKeys} {s : State κ} (hs : Inv r s)
    {kid : String} {reading : Option Nat} {now : Nat} {observed : Option Nat}
    (hnow : s.cache.accepted reading = some now)
    (hidle : s.cache.busy = false)
    (hcool : ∀ attempt, s.cache.lastAttempt = some attempt →
      attempt + r.interval ≤ now) :
    Inv r { s with
      cache := { s.cache.tick now with busy := true, lastAttempt := some now }
      calls := s.calls ++ [⟨kid, .fetching now, observed⟩]
      starts := now :: s.starts } := by
  have hnone : ∀ (i : Nat) (call : Call κ), s.calls[i]? = some call → ¬ call.phase.Guarded := by
    intro i call hi hg
    have := hs.guard_busy i call hi hg
    simp [hidle] at this
  constructor
  · intros
    rfl
  · intro i j ci cj hi hj hgi hgj
    rcases getElem?_snoc hi with hi | ⟨rfl, -⟩
    · exact absurd hgi (hnone i ci hi)
    · rcases getElem?_snoc hj with hj | ⟨rfl, -⟩
      · exact absurd hgj (hnone j cj hj)
      · rfl
  · rfl
  · intro start hstart
    rcases List.mem_cons.mp hstart with rfl | hstart
    · exact ⟨start, rfl, le_rfl⟩
    · exact ⟨now, rfl, hs.start_le hnow hstart⟩
  · refine List.pairwise_cons.mpr ⟨?_, hs.spaced⟩
    -- the latest recorded start is the recorded attempt; older ones are earlier
    intro earlier hmem
    cases hstarts : s.starts with
    | nil => simp [hstarts] at hmem
    | cons latest rest =>
        have hlatest : latest + r.interval ≤ now :=
          hcool latest (by rw [hs.attempt, hstarts]; rfl)
        rw [hstarts] at hmem
        rcases List.mem_cons.mp hmem with rfl | hmem
        · exact hlatest
        · have hsp := hs.spaced
          rw [hstarts] at hsp
          have := (List.pairwise_cons.mp hsp).1 earlier hmem
          omega
  · intro i kid' start observed' hi
    rcases getElem?_snoc hi with hi | ⟨-, h⟩
    · exact List.mem_cons_of_mem _ (hs.fetching_started i kid' start observed' hi)
    · cases h
      exact List.mem_cons_self
  · intro expiry he
    obtain ⟨start, h₁, h₂, h₃⟩ := hs.stored expiry he
    exact ⟨start, List.mem_cons_of_mem _ h₁, h₂, h₃⟩
  · intro i call key hi hy
    rcases getElem?_snoc hi with hi | ⟨-, rfl⟩
    · exact hs.answered i call key hi hy
    · rcases hy with hy | hy <;> cases hy

/-- A fetching call starts to leave: it keeps its guard, so busy mark and
recorded attempt stay, and whatever the cache now stores must be accounted for. -/
theorem Inv.set_leaving {r : RemoteKeys} {s : State κ} (hs : Inv r s)
    {i : Nat} {kid : String} {start : Nat} {observed observed' : Option Nat}
    (hi : s.calls[i]? = some ⟨kid, .fetching start, observed⟩)
    {c : Cache κ} {fetched : List (Nat × KeySet κ)}
    {result : Option (Except AuthError κ)}
    (hbusy : c.busy = s.cache.busy)
    (hattempt : c.lastAttempt = s.cache.lastAttempt)
    (hclock : c.lastClock = s.cache.lastClock ∨
      ∃ reading now, s.cache.accepted reading = some now ∧ c.lastClock = some now)
    (hfetched : s.fetched ⊆ fetched)
    (hstored : ∀ expiry, c.expiry = some expiry →
      ∃ start, start ∈ s.starts ∧ (start, c.keys) ∈ fetched ∧
        expiry = start + r.ttl)
    (hans : ∀ key, result = some (.ok key) →
      WithinTrust r fetched kid key observed') :
    Inv r { s with
      cache := c
      calls := s.calls.set i ⟨kid, .leaving result, observed'⟩
      fetched := fetched } := by
  constructor
  · intro j call hj hg
    rcases getElem?_set_cases hj with ⟨-, hj⟩ | ⟨rfl, -⟩
    · exact hbusy ▸ hs.guard_busy j call hj hg
    · exact hbusy ▸ hs.guard_busy _ _ hi trivial
  · intro j k cj ck hj hk hgj hgk
    rcases getElem?_set_cases hj with ⟨-, hj'⟩ | ⟨hji, -⟩
    · rcases getElem?_set_cases hk with ⟨-, hk'⟩ | ⟨hki, -⟩
      · exact hs.guard_unique j k cj ck hj' hk' hgj hgk
      · exact (hs.guard_unique j i cj _ hj' hi hgj trivial).trans hki.symm
    · rcases getElem?_set_cases hk with ⟨-, hk'⟩ | ⟨hki, -⟩
      · exact hji.trans (hs.guard_unique i k _ ck hi hk' trivial hgk)
      · exact hji.trans hki.symm
  · exact hattempt ▸ hs.attempt
  · intro t ht
    rcases hclock with hclock | ⟨reading, now, hnow, hclock⟩
    · obtain ⟨clock, h₁, h₂⟩ := hs.observed_starts t ht
      exact ⟨clock, hclock.trans h₁, h₂⟩
    · exact ⟨now, hclock, hs.start_le hnow ht⟩
  · exact hs.spaced
  · intro j kid' start' observed'' hj
    rcases getElem?_set_cases hj with ⟨-, hj⟩ | ⟨-, h⟩
    · exact hs.fetching_started j kid' start' observed'' hj
    · cases h
  · exact hstored
  · intro j call key hj hy
    rcases getElem?_set_cases hj with ⟨-, hj⟩ | ⟨-, rfl⟩
    · exact (hs.answered j call key hj hy).mono hfetched
    · rcases hy with hy | hy
      · exact hans key (by simpa using hy)
      · cases hy

/-- The drop guard of a leaving call clears the busy mark. -/
theorem Inv.drop_guard {r : RemoteKeys} {s : State κ} (hs : Inv r s)
    {i : Nat} {kid : String} {observed : Option Nat}
    {result : Option (Except AuthError κ)}
    (hi : s.calls[i]? = some ⟨kid, .leaving result, observed⟩) :
    Inv r { s with
      cache := s.cache.dropAttempt
      calls := s.calls.set i ⟨kid, .ofResult result, observed⟩ } := by
  have hfree : ¬ (Phase.ofResult result : Phase κ).Guarded := by
    cases result <;> exact id
  -- no other call holds a guard, so none is left
  have hother : ∀ (j : Nat) (call : Call κ),
      (s.calls.set i ⟨kid, .ofResult result, observed⟩)[j]? = some call →
      ¬ call.phase.Guarded := by
    intro j call hj hg
    rcases getElem?_set_cases hj with ⟨hne, hj⟩ | ⟨-, rfl⟩
    · exact hne (hs.guard_unique j i call _ hj hi hg trivial)
    · exact hfree hg
  constructor
  · intro j call hj hg
    exact absurd hg (hother j call hj)
  · intro j k cj ck hj hk hgj hgk
    exact absurd hgj (hother j cj hj)
  · exact hs.attempt
  · exact hs.observed_starts
  · exact hs.spaced
  · intro j kid' start observed' hj
    exact absurd trivial (hother j _ hj)
  · exact hs.stored
  · intro j call key hj hy
    rcases getElem?_set_cases hj with ⟨-, hj⟩ | ⟨-, rfl⟩
    · exact hs.answered j call key hj hy
    · refine hs.answered i ⟨kid, .leaving result, observed⟩ key hi (Or.inl ?_)
      rcases hy with hy | hy
      · cases result <;> cases hy
      · cases result with
        | none => cases hy
        | some result => simpa [Phase.ofResult] using hy

theorem FetchOutcome.subset_record (start : Nat)
    (fetched : List (Nat × KeySet κ)) (outcome : FetchOutcome κ) :
    fetched ⊆ outcome.record start fetched := by
  cases outcome with
  | fetched keys => exact List.subset_cons_self _ _
  | failed => exact List.Subset.refl _
  | timedOut => exact List.Subset.refl _

theorem inv_get {r : RemoteKeys} {s s' : State κ} {kid : String}
    {reading : Option Nat} (hs : Inv r s)
    (h : step r s (.get kid reading) = some s') : Inv r s' := by
  simp only [step] at h
  cases hacc : s.cache.accepted reading with
  | none =>
      rw [openGet_of_rejected hacc] at h
      obtain rfl := Option.some.inj h
      exact hs.append_answer (Or.inl rfl) (fun key hk => by cases hk)
  | some now =>
      have htick : s.cache.tick now = s.cache ∨ ∃ reading now',
          s.cache.accepted reading = some now' ∧
          s.cache.tick now = s.cache.tick now' := Or.inr ⟨reading, now, hacc, rfl⟩
      rcases openGet_of_accepted r kid hacc with
        ⟨key, expiry, hexp, hlt, hkey, hopen⟩ | ⟨e, hopen⟩ | ⟨hidle, hcool, hopen⟩
      · rw [hopen] at h
        obtain rfl := Option.some.inj h
        refine hs.append_answer htick ?_
        intro key' hk
        obtain rfl : key = key' := by simpa using hk
        obtain ⟨start, hstart, hmem, rfl⟩ := hs.stored expiry hexp
        exact ⟨start, s.cache.keys, now, hmem, hkey, hacc,
          hs.start_le hacc hstart, hlt⟩
      · rw [hopen] at h
        obtain rfl := Option.some.inj h
        exact hs.append_answer htick (fun key hk => by cases hk)
      · rw [hopen] at h
        obtain rfl := Option.some.inj h
        exact hs.append_fetch hacc hidle hcool

theorem inv_complete {r : RemoteKeys} {s s' : State κ} {i : Nat}
    {outcome : FetchOutcome κ} {reading : Option Nat} (hs : Inv r s)
    (h : step r s (.complete i outcome reading) = some s') : Inv r s' := by
  simp only [step] at h
  split at h
  next kid start observed hi =>
    obtain rfl := Option.some.inj h
    have hstart := hs.fetching_started i kid start observed hi
    by_cases hinst : Installs r s.cache start outcome reading
    · obtain ⟨⟨keys, rfl⟩, now, hnow, -⟩ := id hinst
      obtain ⟨hclose, hlt⟩ := closeGet_of_installs kid hinst hnow
      rw [hclose]
      have hmem : (start, keys) ∈
          (FetchOutcome.fetched keys).record start s.fetched := List.mem_cons_self
      refine hs.set_leaving hi rfl rfl (Or.inr ⟨reading, now, hnow, rfl⟩)
        (FetchOutcome.subset_record _ _ _) ?_ ?_
      · intro expiry he
        exact ⟨start, hstart, hmem, (Option.some.inj he).symm⟩
      · intro key hk
        have hk' : selectKey keys kid = .ok key := by simpa using hk
        exact ⟨start, keys, now, hmem, selectKey_eq_ok hk', hnow,
          hs.start_le hnow hstart, hlt⟩
    · obtain ⟨e, hclose⟩ := closeGet_of_not_installs kid hinst
      rw [hclose]
      have hsub := FetchOutcome.subset_record start s.fetched outcome
      have hold : ∀ expiry, s.cache.expiry = some expiry →
          ∃ t, t ∈ s.starts ∧
            (t, s.cache.keys) ∈ outcome.record start s.fetched ∧
            expiry = t + r.ttl := by
        intro expiry he
        obtain ⟨t, h₁, h₂, h₃⟩ := hs.stored expiry he
        exact ⟨t, h₁, hsub h₂, h₃⟩
      cases hacc : s.cache.accepted reading with
      | none =>
          exact hs.set_leaving hi rfl rfl (Or.inl rfl) hsub hold
            (fun key hk => by simp at hk)
      | some now =>
          exact hs.set_leaving hi rfl rfl (Or.inr ⟨reading, now, hacc, rfl⟩) hsub hold
            (fun key hk => by simp at hk)
  next => cases h

theorem inv_step {r : RemoteKeys} (s : State κ) (e : Event κ) (s' : State κ)
    (hs : Inv r s) (h : step r s e = some s') : Inv r s' := by
  cases e with
  | get kid reading => exact inv_get hs h
  | complete i outcome reading => exact inv_complete hs h
  | cancel i =>
      simp only [step] at h
      split at h
      next kid start observed hi =>
        obtain rfl := Option.some.inj h
        exact hs.set_leaving hi rfl rfl (Or.inl rfl) (List.Subset.refl _) hs.stored
          (fun key hk => by cases hk)
      next => cases h
  | dropGuard i =>
      simp only [step] at h
      split at h
      next kid result observed hi =>
        obtain rfl := Option.some.inj h
        exact hs.drop_guard hi
      next => cases h

theorem inv_of_reachable {r : RemoteKeys} {s : State κ}
    (hs : (machine κ r).Reachable s) : Inv r s :=
  hs.invariant (fun _ h => h ▸ inv_initial r) inv_step

/-- Call `i` is waiting for its fetch. -/
def InFlight (s : State κ) (i : Nat) : Prop :=
  ∃ kid start observed, s.calls[i]? = some ⟨kid, .fetching start, observed⟩

/-- What one event may do to trust: the clauses about readings, unsuccessful and
successful fetches, cancellation and the drop guard. -/
structure TrustStep (r : RemoteKeys) (s : State κ) (e : Event κ) (s' : State κ) :
    Prop where
  /-- A fetch start is a clock value just observed, and is recorded. -/
  fetch_recorded : ∀ kid reading, e = .get kid reading →
    InFlight s' s.calls.length →
      ∃ now, reading = some now ∧ s'.cache.lastClock = some now ∧
        s'.starts = now :: s.starts
  /-- A missing or backward reading answers with a refusal and changes nothing. -/
  get_rejected : ∀ kid reading, e = .get kid reading →
    s.cache.accepted reading = none →
      s'.cache = s.cache ∧
      s'.calls = s.calls ++ [⟨kid, .returned (.error .unavailable), none⟩]
  complete_rejected : ∀ i outcome reading, e = .complete i outcome reading →
    s.cache.accepted reading = none →
      s'.cache = s.cache ∧
      ∃ kid error, s'.calls[i]? = some ⟨kid, .leaving (some (.error error)), none⟩
  /-- Only a fetch delivered within its trust period changes the stored keys. -/
  keys_kept : (∀ i outcome reading kid start observed,
      e = .complete i outcome reading →
      s.calls[i]? = some ⟨kid, .fetching start, observed⟩ →
      ¬ Installs r s.cache start outcome reading) →
    s'.cache.keys = s.cache.keys ∧ s'.cache.expiry = s.cache.expiry
  /-- Such a fetch replaces the whole set. -/
  keys_replaced : ∀ i keys reading kid start observed,
    e = .complete i (.fetched keys) reading →
    s.calls[i]? = some ⟨kid, .fetching start, observed⟩ →
    Installs r s.cache start (.fetched keys) reading →
      s'.cache.keys = keys ∧ s'.cache.expiry = some (start + r.ttl)
  /-- Cancelling leaves the cache alone; the guard then clears only the mark. -/
  cancel_keeps : ∀ i, e = .cancel i → s'.cache = s.cache ∧ s'.starts = s.starts ∧
    ∃ kid observed, s'.calls[i]? = some ⟨kid, .leaving none, observed⟩
  drop_clears : ∀ i, e = .dropGuard i →
    s'.cache = { s.cache with busy := false } ∧ s'.starts = s.starts

/-- The first locked section never touches the stored set. -/
theorem step_get_keeps {r : RemoteKeys} {s s' : State κ} {kid : String}
    {reading : Option Nat} (h : step r s (.get kid reading) = some s') :
    s'.cache.keys = s.cache.keys ∧ s'.cache.expiry = s.cache.expiry := by
  simp only [step] at h
  cases hacc : s.cache.accepted reading with
  | none =>
      rw [openGet_of_rejected hacc] at h
      obtain rfl := Option.some.inj h
      exact ⟨rfl, rfl⟩
  | some now =>
      rcases openGet_of_accepted r kid hacc with
        ⟨key, expiry, -, -, -, hopen⟩ | ⟨e, hopen⟩ | ⟨-, -, hopen⟩ <;>
      · rw [hopen] at h
        obtain rfl := Option.some.inj h
        exact ⟨rfl, rfl⟩

theorem step_get_rejected {r : RemoteKeys} {s s' : State κ} {kid : String}
    {reading : Option Nat} (h : step r s (.get kid reading) = some s')
    (hacc : s.cache.accepted reading = none) :
    s'.cache = s.cache ∧
      s'.calls = s.calls ++ [⟨kid, .returned (.error .unavailable), none⟩] := by
  simp only [step, openGet_of_rejected hacc, hacc] at h
  obtain rfl := Option.some.inj h
  exact ⟨rfl, rfl⟩

theorem step_get_fetch {r : RemoteKeys} {s s' : State κ} {kid : String}
    {reading : Option Nat} (h : step r s (.get kid reading) = some s')
    (hfly : InFlight s' s.calls.length) :
    ∃ now, reading = some now ∧ s'.cache.lastClock = some now ∧
      s'.starts = now :: s.starts := by
  obtain ⟨kid', start, observed, hfly⟩ := hfly
  simp only [step] at h
  cases hacc : s.cache.accepted reading with
  | none =>
      rw [openGet_of_rejected hacc] at h
      obtain rfl := Option.some.inj h
      simp at hfly
  | some now =>
      rcases openGet_of_accepted r kid hacc with
        ⟨key, expiry, -, -, -, hopen⟩ | ⟨e, hopen⟩ | ⟨-, -, hopen⟩
      · rw [hopen] at h
        obtain rfl := Option.some.inj h
        simp at hfly
      · rw [hopen] at h
        obtain rfl := Option.some.inj h
        simp at hfly
      · rw [hopen] at h
        obtain rfl := Option.some.inj h
        exact ⟨now, (Cache.accepted_eq_some.mp hacc).1, rfl, rfl⟩

/-- The second locked section of the call in slot `i`. -/
theorem step_complete_eq {r : RemoteKeys} {s s' : State κ} {i : Nat}
    {outcome : FetchOutcome κ} {reading : Option Nat}
    (h : step r s (.complete i outcome reading) = some s') :
    ∃ kid start observed, s.calls[i]? = some ⟨kid, .fetching start, observed⟩ ∧
      s'.cache = (r.closeGet s.cache kid start outcome reading).2 ∧
      s'.calls[i]? = some ⟨kid,
        .leaving (some (r.closeGet s.cache kid start outcome reading).1),
        s.cache.accepted reading⟩ := by
  simp only [step] at h
  split at h
  next kid start observed hi =>
    obtain rfl := Option.some.inj h
    refine ⟨kid, start, observed, hi, rfl, ?_⟩
    simp [List.getElem?_set_self', hi]
  next => cases h

theorem step_cancel_eq {r : RemoteKeys} {s s' : State κ} {i : Nat}
    (h : step r s (.cancel i) = some s') :
    s'.cache = s.cache ∧ s'.starts = s.starts ∧
      ∃ kid observed, s'.calls[i]? = some ⟨kid, .leaving none, observed⟩ := by
  simp only [step] at h
  split at h
  next kid start observed hi =>
    obtain rfl := Option.some.inj h
    exact ⟨rfl, rfl, kid, observed, by simp [List.getElem?_set_self', hi]⟩
  next => cases h

theorem step_dropGuard_eq {r : RemoteKeys} {s s' : State κ} {i : Nat}
    (h : step r s (.dropGuard i) = some s') :
    s'.cache = { s.cache with busy := false } ∧ s'.starts = s.starts := by
  simp only [step] at h
  split at h
  next kid result observed hi =>
    obtain rfl := Option.some.inj h
    exact ⟨rfl, rfl⟩
  next => cases h

theorem trustStep {r : RemoteKeys} {s s' : State κ} {e : Event κ}
    (h : step r s e = some s') : TrustStep r s e s' where
  fetch_recorded := by
    rintro kid reading rfl hfly
    exact step_get_fetch h hfly
  get_rejected := by
    rintro kid reading rfl hacc
    exact step_get_rejected h hacc
  complete_rejected := by
    rintro i outcome reading rfl hacc
    obtain ⟨kid, start, observed, hi, hcache, hcall⟩ := step_complete_eq h
    have hinst : ¬ Installs r s.cache start outcome reading := by
      rintro ⟨-, now, hnow, -⟩
      simp [hacc] at hnow
    obtain ⟨e, hclose⟩ := closeGet_of_not_installs kid hinst
    rw [hclose, hacc] at hcache hcall
    exact ⟨hcache, kid, e, hcall⟩
  keys_kept := by
    intro hnot
    cases e with
    | get kid reading => exact step_get_keeps h
    | complete i outcome reading =>
        obtain ⟨kid, start, observed, hi, hcache, -⟩ := step_complete_eq h
        obtain ⟨e, hclose⟩ := closeGet_of_not_installs kid
          (hnot i outcome reading kid start observed rfl hi)
        rw [hcache, hclose]
        cases s.cache.accepted reading <;> exact ⟨rfl, rfl⟩
    | cancel i =>
        rw [(step_cancel_eq h).1]
        exact ⟨rfl, rfl⟩
    | dropGuard i =>
        rw [(step_dropGuard_eq h).1]
        exact ⟨rfl, rfl⟩
  keys_replaced := by
    rintro i keys reading kid start observed rfl hi hinst
    obtain ⟨kid', start', observed', hi', hcache, -⟩ := step_complete_eq h
    rw [hi] at hi'
    cases hi'
    obtain ⟨-, now, hnow, -⟩ := id hinst
    rw [hcache, (closeGet_of_installs kid hinst hnow).1]
    exact ⟨rfl, rfl⟩
  cancel_keeps := by
    rintro i rfl
    exact step_cancel_eq h
  drop_clears := by
    rintro i rfl
    exact step_dropGuard_eq h

/-- **Issuer key cache safety.**  In every reachable state at most one fetch is
in flight, fetch starts are at least the configured interval apart, and every
key given to a caller comes from a delivered set within its trust period at the
clock value that caller last observed; every event obeys `TrustStep`. -/
theorem issuer_key_cache_safe (r : RemoteKeys) {s : State κ}
    (hs : (machine κ r).Reachable s) :
    (∀ i j, InFlight s i → InFlight s j → i = j) ∧
    s.starts.Pairwise (fun later earlier => earlier + r.interval ≤ later) ∧
    (∀ (i : Nat) (call : Call κ) key, s.calls[i]? = some call → call.Yields key →
      WithinTrust r s.fetched call.kid key call.observed) ∧
    ∀ e s', step r s e = some s' → TrustStep r s e s' := by
  have hinv := inv_of_reachable hs
  refine ⟨?_, hinv.spaced, hinv.answered, fun e s' h => trustStep h⟩
  rintro i j ⟨kid, start, observed, hi⟩ ⟨kid', start', observed', hj⟩
  exact hinv.guard_unique i j _ _ hi hj trivial trivial

/-- One fetch refuses a concurrent caller, is delivered, and then serves a
second caller until its deadline; a cancelled refresh keeps its attempt. -/
def refreshRun : List (Event Nat) :=
  [.get "a" (some 10), .get "a" (some 11), .complete 0 (.fetched [("a", 7)]) (some 12),
    .dropGuard 0, .get "a" (some 29), .get "b" (some 29), .cancel 3, .dropGuard 3]

def refreshState : State Nat where
  cache :=
    { keys := [("a", 7)], expiry := some 30, lastAttempt := some 29,
      lastClock := some 29, busy := false }
  calls :=
    [⟨"a", .returned (.ok 7), some 12⟩, ⟨"a", .returned (.error .unavailable), some 11⟩,
      ⟨"a", .returned (.ok 7), some 29⟩, ⟨"b", .cancelled, some 29⟩]
  starts := [29, 10]
  fetched := [(10, [("a", 7)])]

theorem issuer_key_cache_safe_refresh :
    (∃ start keys now, (start, keys) ∈ refreshState.fetched ∧
      keys.lookup "a" = some 7 ∧ some 29 = some now ∧ start ≤ now ∧
      now < start + 20) ∧
    [29, 10].Pairwise (fun later earlier => earlier + 5 ≤ later) := by
  have hrun : (machine Nat ⟨20, 5⟩).runEvents initial refreshRun = some refreshState := by
    rfl
  obtain ⟨-, hspaced, hkeys, -⟩ := issuer_key_cache_safe ⟨20, 5⟩
    (Machine.reachable_of_runEvents rfl hrun)
  exact ⟨hkeys 2 ⟨"a", .returned (.ok 7), some 29⟩ 7 rfl (Or.inr rfl), hspaced⟩

end Keys
end Server
end Glaux
