import Glaux.Library.Log
import Glaux.Library.Transition
import Glaux.Server.Authorization.Policy
import Mathlib.Data.Nat.Basic
import Mathlib.Order.Basic

/-!
# The rate of denied mutations (`DenialState::take_capacity`)

A call reads the clock and then takes the lock.  Any number of calls are under
way, and the clock may advance between the two steps of one of them.
-/

namespace Glaux
namespace Server
namespace DenialRate

open Library

/-- Readings of the rate clock are in nanoseconds. -/
def nanosPerSecond : Nat := 1000000000

structure RateState where
  start : Option Nat := none
  last : Option Nat := none
  used : Nat := 0
deriving DecidableEq

/-- What a call is told; each refusal has a counter of its own. -/
inductive Capacity where
  | granted | rateLimited | clockUnavailable
deriving DecidableEq, Repr

/-- A reading that begins a new window. -/
def RateState.opens (limits : DenialLimits) (state : RateState) (now : Nat) : Bool :=
  state.start.all (fun start => limits.windowSeconds * nanosPerSecond ≤ now - start)

/-- `take_capacity`, on the reading it has taken. -/
def takeCapacity (limits : DenialLimits) (state : RateState) (reading : Option Nat) :
    RateState × Capacity :=
  match reading with
  | none => (state, .clockUnavailable)
  | some now =>
      if state.last.any (fun last => now < last) then (state, .clockUnavailable)
      else
        let state : RateState :=
          if state.opens limits now then ⟨some now, some now, 0⟩
          else { state with last := some now }
        if limits.maxPerWindow ≤ state.used then (state, .rateLimited)
        else ({ state with used := state.used + 1 }, .granted)

/-- A decision, with the window that was open when it was made. -/
structure Verdict where
  call : Nat
  now : Nat
  window : Option Nat
  capacity : Capacity
deriving DecidableEq

structure Limiter where
  clock : Nat
  rate : RateState
  /-- the reading of a call that has not taken the lock yet -/
  calls : List (Option Nat)
  history : List Verdict

inductive Event where
  | tick (nanoseconds : Nat)
  /-- a call reads the clock -/
  | sample
  /-- a call takes the lock -/
  | enter (call : Nat)

namespace Limiter

/-- The limiter after the locked section of a call. -/
def decided (limits : DenialLimits) (w : Limiter) (i now : Nat) : Limiter :=
  let result := takeCapacity limits w.rate (some now)
  { w with
    rate := result.1
    calls := w.calls.set i none
    history := w.history ++ [⟨i, now, result.1.start, result.2⟩] }

/-- The clock never fails and never runs backward. -/
def step (limits : DenialLimits) (w : Limiter) : Event → Option Limiter
  | .tick nanoseconds => some { w with clock := w.clock + nanoseconds }
  | .sample => some { w with calls := w.calls ++ [some w.clock] }
  | .enter i =>
      match w.calls[i]? with
      | some (some now) => some (w.decided limits i now)
      | _ => none

/-- A new limiter, at any time. -/
def Start (w : Limiter) : Prop := w.rate = {} ∧ w.calls = [] ∧ w.history = []

def machine (limits : DenialLimits) : Machine Limiter Event where
  start := Start
  step := step limits

end Limiter

/-- The grants of one window. -/
def grants (history : List Verdict) (window : Option Nat) : List Verdict :=
  history.filter (fun v => v.capacity = .granted ∧ v.window = window)

/-- The verdict is just, given the verdicts before it: a refusal means that the window
then open has no capacity left. -/
def Verdict.Just (limits : DenialLimits) (earlier : List Verdict) (v : Verdict) : Prop :=
  v.capacity ≠ .granted →
    v.capacity = .rateLimited ∧ (grants earlier v.window).length = limits.maxPerWindow

/-- What holds when the limiter is fair. -/
structure Fair (limits : DenialLimits) (w : Limiter) : Prop where
  just : Entries (Verdict.Just limits) w.history
  capped : ∀ window, (grants w.history window).length ≤ limits.maxPerWindow

/-- Calls take the lock in the order of their readings. -/
def InOrder (w : Limiter) : Prop :=
  Entries (fun earlier v => ∀ a ∈ earlier, a.now ≤ v.now) w.history

section Rate

variable {limits : DenialLimits} {state : RateState} {now : Nat}

/-- What a locked section can do. -/
inductive Takes (limits : DenialLimits) (state : RateState) (now : Nat) :
    RateState × Capacity → Prop
  | stale {last : Nat} (hlast : state.last = some last) (hstale : now < last) :
      Takes limits state now (state, .clockUnavailable)
  | opened (hlast : ∀ last, state.last = some last → last ≤ now)
      (hopens : ∀ start, state.start = some start →
        limits.windowSeconds * nanosPerSecond ≤ now - start) :
      Takes limits state now (⟨some now, some now, 1⟩, .granted)
  | full {start : Nat} (hlast : ∀ last, state.last = some last → last ≤ now)
      (hstart : state.start = some start) (hfull : limits.maxPerWindow ≤ state.used) :
      Takes limits state now ({ state with last := some now }, .rateLimited)
  | used {start : Nat} (hlast : ∀ last, state.last = some last → last ≤ now)
      (hstart : state.start = some start) (hroom : state.used < limits.maxPerWindow) :
      Takes limits state now
        ({ state with last := some now, used := state.used + 1 }, .granted)

theorem opens_iff : state.opens limits now = true ↔ ∀ start, state.start = some start →
    limits.windowSeconds * nanosPerSecond ≤ now - start := by
  simp only [RateState.opens, Option.all_eq_true, decide_eq_true_eq]

theorem takes (hlimits : 1 ≤ limits.maxPerWindow) :
    Takes limits state now (takeCapacity limits state (some now)) := by
  have hroom : ¬ limits.maxPerWindow ≤ 0 := by omega
  by_cases hstale : state.last.any (fun last => now < last) = true
  · obtain ⟨last, hlast, hlt⟩ : ∃ last, state.last = some last ∧ now < last := by
      simpa [Option.any_eq_true] using hstale
    rw [takeCapacity, if_pos hstale]
    exact .stale hlast hlt
  · have hlast : ∀ last, state.last = some last → last ≤ now := by
      intro last hlast
      simpa [hlast] using hstale
    by_cases hopens : state.opens limits now = true
    · simp only [takeCapacity, if_neg hstale, if_pos hopens, if_neg hroom]
      exact .opened hlast (opens_iff.mp hopens)
    · obtain ⟨start, hstart⟩ : ∃ start, state.start = some start := by
        cases hstart : state.start with
        | none => exact absurd (opens_iff.mpr (by simp [hstart])) hopens
        | some start => exact ⟨start, rfl⟩
      simp only [takeCapacity, if_neg hstale, if_neg hopens]
      by_cases hfull : limits.maxPerWindow ≤ state.used
      · rw [if_pos hfull]
        exact .full hlast hstart hfull
      · rw [if_neg hfull]
        exact .used hlast hstart (Nat.lt_of_not_le hfull)

end Rate

section Fairness

variable {limits : DenialLimits} {w w' : Limiter} {e : Event}

theorem grants_snoc {history : List Verdict} {v : Verdict} {window : Option Nat} :
    grants (history ++ [v]) window =
      if v.capacity = .granted ∧ v.window = window then grants history window ++ [v]
      else grants history window := by
  by_cases hv : v.capacity = .granted ∧ v.window = window <;>
    simp [grants, List.filter_append, hv]

/-- The verdict is explained by the verdicts before it. -/
def Verdict.Explained (limits : DenialLimits) (earlier : List Verdict) (v : Verdict) : Prop :=
  (v.capacity = .clockUnavailable ↔
    ∃ a ∈ earlier, a.capacity ≠ .clockUnavailable ∧ v.now < a.now) ∧
  (v.capacity = .rateLimited → (grants earlier v.window).length = limits.maxPerWindow)

/-- **The invariant.**  The rate state sums up the verdicts so far. -/
structure Inv (limits : DenialLimits) (w : Limiter) : Prop where
  last : ∀ now, (∃ last, w.rate.last = some last ∧ now < last) ↔
    ∃ a ∈ w.history, a.capacity ≠ .clockUnavailable ∧ now < a.now
  started : ∀ start, w.rate.start = some start → (∃ last, w.rate.last = some last ∧ start ≤ last) ∧
    (grants w.history (some start)).length = w.rate.used
  windows : ∀ v ∈ w.history, v.capacity = .granted →
    ∃ opened start, v.window = some opened ∧ w.rate.start = some start ∧ opened ≤ start
  capped : ∀ window, (grants w.history window).length ≤ limits.maxPerWindow
  explained : Entries (Verdict.Explained limits) w.history

/-- The last accepted reading, after an accepted one. -/
theorem last_snoc {history : List Verdict} {last : Option Nat} {v : Verdict}
    (hold : ∀ now, (∃ l, last = some l ∧ now < l) ↔
      ∃ a ∈ history, a.capacity ≠ .clockUnavailable ∧ now < a.now)
    (hlast : ∀ l, last = some l → l ≤ v.now) (hv : v.capacity ≠ .clockUnavailable) (now : Nat) :
    (∃ l, some v.now = some l ∧ now < l) ↔
      ∃ a ∈ history ++ [v], a.capacity ≠ .clockUnavailable ∧ now < a.now := by
  constructor
  · rintro ⟨l, hl, hnow⟩
    obtain rfl := Option.some.inj hl
    exact ⟨v, by simp, hv, hnow⟩
  · rintro ⟨a, ha, haccepted, hnow⟩
    refine ⟨v.now, rfl, ?_⟩
    obtain ha | ha := List.mem_append.mp ha
    · obtain ⟨l, hl, hlt⟩ := (hold now).mpr ⟨a, ha, haccepted, hnow⟩
      exact lt_of_lt_of_le hlt (hlast l hl)
    · rwa [List.mem_singleton.mp ha] at hnow

/-- An accepted reading is behind no other. -/
theorem Inv.fresh (hinv : Inv limits w) {now : Nat}
    (hlast : ∀ last, w.rate.last = some last → last ≤ now) :
    ¬ ∃ a ∈ w.history, a.capacity ≠ .clockUnavailable ∧ now < a.now := by
  intro hstale
  obtain ⟨last, hlast', hlt⟩ := (hinv.last now).mpr hstale
  exact absurd (hlast last hlast') (Nat.not_le.mpr hlt)

theorem Inv.decided (hlimits : limits.validate = some limits) (hinv : Inv limits w)
    (i now : Nat) : Inv limits (w.decided limits i now) := by
  obtain ⟨-, ⟨hmax, -⟩, hwindow, -⟩ : (1 ≤ limits.maxRecords ∧ limits.maxRecords ≤ 100000) ∧
      (1 ≤ limits.maxPerWindow ∧ limits.maxPerWindow ≤ 10000) ∧
      (1 ≤ limits.windowSeconds ∧ limits.windowSeconds ≤ 86400) := by
    by_contra hinvalid
    simp [DenialLimits.validate, if_neg hinvalid] at hlimits
  have htakes : Takes limits w.rate now (takeCapacity limits w.rate (some now)) := takes hmax
  simp only [Limiter.decided]
  generalize takeCapacity limits w.rate (some now) = result at htakes
  cases htakes with
  | @stale last hlast hstale =>
      have hgrants : ∀ window, grants (w.history ++ [⟨i, now, w.rate.start, .clockUnavailable⟩])
          window = grants w.history window := by
        intro window
        simp [grants_snoc]
      exact {
        last := fun x => (hinv.last x).trans (by simp)
        started := fun start hstart => by
          rw [hgrants]
          exact hinv.started start hstart
        windows := fun v hv hgranted => by
          obtain hv | hv := List.mem_append.mp hv
          · exact hinv.windows v hv hgranted
          · rw [List.mem_singleton.mp hv] at hgranted
            cases hgranted
        capped := fun window => by
          rw [hgrants]
          exact hinv.capped window
        explained := entries_snoc.mpr ⟨hinv.explained,
          ⟨fun _ => (hinv.last now).mp ⟨last, hlast, hstale⟩, fun _ => rfl⟩, by simp⟩ }
  | opened hlast hopens =>
      -- every window before this one began earlier
      have hbefore : ∀ v ∈ w.history, v.capacity = .granted → v.window ≠ some now := by
        intro v hv hgranted heq
        obtain ⟨opened, start, hopened, hstart, hle⟩ := hinv.windows v hv hgranted
        obtain rfl := Option.some.inj (hopened.symm.trans heq)
        have hlong := hopens start hstart
        have hpos : 0 < limits.windowSeconds * nanosPerSecond :=
          Nat.mul_pos hwindow (by unfold nanosPerSecond; omega)
        omega
      have hnone : grants w.history (some now) = [] := by
        refine List.filter_eq_nil_iff.mpr (fun v hv => ?_)
        simpa using hbefore v hv
      exact {
        last := last_snoc (v := ⟨i, now, some now, .granted⟩) hinv.last hlast (by simp)
        started := fun start hstart => by
          obtain rfl := Option.some.inj hstart
          exact ⟨⟨now, rfl, le_rfl⟩, by simp [grants_snoc, hnone]⟩
        windows := fun v hv hgranted => by
          obtain hv | hv := List.mem_append.mp hv
          · obtain ⟨opened, start, hopened, hstart, hle⟩ := hinv.windows v hv hgranted
            obtain ⟨⟨last, hlast', hstartle⟩, -⟩ := hinv.started start hstart
            exact ⟨opened, now, hopened, rfl, (hle.trans hstartle).trans (hlast last hlast')⟩
          · rw [List.mem_singleton.mp hv]
            exact ⟨now, now, rfl, rfl, le_rfl⟩
        capped := fun window => by
          rw [grants_snoc]
          split
          next heq =>
            obtain rfl : some now = window := heq.2
            simpa [hnone] using hmax
          next => exact hinv.capped window
        explained := entries_snoc.mpr ⟨hinv.explained,
          ⟨by simp, fun hstale => absurd hstale (hinv.fresh hlast)⟩, by simp⟩ }
  | @full start hlast hstart hfull =>
      have hgrants : ∀ window, grants (w.history ++ [⟨i, now, w.rate.start, .rateLimited⟩])
          window = grants w.history window := by
        intro window
        simp [grants_snoc]
      obtain ⟨⟨last, hlast', hstartle⟩, hused⟩ := hinv.started start hstart
      exact {
        last := last_snoc (v := ⟨i, now, w.rate.start, .rateLimited⟩) hinv.last hlast (by simp)
        started := fun start' hstart' => by
          obtain rfl := Option.some.inj (hstart.symm.trans hstart')
          exact ⟨⟨now, rfl, hstartle.trans (hlast last hlast')⟩, (hgrants _).symm ▸ hused⟩
        windows := fun v hv hgranted => by
          obtain hv | hv := List.mem_append.mp hv
          · exact hinv.windows v hv hgranted
          · rw [List.mem_singleton.mp hv] at hgranted
            cases hgranted
        capped := fun window => by
          rw [hgrants]
          exact hinv.capped window
        explained := entries_snoc.mpr ⟨hinv.explained,
          ⟨by simp, fun hstale => absurd hstale (hinv.fresh hlast)⟩, fun _ => by
            have hle := hinv.capped (some start)
            simp only [hstart]
            omega⟩ }
  | @used start hlast hstart hroom =>
      obtain ⟨⟨last, hlast', hstartle⟩, hused⟩ := hinv.started start hstart
      exact {
        last := last_snoc (v := ⟨i, now, w.rate.start, .granted⟩) hinv.last hlast (by simp)
        started := fun start' hstart' => by
          obtain rfl := Option.some.inj (hstart.symm.trans hstart')
          refine ⟨⟨now, rfl, hstartle.trans (hlast last hlast')⟩, ?_⟩
          simp [grants_snoc, hstart, hused]
        windows := fun v hv hgranted => by
          obtain hv | hv := List.mem_append.mp hv
          · exact hinv.windows v hv hgranted
          · rw [List.mem_singleton.mp hv]
            exact ⟨start, start, hstart, hstart, le_rfl⟩
        capped := fun window => by
          rw [grants_snoc]
          split
          next heq =>
            obtain rfl : w.rate.start = window := heq.2
            rw [hstart, List.length_append, hused]
            exact hroom
          next => exact hinv.capped window
        explained := entries_snoc.mpr ⟨hinv.explained,
          ⟨by simp, fun hstale => absurd hstale (hinv.fresh hlast)⟩, by simp⟩ }

theorem inv_of_reachable (hlimits : limits.validate = some limits)
    (h : (Limiter.machine limits).Reachable w) : Inv limits w := by
  refine Machine.Reachable.invariant (P := Inv limits) ?_ ?_ h
  · rintro w ⟨hrate, -, hhistory⟩
    exact {
      last := by simp [hrate, hhistory]
      started := by simp [hrate]
      windows := by simp [hhistory]
      capped := by simp [hhistory, grants]
      explained := hhistory ▸ entries_nil }
  · intro w e w' hinv hst
    cases e with
    | tick =>
        obtain rfl := Option.some.inj hst
        exact { hinv with }
    | sample =>
        obtain rfl := Option.some.inj hst
        exact { hinv with }
    | enter i =>
        simp only [Limiter.machine, Limiter.step] at hst
        split at hst
        next now hcall =>
          obtain rfl := Option.some.inj hst
          exact hinv.decided hlimits i now
        next => cases hst

/-- **Fair denial limiter.**  The limiter is fair in exactly the runs in which no call
takes the lock with a reading older than one that took it before. -/
theorem fair_iff_inOrder (hlimits : limits.validate = some limits)
    (h : (Limiter.machine limits).Reachable w) : Fair limits w ↔ InOrder w := by
  have hinv := inv_of_reachable hlimits h
  constructor
  · intro hfair earlier v later hsplit a ha
    by_contra hlate
    obtain ⟨before, after, hbefore⟩ := List.append_of_mem ha
    have haccepted : a.capacity ≠ .clockUnavailable := by
      intro hrefused
      have hjust := hfair.just before a (after ++ v :: later) (by simp [hsplit, hbefore])
      obtain ⟨hlimited, -⟩ := hjust (by simp [hrefused])
      rw [hrefused] at hlimited
      cases hlimited
    have hstale := (hinv.explained earlier v later hsplit).1.mpr
      ⟨a, ha, haccepted, Nat.lt_of_not_le hlate⟩
    obtain ⟨hlimited, -⟩ := hfair.just earlier v later hsplit (by simp [hstale])
    rw [hstale] at hlimited
    cases hlimited
  · intro horder
    refine ⟨fun earlier v later hsplit hrefused => ?_, hinv.capped⟩
    obtain ⟨hstale, hlimited⟩ := hinv.explained earlier v later hsplit
    cases hcapacity : v.capacity with
    | granted => exact absurd hcapacity hrefused
    | rateLimited => exact ⟨rfl, hlimited hcapacity⟩
    | clockUnavailable =>
        obtain ⟨a, ha, -, hlt⟩ := hstale.mp hcapacity
        exact absurd (horder earlier v later hsplit a ha) (Nat.not_le.mpr hlt)

def sampleLimits : DenialLimits := ⟨2, 2, 10⟩

/-- Two calls read the clock, one tick apart, and take the lock the other way round. -/
def sampleOvertaking : List Event := [.sample, .tick 1, .sample, .enter 1, .enter 0]

/-- Two calls in order, and a third in the next window. -/
def sampleOrderly : List Event :=
  [.sample, .sample, .sample, .enter 0, .enter 1, .enter 2, .tick 10000000000, .sample, .enter 3]

theorem fair_iff_inOrder_run : ∃ w : Limiter,
    (Limiter.machine sampleLimits).runEvents ⟨0, {}, [], []⟩ sampleOrderly = some w ∧
    w.history.map (·.capacity) = [.granted, .granted, .rateLimited, .granted] ∧
    (Fair sampleLimits w ↔ InOrder w) := by
  have hrun : ((Limiter.machine sampleLimits).runEvents ⟨0, {}, [], []⟩ sampleOrderly).map
      (fun w => w.history.map (·.capacity)) =
      some [.granted, .granted, .rateLimited, .granted] := by decide +kernel
  obtain ⟨w, hw, hhistory⟩ := Option.map_eq_some_iff.mp hrun
  exact ⟨w, hw, hhistory, fair_iff_inOrder (by decide)
    (Machine.reachable_of_runEvents ⟨rfl, rfl, rfl⟩ hw)⟩

/-- The overtaken call is refused as if the clock had run backward, although its window
has capacity left. -/
theorem overtaken_call_refused : ∃ w : Limiter,
    (Limiter.machine sampleLimits).runEvents ⟨0, {}, [], []⟩ sampleOvertaking = some w ∧
    w.history = [⟨1, 1, some 1, .granted⟩, ⟨0, 0, some 1, .clockUnavailable⟩] ∧
    ¬ Fair sampleLimits w := by
  have hrun : ((Limiter.machine sampleLimits).runEvents ⟨0, {}, [], []⟩ sampleOvertaking).map
      (·.history) = some [⟨1, 1, some 1, .granted⟩, ⟨0, 0, some 1, .clockUnavailable⟩] := by
    decide +kernel
  obtain ⟨w, hw, hhistory⟩ := Option.map_eq_some_iff.mp hrun
  refine ⟨w, hw, hhistory, fun hfair => ?_⟩
  obtain ⟨hlimited, -⟩ := hfair.just [⟨1, 1, some 1, .granted⟩] ⟨0, 0, some 1, .clockUnavailable⟩ []
    (by simp [hhistory]) (by simp)
  cases hlimited

end Fairness

end DenialRate
end Server
end Glaux
