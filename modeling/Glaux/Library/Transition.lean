import Mathlib.Data.List.Basic

/-!
# Event-driven machines and their invariants

A machine is a set of starting states and a partial step function: an event
either is impossible in a state or leads to exactly one next state.
Nondeterminism (which party moves, what the outside world answers) lives in
the choice of the event, so a concrete run is computed by evaluation and every
run is covered by quantifying over events.

Two rules are used everywhere: `Reachable.invariant` carries a property that
each step preserves to every reachable state, and `Leads.relate` carries a
relation between the two ends of a step to the two ends of a run segment.
-/

namespace Glaux
namespace Library

universe u v

/-- A machine over states `σ`, driven by events `ε`. -/
structure Machine (σ : Type u) (ε : Type v) where
  start : σ → Prop
  step : σ → ε → Option σ

namespace Machine

variable {σ : Type u} {ε : Type v}

/-- Run a list of events in order; one impossible event makes the run impossible. -/
def runEvents (M : Machine σ ε) : σ → List ε → Option σ
  | s, [] => some s
  | s, e :: rest => (M.step s e).bind (fun s' => runEvents M s' rest)

/-- `s'` ends a run segment that begins in `s`. -/
inductive Leads (M : Machine σ ε) : σ → σ → Prop
  | refl (s : σ) : Leads M s s
  | step {s s' s'' : σ} {e : ε} :
      Leads M s s' → M.step s' e = some s'' → Leads M s s''

/-- States at the end of a run segment that begins in a starting state. -/
def Reachable (M : Machine σ ε) (s : σ) : Prop :=
  ∃ s₀, M.start s₀ ∧ M.Leads s₀ s

variable {M : Machine σ ε}

theorem Leads.trans {s s' s'' : σ}
    (h : M.Leads s s') (h' : M.Leads s' s'') : M.Leads s s'' := by
  induction h' with
  | refl => exact h
  | step _ hst ih => exact Leads.step ih hst

theorem Leads.single {s s' : σ} {e : ε}
    (h : M.step s e = some s') : M.Leads s s' :=
  Leads.step (Leads.refl s) h

theorem Reachable.of_start {s : σ} (h : M.start s) : M.Reachable s :=
  ⟨s, h, Leads.refl s⟩

theorem Reachable.leads {s s' : σ}
    (hs : M.Reachable s) (h : M.Leads s s') : M.Reachable s' := by
  obtain ⟨s₀, h₀, hrun⟩ := hs
  exact ⟨s₀, h₀, hrun.trans h⟩

theorem Reachable.step {s s' : σ} {e : ε}
    (hs : M.Reachable s) (h : M.step s e = some s') : M.Reachable s' :=
  hs.leads (Leads.single h)

/-- A property that every step preserves is carried along a run segment. -/
theorem Leads.invariant {P : σ → Prop}
    (hstep : ∀ s e s', P s → M.step s e = some s' → P s')
    {s s' : σ} (h : M.Leads s s') (hs : P s) : P s' := by
  induction h with
  | refl => exact hs
  | step _ hst ih => exact hstep _ _ _ ih hst

/-- **Invariant rule.** -/
theorem Reachable.invariant {P : σ → Prop}
    (hstart : ∀ s, M.start s → P s)
    (hstep : ∀ s e s', P s → M.step s e = some s' → P s')
    {s : σ} (hs : M.Reachable s) : P s := by
  obtain ⟨s₀, h₀, hrun⟩ := hs
  exact hrun.invariant hstep (hstart s₀ h₀)

/-- A reflexive and transitive relation between the ends of each step out of a
reachable state relates the ends of every run segment. -/
theorem Leads.relate {R : σ → σ → Prop}
    (hrefl : ∀ s, R s s)
    (htrans : ∀ s s' s'', R s s' → R s' s'' → R s s'')
    (hstep : ∀ s e s', M.Reachable s → M.step s e = some s' → R s s')
    {s s' : σ} (hs : M.Reachable s) (h : M.Leads s s') : R s s' := by
  induction h with
  | refl => exact hrefl _
  | step hrun hst ih =>
      exact htrans _ _ _ ih (hstep _ _ _ (hs.leads hrun) hst)

theorem leads_of_runEvents :
    ∀ {events : List ε} {s s' : σ},
      M.runEvents s events = some s' → M.Leads s s'
  | [], s, s', hrun => by
      obtain rfl : s = s' := by simpa [runEvents] using hrun
      exact Leads.refl s
  | e :: rest, s, s', hrun => by
      obtain ⟨s₁, h₁, h₂⟩ := Option.bind_eq_some_iff.mp hrun
      exact (Leads.single h₁).trans (leads_of_runEvents h₂)

/-- An evaluated run from a starting state ends in a reachable state. -/
theorem reachable_of_runEvents {events : List ε} {s s' : σ}
    (hs : M.start s) (hrun : M.runEvents s events = some s') : M.Reachable s' :=
  ⟨s, hs, leads_of_runEvents hrun⟩

end Machine

end Library
end Glaux
