import Mathlib.Data.List.Basic

/-!
# Programs over a signature of operations

A program either is done or performs one operation and goes on with its reply.
Fallible code is a program that ends in an `Except`; it is written in `ExceptT`.

A discipline says which operations a party in a local state may perform and
which local states a reply can leave it in.  `Keeps D p s Q` is the weakest
precondition of `p`: from `s`, whatever the replies, `p` performs permitted
operations only and ends in `Q`.  One rule for each way of composing programs
follows; a machine that runs the party needs only `Keeps` of what is left of it.
-/

namespace Glaux
namespace Library

/-- Operations and the type of the reply to each. -/
structure Signature where
  Op : Type
  Reply : Op → Type

inductive Program (S : Signature) (α : Type) : Type
  | done (a : α)
  | perform (op : S.Op) (next : S.Reply op → Program S α)

namespace Program

variable {S : Signature} {α β : Type}

def bind : Program S α → (α → Program S β) → Program S β
  | .done a, f => f a
  | .perform op next, f => .perform op (fun reply => (next reply).bind f)

instance : Monad (Program S) where
  pure := .done
  bind := bind

/-- One operation. -/
def run (op : S.Op) : Program S (S.Reply op) :=
  .perform op .done

end Program

/-- Fallible programs. -/
abbrev Fallible (S : Signature) (ε : Type) := ExceptT ε (Program S)

namespace Fallible

variable {S : Signature} {ε ε' α β : Type}

/-- An operation that cannot fail. -/
def perform (op : S.Op) : Fallible S ε (S.Reply op) :=
  ExceptT.lift (Program.run op)

/-- A program whose result is an outcome. -/
def ofProgram (p : Program S (Except ε α)) : Fallible S ε α :=
  ExceptT.mk p

/-- Run a fallible program and hand over its outcome. -/
def attempt (x : Fallible S ε α) : Fallible S ε' (Except ε α) :=
  ExceptT.mk (ExceptT.run x >>= fun outcome => pure (.ok outcome))

end Fallible

/-- Which operations a local state permits and where a reply can lead. -/
structure Discipline (S : Signature) (σ : Type) where
  permits : σ → S.Op → Prop
  after : (s : σ) → (op : S.Op) → S.Reply op → σ → Prop

variable {S : Signature} {σ α β ε ε' : Type}

/-- Weakest precondition of a program. -/
def Keeps (D : Discipline S σ) : Program S α → σ → (α → σ → Prop) → Prop
  | .done a, s, Q => Q a s
  | .perform op next, s, Q =>
      D.permits s op ∧ ∀ reply s', D.after s op reply s' → Keeps D (next reply) s' Q

variable {D : Discipline S σ}

theorem Keeps.mono {p : Program S α} {s : σ} {Q Q' : α → σ → Prop}
    (h : Keeps D p s Q) (hQ : ∀ a s, Q a s → Q' a s) : Keeps D p s Q' := by
  induction p generalizing s with
  | done a => exact hQ a s h
  | perform op next ih =>
      obtain ⟨hpermits, hnext⟩ := h
      exact ⟨hpermits, fun reply s' hafter => ih reply (hnext reply s' hafter)⟩

theorem keeps_bind {p : Program S α} {f : α → Program S β} {s : σ}
    {Q : β → σ → Prop} :
    Keeps D (p >>= f) s Q ↔ Keeps D p s (fun a s' => Keeps D (f a) s' Q) := by
  induction p generalizing s with
  | done a => exact Iff.rfl
  | perform op next ih =>
      refine and_congr Iff.rfl (forall_congr' fun reply => ?_)
      exact forall_congr' fun s' => imp_congr Iff.rfl (ih reply)

theorem keeps_pure {a : α} {s : σ} {Q : α → σ → Prop} :
    Keeps D (pure a : Program S α) s Q ↔ Q a s := Iff.rfl

theorem keeps_run {op : S.Op} {s : σ} {Q : S.Reply op → σ → Prop} :
    Keeps D (Program.run op) s Q ↔
      D.permits s op ∧ ∀ reply s', D.after s op reply s' → Q reply s' := Iff.rfl

/-- Weakest precondition of a fallible program, with one postcondition for each
way of ending. -/
def KeepsE (D : Discipline S σ) (x : Fallible S ε α) (s : σ)
    (Q : α → σ → Prop) (E : ε → σ → Prop) : Prop :=
  Keeps D (ExceptT.run x) s (fun outcome s' =>
    match outcome with
    | .ok a => Q a s'
    | .error e => E e s')

theorem KeepsE.mono {x : Fallible S ε α} {s : σ} {Q Q' : α → σ → Prop}
    {E E' : ε → σ → Prop} (h : KeepsE D x s Q E)
    (hQ : ∀ a s, Q a s → Q' a s) (hE : ∀ e s, E e s → E' e s) : KeepsE D x s Q' E' :=
  Keeps.mono h fun outcome s' h' =>
    match outcome, h' with
    | .ok a, h' => hQ a s' h'
    | .error e, h' => hE e s' h'

theorem keepsE_pure {a : α} {s : σ} {Q : α → σ → Prop} {E : ε → σ → Prop} :
    KeepsE D (pure a : Fallible S ε α) s Q E ↔ Q a s := Iff.rfl

theorem keepsE_throw {e : ε} {s : σ} {Q : α → σ → Prop} {E : ε → σ → Prop} :
    KeepsE D (throw e : Fallible S ε α) s Q E ↔ E e s := Iff.rfl

theorem keepsE_bind {x : Fallible S ε α} {f : α → Fallible S ε β} {s : σ}
    {Q : β → σ → Prop} {E : ε → σ → Prop} :
    KeepsE D (x >>= f) s Q E ↔ KeepsE D x s (fun a s' => KeepsE D (f a) s' Q E) E := by
  unfold KeepsE
  rw [ExceptT.run_bind, keeps_bind]
  constructor <;> intro h <;> refine Keeps.mono h ?_ <;> intro outcome s' h'
  · cases outcome with
    | ok a => exact h'
    | error e => exact h'
  · cases outcome with
    | ok a => exact h'
    | error e => exact h'

theorem keepsE_perform {op : S.Op} {s : σ} {Q : S.Reply op → σ → Prop} {E : ε → σ → Prop} :
    KeepsE D (Fallible.perform op : Fallible S ε (S.Reply op)) s Q E ↔
      D.permits s op ∧ ∀ reply s', D.after s op reply s' → Q reply s' := Iff.rfl

theorem keepsE_ofProgram {p : Program S (Except ε α)} {s : σ}
    {Q : α → σ → Prop} {E : ε → σ → Prop} :
    KeepsE D (Fallible.ofProgram p) s Q E ↔
      Keeps D p s (fun outcome s' =>
        match outcome with
        | .ok a => Q a s'
        | .error e => E e s') := Iff.rfl

theorem keepsE_lift {p : Program S α} {s : σ} {Q : α → σ → Prop} {E : ε → σ → Prop} :
    KeepsE D (liftM p : Fallible S ε α) s Q E ↔ Keeps D p s Q :=
  keeps_bind

theorem keepsE_attempt {x : Fallible S ε α} {s : σ} {Q : Except ε α → σ → Prop}
    {E : ε' → σ → Prop} :
    KeepsE D (Fallible.attempt x : Fallible S ε' (Except ε α)) s Q E ↔
      KeepsE D x s (fun a => Q (.ok a)) (fun e => Q (.error e)) := by
  unfold KeepsE Fallible.attempt
  rw [ExceptT.run_mk, keeps_bind]
  constructor <;> intro h <;> refine Keeps.mono h ?_ <;> intro outcome s' h'
  · cases outcome with
    | ok a => exact h'
    | error e => exact h'
  · cases outcome with
    | ok a => exact h'
    | error e => exact h'

/-- **Loop rule.**  `I done s` holds before the rest of the list is done. -/
theorem keepsE_forM {f : α → Fallible S ε PUnit} {I : List α → σ → Prop}
    {E : ε → σ → Prop}
    (hstep : ∀ done a s, I done s → KeepsE D (f a) s (fun _ => I (done ++ [a])) E) :
    ∀ {l done : List α} {s : σ}, I done s →
      KeepsE D (forM l f) s (fun _ => I (done ++ l)) E
  | [], done, s, hs => by
      rw [List.forM_nil, keepsE_pure]
      simpa using hs
  | a :: l, done, s, hs => by
      rw [List.forM_cons, keepsE_bind]
      refine (hstep done a s hs).mono ?_ (fun _ _ h => h)
      intro _ s' hs'
      simpa using keepsE_forM hstep (l := l) hs'

end Library
end Glaux
