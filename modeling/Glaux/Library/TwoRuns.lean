import Glaux.Library.Program

/-!
# Two runs

A program is carried out by whoever answers its operations from a state of its
own; where there is no answer the run does not end.  `Agrees` is the relational
weakest precondition of two programs: both runs end, in results and states that
are related, or neither does.  Its rules follow those of `Keeps`.  A relation
between states that every operation preserves makes any program agree with itself.
-/

namespace Glaux
namespace Library

variable {S : Signature} {σ σ' α α' β β' ε ε' : Type}

/-- Whoever answers operations. -/
abbrev Answering (S : Signature) (σ : Type) : Type := (op : S.Op) → σ → Option (S.Reply op × σ)

def carryOut (answer : Answering S σ) : Program S α → σ → Option (α × σ)
  | .done a, s => some (a, s)
  | .perform op next, s =>
      (answer op s).bind (fun answered => carryOut answer (next answered.1) answered.2)

theorem carryOut_bind {answer : Answering S σ} (p : Program S α) (f : α → Program S β) (s : σ) :
    carryOut answer (p >>= f) s =
      (carryOut answer p s).bind (fun ending => carryOut answer (f ending.1) ending.2) := by
  induction p generalizing s with
  | done a => rfl
  | perform op next ih =>
      change (answer op s).bind (fun answered =>
        carryOut answer (next answered.1 >>= f) answered.2) =
        ((answer op s).bind fun answered => carryOut answer (next answered.1) answered.2).bind _
      rw [Option.bind_assoc]
      exact Option.bind_congr fun answered _ => ih answered.1 answered.2

theorem carryOut_bind_ok {answer : Answering S σ} {x : Fallible S ε α} {f : α → Fallible S ε β}
    {s t : σ} {a : α} (h : carryOut answer (ExceptT.run x) s = some (.ok a, t)) :
    carryOut answer (ExceptT.run (x >>= f)) s = carryOut answer (ExceptT.run (f a)) t := by
  rw [ExceptT.run_bind, carryOut_bind, h]
  rfl

theorem carryOut_attempt {answer : Answering S σ} {x : Fallible S ε α} {s t : σ}
    {outcome : Except ε α} (h : carryOut answer (ExceptT.run x) s = some (outcome, t)) :
    carryOut answer (ExceptT.run (Fallible.attempt x : Fallible S ε' (Except ε α))) s =
      some (.ok outcome, t) := by
  rw [Fallible.attempt, ExceptT.run_mk, carryOut_bind, h]
  rfl

theorem rel_bind {R : α → α' → Prop} {R' : β → β' → Prop} {x : Option α} {x' : Option α'}
    {f : α → Option β} {f' : α' → Option β'} (h : Option.Rel R x x')
    (hf : ∀ a a', R a a' → Option.Rel R' (f a) (f' a')) :
    Option.Rel R' (x.bind f) (x'.bind f') := by
  cases h with
  | none => exact .none
  | some h => exact hf _ _ h

theorem rel_mono {R R' : α → α' → Prop} {x : Option α} {x' : Option α'} (h : Option.Rel R x x')
    (hR : ∀ a a', R a a' → R' a a') : Option.Rel R' x x' := by
  cases h with
  | none => exact .none
  | some h => exact .some (hR _ _ h)

theorem rel_map {R : α → α' → Prop} {R' : β → β' → Prop} {x : Option α} {x' : Option α'}
    {f : α → β} {f' : α' → β'} (h : Option.Rel R x x') (hf : ∀ a a', R a a' → R' (f a) (f' a')) :
    Option.Rel R' (x.map f) (x'.map f') := by
  cases h with
  | none => exact .none
  | some h => exact .some (hf _ _ h)

theorem rel_ite {R : α → α' → Prop} {c : Prop} [Decidable c] {x y : Option α} {x' y' : Option α'}
    (ht : Option.Rel R x x') (hf : Option.Rel R y y') :
    Option.Rel R (if c then x else y) (if c then x' else y') := by
  split
  · exact ht
  · exact hf

section Agrees

variable (answer : Answering S σ) (answer' : Answering S σ')

def Agrees (p : Program S α) (p' : Program S α') (s : σ) (s' : σ')
    (Q : α → α' → σ → σ' → Prop) : Prop :=
  Option.Rel (fun ending ending' => Q ending.1 ending'.1 ending.2 ending'.2)
    (carryOut answer p s) (carryOut answer' p' s')

/-- Two outcomes of one kind. -/
def Outcomes (Q : α → α' → σ → σ' → Prop) (E : ε → ε' → σ → σ' → Prop) :
    Except ε α → Except ε' α' → σ → σ' → Prop
  | .ok a, .ok a', s, s' => Q a a' s s'
  | .error e, .error e', s, s' => E e e' s s'
  | _, _, _, _ => False

/-- Fallible programs, with one postcondition for each way of ending. -/
def AgreesE (x : Fallible S ε α) (x' : Fallible S ε' α') (s : σ) (s' : σ')
    (Q : α → α' → σ → σ' → Prop) (E : ε → ε' → σ → σ' → Prop) : Prop :=
  Agrees answer answer' (ExceptT.run x) (ExceptT.run x') s s' (Outcomes Q E)

end Agrees

section Rules

variable {answer : Answering S σ} {answer' : Answering S σ'} {s : σ} {s' : σ'}

theorem Agrees.mono {p : Program S α} {p' : Program S α'} {Q Q' : α → α' → σ → σ' → Prop}
    (h : Agrees answer answer' p p' s s' Q) (hQ : ∀ a a' t t', Q a a' t t' → Q' a a' t t') :
    Agrees answer answer' p p' s s' Q' :=
  rel_mono h fun ending ending' => hQ ending.1 ending'.1 ending.2 ending'.2

theorem agrees_run {op op' : S.Op} {Q : S.Reply op → S.Reply op' → σ → σ' → Prop}
    (h : Option.Rel (fun answered answered' => Q answered.1 answered'.1 answered.2 answered'.2)
      (answer op s) (answer' op' s')) :
    Agrees answer answer' (Program.run op) (Program.run op') s s' Q :=
  rel_bind h fun _ _ hQ => .some hQ

theorem agrees_bind {p : Program S α} {p' : Program S α'} {f : α → Program S β}
    {f' : α' → Program S β'} {Q : β → β' → σ → σ' → Prop}
    (h : Agrees answer answer' p p' s s' fun a a' t t' =>
      Agrees answer answer' (f a) (f' a') t t' Q) :
    Agrees answer answer' (p >>= f) (p' >>= f') s s' Q := by
  unfold Agrees
  rw [carryOut_bind, carryOut_bind]
  exact rel_bind h fun _ _ hnext => hnext

theorem AgreesE.mono {x : Fallible S ε α} {x' : Fallible S ε' α'}
    {Q Q' : α → α' → σ → σ' → Prop} {E E' : ε → ε' → σ → σ' → Prop}
    (h : AgreesE answer answer' x x' s s' Q E) (hQ : ∀ a a' t t', Q a a' t t' → Q' a a' t t')
    (hE : ∀ e e' t t', E e e' t t' → E' e e' t t') :
    AgreesE answer answer' x x' s s' Q' E' :=
  Agrees.mono h fun r r' t t' houtcomes =>
    match r, r', houtcomes with
    | .ok a, .ok a', h => hQ a a' t t' h
    | .error e, .error e', h => hE e e' t t' h

theorem agreesE_pure {a : α} {a' : α'} {Q : α → α' → σ → σ' → Prop} {E : ε → ε' → σ → σ' → Prop}
    (h : Q a a' s s') :
    AgreesE answer answer' (pure a : Fallible S ε α) (pure a' : Fallible S ε' α') s s' Q E :=
  .some h

theorem agreesE_throw {e : ε} {e' : ε'} {Q : α → α' → σ → σ' → Prop}
    {E : ε → ε' → σ → σ' → Prop} (h : E e e' s s') :
    AgreesE answer answer' (throw e : Fallible S ε α) (throw e' : Fallible S ε' α') s s' Q E :=
  .some h

theorem agreesE_bind {x : Fallible S ε α} {x' : Fallible S ε' α'} {f : α → Fallible S ε β}
    {f' : α' → Fallible S ε' β'} {Q : β → β' → σ → σ' → Prop} {E : ε → ε' → σ → σ' → Prop}
    (h : AgreesE answer answer' x x' s s'
      (fun a a' t t' => AgreesE answer answer' (f a) (f' a') t t' Q E) E) :
    AgreesE answer answer' (x >>= f) (x' >>= f') s s' Q E := by
  unfold AgreesE
  rw [ExceptT.run_bind, ExceptT.run_bind]
  refine agrees_bind (Agrees.mono h ?_)
  rintro (e | a) (e' | a') t t' houtcomes
  · exact .some houtcomes
  · exact houtcomes.elim
  · exact houtcomes.elim
  · exact houtcomes

theorem agreesE_lift {p : Program S α} {p' : Program S α'} {Q : α → α' → σ → σ' → Prop}
    {E : ε → ε' → σ → σ' → Prop} (h : Agrees answer answer' p p' s s' Q) :
    AgreesE answer answer' (liftM p : Fallible S ε α) (liftM p' : Fallible S ε' α') s s' Q E :=
  agrees_bind (h.mono fun _ _ _ _ hQ => .some hQ)

theorem agreesE_attempt {ε₁ ε₁' : Type} {x : Fallible S ε α} {x' : Fallible S ε' α'}
    {Q : Except ε α → Except ε' α' → σ → σ' → Prop} {E : ε₁ → ε₁' → σ → σ' → Prop}
    (h : AgreesE answer answer' x x' s s' (fun a a' => Q (.ok a) (.ok a'))
      (fun e e' => Q (.error e) (.error e'))) :
    AgreesE answer answer' (Fallible.attempt x : Fallible S ε₁ (Except ε α))
      (Fallible.attempt x' : Fallible S ε₁' (Except ε' α')) s s' Q E := by
  refine agrees_bind (Agrees.mono h ?_)
  rintro (e | a) (e' | a') t t' houtcomes
  · exact .some houtcomes
  · exact houtcomes.elim
  · exact houtcomes.elim
  · exact .some houtcomes

/-- **Simulation rule.**  What every operation preserves, a whole program does. -/
theorem agrees_self {R : σ → σ' → Prop}
    (hstep : ∀ op s s', R s s' → Option.Rel (fun answered answered' =>
      answered.1 = answered'.1 ∧ R answered.2 answered'.2) (answer op s) (answer' op s'))
    (p : Program S α) : ∀ {s : σ} {s' : σ'}, R s s' →
      Agrees answer answer' p p s s' fun a a' t t' => a = a' ∧ R t t' := by
  induction p with
  | done a => exact fun h => .some ⟨rfl, h⟩
  | perform op next ih =>
      intro s s' h
      refine rel_bind (hstep op s s' h) ?_
      rintro ⟨reply, t⟩ ⟨reply', t'⟩ ⟨hreply, hnext⟩
      obtain rfl : reply = reply' := hreply
      exact ih reply hnext

end Rules

end Library
end Glaux
