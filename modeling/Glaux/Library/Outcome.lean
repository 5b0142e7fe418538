import Mathlib.Tactic

/-!
# Fallible loops

Inversion of a successful `Except` computation, and the two loop shapes the
code uses: a left-to-right loop that stops at the first error (`foldlM`), and
a membership view of its iterations.
-/

namespace Glaux
namespace Library

universe u

variable {ε α β : Type u}

/-- `ok_or` -/
def okOr (value : Option α) (error : ε) : Except ε α := value.elim (.error error) .ok

theorem okOr_eq_ok {value : Option α} {error : ε} {a : α} :
    okOr value error = .ok a ↔ value = some a := by
  cases value with
  | none => simp [okOr]
  | some b => simp [okOr]

theorem bind_eq_ok {x : Except ε α} {f : α → Except ε β} {b : β} :
    (x >>= f) = .ok b ↔ ∃ a, x = .ok a ∧ f a = .ok b := by
  cases x with
  | error e => simp [bind, Except.bind]
  | ok a => simp [bind, Except.bind]

theorem bind_eq_error {x : Except ε α} {f : α → Except ε β} {e : ε} :
    (x >>= f) = .error e ↔ x = .error e ∨ ∃ a, x = .ok a ∧ f a = .error e := by
  cases x with
  | error e => simp [bind, Except.bind]
  | ok a => simp [bind, Except.bind]

@[simp] theorem ok_bind (a : α) (f : α → Except ε β) :
    ((.ok a : Except ε α) >>= f) = f a := rfl

@[simp] theorem error_bind (e : ε) (f : α → Except ε β) :
    ((.error e : Except ε α) >>= f) = .error e := rfl

@[simp] theorem pure_eq_ok (a : α) : (pure a : Except ε α) = .ok a := rfl

theorem toOption_eq_some {x : Except ε α} {a : α} :
    x.toOption = some a ↔ x = .ok a := by
  cases x with
  | error e => simp [Except.toOption]
  | ok b => simp [Except.toOption]

theorem toOption_bind {x : Except ε α} {f : α → Except ε β} :
    (x >>= f).toOption = x.toOption.bind (fun a => (f a).toOption) := by
  cases x <;> rfl

theorem map_eq_ok {x : Except ε α} {f : α → β} {b : β} :
    x.map f = .ok b ↔ ∃ a, x = .ok a ∧ f a = b := by
  cases x with
  | error e => simp [Except.map]
  | ok a => simp [Except.map]

theorem map_eq_error {x : Except ε α} {f : α → β} {e : ε} :
    x.map f = .error e ↔ x = .error e := by
  cases x with
  | error e => simp [Except.map]
  | ok a => simp [Except.map]

theorem bind_map_eq {γ : Type u} {x : Except ε α} {f : α → Except ε β} {g : β → γ} :
    (x >>= fun a => (f a).map g) = (x >>= f).map g := by
  cases x <;> rfl

theorem mapError_eq_ok {ε' : Type u} {x : Except ε α} {f : ε → ε'} {a : α} :
    x.mapError f = .ok a ↔ x = .ok a := by
  cases x with
  | error e => simp [Except.mapError]
  | ok a => simp [Except.mapError]

theorem mapError_eq_error {ε' : Type u} {x : Except ε α} {f : ε → ε'} {e' : ε'} :
    x.mapError f = .error e' ↔ ∃ e, x = .error e ∧ f e = e' := by
  cases x with
  | error e => simp [Except.mapError]
  | ok a => simp [Except.mapError]

/-- One iteration and the rest of a loop. -/
theorem foldlM_cons_eq_ok {f : β → α → Except ε β} {b b' : β} {a : α}
    {l : List α} :
    (a :: l).foldlM f b = .ok b' ↔
      ∃ c, f b a = .ok c ∧ l.foldlM f c = .ok b' := by
  rw [List.foldlM_cons]
  exact bind_eq_ok

/-- **Loop rule.**  An invariant indexed by the part already done. -/
theorem foldlM_invariant {f : β → α → Except ε β} {P : List α → β → Prop} :
    ∀ {l done : List α} {b b' : β},
      (∀ done a b c, P done b → f b a = .ok c → P (done ++ [a]) c) →
      P done b → l.foldlM f b = .ok b' → P (done ++ l) b'
  | [], done, b, b', _, hb, h => by
      simp only [List.foldlM_nil, pure_eq_ok, Except.ok.injEq] at h
      simpa [h] using hb
  | a :: l, done, b, b', hstep, hb, h => by
      obtain ⟨c, hc, hrest⟩ := foldlM_cons_eq_ok.mp h
      have := foldlM_invariant hstep (hstep done a b c hb hc) hrest
      simpa using this

/-- Every item is read; the results stand in the order of the items. -/
theorem mapM_eq_ok {f : α → Except ε β} {l : List α} {l' : List β} :
    l.mapM f = .ok l' ↔ List.Forall₂ (fun a b => f a = .ok b) l l' := by
  induction l generalizing l' with
  | nil =>
      simp only [List.mapM_nil, pure_eq_ok, Except.ok.injEq, List.forall₂_nil_left_iff]
      exact eq_comm
  | cons a l ih =>
      rw [List.mapM_cons, bind_eq_ok]
      constructor
      · rintro ⟨b, hb, h⟩
        obtain ⟨bs, hbs, h⟩ := bind_eq_ok.mp h
        obtain rfl := Except.ok.inj h
        exact .cons hb (ih.mp hbs)
      · rintro (_ | ⟨hb, hbs⟩)
        exact ⟨_, hb, bind_eq_ok.mpr ⟨_, ih.mpr hbs, rfl⟩⟩

/-- Every item has its result, and every result comes from an item. -/
theorem mem_mapM {f : α → Except ε β} {l : List α} {l' : List β} (h : l.mapM f = .ok l') :
    (∀ a ∈ l, ∃ b ∈ l', f a = .ok b) ∧ ∀ b ∈ l', ∃ a ∈ l, f a = .ok b := by
  induction mapM_eq_ok.mp h with
  | nil => simp
  | @cons a b l l' hb htail ih =>
      obtain ⟨hleft, hright⟩ := ih (mapM_eq_ok.mpr htail)
      constructor
      · rintro x (_ | ⟨_, hx⟩)
        · exact ⟨b, List.mem_cons_self, hb⟩
        · obtain ⟨y, hy, hxy⟩ := hleft x hx
          exact ⟨y, List.mem_cons_of_mem _ hy, hxy⟩
      · rintro y (_ | ⟨_, hy⟩)
        · exact ⟨a, List.mem_cons_self, hb⟩
        · obtain ⟨x, hx, hxy⟩ := hright y hy
          exact ⟨x, List.mem_cons_of_mem _ hx, hxy⟩

/-- A loop whose steps all succeed succeeds, and relates items to results as its steps do. -/
theorem mapM_exists {f : α → Except ε β} {R : α → β → Prop} {l : List α}
    (h : ∀ a ∈ l, ∃ b, f a = .ok b ∧ R a b) : ∃ l', l.mapM f = .ok l' ∧ List.Forall₂ R l l' := by
  induction l with
  | nil => exact ⟨[], rfl, .nil⟩
  | cons a l ih =>
      obtain ⟨b, hb, hR⟩ := h a List.mem_cons_self
      obtain ⟨l', hl', hrest⟩ := ih fun a ha => h a (List.mem_cons_of_mem _ ha)
      exact ⟨b :: l', by rw [List.mapM_cons, hb, hl']; rfl, .cons hR hrest⟩

end Library
end Glaux
