import Glaux.Library.Outcome

/-!
# Machine arithmetic

A computation over fixed-width integers and positions.  Leaving the range of a type and
reading outside a list are outcomes of their own, beside the errors of the program.
-/

namespace Glaux
namespace Library
namespace Machine

inductive Stop (ε : Type) where
  | overflow
  | outOfRange
  | refused (error : ε)
deriving DecidableEq

abbrev Run (ε α : Type) := Except (Stop ε) α

variable {ε α β : Type}

def refuse (error : ε) : Run ε α := .error (.refused error)

/-- A computation that does no machine arithmetic. -/
def lift (result : Except ε α) : Run ε α := result.mapError .refused

@[simp] theorem lift_ok (a : α) : lift (.ok a : Except ε α) = .ok a := rfl

@[simp] theorem lift_error (e : ε) : lift (.error e : Except ε α) = .error (.refused e) := rfl

@[simp] theorem map_ok (f : α → β) (a : α) : f <$> (.ok a : Except ε α) = .ok (f a) := rfl

@[simp] theorem map_error (f : α → β) (e : ε) :
    f <$> (.error e : Except ε α) = .error e := rfl

theorem lift_bind (x : Except ε α) (f : α → Except ε β) :
    lift (x >>= f) = lift x >>= fun a => lift (f a) := by
  cases x with
  | error e => rfl
  | ok a => rfl

theorem lift_map (f : α → β) (x : Except ε α) : lift (f <$> x) = f <$> lift x := by
  cases x with
  | error e => rfl
  | ok a => rfl

/-- The errors of a part seen as errors of the whole. -/
def mapRefused {ε' : Type} (f : ε → ε') : Run ε α → Run ε' α
  | .ok a => .ok a
  | .error .overflow => .error .overflow
  | .error .outOfRange => .error .outOfRange
  | .error (.refused e) => refuse (f e)

theorem mapRefused_lift {ε' : Type} (f : ε → ε') (x : Except ε α) :
    mapRefused f (lift x) = lift (x.mapError f) := by
  cases x with
  | error e => rfl
  | ok a => rfl

theorem mapRefused_eq_ok {ε' : Type} {f : ε → ε'} {x : Run ε α} {a : α} :
    mapRefused f x = .ok a ↔ x = .ok a := by
  cases x with
  | error stop =>
      cases stop with
      | overflow => simp [mapRefused]
      | outOfRange => simp [mapRefused]
      | refused e => simp [mapRefused, refuse]
  | ok b => simp [mapRefused]

/-- The range of an integer type. -/
structure Width where
  least : Int
  greatest : Int

namespace Width

def u8 : Width := ⟨0, 2 ^ 8 - 1⟩

def u32 : Width := ⟨0, 2 ^ 32 - 1⟩

def i32 : Width := ⟨-2 ^ 31, 2 ^ 31 - 1⟩

def i64 : Width := ⟨-2 ^ 63, 2 ^ 63 - 1⟩

def usize : Width := ⟨0, 2 ^ 64 - 1⟩

/-- The result of an operation is in the range of its type. -/
def fits (w : Width) (n : Int) : Run ε Unit :=
  if w.least ≤ n ∧ n ≤ w.greatest then .ok () else .error .overflow

theorem fits_of {w : Width} {n : Int} (least : w.least ≤ n) (greatest : n ≤ w.greatest) :
    (w.fits n : Run ε Unit) = .ok () :=
  if_pos ⟨least, greatest⟩

end Width

/-- `items[start..stop]`. -/
def slice (items : List α) (start stop : Nat) : Run ε (List α) :=
  if start ≤ stop ∧ stop ≤ items.length then .ok ((items.take stop).drop start)
  else .error .outOfRange

theorem slice_eq {items before middle after : List α} (h : items = before ++ (middle ++ after)) :
    (slice items before.length (before.length + middle.length) : Run ε (List α)) =
      .ok middle := by
  subst h
  have hlength : before.length + middle.length ≤ (before ++ (middle ++ after)).length := by
    simp only [List.length_append]
    omega
  rw [slice, if_pos ⟨Nat.le_add_right _ _, hlength⟩]
  simp [List.take_append]

/-- `items[pos]`. -/
def index (items : List α) (pos : Nat) : Run ε α :=
  match items[pos]? with
  | some item => .ok item
  | none => .error .outOfRange

end Machine
end Library
end Glaux
