import Glaux.Domain.NumberToken
import Glaux.Standards.Geometry
import Glaux.Standards.Validation.Parse

/-!
# What a geometry value describes

The written value is a relation between a raw value and nested positions; the dimension is
a condition on all positions, in no order.  Handing the dimension from position to position
decides exactly that condition.
-/

namespace Glaux
namespace Standards
namespace Geometry

open Library Domain ExactNumber Validation

section Written

/-- The number that a value writes. -/
def NumberOf (raw : Json) (number : ExactNumber) : Prop :=
  ∃ lexeme parts, raw = .number lexeme ∧ Json.NumberToken lexeme.toList parts ∧
    number = ⟨parts.value, .decimal lexeme⟩

variable {α : Type}

/-- An array of what `R` describes, in order. -/
def ListOf (R : Json → α → Prop) (raw : Json) (values : List α) : Prop :=
  ∃ items, raw = .array items ∧ List.Forall₂ R items values

def PositionOf (raw : Json) (position : Position) : Prop :=
  ListOf NumberOf raw position.ordinates

def ValueOf (raw : Json) : GeometryValue → Prop
  | .point position => PositionOf raw position
  | .multiPoint positions => ListOf PositionOf raw positions
  | .lineString positions => ListOf PositionOf raw positions
  | .multiLineString lines => ListOf (ListOf PositionOf) raw lines
  | .polygon rings => ListOf (ListOf PositionOf) raw rings
  | .multiPolygon polygons => ListOf (ListOf (ListOf PositionOf)) raw polygons

theorem numberOf_unique (raw : Json) (a b : ExactNumber) (ha : NumberOf raw a)
    (hb : NumberOf raw b) : a = b := by
  obtain ⟨lexeme, parts, rfl, htoken, rfl⟩ := ha
  obtain ⟨_, parts', hraw, htoken', rfl⟩ := hb
  obtain rfl := Json.number.inj hraw
  rw [token_unique htoken htoken']

theorem listOf_unique {R : Json → α → Prop} (hR : ∀ raw a b, R raw a → R raw b → a = b)
    (raw : Json) (as bs : List α) (ha : ListOf R raw as) (hb : ListOf R raw bs) : as = bs := by
  obtain ⟨items, rfl, has⟩ := ha
  obtain ⟨_, hraw, hbs⟩ := hb
  obtain rfl := Json.array.inj hraw
  clear hraw
  induction has generalizing bs with
  | nil => exact (List.forall₂_nil_left_iff.mp hbs).symm
  | cons h _ ih =>
      obtain ⟨b, bs', hb, htail, rfl⟩ := List.forall₂_cons_left_iff.mp hbs
      rw [hR _ _ _ h hb, ih bs' htail]

theorem positionOf_unique (raw : Json) (a b : Position) (ha : PositionOf raw a)
    (hb : PositionOf raw b) : a = b := by
  obtain ⟨ordinates⟩ := a
  obtain ⟨ordinates'⟩ := b
  rw [listOf_unique numberOf_unique raw ordinates ordinates' ha hb]

theorem valueOf_unique {raw : Json} {a b : GeometryValue} (hkind : a.kind = b.kind)
    (ha : ValueOf raw a) (hb : ValueOf raw b) : a = b := by
  have hpositions := listOf_unique positionOf_unique
  have hlines := listOf_unique hpositions
  cases a with
  | point a =>
      cases b with
      | point b => rw [positionOf_unique raw a b ha hb]
      | _ => exact absurd hkind nofun
  | multiPoint a =>
      cases b with
      | multiPoint b => rw [hpositions raw a b ha hb]
      | _ => exact absurd hkind nofun
  | lineString a =>
      cases b with
      | lineString b => rw [hpositions raw a b ha hb]
      | _ => exact absurd hkind nofun
  | multiLineString a =>
      cases b with
      | multiLineString b => rw [hlines raw a b ha hb]
      | _ => exact absurd hkind nofun
  | polygon a =>
      cases b with
      | polygon b => rw [hlines raw a b ha hb]
      | _ => exact absurd hkind nofun
  | multiPolygon a =>
      cases b with
      | multiPolygon b => rw [listOf_unique hlines raw a b ha hb]
      | _ => exact absurd hkind nofun

end Written

section Dimension

/-- The positions have 2 or 3 ordinates each, all of them as many, and as many as fixed
before. -/
structure Common (dimension : Option ℕ) (positions : List Position) : Prop where
  two_or_three : ∀ p ∈ positions, p.ordinates.length = 2 ∨ p.ordinates.length = 3
  fixed : ∀ n ∈ dimension, ∀ p ∈ positions, p.ordinates.length = n
  agree : ∀ p ∈ positions, ∀ q ∈ positions, p.ordinates.length = q.ordinates.length

/-- The dimension that is fixed by now. -/
def FixedBy (dimension : Option ℕ) (positions : List Position) (after : Option ℕ) : Prop :=
  ∀ n, n ∈ after ↔ n ∈ dimension ∨ ∃ p ∈ positions, p.ordinates.length = n

/-- Positions of one dimension hand it on. -/
def Threads (dimension : Option ℕ) (positions : List Position) (after : Option ℕ) : Prop :=
  Common dimension positions ∧ FixedBy dimension positions after

theorem Common.exists_fixedBy {dimension : Option ℕ} {positions : List Position}
    (h : Common dimension positions) : ∃ after, FixedBy dimension positions after := by
  cases positions with
  | nil => exact ⟨dimension, fun n => by simp⟩
  | cons p positions =>
      refine ⟨some p.ordinates.length, fun n => ?_⟩
      rw [Option.mem_some_iff]
      constructor
      · exact fun hn => .inr ⟨p, List.mem_cons_self, hn⟩
      · rintro (hn | ⟨q, hq, hn⟩)
        · exact h.fixed n hn p List.mem_cons_self
        · rw [h.agree p List.mem_cons_self q hq, hn]

theorem FixedBy.unique {dimension after after' : Option ℕ} {positions : List Position}
    (h : FixedBy dimension positions after) (h' : FixedBy dimension positions after') :
    after = after' := by
  refine Option.ext fun n => ?_
  exact (h n).trans (h' n).symm

theorem threads_nil {dimension after : Option ℕ} :
    Threads dimension [] after ↔ after = dimension := by
  constructor
  · rintro ⟨-, h⟩
    exact Option.ext fun n => (h n).trans (by simp)
  · rintro rfl
    exact ⟨⟨nofun, nofun, nofun⟩, fun n => by simp⟩

/-- One stretch of positions after the other. -/
theorem threads_append {dimension after : Option ℕ} {ps qs : List Position} :
    Threads dimension (ps ++ qs) after ↔
      ∃ between, Threads dimension ps between ∧ Threads between qs after := by
  constructor
  · rintro ⟨hcommon, hfixed⟩
    have hps : Common dimension ps :=
      ⟨fun p hp => hcommon.two_or_three p (List.mem_append_left qs hp),
        fun n hn p hp => hcommon.fixed n hn p (List.mem_append_left qs hp),
        fun p hp q hq => hcommon.agree p (List.mem_append_left qs hp) q
          (List.mem_append_left qs hq)⟩
    obtain ⟨between, hbetween⟩ := hps.exists_fixedBy
    refine ⟨between, ⟨hps, hbetween⟩, ⟨fun p hp =>
      hcommon.two_or_three p (List.mem_append_right ps hp), fun n hn q hq => ?_, fun p hp q hq =>
      hcommon.agree p (List.mem_append_right ps hp) q (List.mem_append_right ps hq)⟩,
      fun n => ?_⟩
    · obtain hn | ⟨p, hp, rfl⟩ := (hbetween n).mp hn
      · exact hcommon.fixed n hn q (List.mem_append_right ps hq)
      · exact hcommon.agree q (List.mem_append_right ps hq) p (List.mem_append_left qs hp)
    · rw [hfixed n, hbetween n]
      simp only [List.mem_append, or_and_right, exists_or, or_assoc]
  · rintro ⟨between, ⟨hps, hbetween⟩, hqs, hafter⟩
    have hboth : ∀ p ∈ ps, ∀ q ∈ qs, q.ordinates.length = p.ordinates.length :=
      fun p hp q hq => hqs.fixed _ ((hbetween _).mpr (.inr ⟨p, hp, rfl⟩)) q hq
    refine ⟨⟨fun p hp => ?_, fun n hn p hp => ?_, fun p hp q hq => ?_⟩, fun n => ?_⟩
    · exact (List.mem_append.mp hp).elim (hps.two_or_three p) (hqs.two_or_three p)
    · exact (List.mem_append.mp hp).elim (hps.fixed n hn p)
        (hqs.fixed n ((hbetween n).mpr (.inl hn)) p)
    · obtain hp | hp := List.mem_append.mp hp <;> obtain hq | hq := List.mem_append.mp hq
      · exact hps.agree p hp q hq
      · exact (hboth p hp q hq).symm
      · exact hboth q hq p hp
      · exact hqs.agree p hp q hq
    · rw [hafter n, hbetween n]
      simp only [List.mem_append, or_and_right, exists_or, or_assoc]

theorem threads_singleton {dimension after : Option ℕ} {p : Position} :
    Threads dimension [p] after ↔
      (p.ordinates.length = 2 ∨ p.ordinates.length = 3) ∧
        (∀ n ∈ dimension, p.ordinates.length = n) ∧ after = some p.ordinates.length := by
  constructor
  · rintro ⟨hcommon, hfixed⟩
    refine ⟨hcommon.two_or_three p (List.mem_singleton_self p),
      fun n hn => hcommon.fixed n hn p (List.mem_singleton_self p), ?_⟩
    exact (hfixed p.ordinates.length).mpr (.inr ⟨p, List.mem_singleton_self p, rfl⟩)
  · rintro ⟨hsize, hfixed, rfl⟩
    refine ⟨⟨by simpa using hsize, by simpa using hfixed, by simp⟩, fun n => ?_⟩
    rw [Option.mem_some_iff]
    constructor
    · exact fun hn => .inr ⟨p, List.mem_singleton_self p, hn⟩
    · rintro (hn | ⟨q, hq, hn⟩)
      · exact hfixed n hn
      · rw [List.mem_singleton.mp hq] at hn
        exact hn

end Dimension

section Readers

variable {α β : Type}

/-- What a reader accepts: the written value, good in itself, with positions of one
dimension. -/
def Exactly (read : Reader α) (R : Json → α → Prop) (good : α → Prop)
    (places : α → List Position) : Prop :=
  ∀ raw dimension value after, Checked raw →
    (read raw dimension = .ok (value, after) ↔
      R raw value ∧ good value ∧ Threads dimension (places value) after)

theorem array_eq_ok {raw : Json} {items : List Json} :
    array raw = .ok items ↔ raw = .array items := by
  cases raw <;> simp [array]

theorem number_eq_ok {raw : Json} (hchecked : Checked raw) (number' : ExactNumber) :
    number raw = .ok number' ↔ NumberOf raw number' := by
  cases raw with
  | number lexeme =>
      rw [number, mapError_eq_ok, parseJsonNumber_eq_ok]
      constructor
      · rintro ⟨-, parts, htoken, -, rfl⟩
        exact ⟨lexeme, parts, rfl, htoken, rfl⟩
      · rintro ⟨_, parts, hraw, htoken, rfl⟩
        obtain rfl := Json.number.inj hraw
        -- the walk of `parse` has read this lexeme
        obtain ⟨number, hnumber⟩ := hchecked.exact _ .self
        obtain ⟨hsize, parts', htoken', hle, -⟩ := parseJsonNumber_eq_ok.mp hnumber
        obtain rfl := token_unique htoken htoken'
        exact ⟨hsize, parts, htoken, hle, rfl⟩
  | _ =>
      refine iff_of_false (by intro h; cases h) ?_
      rintro ⟨_, _, h, _⟩
      cases h

/-- Two relations that agree on the items of a list. -/
theorem forall₂_congr_mem {R S : α → β → Prop} {items : List α} {values : List β}
    (h : ∀ item ∈ items, ∀ value, R item value ↔ S item value) :
    List.Forall₂ R items values ↔ List.Forall₂ S items values := by
  induction items generalizing values with
  | nil => rw [List.forall₂_nil_left_iff, List.forall₂_nil_left_iff]
  | cons item items ih =>
      obtain ⟨hitem, hitems⟩ := List.forall_mem_cons.mp h
      cases values with
      | nil => exact iff_of_false nofun nofun
      | cons value values =>
          rw [List.forall₂_cons, List.forall₂_cons, hitem value, ih hitems]

theorem numbers_eq_ok {raw : Json} (hchecked : Checked raw) (values : List ExactNumber) :
    numbers raw = .ok values ↔ ListOf NumberOf raw values := by
  rw [numbers, bind_eq_ok]
  refine exists_congr fun items => ?_
  rw [array_eq_ok, mapM_eq_ok]
  refine and_congr_right fun hraw => ?_
  subst hraw
  exact forall₂_congr_mem fun item hitem value =>
    number_eq_ok ((checked_array.mp hchecked).2 item hitem) value

theorem position_exact : Exactly position PositionOf (fun _ => True) (fun p => [p]) := by
  intro raw dimension value after hchecked
  rw [position, bind_eq_ok, threads_singleton, true_and]
  constructor
  · rintro ⟨ordinates, hread, h⟩
    rw [numbers_eq_ok hchecked] at hread
    split at h
    · exact absurd h nofun
    · rename_i htest
      obtain ⟨rfl, rfl⟩ := Prod.mk.inj (Except.ok.inj h)
      refine ⟨hread, by dsimp only; omega, fun n hn => ?_, rfl⟩
      rw [Option.mem_def.mp hn] at htest
      simp only [Option.any_some, decide_eq_true_eq, not_or, not_not] at htest
      exact htest.2.symm
  · rintro ⟨hread, hsize, hfixed, rfl⟩
    refine ⟨value.ordinates, (numbers_eq_ok hchecked _).mpr hread, ?_⟩
    refine if_neg ?_
    rintro (hbad | hbad)
    · omega
    · obtain ⟨n, hn, hne⟩ := (Option.any_eq_true _ _).mp hbad
      exact (of_decide_eq_true hne) (hfixed n hn).symm

variable {read : Reader α} {R : Json → α → Prop} {good : α → Prop} {places : α → List Position}

theorem collect_exact (h : Exactly read R good places) {items : List Json}
    (hitems : ∀ item ∈ items, Checked item) (dimension : Option ℕ) (values : List α)
    (after : Option ℕ) :
    collect read items dimension = .ok (values, after) ↔
      List.Forall₂ R items values ∧ (∀ value ∈ values, good value) ∧
        Threads dimension (values.flatMap places) after := by
  induction items generalizing dimension values with
  | nil =>
      rw [collect, List.forall₂_nil_left_iff]
      constructor
      · intro hread
        obtain ⟨rfl, rfl⟩ := Prod.mk.inj (Except.ok.inj hread)
        exact ⟨rfl, nofun, threads_nil.mpr rfl⟩
      · rintro ⟨rfl, -, hthreads⟩
        rw [threads_nil.mp hthreads]
  | cons item items ih =>
      obtain ⟨hitem, hitems⟩ := List.forall_mem_cons.mp hitems
      rw [collect, bind_eq_ok]
      constructor
      · rintro ⟨⟨first, between⟩, hfirst, hrest⟩
        dsimp only at hrest
        obtain ⟨⟨rest, after'⟩, htail, heq⟩ := bind_eq_ok.mp hrest
        obtain ⟨rfl, rfl⟩ := Prod.mk.inj (Except.ok.inj heq)
        obtain ⟨hR, hgood, hthreads⟩ := (h _ _ _ _ hitem).mp hfirst
        obtain ⟨hRs, hgoods, hthreads'⟩ := (ih hitems _ _).mp htail
        refine ⟨.cons hR hRs, List.forall_mem_cons.mpr ⟨hgood, hgoods⟩, ?_⟩
        rw [List.flatMap_cons]
        exact threads_append.mpr ⟨between, hthreads, hthreads'⟩
      · rintro ⟨hRs, hgoods, hthreads⟩
        obtain ⟨first, rest, hR, htail, rfl⟩ := List.forall₂_cons_left_iff.mp hRs
        obtain ⟨hgood, hgoods⟩ := List.forall_mem_cons.mp hgoods
        rw [List.flatMap_cons] at hthreads
        obtain ⟨between, hfirst, hrest⟩ := threads_append.mp hthreads
        exact ⟨(first, between), (h _ _ _ _ hitem).mpr ⟨hR, hgood, hfirst⟩,
          bind_eq_ok.mpr ⟨(rest, after), (ih hitems _ _).mpr ⟨htail, hgoods, hrest⟩, rfl⟩⟩

/-- A reader of items gives a reader of arrays. -/
theorem rows_exact (h : Exactly read R good places) :
    Exactly (rows read) (ListOf R) (fun values => ∀ value ∈ values, good value)
      (fun values => values.flatMap places) := by
  intro raw dimension values after hchecked
  rw [rows, bind_eq_ok]
  constructor
  · rintro ⟨items, harray, hread⟩
    obtain rfl := array_eq_ok.mp harray
    obtain ⟨hRs, hgood⟩ := (collect_exact h (checked_array.mp hchecked).2 _ _ _).mp hread
    exact ⟨⟨items, rfl, hRs⟩, hgood⟩
  · rintro ⟨⟨items, rfl, hRs⟩, hgood⟩
    exact ⟨items, rfl, (collect_exact h (checked_array.mp hchecked).2 _ _ _).mpr ⟨hRs, hgood⟩⟩

theorem checked_exact (h : Exactly read R good places) (test : α → Bool) (error : GeometryError) :
    Exactly (checked read test error) R (fun value => good value ∧ test value = true)
      places := by
  intro raw dimension value after hchecked
  rw [checked, bind_eq_ok]
  constructor
  · rintro ⟨⟨value', after'⟩, hread, htest⟩
    dsimp only at htest
    split at htest
    · rename_i hpass
      obtain ⟨rfl, rfl⟩ := Prod.mk.inj (Except.ok.inj htest)
      obtain ⟨hR, hgood, hthreads⟩ := (h _ _ _ _ hchecked).mp hread
      exact ⟨hR, ⟨hgood, hpass⟩, hthreads⟩
    · exact absurd htest nofun
  · rintro ⟨hR, ⟨hgood, hpass⟩, hthreads⟩
    exact ⟨(value, after), (h _ _ _ _ hchecked).mpr ⟨hR, hgood, hthreads⟩, if_pos hpass⟩

theorem built_eq_ok (h : Exactly read R good places) (build : α → GeometryValue) {raw : Json}
    (hchecked : Checked raw) (dimension after : Option ℕ) (value : GeometryValue) :
    built read build raw dimension = .ok (value, after) ↔
      ∃ a, value = build a ∧ R raw a ∧ good a ∧ Threads dimension (places a) after := by
  rw [built, bind_eq_ok]
  constructor
  · rintro ⟨⟨a, after'⟩, hread, heq⟩
    obtain ⟨rfl, rfl⟩ := Prod.mk.inj (Except.ok.inj heq)
    exact ⟨a, rfl, (h _ _ _ _ hchecked).mp hread⟩
  · rintro ⟨a, rfl, ha⟩
    exact ⟨(a, after), (h _ _ _ _ hchecked).mpr ha, rfl⟩

end Readers

section Kinds

/-- The first and the last position have the same numbers. -/
def Closes (ring : List Position) : Prop :=
  ring.head?.map (fun p => p.ordinates.map (·.value)) =
    ring.getLast?.map fun p => p.ordinates.map (·.value)

/-- Lines have two positions, rings have four and close. -/
structure Formed (value : GeometryValue) : Prop where
  lines : ∀ line ∈ value.lines, 2 ≤ line.length
  rings : ∀ ring ∈ value.rings, 4 ≤ ring.length ∧ Closes ring

theorem closed_iff {ring : List Position} : closed ring = true ↔ Closes ring := by
  unfold closed Closes
  cases hhead : ring.head? <;> cases hlast : ring.getLast? <;> simp [Position.eq_iff]

theorem positions_exact : Exactly positions (ListOf PositionOf) (fun _ => True) id := by
  intro raw dimension value after hchecked
  have := rows_exact position_exact raw dimension value after hchecked
  simpa [positions] using this

theorem line_exact :
    Exactly line (ListOf PositionOf) (fun line => 2 ≤ line.length) id := by
  intro raw dimension value after hchecked
  have := checked_exact positions_exact (fun positions => 2 ≤ positions.length) .coordinates
    raw dimension value after hchecked
  simpa [line] using this

theorem ring_exact :
    Exactly ring (ListOf PositionOf) (fun ring => 4 ≤ ring.length ∧ Closes ring) id := by
  intro raw dimension value after hchecked
  have := checked_exact positions_exact
    (fun positions => 4 ≤ positions.length && closed positions) .ring raw dimension value after
    hchecked
  simpa [ring, closed_iff] using this

theorem polygon_exact :
    Exactly polygon (ListOf (ListOf PositionOf))
      (fun rings => ∀ ring ∈ rings, 4 ≤ ring.length ∧ Closes ring) List.flatten := by
  intro raw dimension value after hchecked
  have := rows_exact ring_exact raw dimension value after hchecked
  simpa [polygon] using this

/-- **Coordinates.**  The coordinates of a kind are read exactly when they write a formed
value of that kind with positions of one dimension. -/
theorem coordinatesOf_eq_ok (kind : GeometryKind) {raw : Json} (hchecked : Checked raw)
    (dimension after : Option ℕ) (value : GeometryValue) :
    coordinatesOf kind raw dimension = .ok (value, after) ↔
      value.kind = kind ∧ ValueOf raw value ∧ Formed value ∧
        Threads dimension value.positions after := by
  have hnone : ∀ value : GeometryValue, value.lines = [] → value.rings = [] → Formed value :=
    fun value hlines hrings => ⟨by simp [hlines], by simp [hrings]⟩
  cases kind with
  | point =>
      rw [coordinatesOf, built_eq_ok position_exact _ hchecked]
      constructor
      · rintro ⟨p, rfl, hR, -, hthreads⟩
        exact ⟨rfl, hR, hnone _ rfl rfl, hthreads⟩
      · rintro ⟨hkind, hR, -, hthreads⟩
        cases value with
        | point p => exact ⟨p, rfl, hR, trivial, hthreads⟩
        | _ => exact absurd hkind nofun
  | multiPoint =>
      rw [coordinatesOf, built_eq_ok positions_exact _ hchecked]
      constructor
      · rintro ⟨ps, rfl, hR, -, hthreads⟩
        exact ⟨rfl, hR, hnone _ rfl rfl, hthreads⟩
      · rintro ⟨hkind, hR, -, hthreads⟩
        cases value with
        | multiPoint ps => exact ⟨ps, rfl, hR, trivial, hthreads⟩
        | _ => exact absurd hkind nofun
  | lineString =>
      rw [coordinatesOf, built_eq_ok line_exact _ hchecked]
      constructor
      · rintro ⟨ps, rfl, hR, hline, hthreads⟩
        exact ⟨rfl, hR, ⟨List.forall_mem_singleton.mpr hline, nofun⟩, hthreads⟩
      · rintro ⟨hkind, hR, hformed, hthreads⟩
        cases value with
        | lineString ps =>
            exact ⟨ps, rfl, hR, hformed.lines ps (List.mem_singleton_self ps), hthreads⟩
        | _ => exact absurd hkind nofun
  | multiLineString =>
      rw [coordinatesOf, built_eq_ok (rows_exact line_exact) _ hchecked]
      simp only [List.flatMap_id]
      constructor
      · rintro ⟨lines, rfl, hR, hlines, hthreads⟩
        exact ⟨rfl, hR, ⟨hlines, nofun⟩, hthreads⟩
      · rintro ⟨hkind, hR, hformed, hthreads⟩
        cases value with
        | multiLineString lines => exact ⟨lines, rfl, hR, hformed.lines, hthreads⟩
        | _ => exact absurd hkind nofun
  | polygon =>
      rw [coordinatesOf, built_eq_ok polygon_exact _ hchecked]
      constructor
      · rintro ⟨rings, rfl, hR, hrings, hthreads⟩
        exact ⟨rfl, hR, ⟨nofun, hrings⟩, hthreads⟩
      · rintro ⟨hkind, hR, hformed, hthreads⟩
        cases value with
        | polygon rings => exact ⟨rings, rfl, hR, hformed.rings, hthreads⟩
        | _ => exact absurd hkind nofun
  | multiPolygon =>
      rw [coordinatesOf, built_eq_ok (rows_exact polygon_exact) _ hchecked]
      have hplaces : ∀ polygons : List (List (List Position)),
          polygons.flatMap List.flatten = polygons.flatten.flatten := fun polygons => by
        rw [List.flatMap_def, List.flatten_flatten]
      constructor
      · rintro ⟨polygons, rfl, hR, hrings, hthreads⟩
        rw [hplaces] at hthreads
        refine ⟨rfl, hR, ⟨nofun, fun ring hring => ?_⟩, hthreads⟩
        obtain ⟨rings, hrings', hring⟩ := List.mem_flatten.mp hring
        exact hrings rings hrings' ring hring
      · rintro ⟨hkind, hR, hformed, hthreads⟩
        cases value with
        | multiPolygon polygons =>
            refine ⟨polygons, rfl, hR, fun rings hrings ring hring => ?_, ?_⟩
            · exact hformed.rings ring (List.mem_flatten.mpr ⟨rings, hrings, hring⟩)
            · rw [hplaces]
              exact hthreads
        | _ => exact absurd hkind nofun

end Kinds

section Object

/-- A box of 4 or 6 numbers, twice the dimension wherever one is fixed. -/
structure BoxOf (dimension : Option ℕ) (positions : List Position) (raw : Json)
    (bbox : List ExactNumber) : Prop where
  written : ListOf NumberOf raw bbox
  four_or_six : bbox.length = 4 ∨ bbox.length = 6
  srs : ∀ n ∈ dimension, bbox.length = 2 * n
  places : ∀ p ∈ positions, bbox.length = 2 * p.ordinates.length

/-- What an object with this value and this box has written. -/
structure Describes (members : List (String × Json)) (srs : SrsCheck) (value : GeometryValue)
    (bbox : Option (List ExactNumber)) : Prop where
  unreserved : ∀ name ∈ reserved, members.lookup name = none
  kind : ∃ name, members.lookup "type" = some (.string name) ∧
    kind_from_name name = some value.kind
  coordinates : ∃ raw, members.lookup "coordinates" = some raw ∧ ValueOf raw value
  formed : Formed value
  common : Common srs.dimension value.positions
  box : Option.Rel (BoxOf srs.dimension value.positions) (members.lookup "bbox") bbox

theorem boundingBox_eq_ok {raw : Json} (hchecked : Checked raw) {dimension after : Option ℕ}
    {positions : List Position} (hfixed : FixedBy dimension positions after)
    (bbox : List ExactNumber) :
    boundingBox raw after = .ok bbox ↔ BoxOf dimension positions raw bbox := by
  have hany : (after.any fun n => bbox.length ≠ 2 * n) = true ↔
      ∃ n ∈ after, bbox.length ≠ 2 * n := by
    rw [Option.any_eq_true]
    simp only [decide_eq_true_eq, Option.mem_def]
  rw [boundingBox, bind_eq_ok]
  constructor
  · rintro ⟨numbers, hread, htest⟩
    split at htest
    · exact absurd htest nofun
    · rename_i hpass
      obtain rfl := Except.ok.inj htest
      rw [hany] at hpass
      obtain ⟨hsize, htwice⟩ := not_or.mp hpass
      have htwice : ∀ n ∈ after, numbers.length = 2 * n :=
        fun n hn => not_not.mp fun hne => htwice ⟨n, hn, hne⟩
      exact ⟨(numbers_eq_ok hchecked numbers).mp (mapError_eq_ok.mp hread), by omega,
        fun n hn => htwice n ((hfixed n).mpr (.inl hn)),
        fun p hp => htwice _ ((hfixed _).mpr (.inr ⟨p, hp, rfl⟩))⟩
  · rintro ⟨hwritten, hsize, hsrs, hplaces⟩
    refine ⟨bbox, mapError_eq_ok.mpr ((numbers_eq_ok hchecked bbox).mpr hwritten), if_neg ?_⟩
    rw [hany]
    rintro (hbad | ⟨n, hn, hne⟩)
    · omega
    · obtain hn | ⟨p, hp, rfl⟩ := (hfixed n).mp hn
      · exact hne (hsrs n hn)
      · exact hne (hplaces p hp)

theorem valueOf_eq_ok {kind : GeometryKind} {coordinates : Json} {box : Option Json}
    (hcoordinates : Checked coordinates) (hbox : ∀ raw ∈ box, Checked raw) (srs : SrsCheck)
    (value : GeometryValue) (bbox : Option (List ExactNumber)) :
    valueOf kind coordinates box srs = .ok (value, bbox) ↔
      value.kind = kind ∧ ValueOf coordinates value ∧ Formed value ∧
        Common srs.dimension value.positions ∧
        Option.Rel (BoxOf srs.dimension value.positions) box bbox := by
  rw [valueOf, bind_eq_ok]
  constructor
  · rintro ⟨⟨value', after⟩, hread, hrest⟩
    obtain ⟨hkind, hwritten, hformed, hcommon, hfixed⟩ :=
      (coordinatesOf_eq_ok kind hcoordinates _ _ _).mp hread
    cases box with
    | none =>
        obtain ⟨rfl, rfl⟩ := Prod.mk.inj (Except.ok.inj hrest)
        exact ⟨hkind, hwritten, hformed, hcommon, .none⟩
    | some raw =>
        obtain ⟨numbers, hnumbers, heq⟩ := bind_eq_ok.mp hrest
        obtain ⟨rfl, rfl⟩ := Prod.mk.inj (Except.ok.inj heq)
        exact ⟨hkind, hwritten, hformed, hcommon,
          .some ((boundingBox_eq_ok (hbox raw rfl) hfixed numbers).mp hnumbers)⟩
  · rintro ⟨hkind, hwritten, hformed, hcommon, hrel⟩
    obtain ⟨after, hfixed⟩ := hcommon.exists_fixedBy
    refine ⟨(value, after), (coordinatesOf_eq_ok kind hcoordinates _ _ _).mpr
      ⟨hkind, hwritten, hformed, hcommon, hfixed⟩, ?_⟩
    cases hrel with
    | none => rfl
    | @some raw numbers hbboxOf =>
        exact bind_eq_ok.mpr
          ⟨numbers, (boundingBox_eq_ok (hbox raw rfl) hfixed numbers).mpr hbboxOf, rfl⟩

theorem asString?_eq_some {raw : Json} {text : String} :
    raw.asString? = some text ↔ raw = .string text := by
  cases raw <;> simp [Json.asString?]

theorem checked_lookup {members : List (String × Json)} (hchecked : Checked (.object members))
    {name : String} {raw : Json} (h : members.lookup name = some raw) : Checked raw := by
  obtain ⟨before, after, rfl, -⟩ := List.lookup_eq_some_iff.mp h
  refine (checked_object.mp hchecked).2 raw ?_
  rw [List.map_append, List.map_cons]
  exact List.mem_append_right _ List.mem_cons_self

/-- **Parsing a value object.**  The result is what the object describes. -/
theorem parse_eq_ok {members : List (String × Json)} (hchecked : Checked (.object members))
    (srs : SrsCheck) (value : GeometryValue) (bbox : Option (List ExactNumber)) :
    parse members srs = .ok (value, bbox) ↔ Describes members srs value bbox := by
  have hreserved : (reserved.any fun name => (members.lookup name).isSome) = false ↔
      ∀ name ∈ reserved, members.lookup name = none := by
    rw [List.any_eq_false]
    simp only [Option.not_isSome_iff_eq_none]
  have hbox : ∀ raw ∈ members.lookup "bbox", Checked raw := fun raw h => checked_lookup hchecked h
  rw [parse]
  constructor
  · intro h
    split at h
    · exact absurd h nofun
    · rename_i hplain
      split at h
      · exact absurd h nofun
      · rename_i name hname
        obtain ⟨raw, htype, hstring⟩ := Option.bind_eq_some_iff.mp hname
        obtain rfl := asString?_eq_some.mp hstring
        split at h
        · exact absurd h nofun
        · rename_i coordinates hcoordinates
          split at h
          · exact absurd h nofun
          · rename_i kind hkind
            obtain ⟨rfl, hwritten, hformed, hcommon, hrel⟩ :=
              (valueOf_eq_ok (checked_lookup hchecked hcoordinates) hbox srs value bbox).mp h
            exact ⟨hreserved.mp (Bool.eq_false_iff.mpr hplain), ⟨name, htype, hkind⟩,
              ⟨coordinates, hcoordinates, hwritten⟩, hformed, hcommon, hrel⟩
  · rintro ⟨hplain, ⟨name, htype, hkind⟩, ⟨coordinates, hcoordinates, hwritten⟩, hformed,
      hcommon, hrel⟩
    rw [if_neg (Bool.eq_false_iff.mp (hreserved.mpr hplain)), htype, hcoordinates]
    simp only [Option.bind_some, Json.asString?, hkind]
    exact (valueOf_eq_ok (checked_lookup hchecked hcoordinates) hbox srs value bbox).mpr
      ⟨rfl, hwritten, hformed, hcommon, hrel⟩

/-- **The check of a value** of a compiled component. -/
theorem check_value_eq_ok {serde : Serde} {reader : JsonReader}
    (hreader : reader.parse = Validation.parse serde) (valid : Json → Bool)
    (contract : GeometryContract) (input : Bytes) (result : CheckedGeometryValue) :
    check_value reader valid contract input = .ok result ↔
      ∃ members, Validation.parse serde input = .ok (.object members) ∧
        valid (.object members) = true ∧
        Describes members contract.srs_check result.value result.bbox ∧
        (∀ constraint kinds, contract.constraint = some constraint →
          constraint.geom_types = some kinds → result.value.kind ∈ kinds) ∧
        result.srs = contract.srs ∧ result.srs_check = contract.srs_check ∧
        result.source = input := by
  have hkinds : ∀ value : GeometryValue,
      ((contract.constraint.bind (·.geom_types)).any fun kinds => value.kind ∉ kinds) = true ↔
        ¬ ∀ constraint kinds, contract.constraint = some constraint →
          constraint.geom_types = some kinds → value.kind ∈ kinds := fun value => by
    rw [Option.any_eq_true]
    simp only [Option.bind_eq_some_iff, decide_eq_true_eq, not_forall, exists_prop]
    exact ⟨fun ⟨kinds, ⟨constraint, hc, hk⟩, hn⟩ => ⟨constraint, kinds, hc, hk, hn⟩,
      fun ⟨constraint, kinds, hc, hk, hn⟩ => ⟨kinds, ⟨constraint, hc, hk⟩, hn⟩⟩
  rw [check_value, hreader, bind_eq_ok]
  constructor
  · rintro ⟨source, hparse, h⟩
    rw [mapError_eq_ok] at hparse
    split at h
    · exact absurd h nofun
    · rename_i hvalid
      split at h
      · rename_i members
        obtain ⟨⟨value, bbox⟩, hvalue, h⟩ := bind_eq_ok.mp h
        dsimp only at h
        split at h
        · exact absurd h nofun
        · rename_i hallowed
          obtain rfl := Except.ok.inj h
          rw [hkinds, not_not] at hallowed
          exact ⟨members, hparse, by simpa using hvalid,
            (parse_eq_ok (checked_of_parse hparse).1 _ _ _).mp hvalue, hallowed, rfl, rfl, rfl⟩
      · exact absurd h nofun
  · rintro ⟨members, hparse, hvalid, hdescribes, hallowed, hsrs, hcheck, hsource⟩
    refine ⟨.object members, mapError_eq_ok.mpr hparse, ?_⟩
    rw [if_neg (by simp [hvalid])]
    refine bind_eq_ok.mpr ⟨(result.value, result.bbox),
      (parse_eq_ok (checked_of_parse hparse).1 _ _ _).mpr hdescribes, ?_⟩
    dsimp only
    rw [if_neg (by rw [hkinds, not_not]; exact hallowed)]
    obtain ⟨value, srs, check, bbox, source⟩ := result
    obtain rfl := hsrs
    obtain rfl := hcheck
    obtain rfl := hsource
    rfl

end Object

end Geometry
end Standards
end Glaux
