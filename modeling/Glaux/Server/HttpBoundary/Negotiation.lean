import Glaux.Library.FirstMax
import Glaux.Server.HttpBoundary.AcceptList
import Mathlib.Data.Prod.Lex

/-!
# Content negotiation (`http_boundary/media.rs`)

The most specific range that matches an offer decides its quality; the offers are then
compared by quality and specificity.  Both selections keep the first greatest item.
-/

namespace Glaux
namespace Server
namespace HttpBoundary
namespace Media

open Library FieldLines FirstMax

section Code

/-- The kind of a range and the number of its parameters, compared in this order. -/
abbrev Specificity := ℕ ×ₗ ℕ

/-- The quality of an offer, then its specificity. -/
abbrev Rank := ℕ ×ₗ Specificity

def charset : List UInt8 := ['c', 'h', 'a', 'r', 's', 'e', 't'].map Char.toUInt8

/-- The values of one parameter in a range and in an offer. -/
def equal (name value offered : List UInt8) : Bool :=
  if name == charset then lowercase value == lowercase offered else value == offered

def kindOf (range : Media) : ℕ :=
  if range.kind = star then 0 else if range.subtype = star then 1 else 2

/-- `matches` -/
def rangeMatches (range representation : Media) : Option Specificity :=
  if range.kind ≠ star ∧ range.kind ≠ representation.kind then none
  else if range.subtype ≠ star ∧ range.subtype ≠ representation.subtype then none
  else if range.parameters.all fun parameter =>
      (representation.parameters.find? fun offered => offered.1 == parameter.1).any
        fun offered => equal parameter.1 parameter.2 offered.2 then
    some (toLex (kindOf range, range.parameters.length))
  else none

/-- The most specific match so far, and its quality. -/
def matchRange (representation : Media) (matched : Option (Specificity × ℕ)) (range : Media) :
    Option (Specificity × ℕ) :=
  match rangeMatches range representation with
  | none => matched
  | some specificity =>
      if matched.all fun prior => decide (prior.1 < specificity) ||
          (specificity == prior.1 && decide (prior.2 < range.quality)) then
        some (specificity, range.quality)
      else matched

def matched (ranges : List Media) (representation : Media) : Option (Specificity × ℕ) :=
  ranges.foldl (matchRange representation) none

/-- The best offer so far, by its index. -/
def selectOffer (ranges : List Media) (selected : Option (ℕ × Rank)) (offer : Media × ℕ) :
    Option (ℕ × Rank) :=
  match matched ranges offer.1 with
  | none => selected
  | some (specificity, quality) =>
      if decide (0 < quality) &&
          selected.all (fun prior => prior.2 < toLex (quality, specificity)) then
        some (offer.2, toLex (quality, specificity))
      else selected

def select (ranges representations : List Media) : Option (ℕ × Rank) :=
  representations.zipIdx.foldl (selectOffer ranges) none

def negotiate (lines offered : List (List UInt8)) : Except Problem ℕ :=
  if offered = [] ∨ offered.length > maxRanges then .error .internal
  else do
    let representations ← offered.mapM fun value =>
      (parse_media value false).mapError fun () => .internal
    match ← accepted lines with
    | none => .ok 0
    | some ranges =>
        match select ranges representations with
        | some (index, _) => .ok index
        | none => .error .not_acceptable

end Code

section Matching

/-- A range matches an offer. -/
structure Matches (range offer : Media) : Prop where
  kind : range.kind = star ∨ range.kind = offer.kind
  subtype : range.subtype = star ∨ range.subtype = offer.subtype
  parameters : ∀ parameter ∈ range.parameters, ∃ offered ∈ offer.parameters,
    offered.1 = parameter.1 ∧ equal parameter.1 parameter.2 offered.2 = true

def specificityOf (range : Media) : Specificity := toLex (kindOf range, range.parameters.length)

/-- The parameters of an offer have different names. -/
def Distinct (offer : Media) : Prop := (offer.parameters.map (·.1)).Nodup

/-- Different names make the first offered parameter of a name the only one. -/
theorem find_parameter {offer : Media} (hoffer : Distinct offer) (name : List UInt8)
    (p : List UInt8 × List UInt8 → Bool) :
    ((offer.parameters.find? fun offered => offered.1 == name).any p) = true ↔
      ∃ offered ∈ offer.parameters, offered.1 = name ∧ p offered = true := by
  rw [Option.any_eq_true]
  constructor
  · rintro ⟨offered, hfind, hp⟩
    exact ⟨offered, List.mem_of_find?_eq_some hfind,
      beq_iff_eq.mp (List.find?_some (p := fun offered : List UInt8 × List UInt8 => offered.1 == name) hfind), hp⟩
  · rintro ⟨offered, hmem, hname, hp⟩
    cases hfind : offer.parameters.find? fun offered => offered.1 == name with
    | none =>
        exact absurd (beq_iff_eq.mpr hname) (List.find?_eq_none.mp hfind offered hmem)
    | some found =>
        have hfound := beq_iff_eq.mp
          (List.find?_some (p := fun offered : List UInt8 × List UInt8 => offered.1 == name) hfind)
        obtain rfl := List.inj_on_of_nodup_map hoffer (List.mem_of_find?_eq_some hfind) hmem
          (hfound.trans hname.symm)
        exact ⟨found, rfl, hp⟩

theorem rangeMatches_eq_some {range offer : Media} (hoffer : Distinct offer)
    {specificity : Specificity} :
    rangeMatches range offer = some specificity ↔
      Matches range offer ∧ specificity = specificityOf range := by
  have hparameters : (range.parameters.all fun parameter =>
      (offer.parameters.find? fun offered => offered.1 == parameter.1).any
        fun offered => equal parameter.1 parameter.2 offered.2) = true ↔
      ∀ parameter ∈ range.parameters, ∃ offered ∈ offer.parameters,
        offered.1 = parameter.1 ∧ equal parameter.1 parameter.2 offered.2 = true := by
    rw [List.all_eq_true]
    exact forall₂_congr fun parameter _ => find_parameter hoffer parameter.1 _
  rw [rangeMatches]
  constructor
  · intro h
    split at h
    · exact absurd h nofun
    · rename_i hkind
      split at h
      · exact absurd h nofun
      · rename_i hsubtype
        split at h
        · rename_i hall
          refine ⟨⟨?_, ?_, hparameters.mp hall⟩, (Option.some.inj h).symm⟩
          · exact or_iff_not_imp_left.mpr fun hne => not_not.mp fun hne' => hkind ⟨hne, hne'⟩
          · exact or_iff_not_imp_left.mpr fun hne => not_not.mp fun hne' => hsubtype ⟨hne, hne'⟩
        · exact absurd h nofun
  · rintro ⟨⟨hkind, hsubtype, hall⟩, rfl⟩
    rw [if_neg fun h => hkind.elim h.1 h.2, if_neg fun h => hsubtype.elim h.1 h.2,
      if_pos (hparameters.mpr hall)]
    rfl

/-- The quality and the specificity of an offer are those of its most specific range, with
the highest quality among equally specific ones. -/
structure Rates (ranges : List Media) (offer : Media) (specificity : Specificity)
    (quality : ℕ) : Prop where
  attained : ∃ range ∈ ranges, Matches range offer ∧ specificityOf range = specificity ∧
    range.quality = quality
  greatest : ∀ range ∈ ranges, Matches range offer → specificityOf range < specificity ∨
    specificityOf range = specificity ∧ range.quality ≤ quality

/-- The matches of an offer. -/
def candidates (ranges : List Media) (offer : Media) : List (Specificity × ℕ) :=
  ranges.filterMap fun range => (rangeMatches range offer).map (·, range.quality)

theorem matched_eq (ranges : List Media) (offer : Media) :
    matched ranges offer = firstMax toLex (candidates ranges offer) := by
  rw [matched, firstMax, candidates, List.foldl_filterMap]
  refine congrFun (congrFun (congrArg List.foldl ?_) none) ranges
  funext best range
  rw [matchRange]
  cases rangeMatches range offer with
  | none => rfl
  | some specificity =>
      refine if_congr ?_ rfl rfl
      cases best with
      | none => exact iff_of_true rfl rfl
      | some prior =>
          obtain ⟨prior, quality⟩ := prior
          rw [Option.all_some, Option.all_some, Bool.or_eq_true, Bool.and_eq_true,
            decide_eq_true_iff, decide_eq_true_iff, decide_eq_true_iff, beq_iff_eq,
            Prod.Lex.toLex_lt_toLex]
          exact or_congr_right (and_congr_left fun _ => eq_comm)

theorem mem_candidates {ranges : List Media} {offer : Media} (hoffer : Distinct offer)
    {specificity : Specificity} {quality : ℕ} :
    (specificity, quality) ∈ candidates ranges offer ↔
      ∃ range ∈ ranges, Matches range offer ∧ specificityOf range = specificity ∧
        range.quality = quality := by
  rw [candidates, List.mem_filterMap]
  refine exists_congr fun range => and_congr_right fun _ => ?_
  rw [Option.map_eq_some_iff]
  constructor
  · rintro ⟨found, hfound, heq⟩
    obtain ⟨rfl, rfl⟩ := Prod.mk.inj heq
    obtain ⟨hmatches, rfl⟩ := (rangeMatches_eq_some hoffer).mp hfound
    exact ⟨hmatches, rfl, rfl⟩
  · rintro ⟨hmatches, rfl, rfl⟩
    exact ⟨_, (rangeMatches_eq_some hoffer).mpr ⟨hmatches, rfl⟩, rfl⟩

/-- **The rating of an offer.** -/
theorem matched_eq_some {ranges : List Media} {offer : Media} (hoffer : Distinct offer)
    {specificity : Specificity} {quality : ℕ} :
    matched ranges offer = some (specificity, quality) ↔
      Rates ranges offer specificity quality := by
  have hkey : matched ranges offer = some (specificity, quality) ↔
      (firstMax toLex (candidates ranges offer)).map toLex =
        some (toLex (specificity, quality)) := by
    rw [matched_eq, Option.map_eq_some_iff]
    constructor
    · exact fun h => ⟨_, h, rfl⟩
    · rintro ⟨best, hbest, heq⟩
      rw [hbest, toLex.injective heq]
  rw [hkey, key_firstMax]
  constructor
  · rintro ⟨⟨item, hitem, heq⟩, hgreatest⟩
    obtain rfl := toLex.injective heq
    refine ⟨(mem_candidates hoffer).mp hitem, fun range hrange hmatches => ?_⟩
    have hle := hgreatest _ ((mem_candidates hoffer).mpr ⟨range, hrange, hmatches, rfl, rfl⟩)
    exact Prod.Lex.toLex_le_toLex.mp hle
  · rintro ⟨hattained, hgreatest⟩
    refine ⟨⟨_, (mem_candidates hoffer).mpr hattained, rfl⟩, ?_⟩
    rintro ⟨specificity', quality'⟩ hmem
    obtain ⟨range, hrange, hmatches, rfl, rfl⟩ := (mem_candidates hoffer).mp hmem
    exact Prod.Lex.toLex_le_toLex.mpr (hgreatest range hrange hmatches)

/-- The order of the ranges does not matter to an offer. -/
theorem matched_perm {ranges ranges' : List Media} (h : ranges.Perm ranges') (offer : Media) :
    matched ranges offer = matched ranges' offer := by
  have hperm := @key_perm _ _ _ toLex _ _ (h.filterMap fun range =>
    (rangeMatches range offer).map (·, range.quality))
  rw [matched_eq, matched_eq]
  exact Option.map_injective toLex.injective hperm

end Matching

section Selection

/-- The offers that are not excluded, with their ranks. -/
def ranked (ranges representations : List Media) : List (ℕ × Rank) :=
  representations.zipIdx.filterMap fun offer =>
    (matched ranges offer.1).bind fun rated =>
      if 0 < rated.2 then some (offer.2, toLex (rated.2, rated.1)) else none

theorem select_eq (ranges representations : List Media) :
    select ranges representations = firstMax Prod.snd (ranked ranges representations) := by
  rw [select, firstMax, ranked, List.foldl_filterMap]
  refine congrFun (congrFun (congrArg List.foldl ?_) none) representations.zipIdx
  funext best offer
  rw [selectOffer]
  cases matched ranges offer.1 with
  | none => rfl
  | some rated =>
      obtain ⟨specificity, quality⟩ := rated
      dsimp only [Option.bind_some]
      by_cases hquality : 0 < quality
      · simp only [hquality, decide_true, Bool.true_and, if_true, keep]
      · simp only [hquality, decide_false, Bool.false_and, if_false, Bool.false_eq_true]

theorem mem_ranked {ranges representations : List Media}
    (hoffers : ∀ offer ∈ representations, Distinct offer) {index : ℕ} {rank : Rank} :
    (index, rank) ∈ ranked ranges representations ↔
      ∃ offer specificity quality, representations[index]? = some offer ∧
        Rates ranges offer specificity quality ∧ 0 < quality ∧
        rank = toLex (quality, specificity) := by
  rw [ranked, List.mem_filterMap]
  constructor
  · rintro ⟨⟨offer, i⟩, hmem, h⟩
    obtain ⟨⟨specificity, quality⟩, hrated, h⟩ := Option.bind_eq_some_iff.mp h
    have hoffer := List.mem_zipIdx_iff_getElem?.mp hmem
    dsimp only at h hoffer hrated
    split at h
    · rename_i hquality
      obtain ⟨rfl, rfl⟩ := Prod.mk.inj (Option.some.inj h)
      exact ⟨offer, specificity, quality, hoffer,
        (matched_eq_some (hoffers offer (List.mem_of_getElem? hoffer))).mp hrated, hquality, rfl⟩
    · exact absurd h nofun
  · rintro ⟨offer, specificity, quality, hoffer, hrates, hquality, rfl⟩
    refine ⟨(offer, index), List.mem_zipIdx_iff_getElem?.mpr hoffer, ?_⟩
    have hrated :=
      (matched_eq_some (hoffers offer (List.mem_of_getElem? hoffer))).mpr hrates
    dsimp only
    rw [hrated, Option.bind_some, if_pos hquality]

theorem ranked_pairwise (ranges representations : List Media) :
    (ranked ranges representations).Pairwise fun a b => a.1 < b.1 := by
  have hindices : representations.zipIdx.Pairwise fun a b => a.2 < b.2 := by
    have hrange := List.pairwise_lt_range' (s := 0) (n := representations.length) 1
    rw [← List.zipIdx_map_snd, List.pairwise_map] at hrange
    exact hrange
  refine hindices.filterMap _ ?_
  intro a b hab c hc d hd
  have hindex : ∀ (offer : Media × ℕ) (c : ℕ × Rank), ((matched ranges offer.1).bind fun rated =>
      if 0 < rated.2 then some (offer.2, toLex (rated.2, rated.1)) else none) = some c →
      c.1 = offer.2 := by
    intro offer c hc
    obtain ⟨rated, -, hrated⟩ := Option.bind_eq_some_iff.mp hc
    split at hrated
    · rw [← Option.some.inj hrated]
    · exact absurd hrated nofun
  rw [hindex a c hc, hindex b d hd]
  exact hab

/-- **The selection** is the first offer of the greatest rank. -/
theorem select_eq_some {ranges representations : List Media} {index : ℕ} {rank : Rank} :
    select ranges representations = some (index, rank) ↔
      (index, rank) ∈ ranked ranges representations ∧
        ∀ j rank', (j, rank') ∈ ranked ranges representations →
          rank' ≤ rank ∧ (j < index → rank' < rank) := by
  rw [select_eq, firstMax_pairwise (ranked_pairwise ranges representations)]
  simp only [Prod.forall]

theorem select_perm {ranges ranges' : List Media} (h : ranges.Perm ranges')
    (representations : List Media) :
    select ranges representations = select ranges' representations := by
  have hmatched : matched ranges = matched ranges' := funext fun offer => matched_perm h offer
  rw [select_eq, select_eq, ranked, ranked, hmatched]

end Selection

section Negotiation

/-- An offer is excluded when no range matches it, or with quality 0. -/
def Excluded (ranges : List Media) (offer : Media) : Prop :=
  ∀ specificity quality, Rates ranges offer specificity quality → quality = 0

/-- The first offer that is greatest in quality, kind and number of parameters. -/
def Best (ranges representations : List Media) (index : ℕ) : Prop :=
  ∃ offer specificity quality, representations[index]? = some offer ∧
    Rates ranges offer specificity quality ∧ 0 < quality ∧
    ∀ j offer' specificity' quality', representations[j]? = some offer' →
      Rates ranges offer' specificity' quality' → 0 < quality' →
      (toLex (quality', specificity') : Rank) ≤ toLex (quality, specificity) ∧
        (j < index → (toLex (quality', specificity') : Rank) < toLex (quality, specificity))

/-- The offers are media types. -/
def OffersOf (offered : List (List UInt8)) (representations : List Media) : Prop :=
  List.Forall₂ (fun value media => parse_media value false = .ok media) offered representations

theorem distinct_of_parse {value : List UInt8} {media : Media} {range : Bool}
    (h : parse_media value range = .ok media) : Distinct media := by
  obtain ⟨-, m, hm, -, hmeans⟩ := parse_media_eq_ok.mp h
  rw [Distinct, hmeans.parameters]
  exact hm.distinct

theorem OffersOf.distinct {offered : List (List UInt8)} {representations : List Media}
    (h : OffersOf offered representations) : ∀ offer ∈ representations, Distinct offer := by
  intro offer hoffer
  induction h with
  | nil => exact absurd hoffer List.not_mem_nil
  | cons hfirst _ ih =>
      obtain rfl | hoffer := List.mem_cons.mp hoffer
      · exact distinct_of_parse hfirst
      · exact ih hoffer

variable {lines offered : List (List UInt8)} {representations ranges : List Media}

theorem negotiate_eq (hne : offered ≠ []) (hfew : offered.length ≤ maxRanges)
    (hoffers : OffersOf offered representations) (haccept : accepted lines = .ok (some ranges)) :
    negotiate lines offered =
      match select ranges representations with
      | some (index, _) => .ok index
      | none => .error .not_acceptable := by
  have hread : (offered.mapM fun value => (parse_media value false).mapError fun () =>
      Problem.internal) = .ok representations := by
    rw [mapM_eq_ok]
    exact hoffers.imp fun value media h => mapError_eq_ok.mpr h
  rw [negotiate, if_neg (not_or.mpr ⟨hne, Nat.not_lt.mpr hfew⟩), hread, ok_bind, haccept, ok_bind]

theorem negotiate_eq_ok (hne : offered ≠ []) (hfew : offered.length ≤ maxRanges)
    (hoffers : OffersOf offered representations) (haccept : accepted lines = .ok (some ranges))
    (index : ℕ) :
    negotiate lines offered = .ok index ↔ Best ranges representations index := by
  have hselect : negotiate lines offered = .ok index ↔
      ∃ rank, select ranges representations = some (index, rank) := by
    rw [negotiate_eq hne hfew hoffers haccept]
    cases select ranges representations with
    | none => exact iff_of_false nofun nofun
    | some selected =>
        obtain ⟨found, rank⟩ := selected
        constructor
        · intro h
          obtain rfl := Except.ok.inj h
          exact ⟨rank, rfl⟩
        · rintro ⟨_, h⟩
          obtain ⟨rfl, -⟩ := Prod.mk.inj (Option.some.inj h)
          rfl
  rw [hselect]
  simp only [select_eq_some, mem_ranked hoffers.distinct]
  constructor
  · rintro ⟨rank, ⟨offer, specificity, quality, hoffer, hrates, hquality, rfl⟩, hgreatest⟩
    exact ⟨offer, specificity, quality, hoffer, hrates, hquality,
      fun j offer' specificity' quality' hoffer' hrates' hquality' =>
        hgreatest j _ ⟨offer', specificity', quality', hoffer', hrates', hquality', rfl⟩⟩
  · rintro ⟨offer, specificity, quality, hoffer, hrates, hquality, hgreatest⟩
    refine ⟨_, ⟨offer, specificity, quality, hoffer, hrates, hquality, rfl⟩, ?_⟩
    rintro j _ ⟨offer', specificity', quality', hoffer', hrates', hquality', rfl⟩
    exact hgreatest j offer' specificity' quality' hoffer' hrates' hquality'

theorem negotiate_not_acceptable (hne : offered ≠ []) (hfew : offered.length ≤ maxRanges)
    (hoffers : OffersOf offered representations) (haccept : accepted lines = .ok (some ranges)) :
    negotiate lines offered = .error .not_acceptable ↔
      ∀ offer ∈ representations, Excluded ranges offer := by
  have hselect : negotiate lines offered = .error .not_acceptable ↔
      ranked ranges representations = [] := by
    have hnone := @firstMax_eq_none _ _ _ Prod.snd (ranked ranges representations)
    rw [← hnone, ← select_eq, negotiate_eq hne hfew hoffers haccept]
    cases select ranges representations with
    | none => exact iff_of_true rfl rfl
    | some selected => exact iff_of_false nofun nofun
  rw [hselect, List.eq_nil_iff_forall_not_mem]
  simp only [Prod.forall, mem_ranked hoffers.distinct]
  constructor
  · intro h offer hoffer specificity quality hrates
    obtain ⟨index, hindex⟩ := List.mem_iff_getElem?.mp hoffer
    exact Nat.eq_zero_of_not_pos fun hquality =>
      h index _ ⟨offer, specificity, quality, hindex, hrates, hquality, rfl⟩
  · rintro h index rank ⟨offer, specificity, quality, hoffer, hrates, hquality, -⟩
    have hzero := h offer (List.mem_of_getElem? hoffer) specificity quality hrates
    omega

theorem negotiate_split (offered before after : List (List UInt8)) (left right : List UInt8) :
    negotiate (before ++ left :: right :: after) offered =
      negotiate (before ++ (left ++ comma :: right) :: after) offered := by
  simp only [negotiate, accepted, combined, joinLines_split]

theorem length_join {pieces : List (List UInt8)} (h : pieces ≠ []) :
    (join pieces).length + 1 = (pieces.map fun piece => piece.length + 1).sum := by
  obtain ⟨piece, pieces, rfl⟩ := List.exists_cons_of_ne_nil h
  rw [join_cons, List.length_append, List.length_flatMap, List.map_cons, List.sum_cons]
  simp only [List.length_cons]
  omega

/-- The elements in another order. -/
theorem acceptOf_perm {elements elements' : List Element} {lines' : List (List UInt8)}
    (h : AcceptOf lines elements) (hperm : elements.Perm elements') (hpresent : lines' ≠ [])
    (hjoin : join lines' = join (elements'.map Element.text)) : AcceptOf lines' elements' := by
  have hne : elements' ≠ [] := fun hnil => h.nonempty (List.perm_nil.mp (hnil ▸ hperm))
  have hlength : (join lines').length = (join lines).length := by
    have hold := @length_join (elements.map Element.text) (by simpa using h.nonempty)
    have hnew := @length_join (elements'.map Element.text) (by simpa using hne)
    have hsum := ((hperm.map Element.text).map fun piece => piece.length + 1).sum_eq
    rw [hjoin, h.join]
    omega
  exact ⟨hjoin, hlength ▸ h.size, hpresent, hne,
    fun e he => h.wellFormed e (hperm.mem_iff.mpr he),
    (hperm.filterMap Element.range?).length_eq ▸ h.few,
    hperm.countP_eq Element.isEmpty ▸ h.fewEmpty⟩

theorem accepted_perm {elements elements' : List Element} {lines' : List (List UInt8)}
    (haccept : accepted lines = .ok (some ranges)) (h : AcceptOf lines elements)
    (hperm : elements.Perm elements') (hpresent : lines' ≠ [])
    (hjoin : join lines' = join (elements'.map Element.text)) :
    ∃ ranges', accepted lines' = .ok (some ranges') ∧ ranges'.Perm ranges := by
  have h' := acceptOf_perm h hperm hpresent hjoin
  rw [accepted, combined_eq_ok.mpr ⟨h.present, h.size, rfl⟩, ok_bind] at haccept
  obtain ⟨_, hranges, heq⟩ := map_eq_ok.mp haccept
  obtain rfl := Option.some.inj heq
  obtain ⟨parts, hparts, hread⟩ := ranges_eq_ok.mp hranges
  obtain rfl := Except.ok.inj (((accepted_exact lines).2 elements h).symm.trans hparts)
  have hparts' : ((elements'.filterMap Element.range?).map fun m => trim m.text).Perm
      ((elements.filterMap Element.range?).map fun m => trim m.text) :=
    ((hperm.filterMap Element.range?).map fun m => trim m.text).symm
  obtain ⟨ranges', hread', hranges'⟩ := List.perm_comp_forall₂ hparts' hread
  refine ⟨ranges', ?_, hranges'⟩
  rw [accepted, combined_eq_ok.mpr ⟨h'.present, h'.size, rfl⟩, ok_bind]
  exact map_eq_ok.mpr ⟨ranges', ranges_eq_ok.mpr
    ⟨_, (accepted_exact lines').2 elements' h', hread'⟩, rfl⟩

/-- **Negotiation.**  Of well-formed offers the first greatest one is chosen, and none when
all are excluded.  Neither the order of the elements nor their spread over lines matters. -/
theorem negotiate_exact (hne : offered ≠ []) (hfew : offered.length ≤ maxRanges)
    (hoffers : OffersOf offered representations) (haccept : accepted lines = .ok (some ranges)) :
    (∀ index, negotiate lines offered = .ok index ↔ Best ranges representations index) ∧
    (negotiate lines offered = .error .not_acceptable ↔
      ∀ offer ∈ representations, Excluded ranges offer) ∧
    (∀ elements elements' lines', AcceptOf lines elements → elements.Perm elements' →
      lines' ≠ [] → join lines' = join (elements'.map Element.text) →
      negotiate lines' offered = negotiate lines offered) ∧
    ∀ before after left right, lines = before ++ (left ++ comma :: right) :: after →
      negotiate (before ++ left :: right :: after) offered = negotiate lines offered := by
  refine ⟨negotiate_eq_ok hne hfew hoffers haccept,
    negotiate_not_acceptable hne hfew hoffers haccept, ?_, ?_⟩
  · intro elements elements' lines' h hperm hpresent hjoin
    obtain ⟨ranges', haccept', hranges⟩ := accepted_perm haccept h hperm hpresent hjoin
    rw [negotiate_eq hne hfew hoffers haccept, negotiate_eq hne hfew hoffers haccept',
      select_perm hranges]
  · rintro before after left right rfl
    exact negotiate_split offered before after left right

/-- A plain text and a levelled hypertext. -/
def offeredTexts : List (List UInt8) :=
  [utf8 "text/plain".toList, utf8 "text/html;level=1".toList]

def offeredMedia : List Media :=
  [⟨utf8 "text".toList, utf8 "plain".toList, [], 1000⟩,
    ⟨utf8 "text".toList, utf8 "html".toList, [(utf8 "level".toList, utf8 "1".toList)], 1000⟩]

def acceptedRanges : List Media :=
  [⟨utf8 "text".toList, star, [], 500⟩,
    ⟨utf8 "text".toList, utf8 "html".toList, [(utf8 "level".toList, utf8 "1".toList)], 1000⟩]

theorem offersOf_texts : OffersOf offeredTexts offeredMedia :=
  .cons (toOption_eq_some.mp (by decide +kernel))
    (.cons (toOption_eq_some.mp (by decide +kernel)) .nil)

def acceptTexts : List (List UInt8) := [utf8 "text/*;q=0.5, text/html;level=1".toList]

theorem negotiate_exact_texts : Best acceptedRanges offeredMedia 1 :=
  ((@negotiate_exact acceptTexts offeredTexts offeredMedia acceptedRanges (by decide) (by decide)
    offersOf_texts (toOption_eq_some.mp (by decide +kernel))).1 1).mp
      (toOption_eq_some.mp (by decide +kernel))

end Negotiation

section Limit

/-- More offers than the server compares. -/
def manyOffers : List (List UInt8) := List.replicate 129 (utf8 "a/b".toList)

def oneMedia : Media := ⟨utf8 "a".toList, utf8 "b".toList, [], 1000⟩

theorem offersOf_replicate (n : ℕ) :
    OffersOf (List.replicate n (utf8 "a/b".toList)) (List.replicate n oneMedia) := by
  induction n with
  | zero => exact .nil
  | succ n ih => exact .cons (toOption_eq_some.mp (by decide +kernel)) ih

/-- A configuration of too many offers is an internal error. -/
theorem not_negotiate_any : ¬ ∀ (lines offered : List (List UInt8))
    (representations ranges : List Media), offered ≠ [] → OffersOf offered representations →
    accepted lines = .ok (some ranges) →
    (∀ index, Best ranges representations index → negotiate lines offered = .ok index) ∧
      ((∀ offer ∈ representations, Excluded ranges offer) ↔
        negotiate lines offered = .error .not_acceptable) := by
  intro h
  have hmany : negotiate [utf8 "*/*;q=0".toList] manyOffers = .error .internal :=
    if_pos (.inr (by simp [manyOffers, maxRanges]))
  obtain ⟨-, hexcluded⟩ := h [utf8 "*/*;q=0".toList] manyOffers (List.replicate 129 oneMedia)
    [⟨star, star, [], 0⟩] (by simp [manyOffers]) (offersOf_replicate 129)
    (toOption_eq_some.mp (by decide +kernel))
  have hall : ∀ offer ∈ List.replicate 129 oneMedia, Excluded [⟨star, star, [], 0⟩] offer := by
    rintro offer - specificity quality ⟨⟨range, hrange, -, -, rfl⟩, -⟩
    rw [List.mem_singleton.mp hrange]
  have hrefused := hexcluded.mp hall
  rw [hmany] at hrefused
  exact absurd (Except.error.inj hrefused) (by decide)

end Limit

end Media
end HttpBoundary
end Server
end Glaux
