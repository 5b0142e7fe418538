import Glaux.Standards.Units.Grammar
import Mathlib.Data.List.Sort

/-!
# The pinned dictionary (`units/table.tsv`)

The codes of the table, by whether they take a prefix and whether they are special.
-/

namespace Glaux
namespace Standards
namespace Units

section Load

/-- Of two prefixes, the longer one comes first. -/
def NotShorter (first next : List UInt8) : Prop := next.length ≤ first.length

instance : DecidableRel NotShorter := fun _ _ => inferInstanceAs (Decidable (_ ≤ _))

instance : IsTrans (List UInt8) NotShorter := ⟨fun _ _ _ hab hbc => Nat.le_trans hbc hab⟩

instance : Std.Total NotShorter := ⟨fun _ _ => Nat.le_total _ _⟩

def dictionary (prefixes : List (List UInt8)) (atoms : List (List UInt8 × Atom)) : Dictionary where
  atoms symbol := atoms.lookup symbol
  prefixes := prefixes.insertionSort NotShorter
  longestFirst := List.pairwise_insertionSort NotShorter prefixes

theorem plainSymbol_iff {symbol : List UInt8} :
    (brackets.closed false symbol && symbol.getLast?.all (fun byte => !isDigit byte)) = true ↔
      PlainSymbol symbol := by
  have hlast : symbol.getLast?.all (fun byte => !isDigit byte) = true ↔
      ∀ byte ∈ symbol.getLast?, isDigit byte = false := by
    cases symbol.getLast? with
    | none => simp
    | some byte => simp
  rw [Bool.and_eq_true, hlast]
  exact ⟨fun h => ⟨h.1, h.2⟩, fun h => ⟨h.closed, h.last⟩⟩

instance (symbol : List UInt8) : Decidable (PlainSymbol symbol) :=
  decidable_of_iff _ plainSymbol_iff

theorem dictionary_plain {prefixes : List (List UInt8)} {atoms : List (List UInt8 × Atom)}
    (hprefixes : ∀ front ∈ prefixes, PlainSymbol front)
    (hatoms : ∀ symbol ∈ atoms.map Prod.fst, PlainSymbol symbol) :
    (dictionary prefixes atoms).Plain := by
  refine ⟨fun front hfront => hprefixes front ((List.mem_insertionSort _).mp hfront),
    fun symbol atom hatom => hatoms symbol ?_⟩
  obtain ⟨before, after, rfl, -⟩ := List.lookup_eq_some_iff.mp hatom
  rw [List.map_append, List.map_cons]
  exact List.mem_append_right _ List.mem_cons_self

end Load

section Pinned

def pinnedPrefixes : List (List UInt8) :=
  ["Y", "Z", "E", "P", "T", "G", "M", "k", "h", "da", "d", "c", "m", "u", "n", "p", "f", "a",
    "z", "y", "Ki", "Mi", "Gi", "Ti"].map ascii

def metricCodes : List (List UInt8) :=
  ["m", "s", "g", "rad", "K", "C", "cd", "mol", "sr", "Hz", "N", "Pa", "J", "W", "A", "V", "F",
    "Ohm", "S", "Wb", "T", "H", "lm", "lx", "Bq", "Gy", "Sv", "l", "L", "ar", "t", "bar", "u",
    "eV", "pc", "[c]", "[h]", "[k]", "[eps_0]", "[mu_0]", "[e]", "[m_e]", "[m_p]", "[G]", "[g]",
    "[ly]", "gf", "Ky", "Gal", "dyn", "erg", "P", "Bi", "St", "Mx", "G", "Oe", "Gb", "sb", "Lmb",
    "ph", "Ci", "R", "RAD", "REM", "cal_[15]", "cal_[20]", "cal_m", "cal_IT", "cal_th", "cal",
    "tex", "m[H2O]", "m[Hg]", "eq", "osm", "g%", "kat", "U", "[iU]", "[IU]", "st", "mho", "bit",
    "By", "Bd"].map ascii

def metricSpecialCodes : List (List UInt8) :=
  ["Cel", "Np", "B", "B[SPL]", "B[V]", "B[mV]", "B[uV]", "B[10.nV]", "B[W]", "B[kW]"].map ascii

def plainCodes : List (List UInt8) :=
  ["10*", "10^", "[pi]", "%", "[ppth]", "[ppm]", "[ppb]", "[pptr]", "gon", "deg", "'", "''",
    "min", "h", "d", "a_t", "a_j", "a_g", "a", "wk", "mo_s", "mo_j", "mo_g", "mo", "AU", "atm",
    "[lbf_av]", "[in_i]", "[ft_i]", "[yd_i]", "[mi_i]", "[fth_i]", "[nmi_i]", "[kn_i]", "[sin_i]",
    "[sft_i]", "[syd_i]", "[cin_i]", "[cft_i]", "[cyd_i]", "[bf_i]", "[cr_i]", "[mil_i]",
    "[cml_i]", "[hd_i]", "[ft_us]", "[yd_us]", "[in_us]", "[rd_us]", "[ch_us]", "[lk_us]",
    "[rch_us]", "[rlk_us]", "[fth_us]", "[fur_us]", "[mi_us]", "[acr_us]", "[srd_us]", "[smi_us]",
    "[sct]", "[twp]", "[mil_us]", "[in_br]", "[ft_br]", "[rd_br]", "[ch_br]", "[lk_br]",
    "[fth_br]", "[pc_br]", "[yd_br]", "[mi_br]", "[nmi_br]", "[kn_br]", "[acr_br]", "[gal_us]",
    "[bbl_us]", "[qt_us]", "[pt_us]", "[gil_us]", "[foz_us]", "[fdr_us]", "[min_us]", "[crd_us]",
    "[bu_us]", "[gal_wi]", "[pk_us]", "[dqt_us]", "[dpt_us]", "[tbs_us]", "[tsp_us]", "[cup_us]",
    "[foz_m]", "[cup_m]", "[tsp_m]", "[tbs_m]", "[gal_br]", "[pk_br]", "[bu_br]", "[qt_br]",
    "[pt_br]", "[gil_br]", "[foz_br]", "[fdr_br]", "[min_br]", "[gr]", "[lb_av]", "[oz_av]",
    "[dr_av]", "[scwt_av]", "[lcwt_av]", "[ston_av]", "[lton_av]", "[stone_av]", "[pwt_tr]",
    "[oz_tr]", "[lb_tr]", "[sc_ap]", "[dr_ap]", "[oz_ap]", "[lb_ap]", "[oz_m]", "[lne]", "[pnt]",
    "[pca]", "[pnt_pr]", "[pca_pr]", "[pied]", "[pouce]", "[ligne]", "[didot]", "[cicero]",
    "[degR]", "[Cal]", "[Btu_39]", "[Btu_59]", "[Btu_60]", "[Btu_m]", "[Btu_IT]", "[Btu_th]",
    "[Btu]", "[HP]", "[den]", "[in_i'H2O]", "[in_i'Hg]", "[PRU]", "[wood'U]", "[diop]",
    "[mesh_i]", "[Ch]", "[drp]", "[hnsf'U]", "[MET]", "[hp_X]", "[hp_C]", "[hp_M]", "[hp_Q]",
    "[kp_X]", "[kp_C]", "[kp_M]", "[kp_Q]", "[S]", "[HPF]", "[LPF]", "[arb'U]", "[USP'U]",
    "[GPL'U]", "[MPL'U]", "[APL'U]", "[beth'U]", "[anti'Xa'U]", "[todd'U]", "[dye'U]", "[smgy'U]",
    "[bdsk'U]", "[ka'U]", "[knk'U]", "[mclg'U]", "[tb'U]", "[CCID_50]", "[TCID_50]", "[EID_50]",
    "[PFU]", "[FFU]", "[CFU]", "[IR]", "[BAU]", "[AU]", "[Amb'a'1'U]", "[PNU]", "[Lf]",
    "[D'ag'U]", "[FEU]", "[ELU]", "[EU]", "Ao", "b", "att", "[psi]", "circ", "sph", "[car_m]",
    "[car_Au]", "[smoot]"].map ascii

def specialCodes : List (List UInt8) :=
  ["[degF]", "[degRe]", "[p'diop]", "%[slope]", "[hp'_X]", "[hp'_C]", "[hp'_M]", "[hp'_Q]",
    "[pH]", "[m/s2/Hz^(1/2)]", "bit_s"].map ascii

def pinnedAtoms : List (List UInt8 × Atom) :=
  metricCodes.map (·, ⟨true, false⟩) ++ metricSpecialCodes.map (·, ⟨true, true⟩) ++
    plainCodes.map (·, ⟨false, false⟩) ++ specialCodes.map (·, ⟨false, true⟩)

def pinned : Dictionary := dictionary pinnedPrefixes pinnedAtoms

/-- **The pinned dictionary is plain.** -/
theorem pinned_plain : pinned.Plain :=
  dictionary_plain (by decide +kernel) (by decide +kernel)

end Pinned

end Units
end Standards
end Glaux
