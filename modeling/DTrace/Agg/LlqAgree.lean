import DTrace.Agg.LlqCode
import DTrace.Agg.LlqPrint
import Mathlib.Data.List.TakeDrop

/-!
# The code and the printer of a log-linear quantization agree

The bins the generated code computes, and the labels the printer gives them.

* `dtCgAggLlquantizeBin_computes` — the generated code computes `Llq.bin`;
* `labelsRight_iff` — the printed labels are the smallest magnitudes exactly when those have at most 14 digits: a label
  is cut after 15 characters, the first of which is a sign on the negative side;
* `llquantize_agreement_iff` — bins in range, monotone, symmetric, and rightly labelled;
* `zeroWeighed_iff` — sorting finds the weight at zero exactly when the number of the bin of 0 has 16 bits.
-/

namespace DTrace.Agg

open Lib Bpf Cg List Llq BitVec

/-! ## The code -/

/-- The code generated for the value `v` computes the bin `b`: there is code, and wherever it is placed, a run through it
ends with `b` in the register of the value, and only registers have changed. -/
def CodeBin (p : Llq) (v : Word) (b : ℕ) : Prop :=
  ∀ (φ : Type) (lbl : ℕ), lbl ≠ 0 → ∃ (code : List (Node (Insn φ))) (S : Regset) (lbl' : ℕ),
    dtCgAggLlquantizeBin p argRegset 8 lbl = some (code, S, lbl') ∧
    ∀ (C : Callee φ) (P : List (Node (Insn φ))) (pc : ℕ) (s : St φ), LabelsNodup P → At P pc code → s.regs 8 = v →
      ∃ s', BpfRuns C P (pc, s) (pc + code.length, s') ∧ s'.regs 8 = BitVec.ofNat 64 b ∧
        St.Only [8, 7, 6, 5, 4] s s'

theorem dtCgAggLlquantizeBin_computes (p : Llq) (v : Word) : CodeBin p v (p.bin v.toInt) := by
  intro φ lbl hlbl
  obtain ⟨S, hcode⟩ := dtCgAggLlquantizeBin_argRegset (φ := φ) p lbl
  refine ⟨_, S, _, hcode, ?_⟩
  intro C P pc s hP hat hv
  obtain ⟨s', hrun, hval, honly⟩ := binCode_runs hP hat hlbl s
  rw [hv] at hval
  exact ⟨s', hrun, hval, honly⟩

/-! ## The labels -/

open Nat

lemma sideBin_eq (p : Llq) (v : ℤ) : p.sideBin (decide (v < 0)) v.natAbs = (p.bin v : ℤ) := by
  have := @Llq.off_le p v.natAbs
  unfold sideBin Llq.bin
  have hU : p.underflowBin = 1 + p.ranges * p.perRange := rfl
  by_cases h : v < 0
  · simp [h, show ¬ 0 ≤ v by omega]
    omega
  · simp [h, show 0 ≤ v by omega]

/-- `v` falls neither in the underflow nor in an overflow bin. -/
def Regular (p : Llq) (v : ℤ) : Prop := 0 < p.off v.natAbs ∧ p.off v.natAbs ≤ p.ranges * p.perRange

instance (p : Llq) (v : ℤ) : Decidable (Regular p v) := by unfold Regular; infer_instance

variable {p : Llq} {data : List Datum} {v : Word} {t : ℕ}

lemma window_of_ne {b : ℕ} (hb : b < p.nbins) (h : binAt data b ≠ 0) :
    (llqWindow data p.nbins p.underflowBin).1 ≤ b ∧ b ≤ (llqWindow data p.nbins p.underflowBin).2 := by
  have hup := scanUp_le_of_ne h
  have hdown := le_scanDown_of_ne h (p.nbins - 1) (by omega)
  unfold llqWindow
  rw [if_neg (by omega)]
  refine ⟨by simp only; omega, ?_⟩
  dsimp only
  split <;> omega

lemma dtPrintLlquantize_sig (normal : Datum) (hlen : data.length = p.nbins) :
    dtPrintLlquantize data normal p.sig =
      let w := llqWindow data p.nbins p.underflowBin
      let c := llqLabels p.factor p.lmag p.hmag p.steps w.1 w.2
      some ((range' w.1 (w.2 + 1 - w.1)).filterMap fun i : ℕ =>
        if c i = [] then none else some ⟨i, c i, dtPrintQuantline (binAt data i) normal⟩) := by
  obtain ⟨h1, h2, h3, h4⟩ := p.decode_sig
  unfold dtPrintLlquantize
  simp only [h1, h2, h3, h4]
  rw [if_neg (by rw [hlen]; exact fun h => h rfl)]
  rfl

/-- The lines printed for accepted parameters: those of the labelled bins in the window. -/
lemma mem_lines (normal : Datum) (hlen : data.length = p.nbins) :
    ∃ lines, dtPrintLlquantize data normal p.sig = some lines ∧ ∀ l, l ∈ lines ↔
      (llqWindow data p.nbins p.underflowBin).1 ≤ l.bin ∧ l.bin ≤ (llqWindow data p.nbins p.underflowBin).2 ∧
      l.label = llqLabels p.factor p.lmag p.hmag p.steps (llqWindow data p.nbins p.underflowBin).1
        (llqWindow data p.nbins p.underflowBin).2 l.bin ∧
      l.label ≠ [] ∧ l.number = dtPrintQuantline (binAt data l.bin) normal := by
  refine ⟨_, dtPrintLlquantize_sig normal hlen, fun l => ?_⟩
  rw [mem_filterMap]
  constructor
  · rintro ⟨i, hi, h⟩
    split at h
    · cases h
    · next hne =>
      rw [mem_range'_1] at hi
      cases h
      exact ⟨hi.1, by dsimp only; omega, rfl, hne, rfl⟩
  · rintro ⟨hlo, hhi, hlab, hne, hnum⟩
    refine ⟨l.bin, mem_range'_1.2 ⟨hlo, by omega⟩, ?_⟩
    rw [hlab] at hne
    rw [if_neg hne, ← hlab, ← hnum]

/-- A labelled bin with data has a line, and its label is there. -/
lemma line_of_ne {b : ℕ} (normal : Datum) (hlen : data.length = p.nbins) (hb : b < p.nbins)
    (h : binAt data b ≠ 0) (hlabel : ∀ first last : ℕ, first ≤ b → b ≤ last →
      llqLabels p.factor p.lmag p.hmag p.steps first last b ≠ []) :
    ∃ lines, dtPrintLlquantize data normal p.sig = some lines ∧ (∃ l ∈ lines, l.bin = b) ∧
      ∀ l ∈ lines, l.bin = b → ∃ first last : ℕ, first ≤ b ∧ b ≤ last ∧
        l.label = llqLabels p.factor p.lmag p.hmag p.steps first last b := by
  obtain ⟨hlo, hhi⟩ := window_of_ne hb h
  obtain ⟨lines, hprint, hmem⟩ := mem_lines normal hlen
  refine ⟨lines, hprint, ⟨⟨b, _, dtPrintQuantline (binAt data b) normal⟩, (hmem _).2 ⟨hlo, hhi, rfl, hlabel _ _ hlo hhi, rfl⟩, rfl⟩, fun l hl hlb => ?_⟩
  obtain ⟨-, -, hlab, -⟩ := (hmem l).1 hl
  rw [hlb] at hlab
  exact ⟨_, _, hlo, hhi, hlab⟩

/-- The bin of a value determines on which side and how far out it is. -/
lemma bin_eq_iff {v w : ℤ} (hv : 0 < p.off v.natAbs) (h : p.bin w = p.bin v) :
    p.off w.natAbs = p.off v.natAbs ∧ (w < 0 ↔ v < 0) := by
  have h1 := @Llq.off_le p v.natAbs
  have h2 := @Llq.off_le p w.natAbs
  have hU : p.underflowBin = 1 + p.ranges * p.perRange := rfl
  unfold Llq.bin at h
  split at h <;> split at h <;> constructor <;> omega

/-- The magnitudes of the 64-bit values in the bin of `v`. -/
def magnitudes (p : Llq) (v : Word) : Set ℕ := {n | ∃ w : Word, p.bin w.toInt = p.bin v.toInt ∧ w.toInt.natAbs = n}

/-- Whatever data are printed, a bin that holds a value and has data gets a line, and outside the underflow and overflow
bins the label of the line is the smallest magnitude of the bin, with the sign of its values. -/
def LabelsRight (p : Llq) : Prop :=
  ∀ (data : List Datum) (normal : Datum) (v : Word), data.length = p.nbins → binAt data (p.bin v.toInt) ≠ 0 →
    ∃ lines, dtPrintLlquantize data normal p.sig = some lines ∧ (∃ l ∈ lines, l.bin = p.bin v.toInt) ∧
      (Regular p v.toInt → ∀ l ∈ lines, l.bin = p.bin v.toInt →
        ∃ n, IsLeast (magnitudes p v) n ∧ l.label = signedDecimal (decide (v.toInt < 0)) n)

/-- The labels of the last range have at most 14 digits. -/
def LabelsFit (p : Llq) : Prop :=
  p.factor ^ p.hmag < 10 ^ 14 ∧ (p.steps - 1) * (p.factor ^ (p.hmag + 1) / p.steps) < 10 ^ 14

instance (p : Llq) : Decidable (LabelsFit p) := by unfold LabelsFit; infer_instance

lemma isLeast_edge (h : Regular p v.toInt) : IsLeast (magnitudes p v) (p.edge (p.off v.toInt.natAbs)) := by
  obtain ⟨hle, hoff⟩ := edge_off h.1 h.2
  have hlt := v.toInt_lt
  have hge := v.le_toInt
  constructor
  · -- the edge is not larger than v, so it is a value on the same side
    set L := p.edge (p.off v.toInt.natAbs) with hL
    by_cases hneg : v.toInt < 0
    · have hw : (BitVec.ofInt 64 (-(L : ℤ))).toInt = -(L : ℤ) := toInt_ofInt_eq_self (by omega) (by omega) (by omega)
      refine ⟨.ofInt 64 (-(L : ℤ)), ?_, by rw [hw]; omega⟩
      have hL0 : 0 < L := by
        by_contra hc
        rw [show L = 0 by omega, off_zero] at hoff
        have := h.1
        omega
      rw [hw, Llq.bin, Llq.bin, if_neg (by omega), if_neg (by omega), Int.natAbs_neg, Int.natAbs_natCast, hoff]
    · have hw : (BitVec.ofInt 64 (L : ℤ)).toInt = (L : ℤ) := toInt_ofInt_eq_self (by omega) (by omega) (by omega)
      refine ⟨.ofInt 64 (L : ℤ), ?_, by rw [hw]; omega⟩
      rw [hw, Llq.bin, Llq.bin, if_pos (by omega), if_pos (by omega), Int.natAbs_natCast, hoff]
  · rintro n ⟨w, hw, rfl⟩
    obtain ⟨hoffw, -⟩ := bin_eq_iff h.1 hw
    rw [← hoffw]
    exact (edge_off (by rw [hoffw]; exact h.1) (by rw [hoffw]; exact h.2)).1

lemma label_regular (h : Regular p v.toInt) {first last : ℕ} (hlo : first ≤ p.bin v.toInt)
    (hhi : p.bin v.toInt ≤ last) : llqLabels p.factor p.lmag p.hmag p.steps first last (p.bin v.toInt) =
      (signedDecimal (decide (v.toInt < 0)) (p.edge (p.off v.toInt.natAbs))).take 15 := by
  rw [← sideBin_eq p v.toInt]
  exact label_eq h.1 h.2 (by rw [sideBin_eq]; exact_mod_cast hlo) (by rw [sideBin_eq]; exact_mod_cast hhi)

lemma label_bin_ne (first last : ℕ) (hlo : first ≤ p.bin v.toInt) (hhi : p.bin v.toInt ≤ last) :
    llqLabels p.factor p.lmag p.hmag p.steps first last (p.bin v.toInt) ≠ [] := by
  by_cases h : Regular p v.toInt
  · rw [label_regular h hlo hhi]
    simp [take_eq_nil_iff, signedDecimal_ne_nil]
  refine label_ne_nil ?_ (by exact_mod_cast hlo) (by exact_mod_cast hhi)
  have hU : p.underflowBin = 1 + p.ranges * p.perRange := rfl
  have hle := @Llq.off_le p v.toInt.natAbs
  have hoff : p.off v.toInt.natAbs = 0 ∨ p.off v.toInt.natAbs = p.underflowBin := by
    unfold Regular at h
    omega
  unfold Llq.bin nbins
  rcases hoff with hoff | hoff
  · left
    split <;> simp [hoff]
  · right
    split
    · right
      rw [hoff]
      push_cast
      omega
    · left
      simp [hoff]

lemma take_negDecimal {n : ℕ} : (negDecimal n).take 15 = negDecimal n ↔ n < 10 ^ 14 := by
  rw [take_eq_self_iff, negDecimal, length_cons, succ_le_succ_iff, decimal,
    length_toDigits_le_iff (by omega) (by omega)]

lemma take_signedDecimal {n : ℕ} (h : n < 10 ^ 14) (neg : Bool) : (signedDecimal neg n).take 15 = signedDecimal neg n := by
  cases neg with
  | true => exact take_negDecimal.2 h
  | false =>
    have hlen : (decimal n).length ≤ 14 := (length_toDigits_le_iff (by omega) (by omega)).2 h
    exact take_of_length_le (hlen.trans (by omega))

lemma edge_lt_of_fit (hfit : LabelsFit p) (h0 : 0 < p.off t) (hN : p.off t ≤ p.ranges * p.perRange) :
    p.edge (p.off t) < 10 ^ 14 := by
  obtain ⟨-, hr, hm, hk⟩ := off_eq_iff h0 hN
  have hhi := lt_pow_range hr
  have hind := ind_lt hhi
  have hfac := p.factor_le
  by_cases hsp : p.range t = 0 ∧ p.factor < p.steps
  · -- one value per bin, all below the factor
    have hle := (edge_off h0 hN).1
    rw [hsp.1, zero_add, pow_one] at hhi
    omega
  · unfold Llq.edge
    simp only [hm, hk, if_neg hsp]
    split
    · exact (Llq.pow_le_pow hr).trans_lt hfit.1
    · refine lt_of_le_of_lt (Nat.mul_le_mul ?_ ?_) hfit.2
      · have := @Llq.stepsFactor_add_perRange p
        omega
      · exact Nat.div_le_div_right (Llq.pow_le_pow (by omega))

lemma binAt_single {n i : ℕ} (hi : i < n) (j : ℕ) :
    binAt ((List.replicate n (0 : Datum)).set i 1) j = if i = j then 1 else 0 := by
  rw [binAt, getD_eq_getElem?_getD, getElem?_set, length_replicate]
  split
  · rfl
  · rw [getElem?_replicate]
    split <;> rfl

lemma edge_lt_of_right (h : LabelsRight p) (ht : t ≤ 2 ^ 63) (h0 : 0 < p.off t)
    (hN : p.off t ≤ p.ranges * p.perRange) : p.edge (p.off t) < 10 ^ 14 := by
  have ht0 : 0 < t := by
    by_contra hc
    rw [show t = 0 by omega, off_zero] at h0
    omega
  set v : Word := .ofInt 64 (-(t : ℤ)) with hv
  have hvi : v.toInt = -(t : ℤ) := toInt_ofInt_eq_self (by omega) (by omega) (by omega)
  have habs : v.toInt.natAbs = t := by rw [hvi]; omega
  have hreg : Regular p v.toInt := by rw [Regular, habs]; exact ⟨h0, hN⟩
  have hneg : decide (v.toInt < 0) = true := decide_eq_true (by omega)
  have hbin := @Llq.bin_lt p v.toInt
  -- print data with a single value in the bin of -t
  have hlen : ((List.replicate p.nbins (0 : Datum)).set (p.bin v.toInt) 1).length = p.nbins := by simp
  have hne : binAt ((List.replicate p.nbins (0 : Datum)).set (p.bin v.toInt) 1) (p.bin v.toInt) ≠ 0 := by
    rw [binAt_single hbin, if_pos rfl]
    decide
  obtain ⟨_, hprint, ⟨l, hl, hlb⟩, hlab⟩ := h _ 1 v hlen hne
  obtain ⟨n, hn, hln⟩ := hlab hreg l hl hlb
  have hnn : n = p.edge (p.off t) := by
    have := hn.unique (isLeast_edge hreg)
    rwa [habs] at this
  obtain ⟨_, hprint', -, huniq⟩ := line_of_ne 1 hlen hbin hne label_bin_ne
  rw [hprint] at hprint'
  cases hprint'
  obtain ⟨_, _, hlo, hhi, htext⟩ := huniq l hl hlb
  rw [hln, label_regular hreg hlo hhi, hneg, habs, hnn] at htext
  exact take_negDecimal.1 htext.symm

lemma off_regular {t m : ℕ} (hl : p.lmag ≤ m) (hh : m ≤ p.hmag) (h1 : p.factor ^ m ≤ t)
    (h2 : t < p.factor ^ (m + 1)) : 0 < p.off t ∧ p.off t ≤ p.ranges * p.perRange := by
  have hoff := off_of_range hl hh h1 h2
  have := mul_perRange_lt (range_sub_lt hl hh) (ind_lt h2)
  omega

lemma edge_same (h0 : 0 < p.off t) (hN : p.off t ≤ p.ranges * p.perRange) :
    p.factor ^ p.range t ≤ p.edge (p.off t) ∧
      p.edge (p.off t) * p.steps / p.factor ^ (p.range t + 1) = t * p.steps / p.factor ^ (p.range t + 1) := by
  obtain ⟨-, he⟩ := edge_off h0 hN
  obtain ⟨hlow, -, hm, hk⟩ := off_eq_iff h0 hN
  obtain ⟨hlow', -, hm', hk'⟩ := off_eq_iff (t := p.edge (p.off t)) (by rw [he]; exact h0) (by rw [he]; exact hN)
  rw [he] at hm' hk'
  rw [hm] at hm'
  have hpow := pow_range_le hlow'
  rw [← hm'] at hpow hk'
  have h1 := stepsFactor_le_quot hpow
  have h2 := stepsFactor_le_quot (pow_range_le hlow)
  have hind := hk'.symm.trans hk
  unfold Llq.ind at hind
  exact ⟨hpow, by omega⟩

theorem labelsRight_iff (p : Llq) : LabelsRight p ↔ LabelsFit p := by
  have hlh := p.lmag_le_hmag
  have hpow := p.pow_lt
  have hfac := p.factor_le
  have htwo := p.two_le_factor
  have hsucc : p.factor ^ (p.hmag + 1) = p.factor ^ p.hmag * p.factor := pow_succ _ _
  constructor
  · intro h
    -- the first bin of the last range
    have hfirst : p.factor ^ p.hmag < 10 ^ 14 := by
      have hlt : p.factor ^ p.hmag < p.factor ^ (p.hmag + 1) := Nat.pow_lt_pow_right htwo (by omega)
      have h63 : p.factor ^ p.hmag * 2 ≤ p.factor ^ p.hmag * p.factor := Nat.mul_le_mul_left _ htwo
      obtain ⟨h0, hN⟩ := off_regular hlh (le_refl _) (le_refl _) hlt
      have hr := range_eq hlh (le_refl _) (le_refl _) hlt
      have hle := (edge_same h0 hN).1
      rw [hr] at hle
      exact hle.trans_lt (edge_lt_of_right h (by omega) h0 hN)
    refine ⟨hfirst, ?_⟩
    by_cases hsp : p.hmag = 0 ∧ p.factor < p.steps
    · rw [hsp.1, zero_add, pow_one, div_eq_of_lt hsp.2]
      simp
    · -- the last bin of the last range
      have hu := unit_pos hlh hsp
      have hM :=
        Nat.mul_div_cancel' (steps_dvd hlh hsp)
      set u := p.factor ^ (p.hmag + 1) / p.steps with hudef
      have hL : (p.steps - 1) * u = p.factor ^ (p.hmag + 1) - u := by rw [Nat.sub_mul, Nat.one_mul, hM]
      by_contra hge
      have hM65 : p.factor ^ p.hmag * p.factor ≤ p.factor ^ p.hmag * 65535 := mul_le_mul_left _ hfac
      have hhi : (p.steps - 1) * u < p.factor ^ (p.hmag + 1) := by omega
      obtain ⟨h0, hN⟩ := off_regular hlh (le_refl _) (by omega) hhi
      have hr := range_eq hlh (le_refl _) (by omega) hhi
      have hlt := edge_lt_of_right h (by omega) h0 hN
      have hquot := (edge_same h0 hN).2
      rw [hr, quot_eq _ hlh hsp, quot_eq _ hlh hsp, ← hudef, Nat.mul_div_cancel _ hu] at hquot
      have hle : (p.steps - 1) * u ≤ p.edge (p.off ((p.steps - 1) * u)) :=
        calc (p.steps - 1) * u = p.edge (p.off ((p.steps - 1) * u)) / u * u := by rw [hquot]
          _ ≤ p.edge (p.off ((p.steps - 1) * u)) := Nat.div_mul_le_self _ _
      omega
  · intro hfit data normal v hlen hne
    have hbin := @Llq.bin_lt p v.toInt
    by_cases hreg : Regular p v.toInt
    · obtain ⟨lines, hprint, hmem, huniq⟩ := line_of_ne normal hlen hbin hne label_bin_ne
      refine ⟨lines, hprint, hmem, fun _ l hl hlb => ⟨_, isLeast_edge hreg, ?_⟩⟩
      obtain ⟨_, _, hlo, hhi, htext⟩ := huniq l hl hlb
      rw [htext, label_regular hreg hlo hhi, take_signedDecimal (edge_lt_of_fit hfit hreg.1 hreg.2)]
    · obtain ⟨lines, hprint, hmem, -⟩ := line_of_ne normal hlen hbin hne label_bin_ne
      exact ⟨lines, hprint, hmem, fun h => absurd h hreg⟩

/-- For every accepted set of parameters the generated code computes a bin for every value; bins are in range, monotone and
symmetric around the underflow bin; and the printer labels them rightly exactly when the labels fit their 16 bytes. -/
theorem llquantize_agreement_iff (p : Llq) :
    ((∀ v : Word, CodeBin p v (p.bin v.toInt)) ∧ (∀ v : Word, p.bin v.toInt < p.nbins) ∧
      (∀ v w : Word, v.toInt ≤ w.toInt → p.bin v.toInt ≤ p.bin w.toInt) ∧
      (∀ v w : Word, w.toInt = -v.toInt → p.bin w.toInt + p.bin v.toInt = 2 * p.underflowBin) ∧ LabelsRight p) ↔
      LabelsFit p := by
  rw [labelsRight_iff]
  refine ⟨fun h => h.2.2.2.2, fun h => ⟨dtCgAggLlquantizeBin_computes p, fun v => bin_lt _,
    fun v w hvw => bin_mono hvw, fun v w hw => ?_, h⟩⟩
  rw [hw]
  exact bin_neg _

/-- `llquantize(x, 10, 0, 14, 10)` is accepted, and prints the value `-10^14` under the label `-10000000000000`. -/
theorem llquantize_label_cut : ∃ p, dtCgAggLlquantizeArgs (some ⟨10, true⟩) (some ⟨0, true⟩) (some ⟨14, true⟩)
    (some ⟨10, true⟩) = .ok p ∧ ¬ LabelsRight p := by
  refine ⟨_, rfl, fun h => ?_⟩
  have := (labelsRight_iff _).1 h
  exact absurd this (by decide)

/-! ## The weight at zero -/

/-- `dt_aggregate_llquantizedzero`: the number of the underflow bin is kept in 16 bits. -/
def dtAggregateLlquantizedzero (llquanta : List Datum) (sig : Datum) : Datum :=
  binAt llquanta ((1 + (sigHmag sig - sigLmag sig + 1) * (sigSteps sig - sigSteps sig / sigFactor sig)) % 2 ^ 16)

/-- The generated code counts 0 in its bin, and sorting takes the weight at zero from the same bin. -/
def ZeroWeighed (p : Llq) : Prop :=
  CodeBin p 0 (p.bin 0) ∧ ∀ data : List Datum, data.length = p.nbins →
    dtAggregateLlquantizedzero data p.sig = binAt data (p.bin 0)

lemma bin_zero (p : Llq) : p.bin 0 = p.underflowBin := by
  rw [Llq.bin, if_pos (le_refl 0), Int.natAbs_zero, off_zero, add_zero]

/-- The weight at zero is taken from the bin where the code counts 0, exactly if the number of that bin, which
`dt_aggregate_llquantizedzero` keeps in 16 bits, fits. -/
theorem zeroWeighed_iff (p : Llq) :
    ZeroWeighed p ↔ (p.hmag - p.lmag + 1) * (p.steps - p.steps / p.factor) < 65535 := by
  have hbin : p.bin 0 = 1 + (p.hmag - p.lmag + 1) * (p.steps - p.steps / p.factor) := bin_zero p
  obtain ⟨h1, h2, h3, h4⟩ := p.decode_sig
  have hzero (data : List Datum) :
      dtAggregateLlquantizedzero data p.sig = binAt data (p.bin 0 % 2 ^ 16) := by
    rw [dtAggregateLlquantizedzero, h1, h2, h3, h4, hbin]
  constructor
  · rintro ⟨-, h⟩
    -- all the weight is in the bin of 0
    have hdata := h ((List.replicate p.nbins 0).set (p.bin 0) 1) (by simp)
    rw [hzero, binAt_single (bin_lt 0), binAt_single (bin_lt 0), if_pos rfl] at hdata
    by_contra hge
    rw [if_neg (by omega)] at hdata
    cases hdata
  · intro hlt
    refine ⟨dtCgAggLlquantizeBin_computes p 0, fun data _ => ?_⟩
    rw [hzero, mod_eq_of_lt (by omega)]

/-- `llquantize(x, 2, 14, 17, 32768)` is accepted: 0 is counted in the bin 65537, and sorting looks at the bin 1. -/
theorem zeroWeighed_wraps : ∃ p, dtCgAggLlquantizeArgs (some ⟨2, true⟩) (some ⟨14, true⟩) (some ⟨17, true⟩)
    (some ⟨32768, true⟩) = .ok p ∧ p.bin 0 = 65537 ∧ ¬ZeroWeighed p := by
  refine ⟨_, rfl, by decide, fun h => ?_⟩
  have := (zeroWeighed_iff _).1 h
  exact absurd this (by decide)

end DTrace.Agg
