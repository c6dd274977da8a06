import DTrace.Agg.LlqAgree

/-!
# Printing aggregations

The three ways an aggregation value reaches the output: the default at the end of tracing, `printa()` without a format, and
`printa()` with a `%@d` conversion.  The first two end in `dt_print_datum`, the third in the `pfprint_*` functions; all divide
by the normalization factor, with different mixtures of signed and unsigned operands.

* `quantline_iff`, `average_iff` — when an unsigned division prints the signed quotient;
* `normalised_print_iff` — when all three print the signed value divided by the factor.
-/

namespace DTrace.Agg

open List Nat
open BitVec hiding or_self

/-- The aggregating functions whose values are printed as normalized integers. -/
inductive AggFunc
  | avg
  | count
  | llquantize
  | lquantize
  | max
  | min
  | quantize
  | sum
  deriving DecidableEq, Repr

/-- The numbers printed: for every line the bin it is about (0 for a single value) and the number. -/
abbrev Output := List (ℕ × ℤ)

/-! ## `dt_consume.c` -/

/-- `DTRACE_QUANTIZE_NBUCKETS`. -/
def quantizeNbuckets : ℕ := 127

/-- `DTRACE_QUANTIZE_ZEROBUCKET`. -/
def quantizeZerobucket : ℕ := 63

def quantlines (data : List Datum) (normal : Datum) (first last : ℕ) : Output :=
  (List.range' first (last + 1 - first)).map fun i => (i, dtPrintQuantline (binAt data i) normal)

/-- The bins `dt_print_quantize` and `dt_print_lquantize` print; `dflt` when there is no data. -/
def quantWindow (data : List Datum) (top : ℕ) (dflt : ℕ × ℕ) : ℕ × ℕ :=
  if top < scanUp data then dflt
  else
    let last := scanDown data top
    (scanUp data - 1, if last < top then last + 1 else last)

/-- `dt_print_quantize`; `none` for `EDT_DMISMATCH`. -/
def dtPrintQuantize (data : List Datum) (normal : Datum) : Option Output :=
  if data.length ≠ quantizeNbuckets then none
  else
    let w := quantWindow data (quantizeNbuckets - 1) (quantizeZerobucket - 1, quantizeZerobucket + 1)
    some (quantlines data normal w.1 w.2)

/-- `DTRACE_LQUANTIZE_LEVELS`. -/
def lquantizeLevels (sig : Datum) : ℕ := ((sig &&& 0xffff00000000#64) >>> 32).toNat

def dtPrintLquantize (data : List Datum) (normal sig : Datum) : Option Output :=
  let levels := lquantizeLevels sig
  if data.length ≠ levels + 2 then none
  else
    let w := quantWindow data (levels + 1) (0, 2)
    some (quantlines data normal w.1 w.2)

/-- `dt_print_average`: signed throughout. -/
def dtPrintAverage (data : List Datum) (normal : Datum) : Output :=
  let count := binAt data 0
  [(0, if count ≠ 0 then ((binAt data 1).toInt.tdiv normal.toInt).tdiv count.toInt else 0)]

/-- `dt_print_datum` for the data record of an aggregation: 8 bytes are `(long long)*addr / normal`, which divides
unsigned, with `%lld`. -/
def dtPrintDatum (f : AggFunc) (data : List Datum) (normal sig : Datum) : Option Output :=
  match f with
  | .quantize => dtPrintQuantize data normal
  | .lquantize => dtPrintLquantize data normal sig
  | .llquantize => (dtPrintLlquantize data normal sig).map fun ls => ls.map fun l => (l.bin, l.number)
  | .avg => some (dtPrintAverage data normal)
  | .count | .max | .min | .sum => some [(0, (binAt data 0 / normal).toInt)]

/-- Default printing: `dtrace_aggregate_print` walks `dt_print_agg`. -/
def dtraceAggregatePrint (f : AggFunc) (data : List Datum) (normal sig : Datum) : Option Output :=
  dtPrintDatum f data normal sig

/-- `printa()` without a format: `dt_printa` walks `dt_print_agg` as well. -/
def dtPrinta (f : AggFunc) (data : List Datum) (normal sig : Datum) : Option Output :=
  dtPrintDatum f data normal sig

/-! ## `dt_printf.c` -/

/-- `pfprint_sint` on 8 bytes. -/
def pfprintSint (val normal : Datum) : ℤ := val.toInt.tdiv normal.toInt

/-- `pfprint_uint` on 8 bytes; the conversion has become `%llu`. -/
def pfprintUint (val normal : Datum) : ℤ := (val / normal).toNat

/-- The flag `DT_PFCONV_SIGNED` that `dt_printf_validate` gives a `%@d` conversion: all but `count()` is of a signed type.
Otherwise the conversion becomes `%llu`. -/
def dtPrintfValidate (kind : AggFunc) : Bool := kind ≠ .count

/-- `pfprint_dint`. -/
def pfprintDint (signed : Bool) (val normal : Datum) : ℤ :=
  if signed then pfprintSint val normal else pfprintUint val normal

/-- `pfprint_average`: unsigned division, with `%lld` or `%llu`; `none` for `EDT_DMISMATCH`. -/
def pfprintAverage (signed : Bool) (data : List Datum) (normal : Datum) : Option Output :=
  if data.length ≠ 2 then none
  else
    let val := if binAt data 0 ≠ 0 then binAt data 1 / normal / binAt data 0 else 0
    some [(0, if signed then val.toInt else val.toNat)]

/-- `dt_printf_format` for a `%@d` conversion. -/
def dtPrintfFormat (signed : Bool) (f : AggFunc) (data : List Datum) (normal sig : Datum) : Option Output :=
  match f with
  | .avg => pfprintAverage signed data normal
  | .quantize => dtPrintQuantize data normal
  | .lquantize => dtPrintLquantize data normal sig
  | .llquantize => (dtPrintLlquantize data normal sig).map fun ls => ls.map fun l => (l.bin, l.number)
  | .count | .max | .min | .sum => some [(0, pfprintDint signed (binAt data 0) normal)]

/-- `printa()` with a `%@d` conversion: `dtrace_fprinta` formats all aggregations of the statement with the format data
of the first one. -/
def dtraceFprinta (first f : AggFunc) (data : List Datum) (normal sig : Datum) : Option Output :=
  dtPrintfFormat (dtPrintfValidate first) f data normal sig

/-! ## Signed and unsigned quotients -/

section

variable {v n : Datum}

lemma toNat_of_nonneg (h : 0 ≤ v.toInt) : (v.toNat : ℤ) = v.toInt := by
  have := toInt_eq_toNat_cond v
  split at this <;> omega

lemma toNat_of_neg (h : v.toInt < 0) : (v.toNat : ℤ) = v.toInt + 2 ^ 64 := by
  have := toInt_eq_toNat_cond v
  split at this <;> omega

lemma toInt_of_lt (h : v.toNat < 2 ^ 63) : v.toInt = v.toNat := by
  have := toInt_eq_toNat_cond v
  split at this <;> omega

lemma toInt_udiv (hn : 2 ≤ n.toNat) : (v / n).toInt = (v.toNat / n.toNat : ℕ) := by
  have hlt : v.toNat / n.toNat < 2 ^ 63 := (div_lt_iff_lt_mul (by omega)).2 (by omega)
  rw [toInt_of_lt (by rwa [toNat_udiv]), toNat_udiv]

lemma toInt_udiv_of_nonneg (hv : 0 ≤ v.toInt) (hn : 1 ≤ n.toInt) : (v / n).toInt = v.toInt.tdiv n.toInt := by
  have hv' := toNat_of_nonneg hv
  have hn' := toNat_of_nonneg (v := n) (by omega)
  have hlt : v.toNat / n.toNat < 2 ^ 63 := (div_le_self _ _).trans_lt (by have := v.toInt_lt; omega)
  rw [toInt_of_lt (by rwa [toNat_udiv]), toNat_udiv, Int.tdiv_eq_ediv_of_nonneg hv, ← hv', ← hn']
  rfl

lemma tdiv_nonpos {a b : ℤ} (ha : a ≤ 0) (hb : 0 ≤ b) : a.tdiv b ≤ 0 := by
  have := Int.tdiv_nonneg (a := -a) (by omega) hb
  rw [Int.neg_tdiv] at this
  omega

/-- The unsigned division prints the signed quotient exactly of values that are not negative, or by the factor 1. -/
theorem quantline_iff (hn : 1 ≤ n.toInt) : dtPrintQuantline v n = v.toInt.tdiv n.toInt ↔ 0 ≤ v.toInt ∨ n = 1 := by
  unfold dtPrintQuantline
  have hn' := toNat_of_nonneg (v := n) (by omega)
  by_cases hv : 0 ≤ v.toInt
  · simp only [hv, true_or, iff_true]
    exact toInt_udiv_of_nonneg hv hn
  · by_cases h1 : n = 1
    · subst h1
      simp
    · -- the word of a negative value is at least 2^63, so its quotient is positive
      simp only [hv, h1, or_self, iff_false]
      have hn2 : 2 ≤ n.toNat := by
        have : n.toNat ≠ 1 := fun h => h1 (eq_of_toNat_eq h)
        omega
      have hv' := toNat_of_neg (v := v) (by omega)
      have hnlt := n.toInt_lt
      have hvge := v.le_toInt
      have hpos : 1 ≤ v.toNat / n.toNat := (one_le_div_iff (by omega)).2 (by omega)
      have hneg := tdiv_nonpos (a := v.toInt) (b := n.toInt) (by omega) (by omega)
      rw [toInt_udiv hn2]
      omega

/-- The two unsigned divisions of an average print the signed one exactly when the sum is not negative, nothing is divided,
or the word of the sum is smaller than the divisor. -/
theorem average_iff {c : Datum} (hn : 1 ≤ n.toInt) (hc : 1 ≤ c.toInt) :
    (v / n / c).toInt = (v.toInt.tdiv n.toInt).tdiv c.toInt ↔
      0 ≤ v.toInt ∨ n.toNat * c.toNat = 1 ∨ v.toNat < n.toNat * c.toNat := by
  have hn' := toNat_of_nonneg (v := n) (by omega)
  have hc' := toNat_of_nonneg (v := c) (by omega)
  by_cases hv : 0 ≤ v.toInt
  · have hq := toInt_udiv_of_nonneg hv hn
    have hq0 : 0 ≤ (v / n).toInt := by rw [hq]; exact Int.tdiv_nonneg hv (by omega)
    simp only [hv, true_or, iff_true]
    rw [toInt_udiv_of_nonneg hq0 hc, hq]
  · simp only [hv, false_or]
    by_cases h1 : n.toNat * c.toNat = 1
    · have hn1 : n = 1 := eq_of_toNat_eq (eq_one_of_mul_eq_one_right h1)
      have hc1 : c = 1 := eq_of_toNat_eq (eq_one_of_mul_eq_one_left h1)
      subst hn1 hc1
      simp
    · simp only [h1, false_or]
      have hv' := toNat_of_neg (v := v) (by omega)
      have hvge := v.le_toInt
      have hN : 2 ≤ n.toNat * c.toNat := by
        have : 1 ≤ n.toNat * c.toNat := Nat.mul_pos (by omega) (by omega)
        omega
      -- the printed number is a quotient that is not negative, the wanted one is not positive
      have hprint : (v / n / c).toInt = (v.toNat / (n.toNat * c.toNat) : ℕ) := by
        have hlt : v.toNat / (n.toNat * c.toNat) < 2 ^ 63 := (Nat.div_lt_iff_lt_mul (by omega)).2 (by omega)
        have hnat : (v / n / c).toNat = v.toNat / (n.toNat * c.toNat) := by
          rw [toNat_udiv, toNat_udiv, Nat.div_div_eq_div_mul]
        rw [toInt_of_lt (by rwa [hnat]), hnat]
      obtain ⟨m, hm⟩ : ∃ m : ℕ, v.toInt = -(m : ℤ) := ⟨(-v.toInt).toNat, by omega⟩
      have hwant : (v.toInt.tdiv n.toInt).tdiv c.toInt = -((m / (n.toNat * c.toNat) : ℕ) : ℤ) := by
        rw [hm, ← hn', ← hc', Int.neg_tdiv, Int.neg_tdiv, ← Int.ofNat_tdiv, ← Int.ofNat_tdiv, Nat.div_div_eq_div_mul]
      rw [hprint, hwant]
      constructor
      · intro h
        have h0 : v.toNat / (n.toNat * c.toNat) = 0 := by
          generalize v.toNat / (n.toNat * c.toNat) = q at h ⊢
          generalize m / (n.toNat * c.toNat) = q' at h
          omega
        exact (div_eq_zero_iff_lt (by omega)).1 h0
      · intro h
        rw [div_eq_of_lt h, div_eq_of_lt (by omega)]
        rfl

end

/-! ## The printed numbers -/

/-- The number wanted for a bin: the signed value divided by the factor, for an average the sum divided by the factor and
then by the count, truncated toward zero. -/
def normalised (f : AggFunc) (data : List Datum) (normal : Datum) (i : ℕ) : ℤ :=
  match f with
  | .avg => if binAt data 0 = 0 then 0 else ((binAt data 1).toInt.tdiv normal.toInt).tdiv (binAt data 0).toInt
  | _ => (binAt data i).toInt.tdiv normal.toInt

/-- The data an aggregation holds: one value; a count of updates and a sum; or bins.  The producer of `llquantize()` data
counts in the bins of values only. -/
def DataOk (f : AggFunc) (data : List Datum) (sig : Datum) : Prop :=
  match f with
  | .count | .max | .min | .sum => data.length = 1
  | .avg => data.length = 2 ∧ 0 ≤ (binAt data 0).toInt
  | .quantize => data.length = quantizeNbuckets
  | .lquantize => data.length = lquantizeLevels sig + 2
  | .llquantize => ∃ p : Llq, sig = p.sig ∧ data.length = p.nbins ∧ ∀ i, binAt data i ≠ 0 → ∃ v : Datum, p.bin v.toInt = i

/-- All three ways print the same numbers, and those are the normalised ones. -/
def PrintsNormalised (first f : AggFunc) (data : List Datum) (normal sig : Datum) : Prop :=
  ∃ out, dtraceAggregatePrint f data normal sig = some out ∧ dtPrinta f data normal sig = some out ∧
    dtraceFprinta first f data normal sig = some out ∧ ∀ x ∈ out, x.2 = normalised f data normal x.1

/-- The data for which signed and unsigned division do not differ, when the first aggregation of the `printa()` is
`first`. -/
def SignsAgree (first f : AggFunc) (data : List Datum) (normal : Datum) : Prop :=
  match f with
  | .count | .max | .min | .sum => 0 ≤ (binAt data 0).toInt ∨ first ≠ .count ∧ normal = 1
  | .avg => binAt data 0 = 0 ∨ 0 ≤ (binAt data 1).toInt ∨ first ≠ .count ∧ normal.toNat * (binAt data 0).toNat = 1 ∨
      (binAt data 1).toNat < normal.toNat * (binAt data 0).toNat
  | .quantize | .lquantize | .llquantize => (∀ i, 0 ≤ (binAt data i).toInt) ∨ normal = 1

section

variable {data : List Datum} {normal sig : Datum}

variable {out : Output} {first f : AggFunc}

lemma lines_iff (hn : 1 ≤ normal.toInt) (hnum : ∀ x ∈ out, x.2 = dtPrintQuantline (binAt data x.1) normal)
    (hall : ∀ i, binAt data i ≠ 0 → ∃ x ∈ out, x.1 = i) :
    (∀ x ∈ out, x.2 = (binAt data x.1).toInt.tdiv normal.toInt) ↔
      (∀ i, 0 ≤ (binAt data i).toInt) ∨ normal = 1 := by
  constructor
  · intro h
    by_cases h1 : normal = 1
    · exact .inr h1
    · refine .inl fun i => ?_
      by_cases h0 : binAt data i = 0
      · rw [h0]
        decide
      · obtain ⟨x, hx, rfl⟩ := hall i h0
        have := (quantline_iff hn).1 ((hnum x hx).symm.trans (h x hx))
        exact this.resolve_right h1
  · intro h x hx
    rw [hnum x hx]
    refine (quantline_iff hn).2 ?_
    rcases h with h | h
    · exact .inl (h x.1)
    · exact .inr h

lemma binAt_of_ge {i : ℕ} (h : data.length ≤ i) : binAt data i = 0 := getD_eq_default _ _ h

lemma quantlines_all {top : ℕ} {dflt : ℕ × ℕ} (hlen : data.length = top + 1) (i : ℕ) (h : binAt data i ≠ 0) :
    ∃ x ∈ quantlines data normal (quantWindow data top dflt).1 (quantWindow data top dflt).2, x.1 = i := by
  have hi : i ≤ top := by
    by_contra hc
    exact h (binAt_of_ge (by omega))
  have hup := scanUp_le_of_ne h
  have hdown := le_scanDown_of_ne h top hi
  refine ⟨(i, dtPrintQuantline (binAt data i) normal), ?_, rfl⟩
  unfold quantlines quantWindow
  rw [if_neg (by omega)]
  refine mem_map.2 ⟨i, mem_range'_1.2 ?_, rfl⟩
  dsimp only
  split <;> omega

lemma printsNormalised_iff (h : dtPrintDatum f data normal sig = some out)
    (h' : dtraceFprinta first f data normal sig = some out) :
    PrintsNormalised first f data normal sig ↔ ∀ x ∈ out, x.2 = normalised f data normal x.1 := by
  constructor
  · rintro ⟨out', ho, -, -, hx⟩
    have : some out = some out' := h.symm.trans ho
    cases this
    exact hx
  · exact fun hx => ⟨out, h, h, h', hx⟩

lemma scalar_iff {x y : ℤ} (h : dtPrintDatum f data normal sig = some [(0, x)])
    (h' : dtraceFprinta first f data normal sig = some [(0, y)]) :
    PrintsNormalised first f data normal sig ↔ x = normalised f data normal 0 ∧ y = normalised f data normal 0 := by
  constructor
  · rintro ⟨out, ho, -, hf, hx⟩
    have ho : some [(0, x)] = some out := h.symm.trans ho
    have hf : some [(0, y)] = some out := h'.symm.trans hf
    cases ho
    cases hf
    have := hx (0, x) (by simp)
    exact ⟨this, this⟩
  · rintro ⟨rfl, hy⟩
    rw [hy] at h'
    exact (printsNormalised_iff h h').2 (by simp)

lemma llquantize_lines (normal : Datum) {p : Llq} (hlen : data.length = p.nbins)
    (hbins : ∀ i, binAt data i ≠ 0 → ∃ v : Datum, p.bin v.toInt = i) : ∃ ls, dtPrintLlquantize data normal p.sig = some ls ∧
      (∀ x ∈ ls.map fun l => (l.bin, l.number), x.2 = dtPrintQuantline (binAt data x.1) normal) ∧
      ∀ i, binAt data i ≠ 0 → ∃ x ∈ ls.map fun l => (l.bin, l.number), x.1 = i := by
  obtain ⟨ls, hprint, hmem⟩ := mem_lines normal hlen
  refine ⟨ls, hprint, fun x hx => ?_, fun i hi => ?_⟩
  · obtain ⟨l, hl, rfl⟩ := mem_map.1 hx
    exact ((hmem l).1 hl).2.2.2.2
  · obtain ⟨v, rfl⟩ := hbins i hi
    obtain ⟨_, hprint', ⟨l, hl, hlb⟩, -⟩ := line_of_ne normal hlen (Llq.bin_lt _) hi label_bin_ne
    rw [hprint] at hprint'
    cases hprint'
    exact ⟨(l.bin, l.number), mem_map_of_mem hl, hlb⟩

lemma distribution_iff (hf : f = .quantize ∨ f = .lquantize ∨ f = .llquantize) (hn : 1 ≤ normal.toInt)
    (h : dtPrintDatum f data normal sig = some out) (hnum : ∀ x ∈ out, x.2 = dtPrintQuantline (binAt data x.1) normal)
    (hall : ∀ i, binAt data i ≠ 0 → ∃ x ∈ out, x.1 = i) :
    PrintsNormalised first f data normal sig ↔ (∀ i, 0 ≤ (binAt data i).toInt) ∨ normal = 1 := by
  have h' : dtraceFprinta first f data normal sig = some out := by
    rcases hf with rfl | rfl | rfl <;> exact h
  rw [printsNormalised_iff h h', ← lines_iff hn hnum hall]
  rcases hf with rfl | rfl | rfl <;> rfl

lemma pfprintDint_iff {signed : Bool} {v : Datum} (hn : 1 ≤ normal.toInt) :
    dtPrintQuantline v normal = v.toInt.tdiv normal.toInt ∧ pfprintDint signed v normal = v.toInt.tdiv normal.toInt ↔
      0 ≤ v.toInt ∨ signed = true ∧ normal = 1 := by
  rw [quantline_iff hn]
  cases signed with
  | true => simp [pfprintDint, pfprintSint]
  | false =>
    simp only [pfprintDint, Bool.false_eq_true, if_false, false_and, or_false]
    constructor
    · rintro ⟨hor, hu⟩
      by_contra hneg
      -- by the factor 1, an unsigned conversion shows a negative value as a large one
      have h1 : normal = 1 := hor.resolve_left hneg
      subst h1
      have hge : (0 : ℤ) ≤ pfprintUint v 1 := Int.natCast_nonneg _
      have hone : (1 : Datum).toInt = 1 := rfl
      rw [hu, hone, Int.tdiv_one] at hge
      exact hneg hge
    · intro hv
      refine ⟨.inl hv, ?_⟩
      have hq := toInt_udiv_of_nonneg hv hn
      rw [← hq]
      exact toNat_of_nonneg (by rw [hq]; exact Int.tdiv_nonneg hv (by omega))

lemma datum_iff (hf : f = .count ∨ f = .max ∨ f = .min ∨ f = .sum) (hn : 1 ≤ normal.toInt) :
    PrintsNormalised first f data normal sig ↔ 0 ≤ (binAt data 0).toInt ∨ first ≠ .count ∧ normal = 1 := by
  have h : dtPrintDatum f data normal sig = some [(0, dtPrintQuantline (binAt data 0) normal)] := by
    rcases hf with rfl | rfl | rfl | rfl <;> rfl
  have h' : dtraceFprinta first f data normal sig =
      some [(0, pfprintDint (dtPrintfValidate first) (binAt data 0) normal)] := by
    rcases hf with rfl | rfl | rfl | rfl <;> rfl
  have hnorm : normalised f data normal 0 = (binAt data 0).toInt.tdiv normal.toInt := by
    rcases hf with rfl | rfl | rfl | rfl <;> rfl
  rw [scalar_iff h h', hnorm, pfprintDint_iff hn, dtPrintfValidate, decide_eq_true_iff]

lemma shown_average_iff {signed : Bool} {v c : Datum} (hn : 1 ≤ normal.toInt) (hc : 1 ≤ c.toInt) :
    (if signed then (v / normal / c).toInt else (v / normal / c).toNat) = (v.toInt.tdiv normal.toInt).tdiv c.toInt ↔
      0 ≤ v.toInt ∨ signed = true ∧ normal.toNat * c.toNat = 1 ∨ v.toNat < normal.toNat * c.toNat := by
  cases signed with
  | true => simpa using average_iff hn hc
  | false =>
    simp only [Bool.false_eq_true, if_false, false_and, false_or]
    by_cases hv : 0 ≤ v.toInt
    · have hq := (average_iff (v := v) hn hc).2 (.inl hv)
      have hq0 : 0 ≤ (v / normal / c).toInt := by
        rw [hq]
        exact Int.tdiv_nonneg (Int.tdiv_nonneg hv (by omega)) (by omega)
      simp only [hv, true_or, iff_true]
      rw [toNat_of_nonneg hq0, hq]
    · -- the wanted number is not positive, so the printed one is zero
      have hn' := toNat_of_nonneg (v := normal) (by omega)
      have hc' := toNat_of_nonneg (v := c) (by omega)
      have hnat : (v / normal / c).toNat = v.toNat / (normal.toNat * c.toNat) := by
        rw [toNat_udiv, toNat_udiv, Nat.div_div_eq_div_mul]
      have hneg : (v.toInt.tdiv normal.toInt).tdiv c.toInt ≤ 0 :=
        tdiv_nonpos (tdiv_nonpos (by omega) (by omega)) (by omega)
      simp only [hv, false_or]
      constructor
      · intro h
        have h0 : (v / normal / c).toNat = 0 := by omega
        rw [hnat] at h0
        exact (div_eq_zero_iff_lt (Nat.mul_pos (by omega) (by omega))).1 h0
      · intro h
        have h0 : v / normal / c = 0#64 := eq_of_toNat_eq (by rw [hnat, div_eq_of_lt h]; rfl)
        rw [← (average_iff hn hc).2 (.inr (.inr h)), h0]
        rfl

/-- For every aggregation, all data in it, every factor from 1 up to `2^63` and whatever aggregation comes first in the
`printa()`, the three ways of printing give the signed quotient exactly where signed and unsigned division agree. -/
theorem normalised_print_iff {first f : AggFunc} (hn : 1 ≤ normal.toInt) (hdata : DataOk f data sig) :
    PrintsNormalised first f data normal sig ↔ SignsAgree first f data normal := by
  cases f with
  | count => exact datum_iff (.inl rfl) hn
  | max => exact datum_iff (.inr (.inl rfl)) hn
  | min => exact datum_iff (.inr (.inr (.inl rfl))) hn
  | sum => exact datum_iff (.inr (.inr (.inr rfl))) hn
  | avg =>
    obtain ⟨hlen, hcount⟩ := hdata
    have h : dtPrintDatum .avg data normal sig = some [(0, normalised .avg data normal 0)] := by
      simp only [dtPrintDatum, dtPrintAverage, normalised]
      by_cases hc : binAt data 0 = 0 <;> simp [hc]
    have h' : dtraceFprinta first .avg data normal sig = some [(0, _)] := if_neg (fun hne => hne hlen)
    rw [scalar_iff h h', and_iff_right rfl]
    change _ = (if _ then _ else _) ↔ (_ ∨ _)
    by_cases hc : binAt data 0 = 0
    · simp [hc]
    · have hc1 : 1 ≤ (binAt data 0).toInt := by
        have : (binAt data 0).toInt ≠ 0 := fun h0 => hc (eq_of_toInt_eq (by simpa using h0))
        omega
      rw [if_neg hc, if_pos hc, shown_average_iff hn hc1, dtPrintfValidate, decide_eq_true_iff]
      exact (or_iff_right hc).symm
  | quantize =>
    have hdata := hdata
    exact distribution_iff (.inl rfl) hn (if_neg (fun h => h hdata)) (forall_mem_map.2 fun _ _ => rfl)
      (quantlines_all hdata)
  | lquantize =>
    have hdata := hdata
    exact distribution_iff (.inr (.inl rfl)) hn (if_neg (fun h => h hdata)) (forall_mem_map.2 fun _ _ => rfl)
      (quantlines_all hdata)
  | llquantize =>
    obtain ⟨p, rfl, hlen, hbins⟩ := hdata
    obtain ⟨_, hprint, hnum, hall⟩ := llquantize_lines normal hlen hbins
    exact distribution_iff (.inr (.inr rfl)) hn (by rw [dtPrintDatum, hprint]; rfl) hnum hall

end

/-- A sum of 21 normalized by 2 is printed as 10 everywhere, behind a `count()` too. -/
theorem normalised_print_sum : PrintsNormalised .count .sum [21] 2 0 :=
  (normalised_print_iff (by decide) (by rfl)).2 (.inl (by decide))

/-- A sum of -10 normalized by 2 is printed as -5 by `%@d` and as a large positive number otherwise. -/
theorem normalised_print_negative_sum : dtraceFprinta .sum .sum [-10#64] 2 0 = some [(0, -5)] ∧
    dtraceAggregatePrint .sum [-10#64] 2 0 = some [(0, 9223372036854775803)] ∧
    ¬ PrintsNormalised .sum .sum [-10#64] 2 0 := by
  refine ⟨by decide, by decide, ?_⟩
  rintro ⟨_, hprint, -, hformat, -⟩
  have hne : dtraceAggregatePrint .sum [-10#64] 2 0 ≠ dtraceFprinta .sum .sum [-10#64] 2 0 := by decide
  exact hne (hprint.trans hformat.symm)

/-- Behind a `count()`, `%@d` shows a sum of -5 as an unsigned number. -/
example : dtraceFprinta .count .sum [-5#64] 1 0 = some [(0, 18446744073709551611)] := by decide

end DTrace.Agg
