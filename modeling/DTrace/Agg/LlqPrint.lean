import DTrace.Agg.Llquantize
import DTrace.Agg.Quantline

/-!
# Printing a log-linear distribution

`dt_print_llquantize`: the labels, written one by one into an array of 16-byte texts, the repair of a label missing at the
ends of the printed range, and the lines.

* `label_eq` — the label of a bin that can hold data is the decimal text of the smallest magnitude of the bin, cut after
  15 characters;
* `line_of_ne` — a bin with data that can hold data has a line.
-/

namespace DTrace.Agg

open List Function Nat

abbrev Text := List Char

def decimal (n : ℕ) : Text := Nat.toDigits 10 n

def negDecimal (n : ℕ) : Text := '-' :: decimal n

structure LlqLine where
  bin : ℕ
  label : Text
  number : ℤ
  deriving DecidableEq, Repr

/-- `CPRINT`: write a label if its bin is in the range of the array; `snprintf` into 16 bytes keeps 15 characters. -/
def cprint (lo hi : ℤ) (c : ℤ → Text) (w : ℤ × Text) : ℤ → Text :=
  if lo ≤ w.1 ∧ w.1 ≤ hi then update c w.1 (w.2.take 15) else c

/-- The two labels at distance `i` from the underflow bin. -/
def labelPair (bin0 : ℤ) (i n : ℕ) : List (ℤ × Text) := [(bin0 - i, negDecimal n), (bin0 + i, decimal n)]

section

variable (bin0 : ℤ) (factor steps stepsFactor : ℕ)

/-- The loop over the values below the factor, when a step is smaller than one. -/
def lowWrites : ℕ → ℕ → ℕ → List (ℤ × Text)
  | 0, _, _ => []
  | n + 1, step, i => labelPair bin0 (i + stepsFactor) step ++ lowWrites n (step + 1) (i + stepsFactor)

/-- The inner loop: the steps of one range. -/
def stepWrites (scale : ℕ) : ℕ → ℕ → ℕ → List (ℤ × Text)
  | 0, _, _ => []
  | n + 1, step, i => labelPair bin0 (i + 1) (step * scale) ++ stepWrites scale n (step + 1) (i + 1)

def magWrites : ℕ → ℕ → ℕ → List (ℤ × Text)
  | 0, _, _ => []
  | n + 1, scale, i => stepWrites bin0 scale (steps - stepsFactor) (stepsFactor + 1) i ++
      magWrites n (scale * factor) (i + (steps - stepsFactor))

end

/-- The calls of `CPRINT` for the bins of the ranges, in order. -/
def llqRangeWrites (bin0 : ℤ) (factor lmag hmag steps : ℕ) : List (ℤ × Text) :=
  let stepsFactor := steps / factor
  let low := if lmag = 0 ∧ steps > factor then lowWrites bin0 stepsFactor (factor - 1) 2 1 else []
  let mag := if lmag = 0 ∧ steps > factor then lmag + 1 else lmag
  let i := if lmag = 0 ∧ steps > factor then 1 + (factor - 1) * stepsFactor else 1
  labelPair bin0 1 (factor ^ lmag) ++ low ++
    magWrites bin0 factor steps stepsFactor (hmag + 1 - mag) (factor ^ (mag + 1) / steps) i

def llqWrites (factor lmag hmag steps firstBin : ℕ) : List (ℤ × Text) :=
  let bin0 := 1 + (hmag - lmag + 1) * (steps - steps / factor)
  let nbins := (hmag - lmag + 1) * (steps - steps / factor) * 2 + 2 + 1
  let scale := factor ^ lmag
  let top := factor ^ (hmag + 1)
  let under : Text := if scale = 1 then decimal 0
    else if firstBin ≥ bin0 then ['<', ' '] ++ decimal scale
    else ['a', 'b', 's', '(', ')', ' ', '<', ' '] ++ decimal scale
  ((bin0 : ℤ), under) :: llqRangeWrites bin0 factor lmag hmag steps ++
    [(0, ['<', '=', ' '] ++ negDecimal top), ((nbins : ℤ) - 1, ['>', '=', ' '] ++ decimal top)]

/-- The nearest label at distance `k, k + 1, …` in the direction `dir`, with `n` distances to try. -/
def nearest (c : ℤ → Text) (bin dir : ℤ) : ℕ → ℕ → Option Text
  | 0, _ => none
  | n + 1, k => if c (bin + dir * k) ≠ [] then some (c (bin + dir * k)) else nearest c bin dir n (k + 1)

/-- The repair of one end: a missing label is copied from a bin further out, less than `pad` away. -/
def ghostFix (pad : ℕ) (bin dir : ℤ) (c : ℤ → Text) : ℤ → Text :=
  if c bin = [] then
    match nearest c bin dir (pad - 1) 1 with
    | some t => update c bin t
    | none => c
  else c

def llqWindow (data : List Datum) (nbins bin0 : ℕ) : ℕ × ℕ :=
  let (first, last) := if nbins ≤ scanUp data then (bin0 + 1, bin0 + 1) else (scanUp data, scanDown data (nbins - 1))
  (first - 1, if last < nbins - 1 then last + 1 else last)

/-- The labels of the bins from `first` to `last`. -/
def llqLabels (factor lmag hmag steps first last : ℕ) : ℤ → Text :=
  let pad := if lmag = 0 ∧ steps > factor then steps / factor else 0
  let c := (llqWrites factor lmag hmag steps first).foldl (cprint ((first : ℤ) - pad) ((last : ℤ) + pad)) fun _ => []
  if pad > 0 then ghostFix pad last 1 (ghostFix pad first (-1) c) else c

/-- `dt_print_llquantize`; `none` for `EDT_DMISMATCH`. -/
def dtPrintLlquantize (data : List Datum) (normal sig : Datum) : Option (List LlqLine) :=
  let factor := Llq.sigFactor sig
  let lmag := Llq.sigLmag sig
  let hmag := Llq.sigHmag sig
  let steps := Llq.sigSteps sig
  let bin0 := 1 + (hmag - lmag + 1) * (steps - steps / factor)
  let nbins := (hmag - lmag + 1) * (steps - steps / factor) * 2 + 2 + 1
  if data.length ≠ nbins then none
  else
    let (first, last) := llqWindow data nbins bin0
    let c := llqLabels factor lmag hmag steps first last
    some ((List.range' first (last + 1 - first)).filterMap fun i : ℕ =>
      if c i = [] then none else some ⟨i, c i, dtPrintQuantline (binAt data i) normal⟩)

/-! ## The labels written -/

variable {x : ℤ × Text} {bin0 : ℤ}

section

variable {factor steps stepsFactor : ℕ}

lemma mem_lowWrites : ∀ {n step i : ℕ}, x ∈ lowWrites bin0 stepsFactor n step i ↔
    ∃ d < n, x ∈ labelPair bin0 (i + (d + 1) * stepsFactor) (step + d)
  | 0, step, i => by simp [lowWrites]
  | n + 1, step, i => by
    have hbin (d : ℕ) : i + stepsFactor + (d + 1) * stepsFactor = i + (d + 1 + 1) * stepsFactor := by ring
    have hstep (d : ℕ) : step + 1 + d = step + (d + 1) := by omega
    rw [lowWrites, mem_append, mem_lowWrites, exists_lt_succ_left]
    simp only [hbin, hstep, zero_add, one_mul, add_zero]

lemma mem_stepWrites {scale : ℕ} : ∀ {n step i : ℕ}, x ∈ stepWrites bin0 scale n step i ↔
    ∃ d < n, x ∈ labelPair bin0 (i + (d + 1)) ((step + d) * scale)
  | 0, step, i => by simp [stepWrites]
  | n + 1, step, i => by
    have hbin (d : ℕ) : i + 1 + (d + 1) = i + (d + 1 + 1) := by omega
    have hstep (d : ℕ) : step + 1 + d = step + (d + 1) := by omega
    rw [stepWrites, mem_append, mem_stepWrites, exists_lt_succ_left]
    simp only [hbin, hstep, zero_add, add_zero]

lemma mem_magWrites : ∀ {n scale i : ℕ}, x ∈ magWrites bin0 factor steps stepsFactor n scale i ↔
    ∃ a < n, x ∈ stepWrites bin0 (scale * factor ^ a) (steps - stepsFactor) (stepsFactor + 1)
      (i + a * (steps - stepsFactor))
  | 0, scale, i => by simp [magWrites]
  | n + 1, scale, i => by
    have hscale (a : ℕ) : scale * factor * factor ^ a = scale * factor ^ (a + 1) := by ring
    have hbin (a : ℕ) : i + (steps - stepsFactor) + a * (steps - stepsFactor) = i + (a + 1) * (steps - stepsFactor) := by
      ring
    rw [magWrites, mem_append, mem_magWrites, exists_lt_succ_left]
    simp only [hscale, hbin, pow_zero, mul_one, zero_mul, add_zero]

end

/-- What every text written to a cell has, the cell has, if one is written or the cell had it before. -/
lemma foldl_cprint {lo hi b : ℤ} {P : Text → Prop} (hlo : lo ≤ b) (hhi : b ≤ hi) : ∀ (w : List (ℤ × Text)) (c : ℤ → Text),
    (∀ x ∈ w, x.1 = b → P (x.2.take 15)) → ((∃ x ∈ w, x.1 = b) ∨ P (c b)) → P (w.foldl (cprint lo hi) c b)
  | [], c, _, h => by simpa using h
  | x :: w, c, hall, h => by
    rw [foldl_cons]
    refine foldl_cprint hlo hhi w _ (fun y hy => hall y (mem_cons_of_mem _ hy)) ?_
    by_cases hx : x.1 = b
    · refine .inr ?_
      rw [cprint, if_pos ⟨by omega, by omega⟩, hx, update_self]
      exact hall x mem_cons_self hx
    · rcases h with ⟨y, hy, hyb⟩ | hc
      · rcases mem_cons.1 hy with rfl | hy
        · exact absurd hyb hx
        · exact .inl ⟨y, hy, hyb⟩
      · refine .inr ?_
        unfold cprint
        split
        · rwa [update_of_ne (Ne.symm hx)]
        · exact hc

/-! ## The labels are the smallest magnitudes -/

variable {p : Llq}

namespace Llq

lemma edge_one : p.edge 1 = p.factor ^ p.lmag := by
  unfold edge
  by_cases h : p.lmag = 0 ∧ p.factor < p.steps
  · simp [h]
  · simp [h]

lemma edge_low (hl : p.lmag = 0) (hgt : p.factor < p.steps) {d : ℕ} (hd : d < p.factor - 1) :
    p.edge (1 + (d + 1) * p.stepsFactor) = 2 + d := by
  have hpos : 0 < p.stepsFactor := Nat.div_pos hgt.le factor_pos
  have hpr : p.perRange = (p.factor - 1) * p.stepsFactor := by
    rw [Nat.sub_mul, Nat.one_mul, Nat.mul_comm, stepsFactor_mul hgt.le, perRange]
  unfold edge
  simp only [Nat.add_sub_cancel_left, hl, Nat.zero_add, hpr]
  rcases Nat.lt_or_ge (d + 1) (p.factor - 1) with hlt | hge
  · have hlt' := Nat.mul_lt_mul_of_pos_right hlt hpos
    rw [Nat.div_eq_of_lt hlt', Nat.mod_eq_of_lt hlt', if_pos ⟨rfl, hgt⟩, Nat.mul_div_cancel _ hpos]
    omega
  · -- the last one is the first bin of the next range
    have he : d + 1 = p.factor - 1 := by omega
    have hpos' : 0 < (p.factor - 1) * p.stepsFactor := Nat.mul_pos (by omega) hpos
    rw [he, Nat.div_self hpos', Nat.mod_self]
    simp
    omega

variable {m : ℕ}

/-- In the other ranges, a label is a multiple of the unit; the last step is the first bin of the next range. -/
lemma edge_step {k : ℕ} (hl : p.lmag ≤ m) (hsp : ¬ (m = 0 ∧ p.factor < p.steps)) (hk : 0 < k) (hk' : k ≤ p.perRange) :
    p.edge (1 + (m - p.lmag) * p.perRange + k) = (p.stepsFactor + k) * (p.factor ^ (m + 1) / p.steps) := by
  unfold edge
  rw [show 1 + (m - p.lmag) * p.perRange + k - 1 = p.perRange * (m - p.lmag) + k by rw [mul_comm p.perRange]; omega]
  rcases lt_or_ge k p.perRange with hlt | hge
  · rw [mul_add_div perRange_pos, div_eq_of_lt hlt, mul_add_mod, mod_eq_of_lt hlt,
      show p.lmag + (m - p.lmag + 0) = m by omega]
    simp only [if_neg hsp, if_neg (show ¬ k = 0 by omega)]
  · have he : k = p.perRange := by omega
    rw [he, show p.perRange * (m - p.lmag) + p.perRange = p.perRange * (m - p.lmag + 1) by ring,
      Nat.mul_div_cancel_left _ perRange_pos, Nat.mul_mod_right, show p.lmag + (m - p.lmag + 1) = m + 1 by omega,
      stepsFactor_add_perRange, Nat.mul_div_cancel' (steps_dvd hl hsp)]
    simp

lemma unit_mul (hl : p.lmag ≤ m) (hsp : ¬ (m = 0 ∧ p.factor < p.steps)) (a : ℕ) :
    p.factor ^ (m + 1) / p.steps * p.factor ^ a = p.factor ^ (m + a + 1) / p.steps := by
  rw [Nat.div_mul_right_comm (steps_dvd hl hsp), ← pow_add, show m + 1 + a = m + a + 1 by omega]

/-- The range from which on the labels are multiples of a unit. -/
def firstMag (p : Llq) : ℕ := if p.lmag = 0 ∧ p.steps > p.factor then p.lmag + 1 else p.lmag

lemma firstMag_spec (h : p.firstMag ≤ m) : p.lmag ≤ m ∧ ¬ (m = 0 ∧ p.factor < p.steps) := by
  unfold firstMag at h
  split at h
  · exact ⟨by omega, by omega⟩
  · next hc => exact ⟨h, fun hm => hc ⟨by omega, hm.2⟩⟩

lemma low_of_lt_firstMag (hl : p.lmag ≤ m) (h : ¬p.firstMag ≤ m) : m = 0 ∧ p.lmag = 0 ∧ p.steps > p.factor := by
  unfold firstMag at h
  split at h
  · next hc => exact ⟨by omega, hc⟩
  · exact absurd hl h

lemma firstMag_index : (if p.lmag = 0 ∧ p.steps > p.factor then 1 + (p.factor - 1) * p.stepsFactor else 1) =
    1 + (p.firstMag - p.lmag) * p.perRange := by
  unfold firstMag
  split
  · next h =>
    rw [Nat.add_sub_cancel_left, Nat.one_mul, Nat.sub_mul, Nat.one_mul, Nat.mul_comm p.factor, stepsFactor_mul h.2.le, perRange]
  · simp

lemma mem_rangeWrites : x ∈ llqRangeWrites bin0 p.factor p.lmag p.hmag p.steps ↔
    x ∈ labelPair bin0 1 (p.edge 1) ∨
    (p.lmag = 0 ∧ p.factor < p.steps ∧ ∃ d < p.factor - 1,
      x ∈ labelPair bin0 (1 + (d + 1) * p.stepsFactor) (p.edge (1 + (d + 1) * p.stepsFactor))) ∨
    ∃ m k, p.firstMag ≤ m ∧ m ≤ p.hmag ∧ 0 < k ∧ k ≤ p.perRange ∧
      x ∈ labelPair bin0 (1 + (m - p.lmag) * p.perRange + k) (p.edge (1 + (m - p.lmag) * p.perRange + k)) := by
  unfold llqRangeWrites
  simp only [mem_append, or_assoc]
  refine or_congr (by rw [edge_one]) (or_congr ?_ ?_)
  · by_cases hc : p.lmag = 0 ∧ p.steps > p.factor
    · rw [if_pos hc, mem_lowWrites]
      simp only [hc.1, hc.2, true_and]
      refine exists_congr fun d => and_congr_right fun hd => ?_
      rw [edge_low hc.1 hc.2 hd]
      rfl
    · rw [if_neg hc]
      simp only [not_mem_nil, false_iff]
      exact fun h => hc ⟨h.1, h.2.1⟩
  · have hidx := @firstMag_index p
    change x ∈ magWrites bin0 p.factor p.steps p.stepsFactor (p.hmag + 1 - p.firstMag)
      (p.factor ^ (p.firstMag + 1) / p.steps)
      (if p.lmag = 0 ∧ p.steps > p.factor then 1 + (p.factor - 1) * p.stepsFactor else 1) ↔ _
    rw [hidx, mem_magWrites]
    obtain ⟨hfl, hfs⟩ := @firstMag_spec p p.firstMag (le_refl _)
    -- the pass a of the outer loop is the range firstMag + a, the pass d of the inner one the step d + 1
    have hpair : ∀ a d, d < p.perRange →
        labelPair bin0 (1 + (p.firstMag - p.lmag) * p.perRange + a * (p.steps - p.stepsFactor) + (d + 1))
          ((p.stepsFactor + 1 + d) * (p.factor ^ (p.firstMag + 1) / p.steps * p.factor ^ a)) =
        labelPair bin0 (1 + (p.firstMag + a - p.lmag) * p.perRange + (d + 1))
          (p.edge (1 + (p.firstMag + a - p.lmag) * p.perRange + (d + 1))) := by
      intro a d hd
      obtain ⟨hl, hsp⟩ := @firstMag_spec p (p.firstMag + a) (by omega)
      rw [edge_step hl hsp (by omega) (by omega), unit_mul hfl hfs a,
        show p.stepsFactor + 1 + d = p.stepsFactor + (d + 1) by omega]
      congr 2
      rw [show p.firstMag + a - p.lmag = p.firstMag - p.lmag + a by omega, add_mul, ← add_assoc]
      rfl
    constructor
    · rintro ⟨a, ha, h⟩
      obtain ⟨d, hd, h⟩ := mem_stepWrites.1 h
      rw [hpair a d hd] at h
      exact ⟨p.firstMag + a, d + 1, by omega, by omega, by omega, hd, h⟩
    · rintro ⟨m, k, hm, hh, hk, hk', h⟩
      refine ⟨m - p.firstMag, by omega, mem_stepWrites.2 ⟨k - 1, show k - 1 < p.perRange by omega, ?_⟩⟩
      rw [hpair _ _ (by omega)]
      rwa [show p.firstMag + (m - p.firstMag) = m by omega, show k - 1 + 1 = k by omega]

/-- Every bin of the ranges that can hold data is labelled, with its smallest magnitude. -/
lemma mem_rangeWrites_of_off {t : ℕ} (h0 : 0 < p.off t) (hN : p.off t ≤ p.ranges * p.perRange)
    (hx : x ∈ labelPair bin0 (p.off t) (p.edge (p.off t))) : x ∈ llqRangeWrites bin0 p.factor p.lmag p.hmag p.steps := by
  obtain ⟨hlow, hr, -, -⟩ := off_eq_iff h0 hN
  have hl := @lmag_le_range p t
  have hhi := lt_pow_range hr
  have hoff := off_of_range hl hr (pow_range_le hlow) hhi
  have hind := ind_lt hhi
  have hpr := @perRange_pos p
  rw [mem_rangeWrites]
  generalize hm : p.range t = m at *
  by_cases hj1 : p.off t = 1
  · rw [hj1] at hx
    exact .inl hx
  right
  by_cases hfm : p.firstMag ≤ m
  · -- a range with units: the bin is one of its steps, or the last step of the range below
    by_cases hk : p.ind m t = 0
    · have hlm : p.lmag < m := by
        rcases eq_or_lt_of_le hl with he | hlt
        · rw [hoff, hk, ← he] at hj1
          simp at hj1
        · exact hlt
      by_cases hfm' : p.firstMag ≤ m - 1
      · refine .inr ⟨m - 1, p.perRange, hfm', by omega, hpr, le_refl _, ?_⟩
        have : 1 + (m - 1 - p.lmag) * p.perRange + p.perRange = p.off t := by
          rw [hoff, hk, show m - p.lmag = m - 1 - p.lmag + 1 by omega, add_mul, one_mul]
          omega
        rwa [this]
      · -- the range below is the range 0 with more steps than values
        obtain ⟨-, hsp⟩ := low_of_lt_firstMag (by omega) hfm'
        have hfe : p.firstMag = 1 := by rw [firstMag, if_pos hsp, hsp.1]
        refine .inl ⟨hsp.1, hsp.2, p.factor - 2, by have := p.two_le_factor; omega, ?_⟩
        have hidx := @firstMag_index p
        rw [if_pos hsp, hfe, hsp.1] at hidx
        have : 1 + (p.factor - 2 + 1) * p.stepsFactor = p.off t := by
          rw [hoff, hk, show p.factor - 2 + 1 = p.factor - 1 by have := p.two_le_factor; omega, hidx, hsp.1,
            show m = 1 by omega, add_zero]
        rwa [this]
    · refine .inr ⟨m, p.ind m t, hfm, hr, by omega, by omega, ?_⟩
      rwa [← hoff]
  · -- the range 0 with more steps than values
    obtain ⟨rfl, hsp⟩ := low_of_lt_firstMag hl hfm
    have hkey : p.off t = 1 + (t - 1) * p.stepsFactor := by
      rw [hoff, ind, quot_zero hsp.2, Nat.sub_mul t, Nat.one_mul, Nat.zero_sub, Nat.zero_mul, Nat.add_zero]
    have ht : t < p.factor := by simpa using hhi
    have ht2 : 2 ≤ t := by
      by_contra hc
      rw [show t - 1 = 0 by omega] at hkey
      omega
    refine .inl ⟨hsp.1, hsp.2, t - 2, by omega, ?_⟩
    rwa [show t - 2 + 1 = t - 1 by omega, ← hkey]

lemma edge_of_mem_rangeWrites (hx : x ∈ llqRangeWrites bin0 p.factor p.lmag p.hmag p.steps) :
    ∃ i, 0 < i ∧ x ∈ labelPair bin0 i (p.edge i) := by
  rcases mem_rangeWrites.1 hx with h | ⟨-, -, d, -, h⟩ | ⟨m, k, -, -, -, -, h⟩
  · exact ⟨1, by omega, h⟩
  · exact ⟨_, by omega, h⟩
  · exact ⟨_, by omega, h⟩

end Llq

/-! ## The labels printed -/

variable {c : ℤ → Text} {pad : ℕ}

lemma ghostFix_of_ne {bin dir b : ℤ} (h : c b ≠ []) : ghostFix pad bin dir c b = c b := by
  unfold ghostFix
  split
  · next he =>
    have hne : b ≠ bin := by rintro rfl; exact h he
    cases nearest c bin dir (pad - 1) 1 with
    | some t => exact update_of_ne hne _ _
    | none => rfl
  · rfl

lemma ghostFixes_of_ne {first last b : ℤ} (h : c b ≠ []) :
    (if pad > 0 then ghostFix pad last 1 (ghostFix pad first (-1) c) else c) b = c b := by
  have h' : ghostFix pad first (-1) c b = c b := ghostFix_of_ne h
  split
  · rw [ghostFix_of_ne (by rwa [h']), h']
  · rfl

def signedDecimal (neg : Bool) (n : ℕ) : Text := if neg then negDecimal n else decimal n

lemma signedDecimal_ne_nil (neg : Bool) (n : ℕ) : signedDecimal neg n ≠ [] := by
  unfold signedDecimal negDecimal decimal
  cases neg with
  | true => simp
  | false => simp [toDigits_ne_nil]

def Llq.sideBin (p : Llq) (neg : Bool) (t : ℕ) : ℤ := if neg then p.underflowBin - p.off t else p.underflowBin + p.off t

/-- The label of a bin of the ranges that can hold data, whatever else is printed. -/
theorem label_eq {first last t : ℕ} {neg : Bool} (h0 : 0 < p.off t) (hN : p.off t ≤ p.ranges * p.perRange)
    (hlo : (first : ℤ) ≤ p.sideBin neg t) (hhi : p.sideBin neg t ≤ last) :
    llqLabels p.factor p.lmag p.hmag p.steps first last (p.sideBin neg t) =
      (signedDecimal neg (p.edge (p.off t))).take 15 := by
  have hU : p.underflowBin = 1 + p.ranges * p.perRange := rfl
  have hb : ∀ pad : ℕ, (llqWrites p.factor p.lmag p.hmag p.steps first).foldl (cprint ((first : ℤ) - pad) ((last : ℤ) + pad))
      (fun _ => []) (p.sideBin neg t) = (signedDecimal neg (p.edge (p.off t))).take 15 := by
    intro pad
    refine foldl_cprint (P := (· = _)) (by omega) (by omega) _ _ (fun x hx hxb => congrArg (take 15) ?_) (.inl ?_)
    · change x ∈ ((p.underflowBin : ℤ), _) :: llqRangeWrites p.underflowBin p.factor p.lmag p.hmag p.steps ++
        [((0 : ℤ), _), ((p.nbins : ℤ) - 1, _)] at hx
      have hnb : (p.nbins : ℤ) - 1 = p.underflowBin + (1 + p.ranges * p.perRange : ℕ) := by
        unfold Llq.nbins
        rw [hU]
        push_cast
        ring
      rcases mem_append.1 hx with hx | hx
      · rcases mem_cons.1 hx with rfl | hx
        · -- the underflow bin is at distance 0
          unfold Llq.sideBin at hxb
          split at hxb <;> simp only at hxb <;> omega
        · obtain ⟨i, -, hx⟩ := Llq.edge_of_mem_rangeWrites hx
          simp only [labelPair, mem_cons, not_mem_nil, or_false] at hx
          unfold Llq.sideBin at hxb
          cases neg with
          | true =>
            rcases hx with rfl | rfl
            · have : i = p.off t := by simpa using hxb
              rw [this]
              rfl
            · simp only [if_true] at hxb
              omega
          | false =>
            rcases hx with rfl | rfl
            · simp only [Bool.false_eq_true, if_false] at hxb
              omega
            · have : i = p.off t := by simpa using hxb
              rw [this]
              rfl
      · -- the overflow bins are one step further out than the ranges
        simp only [mem_cons, not_mem_nil, or_false] at hx
        unfold Llq.sideBin at hxb
        rcases hx with rfl | rfl
        · split at hxb <;> simp only at hxb <;> omega
        · split at hxb <;> simp only at hxb <;> omega
    · refine ⟨(p.sideBin neg t, signedDecimal neg (p.edge (p.off t))), ?_, rfl⟩
      refine mem_append_left _ (mem_cons_of_mem _ (Llq.mem_rangeWrites_of_off h0 hN ?_))
      cases neg with
      | true => exact mem_cons_self
      | false => exact mem_cons_of_mem _ mem_cons_self
  have hne : (signedDecimal neg (p.edge (p.off t))).take 15 ≠ [] := by
    simp [take_eq_nil_iff, signedDecimal_ne_nil]
  exact (ghostFixes_of_ne (by rwa [hb])).trans (hb _)

lemma label_ne_nil {first last : ℕ} {b : ℤ} (hb : b = p.underflowBin ∨ b = 0 ∨ b = (p.nbins : ℤ) - 1)
    (hlo : (first : ℤ) ≤ b) (hhi : b ≤ last) : llqLabels p.factor p.lmag p.hmag p.steps first last b ≠ [] := by
  have hne : ∀ pad : ℕ, (llqWrites p.factor p.lmag p.hmag p.steps first).foldl
      (cprint ((first : ℤ) - pad) ((last : ℤ) + pad)) (fun _ => []) b ≠ [] := by
    intro pad
    refine foldl_cprint (P := (· ≠ [])) (by omega) (by omega) _ _ (fun x hx _ => ?_) (.inl ?_)
    · have hx15 : x.2 ≠ [] → x.2.take 15 ≠ [] := by simp [take_eq_nil_iff]
      refine hx15 ?_
      have hd : ∀ n, decimal n ≠ [] := fun n => toDigits_ne_nil
      rcases mem_append.1 hx with hx | hx
      · rcases mem_cons.1 hx with rfl | hx
        · dsimp only
          split
          · exact hd _
          · split <;> simp
        · obtain ⟨i, -, hx⟩ := Llq.edge_of_mem_rangeWrites hx
          simp only [labelPair, mem_cons, not_mem_nil, or_false] at hx
          rcases hx with rfl | rfl
          · simp [negDecimal]
          · exact hd _
      · simp only [mem_cons, not_mem_nil, or_false] at hx
        rcases hx with rfl | rfl <;> simp
    · rcases hb with rfl | rfl | rfl
      · exact ⟨_, mem_append_left _ mem_cons_self, rfl⟩
      · exact ⟨_, mem_append_right _ mem_cons_self, rfl⟩
      · exact ⟨_, mem_append_right _ (mem_cons_of_mem _ mem_cons_self), rfl⟩
  exact fun h => hne _ ((ghostFixes_of_ne (hne _)).symm.trans h)

end DTrace.Agg
