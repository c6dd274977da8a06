import Mathlib.Data.Nat.Log
import Mathlib.Tactic.Ring
import Mathlib.Tactic.Linarith

/-!
# Log-linear quantization

The parameters `llquantize()` accepts, the word they travel to the printer in, and the bins: which bin a magnitude belongs
to and which magnitude a bin starts at.

* `Llq` — parameters that passed the checks of `dt_cg_agg_llquantize`, with what the checks establish;
* `Llq.decode_sig` — the printer decodes the parameters that were encoded;
* `Llq.off_mono`, `Llq.off_le` — the distance of a bin from the underflow bin grows with the magnitude and stays in range;
* `Llq.edge_off` — `Llq.edge` is the smallest magnitude of a bin;
* `Llq.bin_lt`, `Llq.bin_mono`, `Llq.bin_neg` — bins are in range, monotone and symmetric.
-/

namespace DTrace.Agg

open Nat

/-! ## Parameters -/

/-- The errors the checks report, by tag. -/
inductive LlqErr
  | factorType
  | factorVal
  | lmagType
  | lmagVal
  | hmagType
  | hmagVal
  | stepType
  | stepVal
  deriving DecidableEq, Repr

/-- A constant argument: the value of an integer node and whether its type is signed. -/
structure ConstArg where
  value : BitVec 64
  signed : Bool
  deriving DecidableEq

/-- `dt_node_is_posconst` for an integer node. -/
def ConstArg.isPosconst (a : ConstArg) : Bool := a.value != 0 && (!a.signed || decide (0 < a.value.toInt))

/-- Accepted parameters. -/
@[ext]
structure Llq where
  factor : ℕ
  lmag : ℕ
  hmag : ℕ
  steps : ℕ
  two_le_factor : 2 ≤ factor
  factor_le : factor ≤ 65535
  lmag_le : lmag ≤ 65535
  hmag_le : hmag ≤ 65535
  lmag_le_hmag : lmag ≤ hmag
  pow_lt : factor ^ (hmag + 1) < 2 ^ 64
  steps_pos : 0 < steps
  steps_le : steps ≤ 65535
  dvd_factor : steps < factor → factor % steps = 0
  factor_dvd : factor < steps → steps % factor = 0
  dvd_sq : factor < steps → lmag = 0 → factor * factor % steps = 0
  dvd_pow : factor < steps → lmag ≠ 0 → factor ^ (lmag + 1) % steps = 0

/-- The checks of `dt_cg_agg_llquantize` on its constant arguments; an argument that is not an integer node is `none`.
`powl` is taken to be exact below `2^64`, where it is compared and converted. -/
def dtCgAggLlquantizeArgs (arg1 arg2 arg3 arg4 : Option ConstArg) : Except LlqErr Llq :=
  match arg1 with
  | none => .error .factorType
  | some a₁ =>
    let factor := a₁.value.toNat
    if hf : factor > 65535 ∨ factor < 2 then .error .factorVal else
    match arg2 with
    | none => .error .lmagType
    | some a₂ =>
      let lmag := a₂.value.toNat
      if hl : lmag > 65535 then .error .lmagVal else
      match arg3 with
      | none => .error .hmagType
      | some a₃ =>
        let hmag := a₃.value.toNat
        if hh : hmag > 65535 then .error .hmagVal else
        if hlh : hmag < lmag then .error .hmagVal else
        if hp : factor ^ (hmag + 1) > 2 ^ 64 - 1 then .error .hmagVal else
        match arg4 with
        | none => .error .stepType
        | some a₄ =>
          if hpos : ¬ a₄.isPosconst then .error .stepType else
          let steps := a₄.value.toNat
          if hs : steps > 65535 then .error .stepVal else
          if h₁ : steps < factor ∧ factor % steps ≠ 0 then .error .stepVal else
          if h₂ : steps > factor ∧ steps % factor ≠ 0 then .error .stepVal else
          if h₃ : steps > factor ∧ lmag = 0 ∧ factor * factor % steps ≠ 0 then .error .stepVal else
          if h₄ : steps > factor ∧ lmag ≠ 0 ∧ factor ^ (lmag + 1) % steps ≠ 0 then .error .stepVal else
          .ok {
            factor, lmag, hmag, steps
            two_le_factor := by omega
            factor_le := by omega
            lmag_le := by omega
            hmag_le := by omega
            lmag_le_hmag := by omega
            pow_lt := by omega
            steps_pos := by
              have hne : a₄.value ≠ 0 := by
                intro h
                simp [ConstArg.isPosconst, h] at hpos
              have : a₄.value.toNat ≠ 0 := fun h => hne (BitVec.eq_of_toNat_eq (by simpa using h))
              exact Nat.pos_of_ne_zero this
            steps_le := by omega
            dvd_factor := fun h => by by_contra hc; exact h₁ ⟨h, hc⟩
            factor_dvd := fun h => by by_contra hc; exact h₂ ⟨h, hc⟩
            dvd_sq := fun h h0 => by by_contra hc; exact h₃ ⟨h, h0, hc⟩
            dvd_pow := fun h h0 => by by_contra hc; exact h₄ ⟨h, h0, hc⟩ }

namespace Llq

/-! ## The parameters as one word -/

/-- The argument word of the aggregation. -/
def sig (p : Llq) : BitVec 64 :=
  BitVec.ofNat 64 p.steps <<< 48 ||| BitVec.ofNat 64 p.hmag <<< 32 ||| BitVec.ofNat 64 p.lmag <<< 16 |||
    BitVec.ofNat 64 p.factor

/-- `DTRACE_LLQUANTIZE_STEPS`. -/
def sigSteps (x : BitVec 64) : ℕ := ((x &&& 0xffff000000000000#64) >>> 48).toNat

/-- `DTRACE_LLQUANTIZE_HMAG`. -/
def sigHmag (x : BitVec 64) : ℕ := ((x &&& 0xffff00000000#64) >>> 32).toNat

/-- `DTRACE_LLQUANTIZE_LMAG`. -/
def sigLmag (x : BitVec 64) : ℕ := ((x &&& 0xffff0000#64) >>> 16).toNat

/-- `DTRACE_LLQUANTIZE_FACTOR`. -/
def sigFactor (x : BitVec 64) : ℕ := (x &&& 0xffff#64).toNat

lemma toNat_field (x : BitVec 64) (k : ℕ) (m : BitVec 64) (hm : m.toNat = 65535 * 2 ^ k) :
    ((x &&& m) >>> k).toNat = x.toNat / 2 ^ k % 65536 := by
  rw [BitVec.toNat_ushiftRight, BitVec.toNat_and, hm, shiftRight_and_distrib, shiftRight_eq_div_pow,
    shiftRight_eq_div_pow, Nat.mul_div_cancel _ (Nat.two_pow_pos k)]
  exact and_two_pow_sub_one_eq_mod _ 16

lemma toNat_sig (p : Llq) : p.sig.toNat = p.steps * 2 ^ 48 + p.hmag * 2 ^ 32 + p.lmag * 2 ^ 16 + p.factor := by
  have h1 := p.factor_le
  have h2 := p.lmag_le
  have h3 := p.hmag_le
  have h4 := p.steps_le
  have hor : ∀ (a b k : ℕ), b < 2 ^ k → a * 2 ^ k ||| b = a * 2 ^ k + b := fun a b k hb => by
    rw [← shiftLeft_eq, ← shiftLeft_add_eq_or_of_lt hb]
  simp only [sig, BitVec.toNat_or, BitVec.toNat_shiftLeft, BitVec.toNat_ofNat, shiftLeft_eq]
  rw [mod_eq_of_lt (by omega), mod_eq_of_lt (by omega),
    mod_eq_of_lt (by omega), mod_eq_of_lt (by omega),
    mod_eq_of_lt (by omega), mod_eq_of_lt (by omega),
    mod_eq_of_lt (by omega),
    hor _ _ 48 (by omega), show p.steps * 2 ^ 48 + p.hmag * 2 ^ 32 = (p.steps * 2 ^ 16 + p.hmag) * 2 ^ 32 by ring,
    hor _ _ 32 (by omega), show (p.steps * 2 ^ 16 + p.hmag) * 2 ^ 32 + p.lmag * 2 ^ 16
      = ((p.steps * 2 ^ 16 + p.hmag) * 2 ^ 16 + p.lmag) * 2 ^ 16 by ring, hor _ _ 16 (by omega)]

theorem decode_sig (p : Llq) : sigFactor p.sig = p.factor ∧ sigLmag p.sig = p.lmag ∧ sigHmag p.sig = p.hmag ∧
    sigSteps p.sig = p.steps := by
  have hs := toNat_sig p
  have h1 := p.factor_le
  have h2 := p.lmag_le
  have h3 := p.hmag_le
  refine ⟨?_, ?_, ?_, ?_⟩
  · have := toNat_field p.sig 0 0xffff#64 (by decide)
    rw [BitVec.ushiftRight_zero] at this
    rw [sigFactor, this]
    omega
  · rw [sigLmag, toNat_field p.sig 16 _ (by decide)]
    omega
  · rw [sigHmag, toNat_field p.sig 32 _ (by decide)]
    omega
  · rw [sigSteps, toNat_field p.sig 48 _ (by decide)]
    omega

/-! ## Bins

The bins of the positive values are numbered outwards from the underflow bin: offset 0 is the underflow bin, offsets
`1 … ranges * perRange` are the bins of the logarithmic ranges, and the next one is the overflow bin. -/

section

variable (p : Llq)

/-- `steps_factor`: the steps of a range that overlap lower ranges. -/
def stepsFactor : ℕ := p.steps / p.factor

def perRange : ℕ := p.steps - p.stepsFactor

def ranges : ℕ := p.hmag - p.lmag + 1

/-- `underflow_bin`, which the printer calls `bin0`. -/
def underflowBin : ℕ := 1 + p.ranges * p.perRange

def nbins : ℕ := p.ranges * p.perRange * 2 + 2 + 1

/-- The search for the range of the magnitude `t`, from the range `m` on: `n` ranges are left. -/
def rangeFrom (t : ℕ) : ℕ → ℕ → ℕ
  | 0, m => m
  | n + 1, m => if t < p.factor ^ (m + 1) then m else rangeFrom t n (m + 1)

/-- The range of `t`, `hmag + 1` when it is beyond the last. -/
def range (t : ℕ) : ℕ := p.rangeFrom t p.ranges p.lmag

/-- The bin of `t` inside the range `m`. -/
def ind (m t : ℕ) : ℕ := t * p.steps / p.factor ^ (m + 1) - p.stepsFactor

/-- How far the bin of the magnitude `t` is from the underflow bin. -/
def off (t : ℕ) : ℕ :=
  if t < p.factor ^ p.lmag then 0
  else if p.range t ≤ p.hmag then 1 + (p.range t - p.lmag) * p.perRange + p.ind (p.range t) t
  else 1 + p.ranges * p.perRange

def bin (v : ℤ) : ℕ := if 0 ≤ v then p.underflowBin + p.off v.natAbs else p.underflowBin - p.off v.natAbs

/-- The smallest magnitude in the bin at offset `j ≥ 1`: inside the range 0 with more steps than values, only every
`stepsFactor`-th bin is used. -/
def edge (j : ℕ) : ℕ :=
  let m := p.lmag + (j - 1) / p.perRange
  let k := (j - 1) % p.perRange
  if m = 0 ∧ p.factor < p.steps then 1 + k / p.stepsFactor
  else if k = 0 then p.factor ^ m
  else (p.stepsFactor + k) * (p.factor ^ (m + 1) / p.steps)

end

section

variable {p : Llq}

lemma factor_pos : 0 < p.factor := by have := p.two_le_factor; omega

lemma stepsFactor_lt : p.stepsFactor < p.steps := div_lt_self p.steps_pos p.two_le_factor

lemma perRange_pos : 0 < p.perRange := by
  have := @stepsFactor_lt p
  unfold perRange
  omega

lemma stepsFactor_add_perRange : p.stepsFactor + p.perRange = p.steps := by
  have := @stepsFactor_lt p
  unfold perRange
  omega

lemma stepsFactor_mul (h : p.factor ≤ p.steps) : p.stepsFactor * p.factor = p.steps := by
  refine Nat.div_mul_cancel ?_
  rcases eq_or_lt_of_le h with h | h
  · rw [h]
  · exact dvd_of_mod_eq_zero (p.factor_dvd h)

variable {m : ℕ} {t : ℕ}

/-- Except in the range 0 with more steps than values, the steps divide the upper end of a range. -/
lemma steps_dvd (hm : p.lmag ≤ m) (h : ¬ (m = 0 ∧ p.factor < p.steps)) : p.steps ∣ p.factor ^ (m + 1) := by
  rcases lt_trichotomy p.steps p.factor with hlt | heq | hgt
  · exact (dvd_of_mod_eq_zero (p.dvd_factor hlt)).trans (dvd_pow_self _ (by omega))
  · rw [heq]
    exact dvd_pow_self _ (by omega)
  · by_cases hl : p.lmag = 0
    · have hsq : p.steps ∣ p.factor ^ 2 := by
        rw [pow_two]
        exact dvd_of_mod_eq_zero (p.dvd_sq hgt hl)
      exact hsq.trans (pow_dvd_pow _ (by omega))
    · exact (dvd_of_mod_eq_zero (p.dvd_pow hgt hl)).trans (pow_dvd_pow _ (by omega))

lemma pow_le_pow {a b : ℕ} (h : a ≤ b) : p.factor ^ a ≤ p.factor ^ b := Nat.pow_le_pow_right factor_pos h

lemma hmag_lt (p : Llq) : p.hmag < 64 := by
  have h : 2 ^ (p.hmag + 1) ≤ p.factor ^ (p.hmag + 1) := Nat.pow_le_pow_left p.two_le_factor _
  have := (Nat.pow_lt_pow_iff_right (by omega : 1 < 2)).1 (h.trans_lt p.pow_lt)
  omega

lemma underflowBin_lt (p : Llq) : p.underflowBin < 2 ^ 23 := by
  have h1 := p.hmag_lt
  have h2 := p.steps_le
  have : p.ranges * p.perRange ≤ 64 * 65535 :=
    Nat.mul_le_mul (by unfold ranges; omega) (by unfold perRange; omega)
  unfold underflowBin
  omega

/-! ### The range of a magnitude -/

lemma rangeFrom_spec (t n m : ℕ) : m ≤ p.rangeFrom t n m ∧ p.rangeFrom t n m ≤ m + n ∧
    (p.rangeFrom t n m < m + n → t < p.factor ^ (p.rangeFrom t n m + 1)) ∧
    (m < p.rangeFrom t n m → p.factor ^ p.rangeFrom t n m ≤ t) := by
  induction n generalizing m with
  | zero => simp [rangeFrom]
  | succ n ih =>
    unfold rangeFrom
    split
    · next h => exact ⟨le_refl _, by omega, fun _ => h, fun hlt => absurd hlt (lt_irrefl _)⟩
    · next h =>
      obtain ⟨h1, h2, h3, h4⟩ := ih (m + 1)
      refine ⟨by omega, by omega, fun hlt => h3 (by omega), fun _ => ?_⟩
      rcases eq_or_lt_of_le h1 with he | hlt
      · rw [← he]; omega
      · exact h4 hlt

lemma lmag_le_range (t : ℕ) : p.lmag ≤ p.range t := (rangeFrom_spec t _ _).1

lemma range_le (t : ℕ) : p.range t ≤ p.hmag + 1 := by
  have h := (@rangeFrom_spec p t p.ranges p.lmag).2.1
  have := p.lmag_le_hmag
  unfold range
  unfold ranges at h ⊢
  omega

lemma lt_pow_range (h : p.range t ≤ p.hmag) : t < p.factor ^ (p.range t + 1) := by
  refine (rangeFrom_spec t _ _).2.2.1 ?_
  unfold range at h
  unfold ranges at h ⊢
  omega

lemma pow_range_le (h : p.factor ^ p.lmag ≤ t) : p.factor ^ p.range t ≤ t := by
  rcases eq_or_lt_of_le (@lmag_le_range p t) with he | hlt
  · rwa [← he]
  · exact (rangeFrom_spec t _ _).2.2.2 hlt

lemma range_eq {t m : ℕ} (hl : p.lmag ≤ m) (hh : m ≤ p.hmag) (h1 : p.factor ^ m ≤ t) (h2 : t < p.factor ^ (m + 1)) :
    p.range t = m := by
  have hle : p.factor ^ p.lmag ≤ t := (pow_le_pow hl).trans h1
  have hb := pow_range_le hle
  rcases lt_trichotomy (p.range t) m with h | h | h
  · have := lt_pow_range (p := p) (t := t) (by omega)
    have := @pow_le_pow p (p.range t + 1) m (by omega)
    omega
  · exact h
  · have := @pow_le_pow p (m + 1) (p.range t) (by omega)
    omega

lemma range_mono {t t' : ℕ} (h : t ≤ t') (ht : p.factor ^ p.lmag ≤ t) : p.range t ≤ p.range t' := by
  by_contra hc
  have h1 := lt_pow_range (p := p) (t := t') (by have := @range_le p t; omega)
  have h2 := pow_range_le ht
  have := @pow_le_pow p (p.range t' + 1) (p.range t) (by omega)
  omega

/-! ### The bin inside a range -/

lemma stepsFactor_le_quot {m t : ℕ} (h : p.factor ^ m ≤ t) : p.stepsFactor ≤ t * p.steps / p.factor ^ (m + 1) := by
  rw [le_div_iff_mul_le (Nat.pow_pos factor_pos)]
  calc p.stepsFactor * p.factor ^ (m + 1) = p.stepsFactor * p.factor * p.factor ^ m := by ring
    _ ≤ p.steps * p.factor ^ m := mul_le_mul_right _ (div_mul_le_self _ _)
    _ ≤ t * p.steps := by rw [mul_comm]; exact mul_le_mul_right _ h

lemma quot_lt_steps {m t : ℕ} (h : t < p.factor ^ (m + 1)) : t * p.steps / p.factor ^ (m + 1) < p.steps :=
  Nat.div_lt_of_lt_mul (mul_lt_mul_of_pos_right h p.steps_pos)

lemma ind_lt {m t : ℕ} (h : t < p.factor ^ (m + 1)) : p.ind m t < p.perRange := by
  have := quot_lt_steps h
  have := @stepsFactor_add_perRange p
  have := @perRange_pos p
  unfold ind
  omega

lemma ind_mono {m t t' : ℕ} (h : t ≤ t') : p.ind m t ≤ p.ind m t' :=
  Nat.sub_le_sub_right (Nat.div_le_div_right (mul_le_mul_right _ h)) _

lemma mul_perRange_lt {a b k : ℕ} (hab : a < b) (hk : k < p.perRange) : a * p.perRange + k < b * p.perRange := by
  have : (a + 1) * p.perRange ≤ b * p.perRange := mul_le_mul_right _ hab
  rw [add_mul, one_mul] at this
  omega

lemma range_sub_lt (hl : p.lmag ≤ m) (hm : m ≤ p.hmag) : m - p.lmag < p.ranges := by
  unfold ranges
  omega

lemma off_le (t : ℕ) : p.off t ≤ 1 + p.ranges * p.perRange := by
  unfold off
  split
  · omega
  · split
    · next h =>
      have := mul_perRange_lt (range_sub_lt (lmag_le_range t) h) (ind_lt (lt_pow_range h))
      omega
    · exact le_refl _

lemma off_mono {t t' : ℕ} (h : t ≤ t') : p.off t ≤ p.off t' := by
  by_cases ht : t < p.factor ^ p.lmag
  · simp [off, ht]
  · have ht' : ¬ t' < p.factor ^ p.lmag := by omega
    have hle := range_mono (p := p) h (by omega)
    by_cases hr' : p.range t' ≤ p.hmag
    · have hr : p.range t ≤ p.hmag := by omega
      simp only [off, ht, ht', hr, hr', if_true, if_false]
      rcases eq_or_lt_of_le hle with he | hlt
      · rw [he]
        have := @ind_mono p (p.range t') t t' h
        omega
      · -- the whole range of t lies below the range of t'
        have hl := @lmag_le_range p t
        have := mul_perRange_lt (show p.range t - p.lmag < p.range t' - p.lmag by omega) (ind_lt (lt_pow_range hr))
        omega
    · have := @off_le p t
      simpa only [off, ht', hr', if_false] using this

/-! ### The smallest magnitude of a bin -/

lemma quot_zero (h : p.factor < p.steps) : t * p.steps / p.factor ^ (0 + 1) = t * p.stepsFactor := by
  rw [← stepsFactor_mul h.le, zero_add, pow_one, ← mul_assoc]
  exact Nat.mul_div_cancel _ factor_pos

lemma quot_eq (t : ℕ) (hm : p.lmag ≤ m) (h : ¬ (m = 0 ∧ p.factor < p.steps)) :
    t * p.steps / p.factor ^ (m + 1) = t / (p.factor ^ (m + 1) / p.steps) := by
  obtain ⟨u, hu⟩ := steps_dvd hm h
  rw [hu, Nat.mul_div_cancel_left _ p.steps_pos, mul_comm p.steps u, Nat.mul_div_mul_right _ _ p.steps_pos]

lemma unit_pos (hm : p.lmag ≤ m) (h : ¬ (m = 0 ∧ p.factor < p.steps)) : 0 < p.factor ^ (m + 1) / p.steps :=
  div_pos (le_of_dvd (Nat.pow_pos factor_pos) (steps_dvd hm h)) p.steps_pos

lemma pow_le_step {m k : ℕ} (hm : p.lmag ≤ m) (h : ¬ (m = 0 ∧ p.factor < p.steps)) (hk : 0 < k) :
    p.factor ^ m ≤ (p.stepsFactor + k) * (p.factor ^ (m + 1) / p.steps) := by
  obtain ⟨u, hu⟩ := steps_dvd hm h
  rw [hu, Nat.mul_div_cancel_left _ p.steps_pos]
  have hM : p.factor * p.factor ^ m = p.steps * u := by rw [← hu, pow_succ, mul_comm]
  refine le_of_mul_le_mul_left (?_ : p.factor * p.factor ^ m ≤ p.factor * ((p.stepsFactor + k) * u)) factor_pos
  rw [hM, ← mul_assoc]
  refine mul_le_mul_right _ ?_
  rcases lt_or_ge p.steps p.factor with hlt | hge
  · exact hlt.le.trans (Nat.le_mul_of_pos_right _ (by omega))
  · rw [mul_add, mul_comm, stepsFactor_mul hge]
    omega

lemma off_eq_iff (h0 : 0 < p.off t) (hN : p.off t ≤ p.ranges * p.perRange) :
    p.factor ^ p.lmag ≤ t ∧ p.range t ≤ p.hmag ∧ p.lmag + (p.off t - 1) / p.perRange = p.range t ∧
      (p.off t - 1) % p.perRange = p.ind (p.range t) t := by
  have ht : ¬ t < p.factor ^ p.lmag := fun h => by simp [off, h] at h0
  have hr : p.range t ≤ p.hmag := by
    by_contra hc
    simp only [off, ht, hc, if_false] at hN
    omega
  have hoff : p.off t - 1 = p.perRange * (p.range t - p.lmag) + p.ind (p.range t) t := by
    simp only [off, ht, hr, if_true, if_false]
    rw [mul_comm]
    omega
  have hind := ind_lt (lt_pow_range hr)
  have hl := @lmag_le_range p t
  refine ⟨by omega, hr, ?_, ?_⟩
  · rw [hoff, mul_add_div perRange_pos, div_eq_of_lt hind]
    omega
  · rw [hoff, mul_add_mod, mod_eq_of_lt hind]

lemma off_of_range {t m : ℕ} (hl : p.lmag ≤ m) (hh : m ≤ p.hmag) (h1 : p.factor ^ m ≤ t) (h2 : t < p.factor ^ (m + 1)) :
    p.off t = 1 + (m - p.lmag) * p.perRange + p.ind m t := by
  have hr := range_eq hl hh h1 h2
  have : ¬ t < p.factor ^ p.lmag := by have := @pow_le_pow p _ _ hl; omega
  simp only [off, this, hr, hh, if_true, if_false]

/-- The edge of the bin of `t` is a magnitude of the same bin, and the smallest one. -/
theorem edge_off (h0 : 0 < p.off t) (hN : p.off t ≤ p.ranges * p.perRange) :
    p.edge (p.off t) ≤ t ∧ p.off (p.edge (p.off t)) = p.off t := by
  obtain ⟨hlow, hr, hm, hk⟩ := off_eq_iff h0 hN
  have hl := @lmag_le_range p t
  have hlo := pow_range_le hlow
  have hhi := lt_pow_range hr
  have hoff := off_of_range hl hr hlo hhi
  unfold edge
  simp only [hm, hk]
  generalize hmm : p.range t = m at *
  by_cases hsp : m = 0 ∧ p.factor < p.steps
  · -- every value below the factor has a bin of its own, so the edge is the value
    obtain ⟨rfl, hgt⟩ := hsp
    have hpos : 0 < p.stepsFactor := div_pos hgt.le factor_pos
    have ht1 : 1 ≤ t := by simpa using hlo
    have he : 1 + p.ind 0 t / p.stepsFactor = t := by
      rw [ind, quot_zero hgt, show t * p.stepsFactor - p.stepsFactor = (t - 1) * p.stepsFactor by
        rw [Nat.sub_mul, one_mul], Nat.mul_div_cancel _ hpos]
      omega
    rw [if_pos ⟨rfl, hgt⟩, he]
    exact ⟨le_refl _, rfl⟩
  · rw [if_neg hsp]
    split
    · next hz =>
      refine ⟨hlo, ?_⟩
      have hhi' : p.factor ^ m < p.factor ^ (m + 1) := Nat.pow_lt_pow_right p.two_le_factor (by omega)
      rw [off_of_range hl hr (le_refl _) hhi', hoff, hz]
      have := @ind_mono p m _ _ hlo
      omega
    · next hnz =>
      have hsf := @stepsFactor_le_quot p m t hlo
      have hind : p.stepsFactor + p.ind m t = t / (p.factor ^ (m + 1) / p.steps) := by
        rw [← quot_eq t hl hsp, ind]
        omega
      have hedge : (p.stepsFactor + p.ind m t) * (p.factor ^ (m + 1) / p.steps) ≤ t := by
        rw [hind]
        exact div_mul_le_self _ _
      refine ⟨hedge, ?_⟩
      rw [off_of_range hl hr (pow_le_step hl hsp (by omega)) (by omega), hoff]
      congr 1
      rw [ind, quot_eq _ hl hsp, Nat.mul_div_cancel _ (unit_pos hl hsp)]
      omega

/-! ### Bins of signed values -/

lemma off_zero : p.off 0 = 0 := by simp [off, pow_pos factor_pos]

theorem bin_lt (v : ℤ) : p.bin v < p.nbins := by
  have := @off_le p v.natAbs
  unfold bin nbins underflowBin
  split <;> omega

theorem bin_mono {v w : ℤ} (h : v ≤ w) : p.bin v ≤ p.bin w := by
  unfold bin
  by_cases hv0 : 0 ≤ v
  · have hw0 : 0 ≤ w := by omega
    have := @off_mono p v.natAbs w.natAbs (by omega)
    simp only [hv0, hw0, if_true]
    omega
  · by_cases hw0 : 0 ≤ w
    · simp only [hv0, hw0, if_true, if_false]
      omega
    · have := @off_mono p w.natAbs v.natAbs (by omega)
      simp only [hv0, hw0, if_false]
      omega

theorem bin_neg (v : ℤ) : p.bin (-v) + p.bin v = 2 * p.underflowBin := by
  have hoff := @off_le p v.natAbs
  have hU : p.underflowBin = 1 + p.ranges * p.perRange := rfl
  rcases lt_trichotomy v 0 with h | h | h
  · simp only [bin, Int.natAbs_neg, show 0 ≤ -v by omega, show ¬ 0 ≤ v by omega, if_true, if_false]
    omega
  · subst h
    simp [bin, off_zero]
    omega
  · simp only [bin, Int.natAbs_neg, show ¬ 0 ≤ -v by omega, show 0 ≤ v by omega, if_true, if_false]
    omega

end

end Llq

end DTrace.Agg
