import Mathlib.Order.CompletePartialOrder
import Mathlib.Order.Interval.Set.Disjoint
import Mathlib.Tactic.Ring

/-!
# 64-bit words

Facts about unsigned 64-bit arithmetic that programs use for sizes, and about regions laid out at a fixed stride.

* `toNat_shifts`, `toInt_shifts` — extension by shifts to the left and back;
* `toNat_p2Roundup` — the two's complement idiom for rounding up to a power of two rounds up;
* `strided_disjoint_iff` — regions of one size at a fixed stride are disjoint exactly when the size fits the stride.
-/

namespace DTrace.Lib

open BitVec

/-- `(x + (y - 1)) / y * y`. -/
def roundup (x y : BitVec 64) : BitVec 64 := (x + (y - 1)) / y * y

/-- `-(-x & -align)`. -/
def p2Roundup (x align : BitVec 64) : BitVec 64 := -(-x &&& -align)

lemma toNat_roundup_eight {x : BitVec 64} (hx : x.toNat < 2 ^ 63) : (roundup x 8#64).toNat = (x.toNat + 7) / 8 * 8 := by
  simp only [roundup, toNat_mul, toNat_udiv, toNat_add, show (8#64 - 1).toNat = 7 from rfl,
    show (8#64).toNat = 8 from rfl]
  omega

lemma toNat_and_neg_eight (y : BitVec 64) : (y &&& -8#64).toNat = y.toNat / 8 * 8 := by
  have h : y &&& -8#64 = (y >>> 3) <<< 3 := by
    apply eq_of_getLsbD_eq
    intro i hi
    have hmask : (-8#64).getLsbD i = decide (3 ≤ i) := by
      have : ∀ j : Fin 64, (-8#64).getLsbD j = decide (3 ≤ (j : ℕ)) := by decide
      exact this ⟨i, hi⟩
    rw [getLsbD_and, hmask, getLsbD_shiftLeft, getLsbD_ushiftRight]
    by_cases h3 : 3 ≤ i
    · simp [h3, hi, show ¬ i < 3 by omega, show 3 + (i - 3) = i by omega]
    · simp [h3, show i < 3 by omega]
  rw [h, toNat_shiftLeft, toNat_ushiftRight, Nat.shiftLeft_eq, Nat.shiftRight_eq_div_pow]
  omega

lemma toNat_p2Roundup {x : BitVec 64} (hx : x.toNat < 2 ^ 63) : (p2Roundup x 8#64).toNat = (x.toNat + 7) / 8 * 8 := by
  rw [p2Roundup, toNat_neg, toNat_and_neg_eight, toNat_neg]
  omega

/-! ## Words as natural numbers -/

lemma signExtend_ofNat {n : ℕ} (h : n < 2 ^ 31) : (BitVec.ofNat 32 n).signExtend 64 = BitVec.ofNat 64 n := by
  have hmsb : (BitVec.ofNat 32 n).msb = false := by
    rw [msb_eq_decide]
    simp
    omega
  rw [signExtend_eq_setWidth_of_msb_false hmsb]
  apply eq_of_toNat_eq
  simp
  omega

lemma ofNat_ult {a b : ℕ} (ha : a < 2 ^ 64) (hb : b < 2 ^ 64) :
    (BitVec.ofNat 64 a).ult (BitVec.ofNat 64 b) = decide (a < b) := by
  rw [BitVec.ult, toNat_ofNat, toNat_ofNat, Nat.mod_eq_of_lt ha, Nat.mod_eq_of_lt hb]

lemma ofNat_div {a b : ℕ} (ha : a < 2 ^ 64) (hb : b < 2 ^ 64) :
    BitVec.ofNat 64 a / BitVec.ofNat 64 b = BitVec.ofNat 64 (a / b) := by
  apply eq_of_toNat_eq
  rw [toNat_udiv, toNat_ofNat, toNat_ofNat, toNat_ofNat, Nat.mod_eq_of_lt ha,
    Nat.mod_eq_of_lt hb, Nat.mod_eq_of_lt ((Nat.div_le_self a b).trans_lt ha)]

lemma ofNat_sub {a b : ℕ} (hb : b < 2 ^ 64) (h : b ≤ a) :
    BitVec.ofNat 64 a - BitVec.ofNat 64 b = BitVec.ofNat 64 (a - b) :=
  ofNat_sub_ofNat_of_le a b hb h

lemma ofNat_beq_zero {a : ℕ} (ha : a < 2 ^ 64) : (BitVec.ofNat 64 a == 0#64) = decide (a = 0) := by
  have : .ofNat 64 a = 0#64 ↔ a = 0 := by
    constructor
    · intro h
      have := congrArg BitVec.toNat h
      rwa [toNat_ofNat, Nat.mod_eq_of_lt ha] at this
    · rintro rfl
      rfl
  rw [Bool.eq_iff_iff]
  simp [this]

/-- The magnitude of a signed word, as the negation of a negative one computes it. -/
lemma ofNat_natAbs (v : BitVec 64) : BitVec.ofNat 64 v.toInt.natAbs = if 0 ≤ v.toInt then v else -v := by
  apply eq_of_toNat_eq
  have hint := toInt_eq_toNat_cond v
  split
  · rw [toNat_ofNat]
    split at hint <;> omega
  · rw [toNat_ofNat, toNat_neg]
    split at hint <;> omega

/-! ## Extension by shifts -/

lemma bmod_mul_right (a : ℤ) (b : ℕ) {c : ℕ} (hc : 0 < c) :
    Int.bmod (a * c) (2 * b * c) = Int.bmod a (2 * b) * c := by
  have hc' : (0 : ℤ) < c := by exact_mod_cast hc
  have hmod : a * c % ((2 * b * c : ℕ) : ℤ) = a % ((2 * b : ℕ) : ℤ) * c := by
    push_cast
    rw [mul_comm a, mul_comm (2 * (b : ℤ)), Int.mul_emod_mul_of_pos _ _ hc', mul_comm]
  have hhalf : ((2 * b * c : ℕ) + 1 : ℤ) / 2 = b * c := by
    push_cast
    rw [mul_assoc]
    omega
  have hhalf' : ((2 * b : ℕ) + 1 : ℤ) / 2 = b := by omega
  rw [Int.bmod, Int.bmod, hmod, hhalf, hhalf']
  by_cases h : a % ((2 * b : ℕ) : ℤ) < b
  · rw [if_pos h, if_pos (Int.mul_lt_mul_of_pos_right h hc')]
  · rw [if_neg h, if_neg (by rw [not_lt]; exact Int.mul_le_mul_of_nonneg_right (not_lt.1 h) hc'.le)]
    push_cast
    ring

lemma bmod_emod_of_dvd (x : ℤ) {m d : ℕ} (h : d ∣ m) : Int.bmod x m % d = x % d := by
  have hd : (d : ℤ) ∣ m := Int.natCast_dvd_natCast.2 h
  rw [← Int.emod_emod_of_dvd _ hd, Int.bmod_emod, Int.emod_emod_of_dvd _ hd]

lemma toNat_shifts (w : BitVec 64) {k : ℕ} (hk : k ≤ 64) :
    ((w <<< (64 - k)) >>> (64 - k)).toNat = w.toNat % 2 ^ k := by
  have hpow : 2 ^ 64 = 2 ^ k * 2 ^ (64 - k) := by rw [← pow_add, Nat.add_sub_cancel' hk]
  rw [toNat_ushiftRight, toNat_shiftLeft, Nat.shiftLeft_eq, Nat.shiftRight_eq_div_pow, hpow,
    Nat.mul_mod_mul_right, Nat.mul_div_cancel _ (Nat.two_pow_pos _)]

/-- Sign extension by a shift to the left and an arithmetic shift back. -/
lemma toInt_shifts (w : BitVec 64) {k : ℕ} (h0 : 0 < k) (hk : k ≤ 64) :
    ((w <<< (64 - k)).sshiftRight (64 - k)).toInt = Int.bmod w.toNat (2 ^ k) := by
  have hpow : 2 ^ 64 = 2 * 2 ^ (k - 1) * 2 ^ (64 - k) := by
    rw [← pow_succ', ← pow_add]
    congr 1
    omega
  have hk' : 2 * 2 ^ (k - 1) = 2 ^ k := by rw [← pow_succ', Nat.sub_add_cancel h0]
  rw [toInt_sshiftRight, toInt_shiftLeft, Nat.shiftLeft_eq, Int.shiftRight_eq_div_pow, hpow]
  push_cast
  have h := bmod_mul_right w.toNat (2 ^ (k - 1)) (Nat.two_pow_pos (64 - k))
  push_cast at h
  rw [h, hk', Int.mul_ediv_cancel _ (pow_ne_zero _ (by decide))]

lemma signExtend_shifts {w x : ℕ} (hw : w = 8 ∨ w = 16 ∨ w = 32) (hx : x < 2 ^ w) :
    ((BitVec.ofNat 64 x) <<< (64 - w)).sshiftRight (64 - w) = (BitVec.ofNat w x).signExtend 64 := by
  have hx64 : x < 2 ^ 64 := hx.trans_le (Nat.pow_le_pow_right (by omega) (by omega))
  apply eq_of_toInt_eq
  rw [toInt_shifts _ (by omega) (by omega), toInt_signExtend_of_le (by omega), toInt_eq_toNat_bmod,
    toNat_ofNat, toNat_ofNat, Nat.mod_eq_of_lt hx, Nat.mod_eq_of_lt hx64]

/-! ## Regions at a stride -/

/-- Two of `n` regions of `size` bytes at multiples of `stride` overlap unless the size fits the stride. -/
theorem strided_disjoint_iff {n stride size : ℕ} (hn : 2 ≤ n) (hsize : 0 < size) :
    ((List.range n).map (· * stride)).Pairwise
        (fun a b => Disjoint (Set.Ico a (a + size)) (Set.Ico b (b + size))) ↔ size ≤ stride := by
  rw [List.pairwise_map, List.pairwise_iff_getElem]
  simp only [List.length_range, List.getElem_range, Set.Ico_disjoint_Ico]
  constructor
  · intro h
    have := h 0 1 (by omega) (by omega) (by omega)
    omega
  · intro h i j _ _ hij
    have : (i + 1) * stride ≤ j * stride := Nat.mul_le_mul_right _ hij
    rw [Nat.add_mul, Nat.one_mul] at this
    omega

end DTrace.Lib
