import Mathlib.Tactic.Ring

/-!
# Byte-addressed memory

A memory maps 64-bit addresses to bytes; values are read and written in little-endian order.  The address space wraps.

* `load_store_same` — reading back what was written;
* `load_store_disjoint` — a write leaves alone what it does not overlap;
* `testBit_load`, `bit_store` — the bits of what is read and written;
* `getW_ofWords` — a memory with given words;
* `words_setW` — a record of 64-bit words, of which one is written.
-/

namespace DTrace.Lib

open BitVec Nat Function

abbrev Mem := BitVec 64 → BitVec 8

namespace Mem

/-- The `n` bytes from `a` on, as a number. -/
def load (m : Mem) : ℕ → BitVec 64 → ℕ
  | 0, _ => 0
  | n + 1, a => (m a).toNat + 256 * load m n (a + 1)

/-- Write the `n` low bytes of `v` from `a` on. -/
def store (m : Mem) : ℕ → BitVec 64 → ℕ → Mem
  | 0, _, _ => m
  | n + 1, a, v => store (update m a (BitVec.ofNat 8 v)) n (a + 1) (v / 256)

/-- `b` is one of the `n` addresses from `a` on. -/
def InRange (a : BitVec 64) (n : ℕ) (b : BitVec 64) : Prop := ∃ i < n, b = a + BitVec.ofNat 64 i

variable {n : ℕ} {a : BitVec 64} {m : Mem} {v : ℕ}

lemma InRange.head : InRange a (n + 1) a := ⟨0, by omega, by simp⟩

lemma InRange.tail {a b : BitVec 64} (h : InRange (a + 1) n b) : InRange a (n + 1) b := by
  obtain ⟨i, hi, rfl⟩ := h
  refine ⟨i + 1, by omega, ?_⟩
  rw [BitVec.add_assoc]
  congr 1
  apply eq_of_toNat_eq
  simp [toNat_add, add_comm]

lemma load_lt (m : Mem) (n : ℕ) (a : BitVec 64) : m.load n a < 256 ^ n := by
  induction n generalizing a with
  | zero => simp [load]
  | succ n ih =>
    have := ih (a + 1)
    rw [load, pow_succ]
    omega

lemma load_add (m : Mem) (n k : ℕ) (a : BitVec 64) :
    m.load (n + k) a = m.load n a + 256 ^ n * m.load k (a + BitVec.ofNat 64 n) := by
  induction n generalizing a with
  | zero => simp [load]
  | succ n ih =>
    have hadd : a + 1 + .ofNat 64 n = a + .ofNat 64 (n + 1) := by
      rw [BitVec.add_assoc, add_comm n, ofNat_add]
      rfl
    rw [show n + 1 + k = n + k + 1 by omega, load, load, ih, hadd, pow_succ]
    ring

lemma load_mod (m : Mem) {n k : ℕ} (h : n ≤ k) (a : BitVec 64) : m.load k a % 256 ^ n = m.load n a := by
  rw [← Nat.add_sub_cancel' h, load_add, add_mul_mod_self_left, mod_eq_of_lt (load_lt m n a)]

lemma load_congr {m m' : Mem} (h : ∀ b, InRange a n b → m b = m' b) : m.load n a = m'.load n a := by
  induction n generalizing a with
  | zero => rfl
  | succ n ih => rw [load, load, h a InRange.head, ih fun b hb => h b hb.tail]

lemma store_frame {a b : BitVec 64} (h : ¬ InRange a n b) : m.store n a v b = m b := by
  induction n generalizing m a v with
  | zero => rfl
  | succ n ih =>
    have hb : b ≠ a := fun e => h (e ▸ InRange.head)
    rw [store, ih fun hr => h hr.tail, update_of_ne hb]

theorem load_store_disjoint {n k : ℕ} {a b : BitVec 64}
    (h : ∀ c, InRange b k c → ¬ InRange a n c) : (m.store n a v).load k b = m.load k b :=
  load_congr fun c hc => store_frame (h c hc)

lemma not_inRange_succ (hn : n < 2 ^ 64) : ¬ InRange (a + 1) n a := by
  rintro ⟨i, hi, he⟩
  have h := congrArg BitVec.toNat he
  simp only [toNat_add, toNat_ofNat, show (1 : BitVec 64).toNat = 1 from rfl] at h
  omega

theorem load_store_same (hn : n ≤ 2 ^ 64) : (m.store n a v).load n a = v % 256 ^ n := by
  induction n generalizing m a v with
  | zero => simp [load, mod_one]
  | succ n ih =>
    rw [load, store, store_frame (not_inRange_succ (by omega)), ih (by omega), update_self, pow_succ,
      mul_comm (256 ^ n), mod_mul]
    simp

/-! ## Bits -/

/-- The `i`-th bit from an address on. -/
def bit (m : Mem) (a : BitVec 64) (i : ℕ) : Bool := (m (a + BitVec.ofNat 64 (i / 8))).getLsbD (i % 8)

lemma bit_add (m : Mem) (a : BitVec 64) (k i : ℕ) : m.bit (a + BitVec.ofNat 64 k) i = m.bit a (8 * k + i) := by
  have hdiv : (8 * k + i) / 8 = k + i / 8 := by omega
  have hmod : (8 * k + i) % 8 = i % 8 := by omega
  rw [bit, bit, hdiv, hmod, ofNat_add, BitVec.add_assoc]

theorem testBit_load (m : Mem) (n : ℕ) (a : BitVec 64) (i : ℕ) :
    (m.load n a).testBit i = (decide (i < 8 * n) && m.bit a i) := by
  induction n generalizing a i with
  | zero => simp [load]
  | succ n ih =>
    rw [load, add_comm, show (256 : ℕ) = 2 ^ 8 from rfl, testBit_two_pow_mul_add _ (m a).isLt]
    split
    · next hi => simp [bit, div_eq_of_lt hi, mod_eq_of_lt hi, show i < 8 * (n + 1) by omega, testBit_toNat]
    · next hi =>
      have hone : a + 1 = a + .ofNat 64 1 := rfl
      rw [ih, hone, bit_add, show 8 * 1 + (i - 8) = i by omega]
      congr 1
      exact decide_eq_decide.2 (by omega)

theorem bit_store (m : Mem) (a : BitVec 64) (v : ℕ) (hn : n ≤ 2 ^ 64) {i : ℕ} (hi : i < 8 * n) :
    (m.store n a v).bit a i = v.testBit i := by
  have hload := testBit_load (m.store n a v) n a i
  rw [load_store_same hn, show (256 : ℕ) = 2 ^ 8 from rfl, ← pow_mul, testBit_mod_two_pow] at hload
  simpa [hi] using hload.symm

/-! ## Records of 64-bit words -/

def getW (m : Mem) (a : BitVec 64) : BitVec 64 := BitVec.ofNat 64 (m.load 8 a)

def setW (m : Mem) (a w : BitVec 64) : Mem := m.store 8 a w.toNat

/-- The address of the `i`-th word of a record. -/
def wordAddr (p : BitVec 64) (i : ℕ) : BitVec 64 := p + BitVec.ofNat 64 (8 * i)

def words (m : Mem) (p : BitVec 64) (n : ℕ) : List (BitVec 64) := (List.range n).map fun i => m.getW (wordAddr p i)

lemma getW_setW_same (m : Mem) (a w : BitVec 64) : (m.setW a w).getW a = w := by
  unfold getW setW
  have hw : w.toNat % 256 ^ 8 = w.toNat := mod_eq_of_lt w.isLt
  rw [load_store_same (by omega), hw, ofNat_toNat, setWidth_eq]

lemma getW_setW_ne (m : Mem) {p : BitVec 64} {i j : ℕ} (w : BitVec 64) (hij : i ≠ j) (hi : 8 * i + 8 ≤ 2 ^ 64)
    (hj : 8 * j + 8 ≤ 2 ^ 64) : (m.setW (wordAddr p i) w).getW (wordAddr p j) = m.getW (wordAddr p j) := by
  unfold getW setW wordAddr
  rw [load_store_disjoint]
  rintro c ⟨x, hx, rfl⟩ ⟨y, hy, he⟩
  rw [BitVec.add_assoc, BitVec.add_assoc, BitVec.add_right_inj, ← ofNat_add, ← ofNat_add] at he
  have h := congrArg BitVec.toNat he
  rw [toNat_ofNat, toNat_ofNat, mod_eq_of_lt (by omega), mod_eq_of_lt (by omega)] at h
  omega

lemma length_words (m : Mem) (p : BitVec 64) (n : ℕ) : (m.words p n).length = n := by simp [words]

lemma getElem?_words (m : Mem) (p : BitVec 64) {n i : ℕ} (hi : i < n) :
    (m.words p n)[i]? = some (m.getW (wordAddr p i)) := by
  simp [words, hi]

lemma getW_of_words {p w : BitVec 64} {ws : List (BitVec 64)} (h : m.words p n = ws) (i : ℕ)
    (hi : ws[i]? = some w) : m.getW (wordAddr p i) = w := by
  have hlt : i < n := by
    rw [← length_words m p n, h]
    exact (List.getElem?_eq_some_iff.1 hi).1
  rw [← h, getElem?_words m p hlt] at hi
  exact Option.some.inj hi

theorem words_setW (m : Mem) (p : BitVec 64) {n i : ℕ} (w : BitVec 64) (hi : i < n) (hn : 8 * n ≤ 2 ^ 64) :
    (m.setW (wordAddr p i) w).words p n = (m.words p n).set i w := by
  refine List.ext_getElem? fun j => ?_
  rw [List.getElem?_set]
  by_cases hj : j < n
  · rw [getElem?_words _ _ hj]
    by_cases hij : i = j
    · subst hij
      simp [getW_setW_same, length_words, hi]
    · rw [if_neg hij, getElem?_words _ _ hj, getW_setW_ne m w hij (by omega) (by omega)]
  · have hnone : ∀ m : Mem, (m.words p n)[j]? = none := fun m => List.getElem?_eq_none (by rw [length_words]; omega)
    rw [hnone, hnone, if_neg (by omega)]

/-- The memory that has given words at the multiples of 8. -/
def ofWords (f : ℕ → BitVec 64) : Mem := fun c => (f (c.toNat / 8)).extractLsb' (8 * (c.toNat % 8)) 8

lemma getW_ofWords (f : ℕ → BitVec 64) {k : ℕ} (hk : 8 * k + 8 ≤ 2 ^ 64) :
    (ofWords f).getW (BitVec.ofNat 64 (8 * k)) = f k := by
  apply eq_of_getLsbD_eq
  intro i hi
  have haddr : (BitVec.ofNat 64 (8 * k) + .ofNat 64 (i / 8)).toNat = 8 * k + i / 8 := by
    rw [← ofNat_add, toNat_ofNat, mod_eq_of_lt (by omega)]
  rw [getW, getLsbD_ofNat, testBit_load, bit, ofWords, haddr, show (8 * k + i / 8) / 8 = k by omega,
    show (8 * k + i / 8) % 8 = i / 8 by omega, getLsbD_extractLsb', div_add_mod]
  simp [hi, mod_lt]

end Mem

end DTrace.Lib
