import Mathlib.Data.Nat.Digits.Lemmas

/-!
# Byte strings as numbers

A byte string read as a little-endian number.  Strings of one length are equal if the numbers are, and to append strings
is to add numbers at the right place.
-/

namespace DTrace.Lib

open List

abbrev Bytes := List (BitVec 8)

instance byte_lawfulBEq : LawfulBEq (BitVec 8) := inferInstance

namespace Bytes

/-- The number a string of bytes stands for. -/
def val (bs : Bytes) : ℕ := Nat.ofDigits 256 (bs.map BitVec.toNat)

/-- The `n` low bytes of a number. -/
def ofNat : ℕ → ℕ → Bytes
  | 0, _ => []
  | n + 1, v => BitVec.ofNat 8 v :: ofNat n (v / 256)

@[simp] lemma length_ofNat (n v : ℕ) : (ofNat n v).length = n := by
  induction n generalizing v with
  | zero => rfl
  | succ n ih => simp [ofNat, ih]

lemma val_append (as bs : Bytes) : val (as ++ bs) = val as + 256 ^ as.length * val bs := by
  simp [val, Nat.ofDigits_append]

lemma val_lt (bs : Bytes) : val bs < 256 ^ bs.length := by
  have h := Nat.ofDigits_lt_base_pow_length (b := 256) (l := bs.map BitVec.toNat) (by omega)
    (forall_mem_map.2 fun b _ => b.isLt)
  rwa [length_map] at h

lemma val_ofNat_mod (n v : ℕ) : val (ofNat n v) = v % 256 ^ n := by
  induction n generalizing v with
  | zero =>
    rw [pow_zero, Nat.mod_one]
    rfl
  | succ n ih =>
    have hcons : val (ofNat (n + 1) v) = v % 256 + 256 * val (ofNat n (v / 256)) := by
      simp [val, ofNat, Nat.ofDigits_cons]
    rw [hcons, ih, pow_succ', Nat.mod_mul]

lemma val_ofNat {n v : ℕ} (h : v < 256 ^ n) : val (ofNat n v) = v := by
  rw [val_ofNat_mod, Nat.mod_eq_of_lt h]

@[simp] lemma val_zeros (n : ℕ) : val (replicate n 0) = 0 := by
  induction n with
  | zero => rfl
  | succ n ih =>
    rw [replicate_succ', val_append, ih]
    rfl

lemma toNat_getD (bs : Bytes) (i : ℕ) : (bs.getD i 0).toNat = val bs / 256 ^ i % 256 := by
  induction bs generalizing i with
  | nil => simp [val]
  | cons b bs ih =>
    have hb := b.isLt
    have hval : val (b :: bs) = b.toNat + 256 * val bs := by simp [val, Nat.ofDigits_cons]
    cases i with
    | zero =>
      rw [getD_cons_zero, hval, pow_zero, Nat.div_one]
      omega
    | succ i =>
      have hdiv : (b.toNat + 256 * val bs) / 256 = val bs := by omega
      rw [getD_cons_succ, ih, hval, pow_succ', ← Nat.div_div_eq_div_mul, hdiv]

lemma val_inj {as bs : Bytes} (hlen : as.length = bs.length) : val as = val bs ↔ as = bs := by
  refine ⟨fun h => ?_, fun h => by rw [h]⟩
  have hlt : ∀ cs : Bytes, ∀ d ∈ cs.map BitVec.toNat, d < 256 := fun _ => forall_mem_map.2 fun b _ => b.isLt
  have hmap := Nat.ofDigits_inj_of_len_eq (by omega) (by simpa using hlen) (hlt as) (hlt bs) h
  exact map_injective_iff.2 (fun _ _ => BitVec.eq_of_toNat_eq) hmap

end Bytes

end DTrace.Lib
