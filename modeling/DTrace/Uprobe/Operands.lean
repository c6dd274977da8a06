import DTrace.Uprobe.Args

/-!
# Values of USDT arguments

What an operand is worth, for all contents of registers and memory, and what the code of `copy_args` makes of it.

* `Spec.value` — the value of an operand, in as many bytes as its size says;
* `Extended` — a word is such a value with the sign or with zeroes in front of it;
* `Spec.stored` — what the code for an operand stores;
* `extended_const_iff` — constants: the two agree for those that fit and are not taken for negative ones;
* `Spec.Exact` — the operands for which the two agree; `extended_of_exact`, `exact_of_tried`.
-/

namespace DTrace.Uprobe

open Lib Bpf Scanf BitVec Option Nat Function

/-! ## The values of operands -/

abbrev Regs := Member → Word

/-- The part of a register that a name refers to. -/
def AsmReg.value (r : AsmReg) (R : Regs) : Word := (R r.mname >>> r.shift) &&& r.mask

def regValue (R : Regs) (name : List Char) : Word := (getAsmReg name).elim 0 fun r => r.value R

def Wide (name : List Char) : Prop := (getAsmReg name).map AsmReg.mask = some (-1)

instance (name : List Char) : Decidable (Wide name) := inferInstanceAs (Decidable (_ = _))

def indexValue (R : Regs) (index : List Char × Option ℤ) : Word :=
  regValue R index.1 * BitVec.ofInt 64 (index.2.getD 1)

/-- The effective address: 32 bits of the sum unless all registers have 64 bits. -/
def effective (R : Regs) (disp : ℤ) (base : Option (List Char)) (index : Option (List Char × Option ℤ)) : Word :=
  let sum := BitVec.ofInt 64 disp + base.elim 0 (regValue R) + index.elim 0 (indexValue R)
  if ∀ n ∈ base.toList ++ index.toList.map Prod.fst, Wide n then sum else BitVec.ofNat 64 (sum.toNat % 2 ^ 32)

/-- The value of an operand: that of the lowest bytes of a constant or a register, or of bytes in memory. -/
def Spec.value (sp : Spec) (R : Regs) (user : Mem) : ℕ :=
  let n := sp.ssize.natAbs
  match sp.op with
  | .based disp base index => user.load n (effective R disp (some base) index)
  | .indexed disp ireg scale => user.load n (effective R disp none (some (ireg, scale)))
  | .reg name => (regValue R name).toNat % 256 ^ n
  | .const val => (val % 256 ^ n).toNat

/-- The word `w` is the value `v`, extended from as many bytes as `ssize` says. -/
def Extended (ssize : ℤ) (v : ℕ) (w : Word) : Prop :=
  if ssize < 0 then w.toInt = Int.bmod v (256 ^ ssize.natAbs) else w.toNat = v

instance (ssize : ℤ) (v : ℕ) (w : Word) : Decidable (Extended ssize v w) := by
  unfold Extended
  infer_instance

/-! ## What the code stores -/

/-- The whole register that a name belongs to. -/
def rawReg (R : Regs) (name : List Char) : Word := (getAsmReg name).elim 0 fun r => R r.mname

def rawScale (scale : Option ℤ) : Word := if 0 < scale.getD (-1) then BitVec.ofInt 64 (scale.getD (-1)) else 1

def rawIndex (R : Regs) (index : List Char × Option ℤ) : Word := rawReg R index.1 * rawScale index.2

def rawAddr (R : Regs) (disp : ℤ) (base : List Char) (index : Option (List Char × Option ℤ)) : Word :=
  rawReg R base + index.elim 0 (rawIndex R) + BitVec.ofInt 64 disp

/-- The shifts of `%r0`. -/
def shiftWord (ssize : ℤ) (w : Word) : Word :=
  let shift := shiftOf (absSize ssize)
  let k := ((BitVec.ofInt 32 shift).signExtend 64).toNat % 64
  if shift = 0 then w else if ssize < 0 then (w <<< k).sshiftRight k else (w <<< k) >>> k

def constWord (val : ℤ) : Word :=
  if 2 ^ 32 - 1 < (BitVec.ofInt 64 val).toNat then BitVec.ofInt 64 val else (BitVec.ofInt 32 val).signExtend 64

/-- What the code stores; `a` is the address of the argument. -/
def Spec.stored (sp : Spec) (R : Regs) (user mem : Mem) (a : Word) : Word :=
  let n := sp.ssize.natAbs
  match sp.op with
  | .based disp base index =>
    shiftWord sp.ssize ((mem.store n a (user.load n (rawAddr R disp base index))).getW a)
  | .indexed disp ireg scale => rawIndex R (ireg, scale) + BitVec.ofInt 64 disp
  | .reg name => shiftWord sp.ssize (BitVec.ofNat 64 ((rawReg R name).toNat % 256 ^ n))
  | .const val => constWord val

/-! ## Sizes and shifts -/

variable {ssize : ℤ} {w : Word} {v n : ℕ}

section

lemma toNat_signExtend_mod (x : BitVec 32) : (x.signExtend 64).toNat % 2 ^ 32 = x.toNat := by
  rw [toNat_signExtend, toNat_setWidth]
  split <;> omega

lemma toNat_absSize (h : Int32 ssize) :
    ((BitVec.ofInt 32 (absSize ssize)).signExtend 64).toNat % 2 ^ 32 = ssize.natAbs := by
  obtain ⟨h1, h2⟩ := h
  have habs : BitVec.ofInt 32 (absSize ssize) = .ofInt 32 ssize.natAbs := by
    unfold absSize int32
    split
    · rw [ofInt_toInt]
      congr 1
      omega
    · congr 1
      omega
  rw [toNat_signExtend_mod, habs, toNat_ofInt]
  omega

lemma absSize_of_le (hn : ssize.natAbs ≤ 8) : absSize ssize = ssize.natAbs := by
  unfold absSize
  split
  · rw [int32_of_range (by omega)]
    omega
  · omega

lemma shiftOf_absSize (hn : ssize.natAbs ≤ 8) : shiftOf (absSize ssize) = 64 - 8 * ssize.natAbs := by
  rw [absSize_of_le hn, shiftOf]
  have h8 : int32 ((ssize.natAbs : ℤ) * 8) = ssize.natAbs * 8 := int32_of_range (by omega)
  rw [h8, int32_of_range (by omega)]
  omega

lemma shiftWord_of_le (h0 : 0 < ssize.natAbs) (hn : ssize.natAbs ≤ 8) (w : Word) :
    shiftWord ssize w = if ssize < 0 then (w <<< (64 - 8 * ssize.natAbs)).sshiftRight (64 - 8 * ssize.natAbs)
      else (w <<< (64 - 8 * ssize.natAbs)) >>> (64 - 8 * ssize.natAbs) := by
  have hk : ((BitVec.ofInt 32 (64 - 8 * (ssize.natAbs : ℤ))).signExtend 64).toNat % 64 = 64 - 8 * ssize.natAbs := by
    have hall : ∀ n : ℕ, n < 9 → 0 < n →
        ((BitVec.ofInt 32 (64 - 8 * (n : ℤ))).signExtend 64).toNat % 64 = 64 - 8 * n := by decide
    exact hall _ (by omega) h0
  rw [shiftWord, shiftOf_absSize hn, hk]
  by_cases h8 : ssize.natAbs = 8
  · simp [h8]
  · rw [if_neg (by omega)]

lemma extended_shiftWord (h0 : 0 < ssize.natAbs) (hn : ssize.natAbs ≤ 8) (w : Word) :
    Extended ssize (w.toNat % 256 ^ ssize.natAbs) (shiftWord ssize w) := by
  have hpow : 256 ^ ssize.natAbs = 2 ^ (8 * ssize.natAbs) := by
    rw [show (256 : ℕ) = 2 ^ 8 from rfl, ← pow_mul]
  rw [Extended, shiftWord_of_le h0 hn]
  by_cases hneg : ssize < 0
  · rw [if_pos hneg, if_pos hneg, toInt_shifts w (by omega) (by omega), hpow]
    rw [Int.natCast_emod, Int.emod_bmod]
  · rw [if_neg hneg, if_neg hneg, toNat_shifts w (by omega), hpow]

lemma Extended.mod (h : Extended ssize v w) (h1 : n ≤ ssize.natAbs) (h8 : n ≤ 8) :
    w.toNat % 256 ^ n = v % 256 ^ n := by
  unfold Extended at h
  split at h
  · have hw := bmod_emod_of_dvd w.toNat (Nat.pow_dvd_pow 256 h8)
    have hv := bmod_emod_of_dvd v (pow_dvd_pow 256 h1)
    rw [← toInt_eq_toNat_bmod, h, hv] at hw
    exact_mod_cast hw.symm
  · rw [h]

end

/-! ## Constants -/

/-- Constants that come out right.  Those from `2 ^ 31` to `2 ^ 32` are stored with the sign of their 32 bits; a
constant of a signed size is right if that gives its value, and all others if they fit. -/
def ConstExact (ssize val : ℤ) : Prop :=
  let m : ℤ := 256 ^ ssize.natAbs
  if ssize < 0 then
    if 2 ^ 31 ≤ val ∧ val < 2 ^ 32 then ssize.natAbs ≤ 4 ∧ 2 ^ 32 - m / 2 ≤ val else -(m / 2) ≤ val ∧ val < m / 2
  else
    (0 ≤ val ∧ val < m ∧ ¬ (2 ^ 31 ≤ val ∧ val < 2 ^ 32)) ∨ (val < 0 ∧ ssize = 8)

section

variable {val : ℤ}

lemma toInt_constWord (h : -2 ^ 63 ≤ val ∧ val < 2 ^ 63) :
    (constWord val).toInt = if 2 ^ 31 ≤ val ∧ val < 2 ^ 32 then val - 2 ^ 32 else val := by
  have h64 : (BitVec.ofInt 64 val).toInt = val := by
    rw [toInt_ofInt, Int.bmod_eq_of_le (by omega) (by omega)]
  have hnat : ((BitVec.ofInt 64 val).toNat : ℤ) = val % 2 ^ 64 := by
    rw [toNat_ofInt]
    omega
  unfold constWord
  split
  · rw [h64]
    split <;> omega
  · rw [toInt_signExtend_of_le (by omega), toInt_ofInt]
    split
    · unfold Int.bmod
      dsimp only
      split <;> omega
    · rw [Int.bmod_eq_of_le (by omega) (by omega)]

lemma toNat_of_toInt (w : Word) : (w.toNat : ℤ) = w.toInt % 2 ^ 64 := by
  have h := bmod_emod_of_dvd w.toNat (dvd_refl (2 ^ 64))
  rw [← toInt_eq_toNat_bmod] at h
  push_cast at h
  omega

lemma bmod_eq_self_iff {m : ℕ} (hm : m % 2 = 0) (h0 : 0 < m) (z : ℤ) :
    Int.bmod z m = z ↔ -((m : ℤ) / 2) ≤ z ∧ z < (m : ℤ) / 2 := by
  constructor
  · intro h
    have h1 := Int.le_bmod (x := z) h0
    have h2 := Int.bmod_lt (x := z) h0
    omega
  · rintro ⟨h1, h2⟩
    exact Int.bmod_eq_of_le (by omega) (by omega)

section

variable (h : -2 ^ 63 ≤ val ∧ val < 2 ^ 63)
include h

lemma extended_const_signed (hneg : ssize < 0) :
    Extended ssize (val % 256 ^ ssize.natAbs).toNat (constWord val) ↔ ConstExact ssize val := by
  set n := ssize.natAbs with hn
  have h0 : 0 < n := by omega
  have heven : 256 ^ n % 2 = 0 := mod_eq_zero_of_dvd ((show 2 ∣ 256 by decide).trans (dvd_pow_self 256 h0.ne'))
  have hpos : 0 < 256 ^ n := Nat.pow_pos (by decide)
  have hval : Int.bmod ((val % 256 ^ n).toNat : ℤ) (256 ^ n) = Int.bmod val (256 ^ n) := by
    rw [Int.toNat_of_nonneg (Int.emod_nonneg _ (Int.pow_pos (by decide)).ne')]
    exact_mod_cast Int.emod_bmod val (256 ^ n)
  rw [Extended, if_pos hneg, ConstExact, if_pos hneg, ← hn, hval, toInt_constWord h]
  by_cases hgap : 2 ^ 31 ≤ val ∧ val < 2 ^ 32
  · rw [if_pos hgap, if_pos hgap]
    constructor
    · intro heq
      have hle := Int.le_bmod (x := val) hpos
      push_cast at hle
      refine ⟨?_, by omega⟩
      -- more than four bytes hold the constant as it is
      by_contra h4
      have hbig : 256 ^ 5 ≤ 256 ^ n := Nat.pow_le_pow_right (by decide) (by omega)
      have hself := (bmod_eq_self_iff heven hpos val).2 (by omega)
      omega
    · rintro ⟨h4, hle⟩
      obtain ⟨q, hq⟩ : 256 ^ n ∣ 256 ^ 4 := pow_dvd_pow 256 h4
      have hsub : Int.bmod val (256 ^ n) = Int.bmod (val - 2 ^ 32) (256 ^ n) := by
        have h32 : (2 : ℤ) ^ 32 = ((256 ^ n : ℕ) : ℤ) * q := by exact_mod_cast hq
        rw [h32, Int.sub_mul_bmod_self_left]
      rw [hsub, eq_comm, bmod_eq_self_iff heven hpos]
      push_cast
      omega
  · rw [if_neg hgap, if_neg hgap, eq_comm, bmod_eq_self_iff heven hpos]
    push_cast
    rfl

lemma extended_const_unsigned (hneg : ¬ ssize < 0) :
    Extended ssize (val % 256 ^ ssize.natAbs).toNat (constWord val) ↔ ConstExact ssize val := by
  set n := ssize.natAbs with hn
  have hnat := toNat_of_toInt (constWord val)
  rw [toInt_constWord h] at hnat
  have hpos : (0 : ℤ) < 256 ^ n := Int.pow_pos (by decide)
  rw [Extended, if_neg hneg, ConstExact, if_neg hneg, ← hn]
  have hiff : (constWord val).toNat = (val % 256 ^ n).toNat ↔ ((constWord val).toNat : ℤ) = val % 256 ^ n := by omega
  rw [hiff, hnat]
  by_cases hval : 0 ≤ val
  · by_cases hgap : 2 ^ 31 ≤ val ∧ val < 2 ^ 32
    · have hle : val % 256 ^ n ≤ val := by
        rcases lt_or_ge val (256 ^ n) with hm | hm
        · exact (Int.emod_eq_of_lt hval hm).le
        · omega
      rw [if_pos hgap]
      omega
    · rw [if_neg hgap, Int.emod_eq_of_lt hval (by omega)]
      constructor
      · intro heq
        exact .inl ⟨hval, by omega, hgap⟩
      · rintro (⟨-, hm, -⟩ | ⟨hneg', -⟩)
        · exact (Int.emod_eq_of_lt hval hm).symm
        · omega
  · have hwide : 8 ≤ n → val % 256 ^ n = val + 256 ^ n := by
      intro h8
      have hbig : (256 : ℤ) ^ 8 ≤ 256 ^ n := by exact_mod_cast Nat.pow_le_pow_right (by decide) h8
      rw [← Int.add_emod_right, Int.emod_eq_of_lt (by omega) (by omega)]
    rw [if_neg (by omega)]
    constructor
    · intro heq
      refine .inr ⟨by omega, ?_⟩
      -- fewer bytes than eight are too few for what is stored, and more are not full
      rcases Nat.lt_trichotomy n 8 with h8 | h8 | h8
      · have hsmall : (256 : ℤ) ^ n ≤ 256 ^ 7 := by exact_mod_cast Nat.pow_le_pow_right (by decide) (by omega)
        omega
      · omega
      · have hbig : (256 : ℤ) ^ 9 ≤ 256 ^ n := by exact_mod_cast Nat.pow_le_pow_right (by decide) h8
        omega
    · rintro (⟨hval', -⟩ | ⟨-, h8⟩)
      · exact absurd hval' hval
      · obtain h8 : n = 8 := by omega
        rw [h8]
        rfl

lemma extended_const_iff :
    Extended ssize (val % 256 ^ ssize.natAbs).toNat (constWord val) ↔ ConstExact ssize val := by
  by_cases hneg : ssize < 0
  · exact extended_const_signed h hneg
  · exact extended_const_unsigned h hneg

end

end

/-! ## Operands that come out right -/

/-- Operands in memory need a base, 64-bit registers, a scale that is not negative or zero and a size up to eight
bytes; registers must have the bytes that the size asks for, from the lowest on. -/
def Spec.Exact (sp : Spec) : Prop :=
  let n := sp.ssize.natAbs
  match sp.op with
  | .based _ base index =>
    (0 < n ∧ n ≤ 8) ∧ (∀ m ∈ base :: index.toList.map Prod.fst, Wide m) ∧ ∀ x ∈ index, ∀ k ∈ x.2, 0 < k
  | .indexed .. => False
  | .reg name => ∃ r, getAsmReg name = some r ∧ r.shift = 0 ∧ 256 ^ n ≤ r.mask.toNat + 1
  | .const val => ConstExact sp.ssize val

/-- The registers are known, and the size of one is that of a load. -/
def Spec.Known (sp : Spec) : Prop :=
  match sp.op with
  | .based _ base index => (∃ r, getAsmReg base = some r) ∧ ∀ x ∈ index, ∃ r, getAsmReg x.1 = some r
  | .indexed _ ireg _ => ∃ r, getAsmReg ireg = some r
  | .reg name => (∃ r, getAsmReg name = some r) ∧ 0 < sp.ssize.natAbs ∧ sp.ssize.natAbs ≤ 8
  | .const _ => True

section

variable {R : Regs} {name : List Char}

lemma and_neg_one (w : Word) : w &&& -1 = w := and_allOnes

lemma regValue_of_wide (h : Wide name) : regValue R name = rawReg R name := by
  obtain ⟨r, hr, hmask⟩ := map_eq_some_iff.1 h
  rw [regValue, rawReg, hr, elim_some, elim_some, AsmReg.value]
  cases shape_of_getAsmReg hr with
  | whole n m => rw [ushiftRight_zero, and_neg_one]
  | low n m k hk =>
    dsimp only at hmask
    rcases hk with rfl | rfl | rfl <;> exact absurd hmask (by decide)
  | high n m =>
    dsimp only at hmask
    exact absurd hmask (by decide)

lemma indexValue_of_wide {index : List Char × Option ℤ} (h : Wide index.1) (hk : ∀ k ∈ index.2, 0 < k) :
    indexValue R index = rawIndex R index := by
  obtain ⟨_, scale⟩ := index
  rw [indexValue, rawIndex, regValue_of_wide h, rawScale]
  rcases scale with _ | k
  · simp
  · simp [show 0 < k from hk k rfl]

variable {index : Option (List Char × Option ℤ)} {base : List Char} {disp : ℤ}

lemma effective_of_wide
    (h : ∀ m ∈ base :: index.toList.map Prod.fst, Wide m) (hk : ∀ x ∈ index, ∀ k ∈ x.2, 0 < k) :
    effective R disp (some base) index = rawAddr R disp base index := by
  have hindex : index.elim 0 (indexValue R) = index.elim 0 (rawIndex R) := by
    rcases index with _ | x
    · rfl
    · exact indexValue_of_wide (h x.1 (by simp)) (hk x rfl)
  rw [effective, if_pos (by simpa using h), elim_some, regValue_of_wide (h base List.mem_cons_self), hindex,
    rawAddr, BitVec.add_comm (.ofInt 64 disp), BitVec.add_assoc, BitVec.add_assoc,
    BitVec.add_comm (.ofInt 64 disp)]

variable {r : AsmReg}

lemma regValue_mod (hr : getAsmReg name = some r) (hshift : r.shift = 0)
    (hn : 256 ^ n ≤ r.mask.toNat + 1) : (regValue R name).toNat % 256 ^ n = (rawReg R name).toNat % 256 ^ n := by
  rw [regValue, rawReg, hr, elim_some, elim_some, AsmReg.value, hshift, ushiftRight_zero]
  cases shape_of_getAsmReg hr with
  | whole m l => rw [and_neg_one]
  | low m l k hk =>
    have hpow : 256 ^ k = 2 ^ (8 * k) := by rw [show (256 : ℕ) = 2 ^ 8 from rfl, ← pow_mul]
    have hlt : 256 ^ k - 1 < 2 ^ 64 := by rcases hk with rfl | rfl | rfl <;> decide
    have hle : n ≤ k := by
      rw [toNat_ofNat, mod_eq_of_lt hlt, Nat.sub_add_cancel (Nat.pow_pos (by decide))] at hn
      exact (Nat.pow_le_pow_iff_right (by decide)).1 hn
    rw [toNat_and, toNat_ofNat, mod_eq_of_lt hlt, hpow, and_two_pow_sub_one_eq_mod, ← hpow,
      mod_mod_of_dvd _ (pow_dvd_pow 256 hle)]
  | high m l => exact absurd hshift (by simp)

lemma getW_store_mod (mem : Mem) (a : Word) (hn : n ≤ 8) (hv : v < 256 ^ n) :
    ((mem.store n a v).getW a).toNat % 256 ^ n = v := by
  have hlt : (mem.store n a v).load 8 a < 2 ^ 64 := Mem.load_lt (mem.store n a v) 8 a
  rw [Mem.getW, toNat_ofNat, mod_eq_of_lt hlt, Mem.load_mod _ hn, Mem.load_store_same (by omega),
    mod_eq_of_lt hv]

variable {sp : Spec}

theorem extended_of_exact (hr : sp.Ranged) (hk : sp.Known) (hx : sp.Exact) (user mem : Mem) (a : Word) :
    Extended sp.ssize (sp.value R user) (sp.stored R user mem a) := by
  obtain ⟨ssize, op⟩ := sp
  cases op with
  | based disp base index =>
    obtain ⟨⟨h0, h8⟩, hwide, hscale⟩ := hx
    have hshift := extended_shiftWord h0 h8 ((mem.store ssize.natAbs a
      (user.load ssize.natAbs (rawAddr R disp base index))).getW a)
    rw [getW_store_mod mem a h8 (Mem.load_lt _ _ _)] at hshift
    change Extended ssize (user.load ssize.natAbs (effective R disp (some base) index)) _
    rw [effective_of_wide hwide hscale]
    exact hshift
  | indexed disp ireg scale => exact hx.elim
  | reg name =>
    obtain ⟨r, hreg, hshift, hmask⟩ := hx
    obtain ⟨-, h0, h8⟩ := hk
    have hext := extended_shiftWord h0 h8 (.ofNat 64 ((rawReg R name).toNat % 256 ^ ssize.natAbs))
    have hlt : (rawReg R name).toNat % 256 ^ ssize.natAbs < 2 ^ 64 := (mod_le _ _).trans_lt (rawReg R name).isLt
    rw [toNat_ofNat, mod_eq_of_lt hlt, mod_mod] at hext
    change Extended ssize ((regValue R name).toNat % 256 ^ ssize.natAbs) _
    rw [regValue_mod hreg hshift hmask]
    exact hext
  | const val => exact (extended_const_iff hr.2).2 hx

/-! ## Operands that do not -/

def single (m : Member) (v : Word) : Regs := update (fun _ => 0) m v

/-- A value of a single byte 1 at one address is seen from that address only. -/
def oneAt (a : Word) : Mem := update (fun _ => 0) a 1

lemma load_mod_byte (user : Mem) (a : Word) (h : 0 < n) : user.load n a % 256 = (user a).toNat := by
  have h1 := Mem.load_mod user h a
  simpa [Mem.load] using h1

lemma Extended.byte (h : Extended ssize v w) (h0 : 0 < ssize.natAbs) : w.toNat % 256 = v % 256 := by
  simpa using h.mod h0 (by omega)

lemma not_extended_big (h : 8 < ssize.natAbs) : ¬ Extended ssize (2 ^ 64) w := by
  have hbig : 256 ^ 9 ≤ 256 ^ ssize.natAbs := Nat.pow_le_pow_right (by decide) h
  unfold Extended
  split
  · have hlt := toInt_lt (x := w)
    rw [Int.bmod_eq_of_le (by omega) (by omega)]
    omega
  · have := w.isLt
    omega

/-- The specification comes out right whenever one register at most is not zero, and the argument was 1 before. -/
def Tried (sp : Spec) : Prop :=
  ∀ m v user, ∃ mem : Mem, ∃ a, mem.getW a = 1 ∧
    Extended sp.ssize (sp.value (single m v) user) (sp.stored (single m v) user mem a)

lemma rawReg_single (hr : getAsmReg name = some r) (m : Member) (v : Word) :
    rawReg (single m v) name = if r.mname = m then v else 0 := by
  rw [rawReg, hr, elim_some, single, update_apply]

variable {scale : Option ℤ}

lemma rawScale_range (h : ∀ k ∈ scale, Int32 k) : 0 < (rawScale scale).toNat ∧ (rawScale scale).toNat < 2 ^ 31 := by
  unfold rawScale
  rcases scale with _ | k
  · decide
  · obtain ⟨-, h2⟩ := h k rfl
    rw [getD_some]
    split
    · rw [toNat_ofInt]
      omega
    · decide

lemma stored_reg_mod (h0 : 0 < ssize.natAbs) (h8 : ssize.natAbs ≤ 8)
    (h : Extended ssize v (shiftWord ssize (BitVec.ofNat 64 ((rawReg R name).toNat % 256 ^ ssize.natAbs)))) :
    v % 256 ^ ssize.natAbs = (rawReg R name).toNat % 256 ^ ssize.natAbs := by
  have hlt : (rawReg R name).toNat % 256 ^ ssize.natAbs < 2 ^ 64 := (mod_le _ _).trans_lt (isLt _)
  have hext := extended_shiftWord h0 h8 (.ofNat 64 ((rawReg R name).toNat % 256 ^ ssize.natAbs))
  have hstored := hext.mod le_rfl h8
  rw [h.mod le_rfl h8, mod_mod, toNat_ofNat, mod_eq_of_lt hlt, mod_mod] at hstored
  exact hstored

lemma exact_of_tried_reg (hk : Spec.Known ⟨ssize, .reg name⟩) (h : Tried ⟨ssize, .reg name⟩) :
    Spec.Exact ⟨ssize, .reg name⟩ := by
  obtain ⟨⟨r, hr⟩, h0, h8⟩ := hk
  -- the bytes of the name are the lowest bytes of the register
  have hlow : ∀ v : Word, (r.value (single r.mname v)).toNat % 256 ^ ssize.natAbs = v.toNat % 256 ^ ssize.natAbs := by
    intro v
    obtain ⟨_, a, -, hext⟩ := h r.mname v (fun _ => 0)
    have hmod := stored_reg_mod h0 h8 hext
    rw [rawReg_single hr, if_pos rfl] at hmod
    simpa [Spec.value, regValue, hr] using hmod
  refine ⟨r, hr, ?_⟩
  have hval : ∀ m v, single m v m = v := fun m v => update_self ..
  cases shape_of_getAsmReg hr with
  | whole n m =>
    have hmask : (-1 : Word).toNat + 1 = 256 ^ 8 := by decide
    exact ⟨rfl, hmask ▸ Nat.pow_le_pow_right (by decide) h8⟩
  | low n m k hk =>
    have hmask : (BitVec.ofNat 64 (256 ^ k - 1)).toNat + 1 = 256 ^ k := by
      rcases hk with rfl | rfl | rfl <;> decide
    have hzero : (BitVec.ofNat 64 (256 ^ k) >>> 0) &&& .ofNat 64 (256 ^ k - 1) = 0 := by
      rcases hk with rfl | rfl | rfl <;> decide
    have hpow : (BitVec.ofNat 64 (256 ^ k)).toNat = 256 ^ k := by
      rcases hk with rfl | rfl | rfl <;> decide
    refine ⟨rfl, ?_⟩
    rw [hmask]
    -- otherwise the bit above the name is read as well
    by_contra hlt
    have h1 := hlow (.ofNat 64 (256 ^ k))
    rw [AsmReg.value, hval, hzero, hpow, mod_eq_of_lt (not_le.1 hlt)] at h1
    exact absurd h1.symm (Nat.pow_pos (by decide)).ne'
  | high n m =>
    have hone : (1 : Word) >>> 8 &&& 0xff = 0 := by decide
    have hlt : (1 : Word).toNat < 256 ^ ssize.natAbs := one_lt_pow h0.ne' (by decide)
    have h1 := hlow 1
    rw [AsmReg.value, hval, hone, mod_eq_of_lt hlt] at h1
    exact absurd h1 (by simp)

lemma exact_of_tried_const {val : ℤ} (hr : Spec.Ranged ⟨ssize, .const val⟩) (h : Tried ⟨ssize, .const val⟩) :
    Spec.Exact ⟨ssize, .const val⟩ := by
  obtain ⟨_, a, -, hext⟩ := h .ax 0 (fun _ => 0)
  exact (extended_const_iff hr.2).1 hext

/-- Without a base, the address is stored and not what is there. -/
lemma not_tried_indexed (hr : Spec.Ranged ⟨ssize, .indexed disp name scale⟩)
    (hk : Spec.Known ⟨ssize, .indexed disp name scale⟩) : ¬ Tried ⟨ssize, .indexed disp name scale⟩ := by
  intro h
  obtain ⟨r, hreg⟩ := hk
  have hstored : ∀ v user mem a, Spec.stored ⟨ssize, .indexed disp name scale⟩ (single r.mname v) user mem a =
      v * rawScale scale + .ofInt 64 disp := by
    intro v user mem a
    change rawIndex _ (name, scale) + _ = _
    rw [rawIndex, rawReg_single hreg, if_pos rfl]
  by_cases h0 : ssize.natAbs = 0
  · -- no bytes are worth zero
    have hzero : ∀ v, (v * rawScale scale + .ofInt 64 disp).toNat = 0 := by
      intro v
      obtain ⟨mem, a, -, hext⟩ := h r.mname v (fun _ => 0)
      rw [hstored, Extended, if_neg (by dsimp only; omega)] at hext
      rw [hext]
      simp [Spec.value, h0, Mem.load]
    have hdisp := hzero 0#64
    have hone := hzero 1#64
    have hscale : 0 < (rawScale scale).toNat := (rawScale_range hr.2.2).1
    rw [zero_mul, BitVec.zero_add] at hdisp
    rw [BitVec.one_mul, toNat_add, hdisp] at hone
    omega
  · -- bytes that are all zero or all one
    have hbyte : ∀ c : BitVec 8, (0 * rawScale scale + .ofInt 64 disp).toNat % 256 = c.toNat := by
      intro c
      obtain ⟨_, a, -, hext⟩ := h r.mname 0 (fun _ => c)
      rw [hstored] at hext
      rw [hext.byte (by dsimp only; omega)]
      exact load_mod_byte (fun _ => c) _ (pos_of_ne_zero h0)
    have := (hbyte 0).symm.trans (hbyte 1)
    exact absurd this (by decide)

section

lemma size_of_tried_based (hr : Spec.Ranged ⟨ssize, .based disp base index⟩)
    (h : Tried ⟨ssize, .based disp base index⟩) : 0 < ssize.natAbs ∧ ssize.natAbs ≤ 8 := by
  constructor
  · -- nothing is read, and the argument stays
    by_contra h0
    obtain rfl : ssize = 0 := by omega
    obtain ⟨mem, a, hone, hext⟩ := h .ax 0 (fun _ => 0)
    have hstored : Spec.stored ⟨0, .based disp base index⟩ (single .ax 0) (fun _ => 0) mem a =
        shiftWord 0 (mem.getW a) := rfl
    rw [hstored, hone] at hext
    exact absurd hext (by simp [Spec.value, Mem.load]; decide)
  · -- the value does not fit
    by_contra h8
    set user : Mem := Mem.store (fun _ => 0) ssize.natAbs (effective (single .ax 0) disp (some base) index) (2 ^ 64)
    obtain ⟨_, a, -, hext⟩ := h .ax 0 user
    have hvalue : Spec.value ⟨ssize, .based disp base index⟩ (single .ax 0) user = 2 ^ 64 := by
      have hbig : 256 ^ 9 ≤ 256 ^ ssize.natAbs := Nat.pow_le_pow_right (by decide) (by omega)
      have hsize : ssize.natAbs ≤ 2 ^ 64 := by
        have := hr.1
        simp only [Int32] at this
        omega
      exact (Mem.load_store_same hsize).trans (mod_eq_of_lt (by omega))
    rw [hvalue] at hext
    exact not_extended_big (show 8 < ssize.natAbs by omega) hext

lemma rawAddr_of_tried (h : Tried ⟨ssize, .based disp base index⟩) (h0 : 0 < ssize.natAbs) (h8 : ssize.natAbs ≤ 8)
    (m : Member) (v : Word) :
    effective (single m v) disp (some base) index = rawAddr (single m v) disp base index := by
  set A := rawAddr (single m v) disp base index
  obtain ⟨mem, a, -, hext⟩ := h m v (oneAt A)
  have hstored := extended_shiftWord h0 h8 ((mem.store ssize.natAbs a ((oneAt A).load ssize.natAbs A)).getW a)
  rw [getW_store_mod mem a h8 (Mem.load_lt _ _ _)] at hstored
  have hA := (hstored.byte h0).trans (load_mod_byte (oneAt A) A h0)
  have hB := (hext.byte h0).trans (load_mod_byte (oneAt A) _ h0)
  by_contra hne
  have heq := hB.symm.trans hA
  rw [oneAt, update_self, update_of_ne hne] at heq
  exact absurd heq (by decide)

lemma exists_rawAddr_big (hr : Operand.Ranged (.based disp base index)) (hbase : getAsmReg base = some r)
    (hindex : ∀ x ∈ index, ∃ r, getAsmReg x.1 = some r) :
    ∃ v, 2 ^ 32 ≤ (rawAddr (single r.mname v) disp base index).toNat := by
  obtain ⟨⟨hd1, hd2⟩, hscale⟩ := hr
  -- the index counts if it is the same register
  obtain ⟨k, hk, hidx⟩ : ∃ k : _, k.toNat < 2 ^ 31 ∧ ∀ v, index.elim 0 (rawIndex (single r.mname v)) = v * k := by
    rcases index with _ | x
    · exact ⟨0, by decide, by simp⟩
    · obtain ⟨r', hr'⟩ := hindex x rfl
      by_cases hm : r'.mname = r.mname
      · refine ⟨rawScale x.2, (rawScale_range (hscale x rfl)).2, fun v => ?_⟩
        rw [elim_some, rawIndex, rawReg_single hr', if_pos hm]
      · refine ⟨0, by decide, fun v => ?_⟩
        rw [elim_some, rawIndex, rawReg_single hr', if_neg hm]
        simp
  have haddr : ∀ v, rawAddr (single r.mname v) disp base index = v + v * k + .ofInt 64 disp := by
    intro v
    rw [rawAddr, rawReg_single hbase, if_pos rfl, hidx]
  by_cases hneg : disp < 0
  · refine ⟨0#64, ?_⟩
    rw [haddr, zero_mul, BitVec.zero_add, BitVec.zero_add, toNat_ofInt]
    omega
  · refine ⟨.ofNat 64 (2 ^ 32), ?_⟩
    rw [haddr, toNat_add, toNat_add, toNat_mul, toNat_ofInt, toNat_ofNat]
    omega

lemma exact_of_tried_based (hr : Spec.Ranged ⟨ssize, .based disp base index⟩)
    (hk : Spec.Known ⟨ssize, .based disp base index⟩) (h : Tried ⟨ssize, .based disp base index⟩) :
    Spec.Exact ⟨ssize, .based disp base index⟩ := by
  obtain ⟨h0, h8⟩ := size_of_tried_based hr h
  obtain ⟨⟨r, hbase⟩, hindex⟩ := hk
  have haddr := rawAddr_of_tried h h0 h8
  have hwide : ∀ m ∈ base :: index.toList.map Prod.fst, Wide m := by
    by_contra hnot
    obtain ⟨v, hv⟩ := exists_rawAddr_big hr.2 hbase hindex
    rw [← haddr, effective, if_neg (by simpa using hnot), toNat_ofNat] at hv
    omega
  refine ⟨⟨h0, h8⟩, hwide, fun x hx k hk => ?_⟩
  -- a factor that is not positive is taken for one
  by_contra hneg
  obtain ⟨r', hr'⟩ := hindex x hx
  obtain rfl : index = some x := hx
  obtain ⟨ireg, scale⟩ := x
  obtain rfl : scale = some k := hk
  have hone : rawReg (single r'.mname 1#64) ireg = 1#64 := by rw [rawReg_single hr', if_pos rfl]
  have hraw : rawIndex (single r'.mname 1#64) (ireg, some k) = 1#64 := by
    rw [rawIndex, hone, BitVec.one_mul, rawScale]
    exact if_neg hneg
  have hvalue : indexValue (single r'.mname 1#64) (ireg, some k) = .ofInt 64 k := by
    rw [indexValue, regValue_of_wide (hwide ireg (by simp)), hone, BitVec.one_mul]
    rfl
  have heq := haddr r'.mname 1#64
  rw [effective, if_pos (by simpa using hwide), rawAddr, elim_some, elim_some, elim_some, hraw,
    hvalue, regValue_of_wide (hwide base List.mem_cons_self), BitVec.add_comm (.ofInt 64 disp),
    BitVec.add_assoc, BitVec.add_assoc, BitVec.add_right_inj, BitVec.add_comm, BitVec.add_left_inj] at heq
  have hnat := congrArg BitVec.toNat heq
  obtain ⟨hk1, -⟩ := hr.2.2 _ rfl k rfl
  rw [toNat_ofInt] at hnat
  simp only [toNat_ofNat] at hnat
  omega

theorem exact_of_tried (hr : sp.Ranged) (hk : sp.Known) (h : Tried sp) : sp.Exact := by
  obtain ⟨_, op⟩ := sp
  cases op with
  | based disp base index => exact exact_of_tried_based hr hk h
  | indexed disp ireg scale => exact absurd h (not_tried_indexed hr hk)
  | reg name => exact exact_of_tried_reg hk h
  | const val => exact exact_of_tried_const hr h

end

end

end DTrace.Uprobe
