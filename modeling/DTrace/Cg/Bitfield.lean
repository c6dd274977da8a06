import DTrace.Cg.IntRepr

/-!
# Bit-fields

The bits of a bit-field in memory, the value C gives them, and what the generated loads and stores do to them.

* `Membinfo.bits`, `Membinfo.value` — a field in memory;
* `shifts_eq_ext` — the two shifts after a load cut a field out and extend it;
* `bits_store`, `kept_store` — what a store of the surrounding bytes does to the field and to the other bits;
* `dtCgMember_field_does`, `dtCgAsgnMember_does` — the code.
-/

namespace DTrace.Cg

open Lib Bpf BitVec Gen

/-! ## Numbers of any width -/

/-- A `w`-bit number, extended to 64 bits. -/
def ext (signed : Bool) (w x : ℕ) : Word := if signed then (BitVec.ofNat w x).signExtend 64 else BitVec.ofNat 64 x

variable {signed : Bool}

lemma getLsbD_ext {w x i : ℕ} (hx : x < 2 ^ w) (hi : i < 64) :
    (ext signed w x).getLsbD i = if i < w then x.testBit i else signed && x.testBit (w - 1) := by
  unfold ext
  cases signed with
  | false =>
    simp only [Bool.false_eq_true, if_false, Bool.false_and, getLsbD_ofNat, hi, decide_true, Bool.true_and]
    split
    · rfl
    · next hw => exact Nat.testBit_lt_two_pow (hx.trans_le (Nat.pow_le_pow_right (by decide) (by omega)))
  | true =>
    simp only [if_true, Bool.true_and, getLsbD_signExtend, hi, decide_true, getLsbD_ofNat, msb_eq_getLsbD_last]
    split
    · next hw => simp [hw]
    · next hw =>
      by_cases h0 : w = 0
      · subst h0
        obtain rfl : x = 0 := by omega
        simp
      · simp [show w - 1 < w by omega]

lemma ext_zero (signed : Bool) (w : ℕ) : ext signed w 0 = 0#64 := by
  apply eq_of_getLsbD_eq
  intro i hi
  rw [getLsbD_ext (Nat.two_pow_pos w) hi]
  simp

/-- The field of `w` bits at bit `sh` of a loaded number, by the two shifts of the code. -/
theorem shifts_eq_ext {w sh L : ℕ} (hw : 1 ≤ w) (hsh : sh + w ≤ 64) :
    (if signed then ((BitVec.ofNat 64 L) <<< (64 - w - sh)).sshiftRight (64 - w)
      else ((BitVec.ofNat 64 L) <<< (64 - w - sh)) >>> (64 - w)) = ext signed w (L / 2 ^ sh % 2 ^ w) := by
  apply eq_of_getLsbD_eq
  intro i hi
  rw [getLsbD_ext (Nat.mod_lt _ (Nat.two_pow_pos _)) hi]
  simp only [Nat.testBit_mod_two_pow, Nat.testBit_div_two_pow]
  cases signed with
  | false =>
    simp only [Bool.false_eq_true, if_false, getLsbD_ushiftRight, getLsbD_shiftLeft, getLsbD_ofNat,
      Bool.false_and]
    split
    · next h =>
      rw [show 64 - w + i - (64 - w - sh) = i + sh by omega]
      simp [h, show 64 - w + i < 64 by omega, show ¬ 64 - w + i < 64 - w - sh by omega, show i + sh < 64 by omega]
    · next h => simp [show ¬ 64 - w + i < 64 by omega]
  | true =>
    simp only [if_true, getLsbD_sshiftRight, getLsbD_shiftLeft, getLsbD_ofNat, Bool.true_and,
      msb_eq_getLsbD_last]
    by_cases h : i < w
    · rw [if_pos h, if_pos (by omega), show 64 - w + i - (64 - w - sh) = i + sh by omega]
      simp [h, show ¬ 64 ≤ i by omega, show 64 - w + i < 64 by omega, show ¬ 64 - w + i < 64 - w - sh by omega,
        show i + sh < 64 by omega]
    · rw [if_neg h, if_neg (by omega), show 64 - 1 - (64 - w - sh) = w - 1 + sh by omega]
      simp [show ¬ 64 ≤ i by omega, show ¬ 64 - 1 < 64 - w - sh by omega, show w - 1 + sh < 64 by omega,
        show w - 1 < w by omega]

/-! ## Fields in memory -/

variable {n : ℕ} {m : Membinfo}

namespace Membinfo

/-- The bits of the field, in the structure at `a`. -/
def bits (m : Membinfo) (mem : Mem) (a : Word) : ℕ :=
  mem.load 9 (a + BitVec.ofNat 64 (m.offset / 8)) / 2 ^ (m.offset % 8) % 2 ^ m.cteBits

def value (m : Membinfo) (mem : Mem) (a : Word) : Word := ext m.signed m.cteBits (m.bits mem a)

/-- The `i`-th bit of the byte at `b` belongs to the field. -/
def InField (m : Membinfo) (a b : Word) (i : ℕ) : Prop :=
  ∃ j < m.cteBits, b = a + BitVec.ofNat 64 ((m.offset + j) / 8) ∧ i = (m.offset + j) % 8

/-- Every bit outside the field is the same. -/
def Kept (m : Membinfo) (a : Word) (mem mem' : Mem) : Prop :=
  ∀ b i, i < 8 → ¬ m.InField a b i → (mem' b).getLsbD i = (mem b).getLsbD i

variable {mem : Mem} {a : Word}

lemma bits_lt (m : Membinfo) (mem : Mem) (a : Word) : m.bits mem a < 2 ^ m.cteBits := Nat.mod_lt _ (Nat.two_pow_pos _)

lemma testBit_bits (hw : m.cteBits ≤ 64) (j : ℕ) :
    (m.bits mem a).testBit j = (decide (j < m.cteBits) && mem.bit a (m.offset + j)) := by
  rw [bits, Nat.testBit_mod_two_pow, Nat.testBit_div_two_pow, Mem.testBit_load, Mem.bit_add,
    show 8 * (m.offset / 8) + (j + m.offset % 8) = m.offset + j by omega]
  by_cases hj : j < m.cteBits
  · simp [hj, show j + m.offset % 8 < 8 * 9 by omega]
  · simp [hj]

lemma load_eq_bits (hw : m.cteBits ≤ 64) (hn : m.offset % 8 + m.cteBits ≤ 8 * n) :
    mem.load n (a + BitVec.ofNat 64 (m.offset / 8)) / 2 ^ (m.offset % 8) % 2 ^ m.cteBits = m.bits mem a := by
  apply Nat.eq_of_testBit_eq
  intro j
  rw [testBit_bits hw, Nat.testBit_mod_two_pow, Nat.testBit_div_two_pow, Mem.testBit_load, Mem.bit_add,
    show 8 * (m.offset / 8) + (j + m.offset % 8) = m.offset + j by omega]
  by_cases hj : j < m.cteBits
  · simp [hj, show j + m.offset % 8 < 8 * n by omega]
  · simp [hj]

/-- `W` is the loaded bytes with the field replaced by `v`. -/
structure Replaces (m : Membinfo) (mem : Mem) (A : Word) (n v W : ℕ) : Prop where
  inside : ∀ j < m.cteBits, W.testBit (m.offset % 8 + j) = v.testBit j
  outside : ∀ i < 8 * n, i < m.offset % 8 ∨ m.offset % 8 + m.cteBits ≤ i → W.testBit i = mem.bit A i

variable {v W : ℕ}

theorem bits_store (hw : m.cteBits ≤ 64) (hn : m.offset % 8 + m.cteBits ≤ 8 * n) (hn' : n ≤ 8)
    (h : m.Replaces mem (a + BitVec.ofNat 64 (m.offset / 8)) n v W) :
    m.bits (mem.store n (a + BitVec.ofNat 64 (m.offset / 8)) W) a = v % 2 ^ m.cteBits := by
  apply Nat.eq_of_testBit_eq
  intro j
  rw [testBit_bits hw, Nat.testBit_mod_two_pow]
  by_cases hj : j < m.cteBits
  · rw [show m.offset + j = 8 * (m.offset / 8) + (m.offset % 8 + j) by omega, ← Mem.bit_add,
      Mem.bit_store _ _ _ (by omega) (by omega), h.inside j hj]
  · simp [hj]

theorem kept_store (hn' : n ≤ 8) (h : m.Replaces mem (a + BitVec.ofNat 64 (m.offset / 8)) n v W) :
    m.Kept a mem (mem.store n (a + BitVec.ofNat 64 (m.offset / 8)) W) := by
  intro b i hi hout
  by_cases hb : Mem.InRange (a + .ofNat 64 (m.offset / 8)) n b
  · obtain ⟨d, hd, rfl⟩ := hb
    have hbit : ∀ mem' : Mem, mem'.bit (a + .ofNat 64 (m.offset / 8)) (8 * d + i) =
        (mem' (a + .ofNat 64 (m.offset / 8) + .ofNat 64 d)).getLsbD i := fun mem' => by
      rw [Mem.bit, show (8 * d + i) / 8 = d by omega, show (8 * d + i) % 8 = i by omega]
    rw [← hbit, ← hbit, Mem.bit_store _ _ _ (by omega) (by omega)]
    refine h.outside _ (by omega) ?_
    by_contra hin
    refine hout ⟨8 * d + i - m.offset % 8, by omega, ?_, by omega⟩
    rw [BitVec.add_assoc, ← ofNat_add]
    congr 2
    omega
  · rw [Mem.store_frame hb]

/-! ## What the code reads and writes -/

/-- A bit-field inside a storage unit C may give it, at an offset of a machine word; the size of its type can be loaded. -/
structure InStorage (m : Membinfo) : Prop where
  pos : 1 ≤ m.cteBits
  le : m.cteBits ≤ 64
  size : m.typeSize = 1 ∨ m.typeSize = 2 ∨ m.typeSize = 4 ∨ m.typeSize = 8
  offset_lt : m.offset < 2 ^ 64
  fits : ∃ T, (T = 8 ∨ T = 16 ∨ T = 32 ∨ T = 64) ∧ m.offset % T + m.cteBits ≤ T

lemma InStorage.shift_le (h : m.InStorage) : m.offset % 8 + m.cteBits ≤ 64 := by
  obtain ⟨T, hT, hfits⟩ := h.fits
  rcases hT with rfl | rfl | rfl | rfl <;> omega

lemma clp2_bytes : ∀ w : Fin 65, 1 ≤ w.val → (clp2 (BitVec.ofNat 64 ((w.val + 7) / 8))).toNat ∈ [1, 2, 4, 8] := by
  decide +kernel

/-- Only fields of these widths are not marked as bit-fields. -/
lemma width_of_plain : ∀ w : Fin 65, 1 ≤ w.val → Membinfo.bitfield ⟨0, 0, w.val, 0, false⟩ = false →
    w.val = 8 ∨ w.val = 16 ∨ w.val = 32 ∨ w.val = 64 := by
  decide +kernel

lemma InStorage.width (h : m.InStorage) (hm : m.bitfield = false) :
    m.cteBits = 8 ∨ m.cteBits = 16 ∨ m.cteBits = 32 ∨ m.cteBits = 64 :=
  width_of_plain ⟨m.cteBits, by have := h.le; omega⟩ h.pos hm

lemma InStorage.width_lt (h : m.InStorage) (hm : m.bitfield = true) : m.cteBits < 64 := by
  refine lt_of_le_of_ne h.le fun heq => ?_
  rw [bitfield, heq] at hm
  exact absurd hm (by decide)

lemma InStorage.ldsize (h : m.InStorage) : ∃ sz, bpfLdstSize m.ldsize = some sz ∧ sz.bytes = m.ldsize := by
  have hsize : m.ldsize = 1 ∨ m.ldsize = 2 ∨ m.ldsize = 4 ∨ m.ldsize = 8 := by
    unfold Membinfo.ldsize
    split
    · simpa [fieldSize] using clp2_bytes ⟨m.cteBits, by have := h.le; omega⟩ h.pos
    · exact h.size
  rcases hsize with hsize | hsize | hsize | hsize <;> rw [hsize]
  · exact ⟨.b, rfl, rfl⟩
  · exact ⟨.h, rfl, rfl⟩
  · exact ⟨.w, rfl, rfl⟩
  · exact ⟨.dw, rfl, rfl⟩

/-- The offset the code adds to the pointer. -/
def codeOffset (m : Membinfo) : ℕ := if m.bitfield then m.offset else m.ctmOffset

/-- The address the code loads from and stores to. -/
def codeAddr (m : Membinfo) (k : PtrKind) (s : St Func) (p : Word) : Word :=
  if m.bitfield then memberPtr p m.codeOffset else k.addr s (memberPtr p m.codeOffset)

/-- What the code makes of the number it has loaded. -/
def loaded (m : Membinfo) (L : ℕ) : Word :=
  if m.bitfield then ext m.signed m.cteBits (L / 2 ^ (m.offset % 8) % 2 ^ m.cteBits) else BitVec.ofNat 64 L

def stored (m : Membinfo) (L : ℕ) (v : Word) : Word :=
  if m.bitfield then (BitVec.ofNat 64 L &&& ~~~(m.fmask <<< (m.offset % 8))) ||| ((m.fmask &&& v) <<< (m.offset % 8)) else v

lemma getLsbD_fmask (hw : m.cteBits < 64) (i : ℕ) : m.fmask.getLsbD i = decide (i < m.cteBits) := by
  have hlt : 2 ^ m.cteBits < 2 ^ 64 := Nat.pow_lt_pow_right (by decide) hw
  have hpos := Nat.two_pow_pos m.cteBits
  have htoNat : m.fmask.toNat = 2 ^ m.cteBits - 1 := by
    rw [fmask, toNat_sub, toNat_shiftLeft, Nat.shiftLeft_eq]
    have hone : BitVec.toNat (1 : Word) = 1 := rfl
    simp only [hone, toNat_ofNat, Nat.one_mod, Nat.one_mul]
    omega
  rw [getLsbD, htoNat, Nat.testBit_two_pow_sub_one]

lemma replaces_stored {A : Word} (h : m.InStorage) (hm : m.bitfield = true) (hn' : n ≤ 8) (v : Word) :
    m.Replaces mem A n v.toNat (m.stored (mem.load n A) v).toNat := by
  have hw := h.width_lt hm
  have hshift := h.shift_le
  have hbit : ∀ i < 64, (m.stored (mem.load n A) v).toNat.testBit i =
      if m.offset % 8 ≤ i ∧ i < m.offset % 8 + m.cteBits then v.toNat.testBit (i - m.offset % 8)
      else (mem.load n A).testBit i := by
    intro i hi
    rw [stored, if_pos hm, testBit_toNat, getLsbD_or, getLsbD_and, getLsbD_not,
      getLsbD_shiftLeft, getLsbD_shiftLeft, getLsbD_and, getLsbD_fmask hw, getLsbD_ofNat]
    split
    · next hin =>
      simp [hi, show ¬ i < m.offset % 8 by omega, show i - m.offset % 8 < m.cteBits by omega, testBit_toNat]
    · next hout =>
      by_cases hlow : i < m.offset % 8
      · simp [hi, hlow]
      · simp [hi, hlow, show ¬ i - m.offset % 8 < m.cteBits by omega]
  refine ⟨fun j hj => ?_, fun i hi hout => ?_⟩
  · rw [hbit _ (by omega), if_pos (by omega), Nat.add_sub_cancel_left]
  · rw [hbit _ (by omega), if_neg (by omega), Mem.testBit_load]
    simp [hi]

end Membinfo

/-! ## The code of a load -/

section

variable {C : Callee Func} {P : CgCode} {k : PtrKind} {sz : Size} {reg src : Reg} {s : St Func} {S : Regset}
  {lbl : ℕ} {u : Unit} {c : CgCode} {g' : GState} {scratchsize : BitVec 32}

/-- The member may be accessed by the code, through the pointer in `reg`. -/
structure FieldReady (C : Callee Func) (scratchsize : BitVec 32) (k : PtrKind) (m : Membinfo) (S : Regset) (s : St Func)
    (reg : Reg) : Prop where
  ne_zero : reg ≠ 0
  ne_fp : reg ≠ fp
  nonnull : s.regs reg ≠ 0#64
  ok : k.Ok C scratchsize S (s.setReg reg (memberPtr (s.regs reg) m.codeOffset)) reg m.ldsize

lemma dtCgFieldLoad_does (hC : ProbeReads C) (h : dtCgFieldLoad k sz reg ⟨S, lbl⟩ = some (u, c, g')) (hlbl : lbl ≠ 0)
    (hP : LabelsNodup P) (hreg : reg ≠ fp) (hok : k.Ok C scratchsize S s reg sz.bytes) :
    ∃ s', Does (exec C) P c s s' ∧ s'.regs reg = BitVec.ofNat 64 (s.mem.load sz.bytes (s.regs reg)) := by
  unfold dtCgFieldLoad at h
  split at h
  · next hk =>
    subst hk
    obtain ⟨s', hrun, hval, -⟩ := dtCgLoadScalar_does hC h hlbl hP hreg hok
    exact ⟨s', hrun, hval⟩
  · obtain ⟨rfl, -⟩ : _ ∧ _ := by simpa [emit] using h
    obtain ⟨s', hrun, hval, -⟩ := exec_load_does sz hreg s
    exact ⟨s', hrun, hval⟩

lemma exec_shift_left {i : BitVec 32} (hi : i = imm n) (hn : n < 64) (s : St Func) :
    exec C (.aluImm .lsh reg i) s = .next (s.setReg reg (s.regs reg <<< n)) := by
  rw [exec_aluImm, hi, imm_signExtend (by omega), AluOp.eval, toNat_ofNat]
  congr 3
  omega

lemma exec_shift_right (signed : Bool) (hn : n < 64) (s : St Func) :
    exec C (.aluImm (if signed then .arsh else .rsh) reg (imm n)) s =
      .next (s.setReg reg (if signed then (s.regs reg).sshiftRight n else s.regs reg >>> n)) := by
  have hmod : (BitVec.ofNat 64 n).toNat % 64 = n := by
    rw [toNat_ofNat]
    omega
  rw [exec_aluImm, imm_signExtend (by omega)]
  cases signed <;> simp only [AluOp.eval, hmod, Bool.false_eq_true, if_true, if_false]

lemma fieldShifts_does (hm : m.InStorage) {L : ℕ} (hL : s.regs reg = BitVec.ofNat 64 L) :
    ∃ s', Does (exec C) P (plain [.aluImm .lsh reg (BitVec.ofInt 32 (64 - m.cteBits - (m.offset % 8 : ℕ))),
        .aluImm (if m.signed then .arsh else .rsh) reg (imm (64 - m.cteBits))]) s s' ∧
      s'.regs reg = ext m.signed m.cteBits (L / 2 ^ (m.offset % 8) % 2 ^ m.cteBits) := by
  have hpos := hm.pos
  have hshift := hm.shift_le
  have himm : .ofInt 32 (64 - m.cteBits - (m.offset % 8 : ℕ)) = imm (64 - m.cteBits - m.offset % 8) := by
    rw [imm, ← ofInt_natCast]
    congr 1
    omega
  refine ⟨_, .cons (exec_shift_left himm (by omega) s) (.cons (exec_shift_right _ (by omega) _) (.nil _)), ?_⟩
  rw [setReg_regs_self, setReg_regs_self, hL, ← shifts_eq_ext hpos hshift]

theorem dtCgMember_field_does (hm : m.InStorage) (hC : ProbeReads C)
    (h : dtCgMember scratchsize k m false reg ⟨S, lbl⟩ = some (u, c, g')) (hlbl : lbl ≠ 0) (hP : LabelsNodup P)
    (hready : FieldReady C scratchsize k m S s reg) :
    ∃ s', Does (exec C) P c s s' ∧ s'.regs reg = m.loaded (s.mem.load m.ldsize (m.codeAddr k s (s.regs reg))) := by
  obtain ⟨_, hsz, hbytes⟩ := hm.ldsize
  have hok := hready.ok
  rw [← hbytes] at hok
  cases hf : m.bitfield with
  | false =>
    simp only [Membinfo.codeOffset, hf, Bool.false_eq_true, if_false] at hok
    obtain ⟨s', hrun, hval⟩ :=
      dtCgMember_plain_does hf hsz hC h hlbl hP hready.ne_fp hready.ne_zero hready.nonnull hok
    refine ⟨s', hrun, hval.trans ?_⟩
    simp [Membinfo.loaded, Membinfo.codeAddr, Membinfo.codeOffset, hf, hbytes]
  | true =>
    obtain ⟨_, _, _, _, hcheck, h1, rfl⟩ := bind_eq_some.1 h
    obtain ⟨hrun1, rfl⟩ := dtCgCheckNotnull_does hcheck hP hlbl hready.nonnull
    have hle := hm.le
    simp only [hf, if_true, dtCgFieldGet, if_neg (show ¬ m.cteBits > 64 by omega), emits_bind, hsz, Bool.false_eq_true,
      if_false] at h1
    obtain ⟨_, h2, rfl⟩ := h1
    obtain ⟨_, _, _, _, hload, hshifts, rfl⟩ := bind_eq_some.1 h2
    obtain ⟨rfl, -⟩ : _ ∧ _ := by simpa [emits] using hshifts
    simp only [Membinfo.codeOffset, hf, if_true] at hok
    obtain ⟨_, hrun2, hval2⟩ := dtCgFieldLoad_does hC hload (Nat.succ_ne_zero _) hP hready.ne_fp hok
    obtain ⟨s3, hrun3, hval3⟩ := fieldShifts_does hm hval2
    refine ⟨s3, hrun1.append ((does_memberPtr (by omega) s).append (hrun2.append hrun3)), hval3.trans ?_⟩
    rw [setReg_regs_self, setReg_mem, hbytes]
    simp [Membinfo.loaded, Membinfo.codeAddr, Membinfo.codeOffset, hf]

/-! ## The code of a store -/

/-- The next two registers that are handed out are no others of the list, nor the same. -/
def Regset.Spare (S : Regset) (rs : List Reg) : Prop :=
  ∀ q, S.pick = some q → q ∉ rs ∧ ∀ q', (S.claim q).pick = some q' → q' ∉ q :: rs

variable {dst : Reg}

/-- The instructions of `dt_cg_field_set`, with the masks as parameters. -/
lemma execBlock_fieldSet (sz : Size) {r1 r2 : Reg} (h12 : r2 ≠ r1) (hs1 : src ≠ r1) (hs2 : src ≠ r2) (hd : dst ≠ fp)
    (cmask fmask : Word) {shift : ℕ} (hshift : shift < 64) (s : St Func) :
    ∃ s', execBlock (exec C) ([.load sz r1 dst 0, dtCgSetx r2 cmask, .aluReg .and r1 r2, dtCgSetx r2 fmask,
        .aluReg .and r2 src] ++ ((if shift > 0 then [.aluImm .lsh r2 (imm shift)] else []) ++ [.aluReg .or r1 r2])) s =
      some s' ∧ St.Only [r1, r2] s s' ∧
      s'.regs r1 = (BitVec.ofNat 64 (s.mem.load sz.bytes (s.regs dst)) &&& cmask) ||| ((fmask &&& s.regs src) <<< shift) := by
  set L := BitVec.ofNat 64 (s.mem.load sz.bytes (s.regs dst)) with hL
  have hload : s.loadVal sz dst 0 = L := by simp [St.loadVal, hd, St.addr, hL]
  let s1 := (((((s.setReg r1 L).setReg r2 cmask).setReg r1 (L &&& cmask)).setReg r2 fmask).setReg r2 (fmask &&& s.regs src))
  have hmask : execBlock (exec C) [.load sz r1 dst 0, dtCgSetx r2 cmask, .aluReg .and r1 r2, dtCgSetx r2 fmask,
      .aluReg .and r2 src] s = some s1 := by
    simp [execBlock, exec, dtCgSetx, AluOp.eval, hload, s1, h12.symm, hs1, hs2]
  have hleft : execBlock (exec C) (if shift > 0 then [.aluImm .lsh r2 (imm shift)] else []) s1 =
      some (s1.setReg r2 ((fmask &&& s.regs src) <<< shift)) := by
    have hr2 : s1.regs r2 = fmask &&& s.regs src := by simp [s1]
    split
    · rw [execBlock, exec_shift_left rfl hshift, hr2]
      rfl
    · next h0 =>
      obtain rfl : shift = 0 := by omega
      rw [shiftLeft_zero, ← hr2, setReg_self]
      rfl
  refine ⟨(s1.setReg r2 ((fmask &&& s.regs src) <<< shift)).setReg r1 ((L &&& cmask) ||| ((fmask &&& s.regs src) <<< shift)),
    ?_, ⟨fun q hq => ?_, rfl, rfl, rfl⟩, by simp⟩
  · rw [execBlock_append, hmask, Option.bind_some, execBlock_append, hleft, Option.bind_some]
    simp [execBlock, exec, AluOp.eval, s1, h12.symm]
  · obtain ⟨hq1, hq2⟩ : q ≠ _ ∧ q ≠ _ := by simpa using hq
    simp [s1, hq1, hq2]

lemma dtCgFieldSet_does {r : Reg} (hm : m.InStorage) (hf : m.bitfield = true)
    (h : dtCgFieldSet m sz src dst ⟨S, lbl⟩ = some (r, c, g')) (hspare : S.Spare [src, dst]) (hd : dst ≠ fp) :
    ∃ s', Does (exec C) P c s s' ∧ s'.regs r = m.stored (s.mem.load sz.bytes (s.regs dst)) (s.regs src) ∧
      s'.regs dst = s.regs dst ∧ s'.mem = s.mem := by
  have hle := hm.le
  simp only [dtCgFieldSet, if_neg (show ¬ m.cteBits > 64 by omega), regAlloc_bind, emits_bind, emit_bind, regFree_bind,
    pure_eq_some] at h
  obtain ⟨r1, hr1, _, ⟨r2, hr2, _, ⟨_, ⟨_, ⟨_, ⟨_, ⟨rfl, rfl, -⟩, rfl⟩, rfl⟩, rfl⟩, rfl⟩, rfl⟩, rfl⟩ := h
  obtain ⟨hout1, hspare2⟩ := hspare r1 hr1
  obtain ⟨h12, hout2⟩ : r2 ≠ r1 ∧ r2 ∉ [src, dst] := by simpa using hspare2 r2 hr2
  obtain ⟨hs1, hd1⟩ : r1 ≠ src ∧ r1 ≠ dst := by simpa using hout1
  obtain ⟨hs2, hd2⟩ : r2 ≠ _ ∧ r2 ≠ _ := by simpa using hout2
  set s1 := afterClaim (S.claim r1) r2 (afterClaim S r1 s)
  have hregs : s1.regs = s.regs := by rw [afterClaim_regs, afterClaim_regs]
  have hmem : s1.mem = s.mem := by rw [afterClaim_mem, afterClaim_mem]
  obtain ⟨s2, hrun2, honly2, hval2⟩ := execBlock_fieldSet sz h12 hs1.symm hs2.symm hd
    (~~~(m.fmask <<< (m.offset % 8))) m.fmask (show m.offset % 8 < 64 by omega) s1
  obtain ⟨s3, hrun3, honly3⟩ := execBlock_free_only ((S.claim r1).claim r2) r2 s2
  refine ⟨s3, ?_, ?_, ?_, by rw [honly3.mem, honly2.mem, hmem]⟩
  · have hblock := Does.block (P := P) hrun2
    simpa [plain] using (Does.block (execBlock_claim S r1 s)).append ((Does.block (execBlock_claim (S.claim r1) r2 _)).append
      (hblock.append (Does.block hrun3)))
  · rw [honly3.regs _ (by simpa using h12.symm), hval2, hregs, hmem, Membinfo.stored, if_pos hf]
  · rw [honly3.regs _ (by simpa using hd2.symm), honly2.regs _ (by simpa using ⟨hd1.symm, hd2.symm⟩), hregs]

lemma dtCgMember_ref_does (hm : m.InStorage) (h : dtCgMember scratchsize k m true reg ⟨S, lbl⟩ = some (u, c, g'))
    (hlbl : lbl ≠ 0) (hP : LabelsNodup P) (hnull : s.regs reg ≠ 0#64) :
    Does (exec C) P c s (s.setReg reg (memberPtr (s.regs reg) m.codeOffset)) ∧ g' = ⟨S, lbl + 1⟩ := by
  obtain ⟨_, _, _, _, hcheck, h1, rfl⟩ := bind_eq_some.1 h
  obtain ⟨hrun1, rfl⟩ := dtCgCheckNotnull_does hcheck hP hlbl hnull
  unfold Membinfo.codeOffset
  cases hf : m.bitfield with
  | false =>
    simp only [hf, Bool.false_eq_true, if_false, if_true, emits_bind, pure_eq_some] at h1
    obtain ⟨c3, ⟨-, rfl, rfl⟩, rfl⟩ := h1
    rw [List.append_nil]
    exact ⟨hrun1.append (does_memberPtr (by omega) s), rfl⟩
  | true =>
    have hle := hm.le
    simp only [hf, if_true, dtCgFieldGet, if_neg (show ¬ m.cteBits > 64 by omega), emits_bind, pure_eq_some] at h1
    obtain ⟨_, ⟨-, rfl, rfl⟩, rfl⟩ := h1
    rw [List.append_nil]
    exact ⟨hrun1.append (does_memberPtr (by omega) s), rfl⟩

lemma storeVal_mem (sz : Size) {d : Reg} (hd : d ≠ fp) (v : Word) (s : St Func) :
    (s.storeVal sz d 0 v).mem = s.mem.store sz.bytes (s.regs d) v.toNat := by
  simp [St.storeVal, hd, St.addr]

lemma letsThrough_afterClaim {q : Reg} :
    LetsThrough scratchsize (afterClaim S q s) reg (.imm n) ↔ LetsThrough scratchsize s reg (.imm n) := by
  simp only [LetsThrough, topWord, scratchTop, syscallErrno, mstate, afterClaim_regs, afterClaim_mem, afterClaim_dctx,
    SizeArg.word]

lemma dtCgAllocaPtr_other_does {dreg sreg : Reg} {g : GState} (h : dtCgAllocaPtr dreg sreg g = some (u, c, g'))
    (hne : dreg ≠ sreg) (hfp : dreg ≠ fp) :
    ∃ s', Does (exec C) P c s s' ∧ St.Only [dreg] s s' ∧
      s'.regs dreg = s.regs sreg + dctxField (s.stk dtStkDctx) s.mem .scratchmem := by
  simp only [dtCgAllocaPtr, if_neg hne, emits_bind] at h
  obtain ⟨_, h1, rfl⟩ := h
  obtain ⟨rfl, -⟩ : _ ∧ _ := by simpa [emit] using h1
  obtain ⟨s1, hrun1, honly1, hval⟩ := execBlock_accessDctx dreg hfp .scratchmem s
  refine ⟨s1.setReg dreg (s1.regs dreg + s1.regs sreg), (Does.block hrun1).append (.cons rfl (.nil _)),
    ⟨fun q hq => ?_, honly1.stk, honly1.mem, honly1.calls⟩, ?_⟩
  · rw [setReg_regs_ne _ _ (by simpa using hq), honly1.regs q hq]
  · rw [setReg_regs_self, hval, honly1.regs sreg (by simpa using hne.symm), BitVec.add_comm]

lemma dtCgStore_alloca_does (hsz : bpfLdstSize m.ldsize = some sz) (hf : m.bitfield = false)
    (h : dtCgStore scratchsize .alloca m src dst ⟨S, lbl⟩ = some (u, c, g')) (hlbl : lbl ≠ 0) (hP : LabelsNodup P)
    (hspare : S.Spare [src, dst]) (hd : dst ≠ 0) (hsrc : src ≠ 0) (hok : LetsThrough scratchsize s dst (.imm m.ldsize)) :
    ∃ s', Does (exec C) P c s s' ∧
      s'.mem = s.mem.store sz.bytes (PtrKind.alloca.addr s (s.regs dst)) (s.regs src).toNat := by
  simp only [dtCgStore, hsz, if_true, hf, Bool.false_eq_true, if_false, regAlloc_bind] at h
  obtain ⟨dreg, hpick, _, h1, rfl⟩ := h
  obtain ⟨hs, hne⟩ : dreg ≠ src ∧ dreg ≠ dst := by simpa using (hspare dreg hpick).1
  have hfp := (pick_picks hpick).ne_fp
  obtain ⟨_, _, _, _, hcheck, h2, rfl⟩ := bind_eq_some.1 h1
  obtain ⟨_, _, g3, _, hptr, h3, rfl⟩ := bind_eq_some.1 h2
  simp only [emit_bind, regFree_eq, Option.some.injEq, Prod.mk.injEq, true_and] at h3
  obtain ⟨_, ⟨rfl, -⟩, rfl⟩ := h3
  obtain ⟨_, hrun1, hs1⟩ := (dtCgAllocaAccessCheck_does hcheck hlbl hd
    (by simp) hP).1 (letsThrough_afterClaim.2 hok)
  obtain ⟨s2, hrun2, honly2, hval2⟩ := dtCgAllocaPtr_other_does hptr hne hfp
  obtain ⟨s3, hrun3, honly3⟩ := execBlock_free_only g3.regs dreg (s2.storeVal sz dreg 0 (s2.regs src))
  refine ⟨s3, (Does.block (execBlock_claim S dreg s)).append (hrun1.append (hrun2.append
    (.cons rfl (.block hrun3)))), ?_⟩
  rw [honly3.mem, storeVal_mem sz hfp, hval2, honly2.mem, honly2.regs src (by simpa using hs.symm), hs1.regs dst hd,
    hs1.regs src hsrc, hs1.mem, hs1.dctx, afterClaim_regs, afterClaim_mem, afterClaim_dctx]
  rfl

lemma dtCgStore_direct_does (hm : m.InStorage) (hsz : bpfLdstSize m.ldsize = some sz) (hk : k ≠ .alloca)
    (h : dtCgStore scratchsize k m src dst ⟨S, lbl⟩ = some (u, c, g')) (hspare : S.Spare [src, dst]) (hd : dst ≠ fp) :
    ∃ s', Does (exec C) P c s s' ∧ s'.mem = s.mem.store sz.bytes (s.regs dst)
      (m.stored (s.mem.load sz.bytes (s.regs dst)) (s.regs src)).toNat := by
  cases hf : m.bitfield with
  | false =>
    simp only [dtCgStore, hsz, if_neg hk, hf, Bool.false_eq_true, if_false] at h
    obtain ⟨rfl, -⟩ : _ ∧ _ := by simpa [emit] using h
    refine ⟨_, .cons rfl (.nil _), ?_⟩
    rw [storeVal_mem sz hd, Membinfo.stored, if_neg (by simp [hf])]
  | true =>
    simp only [dtCgStore, hsz, if_neg hk, hf, if_true] at h
    obtain ⟨sreg, _, g1, _, hset, h1, rfl⟩ := bind_eq_some.1 h
    simp only [emit_bind, regFree_eq, Option.some.injEq, Prod.mk.injEq, true_and] at h1
    obtain ⟨_, ⟨rfl, -⟩, rfl⟩ := h1
    obtain ⟨s1, hrun1, hval1, hdst1, hmem1⟩ := dtCgFieldSet_does hm hf hset hspare hd
    obtain ⟨s2, hrun2, honly2⟩ := execBlock_free_only g1.regs sreg (s1.storeVal sz dst 0 (s1.regs sreg))
    refine ⟨s2, hrun1.append (.cons rfl (.block hrun2)), ?_⟩
    rw [honly2.mem, storeVal_mem sz hd, hval1, hdst1, hmem1]

theorem dtCgAsgnMember_does (hm : m.InStorage) (h : dtCgAsgnMember scratchsize k m src reg ⟨S, lbl⟩ = some (u, c, g'))
    (hlbl : lbl ≠ 0) (hP : LabelsNodup P) (hready : FieldReady C scratchsize k m S s reg) (hspare : S.Spare [src, reg])
    (hne : src ≠ reg) (hsrc : src ≠ 0) :
    ∃ s', Does (exec C) P c s s' ∧ s'.mem = s.mem.store m.ldsize (m.codeAddr k s (s.regs reg))
      (m.stored (s.mem.load m.ldsize (m.codeAddr k s (s.regs reg))) (s.regs src)).toNat := by
  obtain ⟨_, hsz, hbytes⟩ := hm.ldsize
  obtain ⟨_, _, _, _, hptr, h1, rfl⟩ := bind_eq_some.1 h
  obtain ⟨hrun1, rfl⟩ := dtCgMember_ref_does hm hptr hlbl hP hready.nonnull
  obtain ⟨_, c3, g2, _, hstore, hfree, rfl⟩ := bind_eq_some.1 h1
  rw [regFree_eq] at hfree
  obtain ⟨rfl, -⟩ : _ ∧ _ := by simpa using hfree
  set s1 := s.setReg reg (memberPtr (s.regs reg) m.codeOffset)
  have hstored : ∃ s2, Does (exec C) P c3 s1 s2 ∧ s2.mem = s.mem.store m.ldsize (m.codeAddr k s (s.regs reg))
      (m.stored (s.mem.load m.ldsize (m.codeAddr k s (s.regs reg))) (s.regs src)).toNat := by
    have hsrc1 : s1.regs src = s.regs src := setReg_regs_ne _ _ hne
    have hreg1 : s1.regs reg = memberPtr (s.regs reg) m.codeOffset := setReg_regs_self _ _ _
    by_cases hk : k = .alloca
    · subst hk
      cases hf : m.bitfield with
      | true =>
        simp only [dtCgStore, hsz, if_true, hf] at hstore
        cases hstore
      | false =>
        obtain ⟨s2, hrun2, hmem2⟩ := dtCgStore_alloca_does hsz hf hstore (Nat.succ_ne_zero _) hP
          hspare hready.ne_zero hsrc hready.ok.1
        refine ⟨s2, hrun2, ?_⟩
        rw [hmem2, hsrc1, hreg1, hbytes]
        simp only [Membinfo.stored, Membinfo.codeAddr, hf, Bool.false_eq_true, if_false]
        rfl
    · have haddr : ∀ p, k.addr s p = p := fun p => if_neg hk
      obtain ⟨s2, hrun2, hmem2⟩ := dtCgStore_direct_does hm hsz hk hstore hspare hready.ne_fp
      refine ⟨s2, hrun2, ?_⟩
      rw [hmem2, hsrc1, hreg1, hbytes]
      simp only [Membinfo.codeAddr, haddr, ite_self]
      rfl
  obtain ⟨s2, hrun2, hmem2⟩ := hstored
  obtain ⟨s3, hrun3, honly3⟩ := execBlock_free_only g2.regs reg s2
  exact ⟨s3, hrun1.append (hrun2.append (.block hrun3)), honly3.mem.trans hmem2⟩

/-! ## Labels -/

lemma labelled_member (ref : Bool) : Labelled (dtCgMember scratchsize k m ref reg) := by
  refine (Labelled.checkNotnull reg).bind fun _ => .ite ?_ ((Labelled.emits _).bind fun _ => ?_)
  · refine .ite .none ((Labelled.emits _).bind fun _ => .ite (.pure _) ?_)
    cases bpfLdstSize m.ldsize with
    | none => exact .none
    | some sz => exact .bind (.ite (.loadScalar _ _) (.emit _)) fun _ => .emits _
  · refine .ite (.pure _) ?_
    cases bpfLdstSize m.ldsize with
    | none => exact .none
    | some sz => exact .ptrLoad _ _ _ _

lemma labelled_fieldSet : Labelled (dtCgFieldSet m sz src dst) :=
  .ite .none (Labelled.regAlloc.bind fun _ => Labelled.regAlloc.bind fun _ => (Labelled.emits _).bind fun _ =>
    (Labelled.emits _).bind fun _ => (Labelled.emit _).bind fun _ => (Labelled.regFree _).bind fun _ => .pure _)

lemma labelled_asgnMember : Labelled (dtCgAsgnMember scratchsize k m src reg) := by
  have hstore : Labelled (dtCgStore scratchsize k m src reg) := by
    unfold dtCgStore
    cases bpfLdstSize m.ldsize with
    | none => exact .none
    | some sz =>
      refine .ite (.ite .none ?_) (.ite ?_ (.emit _))
      · exact Labelled.regAlloc.bind fun _ => (Labelled.accessCheck _ _ _).bind fun _ => (Labelled.allocaPtr _ _).bind fun _ =>
          (Labelled.emit _).bind fun _ => .regFree _
      · exact labelled_fieldSet.bind fun _ => (Labelled.emit _).bind fun _ => .regFree _
  exact (labelled_member true).bind fun _ => hstore.bind fun _ => .regFree _

end

end DTrace.Cg
