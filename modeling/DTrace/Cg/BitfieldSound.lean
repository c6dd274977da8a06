import DTrace.Cg.Bitfield

/-!
# Which bit-fields are accessed correctly

A bit-field is loaded with as many bytes as its width needs, from the byte it starts in, whatever the bit is it starts at.
So a field that reaches into the next byte is cut off.  A field of 8, 16, 32 or 64 bits is not treated as a bit-field at
all, and one in scratch memory is read at its position as if that were an address.

* `FieldSound` — loads yield the value of the field, stores change it and nothing else;
* `FieldOk` — the layouts for which this holds;
* `field_sound_iff` — they are exactly those.
-/

namespace DTrace.Cg

open Lib Bpf BitVec Nat

def LoadsField (k : PtrKind) (m : Membinfo) : Prop :=
  ∀ (C : Callee Func) (scratchsize : BitVec 32) (S : Regset) (lbl : ℕ) (reg : Reg) (u : Unit) (c : CgCode) (g' : GState)
    (s : St Func), ProbeReads C → dtCgMember scratchsize k m false reg ⟨S, lbl⟩ = some (u, c, g') → lbl ≠ 0 →
    FieldReady C scratchsize k m S s reg → Represents C c s reg (m.value s.mem (k.addr s (s.regs reg)))

/-- Loads of the field at `a` yield `v`, if the memory is `mem`. -/
def ReadsBack (k : PtrKind) (m : Membinfo) (mem : Mem) (a v : Word) : Prop :=
  ∀ (C : Callee Func) (scratchsize : BitVec 32) (S : Regset) (lbl : ℕ) (reg : Reg) (u : Unit) (c : CgCode) (g' : GState)
    (s : St Func), ProbeReads C → dtCgMember scratchsize k m false reg ⟨S, lbl⟩ = some (u, c, g') → lbl ≠ 0 →
    FieldReady C scratchsize k m S s reg → s.mem = mem → k.addr s (s.regs reg) = a → Represents C c s reg v

/-- The generated store leaves the bits outside the field as they are, and loads read back the value modulo the width. -/
def StoresField (k : PtrKind) (m : Membinfo) : Prop :=
  ∀ (C : Callee Func) (scratchsize : BitVec 32) (S : Regset) (lbl : ℕ) (src reg : Reg) (u : Unit) (c : CgCode) (g' : GState)
    (s : St Func), dtCgAsgnMember scratchsize k m src reg ⟨S, lbl⟩ = some (u, c, g') → lbl ≠ 0 →
    FieldReady C scratchsize k m S s reg → S.Spare [src, reg] → src ≠ reg → src ≠ 0 →
    ∃ s', Does (exec C) c c s s' ∧ m.Kept (k.addr s (s.regs reg)) s.mem s'.mem ∧
      ReadsBack k m s'.mem (k.addr s (s.regs reg)) (ext m.signed m.cteBits ((s.regs src).toNat % 2 ^ m.cteBits))

structure FieldSound (k : PtrKind) (m : Membinfo) : Prop where
  loads : LoadsField k m
  stores : StoresField k m

/-- The layouts that are accessed correctly.  A field marked as a bit-field has to end in the bytes that are loaded; one
that is not marked has to be an integer of its type, unsigned unless it has 64 bits. -/
def FieldOk (k : PtrKind) (m : Membinfo) : Prop :=
  if m.bitfield then k ≠ .alloca ∧ m.offset / 8 < 2 ^ 31 ∧ m.offset % 8 + m.cteBits ≤ 8 * m.ldsize
  else m.ctmOffset / 8 < 2 ^ 31 ∧ m.ctmOffset % 8 = 0 ∧ m.cteOffset = 0 ∧ m.cteBits = 8 * m.ldsize ∧
    (m.signed = false ∨ m.cteBits = 64)

/-! ## Layouts that are accessed correctly -/

variable {m : Membinfo} {k : PtrKind} {a : Word}

section

variable {mem : Mem} {s : St Func} {p : Word}

lemma memberPtr_eq {offset : ℕ} (h : offset / 8 < 2 ^ 31) : memberPtr p offset = p + BitVec.ofNat 64 (offset / 8) := by
  rw [memberPtr, imm_signExtend h]

lemma PtrKind.addr_add (k : PtrKind) (s : St Func) (p x : Word) : k.addr s (p + x) = k.addr s p + x := by
  unfold PtrKind.addr
  split
  · rw [BitVec.add_assoc, BitVec.add_comm x, ← BitVec.add_assoc]
  · rfl

lemma FieldOk.codeAddr_eq (h : FieldOk k m) : m.codeAddr k s p = k.addr s p + BitVec.ofNat 64 (m.offset / 8) := by
  unfold FieldOk at h
  unfold Membinfo.codeAddr Membinfo.codeOffset
  split at h
  · next hf =>
    rw [if_pos hf, if_pos hf, memberPtr_eq h.2.1, PtrKind.addr, if_neg h.1]
  · next hf =>
    have hoff : m.offset = m.ctmOffset := by
      rw [Membinfo.offset, h.2.2.1, add_zero]
    rw [if_neg hf, if_neg hf, memberPtr_eq h.1, PtrKind.addr_add, hoff]

lemma FieldOk.fits (h : FieldOk k m) : m.offset % 8 + m.cteBits ≤ 8 * m.ldsize := by
  unfold FieldOk at h
  unfold Membinfo.offset at *
  split at h
  · exact h.2.2
  · omega

lemma Membinfo.InStorage.ldsize_le (hm : m.InStorage) : m.ldsize ≤ 8 := by
  obtain ⟨sz, -, hbytes⟩ := hm.ldsize
  rw [← hbytes]
  cases sz <;> decide

lemma FieldOk.loaded_eq (h : FieldOk k m) (hm : m.InStorage) :
    m.loaded (mem.load m.ldsize (a + BitVec.ofNat 64 (m.offset / 8))) = m.value mem a := by
  have hbits : mem.load m.ldsize (a + BitVec.ofNat 64 (m.offset / 8)) / _ % _ = m.bits mem a :=
    Membinfo.load_eq_bits hm.le h.fits
  unfold Membinfo.loaded Membinfo.value
  split
  · rw [hbits]
  · next hf =>
    unfold FieldOk at h
    rw [if_neg hf] at h
    obtain ⟨-, hctm, hcte, hwidth, hsign⟩ := h
    have hlt := mem.load_lt m.ldsize (a + .ofNat 64 (m.offset / 8))
    rw [show (256 : ℕ) = 2 ^ 8 from rfl, ← pow_mul, ← hwidth] at hlt
    have hoff : m.offset % 8 = 0 := by
      unfold Membinfo.offset
      omega
    rw [hoff, pow_zero, Nat.div_one, mod_eq_of_lt hlt] at hbits
    rw [← hbits, ext]
    rcases hsign with hsign | hsign
    · rw [if_neg (by simp [hsign])]
    · rw [hsign]
      simp

lemma FieldOk.replaces (h : FieldOk k m) (hm : m.InStorage) (A v : Word) :
    m.Replaces mem A m.ldsize v.toNat (m.stored (mem.load m.ldsize A) v).toNat := by
  cases hf : m.bitfield with
  | true => exact Membinfo.replaces_stored hm hf (hm.ldsize_le) v
  | false =>
    unfold FieldOk at h
    rw [if_neg (by simp [hf])] at h
    have hoff : m.offset % 8 = 0 := by
      unfold Membinfo.offset
      omega
    rw [Membinfo.stored, if_neg (by simp [hf])]
    refine ⟨fun j _ => by rw [hoff, zero_add], fun i hi hout => ?_⟩
    omega

theorem FieldOk.loads (h : FieldOk k m) (hm : m.InStorage) : LoadsField k m := by
  intro C scratchsize S lbl reg u c g' s hC hgen hlbl hready
  obtain ⟨s', hrun, hval⟩ := dtCgMember_field_does hm hC hgen hlbl (labelled_member false _ _ _ _ hgen).nodup hready
  refine ⟨s', hrun, ?_⟩
  rw [hval, h.codeAddr_eq, h.loaded_eq hm]

theorem FieldOk.stores (h : FieldOk k m) (hm : m.InStorage) : StoresField k m := by
  intro C scratchsize S lbl src reg u c g' s hgen hlbl hready hspare hne hsrc
  obtain ⟨s', hrun, hmem⟩ :=
    dtCgAsgnMember_does hm hgen hlbl (labelled_asgnMember _ _ _ _ hgen).nodup hready hspare hne hsrc
  rw [h.codeAddr_eq] at hmem
  have hrepl : m.Replaces s.mem _ m.ldsize _ _ :=
    h.replaces hm (k.addr s (s.regs reg) + .ofNat 64 (m.offset / 8)) (s.regs src)
  have hle := hm.ldsize_le
  refine ⟨s', hrun, ?_, ?_⟩
  · rw [hmem]
    exact Membinfo.kept_store hle hrepl
  · intro C' scratchsize' S' lbl' reg' u' c' g'' s2 hC' hgen' hlbl' hready' hmem2 haddr2
    have hload := h.loads hm C' scratchsize' S' lbl' reg' u' c' g'' s2 hC' hgen' hlbl' hready'
    rwa [hmem2, haddr2, Membinfo.value, hmem, Membinfo.bits_store hm.le h.fits hle hrepl] at hload

end

/-! ## A memory with a blot

Memory is all ones but for some bytes at `A`.  The context at 0 then has its scratch memory at `-1`, and the top of the
allocated space is as high as it gets. -/

/-- `n` bytes at `A` are `x`, and the others are all ones. -/
def blot (A : Word) (n : ℕ) (x : BitVec 8) : Mem := fun b => if (b - A).toNat < n then x else 255

section

variable {A : Word} {n : ℕ} {x : BitVec 8}

lemma blot_low (hA : 4095 ≤ A.toNat) (hA' : A.toNat ≤ 8192) (hn : n ≤ 8) {b : Word} (hb : b.toNat < 4095) :
    blot A n x b = 255 := by
  refine if_neg ?_
  rw [toNat_sub]
  omega

lemma blot_load_low (hA : 4095 ≤ A.toNat) (hA' : A.toNat ≤ 8192) (hn : n ≤ 8) {j : ℕ} (ha : a.toNat + j < 4095) :
    (blot A n x).load j a = Mem.load (fun _ => 255) j a := by
  refine Mem.load_congr fun b hb => ?_
  obtain ⟨i, hi, rfl⟩ := hb
  refine blot_low hA hA' hn ?_
  rw [toNat_add, toNat_ofNat]
  omega

lemma blot_bit (hn : n ≤ 8) {i : ℕ} (hi : i < 8 * n) : (blot A n x).bit A i = x.getLsbD (i % 8) := by
  rw [Mem.bit, blot, if_pos]
  rw [BitVec.add_comm, add_sub_cancel, toNat_ofNat]
  omega

/-- The position the code computes: one from which the pointer is not null. -/
def position (m : Membinfo) : Word := if (imm (m.codeOffset / 8)).signExtend 64 = 4096#64 then 8192 else 4096

def pointer (m : Membinfo) : Word := position m - (imm (m.codeOffset / 8)).signExtend 64

/-- The blot is where the code loads from. -/
def blotAddr (k : PtrKind) (m : Membinfo) : Word :=
  if k = .alloca ∧ m.bitfield = false then position m - 1 else position m

/-- The pointer is in `%r8`. -/
def blotSt (k : PtrKind) (m : Membinfo) (x : BitVec 8) : St Func :=
  ⟨Function.update (fun _ => 0) 8 (pointer m), fun _ => 0, blot (blotAddr k m) m.ldsize x, []⟩

lemma position_cases (m : Membinfo) : position m = 4096 ∨ position m = 8192 := by
  unfold position
  split
  · exact .inr rfl
  · exact .inl rfl

lemma pointer_ne_zero (m : Membinfo) : pointer m ≠ 0#64 := by
  unfold pointer position
  generalize (imm (m.codeOffset / 8)).signExtend 64 = v
  intro h
  split at h
  · next hx =>
    subst hx
    exact absurd h (by decide)
  · next hx =>
    rw [sub_eq_iff_eq_add, BitVec.zero_add] at h
    exact hx h.symm

lemma memberPtr_pointer (m : Membinfo) : memberPtr (pointer m) m.codeOffset = position m := by
  exact BitVec.sub_add_cancel _ _

lemma blotAddr_bounds (k : PtrKind) (m : Membinfo) : 4095 ≤ (blotAddr k m).toNat ∧ (blotAddr k m).toNat ≤ 8192 := by
  unfold blotAddr
  rcases position_cases m with h | h <;> rw [h] <;> split <;> decide

section

variable (hm : m.InStorage)
include hm

lemma blotSt_getW (ha : a.toNat + 8 < 4095) : (blotSt k m x).mem.getW a = -1#64 := by
  obtain ⟨hA, hA'⟩ := blotAddr_bounds k m
  rw [Mem.getW, show (blotSt k m x).mem = blot (blotAddr k m) m.ldsize x from rfl,
    blot_load_low hA hA' hm.ldsize_le ha]
  simp [Mem.load]

lemma blotSt_addr (p : Word) : k.addr (blotSt k m x) p = if k = .alloca then p - 1 else p := by
  have hscratch : dctxField ((blotSt k m x).stk dtStkDctx) (blotSt k m x).mem .scratchmem = -1#64 :=
    blotSt_getW hm (show (0#64 + BitVec.ofInt 64 DctxMember.scratchmem.ofs).toNat + 8 < 4095 by decide)
  rw [PtrKind.addr, hscratch]
  split
  · exact (BitVec.sub_eq_add_neg p 1#64).symm
  · rfl

lemma blotSt_codeAddr : m.codeAddr k (blotSt k m x) (pointer m) = blotAddr k m := by
  unfold Membinfo.codeAddr blotAddr
  rw [blotSt_addr hm, memberPtr_pointer]
  cases m.bitfield <;> simp

lemma blotSt_topWord (v : Word) : topWord ((blotSt k m x).setReg 8 v) = 2 ^ 64 - 1 := by
  have hmst : mstate ((blotSt k m x).setReg 8 v) = -1#64 :=
    blotSt_getW hm (show (0#64 + BitVec.ofInt 64 DctxMember.mst.ofs).toNat + 8 < 4095 by decide)
  have hword := getW_scratchTop ((blotSt k m x).setReg 8 v)
  rw [hmst, setReg_mem, blotSt_getW hm (by decide)] at hword
  have hlt := topWord_lt ((blotSt k m x).setReg 8 v)
  have htoNat := congrArg BitVec.toNat hword
  rw [toNat_ofNat, mod_eq_of_lt hlt] at htoNat
  exact htoNat.symm

lemma blotSt_ready (x : BitVec 8) :
    FieldReady copyCallee 65536 k m (Regset.dtRegsetReset.claim 8) (blotSt k m x) 8 := by
  have hreg : (blotSt k m x).regs 8 = pointer m := by simp [blotSt]
  refine ⟨by decide, by decide, by rw [hreg]; exact pointer_ne_zero m, ?_⟩
  rw [hreg, memberPtr_pointer]
  cases k with
  | kernel => exact fun _ _ _ => rfl
  | dptr => trivial
  | alloca =>
    refine ⟨⟨?_, ?_⟩, by decide⟩
    · rw [blotSt_topWord hm, setReg_regs_self]
      unfold BaseOk
      rcases position_cases m with h | h <;> rw [h] <;> decide
    · obtain ⟨sz, -, hbytes⟩ := hm.ldsize
      rw [blotSt_topWord hm, setReg_regs_self, SizeArg.word, ← hbytes]
      rcases position_cases m with h | h <;> rw [h] <;> cases sz <;> decide

lemma member_compiles : ∃ c g',
    dtCgMember 65536 k m false 8 ⟨Regset.dtRegsetReset.claim 8, 1⟩ = some ((), c, g') := by
  obtain ⟨sz, hsz, -⟩ := hm.ldsize
  have hle := hm.le
  suffices h : (dtCgMember 65536 k m false 8).Succeeds ⟨Regset.dtRegsetReset.claim 8, 1⟩ by
    obtain ⟨u, c, g', h⟩ := h
    exact ⟨c, g', h⟩
  unfold dtCgMember
  rw [Gen.succeeds_bind rfl]
  split
  · rw [dtCgFieldGet, if_neg (by omega), Gen.succeeds_bind rfl, if_neg (by simp), hsz]
    obtain ⟨c, g', h⟩ : ∃ c g', dtCgFieldLoad k sz 8 ⟨Regset.dtRegsetReset.claim 8, 2⟩ = some ((), c, g') := by
      cases k <;> cases sz <;> exact ⟨_, _, rfl⟩
    rw [Gen.succeeds_bind h]
    exact ⟨_, _, _, rfl⟩
  · rw [Gen.succeeds_bind rfl, if_neg (by simp), hsz]
    cases k <;> cases sz <;> exact ⟨_, _, _, rfl⟩

end

lemma LoadsField.on_blot (h : LoadsField k m) (hm : m.InStorage) (x : BitVec 8) :
    m.loaded ((blot (blotAddr k m) m.ldsize x).load m.ldsize (blotAddr k m)) =
      m.value (blot (blotAddr k m) m.ldsize x) (if k = .alloca then pointer m - 1 else pointer m) := by
  obtain ⟨c, _, hgen⟩ := member_compiles hm
  have hreg : (blotSt k m x).regs 8 = pointer m := by simp [blotSt]
  obtain ⟨_, hrun1, hval1⟩ := h _ _ _ _ _ _ _ _ _ copyCallee_probeReads hgen (by decide) (blotSt_ready hm x)
  obtain ⟨_, hrun2, hval2⟩ := dtCgMember_field_does hm copyCallee_probeReads hgen (by decide)
    (labelled_member false _ _ _ _ hgen).nodup (blotSt_ready hm x)
  obtain rfl := hrun1.unique hrun2
  rw [hval1, hreg, blotSt_codeAddr hm, blotSt_addr hm] at hval2
  exact hval2.symm

end

/-! ## Layouts that are not -/

section

def codeDelta (m : Membinfo) : Word := (imm (m.codeOffset / 8)).signExtend 64

lemma byte_sub (k : PtrKind) (m : Membinfo) (y : Word) :
    (if k = .alloca then pointer m - 1 else pointer m) + y - blotAddr k m =
      y - codeDelta m - (if k = .alloca ∧ m.bitfield = true then 1#64 else 0#64) := by
  unfold blotAddr pointer codeDelta
  by_cases hk : k = .alloca <;> cases m.bitfield <;>
    simp only [hk, if_true, if_false, true_and, false_and, Bool.false_eq_true, Bool.true_eq_false] <;> bv_omega

lemma toNat_sub_signExtend (y z : ℕ) : (BitVec.ofNat 64 y - (imm z).signExtend 64).toNat =
    (y + 2 ^ 64 - (z % 2 ^ 32 + if z % 2 ^ 32 < 2 ^ 31 then 0 else 2 ^ 64 - 2 ^ 32)) % 2 ^ 64 := by
  have hmsb : (imm z).msb = !decide (z % 2 ^ 32 < 2 ^ 31) := by
    rw [imm, msb_eq_decide, toNat_ofNat]
    by_cases h : z % 2 ^ 32 < 2 ^ 31
    · simp only [h, decide_true, Bool.not_true, decide_eq_false_iff_not]
      omega
    · simp only [h, decide_false, Bool.not_false, decide_eq_true_eq]
      omega
  rw [toNat_sub, toNat_signExtend, hmsb, toNat_setWidth, imm, toNat_ofNat, toNat_ofNat]
  split_ifs <;> simp_all <;> omega

section

variable (h : LoadsField k m)
include h

section

variable (hm : m.InStorage)
include hm

lemma LoadsField.byte_lt {j : ℕ} (hj : j < m.cteBits) :
    (BitVec.ofNat 64 ((m.offset + j) / 8) - codeDelta m - (if k = .alloca ∧ m.bitfield = true then 1#64 else 0#64)).toNat <
      m.ldsize := by
  have hblot := h.on_blot hm 0
  have hload : (blot (blotAddr k m) m.ldsize 0).load m.ldsize (blotAddr k m) = 0 := by
    apply eq_of_testBit_eq
    intro i
    rw [Mem.testBit_load, zero_testBit]
    by_cases hi : i < 8 * m.ldsize
    · rw [blot_bit hm.ldsize_le hi]
      simp
    · simp [hi]
  have hzero : m.loaded 0 = 0#64 := by
    rw [Membinfo.loaded, Nat.zero_div, zero_mod, ext_zero, ite_self]
  rw [hload, hzero] at hblot
  have hle := hm.le
  have hbit := congrArg (fun v : Word => v.getLsbD j) hblot
  rw [Membinfo.value, getLsbD_ext (m.bits_lt _ _) (by omega), if_pos hj, Membinfo.testBit_bits hle, Mem.bit] at hbit
  simp only [hj, decide_true, Bool.true_and] at hbit
  rw [← byte_sub]
  by_contra hout
  rw [blot, if_neg hout] at hbit
  have hones : ∀ i : Fin 8, (255#8).getLsbD i = true := by decide
  exact absurd (hones ⟨(m.offset + j) % 8, by omega⟩) (by simpa using hbit.symm)

lemma LoadsField.ones : m.loaded (2 ^ (8 * m.ldsize) - 1) = ext m.signed m.cteBits (2 ^ m.cteBits - 1) := by
  have hones : ∀ a i, (blot (blotAddr k m) m.ldsize 255).bit a i = true := fun a i => by
    have hbits : ∀ i : Fin 8, (255#8).getLsbD i = true := by decide
    rw [Mem.bit, blot, ite_self]
    exact hbits ⟨i % 8, by omega⟩
  have hblot := h.on_blot hm 255
  have hload : (blot (blotAddr k m) m.ldsize 255).load m.ldsize (blotAddr k m) = 2 ^ (8 * m.ldsize) - 1 := by
    apply eq_of_testBit_eq
    intro i
    rw [Mem.testBit_load, hones, testBit_two_pow_sub_one, Bool.and_true]
  have hbits : ∀ a, m.bits (blot (blotAddr k m) m.ldsize 255) a = 2 ^ m.cteBits - 1 := fun a => by
    apply eq_of_testBit_eq
    intro i
    rw [Membinfo.testBit_bits hm.le, hones, testBit_two_pow_sub_one, Bool.and_true]
  rwa [hload, Membinfo.value, hbits] at hblot

lemma LoadsField.width_eq (hf : m.bitfield = false) (hsize : m.ldsize = 8) : m.cteBits = 64 := by
  have hblot := h.on_blot hm 1
  rw [Membinfo.loaded, if_neg (by simp [hf]), Membinfo.value] at hblot
  have hbit : ∀ i, 32 ≤ i → i < 64 → m.cteBits ≤ 32 → decide (i % 8 = 0) = (m.signed &&
      (m.bits (blot (blotAddr k m) m.ldsize 1) (if k = .alloca then pointer m - 1 else pointer m)).testBit (m.cteBits - 1)) :=
    fun i hi hi' hw => by
    have hi1 := congrArg (fun v : Word => v.getLsbD i) hblot
    rw [getLsbD_ext (m.bits_lt _ _) hi', if_neg (by omega), getLsbD_ofNat, Mem.testBit_load,
      blot_bit hm.ldsize_le (by omega)] at hi1
    simpa [hi', hsize, show i < 8 * 8 by omega, getLsbD_one] using hi1
  by_contra hne
  have hw : m.cteBits ≤ 32 := by
    have := hm.width hf
    omega
  have h56 := hbit 56 (by decide) (by decide) hw
  have h57 := hbit 57 (by decide) (by decide) hw
  exact absurd (h56.trans h57.symm) (by decide)

lemma LoadsField.ok_bitfield (hf : m.bitfield = true) :
    k ≠ .alloca ∧ m.offset / 8 < 2 ^ 31 ∧ m.offset % 8 + m.cteBits ≤ 8 * m.ldsize := by
  have hpos := hm.pos
  have hlt := hm.offset_lt
  have hsize := hm.ldsize_le
  have hbyte := h.byte_lt hm (j := 0) (by omega)
  have hdelta : codeDelta m = (imm (m.offset / 8)).signExtend 64 := by
    rw [codeDelta, Membinfo.codeOffset, if_pos hf]
  have hsub := toNat_sub_signExtend (m.offset / 8) (m.offset / 8)
  rw [add_zero, hdelta] at hbyte
  have hfits : m.offset % 8 + m.cteBits ≤ 8 * m.ldsize := by
    have hones := congrArg (fun v : Word => v.getLsbD (m.cteBits - 1)) (h.ones hm)
    have hle := hm.le
    simp only [Membinfo.loaded, hf, if_true] at hones
    rw [getLsbD_ext (mod_lt _ (Nat.two_pow_pos _)) (by omega), getLsbD_ext (sub_lt (Nat.two_pow_pos _) (by decide))
      (by omega), if_pos (by omega), if_pos (by omega), testBit_mod_two_pow, testBit_div_two_pow,
      testBit_two_pow_sub_one, testBit_two_pow_sub_one] at hones
    have hbit : m.cteBits - 1 + m.offset % 8 < 8 * m.ldsize := by simpa [show m.cteBits - 1 < m.cteBits by omega] using hones
    omega
  by_cases hk : k = .alloca
  · rw [if_pos ⟨hk, hf⟩, toNat_sub, hsub] at hbyte
    rw [show (1#64).toNat = 1 from rfl] at hbyte
    split_ifs at hbyte <;> omega
  · rw [if_neg (by simp [hk]), BitVec.sub_zero, hsub] at hbyte
    refine ⟨hk, ?_, hfits⟩
    split_ifs at hbyte <;> omega

lemma LoadsField.ok_plain (hf : m.bitfield = false) :
    m.ctmOffset / 8 < 2 ^ 31 ∧ m.ctmOffset % 8 = 0 ∧ m.cteOffset = 0 ∧ m.cteBits = 8 * m.ldsize ∧
      (m.signed = false ∨ m.cteBits = 64) := by
  have hpos := hm.pos
  have hle := hm.le
  have hsize := hm.ldsize_le
  have hbit : ∀ i < 64, decide (i < 8 * m.ldsize) = if i < m.cteBits then true else m.signed := fun i hi => by
    have hones := congrArg (fun v : Word => v.getLsbD i) (h.ones hm)
    simp only [Membinfo.loaded, hf, Bool.false_eq_true, if_false] at hones
    rw [getLsbD_ext (sub_lt (Nat.two_pow_pos _) (by decide)) hi, getLsbD_ofNat, testBit_two_pow_sub_one,
      testBit_two_pow_sub_one, testBit_two_pow_sub_one] at hones
    simp only [hi, decide_true, Bool.true_and, show m.cteBits - 1 < m.cteBits by omega, Bool.and_true] at hones
    rw [hones]
    split <;> simp_all
  have hwidth : m.cteBits = 8 * m.ldsize ∧ (m.signed = false ∨ m.cteBits = 64) := by
    cases hs : m.signed with
    | false =>
      refine ⟨?_, .inl rfl⟩
      have hlast := hbit (m.cteBits - 1) (by omega)
      rw [if_pos (by omega), decide_eq_true_eq] at hlast
      by_contra hne
      have hnext := hbit m.cteBits (by omega)
      rw [if_neg (by omega), hs, decide_eq_false_iff_not] at hnext
      omega
    | true =>
      have htop := hbit 63 (by decide)
      rw [hs, ite_self, decide_eq_true_eq] at htop
      have h64 := h.width_eq hm hf (by omega)
      exact ⟨by omega, .inr h64⟩
  have hfirst := h.byte_lt hm (j := 0) (by omega)
  have hlast := h.byte_lt hm (j := m.cteBits - 1) (by omega)
  have hdelta : codeDelta m = (imm (m.ctmOffset / 8)).signExtend 64 := by
    rw [codeDelta, Membinfo.codeOffset, if_neg (by simp [hf])]
  have hlt := hm.offset_lt
  rw [if_neg (by simp [hf]), BitVec.sub_zero, hdelta, toNat_sub_signExtend] at hfirst hlast
  unfold Membinfo.offset at hfirst hlast hlt
  obtain ⟨hw, hsign⟩ := hwidth
  have hoff : m.ctmOffset / 8 < 2 ^ 31 ∧ m.ctmOffset % 8 = 0 ∧ m.cteOffset = 0 := by
    split_ifs at hfirst hlast <;> omega
  exact ⟨hoff.1, hoff.2.1, hoff.2.2, hw, hsign⟩

lemma LoadsField.ok : FieldOk k m := by
  unfold FieldOk
  split
  · next hf => exact h.ok_bitfield hm hf
  · next hf => exact h.ok_plain hm (by simpa using hf)

end

end

/-- Loads and stores of a bit-field are correct exactly for these layouts. -/
theorem field_sound_iff (hm : m.InStorage) : FieldSound k m ↔ FieldOk k m :=
  ⟨fun h => h.loads.ok hm, fun h => ⟨h.loads hm, h.stores hm⟩⟩

def fieldThree : Membinfo := ⟨2, 0, 3, 4, true⟩

lemma fieldThree_inStorage : fieldThree.InStorage :=
  ⟨by decide, by decide, by decide, by decide, 32, by decide, by decide⟩

theorem field_sound_three_bits : FieldSound .dptr fieldThree := by
  refine (field_sound_iff fieldThree_inStorage).2 ?_
  unfold FieldOk
  decide +kernel

/-- An unsigned field of 7 bits at bit 4: one byte is loaded, but the field ends in the next. -/
def fieldSeven : Membinfo := ⟨4, 0, 7, 4, false⟩

lemma fieldSeven_inStorage : fieldSeven.InStorage :=
  ⟨by decide, by decide, by decide, by decide, 32, by decide, by decide⟩

theorem field_seven_bits_cut : fieldSeven.InStorage ∧ ¬ FieldSound .dptr fieldSeven := by
  refine ⟨fieldSeven_inStorage, fun hsound => ?_⟩
  have hok := hsound.loads.ok fieldSeven_inStorage
  unfold FieldOk at hok
  exact absurd hok (by decide +kernel)

end

end DTrace.Cg
