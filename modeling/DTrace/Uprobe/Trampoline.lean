import DTrace.Uprobe.Operands

/-!
# The arguments of USDT probes

The code of `copy_args` on the machine.  `%r7` points to the machine state, in which the arguments are, and `%r8` to
the registers of the traced program; the two are apart from each other and from the memory of that program.

* `emitOperand_run` — the code for an operand stores what `Spec.stored` says and leaves the rest alone;
* `emits_run`, `emits_frame` — the code for a list, by induction on it;
* `Delivered` — all arguments of a list are right, for all contents of registers and memory;
* `operands_iff` — this is so exactly if there are no more than ten arguments, with exact operands.
-/

namespace DTrace.Uprobe

open Lib Bpf Scanf BitVec Option List Nat

/-- `bpf_probe_read_user`: bytes of the traced program are copied. -/
def helpers (user : Mem) (scratch : Args → Mem → Args) : Callee Helper where
  ret := fun _ _ _ => 0
  scratch := fun _ => scratch
  effect := fun _ a m => m.store ((a 1).toNat % 2 ^ 32) (a 0) (user.load ((a 1).toNat % 2 ^ 32) (a 2))

/-- The address of `argv[i]`. -/
def slot (s : St Helper) (i : ℕ) : Word := Mem.wordAddr (s.regs 7 + 224) i

def argv (s : St Helper) (i : ℕ) : Word := s.mem.getW (slot s i)

def ptRegs (L : Layout) (s : St Helper) : Regs := fun m => s.mem.getW (Mem.wordAddr (s.regs 8) (L.word m))

def Entry (s : St Helper) : Prop := ∀ c, Mem.InRange (s.regs 8) 168 c → ¬ Mem.InRange (s.regs 7 + 224) 80 c

/-! ## Addresses -/

section

variable {L : Layout} {i j n : ℕ} {s s' s'' : St Helper}

lemma addr_arg (s : St Helper) (hi : i < 10) : s.addr 7 (argOfs i) = slot s i := by
  have hofs : argOfs i = ((224 + 8 * i : ℕ) : ℤ) := by
    rw [argOfs, dmstArg, toInt_ofInt, Int.bmod_eq_of_le (by omega) (by omega)]
    push_cast
    rfl
  rw [St.addr, hofs, ofInt_natCast, slot, Mem.wordAddr, ofNat_add, BitVec.add_assoc]
  rfl

lemma addr_off (s : St Helper) (m : Member) : s.addr 8 (L.off m) = Mem.wordAddr (s.regs 8) (L.word m) := by
  have hofs : L.off m = ((8 * L.word m : ℕ) : ℤ) := by
    rw [Layout.off]
    push_cast
    rfl
  rw [St.addr, hofs, ofInt_natCast, Mem.wordAddr]

lemma slot_add (s : St Helper) (i j : ℕ) : slot s (i + j) = slot s i + BitVec.ofNat 64 (8 * j) := by
  rw [slot, slot, Mem.wordAddr, Mem.wordAddr, Nat.mul_add, ofNat_add, ← BitVec.add_assoc]

/-- From `s` to `s'` at most `n` bytes from the `i`-th argument on have changed. -/
structure Frame (i n : ℕ) (s s' : St Helper) : Prop where
  r7 : s'.regs 7 = s.regs 7
  r8 : s'.regs 8 = s.regs 8
  mem : ∀ c, ¬ Mem.InRange (slot s i) n c → s'.mem c = s.mem c

lemma Frame.slot (h : Frame i n s s') (j : ℕ) : slot s' j = slot s j := by
  rw [Uprobe.slot, Uprobe.slot, h.r7]

variable {k : ℕ}

lemma inRange_mono {a c : Word} (h : Mem.InRange a n c) (hnk : n ≤ k) : Mem.InRange a k c := by
  obtain ⟨x, hx, rfl⟩ := h
  exact ⟨x, hx.trans_le hnk, rfl⟩

lemma inRange_add {a c : Word} (h : Mem.InRange (a + BitVec.ofNat 64 k) n c) : Mem.InRange a (k + n) c := by
  obtain ⟨x, hx, rfl⟩ := h
  exact ⟨k + x, by omega, by rw [BitVec.add_assoc, ofNat_add]⟩

lemma Frame.refl (i n : ℕ) (s : St Helper) : Frame i n s s := ⟨rfl, rfl, fun _ _ => rfl⟩

lemma Frame.mono (h : Frame i n s s') (hnk : n ≤ k) : Frame i k s s' :=
  ⟨h.r7, h.r8, fun c hc => h.mem c fun hr => hc (inRange_mono hr hnk)⟩

lemma Frame.next (h : Frame i k s s') (h' : Frame (i + 1) n s' s'') (hk : k ≤ 8 + n) : Frame i (8 + n) s s'' := by
  refine ⟨h'.r7.trans h.r7, h'.r8.trans h.r8, fun c hc => ?_⟩
  have h1 : ¬ Mem.InRange (Uprobe.slot s' (i + 1)) n c := by
    rw [h.slot, slot_add]
    exact fun hr => hc (inRange_add hr)
  rw [h'.mem c h1]
  exact h.mem c fun hr => hc (inRange_mono hr hk)

lemma Frame.argv (h : Frame i n s s') (hj : j < i ∨ 8 * i + n ≤ 8 * j) (hi : i ≤ 10) (hj' : j ≤ 10)
    (hn : n ≤ 2 ^ 32) : argv s' j = argv s j := by
  rw [Uprobe.argv, Uprobe.argv, h.slot, Mem.getW, Mem.getW, Mem.load_congr fun c hc => h.mem c ?_]
  rintro ⟨y, hy, he⟩
  obtain ⟨x, hx, rfl⟩ := hc
  rw [Uprobe.slot, Uprobe.slot, Mem.wordAddr, Mem.wordAddr] at he
  generalize s.regs 7 + 224 = p at he
  rw [BitVec.add_assoc, BitVec.add_assoc, BitVec.add_right_inj, ← ofNat_add, ← ofNat_add] at he
  have hnat := congrArg BitVec.toNat he
  rw [toNat_ofNat, toNat_ofNat, mod_eq_of_lt (by omega), mod_eq_of_lt (by omega)] at hnat
  omega

/-- Within the ten arguments, the registers of the traced program keep their values. -/
lemma Frame.ptRegs (h : Frame i n s s') (hentry : Entry s) (hn : 8 * i + n ≤ 80) : ptRegs L s' = ptRegs L s := by
  funext m
  rw [Uprobe.ptRegs, Uprobe.ptRegs, h.r8, Mem.getW, Mem.getW, Mem.load_congr fun c hc => h.mem c ?_]
  intro hr
  have hreg : Mem.InRange (s.regs 8) 168 c := by
    have hlt := L.lt m
    exact inRange_mono (inRange_add hc) (by omega)
  refine hentry c hreg (inRange_mono (inRange_add hr) hn)

lemma Frame.entry (h : Frame i n s s') (hentry : Entry s) : Entry s' := by
  rw [Entry, h.r7, h.r8]
  exact hentry

/-! ## The code for an operand -/

variable {w : Word}

section

variable {C : Callee Helper} {ssize disp : ℤ} {code : List ArgInsn}

lemma signExtend_ofInt {z : ℤ} (h : Int32 z) : (BitVec.ofInt 32 z).signExtend 64 = BitVec.ofInt 64 z := by
  obtain ⟨h1, h2⟩ := h
  apply eq_of_toInt_eq
  rw [toInt_signExtend_of_le (by omega), toInt_ofInt, toInt_ofInt,
    Int.bmod_eq_of_le (by omega) (by omega), Int.bmod_eq_of_le (by omega) (by omega)]

variable {ireg : List Char} {scale : Option ℤ}

lemma emitIndex_run (h : emitIndex L i ireg scale = .ok code) (hr : RangedIndex (ireg, scale)) (s : St Helper) :
    ∃ s', execBlock (exec C) code s = some s' ∧ St.Only [1] s s' ∧
      s'.regs 1 = rawIndex (ptRegs L s) (ireg, scale) := by
  unfold emitIndex at h
  split at h
  · cases h
  next r hreg =>
    have hload : exec C (.load .dw 1 8 (L.off r.mname)) s = .next (s.setReg 1 (ptRegs L s r.mname)) := by
      rw [exec, loadVal_dw s (by decide), addr_off]
      rfl
    have honly : St.Only [1] s (s.setReg 1 (ptRegs L s r.mname)) := (St.Only.refl _ _).setReg
    dsimp only at h
    by_cases hk : 0 < scale.getD (-1)
    · rw [if_pos hk] at h
      cases h
      have hint : Int32 (scale.getD (-1)) := by
        rcases scale with _ | k
        · exact absurd hk (by decide)
        · exact hr k rfl
      refine ⟨_, by rw [execBlock, hload]; rfl, honly.setReg, ?_⟩
      rw [setReg_regs_self, setReg_regs_self, signExtend_ofInt hint, rawIndex, rawScale, if_pos hk, rawReg, hreg]
      rfl
    · rw [if_neg hk] at h
      cases h
      refine ⟨_, by rw [execBlock, hload]; rfl, honly, ?_⟩
      rw [setReg_regs_self, rawIndex, rawScale, if_neg hk, rawReg, hreg, elim_some]
      simp

lemma emitDisp_run (h : Int32 disp) (r : Reg) (s : St Helper) :
    ∃ s', execBlock (exec C) (emitDisp r disp) s = some s' ∧ St.Only [r] s s' ∧
      s'.regs r = s.regs r + BitVec.ofInt 64 disp := by
  unfold emitDisp
  split
  · refine ⟨_, rfl, (St.Only.refl _ _).setReg, ?_⟩
    rw [setReg_regs_self, signExtend_ofInt h]
    rfl
  · next h0 =>
    obtain rfl : disp = 0 := by omega
    exact ⟨s, rfl, .refl _ _, by simp⟩

lemma emitShifts_run (ssize : ℤ) (s : St Helper) :
    ∃ s', execBlock (exec C) (emitShifts ssize) s = some s' ∧ St.Only [0] s s' ∧
      s'.regs 0 = shiftWord ssize (s.regs 0) := by
  unfold emitShifts shiftWord
  dsimp only
  split
  · exact ⟨s, rfl, .refl _ _, rfl⟩
  · by_cases hneg : ssize < 0
    · refine ⟨_, by simp only [if_pos hneg]; rfl, (St.Only.refl _ _).setReg.setReg, ?_⟩
      rw [setReg_regs_self, setReg_regs_self, if_pos hneg]
      rfl
    · refine ⟨_, by simp only [if_neg hneg]; rfl, (St.Only.refl _ _).setReg.setReg, ?_⟩
      rw [setReg_regs_self, setReg_regs_self, if_neg hneg]
      rfl

variable {user : Mem} {scratch : Args → Mem → Args}

lemma exec_probeReadUser (s : St Helper) :
    ∃ s', exec (helpers user scratch) (.callFunc .probeReadUser) s = .next s' ∧
      (∀ r : Reg, 5 < r.val → s'.regs r = s.regs r) ∧
      s'.mem = s.mem.store ((s.regs 2).toNat % 2 ^ 32) (s.regs 1) (user.load ((s.regs 2).toNat % 2 ^ 32) (s.regs 3))
    :=
  ⟨_, rfl, fun _ hr => callRegs_of_gt _ _ _ hr, rfl⟩

lemma emitRead_run (h : Int32 ssize) (hi : i < 10) (s : St Helper) :
    ∃ s', execBlock (exec (helpers user scratch)) (emitRead i ssize) s = some s' ∧ s'.regs 7 = s.regs 7 ∧
      s'.regs 8 = s.regs 8 ∧ s'.mem = s.mem.store ssize.natAbs (slot s i) (user.load ssize.natAbs (s.regs 0)) ∧
      s'.regs 0 = s'.mem.getW (slot s i) := by
  have hslot : s.regs 7 + (BitVec.ofInt 32 (dmstArg i)).signExtend 64 = slot s i := by
    have hofs : dmstArg i = argOfs i := by
      rw [argOfs, dmstArg, toInt_ofInt, Int.bmod_eq_of_le (by omega) (by omega)]
    rw [signExtend_ofInt (by unfold Int32 dmstArg; omega), hofs, ← addr_arg s hi]
    rfl
  -- the registers for the call
  set s1 := (((s.setReg 1 (s.regs 7)).setReg 1 (slot s i)).setReg 2
    ((BitVec.ofInt 32 (absSize ssize)).signExtend 64)).setReg 3 (s.regs 0) with hs1
  have hblock : execBlock (exec (helpers user scratch)) [.movReg 1 7, .aluImm .add 1 (.ofInt 32 (dmstArg i)),
      .movImm 2 (.ofInt 32 (absSize ssize)), .movReg 3 0] s = some s1 := by
    simp [execBlock, exec, AluOp.eval, hslot, hs1]
  obtain ⟨s2, hcall, hregs, hmem⟩ := @exec_probeReadUser user scratch s1
  have h7 : s2.regs 7 = s.regs 7 := by
    rw [hregs 7 (by decide)]
    simp [hs1]
  have h8 : s2.regs 8 = s.regs 8 := by
    rw [hregs 8 (by decide)]
    simp [hs1]
  have hload : exec (helpers user scratch) (.load .dw 0 7 (argOfs i)) s2 =
      .next (s2.setReg 0 (s2.mem.getW (slot s i))) := by
    rw [exec, loadVal_dw s2 (by decide), addr_arg _ hi, slot, h7]
    rfl
  refine ⟨s2.setReg 0 (s2.mem.getW (slot s i)), ?_, by simp [h7], by simp [h8], ?_, by simp⟩
  · have happend : emitRead i ssize = [.movReg 1 7, .aluImm .add 1 (.ofInt 32 (dmstArg i)),
        .movImm 2 (.ofInt 32 (absSize ssize)), .movReg 3 0] ++
        [.callFunc .probeReadUser, .load .dw 0 7 (argOfs i)] := rfl
    rw [happend, execBlock_append, hblock, bind_some, execBlock_cons hcall, execBlock_cons hload]
    rfl
  · have h2 : s1.regs 2 = (BitVec.ofInt 32 (absSize ssize)).signExtend 64 := by simp [hs1]
    rw [setReg_mem, hmem, h2, toNat_absSize h]
    simp [hs1]

lemma store_run (hi : i < 10) (r : Reg) (s : St Helper) :
    ∃ s', execBlock (exec C) [.store .dw 7 (argOfs i) r] s = some s' ∧ s'.regs = s.regs ∧
      s'.mem = s.mem.setW (slot s i) (s.regs r) := by
  refine ⟨_, rfl, storeVal_regs .., ?_⟩
  rw [St.storeVal, if_neg (by decide), addr_arg s hi]
  rfl

/-- The bytes that the code for a specification may write, from its argument on. -/
def Spec.width (sp : Spec) : ℕ :=
  match sp.op with
  | .based .. => max 8 sp.ssize.natAbs
  | _ => 8

/-- A word has been put into an argument. -/
structure Puts (i n : ℕ) (w : Word) (s s' : St Helper) : Prop extends Frame i n s s' where
  val : argv s' i = w

lemma puts_store {s1 s2 : St Helper} (hregs : s2.regs = s1.regs)
    (hmem : s2.mem = s1.mem.setW (slot s i) w) (hn : 8 ≤ n) (h7 : s1.regs 7 = s.regs 7) (h8 : s1.regs 8 = s.regs 8)
    (hm : ∀ c, ¬ Mem.InRange (slot s i) n c → s1.mem c = s.mem c) : Puts i n w s s2 := by
  refine ⟨⟨by rw [hregs, h7], by rw [hregs, h8], fun c hc => ?_⟩, ?_⟩
  · rw [hmem, Mem.setW, Mem.store_frame fun hr => hc (inRange_mono hr hn), hm c hc]
  · have hslot : slot s2 i = slot s i := by rw [slot, slot, hregs, h7]
    rw [argv, hslot, hmem, Mem.getW_setW_same]

variable {sz : Size}

lemma bytes_of_bpfLdstSize (h : Cg.bpfLdstSize k = some sz) : sz.bytes = k ∧ 0 < k ∧ k ≤ 8 := by
  unfold Cg.bpfLdstSize at h
  split at h <;> cases h <;> decide

lemma bytes_of_absSize (hr : Int32 ssize) (h : Cg.bpfLdstSize (absSize ssize).toNat = some sz) :
    sz.bytes = ssize.natAbs ∧ 0 < ssize.natAbs ∧ ssize.natAbs ≤ 8 := by
  obtain ⟨hbytes, h0, h8⟩ := bytes_of_bpfLdstSize h
  obtain ⟨h1, -⟩ := hr
  have habs : (absSize ssize).toNat = ssize.natAbs := by
    unfold absSize at h0 ⊢
    split
    · next hneg =>
      by_cases hmin : ssize = -2 ^ 31
      · subst hmin
        exact absurd h0 (by decide)
      · rw [int32_of_range (by omega)]
        omega
    · omega
  rw [habs] at hbytes h0 h8
  exact ⟨hbytes, h0, h8⟩

lemma stored_const_run {val : ℤ} (hi : i < 10) (h : emitOperand L i ssize (.const val) = .ok code) (s : St Helper) :
    ∃ s', execBlock (exec C) code s = some s' ∧ Puts i 8 (constWord val) s s' := by
  rw [emitOperand] at h
  unfold constWord
  split at h
  · next hbig =>
    cases h
    rw [if_pos hbig]
    obtain ⟨s1, hrun, hregs, hmem⟩ := @store_run i C hi 0 (s.setReg 0 (.ofInt 64 val))
    refine ⟨s1, (execBlock_cons rfl).trans hrun, puts_store hregs ?_ le_rfl (by simp) (by simp) fun c _ => rfl⟩
    rw [hmem, setReg_regs_self]
    rfl
  · next hbig =>
    cases h
    rw [if_neg hbig]
    refine ⟨_, rfl, puts_store (storeVal_regs ..) ?_ le_rfl rfl rfl fun c _ => rfl⟩
    rw [St.storeVal, if_neg (by decide), addr_arg s hi]
    rfl

lemma stored_reg_run {name : List Char} (hr : Int32 ssize) (hi : i < 10)
    (h : emitOperand L i ssize (.reg name) = .ok code) (s : St Helper) :
    ∃ s', execBlock (exec C) code s = some s' ∧
      Puts i 8 (shiftWord ssize (BitVec.ofNat 64 ((rawReg (ptRegs L s) name).toNat % 256 ^ ssize.natAbs))) s s' := by
  rw [emitOperand] at h
  split at h
  · cases h
  next sz hsz =>
    obtain ⟨hbytes, -, h8⟩ := bytes_of_absSize hr hsz
    split at h
    · cases h
    next r hreg =>
      cases h
      have hload : exec C (.load sz 0 8 (L.off r.mname)) s =
          .next (s.setReg 0 (.ofNat 64 ((ptRegs L s r.mname).toNat % 256 ^ ssize.natAbs))) := by
        have hlt : s.mem.load 8 (Mem.wordAddr (s.regs 8) (L.word r.mname)) < 2 ^ 64 := Mem.load_lt _ _ _
        rw [exec, St.loadVal, if_neg (by decide), addr_off, hbytes, ptRegs, Mem.getW, toNat_ofNat,
          mod_eq_of_lt hlt, Mem.load_mod _ h8]
      obtain ⟨s1, hrun1, honly, hval⟩ := @emitShifts_run C ssize
        (s.setReg 0 (.ofNat 64 ((ptRegs L s r.mname).toNat % 256 ^ ssize.natAbs)))
      obtain ⟨s2, hrun2, hregs, hmem⟩ := @store_run i C hi 0 s1
      have h7 : s1.regs 7 = s.regs 7 := by rw [honly.regs 7 (by decide)]; simp
      have h8 : s1.regs 8 = s.regs 8 := by rw [honly.regs 8 (by decide)]; simp
      have hslot : slot s1 i = slot s i := by rw [slot, slot, h7]
      refine ⟨s2, ?_, puts_store hregs ?_ le_rfl h7 h8 fun c _ => by rw [honly.mem]; rfl⟩
      · rw [execBlock_cons hload, execBlock_append, hrun1, bind_some, hrun2]
      · rw [hmem, hval, hslot, setReg_regs_self, rawReg, hreg]
        rfl

variable {rs : List Reg}

lemma St.Only.ptRegs (h : St.Only rs s s') (h8 : 8 ∉ rs) : ptRegs L s' = ptRegs L s := by
  funext m
  rw [Uprobe.ptRegs, Uprobe.ptRegs, h.regs 8 h8, h.mem]

lemma St.Only.slot (h : St.Only rs s s') (h7 : 7 ∉ rs) : slot s' i = slot s i := by
  rw [Uprobe.slot, Uprobe.slot, h.regs 7 h7]

lemma stored_indexed_run (hr : Operand.Ranged (.indexed disp ireg scale))
    (hi : i < 10) (h : emitOperand L i ssize (.indexed disp ireg scale) = .ok code) (s : St Helper) :
    ∃ s', execBlock (exec C) code s = some s' ∧
      Puts i 8 (rawIndex (ptRegs L s) (ireg, scale) + BitVec.ofInt 64 disp) s s' := by
  obtain ⟨idx, hidx, h⟩ := bind_ok h
  cases h
  obtain ⟨s1, hrun1, honly1, hval1⟩ := @emitIndex_run L i C idx ireg scale hidx hr.2 s
  obtain ⟨s2, hrun2, honly2, hval2⟩ := @emitDisp_run C disp hr.1 1 s1
  obtain ⟨s3, hrun3, hregs, hmem⟩ := @store_run i C hi 1 s2
  have honly := honly1.trans honly2
  refine ⟨s3, ?_, puts_store hregs ?_ le_rfl (honly.regs 7 (by decide)) (honly.regs 8 (by decide)) fun c _ => ?_⟩
  · rw [execBlock_append, hrun1, bind_some, execBlock_append, hrun2, bind_some, hrun3]
  · rw [hmem, hval2, hval1, St.Only.slot honly (by decide)]
  · rw [honly.mem]

lemma emitIndexOpt_run {index : Option (List Char × Option ℤ)} {idx : List ArgInsn} (hr : ∀ x ∈ index, RangedIndex x)
    (h : emitIndexOpt L i index = .ok idx) (s : St Helper) :
    ∃ s', execBlock (exec C) idx s = some s' ∧ St.Only [1] s s' ∧
      ∀ x ∈ index, s'.regs 1 = rawIndex (ptRegs L s) x := by
  rcases index with _ | ⟨ireg, scale⟩
  · cases h
    exact ⟨s, rfl, .refl _ _, nofun⟩
  · obtain ⟨s', hrun, honly, hval⟩ := @emitIndex_run L i C idx ireg scale h (hr _ rfl) s
    refine ⟨s', hrun, honly, fun x hx => ?_⟩
    obtain rfl : (ireg, scale) = x := Option.some.inj hx
    exact hval

variable {base : List Char}

lemma emitAddr_run {index : Option (List Char × Option ℤ)} {idx : List ArgInsn} {r : AsmReg}
    (hr : Operand.Ranged (.based disp base index)) (hreg : getAsmReg base = some r)
    (hidx : emitIndexOpt L i index = .ok idx) (s : St Helper) :
    ∃ s', execBlock (exec C) (idx ++ ([.load .dw 0 8 (L.off r.mname)] ++
        ((if index.isSome then [.aluReg .add 0 1] else []) ++ emitDisp 0 disp))) s = some s' ∧ St.Only [0, 1] s s' ∧
      s'.regs 0 = rawAddr (ptRegs L s) disp base index := by
  obtain ⟨s1, hrun1, honly1, hval1⟩ := @emitIndexOpt_run L i C index idx hr.2 hidx s
  have hload : exec C (.load .dw 0 8 (L.off r.mname)) s1 = .next (s1.setReg 0 (rawReg (ptRegs L s) base)) := by
    rw [exec, loadVal_dw s1 (by decide), addr_off, rawReg, hreg, elim_some,
      ← St.Only.ptRegs honly1 (by decide)]
    rfl
  have honly2 : St.Only [0, 1] s (s1.setReg 0 (rawReg (ptRegs L s) base)) :=
    (honly1.mono (by simp)).setReg
  -- the index, if there is one, is in `%r1`
  obtain ⟨s3, hrun3, honly3, hval3⟩ : ∃ s3, execBlock (exec C) (if index.isSome then [.aluReg .add 0 1] else [])
      (s1.setReg 0 (rawReg (ptRegs L s) base)) = some s3 ∧ St.Only [0, 1] s s3 ∧
      s3.regs 0 = rawReg (ptRegs L s) base + index.elim 0 (rawIndex (ptRegs L s)) := by
    rcases index with _ | x
    · exact ⟨_, rfl, honly2, by simp⟩
    · refine ⟨_, rfl, honly2.setReg, ?_⟩
      rw [setReg_regs_self, setReg_regs_self, setReg_regs_ne _ _ (by decide), hval1 x rfl]
      rfl
  obtain ⟨s4, hrun4, honly4, hval4⟩ := @emitDisp_run C disp hr.1 0 s3
  refine ⟨s4, ?_, honly3.trans (honly4.mono (by simp)), ?_⟩
  · rw [execBlock_append, hrun1, bind_some, singleton_append, execBlock_cons hload, execBlock_append,
      hrun3, bind_some, hrun4]
  · rw [hval4, hval3, rawAddr]

lemma stored_based_run {index : Option (List Char × Option ℤ)} (hr : Spec.Ranged ⟨ssize, .based disp base index⟩)
    (hi : i < 10) (h : emitOperand L i ssize (.based disp base index) = .ok code) (s : St Helper) :
    ∃ s', execBlock (exec (helpers user scratch)) code s = some s' ∧
      Puts i (max 8 ssize.natAbs) (shiftWord ssize ((s.mem.store ssize.natAbs (slot s i)
        (user.load ssize.natAbs (rawAddr (ptRegs L s) disp base index))).getW (slot s i))) s s' := by
  obtain ⟨idx, hidx, h⟩ := bind_ok h
  split at h
  · cases h
  next r hreg =>
    cases h
    obtain ⟨s1, hrun1, honly1, hval1⟩ :=
      @emitAddr_run L i (helpers user scratch) disp base index idx r hr.2 hreg hidx s
    obtain ⟨s2, hrun2, h7, h8, hmem2, hval2⟩ := @emitRead_run i ssize user scratch hr.1 hi s1
    obtain ⟨s3, hrun3, honly3, hval3⟩ := @emitShifts_run (helpers user scratch) ssize s2
    obtain ⟨s4, hrun4, hregs, hmem⟩ := @store_run i (helpers user scratch) hi 0 s3
    have hslot1 : slot s1 i = slot s i := St.Only.slot honly1 (by decide)
    have hslot3 : slot s3 i = slot s i := by
      rw [St.Only.slot honly3 (by decide), ← hslot1, slot, slot, h7]
    refine ⟨s4, ?_, puts_store hregs ?_ (le_max_left _ _) ?_ ?_ fun c hc => ?_⟩
    · rw [← append_assoc _ (emitDisp 0 disp), ← append_assoc _ (_ ++ emitDisp 0 disp),
        ← append_assoc idx, execBlock_append, hrun1, bind_some, execBlock_append, hrun2, bind_some,
        execBlock_append, hrun3, bind_some, hrun4]
    · rw [hmem, hval3, hval2, hmem2, hval1, hslot3, hslot1, honly1.mem]
    · rw [honly3.regs 7 (by decide), h7, honly1.regs 7 (by decide)]
    · rw [honly3.regs 8 (by decide), h8, honly1.regs 8 (by decide)]
    · rw [honly3.mem, hmem2, hslot1, honly1.mem, Mem.store_frame fun h => hc (inRange_mono h (le_max_right _ _))]

variable {sp : Spec}

theorem emitOperand_run (hr : sp.Ranged) (hi : i < 10)
    (h : emitOperand L i sp.ssize sp.op = .ok code) (s : St Helper) :
    ∃ s', execBlock (exec (helpers user scratch)) code s = some s' ∧
      Puts i sp.width (sp.stored (ptRegs L s) user s.mem (slot s i)) s s' := by
  obtain ⟨_, op⟩ := sp
  cases op with
  | based disp base index => exact stored_based_run hr hi h s
  | indexed disp ireg scale => exact stored_indexed_run hr.2 hi h s
  | reg name => exact stored_reg_run hr.1 hi h s
  | const val => exact stored_const_run hi h s

lemma known_of_emitOperand (hr : sp.Ranged) (h : emitOperand L i sp.ssize sp.op = .ok code) : sp.Known := by
  have hindex : ∀ {ireg scale idx}, emitIndex L i ireg scale = .ok idx → ∃ r, getAsmReg ireg = some r := by
    intro ireg scale idx h
    unfold emitIndex at h
    split at h
    · cases h
    next r hreg => exact ⟨r, hreg⟩
  obtain ⟨ssize, op⟩ := sp
  cases op with
  | based disp base index =>
    obtain ⟨idx, hidx, h⟩ := bind_ok h
    constructor
    · split at h
      · cases h
      next r hreg => exact ⟨r, hreg⟩
    · rintro x hx
      obtain rfl : index = some x := hx
      exact hindex hidx
  | indexed disp ireg scale =>
    obtain ⟨_, hidx, -⟩ := bind_ok h
    exact hindex hidx
  | reg name =>
    rw [emitOperand] at h
    split at h
    · cases h
    next hsz =>
      split at h
      · cases h
      next r hreg => exact ⟨⟨r, hreg⟩, (bytes_of_absSize hr.1 hsz).2⟩
  | const val => trivial

/-! ## The code for a list -/

variable {specs : List Spec}

lemma width_le (hr : sp.Ranged) : sp.width ≤ 2 ^ 31 := by
  have h := hr.1
  simp only [Int32] at h
  unfold Spec.width
  split <;> omega

lemma emits_frame (hE : Emits L i specs code) (hlen : i + specs.length ≤ 10) (hr : ∀ sp ∈ specs, sp.Ranged)
    (s : St Helper) :
    ∃ s', execBlock (exec (helpers user scratch)) code s = some s' ∧ Frame i (8 * specs.length + 2 ^ 31) s s' := by
  induction hE generalizing s with
  | nil i => exact ⟨s, rfl, .refl _ _ _⟩
  | @cons i sp specs code rest hcode _ ih =>
    rw [length_cons] at hlen
    obtain ⟨hsp, hspecs⟩ := forall_mem_cons.1 hr
    obtain ⟨s1, hrun1, hputs⟩ := @emitOperand_run L i code user scratch sp hsp (by omega) hcode s
    obtain ⟨s2, hrun2, hframe⟩ := ih (by omega) hspecs s1
    refine ⟨s2, by rw [execBlock_append, hrun1, bind_some, hrun2], ?_⟩
    have hw : sp.width ≤ 8 + (8 * specs.length + 2 ^ 31) := (width_le hsp).trans (by omega)
    refine (hputs.toFrame.next hframe hw).mono ?_
    rw [length_cons]
    omega

lemma width_of_exact (hx : sp.Exact) : sp.width = 8 := by
  obtain ⟨_, op⟩ := sp
  cases op with
  | based disp base index => exact max_eq_left hx.1.2
  | indexed disp ireg scale => rfl
  | reg name => rfl
  | const val => rfl

lemma emits_run (hE : Emits L i specs code) (hlen : i + specs.length ≤ 10) (hr : ∀ sp ∈ specs, sp.Ranged)
    (hx : ∀ sp ∈ specs, sp.Exact) (hentry : Entry s) :
    ∃ s', execBlock (exec (helpers user scratch)) code s = some s' ∧ Frame i (8 * specs.length) s s' ∧
      ∀ k sp, specs[k]? = some sp → Extended sp.ssize (sp.value (ptRegs L s) user) (argv s' (i + k)) := by
  induction hE generalizing s with
  | nil i => exact ⟨s, rfl, .refl _ _ _, nofun⟩
  | @cons i sp specs code rest hcode _ ih =>
    rw [length_cons] at hlen
    obtain ⟨hsp, hspecs⟩ := forall_mem_cons.1 hr
    obtain ⟨hxsp, hxspecs⟩ := forall_mem_cons.1 hx
    obtain ⟨s1, hrun1, hputs⟩ := @emitOperand_run L i code user scratch sp hsp (by omega) hcode s
    rw [width_of_exact hxsp] at hputs
    have hregs : ptRegs L s1 = ptRegs L s := hputs.toFrame.ptRegs hentry (by omega)
    obtain ⟨s2, hrun2, hframe, hargs⟩ := ih (by omega) hspecs hxspecs (hputs.toFrame.entry hentry)
    refine ⟨s2, by rw [execBlock_append, hrun1, bind_some, hrun2], ?_, fun k => ?_⟩
    · refine (hputs.toFrame.next hframe (by omega)).mono ?_
      rw [length_cons]
      omega
    · rcases k with _ | k
      · rintro _ ⟨⟩
        rw [add_zero, hframe.argv (.inl (by omega)) (by omega) (by omega) (by omega), hputs.val]
        exact extended_of_exact hsp (known_of_emitOperand hsp hcode) hxsp _ _ _
      · intro sp' hk
        rw [← hregs, show i + (k + 1) = i + 1 + k by omega]
        exact hargs k sp' hk

/-- One register at most is not zero, and the arguments from the `i`-th on are 1. -/
structure ReadyAt (L : Layout) (i : ℕ) (m : Member) (v : Word) (s : St Helper) : Prop where
  entry : Entry s
  regs : ptRegs L s = single m v
  args : ∀ j, i ≤ j → j < 10 → argv s j = 1

/-- The code comes out right for all values of one register and all contents of memory. -/
def Trial (L : Layout) (i : ℕ) (specs : List Spec) (code : List ArgInsn) : Prop :=
  ∀ m v user, ∃ s s', ReadyAt L i m v s ∧ execBlock (exec (helpers user fun a _ => a)) code s = some s' ∧
    ∀ k sp, specs[k]? = some sp → Extended sp.ssize (sp.value (single m v) user) (argv s' (i + k))

/-- Then all operands are exact: each of them in turn, since those in front have changed their arguments only. -/
lemma exact_of_trial (hE : Emits L i specs code) (hlen : i + specs.length ≤ 10) (hr : ∀ sp ∈ specs, sp.Ranged)
    (h : Trial L i specs code) : ∀ sp ∈ specs, sp.Exact := by
  induction hE with
  | nil i => exact nofun
  | @cons i sp specs code rest hcode hE ih =>
    rw [length_cons] at hlen
    obtain ⟨hsp, hspecs⟩ := forall_mem_cons.1 hr
    -- the run, cut behind the first specification
    have hcut : ∀ m v user, ∃ s s1 s', ReadyAt L i m v s ∧
        Puts i sp.width (sp.stored (single m v) user s.mem (slot s i)) s s1 ∧
        execBlock (exec (helpers user fun a _ => a)) rest s1 = some s' ∧
        ∀ k sp', (sp :: specs)[k]? = some sp' →
          Extended sp'.ssize (sp'.value (single m v) user) (argv s' (i + k)) := by
      intro m v user
      obtain ⟨s, s', hready, hrun, hargs⟩ := h m v user
      obtain ⟨s1, hrun1, hputs⟩ := @emitOperand_run L i code user (fun a _ => a) sp hsp (by omega) hcode s
      rw [execBlock_append, hrun1, bind_some] at hrun
      rw [hready.regs] at hputs
      exact ⟨s, s1, s', hready, hputs, hrun, hargs⟩
    have hxsp : sp.Exact := by
      refine exact_of_tried hsp (known_of_emitOperand hsp hcode) fun m v user => ?_
      obtain ⟨s, s1, s', hready, hputs, hrun, hargs⟩ := hcut m v user
      obtain ⟨_, hrun2, hframe⟩ := @emits_frame L (i + 1) rest user (fun a _ => a) specs hE (by omega) hspecs s1
      obtain rfl := mem_unique hrun2 hrun
      have hext := hargs 0 sp rfl
      rw [add_zero, hframe.argv (.inl (by omega)) (by omega) (by omega) (by omega), hputs.val] at hext
      exact ⟨s.mem, slot s i, hready.args i le_rfl (by omega), hext⟩
    refine forall_mem_cons.2 ⟨hxsp, ih (by omega) hspecs fun m v user => ?_⟩
    obtain ⟨s, s1, s', hready, hputs, hrun, hargs⟩ := hcut m v user
    rw [width_of_exact hxsp] at hputs
    refine ⟨s1, s', ⟨hputs.toFrame.entry hready.entry, ?_, fun j hj hj' => ?_⟩, hrun, fun k sp' hk => ?_⟩
    · rw [hputs.toFrame.ptRegs hready.entry (by omega), hready.regs]
    · rw [hputs.toFrame.argv (.inr (by omega)) (by omega) (by omega) (by omega), hready.args j (by omega) hj']
    · rw [show i + 1 + k = i + (k + 1) by omega]
      exact hargs (k + 1) sp' hk

end

/-! ## All arguments -/

/-- A state for trials: the registers are at 0, the machine state at 32. -/
def trialSt (L : Layout) (m : Member) (v : Word) : St Helper where
  regs := fun r => if r = 7 then 32 else 0
  stk := fun _ => 0
  mem := Mem.ofWords fun k => if k = L.word m then v else if k < 21 then 0 else 1
  calls := []

lemma trialSt_ready (L : Layout) (m : Member) (v : Word) : ReadyAt L 0 m v (trialSt L m v) := by
  have h7 : (trialSt L m v).regs 7 + 224 = .ofNat 64 256 := rfl
  have h8 : (trialSt L m v).regs 8 = 0#64 := rfl
  refine ⟨?_, ?_, fun j _ hj => ?_⟩
  · rintro c ⟨x, hx, rfl⟩ ⟨y, hy, he⟩
    rw [h7, h8, BitVec.zero_add, ← ofNat_add] at he
    have hnat := congrArg BitVec.toNat he
    rw [toNat_ofNat, toNat_ofNat, mod_eq_of_lt (by omega), mod_eq_of_lt (by omega)] at hnat
    omega
  · funext m'
    have hlt := L.lt m'
    rw [ptRegs, h8, Mem.wordAddr, BitVec.zero_add]
    refine (Mem.getW_ofWords _ (by omega)).trans ?_
    rw [single, Function.update_apply]
    by_cases hm : m' = m
    · rw [if_pos (by rw [hm]), if_pos hm]
    · rw [if_neg fun he => hm (L.inj he), if_pos hlt, if_neg hm]
  · have hlt := L.lt m
    rw [argv, slot, h7, Mem.wordAddr, ← ofNat_add, show 256 + 8 * j = 8 * (32 + j) by omega]
    refine (Mem.getW_ofWords _ (by omega)).trans ?_
    rw [if_neg (by omega), if_neg (by omega)]

/-- Argument `i` of the probe; it has ten. -/
def probeArg (s : St Helper) (i : ℕ) : Option Word := if i < 10 then some (argv s i) else none

/-- The code makes every operand of the list an argument of the probe, whatever registers and memory contain. -/
def Delivered (L : Layout) (specs : List Spec) (code : List ArgInsn) : Prop :=
  ∀ user scratch s, Entry s → ∃ s', execBlock (exec (helpers user scratch)) code s = some s' ∧
    ∀ i sp, specs[i]? = some sp → ∃ w, probeArg s' i = some w ∧ Extended sp.ssize (sp.value (ptRegs L s) user) w

lemma probeArg_eq_some : probeArg s i = some w ↔ i < 10 ∧ argv s i = w := by
  unfold probeArg
  split
  · next hi => simp [hi]
  · next hi => simp [hi]

lemma exact_of_delivered {specs : List Spec} {code : List ArgInsn} (hE : Emits L 0 specs code)
    (hr : ∀ sp ∈ specs, sp.Ranged) (h : Delivered L specs code) : specs.length ≤ 10 ∧ ∀ sp ∈ specs, sp.Exact := by
  have hlen : specs.length ≤ 10 := by
    by_contra hgt
    obtain ⟨s', -, hargs⟩ := h (fun _ => 0) (fun a _ => a) _ (trialSt_ready L .ax 0).entry
    obtain ⟨w, hw, -⟩ := hargs 10 _ (getElem?_eq_getElem (by omega))
    exact absurd (probeArg_eq_some.1 hw).1 (by omega)
  refine ⟨hlen, exact_of_trial hE (by omega) hr fun m v user => ?_⟩
  have hready := trialSt_ready L m v
  obtain ⟨s', hrun, hargs⟩ := h user (fun a _ => a) _ hready.entry
  refine ⟨_, s', hready, hrun, fun k sp hk => ?_⟩
  obtain ⟨w, hw, hext⟩ := hargs k sp hk
  rw [hready.regs] at hext
  rw [zero_add, (probeArg_eq_some.1 hw).2]
  exact hext

/-- For a list that is accepted, the arguments of the probe are the operands, each extended from its size, for all
contents of registers and memory, exactly if there are at most ten and each of them is exact. -/
theorem operands_iff {sargc : ℕ} {sargv : List Char} {code : List ArgInsn} (h : copyArgs L sargc sargv = .ok code) :
    ∃ specs, scanArgs sargc sargv = .ok specs ∧
      (Delivered L specs code ↔ specs.length ≤ 10 ∧ ∀ sp ∈ specs, sp.Exact) := by
  obtain ⟨specs, hscan, -, hE⟩ := copyLoop_ok h
  have hr := scanLoop_ranged hscan
  refine ⟨specs, hscan, exact_of_delivered hE hr, ?_⟩
  rintro ⟨hlen, hx⟩ user scratch s hentry
  obtain ⟨s', hrun, -, hargs⟩ := @emits_run L 0 s code user scratch specs hE (by omega) hr hx hentry
  refine ⟨s', hrun, fun i sp hi => ⟨argv s' i, ?_, ?_⟩⟩
  · have hlt := (List.getElem?_eq_some_iff.1 hi).1
    exact probeArg_eq_some.2 ⟨by omega, rfl⟩
  · have hext := hargs i sp hi
    rwa [zero_add] at hext

end

/-- `struct pt_regs` of 64-bit kernels. -/
def x86 : Layout where
  word
    | .r15 => 0
    | .r14 => 1
    | .r13 => 2
    | .r12 => 3
    | .bp => 4
    | .bx => 5
    | .r11 => 6
    | .r10 => 7
    | .r9 => 8
    | .r8 => 9
    | .ax => 10
    | .cx => 11
    | .dx => 12
    | .si => 13
    | .di => 14
    | .ip => 16
    | .sp => 19
  inj := by
    intro a b h
    cases a <;> cases b <;> first | rfl | exact absurd h (by decide)
  lt := by
    intro m
    cases m <;> decide

/-- A pointer in a register and an integer on the stack. -/
theorem operands_two : ∃ code, copyArgs x86 2 "8@%rdi -4@-20(%rbp)".toList = .ok code ∧
    Delivered x86 [⟨8, .reg "rdi".toList⟩, ⟨-4, .based (-20) "rbp".toList none⟩] code := by
  obtain ⟨code, hcode⟩ : ∃ code, copyArgs x86 2 "8@%rdi -4@-20(%rbp)".toList = .ok code := ⟨_, rfl⟩
  have hscan : scanArgs 2 "8@%rdi -4@-20(%rbp)".toList =
      .ok [⟨8, .reg "rdi".toList⟩, ⟨-4, .based (-20) "rbp".toList none⟩] := rfl
  obtain ⟨specs, hspecs, hiff⟩ := operands_iff hcode
  rw [hscan] at hspecs
  obtain rfl := Except.ok.inj hspecs
  have hreg : Spec.Exact ⟨8, .reg "rdi".toList⟩ := ⟨regR "rdi" .di, rfl, rfl, by decide⟩
  have hstack : Spec.Exact ⟨-4, .based (-20) "rbp".toList none⟩ :=
    ⟨by decide, List.forall_mem_singleton.2 rfl, fun _ => nofun⟩
  exact ⟨code, hcode, hiff.2 ⟨by decide, List.forall_mem_cons.2 ⟨hreg, List.forall_mem_singleton.2 hstack⟩⟩⟩

/-- The unsigned constant of four bytes `0xffffffff`, as the compiler writes it, becomes an argument of eight. -/
theorem constant_unsigned : ∃ specs code, copyArgs x86 1 "4@$-1".toList = .ok code ∧
    scanArgs 1 "4@$-1".toList = .ok specs ∧ ¬ Delivered x86 specs code := by
  refine ⟨[⟨4, .const (-1)⟩], _, rfl, rfl, fun h => ?_⟩
  obtain ⟨_, hrun, hargs⟩ := h (fun _ => 0) (fun a _ => a) _ (trialSt_ready x86 .ax 0).entry
  obtain ⟨w, hw, hext⟩ := hargs 0 _ rfl
  obtain ⟨_, hrun₁, hputs⟩ := @stored_const_run x86 0 (helpers (fun _ => 0) fun a _ => a) 4 _ (-1) (by decide) rfl
    (trialSt x86 .ax 0)
  obtain rfl := mem_unique hrun₁ hrun
  obtain rfl : constWord (-1) = w := hputs.val.symm.trans (probeArg_eq_some.1 hw).2
  have hvalue : ¬ Extended 4 ((-1 : ℤ) % 256 ^ 4).toNat (constWord (-1)) := by decide
  exact hvalue hext

end DTrace.Uprobe
