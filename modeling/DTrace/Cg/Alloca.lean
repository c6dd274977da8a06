import DTrace.Cg.Fault

/-!
# Scratch memory

The scratch space of a clause is a stack of blocks: `scratch_top` in the machine state is the first position that is not
allocated.  A pointer from `alloca()` is a position in that space and is checked before every access.

* `dtCgAllocaAccessCheck` — the check, with `accessTests_does` and `accessTests_raises`;
* `access_check_iff` — where it is sound.
-/

namespace DTrace.Cg

open Lib Bpf BitVec

def dmstScratchTop : ℤ := 12

def dmstErrno : ℤ := 16

def mstate (s : St Func) : Word := dctxField (s.stk dtStkDctx) s.mem .mst

/-- `scratch_top`, 32 bits wide. -/
def scratchTop (s : St Func) : ℕ := s.mem.load 4 (mstate s + BitVec.ofInt 64 dmstScratchTop)

/-- The bits of `syscall_errno`, which follows `scratch_top`. -/
def syscallErrno (s : St Func) : ℕ := s.mem.load 4 (mstate s + BitVec.ofInt 64 dmstErrno)

/-- The size of an access: `DT_ISREG` or `DT_ISIMM`. -/
inductive SizeArg
  | reg (r : Reg)
  | imm (n : ℕ)

namespace SizeArg

/-- The subtraction from `%r0`. -/
def sub : SizeArg → CgInsn
  | reg r => .aluReg .sub 0 r
  | imm n => .aluImm .sub 0 (Bpf.imm n)

/-- `dt_cg_probe_error` with the size as the illegal value. -/
def error : SizeArg → List CgInsn
  | reg r => dtCgProbeErrorReg .badsize r
  | imm n => dtCgProbeError .badsize (Bpf.imm n)

def bytes (s : St Func) : SizeArg → ℕ
  | reg r => (s.regs r).toNat
  | imm n => n

/-- What the code subtracts: an immediate has 32 bits and is sign-extended. -/
def word (s : St Func) : SizeArg → Word
  | reg r => s.regs r
  | imm n => (Bpf.imm n).signExtend 64

end SizeArg

def dtCgAllocaAccessCheck (scratchsize : BitVec 32) (reg : Reg) (size : SizeArg) : Gen Unit := do
  let lblIllval ← dtIrlistLabel
  let lblBaseOk ← dtIrlistLabel
  let lblOk ← dtIrlistLabel
  regXallocUnchecked 0
  emits (dtCgAccessDctx 0 .mst)
  emit (.load .dw 0 0 dmstScratchTop)
  emit (.branchImm .jslt reg (imm 8) lblIllval)
  emit (.branchImm .jsge reg scratchsize lblIllval)
  emit (.branchReg .jlt reg 0 lblBaseOk)
  emitl lblIllval .nop
  emits (dtCgProbeErrorReg .badaddr reg)
  emitl lblBaseOk .nop
  emit size.sub
  emit (.branchReg .jle reg 0 lblOk)
  emits size.error
  emitl lblOk .nop
  regFree 0

/-- The access lies inside the allocated scratch space. -/
def Inside (s : St Func) (reg : Reg) (size : SizeArg) : Prop :=
  8 ≤ (s.regs reg).toInt ∧ (s.regs reg).toInt + size.bytes s ≤ scratchTop s

/-- The check lets through only what lies inside, and raises a fault for everything else. -/
structure AccessSound (C : Callee Func) (c : CgCode) (s : St Func) (reg : Reg) (size : SizeArg) : Prop where
  inside : ∀ s', Does (exec C) c c s s' → Inside s reg size
  faults : ¬ Inside s reg size → ∃ fault, Raises C c c s fault

/-! ## The tests -/

/-- The tests of the position, against `%r0`. -/
def baseTests (scratchsize : BitVec 32) (reg : Reg) (lbl : ℕ) : CgCode :=
  ⟨0, .branchImm .jslt reg (imm 8) lbl⟩ :: ⟨0, .branchImm .jsge reg scratchsize lbl⟩ ::
    ⟨0, .branchReg .jlt reg 0 (lbl + 1)⟩ :: ⟨lbl, .nop⟩ ::
      (plain (dtCgProbeErrorReg .badaddr reg) ++ [⟨lbl + 1, .nop⟩])

def sizeTests (reg : Reg) (size : SizeArg) (lbl : ℕ) : CgCode :=
  ⟨0, size.sub⟩ :: ⟨0, .branchReg .jle reg 0 (lbl + 2)⟩ :: (plain size.error ++ [⟨lbl + 2, .nop⟩])

section

variable {C : Callee Func} {P : CgCode} {s : St Func} {reg : Reg} {size : SizeArg} {scratchsize : BitVec 32} {lbl : ℕ}

def BaseOk (scratchsize : BitVec 32) (pos top : Word) : Prop :=
  8 ≤ pos.toInt ∧ pos.toInt < scratchsize.toInt ∧ pos.toNat < top.toNat

lemma jslt_eight (v : Word) : JmpOp.jslt.eval v ((imm 8).signExtend 64) = decide (v.toInt < 8) := rfl

lemma jsge_imm (v : Word) (i : BitVec 32) : JmpOp.jsge.eval v (i.signExtend 64) = decide (i.toInt ≤ v.toInt) := by
  rw [JmpOp.eval, BitVec.sle, toInt_signExtend_of_le (by decide)]

lemma baseTests_does (hP : LabelsNodup P) (h : BaseOk scratchsize (s.regs reg) (s.regs 0)) :
    Does (exec C) P (baseTests scratchsize reg lbl) s s := by
  obtain ⟨hlow, hhigh, htop⟩ := h
  refine .cons (exec_branchImm_skip ?_) (.cons (exec_branchImm_skip ?_) ?_)
  · rw [jslt_eight]
    simpa using hlow
  · rw [jsge_imm]
    simpa using hhigh
  · change Does (exec C) P (⟨0, _⟩ :: ((⟨lbl, .nop⟩ :: plain (dtCgProbeErrorReg .badaddr reg)) ++ ⟨lbl + 1, .nop⟩ :: [])) s s
    refine .skip hP (by omega) (exec_branchReg_taken ?_) (.cons rfl (.nil s))
    simpa [JmpOp.eval, BitVec.ult] using htop

lemma illval_raises : Raises C P (⟨lbl, .nop⟩ :: (plain (dtCgProbeErrorReg .badaddr reg) ++ [⟨lbl + 1, .nop⟩])) s .badaddr :=
  .cons rfl rfl (.append (probeErrorReg_raises reg s))

lemma baseTests_raises (hP : LabelsNodup P) (hlbl : lbl ≠ 0) (h : ¬ BaseOk scratchsize (s.regs reg) (s.regs 0)) :
    Raises C P (baseTests scratchsize reg lbl) s .badaddr := by
  by_cases hlow : (s.regs reg).toInt < 8
  · change Raises C P (⟨0, _⟩ :: ([⟨0, _⟩, ⟨0, _⟩] ++ ⟨lbl, _⟩ :: _)) s .badaddr
    refine .skip hP hlbl (exec_branchImm_taken ?_) illval_raises
    rw [jslt_eight]
    simpa using hlow
  refine .cons (exec_branchImm_skip (by rw [jslt_eight]; simpa using hlow)) rfl ?_
  by_cases hhigh : scratchsize.toInt ≤ (s.regs reg).toInt
  · change Raises C P (⟨0, _⟩ :: ([⟨0, _⟩] ++ ⟨lbl, _⟩ :: _)) s .badaddr
    refine .skip hP hlbl (exec_branchImm_taken ?_) illval_raises
    rw [jsge_imm]
    simpa using hhigh
  refine .cons (exec_branchImm_skip (by rw [jsge_imm]; simpa using hhigh)) rfl ?_
  refine .cons (exec_branchReg_skip ?_) rfl illval_raises
  have htop : ¬ (s.regs reg).toNat < (s.regs 0).toNat := fun ht => h ⟨by omega, by omega, ht⟩
  simpa [JmpOp.eval, BitVec.ult] using htop

lemma exec_sub : exec C size.sub s = .next (s.setReg 0 (s.regs 0 - size.word s)) := by
  cases size <;> rfl

lemma size_error_raises : Raises C P (plain size.error) s .badsize := by
  cases size with
  | reg r => exact probeErrorReg_raises r s
  | imm n => exact probeError_raises _ s

lemma sizeTests_does (hP : LabelsNodup P) (hreg : reg ≠ 0) (h : (s.regs reg).toNat ≤ (s.regs 0 - size.word s).toNat) :
    Does (exec C) P (sizeTests reg size lbl) s (s.setReg 0 (s.regs 0 - size.word s)) := by
  refine .cons exec_sub ?_
  refine .skip hP (by omega) (exec_branchReg_taken ?_) (.cons rfl (.nil _))
  simpa [JmpOp.eval, BitVec.ule, hreg] using h

lemma sizeTests_raises (hreg : reg ≠ 0) (h : ¬ (s.regs reg).toNat ≤ (s.regs 0 - size.word s).toNat) :
    Raises C P (sizeTests reg size lbl) s .badsize := by
  refine .cons exec_sub rfl (.cons (exec_branchReg_skip ?_) rfl (.append size_error_raises))
  simpa [JmpOp.eval, BitVec.ule, hreg] using h

/-! ## The check -/

/-- What `%r0` is loaded with: `scratch_top` with `syscall_errno` above it. -/
def topWord (s : St Func) : ℕ := scratchTop s + 2 ^ 32 * syscallErrno s

lemma topWord_lt (s : St Func) : topWord s < 2 ^ 64 := by
  have htop : scratchTop s < 256 ^ 4 := Mem.load_lt _ _ _
  have herrno : syscallErrno s < 256 ^ 4 := Mem.load_lt _ _ _
  unfold topWord
  omega

lemma getW_scratchTop (s : St Func) :
    s.mem.getW (mstate s + BitVec.ofInt 64 dmstScratchTop) = BitVec.ofNat 64 (topWord s) := by
  have hofs : mstate s + .ofInt 64 dmstScratchTop + .ofNat 64 4 =
      mstate s + .ofInt 64 dmstErrno := by
    rw [BitVec.add_assoc]
    rfl
  rw [Mem.getW, Mem.load_add _ 4 4, hofs]
  rfl

lemma dtCgAllocaAccessCheck_shape {g g' : GState} {c : CgCode} {u : Unit}
    (h : dtCgAllocaAccessCheck scratchsize reg size g = some (u, c, g')) :
    ∃ (is : List CgInsn) (S : Regset), (∀ i ∈ is, i = dtCgSpillStore 0) ∧
      c = plain (is ++ dtCgAccessDctx 0 .mst ++ [.load .dw 0 0 dmstScratchTop]) ++
        (baseTests scratchsize reg g.lbl ++ (sizeTests reg size g.lbl ++ plain (freeCode S 0))) ∧ g'.lbl = g.lbl + 3 := by
  obtain ⟨_, _⟩ := g
  simp only [dtCgAllocaAccessCheck, dtIrlistLabel_bind] at h
  obtain ⟨is, S, _, his, hgen, rfl⟩ := regXallocUnchecked_bind_shape h
  simp only [emits_bind, emit_bind, emitl_bind, regFree_eq, Option.some.injEq, Prod.mk.injEq, true_and,
    exists_exists_and_eq_and] at hgen
  obtain ⟨_, ⟨rfl, rfl⟩, rfl⟩ := hgen
  exact ⟨is, S, his, by simp [baseTests, sizeTests, plain], rfl⟩

lemma checkSetup_does {is : List CgInsn} (his : ∀ i ∈ is, i = dtCgSpillStore 0) (s : St Func) :
    ∃ s', Does (exec C) P (plain (is ++ dtCgAccessDctx 0 .mst ++ [.load .dw 0 0 dmstScratchTop])) s s' ∧
      (∀ q, q ≠ 0 → s'.regs q = s.regs q) ∧ s'.mem = s.mem ∧ s'.stk dtStkDctx = s.stk dtStkDctx ∧
      s'.regs 0 = BitVec.ofNat 64 (topWord s) := by
  obtain ⟨s1, hrun1, hregs1, hmem1, -, hstk1⟩ := execBlock_spills (fun i hi => ⟨_, his i hi⟩) s
  have hctx1 := hstk1 _ dtStkSpill_ne_dctx
  obtain ⟨s2, hrun2, honly, hval⟩ := execBlock_accessDctx 0 (by decide) .mst s1
  have hmst : s2.regs 0 = mstate s := by rw [hval, hctx1, hmem1]; rfl
  have hmem2 : s2.mem = s.mem := honly.mem.trans hmem1
  refine ⟨s2.setReg 0 (.ofNat 64 (topWord s)), .block ?_, fun q hq => ?_, hmem2, ?_, by simp⟩
  · rw [execBlock_append, execBlock_append, hrun1, Option.bind_some, hrun2, Option.bind_some, ← getW_scratchTop, ← hmst,
      ← hmem2]
    simp [execBlock, exec, loadVal_dw s2 (show (0 : Reg) ≠ fp by decide), St.addr]
  · rw [setReg_regs_ne _ _ hq, honly.regs q (by simpa using hq), hregs1]
  · rw [setReg_stk, honly.stk, hctx1]

def LetsThrough (scratchsize : BitVec 32) (s : St Func) (reg : Reg) (size : SizeArg) : Prop :=
  BaseOk scratchsize (s.regs reg) (BitVec.ofNat 64 (topWord s)) ∧
    (s.regs reg).toNat ≤ (BitVec.ofNat 64 (topWord s) - size.word s).toNat

variable {g g' : GState} {c : CgCode} {u : Unit}

/-- From `s` to `s'` at most `%r0` and spill slots have changed. -/
structure CheckPassed (s s' : St Func) : Prop where
  regs : ∀ q, q ≠ 0 → s'.regs q = s.regs q
  mem : s'.mem = s.mem
  dctx : s'.stk dtStkDctx = s.stk dtStkDctx

section

variable (h : dtCgAllocaAccessCheck scratchsize reg size g = some (u, c, g'))
include h

/-- The check either runs to its end or raises a fault. -/
lemma dtCgAllocaAccessCheck_does (hlbl : g.lbl ≠ 0)
    (hreg : reg ≠ 0) (hsize : ∀ r, size = .reg r → r ≠ 0) (hP : LabelsNodup P) :
    (LetsThrough scratchsize s reg size → ∃ s', Does (exec C) P c s s' ∧ CheckPassed s s') ∧
      (¬ LetsThrough scratchsize s reg size → ∃ fault, Raises C P c s fault) := by
  obtain ⟨_, S, his, rfl, -⟩ := dtCgAllocaAccessCheck_shape h
  obtain ⟨s1, hsetup, hregs, hmem, hctx, htop⟩ := checkSetup_does his s
  have hword : size.word s1 = size.word s := by
    cases size with
    | reg r => exact hregs r (hsize r rfl)
    | imm n => rfl
  have hlets : LetsThrough scratchsize s reg size ↔ BaseOk scratchsize (s1.regs reg) (s1.regs 0) ∧
      (s1.regs reg).toNat ≤ (s1.regs 0 - size.word s1).toNat := by
    rw [hregs reg hreg, htop, hword]
    rfl
  rw [hlets]
  refine ⟨fun ⟨hbase, hend⟩ => ?_, fun hnot => ?_⟩
  · obtain ⟨s2, hfree, honly⟩ := execBlock_free_only S 0 (s1.setReg 0 (s1.regs 0 - size.word s1))
    refine ⟨s2, hsetup.append ((baseTests_does hP hbase).append ((sizeTests_does hP hreg hend).append (.block hfree))),
      fun q hq => ?_, honly.mem.trans hmem, by rw [honly.stk, setReg_stk, hctx]⟩
    rw [honly.regs q (by simpa using hq), setReg_regs_ne _ _ hq, hregs q hq]
  · by_cases hbase : BaseOk scratchsize (s1.regs reg) (s1.regs 0)
    · have hend := fun he => hnot ⟨hbase, he⟩
      exact ⟨.badsize, .of_does hsetup hctx (.of_does (baseTests_does hP hbase) rfl
        (.append (sizeTests_raises hreg hend)))⟩
    · exact ⟨.badaddr, .of_does hsetup hctx (.append (baseTests_raises hP hlbl hbase))⟩

lemma dtCgAllocaAccessCheck_labels : Labels c g.lbl g'.lbl := by
  obtain ⟨_, S, -, rfl, hg'⟩ := dtCgAllocaAccessCheck_shape h
  refine ⟨by omega, fun l hl => ?_⟩
  simp only [baseTests, sizeTests, labelCount_append, labelCount_cons, labelCount_nil, labelCount_plain hl]
  split_ifs at * <;> omega

end

/-- Where the check is sound: an access that starts in the allocated space, as the code sees it, either ends in it or is
long enough to be noticed. -/
def AccessFits (scratchsize : BitVec 32) (s : St Func) (reg : Reg) (size : SizeArg) : Prop :=
  8 ≤ (s.regs reg).toInt → (s.regs reg).toInt < scratchsize.toInt → (s.regs reg).toInt < topWord s →
    (s.regs reg).toInt + size.bytes s ≤ scratchTop s ∨
      (size.word s).toNat ≤ topWord s ∧ topWord s < (s.regs reg).toInt + (size.word s).toNat

lemma toNat_of_toInt_nonneg {v : Word} (h : 0 ≤ v.toInt) : (v.toNat : ℤ) = v.toInt := by
  rw [toInt_eq_toNat_cond] at h ⊢
  split_ifs at h ⊢ with hlt
  · rfl
  · have := v.isLt
    omega

lemma le_sub_iff {p w v : Word} (h : p.toNat < w.toNat) :
    p.toNat ≤ (w - v).toNat ↔ (v.toNat ≤ w.toNat → p.toNat + v.toNat ≤ w.toNat) := by
  rw [toNat_sub]
  omega

lemma letsThrough_inside_iff :
    (LetsThrough scratchsize s reg size → Inside s reg size) ↔ AccessFits scratchsize s reg size := by
  have htop : (BitVec.ofNat 64 (topWord s)).toNat = topWord s := Nat.mod_eq_of_lt (topWord_lt s)
  unfold LetsThrough BaseOk Inside AccessFits
  constructor
  · intro h hlow hhigh hlt
    have hpos := toNat_of_toInt_nonneg (v := s.regs reg) (by omega)
    have hbase : (s.regs reg).toNat < (BitVec.ofNat 64 (topWord s)).toNat := by omega
    rw [le_sub_iff hbase, htop] at h
    by_cases hend : (s.regs reg).toInt + size.bytes s ≤ scratchTop s
    · exact .inl hend
    · refine .inr ⟨?_, ?_⟩ <;> by_contra hnot
      · exact hend (h ⟨⟨hlow, hhigh, by omega⟩, fun hle => absurd hle hnot⟩).2
      · exact hend (h ⟨⟨hlow, hhigh, by omega⟩, fun _ => by omega⟩).2
  · rintro h ⟨⟨hlow, hhigh, hbase⟩, hend⟩
    have hpos := toNat_of_toInt_nonneg (v := s.regs reg) (by omega)
    rw [le_sub_iff hbase, htop] at hend
    refine ⟨hlow, ?_⟩
    rcases h hlow hhigh (by omega) with hin | ⟨hle, -⟩
    · exact hin
    · have := hend hle
      omega

lemma AccessSound.fits (hsound : AccessSound C c s reg size)
    (h : dtCgAllocaAccessCheck scratchsize reg size g = some (u, c, g')) (hlbl : g.lbl ≠ 0) (hreg : reg ≠ 0)
    (hsize : ∀ r, size = .reg r → r ≠ 0) : AccessFits scratchsize s reg size := by
  refine letsThrough_inside_iff.1 fun hlets => ?_
  obtain ⟨s', hrun, -⟩ := (dtCgAllocaAccessCheck_does h hlbl hreg hsize (dtCgAllocaAccessCheck_labels h).nodup).1 hlets
  exact hsound.inside s' hrun

/-- The check is sound exactly for the accesses that fit. -/
theorem access_check_iff (h : dtCgAllocaAccessCheck scratchsize reg size g = some (u, c, g')) (hlbl : g.lbl ≠ 0)
    (hreg : reg ≠ 0) (hsize : ∀ r, size = .reg r → r ≠ 0) :
    AccessSound C c s reg size ↔ AccessFits scratchsize s reg size := by
  refine ⟨fun hsound => hsound.fits h hlbl hreg hsize, fun hfits => ?_⟩
  obtain ⟨-, hraises⟩ :=
    dtCgAllocaAccessCheck_does h hlbl hreg hsize (dtCgAllocaAccessCheck_labels h).nodup
  refine ⟨fun s' hrun => letsThrough_inside_iff.2 hfits ?_, fun hout => hraises fun hlets => ?_⟩
  · by_contra hnot
    obtain ⟨_, hfault⟩ := hraises hnot
    exact hfault.not_does hrun
  · exact hout (letsThrough_inside_iff.2 hfits hlets)

end

/-- A context at 0 and its machine state at 4096. -/
def scratchMem (top : ℕ) : Mem := (zeroMem.setW 16 4096).store 4 4108 top

/-- The position 8 is in `%r8` and a size in `%r7`. -/
def scratchSt (top : ℕ) (size : Word) : St Func :=
  ⟨Function.update (Function.update (fun _ => 0) 8 8) 7 size, fun _ => 0, scratchMem top, []⟩

lemma scratchTop_sixteen (size : Word) : scratchTop (scratchSt 16 size) = 16 := by
  change (scratchMem 16).load 4 (dctxField 0 (scratchMem 16) .mst + .ofInt 64 dmstScratchTop) = 16
  decide +kernel

lemma scratchCheck_compiles : ∃ c g', dtCgAllocaAccessCheck 256 8 (.reg 7) ⟨Regset.dtRegsetReset, 1⟩ = some ((), c, g') :=
  ⟨_, _, rfl⟩

/-- An access to all of the eight bytes. -/
theorem access_check_eight_bytes : ∃ c g', dtCgAllocaAccessCheck 256 8 (.reg 7) ⟨Regset.dtRegsetReset, 1⟩ = some ((), c, g') ∧
    AccessSound idleCallee c (scratchSt 16 8) 8 (.reg 7) := by
  obtain ⟨c, g', h⟩ := scratchCheck_compiles
  refine ⟨c, g', h, (access_check_iff h (by decide) (by decide) (by simp)).2 fun _ _ _ => .inl ?_⟩
  rw [scratchTop_sixteen]
  decide

/-- An access to 17 bytes: `16 - 17` wraps, and the check lets it through. -/
theorem access_check_seventeen_bytes : ∃ c g', dtCgAllocaAccessCheck 256 8 (.reg 7) ⟨Regset.dtRegsetReset, 1⟩ = some ((), c, g') ∧
    ¬ AccessSound idleCallee c (scratchSt 16 17) 8 (.reg 7) := by
  obtain ⟨c, g', h⟩ := scratchCheck_compiles
  refine ⟨c, g', h, fun hsound => ?_⟩
  have hfits := hsound.fits h (by decide) (by decide) (by simp)
  unfold AccessFits topWord at hfits
  exact absurd hfits (by decide)

end DTrace.Cg
