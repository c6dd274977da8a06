import DTrace.Cg.Alloca

/-!
# Blocks of scratch memory

`alloca()` takes a block from the scratch space: it returns `scratch_top` and moves it up by the size, rounded up to a
multiple of eight.

* `dtCgSubrAllocaImpl` — the code; `allocaImpl_does`, `allocaImpl_raises` — what it does;
* `AllocaRun` — the calls of a clause, whatever other code runs between them;
* `alloca_blocks_disjoint` — as long as no size wraps the top around, the blocks of a clause do not overlap.
-/

namespace DTrace.Cg

open Lib Bpf List Option
open BitVec hiding not_or

/-- The immediate `-8`. -/
def immNegEight : BitVec 32 := BitVec.ofInt 32 (-8)

/-- `dt_cg_subr_alloca_impl`, with the result in `dnReg` and the size in `size`; `value` is that of a constant size. -/
def dtCgSubrAllocaImpl (scratchsize : BitVec 32) (dnReg size : Reg) (value : Option Word) : Gen Unit := do
  let lblOk ← dtIrlistLabel
  let lblErr ← dtIrlistLabel
  if value.any fun v => ((scratchsize - 8).signExtend 64).ult v then dnerror
  let mst ← regAlloc
  let next ← regAlloc
  emits (dtCgAccessDctx mst .mst)
  emits [.load .w next mst dmstScratchTop, .movReg dnReg next, .aluReg .add next size, .aluImm .add next (imm 7),
    .aluImm .and next immNegEight]
  emit (.branchImm .jgt next scratchsize lblErr)
  emit (.branchImm .jle dnReg (scratchsize - 8) lblOk)
  emitl lblErr .nop
  emits (dtCgProbeError .noscratch (imm 0))
  emitl lblOk (.store .w mst dmstScratchTop next)
  regFree mst
  regFree next

def dtCgSubrAlloca (scratchsize : BitVec 32) (size : Gen Reg) (value : Option Word) : Gen Reg := do
  let sizeReg ← size
  let dnReg ← regAlloc
  dtCgSubrAllocaImpl scratchsize dnReg sizeReg value
  regFree sizeReg
  return dnReg

/-- The tests of `dt_cg_subr_alloca_impl`, and the new top. -/
def allocaTests (scratchsize : BitVec 32) (dnReg mst next : Reg) (lbl : ℕ) : CgCode :=
  ⟨0, .branchImm .jgt next scratchsize (lbl + 1)⟩ :: ⟨0, .branchImm .jle dnReg (scratchsize - 8) lbl⟩ ::
    ⟨lbl + 1, .nop⟩ :: (plain (dtCgProbeError .noscratch (imm 0)) ++ [⟨lbl, .store .w mst dmstScratchTop next⟩])

def allocaSetup (dnReg size mst next : Reg) : List CgInsn :=
  dtCgAccessDctx mst .mst ++ [.load .w next mst dmstScratchTop, .movReg dnReg next, .aluReg .add next size,
    .aluImm .add next (imm 7), .aluImm .and next immNegEight]

variable {scratchsize i : BitVec 32} {c : CgCode} {value : Option Word} {C : Callee Func} {s' : St Func}
  {g' : GState} {r : Reg}

section

variable {P : CgCode} {s : St Func} {dnReg size mst next : Reg}
  {lbl : ℕ}

variable {S : Regset} {u : Unit}

lemma dtCgSubrAllocaImpl_shape
    (h : dtCgSubrAllocaImpl scratchsize dnReg size value ⟨S, lbl⟩ = some (u, c, g')) :
    ∃ mst next T, S.pick = some mst ∧ (S.claim mst).pick = some next ∧
      c = plain (claimCode S mst ++ claimCode (S.claim mst) next ++ allocaSetup dnReg size mst next) ++
        (allocaTests scratchsize dnReg mst next lbl ++
          plain (freeCode ((S.claim mst).claim next) mst ++ freeCode T next)) := by
  simp only [dtCgSubrAllocaImpl, dtIrlistLabel_bind] at h
  split at h
  · rw [Gen.bind_of_none rfl] at h
    cases h
  · simp only [regAlloc_bind, emits_bind, emit_bind, emitl_bind, regFree_bind, regFree_eq, Option.some.injEq,
      Prod.mk.injEq, true_and, exists_exists_and_eq_and] at h
    obtain ⟨mst, hmst, _, ⟨next, hnext, _, ⟨rfl, -⟩, rfl⟩, rfl⟩ := h
    exact ⟨mst, next, ((S.claim mst).claim next).release mst, hmst, hnext, by simp [allocaSetup, allocaTests, plain]⟩

/-! ## One call -/

def nextTop (top size : Word) : Word := (top + size + 7#64) &&& -8#64

lemma immSeven_signExtend : (imm 7).signExtend 64 = 7#64 := by decide

lemma immNegEight_signExtend : immNegEight.signExtend 64 = -8#64 := by decide

lemma loadVal_w (s : St Func) (h : r ≠ fp) (o : ℤ) :
    s.loadVal .w r o = BitVec.ofNat 64 (s.mem.load 4 (s.addr r o)) := by
  simp [St.loadVal, h, Size.bytes]

-- the immediates stay variables: the kernel would compute with their values
lemma execBlock_allocaArith {j : BitVec 32} {top : Word}
    (hne : dnReg ≠ next ∧ dnReg ≠ size ∧ next ≠ size) (htop : s.loadVal .w mst dmstScratchTop = top) :
    ∃ s', execBlock (exec C) [.load .w next mst dmstScratchTop, .movReg dnReg next, .aluReg .add next size,
        .aluImm .add next i, .aluImm .and next j] s = some s' ∧ St.Only [next, dnReg] s s' ∧ s'.regs dnReg = top ∧
      s'.regs next = (top + s.regs size + i.signExtend 64) &&& j.signExtend 64 := by
  obtain ⟨hdn, hds, hns⟩ := hne
  refine ⟨((((s.setReg next top).setReg dnReg top).setReg next (top + s.regs size)).setReg next
    (top + s.regs size + i.signExtend 64)).setReg next ((top + s.regs size + i.signExtend 64) &&& j.signExtend 64), ?_, ?_, ?_, ?_⟩
  · simp [execBlock, exec, AluOp.eval, htop, hdn.symm, hds.symm, hns.symm]
  · exact (St.Only.refl _ s).setReg.setReg.setReg.setReg.setReg
  · simp [hdn]
  · simp

/-- The registers the code works with are different ones. -/
def AllocaRegs (S : Regset) (dnReg size : Reg) : Prop :=
  ∀ mst next, S.pick = some mst → (S.claim mst).pick = some next → [mst, next, dnReg, size].Nodup

/-- What the code has in its registers when it comes to the tests. -/
structure AllocaReady (s : St Func) (dnReg size mst next : Reg) (s' : St Func) : Prop where
  mst : s'.regs mst = mstate s
  dnReg : s'.regs dnReg = BitVec.ofNat 64 (scratchTop s)
  next : s'.regs next = nextTop (BitVec.ofNat 64 (scratchTop s)) (s.regs size)
  mem : s'.mem = s.mem
  dctx : s'.stk dtStkDctx = s.stk dtStkDctx

lemma allocaSetup_does (S T : Regset) (hmst : mst ≠ fp) (hnd : [mst, next, dnReg, size].Nodup) :
    ∃ s', Does (exec C) P (plain (claimCode S mst ++ claimCode T next ++ allocaSetup dnReg size mst next)) s s' ∧
      AllocaReady s dnReg size mst next s' := by
  simp only [nodup_cons, mem_cons, not_mem_nil, or_false, not_or, not_false_eq_true, nodup_nil,
    and_true] at hnd
  obtain ⟨⟨hmn, hmd, hms⟩, ⟨hnd, hns⟩, hds⟩ := hnd
  set s1 := afterClaim T next (afterClaim S mst s) with hs1
  have hregs1 : s1.regs = s.regs := by rw [hs1, afterClaim_regs, afterClaim_regs]
  have hmem1 : s1.mem = s.mem := by rw [hs1, afterClaim_mem, afterClaim_mem]
  have hctx1 : s1.stk dtStkDctx = s.stk dtStkDctx := by rw [hs1, afterClaim_dctx, afterClaim_dctx]
  obtain ⟨s2, hrun2, honly2, hval2⟩ := execBlock_accessDctx mst hmst .mst s1
  have hmst2 : s2.regs mst = mstate s := by rw [hval2, hctx1, hmem1]; rfl
  have hmem2 : s2.mem = s.mem := honly2.mem.trans hmem1
  have htop : s2.loadVal .w mst dmstScratchTop = .ofNat 64 (scratchTop s) := by
    rw [loadVal_w _ hmst, St.addr, hmst2, hmem2]
    rfl
  obtain ⟨s3, hrun3, honly3, hdn3, hnext3⟩ := execBlock_allocaArith
    ⟨Ne.symm hnd, hds, hns⟩ htop
  refine ⟨s3, Does.block ?_, ?_, hdn3, ?_, honly3.mem.trans hmem2, ?_⟩
  · rw [execBlock_append, execBlock_append, execBlock_claim, bind_some, execBlock_claim, bind_some,
      allocaSetup, execBlock_append, hrun2, bind_some, hrun3]
  · rw [honly3.regs mst (by simp [hmn, hmd]), hmst2]
  · rw [hnext3, immSeven_signExtend, immNegEight_signExtend, honly2.regs size (by simpa using Ne.symm hms), hregs1]
    rfl
  · rw [honly3.stk, honly2.stk, hctx1]

def Allocates (scratchsize : BitVec 32) (top size : Word) : Prop :=
  (nextTop top size).toNat ≤ (scratchsize.signExtend 64).toNat ∧ top.toNat ≤ ((scratchsize - 8).signExtend 64).toNat

structure Allocated (s : St Func) (dnReg size : Reg) (s' : St Func) : Prop where
  block : s'.regs dnReg = BitVec.ofNat 64 (scratchTop s)
  mem : s'.mem = s.mem.store 4 (mstate s + BitVec.ofInt 64 dmstScratchTop)
    (nextTop (BitVec.ofNat 64 (scratchTop s)) (s.regs size)).toNat
  dctx : s'.stk dtStkDctx = s.stk dtStkDctx

lemma allocaTests_does (hP : LabelsNodup P) (hlbl : lbl ≠ 0) (h : AllocaReady s dnReg size mst next s')
    (hfits : Allocates scratchsize (BitVec.ofNat 64 (scratchTop s)) (s.regs size)) :
    Does (exec C) P (allocaTests scratchsize dnReg mst next lbl) s'
      (s'.storeVal .w mst dmstScratchTop (s'.regs next)) := by
  refine Does.cons (exec_branchImm_skip ?_) ?_
  · rw [h.next]
    simpa [JmpOp.eval, BitVec.ult] using hfits.1
  · change Does (exec C) P (⟨0, _⟩ :: ((⟨lbl + 1, .nop⟩ :: plain _) ++ ⟨lbl, _⟩ :: [])) s' _
    refine Does.skip hP hlbl (exec_branchImm_taken ?_) (Does.cons rfl (Does.nil _))
    rw [h.dnReg]
    simpa [JmpOp.eval, BitVec.ule] using hfits.2

lemma allocaTests_raises (hP : LabelsNodup P) (h : AllocaReady s dnReg size mst next s')
    (hfits : ¬ Allocates scratchsize (BitVec.ofNat 64 (scratchTop s)) (s.regs size)) :
    Raises C P (allocaTests scratchsize dnReg mst next lbl) s' .noscratch := by
  have herr : Raises C P (⟨lbl + 1, .nop⟩ :: (plain (dtCgProbeError .noscratch (imm 0)) ++
      [⟨lbl, .store .w mst dmstScratchTop next⟩])) s' .noscratch :=
    Raises.cons rfl rfl (Raises.append (probeError_raises _ s'))
  by_cases hnext : (nextTop (.ofNat 64 (scratchTop s)) (s.regs size)).toNat ≤ (scratchsize.signExtend 64).toNat
  · refine Raises.cons (exec_branchImm_skip ?_) rfl (Raises.cons (exec_branchImm_skip ?_) rfl herr)
    · rw [h.next]
      simpa [JmpOp.eval, BitVec.ult] using hnext
    · have hdn := fun hle => hfits ⟨hnext, hle⟩
      rw [h.dnReg]
      simpa [JmpOp.eval, BitVec.ule] using hdn
  · change Raises C P (⟨0, _⟩ :: ([⟨0, _⟩] ++ ⟨lbl + 1, _⟩ :: _)) s' .noscratch
    refine Raises.skip hP (by omega) (exec_branchImm_taken ?_) herr
    rw [h.next]
    simpa [JmpOp.eval, BitVec.ult] using hnext

section

variable (h : dtCgSubrAllocaImpl scratchsize dnReg size value ⟨S, lbl⟩ = some (u, c, g'))
include h

/-- A call with room for the block returns it. -/
theorem allocaImpl_does (hlbl : lbl ≠ 0) (hregs : AllocaRegs S dnReg size) (hP : LabelsNodup P)
    (hfits : Allocates scratchsize (BitVec.ofNat 64 (scratchTop s)) (s.regs size)) :
    ∃ s', Does (exec C) P c s s' ∧ Allocated s dnReg size s' := by
  obtain ⟨mst, next, T, hmst, hnext, rfl⟩ := dtCgSubrAllocaImpl_shape h
  have hfp := (pick_picks hmst).ne_fp
  have hnd := hregs mst next hmst hnext
  obtain ⟨s1, hrun1, hready⟩ := allocaSetup_does S (S.claim mst) hfp hnd
  obtain ⟨s2, hrun2, honly2⟩ := execBlock_free_only ((S.claim mst).claim next) mst
    (s1.storeVal .w mst dmstScratchTop (s1.regs next))
  obtain ⟨s3, hrun3, honly3⟩ := execBlock_free_only T next s2
  have hstore : s1.storeVal .w mst dmstScratchTop (s1.regs next) =
      { s1 with mem := s1.mem.store 4 (mstate s + .ofInt 64 dmstScratchTop) (s1.regs next).toNat } := by
    rw [St.storeVal, if_neg hfp, St.addr, hready.mst]
    rfl
  have hfree : execBlock (exec C) (freeCode ((S.claim mst).claim next) mst ++ freeCode T next)
      (s1.storeVal .w mst dmstScratchTop (s1.regs next)) = some s3 := by
    rw [execBlock_append, hrun2, bind_some, hrun3]
  refine ⟨s3, hrun1.append ((allocaTests_does hP hlbl hready hfits).append (Does.block hfree)), ?_, ?_, ?_⟩
  · simp only [nodup_cons, mem_cons, not_or] at hnd
    rw [honly3.regs dnReg (by simpa using Ne.symm hnd.2.1.1), honly2.regs dnReg (by simpa using Ne.symm hnd.1.2.1), hstore]
    exact hready.dnReg
  · rw [honly3.mem, honly2.mem, hstore]
    rw [hready.mem, hready.next]
  · rw [honly3.stk, honly2.stk, hstore]
    exact hready.dctx

/-- A call without room for the block raises a fault. -/
theorem allocaImpl_raises
    (hregs : AllocaRegs S dnReg size) (hP : LabelsNodup P)
    (hfits : ¬ Allocates scratchsize (BitVec.ofNat 64 (scratchTop s)) (s.regs size)) : Raises C P c s .noscratch := by
  obtain ⟨mst, next, T, hmst, hnext, rfl⟩ := dtCgSubrAllocaImpl_shape h
  obtain ⟨_, hrun1, hready⟩ :=
    allocaSetup_does S (S.claim mst) (pick_picks hmst).ne_fp (hregs mst next hmst hnext)
  exact Raises.of_does hrun1 hready.dctx (Raises.append (allocaTests_raises hP hready hfits))

lemma allocaImpl_nodup : LabelsNodup c := by
  obtain ⟨_, _, T, -, -, rfl⟩ := dtCgSubrAllocaImpl_shape h
  refine labelsNodup_of_labelCount fun l hl => ?_
  simp only [allocaTests, labelCount_append, labelCount_cons, labelCount_nil, labelCount_plain hl]
  split_ifs <;> omega

end

end

/-! ## The calls of a clause -/

/-- A call of `alloca()`: what is known when its code is generated. -/
structure AllocaCall where
  regs : Regset
  lbl : ℕ
  dnReg : Reg
  size : Reg
  value : Option Word

def AllocaCall.Compiled (scratchsize : BitVec 32) (k : AllocaCall) (c : CgCode) : Prop :=
  k.lbl ≠ 0 ∧ ∃ u g', dtCgSubrAllocaImpl scratchsize k.dnReg k.size k.value ⟨k.regs, k.lbl⟩ = some (u, c, g')

/-- A block of the scratch space. -/
structure Block where
  base : ℕ
  size : ℕ

def Block.Apart (b b' : Block) : Prop := b.base + b.size ≤ b'.base ∨ b'.base + b'.size ≤ b.base

def AllocaCall.block (k : AllocaCall) (s s' : St Func) : Block := ⟨(s'.regs k.dnReg).toNat, (s.regs k.size).toNat⟩

/-- The context keeps its pointer to the machine state apart from `scratch_top`. -/
def CtxApart (s : St Func) : Prop := ∀ b, Mem.InRange (s.stk dtStkDctx + BitVec.ofInt 64 (DctxMember.ofs .mst)) 8 b →
  ¬ Mem.InRange (mstate s + BitVec.ofInt 64 dmstScratchTop) 4 b

/-- A clause that calls `alloca()`: the blocks returned so far, the latest first, and the state.  The trampoline sets
`scratch_top` to 8, and only calls that are `ok` are made. -/
inductive AllocaRun (C : Callee Func) (scratchsize : BitVec 32) (ok : AllocaCall → St Func → Prop) :
    List Block → St Func → Prop
  | start {s : St Func} (htop : scratchTop s = 8) (hapart : CtxApart s) : AllocaRun C scratchsize ok [] s
  | other {bs : List Block} {s s' : St Func} (h : AllocaRun C scratchsize ok bs s)
      (hctx : s'.stk dtStkDctx = s.stk dtStkDctx) (hmst : mstate s' = mstate s) (htop : scratchTop s' = scratchTop s) :
      AllocaRun C scratchsize ok bs s'
  | call {bs : List Block} {s s' : St Func} {k : AllocaCall} {c : CgCode} (h : AllocaRun C scratchsize ok bs s)
      (hc : k.Compiled scratchsize c) (hok : ok k s) (hrun : Does (exec C) c c s s') :
      AllocaRun C scratchsize ok (k.block s s' :: bs) s'

/-- The blocks do not overlap, `scratch_top` is in bounds, and every further call raises a fault or returns a block
apart from those there are, without moving `scratch_top` down or out of bounds. -/
structure BlocksSound (C : Callee Func) (scratchsize : BitVec 32) (ok : AllocaCall → St Func → Prop) (bs : List Block)
    (s : St Func) : Prop where
  apart : bs.Pairwise Block.Apart
  top : (scratchTop s : ℤ) ≤ scratchsize.toInt
  next : ∀ k c, AllocaCall.Compiled scratchsize k c → ok k s → (∃ fault, Raises C c c s fault) ∨
    ∃ s', Does (exec C) c c s s' ∧ scratchTop s ≤ scratchTop s' ∧ (scratchTop s' : ℤ) ≤ scratchsize.toInt ∧
      ∀ b ∈ bs, (k.block s s').Apart b

/-- The call works with different registers, and its size does not wrap the top around unless there is no space left. -/
def AllocaFits (scratchsize : BitVec 32) (k : AllocaCall) (s : St Func) : Prop :=
  AllocaRegs k.regs k.dnReg k.size ∧
    (scratchTop s + (s.regs k.size).toNat + 7 < 2 ^ 64 ∨ scratchsize.toInt - 8 < scratchTop s)

section

variable {k : AllocaCall} {s : St Func} {bs : List Block}
  {top : ℕ} {size : Word}

structure BlocksInv (scratchsize : BitVec 32) (bs : List Block) (s : St Func) : Prop where
  ctx : CtxApart s
  top : (scratchTop s : ℤ) ≤ scratchsize.toInt
  below : ∀ b ∈ bs, b.base + b.size ≤ scratchTop s
  apart : bs.Pairwise Block.Apart

lemma scratchTop_lt (s : St Func) : scratchTop s < 2 ^ 32 := Mem.load_lt _ _ _

lemma toNat_ofNat_scratchTop (s : St Func) : (BitVec.ofNat 64 (scratchTop s)).toNat = scratchTop s :=
  Nat.mod_eq_of_lt ((scratchTop_lt s).trans (by decide))

lemma toNat_nextTop (h : top + size.toNat + 7 < 2 ^ 64) :
    (nextTop (BitVec.ofNat 64 top) size).toNat = (top + size.toNat + 7) / 8 * 8 := by
  rw [nextTop, toNat_and_neg_eight, toNat_add, toNat_add, toNat_ofNat, toNat_ofNat]
  omega

lemma toNat_signExtend_of_nonneg (h : 0 ≤ i.toInt) : ((i.signExtend 64).toNat : ℤ) = i.toInt := by
  rw [toNat_of_toInt_nonneg] <;> rw [toInt_signExtend_of_le (by decide)]
  exact h

lemma toInt_sub_eight (h : 8 ≤ i.toInt) : (i - 8).toInt = i.toInt - 8 := by
  have hlt := toInt_lt (x := i)
  rw [toInt_sub, show (8 : BitVec 32).toInt = 8 from rfl, Int.bmod_eq_of_le] <;> omega

lemma Allocates.bounds (h : Allocates scratchsize (BitVec.ofNat 64 (scratchTop s)) size) (hss : 8 ≤ scratchsize.toInt)
    (hfits : scratchTop s + size.toNat + 7 < 2 ^ 64 ∨ scratchsize.toInt - 8 < scratchTop s) :
    scratchTop s + size.toNat ≤ (nextTop (BitVec.ofNat 64 (scratchTop s)) size).toNat ∧
      ((nextTop (BitVec.ofNat 64 (scratchTop s)) size).toNat : ℤ) ≤ scratchsize.toInt := by
  obtain ⟨hnext, hbase⟩ := h
  have hsub := toInt_sub_eight hss
  have hss' := toNat_signExtend_of_nonneg (i := scratchsize) (by omega)
  have hsub' := toNat_signExtend_of_nonneg (i := scratchsize - 8) (by omega)
  rw [toNat_ofNat_scratchTop] at hbase
  have hwrap := hfits.resolve_right (by omega)
  refine ⟨?_, by omega⟩
  rw [toNat_nextTop hwrap]
  omega

lemma Allocated.mstate (h : Allocated s k.dnReg k.size s') (hctx : CtxApart s) : mstate s' = mstate s := by
  unfold Cg.mstate dctxField Mem.getW
  rw [h.mem, h.dctx, Mem.load_store_disjoint hctx]

lemma Allocated.scratchTop (h : Allocated s k.dnReg k.size s') (hctx : CtxApart s)
    (hlt : (nextTop (BitVec.ofNat 64 (scratchTop s)) (s.regs k.size)).toNat < 2 ^ 32) :
    scratchTop s' = (nextTop (BitVec.ofNat 64 (Cg.scratchTop s)) (s.regs k.size)).toNat := by
  unfold Cg.scratchTop
  rw [h.mstate hctx, h.mem, Mem.load_store_same (by decide)]
  exact Nat.mod_eq_of_lt hlt

lemma AllocaCall.Compiled.allocated (hc : k.Compiled scratchsize c) (hregs : AllocaRegs k.regs k.dnReg k.size)
    (hrun : Does (exec C) c c s s') :
    Allocates scratchsize (BitVec.ofNat 64 (scratchTop s)) (s.regs k.size) ∧ Allocated s k.dnReg k.size s' := by
  obtain ⟨hlbl, u, _, hgen⟩ := hc
  have hnd := allocaImpl_nodup hgen
  by_cases hfits : Allocates scratchsize (.ofNat 64 (scratchTop s)) (s.regs k.size)
  · obtain ⟨_, hrun', halloc⟩ := allocaImpl_does hgen hlbl hregs hnd hfits
    obtain rfl := hrun.unique hrun'
    exact ⟨hfits, halloc⟩
  · exact ((allocaImpl_raises hgen hregs hnd hfits).not_does hrun).elim

lemma BlocksInv.call (h : BlocksInv scratchsize bs s) (hss : 8 ≤ scratchsize.toInt) (hc : k.Compiled scratchsize c)
    (hok : AllocaFits scratchsize k s) (hrun : Does (exec C) c c s s') :
    scratchTop s ≤ scratchTop s' ∧ (∀ b ∈ bs, (k.block s s').Apart b) ∧
      BlocksInv scratchsize (k.block s s' :: bs) s' := by
  obtain ⟨hregs, hwrap⟩ := hok
  obtain ⟨hfits, halloc⟩ := hc.allocated hregs hrun
  obtain ⟨hlow, hhigh⟩ := hfits.bounds hss hwrap
  have hlt := toInt_lt (x := scratchsize)
  have htop := halloc.scratchTop h.ctx (by omega)
  have hblock : k.block s s' = ⟨scratchTop s, (s.regs k.size).toNat⟩ := by
    rw [AllocaCall.block, halloc.block, toNat_ofNat_scratchTop]
  have hapart : ∀ b ∈ bs, (k.block s s').Apart b := fun b hb => by
    rw [hblock]
    exact .inr (h.below b hb)
  refine ⟨by omega, hapart, ?_, by omega, ?_, pairwise_cons.2 ⟨hapart, h.apart⟩⟩
  · unfold CtxApart
    rw [halloc.mstate h.ctx, halloc.dctx]
    exact h.ctx
  · intro b hb
    rcases mem_cons.1 hb with rfl | hb
    · rw [hblock, htop]
      exact hlow
    · have := h.below b hb
      omega

lemma AllocaRun.inv (h : AllocaRun C scratchsize (AllocaFits scratchsize) bs s) (hss : 8 ≤ scratchsize.toInt) :
    BlocksInv scratchsize bs s := by
  induction h with
  | start htop hapart =>
    refine ⟨hapart, ?_, by simp, List.Pairwise.nil⟩
    rw [htop]
    exact hss
  | other _ hctx hmst htop ih =>
    refine ⟨?_, htop ▸ ih.top, fun b hb => htop ▸ ih.below b hb, ih.apart⟩
    unfold CtxApart
    rw [hctx, hmst]
    exact ih.ctx
  | call _ hc hok hrun ih => exact (ih.call hss hc hok hrun).2.2

/-- In a clause whose calls all fit, the blocks do not overlap and `scratch_top` only moves up, in bounds. -/
theorem alloca_blocks_disjoint (h : AllocaRun C scratchsize (AllocaFits scratchsize) bs s) (hss : 8 ≤ scratchsize.toInt) :
    BlocksSound C scratchsize (AllocaFits scratchsize) bs s := by
  have hinv := h.inv hss
  refine ⟨hinv.apart, hinv.top, fun k c hc hok => ?_⟩
  obtain ⟨hlbl, u, g', hgen⟩ := hc
  have hnd := allocaImpl_nodup hgen
  by_cases hfits : Allocates scratchsize (.ofNat 64 (scratchTop s)) (s.regs k.size)
  · obtain ⟨s', hrun, -⟩ := allocaImpl_does hgen hlbl hok.1 hnd hfits
    obtain ⟨hle, hapart, hinv'⟩ := hinv.call hss ⟨hlbl, u, g', hgen⟩ hok hrun
    exact .inr ⟨s', hrun, hle, hinv'.top, hapart⟩
  · exact .inl ⟨.noscratch, allocaImpl_raises hgen hok.1 hnd hfits⟩

end

/-- The registers of a call: the result in `%r8`, the size in `%r7`. -/
def scratchCall : AllocaCall := ⟨(Regset.dtRegsetReset.claim 8).claim 7, 1, 8, 7, none⟩

lemma scratchCall_regs : AllocaRegs scratchCall.regs scratchCall.dnReg scratchCall.size := by
  intro mst next hmst hnext
  obtain rfl : mst = 6 := Option.some.inj (hmst.symm.trans (by decide))
  obtain rfl : next = 5 := Option.some.inj (hnext.symm.trans (by decide))
  decide

lemma scratchCall_compiled : ∃ c, scratchCall.Compiled 256 c := ⟨_, by decide, (), _, rfl⟩

lemma scratchTop_eight (size : Word) : scratchTop (scratchSt 8 size) = 8 := by
  change (scratchMem 8).load 4 (dctxField 0 (scratchMem 8) .mst + .ofInt 64 dmstScratchTop) = 8
  decide +kernel

lemma ctxApart_eight (size : Word) : CtxApart (scratchSt 8 size) := by
  have hmst : mstate (scratchSt 8 size) = 4096#64 := by
    change dctxField 0 (scratchMem 8) .mst = 4096#64
    decide +kernel
  rintro b ⟨i, hi, rfl⟩ ⟨j, hj, he⟩
  rw [hmst, show (scratchSt 8 size).stk dtStkDctx = 0#64 from rfl] at he
  have h := congrArg BitVec.toNat he
  norm_num [dmstScratchTop, DctxMember.ofs] at h
  omega

lemma allocaRun_eight {ok : AllocaCall → St Func → Prop} (size : Word) : AllocaRun idleCallee 256 ok [] (scratchSt 8 size) :=
  AllocaRun.start (scratchTop_eight size) (ctxApart_eight size)

/-- A clause that asks for 16 bytes. -/
theorem alloca_sixteen_bytes : ∃ s, AllocaRun idleCallee 256 (AllocaFits 256) [⟨8, 16⟩] s ∧
    BlocksSound idleCallee 256 (AllocaFits 256) [⟨8, 16⟩] s := by
  obtain ⟨c, hc⟩ := scratchCall_compiled
  obtain ⟨hlbl, u, _, hgen⟩ := id hc
  have hfits : AllocaFits 256 scratchCall (scratchSt 8 16) := by
    refine ⟨scratchCall_regs, .inl ?_⟩
    rw [scratchTop_eight]
    decide
  obtain ⟨s', hrun, halloc⟩ := allocaImpl_does (C := idleCallee) (s := scratchSt 8 16) hgen hlbl scratchCall_regs
    (allocaImpl_nodup hgen) (by rw [scratchTop_eight]; exact ⟨by decide, by decide⟩)
  have hblock : scratchCall.block (scratchSt 8 16) s' = ⟨8, 16⟩ := by
    rw [AllocaCall.block, show s'.regs scratchCall.dnReg = _ from halloc.block, scratchTop_eight]
    rfl
  have hcall := hblock ▸ AllocaRun.call (allocaRun_eight 16) hc hfits hrun
  exact ⟨s', hcall, alloca_blocks_disjoint hcall (by decide)⟩

/-- A clause that asks for `-8` bytes: `scratch_top` goes from 8 down to 0. -/
theorem alloca_minus_eight_bytes : ∃ s, AllocaRun idleCallee 256 (fun _ _ => True) [] s ∧
    ¬ BlocksSound idleCallee 256 (fun _ _ => True) [] s := by
  refine ⟨scratchSt 8 (-8), allocaRun_eight (-8), fun hsound => ?_⟩
  obtain ⟨c, hc⟩ := scratchCall_compiled
  obtain ⟨hlbl, u, _, hgen⟩ := id hc
  have hnext : nextTop (.ofNat 64 (scratchTop (scratchSt 8 (-8)))) (-8) = 0#64 := by
    rw [scratchTop_eight]
    decide
  obtain ⟨_, hrun, -⟩ := allocaImpl_does (s := scratchSt 8 (-8)) hgen hlbl scratchCall_regs
    (allocaImpl_nodup hgen) (by rw [scratchTop_eight]; exact ⟨by decide, by decide⟩)
  rcases hsound.next scratchCall c hc trivial with ⟨_, hraises⟩ | ⟨_, hrun', hle, -⟩
  · exact hraises.not_does hrun
  · have htop := (hc.allocated scratchCall_regs hrun').2.scratchTop (ctxApart_eight (-8))
    rw [htop (by decide), scratchTop_eight] at hle
    exact absurd hle (by decide)

end DTrace.Cg
