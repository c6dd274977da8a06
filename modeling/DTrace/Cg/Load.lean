import DTrace.Cg.Alloca

/-!
# Loads and stores through pointers

The code that reads an integer through a pointer: kernel memory is copied to the stack first, a position in scratch memory
is checked and turned into an address, and storage of the tracer is read as it is.

* `Labelled` — the labels of a generator are those handed out while it ran; it composes;
* `dtCgLoadScalar_does` — a value of kernel memory;
* `dtCgPtrLoad_does` — a value through any pointer.
-/

namespace DTrace.Cg

open Lib Bpf Option

/-! ## Labels -/

/-- A generator places the labels handed out while it runs, each once. -/
def Labelled {α : Type} (x : Gen α) : Prop := ∀ g a c g', x g = some (a, c, g') → Labels c g.lbl g'.lbl

variable {g' : GState} {c P : CgCode} {S : Regset} {u : Unit} {C : Callee Func} {lbl : ℕ} {reg : Reg} {s : St Func}

section

variable {α β : Type} {x : Gen α} {f : α → Gen β}

lemma Labelled.bind (hx : Labelled x) (hf : ∀ a, Labelled (f a)) : Labelled (x >>= f) := by
  intro g b c g' h
  obtain ⟨a, _, _, _, hx1, hf1, rfl⟩ := Gen.bind_eq_some.1 h
  exact (hx _ _ _ _ hx1).append (hf a _ _ _ _ hf1)

lemma Labelled.pure (a : α) : Labelled (pure a : Gen α) := by
  intro g b c g' h
  cases h
  exact .plain [] g.lbl

lemma Labelled.ite {p : Prop} [Decidable p] {y : Gen α} (hx : Labelled x) (hy : Labelled y) :
    Labelled (if p then x else y) := by
  split
  · exact hx
  · exact hy

lemma Labelled.none : Labelled (dnerror : Gen α) := by
  intro g a c g' h
  cases h

lemma Labelled.emits (is : List CgInsn) : Labelled (emits is) := by
  intro g a c g' h
  obtain ⟨rfl, rfl⟩ : plain is = c ∧ g = _ := by simpa [Cg.emits] using h
  exact .plain is _

lemma Labelled.emit (i : CgInsn) : Labelled (emit i) := Labelled.emits [i]

lemma Labelled.regAlloc : Labelled regAlloc := by
  intro g r c g' h
  obtain ⟨r, -, h⟩ := map_eq_some_iff.1 h
  obtain ⟨rfl, rfl, rfl⟩ : _ ∧ _ ∧ _ := by simpa using h
  exact .plain _ _

lemma Labelled.regFree (r : Reg) : Labelled (regFree r) := by
  intro g a c g' h
  rw [regFree_eq] at h
  obtain ⟨rfl, rfl⟩ : _ ∧ _ := by simpa using h
  exact .plain _ _

lemma Labelled.regXallocUnchecked (r : Reg) : Labelled (regXallocUnchecked r) := by
  intro g a c g' h
  obtain ⟨_, S, -, hx⟩ := regXallocUnchecked_shape r g
  rw [hx] at h
  obtain ⟨rfl, rfl⟩ : _ ∧ _ := by simpa using h
  exact .plain _ _

lemma Labelled.checkNotnull (reg : Reg) : Labelled (dtCgCheckNotnull reg) := by
  rintro g a c _ h
  cases h
  exact notnullCode_labels reg g.lbl

lemma dtCgCheckNotnull_does
    (h : dtCgCheckNotnull reg ⟨S, lbl⟩ = some (u, c, g')) (hP : LabelsNodup P) (hlbl : lbl ≠ 0)
    (hreg : s.regs reg ≠ 0#64) : Does (exec C) P c s s ∧ g' = ⟨S, lbl + 1⟩ := by
  cases h
  exact ⟨does_notnull hP hlbl hreg, rfl⟩

end

/-! ## Kernel memory -/

/-- `dt_cg_load_scalar`: the type decides what is loaded and whether it is promoted. -/
def dtCgLoadScalar (ty : IntType) (reg : Reg) : Gen Unit := do
  let Lokay ← dtIrlistLabel
  regXallocArgs
  emits [.movReg 3 reg, .load .dw 1 fp dtStkSp, .movImm 2 (imm ty.size.bytes)]
  regXallocUnchecked 0
  emit (.callFunc .probeRead)
  regFreeArgs
  emit (.branchImm .jeq 0 (imm 0) Lokay)
  regFree 0
  emits (dtCgProbeErrorReg .badaddr reg)
  emitl Lokay .nop
  emits [.load .dw reg fp dtStkSp, .load ty.size reg reg 0]
  emits (dtCgPromote ty reg)

/-- What `BPF_FUNC_probe_read` does: if it succeeds, it has copied the bytes. -/
def ProbeReads (C : Callee Func) : Prop := ∀ (args : Args) (m : Mem), C.ret .probeRead args m = 0#64 →
  C.effect .probeRead args m = m.store (args 1).toNat (args 0) (m.load (args 1).toNat (args 2))

/-- `n` bytes of kernel memory at `a` may be read. -/
def Readable (C : Callee Func) (m : Mem) (n : ℕ) (a : Word) : Prop :=
  ∀ args : Args, (args 1).toNat = n → args 2 = a → C.ret .probeRead args m = 0#64

variable {ty : IntType}

section

/-- The code of a copy from kernel memory, in parts: what is saved, the call, what is read back, and the value. -/
def scalarCode (ty : IntType) (reg : Reg) (lbl : ℕ) (saves save reads : List CgInsn) (T : Regset) : CgCode :=
  plain (saves ++ [.movReg 3 reg, .load .dw 1 fp dtStkSp, .movImm 2 (imm ty.size.bytes)] ++ save) ++
    (⟨0, .callFunc .probeRead⟩ :: (plain reads ++ (⟨0, .branchImm .jeq 0 (imm 0) lbl⟩ ::
      (plain (freeCode T 0 ++ dtCgProbeErrorReg .badaddr reg) ++ (⟨lbl, .nop⟩ ::
        plain (.load .dw reg fp dtStkSp :: .load ty.size reg reg 0 :: dtCgPromote ty reg))))))

lemma dtCgLoadScalar_shape
    (h : dtCgLoadScalar ty reg ⟨S, lbl⟩ = some (u, c, g')) :
    ∃ saves save reads T, (∀ i ∈ saves, ∃ r, i = dtCgSpillStore r) ∧ (∀ i ∈ save, ∃ r, i = dtCgSpillStore r) ∧
      (∀ i ∈ reads, ∃ r ∈ argRegs, i = dtCgSpillLoad r) ∧ c = scalarCode ty reg lbl saves save reads T ∧
      g'.lbl = lbl + 1 := by
  simp only [dtCgLoadScalar, dtIrlistLabel_bind, regXallocArgs_bind, emits_bind] at h
  obtain ⟨-, _, ⟨_, h1, rfl⟩, rfl⟩ := h
  obtain ⟨save, T, _, hsave, h2, rfl⟩ := regXallocUnchecked_bind_shape h1
  simp only [emit_bind, regFreeArgs_bind, regFree_bind, emits_bind, emitl_bind, exists_exists_and_eq_and] at h2
  obtain ⟨_, h3, rfl⟩ := h2
  obtain ⟨rfl, rfl⟩ : _ ∧ _ := by simpa [emits] using h3
  refine ⟨argRegs.flatMap (claimCode S), save, argRegs.flatMap (freeCode T), T.releaseAll argRegs, fun i hi => ?_,
    fun i hi => ⟨_, hsave i hi⟩, fun i hi => ?_, ?_, rfl⟩
  · obtain ⟨r, -, hi⟩ := List.mem_flatMap.1 hi
    exact ⟨r, mem_claimCode hi⟩
  · obtain ⟨r, hr, hi⟩ := List.mem_flatMap.1 hi
    exact ⟨r, hr, mem_freeCode hi⟩
  · simp [scalarCode, plain]

lemma dtStkSpill_ne_sp (r : Reg) : dtStkSp ≠ dtStkSpill r := by
  unfold dtStkSpill dtStkSpillBase
  omega

lemma imm_bytes (sz : Size) : ((imm sz.bytes).signExtend 64).toNat = sz.bytes := by
  cases sz <;> decide

-- the immediate stays a variable: the kernel would compute with its value
lemma execBlock_scalarArgs (reg : Reg) (i : BitVec 32) (s : St Func) :
    execBlock (exec C) [.movReg 3 reg, .load .dw 1 fp dtStkSp, .movImm 2 i] s =
      some (((s.setReg 3 (s.regs reg)).setReg 1 (s.stk dtStkSp)).setReg 2 (i.signExtend 64)) := by
  simp [execBlock, exec, AluOp.eval]

lemma scalarCall_does {saves save reads : List CgInsn} (hC : ProbeReads C)
    (hsaves : ∀ i ∈ saves, ∃ r, i = dtCgSpillStore r) (hsave : ∀ i ∈ save, ∃ r, i = dtCgSpillStore r)
    (hreads : ∀ i ∈ reads, ∃ r ∈ argRegs, i = dtCgSpillLoad r) (hread : Readable C s.mem ty.size.bytes (s.regs reg)) :
    ∃ s', Does (exec C) P (plain (saves ++ [.movReg 3 reg, .load .dw 1 fp dtStkSp, .movImm 2 (imm ty.size.bytes)] ++ save) ++
        (⟨0, .callFunc .probeRead⟩ :: plain reads)) s s' ∧ s'.regs 0 = 0#64 ∧
      s'.stk dtStkSp = s.stk dtStkSp ∧ s'.stk dtStkDctx = s.stk dtStkDctx ∧
      s'.mem = s.mem.store ty.size.bytes (s.stk dtStkSp) (s.mem.load ty.size.bytes (s.regs reg)) := by
  obtain ⟨s1, hrun1, hregs1, hmem1, -, hstk1⟩ := execBlock_spills (C := C) hsaves s
  have hrun2 := execBlock_scalarArgs (C := C) reg (imm ty.size.bytes) s1
  set s2 := ((s1.setReg 3 (s1.regs reg)).setReg 1 (s1.stk dtStkSp)).setReg 2 ((imm ty.size.bytes).signExtend 64)
  obtain ⟨s3, hrun3, hregs3, hmem3, -, hstk3⟩ := execBlock_spills hsave s2
  have hargs : s3.args 0 = s.stk dtStkSp ∧ (s3.args 1).toNat = ty.size.bytes ∧ s3.args 2 = s.regs reg := by
    refine ⟨?_, ?_, ?_⟩
    · exact (congrFun hregs3 1).trans (hstk1 _ dtStkSpill_ne_sp)
    · exact (congrArg BitVec.toNat (congrFun hregs3 2)).trans (imm_bytes ty.size)
    · exact (congrFun hregs3 3).trans (congrFun hregs1 reg)
  have hm3 : s3.mem = s.mem := hmem3.trans hmem1
  have hret : C.ret .probeRead s3.args s3.mem = 0#64 := by
    rw [hm3]
    exact hread _ hargs.2.1 hargs.2.2
  obtain ⟨s5, hrun5, honly5⟩ := execBlock_reloads hreads
    ⟨callRegs C .probeRead s3, s3.stk, C.effect .probeRead s3.args s3.mem, s3.calls ++ [(.probeRead, s3.args)]⟩
  have hstk : ∀ o, (∀ r, o ≠ dtStkSpill r) → s5.stk o = s.stk o := fun o ho => by
    rw [honly5.stk]
    exact (hstk3 o ho).trans (hstk1 o ho)
  refine ⟨s5, (Does.block ?_).append (.cons rfl (.block hrun5)), ?_, hstk _ dtStkSpill_ne_sp,
    hstk _ dtStkSpill_ne_dctx, ?_⟩
  · rw [execBlock_append, execBlock_append, hrun1, bind_some, hrun2, bind_some, hrun3]
  · rw [honly5.regs 0 zero_notMem_argRegs]
    exact (callRegs_zero C _ s3).trans hret
  · rw [honly5.mem, hC _ _ hret, hargs.1, hargs.2.1, hargs.2.2, hm3]

theorem dtCgLoadScalar_does (hC : ProbeReads C) (h : dtCgLoadScalar ty reg ⟨S, lbl⟩ = some (u, c, g'))
    (hlbl : lbl ≠ 0) (hP : LabelsNodup P) (hreg : reg ≠ fp) (hread : Readable C s.mem ty.size.bytes (s.regs reg)) :
    ∃ s', Does (exec C) P c s s' ∧ s'.regs reg = ty.extend (s.mem.load ty.size.bytes (s.regs reg)) ∧
      s'.stk dtStkDctx = s.stk dtStkDctx := by
  obtain ⟨_, _, _, T, hsaves, hsave, hreads, rfl, -⟩ := dtCgLoadScalar_shape h
  obtain ⟨s1, hrun1, hzero, hsp, hctx, hmem⟩ := scalarCall_does hC hsaves hsave hreads hread
  obtain ⟨s2, hrun2, honly2, hval⟩ := execBlock_load ty hreg 0 (s1.setReg reg (s1.stk dtStkSp))
  refine ⟨s2, ?_, ?_, ?_⟩
  · have hload : Does (exec C) P (⟨lbl, .nop⟩ ::
        plain (.load .dw reg fp dtStkSp :: .load ty.size reg reg 0 :: dtCgPromote ty reg)) s1 s2 := by
      refine .cons rfl (.block ?_)
      rw [execBlock, exec, loadVal_dw_fp]
      exact hrun2
    have hskip : Does (exec C) P (⟨0, .branchImm .jeq 0 (imm 0) lbl⟩ ::
        (plain (freeCode T 0 ++ dtCgProbeErrorReg .badaddr reg) ++ (⟨lbl, .nop⟩ ::
          plain (.load .dw reg fp dtStkSp :: .load ty.size reg reg 0 :: dtCgPromote ty reg)))) s1 s2 :=
      .skip hP hlbl (exec_branchImm_taken (by simp [JmpOp.eval, hzero])) hload
    simpa [scalarCode] using hrun1.append hskip
  · rw [hval, setReg_mem, hmem, St.addr, setReg_regs_self, hsp, show .ofInt 64 0 = 0#64 from rfl, BitVec.add_zero,
      Mem.load_store_same (by cases ty.size <;> decide), Nat.mod_eq_of_lt (Mem.load_lt _ _ _)]
  · rw [honly2.stk, setReg_stk, hctx]

lemma Labelled.loadScalar (ty : IntType) (reg : Reg) : Labelled (dtCgLoadScalar ty reg) := by
  rintro ⟨S, _⟩ a c _ h
  obtain ⟨_, _, _, T, -, -, -, rfl, hg'⟩ := dtCgLoadScalar_shape h
  refine ⟨by rw [hg']; exact Nat.le_succ _, fun l hl => ?_⟩
  simp only [scalarCode, labelCount_cons, labelCount_append, labelCount_plain hl, hg']
  split_ifs at * <;> omega

end

/-! ## Scratch memory -/

def dtCgAllocaPtr (dreg sreg : Reg) : Gen Unit :=
  if dreg = sreg then do
    let reg ← regAlloc
    emits (dtCgAccessDctx reg .scratchmem)
    emit (.aluReg .add sreg reg)
    regFree reg
  else do
    emits (dtCgAccessDctx dreg .scratchmem)
    emit (.aluReg .add dreg sreg)

/-- What a pointer points to: kernel memory, scratch memory (`DT_NF_ALLOCA`) or storage of the tracer (`DT_NF_DPTR`). -/
inductive PtrKind
  | kernel
  | alloca
  | dptr
  deriving DecidableEq, Repr

/-- The load through a pointer in `dt_cg_node`, for `*p` and for members; the type decides whether a value of kernel
memory is promoted. -/
def dtCgPtrLoad (scratchsize : BitVec 32) (k : PtrKind) (ty : IntType) (reg : Reg) : Gen Unit :=
  match k with
  | .kernel => dtCgLoadScalar ty reg
  | .dptr => emit (.load ty.size reg reg 0)
  | .alloca => do
    dtCgAllocaAccessCheck scratchsize reg (.imm ty.size.bytes)
    dtCgAllocaPtr reg reg
    emit (.load ty.size reg reg 0)

section

variable {scratchsize : BitVec 32}

lemma Labelled.accessCheck (scratchsize : BitVec 32) (reg : Reg) (size : SizeArg) :
    Labelled (dtCgAllocaAccessCheck scratchsize reg size) := by
  intro g a c g' h
  exact dtCgAllocaAccessCheck_labels h

lemma Labelled.allocaPtr (dreg sreg : Reg) : Labelled (dtCgAllocaPtr dreg sreg) :=
  .ite
    (Labelled.regAlloc.bind fun _ => (Labelled.emits _).bind fun _ => (Labelled.emit _).bind fun _ => .regFree _)
    ((Labelled.emits _).bind fun _ => .emit _)

lemma dtCgAllocaAccessCheck_pick {size : SizeArg} {g : GState}
    (h : dtCgAllocaAccessCheck scratchsize reg size g = some (u, c, g')) : g'.regs.pick = g.regs.pick := by
  simp only [dtCgAllocaAccessCheck, dtIrlistLabel_bind] at h
  obtain ⟨u, _, g1, _, hx, h1, -⟩ := Gen.bind_eq_some.1 h
  simp only [emits_bind, emit_bind, emitl_bind, regFree_eq, Option.some.injEq, Prod.mk.injEq, true_and,
    exists_exists_and_eq_and] at h1
  obtain ⟨_, ⟨-, rfl⟩, -⟩ := h1
  have hpick := regXallocUnchecked_zero_pick hx
  exact (pick_release_zero g1.regs).trans hpick

lemma dtCgAllocaPtr_does (h : dtCgAllocaPtr reg reg ⟨S, lbl⟩ = some (u, c, g')) (hpick : S.pick ≠ some reg) :
    ∃ s', Does (exec C) P c s s' ∧ s'.regs reg = s.regs reg + dctxField (s.stk dtStkDctx) s.mem .scratchmem ∧
      s'.mem = s.mem ∧ s'.stk dtStkDctx = s.stk dtStkDctx := by
  simp only [dtCgAllocaPtr, if_pos, regAlloc_bind, emits_bind, emit_bind, regFree_eq, Option.some.injEq, Prod.mk.injEq,
    true_and, exists_exists_and_eq_and] at h
  obtain ⟨q, hq, _, ⟨rfl, -⟩, rfl⟩ := h
  have hne : q ≠ reg := by
    rintro rfl
    exact hpick hq
  obtain ⟨s1, hrun1, honly1, hval⟩ := execBlock_accessDctx q (pick_picks hq).ne_fp .scratchmem (afterClaim S q s)
  obtain ⟨s2, hrun2, honly2⟩ := execBlock_free_only (S.claim q) q (s1.setReg reg (s1.regs reg + s1.regs q))
  refine ⟨s2, (Does.block (execBlock_claim S q s)).append ((Does.block hrun1).append (.cons rfl (.block hrun2))),
    ?_, ?_, ?_⟩
  · rw [honly2.regs reg (by simpa using Ne.symm hne), setReg_regs_self, honly1.regs reg (by simpa using Ne.symm hne), hval,
      afterClaim_regs, afterClaim_dctx, afterClaim_mem]
  · rw [honly2.mem, setReg_mem, honly1.mem, afterClaim_mem]
  · rw [honly2.stk, setReg_stk, honly1.stk, afterClaim_dctx]

lemma Labelled.ptrLoad (scratchsize : BitVec 32) (k : PtrKind) (ty : IntType) (reg : Reg) :
    Labelled (dtCgPtrLoad scratchsize k ty reg) := by
  cases k with
  | kernel => exact .loadScalar ty reg
  | dptr => exact .emit _
  | alloca => exact (Labelled.accessCheck _ _ _).bind fun _ => (Labelled.allocaPtr _ _).bind fun _ => .emit _

def PtrKind.addr (k : PtrKind) (s : St Func) (p : Word) : Word :=
  if k = .alloca then p + dctxField (s.stk dtStkDctx) s.mem .scratchmem else p

/-- The access is not a fault, and there is a register to do it with. -/
def PtrKind.Ok (C : Callee Func) (scratchsize : BitVec 32) (S : Regset) (s : St Func) (reg : Reg) (n : ℕ) : PtrKind → Prop
  | .kernel => Readable C s.mem n (s.regs reg)
  | .alloca => LetsThrough scratchsize s reg (.imm n) ∧ S.pick ≠ some reg
  | .dptr => True

/-- The type a loaded value is extended by: only values of kernel memory are promoted. -/
def PtrKind.loaded (k : PtrKind) (ty : IntType) : IntType := if k = .kernel then ty else ⟨ty.size, false⟩

lemma exec_load_does (sz : Size) (hreg : reg ≠ fp) (s : St Func) : ∃ s', Does (exec C) P [⟨0, .load sz reg reg 0⟩] s s' ∧
    s'.regs reg = (⟨sz, false⟩ : IntType).extend (s.mem.load sz.bytes (s.regs reg)) ∧ s'.stk = s.stk := by
  obtain ⟨s', hrun, honly, hval⟩ := execBlock_load ⟨sz, false⟩ hreg 0 s
  refine ⟨s', by simpa [plain, dtCgPromote] using .block hrun, ?_, honly.stk⟩
  rw [hval, St.addr, show .ofInt 64 0 = 0#64 from rfl, BitVec.add_zero]

theorem dtCgPtrLoad_does {k : PtrKind} (hC : ProbeReads C) (h : dtCgPtrLoad scratchsize k ty reg ⟨S, lbl⟩ = some (u, c, g'))
    (hlbl : lbl ≠ 0) (hP : LabelsNodup P) (hreg : reg ≠ fp) (h0 : reg ≠ 0) (hok : k.Ok C scratchsize S s reg ty.size.bytes) :
    ∃ s', Does (exec C) P c s s' ∧
      s'.regs reg = (k.loaded ty).extend (s.mem.load ty.size.bytes (k.addr s (s.regs reg))) ∧
      s'.stk dtStkDctx = s.stk dtStkDctx := by
  cases k with
  | kernel => exact dtCgLoadScalar_does hC h hlbl hP hreg hok
  | dptr =>
    obtain ⟨rfl, -⟩ : _ ∧ _ := by simpa [dtCgPtrLoad, emit] using h
    obtain ⟨s', hrun, hval, hstk⟩ := exec_load_does ty.size hreg s
    exact ⟨s', hrun, hval, congrFun hstk _⟩
  | alloca =>
    obtain ⟨hlets, hpick⟩ := hok
    obtain ⟨_, _, ⟨S1, _⟩, _, hcheck, h1, rfl⟩ := Gen.bind_eq_some.1 h
    obtain ⟨_, _, _, _, hptr, h2, rfl⟩ := Gen.bind_eq_some.1 h1
    obtain ⟨rfl, -⟩ : _ ∧ _ := by simpa [emit] using h2
    obtain ⟨_, hrun1, hs1⟩ := (dtCgAllocaAccessCheck_does hcheck hlbl h0 (by simp) hP).1 hlets
    have hpick1 : S1.pick ≠ some reg := by
      have hkeep := dtCgAllocaAccessCheck_pick hcheck
      rw [show S1.pick = S.pick from hkeep]
      exact hpick
    obtain ⟨s2, hrun2, hval2, hmem2, hctx2⟩ := dtCgAllocaPtr_does hptr hpick1
    obtain ⟨s3, hrun3, hval3, hstk3⟩ := exec_load_does ty.size hreg s2
    refine ⟨s3, hrun1.append (hrun2.append hrun3), ?_, ?_⟩
    · rw [hval3, hval2, hmem2, hs1.regs reg h0, hs1.mem, hs1.dctx]
      rfl
    · rw [hstk3, hctx2, hs1.dctx]

end

end DTrace.Cg
