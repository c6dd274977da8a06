import DTrace.Cg.Expr

/-!
# The code of constants and variables

What `dt_cg_node` emits for the leaves of an expression: it is right whatever is live.

* `dtCgInt_rightAt` — constants;
* `callCode_holds` — a call of a library function: its result is in `%r0`, everything live is kept;
* `dtCgLoadVar_disciplined`, `dtCgLoadVar_rightAt` — variables.
-/

namespace DTrace.Cg

open Lib Bpf Option BitVec

section

variable {C : Callee Func} {S : Regset} {P : CgCode}

/-! ## Constants -/

lemma dtCgInt_leaf (value : Word) : Leaf (dtCgInt value) fun reg =>
    [if int32Max < value then dtCgSetx reg value else .movImm reg (value.setWidth 32)] := by
  intro g r c g' h
  unfold dtCgInt at h
  split at h
  all_goals
    next hv =>
    simp only [regAlloc_bind, emit_bind, Gen.pure_eq_some, exists_exists_and_eq_and] at h
    obtain ⟨_, hpick, _, ⟨rfl, rfl, rfl⟩, rfl⟩ := h
    exact ⟨hpick, by simp [plain, hv], rfl⟩

lemma signExtend_of_le_int32Max {value : Word} (h : ¬ int32Max < value) : (value.setWidth 32).signExtend 64 = value := by
  have hv : value.toNat < 2 ^ 31 := by
    have := BitVec.not_lt.1 h
    rw [le_def] at this
    simp only [int32Max, show (0x7fffffff : Word).toNat = 2147483647 from rfl] at this
    omega
  have hset : value.setWidth 32 = .ofNat 32 value.toNat := by
    apply eq_of_toNat_eq
    simp
  rw [hset, signExtend_ofNat hv]
  simp

theorem dtCgInt_rightAt (value : Word) (d : Word) (m : Mem) : RightAt C (dtCgInt value) S d m value m := by
  refine Leaf.rightAt (dtCgInt_leaf value) fun r _ s _ _ => ?_
  refine ⟨s.setReg r value, ?_, (St.Only.refl _ s).setReg, setReg_regs_self _ _ _⟩
  split
  · rfl
  · next h =>
    simp only [execBlock, exec, AluOp.eval]
    rw [signExtend_of_le_int32Max h]

/-! ## Variables in memory -/

lemma execBlock_load (ty : IntType) {r q : Reg} (hq : q ≠ fp) (o : ℤ) (s : St Func) :
    ∃ s', execBlock (exec C) (.load ty.size r q o :: dtCgPromote ty r) s = some s' ∧ St.Only [r] s s' ∧
      s'.regs r = ty.extend (s.mem.load ty.size.bytes (s.addr q o)) := by
  have hload : s.loadVal ty.size q o = .ofNat 64 (s.mem.load ty.size.bytes (s.addr q o)) := by
    simp [St.loadVal, hq]
  have hlt := s.mem.load_lt ty.size.bytes (s.addr q o)
  generalize s.mem.load ty.size.bytes (s.addr q o) = x at hload hlt
  let t := s.setReg r (.ofNat 64 x)
  have ht : St.Only [r] s t := (St.Only.refl _ s).setReg
  obtain ⟨sz, signed⟩ := ty
  cases signed with
  | false =>
    refine ⟨t, ?_, ht, ?_⟩
    · simp [execBlock, exec, dtCgPromote, hload, t]
    · simp [t, IntType.extend]
  | true =>
    have hfirst : ∀ is s', execBlock (exec C) is t = some s' →
        execBlock (exec C) (.load sz r q o :: is) s = some s' := fun is s' h => by
      rw [execBlock, exec, hload]
      exact h
    have hpromote : ∀ w, (w = 8 ∨ w = 16 ∨ w = 32) → x < 2 ^ w → ∃ s', execBlock (exec C)
        (.load sz r q o :: [.aluImm .lsh r (imm (64 - w)), .aluImm .arsh r (imm (64 - w))]) s = some s' ∧
        St.Only [r] s s' ∧ s'.regs r = (BitVec.ofNat w x).signExtend 64 := by
      intro w hw hx
      refine ⟨(t.setReg r (BitVec.ofNat 64 x <<< (64 - w))).setReg r
        ((BitVec.ofNat 64 x <<< (64 - w)).sshiftRight (64 - w)), hfirst _ _ ?_, ht.setReg.setReg, ?_⟩
      · have himm : ((imm (64 - w)).signExtend 64).toNat % 64 = 64 - w := by
          rw [imm_signExtend (by omega)]
          simp
          omega
        simp [execBlock, exec, AluOp.eval, himm, t]
      · rw [setReg_regs_self]
        exact signExtend_shifts hw hx
    cases sz with
    | b => exact hpromote 8 (by omega) hlt
    | h => exact hpromote 16 (by omega) hlt
    | w => exact hpromote 32 (by omega) hlt
    | dw =>
      refine ⟨t, hfirst _ _ rfl, ht, ?_⟩
      simp [t, IntType.extend, Size.bytes, signExtend_eq]

/-- The code that loads a variable from the memory of the context. -/
def varCode (ty : IntType) (f : DctxMember) (offset : ℤ) (reg : Reg) : List CgInsn :=
  dtCgAccessDctx reg f ++ (.load ty.size reg reg offset :: dtCgPromote ty reg)

lemma dtCgLoadVar_leaf (pcb : Pcb) (ty : IntType) (lcl : Bool) (offset : ℤ) :
    Leaf (dtCgLoadVar pcb (if lcl then .lcl ty offset else .global ty offset))
      (varCode ty (if lcl then .lvars else .gvars) (insnOff offset)) := by
  intro g r c g' h
  cases lcl
  all_goals
    simp only [Bool.false_eq_true, if_false, if_true, dtCgLoadVar, regAlloc_bind, emits_bind, emit_bind,
      Gen.pure_eq_some, exists_exists_and_eq_and] at h
    obtain ⟨_, hpick, _, ⟨rfl, rfl, rfl⟩, rfl⟩ := h
    exact ⟨hpick, by simp [varCode, plain], rfl⟩

variable {r : Reg} {varid : BitVec 32} {lbl : ℕ} {g' : GState} {c : CgCode} {pcb : Pcb} {d v : Word} {m m' : Mem}

lemma execBlock_varCode (ty : IntType) (f : DctxMember) (offset : ℤ) (hr : r ≠ fp) (s : St Func) :
    ∃ s', execBlock (exec C) (varCode ty f offset r) s = some s' ∧ St.Only [r] s s' ∧ s'.regs r =
      ty.extend (s.mem.load ty.size.bytes (dctxField (s.stk dtStkDctx) s.mem f + BitVec.ofInt 64 offset)) := by
  obtain ⟨u, hu, honly, hp⟩ := execBlock_accessDctx r hr f s
  obtain ⟨s', hs', honly', hv⟩ := execBlock_load ty hr offset u
  refine ⟨s', ?_, honly.trans honly', ?_⟩
  · rw [varCode, execBlock_append, hu]
    exact hs'
  · rw [hv, honly.mem, St.addr, hp]

/-! ## Calls -/

/-- The code around a call: the argument registers and `%r0` are claimed, the arguments are set up, and the argument
registers are freed. -/
def callCode (S : Regset) (setup : List CgInsn) (f : Func) : CgCode :=
  plain (argRegs.flatMap (claimCode S) ++ (setup ++ claimCode (S.claimAll argRegs) 0)) ++
    (⟨0, .callFunc f⟩ :: plain (argRegs.flatMap (releaseCode S)))

lemma five_lt_of_notMem : ∀ q : Reg, q ∉ argRegs → q ≠ 0 → 5 < q.val := by decide

lemma zero_notMem_argRegs : (0 : Reg) ∉ argRegs := by decide

theorem callCode_holds (hC : Respects C) (hargs : ∀ r ∈ argRegs, S.spilled r = false) (h0 : S.spilled 0 = false)
    (setup : List CgInsn) (f : Func) (args : Args) (s : St Func)
    (hsetup : ∀ t : St Func, t.stk dtStkDctx = s.stk dtStkDctx → t.mem = s.mem → ∃ t', execBlock (exec C) setup t = some t' ∧
      St.Only argRegs t t' ∧ ∀ i, i.val < f.arity → t'.args i = args i) :
    ∃ s', Does (exec C) P (callCode S setup f) s s' ∧
      Holds S 0 (C.ret f args s.mem) (C.effect f args s.mem) s s' := by
  obtain ⟨s1, hrun1, hs1⟩ := execBlock_claimAll S argRegs s
  have hdctx1 := hs1.kept _ fun q _ _ => dtStkSpill_ne_dctx q
  obtain ⟨s2, hrun2, honly, hargs2⟩ := hsetup s1 hdctx1 hs1.mem
  have hact0 : (S.claimAll argRegs).active 0 = S.active 0 := by
    rw [claimAll_active]
    simp [zero_notMem_argRegs]
  let s3 := afterClaim (S.claimAll argRegs) 0 s2
  have hregs3 : s3.regs = s2.regs := afterClaim_regs _ _ s2
  have hmem3 : s3.mem = s.mem := (afterClaim_mem _ _ s2).trans (honly.mem.trans hs1.mem)
  have hstk3 : ∀ o, o ≠ dtStkSpill 0 → s3.stk o = s1.stk o := fun o ho => by
    rw [← honly.stk]
    simp only [s3, afterClaim]
    split
    · exact setStk_stk_ne s2 _ ho
    · rfl
  have hslot : ∀ q : Reg, q ≠ 0 → s3.stk (dtStkSpill q) = s1.stk (dtStkSpill q) := fun q hq =>
    hstk3 _ fun h => hq (dtStkSpill_inj.1 h)
  have hargs3 : ∀ i, i.val < f.arity → s3.args i = args i := fun i hi => by
    rw [← hargs2 i hi]
    simp [St.args, hregs3]
  let s4 : St Func := ⟨callRegs C f s3, s3.stk, C.effect f s3.args s3.mem, s3.calls ++ [(f, s3.args)]⟩
  obtain ⟨s5, hrun5, hs5⟩ := execBlock_releaseAll S argRegs s4
  refine ⟨s5, (Does.block ?_).append (.cons rfl (.block hrun5)), ?_, fun q hq hq0 => ?_, fun ha => ?_,
    fun q hq => ?_, ?_, ?_⟩
  · rw [execBlock_append, hrun1, bind_some, execBlock_append, hrun2, bind_some, execBlock_claim]
  · rw [hs5.kept 0 fun h => absurd h zero_notMem_argRegs]
    change callRegs C f s3 0 = _
    rw [callRegs_zero, hmem3, hC.ret f _ args _ hargs3]
  · by_cases hmem : q ∈ argRegs
    · rw [hs5.restored q hmem hq]
      rw [hslot q hq0, hs1.saved q hmem hq]
    · rw [hs5.kept q fun h => absurd h hmem]
      change callRegs C f s3 q = _
      rw [callRegs_of_gt C f s3 (five_lt_of_notMem q hmem hq0), hregs3, honly.regs q hmem, hs1.regs]
  · rw [hs5.stk]
    change s3.stk _ = _
    simp only [s3, afterClaim, hact0, show S.active 0 = true from ha, if_true, setStk_stk_self]
    rw [honly.regs 0 zero_notMem_argRegs, hs1.regs]
  · have hq0 : q ≠ 0 := by
      rintro rfl
      rw [h0] at hq
      cases hq
    rw [hs5.stk]
    rw [hslot q hq0, hs1.kept]
    intro r hr _ h
    rw [dtStkSpill_inj.1 h, hargs r hr] at hq
    cases hq
  · rw [hs5.stk]
    rw [hstk3 _ (dtStkSpill_ne_dctx 0), hdctx1]
  · rw [hs5.mem]
    change C.effect f s3.args s3.mem = _
    rw [hmem3, hC.effect f _ args _ hargs3]

/-! ## Thread-local variables -/

/-- The arguments of `dt_get_tvar`. -/
def tvarSetup (pcb : Pcb) (varid : BitVec 32) : List CgInsn :=
  [.movImm 1 varid, .movImm 2 (imm 0), .movImm 3 (imm 0)] ++ dtCgZerosptr pcb 4

/-- The code that reads the variable through the pointer in `%r0`, or takes `0` if there is none. -/
def tvarTail (ty : IntType) (reg : Reg) (lbl : ℕ) : CgCode :=
  ⟨0, .branchImm .jne 0 (imm 0) lbl⟩ :: ([⟨0, .movImm reg (imm 0)⟩, ⟨0, .jump (lbl + 1)⟩] ++
    ⟨lbl, .load ty.size reg 0 0⟩ :: (plain (dtCgPromote ty reg) ++ [⟨lbl + 1, .nop⟩]))

lemma dtCgPrepDvar_shape {u : Unit}
    (h0 : S.spilled 0 = false) (h : dtCgPrepDvar pcb varid ⟨S, lbl⟩ = some (u, c, g')) :
    (∀ r ∈ argRegs, S.spilled r = false) ∧ c = callCode S (tvarSetup pcb varid) .dtGetTvar ∧ g' = ⟨S.claim 0, lbl⟩ := by
  have h0' : (S.claimAll argRegs).spilled 0 = false := by
    simp [claimAll_spilled, argRegs, h0]
  simp only [dtCgPrepDvar, regXallocArgs_bind, emits_bind, regXallocUnchecked_bind h0', emit_bind, regFreeArgs_eq,
    Option.some.injEq, Prod.mk.injEq, true_and, exists_exists_and_eq_and] at h
  obtain ⟨hargs, _, ⟨rfl, rfl⟩, rfl⟩ := h
  refine ⟨hargs, ?_, ?_⟩
  · simp [callCode, tvarSetup, plain, freeArgsCode_claim hargs]
  · rw [releaseArgs_claim hargs]

lemma dtCgLoadVar_tls_shape {ty : IntType}
    (h0 : S.spilled 0 = false) (h : dtCgLoadVar pcb (.tls ty varid) ⟨S, lbl⟩ = some (r, c, g')) :
    S.pick = some r ∧ (∀ q ∈ argRegs, S.spilled q = false) ∧ g' = ⟨S.claim r, lbl + 2⟩ ∧
      c = callCode S (tvarSetup pcb varid) .dtGetTvar ++ (plain (claimCode (S.claim 0) r) ++ (tvarTail ty r lbl ++
        plain (freeCode ((S.claim 0).claim r) 0))) := by
  obtain ⟨_, _, _, _, hprep, h1, rfl⟩ := Gen.bind_eq_some.1 h
  obtain ⟨hargs, rfl, rfl⟩ := dtCgPrepDvar_shape h0 hprep
  simp only [regAlloc_bind, dtIrlistLabel_bind, emit_bind, emitl_bind, emits_bind, regFree_bind, Gen.pure_eq_some,
    exists_exists_and_eq_and] at h1
  obtain ⟨q, hpick, _, ⟨rfl, rfl, rfl⟩, rfl⟩ := h1
  have hpick' : S.pick = some q := by rw [← pick_claim_zero, hpick]
  have hq0 : q ≠ 0 := (pick_picks hpick').ne_zero
  refine ⟨hpick', hargs, ?_, ?_⟩
  · have h0' : (S.claim q).spilled 0 = false := by rw [claim_spilled_ne S (Ne.symm hq0), h0]
    rw [claim_comm S (Ne.symm hq0), release_claim h0']
  · simp [tvarTail]

lemma execBlock_tvarSetup (pcb : Pcb) (varid : BitVec 32) (t : St Func) :
    ∃ t', execBlock (exec C) (tvarSetup pcb varid) t = some t' ∧ St.Only argRegs t t' ∧
      ∀ i, i.val < Func.arity .dtGetTvar → t'.args i = tvarArgs pcb (t.stk dtStkDctx) t.mem varid i := by
  let u := ((t.setReg 1 (varid.signExtend 64)).setReg 2 0#64).setReg 3 0#64
  have hu : execBlock (exec C) [.movImm 1 varid, .movImm 2 (imm 0), .movImm 3 (imm 0)] t = some u := by
    simp [execBlock, exec, AluOp.eval, u]
  have huonly : St.Only argRegs t u :=
    (((St.Only.refl _ t).setReg (by decide)).setReg (by decide)).setReg (by decide)
  obtain ⟨w, hw, honly, hp⟩ := execBlock_accessDctx 4 (by decide) .strtab u
  have hwu : ∀ q : Reg, q ≠ 4 → w.regs q = u.regs q := fun q hq => honly.regs q (by simpa using hq)
  refine ⟨w.setReg 4 (w.regs 4 + pcb.zeroOff.signExtend 64), ?_,
    (huonly.trans (honly.mono (by simp [argRegs]))).setReg (by decide), fun i hi => ?_⟩
  · rw [tvarSetup, execBlock_append, hu, bind_some, dtCgZerosptr, execBlock_append, hw]
    rfl
  · have hcases : ∀ k : Fin 5, k.val < 4 → k = 0 ∨ k = 1 ∨ k = 2 ∨ k = 3 := by decide
    rcases hcases i hi with rfl | rfl | rfl | rfl
    · exact hwu 1 (by decide)
    · exact hwu 2 (by decide)
    · exact hwu 3 (by decide)
    · change (w.setReg 4 _).regs 4 = _
      rw [setReg_regs_self, hp]
      rfl

lemma tvarTail_does (hP : LabelsNodup P) (ty : IntType) (r : Reg) (hlbl : lbl ≠ 0) (u : St Func) :
    ∃ u', Does (exec C) P (tvarTail ty r lbl) u u' ∧ St.Only [r] u u' ∧
      u'.regs r = if u.regs 0 = 0#64 then 0#64 else ty.extend (u.mem.load ty.size.bytes (u.regs 0)) := by
  by_cases hp : u.regs 0 = 0#64
  · refine ⟨u.setReg r 0#64, ?_, (St.Only.refl _ u).setReg, by simp [hp]⟩
    exact .cons (by simp [exec, JmpOp.eval, hp]) (does_zero_jump (_ :: plain (dtCgPromote ty r)) hP (by omega))
  · obtain ⟨u', hrun, honly, hv⟩ := execBlock_load ty (r := r) (q := 0) (by decide) 0 u
    have hload : Does (exec C) P (⟨lbl, .load ty.size r 0 0⟩ :: plain (dtCgPromote ty r)) u u' := by
      exact .cons rfl (.block hrun)
    refine ⟨u', ?_, honly, ?_⟩
    · have hne : (u.regs 0 != 0#64) = true := by simpa using hp
      exact .skip hP hlbl (by simp [exec, JmpOp.eval, hne]) (hload.append (.cons rfl (.nil _)))
    · rw [hv, if_neg hp, St.addr]
      simp

lemma dtCgLoadVar_tls_rightAt (hC : Respects C) (pcb : Pcb) (h0 : S.spilled 0 = false) {ty : IntType}
    (hv : (Var.tls ty varid).eval C pcb d m = some (v, m')) :
    RightAt C (dtCgLoadVar pcb (.tls ty varid)) S d m v m' := by
  intro lbl hlbl r c g' hgen P hP s hd hm
  obtain ⟨hpick, hargs, -, rfl⟩ := dtCgLoadVar_tls_shape h0 hgen
  have hr := pick_picks hpick
  obtain ⟨s1, hrun1, hs1⟩ := callCode_holds hC hargs h0 (tvarSetup pcb varid) .dtGetTvar
    (tvarArgs pcb d m varid) s fun t ht htm => by
      have h := execBlock_tvarSetup (C := C) pcb varid t
      rwa [ht, htm, hd, hm] at h
  obtain ⟨_, hrun2, honly, hval⟩ := tvarTail_does hP ty r hlbl (afterClaim (S.claim 0) r s1)
  have hT : (S.claim 0).spilled r = false := by rw [claim_spilled_ne S hr.ne_zero, hr.unspilled]
  have hs2 := Holds.ofClaim hT honly
  obtain ⟨s3, hrun3, hs3⟩ := (hs1.both h0 hs2).freeLeft h0 (Ne.symm hr.ne_zero)
  refine ⟨s3, hrun1.append ((Does.block (execBlock_claim _ _ _)).append (hrun2.append (.block hrun3))), ?_⟩
  rw [afterClaim_regs, afterClaim_mem, hs1.value, hs1.mem, hm] at hval
  rw [hs1.mem, hm, hval] at hs3
  simp only [Var.eval, Option.some.injEq, Prod.mk.injEq] at hv
  rw [← hv.1, ← hv.2]
  exact hs3

/-! ## Built-in variables -/

/-- The arguments of the function behind a built-in variable. -/
def bvarSetup (idx : Option (BitVec 32)) : List CgInsn := accessDctx 1 :: idx.toList.map (.movImm 2)

/-- The code of `dt_cg_check_fault`, with its register. -/
def faultCode (T : Regset) (pcb : Pcb) (reg : Reg) : CgCode :=
  plain (claimCode T reg ++ (dtCgAccessDctx reg .mst ++ [.load .dw reg reg dmstFault])) ++
    (⟨0, .branchImm .jne reg (imm 0) pcb.exitlbl⟩ :: plain (freeCode (T.claim reg) reg))

lemma dtCgLoadVar_builtin_shape {fn : ℕ} {idx : Option (BitVec 32)}
    (h0 : S.spilled 0 = false) (h : dtCgLoadVar pcb (.builtin fn idx) ⟨S, lbl⟩ = some (r, c, g')) :
    S.pick = some r ∧ (∀ q ∈ argRegs, S.spilled q = false) ∧ g' = ⟨S.claim r, lbl⟩ ∧
      c = callCode S (bvarSetup idx) (bvarFunc fn idx) ++ (faultCode (S.claim 0) pcb r ++
        (plain (claimCode (S.claim 0) r ++ [.movReg r 0]) ++ plain (freeCode ((S.claim 0).claim r) 0))) := by
  have h0' : (S.claimAll argRegs).spilled 0 = false := by
    simp [claimAll_spilled, argRegs, h0]
  unfold dtCgLoadVar at h
  simp only [regXallocArgs_bind, emits_bind, regXallocUnchecked_bind h0', emit_bind, regFreeArgs_bind,
    exists_exists_and_eq_and] at h
  obtain ⟨hargs, _, h1, rfl⟩ := h
  rw [releaseArgs_claim hargs] at h1
  obtain ⟨_, _, _, _, hfault, h2, rfl⟩ := Gen.bind_eq_some.1 h1
  simp only [dtCgCheckFault, regAlloc_bind, emits_bind, emit_bind, regFree_eq, Option.some.injEq, Prod.mk.injEq, true_and,
    exists_exists_and_eq_and] at hfault
  obtain ⟨q, hpickq, _, ⟨rfl, rfl⟩, rfl⟩ := hfault
  have hpickS : S.pick = some q := by rw [← pick_claim_zero, hpickq]
  have hq := pick_picks hpickS
  have hspq : (S.claim 0).spilled q = false := by rw [claim_spilled_ne S hq.ne_zero, hq.unspilled]
  rw [release_claim hspq] at h2
  simp only [regAlloc_bind, emit_bind, regFree_bind, Gen.pure_eq_some, exists_exists_and_eq_and] at h2
  obtain ⟨_, hpickr, _, ⟨rfl, rfl, rfl⟩, rfl⟩ := h2
  obtain rfl := mem_unique hpickq hpickr
  refine ⟨hpickS, hargs, ?_, ?_⟩
  · have h0'' : (S.claim q).spilled 0 = false := by rw [claim_spilled_ne S (Ne.symm hq.ne_zero), h0]
    rw [claim_comm S (Ne.symm hq.ne_zero), release_claim h0'']
  · simp [callCode, bvarSetup, bvarFunc, faultCode, plain, freeArgsCode_claim hargs]

lemma execBlock_bvarSetup (fn : ℕ) (idx : Option (BitVec 32)) (t : St Func) :
    ∃ t', execBlock (exec C) (bvarSetup idx) t = some t' ∧ St.Only argRegs t t' ∧
      ∀ i, i.val < (bvarFunc fn idx).arity → t'.args i = bvarArgs (t.stk dtStkDctx) idx i := by
  let u := t.setReg 1 (t.stk dtStkDctx)
  have hu : St.Only argRegs t u := (St.Only.refl _ t).setReg (by decide)
  cases idx with
  | none =>
    refine ⟨u, by simp [bvarSetup, accessDctx, execBlock, exec, u], hu, fun i hi => ?_⟩
    obtain rfl : i = 0 := Fin.ext (Nat.lt_one_iff.1 hi)
    exact setReg_regs_self t 1 _
  | some k =>
    refine ⟨u.setReg 2 (k.signExtend 64), by simp [bvarSetup, accessDctx, execBlock, exec, AluOp.eval, u],
      hu.setReg (by decide), fun i hi => ?_⟩
    have hcases : ∀ j : Fin 5, j.val < 2 → j = 0 ∨ j = 1 := by decide
    rcases hcases i hi with rfl | rfl
    · change (u.setReg 2 _).regs 1 = _
      rw [setReg_regs_ne _ _ (by decide)]
      exact setReg_regs_self t 1 _
    · exact setReg_regs_self u 2 _

lemma faultCode_does {T : Regset} (pcb : Pcb) {reg : Reg} (hsp : T.spilled reg = false) (hreg : reg ≠ fp) {s : St Func}
    (hfault : s.mem.getW (dctxField (s.stk dtStkDctx) s.mem .mst + BitVec.ofInt 64 dmstFault) = 0#64) :
    ∃ s', Does (exec C) P (faultCode T pcb reg) s s' ∧ Restored T s.mem s s' := by
  obtain ⟨u, hu, honly, hp⟩ := execBlock_accessDctx (C := C) reg hreg .mst (afterClaim T reg s)
  rw [afterClaim_dctx, afterClaim_mem] at hp
  have humem : u.mem = s.mem := honly.mem.trans (afterClaim_mem T reg s)
  have hload : execBlock (exec C) [.load .dw reg reg dmstFault] u = some (u.setReg reg 0#64) := by
    simp [execBlock, exec, loadVal_dw _ hreg, St.addr, hp, humem, hfault]
  have hs1 := Holds.ofClaim hsp (honly.setReg (r := reg) (v := 0#64))
  obtain ⟨s', hs', hback⟩ := hs1.free hsp
  have hfirst : execBlock (exec C) (claimCode T reg ++ (dtCgAccessDctx reg .mst ++ [.load .dw reg reg dmstFault])) s =
      some (u.setReg reg 0#64) := by
    rw [execBlock_append, execBlock_claim, bind_some, execBlock_append, hu]
    exact hload
  have hbranch : exec C (.branchImm .jne reg (imm 0) pcb.exitlbl) (u.setReg reg 0#64) = .next (u.setReg reg 0#64) := by
    simp [exec, JmpOp.eval]
  exact ⟨s', (Does.block hfirst).append (.cons hbranch (.block hs')), hback⟩

lemma dtCgLoadVar_builtin_rightAt (hC : Respects C) (pcb : Pcb) (h0 : S.spilled 0 = false) {fn : ℕ}
    {idx : Option (BitVec 32)} (hv : (Var.builtin fn idx).eval C pcb d m = some (v, m')) :
    RightAt C (dtCgLoadVar pcb (.builtin fn idx)) S d m v m' := by
  intro lbl _ r c g' hgen P hP s hd hm
  obtain ⟨hpick, hargs, -, rfl⟩ := dtCgLoadVar_builtin_shape h0 hgen
  have hr := pick_picks hpick
  have hT : (S.claim 0).spilled r = false := by rw [claim_spilled_ne S hr.ne_zero, hr.unspilled]
  obtain ⟨_, hrun1, hs1⟩ := callCode_holds hC hargs h0 (bvarSetup idx) (bvarFunc fn idx) (bvarArgs d idx) s
    fun t ht _ => by
      have h := execBlock_bvarSetup (C := C) fn idx t
      rwa [ht, hd] at h
  simp only [Var.eval] at hv
  split at hv
  · next hfault =>
    simp only [Option.some.injEq, Prod.mk.injEq] at hv
    obtain ⟨hv, hm'⟩ := hv
    rw [hm, hv, hm'] at hs1
    rw [hm'] at hfault
    obtain ⟨s2, hrun2, hs2⟩ := faultCode_does pcb hT hr.ne_fp
      (by rw [hs1.dctx, hd, hs1.mem]; exact hfault)
    rw [hs1.mem] at hs2
    have hs2' := hs1.restored h0 hs2
    let s3 := (afterClaim (S.claim 0) r s2).setReg r ((afterClaim (S.claim 0) r s2).regs 0)
    have honly : St.Only [r] (afterClaim (S.claim 0) r s2) s3 := (St.Only.refl _ _).setReg List.mem_cons_self
    have hs3 := Holds.ofClaim hT honly
    have hval : s3.regs r = v := by
      rw [setReg_regs_self, afterClaim_regs, hs2'.value]
    rw [hval, hs2'.mem] at hs3
    obtain ⟨s4, hrun4, hs4⟩ := (hs2'.both h0 hs3).freeLeft h0 (Ne.symm hr.ne_zero)
    have hrun3 : execBlock (exec C) (claimCode (S.claim 0) r ++ [.movReg r 0]) s2 = some s3 := by
      rw [execBlock_append, execBlock_claim]
      rfl
    exact ⟨s4, hrun1.append (hrun2.append ((Does.block hrun3).append (.block hrun4))), hs4⟩
  · cases hv

/-! ## Variables -/

lemma callCode_labelCount {setup : List CgInsn} {f : Func} {k : ℕ} (hk : k ≠ 0) : labelCount k (callCode S setup f) = 0 := by
  simp [callCode, labelCount_plain hk, Ne.symm hk]

theorem dtCgLoadVar_disciplined (pcb : Pcb) (v : Var) (h0 : S.spilled 0 = false) : Disciplined (dtCgLoadVar pcb v) S := by
  cases v with
  | global ty offset => exact Leaf.disciplined (dtCgLoadVar_leaf pcb ty false offset) S
  | lcl ty offset => exact Leaf.disciplined (dtCgLoadVar_leaf pcb ty true offset) S
  | tls ty varid =>
    refine ⟨fun h => (dtCgLoadVar_tls_shape h0 h).1, fun h => ?_, fun h => ?_⟩
    · rw [(dtCgLoadVar_tls_shape h0 h).2.2.1]
    · obtain ⟨-, -, rfl, rfl⟩ := dtCgLoadVar_tls_shape h0 h
      refine ⟨by simp, fun k hk => ?_⟩
      simp only [labelCount_append, callCode_labelCount hk, labelCount_plain hk, tvarTail, labelCount_cons,
        labelCount_nil, Ne.symm hk, if_false]
      split_ifs <;> omega
  | builtin fn idx =>
    refine ⟨fun h => (dtCgLoadVar_builtin_shape h0 h).1, fun h => ?_, fun h => ?_⟩
    · rw [(dtCgLoadVar_builtin_shape h0 h).2.2.1]
    · obtain ⟨-, -, rfl, rfl⟩ := dtCgLoadVar_builtin_shape h0 h
      refine ⟨le_rfl, fun k hk => ?_⟩
      simp only [labelCount_append, callCode_labelCount hk, labelCount_plain hk, faultCode, labelCount_cons, Ne.symm hk,
        if_false]
      split_ifs <;> omega

theorem dtCgLoadVar_rightAt (hC : Respects C) (pcb : Pcb) (x : Var) (h0 : S.spilled 0 = false)
    (hv : x.read.eval C pcb d m = some (v, m')) : RightAt C (dtCgLoadVar pcb x) S d m v m' := by
  cases x with
  | global ty offset =>
    obtain ⟨rfl, rfl⟩ := hv
    refine Leaf.rightAt (dtCgLoadVar_leaf pcb ty false offset) fun r hr s hd hm => ?_
    have h := execBlock_varCode (C := C) ty .gvars (insnOff offset) hr s
    rwa [hd, hm] at h
  | lcl ty offset =>
    obtain ⟨rfl, rfl⟩ := hv
    refine Leaf.rightAt (dtCgLoadVar_leaf pcb ty true offset) fun r hr s hd hm => ?_
    have h := execBlock_varCode (C := C) ty .lvars (insnOff offset) hr s
    rwa [hd, hm] at h
  | tls ty varid => exact dtCgLoadVar_tls_rightAt hC pcb h0 hv
  | builtin fn idx => exact dtCgLoadVar_builtin_rightAt hC pcb h0 hv

end

end DTrace.Cg
