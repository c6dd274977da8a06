import DTrace.Cg.Operand
import Mathlib.Data.Fin.VecNotation
import Mathlib.Data.Fintype.Basic
import Mathlib.Tactic.FinCases

/-!
# Setting up the arguments of a call

The comparison of two strings and `strjoin()` move their operands into the argument registers of a call one by one,
after claiming the argument registers.  Operands may live in argument registers themselves, and two of them may share a
register.

* `dtCgCompareStr_call`, `dtCgSubrStrjoin_call` — what the call is given, whichever registers the operands are in;
* `call_args_iff` — the call gets the values of its operands exactly when no operand register is overwritten early.
-/

namespace DTrace.Cg

open Lib Bpf Gen Option Function List BitVec

variable {S : Regset} {c : CgCode} {C : Callee Func} {off : BitVec 32} {g' : GState} {a : StrArgs} {lbl : ℕ}
  {u : Unit} {q : Reg}

section

variable {P : CgCode}

lemma freeArgs_quiet (S : Regset) : ∀ i ∈ argRegs.flatMap (freeCode S), (i : CgInsn).quiet = true := by
  intro i hi
  obtain ⟨r, -, hi⟩ := mem_flatMap.1 hi
  exact freeCode_quiet S r i hi

lemma does_call {f : Func} {post : List CgInsn} (hpost : ∀ i ∈ post, i.quiet = true) (s : St Func) :
    ∃ s', Does (exec C) P (⟨0, .callFunc f⟩ :: plain post) s s' ∧ s'.calls = s.calls ++ [(f, s.args)] := by
  obtain ⟨s', hs', hcalls⟩ := execBlock_quiet hpost
    { s with regs := callRegs C f s, mem := C.effect f s.args s.mem, calls := s.calls ++ [(f, s.args)] }
  exact ⟨s', .cons rfl (.block hs'), hcalls⟩

/-! ## Comparison of strings -/

/-- The code that fills the argument registers of `dt_strcmp`. -/
def strcmpSetup (left right : Reg) (a : StrArgs) : List CgInsn :=
  [.movReg 1 left, .movReg 2 right] ++ dtCgAccessDctx 3 .mem ++
    [.movReg 4 3, .aluImm .add 3 a.off1, .aluImm .add 4 a.off2, .movImm 5 a.flags]

/-- The arguments `dt_strcmp` is to get for the operand values `vl` and `vr`. -/
def strcmpArgs (d : Word) (m : Mem) (a : StrArgs) (vl vr : Word) : Args :=
  ![vl, vr, dctxField d m .mem + a.off1.signExtend 64, dctxField d m .mem + a.off2.signExtend 64, a.flags.signExtend 64]

/-- The second move reads the second operand after the first move has been made. -/
lemma strcmpSetup_args (l r : Reg) (a : StrArgs) (s : St Func) :
    ∃ s', execBlock (exec C) (strcmpSetup l r a) s = some s' ∧ s'.calls = s.calls ∧ s'.mem = s.mem ∧
      s'.args = strcmpArgs (s.stk dtStkDctx) s.mem a (s.regs l) (if r = 1 then s.regs l else s.regs r) := by
  let t := (s.setReg 1 (s.regs l)).setReg 2 ((s.setReg 1 (s.regs l)).regs r)
  have hfirst : execBlock (exec C) [.movReg 1 l, .movReg 2 r] s = some t := rfl
  obtain ⟨u, hu, honly, hp⟩ := execBlock_accessDctx 3 (by decide) .mem t
  have hkeep : ∀ q : Reg, q ≠ 3 → u.regs q = t.regs q := fun q hq => honly.regs q (by simpa using hq)
  have ht2 : t.regs 2 = if r = 1 then s.regs l else s.regs r := by
    split
    · next h => simp [t, h]
    · next h => simp [t, h]
  refine ⟨(((u.setReg 4 (u.regs 3)).setReg 3 (u.regs 3 + a.off1.signExtend 64)).setReg 4
    (u.regs 3 + a.off2.signExtend 64)).setReg 5 (a.flags.signExtend 64), ?_, honly.calls, honly.mem, ?_⟩
  · rw [strcmpSetup, execBlock_append, execBlock_append, hfirst, bind_some, hu, bind_some]
    simp only [execBlock, exec, AluOp.eval]
    simp
  · funext i
    fin_cases i <;> simp [St.args, argReg, strcmpArgs, hp, hkeep, ht2]
    · rfl
    · rfl
    · rfl

/-- The code after the call: the operands are replaced by numbers, with the registers as they are in `T`. -/
def strcmpResult (T : Regset) (l r : Reg) : List CgInsn :=
  argRegs.flatMap (freeCode T) ++ ([.aluImm .add 0 (imm 1), .movReg l 0] ++
    (freeCode (T.releaseAll argRegs) 0 ++ [.movImm r (imm 1)]))

lemma execBlock_strcmpResult (T : Regset) {l : Reg} (r : Reg) (hl : l ≠ 0) (s : St Func) :
    ∃ s', execBlock (exec C) (strcmpResult T l r) s = some s' ∧ s'.calls = s.calls ∧ s'.regs r = 1#64 ∧
      (l ≠ r → s'.regs l = s.regs 0 + 1#64) := by
  obtain ⟨s1, hrun1, honly1⟩ := execBlock_frees (C := C) T argRegs s
  let t := (s1.setReg 0 (s1.regs 0 + 1#64)).setReg l (s1.regs 0 + 1#64)
  have ht : execBlock (exec C) [.aluImm .add 0 (imm 1), .movReg l 0] s1 = some t := by
    simp [execBlock, exec, AluOp.eval, imm_one_signExtend, t]
  obtain ⟨s2, hrun2, honly2⟩ := execBlock_free_only (C := C) (T.releaseAll argRegs) 0 t
  refine ⟨s2.setReg r 1#64, ?_, ?_, by simp, fun hlr => ?_⟩
  · rw [strcmpResult, execBlock_append, hrun1, bind_some, execBlock_append, ht, bind_some, execBlock_append, hrun2]
    simp [execBlock, exec, AluOp.eval, imm_one_signExtend]
  · exact honly2.calls.trans honly1.calls
  · have h0 : s1.regs 0 = s.regs 0 := honly1.regs 0 (by decide)
    rw [setReg_regs_ne _ _ hlr, honly2.regs l (by simpa using hl)]
    simp [t, h0]

variable {g : GState}

lemma dtCgCompareStr_shape {l r : Reg} (h : dtCgCompareStr l r a g = some (u, c, g')) :
    (∀ q ∈ argRegs, g.regs.spilled q = false) ∧ g'.lbl = g.lbl + 1 ∧ ∃ (is : List CgInsn) (T : Regset),
      (∀ i ∈ is, i = dtCgSpillStore 0) ∧
      c = ⟨0, .branchImm .jeq l (imm 0) g.lbl⟩ :: ⟨0, .branchImm .jeq r (imm 0) g.lbl⟩ ::
        (plain (argRegs.flatMap (claimCode g.regs)) ++ (plain (strcmpSetup l r a) ++ (plain is ++
          (⟨0, .callFunc .dtStrcmp⟩ :: plain (strcmpResult T l r) ++ [⟨g.lbl, .nop⟩])))) := by
  simp only [dtCgCompareStr, dtIrlistLabel_bind, emit_bind, regXallocArgs_bind, emits_bind,
    exists_exists_and_eq_and] at h
  obtain ⟨_, ⟨hargs, _, h, rfl⟩, rfl⟩ := h
  obtain ⟨is, S, _, his, hrest, rfl⟩ := regXallocUnchecked_bind_shape h
  simp only [emit_bind, emits_bind, regFreeArgs_bind, regFree_bind, exists_exists_and_eq_and, emitl, Option.some.injEq,
    Prod.mk.injEq, true_and] at hrest
  obtain ⟨_, ⟨rfl, rfl⟩, rfl⟩ := hrest
  refine ⟨hargs, rfl, is, S, his, ?_⟩
  simp [strcmpSetup, strcmpResult, plain]

variable {s : St Func}

lemma does_jeq_zero {l : ℕ} {r : Reg} {s' : St Func} (hr : s.regs r ≠ 0) (h : Does (exec C) P c s s') :
    Does (exec C) P (⟨0, .branchImm .jeq r (imm 0) l⟩ :: c) s s' := by
  refine .cons ?_ h
  have : (s.regs r == 0#64) = false := by simpa using hr
  simp [exec, JmpOp.eval, this]

/-- The call of `dt_strcmp`: the first argument is the content of the register of the left operand, the second that of
the register of the right operand once the first argument register has been written.  The result is in the register of
the left operand, unless that is the one of the right operand as well. -/
theorem dtCgCompareStr_call {l r : Reg} (h : dtCgCompareStr l r a g = some (u, c, g')) (hl0 : l ≠ 0) (hl : s.regs l ≠ 0)
    (hr : s.regs r ≠ 0) : ∃ s' args, Does (exec C) P c s s' ∧ s'.calls = s.calls ++ [(.dtStrcmp, args)] ∧
      args = strcmpArgs (s.stk dtStkDctx) s.mem a (s.regs l) (if r = 1 then s.regs l else s.regs r) ∧
      s'.regs r = 1#64 ∧ (l ≠ r → s'.regs l = C.ret .dtStrcmp args s.mem + 1#64) := by
  obtain ⟨-, -, _, T, his, rfl⟩ := dtCgCompareStr_shape h
  obtain ⟨s1, hrun1, hs1⟩ := execBlock_claimAll g.regs argRegs s
  have hdctx := hs1.kept _ fun q _ _ => dtStkSpill_ne_dctx q
  obtain ⟨s2, hrun2, hcalls2, hmem2, hargs2⟩ := strcmpSetup_args l r a s1
  obtain ⟨s3, hrun3, hregs3, hmem3, hcalls3, -⟩ := execBlock_spills (fun i hi => ⟨_, his i hi⟩) s2
  obtain ⟨s4, hrun4, hcalls4, hr4, hl4⟩ := execBlock_strcmpResult (C := C) T r hl0
    { s3 with regs := callRegs C .dtStrcmp s3, mem := C.effect .dtStrcmp s3.args s3.mem,
              calls := s3.calls ++ [(.dtStrcmp, s3.args)] }
  have hargs3 : s3.args = s2.args := by funext i; simp [St.args, hregs3]
  refine ⟨s4, s3.args, ?_, ?_, ?_, hr4, fun hlr => ?_⟩
  · refine does_jeq_zero hl (does_jeq_zero hr ?_)
    refine (Does.block hrun1).append ((Does.block hrun2).append ((Does.block hrun3).append ?_))
    exact .cons rfl ((Does.block hrun4).append (.cons rfl (.nil s4)))
  · rw [hcalls4, hcalls3, hcalls2, hs1.calls]
  · rw [hargs3, hargs2, hs1.regs, hdctx, hs1.mem]
  · rw [hl4 hlr, ← hs1.mem, ← hmem2, ← hmem3]
    rfl

/-! ## `strjoin()` -/

variable {reg : Reg}

lemma dtCgCheckNotnull_bind {α : Type} {f : Unit → Gen α} {a : α} :
    (dtCgCheckNotnull reg >>= f) g = some (a, c, g') ↔
      ∃ c', f () ⟨g.regs, g.lbl + 1⟩ = some (a, c', g') ∧ notnullCode reg g.lbl ++ c' = c :=
  bind_of_eq rfl

/-- The moves of `dt_cg_subr_strjoin` into the argument registers, and the frees between them. -/
def strjoinMoves (T : Regset) (a b d : Reg) : List CgInsn :=
  [.movReg 1 d, .movReg 2 a] ++ (freeCode T a ++ (.movReg 3 b :: freeCode (T.release a) b))

/-- The registers after those moves; `a'` and `b'` are the values the frees reload, if they do. -/
def strjoinRegs (f : Reg → Word) (a b d : Reg) (a' b' : Option Word) : Reg → Word :=
  let f := update f 1 (f d)
  let f := update f 2 (f a)
  let f := a'.elim f (update f a)
  let f := update f 3 (f b)
  b'.elim f (update f b)

lemma execBlock_free (S : Regset) (r : Reg) (s : St Func) :
    execBlock (exec C) (freeCode S r) s =
      some ⟨(if S.spilled r then some (s.stk (dtStkSpill r)) else none).elim s.regs (update s.regs r), s.stk,
        s.mem, s.calls⟩ := by
  unfold freeCode
  split <;> simp [execBlock, exec, dtCgSpillLoad, St.setReg]

lemma execBlock_strjoinMoves (T : Regset) (a b d : Reg) (s : St Func) :
    execBlock (exec C) (strjoinMoves T a b d) s =
      some ⟨strjoinRegs s.regs a b d (if T.spilled a then some (s.stk (dtStkSpill a)) else none)
        (if (T.release a).spilled b then some (s.stk (dtStkSpill b)) else none), s.stk, s.mem, s.calls⟩ := by
  have hmov : ∀ (q p : Reg) (t : St Func),
      execBlock (exec C) [.movReg q p] t = some ⟨update t.regs q (t.regs p), t.stk, t.mem, t.calls⟩ :=
    fun _ _ _ => rfl
  have hsplit : strjoinMoves T a b d = [.movReg 1 d] ++ ([.movReg 2 a] ++ (freeCode T a ++ ([.movReg 3 b] ++
      freeCode (T.release a) b))) := rfl
  rw [hsplit]
  simp only [execBlock_append, hmov, execBlock_free, bind_some]
  rfl

variable {f : Reg → Word}

lemma strjoinRegs_of_ne {a b d : Reg} {a' b' : Option Word} (hab : a ≠ b)
    (ha : a ∈ argRegs → a' = some (f a)) (hb : b ∈ argRegs → b' = some (f b)) :
    strjoinRegs f a b d a' b' 1 = (if a = 1 then f a else if b = 1 then f b else f d) ∧
    strjoinRegs f a b d a' b' 2 = (if b = 2 then f b else if a = 1 then f d else f a) ∧
    strjoinRegs f a b d a' b' 3 = (if b = 1 then f d else if b = 2 then (if a = 1 then f d else f a) else f b) := by
  have h1 : (1 : Reg) ∈ argRegs := by decide
  have h2 : (2 : Reg) ∈ argRegs := by decide
  have h3 : (3 : Reg) ∈ argRegs := by decide
  cases a' <;> cases b' <;> simp only [strjoinRegs, Option.elim, update_apply] <;> grind

lemma strjoinRegs_of_eq {a d : Reg} {a' : Option Word} (ha : a ∉ argRegs) : strjoinRegs f a a d a' none 2 = f a := by
  have h1 : (1 : Reg) ∈ argRegs := by decide
  have h2 : (2 : Reg) ∈ argRegs := by decide
  have hne1 : a ≠ 1 := fun h => ha (h ▸ h1)
  have hne2 : a ≠ 2 := fun h => ha (h ▸ h2)
  cases a' <;> simp [strjoinRegs, hne1, hne2.symm]

/-- The code before the moves: the register of the result is claimed and filled, the argument registers are claimed. -/
def strjoinSetup (S : Regset) (d : Reg) (off : BitVec 32) : List CgInsn :=
  claimCode S d ++ (dtCgAccessDctx d .mem ++ (.aluImm .add d off :: argRegs.flatMap (claimCode (S.claim d))))

/-- The code of `strjoin()`. -/
lemma dtCgSubrStrjoin_shape {s1 s2 : Gen Reg} (h : dtCgSubrStrjoin s1 s2 off ⟨S, lbl⟩ = some (q, c, g')) :
    ∃ a cl g1 b cr g2, s1 ⟨S, lbl⟩ = some (a, cl, g1) ∧ s2 ⟨g1.regs, g1.lbl + 1⟩ = some (b, cr, g2) ∧
      g2.regs.pick = some q ∧ (∀ r ∈ argRegs, (g2.regs.claim q).spilled r = false) ∧ g'.lbl = g2.lbl + 1 ∧
      ∃ is post : List CgInsn, (∀ i ∈ is, i = dtCgSpillStore 0) ∧ (∀ i ∈ post, i.quiet = true) ∧
      c = cl ++ (notnullCode a g1.lbl ++ (cr ++ (notnullCode b g2.lbl ++ (plain (strjoinSetup g2.regs q off) ++
        (plain (strjoinMoves ((g2.regs.claim q).claimAll argRegs) a b q) ++ (plain is ++
          (⟨0, .callFunc .dtStrjoin⟩ :: plain post))))))) := by
  obtain ⟨a, cl, g1, _, hl, h1, rfl⟩ := bind_eq_some.1 h
  obtain ⟨_, h2, rfl⟩ := dtCgCheckNotnull_bind.1 h1
  obtain ⟨b, cr, g2, _, hr, h3, rfl⟩ := bind_eq_some.1 h2
  obtain ⟨_, h4, rfl⟩ := dtCgCheckNotnull_bind.1 h3
  simp only [regAlloc_bind, emits_bind, emit_bind, regXallocArgs_bind, regFree_bind, exists_exists_and_eq_and] at h4
  obtain ⟨d, hpick, _, ⟨hargs, _, h5, rfl⟩, rfl⟩ := h4
  obtain ⟨is, T, _, his, h6, rfl⟩ := regXallocUnchecked_bind_shape h5
  simp only [emit_bind, regFreeArgs_bind, regFree_bind, pure_eq_some, exists_exists_and_eq_and] at h6
  obtain ⟨_, ⟨rfl, rfl, rfl⟩, rfl⟩ := h6
  refine ⟨a, cl, g1, b, cr, g2, hl, hr, hpick, hargs, rfl, is, argRegs.flatMap (freeCode T) ++
    freeCode (T.releaseAll argRegs) 0, his, ?_, ?_⟩
  · exact forall_mem_append.2 ⟨freeArgs_quiet T, freeCode_quiet _ _⟩
  · simp [strjoinSetup, strjoinMoves, plain]

/-- After the set-up: the result register points to its temporary string, the other registers are as before, and an
argument register that is in use is also in its spill slot. -/
lemma execBlock_strjoinSetup {d : Reg} (hd : Picks S d) (off : BitVec 32) (s : St Func) :
    ∃ s', execBlock (exec C) (strjoinSetup S d off) s = some s' ∧ s'.calls = s.calls ∧
      s'.regs = update s.regs d (dctxField (s.stk dtStkDctx) s.mem .mem + off.signExtend 64) ∧
      (∀ q ∈ argRegs, (S.claim d).active q = true → s'.stk (dtStkSpill q) = s'.regs q) := by
  let t := afterClaim S d s
  have htregs : t.regs = s.regs := afterClaim_regs S d s
  have htmem : t.mem = s.mem := afterClaim_mem S d s
  have htcalls : t.calls = s.calls := by simp only [t, afterClaim]; split <;> rfl
  have htdctx : t.stk dtStkDctx = s.stk dtStkDctx := afterClaim_dctx S d s
  obtain ⟨u, hu, honly, hp⟩ := execBlock_accessDctx d hd.ne_fp .mem t
  let w := u.setReg d (u.regs d + off.signExtend 64)
  have hw : execBlock (exec C) [.aluImm .add d off] u = some w := rfl
  obtain ⟨s', hs', hsaved⟩ := execBlock_claimAll (S.claim d) argRegs w
  have hwregs : w.regs = update s.regs d (dctxField (s.stk dtStkDctx) s.mem .mem + off.signExtend 64) := by
    funext q
    by_cases hq : q = d
    · subst hq
      simp [w, hp, htdctx, htmem]
    · rw [update_of_ne hq, setReg_regs_ne _ _ hq, honly.regs q (by simpa using hq), htregs]
  refine ⟨s', ?_, ?_, hsaved.regs.trans hwregs, fun q hq ha => ?_⟩
  · have hsplit : strjoinSetup S d off = claimCode S d ++ (dtCgAccessDctx d .mem ++ ([.aluImm .add d off] ++
        argRegs.flatMap (claimCode (S.claim d)))) := rfl
    rw [hsplit]
    simp only [execBlock_append, execBlock_claim, bind_some]
    rw [show afterClaim S d s = t from rfl, hu, bind_some, hw, bind_some, hs']
  · rw [hsaved.calls]
    exact honly.calls.trans htcalls
  · rw [hsaved.saved q hq ha, hsaved.regs]

/-! ## The two calls, from the operands on -/

/-- Two operands that compute `vl` and `vr`, neither of them `NULL`, when compiled for the register set `S`. -/
structure Operands (C : Callee Func) (S : Regset) (d : Word) (m : Mem) (left right : Gen Reg) (vl vr : Word)
    (m' : Mem) : Prop where
  disciplinedLeft : Disciplined left S
  disciplinedRight : ∀ a, S.pick = some a → Disciplined right (S.claim a)
  leftNotnull : vl ≠ 0
  rightNotnull : vr ≠ 0
  compute : ∃ m₁, RightAt C left S d m vl m₁ ∧ ∀ a, S.pick = some a → RightAt C right (S.claim a) d m₁ vr m'

variable {d : Word} {m m' : Mem} {left right : Gen Reg} {vl vr : Word}

lemma Operands.both (ho : Operands C S d m left right vl vr m') : ∃ m₁, Both C S d m left right vl m₁ vr m' := by
  obtain ⟨m₁, hleft, hright⟩ := ho.compute
  exact ⟨m₁, ⟨ho.disciplinedLeft, hleft, hright⟩, ho.disciplinedRight⟩

lemma dtCgCompareOp_call (ho : Operands C S d m left right vl vr m') {op : JmpOp} {sa : StrArgs} (hlbl : lbl ≠ 0)
    (hgen : dtCgCompareOp op (some sa) left right ⟨S, lbl⟩ = some (q, c, g')) (hP : LabelsNodup P)
    (hd : s.stk dtStkDctx = d) (hm : s.mem = m) :
    ∃ a b, S.pick = some a ∧ (S.claim a).pick = some b ∧ (∀ r ∈ argRegs, ((S.claim a).claim b).spilled r = false) ∧
      ∃ s' vl' args, (vl' = if a = b then vr else vl) ∧ Does (exec C) P c s s' ∧
        s'.calls.getLast? = some (.dtStrcmp, args) ∧ args = strcmpArgs d m' sa vl' (if b = 1 then vl' else vr) ∧
        s'.regs q = if op.eval (if a = b then 1#64 else C.ret .dtStrcmp args m' + 1#64) 1#64 then 1#64 else 0#64 := by
  obtain ⟨a, _, _, b, _, g2, _, g3, hl, hr, hstr, rfl, rfl, -⟩ := dtCgCompareOp_shape hgen
  obtain ⟨_, hpair⟩ := ho.both
  obtain ⟨hpicka, hpickb, hregs2, -⟩ := hpair.gen hl hr
  obtain ⟨_, s2, hrun1, hrun2, -, hboth⟩ := hpair.run (by omega) hl hr hP hd hm
  have hvl : s2.regs a = if a = b then vr else vl := by
    split
    · next h => rw [h, hboth.right]
    · next h => exact hboth.left h
  have hne : s2.regs a ≠ 0 := by
    rw [hvl]
    split
    · exact ho.rightNotnull
    · exact ho.leftNotnull
  have ha0 : a ≠ 0 := fun h => absurd (h ▸ (pick_picks hpicka).mem) (by decide)
  obtain ⟨s3, args, hrun3, hcalls3, hargs, hr3, hl3⟩ :=
    dtCgCompareStr_call (C := C) (P := P) hstr ha0 hne (by rw [hboth.right]; exact ho.rightNotnull)
  have hvals : op.eval (s3.regs a) (s3.regs b) = op.eval (if a = b then 1#64 else C.ret .dtStrcmp args m' + 1#64) 1#64 := by
    rw [hr3]
    split
    · next h => rw [h, hr3]
    · next h => rw [hl3 h, hboth.mem]
  obtain ⟨s4, hrun4, hcalls4, hval4⟩ : ∃ s4, Does (exec C) P (compareTail op a b lbl (_ + 1) (freeCode g3.regs b)) s3 s4 ∧
      s4.calls = s3.calls ∧ s4.regs a = if op.eval (s3.regs a) (s3.regs b) then 1#64 else 0#64 := by
    obtain ⟨t, ht, hcalls⟩ := execBlock_quiet (freeCode_quiet g3.regs b) s3
    cases hop : op.eval (s3.regs a) (s3.regs b) with
    | true => exact ⟨_, compareTail_true hP hlbl hop, rfl, by simp⟩
    | false => exact ⟨_, compareTail_false hP (by omega) hop ht, hcalls, by simp⟩
  refine ⟨a, b, hpicka, hpickb, ?_, s4, _, args, rfl, hrun1.append (hrun2.append (hrun3.append hrun4)), ?_, ?_, ?_⟩
  · rw [← hregs2]
    exact (dtCgCompareStr_shape hstr).1
  · rw [hcalls4, hcalls3, getLast?_concat]
  · rw [hargs, hvl, hboth.dctx, hd, hboth.mem, hboth.right]
  · rw [hval4, hvals]

theorem dtCgSubrStrjoin_call (ho : Operands C S d m left right vl vr m') (hlbl : lbl ≠ 0)
    (hgen : dtCgSubrStrjoin left right off ⟨S, lbl⟩ = some (q, c, g')) (hP : LabelsNodup P)
    (hd : s.stk dtStkDctx = d) (hm : s.mem = m) :
    ∃ a b, S.pick = some a ∧ (S.claim a).pick = some b ∧ ((S.claim a).claim b).pick = some q ∧
      (∀ r ∈ argRegs, (((S.claim a).claim b).claim q).spilled r = false) ∧
      ∃ (s' : St Func) (args : Args) (f : Reg → Word), Does (exec C) P c s s' ∧ s'.calls.getLast? = some (.dtStrjoin, args) ∧
        f q = dctxField d m' .mem + off.signExtend 64 ∧ (b ≠ q → f b = vr) ∧ (a ≠ q → a ≠ b → f a = vl) ∧
        (a = b → args 1 = f a) ∧
        (a ≠ b → args 0 = (if a = 1 then f a else if b = 1 then f b else f q) ∧
          args 1 = (if b = 2 then f b else if a = 1 then f q else f a) ∧
          args 2 = if b = 1 then f q else if b = 2 then (if a = 1 then f q else f a) else f b) := by
  obtain ⟨a, _, g1, b, _, g2, hl, hr, hpickq, hargs, -, is, _, his, hpost, rfl⟩ := dtCgSubrStrjoin_shape hgen
  obtain ⟨_, hpair⟩ := ho.both
  obtain ⟨hpicka, hpickb, hregs2, hle1, hle2⟩ := hpair.gen hl hr
  obtain ⟨S2, lbl2⟩ := g2
  obtain rfl : S2 = (S.claim a).claim b := hregs2
  -- the operands
  obtain ⟨_, s2, hrun1, hrun2, hs1, hboth⟩ := hpair.run hlbl hl hr hP hd hm
  have hnull1 := does_notnull (C := C) (P := P) hP (show g1.lbl ≠ 0 by omega) (by rw [hs1]; exact ho.leftNotnull)
  have hnull2 := does_notnull (C := C) (P := P) hP (show lbl2 ≠ 0 by dsimp only at hle2; omega)
    (by rw [hboth.right]; exact ho.rightNotnull)
  -- the set-up, the moves and the call
  obtain ⟨s3, hrun3, -, hregs3, hslots3⟩ := execBlock_strjoinSetup (pick_picks hpickq) off s2
  have hrun4 := execBlock_strjoinMoves (C := C) ((((S.claim a).claim b).claim q).claimAll argRegs) a b q s3
  obtain ⟨s5, hrun5, hregs5, -, -, -⟩ := execBlock_spills (fun i hi => ⟨_, his i hi⟩) _
  obtain ⟨s6, hrun6, hcalls6⟩ := does_call hpost s5
  -- an operand in an argument register has been saved there, and is read back
  have hact : ∀ r, r = a ∨ r = b → (((S.claim a).claim b).claim q).active r = true := by
    rintro r (rfl | rfl)
    · exact claim_active_of _ (claim_active_of _ (claim_active_self _ _))
    · exact claim_active_of _ (claim_active_self _ _)
  have hspilled : ∀ r ∈ argRegs, r = a ∨ r = b →
      ((((S.claim a).claim b).claim q).claimAll argRegs).spilled r = true := fun r hr h => by
    simp [claimAll_spilled (by decide : argRegs.Nodup), hr, hact r h]
  refine ⟨a, b, hpicka, hpickb, hpickq, hargs, s6, s5.args, s3.regs, ?_, ?_, ?_, fun hbq => ?_, fun haq hab => ?_,
    fun hab => ?_, fun hab => ?_⟩
  · exact hrun1.append (hnull1.append (hrun2.append (hnull2.append ((Does.block hrun3).append
      ((Does.block hrun4).append ((Does.block hrun5).append hrun6))))))
  · rw [hcalls6, getLast?_concat]
  · rw [hregs3, update_self, hboth.dctx, hd, hboth.mem]
  · rw [hregs3, update_of_ne hbq, hboth.right]
  · rw [hregs3, update_of_ne haq, hboth.left hab]
  · subst hab
    -- a register that both operands share is spilled, so it is not an argument register
    have ha : a ∉ argRegs := fun h => by
      have hsp : ((S.claim a).claim a).spilled a = true := by
        rw [claim_spilled_self _ (pick_picks hpickb).unspilled, claim_active_self]
      have := hargs a h
      rw [claim_spilled_of _ hsp] at this
      cases this
    have hnone : (((((S.claim a).claim a).claim q).claimAll argRegs).release a).spilled a = false := by
      simp [release_spilled]
    have h2 : s5.args 1 = s5.regs 2 := rfl
    rw [h2, hregs5, hnone]
    exact strjoinRegs_of_eq ha
  · have hread : ∀ r ∈ argRegs, r = a ∨ r = b → s3.stk (dtStkSpill r) = s3.regs r :=
      fun r hr h => hslots3 r hr (hact r h)
    have hrelease : b ∈ argRegs →
        (((((S.claim a).claim b).claim q).claimAll argRegs).release a).spilled b = true := fun hb => by
      rw [release_spilled, hspilled b hb (.inr rfl)]
      simpa using Ne.symm hab
    have harg : s5.args 0 = s5.regs 1 ∧ s5.args 1 = s5.regs 2 ∧ s5.args 2 = s5.regs 3 := ⟨rfl, rfl, rfl⟩
    rw [harg.1, harg.2.1, harg.2.2, hregs5]
    refine strjoinRegs_of_ne hab (fun ha => ?_) (fun hb => ?_)
    · rw [if_pos (hspilled a ha (.inl rfl)), hread a ha (.inl rfl)]
    · rw [if_pos (hrelease hb), hread b hb (.inr rfl)]

end

/-! ## String constants as operands -/

section

lemma dtCgString_leaf (stroff : BitVec 32) :
    Leaf (dtCgString stroff) fun reg => dtCgAccessDctx reg .strtab ++ [.aluImm .add reg stroff] := by
  intro g r c g' h
  simp only [dtCgString, regAlloc_bind, emits_bind, emit_bind, pure_eq_some, exists_exists_and_eq_and] at h
  obtain ⟨_, hpick, _, ⟨rfl, rfl, rfl⟩, rfl⟩ := h
  refine ⟨hpick, ?_, rfl⟩
  simp [plain]

lemma dtCgString_rightAt (stroff : BitVec 32) (d : Word) (m : Mem) :
    RightAt C (dtCgString stroff) S d m (dctxField d m .strtab + stroff.signExtend 64) m := by
  refine Leaf.rightAt (dtCgString_leaf stroff) fun r hr s hd hm => ?_
  obtain ⟨u, hu, honly, hp⟩ := execBlock_accessDctx r hr .strtab s
  refine ⟨u.setReg r (u.regs r + stroff.signExtend 64), ?_, honly.setReg, ?_⟩
  · rw [execBlock_append, hu]
    rfl
  · rw [setReg_regs_self, hp, hd, hm]

lemma dtCgString_eq (stroff : BitVec 32) {a : Reg} (ha : S.pick = some a) (lbl : ℕ) :
    ∃ c, dtCgString stroff ⟨S, lbl⟩ = some (a, c, ⟨S.claim a, lbl⟩) :=
  ⟨_, regAlloc_bind.2 ⟨a, ha, _, rfl, rfl⟩⟩

lemma dtCgCompareOp_succeeds (op : JmpOp) (sa : StrArgs) (o1 o2 : BitVec 32) {a b : Reg} (ha : S.pick = some a)
    (hb : (S.claim a).pick = some b) (hargs : ∀ r ∈ argRegs, ((S.claim a).claim b).spilled r = false) :
    (dtCgCompareOp op (some sa) (dtCgString o1) (dtCgString o2)).Succeeds ⟨S, 1⟩ := by
  obtain ⟨_, hl⟩ := dtCgString_eq o1 ha 3
  obtain ⟨_, hr⟩ := dtCgString_eq o2 hb 3
  obtain ⟨_, _, -, h0⟩ := regXallocUnchecked_shape 0 ⟨((S.claim a).claim b).claimAll argRegs, 4⟩
  have hstr : (dtCgCompareStr a b sa).Succeeds ⟨(S.claim a).claim b, 3⟩ := by
    refine (succeeds_bind rfl).2 ((succeeds_bind rfl).2 ((succeeds_bind rfl).2 ?_))
    refine (succeeds_bind (regXallocArgs_eq hargs)).2 ((succeeds_bind rfl).2 ((succeeds_bind rfl).2 ?_))
    refine (succeeds_bind rfl).2 ((succeeds_bind h0).2 ((succeeds_bind rfl).2 ?_))
    refine (succeeds_bind (regFreeArgs_eq _)).2 ((succeeds_bind rfl).2 ?_)
    exact (succeeds_bind (regFree_eq _ _)).2 ((succeeds_bind rfl).2 ⟨_, _, _, rfl⟩)
  obtain ⟨_, _, _, hstr⟩ := hstr
  refine (succeeds_bind rfl).2 ((succeeds_bind rfl).2 ((succeeds_bind hl).2 ((succeeds_bind hr).2 ?_)))
  refine (succeeds_bind hstr).2 ((succeeds_bind rfl).2 ((succeeds_bind (regFree_eq _ _)).2 ?_))
  exact ⟨_, _, _, rfl⟩

lemma dtCgSubrStrjoin_succeeds (off o1 o2 : BitVec 32) {a b : Reg} (ha : S.pick = some a)
    (hb : (S.claim a).pick = some b) (hq : ((S.claim a).claim b).pick = some q)
    (hargs : ∀ r ∈ argRegs, (((S.claim a).claim b).claim q).spilled r = false) :
    (dtCgSubrStrjoin (dtCgString o1) (dtCgString o2) off).Succeeds ⟨S, 1⟩ := by
  obtain ⟨_, hl⟩ := dtCgString_eq o1 ha 1
  obtain ⟨_, hr⟩ := dtCgString_eq o2 hb 2
  obtain ⟨_, _, -, h0⟩ := regXallocUnchecked_shape 0
    ⟨(((((S.claim a).claim b).claim q).claimAll argRegs).release a).release b, 3⟩
  refine (succeeds_bind hl).2 ((succeeds_bind rfl).2 ((succeeds_bind hr).2 ((succeeds_bind rfl).2 ?_)))
  refine (succeeds_bind (regAlloc_of_pick hq)).2 ((succeeds_bind rfl).2 ((succeeds_bind rfl).2 ?_))
  refine (succeeds_bind (regXallocArgs_eq hargs)).2 ((succeeds_bind rfl).2 ?_)
  refine (succeeds_bind (regFree_eq _ _)).2 ((succeeds_bind rfl).2 ((succeeds_bind (regFree_eq _ _)).2 ?_))
  refine (succeeds_bind h0).2 ((succeeds_bind rfl).2 ((succeeds_bind (regFreeArgs_eq _)).2 ?_))
  exact (succeeds_bind (regFree_eq _ _)).2 succeeds_pure

end

/-! ## The arguments the calls get -/

/-- A comparison of strings or `strjoin()`. -/
inductive StrOp
  | compare (op : JmpOp) (args : StrArgs)
  | strjoin (off : BitVec 32)

namespace StrOp

def gen : StrOp → Gen Reg → Gen Reg → Gen Reg
  | .compare op args, left, right => dtCgCompareOp op (some args) left right
  | .strjoin off, left, right => dtCgSubrStrjoin left right off

def func : StrOp → Func
  | .compare .. => .dtStrcmp
  | .strjoin _ => .dtStrjoin

/-- The call has got the values of the operands, and the pointers to temporary strings it needs. -/
def Wants (d : Word) (m : Mem) (vl vr : Word) (args : Args) : StrOp → Prop
  | .compare _ sa => args = strcmpArgs d m sa vl vr
  | .strjoin off => args 0 = dctxField d m .mem + off.signExtend 64 ∧ args 1 = vl ∧ args 2 = vr

/-- No operand register is overwritten before it has been moved to its argument register: `a`, `b` and `q` are the
registers of the left operand, the right operand and the result. -/
def Apart (S : Regset) : StrOp → Prop
  | .compare .. => ∀ a b, S.pick = some a → (S.claim a).pick = some b →
      (∀ r ∈ argRegs, ((S.claim a).claim b).spilled r = false) → a ≠ b ∧ b ≠ 1
  | .strjoin _ => ∀ a b q, S.pick = some a → (S.claim a).pick = some b → ((S.claim a).claim b).pick = some q →
      (∀ r ∈ argRegs, (((S.claim a).claim b).claim q).spilled r = false) →
      a ≠ b ∧ a ≠ q ∧ b ≠ q ∧ a ≠ 1 ∧ b ≠ 1 ∧ b ≠ 2

end StrOp

/-- Whenever the operation is compiled with the registers `S` live, the call gets the values of the operands. -/
def RightArgs (C : Callee Func) (op : StrOp) (S : Regset) : Prop :=
  ∀ left right d m vl vr m', Operands C S d m left right vl vr m' → ∀ lbl, lbl ≠ 0 → ∀ q c g',
    op.gen left right ⟨S, lbl⟩ = some (q, c, g') → ∀ P, LabelsNodup P → ∀ s : St Func, s.stk dtStkDctx = d → s.mem = m →
    ∃ s' args, Does (exec C) P c s s' ∧ s'.calls.getLast? = some (op.func, args) ∧ op.Wants d m' vl vr args

section

variable {op : StrOp}

lemma rightArgs_of_apart (h : op.Apart S) : RightArgs C op S := by
  intro left right d m vl vr m' ho lbl hlbl q c g' hgen P hP s hd hm
  cases op with
  | compare op sa =>
    obtain ⟨a, b, ha, hb, hunspilled, s', _, _, hvl', hrun, hcall, hargs, -⟩ := dtCgCompareOp_call ho hlbl hgen hP hd hm
    obtain ⟨hab, hb1⟩ := h a b ha hb hunspilled
    refine ⟨s', _, hrun, hcall, ?_⟩
    rw [hargs, hvl', if_neg hab, if_neg hb1]
    rfl
  | strjoin off =>
    obtain ⟨a, b, ha, hb, hq, hargs, s', args, f, hrun, hcall, hfq, hfb, hfa, -, hne⟩ :=
      dtCgSubrStrjoin_call ho hlbl hgen hP hd hm
    obtain ⟨hab, haq, hbq, ha1, hb1, hb2⟩ := h a b q ha hb hq hargs
    obtain ⟨h0, h1, h2⟩ := hne hab
    refine ⟨s', args, hrun, hcall, ?_, ?_, ?_⟩
    · rw [h0, if_neg ha1, if_neg hb1, hfq]
    · rw [h1, if_neg hb2, if_neg ha1, hfa haq hab]
    · rw [h2, if_neg hb1, if_neg hb2, hfb hbq]

/-! The labels of the code, and operands for which every mix-up shows. -/

lemma dtCgCompareStr_labels {l r : Reg} {g : GState}
    (h : dtCgCompareStr l r a g = some (u, c, g')) : Labels c g.lbl g'.lbl := by
  obtain ⟨-, hlbl, _, _, -, rfl⟩ := dtCgCompareStr_shape h
  rw [hlbl]
  refine ⟨by omega, fun k hk => ?_⟩
  simp only [labelCount_cons, labelCount_append, labelCount_plain hk, labelCount_nil, Ne.symm hk, if_false]
  split_ifs <;> omega

lemma dtCgCompareOp_nodup (ho : Operands C S d m left right vl vr m') {op : JmpOp} {sa : StrArgs}
    (hgen : dtCgCompareOp op (some sa) left right ⟨S, lbl⟩ = some (q, c, g')) : LabelsNodup c := by
  obtain ⟨a, _, ⟨S1, _⟩, _, _, _, _, _, hl, hr, hstr, -, rfl, -⟩ := dtCgCompareOp_shape hgen
  obtain rfl : S1 = S.claim a := ho.disciplinedLeft.regs hl
  exact (Labels.compare (ho.disciplinedLeft.labels hl) ((ho.disciplinedRight a (ho.disciplinedLeft.picked hl)).labels hr)
    (dtCgCompareStr_labels hstr)).nodup

lemma dtCgSubrStrjoin_labels {left right : Gen Reg} (hl : Disciplined left S)
    (hr : ∀ a, S.pick = some a → Disciplined right (S.claim a))
    (h : dtCgSubrStrjoin left right off ⟨S, lbl⟩ = some (q, c, g')) : Labels c lbl g'.lbl := by
  obtain ⟨a, _, ⟨S1, _⟩, b, _, g2, h1, h2, -, -, hlbl, _, post, -, -, rfl⟩ := dtCgSubrStrjoin_shape h
  obtain rfl : S1 = S.claim a := hl.regs h1
  have hcall : Labels (⟨0, .callFunc .dtStrjoin⟩ :: plain post : CgCode) (g2.lbl + 1) (g2.lbl + 1) :=
    .plain (.callFunc .dtStrjoin :: post) _
  rw [hlbl]
  exact (hl.labels h1).append ((notnullCode_labels a _).append (((hr a (hl.picked h1)).labels h2).append
    ((notnullCode_labels b _).append ((Labels.plain _ _).append ((Labels.plain _ _).append ((Labels.plain _ _).append hcall))))))

lemma dctxField_zeroMem (f : DctxMember) : dctxField 0 zeroMem f = 0#64 := by
  cases f <;> decide

lemma signExtend_ne {x y : BitVec 32} (h : x ≠ y) : x.signExtend 64 ≠ y.signExtend 64 := by
  intro he
  have := congrArg BitVec.toInt he
  rw [toInt_signExtend_of_le (by omega), toInt_signExtend_of_le (by omega)] at this
  exact h (eq_of_toInt_eq this)

lemma operands_strings (hm : dctxField d m .strtab = 0#64) {o1 o2 : BitVec 32} (h1 : o1 ≠ 0) (h2 : o2 ≠ 0) :
    Operands C S d m (dtCgString o1) (dtCgString o2) (o1.signExtend 64) (o2.signExtend 64) m := by
  have hright : ∀ (T : Regset) (o : BitVec 32), RightAt C (dtCgString o) T d m (o.signExtend 64) m := by
    intro T o
    have h := dtCgString_rightAt (C := C) (S := T) o d m
    rwa [hm, BitVec.zero_add] at h
  refine ⟨Leaf.disciplined (dtCgString_leaf o1) S, fun a _ => Leaf.disciplined (dtCgString_leaf o2) _, ?_, ?_, m, hright S o1,
    fun a _ => hright _ o2⟩
  · exact signExtend_ne h1
  · exact signExtend_ne h2

lemma compare_apart {op : JmpOp} {sa : StrArgs} (h : RightArgs C (.compare op sa) S) : (StrOp.compare op sa).Apart S := by
  intro a b ha hb hargs
  have ho := operands_strings (C := C) (S := S) (dctxField_zeroMem .strtab)
    (show (8 : BitVec 32) ≠ 0 by decide) (show (16 : BitVec 32) ≠ 0 by decide)
  obtain ⟨q, c, g', hgen⟩ := dtCgCompareOp_succeeds op sa 8 16 ha hb hargs
  have hP := dtCgCompareOp_nodup ho hgen
  obtain ⟨s1, args, hrun1, hcall1, hwants⟩ := h _ _ _ _ _ _ _ ho 1 (by decide) q c g' hgen c hP zeroSt rfl rfl
  obtain ⟨a', b', ha', hb', -, s2, vl', _, hvl', hrun2, hcall2, rfl, -⟩ :=
    dtCgCompareOp_call (s := zeroSt) ho (by decide) hgen hP rfl rfl
  obtain rfl := mem_unique ha ha'
  obtain rfl := mem_unique hb hb'
  obtain rfl := hrun1.unique hrun2
  rw [hcall1, Option.some.injEq, Prod.mk.injEq, hwants] at hcall2
  have h0 := congrFun hcall2.2 0
  have h1 := congrFun hcall2.2 1
  have hvr : (signExtend 64 (8 : BitVec 32)) ≠ signExtend 64 (16 : BitVec 32) := by decide
  change _ = vl' at h0
  constructor
  · intro hab
    rw [hvl', if_pos hab] at h0
    exact hvr h0
  · intro hb1
    rw [if_pos hb1, ← h0] at h1
    exact hvr h1.symm

/-- Two offsets of strings other than that of the result. -/
lemma exists_offsets (off : BitVec 32) : ∃ o1 o2 : BitVec 32, o1 ≠ 0 ∧ o2 ≠ 0 ∧ o1 ≠ o2 ∧ o1 ≠ off ∧ o2 ≠ off := by
  by_cases h8 : off = 8
  · exact ⟨16, 24, by decide, by decide, by decide, by rw [h8]; decide, by rw [h8]; decide⟩
  · by_cases h16 : off = 16
    · exact ⟨8, 24, by decide, by decide, by decide, by rw [h16]; decide, by rw [h16]; decide⟩
    · exact ⟨8, 16, by decide, by decide, by decide, Ne.symm h8, Ne.symm h16⟩

lemma strjoin_apart {off : BitVec 32} (h : RightArgs C (.strjoin off) S) : (StrOp.strjoin off).Apart S := by
  intro a b q ha hb hq hargs
  obtain ⟨o1, o2, h₁, h₂, h12, h₁f, h₂f⟩ := exists_offsets off
  have ho := operands_strings (C := C) (S := S) (dctxField_zeroMem .strtab) h₁ h₂
  obtain ⟨q', c, g', hgen⟩ := dtCgSubrStrjoin_succeeds off o1 o2 ha hb hq hargs
  have hP := (dtCgSubrStrjoin_labels ho.disciplinedLeft ho.disciplinedRight hgen).nodup
  obtain ⟨_, args1, hrun1, hcall1, hwants⟩ := h _ _ _ _ _ _ _ ho 1 (by decide) q' c g' hgen c hP zeroSt rfl rfl
  obtain ⟨_, _, ha', hb', hq', -, _, args, f, hrun2, hcall2, hfq, hfb, -, heq, hne⟩ :=
    dtCgSubrStrjoin_call (s := zeroSt) ho (by decide) hgen hP rfl rfl
  obtain rfl := mem_unique ha ha'
  obtain rfl := mem_unique hb hb'
  obtain rfl := mem_unique hq hq'
  obtain rfl := hrun1.unique hrun2
  rw [hcall1, Option.some.injEq, Prod.mk.injEq] at hcall2
  obtain rfl : args1 = args := hcall2.2
  obtain ⟨-, hw1, hw2⟩ := hwants
  rw [dctxField_zeroMem, BitVec.zero_add] at hfq
  -- the three values are different, so a register that holds one of them does not hold another
  have hlr := signExtend_ne h12
  have hlf := signExtend_ne h₁f
  have hrf := signExtend_ne h₂f
  have hlb : o1.signExtend 64 ≠ f b := by
    by_cases hbq : b = q
    · rwa [hbq, hfq]
    · rwa [hfb hbq]
  have hab : a ≠ b := fun hab => hlb (by rw [← hw1, heq hab, hab])
  obtain ⟨-, h1, h2⟩ := hne hab
  rw [hw1, hfq] at h1
  rw [hw2, hfq] at h2
  have hb2 : b ≠ 2 := fun hb2 => hlb (by rwa [if_pos hb2] at h1)
  rw [if_neg hb2] at h1 h2
  have ha1 : a ≠ 1 := fun ha1 => hlf (by rwa [if_pos ha1] at h1)
  have hb1 : b ≠ 1 := fun hb1 => hrf (by rwa [if_pos hb1] at h2)
  rw [if_neg ha1] at h1
  rw [if_neg hb1] at h2
  have haq : a ≠ q := fun haq => hlf (by rwa [haq, hfq] at h1)
  have hbq : b ≠ q := fun hbq => hrf (by rwa [hbq, hfq] at h2)
  exact ⟨hab, haq, hbq, ha1, hb1, hb2⟩

lemma apart_of_rightArgs (h : RightArgs C op S) : op.Apart S := by
  cases op with
  | compare op sa => exact compare_apart h
  | strjoin off => exact strjoin_apart h

/-- The calls that string comparisons and `strjoin()` make get the values of their operands exactly when the operands are
in registers that are not overwritten early. -/
theorem call_args_iff (C : Callee Func) (op : StrOp) (S : Regset) : RightArgs C op S ↔ op.Apart S :=
  ⟨apart_of_rightArgs, rightArgs_of_apart⟩

/-- Six registers are in use: a comparison of strings gets `%r2` and `%r1` for its operands. -/
def sixLive : Regset where
  active r := decide (3 ≤ r.val ∧ r.val ≤ 8)
  spilled _ := false
  spilled_active _ h := by cases h

/-- With six registers in use, `==` compares the left operand with itself. -/
theorem call_args_six_live : ¬ RightArgs idleCallee (.compare .jeq ⟨true, true, imm 0, imm 264⟩) sixLive := by
  intro h
  have happart := apart_of_rightArgs h 2 1 (by decide) (by decide) (by decide)
  exact happart.2 rfl

end

end DTrace.Cg
