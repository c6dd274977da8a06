import DTrace.Cg.ExprOps

/-!
# The code of operators that evaluate one operand or the other

`&&`, `||` and `?:` compile their operands one after the other in the same register set, the register of the one freed
before the other is compiled, so that all of them end up in one register.

* `ShortCircuit` — what `&&` and `||` have in common, with `rightAt_decided` and `rightAt_undecided`: right whatever is live;
* `ternaryOp_true_run`, `ternaryOp_false_run` — what a conditional does, its register free or in use;
* `ternaryOp_true`, `ternaryOp_false` — right if the register was free.
-/

namespace DTrace.Cg

open Lib Bpf

section

variable {C : Callee Func} {S : Regset} {P : CgCode} {lbl : ℕ} {q : Reg} {c : CgCode} {g' : GState}
  {left right : Gen Reg} {d vl vr : Word} {m m1 m2 : Mem}

/-! ## An operand that may decide -/

/-- An operator that tests its first operand and compiles the second one into the same register: with `k` labels, the
code of its `end`, which leaves `w` if the first operand decides, and the test of the second operand before that. -/
structure ShortCircuit (C : Callee Func) (f : Gen Reg → Gen Reg → Gen Reg) (op : JmpOp) (k : ℕ)
    (test fin : Reg → ℕ → CgCode) (w : Word) : Prop where
  shape : ∀ {left right : Gen Reg} {S : Regset} {lbl : ℕ} {q : Reg} {c : CgCode} {g' : GState},
    f left right ⟨S, lbl⟩ = some (q, c, g') →
    ∃ a cl g₁ cr, left ⟨S, lbl + k⟩ = some (a, cl, g₁) ∧ right ⟨g₁.regs.release a, g₁.lbl⟩ = some (q, cr, g') ∧
      c = cl ++ (⟨0, .branchImm op a (imm 0) lbl⟩ :: (plain (freeCode g₁.regs a) ++ (cr ++ (test q lbl ++ fin q lbl))))
  labels : ∀ q lbl i, i ≠ 0 → labelCount i (test q lbl ++ fin q lbl) = if lbl ≤ i ∧ i < lbl + k then 1 else 0
  decided : ∀ {P : CgCode} {lbl : ℕ} {q : Reg} {s : St Func} (skipped : CgCode), LabelsNodup P → lbl ≠ 0 →
    op.eval (s.regs q) 0#64 = true →
    Does (exec C) P (⟨0, .branchImm op q (imm 0) lbl⟩ :: (skipped ++ fin q lbl)) s (s.setReg q w)
  undecided : ∀ {P : CgCode} {lbl : ℕ} (q : Reg) (s : St Func), LabelsNodup P → lbl ≠ 0 →
    Does (exec C) P (test q lbl ++ fin q lbl) s (s.setReg q (ofBool (s.regs q != 0#64)))

lemma Disciplined.release (hl : Disciplined left S) {a : Reg} {cl : CgCode} {g1 : GState}
    (h : left ⟨S, lbl⟩ = some (a, cl, g1)) : g1.regs.release a = S := by
  rw [hl.regs h, release_claim (pick_picks (hl.picked h)).unspilled]

lemma second_operand (op : JmpOp) {a r : Reg} {cr : CgCode} {g : GState} {s s1 : St Func} (hl : Picks S a)
    (h : RightAt C right S d m1 vr m2) (hlbl : lbl ≠ 0) (hgen : right ⟨S, lbl⟩ = some (r, cr, g)) (hP : LabelsNodup P)
    (hd : s.stk dtStkDctx = d) (hs1 : Holds S a vl m1 s s1) (hop : op.eval vl 0#64 = false) {target : ℕ} :
    ∃ s2, Does (exec C) P (⟨0, .branchImm op a (imm 0) target⟩ :: (plain (freeCode (S.claim a) a) ++ cr)) s1 s2 ∧
      Holds S r vr m2 s s2 := by
  obtain ⟨t, hfree, ht⟩ := hs1.free hl.unspilled
  obtain ⟨s2, hrun2, hs2⟩ := h _ hlbl _ _ _ hgen P hP t (ht.dctx.trans hd) ht.mem
  refine ⟨s2, .cons ?_ ((Does.block hfree).append hrun2), ht.holds hs2⟩
  simp only [exec, imm_zero_signExtend, hs1.value, hop]
  rfl

section

variable {f : Gen Reg → Gen Reg → Gen Reg} {op : JmpOp} {k : ℕ} {test fin : Reg → ℕ → CgCode} {w : Word}
  (hf : ShortCircuit C f op k test fin w) (hl : Disciplined left S)

include hf hl

lemma ShortCircuit.disciplined (hr : Disciplined right S) : Disciplined (f left right) S := by
  refine ⟨fun h => ?_, fun h => ?_, @fun lbl q _ _ h => ?_⟩ <;>
    obtain ⟨a, _, _, _, h1, h2, rfl⟩ := hf.shape h <;>
    rw [hl.release h1] at h2
  · exact hr.picked h2
  · exact hr.regs h2
  · have hboth := (hl.labels h1).append (hr.labels h2)
    have hle := hboth.le
    refine ⟨by omega, fun i hi => ?_⟩
    have hcount := hboth.count i hi
    have htail := hf.labels q lbl i hi
    simp only [labelCount_append] at hcount htail
    simp only [labelCount_append, labelCount_cons, labelCount_plain hi, Ne.symm hi, if_false]
    split_ifs at * <;> omega

theorem ShortCircuit.rightAt_decided (hr : Disciplined right S) (h : RightAt C left S d m vl m1)
    (hv : op.eval vl 0#64 = true) : RightAt C (f left right) S d m w m1 := by
  intro lbl hlbl q c g' hgen P hP s hd hm
  obtain ⟨a, _, g1, cr, h1, h2, rfl⟩ := hf.shape hgen
  rw [hl.release h1] at h2
  -- both operands are compiled into the same register
  obtain rfl := Option.mem_unique (hl.picked h1) (hr.picked h2)
  obtain ⟨_, hrun1, hs1⟩ := h _ (by omega) _ _ _ h1 P hP s hd hm
  refine ⟨_, hrun1.append ?_, hs1.setValue w⟩
  have hskip := hf.decided (plain (freeCode g1.regs a) ++ (cr ++ test a lbl)) hP hlbl (by rw [hs1.value]; exact hv)
  rwa [List.append_assoc, List.append_assoc] at hskip

theorem ShortCircuit.rightAt_undecided (h : RightAt C left S d m vl m1) (hv : op.eval vl 0#64 = false)
    (h' : RightAt C right S d m1 vr m2) : RightAt C (f left right) S d m (ofBool (vr != 0#64)) m2 := by
  intro lbl hlbl q c g' hgen P hP s hd hm
  obtain ⟨a, _, ⟨S1, lbl1⟩, _, h1, h2, rfl⟩ := hf.shape hgen
  rw [hl.release h1] at h2
  obtain rfl : S1 = S.claim a := hl.regs h1
  have hlbl1 : lbl + k ≤ lbl1 := (hl.labels h1).le
  obtain ⟨_, hrun1, hs1⟩ := h _ (by omega) _ _ _ h1 P hP s hd hm
  obtain ⟨s2, hrun2, hs2⟩ := second_operand op (pick_picks (hl.picked h1)) h' (by dsimp only; omega) h2 hP hd hs1 hv
  have hrun3 := hf.undecided q s2 hP hlbl
  rw [hs2.value] at hrun3
  refine ⟨_, hrun1.append ?_, hs2.setValue _⟩
  simpa using hrun2.append hrun3

end

/-- The end of `dt_cg_logical_and`, with the result if one of the operands is zero. -/
def landEnd (reg : Reg) (lbl : ℕ) : CgCode := ⟨lbl, .movImm reg (imm 0)⟩ :: [⟨lbl + 1, .nop⟩]

def landTest (reg : Reg) (lbl : ℕ) : CgCode :=
  [⟨0, .branchImm .jeq reg (imm 0) lbl⟩, ⟨0, dtCgSetx reg 1⟩, ⟨0, .jump (lbl + 1)⟩]

lemma logicalAnd_shortCircuit (C : Callee Func) : ShortCircuit C dtCgLogicalAnd .jeq 2 landTest landEnd 0#64 := by
  have hend : ∀ {P : CgCode} (q : Reg) (lbl : ℕ) (s : St Func), Does (exec C) P (landEnd q lbl) s (s.setReg q 0#64) :=
    fun q lbl s => does_movImm imm_zero_signExtend
  refine ⟨fun h => ?_, fun q lbl i hi => ?_, fun skipped hP hlbl hv => ?_, @fun P lbl q s hP hlbl => ?_⟩
  · simp only [dtCgLogicalAnd, dtIrlistLabel_bind] at h
    obtain ⟨a, cl, g1, _, hl, h1, rfl⟩ := Gen.bind_eq_some.1 h
    simp only [emit_bind, regFree_bind, exists_exists_and_eq_and] at h1
    obtain ⟨_, h2, rfl⟩ := h1
    obtain ⟨b, cr, _, _, hr, h3, rfl⟩ := Gen.bind_eq_some.1 h2
    obtain ⟨_, ⟨rfl, rfl, rfl⟩, rfl⟩ := h3
    exact ⟨a, cl, g1, cr, hl, hr, by simp [landTest, landEnd]⟩
  · simp only [labelCount_append, landTest, landEnd, labelCount_cons, labelCount_nil, Ne.symm hi, if_false]
    split_ifs <;> omega
  · exact .skip hP hlbl (by simp [exec, hv]) (hend _ _ _)
  · by_cases hv : s.regs q = 0#64
    · rw [hv]
      exact .skip hP hlbl (by simp [exec, JmpOp.eval, hv]) (hend q lbl s)
    · have hb : (s.regs q == 0#64) = false := by simpa using hv
      have hjump : Does (exec C) P (⟨0, .jump (lbl + 1)⟩ :: ([⟨lbl, .movImm q (imm 0)⟩] ++ [⟨lbl + 1, .nop⟩]))
          (s.setReg q 1#64) (s.setReg q 1#64) :=
        .skip hP (by omega) rfl (.cons rfl (.nil _))
      rw [bne, hb]
      exact .cons (by simp [exec, JmpOp.eval, hb]) (.cons rfl hjump)

/-- The end of `dt_cg_logical_or`, with the result if the first operand is not zero. -/
def lorEnd (reg : Reg) (lbl : ℕ) : CgCode :=
  ⟨lbl, .movImm reg (imm 1)⟩ :: ⟨0, .jump (lbl + 2)⟩ :: ([⟨lbl + 1, .movImm reg (imm 0)⟩] ++ [⟨lbl + 2, .nop⟩])

def lorTest (reg : Reg) (lbl : ℕ) : CgCode := [⟨0, .branchImm .jeq reg (imm 0) (lbl + 1)⟩]

lemma logicalOr_shortCircuit (C : Callee Func) : ShortCircuit C dtCgLogicalOr .jne 3 lorTest lorEnd 1#64 := by
  have hend : ∀ {P : CgCode}, LabelsNodup P → ∀ (q : Reg) (lbl : ℕ) (s : St Func),
      Does (exec C) P (lorEnd q lbl) s (s.setReg q 1#64) := fun hP q lbl s =>
    .cons (by simp [exec, AluOp.eval]) (.skip hP (by omega) rfl (.cons rfl (.nil _)))
  refine ⟨fun h => ?_, fun q lbl i hi => ?_, fun skipped hP hlbl hv => ?_, @fun P lbl q s hP hlbl => ?_⟩
  · simp only [dtCgLogicalOr, dtIrlistLabel_bind] at h
    obtain ⟨a, cl, g1, _, hl, h1, rfl⟩ := Gen.bind_eq_some.1 h
    simp only [emit_bind, regFree_bind, exists_exists_and_eq_and] at h1
    obtain ⟨_, h2, rfl⟩ := h1
    obtain ⟨b, cr, _, _, hr, h3, rfl⟩ := Gen.bind_eq_some.1 h2
    obtain ⟨_, ⟨rfl, rfl, rfl⟩, rfl⟩ := h3
    exact ⟨a, cl, g1, cr, hl, hr, by simp [lorTest, lorEnd]⟩
  · simp only [labelCount_append, lorTest, lorEnd, labelCount_cons, labelCount_nil, Ne.symm hi, if_false]
    split_ifs <;> omega
  · exact .skip hP hlbl (by simp [exec, hv]) (hend hP _ _ _)
  · by_cases hv : s.regs q = 0#64
    · have hskip : Does (exec C) P (⟨0, .branchImm .jeq q (imm 0) (lbl + 1)⟩ :: ([⟨lbl, .movImm q (imm 1)⟩,
          ⟨0, .jump (lbl + 2)⟩] ++ ⟨lbl + 1, .movImm q (imm 0)⟩ :: [⟨lbl + 2, .nop⟩])) s (s.setReg q 0#64) :=
        .skip hP (by omega) (by simp [exec, JmpOp.eval, hv]) (does_movImm imm_zero_signExtend)
      rw [hv]
      exact hskip
    · have hb : (s.regs q == 0#64) = false := by simpa using hv
      rw [bne, hb]
      exact .cons (by simp [exec, JmpOp.eval, hb]) (hend hP q lbl s)

/-! ## Conditionals -/

/-- The end of `dt_cg_ternary_op`: the move of the first result, the code that frees its register, and the code of the
other operand. -/
def ternaryTail (reg a : Reg) (lbl : ℕ) (free : List CgInsn) (cr : CgCode) : CgCode :=
  ⟨0, .movReg reg a⟩ :: (plain free ++ ⟨0, .jump (lbl + 1)⟩ :: ((⟨lbl, .nop⟩ :: cr) ++ [⟨lbl + 1, .nop⟩]))

variable {expr : Gen Reg} {v : Word}

lemma dtCgTernaryOp_shape (h : dtCgTernaryOp expr left right ⟨S, lbl⟩ = some (q, c, g')) :
    ∃ e ce g1 a cl g2 cr, expr ⟨S, lbl + 2⟩ = some (e, ce, g1) ∧ left ⟨g1.regs.release e, g1.lbl⟩ = some (a, cl, g2) ∧
      right ⟨g2.regs.release a, g2.lbl⟩ = some (q, cr, g') ∧
      c = ce ++ (⟨0, .branchImm .jeq e (imm 0) lbl⟩ :: (plain (freeCode g1.regs e) ++
        (cl ++ ternaryTail q a lbl (freeCode g2.regs a) cr))) := by
  simp only [dtCgTernaryOp, dtIrlistLabel_bind] at h
  obtain ⟨e, ce, g1, _, he, h1, rfl⟩ := Gen.bind_eq_some.1 h
  simp only [emit_bind, regFree_bind, exists_exists_and_eq_and] at h1
  obtain ⟨_, h2, rfl⟩ := h1
  obtain ⟨a, cl, g2, _, hl, h3, rfl⟩ := Gen.bind_eq_some.1 h2
  obtain ⟨b, _, _, _, hp, h4, rfl⟩ := Gen.bind_eq_some.1 h3
  obtain ⟨_, hx, rfl⟩ := emitPatched_eq_some.1 hp
  simp only [emit_bind, emitl_bind, regFree_bind, exists_exists_and_eq_and] at hx
  obtain ⟨cr, hr, rfl⟩ := hx
  obtain ⟨_, ⟨rfl, rfl, rfl⟩, rfl⟩ := h4
  exact ⟨e, ce, g1, a, cl, g2, cr, he, hl, hr, by simp [ternaryTail]⟩

lemma ternaryTail_does (lbl : ℕ) (cr : CgCode) (hP : LabelsNodup P) {reg a : Reg} {free : List CgInsn} {s t : St Func}
    (h : execBlock (exec C) free (s.setReg reg (s.regs a)) = some t) :
    Does (exec C) P (ternaryTail reg a lbl free cr) s t :=
  .cons rfl ((Does.block h).append (.skip hP (by omega) rfl (.cons rfl (.nil t))))

lemma Holds.restored_of_free {r : Reg} {s s' : St Func} (h : Holds S r v m s s') (hr : S.active r = false) :
    Restored S m s s' := by
  refine ⟨fun x hx => h.kept x hx ?_, h.slots, h.dctx, h.mem⟩
  rintro rfl
  rw [hr] at hx
  cases hx

lemma Restored.holds_of_free {r : Reg} {s s' : St Func} (h : Restored S m s s') (hr : S.active r = false)
    (hv : s'.regs r = v) : Holds S r v m s s' :=
  ⟨hv, fun x hx _ => h.regs x hx, fun ha => absurd (hr.symm.trans ha) (by decide), h.slots, h.dctx, h.mem⟩

section

variable (he : Disciplined expr S) (hl : Disciplined left S) (hr : Disciplined right S)
include he hl hr

lemma dtCgTernaryOp_disciplined : Disciplined (dtCgTernaryOp expr left right) S := by
  refine ⟨fun h => ?_, fun h => ?_, fun h => ?_⟩ <;>
    obtain ⟨e, _, _, a, _, _, _, h1, h2, h3, rfl⟩ := dtCgTernaryOp_shape h <;>
    rw [he.release h1] at h2 <;>
    rw [hl.release h2] at h3
  · exact hr.picked h3
  · exact hr.regs h3
  · have hall := ((he.labels h1).append (hl.labels h2)).append (hr.labels h3)
    have hle := hall.le
    refine ⟨by omega, fun k hk => ?_⟩
    have hcount := hall.count k hk
    simp only [labelCount_append] at hcount
    simp only [labelCount_append, ternaryTail, labelCount_cons, labelCount_nil, labelCount_plain hk, Ne.symm hk, if_false]
    split_ifs at * <;> omega

theorem ternaryOp_true_run (h : RightAt C expr S d m v m1) (hv : v ≠ 0#64) (h' : RightAt C left S d m1 vl m2)
    (hgen : dtCgTernaryOp expr left right ⟨S, lbl⟩ = some (q, c, g')) (hP : LabelsNodup P) {s : St Func}
    (hd : s.stk dtStkDctx = d) (hm : s.mem = m) :
    ∃ s', Does (exec C) P c s s' ∧ Restored S m2 s s' ∧ (S.active q = false → s'.regs q = vl) := by
  obtain ⟨e, _, ⟨S1, lbl1⟩, a, _, ⟨S2, _⟩, cr, h1, h2, h3, rfl⟩ := dtCgTernaryOp_shape hgen
  rw [he.release h1] at h2
  rw [hl.release h2] at h3
  obtain rfl : S1 = S.claim e := he.regs h1
  obtain rfl : S2 = S.claim a := hl.regs h2
  obtain rfl := Option.mem_unique (hl.picked h2) (hr.picked h3)
  have hlbl1 : lbl + 2 ≤ lbl1 := (he.labels h1).le
  have hun := (pick_picks (hl.picked h2)).unspilled
  obtain ⟨_, hrun1, hs1⟩ := h _ (by omega) _ _ _ h1 P hP s hd hm
  obtain ⟨s2, hrun2, hs2⟩ := second_operand .jeq (pick_picks (he.picked h1)) h' (by dsimp only; omega) h2 hP hd hs1
    (by simpa [JmpOp.eval] using hv)
  obtain ⟨t, hfree, ht⟩ := (hs2.setValue (s2.regs a)).free hun
  refine ⟨t, hrun1.append ?_, ht, fun hact => ?_⟩
  · simpa using hrun2.append (ternaryTail_does lbl cr hP hfree)
  · obtain rfl : s2.setReg a (s2.regs a) = t := by
      simpa [freeCode_claim hun, releaseCode, hact, execBlock] using hfree
    rw [setReg_regs_self, hs2.value]

theorem ternaryOp_false_run (h : RightAt C expr S d m 0#64 m1) (h' : RightAt C right S d m1 vr m2) (hlbl : lbl ≠ 0)
    (hgen : dtCgTernaryOp expr left right ⟨S, lbl⟩ = some (q, c, g')) (hP : LabelsNodup P) {s : St Func}
    (hd : s.stk dtStkDctx = d) (hm : s.mem = m) :
    ∃ s1 s', Does (exec C) P c s s' ∧ Holds S q 0#64 m1 s s1 ∧ Holds S q vr m2 s1 s' := by
  obtain ⟨e, _, ⟨S1, _⟩, a, cl, ⟨S2, lbl2⟩, cr, h1, h2, h3, rfl⟩ := dtCgTernaryOp_shape hgen
  rw [he.release h1] at h2
  rw [hl.release h2] at h3
  have hlbl2 : lbl + 2 ≤ lbl2 := ((he.labels h1).append (hl.labels h2)).le
  obtain rfl := Option.mem_unique (he.picked h1) (hr.picked h3)
  obtain ⟨s1, hrun1, hs1⟩ := h _ (by omega) _ _ _ h1 P hP s hd hm
  obtain ⟨s2, hrun2, hs2⟩ := h' _ (by dsimp only; omega) _ _ _ h3 P hP s1 (hs1.dctx.trans hd) hs1.mem
  refine ⟨s1, s2, hrun1.append ?_, hs1, hs2⟩
  have hlast : Does (exec C) P (⟨lbl, .nop⟩ :: (cr ++ [⟨lbl + 1, .nop⟩])) s1 s2 :=
    .cons rfl (hrun2.append (.cons rfl (.nil _)))
  have hskip : Does (exec C) P (⟨0, .branchImm .jeq e (imm 0) lbl⟩ :: ((plain (freeCode S1 e) ++ (cl ++
      ⟨0, .movReg e a⟩ :: (plain (freeCode S2 a) ++ [⟨0, .jump (lbl + 1)⟩]))) ++
        ⟨lbl, .nop⟩ :: (cr ++ [⟨lbl + 1, .nop⟩]))) s1 s2 :=
    .skip hP hlbl (by simp [exec, JmpOp.eval, hs1.value]) hlast
  simpa [ternaryTail] using hskip

theorem ternaryOp_true (hfree : ∀ a, S.pick = some a → S.active a = false) (h : RightAt C expr S d m v m1) (hv : v ≠ 0#64)
    (h' : RightAt C left S d m1 vl m2) : RightAt C (dtCgTernaryOp expr left right) S d m vl m2 := by
  intro lbl _ q c g' hgen P hP s hd hm
  have hq := hfree q ((dtCgTernaryOp_disciplined he hl hr).picked hgen)
  obtain ⟨s', hrun, hs', hval⟩ := ternaryOp_true_run he hl hr h hv h' hgen hP hd hm
  exact ⟨s', hrun, hs'.holds_of_free hq (hval hq)⟩

theorem ternaryOp_false (hfree : ∀ a, S.pick = some a → S.active a = false) (h : RightAt C expr S d m 0#64 m1)
    (h' : RightAt C right S d m1 vr m2) : RightAt C (dtCgTernaryOp expr left right) S d m vr m2 := by
  intro lbl hlbl q c g' hgen P hP s hd hm
  have hq := hfree q ((dtCgTernaryOp_disciplined he hl hr).picked hgen)
  obtain ⟨_, s', hrun, hs1, hs'⟩ := ternaryOp_false_run he hl hr h h' hlbl hgen hP hd hm
  exact ⟨s', hrun, (hs1.restored_of_free hq).holds hs'⟩

end

end

end DTrace.Cg
