import DTrace.Cg.ExprLeaf

/-!
# The code of operators

For every operator: the code it emits around the code of its operands, and what that code does.  The value computed is
given for every choice of registers, also where it is not the value of the expression.

* `logicalNeg_rightAt` — right whatever is live;
* `Binary` — what the operators that hold both operands have in common, with `Binary.disciplined` and `Binary.rightAt`;
* `arithmeticOp_rightAt`, `logicalXor_rightAt` — an operator whose operands share a register leaves its left operand;
* `compareOp_rightAt` — a comparison, unless it is true and its right operand took a register that was in use.
-/

namespace DTrace.Cg

open Lib Bpf Gen BpfRuns

section

variable {C : Callee Func} {S : Regset} {P : CgCode} {lbl : ℕ} {q : Reg} {c : CgCode} {g' : GState}

/-! ## Logical negation -/

/-- The end of `dt_cg_logical_neg`. -/
def lnegTail (reg : Reg) (lbl : ℕ) : CgCode :=
  ⟨0, .branchImm .jeq reg (imm 0) lbl⟩ :: ([⟨0, .movImm reg (imm 0)⟩, ⟨0, .jump (lbl + 1)⟩] ++
    ⟨lbl, .movImm reg (imm 1)⟩ :: [⟨lbl + 1, .nop⟩])

variable {child : Gen Reg} {v : Word} {i : Reg → CgInsn} {s : St Func}

lemma dtCgLogicalNeg_shape (h : dtCgLogicalNeg child ⟨S, lbl⟩ = some (q, c, g')) :
    ∃ c1, child ⟨S, lbl + 2⟩ = some (q, c1, g') ∧ c = c1 ++ lnegTail q lbl := by
  simp only [dtCgLogicalNeg, dtIrlistLabel_bind] at h
  obtain ⟨a, c1, _, _, hc, h1, rfl⟩ := bind_eq_some.1 h
  obtain ⟨_, ⟨rfl, rfl, rfl⟩, rfl⟩ := h1
  exact ⟨c1, hc, rfl⟩

lemma dtCgLogicalNeg_disciplined (hc : Disciplined child S) : Disciplined (dtCgLogicalNeg child) S := by
  refine ⟨fun h => ?_, fun h => ?_, fun h => ?_⟩
  · obtain ⟨c1, h1, -⟩ := dtCgLogicalNeg_shape h
    exact hc.picked h1
  · obtain ⟨c1, h1, -⟩ := dtCgLogicalNeg_shape h
    exact hc.regs h1
  · obtain ⟨_, h1, rfl⟩ := dtCgLogicalNeg_shape h
    have hl := hc.labels h1
    have hle := hl.le
    refine ⟨by omega, fun k hk => ?_⟩
    have := hl.count k hk
    simp only [labelCount_append, lnegTail, labelCount_cons, labelCount_nil, Ne.symm hk, if_false, this]
    split_ifs <;> omega

lemma Holds.only {r : Reg} {m : Mem} {s s' s'' : St Func} (h : Holds S r v m s s') (ho : St.Only [r] s' s'') :
    Holds S r (s''.regs r) m s s'' := by
  refine ⟨rfl, fun x hx hxr => ?_, fun hr => ?_, fun x hx => ?_, ?_, ho.mem.trans h.mem⟩
  · rw [ho.regs x (by simpa using hxr), h.kept x hx hxr]
  · rw [ho.stk, h.saved hr]
  · rw [ho.stk, h.slots x hx]
  · rw [ho.stk, h.dctx]

lemma Holds.setValue {r : Reg} {m : Mem} {s s' : St Func} (h : Holds S r v m s s') (w : Word) :
    Holds S r w m s (s'.setReg r w) := by
  have := h.only ((St.Only.refl [r] s').setReg (r := r) (v := w))
  rwa [setReg_regs_self] at this

lemma lnegTail_does (hP : LabelsNodup P) (hlbl : lbl ≠ 0) (reg : Reg) (s : St Func) :
    Does (exec C) P (lnegTail reg lbl) s (s.setReg reg (ofBool (s.regs reg == 0#64))) := by
  by_cases hv : s.regs reg = 0#64
  · rw [hv]
    exact .skip hP hlbl (by simp [exec, JmpOp.eval, hv]) (does_movImm imm_one_signExtend)
  · have hb : (s.regs reg == 0#64) = false := by simpa using hv
    rw [hb]
    exact .cons (by simp [exec, JmpOp.eval, hb]) (does_zero_jump [_] hP (Nat.succ_ne_zero _))

theorem logicalNeg_rightAt {d v : Word} {m m' : Mem} (h : RightAt C child S d m v m') :
    RightAt C (dtCgLogicalNeg child) S d m (ofBool (v == 0#64)) m' := by
  intro lbl hlbl r c g' hgen P hP s hd hm
  obtain ⟨_, h1, rfl⟩ := dtCgLogicalNeg_shape hgen
  obtain ⟨s1, hrun1, hs1⟩ := h _ (by omega) _ _ _ h1 P hP s hd hm
  have hrun2 := lnegTail_does (C := C) hP hlbl r s1
  rw [hs1.value] at hrun2
  exact ⟨_, hrun1.append hrun2, hs1.setValue _⟩

/-! ## One instruction -/

/-- The code of `~` and of unary `-`. -/
def unaryOp (i : Reg → CgInsn) (child : Gen Reg) : Gen Reg := do
  let reg ← child
  emit (i reg)
  return reg

lemma unaryOp_shape (h : unaryOp i child ⟨S, lbl⟩ = some (q, c, g')) :
    ∃ c1, child ⟨S, lbl⟩ = some (q, c1, g') ∧ c = c1 ++ [⟨0, i q⟩] := by
  obtain ⟨a, c1, _, _, hc, h1, rfl⟩ := bind_eq_some.1 h
  obtain ⟨_, ⟨rfl, rfl, rfl⟩, rfl⟩ := h1
  exact ⟨c1, hc, rfl⟩

lemma unaryOp_disciplined (hc : Disciplined child S) : Disciplined (unaryOp i child) S := by
  refine ⟨fun h => ?_, fun h => ?_, fun h => ?_⟩ <;> obtain ⟨_, h1, rfl⟩ := unaryOp_shape h
  · exact hc.picked h1
  · exact hc.regs h1
  · exact (hc.labels h1).append (Labels.plain [_] _)

lemma unaryOp_rightAt {f : Word → Word} {d v : Word} {m m' : Mem}
    (hi : ∀ r (s : St Func), exec C (i r) s = .next (s.setReg r (f (s.regs r)))) (h : RightAt C child S d m v m') :
    RightAt C (unaryOp i child) S d m (f v) m' := by
  intro lbl hlbl r c g' hgen P hP s hd hm
  obtain ⟨_, h1, rfl⟩ := unaryOp_shape hgen
  obtain ⟨s1, hrun1, hs1⟩ := h _ hlbl _ _ _ h1 P hP s hd hm
  refine ⟨_, hrun1.append (.cons (hi r s1) (.nil _)), ?_⟩
  rw [hs1.value]
  exact hs1.setValue _

/-! ## Two operands, both held -/

variable {left right : Gen Reg} {d vl vr : Word} {m m₁ m₂ : Mem}

/-- An operator that compiles its second operand while it holds the first: it has `k` labels and emits `pre` after the
first operand and `post` after the second, whose register it frees. -/
structure Binary (f : Gen Reg → Gen Reg → Gen Reg) (k : ℕ) (pre : Reg → ℕ → CgCode)
    (post : Reg → Reg → ℕ → GState → CgCode) (next : ℕ → ℕ) : Prop where
  shape : ∀ {left right : Gen Reg} {S : Regset} {lbl : ℕ} {q : Reg} {c : CgCode} {g' : GState},
    f left right ⟨S, lbl⟩ = some (q, c, g') → ∃ cl g₁ b cr g₂, left ⟨S, lbl + k⟩ = some (q, cl, g₁) ∧
      right g₁ = some (b, cr, g₂) ∧ c = cl ++ (pre q lbl ++ (cr ++ post q b lbl g₂)) ∧
      g' = ⟨g₂.regs.release b, next g₂.lbl⟩
  le : ∀ L, L ≤ next L
  labels : ∀ {q b lbl g i}, lbl + k ≤ g.lbl → i ≠ 0 → labelCount i (pre q lbl) + labelCount i (post q b lbl g) =
    if (lbl ≤ i ∧ i < lbl + k) ∨ (g.lbl ≤ i ∧ i < next g.lbl) then 1 else 0

section

variable {f : Gen Reg → Gen Reg → Gen Reg} {k : ℕ} {pre : Reg → ℕ → CgCode} {post : Reg → Reg → ℕ → GState → CgCode}
  {next : ℕ → ℕ} (hf : Binary f k pre post next)

include hf

theorem Binary.disciplined (hl : Disciplined left S) (hr : ∀ a, S.pick = some a → Disciplined right (S.claim a)) :
    Disciplined (f left right) S := by
  refine ⟨fun h => ?_, fun h => ?_, @fun lbl q _ _ h => ?_⟩ <;>
    obtain ⟨_, ⟨_, _⟩, b, _, ⟨S2, lbl2⟩, h1, h2, rfl, rfl⟩ := hf.shape h <;>
    obtain rfl := hl.regs h1
  · exact hl.picked h1
  · obtain rfl := (hr _ (hl.picked h1)).regs h2
    exact release_claim (pick_picks ((hr _ (hl.picked h1)).picked h2)).unspilled
  · have hboth := (hl.labels h1).append ((hr _ (hl.picked h1)).labels h2)
    have hle : lbl + k ≤ lbl2 := hboth.le
    have hnext := hf.le lbl2
    refine ⟨by dsimp only; omega, fun i hi => ?_⟩
    have hcount := hboth.count i hi
    have hown := hf.labels (q := q) (b := b) (g := ⟨S2, lbl2⟩) hle hi
    simp only [labelCount_append] at hcount ⊢
    dsimp only at *
    split_ifs at * <;> omega

theorem Binary.rightAt (h : Both C S d m left right vl m₁ vr m₂) {ul v : Word}
    (hpre : ∀ {P : CgCode} {lbl : ℕ} {a : Reg} {s : St Func}, LabelsNodup P → lbl ≠ 0 → s.regs a = vl →
      ∃ s', Does (exec C) P (pre a lbl) s s' ∧ St.Only [a] s s' ∧ s'.regs a = ul)
    (hpost : ∀ {P : CgCode} {lbl L : ℕ} {a b : Reg} {s s2 : St Func}, LabelsNodup P → lbl ≠ 0 → L ≠ 0 →
      S.pick = some a → (S.claim a).pick = some b → HoldBoth S a b ul vr m₂ s s2 →
      ∃ s3, Does (exec C) P (post a b lbl ⟨(S.claim a).claim b, L⟩) s2 s3 ∧ Holds S a v m₂ s s3) :
    RightAt C (f left right) S d m v m₂ := by
  intro lbl hlbl q c g' hgen P hP s hd hm
  obtain ⟨_, ⟨S1, lbl1⟩, b, _, ⟨S2, lbl2⟩, h1, h2, rfl, rfl⟩ := hf.shape hgen
  obtain ⟨hpicka, hpickb, rfl, hle1, hle2⟩ := h.gen h1 h2
  obtain rfl : S1 = S.claim q := h.disciplined.regs h1
  dsimp only at hle1 hle2
  obtain ⟨_, hrun1, hs1⟩ := h.leftRight _ (by omega) _ _ _ h1 P hP s hd hm
  obtain ⟨t1, hrunt, honly, rfl⟩ := hpre hP hlbl hs1.value
  have ht1 := hs1.only honly
  obtain ⟨_, hrun2, hs2⟩ := h.rightRight q hpicka _ (by omega) _ _ _ h2 P hP t1 (ht1.dctx.trans hd) ht1.mem
  obtain ⟨s3, hrun3, hs3⟩ := hpost hP hlbl (show lbl2 ≠ 0 by omega) hpicka hpickb
    (ht1.both (pick_picks hpicka).unspilled hs2)
  exact ⟨s3, hrun1.append (hrunt.append (hrun2.append hrun3)), hs3⟩

end

lemma nothing_does {P : CgCode} {a : Reg} (h : s.regs a = v) :
    ∃ s', Does (exec C) P [] s s' ∧ St.Only [a] s s' ∧ s'.regs a = v := ⟨s, Does.nil s, St.Only.refl _ s, h⟩

/-! ## Comparisons -/

lemma compareOp_binary (op : JmpOp) : Binary (dtCgCompareOp op none) 2 (fun _ _ => [])
    (fun a b lbl g => compareTail op a b lbl (lbl + 1) (freeCode g.regs b)) id := by
  refine ⟨fun h => ?_, fun _ => le_rfl, fun hle hi => ?_⟩
  · obtain ⟨a, cl, g1, b, cr, g2, _, _, h1, h2, h3, rfl, rfl, rfl⟩ := dtCgCompareOp_shape h
    cases h3
    exact ⟨cl, g1, b, cr, g2, h1, h2, rfl, rfl⟩
  · rw [compareTail_labelCount hi, labelCount_nil]
    dsimp only [id]
    split_ifs <;> omega

/-- What a comparison computes, in the registers `a` and `b`. -/
def compareVal (op : JmpOp) (a b : Reg) (vl vr : Word) : Word := ofBool (if a = b then op.eval vr vr else op.eval vl vr)

/-- A comparison is right unless it is true and its right operand took a register that was in use. -/
theorem compareOp_rightAt {op : JmpOp} (h : Both C S d m left right vl m₁ vr m₂)
    (hval : ∀ a b, S.pick = some a → (S.claim a).pick = some b → compareVal op a b vl vr = v ∧
      (a = b ∨ S.active b = false ∨ op.eval vl vr = false)) :
    RightAt C (dtCgCompareOp op none left right) S d m v m₂ := by
  refine (compareOp_binary op).rightAt h (fun _ _ hs => nothing_does hs) ?_
  intro P lbl L a b s s2 hP hlbl _ hpicka hpickb hs2
  have hb := pick_picks hpickb
  obtain ⟨hv, hlive⟩ := hval a b hpicka hpickb
  have hcond : op.eval (s2.regs a) (s2.regs b) = if a = b then op.eval vr vr else op.eval vl vr := by
    split
    · next hab => rw [hab, hs2.right]
    · next hab => rw [hs2.left hab, hs2.right]
  cases hop : op.eval (s2.regs a) (s2.regs b) with
  | false =>
    obtain ⟨_, hrun3, hs3⟩ := hs2.freeRight hb
    refine ⟨_, compareTail_false hP (by omega) hop hrun3, ?_⟩
    have hv0 : v = 0#64 := by rw [← hv, compareVal, ← hcond, hop]; rfl
    rw [hv0]
    exact hs3.setValue _
  | true =>
    refine ⟨_, compareTail_true hP hlbl hop, ?_⟩
    have hv1 : v = 1#64 := by rw [← hv, compareVal, ← hcond, hop]; rfl
    rw [hv1]
    refine ⟨setReg_regs_self _ _ _, fun x hx hxa => ?_, hs2.savedLeft, hs2.slots, hs2.dctx, hs2.mem⟩
    rw [setReg_regs_ne _ _ hxa, hs2.kept x hx hxa]
    rintro rfl
    rcases hlive with hlive | hlive | hlive
    · exact hxa hlive.symm
    · rw [hlive] at hx
      cases hx
    · rw [hcond, if_neg (Ne.symm hxa), hlive] at hop
      cases hop

/-! ## Arithmetic -/

/-- The code of `/` and `%` on signed operands. -/
def signedDivCode (op : AluOp) (l r : Reg) (L : ℕ) : CgCode :=
  ⟨0, .branchImm .jne r (imm 0) (L + 5)⟩ :: (plain (dtCgProbeError .divzero (imm 0)) ++
  [⟨L + 5, .nop⟩,
   ⟨0, .branchImm .jslt l (imm 0) (L + 2)⟩,
   ⟨0, .branchImm .jslt r (imm 0) L⟩,
   ⟨0, .jump (L + 3)⟩,
   ⟨L, .neg r⟩,
   ⟨L + 1, .aluReg op l r⟩,
   ⟨0, .neg l⟩,
   ⟨0, .jump (L + 4)⟩,
   ⟨L + 2, .neg l⟩,
   ⟨0, .branchImm .jsge r (imm 0) (L + 1)⟩,
   ⟨0, .neg r⟩,
   ⟨L + 3, .aluReg op l r⟩,
   ⟨L + 4, .nop⟩])

/-- The code of the operation itself, and the label after it. -/
def arithCode (op : AluOp) (signed : Bool) (l r : Reg) (L : ℕ) : CgCode :=
  if (op = .mod ∨ op = .div) ∧ signed then signedDivCode op l r L else [⟨0, .aluReg op l r⟩]

def arithLbl (op : AluOp) (signed : Bool) (L : ℕ) : ℕ := if (op = .mod ∨ op = .div) ∧ signed then L + 6 else L

lemma dtCgSignedDiv_eq (op : AluOp) (l r : Reg) (g : GState) :
    dtCgSignedDiv op l r g = some ((), signedDivCode op l r g.lbl, ⟨g.regs, g.lbl + 6⟩) := rfl

lemma arithCode_labels (op : AluOp) (signed : Bool) (l r : Reg) (L : ℕ) :
    Labels (arithCode op signed l r L) L (arithLbl op signed L) := by
  unfold arithCode arithLbl
  split
  · refine ⟨by omega, fun k hk => ?_⟩
    simp only [signedDivCode, labelCount_cons, labelCount_append, labelCount_plain hk, labelCount_nil, Ne.symm hk, if_false]
    split_ifs <;> omega
  · exact Labels.plain [.aluReg op l r] L

lemma arithmeticOp_binary (op : AluOp) (signed : Bool) : Binary (dtCgArithmeticOp op signed) 0 (fun _ _ => [])
    (fun a b _ g => arithCode op signed a b g.lbl ++ plain (freeCode g.regs b)) (arithLbl op signed) := by
  refine ⟨@fun left right S lbl q c g' h => ?_, fun L => (arithCode_labels op signed 0 0 L).le,
    @fun a b lbl g i _ hi => ?_⟩
  · unfold dtCgArithmeticOp at h
    obtain ⟨a, cl, g1, _, hl, h1, rfl⟩ := bind_eq_some.1 h
    obtain ⟨b, cr, g2, _, hr, h2, rfl⟩ := bind_eq_some.1 h1
    by_cases hdiv : (op = .mod ∨ op = .div) ∧ signed = true
    · rw [if_pos hdiv, bind_of_eq (dtCgSignedDiv_eq op a b g2)] at h2
      simp only [regFree_bind, pure_eq_some, exists_exists_and_eq_and] at h2
      obtain ⟨_, ⟨rfl, rfl, rfl⟩, rfl⟩ := h2
      exact ⟨cl, g1, b, cr, g2, hl, hr, by simp [arithCode, hdiv], by simp [arithLbl, hdiv]⟩
    · rw [if_neg hdiv] at h2
      simp only [emit_bind, regFree_bind, pure_eq_some, exists_exists_and_eq_and] at h2
      obtain ⟨_, ⟨rfl, rfl, rfl⟩, rfl⟩ := h2
      refine ⟨cl, g1, b, cr, g2, hl, hr, ?_, by simp only [arithLbl, hdiv, if_false]⟩
      simp only [arithCode, hdiv, if_false]
      simp
  · rw [labelCount_nil, labelCount_append, (arithCode_labels op signed a b g.lbl).count i hi, labelCount_plain hi]
    split_ifs <;> omega

/-- What the code of `/` and `%` computes on signed operands. -/
def signedDivVal (op : AluOp) (x y : Word) : Word :=
  if x.msb then (if y.msb then op.eval (-x) (-y) else -(op.eval (-x) y))
  else if y.msb then -(op.eval x (-y)) else op.eval x y

lemma jslt_zero (v : Word) : JmpOp.jslt.eval v ((imm 0).signExtend 64) = v.msb := by
  rw [imm_zero_signExtend, JmpOp.eval, BitVec.slt_zero_eq_msb]

lemma jsge_zero_msb (v : Word) : JmpOp.jsge.eval v ((imm 0).signExtend 64) = !v.msb := by
  rw [imm_zero_signExtend, JmpOp.eval, BitVec.sle_eq_not_slt, BitVec.slt_zero_eq_msb]

/-- The state after that code: the operands are made positive, and the result is made negative if their signs were
different. -/
def signedDivSt (op : AluOp) (l r : Reg) (s : St Func) : St Func :=
  let t := if (s.regs l).msb then s.setReg l (-s.regs l) else s
  let u := if (t.regs r).msb then t.setReg r (-t.regs r) else t
  let w := u.setReg l (op.eval (u.regs l) (u.regs r))
  if (s.regs l).msb = (t.regs r).msb then w else w.setReg l (-w.regs l)

lemma signedDivCode_runs (hP : LabelsNodup P) {op : AluOp} {l r : Reg} {L pc : ℕ} (hL : L ≠ 0) (hr : s.regs r ≠ 0#64)
    (hat : At P pc (signedDivCode op l r L)) : BpfRuns C P (pc, s) (pc + 21, signedDivSt op l r s) := by
  have node := fun i : Fin 21 => hat i i.isLt
  have hne : JmpOp.jne.eval (s.regs r) ((imm 0).signExtend 64) = true := by
    rw [imm_zero_signExtend]
    simpa [JmpOp.eval] using hr
  -- the two places where the operation is carried out
  have hsame (t : St Func) : BpfRuns C P (pc + 19, t) (pc + 21, t.setReg l (op.eval (t.regs l) (t.regs r))) :=
    aluReg (node 19) rfl <| .next (node 20) rfl <| .refl _
  have hdiff (t : St Func) : BpfRuns C P (pc + 13, t) (pc + 21, (t.setReg l (op.eval (t.regs l) (t.regs r))).setReg l
      (-(t.setReg l (op.eval (t.regs l) (t.regs r))).regs l)) :=
    aluReg (node 13) rfl <| .next (node 14) rfl <|
      BpfRuns.jump (node 15) (labelPos_of_getElem? hP (by omega) (node 20) rfl) <| .next (node 20) rfl <| .refl _
  refine branchImm_taken (node 0) hne (labelPos_of_getElem? hP (by omega) (node 8) rfl) <| .next (node 8) rfl ?_
  unfold signedDivSt
  cases hx : (s.regs l).msb with
  | false =>
    refine branchImm_skip (node 9) (by rw [jslt_zero, hx]) ?_
    cases hy : (s.regs r).msb with
    | false =>
      simp only [hy, Bool.false_eq_true, if_false, if_true]
      exact branchImm_skip (node 10) (by rw [jslt_zero, hy]) <|
        BpfRuns.jump (node 11) (labelPos_of_getElem? hP (by omega) (node 19) rfl) <| hsame s
    | true =>
      simp only [hy, Bool.false_eq_true, if_false, if_true]
      exact branchImm_taken (node 10) (by rw [jslt_zero, hy]) (labelPos_of_getElem? hP hL (node 12) rfl) <|
        .next (node 12) rfl <| hdiff _
  | true =>
    refine branchImm_taken (node 9) (by rw [jslt_zero, hx]) (labelPos_of_getElem? hP (by omega) (node 16) rfl) <|
      .next (node 16) rfl ?_
    cases hy : ((s.setReg l (-s.regs l)).regs r).msb with
    | false =>
      simp only [hy, Bool.true_eq_false, if_false, if_true]
      exact branchImm_taken (node 17) (by rw [jsge_zero_msb, hy]; rfl)
        (labelPos_of_getElem? hP (by omega) (node 13) rfl) <| hdiff _
    | true =>
      simp only [hy, if_true]
      exact branchImm_skip (node 17) (by rw [jsge_zero_msb, hy]; rfl) <| .next (node 18) rfl <| hsame _

lemma signedDivCode_does (hP : LabelsNodup P) (op : AluOp) (l r : Reg) {L : ℕ} (hL : L ≠ 0)
    (hr : s.regs r ≠ 0#64) : ∃ s', Does (exec C) P (signedDivCode op l r L) s s' ∧ St.Only [l, r] s s' ∧
      (l ≠ r → s'.regs l = signedDivVal op (s.regs l) (s.regs r)) := by
  refine ⟨signedDivSt op l r s, fun pc hat => signedDivCode_runs hP hL hr hat, ?_, fun hlr => ?_⟩
  · have hs := St.Only.refl [l, r] s
    unfold signedDivSt
    dsimp only
    split_ifs
    all_goals repeat first | exact hs | refine St.Only.setReg ?_
  · cases hx : (s.regs l).msb <;> cases hy : (s.regs r).msb <;>
      simp [signedDivSt, signedDivVal, hx, hy, hlr, Ne.symm hlr]

lemma HoldBoth.only {a b : Reg} {s s' s'' : St Func} (h : HoldBoth S a b vl vr m s s') (ho : St.Only [a, b] s' s'') :
    HoldBoth S a b (if a = b then vl else s''.regs a) (s''.regs b) m s s'' := by
  refine ⟨rfl, fun hab => by rw [if_neg hab], fun hab => ?_, fun x hx hxa hxb => ?_, fun ha => ?_, fun hb hba => ?_,
    fun x hx => ?_, ?_, ho.mem.trans h.mem⟩
  · rw [ho.stk, h.leftSaved hab, if_pos hab]
  · rw [ho.regs x (by simp [hxa, hxb]), h.kept x hx hxa hxb]
  · rw [ho.stk, h.savedLeft ha]
  · rw [ho.stk, h.savedRight hb hba]
  · rw [ho.stk, h.slots x hx]
  · rw [ho.stk, h.dctx]

lemma HoldBoth.result {a b : Reg} {s s' s'' : St Func} (h : HoldBoth S a b vl vr m s s') (ho : St.Only [a, b] s' s'')
    (hb : Picks (S.claim a) b) (hv : a ≠ b → s''.regs a = v) : ∃ t, Does (exec C) P
      (plain (freeCode ((S.claim a).claim b) b)) s'' t ∧ Holds S a (if a = b then vl else v) m s t := by
  obtain ⟨t, hrun, ht⟩ := (h.only ho).freeRight hb
  refine ⟨t, .block hrun, ?_⟩
  split
  · next hab => rwa [if_pos hab] at ht
  · next hab => rwa [if_neg hab, hv hab] at ht

/-- What an arithmetic operator computes from two values. -/
def arithVal (op : AluOp) (signed : Bool) (x y : Word) : Word :=
  if (op = .mod ∨ op = .div) ∧ signed then signedDivVal op x y else op.eval x y

theorem arithmeticOp_rightAt {op : AluOp} {signed : Bool} (h : Both C S d m left right vl m₁ vr m₂)
    (hzero : (op = .mod ∨ op = .div) ∧ signed → vr ≠ 0#64)
    (hval : ∀ a b, S.pick = some a → (S.claim a).pick = some b →
      (if a = b then vl else arithVal op signed vl vr) = v) :
    RightAt C (dtCgArithmeticOp op signed left right) S d m v m₂ := by
  refine (arithmeticOp_binary op signed).rightAt h (fun _ _ hs => nothing_does hs) ?_
  intro P lbl L a b s s2 hP _ hL hpicka hpickb hs2
  obtain ⟨s3, hrun3, honly, hres⟩ : ∃ s3, Does (exec C) P (arithCode op signed a b L) s2 s3 ∧
      St.Only [a, b] s2 s3 ∧ (a ≠ b → s3.regs a = arithVal op signed vl vr) := by
    unfold arithCode arithVal
    split
    · next hdiv =>
      obtain ⟨s3, hrun3, honly, hres⟩ := signedDivCode_does hP op a b hL (by rw [hs2.right]; exact hzero hdiv)
      exact ⟨s3, hrun3, honly, fun hab => by rw [hres hab, hs2.left hab, hs2.right]⟩
    · refine ⟨s2.setReg a (op.eval (s2.regs a) (s2.regs b)), .cons rfl (.nil _),
        (St.Only.refl _ s2).setReg, fun hab => ?_⟩
      rw [setReg_regs_self, hs2.left hab, hs2.right]
  obtain ⟨s4, hrun4, hs4⟩ := hs2.result honly (pick_picks hpickb) hres
  rw [hval a b hpicka hpickb] at hs4
  exact ⟨s4, hrun3.append hrun4, hs4⟩

/-! ## Logical xor -/

/-- The code that replaces a number by its truth value. -/
def boolCode (reg : Reg) (lbl : ℕ) : CgCode :=
  [⟨0, .branchImm .jeq reg (imm 0) lbl⟩, ⟨0, dtCgSetx reg 1⟩, ⟨lbl, .nop⟩]

/-- The end of `dt_cg_logical_xor`. -/
def lxorTail (l r : Reg) (lbl : ℕ) : CgCode :=
  [⟨0, .branchImm .jeq r (imm 0) lbl⟩, ⟨0, dtCgSetx r 1⟩, ⟨lbl, .aluReg .xor l r⟩]

lemma logicalXor_binary : Binary dtCgLogicalXor 2 boolCode
    (fun a b lbl g => lxorTail a b (lbl + 1) ++ plain (freeCode g.regs b)) id := by
  refine ⟨fun h => ?_, fun _ => le_rfl, fun hle hi => ?_⟩
  · simp only [dtCgLogicalXor, dtIrlistLabel_bind] at h
    obtain ⟨a, cl, g1, _, hl, h1, rfl⟩ := bind_eq_some.1 h
    simp only [emit_bind, emitl_bind, exists_exists_and_eq_and] at h1
    obtain ⟨_, h2, rfl⟩ := h1
    obtain ⟨b, cr, g2, _, hr, h3, rfl⟩ := bind_eq_some.1 h2
    simp only [emit_bind, emitl_bind, regFree_bind, pure_eq_some, exists_exists_and_eq_and] at h3
    obtain ⟨_, ⟨rfl, rfl, rfl⟩, rfl⟩ := h3
    exact ⟨cl, g1, b, cr, g2, hl, hr, by simp [boolCode, lxorTail], rfl⟩
  · simp only [labelCount_append, boolCode, lxorTail, labelCount_cons, labelCount_nil, labelCount_plain hi, Ne.symm hi,
      if_false]
    dsimp only [id]
    split_ifs <;> omega

lemma truth_does (hP : LabelsNodup P) (hlbl : lbl ≠ 0) {r : Reg} {i : CgInsn} {t : St Func}
    (hi : exec C i (s.setReg r (ofBool (s.regs r != 0#64))) = .next t) :
    Does (exec C) P [⟨0, .branchImm .jeq r (imm 0) lbl⟩, ⟨0, dtCgSetx r 1⟩, ⟨lbl, i⟩] s t := by
  by_cases hv : s.regs r = 0#64
  · have hself : s.setReg r (ofBool (s.regs r != 0#64)) = s := by
      have : ofBool (s.regs r != 0#64) = s.regs r := by rw [hv]; rfl
      rw [this, setReg_self]
    rw [hself] at hi
    have hskip : Does (exec C) P (⟨0, .branchImm .jeq r (imm 0) lbl⟩ :: ([⟨0, dtCgSetx r 1⟩] ++ [⟨lbl, i⟩])) s t :=
      .skip hP hlbl (by simp [exec, JmpOp.eval, hv]) (.cons hi (.nil _))
    exact hskip
  · have hb : (s.regs r == 0#64) = false := by simpa using hv
    rw [bne, hb] at hi
    exact .cons (by simp [exec, JmpOp.eval, hb]) (.cons rfl (.cons hi (.nil _)))

lemma boolCode_does (hP : LabelsNodup P) (hlbl : lbl ≠ 0) (reg : Reg) (s : St Func) :
    ∃ s', Does (exec C) P (boolCode reg lbl) s s' ∧ St.Only [reg] s s' ∧ s'.regs reg = ofBool (s.regs reg != 0#64) :=
  ⟨_, truth_does hP hlbl rfl, (St.Only.refl _ s).setReg, setReg_regs_self _ _ _⟩

lemma lxorTail_does (hP : LabelsNodup P) (hlbl : lbl ≠ 0) (l r : Reg) (s : St Func) :
    ∃ s', Does (exec C) P (lxorTail l r lbl) s s' ∧ St.Only [l, r] s s' ∧
      (l ≠ r → s'.regs l = s.regs l ^^^ ofBool (s.regs r != 0#64)) :=
  ⟨_, truth_does hP hlbl rfl, (St.Only.refl _ s).setReg.setReg, fun hlr => by simp [hlr, AluOp.eval]⟩

theorem logicalXor_rightAt (h : Both C S d m left right vl m₁ vr m₂)
    (hval : ∀ a b, S.pick = some a → (S.claim a).pick = some b →
      (if a = b then ofBool (vl != 0#64) else ofBool (vl != 0#64) ^^^ ofBool (vr != 0#64)) = v) :
    RightAt C (dtCgLogicalXor left right) S d m v m₂ := by
  refine logicalXor_binary.rightAt h (fun hP hlbl hs => hs ▸ boolCode_does hP hlbl _ _) ?_
  intro P lbl L a b s s2 hP _ _ hpicka hpickb hboth
  obtain ⟨_, hrun3, honly3, hval3⟩ := lxorTail_does hP (show lbl + 1 ≠ 0 by omega) a b s2
  obtain ⟨s4, hrun4, hs4⟩ := hboth.result honly3 (pick_picks hpickb) fun hab => by
    rw [hval3 hab, hboth.left hab, hboth.right]
  rw [hval a b hpicka hpickb] at hs4
  exact ⟨s4, hrun3.append hrun4, hs4⟩

end

end DTrace.Cg
