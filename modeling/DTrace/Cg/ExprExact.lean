import DTrace.Cg.ExprBranch

/-!
# When expressions are compiled rightly

* `dtCgNode_disciplined` — `dt_cg_node` keeps the register discipline, whatever is live;
* `Everywhere`, `Safe` — what has to hold of the operators of an expression, each with the registers it is compiled for
  and the values of its operands;
* `safe_rightAt` — then the code computes the value of the expression and keeps what is live;
* `compareOp_true_spilled`, `ternaryOp_spilled` — a true comparison loses the register its right operand took, and a
  conditional loses its result, or the register it took;
* `expr_code_right_iff` — the code of an expression and of its subexpressions is right exactly where they are safe.
-/

namespace DTrace.Cg

open Lib Bpf BitVec Option

/-! ## The operations -/

lemma jmp_eval (op : CmpOp) (signed : Bool) (x y : Word) : (op.jmp signed).eval x y = op.eval signed x y := by
  cases op <;> cases signed <;> rfl

/-- The code for signed operands computes the quotient, and the remainder with the sign of a negative divisor reversed. -/
lemma signedDivVal_div (x y : Word) : signedDivVal .div x y = x.sdiv y := by
  rw [sdiv_eq, signedDivVal]
  cases x.msb <;> cases y.msb <;> rfl

lemma signedDivVal_mod (x y : Word) : signedDivVal .mod x y = if y.msb then -(x.srem y) else x.srem y := by
  rw [srem_eq, signedDivVal]
  cases x.msb <;> cases y.msb <;> simp [AluOp.eval]

lemma srem_eq_neg_iff {x y : Word} (hy : y.msb = true) : -(x.srem y) = x.srem y ↔ x.srem y = 0#64 := by
  have hy' : (-y).toNat ≤ 2 ^ 63 ∧ 0 < (-y).toNat := by
    have := msb_eq_decide y
    rw [hy] at this
    have := of_decide_eq_true this.symm
    rw [toNat_neg]
    omega
  have key : ∀ z : Word, -(z % -y) = z % -y ↔ z % -y = 0#64 := fun z => by
    have hlt : (z % -y).toNat < 2 ^ 63 := by
      rw [toNat_umod]
      exact lt_of_lt_of_le (Nat.mod_lt _ hy'.2) hy'.1
    constructor
    · intro h
      have := congrArg BitVec.toNat h
      rw [toNat_neg] at this
      apply eq_of_toNat_eq
      simp only [toNat_ofNat]
      omega
    · intro h
      rw [h]
      rfl
  rw [srem_eq, hy]
  cases x.msb with
  | false => exact key x
  | true =>
    have h : -((-x) % -y) = 0#64 ↔ (-x) % -y = 0#64 := by
      conv_lhs => rw [← neg_zero, BitVec.neg_inj]
    exact (BitVec.neg_inj.trans (key (-x))).trans h.symm

variable {signed : Bool} {op : ArithOp} {v : Word}

lemma arithVal_eq_iff {x y : Word} (h : op.eval signed x y = some v) :
    arithVal (op.alu signed) signed x y = v ↔ (op = .mod ∧ signed = true ∧ y.msb = true → v = 0#64) := by
  cases op with
  | div =>
    obtain ⟨-, h⟩ := ite_none_left_eq_some.1 h
    cases signed with
    | false => simpa [arithVal, ArithOp.alu, AluOp.eval] using h
    | true => simpa [arithVal, ArithOp.alu, signedDivVal_div] using h
  | mod =>
    obtain ⟨-, h⟩ := ite_none_left_eq_some.1 h
    cases signed with
    | false => simpa [arithVal, ArithOp.alu, AluOp.eval] using h
    | true =>
      obtain rfl : x.srem y = v := by simpa using h
      cases hy : y.msb with
      | false => simp [arithVal, ArithOp.alu, signedDivVal_mod, hy]
      | true => simpa [arithVal, ArithOp.alu, signedDivVal_mod, hy] using srem_eq_neg_iff hy
  | rsh => cases signed <;> simpa [arithVal, ArithOp.alu, AluOp.eval, ArithOp.eval] using h
  | _ => simpa [arithVal, ArithOp.alu, AluOp.eval, ArithOp.eval] using h

lemma divisor_ne_zero {x y : Word} (h : op.eval signed x y = some v)
    (hop : (op.alu signed = .mod ∨ op.alu signed = .div) ∧ signed = true) : y ≠ 0#64 := by
  rintro rfl
  cases op <;> cases signed <;> simp [ArithOp.alu, ArithOp.eval] at hop h

/-! ## The discipline -/

variable {C : Callee Func} {pcb : Pcb} {S : Regset} {d : Word} {a : Reg}

section

lemma claim_spilled_zero (h0 : S.spilled 0 = false) (ha : S.pick = some a) : (S.claim a).spilled 0 = false := by
  rw [claim_spilled_ne S (Ne.symm (pick_picks ha).ne_zero), h0]

/-- Every expression is compiled with the register discipline, whatever is live. -/
theorem dtCgNode_disciplined (pcb : Pcb) (e : Expr) (h0 : S.spilled 0 = false) : Disciplined (dtCgNode pcb e) S := by
  induction e generalizing S with
  | int value => exact Leaf.disciplined (dtCgInt_leaf value) S
  | var v => exact dtCgLoadVar_disciplined pcb v h0
  | lneg e ih => exact dtCgLogicalNeg_disciplined (ih h0)
  | bneg e ih => exact unaryOp_disciplined (ih h0)
  | ipos e ih => exact ih h0
  | ineg e ih => exact unaryOp_disciplined (ih h0)
  | arith op signed l r ihl ihr =>
    exact (arithmeticOp_binary _ _).disciplined (ihl h0) fun a ha => ihr (claim_spilled_zero h0 ha)
  | cmp op signed l r ihl ihr => exact (compareOp_binary _).disciplined (ihl h0) fun a ha => ihr (claim_spilled_zero h0 ha)
  | land l r ihl ihr => exact (logicalAnd_shortCircuit idleCallee).disciplined (ihl h0) (ihr h0)
  | lxor l r ihl ihr => exact logicalXor_binary.disciplined (ihl h0) fun a ha => ihr (claim_spilled_zero h0 ha)
  | lor l r ihl ihr => exact (logicalOr_shortCircuit idleCallee).disciplined (ihl h0) (ihr h0)
  | cond e l r ihe ihl ihr => exact dtCgTernaryOp_disciplined (ihe h0) (ihl h0) (ihr h0)

lemma both_of_rightAt {l r : Expr} {m m₁ m₂ : Mem} {vl vr : Word} (h0 : S.spilled 0 = false)
    (hl : RightAt C (dtCgNode pcb l) S d m vl m₁)
    (hr : ∀ a, S.pick = some a → RightAt C (dtCgNode pcb r) (S.claim a) d m₁ vr m₂) :
    Both C S d m (dtCgNode pcb l) (dtCgNode pcb r) vl m₁ vr m₂ :=
  ⟨⟨dtCgNode_disciplined pcb l h0, hl, hr⟩, fun _ ha => dtCgNode_disciplined pcb r (claim_spilled_zero h0 ha)⟩

end

/-! ## Where the code is right -/

section

variable (C : Callee Func) (pcb : Pcb) (d : Word)

/-- `p` holds of the expression and of each of its subexpressions that is evaluated, with the register set the
subexpression is compiled for and the memory it is evaluated in. -/
def Everywhere (p : Expr → Regset → Mem → Prop) : Expr → Regset → Mem → Prop
  | .int value, S, m => p (.int value) S m
  | .var v, S, m => p (.var v) S m
  | .lneg e, S, m => Everywhere p e S m ∧ p (.lneg e) S m
  | .bneg e, S, m => Everywhere p e S m ∧ p (.bneg e) S m
  | .ipos e, S, m => Everywhere p e S m ∧ p (.ipos e) S m
  | .ineg e, S, m => Everywhere p e S m ∧ p (.ineg e) S m
  | .arith op signed l r, S, m =>
    (Everywhere p l S m ∧ ∀ a vl m₁, S.pick = some a → l.eval C pcb d m = some (vl, m₁) →
      Everywhere p r (S.claim a) m₁) ∧ p (.arith op signed l r) S m
  | .cmp op signed l r, S, m =>
    (Everywhere p l S m ∧ ∀ a vl m₁, S.pick = some a → l.eval C pcb d m = some (vl, m₁) →
      Everywhere p r (S.claim a) m₁) ∧ p (.cmp op signed l r) S m
  | .lxor l r, S, m =>
    (Everywhere p l S m ∧ ∀ a vl m₁, S.pick = some a → l.eval C pcb d m = some (vl, m₁) →
      Everywhere p r (S.claim a) m₁) ∧ p (.lxor l r) S m
  | .land l r, S, m =>
    (Everywhere p l S m ∧ ∀ vl m₁, l.eval C pcb d m = some (vl, m₁) → vl ≠ 0#64 → Everywhere p r S m₁) ∧
      p (.land l r) S m
  | .lor l r, S, m =>
    (Everywhere p l S m ∧ ∀ m₁, l.eval C pcb d m = some (0#64, m₁) → Everywhere p r S m₁) ∧ p (.lor l r) S m
  | .cond e l r, S, m =>
    (Everywhere p e S m ∧ (∀ v m₁, e.eval C pcb d m = some (v, m₁) → v ≠ 0#64 → Everywhere p l S m₁) ∧
      ∀ m₁, e.eval C pcb d m = some (0#64, m₁) → Everywhere p r S m₁) ∧ p (.cond e l r) S m

/-- What the code of a variable reads is the variable, and the register allocation and the operands do not meet one of the
cases in which the code of an operator is wrong. -/
def Safe : Expr → Regset → Mem → Prop
  | .var x, _, m => x.read.eval C pcb d m = x.eval C pcb d m
  | .arith op signed l r, S, m => ∀ a b vl m₁ vr m₂ v, S.pick = some a → (S.claim a).pick = some b →
    l.eval C pcb d m = some (vl, m₁) → r.eval C pcb d m₁ = some (vr, m₂) → op.eval signed vl vr = some v →
      if a = b then vl = v else op = .mod ∧ signed = true ∧ vr.msb = true → v = 0#64
  | .cmp op signed l r, S, m => ∀ a b vl m₁ vr m₂, S.pick = some a → (S.claim a).pick = some b →
    l.eval C pcb d m = some (vl, m₁) → r.eval C pcb d m₁ = some (vr, m₂) →
      if a = b then op.eval signed vr vr = op.eval signed vl vr else S.active b = true → op.eval signed vl vr = false
  | .lxor l r, S, m => ∀ a b vl m₁ vr m₂, S.pick = some a → (S.claim a).pick = some b →
    l.eval C pcb d m = some (vl, m₁) → r.eval C pcb d m₁ = some (vr, m₂) → a = b → vr = 0#64
  | .cond e l r, S, m => (Expr.cond e l r).eval C pcb d m ≠ none → ∀ a, S.pick = some a → S.active a = false
  | _, _, _ => True

end

variable {e : Expr}

section

variable {m m' : Mem}

lemma ofBool_xor (x y : Bool) : ofBool x ^^^ ofBool y = ofBool (x != y) := by
  cases x <;> cases y <;> rfl

lemma ofBool_inj {x y : Bool} : ofBool x = ofBool y ↔ x = y := by
  cases x <;> cases y <;> decide

/-- The code of an expression is right if no operator in it meets one of those cases. -/
theorem safe_rightAt (hC : Respects C) (h0 : S.spilled 0 = false) (h : Everywhere C pcb d (Safe C pcb d) e S m)
    (hv : e.eval C pcb d m = some (v, m')) : RightAt C (dtCgNode pcb e) S d m v m' := by
  induction e generalizing S m v m' with
  | int value =>
    cases hv
    exact dtCgInt_rightAt value d m
  | var x => exact dtCgLoadVar_rightAt hC pcb x h0 (Eq.trans h hv)
  | lneg e ih =>
    obtain ⟨⟨w, m₁⟩, hw, hv⟩ := map_eq_some_iff.1 hv
    cases hv
    exact logicalNeg_rightAt (ih h0 h.1 hw)
  | bneg e ih =>
    obtain ⟨⟨w, m₁⟩, hw, hv⟩ := map_eq_some_iff.1 hv
    cases hv
    refine unaryOp_rightAt (fun r s => ?_) (ih h0 h.1 hw)
    simp only [exec, AluOp.eval, immNegOne_signExtend]
    rw [show -1#64 = allOnes 64 by decide, xor_allOnes]
  | ipos e ih => exact ih h0 h.1 hv
  | ineg e ih =>
    obtain ⟨⟨w, m₁⟩, hw, hv⟩ := map_eq_some_iff.1 hv
    cases hv
    exact unaryOp_rightAt (fun r s => rfl) (ih h0 h.1 hw)
  | arith op signed l r ihl ihr =>
    obtain ⟨⟨vl, m₁⟩, hl, hv⟩ := bind_eq_some_iff.1 hv
    obtain ⟨⟨vr, m₂⟩, hr, hv⟩ := bind_eq_some_iff.1 hv
    obtain ⟨w, hw, hv⟩ := map_eq_some_iff.1 hv
    obtain ⟨rfl, rfl⟩ := Prod.mk.inj hv
    refine arithmeticOp_rightAt (both_of_rightAt h0 (ihl h0 h.1.1 hl)
      fun a ha => ihr (claim_spilled_zero h0 ha) (h.1.2 a vl m₁ ha hl) hr) (divisor_ne_zero hw) fun a b ha hb => ?_
    have hsafe := h.2 a b vl m₁ vr m₂ w ha hb hl hr hw
    split at hsafe
    · next hab => rw [if_pos hab, hsafe]
    · next hab => rw [if_neg hab, arithVal_eq_iff hw]; exact hsafe
  | cmp op signed l r ihl ihr =>
    obtain ⟨⟨vl, m₁⟩, hl, hv⟩ := bind_eq_some_iff.1 hv
    obtain ⟨⟨vr, m₂⟩, hr, hv⟩ := map_eq_some_iff.1 hv
    obtain ⟨rfl, rfl⟩ := Prod.mk.inj hv
    refine compareOp_rightAt (both_of_rightAt h0 (ihl h0 h.1.1 hl)
      fun a ha => ihr (claim_spilled_zero h0 ha) (h.1.2 a vl m₁ ha hl) hr) fun a b ha hb => ?_
    have hsafe := h.2 a b vl m₁ vr m₂ ha hb hl hr
    simp only [compareVal, jmp_eval]
    split at hsafe
    · next hab => exact ⟨by rw [if_pos hab, hsafe], .inl hab⟩
    · next hab =>
      refine ⟨by rw [if_neg hab], .inr ?_⟩
      cases hact : S.active b with
      | false => exact .inl rfl
      | true => exact .inr (hsafe hact)
  | lxor l r ihl ihr =>
    obtain ⟨⟨vl, m₁⟩, hl, hv⟩ := bind_eq_some_iff.1 hv
    obtain ⟨⟨vr, m₂⟩, hr, hv⟩ := map_eq_some_iff.1 hv
    obtain ⟨rfl, rfl⟩ := Prod.mk.inj hv
    refine logicalXor_rightAt (both_of_rightAt h0 (ihl h0 h.1.1 hl)
      fun a ha => ihr (claim_spilled_zero h0 ha) (h.1.2 a vl m₁ ha hl) hr) fun a b ha hb => ?_
    split
    · next hab =>
      rw [h.2 a b vl m₁ vr m₂ ha hb hl hr hab]
      simp
    · exact ofBool_xor _ _
  | land l r ihl ihr =>
    obtain ⟨⟨vl, m₁⟩, hl, hv⟩ := bind_eq_some_iff.1 hv
    have hld := dtCgNode_disciplined pcb l h0
    by_cases hz : vl = 0#64
    · subst hz
      cases hv
      exact (logicalAnd_shortCircuit C).rightAt_decided hld (dtCgNode_disciplined pcb r h0) (ihl h0 h.1.1 hl) rfl
    · simp only [if_neg hz] at hv
      obtain ⟨⟨vr, m₂⟩, hr, hv⟩ := map_eq_some_iff.1 hv
      cases hv
      exact (logicalAnd_shortCircuit C).rightAt_undecided hld (ihl h0 h.1.1 hl) (by simpa [JmpOp.eval] using hz)
        (ihr h0 (h.1.2 vl m₁ hl hz) hr)
  | lor l r ihl ihr =>
    obtain ⟨⟨vl, m₁⟩, hl, hv⟩ := bind_eq_some_iff.1 hv
    have hld := dtCgNode_disciplined pcb l h0
    by_cases hz : vl = 0#64
    · subst hz
      obtain ⟨⟨_, _⟩, hr, hv⟩ := map_eq_some_iff.1 hv
      cases hv
      exact (logicalOr_shortCircuit C).rightAt_undecided hld (ihl h0 h.1.1 hl) rfl (ihr h0 (h.1.2 m₁ hl) hr)
    · simp only [if_neg hz] at hv
      cases hv
      exact (logicalOr_shortCircuit C).rightAt_decided hld (dtCgNode_disciplined pcb r h0) (ihl h0 h.1.1 hl)
        (by simpa [JmpOp.eval] using hz)
  | cond e l r ihe ihl ihr =>
    have hfree := h.2 (by rw [hv]; exact some_ne_none _)
    obtain ⟨⟨w, m₁⟩, he, hv⟩ := bind_eq_some_iff.1 hv
    have hed := dtCgNode_disciplined pcb e h0
    have hld := dtCgNode_disciplined pcb l h0
    have hrd := dtCgNode_disciplined pcb r h0
    by_cases hz : w = 0#64
    · subst hz
      exact ternaryOp_false hed hld hrd hfree (ihe h0 h.1.1 he) (ihr h0 (h.1.2.2 m₁ he) hv)
    · simp only [if_neg hz] at hv
      exact ternaryOp_true hed hld hrd hfree (ihe h0 h.1.1 he) hz (ihl h0 (h.1.2.1 w m₁ he hz) hv)

end

/-! ## Where it is not -/

variable {m₁ : Mem}

section

variable {vl vr : Word} {m m₂ : Mem} {l r : Expr}

lemma eval_arith (hl : l.eval C pcb d m = some (vl, m₁)) (hr : r.eval C pcb d m₁ = some (vr, m₂))
    (hv : op.eval signed vl vr = some v) : (Expr.arith op signed l r).eval C pcb d m = some (v, m₂) := by
  simp [Expr.eval, hl, hr, hv]

lemma eval_cmp {op : CmpOp} (hl : l.eval C pcb d m = some (vl, m₁)) (hr : r.eval C pcb d m₁ = some (vr, m₂)) :
    (Expr.cmp op signed l r).eval C pcb d m = some (ofBool (op.eval signed vl vr), m₂) := by
  simp [Expr.eval, hl, hr]

lemma eval_lxor (hl : l.eval C pcb d m = some (vl, m₁)) (hr : r.eval C pcb d m₁ = some (vr, m₂)) :
    (Expr.lxor l r).eval C pcb d m = some (ofBool ((vl != 0#64) != (vr != 0#64)), m₂) := by
  simp [Expr.eval, hl, hr]

end

section

variable (C : Callee Func) (pcb : Pcb) (d : Word)

def Compiles (e : Expr) (S : Regset) : Prop := ∃ lbl, lbl ≠ 0 ∧ ∃ r c g', dtCgNode pcb e ⟨S, lbl⟩ = some (r, c, g')

/-- If the expression has a value, its code leaves it in the result register, and once that is freed every register that
was live holds its old value. -/
def Delivers (e : Expr) (S : Regset) (m : Mem) : Prop :=
  ∀ v m', e.eval C pcb d m = some (v, m') → ∀ lbl, lbl ≠ 0 → ∀ r c g', dtCgNode pcb e ⟨S, lbl⟩ = some (r, c, g') →
    ∀ P, LabelsNodup P → ∀ s : St Func, s.stk dtStkDctx = d → s.mem = m →
      ∃ s' s'', Does (exec C) P c s s' ∧ s'.regs r = v ∧ execBlock (exec C) (freeCode g'.regs r) s' = some s'' ∧
        ∀ q, S.active q = true → s''.regs q = s.regs q

end

section

variable {m m' : Mem} {w : Word}

lemma delivers_of_rightAt (h0 : S.spilled 0 = false)
    (h : ∀ v m', e.eval C pcb d m = some (v, m') → RightAt C (dtCgNode pcb e) S d m v m') : Delivers C pcb d e S m := by
  intro v m' hv lbl hlbl r c g' hgen P hP s hd hm
  have he := dtCgNode_disciplined pcb e h0
  obtain ⟨s', hrun, hs'⟩ := h v m' hv lbl hlbl r c g' hgen P hP s hd hm
  obtain ⟨s'', hfree, hs''⟩ := hs'.free (pick_picks (he.picked hgen)).unspilled
  rw [← he.regs hgen] at hfree
  exact ⟨s', s'', hrun, hs'.value, hfree, hs''.regs⟩

lemma Delivers.value_eq (h : Delivers C pcb d e S m) (h0 : S.spilled 0 = false) (hc : Compiles pcb e S)
    (hv : e.eval C pcb d m = some (v, m')) {m'' : Mem} (hw : RightAt C (dtCgNode pcb e) S d m w m'') : w = v := by
  obtain ⟨lbl, hlbl, r, c, g', hgen⟩ := hc
  have hnd := ((dtCgNode_disciplined pcb e h0).labels hgen).nodup
  let s : St Func := ⟨fun _ => 0, fun _ => d, m, []⟩
  obtain ⟨_, -, hd1, hs1, -⟩ := h v m' hv lbl hlbl r c g' hgen c hnd s rfl rfl
  obtain ⟨_, hd2, hs2⟩ := hw lbl hlbl r c g' hgen c hnd s rfl rfl
  obtain rfl := hd1.unique hd2
  rw [← hs1, hs2.value]

variable {l r : Expr}

theorem compareOp_true_spilled {op : CmpOp} {vl vr : Word} {m₂ : Mem} {b : Reg}
    (h : Both C S d m (dtCgNode pcb l) (dtCgNode pcb r) vl m₁ vr m₂) (h0 : S.spilled 0 = false)
    (hc : Compiles pcb (.cmp op signed l r) S) (ha : S.pick = some a) (hb : (S.claim a).pick = some b) (hab : a ≠ b)
    (hl : l.eval C pcb d m = some (vl, m₁)) (hr : r.eval C pcb d m₁ = some (vr, m₂)) (hact : S.active b = true)
    (hop : op.eval signed vl vr = true) : ¬ Delivers C pcb d (.cmp op signed l r) S m := by
  intro hdel
  obtain ⟨lbl, hlbl, q, c, g', hgen⟩ := hc
  have hdis := dtCgNode_disciplined pcb (.cmp op signed l r) h0
  have hnd := (hdis.labels hgen).nodup
  -- a value of the live register that differs from the right operand
  let s : St Func := ⟨fun _ => vr + 1#64, fun _ => d, m, []⟩
  obtain ⟨_, s'', hrun, -, hfree, hkept⟩ := hdel _ m₂ (eval_cmp hl hr) lbl hlbl q c g' hgen c hnd s rfl rfl
  rw [hdis.regs hgen, freeCode_claim (pick_picks (hdis.picked hgen)).unspilled] at hfree
  obtain ⟨_, _, _, _, _, _, _, _, h1, h2, h3, rfl, rfl, -⟩ := dtCgCompareOp_shape hgen
  cases h3
  obtain ⟨ha', hb', -⟩ := h.gen h1 h2
  obtain rfl := mem_unique ha ha'
  obtain rfl := mem_unique hb hb'
  obtain ⟨_, s2, hrun1, hrun2, -, hs2⟩ := h.run (s := s) (by omega) h1 h2 hnd rfl rfl
  have hop' : (op.jmp signed).eval (s2.regs a) (s2.regs b) = true := by
    rw [hs2.left hab, hs2.right, jmp_eval, hop]
  obtain rfl := hrun.unique (hrun1.append (hrun2.append (compareTail_true hnd hlbl hop')))
  have hb' : s''.regs b = vr := by
    rw [execBlock_release] at hfree
    cases hfree
    rw [afterRelease_regs_ne S _ (Ne.symm hab), setReg_regs_ne _ _ (Ne.symm hab), hs2.right]
  have hlive : vr = vr + 1#64 := hb'.symm.trans (hkept b hact)
  simp at hlive

/-- A conditional whose register was in use is never right: where the condition holds, the result is overwritten by the
register's old value; where it does not, the old value is lost. -/
theorem ternaryOp_spilled (h0 : S.spilled 0 = false) (hc : Compiles pcb (.cond e l r) S) (ha : S.pick = some a)
    (hact : S.active a = true) (he : e.eval C pcb d m = some (w, m₁)) (hre : RightAt C (dtCgNode pcb e) S d m w m₁)
    (hl : w ≠ 0#64 → RightAt C (dtCgNode pcb l) S d m₁ v m') (hr : w = 0#64 → RightAt C (dtCgNode pcb r) S d m₁ v m')
    (hv : (Expr.cond e l r).eval C pcb d m = some (v, m')) : ¬ Delivers C pcb d (.cond e l r) S m := by
  intro hdel
  obtain ⟨lbl, hlbl, q, c, g', hgen⟩ := hc
  have hed := dtCgNode_disciplined pcb e h0
  have hld := dtCgNode_disciplined pcb l h0
  have hrd := dtCgNode_disciplined pcb r h0
  have hdis := dtCgNode_disciplined pcb (.cond e l r) h0
  have hnd := (hdis.labels hgen).nodup
  obtain rfl := mem_unique ha (hdis.picked hgen)
  by_cases hw : w = 0#64
  · subst hw
    let s : St Func := ⟨fun _ => 1#64, fun _ => d, m, []⟩
    obtain ⟨s', _, hrun, -, hfree, hkept⟩ := hdel v m' hv lbl hlbl a c g' hgen c hnd s rfl rfl
    obtain ⟨s1, _, hrun', hs1, hs2⟩ := ternaryOp_false_run hed hld hrd hre (hr rfl) hlbl hgen hnd (s := s) rfl rfl
    obtain rfl := hrun.unique hrun'
    rw [hdis.regs hgen, freeCode_claim (pick_picks ha).unspilled, execBlock_release] at hfree
    cases hfree
    have hlive := hkept a hact
    rw [afterRelease, if_pos hact, setReg_regs_self, hs2.saved hact, hs1.value] at hlive
    cases hlive
  · let s : St Func := ⟨fun _ => v + 1#64, fun _ => d, m, []⟩
    obtain ⟨_, -, hrun, hval, -, -⟩ := hdel v m' hv lbl hlbl a c g' hgen c hnd s rfl rfl
    obtain ⟨_, hrun', hs1, -⟩ := ternaryOp_true_run hed hld hrd hre hw (hl hw) hgen hnd (s := s) rfl rfl
    obtain rfl := hrun.unique hrun'
    have hlive : v = v + 1#64 := hval.symm.trans (hs1.regs a hact)
    simp at hlive

/-! ### Operands compile -/

lemma Compiles.of_lneg (h : Compiles pcb (.lneg e) S) : Compiles pcb e S := by
  obtain ⟨_, -, r, c, g', hgen⟩ := h
  obtain ⟨c1, h1, -⟩ := dtCgLogicalNeg_shape hgen
  exact ⟨_, by omega, r, c1, g', h1⟩

lemma Compiles.of_unary {i : Reg → CgInsn} {f : Expr → Expr}
    (hf : dtCgNode pcb (f e) = unaryOp i (dtCgNode pcb e)) (h : Compiles pcb (f e) S) : Compiles pcb e S := by
  obtain ⟨lbl, hlbl, r, c, g', hgen⟩ := h
  rw [hf] at hgen
  obtain ⟨c1, h1, -⟩ := unaryOp_shape hgen
  exact ⟨lbl, hlbl, r, c1, g', h1⟩

def BothCompile (pcb : Pcb) (l r : Expr) (S : Regset) : Prop :=
  Compiles pcb l S ∧ ∀ a, S.pick = some a → Compiles pcb r (S.claim a)

variable {f : Gen Reg → Gen Reg → Gen Reg}

lemma Compiles.of_binary {k : ℕ} {pre : Reg → ℕ → CgCode} {post : Reg → Reg → ℕ → GState → CgCode} {next : ℕ → ℕ}
    (hf : Binary f k pre post next) (he : dtCgNode pcb e = f (dtCgNode pcb l) (dtCgNode pcb r))
    (h0 : S.spilled 0 = false) (h : Compiles pcb e S) : BothCompile pcb l r S := by
  obtain ⟨_, hlbl, q, c, _, hgen⟩ := h
  rw [he] at hgen
  obtain ⟨cl, g1, b, cr, g2, h1, h2, -⟩ := hf.shape hgen
  have hld := dtCgNode_disciplined pcb l h0
  have hle := (hld.labels h1).le
  refine ⟨⟨_, by omega, q, cl, g1, h1⟩, fun a ha => ?_⟩
  obtain rfl := mem_unique ha (hld.picked h1)
  rw [← hld.regs h1]
  exact ⟨g1.lbl, by omega, b, cr, g2, h2⟩

lemma eachCompiles_of_gen {lbl : ℕ} {b : Reg} {cl cr : CgCode} {g1 g2 : GState} (h0 : S.spilled 0 = false)
    (hlbl : lbl ≠ 0) (h1 : dtCgNode pcb l ⟨S, lbl⟩ = some (a, cl, g1))
    (h2 : dtCgNode pcb r ⟨g1.regs.release a, g1.lbl⟩ = some (b, cr, g2)) : Compiles pcb l S ∧ Compiles pcb r S := by
  have hld := dtCgNode_disciplined pcb l h0
  have hle := (hld.labels h1).le
  rw [hld.release h1] at h2
  exact ⟨⟨lbl, hlbl, a, cl, g1, h1⟩, g1.lbl, by omega, b, cr, g2, h2⟩

lemma Compiles.of_shortCircuit {op : JmpOp} {k : ℕ} {test fin : Reg → ℕ → CgCode} {w : Word}
    (hf : ShortCircuit C f op k test fin w) (he : dtCgNode pcb e = f (dtCgNode pcb l) (dtCgNode pcb r))
    (h0 : S.spilled 0 = false) (h : Compiles pcb e S) : Compiles pcb l S ∧ Compiles pcb r S := by
  obtain ⟨_, hlbl, q, c, _, hgen⟩ := h
  rw [he] at hgen
  obtain ⟨a, _, _, _, h1, h2, -⟩ := hf.shape hgen
  exact eachCompiles_of_gen h0 (by omega) h1 h2

lemma Compiles.of_cond (h0 : S.spilled 0 = false) (h : Compiles pcb (.cond e l r) S) :
    Compiles pcb e S ∧ Compiles pcb l S ∧ Compiles pcb r S := by
  obtain ⟨_, -, q, c, _, hgen⟩ := h
  obtain ⟨a, _, _, b, _, _, _, h1, h2, h3, -⟩ := dtCgTernaryOp_shape hgen
  have hle := ((dtCgNode_disciplined pcb e h0).labels h1).le
  have hel := eachCompiles_of_gen h0 (by omega) h1 h2
  rw [(dtCgNode_disciplined pcb e h0).release h1] at h2
  exact ⟨hel.1, eachCompiles_of_gen h0 (by omega) h2 h3⟩

/-! ## The equivalence -/

variable {p : Expr → Regset → Mem → Prop}

lemma Everywhere.self (h : Everywhere C pcb d p e S m) : p e S m := by
  cases e with
  | int value => exact h
  | var v => exact h
  | _ => exact h.2

lemma Everywhere.imp {q : Expr → Regset → Mem → Prop} (hpq : ∀ e S m, S.spilled 0 = false →
    Everywhere C pcb d p e S m → q e S m) (h0 : S.spilled 0 = false) (h : Everywhere C pcb d p e S m) :
    Everywhere C pcb d q e S m := by
  induction e generalizing S m with
  | int value | var v => exact hpq _ S m h0 h
  | lneg e ih | bneg e ih | ipos e ih | ineg e ih => exact ⟨ih h0 h.1, hpq _ S m h0 h⟩
  | arith op signed l r ihl ihr | cmp op signed l r ihl ihr | lxor l r ihl ihr =>
    exact ⟨⟨ihl h0 h.1.1, fun a vl m₁ ha hl => ihr (claim_spilled_zero h0 ha) (h.1.2 a vl m₁ ha hl)⟩, hpq _ S m h0 h⟩
  | land l r ihl ihr => exact ⟨⟨ihl h0 h.1.1, fun vl m₁ hl hz => ihr h0 (h.1.2 vl m₁ hl hz)⟩, hpq _ S m h0 h⟩
  | lor l r ihl ihr => exact ⟨⟨ihl h0 h.1.1, fun m₁ hl => ihr h0 (h.1.2 m₁ hl)⟩, hpq _ S m h0 h⟩
  | cond e l r ihe ihl ihr =>
    exact ⟨⟨ihe h0 h.1.1, fun w m₁ he hz => ihl h0 (h.1.2.1 w m₁ he hz), fun m₁ he => ihr h0 (h.1.2.2 m₁ he)⟩,
      hpq _ S m h0 h⟩

lemma both_of_safe {vl vr : Word} {m₂ : Mem} (hC : Respects C) (h0 : S.spilled 0 = false)
    (hsl : Everywhere C pcb d (Safe C pcb d) l S m)
    (hsr : ∀ a vl m₁, S.pick = some a → l.eval C pcb d m = some (vl, m₁) →
      Everywhere C pcb d (Safe C pcb d) r (S.claim a) m₁) (hl : l.eval C pcb d m = some (vl, m₁))
    (hr : r.eval C pcb d m₁ = some (vr, m₂)) : Both C S d m (dtCgNode pcb l) (dtCgNode pcb r) vl m₁ vr m₂ :=
  both_of_rightAt h0 (safe_rightAt hC h0 hsl hl)
    fun a ha => safe_rightAt hC (claim_spilled_zero h0 ha) (hsr a vl m₁ ha hl) hr

lemma safe_of_delivers (hC : Respects C) (h0 : S.spilled 0 = false) (hc : Compiles pcb e S)
    (h : Everywhere C pcb d (Delivers C pcb d) e S m) : Everywhere C pcb d (Safe C pcb d) e S m := by
  induction e generalizing S m with
  | int value => trivial
  | var x =>
    -- the variables that are read at an offset
    have hread : ∀ {v w : Word}, x.eval C pcb d m = some (v, m) → x.read.eval C pcb d m = some (w, m) →
        x.read.eval C pcb d m = x.eval C pcb d m := fun hv hw => by
      rw [hv, hw, Delivers.value_eq h h0 hc hv (dtCgLoadVar_rightAt hC pcb x h0 hw)]
    cases x with
    | global ty offset | lcl ty offset => exact hread rfl rfl
    | tls ty varid | builtin fn idx => rfl
  | lneg e ih => exact ⟨ih h0 hc.of_lneg h.1, trivial⟩
  | bneg e ih => exact ⟨ih h0 (Compiles.of_unary rfl hc) h.1, trivial⟩
  | ipos e ih => exact ⟨ih h0 hc h.1, trivial⟩
  | ineg e ih => exact ⟨ih h0 (Compiles.of_unary rfl hc) h.1, trivial⟩
  | arith op signed l r ihl ihr =>
    obtain ⟨hcl, hcr⟩ := hc.of_binary (arithmeticOp_binary _ _) rfl h0
    have hsl := ihl h0 hcl h.1.1
    have hsr := fun a vl m₁ ha hl => ihr (claim_spilled_zero h0 ha) (hcr a ha) (h.1.2 a vl m₁ ha hl)
    refine ⟨⟨hsl, hsr⟩, fun a b vl m₁ vr m₂ v ha hb hl hr hv => ?_⟩
    have hcode := h.2.value_eq h0 hc (eval_arith hl hr hv) (arithmeticOp_rightAt (both_of_safe hC h0 hsl hsr hl hr)
      (divisor_ne_zero hv) (picked_unique ha hb rfl))
    split at hcode
    · next hab => rwa [if_pos hab]
    · next hab => rwa [if_neg hab, ← arithVal_eq_iff hv]
  | cmp op signed l r ihl ihr =>
    obtain ⟨hcl, hcr⟩ := hc.of_binary (compareOp_binary _) rfl h0
    have hsl := ihl h0 hcl h.1.1
    have hsr := fun a vl m₁ ha hl => ihr (claim_spilled_zero h0 ha) (hcr a ha) (h.1.2 a vl m₁ ha hl)
    refine ⟨⟨hsl, hsr⟩, fun a b vl m₁ vr m₂ ha hb hl hr => ?_⟩
    have hboth := both_of_safe hC h0 hsl hsr hl hr
    split
    · next hab =>
      have hcode := h.2.value_eq h0 hc (eval_cmp hl hr) (compareOp_rightAt hboth (v := ofBool (op.eval signed vr vr))
        (picked_unique ha hb ⟨by rw [compareVal, if_pos hab, jmp_eval], .inl hab⟩))
      exact ofBool_inj.1 hcode
    · next hab =>
      intro hact
      by_contra hop
      exact compareOp_true_spilled hboth h0 hc ha hb hab hl hr hact (by simpa using hop) h.2
  | lxor l r ihl ihr =>
    obtain ⟨hcl, hcr⟩ := hc.of_binary logicalXor_binary rfl h0
    have hsl := ihl h0 hcl h.1.1
    have hsr := fun a vl m₁ ha hl => ihr (claim_spilled_zero h0 ha) (hcr a ha) (h.1.2 a vl m₁ ha hl)
    refine ⟨⟨hsl, hsr⟩, fun a b vl m₁ vr m₂ ha hb hl hr hab => ?_⟩
    have hcode := h.2.value_eq h0 hc (eval_lxor hl hr) (logicalXor_rightAt (both_of_safe hC h0 hsl hsr hl hr)
      (picked_unique ha hb (if_pos hab)))
    have hbool : ∀ x y : Bool, x = (x != y) → y = false := by decide
    exact bne_eq_false_iff_eq.1 (hbool _ _ (ofBool_inj.1 hcode))
  | land l r ihl ihr =>
    obtain ⟨hcl, hcr⟩ := hc.of_shortCircuit (logicalAnd_shortCircuit C) rfl h0
    exact ⟨⟨ihl h0 hcl h.1.1, fun vl m₁ hl hz => ihr h0 hcr (h.1.2 vl m₁ hl hz)⟩, trivial⟩
  | lor l r ihl ihr =>
    obtain ⟨hcl, hcr⟩ := hc.of_shortCircuit (logicalOr_shortCircuit C) rfl h0
    exact ⟨⟨ihl h0 hcl h.1.1, fun m₁ hl => ihr h0 hcr (h.1.2 m₁ hl)⟩, trivial⟩
  | cond e l r ihe ihl ihr =>
    obtain ⟨hce, hcl, hcr⟩ := hc.of_cond h0
    have hse := ihe h0 hce h.1.1
    have hsl := fun w m₁ he hz => ihl h0 hcl (h.1.2.1 w m₁ he hz)
    have hsr := fun m₁ he => ihr h0 hcr (h.1.2.2 m₁ he)
    refine ⟨⟨hse, hsl, hsr⟩, fun hsome a ha => ?_⟩
    obtain ⟨⟨v, _⟩, hv⟩ := ne_none_iff_exists'.1 hsome
    obtain ⟨⟨w, m₁⟩, he, hv'⟩ := bind_eq_some_iff.1 hv
    by_contra hact
    refine ternaryOp_spilled h0 hc ha (by simpa using hact) he (safe_rightAt hC h0 hse he) (fun hz => ?_) (fun hz => ?_)
      hv h.2
    · simp only [if_neg hz] at hv'
      exact safe_rightAt hC h0 (hsl w m₁ he hz) hv'
    · subst hz
      exact safe_rightAt hC h0 (hsr m₁ he) hv'

/-- The code of an expression and of each of its evaluated subexpressions is right exactly when no operator meets one of
the cases listed in `Safe`; in particular the code of the whole expression then is. -/
theorem expr_code_right_iff (hC : Respects C) (h0 : S.spilled 0 = false) (hc : Compiles pcb e S) :
    (Everywhere C pcb d (Delivers C pcb d) e S m ↔ Everywhere C pcb d (Safe C pcb d) e S m) ∧
      (Everywhere C pcb d (Safe C pcb d) e S m → Delivers C pcb d e S m) := by
  have hdel : Everywhere C pcb d (Safe C pcb d) e S m → Everywhere C pcb d (Delivers C pcb d) e S m :=
    Everywhere.imp (fun e S m h0 h => delivers_of_rightAt h0 fun v m' hv => safe_rightAt hC h0 h hv) h0
  exact ⟨⟨safe_of_delivers hC h0 hc, hdel⟩, fun h => (hdel h).self⟩

end

/-! ## An expression nested nine deep -/

/-- The global `int64_t` variable with the given number. -/
def int64Var (i : ℕ) : Var := .global ⟨.dw, true⟩ (8 * i)

/-- Memory with such variables from address 0 on, and zeros behind them. -/
def varsMem (vals : List Word) : Mem := fun a => (vals.getD (a.toNat / 8) 0).extractLsb' (8 * (a.toNat % 8)) 8

/-- `x + (x + … (x + e))`. -/
def addX : ℕ → Expr → Expr
  | 0, e => e
  | n + 1, e => .arith .add false (.var (int64Var 0)) (addX n e)

def noneLive : Regset := ⟨fun _ => false, fun _ => false, by decide⟩

/-- `x + (x + … (x + (y ? y : x)))`, with `n` additions. -/
def nestedCond (n : ℕ) : Expr := addX n (.cond (.var (int64Var 1)) (.var (int64Var 1)) (.var (int64Var 0)))

/-- The code of `nestedCond`. -/
def nestedCondCode (n : ℕ) : CgCode := ((dtCgNode ⟨0, 0⟩ (nestedCond n) ⟨noneLive, 1⟩).map fun x => x.2.1).getD []

lemma idleCallee_respects : Respects idleCallee := ⟨fun _ _ _ _ _ => rfl, fun _ _ _ _ _ => rfl⟩

/-- A conditional that finds a free register is right. -/
theorem expr_code_two_deep : Compiles ⟨0, 0⟩ (nestedCond 1) noneLive ∧
    Delivers idleCallee ⟨0, 0⟩ 4096 (nestedCond 1) noneLive (varsMem [0, 1]) := by
  have hsome : (dtCgNode ⟨0, 0⟩ (nestedCond 1) ⟨noneLive, 1⟩).isSome := by decide
  obtain ⟨⟨r, c, g'⟩, hgen⟩ := isSome_iff_exists.1 hsome
  have hcompiles : Compiles ⟨0, 0⟩ (nestedCond 1) noneLive := ⟨1, by decide, r, c, g', hgen⟩
  refine ⟨hcompiles, (expr_code_right_iff idleCallee_respects rfl hcompiles).2 ?_⟩
  have hfirst : ∀ a, noneLive.pick = some a → a = 8 := fun a ha => Option.some.inj (ha.symm.trans (by decide))
  have hsecond : ∀ b, (noneLive.claim 8).pick = some b → b = 7 := fun b hb => Option.some.inj (hb.symm.trans (by decide))
  refine ⟨⟨rfl, fun a vl m₁ ha _ => ⟨⟨rfl, fun _ _ _ _ => rfl, fun _ _ => rfl⟩, fun _ b hb => ?_⟩⟩,
    fun a b vl m₁ vr m₂ v ha hb _ _ _ => ?_⟩
  · rw [hfirst a ha] at hb ⊢
    rw [hsecond b hb]
    decide
  · rw [hfirst a ha] at hb ⊢
    rw [hsecond b hb]
    simp

/-- Where `x` is 0 and `y` is 1, under eight live operands `y ? y : x` is zero. -/
theorem expr_code_nine_deep : Compiles ⟨0, 0⟩ (nestedCond 8) noneLive ∧
    (nestedCond 8).eval idleCallee ⟨0, 0⟩ 4096 (varsMem [0, 1]) = some (1#64, varsMem [0, 1]) ∧
    ¬ Delivers idleCallee ⟨0, 0⟩ 4096 (nestedCond 8) noneLive (varsMem [0, 1]) := by
  have hsome : (dtCgNode ⟨0, 0⟩ (nestedCond 8) ⟨noneLive, 1⟩).isSome := by decide
  obtain ⟨⟨r, c, g'⟩, hgen⟩ := isSome_iff_exists.1 hsome
  have hdis := dtCgNode_disciplined ⟨0, 0⟩ (nestedCond 8) (S := noneLive) rfl
  have heval : (nestedCond 8).eval idleCallee ⟨0, 0⟩ 4096 (varsMem [0, 1]) = some (1#64, varsMem [0, 1]) := rfl
  refine ⟨⟨1, by decide, r, c, g', hgen⟩, heval, fun h => ?_⟩
  let s : St Func := ⟨fun _ => 0, fun _ => 4096, varsMem [0, 1], []⟩
  obtain ⟨_, -, hrun, hval, -⟩ := h _ _ heval 1 (by decide) _ _ _ hgen _ (hdis.labels hgen).nodup s rfl rfl
  obtain rfl : nestedCondCode 8 = c := by rw [nestedCondCode, hgen]; rfl
  obtain rfl : r = 8 := Option.some.inj ((hdis.picked hgen).symm.trans (by decide))
  have hcode : Does (exec idleCallee) (nestedCondCode 8) (nestedCondCode 8) s
      (runFuel (exec idleCallee) (nestedCondCode 8) 60 (0, s)).2 :=
    Does.ofRunFuel (by decide) (by decide +kernel)
  have hzero : (runFuel (exec idleCallee) (nestedCondCode 8) 60 (0, s)).2.regs 8 = 0#64 := by decide +kernel
  rw [hrun.unique hcode, hzero] at hval
  exact absurd hval (by decide)

end DTrace.Cg
