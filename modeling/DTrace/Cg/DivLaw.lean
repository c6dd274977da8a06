import DTrace.Cg.ExprExact
import DTrace.Cg.Fault

/-!
# The law of division

What the code of `/` and of `%` computes from the same two operands, put together: a zero divisor is a fault, and for any
other divisor the quotient is truncated and the remainder makes up for it.

* `DivLaw` — the law, for the code of two operands;
* `arithmeticOp_raises` — signed operands: a zero divisor is a fault;
* `division_law_iff` — where the law holds: for unsigned operands with any divisor but zero, for signed ones wherever the
  remainder is not negated.
-/

namespace DTrace.Cg

open Lib Bpf BitVec Gen

/-- The code of `x`, compiled for a register set, ends the clause with a fault. -/
def RaisesAt (C : Callee Func) (x : Gen Reg) (S : Regset) (d : Word) (m : Mem) (fault : Fault) : Prop :=
  ∀ lbl, lbl ≠ 0 → ∀ r c g', x ⟨S, lbl⟩ = some (r, c, g') → ∀ P, LabelsNodup P → ∀ s : St Func,
    s.stk dtStkDctx = d → s.mem = m → Raises C P c s fault

/-- The quotient is truncated towards zero, and the remainder has the sign of the dividend. -/
def Truncates (signed : Bool) (l r q rem : Word) : Prop :=
  if signed then q = BitVec.ofInt 64 (l.toInt.tdiv r.toInt) ∧ rem = BitVec.ofInt 64 (l.toInt.tmod r.toInt)
  else q.toNat = l.toNat / r.toNat ∧ rem.toNat = l.toNat % r.toNat

/-- The law of division for two operands with the values `vl` and `vr`. -/
structure DivLaw (C : Callee Func) (S : Regset) (d : Word) (m : Mem) (signed : Bool) (left right : Gen Reg) (vl vr : Word)
    (m₂ : Mem) : Prop where
  divzero : vr = 0#64 → ∀ op, op = AluOp.div ∨ op = AluOp.mod →
    RaisesAt C (dtCgArithmeticOp op signed left right) S d m .divzero
  law : vr ≠ 0#64 → ∃ q rem, RightAt C (dtCgArithmeticOp .div signed left right) S d m q m₂ ∧
    RightAt C (dtCgArithmeticOp .mod signed left right) S d m rem m₂ ∧ q * vr + rem = vl ∧ Truncates signed vl vr q rem

/-! ## Numbers -/

lemma sdiv_eq_ofInt (l r : Word) : l.sdiv r = BitVec.ofInt 64 (l.toInt.tdiv r.toInt) := by
  apply eq_of_toInt_eq
  rw [toInt_sdiv, toInt_ofInt]

lemma srem_eq_ofInt (l r : Word) : l.srem r = BitVec.ofInt 64 (l.toInt.tmod r.toInt) := by
  rw [← toInt_srem, ofInt_toInt]

lemma Truncates.law {signed : Bool} {l r q rem : Word} (h : Truncates signed l r q rem) : q * r + rem = l := by
  cases signed with
  | true =>
    obtain ⟨rfl, rfl⟩ := h
    calc .ofInt 64 (l.toInt.tdiv r.toInt) * r + .ofInt 64 (l.toInt.tmod r.toInt)
        = .ofInt 64 (l.toInt.tdiv r.toInt * r.toInt + l.toInt.tmod r.toInt) := by
          rw [ofInt_add, ofInt_mul, ofInt_toInt]
      _ = l := by rw [Int.tdiv_mul_add_tmod, ofInt_toInt]
  | false =>
    obtain ⟨hq, hrem⟩ := h
    apply eq_of_toNat_eq
    rw [toNat_add, toNat_mul, hq, hrem, Nat.mod_add_mod, Nat.div_add_mod', Nat.mod_eq_of_lt l.isLt]

lemma Truncates.eq_zero {signed : Bool} {l r : Word} (h : Truncates signed l r l l) (hr : r ≠ 0#64) : l = 0#64 := by
  cases signed with
  | true =>
    obtain ⟨hq, hrem⟩ := h
    have hr' : 0 < r.toInt.natAbs := Int.natAbs_pos.2 fun h0 => hr (eq_of_toInt_eq h0)
    have hlt : l.toInt.natAbs < r.toInt.natAbs := by
      have hl : l.toInt = l.toInt.tmod r.toInt := by
        conv_lhs => rw [hrem, ← srem_eq_ofInt, toInt_srem]
      rw [hl, Int.natAbs_tmod]
      exact Nat.mod_lt _ hr'
    have hzero : l.toInt.tdiv r.toInt = 0 := by
      rw [← Int.natAbs_eq_zero, Int.natAbs_tdiv]
      exact Nat.div_eq_of_lt hlt
    rw [hq, hzero]
    rfl
  | false =>
    obtain ⟨hq, hrem⟩ := h
    have hr' : 0 < r.toNat := Nat.pos_of_ne_zero fun h0 => hr (eq_of_toNat_eq h0)
    have hlt : l.toNat < r.toNat := by
      rw [hrem]
      exact Nat.mod_lt _ hr'
    apply eq_of_toNat_eq
    rw [hq, Nat.div_eq_of_lt hlt]
    rfl

/-! ## Zero divisors -/

section

variable {C : Callee Func} {S : Regset} {P : CgCode} {lbl : ℕ} {left right : Gen Reg} {d vl vr : Word} {m m₁ m₂ : Mem}
  {signed : Bool} {op : AluOp}

lemma signedDivCode_raises {l r : Reg} {s : St Func} (hr : s.regs r = 0#64) :
    Raises C P (signedDivCode op l r lbl) s .divzero := by
  refine .cons (show exec C (.branchImm .jne r (imm 0) (lbl + 5)) s = .next s from ?_) rfl
    (.append (probeError_raises (imm 0) s))
  simp [exec, JmpOp.eval, hr]

theorem arithmeticOp_raises (h : Pair C S d m left right vl m₁ 0#64 m₂) (hop : op = .div ∨ op = .mod) :
    RaisesAt C (dtCgArithmeticOp op true left right) S d m .divzero := by
  intro lbl hlbl q c g' hgen P hP s hd hm
  obtain ⟨_, _, b, _, _, h1, h2, rfl, rfl⟩ := (arithmeticOp_binary op true).shape hgen
  obtain ⟨_, _, hrun1, hrun2, -, hs2⟩ := h.run hlbl h1 h2 hP hd hm
  rw [List.nil_append, ← List.append_assoc]
  refine .of_does (hrun1.append hrun2) hs2.dctx (.append ?_)
  rw [arithCode, if_pos ⟨hop.symm, rfl⟩]
  exact signedDivCode_raises hs2.right

/-! ## Where the law holds -/

/-- What the code of `/` and `%` leaves, in the registers `a` and `b`. -/
def codeVal (op : AluOp) (signed : Bool) (a b : Reg) (vl vr : Word) : Word :=
  if a = b then vl else arithVal op signed vl vr

lemma arithmeticOp_codeVal {a b : Reg} (h : Both C S d m left right vl m₁ vr m₂) (ha : S.pick = some a)
    (hb : (S.claim a).pick = some b) (hzero : signed = true → vr ≠ 0#64) (op : AluOp) :
    RightAt C (dtCgArithmeticOp op signed left right) S d m (codeVal op signed a b vl vr) m₂ :=
  arithmeticOp_rightAt h (fun hop => hzero hop.2) (picked_unique ha hb rfl)

/-- The condition, in the registers `a` and `b`. -/
def DivSafe (signed : Bool) (a b : Reg) (vl vr : Word) : Prop :=
  (signed = true ∨ vr ≠ 0#64) ∧
    if a = b then vr ≠ 0#64 → vl = 0#64 else signed = true → vr.msb = true → vl.srem vr = 0#64

lemma truncates_codeVal_iff {a b : Reg} (hvr : vr ≠ 0#64) :
    Truncates signed vl vr (codeVal .div signed a b vl vr) (codeVal .mod signed a b vl vr) ↔ DivSafe signed a b vl vr := by
  unfold DivSafe codeVal
  by_cases hab : a = b
  · simp only [if_pos hab]
    refine ⟨fun h => ⟨.inr hvr, h.eq_zero⟩, fun h => ?_⟩
    rw [h.2 hvr]
    cases signed <;> simp [Truncates]
  · simp only [if_neg hab]
    cases signed with
    | false => simp [Truncates, arithVal, AluOp.eval, hvr, toNat_udiv, toNat_umod]
    | true =>
      have hval : ∀ op, op = .div ∨ op = .mod → arithVal op true vl vr = signedDivVal op vl vr := fun op hop => by
        rw [arithVal, if_pos ⟨hop.symm, rfl⟩]
      rw [hval _ (.inl rfl), hval _ (.inr rfl), signedDivVal_div, signedDivVal_mod, Truncates, if_pos rfl,
        ← sdiv_eq_ofInt, ← srem_eq_ofInt]
      cases hmsb : vr.msb with
      | false => simp
      | true => simpa using srem_eq_neg_iff hmsb

lemma dtCgArithmeticOp_compiles {a b : Reg} {cl cr : CgCode} {g1 g2 : GState} (hl : left ⟨S, lbl⟩ = some (a, cl, g1))
    (hgr : right g1 = some (b, cr, g2)) (op : AluOp) (signed : Bool) :
    (dtCgArithmeticOp op signed left right).Succeeds ⟨S, lbl⟩ := by
  unfold dtCgArithmeticOp
  rw [succeeds_bind hl, succeeds_bind hgr]
  by_cases hop : (op = .mod ∨ op = .div) ∧ signed = true
  · rw [if_pos hop, succeeds_bind (dtCgSignedDiv_eq op a b g2), succeeds_bind (regFree_eq b _)]
    exact succeeds_pure
  · rw [if_neg hop, succeeds_bind rfl, succeeds_bind (regFree_eq b _)]
    exact succeeds_pure

lemma DivLaw.safe {a b : Reg} {cl cr : CgCode} {g1 g2 : GState} (hlaw : DivLaw C S d m signed left right vl vr m₂)
    (h : Both C S d m left right vl m₁ vr m₂) (hlbl : lbl ≠ 0) (hl : left ⟨S, lbl⟩ = some (a, cl, g1))
    (hgr : right g1 = some (b, cr, g2)) : DivSafe signed a b vl vr := by
  obtain ⟨ha, hb, -⟩ := h.gen hl hgr
  have hdis : ∀ op, Disciplined (dtCgArithmeticOp op signed left right) S := fun op =>
    (arithmeticOp_binary op signed).disciplined h.disciplined h.disciplinedRight
  have hgen := fun op => dtCgArithmeticOp_compiles hl hgr op signed
  have hcode : (signed = true → vr ≠ 0#64) → ∀ op, RightAt C (dtCgArithmeticOp op signed left right) S d m
      (codeVal op signed a b vl vr) m₂ := arithmeticOp_codeVal h ha hb
  by_cases hvr : vr = 0#64
  · have hsigned : signed = true := by
      by_contra hs
      -- the operation on unsigned operands runs to its end
      obtain ⟨q, c, g', hc⟩ := hgen .div
      have hnd := ((hdis .div).labels hc).nodup
      let s : St Func := ⟨fun _ => 0, fun _ => d, m, []⟩
      obtain ⟨_, hrun, -⟩ := hcode (fun h => absurd h hs) .div lbl hlbl q c g' hc c hnd s rfl rfl
      exact (hlaw.divzero hvr .div (.inl rfl) lbl hlbl q c g' hc c hnd s rfl rfl).not_does hrun
    refine ⟨.inl hsigned, ?_⟩
    subst hvr
    split
    · exact fun h => absurd rfl h
    · exact fun _ h => absurd h (by decide)
  · obtain ⟨q, _, hq, hrem, -, htrunc⟩ := hlaw.law hvr
    have hval : ∀ op v, RightAt C (dtCgArithmeticOp op signed left right) S d m v m₂ → v = codeVal op signed a b vl vr :=
      fun op v hv => by
        obtain ⟨q, c, _, hc⟩ := hgen op
        exact (rightAt_unique (hdis op) hlbl hc hv (hcode (fun _ => hvr) op)).1
    rw [hval _ _ hq, hval _ _ hrem] at htrunc
    exact (truncates_codeVal_iff hvr).1 htrunc

theorem DivSafe.law {a b : Reg} (hsafe : DivSafe signed a b vl vr) (h : Both C S d m left right vl m₁ vr m₂)
    (ha : S.pick = some a) (hb : (S.claim a).pick = some b) : DivLaw C S d m signed left right vl vr m₂ := by
  refine ⟨fun hvr op hop => ?_, fun hvr => ?_⟩
  · subst hvr
    obtain rfl : signed = true := hsafe.1.resolve_right fun h => h rfl
    exact arithmeticOp_raises h.toPair hop
  · have htrunc := (truncates_codeVal_iff hvr).2 hsafe
    exact ⟨_, _, arithmeticOp_codeVal h ha hb (fun _ => hvr) .div, arithmeticOp_codeVal h ha hb (fun _ => hvr) .mod,
      htrunc.law, htrunc⟩

/-- The law of division holds for two operands exactly where `DivSafe` does. -/
theorem division_law_iff {a b : Reg} {cl cr : CgCode} {g₁ g₂ : GState} (h : Pair C S d m left right vl m₁ vr m₂)
    (hr : ∀ a, S.pick = some a → Disciplined right (S.claim a)) (hlbl : lbl ≠ 0)
    (hl : left ⟨S, lbl⟩ = some (a, cl, g₁)) (hgr : right g₁ = some (b, cr, g₂)) :
    DivLaw C S d m signed left right vl vr m₂ ↔ DivSafe signed a b vl vr := by
  have hboth : Both C S d m left right vl m₁ vr m₂ := ⟨h, hr⟩
  obtain ⟨ha, hb, -⟩ := hboth.gen hl hgr
  exact ⟨fun hlaw => hlaw.safe hboth hlbl hl hgr, fun hsafe => hsafe.law hboth ha hb⟩

end

/-! ## Two variables -/

section

variable {S : Regset} {x y : Word}

lemma int64Var_rightAt {i : ℕ} {v : Word} (h : (int64Var i).eval idleCallee ⟨0, 0⟩ 4096 (varsMem [x, y]) =
    some (v, varsMem [x, y])) (hread : (int64Var i).read = int64Var i) (h0 : S.spilled 0 = false) :
    RightAt idleCallee (dtCgLoadVar ⟨0, 0⟩ (int64Var i)) S 4096 (varsMem [x, y]) v (varsMem [x, y]) :=
  dtCgLoadVar_rightAt idleCallee_respects _ _ h0 (hread.symm ▸ h)

/-- `x` and `y` are compiled rightly when no register is live. -/
lemma varBoth (hx : (int64Var 0).eval idleCallee ⟨0, 0⟩ 4096 (varsMem [x, y]) = some (x, varsMem [x, y]))
    (hy : (int64Var 1).eval idleCallee ⟨0, 0⟩ 4096 (varsMem [x, y]) = some (y, varsMem [x, y])) :
    Both idleCallee noneLive 4096 (varsMem [x, y]) (dtCgLoadVar ⟨0, 0⟩ (int64Var 0)) (dtCgLoadVar ⟨0, 0⟩ (int64Var 1))
      x (varsMem [x, y]) y (varsMem [x, y]) :=
  ⟨⟨dtCgLoadVar_disciplined _ _ rfl, int64Var_rightAt hx rfl rfl,
    fun _ ha => int64Var_rightAt hy rfl (claim_spilled_zero rfl ha)⟩,
    fun _ ha => dtCgLoadVar_disciplined _ _ (claim_spilled_zero rfl ha)⟩

lemma varBoth_noneLive : ∃ cl g1 cr g2, dtCgLoadVar ⟨0, 0⟩ (int64Var 0) ⟨noneLive, 1⟩ = some (8, cl, g1) ∧
    dtCgLoadVar ⟨0, 0⟩ (int64Var 1) g1 = some (7, cr, g2) :=
  ⟨_, _, _, _, rfl, rfl⟩

end

/-- `x / y` and `x % y`, signed, where `x` is 19 and `y` is 5. -/
theorem division_law_nineteen_five : DivLaw idleCallee noneLive 4096 (varsMem [19, 5]) true
    (dtCgLoadVar ⟨0, 0⟩ (int64Var 0)) (dtCgLoadVar ⟨0, 0⟩ (int64Var 1)) 19 5 (varsMem [19, 5]) := by
  obtain ⟨_, _, _, _, hl, hr⟩ := varBoth_noneLive
  have h := varBoth (x := 19) (y := 5) rfl rfl
  exact (division_law_iff h.toPair h.disciplinedRight (by decide) hl hr).2 ⟨.inl rfl, by decide⟩

/-- `x / y` is `-3` where `x` is 19 and `y` is `-5`, but `x % y` is `-4`. -/
theorem division_law_nineteen_minus_five : ¬ DivLaw idleCallee noneLive 4096 (varsMem [19, -5]) true
    (dtCgLoadVar ⟨0, 0⟩ (int64Var 0)) (dtCgLoadVar ⟨0, 0⟩ (int64Var 1)) 19 (-5) (varsMem [19, -5]) := by
  intro hlaw
  obtain ⟨_, _, _, _, hl, hr⟩ := varBoth_noneLive
  have hsafe := hlaw.safe (varBoth rfl rfl) (by decide) hl hr
  exact absurd (hsafe.2 rfl rfl) (by decide)

end DTrace.Cg
