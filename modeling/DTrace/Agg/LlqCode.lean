import DTrace.Agg.Llquantize
import DTrace.Cg.Regset

/-!
# The code that computes a log-linear bin

`dt_cg_agg_llquantize_bin`: the instructions emitted for accepted parameters, and what they compute.

* `binCode_runs` — from the value in its register, the code leaves the bin of that value there, and touches nothing else
  but its four scratch registers.
-/

namespace DTrace.Agg

open Lib Bpf Cg BitVec BpfRuns

variable {φ : Type}

section

/-- The body of `dt_cg_agg_llquantize_bin`, with its registers and the first of its eight labels. -/
def binCode (p : Llq) (val ind mag tmp max : Reg) (L : ℕ) : List (Node (Insn φ)) :=
  let L1 := L
  let L2 := L + 1
  let L3 := L + 2
  let L4 := L + 3
  let Lloop := L + 4
  let Lbin := L + 5
  let Lshift := L + 6
  let Lend := L + 7
  [⟨0, .movReg tmp val⟩,
   ⟨0, .branchImm .jsge val (imm 0) L1⟩,
   ⟨0, .aluImm .mul tmp immNegOne⟩,
   -- underflow: smaller than the smallest bin
   ⟨L1, .movImm mag (imm p.underflowBin)⟩,
   ⟨0, .lddw max (BitVec.ofNat 64 (p.factor ^ p.lmag))⟩,
   ⟨0, .branchReg .jlt tmp max Lend⟩,
   -- the logarithmic ranges
   ⟨0, .movImm mag (imm p.lmag)⟩,
   ⟨0, .movImm ind (imm 0)⟩,
   ⟨Lloop, .aluImm .mul max (imm p.factor)⟩,
   ⟨0, .branchReg .jlt tmp max Lbin⟩,
   ⟨0, .aluImm .add mag (imm 1)⟩,
   ⟨0, .branchImm .jgt mag (imm p.hmag) Lshift⟩,
   ⟨0, .jump Lloop⟩,
   -- the bin inside the range
   ⟨Lbin, .movReg ind tmp⟩,
   ⟨0, .branchImm .jeq mag (imm 0) L2⟩,
   ⟨0, .aluImm .div max (imm p.steps)⟩,
   ⟨0, .jump L3⟩,
   ⟨L2, .aluImm .mul ind (imm p.steps)⟩,
   ⟨L3, .aluReg .div ind max⟩,
   ⟨0, .aluImm .sub ind (imm p.stepsFactor)⟩,
   -- center around the underflow bin
   ⟨Lshift, .aluImm .sub mag (imm p.lmag)⟩,
   ⟨0, .aluImm .mul mag (imm (p.steps - p.stepsFactor))⟩,
   ⟨0, .aluReg .add mag ind⟩,
   ⟨0, .aluImm .add mag (imm 1)⟩,
   ⟨0, .branchImm .jsge val (imm 0) L4⟩,
   ⟨0, .aluImm .mul mag immNegOne⟩,
   ⟨L4, .aluImm .add mag (imm p.underflowBin)⟩,
   ⟨Lend, .movReg val mag⟩]

/-- `dt_cg_agg_llquantize_bin`: the code, the register set and the next label; `none` for `EDT_NOREG`. -/
def dtCgAggLlquantizeBin (p : Llq) (S : Regset) (valreg : Reg) (lbl : ℕ) :
    Option (List (Node (Insn φ)) × Regset × ℕ) :=
  match dtRegsetAlloc S with
  | none => none
  | some (indreg, c₁, S₁) =>
    match dtRegsetAlloc S₁ with
    | none => none
    | some (magreg, c₂, S₂) =>
      match dtRegsetAlloc S₂ with
      | none => none
      | some (tmpreg, c₃, S₃) =>
        match dtRegsetAlloc S₃ with
        | none => none
        | some (maxreg, c₄, S₄) =>
          let (f, S₅) := freeAll [indreg, magreg, tmpreg, maxreg] S₄
          some (plain (c₁ ++ c₂ ++ c₃ ++ c₄) ++ binCode p valreg indreg magreg tmpreg maxreg lbl ++ plain f, S₅, lbl + 8)

end

/-! ## Running the code -/

section

@[simp] lemma mul_immNegOne (x : Word) : AluOp.mul.eval x (immNegOne.signExtend 64) = -x := by
  rw [immNegOne_signExtend, AluOp.eval, BitVec.mul_neg, BitVec.mul_one]

lemma jeq_zero {m : ℕ} (hm : m < 2 ^ 64) :
    JmpOp.jeq.eval (BitVec.ofNat 64 m) ((imm 0).signExtend 64) = decide (m = 0) := by
  rw [imm_signExtend (by omega)]
  exact ofNat_beq_zero hm

lemma jgt_imm {m h : ℕ} (hm : m < 2 ^ 64) (hh : h < 2 ^ 31) :
    JmpOp.jgt.eval (BitVec.ofNat 64 m) ((imm h).signExtend 64) = decide (h < m) := by
  rw [imm_signExtend hh]
  exact ofNat_ult (by omega) hm

structure InRange (s : St φ) (t m bound : ℕ) : Prop where
  tmp : s.regs 5 = BitVec.ofNat 64 t
  mag : s.regs 6 = BitVec.ofNat 64 m
  max : s.regs 4 = BitVec.ofNat 64 bound

variable {s : St φ}

lemma InRange.raise {t m b : ℕ} (h : InRange s t m b) (b' : ℕ) : InRange (s.setReg 4 (BitVec.ofNat 64 b')) t m b' :=
  ⟨by simpa using h.tmp, by simpa using h.mag, by simp⟩

/-- A copy of a value, negated if the value is negative. -/
lemma magnitude_runs {C : Callee φ} {P : List (Node (Insn φ))} {pc k₀ k₁ k₂ l : ℕ} {r q : Reg} {i : Insn φ}
    (h₀ : P[pc]? = some ⟨k₀, .movReg r 8⟩) (h₁ : P[pc + 1]? = some ⟨k₁, .branchImm .jsge q (imm 0) l⟩)
    (h₂ : P[pc + 2]? = some ⟨k₂, i⟩) (hl : labelPos P l = some (pc + 3))
    (hq : (s.setReg r (s.regs 8)).regs q = s.regs 8)
    (hneg : exec C i (s.setReg r (s.regs 8)) = .next ((s.setReg r (s.regs 8)).setReg r (-s.regs 8))) :
    ∃ s', BpfRuns C P (pc, s) (pc + 3, s') ∧ s'.regs r = BitVec.ofNat 64 (s.regs 8).toInt.natAbs ∧ St.Only [r] s s' := by
  have honly : St.Only [r] s (s.setReg r (s.regs 8)) := (St.Only.refl _ s).setReg
  have htest := jsge_zero ((s.setReg r (s.regs 8)).regs q)
  rw [hq] at htest
  rw [ofNat_natAbs]
  by_cases hv : 0 ≤ (s.regs 8).toInt
  · refine ⟨_, aluReg h₀ rfl (branchImm_taken h₁ ?_ hl (.refl _)), by simp [hv, AluOp.eval], honly⟩
    simpa [AluOp.eval, hq, hv] using htest
  · refine ⟨_, aluReg h₀ rfl (branchImm_skip h₁ ?_ (.next h₂ hneg (.refl _))), by simp [hv], honly.setReg⟩
    simpa [AluOp.eval, hq, hv] using htest

-- the code in the registers that it gets: the value in 8, and the four scratch registers below it
variable {C : Callee φ} {P : List (Node (Insn φ))} {p : Llq} {L pc t m : ℕ} (hP : LabelsNodup P)
  (hat : At P pc (binCode p 8 7 6 5 4 L)) (hL : L ≠ 0)

include hat

lemma quot_runs {a b : ℕ} (ha : s.regs 7 = BitVec.ofNat 64 a) (hb : s.regs 4 = BitVec.ofNat 64 b) (ha' : a < 2 ^ 64)
    (hb' : b < 2 ^ 64) (hab : a / b = t * p.steps / p.factor ^ (m + 1)) (h : p.factor ^ m ≤ t) :
    BpfRuns C P (pc + 18, s) (pc + 20, (s.setReg 7 (BitVec.ofNat 64 (a / b))).setReg 7 (BitVec.ofNat 64 (p.ind m t))) := by
  have node := fun i : Fin 28 => hat i i.isLt
  have hsf := @Llq.stepsFactor_lt p
  have hsteps := p.steps_le
  have hquot := Llq.stepsFactor_le_quot h
  refine aluReg (node 18) ?_ (aluImm (node 19) ?_ (.refl _))
  · rw [ha, hb, AluOp.eval, ofNat_div ha' hb']
  · rw [setReg_regs_self, AluOp.eval, imm_signExtend (by omega), ofNat_sub (by omega) (by omega), hab, Llq.ind]

include hP hL

lemma binCode_labelPos (k : ℕ) (i : Fin 28) {n : Node (Insn φ)} (hn : (binCode p 8 7 6 5 4 L)[i.val]? = some n)
    (hlab : n.label = L + k) : labelPos P (L + k) = some (pc + i) :=
  labelPos_of_getElem? hP (by omega) ((hat i i.isLt).trans hn) hlab

/-- The magnitude is in the range `m`: its bin there.  Division is by the unit where that is exact, and multiplies first
in the range 0. -/
lemma bin_runs (hl : p.lmag ≤ m) (hh : m ≤ p.hmag) (h1 : p.factor ^ m ≤ t) (h2 : t < p.factor ^ (m + 1))
    (hs : InRange s t m (p.factor ^ (m + 1))) :
    ∃ s', BpfRuns C P (pc + 13, s) (pc + 20, s') ∧ s'.regs 7 = BitVec.ofNat 64 (p.ind m t) ∧ St.Only [7, 4] s s' := by
  have node := fun i : Fin 28 => hat i i.isLt
  have hpow := p.pow_lt
  have hmax : p.factor ^ (m + 1) ≤ p.factor ^ (p.hmag + 1) := Llq.pow_le_pow (by omega)
  have hhmag := p.hmag_le
  have hsteps := p.steps_le
  have hfac := p.factor_le
  set s1 := s.setReg 7 (s.regs 5)
  have honly : St.Only [7, 4] s s1 := (St.Only.refl _ s).setReg
  have hjump : JmpOp.jeq.eval (s1.regs 6) ((imm 0).signExtend 64) = decide (m = 0) := by
    rw [show s1.regs 6 = _ by simpa [s1] using hs.mag, jeq_zero (by omega)]
  have hind : s1.regs 7 = .ofNat 64 t := by simpa [s1] using hs.tmp
  have hmaxreg : s1.regs 4 = .ofNat 64 (p.factor ^ (m + 1)) := by simpa [s1] using hs.max
  by_cases hm0 : m = 0
  · subst hm0
    rw [Nat.zero_add, pow_one] at h2
    have hmul : t * p.steps ≤ 65535 * 65535 := Nat.mul_le_mul (by omega) hsteps
    refine ⟨_, aluReg (v := s.regs 5) (node 13) rfl (branchImm_taken (node 14) hjump
      (binCode_labelPos hP hat hL 1 17 rfl rfl)
      (aluImm (v := .ofNat 64 (t * p.steps)) (node 17) ?_
        (quot_runs hat (by simp) (by simpa using hs.max) (by omega) (by omega) rfl h1))), by simp, ?_⟩
    · rw [hind, AluOp.eval, imm_signExtend (by omega), ofNat_mul]
    · exact honly.setReg.setReg.setReg
  · have hdiv :=
      (Llq.quot_eq t hl fun h => hm0 h.1).symm
    have hunit : p.factor ^ (m + 1) / p.steps ≤ p.factor ^ (m + 1) := Nat.div_le_self _ _
    refine ⟨_, aluReg (v := s.regs 5) (node 13) rfl (branchImm_skip (node 14) (hjump.trans (decide_eq_false hm0))
      (aluImm (v := .ofNat 64 (p.factor ^ (m + 1) / p.steps)) (node 15) ?_
        (BpfRuns.jump (node 16) (binCode_labelPos hP hat hL 2 18 rfl rfl)
          (quot_runs hat (by simpa using hs.tmp) (by simp) (by omega) (by omega) hdiv h1)))), by simp, ?_⟩
    · rw [hmaxreg, AluOp.eval, imm_signExtend (by omega), ofNat_div (by omega) (by omega)]
    · exact honly.setReg.setReg.setReg

lemma pass_runs (ht : t < 2 ^ 64) (hm : m ≤ p.hmag) (hs : InRange s t m (p.factor ^ m)) {c : ℕ × St φ} :
    (t < p.factor ^ (m + 1) → BpfRuns C P (pc + 13, s.setReg 4 (BitVec.ofNat 64 (p.factor ^ (m + 1)))) c →
      BpfRuns C P (pc + 8, s) c) ∧
    (¬ t < p.factor ^ (m + 1) → BpfRuns C P (pc + 11,
        (s.setReg 4 (BitVec.ofNat 64 (p.factor ^ (m + 1)))).setReg 6 (BitVec.ofNat 64 (m + 1))) c →
      BpfRuns C P (pc + 8, s) c) := by
  have node := fun i : Fin 28 => hat i i.isLt
  have hfac := p.factor_le
  have hpow := p.pow_lt
  have hle : p.factor ^ (m + 1) ≤ p.factor ^ (p.hmag + 1) := Llq.pow_le_pow (by omega)
  have hmul : AluOp.mul.eval (s.regs 4) ((imm p.factor).signExtend 64) = .ofNat 64 (p.factor ^ (m + 1)) := by
    rw [hs.max, AluOp.eval, imm_signExtend (by omega), ← ofNat_mul, pow_succ]
  have hcmp : JmpOp.jlt.eval ((s.setReg 4 (.ofNat 64 (p.factor ^ (m + 1)))).regs 5)
      ((s.setReg 4 (.ofNat 64 (p.factor ^ (m + 1)))).regs 4) = decide (t < p.factor ^ (m + 1)) := by
    rw [setReg_regs_ne _ _ (by decide), setReg_regs_self, hs.tmp]
    exact ofNat_ult ht (by omega)
  constructor
  · intro hlt hc
    exact aluImm (node 8) hmul (branchReg_taken (node 9) (hcmp.trans (decide_eq_true hlt))
      (binCode_labelPos hP hat hL 5 13 rfl rfl) hc)
  · intro hge hc
    refine aluImm (node 8) hmul (branchReg_skip (node 9) (hcmp.trans (decide_eq_false hge))
      (aluImm (node 10) ?_ hc))
    rw [setReg_regs_ne _ _ (by decide), hs.mag, AluOp.eval, imm_signExtend (by omega), ← ofNat_add]

lemma loop_runs (ht : t < 2 ^ 64) (n m : ℕ) (s : St φ) (hn : m + n = p.hmag) (hl : p.lmag ≤ m)
    (hlow : p.factor ^ m ≤ t) (hs : InRange s t m (p.factor ^ m)) (hind : s.regs 7 = 0) :
    ∃ s', BpfRuns C P (pc + 8, s) (pc + 20, s') ∧ s'.regs 6 = BitVec.ofNat 64 (p.rangeFrom t (n + 1) m) ∧
      s'.regs 7 = BitVec.ofNat 64 (if p.rangeFrom t (n + 1) m ≤ p.hmag then p.ind (p.rangeFrom t (n + 1) m) t else 0) ∧
      St.Only [7, 6, 4] s s' := by
  have node := fun i : Fin 28 => hat i i.isLt
  have hhmag := p.hmag_le
  induction n using Nat.strong_induction_on generalizing m s with
  | _ n ih =>
    have hpass := fun c => pass_runs (C := C) (c := c) hP hat hL ht (by omega) hs
    by_cases hlt : t < p.factor ^ (m + 1)
    · obtain ⟨s', hrun, hs', hon⟩ := bin_runs hP hat hL hl (by omega) hlow hlt (hs.raise _)
      have hrange : p.rangeFrom t (n + 1) m = m := by rw [Llq.rangeFrom, if_pos hlt]
      refine ⟨s', (hpass _).1 hlt hrun, ?_, ?_, ((St.Only.refl _ s).setReg).trans (hon.mono (by simp))⟩
      · rw [hon.regs 6 (by decide), (hs.raise _).mag, hrange]
      · rw [hs', hrange, if_pos (by omega)]
    set s1 := (s.setReg 4 (.ofNat 64 (p.factor ^ (m + 1)))).setReg 6 (.ofNat 64 (m + 1)) with hs1
    have hon1 : St.Only [7, 6, 4] s s1 := (St.Only.refl _ s).setReg.setReg
    have hrange : p.rangeFrom t (n + 1) m = p.rangeFrom t n (m + 1) := by rw [Llq.rangeFrom, if_neg hlt]
    have hjump : JmpOp.jgt.eval (s1.regs 6) ((imm p.hmag).signExtend 64) = decide (p.hmag < m + 1) := by
      rw [hs1, setReg_regs_self, jgt_imm (by omega) (by omega)]
    rw [hrange]
    rcases n with _ | n
    · -- past the last range: the bin inside the range stays 0
      refine ⟨s1, (hpass _).2 hlt (branchImm_taken (node 11) (hjump.trans (decide_eq_true (by omega)))
        (binCode_labelPos hP hat hL 6 20 rfl rfl) (.refl _)), by simp [hs1, Llq.rangeFrom],
        ?_, hon1⟩
      rw [Llq.rangeFrom, if_neg (by omega)]
      simpa [hs1] using hind
    · obtain ⟨s', hrun, hmag, hind', hon⟩ := ih n (by omega) (m + 1) s1 (by omega) (by omega) (by omega)
        ⟨by simpa [hs1] using hs.tmp, by simp [hs1], by simp [hs1]⟩ (by simpa [hs1] using hind)
      exact ⟨s', (hpass _).2 hlt (branchImm_skip (node 11) (hjump.trans (decide_eq_false (by omega)))
        (BpfRuns.jump (node 12) (binCode_labelPos hP hat hL 4 8 rfl rfl) hrun)), hmag, hind',
        hon1.trans hon⟩

lemma shift_runs {r i o : ℕ} (hl : p.lmag ≤ r) (ho : o = 1 + (r - p.lmag) * p.perRange + i) (hoff : o ≤ p.underflowBin)
    (hsm : s.regs 6 = BitVec.ofNat 64 r) (hsi : s.regs 7 = BitVec.ofNat 64 i) :
    ∃ s', BpfRuns C P (pc + 20, s) (pc + 28, s') ∧ s'.regs 8 = BitVec.ofNat 64
      (if 0 ≤ (s.regs 8).toInt then p.underflowBin + o else p.underflowBin - o) ∧ St.Only [8, 6] s s' := by
  have node := fun i : Fin 28 => hat i i.isLt
  have hlmag := p.lmag_le
  have hsteps := p.steps_le
  have hU := p.underflowBin_lt
  set s1 := (((s.setReg 6 (.ofNat 64 (r - p.lmag))).setReg 6 (.ofNat 64 ((r - p.lmag) * p.perRange))).setReg 6
    (.ofNat 64 ((r - p.lmag) * p.perRange + i))).setReg 6 (.ofNat 64 o) with hs1
  have honly : St.Only [8, 6] s s1 :=
    (St.Only.refl _ s).setReg.setReg.setReg.setReg
  have hrun : ∀ {c}, BpfRuns C P (pc + 24, s1) c → BpfRuns C P (pc + 20, s) c := by
    intro c h
    refine aluImm (node 20) ?_ (aluImm (node 21) ?_ (aluReg (node 22) ?_
      (aluImm (node 23) ?_ h)))
    · rw [hsm, AluOp.eval, imm_signExtend (by omega), ofNat_sub (by omega) hl]
    · rw [setReg_regs_self, AluOp.eval, imm_signExtend (by omega), ← ofNat_mul, Llq.perRange]
    · simp [hsi, AluOp.eval, ofNat_add]
    · rw [setReg_regs_self, AluOp.eval, imm_signExtend (by omega), ← ofNat_add, ho]
      congr 1
      omega
  have hval : JmpOp.jsge.eval (s1.regs 8) ((imm 0).signExtend 64) = decide (0 ≤ (s.regs 8).toInt) := by
    rw [jsge_zero, show s1.regs 8 = s.regs 8 by simp [hs1]]
  by_cases hv : 0 ≤ (s.regs 8).toInt
  · rw [if_pos hv]
    refine ⟨_, hrun (branchImm_taken (node 24) (hval.trans (decide_eq_true hv))
      (binCode_labelPos hP hat hL 3 26 rfl rfl) (aluImm
      (v := .ofNat 64 (p.underflowBin + o)) (node 26) ?_ (aluReg (node 27) rfl (.refl _)))),
      by simp [AluOp.eval], honly.setReg.setReg⟩
    rw [hs1, setReg_regs_self, AluOp.eval, imm_signExtend (by omega), ← ofNat_add, Nat.add_comm]
  · rw [if_neg hv]
    refine ⟨_, hrun (branchImm_skip (node 24) (hval.trans (decide_eq_false hv)) (aluImm
      (v := -.ofNat 64 o) (node 25) ?_ (aluImm (v := .ofNat 64 (p.underflowBin - o)) (node 26) ?_
      (aluReg (node 27) rfl (.refl _))))), by simp [AluOp.eval],
      honly.setReg.setReg.setReg⟩
    · rw [mul_immNegOne, hs1, setReg_regs_self]
    · rw [setReg_regs_self, AluOp.eval, imm_signExtend (by omega), BitVec.add_comm, ← sub_eq_add_neg,
        ofNat_sub (by omega) hoff]

lemma ranges_runs (ht : t < 2 ^ 64) (hlow : ¬ t < p.factor ^ p.lmag) (hs : InRange s t p.lmag (p.factor ^ p.lmag))
    (hsi : s.regs 7 = 0) : ∃ s', BpfRuns C P (pc + 8, s) (pc + 28, s') ∧ s'.regs 8 = BitVec.ofNat 64
      (if 0 ≤ (s.regs 8).toInt then p.underflowBin + p.off t else p.underflowBin - p.off t) ∧
      St.Only [8, 7, 6, 4] s s' := by
  have hlh := p.lmag_le_hmag
  obtain ⟨_, hrun1, hm1, hi1, hon1⟩ := loop_runs hP hat hL ht (p.hmag - p.lmag) p.lmag s (by omega)
    (le_refl _) (by omega) hs hsi
  -- in the ranges or beyond them, the offset is the one the last part computes
  have hoff : p.off t = 1 + (p.range t - p.lmag) * p.perRange +
      if p.range t ≤ p.hmag then p.ind (p.range t) t else 0 := by
    rw [Llq.off, if_neg hlow]
    split
    · rfl
    · have hr := @Llq.range_le p t
      have : p.range t - p.lmag = p.ranges := by
        unfold Llq.ranges
        omega
      rw [this]
      omega
  obtain ⟨s2, hrun2, hv2, hon2⟩ := shift_runs hP hat hL (Llq.lmag_le_range t) hoff (Llq.off_le t) hm1 hi1
  refine ⟨s2, hrun1.trans hrun2, ?_, (hon1.mono (by simp)).trans (hon2.mono (by simp))⟩
  rw [hv2, hon1.regs 8 (by decide)]

/-- The code leaves the bin of the value in its register, and changes only its own registers. -/
theorem binCode_runs (s : St φ) : ∃ s', BpfRuns C P (pc, s) (pc + 28, s') ∧
    s'.regs 8 = BitVec.ofNat 64 (p.bin (s.regs 8).toInt) ∧ St.Only [8, 7, 6, 5, 4] s s' := by
  have node := fun i : Fin 28 => hat i i.isLt
  have hU := p.underflowBin_lt
  have hlmag := p.lmag_le
  have hpow := p.pow_lt
  have hple : p.factor ^ p.lmag ≤ p.factor ^ (p.hmag + 1) := Llq.pow_le_pow (by have := p.lmag_le_hmag; omega)
  obtain ⟨s1, hrun1, ht1, hon1⟩ := magnitude_runs (C := C) (s := s) (node 0) (node 1) (node 2)
    (binCode_labelPos hP hat hL 0 3 rfl rfl) (by simp) (by simp [exec])
  set t := (s.regs 8).toInt.natAbs with ht
  have htlt : t < 2 ^ 64 := by
    have h1 := (s.regs 8).toInt_lt
    have h2 := (s.regs 8).le_toInt
    omega
  -- the two comparison operands of the underflow test
  set s2 := (s1.setReg 6 (.ofNat 64 p.underflowBin)).setReg 4 (.ofNat 64 (p.factor ^ p.lmag)) with hs2
  have hrun2 : ∀ {c}, BpfRuns C P (pc + 5, s2) c → BpfRuns C P (pc + 3, s1) c := fun h =>
    aluImm (node 3) (by rw [AluOp.eval, imm_signExtend (by omega)]) (.next (node 4) rfl h)
  have hcmp : JmpOp.jlt.eval (s2.regs 5) (s2.regs 4) = decide (t < p.factor ^ p.lmag) := by
    rw [show s2.regs 5 = _ by simpa [hs2] using ht1, hs2, setReg_regs_self]
    exact ofNat_ult htlt (by omega)
  have hon2 : St.Only [8, 7, 6, 5, 4] s s2 := ((hon1.mono (by simp)).setReg).setReg
  have hval2 : s2.regs 8 = s.regs 8 := by simpa [hs2] using hon1.regs 8 (by decide)
  by_cases hlow : t < p.factor ^ p.lmag
  · refine ⟨_, hrun1.trans (hrun2 (branchReg_taken (node 5) (hcmp.trans (decide_eq_true hlow))
      (binCode_labelPos hP hat hL 7 27 rfl rfl) (aluReg (node 27) rfl (.refl _)))), ?_,
      hon2.setReg⟩
    have hoff : p.off (s.regs 8).toInt.natAbs = 0 := by simp only [Llq.off, ← ht, hlow, if_true]
    rw [setReg_regs_self, Llq.bin, hoff]
    simp [AluOp.eval, hs2]
  · set s3 := (s2.setReg 6 (.ofNat 64 p.lmag)).setReg 7 0 with hs3
    obtain ⟨s4, hrun4, hv4, hon4⟩ := ranges_runs (C := C) (s := s3) hP hat hL htlt hlow
      ⟨by simpa [hs3, hs2] using ht1, by simp [hs3], by simp [hs3, hs2]⟩ (by simp [hs3])
    refine ⟨s4, hrun1.trans (hrun2 (branchReg_skip (node 5) (hcmp.trans (decide_eq_false hlow))
      (aluImm (node 6) ?_ (aluImm (node 7) ?_ hrun4)))), ?_,
      (hon2.setReg.setReg).trans (hon4.mono (by simp))⟩
    · rw [AluOp.eval, imm_signExtend (by omega)]
    · simp [AluOp.eval]
    · rw [hv4, show s3.regs 8 = s.regs 8 by simpa [hs3] using hval2, Llq.bin]

end

section

/-- The register set when the value of the aggregating function has been computed: a statement starts with no register in
use, and the value gets the first one. -/
def argRegset : Regset := Regset.dtRegsetReset.setActive 8

/-- There, the four scratch registers are free ones and nothing is spilled. -/
lemma dtCgAggLlquantizeBin_argRegset (p : Llq) (lbl : ℕ) : ∃ S, (dtCgAggLlquantizeBin p argRegset 8 lbl :
    Option (List (Node (Insn φ)) × Regset × ℕ)) = some (binCode p 8 7 6 5 4 lbl, S, lbl + 8) := by
  let S := (((argRegset.setActive 7).setActive 6).setActive 5).setActive 4
  exact ⟨(freeAll [7, 6, 5, 4] S : List (Insn φ) × Regset).2, rfl⟩

end

end DTrace.Agg
