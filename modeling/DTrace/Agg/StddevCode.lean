import DTrace.Agg.LlqCode
import DTrace.Agg.Quantline

/-!
# The code that records a value for `stddev()`

`dt_cg_agg_stddev`: the square of the value in two registers, from the squares and the product of its halves; and the
update of the four data words, the count, the sum, and the two halves of the sum of squares.

* `squareWords_spec` — the two words are the 128-bit square;
* `squareCode_runs`, `stddevImplCode_runs` — what the two parts of the code do;
* `dtCgAggStddev_records` — the generated code makes the update `stddevUpd` of the record it is given.
-/

namespace DTrace.Agg

open Lib Bpf Cg BpfRuns

variable {φ : Type}

section

/-- The part of `dt_cg_agg_stddev` that computes the square. -/
def squareCode (val hi low mid lmd : Reg) (Lpos Lncy : ℕ) : List (Node (Insn φ)) :=
  [⟨0, .movReg low val⟩,
   ⟨0, .branchImm .jsge low (imm 0) Lpos⟩,
   ⟨0, .neg low⟩,
   ⟨Lpos, .movReg hi low⟩,
   ⟨0, .aluImm .lsh low (imm 32)⟩,
   ⟨0, .aluImm .rsh low (imm 32)⟩,
   ⟨0, .aluImm .rsh hi (imm 32)⟩,
   -- high times low, to be doubled
   ⟨0, .movReg mid low⟩,
   ⟨0, .aluReg .mul mid hi⟩,
   ⟨0, .aluReg .mul low low⟩,
   ⟨0, .aluReg .mul hi hi⟩,
   ⟨0, .movReg lmd mid⟩,
   ⟨0, .aluImm .lsh lmd (imm 33)⟩,
   ⟨0, .aluImm .rsh mid (imm 31)⟩,
   ⟨0, .aluReg .add low lmd⟩,
   ⟨0, .branchReg .jle lmd low Lncy⟩,
   ⟨0, .aluImm .add hi (imm 1)⟩,
   ⟨Lncy, .aluReg .add hi mid⟩]

/-- `dt_cg_pop_stack`, with its scratch register. -/
def popCode (reg treg : Reg) : List (Node (Insn φ)) :=
  [⟨0, .load .dw treg fp dtStkSp⟩,
   ⟨0, .aluImm .add treg (imm 8)⟩,
   ⟨0, .load .dw reg treg 0⟩,
   ⟨0, .store .dw fp dtStkSp treg⟩]

/-- The body of `dt_cg_agg_stddev_impl`. -/
def stddevImplCode (dreg vreg hreg lreg onereg lowreg : Reg) (Lncr : ℕ) : List (Node (Insn φ)) :=
  [⟨0, .movImm onereg (imm 1)⟩,
   ⟨0, .xaddReg .dw dreg 0 onereg⟩,
   ⟨0, .xaddReg .dw dreg 8 vreg⟩,
   ⟨0, .load .dw lowreg dreg 16⟩,
   ⟨0, .aluReg .add lowreg lreg⟩,
   ⟨0, .branchReg .jle lreg lowreg Lncr⟩,
   ⟨0, .xaddReg .dw dreg 24 onereg⟩,
   ⟨Lncr, .store .dw dreg 16 lowreg⟩,
   ⟨0, .xaddReg .dw dreg 24 hreg⟩]

def dtCgPopStack (S : Regset) (reg : Reg) : Option (List (Node (Insn φ)) × Regset) :=
  match dtRegsetAlloc S with
  | none => none
  | some (treg, c, S₁) =>
    let (f, S₂) := dtRegsetFree S₁ treg
    some (plain c ++ popCode reg treg ++ plain f, S₂)

def dtCgAggStddevImpl (S : Regset) (dreg vreg hreg lreg : Reg) (lbl : ℕ) :
    Option (List (Node (Insn φ)) × Regset × ℕ) :=
  match dtRegsetAlloc S with
  | none => none
  | some (onereg, c₁, S₁) =>
    match dtRegsetAlloc S₁ with
    | none => none
    | some (lowreg, c₂, S₂) =>
      let (f, S₃) := freeAll [onereg, lowreg] S₂
      some (plain (c₁ ++ c₂) ++ stddevImplCode dreg vreg hreg lreg onereg lowreg lbl ++ plain f, S₃, lbl + 1)

/-- `DT_CG_AGG_IMPL` with `dt_cg_agg_stddev_impl`. -/
def dtCgAggImplStddev (S : Regset) (vreg hreg lreg : Reg) (lbl : ℕ) : Option (List (Node (Insn φ)) × Regset × ℕ) :=
  match dtRegsetAlloc S with
  | none => none
  | some (dreg, c, S₁) =>
    match dtCgPopStack S₁ dreg with
    | none => none
    | some (pop, S₂) =>
      match dtCgAggStddevImpl S₂ dreg vreg hreg lreg lbl with
      | none => none
      | some (impl, S₃, lbl') =>
        let (f, S₄) := dtRegsetFree S₃ dreg
        some (plain c ++ pop ++ impl ++ plain f, S₄, lbl')

/-- `dt_cg_agg_stddev`, after the code of its argument. -/
def dtCgAggStddev (S : Regset) (valreg : Reg) (lbl : ℕ) : Option (List (Node (Insn φ)) × Regset × ℕ) :=
  match dtRegsetAlloc S with
  | none => none
  | some (hireg, c₁, S₁) =>
    match dtRegsetAlloc S₁ with
    | none => none
    | some (lowreg, c₂, S₂) =>
      match dtRegsetAlloc S₂ with
      | none => none
      | some (midreg, c₃, S₃) =>
        match dtRegsetAlloc S₃ with
        | none => none
        | some (lmdreg, c₄, S₄) =>
          let (f, S₅) := freeAll [lmdreg, midreg] S₄
          match dtCgAggImplStddev S₅ valreg hireg lowreg (lbl + 2) with
          | none => none
          | some (impl, S₆, lbl') =>
            let (g, S₇) := freeAll [valreg, hireg, lowreg] S₆
            some (plain (c₁ ++ c₂ ++ c₃ ++ c₄) ++ squareCode valreg hireg lowreg midreg lmdreg lbl (lbl + 1) ++ plain f ++
              impl ++ plain g, S₇, lbl')

end

/-! ## The square -/

/-- The low and the high word the code computes from a magnitude. -/
def squareWords (a : Word) : Word × Word :=
  let l := a <<< 32 >>> 32
  let h := a >>> 32
  let mid := l * h
  let low := l * l + mid <<< 33
  (low, (if (mid <<< 33).ule low then h * h else h * h + 1#64) + mid >>> 31)

theorem squareWords_spec {a : Word} (ha : a.toNat ≤ 2 ^ 63) :
    (squareWords a).1.toNat + 2 ^ 64 * (squareWords a).2.toNat = a.toNat ^ 2 := by
  obtain ⟨l, hl⟩ : ∃ l, l = a.toNat % 2 ^ 32 := ⟨_, rfl⟩
  obtain ⟨h, hh⟩ : ∃ h, h = a.toNat / 2 ^ 32 := ⟨_, rfl⟩
  have hle : h ≤ 2 ^ 31 := by omega
  have hsplit : a.toNat = h * 2 ^ 32 + l := by omega
  have hlow : (a <<< 32 >>> 32).toNat = l := by
    rw [BitVec.toNat_ushiftRight, BitVec.toNat_shiftLeft, Nat.shiftLeft_eq, Nat.shiftRight_eq_div_pow]
    omega
  have hhigh : (a >>> 32).toNat = h := by rw [BitVec.toNat_ushiftRight, Nat.shiftRight_eq_div_pow, hh]
  -- the three products fit in a word
  have hm : l * h ≤ (2 ^ 32 - 1) * 2 ^ 31 := Nat.mul_le_mul (by omega) hle
  have hll : l * l ≤ (2 ^ 32 - 1) * (2 ^ 32 - 1) := Nat.mul_le_mul (by omega) (by omega)
  have hhh : h * h ≤ 2 ^ 31 * 2 ^ 31 := Nat.mul_le_mul hle hle
  have hsq : a.toNat ^ 2 = 2 ^ 64 * (h * h) + 2 ^ 33 * (l * h) + l * l := by rw [hsplit]; ring
  have hmid : (a <<< 32 >>> 32 * a >>> 32).toNat = l * h := by
    rw [BitVec.toNat_mul, hlow, hhigh]
    exact Nat.mod_eq_of_lt (by omega)
  have hll' : (a <<< 32 >>> 32 * a <<< 32 >>> 32).toNat = l * l := by
    rw [BitVec.toNat_mul, hlow]
    exact Nat.mod_eq_of_lt (by omega)
  have hhh' : (a >>> 32 * a >>> 32).toNat = h * h := by
    rw [BitVec.toNat_mul, hhigh]
    exact Nat.mod_eq_of_lt (by omega)
  unfold squareWords
  simp only
  generalize a <<< 32 >>> 32 * a >>> 32 = mid at hmid
  generalize a <<< 32 >>> 32 * a <<< 32 >>> 32 = ll at hll'
  have hshl : (mid <<< 33).toNat = 2 ^ 33 * (l * h) % 2 ^ 64 := by
    rw [BitVec.toNat_shiftLeft, hmid, Nat.shiftLeft_eq, mul_comm]
  have hshr : (mid >>> 31).toNat = l * h / 2 ^ 31 := by rw [BitVec.toNat_ushiftRight, hmid, Nat.shiftRight_eq_div_pow]
  have hadd : (ll + mid <<< 33).toNat = (l * l + 2 ^ 33 * (l * h) % 2 ^ 64) % 2 ^ 64 := by
    rw [BitVec.toNat_add, hll', hshl]
  have hcarry : (mid <<< 33).ule (ll + mid <<< 33) =
      decide (2 ^ 33 * (l * h) % 2 ^ 64 ≤ (l * l + 2 ^ 33 * (l * h) % 2 ^ 64) % 2 ^ 64) := by
    rw [BitVec.ule, hshl, hadd]
  have hone : (1#64).toNat = 1 := rfl
  rw [hadd, hcarry, hsq]
  generalize l * h = m at *
  generalize l * l = q at *
  by_cases hc : 2 ^ 33 * m % 2 ^ 64 ≤ (q + 2 ^ 33 * m % 2 ^ 64) % 2 ^ 64
  · rw [decide_eq_true hc, if_pos rfl, BitVec.toNat_add, hhh', hshr]
    omega
  · rw [decide_eq_false hc, if_neg (by decide), BitVec.toNat_add, BitVec.toNat_add, hhh', hshr, hone]
    omega

/-- The update of the data of `stddev()`: count, sum, and the sum of squares in two words with a carry. -/
def stddevUpd (v : Datum) (data : List Datum) : List Datum :=
  let (l, h) := squareWords (BitVec.ofNat 64 v.toInt.natAbs)
  let low := binAt data 2 + l
  [binAt data 0 + 1#64, binAt data 1 + v, low, (if l.ule low then binAt data 3 else binAt data 3 + 1#64) + h]

/-! ## Running the code -/

section

variable {C : Callee φ} {P : List (Node (Insn φ))} {pc : ℕ}

lemma toNat_imm_mod {k : ℕ} (hk : k < 64) : ((imm k).signExtend 64).toNat % 64 = k := by
  rw [imm_signExtend (by omega), BitVec.toNat_ofNat]
  omega

section

-- the registers that the code gets: the value in 8, the words of the square in 7 and 6
variable {Lpos Lncy : ℕ} (hat : At P pc (squareCode 8 7 6 5 4 Lpos Lncy)) (s : St φ)

include hat

lemma products_runs : ∃ s', BpfRuns C P (pc + 3, s) (pc + 14, s') ∧ St.Only [7, 6, 5, 4] s s' ∧
    let l := s.regs 6 <<< 32 >>> 32
    let h := s.regs 6 >>> 32
    s'.regs 6 = l * l ∧ s'.regs 7 = h * h ∧ s'.regs 5 = (l * h) >>> 31 ∧ s'.regs 4 = (l * h) <<< 33 := by
  have node := fun i : Fin 18 => hat i i.isLt
  refine ⟨_, aluReg (node 3) rfl <| aluImm (node 4) rfl <| aluImm (node 5) rfl <|
    aluImm (node 6) rfl <| aluReg (node 7) rfl <| aluReg (node 8) rfl <|
    aluReg (node 9) rfl <| aluReg (node 10) rfl <| aluReg (node 11) rfl <|
    aluImm (node 12) rfl <| aluImm (node 13) rfl <| .refl _, ?_, ?_⟩
  · exact (St.Only.refl _ s).setReg.setReg.setReg.setReg.setReg.setReg.setReg.setReg.setReg.setReg.setReg
  · simp [AluOp.eval, toNat_imm_mod]

lemma sum_runs (hP : LabelsNodup P) (hL : Lncy ≠ 0) : ∃ s', BpfRuns C P (pc + 14, s) (pc + 18, s') ∧
    St.Only [7, 6, 5, 4] s s' ∧ s'.regs 6 = s.regs 6 + s.regs 4 ∧
    s'.regs 7 = (if (s.regs 4).ule (s.regs 6 + s.regs 4) then s.regs 7 else s.regs 7 + 1#64) + s.regs 5 := by
  have node := fun i : Fin 18 => hat i i.isLt
  have hlab := labelPos_of_getElem? hP hL (node 17) rfl
  have hon : St.Only [7, 6, 5, 4] s (s.setReg 6 (s.regs 6 + s.regs 4)) := (St.Only.refl _ s).setReg
  cases hc : (s.regs 4).ule (s.regs 6 + s.regs 4) with
  | true =>
    refine ⟨_, aluReg (node 14) rfl <| branchReg_taken (node 15) ?_ hlab <|
      aluReg (node 17) rfl <| .refl _, hon.setReg, ?_, ?_⟩
    all_goals simp [AluOp.eval, JmpOp.eval, hc]
  | false =>
    refine ⟨_, aluReg (node 14) rfl <| branchReg_skip (node 15) ?_ <|
      aluImm (node 16) rfl <| aluReg (node 17) rfl <| .refl _,
      hon.setReg.setReg, ?_, ?_⟩
    all_goals simp [AluOp.eval, JmpOp.eval, hc]

theorem squareCode_runs (hP : LabelsNodup P) (hpos : Lpos ≠ 0) (hncy : Lncy ≠ 0) :
    ∃ s', BpfRuns C P (pc, s) (pc + 18, s') ∧ St.Only [7, 6, 5, 4] s s' ∧
      (s'.regs 6, s'.regs 7) = squareWords (BitVec.ofNat 64 (s.regs 8).toInt.natAbs) := by
  have node := fun i : Fin 18 => hat i i.isLt
  obtain ⟨s1, hrun1, ha, hon1⟩ := magnitude_runs (C := C) (s := s) (node 0) (node 1) (node 2)
    (labelPos_of_getElem? hP hpos (node 3) rfl) (by simp) (by simp [exec])
  obtain ⟨s2, hrun2, hon2, hl2, hh2, hm2, hd2⟩ := products_runs hat s1
  obtain ⟨s3, hrun3, hon3, hl3, hh3⟩ := sum_runs hat s2 hP hncy
  refine ⟨s3, hrun1.trans (hrun2.trans hrun3), (hon1.mono (by simp)).trans (hon2.trans hon3), ?_⟩
  rw [hl3, hh3, hl2, hh2, hm2, hd2, ha]
  rfl

end

variable {p : Word}

section

lemma addr_word {s : St φ} {r : Reg} (hp : s.regs r = p) (i : ℕ) {o : ℤ} (ho : o = (8 * i : ℕ)) :
    s.addr r o = Mem.wordAddr p i := by
  rw [ho, St.addr, hp, Mem.wordAddr, BitVec.ofInt_natCast]

lemma words_set {m : Mem} {ws : List Word} (h : m.words p 4 = ws) {i : ℕ} (hi : i < 4) (w : Word) :
    (m.setW (Mem.wordAddr p i) w).words p 4 = ws.set i w := by
  rw [Mem.words_setW _ p w hi (by omega), h]

-- the record is where the register 5 points to; 8 has the value, 7 and 6 have its square
variable {Lncr : ℕ} (hat : At P pc (stddevImplCode 5 8 7 6 4 3 Lncr)) (s : St φ) {c0 c₁ c₂ c₃ : Word}
  (hdata : s.mem.words (s.regs 5) 4 = [c0, c₁, c₂, c₃])

include hat hdata

lemma counts_runs : ∃ m : Mem, BpfRuns C P (pc, s) (pc + 5, ((s.setReg 4 1#64).setReg 3 (c₂ + s.regs 6)).setMem m) ∧
    m.words (s.regs 5) 4 = [c0 + 1#64, c₁ + s.regs 8, c₂, c₃] := by
  have node := fun i : Fin 9 => hat i i.isLt
  have hd : (s.setReg 4 1#64).regs 5 = s.regs 5 := setReg_regs_ne s _ (by decide)
  have hw1 := words_set hdata (show 0 < 4 by omega) (c0 + 1#64)
  have hw2 := words_set hw1 (show 1 < 4 by omega) (c₁ + s.regs 8)
  refine ⟨_, ?_, hw2⟩
  refine aluImm (v := 1#64) (node 0) (by simp [AluOp.eval]) ?_
  refine xaddW (v := c0 + 1#64) (node 1) (by decide) (addr_word hd 0 rfl) ?_ ?_
  · rw [setReg_regs_self, setReg_mem, Mem.getW_of_words hdata 0 rfl]
  refine xaddW (v := c₁ + s.regs 8) (node 2) (by decide) (addr_word hd 1 rfl) ?_ ?_
  · simp [Mem.getW_of_words hw1 1 rfl]
  refine loadW (v := c₂) (node 3) (by decide) (addr_word hd 2 rfl) ?_ ?_
  · rw [setMem_mem, setMem_mem, setReg_mem, Mem.getW_of_words hw2 2 rfl]
  refine aluReg (v := c₂ + s.regs 6) (node 4) (by simp [AluOp.eval]) ?_
  simp only [St.setReg, St.setMem, Function.update_idem]
  exact .refl _

lemma carry_runs (hP : LabelsNodup P) (hL : Lncr ≠ 0) (hone : s.regs 4 = 1#64) :
    ∃ m : Mem, BpfRuns C P (pc + 5, s) (pc + 7, s.setMem m) ∧
      m.words (s.regs 5) 4 = [c0, c₁, c₂, if (s.regs 6).ule (s.regs 3) then c₃ else c₃ + 1#64] := by
  have node := fun i : Fin 9 => hat i i.isLt
  have hlab := labelPos_of_getElem? hP hL (node 7) rfl
  cases hc : (s.regs 6).ule (s.regs 3) with
  | true => exact ⟨s.mem, branchReg_taken (node 5) hc hlab (.refl _), hdata⟩
  | false =>
    refine ⟨_, branchReg_skip (node 5) hc (xaddW (node 6) (by decide)
      (addr_word rfl 3 rfl) ?_ (.refl _)), words_set hdata (by omega) (c₃ + 1#64)⟩
    rw [Mem.getW_of_words hdata 3 rfl, hone]

lemma high_runs : ∃ m : Mem, BpfRuns C P (pc + 7, s) (pc + 9, s.setMem m) ∧
    m.words (s.regs 5) 4 = [c0, c₁, s.regs 3, c₃ + s.regs 7] := by
  have node := fun i : Fin 9 => hat i i.isLt
  have hw := words_set hdata (show 2 < 4 by omega) (s.regs 3)
  refine ⟨_, storeW (node 7) (by decide) (addr_word rfl 2 rfl) (xaddW (node 8)
    (by decide) (addr_word rfl 3 rfl) ?_ (.refl _)), words_set hw (by omega) (c₃ + s.regs 7)⟩
  rw [setMem_mem, setMem_regs, Mem.getW_of_words hw 3 rfl]

theorem stddevImplCode_runs (hP : LabelsNodup P) (hL : Lncr ≠ 0) : ∃ s', BpfRuns C P (pc, s) (pc + 9, s') ∧
    s'.mem.words (s.regs 5) 4 = [c0 + 1#64, c₁ + s.regs 8, c₂ + s.regs 6,
      (if (s.regs 6).ule (c₂ + s.regs 6) then c₃ else c₃ + 1#64) + s.regs 7] := by
  obtain ⟨m1, hrun1, hw1⟩ := counts_runs hat s hdata
  set s1 := ((s.setReg 4 1#64).setReg 3 (c₂ + s.regs 6)).setMem m1 with hs1
  have hd : s1.regs 5 = s.regs 5 := by simp [hs1]
  obtain ⟨m2, hrun2, hw2⟩ := carry_runs hat s1 (by rw [hd]; exact hw1) hP hL (by simp [hs1])
  obtain ⟨_, hrun3, hw3⟩ := high_runs hat (s1.setMem m2) hw2
  refine ⟨_, hrun1.trans (hrun2.trans hrun3), ?_⟩
  rw [← hd]
  refine hw3.trans ?_
  simp [hs1]

end

lemma popCode_runs {reg treg : Reg} (hat : At P pc (popCode reg treg)) (htreg : treg ≠ fp) (s : St φ)
    (hp : s.mem.getW (s.stk dtStkSp + 8#64) = p) : ∃ s', BpfRuns C P (pc, s) (pc + 4, s') ∧ s'.mem = s.mem ∧
      s'.regs reg = p ∧ ∀ q, q ∉ [reg, treg] → s'.regs q = s.regs q := by
  have node := fun i : Fin 4 => hat i i.isLt
  set sp := s.stk dtStkSp + 8#64
  have hload : exec C (.load .dw treg fp dtStkSp) s = .next (s.setReg treg (s.stk dtStkSp)) := by simp [exec]
  have hstore : ∀ s : St φ, exec C (.store .dw fp dtStkSp treg) s = .next (s.setStk dtStkSp (s.regs treg)) := by
    intro s
    simp [exec]
  refine ⟨_, .next (node 0) hload <| aluImm (v := sp) (node 1) ?_ <|
    loadW (a := sp) (v := p) (node 2) htreg ?_ ?_ <| .next (node 3) (hstore _) <| .refl _, rfl, ?_, ?_⟩
  · simp [AluOp.eval, imm_signExtend (show 8 < 2 ^ 31 by omega), sp]
  · simp [St.addr]
  · exact hp
  · simp [St.setStk]
  · intro q hq
    simp only [List.mem_cons, List.not_mem_nil, or_false, not_or] at hq
    simp [St.setStk, hq.1, hq.2]

end

/-! ## The generated code -/

section

/-- The code of `dt_cg_agg_stddev` when the value is in the first register and no other is in use. -/
def stddevCode (lbl : ℕ) : List (Node (Insn φ)) :=
  squareCode 8 7 6 5 4 lbl (lbl + 1) ++ (popCode 5 4 ++ stddevImplCode 5 8 7 6 4 3 (lbl + 2))

lemma dtCgAggStddev_argRegset (lbl : ℕ) : ∃ S, (dtCgAggStddev argRegset 8 lbl :
    Option (List (Node (Insn φ)) × Regset × ℕ)) = some (stddevCode lbl, S, lbl + 3) := by
  exact ⟨_, rfl⟩

lemma stddevCode_labels {lbl : ℕ} (hlbl : lbl ≠ 0) : LabelsNodup (stddevCode (φ := φ) lbl) := by
  simp [LabelsNodup, stddevCode, squareCode, popCode, stddevImplCode, hlbl]

end

/-- The code generated for the value `v` makes `data'` of the record `data`: there is code, and wherever it is placed, a
run through it leaves `data'` where the pointer on top of the stack points to. -/
def CodeRecords (v : Word) (data data' : List Word) : Prop :=
  ∀ (φ : Type) (lbl : ℕ), lbl ≠ 0 → ∃ (code : List (Node (Insn φ))) (S : Regset) (lbl' : ℕ),
    dtCgAggStddev argRegset 8 lbl = some (code, S, lbl') ∧ LabelsNodup code ∧
    ∀ (C : Callee φ) (P : List (Node (Insn φ))) (pc : ℕ) (s : St φ) (p : Word), LabelsNodup P → At P pc code →
      s.regs 8 = v → s.mem.getW (s.stk dtStkSp + 8#64) = p → s.mem.words p 4 = data →
      ∃ s', BpfRuns C P (pc, s) (pc + code.length, s') ∧ s'.mem.words p 4 = data'

theorem dtCgAggStddev_records (v : Word) {data : List Word} (hlen : data.length = 4) :
    CodeRecords v data (stddevUpd v data) := by
  intro φ lbl hlbl
  obtain ⟨S, hcode⟩ := dtCgAggStddev_argRegset (φ := φ) lbl
  refine ⟨_, S, _, hcode, stddevCode_labels hlbl, ?_⟩
  intro C P pc s p hP hat hv hp hdata
  obtain ⟨c0, c₁, c₂, c₃, rfl⟩ : ∃ c0 c₁ c₂ c₃, data = [c0, c₁, c₂, c₃] := by
    match data, hlen with
    | [c0, c₁, c₂, c₃], _ => exact ⟨c0, c₁, c₂, c₃, rfl⟩
  obtain ⟨hat1, hat2⟩ := At.append.1 hat
  obtain ⟨hat2, hat3⟩ := At.append.1 hat2
  obtain ⟨s1, hrun1, hon1, hsq⟩ := squareCode_runs hat1 s hP hlbl (by omega)
  obtain ⟨s2, hrun2, hmem2, hd2, hon2⟩ := popCode_runs hat2 (by decide) s1 (p := p)
    (by rw [hon1.stk, hon1.mem]; exact hp)
  obtain ⟨s3, hrun3, hw3⟩ := stddevImplCode_runs (C := C) hat3 s2
    (by rw [hmem2, hon1.mem, hd2]; exact hdata) hP (by omega)
  refine ⟨s3, hrun1.trans (hrun2.trans hrun3), ?_⟩
  have h8 : s2.regs 8 = v := by rw [hon2 8 (by decide), hon1.regs 8 (by decide), hv]
  have h7 : s2.regs 7 = s1.regs 7 := hon2 7 (by decide)
  have h6 : s2.regs 6 = s1.regs 6 := hon2 6 (by decide)
  rw [hd2, h8, h7, h6] at hw3
  rw [hw3, stddevUpd, ← hv, ← hsq]
  rfl

end DTrace.Agg
