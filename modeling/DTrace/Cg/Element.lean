import DTrace.Cg.Fault

/-!
# Elements of an array

The index of an element is scaled by the element size, and the result compared with the size of the array.

* `index_check_iff` — for which arrays and indices the check is exact.
-/

namespace DTrace.Cg

open Lib Bpf BitVec Nat

def dtCgPtrsize (op : AluOp) (dreg : Reg) (size : ℕ) : List CgInsn :=
  if size = 1 then [] else [.aluImm op dreg (imm size)]

/-- Arrays of size 0 or 1 are not checked. -/
def boundsCheck (nelems size : ℕ) (right : Reg) (L1 : ℕ) : CgCode :=
  if nelems > 1 then
    ⟨0, .branchImm .jlt right (imm (nelems * size)) L1⟩ ::
      plain (.aluImm .div right (imm size) :: dtCgProbeErrorReg .badindex right)
  else []

/-- The end of `dt_cg_arithmetic_op`, for an array in `left` and an index that is not a constant in `right`. -/
def dtCgElement (nelems size : ℕ) (left right : Reg) (L1 : ℕ) : CgCode :=
  plain (dtCgPtrsize .mul right size) ++ (boundsCheck nelems size right L1 ++ [⟨L1, .aluReg .add left right⟩])

/-- The code raises a fault for an index outside the array, and otherwise computes the address of the element. -/
structure IndexExact (C : Callee Func) (c : CgCode) (s : St Func) (nelems size : ℕ) (left right : Reg) : Prop where
  fault : Raises C c c s .badindex ↔ nelems ≤ (s.regs right).toNat
  element : (s.regs right).toNat < nelems →
    ∃ s', Does (exec C) c c s s' ∧ s'.regs left = s.regs left + BitVec.ofNat 64 ((s.regs right).toNat * size)

/-- The index times the element size, as it is in an immediate, modulo `2^64`. -/
def scaled (size : ℕ) (v : Word) : Word := if size = 1 then v else v * (imm size).signExtend 64

/-- The scaled index is below the size of the array, as it is in an immediate: 32 bits, sign-extended. -/
def Passes (nelems size : ℕ) (v : Word) : Prop := v.toNat < ((imm (nelems * size)).signExtend 64).toNat

section

variable {C : Callee Func} {P : CgCode} {s : St Func} {nelems size L1 : ℕ} {left right : Reg}

lemma ptrsize_does (right : Reg) (size : ℕ) (s : St Func) :
    ∃ s', Does (exec C) P (plain (dtCgPtrsize .mul right size)) s s' ∧
      s'.regs right = scaled size (s.regs right) ∧ (∀ q, q ≠ right → s'.regs q = s.regs q) ∧ s'.stk = s.stk := by
  unfold dtCgPtrsize scaled
  split
  · exact ⟨s, Does.nil s, rfl, fun _ _ => rfl, rfl⟩
  · exact ⟨_, Does.cons (exec_aluImm ..) (Does.nil _), by simp [AluOp.eval], fun q hq => by simp [hq], rfl⟩

lemma boundsCheck_does (left : Reg) (hP : LabelsNodup P) (hn : nelems > 1) (hL1 : L1 ≠ 0)
    (h : Passes nelems size (s.regs right)) :
    Does (exec C) P (boundsCheck nelems size right L1 ++ [⟨L1, .aluReg .add left right⟩]) s
      (s.setReg left (s.regs left + s.regs right)) := by
  rw [boundsCheck, if_pos hn]
  exact Does.skip hP hL1 (exec_branchImm_taken (decide_eq_true h)) (Does.cons rfl (Does.nil _))

lemma boundsCheck_raises (hn : nelems > 1) (h : ¬ Passes nelems size (s.regs right)) :
    Raises C P (boundsCheck nelems size right L1) s .badindex := by
  rw [boundsCheck, if_pos hn]
  refine Raises.cons (exec_branchImm_skip (decide_eq_false h)) rfl ?_
  exact Raises.cons (exec_aluImm ..) rfl (probeErrorReg_raises right _)

lemma dtCgElement_labels (hn : nelems > 1) : LabelsNodup (dtCgElement nelems size left right L1) := by
  refine labelsNodup_of_labelCount fun l hl => ?_
  rw [dtCgElement, boundsCheck, if_pos hn]
  simp only [labelCount_append, labelCount_cons, labelCount_nil, labelCount_plain hl, Ne.symm hl, if_false]
  split <;> omega

lemma indexExact_iff (hn : nelems > 1) (hL1 : L1 ≠ 0) (hlr : left ≠ right) (s : St Func) :
    IndexExact C (dtCgElement nelems size left right L1) s nelems size left right ↔
      (Passes nelems size (scaled size (s.regs right)) ↔ (s.regs right).toNat < nelems) ∧
      ((s.regs right).toNat < nelems → scaled size (s.regs right) = .ofNat 64 ((s.regs right).toNat * size)) := by
  obtain ⟨s1, hscale, hval, hother, hstk⟩ :=
    ptrsize_does (C := C) (P := dtCgElement nelems size left right L1) right size s
  rw [← hval]
  by_cases hpass : Passes nelems size (s1.regs right)
  · have hdoes := hscale.append (boundsCheck_does left (dtCgElement_labels hn) hn hL1 hpass)
    have hno := fun hr : Raises C (dtCgElement nelems size left right L1) _ s .badindex => hr.not_does hdoes
    constructor
    · intro hex
      have hin := not_le.1 fun hle => hno (hex.fault.2 hle)
      obtain ⟨s', hdoes', haddr⟩ := hex.element hin
      rw [hdoes'.unique hdoes, setReg_regs_self, hother left hlr] at haddr
      exact ⟨iff_of_true hpass hin, fun _ => (BitVec.add_right_inj _).1 haddr⟩
    · rintro ⟨hiff, hmul⟩
      have hin := hiff.1 hpass
      refine ⟨iff_of_false hno hin.not_ge, fun _ => ⟨_, hdoes, ?_⟩⟩
      rw [setReg_regs_self, hother left hlr, hmul hin]
  · have hraises : Raises C (dtCgElement nelems size left right L1)
        (dtCgElement nelems size left right L1) s .badindex :=
      Raises.of_does hscale (by rw [hstk]) (boundsCheck_raises hn hpass).append
    constructor
    · intro hex
      have hout := (hex.fault.1 hraises).not_gt
      exact ⟨iff_of_false hpass hout, fun hin => absurd hin hout⟩
    · rintro ⟨hiff, -⟩
      have hout := fun hin => hpass (hiff.2 hin)
      exact ⟨iff_of_true hraises (not_lt.1 hout), fun hin => absurd hin hout⟩

lemma scaled_of_lt (hsize : size < 2 ^ 31) (v : Word) : scaled size v = BitVec.ofNat 64 (v.toNat * size) := by
  unfold scaled
  split
  · next h1 => simp [h1]
  · rw [imm_signExtend hsize, ofNat_mul, ofNat_toNat, setWidth_eq]

/-- The check is exact for an array and an index exactly if the scaled index passes it if and only if the index is inside,
and that of an index inside is not cut off.  For an array of fewer than `2^31` bytes, that is so unless the product wraps
around to something below the size of the array. -/
theorem index_check_iff (hn : nelems > 1) (hL1 : L1 ≠ 0) (hlr : left ≠ right) (s : St Func) :
    (IndexExact C (dtCgElement nelems size left right L1) s nelems size left right ↔
      (Passes nelems size (scaled size (s.regs right)) ↔ (s.regs right).toNat < nelems) ∧
      ((s.regs right).toNat < nelems → scaled size (s.regs right) = .ofNat 64 ((s.regs right).toNat * size))) ∧
    (0 < size → nelems * size < 2 ^ 31 →
      (IndexExact C (dtCgElement nelems size left right L1) s nelems size left right ↔
        (2 ^ 64 ≤ (s.regs right).toNat * size → nelems * size ≤ (s.regs right).toNat * size % 2 ^ 64))) := by
  refine ⟨indexExact_iff hn hL1 hlr s, fun hpos hlt => ?_⟩
  have hsize : size ≤ nelems * size := Nat.le_mul_of_pos_left _ (by omega)
  have hbound : ((imm (nelems * size)).signExtend 64).toNat = nelems * size := by
    rw [imm_signExtend hlt, toNat_ofNat, mod_eq_of_lt (by omega)]
  rw [indexExact_iff hn hL1 hlr, scaled_of_lt (by omega), Passes, hbound, toNat_ofNat]
  by_cases hin : (s.regs right).toNat < nelems
  · have := Nat.mul_lt_mul_of_pos_right hin hpos
    simp only [hin, true_imp_iff, and_true, iff_true]
    omega
  · have := Nat.mul_le_mul_right size (not_lt.1 hin)
    simp only [hin, false_imp_iff, and_true, iff_false]
    omega

end

/-- The index 3 of ten words. -/
theorem index_check_ten : IndexExact idleCallee (dtCgElement 10 8 8 7 1) (zeroSt.setReg 7 3) 10 8 8 7 :=
  ((index_check_iff (by decide) (by decide) (by decide) _).2 (by decide) (by decide)).2 (by decide)

/-- Two words: the index `2^61` is scaled to 0. -/
theorem index_check_words :
    ¬ IndexExact idleCallee (dtCgElement 2 8 8 7 1) (zeroSt.setReg 7 (.ofNat 64 (2 ^ 61))) 2 8 8 7 := by
  rw [indexExact_iff (by decide) (by decide) (by decide), setReg_regs_self, scaled_of_lt (by decide)]
  unfold Passes
  decide

end DTrace.Cg
