import DTrace.Cg.ExprOps

/-!
# Faults

Code that raises a fault calls `dt_probe_error` and returns from the clause.

* `Raises` — a piece of code, started in a state, ends the clause with a fault;
* `probeError_raises`, `probeErrorReg_raises` — the code of `dt_cg_probe_error`, for an immediate and for a register;
* `Raises.not_does` — a whole program that raises a fault does not run to its end.
-/

namespace DTrace.Cg

open Lib Bpf

/-- `dt_cg_probe_error` with the illegal value in a register.  `%r4` gets its own number. -/
def dtCgProbeErrorReg (fault : Fault) (ill : Reg) : List CgInsn :=
  (if ill ≠ 4 then .movReg 4 ill else .movImm 4 (imm 4)) :: (dtCgProbeError fault (imm 0)).tail

/-- The code, started in `s`, ends the clause with a fault: the last thing it does is to report the fault for the context
it was started with. -/
def Raises (C : Callee Func) (P c : CgCode) (s : St Func) (fault : Fault) : Prop :=
  ∃ s' args, Stops (exec C) P c s s' ∧ s'.calls.getLast? = some (.dtProbeError, args) ∧ args 0 = s.stk dtStkDctx ∧
    args 2 = BitVec.ofNat 64 fault.code

section

variable {C : Callee Func} {P a b c : CgCode} {s s' : St Func} {fault : Fault}

lemma Fault.code_signExtend (fault : Fault) : (imm fault.code).signExtend 64 = BitVec.ofNat 64 fault.code := by
  cases fault <;> decide

lemma Raises.append (h : Raises C P a s fault) : Raises C P (a ++ b) s fault := by
  obtain ⟨s', args, hstop, hlast, hctx, hcode⟩ := h
  exact ⟨s', args, hstop.append, hlast, hctx, hcode⟩

lemma Raises.of_does (ha : Does (exec C) P a s s') (hstk : s'.stk dtStkDctx = s.stk dtStkDctx)
    (h : Raises C P b s' fault) : Raises C P (a ++ b) s fault := by
  obtain ⟨t, args, hstop, hlast, hctx, hcode⟩ := h
  exact ⟨t, args, ha.stops hstop, hlast, hctx.trans hstk, hcode⟩

lemma Raises.cons {l : ℕ} {i : CgInsn} (hi : exec C i s = .next s') (hstk : s'.stk dtStkDctx = s.stk dtStkDctx)
    (h : Raises C P c s' fault) : Raises C P (⟨l, i⟩ :: c) s fault := by
  obtain ⟨t, args, hstop, hlast, hctx, hcode⟩ := h
  exact ⟨t, args, hstop.cons hi, hlast, hctx.trans hstk, hcode⟩

lemma Raises.skip {l k : ℕ} {i j : CgInsn} {mid : CgCode} (hP : LabelsNodup P) (hl : l ≠ 0)
    (hi : exec C i s = .goto l s) (h : Raises C P (⟨l, j⟩ :: c) s fault) :
    Raises C P (⟨k, i⟩ :: (mid ++ ⟨l, j⟩ :: c)) s fault := by
  obtain ⟨t, args, hstop, hlast, hctx, hcode⟩ := h
  exact ⟨t, args, hstop.skip hP hl hi, hlast, hctx, hcode⟩

theorem Raises.not_does (h : Raises C c c s fault) (h' : Does (exec C) c c s s') : False := by
  obtain ⟨t, _, hstop, -⟩ := h
  exact h'.not_stops hstop

/-- What `dt_cg_probe_error` moves into the other argument registers. -/
def probeErrorMoves (fault : Fault) : List CgInsn :=
  [accessDctx 1, .movImm 2 immNegOne, .aluImm .add 2 (imm 3), .movImm 3 (imm fault.code)]

lemma exec_accessDctx (d : Reg) (s : St Func) : exec C (accessDctx d) s = .next (s.setReg d (s.stk dtStkDctx)) := by
  rw [← loadVal_dw_fp]
  rfl

lemma exec_aluImm (op : AluOp) (d : Reg) (i : BitVec 32) (s : St Func) :
    exec C (.aluImm op d i) s = .next (s.setReg d (op.eval (s.regs d) (i.signExtend 64))) := rfl

-- the immediates stay variables: the kernel would compute with their values
lemma execBlock_errorMoves (i j k : BitVec 32) (s : St Func) :
    execBlock (exec C) [accessDctx 1, .movImm 2 i, .aluImm .add 2 j, .movImm 3 k] s =
      some ((((s.setReg 1 (s.stk dtStkDctx)).setReg 2 (i.signExtend 64)).setReg 2
        (i.signExtend 64 + j.signExtend 64)).setReg 3 (k.signExtend 64)) := by
  simp only [execBlock, exec_accessDctx, exec_aluImm, AluOp.eval, setReg_regs_self]

lemma execBlock_probeErrorMoves (fault : Fault) (s : St Func) :
    ∃ t, execBlock (exec C) (probeErrorMoves fault) s = some t ∧ t.args 0 = s.stk dtStkDctx ∧
      t.args 2 = BitVec.ofNat 64 fault.code := by
  refine ⟨_, execBlock_errorMoves _ _ _ s, rfl, ?_⟩
  rw [← Fault.code_signExtend]
  rfl

lemma probeErrorTail_raises (ill : BitVec 32) (s : St Func) :
    Raises C P (plain (dtCgProbeError fault ill).tail) s fault := by
  obtain ⟨t, hmoves, hctx, hcode⟩ := execBlock_probeErrorMoves fault s
  have hsplit : plain (dtCgProbeError fault ill).tail =
      plain (probeErrorMoves fault) ++ [⟨0, .callFunc .dtProbeError⟩, ⟨0, .exit⟩] := rfl
  rw [hsplit]
  exact ⟨_, t.args, (Does.block hmoves).stops (Stops.cons rfl (Stops.here rfl)), by simp, hctx, hcode⟩

theorem probeError_raises (ill : BitVec 32) (s : St Func) : Raises C P (plain (dtCgProbeError fault ill)) s fault :=
  Raises.cons (show exec C (.movImm 4 ill) s = .next (s.setReg 4 (ill.signExtend 64)) from rfl) rfl
    (probeErrorTail_raises ill _)

theorem probeErrorReg_raises (ill : Reg) (s : St Func) : Raises C P (plain (dtCgProbeErrorReg fault ill)) s fault := by
  unfold dtCgProbeErrorReg
  split
  · exact Raises.cons (show exec C (.movReg 4 ill) s = .next (s.setReg 4 (s.regs ill)) from rfl) rfl
      (probeErrorTail_raises _ _)
  · exact Raises.cons (show exec C (.movImm 4 (imm 4)) s = .next (s.setReg 4 ((imm 4).signExtend 64)) from rfl) rfl
      (probeErrorTail_raises _ _)

end

end DTrace.Cg
