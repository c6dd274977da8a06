import DTrace.Lib.Code
import DTrace.Lib.Memory
import DTrace.Lib.Word

/-!
# The BPF machine

The instructions the code generator emits, as constructors named after the assembler macros, and what they do.  Names of
called functions are a parameter; what a called function does is given by a `Callee`.

* the frame (everything addressed through `%fp`) is a map from offsets to 64-bit slots, apart from other memory: the
  generated code uses it for its own 8-byte slots only;
* a call reads `%r1 … %r5`, leaves its result in `%r0` and anything in `%r1 … %r5`; `%r6 … %r9` and the frame of the
  caller are preserved;
* every call is logged with the five argument registers.
-/

namespace DTrace.Bpf

open Lib

abbrev Word := BitVec 64

/-- `%r0 … %r10`. -/
abbrev Reg := Fin 11

instance reg_lawfulBEq : LawfulBEq Reg := inferInstance
instance reg_neZero : NeZero 11 := ⟨by decide⟩
instance arg_neZero : NeZero 5 := ⟨by decide⟩

/-- `BPF_REG_FP`. -/
abbrev fp : Reg := 10

/-- `BPF_B`, `BPF_H`, `BPF_W`, `BPF_DW`. -/
inductive Size
  | b
  | h
  | w
  | dw
  deriving DecidableEq, Repr

def Size.bytes : Size → ℕ
  | .b => 1
  | .h => 2
  | .w => 4
  | .dw => 8

/-- The operations of the `BPF_ALU64` class. -/
inductive AluOp
  | mov
  | add
  | sub
  | mul
  | div
  | mod
  | and
  | or
  | xor
  | lsh
  | rsh
  | arsh
  deriving DecidableEq, Repr

/-- The conditions of the `BPF_JMP` class. -/
inductive JmpOp
  | jeq
  | jne
  | jlt
  | jle
  | jgt
  | jge
  | jslt
  | jsle
  | jsgt
  | jsge
  deriving DecidableEq, Repr

/-- The instructions; labels stand for jump offsets, and the two halves of `BPF_LDDW` are one instruction. -/
inductive Insn (φ : Type)
  | aluReg (op : AluOp) (dst src : Reg)
  | aluImm (op : AluOp) (dst : Reg) (imm : BitVec 32)
  | neg (dst : Reg)
  | lddw (dst : Reg) (val : Word)
  | load (sz : Size) (dst src : Reg) (ofs : ℤ)
  | store (sz : Size) (dst : Reg) (ofs : ℤ) (src : Reg)
  | storeImm (sz : Size) (dst : Reg) (ofs : ℤ) (imm : BitVec 32)
  | xaddReg (sz : Size) (dst : Reg) (ofs : ℤ) (src : Reg)
  | branchReg (op : JmpOp) (r₁ r₂ : Reg) (lbl : ℕ)
  | branchImm (op : JmpOp) (r : Reg) (imm : BitVec 32) (lbl : ℕ)
  | jump (lbl : ℕ)
  | callFunc (f : φ)
  | nop
  | exit
  deriving DecidableEq

/-- `BPF_MOV_REG`. -/
abbrev Insn.movReg {φ : Type} (dst src : Reg) : Insn φ := .aluReg .mov dst src

/-- `BPF_MOV_IMM`. -/
abbrev Insn.movImm {φ : Type} (dst : Reg) (imm : BitVec 32) : Insn φ := .aluImm .mov dst imm

/-- Division by zero gives zero, and the remainder by zero is the dividend; shift counts are taken modulo 64. -/
def AluOp.eval : AluOp → Word → Word → Word
  | .mov, _, b => b
  | .add, a, b => a + b
  | .sub, a, b => a - b
  | .mul, a, b => a * b
  | .div, a, b => a / b
  | .mod, a, b => a % b
  | .and, a, b => a &&& b
  | .or, a, b => a ||| b
  | .xor, a, b => a ^^^ b
  | .lsh, a, b => a <<< (b.toNat % 64)
  | .rsh, a, b => a >>> (b.toNat % 64)
  | .arsh, a, b => a.sshiftRight (b.toNat % 64)

def JmpOp.eval : JmpOp → Word → Word → Bool
  | .jeq, a, b => a == b
  | .jne, a, b => a != b
  | .jlt, a, b => a.ult b
  | .jle, a, b => a.ule b
  | .jgt, a, b => b.ult a
  | .jge, a, b => b.ule a
  | .jslt, a, b => a.slt b
  | .jsle, a, b => a.sle b
  | .jsgt, a, b => b.slt a
  | .jsge, a, b => b.sle a

def imm (n : ℕ) : BitVec 32 := BitVec.ofNat 32 n

/-- The immediate `-1`. -/
def immNegOne : BitVec 32 := BitVec.ofInt 32 (-1)

lemma imm_signExtend {n : ℕ} (h : n < 2 ^ 31) : (imm n).signExtend 64 = BitVec.ofNat 64 n := signExtend_ofNat h

@[simp] lemma imm_zero_signExtend : (imm 0).signExtend 64 = 0#64 := by decide

@[simp] lemma imm_one_signExtend : (imm 1).signExtend 64 = 1#64 := by decide

lemma immNegOne_signExtend : immNegOne.signExtend 64 = -1#64 := by decide

lemma jsge_zero (v : Word) : JmpOp.jsge.eval v ((imm 0).signExtend 64) = decide (0 ≤ v.toInt) := by
  rw [imm_zero_signExtend]
  simp [JmpOp.eval, BitVec.sle]

/-- The argument registers `%r1 … %r5`. -/
abbrev Args := Fin 5 → Word

/-- What called functions do: the result, what they leave in the argument registers, and memory afterwards. -/
structure Callee (φ : Type) where
  ret : φ → Args → Mem → Word
  scratch : φ → Args → Mem → Args
  effect : φ → Args → Mem → Mem

/-- The machine state. -/
@[ext]
structure St (φ : Type) where
  regs : Reg → Word
  stk : ℤ → Word
  mem : Mem
  calls : List (φ × Args)

section

variable {φ : Type}

/-- The `i`-th argument register. -/
def argReg (i : Fin 5) : Reg := ⟨i + 1, by omega⟩

def St.args (s : St φ) : Args := fun i => s.regs (argReg i)

def St.setReg (s : St φ) (r : Reg) (v : Word) : St φ := { s with regs := Function.update s.regs r v }

def St.setMem (s : St φ) (m : Mem) : St φ := { s with mem := m }

def St.setStk (s : St φ) (o : ℤ) (v : Word) : St φ := { s with stk := Function.update s.stk o v }

def St.addr (s : St φ) (r : Reg) (ofs : ℤ) : Word := s.regs r + BitVec.ofInt 64 ofs

def St.loadVal (s : St φ) (sz : Size) (r : Reg) (ofs : ℤ) : Word :=
  if r = fp then BitVec.ofNat 64 ((s.stk ofs).toNat % 256 ^ sz.bytes)
  else BitVec.ofNat 64 (s.mem.load sz.bytes (s.addr r ofs))

/-- A store of the low bytes of `v`. -/
def St.storeVal (s : St φ) (sz : Size) (r : Reg) (ofs : ℤ) (v : Word) : St φ :=
  if r = fp then
    let old := (s.stk ofs).toNat
    s.setStk ofs (BitVec.ofNat 64 (old / 256 ^ sz.bytes * 256 ^ sz.bytes + v.toNat % 256 ^ sz.bytes))
  else { s with mem := s.mem.store sz.bytes (s.addr r ofs) v.toNat }

def callRegs (C : Callee φ) (f : φ) (s : St φ) : Reg → Word := fun r =>
  if r = 0 then C.ret f s.args s.mem
  else if h : r.val ≤ 5 then C.scratch f s.args s.mem ⟨r.val - 1, by omega⟩
  else s.regs r

def exec (C : Callee φ) : Insn φ → St φ → Ctl (St φ)
  | .aluReg op d r, s => .next (s.setReg d (op.eval (s.regs d) (s.regs r)))
  | .aluImm op d i, s => .next (s.setReg d (op.eval (s.regs d) (i.signExtend 64)))
  | .neg d, s => .next (s.setReg d (- s.regs d))
  | .lddw d v, s => .next (s.setReg d v)
  | .load sz d r o, s => .next (s.setReg d (s.loadVal sz r o))
  | .store sz d o r, s => .next (s.storeVal sz d o (s.regs r))
  | .storeImm sz d o i, s => .next (s.storeVal sz d o (i.signExtend 64))
  | .xaddReg sz d o r, s => .next (s.storeVal sz d o (s.loadVal sz d o + s.regs r))
  | .branchReg op r₁ r₂ l, s => if op.eval (s.regs r₁) (s.regs r₂) then .goto l s else .next s
  | .branchImm op r i l, s => if op.eval (s.regs r) (i.signExtend 64) then .goto l s else .next s
  | .jump l, s => .goto l s
  | .callFunc f, s =>
    .next { s with regs := callRegs C f s, mem := C.effect f s.args s.mem, calls := s.calls ++ [(f, s.args)] }
  | .nop, s => .next s
  | .exit, _ => .stop

/-! ## Branches -/

variable {r : Reg} {C : Callee φ} {i : BitVec 32} {s : St φ} {op : JmpOp}

section

variable {q : Reg} {l : ℕ}

lemma exec_branchImm_taken (h : op.eval (s.regs r) (i.signExtend 64) = true) :
    exec C (.branchImm op r i l) s = .goto l s := if_pos h

lemma exec_branchImm_skip (h : op.eval (s.regs r) (i.signExtend 64) = false) :
    exec C (.branchImm op r i l) s = .next s := if_neg (by simp [h])

lemma exec_branchReg_taken (h : op.eval (s.regs r) (s.regs q) = true) :
    exec C (.branchReg op r q l) s = .goto l s := if_pos h

lemma exec_branchReg_skip (h : op.eval (s.regs r) (s.regs q) = false) :
    exec C (.branchReg op r q l) s = .next s := if_neg (by simp [h])

end

/-! ## Reading a state after an update -/

lemma setReg_self (s : St φ) (r : Reg) : s.setReg r (s.regs r) = s := by rw [St.setReg, Function.update_eq_self]

@[simp] lemma setReg_regs_self (s : St φ) (r : Reg) (v : Word) : (s.setReg r v).regs r = v := by simp [St.setReg]

@[simp] lemma setReg_regs_ne (s : St φ) {q : Reg} (v : Word) (h : q ≠ r) : (s.setReg r v).regs q = s.regs q := by
  simp [St.setReg, h]

@[simp] lemma setReg_stk (s : St φ) (r : Reg) (v : Word) : (s.setReg r v).stk = s.stk := rfl
@[simp] lemma setReg_mem (s : St φ) (r : Reg) (v : Word) : (s.setReg r v).mem = s.mem := rfl

@[simp] lemma setMem_regs (s : St φ) (m : Mem) : (s.setMem m).regs = s.regs := rfl
@[simp] lemma setMem_mem (s : St φ) (m : Mem) : (s.setMem m).mem = m := rfl

@[simp] lemma setStk_stk_self (s : St φ) (o : ℤ) (v : Word) : (s.setStk o v).stk o = v := by simp [St.setStk]

@[simp] lemma setStk_stk_ne (s : St φ) {o p : ℤ} (v : Word) (h : p ≠ o) : (s.setStk o v).stk p = s.stk p := by
  simp [St.setStk, h]

@[simp] lemma loadVal_dw_fp (s : St φ) (o : ℤ) : s.loadVal .dw fp o = s.stk o := by
  simp [St.loadVal, Size.bytes, Nat.mod_eq_of_lt (s.stk o).isLt]

@[simp] lemma storeVal_dw_fp (s : St φ) (o : ℤ) (v : Word) : s.storeVal .dw fp o v = s.setStk o v := by
  have h1 := Nat.div_eq_of_lt (s.stk o).isLt
  have h2 := Nat.mod_eq_of_lt v.isLt
  simp [St.storeVal, Size.bytes, h1, h2]

lemma loadVal_dw (s : St φ) (h : r ≠ fp) (o : ℤ) : s.loadVal .dw r o = s.mem.getW (s.addr r o) := by
  simp [St.loadVal, h, Mem.getW, Size.bytes]

/-- The instruction writes a register or memory and goes on. -/
def Insn.quiet : Insn φ → Bool
  | .aluReg .. | .aluImm .. | .neg _ | .lddw .. | .load .. | .store .. | .storeImm .. | .xaddReg .. | .nop => true
  | .branchReg .. | .branchImm .. | .jump _ | .callFunc _ | .exit => false

lemma storeVal_calls (s : St φ) (sz : Size) (r : Reg) (o : ℤ) (v : Word) : (s.storeVal sz r o v).calls = s.calls := by
  unfold St.storeVal
  split <;> rfl

@[simp] lemma storeVal_regs (s : St φ) (sz : Size) (r : Reg) (o : ℤ) (v : Word) : (s.storeVal sz r o v).regs = s.regs := by
  unfold St.storeVal
  split <;> rfl

lemma execBlock_quiet {is : List (Insn φ)} (h : ∀ i ∈ is, i.quiet = true) (s : St φ) :
    ∃ s', execBlock (exec C) is s = some s' ∧ s'.calls = s.calls := by
  induction is generalizing s with
  | nil => exact ⟨s, rfl, rfl⟩
  | cons i is ih =>
    obtain ⟨t, ht, hcalls⟩ : ∃ t, exec C i s = .next t ∧ t.calls = s.calls := by
      have hi := h i List.mem_cons_self
      cases i <;> first | exact ⟨_, rfl, rfl⟩ | exact ⟨_, rfl, storeVal_calls ..⟩ | cases hi
    obtain ⟨s', hs', hcalls'⟩ := ih (fun j hj => h j (List.mem_cons_of_mem _ hj)) t
    exact ⟨s', by rw [execBlock, ht]; exact hs', hcalls'.trans hcalls⟩

/-- A call preserves `%r6 … %r10`. -/
lemma callRegs_of_gt (C : Callee φ) (f : φ) (s : St φ) (h : 5 < r.val) : callRegs C f s r = s.regs r := by
  have h0 : r ≠ 0 := by rintro rfl; simp at h
  simp [callRegs, h0, show ¬ r.val ≤ 5 by omega]

@[simp] lemma callRegs_zero (C : Callee φ) (f : φ) (s : St φ) : callRegs C f s 0 = C.ret f s.args s.mem := by
  simp [callRegs]

/-- From `s` to `s'` at most the registers `rs` have changed. -/
structure St.Only (rs : List Reg) (s s' : St φ) : Prop where
  regs : ∀ q, q ∉ rs → s'.regs q = s.regs q
  stk : s'.stk = s.stk
  mem : s'.mem = s.mem
  calls : s'.calls = s.calls

lemma St.Only.refl (rs : List Reg) (s : St φ) : St.Only rs s s := ⟨fun _ _ => rfl, rfl, rfl, rfl⟩

variable {rs : List Reg}

lemma St.Only.trans {s' s'' : St φ} (h : St.Only rs s s') (h' : St.Only rs s' s'') : St.Only rs s s'' :=
  ⟨fun q hq => (h'.regs q hq).trans (h.regs q hq), h'.stk.trans h.stk, h'.mem.trans h.mem, h'.calls.trans h.calls⟩

lemma St.Only.mono {rs' : List Reg} {s' : St φ} (h : St.Only rs s s') (hsub : rs ⊆ rs') : St.Only rs' s s' :=
  ⟨fun q hq => h.regs q fun hm => hq (hsub hm), h.stk, h.mem, h.calls⟩

variable {v : Word}

lemma St.Only.setReg {s' : St φ} (h : St.Only rs s s') (hr : r ∈ rs := by simp) : St.Only rs s (s'.setReg r v) := by
  refine ⟨fun q hq => ?_, h.stk, h.mem, h.calls⟩
  have hne : q ≠ r := by rintro rfl; exact hq hr
  rw [setReg_regs_ne s' v hne]
  exact h.regs q hq

/-! ## Runs of the machine -/

abbrev BpfRuns (C : Callee φ) (P : List (Node (Insn φ))) : ℕ × St φ → ℕ × St φ → Prop := Runs (exec C) P

section

variable {P : List (Node (Insn φ))} {pc pc' l : ℕ} {c : ℕ × St φ} {m : ℕ}

variable {d : Reg} {o : ℤ}

lemma BpfRuns.aluReg {o : AluOp} (hn : P[pc]? = some ⟨m, .aluReg o d r⟩)
    (hv : o.eval (s.regs d) (s.regs r) = v) (h : BpfRuns C P (pc + 1, s.setReg d v) c) : BpfRuns C P (pc, s) c :=
  Runs.next hn (by simp [exec, hv]) h

lemma BpfRuns.aluImm {d : Reg} {o : AluOp} (hn : P[pc]? = some ⟨m, .aluImm o d i⟩)
    (hv : o.eval (s.regs d) (i.signExtend 64) = v) (h : BpfRuns C P (pc + 1, s.setReg d v) c) : BpfRuns C P (pc, s) c :=
  Runs.next hn (by simp [exec, hv]) h

lemma BpfRuns.loadW {a : Word} (hn : P[pc]? = some ⟨m, .load .dw d r o⟩) (hr : r ≠ fp)
    (ha : s.addr r o = a) (hv : s.mem.getW a = v) (h : BpfRuns C P (pc + 1, s.setReg d v) c) : BpfRuns C P (pc, s) c :=
  Runs.next hn (by simp [exec, ← hv, ← ha, St.loadVal, hr, Mem.getW, Size.bytes]) h

lemma BpfRuns.storeW {a : Word} (hn : P[pc]? = some ⟨m, .store .dw d o r⟩) (hd : d ≠ fp)
    (ha : s.addr d o = a) (h : BpfRuns C P (pc + 1, s.setMem (s.mem.setW a (s.regs r))) c) : BpfRuns C P (pc, s) c :=
  Runs.next hn (by simp [exec, ← ha, St.storeVal, St.setMem, hd, Mem.setW, Size.bytes]) h

lemma BpfRuns.xaddW {a : Word} (hn : P[pc]? = some ⟨m, .xaddReg .dw d o r⟩) (hd : d ≠ fp)
    (ha : s.addr d o = a) (hv : s.mem.getW a + s.regs r = v)
    (h : BpfRuns C P (pc + 1, s.setMem (s.mem.setW a v)) c) : BpfRuns C P (pc, s) c :=
  Runs.next hn (by simp [exec, ← hv, ← ha, St.storeVal, St.loadVal, St.setMem, hd, Mem.getW, Mem.setW, Size.bytes]) h

lemma BpfRuns.branchImm_taken (hn : P[pc]? = some ⟨m, .branchImm op r i l⟩)
    (hc : op.eval (s.regs r) (i.signExtend 64) = true) (hl : labelPos P l = some pc') (h : BpfRuns C P (pc', s) c) :
    BpfRuns C P (pc, s) c :=
  Runs.goto hn (by simp [exec, hc]) hl h

lemma BpfRuns.branchImm_skip (hn : P[pc]? = some ⟨m, .branchImm op r i l⟩)
    (hc : op.eval (s.regs r) (i.signExtend 64) = false) (h : BpfRuns C P (pc + 1, s) c) : BpfRuns C P (pc, s) c :=
  Runs.next hn (by simp [exec, hc]) h

lemma BpfRuns.branchReg_taken {r1 r2 : Reg} (hn : P[pc]? = some ⟨m, .branchReg op r1 r2 l⟩)
    (hc : op.eval (s.regs r1) (s.regs r2) = true) (hl : labelPos P l = some pc') (h : BpfRuns C P (pc', s) c) :
    BpfRuns C P (pc, s) c :=
  Runs.goto hn (by simp [exec, hc]) hl h

lemma BpfRuns.branchReg_skip {r1 r2 : Reg} (hn : P[pc]? = some ⟨m, .branchReg op r1 r2 l⟩)
    (hc : op.eval (s.regs r1) (s.regs r2) = false) (h : BpfRuns C P (pc + 1, s) c) : BpfRuns C P (pc, s) c :=
  Runs.next hn (by simp [exec, hc]) h

lemma BpfRuns.jump (hn : P[pc]? = some ⟨m, .jump l⟩) (hl : labelPos P l = some pc') (h : BpfRuns C P (pc', s) c) :
    BpfRuns C P (pc, s) c :=
  Runs.goto hn rfl hl h

end

end

end DTrace.Bpf
