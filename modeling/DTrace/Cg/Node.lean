import DTrace.Cg.Gen

/-!
# The generators of expression nodes

The functions of `dt_cg.c` that compile the operators and the leaves of integer expressions, and comparisons and
`strjoin()` of strings.  The operands of an operator come as generators, so that each function can be read next to its
source; `dt_cg_node` ties the recursion.
-/

namespace DTrace.Cg

open Lib Bpf

/-- What the generators read from the program being compiled: the label of its end and the offset of the zeros in the
string table (`ZERO_OFF`). -/
structure Pcb where
  exitlbl : ℕ
  zeroOff : BitVec 32

/-! ## Leaves -/

def dtCgSetx (reg : Reg) (x : Word) : CgInsn := .lddw reg x

def int32Max : Word := 0x7fffffff

/-- The `DT_TOK_INT` case of `dt_cg_node`. -/
def dtCgInt (value : Word) : Gen Reg := do
  let reg ← regAlloc
  if int32Max < value then emit (dtCgSetx reg value) else emit (.movImm reg (value.setWidth 32))
  return reg

/-- The `DT_TOK_STRING` case of `dt_cg_node`, with the offset of the string in the string table. -/
def dtCgString (stroff : BitVec 32) : Gen Reg := do
  let reg ← regAlloc
  emits (dtCgAccessDctx reg .strtab)
  emit (.aluImm .add reg stroff)
  return reg

/-- The size and the signedness of an integer variable. -/
structure IntType where
  size : Size
  signed : Bool
  deriving DecidableEq, Repr

def dtCgPromote (ty : IntType) (reg : Reg) : List CgInsn :=
  if ty.signed ∧ ty.size.bytes < 8 then
    [.aluImm .lsh reg (imm ((8 - ty.size.bytes) * 8)), .aluImm .arsh reg (imm ((8 - ty.size.bytes) * 8))]
  else []

def dtCgZerosptr (pcb : Pcb) (reg : Reg) : List CgInsn := dtCgAccessDctx reg .strtab ++ [.aluImm .add reg pcb.zeroOff]

def dtCgCheckFault (pcb : Pcb) : Gen Unit := do
  let reg ← regAlloc
  emits (dtCgAccessDctx reg .mst)
  emit (.load .dw reg reg dmstFault)
  emit (.branchImm .jne reg (imm 0) pcb.exitlbl)
  regFree reg

/-- What the field `.off` of an instruction keeps of an offset: 16 bits. -/
def insnOff (offset : ℤ) : ℤ := (BitVec.ofInt 16 offset).toInt

example : insnOff 70000 = 4464 := by decide

/-- Integer variables: global and clause-local ones by their offset, thread-local ones by their number, and built-in
ones by the function that computes them and the index it is given, if any. -/
inductive Var
  | global (ty : IntType) (offset : ℤ)
  | lcl (ty : IntType) (offset : ℤ)
  | tls (ty : IntType) (varid : BitVec 32)
  | builtin (fn : ℕ) (idx : Option (BitVec 32))
  deriving DecidableEq, Repr

/-- `dt_cg_prep_dvar` for the load of a thread-local variable. -/
def dtCgPrepDvar (pcb : Pcb) (varid : BitVec 32) : Gen Unit := do
  regXallocArgs
  emits [.movImm 1 varid, .movImm 2 (imm 0), .movImm 3 (imm 0)]
  emits (dtCgZerosptr pcb 4)
  regXallocUnchecked 0
  emit (.callFunc .dtGetTvar)
  regFreeArgs

/-- `dt_cg_load_var`, for integer variables. -/
def dtCgLoadVar (pcb : Pcb) : Var → Gen Reg
  | .tls ty varid => do
    dtCgPrepDvar pcb varid
    let reg ← regAlloc
    let lblNotnull ← dtIrlistLabel
    let lblDone ← dtIrlistLabel
    emit (.branchImm .jne 0 (imm 0) lblNotnull)
    emit (.movImm reg (imm 0))
    emit (.jump lblDone)
    emitl lblNotnull (.load ty.size reg 0 0)
    emits (dtCgPromote ty reg)
    emitl lblDone .nop
    regFree 0
    return reg
  | .global ty offset => do
    let reg ← regAlloc
    emits (dtCgAccessDctx reg .gvars)
    emit (.load ty.size reg reg (insnOff offset))
    emits (dtCgPromote ty reg)
    return reg
  | .lcl ty offset => do
    let reg ← regAlloc
    emits (dtCgAccessDctx reg .lvars)
    emit (.load ty.size reg reg (insnOff offset))
    emits (dtCgPromote ty reg)
    return reg
  | .builtin fn idx => do
    regXallocArgs
    emit (accessDctx 1)
    emits (idx.toList.map (.movImm 2))
    regXallocUnchecked 0
    emit (.callFunc (if idx.isSome then .dtBvarIdx fn else .dtBvar fn))
    regFreeArgs
    dtCgCheckFault pcb
    let reg ← regAlloc
    emit (.movReg reg 0)
    regFree 0
    return reg

/-! ## Operators -/

/-- What the comparison of two strings needs besides its operands: which of them point to storage of the tracer, and the
offsets of two temporary strings. -/
structure StrArgs where
  leftDptr : Bool
  rightDptr : Bool
  off1 : BitVec 32
  off2 : BitVec 32

def StrArgs.flags (a : StrArgs) : BitVec 32 := (if a.leftDptr then imm 1 else imm 0) ||| (if a.rightDptr then imm 2 else imm 0)

/-- The part of `dt_cg_compare_op` that replaces two strings by numbers that compare as the strings do. -/
def dtCgCompareStr (left right : Reg) (a : StrArgs) : Gen Unit := do
  let Lcomp ← dtIrlistLabel
  emit (.branchImm .jeq left (imm 0) Lcomp)
  emit (.branchImm .jeq right (imm 0) Lcomp)
  regXallocArgs
  emits [.movReg 1 left, .movReg 2 right]
  emits (dtCgAccessDctx 3 .mem)
  emits [.movReg 4 3, .aluImm .add 3 a.off1, .aluImm .add 4 a.off2, .movImm 5 a.flags]
  regXallocUnchecked 0
  emit (.callFunc .dtStrcmp)
  regFreeArgs
  emits [.aluImm .add 0 (imm 1), .movReg left 0]
  regFree 0
  emit (.movImm right (imm 1))
  emitl Lcomp .nop

/-- `dt_cg_compare_op`; `str` is present for strings. -/
def dtCgCompareOp (op : JmpOp) (str : Option StrArgs) (left right : Gen Reg) : Gen Reg := do
  let lblTrue ← dtIrlistLabel
  let lblPost ← dtIrlistLabel
  let l ← left
  let r ← right
  match str with
  | some a => dtCgCompareStr l r a
  | none => pure ()
  emit (.branchReg op l r lblTrue)
  regFree r
  emit (.movImm l (imm 0))
  emit (.jump lblPost)
  emitl lblTrue (.movImm l (imm 1))
  emitl lblPost .nop
  return l

/-- The part of `dt_cg_arithmetic_op` for signed operands of `/` and `%`. -/
def dtCgSignedDiv (op : AluOp) (l r : Reg) : Gen Unit := do
  let L1 ← dtIrlistLabel
  let L2 ← dtIrlistLabel
  let L3 ← dtIrlistLabel
  let L4 ← dtIrlistLabel
  let L5 ← dtIrlistLabel
  let lblValid ← dtIrlistLabel
  emit (.branchImm .jne r (imm 0) lblValid)
  emits (dtCgProbeError .divzero (imm 0))
  emitl lblValid .nop
  emit (.branchImm .jslt l (imm 0) L3)
  emit (.branchImm .jslt r (imm 0) L1)
  emit (.jump L4)
  emitl L1 (.neg r)
  emitl L2 (.aluReg op l r)
  emit (.neg l)
  emit (.jump L5)
  emitl L3 (.neg l)
  emit (.branchImm .jsge r (imm 0) L2)
  emit (.neg r)
  emitl L4 (.aluReg op l r)
  emitl L5 .nop

/-- `dt_cg_arithmetic_op`, for integers. -/
def dtCgArithmeticOp (op : AluOp) (signed : Bool) (left right : Gen Reg) : Gen Reg := do
  let l ← left
  let r ← right
  if (op = .mod ∨ op = .div) ∧ signed then dtCgSignedDiv op l r else emit (.aluReg op l r)
  regFree r
  return l

/-- `dt_cg_ternary_op`, for integers. -/
def dtCgTernaryOp (expr left right : Gen Reg) : Gen Reg := do
  let lblFalse ← dtIrlistLabel
  let lblPost ← dtIrlistLabel
  let e ← expr
  emit (.branchImm .jeq e (imm 0) lblFalse)
  regFree e
  let l ← left
  -- the destination of this move is known only once the other operand has been compiled
  let reg ← emitPatched (fun r => .movReg r l) do
    regFree l
    emit (.jump lblPost)
    emitl lblFalse .nop
    right
  emitl lblPost .nop
  return reg

def dtCgLogicalAnd (left right : Gen Reg) : Gen Reg := do
  let lblFalse ← dtIrlistLabel
  let lblPost ← dtIrlistLabel
  let l ← left
  emit (.branchImm .jeq l (imm 0) lblFalse)
  regFree l
  let reg ← right
  emit (.branchImm .jeq reg (imm 0) lblFalse)
  emit (dtCgSetx reg 1)
  emit (.jump lblPost)
  emitl lblFalse (.movImm reg (imm 0))
  emitl lblPost .nop
  return reg

def dtCgLogicalXor (left right : Gen Reg) : Gen Reg := do
  let lblNext ← dtIrlistLabel
  let lblTail ← dtIrlistLabel
  let l ← left
  emit (.branchImm .jeq l (imm 0) lblNext)
  emit (dtCgSetx l 1)
  emitl lblNext .nop
  let r ← right
  emit (.branchImm .jeq r (imm 0) lblTail)
  emit (dtCgSetx r 1)
  emitl lblTail (.aluReg .xor l r)
  regFree r
  return l

def dtCgLogicalOr (left right : Gen Reg) : Gen Reg := do
  let lblTrue ← dtIrlistLabel
  let lblFalse ← dtIrlistLabel
  let lblPost ← dtIrlistLabel
  let l ← left
  emit (.branchImm .jne l (imm 0) lblTrue)
  regFree l
  let reg ← right
  emit (.branchImm .jeq reg (imm 0) lblFalse)
  emitl lblTrue (.movImm reg (imm 1))
  emit (.jump lblPost)
  emitl lblFalse (.movImm reg (imm 0))
  emitl lblPost .nop
  return reg

def dtCgLogicalNeg (child : Gen Reg) : Gen Reg := do
  let lblZero ← dtIrlistLabel
  let lblPost ← dtIrlistLabel
  let reg ← child
  emit (.branchImm .jeq reg (imm 0) lblZero)
  emit (.movImm reg (imm 0))
  emit (.jump lblPost)
  emitl lblZero (.movImm reg (imm 1))
  emitl lblPost .nop
  return reg

/-- `dt_cg_subr_strjoin`, for operands that are not `alloca()` pointers, with the offset of the temporary string for the
result. -/
def dtCgSubrStrjoin (s1 s2 : Gen Reg) (off : BitVec 32) : Gen Reg := do
  let r1 ← s1
  dtCgCheckNotnull r1
  let r2 ← s2
  dtCgCheckNotnull r2
  let reg ← regAlloc
  emits (dtCgAccessDctx reg .mem)
  emit (.aluImm .add reg off)
  regXallocArgs
  emits [.movReg 1 reg, .movReg 2 r1]
  regFree r1
  emit (.movReg 3 r2)
  regFree r2
  regXallocUnchecked 0
  emit (.callFunc .dtStrjoin)
  regFreeArgs
  regFree 0
  return reg

end DTrace.Cg
