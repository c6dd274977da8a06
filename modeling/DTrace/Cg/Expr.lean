import DTrace.Cg.Operand
import Mathlib.Data.Fin.VecNotation

/-!
# Integer expressions

The expressions built from integer constants, integer variables and the arithmetic, comparison, logical and conditional
operators of D; what they are worth; and `dt_cg_node`, which compiles them.

* `Expr.eval` — the value, and memory afterwards (the functions behind variables may write memory); `none` if the
  evaluation ends in a fault;
* `dtCgNode` — the generator.
-/

namespace DTrace.Cg

open Lib Bpf

/-- The arithmetic operators. -/
inductive ArithOp
  | add
  | sub
  | mul
  | div
  | mod
  | band
  | bor
  | xor
  | lsh
  | rsh
  deriving DecidableEq, Repr

/-- The comparison operators. -/
inductive CmpOp
  | equ
  | neq
  | lt
  | le
  | gt
  | ge
  deriving DecidableEq, Repr

/-- Expressions.  The flag of an operator says whether it works on signed numbers: `DT_NF_SIGNED` of the node for an
arithmetic operator, `dt_cg_compare_signed` for a comparison. -/
inductive Expr
  | int (value : Word)
  | var (v : Var)
  | lneg (child : Expr)
  | bneg (child : Expr)
  | ipos (child : Expr)
  | ineg (child : Expr)
  | arith (op : ArithOp) (signed : Bool) (left right : Expr)
  | cmp (op : CmpOp) (signed : Bool) (left right : Expr)
  | land (left right : Expr)
  | lxor (left right : Expr)
  | lor (left right : Expr)
  | cond (expr left right : Expr)

/-! ## Code -/

/-- The operation `dt_cg_node` passes to `dt_cg_arithmetic_op`. -/
def ArithOp.alu (signed : Bool) : ArithOp → AluOp
  | .add => .add
  | .sub => .sub
  | .mul => .mul
  | .div => .div
  | .mod => .mod
  | .band => .and
  | .bor => .or
  | .xor => .xor
  | .lsh => .lsh
  | .rsh => if signed then .arsh else .rsh

/-- The condition `dt_cg_node` passes to `dt_cg_compare_op`. -/
def CmpOp.jmp (signed : Bool) : CmpOp → JmpOp
  | .equ => .jeq
  | .neq => .jne
  | .lt => if signed then .jslt else .jlt
  | .le => if signed then .jsle else .jle
  | .gt => if signed then .jsgt else .jgt
  | .ge => if signed then .jsge else .jge

def dtCgNode (pcb : Pcb) : Expr → Gen Reg
  | .int value => dtCgInt value
  | .var v => dtCgLoadVar pcb v
  | .lneg e => dtCgLogicalNeg (dtCgNode pcb e)
  | .bneg e => do
    let reg ← dtCgNode pcb e
    emit (.aluImm .xor reg immNegOne)
    return reg
  | .ipos e => dtCgNode pcb e
  | .ineg e => do
    let reg ← dtCgNode pcb e
    emit (.neg reg)
    return reg
  | .arith op signed l r => dtCgArithmeticOp (op.alu signed) signed (dtCgNode pcb l) (dtCgNode pcb r)
  | .cmp op signed l r => dtCgCompareOp (op.jmp signed) none (dtCgNode pcb l) (dtCgNode pcb r)
  | .land l r => dtCgLogicalAnd (dtCgNode pcb l) (dtCgNode pcb r)
  | .lxor l r => dtCgLogicalXor (dtCgNode pcb l) (dtCgNode pcb r)
  | .lor l r => dtCgLogicalOr (dtCgNode pcb l) (dtCgNode pcb r)
  | .cond e l r => dtCgTernaryOp (dtCgNode pcb e) (dtCgNode pcb l) (dtCgNode pcb r)

/-! ## Values -/

def ofBool (b : Bool) : Word := if b then 1#64 else 0#64

/-- The value of an integer of the given type, as it is in memory, in 64 bits. -/
def IntType.extend (ty : IntType) (x : ℕ) : Word :=
  if ty.signed then (BitVec.ofNat (8 * ty.size.bytes) x).signExtend 64 else BitVec.ofNat 64 x

/-- An arithmetic operation; a quotient is rounded towards zero, a remainder has the sign of the dividend, and neither
exists for the divisor zero.  A shift count is taken modulo 64. -/
def ArithOp.eval (signed : Bool) (a b : Word) : ArithOp → Option Word
  | .add => some (a + b)
  | .sub => some (a - b)
  | .mul => some (a * b)
  | .div => if b = 0#64 then none else some (if signed then a.sdiv b else a / b)
  | .mod => if b = 0#64 then none else some (if signed then a.srem b else a % b)
  | .band => some (a &&& b)
  | .bor => some (a ||| b)
  | .xor => some (a ^^^ b)
  | .lsh => some (a <<< (b.toNat % 64))
  | .rsh => some (if signed then a.sshiftRight (b.toNat % 64) else a >>> (b.toNat % 64))

def CmpOp.eval (signed : Bool) (a b : Word) : CmpOp → Bool
  | .equ => a == b
  | .neq => a != b
  | .lt => if signed then a.slt b else a.ult b
  | .le => if signed then a.sle b else a.ule b
  | .gt => if signed then b.slt a else b.ult a
  | .ge => if signed then b.sle a else b.ule a

/-- The number of arguments a function reads. -/
def Func.arity : Func → ℕ
  | .dtStrcmp => 5
  | .dtStrjoin => 3
  | .dtSubstr => 5
  | .dtGetTvar => 4
  | .dtProbeError => 4
  | .probeRead => 3
  | .dtBvar _ => 1
  | .dtBvarIdx _ => 2

/-- What a function does depends on its arguments, not on what is left in the other argument registers. -/
structure Respects (C : Callee Func) : Prop where
  ret : ∀ f (a a' : Args) m, (∀ i, i.val < f.arity → a i = a' i) → C.ret f a m = C.ret f a' m
  effect : ∀ f (a a' : Args) m, (∀ i, i.val < f.arity → a i = a' i) → C.effect f a m = C.effect f a' m

/-- The arguments `dt_get_tvar` gets for the load of a thread-local variable. -/
def tvarArgs (pcb : Pcb) (d : Word) (m : Mem) (varid : BitVec 32) : Args :=
  ![varid.signExtend 64, 0#64, 0#64, dctxField d m .strtab + pcb.zeroOff.signExtend 64, 0#64]

/-- The function behind a built-in variable, and its arguments. -/
def bvarFunc (fn : ℕ) (idx : Option (BitVec 32)) : Func := if idx.isSome then .dtBvarIdx fn else .dtBvar fn

def bvarArgs (d : Word) (idx : Option (BitVec 32)) : Args :=
  ![d, (idx.getD 0).signExtend 64, 0#64, 0#64, 0#64]

/-- The value of a variable, for the context at `d`. -/
def Var.eval (C : Callee Func) (pcb : Pcb) (d : Word) (m : Mem) : Var → Option (Word × Mem)
  | .global ty offset => some (ty.extend (m.load ty.size.bytes (dctxField d m .gvars + BitVec.ofInt 64 offset)), m)
  | .lcl ty offset => some (ty.extend (m.load ty.size.bytes (dctxField d m .lvars + BitVec.ofInt 64 offset)), m)
  | .tls ty varid =>
    let args := tvarArgs pcb d m varid
    let p := C.ret .dtGetTvar args m
    let m' := C.effect .dtGetTvar args m
    some (if p = 0#64 then 0#64 else ty.extend (m'.load ty.size.bytes p), m')
  | .builtin fn idx =>
    let v := C.ret (bvarFunc fn idx) (bvarArgs d idx) m
    let m' := C.effect (bvarFunc fn idx) (bvarArgs d idx) m
    if m'.getW (dctxField d m' .mst + BitVec.ofInt 64 dmstFault) = 0#64 then some (v, m') else none

/-- The variable that the code reads. -/
def Var.read : Var → Var
  | .global ty offset => .global ty (insnOff offset)
  | .lcl ty offset => .lcl ty (insnOff offset)
  | x => x

/-- The value of an expression, and memory after its evaluation. -/
def Expr.eval (C : Callee Func) (pcb : Pcb) (d : Word) : Expr → Mem → Option (Word × Mem)
  | .int value, m => some (value, m)
  | .var v, m => v.eval C pcb d m
  | .lneg e, m => (e.eval C pcb d m).map fun (v, m) => (ofBool (v == 0#64), m)
  | .bneg e, m => (e.eval C pcb d m).map fun (v, m) => (~~~v, m)
  | .ipos e, m => e.eval C pcb d m
  | .ineg e, m => (e.eval C pcb d m).map fun (v, m) => (-v, m)
  | .arith op signed l r, m =>
    (l.eval C pcb d m).bind fun (vl, m) => (r.eval C pcb d m).bind fun (vr, m) =>
      (op.eval signed vl vr).map fun v => (v, m)
  | .cmp op signed l r, m =>
    (l.eval C pcb d m).bind fun (vl, m) => (r.eval C pcb d m).map fun (vr, m) => (ofBool (op.eval signed vl vr), m)
  | .land l r, m =>
    (l.eval C pcb d m).bind fun (vl, m) =>
      if vl = 0#64 then some (0#64, m) else (r.eval C pcb d m).map fun (vr, m) => (ofBool (vr != 0#64), m)
  | .lxor l r, m =>
    (l.eval C pcb d m).bind fun (vl, m) => (r.eval C pcb d m).map fun (vr, m) =>
      (ofBool ((vl != 0#64) != (vr != 0#64)), m)
  | .lor l r, m =>
    (l.eval C pcb d m).bind fun (vl, m) =>
      if vl = 0#64 then (r.eval C pcb d m).map fun (vr, m) => (ofBool (vr != 0#64), m) else some (1#64, m)
  | .cond e l r, m =>
    (e.eval C pcb d m).bind fun (v, m) => if v = 0#64 then r.eval C pcb d m else l.eval C pcb d m

end DTrace.Cg
