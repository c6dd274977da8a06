import DTrace.Cg.Load

/-!
# Members of structures

The code of `p->m` and `s.m`: the offset of the member is added to the pointer, and the member is loaded unless its
address was asked for.  A bit-field is loaded with the smallest access its width fits in, and shifted into place.

* `dtCgMember` — the member operators; `dtCgFieldGet`, `dtCgFieldSet` — bit-fields; `dtCgStore` — stores;
* `dtCgIncdecOp` — the four increments and decrements.
-/

namespace DTrace.Cg

open Lib Bpf

def bpfLdstSize : ℕ → Option Size
  | 1 => some .b
  | 2 => some .h
  | 4 => some .w
  | 8 => some .dw
  | _ => none

/-- What CTF knows of a member: `ctm_offset`, and `cte_offset`, `cte_bits`, size and sign of its type. -/
structure Membinfo where
  ctmOffset : ℕ
  cteOffset : ℕ
  cteBits : ℕ
  typeSize : ℕ
  signed : Bool
  deriving DecidableEq, Repr

def clp2 (x : BitVec 64) : BitVec 64 :=
  let x := x - 1
  let x := x ||| (x >>> 1)
  let x := x ||| (x >>> 2)
  let x := x ||| (x >>> 4)
  let x := x ||| (x >>> 8)
  let x := x ||| (x >>> 16)
  x + 1

namespace Membinfo

def offset (m : Membinfo) : ℕ := m.ctmOffset + m.cteOffset

def fmask (m : Membinfo) : Word := 1#64 <<< m.cteBits - 1

/-- `DT_NF_BITFIELD`, as `dt_node_type_assign` sets it. -/
def bitfield (m : Membinfo) : Bool :=
  let size := m.cteBits / 8
  decide (size > 8) || decide (m.cteBits % 8 ≠ 0) || decide (size &&& (size - 1) ≠ 0)

def fieldSize (m : Membinfo) : ℕ := (clp2 (BitVec.ofNat 64 ((m.cteBits + 7) / 8))).toNat

/-- `dt_cg_ldsize`. -/
def ldsize (m : Membinfo) : ℕ := if m.bitfield then m.fieldSize else m.typeSize

end Membinfo

/-- The load of a bit-field: an alloca pointer is used as it is. -/
def dtCgFieldLoad (k : PtrKind) (sz : Size) (reg : Reg) : Gen Unit :=
  if k = .kernel then dtCgLoadScalar ⟨sz, false⟩ reg else emit (.load sz reg reg 0)

/-- `dt_cg_field_get`, on a little-endian machine; `ref` is `DT_NF_REF`. -/
def dtCgFieldGet (k : PtrKind) (m : Membinfo) (ref : Bool) (reg : Reg) : Gen Unit :=
  if m.cteBits > 64 then dnerror
  else do
    emits (if 8 ≤ m.offset then [.aluImm .add reg (imm (m.offset / 8))] else [])
    if ref then return ()
    else
      match bpfLdstSize m.ldsize with
      | none => dnerror
      | some sz => do
        dtCgFieldLoad k sz reg
        emits [.aluImm .lsh reg (BitVec.ofInt 32 (64 - m.cteBits - (m.offset % 8 : ℕ))),
          .aluImm (if m.signed then .arsh else .rsh) reg (imm (64 - m.cteBits))]

/-- The `DT_TOK_PTR` and `DT_TOK_DOT` cases of `dt_cg_node`, with the pointer in `reg`.  The left operand is a pointer or
a structure, so what is loaded from kernel memory is not promoted. -/
def dtCgMember (scratchsize : BitVec 32) (k : PtrKind) (m : Membinfo) (ref : Bool) (reg : Reg) : Gen Unit := do
  dtCgCheckNotnull reg
  if m.bitfield then dtCgFieldGet k m ref reg
  else do
    emits (if m.ctmOffset ≠ 0 then [.aluImm .add reg (imm (m.ctmOffset / 8))] else [])
    if ref then return ()
    else
      match bpfLdstSize m.ldsize with
      | none => dnerror
      | some sz => dtCgPtrLoad scratchsize k ⟨sz, false⟩ reg

/-- `dt_cg_field_set`, on a little-endian machine: the bytes around the field, with the field replaced. -/
def dtCgFieldSet (m : Membinfo) (sz : Size) (src dst : Reg) : Gen Reg :=
  if m.cteBits > 64 then dnerror
  else do
    let r1 ← regAlloc
    let r2 ← regAlloc
    let shift := m.offset % 8
    let cmask := ~~~(m.fmask <<< shift)
    emits [.load sz r1 dst 0, dtCgSetx r2 cmask, .aluReg .and r1 r2, dtCgSetx r2 m.fmask, .aluReg .and r2 src]
    emits (if shift > 0 then [.aluImm .lsh r2 (imm shift)] else [])
    emit (.aluReg .or r1 r2)
    regFree r2
    return r1

/-- `dt_cg_store` of an integer to a member, with the address of the member in `dst`; a bit-field in scratch memory is an
assertion failure. -/
def dtCgStore (scratchsize : BitVec 32) (k : PtrKind) (m : Membinfo) (src dst : Reg) : Gen Unit :=
  match bpfLdstSize m.ldsize with
  | none => dnerror
  | some sz =>
    if k = .alloca then
      if m.bitfield then dnerror
      else do
        let dreg ← regAlloc
        dtCgAllocaAccessCheck scratchsize dst (.imm m.ldsize)
        dtCgAllocaPtr dreg dst
        emit (.store sz dreg 0 src)
        regFree dreg
    else
      if m.bitfield then do
        let sreg ← dtCgFieldSet m sz src dst
        emit (.store sz dst 0 sreg)
        regFree sreg
      else emit (.store sz dst 0 src)

/-- An assignment to a member in `dt_cg_asgn_op`, with the pointer in `reg` and the new value in `src`. -/
def dtCgAsgnMember (scratchsize : BitVec 32) (k : PtrKind) (m : Membinfo) (src reg : Reg) : Gen Unit := do
  dtCgMember scratchsize k m true reg
  dtCgStore scratchsize k m src reg
  regFree reg

/-- The `DT_TOK_DEREF` case of `dt_cg_node`, with the pointer in `reg`. -/
def dtCgDeref (scratchsize : BitVec 32) (k : PtrKind) (ty : IntType) (ref : Bool) (reg : Reg) : Gen Unit :=
  if ref then return ()
  else do
    dtCgCheckNotnull reg
    dtCgPtrLoad scratchsize k ty reg

/-- The load of a dynamic variable in `dt_cg_load_var`, with the pointer to it in `%r0`. -/
def dtCgLoadDvar (ty : IntType) : Gen Reg := do
  let reg ← regAlloc
  let lblNotnull ← dtIrlistLabel
  let lblDone ← dtIrlistLabel
  emit (.branchImm .jne 0 (imm 0) lblNotnull)
  emit (.movImm reg (imm 0))
  emit (.jump lblDone)
  emitl lblNotnull (.load ty.size reg 0 0)
  emits (dtCgPromote ty reg)
  emitl lblDone .nop
  regFree 0
  return reg

/-- Increment or decrement. -/
inductive IncDec
  | inc
  | dec
  deriving DecidableEq, Repr

def IncDec.alu : IncDec → AluOp
  | .inc => .add
  | .dec => .sub

def IncDec.delta : IncDec → ℤ
  | .inc => 1
  | .dec => -1

/-- The change and the store in `dt_cg_incdec_op`, for integers. -/
def incdecChange (op : IncDec) (post : Bool) (sz : Size) (dnReg child : Reg) : Gen Unit :=
  if post then do
    regXallocUnchecked 0
    emits [.movReg 0 dnReg, .aluImm op.alu 0 (imm 1), .store sz child 0 0]
    regFree 0
  else emits [.aluImm op.alu dnReg (imm 1), .store sz child 0 dnReg]

/-- The end of `dt_cg_incdec_op`: load, change and store. -/
def incdecUpdate (op : IncDec) (post : Bool) (sz : Size) (dnReg child : Reg) : Gen Unit := do
  emit (.load sz dnReg child 0)
  incdecChange op post sz dnReg child
  regFree child

/-- An operand that is no variable is checked. -/
def incdecCheck (isVar : Bool) (child : Reg) : Gen Unit := if isVar then return () else dtCgCheckNotnull child

/-- `dt_cg_incdec_op`, for integers, with the address of the operand in `child`.  For a dynamic variable, `store` is the
code that creates it. -/
def dtCgIncdecOp (op : IncDec) (post : Bool) (sz : Size) (isVar : Bool) (store : Option (Gen Unit)) (dnReg child : Reg) :
    Gen Unit := do
  incdecCheck isVar child
  match store with
  | none => incdecUpdate op post sz dnReg child
  | some store => do
    let lblDflt ← dtIrlistLabel
    let lblDone ← dtIrlistLabel
    emit (.branchImm .jne child (imm 0) lblDflt)
    emit (.movImm dnReg (BitVec.ofInt 32 op.delta))
    store
    emits (if post then [.movImm dnReg (imm 0)] else [])
    emit (.jump lblDone)
    emitl lblDflt .nop
    incdecUpdate op post sz dnReg child
    emitl lblDone .nop

end DTrace.Cg
