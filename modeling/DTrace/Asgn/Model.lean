import DTrace.Cg.Member
import DTrace.Dvar.Refine
import DTrace.Lib.Exec

/-!
# Assignments to elements of associative arrays

What the code for `a[e₁, …, eₙ] op= x` and for `++` and `--` on an element does when it is executed.  Expressions stand for
any code that leaves a value; everything they change is in their list of side effects.

* `Code`, `Index` — expressions, and components of a tuple;
* `dtCgArglist`, `dtCgPrepDvar`, `dtCgLoadVar`, `dtCgStoreVar` — an element is found, loaded and stored;
* `dtCgArithmeticOp`, `dtCgAsgnOp`, `dtCgIncdecOp`, `dtCgNode` — the operators.
-/

namespace DTrace.Asgn

open DTrace.Lib
open DTrace.Bpf (Word)
open DTrace.Dvar (Access Key)
open DTrace.Cg (ArithOp IncDec IntType arithVal)

/-! ## Machine -/

/-- All that code can read and change: the dynamic variables, with the bytes each of them has, and everything else. -/
abbrev World (U : Type) := Dvar.State Bytes × U

/-- A side effect: one of an expression, or the store to an element. -/
inductive Event (E : Type)
  | expr (e : E)
  | elem (k : Key)

/-- The machine, with the side effects so far. -/
structure St (U E : Type) where
  world : World U
  log : List (Event E)

/-- The code of an expression: the value it leaves, if it does not end the clause, and its side effects.  Nothing changes
without one. -/
structure Code (U E α : Type) where
  run : World U → Option α × World U × List E
  quiet : ∀ w, (run w).2.2 = [] → (run w).2.1 = w

section

variable {U E α : Type}

def Code.exec (c : Code U E α) : Exec (St U E) α := fun s =>
  let r := c.run s.world
  (r.1, ⟨r.2.1, s.log ++ r.2.2.map .expr⟩)

/-- A component of a tuple: the code whose value is pushed, and how the value is put into the tuple later on: with padding
before it, as a string or a stack trace that has to be read first, and so on.  That may end the clause, too. -/
structure Index (U E : Type) where
  expr : Code U E Word
  fill : Word → World U → Option Bytes

/-- The type of an element: its size and sign, and for a pointer the size of what it points to. -/
structure ElemType where
  int : IntType
  ptr : Option (BitVec 32)

/-- `a[e₁, …, eₙ]`, for a global or a thread-local array. -/
structure Lval (U E : Type) where
  id : BitVec 32
  tls : Bool
  args : List (Index U E)
  ty : ElemType

def Lval.var (a : Lval U E) : Dvar.Var := if a.tls then .tlsAssoc a.id else .assoc a.id

/-- The right-hand side of an assignment: `DT_NODE_INT`, or another node. -/
inductive Right (U E : Type)
  | int (value : Word)
  | expr (c : Code U E Word)

namespace Right

def exec : Right U E → Exec (St U E) Word
  | .int value => pure value
  | .expr c => c.exec

/-- `dn_kind == DT_NODE_INT && dn_value == 0`. -/
def isZero : Right U E → Bool
  | .int value => value == 0
  | .expr _ => false

end Right

/-- What the code depends on: the program, the task and the CPU, the bytes of a new variable, and where the kernel puts new
values. -/
structure Env where
  prog : Dvar.Prog
  ctx : Dvar.Ctx
  dflt : Bytes
  alloc : (s : Dvar.State Bytes) → Dvar.Alloc s

/-! ## Elements -/

/-- The first loop of `dt_cg_arglist`: the values are computed and pushed. -/
def pushArgs : List (Index U E) → Exec (St U E) (List Word)
  | [] => pure []
  | i :: is => do
    let w ← i.expr.exec
    let ws ← pushArgs is
    return w :: ws

/-- The second loop of `dt_cg_arglist`: the tuple is assembled. -/
def fillArgs : List (Index U E) → List Word → Exec (St U E) Bytes
  | i :: is, w :: ws => do
    let bs ← fun s => (i.fill w s.world, s)
    let rest ← fillArgs is ws
    return bs ++ rest
  | _, _ => pure []

variable (env : Env)

/-- `dt_cg_arglist`: the element that is accessed. -/
def dtCgArglist (a : Lval U E) : Exec (St U E) Access := do
  let ws ← pushArgs a.args
  let bs ← fillArgs a.args ws
  return ⟨a.var, bs, env.ctx⟩

/-- The call that `dt_cg_prep_dvar` emits for the access; the pointer that comes back can be null. -/
def getElem (acc : Access) (isstore : Bool) (nval : Word) : Exec (St U E) (Option Word) := fun s =>
  let r := Dvar.dtCgPrepDvar env.dflt env.prog s.world.1 acc isstore nval (env.alloc s.world.1)
  (some r.2, { s with world := (r.1, s.world.2) })

def dtCgPrepDvar (a : Lval U E) (isstore : Bool) (nval : Word) : Exec (St U E) (Access × Option Word) := do
  let acc ← dtCgArglist env a
  let p ← getElem env acc isstore nval
  return (acc, p)

/-- `BPF_LOADX`. -/
def ElemType.loadx (ty : ElemType) (bs : Bytes) : Word := BitVec.ofNat 64 (Bytes.val (bs.take ty.int.size.bytes))

/-- `BPF_STOREX`. -/
def ElemType.storex (ty : ElemType) (v : Word) (bs : Bytes) : Bytes :=
  Bytes.ofNat ty.int.size.bytes v.toNat ++ bs.drop ty.int.size.bytes

/-- Load and `dt_cg_promote`. -/
def ElemType.load (ty : ElemType) (bs : Bytes) : Word := ty.int.extend (ty.loadx bs).toNat

def loadPtr (ty : ElemType) (p : Word) : Exec (St U E) Word := fun s => (some (ty.loadx (s.world.1.dvars.heap p)), s)

def storePtr (ty : ElemType) (p v : Word) : Exec (St U E) Unit := fun s =>
  let dv := { s.world.1 with dvars := s.world.1.dvars.write p (ty.storex v (s.world.1.dvars.heap p)) }
  (some (), { s with world := (dv, s.world.2) })

def logElem (acc : Access) : Exec (St U E) Unit := fun s =>
  (some (), { s with log := s.log ++ [.elem (Dvar.key env.prog acc)] })

/-- The value behind the pointer that a load gets, or 0. -/
def loadElem (a : Lval U E) (p : Option Word) : Exec (St U E) Word := fun s =>
  (some (p.elim 0 fun p => a.ty.load (s.world.1.dvars.heap p)), s)

def dtCgLoadVar (a : Lval U E) : Exec (St U E) Word := do
  let r ← dtCgPrepDvar env a false 0
  loadElem a r.2

/-- What `dt_cg_store_var` does with the element. -/
def storeElem (a : Lval U E) (rp : Right U E) (dnReg : Word) (acc : Access) : Exec (St U E) Unit := do
  let nval := if rp.isZero then 0 else dnReg
  logElem env acc
  let p ← getElem env acc true nval
  if rp.isZero then return ()
  else if dnReg = 0 then return ()
  else
    match p with
    | none => Exec.stop
    | some p => storePtr a.ty p dnReg

def dtCgStoreVar (a : Lval U E) (rp : Right U E) (dnReg : Word) : Exec (St U E) Unit := do
  let acc ← dtCgArglist env a
  storeElem env a rp dnReg acc

end

/-! ## Operators -/

section

variable {U E : Type} (env : Env)

/-- `dt_cg_ptrsize` with `BPF_MUL`. -/
def ElemType.ptrsize (ty : ElemType) (op : ArithOp) (x : Word) : Word :=
  if op = .add ∨ op = .sub then ty.ptr.elim x fun n => x * n.signExtend 64 else x

/-- The operation itself; a division of signed numbers by zero is a fault. -/
def operate (op : ArithOp) (signed : Bool) (l x : Word) : Exec (St U E) Word :=
  if (op = .div ∨ op = .mod) ∧ signed ∧ x = 0 then Exec.stop else pure (arithVal (op.alu signed) signed l x)

def dtCgArithmeticOp (op : ArithOp) (signed : Bool) (a : Lval U E) (right : Right U E) : Exec (St U E) Word := do
  let l ← dtCgLoadVar env a
  let x ← right.exec
  operate op signed l (a.ty.ptrsize op x)

/-- `dt_cg_asgn_op`, for a variable on the left. -/
def dtCgAsgnOp (a : Lval U E) (right : Right U E) (dnReg : Word) : Exec (St U E) Unit := dtCgStoreVar env a right dnReg

/-- What is added or subtracted by `++` and `--`. -/
def ElemType.adj (ty : ElemType) : Word := (ty.ptr.getD 1).signExtend 64

def ElemType.delta (ty : ElemType) : IncDec → Word
  | .inc => ty.adj
  | .dec => -ty.adj

/-- `dt_cg_incdec_op` once the element has been looked up. -/
def changeElem (a : Lval U E) (op : IncDec) (post : Bool) (acc : Access) (p : Word) : Exec (St U E) Word := do
  let v ← loadPtr a.ty p
  logElem env acc
  storePtr a.ty p (v + a.ty.delta op)
  return if post then v else v + a.ty.delta op

def dtCgIncdecOp (a : Lval U E) (op : IncDec) (post : Bool) : Exec (St U E) Word := do
  let r ← dtCgPrepDvar env a false 0
  match r.2 with
  | none => do
    dtCgStoreVar env a (.int (a.ty.delta op)) (a.ty.delta op)
    return if post then 0 else a.ty.delta op
  | some p => changeElem env a op post r.1 p

/-- The operators: `op=`, and `++` and `--` before or after their operand. -/
inductive AsgnOp (U E : Type)
  | arith (op : ArithOp) (signed : Bool) (right : Right U E)
  | incdec (op : IncDec) (post : Bool)

/-- `dt_cg_node` for the operators. -/
def dtCgNode (a : Lval U E) : AsgnOp U E → Exec (St U E) Word
  | .arith op signed right => do
    let v ← dtCgArithmeticOp env op signed a right
    dtCgAsgnOp env a right v
    return v
  | .incdec op post => dtCgIncdecOp env a op post

end

end DTrace.Asgn
