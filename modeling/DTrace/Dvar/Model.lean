import DTrace.Lib.AddrMap
import DTrace.Lib.Bytes

/-!
# Dynamic variables

`get_dvar.c`: thread-local variables and the elements of associative arrays are kept in the map `dvars`, under a 64-bit key.
For a thread-local variable the key is made from the thread and the variable; for an element of an array it is the address
of the element's entry in the map `tuples`.

* `dtTlskey`, `dtGetDvar`, `dtGetTvar`, `dtGetAssoc` — the functions;
* `dtCgArglist` — the tuple, as the code of `dt_cg_arglist` assembles it;
* `load`, `store` — an access, as the code of `dt_cg_load_var` and `dt_cg_store_var` makes it.
-/

namespace DTrace.Dvar

open DTrace.Lib

abbrev Word := BitVec 64

/-! ## State -/

section

variable {V : Type}

/-- The maps, and the counter of dynamic variable drops. -/
structure State (V : Type) where
  tuples : AddrMap Bytes Word Word
  dvars : AddrMap Word Word V
  drops : BitVec 32

namespace State

def init (dflt : V) : State V := ⟨.empty 0, .empty dflt, 0⟩

/-- A value of either map is at the address. -/
def Live (s : State V) (a : Word) : Prop := s.tuples.Live a ∨ s.dvars.Live a

end State

/-- An address where the kernel can put a value: with the top bit set, and not in use. -/
structure Fresh (s : State V) where
  addr : Word
  msb : addr.msb = true
  free : ¬ s.Live addr

namespace Fresh

variable {s : State V}

def inTuples (a : Fresh s) : { a // ¬ s.tuples.Live a } := ⟨a.addr, fun h => a.free (.inl h)⟩

def inDvars (a : Fresh s) : { a // ¬ s.dvars.Live a } := ⟨a.addr, fun h => a.free (.inr h)⟩

end Fresh

/-- Where new values of the two maps would be put in an access; `none` where there is no room. -/
structure Alloc (s : State V) where
  tuple : Option (Fresh s)
  dvar : Option (Fresh s)
  distinct : ∀ a ∈ tuple, ∀ b ∈ dvar, a.addr ≠ b.addr

def Alloc.inDvars {s : State V} (al : Alloc s) : Option { a // ¬ s.dvars.Live a } := al.dvar.map Fresh.inDvars

/-! ## The functions -/

/-- What the helpers say about where the code runs: `bpf_get_current_pid_tgid` and `bpf_get_smp_processor_id`. -/
structure Ctx where
  pidTgid : Word
  cpu : BitVec 32

def dtTlskey (ncpus : BitVec 32) (c : Ctx) (id : BitVec 32) : Word :=
  let key := c.pidTgid &&& 0x00000000ffffffff#64
  let key := if key = 0 then c.cpu.setWidth 64 else key + ncpus.setWidth 64
  let key := key + 1
  (key &&& 0x7fffffff#64) <<< 32 ||| id.setWidth 64

def dtNoDvar (s : State V) : State V × Option Word := ({ s with drops := s.drops + 1 }, none)

/-- `dt_get_dvar`; a null pointer is `none`. -/
def dtGetDvar (dflt : V) (s : State V) (key : Word) (store : Bool) (nval : Word) (al : Option { a // ¬ s.dvars.Live a }) :
    State V × Option Word :=
  if store && nval == 0 then
    ({ s with dvars := s.dvars.erase key }, none)
  else
    match s.dvars.elem key with
    | some val => (s, some val)
    | none =>
      if !store then (s, none)
      else
        match al with
        | none => dtNoDvar s
        | some a =>
          let s := { s with dvars := s.dvars.insert key dflt a }
          match s.dvars.elem key with
          | some val => (s, some val)
          | none => dtNoDvar s

def dtGetTvar (dflt : V) (ncpus : BitVec 32) (c : Ctx) (s : State V) (id : BitVec 32) (store : Bool) (nval : Word)
    (al : Alloc s) : State V × Option Word :=
  dtGetDvar dflt s (dtTlskey ncpus c id) store nval al.inDvars

/-- `*(uint32_t *)tuple = id`. -/
def putId (id : BitVec 32) (tuple : Bytes) : Bytes := Bytes.ofNat 4 id.toNat ++ tuple.drop 4

def dtGetAssoc (dflt : V) (s : State V) (id : BitVec 32) (tuple : Bytes) (store : Bool) (nval : Word) (al : Alloc s) :
    State V × Option Word :=
  let tuple := putId id tuple
  match s.tuples.elem tuple with
  | none =>
    if !store || nval == 0 then (s, none)
    else
      match al.tuple with
      | none => dtNoDvar s
      | some a =>
        let s' := { s with tuples := s.tuples.insert tuple 0 a.inTuples }
        match s'.tuples.elem tuple with
        | none => dtNoDvar s'
        | some valp =>
          let s'' := { s' with tuples := s'.tuples.write valp valp }
          dtGetDvar dflt s'' (s''.tuples.heap valp) store nval al.inDvars
  | some valp =>
    let val := s.tuples.heap valp
    if store && nval == 0 then
      dtGetDvar dflt { s with tuples := s.tuples.erase tuple } val store nval al.inDvars
    else dtGetDvar dflt s val store nval al.inDvars

end

/-! ## Accesses -/

/-- A thread-local variable, a global array or a thread-local array.  Identifiers are counted from `DIF_VAR_OTHER_UBASE` on,
for global and for thread-local variables alike. -/
inductive Var
  | tls (id : BitVec 32)
  | assoc (id : BitVec 32)
  | tlsAssoc (id : BitVec 32)
  deriving DecidableEq, Repr

/-- The variables of a program.  The components of a tuple take a fixed number of bytes, which the types of the array
determine, and so do the bytes between them that align the next one. -/
structure Prog where
  ncpus : BitVec 32
  /-- The number that is passed for `dt_tlskey`. -/
  tlskeyId : BitVec 32
  vars : Var → Prop
  size : Var → ℕ
  pad : Var → ℕ → Bool
  maxtuplesize : ℕ
  size_le : ∀ v, vars v → 4 + size v + 8 ≤ maxtuplesize

/-- What is accessed, and by whom. -/
structure Access where
  var : Var
  /-- The components of the tuple. -/
  args : Bytes
  ctx : Ctx

/-- The tuple assembly area after the code of `dt_cg_arglist`: room for the identifier, the components, the thread-local key
or 0, and zeros from there on. -/
def dtCgArglist (maxtuplesize : ℕ) (args : Bytes) (tls : Word) : Bytes :=
  List.replicate 4 0 ++ args ++ Bytes.ofNat 8 tls.toNat ++ List.replicate (maxtuplesize - (4 + args.length + 8)) 0

section

variable {V : Type} (dflt : V) (P : Prog)

/-- `dt_cg_prep_dvar`: the call that finds the variable. -/
def dtCgPrepDvar (s : State V) (acc : Access) (isstore : Bool) (nval : Word) (al : Alloc s) : State V × Option Word :=
  match acc.var with
  | .tls id => dtGetTvar dflt P.ncpus acc.ctx s id isstore nval al
  | .assoc id => dtGetAssoc dflt s id (dtCgArglist P.maxtuplesize acc.args 0) isstore nval al
  | .tlsAssoc id =>
    dtGetAssoc dflt s id (dtCgArglist P.maxtuplesize acc.args (dtTlskey P.ncpus acc.ctx P.tlskeyId)) isstore nval al

/-- A load: the value behind the pointer, if there is one. -/
def load (s : State V) (acc : Access) : State V × Option V :=
  let r := dtCgPrepDvar dflt P s acc false 0 ⟨none, none, by simp⟩
  (r.1, r.2.map r.1.dvars.heap)

/-- Write through the pointer that a call has returned, unless it is null. -/
def put (r : State V × Option Word) (v : V) : State V :=
  match r.2 with
  | none => r.1
  | some val => { r.1 with dvars := r.1.dvars.write val v }

/-- A store of `v`; `nval` is the register that tells zero from nonzero values. -/
def store (s : State V) (acc : Access) (nval : Word) (v : V) (al : Alloc s) : State V :=
  let r := dtCgPrepDvar dflt P s acc true nval al
  if nval = 0 then r.1 else put r v

end

end DTrace.Dvar
