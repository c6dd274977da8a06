import Mathlib.Algebra.Group.Int.Defs
import Mathlib.Algebra.Group.Nat.Defs
import Mathlib.Tactic.Common

/-!
# Keys of aggregations

The keys of an aggregation are put together in a tuple by generated code, and described to the consumer by records.
The code that generates the stores and the code that adds the records each keep an offset of their own.

* `dtCgArglist` — the stores of the tuple;
* `dtAggidRecAdd`, `keyRecs` — the records;
* `dtCgAgg` — both: the first use of an aggregation gives it its records, the others only store;
* `stored_as_recorded_iff` — the keys that are stored where their records say.
-/

namespace DTrace.Agg.Tuple

open Option
open BitVec hiding and_assoc

structure Options where
  stackframes : BitVec 64
  ustackframes : BitVec 64
  maxframes : BitVec 64
  strsize : BitVec 32
  diftupregs : ℕ
  deriving Repr

/-- An argument of `stack()` or `ustack()`. -/
structure Arg where
  isInt : Bool
  signed : Bool
  value : BitVec 64
  deriving Repr

/-- `dt_node_is_posconst`. -/
def Arg.isPosconst (a : Arg) : Bool := a.isInt && a.value != 0 && (!a.signed || decide (0 < a.value.toInt))

/-- How a value that is not a string is handled: scalars and floats, what is passed by reference, and the rest. -/
inductive Class
  | scalar
  | byref
  | other
  deriving DecidableEq, Repr

/-- A key expression: `stack()` and `ustack()`; `usym()`, `umod()` and `uaddr()`; `sym()` and `mod()`; `jstack()`; a
string; another value, with the size and the alignment of its type. -/
inductive Key
  | stack (user : Bool) (arg0 arg1 : Option Arg)
  | usymaddr
  | symaddr
  | jstack
  | string
  | value (cls : Class) (size align : ℕ)
  deriving Repr

/-- `ALIGN(p, a)`, for a power of two. -/
def alignTo (p a : BitVec 32) : BitVec 32 := (p + (a - 1)) &&& ~~~(a - 1)

/-! ## Stacks -/

/-- `DTRACEOPT_UNSET`. -/
def optUnset : BitVec 64 := -2

/-- The number of frames, in `dt_cg_stack_arg`. -/
def stackFrames (o : Options) (user : Bool) (arg0 : Option Arg) : Option (BitVec 32) := do
  let dflt := (if user then o.ustackframes else o.stackframes).setWidth 32
  -- the comparison is of a 32-bit value with a 64-bit constant
  let dflt := if dflt.setWidth 64 = optUnset then (if user then 100 else 20) else dflt
  let nframes ← match arg0 with
    | none => some dflt
    | some a => if a.isPosconst then some (a.value.setWidth 32) else none
  some (if o.maxframes < nframes.setWidth 64 then o.maxframes.setWidth 32 else nframes)

/-- The size of the string data, in `dt_cg_stack_arg`. -/
def stackStrsz (user : Bool) (arg1 : Option Arg) : Option (BitVec 32) :=
  match user, arg1 with
  | true, some a => if !a.isInt || (a.signed && decide (a.value.toInt < 0)) then none else some (a.value.setWidth 32)
  | _, _ => some 0

/-- What `dt_cg_stack_arg` returns. -/
def stackSize (nframes : BitVec 32) : BitVec 32 := 4 * 4 + nframes * 8

/-! ## Stores -/

/-- Where a key is in the tuple, and what is written for it: an offset from the start of the tuple and a length. -/
structure Slot where
  off : BitVec 32
  writes : List (ℤ × ℕ)
  deriving DecidableEq, Repr

/-- The offset field of a store instruction has 16 bits. -/
def imm16 (x : BitVec 32) : ℤ := (x.setWidth 16).toInt

/-- The immediate value of an instruction has 32 bits. -/
def imm32 (x : BitVec 32) : ℤ := x.toInt

/-- `dt_cg_act_stack_sub`, with a register for the tuple. -/
def dtCgActStackSub (o : Options) (user : Bool) (arg0 arg1 : Option Arg) (off : BitVec 32) :
    Option (Slot × BitVec 32) := do
  let nframes ← stackFrames o user arg0
  let _strsz ← stackStrsz user arg1
  let aloff := alignTo off 8
  some (⟨aloff, [(imm16 aloff, 4), (imm16 (aloff + 4), 4), (imm16 (aloff + 8), 4), (imm16 (aloff + 12), 4),
    (imm32 (aloff + 16), (nframes * 8).toNat)]⟩, (aloff - off) + stackSize nframes)

/-- A store of a value: `BPF_STOREX` takes the sizes of registers only. -/
def storeValue (tuplesize : BitVec 32) (size : ℕ) : Option (Slot × BitVec 32) :=
  let tuplesize := alignTo tuplesize (BitVec.ofNat 32 size)
  if size ∈ [1, 2, 4, 8] then some (⟨tuplesize, [(imm16 tuplesize, size)]⟩, tuplesize + BitVec.ofNat 32 size)
  else none

/-- A copy of `size` bytes. -/
def copyTo (tuplesize : BitVec 32) (size : ℕ) : Slot × BitVec 32 :=
  (⟨tuplesize, [(imm32 tuplesize, (BitVec.ofNat 32 size).toNat)]⟩, tuplesize + BitVec.ofNat 32 size)

/-- The size of the type of a key that is not a call to one of the special functions. -/
def Key.typeSize (o : Options) : Key → ℕ
  | .string => o.strsize.toNat
  | .value _ size _ => size
  | _ => 0

/-- One turn of the second loop of `dt_cg_arglist`: `size` is the size of the key's type in the signature. -/
def storeKey (o : Options) (tuplesize : BitVec 32) (size : ℕ) (key : Key) : Option (Slot × BitVec 32) :=
  match key with
  | .stack user arg0 arg1 => do
    let (slot, n) ← dtCgActStackSub o user arg0 arg1 tuplesize
    some (slot, tuplesize + n)
  | .usymaddr =>
    let tuplesize := alignTo tuplesize 8
    some (⟨tuplesize, [(imm16 tuplesize, 8), (imm16 (tuplesize + 8), 8)]⟩, tuplesize + 16)
  | .symaddr => storeValue tuplesize 8
  | .jstack => none
  | .string =>
    if o.strsize = 0 then some (⟨tuplesize, []⟩, tuplesize) else some (copyTo tuplesize (size + 1))
  | .value cls own _ =>
    if BitVec.ofNat 32 own = 0 then some (⟨tuplesize, []⟩, tuplesize)
    else
      match cls with
      | .scalar => storeValue tuplesize size
      | .byref => some (copyTo tuplesize size)
      | .other => none

/-- The second loop of `dt_cg_arglist`. -/
def storeKeys (o : Options) : BitVec 32 → List (ℕ × Key) → Option (List Slot)
  | _, [] => some []
  | tuplesize, (size, key) :: keys => do
    let (slot, tuplesize) ← storeKey o tuplesize size key
    let slots ← storeKeys o tuplesize keys
    some (slot :: slots)

/-- `dt_cg_arglist`, with the sizes of the signature: where each key is stored. -/
def dtCgArglist (o : Options) (sig : List ℕ) (keys : List Key) : Option (List Slot) :=
  if keys.length ≤ o.diftupregs + 1 then storeKeys o 4 (sig.zip keys) else none

/-! ## Records -/

/-- `dtrd_offset` and `dtrd_size`. -/
structure Rec where
  off : BitVec 32
  size : BitVec 32
  deriving DecidableEq, Repr

/-- `dt_aggid_rec_add`, with `dtagd_ksize` before and after. -/
def dtAggidRecAdd (ksize size : BitVec 32) (alignment : ℕ) : Option (Rec × BitVec 32) :=
  if alignment ∈ [1, 2, 4, 8] then
    let off := alignTo ksize (BitVec.ofNat 32 alignment)
    some (⟨off, size⟩, off + size)
  else none

/-- The record of a key, in `dt_cg_agg`. -/
def keyRec (o : Options) (ksize : BitVec 32) : Key → Option (Rec × BitVec 32)
  | .stack user arg0 _ => do
    let nframes ← stackFrames o user arg0
    dtAggidRecAdd ksize (stackSize nframes) 8
  | .usymaddr => dtAggidRecAdd ksize 16 8
  | .symaddr => dtAggidRecAdd ksize 8 8
  | .jstack => dtAggidRecAdd ksize 16 8
  | .string => dtAggidRecAdd ksize (BitVec.ofNat 32 (o.strsize.toNat + 1)) 1
  -- `dtdt_align` has 8 bits
  | .value _ size align => dtAggidRecAdd ksize (BitVec.ofNat 32 size) (align % 256)

def keyRecs (o : Options) : BitVec 32 → List Key → Option (List Rec)
  | _, [] => some []
  | ksize, key :: keys => do
    let (r, ksize) ← keyRec o ksize key
    let recs ← keyRecs o ksize keys
    some (r :: recs)

/-- What is known of an aggregation: the keys its signature is of, and its records after the one for the variable id. -/
structure Aggid where
  sig : List Key
  recs : List Rec

/-- `dt_cg_agg`: the stores of a use, and the aggregation.  The first use gives the aggregation its signature and its
records; `dt_idcook_sign` compares the keys of another one with the signature, by `dt_node_is_argcompat`. -/
def dtCgAgg (argcompat : Key → Key → Bool) (o : Options) (agg : Option Aggid) (keys : List Key) :
    Option (List Slot × Aggid) :=
  match agg with
  | none => do
    let slots ← dtCgArglist o (keys.map (Key.typeSize o)) keys
    let recs ← keyRecs o 4 keys
    some (slots, ⟨keys, recs⟩)
  | some agg =>
    if agg.sig.length = keys.length ∧ (agg.sig.zip keys).all (fun (l, r) => argcompat l r) then do
      let slots ← dtCgArglist o (agg.sig.map (Key.typeSize o)) keys
      some (slots, agg)
    else none

/-! ## Agreement -/

def Tiles : List (ℤ × ℕ) → ℤ → ℤ → Prop
  | [], a, b => a = b
  | (off, len) :: pieces, a, b => off = a ∧ Tiles pieces (a + len) b

def Slot.At (s : Slot) (r : Rec) : Prop :=
  s.off = r.off ∧ Tiles s.writes r.off.toNat (r.off.toNat + r.size.toNat)

/-- What is asked of a key whose type has the given size in the signature, when the record before its record ends at
`p`: its record comes right after that, but for the alignment to 8 or to the size of a scalar, and has the size of what
is stored; and the offsets that are written can be encoded. -/
def Fits (o : Options) (p : BitVec 32) (size : ℕ) (r : Rec) : Key → Prop
  | .stack user arg0 _ => (r.off = alignTo p 8 ∧ r.off.toNat + 12 < 2 ^ 15) ∧
      ∀ nframes ∈ stackFrames o user arg0, r.size.toNat = 4 * 4 + (nframes * 8).toNat
  | .usymaddr => r = ⟨alignTo p 8, 16⟩ ∧ r.off.toNat + 8 < 2 ^ 15
  | .symaddr => r = ⟨alignTo p 8, 8⟩ ∧ r.off.toNat < 2 ^ 15
  | .jstack => False
  | .string => if o.strsize = 0 then r = ⟨p, 0⟩ else r = ⟨p, BitVec.ofNat 32 (size + 1)⟩ ∧ r.off.toNat < 2 ^ 31
  | .value cls own _ =>
    if BitVec.ofNat 32 own = 0 then r = ⟨p, 0⟩
    else
      match cls with
      | .scalar => r = ⟨alignTo p (BitVec.ofNat 32 size), BitVec.ofNat 32 size⟩ ∧ r.off.toNat < 2 ^ 15
      | .byref => r = ⟨p, BitVec.ofNat 32 size⟩ ∧ r.off.toNat < 2 ^ 31
      | .other => False

def AllFit (o : Options) : BitVec 32 → List (ℕ × Key) → List Rec → Prop
  | _, [], [] => True
  | p, (size, key) :: keys, r :: recs => Fits o p size r key ∧ AllFit o (r.off + r.size) keys recs
  | _, _, _ => False

section

variable {o : Options} {p p' : BitVec 32} {key : Key} {keys : List (ℕ × Key)} {slot : Slot} {r : Rec} {size : ℕ}

lemma imm16_add_iff (a : BitVec 32) (n : ℕ) (hn : n < 2 ^ 32) :
    imm16 (a + BitVec.ofNat 32 n) = (a.toNat : ℤ) + n ↔ a.toNat + n < 2 ^ 15 := by
  rw [imm16, toInt_eq_toNat_cond, toNat_setWidth, toNat_add, toNat_ofNat]
  split <;> omega

lemma imm32_add_iff (a : BitVec 32) (n : ℕ) (hn : n < 2 ^ 32) :
    imm32 (a + BitVec.ofNat 32 n) = (a.toNat : ℤ) + n ↔ a.toNat + n < 2 ^ 31 := by
  rw [imm32, toInt_eq_toNat_cond, toNat_add, toNat_ofNat]
  split <;> omega

lemma imm16_iff (a : BitVec 32) : imm16 a = a.toNat ↔ a.toNat < 2 ^ 15 := by
  have h := imm16_add_iff a 0 (by decide)
  simpa using h

lemma imm32_iff (a : BitVec 32) : imm32 a = a.toNat ↔ a.toNat < 2 ^ 31 := by
  have h := imm32_add_iff a 0 (by decide)
  simpa using h

lemma rec_ext {a n : BitVec 32} : r = ⟨a, n⟩ ↔ a = r.off ∧ n.toNat = r.size.toNat := by
  cases r
  rw [Rec.mk.injEq, toNat_inj, eq_comm (a := a), eq_comm (a := n)]

lemma at_piece (q n : BitVec 32) (off : ℤ) {k : ℕ} (hoff : off = q.toNat ↔ q.toNat < k) :
    Slot.At ⟨q, [(off, n.toNat)]⟩ r ↔ r = ⟨q, n⟩ ∧ r.off.toNat < k := by
  rw [Slot.At, rec_ext, and_assoc]
  refine and_congr_right fun hq => ?_
  simp only [Tiles, ← hq, hoff]
  omega

lemma at_nothing (q : BitVec 32) : Slot.At ⟨q, []⟩ r ↔ r = ⟨q, 0⟩ := by
  rw [Slot.At, rec_ext]
  refine and_congr_right fun _ => ?_
  rw [Tiles]
  change _ ↔ 0 = r.size.toNat
  omega

lemma at_stack (a nframes : BitVec 32) :
    Slot.At ⟨a, [(imm16 a, 4), (imm16 (a + 4), 4), (imm16 (a + 8), 4), (imm16 (a + 12), 4),
        (imm32 (a + 16), (nframes * 8).toNat)]⟩ r ↔
      (r.off = a ∧ r.off.toNat + 12 < 2 ^ 15) ∧ r.size.toNat = 4 * 4 + (nframes * 8).toNat := by
  have h0 := imm16_iff a
  have h4 : imm16 (a + 4) = a.toNat + 4 ↔ _ := imm16_add_iff a 4 (by decide)
  have h8 : imm16 (a + 8) = a.toNat + 8 ↔ _ := imm16_add_iff a 8 (by decide)
  have h12 : imm16 (a + 12) = a.toNat + 12 ↔ _ := imm16_add_iff a 12 (by decide)
  have h16 : imm32 (a + 16) = a.toNat + 16 ↔ _ := imm32_add_iff a 16 (by decide)
  rw [Slot.At, and_assoc, eq_comm (a := r.off)]
  refine and_congr_right fun ha => ?_
  dsimp only at ha
  simp only [Tiles, ← ha]
  omega

lemma at_usymaddr (a : BitVec 32) :
    Slot.At ⟨a, [(imm16 a, 8), (imm16 (a + 8), 8)]⟩ r ↔ r = ⟨a, 16⟩ ∧ r.off.toNat + 8 < 2 ^ 15 := by
  have h0 := imm16_iff a
  have h8 : imm16 (a + 8) = a.toNat + 8 ↔ _ := imm16_add_iff a 8 (by decide)
  have h16 : (16 : BitVec 32).toNat = 16 := rfl
  rw [Slot.At, rec_ext, and_assoc, h16]
  refine and_congr_right fun ha => ?_
  dsimp only at ha
  simp only [Tiles, ← ha]
  omega

lemma storeValue_step (hs : storeValue p size = some (slot, p')) :
    (slot.At r ↔ r = ⟨alignTo p (BitVec.ofNat 32 size), BitVec.ofNat 32 size⟩ ∧ r.off.toNat < 2 ^ 15) ∧
      p' = alignTo p (BitVec.ofNat 32 size) + BitVec.ofNat 32 size := by
  simp only [storeValue] at hs
  split at hs
  · rename_i hsize
    cases hs
    have hlen : (BitVec.ofNat 32 size).toNat = size := by
      rw [toNat_ofNat]
      simp only [List.mem_cons, List.not_mem_nil, or_false] at hsize
      omega
    refine ⟨?_, rfl⟩
    rw [← at_piece _ _ _ (imm16_iff _), hlen]
  · cases hs

lemma copyTo_step (p : BitVec 32) (size : ℕ) :
    (copyTo p size).1.At r ↔ r = ⟨p, BitVec.ofNat 32 size⟩ ∧ r.off.toNat < 2 ^ 31 :=
  at_piece _ _ _ (imm32_iff _)

/-- One key: it is stored where its record says exactly if it fits, and then the next one begins where the record ends. -/
lemma key_step (hs : storeKey o p size key = some (slot, p')) :
    (slot.At r ↔ Fits o p size r key) ∧ (Fits o p size r key → p' = r.off + r.size) := by
  cases key with
  | stack user arg0 arg1 =>
    simp only [storeKey, dtCgActStackSub, bind_eq_bind, bind_eq_some_iff] at hs
    obtain ⟨_, ⟨nframes, hframes, _, -, hslot⟩, hs⟩ := hs
    cases hslot
    cases hs
    simp only [Fits, hframes, mem_some_iff, forall_eq']
    refine ⟨at_stack _ nframes, fun ⟨⟨hoff, _⟩, hsize⟩ => ?_⟩
    have hsize : stackSize nframes = r.size := by
      apply eq_of_toNat_eq
      rw [stackSize, toNat_add, hsize]
      have := r.size.isLt
      change (16 + (nframes * 8).toNat) % 2 ^ 32 = _
      omega
    rw [← BitVec.add_assoc, BitVec.add_comm p, sub_add_cancel, hoff, hsize]
  | usymaddr =>
    cases hs
    refine ⟨at_usymaddr _, fun ⟨hr, _⟩ => ?_⟩
    rw [hr]
  | symaddr =>
    have hs : storeValue p 8 = some (slot, p') := hs
    obtain ⟨hat, rfl⟩ := storeValue_step hs
    refine ⟨hat, fun ⟨hr, _⟩ => ?_⟩
    rw [hr]
    rfl
  | jstack => cases hs
  | string =>
    simp only [storeKey, Fits] at hs ⊢
    split_ifs at hs ⊢ with hzero
    · cases hs
      refine ⟨at_nothing p, fun hr => ?_⟩
      rw [hr]
      exact (BitVec.add_zero p).symm
    · cases hs
      refine ⟨copyTo_step p _, fun ⟨hr, _⟩ => ?_⟩
      rw [hr]
  | value cls own align =>
    simp only [storeKey, Fits] at hs ⊢
    split_ifs at hs ⊢ with hzero
    · cases hs
      refine ⟨at_nothing p, fun hr => ?_⟩
      rw [hr]
      exact (BitVec.add_zero p).symm
    · cases cls with
      | scalar =>
        obtain ⟨hat, rfl⟩ := storeValue_step hs
        refine ⟨hat, fun ⟨hr, _⟩ => ?_⟩
        rw [hr]
      | byref =>
        cases hs
        refine ⟨copyTo_step p _, fun ⟨hr, _⟩ => ?_⟩
        rw [hr]
      | other => cases hs

lemma keys_step {slots : List Slot} {recs : List Rec} (hs : storeKeys o p keys = some slots) :
    List.Forall₂ Slot.At slots recs ↔ AllFit o p keys recs := by
  induction keys generalizing p slots recs with
  | nil =>
    cases hs
    cases recs with
    | nil => simp [AllFit]
    | cons => exact ⟨fun h => (by cases h), False.elim⟩
  | cons k keys ih =>
    obtain ⟨size, key⟩ := k
    simp only [storeKeys, bind_eq_bind, bind_eq_some_iff] at hs
    obtain ⟨⟨_, p'⟩, hslot, _, hslots, hs⟩ := hs
    cases hs
    cases recs with
    | nil => exact ⟨fun h => (by cases h), False.elim⟩
    | cons r recs =>
      obtain ⟨hat, hp⟩ := key_step hslot
      rw [List.forall₂_cons, AllFit, hat]
      refine and_congr_right fun hfit => ?_
      rw [← hp hfit, ih hslots]

end

def defaults : Options := ⟨optUnset, optUnset, 127, 256, 8⟩

/-- A constant. -/
def const (n : BitVec 64) : Arg := ⟨true, true, n⟩

/-- `stack(1), "", sym(x)` and a scalar. -/
def stackKeys (size : ℕ) : List Key := [.stack false (const 1) none, .string, .symaddr, .value .scalar size size]

/-- After `@a[stack(1), 7]`, the 7 of `@a[stack(2), 7]` is stored 8 bytes further than its record says. -/
example : (dtCgAgg (fun _ _ => true) defaults none [.stack false (const 1) none, .value .scalar 4 4]).bind
    (fun (_, agg) => (dtCgAgg (fun _ _ => true) defaults (some agg)
      [.stack false (const 2) none, .value .scalar 4 4]).map fun (slots, _) =>
        (slots.map Slot.off, agg.recs.map Rec.off)) = some ([8, 40], [8, 32]) := by decide

end DTrace.Agg.Tuple
