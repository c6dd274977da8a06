import DTrace.Cg.Member
import Mathlib.Data.Int.ModEq

/-!
# Integers in registers

An integer in a register is sign-extended or zero-extended to 64 bits, by its type.  Each way to read an integer has its own
code: some promote what they load, some do not, and increments and decrements work in 64 bits whatever the type is.

* `Form` — the ways to read an integer, with the code each of them has (`Form.gen`);
* `Form.gen_does` — what the code leaves in the register;
* `int_repr_iff` — where that is the value of the type, extended.
-/

namespace DTrace.Cg

open Lib Bpf BitVec Gen Int

/-! ## Numbers -/

variable {ty : IntType}

namespace IntType

def width (ty : IntType) : ℕ := 8 * ty.size.bytes

/-- A number is a value of the type; 64 bits hold any. -/
def Fits (ty : IntType) (z : ℤ) : Prop :=
  ty.size = .dw ∨
    if ty.signed then -2 ^ (ty.width - 1) ≤ z ∧ z < 2 ^ (ty.width - 1) else 0 ≤ z ∧ z < 2 ^ ty.width

/-- The value of the type that has the given bits. -/
def val (ty : IntType) (b : ℕ) : ℤ := if ty.signed ∧ 2 ^ ty.width ≤ 2 * b then b - 2 ^ ty.width else b

variable {b : ℕ}

lemma extend_eq_ofInt (hb : b < 2 ^ ty.width) : ty.extend b = BitVec.ofInt 64 (ty.val b) := by
  obtain ⟨sz, signed⟩ := ty
  cases signed with
  | false => simp [extend, val]
  | true =>
    have hval : (BitVec.ofNat (8 * sz.bytes) b).toInt = val ⟨sz, true⟩ b := by
      change b < 2 ^ (8 * sz.bytes) at hb
      rw [toInt_eq_toNat_cond, toNat_ofNat, Nat.mod_eq_of_lt hb]
      unfold val width
      simp only [true_and]
      split_ifs with h1 h2 h2
      · omega
      · rfl
      · simp
      · omega
    rw [extend, if_pos rfl, ← hval]
    rfl

lemma ofInt_eq_extend_iff {z : ℤ} (hz : -1 ≤ z) (hz' : z ≤ 2 ^ ty.width) (hb : b < 2 ^ ty.width) :
    BitVec.ofInt 64 z = ty.extend b ↔ (b : ℤ) = z % 2 ^ ty.width ∧ ty.Fits z := by
  rw [extend_eq_ofInt hb, ← toNat_inj, toNat_ofInt, toNat_ofInt]
  obtain ⟨sz, signed⟩ := ty
  unfold val Fits width at *
  cases sz <;> cases signed <;> simp [Size.bytes] at * <;> omega

lemma extend_inj {c : ℕ} (hb : b < 2 ^ ty.width) (hc : c < 2 ^ ty.width) : ty.extend b = ty.extend c ↔ b = c := by
  rw [extend_eq_ofInt hb, extend_eq_ofInt hc, ← toNat_inj, toNat_ofInt, toNat_ofInt]
  obtain ⟨sz, signed⟩ := ty
  unfold val width at *
  cases sz <;> cases signed <;> simp [Size.bytes] at * <;> omega

end IntType

/-! ## What the code leaves -/

variable {scratchsize : BitVec 32} {C : Callee Func} {store : Option (Gen Unit)} {r : Reg} {s : St Func}
  {g' : GState} {c P : CgCode} {S : Regset} {lbl : ℕ}

section

variable {reg : Reg} {u : Unit}
  {k : PtrKind}

lemma dtCgDeref_does (hC : ProbeReads C) (h : dtCgDeref scratchsize k ty false reg ⟨S, lbl⟩ = some (u, c, g'))
    (hlbl : lbl ≠ 0) (hP : LabelsNodup P) (hreg : reg ≠ fp) (h0 : reg ≠ 0) (hnull : s.regs reg ≠ 0#64)
    (hok : k.Ok C scratchsize S s reg ty.size.bytes) :
    ∃ s', Does (exec C) P c s s' ∧
      s'.regs reg = (k.loaded ty).extend (s.mem.load ty.size.bytes (k.addr s (s.regs reg))) := by
  obtain ⟨_, _, _, _, hcheck, hload, rfl⟩ := bind_eq_some.1 h
  obtain ⟨hrun1, rfl⟩ := dtCgCheckNotnull_does hcheck hP hlbl hnull
  obtain ⟨s', hrun2, hval, -⟩ := dtCgPtrLoad_does hC hload (Nat.succ_ne_zero _) hP hreg h0 hok
  exact ⟨s', hrun1.append hrun2, hval⟩

/-- The member of an integer type at an offset. -/
def intMember (ty : IntType) (offset : ℕ) : Membinfo := ⟨offset, 0, ty.width, ty.size.bytes, ty.signed⟩

lemma intMember_bitfield (ty : IntType) (offset : ℕ) : (intMember ty offset).bitfield = false := by
  obtain ⟨sz, _⟩ := ty
  cases sz <;> simp [intMember, Membinfo.bitfield, IntType.width, Size.bytes]

lemma bpfLdstSize_bytes (sz : Size) : bpfLdstSize sz.bytes = some sz := by cases sz <;> rfl

/-- The pointer to a member, as the code computes it. -/
def memberPtr (p : Word) (offset : ℕ) : Word := p + (imm (offset / 8)).signExtend 64

lemma does_memberPtr {p : Prop} [Decidable p] {offset : ℕ} (hp : ¬ p → offset / 8 = 0) (s : St Func) :
    Does (exec C) P (plain (if p then [.aluImm .add reg (imm (offset / 8))] else [])) s
      (s.setReg reg (memberPtr (s.regs reg) offset)) := by
  refine .block ?_
  unfold memberPtr
  split
  · rfl
  · next h => simp [execBlock, hp h, setReg_self]

variable {sz : Size}

lemma dtCgMember_plain_does {m : Membinfo} (hm : m.bitfield = false) (hsz : bpfLdstSize m.ldsize = some sz)
    (hC : ProbeReads C) (h : dtCgMember scratchsize k m false reg ⟨S, lbl⟩ = some (u, c, g')) (hlbl : lbl ≠ 0)
    (hP : LabelsNodup P) (hreg : reg ≠ fp) (h0 : reg ≠ 0) (hnull : s.regs reg ≠ 0#64)
    (hok : k.Ok C scratchsize S (s.setReg reg (memberPtr (s.regs reg) m.ctmOffset)) reg sz.bytes) :
    ∃ s', Does (exec C) P c s s' ∧
      s'.regs reg = BitVec.ofNat 64 (s.mem.load sz.bytes (k.addr s (memberPtr (s.regs reg) m.ctmOffset))) := by
  obtain ⟨_, _, _, _, hcheck, h1, rfl⟩ := bind_eq_some.1 h
  obtain ⟨hrun1, rfl⟩ := dtCgCheckNotnull_does hcheck hP hlbl hnull
  simp only [hm, Bool.false_eq_true, if_false, hsz, emits_bind] at h1
  obtain ⟨_, hload, rfl⟩ := h1
  obtain ⟨s', hrun3, hval, -⟩ := dtCgPtrLoad_does hC hload (Nat.succ_ne_zero _) hP hreg h0 hok
  refine ⟨s', hrun1.append ((does_memberPtr (by omega) s).append hrun3), ?_⟩
  rw [hval, setReg_regs_self, setReg_mem]
  cases k <;> rfl

lemma intMember_ldsize (ty : IntType) (offset : ℕ) : bpfLdstSize (intMember ty offset).ldsize = some ty.size := by
  rw [Membinfo.ldsize, intMember_bitfield]
  exact bpfLdstSize_bytes ty.size

/-! ## Dynamic variables -/

lemma dtCgLoadDvar_shape (h : dtCgLoadDvar ty ⟨S, lbl⟩ = some (r, c, g')) :
    S.pick = some r ∧ c = plain (claimCode S r) ++ (tvarTail ty r lbl ++ plain (freeCode (S.claim r) 0)) ∧
      g'.lbl = lbl + 2 := by
  simp only [dtCgLoadDvar, regAlloc_bind, dtIrlistLabel_bind, emit_bind, emitl_bind, emits_bind, regFree_bind,
    pure_eq_some, exists_exists_and_eq_and] at h
  obtain ⟨q, hpick, _, ⟨rfl, rfl, rfl⟩, rfl⟩ := h
  exact ⟨hpick, by simp [tvarTail], rfl⟩

lemma dtCgLoadDvar_does (h : dtCgLoadDvar ty ⟨S, lbl⟩ = some (r, c, g')) (hlbl : lbl ≠ 0) (hP : LabelsNodup P) :
    ∃ s', Does (exec C) P c s s' ∧
      s'.regs r = if s.regs 0 = 0#64 then 0#64 else ty.extend (s.mem.load ty.size.bytes (s.regs 0)) := by
  obtain ⟨hpick, rfl, -⟩ := dtCgLoadDvar_shape h
  obtain ⟨s1, hrun1, -, hval⟩ := tvarTail_does hP ty r hlbl (afterClaim S r s)
  obtain ⟨s2, hrun2, honly⟩ := execBlock_free_only (S.claim r) 0 s1
  refine ⟨s2, (Does.block (execBlock_claim S r s)).append (hrun1.append (.block hrun2)), ?_⟩
  rw [honly.regs r (by simpa using (pick_picks hpick).ne_zero), hval, afterClaim_regs, afterClaim_mem]

/-! ## Increment and decrement -/

/-- The value after the change, in 64 bits. -/
def changed (op : IncDec) (v : Word) : Word := v + BitVec.ofInt 64 op.delta

lemma alu_eval_one (op : IncDec) (v : Word) : op.alu.eval v ((imm 1).signExtend 64) = changed op v := by
  rw [imm_one_signExtend]
  cases op with
  | inc => rfl
  | dec => exact BitVec.sub_eq_add_neg v 1#64

/-- What an increment or decrement leaves: the value before or after the change. -/
def incdecVal (op : IncDec) (post : Bool) (v : Word) : Word := if post then v else changed op v

variable {op : IncDec} {post : Bool} {dnReg child : Reg}

lemma incdecChange_does (h : incdecChange op post sz dnReg child ⟨S, lbl⟩ = some (u, c, g')) (h0 : dnReg ≠ 0) :
    ∃ s', Does (exec C) P c s s' ∧ s'.regs dnReg = incdecVal op post (s.regs dnReg) := by
  unfold incdecChange at h
  cases post with
  | false =>
    obtain ⟨rfl, -⟩ : _ ∧ _ := by simpa [emits] using h
    have hchange : exec C (.aluImm op.alu dnReg (imm 1)) s = .next (s.setReg dnReg (changed op (s.regs dnReg))) := by
      rw [exec_aluImm, alu_eval_one]
    refine ⟨_, .cons hchange (.cons rfl (.nil _)), ?_⟩
    rw [storeVal_regs, setReg_regs_self]
    rfl
  | true =>
    obtain ⟨_, T, _, his, h1, rfl⟩ := regXallocUnchecked_bind_shape h
    simp only [emits_bind, regFree_eq, Option.some.injEq, Prod.mk.injEq, true_and] at h1
    obtain ⟨_, ⟨rfl, -⟩, rfl⟩ := h1
    obtain ⟨s1, hrun1, hregs1, -⟩ := execBlock_spills (fun i hi => ⟨_, his i hi⟩) s
    let s2 := ((s1.setReg 0 (s1.regs dnReg)).setReg 0 (changed op (s1.regs dnReg))).storeVal sz child 0
      (changed op (s1.regs dnReg))
    have hrun2 : Does (exec C) P (plain [.movReg 0 dnReg, .aluImm op.alu 0 (imm 1), .store sz child 0 0]) s1 s2 := by
      have hchange : exec C (.aluImm op.alu 0 (imm 1)) (s1.setReg 0 (s1.regs dnReg)) =
          .next ((s1.setReg 0 (s1.regs dnReg)).setReg 0 (changed op (s1.regs dnReg))) := by
        rw [exec_aluImm, alu_eval_one, setReg_regs_self]
      refine .cons rfl (.cons hchange (.cons ?_ (.nil _)))
      rw [exec, setReg_regs_self]
    obtain ⟨s3, hrun3, honly⟩ := execBlock_free_only T 0 s2
    refine ⟨s3, (Does.block hrun1).append (hrun2.append (.block hrun3)), ?_⟩
    rw [honly.regs dnReg (by simpa using h0), storeVal_regs, setReg_regs_ne _ _ h0, setReg_regs_ne _ _ h0, hregs1]
    rfl

lemma incdecUpdate_does (h : incdecUpdate op post sz dnReg child ⟨S, lbl⟩ = some (u, c, g')) (h0 : dnReg ≠ 0)
    (hne : dnReg ≠ child) (hchild : child ≠ fp) :
    ∃ s', Does (exec C) P c s s' ∧
      s'.regs dnReg = incdecVal op post (BitVec.ofNat 64 (s.mem.load sz.bytes (s.regs child))) := by
  obtain ⟨_, h1, rfl⟩ := emit_bind.1 h
  obtain ⟨_, _, g2, _, hchange, hfree, rfl⟩ := bind_eq_some.1 h1
  rw [regFree_eq] at hfree
  obtain ⟨rfl, -⟩ : _ ∧ _ := by simpa using hfree
  let s1 := s.setReg dnReg (.ofNat 64 (s.mem.load sz.bytes (s.regs child)))
  have hload : exec C (.load sz dnReg child 0) s = .next s1 := by
    simp [exec, St.loadVal, hchild, St.addr, s1]
  obtain ⟨s2, hrun2, hval2⟩ := incdecChange_does hchange h0
  obtain ⟨s3, hrun3, honly⟩ := execBlock_free_only g2.regs child s2
  refine ⟨s3, .cons hload (hrun2.append (.block hrun3)), ?_⟩
  rw [honly.regs dnReg (by simpa using hne), hval2, setReg_regs_self]

variable {isVar : Bool}

lemma incdecCheck_does (h : incdecCheck isVar child ⟨S, lbl⟩ = some (u, c, g')) (hlbl : lbl ≠ 0)
    (hP : LabelsNodup P) (hnull : s.regs child ≠ 0#64) : Does (exec C) P c s s ∧ g'.regs = S ∧ g'.lbl ≠ 0 := by
  cases isVar with
  | true =>
    cases h
    exact ⟨.nil s, rfl, hlbl⟩
  | false =>
    obtain ⟨hrun, rfl⟩ := dtCgCheckNotnull_does (C := C) h hP hlbl hnull
    exact ⟨hrun, rfl, Nat.succ_ne_zero _⟩

lemma dtCgIncdecOp_does
    (h : dtCgIncdecOp op post sz isVar store dnReg child ⟨S, lbl⟩ = some (u, c, g')) (hlbl : lbl ≠ 0) (hP : LabelsNodup P)
    (h0 : dnReg ≠ 0) (hne : dnReg ≠ child) (hchild : child ≠ fp) (hnull : s.regs child ≠ 0#64) :
    ∃ s', Does (exec C) P c s s' ∧
      s'.regs dnReg = incdecVal op post (BitVec.ofNat 64 (s.mem.load sz.bytes (s.regs child))) := by
  obtain ⟨_, _, ⟨_, lbl1⟩, _, hcheck, h1, rfl⟩ := bind_eq_some.1 h
  obtain ⟨hrun1, -, hlbl1⟩ := incdecCheck_does hcheck hlbl hP hnull
  cases store with
  | none =>
    obtain ⟨s', hrun, hval⟩ := incdecUpdate_does h1 h0 hne hchild
    exact ⟨s', hrun1.append hrun, hval⟩
  | some store =>
    simp only [dtIrlistLabel_bind, emit_bind] at h1
    obtain ⟨_, ⟨_, h2, rfl⟩, rfl⟩ := h1
    obtain ⟨_, c5, _, _, -, h3, rfl⟩ := bind_eq_some.1 h2
    simp only [emits_bind, emit_bind, emitl_bind] at h3
    obtain ⟨_, ⟨_, ⟨_, h4, rfl⟩, rfl⟩, rfl⟩ := h3
    obtain ⟨_, c10, _, _, hupdate, hdone, rfl⟩ := bind_eq_some.1 h4
    obtain ⟨rfl, -⟩ : _ ∧ _ := by simpa [emitl] using hdone
    obtain ⟨s', hrun, hval⟩ := incdecUpdate_does hupdate h0 hne hchild
    have hlast : Does (exec C) P (⟨lbl1, .nop⟩ :: (c10 ++ [⟨lbl1 + 1, .nop⟩])) s s' :=
      .cons rfl (hrun.append (.cons rfl (.nil s')))
    have hskip : Does (exec C) P (⟨0, .branchImm .jne child (imm 0) lbl1⟩ ::
        ((⟨0, .movImm dnReg (BitVec.ofInt 32 op.delta)⟩ :: (c5 ++ (plain (if post then [.movImm dnReg (imm 0)] else []) ++
          [⟨0, .jump (lbl1 + 1)⟩]))) ++ ⟨lbl1, .nop⟩ :: (c10 ++ [⟨lbl1 + 1, .nop⟩]))) s s' :=
      .skip hP hlbl1 (exec_branchImm_taken (by simpa [JmpOp.eval] using hnull)) hlast
    exact ⟨s', hrun1.append (by simpa using hskip), hval⟩

end

/-! ## The forms -/

/-- The ways to read an integer: a global or clause-local variable, a dynamic variable whose address is in `%r0`, `*p` and a
member with the pointer in a register, and the increments and decrements of what a register points to. -/
inductive Form
  | static (lcl : Bool) (offset : ℤ)
  | dynamic
  | deref (k : PtrKind) (reg : Reg)
  | member (k : PtrKind) (offset : ℕ) (reg : Reg)
  | incdec (op : IncDec) (post : Bool) (k : PtrKind) (isVar : Bool) (store : Option (Gen Unit)) (dnReg child : Reg)

variable {pcb : Pcb} {f : Form}

namespace Form

def gen (scratchsize : BitVec 32) (pcb : Pcb) (ty : IntType) : Form → Gen Reg
  | static lcl offset => dtCgLoadVar pcb (if lcl then .lcl ty offset else .global ty offset)
  | dynamic => dtCgLoadDvar ty
  | deref k reg => do
    dtCgDeref scratchsize k ty false reg
    return reg
  | member k offset reg => do
    dtCgMember scratchsize k (intMember ty offset) false reg
    return reg
  | incdec op post _ isVar store dnReg child => do
    dtCgIncdecOp op post ty.size isVar store dnReg child
    return dnReg

def varAddr (s : St Func) (lcl : Bool) (offset : ℤ) : Word :=
  dctxField (s.stk dtStkDctx) s.mem (if lcl then .lvars else .gvars) + BitVec.ofInt 64 offset

def codeAddr (s : St Func) : Form → Word
  | static lcl offset => varAddr s lcl (insnOff offset)
  | dynamic => s.regs 0
  | deref k reg => k.addr s (s.regs reg)
  | member k offset reg => k.addr s (memberPtr (s.regs reg) offset)
  | incdec _ _ _ _ _ _ child => s.regs child

def addr (s : St Func) : Form → Word
  | static lcl offset => varAddr s lcl offset
  | member k offset reg => k.addr s (s.regs reg + BitVec.ofNat 64 (offset / 8))
  | incdec _ _ k _ _ _ child => k.addr s (s.regs child)
  | f => f.codeAddr s

/-- The bits at an address.  A dynamic variable that does not exist is zero. -/
def stored (ty : IntType) (s : St Func) : Form → Word → ℕ
  | dynamic, a => if a = 0#64 then 0 else s.mem.load ty.size.bytes a
  | _, a => s.mem.load ty.size.bytes a

/-- The change of the value that is read. -/
def delta : Form → ℤ
  | incdec op false _ _ _ _ _ => op.delta
  | _ => 0

def promotes : Form → Bool
  | static _ _ | dynamic => true
  | deref k _ => k = .kernel
  | member _ _ _ | incdec _ _ _ _ _ _ _ => false

/-- The integer may be accessed, and the code works with different registers. -/
def Ready (C : Callee Func) (scratchsize : BitVec 32) (S : Regset) (ty : IntType) (s : St Func) : Form → Prop
  | static _ _ | dynamic => True
  | deref k reg => reg ≠ 0 ∧ reg ≠ fp ∧ s.regs reg ≠ 0#64 ∧ k.Ok C scratchsize S s reg ty.size.bytes
  | member k offset reg => reg ≠ 0 ∧ reg ≠ fp ∧ s.regs reg ≠ 0#64 ∧
    k.Ok C scratchsize S (s.setReg reg (memberPtr (s.regs reg) offset)) reg ty.size.bytes
  | incdec _ _ _ _ store dnReg child => dnReg ≠ 0 ∧ dnReg ≠ child ∧ child ≠ fp ∧ s.regs child ≠ 0#64 ∧
    ∀ x, store = some x → Labelled x

/-- The bits of the value: what is in memory, changed modulo the width of the type. -/
def bits (ty : IntType) (s : St Func) (f : Form) : ℕ :=
  ((f.stored ty s (f.addr s) + f.delta) % 2 ^ ty.width).toNat

/-- The code loads the bytes of the integer, and what it leaves is a value of the type unless it is promoted. -/
def Exact (ty : IntType) (s : St Func) (f : Form) : Prop :=
  f.stored ty s (f.codeAddr s) = f.stored ty s (f.addr s) ∧
    (f.promotes = true ∨ ty.Fits (f.stored ty s (f.codeAddr s) + f.delta))

/-- What the code leaves in the register. -/
def result (ty : IntType) (s : St Func) (f : Form) : Word :=
  if f.promotes then ty.extend (f.stored ty s (f.codeAddr s))
  else BitVec.ofInt 64 (f.stored ty s (f.codeAddr s) + f.delta)

section

lemma ofInt_incdecVal (op : IncDec) (post : Bool) (x : ℕ) :
    incdecVal op post (BitVec.ofNat 64 x) = BitVec.ofInt 64 (x + if post then 0 else op.delta) := by
  cases post with
  | true => simp [incdecVal]
  | false =>
    rw [incdecVal, if_neg (by simp), changed, if_neg (by simp), ofInt_add, ofInt_natCast]

theorem gen_does (hC : ProbeReads C) (h : f.gen scratchsize pcb ty ⟨S, lbl⟩ = some (r, c, g')) (hlbl : lbl ≠ 0)
    (hP : LabelsNodup P) (hready : f.Ready C scratchsize S ty s) :
    ∃ s', Does (exec C) P c s s' ∧ s'.regs r = f.result ty s := by
  cases f with
  | static lcl offset =>
    obtain ⟨hpick, rfl, -⟩ := dtCgLoadVar_leaf pcb ty lcl offset h
    obtain ⟨s', hrun, -, hval⟩ := execBlock_varCode ty (if lcl then .lvars else .gvars) (insnOff offset)
      (pick_picks hpick).ne_fp (afterClaim S r s)
    refine ⟨s', .block ?_, ?_⟩
    · rw [execBlock_append, execBlock_claim]
      exact hrun
    · rw [hval, afterClaim_mem, afterClaim_dctx]
      rfl
  | dynamic =>
    obtain ⟨s', hrun, hval⟩ := dtCgLoadDvar_does h hlbl hP
    refine ⟨s', hrun, hval.trans ?_⟩
    by_cases hnull : s.regs 0 = 0#64
    · simp [result, promotes, stored, codeAddr, hnull, IntType.extend, signExtend]
    · simp [result, promotes, stored, codeAddr, hnull]
  | deref k reg =>
    obtain ⟨h0, hfp, hnull, hok⟩ := hready
    obtain ⟨u, c1, g1, c2, hderef, hret, rfl⟩ := bind_eq_some.1 h
    cases hret
    obtain ⟨s', hrun, hval⟩ := dtCgDeref_does hC hderef hlbl hP hfp h0 hnull hok
    refine ⟨s', by simpa using hrun, hval.trans ?_⟩
    cases k <;> simp [result, promotes, PtrKind.loaded, stored, codeAddr, delta, IntType.extend]
  | member k offset reg =>
    obtain ⟨h0, hfp, hnull, hok⟩ := hready
    obtain ⟨u, c1, g1, c2, hmember, hret, rfl⟩ := bind_eq_some.1 h
    cases hret
    obtain ⟨s', hrun, hval⟩ :=
      dtCgMember_plain_does (intMember_bitfield _ _) (intMember_ldsize _ _) hC hmember hlbl hP hfp h0 hnull hok
    refine ⟨s', by simpa using hrun, hval.trans ?_⟩
    simp [result, promotes, stored, codeAddr, delta, intMember]
  | incdec op post k isVar store dnReg child =>
    obtain ⟨h0, hne, hfp, hnull, -⟩ := hready
    obtain ⟨u, _, _, _, hop, hret, rfl⟩ := bind_eq_some.1 h
    cases hret
    obtain ⟨s', hrun, hval⟩ := dtCgIncdecOp_does hop hlbl hP h0 hne hfp hnull
    refine ⟨s', by simpa using hrun, hval.trans ?_⟩
    rw [ofInt_incdecVal]
    cases post <;> rfl

lemma delta_bounds (f : Form) : -1 ≤ f.delta ∧ f.delta ≤ 1 := by
  cases f with
  | incdec op post => cases op <;> cases post <;> simp [delta, IncDec.delta]
  | _ => simp [delta]

lemma delta_of_promotes (h : f.promotes = true) : f.delta = 0 := by
  cases f with
  | incdec => cases h
  | _ => rfl

lemma eq_of_emod_add {x y w : ℕ} (hx : x < w) (hy : y < w) {d : ℤ} (h : ((y : ℤ) + d) % w = (x + d) % w) : x = y := by
  have hcong : (y : ℤ) % w = x % w := Int.ModEq.add_right_cancel' d h
  rw [emod_eq_of_lt (by omega) (by omega), emod_eq_of_lt (by omega) (by omega)] at hcong
  omega

lemma stored_lt (a : Word) : f.stored ty s a < 2 ^ ty.width := by
  have hw : (256 : ℕ) ^ ty.size.bytes = 2 ^ ty.width := by
    rw [IntType.width, pow_mul]
    norm_num
  have hload : s.mem.load ty.size.bytes a < 2 ^ ty.width := hw ▸ s.mem.load_lt _ _
  unfold stored
  split
  · split
    · exact Nat.two_pow_pos _
    · exact hload
  · exact hload

lemma result_eq_iff : f.result ty s = ty.extend (f.bits ty s) ↔ f.Exact ty s := by
  have hcode : f.stored ty s (f.codeAddr s) < 2 ^ ty.width := stored_lt _
  have haddr : f.stored ty s (f.addr s) < 2 ^ ty.width := stored_lt _
  have hdelta := f.delta_bounds
  have hcast : ((2 ^ ty.width : ℕ) : ℤ) = 2 ^ ty.width := by
    push_cast
    rfl
  unfold result bits Exact
  generalize f.stored ty s (f.addr s) = y at *
  cases hp : f.promotes with
  | true =>
    rw [delta_of_promotes hp, add_zero, add_zero, emod_eq_of_lt (by omega) (by omega), toNat_natCast,
      if_pos rfl, IntType.extend_inj hcode haddr]
    simp
  | false =>
    have hpos : (0 : ℤ) < 2 ^ ty.width := Int.pow_pos (by decide)
    have hmod := Int.emod_nonneg (y + f.delta) hpos.ne'
    rw [if_neg (by simp), IntType.ofInt_eq_extend_iff (by omega) (by omega) (by omega), Int.toNat_of_nonneg hmod]
    constructor
    · rintro ⟨hcong, hfits⟩
      refine ⟨eq_of_emod_add (d := f.delta) hcode haddr ?_, .inr hfits⟩
      rw [hcast]
      exact hcong
    · rintro ⟨rfl, hfits⟩
      exact ⟨rfl, hfits.resolve_left (by simp)⟩

/-! ## Labels -/

lemma labelled_loadDvar (ty : IntType) : Labelled (dtCgLoadDvar ty) := by
  rintro ⟨S, _⟩ r c _ h
  obtain ⟨-, rfl, hg'⟩ := dtCgLoadDvar_shape h
  refine ⟨by rw [hg']; exact Nat.le_add_right _ _, fun l hl => ?_⟩
  simp only [tvarTail, labelCount_cons, labelCount_append, labelCount_plain hl, labelCount_nil, hg']
  split_ifs at * <;> omega

lemma labelled_incdecUpdate (op : IncDec) (post : Bool) (sz : Size) (dnReg child : Reg) :
    Labelled (incdecUpdate op post sz dnReg child) := by
  have hchange : Labelled (incdecChange op post sz dnReg child) := by
    exact .ite ((Labelled.regXallocUnchecked 0).bind fun _ => (Labelled.emits _).bind fun _ => .regFree 0)
      (.emits _)
  exact (Labelled.emit _).bind fun _ => hchange.bind fun _ => .regFree child

lemma labelled_incdecOp (op : IncDec) (post : Bool) (sz : Size) (isVar : Bool)
    (hstore : ∀ x, store = some x → Labelled x) (dnReg child : Reg) :
    Labelled (dtCgIncdecOp op post sz isVar store dnReg child) := by
  have hcheck : Labelled (incdecCheck isVar child) := .ite (.pure _) (.checkNotnull child)
  refine hcheck.bind fun _ => ?_
  cases store with
  | none => exact labelled_incdecUpdate op post sz dnReg child
  | some x =>
    rintro ⟨S, lbl⟩ u c _ h
    simp only [dtIrlistLabel_bind, emit_bind] at h
    obtain ⟨_, ⟨_, h1, rfl⟩, rfl⟩ := h
    obtain ⟨_, _, g1, _, hx, h2, rfl⟩ := bind_eq_some.1 h1
    simp only [emits_bind, emit_bind, emitl_bind] at h2
    obtain ⟨_, ⟨_, ⟨_, h3, rfl⟩, rfl⟩, rfl⟩ := h2
    obtain ⟨_, _, g2, _, hupdate, hdone, rfl⟩ := bind_eq_some.1 h3
    obtain ⟨rfl, rfl⟩ : _ ∧ _ := by simpa [emitl] using hdone
    have hstored := hstore x rfl _ _ _ _ hx
    have hupdated := labelled_incdecUpdate op post sz dnReg child _ _ _ _ hupdate
    have hle1 : lbl + 1 + 1 ≤ g1.lbl := hstored.le
    have hle2 := hupdated.le
    refine ⟨show lbl ≤ g2.lbl by omega, fun l hl => ?_⟩
    simp only [labelCount_cons, labelCount_append, labelCount_plain hl, labelCount_nil, hstored.count l hl,
      hupdated.count l hl]
    split_ifs at * <;> omega

lemma labelled_gen (hready : f.Ready C scratchsize S ty s) : Labelled (f.gen scratchsize pcb ty) := by
  cases f with
  | static lcl offset =>
    intro g r c g' h
    exact (Leaf.disciplined (dtCgLoadVar_leaf pcb ty lcl offset) g.regs).labels h
  | dynamic => exact labelled_loadDvar ty
  | deref k reg =>
    refine .bind ?_ fun _ => .pure _
    exact (Labelled.checkNotnull reg).bind fun _ => .ptrLoad _ _ _ _
  | member k offset reg =>
    refine .bind ((Labelled.checkNotnull reg).bind fun _ => ?_) fun _ => .pure _
    rw [intMember_bitfield]
    refine (Labelled.emits _).bind fun _ => ?_
    rw [intMember_ldsize]
    exact .ptrLoad _ _ _ _
  | incdec op post k isVar store dnReg child =>
    exact (labelled_incdecOp op post ty.size isVar hready.2.2.2.2 dnReg child).bind fun _ => .pure _

end

end Form

section

/-- The code leaves the value of the type, extended. -/
def Represents (C : Callee Func) (c : CgCode) (s : St Func) (r : Reg) (v : Word) : Prop :=
  ∃ s', Does (exec C) c c s s' ∧ s'.regs r = v

lemma Represents.exact (hC : ProbeReads C) (h : f.gen scratchsize pcb ty ⟨S, lbl⟩ = some (r, c, g')) (hlbl : lbl ≠ 0)
    (hready : f.Ready C scratchsize S ty s) (hr : Represents C c s r (ty.extend (f.bits ty s))) : f.Exact ty s := by
  obtain ⟨_, hrun1, hval1⟩ := hr
  obtain ⟨_, hrun2, hval2⟩ := Form.gen_does hC h hlbl (Form.labelled_gen hready _ _ _ _ h).nodup hready
  obtain rfl := hrun1.unique hrun2
  exact Form.result_eq_iff.1 (hval2.symm.trans hval1)

/-- Reading an integer leaves its value, extended to 64 bits, exactly where `Form.Exact` holds. -/
theorem int_repr_iff (hC : ProbeReads C) (h : f.gen scratchsize pcb ty ⟨S, lbl⟩ = some (r, c, g')) (hlbl : lbl ≠ 0)
    (hready : f.Ready C scratchsize S ty s) :
    Represents C c s r (ty.extend (f.bits ty s)) ↔ f.Exact ty s := by
  refine ⟨Represents.exact hC h hlbl hready, fun hexact => ?_⟩
  obtain ⟨s', hrun, hval⟩ := Form.gen_does hC h hlbl (Form.labelled_gen hready _ _ _ _ h).nodup hready
  exact ⟨s', hrun, hval.trans (Form.result_eq_iff.2 hexact)⟩

end

/-! ## A byte of storage of the tracer -/

/-- Functions that do nothing, and a `probe_read` that always succeeds. -/
def copyCallee : Callee Func where
  ret _ _ _ := 0
  scratch _ a _ := a
  effect
    | .probeRead, a, m => m.store (a 1).toNat (a 0) (m.load (a 1).toNat (a 2))
    | _, _, m => m

lemma copyCallee_probeReads : ProbeReads copyCallee := fun _ _ _ => rfl

/-- A pointer in `%r8`, and memory full of one byte. -/
def byteSt (x : BitVec 8) : St Func := ⟨Function.update (fun _ => 0) 8 4096, fun _ => 0, fun _ => x, []⟩

/-- `*p` for a pointer to storage of the tracer. -/
def byteForm : Form := .deref .dptr 8

lemma byteForm_ready (ty : IntType) (x : BitVec 8) : byteForm.Ready copyCallee 256 Regset.dtRegsetReset ty (byteSt x) :=
  ⟨by decide, by decide, by simp [byteSt], trivial⟩

lemma byteForm_compiles (ty : IntType) : ∃ c g', byteForm.gen 256 ⟨0, 0⟩ ty ⟨Regset.dtRegsetReset, 1⟩ = some (8, c, g') :=
  ⟨_, _, rfl⟩

def int8 : IntType := ⟨.b, true⟩

lemma byteForm_exact_iff (x : BitVec 8) : byteForm.Exact int8 (byteSt x) ↔ x.toNat < 128 := by
  have hload : byteForm.stored int8 (byteSt x) (byteForm.codeAddr (byteSt x)) = x.toNat := by
    simp [byteForm, Form.stored, Mem.load, byteSt, int8, Size.bytes]
  unfold Form.Exact
  rw [hload, show byteForm.addr (byteSt x) = byteForm.codeAddr (byteSt x) from rfl, hload]
  simp [byteForm, Form.promotes, Form.delta, IntType.Fits, int8, IntType.width, Size.bytes]

lemma byteForm_extend (x : BitVec 8) : int8.extend (byteForm.bits int8 (byteSt x)) = x.signExtend 64 := by
  have hload : byteForm.stored int8 (byteSt x) (byteForm.addr (byteSt x)) = x.toNat := by
    simp [byteForm, Form.stored, Mem.load, byteSt, int8, Size.bytes]
  have hmod : ((x.toNat : ℤ) + byteForm.delta) % 2 ^ int8.width = x.toNat := by
    rw [show byteForm.delta = 0 from rfl, show int8.width = 8 from rfl]
    omega
  rw [Form.bits, hload, hmod, toNat_natCast]
  exact congrArg (signExtend 64) (ofNat_toNat 8 x)

/-- The byte 5 of a signed type. -/
theorem int_repr_five : ∃ c g', byteForm.gen 256 ⟨0, 0⟩ int8 ⟨Regset.dtRegsetReset, 1⟩ = some (8, c, g') ∧
    Represents copyCallee c (byteSt 5) 8 5 := by
  obtain ⟨c, g', h⟩ := byteForm_compiles int8
  have hr := (int_repr_iff copyCallee_probeReads h (by decide) (byteForm_ready _ 5)).2
    ((byteForm_exact_iff 5).2 (by decide))
  exact ⟨c, g', h, hr⟩

/-- The byte `-1` of a signed type is read as 255. -/
theorem int_repr_minus_one : ∃ c g', byteForm.gen 256 ⟨0, 0⟩ int8 ⟨Regset.dtRegsetReset, 1⟩ = some (8, c, g') ∧
    ¬ Represents copyCallee c (byteSt (-1)) 8 (-1) := by
  obtain ⟨c, g', h⟩ := byteForm_compiles int8
  refine ⟨c, g', h, fun hr => ?_⟩
  have hext : int8.extend (byteForm.bits int8 (byteSt (-1))) = -1 := by
    rw [byteForm_extend]
    decide
  have hexact := Represents.exact copyCallee_probeReads h (by decide) (byteForm_ready _ (-1)) (hext ▸ hr)
  exact absurd ((byteForm_exact_iff (-1)).1 hexact) (by decide)

end DTrace.Cg
