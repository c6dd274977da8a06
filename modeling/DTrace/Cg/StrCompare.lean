import DTrace.Bpf.Strcmp
import DTrace.Cg.CallArgs

/-!
# Comparisons of strings

The code of a comparison of strings adds one to what `dt_strcmp` returns and compares that with one, in the registers of
the operands.

* `stringOps` — the six operators;
* `dtCgCompareOp_gives` — what the code computes, whichever registers the operands are in;
* `strings_compared_iff` — when `dt_strcmp` and the operators agree with the order of the strings.
-/

namespace DTrace.Cg

open Lib Bpf Gen List

/-- The operators, with what they say about the order of their operands. -/
def stringOps : List (JmpOp × (ℤ → Bool)) :=
  [(.jeq, (· = 0)), (.jne, (· ≠ 0)), (.jlt, (· < 0)), (.jle, (· ≤ 0)), (.jgt, (0 < ·)), (.jge, (0 ≤ ·))]

/-- Memory from a pointer on. -/
def bufAt (m : Mem) (p : Word) : Buf := fun i => m (p + BitVec.ofNat 64 i)

/-- Calls of `dt_strcmp` run `dt_strcmp`; its buffers are apart from the strings. -/
def CallsStrcmp (C : Callee Func) (strsz : ℕ) : Prop :=
  ∀ args m, C.ret .dtStrcmp args m =
    BitVec.ofInt 64 (dtStrcmp strsz (bufAt m (args 0)) (bufAt m (args 1)) (bufAt m (args 2)) (bufAt m (args 3)))

/-- The code of `x`, compiled with the registers `S` live, computes `v`. -/
def Gives (C : Callee Func) (x : Gen Reg) (S : Regset) (d : Word) (m : Mem) (v : Word) : Prop :=
  ∀ lbl, lbl ≠ 0 → ∀ q c g', x ⟨S, lbl⟩ = some (q, c, g') → ∀ P, LabelsNodup P → ∀ s : St Func,
    s.stk dtStkDctx = d → s.mem = m → ∃ s', Does (exec C) P c s s' ∧ s'.regs q = v

def truth (b : Bool) : Word := if b then 1#64 else 0#64

/-- `dt_strcmp` returns the order of two strings, and every operator agrees with it. -/
structure StringsCompared (C : Callee Func) (S : Regset) (d : Word) (m : Mem) (sa : StrArgs) (left right : Gen Reg)
    (strsz : ℕ) (s t : Buf) (ord : ℤ) : Prop where
  strcmp : ∀ tmp1 tmp2, dtStrcmp strsz s t tmp1 tmp2 = ord
  ops : ∀ o ∈ stringOps, Gives C (dtCgCompareOp o.1 (some sa) left right) S d m (truth (o.2 ord))

variable {C : Callee Func} {S : Regset} {d : Word} {m m' : Mem} {sa : StrArgs} {left right : Gen Reg} {vl vr : Word}
  {strsz k n lbl : ℕ} {ord r : ℤ}

lemma ops_iff (hr : r ∈ [-1, 0, 1]) (hord : ord ∈ [-1, 0, 1]) :
    (∀ o ∈ stringOps, o.1.eval (BitVec.ofInt 64 r + 1#64) 1#64 = o.2 ord) ↔ r = ord := by
  have hall : ∀ r ∈ [-1, 0, 1], ∀ ord ∈ [-1, 0, 1],
      (∀ o ∈ stringOps, o.1.eval (BitVec.ofInt 64 r + 1#64) 1#64 = o.2 ord) ↔ r = ord := by decide
  exact hall r hr ord hord

lemma verdict_cases (x y : ℕ) : verdict x y ∈ [-1, 0, 1] := by
  unfold verdict
  split_ifs <;> simp

lemma truth_inj {a b : Bool} : truth a = truth b ↔ a = b := by
  cases a <;> cases b <;> simp [truth]

/-- What stands for the result of `dt_strcmp` when the operands are in `a` and `b`. -/
def shownOrder (a b : Reg) (self strcmp : ℤ) : ℤ := if a = b then 0 else if b = 1 then self else strcmp

/-- A right operand in `%r1` is overwritten by the left one; of operands in the same register none is left. -/
lemma dtCgCompareOp_gives (sa : StrArgs) (hC : CallsStrcmp C strsz) (ho : Operands C S d m left right vl vr m')
    (hs : StrAt k (bufAt m' vl)) (hk : k ≤ strsz) {a b : Reg} (ha : S.pick = some a) (hb : (S.claim a).pick = some b) :
    ∃ tmp1 tmp2, ∀ op, Gives C (dtCgCompareOp op (some sa) left right) S d m (truth (op.eval (BitVec.ofInt 64
      (shownOrder a b (selfOrder strsz k (bufAt m' vl)) (dtStrcmp strsz (bufAt m' vl) (bufAt m' vr) tmp1 tmp2)) + 1#64)
        1#64)) := by
  refine ⟨bufAt m' (dctxField d m' .mem + sa.off1.signExtend 64), bufAt m' (dctxField d m' .mem + sa.off2.signExtend 64),
    fun op lbl hlbl q c g' hgen P hP s hd hm => ?_⟩
  obtain ⟨a', b', ha', hb', -, s', vl', args, hvl', hrun, -, hargs, hval⟩ := dtCgCompareOp_call ho hlbl hgen hP hd hm
  obtain rfl := Option.mem_unique ha ha'
  obtain rfl := Option.mem_unique hb hb'
  refine ⟨s', hrun, hval.trans ?_⟩
  rw [truth, shownOrder]
  by_cases hab : a = b
  · simp [hab]
  · have hvl : vl' = vl := hvl'.trans (if_neg hab)
    rw [if_neg hab, if_neg hab, hC, hargs, hvl]
    by_cases hb1 : b = 1
    · simp [hb1, strcmpArgs, dtStrcmp_self hs hk]
    · simp [hb1, strcmpArgs]

/-- Two strings of at most `strsz` characters, the registers `S` in use: `dt_strcmp` returns their order and the six
operators agree with it exactly when the strings are comparable and, if both operands get the same register, they are
equal, or, if the right one gets `%r1`, their order is what the left one gives when compared with itself. -/
theorem strings_compared_iff (hC : CallsStrcmp C strsz) (ho : Operands C S d m left right vl vr m')
    (hs : StrAt k (bufAt m' vl)) (ht : StrAt n (bufAt m' vr)) (hk : k ≤ strsz) (hn : n ≤ strsz) (hlbl : lbl ≠ 0)
    (hgen : ∀ op, (dtCgCompareOp op (some sa) left right).Succeeds ⟨S, lbl⟩) :
    let ord := order strsz (padded k (bufAt m' vl)) (padded n (bufAt m' vr))
    StringsCompared C S d m sa left right strsz (bufAt m' vl) (bufAt m' vr) ord ↔
      Comparable strsz k n (bufAt m' vl) (bufAt m' vr) ∧ ∀ a b, S.pick = some a → (S.claim a).pick = some b →
        (a = b → ord = 0) ∧ (a ≠ b → b = 1 → ord = selfOrder strsz k (bufAt m' vl)) := by
  intro ord
  have hord : ord ∈ [-1, 0, 1] := order_cases _ _ _
  have hself : selfOrder strsz k (bufAt m' vl) ∈ [-1, 0, 1] := by
    unfold selfOrder
    split
    · simp
    · exact verdict_cases _ _
  constructor
  · rintro ⟨hstrcmp, hops⟩
    refine ⟨(dtStrcmp_eq_order hs ht hk hn (fun _ => 0) fun _ => 0).1 (hstrcmp _ _), fun a b ha hb => ?_⟩
    obtain ⟨tmp1, tmp2, hgives⟩ := dtCgCompareOp_gives sa hC ho hs hk ha hb
    -- the code computes one value only
    have heval : ∀ o ∈ stringOps, o.1.eval (BitVec.ofInt 64 (shownOrder a b (selfOrder strsz k (bufAt m' vl))
        (dtStrcmp strsz (bufAt m' vl) (bufAt m' vr) tmp1 tmp2)) + 1#64) 1#64 = o.2 ord := by
      intro o hmem
      obtain ⟨q, c, g', hcode⟩ := hgen o.1
      have hP := dtCgCompareOp_nodup ho hcode
      let s : St Func := ⟨fun _ => 0, fun _ => d, m, []⟩
      obtain ⟨s1, hrun1, hval1⟩ := hops o hmem lbl hlbl q c g' hcode c hP s rfl rfl
      obtain ⟨s2, hrun2, hval2⟩ := hgives o.1 lbl hlbl q c g' hcode c hP s rfl rfl
      obtain rfl := hrun1.unique hrun2
      exact truth_inj.1 (hval2.symm.trans hval1)
    constructor
    · intro hab
      rw [shownOrder, if_pos hab] at heval
      exact ((ops_iff (by simp) hord).1 heval).symm
    · intro hab hb1
      rw [shownOrder, if_neg hab, if_pos hb1] at heval
      exact ((ops_iff hself hord).1 heval).symm
  · rintro ⟨hcomp, hregs⟩
    have hstrcmp := fun tmp1 tmp2 => (dtStrcmp_eq_order hs ht hk hn tmp1 tmp2).2 hcomp
    refine ⟨hstrcmp, fun o hmem => ?_⟩
    intro lbl' hlbl' q c g' hcode P hP st hd hm
    obtain ⟨a, b, ha, hb, -⟩ := dtCgCompareOp_call ho hlbl' hcode hP hd hm
    obtain ⟨tmp1, tmp2, hgives⟩ := dtCgCompareOp_gives sa hC ho hs hk ha hb
    have hshown : shownOrder a b (selfOrder strsz k (bufAt m' vl)) (dtStrcmp strsz (bufAt m' vl) (bufAt m' vr) tmp1 tmp2) =
        ord := by
      obtain ⟨hsame, hfirst⟩ := hregs a b ha hb
      unfold shownOrder
      split
      · next hab => exact (hsame hab).symm
      · next hab =>
        split
        · next hb1 => exact (hfirst hab hb1).symm
        · exact hstrcmp tmp1 tmp2
    have h := hgives o.1
    rw [hshown, (ops_iff hord hord).2 rfl o hmem] at h
    exact h lbl' hlbl' q c g' hcode P hP st hd hm

/-- `"a"` at 8, `"b"` at 16. -/
def twoStrings : Mem := fun p => if p = 8 then 97 else if p = 16 then 98 else 0

def strcmpCallee : Callee Func where
  ret _ args m :=
    BitVec.ofInt 64 (dtStrcmp 256 (bufAt m (args 0)) (bufAt m (args 1)) (bufAt m (args 2)) (bufAt m (args 3)))
  scratch _ args _ := args
  effect _ _ m := m

/-- `"a"` and `"b"`, when nothing else is in a register. -/
theorem strings_compared_a_b : StringsCompared strcmpCallee .dtRegsetReset 4096 twoStrings ⟨true, true, imm 0, imm 264⟩
    (dtCgString 8) (dtCgString 16) 256 (bufAt twoStrings 8) (bufAt twoStrings 16) (-1) := by
  have hfield : dctxField 4096 twoStrings .strtab = 0#64 := by decide
  have ho : Operands strcmpCallee .dtRegsetReset 4096 twoStrings (dtCgString 8) (dtCgString 16) 8 16 twoStrings :=
    operands_strings hfield (by decide) (by decide)
  have hgen : ∀ op, (dtCgCompareOp op (some ⟨true, true, imm 0, imm 264⟩) (dtCgString 8) (dtCgString 16)).Succeeds
      ⟨.dtRegsetReset, 1⟩ := fun op => dtCgCompareOp_succeeds op _ 8 16 (a := 8) (b := 7) (by decide) (by decide) (by decide)
  have hord : order 256 (padded 1 (bufAt twoStrings 8)) (padded 1 (bufAt twoStrings 16)) = -1 := by decide +kernel
  rw [← hord]
  refine (strings_compared_iff (fun _ _ => rfl) ho ⟨by decide, by decide⟩ ⟨by decide, by decide⟩ (by decide) (by decide)
    Nat.one_ne_zero hgen).2 ⟨fun h => absurd (h 0 (by decide)) (by decide), ?_⟩
  exact picked_unique (a := 8) (b := 7) (by decide) (by decide) ⟨fun h => absurd h (by decide), fun _ h => absurd h (by decide)⟩

end DTrace.Cg
