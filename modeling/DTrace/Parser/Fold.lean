import DTrace.Cg.ExprExact
import DTrace.Cg.IntRepr

/-!
# Constant folding

The parser computes an operator on integer constants itself, in the 64 bits of `dn_value`.  The code generator has its own
version of the same operators, for operands it does not know.

* `dtNodeOp1`, `dtNodeOp2` — the constants the parser makes;
* `dtCookOp1`, `dtCookOp2` — the nodes it makes of operands that are no constants;
* `fold_invisible_iff` — where the two agree.
-/

namespace DTrace.Parser

open Lib Bpf Cg
open BitVec hiding ofBool

/-! ## Constants -/

/-- A `DT_NODE_INT`. -/
structure IntNode where
  ty : IntType
  value : Word
  deriving DecidableEq, Repr

def IntNode.Fits (n : IntNode) : Prop := ∃ b < 2 ^ n.ty.width, n.value = n.ty.extend b

def dtIntType : IntType := ⟨.w, true⟩

/-- The rank of a type in `dt_type_promote`. -/
def rank (ty : IntType) : ℕ := ty.width + if ty.signed then 0 else 1

/-- `dt_type_promote`; types of the same rank have the same size and sign. -/
def dtTypePromote (l r : IntType) : IntType := if rank l < rank r then r else l

/-- The unary operators. -/
inductive UnOp
  | ineg
  | ipos
  | bneg
  | lneg
  deriving DecidableEq, Repr

/-- The binary operators. -/
inductive BinOp
  | arith (op : ArithOp)
  | cmp (op : CmpOp)
  | land
  | lxor
  | lor
  deriving DecidableEq, Repr

/-- `dt_node_op1` of a constant: the negative of an unsigned one is cut to its type. -/
def dtNodeOp1 (n : IntNode) : UnOp → IntNode
  | .ineg =>
    let value := -n.value
    { n with value := if n.ty.signed then value else value &&& (BitVec.allOnes 64 >>> (64 - n.ty.width)) }
  | .ipos => n
  | .bneg => { n with value := ~~~n.value }
  | .lneg => { n with value := ofBool (n.value == 0#64) }

/-- The least `intmax_t`. -/
def intmaxMin : Word := BitVec.intMin 64

/-- `/` and `%` of `intmax_t`: the quotient of the least number by `-1` is undefined, and so is the remainder. -/
def intmaxOp (op : Word → Word → Word) (l r : Word) : Option Word :=
  if r = 0#64 ∨ l = intmaxMin ∧ r = -1#64 then none else some (op l r)

/-- `/` and `%` of `uintmax_t`. -/
def uintmaxOp (op : Word → Word → Word) (l r : Word) : Option Word := if r = 0#64 then none else some (op l r)

/-- The arithmetic of `dt_node_op2`, with the `DT_NF_SIGNED` flag of the promoted type. -/
def foldArith (signed : Bool) (l r : Word) : ArithOp → Option Word
  | .add => some (l + r)
  | .sub => some (l - r)
  | .mul => some (l * r)
  | .div => if signed then intmaxOp BitVec.sdiv l r else uintmaxOp BitVec.udiv l r
  | .mod => if signed then intmaxOp BitVec.srem l r else uintmaxOp BitVec.umod l r
  | .band => some (l &&& r)
  | .bor => some (l ||| r)
  | .xor => some (l ^^^ r)
  | .lsh => if r.toNat < 64 then some (l <<< r.toNat) else none
  | .rsh => if r.toNat < 64 then some (l >>> r.toNat) else none

def arithType (l r : IntType) : ArithOp → IntType
  | .lsh | .rsh => l
  | _ => dtTypePromote l r

/-- `dt_node_op2` of constants; `none` if it ends in an error or C leaves it undefined. -/
def dtNodeOp2 (l r : IntNode) : BinOp → Option IntNode
  | .arith op => (foldArith (dtTypePromote l.ty r.ty).signed l.value r.value op).map fun v => ⟨arithType l.ty r.ty op, v⟩
  | .cmp op => some ⟨dtIntType, ofBool (op.eval (dtTypePromote l.ty r.ty).signed l.value r.value)⟩
  | .land => some ⟨dtIntType, ofBool (l.value != 0#64 && r.value != 0#64)⟩
  | .lxor => some ⟨dtIntType, ofBool ((l.value != 0#64) != (r.value != 0#64))⟩
  | .lor => some ⟨dtIntType, ofBool (l.value != 0#64 || r.value != 0#64)⟩

/-! ## Nodes -/

def dtCookOp1 (e : Expr) : UnOp → Expr
  | .ineg => .ineg e
  | .ipos => .ipos e
  | .bneg => .bneg e
  | .lneg => .lneg e

/-- `dt_cook_op2`: the type of the node decides whether the arithmetic is signed, the promoted type whether a comparison
is. -/
def dtCookOp2 (lt rt : IntType) (l r : Expr) : BinOp → Expr
  | .arith op => .arith op (arithType lt rt op).signed l r
  | .cmp op => .cmp op (dtTypePromote lt rt).signed l r
  | .land => .land l r
  | .lxor => .lxor l r
  | .lor => .lor l r

/-- The type of a variable; those of built-in ones are in a table of their own. -/
def varType : Var → Option IntType
  | .global ty _ | .lcl ty _ | .tls ty _ => some ty
  | .builtin _ _ => none

/-- An operator on constants. -/
inductive Folding
  | op1 (op : UnOp) (n : IntNode)
  | op2 (op : BinOp) (l r : IntNode)
  deriving DecidableEq, Repr

namespace Folding

def value : Folding → Option Word
  | op1 op n => some (dtNodeOp1 n op).value
  | op2 op l r => (dtNodeOp2 l r op).map IntNode.value

/-- The node, if the operands are variables of the same types. -/
def node (x y : Var) : Folding → Expr
  | op1 op _ => dtCookOp1 (.var x) op
  | op2 op l r => dtCookOp2 l.ty r.ty (.var x) (.var y) op

/-- The operands are constants of their types. -/
def Typed : Folding → Prop
  | op1 _ n => n.Fits
  | op2 _ l r => l.Fits ∧ r.Fits

/-- The divisor is not zero, and the shift count is below 64. -/
def Defined : Folding → Prop
  | op1 _ _ => True
  | op2 op _ r => (op = .arith .div ∨ op = .arith .mod → r.value ≠ 0#64) ∧
    (op = .arith .lsh ∨ op = .arith .rsh → r.value.toNat < 64)

/-- The variables have the types and values of the constants, when they are loaded, and offsets that fit into an
instruction. -/
def Held (C : Callee Func) (pcb : Pcb) (d : Word) (m : Mem) (x y : Var) : Folding → Prop
  | op1 _ n => varType x = some n.ty ∧ x.read = x ∧ ∃ m₁, x.eval C pcb d m = some (n.value, m₁)
  | op2 _ l r => varType x = some l.ty ∧ varType y = some r.ty ∧ x.read = x ∧ y.read = y ∧
    ∃ m₁ m₂, x.eval C pcb d m = some (l.value, m₁) ∧ y.eval C pcb d m₁ = some (r.value, m₂)

/-- The operators and constants for which the parser folds as the code computes. -/
def Ok : Folding → Prop
  | op1 .ineg n => n.ty.signed = true ∨ n.ty.size = .dw ∨ n.value = 0#64
  | op1 _ _ => True
  | op2 (.arith .rsh) l r => l.ty.signed = true → 0 ≤ l.value.toInt ∨ r.value = 0#64
  | op2 (.arith .div) l r => (dtTypePromote l.ty r.ty).signed = true → ¬ (l.value = intmaxMin ∧ r.value = -1#64)
  | op2 (.arith .mod) l r => (dtTypePromote l.ty r.ty).signed = true →
    ¬ (l.value = intmaxMin ∧ r.value = -1#64) ∧ (r.value.toInt < 0 → r.value.toInt ∣ l.value.toInt)
  | op2 _ _ _ => True

end Folding

/-- The code leaves the value in its register. -/
def Computes (C : Callee Func) (pcb : Pcb) (d : Word) (S : Regset) (m : Mem) (e : Expr) (v : Word) : Prop :=
  ∀ lbl, lbl ≠ 0 → ∀ r c g', dtCgNode pcb e ⟨S, lbl⟩ = some (r, c, g') → ∀ P, LabelsNodup P → ∀ s : St Func,
    s.stk dtStkDctx = d → s.mem = m → ∃ s', Does (exec C) P c s s' ∧ s'.regs r = v

def TwoFree (S : Regset) : Prop :=
  S.spilled 0 = false ∧ ∀ a b, S.pick = some a → (S.claim a).pick = some b → a ≠ b ∧ S.active b = false

/-! ## What the code computes -/

variable {f : Folding} {C : Callee Func} {S : Regset} {pcb : Pcb} {d : Word} {m : Mem}

namespace Folding

def codeValue : Folding → Word
  | op1 .ineg n => -n.value
  | op1 .ipos n => n.value
  | op1 .bneg n => ~~~n.value
  | op1 .lneg n => ofBool (n.value == 0#64)
  | op2 (.arith op) l r =>
    let signed := (arithType l.ty r.ty op).signed
    arithVal (op.alu signed) signed l.value r.value
  | op2 (.cmp op) l r => ofBool (op.eval (dtTypePromote l.ty r.ty).signed l.value r.value)
  | op2 .land l r => ofBool (l.value != 0#64 && r.value != 0#64)
  | op2 .lxor l r => ofBool ((l.value != 0#64) != (r.value != 0#64))
  | op2 .lor l r => ofBool (l.value != 0#64 || r.value != 0#64)

section

variable {x y : Var} {e : Expr} {m' : Mem}

lemma rightAt_of_safe {v : Word} (hC : Respects C) (h0 : S.spilled 0 = false)
    (h : Everywhere C pcb d (Safe C pcb d) e S m) (hv : e.eval C pcb d m = some (v, m')) :
    ∃ m', RightAt C (dtCgNode pcb e) S d m v m' := ⟨m', safe_rightAt hC h0 h hv⟩

lemma safe_var (h : x.read = x) : Safe C pcb d (.var x) S m := by
  rw [Safe, h]

lemma node_rightAt (hC : Respects C) (hfree : TwoFree S) (hdef : f.Defined) (hheld : f.Held C pcb d m x y) :
    ∃ m', RightAt C (dtCgNode pcb (f.node x y)) S d m f.codeValue m' := by
  obtain ⟨h0, hfree⟩ := hfree
  cases f with
  | op1 op n =>
    obtain ⟨-, hread, m1, hx⟩ := hheld
    have hv : ((op1 op n).node x y).eval C pcb d m = some ((op1 op n).codeValue, m1) := by
      cases op <;> simp [node, dtCookOp1, Expr.eval, hx, codeValue]
    exact rightAt_of_safe hC h0 (by cases op <;> exact ⟨safe_var hread, trivial⟩) hv
  | op2 op l r =>
    obtain ⟨-, -, hrx, hry, m1, m2, hx, hy⟩ := hheld
    have hvars : Everywhere C pcb d (Safe C pcb d) (.var x) S m ∧ ∀ a vl m1, S.pick = some a →
        (Expr.var x).eval C pcb d m = some (vl, m1) → Everywhere C pcb d (Safe C pcb d) (.var y) (S.claim a) m1 :=
      ⟨safe_var hrx, fun _ _ _ _ _ => safe_var hry⟩
    cases op with
    | arith op =>
      refine ⟨m2, arithmeticOp_rightAt (both_of_safe hC h0 hvars.1 hvars.2 hx hy) (fun hop => ?_) fun a b ha hb => ?_⟩
      · refine hdef.1 ?_
        cases op with
        | div => exact .inl rfl
        | mod => exact .inr rfl
        | rsh => cases hs : (arithType l.ty r.ty .rsh).signed <;> simp [ArithOp.alu, hs] at hop
        | _ => simp [ArithOp.alu] at hop
      · exact if_neg (hfree a b ha hb).1
    | cmp op =>
      refine rightAt_of_safe hC h0 ⟨hvars, fun a b vl m1 vr m2 ha hb _ _ => ?_⟩ (eval_cmp hx hy)
      obtain ⟨hab, hact⟩ := hfree a b ha hb
      rw [if_neg hab, hact]
      exact fun h => absurd h (by simp)
    | lxor =>
      exact rightAt_of_safe hC h0 ⟨hvars, fun a b vl m1 vr m2 ha hb _ _ hab => absurd hab (hfree a b ha hb).1⟩
        (eval_lxor hx hy)
    | land =>
      have hand : ∃ m', (Expr.land (.var x) (.var y)).eval C pcb d m = some (codeValue (op2 .land l r), m') := by
        by_cases hz : l.value = 0#64
        · exact ⟨m1, by simp [Expr.eval, hx, hz, codeValue, ofBool]⟩
        · exact ⟨m2, by simp [Expr.eval, hx, hy, hz, codeValue, bne_iff_ne.2 hz]⟩
      obtain ⟨m', hand⟩ := hand
      exact rightAt_of_safe hC h0 ⟨⟨safe_var hrx, fun _ _ _ _ => safe_var hry⟩, trivial⟩ hand
    | lor =>
      have hor : ∃ m', (Expr.lor (.var x) (.var y)).eval C pcb d m = some (codeValue (op2 .lor l r), m') := by
        by_cases hz : l.value = 0#64
        · exact ⟨m2, by simp [Expr.eval, hx, hy, hz, codeValue]⟩
        · exact ⟨m1, by simp [Expr.eval, hx, hz, codeValue, bne_iff_ne.2 hz, ofBool]⟩
      obtain ⟨_, hor⟩ := hor
      exact rightAt_of_safe hC h0 ⟨⟨safe_var hrx, fun _ _ => safe_var hry⟩, trivial⟩ hor

lemma computes_iff {v w : Word} (h0 : S.spilled 0 = false) (hc : Compiles pcb e S)
    (hw : RightAt C (dtCgNode pcb e) S d m w m') : Computes C pcb d S m e v ↔ v = w := by
  constructor
  · intro h
    obtain ⟨lbl, hlbl, r, c, g', hgen⟩ := hc
    have hnd := ((dtCgNode_disciplined pcb e h0).labels hgen).nodup
    let s : St Func := ⟨fun _ => 0, fun _ => d, m, []⟩
    obtain ⟨_, hrun1, hval1⟩ := h lbl hlbl r c g' hgen c hnd s rfl rfl
    obtain ⟨_, hrun2, hs2⟩ := hw lbl hlbl r c g' hgen c hnd s rfl rfl
    obtain rfl := hrun1.unique hrun2
    exact hval1.symm.trans hs2.value
  · rintro rfl lbl hlbl r c g' hgen P hP s hd hm
    obtain ⟨s', hrun, hs'⟩ := hw lbl hlbl r c g' hgen P hP s hd hm
    exact ⟨s', hrun, hs'.value⟩

end

end Folding

/-! ## Where the two agree -/

lemma neg_cut_eq_iff {n : IntNode} (hfits : n.Fits) (hs : n.ty.signed = false) :
    -n.value &&& (BitVec.allOnes 64 >>> (64 - n.ty.width)) = -n.value ↔ n.ty.size = .dw ∨ n.value = 0#64 := by
  obtain ⟨b, hb, hval⟩ := hfits
  rw [IntType.extend, if_neg (by simp [hs])] at hval
  have hw : n.ty.width ≤ 64 ∧ (n.ty.size = .dw ↔ n.ty.width = 64) ∧ (n.ty.size ≠ .dw → n.ty.width ≤ 32) ∧
      (2 ^ 64 - 1) / 2 ^ (64 - n.ty.width) = 2 ^ n.ty.width - 1 := by
    unfold IntType.width
    cases n.ty.size <;> decide
  obtain ⟨hle, hdw, hnarrow, hdiv⟩ := hw
  have hpow : 2 ^ n.ty.width ≤ 2 ^ 64 := Nat.pow_le_pow_right (by decide) hle
  have hmask : (-n.value &&& (BitVec.allOnes 64 >>> (64 - n.ty.width))).toNat = (-n.value).toNat % 2 ^ n.ty.width := by
    rw [toNat_and, toNat_ushiftRight, toNat_allOnes, ← Nat.and_two_pow_sub_one_eq_mod,
      Nat.shiftRight_eq_div_pow, hdiv]
  have hnat : n.value.toNat = b := by
    rw [hval, toNat_ofNat, Nat.mod_eq_of_lt (by omega)]
  have hzero : n.value = 0#64 ↔ b = 0 := by
    rw [← hnat]
    exact ⟨fun h => by rw [h]; rfl, fun h => eq_of_toNat_eq h⟩
  rw [hzero, ← toNat_inj, hmask, Nat.mod_eq_iff_lt (by omega), toNat_neg, hnat]
  by_cases hsize : n.ty.size = .dw
  · rw [hdw.1 hsize]
    simp only [hsize, true_or, iff_true]
    omega
  · have h32 : 2 ^ n.ty.width ≤ 2 ^ 32 := Nat.pow_le_pow_right (by decide) (hnarrow hsize)
    simp only [hsize, false_or]
    constructor
    · intro h
      omega
    · rintro rfl
      simp

variable {k : ℕ}

lemma ushiftRight_eq_sshiftRight_iff {x : Word} (hk : k < 64) : x >>> k = x.sshiftRight k ↔ 0 ≤ x.toInt ∨ k = 0 := by
  have hmsb : 0 ≤ x.toInt ↔ x.msb = false := by
    rw [msb_eq_toInt]
    simp
  rw [hmsb]
  constructor
  · intro h
    by_contra hne
    obtain ⟨hx, -⟩ := not_or.1 hne
    have htop := congrArg (fun v : Word => v.getLsbD 63) h
    rw [getLsbD_ushiftRight, getLsbD_sshiftRight, if_neg (by omega), Bool.eq_true_of_not_eq_false hx,
      getLsbD_of_ge _ _ (by omega)] at htop
    exact absurd htop (by decide)
  · rintro (hx | rfl)
    · exact (sshiftRight_eq_of_msb_false hx).symm
    · simp

lemma srem_eq_zero_iff {x y : Word} : x.srem y = 0#64 ↔ y.toInt ∣ x.toInt := by
  rw [← toInt_inj, toInt_srem, toInt_zero]
  exact Int.dvd_iff_tmod_eq_zero.symm

lemma foldArith_eq_iff {op : ArithOp} {l r : IntNode} (hdef : (Folding.op2 (.arith op) l r).Defined) :
    foldArith (dtTypePromote l.ty r.ty).signed l.value r.value op = some (Folding.codeValue (.op2 (.arith op) l r)) ↔
      (Folding.op2 (.arith op) l r).Ok := by
  obtain ⟨hdiv, hshift⟩ := hdef
  cases op with
  | div =>
    have hr := hdiv (.inl rfl)
    simp only [foldArith, Folding.codeValue, arithType, ArithOp.alu, arithVal, Folding.Ok]
    cases (dtTypePromote l.ty r.ty).signed with
    | true => simp [intmaxOp, hr, signedDivVal_div]
    | false => simp [uintmaxOp, hr, AluOp.eval]
  | mod =>
    have hr := hdiv (.inr rfl)
    simp only [foldArith, Folding.codeValue, arithType, ArithOp.alu, arithVal, Folding.Ok]
    cases (dtTypePromote l.ty r.ty).signed with
    | true =>
      have hneg : r.value.toInt < 0 ↔ r.value.msb = true := by
        rw [msb_eq_toInt]
        simp
      simp only [intmaxOp, hr, false_or, if_true, and_true, true_or, signedDivVal_mod, hneg, ← srem_eq_zero_iff, forall_const]
      by_cases hmin : l.value = intmaxMin ∧ r.value = -1#64
      · simp [hmin]
      · rw [if_neg hmin, Option.some.injEq]
        simp only [hmin, not_false_eq_true, true_and]
        cases hmsb : r.value.msb with
        | true =>
          simp only [if_true, forall_const]
          rw [eq_comm, srem_eq_neg_iff hmsb]
        | false => simp
    | false => simp [uintmaxOp, hr, AluOp.eval]
  | lsh =>
    have hr := hshift (.inl rfl)
    simp [foldArith, Folding.codeValue, ArithOp.alu, arithVal, Folding.Ok, hr, AluOp.eval, Nat.mod_eq_of_lt]
  | rsh =>
    have hr := hshift (.inr rfl)
    simp only [foldArith, Folding.codeValue, arithType, ArithOp.alu, arithVal, Folding.Ok, if_pos hr, Option.some.injEq]
    by_cases hs : l.ty.signed = true
    · have hzero : r.value = 0#64 ↔ r.value.toNat = 0 := ⟨fun h => by rw [h]; rfl, fun h => eq_of_toNat_eq h⟩
      simp [hs, AluOp.eval, Nat.mod_eq_of_lt hr, ushiftRight_eq_sshiftRight_iff hr, hzero]
    · simp [hs, AluOp.eval, Nat.mod_eq_of_lt hr]
  | _ => simp [foldArith, Folding.codeValue, ArithOp.alu, arithVal, Folding.Ok, AluOp.eval]

lemma value_eq_iff (ht : f.Typed) (hdef : f.Defined) : f.value = some f.codeValue ↔ f.Ok := by
  cases f with
  | op1 op n =>
    cases op with
    | ineg =>
      simp only [Folding.value, dtNodeOp1, Folding.codeValue, Folding.Ok, Option.some.injEq]
      cases hs : n.ty.signed with
      | true => simp
      | false => simpa using neg_cut_eq_iff ht hs
    | _ => simp [Folding.value, dtNodeOp1, Folding.codeValue, Folding.Ok]
  | op2 op l r =>
    cases op with
    | arith op =>
      rw [← foldArith_eq_iff hdef, Folding.value, dtNodeOp2, Option.map_map]
      simp [Function.comp_def]
    | _ => simp [Folding.value, dtNodeOp2, Folding.codeValue, Folding.Ok]

section

variable {x y : Var}

/-- The folded value is the one the code computes. -/
def Invisible (C : Callee Func) (pcb : Pcb) (d : Word) (S : Regset) (m : Mem) (x y : Var) (f : Folding) : Prop :=
  ∃ v, f.value = some v ∧ Computes C pcb d S m (f.node x y) v

theorem Invisible.ok (h : Invisible C pcb d S m x y f) (hC : Respects C) (hfree : TwoFree S)
    (hc : Compiles pcb (f.node x y) S) (ht : f.Typed) (hdef : f.Defined) (hheld : f.Held C pcb d m x y) : f.Ok := by
  obtain ⟨v, hv, hcode⟩ := h
  obtain ⟨_, hw⟩ := Folding.node_rightAt hC hfree hdef hheld
  obtain rfl := (Folding.computes_iff hfree.1 hc hw).1 hcode
  exact (value_eq_iff ht hdef).1 hv

/-- Folding is invisible exactly for these operators and constants. -/
theorem fold_invisible_iff (hC : Respects C) (hfree : TwoFree S) (hc : Compiles pcb (f.node x y) S) (ht : f.Typed)
    (hdef : f.Defined) (hheld : f.Held C pcb d m x y) : Invisible C pcb d S m x y f ↔ f.Ok := by
  refine ⟨fun h => h.ok hC hfree hc ht hdef hheld, fun hok => ?_⟩
  obtain ⟨_, hw⟩ := Folding.node_rightAt hC hfree hdef hheld
  exact ⟨_, (value_eq_iff ht hdef).2 hok, (Folding.computes_iff hfree.1 hc hw).2 rfl⟩

end

/-! ## Two global variables of type `int` -/

/-- The first is at 128, the second at 136. -/
def foldMem (a b : ℕ) : Mem := (zeroMem.store 4 128 a).store 4 136 b

def foldLeft : Var := .global dtIntType 128

def foldRight : Var := .global dtIntType 136

/-- `-8 >> k`. -/
def shiftRight (k : Word) : Folding := .op2 (.arith .rsh) ⟨dtIntType, -8#64⟩ ⟨dtIntType, k⟩

lemma noneLive_twoFree : TwoFree noneLive := by
  refine ⟨rfl, fun a b ha hb => ?_⟩
  obtain rfl : a = 8 := Option.some.inj (ha.symm.trans (by decide))
  obtain rfl : b = 7 := Option.some.inj (hb.symm.trans (by decide))
  decide

lemma shiftRight_compiles (k : Word) : Compiles ⟨0, 0⟩ ((shiftRight k).node foldLeft foldRight) noneLive :=
  ⟨1, by decide, _, _, _, rfl⟩

lemma shiftRight_held (hk : k = 0 ∨ k = 1) : (shiftRight (BitVec.ofNat 64 k)).Held idleCallee ⟨0, 0⟩ 0
    (foldMem (2 ^ 32 - 8) k) foldLeft foldRight := by
  have hloads : (foldMem (2 ^ 32 - 8) k).load 4 (dctxField 0 (foldMem (2 ^ 32 - 8) k) .gvars + .ofInt 64 128) =
      2 ^ 32 - 8 ∧ (foldMem (2 ^ 32 - 8) k).load 4 (dctxField 0 (foldMem (2 ^ 32 - 8) k) .gvars + .ofInt 64 136) = k := by
    rcases hk with rfl | rfl <;> decide +kernel
  have hright : dtIntType.extend k = .ofNat 64 k := by rcases hk with rfl | rfl <;> decide
  refine ⟨rfl, rfl, rfl, rfl, foldMem (2 ^ 32 - 8) k, foldMem (2 ^ 32 - 8) k, ?_, ?_⟩
  · rw [foldLeft, Var.eval, show dtIntType.size.bytes = 4 from rfl, hloads.1]
    rfl
  · rw [foldRight, Var.eval, show dtIntType.size.bytes = 4 from rfl, hloads.2, hright]

lemma shiftRight_typed (hk : k = 0 ∨ k = 1) : (shiftRight (BitVec.ofNat 64 k)).Typed :=
  ⟨⟨2 ^ 32 - 8, by decide, by decide⟩, ⟨k, by rcases hk with rfl | rfl <;> decide, by rcases hk with rfl | rfl <;> decide⟩⟩

lemma shiftRight_defined (hk : k = 0 ∨ k = 1) : (shiftRight (BitVec.ofNat 64 k)).Defined := by
  refine ⟨by simp, fun _ => ?_⟩
  rcases hk with rfl | rfl <;> decide

/-- `-8 >> 0`. -/
theorem fold_shift_zero : Invisible idleCallee ⟨0, 0⟩ 0 noneLive (foldMem (2 ^ 32 - 8) 0) foldLeft foldRight (shiftRight 0#64) :=
  (fold_invisible_iff idleCallee_respects noneLive_twoFree (shiftRight_compiles 0) (shiftRight_typed (.inl rfl))
    (shiftRight_defined (.inl rfl)) (shiftRight_held (.inl rfl))).2 fun _ => .inr rfl

/-- `-8 >> 1` is folded to a positive number. -/
theorem fold_shift_one : (shiftRight 1#64).Typed ∧ (shiftRight 1#64).Defined ∧
    (shiftRight 1#64).Held idleCallee ⟨0, 0⟩ 0 (foldMem (2 ^ 32 - 8) 1) foldLeft foldRight ∧
    ¬ Invisible idleCallee ⟨0, 0⟩ 0 noneLive (foldMem (2 ^ 32 - 8) 1) foldLeft foldRight (shiftRight 1#64) := by
  have htyped := shiftRight_typed (.inr rfl)
  have hdef := shiftRight_defined (.inr rfl)
  have hheld := shiftRight_held (.inr rfl)
  refine ⟨htyped, hdef, hheld, fun h => ?_⟩
  have hok := h.ok idleCallee_respects noneLive_twoFree (shiftRight_compiles 1) htyped hdef hheld
  exact absurd (hok rfl) (by decide)

end DTrace.Parser
