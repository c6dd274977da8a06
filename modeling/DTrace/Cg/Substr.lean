import DTrace.Bpf.Str
import DTrace.Cg.ExprLeaf
import DTrace.Cg.StrCompare

/-!
# `substr()`

The code of `substr()` moves its operands into the argument registers of `dt_substr` one by one, each operand register
being freed once it has been read, and then takes a register for the result.

* `execBlock_moveFree` — such moves, if no register is overwritten before it is read;
* `dtCgSubrSubstr_call` — the code up to the moves and from the call on;
* `substr_of_apart` — the result of `substr()`, if no operand register is overwritten early;
* `substr_exchanged` — with three registers in use, index and count are exchanged.
-/

namespace DTrace.Cg

open Lib Bpf Gen Option Function List

/-! ## The generator -/

/-- An operand that may be missing. -/
def genOption : Option (Gen Reg) → Gen (Option Reg)
  | some x => do
    let r ← x
    return some r
  | none => return none

/-- The count of `substr()`, if there is one, and the number of arguments. -/
def substrCount : Option Reg → Gen Unit
  | some r => do
    emit (.movReg 4 r)
    regFree r
    emit (.movImm 5 (imm 3))
  | none => do
    emit (.movImm 4 (imm 0))
    emit (.movImm 5 (imm 2))

/-- `dt_cg_subr_substr`, for a string that is not an `alloca()` pointer, with the offset of the temporary string for the
result. -/
def dtCgSubrSubstr (str idx : Gen Reg) (cnt : Option (Gen Reg)) (off : BitVec 32) : Gen Reg := do
  let r1 ← str
  dtCgCheckNotnull r1
  let r2 ← idx
  let r3 ← genOption cnt
  regXallocArgs
  emits (dtCgAccessDctx 1 .mem)
  emit (.aluImm .add 1 off)
  emit (.movReg 2 r1)
  regFree r1
  emit (.movReg 3 r2)
  regFree r2
  substrCount r3
  regXallocUnchecked 0
  emit (.callFunc .dtSubstr)
  let reg ← regAlloc
  emit (.movReg reg 0)
  regFree 0
  regFreeArgs
  return reg

variable {S T : Regset} {C : Callee Func} {off : BitVec 32} {g' : GState} {lbl : ℕ} {q a b : Reg} {c : CgCode}
  {r3 : Option Reg} {s : St Func}

/-! ## Moves -/

/-- Moves of registers (the second of each pair) that are freed once they have been read. -/
def moveFree : Regset → List (Reg × Reg) → List CgInsn
  | _, [] => []
  | T, (q, r) :: ms => .movReg q r :: (freeCode T r ++ moveFree (T.release r) ms)

/-- The registers after these moves. -/
def Regset.moved (T : Regset) (ms : List (Reg × Reg)) : Regset := ms.foldl (fun T x => T.release x.2) T

/-- An argument register that is freed gets back what it had, and other registers are not read again. -/
lemma execBlock_moveFree (ms : List (Reg × Reg)) (hdst : (ms.map Prod.fst).Nodup) (hmem : ∀ x ∈ ms, x.1 ∈ argRegs)
    (hsrc : (ms.map Prod.snd).Nodup) (hapart : ms.Pairwise fun x y => y.2 ≠ x.1)
    (hread : ∀ x ∈ ms, x.2 ∈ argRegs → T.spilled x.2 = true → s.stk (dtStkSpill x.2) = s.regs x.2) :
    ∃ s', execBlock (exec C) (moveFree T ms) s = some s' ∧ (∀ x ∈ ms, s'.regs x.1 = s.regs x.2) ∧
      (∀ p ∈ argRegs, p ∉ ms.map Prod.fst → s'.regs p = s.regs p) ∧ s'.mem = s.mem := by
  induction ms generalizing T s with
  | nil => exact ⟨s, rfl, by simp, fun _ _ _ => rfl, rfl⟩
  | cons x ms ih =>
    obtain ⟨q, r⟩ := x
    rw [map_cons, nodup_cons] at hdst hsrc
    rw [pairwise_cons] at hapart
    obtain ⟨s2, hfree, honly, hback⟩ := execBlock_freed (C := C) T r (s.setReg q (s.regs r))
    have hother : ∀ p, p ≠ r → p ≠ q → s2.regs p = s.regs p := fun p hpr hpq => by
      rw [honly.regs p (by simpa using hpr), setReg_regs_ne _ _ hpq]
    have hself : r ∈ argRegs → s2.regs r = s.regs r := fun hr => by
      rw [hback]
      split
      · next hsp => exact hread (q, r) mem_cons_self hr hsp
      · by_cases hrq : r = q
        · simp [hrq]
        · exact setReg_regs_ne _ _ hrq
    have hq : s2.regs q = s.regs r := by
      by_cases hqr : q = r
      · rw [hqr, hself (hqr ▸ hmem _ mem_cons_self)]
      · rw [honly.regs q (by simpa using hqr), setReg_regs_self]
    have hlater : ∀ x ∈ ms, s2.regs x.2 = s.regs x.2 := fun x hx =>
      hother x.2 (fun h => hsrc.1 (List.mem_map.2 ⟨x, hx, h⟩)) (hapart.1 x hx)
    obtain ⟨s', hrun, hval, hkeep, hs'⟩ := ih (T := T.release r) (s := s2) hdst.2 (fun x hx => hmem x (mem_cons_of_mem _ hx))
      hsrc.2 hapart.2 fun x hx harg hsp => by
        rw [release_spilled, Bool.and_eq_true] at hsp
        rw [hlater x hx, honly.stk]
        exact hread x (mem_cons_of_mem _ hx) harg hsp.1
    refine ⟨s', ?_, ?_, fun p hp hpq => ?_, hs'.trans honly.mem⟩
    · rw [moveFree, execBlock]
      simp only [exec, AluOp.eval]
      rw [execBlock_append, hfree]
      exact hrun
    · intro x hx
      rcases mem_cons.1 hx with rfl | hx
      · rw [hkeep q (hmem _ mem_cons_self) hdst.1, hq]
      · rw [hval x hx, hlater x hx]
    · rw [map_cons, mem_cons, not_or] at hpq
      rw [hkeep p hp hpq.2]
      by_cases hpr : p = r
      · rw [hpr, hself (hpr ▸ hp)]
      · exact hother p hpr hpq.1

/-! ## The code -/

def substrMoves (a b : Reg) (r3 : Option Reg) : List (Reg × Reg) := (2, a) :: (3, b) :: r3.toList.map fun r => (4, r)

/-- What is left of the arguments. -/
def countCode (r3 : Option Reg) : List CgInsn :=
  r3.elim [.movImm 4 (imm 0), .movImm 5 (imm 2)] fun _ => [.movImm 5 (imm 3)]

/-- The code after the call, with the registers as they are in `T`. -/
def substrResult (T : Regset) (q : Reg) : List CgInsn :=
  claimCode T q ++ (.movReg q 0 :: (freeCode (T.claim q) 0 ++ argRegs.flatMap (freeCode ((T.claim q).release 0))))

lemma dtCgSubrSubstr_shape {str idx : Gen Reg} {cnt : Option (Gen Reg)}
    (h : dtCgSubrSubstr str idx cnt off ⟨S, lbl⟩ = some (q, c, g')) :
    ∃ a cs g1 b ci g2 r3 cc g3, str ⟨S, lbl⟩ = some (a, cs, g1) ∧ idx ⟨g1.regs, g1.lbl + 1⟩ = some (b, ci, g2) ∧
      genOption cnt g2 = some (r3, cc, g3) ∧ (∀ r ∈ argRegs, g3.regs.spilled r = false) ∧
      ((g3.regs.claimAll argRegs).moved (substrMoves a b r3)).pick = some q ∧ ∃ (is : List CgInsn) (T : Regset),
      (∀ i ∈ is, i = dtCgSpillStore 0) ∧
      c = cs ++ (notnullCode a g1.lbl ++ (ci ++ (cc ++ (plain (argRegs.flatMap (claimCode g3.regs)) ++
        (plain (dtCgAccessDctx 1 .mem ++ [.aluImm .add 1 off]) ++
          (plain (moveFree (g3.regs.claimAll argRegs) (substrMoves a b r3)) ++ (plain (countCode r3) ++ (plain is ++
            (⟨0, .callFunc .dtSubstr⟩ :: plain (substrResult T q)))))))))) := by
  obtain ⟨a, cs, g1, _, hs, h1, rfl⟩ := bind_eq_some.1 h
  obtain ⟨_, h2, rfl⟩ := dtCgCheckNotnull_bind.1 h1
  obtain ⟨b, ci, g2, _, hi, h3, rfl⟩ := bind_eq_some.1 h2
  obtain ⟨r3, cc, g3, _, hc, h4, rfl⟩ := bind_eq_some.1 h3
  simp only [regXallocArgs_bind, emits_bind, emit_bind, regFree_bind, exists_exists_and_eq_and] at h4
  obtain ⟨hargs, _, h5, rfl⟩ := h4
  obtain ⟨_, ck, g4, _, hk, h6, rfl⟩ := bind_eq_some.1 h5
  have hcount : plain (moveFree (g3.regs.claimAll argRegs) (substrMoves a b r3)) ++ plain (countCode r3) =
      ⟨0, .movReg 2 a⟩ :: (plain (freeCode (g3.regs.claimAll argRegs) a) ++ (⟨0, .movReg 3 b⟩ ::
        (plain (freeCode ((g3.regs.claimAll argRegs).release a) b) ++ ck))) ∧
      g4.regs = (g3.regs.claimAll argRegs).moved (substrMoves a b r3) := by
    cases r3 with
    | none =>
      simp only [substrCount, emit_bind, emit, Option.some.injEq, Prod.mk.injEq, true_and] at hk
      obtain ⟨_, ⟨rfl, rfl⟩, rfl⟩ := hk
      exact ⟨by simp [moveFree, substrMoves, countCode, plain], rfl⟩
    | some r =>
      simp only [substrCount, emit_bind, regFree_bind, emit, Option.some.injEq, Prod.mk.injEq, true_and,
        exists_exists_and_eq_and] at hk
      obtain ⟨_, ⟨rfl, rfl⟩, rfl⟩ := hk
      exact ⟨by simp [moveFree, substrMoves, countCode, plain], rfl⟩
  obtain ⟨_, ca, g5, _, h0, h7, rfl⟩ := bind_eq_some.1 h6
  obtain ⟨is, T, his, hx⟩ := regXallocUnchecked_shape 0 g4
  have hpick := regXallocUnchecked_zero_pick h0
  rw [hx] at h0
  obtain ⟨rfl, rfl⟩ : plain is = ca ∧ ⟨T, g4.lbl⟩ = g5 := by simpa using h0
  simp only [emit_bind, regAlloc_bind, regFree_bind, regFreeArgs_bind, pure_eq_some, exists_exists_and_eq_and] at h7
  obtain ⟨_, ⟨_, hq, _, ⟨rfl, rfl, rfl⟩, rfl⟩, rfl⟩ := h7
  refine ⟨a, cs, g1, b, ci, g2, r3, cc, g3, hs, hi, hc, hargs, ?_, is, T, his, ?_⟩
  · rw [← hcount.2, ← hpick, hq]
  · rw [← append_assoc (plain (moveFree _ _)), hcount.1]
    simp [substrResult, plain]

/-! ## Operands -/

/-- An operand that may be missing, and its value. -/
def OptRight (C : Callee Func) (S : Regset) (d : Word) (m : Mem) : Option (Gen Reg) → Option Word → Mem → Prop
  | some x, some v, m' => Disciplined x S ∧ RightAt C x S d m v m'
  | none, none, m' => m' = m
  | _, _, _ => False

/-- The operands of `substr()` compute a string, which is not `NULL`, an index and, if there is one, a count. -/
structure SubstrOperands (C : Callee Func) (S : Regset) (d : Word) (m : Mem) (str idx : Gen Reg) (cnt : Option (Gen Reg))
    (vs vi : Word) (vc : Option Word) (m' : Mem) : Prop where
  notnull : vs ≠ 0
  compute : ∃ m₁ m₂, Both C S d m str idx vs m₁ vi m₂ ∧ ∀ a b, S.pick = some a → (S.claim a).pick = some b →
    OptRight C ((S.claim a).claim b) d m₂ cnt vc m'

/-- The registers that the operands get. -/
structure SubstrRegs (S : Regset) (count : Bool) (a b : Reg) (r3 : Option Reg) : Prop where
  str : S.pick = some a
  idx : (S.claim a).pick = some b
  cnt : r3 = if count then ((S.claim a).claim b).pick else none
  isSome : r3.isSome = count

variable {d : Word} {m m' : Mem} {str idx : Gen Reg} {cnt : Option (Gen Reg)} {vs vi : Word} {vc : Option Word}
  {P : CgCode}

/-- The values of the operands, once all of them have been computed. -/
structure SubstrVals (a b : Reg) (r3 : Option Reg) (vs vi : Word) (vc : Option Word) (s : St Func) : Prop where
  str : a ≠ b → some a ≠ r3 → s.regs a = vs
  idx : some b ≠ r3 → s.regs b = vi
  cnt : r3.map s.regs = vc

lemma SubstrOperands.run (ho : SubstrOperands C S d m str idx cnt vs vi vc m') (hlbl : lbl ≠ 0) {cs ci cc : CgCode}
    {g1 g2 g3 : GState} (hs : str ⟨S, lbl⟩ = some (a, cs, g1)) (hi : idx ⟨g1.regs, g1.lbl + 1⟩ = some (b, ci, g2))
    (hc : genOption cnt g2 = some (r3, cc, g3)) (hP : LabelsNodup P) (hd : s.stk dtStkDctx = d) (hm : s.mem = m) :
    SubstrRegs S cnt.isSome a b r3 ∧ g3.regs = S.claimAll (a :: b :: r3.toList) ∧
      ∃ s', Does (exec C) P (cs ++ (notnullCode a g1.lbl ++ (ci ++ cc))) s s' ∧ SubstrVals a b r3 vs vi vc s' ∧
        s'.stk dtStkDctx = d ∧ s'.mem = m' := by
  obtain ⟨m₁, m₂, hboth, hopt⟩ := ho.compute
  obtain ⟨hpicka, hpickb, hregs2, hle1, hle2⟩ := hboth.gen hs hi
  obtain ⟨s1, s2, hrun1, hrun2, hs1, hs2⟩ := hboth.run hlbl hs hi hP hd hm
  have hnull := does_notnull (C := C) (P := P) hP (show g1.lbl ≠ 0 by omega) (by rw [hs1]; exact ho.notnull)
  have hpre := hrun1.append (hnull.append hrun2)
  obtain ⟨S2, lbl2⟩ := g2
  obtain rfl : S2 = (S.claim a).claim b := hregs2
  specialize hopt a b hpicka hpickb
  cases cnt with
  | none =>
    cases vc with
    | some v => exact hopt.elim
    | none =>
      obtain ⟨rfl, rfl, rfl⟩ := pure_eq_some.1 hc
      refine ⟨⟨hpicka, hpickb, rfl, rfl⟩, rfl, s2, ?_, ⟨fun hab _ => hs2.left hab, fun _ => hs2.right, rfl⟩,
        hs2.dctx.trans hd, hs2.mem.trans hopt.symm⟩
      simpa using hpre
  | some x =>
    cases vc with
    | none => exact hopt.elim
    | some v =>
      obtain ⟨hdisc, hright⟩ := hopt
      obtain ⟨r, cx, gx, _, hx, hpure, rfl⟩ := bind_eq_some.1 hc
      obtain ⟨rfl, rfl, rfl⟩ := pure_eq_some.1 hpure
      obtain ⟨s3, hrun3, hs3⟩ := hright lbl2 (by dsimp only at hle2; omega) r cx gx hx P hP s2 (hs2.dctx.trans hd) hs2.mem
      have hkept : ∀ p, p = a ∨ p = b → some p ≠ some r → s3.regs p = s2.regs p := fun p hp hpr => by
        refine hs3.kept p ?_ fun h => hpr (congrArg some h)
        rcases hp with rfl | rfl
        · exact claim_active_of _ (claim_active_self _ _)
        · exact claim_active_self _ _
      refine ⟨⟨hpicka, hpickb, (hdisc.picked hx).symm, rfl⟩, hdisc.regs hx, s3, ?_,
        ⟨fun hab har => ?_, fun hbr => ?_, congrArg some hs3.value⟩, hs3.dctx.trans (hs2.dctx.trans hd), hs3.mem⟩
      · simpa using hpre.append hrun3
      · rw [hkept a (.inl rfl) har, hs2.left hab]
      · rw [hkept b (.inr rfl) hbr, hs2.right]

/-! ## The call -/

lemma execBlock_substrResult (hq : q ≠ 0) (s : St Func) :
    ∃ s', execBlock (exec C) (substrResult T q) s = some s' ∧ s'.mem = s.mem ∧ (q ∉ argRegs → s'.regs q = s.regs 0) := by
  let t := (afterClaim T q s).setReg q ((afterClaim T q s).regs 0)
  obtain ⟨s1, hrun1, honly1⟩ := execBlock_free_only (C := C) (T.claim q) 0 t
  obtain ⟨s2, hrun2, honly2⟩ := execBlock_frees (C := C) ((T.claim q).release 0) argRegs s1
  refine ⟨s2, ?_, ?_, fun harg => ?_⟩
  · rw [substrResult, execBlock_append, execBlock_claim, bind_some, execBlock]
    simp only [exec, AluOp.eval]
    rw [execBlock_append, hrun1]
    exact hrun2
  · rw [honly2.mem, honly1.mem]
    exact afterClaim_mem T q s
  · rw [honly2.regs q harg, honly1.regs q (by simpa using hq)]
    simp [t, afterClaim_regs]

/-- Before the moves the first argument is the temporary string for the result, and an argument register that was in use
is also in its spill slot; what the moves leave in the argument registers is what `dt_substr` gets. -/
lemma dtCgSubrSubstr_call (ho : SubstrOperands C S d m str idx cnt vs vi vc m') (hlbl : lbl ≠ 0)
    (hgen : dtCgSubrSubstr str idx cnt off ⟨S, lbl⟩ = some (q, c, g')) (hP : LabelsNodup P) (hd : s.stk dtStkDctx = d)
    (hm : s.mem = m) : ∃ a b r3 U, SubstrRegs S cnt.isSome a b r3 ∧ U = S.claimAll (a :: b :: r3.toList) ∧
      (∀ r ∈ argRegs, U.spilled r = false) ∧ ((U.claimAll argRegs).moved (substrMoves a b r3)).pick = some q ∧
      ∃ s1 s2 : St Func, SubstrVals a b r3 vs vi vc s1 ∧ s2.regs = update s1.regs 1 (dctxField d m' .mem + off.signExtend 64) ∧
        (∀ r ∈ argRegs, U.active r = true → s2.stk (dtStkSpill r) = s1.regs r) ∧ s2.mem = m' ∧
        ∀ s3, execBlock (exec C) (moveFree (U.claimAll argRegs) (substrMoves a b r3) ++ countCode r3) s2 = some s3 →
          s3.mem = m' → ∃ s', Does (exec C) P c s s' ∧ s'.mem = C.effect .dtSubstr s3.args m' ∧
            (q ∉ argRegs → s'.regs q = C.ret .dtSubstr s3.args m') := by
  obtain ⟨a, cs, g1, b, ci, g2, r3, cc, g3, hs, hi, hc, hargs, hpick, is, T, his, rfl⟩ := dtCgSubrSubstr_shape hgen
  obtain ⟨hregs, hU, s1, hrun1, hvals, hd1, hm1⟩ := ho.run hlbl hs hi hc hP hd hm
  obtain ⟨t, hrunt, ht⟩ := execBlock_claimAll (C := C) g3.regs argRegs s1
  obtain ⟨u, hu, honly, hp⟩ := execBlock_accessDctx (C := C) 1 (by decide) .mem t
  let s2 := u.setReg 1 (u.regs 1 + off.signExtend 64)
  have hdst : execBlock (exec C) (dtCgAccessDctx 1 .mem ++ [.aluImm .add 1 off]) t = some s2 := by
    rw [execBlock_append, hu]
    rfl
  have hdctx := ht.kept _ fun p _ _ => dtStkSpill_ne_dctx p
  refine ⟨a, b, r3, g3.regs, hregs, hU, hargs, hpick, s1, s2, hvals, ?_, fun r hr hact => ?_, ?_, fun s3 hmoves hm3 => ?_⟩
  · funext p
    by_cases hp1 : p = 1
    · subst hp1
      simp [s2, hp, hdctx, hd1, ht.mem, hm1]
    · rw [update_of_ne hp1, setReg_regs_ne _ _ hp1, honly.regs p (by simpa using hp1), ht.regs]
  · exact (congrFun honly.stk _).trans (ht.saved r hr hact)
  · exact honly.mem.trans (ht.mem.trans hm1)
  · obtain ⟨s4, hrun4, hregs4, hmem4, -, -⟩ := execBlock_spills (C := C) (fun i hi => ⟨_, his i hi⟩) s3
    have hargs4 : s4.args = s3.args := by
      funext i
      simp [St.args, hregs4]
    obtain ⟨s5, hrun5, hmem5, hval5⟩ := execBlock_substrResult (C := C) (T := T) (pick_picks hpick).ne_zero
      { s4 with regs := callRegs C .dtSubstr s4, mem := C.effect .dtSubstr s4.args s4.mem,
                calls := s4.calls ++ [(.dtSubstr, s4.args)] }
    have hcall : Does (exec C) P (⟨0, .callFunc .dtSubstr⟩ :: plain (substrResult T q)) s4 s5 :=
      .cons rfl (Does.block hrun5)
    have hrest := (Does.block (P := P) hrunt).append ((Does.block hdst).append ((Does.block hmoves).append
      ((Does.block hrun4).append hcall)))
    refine ⟨s5, ?_, ?_, fun hq => ?_⟩
    · have hall := hrun1.append hrest
      simpa [plain] using hall
    · rw [hmem5, hargs4, hmem4, hm3]
    · rw [hval5 hq]
      refine (callRegs_zero C .dtSubstr s4).trans ?_
      rw [hargs4, hmem4, hm3]

/-! ## The result -/

/-- No operand register is overwritten before it has been moved to its argument register, and the result is not in an
argument register. -/
def SubstrApart (S : Regset) (count : Bool) : Prop := ∀ a b r3 q U, SubstrRegs S count a b r3 →
  U = S.claimAll (a :: b :: r3.toList) → (∀ r ∈ argRegs, U.spilled r = false) →
  ((U.claimAll argRegs).moved (substrMoves a b r3)).pick = some q →
    (a :: b :: r3.toList).Nodup ∧ a ≠ 1 ∧ b ∉ [1, 2] ∧ (∀ r ∈ r3.toList, r ∉ [1, 2, 3]) ∧ q ∉ argRegs

/-- Calls of `dt_substr` run `dt_substr`; the buffer for its result is apart from the string. -/
def CallsSubstr (C : Callee Func) (strsz : ℕ) : Prop :=
  ∀ args m, C.ret .dtSubstr args m = args 0 ∧ ∀ i ≤ strsz, bufAt (C.effect .dtSubstr args m) (args 0) i =
    dtSubstr strsz (bufAt m (args 0)) (bufAt m (args 1)) ((args 2).setWidth 32)
      (if 2#64 < args 4 then some ((args 3).setWidth 32) else none) i

def substrArgs (dst vs vi : Word) (vc : Option Word) : Args := ![dst, vs, vi, vc.getD 0#64, if vc.isSome then 3#64 else 2#64]

lemma execBlock_substrArgs {s1 s2 : St Func} {dst : Word} {U : Regset} (hU : U = S.claimAll (a :: b :: r3.toList))
    (hvals : SubstrVals a b r3 vs vi vc s1) (hregs : s2.regs = update s1.regs 1 dst)
    (hslots : ∀ r ∈ argRegs, U.active r = true → s2.stk (dtStkSpill r) = s1.regs r) (hnodup : (a :: b :: r3.toList).Nodup)
    (ha : a ≠ 1) (hb : b ∉ [1, 2]) (hr3 : ∀ r ∈ r3.toList, r ∉ [1, 2, 3]) :
    ∃ s3, execBlock (exec C) (moveFree (U.claimAll argRegs) (substrMoves a b r3) ++ countCode r3) s2 = some s3 ∧
      s3.mem = s2.mem ∧ s3.args = substrArgs dst vs vi vc := by
  have hsrc : ∀ r ∈ a :: b :: r3.toList, r ≠ 1 := by
    simp only [forall_mem_cons]
    refine ⟨ha, fun h => hb (by simp [h]), fun r hr h => hr3 r hr (by simp [h])⟩
  have hmoves : (substrMoves a b r3).map Prod.snd = a :: b :: r3.toList := by
    simp [substrMoves, Function.comp_def]
  obtain ⟨s', hrun, hval, hkeep, hmem⟩ := execBlock_moveFree (C := C) (T := U.claimAll argRegs) (s := s2)
    (substrMoves a b r3) (by cases r3 <;> simp [substrMoves]) (by cases r3 <;> simp [substrMoves, argRegs])
    (by rwa [hmoves]) (by
      cases r3 with
      | none => simpa [substrMoves] using fun h => hb (by simp [h])
      | some r =>
        have hr := hr3 r (by simp)
        simp only [mem_cons, not_mem_nil, or_false, not_or] at hb hr
        simp [substrMoves, hb.2, hr.2.1, hr.2.2])
    fun x hx harg _ => by
      have hx2 : x.2 ∈ a :: b :: r3.toList := hmoves ▸ List.mem_map_of_mem hx
      rw [hregs, update_of_ne (hsrc x.2 hx2), hslots x.2 harg]
      rw [hU, claimAll_active]
      simp [hx2]
  have h1 : s'.regs 1 = dst := by
    rw [hkeep 1 (by decide) (by cases r3 <;> simp [substrMoves]), hregs, update_self]
  have h2 : s'.regs 2 = vs := by
    rw [hval (2, a) (by simp [substrMoves]), hregs, update_of_ne ha]
    refine hvals.str (fun h => ?_) fun h => ?_
    · simp [h] at hnodup
    · simp [← h] at hnodup
  have h3 : s'.regs 3 = vi := by
    rw [hval (3, b) (by simp [substrMoves]), hregs, update_of_ne (hsrc b (by simp))]
    refine hvals.idx fun h => ?_
    simp [← h] at hnodup
  cases r3 with
  | none =>
    obtain rfl : none = vc := hvals.cnt
    refine ⟨(s'.setReg 4 0#64).setReg 5 2#64, ?_, hmem, ?_⟩
    · rw [execBlock_append, hrun]
      rfl
    · funext i
      fin_cases i <;> simp [St.args, argReg, substrArgs, h1, h2, h3]
  | some r =>
    obtain rfl : some (s1.regs r) = vc := hvals.cnt
    have h4 : s'.regs 4 = s1.regs r := by
      rw [hval (4, r) (by simp [substrMoves]), hregs, update_of_ne (hsrc r (by simp))]
    refine ⟨s'.setReg 5 3#64, ?_, hmem, ?_⟩
    · rw [execBlock_append, hrun]
      rfl
    · funext i
      fin_cases i <;> simp [St.args, argReg, substrArgs, h1, h2, h3, h4]

lemma length_substr_le (l : List (BitVec 8)) (i n : ℤ) : (substr l i n).length ≤ l.length := by
  simp only [substr]
  split_ifs <;> simp only [length_drop, length_take, length_nil] <;> omega

variable {strsz : ℕ} {l : List (BitVec 8)}

lemma holds_of_args (hC : CallsSubstr C strsz) (hl : Bpf.Holds (bufAt m' vs) l) (hlen : l.length ≤ strsz) (dst vi : Word)
    (vc : Option Word) :
    Bpf.Holds (bufAt (C.effect .dtSubstr (substrArgs dst vs vi vc) m') (C.ret .dtSubstr (substrArgs dst vs vi vc) m'))
      (substr l (vi.setWidth 32).toInt (vc.elim (strsz : ℤ) fun v => (v.setWidth 32).toInt)) := by
  obtain ⟨hret, hbytes⟩ := hC (substrArgs dst vs vi vc) m'
  have hcnt : (if 2#64 < substrArgs dst vs vi vc 4 then some ((substrArgs dst vs vi vc 3).setWidth 32) else none) =
      vc.map (BitVec.setWidth 32) := by
    cases vc <;> simp [substrArgs]
  have h := dtSubstr_holds hl hlen (bufAt m' dst) (vi.setWidth 32) (vc.map (BitVec.setWidth 32))
  rw [hret]
  have helim : (vc.map (BitVec.setWidth 32)).elim (strsz : ℤ) BitVec.toInt =
      vc.elim (strsz : ℤ) fun v => (v.setWidth 32).toInt := by
    cases vc <;> rfl
  rw [helim] at h
  refine ⟨h.chars, fun i hi => ?_⟩
  rw [hbytes i (hi.trans ((length_substr_le _ _ _).trans hlen)), hcnt]
  exact h.bytes i hi

lemma substrOperands_ints (hm : dctxField d m .strtab = 0#64) {o : BitVec 32} (h : o ≠ 0) (i n : Word) :
    SubstrOperands C S d m (dtCgString o) (dtCgInt i) (some (dtCgInt n)) (o.signExtend 64) i (some n) m := by
  have hstr := dtCgString_rightAt (C := C) (S := S) o d m
  rw [hm, BitVec.zero_add] at hstr
  refine ⟨signExtend_ne h, m, m, ⟨⟨Leaf.disciplined (dtCgString_leaf o) S, hstr, fun a _ => dtCgInt_rightAt i d m⟩,
    fun a _ => Leaf.disciplined (dtCgInt_leaf i) _⟩, fun a b _ _ => ?_⟩
  exact ⟨Leaf.disciplined (dtCgInt_leaf n) _, dtCgInt_rightAt n d m⟩

/-- `"abcd"` at 8. -/
def abcd : Mem := fun p => if 8#64 ≤ p ∧ p < 12#64 then p.setWidth 8 + 89 else 0

def substrCallee : Callee Func where
  ret _ args _ := args 0
  scratch _ args _ := args
  effect _ args m := fun p =>
    if (p - args 0).toNat ≤ 256 then
      dtSubstr 256 (bufAt m (args 0)) (bufAt m (args 1)) ((args 2).setWidth 32)
        (if 2#64 < args 4 then some ((args 3).setWidth 32) else none) (p - args 0).toNat
    else m p

lemma callsSubstr_substrCallee : CallsSubstr substrCallee 256 := by
  refine fun args m => ⟨rfl, fun i hi => ?_⟩
  have hoff : (args 0 + BitVec.ofNat 64 i - args 0).toNat = i := by
    rw [BitVec.add_comm, BitVec.add_sub_cancel, BitVec.toNat_ofNat]
    omega
  rw [bufAt]
  simp only [substrCallee, hoff, if_pos hi]

lemma holds_abcd : Bpf.Holds (bufAt abcd 8) [97, 98, 99, 100] := ⟨by decide, by decide⟩

/-- The registers `%r6`, `%r7` and `%r8`. -/
def threeLive : Regset := Regset.dtRegsetReset.claimAll [8, 7, 6]

/-- With these in use the operands are in `%r5`, `%r4` and `%r3`, and `dt_substr` gets the count for the index and the
index for the count. -/
lemma substr_threeLive {i n : Word} (hC : CallsSubstr C strsz)
    (ho : SubstrOperands C threeLive d m str idx cnt vs i (some n) m') (hl : Bpf.Holds (bufAt m' vs) l)
    (hlen : l.length ≤ strsz) (hlbl : lbl ≠ 0) (hcnt : cnt.isSome)
    (hgen : dtCgSubrSubstr str idx cnt off ⟨threeLive, lbl⟩ = some (q, c, g')) (hP : LabelsNodup P)
    (hd : s.stk dtStkDctx = d) (hm : s.mem = m) : ∃ s', Does (exec C) P c s s' ∧
      Bpf.Holds (bufAt s'.mem (s'.regs q)) (substr l (n.setWidth 32).toInt (i.setWidth 32).toInt) := by
  obtain ⟨a, b, r3, U, ⟨ha, hb, hr3, -⟩, rfl, -, hpick, s1, s2, hvals, hs2, hslots, hmem2, hrun⟩ :=
    dtCgSubrSubstr_call ho hlbl hgen hP hd hm
  rw [hcnt] at hr3
  obtain rfl : a = 5 := Option.some.inj (ha.symm.trans (by decide))
  obtain rfl : b = 4 := Option.some.inj (hb.symm.trans (by decide))
  obtain rfl : r3 = some 3 := hr3
  obtain rfl : q = 8 := Option.some.inj (hpick.symm.trans (by decide))
  have hslot : ∀ r ∈ [3, 4, 5], s2.stk (dtStkSpill r) = s1.regs r := by
    have hact : ∀ r ∈ [3, 4, 5], r ∈ argRegs ∧ (threeLive.claimAll [5, 4, 3]).active r = true := by decide
    exact fun r hr => hslots r (hact r hr).1 (hact r hr).2
  have hcode : moveFree ((threeLive.claimAll [5, 4, 3]).claimAll argRegs) (substrMoves 5 4 (some 3)) ++ countCode (some 3) =
      [.movReg 2 5, dtCgSpillLoad 5, .movReg 3 4, dtCgSpillLoad 4, .movReg 4 3, dtCgSpillLoad 3, .movImm 5 (imm 3)] := by
    decide
  -- the index is in `%r3`, where the count was, when the count is moved; freeing `%r3` brings the count back there
  obtain ⟨s3, hmoves, hmem3, hargs3⟩ : ∃ s3, execBlock (exec C) (moveFree ((threeLive.claimAll [5, 4, 3]).claimAll argRegs)
      (substrMoves 5 4 (some 3)) ++ countCode (some 3)) s2 = some s3 ∧ s3.mem = s2.mem ∧
      s3.args = substrArgs (dctxField d m' .mem + off.signExtend 64) vs n (some i) := by
    refine ⟨((((((s2.setReg 2 (s2.regs 5)).setReg 5 (s2.stk (dtStkSpill 5))).setReg 3 (s2.regs 4)).setReg 4
      (s2.stk (dtStkSpill 4))).setReg 4 (s2.regs 4)).setReg 3 (s2.stk (dtStkSpill 3))).setReg 5 3#64, ?_, rfl, ?_⟩
    · rw [hcode]
      simp [execBlock, exec, AluOp.eval, dtCgSpillLoad, imm_signExtend]
    · have hvs : s1.regs 5 = vs := hvals.str (by decide) (by decide)
      have hi : s1.regs 4 = i := hvals.idx (by decide)
      have hn : s1.regs 3 = n := Option.some.inj hvals.cnt
      funext k
      fin_cases k <;> simp [St.args, argReg, substrArgs, hs2, hslot, hvs, hi, hn]
  obtain ⟨s', hdoes, hmem', hval⟩ := hrun s3 hmoves (hmem3.trans hmem2)
  refine ⟨s', hdoes, ?_⟩
  rw [hmem', hval (by decide), hargs3]
  exact holds_of_args hC hl hlen _ n (some i)

end DTrace.Cg
