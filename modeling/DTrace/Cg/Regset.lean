import DTrace.Bpf.Machine

/-!
# The register set of the code generator

`dt_regset.c`: which of `%r0 … %r8` are in use and which of those have an outer value saved in their spill slot, and the
spill code that allocating and freeing emits.

* `dtRegsetAlloc_pick` — allocation picks a register and claims it: a register in use is saved first;
* `execBlock_claim`, `execBlock_release` — what the emitted spill code does.
-/

namespace DTrace.Cg

open Lib Bpf List Function

def dtStkDctx : ℤ := -8

def dtStkSp : ℤ := dtStkDctx - 8

def dtStkSpillBase : ℤ := dtStkSp - 8

/-- `DT_STK_SPILL(reg)`. -/
def dtStkSpill (reg : Reg) : ℤ := dtStkSpillBase - (reg.val : ℤ) * 8

/-- `dt_regset_t`: a register that is spilled is also active. -/
@[ext]
structure Regset where
  active : Reg → Bool
  spilled : Reg → Bool
  spilled_active : ∀ r, spilled r = true → active r = true

namespace Regset

def dtRegsetReset : Regset := ⟨fun _ => false, fun _ => false, fun _ h => h⟩

def setActive (S : Regset) (r : Reg) : Regset where
  active := update S.active r true
  spilled := S.spilled
  spilled_active q h := by
    by_cases hq : q = r
    · simp [hq]
    · simpa [hq] using S.spilled_active q h

/-- A register is marked spilled only when it is active already. -/
def setSpilled (S : Regset) (r : Reg) : Regset where
  active := update S.active r true
  spilled := update S.spilled r true
  spilled_active q h := by
    by_cases hq : q = r
    · simp [hq]
    · simpa [hq] using S.spilled_active q (by simpa [hq] using h)

def clearSpilled (S : Regset) (r : Reg) : Regset where
  active := S.active
  spilled := update S.spilled r false
  spilled_active q h := by
    by_cases hq : q = r
    · simp [hq] at h
    · exact S.spilled_active q (by simpa [hq] using h)

/-- A register is made inactive only when it is not spilled. -/
def clearActive (S : Regset) (r : Reg) : Regset where
  active := update S.active r false
  spilled := update S.spilled r false
  spilled_active q h := by
    by_cases hq : q = r
    · simp [hq] at h
    · simpa [hq] using S.spilled_active q (by simpa [hq] using h)

end Regset

variable {q r : Reg} {φ : Type}

section

def dtCgSpillStore (reg : Reg) : Insn φ := .store .dw fp (dtStkSpill reg) reg

def dtCgSpillLoad (reg : Reg) : Insn φ := .load .dw reg fp (dtStkSpill reg)

/-- The registers allocation may hand out, `dr_size - 1` down to 1. -/
def allocOrder : List Reg := [8, 7, 6, 5, 4, 3, 2, 1]

/-- `dt_regset_alloc`: the register, the code emitted and the new set. -/
def dtRegsetAlloc (S : Regset) : Option (Reg × List (Insn φ) × Regset) :=
  match allocOrder.find? fun r => !S.active r with
  | some r => some (r, [], S.setActive r)
  | none =>
    match allocOrder.find? fun r => !S.spilled r with
    | some r => some (r, [dtCgSpillStore r], S.setSpilled r)
    | none => none

def dtRegsetXalloc (S : Regset) (reg : Reg) : Option (List (Insn φ) × Regset) :=
  if S.active reg then
    if S.spilled reg then none else some ([dtCgSpillStore reg], S.setSpilled reg)
  else some ([], S.setActive reg)

def dtRegsetFree (S : Regset) (reg : Reg) : List (Insn φ) × Regset :=
  if S.spilled reg then ([dtCgSpillLoad reg], S.clearSpilled reg) else ([], S.clearActive reg)

def xallocAll : List Reg → Regset → Option (List (Insn φ) × Regset)
  | [], S => some ([], S)
  | r :: rs, S =>
    match dtRegsetXalloc S r with
    | none => none
    | some (c, S₁) =>
      match xallocAll rs S₁ with
      | none => none
      | some (c', S₂) => some (c ++ c', S₂)

def freeAll : List Reg → Regset → List (Insn φ) × Regset
  | [], S => ([], S)
  | r :: rs, S =>
    let (c, S₁) := dtRegsetFree S r
    let (c', S₂) := freeAll rs S₁
    (c ++ c', S₂)

/-- The argument registers `%r1 … %r5`. -/
def argRegs : List Reg := [1, 2, 3, 4, 5]

/-- `dt_regset_xalloc_args`.  On failure the compilation ends, so what was emitted before does not matter. -/
def dtRegsetXallocArgs (S : Regset) : Option (List (Insn φ) × Regset) := xallocAll argRegs S

def dtRegsetFreeArgs (S : Regset) : List (Insn φ) × Regset := freeAll argRegs S

/-! ## Claiming a register

Whichever register is asked for, what happens to it is the same: if it is in use its value is saved, and it is marked. -/

def Regset.claim (S : Regset) (r : Reg) : Regset := if S.active r then S.setSpilled r else S.setActive r

def claimCode (S : Regset) (r : Reg) : List (Insn φ) := if S.active r then [dtCgSpillStore r] else []

def releaseCode (S : Regset) (r : Reg) : List (Insn φ) := if S.active r then [dtCgSpillLoad r] else []

/-- Allocation hands out `r`: it is free, or everything is in use and it has not been spilled. -/
structure Picks (S : Regset) (r : Reg) : Prop where
  mem : r ∈ allocOrder
  unspilled : S.spilled r = false
  full : S.active r = true → ∀ q ∈ allocOrder, S.active q = true

variable {S : Regset} {c : List (Insn φ)} {rs : List Reg}

lemma claim_active (S : Regset) (r q : Reg) : (S.claim r).active q = (S.active q || decide (q = r)) := by
  unfold Regset.claim
  split <;> by_cases hq : q = r <;> simp [Regset.setSpilled, Regset.setActive, hq]

lemma claim_spilled (S : Regset) (r q : Reg) :
    (S.claim r).spilled q = (S.spilled q || (decide (q = r) && S.active q)) := by
  unfold Regset.claim
  by_cases hq : q = r
  · cases ha : S.active r <;> simp [Regset.setSpilled, Regset.setActive, hq, ha]
  · split <;> simp [Regset.setSpilled, Regset.setActive, hq]

@[simp] lemma claim_active_self (S : Regset) (r : Reg) : (S.claim r).active r = true := by
  simp [claim_active]

lemma claim_active_ne (S : Regset) (h : q ≠ r) : (S.claim r).active q = S.active q := by
  simp [claim_active, h]

lemma claim_active_of (S : Regset) (h : S.active q = true) : (S.claim r).active q = true := by
  simp [claim_active, h]

lemma claim_spilled_ne (S : Regset) (h : q ≠ r) : (S.claim r).spilled q = S.spilled q := by
  simp [claim_spilled, h]

lemma claim_spilled_self (S : Regset) (h : S.spilled r = false) : (S.claim r).spilled r = S.active r := by
  simp [claim_spilled, h]

lemma claim_spilled_of (S : Regset) (h : S.spilled q = true) : (S.claim r).spilled q = true := by
  simp [claim_spilled, h]

lemma claim_comm (S : Regset) (h : r ≠ q) : (S.claim r).claim q = (S.claim q).claim r := by
  refine Regset.ext (funext fun x => ?_) (funext fun x => ?_)
  · simp only [claim_active]
    cases S.active x <;> simp [Bool.or_comm]
  · simp only [claim_spilled, claim_active]
    by_cases hxr : x = r
    · simp [hxr, h]
    · simp [hxr]

lemma Regset.unspilled_of_free (h : S.active r = false) : S.spilled r = false := by
  cases hs : S.spilled r with
  | false => rfl
  | true => rw [S.spilled_active r hs] at h; cases h

lemma dtRegsetXalloc_eq {S' : Regset} :
    dtRegsetXalloc S r = some (c, S') ↔ S.spilled r = false ∧ c = claimCode S r ∧ S' = S.claim r := by
  unfold dtRegsetXalloc claimCode Regset.claim
  cases ha : S.active r with
  | true => cases hs : S.spilled r <;> simp [eq_comm]
  | false => simp [Regset.unspilled_of_free ha, eq_comm]

/-! ## Which register is handed out -/

def Regset.pick (S : Regset) : Option Reg :=
  (allocOrder.find? fun r => !S.active r).or (allocOrder.find? fun r => !S.spilled r)

lemma dtRegsetAlloc_pick (S : Regset) :
    (dtRegsetAlloc S : Option (Reg × List (Insn φ) × Regset)) = S.pick.map fun r => (r, claimCode S r, S.claim r) := by
  unfold dtRegsetAlloc Regset.pick
  cases hfree : allocOrder.find? fun r => !S.active r with
  | some r =>
    have hr : S.active r = false := by simpa using find?_some hfree
    simp [claimCode, Regset.claim, hr]
  | none =>
    cases hsp : allocOrder.find? fun r => !S.spilled r with
    | none => simp
    | some r =>
      have hr : S.active r = true := by
        simpa using find?_eq_none.1 hfree r (mem_of_find?_eq_some hsp)
      simp [claimCode, Regset.claim, hr]

lemma pick_picks (h : S.pick = some r) : Picks S r := by
  rcases Option.or_eq_some_iff.1 h with hfree | ⟨hnone, hsp⟩
  · have hr : S.active r = false := by simpa using find?_some hfree
    exact ⟨mem_of_find?_eq_some hfree, Regset.unspilled_of_free hr, fun ha => by rw [hr] at ha; cases ha⟩
  · have hfull : ∀ q ∈ allocOrder, S.active q = true := fun q hq => by simpa using find?_eq_none.1 hnone q hq
    exact ⟨mem_of_find?_eq_some hsp, by simpa using find?_some hsp, fun _ => hfull⟩

lemma Picks.ne_zero (h : Picks S r) : r ≠ 0 := by
  have hr := h.mem
  rintro rfl
  revert hr
  decide

lemma mem_allocOrder_le_eight : ∀ r ∈ allocOrder, r.val ≤ 8 := by decide

lemma Picks.le_eight (h : Picks S r) : r.val ≤ 8 := mem_allocOrder_le_eight r h.mem

lemma Picks.ne_fp (h : Picks S r) : r ≠ fp := by
  have hr := h.le_eight
  rintro rfl
  exact absurd hr (by decide)

lemma pick_congr {T : Regset} (hact : ∀ r ≠ 0, T.active r = S.active r) (hsp : ∀ r ≠ 0, T.spilled r = S.spilled r) :
    T.pick = S.pick := by
  simp [Regset.pick, allocOrder, find?_cons, hact, hsp]

lemma pick_claim_zero (S : Regset) : (S.claim 0).pick = S.pick :=
  pick_congr (fun _ => claim_active_ne S) fun _ => claim_spilled_ne S

/-! ## Claiming and releasing several registers -/

def Regset.claimAll (S : Regset) (rs : List Reg) : Regset := rs.foldl Regset.claim S

lemma claimAll_active (S : Regset) (rs : List Reg) (q : Reg) :
    (S.claimAll rs).active q = (S.active q || decide (q ∈ rs)) := by
  induction rs generalizing S with
  | nil => simp [Regset.claimAll]
  | cons r rs ih =>
    rw [Regset.claimAll, foldl_cons, ← Regset.claimAll, ih]
    by_cases hq : q = r
    · simp [hq]
    · simp [claim_active_ne S hq, hq]

lemma claimAll_spilled (hnd : rs.Nodup) (S : Regset) (q : Reg) :
    (S.claimAll rs).spilled q = (S.spilled q || (decide (q ∈ rs) && S.active q)) := by
  induction rs generalizing S with
  | nil => simp [Regset.claimAll]
  | cons r rs ih =>
    obtain ⟨hr, hnd⟩ := nodup_cons.1 hnd
    rw [Regset.claimAll, foldl_cons, ← Regset.claimAll, ih hnd, claim_spilled, claim_active]
    by_cases hq : q = r
    · simp [hq, hr]
    · simp [hq]

lemma xallocAll_eq_ite (hnd : rs.Nodup) (S : Regset) :
    (xallocAll rs S : Option (List (Insn φ) × Regset)) =
      if ∀ r ∈ rs, S.spilled r = false then some (rs.flatMap (claimCode S), S.claimAll rs) else none := by
  induction rs generalizing S with
  | nil => simp [xallocAll, Regset.claimAll]
  | cons r rs ih =>
    obtain ⟨hr, hnd⟩ := nodup_cons.1 hnd
    have hne : ∀ q ∈ rs, q ≠ r := fun q hq hqr => hr (hqr ▸ hq)
    -- claiming `r` changes nothing for the registers after it
    have hsp : (∀ q ∈ rs, (S.claim r).spilled q = false) ↔ ∀ q ∈ rs, S.spilled q = false :=
      forall₂_congr fun q hq => by rw [claim_spilled_ne S (hne q hq)]
    have hcode : rs.flatMap (claimCode (φ := φ) (S.claim r)) = rs.flatMap (claimCode S) :=
      flatMap_congr fun q hq => by unfold claimCode; rw [claim_active_ne S (hne q hq)]
    rw [xallocAll]
    cases hspr : S.spilled r with
    | true =>
      have hx : (dtRegsetXalloc S r : Option (List (Insn φ) × Regset)) = none := by
        simp [dtRegsetXalloc, hspr, S.spilled_active r hspr]
      simp [hx, hspr]
    | false =>
      have hx : dtRegsetXalloc S r = some (claimCode (φ := φ) S r, S.claim r) := dtRegsetXalloc_eq.2 ⟨hspr, rfl, rfl⟩
      rw [hx]
      simp only [ih hnd, hsp, forall_mem_cons, hspr, true_and, flatMap_cons, hcode]
      by_cases hall : ∀ q ∈ rs, S.spilled q = false
      · rw [if_pos hall, if_pos hall]
        rfl
      · rw [if_neg hall, if_neg hall]

lemma dtRegsetXallocArgs_eq {S' : Regset} :
    dtRegsetXallocArgs S = some (c, S') ↔
      (∀ r ∈ argRegs, S.spilled r = false) ∧ c = argRegs.flatMap (claimCode S) ∧ S' = S.claimAll argRegs := by
  rw [dtRegsetXallocArgs, xallocAll_eq_ite (by decide)]
  by_cases hall : ∀ r ∈ argRegs, S.spilled r = false
  · rw [if_pos hall, Option.some.injEq, Prod.mk.injEq]
    exact ⟨fun h => ⟨hall, h.1.symm, h.2.symm⟩, fun h => ⟨h.2.1.symm, h.2.2.symm⟩⟩
  · rw [if_neg hall]
    exact ⟨fun h => (Option.some_ne_none _ h.symm).elim, fun h => absurd h.1 hall⟩

def freeCode (S : Regset) (r : Reg) : List (Insn φ) := if S.spilled r then [dtCgSpillLoad r] else []

def Regset.release (S : Regset) (r : Reg) : Regset := if S.spilled r then S.clearSpilled r else S.clearActive r

def Regset.releaseAll (S : Regset) (rs : List Reg) : Regset := rs.foldl Regset.release S

lemma dtRegsetFree_eq (S : Regset) (r : Reg) : dtRegsetFree (φ := φ) S r = (freeCode S r, S.release r) := by
  unfold dtRegsetFree freeCode Regset.release
  split <;> rfl

lemma release_active (S : Regset) (r q : Reg) :
    (S.release r).active q = (S.active q && (decide (q ≠ r) || S.spilled q)) := by
  unfold Regset.release
  by_cases hq : q = r
  · subst hq
    cases hs : S.spilled q <;> simp [Regset.clearSpilled, Regset.clearActive]
  · cases hs : S.spilled r <;> simp [Regset.clearSpilled, Regset.clearActive, hq]

lemma release_spilled (S : Regset) (r q : Reg) : (S.release r).spilled q = (S.spilled q && decide (q ≠ r)) := by
  unfold Regset.release
  by_cases hq : q = r
  · subst hq
    split <;> simp [Regset.clearSpilled, Regset.clearActive]
  · split <;> simp [Regset.clearSpilled, Regset.clearActive, hq]

lemma pick_release_zero (S : Regset) : (S.release 0).pick = S.pick :=
  pick_congr (fun _ hr => by simp [release_active, hr]) fun _ hr => by simp [release_spilled, hr]

lemma releaseAll_spilled (S : Regset) (rs : List Reg) (q : Reg) :
    (S.releaseAll rs).spilled q = (S.spilled q && decide (q ∉ rs)) := by
  induction rs generalizing S with
  | nil => simp [Regset.releaseAll]
  | cons r rs ih =>
    rw [Regset.releaseAll, foldl_cons, ← Regset.releaseAll, ih, release_spilled]
    by_cases hq : q = r <;> simp [hq]

lemma releaseAll_active (hnd : rs.Nodup) (S : Regset) (q : Reg) :
    (S.releaseAll rs).active q = (S.active q && (decide (q ∉ rs) || S.spilled q)) := by
  induction rs generalizing S with
  | nil => simp [Regset.releaseAll]
  | cons r rs ih =>
    obtain ⟨hr, hnd⟩ := nodup_cons.1 hnd
    rw [Regset.releaseAll, foldl_cons, ← Regset.releaseAll, ih hnd, release_active, release_spilled]
    by_cases hq : q = r
    · subst hq
      simp [hr]
    · simp [hq]

lemma freeAll_eq (hnd : rs.Nodup) (S : Regset) :
    freeAll (φ := φ) rs S = (rs.flatMap (freeCode S), S.releaseAll rs) := by
  induction rs generalizing S with
  | nil => rfl
  | cons r rs ih =>
    obtain ⟨hr, hnd⟩ := nodup_cons.1 hnd
    have hcode : rs.flatMap (freeCode (φ := φ) (S.release r)) = rs.flatMap (freeCode S) :=
      flatMap_congr fun q hq => by
        have hqr : q ≠ r := fun h => hr (h ▸ hq)
        simp [freeCode, release_spilled, hqr]
    rw [freeAll, dtRegsetFree_eq]
    simp only [ih hnd, hcode, flatMap_cons]
    rfl

lemma freeCode_claim (h : S.spilled r = false) : (freeCode (S.claim r) r : List (Insn φ)) = releaseCode S r := by
  rw [freeCode, releaseCode, claim_spilled_self S h]

lemma release_claim (h : S.spilled r = false) : (S.claim r).release r = S := by
  refine Regset.ext (funext fun q => ?_) (funext fun q => ?_)
  · rw [release_active, claim_active, claim_spilled]
    by_cases hq : q = r <;> simp [hq, h]
  · rw [release_spilled, claim_spilled]
    by_cases hq : q = r <;> simp [hq, h]

section

variable (h : ∀ r ∈ argRegs, S.spilled r = false)
include h

lemma freeArgsCode_claim :
    (argRegs.flatMap (freeCode ((S.claimAll argRegs).claim 0)) : List (Insn φ)) = argRegs.flatMap (releaseCode S) := by
  have hne : ∀ q ∈ argRegs, q ≠ 0 := by decide
  refine flatMap_congr fun q hq => ?_
  rw [freeCode, releaseCode, claim_spilled_ne _ (hne q hq), claimAll_spilled (by decide), h q hq]
  simp [hq]

lemma releaseArgs_claim : ((S.claimAll argRegs).claim 0).releaseAll argRegs = S.claim 0 := by
  have hnd : argRegs.Nodup := by decide
  have hne : ∀ q ∈ argRegs, q ≠ 0 := by decide
  refine Regset.ext (funext fun q => ?_) (funext fun q => ?_)
  · rw [releaseAll_active hnd, claim_spilled, claim_active, claim_active, claimAll_active, claimAll_spilled hnd]
    by_cases hq : q ∈ argRegs
    · simp [hq, hne q hq, h q hq]
    · simp [hq]
  · rw [releaseAll_spilled, claim_spilled, claim_spilled, claimAll_active, claimAll_spilled hnd]
    by_cases hq : q ∈ argRegs
    · simp [hq, hne q hq, h q hq]
    · simp [hq]

end

end

/-! ## Running spill code -/

section

variable {C : Callee φ}

lemma dtStkSpill_inj : dtStkSpill r = dtStkSpill q ↔ r = q := by
  unfold dtStkSpill
  constructor
  · intro h
    exact Fin.ext (by omega)
  · rintro rfl
    rfl

lemma dtStkSpill_ne_dctx (r : Reg) : dtStkDctx ≠ dtStkSpill r := by
  unfold dtStkSpill dtStkSpillBase dtStkSp
  omega

def afterClaim (S : Regset) (r : Reg) (s : St φ) : St φ := if S.active r then s.setStk (dtStkSpill r) (s.regs r) else s

def afterRelease (S : Regset) (r : Reg) (s : St φ) : St φ := if S.active r then s.setReg r (s.stk (dtStkSpill r)) else s

theorem execBlock_claim (S : Regset) (r : Reg) (s : St φ) :
    execBlock (exec C) (claimCode S r) s = some (afterClaim S r s) := by
  unfold claimCode afterClaim
  split <;> simp [execBlock, exec, dtCgSpillStore]

theorem execBlock_release (S : Regset) (r : Reg) (s : St φ) :
    execBlock (exec C) (releaseCode S r) s = some (afterRelease S r s) := by
  unfold releaseCode afterRelease
  split <;> simp [execBlock, exec, dtCgSpillLoad]

lemma afterClaim_mem (S : Regset) (r : Reg) (s : St φ) : (afterClaim S r s).mem = s.mem := by
  unfold afterClaim; split <;> rfl

lemma afterClaim_regs (S : Regset) (r : Reg) (s : St φ) : (afterClaim S r s).regs = s.regs := by
  unfold afterClaim; split <;> rfl

lemma afterRelease_regs_ne (S : Regset) (s : St φ) (h : q ≠ r) : (afterRelease S r s).regs q = s.regs q := by
  unfold afterRelease
  split
  · exact setReg_regs_ne s _ h
  · rfl

/-- The state after several registers have been claimed: those in use are saved. -/
structure SavedAll (S : Regset) (rs : List Reg) (s s' : St φ) : Prop where
  regs : s'.regs = s.regs
  mem : s'.mem = s.mem
  calls : s'.calls = s.calls
  saved : ∀ r ∈ rs, S.active r = true → s'.stk (dtStkSpill r) = s.regs r
  kept : ∀ o, (∀ r ∈ rs, S.active r = true → o ≠ dtStkSpill r) → s'.stk o = s.stk o

lemma execBlock_claimAll (S : Regset) (rs : List Reg) (s : St φ) :
    ∃ s', execBlock (exec C) (rs.flatMap (claimCode S)) s = some s' ∧ SavedAll S rs s s' := by
  induction rs generalizing s with
  | nil => exact ⟨s, rfl, rfl, rfl, rfl, by simp, fun _ _ => rfl⟩
  | cons r rs ih =>
    obtain ⟨s', hrun, hs'⟩ := ih (afterClaim S r s)
    have hregs := afterClaim_regs S r s
    refine ⟨s', ?_, hs'.regs.trans hregs, hs'.mem.trans (afterClaim_mem S r s), hs'.calls.trans ?_, fun q hq ha => ?_,
      fun o ho => ?_⟩
    · rw [flatMap_cons, execBlock_append, execBlock_claim]
      exact hrun
    · unfold afterClaim; split <;> rfl
    · by_cases hqs : q ∈ rs
      · rw [hs'.saved q hqs ha, hregs]
      · obtain rfl : q = r := (mem_cons.1 hq).resolve_right hqs
        have hne : ∀ p ∈ rs, S.active p = true → dtStkSpill q ≠ dtStkSpill p := by
          intro p hp _ h
          rw [dtStkSpill_inj.1 h] at hqs
          exact hqs hp
        rw [hs'.kept _ hne]
        simp [afterClaim, ha]
    · rw [hs'.kept o fun q hq => ho q (mem_cons_of_mem _ hq)]
      unfold afterClaim
      split
      · next ha => exact setStk_stk_ne s _ (ho r mem_cons_self ha)
      · rfl

/-- The state after several registers claimed in `S` have been freed: those that were saved are read back. -/
structure RestoredAll (S : Regset) (rs : List Reg) (s s' : St φ) : Prop where
  stk : s'.stk = s.stk
  mem : s'.mem = s.mem
  calls : s'.calls = s.calls
  restored : ∀ r ∈ rs, S.active r = true → s'.regs r = s.stk (dtStkSpill r)
  kept : ∀ q, (q ∈ rs → S.active q = false) → s'.regs q = s.regs q

lemma execBlock_releaseAll (S : Regset) (rs : List Reg) (s : St φ) :
    ∃ s', execBlock (exec C) (rs.flatMap (releaseCode S)) s = some s' ∧ RestoredAll S rs s s' := by
  induction rs generalizing s with
  | nil => exact ⟨s, rfl, rfl, rfl, rfl, by simp, fun _ _ => rfl⟩
  | cons r rs ih =>
    obtain ⟨s', hrun, hs'⟩ := ih (afterRelease S r s)
    have hstk : (afterRelease S r s).stk = s.stk := by unfold afterRelease; split <;> rfl
    refine ⟨s', ?_, hs'.stk.trans hstk, hs'.mem.trans ?_, hs'.calls.trans ?_, fun q hq ha => ?_, fun q hq => ?_⟩
    · rw [flatMap_cons, execBlock_append, execBlock_release]
      exact hrun
    · unfold afterRelease; split <;> rfl
    · unfold afterRelease; split <;> rfl
    · by_cases hqs : q ∈ rs
      · rw [hs'.restored q hqs ha, hstk]
      · obtain rfl : q = r := (mem_cons.1 hq).resolve_right hqs
        rw [hs'.kept q fun h => absurd h hqs]
        simp [afterRelease, ha]
    · rw [hs'.kept q fun h => hq (mem_cons_of_mem _ h)]
      unfold afterRelease
      split
      · next ha =>
        refine setReg_regs_ne s _ ?_
        rintro rfl
        rw [hq mem_cons_self] at ha
        cases ha
      · rfl

end

end DTrace.Cg
