import DTrace.Cg.Node

/-!
# What compiled operands do

The discipline that every node of an expression is compiled with, and what it means that the code of a node is right.

* `Disciplined x S` — the result is in the register that allocation hands out, that register is the only one taken, and
  the labels placed are exactly those handed out;
* `Holds S r v m s s'` — `v` is in `r`, and everything that was live in the register set `S` is where it was, a register
  that had to make room for `r` in its spill slot;
* `RightAt` — the code of a node, compiled for a register set, computes a value and a memory;
* `rightAt_unique` — it computes one value only.
-/

namespace DTrace.Cg

open Lib Bpf List

/-- The labels placed in `c` are `lo, …, hi - 1`, each once. -/
structure Labels (c : CgCode) (lo hi : ℕ) : Prop where
  le : lo ≤ hi
  count : ∀ l, l ≠ 0 → labelCount l c = if lo ≤ l ∧ l < hi then 1 else 0

variable {c : CgCode}

lemma Labels.nodup {lo hi : ℕ} (h : Labels c lo hi) : LabelsNodup c :=
  labelsNodup_of_labelCount fun l hl => by rw [h.count l hl]; split <;> omega

lemma Labels.append {a b : CgCode} {lo mid hi : ℕ} (ha : Labels a lo mid) (hb : Labels b mid hi) :
    Labels (a ++ b) lo hi := by
  refine ⟨ha.le.trans hb.le, fun l hl => ?_⟩
  have := ha.le
  have := hb.le
  rw [labelCount_append, ha.count l hl, hb.count l hl]
  split <;> split <;> split <;> omega

lemma Labels.plain (is : List CgInsn) (lo : ℕ) : Labels (plain is) lo lo :=
  ⟨le_rfl, fun l hl => by rw [labelCount_plain hl, if_neg (by omega)]⟩

/-- How every node is compiled. -/
structure Disciplined (x : Gen Reg) (S : Regset) : Prop where
  picked : ∀ {lbl r c g'}, x ⟨S, lbl⟩ = some (r, c, g') → S.pick = some r
  regs : ∀ {lbl r c g'}, x ⟨S, lbl⟩ = some (r, c, g') → g'.regs = S.claim r
  labels : ∀ {lbl r c g'}, x ⟨S, lbl⟩ = some (r, c, g') → Labels c lbl g'.lbl

/-- From `s` to `s'`, a value has been computed into `r`. -/
structure Holds (S : Regset) (r : Reg) (v : Word) (m : Mem) (s s' : St Func) : Prop where
  value : s'.regs r = v
  kept : ∀ q, S.active q = true → q ≠ r → s'.regs q = s.regs q
  saved : S.active r = true → s'.stk (dtStkSpill r) = s.regs r
  slots : ∀ q, S.spilled q = true → s'.stk (dtStkSpill q) = s.stk (dtStkSpill q)
  dctx : s'.stk dtStkDctx = s.stk dtStkDctx
  mem : s'.mem = m

/-- In the register set `S`, and with the context at `d` and the memory `m`, the code of `x` computes the value `v` and
leaves the memory `m'`. -/
def RightAt (C : Callee Func) (x : Gen Reg) (S : Regset) (d : Word) (m : Mem) (v : Word) (m' : Mem) : Prop :=
  ∀ lbl, lbl ≠ 0 → ∀ r c g', x ⟨S, lbl⟩ = some (r, c, g') → ∀ P, LabelsNodup P → ∀ s : St Func,
    s.stk dtStkDctx = d → s.mem = m → ∃ s', Does (exec C) P c s s' ∧ Holds S r v m' s s'

/-- From `s` to `s'`, everything that is live in `S` is where it was. -/
structure Restored (S : Regset) (m : Mem) (s s' : St Func) : Prop where
  regs : ∀ q, S.active q = true → s'.regs q = s.regs q
  slots : ∀ q, S.spilled q = true → s'.stk (dtStkSpill q) = s.stk (dtStkSpill q)
  dctx : s'.stk dtStkDctx = s.stk dtStkDctx
  mem : s'.mem = m

variable {C : Callee Func} {S : Regset} {r : Reg} {x : Gen Reg} {g' : GState} {m : Mem} {lbl : ℕ}

section

variable {v : Word} {m' : Mem} {s s' s'' : St Func}

lemma execBlock_freed (T : Regset) (r : Reg) (s : St Func) :
    ∃ s', execBlock (exec C) (freeCode T r) s = some s' ∧ St.Only [r] s s' ∧
      s'.regs r = if T.spilled r then s.stk (dtStkSpill r) else s.regs r := by
  cases h : T.spilled r with
  | true =>
    exact ⟨s.setReg r (s.stk (dtStkSpill r)), by simp [freeCode, h, execBlock, exec, dtCgSpillLoad],
      (St.Only.refl _ s).setReg, by simp⟩
  | false => exact ⟨s, by simp [freeCode, h, execBlock], St.Only.refl _ s, rfl⟩

lemma Holds.free (h : Holds S r v m s s') (hr : S.spilled r = false) :
    ∃ s'', execBlock (exec C) (freeCode (S.claim r) r) s' = some s'' ∧ Restored S m s s'' := by
  obtain ⟨s'', hrun, honly, hv⟩ := execBlock_freed (C := C) (S.claim r) r s'
  rw [claim_spilled_self S hr] at hv
  refine ⟨s'', hrun, fun q hq => ?_, fun q hq => ?_, ?_, honly.mem.trans h.mem⟩
  · by_cases hqr : q = r
    · subst hqr
      rw [hv, if_pos hq, h.saved hq]
    · rw [honly.regs q (by simpa using hqr), h.kept q hq hqr]
  · rw [honly.stk, h.slots q hq]
  · rw [honly.stk, h.dctx]

lemma Restored.holds (h : Restored S m s s') (h' : Holds S r v m' s' s'') : Holds S r v m' s s'' := by
  refine ⟨h'.value, fun q hq hqr => ?_, fun ha => ?_, fun q hq => ?_, h'.dctx.trans h.dctx, h'.mem⟩
  · rw [h'.kept q hq hqr, h.regs q hq]
  · rw [h'.saved ha, h.regs r ha]
  · rw [h'.slots q hq, h.slots q hq]

lemma Holds.restored (h : Holds S r v m s s') (hr : S.spilled r = false) (h' : Restored (S.claim r) m' s' s'') :
    Holds S r v m' s s'' := by
  refine ⟨?_, fun q hq hqr => ?_, fun ha => ?_, fun q hq => ?_, h'.dctx.trans h.dctx, h'.mem⟩
  · rw [h'.regs r (claim_active_self S r), h.value]
  · rw [h'.regs q (claim_active_of S hq), h.kept q hq hqr]
  · rw [h'.slots r (by rw [claim_spilled_self S hr, ha]), h.saved ha]
  · rw [h'.slots q (claim_spilled_of S hq), h.slots q hq]

theorem rightAt_unique {d : Word} {v' : Word} {m'' : Mem}
    (hx : Disciplined x S) (hlbl : lbl ≠ 0) (hgen : x ⟨S, lbl⟩ = some (r, c, g')) (h : RightAt C x S d m v m')
    (h' : RightAt C x S d m v' m'') : v = v' ∧ m' = m'' := by
  let s : St Func := ⟨fun _ => 0, fun _ => d, m, []⟩
  obtain ⟨_, hd1, hs1⟩ := h lbl hlbl r c g' hgen c (hx.labels hgen).nodup s rfl rfl
  obtain ⟨_, hd2, hs2⟩ := h' lbl hlbl r c g' hgen c (hx.labels hgen).nodup s rfl rfl
  obtain rfl := hd1.unique hd2
  exact ⟨hs1.value.symm.trans hs2.value, hs1.mem.symm.trans hs2.mem⟩

end

/-! ## Leaves -/

/-- A generator that takes a register and emits straight-line code to fill it. -/
def Leaf (x : Gen Reg) (is : Reg → List CgInsn) : Prop :=
  ∀ {g r c g'}, x g = some (r, c, g') →
    g.regs.pick = some r ∧ c = plain (claimCode g.regs r ++ is r) ∧ g' = ⟨g.regs.claim r, g.lbl⟩

section

variable {is : Reg → List CgInsn}

lemma Leaf.disciplined (h : Leaf x is) (S : Regset) : Disciplined x S := by
  refine ⟨fun hx => (h hx).1, fun hx => ?_, fun hx => ?_⟩
  · rw [(h hx).2.2]
  · rw [(h hx).2.1, (h hx).2.2]
    exact Labels.plain _ _

lemma Holds.ofClaim {s s' : St Func} (hr : S.spilled r = false)
    (h : St.Only [r] (afterClaim S r s) s') : Holds S r (s'.regs r) s.mem s s' := by
  have hstk : ∀ o, (S.active r = true → o ≠ dtStkSpill r) → (afterClaim S r s).stk o = s.stk o := fun o ho => by
    unfold afterClaim
    split
    · next ha => exact setStk_stk_ne s _ (ho ha)
    · rfl
  have hregs : (afterClaim S r s).regs = s.regs := by unfold afterClaim; split <;> rfl
  refine ⟨rfl, fun q hq hqr => ?_, fun ha => ?_, fun q hq => ?_, ?_, h.mem.trans ?_⟩
  · rw [h.regs q (by simpa using hqr), hregs]
  · rw [h.stk]
    simp [afterClaim, show S.active r = true from ha]
  · rw [h.stk, hstk _ fun _ h => ?_]
    rw [dtStkSpill_inj.1 h, hr] at hq
    cases hq
  · rw [h.stk, hstk _ fun _ => dtStkSpill_ne_dctx r]
  · unfold afterClaim; split <;> rfl

lemma afterClaim_dctx (S : Regset) (r : Reg) (s : St Func) : (afterClaim S r s).stk dtStkDctx = s.stk dtStkDctx := by
  unfold afterClaim
  split
  · exact setStk_stk_ne s _ (dtStkSpill_ne_dctx r)
  · rfl

theorem Leaf.rightAt (h : Leaf x is) {d v : Word}
    (hrun : ∀ r, r ≠ fp → ∀ s : St Func, s.stk dtStkDctx = d → s.mem = m →
      ∃ s', execBlock (exec C) (is r) s = some s' ∧ St.Only [r] s s' ∧ s'.regs r = v) : RightAt C x S d m v m := by
  intro lbl _ r c g' hgen P _ s hd hm
  obtain ⟨hpick, rfl, rfl⟩ := h hgen
  have hr := pick_picks hpick
  obtain ⟨s', hb, honly, rfl⟩ := hrun r hr.ne_fp (afterClaim S r s) (by rw [afterClaim_dctx, hd])
    (by rw [afterClaim_mem, hm])
  refine ⟨s', .block ?_, hm ▸ Holds.ofClaim hr.unspilled honly⟩
  rw [execBlock_append, execBlock_claim]
  exact hb

end

/-- The word of the DTrace context at a member. -/
def dctxField (d : Word) (m : Mem) (f : DctxMember) : Word := m.getW (d + BitVec.ofInt 64 f.ofs)

lemma execBlock_accessDctx (reg : Reg) (hreg : reg ≠ fp) (f : DctxMember) (s : St Func) :
    ∃ s', execBlock (exec C) (dtCgAccessDctx reg f) s = some s' ∧ St.Only [reg] s s' ∧
      s'.regs reg = dctxField (s.stk dtStkDctx) s.mem f := by
  refine ⟨(s.setReg reg (s.stk dtStkDctx)).setReg reg (dctxField (s.stk dtStkDctx) s.mem f), ?_,
    (St.Only.refl _ s).setReg.setReg, by simp⟩
  simp [dtCgAccessDctx, accessDctx, execBlock, exec, loadVal_dw _ hreg, St.addr, dctxField]

variable {is : List CgInsn}

lemma execBlock_spills (h : ∀ i ∈ is, ∃ r, i = dtCgSpillStore r) (s : St Func) :
    ∃ s', execBlock (exec C) is s = some s' ∧ s'.regs = s.regs ∧ s'.mem = s.mem ∧ s'.calls = s.calls ∧
      ∀ o, (∀ r, o ≠ dtStkSpill r) → s'.stk o = s.stk o := by
  induction is generalizing s with
  | nil => exact ⟨s, rfl, rfl, rfl, rfl, fun _ _ => rfl⟩
  | cons i is ih =>
    obtain ⟨r, rfl⟩ := h _ mem_cons_self
    obtain ⟨s', hs', hregs, hmem, hcalls, hstk⟩ :=
      ih (fun j hj => h j (mem_cons_of_mem _ hj)) (s.setStk (dtStkSpill r) (s.regs r))
    refine ⟨s', ?_, hregs, hmem, hcalls, fun o ho => (hstk o ho).trans (setStk_stk_ne s _ (ho r))⟩
    rw [← hs']
    simp [execBlock, exec, dtCgSpillStore]

lemma execBlock_reloads {rs : List Reg} (h : ∀ i ∈ is, ∃ r ∈ rs, i = dtCgSpillLoad r)
    (s : St Func) : ∃ s', execBlock (exec C) is s = some s' ∧ St.Only rs s s' := by
  induction is generalizing s with
  | nil => exact ⟨s, rfl, St.Only.refl _ s⟩
  | cons i is ih =>
    obtain ⟨r, hr, rfl⟩ := h _ mem_cons_self
    obtain ⟨s', hs', honly⟩ :=
      ih (fun j hj => h j (mem_cons_of_mem _ hj)) (s.setReg r (s.stk (dtStkSpill r)))
    refine ⟨s', ?_, ((St.Only.refl _ s).setReg hr).trans honly⟩
    rw [← hs']
    simp [execBlock, exec, dtCgSpillLoad]

variable {i : CgInsn}

lemma mem_claimCode (h : i ∈ (claimCode S r : List CgInsn)) : i = dtCgSpillStore r := by
  unfold claimCode at h
  split at h
  · exact mem_singleton.1 h
  · cases h

lemma mem_freeCode (h : i ∈ (freeCode S r : List CgInsn)) : i = dtCgSpillLoad r := by
  unfold freeCode at h
  split at h
  · exact mem_singleton.1 h
  · cases h

lemma execBlock_frees (T : Regset) (rs : List Reg) (s : St Func) :
    ∃ s', execBlock (exec C) (rs.flatMap (freeCode T)) s = some s' ∧ St.Only rs s s' := by
  refine execBlock_reloads (fun i hi => ?_) s
  obtain ⟨r, hr, hi⟩ := mem_flatMap.1 hi
  exact ⟨r, hr, mem_freeCode hi⟩

lemma execBlock_free_only (T : Regset) (r : Reg) (s : St Func) :
    ∃ s', execBlock (exec C) (freeCode T r) s = some s' ∧ St.Only [r] s s' :=
  (execBlock_freed T r s).imp fun _ h => ⟨h.1, h.2.1⟩

lemma freeCode_quiet (S : Regset) (r : Reg) : ∀ i ∈ freeCode S r, (i : CgInsn).quiet = true := by
  intro i hi
  obtain rfl := mem_freeCode hi
  rfl

/-! ## Two operands -/

/-- From `s` to `s'`, two values have been computed, the first into `a`, the second into `b`.  The two registers may be
one: then the first value is in the spill slot. -/
structure HoldBoth (S : Regset) (a b : Reg) (vl vr : Word) (m : Mem) (s s' : St Func) : Prop where
  right : s'.regs b = vr
  left : a ≠ b → s'.regs a = vl
  leftSaved : a = b → s'.stk (dtStkSpill a) = vl
  kept : ∀ q, S.active q = true → q ≠ a → q ≠ b → s'.regs q = s.regs q
  savedLeft : S.active a = true → s'.stk (dtStkSpill a) = s.regs a
  savedRight : S.active b = true → b ≠ a → s'.stk (dtStkSpill b) = s.regs b
  slots : ∀ q, S.spilled q = true → s'.stk (dtStkSpill q) = s.stk (dtStkSpill q)
  dctx : s'.stk dtStkDctx = s.stk dtStkDctx
  mem : s'.mem = m

lemma Holds.both {a b : Reg} {vl vr : Word} {m1 m2 : Mem} {s s1 s2 : St Func}
    (ha : S.spilled a = false) (hl : Holds S a vl m1 s s1) (hr : Holds (S.claim a) b vr m2 s1 s2) : HoldBoth S a b vl vr m2 s s2 := by
  have hspa : S.active a = true → (S.claim a).spilled a = true := fun h => by
    rw [claim_spilled_self S ha, h]
  refine ⟨hr.value, fun hab => ?_, fun hab => ?_, fun q hq hqa hqb => ?_, fun hact => ?_, fun hact hba => ?_,
    fun q hq => ?_, hr.dctx.trans hl.dctx, hr.mem⟩
  · rw [hr.kept a (claim_active_self S a) hab, hl.value]
  · subst hab
    rw [hr.saved (claim_active_self S a), hl.value]
  · rw [hr.kept q (claim_active_of S hq) hqb, hl.kept q hq hqa]
  · rw [hr.slots a (hspa hact), hl.saved hact]
  · rw [hr.saved (claim_active_of S hact), hl.kept b hact hba]
  · rw [hr.slots q (claim_spilled_of S hq), hl.slots q hq]

section

variable {a b : Reg} {vl vr : Word} {s s' : St Func}

lemma HoldBoth.freeRight (h : HoldBoth S a b vl vr m s s') (hb : Picks (S.claim a) b) :
    ∃ s'', execBlock (exec C) (freeCode ((S.claim a).claim b) b) s' = some s'' ∧ Holds S a vl m s s'' := by
  obtain ⟨s'', hrun, honly, hv⟩ := execBlock_freed (C := C) ((S.claim a).claim b) b s'
  rw [claim_spilled_self _ hb.unspilled] at hv
  refine ⟨s'', hrun, ?_, fun q hq hqa => ?_, fun ha => ?_, fun q hq => ?_, ?_, honly.mem.trans h.mem⟩
  · by_cases hab : a = b
    · subst hab
      rw [hv, if_pos (claim_active_self S a), h.leftSaved rfl]
    · rw [honly.regs a (by simpa using hab), h.left hab]
  · by_cases hqb : q = b
    · subst hqb
      rw [hv, if_pos (claim_active_of S hq), h.savedRight hq hqa]
    · rw [honly.regs q (by simpa using hqb), h.kept q hq hqa hqb]
  · rw [honly.stk, h.savedLeft ha]
  · rw [honly.stk, h.slots q hq]
  · rw [honly.stk, h.dctx]

lemma HoldBoth.freeLeft (h : HoldBoth S a b vl vr m s s') (ha : S.spilled a = false) (hab : a ≠ b) :
    ∃ s'', execBlock (exec C) (freeCode ((S.claim a).claim b) a) s' = some s'' ∧ Holds S b vr m s s'' := by
  obtain ⟨s'', hrun, honly, hv⟩ := execBlock_freed (C := C) ((S.claim a).claim b) a s'
  rw [claim_spilled_ne _ hab, claim_spilled_self S ha] at hv
  refine ⟨s'', hrun, ?_, fun q hq hqb => ?_, fun hb => ?_, fun q hq => ?_, ?_, honly.mem.trans h.mem⟩
  · rw [honly.regs b (by simpa using Ne.symm hab), h.right]
  · by_cases hqa : q = a
    · subst hqa
      rw [hv, if_pos hq, h.savedLeft hq]
    · rw [honly.regs q (by simpa using hqa), h.kept q hq hqa hqb]
  · rw [honly.stk, h.savedRight hb (Ne.symm hab)]
  · rw [honly.stk, h.slots q hq]
  · rw [honly.stk, h.dctx]

end

/-! ## Two operands, both held -/

/-- How the operands of a binary operator are compiled and what they compute. -/
structure Pair (C : Callee Func) (S : Regset) (d : Word) (m : Mem) (left right : Gen Reg) (vl : Word) (m₁ : Mem) (vr : Word)
    (m₂ : Mem) : Prop where
  disciplined : Disciplined left S
  leftRight : RightAt C left S d m vl m₁
  rightRight : ∀ a, S.pick = some a → RightAt C right (S.claim a) d m₁ vr m₂

/-- Operands of which the second one keeps the discipline as well. -/
structure Both (C : Callee Func) (S : Regset) (d : Word) (m : Mem) (left right : Gen Reg) (vl : Word) (m₁ : Mem) (vr : Word)
    (m₂ : Mem) : Prop extends Pair C S d m left right vl m₁ vr m₂ where
  disciplinedRight : ∀ a, S.pick = some a → Disciplined right (S.claim a)

section

variable {left right : Gen Reg} {d vl vr : Word} {m₁ m₂ : Mem} {a b : Reg} {cl cr : CgCode} {g1 g2 : GState} {L : ℕ} {P : CgCode}
  {s : St Func}

lemma Both.gen (h : Both C S d m left right vl m₁ vr m₂) (hl : left ⟨S, lbl⟩ = some (a, cl, g1))
    (hr : right ⟨g1.regs, L⟩ = some (b, cr, g2)) : S.pick = some a ∧ (S.claim a).pick = some b ∧
      g2.regs = (S.claim a).claim b ∧ lbl ≤ g1.lbl ∧ L ≤ g2.lbl := by
  have hpick := h.disciplined.picked hl
  have hright := h.disciplinedRight a hpick
  rw [h.disciplined.regs hl] at hr
  exact ⟨hpick, hright.picked hr, hright.regs hr, (h.disciplined.labels hl).le, (hright.labels hr).le⟩

lemma Pair.run (h : Pair C S d m left right vl m₁ vr m₂) (hlbl : lbl ≠ 0) (hl : left ⟨S, lbl⟩ = some (a, cl, g1))
    (hr : right ⟨g1.regs, L⟩ = some (b, cr, g2)) (hP : LabelsNodup P) (hd : s.stk dtStkDctx = d) (hm : s.mem = m)
    (hL : g1.lbl ≤ L := by simp) : ∃ s1 s2, Does (exec C) P cl s s1 ∧ Does (exec C) P cr s1 s2 ∧ s1.regs a = vl ∧
      HoldBoth S a b vl vr m₂ s s2 := by
  have hpick := h.disciplined.picked hl
  have hle := (h.disciplined.labels hl).le
  rw [h.disciplined.regs hl] at hr
  obtain ⟨s1, hrun1, hs1⟩ := h.leftRight _ hlbl _ _ _ hl P hP s hd hm
  obtain ⟨s2, hrun2, hs2⟩ := h.rightRight a hpick _ (by omega) _ _ _ hr P hP s1 (hs1.dctx.trans hd) hs1.mem
  exact ⟨s1, s2, hrun1, hrun2, hs1.value, hs1.both (pick_picks hpick).unspilled hs2⟩

lemma picked_unique {p : Reg → Reg → Prop} (ha : S.pick = some a) (hb : (S.claim a).pick = some b) (h : p a b) :
    ∀ a' b', S.pick = some a' → (S.claim a').pick = some b' → p a' b' := by
  intro a' b' ha' hb'
  obtain rfl := Option.mem_unique ha ha'
  obtain rfl := Option.mem_unique hb hb'
  exact h

end

/-! ## Comparisons -/

/-- The code of `dt_cg_compare_op` once both operands are numbers; the register of the right operand is freed on the way
to one of the results only. -/
def compareTail (op : JmpOp) (l r : Reg) (lblTrue lblPost : ℕ) (free : List CgInsn) : CgCode :=
  ⟨0, .branchReg op l r lblTrue⟩ :: (plain free ++
    [⟨0, .movImm l (imm 0)⟩, ⟨0, .jump lblPost⟩, ⟨lblTrue, .movImm l (imm 1)⟩, ⟨lblPost, .nop⟩])

section

variable {P : CgCode} {op : JmpOp} {l : Reg} {lblTrue lblPost : ℕ} {free : List CgInsn}
  {s t : St Func}

/-- A register is set, at the end of some code. -/
lemma does_movImm {k k' : ℕ} {i : BitVec 32} {w : Word} (hw : i.signExtend 64 = w) :
    Does (exec C) P [⟨k, .movImm l i⟩, ⟨k', .nop⟩] s (s.setReg l w) :=
  .cons (by simp [exec, AluOp.eval, hw]) (.cons rfl (.nil _))

/-- A register is set to zero before a jump to the end. -/
lemma does_zero_jump {k : ℕ} (mid : CgCode) (hP : LabelsNodup P) (hk : k ≠ 0) :
    Does (exec C) P (⟨0, .movImm l (imm 0)⟩ :: ⟨0, .jump k⟩ :: (mid ++ [⟨k, .nop⟩])) s (s.setReg l 0#64) :=
  .cons (by simp [exec, AluOp.eval]) (.skip hP hk rfl (.cons rfl (.nil _)))

lemma compareTail_true (hP : LabelsNodup P) (hT : lblTrue ≠ 0) (h : op.eval (s.regs l) (s.regs r) = true) :
    Does (exec C) P (compareTail op l r lblTrue lblPost free) s (s.setReg l 1#64) := by
  have hsplit : compareTail op l r lblTrue lblPost free =
      ⟨0, .branchReg op l r lblTrue⟩ :: ((plain free ++ [⟨0, .movImm l (imm 0)⟩, ⟨0, .jump lblPost⟩]) ++
        ⟨lblTrue, .movImm l (imm 1)⟩ :: [⟨lblPost, .nop⟩]) := by
    simp [compareTail]
  rw [hsplit]
  exact .skip hP hT (by simp [exec, h]) (does_movImm imm_one_signExtend)

lemma compareTail_false (hP : LabelsNodup P) (hpost : lblPost ≠ 0) (h : op.eval (s.regs l) (s.regs r) = false)
    (hfree : execBlock (exec C) free s = some t) :
    Does (exec C) P (compareTail op l r lblTrue lblPost free) s (t.setReg l 0#64) := by
  exact .cons (by simp [exec, h]) ((Does.block hfree).append (does_zero_jump [_] hP hpost))

lemma dtCgCompareOp_shape {str : Option StrArgs} {left right : Gen Reg} {q : Reg}
    (h : dtCgCompareOp op str left right ⟨S, lbl⟩ = some (q, c, g')) :
    ∃ a cl g1 b cr g2 cs g3, left ⟨S, lbl + 2⟩ = some (a, cl, g1) ∧ right g1 = some (b, cr, g2) ∧
      str.elim (pure ()) (dtCgCompareStr a b) g2 = some ((), cs, g3) ∧
      a = q ∧ c = cl ++ (cr ++ (cs ++ compareTail op a b lbl (lbl + 1) (freeCode g3.regs b))) ∧
      g' = ⟨g3.regs.release b, g3.lbl⟩ := by
  simp only [dtCgCompareOp, dtIrlistLabel_bind] at h
  obtain ⟨a, cl, g1, _, hl, h1, rfl⟩ := Gen.bind_eq_some.1 h
  obtain ⟨b, cr, g2, _, hr, h2, rfl⟩ := Gen.bind_eq_some.1 h1
  have hend : ∀ g3 : GState, ∀ ce, (do
      emit (.branchReg op a b lbl)
      regFree b
      emit (.movImm a (imm 0))
      emit (.jump (lbl + 1))
      emitl lbl (.movImm a (imm 1))
      emitl (lbl + 1) .nop
      return a : Gen Reg) g3 = some (q, ce, g') →
      a = q ∧ ce = compareTail op a b lbl (lbl + 1) (freeCode g3.regs b) ∧ g' = ⟨g3.regs.release b, g3.lbl⟩ := by
    intro g3 ce he
    simp only [emit_bind, regFree_bind, emitl_bind, Gen.pure_eq_some, exists_exists_and_eq_and] at he
    obtain ⟨_, ⟨rfl, rfl, rfl⟩, rfl⟩ := he
    exact ⟨rfl, rfl, rfl⟩
  cases str with
  | none =>
    obtain ⟨rfl, rfl, rfl⟩ := hend g2 _ h2
    exact ⟨_, cl, g1, b, cr, g2, [], g2, hl, hr, by simp, rfl, rfl, rfl⟩
  | some sa =>
    obtain ⟨_, cs, g3, _, hs, h3, rfl⟩ := Gen.bind_eq_some.1 h2
    obtain ⟨rfl, rfl, rfl⟩ := hend g3 _ h3
    exact ⟨_, cl, g1, b, cr, g2, cs, g3, hl, hr, hs, rfl, rfl, rfl⟩

lemma compareTail_labelCount {k : ℕ} (hk : k ≠ 0) : labelCount k (compareTail op l r lblTrue lblPost free) =
    (if lblTrue = k then 1 else 0) + if lblPost = k then 1 else 0 := by
  simp only [compareTail, labelCount_cons, labelCount_append, labelCount_plain hk, labelCount_nil, Ne.symm hk, if_false]
  omega

lemma Labels.compare {cl cr cs : CgCode} {l1 l2 l3 : ℕ} (hl : Labels cl (lbl + 2) l1) (hr : Labels cr l1 l2)
    (hs : Labels cs l2 l3) : Labels (cl ++ (cr ++ (cs ++ compareTail op l r lbl (lbl + 1) free))) lbl l3 := by
  have hall := hl.append (hr.append hs)
  refine ⟨by have := hall.le; omega, fun k hk => ?_⟩
  have hcount := hall.count k hk
  have hle := hall.le
  simp only [labelCount_append] at hcount
  simp only [labelCount_append, compareTail_labelCount hk]
  split_ifs at * <;> omega

end

/-! ## Pointers that are not `NULL` -/

/-- The code of `dt_cg_check_notnull`. -/
def notnullCode (reg : Reg) (lbl : ℕ) : CgCode :=
  ⟨0, .branchImm .jne reg (imm 0) lbl⟩ :: (plain (dtCgProbeError .badaddr (imm 0)) ++ [⟨lbl, .nop⟩])

lemma notnullCode_labels (reg : Reg) (lbl : ℕ) : Labels (notnullCode reg lbl) lbl (lbl + 1) := by
  refine ⟨Nat.le_succ _, fun l hl => ?_⟩
  simp only [notnullCode, labelCount_cons, labelCount_append, labelCount_plain hl, labelCount_nil, Ne.symm hl, if_false]
  split_ifs <;> omega

lemma does_notnull {P : CgCode} {s : St Func} (hP : LabelsNodup P) (hlbl : lbl ≠ 0) (h : s.regs r ≠ 0#64) :
    Does (exec C) P (notnullCode r lbl) s s := by
  have hne : (s.regs r != 0#64) = true := by simpa using h
  exact .skip hP hlbl (by simp [exec, JmpOp.eval, hne]) (.cons rfl (.nil s))

/-! ## A machine to run code on -/

/-- Called functions that return `0` and change nothing. -/
def idleCallee : Callee Func := ⟨fun _ _ _ => 0, fun _ a _ => a, fun _ _ m => m⟩

def zeroMem : Mem := fun _ => 0

/-- The state in which everything is zero. -/
def zeroSt : St Func := ⟨fun _ => 0, fun _ => 0, zeroMem, []⟩

end DTrace.Cg
