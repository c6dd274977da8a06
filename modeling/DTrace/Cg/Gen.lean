import DTrace.Cg.Regset

/-!
# Emitting code

The generator functions of `dt_cg.c` as functions on the register set and the label counter that return what they emit.
`none` is the `longjmp` with `EDT_NOREG`.

* `Gen.bind_eq_some` — the code of a sequence is the code of its parts, in order;
* `emit_bind`, `regAlloc_bind`, `regXallocArgs_bind`, … — what each primitive contributes to a sequence;
* `dtCgAccessDctx`, `dtCgProbeError`, `dtCgCheckNotnull` — pieces of code that many generators share.
-/

namespace DTrace.Cg

open Lib Bpf

/-- The functions that generated code calls. -/
inductive Func
  | dtStrcmp
  | dtStrjoin
  | dtSubstr
  | dtGetTvar
  | dtProbeError
  /-- The helper `BPF_FUNC_probe_read`. -/
  | probeRead
  /-- `dt_bvar_<name>(dctx)`. -/
  | dtBvar (k : ℕ)
  /-- `dt_bvar_args(dctx, idx)` and `dt_bvar_probedesc(dctx, idx)`. -/
  | dtBvarIdx (k : ℕ)
  deriving DecidableEq, Repr

abbrev CgInsn := Insn Func

abbrev CgCode := List (Node CgInsn)

/-- The state of the code generator: the register set, and the label `dt_irlist_label` hands out next. -/
@[ext]
structure GState where
  regs : Regset
  lbl : ℕ

/-- A generator function: its result, the code it emits and the state after. -/
def Gen (α : Type) := GState → Option (α × CgCode × GState)

variable {g : GState} {c : CgCode}

namespace Gen

variable {α β : Type}

protected def pure (a : α) : Gen α := fun g => some (a, [], g)

protected def bind (x : Gen α) (f : α → Gen β) : Gen β := fun g =>
  match x g with
  | none => none
  | some (a, c, g₁) =>
    match f a g₁ with
    | none => none
    | some (b, c', g₂) => some (b, c ++ c', g₂)

instance : Monad Gen where
  pure := Gen.pure
  bind := Gen.bind

variable {f : α → Gen β} {x : Gen α}

@[simp] theorem pure_eq_some {a b : α} {g' : GState} :
    (pure a : Gen α) g = some (b, c, g') ↔ a = b ∧ [] = c ∧ g = g' := by
  change Gen.pure a g = _ ↔ _
  simp [Gen.pure]

theorem bind_eq_some {b : β} {g' : GState} :
    (x >>= f) g = some (b, c, g') ↔
      ∃ a c1 g1 c2, x g = some (a, c1, g1) ∧ f a g1 = some (b, c2, g') ∧ c1 ++ c2 = c := by
  change Gen.bind x f g = _ ↔ _
  unfold Gen.bind
  constructor
  · intro h
    split at h
    · cases h
    · next a c1 g1 hx =>
      split at h
      · cases h
      · next b' c2 g2 hf =>
        cases h
        exact ⟨a, c1, g1, c2, hx, hf, rfl⟩
  · rintro ⟨a, _, _, _, hx, hf, rfl⟩
    simp [hx, hf]

lemma bind_of_eq {a : α} {b : β} {c1 : CgCode} {g1 g' : GState} (hx : x g = some (a, c1, g1)) :
    (x >>= f) g = some (b, c, g') ↔ ∃ c', f a g1 = some (b, c', g') ∧ c1 ++ c' = c := by
  rw [bind_eq_some]
  constructor
  · rintro ⟨_, _, _, c2, hx', hf, rfl⟩
    rw [hx] at hx'
    cases hx'
    exact ⟨c2, hf, rfl⟩
  · rintro ⟨c2, hf, rfl⟩
    exact ⟨a, c1, g1, c2, hx, hf, rfl⟩

lemma bind_of_none (hx : x g = none) : (x >>= f) g = none := by
  change Gen.bind x f g = none
  simp [Gen.bind, hx]

def Succeeds (x : Gen α) (g : GState) : Prop := ∃ a c g', x g = some (a, c, g')

lemma succeeds_bind {g1 : GState} {a : α} (hx : x g = some (a, c, g1)) :
    (x >>= f).Succeeds g ↔ (f a).Succeeds g1 := by
  constructor
  · rintro ⟨b, c', g', h⟩
    obtain ⟨c'', hf, -⟩ := (bind_of_eq hx).1 h
    exact ⟨b, c'', g', hf⟩
  · rintro ⟨b, c', g', h⟩
    exact ⟨b, c ++ c', g', (bind_of_eq hx).2 ⟨c', h, rfl⟩⟩

@[simp] theorem succeeds_pure {a : α} : (pure a : Gen α).Succeeds g := ⟨a, [], g, by simp⟩

end Gen

/-! ## Primitives -/

def emit (i : CgInsn) : Gen Unit := fun g => some ((), [⟨0, i⟩], g)

/-- Several `emit`s. -/
def emits (is : List CgInsn) : Gen Unit := fun g => some ((), plain is, g)

def emitl (lbl : ℕ) (i : CgInsn) : Gen Unit := fun g => some ((), [⟨lbl, i⟩], g)

/-- An instruction emitted first and patched once the result of what follows it is known. -/
def emitPatched {α : Type} (i : α → CgInsn) (x : Gen α) : Gen α := fun g =>
  (x g).map fun (a, c, g') => (a, ⟨0, i a⟩ :: c, g')

/-- `dnerror` and `xyerror`: the compilation ends. -/
def dnerror {α : Type} : Gen α := fun _ => none

def dtIrlistLabel : Gen ℕ := fun g => some (g.lbl, [], ⟨g.regs, g.lbl + 1⟩)

/-- `dt_regset_alloc` whose failure ends the compilation. -/
def regAlloc : Gen Reg := fun g =>
  (dtRegsetAlloc g.regs).map fun (r, c, S) => (r, plain c, ⟨S, g.lbl⟩)

/-- `dt_regset_xalloc` whose failure goes unnoticed. -/
def regXallocUnchecked (reg : Reg) : Gen Unit := fun g =>
  match dtRegsetXalloc g.regs reg with
  | some (c, S) => some ((), plain c, ⟨S, g.lbl⟩)
  | none => some ((), [], g)

/-- `dt_regset_xalloc_args` whose failure ends the compilation. -/
def regXallocArgs : Gen Unit := fun g =>
  (dtRegsetXallocArgs g.regs).map fun (c, S) => ((), plain c, ⟨S, g.lbl⟩)

/-- `dt_regset_free`. -/
def regFree (reg : Reg) : Gen Unit := fun g =>
  let (c, S) := dtRegsetFree g.regs reg
  some ((), plain c, ⟨S, g.lbl⟩)

/-- `dt_regset_free_args`. -/
def regFreeArgs : Gen Unit := fun g =>
  let (c, S) := dtRegsetFreeArgs g.regs
  some ((), plain c, ⟨S, g.lbl⟩)

/-! The code of a sequence that begins with a primitive. -/

section

variable {α : Type} {f : Unit → Gen α} {a : α} {g' : GState} {i : CgInsn}

@[simp] lemma emit_bind : (emit i >>= f) g = some (a, c, g') ↔ ∃ c', f () g = some (a, c', g') ∧ ⟨0, i⟩ :: c' = c :=
  Gen.bind_of_eq (x := emit i) rfl

@[simp] lemma emits_bind {is : List CgInsn} :
    (emits is >>= f) g = some (a, c, g') ↔ ∃ c', f () g = some (a, c', g') ∧ plain is ++ c' = c :=
  Gen.bind_of_eq rfl

@[simp] lemma emitl_bind {l : ℕ} :
    (emitl l i >>= f) g = some (a, c, g') ↔ ∃ c', f () g = some (a, c', g') ∧ ⟨l, i⟩ :: c' = c :=
  Gen.bind_of_eq (x := emitl l i) rfl

@[simp] lemma dtIrlistLabel_bind {k : ℕ → Gen α} :
    (dtIrlistLabel >>= k) g = some (a, c, g') ↔ k g.lbl ⟨g.regs, g.lbl + 1⟩ = some (a, c, g') := by
  rw [Gen.bind_of_eq rfl]
  simp

lemma regFree_eq (r : Reg) (g : GState) :
    regFree r g = some ((), plain (freeCode g.regs r), ⟨g.regs.release r, g.lbl⟩) := by
  unfold regFree
  rw [dtRegsetFree_eq]

lemma regFreeArgs_eq (g : GState) : regFreeArgs g =
    some ((), plain (argRegs.flatMap (freeCode g.regs)), ⟨g.regs.releaseAll argRegs, g.lbl⟩) := by
  unfold regFreeArgs dtRegsetFreeArgs
  rw [freeAll_eq (by decide)]

lemma regAlloc_eq (g : GState) :
    regAlloc g = g.regs.pick.map fun r => (r, plain (claimCode g.regs r), ⟨g.regs.claim r, g.lbl⟩) := by
  unfold regAlloc
  rw [dtRegsetAlloc_pick, Option.map_map]
  rfl

variable {r : Reg}

lemma regAlloc_of_pick (h : g.regs.pick = some r) :
    regAlloc g = some (r, plain (claimCode g.regs r), ⟨g.regs.claim r, g.lbl⟩) := by
  rw [regAlloc_eq, h]
  rfl

lemma regXallocArgs_eq (h : ∀ r ∈ argRegs, g.regs.spilled r = false) : regXallocArgs g =
    some ((), plain (argRegs.flatMap (claimCode g.regs)), ⟨g.regs.claimAll argRegs, g.lbl⟩) := by
  unfold regXallocArgs
  rw [dtRegsetXallocArgs_eq.2 ⟨h, rfl, rfl⟩]
  rfl

lemma regXallocUnchecked_eq (h : g.regs.spilled r = false) :
    regXallocUnchecked r g = some ((), plain (claimCode g.regs r), ⟨g.regs.claim r, g.lbl⟩) := by
  unfold regXallocUnchecked
  rw [dtRegsetXalloc_eq.2 ⟨h, rfl, rfl⟩]

lemma regXallocUnchecked_zero_pick {u : Unit} (h : regXallocUnchecked 0 g = some (u, c, g')) :
    g'.regs.pick = g.regs.pick := by
  cases hsp : g.regs.spilled 0 with
  | false =>
    rw [regXallocUnchecked_eq hsp] at h
    obtain ⟨-, rfl⟩ : _ ∧ _ := by simpa using h
    exact pick_claim_zero g.regs
  | true =>
    unfold regXallocUnchecked dtRegsetXalloc at h
    rw [hsp, g.regs.spilled_active 0 hsp] at h
    obtain ⟨-, rfl⟩ : _ ∧ _ := by simpa using h
    rfl

lemma regXallocUnchecked_shape (r : Reg) (g : GState) : ∃ (is : List CgInsn) (S : Regset),
    (∀ i ∈ is, i = dtCgSpillStore r) ∧ regXallocUnchecked r g = some ((), plain is, ⟨S, g.lbl⟩) := by
  cases h : g.regs.spilled r with
  | false =>
    refine ⟨_, _, fun i hi => ?_, regXallocUnchecked_eq h⟩
    unfold claimCode at hi
    split at hi
    · simpa using hi
    · cases hi
  | true =>
    refine ⟨[], g.regs, by simp, ?_⟩
    simp [regXallocUnchecked, dtRegsetXalloc, h, g.regs.spilled_active r h, plain]

@[simp] lemma regFree_bind :
    (regFree r >>= f) g = some (a, c, g') ↔
      ∃ c', f () ⟨g.regs.release r, g.lbl⟩ = some (a, c', g') ∧ plain (freeCode g.regs r) ++ c' = c :=
  Gen.bind_of_eq (regFree_eq r g)

@[simp] lemma regFreeArgs_bind :
    (regFreeArgs >>= f) g = some (a, c, g') ↔
      ∃ c', f () ⟨g.regs.releaseAll argRegs, g.lbl⟩ = some (a, c', g') ∧
        plain (argRegs.flatMap (freeCode g.regs)) ++ c' = c :=
  Gen.bind_of_eq (regFreeArgs_eq g)

@[simp] lemma regAlloc_bind {k : Reg → Gen α} :
    (regAlloc >>= k) g = some (a, c, g') ↔ ∃ r, g.regs.pick = some r ∧
      ∃ c', k r ⟨g.regs.claim r, g.lbl⟩ = some (a, c', g') ∧ plain (claimCode g.regs r) ++ c' = c := by
  cases hp : g.regs.pick with
  | none =>
    have hx : regAlloc g = none := by rw [regAlloc_eq, hp]; rfl
    simp [Gen.bind_of_none hx]
  | some q =>
    rw [Gen.bind_of_eq (regAlloc_of_pick hp)]
    simp

@[simp] lemma regXallocArgs_bind :
    (regXallocArgs >>= f) g = some (a, c, g') ↔ (∀ r ∈ argRegs, g.regs.spilled r = false) ∧
      ∃ c', f () ⟨g.regs.claimAll argRegs, g.lbl⟩ = some (a, c', g') ∧
        plain (argRegs.flatMap (claimCode g.regs)) ++ c' = c := by
  by_cases hsp : ∀ r ∈ argRegs, g.regs.spilled r = false
  · rw [Gen.bind_of_eq (regXallocArgs_eq hsp), and_iff_right hsp]
  · have hx : regXallocArgs g = none := by
      unfold regXallocArgs dtRegsetXallocArgs
      rw [xallocAll_eq_ite (by decide), if_neg hsp]
      rfl
    rw [Gen.bind_of_none hx]
    exact ⟨fun h => (Option.some_ne_none _ h.symm).elim, fun h => absurd h.1 hsp⟩

lemma regXallocUnchecked_bind {S : Regset} {lbl : ℕ} (h : S.spilled r = false) :
    (regXallocUnchecked r >>= f) ⟨S, lbl⟩ = some (a, c, g') ↔
      ∃ c', f () ⟨S.claim r, lbl⟩ = some (a, c', g') ∧ plain (claimCode S r) ++ c' = c :=
  Gen.bind_of_eq (regXallocUnchecked_eq h)

lemma regXallocUnchecked_bind_shape (h : (regXallocUnchecked r >>= f) g = some (a, c, g')) :
    ∃ (is : List CgInsn) (S : Regset) (c' : CgCode),
      (∀ i ∈ is, i = dtCgSpillStore r) ∧ f () ⟨S, g.lbl⟩ = some (a, c', g') ∧ plain is ++ c' = c := by
  obtain ⟨is, S, his, hx⟩ := regXallocUnchecked_shape r g
  obtain ⟨c', hf, hc⟩ := (Gen.bind_of_eq hx).1 h
  exact ⟨is, S, c', his, hf, hc⟩

lemma emitPatched_eq_some {i : α → CgInsn} {x : Gen α} :
    emitPatched i x g = some (a, c, g') ↔ ∃ c', x g = some (a, c', g') ∧ ⟨0, i a⟩ :: c' = c := by
  unfold emitPatched
  constructor
  · intro h
    obtain ⟨⟨b, c1, _⟩, hx, h⟩ := Option.map_eq_some_iff.1 h
    cases h
    exact ⟨c1, hx, rfl⟩
  · rintro ⟨_, hx, rfl⟩
    simp [hx]

end

/-! ## Shared pieces -/

/-- `DCTX_MST`, `DCTX_MEM`, `DCTX_SCRATCHMEM`, `DCTX_STRTAB`, `DCTX_GVARS` and `DCTX_LVARS`: members of the DTrace
context. -/
inductive DctxMember
  | mst
  | mem
  | scratchmem
  | strtab
  | gvars
  | lvars
  deriving DecidableEq, Repr

/-- Offset of a member in `dt_dctx_t`. -/
def DctxMember.ofs : DctxMember → ℤ
  | .mst => 16
  | .mem => 32
  | .scratchmem => 40
  | .strtab => 48
  | .gvars => 72
  | .lvars => 80

def dmstFault : ℤ := 40

/-- `dt_cg_access_dctx` with member `-1`, in a regular program. -/
def accessDctx (reg : Reg) : CgInsn := .load .dw reg fp dtStkDctx

/-- `dt_cg_access_dctx`, in a regular program. -/
def dtCgAccessDctx (reg : Reg) (member : DctxMember) : List CgInsn :=
  [accessDctx reg, .load .dw reg reg member.ofs]

/-- `DTRACEFLT_BADADDR`, `DTRACEFLT_DIVZERO`, `DTRACEFLT_NOSCRATCH`, `DTRACEFLT_BADSIZE` and `DTRACEFLT_BADINDEX`. -/
inductive Fault
  | badaddr
  | divzero
  | noscratch
  | badsize
  | badindex
  deriving DecidableEq, Repr

def Fault.code : Fault → ℕ
  | .badaddr => 1
  | .divzero => 4
  | .noscratch => 5
  | .badsize => 10
  | .badindex => 11

/-- `dt_cg_probe_error` with an immediate illegal value.  The assembler replaces the `-1` by the position of the
instruction. -/
def dtCgProbeError (fault : Fault) (ill : BitVec 32) : List CgInsn :=
  [.movImm 4 ill, accessDctx 1, .movImm 2 immNegOne, .aluImm .add 2 (imm 3), .movImm 3 (imm fault.code),
   .callFunc .dtProbeError, .exit]

def dtCgCheckNotnull (reg : Reg) : Gen Unit := do
  let lblNotnull ← dtIrlistLabel
  emit (.branchImm .jne reg (imm 0) lblNotnull)
  emits (dtCgProbeError .badaddr (imm 0))
  emitl lblNotnull .nop

end DTrace.Cg
