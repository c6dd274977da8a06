import DTrace.Lib.Word

/-!
# Temporary strings

The pool of temporary strings (tstrings) of the code generator: the `strsize` option, the size a tstring is meant to have
(`DT_TSTRING_SIZE`), the storage area in `dctx->mem`, the offsets `dt_cg_tstring_reset` sets up, and the functions that
hand slots out and take them back.

* `dtOptStrsize_eq_ok` — the option values that are accepted;
* `reset_disjoint_iff`, `reset_inside_iff` — when the slots are disjoint, and when they are inside the storage area;
* `tstring_slots_disjoint_iff` — both hold exactly if the slots were laid out at the distance of the size they have now;
* `Reachable.xalloc_fresh` — for those sizes, a tstring handed out never overlaps one that is in use.
-/

namespace DTrace.Cg

open Lib BitVec

/-- `dtrace_optval_t`. -/
abbrev Optval := BitVec 64

/-- The error codes setting the option can end with. -/
inductive OptErr
  | badoptval
  | overflow
  deriving DecidableEq, Repr

/-- `sizeof(DT_NULL_STRING)`, a `uint16_t`. -/
def sizeofNullString : Optval := 2

def uintMax : Optval := 0xffffffff

/-- `dt_opt_strsize`, on the value the option text was parsed to.  The update of the type of strings is left out. -/
def dtOptStrsize (val : Optval) : Except OptErr Optval :=
  if val < sizeofNullString then .error .badoptval
  else if val > uintMax then .error .overflow
  else .ok val

def dtTstringSlots : ℕ := 6

def dtTstringSize (strsize : Optval) : Optval :=
  let sz := p2Roundup (strsize + 3) 8#64
  if sz > 72 then sz else 72

def dmemTstrSz (strsize : Optval) : Optval := BitVec.ofNat 64 dtTstringSlots * dtTstringSize strsize

/-- `dt_tstring_t`. -/
structure DtTstring where
  offset : Optval
  inUse : Bool
  deriving DecidableEq, Repr

/-- `dt_cg_tstring_reset`: the pool is set up once per handle; later calls only assert that nothing is in use. -/
def dtCgTstringReset (strsize : Optval) : Option (List DtTstring) → Option (List DtTstring)
  | none =>
    let size := roundup (strsize + 1) 8#64
    some ((List.range dtTstringSlots).map fun i => ⟨BitVec.ofNat 64 i * size, false⟩)
  | some ts => if ts.all fun t => !t.inUse then some ts else none

/-- `dt_cg_tstring_xalloc`: the offset of the first free slot; `none` where the assertion fails. -/
def dtCgTstringXalloc : List DtTstring → Option (Optval × List DtTstring)
  | [] => none
  | t :: ts =>
    if t.inUse then (dtCgTstringXalloc ts).map fun (o, ts') => (o, t :: ts')
    else some (t.offset, { t with inUse := true } :: ts)

/-- `dt_cg_tstring_xfree`: release the first slot at that offset; `none` where an assertion fails. -/
def dtCgTstringXfree (offset : Optval) : List DtTstring → Option (List DtTstring)
  | [] => none
  | t :: ts =>
    if t.offset = offset then
      if t.inUse then some ({ t with inUse := false } :: ts) else none
    else (dtCgTstringXfree offset ts).map (t :: ·)

/-- The bytes a subroutine may use of a slot, as offsets from `dctx->mem`. -/
def DtTstring.region (strsize : Optval) (t : DtTstring) : Set ℕ :=
  Set.Ico t.offset.toNat (t.offset.toNat + (dtTstringSize strsize).toNat)

def SlotsDisjoint (strsize : Optval) (ts : List DtTstring) : Prop :=
  ts.Pairwise fun a b => Disjoint (a.region strsize) (b.region strsize)

def SlotsInside (strsize : Optval) (ts : List DtTstring) : Prop :=
  ∀ t ∈ ts, t.region strsize ⊆ Set.Ico 0 (dmemTstrSz strsize).toNat

/-! ## Sizes of accepted options -/

variable {strsize : Optval}

theorem dtOptStrsize_eq_ok {val : Optval} :
    dtOptStrsize val = .ok strsize ↔ strsize = val ∧ 2 ≤ val.toNat ∧ val.toNat < 2 ^ 32 := by
  have h2 : val < sizeofNullString ↔ val.toNat < 2 := by simp [lt_def, sizeofNullString]
  have h32 : val > uintMax ↔ 2 ^ 32 ≤ val.toNat := by
    rw [gt_iff_lt, lt_def, show uintMax.toNat = 2 ^ 32 - 1 from rfl]
    omega
  simp only [dtOptStrsize, h2, h32]
  split
  · simp; omega
  · split
    · simp; omega
    · simp only [Except.ok.injEq]
      constructor
      · rintro rfl
        exact ⟨rfl, by omega, by omega⟩
      · exact fun h => h.1.symm

variable {ts : List DtTstring}

section

lemma toNat_stride (h : strsize.toNat < 2 ^ 32) : (roundup (strsize + 1) 8#64).toNat = (strsize.toNat + 8) / 8 * 8 := by
  have h1 : (strsize + 1).toNat = strsize.toNat + 1 := by
    rw [toNat_add, show (1 : Optval).toNat = 1 from rfl]
    omega
  rw [toNat_roundup_eight (by omega), h1]

lemma toNat_dtTstringSize (h : strsize.toNat < 2 ^ 32) :
    (dtTstringSize strsize).toNat = max ((strsize.toNat + 10) / 8 * 8) 72 := by
  have h3 : (strsize + 3).toNat = strsize.toNat + 3 := by
    rw [toNat_add, show (3 : Optval).toNat = 3 from rfl]
    omega
  have hp := toNat_p2Roundup (x := strsize + 3) (by omega)
  have h72 : (72 : Optval).toNat = 72 := rfl
  unfold dtTstringSize
  simp only [GT.gt, lt_def, hp, h72]
  split
  · rw [hp]; omega
  · rw [h72]; omega

lemma toNat_dmemTstrSz (h : strsize.toNat < 2 ^ 32) :
    (dmemTstrSz strsize).toNat = dtTstringSlots * (dtTstringSize strsize).toNat := by
  have := toNat_dtTstringSize h
  have h6 : (BitVec.ofNat 64 dtTstringSlots).toNat = 6 := rfl
  rw [dmemTstrSz, toNat_mul, h6, dtTstringSlots]
  omega

/-! ## The slots -/

lemma reset_offsets (h : strsize.toNat < 2 ^ 32) (hts : dtCgTstringReset strsize none = some ts) :
    ts.map (fun t => t.offset.toNat) =
      (List.range dtTstringSlots).map (· * (roundup (strsize + 1) 8#64).toNat) := by
  have hs := toNat_stride h
  simp only [dtCgTstringReset, Option.some.injEq] at hts
  rw [← hts, List.map_map]
  apply List.map_congr_left
  intro i hi
  have hi6 : i < 6 := List.mem_range.1 hi
  have hlt : i * ((strsize.toNat + 8) / 8 * 8) ≤ 6 * ((strsize.toNat + 8) / 8 * 8) := Nat.mul_le_mul_right _ (by omega)
  simp only [Function.comp_apply, toNat_mul, toNat_ofNat, hs]
  rw [Nat.mod_eq_of_lt (show i < 2 ^ 64 by omega)]
  exact Nat.mod_eq_of_lt (by omega)

lemma slotsDisjoint_iff_offsets : SlotsDisjoint strsize ts ↔
    (ts.map fun t => t.offset.toNat).Pairwise fun a b =>
      Disjoint (Set.Ico a (a + (dtTstringSize strsize).toNat)) (Set.Ico b (b + (dtTstringSize strsize).toNat)) := by
  rw [List.pairwise_map]
  rfl

variable {laid : Optval} (hlaid : laid.toNat < 2 ^ 32) (h : strsize.toNat < 2 ^ 32)
  (hts : dtCgTstringReset laid none = some ts)
include hlaid h hts

lemma reset_disjoint_iff : SlotsDisjoint strsize ts ↔
    max ((strsize.toNat + 10) / 8 * 8) 72 ≤ (laid.toNat + 8) / 8 * 8 := by
  have hsize := toNat_dtTstringSize h
  rw [slotsDisjoint_iff_offsets, reset_offsets hlaid hts, strided_disjoint_iff (by decide) (by omega), toNat_stride hlaid,
    hsize]

lemma reset_inside_iff : SlotsInside strsize ts ↔
    (laid.toNat + 8) / 8 * 8 ≤ max ((strsize.toNat + 10) / 8 * 8) 72 := by
  have hsize := toNat_dtTstringSize h
  have hslots : SlotsInside strsize ts ↔
      ∀ o ∈ ts.map fun t => t.offset.toNat, o + (dtTstringSize strsize).toNat ≤ (dmemTstrSz strsize).toNat := by
    rw [List.forall_mem_map]
    refine forall₂_congr fun t _ => (Set.Ico_subset_Ico_iff ?_).trans (by simp)
    omega
  rw [hslots, reset_offsets hlaid hts, List.forall_mem_map, toNat_stride hlaid, toNat_dmemTstrSz h, dtTstringSlots, ← hsize]
  constructor
  · intro hin
    have hlast := hin 5 (by decide)
    omega
  · intro hle i hi
    have hi : i < 6 := List.mem_range.1 hi
    have := Nat.mul_le_mul (show i ≤ 5 by omega) hle
    omega

end

/-- The slots are laid out when code is generated for the first time, and stay so if `strsize` is changed.  They are
pairwise disjoint and inside the area exactly if what they are laid out for, with its final 0 and rounded up to a multiple
of 8, is the size of a slot. -/
theorem tstring_slots_disjoint_iff {val val' laid strsize : Optval} {ts : List DtTstring} (hlaid : dtOptStrsize val = .ok laid)
    (hopt : dtOptStrsize val' = .ok strsize) (hts : dtCgTstringReset laid none = some ts) :
    dtCgTstringReset strsize (some ts) = some ts ∧ (SlotsDisjoint strsize ts ∧ SlotsInside strsize ts ↔
      max ((strsize.toNat + 10) / 8 * 8) 72 = (laid.toNat + 8) / 8 * 8) := by
  obtain ⟨rfl, -, hlaid⟩ := dtOptStrsize_eq_ok.1 hlaid
  obtain ⟨rfl, -, h32⟩ := dtOptStrsize_eq_ok.1 hopt
  rw [reset_disjoint_iff hlaid h32 hts, reset_inside_iff hlaid h32 hts, ← le_antisymm_iff]
  obtain rfl := Option.some.inj hts
  exact ⟨by simp [dtCgTstringReset], Iff.rfl⟩

/-- The default of 256 bytes. -/
theorem tstring_slots_default : ∃ ts, dtOptStrsize 256 = .ok 256 ∧ dtCgTstringReset 256 none = some ts ∧
    SlotsDisjoint 256 ts ∧ SlotsInside 256 ts :=
  ⟨_, rfl, rfl, (@tstring_slots_disjoint_iff 256 256 256 256 _ rfl rfl rfl).2.2 (by decide)⟩

/-- With `strsize` 10 the second slot starts 16 bytes after the first, inside the 72 bytes of the first. -/
theorem tstring_slots_overlap_ten : ∃ ts, dtOptStrsize 10 = .ok 10 ∧ dtCgTstringReset 10 none = some ts ∧
    ¬ (SlotsDisjoint 10 ts ∧ SlotsInside 10 ts) := by
  refine ⟨_, rfl, rfl, fun h => ?_⟩
  have := (reset_disjoint_iff (by decide : (10 : Optval).toNat < 2 ^ 32) (by decide) rfl).1 h.1
  exact absurd this (by decide)

/-! ## Handing slots out and taking them back -/

/-- The pools that arise from the initial one by allocating and releasing. -/
inductive Reachable (strsize : Optval) : List DtTstring → Prop
  | reset {ts : List DtTstring} : dtCgTstringReset strsize none = some ts → Reachable strsize ts
  | xalloc {ts ts' : List DtTstring} {o : Optval} : Reachable strsize ts → dtCgTstringXalloc ts = some (o, ts') →
      Reachable strsize ts'
  | xfree {ts ts' : List DtTstring} {o : Optval} : Reachable strsize ts → dtCgTstringXfree o ts = some ts' →
      Reachable strsize ts'

variable {ts' : List DtTstring} {o : Optval}

lemma xalloc_split (h : dtCgTstringXalloc ts = some (o, ts')) :
    ∃ pre post, ts = pre ++ ⟨o, false⟩ :: post ∧ ts' = pre ++ ⟨o, true⟩ :: post := by
  induction ts generalizing ts' with
  | nil => cases h
  | cons t ts ih =>
    obtain ⟨ofs, u⟩ := t
    cases u with
    | false =>
      obtain ⟨rfl, rfl⟩ := h
      exact ⟨[], ts, rfl, rfl⟩
    | true =>
      simp only [dtCgTstringXalloc, if_true, Option.map_eq_some_iff, Prod.exists, Prod.mk.injEq] at h
      obtain ⟨_, _, hus, rfl, rfl⟩ := h
      obtain ⟨pre, post, rfl, rfl⟩ := ih hus
      exact ⟨⟨ofs, true⟩ :: pre, post, rfl, rfl⟩

lemma xfree_offsets (h : dtCgTstringXfree o ts = some ts') : ts'.map DtTstring.offset = ts.map DtTstring.offset := by
  induction ts generalizing ts' with
  | nil => cases h
  | cons t ts ih =>
    unfold dtCgTstringXfree at h
    split at h
    · split at h
      · cases h; rfl
      · cases h
    · obtain ⟨_, hus, rfl⟩ := Option.map_eq_some_iff.1 h
      simp [ih hus]

lemma Reachable.disjoint (h : Reachable strsize ts)
    (h32 : strsize.toNat < 2 ^ 32) (hgood : 64 ≤ strsize.toNat ∧ strsize.toNat % 8 < 6) : SlotsDisjoint strsize ts := by
  have hmap : ∀ us : List DtTstring, SlotsDisjoint strsize us ↔ (us.map DtTstring.offset).Pairwise fun a b =>
      Disjoint (DtTstring.region strsize ⟨a, true⟩) (DtTstring.region strsize ⟨b, true⟩) := fun us => by
    rw [List.pairwise_map]
    rfl
  induction h with
  | reset hts => exact (reset_disjoint_iff h32 h32 hts).2 (by omega)
  | xalloc _ ha ih =>
    obtain ⟨_, _, rfl, rfl⟩ := xalloc_split ha
    rw [hmap] at ih ⊢
    simpa using ih
  | xfree _ hf ih => rw [hmap] at ih ⊢; rwa [xfree_offsets hf]

/-- A newly allocated tstring overlaps none that is in use. -/
theorem Reachable.xalloc_fresh {val : Optval} (hopt : dtOptStrsize val = .ok strsize)
    (hgood : 64 ≤ strsize.toNat ∧ strsize.toNat % 8 < 6) (h : Reachable strsize ts)
    (ha : dtCgTstringXalloc ts = some (o, ts')) :
    ∀ t ∈ ts, t.inUse → Disjoint (t.region strsize) (DtTstring.region strsize ⟨o, true⟩) := by
  obtain ⟨rfl, -, h32⟩ := dtOptStrsize_eq_ok.1 hopt
  have hd := (Reachable.xalloc h ha).disjoint h32 hgood
  obtain ⟨_, _, rfl, rfl⟩ := xalloc_split ha
  obtain ⟨-, hpost, hpre⟩ := List.pairwise_append.1 hd
  intro t ht hu
  rcases List.mem_append.1 ht with ht | ht
  · exact hpre t ht _ List.mem_cons_self
  · rcases List.mem_cons.1 ht with rfl | ht
    · cases hu
    · exact ((List.pairwise_cons.1 hpost).1 t ht).symm

/-- The second of the default pool. -/
theorem xalloc_fresh_second : ∃ ts ts' ts'' o o', dtCgTstringReset 256 none = some ts ∧
    dtCgTstringXalloc ts = some (o, ts') ∧ dtCgTstringXalloc ts' = some (o', ts'') ∧
    ∀ t ∈ ts', t.inUse → Disjoint (t.region 256) (DtTstring.region 256 ⟨o', true⟩) :=
  ⟨_, _, _, _, _, rfl, rfl, rfl, Reachable.xalloc_fresh (show dtOptStrsize 256 = .ok 256 from rfl) (by decide)
    (.xalloc (.reset rfl) rfl) rfl⟩

end DTrace.Cg
