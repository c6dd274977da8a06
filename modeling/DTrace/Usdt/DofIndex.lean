import DTrace.Usdt.DofReloc
import DTrace.Usdt.DofUnique

/-!
# Index checks

The entries of a probe in the sections for offsets, is-enabled offsets and arguments.  `validate_provider` adds and
multiplies indices with 32 bits, and it takes the size of an is-enabled offset from the section.  `emit_provider` reads
the records of the probes again, and by then `validate_probe` has sorted the offsets of the probes before in place.

* `Inside` — the entries of a probe that is emitted are in their sections;
* `NoWrap` — nothing has been lost in the checks of a probe;
* `Regular` — no section is huge, and the sections that are sorted have no record of a probe in them;
* `index_checks` — then what is emitted is inside if nothing has been lost, and only if, with entries of four bytes.
-/

namespace DTrace.Usdt.Dof

open Lib Exec List

section

variable {ctx : Ctx} {mem : Bytes} {secs : Secs} {vers prb : ℕ}

/-- `cnt` entries of `width` bytes from `first` on are in the section with header `sec`. -/
def InSection (ctx : Ctx) (mem : Bytes) (sec first cnt width : ℕ) : Prop :=
  ∀ k < cnt, fld ctx mem (sec + 16) 8 ≤ first + width * k ∧
    first + width * (k + 1) ≤ fld ctx mem (sec + 16) 8 + fld ctx mem (sec + 24) 8

/-- The entries of a probe that are read when it is emitted are in the sections that have been validated. -/
structure Inside (ctx : Ctx) (mem : Bytes) (secs : Secs) (dhpb : ProbeDesc) : Prop where
  offs : InSection ctx mem secs.off dhpb.offs dhpb.noffs 4
  enoffs : 0 < dhpb.nenoffs → ∃ enoff, secs.enoff = some enoff ∧
    InSection ctx mem enoff dhpb.enoffs dhpb.nenoffs 4
  args : InSection ctx mem secs.arg dhpb.args dhpb.xargc 1

/-- The offsets end below 2^32; the entry size of the is-enabled offsets is large enough, and with this size they end
below 2^32.  They are read from version 3 on. -/
structure NoWrap (ctx : Ctx) (mem : Bytes) (secs : Secs) (vers prb : ℕ) : Prop where
  offs : 0 < fld ctx mem (prb + 34) 2 → 4 * (fld ctx mem (prb + 28) 4 + fld ctx mem (prb + 34) 2) < 2 ^ 32
  enoffs : 3 ≤ vers → ∀ enoff, secs.enoff = some enoff → 0 < fld ctx mem (prb + 40) 2 →
    4 ≤ fld ctx mem (enoff + 12) 4 ∧
      (fld ctx mem (prb + 36) 4 + fld ctx mem (prb + 40) 2) * fld ctx mem (enoff + 12) 4 < 2 ^ 32

def nprobes (ctx : Ctx) (mem : Bytes) (secs : Secs) : ℕ :=
  fld ctx mem (secs.prb + 24) 8 / fld ctx mem (secs.prb + 12) 4

/-- Indices and numbers of entries in the record of a probe, and what says where the records are. -/
def recordFields : List (ℕ × ℕ) := [(24, 4), (28, 4), (33, 1), (34, 2), (36, 4), (40, 2)]
def tableFields : List (ℕ × ℕ) := [(12, 4), (16, 8)]

/-- The bytes of these fields. -/
def Recorded (ctx : Ctx) (mem : Bytes) (secs : Secs) (a : ℕ) : Prop :=
  (∃ f ∈ tableFields, ctx.In (secs.prb + f.1) f.2 a) ∨
    ∃ j < nprobes ctx mem secs, ∃ f ∈ recordFields, ctx.In (prbAt ctx mem secs j + f.1) f.2 a

structure Regular (ctx : Ctx) (mem : Bytes) (secs : Secs) : Prop where
  memory : mem.length ≤ 2 ^ 64
  small : ∀ sec ∈ secs.prb :: secs.off :: secs.enoff.toList, fld ctx mem (sec + 24) 8 < 2 ^ 32
  apart : ∀ sec ∈ secs.off :: secs.enoff.toList, ∀ k < fld ctx mem (sec + 24) 8,
    ¬Recorded ctx mem secs (ctx.at (fld ctx mem (sec + 16) 8 + k))

lemma room_of_fits {idx cnt entsize size : ℕ} (hfits : fits idx cnt entsize size)
    (hwrap : (idx + cnt) * entsize < 2 ^ 32) (hent : 0 < entsize) : (idx + cnt) * entsize ≤ size := by
  have hsum : idx + cnt < 2 ^ 32 := (Nat.le_mul_of_pos_right _ hent).trans_lt hwrap
  obtain ⟨-, hle⟩ := of_decide_eq_true hfits
  rwa [Nat.mod_eq_of_lt hsum, Nat.mod_eq_of_lt hwrap] at hle

lemma inSection_of_room {sec idx cnt width : ℕ} (h : 0 < cnt → width * (idx + cnt) ≤ fld ctx mem (sec + 24) 8) :
    InSection ctx mem sec (fld ctx mem (sec + 16) 8 + width * idx) cnt width := by
  intro k hk
  have hle := (Nat.mul_le_mul_left width (show idx + (k + 1) ≤ idx + cnt by omega)).trans (h (by omega))
  rw [Nat.mul_add] at hle
  omega

lemma InSection.room {sec idx cnt width : ℕ}
    (h : InSection ctx mem sec (fld ctx mem (sec + 16) 8 + width * idx) cnt width) (hcnt : 0 < cnt) :
    width * (idx + cnt) ≤ fld ctx mem (sec + 24) 8 := by
  obtain ⟨-, hle⟩ := h (cnt - 1) (by omega)
  rw [Nat.sub_add_cancel hcnt] at hle
  rw [Nat.mul_add]
  omega

/-! ## The parts of a provider -/

/-- Where the entries are that emission reads. -/
structure Parts.Of (ctx : Ctx) (mem : Bytes) (secs : Secs) (vers : ℕ) (parts : Parts) : Prop where
  off : parts.off = fld ctx mem (secs.off + 16) 8
  arg : parts.arg = fld ctx mem (secs.arg + 16) 8
  enoff : parts.enoff = if vers < 3 then none else secs.enoff.map fun enoff => fld ctx mem (enoff + 16) 8

variable {s s' : St} {sec n : ℕ} {parts : Parts}

lemma Parts.Of.enoff_cases (h : parts.Of ctx mem secs vers) : parts.enoff = none ∨
    ∃ enoff, 3 ≤ vers ∧ secs.enoff = some enoff ∧ parts.enoff = some (fld ctx mem (enoff + 16) 8) := by
  rw [h.enoff]
  split
  · exact .inl rfl
  · cases secs.enoff with
    | none => exact .inl rfl
    | some enoff => exact .inr ⟨enoff, by omega, rfl, rfl⟩

lemma emitHeader_some (h : emitHeader ctx sec s = (some (prb, parts, n), s')) :
    prb = (provSecs ctx s.mem sec).prb ∧ parts.Of ctx s.mem (provSecs ctx s.mem sec) (fld ctx s.mem 6 1) ∧
      n = nprobes ctx s.mem (provSecs ctx s.mem sec) ∧ s'.mem = s.mem := by
  simp only [emitHeader, dofsOffset, dofpvStrtab, dofpvProbes, dofpvPrargs, dofpvProffs, version, num_bind,
    secAt_bind] at h
  obtain ⟨-, -, -, -, -, -, -, -, -, -, -, -, -, -, -, -, -, h⟩ := h
  simp only [ite_eq_some, dofpvPrenoffs, num_bind, secAt_bind, pure_bind, dofpvName] at h
  obtain ⟨hvers, -, h⟩ | ⟨hvers, -, ⟨hnone, -, h⟩ | ⟨hnone, -, -, -, -, h⟩⟩ := h
  all_goals
    obtain ⟨_, _, hname, h⟩ := bind_eq_some.1 h
    obtain ⟨-, rfl⟩ := readStr_eq_some.1 hname
    simp only [dofsSize, dofsEntsize, num_bind, emit_bind, pure_eq_some, Prod.mk.injEq] at h
    obtain ⟨-, -, ⟨rfl, rfl, rfl⟩, rfl⟩ := h
    refine ⟨by simp only [provSecs], ⟨by simp only [provSecs], by simp only [provSecs], ?_⟩,
      by simp only [nprobes, provSecs], rfl⟩
  · rw [if_pos hvers]
  · rw [if_neg hvers, provSecs, if_pos (.inr hnone), Option.map_none]
  · rw [if_neg hvers, provSecs, if_neg (not_or.2 ⟨by omega, hnone⟩), Option.map_some]

/-! ## Descriptions -/

/-- What a description of a probe has from the record at `prb`. -/
structure Describes (ctx : Ctx) (mem : Bytes) (parts : Parts) (prb : ℕ) (dhpb : ProbeDesc) : Prop where
  offs : dhpb.offs = parts.off + 4 * fld ctx mem (prb + 28) 4
  noffs : dhpb.noffs = fld ctx mem (prb + 34) 2
  enoffs : ∀ enoff, parts.enoff = some enoff →
    dhpb.enoffs = enoff + 4 * fld ctx mem (prb + 36) 4 ∧ dhpb.nenoffs = fld ctx mem (prb + 40) 2
  nenoffs : parts.enoff = none → dhpb.nenoffs = 0
  args : dhpb.args = parts.arg + fld ctx mem (prb + 24) 4
  xargc : dhpb.xargc = fld ctx mem (prb + 33) 1

variable {dhpb : ProbeDesc} {i : ℕ}

lemma probeDesc_some (h : probeDesc ctx parts prb s = (some dhpb, s')) : Describes ctx s.mem parts prb dhpb := by
  simp only [probeDesc, dofprFunc, dofprName, dofprAddr, dofprOffidx, dofprNoffs, num_bind] at h
  obtain ⟨-, -, -, -, -, h⟩ := h
  cases henoff : parts.enoff with
  | none =>
    simp only [henoff, pure_bind, dofprArgidx, dofprNargc, dofprXargc, dofprNargv, dofprXargv, num_bind,
      pure_eq_some] at h
    obtain ⟨-, -, -, -, -, rfl, -⟩ := h
    exact ⟨rfl, rfl, fun enoff hsome => by simp [henoff] at hsome, fun _ => rfl, rfl, rfl⟩
  | some enoff =>
    simp only [henoff, pure_bind, dofprEnoffidx, dofprNenoffs, dofprArgidx, dofprNargc, dofprXargc, dofprNargv,
      dofprXargv, num_bind, pure_eq_some] at h
    obtain ⟨-, -, -, -, -, -, -, rfl, -⟩ := h
    refine ⟨rfl, rfl, fun enoff' hsome => ?_, fun hnone => by simp [henoff] at hnone, rfl, rfl⟩
    rw [henoff] at hsome
    cases hsome
    exact ⟨rfl, rfl⟩

lemma nextProbe_some (h : nextProbe ctx secs.prb parts i s = (some dhpb, s')) :
    Describes ctx s.mem parts (prbAt ctx s.mem secs i) dhpb := by
  simp only [nextProbe, dofsOffset, dofsEntsize, num_bind] at h
  have hd := probeDesc_some h.2.2
  exact hd

/-- A record that is still there is described as it has been validated. -/
lemma Agree.describes (h : Agree (Recorded ctx mem secs) mem s.mem) (hi : i < nprobes ctx mem secs)
    (hd : Describes ctx s.mem parts (prbAt ctx s.mem secs i) dhpb) :
    Describes ctx mem parts (prbAt ctx mem secs i) dhpb := by
  have htable : ∀ f ∈ tableFields,
      Dof.fld ctx s.mem (secs.prb + f.1) f.2 = Dof.fld ctx mem (secs.prb + f.1) f.2 :=
    fun f hf => h.fld fun a ha => .inl ⟨f, hf, ha⟩
  have hat : prbAt ctx s.mem secs i = prbAt ctx mem secs i := by
    rw [prbAt, prbAt, htable (12, 4) (by decide), htable (16, 8) (by decide)]
  have hfield : ∀ f ∈ recordFields, Dof.fld ctx s.mem (prbAt ctx mem secs i + f.1) f.2 =
      Dof.fld ctx mem (prbAt ctx mem secs i + f.1) f.2 :=
    fun f hf => h.fld fun a ha => .inr ⟨i, hi, f, hf, ha⟩
  rw [hat] at hd
  refine ⟨?_, ?_, fun enoff hsome => ?_, hd.nenoffs, ?_, ?_⟩
  · rw [hd.offs, hfield (28, 4) (by decide)]
  · rw [hd.noffs, hfield (34, 2) (by decide)]
  · rw [(hd.enoffs enoff hsome).1, (hd.enoffs enoff hsome).2, hfield (36, 4) (by decide), hfield (40, 2) (by decide)]
    exact ⟨rfl, rfl⟩
  · rw [hd.args, hfield (24, 4) (by decide)]
  · rw [hd.xargc, hfield (33, 1) (by decide)]

lemma Describes.inside (hd : Describes ctx mem parts prb dhpb) (hparts : parts.Of ctx mem secs vers)
    (hok : ProbeOk ctx mem secs vers prb) (hoff : fld ctx mem (secs.off + 12) 4 = 4)
    (harg : fld ctx mem (secs.arg + 12) 4 = 1) (hwrap : NoWrap ctx mem secs vers prb) : Inside ctx mem secs dhpb := by
  refine ⟨?_, fun hpos => ?_, ?_⟩
  · rw [hd.offs, hd.noffs, hparts.off]
    refine inSection_of_room fun hcnt => ?_
    have hfits := hok.offs
    rw [hoff] at hfits
    rw [Nat.mul_comm]
    exact room_of_fits hfits (by rw [Nat.mul_comm]; exact hwrap.offs hcnt) (by decide)
  · -- without a section there are no entries
    rcases hparts.enoff_cases with hnone | ⟨enoff, hvers, henoff, hpart⟩
    · rw [hd.nenoffs hnone] at hpos
      omega
    obtain ⟨hfirst, hcnt⟩ := hd.enoffs _ hpart
    rw [hcnt] at hpos
    refine ⟨enoff, henoff, ?_⟩
    rw [hfirst, hcnt]
    obtain ⟨hent, hlt⟩ := hwrap.enoffs hvers enoff henoff hpos
    have hle := room_of_fits (hok.enoffs (by omega) enoff henoff) hlt (by omega)
    refine inSection_of_room fun _ => ?_
    -- an entry takes no more than the size that the section states
    rw [Nat.mul_comm]
    exact (Nat.mul_le_mul_left _ hent).trans hle
  · rw [hd.args, hd.xargc, hparts.arg, ← Nat.one_mul (fld ctx mem (prb + 24) 4)]
    refine inSection_of_room fun _ => ?_
    have hfits := hok.args
    rw [harg] at hfits
    -- the sum of the index and the number of arguments must not wrap, and then it does not
    have hcnt := fld_lt ctx mem (prb + 33) 1
    obtain ⟨hle, hsize⟩ := of_decide_eq_true hfits
    omega

lemma Describes.noWrap (hd : Describes ctx mem parts prb dhpb) (hparts : parts.Of ctx mem secs vers)
    (hreg : Regular ctx mem secs) (hfour : ∀ enoff, secs.enoff = some enoff → fld ctx mem (enoff + 12) 4 = 4)
    (hin : Inside ctx mem secs dhpb) : NoWrap ctx mem secs vers prb := by
  refine ⟨fun hcnt => ?_, fun hvers enoff henoff hcnt => ?_⟩
  · have hoffs := hin.offs
    rw [hd.offs, hd.noffs, hparts.off] at hoffs
    exact (hoffs.room hcnt).trans_lt (hreg.small _ (by simp))
  · have hpart : parts.enoff = some (fld ctx mem (enoff + 16) 8) := by
      rw [hparts.enoff, if_neg (by omega), henoff, Option.map_some]
    obtain ⟨hfirst, hnum⟩ := hd.enoffs _ hpart
    obtain ⟨enoff', henoff', hsec⟩ := hin.enoffs (by rwa [hnum])
    cases henoff.symm.trans henoff'
    rw [hfirst, hnum] at hsec
    rw [hfour enoff henoff, Nat.mul_comm]
    exact ⟨le_rfl, (hsec.room hcnt).trans_lt (hreg.small _ (by simp [henoff]))⟩

end

/-! ## Emission -/

section

variable {ctx : Ctx} {q : Qsort} {A : ℕ → Prop} {m : Bytes} {s s' : St} {x n : ℕ} {base : BitVec 64} {dhpb : ProbeDesc}

lemma length_wordBytes (ws : List (BitVec 32)) : (wordBytes ws).length = 4 * ws.length := by
  induction ws with
  | nil => rfl
  | cons w ws ih =>
    rw [wordBytes, flatMap_cons, length_append, Bytes.length_ofNat, ← wordBytes, ih, length_cons]
    omega

lemma Agree.sortUnique {b : Bool} {fmt : String} (h : Agree A m s.mem)
    (hrun : sortUnique ctx q base x n fmt s = (some b, s'))
    (hapart : ctx.Mapped m x (4 * n) → ∀ a, A a → ¬ctx.In x (4 * n) a) : Agree A m s'.mem := by
  rcases ite_eq_some.1 hrun with ⟨-, hrun⟩ | ⟨-, hrun⟩
  · cases hrun
    exact h
  · obtain ⟨ws, s1, hws, hrun⟩ := bind_eq_some.1 hrun
    obtain ⟨_, s2, hwrite, hrun⟩ := bind_eq_some.1 hrun
    have hm1 := (words_same hws).mem
    have hlen : (wordBytes (q.sort ws)).length = 4 * n := by
      rw [length_wordBytes, (q.perm ws).length_eq, length_words hws]
    obtain ⟨hle, hm2, -⟩ := write_some hwrite
    rw [hm1, hlen] at hle
    have hkeep : Agree A m s2.mem := by
      rw [hm2, hm1]
      refine h.patch (by rwa [hlen]) fun a ha => ?_
      rw [hlen]
      exact hapart (by rwa [Ctx.Mapped, ← h.length]) a ha
    cases hfirst : firstNotAbove base 1 (q.sort ws) with
    | none =>
      rw [hfirst] at hrun
      cases hrun
      exact hkeep
    | some p =>
      simp only [hfirst, emit_bind, pure_eq_some] at hrun
      obtain ⟨-, rfl⟩ := hrun
      exact hkeep

lemma emitTps_mem {isEnabled : Bool} (h : emitTps ctx base isEnabled n x s = (some (), s')) : s'.mem = s.mem := by
  induction n generalizing x s with
  | zero =>
    cases h
    rfl
  | succ n ih =>
    simp only [emitTps, num_bind, emit_bind] at h
    have hrest := ih h.2
    exact hrest

lemma emitArgs_mem (h : emitArgs ctx dhpb s = (some (), s')) : s'.mem = s.mem := by
  rcases ite_eq_some.1 h with ⟨-, h⟩ | ⟨-, h⟩
  · obtain ⟨_, _, hnargs, h⟩ := bind_eq_some.1 h
    have hm1 := (strings_same hnargs).mem
    rcases ite_eq_some.1 h with ⟨-, h⟩ | ⟨-, h⟩
    · obtain ⟨_, _, hxargs, h⟩ := bind_eq_some.1 h
      have hm2 := (strings_same hxargs).mem
      rw [emit_bind] at h
      obtain ⟨_, _, hmap, h⟩ := bind_eq_some.1 h
      obtain ⟨-, -, rfl⟩ := read_eq_some.1 hmap
      cases h
      exact hm2.trans hm1
    · cases h
      exact hm1
  · cases h
    rfl

/-- Emitting a probe changes nothing but its offsets. -/
lemma Agree.emitProbe (h : Agree A m s.mem) (hrun : emitProbe ctx q dhpb s = (some (), s'))
    (hoffs : ctx.Mapped m dhpb.offs (4 * dhpb.noffs) → ∀ a, A a → ¬ctx.In dhpb.offs (4 * dhpb.noffs) a)
    (henoffs : ctx.Mapped m dhpb.enoffs (4 * dhpb.nenoffs) → ∀ a, A a → ¬ctx.In dhpb.enoffs (4 * dhpb.nenoffs) a) :
    Agree A m s'.mem := by
  obtain ⟨b, s1, hvalid, hrun⟩ := bind_eq_some.1 hrun
  have hkeep : Agree A m s1.mem := by
    obtain ⟨b1, s2, hfirst, hvalid⟩ := bind_eq_some.1 hvalid
    have h2 := h.sortUnique hfirst hoffs
    rcases ite_eq_some.1 hvalid with ⟨-, hvalid⟩ | ⟨-, hvalid⟩
    · obtain ⟨b2, s3, hsecond, hvalid⟩ := bind_eq_some.1 hvalid
      have h3 := h2.sortUnique hsecond henoffs
      rcases ite_eq_some.1 hvalid with ⟨-, hvalid⟩ | ⟨-, hvalid⟩
      · simp only [ite_eq_some, emit_bind, pure_eq_some] at hvalid
        obtain ⟨-, -, rfl⟩ | ⟨-, -, rfl⟩ := hvalid
        · exact h3
        · exact h3
      · cases hvalid
        exact h3
    · cases hvalid
      exact h2
  rcases ite_eq_some.1 hrun with ⟨-, hrun⟩ | ⟨-, hrun⟩
  · obtain ⟨_, _, hfunc, hrun⟩ := bind_eq_some.1 hrun
    obtain ⟨-, rfl⟩ := readStr_eq_some.1 hfunc
    obtain ⟨_, _, hname, hrun⟩ := bind_eq_some.1 hrun
    obtain ⟨-, rfl⟩ := readStr_eq_some.1 hname
    rw [emit_bind] at hrun
    obtain ⟨_, _, hargs, hrun⟩ := bind_eq_some.1 hrun
    obtain ⟨_, _, htps, hrun⟩ := bind_eq_some.1 hrun
    rw [emitTps_mem hrun, emitTps_mem htps, emitArgs_mem hargs]
    exact hkeep
  · cases hrun
    exact hkeep

end

section

variable {ctx : Ctx} {q : Qsort} {mem : Bytes} {secs : Secs} {vers : ℕ} {parts : Parts} {s s' : St} {i n : ℕ}
  {dhpb : ProbeDesc}

/-- Entries in a section that is apart from the records do not reach them. -/
lemma Regular.not_in (hreg : Regular ctx mem secs) {sec first cnt : ℕ} (hsec : sec ∈ secs.off :: secs.enoff.toList)
    (hin : InSection ctx mem sec first cnt 4) (hmap : ctx.Mapped mem first (4 * cnt)) (a : ℕ)
    (ha : Recorded ctx mem secs a) : ¬ctx.In first (4 * cnt) a := by
  rintro ⟨hge, hlt⟩
  have hmem := hreg.memory
  rw [Ctx.Mapped] at hmap
  obtain ⟨t, rfl⟩ := Nat.exists_eq_add_of_le hge
  have hstart := (hin 0 (by omega)).1
  have hend := (hin (cnt - 1) (by omega)).2
  -- the byte with index `t` of the entries is one of the section
  refine hreg.apart sec hsec (first - fld ctx mem (sec + 16) 8 + t) (by omega) ?_
  have hat : ctx.at (fld ctx mem (sec + 16) 8 + (first - fld ctx mem (sec + 16) 8 + t)) = ctx.at first + t := by
    rw [Ctx.at] at hmap hlt ⊢
    rw [Ctx.at]
    omega
  rwa [hat]

lemma Inside.agree (hin : Inside ctx mem secs dhpb) (hreg : Regular ctx mem secs)
    (h : Agree (Recorded ctx mem secs) mem s.mem) (hrun : emitProbe ctx q dhpb s = (some (), s')) :
    Agree (Recorded ctx mem secs) mem s'.mem := by
  refine h.emitProbe hrun (hreg.not_in mem_cons_self hin.offs) fun hmap a ha => ?_
  rcases Nat.eq_zero_or_pos dhpb.nenoffs with hzero | hpos
  · rintro ⟨hge, hlt⟩
    omega
  · obtain ⟨enoff, henoff, hsec⟩ := hin.enoffs hpos
    exact hreg.not_in (by simp [henoff]) hsec hmap a ha

variable (hparts : parts.Of ctx mem secs vers) (hreg : Regular ctx mem secs)
include hparts hreg

lemma probesMeet_of_noWrap (hok : ∀ j < nprobes ctx mem secs, ProbeOk ctx mem secs vers (prbAt ctx mem secs j))
    (hoff : fld ctx mem (secs.off + 12) 4 = 4) (harg : fld ctx mem (secs.arg + 12) 4 = 1)
    (hwrap : ∀ j < nprobes ctx mem secs, NoWrap ctx mem secs vers (prbAt ctx mem secs j))
    (hn : i + n = nprobes ctx mem secs) (h : Agree (Recorded ctx mem secs) mem s.mem) :
    ProbesMeet ctx q (fun dhpb _ => Inside ctx mem secs dhpb) secs.prb parts n i s := by
  induction n generalizing i s with
  | zero => trivial
  | succ n ih =>
    intro dhpb s1 hnext
    have hi : i < nprobes ctx mem secs := by omega
    have hd := h.describes hi (nextProbe_some hnext)
    have hin := hd.inside hparts (hok i hi) hoff harg (hwrap i hi)
    refine ⟨hin, fun s2 hrun => ih (by omega) (hin.agree hreg ?_ hrun)⟩
    rwa [(nextProbe_same hnext).mem]

lemma noWrap_of_probesMeet (hfour : ∀ enoff, secs.enoff = some enoff → fld ctx mem (enoff + 12) 4 = 4)
    (hn : i + n = nprobes ctx mem secs) (h : Agree (Recorded ctx mem secs) mem s.mem)
    (hrun : emitProbes ctx q secs.prb parts n i s = (some (), s'))
    (hmeet : ProbesMeet ctx q (fun dhpb _ => Inside ctx mem secs dhpb) secs.prb parts n i s) :
    ∀ j, i ≤ j → j < nprobes ctx mem secs → NoWrap ctx mem secs vers (prbAt ctx mem secs j) := by
  induction n generalizing i s with
  | zero =>
    intro j hij hj
    omega
  | succ n ih =>
    intro j hij hj
    obtain ⟨dhpb, s1, hnext, hrun⟩ := bind_eq_some.1 hrun
    obtain ⟨_, s2, hemit, hrun⟩ := bind_eq_some.1 hrun
    obtain ⟨hin, hrest⟩ := hmeet dhpb s1 hnext
    rcases Nat.eq_or_lt_of_le hij with rfl | hlt
    · exact (h.describes hj (nextProbe_some hnext)).noWrap hparts hreg hfour hin
    · have h1 : Agree (Recorded ctx mem secs) mem s1.mem := by rwa [(nextProbe_same hnext).mem]
      exact ih (by omega) (hin.agree hreg h1 hemit) hrun (hrest s2 hemit) j hlt hj

end

/-- Nothing is lost in the checks of any probe. -/
def Unwrapped (ctx : Ctx) (mem : Bytes) (sec : ℕ) : Prop :=
  ∀ j < nprobes ctx mem (provSecs ctx mem sec),
    NoWrap ctx mem (provSecs ctx mem sec) (fld ctx mem 6 1) (prbAt ctx mem (provSecs ctx mem sec) j)

/-- All that is emitted for an accepted provider is read inside its sections if nothing is lost in the checks, and, if
is-enabled offsets have four bytes and the probes are all emitted, only then. -/
theorem index_checks {ctx : Ctx} {q : Qsort} {sec prb n : ℕ} {parts : Parts} {s s₁ s₂ : St}
    (hvalid : validateProvider ctx sec s = (some (), s₁)) (hheader : emitHeader ctx sec s₁ = (some (prb, parts, n), s₂))
    (hreg : Regular ctx s.mem (provSecs ctx s.mem sec)) :
    (Unwrapped ctx s.mem sec →
        ProbesMeet ctx q (fun dhpb _ => Inside ctx s.mem (provSecs ctx s.mem sec) dhpb) prb parts n 0 s₂) ∧
      ((∀ enoff, (provSecs ctx s.mem sec).enoff = some enoff → fld ctx s.mem (enoff + 12) 4 = 4) →
        ∀ s₃, emitProbes ctx q prb parts n 0 s₂ = (some (), s₃) →
        ProbesMeet ctx q (fun dhpb _ => Inside ctx s.mem (provSecs ctx s.mem sec) dhpb) prb parts n 0 s₂ →
        Unwrapped ctx s.mem sec) := by
  obtain ⟨hok, hsame⟩ := validateProvider_some hvalid
  obtain ⟨rfl, hparts, rfl, hmem⟩ := emitHeader_some hheader
  rw [hsame.mem] at hparts hmem
  rw [hsame.mem]
  have hagree : Agree (Recorded ctx s.mem (provSecs ctx s.mem sec)) s.mem s₂.mem := by
    rw [hmem]
    exact Agree.refl _ _
  have hcount : nprobes ctx s.mem (provSecs ctx s.mem sec) < 2 ^ 32 :=
    (Nat.div_le_self _ _).trans_lt (hreg.small _ mem_cons_self)
  constructor
  · intro hwrap
    refine probesMeet_of_noWrap hparts hreg (fun j hj => hok.probe j ?_) hok.offEntsize hok.argEntsize hwrap
      (Nat.zero_add _) hagree
    rwa [← nprobes, Nat.mod_eq_of_lt hcount]
  · intro hfour s₃ hrun hmeet j hj
    exact noWrap_of_probesMeet hparts hreg hfour (Nat.zero_add _) hagree hrun hmeet j (Nat.zero_le j) hj

instance (ctx : Ctx) (x n a : ℕ) : Decidable (ctx.In x n a) := inferInstanceAs (Decidable (_ ∧ _))

instance (ctx : Ctx) (mem : Bytes) (secs : Secs) (a : ℕ) : Decidable (Recorded ctx mem secs a) :=
  inferInstanceAs (Decidable (_ ∨ _))

instance (ctx : Ctx) (mem : Bytes) (sec first cnt width : ℕ) : Decidable (InSection ctx mem sec first cnt width) :=
  inferInstanceAs (Decidable (∀ k < cnt, _))

def twoOffsets : Bytes := smallDof 0 2 [16, 32]
def wideIndex : Bytes := smallDof 1073741823 1 [16, 32]

/-- The sections of the provider, the second section of a small DOF. -/
abbrev smallSecs (block : Bytes) : Secs := provSecs (smallCtx block) (smallSt block).mem 96

/-- Two offsets, in a section that is apart from the record of the probe. -/
theorem index_small :
    (validateProvider (smallCtx twoOffsets) 96 (smallSt twoOffsets)).1 = some () ∧ ∀ q prb parts n s₂,
      emitHeader (smallCtx twoOffsets) 96 (validateProvider (smallCtx twoOffsets) 96 (smallSt twoOffsets)).2 =
        (some (prb, parts, n), s₂) →
      n = 1 ∧ ProbesMeet (smallCtx twoOffsets) q
        (fun dhpb _ => Inside (smallCtx twoOffsets) (smallSt twoOffsets).mem (smallSecs twoOffsets) dhpb)
        prb parts n 0 s₂ := by
  have hrun : (validateProvider (smallCtx twoOffsets) 96 (smallSt twoOffsets)).1 = some () := by decide +kernel
  have hcount : nprobes (smallCtx twoOffsets) (smallSt twoOffsets).mem (smallSecs twoOffsets) = 1 := by decide +kernel
  refine ⟨hrun, fun q prb parts n s₂ hheader => ⟨?_, ?_⟩⟩
  · obtain ⟨-, -, hn, -⟩ := emitHeader_some hheader
    rwa [(validateProvider_some (Exec.eq_of_fst hrun)).2.mem, hcount] at hn
  · refine (index_checks (Exec.eq_of_fst hrun) hheader ⟨?_, ?_, ?_⟩).1 fun j hj => ?_
    · decide +kernel
    · decide +kernel
    · decide +kernel
    · rw [hcount] at hj
      obtain rfl : j = 0 := by omega
      exact ⟨by decide +kernel, fun hvers => absurd hvers (by decide +kernel)⟩

/-- An index close to 2^30 makes the product 0. -/
theorem index_wraps :
    (dofSlurp (smallCtx wideIndex) (smallSt wideIndex)).1 = some () ∧
      (validateProvider (smallCtx wideIndex) 96 (smallSt wideIndex)).1 = some () ∧ ∃ prb parts n s₂,
      emitHeader (smallCtx wideIndex) 96 (validateProvider (smallCtx wideIndex) 96 (smallSt wideIndex)).2 =
        (some (prb, parts, n + 1), s₂) ∧
      ∀ q, ¬ProbesMeet (smallCtx wideIndex) q
        (fun dhpb _ => Inside (smallCtx wideIndex) (smallSt wideIndex).mem (smallSecs wideIndex) dhpb)
        prb parts (n + 1) 0 s₂ := by
  refine ⟨by decide +kernel, by decide +kernel, ?_⟩
  rcases hheader : emitHeader (smallCtx wideIndex) 96
    (validateProvider (smallCtx wideIndex) 96 (smallSt wideIndex)).2 with ⟨r, s₂⟩
  -- the offsets of the first description are not in the section
  have hfirst : (emitHeader (smallCtx wideIndex) 96
      (validateProvider (smallCtx wideIndex) 96 (smallSt wideIndex)).2).1.any fun r => r.2.2 == 1 &&
      (nextProbe (smallCtx wideIndex) r.1 r.2.1 0 (emitHeader (smallCtx wideIndex) 96
        (validateProvider (smallCtx wideIndex) 96 (smallSt wideIndex)).2).2).1.any fun dhpb =>
        !decide (InSection (smallCtx wideIndex) (smallSt wideIndex).mem (smallSecs wideIndex).off dhpb.offs
          dhpb.noffs 4) := by decide +kernel
  rw [hheader] at hfirst
  obtain ⟨⟨prb, parts, n⟩, rfl, hfirst⟩ := (Option.any_eq_true _ _).1 hfirst
  obtain ⟨hn, hnext⟩ := Bool.and_eq_true_iff.1 hfirst
  obtain ⟨dhpb, hnext, hout⟩ := (Option.any_eq_true _ _).1 hnext
  obtain rfl : n = 1 := eq_of_beq hn
  refine ⟨prb, parts, 0, s₂, rfl, fun q hmeet => ?_⟩
  have hin := (hmeet dhpb _ (Prod.ext hnext rfl)).1.offs
  simp [hin] at hout

end DTrace.Usdt.Dof
