import DTrace.Usdt.Dof

/-!
# Reading DOF

What the parts of the parser that only read give, and what is known of the memory when they have gone well.

* `fld` — the number at a place;
* `num_bind`, `readStr_bind`, `ite_fail` — how to go through code that reads, step by step;
* `hdrAt`, `provSecs` — where section headers are, and those of a provider;
* `ProbeOk` — what `validate_provider` has checked of a probe;
* `validateProvider_some` — every probe has been checked.
-/

namespace DTrace.Usdt.Dof

open Lib Exec

variable {s : St} {ctx : Ctx}

section

variable {α β : Type} {s' : St} {x n : ℕ}

abbrev St.touch (s : St) (ctx : Ctx) (a n : ℕ) : St := { s with stray := s.stray || ctx.escapes a n }

/-- Memory and messages are the same. -/
structure St.Same (s s' : St) : Prop where
  mem : s'.mem = s.mem
  out : s'.out = s.out

lemma St.Same.refl (s : St) : s.Same s := ⟨rfl, rfl⟩

lemma St.Same.trans {s' s'' : St} (h : s.Same s') (h' : s'.Same s'') : s.Same s'' :=
  ⟨h'.mem.trans h.mem, h'.out.trans h.out⟩

/-- The number of `n` bytes at an offset. -/
def fld (ctx : Ctx) (mem : Bytes) (x n : ℕ) : ℕ := Bytes.val ((mem.drop (ctx.at x)).take n)

lemma fld_lt (ctx : Ctx) (mem : Bytes) (x n : ℕ) : fld ctx mem x n < 256 ^ n := by
  refine (Bytes.val_lt _).trans_le (Nat.pow_le_pow_right (by decide) ?_)
  exact List.length_take_le _ _

lemma num_eq_some {v : ℕ} : num ctx x n s = (some v, s') ↔
    ctx.at x + n ≤ s.mem.length ∧ v = fld ctx s.mem x n ∧ s' = s.touch ctx (ctx.at x) n := by
  rw [num, bind_eq_some]
  constructor
  · rintro ⟨_, _, hread, hpure⟩
    rw [read] at hread
    split at hread
    · cases hread
      cases hpure
      exact ⟨‹_›, rfl, rfl⟩
    · cases hread
  · rintro ⟨hle, rfl, rfl⟩
    exact ⟨_, _, by rw [read, if_pos hle], rfl⟩

lemma num_bind {f : ℕ → Exec St β} {b : β} : (num ctx x n >>= f) s = (some b, s') ↔
    ctx.at x + n ≤ s.mem.length ∧ f (fld ctx s.mem x n) (s.touch ctx (ctx.at x) n) = (some b, s') := by
  rw [bind_eq_some]
  constructor
  · rintro ⟨v, _, hnum, hf⟩
    obtain ⟨hle, rfl, rfl⟩ := num_eq_some.1 hnum
    exact ⟨hle, hf⟩
  · rintro ⟨hle, hf⟩
    exact ⟨_, _, num_eq_some.2 ⟨hle, rfl, rfl⟩, hf⟩

lemma read_eq_some {bs : Bytes} : read ctx x n s = (some bs, s') ↔
    ctx.at x + n ≤ s.mem.length ∧ bs = (s.mem.drop (ctx.at x)).take n ∧ s' = s.touch ctx (ctx.at x) n := by
  rw [read]
  split
  · rename_i hle
    simp [hle, St.touch, Prod.ext_iff, eq_comm]
  · rename_i hle
    simp [hle]

lemma readStr_eq_some {str : Bytes} : readStr ctx x s = (some str, s') ↔
    cstr s.mem (ctx.at x) = some str ∧ s' = s.touch ctx (ctx.at x) (str.length + 1) := by
  rw [readStr]
  cases h : cstr s.mem (ctx.at x) with
  | none => simp
  | some str' =>
    simp only [Prod.mk.injEq, Option.some.injEq, St.touch]
    constructor
    · rintro ⟨rfl, rfl⟩
      exact ⟨rfl, rfl⟩
    · rintro ⟨rfl, rfl⟩
      exact ⟨rfl, rfl⟩

variable {a : α}

lemma pure_eq_some {b : α} : (pure a : Exec St α) s = (some b, s') ↔ a = b ∧ s = s' := by
  change ((some a, s) : Option α × St) = _ ↔ _
  simp

lemma emit_bind {msg : Msg} {f : Unit → Exec St β} {b : β} :
    (emit msg >>= f) s = (some b, s') ↔ f () { s with out := s.out ++ [msg] } = (some b, s') :=
  Iff.rfl

variable {args : List FmtArg} {fmt : String}

lemma fail_ne_some : (fail fmt args : Exec St α) s ≠ (some a, s') := by
  intro h
  obtain ⟨u, _, -, hstop⟩ := bind_eq_some.1 h
  cases hstop

variable {c : Prop}

lemma ite_fail [Decidable c] {y : Exec St α} :
    (if c then fail fmt args else y) s = (some a, s') ↔ ¬c ∧ y s = (some a, s') := by
  split
  · rename_i hc
    simp [hc, fail_ne_some]
  · rename_i hc
    simp [hc]

lemma ite_eq_some [Decidable c] {y z : Exec St α} :
    (if c then y else z) s = (some a, s') ↔ (c ∧ y s = (some a, s')) ∨ (¬c ∧ z s = (some a, s')) := by
  split <;> rename_i hc <;> simp [hc]

end

/-! ## Sections -/

section

variable {s' : St}

def hdrAt (ctx : Ctx) (mem : Bytes) (i : ℕ) : ℕ := fld ctx mem 32 8 + i * fld ctx mem 24 4 % 2 ^ 32

variable {sec : ℕ}

lemma secAt_eq_some {i : ℕ} (h : secAt ctx i s = (some sec, s')) : sec = hdrAt ctx s.mem i ∧ s.Same s' := by
  simp only [secAt, secoff, secsize, num_bind, pure_eq_some] at h
  obtain ⟨-, -, rfl, rfl⟩ := h
  exact ⟨rfl, rfl, rfl⟩

/-- A section that is referred to. -/
structure Referred (ctx : Ctx) (mem : Bytes) (type i : ℕ) : Prop where
  lt : i < fld ctx mem 28 4
  load : isLoad (fld ctx mem (hdrAt ctx mem i + 8) 4)
  type : type ≠ sectNone → fld ctx mem (hdrAt ctx mem i) 4 = type

lemma dofSect_mem {type i : ℕ} {r : Option ℕ} (h : dofSect ctx type i s = (some r, s')) : s'.mem = s.mem := by
  rw [dofSect, bind_eq_some] at h
  obtain ⟨_, _, hsec, h⟩ := h
  obtain ⟨-, hsame⟩ := secAt_eq_some hsec
  rw [← hsame.mem]
  simp only [secnum, num_bind, ite_eq_some, emit_bind, pure_eq_some, dofsFlags, dofsType] at h
  obtain ⟨-, ⟨-, -, rfl⟩ | ⟨-, -, ⟨-, -, rfl⟩ | ⟨-, ⟨-, -, rfl⟩ | ⟨-, -, ⟨-, -, rfl⟩ | ⟨-, -, rfl⟩⟩⟩⟩⟩ := h
  all_goals rfl

lemma dofSect_some {type i : ℕ} (h : dofSect ctx type i s = (some (some sec), s')) :
    sec = hdrAt ctx s.mem i ∧ Referred ctx s.mem type i ∧ s.Same s' := by
  rw [dofSect, bind_eq_some] at h
  obtain ⟨_, _, hsec, h⟩ := h
  obtain ⟨rfl, hsame⟩ := secAt_eq_some hsec
  simp only [secnum, num_bind, ite_eq_some, emit_bind, pure_eq_some, dofsFlags, dofsType, hsame.mem, reduceCtorEq,
    false_and, and_false, false_or, Option.some.injEq] at h
  obtain ⟨-, hlt, -, hload, ⟨hnone, rfl, rfl⟩ | ⟨-, -, htype, rfl, rfl⟩⟩ := h
  · exact ⟨rfl, ⟨by omega, by simpa using hload, fun hne => absurd hnone hne⟩, hsame.mem, hsame.out⟩
  · exact ⟨rfl, ⟨by omega, by simpa using hload, fun _ => by simpa [eq_comm] using htype⟩, hsame.mem,
      hsame.out⟩

/-- The headers of the sections of a provider. -/
def provSecs (ctx : Ctx) (mem : Bytes) (sec : ℕ) : Secs :=
  let prov := fld ctx mem (sec + 16) 8
  { str := hdrAt ctx mem (fld ctx mem prov 4)
    prb := hdrAt ctx mem (fld ctx mem (prov + 4) 4)
    arg := hdrAt ctx mem (fld ctx mem (prov + 8) 4)
    off := hdrAt ctx mem (fld ctx mem (prov + 12) 4)
    enoff :=
      if fld ctx mem 6 1 = 1 ∨ fld ctx mem (prov + 40) 4 = sectNone then none
      else some (hdrAt ctx mem (fld ctx mem (prov + 40) 4)) }

/-- The sections that a provider refers to. -/
structure SecsOk (ctx : Ctx) (mem : Bytes) (sec : ℕ) : Prop where
  type : fld ctx mem sec 4 = sectProvider
  size : (if fld ctx mem 6 1 = 1 then 40 else 44) ≤ fld ctx mem (sec + 24) 8
  str : Referred ctx mem sectStrtab (fld ctx mem (fld ctx mem (sec + 16) 8) 4)
  prb : Referred ctx mem sectProbes (fld ctx mem (fld ctx mem (sec + 16) 8 + 4) 4)
  arg : Referred ctx mem sectPrargs (fld ctx mem (fld ctx mem (sec + 16) 8 + 8) 4)
  off : Referred ctx mem sectProffs (fld ctx mem (fld ctx mem (sec + 16) 8 + 12) 4)
  enoff : fld ctx mem 6 1 ≠ 1 → fld ctx mem (fld ctx mem (sec + 16) 8 + 40) 4 ≠ sectNone →
    Referred ctx mem sectPrenoffs (fld ctx mem (fld ctx mem (sec + 16) 8 + 40) 4)

variable {secs : Secs}

lemma providerSecs_some {vers prov : ℕ} (h : providerSecs ctx sec s = (some (vers, prov, secs), s')) :
    vers = fld ctx s.mem 6 1 ∧ prov = fld ctx s.mem (sec + 16) 8 ∧ secs = provSecs ctx s.mem sec ∧
      SecsOk ctx s.mem sec ∧ s.Same s' := by
  simp only [providerSecs, dofsType, dofsOffset, version, dofsSize, dofpvStrtab, num_bind, ite_fail] at h
  obtain ⟨-, htype, -, -, -, -, hsize, -, h⟩ := h
  obtain ⟨str, s1, hstr, h⟩ := bind_eq_some.1 h
  simp only [dofpvProbes, num_bind] at h
  obtain ⟨-, h⟩ := h
  obtain ⟨prb, s2, hprb, h⟩ := bind_eq_some.1 h
  simp only [dofpvPrargs, num_bind] at h
  obtain ⟨-, h⟩ := h
  obtain ⟨arg, s3, harg, h⟩ := bind_eq_some.1 h
  simp only [dofpvProffs, num_bind] at h
  obtain ⟨-, h⟩ := h
  obtain ⟨off, s4, hoff, h⟩ := bind_eq_some.1 h
  have hm1 : s1.mem = s.mem := (dofSect_mem hstr).trans rfl
  have hm2 : s2.mem = s.mem := (dofSect_mem hprb).trans hm1
  have hm3 : s3.mem = s.mem := (dofSect_mem harg).trans hm2
  have hm4 : s4.mem = s.mem := (dofSect_mem hoff).trans hm3
  -- the sections must all be there
  rcases str with _ | _
  · cases h
  rcases prb with _ | _
  · cases h
  rcases arg with _ | _
  · cases h
  rcases off with _ | _
  · cases h
  obtain ⟨rfl, hstr, hs1⟩ := dofSect_some hstr
  obtain ⟨rfl, hprb, hs2⟩ := dofSect_some hprb
  obtain ⟨rfl, harg, hs3⟩ := dofSect_some harg
  obtain ⟨rfl, hoff, hs4⟩ := dofSect_some hoff
  simp only [hm1] at hprb
  simp only [hm2] at harg
  simp only [hm3] at hoff
  have hsame : s.Same s4 := ⟨hm4, hs4.out.trans (hs3.out.trans (hs2.out.trans hs1.out))⟩
  simp only [dofpvPrenoffs, ite_eq_some, num_bind, pure_eq_some, hm1, hm2, hm3, hm4, Prod.mk.injEq] at h
  have hsize' := not_lt.1 hsize
  have htype' := not_not.1 htype
  obtain ⟨hvers, ⟨rfl, rfl, rfl⟩, rfl⟩ | ⟨hvers, -, ⟨hnone, ⟨rfl, rfl, rfl⟩, rfl⟩ | ⟨hnone, h⟩⟩ := h
  · refine ⟨rfl, rfl, ?_, ⟨htype', hsize', hstr, hprb, harg, hoff, fun hne => absurd hvers hne⟩, hsame⟩
    simp [provSecs, hvers]
  · refine ⟨rfl, rfl, ?_, ⟨htype', hsize', hstr, hprb, harg, hoff, fun _ hne => absurd hnone hne⟩, hsame.mem,
      hsame.out⟩
    simp [provSecs, hnone]
  · obtain ⟨enoff, s5, henoff, h⟩ := bind_eq_some.1 h
    rcases enoff with _ | _
    · cases h
    obtain ⟨rfl, henoff, hs5⟩ := dofSect_some henoff
    obtain ⟨⟨rfl, rfl, rfl⟩, rfl⟩ : (_ = _ ∧ _ = _ ∧ _ = _) ∧ _ = _ := by
      simpa only [pure_eq_some, Prod.mk.injEq] using h
    simp only [hm4] at henoff
    refine ⟨rfl, rfl, ?_, ⟨htype', hsize', hstr, hprb, harg, hoff, fun _ _ => henoff⟩, hs5.mem.trans hsame.mem,
      hs5.out.trans hsame.out⟩
    simp [provSecs, hvers, hnone, hm4]

/-! ## Probes -/

lemma checkName_some {strtab strsize idx max : ℕ} {badIdx tooLong : String}
    (h : checkName ctx strtab strsize idx max badIdx tooLong s = (some (), s')) : idx < strsize ∧ s.Same s' := by
  simp only [checkName, ite_fail] at h
  obtain ⟨hlt, h⟩ := h
  obtain ⟨_, _, hname, h⟩ := bind_eq_some.1 h
  obtain ⟨-, rfl⟩ := readStr_eq_some.1 hname
  simp only [ite_fail, pure_eq_some] at h
  obtain ⟨-, -, rfl⟩ := h
  exact ⟨by omega, rfl, rfl⟩

/-- `n` strings that follow each other, each of which begins in the table; the index has 32 bits. -/
def TypesOk (ctx : Ctx) (mem : Bytes) (strsize : ℕ) : ℕ → ℕ → ℕ → Prop
  | 0, _, _ => True
  | n + 1, idx, x => idx < strsize ∧ ∃ str, cstr mem (ctx.at x) = some str ∧
      TypesOk ctx mem strsize n ((idx + (str.length + 1)) % 2 ^ 32) (x + (str.length + 1))

lemma typeLoop_some {strsize n k idx x : ℕ} {check : ℕ → Exec St Unit} {badType tooLong : String}
    (hcheck : ∀ k s s', check k s = (some (), s') → s.Same s')
    (h : typeLoop ctx strsize check badType tooLong n k idx x s = (some (), s')) :
    TypesOk ctx s.mem strsize n idx x ∧ s.Same s' := by
  induction n generalizing k idx x s with
  | zero =>
    obtain ⟨-, rfl⟩ := pure_eq_some.1 h
    exact ⟨trivial, St.Same.refl s⟩
  | succ n ih =>
    obtain ⟨_, s1, hk, h⟩ := bind_eq_some.1 h
    have hs1 := hcheck k s s1 hk
    simp only [ite_fail] at h
    obtain ⟨hlt, h⟩ := h
    obtain ⟨str, _, hstr, h⟩ := bind_eq_some.1 h
    obtain ⟨hcstr, rfl⟩ := readStr_eq_some.1 hstr
    simp only [ite_fail] at h
    obtain ⟨hok, hsame⟩ := ih h.2
    rw [hs1.mem] at hcstr
    simp only [hs1.mem] at hok
    exact ⟨⟨by omega, str, hcstr, hok⟩, hs1.trans ⟨hsame.mem, hsame.out⟩⟩

/-- What has been checked of a probe. -/
structure ProbeOk (ctx : Ctx) (mem : Bytes) (secs : Secs) (vers prb : ℕ) : Prop where
  func : fld ctx mem (prb + 8) 4 < fld ctx mem (secs.str + 24) 8
  name : fld ctx mem (prb + 12) 4 < fld ctx mem (secs.str + 24) 8
  offs : fits (fld ctx mem (prb + 28) 4) (fld ctx mem (prb + 34) 2) (fld ctx mem (secs.off + 12) 4)
    (fld ctx mem (secs.off + 24) 8)
  enoffs : vers ≠ 1 → ∀ enoff, secs.enoff = some enoff →
    fits (fld ctx mem (prb + 36) 4) (fld ctx mem (prb + 40) 2) (fld ctx mem (enoff + 12) 4)
      (fld ctx mem (enoff + 24) 8)
  args : fits (fld ctx mem (prb + 24) 4) (fld ctx mem (prb + 33) 1) (fld ctx mem (secs.arg + 12) 4)
    (fld ctx mem (secs.arg + 24) 8)
  ntypes : TypesOk ctx mem (fld ctx mem (secs.str + 24) 8) (fld ctx mem (prb + 32) 1) (fld ctx mem (prb + 16) 4)
    (fld ctx mem (secs.str + 16) 8 + fld ctx mem (prb + 16) 4)
  xtypes : TypesOk ctx mem (fld ctx mem (secs.str + 24) 8) (fld ctx mem (prb + 33) 1) (fld ctx mem (prb + 20) 4)
    (fld ctx mem (secs.str + 16) 8 + fld ctx mem (prb + 20) 4)

lemma checkOffs_some {vers prb : ℕ} (h : checkOffs ctx secs vers prb s = (some (), s')) :
    fits (fld ctx s.mem (prb + 28) 4) (fld ctx s.mem (prb + 34) 2) (fld ctx s.mem (secs.off + 12) 4)
        (fld ctx s.mem (secs.off + 24) 8) ∧
      (vers ≠ 1 → ∀ enoff, secs.enoff = some enoff →
        fits (fld ctx s.mem (prb + 36) 4) (fld ctx s.mem (prb + 40) 2) (fld ctx s.mem (enoff + 12) 4)
          (fld ctx s.mem (enoff + 24) 8)) ∧ s.Same s' := by
  simp only [checkOffs, dofprOffidx, dofprNoffs, dofsEntsize, dofsSize, num_bind, ite_fail, Bool.not_eq_true',
    Bool.not_eq_false] at h
  obtain ⟨-, -, -, -, hfits, h⟩ := h
  refine ⟨hfits, ?_⟩
  rcases ite_eq_some.1 h with ⟨hvers, h⟩ | ⟨hvers, h⟩
  · cases henoff : secs.enoff with
    | none =>
      simp only [henoff, dofprEnoffidx, dofprNenoffs, num_bind, ite_fail, pure_eq_some] at h
      obtain ⟨-, -, -, -, -, -, rfl⟩ := h
      exact ⟨fun _ _ he => (nomatch he), rfl, rfl⟩
    | some enoff =>
      simp only [henoff, dofprEnoffidx, dofprNenoffs, num_bind, ite_fail, pure_eq_some, Bool.not_eq_false] at h
      obtain ⟨-, -, -, -, hen, -, -, rfl⟩ := h
      refine ⟨fun _ _ he => ?_, rfl, rfl⟩
      cases he
      exact hen
  · simp only [ite_fail, pure_eq_some] at h
    obtain ⟨-, -, rfl⟩ := h
    exact ⟨fun hne => absurd hne hvers, rfl, rfl⟩

lemma checkArg_some {arg argidx nargc k : ℕ} (h : checkArg ctx arg argidx nargc k s = (some (), s')) : s.Same s' := by
  simp only [checkArg, num_bind, ite_fail, pure_eq_some] at h
  obtain ⟨-, -, -, rfl⟩ := h
  exact ⟨rfl, rfl⟩

lemma checkProbe_some {vers strtab arg prb : ℕ} (h : checkProbe ctx secs vers strtab arg prb s = (some (), s'))
    (hstrtab : strtab = fld ctx s.mem (secs.str + 16) 8) : ProbeOk ctx s.mem secs vers prb ∧ s.Same s' := by
  subst hstrtab
  simp only [checkProbe, dofsSize, dofprFunc, num_bind] at h
  obtain ⟨-, -, h⟩ := h
  obtain ⟨_, s1, hfunc, h⟩ := bind_eq_some.1 h
  obtain ⟨hfunc, hs1⟩ := checkName_some hfunc
  have hm1 : s1.mem = s.mem := hs1.mem.trans rfl
  simp only [dofprName, num_bind, hm1] at h
  obtain ⟨-, h⟩ := h
  obtain ⟨_, s2, hname, h⟩ := bind_eq_some.1 h
  obtain ⟨hname, hs2⟩ := checkName_some hname
  have hm2 : s2.mem = s.mem := hs2.mem.trans hm1
  obtain ⟨_, s3, hoffs, h⟩ := bind_eq_some.1 h
  obtain ⟨hoffs, henoffs, hs3⟩ := checkOffs_some hoffs
  have hm3 : s3.mem = s.mem := hs3.mem.trans hm2
  simp only [checkArgs, dofprArgidx, dofprXargc, dofsEntsize, dofsSize, dofprNargv, dofprNargc, num_bind, ite_fail,
    Bool.not_eq_true', Bool.not_eq_false, hm3] at h
  obtain ⟨-, -, -, -, hargs, -, -, -, h⟩ := h
  obtain ⟨_, s4, hntypes, h⟩ := bind_eq_some.1 h
  obtain ⟨hntypes, hs4⟩ := typeLoop_some (fun k s s' hk => by
    cases hk
    exact St.Same.refl s) hntypes
  have hm4 : s4.mem = s.mem := hs4.mem.trans hm3
  simp only [dofprXargv, num_bind, hm4] at h
  obtain ⟨hxtypes, hs5⟩ := typeLoop_some (fun k s s' hk => checkArg_some hk) h.2
  simp only [hm2] at hoffs henoffs
  simp only [hm3] at hntypes
  simp only [hm4] at hxtypes
  refine ⟨⟨hfunc, hname, hoffs, henoffs, hargs, hntypes, hxtypes⟩, hs5.mem.trans hm4, ?_⟩
  exact hs5.out.trans (hs4.out.trans (hs3.out.trans (hs2.out.trans hs1.out)))

def prbAt (ctx : Ctx) (mem : Bytes) (secs : Secs) (j : ℕ) : ℕ :=
  fld ctx mem (secs.prb + 16) 8 + j * fld ctx mem (secs.prb + 12) 4 % 2 ^ 32

lemma checkProbes_some {vers strtab arg n j : ℕ} (h : checkProbes ctx secs vers strtab arg n j s = (some (), s'))
    (hstrtab : strtab = fld ctx s.mem (secs.str + 16) 8) :
    (∀ i, j ≤ i → i < j + n → ProbeOk ctx s.mem secs vers (prbAt ctx s.mem secs i)) ∧ s.Same s' := by
  induction n generalizing j s with
  | zero =>
    obtain ⟨-, rfl⟩ := pure_eq_some.1 h
    exact ⟨fun i hi hlt => absurd hlt (by omega), St.Same.refl s⟩
  | succ n ih =>
    simp only [checkProbes, dofsOffset, dofsEntsize, num_bind] at h
    obtain ⟨-, -, h⟩ := h
    obtain ⟨_, s1, hprobe, h⟩ := bind_eq_some.1 h
    obtain ⟨hok, hs1⟩ := checkProbe_some hprobe hstrtab
    have hm1 : s1.mem = s.mem := hs1.mem.trans rfl
    obtain ⟨hrest, hs2⟩ := ih h (by rw [hm1, hstrtab])
    rw [hm1] at hrest
    refine ⟨fun i hi hlt => ?_, hs2.mem.trans hm1, hs2.out.trans hs1.out⟩
    rcases Nat.eq_or_lt_of_le hi with rfl | hi
    · exact hok
    · exact hrest i hi (by omega)

/-- What has been checked of a provider. -/
structure ProviderOk (ctx : Ctx) (mem : Bytes) (sec : ℕ) : Prop extends SecsOk ctx mem sec where
  name : fld ctx mem (fld ctx mem (sec + 16) 8 + 16) 4 < fld ctx mem ((provSecs ctx mem sec).str + 24) 8
  entsize : fld ctx mem ((provSecs ctx mem sec).prb + 12) 4 ≠ 0
  offEntsize : fld ctx mem ((provSecs ctx mem sec).off + 12) 4 = 4
  argEntsize : fld ctx mem ((provSecs ctx mem sec).arg + 12) 4 = 1
  probe : ∀ j, j < fld ctx mem ((provSecs ctx mem sec).prb + 24) 8 / fld ctx mem ((provSecs ctx mem sec).prb + 12) 4 %
      2 ^ 32 → ProbeOk ctx mem (provSecs ctx mem sec) (fld ctx mem 6 1) (prbAt ctx mem (provSecs ctx mem sec) j)

theorem validateProvider_some (h : validateProvider ctx sec s = (some (), s')) :
    ProviderOk ctx s.mem sec ∧ s.Same s' := by
  obtain ⟨⟨_, _, _⟩, _, hsecs, h⟩ := bind_eq_some.1 h
  obtain ⟨rfl, rfl, rfl, hok, hs1⟩ := providerSecs_some hsecs
  simp only [dofsOffset, dofsSize, dofpvName, num_bind, hs1.mem] at h
  obtain ⟨-, -, -, h⟩ := h
  obtain ⟨_, s2, hname, h⟩ := bind_eq_some.1 h
  obtain ⟨hname, hs2⟩ := checkName_some hname
  have hm2 : s2.mem = s.mem := hs2.mem.trans hs1.mem
  obtain ⟨_, _, hent, h⟩ := bind_eq_some.1 h
  simp only [checkEntsizes, dofsEntsize, dofsSize, dofsOffset, num_bind, ite_fail, pure_eq_some, hm2, not_or,
    not_not] at hent
  obtain ⟨-, -, ⟨hne, -⟩, -, -, hoff, -, -, -, harg, rfl, rfl⟩ := hent
  simp only [num_bind, hm2] at h
  obtain ⟨hprobes, hs3⟩ := checkProbes_some h.2 (by rw [hm2])
  simp only [hm2] at hprobes
  refine ⟨⟨hok, hname, hne, hoff, harg, fun j hj => hprobes j (Nat.zero_le j) (by omega)⟩, hs3.mem.trans hm2, ?_⟩
  exact hs3.out.trans (hs2.out.trans hs1.out)

end

/-! ## Runs -/

section

variable (ctx : Ctx) (q : Qsort) (P : ProbeDesc → St → Prop)

/-- In every turn of a loop over the sections `Q` holds of the section and the state. -/
def LoopMeets (body : ℕ → Exec St Unit) (Q : ℕ → St → Prop) : ℕ → ℕ → St → Prop
  | 0, _, _ => True
  | fuel + 1, i, s => ∀ n s₁, secnum ctx s = (some n, s₁) → i < n →
      Q i s₁ ∧ ∀ s₂, body i s₁ = (some (), s₂) → LoopMeets body Q fuel (i + 1) s₂

/-- `P` holds of every probe and of the state in which `emit_probe` gets it. -/
def ProbesMeet (prb : ℕ) (parts : Parts) : ℕ → ℕ → St → Prop
  | 0, _, _ => True
  | n + 1, i, s => ∀ dhpb s₁, nextProbe ctx prb parts i s = (some dhpb, s₁) →
      P dhpb s₁ ∧ ∀ s₂, emitProbe ctx q dhpb s₁ = (some (), s₂) → ProbesMeet prb parts n (i + 1) s₂

/-- The same for the probes of one section, if it is a provider and is accepted. -/
def SectionMeets (i : ℕ) (s : St) : Prop :=
  ∀ sec s₁ type s₂ s₃ prb parts n s₄, secAt ctx i s = (some sec, s₁) → dofsType ctx sec s₁ = (some type, s₂) →
    type = sectProvider → validateProvider ctx sec s₂ = (some (), s₃) →
    emitHeader ctx sec s₃ = (some (prb, parts, n), s₄) → ProbesMeet ctx q P prb parts n 0 s₄

def RunMeets (s : St) : Prop :=
  ∀ len s₁ s₂, loadsz ctx s = (some len, s₁) → dofSlurp ctx s₁ = (some (), s₂) →
    LoopMeets ctx (parseSection ctx q) (SectionMeets ctx q P) maxTurns 0 s₂

variable {ctx} {body : ℕ → Exec St Unit} {I : St → Prop}

lemma LoopMeets.intro {Q : ℕ → St → Prop} (hsame : ∀ s s', s.Same s' → I s → I s')
    (hbody : ∀ i s, I s → i < fld ctx s.mem 28 4 → Q i s ∧ ∀ s', body i s = (some (), s') → I s') {fuel i : ℕ}
    (hI : I s) : LoopMeets ctx body Q fuel i s := by
  induction fuel generalizing i s with
  | zero => trivial
  | succ fuel ih =>
    intro n s1 hn hi
    obtain ⟨-, rfl, rfl⟩ := num_eq_some.1 hn
    obtain ⟨hQ, hkeep⟩ := hbody i (s.touch ctx (ctx.at 28) 4) (hsame s _ ⟨rfl, rfl⟩ hI) hi
    exact ⟨hQ, fun s2 hturn => ih (hkeep s2 hturn)⟩

/-- What holds before a loop and is kept by each turn holds in every turn and after the loop. -/
lemma LoopMeets.run {Q Q' : ℕ → St → Prop} (hsame : ∀ s s', s.Same s' → I s → I s')
    (hbody : ∀ i s, I s → Q i s → Q' i s ∧ ∀ s', body i s = (some (), s') → I s') {fuel i : ℕ} (hI : I s)
    (h : LoopMeets ctx body Q fuel i s) :
    LoopMeets ctx body Q' fuel i s ∧ ∀ s', secLoop ctx body fuel i s = (some (), s') → I s' := by
  induction fuel generalizing i s with
  | zero => exact ⟨trivial, fun s' h => nomatch h⟩
  | succ fuel ih =>
    have hnum : ∀ n s1, secnum ctx s = (some n, s1) → I s1 := by
      intro n s1 hn
      obtain ⟨-, -, rfl⟩ := num_eq_some.1 hn
      exact hsame s _ ⟨rfl, rfl⟩ hI
    constructor
    · intro n s1 hn hi
      obtain ⟨hQ, hrest⟩ := h n s1 hn hi
      obtain ⟨hQ', hkeep⟩ := hbody i s1 (hnum n s1 hn) hQ
      exact ⟨hQ', fun s2 hturn => (ih (hkeep s2 hturn) (hrest s2 hturn)).1⟩
    · intro s' hloop
      obtain ⟨n, s1, hn, hloop⟩ := bind_eq_some.1 hloop
      rcases ite_eq_some.1 hloop with ⟨hi, hloop⟩ | ⟨-, hloop⟩
      · obtain ⟨hQ, hrest⟩ := h n s1 hn hi
        obtain ⟨-, hkeep⟩ := hbody i s1 (hnum n s1 hn) hQ
        obtain ⟨_, s2, hturn, hloop⟩ := bind_eq_some.1 hloop
        exact (ih (hkeep s2 hturn) (hrest s2 hturn)).2 s' hloop
      · obtain ⟨-, rfl⟩ := pure_eq_some.1 hloop
        exact hnum n s1 hn

end

/-! ## A small DOF -/

/-- A DOF header with section headers behind it. -/
def dofHdr (vers secnum loadsz : ℕ) : Bytes :=
  [0x7f, 0x44, 0x4f, 0x46, 2, 1, BitVec.ofNat 8 vers, 2, 8, 8, 0, 0, 0, 0, 0, 0] ++
    Bytes.ofNat 4 0 ++ Bytes.ofNat 4 64 ++ Bytes.ofNat 4 32 ++ Bytes.ofNat 4 secnum ++ Bytes.ofNat 8 64 ++
    Bytes.ofNat 8 loadsz ++ Bytes.ofNat 8 loadsz ++ Bytes.ofNat 8 0

/-- The header of a section that is loaded. -/
def secHdr (type align entsize offset size : ℕ) : Bytes :=
  Bytes.ofNat 4 type ++ Bytes.ofNat 4 align ++ Bytes.ofNat 4 1 ++ Bytes.ofNat 4 entsize ++ Bytes.ofNat 8 offset ++
    Bytes.ofNat 8 size

/-- A provider `p` with one probe `b` in a function `f`, without arguments, and room for two offsets, of version 1. -/
def smallDof (offidx noffs : ℕ) (offs : List (BitVec 32)) : Bytes :=
  dofHdr 1 5 332 ++ secHdr sectStrtab 1 0 224 6 ++ secHdr sectProvider 4 0 232 40 ++ secHdr sectProbes 8 48 272 48 ++
    secHdr sectPrargs 1 1 320 1 ++ secHdr sectProffs 4 4 324 8 ++
    [112, 0, 102, 0, 98, 0, 0, 0] ++
    ([0, 2, 3, 4, 0, 0, 0, 0, 0, 0].flatMap (Bytes.ofNat 4)) ++
    (Bytes.ofNat 8 4096 ++ [2, 4, 0, 0, 0, offidx].flatMap (Bytes.ofNat 4) ++ [0, 0] ++ Bytes.ofNat 2 noffs ++
      List.replicate 12 0) ++
    List.replicate 4 0 ++ wordBytes offs

/-- A block at address 8 with nothing behind it. -/
def smallCtx (block : Bytes) : Ctx := ⟨8, block.length, [], 0⟩
def smallSt (block : Bytes) : St := St.init (List.replicate 8 0 ++ block)

end DTrace.Usdt.Dof
