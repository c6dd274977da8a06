import DTrace.Usdt.DofReloc

/-!
# The stream of a DOF

What the parser emits when it returns 0.  A probe that is rejected when it is emitted is left out after it has been
announced, and so are translated arguments without native ones.

* `Feeds` — messages that come, and whether they follow the grammar;
* `Good` — a probe that is emitted as it is announced;
* `dof_stream_iff` — the stream is well formed if and only if all probes are.
-/

namespace DTrace.Usdt.Dof

open Lib List Exec

/-- The messages between two states take `d` to `d'` if `Q` holds, and otherwise no stream can go on with them. -/
def Feeds (s s' : St) (Q : Prop) (d d' : Due) : Prop :=
  ∃ msgs, s'.out = s.out ++ msgs ∧ (Q → Runs msgs d d') ∧ (¬Q → Stuck msgs)

section

variable {s s' s'' : St} {Q Q' : Prop} {d d' d'' : Due}

lemma feeds_nil (h : s'.out = s.out) (hQ : Q) (d : Due) : Feeds s s' Q d d :=
  ⟨[], by rw [h, append_nil], fun _ => rfl, fun hn => absurd hQ hn⟩

lemma Feeds.trans (h : Feeds s s' Q d d') (h' : Feeds s' s'' Q' d' d'') : Feeds s s'' (Q ∧ Q') d d'' := by
  obtain ⟨msgs, hout, hrun, hstuck⟩ := h
  obtain ⟨msgs', hout', hrun', hstuck'⟩ := h'
  refine ⟨msgs ++ msgs', by rw [hout', hout, append_assoc], fun hQ => ?_, fun hn => ?_⟩
  · exact (hrun hQ.1).append (hrun' hQ.2)
  · by_cases hQ : Q
    · exact (hstuck' fun hQ' => hn ⟨hQ, hQ'⟩).append_left msgs
    · exact (hstuck hQ).append_right msgs'

lemma Feeds.congr (h : Feeds s s' Q d d') (hQ : Q ↔ Q') : Feeds s s' Q' d d' := by
  rwa [← propext hQ]

end

/-! ## Offsets -/

section

variable {ctx : Ctx} {q : Qsort} {s s' : St} {n x : ℕ} {base : BitVec 64} {dhpb : ProbeDesc} {parts : Parts}

variable {ws : List (BitVec 32)}

lemma words_same (h : words ctx n x s = (some ws, s')) : s.Same s' := by
  induction n generalizing x s ws with
  | zero =>
    obtain ⟨-, rfl⟩ := pure_eq_some.1 h
    exact St.Same.refl s
  | succ n ih =>
    simp only [words, num_bind] at h
    obtain ⟨_, _, hvs, h⟩ := bind_eq_some.1 h.2
    obtain ⟨-, rfl⟩ := pure_eq_some.1 h
    have hs1 := ih hvs
    exact ⟨hs1.mem, hs1.out⟩

def Above (base : BitVec 64) (a b : BitVec 32) : Prop := base + a.setWidth 64 < base + b.setWidth 64

variable {i : ℕ}

lemma firstNotAbove_eq_none : firstNotAbove base i ws = none ↔ ws.IsChain (Above base) := by
  induction ws generalizing i with
  | nil => simp [firstNotAbove]
  | cons a ws ih =>
    cases ws with
    | nil => simp [firstNotAbove]
    | cons b ws =>
      rw [firstNotAbove, isChain_cons_cons, ← ih (i := i + 1), Above]
      split
      · rename_i hle
        simp [BitVec.not_lt.2 hle]
      · rename_i hle
        simp [BitVec.not_le.1 hle]

/-- Offsets that are sorted are at different addresses, in ascending order. -/
def Ascending (ctx : Ctx) (q : Qsort) (base : BitVec 64) (x n : ℕ) (s : St) : Prop :=
  2 ≤ n → ∀ ws s', words ctx n x s = (some ws, s') → (q.sort ws).IsChain (Above base)

def Complains (s s' : St) : Prop := ∃ errNo fmt args, s'.out = s.out ++ [.err errNo fmt args]

variable {b : Bool}

lemma sortUnique_some {x n : ℕ} {fmt : String} (h : sortUnique ctx q base x n fmt s = (some b, s')) :
    (b = true ∧ Ascending ctx q base x n s ∧ s'.out = s.out) ∨
      (b = false ∧ ¬Ascending ctx q base x n s ∧ Complains s s') := by
  rcases ite_eq_some.1 h with ⟨hlt, h⟩ | ⟨hge, h⟩
  · cases h
    exact .inl ⟨rfl, fun hn => absurd hlt (by omega), rfl⟩
  · obtain ⟨ws, s1, hws, h⟩ := bind_eq_some.1 h
    obtain ⟨_, s2, hwrite, h⟩ := bind_eq_some.1 h
    have hout : s2.out = s.out := (write_some hwrite).2.2.trans (words_same hws).out
    have hasc : Ascending ctx q base x n s ↔ (q.sort ws).IsChain (Above base) := by
      constructor
      · intro hasc
        exact hasc (by omega) ws s1 hws
      · intro hchain hn ws' s1' hws'
        rw [hws] at hws'
        cases hws'
        exact hchain
    cases hfirst : firstNotAbove base 1 (q.sort ws) with
    | none =>
      rw [hfirst] at h
      cases h
      exact .inl ⟨rfl, hasc.2 (firstNotAbove_eq_none.1 hfirst), hout⟩
    | some p =>
      simp only [hfirst, emit_bind, pure_eq_some] at h
      obtain ⟨rfl, rfl⟩ := h
      refine .inr ⟨rfl, fun hn => ?_, _, _, _, by rw [← hout]⟩
      rw [hasc, ← firstNotAbove_eq_none, hfirst] at hn
      cases hn

/-! ## Probes -/

/-- The offsets of a probe, and after them those for is-enabled probes, are at different addresses, and there is one
of them at least; there are native arguments if there are translated ones. -/
structure Good (ctx : Ctx) (q : Qsort) (dhpb : ProbeDesc) (s : St) : Prop where
  offs : Ascending ctx q dhpb.base dhpb.offs dhpb.noffs s
  enoffs : ∀ b s', sortUnique ctx q dhpb.base dhpb.offs dhpb.noffs "non-unique USDT offsets at %i: %li <= %li" s =
    (some b, s') → Ascending ctx q dhpb.base dhpb.enoffs dhpb.nenoffs s'
  tracepoints : 0 < dhpb.noffs + dhpb.nenoffs
  args : 0 < dhpb.xargc → 0 < dhpb.nargc

lemma validateProbe_some (h : validateProbe ctx q dhpb s = (some b, s')) :
    (b = true ∧ 0 < dhpb.noffs + dhpb.nenoffs ∧ ((0 < dhpb.xargc → 0 < dhpb.nargc) → Good ctx q dhpb s) ∧
      s'.out = s.out) ∨ (b = false ∧ ¬Good ctx q dhpb s ∧ Complains s s') := by
  obtain ⟨_, _, hoffs, h⟩ := bind_eq_some.1 h
  rcases sortUnique_some hoffs with ⟨rfl, hasc, hout⟩ | ⟨rfl, hasc, hcomp⟩
  · rw [if_pos rfl] at h
    obtain ⟨_, _, henoffs, h⟩ := bind_eq_some.1 h
    rcases sortUnique_some henoffs with ⟨rfl, hasc', hout'⟩ | ⟨rfl, hasc', hcomp⟩
    · rw [if_pos rfl] at h
      rcases ite_eq_some.1 h with ⟨hzero, h⟩ | ⟨hpos, h⟩
      · rw [emit_bind] at h
        cases h
        refine .inr ⟨rfl, fun hgood => ?_, _, _, _, by rw [← hout, ← hout']⟩
        have := hgood.tracepoints
        omega
      · cases h
        refine .inl ⟨rfl, by omega, fun hargs => ⟨hasc, fun b s' hrun => ?_, by omega, hargs⟩, hout'.trans hout⟩
        rw [hoffs] at hrun
        cases hrun
        exact hasc'
    · rw [if_neg (by decide)] at h
      cases h
      refine .inr ⟨rfl, fun hgood => hasc' (hgood.enoffs _ _ hoffs), ?_⟩
      obtain ⟨e, fmt, args, hout'⟩ := hcomp
      exact ⟨e, fmt, args, by rw [hout', hout]⟩
  · rw [if_neg (by decide)] at h
    cases h
    exact .inr ⟨rfl, fun hgood => hasc hgood.offs, hcomp⟩

lemma strings_same {strs : Bytes} (h : strings ctx n x s = (some strs, s')) : s.Same s' := by
  induction n generalizing x s strs with
  | zero =>
    obtain ⟨-, rfl⟩ := pure_eq_some.1 h
    exact St.Same.refl s
  | succ n ih =>
    obtain ⟨_, _, hstr, h⟩ := bind_eq_some.1 h
    obtain ⟨-, rfl⟩ := readStr_eq_some.1 hstr
    obtain ⟨_, _, hrest, h⟩ := bind_eq_some.1 h
    cases h
    have hs2 := ih hrest
    exact ⟨hs2.mem, hs2.out⟩

lemma emitTps_some {isEnabled : Bool} (h : emitTps ctx base isEnabled n x s = (some (), s')) :
    ∃ msgs : List Msg, s'.out = s.out ++ msgs ∧ msgs.length = n ∧ ∀ m ∈ msgs, m.IsTp := by
  induction n generalizing x s with
  | zero =>
    cases h
    exact ⟨[], by simp, rfl, by simp⟩
  | succ n ih =>
    simp only [emitTps, num_bind, emit_bind] at h
    obtain ⟨msgs, hout, hlen, htp⟩ := ih h.2
    refine ⟨_ :: msgs, by rw [hout, append_assoc]; rfl, by rw [length_cons, hlen], ?_⟩
    exact forall_mem_cons.2 ⟨trivial, htp⟩

lemma emitArgs_some (h : emitArgs ctx dhpb s = (some (), s')) :
    ∃ msgs, s'.out = s.out ++ msgs ∧ (dhpb.nargc = 0 → msgs = []) ∧
      ((0 < dhpb.xargc → 0 < dhpb.nargc) → ∀ p t, Runs msgs
        ⟨p, decide (0 < dhpb.nargc), decide (0 < dhpb.xargc), decide (0 < dhpb.xargc), t⟩
        ⟨p, false, false, false, t⟩) := by
  rcases ite_eq_some.1 h with ⟨hn, h⟩ | ⟨hn, h⟩
  · obtain ⟨nargs, _, hnargs, h⟩ := bind_eq_some.1 h
    have hs1 := strings_same hnargs
    rcases ite_eq_some.1 h with ⟨hx, h⟩ | ⟨hx, h⟩
    · obtain ⟨xargs, _, hxargs, h⟩ := bind_eq_some.1 h
      have hs2 := strings_same hxargs
      rw [emit_bind] at h
      obtain ⟨argmap, _, hmap, h⟩ := bind_eq_some.1 h
      obtain ⟨-, -, rfl⟩ := read_eq_some.1 hmap
      cases h
      refine ⟨[.argsNative nargs, .argsXlat xargs, .argsMap argmap], ?_, fun hz => absurd hn (by omega),
        fun _ p t => ?_⟩
      · simp [hs2.out, hs1.out]
      · simp [Runs, Due.step, hn, hx]
    · cases h
      refine ⟨[.argsNative nargs], by simp [hs1.out], fun hz => absurd hn (by omega), fun _ p t => ?_⟩
      simp [Runs, Due.step, hn, hx]
  · cases h
    refine ⟨[], by simp, fun _ => rfl, fun hargs p t => ?_⟩
    have hx : ¬0 < dhpb.xargc := fun hx => hn (hargs hx)
    simp [Runs, hn, hx]

/-- A probe comes with all that it announces if it is good, and otherwise the stream ends there. -/
lemma emitProbe_feeds (h : emitProbe ctx q dhpb s = (some (), s')) (n : ℕ) :
    Feeds s s' (Good ctx q dhpb s) (.atProbe (n + 1)) (.atProbe n) := by
  obtain ⟨b, _, hvalid, h⟩ := bind_eq_some.1 h
  rcases validateProbe_some hvalid with ⟨rfl, hpos, hgood, hout1⟩ | ⟨rfl, hbad, e, fmt, args, hout⟩
  · rw [if_pos rfl] at h
    obtain ⟨func, _, hfunc, h⟩ := bind_eq_some.1 h
    obtain ⟨-, rfl⟩ := readStr_eq_some.1 hfunc
    obtain ⟨name, _, hname, h⟩ := bind_eq_some.1 h
    obtain ⟨-, rfl⟩ := readStr_eq_some.1 hname
    rw [emit_bind] at h
    obtain ⟨_, _, hargs, h⟩ := bind_eq_some.1 h
    obtain ⟨_, _, hoffs, h⟩ := bind_eq_some.1 h
    obtain ⟨margs, hout4, hnil, hrun⟩ := emitArgs_some hargs
    obtain ⟨mtps, hout5, hlen, htp⟩ := emitTps_some hoffs
    obtain ⟨mtps', hout6, hlen', htp'⟩ := emitTps_some h
    have htps : ∀ m ∈ mtps ++ mtps', m.IsTp := fun m hm => (mem_append.1 hm).elim (htp m) (htp' m)
    refine ⟨.probe (dhpb.noffs + dhpb.nenoffs) dhpb.nargc dhpb.xargc ctx.mod func name ::
      (margs ++ (mtps ++ mtps')), ?_, fun hg => ?_, fun hg => ?_⟩
    · rw [hout6, hout5, hout4]
      simp [hout1]
    · have hstep : Due.step (.atProbe (n + 1))
          (.probe (dhpb.noffs + dhpb.nenoffs) dhpb.nargc dhpb.xargc ctx.mod func name) =
          some ⟨n, decide (0 < dhpb.nargc), decide (0 < dhpb.xargc), decide (0 < dhpb.xargc),
            dhpb.noffs + dhpb.nenoffs⟩ := by
        simp [Due.step, Due.atProbe, hpos]
      have hall := runs_tracepoints htps n 0
      rw [length_append, hlen, hlen'] at hall
      rw [Runs, foldlM_cons, hstep]
      exact (hrun hg.args n _).append hall
    · -- what is left to be wrong are the arguments
      have hx : 0 < dhpb.xargc ∧ dhpb.nargc = 0 := by
        by_contra hx
        exact hg (hgood (by omega))
      rw [hnil hx.2, nil_append]
      have hcons : ∃ m ms, mtps ++ mtps' = m :: ms ∧ m.IsTp := by
        rcases hm : mtps ++ mtps' with _ | ⟨m, ms⟩
        · have hzero := congrArg length hm
          rw [length_append, hlen, hlen', length_nil] at hzero
          omega
        · exact ⟨m, ms, rfl, htps m (hm ▸ mem_cons_self)⟩
      obtain ⟨m, ms, hms, hm⟩ := hcons
      rw [hms]
      exact stuck_xlat hx.1 hm ms
  · rw [if_neg (by decide)] at h
    cases h
    exact ⟨_, hout, fun hg => absurd hg hbad, fun _ => stuck_err e fmt args⟩

/-! ## Providers -/

lemma nextProbe_same {prb : ℕ} (h : nextProbe ctx prb parts i s = (some dhpb, s')) : s.Same s' := by
  simp only [nextProbe, probeDesc, dofsOffset, dofsEntsize, dofprFunc, dofprName, dofprAddr, dofprOffidx, dofprNoffs,
    num_bind] at h
  obtain ⟨-, -, -, -, -, -, -, h⟩ := h
  cases henoff : parts.enoff with
  | none =>
    simp only [henoff, pure_bind, dofprArgidx, dofprNargc, dofprXargc, dofprNargv, dofprXargv, num_bind,
      pure_eq_some] at h
    obtain ⟨-, -, -, -, -, -, rfl⟩ := h
    exact ⟨rfl, rfl⟩
  | some enoff =>
    simp only [henoff, pure_bind, dofprEnoffidx, dofprNenoffs, dofprArgidx, dofprNargc, dofprXargc, dofprNargv,
      dofprXargv, num_bind, pure_eq_some] at h
    obtain ⟨-, -, -, -, -, -, -, -, rfl⟩ := h
    exact ⟨rfl, rfl⟩

lemma emitProbes_feeds {prb n : ℕ} (h : emitProbes ctx q prb parts n i s = (some (), s')) :
    Feeds s s' (ProbesMeet ctx q (Good ctx q) prb parts n i s) (.atProbe n) Due.none := by
  induction n generalizing i s with
  | zero =>
    cases h
    exact feeds_nil rfl trivial _
  | succ n ih =>
    obtain ⟨dhpb, s1, hnext, h⟩ := bind_eq_some.1 h
    obtain ⟨_, s2, hemit, h⟩ := bind_eq_some.1 h
    have hfirst : Feeds s s1 True (.atProbe (n + 1)) (.atProbe (n + 1)) :=
      feeds_nil (nextProbe_same hnext).out trivial _
    refine ((hfirst.trans (emitProbe_feeds hemit n)).trans (ih h)).congr ?_
    constructor
    · rintro ⟨⟨-, hgood⟩, hrest⟩ _ _ hnext'
      rw [hnext] at hnext'
      cases hnext'
      refine ⟨hgood, fun s2' hemit' => ?_⟩
      rw [hemit] at hemit'
      cases hemit'
      exact hrest
    · intro hmeet
      obtain ⟨hgood, hrest⟩ := hmeet dhpb s1 hnext
      exact ⟨⟨trivial, hgood⟩, hrest s2 hemit⟩

def Quiet {α : Type} (x : Exec St α) : Prop := ∀ s s' a, x s = (some a, s') → s'.out = s.out

/-- The run announces a provider and nothing else. -/
def Announces (x : Exec St (ℕ × Parts × ℕ)) : Prop :=
  ∀ s s' prb parts n, x s = (some (prb, parts, n), s') → ∃ name, s'.out = s.out ++ [.provider n name]

lemma Quiet.announces {α : Type} {x : Exec St α} {f : α → Exec St (ℕ × Parts × ℕ)} (hx : Quiet x)
    (hf : ∀ a, Announces (f a)) : Announces (x >>= f) := by
  intro s s' prb parts n h
  obtain ⟨a, s1, ha, h⟩ := bind_eq_some.1 h
  rw [← hx s s1 a ha]
  exact hf a s1 s' prb parts n h

lemma quiet_num (x n : ℕ) : Quiet (num ctx x n) := by
  intro s s' v h
  obtain ⟨-, -, rfl⟩ := num_eq_some.1 h
  rfl

lemma quiet_secAt (i : ℕ) : Quiet (secAt ctx i) := fun _ _ _ h => (secAt_eq_some h).2.out

lemma quiet_readStr (x : ℕ) : Quiet (readStr ctx x) := by
  intro s s' str h
  obtain ⟨-, rfl⟩ := readStr_eq_some.1 h
  rfl

lemma announces_emitHeader (sec : ℕ) : Announces (emitHeader ctx sec) := by
  -- what is read after the offset of the is-enabled probes
  have htail : ∀ (prov prb strtab off arg : ℕ) (enoff : Option ℕ), Announces (do
      let nameIdx ← dofpvName ctx prov
      let name ← readStr ctx (strtab + nameIdx)
      let size ← dofsSize ctx prb
      let entsize ← dofsEntsize ctx prb
      emit (.provider (size / entsize) name)
      pure (prb, ⟨strtab, off, arg, enoff⟩, size / entsize)) := by
    intro prov prb strtab off arg enoff
    refine (quiet_num _ _).announces fun nameIdx => (quiet_readStr _).announces fun name => ?_
    refine (quiet_num _ _).announces fun size => (quiet_num _ _).announces fun entsize => ?_
    intro s s' prb parts n h
    rw [emit_bind, pure_eq_some] at h
    cases h.1
    rw [← h.2]
    exact ⟨name, rfl⟩
  refine (quiet_num _ _).announces fun prov => ?_
  refine (quiet_num _ _).announces fun strIdx => (quiet_secAt _).announces fun str => ?_
  refine (quiet_num _ _).announces fun prbIdx => (quiet_secAt _).announces fun prb => ?_
  refine (quiet_num _ _).announces fun argIdx => (quiet_secAt _).announces fun argSec => ?_
  refine (quiet_num _ _).announces fun offIdx => (quiet_secAt _).announces fun offSec => ?_
  refine (quiet_num _ _).announces fun strtab => (quiet_num _ _).announces fun off => ?_
  refine (quiet_num _ _).announces fun arg => (quiet_num _ _).announces fun vers => ?_
  by_cases hvers : vers < 3
  · rw [if_pos hvers, pure_bind]
    exact htail prov prb strtab off arg none
  · rw [if_neg hvers]
    refine (quiet_num _ _).announces fun prenoffs => ?_
    by_cases hnone : prenoffs = sectNone
    · rw [if_pos hnone, pure_bind]
      exact htail prov prb strtab off arg none
    · rw [if_neg hnone]
      refine (quiet_secAt _).announces fun enoffSec => (quiet_num _ _).announces fun enoff => ?_
      rw [pure_bind]
      exact htail prov prb strtab off arg (some enoff)

lemma emitHeader_feeds {sec prb n : ℕ} (h : emitHeader ctx sec s = (some (prb, parts, n), s')) :
    Feeds s s' True Due.none (.atProbe n) := by
  obtain ⟨_, hout⟩ := announces_emitHeader sec s s' prb parts n h
  exact ⟨_, hout, fun _ => rfl, fun hn => absurd trivial hn⟩

lemma parseSection_feeds (h : parseSection ctx q i s = (some (), s')) :
    Feeds s s' (SectionMeets ctx q (Good ctx q) i s) Due.none Due.none := by
  obtain ⟨sec, s1, hsec, h⟩ := bind_eq_some.1 h
  obtain ⟨type, s2, htype, h⟩ := bind_eq_some.1 h
  have hs2 : s2.out = s.out := by
    obtain ⟨-, hs1⟩ := secAt_eq_some hsec
    obtain ⟨-, -, rfl⟩ := num_eq_some.1 htype
    exact hs1.out
  -- a run that has got so far is the only one
  have hfix : ∀ sec' s1' type' s2', secAt ctx i s = (some sec', s1') → dofsType ctx sec' s1' = (some type', s2') →
      sec' = sec ∧ type' = type ∧ s2' = s2 := by
    intro sec' s1' type' s2' hsec' htype'
    rw [hsec] at hsec'
    cases hsec'
    rw [htype] at htype'
    cases htype'
    exact ⟨rfl, rfl, rfl⟩
  rcases ite_eq_some.1 h with ⟨hne, h⟩ | ⟨heq, h⟩
  · cases h
    refine feeds_nil hs2 ?_ _
    intro sec' s1' type' s2' s3' prb parts n s4' hsec' htype' hprov
    obtain ⟨-, rfl, -⟩ := hfix sec' s1' type' s2' hsec' htype'
    exact absurd hprov hne
  · obtain ⟨_, s3, hvalid, h⟩ := bind_eq_some.1 h
    obtain ⟨⟨prb, parts, n⟩, s4, hheader, h⟩ := bind_eq_some.1 h
    rcases ite_eq_some.1 h with ⟨-, h⟩ | ⟨-, h⟩
    · have hread : Feeds s s3 True Due.none Due.none :=
        feeds_nil ((validateProvider_some hvalid).2.out.trans hs2) trivial _
      refine ((hread.trans (emitHeader_feeds hheader)).trans (emitProbes_feeds h)).congr ?_
      constructor
      · rintro ⟨-, hmeet⟩ sec' s1' type' s2' _ _ _ _ _ hsec' htype' - hvalid' hheader'
        obtain ⟨rfl, rfl, rfl⟩ := hfix sec' s1' type' s2' hsec' htype'
        rw [hvalid] at hvalid'
        cases hvalid'
        rw [hheader] at hheader'
        cases hheader'
        exact hmeet
      · intro hmeet
        exact ⟨⟨trivial, trivial⟩, hmeet sec s1 type s2 s3 prb parts n s4 hsec htype (not_not.1 heq) hvalid hheader⟩
    · cases h

lemma secLoop_feeds {body : ℕ → Exec St Unit} {Q : ℕ → St → Prop} {fuel : ℕ}
    (hbody : ∀ i s s', body i s = (some (), s') → Feeds s s' (Q i s) Due.none Due.none)
    (h : secLoop ctx body fuel i s = (some (), s')) :
    Feeds s s' (LoopMeets ctx body Q fuel i s) Due.none Due.none := by
  induction fuel generalizing i s with
  | zero => cases h
  | succ fuel ih =>
    obtain ⟨n, s1, hnum, h⟩ := bind_eq_some.1 h
    have hs1 : s1.out = s.out := by
      obtain ⟨-, -, rfl⟩ := num_eq_some.1 hnum
      rfl
    rcases ite_eq_some.1 h with ⟨hlt, h⟩ | ⟨hge, h⟩
    · obtain ⟨_, s2, hturn, h⟩ := bind_eq_some.1 h
      have hread : Feeds s s1 True Due.none Due.none := feeds_nil hs1 trivial _
      refine ((hread.trans (hbody i s1 s2 hturn)).trans (ih h)).congr ?_
      constructor
      · rintro ⟨⟨-, hQ⟩, hrest⟩ n' s1' hnum' -
        rw [hnum] at hnum'
        cases hnum'
        refine ⟨hQ, fun s2' hturn' => ?_⟩
        rw [hturn] at hturn'
        cases hturn'
        exact hrest
      · intro hmeet
        obtain ⟨hQ, hrest⟩ := hmeet n s1 hnum hlt
        exact ⟨⟨trivial, hQ⟩, hrest s2 hturn⟩
    · cases h
      refine feeds_nil hs1 (fun n' s1' hnum' hlt => ?_) _
      rw [hnum] at hnum'
      cases hnum'
      exact absurd hlt hge

lemma dofSlurp_out (h : dofSlurp ctx s = (some (), s')) : s'.out = s.out := by
  obtain ⟨_, s1, hcheck, h⟩ := bind_eq_some.1 h
  obtain ⟨-, hs1⟩ := checkSections_some hcheck
  have hsame : ∀ t t' : St, t.Same t' → t.out = s1.out → t'.out = s1.out := fun t t' hsame ht => hsame.out.trans ht
  refine (relocSections_keep hsame ?_ rfl h).trans hs1.out
  intro ts r t t' ht hentry
  rcases relocEntry_some hentry with hsame | ⟨-, hout, -⟩
  · exact hsame.out.trans ht
  · exact hout.trans ht

end

/-- **The stream of a DOF.**  When the parser returns 0, the stream is well formed if and only if every probe is good
in the state in which it is emitted. -/
theorem dof_stream_iff {ctx : Ctx} {q : Qsort} {mem : Bytes} {s' : St}
    (h : usdtParseDof ctx q (St.init mem) = (some (), s')) :
    WellFormed s'.out ↔ RunMeets ctx q (Good ctx q) (St.init mem) := by
  obtain ⟨len, s₁, hlen, h⟩ := bind_eq_some.1 h
  rw [ite_fail] at h
  obtain ⟨_, s₂, hslurp, h⟩ := bind_eq_some.1 h.2
  have hs₂ : s₂.out = [] := by
    rw [dofSlurp_out hslurp]
    obtain ⟨-, -, rfl⟩ := num_eq_some.1 hlen
    rfl
  obtain ⟨_, hout, hrun, hstuck⟩ := secLoop_feeds (fun i s s' hturn => parseSection_feeds hturn) h
  rw [hs₂, nil_append] at hout
  have hmeets : RunMeets ctx q (Good ctx q) (St.init mem) ↔
      LoopMeets ctx (parseSection ctx q) (SectionMeets ctx q (Good ctx q)) maxTurns 0 s₂ := by
    constructor
    · intro hmeet
      exact hmeet len s₁ s₂ hlen hslurp
    · intro hmeet len' s₁' s₂' hlen' hslurp'
      rw [hlen] at hlen'
      cases hlen'
      rw [hslurp] at hslurp'
      cases hslurp'
      exact hmeet
  rw [hmeets, hout]
  constructor
  · intro hwf
    by_contra hn
    rw [WellFormed, hstuck hn] at hwf
    cases hwf
  · exact hrun

/-- A `qsort` that sorts by insertion. -/
def insertionQsort : Qsort where
  sort := List.insertionSort (· ≤ ·)
  perm := List.perm_insertionSort _
  sorted := fun l _ => List.pairwise_insertionSort _ l

theorem dof_stream_small :
    (usdtParseDof (smallCtx (smallDof 0 2 [32, 16])) insertionQsort (smallSt (smallDof 0 2 [32, 16]))).1 = some () ∧
      RunMeets (smallCtx (smallDof 0 2 [32, 16])) insertionQsort
        (Good (smallCtx (smallDof 0 2 [32, 16])) insertionQsort) (smallSt (smallDof 0 2 [32, 16])) := by
  have hrun : (usdtParseDof (smallCtx (smallDof 0 2 [32, 16])) insertionQsort
      (smallSt (smallDof 0 2 [32, 16]))).1 = some () := by decide +kernel
  refine ⟨hrun, (dof_stream_iff (eq_of_fst hrun)).1 ?_⟩
  unfold WellFormed
  decide +kernel

/-- Two offsets of a probe are the same: the provider announces a probe that does not come. -/
theorem dof_stream_duplicate :
    (usdtParseDof (smallCtx (smallDof 0 2 [16, 16])) insertionQsort (smallSt (smallDof 0 2 [16, 16]))).1 = some () ∧
      ¬WellFormed (usdtParseDof (smallCtx (smallDof 0 2 [16, 16])) insertionQsort
        (smallSt (smallDof 0 2 [16, 16]))).2.out := by
  unfold WellFormed
  decide +kernel

end DTrace.Usdt.Dof
