import DTrace.Usdt.NotesMove

/-!
# The stream of the notes

What the parser emits when all tracepoints have been moved.

* `walk_eq` — a walk gets the entries of the table;
* `emitProbe_run`, `emitProvider_run` — a probe with its arguments and tracepoints, a provider with its probes;
* `stream_iff` — the stream is well formed and has the tracepoints of the notes, if the offsets fit into 32 bits and
  no probe has translated arguments only.
-/

namespace DTrace.Usdt

open Lib List BitVec

/-! ## Walks -/

section

variable {α : Type} [DecidableEq α] {t : Htab α}

lemma walkLoop_eq {before todo : List α} {n : ℕ} (hnodup : t.list.Nodup) (hlist : t.list = before ++ todo)
    (hn : todo.length < n) : walkLoop t n (.of todo) = todo := by
  induction todo generalizing before n with
  | nil =>
    rcases n with _ | n
    · omega
    · rfl
  | cons e todo ih =>
    rcases n with _ | n
    · omega
    have hnot : e ∉ before := by
      rw [hlist, nodup_append] at hnodup
      intro he
      exact hnodup.2.2 e he e mem_cons_self rfl
    have hrest := ih (hlist.trans (append_cons _ _ _)) (by simpa using hn)
    have hnext : dtHtabNext t (.of (e :: todo)) = (some e, .of todo) := dtHtabNext_next hlist hnot
    simp only [walkLoop, hnext, hrest]

lemma walk_eq (hnodup : t.list.Nodup) : walk t = t.list := by
  have hall := walkLoop_eq hnodup (nil_append _).symm (Nat.lt_succ_self _)
  rw [walk, walkLoop, dtHtabNext_start]
  rwa [walkLoop] at hall

end

/-! ## Messages -/

variable {pvp : Provider} {g : Probe} {ctx : Ctx}

section

variable {msgs msgs' : List Msg} {d d' d'' : Due} {n : ℕ}

lemma runs_tps (tps : List Tp) : Runs (tps.map (emitTp ctx)) ⟨n, false, false, false, tps.length⟩ (.atProbe n) := by
  have htps : ∀ m ∈ tps.map (emitTp ctx), m.IsTp := forall_mem_map.2 fun _ _ => trivial
  have hrun := runs_tracepoints htps n 0
  rwa [length_map] at hrun

def emitArgs (prp : Probe) : List Msg :=
  if prp.nargc ≠ 0 then
    .argsNative prp.nargs :: (if prp.xargc ≠ 0 then [.argsXlat prp.xargs, .argsMap prp.xmap] else [])
  else []

lemma emitProbe_eq (ctx : Ctx) (g : Probe) :
    emitProbe ctx g = .probe g.ntp g.nargc g.xargc g.mod (g.fn.getD []) g.prb ::
      (emitArgs g ++ (g.tp :: g.next).map (emitTp ctx)) := rfl

/-- What is due when a probe has been announced. -/
def Probe.due (g : Probe) (n : ℕ) : Due :=
  ⟨n, decide (0 < g.nargc), decide (0 < g.xargc), decide (0 < g.xargc), g.ntp⟩

lemma emitArgs_run (hargs : g.nargc = 0 → g.xargc = 0) :
    Runs (emitArgs g) (g.due n) ⟨n, false, false, false, g.ntp⟩ := by
  rw [Runs, emitArgs, Probe.due]
  by_cases hn : g.nargc = 0
  · simp [hn, hargs hn]
  · by_cases hx : g.xargc = 0
    · simp [hn, hx, Due.step, Nat.pos_of_ne_zero hn]
    · simp [hn, hx, Due.step, Nat.pos_of_ne_zero hn, Nat.pos_of_ne_zero hx]

/-- A probe whose tracepoints are counted and whose arguments are there. -/
lemma emitProbe_run (hntp : g.ntp = g.next.length + 1) (hargs : g.nargc = 0 → g.xargc = 0) :
    Runs (emitProbe ctx g) (.atProbe (n + 1)) (.atProbe n) := by
  have htps : Runs ((g.tp :: g.next).map (emitTp ctx)) ⟨n, false, false, false, g.ntp⟩ (.atProbe n) := by
    rw [hntp]
    exact runs_tps _
  have hstep : Due.step (.atProbe (n + 1)) (.probe g.ntp g.nargc g.xargc g.mod (g.fn.getD []) g.prb) =
      some (g.due n) := by
    simp [Due.step, Due.atProbe, Probe.due, hntp]
  rw [emitProbe_eq, Runs, foldlM_cons, hstep]
  exact (emitArgs_run hargs).append htps

/-- A probe with translated arguments only: nothing of what is announced comes. -/
lemma emitProbe_stuck (hn : g.nargc = 0) (hx : 0 < g.xargc) : Stuck (emitProbe ctx g) := by
  have hargs : emitArgs g = [] := by simp [emitArgs, hn]
  have htp : (emitTp ctx g.tp).IsTp := trivial
  rw [emitProbe_eq, hargs]
  exact stuck_xlat hx htp _

/-! ## Providers -/

lemma emitProvider_eq (htidy : Tidy prbOps pvp.pmap) :
    emitProvider ctx pvp = .provider pvp.probec pvp.name :: pvp.groups.flatMap (emitProbe ctx) := by
  rw [emitProvider, walk_eq htidy.nodup, Provider.groups]
  congr 1
  generalize pvp.pmap.list = ps
  induction ps with
  | nil => rfl
  | cons p ps ih =>
    rw [flatMap_cons, ih]
    by_cases hp : p.fn = none
    · rw [if_pos hp, filter_cons_of_neg (by simpa using hp), nil_append]
    · rw [if_neg hp, filter_cons_of_pos (by simpa using hp), flatMap_cons]

lemma emitProvider_run (htidy : Tidy prbOps pvp.pmap) (hprobec : pvp.probec = pvp.groups.length)
    (hgroups : ∀ g ∈ pvp.groups, g.ntp = g.next.length + 1 ∧ (g.nargc = 0 → g.xargc = 0)) :
    Runs (emitProvider ctx pvp) .none .none := by
  have hprobes : ∀ gs : List Probe, (∀ g ∈ gs, g.ntp = g.next.length + 1 ∧ (g.nargc = 0 → g.xargc = 0)) →
      Runs (gs.flatMap (emitProbe ctx)) (.atProbe gs.length) .none := by
    intro gs hgs
    induction gs with
    | nil => rfl
    | cons g gs ih =>
      obtain ⟨hntp, hargs⟩ := hgs g mem_cons_self
      rw [flatMap_cons, length_cons]
      exact (emitProbe_run hntp hargs).append (ih fun h hh => hgs h (mem_cons_of_mem g hh))
  rw [emitProvider_eq htidy, Runs, foldlM_cons, hprobec]
  exact hprobes pvp.groups hgroups

def emitted (ctx : Ctx) (provs : List Provider) : List Msg :=
  (provs.filter (0 < ·.probec)).flatMap (emitProvider ctx)

lemma emitAll_eq {s : St} (hnodup : s.prvmap.list.Nodup) :
    emitAll ctx s = (some (), { s with out := s.out ++ emitted ctx s.prvmap.list }) := by
  have hflat : ∀ provs : List Provider,
      (provs.flatMap fun pvp => if 0 < pvp.probec then emitProvider ctx pvp else []) = emitted ctx provs := by
    intro provs
    induction provs with
    | nil => rfl
    | cons pvp provs ih =>
      rw [flatMap_cons, ih, emitted, emitted]
      by_cases hpos : 0 < pvp.probec
      · rw [if_pos hpos, filter_cons_of_pos (by simpa using hpos), flatMap_cons]
      · rw [if_neg hpos, filter_cons_of_neg (by simpa using hpos), nil_append]
  rw [emitAll, Exec.modify, walk_eq hnodup, hflat]

/-! ## Tracepoints -/

def Tp.message (ctx : Ctx) (tp : Tp) : BitVec 64 × Bool × Bytes :=
  (tp.off.setWidth 64 + ctx.addr, tp.isEnabled, tp.sargs)

@[simp] lemma tracepoints_append (msgs msgs' : List Msg) :
    tracepoints (msgs ++ msgs') = tracepoints msgs ++ tracepoints msgs' := filterMap_append

lemma tracepoints_flatMap {β : Type} (xs : List β) (f : β → List Msg) :
    tracepoints (xs.flatMap f) = xs.flatMap fun x => tracepoints (f x) := by
  induction xs with
  | nil => rfl
  | cons x xs ih => rw [flatMap_cons, tracepoints_append, ih, flatMap_cons]

lemma tracepoints_emitProbe (ctx : Ctx) (g : Probe) :
    tracepoints (emitProbe ctx g) = g.sites.map fun t => t.2.2.2.message ctx := by
  have hargs : tracepoints (emitArgs g) = [] := by
    rw [emitArgs]
    split
    · split <;> rfl
    · rfl
  have htps : ∀ tps : List Tp, tracepoints (tps.map (emitTp ctx)) = tps.map (Tp.message ctx) := by
    intro tps
    rw [tracepoints, filterMap_map, ← filterMap_eq_map]
    rfl
  rw [emitProbe_eq, Probe.sites, map_map]
  change tracepoints (emitArgs g ++ _) = _
  rw [tracepoints_append, hargs, htps, nil_append]
  rfl

lemma tracepoints_emitted {provs : List Provider} (htidy : ∀ pvp ∈ provs, Tidy prbOps pvp.pmap) :
    tracepoints (emitted ctx provs) =
      (((provs.filter (0 < ·.probec)).flatMap Provider.groups).flatMap Probe.sites).map
        fun t => t.2.2.2.message ctx := by
  rw [emitted, tracepoints_flatMap, flatMap_assoc, map_flatMap]
  refine flatMap_congr fun pvp hpvp => ?_
  rw [emitProvider_eq (htidy pvp (mem_filter.1 hpvp).1), map_flatMap]
  change tracepoints (pvp.groups.flatMap _) = _
  rw [tracepoints_flatMap]
  exact flatMap_congr fun g _ => tracepoints_emitProbe ctx g

end

/-! ## The stream -/

def UsdtNote.message (ctx : Ctx) (u : UsdtNote) : BitVec 64 × Bool × Bytes :=
  (u.off + ctx.addr, u.isEnabled, u.sargs)

/-- The stream is well formed, and its tracepoints are those of the notes. -/
def Stream (ctx : Ctx) (s : St) : Prop :=
  WellFormed s.out ∧ (tracepoints s.out).Perm (s.seen.map (·.message ctx))

/-- What has to hold of the notes: the offset of a tracepoint has 32 bits, and if its probe has translated arguments,
it has native ones. -/
def NotesFit (s : St) : Prop :=
  ∀ u ∈ s.seen, u.off.toNat < 2 ^ 32 ∧
    ∀ pvp ∈ s.prvmap.list, pvp.name = u.prv → ∀ d ∈ pvp.pmap.list, d.prb = u.prb → d.nargc = 0 → d.xargc = 0

section

variable {s s₁ s₂ : St} {mem : Bytes} {done : List Probe}

lemma usdtParseNotes_some (hread : readNotes ctx (ctx.size + 1) 0 (St.init mem) = (some (), s₁))
    (hrun : usdtParseNotes ctx (St.init mem) = (some (), s)) :
    ∃ s₂, Collected ctx s₁ ∧ Moved ctx.mod s₁.prvmap.list s₁.prbmap.list [] s₂ ∧ s.seen = s₁.seen ∧
      s.out = emitted ctx s₂.prvmap.list ∧
      moveLoop (s₁.prbmap.list.length + 1) (.of s₁.prbmap.list) s₁ = (some (), s₂) := by
  have hcoll := readNotes_collected (collected_init ctx mem) hread
  rw [usdtParseNotes, Exec.bind_some hread] at hrun
  obtain ⟨_, _, hget, hrun⟩ := Exec.bind_eq_some.1 hrun
  cases hget
  obtain ⟨_, s₂, hmove, hemit⟩ := Exec.bind_eq_some.1 hrun
  obtain ⟨hmoved, hout, hseen⟩ := moveLoop_all hcoll hmove
  rw [emitAll_eq hmoved.prvTidy.nodup, hout] at hemit
  cases hemit
  exact ⟨s₂, hcoll, hmoved, hseen, rfl, moveLoop_start _ s₁ ▸ hmove⟩

lemma length_le_flatMap {α β : Type} {f : α → List β} {xs : List α} {x : α} (hx : x ∈ xs) :
    (f x).length ≤ (xs.flatMap f).length := by
  obtain ⟨_, _, rfl⟩ := append_of_mem hx
  rw [flatMap_append, flatMap_cons, length_append, length_append]
  omega

lemma length_le_sites (gs : List Probe) : gs.length ≤ (gs.flatMap Probe.sites).length := by
  induction gs with
  | nil => exact Nat.le_refl 0
  | cons g gs ih =>
    have hone : 1 ≤ g.sites.length := by simp [Probe.sites]
    rw [flatMap_cons, length_append, length_cons]
    omega

section

variable (h : Moved ctx.mod s₁.prvmap.list done [] s₂)
include h

lemma Moved.counted (hfew : done.length < 2 ^ 32)
    (hpvp : pvp ∈ s₂.prvmap.list) : pvp.probec = pvp.groups.length ∧ ∀ g ∈ pvp.groups, g.ntp = g.next.length + 1 := by
  obtain ⟨_, -, -, hok⟩ := h.ok pvp hpvp
  have htotal : (pvp.groups.flatMap Probe.sites).length ≤ done.length := by
    have hlen := h.sites.length_eq
    rw [flatMap_assoc, length_map] at hlen
    rw [← hlen]
    exact length_le_flatMap (f := fun pvp => pvp.groups.flatMap Probe.sites) hpvp
  refine ⟨?_, fun g hg => ?_⟩
  · have hle := length_le_sites pvp.groups
    rw [hok.probec, Nat.mod_eq_of_lt (by omega)]
  · have hle : g.sites.length ≤ _ := length_le_flatMap hg
    have hlen : g.sites.length = g.next.length + 1 := by simp [Probe.sites]
    rw [hok.ntp g hg, Nat.mod_eq_of_lt (by omega)]

lemma Moved.pmap_tidy : ∀ pvp ∈ s₂.prvmap.list, Tidy prbOps pvp.pmap := by
  intro pvp hpvp
  obtain ⟨_, -, -, hok⟩ := h.ok pvp hpvp
  exact hok.tidy

lemma Moved.emitted_groups (hfew : done.length < 2 ^ 32) :
    (s₂.prvmap.list.filter (0 < ·.probec)).flatMap Provider.groups = s₂.prvmap.list.flatMap Provider.groups := by
  have hnone : ∀ provs : List Provider, (∀ pvp ∈ provs, pvp ∈ s₂.prvmap.list) →
      (provs.filter (0 < ·.probec)).flatMap Provider.groups = provs.flatMap Provider.groups := by
    intro provs hprovs
    induction provs with
    | nil => rfl
    | cons pvp provs ih =>
      have hrest := ih fun q hq => hprovs q (mem_cons_of_mem _ hq)
      obtain ⟨hprobec, -⟩ := h.counted hfew (hprovs pvp mem_cons_self)
      by_cases hpos : 0 < pvp.probec
      · rw [filter_cons_of_pos (by simpa using hpos), flatMap_cons, hrest, flatMap_cons]
      · have hnil : pvp.groups = [] := eq_nil_of_length_eq_zero (by omega)
        rw [filter_cons_of_neg (by simpa using hpos), hrest, flatMap_cons, hnil, nil_append]
  exact hnone _ fun pvp hpvp => hpvp

end

lemma Moved.group_of_note (h : Moved ctx.mod s₁.prvmap.list s₁.prbmap.list [] s₂) (hcoll : Collected ctx s₁)
    {u : UsdtNote} (hu : u ∈ s₁.seen) :
    ∃ pvp ∈ s₂.prvmap.list, ∃ g ∈ pvp.groups, u.site ∈ g.sites ∧ g.prv = u.prv ∧ g.prb = u.prb := by
  have hsite := hcoll.sites.mem_iff.2 (mem_map_of_mem hu)
  obtain ⟨g, hg, hgu⟩ := mem_flatMap.1 (h.sites.mem_iff.2 hsite)
  obtain ⟨pvp, hpvp, hg⟩ := mem_flatMap.1 hg
  obtain ⟨_, -, heq⟩ := mem_map.1 hgu
  simp only [UsdtNote.site, Prod.mk.injEq] at heq
  exact ⟨pvp, hpvp, g, hg, hgu, heq.1, heq.2.2.1⟩

lemma provider_unique (h : Tidy prvOps s.prvmap) {pvp' : Provider} (hpvp : pvp ∈ s.prvmap.list)
    (hpvp' : pvp' ∈ s.prvmap.list) (hname : pvp.name = pvp'.name) : pvp = pvp' := by
  have hlook : dtHtabLookup prvOps s.prvmap pvp = dtHtabLookup prvOps s.prvmap pvp' :=
    lookup_congr (by simp only [prvOps, hname]) fun q => by simp only [prvOps, hname]
  rwa [h.lookup_self hpvp, h.lookup_self hpvp', Option.some.injEq] at hlook

lemma Collected.unique (h : Collected ctx s₁) {pvp' : Provider} (hpvp : pvp ∈ s₁.prvmap.list)
    (hpvp' : pvp' ∈ s₁.prvmap.list) (hname : pvp.name = pvp'.name) {d d' : Probe} (hd : d ∈ pvp.pmap.list)
    (hd' : d' ∈ pvp'.pmap.list) (hprb : d.prb = d'.prb) : d = d' := by
  obtain rfl := provider_unique h.prvTidy hpvp hpvp' hname
  have hdefs := h.defs pvp hpvp
  have hdef := hdefs.isDef d hd
  have hdef' := hdefs.isDef d' hd'
  have hlook : dtHtabLookup prbOps pvp.pmap d = dtHtabLookup prbOps pvp.pmap d' := by
    rw [lookup_prb, hdef.prv, hdef.mod, hdef.fn, hdef.off, hprb, ← hdef'.prv, ← hdef'.mod, ← hdef'.fn, ← hdef'.off,
      ← lookup_prb]
  rwa [hdefs.tidy.lookup_self hd, hdefs.tidy.lookup_self hd', Option.some.injEq] at hlook

section

variable (h : Moved ctx.mod s₁.prvmap.list s₁.prbmap.list [] s₂)
include h

lemma Moved.args_of_group (hcoll : Collected ctx s₁) {pvp' : Provider} {d : Probe} (hpvp : pvp ∈ s₂.prvmap.list)
    (hg : g ∈ pvp.groups) (hpvp' : pvp' ∈ s₁.prvmap.list) (hname : pvp'.name = g.prv) (hd : d ∈ pvp'.pmap.list)
    (hprb : d.prb = g.prb) : d.nargc = g.nargc ∧ d.xargc = g.xargc := by
  obtain ⟨_, hpvp0, hname0, hok⟩ := h.ok pvp hpvp
  obtain ⟨e, he, heprb, hnargc, hxargc⟩ := hok.args g hg
  have hhome := (hok.at_home g (mem_filter.1 hg).1).1
  obtain rfl : d = e := hcoll.unique hpvp' hpvp0 (by rw [hname, hname0, hhome]) hd he (hprb.trans heprb.symm)
  exact ⟨hnargc, hxargc⟩

lemma Moved.note_of_group (hcoll : Collected ctx s₁)
    (hpvp : pvp ∈ s₂.prvmap.list) (hg : g ∈ pvp.groups) : ∃ u ∈ s₁.seen, g.prv = u.prv ∧ g.prb = u.prb := by
  obtain ⟨q, hq, hprv, -, hprb, -⟩ := h.site_of_group hpvp hg
  obtain ⟨u, hu, heq⟩ := mem_map.1 (hcoll.sites.mem_iff.1 (mem_map_of_mem hq))
  simp only [UsdtNote.site, Probe.site, Prod.mk.injEq] at heq
  exact ⟨u, hu, (heq.1.trans hprv).symm, (heq.2.2.1.trans hprb).symm⟩

lemma Moved.stream (hcoll : Collected ctx s₁) (hseen : s.seen = s₁.seen) (hout : s.out = emitted ctx s₂.prvmap.list)
    (hfew : s₁.seen.length < 2 ^ 32) (hfit : NotesFit s₁) : Stream ctx s := by
  have hlen : s₁.prbmap.list.length = s₁.seen.length := by simpa using hcoll.sites.length_eq
  have hcount := fun {pvp} (hpvp : pvp ∈ s₂.prvmap.list) => h.counted (hlen ▸ hfew) hpvp
  have hargs : ∀ pvp ∈ s₂.prvmap.list, ∀ g ∈ pvp.groups, g.nargc = 0 → g.xargc = 0 := by
    intro pvp hpvp g hg
    obtain ⟨u, hu, hprv, hprb⟩ := h.note_of_group hcoll hpvp hg
    obtain ⟨pvp0, hpvp0, hname0, hok⟩ := h.ok pvp hpvp
    obtain ⟨d, hd, hdprb, hnargc, hxargc⟩ := hok.args g hg
    have hhome := (hok.at_home g (mem_filter.1 hg).1).1
    rw [← hnargc, ← hxargc]
    exact (hfit u hu).2 pvp0 hpvp0 (by rw [hname0, ← hhome, hprv]) d hd (hdprb.trans hprb)
  constructor
  · -- provider by provider
    have hruns : ∀ provs : List Provider, (∀ pvp ∈ provs, pvp ∈ s₂.prvmap.list) →
        Runs (provs.flatMap (emitProvider ctx)) .none .none := by
      intro provs hprovs
      induction provs with
      | nil => rfl
      | cons pvp provs ih =>
        have hpvp := hprovs pvp mem_cons_self
        obtain ⟨_, -, -, hok⟩ := h.ok pvp hpvp
        obtain ⟨hprobec, hntp⟩ := hcount hpvp
        have hone : Runs (emitProvider ctx pvp) .none .none :=
          emitProvider_run hok.tidy hprobec fun g hg => ⟨hntp g hg, hargs pvp hpvp g hg⟩
        rw [flatMap_cons]
        exact hone.append (ih fun q hq => hprovs q (mem_cons_of_mem _ hq))
    rw [hout]
    exact hruns _ fun pvp hpvp => (mem_filter.1 hpvp).1
  · rw [hout, tracepoints_emitted h.pmap_tidy, h.emitted_groups (hlen ▸ hfew), hseen]
    refine ((h.sites.trans hcoll.sites).map _).trans (List.Perm.of_eq ?_)
    rw [map_map]
    refine map_congr_left fun u hu => ?_
    have hoff : (u.off.setWidth 32).setWidth 64 = u.off := by
      apply eq_of_toNat_eq
      have hlt := (hfit u hu).1
      rw [toNat_setWidth, toNat_setWidth]
      omega
    simp only [Function.comp_apply, UsdtNote.site, Tp.message, UsdtNote.message, hoff]

end

lemma length_filter_flatMap {α β : Type} {f : α → List β} {p : α → Bool} {xs : List α} {x : α} (hx : x ∈ xs)
    (hp : p x = false) : ((xs.filter p).flatMap f).length + (f x).length ≤ (xs.flatMap f).length := by
  have hle : ∀ ys : List α, ((ys.filter p).flatMap f).length ≤ (ys.flatMap f).length := by
    intro ys
    induction ys with
    | nil => exact le_rfl
    | cons y ys ih =>
      rw [filter_cons, flatMap_cons, length_append]
      split
      · rw [flatMap_cons, length_append]
        omega
      · omega
  obtain ⟨before, after, rfl⟩ := append_of_mem hx
  have hbefore := hle before
  have hafter := hle after
  rw [filter_append, filter_cons_of_neg (by simp [hp]), flatMap_append, flatMap_append,
    flatMap_cons, length_append, length_append, length_append]
  omega

section

variable (h : Moved ctx.mod s₁.prvmap.list s₁.prbmap.list [] s₂)
include h

/-- If the tracepoints are all there, every probe has been emitted. -/
lemma Moved.emitted_of_perm (hcoll : Collected ctx s₁) (hseen : s.seen = s₁.seen)
    (hout : s.out = emitted ctx s₂.prvmap.list) (hperm : (tracepoints s.out).Perm (s.seen.map (·.message ctx)))
    (hpvp : pvp ∈ s₂.prvmap.list) (hg : g ∈ pvp.groups) : 0 < pvp.probec := by
  by_contra hpos
  have hlen := hperm.length_eq
  rw [hout, tracepoints_emitted h.pmap_tidy, length_map, length_map, hseen, flatMap_assoc] at hlen
  have htotal := (h.sites.trans hcoll.sites).length_eq
  rw [length_map, flatMap_assoc] at htotal
  have hmissed := length_filter_flatMap (f := fun pvp : Provider => pvp.groups.flatMap Probe.sites)
    (p := (0 < ·.probec)) hpvp (by simpa using hpos)
  have hone := length_le_sites pvp.groups
  have hgpos := length_pos_of_mem hg
  omega

lemma Moved.fit (hcoll : Collected ctx s₁)
    (hseen : s.seen = s₁.seen) (hout : s.out = emitted ctx s₂.prvmap.list) (hstream : Stream ctx s) : NotesFit s₁ := by
  obtain ⟨hwf, hperm⟩ := hstream
  intro u hu
  constructor
  · -- the address of the message is that of a 32-bit offset
    have hmem :=
      hperm.mem_iff.2 (mem_map_of_mem (hseen ▸ hu))
    rw [hout, tracepoints_emitted h.pmap_tidy] at hmem
    obtain ⟨t, -, ht⟩ := mem_map.1 hmem
    simp only [Tp.message, UsdtNote.message, Prod.mk.injEq] at ht
    have hoff := (BitVec.add_left_inj ctx.addr).1 ht.1
    rw [← hoff, toNat_setWidth]
    omega
  · intro pvp' hpvp' hname d hd hprb hnargc
    by_contra hxargc
    obtain ⟨pvp, hpvp, g, hg, -, hgprv, hgprb⟩ := h.group_of_note hcoll hu
    obtain ⟨hn, hx⟩ := h.args_of_group hcoll hpvp hg hpvp' (hname.trans hgprv.symm) hd (hprb.trans hgprb.symm)
    have hpos := h.emitted_of_perm hcoll hseen hout hperm hpvp hg
    -- the messages of the probe are a part of the stream
    have hkept : pvp ∈ s₂.prvmap.list.filter (0 < ·.probec) := mem_filter.2 ⟨hpvp, decide_eq_true hpos⟩
    obtain ⟨provs, provs', hprovs⟩ := append_of_mem hkept
    obtain ⟨gs, gs', hgs⟩ := append_of_mem hg
    have hparts : ∃ msgs msgs', s.out = msgs ++ (emitProbe ctx g ++ msgs') := by
      refine ⟨provs.flatMap (emitProvider ctx) ++
        .provider pvp.probec pvp.name :: gs.flatMap (emitProbe ctx), gs'.flatMap (emitProbe ctx) ++
        provs'.flatMap (emitProvider ctx), ?_⟩
      rw [hout, emitted, hprovs, flatMap_append, flatMap_cons, emitProvider_eq (h.pmap_tidy pvp hpvp), hgs,
        flatMap_append, flatMap_cons]
      simp
    obtain ⟨_, _, heq⟩ := hparts
    rw [WellFormed, heq, foldlM_append] at hwf
    obtain ⟨_, -, hwf⟩ := Option.bind_eq_some_iff.1 hwf
    rw [foldlM_append, emitProbe_stuck (by omega) (by omega) _] at hwf
    cases hwf

end

/-- **The stream of the notes.**  When the parser returns 0, the stream is well formed and has the tracepoints of the
notes only if the notes fit; and it is so if they fit, and there are fewer than `2 ^ 32` tracepoints to count. -/
theorem stream_iff (hread : readNotes ctx (ctx.size + 1) 0 (St.init mem) = (some (), s₁))
    (hrun : usdtParseNotes ctx (St.init mem) = (some (), s)) :
    (Stream ctx s → NotesFit s₁) ∧ (s₁.seen.length < 2 ^ 32 → NotesFit s₁ → Stream ctx s) := by
  obtain ⟨_, hcoll, hmoved, hseen, hout, -⟩ := usdtParseNotes_some hread hrun
  exact ⟨hmoved.fit hcoll hseen hout, hmoved.stream hcoll hseen hout⟩

/-! ## Two notes -/

/-- A `prov` note: the provider `p` with the probe `q`, without arguments. -/
def provNote : Bytes :=
  Bytes.ofNat 4 5 ++ Bytes.ofNat 4 32 ++ Bytes.ofNat 4 1 ++ litProv ++ [0, 0, 0] ++ [112, 0, 0, 0] ++
    List.replicate 20 0 ++ Bytes.ofNat 4 1 ++ [113, 0, 0, 0]

/-- A `usdt` note: a tracepoint of a probe of that provider. -/
def usdtNote (prb : BitVec 8) (off : ℕ) : Bytes :=
  Bytes.ofNat 4 5 ++ Bytes.ofNat 4 22 ++ Bytes.ofNat 4 1 ++ litUsdt ++ [0, 0, 0] ++ Bytes.ofNat 8 off ++
    Bytes.ofNat 8 0 ++ [112, 0, prb, 0, 0, 0]

/-- The function `f` in `.rodata`. -/
def twoNotes : Ctx := ⟨94, [109], 0x400000, some ⟨0, 2, [102, 0]⟩⟩

def runNotes (off : ℕ) : Option Unit × St := usdtParseNotes twoNotes (St.init (provNote ++ usdtNote 113 off))

lemma eq_some_snd {σ : Type} {r : Option Unit × σ} (h : r.1 = some ()) : r = (some (), r.2) := by
  rw [← h]

lemma runNotes_small : (runNotes 16).1 = some () ∧ ∃ s₁, readNotes twoNotes (twoNotes.size + 1) 0
    (St.init (provNote ++ usdtNote 113 16)) = (some (), s₁) ∧ s₁.seen.length < 2 ^ 32 ∧ NotesFit s₁ ∧
      s₁.prbmap.list.length = 1 := by
  refine ⟨by decide +kernel, _, eq_some_snd (by decide +kernel), by decide +kernel, ?_, by decide +kernel⟩
  unfold NotesFit
  decide +kernel

theorem stream_small : (runNotes 16).1 = some () ∧ Stream twoNotes (runNotes 16).2 := by
  obtain ⟨hrun, _, hread, hfew, hfit, -⟩ := runNotes_small
  exact ⟨hrun, (stream_iff hread (eq_some_snd hrun)).2 hfew hfit⟩

/-- An offset of 33 bits: the tracepoint is emitted with the low 32 bits of it. -/
theorem offset_truncated : (runNotes (2 ^ 32 + 16)).1 = some () ∧ ¬Stream twoNotes (runNotes (2 ^ 32 + 16)).2 := by
  have htps : tracepoints (runNotes (2 ^ 32 + 16)).2.out = [(0x400010, false, [])] := by decide +kernel
  have hseen : (runNotes (2 ^ 32 + 16)).2.seen.map (·.message twoNotes) = [(0x100400010, false, [])] := by
    decide +kernel
  refine ⟨by decide +kernel, fun hstream => ?_⟩
  have hperm := hstream.2
  rw [htps, hseen, singleton_perm_singleton] at hperm
  exact absurd hperm (by decide)

end

end DTrace.Usdt
