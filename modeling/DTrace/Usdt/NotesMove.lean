import DTrace.Usdt.NotesTable

/-!
# Moving the tracepoints

The loop that takes the tracepoints out of their table and puts them into the tables of the providers.  A tracepoint
is put behind a probe that has the same function, or it becomes a probe itself.

* `Provider.add_cases` — which of the two, and what the table has then;
* `Provider.Ok` — the definitions stay, and every probe has its tracepoints counted;
* `Moved` — the tables when some tracepoints have been moved;
* `moveLoop_moved` — so it is when all have been moved.
-/

namespace DTrace.Usdt

open Lib List

/-! ## One tracepoint and its provider -/

def Probe.key0 (p : Probe) : Probe := Probe.key p.prv p.mod p.fn p.prb 0

/-- The probes of a provider that have tracepoints. -/
def Provider.groups (pvp : Provider) : List Probe := pvp.pmap.list.filter (·.fn ≠ none)

/-- The tracepoints of a probe, each with what its note says. -/
def Probe.sites (g : Probe) : List (Bytes × Option Bytes × Bytes × Tp) :=
  (g.tp :: g.next).map fun tp => (g.prv, g.fn, g.prb, tp)

/-- Probes with one name, in one function. -/
def Probe.Alike (p q : Probe) : Prop := p.prv = q.prv ∧ p.fn = q.fn ∧ p.prb = q.prb

instance (p q : Probe) : Decidable (p.Alike q) := inferInstanceAs (Decidable (_ ∧ _ ∧ _))

variable {pvp : Provider} {ptp : Probe}

section

variable {pmap : Htab Probe} {p q prp key : Probe}

lemma prbCmp_iff : prbOps.cmp p q = true ↔ p.Alike q ∧ (p.tp.off = 0 ∨ q.tp.off = 0 ∨ p.tp.off = q.tp.off) := by
  simp only [prbOps, prbCmp, Probe.Alike, Bool.and_eq_true, Bool.or_eq_true, decide_eq_true_eq]
  constructor
  · rintro ⟨⟨⟨h1, h2⟩, h3⟩, h4⟩
    exact ⟨⟨h1, h2, h3⟩, or_assoc.1 h4⟩
  · rintro ⟨⟨h1, h2, h3⟩, h4⟩
    exact ⟨⟨⟨h1, h2⟩, h3⟩, or_assoc.2 h4⟩

section

variable (h : Tidy prbOps pmap)
include h

lemma lookup_key0_some (hp : dtHtabLookup prbOps pmap p.key0 = some q) :
    q ∈ pmap.list ∧ q.Alike p ∧ slotOf pmap.size (prbHval q) = slotOf pmap.size (prbHval p.key0) := by
  obtain ⟨hq, hcmp, hslot⟩ := h.lookup_some hp
  exact ⟨hq, (prbCmp_iff.1 hcmp).1, hslot⟩

lemma lookup_key0_none :
    dtHtabLookup prbOps pmap p.key0 = none ↔
      ∀ q ∈ pmap.list, q.Alike p → slotOf pmap.size (prbHval q) ≠ slotOf pmap.size (prbHval p.key0) := by
  rw [h.lookup_eq_none_iff]
  constructor
  · intro hnone q hq halike
    exact hnone q hq (prbCmp_iff.2 ⟨halike, .inr (.inl rfl)⟩)
  · intro hnone q hq hcmp
    exact hnone q hq (prbCmp_iff.1 hcmp).1

lemma lookup_of_key0 (hmod : ∀ q ∈ pmap.list, q.mod = p.mod) (hnone : dtHtabLookup prbOps pmap p.key0 = none)
    (hfresh : ∀ q ∈ pmap.list, q.Alike p → q.tp.off ≠ p.tp.off) : dtHtabLookup prbOps pmap p = none := by
  rw [lookup_key0_none h] at hnone
  rw [h.lookup_eq_none_iff]
  intro q hq hcmp hslot
  obtain ⟨halike, hoff⟩ := prbCmp_iff.1 hcmp
  have hmiss := hnone q hq halike
  rcases hoff with hoff | hoff | hoff
  · -- an entry with offset 0 hashes like the key
    have hval : prbHval q = prbHval p.key0 := by
      obtain ⟨hprv, hfn, hprb⟩ := halike
      simp only [prbHval, Probe.key0, Probe.key, hprv, hfn, hprb, hmod q hq, hoff]
    exact hmiss (by rw [hval])
  · -- and so does the tracepoint itself
    have hval : prbHval p = prbHval p.key0 := by
      simp only [prbHval, Probe.key0, Probe.key, hoff]
    exact hmiss (hslot.trans (by rw [← hval]; rfl))
  · exact hfresh q hq halike hoff

/-- What the loop finds for a tracepoint: a probe with its function, or a definition. -/
lemma matching_cases (hfn : ptp.fn ≠ none) (hmatch : matching pmap ptp = some (key, prp)) :
    (key = ptp.key0 ∧ dtHtabLookup prbOps pmap ptp.key0 = some prp ∧ prp.fn ≠ none) ∨
      (dtHtabLookup prbOps pmap ptp.key0 = none ∧ prp ∈ pmap.list ∧ prp.fn = none ∧ prp.prb = ptp.prb) := by
  simp only [matching] at hmatch
  cases hlook : dtHtabLookup prbOps pmap (.key ptp.prv ptp.mod ptp.fn ptp.prb 0) with
  | some q =>
    rw [hlook] at hmatch
    cases hmatch
    obtain ⟨-, ⟨-, hq, -⟩, -⟩ := lookup_key0_some h hlook
    exact .inl ⟨rfl, hlook, hq ▸ hfn⟩
  | none =>
    rw [hlook] at hmatch
    obtain ⟨q, hq, heq⟩ := Option.map_eq_some_iff.1 hmatch
    cases heq
    obtain ⟨hmem, hcmp, -⟩ := h.lookup_some hq
    obtain ⟨⟨-, hqfn, hprb⟩, -⟩ := prbCmp_iff.1 hcmp
    exact .inr ⟨hlook, hmem, hqfn, hprb⟩

end

lemma Provider.add_cases (h : Tidy prbOps pvp.pmap) (hfn : ptp.fn ≠ none)
    (hmod : ∀ q ∈ pvp.pmap.list, q.mod = ptp.mod) (hfresh : ∀ q ∈ pvp.pmap.list, q.Alike ptp → q.tp.off ≠ ptp.tp.off)
    (hmatch : matching pvp.pmap ptp = some (key, prp)) :
    Tidy prbOps (pvp.add key prp ptp).pmap ∧ (pvp.add key prp ptp).name = pvp.name ∧
      ((∃ before after, pvp.pmap.list = before ++ prp :: after ∧
          (pvp.add key prp ptp).pmap.list = before ++ prp.link ptp :: after ∧ prp.Alike ptp ∧ prp.fn ≠ none ∧
          slotOf pvp.pmap.size (prbHval prp) = slotOf pvp.pmap.size (prbHval ptp.key0) ∧
          (pvp.add key prp ptp).pmap.size = pvp.pmap.size ∧ (pvp.add key prp ptp).probec = pvp.probec) ∨
        (dtHtabLookup prbOps pvp.pmap ptp.key0 = none ∧ prp ∈ pvp.pmap.list ∧ prp.fn = none ∧ prp.prb = ptp.prb ∧
          dtHtabLookup prbOps pvp.pmap (prp.adopt ptp) = none ∧
          (pvp.add key prp ptp).pmap = dtHtabInsert prbOps pvp.pmap (prp.adopt ptp) ∧
          (pvp.add key prp ptp).probec = (pvp.probec + 1) % 2 ^ 32)) := by
  rcases matching_cases h hfn hmatch with ⟨rfl, hlook, hsome⟩ | ⟨hnone, hmem, hnofn, hprb⟩
  · obtain ⟨-, halike, hslot⟩ := lookup_key0_some h hlook
    have hadd : pvp.add ptp.key0 prp ptp = { pvp with pmap := pvp.pmap.update prbOps ptp.key0 (·.link ptp) } :=
      if_pos hsome
    obtain ⟨htidy, before, after, hlist, hlist'⟩ := h.update (f := (·.link ptp)) hlook rfl fun _ => rfl
    rw [hadd]
    exact ⟨htidy, rfl, .inl ⟨before, after, hlist, hlist', halike, hsome, hslot, size_onSlot _ _ _, rfl⟩⟩
  · have hadd : pvp.add key prp ptp =
        { pvp with
          pmap := dtHtabInsert prbOps pvp.pmap (prp.adopt ptp), probec := (pvp.probec + 1) % 2 ^ 32 } :=
      if_neg (not_not_intro hnofn)
    have hnew :=
      (lookup_congr rfl fun _ => rfl).trans (lookup_of_key0 h hmod hnone hfresh)
    rw [hadd]
    exact ⟨h.insert hnew, rfl, .inr ⟨hnone, hmem, hnofn, hprb, hnew, rfl, rfl⟩⟩

end

/-! ## The provider -/

/-- A provider when some tracepoints have been moved: it has its definitions, and each of its other probes has the
arguments of one of them and its tracepoints counted. -/
structure Provider.Ok (mod : Bytes) (defs : List Probe) (pvp : Provider) : Prop where
  tidy : Tidy prbOps pvp.pmap
  size : pvp.pmap.size = tabSize pvp.pmap.list.length
  at_home : ∀ p ∈ pvp.pmap.list, p.prv = pvp.name ∧ p.mod = mod
  kept : (pvp.pmap.list.filter (·.fn = none)).Perm defs
  ntp : ∀ g ∈ pvp.groups, g.ntp = (g.next.length + 1) % 2 ^ 32
  args : ∀ g ∈ pvp.groups, ∃ d ∈ defs, d.prb = g.prb ∧ d.nargc = g.nargc ∧ d.xargc = g.xargc
  probec : pvp.probec = pvp.groups.length % 2 ^ 32

variable {mod : Bytes}

section

variable {defs : List Probe} {prp key : Probe}

lemma Defs.ok (h : Defs pvp.name mod pvp.pmap) (hprobec : pvp.probec = 0) : pvp.Ok mod pvp.pmap.list := by
  have hnone : pvp.groups = [] := by
    rw [Provider.groups, filter_eq_nil_iff]
    intro p hp
    simp [(h.isDef p hp).fn]
  refine ⟨h.tidy, h.size, fun p hp => ⟨(h.isDef p hp).prv, (h.isDef p hp).mod⟩, ?_, ?_, ?_, ?_⟩
  · rw [filter_eq_self.2]
    intro p hp
    simp [(h.isDef p hp).fn]
  · rw [hnone]
    simp
  · rw [hnone]
    simp
  · rw [hnone, hprobec]
    rfl

variable {pvp' : Provider}

lemma groups_link {before after : List Probe} (hlist : pvp.pmap.list = before ++ prp :: after)
    (hlist' : pvp'.pmap.list = before ++ prp.link ptp :: after) (hsome : prp.fn ≠ none) :
    pvp.groups = before.filter (·.fn ≠ none) ++ prp :: after.filter (·.fn ≠ none) ∧
      pvp'.groups = before.filter (·.fn ≠ none) ++ prp.link ptp :: after.filter (·.fn ≠ none) := by
  constructor
  · rw [Provider.groups, hlist, filter_append, filter_cons_of_pos (by rw [decide_eq_true_iff]; exact hsome)]
  · rw [Provider.groups, hlist', filter_append, filter_cons_of_pos (by rw [decide_eq_true_iff]; exact hsome)]

lemma groups_adopt (hlist : pvp'.pmap.list.Perm (prp.adopt ptp :: pvp.pmap.list))
    (hfn : ptp.fn ≠ none) : pvp'.groups.Perm (prp.adopt ptp :: pvp.groups) := by
  have hfilter := hlist.filter (·.fn ≠ none)
  rwa [filter_cons_of_pos (by rw [decide_eq_true_iff]; exact hfn)] at hfilter

lemma Provider.Ok.link {before after : List Probe} (h : pvp.Ok mod defs)
    (htidy : Tidy prbOps pvp'.pmap) (hname : pvp'.name = pvp.name) (hlist : pvp.pmap.list = before ++ prp :: after)
    (hlist' : pvp'.pmap.list = before ++ prp.link ptp :: after) (halike : prp.Alike ptp) (hsome : prp.fn ≠ none)
    (hsize : pvp'.pmap.size = pvp.pmap.size) (hprobec : pvp'.probec = pvp.probec) :
    pvp'.Ok mod defs ∧ (pvp'.groups.flatMap Probe.sites).Perm (ptp.site :: pvp.groups.flatMap Probe.sites) := by
  obtain ⟨hgroups, hgroups'⟩ := groups_link hlist hlist' hsome
  have hprp : prp ∈ pvp.groups := by
    rw [hgroups]
    simp
  -- the probe that has changed, and the others
  have hall : ∀ P : Probe → Prop, (∀ g ∈ pvp.groups, P g) → P (prp.link ptp) → ∀ g ∈ pvp'.groups, P g := by
    intro P hold hnew g hg
    rw [hgroups', mem_append, mem_cons] at hg
    rcases hg with hg | rfl | hg
    · exact hold g (by rw [hgroups]; exact mem_append_left _ hg)
    · exact hnew
    · exact hold g (by rw [hgroups]; exact mem_append_right _ (mem_cons_of_mem _ hg))
  refine ⟨⟨htidy, ?_, ?_, ?_, hall _ h.ntp ?_, hall _ h.args (h.args prp hprp), ?_⟩, ?_⟩
  · rw [hsize, h.size, hlist, hlist', length_append, length_append, length_cons, length_cons]
  · intro p hp
    have hhome := h.at_home
    rw [hlist] at hhome
    rw [hlist', mem_append, mem_cons] at hp
    rw [hname]
    rcases hp with hp | rfl | hp
    · exact hhome p (mem_append_left _ hp)
    · exact hhome prp (by simp)
    · exact hhome p (mem_append_right _ (mem_cons_of_mem _ hp))
  · have hkept := h.kept
    rw [hlist, filter_append, filter_cons_of_neg (by rw [decide_eq_true_iff]; exact hsome)] at hkept
    rwa [hlist', filter_append, filter_cons_of_neg (by rw [decide_eq_true_iff]; exact hsome)]
  · have hntp := h.ntp prp hprp
    simp only [Probe.link, length_cons, hntp]
    omega
  · rw [hprobec, h.probec, hgroups, hgroups', length_append, length_append, length_cons,
      length_cons]
  · have hsites : (prp.link ptp).sites.Perm (ptp.site :: prp.sites) := by
      obtain ⟨h1, h2, h3⟩ := halike
      simp only [Probe.sites, Probe.link, Probe.site, map_cons, h1, h2, h3]
      exact List.Perm.swap _ _ _
    rw [hgroups, hgroups', flatMap_append, flatMap_append, flatMap_cons, flatMap_cons]
    refine ((hsites.append_right _).append_left _).trans ?_
    rw [cons_append]
    exact perm_middle

lemma Provider.Ok.adopt (h : pvp.Ok mod defs) (htidy : Tidy prbOps pvp'.pmap)
    (hname : pvp'.name = pvp.name) (hfn : ptp.fn ≠ none) (hprv : ptp.prv = pvp.name) (hmod : ptp.mod = mod)
    (hnext : ptp.next = []) (hmem : prp ∈ pvp.pmap.list) (hnofn : prp.fn = none) (hprb : prp.prb = ptp.prb)
    (hnew : dtHtabLookup prbOps pvp.pmap (prp.adopt ptp) = none)
    (hpmap : pvp'.pmap = dtHtabInsert prbOps pvp.pmap (prp.adopt ptp))
    (hprobec : pvp'.probec = (pvp.probec + 1) % 2 ^ 32) :
    pvp'.Ok mod defs ∧ (pvp'.groups.flatMap Probe.sites).Perm (ptp.site :: pvp.groups.flatMap Probe.sites) := by
  have hlist : pvp'.pmap.list.Perm (prp.adopt ptp :: pvp.pmap.list) := by
    rw [hpmap]
    exact list_insert h.tidy.pos _
  have hgroups := groups_adopt hlist hfn
  have hall : ∀ P : Probe → Prop, (∀ g ∈ pvp.groups, P g) → P (prp.adopt ptp) → ∀ g ∈ pvp'.groups, P g := by
    intro P hold hnew g hg
    exact forall_mem_cons.2 ⟨hnew, hold⟩ g (hgroups.mem_iff.1 hg)
  refine ⟨⟨htidy, ?_, ?_, ?_, hall _ h.ntp ?_, hall _ h.args ⟨prp, ?_, hprb, rfl, rfl⟩, ?_⟩, ?_⟩
  · rw [hpmap]
    exact h.tidy.size_insert_eq hnew h.size
  · intro p hp
    rw [hname]
    exact forall_mem_cons.2 ⟨⟨hprv, hmod⟩, h.at_home⟩ p (hlist.mem_iff.1 hp)
  · have := hlist.filter (·.fn = none)
    rw [filter_cons_of_neg (by rw [decide_eq_true_iff]; exact hfn)] at this
    exact this.trans h.kept
  · simp only [Probe.adopt, hnext, length_nil]
    omega
  · exact h.kept.mem_iff.1 (mem_filter.2 ⟨hmem, by simpa using hnofn⟩)
  · rw [hprobec, h.probec, hgroups.length_eq, length_cons]
    omega
  · refine (List.Perm.flatMap_right _ hgroups).trans ?_
    have hsites : (prp.adopt ptp).sites = [ptp.site] := by
      simp only [Probe.sites, Probe.adopt, hnext, Probe.site, map_cons, map_nil]
    rw [flatMap_cons, hsites]
    rfl

lemma Provider.Ok.add (h : pvp.Ok mod defs) (hfn : ptp.fn ≠ none) (hprv : ptp.prv = pvp.name) (hmod : ptp.mod = mod)
    (hnext : ptp.next = []) (hfresh : ∀ q ∈ pvp.pmap.list, q.Alike ptp → q.tp.off ≠ ptp.tp.off)
    (hmatch : matching pvp.pmap ptp = some (key, prp)) :
    (pvp.add key prp ptp).Ok mod defs ∧ (pvp.add key prp ptp).name = pvp.name ∧
      ((pvp.add key prp ptp).groups.flatMap Probe.sites).Perm (ptp.site :: pvp.groups.flatMap Probe.sites) := by
  have hmods : ∀ q ∈ pvp.pmap.list, q.mod = ptp.mod := fun q hq => (h.at_home q hq).2.trans hmod.symm
  obtain ⟨htidy, hname, ⟨_, _, hlist, hlist', halike, hsome, -, hsize, hprobec⟩ |
    ⟨-, hmem, hnofn, hprb, hnew, hpmap, hprobec⟩⟩ := Provider.add_cases h.tidy hfn hmods hfresh hmatch
  · obtain ⟨hok, hsites⟩ := h.link htidy hname hlist hlist' halike hsome hsize hprobec
    exact ⟨hok, hname, hsites⟩
  · obtain ⟨hok, hsites⟩ := h.adopt htidy hname hfn hprv hmod hnext hmem hnofn hprb hnew hpmap hprobec
    exact ⟨hok, hname, hsites⟩

end

/-! ## The loop -/

/-- The tables when the tracepoints `done` have been moved and `todo` are still to be moved; `provs` are the providers
as the notes define them. -/
structure Moved (mod : Bytes) (provs : List Provider) (done todo : List Probe) (s : St) : Prop where
  prvTidy : Tidy prvOps s.prvmap
  ok : ∀ pvp ∈ s.prvmap.list, ∃ pvp₀ ∈ provs, pvp₀.name = pvp.name ∧ pvp.Ok mod pvp₀.pmap.list
  prbTidy : Tidy prbOps s.prbmap
  rest : s.prbmap.list = todo
  sites : ((s.prvmap.list.flatMap Provider.groups).flatMap Probe.sites).Perm (done.map Probe.site)

/-- What is known of a tracepoint that comes after others. -/
structure Comes (mod : Bytes) (done : List Probe) (ptp : Probe) : Prop where
  fn : ptp.fn ≠ none
  mod : ptp.mod = mod
  next : ptp.next = []
  off : ∀ q ∈ done, q.Alike ptp → q.tp.off ≠ ptp.tp.off

variable {n : ℕ}

section

variable {provs : List Provider} {done todo : List Probe} {s s' : St}

lemma moveOne_some (h : moveOne ptp s = (some (), s')) :
    ∃ pvp key prp, dtHtabLookup prvOps s.prvmap (Provider.key ptp.prv) = some pvp ∧
      matching pvp.pmap ptp = some (key, prp) ∧
      s' = { s with
        prbmap := dtHtabDelete prbOps s.prbmap ptp
        prvmap := s.prvmap.update prvOps (Provider.key ptp.prv) fun _ => pvp.add key prp ptp } := by
  rw [moveOne] at h
  cases hpvp : dtHtabLookup prvOps s.prvmap (.key ptp.prv) with
  | none =>
    rw [hpvp] at h
    cases h
  | some pvp =>
    rw [hpvp] at h
    dsimp only at h
    cases hmatch : matching pvp.pmap ptp with
    | none =>
      rw [hmatch] at h
      cases h
    | some r =>
      rw [hmatch] at h
      dsimp only at h
      split at h
      · cases h
      · cases h
        exact ⟨pvp, r.1, r.2, rfl, hmatch, rfl⟩

/-- A turn without an error: the provider `pvp` gets the tracepoint. -/
structure Turn (mod : Bytes) (provs : List Provider) (ptp : Probe) (s s' : St) (pvp : Provider) (key prp : Probe) :
    Prop where
  name : pvp.name = ptp.prv
  ok : ∃ pvp₀ ∈ provs, pvp₀.name = pvp.name ∧ pvp.Ok mod pvp₀.pmap.list
  fresh : ∀ q ∈ pvp.pmap.list, q.Alike ptp → q.tp.off ≠ ptp.tp.off
  found : matching pvp.pmap ptp = some (key, prp)
  prvTidy : Tidy prvOps s'.prvmap
  change : ∃ before after, s.prvmap.list = before ++ pvp :: after ∧
    s'.prvmap.list = before ++ pvp.add key prp ptp :: after

lemma Turn.groups {key prp : Probe} (h : Turn mod provs ptp s s' pvp key prp) (hptp : Comes mod done ptp) :
    (pvp.add key prp ptp).name = pvp.name ∧
      ((∃ before after, pvp.groups = before ++ prp :: after ∧
          (pvp.add key prp ptp).groups = before ++ prp.link ptp :: after ∧ prp.Alike ptp ∧
          slotOf pvp.pmap.size (prbHval prp) = slotOf pvp.pmap.size (prbHval ptp.key0)) ∨
        (dtHtabLookup prbOps pvp.pmap ptp.key0 = none ∧
          (pvp.add key prp ptp).groups.Perm (prp.adopt ptp :: pvp.groups))) := by
  obtain ⟨_, -, -, hok⟩ := h.ok
  have hmods : ∀ q ∈ pvp.pmap.list, q.mod = ptp.mod := fun q hq => (hok.at_home q hq).2.trans hptp.mod.symm
  obtain ⟨-, hname, ⟨_, _, hlist, hlist', halike, hsome, hslot, -, -⟩ |
    ⟨hnone, -, -, -, -, hpmap, -⟩⟩ := Provider.add_cases hok.tidy hptp.fn hmods h.fresh h.found
  · obtain ⟨hgroups, hgroups'⟩ := groups_link hlist hlist' hsome
    exact ⟨hname, .inl ⟨_, _, hgroups, hgroups', halike, hslot⟩⟩
  · refine ⟨hname, .inr ⟨hnone, groups_adopt ?_ hptp.fn⟩⟩
    rw [hpmap]
    exact list_insert hok.tidy.pos _

lemma Moved.site_of_group {g : Probe} (h : Moved mod provs done todo s) (hpvp : pvp ∈ s.prvmap.list)
    (hg : g ∈ pvp.groups) : ∃ q ∈ done, q.prv = g.prv ∧ q.fn = g.fn ∧ q.prb = g.prb ∧ q.tp = g.tp := by
  have hsite : g.site ∈ (s.prvmap.list.flatMap Provider.groups).flatMap Probe.sites :=
    mem_flatMap.2 ⟨g, mem_flatMap.2 ⟨pvp, hpvp, hg⟩, mem_cons_self⟩
  obtain ⟨q, hq, heq⟩ := mem_map.1 (h.sites.mem_iff.1 hsite)
  exact ⟨q, hq, by simpa [Probe.site] using heq⟩

lemma Moved.turn (h : Moved mod provs done (ptp :: todo) s) (hptp : Comes mod done ptp)
    (hrun : moveOne ptp s = (some (), s')) : ∃ pvp key prp, Turn mod provs ptp s s' pvp key prp := by
  obtain ⟨pvp, key, prp, hpvp, hmatch, rfl⟩ := moveOne_some hrun
  obtain ⟨hmem, hname, -⟩ := h.prvTidy.lookup_some hpvp
  replace hname : pvp.name = ptp.prv := by simpa [prvOps, Provider.key] using hname
  obtain ⟨pvp0, hpvp0, hname0, hok⟩ := h.ok pvp hmem
  -- the tracepoint is new to the provider
  have hfresh : ∀ q ∈ pvp.pmap.list, q.Alike ptp → q.tp.off ≠ ptp.tp.off := by
    intro q hq halike
    have hgroup : q ∈ pvp.groups := mem_filter.2 ⟨hq, by simpa using halike.2.1 ▸ hptp.fn⟩
    obtain ⟨r, hr, hr1, hr2, hr3, hr4⟩ := h.site_of_group hmem hgroup
    rw [← hr4]
    exact hptp.off r hr ⟨hr1.trans halike.1, hr2.trans halike.2.1, hr3.trans halike.2.2⟩
  obtain ⟨-, hname', -⟩ := hok.add hptp.fn hname.symm hptp.mod hptp.next hfresh hmatch
  obtain ⟨htidy, before, after, hlist, hlist'⟩ := h.prvTidy.update (f := fun _ => pvp.add key prp ptp) hpvp
    (by simp only [prvOps, hname']) (fun q => by simp only [prvOps, hname'])
  exact ⟨pvp, key, prp, hname, ⟨pvp0, hpvp0, hname0, hok⟩, hfresh, hmatch, htidy, before, after, hlist, hlist'⟩

lemma Moved.step (h : Moved mod provs done (ptp :: todo) s) (hptp : Comes mod done ptp)
    (hrun : moveOne ptp s = (some (), s')) :
    Moved mod provs (done ++ [ptp]) todo s' ∧ s'.out = s.out ∧ s'.seen = s.seen := by
  obtain ⟨_, _, _, hturn⟩ := h.turn hptp hrun
  obtain ⟨pvp0, hpvp0, hname0, hok⟩ := hturn.ok
  obtain ⟨_, _, hlist, hlist'⟩ := hturn.change
  obtain ⟨hok', hname', hsites⟩ := hok.add hptp.fn hturn.name.symm hptp.mod hptp.next hturn.fresh hturn.found
  obtain ⟨hdtidy, hdlist⟩ := h.prbTidy.delete (by rw [h.rest]; exact mem_cons_self)
  obtain ⟨_, _, _, -, -, rfl⟩ := moveOne_some hrun
  refine ⟨⟨hturn.prvTidy, ?_, hdtidy, ?_, ?_⟩, rfl, rfl⟩
  · intro q hq
    rw [hlist', mem_append, mem_cons] at hq
    have hold := h.ok
    rw [hlist] at hold
    rcases hq with hq | rfl | hq
    · exact hold q (mem_append_left _ hq)
    · exact ⟨pvp0, hpvp0, hname0.trans hname'.symm, hok'⟩
    · exact hold q (mem_append_right _ (mem_cons_of_mem _ hq))
  · rw [hdlist, h.rest, erase_cons_head]
  · have hold := h.sites
    rw [hlist, flatMap_append, flatMap_cons, flatMap_append, flatMap_append] at hold
    rw [hlist', flatMap_append, flatMap_cons, flatMap_append, flatMap_append, map_append]
    refine ((hsites.append_right _).append_left _).trans ?_
    rw [cons_append]
    exact perm_middle.trans ((hold.cons _).trans (perm_append_singleton _ _).symm)

lemma moveLoop_succ {it it' : Walk Probe} (h : dtHtabNext s.prbmap it = (some ptp, it')) :
    moveLoop (n + 1) it s = (moveOne ptp >>= fun _ => moveLoop n it') s := by
  simp only [moveLoop, h]

lemma Moved.loop_cons (h : Moved mod provs done (ptp :: todo) s)
    (hcomes : ∀ before q after, ptp :: todo = before ++ q :: after → Comes mod (done ++ before) q)
    (hrun : moveLoop n (.of (ptp :: todo)) s = (some (), s')) :
    ∃ k s1, Comes mod done ptp ∧ moveOne ptp s = (some (), s1) ∧ moveLoop k (.of todo) s1 = (some (), s') ∧
      ∀ before q after, todo = before ++ q :: after → Comes mod (done ++ [ptp] ++ before) q := by
  rcases n with _ | k
  · cases hrun
  have hnext : dtHtabNext s.prbmap (.of (ptp :: todo)) = (some ptp, .of todo) :=
    dtHtabNext_next (h.rest.trans (nil_append _).symm) not_mem_nil
  rw [moveLoop_succ hnext] at hrun
  obtain ⟨_, s1, hone, hrun⟩ := Exec.bind_eq_some.1 hrun
  refine ⟨k, s1, ?_, hone, hrun, fun before q after heq => ?_⟩
  · have hptp := hcomes [] ptp todo rfl
    rwa [append_nil] at hptp
  · have hq := hcomes (ptp :: before) q after (by rw [heq]; rfl)
    rwa [append_cons] at hq

lemma moveLoop_moved (h : Moved mod provs done todo s)
    (hcomes : ∀ before ptp after, todo = before ++ ptp :: after → Comes mod (done ++ before) ptp)
    (hrun : moveLoop n (.of todo) s = (some (), s')) :
    Moved mod provs (done ++ todo) [] s' ∧ s'.out = s.out ∧ s'.seen = s.seen := by
  induction todo generalizing n done s with
  | nil =>
    rcases n with _ | n
    · cases hrun
    cases hrun
    rw [append_nil]
    exact ⟨h, rfl, rfl⟩
  | cons ptp todo ih =>
    obtain ⟨k, _, hptp, hone, hrun, hcomes1⟩ := h.loop_cons hcomes hrun
    obtain ⟨h1, hout1, hseen1⟩ := h.step hptp hone
    obtain ⟨h', hout, hseen⟩ := ih h1 hcomes1 hrun
    rw [← append_cons] at h'
    exact ⟨h', hout.trans hout1, hseen.trans hseen1⟩

end

section

variable {ctx : Ctx} {s s' : St}

lemma Collected.comes (h : Collected ctx s) {before after : List Probe}
    (heq : s.prbmap.list = before ++ ptp :: after) : Comes ctx.mod before ptp := by
  have hmem : ptp ∈ s.prbmap.list := by
    rw [heq]
    simp
  have hfn : ptp.fn ≠ none := by
    have hsite := h.sites.mem_iff.1 (mem_map_of_mem hmem)
    obtain ⟨u, -, hu⟩ := mem_map.1 hsite
    simp only [UsdtNote.site, Probe.site, Prod.mk.injEq] at hu
    rw [← hu.2.1]
    simp
  refine ⟨hfn, (h.fresh ptp hmem).1, (h.fresh ptp hmem).2, fun q hq halike hoff => ?_⟩
  have hqmem : q ∈ s.prbmap.list := by
    rw [heq]
    exact mem_append_left _ hq
  -- both are found by the same key
  have hkey : dtHtabLookup prbOps s.prbmap q = dtHtabLookup prbOps s.prbmap ptp := by
    obtain ⟨hprv, hfn, hprb⟩ := halike
    rw [lookup_prb, hprv, hfn, hprb, hoff, (h.fresh q hqmem).1, ← (h.fresh ptp hmem).1, ← lookup_prb]
  rw [h.prbTidy.lookup_self hqmem, h.prbTidy.lookup_self hmem, Option.some.injEq] at hkey
  have hnodup := h.prbTidy.nodup
  rw [heq, nodup_append] at hnodup
  exact hnodup.2.2 q hq ptp mem_cons_self hkey

lemma Collected.moved (h : Collected ctx s) : Moved ctx.mod s.prvmap.list [] s.prbmap.list s where
  prvTidy := h.prvTidy
  ok := fun pvp hpvp => ⟨pvp, hpvp, rfl, (h.defs pvp hpvp).ok (h.probec pvp hpvp)⟩
  prbTidy := h.prbTidy
  rest := rfl
  sites := by
    have hnone : s.prvmap.list.flatMap Provider.groups = [] := by
      rw [flatMap_eq_nil_iff]
      intro pvp hpvp
      rw [Provider.groups, filter_eq_nil_iff]
      intro p hp
      simp [((h.defs pvp hpvp).isDef p hp).fn]
    rw [hnone]
    rfl

lemma dtHtabNext_start {α : Type} [DecidableEq α] (t : Htab α) : dtHtabNext t .start = dtHtabNext t (.of t.list) := by
  cases h : t.list <;> simp [dtHtabNext, Walk.of, h]

lemma moveLoop_start (n : ℕ) (s : St) : moveLoop n .start s = moveLoop n (.of s.prbmap.list) s := by
  rcases n with _ | n
  · rfl
  · simp only [moveLoop, dtHtabNext_start]

lemma moveLoop_all (h : Collected ctx s) (hrun : moveLoop n .start s = (some (), s')) :
    Moved ctx.mod s.prvmap.list s.prbmap.list [] s' ∧ s'.out = [] ∧ s'.seen = s.seen := by
  rw [moveLoop_start] at hrun
  obtain ⟨hmoved, hout, hseen⟩ := moveLoop_moved h.moved (fun before ptp after heq => h.comes heq) hrun
  exact ⟨hmoved, hout.trans h.out, hseen⟩

lemma moveLoop_enough (h : Tidy prbOps s.prbmap) (hn : s.prbmap.list.length < n) :
    moveLoop (n + 1) (.of s.prbmap.list) s = moveLoop n (.of s.prbmap.list) s := by
  obtain ⟨todo, htodo⟩ : ∃ todo, s.prbmap.list = todo := ⟨_, rfl⟩
  rw [htodo] at hn ⊢
  induction todo generalizing n s with
  | nil =>
    rcases n with _ | n
    · omega
    · rfl
  | cons ptp todo ih =>
    rcases n with _ | n
    · omega
    have hnext : dtHtabNext s.prbmap (.of (ptp :: todo)) = (some ptp, .of todo) :=
      dtHtabNext_next (htodo.trans (nil_append _).symm) not_mem_nil
    rw [moveLoop_succ hnext, moveLoop_succ hnext]
    rcases hone : moveOne ptp s with ⟨_ | _, _⟩
    · rw [Exec.bind_none hone, Exec.bind_none hone]
    · rw [Exec.bind_some hone, Exec.bind_some hone]
      obtain ⟨_, _, _, -, -, rfl⟩ := moveOne_some hone
      obtain ⟨hdtidy, hdlist⟩ := h.delete (by rw [htodo]; exact mem_cons_self)
      rw [htodo, erase_cons_head] at hdlist
      exact ih hdtidy (by simpa using hn) hdlist

/-- The loop of `usdt_parse_notes` ends by itself. -/
lemma moveLoop_fuel (h : Tidy prbOps s.prbmap) (k : ℕ) :
    moveLoop (s.prbmap.list.length + 1 + k) .start s = moveLoop (s.prbmap.list.length + 1) .start s := by
  rw [moveLoop_start, moveLoop_start]
  induction k with
  | zero => rfl
  | succ k ih => exact (moveLoop_enough h (Nat.lt_add_right k (Nat.lt_succ_self _))).trans ih

end

end DTrace.Usdt
