import DTrace.Usdt.NotesEmit

/-!
# Grouping the tracepoints

A tracepoint belongs to the probe with its provider, function and name.  The probe is looked up without an offset, but
it is in the table with the offset of its first tracepoint, so it may be in another slot.

* `Grouped` — one probe message for each provider, function and name, with the number of its tracepoints;
* `SlotsAgree` — whenever a probe is looked up, it is in the slot of the key;
* `Led` — each probe has the offset of its first tracepoint;
* `grouped_iff` — the tracepoints are grouped if the slots agree.
-/

namespace DTrace.Usdt

open Lib List Function

/-! ## The property -/

abbrev Triple := Bytes × Bytes × Bytes

/-- The probe messages, each with its provider and its number of tracepoints. -/
def probeMsgs : Bytes → List Msg → List (Triple × ℕ)
  | _, [] => []
  | _, .provider _ name :: msgs => probeMsgs name msgs
  | prv, .probe ntp _ _ _ fn prb :: msgs => ((prv, fn, prb), ntp) :: probeMsgs prv msgs
  | prv, _ :: msgs => probeMsgs prv msgs

def UsdtNote.triple (u : UsdtNote) : Triple := (u.prv, u.fn, u.prb)

/-- One probe message for each triple of the notes, with the number of notes that have it. -/
def Grouped (s : St) : Prop :=
  (probeMsgs [] s.out).Perm
    ((s.seen.map UsdtNote.triple).dedup.map fun t => (t, (s.seen.map UsdtNote.triple).count t))

/-! ## The condition -/

/-- How many probes the notes define for a provider. -/
def St.defined (s : St) (prv : Bytes) : ℕ :=
  match dtHtabLookup prvOps s.prvmap (Provider.key prv) with
  | some pvp => pvp.pmap.list.length
  | none => 0

/-- The size of the table of a provider when the tracepoints `done` have been grouped. -/
def St.pmapSize (s : St) (done : List Probe) (prv : Bytes) : ℕ :=
  tabSize (s.defined prv + ((done.filter (·.prv = prv)).map fun q => (q.fn, q.prb)).dedup.length)

/-- The first of the tracepoints of a probe is in the slot in which the probe is looked up. -/
def St.Agrees (s : St) (done : List Probe) (ptp : Probe) : Prop :=
  ∀ q, done.find? (·.Alike ptp) = some q →
    slotOf (s.pmapSize done ptp.prv) (prbHval q) = slotOf (s.pmapSize done ptp.prv) (prbHval ptp.key0)

/-- So it is for every tracepoint, in the order in which they are moved. -/
def SlotsAgree (s : St) : Prop :=
  ∀ before ptp after, s.prbmap.list = before ++ ptp :: after → s.Agrees before ptp

/-! ## The messages -/

/-- The triple of a probe with tracepoints. -/
def Probe.triple (g : Probe) : Triple := (g.prv, g.fn.getD [], g.prb)

variable {pvp : Provider} {provs : List Provider} {done : List Probe} {ctx : Ctx} {mod : Bytes}

section

variable {prv : Bytes}

lemma Moved.at_home {s : St} (h : Moved mod provs done [] s) :
    ∀ pvp ∈ s.prvmap.list, Tidy prbOps pvp.pmap ∧ ∀ g ∈ pvp.groups, g.prv = pvp.name := by
  intro pvp hpvp
  obtain ⟨_, -, -, hok⟩ := h.ok pvp hpvp
  exact ⟨hok.tidy, fun g hg => (hok.at_home g (mem_filter.1 hg).1).1⟩

lemma probeMsgs_tps (tps : List Tp) (msgs : List Msg) :
    probeMsgs prv (tps.map (emitTp ctx) ++ msgs) = probeMsgs prv msgs := by
  induction tps with
  | nil => rfl
  | cons tp tps ih => exact ih

lemma probeMsgs_emitProbe (g : Probe) (msgs : List Msg) :
    probeMsgs prv (emitProbe ctx g ++ msgs) = ((prv, g.fn.getD [], g.prb), g.ntp) :: probeMsgs prv msgs := by
  have hargs : ∀ msgs, probeMsgs prv (emitArgs g ++ msgs) = probeMsgs prv msgs := by
    intro msgs
    rw [emitArgs]
    split
    · split <;> rfl
    · rfl
  rw [emitProbe_eq, cons_append, probeMsgs, append_assoc, hargs, probeMsgs_tps]

lemma probeMsgs_groups (gs : List Probe) (hgs : ∀ g ∈ gs, g.prv = prv) (msgs : List Msg) :
    probeMsgs prv (gs.flatMap (emitProbe ctx) ++ msgs) = (gs.map fun g => (g.triple, g.ntp)) ++ probeMsgs prv msgs := by
  induction gs with
  | nil => rfl
  | cons g gs ih =>
    have hprv : g.prv = prv := hgs g mem_cons_self
    rw [flatMap_cons, append_assoc, probeMsgs_emitProbe, ih fun h hh => hgs h (mem_cons_of_mem g hh),
      map_cons, cons_append, Probe.triple, hprv]

lemma probeMsgs_emitted (hok : ∀ pvp ∈ provs, Tidy prbOps pvp.pmap ∧ ∀ g ∈ pvp.groups, g.prv = pvp.name) :
    probeMsgs prv (emitted ctx provs) =
      ((provs.filter (0 < ·.probec)).flatMap Provider.groups).map fun g => (g.triple, g.ntp) := by
  have hall : ∀ qs : List Provider, (∀ pvp ∈ qs, Tidy prbOps pvp.pmap ∧ ∀ g ∈ pvp.groups, g.prv = pvp.name) →
      ∀ prv, probeMsgs prv (qs.flatMap (emitProvider ctx)) =
        (qs.flatMap Provider.groups).map fun g => (g.triple, g.ntp) := by
    intro qs hqs
    induction qs with
    | nil => exact fun _ => rfl
    | cons pvp qs ih =>
      intro prv
      obtain ⟨htidy, hprv⟩ := hqs pvp mem_cons_self
      rw [flatMap_cons, emitProvider_eq htidy, cons_append, probeMsgs, probeMsgs_groups _ hprv,
        ih fun q hq => hqs q (mem_cons_of_mem pvp hq), flatMap_cons, map_append]
  exact hall _ (fun pvp hpvp => hok pvp (mem_filter.1 hpvp).1) prv

end

/-! ## One message for each triple -/

section

variable {s s₁ s₂ : St}

/-- The triples of the tracepoints, probe by probe. -/
def spread (gs : List Probe) : List Triple := gs.flatMap fun g => List.replicate (g.next.length + 1) g.triple

lemma spread_eq (gs : List Probe) : (gs.flatMap Probe.sites).map (fun t => (t.1, t.2.1.getD [], t.2.2.1)) = spread gs := by
  rw [map_flatMap, spread]
  refine flatMap_congr fun g _ => ?_
  rw [Probe.sites, map_map, eq_replicate_iff]
  refine ⟨by simp, fun t ht => ?_⟩
  obtain ⟨_, -, rfl⟩ := mem_map.1 ht
  rfl

variable {gs : List Probe}

lemma mem_spread {t : Triple} : t ∈ spread gs ↔ t ∈ gs.map Probe.triple := by
  simp [spread, mem_flatMap, mem_replicate, eq_comm]

lemma count_spread (hnodup : (gs.map Probe.triple).Nodup) {g : Probe} (hg : g ∈ gs) :
    (spread gs).count g.triple = g.next.length + 1 := by
  obtain ⟨before, after, rfl⟩ := append_of_mem hg
  have hzero : ∀ hs : List Probe, g.triple ∉ hs.map Probe.triple → (spread hs).count g.triple = 0 := by
    intro hs hnot
    exact count_eq_zero.2 (mt mem_spread.1 hnot)
  rw [map_append, map_cons, nodup_append, nodup_cons] at hnodup
  have hbefore : g.triple ∉ before.map Probe.triple := fun hmem => hnodup.2.2 _ hmem _ mem_cons_self rfl
  have hb := hzero before hbefore
  have ha := hzero after hnodup.2.1.1
  rw [spread] at ha hb ⊢
  rw [flatMap_append, flatMap_cons, count_append, count_append, count_replicate_self, ha, hb]
  omega

section

variable (h : Moved ctx.mod s₁.prvmap.list s₁.prbmap.list [] s₂)
include h

lemma Moved.spread_perm (hcoll : Collected ctx s₁) :
    (s₁.seen.map UsdtNote.triple).Perm (spread (s₂.prvmap.list.flatMap Provider.groups)) := by
  have hperm := (h.sites.trans hcoll.sites).map fun t => (t.1, t.2.1.getD [], t.2.2.1)
  rw [spread_eq, map_map] at hperm
  exact hperm.symm

lemma Moved.grouped (hcoll : Collected ctx s₁)
    (hseen : s.seen = s₁.seen) (hout : s.out = emitted ctx s₂.prvmap.list) (hfew : s₁.seen.length < 2 ^ 32)
    (hnodup : ((s₂.prvmap.list.flatMap Provider.groups).map Probe.triple).Nodup) : Grouped s := by
  have hlen : s₁.prbmap.list.length = s₁.seen.length := by simpa using hcoll.sites.length_eq
  have hspread := h.spread_perm hcoll
  rw [Grouped, hout, probeMsgs_emitted h.at_home, h.emitted_groups (hlen ▸ hfew), hseen]
  set gs := s₂.prvmap.list.flatMap Provider.groups with hgs
  have hntp : ∀ g ∈ gs, g.ntp = g.next.length + 1 := by
    intro g hg
    obtain ⟨_, hpvp, hg⟩ := mem_flatMap.1 hg
    exact (h.counted (hlen ▸ hfew) hpvp).2 g hg
  have hcount : gs.map (fun g => (g.triple, g.ntp)) =
      (gs.map Probe.triple).map fun t => (t, (s₁.seen.map UsdtNote.triple).count t) := by
    rw [map_map]
    refine map_congr_left fun g hg => ?_
    rw [comp_apply, hspread.count_eq, count_spread hnodup hg, hntp g hg]
  rw [hcount]
  refine List.Perm.map _ ?_
  rw [perm_ext_iff_of_nodup hnodup (nodup_dedup _)]
  intro t
  rw [mem_dedup, hspread.mem_iff, mem_spread]

end

def Provider.places (pvp : Provider) : List (Option Bytes × Bytes) := pvp.groups.map fun g => (g.fn, g.prb)

lemma triples_eq (hprv : ∀ g ∈ pvp.groups, g.prv = pvp.name) :
    pvp.groups.map Probe.triple = pvp.places.map fun t => (pvp.name, t.1.getD [], t.2) := by
  rw [Provider.places, map_map]
  refine map_congr_left fun g hg => ?_
  rw [Probe.triple, hprv g hg, comp_apply]

lemma Moved.triples_nodup (h : Moved ctx.mod s₁.prvmap.list done [] s₂)
    (hplaces : ∀ pvp ∈ s₂.prvmap.list, pvp.places.Nodup) :
    ((s₂.prvmap.list.flatMap Provider.groups).map Probe.triple).Nodup := by
  rw [map_flatMap, nodup_flatMap]
  constructor
  · intro pvp hpvp
    rw [triples_eq (h.at_home pvp hpvp).2]
    refine (hplaces pvp hpvp).map_on ?_
    -- the function is never missing
    have hsome : ∀ t ∈ pvp.places, ∃ f, t.1 = some f := by
      intro t ht
      obtain ⟨g, hg, rfl⟩ := mem_map.1 ht
      exact Option.ne_none_iff_exists'.1 (by simpa using (mem_filter.1 hg).2)
    rintro ⟨f, _⟩ ht ⟨_, _⟩ ht' heq
    obtain ⟨_, rfl⟩ := hsome _ ht
    obtain ⟨_, rfl⟩ := hsome _ ht'
    simp only [Prod.mk.injEq, true_and, Option.getD_some] at heq
    rw [heq.1, heq.2]
  · refine h.prvTidy.nodup.imp_of_mem fun {pvp pvp'} hpvp hpvp' hne => ?_
    intro t ht ht'
    obtain ⟨g, hg, rfl⟩ := mem_map.1 ht
    obtain ⟨g', hg', heq⟩ := mem_map.1 ht'
    refine hne (provider_unique h.prvTidy hpvp hpvp' ?_)
    rw [← (h.at_home pvp hpvp).2 g hg, ← (h.at_home pvp' hpvp').2 g' hg']
    exact (congrArg Prod.fst heq).symm

lemma Moved.places_nodup (h : Moved ctx.mod s₁.prvmap.list s₁.prbmap.list [] s₂) (hcoll : Collected ctx s₁)
    (hseen : s.seen = s₁.seen) (hout : s.out = emitted ctx s₂.prvmap.list) (hgrouped : Grouped s) :
    ∀ pvp ∈ s₂.prvmap.list, pvp.places.Nodup := by
  intro pvp hpvp
  rw [Grouped, hout, probeMsgs_emitted h.at_home, hseen] at hgrouped
  have htriples := hgrouped.map Prod.fst
  replace htriples : (((s₂.prvmap.list.filter (0 < ·.probec)).flatMap Provider.groups).map Probe.triple).Perm
      (s₁.seen.map UsdtNote.triple).dedup := by simpa [comp_def] using htriples
  by_cases hpos : 0 < pvp.probec
  · -- its probes are among those of the stream
    have hkept : pvp ∈ s₂.prvmap.list.filter (0 < ·.probec) := mem_filter.2 ⟨hpvp, decide_eq_true hpos⟩
    have hnodup := htriples.nodup_iff.2 (nodup_dedup _)
    rw [map_flatMap, nodup_flatMap] at hnodup
    have hone := hnodup.1 pvp hkept
    rw [triples_eq (h.at_home pvp hpvp).2] at hone
    exact hone.of_map
  · -- a probe of it would be missing
    have hnone : pvp.groups = [] := by
      rw [eq_nil_iff_forall_not_mem]
      intro g hg
      have hmem : g.triple ∈ (s₂.prvmap.list.flatMap Provider.groups).map Probe.triple :=
        mem_map_of_mem (mem_flatMap.2 ⟨pvp, hpvp, hg⟩)
      rw [← mem_spread, ← (h.spread_perm hcoll).mem_iff, ← mem_dedup, ← htriples.mem_iff] at hmem
      obtain ⟨g', hg', heq⟩ := mem_map.1 hmem
      obtain ⟨pvp', hpvp', hg'⟩ := mem_flatMap.1 hg'
      obtain ⟨hpvp', hpos'⟩ := mem_filter.1 hpvp'
      have hname : pvp'.name = pvp.name := by
        rw [← (h.at_home pvp hpvp).2 g hg, ← (h.at_home pvp' hpvp').2 g' hg']
        exact congrArg Prod.fst heq
      rw [provider_unique h.prvTidy hpvp' hpvp hname] at hpos'
      exact hpos (by simpa using hpos')
    rw [Provider.places, hnone]
    exact nodup_nil

end

/-! ## The first tracepoint of a probe -/

/-- No provider has two probes with the same place, and every probe hashes like its first tracepoint. -/
structure Led (done : List Probe) (s : St) : Prop where
  places : ∀ pvp ∈ s.prvmap.list, pvp.places.Nodup
  first : ∀ pvp ∈ s.prvmap.list, ∀ g ∈ pvp.groups,
    ∃ q, done.find? (·.Alike g) = some q ∧ prbHval q = prbHval g

section

variable {s s' s₁ : St} {todo : List Probe} {ptp : Probe}

lemma Probe.Alike.find_eq {p q : Probe} (h : p.Alike q) (ps : List Probe) :
    ps.find? (·.Alike p) = ps.find? (·.Alike q) := by
  obtain ⟨h1, h2, h3⟩ := h
  congr 1
  funext x
  rw [decide_eq_decide, Probe.Alike, Probe.Alike, h1, h2, h3]

lemma Moved.mem_places (h : Moved ctx.mod s₁.prvmap.list done todo s) (hpvp : pvp ∈ s.prvmap.list)
    {t : Option Bytes × Bytes} :
    t ∈ pvp.places ↔ t ∈ (done.filter (·.prv = pvp.name)).map fun q => (q.fn, q.prb) := by
  have hhome : ∀ pvp ∈ s.prvmap.list, ∀ g ∈ pvp.groups, g.prv = pvp.name := by
    intro pvp hpvp g hg
    obtain ⟨_, -, -, hok⟩ := h.ok pvp hpvp
    exact (hok.at_home g (mem_filter.1 hg).1).1
  constructor
  · intro ht
    obtain ⟨g, hg, rfl⟩ := mem_map.1 ht
    obtain ⟨q, hq, hprv, hfn, hprb, -⟩ := h.site_of_group hpvp hg
    refine mem_map.2 ⟨q, mem_filter.2 ⟨hq, ?_⟩, by rw [hfn, hprb]⟩
    simpa using hprv.trans (hhome pvp hpvp g hg)
  · intro ht
    obtain ⟨q, hq, rfl⟩ := mem_map.1 ht
    obtain ⟨hq, hprv⟩ := mem_filter.1 hq
    obtain ⟨g, hg, hqg⟩ := mem_flatMap.1 (h.sites.mem_iff.2 (mem_map_of_mem hq))
    obtain ⟨pvp', hpvp', hg⟩ := mem_flatMap.1 hg
    obtain ⟨_, -, heq⟩ := mem_map.1 hqg
    simp only [Probe.site, Prod.mk.injEq] at heq
    have hname : pvp'.name = pvp.name := by
      rw [← hhome pvp' hpvp' g hg, heq.1]
      simpa using hprv
    obtain rfl := provider_unique h.prvTidy hpvp' hpvp hname
    exact mem_map.2 ⟨g, hg, by rw [heq.2.1, heq.2.2.1]⟩

lemma Moved.pmap_size (h : Moved ctx.mod s₁.prvmap.list done todo s) (hcoll : Collected ctx s₁)
    (hpvp : pvp ∈ s.prvmap.list) (hplaces : pvp.places.Nodup) : pvp.pmap.size = s₁.pmapSize done pvp.name := by
  obtain ⟨pvp0, hpvp0, hname0, hok⟩ := h.ok pvp hpvp
  have hdefined : s₁.defined pvp.name = pvp0.pmap.list.length := by
    have hlook : dtHtabLookup prvOps s₁.prvmap (Provider.key pvp.name) = some pvp0 := by
      rw [← hcoll.prvTidy.lookup_self hpvp0, ← hname0]
      exact lookup_congr rfl fun _ => rfl
    rw [St.defined, hlook]
  have hdedup : pvp.places.Perm ((done.filter (·.prv = pvp.name)).map fun q => (q.fn, q.prb)).dedup := by
    rw [perm_ext_iff_of_nodup hplaces (nodup_dedup _)]
    intro t
    rw [mem_dedup, h.mem_places hpvp]
  have hsplit : pvp.pmap.list.length = (pvp.pmap.list.filter (·.fn = none)).length + pvp.groups.length := by
    have hnot : (fun p : Probe => !decide (p.fn = none)) = fun p => decide (p.fn ≠ none) := by
      funext p
      rw [decide_not]
    rw [Provider.groups, ← hnot]
    exact length_eq_length_filter_add _
  rw [hok.size, St.pmapSize, hdefined, ← hdedup.length_eq, hsplit, hok.kept.length_eq, Provider.places,
    length_map]

lemma forall_mem_replace {α : Type*} {P : α → Prop} {l r : List α} {a b : α} (h : ∀ x ∈ l ++ a :: r, P x)
    (hb : P b) : ∀ x ∈ l ++ b :: r, P x := by
  rw [forall_mem_append, forall_mem_cons] at h ⊢
  exact ⟨h.1, hb, h.2.2⟩

lemma Turn.cases {key prp : Probe} (h : Turn mod provs ptp s s' pvp key prp) {P : Provider → Prop}
    (hold : ∀ q ∈ s.prvmap.list, P q) (hnew : P (pvp.add key prp ptp)) : ∀ q ∈ s'.prvmap.list, P q := by
  obtain ⟨_, _, hlist, hlist'⟩ := h.change
  rw [hlist] at hold
  rw [hlist']
  exact forall_mem_replace hold hnew

lemma Turn.mem {key prp : Probe} (h : Turn mod provs ptp s s' pvp key prp) :
    pvp ∈ s.prvmap.list ∧ pvp.add key prp ptp ∈ s'.prvmap.list := by
  obtain ⟨_, _, hlist, hlist'⟩ := h.change
  simp [hlist, hlist']

lemma Moved.place_of_alike {q : Probe} (h : Moved ctx.mod s₁.prvmap.list done todo s) (hpvp : pvp ∈ s.prvmap.list)
    (hname : pvp.name = ptp.prv) (hq : q ∈ done) (halike : q.Alike ptp) : (ptp.fn, ptp.prb) ∈ pvp.places := by
  refine (h.mem_places hpvp).2 (mem_map.2 ⟨q, mem_filter.2 ⟨hq, ?_⟩, by rw [halike.2.1, halike.2.2]⟩)
  simpa using halike.1.trans hname.symm

lemma find_append_of_some {ps qs : List Probe} {p : Probe → Bool} {q : Probe} (h : ps.find? p = some q) :
    (ps ++ qs).find? p = some q := by
  rw [find?_append, h, Option.some_or]

section

variable (hmoved : Moved ctx.mod s₁.prvmap.list done (ptp :: todo) s) (hptp : Comes ctx.mod done ptp)
  (hrun : moveOne ptp s = (some (), s'))
include hmoved hptp hrun

lemma Led.step (h : Led done s) (hcoll : Collected ctx s₁) (hagrees : s₁.Agrees done ptp) : Led (done ++ [ptp]) s' := by
  obtain ⟨pvp, key, prp, hturn⟩ := hmoved.turn hptp hrun
  have hpvp := hturn.mem.1
  have hplaces := h.places pvp hpvp
  have hfirst := h.first pvp hpvp
  have hkeep : ∀ q ∈ s.prvmap.list, ∀ g ∈ q.groups,
      ∃ r, (done ++ [ptp]).find? (·.Alike g) = some r ∧ prbHval r = prbHval g := by
    intro q hq g hg
    obtain ⟨r, hr, hval⟩ := h.first q hq g hg
    exact ⟨r, find_append_of_some hr, hval⟩
  obtain ⟨-, ⟨_, _, hgroups, hgroups', -, -⟩ | ⟨hnone, hgroups'⟩⟩ := hturn.groups hptp
  · -- behind a probe: the places are the same
    constructor
    · refine hturn.cases h.places ?_
      rw [Provider.places, hgroups, map_append, map_cons] at hplaces
      rw [Provider.places, hgroups', map_append, map_cons]
      exact hplaces
    · refine hturn.cases hkeep ?_
      have hold := hkeep pvp hpvp
      rw [hgroups] at hold
      rw [hgroups']
      exact forall_mem_replace hold (hold prp (by simp))
  · -- a new probe: there is none with its place
    obtain ⟨_, -, -, hok⟩ := hturn.ok
    have hnot : ∀ g ∈ pvp.groups, ¬g.Alike ptp := by
      intro g hg halike
      obtain ⟨q, hq, hval⟩ := hfirst g hg
      have hslot := hagrees q (halike.find_eq done ▸ hq)
      rw [← hturn.name, ← hmoved.pmap_size hcoll hpvp hplaces, hval] at hslot
      exact (lookup_key0_none hok.tidy).1 hnone g (mem_filter.1 hg).1 halike hslot
    have hplace : (ptp.fn, ptp.prb) ∉ pvp.places := by
      intro hmem
      obtain ⟨g, hg, heq⟩ := mem_map.1 hmem
      have hprv := (hok.at_home g (mem_filter.1 hg).1).1
      simp only [Prod.mk.injEq] at heq
      exact hnot g hg ⟨hprv.trans hturn.name, heq.1, heq.2⟩
    constructor
    · refine hturn.cases h.places ?_
      have hperm : (pvp.add key prp ptp).places.Perm ((ptp.fn, ptp.prb) :: pvp.places) := hgroups'.map _
      exact hperm.nodup_iff.2 (nodup_cons.2 ⟨hplace, hplaces⟩)
    · refine hturn.cases hkeep fun g hg => ?_
      rcases mem_cons.1 (hgroups'.mem_iff.1 hg) with rfl | hg
      · have hfind : done.find? (·.Alike ptp) = none := by
          rw [find?_eq_none]
          intro q hq halike
          exact hplace (hmoved.place_of_alike hpvp hturn.name hq (decide_eq_true_iff.1 halike))
        refine ⟨ptp, ?_, rfl⟩
        change (done ++ [ptp]).find? (·.Alike ptp) = some ptp
        rw [find?_append, hfind, Option.none_or, find?_cons_of_pos]
        exact decide_eq_true ⟨rfl, rfl, rfl⟩
      · exact hkeep pvp hpvp g hg

lemma Led.agrees (h : Led done s) (hcoll : Collected ctx s₁) (hplaces' : ∀ pvp ∈ s'.prvmap.list, pvp.places.Nodup) :
    s₁.Agrees done ptp := by
  obtain ⟨pvp, key, prp, hturn⟩ := hmoved.turn hptp hrun
  obtain ⟨hpvp, hpvp'⟩ := hturn.mem
  intro q hq
  rw [← hturn.name, ← hmoved.pmap_size hcoll hpvp (h.places pvp hpvp)]
  obtain ⟨-, ⟨_, _, hgroups, -, halike, hslot⟩ | ⟨-, hgroups'⟩⟩ := hturn.groups hptp
  · obtain ⟨r, hr, hval⟩ := h.first pvp hpvp prp (by rw [hgroups]; simp)
    rw [halike.find_eq, hq, Option.some.injEq] at hr
    rw [hr, hval]
    exact hslot
  · -- there are two probes now
    have hperm : (pvp.add key prp ptp).places.Perm ((ptp.fn, ptp.prb) :: pvp.places) := hgroups'.map _
    have hnot := (nodup_cons.1 (hperm.nodup_iff.1 (hplaces' _ hpvp'))).1
    have halike : q.Alike ptp := by simpa using find?_some hq
    exact absurd (hmoved.place_of_alike hpvp hturn.name (mem_of_find?_eq_some hq) halike) hnot

lemma Moved.places_of_step (hplaces' : ∀ pvp ∈ s'.prvmap.list, pvp.places.Nodup) :
    ∀ pvp ∈ s.prvmap.list, pvp.places.Nodup := by
  obtain ⟨pvp, key, prp, hturn⟩ := hmoved.turn hptp hrun
  obtain ⟨_, _, hlist, hlist'⟩ := hturn.change
  rw [hlist'] at hplaces'
  have hone := hplaces' (pvp.add key prp ptp) (by simp)
  have hpvp : pvp.places.Nodup := by
    obtain ⟨-, ⟨_, _, hgroups, hgroups', -, -⟩ | ⟨-, hgroups'⟩⟩ := hturn.groups hptp
    · rw [Provider.places, hgroups', map_append, map_cons] at hone
      rw [Provider.places, hgroups, map_append, map_cons]
      exact hone
    · have hperm : (pvp.add key prp ptp).places.Perm ((ptp.fn, ptp.prb) :: pvp.places) := hgroups'.map _
      exact (nodup_cons.1 (hperm.nodup_iff.1 hone)).2
  rw [hlist]
  exact forall_mem_replace hplaces' hpvp

end

lemma moveLoop_places_of {n : ℕ} (hmoved : Moved ctx.mod s₁.prvmap.list done todo s)
    (hcomes : ∀ before ptp after, todo = before ++ ptp :: after → Comes ctx.mod (done ++ before) ptp)
    (hrun : moveLoop n (.of todo) s = (some (), s')) (hplaces' : ∀ pvp ∈ s'.prvmap.list, pvp.places.Nodup) :
    ∀ pvp ∈ s.prvmap.list, pvp.places.Nodup := by
  induction todo generalizing n done s with
  | nil =>
    rcases n with _ | n
    · cases hrun
    cases hrun
    exact hplaces'
  | cons ptp todo ih =>
    obtain ⟨k, _, hptp, hone, hrun, hcomes2⟩ := hmoved.loop_cons hcomes hrun
    exact hmoved.places_of_step hptp hone (ih (hmoved.step hptp hone).1 hcomes2 hrun)

lemma moveLoop_places {n : ℕ} (hmoved : Moved ctx.mod s₁.prvmap.list done todo s) (hcoll : Collected ctx s₁)
    (hcomes : ∀ before ptp after, todo = before ++ ptp :: after → Comes ctx.mod (done ++ before) ptp)
    (hrun : moveLoop n (.of todo) s = (some (), s')) (h : Led done s) :
    (∀ pvp ∈ s'.prvmap.list, pvp.places.Nodup) ↔
      ∀ before ptp after, todo = before ++ ptp :: after → s₁.Agrees (done ++ before) ptp := by
  induction todo generalizing n done s with
  | nil =>
    rcases n with _ | n
    · cases hrun
    cases hrun
    refine ⟨fun _ before ptp after heq => ?_, fun _ => h.places⟩
    simp at heq
  | cons ptp todo ih =>
    obtain ⟨k, _, hptp, hone, hrun, hcomes2⟩ := hmoved.loop_cons hcomes hrun
    have hmoved2 := (hmoved.step hptp hone).1
    constructor
    · intro hplaces' before q after heq
      have hagrees := h.agrees hmoved hptp hone hcoll (moveLoop_places_of hmoved2 hcomes2 hrun hplaces')
      rcases before with _ | ⟨p, before⟩
      · cases heq
        rwa [append_nil]
      · cases heq
        rw [append_cons]
        exact (ih hmoved2 hcomes2 hrun (h.step hmoved hptp hone hcoll hagrees)).1 hplaces' before q after rfl
    · intro hall
      have hagrees := hall [] ptp todo rfl
      rw [append_nil] at hagrees
      refine (ih hmoved2 hcomes2 hrun (h.step hmoved hptp hone hcoll hagrees)).2 fun before q after heq => ?_
      have hq := hall (ptp :: before) q after (by rw [heq]; rfl)
      rwa [append_cons] at hq

/-! ## The theorem -/

lemma Collected.led (h : Collected ctx s) : Led [] s := by
  have hnone : ∀ pvp ∈ s.prvmap.list, pvp.groups = [] := by
    intro pvp hpvp
    rw [Provider.groups, filter_eq_nil_iff]
    intro p hp
    simp [((h.defs pvp hpvp).isDef p hp).fn]
  constructor
  · intro pvp hpvp
    rw [Provider.places, hnone pvp hpvp]
    exact nodup_nil
  · intro pvp hpvp g hg
    rw [hnone pvp hpvp] at hg
    cases hg

/-- **Grouping.**  When the parser returns 0, there is one probe message for each provider, function and name, with the
number of its tracepoints, only if the slots agree; and it is so if they agree, and there are fewer than `2 ^ 32`
tracepoints to count. -/
theorem grouped_iff {mem : Bytes} (hread : readNotes ctx (ctx.size + 1) 0 (St.init mem) = (some (), s₁))
    (hrun : usdtParseNotes ctx (St.init mem) = (some (), s)) :
    (Grouped s → SlotsAgree s₁) ∧ (s₁.seen.length < 2 ^ 32 → SlotsAgree s₁ → Grouped s) := by
  obtain ⟨s₂, hcoll, hmoved, hseen, hout, hloop⟩ := usdtParseNotes_some hread hrun
  have hplaces :=
    moveLoop_places hcoll.moved hcoll (fun before ptp after heq => hcoll.comes heq) hloop hcoll.led
  constructor
  · intro hgrouped
    exact hplaces.1 (hmoved.places_nodup hcoll hseen hout hgrouped)
  · intro hfew hagree
    exact hmoved.grouped hcoll hseen hout hfew (hmoved.triples_nodup (hplaces.2 hagree))

lemma slotsAgree_of_take (h : ∀ i < s.prbmap.list.length, ∀ ptp ∈ s.prbmap.list[i]?,
    ∀ q ∈ (s.prbmap.list.take i).find? (·.Alike ptp), slotOf (s.pmapSize (s.prbmap.list.take i) ptp.prv) (prbHval q) =
      slotOf (s.pmapSize (s.prbmap.list.take i) ptp.prv) (prbHval ptp.key0)) : SlotsAgree s := by
  intro before ptp after heq q hq
  have hptp := h before.length (by simp [heq]) ptp (by simp [heq]) q
  rw [heq, take_left] at hptp
  exact hptp hq

/-- The provider `p` with probes of one letter each, and two tracepoints of its probe `a` in the function `f`. -/
def manyProbes (names : List ℕ) (off : ℕ) : Bytes :=
  Bytes.ofNat 4 5 ++ Bytes.ofNat 4 (28 + 4 * names.length) ++ Bytes.ofNat 4 1 ++ litProv ++ [0, 0, 0] ++
    [112, 0, 0, 0] ++ List.replicate 20 0 ++ Bytes.ofNat 4 names.length ++
    names.flatMap (fun c => [BitVec.ofNat 8 c, 0, 0, 0]) ++ usdtNote 97 off ++ [0, 0] ++ usdtNote 97 (off + 16)

/-- A table of 4 slots, two tracepoints of one probe and one of another. -/
theorem grouped_two : let mem := manyProbes (range' 97 8) 0x1000 ++ [0, 0] ++ usdtNote 98 0x3000
    let run := usdtParseNotes ⟨210, [109], 0, some ⟨0, 2, [102, 0]⟩⟩ (St.init mem)
    run.1 = some () ∧ run.2.seen.map UsdtNote.triple =
      [([112], [102], [97]), ([112], [102], [97]), ([112], [102], [98])] ∧ Grouped run.2 := by
  intro mem run
  have hrun : run.1 = some () := by decide +kernel
  refine ⟨hrun, by decide +kernel, ?_⟩
  refine (grouped_iff (eq_some_snd ?_) (eq_some_snd hrun)).2 ?_ (slotsAgree_of_take ?_)
  · decide +kernel
  · decide +kernel
  · decide +kernel

/-- The table has 32 slots when the second tracepoint comes, and the probe is not in the slot it is looked up in: there
are two probes with one tracepoint each. -/
theorem split_probe : let mem := manyProbes (range' 97 26 ++ range' 65 8) 0x1000
    let run := usdtParseNotes ⟨270, [109], 0, some ⟨0, 2, [102, 0]⟩⟩ (St.init mem)
    run.1 = some () ∧ probeMsgs [] run.2.out = [(([112], [102], [97]), 1), (([112], [102], [97]), 1)] ∧
      ¬Grouped run.2 := by
  refine ⟨by decide +kernel, by decide +kernel, ?_⟩
  rw [Grouped]
  decide +kernel

end

end DTrace.Usdt
