import DTrace.Spec.Moves

/-!
# Delivery

What is needed for every record of a committed speculation to reach the caller: the consumer looks at the buffers it drains
only when it has a record that is not speculative.

* `Awake` — a buffer that is being drained and holds something back is looked at again;
* `Due` — a commit that has been recorded will be consumed, or has been, and then nothing of its speculation is missed;
* `delivery` — runs in which every commit finds what it commits, or the rest of it comes in time;
* `speculated_conserved`, `speculation_unused` — what holds at every moment.
-/

namespace DTrace.Spec

open Consume Lib Multiset Function List Option

variable {x : Clause} {specsize : ℕ}

section

variable {κ β : Type}

/-- A record that makes the consumer look at the buffers that are being drained. -/
def Wakes (r : Record ℕ β) : Prop := r.isError = false ∧ r.specid = 0

/-- The buffer of a speculation is being drained. -/
def DrainingGen (v : View κ β) (k : ℕ) : Prop :=
  ∃ i e b, v.hdl.specs i = some e ∧ e.gen = k ∧ v.hdl.specBufs i = some b ∧ b.draining = true

/-- The speculation is not in the map any more. -/
def Gone (v : View κ β) (k : ℕ) : Prop := ∀ i e, v.hdl.specs i = some e → e.gen ≠ k

/-- A buffer that is being drained and is not empty is looked at again. -/
def Awake (v : View κ β) : Prop :=
  ∀ i b, v.hdl.specBufs i = some b → b.draining = true → b.data ≠ [] → ∃ x ∈ v.buffered, Wakes x.2

variable {v v' : View κ β} {m : Move κ β} {h' : Hdl κ ℕ β} {k : ℕ}

/-! ## What a record does to the buffers -/

lemma Core.not_flying (h : Core v) (hk : Gone v k) : ∀ x ∈ v.flight, x.gen ≠ some k := by
  intro x hx hgen
  by_cases hzero : x.specid = 0
  · simp [h.plain x hx hzero] at hgen
  · obtain ⟨-, e, he, hgen'⟩ := h.spec x hx hzero
    exact hk _ e he (Option.some.inj (hgen'.symm.trans hgen))

lemma Core.held_gen {x : κ × Record ℕ β} {i : ℕ} (h : Core v) (hx : x ∈ v.held i) :
    ∃ e, v.hdl.specs i = some e ∧ x.2.gen = some e.gen := by
  rw [View.held] at hx
  cases hb : v.hdl.specBufs i with
  | none => simp [hb] at hx
  | some b =>
    obtain ⟨e, he, hbuf⟩ := h.bufs i b hb
    exact ⟨e, he, hbuf.gen x (by simpa [hb] using hx)⟩

/-- The records of a speculation that are held back are in one buffer, and accounted for. -/
lemma Core.balanced (h : Core v) (k : ℕ) :
    ∃ i, (∀ j, ∀ x ∈ v.held j, x.2.gen = some k → j = i) ∧ Balanced v k (ofGen k (v.held i)) := by
  by_cases hgone : Gone v k
  · have hnone : ∀ j, ∀ x ∈ v.held j, x.2.gen ≠ some k := by
      intro j x hx hgen
      obtain ⟨e, he, hxe⟩ := h.held_gen hx
      exact hgone j e he (Option.some.inj (hxe.symm.trans hgen))
    refine ⟨0, fun j x hx hgen => absurd hgen (hnone j x hx), ?_⟩
    rw [ofGen, Multiset.filter_eq_nil.2 (hnone 0)]
    exact h.gone k hgone
  · obtain ⟨i, e, he, rfl⟩ : ∃ i e, v.hdl.specs i = some e ∧ e.gen = k := by simpa [Gone] using hgone
    have hall : ∀ x ∈ v.held i, x.2.gen = some e.gen := by
      intro x hx
      obtain ⟨f, hf, hxf⟩ := h.held_gen hx
      rwa [mem_unique hf he] at hxf
    refine ⟨i, fun j x hx hgen => ?_, ?_⟩
    · obtain ⟨f, hf, hxf⟩ := h.held_gen hx
      exact h.inj j i f e hf he (Option.some.inj (hxf.symm.trans hgen))
    · rw [ofGen, Multiset.filter_eq_self.2 hall]
      exact h.entry i e he

variable {e : DtBpfSpecs ℕ} {B : Multiset (κ × Record ℕ β)} {l : List ℕ} {r : Record ℕ β} {R : Multiset Clause}

lemma Fares.specs {h : Hdl κ ℕ β} {p : Prop} {i : ℕ} (hf : Fares h h' p i) (he : h'.specs i = some e) :
    h.specs i = some e := by
  rcases hf with ⟨⟨heq, -⟩, -⟩ | ⟨heq, -⟩ | ⟨heq, -⟩
  · exact heq.symm.trans he
  · exact heq.symm.trans he
  · exact absurd (heq.symm.trans he) (by simp)

variable {p : ℕ → Prop}

lemma Core.drained (h : Core v) (hf : ∀ i, Fares v.hdl h' (p i) i) {i : ℕ} {e : DtBpfSpecs ℕ}
    {b : SpecBuf κ ℕ β} (he : v.hdl.specs i = some e) (hb : v.hdl.specBufs i = some b) (hp : b.draining = true ∨ p i) :
    DrainingGen { v with buffered := B, hdl := h', consumed := l } e.gen ∨
      Gone { v with buffered := B, hdl := h', consumed := l } e.gen := by
  rcases hf i with ⟨-, hoff⟩ | ⟨hspecs, _, b', -, hb', hon, -⟩ | ⟨hspecs, -⟩
  · obtain ⟨hd, hn⟩ := hoff b hb
    rcases hp with hp | hp
    · exact absurd (hp.symm.trans hd) (by decide)
    · exact absurd hp hn
  · exact .inl ⟨i, e, b', hspecs.trans he, rfl, hb', hon⟩
  · refine .inr fun j f hf' hgen => ?_
    obtain rfl : j = i := h.inj j i f e ((hf j).specs hf') he hgen
    exact absurd (hspecs.symm.trans hf') (by simp)

lemma awake_of_fares
    (hf : ∀ i, Fares v.hdl h' (p i) i) : Awake { v with buffered := B, hdl := h', consumed := l } := by
  intro i b hb hd hdata
  rcases hf i with ⟨⟨-, heq⟩, hoff⟩ | ⟨-, _, _, -, hb', -, hnil, -⟩ | ⟨-, hnone, -⟩
  · exact absurd (hd.symm.trans (hoff b (heq.symm.trans hb)).1) (by decide)
  · obtain rfl := mem_unique hb' hb
    exact absurd hnil hdata
  · exact absurd (hnone.symm.trans hb) (by simp)

lemma Moves.of_hive (h : Moves specsize v (.hive B r) v') : r.isError = false ∧ r.specid ≠ 0 := by
  cases h with
  | hive herr hr => exact ⟨herr, hr⟩

lemma Moves.of_plain (h : Moves specsize v (.plain B r) v') : r.isError = false ∧ r.specid = 0 := by
  cases h with
  | plain herr hr => exact ⟨herr, hr⟩

/-- A record that comes for a buffer that is being drained is not the last that the consumer looks at. -/
def KeepsAwake (v : View κ β) : Move κ β → Prop
  | .hive B r => ∀ b, v.hdl.specBufs r.specid = some b → b.draining = true → ∃ x ∈ B, Wakes x.2
  | _ => True

lemma Awake.moves (h : Awake v) (hcore : Core v) (hok : KeepsAwake v m) (hm : Moves specsize v m v') : Awake v' := by
  cases hm with
  | output c herr | error c hr =>
    intro i b hb hd hdata
    obtain ⟨x, hx, hwakes⟩ := h i b hb hd hdata
    exact ⟨x, mem_cons_of_mem hx, hwakes⟩
  | @hive v B c r herr hr =>
    intro i b hb hd hdata
    have hrest : ∀ b0, v.hdl.specBufs i = some b0 → b0.draining = true → b0.data ≠ [] → ∃ x ∈ B, Wakes x.2 := by
      intro b0 hb0 hd0 hdata0
      obtain ⟨x, hx, hwakes⟩ := h i b0 hb0 hd0 hdata0
      rcases mem_cons.1 hx with rfl | hx
      · exact absurd hwakes.2 hr
      · exact ⟨x, hx, hwakes⟩
    rcases update_eq_some hb with ⟨rfl, rfl⟩ | ⟨-, hb⟩
    · unfold addTo at hd
      cases hb0 : v.hdl.specBufs r.specid with
      | none => simp [hb0, SpecBuf.addData, SpecBuf.new] at hd
      | some b0 =>
        rw [hb0] at hd
        exact hok b0 hb0 hd
    · exact hrest b hb hd hdata
  | plain herr hr htime hok' => exact awake_of_fares (hcore.fares herr hr htime hok').2
  | report herr hr =>
    intro i b hb hd hdata
    obtain ⟨x, hx, hwakes⟩ := h i b hb hd hdata
    rcases mem_cons.1 hx with rfl | hx
    · exact absurd (hwakes.1.symm.trans herr) (by decide)
    · exact ⟨x, hx, hwakes⟩
  | _ => exact h

/-! ## Commits -/

/-- Nothing of a speculation is in flight or held back. -/
structure Settled (v : View κ β) (k : ℕ) : Prop where
  flight : ∀ x ∈ v.flight, x.gen ≠ some k
  held : ∀ i e, v.hdl.specs i = some e → e.gen = k → v.held i = []

/-- A record that commits a speculation waits. -/
def Announced (v : View κ β) (k : ℕ) : Prop := ∃ x ∈ v.buffered, Wakes x.2 ∧ ∃ id, Act.commit id (some k) ∈ x.2.acts

/-- What becomes of a speculation that is committed. -/
def Due (v : View κ β) : Prop := ∀ k ∈ v.commits, Announced v k ∨ DrainingGen v k ∨ Settled v k

/-- A commit finds something that is held back, unless there is nothing more to come. -/
def Finds (v : View κ β) : Move κ β → Prop
  | .plain _ r => ∀ id k, Act.commit id (some k) ∈ r.acts → v.hdl.specBufs id = none → ∀ x ∈ v.flight, x.gen ≠ some k
  | _ => True

lemma Core.settled (h : Core v) (hk : Gone v k) : Settled v k :=
  ⟨h.not_flying hk, fun i e he hgen => absurd hgen (hk i e he)⟩

lemma Settled.mono (h : Settled v k) (hflight : ∀ x ∈ v'.flight, x.gen = some k → ∃ y ∈ v.flight, y.gen = some k)
    (hspecs : ∀ i e, v'.hdl.specs i = some e → e.gen = k → ∃ f, v.hdl.specs i = some f ∧ f.gen = k)
    (hbufs : v'.hdl.specBufs = v.hdl.specBufs) : Settled v' k := by
  refine ⟨fun x hx hgen => ?_, fun i e he hgen => ?_⟩
  · obtain ⟨y, hy, hgen'⟩ := hflight x hx hgen
    exact h.flight y hy hgen'
  · obtain ⟨f, hf, hgen'⟩ := hspecs i e he hgen
    have hheld := h.held i f hf hgen'
    unfold View.held at hheld ⊢
    rw [hbufs]
    exact hheld

lemma gen_update {specs : Specs ℕ} {id : ℕ} (e' : DtBpfSpecs ℕ) (he : specs id = some e) (hgen : e'.gen = e.gen) :
    (∀ i f, specs i = some f → ∃ g, update specs id (some e') i = some g ∧ g.gen = f.gen) ∧
      ∀ k i f, update specs id (some e') i = some f → f.gen = k → ∃ g, specs i = some g ∧ g.gen = k := by
  refine ⟨fun i f hf => ?_, fun k i f hf hk => ?_⟩
  · by_cases hi : i = id
    · subst hi
      obtain rfl := mem_unique hf he
      exact ⟨e', update_self .., hgen⟩
    · exact ⟨f, (update_of_ne hi ..).trans hf, rfl⟩
  · rcases update_eq_some hf with ⟨rfl, rfl⟩ | ⟨-, hf⟩
    · exact ⟨e, he, hgen.symm.trans hk⟩
    · exact ⟨f, hf, hk⟩

/-- The buffers stay, and so do the entries of the map, up to their counts and marks. -/
structure Carries (v v' : View κ β) : Prop where
  bufs : v'.hdl.specBufs = v.hdl.specBufs
  forth : ∀ i e, v.hdl.specs i = some e → ∃ f, v'.hdl.specs i = some f ∧ f.gen = e.gen
  back : ∀ k < v.nextGen, ∀ i e, v'.hdl.specs i = some e → e.gen = k → ∃ f, v.hdl.specs i = some f ∧ f.gen = k

lemma Moves.carries (hm : Moves specsize v m v') (h : match m with | .hive .. | .plain .. => False | _ => True) :
    Carries v v' := by
  cases hm with
  | speculation hid hnone =>
    refine ⟨rfl, fun i e he => ⟨e, ?_, rfl⟩, fun k hk i e he hgen => ?_⟩
    · refine (update_of_ne ?_ ..).trans he
      rintro rfl
      simp [hnone] at he
    · rcases update_eq_some he with ⟨-, rfl⟩ | ⟨-, he⟩
      · exact absurd hgen hk.ne'
      · exact ⟨e, he, hgen⟩
  | @speculate v x id e hx hacts he hd =>
    obtain ⟨hforth, hback⟩ := gen_update { e with written := e.written + 1 } he rfl
    exact ⟨rfl, hforth, fun k _ => hback k⟩
  | @fate v x id e commit hx he =>
    obtain ⟨hforth, hback⟩ := gen_update { e with draining := true } he rfl
    exact ⟨rfl, hforth, fun k _ => hback k⟩
  | hive | plain => exact h.elim
  | _ => exact ⟨rfl, fun i e he => ⟨e, he, rfl⟩, fun k _ i e he hgen => ⟨e, he, hgen⟩⟩

lemma DrainingGen.mono (h : DrainingGen v k) (hc : Carries v v') : DrainingGen v' k := by
  obtain ⟨i, e, b, he, rfl, hb, hd⟩ := h
  obtain ⟨f, hf, hgen⟩ := hc.forth i e he
  exact ⟨i, f, b, hf, hgen, by rw [hc.bufs]; exact hb, hd⟩

lemma Due.inside (h : Due v) (hc : Carries v v') (hcore : Core v) (hbuffered : v'.buffered = v.buffered)
    (hcommits : v'.commits = v.commits)
    (hflight : ∀ k ∈ v.commits, ∀ x ∈ v'.flight, x.gen = some k → ∃ y ∈ v.flight, y.gen = some k) : Due v' := by
  intro k hk
  rw [hcommits] at hk
  rcases h k hk with ⟨x, hx, hwakes, hacts⟩ | hd | hs
  · exact .inl ⟨x, by rw [hbuffered]; exact hx, hwakes, hacts⟩
  · exact .inr (.inl (hd.mono hc))
  · exact .inr (.inr (hs.mono (hflight k hk) (hc.back k (hcore.decided k (.inl hk)).1) hc.bufs))

lemma mem_flight_running {y z : Clause} (hz : z ∈ ({ v with running := y ::ₘ R } : View κ β).flight) :
    z = y ∨ z ∈ ({ v with running := x ::ₘ R } : View κ β).flight := by
  rw [flight_cons] at hz ⊢
  exact (mem_cons.1 hz).imp_right mem_cons_of_mem

lemma mem_flight_self : x ∈ ({ v with running := x ::ₘ R } : View κ β).flight := by
  rw [flight_cons]
  exact mem_cons_self ..

lemma Due.enter (h : Due v) (hcore : Core v) : Due { v with running := .new ::ₘ v.running } := by
  have hm : Moves 0 v .inside { v with running := .new ::ₘ v.running } := .enter
  refine h.inside (hm.carries trivial) hcore rfl rfl fun k _ x hx hgen => ?_
  rw [flight_cons] at hx
  rcases mem_cons.1 hx with rfl | hx
  · cases hgen
  · exact ⟨x, hx, hgen⟩

lemma Due.emit (h : Due { v with running := x ::ₘ R })
    (hcore : Core { v with running := x ::ₘ R }) (hr : recClause r = x) (herr : r.isError = false ∨ x.acts = []) (c : κ) :
    Due (v.emit R x c r) := by
  intro k hk
  rcases mem_append.1 hk with hold | hnew
  · rcases h k hold with ⟨y, hy, hwakes, hacts⟩ | hd | hs
    · exact .inl ⟨y, mem_cons_of_mem hy, hwakes, hacts⟩
    · exact .inr (.inl hd)
    · refine .inr (.inr (hs.mono (fun y hy hgen => ⟨y, ?_, hgen⟩) (fun i e he hgen => ⟨e, he, hgen⟩) rfl))
      rwa [flight_emit v c hr] at hy
  · obtain ⟨a, ha, hak⟩ := mem_filterMap.1 hnew
    obtain ⟨id, rfl⟩ : ∃ id, a = .commit id (some k) := by
      cases a with
      | commit id gen => exact ⟨id, by simpa [commitGen] using hak⟩
      | _ => simp [commitGen] at hak
    have hgood : r.isError = false := herr.resolve_right (ne_nil_of_mem ha)
    -- a clause that commits does not write for a speculation
    have hzero : x.specid = 0 := by
      by_contra hne
      have hclean := any_eq_false.1 (hcore.spec x mem_flight_self hne).1 _ ha
      exact hclean rfl
    refine .inl ⟨(c, r), mem_cons_self .., ⟨hgood, ?_⟩, id, ?_⟩
    · rw [← hr] at hzero
      exact hzero
    · rw [← hr] at ha
      exact ha

lemma DrainingGen.hive {c : κ}
    (h : DrainingGen { v with buffered := (c, r) ::ₘ B } k) : DrainingGen (v.hive B c r) k := by
  obtain ⟨i, f, b, hf, hfk, hb, hd⟩ := h
  by_cases hi : i = r.specid
  · subst hi
    refine ⟨_, f, addTo v c r, hf, hfk, update_self .., ?_⟩
    unfold addTo
    rw [show v.hdl.specBufs r.specid = some b from hb]
    exact hd
  · exact ⟨i, f, b, hf, hfk, (update_of_ne hi ..).trans hb, hd⟩

lemma Due.hive {c : κ} (h : Due { v with buffered := (c, r) ::ₘ B })
    (hcore : Core { v with buffered := (c, r) ::ₘ B }) (hr : r.specid ≠ 0) : Due (v.hive B c r) := by
  obtain ⟨-, e, he, hgen⟩ := hcore.spec _ recClause_mem_flight hr
  intro k hk
  rcases h k hk with ⟨x, hx, hwakes, hacts⟩ | hd | hs
  · rcases mem_cons.1 hx with rfl | hx
    · exact absurd hwakes.2 hr
    · exact .inl ⟨x, hx, hwakes, hacts⟩
  · exact .inr (.inl hd.hive)
  · -- the record is in flight, so it is of another speculation
    have hne : e.gen ≠ k := fun heq => hs.flight _ recClause_mem_flight (heq ▸ hgen)
    refine .inr (.inr ⟨fun x hx => hs.flight x (mem_flight_of_tail hx), fun i f hf hfk => ?_⟩)
    rw [held_hive, if_neg]
    · exact hs.held i f hf hfk
    · rintro rfl
      obtain rfl := mem_unique hf he
      exact hne hfk

lemma Due.plain {c : κ}
    (h : Due { v with buffered := (c, r) ::ₘ B }) (hcore : Core { v with buffered := (c, r) ::ₘ B })
    (hcore' : Core { v with buffered := B, hdl := h', consumed := l }) (htime : ∀ a ∈ r.acts, Timely v.hdl a)
    (hf : ∀ i, Fares v.hdl h' (∃ a ∈ r.acts, fateId a = some i) i)
    (hfinds : Finds { v with buffered := (c, r) ::ₘ B } (.plain B r)) :
    Due { v with buffered := B, hdl := h', consumed := l } := by
  -- nothing that is settled comes up again
  have hsettled : ∀ k, Settled { v with buffered := (c, r) ::ₘ B } k →
      Settled { v with buffered := B, hdl := h', consumed := l } k := by
    intro k hs
    refine ⟨fun x hx => hs.flight x (mem_flight_of_tail hx), fun i e he hgen => ?_⟩
    have hold := hs.held i e ((hf i).specs he) hgen
    unfold View.held at hold ⊢
    rcases hf i with ⟨⟨-, heq⟩, -⟩ | ⟨-, b, _, -, hb', -, hnil, -⟩ | ⟨-, hnone, -⟩
    · simp only [heq]
      exact hold
    · simp [hb', hnil]
    · simp [hnone]
  have hdrained : ∀ i e b, v.hdl.specs i = some e → v.hdl.specBufs i = some b →
      (b.draining = true ∨ ∃ a ∈ r.acts, fateId a = some i) →
      DrainingGen { v with buffered := B, hdl := h', consumed := l } e.gen ∨
        Settled { v with buffered := B, hdl := h', consumed := l } e.gen := by
    intro i e b he hb hp
    exact (Core.drained hcore hf he hb hp).imp_right hcore'.settled
  intro k hk
  rcases h k hk with ⟨x, hx, hwakes, id, hacts⟩ | ⟨i, e, b, he, rfl, hb, hd⟩ | hs
  · rcases mem_cons.1 hx with rfl | hx
    · refine .inr ?_
      cases hb : v.hdl.specBufs id with
      | none =>
        refine .inr (hsettled k ⟨hfinds id k hacts hb, fun i e he hgen => ?_⟩)
        obtain ⟨rfl, -⟩ := (hcore.fate _ recClause_mem_flight _ hacts id k (.inl rfl)).2 i e he hgen
        unfold View.held
        rw [hb]
        rfl
      | some b =>
        obtain ⟨e, he, -⟩ := hcore.bufs id b hb
        obtain rfl : k = e.gen := Option.some.inj (htime _ hacts id _ (.inl rfl) b e hb he)
        exact hdrained id e b he hb (.inr ⟨_, hacts, rfl⟩)
    · exact .inl ⟨x, hx, hwakes, id, hacts⟩
  · exact .inr (hdrained i e b he hb (.inl hd))
  · exact .inr (.inr (hsettled k hs))

lemma Due.moves (h : Due v) (hcore : Core v) (hok : Finds v m) (hm : Moves specsize v m v') : Due v' := by
  have hcore' := hcore.moves hm
  have hc := hm.carries
  cases hm with
  | same => exact h
  | speculation hid hnone => exact h.inside (hc trivial) hcore rfl rfl fun k _ x hx hgen => ⟨x, hx, hgen⟩
  | enter => exact h.enter hcore
  | leave =>
    refine h.inside (hc trivial) hcore rfl rfl fun k _ x hx hgen => ⟨x, ?_, hgen⟩
    rw [flight_cons]
    exact mem_cons_of_mem hx
  | @speculate v x id e hx hacts he hd =>
    refine h.inside (hc trivial) hcore rfl rfl fun k hk z hz hgen => ?_
    rcases mem_flight_running hz with rfl | hz
    · -- a speculation that is committed cannot be written to
      obtain rfl : e.gen = k := Option.some.inj hgen
      exact absurd ((hcore.decided _ (.inl hk)).2 id e he rfl) (by simp [hd])
    · exact ⟨z, hz, hgen⟩
  | @fate v x id e commit hx he =>
    refine h.inside (hc trivial) hcore rfl rfl fun k hk z hz hgen => ?_
    rcases mem_flight_running hz with rfl | hz
    · exact ⟨x, mem_flight_self, hgen⟩
    · exact ⟨z, hz, hgen⟩
  | @unknown v x | @data v x =>
    refine h.inside (hc trivial) hcore rfl rfl fun k _ z hz hgen => ?_
    rcases mem_flight_running hz with rfl | hz
    · exact ⟨x, mem_flight_self, hgen⟩
    · exact ⟨z, hz, hgen⟩
  | output c herr => exact Due.emit h hcore rfl (.inl herr) c
  | error c hr =>
    have henter : Moves specsize v .inside { v with running := .new ::ₘ v.running } := .enter
    exact (h.enter hcore).emit (hcore.moves henter) hr (.inr rfl) c
  | hive herr hr => exact Due.hive h hcore hr
  | plain herr hr htime hok' => exact Due.plain h hcore hcore' htime (hcore.fares herr hr htime hok').2 hok
  | @report v B c r herr hr =>
    intro k hk
    rcases h k hk with ⟨x, hx, hwakes, hacts⟩ | hd | hs
    · rcases mem_cons.1 hx with rfl | hx
      · exact absurd (hwakes.1.symm.trans herr) (by decide)
      · exact .inl ⟨x, hx, hwakes, hacts⟩
    · exact .inr (.inl hd)
    · exact .inr (.inr ⟨fun x hx => hs.flight x (mem_flight_of_tail hx), hs.held⟩)

end

/-! ## Runs -/

section

variable {κ β : Type} [Fintype κ] [DecidableEq κ] {nspec : ℕ} {s : Sys κ β} {c : κ} {m : Move κ β}

/-- A speculative record that comes for a buffer that is being drained is not the last record to be looked at: one that is
not speculative waits still. -/
def Attentive (s : Sys κ β) : Event κ β → Prop
  | .consume c => ∀ r rest, s.buf c = r :: rest → r.isError = false → r.specid ≠ 0 →
      ∀ b, s.hdl.specBufs r.specid = some b → b.draining = true →
        ∃ c', ∃ r' ∈ update s.buf c rest c', r'.isError = false ∧ r'.specid = 0
  | _ => True

/-- A commit of a speculation of which nothing is held back comes when nothing of it is on its way, neither in a clause that
runs nor in a buffer. -/
def Gathers (s : Sys κ β) : Event κ β → Prop
  | .consume c => ∀ r rest, s.buf c = r :: rest → r.isError = false → r.specid = 0 →
      ∀ id k, Act.commit id (some k) ∈ r.acts → s.hdl.specBufs id = none →
        (∀ c' cl, s.clause c' = some cl → cl.gen ≠ some k) ∧ ∀ c', ∀ r' ∈ s.buf c', r'.gen ≠ some k
  | _ => True

/-- No record makes a speculation one that is both committed and discarded. -/
def Decisive (s : Sys κ β) : Event κ β → Prop
  | .output c .. => ∀ cl, s.clause c = some cl →
      (s.commits ++ cl.acts.filterMap commitGen).Disjoint (s.discards ++ cl.acts.filterMap discardGen)
  | _ => True

omit [Fintype κ] in
lemma decided_step (ev : Event κ β) (h : s.commits.Disjoint s.discards) (hok : Decisive s ev) :
    (step nspec specsize s ev).commits.Disjoint (step nspec specsize s ev).discards := by
  cases ev with
  | output c =>
    rw [step]
    cases hcl : s.clause c with
    | none => exact h
    | some cl => exact hok cl hcl
  | speculate c | fate c | data c =>
    rw [step]
    cases s.clause c with
    | none => exact h
    | some cl =>
      simp only [Option.elim_some, Sys.speculate, Sys.fate, Sys.data]
      repeat' split
      all_goals exact h
  | _ =>
    simp only [step, Sys.consume]
    repeat' split
    all_goals exact h

omit [DecidableEq κ] in
lemma mem_view_running : x ∈ s.view.running ↔ ∃ c, s.clause c = some x := by
  unfold Sys.view runningOf
  simp [mem_waiting]

variable {ev : Event κ β}

lemma keepsAwake_of_attentive {v' : View κ β} (hok : Attentive s ev) (hof : MoveOf s ev m)
    (hm : Moves specsize s.view m v') : KeepsAwake s.view m := by
  cases m with
  | hive B r =>
    obtain ⟨c, rest, rfl, hbuf, rfl⟩ := hof
    intro b hb hd
    obtain ⟨herr, hr⟩ := hm.of_hive
    obtain ⟨c', r', hr', hwakes⟩ := hok r rest hbuf herr hr b hb hd
    exact ⟨(c', r'), mem_waiting.2 hr', hwakes⟩
  | _ => trivial

lemma finds_of_gathers {v' : View κ β} (hok : Gathers s ev) (hof : MoveOf s ev m)
    (hm : Moves specsize s.view m v') : Finds s.view m := by
  cases m with
  | plain B r =>
    obtain ⟨c, rest, rfl, hbuf, rfl⟩ := hof
    intro id k hacts hnone x hx
    obtain ⟨herr, hr⟩ := hm.of_plain
    obtain ⟨hclause, hbuffered⟩ := hok r rest hbuf herr hr id k hacts hnone
    rcases mem_add.1 hx with hx | hx
    · obtain ⟨c', hc'⟩ := mem_view_running.1 hx
      exact hclause c' x hc'
    · obtain ⟨y, hy, rfl⟩ := mem_map.1 hx
      exact hbuffered y.1 y.2 (mem_waiting.1 hy)
  | _ => trivial

omit [DecidableEq κ] in
lemma quiet_flight (hq : Quiet s) : s.view.flight = 0 ∧ s.view.buffered = 0 := by
  have hbuf : s.view.buffered = 0 := waiting_eq_zero_iff.2 fun c => (hq c).2
  have hrun : s.view.running = 0 := by
    rw [eq_zero_iff_forall_notMem]
    intro x hx
    obtain ⟨c, hc⟩ := mem_view_running.1 hx
    simp [(hq c).1] at hc
  exact ⟨by rw [View.flight, hrun, hbuf]; rfl, hbuf⟩

omit [DecidableEq κ] in
/-- When everything has been consumed, all records of a speculation that has been committed, and not discarded, have been
handed out. -/
lemma handed_of_quiet (h : s.Ok) (hawake : Awake s.view) (hdue : Due s.view) (hq : Quiet s) {k : ℕ} (hk : k ∈ s.commits)
    (hnot : k ∉ s.discards) : ofGen k s.view.handed = ofGen k s.view.speculated := by
  obtain ⟨-, hbuf⟩ := quiet_flight hq
  have hacc : ∀ held, s.view.account k held = held + ofGen k s.view.handed := by
    intro held
    rw [View.account, hbuf]
    simp [ofGen]
  by_cases hgone : Gone s.view k
  · have hbal := (h.core.gone k hgone).eq hnot
    rwa [hacc, zero_add] at hbal
  · obtain ⟨i, e, he, rfl⟩ : ∃ i e, s.view.hdl.specs i = some e ∧ e.gen = k := by simpa [Gone] using hgone
    have hheld : s.view.held i = [] := by
      rcases hdue _ hk with ⟨x, hx, -⟩ | ⟨j, f, b, hf, hgen, hb, hd⟩ | hs
      · simp [hbuf] at hx
      · obtain rfl := h.core.inj j i f e hf he hgen
        unfold View.held
        rw [hb]
        by_contra hdata
        obtain ⟨x, hx, -⟩ := hawake j b hb hd hdata
        simp [hbuf] at hx
      · exact hs.held i e he rfl
    have hbal := (h.core.entry i e he).eq hnot
    rwa [hheld, hacc, coe_nil, zero_add] at hbal

/-- In a run of which every step is orderly, every record for a buffer that is being drained is followed by one that makes
the consumer look at it, every commit finds something held back unless there is nothing to come, and no speculation is
committed and discarded: the consumer does not stop, no record of a speculation that has been discarded, or has not been
committed, is handed out, and when everything has been consumed, every record of one that has been committed has been
handed out once. -/
theorem delivery (h : Run nspec specsize (fun s ev => Orderly specsize s ev ∧ Attentive s ev ∧ Gathers s ev ∧ Decisive s ev) s) :
    s.failed = false ∧
      (∀ k, k ∈ s.discards ∨ k ∉ s.commits → ofGen k (s.hdl.handed : Multiset (κ × Record ℕ β)) = 0) ∧
      (Quiet s → ∀ k ∈ s.commits,
        ofGen k (s.hdl.handed : Multiset (κ × Record ℕ β)) = ofGen k (s.speculated : Multiset (κ × Record ℕ β))) := by
  have hdecided : s.commits.Disjoint s.discards := by
    induction h with
    | init => exact disjoint_nil_left _
    | step _ ev hok ih => exact decided_step ev ih hok.2.2.2
  have hinv : s.Ok ∧ Awake s.view ∧ Due s.view := by
    refine Run.invariant (P := fun v => Awake v ∧ Due v) ⟨?_, ?_⟩ (fun s ev hok => hok.1) ?_ h
    · intro i b hb
      cases hb
    · intro k hk
      cases hk
    · rintro s _ m _ hs ⟨hawake, hdue⟩ ⟨-, hattentive, hgathers, -⟩ hof hm
      exact ⟨hawake.moves hs.core (keepsAwake_of_attentive hattentive hof hm) hm,
        hdue.moves hs.core (finds_of_gathers hgathers hof hm) hm⟩
  obtain ⟨hok, hawake, hdue⟩ := hinv
  refine ⟨hok.alive, fun k hk => ?_, fun hq k hk => handed_of_quiet hok hawake hdue hq hk (hdecided hk)⟩
  obtain ⟨i, -, hbal⟩ := hok.core.balanced k
  exact hbal.unhanded fun hc => hk.elim (hdecided hc) (absurd hc)

end

/-! ## Two CPUs -/

/-- Steps from the start, one after the other. -/
def steps (nspec specsize : ℕ) (l : List (Event Bool Unit)) : Sys Bool Unit := l.foldl (step nspec specsize) .init

/-- One CPU records something speculatively. -/
def recording : List (Event Bool Unit) :=
  [.speculation, .enter false, .speculate false 1, .data false, .output false false 8 ()]

def committing : List (Event Bool Unit) := [.enter true, .fate true true 1, .output true false 8 ()]

lemma run_steps {ok : Sys Bool Unit → Event Bool Unit → Prop} {nspec : ℕ} (l : List (Event Bool Unit))
    (h : ∀ l1 ev l2, l = l1 ++ ev :: l2 → ok (steps nspec specsize l1) ev) : Run nspec specsize ok (steps nspec specsize l) := by
  induction l using reverseRecOn with
  | nil => exact .init
  | append_singleton l ev ih =>
    have hrun := ih fun l1 ev' l2 hl => h l1 ev' (l2 ++ [ev]) (by simp [hl])
    unfold steps at hrun ⊢
    rw [foldl_append]
    exact .step hrun ev (h l ev [] rfl)

/-- The data is consumed before the commit. -/
def recordedFirst : List (Event Bool Unit) := recording ++ committing ++ [.consume false, .consume true]

lemma quiet_recordedFirst : Quiet (steps 1 8 recordedFirst) := by
  intro c
  cases c <;> exact ⟨rfl, rfl⟩

/-- That is an orderly run, and meets any other condition that is only about the two records that are consumed. -/
lemma run_recordedFirst (other : Sys Bool Unit → Event Bool Unit → Prop)
    (hother : ∀ s c id, other s .speculation ∧ other s (.enter c) ∧ other s (.speculate c id) ∧ other s (.fate c true id) ∧
      other s (.data c))
    (hrecord : other (steps 1 8 (recording.take 4)) (.output false false 8 ()))
    (hcommit : other (steps 1 8 (recording ++ committing.take 2)) (.output true false 8 ()))
    (hdata : other (steps 1 8 (recording ++ committing)) (.consume false))
    (hdrain : other (steps 1 8 (recording ++ committing ++ [.consume false])) (.consume true)) :
    Run 1 8 (fun s ev => Orderly 8 s ev ∧ Attentive s ev ∧ other s ev) (steps 1 8 recordedFirst) := by
  have hrecording : Run 1 8 (fun s ev => Orderly 8 s ev ∧ Attentive s ev ∧ other s ev) (steps 1 8 recording) := by
    refine .step (.step (.step (.step (.step .init .speculation ⟨trivial, trivial, (hother _ false 0).1⟩)
      (.enter false) ⟨trivial, trivial, (hother _ _ 0).2.1⟩)
      (.speculate false 1) ⟨fun cl hcl => ?_, trivial, (hother _ _ _).2.2.1⟩)
      (.data false) ⟨trivial, trivial, (hother _ _ 0).2.2.2.2⟩)
      (.output false false 8 ()) ⟨trivial, trivial, hrecord⟩
    obtain rfl : Clause.new = cl := Option.some.inj hcl
    rfl
  have hcommitting : Run 1 8 (fun s ev => Orderly 8 s ev ∧ Attentive s ev ∧ other s ev)
      (steps 1 8 (recording ++ committing)) := by
    refine .step (.step (.step hrecording (.enter true) ⟨trivial, trivial, (hother _ _ 0).2.1⟩)
      (.fate true true 1) ⟨fun cl hcl => ?_, trivial, (hother _ _ _).2.2.2.1⟩)
      (.output true false 8 ()) ⟨trivial, trivial, hcommit⟩
    obtain rfl : Clause.new = cl := Option.some.inj hcl
    rfl
  refine .step (.step hcommitting (.consume false) ⟨?_, ?_, hdata⟩) (.consume true) ⟨?_, ?_, hdrain⟩
  · intro r rest hbuf _
    obtain rfl := (List.cons.inj hbuf).1
    rw [if_neg (by decide)]
    decide
  · intro r rest hbuf _ _ b hb
    obtain rfl := (List.cons.inj hbuf).1
    cases hb
  · intro r rest hbuf _
    obtain rfl : ⟨0, none, false, false, 8, [.commit 1 (some 0)], ()⟩ = r := (List.cons.inj hbuf).1
    rw [if_pos rfl]
    intro a ha id gen hid b e _ he
    obtain rfl := List.mem_singleton.1 ha
    obtain ⟨rfl, rfl⟩ : 1 = _ ∧ some 0 = _ := by simpa using hid
    obtain rfl : ⟨1, _, 0⟩ = e := Option.some.inj he
    rfl
  · intro r rest hbuf _ hr
    obtain rfl := (List.cons.inj hbuf).1
    cases hr rfl

/-- The data has been handed out. -/
theorem delivery_recordedFirst :
    Quiet (steps 1 8 recordedFirst) ∧ 0 ∈ (steps 1 8 recordedFirst).commits ∧
      ofGen 0 ((steps 1 8 recordedFirst).hdl.handed : Multiset (Bool × Record ℕ Unit)) =
        ofGen 0 (steps 1 8 recordedFirst).speculated := by
  have hrun := run_recordedFirst (fun s ev => Gathers s ev ∧ Decisive s ev) (by simp [Gathers, Decisive])
    ⟨trivial, fun cl hcl => ?_⟩ ⟨trivial, fun cl hcl => ?_⟩ ⟨?_, trivial⟩ ⟨?_, trivial⟩
  · exact ⟨quiet_recordedFirst, by decide, (delivery hrun).2.2 quiet_recordedFirst 0 (by decide)⟩
  · cases hcl
    exact disjoint_nil_right _
  · cases hcl
    exact disjoint_nil_right _
  · intro r rest hbuf _ hr
    obtain rfl := (List.cons.inj hbuf).1
    cases hr
  · intro r rest hbuf _ _ id k hacts hnone
    obtain rfl : ⟨0, none, false, false, 8, [.commit 1 (some 0)], ()⟩ = r := (List.cons.inj hbuf).1
    obtain ⟨rfl, rfl⟩ : _ = 1 ∧ k = 0 := by simpa using hacts
    cases hnone

/-- The commit is consumed before the data, which is held back for ever. -/
theorem commit_overtakes_data :
    ∃ s : Sys Bool Unit, Run 1 8 (fun _ _ => True) s ∧ Quiet s ∧ s.hdl.specdrops = 0 ∧
      ∃ x ∈ s.speculated, x.2.gen = some 0 ∧ 0 ∈ s.commits ∧ 0 ∉ s.discards ∧ x ∉ s.hdl.handed := by
  refine ⟨steps 1 8 (recording ++ committing ++ [.consume true, .consume false]), ?_, ?_, rfl, ?_⟩
  · exact run_steps _ fun _ _ _ _ => trivial
  · intro c
    cases c <;> exact ⟨rfl, rfl⟩
  · exact ⟨_, List.mem_singleton.2 rfl, rfl, by decide, by decide, by decide⟩

/-! ## At every moment -/

section

variable {κ β : Type} [DecidableEq κ] [Fintype κ] {nspec specsize : ℕ} {s : Sys κ β} {ok : Sys κ β → Event κ β → Prop}
  (hok : ∀ s ev, ok s ev → Orderly specsize s ev) (h : Run nspec specsize ok s)
include hok h

lemma Run.core : Core s.view :=
  (Run.invariant (P := fun _ => True) trivial hok (fun _ _ _ _ _ _ _ _ _ => trivial) h).1.core

/-- At no moment of an orderly run is a speculative record there twice: it waits, is held back in the one buffer that has
records of its speculation, or has been handed out.  Without a `discard()` none is missing, and without a `commit()` none
has been handed out. -/
theorem speculated_conserved (k : ℕ) : ∃ i,
    (∀ j, ∀ x ∈ s.view.held j, x.2.gen = some k → j = i) ∧ Balanced s.view k (ofGen k (s.view.held i)) :=
  (Run.core hok h).balanced k

/-- `speculation()` returns no identifier of which something is in flight or held back. -/
theorem speculation_unused {id : ℕ} {specs : Specs ℕ} (hnew : dtSpeculation nspec s.nextGen s.hdl.specs = .ok (id, specs)) :
    (∀ x ∈ s.view.flight, x.specid ≠ id) ∧ s.hdl.specBufs id = none := by
  have hcore := Run.core hok h
  obtain ⟨hid, hnone, -⟩ := dtSpeculation_eq_ok hnew
  constructor
  · rintro x hx rfl
    obtain ⟨-, e, he, -⟩ := hcore.spec x hx hid
    cases hnone.symm.trans he
  · refine eq_none_iff_forall_ne_some.2 fun b hb => ?_
    obtain ⟨e, he, -⟩ := hcore.bufs id b hb
    cases hnone.symm.trans he

end

lemma run_orderly : Run 1 8 (fun s ev => Orderly 8 s ev ∧ Attentive s ev ∧ True) (steps 1 8 recordedFirst) :=
  run_recordedFirst _ (by simp) trivial trivial trivial trivial

theorem conserved_recordedFirst :
    ∃ i, Balanced (steps 1 8 recordedFirst).view 0 (ofGen 0 ((steps 1 8 recordedFirst).view.held i)) :=
  (speculated_conserved (fun _ _ h => h.1) run_orderly 0).imp fun _ h => h.2

theorem unused_recordedFirst : (steps 1 8 recordedFirst).hdl.specBufs 1 = none :=
  (speculation_unused (fun _ _ h => h.1) run_orderly rfl).2

end DTrace.Spec
