import DTrace.Spec.Deliver

/-!
# Release

When the identifier of a speculation is free again: the consumer deletes it once it has drained as many records as have
been started under it.

* `Accounts` — records that have been started wait, are held back or have been drained;
* `ids_released` — runs in which every commit or discard that is consumed finds a buffer to drain.
-/

namespace DTrace.Spec

open Consume Lib Multiset Option

section

variable {κ β : Type}

structure Accounts (v : View κ β) : Prop where
  written : ∀ i e, v.hdl.specs i = some e → e.written ≤ v.flying i + (v.held i).length + v.read i
  unread : ∀ i b, v.hdl.specBufs i = some b → b.draining = true → b.read < b.written
  consumed : ∀ k ∈ v.consumed, k < v.nextGen ∧ (DrainingGen v k ∨ Gone v k)

/-- Only clauses that do not write for a speculation end without a record, and a commit or discard finds a buffer, unless its
speculation is gone. -/
def Keeps (v : View κ β) : Move κ β → Prop
  | .leave x => x.specid = 0
  | .plain _ r => ∀ a ∈ r.acts, ∀ id k, a = .commit id (some k) ∨ a = .discard id (some k) →
      v.hdl.specBufs id = none → Gone v k
  | _ => True

variable {specsize : ℕ} {v v' : View κ β} {m : Move κ β} {h' : Hdl κ ℕ β} {k : ℕ} {B : Multiset (κ × Record ℕ β)} {c : κ}
  {r : Record ℕ β} {x : Clause}

lemma Core.id_ne_zero (h : Core v) {i : ℕ} {e : DtBpfSpecs ℕ} (he : v.hdl.specs i = some e) : i ≠ 0 := by
  rintro rfl
  simp [h.zero] at he

lemma Gone.mono (h : Gone v k) (hspecs : ∀ i e, v'.hdl.specs i = some e → e.gen = k → ∃ f, v.hdl.specs i = some f ∧ f.gen = k) :
    Gone v' k := by
  intro i e he hgen
  obtain ⟨f, hf, hgen'⟩ := hspecs i e he hgen
  exact h i f hf hgen'

lemma Accounts.inside (h : Accounts v) (hc : Carries v v') (hconsumed : v'.consumed = v.consumed)
    (hgen : v.nextGen ≤ v'.nextGen)
    (hwritten : ∀ i e, v'.hdl.specs i = some e → e.written ≤ v'.flying i + (v.held i).length + v.read i) :
    Accounts v' := by
  refine ⟨fun i e he => ?_, fun i b hb => h.unread i b (by rw [← hc.bufs]; exact hb), fun k hk => ?_⟩
  · have heq : v'.held i = v.held i ∧ v'.read i = v.read i := by
      unfold View.held View.read
      rw [hc.bufs]
      exact ⟨rfl, rfl⟩
    rw [heq.1, heq.2]
    exact hwritten i e he
  · rw [hconsumed] at hk
    obtain ⟨hlt, hcase⟩ := h.consumed k hk
    refine ⟨hlt.trans_le hgen, ?_⟩
    rcases hcase with hd | hgone
    · exact .inl (hd.mono hc)
    · exact .inr (hgone.mono (hc.back k hlt))

lemma flying_eq (v : View κ β) (i : ℕ) :
    v.flying i = v.running.countP (fun x => x.specid = i) + v.buffered.countP (fun x => x.2.specid = i) := by
  unfold View.flying View.flight
  rw [countP_add, countP_map, countP_eq_card_filter _ v.buffered]
  rfl

lemma flying_emit {R : Multiset Clause} (hr : recClause r = x) (i : ℕ) :
    (v.emit R x c r).flying i = ({ v with running := x ::ₘ R } : View κ β).flying i := by
  unfold View.flying
  rw [flight_emit v c hr]

lemma Accounts.hive (h : Accounts { v with buffered := (c, r) ::ₘ B }) : Accounts (v.hive B c r) := by
  refine ⟨fun i e he => ?_, fun i b hb hd => ?_, fun k hk => ?_⟩
  · have hold := h.written i e he
    rw [flying_buffered_cons] at hold
    change _ ≤ _ + (v.held i).length + v.read i at hold
    rw [held_hive, read_hive]
    change _ ≤ ({ v with buffered := B } : View κ β).flying i + _ + _
    by_cases hi : i = r.specid
    · rw [if_pos hi, List.length_append, List.length_singleton]
      rw [if_pos hi.symm] at hold
      omega
    · rw [if_neg hi]
      rw [if_neg (Ne.symm hi)] at hold
      omega
  · rcases update_eq_some hb with ⟨rfl, rfl⟩ | ⟨-, hb⟩
    · unfold addTo at hd ⊢
      cases hb0 : v.hdl.specBufs r.specid with
      | none => simp [hb0, SpecBuf.addData, SpecBuf.new] at hd
      | some b0 =>
        rw [hb0] at hd
        exact h.unread _ b0 hb0 hd
    · exact h.unread i b hb hd
  · obtain ⟨hlt, hcase⟩ := h.consumed k hk
    exact ⟨hlt, hcase.imp_left DrainingGen.hive⟩

lemma Accounts.plain (h : Accounts { v with buffered := (c, r) ::ₘ B }) (hcore : Core { v with buffered := (c, r) ::ₘ B })
    (hr : r.specid = 0) (htime : ∀ a ∈ r.acts, Timely v.hdl a)
    (hf : ∀ i, Fares v.hdl h' (∃ a ∈ r.acts, fateId a = some i) i)
    (hkeeps : Keeps { v with buffered := (c, r) ::ₘ B } (.plain B r)) :
    Accounts { v with buffered := B, hdl := h', consumed := v.consumed ++ r.acts.filterMap fateGen } := by
  have hgone : ∀ k, Gone { v with buffered := (c, r) ::ₘ B } k →
      Gone { v with buffered := B, hdl := h', consumed := v.consumed ++ r.acts.filterMap fateGen } k :=
    fun k hk => hk.mono fun i e he hgen => ⟨e, (hf i).specs he, hgen⟩
  refine ⟨fun i e he => ?_, fun i b hb hd => ?_, fun k hk => ?_⟩
  · have hold := h.written i e ((hf i).specs he)
    rw [flying_buffered_cons, if_neg] at hold
    · change _ ≤ _ + (v.held i).length + v.read i at hold
      change _ ≤ ({ v with buffered := B } : View κ β).flying i + (View.held { v with hdl := h' } i).length +
        View.read { v with hdl := h' } i
      unfold View.held View.read at hold ⊢
      rcases hf i with ⟨⟨-, heq⟩, -⟩ | ⟨-, b, b', hb, hb', -, hnil, hread, -⟩ | ⟨hnone, -⟩
      · simp only [heq]
        exact hold
      · simp only [hb, hb', elim_some, hnil, hread, List.length_nil] at hold ⊢
        omega
      · change h'.specs i = some e at he
        simp [hnone] at he
    · rw [hr]
      exact (hcore.id_ne_zero ((hf i).specs he)).symm
  · change h'.specBufs i = some b at hb
    rcases hf i with ⟨⟨-, heq⟩, hoff⟩ | ⟨-, _, _, -, hb', -, -, -, hlt⟩ | ⟨-, hnone, -⟩
    · exact absurd (hd.symm.trans (hoff b (heq.symm.trans hb)).1) (by decide)
    · obtain rfl := mem_unique hb' hb
      exact hlt
    · simp [hnone] at hb
  · rcases List.mem_append.1 hk with hold | hnew
    · obtain ⟨hlt, hcase⟩ := h.consumed k hold
      refine ⟨hlt, ?_⟩
      rcases hcase with ⟨i, e, b, he, rfl, hb, hd⟩ | hg
      · exact Core.drained hcore hf he hb (.inl hd)
      · exact .inr (hgone k hg)
    · obtain ⟨a, ha, hak⟩ := List.mem_filterMap.1 hnew
      obtain ⟨id, hid, hname⟩ : ∃ id, (a = .commit id (some k) ∨ a = .discard id (some k)) ∧ fateId a = some id := by
        cases a with
        | data => simp [fateGen] at hak
        | commit id gen => exact ⟨id, .inl (by simpa [fateGen] using hak), rfl⟩
        | discard id gen => exact ⟨id, .inr (by simpa [fateGen] using hak), rfl⟩
      refine ⟨(hcore.fate _ recClause_mem_flight a ha id k hid).1, ?_⟩
      cases hb : v.hdl.specBufs id with
      | none => exact .inr (hgone k (hkeeps a ha id k hid hb))
      | some b =>
        obtain ⟨e, he, -⟩ := hcore.bufs id b hb
        obtain rfl : k = e.gen := Option.some.inj (htime a ha id _ hid b e hb he)
        exact Core.drained hcore hf he hb (.inr ⟨a, ha, hname⟩)

lemma Accounts.moves (h : Accounts v) (hcore : Core v) (hok : Keeps v m) (hm : Moves specsize v m v') : Accounts v' := by
  have hc := hm.carries
  cases hm with
  | same => exact h
  | speculation hid hnone =>
    refine h.inside (hc trivial) rfl (Nat.le_succ _) fun i e he => ?_
    rcases update_eq_some he with ⟨-, rfl⟩ | ⟨-, he⟩
    · exact Nat.zero_le _
    · exact h.written i e he
  | enter =>
    refine h.inside (hc trivial) rfl le_rfl fun i e he => ?_
    have hold := h.written i e he
    rw [flying_cons]
    change _ ≤ v.flying i + _ + _ + _
    omega
  | @leave v x =>
    refine h.inside (hc trivial) rfl le_rfl fun i e he => ?_
    have hold := h.written i e he
    rwa [flying_cons, if_neg] at hold
    rw [show x.specid = 0 from hok]
    exact (hcore.id_ne_zero he).symm
  | @speculate v x id e hx hacts he hd =>
    refine h.inside (hc trivial) rfl le_rfl fun i f hf => ?_
    have hold := h.written i
    simp only [flying_eq, countP_cons, hx] at hold ⊢
    rcases update_eq_some hf with ⟨rfl, rfl⟩ | ⟨hi, hf⟩
    · have hcount := hold e he
      rw [if_neg (hcore.id_ne_zero he).symm] at hcount
      rw [if_pos rfl]
      change e.written + 1 ≤ _
      omega
    · have hcount := hold f hf
      rw [if_neg (hcore.id_ne_zero hf).symm] at hcount
      rw [if_neg (Ne.symm hi)]
      exact hcount
  | @fate v x id e commit hx he =>
    refine h.inside (hc trivial) rfl le_rfl fun i f hf => ?_
    have hold := h.written i
    simp only [flying_eq, countP_cons] at hold ⊢
    rcases update_eq_some hf with ⟨rfl, rfl⟩ | ⟨-, hf⟩
    · exact hold e he
    · exact hold f hf
  | @unknown v x | @data v x =>
    refine h.inside (hc trivial) rfl le_rfl fun i e he => ?_
    have hold := h.written i e he
    rw [flying_cons] at hold ⊢
    exact hold
  | output c herr =>
    refine h.inside (hc trivial) rfl le_rfl fun i e he => ?_
    rw [flying_emit rfl]
    exact h.written i e he
  | error c hr =>
    refine h.inside (hc trivial) rfl le_rfl fun i e he => ?_
    have hold := h.written i e he
    rw [flying_emit hr, flying_cons]
    change _ ≤ v.flying i + _ + _ + _
    omega
  | hive herr hr => exact Accounts.hive h
  | plain herr hr htime hok' => exact Accounts.plain h hcore hr htime (hcore.fares herr hr htime hok').2 hok
  | @report v B c r herr hr =>
    refine h.inside (hc trivial) rfl le_rfl fun i e he => ?_
    have hold := h.written i e he
    rwa [flying_buffered_cons, if_neg] at hold
    rw [hr]
    exact (hcore.id_ne_zero he).symm

end

/-! ## Runs -/

section

variable {κ β : Type} [Fintype κ] [DecidableEq κ] {nspec specsize : ℕ} {s : Sys κ β} {m : Move κ β}

/-- A clause that writes for a speculation ends with its record, and a commit or discard is consumed when something of its
speculation is held back, or the speculation is not in the map any more. -/
def Completes (s : Sys κ β) : Event κ β → Prop
  | .abort c => ∀ cl, s.clause c = some cl → cl.specid = 0
  | .consume c => ∀ r rest, s.buf c = r :: rest → r.isError = false → r.specid = 0 →
      ∀ a ∈ r.acts, ∀ id k, a = .commit id (some k) ∨ a = .discard id (some k) → s.hdl.specBufs id = none →
        ∀ i e, s.hdl.specs i = some e → e.gen ≠ k
  | _ => True

lemma keeps_of_completes {ev : Event κ β} {v' : View κ β} (hok : Completes s ev) (hof : MoveOf s ev m)
    (hm : Moves specsize s.view m v') : Keeps s.view m := by
  cases m with
  | leave x =>
    rcases hof with hzero | ⟨c, rfl, hcl⟩
    · exact hzero
    · exact hok x hcl
  | plain B r =>
    obtain ⟨c, rest, rfl, hbuf, -⟩ := hof
    obtain ⟨herr, hr⟩ := hm.of_plain
    exact hok r rest hbuf herr hr
  | _ => trivial

/-- In a run of which every step is orderly, every record for a buffer that is being drained is followed by one that makes
the consumer look at it, and every commit or discard finds something held back: when everything has been consumed, the
speculations that consumed records have committed or discarded are gone from the map, and buffers are left only for
identifiers that are in it. -/
theorem ids_released (h : Run nspec specsize (fun s ev => Orderly specsize s ev ∧ Attentive s ev ∧ Completes s ev) s)
    (hq : Quiet s) :
    (∀ k ∈ s.consumed, ∀ i e, s.hdl.specs i = some e → e.gen ≠ k) ∧
      ∀ i b, s.hdl.specBufs i = some b → ∃ e, s.hdl.specs i = some e ∧ e.gen ∉ s.consumed := by
  have hinv : s.Ok ∧ Awake s.view ∧ Accounts s.view := by
    refine Run.invariant (P := fun v => Awake v ∧ Accounts v) ⟨?_, ⟨?_, ?_, ?_⟩⟩ (fun s ev hok => hok.1) ?_ h
    · intro i b hb
      cases hb
    · intro i e he
      cases he
    · intro i b hb
      cases hb
    · intro k hk
      cases hk
    · rintro s _ m _ hs ⟨hawake, hacc⟩ ⟨-, hattentive, hcompletes⟩ hof hm
      exact ⟨hawake.moves hs.core (keepsAwake_of_attentive hattentive hof hm) hm,
        hacc.moves hs.core (keeps_of_completes hcompletes hof hm) hm⟩
  obtain ⟨hok, hawake, hacc⟩ := hinv
  obtain ⟨hflight, hbuf⟩ := quiet_flight hq
  have hgone : ∀ k ∈ s.consumed, Gone s.view k := by
    intro k hk
    rcases (hacc.consumed k hk).2 with ⟨i, e, b, he, -, hb, hd⟩ | hgone
    · -- everything that has been started has been drained, and then the buffer would be gone
      have hnil : b.data = [] := by
        by_contra hdata
        obtain ⟨x, hx, -⟩ := hawake i b hb hd hdata
        simp [hbuf] at hx
      have hwritten := hacc.written i e he
      have hunread := hacc.unread i b hb hd
      obtain ⟨f, hf, hbok⟩ := hok.core.bufs i b hb
      obtain rfl := mem_unique hf he
      rw [View.flying, hflight, View.held, View.read, hb, ← (hbok.marked hd).2] at hwritten
      simp only [countP_zero, elim_some, hnil, List.length_nil] at hwritten
      omega
    · exact hgone
  refine ⟨fun k hk => hgone k hk, fun i b hb => ?_⟩
  obtain ⟨e, he, -⟩ := hok.core.bufs i b hb
  exact ⟨e, he, fun hk => hgone _ hk i e he rfl⟩

end

/-- Data is recorded, then committed and handed out, and the identifier is free. -/
theorem release_recordedFirst :
    0 ∈ (steps 1 8 recordedFirst).consumed ∧ ∀ i e, (steps 1 8 recordedFirst).hdl.specs i = some e → e.gen ≠ 0 := by
  have hrun := run_recordedFirst Completes (by simp [Completes]) trivial trivial ?_ ?_
  · exact ⟨by decide, (ids_released hrun quiet_recordedFirst).1 0 (by decide)⟩
  · intro r rest hbuf _ hr
    obtain rfl := (List.cons.inj hbuf).1
    cases hr
  · intro r rest hbuf _ _ a ha id k hid hnone
    obtain rfl : ⟨0, none, false, false, 8, [.commit 1 (some 0)], ()⟩ = r := (List.cons.inj hbuf).1
    obtain rfl := List.mem_singleton.1 ha
    obtain ⟨rfl, rfl⟩ : 1 = _ ∧ 0 = k := by simpa using hid
    cases hnone

/-- A commit of a speculation under which nothing has been recorded: its identifier stays in the map, and is not handed out
again. -/
theorem empty_speculation_stays :
    ∃ s : Sys Bool Unit, Run 1 8 (fun _ _ => True) s ∧ Quiet s ∧ 0 ∈ s.consumed ∧
      (∃ e, s.hdl.specs 1 = some e ∧ e.gen = 0) ∧ ∃ why, dtSpeculation 1 s.nextGen s.hdl.specs = .error why := by
  refine ⟨steps 1 8 (.speculation :: committing ++ [.consume true]), ?_, ?_, by decide, ⟨_, rfl, rfl⟩, _, rfl⟩
  · exact run_steps _ fun _ _ _ _ => trivial
  · intro c
    cases c <;> exact ⟨rfl, rfl⟩

end DTrace.Spec
