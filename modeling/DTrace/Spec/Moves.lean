import DTrace.Spec.Drain

/-!
# Moves

The system as its view sees it: what a step can do there, without the CPU or the order of a buffer.  Every invariant of
whole runs is shown for moves.

* `Moves` — the moves; a `Move` names those on which there will be conditions;
* `Core.moves` — moves keep what holds of every view;
* `Orderly` — the condition on steps under which they are moves: `Sys.Ok.step`.
-/

namespace DTrace.Spec

open Consume Lib Function List Bool

inductive Move (κ β : Type)
  | inside
  /-- A clause ends without a record. -/
  | leave (x : Clause)
  /-- A speculative record is consumed, and these records wait still. -/
  | hive (B : Multiset (κ × Record ℕ β)) (r : Record ℕ β)
  /-- Another record is, but not one of the `ERROR` probe. -/
  | plain (B : Multiset (κ × Record ℕ β)) (r : Record ℕ β)

variable {id : ℕ}

section

variable {κ β : Type}

/-- What a step does to the view. -/
inductive Moves (specsize : ℕ) : View κ β → Move κ β → View κ β → Prop
  | same {v : View κ β} : Moves specsize v .inside v
  | speculation {v : View κ β} {id : ℕ} (hid : id ≠ 0) (hnone : v.hdl.specs id = none) :
      Moves specsize v .inside { v with
        hdl := { v.hdl with specs := update v.hdl.specs id (some ⟨0, false, v.nextGen⟩) }
        nextGen := v.nextGen + 1 }
  | enter {v : View κ β} : Moves specsize v .inside { v with running := .new ::ₘ v.running }
  | leave {v : View κ β} {x : Clause} : Moves specsize { v with running := x ::ₘ v.running } (.leave x) v
  | speculate {v : View κ β} {x : Clause} {id : ℕ} {e : DtBpfSpecs ℕ} (hx : x.specid = 0) (hacts : x.acts = [])
      (he : v.hdl.specs id = some e) (hd : e.draining = false) :
      Moves specsize { v with running := x ::ₘ v.running } .inside { v with
        running := { x with specid := id, gen := some e.gen } ::ₘ v.running
        hdl := { v.hdl with specs := update v.hdl.specs id (some { e with written := e.written + 1 }) } }
  | fate {v : View κ β} {x : Clause} {id : ℕ} {e : DtBpfSpecs ℕ} (commit : Bool) (hx : x.specid = 0)
      (he : v.hdl.specs id = some e) :
      Moves specsize { v with running := x ::ₘ v.running } .inside { v with
        running := { x with acts := x.acts ++ [fateAct commit id (some e.gen)] } ::ₘ v.running
        hdl := { v.hdl with specs := update v.hdl.specs id (some { e with draining := true }) } }
  | unknown {v : View κ β} {x : Clause} (commit : Bool) (id : ℕ) (hx : x.specid = 0) :
      Moves specsize { v with running := x ::ₘ v.running } .inside
        { v with running := { x with acts := x.acts ++ [fateAct commit id none] } ::ₘ v.running }
  | data {v : View κ β} {x : Clause} :
      Moves specsize { v with running := x ::ₘ v.running } .inside
        { v with running := { x with acts := x.acts ++ [.data] } ::ₘ v.running }
  | output {v : View κ β} {r : Record ℕ β} (c : κ) (herr : r.isError = false) :
      Moves specsize { v with running := recClause r ::ₘ v.running } .inside (v.emit v.running (recClause r) c r)
  | error {v : View κ β} {r : Record ℕ β} (c : κ) (hr : recClause r = .new) :
      Moves specsize v .inside (v.emit v.running .new c r)
  | hive {v : View κ β} {B : Multiset (κ × Record ℕ β)} {c : κ} {r : Record ℕ β} (herr : r.isError = false)
      (hr : r.specid ≠ 0) : Moves specsize { v with buffered := (c, r) ::ₘ B } (.hive B r) (v.hive B c r)
  | plain {v : View κ β} {B : Multiset (κ × Record ℕ β)} {c : κ} {r : Record ℕ β} {h' : Hdl κ ℕ β}
      (herr : r.isError = false) (hr : r.specid = 0) (htime : ∀ a ∈ r.acts, Timely v.hdl a)
      (hok : dtConsumeOneProbe specsize .off (fun _ => true) c v.hdl r = .ok h') :
      Moves specsize { v with buffered := (c, r) ::ₘ B } (.plain B r)
        { v with buffered := B, hdl := h', consumed := v.consumed ++ r.acts.filterMap fateGen }
  | report {v : View κ β} {B : Multiset (κ × Record ℕ β)} {c : κ} {r : Record ℕ β} (herr : r.isError = true)
      (hr : r.specid = 0) :
      Moves specsize { v with buffered := (c, r) ::ₘ B } .inside (({ v with buffered := B } : View κ β).hand [(c, r)])

variable {specsize : ℕ} {v v' : View κ β} {m : Move κ β} {x : Clause}

/-! ## Moves keep what holds of every view -/

lemma Core.joins (h : Core { v with running := x ::ₘ v.running }) : Joins v x := by
  have hx : x ∈ ({ v with running := x ::ₘ v.running } : View κ β).flight := by
    rw [flight_cons]
    exact Multiset.mem_cons_self ..
  refine ⟨h.plain x hx, fun hne => ?_, h.fate x hx⟩
  obtain ⟨hclean, e, he, hgen⟩ := h.spec x hx hne
  refine ⟨hclean, e, he, hgen, ?_⟩
  have hcount := h.count _ e he
  rw [flying_cons, if_pos rfl] at hcount
  change v.flying x.specid + 1 + (v.held x.specid).length + v.read x.specid ≤ _ at hcount
  omega

lemma fateOk_none (v : View κ β) (commit : Bool) (id : ℕ) : FateOk v (fateAct commit id none) := by
  intro i k hk
  cases commit <;> simp [fateAct] at hk

variable {e : DtBpfSpecs ℕ}

section

variable (h : Core { v with running := x ::ₘ v.running })
include h

lemma Core.fateMove (commit : Bool) (hx : x.specid = 0) (he : v.hdl.specs id = some e) :
    Core { v with
      running := { x with acts := x.acts ++ [fateAct commit id (some e.gen)] } ::ₘ v.running
      hdl := { v.hdl with specs := update v.hdl.specs id (some { e with draining := true }) } } := by
  let w : View κ β := { v with
    hdl := { v.hdl with specs := update v.hdl.specs id (some { e with draining := true }) } }
  have hset : Core ({ w with running := x ::ₘ w.running } : View κ β) :=
    h.setEntry he rfl (fun _ => rfl) le_rfl fun _ => rfl
  have hjoins : Joins w x := hset.joins
  have hw : Core w := hset.remove
  refine hw.add ⟨hjoins.plain, fun hne => absurd hx hne, fun a ha => ?_⟩
  rcases mem_append.1 ha with ha | ha
  · exact hjoins.fate a ha
  · obtain rfl := mem_singleton.1 ha
    intro i k hk
    obtain ⟨rfl, rfl⟩ : id = i ∧ e.gen = k := by cases commit <;> simpa [fateAct] using hk
    refine ⟨h.fresh id e he, fun j f hf hgen => ?_⟩
    rcases update_eq_some hf with ⟨rfl, rfl⟩ | ⟨hj, hf⟩
    · exact ⟨rfl, rfl⟩
    · exact absurd (h.inj j id f e hf he hgen) hj

lemma Core.speculateMove (hacts : x.acts = []) (he : v.hdl.specs id = some e) (hd : e.draining = false) :
    Core { v with
      running := { x with specid := id, gen := some e.gen } ::ₘ v.running
      hdl := { v.hdl with specs := update v.hdl.specs id (some { e with written := e.written + 1 }) } } := by
  let w : View κ β := { v with
    hdl := { v.hdl with specs := update v.hdl.specs id (some { e with written := e.written + 1 }) } }
  have hv : Core v := h.remove
  have hw : Core w := hv.setEntry he rfl (fun hon => absurd (hon.symm.trans hd) (by decide)) (Nat.le_succ _)
    fun hon => absurd (hon.symm.trans hd) (by decide)
  have hid : id ≠ 0 := by
    rintro rfl
    simp [hv.zero] at he
  refine hw.add ⟨fun hzero => absurd hzero hid, fun _ => ?_, by simp [hacts]⟩
  refine ⟨by simp [hacts], { e with written := e.written + 1 }, update_self .., rfl, ?_⟩
  exact Nat.add_le_add_right (hv.count id e he) 1

lemma Core.actMove {a : Act ℕ} (ha : FateOk v a) (hfate : x.specid ≠ 0 → a.isFate = false) :
    Core { v with running := { x with acts := x.acts ++ [a] } ::ₘ v.running } := by
  have hjoins : Joins v x := h.joins
  have hv : Core v := h.remove
  refine hv.add ⟨hjoins.plain, fun hne => ?_, fun b hb => ?_⟩
  · obtain ⟨hclean, e, he, hgen, hlt⟩ := hjoins.spec hne
    refine ⟨?_, e, he, hgen, hlt⟩
    rw [any_append, hclean, any_cons, hfate hne]
    rfl
  · exact forall_mem_append.2 ⟨hjoins.fate, forall_mem_singleton.2 ha⟩ b hb

end

lemma Core.fares {B : Multiset (κ × Record ℕ β)} {c : κ} {r : Record ℕ β} {h' : Hdl κ ℕ β}
    (h : Core { v with buffered := (c, r) ::ₘ B }) (herr : r.isError = false) (hr : r.specid = 0)
    (htime : ∀ a ∈ r.acts, Timely v.hdl a) (hok : dtConsumeOneProbe specsize .off (fun _ => true) c v.hdl r = .ok h') :
    Core { v with buffered := B, hdl := h' } ∧ ∀ i, Fares v.hdl h' (∃ a ∈ r.acts, fateId a = some i) i := by
  obtain ⟨h1, hh1, hcore, hfares⟩ := h.consumePlain herr hr htime specsize
  obtain rfl : h1 = h' := Except.ok.inj (hh1.symm.trans hok)
  exact ⟨hcore, hfares⟩

theorem Core.moves (h : Core v) (hm : Moves specsize v m v') : Core v' := by
  cases hm with
  | same => exact h
  | speculation hid hnone => exact h.speculation hid hnone
  | enter => exact h.add ⟨fun _ => rfl, fun hne => absurd rfl hne, by simp [Clause.new]⟩
  | leave => exact h.remove
  | speculate hx hacts he hd => exact h.speculateMove hacts he hd
  | fate commit hx he => exact h.fateMove commit hx he
  | unknown commit id hx => exact h.actMove (fateOk_none _ commit id) fun hne => absurd hx hne
  | data => exact h.actMove (by simp [FateOk]) fun _ => rfl
  | output c herr => exact h.emit rfl c
  | error c hr =>
    have hnew : Core { v with running := .new ::ₘ v.running } :=
      h.add ⟨fun _ => rfl, fun hne => absurd rfl hne, by simp [Clause.new]⟩
    exact hnew.emit hr c
  | hive herr hr => exact h.hive hr herr
  | plain herr hr htime hok =>
    obtain ⟨hcore, -⟩ := h.fares herr hr htime hok
    exact { hcore with
      bufs := fun i b hb => by
        obtain ⟨e, he, hbok⟩ := hcore.bufs i b hb
        exact ⟨e, he, { hbok with }⟩
      entry := fun i e he => { hcore.entry i e he with }
      gone := fun k hk => { hcore.gone k hk with } }
  | report herr hr => exact (h.pop hr).hand (h.plain _ recClause_mem_flight hr) _

end

/-! ## Steps are moves -/

section

variable {κ β : Type} [Fintype κ] [DecidableEq κ] {nspec specsize : ℕ} {s : Sys κ β} {c : κ} {cl : Clause}

def runningOf (clause : κ → Option Clause) : Multiset Clause := (waiting fun c => (clause c).toList).map Prod.snd

def Sys.view (s : Sys κ β) : View κ β where
  hdl := s.hdl
  running := runningOf s.clause
  buffered := waiting s.buf
  nextGen := s.nextGen
  speculated := s.speculated
  commits := s.commits
  discards := s.discards
  consumed := s.consumed

lemma runningOf_update (clause : κ → Option Clause) (c : κ) (cl : Clause) :
    runningOf (update clause c (some cl)) = cl ::ₘ runningOf (update clause c none) := by
  have hupd : ∀ o : Option Clause, (fun c' => (update clause c o c').toList) =
      update (fun c' => (clause c').toList) c o.toList := by
    intro o
    funext c'
    by_cases hc : c' = c
    · subst hc
      simp
    · simp [hc]
  unfold runningOf
  rw [hupd, hupd, waiting_update, waiting_update, Multiset.map_add, Multiset.map_add]
  simp

lemma view_setClause (s : Sys κ β) (c : κ) (cl : Clause) :
    (s.setClause c (some cl)).view =
      { (s.setClause c none).view with running := cl ::ₘ (s.setClause c none).view.running } := by
  unfold Sys.view Sys.setClause
  rw [runningOf_update]

omit [Fintype κ] in
lemma setClause_self {o : Option Clause} (h : s.clause c = o) : s.setClause c o = s := by
  unfold Sys.setClause
  rw [← h, update_eq_self]

lemma view_of_clause (h : s.clause c = some cl) :
    s.view = { (s.setClause c none).view with running := cl ::ₘ (s.setClause c none).view.running } := by
  rw [← view_setClause, setClause_self h]

/-- What holds in every orderly run. -/
structure Sys.Ok (s : Sys κ β) : Prop where
  alive : s.failed = false
  core : Core s.view
  error : ∀ c, ∀ r ∈ s.buf c, r.isError = true → r.specid = 0

/-- The condition on steps: a clause that writes for a speculation neither commits nor discards any, a record fits into the
buffer of its speculation, and a `commit()` or `discard()` that is consumed is not about an identifier that has been handed
out again since. -/
def Orderly (specsize : ℕ) (s : Sys κ β) : Event κ β → Prop
  | .speculate c _ => ∀ cl, s.clause c = some cl → cl.acts.any Act.isFate = false
  | .fate c _ _ => ∀ cl, s.clause c = some cl → cl.specid = 0
  | .consume c => ∀ r rest, s.buf c = r :: rest → r.isError = false →
      if r.specid = 0 then ∀ a ∈ r.acts, Timely s.hdl a else s.hdl.cursz r.specid + r.size ≤ specsize
  | _ => True

def MoveOf (s : Sys κ β) (ev : Event κ β) : Move κ β → Prop
  | .inside => True
  | .leave x => x.specid = 0 ∨ ∃ c, ev = .abort c ∧ s.clause c = some x
  | .hive B r => ∃ c rest, ev = .consume c ∧ s.buf c = r :: rest ∧ B = waiting (update s.buf c rest)
  | .plain B r => ∃ c rest, ev = .consume c ∧ s.buf c = r :: rest ∧ B = waiting (update s.buf c rest)

lemma acts_eq_nil (hcan : cl.canSpeculate = true) (hfate : cl.acts.any Act.isFate = false) : cl.acts = [] := by
  simp only [Clause.canSpeculate, Clause.hasData, and_eq_true, not_eq_true'] at hcan
  refine eq_nil_iff_forall_not_mem.2 fun a ha => ?_
  simp_all

section

variable (hcl : s.clause c = some cl)
include hcl

lemma Sys.Ok.speculate (hok : cl.acts.any Act.isFate = false) (ev : Event κ β) :
    ∃ m, Moves specsize s.view m (s.speculate c id cl).view ∧ MoveOf s ev m := by
  unfold Sys.speculate
  split
  · next hcan =>
    have hzero : cl.specid = 0 := by
      simp only [Clause.canSpeculate, and_eq_true, beq_iff_eq] at hcan
      exact hcan.1.1
    rw [view_of_clause hcl]
    split
    · exact ⟨.leave cl, .leave, .inl hzero⟩
    · next spec specs heq =>
      obtain ⟨he, hd, rfl⟩ := dtSpeculationSpeculate_eq_some heq
      rw [view_setClause]
      exact ⟨.inside, .speculate (v := (s.setClause c none).view) hzero (acts_eq_nil hcan hok) he hd, trivial⟩
  · exact ⟨.inside, .same, trivial⟩

lemma Sys.Ok.fate {commit : Bool} (hzero : cl.specid = 0) (ev : Event κ β) :
    ∃ m, Moves specsize s.view m (s.fate nspec c commit id cl).view ∧ MoveOf s ev m := by
  unfold Sys.fate
  split
  · rw [view_of_clause hcl]
    split
    · exact ⟨.leave cl, .leave, .inl hzero⟩
    · next specs heq =>
      rw [view_setClause]
      unfold dtSpeculationSetDrainable at heq
      split at heq
      · next hnone =>
        obtain rfl : s.hdl.specs = specs := by
          split at heq
          · exact Option.some.inj heq
          · cases heq
        simp only [hnone, Option.map_none]
        exact ⟨.inside, .unknown (v := (s.setClause c none).view) commit id hzero, trivial⟩
      · next e he =>
        cases heq
        simp only [he, Option.map_some]
        exact ⟨.inside, .fate (v := (s.setClause c none).view) commit hzero he, trivial⟩
  · exact ⟨.inside, .same, trivial⟩

lemma Sys.Ok.data (ev : Event κ β) : ∃ m, Moves specsize s.view m (s.data c cl).view ∧ MoveOf s ev m := by
  unfold Sys.data
  split
  · rw [view_of_clause hcl, view_setClause]
    exact ⟨.inside, .data (v := (s.setClause c none).view), trivial⟩
  · exact ⟨.inside, .same, trivial⟩

lemma Sys.Ok.output {r : Record ℕ β} (hr : recClause r = cl) (herr : r.isError = false)
    (ev : Event κ β) : ∃ m, Moves specsize s.view m (s.output c cl r).view ∧ MoveOf s ev m := by
  subst hr
  have hview : (s.output c (recClause r) r).view =
      (s.setClause c none).view.emit (s.setClause c none).view.running (recClause r) c r := by
    unfold Sys.view View.emit Sys.output Sys.write
    simp only [waiting_push]
    congr 1
    by_cases hz : (recClause r).specid = 0
    · rw [if_pos hz, if_pos hz]
      rfl
    · rw [if_neg hz, if_neg hz, ← Multiset.coe_add, Multiset.coe_singleton, add_comm]
      rfl
  rw [view_of_clause hcl, hview]
  exact ⟨.inside, .output c herr, trivial⟩

end

lemma Sys.Ok.write {r : Record ℕ β} (hr : recClause r = .new) (ev : Event κ β) :
    ∃ m, Moves specsize s.view m (s.write c r).view ∧ MoveOf s ev m := by
  have hview : (s.write c r).view = s.view.emit s.view.running .new c r := by
    unfold Sys.view View.emit Sys.write
    simp [waiting_push, Clause.new]
  rw [hview]
  exact ⟨.inside, .error c hr, trivial⟩

lemma Sys.Ok.consume (h : s.Ok) (hok : Orderly specsize s (.consume c)) :
    ∃ m, Moves specsize s.view m (s.consume specsize c).view ∧ MoveOf s (.consume c) m ∧
      (s.consume specsize c).failed = false ∧ ∀ c', ∀ r ∈ (s.consume specsize c).buf c', r ∈ s.buf c' := by
  unfold Sys.consume
  cases hbuf : s.buf c with
  | nil => exact ⟨.inside, .same, trivial, h.alive, fun _ _ hr => hr⟩
  | cons r rest =>
    have hview : s.view = { s.view with buffered := (c, r) ::ₘ waiting (update s.buf c rest) } := by
      unfold Sys.view
      rw [waiting_pop hbuf]
    have hcore := h.core
    rw [hview] at hcore
    have hmem : ∀ c', ∀ r' ∈ update s.buf c rest c', r' ∈ s.buf c' := by
      intro c' r' hr'
      by_cases hc : c' = c
      · subst hc
        rw [update_self] at hr'
        rw [hbuf]
        exact mem_cons_of_mem _ hr'
      · rwa [update_of_ne hc] at hr'
    by_cases herr : r.isError = true
    · have hzero := h.error c r (by simp [hbuf]) herr
      have hrun : dtConsumeOneProbe specsize .off (fun _ => true) c s.hdl r = .ok (s.hdl.hand c r) := by
        simp [dtConsumeOneProbe, herr]
      simp only [hrun, herr, Bool.true_or, if_true]
      refine ⟨.inside, ?_, trivial, h.alive, hmem⟩
      rw [hview]
      exact .report herr hzero
    · have hgood : r.isError = false := by simpa using herr
      have hcond := hok r rest hbuf hgood
      by_cases hzero : r.specid = 0
      · rw [if_pos hzero] at hcond
        obtain ⟨h', hh', -, -⟩ := hcore.consumePlain hgood hzero hcond specsize
        have hrun : dtConsumeOneProbe specsize .off (fun _ => true) c s.hdl r = .ok h' := hh'
        simp only [hrun, hgood, hzero, bne_self_eq_false, Bool.or_self, false_eq_true, if_false]
        refine ⟨.plain (waiting (update s.buf c rest)) r, ?_, ⟨c, rest, rfl, hbuf, rfl⟩, h.alive, hmem⟩
        rw [hview]
        exact .plain hgood hzero hcond hh'
      · rw [if_neg hzero] at hcond
        have hrun : dtConsumeOneProbe specsize .off (fun _ => true) c s.hdl r =
            .ok (s.view.hive (waiting (update s.buf c rest)) c r).hdl := by
          exact consume_hive (v := s.view) hgood hzero hcond
        have hne : (r.isError || r.specid != 0) = true := by simp [hzero]
        simp only [hrun, hne, if_true]
        refine ⟨.hive (waiting (update s.buf c rest)) r, ?_, ⟨c, rest, rfl, hbuf, rfl⟩, h.alive, hmem⟩
        rw [hview]
        exact .hive hgood hzero

lemma Sys.Ok.error_write (h : s.Ok) (c : κ) {r : Record ℕ β} (hr : r.isError = true → r.specid = 0) :
    ∀ c', ∀ r' ∈ update s.buf c (s.buf c ++ [r]) c', r'.isError = true → r'.specid = 0 := by
  intro c' r' hr'
  by_cases hc : c' = c
  · subst hc
    rw [update_self] at hr'
    exact forall_mem_append.2 ⟨h.error c', forall_mem_singleton.2 hr⟩ r' hr'
  · rw [update_of_ne hc] at hr'
    exact h.error c' r' hr'

theorem Sys.Ok.step {ev : Event κ β} (h : s.Ok) (hok : Orderly specsize s ev) :
    (step nspec specsize s ev).Ok ∧ ∃ m, Moves specsize s.view m (step nspec specsize s ev).view ∧ MoveOf s ev m := by
  -- most steps leave the buffers and the consumer as they are
  have key : ∀ s' : Sys κ β, s'.failed = s.failed → s'.buf = s.buf →
      (∃ m, Moves specsize s.view m s'.view ∧ MoveOf s ev m) →
      s'.Ok ∧ ∃ m, Moves specsize s.view m s'.view ∧ MoveOf s ev m := by
    rintro _ hfailed hbuf ⟨m, hm, hof⟩
    exact ⟨⟨hfailed.trans h.alive, h.core.moves hm, by rw [hbuf]; exact h.error⟩, m, hm, hof⟩
  have hsame : s.Ok ∧ ∃ m, Moves specsize s.view m s.view ∧ MoveOf s ev m := ⟨h, .inside, .same, trivial⟩
  cases ev with
  | speculation =>
    simp only [Spec.step]
    split
    · next id specs heq =>
      obtain ⟨hid, hnone, rfl⟩ := dtSpeculation_eq_ok heq
      exact key _ rfl rfl ⟨.inside, .speculation hid hnone, trivial⟩
    · exact hsame
  | enter c =>
    simp only [Spec.step]
    split
    · next hnone =>
      refine key _ rfl rfl ⟨.inside, ?_, trivial⟩
      rw [view_setClause, setClause_self (by simpa using hnone)]
      exact .enter
    · exact hsame
  | speculate c id =>
    simp only [Spec.step]
    cases hcl : s.clause c with
    | none => exact hsame
    | some cl =>
      refine key (s.speculate c id cl) ?_ ?_ (Sys.Ok.speculate hcl (hok cl hcl) _)
      all_goals
        unfold Sys.speculate
        split
        · split <;> rfl
        · rfl
  | fate c commit id =>
    simp only [Spec.step]
    cases hcl : s.clause c with
    | none => exact hsame
    | some cl =>
      refine key (s.fate nspec c commit id cl) ?_ ?_ (Sys.Ok.fate hcl (hok cl hcl) _)
      all_goals
        unfold Sys.fate
        split
        · split <;> rfl
        · rfl
  | data c =>
    simp only [Spec.step]
    cases hcl : s.clause c with
    | none => exact hsame
    | some cl =>
      refine key (s.data c cl) ?_ ?_ (Sys.Ok.data hcl _)
      all_goals
        unfold Sys.data
        split <;> rfl
  | abort c =>
    cases hcl : s.clause c with
    | none =>
      have heq : Spec.step nspec specsize s (.abort c) = s := setClause_self hcl
      rw [heq]
      exact hsame
    | some cl =>
      refine key (s.setClause c none) rfl rfl ⟨.leave cl, ?_, .inr ⟨c, rfl, hcl⟩⟩
      rw [view_of_clause hcl]
      exact .leave
  | output c isBegin size payload =>
    simp only [Spec.step]
    cases hcl : s.clause c with
    | none => exact hsame
    | some cl =>
      let r := cl.record isBegin size payload
      obtain ⟨m, hm, hof⟩ : ∃ m, Moves specsize s.view m (s.output c cl r).view ∧
          MoveOf s (.output c isBegin size payload) m := Sys.Ok.output hcl rfl rfl _
      exact ⟨⟨h.alive, h.core.moves hm, h.error_write c fun herr => by cases herr⟩, m, hm, hof⟩
  | error c isBegin size payload =>
    let r : Record ℕ β := ⟨0, none, isBegin, true, size, [], payload⟩
    obtain ⟨m, hm, hof⟩ : ∃ m, Moves specsize s.view m (s.write c r).view ∧
        MoveOf s (.error c isBegin size payload) m := Sys.Ok.write rfl _
    exact ⟨⟨h.alive, h.core.moves hm, h.error_write c fun _ => rfl⟩, m, hm, hof⟩
  | consume c =>
    obtain ⟨m, hm, hof, halive, hmem⟩ := h.consume hok
    exact ⟨⟨halive, h.core.moves hm, fun c' r hr => h.error c' r (hmem c' r hr)⟩, m, hm, hof⟩

omit [DecidableEq κ] in
lemma Sys.Ok.init : (Sys.init : Sys κ β).Ok := by
  have hflight : (Sys.init : Sys κ β).view.flight = 0 := by
    simp [View.flight, Sys.view, Sys.init, runningOf, waiting]
  have hbuf : (Sys.init : Sys κ β).view.buffered = 0 := by simp [Sys.view, Sys.init, waiting]
  have hbal : ∀ k, Balanced (Sys.init : Sys κ β).view k 0 := by
    intro k
    have hzero : (Sys.init : Sys κ β).view.account k 0 = 0 := by
      rw [View.account, hbuf]
      simp [ofGen, View.handed, Sys.view, Sys.init]
    refine ⟨hzero.le.trans (Multiset.zero_le _), fun _ => hzero.trans ?_, fun _ => ?_⟩
    · simp [ofGen, Sys.view, Sys.init]
    · simp [ofGen, View.handed, Sys.view, Sys.init]
  have hnone : ∀ i, (Sys.init : Sys κ β).view.hdl.specs i = none := fun _ => rfl
  refine ⟨rfl, ⟨rfl, ?_, ?_, by simp [hflight], by simp [hflight], by simp [hflight], ?_, by simp [hbuf], ?_, ?_,
    nodup_nil, ?_, ?_, fun k _ => hbal k⟩, by simp [Sys.init]⟩
  · simp [hnone]
  · simp [hnone]
  · simp [Sys.view, Sys.init]
  · simp [Sys.view, Sys.init]
  · simp [Sys.view, Sys.init]
  · simp [hnone]
  · simp [hnone]

/-- What moves keep, if they come from steps that meet a condition, holds at the end of every run whose steps do. -/
theorem Run.invariant {ok : Sys κ β → Event κ β → Prop} {P : View κ β → Prop} (hinit : P Sys.init.view)
    (horderly : ∀ s ev, ok s ev → Orderly specsize s ev)
    (hstep : ∀ s ev m v', s.Ok → P s.view → ok s ev → MoveOf s ev m → Moves specsize s.view m v' → P v')
    (h : Run nspec specsize ok s) : s.Ok ∧ P s.view := by
  induction h with
  | init => exact ⟨.init, hinit⟩
  | step hrun ev hok ih =>
    obtain ⟨hs, hP⟩ := ih
    obtain ⟨hs', m, hm, hof⟩ := hs.step (horderly _ ev hok)
    exact ⟨hs', hstep _ ev m _ hs hP hok hof hm⟩

end

end DTrace.Spec
