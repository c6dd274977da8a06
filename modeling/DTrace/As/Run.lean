import DTrace.As.AssembleIff
import DTrace.Lib.Code

/-!
# Running assembled code

* `act` — what an instruction does, apart from where it goes;
* `exec`, `Moves` — a branch that is taken goes to its label in the list, and by its distance in the buffer;
* `assembled_runs` — the buffer runs as the list does.
-/

namespace DTrace.As

open List Lib Relation

def Irlist.prog (dlp : Irlist) : List (Node Asm) := dlp.list.map fun n => ⟨n.label, n.asm⟩

/-- The number of instructions before a position of the list. -/
def addr (ns : List Irnode) (pc : ℕ) : ℕ := (code (ns.take pc)).length

section

variable {σ : Type} (m : BpfInsn → σ → Option (Bool × σ))

/-- Whether the instruction jumps, and the state after it; `none` ends the run.  A branch is decided without its
distance. -/
def act (i : BpfInsn) (s : σ) : Option (Bool × σ) :=
  if i.code = 5#8 then some (true, s)
  else if i.takesLabel then m { i with off := 0 } s
  else (m i s).map fun x => (false, x.2)

def exec (a : Asm) (s : σ) : Ctl σ :=
  match act m a.instr s with
  | none => .stop
  | some (taken, s') => if taken then a.target.elim (.next s') (.goto · s') else .next s'

def Moves (buf : List BpfInsn) (c d : ℕ × σ) : Prop :=
  ∃ b taken, buf[c.1]? = some b ∧ act m b c.2 = some (taken, d.2) ∧
    (d.1 : ℤ) = c.1 + 1 + if taken then b.off.toInt else 0

variable {ns : List Irnode} {n : Irnode} {pc l : ℕ} {dlp : Irlist} {dp : Difo} {c d : ℕ × σ}

lemma code_addr (h : ns[pc]? = some n) (hl : n.isLabel = false) : (code ns)[addr ns pc]? = some n := by
  obtain ⟨hpc, rfl⟩ := List.getElem?_eq_some_iff.1 h
  nth_rewrite 1 [← take_append_drop pc ns]
  rw [drop_eq_getElem_cons hpc, code, filter_append, filter_cons_of_pos (by simp [hl]), addr, code,
    getElem?_append_right le_rfl, Nat.sub_self, getElem?_cons_zero]

lemma addr_next (h : ns[pc]? = some n) : addr ns (pc + 1) = addr ns pc + if n.isLabel then 0 else 1 := by
  cases hl : n.isLabel <;> simp [addr, code, take_add_one, h, hl]

lemma addr_labelPos (h : labelPos dlp.prog l = some pc) : addr dlp.list pc = place l dlp.list := by
  rw [Irlist.prog] at h
  generalize dlp.list = ns at h ⊢
  induction ns generalizing pc with
  | nil => cases h
  | cons n ns ih =>
    rw [labelPos, map_cons, findIdx?_cons] at h
    by_cases hn : n.label = l
    · obtain rfl : 0 = pc := by simpa [hn] using h
      simp [place, addr, code, hn]
    · obtain ⟨q, hq, rfl⟩ : ∃ q, labelPos (ns.map fun n => ⟨n.label, n.asm⟩) l = some q ∧ q + 1 = pc := by
        simpa [hn, labelPos] using h
      rw [place, if_neg hn, ← ih hq]
      cases hlab : n.isLabel <;> simp [addr, code, hlab, Nat.add_comm]

/-- A jump without a label goes by nothing. -/
lemma off_of_act {s s' : σ} (ht : n.asm.target = none) (h : act m n.asm.instr s = some (true, s')) :
    n.asm.instr.off.toInt = 0 := by
  have hplain := isBranch_of_target_none ht
  rw [act] at h
  split_ifs at h <;> simp_all [BpfInsn.isBranch, BpfInsn.isNop, BpfInsn.takesLabel]

variable {env : AsEnv} (h : Reaches dlp) (hl : WellLabelled dlp) (hdp : dtAs env dlp = some dp)

include h hdp

lemma buf_eq : dp.buf = (code dlp.list).mapIdx fun i n => resolve (landing · dlp.list) i n.asm.instr := by
  have hrej : ¬ Rejected env dlp := fun hrej => by cases hdp.symm.trans (dtAs_of_rejected hrej)
  obtain ⟨_, hdp', hbuf, -⟩ := dtAs_of_accepted hrej
  cases hdp.symm.trans hdp'
  rw [hbuf, filter_kept_eq_code h.kept, funext (table_eq_landing (kept_eq h.kept))]

include hl

/-- An instruction of the list, and the one in the buffer that does the same. -/
lemma buf_get (hn : dlp.list[pc]? = some n) (hlab : n.isLabel = false) :
    ∃ b, dp.buf[addr dlp.list pc]? = some b ∧ (∀ s, act m b s = act m n.asm.instr s) ∧
      Resolved dlp.list (addr dlp.list pc) n b := by
  have hcode := code_addr hn hlab
  have hr := (resolved_iff (hl n (mem_of_getElem? hn))).2 fun l => h.hits _ n l hcode
  refine ⟨_, by rw [buf_eq h hdp, getElem?_mapIdx, hcode]; rfl, fun s => ?_, hr⟩
  generalize resolve _ _ _ = b at hr
  cases ht : n.asm.target with
  | none => rw [hr.unchanged ht]
  | some l =>
    have htakes := (instr_of_target ht).1
    rw [← hr.same] at htakes ⊢
    simp_all [act, BpfInsn.takesLabel]

/-- A step of the list is none or one of the buffer; where the list stops, the buffer does. -/
lemma buf_follows (c) :
    match step (exec m) dlp.prog c with
    | some d => ReflTransGen (Moves m dp.buf) (addr dlp.list c.1, c.2) (addr dlp.list d.1, d.2)
    | none => ∀ d, ¬ Moves m dp.buf (addr dlp.list c.1, c.2) d := by
  obtain ⟨pc, s⟩ := c
  rw [step, Irlist.prog, getElem?_map, ← Irlist.prog]
  cases hn : dlp.list[pc]? with
  | none =>
    rintro d ⟨b, _, hb, -⟩
    rw [addr, take_of_length_le (by simpa using hn), buf_eq h hdp] at hb
    simp at hb
  | some n =>
    rw [Option.map_some]
    cases hlab : n.isLabel with
    | true =>
      obtain ⟨⟨-, ht⟩, hnop⟩ : (_ ∧ n.asm.target = none) ∧ _ := by simpa [Irnode.isLabel, BpfInsn.isNop] using hlab
      simp [exec, act, hnop, ht, addr_next hn, hlab, ReflTransGen.refl]
    | false =>
      obtain ⟨b, hb, hact, hr⟩ := buf_get m h hl hdp hn hlab
      dsimp only [exec]
      rw [← hact]
      rcases hm : act m b s with _ | ⟨_ | _, s'⟩
      · rintro d ⟨b', _, hb', hd, -⟩
        cases hb.symm.trans hb'
        cases hm.symm.trans hd
      · exact .single ⟨b, false, hb, hm, by simp [addr_next hn, hlab]⟩
      · cases ht : n.asm.target with
        | none =>
          obtain rfl := hr.unchanged ht
          exact .single ⟨_, true, hb, hm, by simp [addr_next hn, hlab, off_of_act m ht hm]⟩
        | some l =>
          obtain ⟨-, hplaced⟩ := hl n (mem_of_getElem? hn) l ht
          obtain ⟨p, hp⟩ : ∃ p, labelPos dlp.prog l = some p := by
            rw [← Option.isSome_iff_exists, labelPos, findIdx?_isSome, Irlist.prog, any_map, any_eq_true]
            simpa using countP_pos_iff.1 (hplaced ▸ Nat.one_pos : 0 < placings l dlp.list)
          simp only [if_true, Option.elim_some, hp, Option.map_some]
          exact .single ⟨b, true, hb, hm, by rw [addr_labelPos hp, if_pos rfl, hr.target l ht]⟩

/-- From any position the buffer gets where the list gets, and stops there if the list does. -/
theorem assembled_runs (hrun : Runs (exec m) dlp.prog c d) :
    ReflTransGen (Moves m dp.buf) (addr dlp.list c.1, c.2) (addr dlp.list d.1, d.2) ∧
      (step (exec m) dlp.prog d = none → ∀ e, ¬ Moves m dp.buf (addr dlp.list d.1, d.2) e) := by
  have hfollows := buf_follows m h hl hdp
  constructor
  · induction hrun with
    | refl => exact .refl
    | @tail c' _ _ hstep ih =>
      have hmoves := hfollows c'
      rw [hstep] at hmoves
      exact ih.trans hmoves
  · intro hstop
    have hmoves := hfollows d
    rwa [hstop] at hmoves

end

/-- A jump to a label. -/
theorem runs_jumpOver : ∃ dp, dtAs plainEnv (jumpOver 2 3 (by decide) (by decide)) = some dp ∧
    ReflTransGen (Moves (fun _ s => some (false, s)) dp.buf) (0, ()) (2, ()) := by
  have h : Reaches (jumpOver 2 3 (by decide) (by decide)) := by
    refine ⟨by decide, fun i n l hn hl => ?_⟩
    rcases i with _ | _ | _ | i <;> cases hn <;> cases hl
    rw [Hits]
    decide
  exact ⟨_, rfl, (assembled_runs _ (c := (0, ())) (d := (4, ())) h (wellLabelled_jumpOver _ _)
    (rfl : dtAs plainEnv _ = _) (.head rfl (.head rfl .refl))).1⟩

end DTrace.As
