import Mathlib.Logic.Relation
import Mathlib.Data.List.Nodup

/-!
# Labelled code

A program is a list of instructions, each of which may carry a label (`0` for none); a jump names a label.  The
instruction set and the machine state are parameters: `exec i s` says what the instruction `i` does in the state `s`.

* `step`, `Runs` — one step and many steps from a position and a state;
* `At P pc c` — the code `c` sits in `P` at position `pc`;
* `LabelsNodup P` — no label is placed twice, so a jump goes where its label was placed (`labelPos_of_at`);
* `Runs.block` — straight-line code, executed by `execBlock`;
* `Does`, with `Does.append`, `Does.cons`, `Does.skip` — what a piece of code does wherever it sits;
* `Stops` — a piece of code that ends the run; `Does.not_stops` — no code does both;
* `Runs.final_unique` — a run that leaves the program ends in one state only.
-/

namespace DTrace.Lib

open List

/-- An instruction and the label it is placed at (`0`: no label). -/
structure Node (ι : Type) where
  label : ℕ
  instr : ι
  deriving DecidableEq

/-- What executing an instruction asks for: go on, jump to a label, or stop. -/
inductive Ctl (σ : Type)
  | next (s : σ)
  | goto (l : ℕ) (s : σ)
  | stop

section

variable {ι σ : Type} (exec : ι → σ → Ctl σ)

/-- The position at which the label `l` is placed. -/
def labelPos (P : List (Node ι)) (l : ℕ) : Option ℕ := P.findIdx? fun n => n.label == l

/-- One step; `none` when the program stops or has been left. -/
def step (P : List (Node ι)) (c : ℕ × σ) : Option (ℕ × σ) :=
  match P[c.1]? with
  | none => none
  | some n =>
    match exec n.instr c.2 with
    | .next s => some (c.1 + 1, s)
    | .goto l s => (labelPos P l).map fun pc => (pc, s)
    | .stop => none

def Runs (P : List (Node ι)) : ℕ × σ → ℕ × σ → Prop :=
  Relation.ReflTransGen fun c d => step exec P c = some d

/-- At most `fuel` steps, as a function. -/
def runFuel (P : List (Node ι)) : ℕ → ℕ × σ → ℕ × σ
  | 0, c => c
  | fuel + 1, c =>
    match step exec P c with
    | none => c
    | some d => runFuel P fuel d

/-- The code sits in the program at position `pc`. -/
def At (P : List (Node ι)) (pc : ℕ) (code : List (Node ι)) : Prop :=
  ∀ i, i < code.length → P[pc + i]? = code[i]?

def LabelsNodup (P : List (Node ι)) : Prop := ((P.map Node.label).filter (· ≠ 0)).Nodup

/-- Straight-line execution; `none` at a jump or a stop. -/
def execBlock : List ι → σ → Option σ
  | [], s => some s
  | i :: is, s =>
    match exec i s with
    | .next s' => execBlock is s'
    | _ => none

def plain (is : List ι) : List (Node ι) := is.map fun i => ⟨0, i⟩

end

variable {l : ℕ}

section

variable {ι σ : Type} {exec : ι → σ → Ctl σ} {P : List (Node ι)}

/-! ## Code in a program -/

variable {pc : ℕ} {n : Node ι} {c : List (Node ι)} {s s' : σ}

theorem At.append {a b : List (Node ι)} : At P pc (a ++ b) ↔ At P pc a ∧ At P (pc + a.length) b := by
  constructor
  · refine fun h => ⟨fun i hi => ?_, fun i hi => ?_⟩
    · rw [h i (by simp; omega), getElem?_append_left hi]
    · rw [Nat.add_assoc, h (a.length + i) (by simp; omega), getElem?_append_right (by omega)]
      simp
  · rintro ⟨ha, hb⟩ i hi
    by_cases hlt : i < a.length
    · rw [ha i hlt, getElem?_append_left hlt]
    · have := hb (i - a.length) (by simp at hi; omega)
      rw [show pc + a.length + (i - a.length) = pc + i by omega] at this
      rw [this, getElem?_append_right (by omega)]

theorem At.cons : At P pc (n :: c) ↔ P[pc]? = some n ∧ At P (pc + 1) c := by
  rw [← singleton_append, At.append]
  refine and_congr ⟨fun h => by simpa using h 0, fun h i hi => ?_⟩ Iff.rfl
  have : i = 0 := by simpa using hi
  subst this
  simpa using h

lemma At.self (P : List (Node ι)) : At P 0 P := fun i _ => by simp

/-- In a program without repeated labels a jump goes where its label was placed. -/
lemma labelPos_of_getElem? (hP : LabelsNodup P) {pc : ℕ} (hl : l ≠ 0) (hn : P[pc]? = some n)
    (h : n.label = l) : labelPos P l = some pc := by
  subst h
  induction P generalizing pc with
  | nil => simp at hn
  | cons m P ih =>
    unfold LabelsNodup at hP ih
    rw [map_cons, filter_cons] at hP
    cases pc with
    | zero =>
      have : m = n := by simpa using hn
      simp [labelPos, findIdx?_cons, this]
    | succ pc =>
      have hn' : P[pc]? = some n := by simpa using hn
      have hmem : n.label ∈ (P.map Node.label).filter (· ≠ 0) :=
        mem_filter.2 ⟨mem_map_of_mem (mem_of_getElem? hn'), by simpa using hl⟩
      have hne : m.label ≠ n.label := by
        intro he
        rw [he, if_pos (by simpa using hl)] at hP
        exact (nodup_cons.1 hP).1 hmem
      have hP' : ((P.map Node.label).filter (· ≠ 0)).Nodup := by
        split at hP
        · exact (nodup_cons.1 hP).2
        · exact hP
      have := ih hP' hn'
      unfold labelPos at this ⊢
      simp [findIdx?_cons, hne, this]

theorem labelPos_of_at (hP : LabelsNodup P) {pc : ℕ} (hl : l ≠ 0)
    (hat : At P pc (n :: c)) (h : n.label = l) : labelPos P l = some pc :=
  labelPos_of_getElem? hP hl (At.cons.1 hat).1 h

def labelCount (l : ℕ) (c : List (Node ι)) : ℕ := c.countP fun n => n.label == l

@[simp] lemma labelCount_nil (l : ℕ) : labelCount l ([] : List (Node ι)) = 0 := rfl

@[simp] lemma labelCount_append (l : ℕ) (a b : List (Node ι)) : labelCount l (a ++ b) = labelCount l a + labelCount l b :=
  countP_append

@[simp] lemma labelCount_cons (l : ℕ) (n : Node ι) (c : List (Node ι)) :
    labelCount l (n :: c) = labelCount l c + if n.label = l then 1 else 0 := by
  simp [labelCount, countP_cons]

lemma labelCount_plain (hl : l ≠ 0) (is : List ι) : labelCount l (plain is) = 0 := by
  induction is with
  | nil => rfl
  | cons i is ih =>
    rw [plain, map_cons, labelCount_cons, if_neg (Ne.symm hl)]
    exact ih

/-- Labels placed at most once are not repeated. -/
lemma labelsNodup_of_labelCount (h : ∀ l, l ≠ 0 → labelCount l P ≤ 1) : LabelsNodup P := by
  refine nodup_iff_count_le_one.2 fun l => ?_
  by_cases hl : l = 0
  · subst hl
    rw [count_eq_zero_of_not_mem]
    · exact Nat.zero_le _
    · simp
  · have hcount : ((P.map Node.label).filter (· ≠ 0)).count l = labelCount l P := by
      rw [count_filter (by simpa using hl), count, countP_map]
      rfl
    rw [hcount]
    exact h l hl

/-! ## Runs -/

lemma execBlock_cons {i : ι} {is : List ι} (h : exec i s = .next s') :
    execBlock exec (i :: is) s = execBlock exec is s' := by
  rw [execBlock, h]

lemma execBlock_append (a b : List ι) (s : σ) :
    execBlock exec (a ++ b) s = (execBlock exec a s).bind (execBlock exec b) := by
  induction a generalizing s with
  | nil => rfl
  | cons i a ih =>
    rw [cons_append, execBlock, execBlock]
    cases exec i s with
    | next s' => exact ih s'
    | goto l s' => rfl
    | stop => rfl

lemma Runs.refl (c : ℕ × σ) : Runs exec P c c := Relation.ReflTransGen.refl

lemma Runs.trans {c d e : ℕ × σ} (h : Runs exec P c d) (h' : Runs exec P d e) : Runs exec P c e :=
  Relation.ReflTransGen.trans h h'

lemma Runs.next {c : ℕ × σ} (hn : P[pc]? = some n)
    (he : exec n.instr s = .next s') (h : Runs exec P (pc + 1, s') c) : Runs exec P (pc, s) c :=
  Relation.ReflTransGen.head (by simp [step, hn, he]) h

lemma Runs.goto {pc pc' : ℕ} {c : ℕ × σ} (hn : P[pc]? = some n) (he : exec n.instr s = .goto l s')
    (hl : labelPos P l = some pc') (h : Runs exec P (pc', s') c) : Runs exec P (pc, s) c :=
  Relation.ReflTransGen.head (by simp [step, hn, he, hl]) h

/-- Straight-line code runs from its start to its end, whatever labels it carries. -/
theorem Runs.block : ∀ {pc : ℕ} {s s' : σ}, At P pc c →
    execBlock exec (c.map Node.instr) s = some s' → Runs exec P (pc, s) (pc + c.length, s') := by
  induction c with
  | nil =>
    intro pc s s' _ h
    have : s = s' := by simpa [execBlock] using h
    subst this
    exact .refl _
  | cons n c ih =>
    intro pc s s' hat h
    obtain ⟨hn, hat⟩ := At.cons.1 hat
    rw [map_cons, execBlock] at h
    split at h
    · next t he =>
      rw [length_cons, show pc + (c.length + 1) = pc + 1 + c.length by omega]
      exact .next hn he (ih hat h)
    · cases h

lemma runs_runFuel (fuel : ℕ) (c : ℕ × σ) : Runs exec P c (runFuel exec P fuel c) := by
  induction fuel generalizing c with
  | zero => exact .refl c
  | succ fuel ih =>
    unfold runFuel
    cases hs : step exec P c with
    | none => exact .refl c
    | some d => exact Relation.ReflTransGen.head hs (ih d)

/-- Execution is deterministic: of two runs to configurations without a step, both end in the same one. -/
theorem Runs.final_unique {c d e : ℕ × σ} (hd : Runs exec P c d) (he : Runs exec P c e)
    (hd' : step exec P d = none) (he' : step exec P e = none) : d = e := by
  induction hd using Relation.ReflTransGen.head_induction_on with
  | refl =>
    rcases Relation.ReflTransGen.cases_head he with h | ⟨f, hf, _⟩
    · exact h
    · rw [hd'] at hf; cases hf
  | head hcf _ ih =>
    rcases Relation.ReflTransGen.cases_head he with h | ⟨g, hg, hge⟩
    · rw [h, he'] at hcf; cases hcf
    · rw [hcf] at hg
      cases hg
      exact ih hge

lemma step_end (s : σ) : step exec P (P.length, s) = none := by
  simp [step]

end

/-! ## What a piece of code does

`Does exec P c s s'`: wherever `c` sits in `P`, it runs from its beginning in the state `s` to its end in the state `s'`.
Pieces compose with `++`, and a jump forward to a label of the same piece skips what lies between. -/

/-- The code `c`, as a part of `P`, takes the state `s` to `s'`. -/
def Does {ι σ : Type} (exec : ι → σ → Ctl σ) (P c : List (Node ι)) (s s' : σ) : Prop :=
  ∀ pc, At P pc c → Runs exec P (pc, s) (pc + c.length, s')

section

variable {ι σ : Type} {exec : ι → σ → Ctl σ} {P a b c : List (Node ι)} {s s' s'' : σ}

lemma Does.nil (s : σ) : Does exec P [] s s := fun pc _ => Runs.refl (pc, s)

theorem Does.append (ha : Does exec P a s s') (hb : Does exec P b s' s'') : Does exec P (a ++ b) s s'' := by
  intro pc hat
  obtain ⟨hata, hatb⟩ := At.append.1 hat
  rw [length_append, ← Nat.add_assoc]
  exact (ha pc hata).trans (hb _ hatb)

theorem Does.block {is : List ι} (h : execBlock exec is s = some s') : Does exec P (plain is) s s' := by
  intro pc hat
  refine .block hat ?_
  rwa [plain, map_map, show (Node.instr ∘ fun i : ι => (⟨0, i⟩ : Node ι)) = id from rfl, map_id]

theorem Does.cons {i : ι} (hi : exec i s = .next s') (h : Does exec P c s' s'') :
    Does exec P (⟨l, i⟩ :: c) s s'' := by
  intro pc hat
  obtain ⟨hn, hat⟩ := At.cons.1 hat
  rw [length_cons, show pc + (c.length + 1) = pc + 1 + c.length by omega]
  exact .next hn hi (h _ hat)

/-- A jump forward to a label skips the code in between. -/
theorem Does.skip {k : ℕ} {i j : ι} {mid : List (Node ι)} (hP : LabelsNodup P) (hl : l ≠ 0)
    (hi : exec i s = .goto l s') (h : Does exec P (⟨l, j⟩ :: c) s' s'') :
    Does exec P (⟨k, i⟩ :: (mid ++ ⟨l, j⟩ :: c)) s s'' := by
  intro pc hat
  obtain ⟨hn, hat⟩ := At.cons.1 hat
  obtain ⟨_, hat⟩ := At.append.1 hat
  have hlen : pc + (⟨k, i⟩ :: (mid ++ ⟨l, j⟩ :: c) : List (Node ι)).length =
      pc + 1 + mid.length + (⟨l, j⟩ :: c : List (Node ι)).length := by
    simp only [length_cons, length_append]
    omega
  rw [hlen]
  exact .goto hn hi (labelPos_of_at hP hl hat rfl) (h _ hat)

theorem Does.unique (h : Does exec P P s s') (h' : Does exec P P s s'') : s' = s'' := by
  have hend : ∀ t : σ, step exec P (P.length, t) = none := step_end
  have hr := h 0 (.self P)
  have hr' := h' 0 (.self P)
  rw [Nat.zero_add] at hr hr'
  exact congrArg Prod.snd (hr.final_unique hr' (hend s') (hend s''))

/-- A whole program may be run to its end by a computation. -/
lemma Does.ofRunFuel {fuel : ℕ} (hc : c ≠ []) (h : (runFuel exec c fuel (0, s)).1 = c.length) :
    Does exec c c s (runFuel exec c fuel (0, s)).2 := by
  intro pc hat
  -- the program sits in itself at the start only
  have hlen := length_pos_iff.2 hc
  have hlast := hat (c.length - 1) (by omega)
  rw [getElem?_eq_getElem (show c.length - 1 < c.length by omega)] at hlast
  have hpc := (List.getElem?_eq_some_iff.1 hlast).1
  obtain rfl : pc = 0 := by omega
  rw [Nat.zero_add, ← h]
  exact runs_runFuel fuel (0, s)

end

/-! ## Code that ends the run -/

/-- The code `c`, as a part of `P` and started in the state `s`, stops in the state `s'`. -/
def Stops {ι σ : Type} (exec : ι → σ → Ctl σ) (P c : List (Node ι)) (s s' : σ) : Prop :=
  ∀ pc, At P pc c → ∃ pc' n, Runs exec P (pc, s) (pc', s') ∧ P[pc']? = some n ∧ exec n.instr s' = .stop

section

variable {ι σ : Type} {exec : ι → σ → Ctl σ} {P a b c : List (Node ι)} {s s' s'' : σ}

theorem Stops.here {i : ι} (hi : exec i s = .stop) : Stops exec P (⟨l, i⟩ :: c) s s := fun pc hat =>
  ⟨pc, ⟨l, i⟩, Runs.refl _, (At.cons.1 hat).1, hi⟩

theorem Does.stops (ha : Does exec P a s s') (hb : Stops exec P b s' s'') : Stops exec P (a ++ b) s s'' := by
  intro pc hat
  obtain ⟨hata, hatb⟩ := At.append.1 hat
  obtain ⟨pc', n, hrun, hn, hstop⟩ := hb _ hatb
  exact ⟨pc', n, (ha pc hata).trans hrun, hn, hstop⟩

theorem Stops.append (ha : Stops exec P a s s') : Stops exec P (a ++ b) s s' := fun pc hat =>
  ha pc (At.append.1 hat).1

theorem Stops.cons {i : ι} (hi : exec i s = .next s') (h : Stops exec P c s' s'') :
    Stops exec P (⟨l, i⟩ :: c) s s'' := by
  intro pc hat
  obtain ⟨hn, hat⟩ := At.cons.1 hat
  obtain ⟨pc', n, hrun, hn', hstop⟩ := h _ hat
  exact ⟨pc', n, .next hn hi hrun, hn', hstop⟩

theorem Stops.skip {k : ℕ} {i j : ι} {mid : List (Node ι)} (hP : LabelsNodup P) (hl : l ≠ 0)
    (hi : exec i s = .goto l s') (h : Stops exec P (⟨l, j⟩ :: c) s' s'') :
    Stops exec P (⟨k, i⟩ :: (mid ++ ⟨l, j⟩ :: c)) s s'' := by
  intro pc hat
  obtain ⟨hn, hat⟩ := At.cons.1 hat
  obtain ⟨_, hat⟩ := At.append.1 hat
  obtain ⟨pc', n, hrun, hn', hstop⟩ := h _ hat
  exact ⟨pc', n, .goto hn hi (labelPos_of_at hP hl hat rfl) hrun, hn', hstop⟩

theorem Does.not_stops (h : Does exec P P s s') (h' : Stops exec P P s s'') : False := by
  have hr := h 0 (.self P)
  obtain ⟨pc', n, hr', hn, hstop⟩ := h' 0 (.self P)
  rw [Nat.zero_add] at hr
  have hend : step exec P (pc', s'') = none := by simp [step, hn, hstop]
  have heq := congrArg Prod.fst (hr.final_unique hr' (step_end s') hend)
  rw [← show P.length = pc' from heq, getElem?_eq_none (Nat.le_refl _)] at hn
  cases hn

end

end DTrace.Lib
