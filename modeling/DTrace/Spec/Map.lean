import Mathlib.Tactic.Common

/-!
# The speculations of the kernel

The BPF map `specs`, and the library functions of `bpf/speculation.c` behind `speculation()`, `speculate()`, `commit()` and
`discard()`.  Each is called by a clause and is one step.

An entry carries, besides the members the code reads, a mark `gen` that says which call of `speculation()` made it: the
identifiers are recycled, the marks are not.  Nothing here looks at it.

* `dtSpeculation_eq_ok`, `dtSpeculationSpeculate_eq_some` — what a successful call has found and done.
* `allocates_iff` — when `speculation()` hands out an identifier as long as there is one.
-/

namespace DTrace.Spec

open Function List

variable {γ : Type}

/-- `dt_bpf_specs_t`, without `size`: it is read only where a clause decides to give up. -/
structure DtBpfSpecs (γ : Type) where
  written : ℕ
  draining : Bool
  gen : γ
  deriving DecidableEq

/-- The map `specs`. -/
abbrev Specs (γ : Type) := ℕ → Option (DtBpfSpecs γ)

/-- `DT_STATE_SPEC_BUSY`, `DT_STATE_SPEC_UNAVAIL`: why no identifier is handed out. -/
inductive NoSpec
  | busy
  | unavail
  deriving DecidableEq, Repr

/-- The identifiers `dt_speculation` tries, in order. -/
def candidates (nspec : ℕ) : List ℕ := (List.range' 1 16).filter (· ≤ nspec)

def busy (specs : Specs γ) (id : ℕ) : Bool := ((specs id).map DtBpfSpecs.draining).getD false

/-- `dt_speculation`: the identifier, and the map with its entry. -/
def dtSpeculation (nspec : ℕ) (gen : γ) (specs : Specs γ) : Except NoSpec (ℕ × Specs γ) :=
  match (candidates nspec).find? fun id => (specs id).isNone with
  | some id => .ok (id, update specs id (some ⟨0, false, gen⟩))
  | none => .error (if (candidates nspec).any (busy specs) then .busy else .unavail)

/-- `dt_speculation_speculate`: the entry, and the map with its count increased; `none` for a null pointer. -/
def dtSpeculationSpeculate (specs : Specs γ) (id : ℕ) : Option (DtBpfSpecs γ × Specs γ) :=
  match specs id with
  | none => none
  | some spec =>
    if spec.draining then none
    else some (spec, update specs id (some { spec with written := spec.written + 1 }))

/-- `dt_speculation_set_drainable`; `none` for the fault `DTRACEFLT_ILLOP`. -/
def dtSpeculationSetDrainable (nspec : ℕ) (specs : Specs γ) (id : ℕ) : Option (Specs γ) :=
  match specs id with
  | none => if id ≤ nspec then some specs else none
  | some spec => some (update specs id (some { spec with draining := true }))

section

variable {nspec id : ℕ} {gen : γ} {specs specs' : Specs γ} {spec : DtBpfSpecs γ}

theorem dtSpeculation_eq_ok (h : dtSpeculation nspec gen specs = .ok (id, specs')) :
    id ≠ 0 ∧ specs id = none ∧ specs' = update specs id (some ⟨0, false, gen⟩) := by
  unfold dtSpeculation at h
  split at h
  · next i hfind =>
    obtain ⟨rfl, rfl⟩ := Prod.mk.inj (Except.ok.inj h)
    have hmem := mem_of_find?_eq_some hfind
    have hnone := find?_some hfind
    refine ⟨?_, by simpa using hnone, rfl⟩
    rintro rfl
    simp [candidates] at hmem
  · cases h

theorem dtSpeculationSpeculate_eq_some (h : dtSpeculationSpeculate specs id = some (spec, specs')) :
    specs id = some spec ∧ spec.draining = false ∧
      specs' = update specs id (some { spec with written := spec.written + 1 }) := by
  unfold dtSpeculationSpeculate at h
  split at h
  · cases h
  · next e he =>
    split at h
    · cases h
    · next hd =>
      cases h
      exact ⟨he, by simpa using hd, rfl⟩

end

/-- The identifiers `1 … n`. -/
abbrev ids (n : ℕ) : List ℕ := List.range' 1 n

/-- How many of the identifiers `1 … nspec` are in use. -/
def inUse (nspec : ℕ) (specs : Specs γ) : ℕ := (ids nspec).countP fun id => (specs id).isSome

/-- What `speculation()` is for: while fewer than `nspec` identifiers are in use it marks one that is not, and otherwise
it tells which drop is counted. -/
structure Allocates (nspec : ℕ) (gen : γ) (specs : Specs γ) : Prop where
  free : inUse nspec specs < nspec → ∃ id ∈ ids nspec, specs id = none ∧
    dtSpeculation nspec gen specs = .ok (id, update specs id (some ⟨0, false, gen⟩))
  used : inUse nspec specs = nspec →
    ((∃ id ∈ ids nspec, busy specs id) → dtSpeculation nspec gen specs = .error .busy) ∧
    ((¬ ∃ id ∈ ids nspec, busy specs id) → dtSpeculation nspec gen specs = .error .unavail)

section

variable {nspec : ℕ} {gen : γ} {specs : Specs γ}

lemma candidates_of_le : ∀ {nspec}, nspec ≤ 16 → candidates nspec = ids nspec := by
  decide

lemma candidates_of_ge (h : 16 ≤ nspec) : candidates nspec = ids 16 := by
  refine filter_eq_self.2 fun id hid => decide_eq_true ?_
  have := mem_range'_1.1 hid
  omega

lemma inUse_le : inUse nspec specs ≤ nspec := by
  simpa [inUse] using countP_le_length (p := fun id => (specs id).isSome) (l := ids nspec)

lemma inUse_eq_iff : inUse nspec specs = nspec ↔ ∀ id ∈ ids nspec, specs id ≠ none := by
  have h := countP_eq_length (p := fun id => (specs id).isSome) (l := ids nspec)
  simpa [inUse, Option.isSome_iff_ne_none] using h

lemma dtSpeculation_of_used (h : ∀ id ∈ candidates nspec, specs id ≠ none) :
    dtSpeculation nspec gen specs =
      .error (if (candidates nspec).any (busy specs) then .busy else .unavail) := by
  have hfind : (candidates nspec).find? (fun id => (specs id).isNone) = none := by
    refine find?_eq_none.2 fun id hid => ?_
    simpa using h id hid
  simp only [dtSpeculation, hfind]

lemma dtSpeculation_of_free (h : ∃ id ∈ candidates nspec, specs id = none) :
    ∃ id ∈ candidates nspec, specs id = none ∧
      dtSpeculation nspec gen specs = .ok (id, update specs id (some ⟨0, false, gen⟩)) := by
  obtain ⟨id, hmem, hid⟩ := h
  cases hfind : (candidates nspec).find? fun id => (specs id).isNone with
  | none =>
    have hsome := find?_eq_none.1 hfind id hmem
    simp [hid] at hsome
  | some i =>
    have hi := find?_some hfind
    refine ⟨i, mem_of_find?_eq_some hfind, by simpa using hi, ?_⟩
    simp only [dtSpeculation, hfind]

lemma allocates_iff_candidates : Allocates nspec gen specs ↔
    (∃ id ∈ candidates nspec, specs id = none) ∨ (∀ id ∈ ids nspec, specs id ≠ none) ∧
      ((∃ id ∈ ids nspec, busy specs id) → ∃ id ∈ candidates nspec, busy specs id) := by
  have hsub : ∀ id ∈ candidates nspec, id ∈ ids nspec := by
    simp only [candidates, mem_filter, mem_range'_1, decide_eq_true_eq]
    omega
  by_cases hfree : ∃ id ∈ candidates nspec, specs id = none
  · refine iff_of_true ⟨fun _ => ?_, fun hall => ?_⟩ (.inl hfree)
    · obtain ⟨id, hid, h⟩ := dtSpeculation_of_free hfree
      exact ⟨id, hsub id hid, h⟩
    · obtain ⟨id, hid, hnone⟩ := hfree
      exact absurd hnone (inUse_eq_iff.1 hall id (hsub id hid))
  have hused : ∀ id ∈ candidates nspec, specs id ≠ none := fun id hid hnone => hfree ⟨id, hid, hnone⟩
  have hcall : dtSpeculation nspec gen specs = _ := dtSpeculation_of_used hused
  rw [or_iff_right hfree, ← inUse_eq_iff]
  constructor
  · intro ha
    have hall : inUse nspec specs = nspec := by
      refine (Nat.lt_or_eq_of_le inUse_le).resolve_left fun hlt => ?_
      obtain ⟨_, _, _, hok⟩ := ha.free hlt
      simp [hcall] at hok
    refine ⟨hall, fun hbusy => ?_⟩
    have herr := (ha.used hall).1 hbusy
    simpa [hcall] using herr
  · rintro ⟨hall, himp⟩
    refine ⟨fun hlt => absurd hall (Nat.ne_of_lt hlt), fun _ => ⟨fun hbusy => ?_, fun hno => ?_⟩⟩
    · rw [hcall, if_pos (any_eq_true.2 (himp hbusy))]
    · rw [hcall, if_neg]
      rw [any_eq_true]
      exact fun ⟨id, hid, hb⟩ => hno ⟨id, hsub id hid, hb⟩

/-- The search is unrolled for the identifiers up to `16`, whatever `nspec` is. -/
theorem allocates_iff (nspec : ℕ) (gen : γ) (specs : Specs γ) :
    Allocates nspec gen specs ↔
      nspec ≤ 16 ∨ (∃ id ∈ ids 16, specs id = none) ∨ (∀ id ∈ ids nspec, specs id ≠ none) ∧
        ((∃ id ∈ ids nspec, busy specs id) → ∃ id ∈ ids 16, busy specs id) := by
  rw [allocates_iff_candidates]
  rcases Nat.lt_or_ge 16 nspec with hgt | hle
  · rw [candidates_of_ge (Nat.le_of_lt hgt), or_iff_right (Nat.not_le.2 hgt)]
  · rw [candidates_of_le hle]
    grind

/-- Sixteen of seventeen identifiers are handed out, and the last one never is. -/
theorem not_allocates_seventeen :
    ¬ Allocates 17 () (Nat.repeat (fun specs => ((dtSpeculation 17 () specs).toOption.map Prod.snd).getD specs) 16
      fun _ => none) := by
  rw [allocates_iff_candidates]
  decide +kernel

end

end DTrace.Spec
