import DTrace.Usdt.DofStream

/-!
# The check that offsets are unique

`validate_probe` sorts the offsets with `uint32_cmp` and compares neighbours.  The comparison function is an order on
offsets that are less than `2 ^ 31` apart only, and `qsort` may do anything with other ones.

* `nearby_iff` — where `uint32_cmp` compares as numbers are compared;
* `nodup_of_isChain`, `InSpace.isChain`, `InSpace.not_isChain` — what the comparison of neighbours says of the offsets;
* `unique_iff` — the check is right, whatever `qsort` does, exactly if unique offsets are near to each other.
-/

namespace DTrace.Usdt.Dof

open Lib List Exec BitVec

variable {l : List (BitVec 32)}

/-- All offsets are less than `2 ^ 31` apart. -/
def Nearby (l : List (BitVec 32)) : Prop := ∀ a ∈ l, ∀ b ∈ l, a.toNat < b.toNat + 2 ^ 31

lemma nearby_iff : Nearby l ↔ ∀ a ∈ l, ∀ b ∈ l, uint32Cmp a b < 0 ↔ a < b := by
  have hcmp (a b : BitVec 32) : uint32Cmp a b < 0 ↔ 2 ^ 31 ≤ (2 ^ 32 - b.toNat + a.toNat) % 2 ^ 32 := by
    rw [uint32Cmp, toInt_neg_iff, toNat_sub]
    omega
  constructor
  · intro h a ha b hb
    have hab := h a ha b hb
    have hba := h b hb a ha
    rw [hcmp, lt_def]
    omega
  · intro h a ha b hb
    have hab := h a ha b hb
    rw [hcmp, lt_def] at hab
    omega

/-- Addresses do not overflow. -/
def InSpace (base : BitVec 64) (l : List (BitVec 32)) : Prop := ∀ a ∈ l, base.toNat + a.toNat < 2 ^ 64

section

variable {base : BitVec 64} {q : Qsort}

instance : IsTrans (BitVec 32) (Above base) := ⟨fun _ _ _ => BitVec.lt_trans⟩

lemma InSpace.above_iff (h : InSpace base l) {a b : BitVec 32} (ha : a ∈ l) (hb : b ∈ l) : Above base a b ↔ a < b := by
  have hsum (c : BitVec 32) (hc : c ∈ l) : (base + c.setWidth 64).toNat = base.toNat + c.toNat := by
    have := h c hc
    rw [toNat_add, toNat_setWidth, Nat.mod_eq_of_lt (a := c.toNat) (by omega), Nat.mod_eq_of_lt this]
  rw [Above, lt_def, lt_def, hsum a ha, hsum b hb]
  omega

lemma nodup_of_isChain (hchain : (q.sort l).IsChain (Above base)) : l.Nodup := by
  refine (q.perm l).nodup_iff.1 ((isChain_iff_pairwise.1 hchain).imp fun hlt => ?_)
  rintro rfl
  exact BitVec.lt_irrefl _ hlt

lemma InSpace.isChain (h : InSpace base l) (hnear : Nearby l) (hl : l.Nodup) : (q.sort l).IsChain (Above base) := by
  have hle := q.sorted l (nearby_iff.1 hnear)
  have hne : (q.sort l).Nodup := (q.perm l).nodup_iff.2 hl
  refine isChain_iff_pairwise.2 ((hle.and hne).imp_of_mem fun {a b} ha hb hab => ?_)
  rw [h.above_iff ((q.perm l).mem_iff.1 ha) ((q.perm l).mem_iff.1 hb)]
  have hle := le_def.1 hab.1
  have hne : a.toNat ≠ b.toNat := fun heq => hab.2 (eq_of_toNat_eq heq)
  rw [lt_def]
  omega

end

/-- A `qsort` that sorts the other way where the comparison function is no order. -/
def contraryQsort : Qsort where
  sort l :=
    if l.all fun a => l.all fun b => decide (uint32Cmp a b < 0 ↔ a < b) then l.insertionSort (· ≤ ·)
    else l.insertionSort (· ≥ ·)
  perm l := by
    split
    · exact perm_insertionSort _ l
    · exact perm_insertionSort _ l
  sorted l h := by
    rw [if_pos (by simpa using h)]
    exact pairwise_insertionSort _ l

lemma InSpace.not_isChain {base : BitVec 64} (h : InSpace base l) (hfar : ¬Nearby l) :
    ¬(contraryQsort.sort l).IsChain (Above base) := by
  intro hchain
  have hsort : contraryQsort.sort l = l.insertionSort (· ≥ ·) := by
    rw [nearby_iff] at hfar
    exact if_neg (by simpa using hfar)
  rw [hsort] at hchain
  have hmem : ∀ a, a ∈ l.insertionSort (· ≥ ·) ↔ a ∈ l := fun a => (perm_insertionSort _ l).mem_iff
  -- neighbours would be ascending and descending
  have hno : (l.insertionSort (· ≥ ·)).Pairwise fun _ _ => False :=
    ((isChain_iff_pairwise.1 hchain).and (pairwise_insertionSort (· ≥ ·) l)).imp_of_mem fun {a b} ha hb hab => by
      have hlt := (h.above_iff ((hmem a).1 ha) ((hmem b).1 hb)).1 hab.1
      exact absurd hab.2 (BitVec.not_le.2 hlt)
  simp only [Nearby, not_forall, not_lt] at hfar
  obtain ⟨a, ha, b, hb, hab⟩ := hfar
  have : Std.Symm fun _ _ : BitVec 32 => False := ⟨fun _ _ h => h⟩
  refine hno.forall ((hmem a).2 ha) ((hmem b).2 hb) ?_
  rintro rfl
  omega

/-! ## The check -/

section

variable {ctx : Ctx} {q : Qsort} {dhpb : ProbeDesc} {s s' : St} {ws es : List (BitVec 32)}

lemma length_words {n x : ℕ} (h : words ctx n x s = (some ws, s')) : ws.length = n := by
  induction n generalizing x s s' ws with
  | zero =>
    obtain ⟨rfl, -⟩ := pure_eq_some.1 h
    rfl
  | succ n ih =>
    simp only [words, num_bind] at h
    obtain ⟨_, _, hvs, h⟩ := bind_eq_some.1 h.2
    obtain ⟨rfl, -⟩ := pure_eq_some.1 h
    rw [length_cons, ih hvs]

lemma ascending_iff {n x : ℕ} {base : BitVec 64} (h : words ctx n x s = (some ws, s')) :
    Ascending ctx q base x n s ↔ (q.sort ws).IsChain (Above base) := by
  constructor
  · intro hasc
    by_cases hn : 2 ≤ n
    · exact hasc hn ws s' h
    · have hlen : (q.sort ws).length < 2 := by
        rw [(q.perm ws).length_eq, length_words h]
        omega
      match q.sort ws, hlen with
      | [], _ => exact .nil
      | [a], _ => exact .singleton a
  · intro hchain _ ws' s1 h'
    rw [h] at h'
    cases h'
    exact hchain

/-- What the two arrays of offsets hold: the second is read when the first has been sorted. -/
def Offsets (ctx : Ctx) (q : Qsort) (dhpb : ProbeDesc) (s : St) (ws es : List (BitVec 32)) : Prop :=
  (∃ s', words ctx dhpb.noffs dhpb.offs s = (some ws, s')) ∧
    ∀ b s1, sortUnique ctx q dhpb.base dhpb.offs dhpb.noffs "non-unique USDT offsets at %i: %li <= %li" s = (some b, s1) →
      ∃ s', words ctx dhpb.nenoffs dhpb.enoffs s1 = (some es, s')

/-- The offsets of each list are distinct, and there is one. -/
def Unique (ws es : List (BitVec 32)) : Prop := ws.Nodup ∧ es.Nodup ∧ ¬(ws = [] ∧ es = [])

lemma validateProbe_eq_true {b : Bool} (hoffs : Offsets ctx q dhpb s ws es)
    (h : validateProbe ctx q dhpb s = (some b, s')) :
    b = true ↔ (q.sort ws).IsChain (Above dhpb.base) ∧ (q.sort es).IsChain (Above dhpb.base) ∧ ¬(ws = [] ∧ es = []) := by
  obtain ⟨_, _, hsort, -⟩ := bind_eq_some.1 h
  obtain ⟨⟨_, hws⟩, hes⟩ := hoffs
  obtain ⟨_, hes⟩ := hes _ _ hsort
  rw [← ascending_iff hws, ← ascending_iff hes, ← length_eq_zero_iff, ← length_eq_zero_iff, length_words hws,
    length_words hes]
  -- arguments do not matter here
  have h0 : validateProbe ctx q { dhpb with xargc := 0 } s = (some b, s') := h
  rcases validateProbe_some h0 with ⟨rfl, hpos, hgood, -⟩ | ⟨rfl, hbad, -⟩
  · have hgood := hgood fun hx => absurd hx (Nat.lt_irrefl 0)
    dsimp only at hpos
    exact iff_of_true rfl ⟨hgood.offs, hgood.enoffs _ _ hsort, by omega⟩
  · refine iff_of_false (by simp) ?_
    rintro ⟨hoffs, henoffs, hne⟩
    refine hbad ⟨hoffs, fun b s' hrun => ?_, by dsimp only; omega, fun hx => absurd hx (Nat.lt_irrefl 0)⟩
    dsimp only at hrun
    rw [hsort] at hrun
    cases hrun
    exact henoffs

/-- **Unique offsets.**  Whatever `qsort` does with offsets that `uint32_cmp` does not order, the check accepts exactly
the offsets that are unique, if and only if unique offsets are less than `2 ^ 31` apart. -/
theorem unique_iff (hws : InSpace dhpb.base ws) (hes : InSpace dhpb.base es)
    (hoffs : ∀ q, Offsets ctx q dhpb s ws es) (hruns : ∀ q, ∃ b s', validateProbe ctx q dhpb s = (some b, s')) :
    (∀ q b s', validateProbe ctx q dhpb s = (some b, s') → (b = true ↔ Unique ws es)) ↔
      (Unique ws es → Nearby ws ∧ Nearby es) := by
  constructor
  · intro h huniq
    obtain ⟨b, s', hrun⟩ := hruns contraryQsort
    obtain ⟨hw, he, -⟩ := (validateProbe_eq_true (hoffs _) hrun).1 ((h _ b s' hrun).2 huniq)
    exact ⟨by_contra fun hfar => hws.not_isChain hfar hw, by_contra fun hfar => hes.not_isChain hfar he⟩
  · intro hnear q b s' hrun
    rw [validateProbe_eq_true (hoffs q) hrun]
    constructor
    · rintro ⟨hw, he, hne⟩
      exact ⟨nodup_of_isChain hw, nodup_of_isChain he, hne⟩
    · intro huniq
      obtain ⟨hw, he⟩ := hnear huniq
      exact ⟨hws.isChain hw huniq.1, hes.isChain he huniq.2.1, huniq.2.2⟩

/-- A probe with offsets and is-enabled offsets at the start of the block. -/
def probeAt (noffs nenoffs : ℕ) : ProbeDesc := ⟨0, 0, 4096, 0, noffs, 4 * noffs, nenoffs, 0, 0, 0, 0, 0⟩

lemma sort_pair (q : Qsort) : q.sort [48, 16] = [16, 48] := by
  have hle := q.sorted [48, 16] (nearby_iff.1 (by simp [Nearby]))
  have hperm : (q.sort [48, 16]).Perm [16, 48] := (q.perm _).trans (Perm.swap ..)
  exact hperm.eq_of_pairwise (fun a b _ _ => BitVec.le_antisymm) hle (by simp)

theorem unique_pair :
    Unique [48, 16] [32] ∧ ∀ q b s', validateProbe (smallCtx (wordBytes [48, 16, 32])) q (probeAt 2 1)
      (smallSt (wordBytes [48, 16, 32])) = (some b, s') → b = true := by
  have huniq : Unique [48, 16] [32] := by simp [Unique]
  have hw : InSpace (probeAt 2 1).base [48, 16] := by simp [InSpace, probeAt]
  have he : InSpace (probeAt 2 1).base [32] := by simp [InSpace, probeAt]
  have hsort (q fmt) : sortUnique (smallCtx (wordBytes [48, 16, 32])) q 4096 0 2 fmt (smallSt (wordBytes [48, 16, 32])) =
      (some true, smallSt (wordBytes [16, 48, 32])) := by
    have hread : words (smallCtx (wordBytes [48, 16, 32])) 2 0 (smallSt (wordBytes [48, 16, 32])) =
        (some [48, 16], smallSt (wordBytes [48, 16, 32])) := rfl
    rw [sortUnique, if_neg (by decide), bind_some hread, sort_pair]
    rfl
  refine ⟨huniq, fun q b s' h => ((unique_iff hw he (fun q => ⟨⟨_, rfl⟩, fun _ _ h => ?_⟩) (fun q => ?_)).2 ?_ q b s' h).2 huniq⟩
  · cases (hsort q _).symm.trans h
    exact ⟨_, rfl⟩
  · exact ⟨_, _, bind_some (hsort q _)⟩
  · simp [Nearby]

/-- The offsets 0 and `2 ^ 31 + 1` are not accepted: they are sorted the other way. -/
theorem unique_far :
    (validateProbe (smallCtx (wordBytes [0, 0x80000001])) contraryQsort (probeAt 2 0)
      (smallSt (wordBytes [0, 0x80000001]))).1 = some false ∧ Unique [0, 0x80000001] [] ∧
      uint32Cmp 0 0x80000001 > 0 ∧ uint32Cmp 0x80000001 0 < 0 := by
  unfold Unique
  decide

end

end DTrace.Usdt.Dof
