import DTrace.Stash.Remove

/-!
# Generations

Calls that succeed, one after the other, from an empty stash.  Generations are counted by the size of a file, and the
file goes with the last mapping of the process.

* `Addition` — what a call of `dof_stash_add` that succeeds has done;
* `Inv.add`, `Inv.parse`, `Inv.remove` — the invariant over each call;
* `Run`, `Op.step`, `Reach` — the calls, with what they returned and what they linked;
* `generations` — the generations of a process differ, and removing one removes its mapping alone.
-/

namespace DTrace.Stash

open Lib List Finset Files Store Function Option Bool

/-! ## Calls that succeed -/

variable {m : Mapping} {pid : ℤ} {n : ℕ}

section

variable {data : List Block}

lemma dofStashWriteRaw_noFault (m : Mapping) (data : List Block) (f : Files File) :
    ∃ n f', dofStashWriteRaw noFault (File.dof m) data f = (some n, f') ∧ (Linked f → Linked f') ∧
      ∀ k, (∀ i, k ≠ .dof m i) → f'.ino k = f.ino k := by
  by_cases hstale : Stale noFault (.dof m) data f
  · exact ⟨0, f, dofStashWriteRaw_stale hstale, id, fun _ _ => rfl⟩
  · obtain ⟨f', hrun, -, rfl⟩ := dofStashWriteRaw_not_stale hstale
    let I : ℕ → Files File → Prop := fun _ f' =>
      (Linked f → Linked f') ∧ ∀ k, (∀ i, k ≠ .dof m i) → f'.ino k = f.ino k
    have hstep : ∀ i d f', i < data.length → I i f' → I (i + 1) (writeRawData noFault (.dof m) i d f').2 := by
      intro i d f' _ h
      have heq : (writeRawData noFault (.dof m) i d f').2 = f'.put (.dof m i) d.file := rfl
      rw [heq]
      refine ⟨fun hl => (h.1 hl).put fun _ _ _ => nofun, fun k hk => ?_⟩
      rw [ino_put_of_ne (hk i)]
      exact h.2 k hk
    have hI : I data.length
        (applyLoop (fun i => noFault (.nameWrite i)) (writeRawData noFault (.dof m)) data 0 0 f).2 :=
      applyLoop_inv (fun _ _ h => h) hstep ⟨id, fun _ _ => rfl⟩
    exact ⟨1, _, hrun, hI.1, hI.2⟩

lemma applyLoop_links (pid : ℤ) (m : Mapping) (data : List Block) (f : Files File) : ∃ n f',
    applyLoop (fun i => noFault (.nameLink i)) (createRawLink noFault pid m) data 0 0 f = (some (data.length, n), f') ∧
      (Linked f → Linked f') ∧ (∀ k, (∀ j < data.length, k ≠ .raw pid m j) → f'.ino k = f.ino k) ∧
      (n = data.length → ∀ j < data.length, f'.ino (.raw pid m j) ≠ none) := by
  have hcall : ∀ i d f, createRawLink noFault pid m i d f =
      (f.link (.dof m i) (.raw pid m i)).elim (some false, f) fun f' => (some true, f') := by
    intro i d f
    have hname : (decide (0 < i) && noFault (.nameRawLink i)) = false := and_false _
    rw [createRawLink, hname]
    cases f.link (.dof m i) (.raw pid m i) <;> rfl
  let I : ℕ → ℕ → Files File → Prop := fun i n f' => n ≤ i ∧ (Linked f → Linked f') ∧
    (∀ k, (∀ j < i, k ≠ .raw pid m j) → f'.ino k = f.ino k) ∧ (n = i → ∀ j < i, f'.ino (.raw pid m j) ≠ none)
  have hstep : ∀ i n d f', data[i]? = some d → I i n f' → I (i + 1)
      (if (createRawLink noFault pid m i d f').1 = some true then n + 1 else n) (createRawLink noFault pid m i d f').2 := by
    rintro i n d f' - ⟨hle, hlinked, hframe, hall⟩
    rw [hcall]
    rcases hlink : f'.link (.dof m i) (.raw pid m i) with _ | f1
    · exact ⟨Nat.le_succ_of_le hle, hlinked, fun k hk => hframe k fun j hj => hk j (by omega), fun hn => absurd hn
        (by simp; omega)⟩
    · obtain ⟨_, -, -, hself, hother, -⟩ := of_link_eq_some hlink
      refine ⟨Nat.succ_le_succ hle, fun h => (hlinked h).link hlink, fun k hk => ?_, fun hn => ?_⟩
      · obtain ⟨hk, hki⟩ := Nat.forall_lt_succ_right.1 hk
        exact (hother k hki).trans (hframe k hk)
      · refine Nat.forall_lt_succ_right.2 ⟨fun j hj => ?_, by simp [hself]⟩
        dsimp only [Option.elim_some]
        rw [hother _ fun h => absurd (raw_injective h) (by omega)]
        exact hall (Nat.succ.inj hn) j hj
  obtain ⟨n, f', hrun, -, hI⟩ := applyLoop_total (fun i => (rfl : noFault (.nameLink i) = false)) (fun i d f => by
    rw [hcall]
    cases f.link (.dof m i) (.raw pid m i) <;> simp) hstep
    ⟨le_rfl, id, fun _ _ => rfl, fun _ _ h => absurd h (by omega)⟩
  exact ⟨n, f', hrun, hI⟩

/-- What a call of `dof_stash_add` that succeeds has done. -/
structure Addition (pid : ℤ) (n : ℕ) (m : Mapping) (s s' : St) : Prop where
  size : n = (s.nextGen.lookup pid).getD 0
  free : s.gens.lookup (pid, n) = none
  maps : s'.maps = insert (pid, m) s.maps
  pids : s'.pids = insert pid s.pids
  parsed : s'.parsed = s.parsed
  probes : s'.probes = s.probes
  gens : s'.gens = s.gens.insert (pid, n) m
  nextGen : s'.nextGen.lookup pid = some (n + 1)
  nextGen_ne : ∀ p, p ≠ pid → s'.nextGen.lookup p = s.nextGen.lookup p
  linked : Linked s.files → Linked s'.files
  dh : s.files.ino (.dh pid m) = none ∧ s'.files.ino (.dh pid m) ≠ none
  /-- The links to the raw data, if there were none. -/
  raw : (∀ i, s.files.ino (.raw pid m i) = none) → ∃ len, ∀ i, s'.files.ino (.raw pid m i) ≠ none ↔ i < len
  kept : ∀ k : File, (∀ i, k ≠ .dof m i) → (∀ i, k ≠ .raw pid m i) → k ≠ .dh pid m → s'.files.ino k = s.files.ino k

variable {exec : Mapping} {dh : Bytes} {newPid newDof : Bool} {size : ℕ} {s s' : St}

lemma addTruncate_gen (h : addTruncate noFault pid m data newPid newDof size s = (.gen n, s')) :
    n = size ∧ s.gens.lookup (pid, n) = none ∧
      s' = { s with nextGen := s.nextGen.insert pid (n + 1), gens := s.gens.insert (pid, n) m } := by
  simp only [addTruncate, addSymlink, noFault, false_eq_true, if_false, Bool.false_or] at h
  split at h
  · cases h
  next hnone =>
    obtain ⟨hn, rfl⟩ := Prod.mk.injEq .. ▸ h
    obtain rfl : size = n := by injection hn
    exact ⟨rfl, by simpa using hnone, rfl⟩

lemma addExec_gen (h : addExec noFault pid m data exec newPid newDof size s = (.gen n, s')) :
    n = size ∧ s.gens.lookup (pid, n) = none ∧ ∃ e,
      s' = { s with
        execMapping := e
        nextGen := s.nextGen.insert pid (n + 1)
        gens := s.gens.insert (pid, n) m } := by
  simp only [addExec, noFault, false_eq_true, if_false] at h
  repeat' split at h
  all_goals
    obtain ⟨hn, hfree, rfl⟩ := addTruncate_gen h
    exact ⟨hn, hfree, _, rfl⟩

lemma addDh_gen (h : addDh noFault pid m data exec dh newPid newDof size s = (.gen n, s')) :
    s.files.ino (.dh pid m) = none ∧ n = size ∧ s.gens.lookup (pid, n) = none ∧ ∃ e,
      s' = { s with
        files := s.files.put (.dh pid m) dh
        execMapping := e
        nextGen := s.nextGen.insert pid (n + 1)
        gens := s.gens.insert (pid, n) m } := by
  simp only [addDh, noFault, false_eq_true, if_false] at h
  split at h
  · cases h
  next hnone =>
    obtain ⟨hn, hfree, e, rfl⟩ := addExec_gen h
    exact ⟨content_eq_none_iff.1 (by simpa using hnone), hn, hfree, e, rfl⟩

/-- The files after a call that succeeds. -/
structure Filed (pid : ℤ) (m : Mapping) (f f' : Files File) : Prop where
  linked : Linked f → Linked f'
  dh : f.ino (.dh pid m) = none ∧ f'.ino (.dh pid m) ≠ none
  raw : (∀ i, f.ino (.raw pid m i) = none) → ∃ len, ∀ i, f'.ino (.raw pid m i) ≠ none ↔ i < len
  kept : ∀ k : File, (∀ i, k ≠ .dof m i) → (∀ i, k ≠ .raw pid m i) → k ≠ .dh pid m → f'.ino k = f.ino k

lemma addRaw_gen (h : addRaw noFault pid m data exec dh newPid size s = (.gen n, s')) :
    n = size ∧ s.gens.lookup (pid, n) = none ∧ Filed pid m s.files s'.files ∧ ∃ e,
      s' = { s with
        files := s'.files
        execMapping := e
        nextGen := s.nextGen.insert pid (n + 1)
        gens := s.gens.insert (pid, n) m } := by
  obtain ⟨_, f1, hwrite, hlinked1, hframe1⟩ := dofStashWriteRaw_noFault m data s.files
  obtain ⟨len, f2, hloop, hlinked2, hframe2, hall2⟩ := applyLoop_links pid m data f1
  have hlinks : usdtDataApply (fun i => noFault (.nameLink i)) (createRawLink noFault pid m) data true f1 =
      (some (if len = data.length then 1 else 0), f2) := Exec.bind_some hloop
  rw [addRaw, hwrite] at h
  dsimp only at h
  rw [addLinks] at h
  dsimp only at h
  rw [hlinks] at h
  by_cases hlen : len = data.length
  · rw [if_pos hlen, if_neg (by simp)] at h
    obtain ⟨hdh, hn, hfree, e, rfl⟩ := addDh_gen h
    have hdh : f2.ino (.dh pid m) = none := hdh
    have hdh' : (f2.put (.dh pid m) dh).ino (.dh pid m) = some f2.next := ino_put_of_none hdh
    have hraw : ∀ i, f1.ino (.raw pid m i) = s.files.ino (.raw pid m i) := fun i => hframe1 _ fun _ => by simp
    refine ⟨hn, hfree, ⟨fun hl => (hlinked2 (hlinked1 hl)).put fun _ _ _ => by simp, ⟨?_, by simp [hdh']⟩, ?_, ?_⟩,
      e, rfl⟩
    · have hdh2 : f2.ino (.dh pid m) = f1.ino (.dh pid m) := hframe2 _ fun _ _ => by simp
      have hdh1 : f1.ino (.dh pid m) = s.files.ino (.dh pid m) := hframe1 _ fun _ => by simp
      exact hdh1.symm.trans (hdh2.symm.trans hdh)
    · intro hnone
      refine ⟨data.length, fun i => ?_⟩
      have hne : File.raw pid m i ≠ .dh pid m := by simp
      rw [ino_put_of_ne hne]
      refine ⟨fun hi => ?_, fun hi => hall2 hlen i hi⟩
      by_contra hge
      rw [hframe2 _ fun j hj hij => absurd (raw_injective hij) (by omega), hraw i] at hi
      exact hi (hnone i)
    · intro k hdof hraw' hkd
      rw [ino_put_of_ne hkd, hframe2 k fun j _ => hraw' j]
      exact hframe1 k hdof
  · rw [if_neg hlen, if_pos rfl] at h
    cases h

lemma dofStashAdd_gen (h : dofStashAdd noFault pid m data exec dh s = (.gen n, s')) : Addition pid n m s s' := by
  simp only [dofStashAdd, addGen, noFault, false_eq_true, if_false] at h
  split at h
  · cases h
  obtain ⟨hn, hfree, hfiled, e, heq⟩ := addRaw_gen h
  rw [heq]
  constructor
  case size => exact hn
  case free => exact hfree
  case nextGen => exact AList.lookup_insert _
  case nextGen_ne =>
    intro p hp
    exact (AList.lookup_insert_ne hp).trans (AList.lookup_insert_ne hp)
  case linked => exact hfiled.linked
  case dh => exact hfiled.dh
  case raw => exact hfiled.raw
  case kept => exact hfiled.kept
  all_goals rfl

end

/-! ## The invariant over a call -/

variable {ps : List Probe} {vers : Bytes}

section

variable {s s' : St}

/-- A file of one mapping is of no other one. -/
lemma File.inMapping_other {p : ℤ} {m' : Mapping} {k : File} (hk : k.inMapping p m' = true) (hne : (p, m') ≠ (pid, m)) :
    k.inMapping pid m = false ∧ ∀ i, k ≠ .dof m i := by
  rcases k with _ | ⟨p', n, i⟩ | ⟨p', n⟩ | ⟨p', n, name⟩
  · cases hk
  all_goals
    obtain ⟨rfl, rfl⟩ : _ = p ∧ n = m' := by simpa [File.inMapping] using hk
    exact ⟨by simpa [File.inMapping] using hne, by simp⟩

lemma Inv.new_map (h : Inv s) (ha : Addition pid n m s s') : (pid, m) ∉ s.maps := fun hm => h.dh _ _ hm ha.dh.1

theorem Inv.add (h : Inv s) (ha : Addition pid n m s s') : Inv s' := by
  have hnew := h.new_map ha
  have hnofile : ∀ k : File, k.inMapping pid m = true → s.files.ino k = none := fun k hk =>
    not_not.1 fun hne => hnew (h.files pid m k hk hne)
  obtain ⟨_, hlen⟩ := ha.raw fun i => hnofile _ (by simp [File.inMapping])
  -- files of other mappings are as they were
  have hother : ∀ p m' k, (p, m') ≠ (pid, m) → File.inMapping p m' k = true → s'.files.ino k = s.files.ino k := by
    intro p m' k hne hk
    obtain ⟨hnot, hdof⟩ := File.inMapping_other hk hne
    refine ha.kept k hdof (fun i => ?_) ?_
    · rintro rfl
      simp [File.inMapping] at hnot
    · rintro rfl
      simp [File.inMapping] at hnot
  have hgens : ∀ p g m', s'.gens.lookup (p, g) = some m' →
      (p = pid ∧ g = n ∧ m' = m) ∨ s.gens.lookup (p, g) = some m' := by
    intro p g m' hg
    rw [ha.gens, lookup_insert] at hg
    split_ifs at hg with hpg
    · cases hpg
      exact .inl ⟨rfl, rfl, (Option.some.inj hg).symm⟩
    · exact .inr hg
  constructor
  case linked => exact ha.linked h.linked
  case raw =>
    intro p m' i hi
    by_cases hpm : (p, m') = (pid, m)
    · cases hpm
      exact (hlen i).2 (by have := (hlen _).1 hi; omega)
    · have hin : ∀ i, File.inMapping p m' (.raw p m' i) = true := fun i => by simp [File.inMapping]
      rw [hother p m' _ hpm (hin _)] at hi ⊢
      exact h.raw p m' i hi
  case files =>
    intro p m' k hk hne
    rw [ha.maps, mem_insert]
    by_cases hpm : (p, m') = (pid, m)
    · exact .inl hpm
    · rw [hother p m' k hpm hk] at hne
      exact .inr (h.files p m' k hk hne)
  case dh =>
    intro p m' hm
    by_cases hpm : (p, m') = (pid, m)
    · cases hpm
      exact ha.dh.2
    · rw [ha.maps, mem_insert, or_iff_right hpm] at hm
      rw [hother p m' _ hpm (by simp [File.inMapping])]
      exact h.dh p m' hm
  case parsed =>
    intro p m' name hne
    rw [ha.kept (.parsed p m' name) (fun _ => by simp) (fun _ => by simp) (by simp)] at hne
    rw [ha.parsed]
    exact h.parsed p m' name hne
  case parsed_maps =>
    rw [ha.parsed, ha.maps]
    exact h.parsed_maps.trans (subset_insert _ _)
  case gens_maps =>
    intro p g m' hg
    rw [ha.maps, mem_insert]
    rcases hgens p g m' hg with ⟨rfl, -, rfl⟩ | hg
    · exact .inl rfl
    · exact .inr (h.gens_maps p g m' hg)
  case maps_gens =>
    intro p m' hm
    rw [ha.gens]
    by_cases hpm : (p, m') = (pid, m)
    · cases hpm
      exact ⟨n, AList.lookup_insert _⟩
    · rw [ha.maps, mem_insert, or_iff_right hpm] at hm
      obtain ⟨g, hg⟩ := h.maps_gens p m' hm
      refine ⟨g, ?_⟩
      rw [AList.lookup_insert_ne]
      · exact hg
      · intro hpg
        rw [hpg, ha.free] at hg
        cases hg
  case gens_inj =>
    intro p g g' m' hg hg'
    rcases hgens p g m' hg with ⟨rfl, rfl, rfl⟩ | hg
    · rcases hgens p g' m' hg' with ⟨-, rfl, -⟩ | hg'
      · rfl
      · exact absurd (h.gens_maps _ _ _ hg') hnew
    · rcases hgens p g' m' hg' with ⟨rfl, rfl, rfl⟩ | hg'
      · exact absurd (h.gens_maps _ _ _ hg) hnew
      · exact h.gens_inj p g g' m' hg hg'
  case gens_lt =>
    intro p g m' hg
    rcases hgens p g m' hg with ⟨rfl, rfl, -⟩ | hg
    · exact ⟨_, ha.nextGen, Nat.lt_succ_self _⟩
    · obtain ⟨n', hn', hlt⟩ := h.gens_lt p g m' hg
      by_cases hp : p = pid
      · subst hp
        refine ⟨_, ha.nextGen, ?_⟩
        rw [ha.size, hn', getD_some]
        omega
      · exact ⟨n', by rw [ha.nextGen_ne p hp]; exact hn', hlt⟩
  case pids =>
    intro p m' hm
    rw [ha.pids, mem_insert]
    by_cases hpm : (p, m') = (pid, m)
    · exact .inl (congrArg Prod.fst hpm)
    · rw [ha.maps, mem_insert, or_iff_right hpm] at hm
      exact .inr (h.pids p m' hm)
  case nextGen =>
    intro p n' hn'
    by_cases hp : p = pid
    · subst hp
      exact ⟨m, by rw [ha.maps]; exact mem_insert_self _ _⟩
    · rw [ha.nextGen_ne p hp] at hn'
      obtain ⟨m', hm'⟩ := h.nextGen p n' hn'
      exact ⟨m', by rw [ha.maps]; exact mem_insert_of_mem hm'⟩

lemma Removal.other {g : ℕ} {p : ℤ} {m' : Mapping} {k : File} (hr : Removal pid g m s s') (hne : (p, m') ≠ (pid, m))
    (hk : k.inMapping p m' = true) : s'.files.ino k = s.files.ino k := by
  obtain ⟨hnot, hdof⟩ := File.inMapping_other hk hne
  exact hr.kept k hnot hdof

theorem Inv.remove {g : ℕ} (h : Inv s) (hg : s.gens.lookup (pid, g) = some m) (hr : Removal pid g m s s') :
    Inv s' := by
  have hmem : ∀ p m', (p, m') ∈ s'.maps → (p, m') ≠ (pid, m) ∧ (p, m') ∈ s.maps := by
    intro p m' hm
    rw [hr.maps] at hm
    exact mem_erase.1 hm
  have hfile : ∀ p m' k, File.inMapping p m' k = true → s'.files.ino k ≠ none →
      (p, m') ≠ (pid, m) ∧ s'.files.ino k = s.files.ino k := by
    intro p m' k hk hne
    have hpm : (p, m') ≠ (pid, m) := fun heq => by
      cases heq
      exact hne (hr.gone k hk)
    exact ⟨hpm, hr.other hpm hk⟩
  have hgens : ∀ p g' m', s'.gens.lookup (p, g') = some m' →
      (p, g') ≠ (pid, g) ∧ s.gens.lookup (p, g') = some m' := by
    intro p g' m' hg'
    rw [hr.gens] at hg'
    exact lookup_erase_eq_some.1 hg'
  -- the mappings of the other generations stay
  have hstay : ∀ p g' m', s'.gens.lookup (p, g') = some m' → (p, m') ∈ s'.maps := by
    intro p g' m' hg'
    obtain ⟨hne, hg'⟩ := hgens p g' m' hg'
    rw [hr.maps, mem_erase]
    refine ⟨fun heq => hne ?_, h.gens_maps p g' m' hg'⟩
    cases heq
    rw [h.gens_inj _ _ _ _ hg' hg]
  constructor
  case linked => exact hr.linked
  case raw =>
    intro p m' i hi
    obtain ⟨hne, heq⟩ := hfile p m' _ (by simp [File.inMapping]) hi
    rw [hr.other hne (by simp [File.inMapping])]
    exact h.raw p m' i (heq ▸ hi)
  case files =>
    intro p m' k hk hne
    obtain ⟨hpm, heq⟩ := hfile p m' k hk hne
    rw [hr.maps]
    exact mem_erase.2 ⟨hpm, h.files p m' k hk (heq ▸ hne)⟩
  case dh =>
    intro p m' hm
    obtain ⟨hne, hm⟩ := hmem p m' hm
    rw [hr.other hne (by simp [File.inMapping])]
    exact h.dh p m' hm
  case parsed =>
    intro p m' name hne
    obtain ⟨hpm, heq⟩ := hfile p m' _ (by simp [File.inMapping]) hne
    rw [hr.parsed]
    exact mem_erase.2 ⟨hpm, h.parsed p m' name (heq ▸ hne)⟩
  case parsed_maps =>
    rw [hr.parsed, hr.maps]
    exact erase_subset_erase _ h.parsed_maps
  case gens_maps => exact hstay
  case maps_gens =>
    intro p m' hm
    obtain ⟨hne, hm⟩ := hmem p m' hm
    obtain ⟨g', hg'⟩ := h.maps_gens p m' hm
    refine ⟨g', ?_⟩
    rw [hr.gens, lookup_erase_eq_some]
    refine ⟨fun heq => hne ?_, hg'⟩
    rw [heq, hg] at hg'
    cases hg'
    rw [show p = pid from congrArg Prod.fst heq]
  case gens_inj =>
    intro p g1 g2 m' h1 h2
    exact h.gens_inj p g1 g2 m' (hgens _ _ _ h1).2 (hgens _ _ _ h2).2
  case gens_lt =>
    intro p g' m' hg'
    rw [hr.nextGen p (.inr ⟨m', hstay p g' m' hg'⟩)]
    exact h.gens_lt p g' m' (hgens _ _ _ hg').2
  case pids =>
    intro p m' hm
    exact hr.pids p (.inr ⟨m', hm⟩) (h.pids p m' (hmem p m' hm).2)
  case nextGen =>
    intro p n hn
    by_cases hp : p = pid
    · subst hp
      by_contra hno
      rw [hr.nextGen_none hno] at hn
      cases hn
    · rw [hr.nextGen p (.inl hp)] at hn
      obtain ⟨m', hm'⟩ := h.nextGen p n hn
      refine ⟨m', ?_⟩
      rw [hr.maps]
      exact mem_erase.2 ⟨fun heq => hp (congrArg Prod.fst heq), hm'⟩

lemma writeProbes_spec : ∀ {ps : List Probe} {s s' : St}, writeProbes pid m ps s = some s' →
    s' = { s with files := s'.files, probes := s'.probes } ∧ (Linked s.files → Linked s'.files) ∧
    (∀ k, (∀ name, k ≠ .parsed pid m name) → s'.files.ino k = s.files.ino k) ∧
    (∀ k, s.files.ino k ≠ none → s'.files.ino k ≠ none) ∧
    ∀ p ∈ ps, ∃ spec, makeProbespecName p.prov p.mod p.fn p.prb = some spec ∧
      s'.files.ino (.parsed pid m spec) ≠ none
  | [], s, s', h => by
    cases h
    exact ⟨rfl, id, fun _ _ => rfl, fun _ hk => hk, by simp⟩
  | p :: ps, s, s', h => by
    obtain ⟨_, hone, hrest⟩ := bind_eq_some_iff.1 h
    obtain ⟨spec, hspec, hone⟩ := bind_eq_some_iff.1 hone
    split at hone
    next hnone =>
      cases hone
      obtain ⟨heq, hlinked, hframe, hmono, hall⟩ := writeProbes_spec hrest
      have hself : (s.files.put (.parsed pid m spec) p.text).ino (.parsed pid m spec) = some s.files.next :=
        ino_put_of_none hnone
      refine ⟨by rw [heq], fun hl => hlinked (hl.put fun _ _ _ => nofun), fun k hk => ?_, fun k hk => ?_,
        fun q hq => ?_⟩
      · rw [hframe k hk]
        exact ino_put_of_ne (hk spec)
      · exact hmono k (ino_put_ne_none hk)
      · rcases mem_cons.1 hq with rfl | hq
        · refine ⟨spec, hspec, hmono _ ?_⟩
          simp [hself]
        · exact hall q hq
    next => cases hone

/-- What a call of `dof_stash_write_parsed` that succeeds has done. -/
structure Parsing (pid : ℤ) (m : Mapping) (s s' : St) : Prop where
  same : s' = { s with files := s'.files, probes := s'.probes, parsed := s'.parsed }
  linked : Linked s.files → Linked s'.files
  kept : ∀ k, (∀ name, k ≠ .parsed pid m name) → s'.files.ino k = s.files.ino k
  more : ∀ k, s.files.ino k ≠ none → s'.files.ino k ≠ none
  parsed : s'.parsed = s.parsed ∧ s'.files = s.files ∨ (pid, m) ∈ s.maps ∧ s'.parsed = insert (pid, m) s.parsed

lemma Parsing.frame (h : Parsing pid m s s') :
    s'.maps = s.maps ∧ s'.gens = s.gens ∧ s'.nextGen = s.nextGen ∧ s'.pids = s.pids := by
  rw [h.same]
  exact ⟨rfl, rfl, rfl, rfl⟩

lemma dofStashWriteParsed_spec (h : dofStashWriteParsed pid m vers ps s = some s') :
    Parsing pid m s s' ∧ (s.files.ino (.parsed pid m version) = none → ∀ p ∈ ps, ∃ spec,
      makeProbespecName p.prov p.mod p.fn p.prb = some spec ∧ s'.files.ino (.parsed pid m spec) ≠ none) := by
  rw [dofStashWriteParsed] at h
  split at h
  next hps =>
    cases h
    exact ⟨⟨rfl, id, fun _ _ => rfl, fun _ hk => hk, .inl ⟨rfl, rfl⟩⟩, by simp [hps]⟩
  split at h
  · cases h
  next hmap =>
    have hmap : (pid, m) ∈ s.maps := by
      by_contra hno
      exact hmap (.inr hno)
    split at h
    next hnone =>
      obtain ⟨heq, hlinked, hframe, hmono, hall⟩ := writeProbes_spec h
      refine ⟨⟨by rw [heq], fun hl => hlinked (hl.put fun _ _ _ => nofun), fun k hk => ?_, fun k hk => ?_,
        .inr ⟨hmap, by rw [heq]⟩⟩, fun _ => hall⟩
      · rw [hframe k hk]
        exact ino_put_of_ne (hk version)
      · exact hmono k (ino_put_ne_none hk)
    next hsome =>
      cases h
      exact ⟨⟨rfl, id, fun _ _ => rfl, fun _ hk => hk, .inr ⟨hmap, rfl⟩⟩, fun hnone => absurd hnone hsome⟩

theorem Inv.parse (h : Inv s) (hp : Parsing pid m s s') : Inv s' := by
  obtain ⟨hmaps, hgens, hnext, hpids⟩ := hp.frame
  have hraw : ∀ p m' i, s'.files.ino (.raw p m' i) = s.files.ino (.raw p m' i) := fun _ _ _ =>
    hp.kept _ fun _ => nofun
  have hparsed : ∀ p m' name, s'.files.ino (.parsed p m' name) ≠ none → (p, m') ∈ s'.parsed := by
    intro p m' name hne
    by_cases hname : ∀ name', File.parsed p m' name ≠ .parsed pid m name'
    · rw [hp.kept _ hname] at hne
      have hin := h.parsed p m' name hne
      rcases hp.parsed with ⟨heq, -⟩ | ⟨-, heq⟩
      · rw [heq]
        exact hin
      · rw [heq]
        exact mem_insert_of_mem hin
    · push Not at hname
      obtain ⟨name', heq⟩ := hname
      obtain ⟨rfl, rfl, rfl⟩ : p = _ ∧ m' = m ∧ name = _ := by simpa using heq
      rcases hp.parsed with ⟨heq, hfiles⟩ | ⟨-, heq⟩
      · rw [hfiles] at hne
        rw [heq]
        exact h.parsed _ _ _ hne
      · rw [heq]
        exact mem_insert_self _ _
  have hsub : s'.parsed ⊆ s'.maps := by
    rw [hmaps]
    rcases hp.parsed with ⟨heq, -⟩ | ⟨hin, heq⟩
    · rw [heq]
      exact h.parsed_maps
    · rw [heq]
      exact insert_subset hin h.parsed_maps
  constructor
  case linked => exact hp.linked h.linked
  case raw =>
    intro p m' i hi
    rw [hraw] at hi ⊢
    exact h.raw p m' i hi
  case files =>
    intro p m' k hk hne
    by_cases hname : ∃ p' n name, k = .parsed p' n name
    · obtain ⟨p', n, name, rfl⟩ := hname
      obtain ⟨rfl, rfl⟩ : _ = p ∧ n = m' := by simpa [File.inMapping] using hk
      exact hsub (hparsed _ _ _ hne)
    · rw [hp.kept k fun name hkn => hname ⟨_, _, _, hkn⟩] at hne
      rw [hmaps]
      exact h.files p m' k hk hne
  case dh =>
    intro p m' hm
    rw [hmaps] at hm
    exact hp.more _ (h.dh p m' hm)
  case parsed => exact hparsed
  case parsed_maps => exact hsub
  case gens_maps => rw [hgens, hmaps]; exact h.gens_maps
  case maps_gens => rw [hgens, hmaps]; exact h.maps_gens
  case gens_inj => rw [hgens]; exact h.gens_inj
  case gens_lt => rw [hgens, hnext]; exact h.gens_lt
  case pids => rw [hmaps, hpids]; exact h.pids
  case nextGen => rw [hmaps, hnext]; exact h.nextGen

end

/-! ## Sequences of calls -/

/-- The stash with the history of the calls. -/
structure Run where
  st : St
  /-- The processes and the generations that were returned for them. -/
  ret : List (ℤ × ℤ)
  /-- The generations that have not been removed, with the mappings they were returned for. -/
  live : List (ℤ × ℤ × Mapping)
  /-- The paths at which the probes of a mapping were linked. -/
  own : ℤ × Mapping → List (List Bytes)

def Run.init : Run := ⟨.empty, [], [], fun _ => []⟩

/-- A size as the `int` that is returned. -/
def toInt (n : ℕ) : ℤ := (BitVec.ofNat 32 n).toInt

inductive Op
  | add (pid : ℤ) (m : Mapping) (data : List Block) (exec : Mapping) (dh : Bytes)
  | parse (pid : ℤ) (m : Mapping) (vers : Bytes) (ps : List Probe)
  | remove (pid gen : ℤ)

def Probe.path (pid : ℤ) (p : Probe) : List Bytes := writtenPath pid p.prov p.mod p.fn p.prb

def Op.step (r : Run) : Op → Option Run
  | .add pid m data exec dh =>
    match dofStashAdd noFault pid m data exec dh r.st with
    | (.gen n, s') =>
      if toInt n < 0 then none
      else some {
        st := s'
        ret := (pid, toInt n) :: r.ret
        live := (pid, toInt n, m) :: r.live
        own := update r.own (pid, m) [] }
    | _ => none
  | .parse pid m vers ps =>
    (dofStashWriteParsed pid m vers ps r.st).map fun s' =>
      { r with
        st := s'
        own := if r.st.files.ino (.parsed pid m version) = none then
          update r.own (pid, m) (r.own (pid, m) ++ ps.map (Probe.path pid)) else r.own }
  | .remove pid gen =>
    match dofStashRemove pid gen r.st with
    | (true, s') => some { r with st := s', live := r.live.filter fun e => ¬(e.1 = pid ∧ e.2.1 = gen) }
    | (false, _) => none

/-- The counter is within an `int`, and there is a mapping of the process, or there never was one.  There are no
colons in the parts of a probe's name but the last. -/
def Op.Allowed (r : Run) : Op → Prop
  | .add pid .. => (r.st.nextGen.lookup pid).getD 0 < 2 ^ 31 ∧
      ((∀ g, (pid, g) ∉ r.ret) ∨ ∃ g m, (pid, g, m) ∈ r.live)
  | .parse _ _ _ ps => ∀ p ∈ ps, colon ∉ p.prov ∧ colon ∉ p.mod ∧ colon ∉ p.fn
  | .remove .. => True

/-- The states that sequences of such calls lead to. -/
inductive Reach : Run → Prop
  | init : Reach .init
  | step {r r' : Run} (op : Op) (h : Reach r) (hop : op.Allowed r) (hstep : op.step r = some r') : Reach r'

/-- The generation has been removed with its mapping, and the other mappings have all they had. -/
structure Exact (pid gen : ℤ) (r r' : Run) : Prop where
  unknown : (∀ m, (pid, gen, m) ∉ r.live) → r'.st = r.st
  gone : ∀ m, (pid, gen, m) ∈ r.live → (pid, m) ∉ r'.st.maps ∧ r'.st.genLink pid gen = none ∧
    (∀ k : File, k.inMapping pid m = true → r'.st.files.content k = none) ∧
    ∀ path ∈ r.own (pid, m), path ∉ r'.st.probes
  others : ∀ p g m, (p, g, m) ∈ r.live → (p, g) ≠ (pid, gen) → (p, m) ∈ r'.st.maps ∧ r'.st.genLink p g = some m ∧
    (∀ k : File, k.inMapping p m = true → r'.st.files.content k = r.st.files.content k) ∧
    ∀ i c, r.st.files.content (.raw p m i) = some c → r'.st.files.content (.dof m i) = some c

/-- What holds of a run. -/
structure RunInv (r : Run) : Prop where
  inv : Inv r.st
  nodup : r.ret.Nodup
  ret_lt : ∀ p g, (p, g) ∈ r.ret → ∀ n, r.st.nextGen.lookup p = some n → g < n
  live : ∀ p g m, (p, g, m) ∈ r.live ↔ r.st.genLink p g = some m
  own : ∀ p m path, (p, m) ∈ r.st.maps → path ∈ r.own (p, m) →
    ∃ name, name ≠ version ∧ r.st.files.ino (.parsed p m name) ≠ none ∧ removedPath p name = some path

section

variable {r r' : Run} {gen p g : ℤ} {m' : Mapping} {s s' : St}

lemma toInt_of_lt (h : n < 2 ^ 31) : toInt n = n := by
  rw [toInt, BitVec.toInt_eq_toNat_of_lt]
  · rw [BitVec.toNat_ofNat, Nat.mod_eq_of_lt (by omega)]
  · rw [BitVec.toNat_ofNat, Nat.mod_eq_of_lt (by omega)]
    omega

lemma genLink_eq_some : s.genLink p g = some m ↔ 0 ≤ g ∧ s.gens.lookup (p, g.toNat) = some m := by
  rw [St.genLink]
  split <;> simp_all

theorem RunInv.add (h : RunInv r) (ha : Addition pid n m r.st s') (hn : (r.st.nextGen.lookup pid).getD 0 < 2 ^ 31)
    (hfirst : (∀ g, (pid, g) ∉ r.ret) ∨ ∃ g m, (pid, g, m) ∈ r.live) :
    RunInv {
      st := s'
      ret := (pid, toInt n) :: r.ret
      live := (pid, toInt n, m) :: r.live
      own := update r.own (pid, m) [] } := by
  rw [← ha.size] at hn
  rw [toInt_of_lt hn]
  -- the counter is ahead of all that was returned
  have hlt : ∀ g, (pid, g) ∈ r.ret → g < n := by
    intro g hg
    rcases hfirst with hno | ⟨_, m', hlive⟩
    · exact absurd hg (hno g)
    · obtain ⟨-, hlink⟩ := genLink_eq_some.1 ((h.live _ _ _).1 hlive)
      obtain ⟨n', hn', -⟩ := h.inv.gens_lt _ _ _ hlink
      have := h.ret_lt pid g hg n' hn'
      rw [ha.size, hn', getD_some]
      exact this
  constructor
  case inv => exact h.inv.add ha
  case nodup =>
    refine nodup_cons.2 ⟨fun hin => ?_, h.nodup⟩
    have := hlt _ hin
    omega
  case ret_lt =>
    intro p g hg n' hn'
    by_cases hp : p = pid
    · subst hp
      rw [ha.nextGen] at hn'
      cases hn'
      rcases mem_cons.1 hg with heq | hg
      · cases heq
        push_cast
        omega
      · have := hlt g hg
        push_cast
        omega
    · rw [ha.nextGen_ne p hp] at hn'
      rcases mem_cons.1 hg with heq | hg
      · exact absurd (congrArg Prod.fst heq) hp
      · exact h.ret_lt p g hg n' hn'
  case live =>
    intro p g m'
    rw [List.mem_cons, h.live, genLink_eq_some, genLink_eq_some, ha.gens]
    by_cases hpg : (p, g.toNat) = (pid, n)
    · obtain ⟨rfl, hgn⟩ := Prod.mk.injEq .. ▸ hpg
      rw [hgn, AList.lookup_insert, ha.free]
      constructor
      · rintro (heq | ⟨-, hno⟩)
        · cases heq
          exact ⟨by omega, rfl⟩
        · cases hno
      · rintro ⟨hg, hm⟩
        cases hm
        have : g = n := by omega
        exact .inl (by rw [this])
    · rw [AList.lookup_insert_ne hpg]
      refine or_iff_right fun heq => hpg ?_
      cases heq
      simp
  case own =>
    intro p m' path (hm : (p, m') ∈ s'.maps) (hpath : path ∈ update r.own (pid, m) [] (p, m'))
    by_cases hpm : (p, m') = (pid, m)
    · rw [hpm, update_self] at hpath
      cases hpath
    · rw [update_of_ne hpm] at hpath
      rw [ha.maps, mem_insert, or_iff_right hpm] at hm
      obtain ⟨name, hv, hne, hp⟩ := h.own p m' path hm hpath
      refine ⟨name, hv, ?_, hp⟩
      rwa [ha.kept (.parsed p m' name) (fun _ => nofun) (fun _ => nofun) nofun]

theorem RunInv.parse (h : RunInv r) (hparse : dofStashWriteParsed pid m vers ps r.st = some s')
    (hps : ∀ p ∈ ps, colon ∉ p.prov ∧ colon ∉ p.mod ∧ colon ∉ p.fn) :
    RunInv { r with
      st := s'
      own := if r.st.files.ino (.parsed pid m version) = none then
        update r.own (pid, m) (r.own (pid, m) ++ ps.map (Probe.path pid)) else r.own } := by
  obtain ⟨hp, hwritten⟩ := dofStashWriteParsed_spec hparse
  obtain ⟨hmaps, hgens, hnext, -⟩ := hp.frame
  have hold : ∀ p m' path, (p, m') ∈ s'.maps → path ∈ r.own (p, m') →
      ∃ name, name ≠ version ∧ s'.files.ino (.parsed p m' name) ≠ none ∧ removedPath p name = some path := by
    intro p m' path hm hpath
    obtain ⟨name, hv, hne, hr⟩ := h.own p m' path (hmaps ▸ hm) hpath
    exact ⟨name, hv, hp.more _ hne, hr⟩
  constructor
  case inv => exact h.inv.parse hp
  case nodup => exact h.nodup
  case ret_lt =>
    intro p g hg n hn
    exact h.ret_lt p g hg n (hnext ▸ hn)
  case live =>
    intro p g m'
    rw [h.live, genLink_eq_some, genLink_eq_some, hgens]
  case own =>
    intro p m' path (hm : (p, m') ∈ s'.maps) hpath
    dsimp only at hpath ⊢
    split at hpath
    next hnone =>
      by_cases hpm : (p, m') = (pid, m)
      · obtain ⟨rfl, rfl⟩ := Prod.mk.injEq .. ▸ hpm
        rw [update_self, mem_append, List.mem_map] at hpath
        rcases hpath with hpath | ⟨q, hq, rfl⟩
        · exact hold p m' path hm hpath
        · obtain ⟨spec, hspec, hne⟩ := hwritten hnone q hq
          obtain ⟨hprov, hmod, hfn⟩ := hps q hq
          refine ⟨spec, ?_, hne, removedPath_make hspec hprov hmod hfn p⟩
          -- there is a colon in the name
          rintro rfl
          have hcolon : colon ∈ version := by
            rw [makeProbespecName_eq hspec]
            simp
          exact absurd hcolon (by decide)
      · rw [update_of_ne hpm] at hpath
        exact hold p m' path hm hpath
    next => exact hold p m' path hm hpath

lemma dofStashRemove_unknown (hlink : s.genLink pid gen = none) (h : dofStashRemove pid gen s = (true, s')) :
    s' = s := by
  rw [dofStashRemove, hlink] at h
  split at h
  · exact (congrArg Prod.snd h).symm
  · exact (congrArg Prod.snd h).symm

lemma RunInv.exact (h : RunInv r) (hrm : dofStashRemove pid gen r.st = (true, s'))
    (hr' : r'.st = s') : Exact pid gen r r' := by
  subst hr'
  constructor
  case unknown =>
    intro hno
    refine dofStashRemove_unknown ?_ hrm
    rcases hlink : r.st.genLink pid gen with _ | m
    · rfl
    · exact absurd ((h.live _ _ _).2 hlink) (hno m)
  case gone =>
    intro m hlive
    have hlink := (h.live _ _ _).1 hlive
    have hr := dofStashRemove_spec h.inv hlink hrm
    have hm := h.inv.gens_maps _ _ _ (genLink_eq_some.1 hlink).2
    refine ⟨?_, ?_, fun k hk => content_eq_none_iff.2 (hr.gone k hk), fun path hpath => ?_⟩
    · rw [hr.maps]
      exact notMem_erase _ _
    · rw [St.genLink, hr.gens]
      split
      · exact AList.lookup_erase _ _
      · rfl
    · obtain ⟨name, hv, hne, hp⟩ := h.own pid m path hm hpath
      exact hr.paths name hne hv path hp
  case others =>
    intro p g m' hlive hne
    have hg' := genLink_eq_some.1 ((h.live _ _ _).1 hlive)
    have hm' := h.inv.gens_maps _ _ _ hg'.2
    have hlinked : ∀ i c, r.st.files.content (.raw p m' i) = some c → r.st.files.content (.dof m' i) = some c := by
      intro i c hc
      obtain ⟨j, hj, rfl⟩ := map_eq_some_iff.1 hc
      exact content_of_ino (h.inv.linked.raw p m' i j hj)
    rcases hlink : r.st.genLink pid gen with _ | m
    · rw [dofStashRemove_unknown hlink hrm]
      exact ⟨hm', (h.live _ _ _).1 hlive, fun _ _ => rfl, hlinked⟩
    have hr := dofStashRemove_spec h.inv hlink hrm
    have hg := genLink_eq_some.1 hlink
    have hgne : (p, g.toNat) ≠ (pid, gen.toNat) := by
      intro heq
      obtain ⟨hp, hgen⟩ := Prod.mk.injEq .. ▸ heq
      have hgen : g = gen := by omega
      exact hne (by rw [hp, hgen])
    -- two generations of one process are of two mappings
    have hmne : (p, m') ≠ (pid, m) := by
      intro heq
      cases heq
      have := h.inv.gens_inj _ _ _ _ hg'.2 hg.2
      exact hgne (by rw [this])
    have hcontent : ∀ k, r'.st.files.ino k = r.st.files.ino k → r'.st.files.content k = r.st.files.content k := by
      intro k hk
      rw [Files.content, Files.content, hk, hr.disk]
    refine ⟨?_, ?_, fun k hk => hcontent k (hr.other hmne hk), fun i c hc => ?_⟩
    · rw [hr.maps]
      exact mem_erase.2 ⟨hmne, hm'⟩
    · rw [genLink_eq_some, hr.gens, AList.lookup_erase_ne hgne]
      exact hg'
    · rw [hcontent]
      · exact hlinked i c hc
      · by_cases hmm : m' = m
        · subst hmm
          refine (hr.dof i).resolve_right fun hno => ?_
          have hp : p ≠ pid := fun heq => hmne (by rw [heq])
          rw [Files.content, hno.2 p hp] at hc
          cases hc
        · exact hr.kept _ rfl fun j hj => hmm (by injection hj)

theorem RunInv.remove (h : RunInv r) (hrm : dofStashRemove pid gen r.st = (true, s')) :
    RunInv { r with st := s', live := r.live.filter fun e => ¬(e.1 = pid ∧ e.2.1 = gen) } := by
  have hexact : Exact pid gen r { r with st := s' } := h.exact hrm rfl
  have hmem : ∀ p g m', (p, g, m') ∈ r.live.filter (fun e => ¬(e.1 = pid ∧ e.2.1 = gen)) ↔
      (p, g, m') ∈ r.live ∧ (p, g) ≠ (pid, gen) := by
    intro p g m'
    rw [mem_filter, decide_eq_true_iff, Ne, Prod.mk.injEq]
  rcases hlink : r.st.genLink pid gen with _ | m
  · obtain rfl := dofStashRemove_unknown hlink hrm
    refine ⟨h.inv, h.nodup, h.ret_lt, fun p g m' => ?_, h.own⟩
    rw [hmem, h.live]
    refine and_iff_left_of_imp fun hg heq => ?_
    cases heq
    rw [hlink] at hg
    cases hg
  have hr := dofStashRemove_spec h.inv hlink hrm
  have hg := genLink_eq_some.1 hlink
  constructor
  case inv => exact h.inv.remove hg.2 hr
  case nodup => exact h.nodup
  case ret_lt =>
    intro p g hret n (hn : s'.nextGen.lookup p = some n)
    refine h.ret_lt p g hret n ?_
    rw [← hr.nextGen p]
    · exact hn
    · by_contra hno
      push Not at hno
      obtain ⟨rfl, hnone⟩ := hno
      rw [hr.nextGen_none fun ⟨m', hm'⟩ => hnone m' hm'] at hn
      cases hn
  case live =>
    intro p g m'
    rw [hmem]
    constructor
    · rintro ⟨hlive, hne⟩
      exact (hexact.others p g m' hlive hne).2.1
    · intro hg'
      have hg' := genLink_eq_some.1 hg'
      rw [hr.gens, lookup_erase_eq_some] at hg'
      refine ⟨(h.live _ _ _).2 (genLink_eq_some.2 ⟨hg'.1, hg'.2.2⟩), fun heq => hg'.2.1 ?_⟩
      cases heq
      rfl
  case own =>
    intro p m' path (hm : (p, m') ∈ s'.maps) hpath
    rw [hr.maps] at hm
    obtain ⟨hne, hm⟩ := mem_erase.1 hm
    obtain ⟨name, hv, hname, hp⟩ := h.own p m' path hm hpath
    refine ⟨name, hv, ?_, hp⟩
    rw [hr.other hne (by simp [File.inMapping])]
    exact hname

theorem RunInv.step (h : RunInv r) (op : Op) (hop : op.Allowed r) (hstep : op.step r = some r') : RunInv r' := by
  rcases op with ⟨pid, m, _, _, _⟩ | ⟨pid, m, _, _⟩ | ⟨_, _⟩
  · rw [Op.step] at hstep
    split at hstep
    next n s' hadd =>
      split at hstep
      · cases hstep
      · cases hstep
        exact h.add (dofStashAdd_gen hadd) hop.1 hop.2
    next => cases hstep
  · obtain ⟨s', hparse, rfl⟩ := map_eq_some_iff.1 hstep
    exact h.parse hparse hop
  · rw [Op.step] at hstep
    split at hstep
    next s' hrm =>
      cases hstep
      exact h.remove hrm
    next => cases hstep

theorem Reach.inv (h : Reach r) : RunInv r := by
  induction h with
  | init =>
    refine ⟨inv_empty, nodup_nil, nofun, fun p g m => ?_, fun _ _ _ hm => absurd hm (notMem_empty _)⟩
    rw [genLink_eq_some]
    exact ⟨nofun, fun h => absurd h.2 nofun⟩
  | step op _ hop hstep ih => exact ih.step op hop hstep

/-- In every sequence of such calls, the generations returned for a process differ, and a generation that is removed
next goes with its mapping and with nothing else. -/
theorem generations (h : Reach r) :
    r.ret.Nodup ∧ ∀ pid gen r', (Op.remove pid gen).step r = some r' → Exact pid gen r r' := by
  refine ⟨h.inv.nodup, fun pid gen r' hstep => ?_⟩
  rw [Op.step] at hstep
  split at hstep
  next s' hrm =>
    cases hstep
    exact h.inv.exact hrm rfl
  next => cases hstep

end

lemma eq_some_getD {o : Option Run} (h : o.isSome = true) : o = some (o.getD .init) := by
  obtain ⟨r, rfl⟩ := Option.isSome_iff_exists.1 h
  rfl

/-- Two mappings of a process; the first is removed. -/
theorem generations_two : let first := ((Op.add 7 (1, 2) [⟨16, [1]⟩] (3, 4) []).step .init).getD .init
    let second := ((Op.add 7 (1, 3) [⟨16, [1]⟩] (3, 4) []).step first).getD .init
    let third := ((Op.remove 7 0).step second).getD .init
    second.ret = [(7, 1), (7, 0)] ∧ second.ret.Nodup ∧ Exact 7 0 second third := by
  intro first second third
  have hreach : Reach second := by
    refine (Reach.init.step (.add 7 (1, 2) [⟨16, [1]⟩] (3, 4) []) ?_ (eq_some_getD ?_)).step
      (.add 7 (1, 3) [⟨16, [1]⟩] (3, 4) []) ?_ (eq_some_getD ?_)
    · exact ⟨by decide +kernel, .inl fun _ => nofun⟩
    · decide +kernel
    · exact ⟨by decide +kernel, .inr ⟨0, (1, 2), by decide +kernel⟩⟩
    · decide +kernel
  refine ⟨by decide +kernel, (generations hreach).1, (generations hreach).2 7 0 third (eq_some_getD ?_)⟩
  decide +kernel

/-- What holds of the stash between calls holds after any sequence of them. -/
theorem Reach.consistent {r : Run} (h : Reach r) : Inv r.st := h.inv.inv

/-- A mapping is added, its parsed data with one probe are written, and it is removed. -/
theorem consistent_add : let first := ((Op.add 7 (1, 2) [⟨16, [1]⟩] (3, 4) []).step .init).getD .init
    let second := ((Op.parse 7 (1, 2) [1] [⟨[112], [109], [102], [98], [5]⟩]).step first).getD .init
    let third := ((Op.remove 7 0).step second).getD .init
    second.st.probes ≠ ∅ ∧ Inv second.st ∧ third.st.probes = ∅ ∧ Inv third.st := by
  intro first second third
  have hfirst : Reach first := Reach.init.step (.add 7 (1, 2) [⟨16, [1]⟩] (3, 4) [])
    ⟨by decide +kernel, .inl fun _ => nofun⟩ (eq_some_getD (by decide +kernel))
  have hsecond : Reach second := hfirst.step (.parse 7 (1, 2) [1] [⟨[112], [109], [102], [98], [5]⟩])
    (List.forall_mem_singleton.2 (by decide)) (eq_some_getD (by decide +kernel))
  have hthird : Reach third := hsecond.step (.remove 7 0) trivial (eq_some_getD (by decide +kernel))
  exact ⟨by decide +kernel, hsecond.consistent, by decide +kernel, hthird.consistent⟩

/-- The first generation again, once the only mapping of a process has been removed. -/
theorem generation_again :
    ((((Op.add 7 (1, 2) [⟨16, [1]⟩] (3, 4) []).step .init).bind fun r => (Op.remove 7 0).step r).bind fun r =>
      (Op.add 7 (1, 2) [⟨16, [1]⟩] (3, 4) []).step r).map Run.ret = some [(7, 0), (7, 0)] := by
  decide +kernel

end DTrace.Stash
