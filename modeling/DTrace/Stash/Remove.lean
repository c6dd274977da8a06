import DTrace.Stash.Add
import DTrace.Stash.Names

/-!
# Parsed data, and removing from the stash

A generation is removed by following its link to the mapping.  Raw data is shared by the processes that have the
mapping: it goes when its link count says that no process has it any more.

* `dofStashWriteParsed` — the probes of a mapping, as files and as links;
* `dofStashRemove` — a generation taken away;
* `Inv` — what holds of the stash between calls;
* `dofStashRemove_spec` — what is left of it;
* `reparseDof` — all is parsed again, if only what is out of date was meant as well.
-/

namespace DTrace.Stash

open Lib Files Finset

/-- A probe with what is written about it. -/
structure Probe where
  prov : Bytes
  mod : Bytes
  fn : Bytes
  prb : Bytes
  text : Bytes

/-- The name `version`. -/
def version : Bytes := [118, 101, 114, 115, 105, 111, 110]

section

variable (pid : ℤ) (m : Mapping)

/-- A probe in `dof_stash_write_parsed`: a file that must be new, and a link that need not be. -/
def writeProbe (p : Probe) (s : St) : Option St :=
  (makeProbespecName p.prov p.mod p.fn p.prb).bind fun spec =>
    if s.files.ino (.parsed pid m spec) = none then
      some { s with
        files := s.files.put (.parsed pid m spec) p.text
        probes := insert (writtenPath pid p.prov p.mod p.fn p.prb) s.probes }
    else none

def writeProbes : List Probe → St → Option St
  | [], s => some s
  | p :: ps, s => (writeProbe pid m p s).bind (writeProbes ps)

/-- `dof_stash_write_parsed`, where it succeeds.  If there is a file `version`, the mapping has been seen before. -/
def dofStashWriteParsed (vers : Bytes) (ps : List Probe) (s : St) : Option St :=
  if ps = [] then some s
  else if pid ∉ s.pids ∨ (pid, m) ∉ s.maps then none
  else if s.files.ino (.parsed pid m version) = none then
    writeProbes pid m ps { s with
      parsed := insert (pid, m) s.parsed
      files := s.files.put (.parsed pid m version) vers }
  else some { s with parsed := insert (pid, m) s.parsed }

/-- The names in the directory `parsed`. -/
def parsedNames (f : Files File) : List Bytes :=
  f.links.keys.filterMap fun
    | .parsed p n name => if p = pid ∧ n = m then some name else none
    | _ => none

/-- An entry in `dof_stash_remove_parsed`. -/
def removeParsedFile (s : St) (name : Bytes) : St :=
  let s := { s with files := s.files.unlink (.parsed pid m name) }
  if name = version then s
  else
    match removedPath pid name with
    | some path => { s with probes := s.probes.erase path }
    | none => s

def dofStashRemoveParsed (s : St) : St :=
  if (pid, m) ∈ s.parsed then (parsedNames pid m s.files).foldl (removeParsedFile pid m) s else s

/-- `unlinkat` of the directory `parsed`. -/
def rmParsed (s : St) : St :=
  if parsedNames pid m s.files = [] then { s with parsed := s.parsed.erase (pid, m) } else s

end

variable {κ : Type}

section

variable [DecidableEq κ]

/-- `usdt_data_apply` with a block that leads to itself: the files are visited up to the first that is not there. -/
def partsLoop (nm : ℕ → κ) (visit : ℕ → κ → Files κ → Files κ) : ℕ → ℕ → Files κ → Files κ
  | 0, _, f => f
  | fuel + 1, i, f =>
    match f.ino (nm i) with
    | none => f
    | some j => partsLoop nm visit fuel (i + 1) (visit j (nm i) f)

def removeRawFile (_ : ℕ) (k : κ) (f : Files κ) : Files κ := f.unlink k

def refcountCleanupFile (j : ℕ) (k : κ) (f : Files κ) : Files κ := if f.nlink j = 1 then f.unlink k else f

/-- As many files as there are names, and one more. -/
def parts (nm : ℕ → κ) (visit : ℕ → κ → Files κ → Files κ) (f : Files κ) : Files κ :=
  partsLoop nm visit (f.links.entries.length + 1) 0 f

end

def St.genLink (s : St) (pid gen : ℤ) : Option Mapping := if 0 ≤ gen then s.gens.lookup (pid, gen.toNat) else none

/-- The end of `dof_stash_remove`, when the last mapping of a process has gone. -/
def cleanPid (pid : ℤ) (s : St) : Bool × St :=
  if ∃ d ∈ s.maps, d.1 = pid then (true, s)
  else if s.nextGen.lookup pid = none then (false, s)
  else (true, { s with
    nextGen := s.nextGen.erase pid
    execMapping := s.execMapping.erase pid }.rmPid pid)

/-- The directory of a mapping, with all that is in it. -/
def removeMapping (pid : ℤ) (m : Mapping) (s : St) : St :=
  let s := { s with files := parts (File.raw pid m) removeRawFile s.files }
  let s := rmParsed pid m (dofStashRemoveParsed pid m s)
  let s := { s with files := s.files.unlink (.dh pid m) }
  s.rmMapping pid m

/-- `dof_stash_remove`: whether it succeeds, and the stash after it. -/
def dofStashRemove (pid gen : ℤ) (s : St) : Bool × St :=
  if pid ∉ s.pids then (true, s)
  else
    match s.genLink pid gen with
    | none => (true, s)
    | some m =>
      if (pid, m) ∉ s.maps then (false, s)
      else if s.files.ino (.dof m 0) = none then (false, s)
      else
        let s := removeMapping pid m s
        let s := { s with gens := s.gens.erase (pid, gen.toNat) }
        let s := { s with files := parts (File.dof m) refcountCleanupFile s.files }
        cleanPid pid s

/-! ## What holds between calls -/

/-- Raw data is linked to what it is named after, and to nothing else. -/
structure Linked (f : Files File) : Prop where
  raw : ∀ p m i j, f.ino (.raw p m i) = some j → f.ino (.dof m i) = some j
  only : ∀ k m i j, f.ino k = some j → f.ino (.dof m i) = some j → k = .dof m i ∨ ∃ p, k = .raw p m i

/-- What holds of the stash between calls. -/
structure Inv (s : St) : Prop where
  linked : Linked s.files
  /-- Raw data is numbered without gaps. -/
  raw : ∀ p m i, s.files.ino (.raw p m (i + 1)) ≠ none → s.files.ino (.raw p m i) ≠ none
  files : ∀ p m k, File.inMapping p m k = true → s.files.ino k ≠ none → (p, m) ∈ s.maps
  dh : ∀ p m, (p, m) ∈ s.maps → s.files.ino (.dh p m) ≠ none
  parsed : ∀ p m name, s.files.ino (.parsed p m name) ≠ none → (p, m) ∈ s.parsed
  parsed_maps : s.parsed ⊆ s.maps
  /-- The links of generations lead to the mappings, one to each. -/
  gens_maps : ∀ p g m, s.gens.lookup (p, g) = some m → (p, m) ∈ s.maps
  maps_gens : ∀ p m, (p, m) ∈ s.maps → ∃ g, s.gens.lookup (p, g) = some m
  gens_inj : ∀ p g g' m, s.gens.lookup (p, g) = some m → s.gens.lookup (p, g') = some m → g = g'
  gens_lt : ∀ p g m, s.gens.lookup (p, g) = some m → ∃ n, s.nextGen.lookup p = some n ∧ g < n
  pids : ∀ p m, (p, m) ∈ s.maps → p ∈ s.pids
  nextGen : ∀ p n, s.nextGen.lookup p = some n → ∃ m, (p, m) ∈ s.maps

lemma inv_empty : Inv .empty where
  linked := ⟨nofun, nofun⟩
  raw := fun _ _ _ h => absurd rfl h
  files := fun _ _ _ _ h => absurd rfl h
  dh := fun _ _ h => absurd h (notMem_empty _)
  parsed := fun _ _ _ h => absurd rfl h
  parsed_maps := subset_rfl
  gens_maps := nofun
  maps_gens := fun _ _ h => absurd h (notMem_empty _)
  gens_inj := nofun
  gens_lt := nofun
  pids := fun _ _ h => absurd h (notMem_empty _)
  nextGen := nofun

namespace Linked

variable {f f' : Files File} {k : File} {bs : Bytes} {p : ℤ} {m : Mapping} {i : ℕ}

lemma put (h : Linked f) (hk : ∀ p m i, k ≠ .raw p m i) : Linked (f.put k bs) := by
  rcases hino : f.ino k with _ | j
  · have hself : (f.put k bs).ino k = some f.next := ino_put_of_none hino
    have hold : ∀ k' j, f.ino k' = some j → j ≠ f.next := fun k' j hj heq => absurd (f.fresh k' j hj) (by omega)
    constructor
    · intro p m i j hj
      rw [ino_put_of_ne (hk p m i).symm] at hj
      have hdof := h.raw p m i j hj
      have hne : File.dof m i ≠ k := by
        rintro rfl
        rw [hino] at hdof
        cases hdof
      rwa [ino_put_of_ne hne]
    · intro k' m i j hk' hdof
      by_cases hkk : k' = k
      · subst hkk
        obtain rfl := Option.mem_unique hself hk'
        by_cases hd : File.dof m i = k'
        · exact .inl hd.symm
        · rw [ino_put_of_ne hd] at hdof
          exact absurd rfl (hold _ _ hdof)
      · rw [ino_put_of_ne hkk] at hk'
        by_cases hd : File.dof m i = k
        · rw [hd, hself] at hdof
          exact absurd (Option.some.inj hdof).symm (hold _ _ hk')
        · rw [ino_put_of_ne hd] at hdof
          exact h.only k' m i j hk' hdof
  · have hsame : ∀ k', (f.put k bs).ino k' = f.ino k' := by
      intro k'
      by_cases hkk : k' = k
      · rw [hkk, ino_put_of_some hino, hino]
      · exact ino_put_of_ne hkk
    exact ⟨fun p m i j => by simpa only [hsame] using h.raw p m i j,
      fun k' m i j => by simpa only [hsame] using h.only k' m i j⟩

lemma link (h : Linked f) (hlink : f.link (.dof m i) (.raw p m i) = some f') : Linked f' := by
  obtain ⟨j, hdof, -, hself, hother, -⟩ := of_link_eq_some hlink
  have hdofs : ∀ m' i', f'.ino (.dof m' i') = f.ino (.dof m' i') := fun m' i' => hother _ nofun
  constructor
  · intro p' m' i' j' hj'
    rw [hdofs]
    by_cases heq : File.raw p' m' i' = .raw p m i
    · obtain ⟨rfl, rfl, rfl⟩ : p' = p ∧ m' = m ∧ i' = i := by simpa using heq
      rw [hself] at hj'
      rw [hdof, hj']
    · rw [hother _ heq] at hj'
      exact h.raw p' m' i' j' hj'
  · intro k m' i' j' hk hdof'
    rw [hdofs] at hdof'
    by_cases heq : k = .raw p m i
    · subst heq
      rw [hself] at hk
      cases hk
      rcases h.only (.dof m i) m' i' j hdof hdof' with hsame | ⟨_, hp'⟩
      · obtain ⟨rfl, rfl⟩ : m = m' ∧ i = i' := by simpa using hsame
        exact .inr ⟨p, rfl⟩
      · cases hp'
    · rw [hother k heq] at hk
      exact h.only k m' i' j' hk hdof'

/-- A name is taken away.  Raw data that is taken away has no links. -/
lemma unlink (h : Linked f) (hk : ∀ m i, k = .dof m i → ∀ p, f.ino (.raw p m i) = none) : Linked (f.unlink k) := by
  have hsome : ∀ k' j, (f.unlink k).ino k' = some j → k' ≠ k ∧ f.ino k' = some j := by
    intro k' j hj
    have hne : k' ≠ k := by
      rintro rfl
      rw [ino_unlink_self] at hj
      cases hj
    exact ⟨hne, by rwa [ino_unlink_of_ne hne] at hj⟩
  constructor
  · intro p m i j hj
    obtain ⟨-, hj⟩ := hsome _ _ hj
    rw [ino_unlink_of_ne fun hd => ?_]
    · exact h.raw p m i j hj
    · rw [hk m i hd.symm p] at hj
      cases hj
  · intro k' m i j hk' hdof
    exact h.only k' m i j (hsome _ _ hk').2 (hsome _ _ hdof).2

lemma of_less (h : Linked f) (hless : ∀ k, f'.ino k = f.ino k ∨ f'.ino k = none)
    (hdof : ∀ m i, f'.ino (.dof m i) = f.ino (.dof m i)) : Linked f' := by
  have hsome : ∀ k j, f'.ino k = some j → f.ino k = some j := by
    intro k j hj
    rcases hless k with heq | hnone
    · exact heq ▸ hj
    · rw [hnone] at hj
      cases hj
  exact ⟨fun p m i j hj => by rw [hdof]; exact h.raw p m i j (hsome _ _ hj),
    fun k m i j hk hd => h.only k m i j (hsome _ _ hk) (hsome _ _ hd)⟩

end Linked

/-! ## The files that a removal visits -/

section

variable [DecidableEq κ] {nm : ℕ → κ}

/-- The loop removes what it finds, up to the first file that is not there. -/
lemma partsLoop_raw (hnm : Function.Injective nm) : ∀ (fuel i : ℕ) (f : Files κ),
    let f' := partsLoop nm removeRawFile fuel i f
    f'.disk = f.disk ∧ (∀ k, f'.ino k = f.ino k ∨ f'.ino k = none ∧ ∃ j, k = nm j) ∧
    ∃ n, i ≤ n ∧ (∀ j, i ≤ j → j < n → f'.ino (nm j) = none ∧ f.ino (nm j) ≠ none) ∧
      (f.ino (nm n) = none ∨ n = i + fuel)
  | 0, i, f => ⟨rfl, fun _ => .inl rfl, i, le_refl i, fun j hj hj' => by omega, .inr rfl⟩
  | fuel + 1, i, f => by
    rw [partsLoop]
    rcases hino : f.ino (nm i) with _ | j
    · exact ⟨rfl, fun _ => .inl rfl, i, le_refl i, fun j hj hj' => by omega, .inl hino⟩
    obtain ⟨hdisk, hframe, n, hn, hgone, hend⟩ := partsLoop_raw hnm fuel (i + 1) (f.unlink (nm i))
    have hother : ∀ j, i < j → (f.unlink (nm i)).ino (nm j) = f.ino (nm j) := fun j hj =>
      ino_unlink_of_ne fun h => absurd (hnm h) (by omega)
    refine ⟨hdisk, fun k => ?_, n, by omega, fun j' hj hj' => ?_, ?_⟩
    · by_cases hk : k = nm i
      · subst hk
        have hself : (f.unlink (nm i)).ino (nm i) = none := ino_unlink_self
        refine .inr ⟨?_, i, rfl⟩
        rcases hframe (nm i) with h | h
        · exact h.trans hself
        · exact h.1
      · have hk' : (f.unlink (nm i)).ino k = f.ino k := ino_unlink_of_ne hk
        rw [← hk']
        exact hframe k
    · by_cases h : j' = i
      · subst h
        have hself : (f.unlink (nm j')).ino (nm j') = none := ino_unlink_self
        refine ⟨?_, by simp [hino]⟩
        rcases hframe (nm j') with h | h
        · exact h.trans hself
        · exact h.1
      · obtain ⟨hnone, hne⟩ := hgone j' (by omega) hj'
        exact ⟨hnone, by rwa [hother j' (by omega)] at hne⟩
    · rcases hend with h | h
      · exact .inl (by rwa [hother n (by omega)] at h)
      · exact .inr (by omega)

lemma parts_raw (hnm : Function.Injective nm) (f : Files κ)
    (hgaps : ∀ i, f.ino (nm (i + 1)) ≠ none → f.ino (nm i) ≠ none) :
    (parts nm removeRawFile f).disk = f.disk ∧ (∀ j, (parts nm removeRawFile f).ino (nm j) = none) ∧
      ∀ k, (∀ j, k ≠ nm j) → (parts nm removeRawFile f).ino k = f.ino k := by
  obtain ⟨hdisk, hframe, n, -, hgone, hend⟩ := partsLoop_raw hnm (f.links.entries.length + 1) 0 f
  have hn : n ≤ f.links.entries.length := le_links hnm fun j hj hnone =>
    (hgone j (Nat.zero_le j) hj).2 (content_eq_none_iff.1 hnone)
  have hfirst : f.ino (nm n) = none := hend.resolve_right (by omega)
  have hrest : ∀ j, n ≤ j → f.ino (nm j) = none := by
    intro j hj
    induction j, hj using Nat.le_induction with
    | base => exact hfirst
    | succ j _ ih => exact not_not.1 fun hne => hgaps j hne ih
  refine ⟨hdisk, fun j => ?_, fun k hk => ?_⟩
  · rcases Nat.lt_or_ge j n with hj | hj
    · exact (hgone j (Nat.zero_le j) hj).1
    · rcases hframe (nm j) with h | h
      · exact h.trans (hrest j hj)
      · exact h.1
  · rcases hframe k with h | ⟨-, j, hj⟩
    · exact h
    · exact absurd hj (hk j)

end

lemma partsLoop_refcount (m : Mapping) : ∀ (fuel i : ℕ) (f : Files File), Linked f →
    let f' := partsLoop (File.dof m) refcountCleanupFile fuel i f
    Linked f' ∧ f'.disk = f.disk ∧ (∀ k, (∀ j, k ≠ .dof m j) → f'.ino k = f.ino k) ∧
      ∀ j, f'.ino (.dof m j) = f.ino (.dof m j) ∨
        f'.ino (.dof m j) = none ∧ ∀ p, f.ino (.raw p m j) = none
  | 0, _, _, h => ⟨h, rfl, fun _ _ => rfl, fun _ => .inl rfl⟩
  | fuel + 1, i, f, h => by
    rw [partsLoop]
    rcases hino : f.ino (.dof m i) with _ | x
    · exact ⟨h, rfl, fun _ _ => rfl, fun _ => .inl rfl⟩
    dsimp only
    rw [refcountCleanupFile]
    split
    next hone =>
      have hraw : ∀ p, f.ino (.raw p m i) = none := by
        intro p
        rcases hr : f.ino (.raw p m i) with _ | y
        · rfl
        · obtain rfl := Option.mem_unique (h.raw p m i y hr) hino
          cases (nlink_eq_one_iff hino).1 hone _ hr
      have hlinked : Linked (f.unlink (.dof m i)) := h.unlink fun m' i' heq p => by
        obtain ⟨rfl, rfl⟩ : m = _ ∧ i = _ := by simpa using heq
        exact hraw p
      obtain ⟨hl, hdisk, hframe, hdof⟩ := partsLoop_refcount m fuel (i + 1) _ hlinked
      refine ⟨hl, hdisk, fun k hk => ?_, fun j => ?_⟩
      · rw [hframe k hk, ino_unlink_of_ne (hk i)]
      · by_cases hj : j = i
        · subst hj
          have hself : (f.unlink (.dof m j)).ino (.dof m j) = none := ino_unlink_self
          rcases hdof j with h' | h'
          · exact .inr ⟨h'.trans hself, hraw⟩
          · exact .inr ⟨h'.1, hraw⟩
        · have hne : File.dof m j ≠ .dof m i := by simpa using hj
          rcases hdof j with h' | ⟨h', hp⟩
          · exact .inl (h'.trans (ino_unlink_of_ne hne))
          · refine .inr ⟨h', fun p => ?_⟩
            have hraw' : File.raw p m j ≠ .dof m i := nofun
            exact (ino_unlink_of_ne hraw').symm.trans (hp p)
    next => exact partsLoop_refcount m fuel (i + 1) f h

variable {pid : ℤ}

section

variable {m : Mapping}

lemma parsed_injective : Function.Injective (File.parsed pid m) := fun _ _ h => by injection h

lemma mem_parsedNames {f : Files File} {name : Bytes} :
    name ∈ parsedNames pid m f ↔ f.ino (.parsed pid m name) ≠ none := by
  rw [parsedNames, List.mem_filterMap, ← Option.isSome_iff_ne_none, Files.ino, AList.lookup_isSome, AList.mem_keys]
  constructor
  · rintro ⟨k, hk, hname⟩
    rcases k with _ | _ | _ | ⟨p, n, _⟩
    · cases hname
    · cases hname
    · cases hname
    · dsimp only at hname
      split at hname
      next hpn =>
        obtain ⟨rfl, rfl⟩ := hpn
        cases hname
        exact hk
      next => cases hname
  · intro h
    exact ⟨_, h, by simp⟩

lemma removeParsedFile_spec (s : St) (name : Bytes) : ∃ probes ⊆ s.probes,
    removeParsedFile pid m s name = { s with files := s.files.unlink (.parsed pid m name), probes } ∧
      (name ≠ version → ∀ path, removedPath pid name = some path → path ∉ probes) := by
  rw [removeParsedFile]
  by_cases hv : name = version
  · exact ⟨s.probes, subset_rfl, if_pos hv, fun hne => absurd hv hne⟩
  rw [if_neg hv]
  rcases removedPath pid name with _ | path
  · exact ⟨s.probes, subset_rfl, rfl, nofun⟩
  · refine ⟨s.probes.erase path, erase_subset path _, rfl, fun _ path' h => ?_⟩
    cases h
    exact notMem_erase _ _

lemma foldl_removeParsedFile : ∀ (names : List Bytes) (s : St), let s' := names.foldl (removeParsedFile pid m) s
    s' = { s with files := s'.files, probes := s'.probes } ∧ s'.files.disk = s.files.disk ∧
    (∀ name ∈ names, s'.files.ino (.parsed pid m name) = none) ∧
    (∀ k, (∀ name ∈ names, k ≠ .parsed pid m name) → s'.files.ino k = s.files.ino k) ∧
    (∀ name ∈ names, name ≠ version → ∀ path, removedPath pid name = some path → path ∉ s'.probes) ∧
    s'.probes ⊆ s.probes
  | [], s => ⟨rfl, rfl, by simp, fun _ _ => rfl, by simp, subset_rfl⟩
  | name :: names, s => by
    obtain ⟨probes, hsub, hstep, hpath⟩ := @removeParsedFile_spec pid m s name
    obtain ⟨heq, hdisk, hgone, hframe, hpaths, hsub'⟩ :=
      foldl_removeParsedFile names (removeParsedFile pid m s name)
    rw [List.foldl_cons]
    have hself : (s.files.unlink (.parsed pid m name)).ino (.parsed pid m name) = none := ino_unlink_self
    refine ⟨by rw [heq, hstep], by rw [hdisk, hstep]; rfl, fun n hn => ?_, fun k hk => ?_, fun n hn => ?_, ?_⟩
    · by_cases hmem : n ∈ names
      · exact hgone n hmem
      · obtain rfl : n = name := by simpa [hmem] using hn
        rw [hframe (.parsed pid m n) fun n' hn' heq' => hmem (parsed_injective heq' ▸ hn'), hstep]
        exact hself
    · rw [hframe k fun n hn => hk n (List.mem_cons_of_mem _ hn), hstep, ino_unlink_of_ne (hk name (by simp))]
    · rcases List.mem_cons.1 hn with rfl | hmem
      · rw [hstep] at hsub' ⊢
        exact fun hv path hp hin => hpath hv path hp (hsub' hin)
      · exact hpaths n hmem
    · rw [hstep] at hsub' ⊢
      exact hsub'.trans hsub

variable {s : St}

/-- The parsed data of a mapping has gone, with the links of its probes. -/
structure Unparsed (pid : ℤ) (m : Mapping) (s s' : St) : Prop where
  disk : s'.files.disk = s.files.disk
  gone : ∀ name, s'.files.ino (.parsed pid m name) = none
  kept : ∀ k, (∀ name, k ≠ .parsed pid m name) → s'.files.ino k = s.files.ino k
  paths : ∀ name, s.files.ino (.parsed pid m name) ≠ none → name ≠ version →
    ∀ path, removedPath pid name = some path → path ∉ s'.probes
  probes : s'.probes ⊆ s.probes

lemma dofStashRemoveParsed_spec (hmem : (pid, m) ∈ s.parsed) : let s' := dofStashRemoveParsed pid m s
    s' = { s with files := s'.files, probes := s'.probes } ∧ Unparsed pid m s s' := by
  obtain ⟨heq, hdisk, hgone, hframe, hpaths, hsub⟩ := @foldl_removeParsedFile pid m (parsedNames pid m s.files) s
  rw [dofStashRemoveParsed, if_pos hmem]
  refine ⟨heq, hdisk, fun name => ?_, fun k hk => hframe k fun n _ => hk n, fun name hn => ?_, hsub⟩
  · by_cases hin : name ∈ parsedNames pid m s.files
    · exact hgone name hin
    · rw [hframe (.parsed pid m name) fun n hn heq' => hin (parsed_injective heq' ▸ hn)]
      exact not_not.1 (mt mem_parsedNames.2 hin)
  · exact hpaths name (mem_parsedNames.2 hn)

lemma rmParsed_of_none (h : ∀ name, s.files.ino (.parsed pid m name) = none) :
    rmParsed pid m s = { s with parsed := s.parsed.erase (pid, m) } := by
  rw [rmParsed, if_pos]
  exact List.eq_nil_iff_forall_not_mem.2 fun name hname => mem_parsedNames.1 hname (h name)

lemma rmParsed_spec (hparsed : ∀ name, s.files.ino (.parsed pid m name) ≠ none → (pid, m) ∈ s.parsed) :
    let s' := rmParsed pid m (dofStashRemoveParsed pid m s)
    s' = { s with files := s'.files, probes := s'.probes, parsed := s.parsed.erase (pid, m) } ∧
    Unparsed pid m s s' := by
  by_cases hmem : (pid, m) ∈ s.parsed
  · obtain ⟨heq, h⟩ := dofStashRemoveParsed_spec hmem
    rw [rmParsed_of_none h.gone]
    exact ⟨by rw [heq], h.disk, h.gone, h.kept, h.paths, h.probes⟩
  · have hall : ∀ name, s.files.ino (.parsed pid m name) = none := fun name =>
      not_not.1 fun hne => hmem (hparsed name hne)
    rw [dofStashRemoveParsed, if_neg hmem, rmParsed_of_none hall]
    exact ⟨rfl, rfl, hall, fun _ _ => rfl, fun name hn => absurd (hall name) hn, subset_rfl⟩

end

/-! ## A generation taken away -/

/-- The mapping `m` of a process has been removed, with generation `g`, and nothing else. -/
structure Removal (pid : ℤ) (g : ℕ) (m : Mapping) (s s' : St) : Prop where
  maps : s'.maps = s.maps.erase (pid, m)
  gens : s'.gens = s.gens.erase (pid, g)
  parsed : s'.parsed = s.parsed.erase (pid, m)
  gone : ∀ k : File, k.inMapping pid m = true → s'.files.ino k = none
  kept : ∀ k : File, k.inMapping pid m = false → (∀ i, k ≠ .dof m i) → s'.files.ino k = s.files.ino k
  /-- Raw data is removed if no other process has it. -/
  dof : ∀ i, s'.files.ino (.dof m i) = s.files.ino (.dof m i) ∨
    s'.files.ino (.dof m i) = none ∧ ∀ p, p ≠ pid → s.files.ino (.raw p m i) = none
  disk : s'.files.disk = s.files.disk
  linked : Linked s'.files
  probes : s'.probes ⊆ s.probes
  paths : ∀ name, s.files.ino (.parsed pid m name) ≠ none → name ≠ version →
    ∀ path, removedPath pid name = some path → path ∉ s'.probes
  nextGen : ∀ p, (p ≠ pid ∨ ∃ n, (p, n) ∈ s'.maps) → s'.nextGen.lookup p = s.nextGen.lookup p
  nextGen_none : (¬∃ n, (pid, n) ∈ s'.maps) → s'.nextGen.lookup pid = none
  pids : ∀ p, (p ≠ pid ∨ ∃ n, (p, n) ∈ s'.maps) → p ∈ s.pids → p ∈ s'.pids

lemma cleanPid_spec {s s' : St} (h : cleanPid pid s = (true, s')) :
    s'.maps = s.maps ∧ s'.gens = s.gens ∧ s'.parsed = s.parsed ∧ s'.files = s.files ∧ s'.probes = s.probes ∧
    (∀ p, (p ≠ pid ∨ ∃ n, (p, n) ∈ s.maps) → s'.nextGen.lookup p = s.nextGen.lookup p ∧ (p ∈ s.pids → p ∈ s'.pids)) ∧
    ((¬∃ n, (pid, n) ∈ s.maps) → s'.nextGen.lookup pid = none) := by
  rw [cleanPid] at h
  split at h
  next hmaps =>
    cases h
    refine ⟨rfl, rfl, rfl, rfl, rfl, fun _ _ => ⟨rfl, id⟩, fun hno => absurd ?_ hno⟩
    obtain ⟨⟨p, n⟩, hd, rfl⟩ := hmaps
    exact ⟨n, hd⟩
  next hmaps =>
    have hne : ∀ p, (p ≠ pid ∨ ∃ n, (p, n) ∈ s.maps) → p ≠ pid := by
      rintro p (hp | ⟨n, hn⟩) rfl
      · exact hp rfl
      · exact hmaps ⟨_, hn, rfl⟩
    split at h
    · cases h
    · cases h
      rw [St.rmPid]
      split
      · exact ⟨rfl, rfl, rfl, rfl, rfl, fun p hp => ⟨AList.lookup_erase_ne (hne p hp),
          fun hin => mem_erase.2 ⟨hne p hp, hin⟩⟩, fun _ => AList.lookup_erase _ _⟩
      · exact ⟨rfl, rfl, rfl, rfl, rfl, fun p hp => ⟨AList.lookup_erase_ne (hne p hp), id⟩,
          fun _ => AList.lookup_erase _ _⟩

lemma removeMapping_spec {m : Mapping} {s : St} (hinv : Inv s) : let s' := removeMapping pid m s
    s' = { s with
      files := s'.files
      probes := s'.probes
      parsed := s.parsed.erase (pid, m)
      maps := s.maps.erase (pid, m) } ∧
    s'.files.disk = s.files.disk ∧ (∀ k : File, k.inMapping pid m = true → s'.files.ino k = none) ∧
    (∀ k : File, k.inMapping pid m = false → s'.files.ino k = s.files.ino k) ∧ Linked s'.files ∧
    (∀ name, s.files.ino (.parsed pid m name) ≠ none → name ≠ version →
      ∀ path, removedPath pid name = some path → path ∉ s'.probes) ∧ s'.probes ⊆ s.probes := by
  -- the links to the raw data go, then the parsed data, then `dh`
  obtain ⟨hdisk1, hraw1, hframe1⟩ :=
    parts_raw (raw_injective : Function.Injective (File.raw pid m)) s.files (hinv.raw pid m)
  rw [removeMapping]
  generalize parts (File.raw pid m) removeRawFile s.files = f1 at hdisk1 hraw1 hframe1 ⊢
  have hnames : ∀ name, f1.ino (.parsed pid m name) = s.files.ino (.parsed pid m name) := fun _ => hframe1 _ (by simp)
  have hparsed : ∀ name, f1.ino (.parsed pid m name) ≠ none → (pid, m) ∈ s.parsed := fun name hname =>
    hinv.parsed pid m name (hnames name ▸ hname)
  have hspec := @rmParsed_spec pid m { s with files := f1 } hparsed
  generalize rmParsed pid m (dofStashRemoveParsed pid m { s with files := f1 }) = s2 at hspec ⊢
  obtain ⟨heq2, hdisk2, hparsed2, hframe2, hpaths2, hprobes2⟩ := hspec
  have hdh : (s2.files.unlink (.dh pid m)).ino (.dh pid m) = none := ino_unlink_self
  have hgone : ∀ k : File, k.inMapping pid m = true → (s2.files.unlink (.dh pid m)).ino k = none := by
    intro k hk
    by_cases hkd : k = .dh pid m
    · rw [hkd]
      exact hdh
    · rw [ino_unlink_of_ne hkd]
      rcases k with _ | ⟨p, n, i⟩ | ⟨p, n⟩ | ⟨p, n, name⟩
      · cases hk
      · obtain ⟨rfl, rfl⟩ : p = pid ∧ n = m := by simpa [File.inMapping] using hk
        refine (hframe2 _ ?_).trans (hraw1 i)
        exact fun _ => by simp
      · obtain ⟨rfl, rfl⟩ : p = pid ∧ n = m := by simpa [File.inMapping] using hk
        exact absurd rfl hkd
      · obtain ⟨rfl, rfl⟩ : p = pid ∧ n = m := by simpa [File.inMapping] using hk
        exact hparsed2 name
  have hkept : ∀ k : File, k.inMapping pid m = false → (s2.files.unlink (.dh pid m)).ino k = s.files.ino k := by
    intro k hk
    have hne : ∀ k', File.inMapping pid m k' = true → k ≠ k' := by
      rintro k' hk' rfl
      rw [hk] at hk'
      cases hk'
    rw [ino_unlink_of_ne (hne _ (by simp [File.inMapping])),
      hframe2 k fun _ => hne _ (by simp [File.inMapping])]
    exact hframe1 k fun _ => hne _ (by simp [File.inMapping])
  have hlinked : Linked (s2.files.unlink (.dh pid m)) := by
    refine hinv.linked.of_less (fun k => ?_) fun n i => hkept _ rfl
    cases hk : k.inMapping pid m with
    | true => exact .inr (hgone k hk)
    | false => exact .inl (hkept k hk)
  have hempty : ({ s2 with files := s2.files.unlink (.dh pid m) } : St).mapEmpty pid m = true := by
    refine mapEmpty_iff.2 ⟨fun k hk => content_eq_none_iff.2 (hgone k hk), ?_⟩
    rw [heq2]
    exact notMem_erase _ _
  rw [St.rmMapping, if_pos hempty]
  refine ⟨by rw [heq2], hdisk2.trans hdisk1, hgone, hkept, hlinked, fun name hname => ?_, hprobes2⟩
  exact hpaths2 name (hnames name ▸ hname)

/-- A call that succeeds removes the mapping that the link of the generation leads to. -/
lemma dofStashRemove_spec {gen : ℤ} {m : Mapping} {s s' : St} (hinv : Inv s) (hlink : s.genLink pid gen = some m)
    (h : dofStashRemove pid gen s = (true, s')) : Removal pid gen.toNat m s s' := by
  rw [dofStashRemove, hlink] at h
  split at h
  next hpid =>
    have hgen : s.gens.lookup (pid, gen.toNat) = some m := by
      rw [St.genLink] at hlink
      split at hlink
      · exact hlink
      · cases hlink
    exact absurd (hinv.pids _ _ (hinv.gens_maps _ _ _ hgen)) hpid
  dsimp only at h
  split at h
  · cases h
  split at h
  · cases h
  have hspec := @removeMapping_spec pid m s hinv
  generalize removeMapping pid m s = s1 at h hspec
  obtain ⟨heq1, hdisk1, hgone1, hkept1, hlinked1, hpaths1, hprobes1⟩ := hspec
  obtain ⟨hlinked2, hdisk2, hframe2, hdof2⟩ :=
    partsLoop_refcount m (s1.files.links.entries.length + 1) 0 s1.files hlinked1
  obtain ⟨hmaps, hgens, hparsed, hfiles, hprobes, hothers, hnone⟩ := cleanPid_spec h
  have hfiles : s'.files =
      partsLoop (File.dof m) refcountCleanupFile (s1.files.links.entries.length + 1) 0 s1.files := hfiles
  have hmaps := hmaps.trans (by rw [heq1])
  have hraw : ∀ p i, p ≠ pid → s1.files.ino (.raw p m i) = s.files.ino (.raw p m i) := fun p i hp =>
    hkept1 _ (by simp [File.inMapping, hp])
  constructor
  case maps => exact hmaps
  case gens => exact hgens.trans (by rw [heq1])
  case parsed => exact hparsed.trans (by rw [heq1])
  case gone =>
    intro k hk
    rw [hfiles, hframe2 k fun j hj => by rw [hj] at hk; cases hk]
    exact hgone1 k hk
  case kept =>
    intro k hk hdof
    rw [hfiles, hframe2 k hdof]
    exact hkept1 k hk
  case dof =>
    intro i
    rw [hfiles]
    have hsame : s1.files.ino (.dof m i) = s.files.ino (.dof m i) := hkept1 _ rfl
    rcases hdof2 i with heq | ⟨hno, hraws⟩
    · exact .inl (heq.trans hsame)
    · exact .inr ⟨hno, fun p hp => hraw p i hp ▸ hraws p⟩
  case disk => rw [hfiles, hdisk2, hdisk1]
  case linked => rw [hfiles]; exact hlinked2
  case probes => rw [hprobes]; exact hprobes1
  case paths =>
    intro name hname hv path hp
    rw [hprobes]
    exact hpaths1 name hname hv path hp
  case nextGen =>
    intro p hp
    rw [(hothers p (by rw [heq1]; rwa [hmaps] at hp)).1, heq1]
  case nextGen_none =>
    intro hno
    refine hnone ?_
    rw [heq1]
    rwa [hmaps] at hno
  case pids =>
    intro p hp hin
    refine (hothers p (by rw [heq1]; rwa [hmaps] at hp)).2 ?_
    rw [heq1]
    exact hin

/-! ## Parsing again -/

/-- The descriptor that `openat` and `dup` return: the lowest that is not in use. -/
def lowest (fds : Finset ℕ) : ℕ := Nat.find (Infinite.exists_notMem_finset fds)

lemma lowest_ne_zero {fds : Finset ℕ} (h : 0 ∈ fds) : lowest fds ≠ 0 := by
  intro hzero
  have hfree : lowest fds ∉ fds := Nat.find_spec (Infinite.exists_notMem_finset fds)
  exact hfree (hzero ▸ h)

/-- Once there is one more descriptor, 0 is in use. -/
lemma zero_mem_insert_lowest (fds : Finset ℕ) : 0 ∈ insert (lowest fds) fds := by
  by_cases h : 0 ∈ fds
  · exact mem_insert_of_mem h
  · have hzero : lowest fds = 0 := (Nat.find_eq_zero _).2 h
    exact hzero ▸ mem_insert_self _ _

/-- `DOF_PARSED_VERSION`, as it is written. -/
def parsedVersion : Bytes := Bytes.ofNat 8 3

/-- The stash, and what the parser has been given. -/
structure Again where
  st : St
  sent : List (ℤ × Mapping × Bytes × List Block)

section

variable (reparse : ℤ × Mapping → Bytes → List Block → St → St) (force : Bool)

/-- A mapping in `reparse_dof`, with the descriptors in use once its directory is open.  The descriptor of the version
is compared with 0, where it should be compared with -1. -/
def reparseMapping (fds : Finset ℕ) (d : ℤ × Mapping) (r : Again) : Again :=
  let vers := r.st.files.content (.parsed d.1 d.2 version)
  if force = false ∧ lowest fds = 0 ∧ vers.map (·.take 8) = some parsedVersion then r
  else
    let s := dofStashRemoveParsed d.1 d.2 r.st
    match readRaw (File.raw d.1 d.2) s.files, s.files.content (.dh d.1 d.2) with
    | some data, some dh => ⟨reparse d dh data s, r.sent ++ [(d.1, d.2, dh, data)]⟩
    | _, _ => { r with st := s }

/-- `reparse_dof` where no call fails, with the descriptors in use before it, those that are in use besides when it
comes to a mapping, and the mappings in the order of the directories. -/
def reparseDof (fds : Finset ℕ) (held : ℤ × Mapping → Finset ℕ) (dirs : List (ℤ × Mapping)) (s : St) : Again :=
  -- The directory of the processes stays open all the time.
  let tmp := lowest fds
  dirs.foldl (fun r d => reparseMapping reparse force (insert tmp fds ∪ held d) d r) ⟨s, []⟩

end

/-- A stash in which every mapping has parsed data of the current version. -/
structure Settled where
  st : St
  dirs : List (ℤ × Mapping)
  mem_dirs : ∀ d, d ∈ dirs ↔ d ∈ st.maps
  current : ∀ d ∈ dirs, d ∈ st.parsed ∧ st.files.content (.parsed d.1 d.2 version) = some parsedVersion

section

variable {pid : ℤ} {m : Mapping} {s : St} {reparse : ℤ × Mapping → Bytes → List Block → St → St} {fds : Finset ℕ}
  {d : ℤ × Mapping} {r : Again} {k : File}

lemma dofStashRemoveParsed_content (h : s.files.content k = none) :
    (dofStashRemoveParsed pid m s).files.content k = none := by
  by_cases hmem : (pid, m) ∈ s.parsed
  · obtain ⟨-, hspec⟩ := dofStashRemoveParsed_spec hmem
    rw [content_eq_none_iff] at h ⊢
    by_cases hk : ∃ name, k = .parsed pid m name
    · obtain ⟨name, rfl⟩ := hk
      exact hspec.gone name
    · rw [hspec.kept k (not_exists.1 hk), h]
  · rwa [dofStashRemoveParsed, if_neg hmem]

/-- Whatever its version is, a mapping is taken for one that has to be parsed. -/
lemma reparseMapping_sent (h0 : 0 ∈ fds) (h : (reparseMapping reparse false fds d r).sent = []) :
    r.sent = [] ∧ (reparseMapping reparse false fds d r).st = dofStashRemoveParsed d.1 d.2 r.st := by
  rw [reparseMapping, if_neg fun hc => lowest_ne_zero h0 hc.2.1] at h ⊢
  dsimp only at h ⊢
  split at h
  · simp at h
  · exact ⟨h, rfl⟩

lemma foldl_reparseMapping {F : ℤ × Mapping → Finset ℕ} (h0 : ∀ d, 0 ∈ F d) :
    ∀ (dirs : List (ℤ × Mapping)) (r : Again),
    let r' := dirs.foldl (fun r d => reparseMapping reparse false (F d) d r) r
    r'.sent = [] → r.sent = [] ∧ (r.st.files.content k = none → r'.st.files.content k = none)
  | [], _, h => ⟨h, id⟩
  | d :: dirs, r, h => by
    obtain ⟨hsent, hrest⟩ := foldl_reparseMapping h0 dirs _ h
    obtain ⟨hnil, hst⟩ := reparseMapping_sent (h0 d) hsent
    exact ⟨hnil, fun hk => hrest (hst ▸ dofStashRemoveParsed_content hk)⟩

end

/-- **Parsing again.**  Parsed data of the current version is left alone only if there is none: no descriptor but 0
would be taken for that of the version, and 0 is in use. -/
theorem reparseDof_iff (reparse : ℤ × Mapping → Bytes → List Block → St → St) (fds : Finset ℕ)
    (held : ℤ × Mapping → Finset ℕ) (i : Settled) : let r := reparseDof reparse false fds held i.dirs i.st
    r.sent = [] ∧ (∀ p m name, r.st.files.content (.parsed p m name) = i.st.files.content (.parsed p m name)) ↔
      i.st.maps = ∅ := by
  obtain ⟨s, dirs, hdirs, hcur⟩ := i
  have h0 : ∀ d, 0 ∈ insert (lowest fds) fds ∪ held d := fun d => mem_union_left _ (zero_mem_insert_lowest fds)
  cases dirs with
  | nil => simpa [reparseDof, eq_empty_iff_forall_notMem] using hdirs
  | cons d dirs =>
    have hne : s.maps ≠ ∅ := fun he => by simpa [he] using hdirs d
    refine iff_of_false (fun ⟨hsent, hsame⟩ => ?_) hne
    obtain ⟨hparsed, hvers⟩ := hcur d List.mem_cons_self
    obtain ⟨hfirst, hrest⟩ := foldl_reparseMapping (k := .parsed d.1 d.2 version) h0 dirs _ hsent
    have hgone := content_eq_none_iff.2 ((dofStashRemoveParsed_spec hparsed).2.gone version)
    rw [← (reparseMapping_sent (h0 d) hfirst).2] at hgone
    have hlost := (hsame d.1 d.2 version).symm.trans (hrest hgone)
    rw [hvers] at hlost
    cases hlost

/-- The stash of a process with one mapping that has been parsed. -/
def parsedOnce : Settled where
  st := { St.empty with
    maps := {(7, 1, 2)}, parsed := {(7, 1, 2)},
    files := ((Files.empty.put (.raw 7 (1, 2) 0) (Block.file ⟨16, [1]⟩)).put (.dh 7 (1, 2)) [5]).put
      (.parsed 7 (1, 2) version) parsedVersion }
  dirs := [(7, 1, 2)]
  mem_dirs := by simp
  current := by decide +kernel

/-- The same process when its mapping is gone. -/
def mappingGone : Settled where
  st := { St.empty with pids := {7}, nextGen := St.empty.nextGen.insert 7 1 }
  dirs := []
  mem_dirs := by simp [St.empty]
  current := by simp

theorem reparseDof_both : (let r := reparseDof (fun _ _ _ s => s) false {0, 1, 2} (fun _ => {3}) [] mappingGone.st
    r.sent = [] ∧ ∀ p m name, r.st.files.content (.parsed p m name) =
      mappingGone.st.files.content (.parsed p m name)) ∧
    ¬ (let r := reparseDof (fun _ _ _ s => s) false {0, 1, 2} (fun _ => {3}) [(7, 1, 2)] parsedOnce.st
      r.sent = [] ∧ ∀ p m name, r.st.files.content (.parsed p m name) =
        parsedOnce.st.files.content (.parsed p m name)) :=
  ⟨(reparseDof_iff _ _ _ mappingGone).2 rfl, fun h =>
    Finset.singleton_ne_empty _ ((reparseDof_iff _ _ _ parsedOnce).1 h)⟩

/-- In the first run of the daemon over its own stash, with 0, 1 and 2 in use. -/
theorem reparseDof_current : let r := reparseDof (fun _ _ _ s => s) false {0, 1, 2} (fun _ => {3}) [(7, 1, 2)] parsedOnce.st
    r.sent = [(7, (1, 2), [5], [⟨16, [1]⟩])] ∧ r.st.files.content (.parsed 7 (1, 2) version) = none := by
  dsimp only
  rw [reparseDof, parsedOnce, List.foldl_cons, List.foldl_nil, reparseMapping,
    if_neg fun h => lowest_ne_zero (by simp) h.2.1]
  exact ⟨by decide +kernel, by decide +kernel⟩

end DTrace.Stash
