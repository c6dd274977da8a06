import DTrace.Stash.Raw

/-!
# Adding to the stash

`dof_stash_add` goes through a dozen steps, and one piece of code at its end cleans up wherever a step fails.  What
that code removes can be older than the call.

* `St` — the directories of the stash;
* `cleanup` — the end of a call that has failed;
* `dofStashAdd` — the steps, from the last to the first;
* `Kept`, `Safe` — what a failed call should leave alone, and when it does;
* `add_kept_iff` — the two are the same, wherever the call fails.
-/

namespace DTrace.Stash

open Lib Files

/-- The stash.  Of `next-gen` only the size matters. -/
structure St where
  files : Files File
  /-- `dof-pid/$pid`. -/
  pids : Finset ℤ
  /-- `dof-pid/$pid/$dev-$ino`. -/
  maps : Finset (ℤ × Mapping)
  /-- `dof-pid/$pid/$dev-$ino/parsed`. -/
  parsed : Finset (ℤ × Mapping)
  nextGen : Store ℤ ℕ
  execMapping : Store ℤ Mapping
  /-- The links `dof-pid/$pid/$gen`. -/
  gens : Store (ℤ × ℕ) Mapping
  /-- The paths below `probes`. -/
  probes : Finset (List Bytes)

/-- `dof_stash_init` in an empty state directory. -/
def St.empty : St where
  files := .empty
  pids := ∅
  maps := ∅
  parsed := ∅
  nextGen := ∅
  execMapping := ∅
  gens := ∅
  probes := ∅

/-- The file is in the directory of a mapping, or below it. -/
def File.inMapping (pid : ℤ) (m : Mapping) : File → Bool
  | .dof _ _ => false
  | .raw p n _ => p = pid ∧ n = m
  | .dh p n => p = pid ∧ n = m
  | .parsed p n _ => p = pid ∧ n = m

/-- Nothing is in the directory of a mapping. -/
def St.mapEmpty (s : St) (pid : ℤ) (m : Mapping) : Bool :=
  s.files.links.keys.all (fun k => !k.inMapping pid m) && decide ((pid, m) ∉ s.parsed)

/-- Nothing is in the directory of a process. -/
def St.pidEmpty (s : St) (pid : ℤ) : Bool :=
  decide (∀ d ∈ s.maps, d.1 ≠ pid) && s.gens.keys.all (fun g => g.1 ≠ pid) && (s.nextGen.lookup pid).isNone &&
    (s.execMapping.lookup pid).isNone

/-- `unlinkat` with `AT_REMOVEDIR`, for a mapping and for a process. -/
def St.rmMapping (s : St) (pid : ℤ) (m : Mapping) : St :=
  if s.mapEmpty pid m then { s with maps := s.maps.erase (pid, m) } else s
def St.rmPid (s : St) (pid : ℤ) : St :=
  if s.pidEmpty pid then { s with pids := s.pids.erase pid } else s

/-- Files removed by `usdt_data_apply` with `remove_data_file`. -/
def St.removeData (s : St) (nm : ℕ → File) (data : List Block) : St :=
  { s with files := (usdtDataApply (fun _ => false) (removeDataFile nm) data false s.files).2 }

/-- Where a call failed. -/
inductive Stage
  | names
  | pid
  | mapping
  | nextGen
  | writeRaw
  | rawLinks
  | dh
  | execMapping
  | truncate
  | symlink
  deriving DecidableEq

inductive AddResult
  | gen (n : ℕ)
  | failed (stage : Stage)
  /-- The process has executed another program; what follows then is left out. -/
  | execed
  deriving DecidableEq

/-- What the end of a failed call goes by: whether `perpid_dof_dir` is open, `new_pid`, `new_dof` and `gen_name`. -/
structure Tail where
  mapDir : Bool
  newPid : Bool
  newDof : Bool
  genName : Option ℕ

section

variable (fault : Step → Bool) (pid : ℤ) (m : Mapping) (data : List Block)

/-- `err_unlink_nomsg`. -/
def cleanup (t : Tail) (s : St) : St :=
  let s := if t.mapDir then s.removeData (File.raw pid m) data else s
  let s := s.rmMapping pid m
  let s := match t.genName with
    | some g => { s with gens := s.gens.erase (pid, g) }
    | none => s
  let s := if t.newPid then { s with nextGen := s.nextGen.erase pid }.rmPid pid else s
  if t.newDof then
    let s := s.removeData (File.dof m) data
    { s with files := s.files.unlink (.dof m 0) }
  else s

def fail (stage : Stage) (t : Tail) (s : St) : AddResult × St := (.failed stage, cleanup pid m data t s)

def createRawLink (i : ℕ) (_ : Block) : Exec (Files File) Bool := fun f =>
  if 0 < i && fault (.nameRawLink i) then (none, f)
  else if fault (.link i) then (some false, f)
  else
    match f.link (.dof m i) (.raw pid m i) with
    | some f' => (some true, f')
    | none => (some false, f)

/-- The link of the generation.  Without memory for its name, `symlinkat` fails. -/
def addSymlink (newPid newDof : Bool) (size : ℕ) (s : St) : AddResult × St :=
  if fault .nameGen then fail pid m data .symlink ⟨true, newPid, newDof, none⟩ s
  else if fault .symlink || (s.gens.lookup (pid, size)).isSome then
    fail pid m data .symlink ⟨true, newPid, newDof, some size⟩ s
  else (.gen size, { s with gens := s.gens.insert (pid, size) m })

/-- The size of `next-gen`. -/
def addTruncate (newPid newDof : Bool) (size : ℕ) (s : St) : AddResult × St :=
  if fault .truncate then fail pid m data .truncate ⟨true, newPid, newDof, none⟩ s
  else addSymlink fault pid m data newPid newDof size { s with nextGen := s.nextGen.insert pid (size + 1) }

/-- `exec-mapping`, by `dof_stash_write_file` with `exists_ok`. -/
def addExec (exec : Mapping) (newPid newDof : Bool) (size : ℕ) (s : St) : AddResult × St :=
  if newDof then
    if fault .nameExec then fail pid m data .execMapping ⟨true, newPid, newDof, none⟩ s
    else if fault .openExec then
      fail pid m data .execMapping ⟨true, newPid, newDof, none⟩ { s with execMapping := s.execMapping.erase pid }
    else if (s.execMapping.lookup pid).isSome then addTruncate fault pid m data newPid newDof size s
    else if fault .closeExec then fail pid m data .execMapping ⟨true, newPid, newDof, none⟩ s
    else
      addTruncate fault pid m data newPid newDof size { s with execMapping := s.execMapping.insert pid exec }
  else addTruncate fault pid m data newPid newDof size s

/-- `dh`, by `dof_stash_write_file`, which removes the file unless the error is that it exists. -/
def addDh (exec : Mapping) (dh : Bytes) (newPid newDof : Bool) (size : ℕ) (s : St) : AddResult × St :=
  if fault .openDh then
    fail pid m data .dh ⟨true, newPid, newDof, none⟩ { s with files := s.files.unlink (.dh pid m) }
  else if (s.files.content (.dh pid m)).isSome then fail pid m data .dh ⟨true, newPid, newDof, none⟩ s
  else if fault .closeDh then
    fail pid m data .dh ⟨true, newPid, newDof, none⟩
      { s with files := (s.files.put (.dh pid m) dh).unlink (.dh pid m) }
  else addExec fault pid m data exec newPid newDof size { s with files := s.files.put (.dh pid m) dh }

/-- The links to the raw data.  An error of `usdt_data_apply` itself goes by unnoticed. -/
def addLinks (exec : Mapping) (dh : Bytes) (newPid newDof : Bool) (size : ℕ) (s : St) : AddResult × St :=
  let (rc, files) := usdtDataApply (fun i => fault (.nameLink i)) (createRawLink fault pid m) data true s.files
  if rc = some 0 then fail pid m data .rawLinks ⟨true, newPid, newDof, none⟩ { s with files := files }
  else addDh fault pid m data exec dh newPid newDof size { s with files := files }

def addRaw (exec : Mapping) (dh : Bytes) (newPid : Bool) (size : ℕ) (s : St) : AddResult × St :=
  let (rc, files) := dofStashWriteRaw fault (File.dof m) data s.files
  match rc with
  | none => fail pid m data .writeRaw ⟨true, newPid, true, none⟩ { s with files := files }
  | some n => addLinks fault pid m data exec dh newPid (n ≠ 0) size { s with files := files }

def addGen (exec : Mapping) (dh : Bytes) (s : St) : AddResult × St :=
  if fault .openGen then fail pid m data .nextGen ⟨true, true, false, none⟩ s
  else
    let size := (s.nextGen.lookup pid).getD 0
    let s := { s with nextGen := s.nextGen.insert pid size }
    if fault .statGen then fail pid m data .nextGen ⟨true, true, false, none⟩ s
    else addRaw fault pid m data exec dh (size = 0) size s

def dofStashExeced (exec : Mapping) (s : St) : Bool := (s.execMapping.lookup pid).any (· ≠ exec)

def dofStashAdd (exec : Mapping) (dh : Bytes) (s : St) : AddResult × St :=
  if fault .makeNames then (.failed .names, s)
  else if fault .makePid then (.failed .pid, s)
  else
    let s := { s with pids := insert pid s.pids }
    if fault .openPid then (.failed .pid, s)
    else if dofStashExeced pid exec s then (.execed, s)
    else if fault .makeMapping then fail pid m data .mapping ⟨false, true, false, none⟩ s
    else
      let s := { s with maps := insert (pid, m) s.maps }
      if fault .openMapping then fail pid m data .mapping ⟨false, true, false, none⟩ s
      else addGen fault pid m data exec dh s

end

/-! ## What a failed call leaves alone -/

/-- All files with their bytes, all directories of mappings and all links of generations are still there. -/
structure Kept (s s' : St) : Prop where
  files : s.files.Extends s'.files
  maps : s.maps ⊆ s'.maps
  gens : ∀ g n, s.gens.lookup g = some n → s'.gens.lookup g = some n

/-- The directory of the mapping had been opened. -/
def Stage.opened : Stage → Bool
  | .names | .pid | .mapping => false
  | _ => true

def Stage.raw : Stage → Bool
  | .names | .pid | .mapping | .nextGen => false
  | _ => true

/-- The file `dh` had been written. -/
def Stage.helped : Stage → Bool
  | .execMapping | .truncate | .symlink => true
  | _ => false

section

variable (fault : Step → Bool) (pid : ℤ) (m : Mapping) (data : List Block) (s : St)

/-- The files that are gone after a call that failed there. -/
inductive Lost (stage : Stage) : File → Prop
  | raw {i : ℕ} (hi : i < data.length) (h : stage.opened) : Lost stage (.raw pid m i)
  | dof {i : ℕ} (hi : i < data.length) (h : stage.raw) (hstale : ¬Stale fault (File.dof m) data s.files) :
      Lost stage (.dof m i)
  | dh (h : stage = .dh) (hfault : fault .openDh) : Lost stage (.dh pid m)

/-- A failure there does no harm: the files that are removed were not there, the directory of the mapping was not
there or had something in it, and the generation was not in use. -/
structure Safe (stage : Stage) : Prop where
  files : ∀ k, Lost fault pid m data s stage k → s.files.content k = none
  maps : stage ≠ .names → stage ≠ .pid → stage.helped = false → (pid, m) ∈ s.maps → s.mapEmpty pid m = false
  gens : stage = .symlink → fault .nameGen = false → s.gens.lookup (pid, (s.nextGen.lookup pid).getD 0) = none

end

variable {pid : ℤ}

section

variable {m : Mapping} {data : List Block} {s₀ s : St} {t : Tail} {lost made : Bool}

lemma mapEmpty_iff : s.mapEmpty pid m = true ↔
    (∀ k : File, k.inMapping pid m = true → s.files.content k = none) ∧ (pid, m) ∉ s.parsed := by
  rw [St.mapEmpty, Bool.and_eq_true, List.all_eq_true, decide_eq_true_iff]
  refine and_congr_left fun _ => forall_congr' fun k => ?_
  rw [content_eq_none_iff, Files.ino, AList.lookup_eq_none, AList.mem_keys]
  cases k.inMapping pid m <;> simp

lemma raw_injective : Function.Injective (File.raw pid m) := fun _ _ h => by injection h

lemma dof_injective : Function.Injective (File.dof m) := fun _ _ h => by injection h

/-- The files that the end of a failed call removes. -/
def Removed (pid : ℤ) (m : Mapping) (data : List Block) (mapDir newDof : Bool) (k : File) : Prop :=
  (mapDir = true ∧ ∃ i < data.length, k = .raw pid m i) ∨ (newDof = true ∧ ∃ i < data.length, k = .dof m i)

@[simp] lemma rmMapping_files : (s.rmMapping pid m).files = s.files := by
  rw [St.rmMapping]
  split <;> rfl

@[simp] lemma rmMapping_gens : (s.rmMapping pid m).gens = s.gens := by
  rw [St.rmMapping]
  split <;> rfl

@[simp] lemma rmPid_files : (s.rmPid pid).files = s.files := by
  rw [St.rmPid]
  split <;> rfl

@[simp] lemma rmPid_maps : (s.rmPid pid).maps = s.maps := by
  rw [St.rmPid]
  split <;> rfl

@[simp] lemma rmPid_gens : (s.rmPid pid).gens = s.gens := by
  rw [St.rmPid]
  split <;> rfl

def dropRaw (pid : ℤ) (m : Mapping) (data : List Block) (t : Tail) (s : St) : St :=
  if t.mapDir then s.removeData (File.raw pid m) data else s

lemma cleanup_fields :
    (cleanup pid m data t s).gens = t.genName.elim s.gens (fun g => s.gens.erase (pid, g)) ∧
    (cleanup pid m data t s).maps = ((dropRaw pid m data t s).rmMapping pid m).maps ∧
    (cleanup pid m data t s).files =
      if t.newDof then ((dropRaw pid m data t s).removeData (File.dof m) data).files.unlink (.dof m 0)
      else (dropRaw pid m data t s).files := by
  rcases t with ⟨mapDir, newPid, newDof, genName⟩
  cases mapDir <;> cases newPid <;> cases newDof <;> cases genName <;>
    simp [cleanup, dropRaw, St.removeData]

lemma dropRaw_files : (∀ i < data.length, t.mapDir = true →
      (dropRaw pid m data t s).files.content (.raw pid m i) = none) ∧
    ∀ k, (t.mapDir = true → ∀ i < data.length, k ≠ .raw pid m i) →
      (dropRaw pid m data t s).files.content k = s.files.content k := by
  obtain ⟨_, hremove, hin, hout⟩ :=
    usdtDataApply_remove (.raw pid m) data s.files
  rw [dropRaw]
  split
  next h =>
    rw [St.removeData, hremove]
    exact ⟨fun i hi _ => hin i hi, fun k hk => hout k (hk h)⟩
  next h => exact ⟨fun _ _ h' => absurd h' h, fun _ _ => rfl⟩

lemma dropRaw_parsed : (dropRaw pid m data t s).parsed = s.parsed := by
  rw [dropRaw]
  split <;> rfl

lemma dropRaw_maps : (dropRaw pid m data t s).maps = s.maps := by
  rw [dropRaw]
  split <;> rfl

lemma cleanup_content (hdata : t.newDof = true → data ≠ []) (k : File) :
    (Removed pid m data t.mapDir t.newDof k → (cleanup pid m data t s).files.content k = none) ∧
    (¬Removed pid m data t.mapDir t.newDof k →
      (cleanup pid m data t s).files.content k = s.files.content k) := by
  obtain ⟨hin, hout⟩ := @dropRaw_files pid m data s t
  rw [cleanup_fields.2.2]
  split
  next hnew =>
    obtain ⟨_, hremove, hin', hout'⟩ :=
      usdtDataApply_remove (.dof m) data (dropRaw pid m data t s).files
    rw [St.removeData, hremove]
    have hpos := List.length_pos_of_ne_nil (hdata hnew)
    constructor
    · rintro (⟨hdir, i, hi, rfl⟩ | ⟨-, i, hi, rfl⟩)
      · rw [content_unlink_of_ne (by simp), hout' _ (by simp)]
        exact hin i hi hdir
      · by_cases h0 : i = 0
        · rw [h0]
          exact content_unlink_self
        · rw [content_unlink_of_ne (by simpa using h0)]
          exact hin' i hi
    · intro hk
      have hdof : ∀ j < data.length, k ≠ .dof m j := fun j hj h => hk (.inr ⟨hnew, j, hj, h⟩)
      rw [content_unlink_of_ne (hdof 0 hpos), hout' k hdof]
      exact hout k fun hdir i hi h => hk (.inl ⟨hdir, i, hi, h⟩)
  next hnew =>
    constructor
    · rintro (⟨hdir, i, hi, rfl⟩ | ⟨h, -⟩)
      · exact hin i hi hdir
      · exact absurd h hnew
    · intro hk
      exact hout k fun hdir i hi h => hk (.inl ⟨hdir, i, hi, h⟩)

/-- The state in the middle of a call, against the one before it.  `dh` is `lost` if it was removed, and `made` if it
was written. -/
structure Mid (pid : ℤ) (m : Mapping) (data : List Block) (mapDir newDof lost made : Bool) (s₀ s : St) : Prop where
  /-- What was there is there if what is removed was not. -/
  files : (∀ k, Removed pid m data mapDir newDof k → s₀.files.content k = none) →
    (lost = true → s₀.files.content (.dh pid m) = none) → s₀.files.Extends s.files
  /-- What is in the directory of the mapping was there, or is removed, or is `dh`. -/
  names : ∀ k : File, k.inMapping pid m = true → s.files.content k ≠ none →
    s₀.files.content k ≠ none ∨ Removed pid m data mapDir newDof k ∨ (made = true ∧ k = .dh pid m)
  lost : lost = true → s.files.content (.dh pid m) = none
  made : made = true → s.files.content (.dh pid m) ≠ none
  maps : s₀.maps ⊆ s.maps
  gens : s.gens = s₀.gens
  parsed : s.parsed = s₀.parsed

lemma Mid.mapEmpty (h : Mid pid m data t.mapDir t.newDof lost made s₀ s) :
    (dropRaw pid m data t s).mapEmpty pid m = true → made = false := by
  intro hempty
  by_contra hmade
  obtain ⟨hnone, -⟩ := mapEmpty_iff.1 hempty
  have hdh := hnone (.dh pid m) (by simp [File.inMapping])
  rw [dropRaw_files.2 _ (by simp)] at hdh
  exact h.made (by simpa using hmade) hdh

lemma kept_cleanup_iff (h : Mid pid m data t.mapDir t.newDof lost made s₀ s) (hdata : t.newDof = true → data ≠ []) :
    Kept s₀ (cleanup pid m data t s) ↔
      (∀ k, Removed pid m data t.mapDir t.newDof k → s₀.files.content k = none) ∧
      (lost = true → s₀.files.content (.dh pid m) = none) ∧
      (made = false → (pid, m) ∈ s₀.maps → s₀.mapEmpty pid m = false) ∧
      ∀ g, t.genName = some g → s₀.gens.lookup (pid, g) = none := by
  have hdh : ¬Removed pid m data t.mapDir t.newDof (.dh pid m) := by
    rintro (⟨-, i, -, h⟩ | ⟨-, i, -, h⟩) <;> cases h
  obtain ⟨hgens, hmaps, -⟩ := @cleanup_fields pid m data s t
  constructor
  · intro hkept
    have hnone : ∀ k, (cleanup pid m data t s).files.content k = none → s₀.files.content k = none := by
      intro k hk
      rcases hc : s₀.files.content k with _ | c
      · rfl
      · rw [hkept.files k c hc] at hk
        cases hk
    refine ⟨fun k hk => hnone k ((cleanup_content hdata k).1 hk), fun hlost => hnone _ ?_, fun hmade hmem => ?_,
      fun g hg => ?_⟩
    · rw [(cleanup_content hdata _).2 hdh]
      exact h.lost hlost
    · -- otherwise the directory would be empty at the end
      by_contra hempty
      obtain ⟨hno, hparsed⟩ := mapEmpty_iff.1 (Bool.not_eq_false _ ▸ hempty)
      have hdrop : (dropRaw pid m data t s).mapEmpty pid m = true := by
        refine mapEmpty_iff.2 ⟨fun k hk => ?_, by rw [dropRaw_parsed, h.parsed]; exact hparsed⟩
        by_cases hraw : t.mapDir = true ∧ ∃ i < data.length, k = .raw pid m i
        · obtain ⟨hdir, i, hi, rfl⟩ := hraw
          exact dropRaw_files.1 i hi hdir
        · rw [dropRaw_files.2 k fun hdir i hi hki => hraw ⟨hdir, i, hi, hki⟩]
          by_contra hne
          rcases h.names k hk hne with hold | (hraw' | ⟨-, i, -, rfl⟩) | ⟨hm, -⟩
          · exact hold (hno k hk)
          · exact hraw hraw'
          · simp [File.inMapping] at hk
          · rw [hmade] at hm
            cases hm
      have hin := hkept.maps hmem
      rw [hmaps, St.rmMapping, if_pos hdrop] at hin
      exact Finset.notMem_erase _ _ hin
    · rcases hn : s₀.gens.lookup (pid, g) with _ | n
      · rfl
      · have := hkept.gens _ _ hn
        rw [hgens, hg, Option.elim_some, AList.lookup_erase] at this
        cases this
  · rintro ⟨hremoved, hlost, hmap, hgen⟩
    have hext := h.files hremoved hlost
    have hfiles : s₀.files.Extends (cleanup pid m data t s).files := by
      intro k c hc
      rw [(cleanup_content hdata k).2 fun hk => by rw [hremoved k hk] at hc; cases hc]
      exact hext k c hc
    refine ⟨hfiles, ?_, fun g n hn => ?_⟩
    · intro d hd
      rw [hmaps, St.rmMapping]
      split
      next hempty =>
        refine Finset.mem_erase.2 ⟨?_, by rw [dropRaw_maps]; exact h.maps hd⟩
        rintro rfl
        -- the directory had something in it, and still has
        have hfull := hmap (h.mapEmpty hempty) hd
        obtain ⟨hno, hparsed⟩ := mapEmpty_iff.1 hempty
        rw [dropRaw_parsed, h.parsed] at hparsed
        have : s₀.mapEmpty pid m = true := by
          refine mapEmpty_iff.2 ⟨fun k hk => ?_, hparsed⟩
          rcases hc : s₀.files.content k with _ | c
          · rfl
          · have := hno k hk
            rw [dropRaw_files.2 k fun hdir i hi hki => ?_, hext k c hc] at this
            · cases this
            · rw [hremoved k (.inl ⟨hdir, i, hi, hki⟩)] at hc
              cases hc
        rw [hfull] at this
        cases this
      next => rw [dropRaw_maps]; exact h.maps hd
    · rw [hgens]
      rcases hg : t.genName with _ | g'
      · rw [Option.elim_none, h.gens]
        exact hn
      · have hne : g ≠ (pid, g') := by
          rintro rfl
          rw [hgen g' hg] at hn
          cases hn
        rw [Option.elim_some, AList.lookup_erase_ne hne, h.gens]
        exact hn

end

/-! ## Failures at every step -/

variable {fault : Step → Bool} {exec : Mapping} {stage : Stage} {dh : Bytes}

section

variable {m : Mapping} {data : List Block} {s₀ s : St} {t : Tail}
  {lost made : Bool}

/-- If the call fails, it keeps what was there before just when failing there is safe. -/
def Judged (fault : Step → Bool) (pid : ℤ) (m : Mapping) (data : List Block) (s₀ : St) (r : AddResult × St) : Prop :=
  ∀ stage, r.1 = .failed stage → (Kept s₀ r.2 ↔ Safe fault pid m data s₀ stage)

lemma ne_nil_of_not_stale (h : ¬Stale fault (File.dof m) data s₀.files) : data ≠ [] := by
  rintro rfl
  exact h fun j hj => absurd hj (by simp)

lemma judged_fail (h : Mid pid m data t.mapDir t.newDof lost made s₀ s) (hdir : t.mapDir = stage.opened)
    (hdof : t.newDof = true ↔ stage.raw = true ∧ ¬Stale fault (File.dof m) data s₀.files)
    (hlost : lost = true ↔ stage = .dh ∧ fault .openDh = true) (hmade : made = stage.helped)
    (hgen : ∀ g, t.genName = some g ↔ stage = .symlink ∧ fault .nameGen = false ∧ g = (s₀.nextGen.lookup pid).getD 0)
    (hnames : stage ≠ .names) (hpid : stage ≠ .pid) : Judged fault pid m data s₀ (fail pid m data stage t s) := by
  intro stage' hstage
  obtain rfl : stage = stage' := by injection hstage
  rw [fail, kept_cleanup_iff h fun hnew => ne_nil_of_not_stale (hdof.1 hnew).2]
  constructor
  · rintro ⟨hremoved, hdh, hmap, hg⟩
    refine ⟨fun k hk => ?_, fun _ _ hh => hmap (hmade.trans hh), fun hs hn => hg _ ((hgen _).2 ⟨hs, hn, rfl⟩)⟩
    cases hk with
    | raw hi ho => exact hremoved _ (.inl ⟨hdir.trans ho, _, hi, rfl⟩)
    | dof hi hr hs => exact hremoved _ (.inr ⟨hdof.2 ⟨hr, hs⟩, _, hi, rfl⟩)
    | dh hs hf => exact hdh (hlost.2 ⟨hs, hf⟩)
  · intro hsafe
    refine ⟨?_, fun hl => ?_, fun hm => hsafe.maps hnames hpid (hmade ▸ hm), fun g hg => ?_⟩
    · rintro k (⟨hd, i, hi, rfl⟩ | ⟨hn, i, hi, rfl⟩)
      · exact hsafe.files _ (.raw hi (hdir ▸ hd))
      · exact hsafe.files _ (.dof hi (hdof.1 hn).1 (hdof.1 hn).2)
    · exact hsafe.files _ (.dh (hlost.1 hl).1 (hlost.1 hl).2)
    · obtain ⟨hs, hn, rfl⟩ := (hgen g).1 hg
      exact hsafe.gens hs hn

variable {newPid newDof : Bool} {size : ℕ}

section

variable (h : Mid pid m data true newDof false false s₀ s)
include h

lemma Mid.unlink : Mid pid m data true newDof true false s₀ { s with files := s.files.unlink (.dh pid m) } where
  files := fun hremoved hdh => (h.files hremoved nofun).unlink (hdh rfl)
  names := by
    intro k hk hne
    have hkd : k ≠ .dh pid m := by
      rintro rfl
      exact hne content_unlink_self
    rw [content_unlink_of_ne hkd] at hne
    exact h.names k hk hne
  lost := fun _ => content_unlink_self
  made := nofun
  maps := h.maps
  gens := h.gens
  parsed := h.parsed

lemma Mid.put (hnone : s.files.content (.dh pid m) = none) :
    Mid pid m data true newDof false true s₀ { s with files := s.files.put (.dh pid m) dh } where
  files := fun hremoved _ => (h.files hremoved nofun).put hnone
  names := by
    intro k hk hne
    by_cases hkd : k = .dh pid m
    · exact .inr (.inr ⟨rfl, hkd⟩)
    · rw [content_put_of_ne hkd (.inl (content_eq_none_iff.1 hnone))] at hne
      exact (h.names k hk hne).imp_right (Or.imp_right nofun)
  lost := nofun
  made := fun _ => by simp [content_put_self]
  maps := h.maps
  gens := h.gens
  parsed := h.parsed

lemma Mid.links : Mid pid m data true newDof false false s₀ { s with files :=
      (usdtDataApply (fun i => fault (.nameLink i)) (createRawLink fault pid m) data true s.files).2 } := by
  let I : ℕ → Files File → Prop := fun _ f => Mid pid m data true newDof false false s₀ { s with files := f }
  have hstep : ∀ i d f, i < data.length → I i f → I (i + 1) (createRawLink fault pid m i d f).2 := by
    intro i d f hi hf
    rw [createRawLink]
    split_ifs
    · exact hf
    · exact hf
    split
    next f' hlink =>
      refine ⟨fun hremoved hdh => (hf.files hremoved hdh).link hlink, fun k hk hne => ?_, nofun, nofun, h.maps,
        h.gens, h.parsed⟩
      by_cases hkr : k = .raw pid m i
      · exact .inr (.inl (.inl ⟨rfl, i, hi, hkr⟩))
      · obtain ⟨-, -, -, -, hother, -⟩ := of_link_eq_some hlink
        refine hf.names k hk fun hnone => hne ?_
        rw [content_eq_none_iff] at hnone ⊢
        exact (hother k hkr).trans hnone
    next => exact hf
  rw [usdtDataApply, Exec.bind_pure_snd]
  exact applyLoop_inv (fun _ _ hf => hf) hstep h

end

/-! The steps after the raw data, from the last one back. -/

section

variable (hdof : newDof = true ↔ ¬Stale fault (File.dof m) data s₀.files)
  (hsize : size = (s₀.nextGen.lookup pid).getD 0)

include hdof hsize

section

variable (h : Mid pid m data true newDof false true s₀ s)
include h

lemma judged_addSymlink : Judged fault pid m data s₀ (addSymlink fault pid m data newPid newDof size s) := by
  rw [addSymlink]
  split
  next hfault =>
    exact judged_fail h rfl (by simpa [Stage.raw] using hdof) (by simp) rfl (by simp [hfault]) nofun nofun
  split
  next hfault _ =>
    refine judged_fail h rfl (by simpa [Stage.raw] using hdof) (by simp) rfl (fun g => ?_) nofun nofun
    simp only [Option.some.injEq, true_and, hsize]
    exact ⟨fun hg => ⟨by simpa using hfault, hg.symm⟩, fun hg => hg.2.symm⟩
  · exact fun _ hr => nomatch hr

lemma judged_addTruncate : Judged fault pid m data s₀ (addTruncate fault pid m data newPid newDof size s) := by
  rw [addTruncate]
  split
  · exact judged_fail h rfl (by simpa [Stage.raw] using hdof) (by simp) rfl (by simp) nofun nofun
  · exact judged_addSymlink hdof hsize ⟨h.files, h.names, h.lost, h.made, h.maps, h.gens, h.parsed⟩

lemma judged_addExec : Judged fault pid m data s₀ (addExec fault pid m data exec newPid newDof size s) := by
  have hfail : ∀ s', Mid pid m data true newDof false true s₀ s' →
      Judged fault pid m data s₀ (fail pid m data .execMapping ⟨true, newPid, newDof, none⟩ s') := fun s' h' =>
    judged_fail h' rfl (by simpa [Stage.raw] using hdof) (by simp) rfl (by simp) nofun nofun
  rw [addExec]
  split_ifs
  · exact hfail s h
  · exact hfail _ ⟨h.files, h.names, h.lost, h.made, h.maps, h.gens, h.parsed⟩
  · exact judged_addTruncate hdof hsize h
  · exact hfail s h
  · exact judged_addTruncate hdof hsize ⟨h.files, h.names, h.lost, h.made, h.maps, h.gens, h.parsed⟩
  · exact judged_addTruncate hdof hsize h

end

lemma judged_addDh (h : Mid pid m data true newDof false false s₀ s) :
    Judged fault pid m data s₀ (addDh fault pid m data exec dh newPid newDof size s) := by
  have hraw : newDof = true ↔ Stage.dh.raw = true ∧ ¬Stale fault (.dof m) data s₀.files := by
    simpa [Stage.raw] using hdof
  rw [addDh]
  split
  next hfault => exact judged_fail h.unlink rfl hraw (by simp [hfault]) rfl (by simp) nofun nofun
  next hfault =>
    split
    · exact judged_fail h rfl hraw (by simpa using hfault) rfl (by simp) nofun nofun
    next hsome =>
      have hnone : s.files.content (.dh pid m) = none := by simpa using hsome
      split
      · -- written and removed again
        have hmid : Mid pid m data true newDof false false s₀
            { s with files := (s.files.put (.dh pid m) dh).unlink (.dh pid m) } := by
          refine ⟨fun hremoved _ => ?_, fun k hk hne => ?_, nofun, nofun, h.maps, h.gens, h.parsed⟩
          · have hext := h.files hremoved nofun
            refine (hext.put hnone).unlink ?_
            rcases hc : s₀.files.content (.dh pid m) with _ | c
            · rfl
            · rw [hext _ c hc] at hnone
              cases hnone
          · have hkd : k ≠ .dh pid m := by
              rintro rfl
              exact hne content_unlink_self
            rw [content_unlink_of_ne hkd,
              content_put_of_ne hkd (.inl (content_eq_none_iff.1 hnone))] at hne
            exact h.names k hk hne
        exact judged_fail hmid rfl hraw (by simpa using hfault) rfl (by simp) nofun nofun
      · exact judged_addExec hdof hsize (h.put hnone)

lemma judged_addLinks (h : Mid pid m data true newDof false false s₀ s) :
    Judged fault pid m data s₀ (addLinks fault pid m data exec dh newPid newDof size s) := by
  rw [addLinks]
  dsimp only
  split
  · exact judged_fail h.links rfl (by simpa [Stage.raw] using hdof) (by simp) rfl (by simp) nofun nofun
  · exact judged_addDh hdof hsize h.links

end

/-- Up to the raw data, no file is touched. -/
structure Start (s₀ s : St) : Prop where
  files : s.files = s₀.files
  maps : s₀.maps ⊆ s.maps
  gens : s.gens = s₀.gens
  parsed : s.parsed = s₀.parsed

lemma Start.mid (h : Start s₀ s) (mapDir : Bool) : Mid pid m data mapDir false false false s₀ s where
  files := fun _ _ => h.files ▸ .refl _
  names := fun _ _ hne => .inl (h.files ▸ hne)
  lost := nofun
  made := nofun
  maps := h.maps
  gens := h.gens
  parsed := h.parsed

lemma judged_addRaw (h : Start s₀ s) (hsize : size = (s₀.nextGen.lookup pid).getD 0) :
    Judged fault pid m data s₀ (addRaw fault pid m data exec dh newPid size s) := by
  obtain ⟨rc, f', hrun, hrc, hsame, hnames, hext⟩ :=
    dofStashWriteRaw_spec fault (dof_injective : Function.Injective (.dof m)) data s.files
  rw [h.files] at hrun hrc hsame hnames hext
  have hmid : ∀ newDof, (newDof = false → rc = some 0) →
      Mid pid m data true newDof false false s₀ { s with files := f' } := by
    intro newDof hnew
    refine ⟨fun hremoved _ => ?_, fun k hk hne => .inl (hnames k ?_ hne), nofun, nofun, h.maps, h.gens, h.parsed⟩
    · cases newDof with
      | false => exact hsame (hnew rfl) ▸ .refl _
      | true => exact hext fun j hj => hremoved _ (.inr ⟨rfl, j, hj, rfl⟩)
    · rintro j - rfl
      simp [File.inMapping] at hk
  rw [addRaw, h.files, hrun]
  rcases rc with _ | n
  · refine judged_fail (hmid true nofun) rfl ?_ (by simp) rfl (by simp) nofun nofun
    simpa [Stage.raw] using hrc
  · refine judged_addLinks ?_ hsize (hmid _ fun hn => ?_)
    · rw [← hrc]
      simp
    · simpa using hn

lemma judged_addGen (h : Start s₀ s) (hgen : s.nextGen = s₀.nextGen) :
    Judged fault pid m data s₀ (addGen fault pid m data exec dh s) := by
  have hfail : ∀ s', Start s₀ s' →
      Judged fault pid m data s₀ (fail pid m data .nextGen ⟨true, true, false, none⟩ s') := fun s' h' =>
    judged_fail (h'.mid true) rfl (by simp [Stage.raw]) (by simp) rfl (by simp) nofun nofun
  rw [addGen]
  split
  · exact hfail s h
  split
  · exact hfail _ ⟨h.files, h.maps, h.gens, h.parsed⟩
  · exact judged_addRaw ⟨h.files, h.maps, h.gens, h.parsed⟩ (by rw [hgen])

end

section

variable {m : Mapping} {data : List Block} {s s' : St}

/-- A failed call leaves everything that was there alone if and only if failing where it failed was safe in the state
before it. -/
theorem add_kept_iff (h : dofStashAdd fault pid m data exec dh s = (.failed stage, s')) :
    Kept s s' ↔ Safe fault pid m data s stage := by
  have hstart : Start s { s with pids := insert pid s.pids } := ⟨rfl, subset_rfl, rfl, rfl⟩
  have hmapping : Start s { s with pids := insert pid s.pids, maps := insert (pid, m) s.maps } :=
    ⟨rfl, Finset.subset_insert _ _, rfl, rfl⟩
  have hfail : ∀ s', Start s s' →
      Judged fault pid m data s (fail pid m data .mapping ⟨false, true, false, none⟩ s') := fun s' h' =>
    judged_fail (h'.mid false) rfl (by simp [Stage.raw]) (by simp) rfl (by simp) nofun nofun
  -- before the directory of the process is open there is nothing to clean up
  have hearly : ∀ stage s', (stage = .names ∨ stage = .pid) → Start s s' →
      Judged fault pid m data s (.failed stage, s') := by
    rintro stage _ hstage h' _ ⟨⟩
    refine ⟨fun _ => ⟨fun k hk => ?_, fun hn hp => ?_, fun hs => ?_⟩, fun _ => ⟨h'.files ▸ .refl _, h'.maps, ?_⟩⟩
    · cases hk with
      | raw _ ho => rcases hstage with rfl | rfl <;> cases ho
      | dof _ hr => rcases hstage with rfl | rfl <;> cases hr
      | dh hs => rcases hstage with rfl | rfl <;> cases hs
    · rcases hstage with rfl | rfl
      · exact absurd rfl hn
      · exact absurd rfl hp
    · rcases hstage with rfl | rfl <;> cases hs
    · intro g n hn
      rw [h'.gens]
      exact hn
  have hjudged : Judged fault pid m data s (dofStashAdd fault pid m data exec dh s) := by
    rw [dofStashAdd]
    dsimp only
    split_ifs
    · exact hearly _ _ (.inl rfl) ⟨rfl, subset_rfl, rfl, rfl⟩
    · exact hearly _ _ (.inr rfl) ⟨rfl, subset_rfl, rfl, rfl⟩
    · exact hearly _ _ (.inr rfl) hstart
    · exact fun _ hr => nomatch hr
    · exact hfail _ hstart
    · exact hfail _ hmapping
    · exact judged_addGen hmapping rfl
  rw [h] at hjudged
  exact hjudged stage rfl

end

/-- The stash after one mapping each of two processes. -/
def twoStashed : St :=
  (dofStashAdd noFault 7 (1, 4) [⟨16, [1]⟩] (3, 4) [5]
    (dofStashAdd noFault 8 (1, 3) [⟨16, [2]⟩] (3, 5) [6] .empty).2).2

/-- A second mapping of a process, and `dh` cannot be opened. -/
theorem add_kept_second : let call := dofStashAdd (fun f => f = .openDh) 7 (1, 2) [⟨16, [1]⟩] (3, 4) [] twoStashed
    call.1 = .failed .dh ∧ twoStashed.files.content (.raw 7 (1, 4) 0) = some (Block.file ⟨16, [1]⟩) ∧
      twoStashed.files.content (.dof (1, 3) 0) = some (Block.file ⟨16, [2]⟩) ∧
      twoStashed.gens.lookup (7, 0) = some (1, 4) ∧ Kept twoStashed call.2 := by
  intro call
  have hstage : call.1 = .failed .dh := by decide +kernel
  refine ⟨hstage, by decide +kernel, by decide +kernel, by decide +kernel, ?_⟩
  refine (add_kept_iff (Prod.ext hstage rfl : call = (.failed .dh, call.2))).2 ⟨fun k hk => ?_, fun _ _ _ hmem => ?_, nofun⟩
  · -- there is one block, and no file of this mapping
    cases hk with
    | raw hi =>
      obtain rfl := Nat.lt_one_iff.1 hi
      decide +kernel
    | dof hi =>
      obtain rfl := Nat.lt_one_iff.1 hi
      decide +kernel
    | dh => decide +kernel
  · exact absurd hmem (by decide +kernel)

/-- The same mapping again: the links to the raw data are there already, and the end of the call removes them. -/
theorem add_again : let first := dofStashAdd noFault 7 (1, 2) [⟨16, [1]⟩] (3, 4) [] .empty
    let second := dofStashAdd noFault 7 (1, 2) [⟨16, [1]⟩] (3, 4) [] first.2
    first.1 = .gen 0 ∧ second.1 = .failed .rawLinks ∧ ¬Kept first.2 second.2 := by
  refine ⟨by decide +kernel, by decide +kernel, fun h => ?_⟩
  have hraw := h.files (.raw 7 (1, 2) 0) [16, 0, 0, 0, 0, 0, 0, 0, 1] (by decide +kernel)
  revert hraw
  decide +kernel

end DTrace.Stash
