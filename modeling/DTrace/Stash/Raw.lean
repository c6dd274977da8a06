import DTrace.Lib.Exec
import DTrace.Lib.Files

/-!
# Raw data in the stash

The USDT data of a mapping is a list of blocks.  Each block is a file of its own: the base address in eight bytes, and
the data behind it.  The files of one list are named after the mapping and numbered.

* `usdtDataApply` — a function called for every block, with the number of its file;
* `dofStashWriteRaw` — the files are written, unless they seem to be there already;
* `readRaw` — the blocks that are read back;
* `raw_iff` — the test whether a file is there already compares its size with the size of the data alone.
-/

namespace DTrace.Stash

open Lib List Files Exec Option Nat

/-- A mapping: device and inode, in `make_dof_name` `$dev-$ino`. -/
abbrev Mapping := ℤ × ℤ

/-- The files of the stash. -/
inductive File
  /-- `dof/$dev-$ino`, and with a number behind it from the second on. -/
  | dof (m : Mapping) (i : ℕ)
  /-- `dof-pid/$pid/$dev-$ino/raw`, numbered in the same way. -/
  | raw (pid : ℤ) (m : Mapping) (i : ℕ)
  /-- `dof-pid/$pid/$dev-$ino/dh`. -/
  | dh (pid : ℤ) (m : Mapping)
  /-- `dof-pid/$pid/$dev-$ino/parsed/$name`. -/
  | parsed (pid : ℤ) (m : Mapping) (name : Bytes)
  deriving DecidableEq

/-- A `usdt_data_t`. -/
structure Block where
  base : BitVec 64
  buf : Bytes
  deriving DecidableEq

namespace Block

def size (b : Block) : ℕ := b.buf.length

/-- What `write_raw_data` writes. -/
def file (b : Block) : Bytes := Bytes.ofNat 8 b.base.toNat ++ b.buf

/-- What `read_raw_data` makes of a file.  In a file of less than eight bytes it reads what is not there. -/
def read (c : Bytes) : Option Block :=
  if c.length < 8 then none else some ⟨BitVec.ofNat 64 (Bytes.val (c.take 8)), c.drop 8⟩

lemma length_file (b : Block) : b.file.length = 8 + b.size := by simp [file, size]

lemma read_eq_some_iff {c : Bytes} {b : Block} : read c = some b ↔ c = b.file := by
  constructor
  · intro h
    rw [read] at h
    split at h
    · cases h
    next hlen =>
      cases h
      have htake : (c.take 8).length = 8 := by simp; omega
      have hlt := Bytes.val_lt (c.take 8)
      rw [htake] at hlt
      have hhead : Bytes.ofNat 8 (BitVec.ofNat 64 (Bytes.val (c.take 8))).toNat = c.take 8 := by
        rw [BitVec.toNat_ofNat, mod_eq_of_lt (by omega)]
        refine (Bytes.val_inj (by rw [Bytes.length_ofNat, htake])).1 ?_
        exact Bytes.val_ofNat hlt
      rw [file, hhead]
      exact (take_append_drop 8 c).symm
  · rintro rfl
    have hval : Bytes.val (Bytes.ofNat 8 b.base.toNat) = b.base.toNat := Bytes.val_ofNat b.base.isLt
    have hlen := length_file b
    rw [read, if_neg (by omega)]
    simp [file, hval]

end Block

/-- The places where `dof_stash_add` can fail for a reason of its own, with the number of the block. -/
inductive Step
  | makeNames
  | makePid
  | openPid
  | makeMapping
  | openMapping
  | openGen
  | statGen
  | nameStale (i : ℕ)
  | statRaw (i : ℕ)
  | nameWrite (i : ℕ)
  | openRaw (i : ℕ)
  | closeRaw (i : ℕ)
  | nameLink (i : ℕ)
  | nameRawLink (i : ℕ)
  | link (i : ℕ)
  | openDh
  | closeDh
  | nameExec
  | openExec
  | closeExec
  | truncate
  | nameGen
  | symlink
  deriving DecidableEq

def noFault : Step → Bool := fun _ => false

section

variable {σ : Type}

/-- The loop of `usdt_data_apply`: the number of calls, and of those that returned 1.  There is an error if there is
no memory for the name of a file, from the second on, or if a call returns -1. -/
def applyLoop (oom : ℕ → Bool) (func : ℕ → Block → Exec σ Bool) : List Block → ℕ → ℕ → Exec σ (ℕ × ℕ)
  | [], i, cnt => pure (i, cnt)
  | d :: data, i, cnt =>
    if 0 < i && oom i then Exec.stop
    else do
      let ok ← func i d
      applyLoop oom func data (i + 1) (if ok then cnt + 1 else cnt)

def usdtDataApply (oom : ℕ → Bool) (func : ℕ → Block → Exec σ Bool) (data : List Block) (all : Bool) : Exec σ ℕ := do
  let (i, cnt) ← applyLoop oom func data 0 0
  pure (if all then (if cnt = i then 1 else 0) else cnt)

end

section

variable {κ : Type} [DecidableEq κ]

/-- `stale_data_file`.  The names of the files are `nm 0`, `nm 1` and so on. -/
def staleDataFile (fault : Step → Bool) (nm : ℕ → κ) (i : ℕ) (d : Block) : Exec (Files κ) Bool := fun f =>
  (some (match f.content (nm i) with
    | some c => !fault (.statRaw i) && decide (c.length = d.size)
    | none => false), f)

def writeRawData (fault : Step → Bool) (nm : ℕ → κ) (i : ℕ) (d : Block) : Exec (Files κ) Bool := fun f =>
  if fault (.openRaw i) then (some false, f) else (some (!fault (.closeRaw i)), f.put (nm i) d.file)

def removeDataFile (nm : ℕ → κ) (i : ℕ) (_ : Block) : Exec (Files κ) Bool := fun f => (some true, f.unlink (nm i))

def dofStashWriteRaw (fault : Step → Bool) (nm : ℕ → κ) (data : List Block) : Exec (Files κ) ℕ := do
  let rc ← usdtDataApply (fun i => fault (.nameStale i)) (staleDataFile fault nm) data true
  if rc = 1 then pure 0
  else do
    let rc ← usdtDataApply (fun i => fault (.nameWrite i)) (writeRawData fault nm) data true
    if rc ≠ 0 then pure rc
    else do
      let _ ← usdtDataApply (fun _ => false) (removeDataFile nm) data false
      Exec.stop

/-- The files from the `i`th on, read by `read_raw_data` until there is none. -/
def readLoop (nm : ℕ → κ) (f : Files κ) : ℕ → ℕ → Option (List Block)
  | 0, _ => none
  | fuel + 1, i =>
    match f.content (nm i) with
    | none => some []
    | some c => (Block.read c).bind fun b => (readLoop nm f fuel (i + 1)).map (b :: ·)

/-- The blocks that `usdt_data_apply` with `read_raw_data` puts behind the empty one it starts with. -/
def readRaw (nm : ℕ → κ) (f : Files κ) : Option (List Block) := readLoop nm f (f.links.entries.length + 1) 0

end

section

variable {σ : Type} {oom : ℕ → Bool} {func : ℕ → Block → Exec σ Bool} {s : σ}

section

variable {I : ℕ → ℕ → σ → Prop} {data : List Block}

/-- The loop, by an invariant of the number of calls, of those that returned 1 and of the state. -/
lemma applyLoop_rule (hstep : ∀ i cnt d s, data[i]? = some d → (0 < i → oom i = false) → I i cnt s →
    I (i + 1) (if (func i d s).1 = some true then cnt + 1 else cnt) (func i d s).2) :
    ∀ (l pre : List Block) (cnt : ℕ) (s : σ), data = pre ++ l → I pre.length cnt s →
      ∃ i ≤ data.length, ∃ cnt' s', I i cnt' s' ∧
        (applyLoop oom func l pre.length cnt s = (none, s') ∧
            (i < data.length ∧ 0 < i ∧ oom i = true ∨ ∃ i cnt d s, I i cnt s ∧ (func i d s).1 = none) ∨
          applyLoop oom func l pre.length cnt s = (some (i, cnt'), s') ∧ i = data.length)
  | [], pre, cnt, s, hdata, hI => by
    obtain rfl : data = pre := by rw [hdata, append_nil]
    exact ⟨_, le_rfl, cnt, s, hI, .inr ⟨rfl, rfl⟩⟩
  | d :: l, pre, cnt, s, hdata, hI => by
    have hlt : pre.length < data.length := by simp [hdata]
    rw [applyLoop]
    split
    next hoom => exact ⟨_, hlt.le, cnt, s, hI, .inl ⟨rfl, .inl ⟨hlt, by simpa using hoom⟩⟩⟩
    next hoom =>
      have hnext := hstep _ cnt d s (by simp [hdata]) (by simpa using hoom) hI
      rcases hcall : func pre.length d s with ⟨_ | ok, s'⟩
      · rw [hcall] at hnext
        exact ⟨_, hlt, _, s', hnext, .inl ⟨bind_none hcall, .inr ⟨_, cnt, d, s, hI, by rw [hcall]⟩⟩⟩
      · rw [hcall] at hnext
        rw [bind_some hcall]
        have hrest := applyLoop_rule hstep l (pre ++ [d]) (if ok then cnt + 1 else cnt) s' (by simp [hdata])
          (by simpa using hnext)
        rwa [length_append, length_singleton] at hrest

/-- Calls of which none fails. -/
lemma applyLoop_total (hoom : ∀ i, oom i = false) (hfunc : ∀ i d s, (func i d s).1 ≠ none)
    (hstep : ∀ i cnt d s, data[i]? = some d → I i cnt s →
      I (i + 1) (if (func i d s).1 = some true then cnt + 1 else cnt) (func i d s).2) (h : I 0 0 s) :
    ∃ cnt s', applyLoop oom func data 0 0 s = (some (data.length, cnt), s') ∧ I data.length cnt s' := by
  obtain ⟨i, -, cnt, s', hI, ⟨-, ⟨-, -, hno⟩ | ⟨i, _, d, s, -, hno⟩⟩ | ⟨hrun, rfl⟩⟩ :=
    @applyLoop_rule _ oom _ _ _ (fun i cnt d s hd _ => hstep i cnt d s hd) data [] 0 s rfl h
  · rw [hoom] at hno
    cases hno
  · exact absurd hno (hfunc i d s)
  · exact ⟨cnt, s', hrun, hI⟩

end

/-- What every call takes one file further, the loop takes to its end, and it holds wherever the loop stops. -/
lemma applyLoop_inv {I : ℕ → σ → Prop} {data : List Block} (hmono : ∀ i s, I i s → I (i + 1) s)
    (hstep : ∀ i d s, i < data.length → I i s → I (i + 1) (func i d s).2) (h : I 0 s) :
    I data.length (applyLoop oom func data 0 0 s).2 := by
  obtain ⟨i, hle, _, s', hI, hrun⟩ := @applyLoop_rule _ oom func (fun i _ s => I i s) _
    (fun i _ d s hd _ => hstep i d s (List.getElem?_eq_some_iff.1 hd).1) data [] 0 s rfl h
  have hend : I data.length s' := le_induction hI (fun i _ => hmono i s') _ hle
  rcases hrun with ⟨hrun, -⟩ | ⟨hrun, -⟩ <;> exact (congrArg Prod.snd hrun).symm ▸ hend

/-- Calls that change nothing and return what `t` says. -/
lemma applyLoop_test {t : ℕ → Block → Bool} (ht : ∀ i d, func i d s = (some (t i d), s)) (data : List Block) :
    (applyLoop oom func data 0 0 s = (none, s) ∧ ∃ j < data.length, 0 < j ∧ oom j = true) ∨
      ∃ n, applyLoop oom func data 0 0 s = (some (data.length, n), s) ∧
        (∀ j < data.length, 0 < j → oom j = false) ∧
        (n = data.length ↔ ∀ j (h : j < data.length), t j data[j] = true) := by
  let I : ℕ → ℕ → σ → Prop := fun i n s' => s' = s ∧ n ≤ i ∧ (∀ j < i, 0 < j → oom j = false) ∧
    (n = i ↔ ∀ j < i, ∀ d, data[j]? = some d → t j d = true)
  have hstep : ∀ i n d s', data[i]? = some d → (0 < i → oom i = false) → I i n s' →
      I (i + 1) (if (func i d s').1 = some true then n + 1 else n) (func i d s').2 := by
    rintro i n d _ hd hoom ⟨rfl, hle, hnames, hall⟩
    rw [ht]
    refine ⟨rfl, by split <;> omega, forall_lt_succ_right.2 ⟨hnames, hoom⟩, ?_⟩
    rw [forall_lt_succ_right, ← hall, hd]
    cases htd : t i d with
    | true => simp [htd]
    | false => simp [htd]; omega
  obtain ⟨i, -, n, _, ⟨rfl, -, hnames, hall⟩, ⟨hrun, hno⟩ | ⟨hrun, rfl⟩⟩ :=
    applyLoop_rule hstep data [] 0 s rfl ⟨rfl, le_rfl, by simp, by simp⟩
  · rcases hno with ⟨hi, hpos, hno⟩ | ⟨_, _, _, _, ⟨rfl, -⟩, hno⟩
    · exact .inl ⟨hrun, i, hi, hpos, hno⟩
    · rw [ht] at hno
      cases hno
  · refine .inr ⟨n, hrun, hnames, hall.trans (forall₂_congr fun j hj => ?_)⟩
    simp [getElem?_eq_getElem hj]

end

section

variable {κ : Type} [DecidableEq κ] {nm : ℕ → κ} {data : List Block} {f f' : Files κ}

/-- All files are found, with the sizes of the blocks. -/
def Stale (fault : Step → Bool) (nm : ℕ → κ) (data : List Block) (f : Files κ) : Prop :=
  ∀ j (h : j < data.length), (0 < j → fault (.nameStale j) = false) ∧ fault (.statRaw j) = false ∧
    ∃ c, f.content (nm j) = some c ∧ c.length = data[j].size

lemma usdtDataApply_stale (fault : Step → Bool) (nm : ℕ → κ) (data : List Block) (f : Files κ) :
    ∃ rc, usdtDataApply (fun i => fault (.nameStale i)) (staleDataFile fault nm) data true f = (rc, f) ∧
      (rc = some 1 ↔ Stale fault nm data f) ∧ (rc = none → ∃ i, fault (.nameStale i) = true) := by
  have htest : ∀ i d, staleDataFile fault nm i d f = (some (match f.content (nm i) with
      | some c => !fault (.statRaw i) && decide (c.length = d.size)
      | none => false), f) := fun _ _ => rfl
  rcases applyLoop_test htest data with ⟨hrun, j, hj, hpos, hname⟩ | ⟨n, hrun, hnames, hall⟩
  · refine ⟨none, bind_none hrun, ⟨fun h => absurd h (by simp), fun h => ?_⟩, fun _ => ⟨_, hname⟩⟩
    rw [(h j hj).1 hpos] at hname
    cases hname
  · refine ⟨_, bind_some hrun, ?_, nofun⟩
    have hstale : Stale fault nm data f ↔ n = data.length := by
      rw [hall]
      refine forall₂_congr fun j hj => ?_
      have hname := hnames j hj
      cases f.content (nm j) with
      | none => simp
      | some c => simpa using fun _ _ => hname
    rw [hstale, if_pos rfl]
    split <;> simp_all

lemma applyLoop_write (nm : ℕ → κ) (data : List Block) (f : Files κ) : ∃ f',
    applyLoop (fun i => noFault (.nameWrite i)) (writeRawData noFault nm) data 0 0 f =
      (some (data.length, data.length), f') ∧
    (∀ d, data.getLast? = some d → f'.content (nm (data.length - 1)) = some d.file) ∧
    (nm.Injective → (∀ j, f.content (nm j) = none) →
      (∀ j (h : j < data.length), f'.content (nm j) = some data[j].file) ∧
        ∀ k, (∀ j < data.length, k ≠ nm j) → f'.content k = f.content k) := by
  let I : ℕ → ℕ → Files κ → Prop := fun i n f' =>
    i = n ∧ (∀ d, data[i - 1]? = some d → 0 < i → f'.content (nm (i - 1)) = some d.file) ∧
      (nm.Injective → (∀ j, f.content (nm j) = none) →
        (∀ j < i, ∀ d, data[j]? = some d → f'.content (nm j) = some d.file) ∧
          ∀ k, (∀ j < i, k ≠ nm j) → f'.content k = f.content k)
  have hstep : ∀ i n d f', data[i]? = some d → I i n f' → I (i + 1)
      (if (writeRawData noFault nm i d f').1 = some true then n + 1 else n) (writeRawData noFault nm i d f').2 := by
    rintro i _ d f' hd ⟨rfl, -, hnew⟩
    have hself : ∀ e, data[i]? = some e → (f'.put (nm i) d.file).content (nm i) = some e.file := fun e he => by
      obtain rfl := mem_unique hd he
      exact content_put_self
    refine ⟨rfl, fun e he _ => hself e he, fun hinj hnone => ?_⟩
    obtain ⟨hin, hout⟩ := hnew hinj hnone
    have hi : f'.content (nm i) = none := (hout _ fun j hj h => absurd (hinj h) (by omega)).trans (hnone i)
    have hput : ∀ k, k ≠ nm i → (f'.put (nm i) d.file).content k = f'.content k := fun k hk =>
      content_put_of_ne hk (.inl (content_eq_none_iff.1 hi))
    refine ⟨forall_lt_succ_right.2 ⟨fun j hj e he => ?_, hself⟩, fun k hk => ?_⟩
    · exact (hput _ fun h => absurd (hinj h) (by omega)).trans (hin j hj e he)
    · obtain ⟨hk, hki⟩ := forall_lt_succ_right.1 hk
      exact (hput k hki).trans (hout k hk)
  obtain ⟨_, f', hrun, rfl, hlast, hnew⟩ := applyLoop_total (fun _ => rfl) (fun _ _ _ => some_ne_none _) hstep
    ⟨rfl, fun _ _ h => absurd h (by omega), fun _ _ => ⟨fun _ h => absurd h (by omega), fun _ _ => rfl⟩⟩
  refine ⟨f', hrun, fun d hd => ?_, fun hinj hnone => ?_⟩
  · rw [getLast?_eq_getElem?] at hd
    exact hlast d hd (by have := (List.getElem?_eq_some_iff.1 hd).1; omega)
  · obtain ⟨hin, hout⟩ := hnew hinj hnone
    exact ⟨fun j hj => hin j hj _ (getElem?_eq_getElem hj), hout⟩

lemma le_links (hnm : Function.Injective nm) {n : ℕ} (h : ∀ j, j < n → f.content (nm j) ≠ none) :
    n ≤ f.links.entries.length := by
  have hle := length_le_links (nodup_range.map hnm) (l := (range n).map nm)
    (forall_mem_map.2 fun j hj => h j (mem_range.1 hj))
  rwa [length_map, length_range] at hle

/-- What is read back is what is in the files, up to the first that is not there. -/
lemma readLoop_eq_some_iff : ∀ {fuel i : ℕ} {data : List Block}, readLoop nm f fuel i = some data ↔
    data.length < fuel ∧ (∀ j (h : j < data.length), f.content (nm (i + j)) = some data[j].file) ∧
      f.content (nm (i + data.length)) = none
  | 0, i, data => by simp [readLoop]
  | fuel + 1, i, data => by
    rw [readLoop]
    rcases hc : f.content (nm i) with _ | c
    · constructor
      · intro h
        cases h
        exact ⟨by simp, by simp, hc⟩
      · rintro ⟨-, hin, -⟩
        rcases data with _ | ⟨d, data⟩
        · rfl
        · have := hin 0 (by simp)
          rw [add_zero, hc] at this
          cases this
    · constructor
      · intro h
        obtain ⟨b, hb, h⟩ := bind_eq_some_iff.1 h
        obtain ⟨_, hrest, rfl⟩ := map_eq_some_iff.1 h
        obtain ⟨hlt, hin, hend⟩ := readLoop_eq_some_iff.1 hrest
        rw [add_right_comm, add_assoc] at hend
        refine ⟨by simpa using hlt, fun j hj => ?_, hend⟩
        rcases j with _ | j
        · rw [add_zero, hc, Block.read_eq_some_iff.1 hb]
          rfl
        · have := hin j (by simpa using hj)
          rwa [add_right_comm, add_assoc] at this
      · rintro ⟨hlt, hin, hend⟩
        rcases data with _ | ⟨d, data⟩
        · rw [length_nil, add_zero, hc] at hend
          cases hend
        · have hd := hin 0 (by simp)
          rw [add_zero, hc] at hd
          have hrest : readLoop nm f fuel (i + 1) = some data := by
            refine readLoop_eq_some_iff.2 ⟨by simpa using hlt, fun j hj => ?_, ?_⟩
            · rw [add_right_comm, add_assoc]
              exact hin (j + 1) (by simpa using hj)
            · rwa [add_right_comm, add_assoc]
          simp only [Block.read_eq_some_iff.2 (Option.some.inj hd), hrest, Option.bind_some, map_some]
          rfl

lemma dofStashWriteRaw_stale {fault : Step → Bool} (h : Stale fault nm data f) :
    dofStashWriteRaw fault nm data f = (some 0, f) := by
  obtain ⟨_, hrun, hrc, -⟩ := usdtDataApply_stale fault nm data f
  obtain rfl := hrc.2 h
  rw [dofStashWriteRaw, bind_some hrun, if_pos rfl]
  rfl

/-- Files that have been written are never taken for the same as the data: they are eight bytes longer. -/
lemma dofStashWriteRaw_not_stale (h : ¬Stale noFault nm data f) :
    ∃ f', dofStashWriteRaw noFault nm data f = (some 1, f') ∧ ¬Stale noFault nm data f' ∧
      f' = (applyLoop (fun i => noFault (.nameWrite i)) (writeRawData noFault nm) data 0 0 f).2 := by
  obtain ⟨rc, hrun, hrc, hsome⟩ := usdtDataApply_stale noFault nm data f
  obtain ⟨rc, rfl⟩ : ∃ n, rc = some n := ne_none_iff_exists'.1 fun hnone => by
    obtain ⟨i, hi⟩ := hsome hnone
    cases hi
  have hne : rc ≠ 1 := fun h' => h (hrc.1 (by rw [h']))
  obtain ⟨f', hwrite, hlast, -⟩ := applyLoop_write nm data f
  have happly : usdtDataApply (fun i => noFault (.nameWrite i)) (writeRawData noFault nm) data true f =
      (some 1, f') := by
    rw [usdtDataApply, bind_some hwrite]
    simp only [if_true]
    rfl
  refine ⟨f', ?_, fun hstale => ?_, by rw [hwrite]⟩
  · rw [dofStashWriteRaw, bind_some hrun, if_neg hne, bind_some happly, if_pos (by decide)]
    rfl
  · have hne : data ≠ [] := by
      rintro rfl
      exact h fun j hj => absurd hj (by simp)
    have hpos := length_pos_of_ne_nil hne
    obtain ⟨-, -, c, hc, hlen⟩ := hstale (data.length - 1) (by omega)
    rw [← getLast_eq_getElem hne] at hlen
    have hfile := hlast (data.getLast hne) (getLast?_eq_some_getLast hne)
    rw [hc] at hfile
    cases hfile
    rw [Block.length_file] at hlen
    omega

lemma usdtDataApply_remove (nm : ℕ → κ) (data : List Block) (f : Files κ) :
    ∃ f', usdtDataApply (fun _ => false) (removeDataFile nm) data false f = (some data.length, f') ∧
      (∀ j < data.length, f'.content (nm j) = none) ∧
      ∀ k, (∀ j < data.length, k ≠ nm j) → f'.content k = f.content k := by
  let I : ℕ → ℕ → Files κ → Prop := fun i n f' =>
    i = n ∧ (∀ j < i, f'.content (nm j) = none) ∧ ∀ k, (∀ j < i, k ≠ nm j) → f'.content k = f.content k
  have hstep : ∀ i n d f', data[i]? = some d → I i n f' → I (i + 1)
      (if (removeDataFile nm i d f').1 = some true then n + 1 else n) (removeDataFile nm i d f').2 := by
    rintro i _ d f' - ⟨rfl, hin, hout⟩
    refine ⟨rfl, forall_lt_succ_right.2 ⟨fun j hj => ?_, content_unlink_self⟩, fun k hk => ?_⟩
    · by_cases hji : nm j = nm i
      · rw [hji]
        exact content_unlink_self
      · exact (content_unlink_of_ne hji).trans (hin j hj)
    · obtain ⟨hk, hki⟩ := forall_lt_succ_right.1 hk
      exact (content_unlink_of_ne hki).trans (hout k hk)
  obtain ⟨_, f', hrun, rfl, hin, hout⟩ := applyLoop_total (fun _ => rfl) (fun _ _ _ => some_ne_none _) hstep
    ⟨rfl, fun _ h => absurd h (by omega), fun _ _ => rfl⟩
  exact ⟨f', bind_some hrun, hin, hout⟩

/-- Files of a list, with failures: nothing is done if all are found, and no other name comes up.  Files that were not
there do not touch the others. -/
lemma dofStashWriteRaw_spec (fault : Step → Bool) (hnm : Function.Injective nm) (data : List Block) (f : Files κ) :
    ∃ rc f', dofStashWriteRaw fault nm data f = (rc, f') ∧ (rc = some 0 ↔ Stale fault nm data f) ∧
      (rc = some 0 → f' = f) ∧ (∀ k, (∀ j < data.length, k ≠ nm j) → f'.content k ≠ none → f.content k ≠ none) ∧
      ((∀ j < data.length, f.content (nm j) = none) → f.Extends f') := by
  obtain ⟨rc, hrun, hrc, -⟩ := usdtDataApply_stale fault nm data f
  by_cases hstale : Stale fault nm data f
  · exact ⟨some 0, f, dofStashWriteRaw_stale hstale, by simp [hstale], fun _ => rfl, fun _ _ h => h,
      fun _ => .refl f⟩
  -- what holds while the files are written
  let I : ℕ → Files κ → Prop := fun i f' =>
    (∀ k, (∀ j < data.length, k ≠ nm j) → f'.content k ≠ none → f.content k ≠ none) ∧
    ((∀ j < data.length, f.content (nm j) = none) →
      f.Extends f' ∧ ∀ j, i ≤ j → j < data.length → f'.content (nm j) = none)
  have hmono : ∀ i f', I i f' → I (i + 1) f' := fun i f' h =>
    ⟨h.1, fun hnew => ⟨(h.2 hnew).1, fun j hj => (h.2 hnew).2 j (by omega)⟩⟩
  have hstep : ∀ i d f', i < data.length → I i f' → I (i + 1) (writeRawData fault nm i d f').2 := by
    intro i d f' hi h
    rw [writeRawData]
    split
    · exact hmono i f' h
    · refine ⟨fun k hk hne => ?_, fun hnew => ?_⟩
      · refine h.1 k hk fun hnone => hne ?_
        rw [content_eq_none_iff, ino_put_of_ne (hk i hi)]
        exact content_eq_none_iff.1 hnone
      · obtain ⟨hext, hlater⟩ := h.2 hnew
        refine ⟨hext.put (hlater i (le_refl i) hi), fun j hj hj' => ?_⟩
        rw [content_eq_none_iff, ino_put_of_ne fun h => absurd (hnm h) (by omega)]
        exact content_eq_none_iff.1 (hlater j (by omega) hj')
  have hI : I data.length (usdtDataApply (fun i => fault (.nameWrite i)) (writeRawData fault nm) data true f).2 := by
    rw [usdtDataApply, bind_pure_snd]
    exact applyLoop_inv hmono hstep ⟨fun _ _ h => h, fun hnew => ⟨.refl f, fun j _ => hnew j⟩⟩
  rcases rc with _ | n
  · refine ⟨none, f, ?_, by simp [hstale], fun _ => rfl, fun _ _ h => h, fun _ => .refl f⟩
    rw [dofStashWriteRaw, bind_none hrun]
  have hn : n ≠ 1 := fun h => hstale (hrc.1 (by rw [h]))
  rcases hwrite : usdtDataApply (fun i => fault (.nameWrite i)) (writeRawData fault nm) data true f with
    ⟨_ | n', f'⟩
  · rw [hwrite] at hI
    refine ⟨none, f', ?_, by simp [hstale], nofun, hI.1, fun hnew => (hI.2 hnew).1⟩
    rw [dofStashWriteRaw, bind_some hrun, if_neg hn, bind_none hwrite]
  rw [hwrite] at hI
  by_cases hn' : n' = 0
  · -- the files that have been written are removed
    obtain ⟨f'', hremove, -, hout⟩ := usdtDataApply_remove nm data f'
    refine ⟨none, f'', ?_, by simp [hstale], nofun, fun k hk hne => ?_, fun hnew k c hc => ?_⟩
    · rw [dofStashWriteRaw, bind_some hrun, if_neg hn, bind_some hwrite, if_neg (not_not.2 hn'),
        bind_some hremove]
      rfl
    · rw [hout k hk] at hne
      exact hI.1 k hk hne
    · rw [hout k fun j hj h => ?_]
      · exact (hI.2 hnew).1 k c hc
      · rw [h, hnew j hj] at hc
        cases hc
  · refine ⟨some n', f', ?_, by simp [hstale, hn'], fun h => ?_, hI.1, fun hnew => (hI.2 hnew).1⟩
    · rw [dofStashWriteRaw, bind_some hrun, if_neg hn, bind_some hwrite, if_pos hn']
      rfl
    · exact absurd (Option.some.inj h) hn'

end

section

variable (m : Mapping) (data : List Block) (f : Files File)

/-- The list comes back, and writing it again is found to be unnecessary, if there was nothing to write and nothing
there.  Files that are not there yet are written and read back as they should be. -/
theorem raw_iff : let written := dofStashWriteRaw noFault (File.dof m) data f
    (readRaw (File.dof m) written.2 = some data ∧
        dofStashWriteRaw noFault (File.dof m) data written.2 = (some 0, written.2) ↔
      data = [] ∧ f.content (.dof m 0) = none) ∧
    ((∀ i, f.content (.dof m i) = none) → readRaw (File.dof m) written.2 = some data) := by
  intro written
  have hinj : Function.Injective (File.dof m) := fun i j h => by injection h
  have hnil : Stale noFault (File.dof m) [] f := fun j hj => absurd hj (by simp)
  refine ⟨⟨?_, ?_⟩, ?_⟩
  · rintro ⟨hread, hagain⟩
    have hstale : Stale noFault (File.dof m) data written.2 := by
      by_contra hnot
      obtain ⟨f', hrun, -⟩ := dofStashWriteRaw_not_stale hnot
      rw [hrun] at hagain
      simp at hagain
    obtain ⟨-, hin, hend⟩ := readLoop_eq_some_iff.1 hread
    -- a file that is read back has eight bytes more than its block
    have hdata : data = [] := by
      by_contra hne
      have hpos := length_pos_of_ne_nil hne
      obtain ⟨-, -, c, hc, hlen⟩ := hstale 0 hpos
      have hfile := hin 0 hpos
      rw [zero_add, hc] at hfile
      rw [Option.some.inj hfile, Block.length_file] at hlen
      omega
    subst hdata
    have hwritten : written = (some 0, f) := dofStashWriteRaw_stale hnil
    exact ⟨rfl, hend⟩
  · rintro ⟨rfl, hnone⟩
    have hwritten : written = (some 0, f) := dofStashWriteRaw_stale hnil
    rw [hwritten]
    exact ⟨readLoop_eq_some_iff.2 ⟨by simp, by simp, hnone⟩, dofStashWriteRaw_stale hnil⟩
  · intro hnew
    by_cases hstale : Stale noFault (File.dof m) data f
    · have hdata : data = [] := by
        by_contra hne
        obtain ⟨-, -, c, hc, -⟩ := hstale 0 (length_pos_of_ne_nil hne)
        rw [hnew 0] at hc
        cases hc
      subst hdata
      have hwritten : written = (some 0, f) := dofStashWriteRaw_stale hnil
      rw [hwritten]
      exact readLoop_eq_some_iff.2 ⟨by simp, by simp, hnew _⟩
    · obtain ⟨_, hwritten, -, rfl⟩ := dofStashWriteRaw_not_stale hstale
      obtain ⟨_, hwrite, -, hall⟩ := applyLoop_write (File.dof m) data f
      obtain ⟨hin, hout⟩ := hall hinj hnew
      have hwritten : written = _ := hwritten
      rw [hwritten, hwrite]
      refine readLoop_eq_some_iff.2 ⟨?_, fun j hj => by rw [zero_add]; exact hin j hj, ?_⟩
      · refine lt_succ_of_le (le_links hinj fun j hj hnone => ?_)
        rw [hin j hj] at hnone
        cases hnone
      · exact (hout _ fun j hj h => absurd (hinj h) (by omega)).trans (hnew _)

end

/-- Two blocks, in a directory without files. -/
theorem raw_empty : let data : List Block := [⟨16, [1, 2]⟩, ⟨32, []⟩]
    readRaw (File.dof (1, 2)) (dofStashWriteRaw noFault (File.dof (1, 2)) data .empty).2 = some data := by
  exact (raw_iff (1, 2) _ .empty).2 fun _ => rfl

/-- One block of two bytes is written again the second time. -/
theorem raw_again : let data : List Block := [⟨16, [1, 2]⟩]
    let written := dofStashWriteRaw noFault (File.dof (1, 2)) data .empty
    written.1 = some 1 ∧ (dofStashWriteRaw noFault (File.dof (1, 2)) data written.2).1 = some 1 := by
  decide

end DTrace.Stash
