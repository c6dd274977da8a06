import DTrace.Lib.Bytes
import Mathlib.Data.List.TakeWhile

/-!
# Names in the stash

Parsed probes are files that are named after the four parts of the probe, with colons between them.  When a mapping is
removed, the parts are taken from the file name again.

* `makeProbespecName`, `splitProbespecName` — the file name of a probe, and back;
* `writtenPath`, `removedPath` — where the probe is linked to, and what is removed;
* `probespec_iff` — the parts come back if they have no colons, the last one apart.
-/

namespace DTrace.Stash

open Lib List Option

def makeNumericName (num : ℤ) : Bytes := (toString num).toList.map fun c => BitVec.ofNat 8 c.toNat

def makeProvpidName (prov : Bytes) (pid : ℤ) : Bytes := prov ++ makeNumericName pid

/-- `'.'`, `'/'` and `':'`. -/
def dot : BitVec 8 := 46
def slash : BitVec 8 := 47
def colon : BitVec 8 := 58

/-- A part that could lead elsewhere in a path. -/
def isUnsafe (part : Bytes) : Bool := decide (part = [dot] ∨ part = [dot, dot] ∨ slash ∈ part)

def makeProbespecName (prov mod fn prb : Bytes) : Option Bytes :=
  if isUnsafe prov || isUnsafe mod || isUnsafe fn || isUnsafe prb then none
  else some (prov ++ colon :: (mod ++ colon :: (fn ++ colon :: prb)))

/-- `strchr(s, ':')`: what is before it and what is behind it. -/
def cut (s : Bytes) : Option (Bytes × Bytes) :=
  if colon ∈ s then some (s.takeWhile (· ≠ colon), (s.dropWhile (· ≠ colon)).tail) else none

def splitProbespecName (spec : Bytes) : Option (Bytes × Bytes × Bytes × Bytes) := do
  let (prov, rest) ← cut spec
  let (mod, rest) ← cut rest
  let (fn, prb) ← cut rest
  some (prov, mod, fn, prb)

/-- Where `dof_stash_write_parsed` links a probe to, below the directory of probes. -/
def writtenPath (pid : ℤ) (prov mod fn prb : Bytes) : List Bytes :=
  [makeNumericName pid, makeProvpidName prov pid, mod, fn, prb]

/-- What `dof_stash_remove_parsed` removes there for a file of parsed data. -/
def removedPath (pid : ℤ) (spec : Bytes) : Option (List Bytes) :=
  (splitProbespecName spec).map fun (prov, mod, fn, prb) =>
    [makeNumericName pid, makeProvpidName prov pid, mod, fn, prb]

section

variable {s rest : Bytes}

lemma cut_append (h : colon ∉ s) : cut (s ++ colon :: rest) = some (s, rest) := by
  have hall : ∀ c ∈ s, decide (c ≠ colon) = true := by
    intro c hc
    rw [decide_eq_true_iff]
    rintro rfl
    exact h hc
  rw [cut, if_pos (by simp), takeWhile_append_of_pos hall, dropWhile_append_of_pos hall,
    takeWhile_cons_of_neg (by simp), dropWhile_cons_of_neg (by simp), append_nil]
  rfl

lemma not_mem_of_cut {a b : Bytes} (h : cut s = some (a, b)) : colon ∉ a := by
  rw [cut] at h
  split at h
  · obtain ⟨rfl, -⟩ := Prod.mk.injEq .. ▸ Option.some.inj h
    intro hmem
    simpa using mem_takeWhile_imp hmem
  · cases h

end

section

variable {prov mod fn prb spec : Bytes}

section

variable (hmake : makeProbespecName prov mod fn prb = some spec)
include hmake

lemma makeProbespecName_eq : spec = prov ++ colon :: (mod ++ colon :: (fn ++ colon :: prb)) := by
  rw [makeProbespecName] at hmake
  split at hmake
  · cases hmake
  · exact (Option.some.inj hmake).symm

lemma splitProbespecName_make (hprov : colon ∉ prov)
    (hmod : colon ∉ mod) (hfn : colon ∉ fn) : splitProbespecName spec = some (prov, mod, fn, prb) := by
  rw [makeProbespecName_eq hmake, splitProbespecName]
  simp only [cut_append hprov, cut_append hmod, cut_append hfn, bind_eq_bind, bind_some]

lemma removedPath_make (hprov : colon ∉ prov) (hmod : colon ∉ mod) (hfn : colon ∉ fn) (pid : ℤ) :
    removedPath pid spec = some (writtenPath pid prov mod fn prb) := by
  rw [removedPath, splitProbespecName_make hmake hprov hmod hfn]
  rfl

end

/-- The name of a probe can be split into its parts, and what is removed is what has been written, exactly if there is
no colon in the provider, in the module and in the function. -/
theorem probespec_iff {prov mod fn prb spec : Bytes} (pid : ℤ)
    (hmake : makeProbespecName prov mod fn prb = some spec) :
    (splitProbespecName spec = some (prov, mod, fn, prb) ∧
        removedPath pid spec = some (writtenPath pid prov mod fn prb)) ↔
      colon ∉ prov ∧ colon ∉ mod ∧ colon ∉ fn := by
  constructor
  · rintro ⟨hsplit, -⟩
    rw [splitProbespecName] at hsplit
    simp only [bind_eq_bind, bind_eq_some_iff] at hsplit
    obtain ⟨⟨a, r⟩, ha, ⟨b, _⟩, hb, ⟨c, d⟩, hc, habcd⟩ := hsplit
    cases habcd
    exact ⟨not_mem_of_cut ha, not_mem_of_cut hb, not_mem_of_cut hc⟩
  · rintro ⟨hprov, hmod, hfn⟩
    exact ⟨splitProbespecName_make hmake hprov hmod hfn, removedPath_make hmake hprov hmod hfn pid⟩

end

theorem probespec_plain : splitProbespecName [97, 58, 109, 58, 102, 58, 113] = some ([97], [109], [102], [113]) :=
  ((probespec_iff 1 (by decide)).2 (by decide)).1

/-- The provider `a:b`: its probes are looked for under the provider `a`. -/
theorem colon_provider :
    makeProbespecName [97, 58, 98] [109] [102] [113] = some [97, 58, 98, 58, 109, 58, 102, 58, 113] ∧
    splitProbespecName [97, 58, 98, 58, 109, 58, 102, 58, 113] ≠ some ([97, 58, 98], [109], [102], [113]) := by
  decide

end DTrace.Stash
