import DTrace.Probe.Desc
import DTrace.Usdt.Keyed
import DTrace.Usdt.Notes
import Mathlib.Data.List.ReduceOption

/-!
# Looking up probes

The probes of a handle are in an array, by id, and in five hash tables: by each element of the name and by the whole
name.  A search goes through the table of an element that is given exactly, if there is one.

* `dtProbeInsert`, `dtProbeDelete` — registration;
* `dtProbeLookup`, `dtProbeIter` — the searches; before it searches `dt_probe_iter` asks the providers;
* `Indexed` — the array and the tables have the same probes;
* `visits` — the probes that a search comes upon, in its order;
* `search_filter` — they are the registered probes that match;
* `delete_exact` — what is left after a deletion.
-/

namespace DTrace.Probe

open Lib List Option
open Usdt (Ops Htab dtHtabCreate dtHtabInsert dtHtabLookup dtHtabDelete dtHtabFind keyOps chain Keyed str2hval)

/-- The elements of a description. -/
inductive Elem
  | prv
  | mod
  | fn
  | prb
  deriving DecidableEq

def Desc.elem (d : Desc) : Elem → Bytes
  | .prv => d.prv
  | .mod => d.mod
  | .fn => d.fn
  | .prb => d.prb

/-- A `dt_probe_t`, as far as it is looked up. -/
structure DtProbe where
  id : ℕ
  desc : Desc
  deriving DecidableEq

/-- `DEFINE_HE_FUNCS`: an element is hashed and compared. -/
def elemOps (el : Elem) : Ops DtProbe := keyOps (·.desc.elem el) (str2hval · 0)

def prvOps : Ops DtProbe := elemOps .prv
def modOps : Ops DtProbe := elemOps .mod
def funOps : Ops DtProbe := elemOps .fn
def prbOps : Ops DtProbe := elemOps .prb

def fqnHval (d : Desc) : BitVec 32 :=
  let hval := str2hval [colon] (str2hval d.prv 0)
  let hval := str2hval [colon] (str2hval d.mod hval)
  let hval := str2hval [colon] (str2hval d.fn hval)
  str2hval d.prb hval

/-- The whole name is hashed and compared: `fqn_hval` and `fqn_cmp`. -/
def fqnOps : Ops DtProbe := keyOps DtProbe.desc fqnHval

/-! ## Registration -/

/-- The probes of a `dtrace_hdl_t`. -/
structure Probes where
  /-- `dt_probes`, up to `dt_probe_id`; empty while the array is not there. -/
  probes : List (Option DtProbe)
  byprv : Htab DtProbe
  bymod : Htab DtProbe
  byfun : Htab DtProbe
  byprb : Htab DtProbe
  byfqn : Htab DtProbe

/-- `dt_probe_id`: the first id is 1. -/
def Probes.probeId (s : Probes) : ℕ := max 1 s.probes.length

def Probes.table (s : Probes) : Elem → Htab DtProbe
  | .prv => s.byprv
  | .mod => s.bymod
  | .fn => s.byfun
  | .prb => s.byprb

/-- The probes that are registered, by id. -/
def Probes.registered (s : Probes) : List DtProbe := s.probes.reduceOption

def dtProbeInit : Probes := ⟨[], dtHtabCreate, dtHtabCreate, dtHtabCreate, dtHtabCreate, dtHtabCreate⟩

/-- `dt_probe_insert`; the slot of id 0 comes with the array. -/
def dtProbeInsert (s : Probes) (d : Desc) : Probes :=
  let prp : DtProbe := ⟨s.probeId, d⟩
  { probes := (if s.probes.isEmpty then [none] else s.probes) ++ [some prp]
    byprv := dtHtabInsert prvOps s.byprv prp
    bymod := dtHtabInsert modOps s.bymod prp
    byfun := dtHtabInsert funOps s.byfun prp
    byprb := dtHtabInsert prbOps s.byprb prp
    byfqn := dtHtabInsert fqnOps s.byfqn prp }

def dtProbeDelete (s : Probes) (prp : DtProbe) : Probes where
  probes := s.probes.set prp.id none
  byprv := dtHtabDelete prvOps s.byprv prp
  bymod := dtHtabDelete modOps s.bymod prp
  byfun := dtHtabDelete funOps s.byfun prp
  byprb := dtHtabDelete prbOps s.byprb prp
  byfqn := dtHtabDelete fqnOps s.byfqn prp

/-- What registration can come to. -/
inductive Reachable : Probes → Prop
  | init : Reachable dtProbeInit
  | insert {s : Probes} (d : Desc) : Reachable s → Reachable (dtProbeInsert s d)
  | delete {s : Probes} {prp : DtProbe} : Reachable s → prp ∈ s.registered → Reachable (dtProbeDelete s prp)

/-! ## Matching -/

def strisglob (s : Bytes) : Bool := s.any fun c => c = 91 || c = 63 || c = 42 || c = 92

/-- `p_is_glob` and the like: an element that is not to be found as it is. -/
def isGlob (s : Bytes) : Bool := s.isEmpty || strisglob s

/-- The description that `dt_probe_gmatch` gets: elements that can be `NULL`, and in its `id` which are globs. -/
structure Globs where
  text : Elem → Option Bytes
  glob : Elem → Bool

def globs (d : Desc) : Globs := ⟨fun el => some (d.elem el), fun el => isGlob (d.elem el)⟩

/-- `desc.nam = NULL`. -/
def Globs.without (g : Globs) (el : Elem) : Globs := { g with text := Function.update g.text el none }

-- `fnmatch` without flags, on a pattern and a string
variable (fnmatch : Bytes → Bytes → Bool)

def dtGmatch (s p : Bytes) : Bool := p.isEmpty || fnmatch p s

def matchOne (prp : DtProbe) (g : Globs) (el : Elem) : Bool :=
  match g.text el with
  | none => true
  | some p => if g.glob el then dtGmatch fnmatch (prp.desc.elem el) p else prp.desc.elem el = p

def dtProbeGmatch (g : Globs) (prp : DtProbe) : Bool :=
  matchOne fnmatch prp g .prv && matchOne fnmatch prp g .mod && matchOne fnmatch prp g .fn &&
    matchOne fnmatch prp g .prb

/-! ## Searches -/

/-- A `dtrace_probedesc_t`; the id 0 is `DTRACE_IDNONE`. -/
structure ProbeDesc where
  id : ℕ
  desc : Desc

def Desc.exact (d : Desc) : Bool :=
  !isGlob d.prv && !isGlob d.mod && !isGlob d.fn && !isGlob d.prb

/-- The element whose table is consulted. -/
def Desc.preferred (d : Desc) : Option Elem :=
  if !isGlob d.fn then some .fn
  else if !isGlob d.prb then some .prb
  else if !isGlob d.mod then some .mod
  else if !isGlob d.prv then some .prv
  else none

def tmpl (d : Desc) : DtProbe := ⟨0, d⟩

def Probes.direct (s : Probes) (id : ℕ) : Option DtProbe :=
  if s.probeId ≤ id then none else s.probes.getD id none

/-- The probes in `dt_probes`; there is nothing to read while the array is not there. -/
def Probes.scan (s : Probes) : Option (List DtProbe) :=
  if s.probes.isEmpty then none else some s.registered

/-- `dt_probe_lookup`: no result when it reads an array that is not there. -/
def dtProbeLookup (s : Probes) (pdp : ProbeDesc) : Option (Option DtProbe) :=
  if pdp.id ≠ 0 then some (s.direct pdp.id)
  else if pdp.desc.exact then some (dtHtabLookup fqnOps s.byfqn (tmpl pdp.desc))
  else match pdp.desc.preferred with
    | some el =>
      some (dtHtabFind (elemOps el) (s.table el) (tmpl pdp.desc) (dtProbeGmatch fnmatch (globs pdp.desc)))
    | none => s.scan.map fun ps => ps.find? (dtProbeGmatch fnmatch (globs pdp.desc))

/-- A provider: what its `provide` registers, if it has one. -/
structure Provider where
  name : Bytes
  provide : Option (Desc → Probes → List Desc)

/-- The providers that can have matching probes are asked for them. -/
def provide (pdp : Desc) (s : Probes) : List Provider → Probes
  | [] => s
  | pvp :: pvps =>
    match pvp.provide with
    | none => provide pdp s pvps
    | some f =>
      if dtGmatch fnmatch pvp.name pdp.prv then
        provide pdp ((f { pdp with prv := pvp.name } s).foldl dtProbeInsert s) pvps
      else provide pdp s pvps

/-- What `dt_probe_iter` returns: the value of the callback that stopped it, 0 or `EDT_NOPROBE`. -/
inductive Result
  | stopped (rv : ℤ)
  | ok
  | noProbe
  deriving DecidableEq

/-- The callback, with what it keeps, on the probes that match; `matches` have been counted. -/
def visit {σ : Type} (func : σ → DtProbe → σ × ℤ) (p : DtProbe → Bool) : List DtProbe → ℕ → σ → σ × Result
  | [], n, arg => (arg, if n ≠ 0 then .ok else .noProbe)
  | prp :: ps, n, arg =>
    if !p prp then visit func p ps n arg
    else
      let (arg, rv) := func arg prp
      if rv ≠ 0 then (arg, .stopped rv) else visit func p ps (n + 1) arg

/-- `dt_probe_iter`, with the probes that are registered in the end. -/
def dtProbeIter {σ : Type} (func : σ → DtProbe → σ × ℤ) (provs : List Provider) (s : Probes) (pdp : Option ProbeDesc)
    (arg : σ) : Option (Probes × σ × Result) :=
  match pdp with
  | none => s.scan.map fun ps => (s, visit func (fun _ => true) ps 0 arg)
  | some pdp =>
    if pdp.id ≠ 0 then some (s, visit func (fun _ => true) (s.direct pdp.id).toList 0 arg)
    else
      let s := provide fnmatch pdp.desc s provs
      if pdp.desc.exact then
        some (s, visit func (fun _ => true) (dtHtabLookup fqnOps s.byfqn (tmpl pdp.desc)).toList 0 arg)
      else match pdp.desc.preferred with
        | some el =>
          some (s, visit func (dtProbeGmatch fnmatch ((globs pdp.desc).without el))
            (chain (elemOps el) (s.table el) (tmpl pdp.desc)) 0 arg)
        | none => s.scan.map fun ps => (s, visit func (dtProbeGmatch fnmatch (globs pdp.desc)) ps 0 arg)

/-! ## The array and the tables -/

section

variable {fnmatch} {s : Probes} {d : Desc} {prp : DtProbe}

/-- The table has the registered probes, by their key. -/
structure Filed {κ : Type} (key : DtProbe → κ) (hash : κ → BitVec 32) (s : Probes) (t : Htab DtProbe) : Prop where
  keyed : Keyed key hash t
  perm : t.list.Perm s.registered

/-- The array and the tables have the same probes. -/
structure Indexed (s : Probes) : Prop where
  ids : ∀ i (p : DtProbe), s.probes[i]? = some (some p) → p.id = i
  table : ∀ el, Filed (·.desc.elem el) (str2hval · 0) s (s.table el)
  fqn : Filed DtProbe.desc fqnHval s s.byfqn

lemma registered_insert (s : Probes) (d : Desc) :
    (dtProbeInsert s d).registered = s.registered ++ [⟨s.probeId, d⟩] := by
  rw [Probes.registered, dtProbeInsert, reduceOption_append, Probes.registered]
  rcases hs : s.probes with _ | ⟨p, _⟩ <;> rfl

lemma length_grown (s : Probes) : (if s.probes.isEmpty then [none] else s.probes).length = s.probeId := by
  rcases hs : s.probes with _ | ⟨p, _⟩ <;> simp [Probes.probeId, hs]

lemma Indexed.around (h : Indexed s) (hp : prp ∈ s.registered) :
    ∃ before after, s.probes = before ++ some prp :: after ∧ before.length = prp.id := by
  obtain ⟨i, hi, hget⟩ := getElem_of_mem (reduceOption_mem_iff.1 hp)
  have hid : prp.id = i := h.ids i prp (by rw [getElem?_eq_getElem hi, hget])
  refine ⟨s.probes.take i, s.probes.drop (i + 1), ?_, ?_⟩
  · rw [← hget, getElem_cons_drop, take_append_drop]
  · rw [length_take, hid]
    omega

lemma Indexed.registered_delete (h : Indexed s) (hp : prp ∈ s.registered) :
    (dtProbeDelete s prp).registered.Perm (s.registered.erase prp) := by
  obtain ⟨before, after, hprobes, hlen⟩ := h.around hp
  have hset : (dtProbeDelete s prp).registered = before.reduceOption ++ after.reduceOption := by
    rw [Probes.registered, dtProbeDelete, hprobes, ← hlen]
    simp [reduceOption_append]
  have hold : s.registered.Perm (prp :: (dtProbeDelete s prp).registered) := by
    rw [hset, Probes.registered, hprobes, reduceOption_append, reduceOption_cons_of_some]
    exact perm_middle
  have herase := hold.erase prp
  rw [erase_cons_head] at herase
  exact herase.symm

section

variable {κ : Type} [DecidableEq κ] {key : DtProbe → κ} {hash : κ → BitVec 32} {t : Htab DtProbe}

lemma Filed.insert (h : Filed key hash s t) (d : Desc) :
    Filed key hash (dtProbeInsert s d) (dtHtabInsert (keyOps key hash) t ⟨s.probeId, d⟩) where
  keyed := h.keyed.insert _
  perm := by
    rw [registered_insert]
    exact (Usdt.list_insert h.keyed.pos _).trans ((h.perm.cons _).trans (perm_append_singleton _ _).symm)

lemma Filed.delete (h : Filed key hash s t) (hs : Indexed s) (hp : prp ∈ s.registered) :
    Filed key hash (dtProbeDelete s prp) (dtHtabDelete (keyOps key hash) t prp) where
  keyed := h.keyed.delete (h.perm.mem_iff.2 hp)
  perm := (h.keyed.list_delete (h.perm.mem_iff.2 hp)).trans
    ((h.perm.erase prp).trans (hs.registered_delete hp).symm)

lemma Filed.chain_perm (h : Filed key hash s t) (e : DtProbe) :
    (chain (keyOps key hash) t e).Perm (s.registered.filter (key · = key e)) := by
  rw [h.keyed.chain_eq]
  exact h.perm.filter _

end

lemma indexed_init : Indexed dtProbeInit where
  ids i p hp := by simp [dtProbeInit] at hp
  table el := ⟨by cases el <;> exact Usdt.keyed_create, by cases el <;> exact List.Perm.refl _⟩
  fqn := ⟨Usdt.keyed_create, List.Perm.refl _⟩

lemma Indexed.insert (h : Indexed s) (d : Desc) : Indexed (dtProbeInsert s d) where
  ids := by
    intro i p hp
    rw [dtProbeInsert, getElem?_append, length_grown s] at hp
    split at hp
    · refine h.ids i p ?_
      rcases hs : s.probes with _ | ⟨q, _⟩
      · rw [hs] at hp
        rcases i with _ | i <;> simp at hp
      · simpa [hs] using hp
    · rw [getElem?_singleton] at hp
      split at hp
      · obtain rfl : p = ⟨s.probeId, d⟩ := by simpa using hp.symm
        simp only
        omega
      · cases hp
  table el := by cases el <;> exact (h.table _).insert d
  fqn := h.fqn.insert d

lemma Indexed.delete (h : Indexed s) (hp : prp ∈ s.registered) : Indexed (dtProbeDelete s prp) where
  ids := by
    intro i p hget
    rw [dtProbeDelete, getElem?_set] at hget
    split at hget
    · split at hget <;> simp at hget
    · exact h.ids i p hget
  table el := by cases el <;> exact (h.table _).delete h hp
  fqn := h.fqn.delete h hp

lemma Reachable.indexed (h : Reachable s) : Indexed s := by
  induction h with
  | init => exact indexed_init
  | insert d _ ih => exact ih.insert d
  | delete _ hp ih => exact ih.delete hp

lemma Indexed.nodup (h : Indexed s) : s.registered.Nodup := by
  rw [Probes.registered, reduceOption, List.Nodup, pairwise_filterMap, pairwise_iff_getElem]
  intro i j hi hj hij p hp q hq heq
  have hpi : p.id = i := h.ids i p (by rw [getElem?_eq_getElem hi]; exact congrArg some hp)
  have hqj : q.id = j := h.ids j q (by rw [getElem?_eq_getElem hj]; exact congrArg some hq)
  rw [heq] at hpi
  omega

lemma Indexed.direct_iff (h : Indexed s) (id : ℕ) : s.direct id = some prp ↔ prp ∈ s.registered ∧ prp.id = id := by
  rw [Probes.direct, Probes.registered, reduceOption_mem_iff, mem_iff_getElem?]
  constructor
  · intro hp
    split at hp
    · cases hp
    · have hget : s.probes[id]? = some (some prp) := by
        cases hget : s.probes[id]? with
        | none => simp [hget] at hp
        | some q => simpa [hget] using hp
      exact ⟨⟨id, hget⟩, h.ids id prp hget⟩
  · rintro ⟨⟨i, hget⟩, rfl⟩
    obtain rfl : prp.id = i := h.ids i prp hget
    obtain ⟨hlt, -⟩ := List.getElem?_eq_some_iff.1 hget
    rw [if_neg (by rw [Probes.probeId]; omega), getD_eq_getElem?_getD, hget, getD_some]

/-! ## Descriptions -/

variable (fnmatch) in
/-- An element that is empty matches anything, one with a glob what `fnmatch` says, another one itself. -/
def elemMatches (pattern name : Bytes) : Bool :=
  if pattern.isEmpty then true else if strisglob pattern then fnmatch pattern name else name = pattern

variable (fnmatch) in
/-- The probe is the one with the id, or each element of its name matches. -/
def ProbeDesc.matches (pdp : ProbeDesc) (prp : DtProbe) : Bool :=
  if pdp.id ≠ 0 then prp.id = pdp.id
  else elemMatches fnmatch pdp.desc.prv prp.desc.prv && elemMatches fnmatch pdp.desc.mod prp.desc.mod &&
    elemMatches fnmatch pdp.desc.fn prp.desc.fn && elemMatches fnmatch pdp.desc.prb prp.desc.prb

variable {pdp : ProbeDesc} {el : Elem}

lemma matchOne_globs : matchOne fnmatch prp (globs d) el = elemMatches fnmatch (d.elem el) (prp.desc.elem el) := by
  simp only [matchOne, globs, isGlob, elemMatches, dtGmatch]
  by_cases hempty : (d.elem el).isEmpty
  · simp [hempty]
  · by_cases hglob : strisglob (d.elem el) <;> simp [hempty, hglob]

lemma gmatch_globs (hid : pdp.id = 0) : dtProbeGmatch fnmatch (globs pdp.desc) prp = pdp.matches fnmatch prp := by
  simp [dtProbeGmatch, matchOne_globs, ProbeDesc.matches, hid, Desc.elem]

lemma gmatch_iff (g : Globs) : dtProbeGmatch fnmatch g prp ↔ ∀ el, matchOne fnmatch prp g el := by
  simp only [dtProbeGmatch, Bool.and_eq_true]
  constructor
  · rintro ⟨⟨⟨hprv, hmod⟩, hfn⟩, hprb⟩ el
    cases el <;> assumption
  · intro h
    exact ⟨⟨⟨h .prv, h .mod⟩, h .fn⟩, h .prb⟩

lemma gmatch_without (hel : isGlob (d.elem el) = false) :
    dtProbeGmatch fnmatch (globs d) prp ↔
      prp.desc.elem el = d.elem el ∧ dtProbeGmatch fnmatch ((globs d).without el) prp := by
  have hone : matchOne fnmatch prp (globs d) el ↔ prp.desc.elem el = d.elem el := by
    simp [matchOne, globs, hel]
  have hnone : matchOne fnmatch prp ((globs d).without el) el := by
    simp [matchOne, Globs.without]
  have hother : ∀ el', el' ≠ el →
      matchOne fnmatch prp ((globs d).without el) el' = matchOne fnmatch prp (globs d) el' := by
    intro el' hne
    have htext : ((globs d).without el).text el' = (globs d).text el' := Function.update_of_ne hne _ _
    rw [matchOne, matchOne, htext]
    rfl
  rw [gmatch_iff, gmatch_iff]
  constructor
  · intro h
    refine ⟨hone.1 (h el), fun el' => ?_⟩
    by_cases hne : el' = el
    · rw [hne]
      exact hnone
    · rw [hother el' hne]
      exact h el'
  · rintro ⟨heq, h⟩ el'
    by_cases hne : el' = el
    · rw [hne]
      exact hone.2 heq
    · rw [← hother el' hne]
      exact h el'

lemma preferred_exact (h : d.preferred = some el) : isGlob (d.elem el) = false := by
  rw [Desc.preferred] at h
  repeat' split at h
  all_goals cases h
  all_goals simp_all [Desc.elem]

lemma matches_of_exact (hid : pdp.id = 0) (h : pdp.desc.exact) : pdp.matches fnmatch prp = (prp.desc = pdp.desc) := by
  simp only [Desc.exact, isGlob, Bool.and_eq_true, Bool.not_eq_true', Bool.or_eq_false_iff] at h
  obtain ⟨⟨⟨⟨hp, hp'⟩, hm, hm'⟩, hf, hf'⟩, hn, hn'⟩ := h
  simp only [ProbeDesc.matches, hid, elemMatches, hp, hp', hm, hm', hf, hf', hn, hn']
  rcases hd : prp.desc with ⟨a, b, c, e⟩
  rcases hd' : pdp.desc with ⟨_, _, _, _⟩
  simp [and_assoc]

/-! ## What a search comes upon -/

variable (fnmatch) in
/-- The probes that a search comes upon, in its order. -/
def visits (s : Probes) (pdp : ProbeDesc) : Option (List DtProbe) :=
  if pdp.id ≠ 0 then some (s.direct pdp.id).toList
  else if pdp.desc.exact then some (dtHtabLookup fqnOps s.byfqn (tmpl pdp.desc)).toList
  else match pdp.desc.preferred with
    | some el =>
      some ((chain (elemOps el) (s.table el) (tmpl pdp.desc)).filter
        (dtProbeGmatch fnmatch ((globs pdp.desc).without el)))
    | none => s.scan.map (·.filter (dtProbeGmatch fnmatch (globs pdp.desc)))

/-- A callback that notes the probe it is called with. -/
def record (arg : List DtProbe) (prp : DtProbe) : List DtProbe × ℤ := (arg ++ [prp], 0)

lemma visit_record (p : DtProbe → Bool) (ps : List DtProbe) (n : ℕ) (arg : List DtProbe) :
    visit record p ps n arg = (arg ++ ps.filter p, if n ≠ 0 ∨ ps.filter p ≠ [] then .ok else .noProbe) := by
  induction ps generalizing n arg with
  | nil => simp [visit]
  | cons prp ps ih =>
    rw [visit]
    cases hp : p prp with
    | false => simp [ih, hp]
    | true => simp [ih, hp, record]

lemma visit_start (p : DtProbe → Bool) (ps : List DtProbe) :
    visit record p ps 0 [] = (ps.filter p, if ps.filter p = [] then .noProbe else .ok) := by
  rw [visit_record]
  by_cases hnil : ps.filter p = [] <;> simp [hnil]

/-- The providers are asked unless there is an id. -/
def provided (fnmatch : Bytes → Bytes → Bool) (provs : List Provider) (s : Probes) (pdp : ProbeDesc) : Probes :=
  if pdp.id ≠ 0 then s else provide fnmatch pdp.desc s provs

lemma iter_eq (provs : List Provider) (s : Probes) (pdp : ProbeDesc) :
    dtProbeIter fnmatch record provs s (some pdp) [] =
      (visits fnmatch (provided fnmatch provs s pdp) pdp).map fun ps =>
        (provided fnmatch provs s pdp, ps, if ps = [] then .noProbe else .ok) := by
  have hall : ∀ ps : List DtProbe, ps.filter (fun _ => true) = ps := fun ps => filter_eq_self.2 fun _ _ => rfl
  simp only [dtProbeIter, visits, provided, visit_start, hall]
  by_cases hid : pdp.id ≠ 0
  · rw [if_pos hid, if_pos hid, if_pos hid, map_some]
  · rw [if_neg hid, if_neg hid, if_neg hid]
    by_cases hexact : pdp.desc.exact = true
    · rw [if_pos hexact, if_pos hexact, map_some]
    · rw [if_neg hexact, if_neg hexact]
      cases pdp.desc.preferred with
      | none =>
        simp only [Option.map_map]
        rfl
      | some el => rfl

lemma lookup_eq (h : Indexed s) : dtProbeLookup fnmatch s pdp = (visits fnmatch s pdp).map head? := by
  simp only [dtProbeLookup, visits]
  by_cases hid : pdp.id ≠ 0
  · rw [if_pos hid, if_pos hid, map_some]
    cases s.direct pdp.id <;> rfl
  · rw [if_neg hid, if_neg hid]
    by_cases hexact : pdp.desc.exact = true
    · rw [if_pos hexact, if_pos hexact, map_some]
      cases dtHtabLookup fqnOps s.byfqn (tmpl pdp.desc) <;> rfl
    · rw [if_neg hexact, if_neg hexact]
      cases hpref : pdp.desc.preferred with
      | none =>
        simp only [Option.map_map]
        congr 1
        funext ps
        exact head?_filter.symm
      | some el =>
        simp only [map_some, dtHtabFind, ← head?_filter]
        congr 2
        refine filter_congr fun prp hprp => ?_
        have hkey := (mem_filter.1 (((h.table el).chain_perm _).mem_iff.1 hprp)).2
        rw [Bool.eq_iff_iff, gmatch_without (preferred_exact hpref)]
        exact and_iff_right (of_decide_eq_true hkey)

/-- All of `qs`, unless an exact description is to find one of them. -/
def Covers (pdp : ProbeDesc) (ps qs : List DtProbe) : Prop :=
  ps.Subperm qs ∧ (ps = [] ↔ qs = []) ∧ ((pdp.id = 0 → pdp.desc.exact → qs.length ≤ 1) → ps.Perm qs)

lemma Indexed.visits_spec (h : Indexed s) (hscan : pdp.id = 0 → pdp.desc.preferred = none → s.probes ≠ []) :
    ∃ ps, visits fnmatch s pdp = some ps ∧ Covers pdp ps (s.registered.filter (pdp.matches fnmatch)) := by
  have hof {ps qs : List DtProbe} (hperm : ps.Perm qs) : Covers pdp ps qs := by
    refine ⟨hperm.subperm, ?_, fun _ => hperm⟩
    rw [← length_eq_zero_iff, hperm.length_eq, length_eq_zero_iff]
  rw [visits]
  by_cases hid : pdp.id ≠ 0
  · rw [if_pos hid]
    refine ⟨_, rfl, hof ?_⟩
    rw [perm_ext_iff_of_nodup (by cases s.direct pdp.id <;> simp) (h.nodup.filter _)]
    intro prp
    rw [mem_toList, h.direct_iff, mem_filter, ProbeDesc.matches, if_pos hid,
      decide_eq_true_iff]
  · rw [if_neg hid]
    rw [not_not] at hid
    by_cases hexact : pdp.desc.exact = true
    · rw [if_pos hexact, Usdt.lookup_eq_head]
      have hperm : (chain fqnOps s.byfqn (tmpl pdp.desc)).Perm (s.registered.filter (pdp.matches fnmatch)) := by
        refine (h.fqn.chain_perm _).trans (List.Perm.of_eq (filter_congr fun prp _ => ?_))
        rw [Bool.eq_iff_iff, matches_of_exact hid hexact, decide_eq_true_iff]
        exact Iff.rfl
      obtain ⟨hsub, hnil, -⟩ := hof hperm
      refine ⟨_, rfl, ?_, ?_, fun hone => ?_⟩
      · refine List.Subperm.trans (List.Sublist.subperm ?_) hsub
        cases chain fqnOps s.byfqn (tmpl pdp.desc) <;> simp
      · rw [← hnil]
        cases chain fqnOps s.byfqn (tmpl pdp.desc) <;> simp
      · refine List.Perm.trans (List.Perm.of_eq ?_) hperm
        have hlen := hone hid hexact
        rw [← hperm.length_eq] at hlen
        rcases hchain : chain fqnOps s.byfqn (tmpl pdp.desc) with _ | ⟨prp, _ | ⟨q, _⟩⟩
        · rfl
        · rfl
        · rw [hchain] at hlen
          simp at hlen
    · rw [if_neg hexact]
      cases hpref : pdp.desc.preferred with
      | none =>
        refine ⟨_, ?_, hof (List.Perm.refl _)⟩
        have hne : s.probes.isEmpty = false := by simpa using hscan hid hpref
        simp only [Probes.scan, hne, Bool.false_eq_true, if_false, map_some]
        exact congrArg some (filter_congr fun prp _ => gmatch_globs hid)
      | some el =>
        refine ⟨_, rfl, hof ((((h.table el).chain_perm _).filter _).trans (List.Perm.of_eq ?_))⟩
        rw [List.filter_filter]
        refine filter_congr fun prp _ => ?_
        rw [Bool.eq_iff_iff, ← gmatch_globs hid, gmatch_without (preferred_exact hpref), Bool.and_eq_true,
          and_comm, decide_eq_true_iff]
        exact Iff.rfl

/-! ## The searches -/

lemma registered_foldl_insert (ds : List Desc) (s : Probes) :
    s.registered ⊆ (ds.foldl dtProbeInsert s).registered := by
  refine foldlRecOn (motive := fun s' : Probes => s.registered ⊆ s'.registered) _ _ (List.Subset.refl _) fun s' h d _ => ?_
  rw [registered_insert]
  exact List.Subset.trans h (subset_append_left _ _)

lemma Indexed.foldl_insert (h : Indexed s) (ds : List Desc) : Indexed (ds.foldl dtProbeInsert s) :=
  foldlRecOn _ _ h fun _ h d _ => h.insert d

lemma foldl_insert_ne_nil (ds : List Desc) (h : s.probes ≠ []) : (ds.foldl dtProbeInsert s).probes ≠ [] :=
  foldlRecOn (motive := fun s : Probes => s.probes ≠ []) _ _ h fun _ _ d _ => by simp [dtProbeInsert]

lemma exists_provided (provs : List Provider) (s : Probes) (pdp : ProbeDesc) :
    ∃ ds : List Desc, provided fnmatch provs s pdp = ds.foldl dtProbeInsert s := by
  have hall : ∀ (provs : List Provider) (s : Probes),
      ∃ ds : List Desc, provide fnmatch pdp.desc s provs = ds.foldl dtProbeInsert s := by
    intro provs
    induction provs with
    | nil => exact fun s => ⟨[], rfl⟩
    | cons pvp provs ih =>
      intro s
      rw [provide]
      split
      · exact ih s
      · split
        · obtain ⟨_, hds⟩ := ih (foldl dtProbeInsert s _)
          rw [hds, ← foldl_append]
          exact ⟨_, rfl⟩
        · exact ih s
  rw [provided]
  split
  · exact ⟨[], rfl⟩
  · exact hall provs s

/-- `dt_probe_iter` visits the probes that match once the providers have been asked, each of them once; of several
with one name it visits a single one where the name is given.  `dt_probe_lookup` finds one that matches if one is
registered before, so the two agree unless only the providers have one. -/
theorem search_filter (fnmatch : Bytes → Bytes → Bool) (provs : List Provider) {s : Probes} (h : Reachable s)
    (pdp : ProbeDesc) (hscan : pdp.id = 0 → pdp.desc.preferred = none → s.probes ≠ []) :
    ∃ s' visited found,
      s' = provided fnmatch provs s pdp ∧
      dtProbeIter fnmatch record provs s (some pdp) [] = some (s', visited, if visited = [] then .noProbe else .ok) ∧
      dtProbeLookup fnmatch s pdp = some found ∧
      visited.Subperm (s'.registered.filter (pdp.matches fnmatch)) ∧
      ((pdp.id = 0 → pdp.desc.exact → (s'.registered.filter (pdp.matches fnmatch)).length ≤ 1) →
        visited.Perm (s'.registered.filter (pdp.matches fnmatch))) ∧
      (visited = [] ↔ s'.registered.filter (pdp.matches fnmatch) = []) ∧
      (∀ prp ∈ found, prp ∈ s.registered ∧ pdp.matches fnmatch prp) ∧
      (found.isSome ↔ s.registered.filter (pdp.matches fnmatch) ≠ []) ∧
      ((s'.registered.filter (pdp.matches fnmatch) ≠ [] → s.registered.filter (pdp.matches fnmatch) ≠ []) →
        (found.isSome ↔ visited ≠ [])) := by
  obtain ⟨ds, hds⟩ := exists_provided provs s pdp
  have hs := h.indexed
  have hs' : Indexed (provided fnmatch provs s pdp) := by
    rw [hds]
    exact hs.foldl_insert ds
  have hsub : s.registered ⊆ (provided fnmatch provs s pdp).registered := by
    rw [hds]
    exact registered_foldl_insert ds s
  obtain ⟨visited, hvisits, hvisited, hnil, hperm⟩ := @Indexed.visits_spec fnmatch _ pdp hs' (by
    intro hid hpref
    rw [hds]
    exact foldl_insert_ne_nil ds (hscan hid hpref))
  obtain ⟨ps, hps, hps', hnil', -⟩ := @Indexed.visits_spec fnmatch _ pdp hs hscan
  have hfound : ps.head?.isSome ↔ s.registered.filter (pdp.matches fnmatch) ≠ [] := by
    rw [isSome_head?, Ne, hnil']
  refine ⟨_, visited, ps.head?, rfl, ?_, ?_, hvisited, hperm, hnil, fun prp hprp => ?_, hfound, fun hold => ?_⟩
  · rw [iter_eq, hvisits, map_some]
  · rw [lookup_eq hs, hps, map_some]
  · exact mem_filter.1 (hps'.subset (mem_of_head? hprp))
  · rw [hfound, Ne, Ne, hnil]
    refine ⟨fun hne => ?_, hold⟩
    -- what was registered before the providers were asked still is
    obtain ⟨_, hprp⟩ := exists_mem_of_ne_nil _ hne
    obtain ⟨hreg, hmatch⟩ := mem_filter.1 hprp
    exact ne_nil_of_mem (mem_filter.2 ⟨hsub hreg, hmatch⟩)

/-- The name `profile:::tick-7`. -/
def tick7 : Desc := ⟨[112, 114, 111, 102, 105, 108, 101], [], [], [116, 105, 99, 107, 45, 55]⟩

/-- A provider that registers `profile:::tick-7` when it is asked for it and does not have it. -/
def profile : Provider where
  name := tick7.prv
  provide := some fun pdp s =>
    if pdp.mod = [] && pdp.fn = [] && pdp.prb = tick7.prb &&
      dtProbeLookup (fun p s => p = s) s ⟨0, pdp⟩ = some none then [pdp] else []

theorem search_filter_tick :
    ∃ s' visited,
      dtProbeIter (fun p s => p = s) record [profile] (dtProbeInsert dtProbeInit tick7) (some ⟨0, tick7⟩) [] =
        some (s', visited, if visited = [] then .noProbe else .ok) ∧ visited.Perm [⟨1, tick7⟩] := by
  have hmatch : (provided (fun p s => p = s) [profile] (dtProbeInsert dtProbeInit tick7) ⟨0, tick7⟩).registered.filter
      (ProbeDesc.matches (fun p s => p = s) ⟨0, tick7⟩) = [⟨1, tick7⟩] := by decide +kernel
  obtain ⟨_, visited, -, rfl, hiter, -, -, hperm, -⟩ :=
    search_filter (fun p s => p = s) [profile] (.insert tick7 .init) ⟨0, tick7⟩ (by decide)
  exact ⟨_, visited, hiter, hperm fun _ _ => by decide⟩

/-- `a:b:c:d`. -/
def fullName : Desc := ⟨[97], [98], [99], [100]⟩

/-- `dt_probe_lookup` does not find the probe that `dt_probe_iter` has the provider register and visits.  Of two probes with
the same name, `dt_probe_iter` visits one. -/
theorem lookup_before_provide :
    (Reachable dtProbeInit ∧ dtProbeLookup (fun p s => p = s) dtProbeInit ⟨0, tick7⟩ = some none ∧
      (dtProbeIter (fun p s => p = s) record [profile] dtProbeInit (some ⟨0, tick7⟩) []).map (·.2) =
        some ([⟨1, tick7⟩], .ok)) ∧
    ∃ s, Reachable s ∧ s.registered.filter (ProbeDesc.matches (fun p s => p = s) ⟨0, fullName⟩) =
        [⟨1, fullName⟩, ⟨2, fullName⟩] ∧
      (dtProbeIter (fun p s => p = s) record [] s (some ⟨0, fullName⟩) []).map (·.2.1) = some [⟨2, fullName⟩] :=
  ⟨⟨.init, by decide +kernel, by decide +kernel⟩, dtProbeInsert (dtProbeInsert dtProbeInit fullName) fullName,
    .insert _ (.insert _ .init), by decide +kernel, by decide +kernel⟩

/-- A probe that is deleted is neither in the array nor in a table any more, and all the others are. -/
theorem delete_exact (h : Reachable s) (hp : prp ∈ s.registered) :
    prp ∉ s.registered.erase prp ∧ (dtProbeDelete s prp).registered.Perm (s.registered.erase prp) ∧
      (dtProbeDelete s prp).byfqn.list.Perm (s.registered.erase prp) ∧
      ∀ el, ((dtProbeDelete s prp).table el).list.Perm (s.registered.erase prp) := by
  have hdelete := h.indexed.registered_delete hp
  obtain ⟨-, htable, hfqn⟩ := (h.delete hp).indexed
  exact ⟨h.indexed.nodup.not_mem_erase, hdelete, hfqn.perm.trans hdelete, fun el => (htable el).perm.trans hdelete⟩

/-- Of two probes of a provider the first is deleted. -/
theorem delete_tick : let tick8 : Desc := { tick7 with prb := [116, 105, 99, 107, 45, 56] }
    let s := dtProbeDelete (dtProbeInsert (dtProbeInsert dtProbeInit tick7) tick8) ⟨1, tick7⟩
    s.byfqn.list.Perm [⟨2, tick8⟩] ∧ ∀ el, (s.table el).list.Perm [⟨2, tick8⟩] := by
  intro tick8 s
  have hrest : (dtProbeInsert (dtProbeInsert dtProbeInit tick7) tick8).registered.erase ⟨1, tick7⟩ = [⟨2, tick8⟩] := by
    decide
  have hexact := (delete_exact (.insert tick8 (.insert tick7 .init)) (by decide : ⟨1, tick7⟩ ∈ _)).2.2
  rwa [hrest] at hexact

end

end DTrace.Probe
