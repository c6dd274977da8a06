import DTrace.Agg.Print
import DTrace.Agg.Snapshot

/-!
# The divisors met while aggregations are shown

Sorting and printing divide by the normalization factor, by the count of an average or a standard deviation, by the
total of a distribution and by parameters of `llquantize()`.  Every path is modelled as the list of its divisors; keys
are printed with the factor 1 and left out.

* `Value.dtPrintDatum_ne_zero`, `Value.dtPrintfFormat_ne_zero`, `valcmp_ne_zero` — values and pairs of values;
* `Factors.step`, `Factors.divisors_ne_zero` — one step of a run;
* `shown_ne_zero` — runs that never divide by zero.
-/

namespace DTrace.Agg

open Lib List

variable {υ κ : Type} {n : ℕ}

/-- An aggregation and its signature; the parameters of an `llquantize()` have passed the checks of the compiler. -/
structure ShownDesc (υ : Type) extends AggDesc υ where
  sig : Datum
  llq : kind = .llquantize → ∃ p : Llq, sig = p.sig

/-- A value with what its printers and comparisons read. -/
structure Value (υ : Type) where
  desc : ShownDesc υ
  normal : Datum
  data : List Datum

/-! ## One value -/

namespace Value

variable (v : Value υ)

def count : ℕ := (binAt v.data 0).toNat

/-- Two calls of `dt_divide_128`, which asserts that its divisor is not 0, and two signed divisions. -/
def dtStddev : List ℕ := [v.normal.toNat, v.count, v.normal.toNat, v.count]

/-- `dt_print_quantline` for some of the lines of a window: the bar divides by the total of the window, if that has a
positive or a negative value, the number by the factor. -/
def dtPrintQuantline (window : ℕ × ℕ) (lines : ℕ) : List ℕ :=
  let bins := (List.range' window.1 (window.2 + 1 - window.1)).map fun i => (binAt v.data i).toInt
  (List.replicate lines
    ((if bins.any (· ≠ 0) then [(bins.map Int.natAbs).sum] else []) ++ [v.normal.toNat])).flatten

def dtPrintQuantize : List ℕ :=
  let w := quantWindow v.data (quantizeNbuckets - 1) (quantizeZerobucket - 1, quantizeZerobucket + 1)
  if v.data.length ≠ quantizeNbuckets then [] else v.dtPrintQuantline w (w.2 + 1 - w.1)

def dtPrintLquantize : List ℕ :=
  let levels := lquantizeLevels v.desc.sig
  let w := quantWindow v.data (levels + 1) (0, 2)
  if v.data.length ≠ levels + 2 then [] else v.dtPrintQuantline w (w.2 + 1 - w.1)

/-- `steps / factor` comes before the size is checked, `powl(factor, mag + 1) / steps` after. -/
def dtPrintLlquantize : List ℕ :=
  let factor := Llq.sigFactor v.desc.sig
  let steps := Llq.sigSteps v.desc.sig
  let side := (Llq.sigHmag v.desc.sig - Llq.sigLmag v.desc.sig + 1) * (steps - steps / factor)
  if v.data = [] then []
  else factor :: match Agg.dtPrintLlquantize v.data v.normal v.desc.sig with
    | none => []
    | some lines => steps :: v.dtPrintQuantline (llqWindow v.data (side * 2 + 2 + 1) (1 + side)) lines.length

/-- What `dt_print_datum` and the `pfprint_*` functions do alike. -/
def printed : List ℕ :=
  match v.desc.kind with
  | .quantize => v.dtPrintQuantize
  | .lquantize => v.dtPrintLquantize
  | .llquantize => v.dtPrintLlquantize
  | _ => [v.normal.toNat]

/-- `dt_print_datum`: `dt_print_average` and `dt_print_stddev` look at the count first. -/
def dtPrintDatum : List ℕ :=
  match v.desc.kind with
  | .avg => if v.count ≠ 0 then [v.normal.toNat, v.count] else []
  | .stddev => if v.count ≠ 0 then v.dtStddev else []
  | _ => v.printed

/-- A conversion of `dt_printf_format`: `pfprint_average` looks at the count, `pfprint_stddev` at the size only. -/
def dtPrintfFormat : List ℕ :=
  match v.desc.kind with
  | .avg => if v.data.length = 2 ∧ v.count ≠ 0 then [v.normal.toNat, v.count] else []
  | .stddev => if v.data.length = 4 then v.dtStddev else []
  | _ => v.printed

end Value

/-- `dt_aggregate_valcmp` of values with the same layout of their keys. -/
def valcmp (l r : Value υ) : List ℕ :=
  if l.desc.kind ≠ r.desc.kind then []
  else match l.desc.kind with
    | .avg => [l, r].flatMap fun v => if v.count ≠ 0 then [v.count] else []
    | .stddev => [l, r].flatMap fun v => { v with normal := 1 }.dtStddev
    | .llquantize => [l, r].flatMap fun v => [Llq.sigFactor v.desc.sig, Llq.sigSteps v.desc.sig]
    | _ => []

/-- The columns of two bundles that are compared by value, up to the first that differ. -/
def bundlecmp (differ : Value υ → Value υ → Bool) : List (Value υ × Value υ) → List (Value υ × Value υ)
  | [] => []
  | p :: ps => p :: if differ p.1 p.2 then [] else bundlecmp differ ps

/-! ## Walks over the hash -/

/-- An entry of the hash, or the zero value that a joined walk shows for a missing one. -/
inductive Cell (κ : Type)
  | entry (key : AggKey κ)
  | hole (aid : ℕ)

def Cell.aid : Cell κ → ℕ
  | .entry key => key.1
  | .hole aid => aid

/-- Pairs of bundles whose values a sort compares.  A walk that is not joined has bundles of one entry, and compares
values within an aggregation only. -/
abbrev Compared (κ : Type) := List (List (Cell κ) × List (Cell κ))

/-- A sorted walk and what it prints, the values of an entry on every CPU with it. -/
structure Walk (κ : Type) where
  keysort : Bool
  compared : Compared κ
  format : Bool
  printed : List (Cell κ × List (List Datum))

/-- The aggregation data, and `dtagd_normal` of every aggregation. -/
structure Shown (κ : Type) (n : ℕ) where
  sys : Sys κ n
  normal : ℕ → Datum

def Shown.init : Shown κ n := ⟨Sys.init, fun _ => 1⟩

/-- What happens: data changes, an action of the program is consumed, or aggregations are printed. -/
inductive Act (υ κ : Type) (n : ℕ)
  | data (e : Event υ κ n)
  | normalize (aid : ℕ) (normal : Datum)
  | denormalize (aid : ℕ)
  | trunc (compared : Compared κ) (gone lost : List (AggKey κ))
  | walk (w : Walk κ)

section

variable [DecidableEq κ] (desc : ℕ → ShownDesc υ) (interval : ℤ) (reduce : ℤ → ℕ → κ → κ)

/-- The step on the data; `trunc()` removes entries from the hash and from the maps. -/
def stepShown (s : Shown κ n) : Act υ κ n → Shown κ n
  | .data e => { s with sys := stepSys (fun a => (desc a).toAggDesc) interval reduce s.sys e }
  | .normalize aid normal => { s with normal := Function.update s.normal aid normal }
  | .denormalize aid => { s with normal := Function.update s.normal aid 1 }
  | .trunc _ gone lost =>
    { s with sys := { s.sys with
        hash := gone.foldl (fun h k => h.erase k) s.sys.hash
        cpus := fun c => lost.foldl (fun h k => h.erase k) (s.sys.cpus c) } }
  | .walk _ => s

def Shown.value (s : Shown κ n) (c : Cell κ) : Value υ where
  desc := desc c.aid
  normal := s.normal c.aid
  data := match c with
    | .entry key => ((s.sys.hash.lookup key).map Entry.data).getD []
    | .hole aid => List.replicate (desc aid).nwords 0

variable (differ : Value υ → Value υ → Bool)

def Shown.pairs (s : Shown κ n) (compared : Compared κ) : List (Value υ × Value υ) :=
  compared.flatMap fun p => bundlecmp differ ((p.1.map (s.value desc)).zip (p.2.map (s.value desc)))

def divisors (s : Shown κ n) : Act υ κ n → List ℕ
  | .trunc compared _ _ => (s.pairs desc differ compared).flatMap fun p => valcmp p.1 p.2
  | .walk w =>
    (if w.keysort then [] else (s.pairs desc differ w.compared).flatMap fun p => valcmp p.1 p.2) ++
      w.printed.flatMap fun (c, percpu) =>
        let v := s.value desc c
        if w.format then v.dtPrintfFormat
        else v.dtPrintDatum ++ percpu.flatMap fun data => { v with data := data }.dtPrintDatum
  | _ => []

def Value.Counted (v : Value υ) : Prop := v.desc.kind = .stddev → v.count ≠ 0

def AllCounted (ps : List (Value υ × Value υ)) : Prop :=
  ∀ p ∈ ps, p.1.desc.kind = p.2.desc.kind → p.1.Counted ∧ p.2.Counted

/-- The steps that do not divide by zero: no factor is 0, and no standard deviation without a count is compared with
another or printed by a format. -/
def Meets (s : Shown κ n) : Act υ κ n → Prop
  | .normalize _ normal => normal ≠ 0
  | .trunc compared _ _ => AllCounted (s.pairs desc differ compared)
  | .walk w =>
    (w.keysort = false → AllCounted (s.pairs desc differ w.compared)) ∧
      (w.format = true → ∀ c ∈ w.printed, (s.value desc c.1).Counted)
  | _ => True

def Throughout (P : Shown κ n → Act υ κ n → Prop) : Shown κ n → List (Act υ κ n) → Prop
  | _, [] => True
  | s, a :: as => P s a ∧ Throughout P (stepShown desc interval reduce s a) as

end

/-! ## The paths -/

section

variable {v l r : Value υ}

lemma Value.dtPrintQuantline_ne_zero (hn : v.normal ≠ 0) (w : ℕ × ℕ) (lines : ℕ) :
    0 ∉ v.dtPrintQuantline w lines := by
  intro h
  obtain ⟨_, hds, h0⟩ := mem_flatten.1 h
  obtain rfl := eq_of_mem_replicate hds
  rcases mem_append.1 h0 with h0 | h0
  · -- the total of bins that are not all 0 is not 0
    split at h0
    · rename_i hany
      obtain ⟨b, hb, hb0⟩ := any_eq_true.1 hany
      have := List.sum_eq_zero_iff_forall_eq_nat.1 (mem_singleton.1 h0).symm _ (mem_map_of_mem hb)
      exact of_decide_eq_true hb0 (Int.natAbs_eq_zero.1 this)
    · cases h0
  · exact hn (BitVec.eq_of_toNat_eq (mem_singleton.1 h0).symm)

lemma ShownDesc.llq_ne_zero {d : ShownDesc υ} (hk : d.kind = .llquantize) :
    Llq.sigFactor d.sig ≠ 0 ∧ Llq.sigSteps d.sig ≠ 0 := by
  obtain ⟨p, hp⟩ := d.llq hk
  obtain ⟨hf, -, -, hs⟩ := Llq.decode_sig p
  have := p.two_le_factor
  have := p.steps_pos
  rw [hp, hf, hs]
  omega

section

variable (hn : v.normal ≠ 0)
include hn

lemma Value.normal_toNat : v.normal.toNat ≠ 0 := fun h => hn (BitVec.eq_of_toNat_eq h)

lemma Value.printed_ne_zero : 0 ∉ v.printed := by
  unfold Value.printed
  split
  · unfold Value.dtPrintQuantize
    split
    · simp
    · exact dtPrintQuantline_ne_zero hn _ _
  · unfold Value.dtPrintLquantize
    dsimp only
    split
    · simp
    · exact dtPrintQuantline_ne_zero hn _ _
  · rename_i hk
    obtain ⟨hf, hs⟩ := v.desc.llq_ne_zero hk
    have hlines := dtPrintQuantline_ne_zero hn
    unfold Value.dtPrintLlquantize
    split
    · simp
    · split
      · simpa using hf.symm
      · simp [hf.symm, hs.symm, hlines]
  · simpa using (normal_toNat hn).symm

lemma Value.dtStddev_ne_zero (hc : v.count ≠ 0) : 0 ∉ v.dtStddev := by
  simp [Value.dtStddev, (normal_toNat hn).symm, hc.symm]

theorem Value.dtPrintDatum_ne_zero : 0 ∉ v.dtPrintDatum := by
  unfold Value.dtPrintDatum
  split
  · split
    · rename_i hc
      simp [(normal_toNat hn).symm, Ne.symm hc]
    · simp
  · split
    · exact dtStddev_ne_zero hn ‹_›
    · simp
  · exact printed_ne_zero hn

theorem Value.dtPrintfFormat_ne_zero (hc : v.Counted) : 0 ∉ v.dtPrintfFormat := by
  unfold Value.dtPrintfFormat
  split
  · split
    · rename_i hc
      simp [(normal_toNat hn).symm, Ne.symm hc.2]
    · simp
  · split
    · exact dtStddev_ne_zero hn (hc ‹_›)
    · simp
  · exact printed_ne_zero hn

end

theorem valcmp_ne_zero (h : l.desc.kind = r.desc.kind → l.Counted ∧ r.Counted) : 0 ∉ valcmp l r := by
  unfold valcmp
  split
  · simp
  · rename_i hk
    have hk := not_not.1 hk
    obtain ⟨hl, hr⟩ := h hk
    intro h0
    split at h0
    all_goals rename_i hkind
    all_goals try obtain ⟨v, hv, h0⟩ := mem_flatMap.1 h0
    · split at h0 <;> simp_all
    · refine Value.dtStddev_ne_zero (by simp) ?_ h0
      rcases mem_pair.1 hv with rfl | rfl
      · exact hl hkind
      · exact hr (hk ▸ hkind)
    · have hv : v.desc.kind = .llquantize := by
        rcases mem_pair.1 hv with rfl | rfl
        · exact hkind
        · exact hk ▸ hkind
      obtain ⟨hf, hs⟩ := v.desc.llq_ne_zero hv
      simp [hf.symm, hs.symm] at h0
    · cases h0

end

/-! ## Runs -/

section

variable [DecidableEq κ] {desc : ℕ → ShownDesc υ} {interval : ℤ} {reduce : ℤ → ℕ → κ → κ} {differ : Value υ → Value υ → Bool}
  {s : Shown κ n} {a : Act υ κ n}

def Factors (s : Shown κ n) : Prop := ∀ aid, s.normal aid ≠ 0

lemma Factors.step (h : Factors s) (ha : Meets desc differ s a) : Factors (stepShown desc interval reduce s a) := by
  intro aid
  cases a with
  | normalize aid' normal =>
    by_cases heq : aid = aid'
    · subst heq
      simpa [stepShown, Meets] using ha
    · simpa [stepShown, heq] using h aid
  | denormalize aid' =>
    by_cases heq : aid = aid'
    · subst heq
      simp [stepShown]
    · simpa [stepShown, heq] using h aid
  | _ => exact h aid

lemma sort_ne_zero {ps : List (Value υ × Value υ)} (h : AllCounted ps) : 0 ∉ ps.flatMap fun p => valcmp p.1 p.2 := by
  intro h0
  obtain ⟨p, hp, h0⟩ := mem_flatMap.1 h0
  exact valcmp_ne_zero (h p hp) h0

lemma Factors.divisors_ne_zero (h : Factors s) (ha : Meets desc differ s a) : 0 ∉ divisors desc differ s a := by
  cases a with
  | trunc compared gone lost => exact sort_ne_zero ha
  | walk w =>
    intro h0
    rcases mem_append.1 h0 with h0 | h0
    · split at h0
      · cases h0
      · exact sort_ne_zero (ha.1 (by simpa using ‹¬ w.keysort = true›)) h0
    · obtain ⟨⟨c, _⟩, hc, h0⟩ := mem_flatMap.1 h0
      have hn : (s.value desc c).normal ≠ 0 := h c.aid
      dsimp only at h0
      split at h0
      · exact Value.dtPrintfFormat_ne_zero hn (ha.2 ‹_› _ hc) h0
      · rcases mem_append.1 h0 with h0 | h0
        · exact Value.dtPrintDatum_ne_zero hn h0
        · obtain ⟨data, -, h0⟩ := mem_flatMap.1 h0
          exact Value.dtPrintDatum_ne_zero (v := { s.value desc c with data := data }) hn h0
  | _ => exact not_mem_nil

/-- In a run whose steps all meet the condition, no step divides by zero. -/
theorem shown_ne_zero (acts : List (Act υ κ n)) (h : Throughout desc interval reduce (Meets desc differ) Shown.init acts) :
    Throughout desc interval reduce (fun s a => 0 ∉ divisors desc differ s a) Shown.init acts := by
  have hinit : Factors (Shown.init : Shown κ n) := fun _ => by simp [Shown.init]
  generalize (Shown.init : Shown κ n) = s at h hinit ⊢
  induction acts generalizing s with
  | nil => trivial
  | cons a acts ih => exact ⟨hinit.divisors_ne_zero h.1, ih _ h.2 (hinit.step h.1)⟩

end

/-! ## Runs that divide by zero -/

/-- A standard deviation of zeros: an update counts. -/
def countedZeros : ShownDesc Unit where
  kind := .stddev
  nwords := 4
  upd _ d := d.modify 0 (· + 1)
  length_upd _ d h := by simpa using h
  minmax := by simp
  sig := 0
  llq := by simp

def NeverZero (acts : List (Act Unit Unit 1)) : Prop := Throughout (fun _ => countedZeros) 0 (fun _ _ => id)
  (fun s a => 0 ∉ divisors (fun _ => countedZeros) (fun _ _ => false) s a) Shown.init acts

def printOne (format : Bool) : Act Unit Unit 1 := .walk ⟨false, [], format, [(.entry (1, ()), [])]⟩

/-- An entry with data, normalized by 2 and printed by a format. -/
theorem shown_ne_zero_halved :
    NeverZero [.data (.update 0 (1, ()) ()), .data (.snap 1), .normalize 1 2, printOne true] :=
  shown_ne_zero _ ⟨trivial, trivial, by simp [Meets], ⟨fun _ => by simp [AllCounted, Shown.pairs], fun _ => by
    simp only [Value.Counted]
    decide⟩, trivial⟩

/-- `normalize()` by 0, and `printa()` of a cleared `stddev()` with a format. -/
theorem shown_divides_by_zero :
    ¬ NeverZero [.data (.update 0 (1, ()) ()), .data (.snap 1), .normalize 1 0, printOne false] ∧
    ¬ NeverZero [.data (.update 0 (1, ()) ()), .data (.clear 1 1), printOne true] := by
  constructor
  · rintro ⟨-, -, -, h, -⟩
    revert h
    decide
  · rintro ⟨-, -, h, -⟩
    revert h
    decide

end DTrace.Agg
