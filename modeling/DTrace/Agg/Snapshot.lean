import DTrace.Agg.Quantline
import DTrace.Lib.Store
import DTrace.Lib.Trace
import Mathlib.Algebra.Group.Int.Defs
import Mathlib.Data.List.Dedup

/-!
# Aggregation data: updates, clears and snapshots

Clauses update the data of a key in the BPF map of their own CPU; the consumer merges the maps of all CPUs into its own
hash, where the keys that stand for the same symbol or module share an entry.  `clear()` only increments the generation
number of an aggregation: data with an older number is meant to be ignored.

* `lookup_snapshot` — what a snapshot does to the entry of one key, CPU by CPU;
* `Inv` — what the generation numbers say about the updates made, in every run (`inv_run`);
* `snapshot_law_iff` — when a snapshot holds the merge of exactly the updates since the last `clear()`;
* `law_of_clears_snapped` — it always does when no `clear()` is consumed while snapshots are skipped.
-/

namespace DTrace.Agg

open Lib List Function Option

/-- `DT_AGG_AVG`, …, `DT_AGG_SUM`. -/
inductive AggKind
  | avg
  | count
  | llquantize
  | lquantize
  | max
  | min
  | quantize
  | stddev
  | sum
  deriving DecidableEq, Repr

def int64Max : Datum := 0x7fffffffffffffff#64

def int64Min : Datum := 0x8000000000000000#64

/-- An aggregation: its function, the size of its data in words, and what an update makes of the data.  The data of
`min()` and `max()` is one word. -/
structure AggDesc (υ : Type) where
  kind : AggKind
  nwords : ℕ
  upd : υ → List Datum → List Datum
  length_upd : ∀ u d, d.length = nwords → (upd u d).length = nwords
  minmax : kind = .min ∨ kind = .max → nwords = 1

/-- The data of a key with its generation number, in the map of a CPU or in the hash of the consumer. -/
@[ext]
structure Entry where
  gen : ℕ
  data : List Datum
  deriving DecidableEq

section

variable {υ : Type} (d : AggDesc υ)

/-- The initial value of `min()` and `max()`, 0 for the others. -/
def AggDesc.ival : Datum :=
  match d.kind with
  | .max => int64Min
  | .min => int64Max
  | _ => 0

/-- The data `dt_get_agg` starts with. -/
def AggDesc.fresh : List Datum :=
  let zeros := List.replicate d.nwords 0#64
  if d.ival ≠ 0 then zeros.set 0 d.ival else zeros

/-- `dt_get_agg`: the entry an update works on. -/
def dtGetAgg (gen : ℕ) : Option Entry → Entry
  | none => ⟨gen, d.fresh⟩
  | some e => if e.gen < gen then ⟨gen, d.fresh⟩ else e

def dtAggOneAgg (dvals svals : List Datum) : List Datum :=
  match d.kind with
  | .max => if (binAt dvals 0).slt (binAt svals 0) then dvals.set 0 (binAt svals 0) else dvals
  | .min => if (binAt svals 0).slt (binAt dvals 0) then dvals.set 0 (binAt svals 0) else dvals
  | _ => dvals.zipWith (· + ·) svals

/-- `dt_aggregate_clear_one` on an entry of an aggregation whose generation is `gen`. -/
def clearEntry (gen : ℕ) (e : Entry) : Entry :=
  ⟨gen, match d.kind with
    | .min => e.data.set 0 int64Max
    | .max => e.data.set 0 int64Min
    | _ => List.replicate d.nwords 0#64⟩

end

/-! ## The system -/

section

variable {υ κ : Type} {n : ℕ}

/-- A key of the maps starts with the id of the aggregation variable. -/
abbrev AggKey (κ : Type) := ℕ × κ

/-- The state: `genmap`, the map of every online CPU, and the consumer's hash, flag and time of the last snapshot. -/
structure Sys (κ : Type) (n : ℕ) where
  gen : ℕ → ℕ
  cpus : Fin n → Store (AggKey κ) Entry
  hash : Store (AggKey κ) Entry
  valid : Bool
  lastagg : ℤ

def Sys.init : Sys κ n := ⟨fun _ => 1, fun _ => ∅, ∅, false, 0⟩

/-- 'Reduce addresses' of `dt_aggregate_snap_one`: the addresses in the `sym()`, `mod()`, `usym()` and `umod()` records of
the key of an aggregation become those of the symbol or module they are found in. -/
def reduced (reduce : ℕ → κ → κ) (key : AggKey κ) : AggKey κ := (key.1, reduce key.1 key.2)

variable [DecidableEq κ] (desc : ℕ → AggDesc υ) (interval : ℤ)

/-- `DTRACE_AGGVARIDNONE`. -/
def aggvaridNone : ℕ := 0

/-- `dt_aggregate_clear_one` on the entry of a key, for the aggregation `aid` or for all. -/
def dtAggregateClearOne (gen : ℕ → ℕ) (aid : ℕ) (key : AggKey κ) (e : Entry) : Entry :=
  if aid ≠ aggvaridNone ∧ aid ≠ key.1 then e else clearEntry (desc key.1) (gen key.1) e

/-- `dt_aggregate_snap_one`: the entry of a reduced key in the hash, given the entry of a CPU. -/
def snapEntry (gen : ℕ → ℕ) (key : AggKey κ) : Option Entry → Entry → Option Entry
  | none, e => if e.gen = 0 then none else some e
  | some h, e =>
    if e.gen = 0 then some h
    else
      -- clear the hash data if the data is newer
      let h := if h.gen < e.gen then dtAggregateClearOne desc gen aggvaridNone key h else h
      if e.gen < h.gen then some h else some ⟨h.gen, dtAggOneAgg (desc key.1) h.data e.data⟩

/-- `dt_aggregate_snap_one` on the hash. -/
def dtAggregateSnapOne (reduce : ℕ → κ → κ) (gen : ℕ → ℕ) (hash : Store (AggKey κ) Entry) (key : AggKey κ) (e : Entry) :
    Store (AggKey κ) Entry :=
  let key := reduced reduce key
  match snapEntry desc gen key (hash.lookup key) e with
  | none => hash
  | some h => hash.insert key h

def dtAggregateSnapCpu (reduce : ℕ → κ → κ) (gen : ℕ → ℕ) (hash cpu : Store (AggKey κ) Entry) : Store (AggKey κ) Entry :=
  cpu.visit (dtAggregateSnapOne desc reduce gen) hash

/-- `dtrace_aggregate_walk` with `dt_aggregate_clear_one`. -/
def walkClear (gen : ℕ → ℕ) (aid : ℕ) (hash : Store (AggKey κ) Entry) : Store (AggKey κ) Entry :=
  hash.mapVals (dtAggregateClearOne desc gen aid)

/-- The hash after `dtrace_aggregate_clear` and the loop over the CPUs. -/
def snapshot (reduce : ℕ → κ → κ) (s : Sys κ n) : Store (AggKey κ) Entry :=
  (List.finRange n).foldl (fun h c => dtAggregateSnapCpu desc reduce s.gen h (s.cpus c))
    (walkClear desc s.gen aggvaridNone s.hash)

/-- Not faster than `aggrate`. -/
def Sys.tooSoon (s : Sys κ n) (now : ℤ) : Bool :=
  decide (0 < interval) && decide (s.lastagg ≠ 0) && decide (now - s.lastagg < interval)

def Sys.takes (s : Sys κ n) (now : ℤ) : Bool := !s.tooSoon interval now && !s.valid

/-- `dt_lastagg` when it is not too soon. -/
def Sys.nextLastagg (s : Sys κ n) (now : ℤ) : ℤ :=
  if 0 < interval then if s.lastagg ≠ 0 then s.lastagg + interval else now else s.lastagg

/-- What an address is reduced to at a time is up to the symbols and processes there are then. -/
def dtraceAggregateSnap (reduce : ℤ → ℕ → κ → κ) (s : Sys κ n) (now : ℤ) : Sys κ n :=
  if s.tooSoon interval now then s
  else if s.valid then { s with lastagg := s.nextLastagg interval now }
  else { s with lastagg := s.nextLastagg interval now, valid := true, hash := snapshot desc (reduce now) s }

def dtClear (s : Sys κ n) (aid : ℕ) : Sys κ n :=
  let gen := update s.gen aid (s.gen aid + 1)
  { s with gen := gen, hash := walkClear desc gen aid s.hash }

/-- What happens: a clause updates a key on its CPU; the consumer consumes a `clear()`, takes a snapshot for `printa()`,
prints everything, or starts another round of consuming. -/
inductive Event (υ κ : Type) (n : ℕ)
  | update (cpu : Fin n) (key : AggKey κ) (u : υ)
  | clear (aid : ℕ) (now : ℤ)
  | snap (now : ℤ)
  | print (now : ℤ)
  | consume

def stepSys (reduce : ℤ → ℕ → κ → κ) (s : Sys κ n) : Event υ κ n → Sys κ n
  | .update cpu key u =>
    let e := dtGetAgg (desc key.1) (s.gen key.1) ((s.cpus cpu).lookup key)
    { s with cpus := update s.cpus cpu ((s.cpus cpu).insert key ⟨e.gen, (desc key.1).upd u e.data⟩) }
  | .clear aid now => dtClear desc (dtraceAggregateSnap desc interval reduce s now) aid
  | .snap now => dtraceAggregateSnap desc interval reduce s now
  | .print now => dtraceAggregateSnap desc interval reduce { s with valid := false } now
  | .consume => { s with valid := false }

def run (reduce : ℤ → ℕ → κ → κ) (es : List (Event υ κ n)) : Sys κ n := runEvents (stepSys desc interval reduce) Sys.init es

end

/-! ## What the updates amount to -/

section

variable {υ κ : Type} {n : ℕ}

section

variable [DecidableEq κ]

/-- The updates of a key on a CPU since the last `clear()` of its aggregation was consumed. -/
def sinceClear (cpu : Fin n) (key : AggKey κ) (es : List (Event υ κ n)) : List υ :=
  runEvents (fun us e => match e with
    | .update c k u => if c = cpu ∧ k = key then us ++ [u] else us
    | .clear aid _ => if aid = key.1 then [] else us
    | _ => us) [] es

/-- The data one CPU holds after a list of updates. -/
def recorded (d : AggDesc υ) (us : List υ) : List Datum := us.foldl (fun data u => d.upd u data) d.fresh

def Event.updated : Event υ κ n → Option (AggKey κ)
  | .update _ key _ => some key
  | _ => none

/-- The keys updated that are reduced to `key`. -/
def rawKeys (reduce : ℕ → κ → κ) (key : AggKey κ) (es : List (Event υ κ n)) : List (AggKey κ) :=
  ((es.filterMap Event.updated).filter fun k => reduced reduce k = key).dedup

/-- Merge the data of some keys, given their updates, into `x`. -/
def mergeKeys (d : AggDesc υ) (us : AggKey κ → List υ) (ks : List (AggKey κ)) (x : List Datum) : List Datum :=
  ks.foldl (fun acc k => dtAggOneAgg d acc (recorded d (us k))) x

/-- The merge over all CPUs of the updates since the last `clear()`. -/
def merged (d : AggDesc υ) (reduce : ℕ → κ → κ) (key : AggKey κ) (es : List (Event υ κ n)) : List Datum :=
  (List.finRange n).foldl (fun acc c => mergeKeys d (fun k => sinceClear c k es) (rawKeys reduce key es) acc) d.fresh

/-- The law for one key and its entry in the hash: data of the current generation, and the merge of exactly the updates
since the last `clear()`; a key without an entry has had none. -/
def LawAt (d : AggDesc υ) (reduce : ℕ → κ → κ) (g : ℕ) (key : AggKey κ) (es : List (Event υ κ n)) : Option Entry → Prop
  | none => ∀ c k, reduced reduce k = key → sinceClear c k es = []
  | some h => h.gen = g ∧ h.data = merged d reduce key es

/-- The generation law, for the hash of the consumer. -/
def Law (desc : ℕ → AggDesc υ) (reduce : ℕ → κ → κ) (es : List (Event υ κ n)) (s : Sys κ n) : Prop :=
  ∀ key, LawAt (desc key.1) reduce (s.gen key.1) key es (s.hash.lookup key)

/-- The entries that are reduced to a key, in the order of a snapshot. -/
def Sys.entries (reduce : ℕ → κ → κ) (s : Sys κ n) (key : AggKey κ) : List Entry :=
  (List.finRange n).flatMap fun c => (s.cpus c).fiber (reduced reduce) key

/-- A new entry of the hash will not be made of old data: the key has an entry already, or the first data found for it is
of the current generation, or newer data than the first follows. -/
def FreshAt (g : ℕ) : Option Entry → List Entry → Prop
  | some _, _ => True
  | none, [] => True
  | none, e :: es => e.gen = g ∨ ∃ e' ∈ es, e.gen < e'.gen

def Sys.Fresh (reduce : ℕ → κ → κ) (s : Sys κ n) : Prop :=
  ∀ key, FreshAt (s.gen key.1) (s.hash.lookup key) (s.entries reduce key)

end

/-! ## Data -/

variable {e : Entry} {d : AggDesc υ}

section

lemma length_fresh : d.fresh.length = d.nwords := by
  unfold AggDesc.fresh
  split <;> simp

variable {x : List Datum}

lemma length_dtAggOneAgg {y : List Datum} (hx : x.length = d.nwords) (hy : y.length = d.nwords) :
    (dtAggOneAgg d x y).length = d.nwords := by
  unfold dtAggOneAgg
  split
  · split <;> simp [hx]
  · split <;> simp [hx]
  · simp [hx, hy]

@[simp] lemma recorded_nil : recorded d [] = d.fresh := rfl

lemma length_recorded (us : List υ) : (recorded d us).length = d.nwords :=
  foldlRecOn (motive := fun x => x.length = d.nwords) us _ length_fresh fun x hx u _ => d.length_upd u x hx

lemma fresh_eq : d.fresh = match d.kind with
    | .max => [int64Min]
    | .min => [int64Max]
    | _ => replicate d.nwords 0#64 := by
  have hone := d.minmax
  unfold AggDesc.fresh AggDesc.ival
  cases hk : d.kind with
  | min =>
    rw [hone (.inl hk)]
    rfl
  | max =>
    rw [hone (.inr hk)]
    rfl
  | _ => simp

lemma eq_singleton (hk : d.kind = .min ∨ d.kind = .max) (hx : x.length = d.nwords) : ∃ w, x = [w] :=
  length_eq_one_iff.1 (hx.trans (d.minmax hk))

lemma clearEntry_eq (gen : ℕ) (he : e.data.length = d.nwords) : clearEntry d gen e = ⟨gen, d.fresh⟩ := by
  rw [fresh_eq, clearEntry]
  cases hk : d.kind with
  | min =>
    obtain ⟨w, hw⟩ := eq_singleton (.inl hk) he
    simp [hw]
  | max =>
    obtain ⟨w, hw⟩ := eq_singleton (.inr hk) he
    simp [hw]
  | _ => rfl

lemma toInt_int64Max : int64Max.toInt = 2 ^ 63 - 1 := by decide

lemma toInt_int64Min : int64Min.toInt = -2 ^ 63 := by decide

lemma not_int64Max_slt (w : Datum) : int64Max.slt w = false := by
  have := w.toInt_lt
  simp only [BitVec.slt, toInt_int64Max, decide_eq_false_iff_not]
  omega

lemma not_slt_int64Min (w : Datum) : w.slt int64Min = false := by
  have := w.le_toInt
  simp only [BitVec.slt, toInt_int64Min, decide_eq_false_iff_not]
  omega

variable {w : Datum}

lemma eq_int64Max (h : w.slt int64Max = false) : w = int64Max := by
  have := w.toInt_lt
  simp only [BitVec.slt, toInt_int64Max, decide_eq_false_iff_not] at h
  exact BitVec.eq_of_toInt_eq (by rw [toInt_int64Max]; omega)

lemma eq_int64Min (h : int64Min.slt w = false) : w = int64Min := by
  have := w.le_toInt
  simp only [BitVec.slt, toInt_int64Min, decide_eq_false_iff_not] at h
  exact BitVec.eq_of_toInt_eq (by rw [toInt_int64Min]; omega)

lemma zipWith_zeros (x : List Datum) : x.zipWith (· + ·) (replicate x.length 0#64) = x := by
  induction x with
  | nil => rfl
  | cons w x ih => simp [replicate_succ, ih]

lemma dtAggOneAgg_fresh_right (hx : x.length = d.nwords) : dtAggOneAgg d x d.fresh = x := by
  rw [fresh_eq, dtAggOneAgg]
  cases hk : d.kind with
  | min =>
    obtain ⟨w, rfl⟩ := eq_singleton (.inl hk) hx
    simp [binAt, not_int64Max_slt]
  | max =>
    obtain ⟨w, rfl⟩ := eq_singleton (.inr hk) hx
    simp [binAt, not_slt_int64Min]
  | _ => simpa [hx] using zipWith_zeros x

lemma dtAggOneAgg_fresh_left (hx : x.length = d.nwords) : dtAggOneAgg d d.fresh x = x := by
  rw [fresh_eq, dtAggOneAgg]
  cases hk : d.kind with
  | min =>
    obtain ⟨w, rfl⟩ := eq_singleton (.inl hk) hx
    cases hlt : w.slt int64Max with
    | true => simp [binAt, hlt]
    | false => simp [binAt, eq_int64Max hlt]
  | max =>
    obtain ⟨w, rfl⟩ := eq_singleton (.inr hk) hx
    cases hlt : int64Min.slt w with
    | true => simp [binAt, hlt]
    | false => simp [binAt, eq_int64Min hlt]
  | _ =>
    have := zipWith_zeros x
    rw [zipWith_comm_of_comm fun a b => BitVec.add_comm a b] at this
    simpa [hx] using this

end

lemma keep_right_comm {r : Datum → Datum → Bool} {v : Datum → ℤ} (hr : ∀ a b, r a b = decide (v a < v b))
    (hv : Injective v) (x : List Datum) (b c : Datum) :
    let keep := fun (x : List Datum) b => if r (binAt x 0) b then x.set 0 b else x
    keep (keep x b) c = keep (keep x c) b := by
  cases x with
  | nil => simp
  | cons a x =>
    have := @hv b c
    simp only [hr, binAt, decide_eq_true_eq]
    grind

/-- The order of merging does not matter. -/
lemma dtAggOneAgg_right_comm (x y z : List Datum) :
    dtAggOneAgg d (dtAggOneAgg d x y) z = dtAggOneAgg d (dtAggOneAgg d x z) y := by
  have hinj : Injective (BitVec.toInt : Datum → ℤ) := fun _ _ => BitVec.eq_of_toInt_eq
  unfold dtAggOneAgg
  cases d.kind with
  | max => exact keep_right_comm (fun _ _ => rfl) hinj x _ _
  | min =>
    exact keep_right_comm (r := fun a b => b.slt a) (v := fun a => -a.toInt) (fun a b => by simp [BitVec.slt])
      (fun _ _ h => hinj (Int.neg_inj.1 h)) x _ _
  | _ =>
    refine ext_getElem (by simp; omega) fun i _ _ => ?_
    simp only [getElem_zipWith]
    bv_omega

section

variable {us : AggKey κ → List υ} {x : List Datum}

lemma mergeKeys_cons (k : AggKey κ) (ks : List (AggKey κ)) :
    mergeKeys d us (k :: ks) x = mergeKeys d us ks (dtAggOneAgg d x (recorded d (us k))) := rfl

lemma length_mergeKeys (ks : List (AggKey κ)) (hx : x.length = d.nwords) : (mergeKeys d us ks x).length = d.nwords :=
  foldlRecOn (motive := fun x : List Datum => x.length = d.nwords) ks _ hx fun _ hx _ _ =>
    length_dtAggOneAgg hx (length_recorded _)

/-- Keys without updates do not count. -/
lemma mergeKeys_filter (ks : List (AggKey κ)) (hx : x.length = d.nwords) :
    mergeKeys d us ks x = mergeKeys d us (ks.filter fun k => !(us k).isEmpty) x := by
  induction ks generalizing x with
  | nil => rfl
  | cons k ks ih =>
    cases hk : us k with
    | nil =>
      rw [mergeKeys_cons, hk, recorded_nil, dtAggOneAgg_fresh_right hx, ih hx]
      simp [hk]
    | cons u us' =>
      rw [mergeKeys_cons, ih (length_dtAggOneAgg hx (length_recorded _))]
      simp [hk, mergeKeys]

lemma mergeKeys_congr {ks ks' : List (AggKey κ)} (hks : ks.Nodup) (hks' : ks'.Nodup)
    (hmem : ∀ k, us k ≠ [] → (k ∈ ks ↔ k ∈ ks')) (hx : x.length = d.nwords) : mergeKeys d us ks x = mergeKeys d us ks' x := by
  have hperm : (ks.filter fun k => !(us k).isEmpty) ~ ks'.filter fun k => !(us k).isEmpty := by
    rw [perm_ext_iff_of_nodup (hks.filter _) (hks'.filter _)]
    intro k
    simp only [mem_filter, Bool.not_eq_true', isEmpty_eq_false_iff]
    exact and_congr_left fun hk => hmem k hk
  rw [mergeKeys_filter ks hx, mergeKeys_filter ks' hx]
  exact hperm.foldl_eq' (fun _ _ _ _ _ => dtAggOneAgg_right_comm _ _ _) x

end

/-! ## A snapshot, key by key -/

variable {desc : ℕ → AggDesc υ} {es : List Entry} {key : AggKey κ} {o : Option Entry} {gen : ℕ → ℕ} {h : Entry}

section

@[simp] lemma dtAggregateClearOne_none (e : Entry) :
    dtAggregateClearOne desc gen aggvaridNone key e = clearEntry (desc key.1) (gen key.1) e := by
  simp [dtAggregateClearOne]

lemma snapEntry_of_gt (h0 : e.gen ≠ 0) (hlt : e.gen < h.gen) : snapEntry desc gen key (some h) e = some h := by
  simp [snapEntry, h0, hlt, Nat.lt_asymm hlt]

lemma snapEntry_of_eq (h0 : e.gen ≠ 0) (heq : e.gen = h.gen) :
    snapEntry desc gen key (some h) e = some ⟨h.gen, dtAggOneAgg (desc key.1) h.data e.data⟩ := by
  have h0' : h.gen ≠ 0 := heq ▸ h0
  simp [snapEntry, heq, h0']

lemma snapEntry_of_lt (hh : h.data.length = (desc key.1).nwords) (hlt : h.gen < e.gen) (hle : e.gen ≤ gen key.1) :
    snapEntry desc gen key (some h) e = snapEntry desc gen key (some ⟨gen key.1, (desc key.1).fresh⟩) e := by
  have h0 : e.gen ≠ 0 := by omega
  simp [snapEntry, h0, hlt, clearEntry_eq _ hh, Nat.not_lt.2 hle]

lemma snapEntry_isSome (desc : ℕ → AggDesc υ) (gen : ℕ → ℕ) (key : AggKey κ) (h e : Entry) : (snapEntry desc gen key (some h) e).isSome := by
  unfold snapEntry
  dsimp only
  generalize (if h.gen < e.gen then dtAggregateClearOne desc gen aggvaridNone key h else h) = h'
  split
  · rfl
  · split <;> rfl

lemma isSome_foldl_snapEntry (es : List Entry) (ho : o.isSome) : (es.foldl (snapEntry desc gen key) o).isSome := by
  refine foldlRecOn (motive := fun o : Option Entry => o.isSome) es _ ho fun o ho e _ => ?_
  obtain ⟨h, rfl⟩ := isSome_iff_exists.1 ho
  exact snapEntry_isSome desc gen key h e

lemma snapEntry_length (he : e.data.length = (desc key.1).nwords)
    (ho : ∀ h ∈ o, h.data.length = (desc key.1).nwords) :
    ∀ h ∈ snapEntry desc gen key o e, h.data.length = (desc key.1).nwords := by
  intro h hh
  cases o with
  | none =>
    rw [snapEntry] at hh
    split at hh
    · cases hh
    · cases hh
      exact he
  | some h0 =>
    have hlen : (if h0.gen < e.gen then dtAggregateClearOne desc gen aggvaridNone key h0 else h0).data.length =
        (desc key.1).nwords := by
      split
      · rw [dtAggregateClearOne_none, clearEntry_eq _ (ho h0 rfl)]
        exact length_fresh
      · exact ho h0 rfl
    unfold snapEntry at hh
    dsimp only at hh
    generalize (if h0.gen < e.gen then dtAggregateClearOne desc gen aggvaridNone key h0 else h0) = h' at hh hlen
    split at hh
    · cases hh
      exact ho h rfl
    · split at hh <;> cases hh
      · exact hlen
      · exact length_dtAggOneAgg hlen he

lemma foldl_length (hes : ∀ e ∈ es, e.data.length = (desc key.1).nwords)
    (ho : ∀ h ∈ o, h.data.length = (desc key.1).nwords) :
    ∀ h ∈ es.foldl (snapEntry desc gen key) o, h.data.length = (desc key.1).nwords :=
  foldlRecOn (motive := fun o : Option Entry => ∀ h ∈ o, h.data.length = (desc key.1).nwords) es _ ho fun _ ho e he =>
    snapEntry_length (hes e he) ho

end

section

variable [DecidableEq κ]

variable {reduce : ℕ → κ → κ}

lemma lookup_dtAggregateSnapOne (hash : Store (AggKey κ) Entry) (key : AggKey κ) (e : Entry) :
    (dtAggregateSnapOne desc reduce gen hash key e).lookup (reduced reduce key) =
      snapEntry desc gen (reduced reduce key) (hash.lookup (reduced reduce key)) e := by
  unfold dtAggregateSnapOne
  generalize reduced reduce key = key
  dsimp only
  cases hs : snapEntry desc gen key (hash.lookup key) e with
  | some h => exact AList.lookup_insert hash
  | none =>
    cases hl : hash.lookup key with
    | none => rfl
    | some h =>
      have := snapEntry_isSome desc gen key h e
      rw [← hl, hs] at this
      cases this

lemma lookup_dtAggregateSnapOne_ne (hash : Store (AggKey κ) Entry) (key : AggKey κ) (e : Entry) (key' : AggKey κ)
    (h : key' ≠ reduced reduce key) : (dtAggregateSnapOne desc reduce gen hash key e).lookup key' = hash.lookup key' := by
  unfold dtAggregateSnapOne
  dsimp only
  split
  · rfl
  · exact AList.lookup_insert_ne h

lemma lookup_dtAggregateSnapCpu (hash cpu : Store (AggKey κ) Entry) :
    (dtAggregateSnapCpu desc reduce gen hash cpu).lookup key =
      (cpu.fiber (reduced reduce) key).foldl (snapEntry desc gen key) (hash.lookup key) :=
  Store.lookup_visit lookup_dtAggregateSnapOne lookup_dtAggregateSnapOne_ne cpu hash key

lemma lookup_walkClear (aid : ℕ) (hash : Store (AggKey κ) Entry) :
    (walkClear desc gen aid hash).lookup key = (hash.lookup key).map (dtAggregateClearOne desc gen aid key) :=
  Store.lookup_mapVals _ _ _

/-- A snapshot works on the entries of a key one CPU after the other, from the cleared entry in the hash. -/
theorem lookup_snapshot (reduce : ℕ → κ → κ) (s : Sys κ n) : (snapshot desc reduce s).lookup key =
    (s.entries reduce key).foldl (snapEntry desc s.gen key)
      ((s.hash.lookup key).map (clearEntry (desc key.1) (s.gen key.1))) := by
  have hfold : ∀ (cs : List (Fin n)) (h : Store (AggKey κ) Entry),
      (cs.foldl (fun h c => dtAggregateSnapCpu desc reduce s.gen h (s.cpus c)) h).lookup key =
        (cs.flatMap fun c => (s.cpus c).fiber (reduced reduce) key).foldl (snapEntry desc s.gen key) (h.lookup key) := by
    intro cs
    induction cs with
    | nil => exact fun _ => rfl
    | cons c cs ih =>
      intro h
      rw [foldl_cons, ih, lookup_dtAggregateSnapCpu, flatMap_cons, foldl_append]
  have hclear : dtAggregateClearOne desc s.gen aggvaridNone key = clearEntry (desc key.1) (s.gen key.1) :=
    funext dtAggregateClearOne_none
  rw [snapshot, hfold, lookup_walkClear, hclear]
  rfl

end

section

def mergeCurrent (d : AggDesc υ) (g : ℕ) (es : List Entry) (x : List Datum) : List Datum :=
  (es.filter fun e => e.gen = g).foldl (fun acc e => dtAggOneAgg d acc e.data) x

lemma mergeCurrent_cons_eq (es : List Entry) (x : List Datum) :
    mergeCurrent d e.gen (e :: es) x = mergeCurrent d e.gen es (dtAggOneAgg d x e.data) := by
  simp [mergeCurrent]

lemma mergeCurrent_append (g : ℕ) (es es' : List Entry) (x : List Datum) :
    mergeCurrent d g (es ++ es') x = mergeCurrent d g es' (mergeCurrent d g es x) := by
  simp [mergeCurrent]

lemma mergeCurrent_cons_ne {g : ℕ} (h : e.gen ≠ g) (es : List Entry) (x : List Datum) :
    mergeCurrent d g (e :: es) x = mergeCurrent d g es x := by
  simp [mergeCurrent, h]

structure Entry.UpTo (d : AggDesc υ) (g : ℕ) (e : Entry) : Prop where
  pos : e.gen ≠ 0
  le : e.gen ≤ g
  length : e.data.length = d.nwords

section

variable (hes : ∀ e ∈ es, e.UpTo (desc key.1) (gen key.1))
include hes

/-- From an entry of the current generation on, older data is skipped. -/
lemma foldl_current (x : List Datum) :
    es.foldl (snapEntry desc gen key) (some ⟨gen key.1, x⟩) =
      some ⟨gen key.1, mergeCurrent (desc key.1) (gen key.1) es x⟩ := by
  induction es generalizing x with
  | nil => rfl
  | cons e es ih =>
    obtain ⟨he, hrest⟩ := forall_mem_cons.1 hes
    rw [foldl_cons]
    rcases Nat.lt_or_eq_of_le he.le with hlt | heq
    · rw [snapEntry_of_gt he.pos hlt, ih hrest, mergeCurrent_cons_ne (by omega)]
    · rw [snapEntry_of_eq he.pos heq, ih hrest, ← heq, mergeCurrent_cons_eq]

/-- From an older entry on, when no newer data follows, the entry stays old. -/
lemma foldl_stale (hold : ∀ e ∈ es, e.gen ≤ h.gen) :
    ∃ x, es.foldl (snapEntry desc gen key) (some h) = some ⟨h.gen, x⟩ := by
  induction es generalizing h with
  | nil => exact ⟨h.data, rfl⟩
  | cons e es ih =>
    obtain ⟨he, hrest⟩ := forall_mem_cons.1 hes
    obtain ⟨hle, hold⟩ := forall_mem_cons.1 hold
    rw [foldl_cons]
    rcases Nat.lt_or_eq_of_le hle with hlt | heq
    · rw [snapEntry_of_gt he.pos hlt]
      exact ih hrest hold
    · rw [snapEntry_of_eq he.pos heq]
      exact ih hrest hold

/-- From an older entry on, newer data clears the entry, and the rest is as from a cleared one. -/
lemma foldl_newer
    (hh : h.data.length = (desc key.1).nwords) (hlt : h.gen < gen key.1) (hnew : ∃ e ∈ es, h.gen < e.gen) :
    es.foldl (snapEntry desc gen key) (some h) =
      some ⟨gen key.1, mergeCurrent (desc key.1) (gen key.1) es (desc key.1).fresh⟩ := by
  induction es generalizing h with
  | nil =>
    obtain ⟨e, he, -⟩ := hnew
    cases he
  | cons e es ih =>
    obtain ⟨he, hrest⟩ := forall_mem_cons.1 hes
    by_cases hfirst : h.gen < e.gen
    · rw [← foldl_current hes, foldl_cons, foldl_cons, snapEntry_of_lt hh hfirst he.le]
    · have hnew' : ∃ e ∈ es, h.gen < e.gen := by
        obtain ⟨e', he', hlt'⟩ := hnew
        rcases mem_cons.1 he' with rfl | he'
        · exact absurd hlt' hfirst
        · exact ⟨e', he', hlt'⟩
      rw [foldl_cons, mergeCurrent_cons_ne (by omega)]
      rcases Nat.lt_or_eq_of_le (Nat.not_lt.1 hfirst) with hgt | heq
      · rw [snapEntry_of_gt he.pos hgt]
        exact ih hrest hh hlt hnew'
      · rw [snapEntry_of_eq he.pos heq]
        exact ih hrest (length_dtAggOneAgg hh he.length) hlt hnew'

end

end

/-! ## Runs -/

section

variable [DecidableEq κ] {interval : ℤ} {reduce : ℤ → ℕ → κ → κ} {red : ℕ → κ → κ}

lemma dtraceAggregateSnap_eq (desc : ℕ → AggDesc υ) (interval : ℤ) (reduce : ℤ → ℕ → κ → κ) (s : Sys κ n) (now : ℤ) :
    ∃ valid lastagg, dtraceAggregateSnap desc interval reduce s now =
    { s with valid := valid, lastagg := lastagg,
             hash := if s.takes interval now then snapshot desc (reduce now) s else s.hash } := by
  unfold dtraceAggregateSnap Sys.takes
  cases s.tooSoon interval now with
  | true => exact ⟨s.valid, s.lastagg, rfl⟩
  | false =>
    cases hv : s.valid with
    | true => exact ⟨true, _, by simp; rfl⟩
    | false => exact ⟨true, _, by simp; rfl⟩

/-- What the entry of a CPU says about the updates made there since the last `clear()`. -/
def CpuOk (d : AggDesc υ) (g : ℕ) (us : List υ) : Option Entry → Prop
  | none => us = []
  | some e => e.UpTo d g ∧ if e.gen = g then e.data = recorded d us else us = []

structure Inv (desc : ℕ → AggDesc υ) (es : List (Event υ κ n)) (s : Sys κ n) : Prop where
  gen_pos : ∀ a, s.gen a ≠ 0
  cpu : ∀ c key, CpuOk (desc key.1) (s.gen key.1) (sinceClear c key es) ((s.cpus c).lookup key)
  hash : ∀ key h, s.hash.lookup key = some h → h.data.length = (desc key.1).nwords

variable {es : List (Event υ κ n)} {s : Sys κ n} {us : List υ} {g : ℕ} {now : ℤ}

lemma Sys.mem_entries {key : AggKey κ} :
    e ∈ s.entries red key ↔ ∃ c k, reduced red k = key ∧ (s.cpus c).lookup k = some e := by
  simp [Sys.entries, Store.mem_fiber]

lemma Inv.upTo (h : Inv desc es s) (red : ℕ → κ → κ) (key : AggKey κ) :
    ∀ e ∈ s.entries red key, e.UpTo (desc key.1) (s.gen key.1) := by
  intro e he
  obtain ⟨c, k, rfl, hc⟩ := Sys.mem_entries.1 he
  have := h.cpu c k
  rw [hc] at this
  exact this.1

lemma CpuOk.gen_eq (h : CpuOk d g us (some e)) (hus : us ≠ []) : e.gen = g := by
  by_contra hne
  obtain ⟨-, hnil⟩ := h
  rw [if_neg hne] at hnil
  exact hus hnil

lemma CpuOk.update (hg : g ≠ 0) (h : CpuOk d g us o) (u : υ) :
    CpuOk d g (us ++ [u]) (some ⟨(dtGetAgg d g o).gen, d.upd u (dtGetAgg d g o).data⟩) := by
  have hsnoc : recorded d (us ++ [u]) = d.upd u (recorded d us) := by simp [recorded]
  -- an update always works on the data of the current generation
  suffices hcur : (dtGetAgg d g o).gen = g ∧ (dtGetAgg d g o).data = recorded d us by
    refine ⟨⟨by rw [hcur.1]; exact hg, by rw [hcur.1], ?_⟩, ?_⟩
    · rw [hcur.2]
      exact d.length_upd u _ (length_recorded us)
    · rw [if_pos hcur.1, hsnoc, hcur.2]
  cases o with
  | none =>
    have : us = [] := h
    subst this
    exact ⟨rfl, rfl⟩
  | some e =>
    obtain ⟨hup, hdata⟩ := h
    have hle := hup.le
    by_cases hlt : e.gen < g
    · rw [if_neg (by omega)] at hdata
      subst hdata
      rw [dtGetAgg, if_pos hlt]
      exact ⟨rfl, rfl⟩
    · rw [if_pos (by omega)] at hdata
      rw [dtGetAgg, if_neg hlt]
      exact ⟨by omega, hdata⟩

lemma CpuOk.clear (h : CpuOk d g us o) : CpuOk d (g + 1) [] o := by
  cases o with
  | none => rfl
  | some e =>
    obtain ⟨hup, -⟩ := h
    have hle := hup.le
    refine ⟨⟨hup.pos, by omega, hup.length⟩, ?_⟩
    rw [if_neg (by omega)]

lemma Inv.snap (h : Inv desc es s) (now : ℤ) : Inv desc es (dtraceAggregateSnap desc interval reduce s now) := by
  obtain ⟨_, _, heq⟩ := dtraceAggregateSnap_eq desc interval reduce s now
  rw [heq]
  refine ⟨h.gen_pos, h.cpu, fun key e he => ?_⟩
  split at he
  · rw [lookup_snapshot] at he
    refine foldl_length (fun e he => (h.upTo _ key e he).length) (fun h' hh' => ?_) e he
    obtain ⟨h0, hl, rfl⟩ := map_eq_some_iff.1 hh'
    rw [clearEntry_eq _ (h.hash key h0 hl)]
    exact length_fresh
  · exact h.hash key e he

lemma Inv.clear (h : Inv desc es s) (aid : ℕ) (now : ℤ) : Inv desc (es ++ [.clear aid now]) (dtClear desc s aid) := by
  refine ⟨fun a => ?_, fun c key => ?_, fun key e he => ?_⟩
  · by_cases ha : a = aid
    · simp [dtClear, ha]
    · simpa [dtClear, ha] using h.gen_pos a
  · have hcpu := h.cpu c key
    by_cases ha : key.1 = aid
    · simpa [dtClear, sinceClear, ha] using hcpu.clear
    · simpa [dtClear, sinceClear, ha, Ne.symm ha] using hcpu
  · simp only [dtClear, lookup_walkClear] at he
    obtain ⟨h0, hl, rfl⟩ := map_eq_some_iff.1 he
    unfold dtAggregateClearOne
    split
    · exact h.hash key h0 hl
    · rw [clearEntry_eq _ (h.hash key h0 hl)]
      exact length_fresh

lemma Inv.update (h : Inv desc es s) (cpu : Fin n) (key : AggKey κ) (u : υ) :
    Inv desc (es ++ [.update cpu key u]) (stepSys desc interval reduce s (.update cpu key u)) := by
  refine ⟨h.gen_pos, fun c k => ?_, h.hash⟩
  have hcpu := h.cpu c k
  by_cases hc : c = cpu
  · subst hc
    by_cases hk : k = key
    · subst hk
      simpa [stepSys, sinceClear] using hcpu.update (h.gen_pos k.1) u
    · simpa [stepSys, sinceClear, hk, Ne.symm hk] using hcpu
  · simpa [stepSys, sinceClear, hc, Ne.symm hc] using hcpu

theorem inv_run (es : List (Event υ κ n)) : Inv desc es (run desc interval reduce es) := by
  refine runEvents_induction ⟨fun _ => Nat.one_ne_zero, fun _ _ => rfl, fun _ _ h => by cases h⟩ (fun es s e h => ?_) es
  have hsame : ∀ e : Event υ κ n, (∀ c (key : AggKey κ), sinceClear c key (es ++ [e]) = sinceClear c key es) →
      ∀ s', Inv desc es s' → Inv desc (es ++ [e]) s' := by
    intro e he s' h'
    exact ⟨h'.gen_pos, fun c key => by rw [he]; exact h'.cpu c key, h'.hash⟩
  cases e with
  | update cpu key u => exact h.update cpu key u
  | clear aid now => exact (h.snap now).clear aid now
  | snap now => exact hsame _ (fun _ _ => by simp [sinceClear]) _ (h.snap now)
  | print now =>
    have hvalid : Inv desc es { s with valid := false } := ⟨h.gen_pos, h.cpu, h.hash⟩
    exact hsame _ (fun _ _ => by simp [sinceClear]) _ (hvalid.snap now)
  | consume => exact hsame _ (fun _ _ => by simp [sinceClear]) _ ⟨h.gen_pos, h.cpu, h.hash⟩

/-! ## The law -/

lemma mem_updated_of_sinceClear {c : Fin n} {key : AggKey κ} (h : sinceClear c key es ≠ []) :
    ∃ u, Event.update c key u ∈ es := by
  revert h
  refine runEvents_induction (motive := fun es us => us ≠ [] → ∃ u, Event.update c key u ∈ es) (fun h => absurd rfl h)
    (fun es us e ih h => ?_) es
  by_cases hus : us = []
  · subst hus
    cases e with
    | update c' k u =>
      dsimp only at h
      split at h
      · next hck => exact ⟨u, by simp [hck]⟩
      · exact absurd rfl h
    | clear aid now => simp at h
    | _ => exact absurd rfl h
  · obtain ⟨u, hu⟩ := ih hus
    exact ⟨u, mem_append_left _ hu⟩

omit [DecidableEq κ] in
lemma mergeCurrent_eq_mergeKeys (us : AggKey κ → List υ) {m : List (Σ _ : AggKey κ, Entry)}
    (hm : ∀ p ∈ m, CpuOk d g (us p.1) (some p.2)) {x : List Datum} (hx : x.length = d.nwords) :
    mergeCurrent d g (m.map Sigma.snd) x = mergeKeys d us m.keys x := by
  induction m generalizing x with
  | nil => rfl
  | cons p m ih =>
    obtain ⟨⟨hup, hdata⟩, hrest⟩ := forall_mem_cons.1 hm
    rw [map_cons, keys_cons, mergeKeys_cons]
    by_cases hg : p.2.gen = g
    · rw [if_pos hg] at hdata
      rw [← hg, mergeCurrent_cons_eq, hg, ← hdata]
      exact ih hrest (length_dtAggOneAgg hx hup.length)
    · rw [if_neg hg] at hdata
      rw [mergeCurrent_cons_ne hg, hdata, recorded_nil, dtAggOneAgg_fresh_right hx]
      exact ih hrest hx

/-- The current data of a CPU is that of the keys updated there. -/
lemma Inv.mergeCurrent_fiber (h : Inv desc es s) (red : ℕ → κ → κ) (key : AggKey κ) (c : Fin n) {x : List Datum}
    (hx : x.length = (desc key.1).nwords) :
    mergeCurrent (desc key.1) (s.gen key.1) ((s.cpus c).fiber (reduced red) key) x =
      mergeKeys (desc key.1) (fun k => sinceClear c k es) (rawKeys red key es) x := by
  have hmem : ∀ k e, ⟨k, e⟩ ∈ (s.cpus c).entries ↔ (s.cpus c).lookup k = some e := fun k e =>
    (mem_dlookup_iff (s.cpus c).nodupKeys).symm
  have hok : ∀ p ∈ (s.cpus c).entries.filter fun p => reduced red p.1 = key,
      CpuOk (desc key.1) (s.gen key.1) (sinceClear c p.1 es) (some p.2) := by
    rintro ⟨k, e⟩ hp
    obtain ⟨he, hk⟩ := mem_filter.1 hp
    obtain rfl := of_decide_eq_true hk
    have := h.cpu c k
    rwa [(hmem k e).1 he] at this
  rw [Store.fiber, mergeCurrent_eq_mergeKeys (fun k => sinceClear c k es) hok hx]
  refine mergeKeys_congr ((s.cpus c).nodupKeys.sublist filter_sublist) (nodup_dedup _) (fun k hk => ?_) hx
  -- a key with updates has an entry, so both lists have it when it is reduced to `key`
  obtain ⟨u, hu⟩ := mem_updated_of_sinceClear hk
  have hraw : k ∈ rawKeys red key es ↔ reduced red k = key := by
    simp only [rawKeys, mem_dedup, mem_filter, mem_filterMap, decide_eq_true_eq]
    exact and_iff_right ⟨_, hu, rfl⟩
  rw [hraw]
  constructor
  · intro hkeys
    obtain ⟨p, hp, rfl⟩ := mem_map.1 hkeys
    exact of_decide_eq_true (mem_filter.1 hp).2
  · intro hred
    have hcpu := h.cpu c k
    cases hl : (s.cpus c).lookup k with
    | none =>
      rw [hl] at hcpu
      exact absurd hcpu hk
    | some e => exact mem_map.2 ⟨⟨k, e⟩, mem_filter.2 ⟨(hmem k e).2 hl, decide_eq_true hred⟩, rfl⟩

lemma Inv.mergeCurrent_entries (h : Inv desc es s) (red : ℕ → κ → κ) (key : AggKey κ) :
    mergeCurrent (desc key.1) (s.gen key.1) (s.entries red key) (desc key.1).fresh = merged (desc key.1) red key es := by
  have hfold : ∀ (cs : List (Fin n)) (x : List Datum), x.length = (desc key.1).nwords →
      mergeCurrent (desc key.1) (s.gen key.1) (cs.flatMap fun c => (s.cpus c).fiber (reduced red) key) x =
        cs.foldl (fun acc c => mergeKeys (desc key.1) (fun k => sinceClear c k es) (rawKeys red key es) acc) x := by
    intro cs
    induction cs with
    | nil => exact fun _ _ => rfl
    | cons c cs ih =>
      intro x hx
      rw [foldl_cons, flatMap_cons, mergeCurrent_append, h.mergeCurrent_fiber red key c hx]
      exact ih _ (length_mergeKeys _ hx)
  exact hfold _ _ length_fresh

lemma Inv.lawAt_iff (h : Inv desc es s) (red : ℕ → κ → κ) (key : AggKey κ) :
    LawAt (desc key.1) red (s.gen key.1) key es ((snapshot desc red s).lookup key) ↔
      FreshAt (s.gen key.1) (s.hash.lookup key) (s.entries red key) := by
  have hup := h.upTo red key
  have hmerge := h.mergeCurrent_entries red key
  rw [lookup_snapshot]
  cases hl : s.hash.lookup key with
  | some h0 =>
    -- an entry that exists is cleared first
    rw [map_some, clearEntry_eq _ (h.hash key h0 hl), foldl_current hup, hmerge]
    exact iff_of_true ⟨rfl, rfl⟩ trivial
  | none =>
    rw [map_none]
    cases hes : s.entries red key with
    | nil =>
      refine iff_of_true (fun c k hk => ?_) trivial
      have hcpu := h.cpu c k
      cases hc : (s.cpus c).lookup k with
      | none =>
        rw [hc] at hcpu
        exact hcpu
      | some e =>
        have he := Sys.mem_entries.2 ⟨c, k, hk, hc⟩
        rw [hes] at he
        cases he
    | cons e rest =>
      rw [hes] at hup hmerge
      obtain ⟨he, hrest⟩ := forall_mem_cons.1 hup
      have hfirst : snapEntry desc s.gen key none e = some e := by rw [snapEntry, if_neg he.pos]
      rw [foldl_cons, hfirst]
      by_cases hg : e.gen = s.gen key.1
      · -- the first data is current: copying it is merging it into cleared data
        have hcopy := dtAggOneAgg_fresh_left he.length
        rw [← hg, mergeCurrent_cons_eq, hcopy, hg] at hmerge
        have hcur : e = ⟨s.gen key.1, e.data⟩ := Entry.ext hg rfl
        rw [hcur, foldl_current hrest, hmerge]
        exact iff_of_true ⟨rfl, rfl⟩ (.inl rfl)
      · have hlt : e.gen < s.gen key.1 := Nat.lt_of_le_of_ne he.le hg
        by_cases hnew : ∃ e' ∈ rest, e.gen < e'.gen
        · rw [mergeCurrent_cons_ne hg] at hmerge
          rw [foldl_newer hrest he.length hlt hnew, hmerge]
          exact iff_of_true ⟨rfl, rfl⟩ (.inr hnew)
        · obtain ⟨x, hx⟩ := foldl_stale hrest fun e' he' =>
            Nat.not_lt.1 fun hlt' => hnew ⟨e', he', hlt'⟩
          rw [hx]
          refine iff_of_false (fun hlaw => hg hlaw.1) ?_
          rintro (hc | hc)
          · exact hg hc
          · exact hnew hc

lemma Inv.law_iff (h : Inv desc es s) (htakes : s.takes interval now = true) :
    Law desc (reduce now) es (dtraceAggregateSnap desc interval reduce s now) ↔ s.Fresh (reduce now) := by
  obtain ⟨_, _, heq⟩ := dtraceAggregateSnap_eq desc interval reduce s now
  rw [heq, htakes]
  exact forall_congr' (h.lawAt_iff (reduce now))

/-- Data of an older generation has an entry in the hash, where it will be ignored. -/
def Sys.Covered (red : ℕ → κ → κ) (s : Sys κ n) : Prop :=
  ∀ c key e, (s.cpus c).lookup key = some e → e.gen = s.gen key.1 ∨ (s.hash.lookup (reduced red key)).isSome

/-- Every `clear()` was consumed with its snapshot taken. -/
def ClearsSnapped (desc : ℕ → AggDesc υ) (interval : ℤ) (reduce : ℤ → ℕ → κ → κ) (es : List (Event υ κ n)) : Prop :=
  ∀ es₁ aid now es₂, es = es₁ ++ .clear aid now :: es₂ → (run desc interval reduce es₁).takes interval now = true

lemma Sys.Covered.fresh (h : s.Covered red) : s.Fresh red := by
  intro key
  cases hl : s.hash.lookup key with
  | some _ => trivial
  | none =>
    cases hes : s.entries red key with
    | nil => trivial
    | cons e rest =>
      have he : e ∈ s.entries red key := by rw [hes]; exact mem_cons_self
      obtain ⟨c, k, rfl, hc⟩ := Sys.mem_entries.1 he
      rcases h c k e hc with hg | hsome
      · exact .inl hg
      · rw [hl] at hsome
        cases hsome

lemma Inv.isSome_snapshot (h : Inv desc es s)
    (hkey : (s.hash.lookup key).isSome ∨ s.entries red key ≠ []) : ((snapshot desc red s).lookup key).isSome := by
  rw [lookup_snapshot]
  cases hl : s.hash.lookup key with
  | some h0 => exact isSome_foldl_snapEntry _ rfl
  | none =>
    rw [hl] at hkey
    cases hes : s.entries red key with
    | nil => exact absurd hes (hkey.resolve_left (by simp))
    | cons e rest =>
      have he := h.upTo red key e (by rw [hes]; exact mem_cons_self)
      refine isSome_foldl_snapEntry rest ?_
      simp [snapEntry, he.pos]

lemma Inv.covered_snap (h : Inv desc es s) (hs : s.Covered red) (now : ℤ) :
    (dtraceAggregateSnap desc interval (fun _ => red) s now).Covered red := by
  obtain ⟨_, _, heq⟩ := dtraceAggregateSnap_eq desc interval (fun _ => red) s now
  rw [heq]
  intro c key e hc
  refine (hs c key e hc).imp_right fun hsome => ?_
  split
  · exact h.isSome_snapshot (.inl hsome)
  · exact hsome

lemma Inv.covered_clear (h : Inv desc es s) (htakes : s.takes interval now = true) (aid : ℕ) :
    (dtClear desc (dtraceAggregateSnap desc interval (fun _ => red) s now) aid).Covered red := by
  obtain ⟨_, _, heq⟩ := dtraceAggregateSnap_eq desc interval (fun _ => red) s now
  rw [heq, htakes]
  intro c key e hc
  refine .inr ?_
  have hmem : e ∈ s.entries red (reduced red key) := Sys.mem_entries.2 ⟨c, key, rfl, hc⟩
  simp only [dtClear, if_true, lookup_walkClear, isSome_map]
  exact h.isSome_snapshot (.inr (ne_nil_of_mem hmem))

lemma covered_update (hs : s.Covered red) (h : Inv desc es s) (cpu : Fin n)
    (key : AggKey κ) (u : υ) : (stepSys desc interval reduce s (.update cpu key u)).Covered red := by
  intro c k e hc
  by_cases hck : c = cpu ∧ k = key
  · obtain ⟨rfl, rfl⟩ := hck
    have hok := (h.cpu c k).update (h.gen_pos k.1) u
    simp only [stepSys, update_self, AList.lookup_insert, Option.some.injEq] at hc
    subst hc
    exact .inl (hok.gen_eq (by simp))
  · have hold : (s.cpus c).lookup k = some e := by
      rw [← hc, stepSys]
      by_cases hc' : c = cpu
      · subst hc'
        have hk : k ≠ key := fun hk => hck ⟨rfl, hk⟩
        simp [hk]
      · simp [hc']
    exact hs c k e hold

lemma covered_run (hes : ClearsSnapped desc interval (fun _ => red) es) :
    (run desc interval (fun _ => red) es).Covered red := by
  induction es using reverseRecOn with
  | nil =>
    intro c key e hc
    cases hc
  | append_singleton es e ih =>
    have hpre : ClearsSnapped desc interval (fun _ => red) es := fun es1 aid now es2 heq =>
      hes es1 aid now (es2 ++ [e]) (by rw [heq]; simp)
    have hinv : Inv desc es (run desc interval (fun _ => red) es) := inv_run es
    have hcov := ih hpre
    rw [run, runEvents_snoc]
    cases e with
    | update cpu key u => exact covered_update hcov hinv cpu key u
    | clear aid now => exact hinv.covered_clear (hes es aid now [] rfl) aid
    | snap now => exact hinv.covered_snap hcov now
    | print now =>
      have hinv' : Inv desc es { run desc interval (fun _ => red) es with valid := false } :=
        ⟨hinv.gen_pos, hinv.cpu, hinv.hash⟩
      exact hinv'.covered_snap hcov now
    | consume => exact hcov

/-- When no `clear()` skips its snapshot and keys are always reduced in the same way, every snapshot follows the law. -/
theorem law_of_clears_snapped (hes : ClearsSnapped desc interval (fun _ => red) es)
    (htakes : (run desc interval (fun _ => red) es).takes interval now = true) :
    Law desc red es (dtraceAggregateSnap desc interval (fun _ => red) (run desc interval (fun _ => red) es) now) :=
  ((inv_run es).law_iff htakes).2 (covered_run hes).fresh

end

/-- `count()`: `dt_cg_agg_count_impl` adds 1. -/
def aggCount : AggDesc Unit where
  kind := .count
  nwords := 1
  upd _ data := data.modify 0 (· + 1)
  length_upd _ _ h := by rwa [List.length_modify]
  minmax h := by rcases h with h | h <;> cases h

end

end DTrace.Agg
