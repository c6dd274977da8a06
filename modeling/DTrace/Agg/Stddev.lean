import DTrace.Agg.Snapshot
import DTrace.Agg.StddevCode
import Mathlib.Algebra.BigOperators.Fin
import Mathlib.Algebra.Order.BigOperators.Group.Finset

/-!
# `stddev()` data recorded on several CPUs

Every CPU keeps the sum of squares as a 128-bit number in two words, with a carry between them; the consumer merges the
data of all CPUs word by word, without one.

* `stddev_adds` — what the code does with the data of one CPU;
* `recorded_stddev` — the data of one CPU in terms of the values it recorded;
* `merged_stddev` — the merge of the data of all CPUs;
* `stddev_split_iff` — when the merge is what one CPU would have recorded;
* `dtShift128_iff` — when the consumer shifts a number of two words rightly.
-/

namespace DTrace.Agg

open Lib Bpf BitVec Finset Function List Nat

/-- `stddev()`. -/
def aggStddev : AggDesc Datum where
  kind := .stddev
  nwords := 4
  upd := stddevUpd
  length_upd _ _ _ := rfl
  minmax h := by rcases h with h | h <;> cases h

def sq (v : Datum) : ℕ := v.toInt.natAbs ^ 2

def sqSum (vs : List Datum) : ℕ := (vs.map sq).sum

def statWords (count sum low high : ℕ) : List Datum :=
  [BitVec.ofNat 64 count, BitVec.ofNat 64 sum, BitVec.ofNat 64 low, BitVec.ofNat 64 high]

/-! ## One CPU -/

lemma stddevUpd_statWords (v : Datum) (count sum q : ℕ) :
    stddevUpd v (statWords count sum q (q / 2 ^ 64)) =
      statWords (count + 1) (sum + v.toNat) (q + sq v) ((q + sq v) / 2 ^ 64) := by
  have hlt := v.toInt_lt
  have hle := v.le_toInt
  have hmag : (BitVec.ofNat 64 v.toInt.natAbs).toNat = v.toInt.natAbs := by
    rw [toNat_ofNat]
    exact mod_eq_of_lt (by omega)
  have hspec := squareWords_spec (by rw [hmag]; omega)
  rw [hmag] at hspec
  unfold stddevUpd
  generalize squareWords (.ofNat 64 v.toInt.natAbs) = w at hspec ⊢
  obtain ⟨l, h⟩ := w
  have hsq : sq v = l.toNat + 2 ^ 64 * h.toNat := hspec.symm
  rw [hsq]
  have hcarry : l.ule (.ofNat 64 q + l) = decide (l.toNat ≤ (q + l.toNat) % 2 ^ 64) := by
    rw [BitVec.ule, toNat_add, toNat_ofNat, mod_add_mod]
  simp only [statWords, binAt, getD_cons_zero, getD_cons_succ, hcarry]
  refine congrArg₂ _ ?_ (congrArg₂ _ ?_ (congrArg₂ _ ?_ (congrArg₂ _ ?_ rfl)))
  · exact (ofNat_add _ _).symm
  · rw [ofNat_add, ofNat_toNat, setWidth_eq]
  · apply eq_of_toNat_eq
    rw [toNat_add, toNat_ofNat, toNat_ofNat]
    omega
  · apply eq_of_toNat_eq
    by_cases hc : l.toNat ≤ (q + l.toNat) % 2 ^ 64
    · rw [decide_eq_true hc, if_pos rfl, toNat_add, toNat_ofNat, toNat_ofNat]
      omega
    · rw [decide_eq_false hc, if_neg (by decide), toNat_add, toNat_add, toNat_ofNat,
        toNat_ofNat, toNat_ofNat]
      omega

/-- The code for a value adds 1 to the count, the value to the sum, and its square to the number in the other two
words. -/
theorem stddev_adds (v count sum low high : Datum) : ∃ low' high',
    CodeRecords v [count, sum, low, high] [count + 1, sum + v, low', high'] ∧
      low'.toNat + 2 ^ 64 * high'.toNat = (low.toNat + 2 ^ 64 * high.toNat + v.toInt.natAbs ^ 2) % 2 ^ 128 := by
  have hrec := dtCgAggStddev_records v (show [count, sum, low, high].length = 4 from rfl)
  obtain ⟨q, hq⟩ : ∃ q, q = low.toNat + 2 ^ 64 * high.toNat := ⟨_, rfl⟩
  have hlow : BitVec.ofNat 64 q = low := eq_of_toNat_eq (by rw [toNat_ofNat]; omega)
  have hhigh : BitVec.ofNat 64 (q / 2 ^ 64) = high := eq_of_toNat_eq (by rw [toNat_ofNat]; omega)
  have hupd := stddevUpd_statWords v count.toNat sum.toNat q
  simp only [statWords, ofNat_add, ofNat_toNat, setWidth_eq, hlow, hhigh] at hupd
  rw [hupd] at hrec
  refine ⟨_, _, hrec, ?_⟩
  rw [← hq, toNat_add, toNat_ofNat, toNat_ofNat]
  change _ = (q + sq v) % 2 ^ 128
  omega

theorem recorded_stddev (vs : List Datum) :
    recorded aggStddev vs = statWords vs.length (vs.map BitVec.toNat).sum (sqSum vs) (sqSum vs / 2 ^ 64) := by
  induction vs using reverseRecOn with
  | nil => rfl
  | append_singleton vs v ih =>
    have hsnoc : recorded aggStddev (vs ++ [v]) = stddevUpd v (recorded aggStddev vs) := by
      rw [recorded, foldl_append]
      rfl
    rw [hsnoc, ih, stddevUpd_statWords]
    simp [sqSum]

/-! ## All CPUs -/

section

variable {n : ℕ}

def valuesOn (c : Fin n) (es : List (Fin n × Datum)) : List Datum := (es.filter fun e => e.1 = c).map Prod.snd

lemma sum_valuesOn (f : Datum → ℕ) (es : List (Fin n × Datum)) :
    ∑ c, ((valuesOn c es).map f).sum = (es.map fun e => f e.2).sum := by
  induction es with
  | nil => simp [valuesOn]
  | cons e es ih =>
    have hcons : ∀ c, ((valuesOn c (e :: es)).map f).sum = (if e.1 = c then f e.2 else 0) + ((valuesOn c es).map f).sum := by
      intro c
      by_cases hc : e.1 = c <;> simp [valuesOn, hc]
    simp only [hcons, sum_add_distrib, ih]
    simp

lemma length_valuesOn (es : List (Fin n × Datum)) : ∑ c, (valuesOn c es).length = es.length := by
  have := sum_valuesOn (fun _ => 1) es
  simpa using this

lemma foldl_statWords (a b x y : Fin n → ℕ) (cs : List (Fin n)) (k0 k1 k2 k3 : ℕ) :
    cs.foldl (fun acc c => dtAggOneAgg aggStddev acc (statWords (a c) (b c) (x c) (y c))) (statWords k0 k1 k2 k3) =
      statWords (k0 + (cs.map a).sum) (k1 + (cs.map b).sum) (k2 + (cs.map x).sum) (k3 + (cs.map y).sum) := by
  induction cs generalizing k0 k1 k2 k3 with
  | nil => rfl
  | cons c cs ih =>
    have hone : dtAggOneAgg aggStddev (statWords k0 k1 k2 k3) (statWords (a c) (b c) (x c) (y c)) =
        statWords (k0 + a c) (k1 + b c) (k2 + x c) (k3 + y c) := by
      simp [dtAggOneAgg, aggStddev, statWords, ofNat_add]
    rw [foldl_cons, hone, ih]
    simp only [List.map_cons, List.sum_cons, add_assoc]

/-! ## Runs that only record values -/

variable {κ : Type}

def updates (key : AggKey κ) (es : List (Fin n × Datum)) : List (Event Datum κ n) := es.map fun e => .update e.1 key e.2

lemma updates_snoc (key : AggKey κ) (es : List (Fin n × Datum)) (e : Fin n × Datum) :
    updates key (es ++ [e]) = updates key es ++ [.update e.1 key e.2] := by
  simp [updates]

variable [DecidableEq κ]

/-- What a snapshot holds for a key, however it is reduced. -/
def heldAfter (red : ℕ → κ → κ) (interval now : ℤ) (key : AggKey κ) (es : List (Fin n × Datum)) : Option Entry :=
  (dtraceAggregateSnap (fun _ => aggStddev) interval (fun _ => red)
    (run (fun _ => aggStddev) interval (fun _ => red) (updates key es)) now).hash.lookup (reduced red key)

lemma sinceClear_updates (key : AggKey κ) (es : List (Fin n × Datum)) (c : Fin n) :
    sinceClear c key (updates key es) = valuesOn c es := by
  induction es using reverseRecOn with
  | nil => rfl
  | append_singleton es e ih =>
    unfold sinceClear at ih ⊢
    rw [updates_snoc, runEvents_snoc, ih]
    by_cases hc : e.1 = c <;> simp [valuesOn, hc]

lemma rawKeys_updates (red : ℕ → κ → κ) (key : AggKey κ) {es : List (Fin n × Datum)} (hes : es ≠ []) :
    rawKeys red (reduced red key) (updates key es) = [key] := by
  have hkeys : (updates key es).filterMap Event.updated = replicate es.length key := by
    simp [updates, filterMap_map, comp_def, Event.updated]
  simp [rawKeys, hkeys, replicate_dedup, hes]

lemma run_updates (reduce : ℤ → ℕ → κ → κ) (interval : ℤ) (key : AggKey κ) (es : List (Fin n × Datum)) :
    ∃ cpus, run (fun _ => aggStddev) interval reduce (updates key es) = { (Sys.init : Sys κ n) with cpus := cpus } := by
  induction es using reverseRecOn with
  | nil => exact ⟨_, rfl⟩
  | append_singleton es e ih =>
    obtain ⟨_, hcpus⟩ := ih
    unfold run at hcpus ⊢
    rw [updates_snoc, runEvents_snoc, hcpus]
    exact ⟨_, rfl⟩

theorem merged_stddev (red : ℕ → κ → κ) (key : AggKey κ) {es : List (Fin n × Datum)} (hes : es ≠ []) :
    merged aggStddev red (reduced red key) (updates key es) = statWords es.length (es.map fun e => e.2.toNat).sum
      (es.map fun e => sq e.2).sum (∑ c, sqSum (valuesOn c es) / 2 ^ 64) := by
  have hrec : ∀ c, recorded aggStddev (sinceClear c key (updates key es)) = statWords (valuesOn c es).length
      ((valuesOn c es).map BitVec.toNat).sum (sqSum (valuesOn c es)) (sqSum (valuesOn c es) / 2 ^ 64) := by
    intro c
    rw [sinceClear_updates, recorded_stddev]
  have hfold := foldl_statWords (fun c => (valuesOn c es).length) (fun c => ((valuesOn c es).map BitVec.toNat).sum)
    (fun c => sqSum (valuesOn c es)) (fun c => sqSum (valuesOn c es) / 2 ^ 64) (finRange n) 0 0 0 0
  unfold merged
  simp only [rawKeys_updates red key hes, mergeKeys, foldl_cons, foldl_nil, hrec]
  refine hfold.trans ?_
  simp only [zero_add, ← Fin.sum_univ_def]
  rw [length_valuesOn, sum_valuesOn]
  unfold sqSum
  rw [sum_valuesOn]

lemma heldAfter_eq (red : ℕ → κ → κ) (interval now : ℤ) (key : AggKey κ) {es : List (Fin n × Datum)} (hes : es ≠ []) :
    heldAfter red interval now key es = some ⟨1, merged aggStddev red (reduced red key) (updates key es)⟩ := by
  obtain ⟨_, hrun⟩ := run_updates (fun _ => red) interval key es
  have hsnapped : ClearsSnapped (fun _ => aggStddev) interval (fun _ => red) (updates key es) := by
    intro es1 aid now' es2 heq
    have hmem : Event.clear aid now' ∈ updates key es := by simp [heq]
    obtain ⟨e, -, he⟩ := mem_map.1 hmem
    cases he
  have htakes : (run (fun _ => aggStddev) interval (fun _ => red) (updates key es)).takes interval now = true := by
    rw [hrun]
    simp [Sys.takes, Sys.tooSoon, Sys.init]
  obtain ⟨_, _, hsnap⟩ := dtraceAggregateSnap_eq (fun _ => aggStddev) interval (fun _ => red)
    (run (fun _ => aggStddev) interval (fun _ => red) (updates key es)) now
  have hgen : (dtraceAggregateSnap (fun _ => aggStddev) interval (fun _ => red)
      (run (fun _ => aggStddev) interval (fun _ => red) (updates key es)) now).gen key.1 = 1 := by
    rw [hsnap, hrun]
    rfl
  have hlaw := law_of_clears_snapped hsnapped htakes (reduced red key)
  rw [reduced, hgen] at hlaw
  unfold heldAfter
  cases hl : (dtraceAggregateSnap (fun _ => aggStddev) interval (fun _ => red)
      (run (fun _ => aggStddev) interval (fun _ => red) (updates key es)) now).hash.lookup (reduced red key) with
  | some h =>
    rw [← reduced, hl] at hlaw
    exact congrArg some (Entry.ext hlaw.1 hlaw.2)
  | none =>
    -- the CPU of a value has had an update
    rw [← reduced, hl] at hlaw
    obtain ⟨e, he⟩ := exists_mem_of_ne_nil es hes
    have hnil : valuesOn e.1 es = [] := by rw [← sinceClear_updates key]; exact hlaw e.1 key rfl
    have hmem : e.2 ∈ valuesOn e.1 es := mem_map_of_mem (mem_filter.2 ⟨he, by simp⟩)
    rw [hnil] at hmem
    cases hmem

/-! ## One CPU or several -/

def onOneCpu (c₀ : Fin n) (es : List (Fin n × Datum)) : List (Fin n × Datum) := es.map fun e => (c₀, e.2)

lemma merged_onOneCpu (red : ℕ → κ → κ) (key : AggKey κ) (c0 : Fin n) {es : List (Fin n × Datum)} (hes : es ≠ []) :
    merged aggStddev red (reduced red key) (updates key (onOneCpu c0 es)) = statWords es.length (es.map fun e => e.2.toNat).sum
      (es.map fun e => sq e.2).sum ((es.map fun e => sq e.2).sum / 2 ^ 64) := by
  have hhigh : ∑ c, sqSum (valuesOn c (onOneCpu c0 es)) / 2 ^ 64 = (es.map fun e => sq e.2).sum / 2 ^ 64 := by
    rw [sum_eq_single c0]
    · simp [valuesOn, onOneCpu, sqSum, filter_map, comp_def]
    · intro c _ hc
      simp [valuesOn, onOneCpu, sqSum, filter_map, comp_def, Ne.symm hc]
    · intro h
      exact absurd (mem_univ c0) h
  rw [merged_stddev red key (by simpa [onOneCpu] using hes), hhigh]
  simp [onOneCpu, comp_def]

lemma high_words_eq (q : Fin n → ℕ) : (∑ c, q c) / 2 ^ 64 = (∑ c, q c / 2 ^ 64) + (∑ c, q c % 2 ^ 64) / 2 ^ 64 := by
  have hsplit : ∑ c, q c = 2 ^ 64 * (∑ c, q c / 2 ^ 64) + ∑ c, q c % 2 ^ 64 := by
    rw [mul_sum, ← sum_add_distrib]
    exact sum_congr rfl fun c _ => (div_add_mod _ _).symm
  rw [hsplit, mul_add_div (by omega)]

lemma carry_lt (hn : n ≤ 2 ^ 64) (q : Fin n → ℕ) : (∑ c, q c % 2 ^ 64) / 2 ^ 64 < 2 ^ 64 := by
  have hle : ∑ c, q c % 2 ^ 64 ≤ n * (2 ^ 64 - 1) := by
    have := sum_le_card_nsmul univ (fun c => q c % 2 ^ 64) (2 ^ 64 - 1) fun c _ => by omega
    simpa using this
  omega

/-- For every list of values and every way of distributing it over CPUs: the generated code records the values, and the
snapshot holds the count, the sum and the sum of squares one CPU would have recorded, exactly when the low words of the
sums of squares of the CPUs do not overflow when they are added. -/
theorem stddev_split_iff (hn : n ≤ 2 ^ 64) (es : List (Fin n × Datum)) (c₀ : Fin n) (red : ℕ → κ → κ) (key : AggKey κ)
    (interval now : ℤ) :
    ((∀ v data, data.length = 4 → CodeRecords v data (stddevUpd v data)) ∧
      heldAfter red interval now key es = heldAfter red interval now key (onOneCpu c₀ es)) ↔
      ∑ c, sqSum (valuesOn c es) % 2 ^ 64 < 2 ^ 64 := by
  rw [and_iff_right fun v data hlen => dtCgAggStddev_records v hlen]
  by_cases hes : es = []
  · subst hes
    simp [onOneCpu, valuesOn, sqSum]
  · have hes' : onOneCpu c₀ es ≠ [] := by simpa [onOneCpu] using hes
    have hq : (es.map fun e => sq e.2).sum = ∑ c, sqSum (valuesOn c es) := (sum_valuesOn sq es).symm
    have hcarry := carry_lt hn fun c => sqSum (valuesOn c es)
    rw [heldAfter_eq red interval now key hes, heldAfter_eq red interval now key hes', merged_stddev red key hes,
      merged_onOneCpu red key c₀ hes, hq, high_words_eq]
    -- only the high words can differ
    simp only [statWords, Option.some.injEq, Entry.mk.injEq, List.cons.injEq, true_and, and_true]
    constructor
    · intro h
      have := congrArg BitVec.toNat h
      rw [toNat_ofNat, toNat_ofNat] at this
      omega
    · intro h
      rw [div_eq_of_lt h, add_zero]

/-- 3 on one CPU and -4 on another. -/
theorem stddev_split_small : heldAfter (n := 2) (fun _ => id) 0 0 (1, ()) [(0, 3), (1, -4)] =
    heldAfter (fun _ => id) 0 0 (1, ()) (onOneCpu (n := 2) 0 [(0, 3), (1, -4)]) :=
  ((stddev_split_iff (by omega) _ 0 (fun _ => id) (1, ()) 0 0).2 (by decide)).2

/-- The square of 3037000500 is just above `2^63`: of two such values on two CPUs the carry is lost. -/
theorem stddev_split_carry_lost :
    heldAfter (n := 2) (fun _ => id) 0 0 (1, ()) [(0, 3037000500), (1, 3037000500)] = some ⟨1, statWords 2 6074001000 0x11578520 0⟩ ∧
    heldAfter (fun _ => id) 0 0 (1, ()) (onOneCpu (n := 2) 0 [(0, 3037000500), (1, 3037000500)]) =
      some ⟨1, statWords 2 6074001000 0x11578520 1⟩ ∧
    heldAfter (n := 2) (fun _ => id) 0 0 (1, ()) [(0, 3037000500), (1, 3037000500)] ≠
      heldAfter (fun _ => id) 0 0 (1, ()) (onOneCpu (n := 2) 0 [(0, 3037000500), (1, 3037000500)]) := by
  have h₁ : heldAfter (n := 2) (fun _ => id) 0 0 (1, ()) [(0, 3037000500), (1, 3037000500)] =
      some ⟨1, statWords 2 6074001000 0x11578520 0⟩ := by rfl
  have h₂ : heldAfter (fun _ => id) 0 0 (1, ()) (onOneCpu (n := 2) 0 [(0, 3037000500), (1, 3037000500)]) =
      some ⟨1, statWords 2 6074001000 0x11578520 1⟩ := by rfl
  refine ⟨h₁, h₂, ?_⟩
  rw [h₁, h₂]
  decide

end

/-! ## Shifting two words -/

section

/-- `dt_shift_128`, on the low and the high word: to the left for a positive `b`, to the right for a negative one. -/
def dtShift128 (a : Datum × Datum) (b : ℤ) : Datum × Datum :=
  let n := b.natAbs
  if b = 0 then a
  else if b < 0 then
    if 64 ≤ n then (a.2 >>> (n - 64), 0)
    else (a.1 >>> n ||| (a.2 &&& (1#64 <<< (64 - n) - 1)) <<< (64 - n), a.2 >>> n)
  else if 64 ≤ n then (0, a.1 <<< (n - 64))
  else (a.1 <<< n, a.2 <<< n ||| a.1 >>> (64 - n))

def wide (a : Datum × Datum) : ℕ := a.2.toNat * 2 ^ 64 + a.1.toNat

variable {b k : ℕ}

lemma toNat_or_shiftLeft {x y : ℕ} (hx : x < 2 ^ k) : x ||| y * 2 ^ k = y * 2 ^ k + x := by
  rw [Nat.or_comm, ← Nat.shiftLeft_eq, Nat.shiftLeft_add_eq_or_of_lt hx]

lemma mod_mod_eq_iff (x : ℕ) : x % 2 ^ k % 2 ^ b = x % 2 ^ b ↔ x % 2 ^ b < 2 ^ k := by
  constructor
  · intro h
    rw [← h]
    exact Nat.lt_of_le_of_lt (Nat.mod_le _ _) (Nat.mod_lt _ (Nat.two_pow_pos k))
  · intro h
    rcases le_total b k with hbk | hkb
    · exact Nat.mod_mod_of_dvd _ (pow_dvd_pow 2 hbk)
    · rw [← mod_mod_of_dvd x (pow_dvd_pow 2 hkb), mod_eq_of_lt h, mod_mod]

/-- The mask keeps the low `64 - b` bits of the high word, where `b` bits are shifted into the low one. -/
lemma wide_shiftRight (hb : 0 < b) (hk : 0 < k) (hsum : b + k = 64) (a : Datum × Datum) :
    wide (dtShift128 a (-b)) = wide a / 2 ^ b ↔ a.2.toNat % 2 ^ b < 2 ^ k := by
  have hpow : 2 ^ 64 = 2 ^ b * 2 ^ k := by rw [← pow_add, hsum]
  have hlow : a.1.toNat / 2 ^ b < 2 ^ k := by
    rw [Nat.div_lt_iff_lt_mul (Nat.two_pow_pos b), Nat.mul_comm, ← hpow]
    exact a.1.isLt
  have hmask : (1#64 <<< k - 1).toNat = 2 ^ k - 1 := by
    have htwo : (1#64 <<< k).toNat = 2 ^ k := by rw [← twoPow_eq, toNat_twoPow_of_lt (by omega)]
    have hle : 1#64 ≤ 1#64 <<< k := le_def.2 (by rw [htwo]; exact Nat.one_le_two_pow)
    rw [show (1 : Datum) = 1#64 from rfl, toNat_sub_of_le hle, htwo]
    rfl
  have hshift : dtShift128 a (-b) = (a.1 >>> b ||| (a.2 &&& (1#64 <<< k - 1)) <<< k, a.2 >>> b) := by
    rw [dtShift128]
    simp only [Int.natAbs_neg, Int.natAbs_natCast]
    rw [if_neg (by omega), if_pos (by omega), if_neg (by omega), show 64 - b = k by omega]
  have hwide : wide a / 2 ^ b = a.2.toNat * 2 ^ k + a.1.toNat / 2 ^ b := by
    rw [wide, hpow, Nat.mul_left_comm, Nat.mul_add_div (Nat.two_pow_pos b)]
  have hhigh : a.2.toNat * 2 ^ k = a.2.toNat / 2 ^ b * 2 ^ 64 + a.2.toNat % 2 ^ b * 2 ^ k := by
    rw [hpow, ← Nat.mul_assoc, ← Nat.add_mul, Nat.div_add_mod']
  rw [hwide, hhigh, hshift, wide, ← mod_mod_eq_iff, toNat_or, toNat_shiftLeft, toNat_and, hmask,
    Nat.and_two_pow_sub_one_eq_mod, Nat.shiftLeft_eq, hpow, Nat.mul_mod_mul_right, toNat_ushiftRight, toNat_ushiftRight,
    Nat.shiftRight_eq_div_pow, Nat.shiftRight_eq_div_pow, toNat_or_shiftLeft hlow, ← Nat.add_assoc,
    Nat.add_right_cancel_iff, Nat.add_left_cancel_iff, Nat.mul_left_inj (Nat.two_pow_pos k).ne']

lemma wide_eq (a : Datum × Datum) : wide a = (a.2 ++ a.1).toNat := by
  rw [wide, toNat_append, ← Nat.shiftLeft_eq, Nat.shiftLeft_add_eq_or_of_lt a.1.isLt]

lemma wide_shiftLeft (a : Datum × Datum) (b : ℕ) : wide (dtShift128 a b) = wide a * 2 ^ b % 2 ^ 128 := by
  have hshift : (dtShift128 a b).2 ++ (dtShift128 a b).1 = (a.2 ++ a.1) <<< b := by
    rcases Nat.eq_zero_or_pos b with rfl | hpos
    · simp [dtShift128]
    have hleft : dtShift128 a b =
        if 64 ≤ b then (0, a.1 <<< (b - 64)) else (a.1 <<< b, a.2 <<< b ||| a.1 >>> (64 - b)) := by
      rw [dtShift128, if_neg (by omega), if_neg (by omega), Int.natAbs_natCast]
    rw [hleft]
    split_ifs
    all_goals
      refine eq_of_getLsbD_eq fun i hi => ?_
      have hhigh : 64 ≤ b → i - 64 - (b - 64) = i - b := by omega
      have hlow : 64 ≤ i → ¬64 ≤ b → 64 - b + (i - 64) = i - b := by omega
      simp only [getLsbD_append, getLsbD_shiftLeft, getLsbD_or, getLsbD_ushiftRight, show (0 : Datum) = 0#64 from rfl,
        getLsbD_zero]
      grind
  rw [wide_eq, wide_eq, hshift, toNat_shiftLeft, Nat.shiftLeft_eq]

lemma wide_shiftRight_of_le (hb : 64 ≤ b) (a : Datum × Datum) : wide (dtShift128 a (-b)) = wide a / 2 ^ b := by
  have hshift : dtShift128 a (-b) = (a.2 >>> (b - 64), 0) := by
    rw [dtShift128]
    simp only [Int.natAbs_neg, Int.natAbs_natCast]
    rw [if_neg (by omega), if_pos (by omega), if_pos hb]
  obtain ⟨n, rfl⟩ := Nat.exists_eq_add_of_le hb
  rw [hshift, wide, wide, pow_add, ← Nat.div_div_eq_div_mul, Nat.mul_comm a.2.toNat, Nat.mul_add_div (by decide),
    Nat.div_eq_of_lt a.1.isLt]
  simp [Nat.shiftRight_eq_div_pow]

/-- **Shifts.**  A shift by `b` bits is right in both directions if and only if the mask drops none of the low `b` bits
of the high word. -/
theorem dtShift128_iff (a : Datum × Datum) (b : ℕ) :
    wide (dtShift128 a (-b)) = wide a / 2 ^ b ∧ wide (dtShift128 a b) = wide a * 2 ^ b % 2 ^ 128 ↔
      (b < 64 → a.2.toNat % 2 ^ b < 2 ^ (64 - b)) := by
  rw [and_iff_left (wide_shiftLeft a b)]
  rcases Nat.lt_or_ge b 64 with hlt | hge
  · rcases Nat.eq_zero_or_pos b with rfl | hpos
    · simp [dtShift128, Nat.mod_one]
    · rw [wide_shiftRight hpos (by omega) (by omega : b + (64 - b) = 64)]
      exact (imp_iff_right hlt).symm
  · exact iff_of_true (wide_shiftRight_of_le hge a) fun hlt => by omega

/-- `2 ^ 88`, shifted to the right by 40 bits. -/
theorem dtShift128_masked : wide (dtShift128 (0, 1 <<< 24) (-40)) = 0 ∧ wide (0, 1 <<< 24) / 2 ^ 40 = 2 ^ 48 := by
  decide

end

end DTrace.Agg
