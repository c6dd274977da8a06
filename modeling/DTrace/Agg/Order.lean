import DTrace.Agg.Quantline
import DTrace.Lib.Qsort

/-!
# The order of aggregation entries

Entries are sorted by comparison functions made of the orders of variables, keys and values.  Keys are compared by
components, beginning at `aggsortkeypos`; how a component is read, the record of the left entry says.

* `weakOrder_keyLoop` — components of records that read alike are in order;
* `exists_clash` — entries that compare as greater both ways, where they do not;
* `sort_orders_iff` — the descriptions on which all comparison functions are strict weak orders.
-/

namespace DTrace.Agg.Order

open Lib List

/-- A record of a key; `user` for `DTRACEACT_UMOD`, `DTRACEACT_UADDR` and `DTRACEACT_USYM`, which take two words. -/
structure KeyRec where
  offset : ℕ
  size : ℕ
  user : Bool
  user_size : user = true → size = 16

/-- Aggregations whose value is one number. -/
inductive ScalarAgg
  | avg
  | count
  | max
  | min
  | sum

structure SortDesc where
  nkrecs : ℕ
  krec : ℕ → KeyRec
  action : ScalarAgg

/-- An entry of the hash: the id of its variable, the components of its key and its data. -/
structure SortEntry where
  desc : SortDesc
  id : ℕ
  key : ℕ → Bytes
  length_key : ∀ i, (key i).length = (desc.krec i).size
  data : List Datum

/-! ## Comparison functions -/

def KeyRec.IsWord (r : KeyRec) : Prop := r.size = 8 ∨ r.size = 4 ∨ r.size = 2 ∨ r.size = 1

instance (r : KeyRec) : Decidable r.IsWord := inferInstanceAs (Decidable (_ ∨ _))

/-- The numbers of a component that are compared one after the other. -/
def KeyRec.parts (r : KeyRec) : List (Bytes → ℕ) :=
  if r.IsWord then [Bytes.val]
  else if r.user then [fun bs => Bytes.val (bs.take 8), fun bs => Bytes.val (bs.drop 8)]
  else (List.range r.size).map fun j bs => (bs.getD j 0).toNat

def hashcmp : SortEntry → SortEntry → ℤ := cmpOn fun e => e.desc.nkrecs

def varcmp : SortEntry → SortEntry → ℤ := cmpOn fun e => e.id

/-- The body of the loop of `dt_aggregate_keycmp`. -/
def compcmp (i : ℕ) : SortEntry → SortEntry → ℤ :=
  andThen (cmpOn fun e => (e.desc.krec i).size) fun l r => inTurn cmpOn (l.desc.krec i).parts (l.key i) (r.key i)

/-- The values of `ndx`; `dt_keypos + 1` does not overflow below `INT_MAX`. -/
def keyNdx (keypos nkrecs : ℕ) : List ℕ :=
  let keypos := if nkrecs ≤ keypos + 1 then 0 else keypos
  (List.range' 1 (nkrecs - 1)).map fun i => if nkrecs ≤ i + keypos then i + keypos - nkrecs + 1 else i + keypos

def keycmp (keypos : ℕ) : SortEntry → SortEntry → ℤ :=
  andThen hashcmp fun l r => inTurn compcmp (keyNdx keypos l.desc.nkrecs) l r

/-- What `dt_aggregate_averagecmp` and `dt_aggregate_countcmp` compare, of entries with the same action. -/
def SortEntry.value (e : SortEntry) : ℤ :=
  match e.desc.action with
  | .avg => if binAt e.data 0 = 0 then 0 else (binAt e.data 1).toInt.tdiv (binAt e.data 0).toInt
  | _ => (binAt e.data 0).toInt

/-- The loop of `dt_aggregate_valcmp`, on entries with the same number of records. -/
def layoutcmp (l r : SortEntry) : ℤ :=
  inTurn (fun i => andThen (cmpOn fun e => (e.desc.krec i).offset) (cmpOn fun e => (e.desc.krec i).size))
    (List.range l.desc.nkrecs) l r

def valcmp : SortEntry → SortEntry → ℤ :=
  andThen hashcmp (andThen layoutcmp (andThen (cmpOn fun e => e.desc.action.ctorIdx) (cmpOn SortEntry.value)))

inductive SortFn
  | key
  | val
  | var
  | valkey
  | keyvar
  | varkey
  | valvar
  | varval

/-- `dt_aggregate_keycmp` and the others. -/
def sortFn (keypos : ℕ) : SortFn → SortEntry → SortEntry → ℤ
  | .key => keycmp keypos
  | .val => valcmp
  | .var => varcmp
  | .valkey => andThen valcmp (keycmp keypos)
  | .keyvar => andThen (keycmp keypos) varcmp
  | .varkey => andThen varcmp (keycmp keypos)
  | .valvar => andThen (andThen valcmp (keycmp keypos)) varcmp
  | .varval => andThen varcmp (andThen valcmp (keycmp keypos))

/-- A bundle: the values of the variables, then the representative key. -/
structure Bundle where
  cols : ℕ → SortEntry
  key : SortEntry

def colcmp (i : ℕ) (l r : Bundle) : ℤ := valcmp (l.cols i) (r.cols i)

def bundlecmp (keypos naggvars : ℕ) (keysort : Bool) : Bundle → Bundle → ℤ :=
  let keys (l r : Bundle) := keycmp keypos l.key r.key
  let vals := inTurn colcmp (List.range naggvars)
  if keysort then andThen keys vals else andThen vals keys

/-- `DT_LESSTHAN` and `DT_GREATERTHAN` change places with `dt_revsort`. -/
def signed {α : Type} (rev : Bool) (c : α → α → ℤ) (a b : α) : ℤ := if rev then -c a b else c a b

/-! ## Weak orders -/

variable {is : List ℕ} {keypos : ℕ}

section

variable {S : SortEntry → Prop} {D : SortDesc → Prop} {d d' : SortDesc}

lemma weakOrder_signed {α : Type} {c : α → α → ℤ} {S : α → Prop} (h : WeakOrder c S) (rev : Bool) :
    WeakOrder (signed rev c) S := by
  unfold signed
  cases rev with
  | false => simpa using h
  | true =>
    simp only [if_true]
    refine ⟨fun a b ha hb => ?_, fun x y z hx hy hz hxy hyz => ?_⟩
    · have := h.sign b a hb ha
      omega
    · have := h.trans z y x hz hy hx
      have := h.sign x y hx hy
      have := h.sign y z hy hz
      have := h.sign x z hx hz
      omega

def KeyRec.Alike (r r' : KeyRec) : Prop := r.IsWord ∨ r.user = r'.user

/-- As long as the sizes agree, the records are read in the same way. -/
def Compat (d d' : SortDesc) : List ℕ → Prop
  | [] => True
  | i :: is => (d.krec i).size = (d'.krec i).size → (d.krec i).Alike (d'.krec i) ∧ Compat d d' is

lemma KeyRec.parts_congr {r r' : KeyRec} (hs : r.size = r'.size) (h : r.Alike r') : r.parts = r'.parts := by
  unfold KeyRec.parts
  have hw : r.IsWord ↔ r'.IsWord := by simp [KeyRec.IsWord, hs]
  rcases h with h | h
  · rw [if_pos h, if_pos (hw.1 h)]
  · simp only [hw, h, hs]

lemma weakOrder_compcmp {i : ℕ} (h : ∀ a b, S a → S b →
    (a.desc.krec i).size = (b.desc.krec i).size → (a.desc.krec i).Alike (b.desc.krec i)) :
    WeakOrder (compcmp i) S := by
  refine (weakOrder_cmpOn _ S).andThen_of_class fun a ha => ?_
  have hparts : WeakOrder (inTurn cmpOn (a.desc.krec i).parts) fun _ => True :=
    .inTurn fun p => weakOrder_cmpOn p _
  refine ((hparts.comap fun e : SortEntry => e.key i).mono fun _ _ => trivial).congr fun l r hl _ => ?_
  have hs := cmpOn_eq_zero.1 hl.2
  rw [KeyRec.parts_congr hs (h a l ha hl.1 hs)]

/-- The loop, by induction over the positions: what is left is compared within the entries that are equal so far. -/
theorem weakOrder_keyLoop : ∀ {l : List ℕ} {S : SortEntry → Prop},
    (∀ a b, S a → S b → Compat a.desc b.desc l) → WeakOrder (inTurn compcmp l) S
  | [], _, _ => ⟨by simp [inTurn], by simp [inTurn]⟩
  | i :: is, S, h => by
    refine (weakOrder_compcmp fun a b ha hb hs => (h a b ha hb hs).1).andThen_of_class fun a ha => ?_
    refine weakOrder_keyLoop fun b b' hb hb' => (h b b' hb.1 hb'.1 ?_).2
    have hsize : ∀ e, compcmp i a e = 0 → (a.desc.krec i).size = (e.desc.krec i).size := by
      intro e he
      exact cmpOn_eq_zero.1 (andThen_eq_zero.1 he).1
    exact (hsize b hb.2).symm.trans (hsize b' hb'.2)

lemma weakOrder_keycmp (h : ∀ d d', D d → D d' → d.nkrecs = d'.nkrecs → Compat d d' (keyNdx keypos d.nkrecs)) :
    WeakOrder (keycmp keypos) fun e => D e.desc := by
  refine (weakOrder_cmpOn _ _).andThen_of_class fun a ha => ?_
  have hn : ∀ e : SortEntry, D e.desc ∧ hashcmp a e = 0 → a.desc.nkrecs = e.desc.nkrecs :=
    fun e he => cmpOn_eq_zero.1 he.2
  refine (weakOrder_keyLoop (l := keyNdx keypos a.desc.nkrecs) fun b b' hb hb' => ?_).congr fun l r hl hr => ?_
  · rw [hn b hb]
    exact h _ _ hb.1 hb'.1 ((hn b hb).symm.trans (hn b' hb'))
  · rw [hn l hl]

lemma weakOrder_valcmp (S : SortEntry → Prop) : WeakOrder valcmp S := by
  refine (weakOrder_cmpOn _ S).andThen_of_class fun a ha => ?_
  refine .andThen ?_ ((weakOrder_cmpOn _ _).andThen (weakOrder_cmpOn _ _))
  have hrec (i : ℕ) := (weakOrder_cmpOn (fun e => (e.desc.krec i).offset) fun e => S e ∧ hashcmp a e = 0).andThen
    (weakOrder_cmpOn (fun e => (e.desc.krec i).size) _)
  refine (WeakOrder.inTurn (l := range a.desc.nkrecs) hrec).congr fun l r hl _ => ?_
  rw [layoutcmp, ← cmpOn_eq_zero.1 hl.2]

lemma weakOrder_sortFn (h : WeakOrder (keycmp keypos) S) (f : SortFn) : WeakOrder (sortFn keypos f) S := by
  have hval := weakOrder_valcmp S
  have hvar : WeakOrder varcmp S := weakOrder_cmpOn _ S
  cases f with
  | key => exact h
  | val => exact hval
  | var => exact hvar
  | valkey => exact hval.andThen h
  | keyvar => exact h.andThen hvar
  | varkey => exact hvar.andThen h
  | valvar => exact (hval.andThen h).andThen hvar
  | varval => exact hvar.andThen (hval.andThen h)

lemma weakOrder_bundlecmp (h : WeakOrder (keycmp keypos) fun e => D e.desc) (naggvars : ℕ) (keysort : Bool) :
    WeakOrder (bundlecmp keypos naggvars keysort) fun b => D b.key.desc := by
  have hkeys := h.comap Bundle.key
  have hval := weakOrder_valcmp fun _ => True
  have hvals : WeakOrder (inTurn colcmp (range naggvars)) fun b => D b.key.desc :=
    .inTurn fun i => (hval.comap fun b : Bundle => b.cols i).mono fun _ _ => trivial
  cases keysort with
  | false => exact hvals.andThen hkeys
  | true => exact hkeys.andThen hvals

end

/-! ## Equal keys -/

section

variable {a b : SortEntry}

lemma KeyRec.parts_inj {r : KeyRec} {as bs : Bytes} (ha : as.length = r.size) (hb : bs.length = r.size) :
    inTurn cmpOn r.parts as bs = 0 ↔ as = bs := by
  rw [inTurn_eq_zero]
  refine ⟨fun h => ?_, fun h p _ => cmpOn_eq_zero.2 (by rw [h])⟩
  replace h := fun p hp => cmpOn_eq_zero.1 (h p hp)
  unfold KeyRec.parts at h
  split at h
  · exact (Bytes.val_inj (ha.trans hb.symm)).1 (h _ (by simp))
  · split at h
    · simp only [forall_mem_cons] at h
      rw [← take_append_drop 8 as, ← take_append_drop 8 bs,
        (Bytes.val_inj (by simp [ha, hb])).1 h.1, (Bytes.val_inj (by simp [ha, hb])).1 h.2.1]
    · refine ext_getElem (ha.trans hb.symm) fun j hj hj' => BitVec.eq_of_toNat_eq ?_
      have := h _ (mem_map.2 ⟨j, mem_range.2 (ha ▸ hj), rfl⟩)
      simpa [hj, hj'] using this

lemma mem_keyNdx {n i : ℕ} : i ∈ keyNdx keypos n ↔ 1 ≤ i ∧ i < n := by
  unfold keyNdx
  rw [mem_map]
  constructor
  · rintro ⟨k, hk, rfl⟩
    rw [mem_range'_1] at hk
    split <;> split <;> omega
  · intro h
    -- the position at which the index comes up
    let k := if n ≤ keypos + 1 then 0 else keypos
    refine ⟨if k < i then i - k else i + n - 1 - k, mem_range'_1.2 ?_, ?_⟩
    all_goals
      simp only [k]
      split_ifs <;> omega

lemma nodup_keyNdx (n : ℕ) : (keyNdx keypos n).Nodup := by
  refine List.Nodup.map_on (fun x hx y hy h => ?_) nodup_range'
  rw [mem_range'_1] at hx hy
  split at h <;> split at h <;> split at h <;> omega

/-- Entries of one description compare equal exactly when their keys are equal. -/
lemma keycmp_eq_zero (hd : a.desc = b.desc) :
    keycmp keypos a b = 0 ↔ ∀ i, 1 ≤ i → i < a.desc.nkrecs → a.key i = b.key i := by
  have hcomp : ∀ i, compcmp i a b = 0 ↔ a.key i = b.key i := by
    intro i
    have hb := b.length_key i
    rw [← hd] at hb
    rw [compcmp, andThen_eq_zero, cmpOn_eq_zero, KeyRec.parts_inj (a.length_key i) hb, hd]
    simp
  rw [keycmp, andThen_eq_zero, hashcmp, cmpOn_eq_zero, inTurn_eq_zero, hd]
  simp [mem_keyNdx, hcomp]

end

/-! ## Records that are not read alike -/

section

variable {d d' : SortDesc} {i m : ℕ}

def spike (d : SortDesc) (m : ℕ) : SortEntry where
  desc := d
  id := 0
  key i :=
    let start := if i = m then if (d.krec i).user then [0, 1] else [1, 0] else []
    (start ++ List.replicate (d.krec i).size 0).take (d.krec i).size
  length_key i := by simp
  data := []

lemma compcmp_spike_ne (hs : (d.krec i).size = (d'.krec i).size) (h : i ≠ m) :
    compcmp i (spike d m) (spike d' m) = 0 := by
  rw [compcmp, andThen_eq_zero, cmpOn_eq_zero, inTurn_eq_zero]
  simp [spike, hs, h, cmpOn]

lemma compcmp_spike (hs : (d.krec i).size = (d'.krec i).size) (h : ¬ (d.krec i).Alike (d'.krec i)) :
    compcmp i (spike d i) (spike d' i) = 1 := by
  obtain ⟨hw, hu⟩ := not_or.1 h
  have h16 : (d.krec i).size = 16 := by
    by_cases hd : (d.krec i).user
    · exact (d.krec i).user_size hd
    · exact hs.trans ((d'.krec i).user_size (by simpa [hd] using hu))
  rw [compcmp, andThen_of_eq_zero (by exact cmpOn_eq_zero.2 hs)]
  simp only [KeyRec.parts, if_neg hw, spike, ← hs, h16, if_true]
  cases hd : (d.krec i).user <;> cases hd' : (d'.krec i).user
  all_goals first
    | exact absurd (hd.trans hd'.symm) hu
    | decide

theorem exists_clash (hnd : is.Nodup) (h : ¬ Compat d d' is) : ∃ m ∈ is,
    inTurn compcmp is (spike d m) (spike d' m) = 1 ∧ inTurn compcmp is (spike d' m) (spike d m) = 1 := by
  induction is with
  | nil => exact absurd trivial h
  | cons i is ih =>
    obtain ⟨hi, hnd⟩ := nodup_cons.1 hnd
    obtain ⟨hs, h⟩ := Classical.not_imp.1 h
    by_cases ha : (d.krec i).Alike (d'.krec i)
    · obtain ⟨m, hm, h1, h2⟩ := ih hnd fun hc => h ⟨ha, hc⟩
      have hne : i ≠ m := fun heq => hi (heq ▸ hm)
      refine ⟨m, mem_cons_of_mem _ hm, ?_, ?_⟩
      · rwa [inTurn, andThen_of_eq_zero (compcmp_spike_ne hs hne)]
      · rwa [inTurn, andThen_of_eq_zero (compcmp_spike_ne hs.symm hne)]
    · have ha' : ¬ (d'.krec i).Alike (d.krec i) := by
        simpa [KeyRec.Alike, KeyRec.IsWord, hs, eq_comm] using ha
      refine ⟨i, mem_cons_self, ?_, ?_⟩
      · rw [inTurn, andThen, compcmp_spike hs ha, if_pos (by simp)]
      · rw [inTurn, andThen, compcmp_spike hs.symm ha', if_pos (by simp)]

end

/-- All comparison functions are strict weak orders, and entries of one description compare equal by key exactly when
the components of their keys are equal. -/
structure Orders (keypos : ℕ) (D : SortDesc → Prop) : Prop where
  sort : ∀ f rev, WeakOrder (signed rev (sortFn keypos f)) fun e => D e.desc
  revsort : ∀ f rev, WeakOrder (signed rev fun l r => sortFn keypos f r l) fun e => D e.desc
  bundle : ∀ naggvars keysort rev, WeakOrder (signed rev (bundlecmp keypos naggvars keysort)) fun b => D b.key.desc
  equal : ∀ a b : SortEntry, D a.desc → a.desc = b.desc →
    (keycmp keypos a b = 0 ↔ ∀ i, 1 ≤ i → i < a.desc.nkrecs → a.key i = b.key i)

/-- The descriptions that an output can have sort into weak orders, in which exactly equal keys compare equal, if and only if
the keys of every two of them with one number of components are compared alike. -/
theorem sort_orders_iff (keypos : ℕ) (D : SortDesc → Prop) : Orders keypos D ↔
    ∀ d d', D d → D d' → d.nkrecs = d'.nkrecs → Compat d d' (keyNdx keypos d.nkrecs) := by
  constructor
  · intro h d d' hd hd' hn
    by_contra hc
    obtain ⟨m, -, h1, h2⟩ := exists_clash (nodup_keyNdx _) hc
    have hlt := (h.sort .key false).sign (spike d m) (spike d' m) hd hd'
    have hkey : ∀ d d', d.nkrecs = d'.nkrecs →
        inTurn compcmp (keyNdx keypos d.nkrecs) (spike d m) (spike d' m) = 1 →
          keycmp keypos (spike d m) (spike d' m) = 1 := by
      intro d d' hn h1
      rwa [keycmp, andThen_of_eq_zero (by exact cmpOn_eq_zero.2 hn)]
    simp [signed, sortFn, hkey d d' hn h1, hkey d' d hn.symm (hn ▸ h2)] at hlt
  · intro h
    have hkey := weakOrder_keycmp h
    exact ⟨fun f rev => weakOrder_signed (weakOrder_sortFn hkey f) rev,
      fun f rev => weakOrder_signed (weakOrder_sortFn hkey f).swap rev,
      fun n keysort rev => weakOrder_signed (weakOrder_bundlecmp hkey n keysort) rev,
      fun a b _ hd => keycmp_eq_zero hd⟩

def oneKey (user : Bool) : SortDesc := ⟨2, fun _ => ⟨0, 16, user, fun _ => rfl⟩, .count⟩

/-- A `usym()` and a struct of 16 bytes, each greater than the other. -/
theorem keycmp_both_greater : keycmp 0 (spike (oneKey true) 1) (spike (oneKey false) 1) = 1 ∧
    keycmp 0 (spike (oneKey false) 1) (spike (oneKey true) 1) = 1 := by
  decide

end DTrace.Agg.Order
