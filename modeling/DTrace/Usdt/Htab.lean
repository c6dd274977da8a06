import Mathlib.Algebra.Order.Ring.Nat
import Mathlib.Data.List.GetD
import Mathlib.Data.List.Nodup
import Mathlib.Data.List.Pairwise

/-!
# Hash tables

The generic hash table: slots of buckets, each bucket with entries that are equal for the table's comparison.  Buckets
are pushed in front of their slot, and the number of slots is doubled when there are too many buckets.

* `dtHtabInsert`, `dtHtabLookup`, `dtHtabDelete`, `dtHtabNext` — the operations;
* `Tidy` — every bucket has one entry and is in the slot of its hash value, and no two in a slot are equal;
* `list_insert`, `Tidy.insert`, `Tidy.delete`, `Tidy.update` — what the operations do to the entries;
* `Tidy.lookup_eq_none_iff` — what a lookup does not find.
-/

namespace DTrace.Usdt

open List Option Nat

/-- `dt_htab_ops_t`: the hash value of an entry, and whether two entries compare as equal. -/
structure Ops (α : Type) where
  hval : α → BitVec 32
  cmp : α → α → Bool
  refl : ∀ a, cmp a a = true
  symm : ∀ a b, cmp a b = cmp b a

/-- `dt_hbucket_t`. -/
structure Bucket (α : Type) where
  hval : BitVec 32
  entries : List α

/-- `dt_htab_t`: the slots. -/
structure Htab (α : Type) where
  tab : List (List (Bucket α))

/-- The slot of a hash value: `hval & mask`. -/
def slotOf (size : ℕ) (hval : BitVec 32) : ℕ := (hval &&& BitVec.ofNat 32 (size - 1)).toNat

/-- Change the first element that satisfies `p`. -/
def updateFirst {β : Type} (p : β → Bool) (f : β → List β) : List β → List β
  | [] => []
  | b :: bs => if p b then f b ++ bs else b :: updateFirst p f bs

section

variable {α : Type}

def dtHtabCreate : Htab α := ⟨[[]]⟩

namespace Htab

def size (t : Htab α) : ℕ := t.tab.length

def buckets (t : Htab α) : List (Bucket α) := t.tab.flatten

def nbuckets (t : Htab α) : ℕ := t.buckets.length

/-- All entries, in the order of the walk: slot by slot, bucket by bucket. -/
def list (t : Htab α) : List α := t.buckets.flatMap Bucket.entries

def slot (t : Htab α) (hval : BitVec 32) : List (Bucket α) := t.tab.getD (slotOf t.size hval) []

def onSlot (t : Htab α) (hval : BitVec 32) (f : List (Bucket α) → List (Bucket α)) : Htab α :=
  ⟨t.tab.modify (slotOf t.size hval) f⟩

end Htab

def resize (t : Htab α) : Htab α :=
  t.buckets.foldl (fun t b => t.onSlot b.hval (b :: ·)) ⟨List.replicate (2 * t.size) []⟩

variable (ops : Ops α)

/-- The head of the bucket is equal to the entry. -/
def Bucket.matches (b : Bucket α) (e : α) : Bool := b.entries.head?.any (ops.cmp · e)

/-- `dt_htab_insert` from the label `retry` on; there are at most `n` turns. -/
def insertLoop (e : α) : ℕ → Htab α → Htab α
  | 0, t => t
  | n + 1, t =>
    if (t.slot (ops.hval e)).any (·.matches ops e) then
      t.onSlot (ops.hval e) (updateFirst (·.matches ops e) fun b => [⟨b.hval, e :: b.entries⟩])
    else if t.size < t.nbuckets / 2 then insertLoop e n (resize t)
    else t.onSlot (ops.hval e) (⟨ops.hval e, [e]⟩ :: ·)

def dtHtabInsert (t : Htab α) (e : α) : Htab α := insertLoop ops e (t.nbuckets + 1) t

def dtHtabLookup (t : Htab α) (e : α) : Option α :=
  (t.slot (ops.hval e)).find? (·.matches ops e) >>= (·.entries.head?)

/-- An assignment through the pointer that `dt_htab_lookup` returns. -/
def Htab.update (t : Htab α) (e : α) (f : α → α) : Htab α :=
  t.onSlot (ops.hval e) (updateFirst (·.matches ops e) fun b => [⟨b.hval, b.entries.modifyHead f⟩])

/-- `dt_htab_delete`: a bucket goes with its last entry. -/
def dtHtabDelete [DecidableEq α] (t : Htab α) (e : α) : Htab α :=
  t.onSlot (ops.hval e) (updateFirst (·.matches ops e) fun b =>
    match b.entries.erase e with
    | [] => []
    | es => [⟨b.hval, es⟩])

/-- `dt_htab_next_t`: the state of a walk is the entry that comes next. -/
inductive Walk (α : Type)
  | start
  | next (e : α)
  | exhausted

/-- The walk after the entries that precede `es`. -/
def Walk.of : List α → Walk α
  | [] => .exhausted
  | e :: _ => .next e

/-- `dt_htab_next`: the walk has moved on before the entry is returned. -/
def dtHtabNext [DecidableEq α] (t : Htab α) (it : Walk α) : Option α × Walk α :=
  match (match it with
    | .start => Walk.of t.list
    | it => it) with
  | .next e => (some e, Walk.of (t.list.dropWhile (· ≠ e)).tail)
  | _ => (none, .start)

/-! ## Slots -/

lemma slotOf_lt {n : ℕ} (h : 0 < n) (hval : BitVec 32) : slotOf n hval < n := by
  have hle : slotOf n hval ≤ (BitVec.ofNat 32 (n - 1)).toNat := by
    rw [slotOf, BitVec.toNat_and]
    exact and_le_right
  have hmod : (BitVec.ofNat 32 (n - 1)).toNat ≤ n - 1 := by
    rw [BitVec.toNat_ofNat]
    exact mod_le _ _
  omega

lemma slotOf_two_pow (k : ℕ) (hval : BitVec 32) : slotOf (2 ^ k) hval = hval.toNat % 2 ^ k := by
  have hlt := hval.isLt
  rw [slotOf, BitVec.toNat_and, BitVec.toNat_ofNat]
  rcases le_or_gt k 32 with hk | hk
  · have hle : 2 ^ k ≤ 2 ^ 32 := Nat.pow_le_pow_right (by omega) hk
    rw [Nat.mod_eq_of_lt (by omega), Nat.and_two_pow_sub_one_eq_mod]
  · have hle : 2 ^ 32 < 2 ^ k := Nat.pow_lt_pow_right (by omega) hk
    have hdvd : 2 ^ 32 ∣ 2 ^ k := Nat.pow_dvd_pow 2 hk.le
    have hmask : (2 ^ k - 1) % 2 ^ 32 = 2 ^ 32 - 1 := by omega
    rw [hmask, Nat.and_two_pow_sub_one_eq_mod, Nat.mod_eq_of_lt hlt, Nat.mod_eq_of_lt (by omega)]

variable {ops} {t : Htab α} {e x : α} {hval : BitVec 32}

@[simp] lemma size_onSlot (t : Htab α) (hval : BitVec 32) (f : List (Bucket α) → List (Bucket α)) :
    (t.onSlot hval f).size = t.size := by
  simp [Htab.onSlot, Htab.size]

lemma exists_around (hpos : 0 < t.size) (hval : BitVec 32) :
    ∃ before after, t.tab = before ++ t.slot hval :: after ∧ before.length = slotOf t.size hval ∧
      ∀ f, (t.onSlot hval f).tab = before ++ f (t.slot hval) :: after := by
  have hlt : slotOf t.size hval < t.tab.length := slotOf_lt hpos hval
  have hslot : t.slot hval = t.tab[slotOf t.size hval] := getD_eq_getElem _ _ hlt
  refine ⟨t.tab.take (slotOf t.size hval), t.tab.drop (slotOf t.size hval + 1), ?_, ?_, fun f => ?_⟩
  · rw [hslot, getElem_cons_drop, take_append_drop]
  · rw [length_take, min_eq_left hlt.le]
  · rw [hslot, Htab.onSlot, modify_eq_take_cons_drop hlt]

lemma buckets_push (hpos : 0 < t.size) (hval : BitVec 32) (b : Bucket α) :
    (t.onSlot hval (b :: ·)).buckets.Perm (b :: t.buckets) := by
  obtain ⟨_, _, htab, -, hon⟩ := exists_around hpos hval
  rw [Htab.buckets, Htab.buckets, hon, htab]
  simp only [flatten_append, flatten_cons, cons_append]
  exact perm_middle

lemma size_resize (t : Htab α) : (resize t).size = 2 * t.size := by
  refine foldlRecOn (motive := fun u : Htab α => u.size = 2 * t.size) _ _ (by simp [Htab.size]) fun u hu b _ => ?_
  rw [size_onSlot, hu]

lemma buckets_resize (hpos : 0 < t.size) : (resize t).buckets.Perm t.buckets := by
  have hfold : ∀ (bs : List (Bucket α)) (t : Htab α), 0 < t.size →
      (bs.foldl (fun t b => t.onSlot b.hval (b :: ·)) t).buckets.Perm (bs ++ t.buckets) := by
    intro bs
    induction bs with
    | nil => exact fun _ _ => List.Perm.refl _
    | cons b bs ih =>
      intro t hpos
      refine (ih _ (by rwa [size_onSlot])).trans ?_
      exact ((buckets_push hpos b.hval b).append_left bs).trans perm_middle
  have hempty : (⟨replicate (2 * t.size) []⟩ : Htab α).buckets = [] := by
    simp [Htab.buckets]
  have h := hfold t.buckets ⟨replicate (2 * t.size) []⟩ (by simp [Htab.size] at hpos ⊢; exact hpos)
  rwa [hempty, append_nil] at h

lemma updateFirst_split {β : Type} {p : β → Bool} {bs : List β} {b : β} (h : bs.find? p = some b) :
    p b ∧ ∃ before after, bs = before ++ b :: after ∧ (∀ c ∈ before, ¬p c) ∧
      ∀ f, updateFirst p f bs = before ++ (f b ++ after) := by
  induction bs with
  | nil => cases h
  | cons c bs ih =>
    rw [find?_cons] at h
    cases hc : p c with
    | true =>
      rw [hc] at h
      cases h
      exact ⟨hc, [], bs, rfl, by simp, fun f => by simp [updateFirst, hc]⟩
    | false =>
      rw [hc] at h
      obtain ⟨hb, before, after, rfl, hbefore, hupd⟩ := ih h
      refine ⟨hb, c :: before, after, rfl, ?_, fun f => by simp [updateFirst, hc, hupd]⟩
      exact forall_mem_cons.2 ⟨by simp [hc], hbefore⟩

lemma exists_list_around (hpos : 0 < t.size) (hval : BitVec 32) :
    ∃ before after, t.list = before ++ ((t.slot hval).flatMap Bucket.entries ++ after) ∧
      ∀ f, (t.onSlot hval f).list = before ++ ((f (t.slot hval)).flatMap Bucket.entries ++ after) := by
  obtain ⟨before, after, htab, -, hon⟩ := exists_around hpos hval
  refine ⟨before.flatten.flatMap Bucket.entries, after.flatten.flatMap Bucket.entries, ?_, fun f => ?_⟩
  · rw [Htab.list, Htab.buckets, htab]
    simp [flatMap_append]
  · rw [Htab.list, Htab.buckets, hon]
    simp [flatMap_append]

lemma nbuckets_resize (hpos : 0 < t.size) : (resize t).nbuckets = t.nbuckets := (buckets_resize hpos).length_eq

lemma list_insertLoop {n : ℕ} (hn : 1 ≤ n) (hpos : 0 < t.size) (hfuel : t.nbuckets / 2 < t.size + n) :
    (insertLoop ops e n t).list.Perm (e :: t.list) := by
  induction n generalizing t with
  | zero => omega
  | succ n ih =>
    rw [insertLoop]
    split
    · rename_i hany
      obtain ⟨b, hb⟩ := isSome_iff_exists.1 (find?_isSome.2 (any_eq_true.1 hany))
      obtain ⟨-, _, _, hslot, -, hupd⟩ := updateFirst_split hb
      obtain ⟨before, _, hlist, hon⟩ := exists_list_around hpos (ops.hval e)
      rw [hon, hupd, hlist, hslot]
      simp only [flatMap_append, flatMap_cons, flatMap_nil, append_assoc,
        cons_append]
      exact (perm_middle.append_left before).trans perm_middle
    · split
      · refine (ih (by omega) ?_ ?_).trans ((List.Perm.flatMap_right _ (buckets_resize hpos)).cons e)
        · rw [size_resize]
          omega
        · rw [size_resize, nbuckets_resize hpos]
          omega
      · exact List.Perm.flatMap_right _ (buckets_push hpos (ops.hval e) ⟨ops.hval e, [e]⟩)

theorem list_insert (hpos : 0 < t.size) (e : α) : (dtHtabInsert ops t e).list.Perm (e :: t.list) :=
  list_insertLoop (by omega) hpos (by omega)

/-! ## Tidy tables -/

variable (ops) in
/-- The buckets are in different slots, or their entries are not equal. -/
def Apart (size : ℕ) (b c : Bucket α) : Prop :=
  slotOf size b.hval = slotOf size c.hval → ∀ x ∈ b.entries, ∀ y ∈ c.entries, ops.cmp x y = false

lemma Apart.symm {size : ℕ} {b c : Bucket α} (h : Apart ops size b c) : Apart ops size c b := by
  intro hslot x hx y hy
  rw [ops.symm]
  exact h hslot.symm y hy x hx

instance (size : ℕ) : Std.Symm (Apart ops size) := ⟨fun _ _ h => h.symm⟩

variable (ops) in
/-- Every bucket has one entry and is in its slot, and no two entries of a slot are equal. -/
structure Tidy (t : Htab α) : Prop where
  pow : ∃ k, t.size = 2 ^ k
  single : ∀ b ∈ t.buckets, ∃ e, b = ⟨ops.hval e, [e]⟩
  placed : ∀ i, ∀ b ∈ t.tab.getD i [], slotOf t.size b.hval = i
  apart : t.buckets.Pairwise (Apart ops t.size)
  load : t.nbuckets ≤ 2 * t.size + 2

lemma Tidy.pos (h : Tidy ops t) : 0 < t.size := by
  obtain ⟨k, hk⟩ := h.pow
  rw [hk]
  exact Nat.two_pow_pos k

@[simp] lemma list_create : (dtHtabCreate : Htab α).list = [] := rfl

lemma tidy_create : Tidy ops (dtHtabCreate : Htab α) where
  pow := ⟨0, rfl⟩
  single := by simp [dtHtabCreate, Htab.buckets]
  placed := by
    intro i b hb
    rcases i with _ | i <;> simp [dtHtabCreate] at hb
  apart := by simp [dtHtabCreate, Htab.buckets]
  load := by simp [dtHtabCreate, Htab.nbuckets, Htab.buckets]

variable {b : Bucket α}

lemma mem_onSlot {f : List (Bucket α) → List (Bucket α)} {i : ℕ} (h : b ∈ (t.onSlot hval f).tab.getD i []) :
    (i = slotOf t.size hval ∧ b ∈ f (t.slot hval)) ∨ b ∈ t.tab.getD i [] := by
  rw [getD_eq_getElem?_getD, Htab.onSlot, getElem?_modify] at h
  cases hget : t.tab[i]? with
  | none =>
    rw [hget] at h
    cases h
  | some s =>
    have hs : t.tab.getD i [] = s := by rw [getD_eq_getElem?_getD, hget, getD_some]
    simp only [hget, Option.map_eq_map, map_some, getD_some] at h
    split at h
    · rename_i hi
      left
      refine ⟨hi.symm, ?_⟩
      rwa [Htab.slot, hi, hs]
    · right
      rwa [hs]

lemma mem_slot_of_placed (hpos : 0 < t.size) (hplaced : ∀ i, ∀ b ∈ t.tab.getD i [], slotOf t.size b.hval = i)
    : b ∈ t.slot hval ↔ b ∈ t.buckets ∧ slotOf t.size b.hval = slotOf t.size hval := by
  constructor
  · intro hb
    obtain ⟨_, _, htab, -, -⟩ := exists_around hpos hval
    refine ⟨?_, hplaced _ b hb⟩
    rw [Htab.buckets, htab]
    simp [hb]
  · rintro ⟨hb, hslot⟩
    obtain ⟨s, hs, hbs⟩ := mem_flatten.1 hb
    obtain ⟨i, hi, rfl⟩ := getElem_of_mem hs
    have hget : b ∈ t.tab.getD i [] := by rwa [getD_eq_getElem _ _ hi]
    rwa [← hplaced i b hget, hslot] at hget

lemma Tidy.mem_slot (h : Tidy ops t) : b ∈ t.slot hval ↔ b ∈ t.buckets ∧ slotOf t.size b.hval = slotOf t.size hval :=
  mem_slot_of_placed h.pos h.placed

lemma Tidy.mem_list (h : Tidy ops t) : x ∈ t.list ↔ (⟨ops.hval x, [x]⟩ : Bucket α) ∈ t.buckets := by
  rw [Htab.list, mem_flatMap]
  constructor
  · rintro ⟨b, hb, hx⟩
    obtain ⟨e, rfl⟩ := h.single b hb
    rwa [mem_singleton.1 hx]
  · exact fun hb => ⟨_, hb, by simp⟩

lemma Tidy.lookup_some (h : Tidy ops t) (hx : dtHtabLookup ops t e = some x) :
    x ∈ t.list ∧ ops.cmp x e = true ∧ slotOf t.size (ops.hval x) = slotOf t.size (ops.hval e) := by
  obtain ⟨b, hfind, hhead⟩ := bind_eq_some_iff.1 hx
  have hmatch := find?_some hfind
  obtain ⟨hb, hslot⟩ := h.mem_slot.1 (mem_of_find?_eq_some hfind)
  obtain ⟨y, rfl⟩ := h.single b hb
  cases hhead
  exact ⟨h.mem_list.2 hb, hmatch, hslot⟩

lemma lookup_congr {e' : α} (hval : ops.hval e = ops.hval e') (hcmp : ∀ x, ops.cmp x e = ops.cmp x e') :
    dtHtabLookup ops t e = dtHtabLookup ops t e' := by
  have hmatch : (fun b : Bucket α => b.matches ops e) = fun b => b.matches ops e' := by
    funext b
    simp only [Bucket.matches, hcmp]
  rw [dtHtabLookup, dtHtabLookup, hval, hmatch]

lemma Tidy.lookup_eq_none_iff (h : Tidy ops t) :
    dtHtabLookup ops t e = none ↔
      ∀ x ∈ t.list, ops.cmp x e = true → slotOf t.size (ops.hval x) ≠ slotOf t.size (ops.hval e) := by
  constructor
  · intro hnone x hx hcmp hslot
    have hmem := h.mem_slot.2 ⟨h.mem_list.1 hx, hslot⟩
    have hsome : ((t.slot (ops.hval e)).find? (·.matches ops e)).isSome := find?_isSome.2 ⟨_, hmem, hcmp⟩
    obtain ⟨b, hb⟩ := isSome_iff_exists.1 hsome
    obtain ⟨y, rfl⟩ := h.single b (h.mem_slot.1 (mem_of_find?_eq_some hb)).1
    cases bind_eq_none_iff.1 hnone _ hb
  · intro hall
    cases hlook : dtHtabLookup ops t e with
    | none => rfl
    | some x =>
      obtain ⟨hx, hcmp, hslot⟩ := h.lookup_some hlook
      exact absurd hslot (hall x hx hcmp)

lemma slotOf_double {k : ℕ} {h h' : BitVec 32} (heq : slotOf (2 * 2 ^ k) h = slotOf (2 * 2 ^ k) h') :
    slotOf (2 ^ k) h = slotOf (2 ^ k) h' := by
  rw [← pow_succ', slotOf_two_pow, slotOf_two_pow] at heq
  rw [slotOf_two_pow, slotOf_two_pow]
  have hdvd : 2 ^ k ∣ 2 ^ (k + 1) := pow_dvd_pow 2 (le_succ k)
  rw [← mod_mod_of_dvd h.toNat hdvd, heq, mod_mod_of_dvd h'.toNat hdvd]

lemma placed_push (h : ∀ i, ∀ c ∈ t.tab.getD i [], slotOf t.size c.hval = i) :
    ∀ i, ∀ c ∈ (t.onSlot b.hval (b :: ·)).tab.getD i [], slotOf (t.onSlot b.hval (b :: ·)).size c.hval = i := by
  intro i c hc
  rw [size_onSlot]
  rcases mem_onSlot hc with ⟨rfl, hc'⟩ | hc'
  · rcases mem_cons.1 hc' with rfl | hc'
    · rfl
    · exact h _ c hc'
  · exact h i c hc'

lemma placed_resize (t : Htab α) : ∀ i, ∀ c ∈ (resize t).tab.getD i [], slotOf (resize t).size c.hval = i := by
  refine foldlRecOn (motive := fun u : Htab α => ∀ i, ∀ c ∈ u.tab.getD i [], slotOf u.size c.hval = i) _ _
    (fun i c hc => ?_) fun u hu b _ => placed_push hu
  rw [getD_eq_getElem?_getD, getElem?_replicate] at hc
  split at hc <;> cases hc

section

variable (h : Tidy ops t)
include h

lemma Tidy.resize : Tidy ops (resize t) := by
  obtain ⟨k, hk⟩ := h.pow
  have hperm := buckets_resize h.pos
  refine ⟨⟨k + 1, by rw [size_resize, hk, pow_succ']⟩, fun b hb => h.single b (hperm.mem_iff.1 hb),
    placed_resize t, ?_, ?_⟩
  · rw [hperm.pairwise_iff fun hbc => hbc.symm, size_resize, hk]
    refine h.apart.imp fun {b c} hbc hslot => ?_
    rw [Apart, hk] at hbc
    exact hbc (slotOf_double hslot)
  · have hload := h.load
    rw [nbuckets_resize h.pos, size_resize]
    omega

lemma Tidy.push (hnew : dtHtabLookup ops t e = none) (hroom : t.nbuckets / 2 ≤ t.size) :
    Tidy ops (t.onSlot (ops.hval e) (⟨ops.hval e, [e]⟩ :: ·)) := by
  have hperm := buckets_push h.pos (ops.hval e) ⟨ops.hval e, [e]⟩
  rw [h.lookup_eq_none_iff] at hnew
  refine ⟨by rw [size_onSlot]; exact h.pow, ?_, placed_push h.placed, ?_, ?_⟩
  · intro b hb
    exact forall_mem_cons.2 ⟨⟨e, rfl⟩, h.single⟩ b (hperm.mem_iff.1 hb)
  · rw [hperm.pairwise_iff fun hbc => hbc.symm, size_onSlot, pairwise_cons]
    refine ⟨fun b hb hslot x hx y hy => ?_, h.apart⟩
    obtain ⟨z, rfl⟩ := h.single b hb
    rw [mem_singleton.1 hx, mem_singleton.1 hy, ops.symm]
    by_contra hcmp
    exact hnew z (h.mem_list.2 hb) (by simpa using hcmp) hslot.symm
  · have hlen := hperm.length_eq
    rw [length_cons] at hlen
    rw [size_onSlot, Htab.nbuckets, hlen, ← Htab.nbuckets]
    omega

section

variable (hnone : dtHtabLookup ops t e = none)
include hnone

lemma Tidy.lookup_resize : dtHtabLookup ops (Usdt.resize t) e = none := by
  rw [h.resize.lookup_eq_none_iff]
  rw [h.lookup_eq_none_iff] at hnone
  intro x hx hcmp hslot
  obtain ⟨k, hk⟩ := h.pow
  have hlist : (Usdt.resize t).list.Perm t.list := List.Perm.flatMap_right _ (buckets_resize h.pos)
  rw [size_resize, hk] at hslot
  refine hnone x (hlist.mem_iff.1 hx) hcmp ?_
  rw [hk]
  exact slotOf_double hslot

/-- The insertion of an entry that is not there: at most one resize, and a bucket in front of the slot. -/
lemma Tidy.insert_eq :
    dtHtabInsert ops t e =
      (if t.size < t.nbuckets / 2 then Usdt.resize t else t).onSlot (ops.hval e) (⟨ops.hval e, [e]⟩ :: ·) := by
  have hany : ∀ {t : Htab α}, Tidy ops t → dtHtabLookup ops t e = none →
      ((t.slot (ops.hval e)).any (·.matches ops e)) = false := by
    intro t h hnone
    rw [← Bool.not_eq_true, List.any_eq_true]
    rintro ⟨b, hb, hmatch⟩
    obtain ⟨hb, hslot⟩ := h.mem_slot.1 hb
    obtain ⟨x, rfl⟩ := h.single b hb
    exact h.lookup_eq_none_iff.1 hnone x (h.mem_list.2 hb) hmatch hslot
  rw [dtHtabInsert, insertLoop, hany h hnone, if_neg Bool.false_ne_true]
  split
  · rename_i hfull
    have hload := h.load
    obtain ⟨n, hn⟩ : ∃ n, t.nbuckets = n + 1 := ⟨t.nbuckets - 1, by omega⟩
    have hroom : ¬(Usdt.resize t).size < (Usdt.resize t).nbuckets / 2 := by
      have hpos := h.pos
      rw [size_resize, nbuckets_resize hpos]
      omega
    rw [hn, insertLoop, hany h.resize (h.lookup_resize hnone), if_neg Bool.false_ne_true, if_neg hroom]
  · rfl

lemma Tidy.insert : Tidy ops (dtHtabInsert ops t e) := by
  rw [h.insert_eq hnone]
  split
  · have hload := h.load
    have hpos := h.pos
    refine h.resize.push (h.lookup_resize hnone) ?_
    rw [size_resize, nbuckets_resize hpos]
    omega
  · exact h.push hnone (by omega)

lemma Tidy.size_insert : (dtHtabInsert ops t e).size = if t.size < t.nbuckets / 2 then 2 * t.size else t.size := by
  rw [h.insert_eq hnone, size_onSlot]
  split
  · exact size_resize t
  · rfl

end

end

/-- The size of a table that has got `n` entries, one after the other and none of them alike. -/
def tabSize : ℕ → ℕ
  | 0 => 1
  | n + 1 => if tabSize n < n / 2 then 2 * tabSize n else tabSize n

lemma Tidy.nbuckets_eq (h : Tidy ops t) : t.nbuckets = t.list.length := by
  have hone : t.buckets.map (length ∘ Bucket.entries) = t.buckets.map fun _ => 1 := by
    refine map_congr_left fun b hb => ?_
    obtain ⟨e, rfl⟩ := h.single b hb
    rfl
  rw [Htab.list, flatMap, length_flatten, List.map_map, hone, map_const', sum_replicate_nat, mul_one]
  rfl

lemma Tidy.size_insert_eq (h : Tidy ops t) (hnone : dtHtabLookup ops t e = none)
    (hsize : t.size = tabSize t.list.length) :
    (dtHtabInsert ops t e).size = tabSize (dtHtabInsert ops t e).list.length := by
  rw [(list_insert h.pos e).length_eq, length_cons, h.size_insert hnone, h.nbuckets_eq, hsize, tabSize]

lemma lookup_create (ops : Ops α) (e : α) : dtHtabLookup ops dtHtabCreate e = none :=
  tidy_create.lookup_eq_none_iff.2 (by simp)

/-! ## Changing and deleting entries -/

lemma found_buckets (hpos : 0 < t.size) {p : Bucket α → Bool} (hfind : (t.slot hval).find? p = some b) :
    ∃ before after, t.buckets = before ++ b :: after ∧
      ∀ f, (t.onSlot hval (updateFirst p f)).buckets = before ++ (f b ++ after) := by
  obtain ⟨-, bs, bs', hslot, -, hupd⟩ := updateFirst_split hfind
  obtain ⟨before, after, htab, -, hon⟩ := exists_around hpos hval
  refine ⟨before.flatten ++ bs, bs' ++ after.flatten, ?_, fun f => ?_⟩
  · rw [Htab.buckets, htab, hslot]
    simp
  · rw [Htab.buckets, hon, hupd]
    simp

lemma Tidy.find_of_lookup (h : Tidy ops t) (hx : dtHtabLookup ops t e = some x) :
    (t.slot (ops.hval e)).find? (·.matches ops e) = some ⟨ops.hval x, [x]⟩ := by
  obtain ⟨b, hfind, hhead⟩ := bind_eq_some_iff.1 hx
  obtain ⟨y, rfl⟩ := h.single b (h.mem_slot.1 (mem_of_find?_eq_some hfind)).1
  cases hhead
  exact hfind

lemma Tidy.found (h : Tidy ops t) (hx : dtHtabLookup ops t e = some x) :
    ∃ before after, t.buckets = before ++ ⟨ops.hval x, [x]⟩ :: after ∧
      ∀ f, (t.onSlot (ops.hval e) (updateFirst (·.matches ops e) f)).buckets =
        before ++ (f ⟨ops.hval x, [x]⟩ ++ after) :=
  found_buckets h.pos (h.find_of_lookup hx)

section

variable {β : Type} {before after cs : List β} {b : β}

lemma mem_replaced {c : β} (b : β) (h : c ∈ before ++ (cs ++ after)) :
    c ∈ cs ∨ c ∈ before ++ b :: after := by
  simp only [mem_append, mem_cons] at h ⊢
  tauto

lemma pairwise_replaced {R : β → β → Prop} (h : (before ++ b :: after).Pairwise R) (hlen : cs.length ≤ 1)
    (hright : ∀ c ∈ cs, ∀ d, R d b → R d c) (hleft : ∀ c ∈ cs, ∀ d, R b d → R c d) :
    (before ++ (cs ++ after)).Pairwise R := by
  rw [pairwise_append, pairwise_cons] at h
  obtain ⟨hbefore, ⟨hb, hafter⟩, hcross⟩ := h
  rw [pairwise_append, pairwise_append]
  refine ⟨hbefore, ⟨?_, hafter, fun c hc d hd => hleft c hc d (hb d hd)⟩, fun d hd c hc => ?_⟩
  · rcases cs with _ | ⟨c, _ | ⟨d, _⟩⟩
    · exact List.Pairwise.nil
    · exact pairwise_singleton _ c
    · simp at hlen
  · rcases mem_append.1 hc with hc | hc
    · exact hright c hc d (hcross d hd b mem_cons_self)
    · exact hcross d hd c (mem_cons_of_mem _ hc)

end

variable (ops) in
/-- A bucket with an entry that cannot be told from `x`. -/
def Like (x : α) (b : Bucket α) : Prop :=
  ∃ y, b = ⟨ops.hval x, [y]⟩ ∧ ops.hval y = ops.hval x ∧ ∀ z, ops.cmp y z = ops.cmp x z

lemma Like.apart {size : ℕ} {b c : Bucket α} (hc : Like ops x c) (h : Apart ops size b ⟨ops.hval x, [x]⟩) :
    Apart ops size b c := by
  obtain ⟨y, rfl, -, hcmp⟩ := hc
  intro hs p hp q hq
  rw [mem_singleton.1 hq, ops.symm, hcmp, ops.symm]
  exact h hs p hp x (mem_singleton_self x)

lemma Tidy.onFound (h : Tidy ops t) (hx : dtHtabLookup ops t e = some x) {f : Bucket α → List (Bucket α)}
    (hlen : (f ⟨ops.hval x, [x]⟩).length ≤ 1) (hlike : ∀ b ∈ f ⟨ops.hval x, [x]⟩, Like ops x b) :
    Tidy ops (t.onSlot (ops.hval e) (updateFirst (·.matches ops e) f)) := by
  obtain ⟨_, _, hbs, hon⟩ := h.found hx
  obtain ⟨-, bs, _, hslot, -, hupd⟩ := updateFirst_split (h.find_of_lookup hx)
  obtain ⟨-, -, hplace⟩ := h.lookup_some hx
  have hload := h.load
  rw [Htab.nbuckets, hbs, length_append, length_cons] at hload
  refine ⟨by rw [size_onSlot]; exact h.pow, fun b hb => ?_, fun i b hb => ?_, ?_, ?_⟩
  · rw [hon] at hb
    rcases mem_replaced _ hb with hb | hb
    · obtain ⟨y, rfl, hval, -⟩ := hlike b hb
      exact ⟨y, by rw [hval]⟩
    · exact h.single b (hbs ▸ hb)
  · rw [size_onSlot]
    rcases mem_onSlot hb with ⟨rfl, hb'⟩ | hb'
    · rw [hupd] at hb'
      rcases mem_replaced _ hb' with hb' | hb'
      · obtain ⟨y, rfl, -, -⟩ := hlike b hb'
        exact hplace
      · rw [← hslot] at hb'
        exact h.placed _ b hb'
    · exact h.placed i b hb'
  · rw [hon, size_onSlot]
    exact pairwise_replaced (hbs ▸ h.apart) hlen (fun c hc d => (hlike c hc).apart)
      fun c hc d hd => ((hlike c hc).apart hd.symm).symm
  · rw [size_onSlot, Htab.nbuckets, hon, length_append, length_append]
    omega

lemma Tidy.update (h : Tidy ops t) (hx : dtHtabLookup ops t e = some x) {f : α → α}
    (hval : ops.hval (f x) = ops.hval x) (hcmp : ∀ z, ops.cmp (f x) z = ops.cmp x z) :
    Tidy ops (t.update ops e f) ∧ ∃ before after, t.list = before ++ x :: after ∧
      (t.update ops e f).list = before ++ f x :: after := by
  refine ⟨h.onFound hx (by simp) fun b hb => ⟨f x, mem_singleton.1 hb, hval, hcmp⟩, ?_⟩
  obtain ⟨before, after, hbs, hon⟩ := h.found hx
  refine ⟨before.flatMap Bucket.entries, after.flatMap Bucket.entries, ?_, ?_⟩
  · rw [Htab.list, hbs]
    simp
  · rw [Htab.list, Htab.update, hon]
    simp

lemma Tidy.lookup_self (h : Tidy ops t) (he : e ∈ t.list) : dtHtabLookup ops t e = some e := by
  cases hlook : dtHtabLookup ops t e with
  | none => exact absurd rfl (h.lookup_eq_none_iff.1 hlook e he (ops.refl e))
  | some x =>
    obtain ⟨hx, hcmp, hslot⟩ := h.lookup_some hlook
    by_contra hne
    have hxe : (⟨ops.hval x, [x]⟩ : Bucket α) ≠ ⟨ops.hval e, [e]⟩ := by
      intro heq
      injection heq with _ heq
      injection heq with heq
      exact hne (by rw [heq])
    have hapart := h.apart.forall (h.mem_list.1 hx) (h.mem_list.1 he) hxe hslot x (by simp) e (by simp)
    rw [hcmp] at hapart
    cases hapart

lemma Tidy.nodup (h : Tidy ops t) : t.list.Nodup := by
  rw [Htab.list, nodup_flatMap]
  refine ⟨fun b hb => ?_, h.apart.imp_of_mem fun {b c} hb hc hbc => ?_⟩
  · obtain ⟨x, rfl⟩ := h.single b hb
    exact nodup_singleton x
  · obtain ⟨x, rfl⟩ := h.single b hb
    obtain ⟨y, rfl⟩ := h.single c hc
    intro z hzx hzy
    have hxy := hbc (by rw [← mem_singleton.1 hzx, ← mem_singleton.1 hzy]) z hzx z hzy
    rw [ops.refl] at hxy
    cases hxy

section

variable [DecidableEq α]

lemma Tidy.delete (h : Tidy ops t) (he : e ∈ t.list) :
    Tidy ops (dtHtabDelete ops t e) ∧ (dtHtabDelete ops t e).list = t.list.erase e := by
  have hx := h.lookup_self he
  refine ⟨h.onFound hx (by simp) fun b hb => by simp at hb, ?_⟩
  obtain ⟨before, after, hbs, hon⟩ := h.found hx
  have hlist : t.list = before.flatMap Bucket.entries ++ e :: after.flatMap Bucket.entries := by
    rw [Htab.list, hbs]
    simp
  have hnodup := h.nodup
  rw [hlist, nodup_append] at hnodup
  have hnot : e ∉ before.flatMap Bucket.entries := fun hmem => hnodup.2.2 e hmem e (by simp) rfl
  rw [hlist, erase_append_right _ hnot, erase_cons_head, Htab.list, dtHtabDelete, hon]
  simp

lemma dtHtabNext_next {before after : List α} (h : t.list = before ++ e :: after) (hnot : e ∉ before) :
    dtHtabNext t (.next e) = (some e, Walk.of after) := by
  have hne : ∀ x ∈ before, decide (x ≠ e) = true := by
    intro x hx
    rw [decide_eq_true_iff]
    rintro rfl
    exact hnot hx
  have hdrop : t.list.dropWhile (· ≠ e) = e :: after := by
    rw [h, dropWhile_append_of_pos hne]
    simp
  simp only [dtHtabNext, hdrop, tail_cons]

end

end

end DTrace.Usdt
