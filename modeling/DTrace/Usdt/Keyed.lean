import DTrace.Usdt.Htab

/-!
# Hash tables with several entries in a bucket

Tables whose comparison is the equality of a key: the entries of one key share a bucket, with the one inserted
last in front.

* `keyOps` — the operations of a table that hashes and compares a key;
* `chain`, `dtHtabFind` — the entries of a bucket from its head on, and a search among them;
* `Keyed` — every bucket holds the entries of one key, and no two buckets hold the same;
* `Keyed.chain_eq` — a chain is a filter on the key;
* `Keyed.insert`, `Keyed.delete`, `Keyed.list_delete` — what the operations keep and do;
* `HtabRun.multimap` — what is found after any number of them.
-/

namespace DTrace.Usdt

open List

section

variable {α κ : Type} (key : α → κ) (hash : κ → BitVec 32)

/-- A table that hashes and compares a key of its entries. -/
def keyOps [DecidableEq κ] : Ops α where
  hval e := hash (key e)
  cmp a b := key a = key b
  refl a := by simp
  symm a b := by simp [eq_comm]

/-- The entries from the one that `dt_htab_lookup` returns on. -/
def chain (ops : Ops α) (t : Htab α) (e : α) : List α :=
  ((t.slot (ops.hval e)).find? (·.matches ops e)).elim [] Bucket.entries

def dtHtabFind (ops : Ops α) (t : Htab α) (e : α) (cmpf : α → Bool) : Option α := (chain ops t e).find? cmpf

lemma lookup_eq_head (ops : Ops α) (t : Htab α) (e : α) : dtHtabLookup ops t e = (chain ops t e).head? := by
  rw [dtHtabLookup, chain]
  cases (t.slot (ops.hval e)).find? (·.matches ops e) <;> rfl

/-! ## Keyed tables -/

/-- The entries of the bucket have one key. -/
structure Bucket.Holds (b : Bucket α) (k : κ) : Prop where
  hval : b.hval = hash k
  nonempty : b.entries ≠ []
  key : ∀ e ∈ b.entries, key e = k

/-- Every bucket is in its slot and has the entries of one key, and no two buckets have the same. -/
structure Keyed (t : Htab α) : Prop where
  pos : 0 < t.size
  placed : ∀ i, ∀ b ∈ t.tab.getD i [], slotOf t.size b.hval = i
  holds : ∀ b ∈ t.buckets, ∃ k, b.Holds key hash k
  apart : t.buckets.Pairwise fun b c => ∀ x ∈ b.entries, ∀ y ∈ c.entries, key x ≠ key y

variable {key hash} {t : Htab α} {e : α} {b : Bucket α} {k : κ}

lemma keyed_create : Keyed key hash (dtHtabCreate : Htab α) where
  pos := by simp [dtHtabCreate, Htab.size]
  placed := by
    intro i b hb
    rcases i with _ | i <;> simp [dtHtabCreate] at hb
  holds := by simp [dtHtabCreate, Htab.buckets]
  apart := by simp [dtHtabCreate, Htab.buckets]

lemma Keyed.resize (h : Keyed key hash t) : Keyed key hash (resize t) := by
  have hperm := buckets_resize h.pos
  refine ⟨?_, placed_resize t, fun b hb => h.holds b (hperm.mem_iff.1 hb), ?_⟩
  · rw [size_resize]
    have := h.pos
    omega
  · rw [hperm.pairwise_iff fun hbc x hx y hy => (hbc y hy x hx).symm]
    exact h.apart

lemma Keyed.push (h : Keyed key hash t) (hne : ∀ x ∈ t.list, key x ≠ key e) :
    Keyed key hash (t.onSlot (hash (key e)) (⟨hash (key e), [e]⟩ :: ·)) := by
  have hperm := buckets_push h.pos (hash (key e)) ⟨hash (key e), [e]⟩
  refine ⟨by rw [size_onSlot]; exact h.pos, placed_push h.placed, fun b hb => ?_, ?_⟩
  · exact forall_mem_cons.2 ⟨⟨key e, rfl, by simp, by simp⟩, h.holds⟩ b (hperm.mem_iff.1 hb)
  · rw [hperm.pairwise_iff fun hbc x hx y hy => (hbc y hy x hx).symm, pairwise_cons]
    refine ⟨fun c hc x hx y hy => ?_, h.apart⟩
    rw [mem_singleton.1 hx]
    exact (hne y (mem_flatMap.2 ⟨c, hc, hy⟩)).symm

/-! ## Chains -/

variable [DecidableEq κ]

lemma Bucket.Holds.matches_iff (h : b.Holds key hash k) : b.matches (keyOps key hash) e ↔ k = key e := by
  obtain ⟨x, _, hentries⟩ := exists_cons_of_ne_nil h.nonempty
  have hx : key x = k := h.key x (by simp [hentries])
  simp [Bucket.matches, hentries, keyOps, hx]

lemma Keyed.mem_slot (h : Keyed key hash t) (hb : b ∈ t.buckets) (hk : b.Holds key hash (key e)) :
    b ∈ t.slot ((keyOps key hash).hval e) := by
  rw [mem_slot_of_placed h.pos h.placed]
  exact ⟨hb, by rw [hk.hval]; rfl⟩

lemma Keyed.found (h : Keyed key hash t)
    (hfind : (t.slot ((keyOps key hash).hval e)).find? (·.matches (keyOps key hash) e) = some b) :
    b ∈ t.buckets ∧ b.Holds key hash (key e) := by
  have hb : b ∈ t.buckets := ((mem_slot_of_placed h.pos h.placed).1 (mem_of_find?_eq_some hfind)).1
  obtain ⟨k, hk⟩ := h.holds b hb
  have hmatch := find?_some hfind
  rw [hk.matches_iff] at hmatch
  exact ⟨hb, hmatch ▸ hk⟩

lemma Keyed.key_ne (h : Keyed key hash t)
    (hfind : (t.slot ((keyOps key hash).hval e)).find? (·.matches (keyOps key hash) e) = none) :
    ∀ x ∈ t.list, key x ≠ key e := by
  intro x hx hkey
  obtain ⟨b, hb, hxb⟩ := mem_flatMap.1 hx
  obtain ⟨k, hk⟩ := h.holds b hb
  obtain rfl : k = key e := (hk.key x hxb).symm.trans hkey
  exact find?_eq_none.1 hfind b (h.mem_slot hb hk) (hk.matches_iff.2 rfl)

lemma filter_eq_nil_of_apart {bs : List (Bucket α)} (hk : b.Holds key hash k)
    (h : ∀ c ∈ bs, ∀ x ∈ b.entries, ∀ y ∈ c.entries, key x ≠ key y) :
    (bs.flatMap Bucket.entries).filter (key · = k) = [] := by
  obtain ⟨x, hx⟩ := exists_mem_of_ne_nil _ hk.nonempty
  rw [filter_eq_nil_iff]
  intro y hy
  obtain ⟨c, hc, hyc⟩ := mem_flatMap.1 hy
  have hne := h c hc x hx y hyc
  rw [hk.key x hx] at hne
  simp [hne.symm]

theorem Keyed.chain_eq (h : Keyed key hash t) (e : α) :
    chain (keyOps key hash) t e = t.list.filter (key · = key e) := by
  rw [chain]
  cases hfind : (t.slot ((keyOps key hash).hval e)).find? (·.matches (keyOps key hash) e) with
  | none =>
    have hne := h.key_ne hfind
    exact (filter_eq_nil_iff.2 fun x hx => by simpa using hne x hx).symm
  | some b =>
    obtain ⟨hb, hk⟩ := h.found hfind
    obtain ⟨before, after, hbuckets⟩ := append_of_mem hb
    have hapart := h.apart
    rw [hbuckets, pairwise_append] at hapart
    obtain ⟨-, hafter, hbefore⟩ := hapart
    have hnil :=
      filter_eq_nil_of_apart hk fun c hc x hx y hy => (hbefore c hc b (by simp) y hy x hx).symm
    have hnil' :=
      filter_eq_nil_of_apart hk fun c hc => rel_of_pairwise_cons hafter hc
    have hall : b.entries.filter (key · = key e) = b.entries :=
      filter_eq_self.2 fun x hx => by simpa using hk.key x hx
    rw [Htab.list, hbuckets]
    simp [filter_append, hnil, hnil', hall]

/-! ## Insertion -/

lemma Keyed.onFound (h : Keyed key hash t) {f : Bucket α → List (Bucket α)}
    (hfind : (t.slot ((keyOps key hash).hval e)).find? (·.matches (keyOps key hash) e) = some b)
    (hlen : (f b).length ≤ 1) (hf : ∀ c ∈ f b, c.Holds key hash (key e)) :
    Keyed key hash (t.onSlot ((keyOps key hash).hval e) (updateFirst (·.matches (keyOps key hash) e) f)) := by
  obtain ⟨-, hk⟩ := h.found hfind
  obtain ⟨_, _, hbuckets, hon⟩ := found_buckets h.pos hfind
  obtain ⟨-, _, _, hslot, -, hupd⟩ := updateFirst_split hfind
  refine ⟨by rw [size_onSlot]; exact h.pos, fun i c hc => ?_, fun c hc => ?_, ?_⟩
  · rw [size_onSlot]
    rcases mem_onSlot hc with ⟨rfl, hslot'⟩ | hold
    · rw [hupd] at hslot'
      rcases mem_replaced b hslot' with hnew | hold
      · rw [(hf c hnew).hval]
        rfl
      · rw [← hslot] at hold
        exact h.placed _ c hold
    · exact h.placed i c hold
  · rw [hon] at hc
    rcases mem_replaced b hc with hnew | hold
    · exact ⟨_, hf c hnew⟩
    · rw [← hbuckets] at hold
      exact h.holds c hold
  · obtain ⟨z, hz⟩ := exists_mem_of_ne_nil _ hk.nonempty
    -- an entry of the new bucket has the key of the entry `z` of the old one
    have hsame : ∀ c ∈ f b, ∀ x ∈ c.entries, key x = key z := by
      intro c hc x hx
      rw [(hf c hc).key x hx, hk.key z hz]
    rw [hon]
    refine pairwise_replaced (hbuckets ▸ h.apart) hlen (fun c hc d hd x hx y hy => ?_) fun c hc d hd x hx y hy => ?_
    · rw [hsame c hc y hy]
      exact hd x hx z hz
    · rw [hsame c hc x hx]
      exact hd z hz y hy

lemma Keyed.insertLoop (h : Keyed key hash t) (e : α) (n : ℕ) :
    Keyed key hash (insertLoop (keyOps key hash) e n t) := by
  induction n generalizing t with
  | zero => exact h
  | succ n ih =>
    rw [Usdt.insertLoop]
    split
    · rename_i hany
      obtain ⟨b, hb⟩ := Option.isSome_iff_exists.1 (find?_isSome.2 (any_eq_true.1 hany))
      obtain ⟨-, hk⟩ := h.found hb
      refine h.onFound hb (by simp) fun c hc => ?_
      obtain rfl := mem_singleton.1 hc
      exact ⟨hk.hval, by simp, forall_mem_cons.2 ⟨rfl, hk.key⟩⟩
    · rename_i hany
      split
      · exact ih h.resize
      · refine h.push (h.key_ne (find?_eq_none.2 fun b hb hmatch => hany ?_))
        exact any_eq_true.2 ⟨b, hb, hmatch⟩

theorem Keyed.insert (h : Keyed key hash t) (e : α) : Keyed key hash (dtHtabInsert (keyOps key hash) t e) :=
  h.insertLoop e _

/-! ## Deletion -/

variable [DecidableEq α]

theorem Keyed.delete (h : Keyed key hash t) (he : e ∈ t.list) :
    Keyed key hash (dtHtabDelete (keyOps key hash) t e) := by
  cases hfind : (t.slot ((keyOps key hash).hval e)).find? (·.matches (keyOps key hash) e) with
  | none => exact absurd rfl (h.key_ne hfind e he)
  | some b =>
    obtain ⟨-, hk⟩ := h.found hfind
    refine h.onFound hfind ?_ fun c hc => ?_
    · split <;> simp
    · split at hc
      · cases hc
      · rename_i hes
        obtain rfl := mem_singleton.1 hc
        exact ⟨hk.hval, hes, fun x hx => hk.key x (mem_of_mem_erase hx)⟩

theorem Keyed.list_delete (h : Keyed key hash t) (he : e ∈ t.list) :
    (dtHtabDelete (keyOps key hash) t e).list.Perm (t.list.erase e) := by
  have hchain := h.chain_eq e
  have hmem : e ∈ chain (keyOps key hash) t e := by
    rw [hchain]
    simp [he]
  rw [chain] at hmem
  cases hfind : (t.slot ((keyOps key hash).hval e)).find? (·.matches (keyOps key hash) e) with
  | none =>
    rw [hfind] at hmem
    cases hmem
  | some b =>
    rw [hfind, Option.elim_some] at hmem
    obtain ⟨before, after, hbuckets, hon⟩ := found_buckets h.pos hfind
    have hnew : (dtHtabDelete (keyOps key hash) t e).list =
        before.flatMap Bucket.entries ++ (b.entries.erase e ++ after.flatMap Bucket.entries) := by
      rw [dtHtabDelete, Htab.list, hon, flatMap_append, flatMap_append]
      split <;> simp_all
    have hold : t.list.Perm (e :: (dtHtabDelete (keyOps key hash) t e).list) := by
      rw [hnew, Htab.list, hbuckets, flatMap_append, flatMap_cons]
      refine (((perm_cons_erase hmem).append_right _).append_left _).trans ?_
      exact perm_middle
    have herase := hold.erase e
    rw [erase_cons_head] at herase
    exact herase.symm

/-! ## Runs -/

variable (key hash) in
/-- The tables that insertions and deletions lead to, with the entries that are in them. -/
inductive HtabRun : List α → Htab α → Prop
  | create : HtabRun [] dtHtabCreate
  | insert {l : List α} {t : Htab α} (e : α) : HtabRun l t → HtabRun (e :: l) (dtHtabInsert (keyOps key hash) t e)
  | delete {l : List α} {t : Htab α} {e : α} : HtabRun l t → e ∈ l →
      HtabRun (l.erase e) (dtHtabDelete (keyOps key hash) t e)

lemma HtabRun.keyed (h : HtabRun key hash l t) : Keyed key hash t ∧ t.list.Perm l := by
  induction h with
  | create => exact ⟨keyed_create, .refl _⟩
  | insert e _ ih => exact ⟨ih.1.insert e, (list_insert ih.1.pos e).trans (ih.2.cons e)⟩
  | delete _ he ih =>
    rw [← ih.2.mem_iff] at he
    exact ⟨ih.1.delete he, (ih.1.list_delete he).trans (ih.2.erase _)⟩

/-- After any insertions and deletions, whatever the hash function, the entries with a key are those that were inserted
with it and not deleted, and a lookup returns one of them if there is one. -/
theorem HtabRun.multimap (h : HtabRun key hash l t) (e : α) :
    (chain (keyOps key hash) t e).Perm (l.filter (key · = key e)) ∧
      (dtHtabLookup (keyOps key hash) t e = none ↔ ∀ x ∈ l, key x ≠ key e) := by
  obtain ⟨hkeyed, hperm⟩ := h.keyed
  have hchain : (chain (keyOps key hash) t e).Perm (l.filter (key · = key e)) := by
    rw [hkeyed.chain_eq]
    exact hperm.filter _
  refine ⟨hchain, ?_⟩
  rw [lookup_eq_head, head?_eq_none_iff, ← perm_nil, hchain.congr_left, perm_nil]
  simp

/-- Two entries in one slot, and a third that is not there. -/
theorem multimap_two : (dtHtabLookup (keyOps id fun _ => 0)
    (dtHtabInsert (keyOps id fun _ => 0) (dtHtabInsert (keyOps id fun _ => 0) dtHtabCreate 1) 2) 3) = none :=
  ((HtabRun.create.insert 1).insert 2 |>.multimap 3).2.2 (by decide)

end

end DTrace.Usdt
