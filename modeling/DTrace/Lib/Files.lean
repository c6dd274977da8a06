import DTrace.Lib.Bytes
import DTrace.Lib.Store

/-!
# Files with several names

Names lead to inodes, and inodes hold the bytes.  Two names of one inode share the bytes: what is written through one
of them is seen through the other.

* `Files.put`, `Files.link`, `Files.unlink` — a file written anew, a second name, a name taken away;
* `Files.nlink_eq_one_iff` — what a count of one means;
* `Files.Extends` — all that was there is there, with the same bytes.
-/

namespace DTrace.Lib

open Option List Function Store

/-- Files with names in `κ`.  No inode in use is handed out again. -/
structure Files (κ : Type) [DecidableEq κ] where
  links : Store κ ℕ
  disk : ℕ → Bytes
  next : ℕ
  fresh : ∀ k i, links.lookup k = some i → i < next

namespace Files

variable {κ : Type} [DecidableEq κ]

def empty : Files κ where
  links := ∅
  disk := fun _ => []
  next := 0
  fresh := by simp

def ino (f : Files κ) (k : κ) : Option ℕ := f.links.lookup k

def content (f : Files κ) (k : κ) : Option Bytes := (f.ino k).map f.disk

/-- `open` with `O_CREAT | O_TRUNC`, and `write`. -/
def put (f : Files κ) (k : κ) (bs : Bytes) : Files κ :=
  match h : f.ino k with
  | some i => { f with disk := update f.disk i bs }
  | none =>
    { links := f.links.insert k f.next
      disk := update f.disk f.next bs
      next := f.next + 1
      fresh := by
        intro k' i hi
        rw [lookup_insert] at hi
        split_ifs at hi
        · exact Option.some.inj hi ▸ Nat.lt_succ_self _
        · exact Nat.lt_succ_of_lt (f.fresh k' i hi) }

/-- `link`: there must be a file of the old name and none of the new name. -/
def link (f : Files κ) (old new : κ) : Option (Files κ) :=
  match h : f.ino old, f.ino new with
  | some i, none =>
    some { f with
      links := f.links.insert new i
      fresh := by
        intro k' j hj
        rw [lookup_insert] at hj
        split_ifs at hj
        · exact Option.some.inj hj ▸ f.fresh old i h
        · exact f.fresh k' j hj }
  | _, _ => none

/-- `unlink`, which does nothing if there is no such name. -/
def unlink (f : Files κ) (k : κ) : Files κ where
  links := f.links.erase k
  disk := f.disk
  next := f.next
  fresh := by
    intro k' i hi
    exact f.fresh k' i (lookup_erase_eq_some.1 hi).2

def nlink (f : Files κ) (i : ℕ) : ℕ := f.links.entries.countP fun e => e.2 = i

section

variable {f : Files κ} {k k' : κ} {bs : Bytes} {i : ℕ}

lemma content_eq_none_iff : f.content k = none ↔ f.ino k = none := map_eq_none_iff

lemma content_of_ino (h : f.ino k = some i) : f.content k = some (f.disk i) := by rw [content, h]; rfl

/-! ## Writing -/

lemma ino_put : (f.put k bs).ino k' = if k' = k then some ((f.ino k).getD f.next) else f.ino k' := by
  rw [put]
  split
  next i hi =>
    split_ifs with hk
    · rw [hk, hi]
      exact hi
    · rfl
  next hnone =>
    simp only [hnone, getD_none]
    exact lookup_insert

lemma disk_put : (f.put k bs).disk = update f.disk ((f.ino k).getD f.next) bs := by
  rw [put]
  split
  next i hi => rw [hi]; rfl
  next hnone => simp [hnone]

lemma ino_put_of_ne (hk : k' ≠ k) : (f.put k bs).ino k' = f.ino k' := by rw [ino_put, if_neg hk]

lemma ino_put_of_some (h : f.ino k = some i) : (f.put k bs).ino k = some i := by
  rw [ino_put, if_pos rfl, h]
  rfl

lemma ino_put_of_none (h : f.ino k = none) : (f.put k bs).ino k = some f.next := by
  rw [ino_put, if_pos rfl, h]
  rfl

lemma ino_put_ne_none (h : f.ino k' ≠ none) : (f.put k bs).ino k' ≠ none := by
  rw [ino_put]
  split_ifs
  · simp
  · exact h

lemma content_put_self : (f.put k bs).content k = some bs := by
  rw [content, ino_put, if_pos rfl, disk_put, map_some, update_self]

lemma content_put_of_ne (hk : k' ≠ k) (hino : f.ino k = none ∨ f.ino k' ≠ f.ino k) :
    (f.put k bs).content k' = f.content k' := by
  rw [content, content, ino_put_of_ne hk, disk_put]
  refine map_congr fun j hj => update_of_ne ?_ _ _
  rintro rfl
  rcases hi : f.ino k with _ | i
  · have hlt := f.fresh k' _ hj
    rw [hi, getD_none] at hlt
    omega
  · rw [hi, getD_some] at hj
    rw [hi, hj] at hino
    simp at hino

/-! ## Second names -/

lemma link_eq_some (h : f.ino k = some i) (hnone : f.ino k' = none) :
    ∃ f', f.link k k' = some f' ∧ f'.ino k' = some i ∧ (∀ k'', k'' ≠ k' → f'.ino k'' = f.ino k'') ∧
      f'.disk = f.disk := by
  rw [link]
  split
  next j hj _ =>
    obtain rfl := mem_unique h hj
    exact ⟨_, rfl, AList.lookup_insert _, fun k'' hk => AList.lookup_insert_ne hk, rfl⟩
  next hno => exact (hno i h hnone).elim

lemma of_link_eq_some {f' : Files κ} (h : f.link k k' = some f') :
    ∃ i, f.ino k = some i ∧ f.ino k' = none ∧ f'.ino k' = some i ∧ (∀ k'', k'' ≠ k' → f'.ino k'' = f.ino k'') ∧
      f'.disk = f.disk := by
  rcases hi : f.ino k with _ | i
  · rw [link] at h
    split at h
    next j hj _ => rw [hi] at hj; cases hj
    next => cases h
  · rcases hnone : f.ino k' with _ | j
    · obtain ⟨_, h', rest⟩ := link_eq_some hi hnone
      obtain rfl := mem_unique h' h
      exact ⟨i, rfl, rfl, rest⟩
    · rw [link] at h
      split at h
      next hno => rw [hnone] at hno; cases hno
      next => cases h

/-! ## Names taken away -/

@[simp] lemma ino_unlink_self : (f.unlink k).ino k = none := AList.lookup_erase _ _

lemma ino_unlink_of_ne (hk : k' ≠ k) : (f.unlink k).ino k' = f.ino k' := AList.lookup_erase_ne hk

@[simp] lemma content_unlink_self : (f.unlink k).content k = none := by
  rw [content_eq_none_iff, ino_unlink_self]

lemma content_unlink_of_ne (hk : k' ≠ k) : (f.unlink k).content k' = f.content k' := by
  rw [content, content, ino_unlink_of_ne hk]
  rfl

lemma nlink_eq_one_iff (h : f.ino k = some i) : f.nlink i = 1 ↔ ∀ k', f.ino k' = some i → k' = k := by
  rw [nlink, countP_eq_length_filter, length_eq_one_iff]
  have hnd : (f.links.entries.filter fun e => decide (e.2 = i)).Nodup :=
    (List.NodupKeys.nodup f.links.nodupKeys).filter _
  have hin : ∀ k', (⟨k', i⟩ : Σ _ : κ, ℕ) ∈ f.links.entries.filter (fun e => decide (e.2 = i)) ↔ f.ino k' = some i := by
    intro k'
    rw [mem_filter, ← AList.mem_lookup_iff]
    exact and_iff_left (decide_eq_true rfl)
  constructor
  · rintro ⟨e, he⟩ k' hk'
    have hk := (hin k).2 h
    have hk' := (hin k').2 hk'
    rw [he, mem_singleton] at hk hk'
    exact congrArg Sigma.fst (hk'.trans hk.symm)
  · intro hone
    refine ⟨⟨k, i⟩, perm_singleton.1 ((perm_ext_iff_of_nodup hnd (nodup_singleton _)).2 ?_)⟩
    rintro ⟨k', j⟩
    rw [mem_singleton]
    constructor
    · intro he
      obtain rfl : j = i := by simpa using (mem_filter.1 he).2
      rw [hone k' ((hin k').1 he)]
    · rintro ⟨⟩
      exact (hin k).2 h

lemma length_le_links {l : List κ} (hnd : l.Nodup) (h : ∀ k ∈ l, f.content k ≠ none) :
    l.length ≤ f.links.entries.length := by
  have hsub : l ⊆ f.links.keys := by
    intro k hk
    rw [← AList.mem_keys, ← AList.lookup_isSome]
    exact isSome_iff_ne_none.2 fun hnone => h k hk (content_eq_none_iff.2 hnone)
  calc l.length ≤ f.links.keys.length := (subperm_of_subset hnd hsub).length_le
    _ = f.links.entries.length := length_map _

end

/-! ## What was there -/

/-- All files of `f` are files of `f'`, with the same bytes. -/
def Extends (f f' : Files κ) : Prop := ∀ k c, f.content k = some c → f'.content k = some c

namespace Extends

variable {f f' f'' : Files κ} {k k' : κ} {bs : Bytes}

lemma refl (f : Files κ) : f.Extends f := fun _ _ h => h

lemma put (h : f.Extends f') (hk : f'.content k = none) : f.Extends (f'.put k bs) := by
  intro k' c hc
  have hne : k' ≠ k := by
    rintro rfl
    rw [h k' c hc] at hk
    cases hk
  rw [content_put_of_ne hne (.inl (content_eq_none_iff.1 hk))]
  exact h k' c hc

lemma link (h : f.Extends f') (hlink : f'.link k k' = some f'') : f.Extends f'' := by
  obtain ⟨i, -, hnone, -, hother, hdisk⟩ := of_link_eq_some hlink
  intro k0 c hc
  have hk0 := h k0 c hc
  have hne : k0 ≠ k' := by
    rintro rfl
    rw [content, hnone] at hk0
    cases hk0
  rw [content, hother k0 hne, hdisk]
  exact hk0

lemma unlink (h : f.Extends f') (hk : f.content k = none) : f.Extends (f'.unlink k) := by
  intro k' c hc
  have hne : k' ≠ k := by
    rintro rfl
    rw [hc] at hk
    cases hk
  rw [content_unlink_of_ne hne]
  exact h k' c hc

end Extends

end Files

end DTrace.Lib
