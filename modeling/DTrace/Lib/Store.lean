import Mathlib.Data.List.AList

/-!
# Finite maps visited entry by entry

Finite maps with at most one entry for a key, and the two ways of walking over one: changing every value in place, and
feeding every entry to an update of another map.

* `lookup_mapVals` — a walk that changes values;
* `lookup_visit` — a walk that feeds another map, when every visit touches one key only.
-/

namespace DTrace.Lib

open List

abbrev Store (κ β : Type) := AList fun _ : κ => β

namespace Store

variable {κ β γ : Type}

def mapVals (f : κ → β → γ) (m : Store κ β) : Store κ γ where
  entries := m.entries.map (Sigma.map id f)
  nodupKeys := by
    have hkeys : (m.entries.map (Sigma.map id f) : List (Σ _ : κ, γ)).keys = m.entries.keys := by
      simp [List.keys, Function.comp_def, Sigma.map]
    rw [List.NodupKeys, hkeys]
    exact m.nodupKeys

/-- Feed every entry of `m` to an update of `h`. -/
def visit (one : Store κ β → κ → γ → Store κ β) (m : Store κ γ) (h : Store κ β) : Store κ β :=
  m.entries.foldl (fun h e => one h e.1 e.2) h

variable [DecidableEq κ]

section

variable {m : Store κ β} {k k' : κ} {v : β}

lemma lookup_insert : (m.insert k v).lookup k' = if k' = k then some v else m.lookup k' := by
  split_ifs with hk
  · rw [hk]
    exact AList.lookup_insert _
  · exact AList.lookup_insert_ne hk

lemma lookup_erase_eq_some : (m.erase k).lookup k' = some v ↔ k' ≠ k ∧ m.lookup k' = some v := by
  by_cases hk : k' = k
  · rw [hk, AList.lookup_erase]
    simp
  · simp [hk, AList.lookup_erase_ne]

end

theorem lookup_mapVals (f : κ → β → γ) (m : Store κ β) (k : κ) : (mapVals f m).lookup k = (m.lookup k).map (f k) :=
  dlookup_map₂ k

/-- The values of the keys that `f` maps to `k`. -/
def fiber (f : κ → κ) (m : Store κ γ) (k : κ) : List γ := (m.entries.filter fun e => f e.1 = k).map Sigma.snd

lemma mem_fiber {f : κ → κ} {m : Store κ γ} {k : κ} {v : γ} : v ∈ m.fiber f k ↔ ∃ k', f k' = k ∧ m.lookup k' = some v := by
  have hmem : ∀ k', m.lookup k' = some v ↔ ⟨k', v⟩ ∈ m.entries := fun k' => mem_dlookup_iff m.nodupKeys
  simp only [fiber, mem_map, mem_filter, decide_eq_true_eq, hmem]
  constructor
  · rintro ⟨⟨k', v'⟩, ⟨he, hk⟩, rfl⟩
    exact ⟨k', hk, he⟩
  · rintro ⟨k', hk, he⟩
    exact ⟨⟨k', v⟩, ⟨he, hk⟩, rfl⟩

theorem lookup_visit {f : κ → κ} {one : Store κ β → κ → γ → Store κ β} {val : κ → Option β → γ → Option β}
    (hself : ∀ h k e, (one h k e).lookup (f k) = val (f k) (h.lookup (f k)) e)
    (hother : ∀ h k e k', k' ≠ f k → (one h k e).lookup k' = h.lookup k') (m : Store κ γ) (h : Store κ β) (k : κ) :
    (visit one m h).lookup k = (m.fiber f k).foldl (val k) (h.lookup k) := by
  unfold visit fiber
  induction m.entries generalizing h with
  | nil => rfl
  | cons e es ih =>
    rw [foldl_cons, ih]
    by_cases hk : f e.1 = k
    · subst hk
      simp [hself]
    · simp [hk, hother _ _ _ _ (Ne.symm hk)]

end Store

end DTrace.Lib
