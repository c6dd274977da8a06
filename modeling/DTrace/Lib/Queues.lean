import Mathlib.Algebra.BigOperators.Group.Finset.Basic

/-!
# Queues

A family of queues, and everything that waits in one of them.

* `waiting_push`, `waiting_pop` — an element joins at the end of a queue, or leaves at its front;
* `waiting_eq_zero_iff` — nothing waits exactly when every queue is empty.
-/

namespace DTrace.Lib

open Multiset Function Finset

variable {κ α : Type} [Fintype κ] [DecidableEq κ]

/-- What waits, each element with the queue it waits in. -/
def waiting (q : κ → List α) : Multiset (κ × α) := ∑ c, ((q c).map (Prod.mk c) : Multiset (κ × α))

omit [DecidableEq κ] in
lemma mem_waiting {q : κ → List α} {x : κ × α} : x ∈ waiting q ↔ x.2 ∈ q x.1 := by
  obtain ⟨c, a⟩ := x
  simp [waiting, mem_sum]

omit [DecidableEq κ] in
lemma waiting_eq_zero_iff {q : κ → List α} : waiting q = 0 ↔ ∀ c, q c = [] := by
  rw [eq_zero_iff_forall_notMem]
  simp only [mem_waiting, Prod.forall]
  exact forall_congr' fun c => List.eq_nil_iff_forall_not_mem.symm

lemma waiting_update (q : κ → List α) (c : κ) (l : List α) :
    waiting (update q c l) =
      (l.map (Prod.mk c) : Multiset (κ × α)) + ∑ c' ∈ univ.erase c, ((q c').map (Prod.mk c') : Multiset (κ × α)) := by
  rw [waiting, ← add_sum_erase _ _ (mem_univ c), update_self]
  congr 1
  refine sum_congr rfl fun c' hc' => ?_
  rw [update_of_ne (ne_of_mem_erase hc')]

lemma waiting_push (q : κ → List α) (c : κ) (a : α) : waiting (update q c (q c ++ [a])) = (c, a) ::ₘ waiting q := by
  conv_rhs => rw [← update_eq_self c q, waiting_update]
  rw [waiting_update, List.map_append, ← coe_add, add_right_comm, add_comm, ← singleton_add]
  rfl

lemma waiting_pop {q : κ → List α} {c : κ} {a : α} {l : List α} (h : q c = a :: l) :
    waiting q = (c, a) ::ₘ waiting (update q c l) := by
  conv_lhs => rw [← update_eq_self c q, waiting_update, h]
  rw [waiting_update, List.map_cons, ← cons_coe, cons_add]

end DTrace.Lib
