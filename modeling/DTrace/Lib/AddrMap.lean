import Mathlib.Tactic.Common

/-!
# Maps whose values have addresses

A map of elements that live in memory: a lookup gives the address of the value, and the value is read and written through
it.  No two elements share an address.

* `get_insert`, `get_erase`, `get_write` — what each operation does to the values under all keys.
-/

namespace DTrace.Lib

open Function

/-- A map from `κ` to values in the memory `heap`. -/
structure AddrMap (κ A β : Type) where
  elem : κ → Option A
  heap : A → β
  elem_inj : ∀ k k' a, elem k = some a → elem k' = some a → k = k'

namespace AddrMap

variable {κ A β : Type}

def empty (b : β) : AddrMap κ A β := ⟨fun _ => none, fun _ => b, by simp⟩

def get (m : AddrMap κ A β) (k : κ) : Option β := (m.elem k).map m.heap

def Live (m : AddrMap κ A β) (a : A) : Prop := ∃ k, m.elem k = some a

variable [DecidableEq κ] [DecidableEq A]

def insert (m : AddrMap κ A β) (k : κ) (b : β) (a : { a // ¬ m.Live a }) : AddrMap κ A β where
  elem := update m.elem k (some a)
  heap := update m.heap a b
  elem_inj := by
    intro k₁ k₂ c h₁ h₂
    by_cases hk₁ : k₁ = k <;> by_cases hk₂ : k₂ = k
    · rw [hk₁, hk₂]
    · subst hk₁
      rw [update_self, Option.some.injEq] at h₁
      rw [update_of_ne hk₂] at h₂
      exact absurd ⟨k₂, h₁ ▸ h₂⟩ a.2
    · subst hk₂
      rw [update_self, Option.some.injEq] at h₂
      rw [update_of_ne hk₁] at h₁
      exact absurd ⟨k₁, h₂ ▸ h₁⟩ a.2
    · rw [update_of_ne hk₁] at h₁
      rw [update_of_ne hk₂] at h₂
      exact m.elem_inj k₁ k₂ c h₁ h₂

/-- Remove the element under a key, if there is one. -/
def erase (m : AddrMap κ A β) (k : κ) : AddrMap κ A β where
  elem := update m.elem k none
  heap := m.heap
  elem_inj := by
    intro k₁ k₂ c h₁ h₂
    have hne : ∀ j, update m.elem k none j = some c → j ≠ k := by
      rintro j hj rfl
      simp at hj
    rw [update_of_ne (hne _ h₁)] at h₁
    rw [update_of_ne (hne _ h₂)] at h₂
    exact m.elem_inj k₁ k₂ c h₁ h₂

def write (m : AddrMap κ A β) (a : A) (b : β) : AddrMap κ A β := { m with heap := update m.heap a b }

lemma get_insert (m : AddrMap κ A β) (k : κ) (b : β) (a : { a // ¬ m.Live a }) :
    (m.insert k b a).get = update m.get k (some b) := by
  funext j
  by_cases hj : j = k
  · subst hj
    simp [get, insert]
  · have hne : ∀ c, m.elem j = some c → c ≠ a := by
      rintro c hc rfl
      exact a.2 ⟨j, hc⟩
    rw [update_of_ne hj]
    simp only [get, insert, update_of_ne hj]
    cases hc : m.elem j with
    | none => rfl
    | some c => simp [update_of_ne (hne c hc)]

omit [DecidableEq A] in
lemma get_erase (m : AddrMap κ A β) (k : κ) : (m.erase k).get = update m.get k none := by
  funext j
  by_cases hj : j = k
  · subst hj
    simp [get, erase]
  · rw [update_of_ne hj]
    simp only [get, erase, update_of_ne hj]

lemma get_write {m : AddrMap κ A β} {k : κ} {a : A} (h : m.elem k = some a) (b : β) :
    (m.write a b).get = update m.get k (some b) := by
  funext j
  by_cases hj : j = k
  · subst hj
    simp [get, write, h]
  · rw [update_of_ne hj]
    simp only [get, write]
    cases hc : m.elem j with
    | none => rfl
    | some c =>
      have hne : c ≠ a := by
        rintro rfl
        exact hj (m.elem_inj j k c hc h)
      simp [update_of_ne hne]

end AddrMap

end DTrace.Lib
