import Mathlib.Tactic.Common

/-!
# Code that can end the program

A piece of code works on a state.  It gives a result, or it ends the program; the state is there either way.

* `Exec` — such code, as a monad;
* `Exec.bind_some`, `Exec.bind_none` — how a sequence goes on;
* `Exec.Keeps` — what holds of the state before and after, however the code ends.
-/

namespace DTrace.Lib

/-- A result, or `none` where the program ends, and the state after it. -/
def Exec (σ α : Type) := σ → Option α × σ

namespace Exec

variable {σ α β : Type}

protected def pure (a : α) : Exec σ α := fun s => (some a, s)

protected def bind (x : Exec σ α) (f : α → Exec σ β) : Exec σ β := fun s =>
  match x s with
  | (none, s') => (none, s')
  | (some a, s') => f a s'

instance : Monad (Exec σ) where
  pure := Exec.pure
  bind := Exec.bind

def stop : Exec σ α := fun s => (none, s)

def get : Exec σ σ := fun s => (some s, s)

def modify (f : σ → σ) : Exec σ Unit := fun s => (some (), f s)

instance : LawfulMonad (Exec σ) := LawfulMonad.mk' (Exec σ)
  (fun x => by
    funext s
    change Exec.bind x _ s = _
    unfold Exec.bind
    rcases x s with ⟨_ | a, s'⟩ <;> rfl)
  (fun _ _ => rfl)
  (fun x _ _ => by
    funext s
    change Exec.bind (Exec.bind x _) _ s = Exec.bind x _ s
    unfold Exec.bind
    rcases x s with ⟨_ | a, s'⟩ <;> rfl)

variable {f : α → Exec σ β} {x : Exec σ α}

section

variable {s s' : σ} {a : α}

lemma bind_some (h : x s = (some a, s')) : (x >>= f) s = f a s' := by
  change Exec.bind x f s = _
  rw [Exec.bind, h]

lemma bind_none (h : x s = (none, s')) : (x >>= f) s = (none, s') := by
  change Exec.bind x f s = _
  rw [Exec.bind, h]

lemma bind_eq_some {s'' : σ} {b : β} :
    (x >>= f) s = (some b, s'') ↔ ∃ a s', x s = (some a, s') ∧ f a s' = (some b, s'') := by
  constructor
  · intro h
    rcases hx : x s with ⟨_ | a, s'⟩
    · rw [bind_none hx] at h
      cases h
    · rw [bind_some hx] at h
      exact ⟨a, s', rfl, h⟩
  · rintro ⟨a, _, hx, hf⟩
    rw [bind_some hx, hf]

lemma eq_of_fst (h : (x s).1 = some a) : x s = (some a, (x s).2) := Prod.ext h rfl

lemma bind_pure_snd (x : Exec σ α) (g : α → β) (s : σ) : ((x >>= fun a => pure (g a)) s).2 = (x s).2 := by
  rcases h : x s with ⟨_ | a, _⟩
  · rw [bind_none h]
  · rw [bind_some h]
    rfl

end

/-- The state before and the state after are related. -/
def Keeps (R : σ → σ → Prop) (x : Exec σ α) : Prop := ∀ s, R s (x s).2

section

variable {R : σ → σ → Prop}

lemma keeps_pure (hR : ∀ s, R s s) (a : α) : Keeps R (pure a : Exec σ α) := hR

lemma Keeps.bind (hR : ∀ s t u, R s t → R t u → R s u) (hx : Keeps R x)
    (hf : ∀ a, Keeps R (f a)) : Keeps R (x >>= f) := by
  intro s
  have hxs := hx s
  rcases h : x s with ⟨_ | a, s'⟩
  · rw [h] at hxs
    rw [bind_none h]
    exact hxs
  · rw [h] at hxs
    rw [bind_some h]
    exact hR _ _ _ hxs (hf a s')

end

end Exec

end DTrace.Lib
