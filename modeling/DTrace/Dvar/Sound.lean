import DTrace.Dvar.Keys

/-!
# Dynamic variables refine a finite map

* `Reach` — accesses, one after the other, beside a map from variables, tuples and threads to values;
* `loads_iff` — every load returns what the map has exactly if there is no aliasing.
-/

namespace DTrace.Dvar

open DTrace.Lib Function

section

variable {V : Type}

/-- A store into the map: nothing happens if it was dropped, a zero removes the value. -/
def absStore (m : Elem → Option V) (e : Elem) (nval : Word) (v : V) (dropped : Prop) [Decidable dropped] :
    Elem → Option V :=
  if dropped then m else Function.update m e (if nval = 0 then none else some v)

/-- The states that a series of accesses leads to, each with what has been stored so far. -/
inductive Reach (dflt : V) (P : Prog) (C : Set Ctx) : State V → (Elem → Option V) → Prop
  | init : Reach dflt P C (State.init dflt) fun _ => none
  | load {s m} (acc : Access) (hacc : Valid P C acc) : Reach dflt P C s m → Reach dflt P C (load dflt P s acc).1 m
  | store {s m} (acc : Access) (hacc : Valid P C acc) (nval : Word) (v : V) (al : Alloc s) : Reach dflt P C s m →
      Reach dflt P C (store dflt P s acc nval v al)
        (absStore m acc.elem nval v ((store dflt P s acc nval v al).drops ≠ s.drops))

variable {dflt : V} {P : Prog} {C : Set Ctx} {s s' : State V} {m : Elem → Option V}

/-- The state holds the values of the map. -/
structure Refines (P : Prog) (C : Set Ctx) (s : State V) (m : Elem → Option V) : Prop where
  inv : Inv s
  find : ∀ acc, Valid P C acc → find s (key P acc) = m acc.elem

lemma Refines.init : Refines P C (State.init dflt) fun _ => none := by
  refine ⟨inv_init dflt, fun acc _ => ?_⟩
  cases key P acc <;> rfl

lemma Refines.changed (h : NoAlias P C) (hr : Refines P C s m) {acc : Access} (hacc : Valid P C acc) {o : Option V}
    (hs' : Changed s s' (key P acc) o) : Refines P C s' (update m acc.elem o) := by
  refine ⟨hs'.inv, fun acc' hacc' => ?_⟩
  rw [hs'.find]
  by_cases hkey : key P acc' = key P acc
  · rw [hkey, update_self, elem_eq_of_key_eq h hacc' hacc hkey, update_self]
  · have helem : acc'.elem ≠ acc.elem := fun he => hkey (key_eq_of_elem_eq he)
    rw [update_of_ne hkey, update_of_ne helem, hr.find acc' hacc']

lemma Refines.dropped (hr : Refines P C s m) (hs' : Dropped s s') : Refines P C s' m :=
  ⟨hs'.inv, fun acc hacc => by rw [hs'.find, hr.find acc hacc]⟩

lemma Refines.store (h : NoAlias P C) (hr : Refines P C s m) {acc : Access} (hacc : Valid P C acc) (nval : Word) (v : V)
    (al : Alloc s) : Refines P C (store dflt P s acc nval v al)
      (absStore m acc.elem nval v ((store dflt P s acc nval v al).drops ≠ s.drops)) := by
  by_cases hval : nval = 0
  · subst hval
    have hs' : Changed s (Dvar.store dflt P s acc 0 v al) (key P acc) none := store_zero_spec hr.inv
    rw [absStore, if_neg (not_not.2 hs'.drops), if_pos rfl]
    exact hr.changed h hacc hs'
  · have houtcome : Changed s (Dvar.store dflt P s acc nval v al) (key P acc) (some v) ∨
        Dropped s (Dvar.store dflt P s acc nval v al) := store_spec hr.inv hval
    rcases houtcome with hs' | hs'
    · rw [absStore, if_neg (not_not.2 hs'.drops), if_neg hval]
      exact hr.changed h hacc hs'
    · rw [absStore, if_pos (by rw [hs'.drops]; simp)]
      exact hr.dropped hs'

lemma Reach.refines (h : NoAlias P C) (hr : Reach dflt P C s m) : Refines P C s m := by
  induction hr with
  | init => exact .init
  | load acc hacc _ ih => rwa [load_spec ih.inv]
  | store acc hacc nval v al _ ih => exact ih.store h hacc nval v al

/-! ## Aliasing shows -/

/-- Room for one value in each of the maps when they are empty. -/
def roomInit (dflt : V) : Alloc (State.init dflt) where
  tuple := some ⟨0x8000000000000000#64, by decide, by simp [State.Live, State.init, AddrMap.Live, AddrMap.empty]⟩
  dvar := some ⟨0x8000000000000008#64, by decide, by simp [State.Live, State.init, AddrMap.Live, AddrMap.empty]⟩
  distinct := by simp

lemma store_init_drops (acc : Access) (v : V) :
    (Dvar.store dflt P (State.init dflt) acc 1#64 v (roomInit dflt)).drops = (State.init dflt).drops := by
  unfold Dvar.store dtCgPrepDvar
  cases acc.var <;>
    simp [dtGetTvar, dtGetAssoc, dtGetDvar, put, State.init, AddrMap.empty, AddrMap.insert, AddrMap.write, roomInit,
      Alloc.inDvars, Fresh.inDvars, Fresh.inTuples]

lemma load_aliased {acc acc' : Access} (hacc : Valid P C acc) (hkey : key P acc' = key P acc)
    (helem : acc'.elem ≠ acc.elem) (v : V) :
    ∃ s m, Reach dflt P C s m ∧ (load dflt P s acc').2 = some v ∧ m acc'.elem = none := by
  have hdrops : (Dvar.store dflt P (State.init dflt) acc 1#64 v (roomInit dflt)).drops = 0 := store_init_drops acc v
  have houtcome : Changed (State.init dflt) (Dvar.store dflt P (State.init dflt) acc 1#64 v (roomInit dflt))
      (key P acc) (some v) ∨ Dropped (State.init dflt) (Dvar.store dflt P (State.init dflt) acc 1#64 v (roomInit dflt)) :=
    store_spec (inv_init dflt) (by decide)
  rcases houtcome with hs' | hs'
  · refine ⟨_, _, .store acc hacc 1#64 v (roomInit dflt) .init, ?_, ?_⟩
    · rw [load_spec hs'.inv, hs'.find, hkey, update_self]
    · rw [absStore, if_neg (not_not.2 hs'.drops), update_of_ne helem]
  · have hone := hs'.drops
    rw [hdrops] at hone
    cases hone

/-- In every series of accesses of a program, every load returns the last value stored for the same variable, tuple and
thread since the last zero, unless it was dropped, exactly if there is no aliasing. -/
theorem loads_iff (dflt : V) (P : Prog) (C : Set Ctx) :
    (∀ s m, Reach dflt P C s m → ∀ acc, Valid P C acc → (load dflt P s acc).2 = m acc.elem) ↔ NoAlias P C := by
  constructor
  · intro h
    refine noAlias_of_key_inj fun acc acc' hacc hacc' hkey => ?_
    by_contra helem
    have halias : ∃ s m, Reach dflt P C s m ∧ (load dflt P s acc').2 = some dflt ∧ m acc'.elem = none :=
      load_aliased hacc hkey.symm (Ne.symm helem) dflt
    obtain ⟨s, m, hreach, hload, hm⟩ := halias
    rw [h s m hreach acc' hacc', hm] at hload
    cases hload
  · intro h s m hreach acc hacc
    have hr := hreach.refines h
    rw [load_spec hr.inv, hr.find acc hacc]

end

/-! ## Two arrays -/

/-- A global array with two 64-bit components and a thread-local one with one, both the first of their kind; `dt_tlskey` has
the identifier `DT_IDENT_UNDEF`. -/
def twoArrays : Prog where
  ncpus := 1
  tlskeyId := 0xfffffaff
  vars := fun v => v = .assoc 0 ∨ v = .tlsAssoc 0
  size := fun v => if v = .assoc 0 then 20 else 12
  pad := fun _ i => i < 4
  maxtuplesize := 32
  size_le := by
    rintro v (rfl | rfl) <;> decide

def thread1 : Ctx := ⟨1, 0⟩

/-- `a[x, y]`, with the first component aligned to 8 bytes. -/
def globalElem (x y : ℕ) : Access := ⟨.assoc 0, Bytes.ofNat 4 0 ++ Bytes.ofNat 8 x ++ Bytes.ofNat 8 y, thread1⟩

/-- `self->b[x]`. -/
def localElem (x : ℕ) : Access := ⟨.tlsAssoc 0, Bytes.ofNat 4 0 ++ Bytes.ofNat 8 x, thread1⟩

/-- `a[7, 0x3fffffaff]` is what was stored in `self->b[7]`, for `0x3fffffaff` is the key of the thread. -/
theorem global_array_reads_thread_local : ¬ ∀ s m, Reach (0 : ℕ) twoArrays {thread1} s m →
    ∀ acc, Valid twoArrays {thread1} acc → (load 0 twoArrays s acc).2 = m acc.elem := by
  intro h
  have hkey : key twoArrays (globalElem 7 0x3fffffaff) = key twoArrays (localElem 7) := by decide +kernel
  have hpad : ∀ acc ∈ [globalElem 7 0x3fffffaff, localElem 7], ∀ i < 4, acc.args.getD i 0 = 0 := by decide
  have hvalid : Valid twoArrays {thread1} (globalElem 7 0x3fffffaff) :=
    ⟨.inl rfl, rfl, fun i hi => hpad _ (by simp) i (of_decide_eq_true hi), rfl⟩
  have hvalid' : Valid twoArrays {thread1} (localElem 7) :=
    ⟨.inr rfl, rfl, fun i hi => hpad _ (by simp) i (of_decide_eq_true hi), rfl⟩
  have halias : ∃ s m, Reach (0 : ℕ) twoArrays {thread1} s m ∧
      (load 0 twoArrays s (globalElem 7 0x3fffffaff)).2 = some 42 ∧ m (globalElem 7 0x3fffffaff).elem = none :=
    load_aliased hvalid' hkey (by simp [Access.elem, globalElem, localElem]) 42
  obtain ⟨s, m, hreach, hload, hm⟩ := halias
  rw [h s m hreach _ hvalid, hm] at hload
  cases hload

end DTrace.Dvar
