import DTrace.Asgn.Model

/-!
# How often an index is evaluated

* `onceNode` — an assignment that evaluates its index once;
* `Once` — the code has the side effects of that, with the same element;
* `once_iff` — when it does.
-/

namespace DTrace.Asgn

open DTrace.Lib Exec List
open DTrace.Bpf (Word)
open DTrace.Dvar (Access Key)
open DTrace.Cg (ArithOp IncDec)

section

variable {U E : Type} (env : Env) (a : Lval U E)

/-- The new value for `op=`, when the element is known. -/
def newValue (op : ArithOp) (signed : Bool) (right : Right U E) (acc : Access) : Exec (St U E) Word := do
  let p ← getElem env acc false 0
  let l ← loadElem a p
  let x ← right.exec
  operate op signed l (a.ty.ptrsize op x)

/-- The assignment: the index is evaluated once, and the element it names is read and written. -/
def onceNode : AsgnOp U E → Exec (St U E) Word
  | .arith op signed right => do
    let acc ← dtCgArglist env a
    let v ← newValue env a op signed right acc
    storeElem env a right v acc
    return v
  | .incdec op post => do
    let acc ← dtCgArglist env a
    let p ← getElem env acc false 0
    match p with
    | none => do
      storeElem env a (.int (a.ty.delta op)) (a.ty.delta op) acc
      return if post then 0 else a.ty.delta op
    | some p => changeElem env a op post acc p

/-- The code has the same side effects as an assignment that evaluates its index once. -/
def Once (asgn : AsgnOp U E) (s : St U E) : Prop := (dtCgNode env a asgn s).2.log = (onceNode env a asgn s).2.log

/-- Evaluating the index in the state `s` has no side effects, and names the element `acc`. -/
def Repeats (s : St U E) (acc : Access) : Prop :=
  ∃ acc' s', dtCgArglist env a s = (some acc', s') ∧ s'.log = s.log ∧ Dvar.key env.prog acc' = Dvar.key env.prog acc

def HasValue (s : St U E) (acc : Access) : Prop := (Dvar.load env.dflt env.prog s.world.1 acc).2 ≠ none

/-- Where the code evaluates the index again, that makes no difference. -/
def RepeatsOk (s : St U E) : AsgnOp U E → Prop
  | .arith op signed right => ∀ acc s₁ v s₂, dtCgArglist env a s = (some acc, s₁) →
    newValue env a op signed right acc s₁ = (some v, s₂) → Repeats env a s₂ acc
  | .incdec _ _ => ∀ acc s₁, dtCgArglist env a s = (some acc, s₁) → HasValue env s₁ acc ∨ Repeats env a s₁ acc

/-! ## Side effects -/

/-- Only expressions have had side effects, and without any nothing has changed. -/
def ExprOnly (s s' : St U E) : Prop := ∃ es : List E, s'.log = s.log ++ es.map .expr ∧ (es = [] → s' = s)

lemma ExprOnly.refl (s : St U E) : ExprOnly s s := ⟨[], by simp, fun _ => rfl⟩

lemma ExprOnly.trans (s t u : St U E) (hst : ExprOnly s t) (htu : ExprOnly t u) : ExprOnly s u := by
  obtain ⟨es, hs, hquiet⟩ := hst
  obtain ⟨es', ht, hquiet'⟩ := htu
  refine ⟨es ++ es', by rw [ht, hs, map_append, append_assoc], fun hnil => ?_⟩
  obtain ⟨hes, hes'⟩ := append_eq_nil_iff.1 hnil
  rw [hquiet' hes', hquiet hes]

lemma keeps_exec {α : Type} (c : Code U E α) : Exec.Keeps ExprOnly c.exec := by
  intro s
  refine ⟨(c.run s.world).2.2, rfl, fun hnil => ?_⟩
  have hworld := c.quiet s.world hnil
  simp [Code.exec, hnil, hworld]

lemma keeps_pushArgs (is : List (Index U E)) : Exec.Keeps ExprOnly (pushArgs is) := by
  induction is with
  | nil => exact keeps_pure .refl _
  | cons i is ih =>
    refine (keeps_exec i.expr).bind .trans fun w => ?_
    exact ih.bind .trans fun ws => keeps_pure .refl _

lemma keeps_fillArgs (is : List (Index U E)) (ws : List Word) : Exec.Keeps ExprOnly (fillArgs is ws) := by
  induction is generalizing ws with
  | nil => exact keeps_pure .refl _
  | cons i is ih =>
    cases ws with
    | nil => exact keeps_pure .refl _
    | cons w ws =>
      refine Exec.Keeps.bind .trans (.refl) fun bs => ?_
      exact (ih ws).bind .trans fun rest => keeps_pure .refl _

variable {env a}

lemma keeps_dtCgArglist : Exec.Keeps ExprOnly (dtCgArglist env a) :=
  (keeps_pushArgs a.args).bind .trans fun ws =>
    (keeps_fillArgs a.args ws).bind .trans fun _ => keeps_pure .refl _

lemma log_storeElem (rp : Right U E) (v : Word) (acc : Access) (s : St U E) :
    (storeElem env a rp v acc s).2.log = s.log ++ [.elem (Dvar.key env.prog acc)] := by
  have hrest : ∀ p : Option Word, Exec.Keeps (fun s s' : St U E => s'.log = s.log)
      (if rp.isZero then return ()
        else if v = 0 then return ()
        else
          match p with
          | none => Exec.stop
          | some p => storePtr a.ty p v) := by
    intro p s
    split
    · rfl
    · split
      · rfl
      · cases p <;> rfl
  exact hrest _ _

lemma store_again_iff (rp : Right U E) (v : Word) (acc : Access) (s : St U E) :
    (dtCgStoreVar env a rp v s).2.log = (storeElem env a rp v acc s).2.log ↔ Repeats env a s acc := by
  have hkeeps : Exec.Keeps ExprOnly (dtCgArglist env a) := keeps_dtCgArglist
  obtain ⟨es, hes, -⟩ := hkeeps s
  rw [log_storeElem]
  rcases h : dtCgArglist env a s with ⟨_ | acc', s'⟩
  · rw [h] at hes
    rw [dtCgStoreVar, bind_none h]
    rw [hes, append_cancel_left_eq]
    constructor
    · intro heq
      have hmem : Event.elem (Dvar.key env.prog acc) ∈ es.map Event.expr := by
        rw [heq]
        exact mem_singleton_self _
      obtain ⟨e, -, he⟩ := mem_map.1 hmem
      cases he
    · rintro ⟨acc', s'', h', -⟩
      rw [h] at h'
      cases h'
  · rw [h] at hes
    rw [dtCgStoreVar, bind_some h, log_storeElem, hes, append_assoc, append_cancel_left_eq]
    constructor
    · intro heq
      cases es with
      | nil =>
        have hkey : Dvar.key env.prog acc' = Dvar.key env.prog acc := by simpa using heq
        exact ⟨acc', s', h, by simpa using hes, hkey⟩
      | cons e es => simp at heq
    · rintro ⟨acc'', s'', h', hlog, hkey⟩
      rw [h] at h'
      obtain ⟨rfl, rfl⟩ : _ = _ ∧ _ = _ := by simpa using h'
      rw [hlog] at hes
      have hnil : es = [] := by simpa using hes
      rw [hnil, hkey]
      rfl

/-! ## The operators -/

lemma dtCgNode_arith (op : ArithOp) (signed : Bool) (right : Right U E) : dtCgNode env a (.arith op signed right) = do
    let acc ← dtCgArglist env a
    let v ← newValue env a op signed right acc
    dtCgStoreVar env a right v
    return v := by
  simp [dtCgNode, dtCgArithmeticOp, dtCgLoadVar, dtCgPrepDvar, dtCgAsgnOp, newValue]

lemma dtCgNode_incdec (op : IncDec) (post : Bool) : dtCgNode env a (.incdec op post) = (do
    let acc ← dtCgArglist env a
    let p ← getElem env acc false 0
    match p with
    | none => do
      dtCgStoreVar env a (.int (a.ty.delta op)) (a.ty.delta op)
      return if post then 0 else a.ty.delta op
    | some p => changeElem env a op post acc p) := by
  rw [dtCgNode, dtCgIncdecOp, dtCgPrepDvar, bind_assoc]
  refine bind_congr fun acc => ?_
  rw [bind_assoc]
  exact bind_congr fun p => pure_bind _ _

lemma getElem_load (acc : Access) (s : St U E) :
    ∃ p, getElem env acc false 0 s = (some p, s) ∧ (HasValue env s acc ↔ p ≠ none) := by
  have hcall : ∃ p, ∀ al, Dvar.dtCgPrepDvar env.dflt env.prog s.world.1 acc false 0 al = (s.world.1, p) := by
    unfold Dvar.dtCgPrepDvar
    cases acc.var with
    | tls id => exact ⟨_, fun al => Dvar.dtGetTvar_load⟩
    | assoc id | tlsAssoc id => exact ⟨_, fun al => Dvar.dtGetAssoc_lookup⟩
  obtain ⟨p, hcall⟩ := hcall
  refine ⟨p, ?_, ?_⟩
  · rw [getElem, hcall]
  · rw [HasValue, Dvar.load, hcall]
    simp

lemma repeatsOk_arith_iff {op : ArithOp} {signed : Bool} {right : Right U E} {s s1 s2 : St U E} {acc : Access} {v : Word}
    (h : dtCgArglist env a s = (some acc, s1)) (hv : newValue env a op signed right acc s1 = (some v, s2)) :
    RepeatsOk env a s (.arith op signed right) ↔ Repeats env a s2 acc := by
  refine ⟨fun hrep => hrep acc s1 v s2 h hv, fun hrep acc' s1' v' s2' h' hv' => ?_⟩
  obtain ⟨rfl, rfl⟩ : _ = _ ∧ _ = _ := by simpa using h.symm.trans h'
  obtain ⟨-, rfl⟩ : v = _ ∧ _ = _ := by simpa using hv.symm.trans hv'
  exact hrep

lemma once_arith_iff (op : ArithOp) (signed : Bool) (right : Right U E) (s : St U E) :
    Once env a (.arith op signed right) s ↔ RepeatsOk env a s (.arith op signed right) := by
  rw [Once, dtCgNode_arith, onceNode]
  rcases h : dtCgArglist env a s with ⟨_ | acc, s1⟩
  · rw [bind_none h, bind_none h]
    exact iff_of_true rfl fun acc s1 v s2 h' => by simp [h] at h'
  rw [bind_some h, bind_some h]
  rcases hv : newValue env a op signed right acc s1 with ⟨_ | v, _⟩
  · rw [bind_none hv, bind_none hv]
    refine iff_of_true rfl fun acc' s1' v s2' h' hv' => ?_
    obtain ⟨rfl, rfl⟩ : _ = _ ∧ _ = _ := by simpa using h.symm.trans h'
    simp [hv] at hv'
  rw [bind_some hv, bind_some hv, bind_pure_snd, bind_pure_snd, store_again_iff,
    repeatsOk_arith_iff h hv]

lemma once_incdec_iff (op : IncDec) (post : Bool) (s : St U E) :
    Once env a (.incdec op post) s ↔ RepeatsOk env a s (.incdec op post) := by
  rw [Once, dtCgNode_incdec, onceNode]
  rcases h : dtCgArglist env a s with ⟨_ | acc, s1⟩
  · rw [bind_none h, bind_none h]
    exact iff_of_true rfl fun acc s1 h' => by simp [h] at h'
  have hok : RepeatsOk env a s (.incdec op post) ↔ HasValue env s1 acc ∨ Repeats env a s1 acc := by
    refine ⟨fun hrep => hrep acc s1 h, fun hrep acc' s1' h' => ?_⟩
    obtain ⟨rfl, rfl⟩ : acc = _ ∧ s1 = _ := by simpa using h.symm.trans h'
    exact hrep
  have hload : ∃ p, getElem env acc false 0 s1 = (some p, s1) ∧ (HasValue env s1 acc ↔ p ≠ none) := getElem_load acc s1
  obtain ⟨p, hget, hval⟩ := hload
  rw [bind_some h, bind_some h, bind_some hget, bind_some hget, hok, hval]
  cases p with
  | none =>
    rw [bind_pure_snd, bind_pure_snd, store_again_iff]
    simp
  | some p => simp

/-- The generated code has the side effects of an assignment that evaluates its index once, exactly if evaluating the index
again, where the code does so, has none and names the same element. -/
theorem once_iff (env : Env) (a : Lval U E) (asgn : AsgnOp U E) (s : St U E) :
    Once env a asgn s ↔ RepeatsOk env a s asgn := by
  cases asgn with
  | arith op signed right => exact once_arith_iff op signed right s
  | incdec op post => exact once_incdec_iff op post s

end

/-! `a[i++] += 1`, for a global variable `i` that is 0. -/

def counterProg : Dvar.Prog where
  ncpus := 1
  tlskeyId := 0
  vars := fun v => v = .assoc 0
  size := fun _ => 8
  pad := fun _ _ => false
  maxtuplesize := 20
  size_le := fun _ _ => by omega

def counterEnv (alloc : (s : Dvar.State Bytes) → Dvar.Alloc s) : Env := ⟨counterProg, ⟨0, 0⟩, List.replicate 8 0, alloc⟩

/-- `i++`, with `i` in the place of everything that is no dynamic variable. -/
def postIncrement : Code Word Unit Word where
  run := fun w => (some w.2, (w.1, w.2 + 1), [()])
  quiet := fun _ h => by cases h

def counterElem : Lval Word Unit :=
  ⟨0, false, [⟨postIncrement, fun v _ => some (Bytes.ofNat 8 v.toNat)⟩], ⟨⟨.dw, true⟩, none⟩⟩

lemma dtCgArglist_counterElem (alloc : (s : Dvar.State Bytes) → Dvar.Alloc s) (s : St Word Unit) :
    dtCgArglist (counterEnv alloc) counterElem s = (some ⟨.assoc 0, Bytes.ofNat 8 s.world.2.toNat, ⟨0, 0⟩⟩,
      ⟨(s.world.1, s.world.2 + 1), s.log ++ [.expr ()]⟩) := by
  change (some (⟨.assoc 0, Bytes.ofNat 8 s.world.2.toNat ++ [], ⟨0, 0⟩⟩ : Access), _) = _
  rw [append_nil]
  rfl

/-- The variable is incremented twice, wherever the kernel puts the element. -/
theorem increment_twice : ¬ ∃ alloc,
    Once (counterEnv alloc) counterElem (.arith .add true (.int 1)) ⟨(Dvar.State.init [], 0), []⟩ := by
  rintro ⟨alloc, h⟩
  rw [once_arith_iff] at h
  obtain ⟨_, _, harg, hlog, -⟩ := h _ _ _ _ (dtCgArglist_counterElem alloc _) rfl
  rw [dtCgArglist_counterElem] at harg
  cases harg
  simp at hlog

end DTrace.Asgn
