import DTrace.Dvar.Model

/-!
# Dynamic variables as a map

Whatever the keys mean, `dvars` and `tuples` together are one map from keys to values: the entry of a tuple is named by its
address, and no variable is left behind under an address when the entry goes.

* `Inv` — the invariant of the two maps;
* `find` — the value that is reached with a key;
* `load_spec`, `store_spec` — what an access does to all keys.
-/

namespace DTrace.Dvar

open DTrace.Lib Function

/-- What leads to a variable: a thread-local key, which has the top bit clear, or a tuple. -/
inductive Key
  | tls (w : Word) (h : w.msb = false)
  | tuple (bs : Bytes)
  deriving DecidableEq

variable {V : Type} {k : Key} {w : Word} {s' : State V} {s : State V}

section

def find (s : State V) : Key → Option V
  | .tls w _ => s.dvars.get w
  | .tuple bs => (s.tuples.elem bs).bind s.dvars.get

/-- The entry of a tuple holds its own address, and a variable under an address belongs to the entry there. -/
structure Inv (s : State V) : Prop where
  self : ∀ bs a, s.tuples.elem bs = some a → s.tuples.heap a = a ∧ a.msb = true
  owned : ∀ w, w.msb = true → s.dvars.get w ≠ none → s.tuples.Live w

lemma inv_init (dflt : V) : Inv (State.init dflt) :=
  ⟨by simp [State.init, AddrMap.empty], by simp [State.init, AddrMap.empty, AddrMap.get]⟩

/-- The variable of the key is under `w` in `dvars`. -/
def At (s : State V) (w : Word) : Key → Prop
  | .tls w' _ => w' = w
  | .tuple bs => s.tuples.elem bs = some w

variable {o : Option V}

lemma find_update (hinv : Inv s) (hk : At s w k) (htuples : s'.tuples = s.tuples)
    (hdvars : s'.dvars.get = update s.dvars.get w o) : find s' = update (find s) k o := by
  funext j
  by_cases hj : j = k
  · subst hj
    rw [update_self]
    cases j with
    | tls w' => rw [find, hdvars, show w' = w from hk, update_self]
    | tuple bs =>
      rw [find, htuples, show s.tuples.elem bs = some w from hk, hdvars]
      simp
  · rw [update_of_ne hj]
    cases j with
    | tls w' hw' =>
      have hne : w' ≠ w := by
        rintro rfl
        cases k with
        | tls w => exact hj (by simp only [show w = w' from hk])
        | tuple bs => rw [(hinv.self bs w' hk).2] at hw'; cases hw'
      rw [find, hdvars, update_of_ne hne, find]
    | tuple bs =>
      rw [find, find, htuples, hdvars]
      cases hbs : s.tuples.elem bs with
      | none => rfl
      | some a =>
        have hne : a ≠ w := by
          rintro rfl
          cases k with
          | tls w hw => rw [show w = a from hk, (hinv.self bs a hbs).2] at hw; cases hw
          | tuple bs' => exact hj (by rw [s.tuples.elem_inj bs bs' a hbs hk])
        simp [update_of_ne hne]

lemma inv_update (hinv : Inv s) (hk : At s w k) (htuples : s'.tuples = s.tuples)
    (hdvars : s'.dvars.get = update s.dvars.get w o) : Inv s' := by
  refine ⟨fun bs a hbs => ?_, fun w' hw' h => ?_⟩
  · rw [htuples] at hbs ⊢
    exact hinv.self bs a hbs
  · rw [htuples]
    by_cases heq : w' = w
    · subst heq
      cases k with
      | tls w hw => rw [show w = w' from hk, hw'] at hw; cases hw
      | tuple bs => exact ⟨bs, hk⟩
    · rw [hdvars, update_of_ne heq] at h
      exact hinv.owned w' hw' h

end

/-! ## Accesses -/

variable {nval : Word} {dflt : V} {v : V}

section

variable {al : Option { a // ¬ s.dvars.Live a }}

lemma dtGetDvar_load : dtGetDvar dflt s w false nval al = (s, s.dvars.elem w) := by
  unfold dtGetDvar
  cases s.dvars.elem w <;> rfl

lemma dtGetDvar_delete : dtGetDvar dflt s w true 0#64 al = ({ s with dvars := s.dvars.erase w }, none) := rfl

/-- What a store of a nonzero value can do in `dvars`: store it, or record a drop. -/
inductive PutAt (s s' : State V) (w : Word) (v : V) : Prop
  | stored (htuples : s'.tuples = s.tuples) (hdrops : s'.drops = s.drops)
      (hdvars : s'.dvars.get = update s.dvars.get w (some v))
  | dropped (htuples : s'.tuples = s.tuples) (hdrops : s'.drops = s.drops + 1) (hdvars : s'.dvars = s.dvars)

lemma put_dtGetDvar (hval : nval ≠ 0) : PutAt s (put (dtGetDvar dflt s w true nval al) v) w v := by
  have hnz : ¬ nval = 0#64 := hval
  cases hw : s.dvars.elem w with
  | some a =>
    have hcall : dtGetDvar dflt s w true nval al = (s, some a) := by simp [dtGetDvar, hnz, hw]
    rw [hcall]
    exact .stored rfl rfl (AddrMap.get_write hw v)
  | none =>
    cases al with
    | none =>
      have hcall : dtGetDvar dflt s w true nval none = dtNoDvar s := by simp [dtGetDvar, hnz, hw]
      rw [hcall]
      exact .dropped rfl rfl rfl
    | some a =>
      have helem : (s.dvars.insert w dflt a).elem w = some a.1 := by simp [AddrMap.insert]
      have hcall : dtGetDvar dflt s w true nval (some a) =
          ({ s with dvars := s.dvars.insert w dflt a }, some a.1) := by
        simp [dtGetDvar, hnz, hw, helem]
      rw [hcall]
      refine .stored rfl rfl ?_
      rw [put, AddrMap.get_write helem v, AddrMap.get_insert, update_idem]

/-- What an access has done to the map. -/
structure Changed (s s' : State V) (k : Key) (o : Option V) : Prop where
  inv : Inv s'
  drops : s'.drops = s.drops
  find : find s' = update (find s) k o

/-- A store has been dropped. -/
structure Dropped (s s' : State V) : Prop where
  inv : Inv s'
  drops : s'.drops = s.drops + 1
  find : find s' = find s

lemma PutAt.outcome (h : PutAt s s' w v) (hinv : Inv s) (hk : At s w k) : Changed s s' k (some v) ∨ Dropped s s' := by
  cases h with
  | stored htuples hdrops hdvars =>
    exact .inl ⟨inv_update hinv hk htuples hdvars, hdrops, find_update hinv hk htuples hdvars⟩
  | dropped htuples hdrops hdvars =>
    have hdvars' : s'.dvars.get = update s.dvars.get w (s.dvars.get w) := by
      rw [hdvars, update_eq_self]
    refine .inr ⟨inv_update hinv hk htuples hdvars', hdrops, ?_⟩
    funext j
    cases j <;> simp only [Dvar.find, htuples, hdvars]

end

/-! ## Thread-local variables -/

variable {id : BitVec 32} {al : Alloc s}

section

variable {ncpus : BitVec 32} {c : Ctx}

lemma msb_dtTlskey (ncpus : BitVec 32) (c : Ctx) (id : BitVec 32) : (dtTlskey ncpus c id).msb = false := by
  unfold dtTlskey
  simp [BitVec.msb_eq_getLsbD_last]

def tlsKey (ncpus : BitVec 32) (c : Ctx) (id : BitVec 32) : Key := .tls (dtTlskey ncpus c id) (msb_dtTlskey ncpus c id)

lemma dtGetTvar_load : dtGetTvar dflt ncpus c s id false nval al = (s, s.dvars.elem (dtTlskey ncpus c id)) :=
  dtGetDvar_load

lemma dtGetTvar_delete (hinv : Inv s) :
    Changed s (dtGetTvar dflt ncpus c s id true 0#64 al).1 (tlsKey ncpus c id) none := by
  have hk : At s (dtTlskey ncpus c id) (tlsKey ncpus c id) := rfl
  have hget := AddrMap.get_erase s.dvars (dtTlskey ncpus c id)
  rw [dtGetTvar, dtGetDvar_delete]
  exact ⟨inv_update hinv hk rfl hget, rfl, find_update hinv hk rfl hget⟩

lemma dtGetTvar_store (hinv : Inv s) (hval : nval ≠ 0) :
    Changed s (put (dtGetTvar dflt ncpus c s id true nval al) v) (tlsKey ncpus c id) (some v) ∨
      Dropped s (put (dtGetTvar dflt ncpus c s id true nval al) v) :=
  (put_dtGetDvar hval).outcome hinv rfl

end

/-! ## Elements of arrays -/

section

variable {tuple bs : Bytes} {a : Word}

lemma dtGetAssoc_lookup : dtGetAssoc dflt s id tuple false nval al =
    (s, (s.tuples.elem (putId id tuple)).bind fun a => s.dvars.elem (s.tuples.heap a)) := by
  unfold dtGetAssoc
  cases hbs : s.tuples.elem (putId id tuple) with
  | none => simp [hbs]
  | some a => simp [hbs, dtGetDvar_load]

lemma dtGetAssoc_load (hinv : Inv s) : dtGetAssoc dflt s id tuple false nval al =
    (s, (s.tuples.elem (putId id tuple)).bind s.dvars.elem) := by
  rw [dtGetAssoc_lookup]
  cases hbs : s.tuples.elem (putId id tuple) with
  | none => rfl
  | some a => simp [(hinv.self _ a hbs).1]

lemma changed_erase (hinv : Inv s) (hbs : s.tuples.elem bs = some a) :
    Changed s { s with tuples := s.tuples.erase bs, dvars := s.dvars.erase a } (.tuple bs) none := by
  have hget := AddrMap.get_erase s.dvars a
  -- without its variable the entry leads to nothing, so it can go too
  have hfind : find { s with dvars := s.dvars.erase a } = update (find s) (.tuple bs) none :=
    find_update hinv hbs rfl hget
  refine ⟨⟨fun bs' a' h => ?_, fun w hw h => ?_⟩, rfl, ?_⟩
  · have hne : bs' ≠ bs := by
      rintro rfl
      simp [AddrMap.erase] at h
    simp only [AddrMap.erase, update_of_ne hne] at h
    exact hinv.self bs' a' h
  · have hne : w ≠ a := by
      rintro rfl
      rw [hget] at h
      simp at h
    rw [hget, update_of_ne hne] at h
    obtain ⟨bs', hbs'⟩ := hinv.owned w hw h
    have hne' : bs' ≠ bs := by
      rintro rfl
      exact hne (Option.some.inj (hbs'.symm.trans hbs))
    refine ⟨bs', ?_⟩
    simp only [AddrMap.erase, update_of_ne hne']
    exact hbs'
  · rw [← hfind]
    funext j
    cases j with
    | tls => rfl
    | tuple bs' =>
      by_cases hj : bs' = bs
      · subst hj
        rw [hfind, update_self]
        simp [find, AddrMap.erase]
      · simp [find, AddrMap.erase, update_of_ne hj]

lemma dtGetAssoc_delete (hinv : Inv s) :
    Changed s (dtGetAssoc dflt s id tuple true 0#64 al).1 (.tuple (putId id tuple)) none := by
  unfold dtGetAssoc
  cases hbs : s.tuples.elem (putId id tuple) with
  | none =>
    refine ⟨by simpa [hbs] using hinv, by simp [hbs], ?_⟩
    have hnone : find s (.tuple (putId id tuple)) = none := by simp [find, hbs]
    simp [hbs, ← hnone]
  | some a =>
    have herase := changed_erase hinv hbs
    simpa [hbs, (hinv.self _ a hbs).1, dtGetDvar_delete] using herase

def State.newTuple (s : State V) (bs : Bytes) (a : Fresh s) : State V :=
  { s with tuples := (s.tuples.insert bs 0 a.inTuples).write a.addr a.addr }

lemma newTuple_elem (s : State V) (bs : Bytes) (a : Fresh s) :
    (s.newTuple bs a).tuples.elem = update s.tuples.elem bs (some a.addr) := rfl

lemma find_newTuple (hinv : Inv s) (hbs : s.tuples.elem bs = none) (a : Fresh s) : find (s.newTuple bs a) = find s := by
  funext j
  cases j with
  | tls => rfl
  | tuple bs' =>
    simp only [find, newTuple_elem]
    by_cases hj : bs' = bs
    · subst hj
      have hnone : s.dvars.get a.addr = none := by
        by_contra h
        exact a.free (.inl (hinv.owned a.addr a.msb h))
      rw [update_self, hbs]
      exact hnone
    · rw [update_of_ne hj]
      rfl

lemma inv_newTuple (hinv : Inv s) (bs : Bytes) (hbs : s.tuples.elem bs = none) (a : Fresh s) : Inv (s.newTuple bs a) := by
  refine ⟨fun bs' b h => ?_, fun w hw h => ?_⟩
  · rw [newTuple_elem] at h
    by_cases hj : bs' = bs
    · subst hj
      rw [update_self, Option.some.injEq] at h
      subst h
      exact ⟨by simp [State.newTuple, AddrMap.write], a.msb⟩
    · rw [update_of_ne hj] at h
      have hne : b ≠ a.addr := by
        rintro rfl
        exact a.free (.inl ⟨bs', h⟩)
      refine ⟨?_, (hinv.self bs' b h).2⟩
      have hheap : (s.newTuple bs a).tuples.heap b = s.tuples.heap b := by
        simp [State.newTuple, AddrMap.write, AddrMap.insert, Fresh.inTuples, update_of_ne hne]
      rw [hheap, (hinv.self bs' b h).1]
  · obtain ⟨bs', hbs'⟩ := hinv.owned w hw h
    have hne : bs' ≠ bs := by
      rintro rfl
      rw [hbs] at hbs'
      cases hbs'
    exact ⟨bs', by rw [newTuple_elem, update_of_ne hne, hbs']⟩

lemma dtGetAssoc_found (hinv : Inv s) (hval : nval ≠ 0) (hbs : s.tuples.elem (putId id tuple) = some a) :
    dtGetAssoc dflt s id tuple true nval al = dtGetDvar dflt s a true nval al.inDvars := by
  have hnz : ¬ nval = 0#64 := hval
  simp [dtGetAssoc, hbs, hnz, (hinv.self _ a hbs).1]

lemma dtGetAssoc_full (hval : nval ≠ 0) (hbs : s.tuples.elem (putId id tuple) = none) (htuple : al.tuple = none) :
    dtGetAssoc dflt s id tuple true nval al = dtNoDvar s := by
  have hnz : ¬ nval = 0#64 := hval
  simp [dtGetAssoc, hbs, hnz, htuple]

lemma dtGetAssoc_new {a : Fresh s} (hval : nval ≠ 0) (hbs : s.tuples.elem (putId id tuple) = none)
    (htuple : al.tuple = some a) : dtGetAssoc dflt s id tuple true nval al =
      dtGetDvar dflt (s.newTuple (putId id tuple) a) a.addr true nval al.inDvars := by
  have hnz : ¬ nval = 0#64 := hval
  have helem : (s.tuples.insert (putId id tuple) 0 a.inTuples).elem (putId id tuple) = some a.addr := by
    simp [AddrMap.insert, Fresh.inTuples]
  have hheap : (s.newTuple (putId id tuple) a).tuples.heap a.addr = a.addr := by
    simp [State.newTuple, AddrMap.write]
  simp only [dtGetAssoc, hbs, htuple, helem, Bool.not_true, Bool.false_or]
  rw [if_neg (by simpa using hnz)]
  exact congrArg (fun w => dtGetDvar dflt (s.newTuple (putId id tuple) a) w true nval al.inDvars) hheap

lemma dtGetAssoc_store (hinv : Inv s) (hval : nval ≠ 0) :
    Changed s (put (dtGetAssoc dflt s id tuple true nval al) v) (.tuple (putId id tuple)) (some v) ∨
      Dropped s (put (dtGetAssoc dflt s id tuple true nval al) v) := by
  cases hbs : s.tuples.elem (putId id tuple) with
  | some a =>
    have hk := hbs
    rw [dtGetAssoc_found hinv hval hbs]
    exact (put_dtGetDvar hval).outcome hinv hk
  | none =>
    cases htuple : al.tuple with
    | none =>
      rw [dtGetAssoc_full hval hbs htuple]
      refine .inr ⟨⟨hinv.self, hinv.owned⟩, rfl, ?_⟩
      funext j
      cases j <;> rfl
    | some a =>
      have hk : At (s.newTuple (putId id tuple) a) a.addr (.tuple (putId id tuple)) := by
        rw [At, newTuple_elem, update_self]
      rw [dtGetAssoc_new hval hbs htuple]
      rcases (put_dtGetDvar hval).outcome (inv_newTuple hinv _ hbs a) hk with h | h
      · exact .inl ⟨h.inv, h.drops, by rw [h.find, find_newTuple hinv hbs]⟩
      · exact .inr ⟨h.inv, h.drops, by rw [h.find, find_newTuple hinv hbs]⟩

end

/-! ## Every access -/

section

variable {P : Prog} {acc : Access}

/-- The key that the code makes for an access. -/
def key (P : Prog) (acc : Access) : Key :=
  match acc.var with
  | .tls id => tlsKey P.ncpus acc.ctx id
  | .assoc id => .tuple (putId id (dtCgArglist P.maxtuplesize acc.args 0))
  | .tlsAssoc id =>
    .tuple (putId id (dtCgArglist P.maxtuplesize acc.args (dtTlskey P.ncpus acc.ctx P.tlskeyId)))

/-- A load returns what its key leads to, and changes nothing. -/
theorem load_spec (hinv : Inv s) : load dflt P s acc = (s, find s (key P acc)) := by
  unfold load dtCgPrepDvar key
  cases acc.var with
  | tls id => simp [dtGetTvar_load, tlsKey, find, AddrMap.get]
  | assoc id | tlsAssoc id =>
    simp only [dtGetAssoc_load hinv, Option.map_bind]
    rfl

lemma store_zero_spec (hinv : Inv s) : Changed s (store dflt P s acc 0 v al) (key P acc) none := by
  unfold store dtCgPrepDvar key
  rw [if_pos rfl]
  cases acc.var with
  | tls id => exact dtGetTvar_delete hinv
  | assoc id | tlsAssoc id => exact dtGetAssoc_delete hinv

theorem store_spec (hinv : Inv s) (hval : nval ≠ 0) :
    Changed s (store dflt P s acc nval v al) (key P acc) (some v) ∨ Dropped s (store dflt P s acc nval v al) := by
  unfold store dtCgPrepDvar key
  rw [if_neg hval]
  cases acc.var with
  | tls id => exact dtGetTvar_store hinv hval
  | assoc id | tlsAssoc id => exact dtGetAssoc_store hinv hval

end

end DTrace.Dvar
