import DTrace.Dvar.Refine

/-!
# Keys of dynamic variables

When two accesses have the same key although they are not to the same variable.

* `toNat_dtTlskey`, `val_tuple` — the keys as numbers;
* `NoAlias` — threads and arrays that keep apart;
* `key_inj_iff` — keys tell variables apart exactly if there is no aliasing.
-/

namespace DTrace.Dvar

open DTrace.Lib BitVec Bytes List Nat

/-! ## Threads -/

/-- An idle thread is known by its CPU, another one by its thread id. -/
inductive Thread
  | idle (cpu : BitVec 32)
  | task (tid : BitVec 32)
  deriving DecidableEq, Repr

def Ctx.thread (c : Ctx) : Thread :=
  if c.pidTgid.setWidth 32 = 0#32 then .idle c.cpu else .task (c.pidTgid.setWidth 32)

/-- The number of a thread in `dt_tlskey`: idle threads come first. -/
def Thread.slot (ncpus : BitVec 32) : Thread → ℕ
  | idle cpu => (cpu.toNat + 1) % 2 ^ 31
  | task tid => (tid.toNat + ncpus.toNat + 1) % 2 ^ 31

lemma and_low_word (w : Word) : w &&& 0xffffffff#64 = (w.setWidth 32).setWidth 64 := by
  apply eq_of_toNat_eq
  have h := and_two_pow_sub_one_eq_mod w.toNat 32
  rw [toNat_and, toNat_setWidth, toNat_setWidth, toNat_ofNat]
  simp only [show 0xffffffff % 2 ^ 64 = 2 ^ 32 - 1 from rfl, h]
  omega

lemma toNat_pack (w : Word) (id : BitVec 32) :
    ((w &&& 0x7fffffff#64) <<< 32 ||| id.setWidth 64).toNat = w.toNat % 2 ^ 31 * 2 ^ 32 + id.toNat := by
  have hid := id.isLt
  have hlow : (w &&& 0x7fffffff#64).toNat = w.toNat % 2 ^ 31 := by
    rw [toNat_and, toNat_ofNat]
    exact Nat.and_two_pow_sub_one_eq_mod w.toNat 31
  have hshift : ((w &&& 0x7fffffff#64) <<< 32).toNat = (w.toNat % 2 ^ 31) <<< 32 := by
    rw [toNat_shiftLeft, hlow, Nat.shiftLeft_eq]
    omega
  have hwide : (id.setWidth 64).toNat = id.toNat := by
    rw [toNat_setWidth]
    omega
  rw [toNat_or, hshift, hwide, ← Nat.shiftLeft_add_eq_or_of_lt hid, Nat.shiftLeft_eq]

lemma toNat_dtTlskey (ncpus : BitVec 32) (c : Ctx) (id : BitVec 32) :
    (dtTlskey ncpus c id).toNat = c.thread.slot ncpus * 2 ^ 32 + id.toNat := by
  have hzero : c.pidTgid &&& 0xffffffff#64 = 0 ↔ c.pidTgid.setWidth 32 = 0#32 := by
    rw [and_low_word, ← toNat_inj, ← toNat_inj]
    simp only [ofNat_eq_ofNat, toNat_setWidth, toNat_ofNat]
    omega
  rw [dtTlskey, toNat_pack]
  congr 2
  by_cases h : c.pidTgid.setWidth 32 = 0#32
  · rw [if_pos (hzero.2 h), Ctx.thread, if_pos h, Thread.slot, toNat_add, toNat_setWidth]
    simp only [ofNat_eq_ofNat, toNat_ofNat]
    omega
  · rw [if_neg (mt hzero.1 h), Ctx.thread, if_neg h, Thread.slot, and_low_word, toNat_add, toNat_add,
      toNat_setWidth 64 ncpus, toNat_setWidth 64 (c.pidTgid.setWidth 32)]
    simp only [ofNat_eq_ofNat, toNat_ofNat]
    omega

/-! ## Variables -/

/-- What an access is to: the variable, the tuple, and the thread if it is the thread's own. -/
inductive Elem
  | tls (id : BitVec 32) (t : Thread)
  | assoc (id : BitVec 32) (args : Bytes)
  | tlsAssoc (id : BitVec 32) (args : Bytes) (t : Thread)
  deriving DecidableEq

def Access.elem (acc : Access) : Elem :=
  match acc.var with
  | .tls id => .tls id acc.ctx.thread
  | .assoc id => .assoc id acc.args
  | .tlsAssoc id => .tlsAssoc id acc.args acc.ctx.thread

/-- An access of the program, in one of the contexts it runs in.  `dt_cg_arglist` clears the area before it puts the
components in, so that the bytes between them are 0. -/
structure Valid (P : Prog) (C : Set Ctx) (acc : Access) : Prop where
  declared : P.vars acc.var
  length : acc.args.length = P.size acc.var
  padding : ∀ i, P.pad acc.var i → acc.args.getD i 0 = 0
  ctx : acc.ctx ∈ C

/-! ## Tuples -/

lemma length_tuple {n : ℕ} (id : BitVec 32) (args : Bytes) (tls : Word) (h : 4 + args.length + 8 ≤ n) :
    (putId id (dtCgArglist n args tls)).length = n := by
  simp [putId, dtCgArglist]
  omega

lemma val_tuple (n : ℕ) (id : BitVec 32) (args : Bytes) (tls : Word) :
    Bytes.val (putId id (dtCgArglist n args tls)) =
      id.toNat + 2 ^ 32 * (Bytes.val args + 256 ^ args.length * tls.toNat) := by
  have hid : Bytes.val (ofNat 4 id.toNat) = id.toNat := val_ofNat (by have := id.isLt; omega)
  have htls : Bytes.val (ofNat 8 tls.toNat) = tls.toNat := val_ofNat (by have := tls.isLt; omega)
  have hdrop : (dtCgArglist n args tls).drop 4 =
      args ++ ofNat 8 tls.toNat ++ List.replicate (n - (4 + args.length + 8)) 0 := by
    simp [dtCgArglist, List.append_assoc]
  rw [putId, hdrop]
  simp only [val_append, val_zeros, hid, htls, length_ofNat]
  ring

lemma tuple_eq_iff {P : Prog} {v v' : Var} {id id' : BitVec 32} {args args' : Bytes} {tls tls' : Word} (hv : P.vars v)
    (hargs : args.length = P.size v) (hv' : P.vars v') (hargs' : args'.length = P.size v') :
    putId id (dtCgArglist P.maxtuplesize args tls) = putId id' (dtCgArglist P.maxtuplesize args' tls') ↔
      id = id' ∧ Bytes.val args + 256 ^ P.size v * tls.toNat = Bytes.val args' + 256 ^ P.size v' * tls'.toNat := by
  have hlen := length_tuple id args tls (n := P.maxtuplesize) (by rw [hargs]; exact P.size_le v hv)
  have hlen' := length_tuple id' args' tls' (n := P.maxtuplesize) (by rw [hargs']; exact P.size_le v' hv')
  rw [← val_inj (hlen.trans hlen'.symm), val_tuple, val_tuple, hargs, hargs', ← toNat_inj]
  omega

/-! ## Aliasing -/

section

variable {P : Prog} {C : Set Ctx}

/-- The thread-local key in the tuple of a thread-local array. -/
def tlsNumber (P : Prog) (c : Ctx) : ℕ := c.thread.slot P.ncpus * 2 ^ 32 + P.tlskeyId.toNat

/-- No two variables have the same key: threads have different numbers, modulo 2^31; and where a global and a thread-local
array have the same identifier, the tuple of the global one does not reach so far that it covers what is not zero in the
thread-local key of the other, or some of that falls on its padding. -/
structure NoAlias (P : Prog) (C : Set Ctx) : Prop where
  threads : (∃ id, P.vars (.tls id) ∨ P.vars (.tlsAssoc id)) → ∀ c ∈ C, ∀ c' ∈ C,
    c.thread.slot P.ncpus = c'.thread.slot P.ncpus → c.thread = c'.thread
  arrays : ∀ id, P.vars (.assoc id) → P.vars (.tlsAssoc id) → ∀ c ∈ C,
    256 ^ P.size (.assoc id) ≤ 256 ^ P.size (.tlsAssoc id) * tlsNumber P c ∨
      ∃ i, P.pad (.assoc id) i ∧ 256 ^ P.size (.tlsAssoc id) * tlsNumber P c / 256 ^ i % 256 ≠ 0

/-- A byte that is 0 stays 0 when the low bytes are cleared. -/
lemma byte_cleared {r t k i : ℕ} (hr : r < 256 ^ k) (h : (r + 256 ^ k * t) / 256 ^ i % 256 = 0) :
    256 ^ k * t / 256 ^ i % 256 = 0 := by
  rcases Nat.lt_or_ge i k with hik | hik
  · obtain ⟨j, rfl⟩ := Nat.exists_eq_add_of_lt hik
    have hsplit : 256 ^ (i + j + 1) * t = 256 ^ i * (256 * (256 ^ j * t)) := by ring
    rw [hsplit, Nat.mul_div_cancel_left _ (by positivity), Nat.mul_mod_right]
  · obtain ⟨j, rfl⟩ := Nat.exists_eq_add_of_le hik
    have hk : 0 < 256 ^ k := by positivity
    rw [pow_add, ← Nat.div_div_eq_div_mul, Nat.add_mul_div_left _ _ hk, Nat.div_eq_of_lt hr, zero_add] at h
    rwa [pow_add, ← Nat.div_div_eq_div_mul, Nat.mul_div_cancel_left _ hk]

lemma assoc_ne_tlsAssoc (h : NoAlias P C) {id id' : BitVec 32} {args args' : Bytes} {c : Ctx} (hc : c ∈ C)
    (hv : P.vars (.assoc id)) (hargs : args.length = P.size (.assoc id))
    (hpad : ∀ i, P.pad (.assoc id) i → args.getD i 0 = 0) (hv' : P.vars (.tlsAssoc id'))
    (hargs' : args'.length = P.size (.tlsAssoc id')) : putId id (dtCgArglist P.maxtuplesize args 0) ≠
      putId id' (dtCgArglist P.maxtuplesize args' (dtTlskey P.ncpus c P.tlskeyId)) := by
  intro heq
  obtain ⟨rfl, hval⟩ := (tuple_eq_iff hv hargs hv' hargs').1 heq
  rw [toNat_dtTlskey, ← tlsNumber, ofNat_eq_ofNat, toNat_ofNat, Nat.zero_mod, Nat.mul_zero, add_zero] at hval
  rcases h.arrays id hv hv' c hc with hle | ⟨i, hi, hne⟩
  · have hlt := val_lt args
    rw [hargs] at hlt
    omega
  · have hbyte := toNat_getD args i
    rw [hpad i hi, hval] at hbyte
    exact hne (byte_cleared (hargs' ▸ val_lt args') hbyte.symm)

lemma tlsKey_inj {c c' : Ctx} {id id' : BitVec 32} (h : dtTlskey P.ncpus c id = dtTlskey P.ncpus c' id') :
    c.thread.slot P.ncpus = c'.thread.slot P.ncpus ∧ id = id' := by
  have hnat := congrArg BitVec.toNat h
  rw [toNat_dtTlskey, toNat_dtTlskey] at hnat
  rw [← toNat_inj]
  omega

lemma eq_of_add_mul_eq {a a' k k' b : ℕ} (ha : a < b) (ha' : a' < b) (h : a + b * k = a' + b * k') : a = a' ∧ k = k' := by
  have hdiv := congrArg (· / b) h
  have hmod := congrArg (· % b) h
  have hb : 0 < b := by omega
  simp only [add_mul_div_left _ _ hb, div_eq_of_lt ha, div_eq_of_lt ha', zero_add] at hdiv
  simp only [add_mul_mod_self_left, mod_eq_of_lt ha, mod_eq_of_lt ha'] at hmod
  exact ⟨hmod, hdiv⟩

lemma elem_eq_of_key_eq (h : NoAlias P C) {acc acc' : Access} (hacc : Valid P C acc) (hacc' : Valid P C acc')
    (heq : key P acc = key P acc') : acc.elem = acc'.elem := by
  obtain ⟨v, args, c⟩ := acc
  obtain ⟨v', args', c'⟩ := acc'
  obtain ⟨hv, hargs, hpad, hc⟩ := hacc
  obtain ⟨hv', hargs', hpad', hc'⟩ := hacc'
  cases v with
  | tls id =>
    cases v' with
    | tls id' =>
      obtain ⟨hslot, rfl⟩ := tlsKey_inj (Key.tls.inj heq)
      rw [Access.elem, Access.elem, h.threads ⟨id, .inl hv⟩ c hc c' hc' hslot]
    | assoc | tlsAssoc => cases heq
  | assoc id =>
    cases v' with
    | tls => cases heq
    | assoc id' =>
      obtain ⟨rfl, hval⟩ := (tuple_eq_iff hv hargs hv' hargs').1 (Key.tuple.inj heq)
      rw [add_right_cancel_iff, val_inj (hargs.trans hargs'.symm)] at hval
      rw [Access.elem, Access.elem, hval]
    | tlsAssoc id' => exact absurd (Key.tuple.inj heq) (assoc_ne_tlsAssoc h hc' hv hargs hpad hv' hargs')
  | tlsAssoc id =>
    cases v' with
    | tls => cases heq
    | assoc id' => exact absurd (Key.tuple.inj heq).symm (assoc_ne_tlsAssoc h hc hv' hargs' hpad' hv hargs)
    | tlsAssoc id' =>
      obtain ⟨rfl, hval⟩ := (tuple_eq_iff hv hargs hv' hargs').1 (Key.tuple.inj heq)
      have hlt := hargs ▸ val_lt args
      have hlt' := hargs' ▸ val_lt args'
      obtain ⟨hargs_eq, htls⟩ := eq_of_add_mul_eq hlt hlt' hval
      obtain ⟨hslot, -⟩ := tlsKey_inj (eq_of_toNat_eq htls)
      rw [val_inj (hargs.trans hargs'.symm)] at hargs_eq
      rw [Access.elem, Access.elem, hargs_eq, h.threads ⟨id, .inr hv⟩ c hc c' hc' hslot]

lemma dtTlskey_congr {c c' : Ctx} (id : BitVec 32) (h : c.thread.slot P.ncpus = c'.thread.slot P.ncpus) :
    dtTlskey P.ncpus c id = dtTlskey P.ncpus c' id := by
  apply eq_of_toNat_eq
  rw [toNat_dtTlskey, toNat_dtTlskey, h]

lemma tlsKey_congr {c c' : Ctx} (id : BitVec 32) (h : c.thread.slot P.ncpus = c'.thread.slot P.ncpus) :
    tlsKey P.ncpus c id = tlsKey P.ncpus c' id := by
  simp only [tlsKey, dtTlskey_congr id h]

lemma key_eq_of_elem_eq {acc acc' : Access} (h : acc.elem = acc'.elem) : key P acc = key P acc' := by
  obtain ⟨v, _, c⟩ := acc
  obtain ⟨v', _, _⟩ := acc'
  cases v <;> cases v' <;> simp only [Access.elem, Elem.tls.injEq, Elem.assoc.injEq, Elem.tlsAssoc.injEq, reduceCtorEq] at h
  · obtain ⟨rfl, hthread⟩ := h
    exact tlsKey_congr _ (by rw [hthread])
  · obtain ⟨rfl, rfl⟩ := h
    rfl
  · obtain ⟨rfl, rfl, hthread⟩ := h
    simp only [key, dtTlskey_congr P.tlskeyId (congrArg (Thread.slot P.ncpus) hthread)]

/-- An access with a tuple of zeros. -/
def zeroTuple (P : Prog) (v : Var) (c : Ctx) : Access := ⟨v, replicate (P.size v) 0, c⟩

lemma valid_zeroTuple {v : Var} {c : Ctx} (hv : P.vars v) (hc : c ∈ C) : Valid P C (zeroTuple P v c) :=
  ⟨hv, length_replicate, fun i _ => eq_of_toNat_eq (by rw [zeroTuple, toNat_getD, val_zeros]; simp), hc⟩

lemma noAlias_of_key_inj (h : ∀ acc acc', Valid P C acc → Valid P C acc' → key P acc = key P acc' → acc.elem = acc'.elem) :
    NoAlias P C := by
  refine ⟨?_, fun id hv hv' c hc => ?_⟩
  · rintro ⟨id, hv | hv⟩ c hc c' hc' hslot
    · have heq := h _ _ (valid_zeroTuple hv hc) (valid_zeroTuple hv hc') (tlsKey_congr id hslot)
      exact (Elem.tls.inj heq).2
    · have heq := h _ _ (valid_zeroTuple hv hc) (valid_zeroTuple hv hc')
        (by simp only [zeroTuple, key, dtTlskey_congr P.tlskeyId hslot])
      exact (Elem.tlsAssoc.inj heq).2.2
  · -- otherwise a tuple of the global array reads like a tuple of zeros with the thread-local key
    by_contra hlt
    push Not at hlt
    obtain ⟨hlt, hpad⟩ := hlt
    have hval := val_ofNat hlt
    have hvalid : Valid P C
        ⟨.assoc id, ofNat (P.size (.assoc id)) (256 ^ P.size (.tlsAssoc id) * tlsNumber P c), c⟩ :=
      ⟨hv, length_ofNat _ _, fun i hi => eq_of_toNat_eq (by rw [toNat_getD, hval, hpad i hi]; rfl), hc⟩
    have heq := h _ _ hvalid (valid_zeroTuple hv' hc) ?_
    · cases heq
    · refine congrArg Key.tuple ((tuple_eq_iff hv (length_ofNat _ _) hv' length_replicate).2 ⟨rfl, ?_⟩)
      rw [hval, toNat_dtTlskey, ← tlsNumber, val_zeros]
      simp [zeroTuple]

end

end DTrace.Dvar
