import DTrace.Usdt.NotesRead

/-!
# The tables after reading

What is known of the tables when all notes have been read and there was no error.

* `St.Same` — nothing but memory has changed;
* `parseNote_cases` — what one note does: nothing, a provider, or a tracepoint;
* `Collected` — the tables are tidy, and they have what the notes say;
* `readNotes_collected` — so it is after all notes.
-/

namespace DTrace.Usdt

open Lib Exec List

/-! ## What does not change the tables -/

/-- The tables, the messages and the history are the same. -/
structure St.Same (s s' : St) : Prop where
  prvmap : s'.prvmap = s.prvmap
  prbmap : s'.prbmap = s.prbmap
  out : s'.out = s.out
  seen : s'.seen = s.seen

/-- Code that has a result changes nothing but memory. -/
def Quiet {α : Type} (x : Exec St α) : Prop := ∀ s a s', x s = (some a, s') → s.Same s'

/-- What has been read has been read, and memory does not get smaller. -/
structure St.Le (s s' : St) : Prop where
  stray : s.stray = true → s'.stray = true
  mem : s.mem.length ≤ s'.mem.length

lemma St.Le.refl (s : St) : s.Le s := ⟨id, le_rfl⟩

lemma St.Le.trans {s s' s'' : St} (h : s.Le s') (h' : s'.Le s'') : s.Le s'' :=
  ⟨h'.stray ∘ h.stray, h.mem.trans h'.mem⟩

def Lasting {α : Type} (x : Exec St α) : Prop := Exec.Keeps St.Le x

/-- Code that reads. -/
structure Reads {α : Type} (x : Exec St α) : Prop where
  lasting : Lasting x
  quiet : Quiet x

section

variable {α β : Type} {s s' s'' : St}

lemma St.Same.refl (s : St) : s.Same s := ⟨rfl, rfl, rfl, rfl⟩

lemma St.Same.trans (h : s.Same s') (h' : s'.Same s'') : s.Same s'' :=
  ⟨h'.prvmap.trans h.prvmap, h'.prbmap.trans h.prbmap, h'.out.trans h.out, h'.seen.trans h.seen⟩

lemma quiet_pure (a : α) : Quiet (pure a : Exec St α) := by
  intro s b s' h
  cases h
  exact .refl s

lemma quiet_fail (errNo : Errno) (fmt : String) (args : List FmtArg) : Quiet (fail errNo fmt args : Exec St α) := by
  intro s b s' h
  cases h

variable {x : Exec St α} {f : α → Exec St β}

lemma Quiet.bind (hx : Quiet x) (hf : ∀ a, Quiet (f a)) : Quiet (x >>= f) := by
  intro s b s'' h
  obtain ⟨a, s', ha, hb⟩ := bind_eq_some.1 h
  exact (hx s a s' ha).trans (hf a s' b s'' hb)

variable {c : Prop}

lemma Quiet.ite [Decidable c] {y : Exec St α} (hx : Quiet x) (hy : Quiet y) : Quiet (if c then x else y) := by
  split
  · exact hx
  · exact hy

lemma lasting_pure (a : α) : Lasting (pure a : Exec St α) := .refl

lemma lasting_fail (errNo : Errno) (fmt : String) (args : List FmtArg) :
    Lasting (fail errNo fmt args : Exec St α) := fun _ => ⟨id, le_rfl⟩

lemma lasting_stop : Lasting (Exec.stop : Exec St α) := .refl

lemma lasting_get : Lasting (Exec.get : Exec St St) := .refl

lemma lasting_modify {f : St → St} (h : ∀ s : St, s.Le (f s)) : Lasting (Exec.modify f) := h

lemma Lasting.bind (hx : Lasting x) (hf : ∀ a, Lasting (f a)) :
    Lasting (x >>= f) := Exec.Keeps.bind (fun _ _ _ => St.Le.trans) hx hf

lemma Lasting.ite [Decidable c] {y : Exec St α} (hx : Lasting x) (hy : Lasting y) : Lasting (if c then x else y) := by
  split
  · exact hx
  · exact hy

lemma reads_pure (a : α) : Reads (pure a : Exec St α) := ⟨lasting_pure a, quiet_pure a⟩

lemma reads_fail (errNo : Errno) (fmt : String) (args : List FmtArg) : Reads (fail errNo fmt args : Exec St α) :=
  ⟨lasting_fail _ _ _, quiet_fail _ _ _⟩

lemma Reads.bind (hx : Reads x) (hf : ∀ a, Reads (f a)) : Reads (x >>= f) :=
  ⟨hx.lasting.bind fun a => (hf a).lasting, hx.quiet.bind fun a => (hf a).quiet⟩

lemma Reads.ite [Decidable c] {y : Exec St α} (hx : Reads x) (hy : Reads y) :
    Reads (if c then x else y) := ⟨hx.lasting.ite hy.lasting, hx.quiet.ite hy.quiet⟩

lemma Reads.same {a : α} (hx : Reads x) (h : x s = (some a, s')) : s.Same s' := hx.quiet s a s' h

/-- Something is read, or there is a fault. -/
lemma reads_of (h : ∀ s, (∃ a b, x s = (some a, { s with stray := s.stray || b })) ∨
    x s = (none, { s with stray := true })) : Reads x := by
  refine ⟨fun s => ?_, fun s a s' ha => ?_⟩
  · rcases h s with ⟨a, b, ha⟩ | ha
    · rw [ha]
      exact ⟨fun hs => by simp [hs], le_rfl⟩
    · rw [ha]
      exact ⟨fun _ => rfl, le_rfl⟩
  · rcases h s with ⟨_, b, ha'⟩ | ha'
    · obtain ⟨-, rfl⟩ := Prod.mk.inj (ha.symm.trans ha')
      exact ⟨rfl, rfl, rfl, rfl⟩
    · cases ha.symm.trans ha'

lemma reads_readBytes (w : Window) (a n : ℕ) : Reads (readBytes w a n) := by
  refine reads_of fun s => ?_
  rw [readBytes]
  split
  · exact .inl ⟨_, _, rfl⟩
  · exact .inr rfl

lemma reads_readByte (w : Window) (a : ℕ) : Reads (readByte w a) := (reads_readBytes w a 1).bind fun _ => reads_pure _

lemma reads_readNat (w : Window) (a n : ℕ) : Reads (readNat w a n) :=
  (reads_readBytes w a n).bind fun _ => reads_pure _

lemma reads_readWords (w : Window) (n a : ℕ) : Reads (readWords w n a) := by
  induction n generalizing a with
  | zero => exact reads_pure _
  | succ n ih => exact (reads_readNat w a 4).bind fun _ => (ih (a + 4)).bind fun _ => reads_pure _

lemma reads_readStr (w : Window) (a : ℕ) : Reads (readStr w a) := by
  refine reads_of fun s => ?_
  rw [readStr]
  split
  · exact .inl ⟨_, _, rfl⟩
  · exact .inr rfl

lemma reads_readRodata (ro : Rodata) (a : ℕ) : Reads (readRodata ro a) := by
  refine reads_of fun s => ?_
  rw [readRodata]
  split
  · exact .inl ⟨_, _, rfl⟩
  · exact .inr rfl

lemma reads_writeStr (a : ℕ) (str : Bytes) : Reads (writeStr a str) := by
  refine ⟨lasting_modify fun s => ⟨id, ?_⟩, fun s u s' h => ?_⟩
  · simp only [length_append, length_take, length_cons, length_drop]
    omega
  · cases h
    exact ⟨rfl, rfl, rfl, rfl⟩

lemma reads_strcmpLit (w : Window) (a : ℕ) (lit : Bytes) : Reads (strcmpLit w a lit) := by
  induction lit generalizing a with
  | nil => exact reads_pure _
  | cons c cs ih => exact (reads_readByte w a).bind fun _ => (ih (a + 1)).ite (reads_pure _)

lemma reads_strarraySize (w : Window) (skip cnt p : ℕ) : Reads (strarraySize w skip cnt p) := by
  induction cnt generalizing p with
  | zero => exact reads_pure _
  | succ cnt ih => exact (reads_pure _).ite ((reads_readStr w p).bind fun _ => ih _)

lemma reads_xlatArgs (w : Window) (cnt p : ℕ) : Reads (xlatArgs w cnt p) := by
  induction cnt generalizing p with
  | zero => exact reads_pure _
  | succ cnt ih =>
    exact (reads_readStr w p).bind fun _ => (reads_readByte w _).bind fun _ => (ih _).bind fun _ => reads_pure _

lemma reads_getNote (ctx : Ctx) (off : ℕ) : Reads (getNote ctx off) := by
  refine (reads_fail _ _ _).ite ((reads_fail _ _ _).ite ?_)
  refine (reads_readNat _ _ _).bind fun namesz => (reads_readNat _ _ _).bind fun descsz => ?_
  exact (reads_readNat _ _ _).bind fun _ => (reads_fail _ _ _).ite ((reads_fail _ _ _).ite (reads_pure _))

end

/-! ## One note -/

/-- A probe as a `prov` note defines it. -/
structure Probe.IsDef (prv mod : Bytes) (p : Probe) : Prop where
  prv : p.prv = prv
  mod : p.mod = mod
  fn : p.fn = none
  off : p.tp.off = 0

/-- A table of such probes. -/
structure Defs (prv mod : Bytes) (pmap : Htab Probe) : Prop where
  tidy : Tidy prbOps pmap
  size : pmap.size = tabSize pmap.list.length
  isDef : ∀ p ∈ pmap.list, p.IsDef prv mod

/-- What a `usdt` note says of a tracepoint: where it is, and the tracepoint. -/
def Probe.site (p : Probe) : Bytes × Option Bytes × Bytes × Tp := (p.prv, p.fn, p.prb, p.tp)

def UsdtNote.site (u : UsdtNote) : Bytes × Option Bytes × Bytes × Tp :=
  (u.prv, some u.fn, u.prb, ⟨u.off.setWidth 32, u.isEnabled, u.sargs⟩)

variable {note : Note} {ctx : Ctx}

section

variable {s s' : St} {w : Window} {pmap pmap' : Htab Probe} {prv : Bytes} {p : ℕ}

variable {q : Probe}

lemma lookup_prb :
    dtHtabLookup prbOps pmap q = dtHtabLookup prbOps pmap (Probe.key q.prv q.mod q.fn q.prb q.tp.off) :=
  lookup_congr rfl fun _ => rfl

lemma readNat_lt {a n v : ℕ} (h : readNat w a n s = (some v, s')) : v < 256 ^ n := by
  obtain ⟨_, _, hbs, h⟩ := bind_eq_some.1 h
  cases h
  rw [readBytes] at hbs
  split at hbs
  · cases hbs
    refine (Bytes.val_lt _).trans_le (Nat.pow_le_pow_right (by omega) ?_)
    rw [length_take]
    exact Nat.min_le_left _ _
  · cases hbs

lemma provProbe_some {r : Probe × ℕ} (h : provProbe ctx prv w pmap p s = (some r, s')) :
    s.Same s' ∧ r.1.IsDef prv ctx.mod ∧ dtHtabLookup prbOps pmap r.1 = none := by
  obtain ⟨_, _, hprb, h⟩ := bind_eq_some.1 h
  have h1 := (reads_readStr _ _).same hprb
  split at h
  · cases h
  split at h
  · cases h
  rename_i hnew
  obtain ⟨_, _, hnargc, h⟩ := bind_eq_some.1 h
  have h2 := h1.trans ((reads_readByte _ _).same hnargc)
  obtain ⟨r1, _, hsize, h⟩ := bind_eq_some.1 h
  have h3 := h2.trans ((reads_strarraySize _ _ _ _).same hsize)
  rcases r1 with _ | e
  · cases h
  dsimp only at h
  split at h
  · cases h
  obtain ⟨_, _, hargs, h⟩ := bind_eq_some.1 h
  have h4 := h3.trans ((reads_readBytes _ _ _).same hargs)
  obtain ⟨_, _, hxargc, h⟩ := bind_eq_some.1 h
  have h5 := h4.trans ((reads_readByte _ _).same hxargc)
  obtain ⟨r2, _, hxsize, h⟩ := bind_eq_some.1 h
  have h6 := h5.trans ((reads_strarraySize _ _ _ _).same hxsize)
  rcases r2 with _ | _
  · cases h
  obtain ⟨⟨_, _, _⟩, _, hxlat, h⟩ := bind_eq_some.1 h
  have h7 := h6.trans ((reads_xlatArgs _ _ _).same hxlat)
  cases h
  refine ⟨h7, ⟨rfl, rfl, rfl, rfl⟩, ?_⟩
  rw [lookup_prb]
  exact Option.not_isSome_iff_eq_none.1 hnew

lemma defs_create (prv mod : Bytes) : Defs prv mod dtHtabCreate := ⟨tidy_create, rfl, by simp⟩

lemma Defs.insert {mod : Bytes} (h : Defs prv mod pmap) (hq : q.IsDef prv mod)
    (hnew : dtHtabLookup prbOps pmap q = none) : Defs prv mod (dtHtabInsert prbOps pmap q) := by
  refine ⟨h.tidy.insert hnew, h.tidy.size_insert_eq hnew h.size, fun r hr => ?_⟩
  exact forall_mem_cons.2 ⟨hq, h.isDef⟩ r ((list_insert h.tidy.pos q).mem_iff.1 hr)

lemma provProbes_some {n : ℕ} (hdefs : Defs prv ctx.mod pmap)
    (h : provProbes ctx prv w n p pmap s = (some pmap', s')) :
    s.Same s' ∧ Defs prv ctx.mod pmap' ∧ pmap'.list.length = pmap.list.length + n := by
  induction n generalizing p pmap s with
  | zero =>
    cases h
    exact ⟨.refl _, hdefs, rfl⟩
  | succ n ih =>
    obtain ⟨⟨prp, _⟩, _, hprp, h⟩ := bind_eq_some.1 h
    obtain ⟨hsame, hdef, hnew⟩ := provProbe_some hprp
    have hperm : (dtHtabInsert prbOps pmap prp).list.Perm _ := list_insert hdefs.tidy.pos prp
    obtain ⟨hsame', hdefs'', hlen⟩ := ih (hdefs.insert hdef hnew) h
    rw [hperm.length_eq, length_cons] at hlen
    exact ⟨hsame.trans hsame', hdefs'', by omega⟩

def AddsProvider (ctx : Ctx) (s s' : St) : Prop :=
  ∃ name attrs pmap, dtHtabLookup prvOps s.prvmap (Provider.key name) = none ∧ Defs name ctx.mod pmap ∧
    pmap.list.length < 2 ^ 32 ∧ s'.prvmap = dtHtabInsert prvOps s.prvmap ⟨name, attrs, 0, pmap⟩ ∧
    s'.prbmap = s.prbmap ∧ s'.out = s.out ∧ s'.seen = s.seen

lemma parseProvNote_some (h : parseProvNote ctx note s = (some (), s')) : AddsProvider ctx s s' := by
  obtain ⟨name, _, hname, h⟩ := bind_eq_some.1 h
  have h1 := (reads_readStr _ _).same hname
  split at h
  · cases h
  obtain ⟨_, _, hget, h⟩ := bind_eq_some.1 h
  cases hget
  split at h
  · cases h
  rename_i hnew
  obtain ⟨attrs, _, hattrs, h⟩ := bind_eq_some.1 h
  have h2 := h1.trans ((reads_readWords _ _ _).same hattrs)
  obtain ⟨_, _, hprobec, h⟩ := bind_eq_some.1 h
  have h3 := h2.trans ((reads_readNat _ _ _).same hprobec)
  obtain ⟨pmap, _, hpmap, h⟩ := bind_eq_some.1 h
  obtain ⟨hsame, hdefs, hlen⟩ := provProbes_some (defs_create name ctx.mod) hpmap
  have h4 := h3.trans hsame
  cases h
  rw [h1.prvmap] at hnew
  refine ⟨name, attrs, pmap, Option.not_isSome_iff_eq_none.1 hnew, hdefs, ?_, ?_, h4.prbmap, h4.out, h4.seen⟩
  · have hval := readNat_lt hprobec
    rw [list_create, length_nil] at hlen
    omega
  · rw [← h4.prvmap]

def AddsProbe (ctx : Ctx) (s s' : St) : Prop :=
  ∃ u prp, dtHtabLookup prbOps s.prbmap prp = none ∧ prp.site = u.site ∧ prp.mod = ctx.mod ∧ prp.next = [] ∧
    s'.prbmap = dtHtabInsert prbOps s.prbmap prp ∧ s'.prvmap = s.prvmap ∧ s'.out = s.out ∧
    s'.seen = s.seen ++ [u]

lemma parseUsdtNote_some (h : parseUsdtNote ctx note s = (some (), s')) : AddsProbe ctx s s' := by
  rw [parseUsdtNote] at h
  rcases hro : ctx.rodata with _ | _
  · rw [hro] at h
    cases h
  rw [hro] at h
  dsimp only at h
  split at h
  · cases h
  obtain ⟨_, _, hoff, h⟩ := bind_eq_some.1 h
  have h1 := (reads_readNat _ _ _).same hoff
  obtain ⟨_, _, hfno, h⟩ := bind_eq_some.1 h
  have h2 := h1.trans ((reads_readNat _ _ _).same hfno)
  obtain ⟨_, _, hprv, h⟩ := bind_eq_some.1 h
  have h3 := h2.trans ((reads_readStr _ _).same hprv)
  split at h
  · cases h
  split at h
  · cases h
  obtain ⟨_, _, hname, h⟩ := bind_eq_some.1 h
  have h4 := h3.trans ((reads_readStr _ _).same hname)
  split at h
  · cases h
  obtain ⟨_, _, hwrite, h⟩ := bind_eq_some.1 h
  have h5 := h4.trans ((reads_writeStr _ _).same hwrite)
  obtain ⟨_, _, hfn, h⟩ := bind_eq_some.1 h
  have h6 := h5.trans ((reads_readRodata _ _).same hfn)
  obtain ⟨_, _, hget, h⟩ := bind_eq_some.1 h
  cases hget
  split at h
  · cases h
  rename_i hnew
  obtain ⟨_, _, hsargc, h⟩ := bind_eq_some.1 h
  have h7 := h6.trans ((reads_readByte _ _).same hsargc)
  obtain ⟨_, _, hsargs, h⟩ := bind_eq_some.1 h
  have h8 := h7.trans ((reads_readStr _ _).same hsargs)
  split at h
  · cases h
  cases h
  rw [h6.prbmap] at hnew
  rw [AddsProbe, ← h8.seen, ← h8.prbmap]
  rw [← h8.prbmap] at hnew
  refine ⟨_, _, ?_, ?_, rfl, rfl, rfl, h8.prvmap, h8.out, rfl⟩
  · rw [lookup_prb]
    exact Option.not_isSome_iff_eq_none.1 hnew
  · simp only [Probe.site, UsdtNote.site]
    rw [BitVec.setWidth_ofNat_of_le (by omega)]
    rfl

lemma parseNote_cases (h : parseNote ctx note s = (some (), s')) :
    s.Same s' ∨ AddsProvider ctx s s' ∨ AddsProbe ctx s s' := by
  obtain ⟨isProv, _, hcmp, h⟩ := bind_eq_some.1 h
  have h1 := (reads_strcmpLit _ _ _).same hcmp
  cases isProv with
  | true =>
    have hprov := parseProvNote_some h
    rw [AddsProvider, h1.prvmap, h1.prbmap, h1.out, h1.seen] at hprov
    exact .inr (.inl hprov)
  | false =>
    obtain ⟨isUsdt, _, hcmp, h⟩ := bind_eq_some.1 h
    have h2 := h1.trans ((reads_strcmpLit _ _ _).same hcmp)
    cases isUsdt with
    | true =>
      have husdt := parseUsdtNote_some h
      rw [AddsProbe, h2.prvmap, h2.prbmap, h2.out, h2.seen] at husdt
      exact .inr (.inr husdt)
    | false =>
      refine .inl (h2.trans (Reads.same ((reads_strcmpLit _ _ _).bind fun _ => (reads_pure ()).ite ?_) h))
      refine (reads_strcmpLit _ _ _).bind fun _ => (reads_pure ()).ite ?_
      exact (reads_readStr _ _).bind fun _ => reads_fail _ _ _

end

/-! ## All notes -/

/-- What is known when some notes have been read: the tables are tidy, the providers have their definitions, and the
tracepoints are those of the notes. -/
structure Collected (ctx : Ctx) (s : St) : Prop where
  prvTidy : Tidy prvOps s.prvmap
  defs : ∀ pvp ∈ s.prvmap.list, Defs pvp.name ctx.mod pvp.pmap
  few : ∀ pvp ∈ s.prvmap.list, pvp.pmap.list.length < 2 ^ 32
  probec : ∀ pvp ∈ s.prvmap.list, pvp.probec = 0
  prbTidy : Tidy prbOps s.prbmap
  sites : (s.prbmap.list.map Probe.site).Perm (s.seen.map UsdtNote.site)
  fresh : ∀ p ∈ s.prbmap.list, p.mod = ctx.mod ∧ p.next = []
  out : s.out = []

section

variable {s s' : St}

lemma collected_init (ctx : Ctx) (mem : Bytes) : Collected ctx (St.init mem) where
  prvTidy := tidy_create
  defs := by simp [St.init]
  few := by simp [St.init]
  probec := by simp [St.init]
  prbTidy := tidy_create
  sites := by simp [St.init]
  fresh := by simp [St.init]
  out := rfl

lemma Collected.same (h : Collected ctx s) (hs : s.Same s') : Collected ctx s' := by
  obtain ⟨hprv, hprb, hout, hseen⟩ := hs
  constructor
  · exact hprv ▸ h.prvTidy
  · exact hprv ▸ h.defs
  · exact hprv ▸ h.few
  · exact hprv ▸ h.probec
  · exact hprb ▸ h.prbTidy
  · rw [hprb, hseen]
    exact h.sites
  · exact hprb ▸ h.fresh
  · exact hout.trans h.out

lemma Collected.parseNote (h : Collected ctx s) (hnote : parseNote ctx note s = (some (), s')) :
    Collected ctx s' := by
  rcases parseNote_cases hnote with hsame | ⟨name, attrs, pmap, hnew, hdefs, hfew, hprv, hprb, hout, hseen⟩ |
    ⟨u, prp, hnew, hsite, hmod, hnext, hprb, hprv, hout, hseen⟩
  · exact h.same hsame
  · have hlist : (dtHtabInsert prvOps s.prvmap ⟨name, attrs, 0, pmap⟩).list.Perm _ := list_insert h.prvTidy.pos _
    rw [← hprv] at hlist
    -- the new provider, and the old ones
    have hall : ∀ P : Provider → Prop, P ⟨name, attrs, 0, pmap⟩ → (∀ pvp ∈ s.prvmap.list, P pvp) →
        ∀ pvp ∈ s'.prvmap.list, P pvp := by
      intro P hP hold pvp hpvp
      exact forall_mem_cons.2 ⟨hP, hold⟩ pvp (hlist.mem_iff.1 hpvp)
    have hlookup :=
      (lookup_congr rfl fun _ => rfl).trans hnew
    constructor
    · rw [hprv]
      exact h.prvTidy.insert hlookup
    · exact hall _ hdefs h.defs
    · exact hall _ hfew h.few
    · exact hall _ rfl h.probec
    · exact hprb ▸ h.prbTidy
    · rw [hprb, hseen]
      exact h.sites
    · exact hprb ▸ h.fresh
    · exact hout.trans h.out
  · have hlist : (dtHtabInsert prbOps s.prbmap prp).list.Perm _ := list_insert h.prbTidy.pos prp
    rw [← hprb] at hlist
    constructor
    · exact hprv ▸ h.prvTidy
    · exact hprv ▸ h.defs
    · exact hprv ▸ h.few
    · exact hprv ▸ h.probec
    · rw [hprb]
      exact h.prbTidy.insert hnew
    · rw [hseen, map_append]
      refine (hlist.map _).trans (List.Perm.trans ?_ perm_append_comm)
      rw [map_cons, hsite]
      exact h.sites.cons _
    · intro p hp
      exact forall_mem_cons.2 ⟨⟨hmod, hnext⟩, h.fresh⟩ p (hlist.mem_iff.1 hp)
    · exact hout.trans h.out

theorem readNotes_collected {n off : ℕ} (h : Collected ctx s) (hread : readNotes ctx n off s = (some (), s')) :
    Collected ctx s' := by
  induction n generalizing off s with
  | zero => cases hread
  | succ n ih =>
    obtain ⟨⟨_, _⟩, _, hget, hread⟩ := bind_eq_some.1 hread
    obtain ⟨_, _, hnote, hread⟩ := bind_eq_some.1 hread
    have h2 := (h.same ((reads_getNote _ _).same hget)).parseNote hnote
    split at hread
    · cases hread
      exact h2
    · exact ih h2 hread

lemma getNote_next {off off' : ℕ} (h : getNote ctx off s = (some (note, off'), s')) : off' = 0 ∨ off + 12 ≤ off' := by
  rw [getNote] at h
  split at h
  · cases h
  split at h
  · cases h
  obtain ⟨_, _, -, h⟩ := bind_eq_some.1 h
  obtain ⟨_, _, -, h⟩ := bind_eq_some.1 h
  obtain ⟨_, _, -, h⟩ := bind_eq_some.1 h
  split at h
  · cases h
  dsimp only at h
  split at h
  · cases h
  cases h
  split
  · exact .inl rfl
  · exact .inr (by omega)

lemma readNotes_enough {n off : ℕ} (h : ctx.size ≤ off + n) (s : St) :
    readNotes ctx (n + 2) off s = readNotes ctx (n + 1) off s := by
  induction n generalizing off s with
  | zero =>
    have hfail : getNote ctx off s = fail .einval "Invalid ELF note offset %zi" [.num off] s := by
      rw [getNote, if_pos (.inl (by omega))]
    rw [readNotes, readNotes, bind_none hfail, bind_none hfail]
  | succ n ih =>
    rw [readNotes, readNotes]
    rcases hget : getNote ctx off s with ⟨_ | ⟨note, _⟩, s1⟩
    · rw [bind_none hget, bind_none hget]
    rw [bind_some hget, bind_some hget]
    dsimp only
    rcases hnote : Usdt.parseNote ctx note s1 with ⟨_ | _, s2⟩
    · rw [bind_none hnote, bind_none hnote]
    rw [bind_some hnote, bind_some hnote]
    rcases getNote_next hget with rfl | hnext
    · rfl
    · rw [if_neg (by omega), if_neg (by omega)]
      exact ih (by omega) s2

/-- The loop of `usdt_parse_notes` ends by itself. -/
lemma readNotes_fuel (k : ℕ) (s : St) : readNotes ctx (ctx.size + 1 + k) 0 s = readNotes ctx (ctx.size + 1) 0 s := by
  induction k with
  | zero => rfl
  | succ k ih =>
    rw [← ih, show ctx.size + 1 + (k + 1) = ctx.size + k + 2 by omega, show ctx.size + 1 + k = ctx.size + k + 1 by omega]
    exact readNotes_enough (by omega) s

end

end DTrace.Usdt
