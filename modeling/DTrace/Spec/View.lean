import DTrace.Lib.Queues
import DTrace.Spec.System

/-!
# What is in flight

The order in which records wait, and the CPU on which they do, matter only to the consumer's next step.  A view of the system
forgets them.

* `View` — the view; `flight` — the clauses that run and the records that wait;
* `Core` — what holds of every view: records in flight name an entry of `specs`, an entry's count covers them, and no
  record is lost but by a `discard()`;
* `Core.speculation`, `Core.setEntry`, `Core.remove`, `Core.add`, `Core.emit` — what the kernel and the clauses do keeps it.
-/

namespace DTrace.Spec

open Consume List Function Option Multiset

def recClause {β : Type} (r : Record ℕ β) : Clause := ⟨r.specid, r.gen, r.acts⟩

structure View (κ β : Type) where
  hdl : Hdl κ ℕ β
  running : Multiset Clause
  buffered : Multiset (κ × Record ℕ β)
  nextGen : ℕ
  speculated : Multiset (κ × Record ℕ β)
  commits : List ℕ
  discards : List ℕ
  consumed : List ℕ

section

variable {κ β : Type}

def ofGen (k : ℕ) (m : Multiset (κ × Record ℕ β)) : Multiset (κ × Record ℕ β) := m.filter fun x => x.2.gen = some k

namespace View

variable (v : View κ β)

/-- Clauses that run and records that wait. -/
def flight : Multiset Clause := v.running + v.buffered.map fun x => recClause x.2

/-- How many of them are for an identifier. -/
def flying (i : ℕ) : ℕ := v.flight.countP fun x => x.specid = i

/-- The records that are held back for an identifier. -/
def held (i : ℕ) : List (κ × Record ℕ β) := (v.hdl.specBufs i).elim [] SpecBuf.data

/-- The number of records that have been drained. -/
def read (i : ℕ) : ℕ := (v.hdl.specBufs i).elim 0 SpecBuf.read

/-- The records that have been handed out. -/
def handed : Multiset (κ × Record ℕ β) := v.hdl.handed

/-- Where the records of a speculation are, if `held` are held back. -/
def account (k : ℕ) (held : Multiset (κ × Record ℕ β)) : Multiset (κ × Record ℕ β) :=
  ofGen k v.buffered + held + ofGen k v.handed

end View

/-- The records of a speculation are accounted for: none is there twice, none is missing unless it has been discarded, and
none has been handed out unless it has been committed. -/
structure Balanced (v : View κ β) (k : ℕ) (held : Multiset (κ × Record ℕ β)) : Prop where
  le : v.account k held ≤ ofGen k v.speculated
  eq : k ∉ v.discards → v.account k held = ofGen k v.speculated
  unhanded : k ∉ v.commits → ofGen k v.handed = 0

/-- What is known of an action that commits or discards: there is an entry for its speculation only under its identifier,
and it is marked. -/
def FateOk (v : View κ β) (a : Act ℕ) : Prop :=
  ∀ id k, a = .commit id (some k) ∨ a = .discard id (some k) →
    k < v.nextGen ∧ ∀ i e, v.hdl.specs i = some e → e.gen = k → i = id ∧ e.draining = true

/-- A buffer of the consumer, and the entry of its identifier. -/
structure BufOk (v : View κ β) (e : DtBpfSpecs ℕ) (b : SpecBuf κ ℕ β) : Prop where
  gen : ∀ x ∈ b.data, x.2.gen = some e.gen
  clean : ∀ x ∈ b.data, x.2.isError = false ∧ x.2.acts.any Act.isFate = false
  marked : b.draining = true → e.draining = true ∧ b.written = e.written
  committed : b.draining = true → b.committing = true → e.gen ∈ v.commits
  discarded : b.draining = true → b.committing = false → e.gen ∈ v.discards
  unread : b.draining = false → b.read = 0

structure Core (v : View κ β) : Prop where
  zero : v.hdl.specs 0 = none
  fresh : ∀ i e, v.hdl.specs i = some e → e.gen < v.nextGen
  inj : ∀ i j e e', v.hdl.specs i = some e → v.hdl.specs j = some e' → e.gen = e'.gen → i = j
  spec : ∀ x ∈ v.flight, x.specid ≠ 0 → x.acts.any Act.isFate = false ∧
    ∃ e, v.hdl.specs x.specid = some e ∧ x.gen = some e.gen
  plain : ∀ x ∈ v.flight, x.specid = 0 → x.gen = none
  fate : ∀ x ∈ v.flight, ∀ a ∈ x.acts, FateOk v a
  decided : ∀ k, k ∈ v.commits ∨ k ∈ v.discards → k < v.nextGen ∧
    ∀ i e, v.hdl.specs i = some e → e.gen = k → e.draining = true
  logged : ∀ x ∈ v.buffered, ∀ a ∈ x.2.acts, ∀ k, (commitGen a = some k → k ∈ v.commits) ∧
    (discardGen a = some k → k ∈ v.discards)
  bufs : ∀ i b, v.hdl.specBufs i = some b → ∃ e, v.hdl.specs i = some e ∧ BufOk v e b
  mem_draining : ∀ i, i ∈ v.hdl.draining ↔ ∃ b, v.hdl.specBufs i = some b ∧ b.draining = true
  nodup : v.hdl.draining.Nodup
  count : ∀ i e, v.hdl.specs i = some e → v.flying i + (v.held i).length + v.read i ≤ e.written
  entry : ∀ i e, v.hdl.specs i = some e → Balanced v e.gen (v.held i)
  gone : ∀ k, (∀ i e, v.hdl.specs i = some e → e.gen ≠ k) → Balanced v k 0

/-! ## Entries of the map -/

lemma update_eq_some {α : Type} {f : ℕ → Option α} {i j : ℕ} {a b : α} (h : update f i (some a) j = some b) :
    j = i ∧ b = a ∨ j ≠ i ∧ f j = some b := by
  by_cases hj : j = i
  · subst hj
    rw [update_self] at h
    exact .inl ⟨rfl, (Option.some.inj h).symm⟩
  · rw [update_of_ne hj] at h
    exact .inr ⟨hj, h⟩

variable {v : View κ β}

theorem Core.speculation (h : Core v) {id : ℕ} (hid : id ≠ 0) (hnone : v.hdl.specs id = none) :
    Core { v with
      hdl := { v.hdl with specs := update v.hdl.specs id (some ⟨0, false, v.nextGen⟩) }
      nextGen := v.nextGen + 1 } := by
  have hbuf : v.hdl.specBufs id = none := by
    by_contra hne
    obtain ⟨b, hb⟩ := ne_none_iff_exists'.1 hne
    obtain ⟨e, he, -⟩ := h.bufs id b hb
    simp [hnone] at he
  have hkeep : ∀ i e, v.hdl.specs i = some e →
      update v.hdl.specs id (some ⟨0, false, v.nextGen⟩) i = some e := by
    intro i e he
    rw [update_of_ne]
    · exact he
    · rintro rfl
      simp [hnone] at he
  have hold : ∀ {k i e}, k < v.nextGen → update v.hdl.specs id (some ⟨0, false, v.nextGen⟩) i = some e → e.gen = k →
      v.hdl.specs i = some e := by
    intro k i e hlt he hgen
    rcases update_eq_some he with ⟨-, rfl⟩ | ⟨-, he⟩
    · exact absurd hgen hlt.ne'
    · exact he
  -- nothing of the new speculation can be around yet
  have hnew : ∀ i e, v.hdl.specs i = some e → e.gen ≠ v.nextGen := fun i e he => (h.fresh i e he).ne
  have hfly : v.flying id = 0 := by
    rw [View.flying, Multiset.countP_eq_zero]
    rintro x hx rfl
    obtain ⟨-, e, he, -⟩ := h.spec x hx hid
    simp [hnone] at he
  refine ⟨?_, ?_, ?_, ?_, h.plain, ?_, ?_, h.logged, ?_, h.mem_draining, h.nodup, ?_, ?_, ?_⟩
  · exact (update_of_ne hid.symm ..).trans h.zero
  · intro i e he
    rcases update_eq_some he with ⟨-, rfl⟩ | ⟨-, he⟩
    · exact Nat.lt_succ_self _
    · exact (h.fresh i e he).trans (Nat.lt_succ_self _)
  · intro i j e e' he he' heq
    rcases update_eq_some he with ⟨hi, rfl⟩ | ⟨-, hold⟩ <;> rcases update_eq_some he' with ⟨hj, rfl⟩ | ⟨-, hold'⟩
    · rw [hi, hj]
    · exact absurd heq.symm (hnew j e' hold')
    · exact absurd heq (hnew i e hold)
    · exact h.inj i j e e' hold hold' heq
  · intro x hx hne
    obtain ⟨hclean, e, he, hgen⟩ := h.spec x hx hne
    exact ⟨hclean, e, hkeep _ e he, hgen⟩
  · intro x hx a ha i k hk
    obtain ⟨hlt, hall⟩ := h.fate x hx a ha i k hk
    exact ⟨hlt.trans (Nat.lt_succ_self _), fun j e he hgen => hall j e (hold hlt he hgen) hgen⟩
  · intro k hk
    obtain ⟨hlt, hall⟩ := h.decided k hk
    exact ⟨hlt.trans (Nat.lt_succ_self _), fun j e he hgen => hall j e (hold hlt he hgen) hgen⟩
  · intro i b hb
    obtain ⟨e, he, hok⟩ := h.bufs i b hb
    exact ⟨e, hkeep i e he, { hok with }⟩
  · intro i e he
    rcases update_eq_some he with ⟨rfl, rfl⟩ | ⟨-, he⟩
    · have hzero : v.flying i + (v.held i).length + v.read i = 0 := by simp [hfly, View.held, View.read, hbuf]
      exact hzero.le
    · exact h.count i e he
  · intro i e he
    rcases update_eq_some he with ⟨rfl, rfl⟩ | ⟨-, he⟩
    · have hheld : v.held i = [] := by simp [View.held, hbuf]
      have hbal := h.gone v.nextGen hnew
      rw [← coe_nil, ← hheld] at hbal
      exact { hbal with }
    · exact { h.entry i e he with }
  · intro k hk
    refine { h.gone k fun i e he => hk i e (hkeep i e he) with }

theorem Core.setEntry (h : Core v) {id : ℕ} {e e' : DtBpfSpecs ℕ} (he : v.hdl.specs id = some e) (hgen : e'.gen = e.gen)
    (hdraining : e.draining = true → e'.draining = true) (hwritten : e.written ≤ e'.written)
    (hsame : e.draining = true → e'.written = e.written) :
    Core { v with hdl := { v.hdl with specs := update v.hdl.specs id (some e') } } := by
  -- what an entry is after the change, it was before, up to its count and its mark
  have hback : ∀ i f, update v.hdl.specs id (some e') i = some f →
      ∃ f0, v.hdl.specs i = some f0 ∧ f.gen = f0.gen ∧ (f0.draining = true → f.draining = true) ∧
        f0.written ≤ f.written := by
    intro i f hf
    rcases update_eq_some hf with ⟨rfl, rfl⟩ | ⟨-, hf⟩
    · exact ⟨e, he, hgen, hdraining, hwritten⟩
    · exact ⟨f, hf, rfl, fun hd => hd, le_rfl⟩
  have hforth : ∀ i f0, v.hdl.specs i = some f0 → ∃ f, update v.hdl.specs id (some e') i = some f ∧
      f.gen = f0.gen ∧ (f0.draining = true → f.draining = true ∧ f.written = f0.written) := by
    intro i f0 hf
    by_cases hi : i = id
    · subst hi
      obtain rfl := mem_unique hf he
      exact ⟨e', update_self .., hgen, fun hd => ⟨hdraining hd, hsame hd⟩⟩
    · exact ⟨f0, by rw [update_of_ne hi, hf], rfl, fun hd => ⟨hd, rfl⟩⟩
  refine ⟨?_, ?_, ?_, ?_, h.plain, ?_, ?_, h.logged, ?_, h.mem_draining, h.nodup, ?_, ?_, ?_⟩
  · by_contra hne
    obtain ⟨f, hf⟩ := ne_none_iff_exists'.1 hne
    obtain ⟨f0, hf0, -⟩ := hback 0 f hf
    simp [h.zero] at hf0
  · intro i f hf
    obtain ⟨f0, hf0, hg, -⟩ := hback i f hf
    rw [hg]
    exact h.fresh i f0 hf0
  · intro i j f f' hf hf' heq
    obtain ⟨f0, hf0, hg, -⟩ := hback i f hf
    obtain ⟨f0', hf0', hg', -⟩ := hback j f' hf'
    exact h.inj i j f0 f0' hf0 hf0' (by rw [← hg, ← hg', heq])
  · intro x hx hne
    obtain ⟨hclean, f0, hf0, hxgen⟩ := h.spec x hx hne
    obtain ⟨f, hf, hg, -⟩ := hforth _ f0 hf0
    exact ⟨hclean, f, hf, by rw [hg, hxgen]⟩
  · intro x hx a ha i k hk
    obtain ⟨hlt, hall⟩ := h.fate x hx a ha i k hk
    refine ⟨hlt, fun j f hf hk' => ?_⟩
    obtain ⟨f0, hf0, hg, hd, -⟩ := hback j f hf
    obtain ⟨hj, hmark⟩ := hall j f0 hf0 (by rw [← hg, hk'])
    exact ⟨hj, hd hmark⟩
  · intro k hk
    obtain ⟨hlt, hall⟩ := h.decided k hk
    refine ⟨hlt, fun j f hf hk' => ?_⟩
    obtain ⟨f0, hf0, hg, hd, -⟩ := hback j f hf
    exact hd (hall j f0 hf0 (by rw [← hg, hk']))
  · intro i b hb
    obtain ⟨f0, hf0, hok⟩ := h.bufs i b hb
    obtain ⟨f, hf, hg, hd⟩ := hforth i f0 hf0
    refine ⟨f, hf, ⟨by rw [hg]; exact hok.gen, hok.clean, fun hb => ?_, by rw [hg]; exact hok.committed,
      by rw [hg]; exact hok.discarded, hok.unread⟩⟩
    obtain ⟨hmark, hw⟩ := hok.marked hb
    obtain ⟨hmark', hw'⟩ := hd hmark
    exact ⟨hmark', by rw [hw, hw']⟩
  · intro i f hf
    obtain ⟨f0, hf0, -, -, hw⟩ := hback i f hf
    exact (h.count i f0 hf0).trans hw
  · intro i f hf
    obtain ⟨f0, hf0, hg, -⟩ := hback i f hf
    rw [hg]
    exact { h.entry i f0 hf0 with }
  · intro k hk
    refine { h.gone k fun i f0 hf0 => ?_ with }
    obtain ⟨f, hf, hg, -⟩ := hforth i f0 hf0
    rw [← hg]
    exact hk i f hf

/-! ## Clauses -/

section

variable {x : Clause} {R : Multiset Clause}

lemma flight_cons (v : View κ β) (x : Clause) (R : Multiset Clause) :
    ({ v with running := x ::ₘ R } : View κ β).flight = x ::ₘ ({ v with running := R } : View κ β).flight := by
  simp [View.flight]

lemma flying_cons (v : View κ β) (x : Clause) (R : Multiset Clause) (i : ℕ) :
    ({ v with running := x ::ₘ R } : View κ β).flying i =
      ({ v with running := R } : View κ β).flying i + if x.specid = i then 1 else 0 := by
  rw [View.flying, flight_cons, Multiset.countP_cons]
  rfl

/-- Clauses and records that go away, and take nothing of a speculation with them. -/
lemma Core.shrink {B : Multiset (κ × Record ℕ β)} (h : Core v)
    (hflight : ({ v with running := R, buffered := B } : View κ β).flight ≤ v.flight) (hB : ∀ x ∈ B, x ∈ v.buffered)
    (hbal : ∀ k held, Balanced v k held → Balanced { v with running := R, buffered := B } k held) :
    Core { v with running := R, buffered := B } := by
  refine ⟨h.zero, h.fresh, h.inj, fun y hy => h.spec y (mem_of_le hflight hy), fun y hy => h.plain y (mem_of_le hflight hy),
    fun y hy => h.fate y (mem_of_le hflight hy), h.decided, fun y hy => h.logged y (hB y hy), fun i b hb => ?_,
    h.mem_draining, h.nodup, fun i e he => ?_, fun i e he => hbal _ _ (h.entry i e he), fun k hk => hbal _ _ (h.gone k hk)⟩
  · obtain ⟨e, he, hok⟩ := h.bufs i b hb
    exact ⟨e, he, { hok with }⟩
  · have hfly : ({ v with running := R, buffered := B } : View κ β).flying i ≤ v.flying i := countP_le_of_le _ hflight
    exact (Nat.add_le_add_right (Nat.add_le_add_right hfly _) _).trans (h.count i e he)

theorem Core.remove (h : Core { v with running := x ::ₘ R }) : Core { v with running := R } := by
  refine h.shrink ?_ (fun _ hy => hy) fun _ _ hbal => { hbal with }
  rw [flight_cons]
  exact le_cons_self ..

/-- What a clause has to be to run: without a speculation, or for one whose entry counts it. -/
structure Joins (v : View κ β) (y : Clause) : Prop where
  plain : y.specid = 0 → y.gen = none
  spec : y.specid ≠ 0 → y.acts.any Act.isFate = false ∧ ∃ e, v.hdl.specs y.specid = some e ∧ y.gen = some e.gen ∧
    v.flying y.specid + (v.held y.specid).length + v.read y.specid + 1 ≤ e.written
  fate : ∀ a ∈ y.acts, FateOk v a

theorem Core.add {y : Clause} (h : Core v) (hy : Joins v y) : Core { v with running := y ::ₘ v.running } := by
  have hmem : ∀ z ∈ ({ v with running := y ::ₘ v.running } : View κ β).flight, z = y ∨ z ∈ v.flight := by
    intro z hz
    rw [flight_cons] at hz
    exact mem_cons.1 hz
  refine ⟨h.zero, h.fresh, h.inj, fun z hz hne => ?_, fun z hz hzero => ?_, fun z hz a ha => ?_,
    h.decided, h.logged, fun i b hb => ?_, h.mem_draining, h.nodup, fun i e he => ?_, fun i e he => ?_, fun k hk => ?_⟩
  · rcases hmem z hz with rfl | hz
    · obtain ⟨hclean, e, he, hgen, -⟩ := hy.spec hne
      exact ⟨hclean, e, he, hgen⟩
    · exact h.spec z hz hne
  · rcases hmem z hz with rfl | hz
    · exact hy.plain hzero
    · exact h.plain z hz hzero
  · rcases hmem z hz with rfl | hz
    · exact hy.fate a ha
    · exact h.fate z hz a ha
  · obtain ⟨e, he, hok⟩ := h.bufs i b hb
    exact ⟨e, he, { hok with }⟩
  · have hi : i ≠ 0 := by
      rintro rfl
      have hnone := h.zero
      rw [show v.hdl.specs 0 = some e from he] at hnone
      cases hnone
    rw [flying_cons]
    change v.flying i + _ + (v.held i).length + v.read i ≤ e.written
    have hcount := h.count i e he
    by_cases hyi : y.specid = i
    · subst hyi
      obtain ⟨-, f, hf, -, hlt⟩ := hy.spec hi
      obtain rfl := mem_unique hf he
      rw [if_pos rfl]
      omega
    · rw [if_neg hyi]
      omega
  · exact { h.entry i e he with }
  · exact { h.gone k hk with }

def View.emit (v : View κ β) (R : Multiset Clause) (x : Clause) (c : κ) (r : Record ℕ β) : View κ β :=
  { v with
    running := R
    buffered := (c, r) ::ₘ v.buffered
    speculated := if x.specid = 0 then v.speculated else (c, r) ::ₘ v.speculated
    commits := v.commits ++ x.acts.filterMap commitGen
    discards := v.discards ++ x.acts.filterMap discardGen }

variable {r : Record ℕ β}

lemma flight_emit (v : View κ β) (c : κ) (hr : recClause r = x) :
    (v.emit R x c r).flight = ({ v with running := x ::ₘ R } : View κ β).flight := by
  simp [View.flight, View.emit, hr, add_cons]

lemma ofGen_cons (k : ℕ) (y : κ × Record ℕ β) (m : Multiset (κ × Record ℕ β)) :
    ofGen k (y ::ₘ m) = (if y.2.gen = some k then {y} else 0) + ofGen k m :=
  filter_cons m

lemma Balanced.emit {k : ℕ} {held : Multiset (κ × Record ℕ β)} (h : Balanced v k held)
    (hr : recClause r = x) (hplain : x.specid = 0 → x.gen = none) (c : κ) : Balanced (v.emit R x c r) k held := by
  have hgen : r.gen = x.gen := by rw [← hr]; rfl
  have hacc : (v.emit R x c r).account k held = (if r.gen = some k then {(c, r)} else 0) + v.account k held := by
    simp only [View.account, View.emit, ofGen_cons, View.handed, add_assoc]
  have hspec : ofGen k (v.emit R x c r).speculated =
      (if r.gen = some k then {(c, r)} else 0) + ofGen k v.speculated := by
    change ofGen k (if x.specid = 0 then v.speculated else (c, r) ::ₘ v.speculated) = _
    by_cases hx : x.specid = 0
    · rw [if_pos hx, hgen, hplain hx, if_neg (by simp), zero_add]
    · rw [if_neg hx, ofGen_cons]
  refine ⟨?_, fun hk => ?_, fun hk => ?_⟩
  · rw [hacc, hspec]
    exact add_le_add le_rfl h.le
  · rw [hacc, hspec, h.eq fun hmem => hk (mem_append_left _ hmem)]
  · exact h.unhanded fun hmem => hk (mem_append_left _ hmem)

theorem Core.emit (h : Core { v with running := x ::ₘ R }) (hr : recClause r = x) (c : κ) :
    Core (v.emit R x c r) := by
  have hacts : r.acts = x.acts := by rw [← hr]; rfl
  have hx : x ∈ ({ v with running := x ::ₘ R } : View κ β).flight := by
    rw [flight_cons]
    exact mem_cons_self ..
  have hmem : ∀ y ∈ (v.emit R x c r).flight, y ∈ ({ v with running := x ::ₘ R } : View κ β).flight := by
    intro y hy
    rwa [flight_emit v c hr] at hy
  refine ⟨h.zero, h.fresh, h.inj, fun y hy => h.spec y (hmem y hy), fun y hy => h.plain y (hmem y hy),
    fun y hy a ha => h.fate y (hmem y hy) a ha, fun k hk => ?_, fun y hy a ha k => ?_, fun i b hb => ?_, h.mem_draining,
    h.nodup, fun i e he => ?_, fun i e he => ?_, fun k hk => ?_⟩
  · -- a speculation is decided now because an action of the clause names it
    have hcase : (k ∈ v.commits ∨ k ∈ v.discards) ∨ ∃ a ∈ x.acts, commitGen a = some k ∨ discardGen a = some k := by
      rcases hk with hk | hk
      · rcases mem_append.1 hk with hk | hk
        · exact .inl (.inl hk)
        · obtain ⟨a, ha, hak⟩ := mem_filterMap.1 hk
          exact .inr ⟨a, ha, .inl hak⟩
      · rcases mem_append.1 hk with hk | hk
        · exact .inl (.inr hk)
        · obtain ⟨a, ha, hak⟩ := mem_filterMap.1 hk
          exact .inr ⟨a, ha, .inr hak⟩
    rcases hcase with hk | ⟨a, ha, hak⟩
    · exact h.decided k hk
    · obtain ⟨id, hid⟩ : ∃ id, a = .commit id (some k) ∨ a = .discard id (some k) := by
        cases a with
        | data => simp [commitGen, discardGen] at hak
        | commit id gen => exact ⟨id, .inl (by simpa [commitGen, discardGen] using hak)⟩
        | discard id gen => exact ⟨id, .inr (by simpa [commitGen, discardGen] using hak)⟩
      obtain ⟨hlt, hall⟩ := h.fate x hx a ha id k hid
      exact ⟨hlt, fun i e he hgen => (hall i e he hgen).2⟩
  · rcases mem_cons.1 hy with rfl | hy
    · rw [hacts] at ha
      exact ⟨fun hk => mem_append_right _ (mem_filterMap.2 ⟨a, ha, hk⟩),
        fun hk => mem_append_right _ (mem_filterMap.2 ⟨a, ha, hk⟩)⟩
    · obtain ⟨hcommit, hdiscard⟩ := h.logged y hy a ha k
      exact ⟨fun hk => mem_append_left _ (hcommit hk), fun hk => mem_append_left _ (hdiscard hk)⟩
  · obtain ⟨e, he, hok⟩ := h.bufs i b hb
    exact ⟨e, he, { hok with
      committed := fun hd hc => mem_append_left _ (hok.committed hd hc)
      discarded := fun hd hc => mem_append_left _ (hok.discarded hd hc) }⟩
  · have hcount := h.count i e he
    rwa [View.flying, ← flight_emit v c hr] at hcount
  · have hbal : Balanced v e.gen (v.held i) := { h.entry i e he with }
    exact hbal.emit hr (h.plain x hx) c
  · have hbal : Balanced v k 0 := { h.gone k hk with }
    exact hbal.emit hr (h.plain x hx) c

end

end

end DTrace.Spec
