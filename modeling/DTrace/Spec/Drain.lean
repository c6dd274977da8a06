import DTrace.Spec.View
import Mathlib.Tactic.Abel

/-!
# The consumer's steps

What a record that is taken from a buffer does to the view, piece by piece: it leaves its buffer and is held back, or its
actions start to drain buffers, and buffers are drained.

* `Core.pop`, `Core.hive`, `Core.setDraining`, `Core.drainOne` — the pieces keep what holds of every view;
* `Core.consumeSpec`, `Core.consumePlain` — so does the whole.
-/

namespace DTrace.Spec

open Consume List Option Function

section

variable {κ β : Type} {v : View κ β} {B : Multiset (κ × Record ℕ β)} {c : κ} {r : Record ℕ β}

/-! ## A record leaves its buffer -/

lemma flight_buffered_cons (v : View κ β) (c : κ) (r : Record ℕ β) (B : Multiset (κ × Record ℕ β)) :
    ({ v with buffered := (c, r) ::ₘ B } : View κ β).flight =
      recClause r ::ₘ ({ v with buffered := B } : View κ β).flight := by
  simp [View.flight, Multiset.add_cons]

lemma flying_buffered_cons (v : View κ β) (c : κ) (r : Record ℕ β) (B : Multiset (κ × Record ℕ β)) (i : ℕ) :
    ({ v with buffered := (c, r) ::ₘ B } : View κ β).flying i =
      ({ v with buffered := B } : View κ β).flying i + if r.specid = i then 1 else 0 := by
  rw [View.flying, flight_buffered_cons, Multiset.countP_cons]
  rfl

lemma mem_flight_of_tail {x : Clause} (hx : x ∈ ({ v with buffered := B } : View κ β).flight) :
    x ∈ ({ v with buffered := (c, r) ::ₘ B } : View κ β).flight := by
  rw [flight_buffered_cons]
  exact Multiset.mem_cons_of_mem hx

lemma recClause_mem_flight : recClause r ∈ ({ v with buffered := (c, r) ::ₘ B } : View κ β).flight := by
  rw [flight_buffered_cons]
  exact Multiset.mem_cons_self ..

variable {k : ℕ} {e : DtBpfSpecs ℕ} {l : List (κ × Record ℕ β)} {b : SpecBuf κ ℕ β} {id : ℕ} {i : ℕ}

variable {held : Multiset (κ × Record ℕ β)}

lemma Balanced.pop
    (h : Balanced { v with buffered := (c, r) ::ₘ B } k held) (hr : r.gen ≠ some k) :
    Balanced { v with buffered := B } k held := by
  have hacc : ({ v with buffered := (c, r) ::ₘ B } : View κ β).account k held =
      ({ v with buffered := B } : View κ β).account k held := by
    simp only [View.account, ofGen_cons, if_neg hr, zero_add]
    rfl
  exact ⟨hacc ▸ h.le, fun hk => hacc ▸ h.eq hk, h.unhanded⟩

theorem Core.pop (h : Core { v with buffered := (c, r) ::ₘ B }) (hr : r.specid = 0) : Core { v with buffered := B } := by
  have hgen : r.gen = none := h.plain _ recClause_mem_flight hr
  refine h.shrink ?_ (fun _ hx => Multiset.mem_cons_of_mem hx) fun _ _ hbal => Balanced.pop hbal (by simp [hgen])
  rw [flight_buffered_cons]
  exact Multiset.le_cons_self ..

/-- The view with another buffer for an identifier, and another list of those that are being drained. -/
def View.setBuf (v : View κ β) (id : ℕ) (b : SpecBuf κ ℕ β) (L : List ℕ) : View κ β :=
  { v with hdl := { v.hdl with specBufs := update v.hdl.specBufs id (some b), draining := L } }

lemma held_setBuf (v : View κ β) (id : ℕ) (b : SpecBuf κ ℕ β) (L : List ℕ) (i : ℕ) :
    (v.setBuf id b L).held i = if i = id then b.data else v.held i := by
  by_cases hi : i = id
  · subst hi
    simp [View.held, View.setBuf]
  · simp [View.held, View.setBuf, hi]

lemma read_setBuf (v : View κ β) (id : ℕ) (b : SpecBuf κ ℕ β) (L : List ℕ) (i : ℕ) :
    (v.setBuf id b L).read i = if i = id then b.read else v.read i := by
  by_cases hi : i = id
  · subst hi
    simp [View.read, View.setBuf]
  · simp [View.read, View.setBuf, hi]

/-- Another buffer, and other lists of the records that wait and that have been handed out: it has to be right for the
speculation of its identifier, and the others have what they had. -/
lemma Core.setBuf {H : List (κ × Record ℕ β)} {L : List ℕ} (h : Core v) (he : v.hdl.specs id = some e) (hok : BufOk v e b)
    (hflight : ({ v with buffered := B } : View κ β).flight ≤ v.flight) (hB : ∀ x ∈ B, x ∈ v.buffered) (hL : L.Nodup)
    (hdrain : ∀ i, i ∈ L ↔ if i = id then b.draining = true else i ∈ v.hdl.draining)
    (hcount : ({ v with buffered := B } : View κ β).flying id + b.data.length + b.read ≤ e.written)
    (hentry : Balanced { v with buffered := B, hdl := { v.hdl with handed := H } } e.gen b.data)
    (hother : ∀ k held, k ≠ e.gen → Balanced v k held →
      Balanced { v with buffered := B, hdl := { v.hdl with handed := H } } k held) :
    Core (View.setBuf { v with buffered := B, hdl := { v.hdl with handed := H } } id b L) := by
  refine ⟨h.zero, h.fresh, h.inj, fun x hx => h.spec x (Multiset.mem_of_le hflight hx),
    fun x hx => h.plain x (Multiset.mem_of_le hflight hx), fun x hx => h.fate x (Multiset.mem_of_le hflight hx), h.decided,
    fun x hx => h.logged x (hB x hx), fun i b' hb' => ?_, fun i => ?_, hL, fun i f hf => ?_, fun i f hf => ?_,
    fun k hk => { hother k 0 (hk id e he).symm (h.gone k hk) with }⟩
  · rcases update_eq_some hb' with ⟨rfl, rfl⟩ | ⟨-, hb'⟩
    · exact ⟨e, he, { hok with }⟩
    · obtain ⟨f, hf, hfok⟩ := h.bufs i b' hb'
      exact ⟨f, hf, { hfok with }⟩
  · refine (hdrain i).trans ?_
    by_cases hi : i = id
    · simp [hi, View.setBuf]
    · simp [hi, View.setBuf, h.mem_draining]
  · rw [held_setBuf, read_setBuf]
    by_cases hi : i = id
    · subst hi
      obtain rfl := mem_unique hf he
      rw [if_pos rfl, if_pos rfl]
      exact hcount
    · have hfly : ({ v with buffered := B } : View κ β).flying i ≤ v.flying i := Multiset.countP_le_of_le _ hflight
      rw [if_neg hi, if_neg hi]
      exact (Nat.add_le_add_right (Nat.add_le_add_right hfly _) _).trans (h.count i f hf)
  · rw [held_setBuf]
    by_cases hi : i = id
    · subst hi
      obtain rfl := mem_unique hf he
      rw [if_pos rfl]
      exact { hentry with }
    · rw [if_neg hi]
      exact { hother _ _ (fun heq => hi (h.inj i id f e hf he heq)) (h.entry i f hf) with }

def addTo (v : View κ β) (c : κ) (r : Record ℕ β) : SpecBuf κ ℕ β :=
  ((v.hdl.specBufs r.specid).getD .new).addData c r

def View.hive (v : View κ β) (B : Multiset (κ × Record ℕ β)) (c : κ) (r : Record ℕ β) : View κ β :=
  { v with
    buffered := B
    hdl := { v.hdl with specBufs := update v.hdl.specBufs r.specid (some (addTo v c r)) } }

lemma addTo_data : (addTo v c r).data = v.held r.specid ++ [(c, r)] := by
  unfold addTo View.held
  cases v.hdl.specBufs r.specid <;> rfl

lemma addTo_read : (addTo v c r).read = v.read r.specid := by
  unfold addTo View.read
  cases v.hdl.specBufs r.specid <;> rfl

lemma held_hive (i : ℕ) : (v.hive B c r).held i = if i = r.specid then v.held i ++ [(c, r)] else v.held i := by
  refine (held_setBuf { v with buffered := B } _ (addTo v c r) v.hdl.draining i).trans ?_
  split_ifs with hi
  · rw [addTo_data, hi]
  · rfl

lemma read_hive (i : ℕ) : (v.hive B c r).read i = v.read i := by
  refine (read_setBuf { v with buffered := B } _ (addTo v c r) v.hdl.draining i).trans ?_
  split_ifs with hi
  · rw [addTo_read, hi]
  · rfl

lemma bufOk_addTo (h : ∀ b, v.hdl.specBufs r.specid = some b → BufOk v e b) (hgen : r.gen = some e.gen)
    (herr : r.isError = false) (hclean : r.acts.any Act.isFate = false) : BufOk v e (addTo v c r) := by
  unfold addTo
  cases hb : v.hdl.specBufs r.specid with
  | none =>
    refine ⟨fun x hx => ?_, fun x hx => ?_, fun hd => ?_, fun hd => ?_, fun hd => ?_, fun _ => rfl⟩
    · obtain rfl := mem_singleton.1 hx
      exact hgen
    · obtain rfl := mem_singleton.1 hx
      exact ⟨herr, hclean⟩
    all_goals cases hd
  | some b =>
    have hok := h b hb
    exact { hok with
      gen := forall_mem_append.2 ⟨hok.gen, forall_mem_singleton.2 hgen⟩
      clean := forall_mem_append.2 ⟨hok.clean, forall_mem_singleton.2 ⟨herr, hclean⟩⟩ }

lemma Balanced.hive (h : Balanced { v with buffered := (c, r) ::ₘ B } k l)
    (hr : r.gen = some k) : Balanced (v.hive B c r) k (l ++ [(c, r)] : List (κ × Record ℕ β)) := by
  have hacc : (v.hive B c r).account k (l ++ [(c, r)] : List (κ × Record ℕ β)) =
      ({ v with buffered := (c, r) ::ₘ B } : View κ β).account k l := by
    simp only [View.account, ofGen_cons, if_pos hr, ← Multiset.coe_add, Multiset.coe_singleton]
    change ofGen k B + (↑l + {(c, r)}) + ofGen k v.handed = {(c, r)} + ofGen k B + ↑l + ofGen k v.handed
    abel
  exact ⟨hacc ▸ h.le, fun hk => hacc ▸ h.eq hk, h.unhanded⟩

theorem Core.hive (h : Core { v with buffered := (c, r) ::ₘ B }) (hr : r.specid ≠ 0) (herr : r.isError = false) :
    Core (v.hive B c r) := by
  obtain ⟨hclean, e, he, hgen⟩ : _ ∧ ∃ e, v.hdl.specs r.specid = some e ∧ r.gen = some e.gen :=
    h.spec _ recClause_mem_flight hr
  have hbuf : BufOk v e (addTo v c r) := by
    refine bufOk_addTo (fun b hb => ?_) hgen herr hclean
    obtain ⟨f, hf, hok⟩ := h.bufs _ b hb
    obtain rfl := mem_unique hf he
    exact { hok with }
  refine h.setBuf he { hbuf with } (flight_buffered_cons v c r B ▸ Multiset.le_cons_self ..)
    (fun _ hx => Multiset.mem_cons_of_mem hx) h.nodup (fun i => ?_) ?_ ?_ fun k held hk hbal => { Balanced.pop hbal ?_ with }
  · split_ifs with hi
    · refine hi ▸ (h.mem_draining r.specid).trans ?_
      cases hb : v.hdl.specBufs r.specid <;> simp [addTo, hb, SpecBuf.addData, SpecBuf.new]
    · rfl
  · have hcount := h.count _ e he
    rw [flying_buffered_cons, if_pos rfl] at hcount
    change _ + (v.held r.specid).length + v.read r.specid ≤ _ at hcount
    change ({ v with buffered := B } : View κ β).flying r.specid + _ + _ ≤ _
    rw [addTo_data, addTo_read, length_append, length_singleton]
    omega
  · rw [addTo_data]
    exact { Balanced.hive (h.entry _ e he) hgen with }
  · exact fun heq => hk (Option.some.inj (heq.symm.trans hgen))

/-! ## Buffers start to be drained -/

/-- An action that is consumed names the speculation of the buffer it is about, if there is one. -/
def Timely (h : Hdl κ ℕ β) (a : Act ℕ) : Prop :=
  ∀ id gen, a = .commit id gen ∨ a = .discard id gen → ∀ b e, h.specBufs id = some b → h.specs id = some e →
    gen = some e.gen

/-- The identifier that an action is about. -/
def fateId : Act ℕ → Option ℕ
  | .data => none
  | .commit id _ => some id
  | .discard id _ => some id

/-- What actions do to the buffer of an identifier: they start to drain it if one of them is about it. -/
def Marks (h h' : Hdl κ ℕ β) (named : Prop) (i : ℕ) : Prop :=
  h'.specBufs i = h.specBufs i ∧ (named → ∀ b, h.specBufs i = some b → b.draining = true) ∨
    ∃ b b', h.specBufs i = some b ∧ h'.specBufs i = some b' ∧ b'.draining = true ∧ b'.data = b.data ∧ b'.read = b.read

lemma Core.mark (h : Core v) (he : v.hdl.specs id = some e)
    (hb : v.hdl.specBufs id = some b) (hd : b.draining = false) (hmark : e.draining = true) {committing : Bool}
    (hfate : if committing then e.gen ∈ v.commits else e.gen ∈ v.discards) :
    Core (v.setBuf id { b with committing := committing, written := e.written, draining := e.draining, read := 0 }
      (v.hdl.draining ++ [id])) := by
  obtain ⟨f, hf, hok⟩ := h.bufs id b hb
  obtain rfl := mem_unique hf he
  have hheld : v.held id = b.data := by simp [View.held, hb]
  have hout : id ∉ v.hdl.draining := fun hin => by
    obtain ⟨_, hb', hd'⟩ := (h.mem_draining id).1 hin
    obtain rfl := mem_unique hb' hb
    exact absurd (hd'.symm.trans hd) (by decide)
  refine h.setBuf he ⟨hok.gen, hok.clean, fun _ => ⟨hmark, rfl⟩, fun _ hc => ?_, fun _ hc => ?_, fun hn => ?_⟩ le_rfl
    (fun _ hx => hx) ?_ (fun i => ?_) ?_ (hheld ▸ h.entry id f he) fun _ _ _ hbal => hbal
  · obtain rfl : committing = true := hc
    exact hfate
  · obtain rfl : committing = false := hc
    exact hfate
  · exact absurd (hmark.symm.trans hn) (by decide)
  · exact nodup_append.2 ⟨h.nodup, nodup_singleton _, fun i hi j hj hij => hout (mem_singleton.1 hj ▸ hij ▸ hi)⟩
  · split_ifs with hi
    · simp [hi, hmark]
    · simp [hi]
  · have hcount := h.count id f he
    rw [hheld] at hcount
    exact (Nat.add_le_add_left (Nat.zero_le _) _).trans hcount

lemma Core.setDraining (h : Core v) (id : ℕ) (committing : Bool)
    (hfate : ∀ b e, v.hdl.specBufs id = some b → v.hdl.specs id = some e →
      e.draining = true ∧ if committing then e.gen ∈ v.commits else e.gen ∈ v.discards) :
    ∃ h', v.hdl.setDraining id committing = .ok h' ∧ Core { v with hdl := h' } ∧ h'.specs = v.hdl.specs ∧
      ∀ i, Marks v.hdl h' (id = i) i := by
  unfold Hdl.setDraining
  cases hb : v.hdl.specBufs id with
  | none =>
    refine ⟨_, rfl, h, rfl, fun i => .inl ⟨rfl, ?_⟩⟩
    rintro rfl b hb'
    simp [hb] at hb'
  | some b =>
    by_cases hd : b.draining = true
    · simp only [hd, if_true]
      refine ⟨_, rfl, h, rfl, fun i => .inl ⟨rfl, ?_⟩⟩
      rintro rfl b' hb'
      obtain rfl := mem_unique hb hb'
      exact hd
    · obtain ⟨e, he, hok⟩ := h.bufs id b hb
      obtain ⟨hmark, hwhich⟩ := hfate b e hb he
      have hoff : b.draining = false := by simpa using hd
      simp only [hoff, he, if_pos hmark, Bool.false_eq_true, if_false]
      refine ⟨_, rfl, h.mark he hb hoff hmark hwhich, rfl, fun i => ?_⟩
      by_cases hi : i = id
      · subst hi
        exact .inr ⟨b, _, hb, update_self .., hmark, rfl, (hok.unread hoff).symm⟩
      · exact .inl ⟨update_of_ne hi .., fun heq => absurd heq.symm hi⟩

/-- What has to be known of an action that is consumed. -/
structure ActOk (v : View κ β) (a : Act ℕ) : Prop where
  fate : FateOk v a
  logged : ∀ k, (commitGen a = some k → k ∈ v.commits) ∧ (discardGen a = some k → k ∈ v.discards)
  timely : Timely v.hdl a

lemma Core.act (h : Core v) {a : Act ℕ} (ha : ActOk v a) :
    ∃ h', v.hdl.act a = .ok h' ∧ Core { v with hdl := h' } ∧ h'.specs = v.hdl.specs ∧
      ∀ i, Marks v.hdl h' (fateId a = some i) i := by
  cases a with
  | data => exact ⟨_, rfl, h, rfl, fun i => .inl ⟨rfl, by simp [fateId]⟩⟩
  | commit id gen =>
    obtain ⟨h', hh', hcore, hspecs, hmarks⟩ := h.setDraining id true fun b e hb he => by
      obtain rfl := ha.timely id gen (.inl rfl) b e hb he
      exact ⟨((ha.fate id _ (.inl rfl)).2 id e he rfl).2, (ha.logged _).1 rfl⟩
    exact ⟨h', hh', hcore, hspecs, fun i => by simpa [fateId] using hmarks i⟩
  | discard id gen =>
    obtain ⟨h', hh', hcore, hspecs, hmarks⟩ := h.setDraining id false fun b e hb he => by
      obtain rfl := ha.timely id gen (.inr rfl) b e hb he
      exact ⟨((ha.fate id _ (.inr rfl)).2 id e he rfl).2, (ha.logged _).2 rfl⟩
    exact ⟨h', hh', hcore, hspecs, fun i => by simpa [fateId] using hmarks i⟩

variable {p : Prop}

lemma Marks.trans {h1 h2 h3 : Hdl κ ℕ β} {q : Prop} (h : Marks h1 h2 p i) (h' : Marks h2 h3 q i) :
    Marks h1 h3 (p ∨ q) i := by
  rcases h with ⟨heq, hp⟩ | ⟨b, b', hb, hb', hd, hdata, hread⟩
  · rcases h' with ⟨heq', hq⟩ | ⟨b, b', hb, hb', hd, hdata, hread⟩
    · refine .inl ⟨heq'.trans heq, fun hpq b hb => ?_⟩
      rcases hpq with hp' | hq'
      · exact hp hp' b hb
      · exact hq hq' b (heq.trans hb)
    · exact .inr ⟨b, b', heq.symm.trans hb, hb', hd, hdata, hread⟩
  · rcases h' with ⟨heq', -⟩ | ⟨d, d', hd1, hd', hd2, hdata', hread'⟩
    · exact .inr ⟨b, b', hb, heq'.trans hb', hd, hdata, hread⟩
    · obtain rfl := mem_unique hd1 hb'
      exact .inr ⟨b, d', hb, hd', hd2, hdata'.trans hdata, hread'.trans hread⟩

lemma Marks.isSome {h1 h2 : Hdl κ ℕ β} (h : Marks h1 h2 p i)
    (hb : h2.specBufs i = some b) : ∃ b0, h1.specBufs i = some b0 := by
  rcases h with ⟨heq, -⟩ | ⟨b0, -, hb0, -⟩
  · exact ⟨b, heq.symm.trans hb⟩
  · exact ⟨b0, hb0⟩

lemma Core.acts (l : List (Act ℕ)) (h : Core v) (hl : ∀ a ∈ l, ActOk v a) :
    ∃ h', l.foldlM Hdl.act v.hdl = .ok h' ∧ Core { v with hdl := h' } ∧ h'.specs = v.hdl.specs ∧
      ∀ i, Marks v.hdl h' (∃ a ∈ l, fateId a = some i) i := by
  induction l generalizing v with
  | nil => exact ⟨_, rfl, h, rfl, fun i => .inl ⟨rfl, by simp⟩⟩
  | cons a l ih =>
    obtain ⟨h1, hh1, hcore1, hspecs1, hmarks1⟩ := h.act (hl a mem_cons_self)
    have hl1 : ∀ a' ∈ l, ActOk { v with hdl := h1 } a' := by
      intro a' ha'
      obtain ⟨hfate, hlog, htime⟩ := hl a' (mem_cons_of_mem _ ha')
      refine ⟨?_, hlog, fun id gen hid b e hb he => ?_⟩
      · unfold FateOk at hfate ⊢
        simpa only [hspecs1] using hfate
      · obtain ⟨b0, hb0⟩ := (hmarks1 id).isSome hb
        exact htime id gen hid b0 e hb0 (by rw [← hspecs1]; exact he)
    obtain ⟨h2, hh2, hcore2, hspecs2, hmarks2⟩ := ih hcore1 hl1
    refine ⟨h2, ?_, hcore2, hspecs2.trans hspecs1, fun i => ?_⟩
    · rw [foldlM_cons, hh1]
      exact hh2
    · simpa using (hmarks1 i).trans (hmarks2 i)

/-! ## Buffers are drained -/

def View.hand (v : View κ β) (l : List (κ × Record ℕ β)) : View κ β :=
  { v with hdl := { v.hdl with handed := v.hdl.handed ++ l } }

lemma ofGen_coe_eq_self (h : ∀ x ∈ l, x.2.gen = some k) : ofGen k (l : Multiset (κ × Record ℕ β)) = l :=
  Multiset.filter_eq_self.2 h

lemma ofGen_coe_eq_zero (h : ∀ x ∈ l, x.2.gen ≠ some k) : ofGen k (l : Multiset (κ × Record ℕ β)) = 0 :=
  Multiset.filter_eq_nil.2 h

lemma ofGen_handed_hand (v : View κ β) (k : ℕ) (l : List (κ × Record ℕ β)) :
    ofGen k (v.hand l).handed = ofGen k v.handed + ofGen k l := by
  unfold View.hand View.handed ofGen
  rw [← Multiset.coe_add, Multiset.filter_add]

lemma Balanced.hand (h : Balanced v k held) (hl : ∀ x ∈ l, x.2.gen ≠ some k) : Balanced (v.hand l) k held := by
  have hhand : ofGen k (v.hand l).handed = ofGen k v.handed := by
    rw [ofGen_handed_hand, ofGen_coe_eq_zero hl, add_zero]
  have hacc : (v.hand l).account k held = v.account k held := by
    unfold View.account
    rw [hhand]
    rfl
  exact ⟨hacc ▸ h.le, fun hk => hacc ▸ h.eq hk, fun hk => hhand.trans (h.unhanded hk)⟩

lemma Balanced.drain (h : Balanced v k b.data) (hgen : ∀ x ∈ b.data, x.2.gen = some k)
    (hcommit : b.committing = true → k ∈ v.commits) (hdiscard : b.committing = false → k ∈ v.discards) :
    Balanced (v.hand (if b.committing then b.data else [])) k 0 := by
  by_cases hc : b.committing = true
  · have hacc : (v.hand b.data).account k 0 = v.account k b.data := by
      unfold View.account
      rw [ofGen_handed_hand, ofGen_coe_eq_self hgen]
      change ofGen k v.buffered + 0 + _ = _
      abel
    rw [if_pos hc]
    exact ⟨hacc ▸ h.le, fun hk => hacc ▸ h.eq hk, fun hk => absurd (hcommit hc) hk⟩
  · have hfalse : b.committing = false := by simpa using hc
    have hhand : v.hand [] = v := by simp [View.hand]
    rw [if_neg hc, hhand]
    refine ⟨le_trans ?_ h.le, fun hk => absurd (hdiscard hfalse) hk, h.unhanded⟩
    unfold View.account
    rw [add_zero, add_assoc]
    exact add_le_add le_rfl (Multiset.le_add_left ..)

lemma Core.hand (h : Core v) {r : Record ℕ β} (hr : r.gen = none) (c : κ) : Core (v.hand [(c, r)]) := by
  have hne : ∀ k, ∀ x ∈ [(c, r)], x.2.gen ≠ some k := by simp [hr]
  refine { h with bufs := fun i b hb => ?_, entry := fun i e he => ?_, gone := fun k hk => ?_ }
  · obtain ⟨e, he, hok⟩ := h.bufs i b hb
    exact ⟨e, he, { hok with }⟩
  · exact (h.entry i e he).hand (hne _)
  · exact (h.gone k hk).hand (hne _)

/-- The records that a buffer hands out when it is drained. -/
def yield (b : SpecBuf κ ℕ β) : List (κ × Record ℕ β) := if b.committing then b.data else []

lemma BufOk.gen_yield (h : BufOk v e b) (hk : k ≠ e.gen) : ∀ x ∈ yield b, x.2.gen ≠ some k := by
  intro x hx heq
  refine hk (Option.some.inj (heq.symm.trans (h.gen x ?_)))
  unfold yield at hx
  split at hx
  · exact hx
  · cases hx

/-- A drained buffer stays, for the records of its speculation that have not come yet. -/
lemma Core.empty (h : Core v) (hb : v.hdl.specBufs id = some b) (hd : b.draining = true) :
    Core ((v.hand (yield b)).setBuf id b.dataDestroy v.hdl.draining) := by
  obtain ⟨e, he, hok⟩ := h.bufs id b hb
  have hheld : v.held id = b.data := by simp [View.held, hb]
  have hnil : b.dataDestroy.data = [] := rfl
  refine h.setBuf he ⟨by simp [hnil], by simp [hnil], hok.marked, hok.committed, hok.discarded,
    fun hn => absurd (hd.symm.trans hn) (by decide)⟩ le_rfl (fun _ hx => hx) h.nodup (fun i => ?_) ?_ ?_
    fun k held hk hbal => { hbal.hand (hok.gen_yield hk) with }
  · split_ifs with hi
    · exact iff_of_true (hi ▸ (h.mem_draining id).2 ⟨b, hb, hd⟩) hd
    · rfl
  · have hcount := h.count id e he
    rw [hheld, show v.read id = b.read by simp [View.read, hb]] at hcount
    change v.flying id + 0 + (b.read + b.data.length) ≤ _
    omega
  · have hbal := h.entry id e he
    rw [hheld] at hbal
    exact { hbal.drain hok.gen (hok.committed hd) (hok.discarded hd) with }

def View.release (v : View κ β) (id : ℕ) : View κ β :=
  { v with
    hdl := { v.hdl with
      specBufs := update v.hdl.specBufs id none
      specs := update v.hdl.specs id none
      draining := v.hdl.draining.erase id } }

lemma of_update_none {α : Type} {f : ℕ → Option α} {a : α} (h : update f id none i = some a) : i ≠ id ∧ f i = some a := by
  by_cases hi : i = id
  · subst hi
    simp at h
  · exact ⟨hi, by simpa [hi] using h⟩

/-- A drained buffer goes, with the entry of its speculation, when all records of the speculation have come. -/
lemma Core.release (h : Core v) (hb : v.hdl.specBufs id = some b) (hd : b.draining = true)
    (hall : b.written ≤ b.read + b.data.length) : Core ((v.hand (yield b)).release id) := by
  obtain ⟨e, he, hok⟩ := h.bufs id b hb
  have hheld : v.held id = b.data := by simp [View.held, hb]
  have hfly : v.flying id = 0 := by
    have hcount := h.count id e he
    rw [hheld, show v.read id = b.read by simp [View.read, hb], ← (hok.marked hd).2] at hcount
    omega
  have hspecs : ∀ i f, ((v.hand (yield b)).release id).hdl.specs i = some f → i ≠ id ∧ v.hdl.specs i = some f :=
    fun i f hf => of_update_none hf
  have hkept : ∀ i f, i ≠ id → v.hdl.specs i = some f → ((v.hand (yield b)).release id).hdl.specs i = some f :=
    fun i f hi hf => (update_of_ne hi ..).trans hf
  refine ⟨?_, fun i f hf => h.fresh i f (hspecs i f hf).2, fun i j f f' hf hf' => ?_, fun x hx hne => ?_, h.plain,
    fun x hx a ha i k hk => ?_, fun k hk => ?_, h.logged, fun i b' hb' => ?_, fun i => ?_, h.nodup.erase _,
    fun i f hf => ?_, fun i f hf => ?_, fun k hk => ?_⟩
  · change update v.hdl.specs id none 0 = none
    rw [update_apply, h.zero, ite_self]
  · exact h.inj i j f f' (hspecs i f hf).2 (hspecs j f' hf').2
  · -- a record in flight for the identifier would have kept the buffer
    obtain ⟨hclean, f, hf, hgen⟩ := h.spec x hx hne
    refine ⟨hclean, f, hkept _ f ?_ hf, hgen⟩
    rintro rfl
    exact Multiset.countP_eq_zero.1 hfly x hx rfl
  · obtain ⟨hlt, hmark⟩ := h.fate x hx a ha i k hk
    exact ⟨hlt, fun j f hf => hmark j f (hspecs j f hf).2⟩
  · obtain ⟨hlt, hmark⟩ := h.decided k hk
    exact ⟨hlt, fun j f hf => hmark j f (hspecs j f hf).2⟩
  · obtain ⟨hi, hold⟩ := of_update_none hb'
    obtain ⟨f, hf, hfok⟩ := h.bufs i b' hold
    exact ⟨f, hkept i f hi hf, { hfok with }⟩
  · change i ∈ v.hdl.draining.erase id ↔ ∃ b', update v.hdl.specBufs id none i = some b' ∧ _
    rw [h.nodup.mem_erase_iff, h.mem_draining]
    by_cases hi : i = id
    · subst hi
      simp
    · simp [hi]
  · obtain ⟨hi, hf⟩ := hspecs i f hf
    have hcount := h.count i f hf
    simpa [View.held, View.read, View.release, View.hand, hi, View.flying, View.flight] using hcount
  · obtain ⟨hi, hf⟩ := hspecs i f hf
    have hheld' : ((v.hand (yield b)).release id).held i = v.held i := by
      simp [View.held, View.release, View.hand, hi]
    rw [hheld']
    exact { (h.entry i f hf).hand (hok.gen_yield fun heq => hi (h.inj i id f e hf he heq)) with }
  · by_cases hkey : k = e.gen
    · subst hkey
      have hbal := h.entry id e he
      rw [hheld] at hbal
      exact { hbal.drain hok.gen (hok.committed hd) (hok.discarded hd) with }
    · have hgone := h.gone k fun i f hf => by
        by_cases hi : i = id
        · subst hi
          obtain rfl := mem_unique hf he
          exact Ne.symm hkey
        · exact hk i f (hkept i f hi hf)
      exact { hgone.hand (hok.gen_yield hkey) with }

/-- What draining does to the buffer of an identifier: it is empty, and waits for more, or it is gone. -/
def Drains (h h' : Hdl κ ℕ β) (i : ℕ) : Prop :=
  (h'.specs i = h.specs i ∧ ∃ b b', h.specBufs i = some b ∧ h'.specBufs i = some b' ∧ b'.draining = true ∧ b'.data = [] ∧
      b'.read = b.read + b.data.length ∧ b'.read < b'.written) ∨
    h'.specs i = none ∧ h'.specBufs i = none ∧ ∃ b, h.specBufs i = some b

def Same (h h' : Hdl κ ℕ β) (i : ℕ) : Prop := h'.specs i = h.specs i ∧ h'.specBufs i = h.specBufs i

lemma foldlM_commitOneProbe (hl : ∀ x ∈ l, x.2.isError = false ∧ x.2.acts.any Act.isFate = false) (h : Hdl κ ℕ β) :
    l.foldlM (commitOneProbe fun _ => true) h = .ok { h with handed := h.handed ++ l } := by
  induction l generalizing h with
  | nil =>
    rw [append_nil]
    rfl
  | cons x l ih =>
    obtain ⟨herr, hclean⟩ := hl x mem_cons_self
    have hone : commitOneProbe (fun _ => true) h x = .ok (h.hand x.1 x.2) := by simp [commitOneProbe, herr, hclean]
    rw [foldlM_cons, hone]
    refine (ih (fun y hy => hl y (mem_cons_of_mem _ hy)) _).trans ?_
    simp [Hdl.hand]

lemma drainOne_eq {h : Hdl κ ℕ β} (hb : h.specBufs id = some b)
    (hl : ∀ x ∈ b.data, x.2.isError = false ∧ x.2.acts.any Act.isFate = false) :
    drainOne (fun _ => true) h id =
      .ok (if b.read + b.data.length < b.written then
          { h with handed := h.handed ++ yield b, specBufs := update h.specBufs id (some b.dataDestroy) }
        else
          { h with
            handed := h.handed ++ yield b
            specBufs := update h.specBufs id none
            specs := update h.specs id none
            draining := h.draining.erase id }) := by
  unfold yield Consume.drainOne
  simp only [hb]
  by_cases hc : b.committing = true
  · rw [if_pos hc, if_pos hc, dtCommitOneSpec, foldlM_commitOneProbe hl h]
    split <;> rfl
  · rw [if_neg hc, if_neg hc, append_nil]
    split <;> rfl

lemma Core.drainOne (h : Core v) (hid : id ∈ v.hdl.draining) :
    ∃ h', Consume.drainOne (fun _ => true) v.hdl id = .ok h' ∧ Core { v with hdl := h' } ∧ Drains v.hdl h' id ∧
      ∀ i, i ≠ id → Same v.hdl h' i := by
  obtain ⟨b, hb, hd⟩ := (h.mem_draining id).1 hid
  obtain ⟨e, -, hok⟩ := h.bufs id b hb
  refine ⟨_, drainOne_eq hb hok.clean, ?_⟩
  split
  · next hmore =>
    refine ⟨h.empty hb hd, .inl ⟨rfl, b, b.dataDestroy, hb, update_self .., hd, rfl, rfl, hmore⟩, fun i hi => ?_⟩
    exact ⟨rfl, update_of_ne hi ..⟩
  · next hall =>
    refine ⟨h.release hb hd (not_lt.1 hall), .inr ⟨update_self .., update_self .., b, hb⟩, fun i hi => ?_⟩
    exact ⟨update_of_ne hi .., update_of_ne hi ..⟩

lemma Core.drainList (L : List ℕ) (h : Core v) (hL : L.Nodup) (hsub : ∀ i ∈ L, i ∈ v.hdl.draining) :
    ∃ h', L.foldlM (Consume.drainOne fun _ => true) v.hdl = .ok h' ∧ Core { v with hdl := h' } ∧
      (∀ i ∈ L, Drains v.hdl h' i) ∧ ∀ i ∉ L, Same v.hdl h' i := by
  induction L generalizing v with
  | nil => exact ⟨_, rfl, h, by simp, fun i _ => ⟨rfl, rfl⟩⟩
  | cons id L ih =>
    obtain ⟨h1, hh1, hcore1, hdrains, hsame⟩ := h.drainOne (hsub id mem_cons_self)
    obtain ⟨hid, hL⟩ := nodup_cons.1 hL
    have hne : ∀ i ∈ L, i ≠ id := fun i hi heq => hid (heq ▸ hi)
    have hsub1 : ∀ i ∈ L, i ∈ h1.draining := by
      intro i hi
      refine (hcore1.mem_draining i).2 ?_
      rw [show ({ v with hdl := h1 } : View κ β).hdl.specBufs i = _ from (hsame i (hne i hi)).2]
      exact (h.mem_draining i).1 (hsub i (mem_cons_of_mem _ hi))
    obtain ⟨h2, hh2, hcore2, hdrains2, hsame2⟩ := ih hcore1 hL hsub1
    refine ⟨h2, ?_, hcore2, fun i hi => ?_, fun i hi => ?_⟩
    · rw [foldlM_cons, hh1]
      exact hh2
    · rcases mem_cons.1 hi with rfl | hi
      · obtain ⟨hspecs, hbufs⟩ := hsame2 i hid
        unfold Drains
        rw [hspecs, hbufs]
        exact hdrains
      · obtain ⟨hspecs, hbufs⟩ := hsame i (hne i hi)
        have := hdrains2 i hi
        unfold Drains at this ⊢
        rwa [← hspecs, ← hbufs]
    · obtain ⟨hi, hiL⟩ := not_or.1 (mt mem_cons.2 hi)
      obtain ⟨hspecs, hbufs⟩ := hsame i hi
      obtain ⟨hspecs2, hbufs2⟩ := hsame2 i hiL
      exact ⟨hspecs2.trans hspecs, hbufs2.trans hbufs⟩

/-! ## A record is consumed -/

/-- What a record that is not speculative does to an identifier: nothing, if its buffer is not being drained and no action
of the record is about it. -/
def Fares (h h' : Hdl κ ℕ β) (named : Prop) (i : ℕ) : Prop :=
  (Same h h' i ∧ ∀ b, h.specBufs i = some b → b.draining = false ∧ ¬named) ∨ Drains h h' i

lemma Marks.fares {h h1 : Hdl κ ℕ β} (h2 : Hdl κ ℕ β) {h3 : Hdl κ ℕ β} (hmarks : Marks h h1 p i)
    (hspecs : h2.specs i = h.specs i) (hbufs : h2.specBufs i = h1.specBufs i)
    (hdrains : (∃ b, h1.specBufs i = some b ∧ b.draining = true) → Drains h2 h3 i)
    (hsame : (¬∃ b, h1.specBufs i = some b ∧ b.draining = true) → Same h2 h3 i) : Fares h h3 p i := by
  unfold Drains at hdrains
  rw [hspecs, hbufs] at hdrains
  rcases hmarks with ⟨heq, hnamed⟩ | ⟨b, b', hb, hb', hon, hdata, hread⟩
  · by_cases hi : ∃ b, h1.specBufs i = some b ∧ b.draining = true
    · have hdrain := hdrains hi
      rw [heq] at hdrain
      exact .inr hdrain
    · obtain ⟨hs, hb⟩ := hsame hi
      refine .inl ⟨⟨hs.trans hspecs, hb.trans (hbufs.trans heq)⟩, fun b hb => ?_⟩
      have hoff : b.draining ≠ true := fun hon => hi ⟨b, heq.trans hb, hon⟩
      exact ⟨by simpa using hoff, fun hn => hoff (hnamed hn b hb)⟩
  · rcases hdrains ⟨b', hb', hon⟩ with ⟨hs, d, d', hd, hd', hon', hnil, hdr, hlt⟩ | ⟨hs, hnone, -⟩
    · obtain rfl := mem_unique hd hb'
      exact .inr (.inl ⟨hs, b, d', hb, hd', hon', hnil, by rw [hdr, hread, hdata], hlt⟩)
    · exact .inr (.inr ⟨hs, hnone, b, hb⟩)

lemma consume_hive {specsize : ℕ} (herr : r.isError = false) (hr : r.specid ≠ 0)
    (hsize : v.hdl.cursz r.specid + r.size ≤ specsize) :
    dtConsumeOneProbe specsize .off (fun _ => true) c v.hdl r = .ok (v.hive B c r).hdl := by
  simp [dtConsumeOneProbe, herr, hr, Hdl.hive, not_lt.2 hsize, View.hive, addTo]

theorem Core.consumePlain (h : Core { v with buffered := (c, r) ::ₘ B }) (herr : r.isError = false) (hr : r.specid = 0)
    (htime : ∀ a ∈ r.acts, Timely v.hdl a) (specsize : ℕ) :
    ∃ h', dtConsumeOneProbe specsize .off (fun _ => true) c v.hdl r = .ok h' ∧ Core { v with buffered := B, hdl := h' } ∧
      ∀ i, Fares v.hdl h' (∃ a ∈ r.acts, fateId a = some i) i := by
  have hgen : r.gen = none := h.plain _ recClause_mem_flight hr
  have hacts : ∀ a ∈ r.acts, ActOk { v with buffered := B } a := fun a ha =>
    ⟨h.fate _ recClause_mem_flight a ha, h.logged _ (Multiset.mem_cons_self ..) a ha, htime a ha⟩
  obtain ⟨h1, hh1, hcore1, hspecs1, hmarks⟩ := (h.pop hr).acts r.acts hacts
  -- the buffers do not change when the record is handed out
  obtain ⟨h2, hh2, hcore2, hspecs2, hbufs2, -⟩ : ∃ h2, (if r.dataRecording then h1.hand c r else h1) = h2 ∧
      Core { v with buffered := B, hdl := h2 } ∧ h2.specs = h1.specs ∧ h2.specBufs = h1.specBufs ∧
      h2.draining = h1.draining := by
    refine ⟨_, rfl, ?_⟩
    split
    · exact ⟨hcore1.hand hgen c, rfl, rfl, rfl⟩
    · exact ⟨hcore1, rfl, rfl, rfl⟩
  obtain ⟨h3, hh3, hcore3, hdrains, hsame⟩ := hcore2.drainList h2.draining hcore2.nodup fun i hi => hi
  refine ⟨h3, ?_, hcore3, fun i => ?_⟩
  · simp only [dtConsumeOneProbe, herr, hr, Bool.not_true, Bool.and_false, Bool.false_eq_true, if_false, ne_eq, not_true_eq_false]
    rw [hh1]
    change drain _ (if r.dataRecording then h1.hand c r else h1) = _
    rw [hh2]
    exact hh3
  · have hmem : i ∈ h2.draining ↔ ∃ b, h1.specBufs i = some b ∧ b.draining = true := by
      rw [← hbufs2]
      exact hcore2.mem_draining i
    refine (hmarks i).fares h2 ?_ (congrFun hbufs2 i) (fun hon => hdrains i (hmem.2 hon)) fun hoff =>
      hsame i (mt hmem.1 hoff)
    rw [hspecs2, hspecs1]

end

end DTrace.Spec
