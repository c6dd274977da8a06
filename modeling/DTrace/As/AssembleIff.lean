import DTrace.As.Assemble
import Mathlib.Data.List.Basic

/-!
# Which instruction lists are assembled correctly

* `pass1_eq`, `pass2_eq`, `pass3_spec` — what each pass leaves, and when it fails;
* `dtAs_eq_none_iff` — the lists that are rejected;
* `assembled_iff` — a list that is not rejected is assembled correctly exactly if every branch reaches its label: the label
  is near enough for 16 bits, and its number, cut to 16 bits, finds it.
-/

namespace DTrace.As

open List Function

/-! ## The first pass -/

variable {n : Irnode} {ns : List Irnode}

section

variable {mode : LinkMode}

/-- The external reference of the node is on an instruction that cannot have one. -/
def BadExtern (mode : LinkMode) (n : Irnode) : Prop := ∃ idp, n.diExtern = some idp ∧ countRel mode idp n.asm.instr = none

def counted (mode : LinkMode) (n : Irnode) : Option Tab :=
  n.diExtern.bind fun idp => (countRel mode idp n.asm.instr).join

/-- `labels[]` after the first pass. -/
def table : ℕ → (ℕ → ℕ) → List Irnode → ℕ → ℕ
  | _, labels, [] => labels
  | i, labels, n :: ns =>
    table (if n.kept then i + 1 else i) (if n.label ≠ 0 then Function.update labels n.label i else labels) ns

theorem pass1_eq (i : ℕ) (labels : ℕ → ℕ) (h : ∀ n ∈ ns, ¬ BadExtern mode n) :
    ∃ p, pass1 mode i labels ns = some p ∧ p.buf = (ns.filter Irnode.kept).map (fun n => n.asm.instr) ∧
      p.labels = table i labels ns ∧ ∀ t, p.count t = ns.countP fun n => counted mode n = some t := by
  induction ns generalizing i labels with
  | nil => exact ⟨_, rfl, rfl, rfl, fun _ => rfl⟩
  | cons n ns ih =>
    obtain ⟨p, hp, hbuf, hlabels, hcount⟩ := ih (if n.kept then i + 1 else i)
      (if n.label ≠ 0 then update labels n.label i else labels) fun m hm => h m (mem_cons_of_mem _ hm)
    have hbuf' : (if n.kept then n.asm.instr :: p.buf else p.buf) =
        ((n :: ns).filter Irnode.kept).map (fun n => n.asm.instr) := by
      cases hk : n.kept <;> simp [hk, hbuf]
    have hbad := h n (mem_cons_self ..)
    rw [pass1]
    simp only [hp, Option.map_some]
    cases hx : n.diExtern with
    | none =>
      refine ⟨{ p with buf := _ }, rfl, hbuf', hlabels, fun t => ?_⟩
      rw [hcount, countP_cons_of_neg (by simp [counted, hx])]
    | some idp =>
      dsimp only
      cases hc : countRel mode idp n.asm.instr with
      | none => exact absurd ⟨idp, hx, hc⟩ hbad
      | some c =>
        have hcounted : counted mode n = c := by simp [counted, hx, hc]
        cases c with
        | none =>
          refine ⟨{ p with buf := _ }, rfl, hbuf', hlabels, fun t => ?_⟩
          rw [hcount, countP_cons_of_neg (by simp [hcounted])]
        | some t0 =>
          refine ⟨_, rfl, hbuf', hlabels, fun t => ?_⟩
          dsimp only
          by_cases ht : t = t0
          · subst ht
            rw [countP_cons_of_pos (by simp [hcounted]), update_self, hcount]
          · rw [countP_cons_of_neg (by simp [hcounted, Ne.symm ht]), update_of_ne ht, hcount]

lemma pass1_eq_none (i : ℕ) (labels : ℕ → ℕ) (hn : n ∈ ns) (hbad : BadExtern mode n) :
    pass1 mode i labels ns = none := by
  induction ns generalizing i labels with
  | nil => cases hn
  | cons m ns ih =>
    rw [pass1]
    rcases mem_cons.1 hn with rfl | hn
    · obtain ⟨_, hx, hc⟩ := hbad
      simp only [hx, hc]
    · simp only [ih _ _ hn, Option.map_none]
      split
      · rfl
      · split <;> rfl

end

/-! ## The second pass -/

variable {b : BpfInsn}

section

variable {labels : ℕ → ℕ} {dlLabel : ℕ} {buf : List BpfInsn}

def resolve (labels : ℕ → ℕ) (i : ℕ) (b : BpfInsn) : BpfInsn :=
  if b.isBranch then { b with off := BitVec.ofInt 16 (labels (field b.off) - i - 1) } else b

/-- The number of the label is one that was handed out. -/
def BadLabel (dlLabel : ℕ) (b : BpfInsn) : Prop := b.isBranch = true ∧ dlLabel ≤ field b.off

theorem pass2_eq (i : ℕ) (h : ∀ b ∈ buf, ¬ BadLabel dlLabel b) :
    pass2 labels dlLabel i buf = some (buf.mapIdx fun j b => resolve labels (i + j) b) := by
  induction buf generalizing i with
  | nil => rfl
  | cons b buf ih =>
    have hrest := ih (i + 1) fun b hb => h b (mem_cons_of_mem _ hb)
    have hidx : (fun j b => resolve labels (i + 1 + j) b) = fun j b => resolve labels (i + (j + 1)) b := by
      funext j b
      rw [Nat.add_assoc, Nat.add_comm 1 j]
    rw [pass2, mapIdx_cons, hrest, hidx]
    cases hb : b.isBranch with
    | false => simp [resolve, hb]
    | true =>
      have hlt : field b.off < dlLabel := by
        by_contra hge
        exact h b (mem_cons_self ..) ⟨hb, not_lt.1 hge⟩
      simp [resolve, hb, hlt]

lemma pass2_eq_none (i : ℕ) (hb : b ∈ buf) (hbad : BadLabel dlLabel b) : pass2 labels dlLabel i buf = none := by
  induction buf generalizing i with
  | nil => cases hb
  | cons c buf ih =>
    rw [pass2]
    rcases mem_cons.1 hb with rfl | hb
    · rw [if_pos hbad.1, if_neg (not_lt.2 hbad.2)]
    · rw [ih (i + 1) hb]
      simp

end

/-! ## The third pass -/

variable {i : ℕ} {env : AsEnv}

section

/-- The table the third pass has an entry of the node in. -/
def needs (env : AsEnv) (n : Irnode) : Option (Ident × Tab) :=
  if n.kept then n.diExtern.bind fun idp => (relTab env.linkmode idp).map fun t => (idp, t) else none

/-- The symbol is not defined, or its name does not fit in the string table. -/
def BadReloc (env : AsEnv) (n : Irnode) : Prop :=
  ∃ idp t, needs env n = some (idp, t) ∧ relodesc env 0 n.asm.instr idp t = none

variable {idp : Ident} {t : Tab}

lemma relodesc_eq_none_iff {j : ℕ} : relodesc env i b idp t = none ↔ relodesc env j b idp t = none := by
  unfold relodesc
  split
  · cases relType b <;> cases env.stroff idp.name <;> simp
  · rfl

variable {rp : Relodesc}

lemma relodesc_eq_some
    (h : relodesc env i b idp t = some rp) : rp.offset = i * 8 ∧ rp.data = if idp.isBpf then idp.id else idp.symId := by
  unfold relodesc at h
  split at h
  · split at h
    · cases h
      exact ⟨rfl, rfl⟩
    · cases h
  · cases h

lemma pass3_cons (i : ℕ) (n : Irnode) (ns : List Irnode) : pass3 env i (n :: ns) =
    match needs env n with
    | none => pass3 env (if n.kept then i + 1 else i) ns
    | some (idp, t) => (relodesc env i n.asm.instr idp t).bind fun rp => (pass3 env (i + 1) ns).map fun rps => (t, rp) :: rps := by
  rw [pass3, needs]
  cases n.kept with
  | false => rfl
  | true =>
    simp only [if_true]
    rcases n.diExtern.bind fun idp => (relTab env.linkmode idp).map fun t => (idp, t) with _ | ⟨idp, t⟩
    · rfl
    · dsimp only
      cases relodesc env i n.asm.instr idp t <;> rfl

def IsEntry (ns : List Irnode) (i : ℕ) (rp : Relodesc) : Prop :=
  ∃ j n idp, (ns.filter Irnode.kept)[j]? = some n ∧ n.diExtern = some idp ∧ rp.offset = (i + j) * 8 ∧
    rp.data = if idp.isBpf then idp.id else idp.symId

lemma needs_eq_some (h : needs env n = some (idp, t)) :
    n.kept = true ∧ n.diExtern = some idp ∧ relTab env.linkmode idp = some t := by
  unfold needs at h
  split at h
  · next hk =>
    obtain ⟨_, hx, h⟩ := Option.bind_eq_some_iff.1 h
    obtain ⟨_, ht, h⟩ := Option.map_eq_some_iff.1 h
    cases h
    exact ⟨hk, hx, ht⟩
  · cases h

lemma IsEntry.cons (n : Irnode) (h : IsEntry ns (if n.kept then i + 1 else i) rp) : IsEntry (n :: ns) i rp := by
  obtain ⟨j, m, idp, hm, hx, hoff, hdata⟩ := h
  cases hk : n.kept with
  | false => exact ⟨j, m, idp, by rwa [filter_cons_of_neg (by simp [hk])], hx, by simpa [hk] using hoff, hdata⟩
  | true =>
    refine ⟨j + 1, m, idp, by rwa [filter_cons_of_pos hk, getElem?_cons_succ], hx, ?_, hdata⟩
    rw [hoff, if_pos hk]
    omega

theorem pass3_spec (i : ℕ) {rps : List (Tab × Relodesc)} (h : pass3 env i ns = some rps) :
    (∀ t, (tabEntries rps t).length = ns.countP fun n => (needs env n).map Prod.snd = some t) ∧
      ∀ p ∈ rps, IsEntry ns i p.2 := by
  induction ns generalizing i rps with
  | nil =>
    cases h
    exact ⟨fun _ => rfl, by simp⟩
  | cons n ns ih =>
    rw [pass3_cons] at h
    cases hn : needs env n with
    | none =>
      rw [hn] at h
      obtain ⟨hlen, hmem⟩ := ih _ h
      exact ⟨fun t => by rw [hlen, countP_cons_of_neg (by simp [hn])], fun p hp => (hmem p hp).cons n⟩
    | some q =>
      obtain ⟨idp, t0⟩ := q
      rw [hn] at h
      obtain ⟨_, hrp, h⟩ := Option.bind_eq_some_iff.1 h
      obtain ⟨_, hrps, rfl⟩ := Option.map_eq_some_iff.1 h
      obtain ⟨hk, hx, -⟩ := needs_eq_some hn
      obtain ⟨hlen, hmem⟩ := ih _ hrps
      refine ⟨fun t => ?_, fun p hp => ?_⟩
      · by_cases ht : t0 = t
        · rw [countP_cons_of_pos (by simp [hn, ht]), ← hlen]
          simp [tabEntries, ht]
        · rw [countP_cons_of_neg (by simp [hn, ht]), ← hlen]
          simp [tabEntries, ht]
      · rcases mem_cons.1 hp with rfl | hp
        · obtain ⟨hoff, hdata⟩ := relodesc_eq_some hrp
          exact ⟨0, n, idp, by rw [filter_cons_of_pos hk]; rfl, hx, hoff, hdata⟩
        · refine IsEntry.cons n ?_
          rw [if_pos hk]
          exact hmem p hp

lemma pass3_eq_none_iff (i : ℕ) : pass3 env i ns = none ↔ ∃ n ∈ ns, BadReloc env n := by
  induction ns generalizing i with
  | nil => simp [pass3]
  | cons n ns ih =>
    rw [pass3_cons, exists_mem_cons_iff]
    cases hn : needs env n with
    | none =>
      have hgood : ¬ BadReloc env n := fun ⟨idp, t, h, _⟩ => by simp [hn] at h
      simp [hgood, ih]
    | some q =>
      obtain ⟨idp, t⟩ := q
      have hbad : BadReloc env n ↔ relodesc env i n.asm.instr idp t = none := by
        rw [relodesc_eq_none_iff]
        refine ⟨fun ⟨idp', t', h, hr⟩ => ?_, fun hr => ⟨idp, t, hn, hr⟩⟩
        obtain ⟨rfl, rfl⟩ := Prod.mk.inj (Option.some.inj (hn.symm.trans h))
        exact hr
      rw [hbad]
      dsimp only
      cases relodesc env i n.asm.instr idp t with
      | none => simp
      | some rp => simp [ih]

end

/-! ## The lists that are rejected -/

variable {dlp : Irlist}

section

def Rejected (env : AsEnv) (dlp : Irlist) : Prop :=
  ∃ n ∈ dlp.list, BadExtern env.linkmode n ∨ (n.kept = true ∧ BadLabel dlp.label n.asm.instr) ∨ BadReloc env n

lemma kept_of_relType {r : RelType} (h : relType n.asm.instr = some r) : n.kept = true := by
  by_contra hk
  have hnop : n.asm.instr.isNop = true := by
    simp only [Irnode.kept, Bool.or_eq_true, Bool.not_eq_true', not_or] at hk
    simpa using hk.2
  have hcode : n.asm.instr.code = 5#8 := by
    simp only [BpfInsn.isNop, Bool.and_eq_true, beq_iff_eq] at hnop
    exact hnop.1
  simp [relType, hcode] at h

/-- The first and the third pass agree on the table of a node. -/
lemma counted_eq_needs (h : ¬ BadExtern env.linkmode n) : counted env.linkmode n = (needs env n).map Prod.snd := by
  unfold counted needs
  cases hx : n.diExtern with
  | none => cases n.kept <;> rfl
  | some idp =>
    have hc : countRel env.linkmode idp n.asm.instr ≠ none := fun hc => h ⟨idp, hx, hc⟩
    unfold countRel at hc
    cases hr : relType n.asm.instr with
    | none => exact absurd (by rw [hr]) hc
    | some r =>
      rw [kept_of_relType hr, if_pos rfl]
      have hmap : Option.map Prod.snd ((some idp).bind fun idp => (relTab env.linkmode idp).map fun t => (idp, t)) =
          relTab env.linkmode idp := by
        simp [comp_def]
      rw [hmap]
      cases hb : idp.isBpf <;> cases r <;> simp_all [countRel, relTab]

lemma dtAs_of_rejected (h : Rejected env dlp) : dtAs env dlp = none := by
  unfold dtAs
  by_cases hx : ∃ n ∈ dlp.list, BadExtern env.linkmode n
  · obtain ⟨n, hn, hbad⟩ := hx
    rw [pass1_eq_none _ _ hn hbad]
  · have hgood : ∀ n ∈ dlp.list, ¬ BadExtern env.linkmode n := fun n hn hbad => hx ⟨n, hn, hbad⟩
    obtain ⟨p, hp, hbuf, -, hcount⟩ := pass1_eq 0 (fun _ => 0) hgood
    rw [hp]
    dsimp only
    obtain ⟨n, hn, hbad | ⟨hk, hbad⟩ | hbad⟩ := h
    · exact absurd hbad (hgood n hn)
    · have hmem : n.asm.instr ∈ p.buf := by
        rw [hbuf]
        exact mem_map_of_mem (mem_filter.2 ⟨hn, hk⟩)
      rw [pass2_eq_none 0 hmem hbad]
      split <;> rfl
    · rw [(pass3_eq_none_iff 0).2 ⟨n, hn, hbad⟩]
      obtain ⟨_, t, hneeds, -⟩ := hbad
      have hpos : 0 < p.count t := by
        rw [hcount, countP_pos_iff]
        exact ⟨n, hn, by simp [counted_eq_needs (hgood n hn), hneeds]⟩
      have hsum : p.count .b + p.count .k + p.count .u > 0 := by
        cases t <;> omega
      split
      · split <;> rfl
      · rfl

lemma dtAs_of_accepted (h : ¬ Rejected env dlp) : ∃ dp, dtAs env dlp = some dp ∧
    dp.buf = (dlp.list.filter Irnode.kept).mapIdx (fun i n => resolve (table 0 (fun _ => 0) dlp.list) i n.asm.instr) ∧
    ∀ t, ∀ rp ∈ dp.reltab t, IsEntry dlp.list 0 rp := by
  have hgood : ∀ n ∈ dlp.list, ¬ BadExtern env.linkmode n := fun n hn hbad => h ⟨n, hn, .inl hbad⟩
  obtain ⟨p, hp, hbuf, hlabels, hcount⟩ := pass1_eq 0 (fun _ => 0) hgood
  have hlen : p.buf.length = dlp.len := by rw [hbuf, length_map, dlp.len_eq]
  have hlabel : ∀ b ∈ p.buf, ¬ BadLabel dlp.label b := by
    intro b hb hbad
    rw [hbuf] at hb
    obtain ⟨n, hn, rfl⟩ := mem_map.1 hb
    exact h ⟨n, (mem_filter.1 hn).1, .inr (.inl ⟨(mem_filter.1 hn).2, hbad⟩)⟩
  have hresolved : p.buf.mapIdx (fun j b => resolve p.labels (0 + j) b) =
      (dlp.list.filter Irnode.kept).mapIdx (fun i n => resolve (table 0 (fun _ => 0) dlp.list) i n.asm.instr) := by
    apply ext_getElem?
    intro i
    simp [hbuf, hlabels, getElem?_mapIdx, comp_def]
  unfold dtAs
  simp only [hp, if_pos hlen, pass2_eq 0 hlabel]
  split
  · cases h3 : pass3 env 0 dlp.list with
    | none =>
      obtain ⟨n, hn, hbad⟩ := (pass3_eq_none_iff 0).1 h3
      exact absurd ⟨n, hn, .inr (.inr hbad)⟩ h
    | some rps =>
      obtain ⟨hentries, hmem⟩ := pass3_spec 0 h3
      have hcounts : ∀ t ∈ [Tab.b, .k, .u], (tabEntries rps t).length = p.count t := by
        intro t _
        rw [hentries, hcount]
        refine countP_congr fun n hn => ?_
        rw [counted_eq_needs (hgood n hn)]
      simp only [if_pos hcounts]
      refine ⟨_, rfl, hresolved, fun t rp hrp => ?_⟩
      obtain ⟨q, hq, rfl⟩ := mem_map.1 hrp
      exact hmem q (mem_filter.1 hq).1
  · exact ⟨_, rfl, hresolved, by simp⟩

end

/-! ## Where the labels are -/

def lastPlace (l : ℕ) : List Irnode → Option ℕ
  | [] => none
  | n :: ns =>
    match lastPlace l ns with
    | some p => some ((if n.isLabel then 0 else 1) + p)
    | none => if n.label = l then some 0 else none

def landing (l : ℕ) (ns : List Irnode) : ℕ := if l = 0 then 0 else (lastPlace l ns).getD 0

variable {l : ℕ}

section

lemma table_zero (i : ℕ) (labels : ℕ → ℕ) : table i labels ns 0 = labels 0 := by
  induction ns generalizing i labels with
  | nil => rfl
  | cons n ns ih =>
    rw [table, ih]
    split
    · next h => rw [update_of_ne (Ne.symm h)]
    · rfl

lemma table_eq_lastPlace (i : ℕ) (labels : ℕ → ℕ) (hl : l ≠ 0) (h : ∀ n ∈ ns, n.kept = !n.isLabel) :
    table i labels ns l = match lastPlace l ns with | some p => i + p | none => labels l := by
  induction ns generalizing i labels with
  | nil => rfl
  | cons n ns ih =>
    rw [table, ih _ _ fun m hm => h m (mem_cons_of_mem _ hm), lastPlace]
    cases hp : lastPlace l ns with
    | some p =>
      rw [h n (mem_cons_self ..)]
      cases n.isLabel <;> simp [Nat.add_assoc]
    | none =>
      by_cases hn : n.label = l
      · simp [hn, hl]
      · by_cases h0 : n.label = 0
        · simp [h0, Ne.symm hl]
        · simp [hn, h0, update_of_ne (Ne.symm hn)]

lemma table_eq_landing (h : ∀ n ∈ ns, n.kept = !n.isLabel) (l : ℕ) : table 0 (fun _ => 0) ns l = landing l ns := by
  unfold landing
  split
  · next hl => rw [hl, table_zero]
  · next hl =>
    rw [table_eq_lastPlace 0 _ hl h]
    cases lastPlace l ns <;> simp

lemma lastPlace_eq_none (h : placings l ns = 0) : lastPlace l ns = none := by
  induction ns with
  | nil => rfl
  | cons n ns ih =>
    rw [placings, countP_cons] at h
    have hn : ¬ n.label = l := by
      intro hn
      simp [hn] at h
    rw [lastPlace, ih (by unfold placings; omega), if_neg hn]

lemma lastPlace_eq_place (h : placings l ns = 1) : lastPlace l ns = some (place l ns) := by
  induction ns with
  | nil => cases h
  | cons n ns ih =>
    rw [lastPlace, place]
    by_cases hn : n.label = l
    · rw [lastPlace_eq_none (by simpa [hn, placings] using h)]
      simp [hn]
    · rw [ih (by simpa [hn, placings] using h)]
      simp [hn]

end

/-! ## Branches -/

section

/-- The branch at `i` gets to its label: one that looks like a no-op is right before it; for another the distance fits in
16 bits, and the number of the label does, or else what it is cut to happens to be in the same place. -/
def Hits (ns : List Irnode) (i : ℕ) (n : Irnode) (l : ℕ) : Prop :=
  if n.asm.instr.isNop then place l ns = i + 1
  else -2 ^ 15 ≤ (place l ns : ℤ) - i - 1 ∧ (place l ns : ℤ) - i - 1 < 2 ^ 15 ∧
    (l < 2 ^ 15 ∨ landing (field (BitVec.ofNat 16 l)) ns ≡ place l ns [MOD 2 ^ 16])

/-- Every branch gets to its label, and no branch is taken for a label. -/
structure Reaches (dlp : Irlist) : Prop where
  kept : ∀ n ∈ dlp.list, n.isLabel = false → n.kept = true
  hits : ∀ i n l, (code dlp.list)[i]? = some n → n.asm.target = some l → Hits dlp.list i n l

lemma kept_eq_false_of_isLabel (h : n.isLabel = true) : n.kept = false := by
  simp only [Irnode.isLabel, Bool.and_eq_true, bne_iff_ne, ne_eq] at h
  simp [Irnode.kept, h.1.1, h.2]

lemma kept_eq (h : ∀ n ∈ ns, n.isLabel = false → n.kept = true) : ∀ n ∈ ns, n.kept = !n.isLabel := by
  intro n hn
  cases hl : n.isLabel with
  | false => exact h n hn hl
  | true => exact kept_eq_false_of_isLabel hl

lemma filter_kept_eq_code (h : ∀ n ∈ ns, n.isLabel = false → n.kept = true) : ns.filter Irnode.kept = code ns :=
  filter_congr (kept_eq h)

lemma length_filter_kept_lt (hn : n ∈ ns) (hl : n.isLabel = false) (hk : n.kept = false) :
    (ns.filter Irnode.kept).length < (code ns).length := by
  have hfilter : ns.filter Irnode.kept = (code ns).filter Irnode.kept := by
    rw [code, filter_filter]
    refine filter_congr fun m _ => ?_
    cases hm : m.isLabel with
    | false => simp
    | true => simp [kept_eq_false_of_isLabel hm]
  rw [hfilter, length_filter_lt_length_iff_exists]
  exact ⟨n, mem_filter.2 ⟨hn, by simp [hl]⟩, by simp [hk]⟩

lemma field_ofNat (hl : l < 2 ^ 15) : field (BitVec.ofNat 16 l) = l := by
  have hmsb : (BitVec.ofNat 16 l).msb = false := by
    rw [BitVec.msb_eq_false_iff_two_mul_lt, BitVec.toNat_ofNat]
    omega
  rw [field, BitVec.signExtend_eq_setWidth_of_msb_false hmsb, BitVec.toNat_setWidth, BitVec.toNat_ofNat]
  omega

lemma toInt_ofInt_eq_iff (t i p : ℕ) : (i : ℤ) + 1 + (BitVec.ofInt 16 (t - i - 1)).toInt = p ↔
    -2 ^ 15 ≤ (p : ℤ) - i - 1 ∧ (p : ℤ) - i - 1 < 2 ^ 15 ∧ t ≡ p [MOD 2 ^ 16] := by
  rw [BitVec.toInt_ofInt, Int.bmod_def, Nat.ModEq]
  split <;> omega

variable {a : Asm}

lemma isBranch_of_target_none (h : a.target = none) : a.instr.isBranch = false := by
  cases a with
  | insn b hb => exact hb
  | branch => cases h

lemma instr_of_target (h : a.target = some l) : a.instr.takesLabel = true ∧ a.instr.off = BitVec.ofNat 16 l := by
  cases a with
  | insn => cases h
  | branch b hb lbl =>
    cases h
    exact ⟨hb, rfl⟩

lemma off_resolve_iff (ht : n.asm.target = some l) (hl : l ≠ 0) (hplaced : placings l ns = 1) :
    (i : ℤ) + 1 + (resolve (fun l => landing l ns) i n.asm.instr).off.toInt = place l ns ↔ Hits ns i n l := by
  obtain ⟨htakes, hoff⟩ := instr_of_target ht
  rw [resolve, Hits, BpfInsn.isBranch, htakes, Bool.true_and]
  cases hnop : n.asm.instr.isNop with
  | true =>
    have hzero : n.asm.instr.off = 0#16 := by
      simp only [BpfInsn.isNop, Bool.and_eq_true, beq_iff_eq] at hnop
      exact hnop.2
    simp [hzero]
    omega
  | false =>
    have hsmall : l < 2 ^ 15 → landing (field (.ofNat 16 l)) ns ≡ place l ns [MOD 2 ^ 16] := by
      intro hlt
      rw [field_ofNat hlt, landing, if_neg hl, lastPlace_eq_place hplaced]
      rfl
    simp only [Bool.not_false, if_true, hoff, toInt_ofInt_eq_iff, or_iff_right_of_imp hsmall]
    rfl

lemma resolved_iff (h : ∀ l, n.asm.target = some l → l ≠ 0 ∧ placings l ns = 1) :
    Resolved ns i n (resolve (fun l => landing l ns) i n.asm.instr) ↔
      ∀ l, n.asm.target = some l → Hits ns i n l := by
  have hiff : ∀ l, n.asm.target = some l → _ := fun l hl => off_resolve_iff (i := i) hl (h l hl).1 (h l hl).2
  refine ⟨fun hr l hl => (hiff l hl).1 (hr.target l hl), fun hits => ⟨?_, fun hn => ?_, fun l hl => (hiff l hl).2 (hits l hl)⟩⟩
  · unfold resolve
    split <;> rfl
  · rw [resolve, isBranch_of_target_none hn]
    rfl

/-- A list in which every used label is placed once is assembled as expected, or rejected, exactly if it is rejected or
every branch reaches its label. -/
theorem assembled_iff (env : AsEnv) (dlp : Irlist) (h : WellLabelled dlp) :
    (∀ dp, dtAs env dlp = some dp → Assembled dlp dp) ↔ Rejected env dlp ∨ Reaches dlp := by
  by_cases hrej : Rejected env dlp
  · simp [dtAs_of_rejected hrej, hrej]
  · obtain ⟨dp, hdp, hbuf, hrel⟩ := dtAs_of_accepted hrej
    simp only [hdp, Option.some.injEq, forall_eq', hrej, false_or]
    by_cases hkept : ∀ n ∈ dlp.list, n.isLabel = false → n.kept = true
    · -- nothing is dropped but labels, so the buffer is the code, and the labels are where the first pass saw them
      have htable :=
        funext (table_eq_landing (kept_eq hkept))
      rw [filter_kept_eq_code hkept, htable] at hbuf
      have hbuf' : ∀ i, dp.buf[i]? = ((code dlp.list)[i]?).map fun n =>
          resolve (fun l => landing l dlp.list) i n.asm.instr := by
        intro i
        rw [hbuf, getElem?_mapIdx]
      have hresolved : ∀ i n, (code dlp.list)[i]? = some n →
          (Resolved dlp.list i n (resolve (fun l => landing l dlp.list) i n.asm.instr) ↔
            ∀ l, n.asm.target = some l → Hits dlp.list i n l) := fun i n hn =>
        resolved_iff (h n (mem_filter.1 (mem_of_getElem? hn)).1)
      constructor
      · intro ha
        refine ⟨hkept, fun i n l hn hl => (hresolved i n hn).1 (ha.insns i n _ hn ?_) l hl⟩
        rw [hbuf', hn]
        rfl
      · intro hr
        refine ⟨by rw [hbuf, length_mapIdx], fun i n b hn hb => ?_, fun t rp hrp => ?_⟩
        · rw [hbuf', hn] at hb
          cases hb
          exact (hresolved i n hn).2 fun l hl => hr.hits i n l hn hl
        · obtain ⟨j, n, idp, hn, hx, hoff, hdata⟩ := hrel t rp hrp
          rw [filter_kept_eq_code hkept] at hn
          exact ⟨j, n, idp, hn, hx, by rw [hoff, Nat.zero_add], hdata⟩
    · refine iff_of_false (fun ha => ?_) fun hr => hkept hr.kept
      push Not at hkept
      obtain ⟨n, hn, hl, hk⟩ := hkept
      have hlt := length_filter_kept_lt hn hl (by simpa using hk)
      have hlen := ha.length
      rw [hbuf, length_mapIdx] at hlen
      omega

end

/-! ## Runs -/

/-- `mov r0, 0`. -/
def clearR0 : Asm := .insn ⟨0xb7#8, 0, 0, 0, 0⟩ (by decide)

/-- `exit`. -/
def bpfExit : Asm := .insn ⟨0x95#8, 0, 0, 0, 0⟩ (by decide)

/-- A jump to the label `l` over the label `1`, when so many labels have been handed out. -/
def jumpOver (l labels : ℕ) (hl : 1 < l) (h : l < labels) : Irlist where
  list := [⟨0, bpfJump l, none⟩, ⟨1, bpfNop, none⟩, ⟨0, clearR0, none⟩, ⟨l, bpfNop, none⟩, ⟨0, bpfExit, none⟩]
  len := 3
  label := labels
  len_eq := by
    have h0 : l ≠ 0 := by omega
    simp [Irnode.kept, bpfJump, bpfNop, clearR0, bpfExit, Asm.instr, BpfInsn.isNop, h0]
  label_lt := by
    intro n hn
    simp only [List.mem_cons, List.not_mem_nil, or_false] at hn
    rcases hn with rfl | rfl | rfl | rfl | rfl <;> dsimp only <;> omega

lemma wellLabelled_jumpOver {labels : ℕ} (hl : 1 < l) (h : l < labels) : WellLabelled (jumpOver l labels hl h) := by
  intro n hn m hm
  have htarget : m = l := by
    simp only [jumpOver, mem_cons, not_mem_nil, or_false] at hn
    rcases hn with rfl | rfl | rfl | rfl | rfl <;> simp_all [bpfJump, bpfNop, clearR0, bpfExit, Asm.target]
  subst htarget
  refine ⟨by omega, ?_⟩
  have h0 : ¬ (0 = m) := by omega
  have h1 : ¬ (1 = m) := by omega
  simp [placings, jumpOver, h0, h1]

def plainEnv : AsEnv := ⟨.dynamic, true, true, fun _ => some 0⟩

theorem assembled_jump : (dtAs plainEnv (jumpOver 2 3 (by decide) (by decide))).isSome ∧
    ∀ dp, dtAs plainEnv (jumpOver 2 3 (by decide) (by decide)) = some dp → Assembled (jumpOver 2 3 (by decide) (by decide)) dp := by
  refine ⟨rfl, (assembled_iff _ _ (wellLabelled_jumpOver _ _)).2 (.inr ⟨?_, ?_⟩)⟩
  · intro n hn hl
    simp only [jumpOver, mem_cons, not_mem_nil, or_false] at hn
    rcases hn with rfl | rfl | rfl | rfl | rfl
    all_goals first | rfl | cases hl
  · intro i n l hn hl
    rcases i with _ | _ | _ | i
    · cases hn
      cases hl
      rw [Hits]
      decide
    all_goals
      cases hn
      try cases hl

/-- A jump to the label 65537 goes to the label 1. -/
theorem jump_65537_to_1 : ∃ dlp, WellLabelled dlp ∧ ¬ ∀ dp, dtAs plainEnv dlp = some dp → Assembled dlp dp := by
  refine ⟨jumpOver 65537 65538 (by decide) (by decide), wellLabelled_jumpOver _ _, fun h => ?_⟩
  have hdp : dtAs plainEnv (jumpOver 65537 65538 (by decide) (by decide)) =
      some ⟨[⟨5#8, 0, 0, 0, 0⟩, clearR0.instr, bpfExit.instr], fun _ => []⟩ := rfl
  have htarget := ((h _ hdp).insns 0 ⟨0, bpfJump 65537, none⟩ _ rfl rfl).target 65537 rfl
  revert htarget
  decide

end DTrace.As
