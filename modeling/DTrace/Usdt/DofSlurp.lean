import DTrace.Usdt.DofRead

/-!
# Slurping

The two passes of `dof_slurp`.

* `HeaderOk`, `SectionOk` — what the first pass checks, as conditions on memory;
* `checkSections_iff` — the first pass goes well if and only if they hold;
* `relocTable_some`, `relocEntry_some` — what the second pass reads and writes.
-/

namespace DTrace.Usdt.Dof

open Lib Exec List

section

variable {ctx : Ctx} {s s' : St}

/-- `n` bytes at an offset can be read. -/
def Ctx.Mapped (ctx : Ctx) (mem : Bytes) (x n : ℕ) : Prop := ctx.at x + n ≤ mem.length

/-- The identification bytes. -/
structure IdentOk (ident : Bytes) : Prop where
  magic : ident.take 4 = [0x7f, 0x44, 0x4f, 0x46]
  model : (ident.getD 4 0).toNat = 1 ∨ (ident.getD 4 0).toNat = 2
  encoding : (ident.getD 5 0).toNat = 1
  version : (ident.getD 6 0).toNat = 1 ∨ (ident.getD 6 0).toNat = 2 ∨ (ident.getD 6 0).toNat = 3
  difvers : (ident.getD 7 0).toNat = 2
  ireg : (ident.getD 8 0).toNat ≤ 8
  treg : (ident.getD 9 0).toNat ≤ 8
  pad : firstSet 10 (ident.drop 10) = none

/-- What is checked of the header. -/
structure HeaderOk (ctx : Ctx) (mem : Bytes) : Prop where
  mapped : ∀ p ∈ [(40, 8), (0, 16), (16, 4), (24, 4), (28, 4), (32, 8)], ctx.Mapped mem p.1 p.2
  len : 64 ≤ fld ctx mem 40 8
  ident : IdentOk ((mem.drop (ctx.at 0)).take 16)
  flags : fld ctx mem 16 4 = 0
  secsize : fld ctx mem 24 4 ≠ 0
  off : fld ctx mem 32 8 ≤ fld ctx mem 40 8
  seclen : fld ctx mem 28 4 * fld ctx mem 24 4 ≤ fld ctx mem 40 8
  fin : (fld ctx mem 32 8 + fld ctx mem 28 4 * fld ctx mem 24 4) % 2 ^ 64 ≤ fld ctx mem 40 8
  offAlign : fld ctx mem 32 8 % 8 = 0
  sizeAlign : fld ctx mem 24 4 % 8 = 0

lemma read_bind {β : Type} {x n : ℕ} {f : Bytes → Exec St β} {b : β} : (read ctx x n >>= f) s = (some b, s') ↔
    ctx.at x + n ≤ s.mem.length ∧ f ((s.mem.drop (ctx.at x)).take n) (s.touch ctx (ctx.at x) n) = (some b, s') := by
  rw [bind_eq_some]
  constructor
  · rintro ⟨_, _, hread, hf⟩
    obtain ⟨hle, rfl, rfl⟩ := read_eq_some.1 hread
    exact ⟨hle, hf⟩
  · rintro ⟨hle, hf⟩
    exact ⟨_, _, read_eq_some.2 ⟨hle, rfl, rfl⟩, hf⟩

lemma checkHeader_iff {len : ℕ} : (∃ s', checkHeader ctx s = (some len, s')) ↔
    HeaderOk ctx s.mem ∧ len = fld ctx s.mem 40 8 := by
  simp only [checkHeader, loadsz, num_bind, ite_fail, read_bind]
  cases hpad : firstSet 10 (drop 10 (take 16 (drop (ctx.at 0) s.mem))) with
  | some p =>
    constructor
    · rintro ⟨s', -, -, -, -, -, -, -, -, -, -, h⟩
      exact absurd h fail_ne_some
    · rintro ⟨h, -⟩
      exact absurd (hpad.symm.trans h.ident.pad) (by simp)
  | none =>
    simp only [secsize, secnum, secoff, num_bind, ite_fail, pure_eq_some]
    constructor
    · rintro ⟨_, m1, hlen, m2, hmagic, hmodel, henc, hvers, hdif, hireg, htreg, m3, hflags, m4, hsize, m5, m6, hfit,
        hoff, halign, rfl, rfl⟩
      refine ⟨⟨by simp [Ctx.Mapped, m1, m2, m3, m4, m5, m6], by omega, ?_, not_not.1 hflags, hsize, by omega,
        by omega, by omega, by omega, by omega⟩, rfl⟩
      exact ⟨not_not.1 hmagic, by omega, by omega, by omega, by omega, by omega, by omega, hpad⟩
    · rintro ⟨h, rfl⟩
      have hmap := h.mapped
      simp only [mem_cons, not_mem_nil, or_false, forall_eq_or_imp, forall_eq, Ctx.Mapped] at hmap
      obtain ⟨m1, m2, m3, m4, m5, m6⟩ := hmap
      obtain ⟨hmagic, hmodel, henc, hvers, hdif, hireg, htreg, -⟩ := h.ident
      have hfit := h.fin
      have hfit' := h.seclen
      exact ⟨_, m1, not_lt.2 h.len, m2, not_not.2 hmagic, by omega, not_not.2 henc, by omega, not_not.2 hdif,
        not_lt.2 hireg, not_lt.2 htreg, m3, not_not.2 h.flags, m4, h.secsize, m5, m6, by have := h.off; omega,
        not_not.2 h.offAlign, not_not.2 h.sizeAlign, rfl, rfl⟩

lemma checkHeader_same {len : ℕ} (h : checkHeader ctx s = (some len, s')) : s.Same s' := by
  simp only [checkHeader, loadsz, num_bind, ite_fail, read_bind] at h
  obtain ⟨-, -, -, -, -, -, -, -, -, -, h⟩ := h
  rcases hpad : firstSet 10 (drop 10 (take 16 (drop (ctx.at 0) s.mem))) with _ | p <;> rw [hpad] at h
  · simp only [secsize, secnum, secoff, num_bind, ite_fail, pure_eq_some] at h
    obtain ⟨-, -, -, -, -, -, -, -, -, -, rfl⟩ := h
    exact ⟨rfl, rfl⟩
  · exact absurd h fail_ne_some

def lastAt (ctx : Ctx) (mem : Bytes) (sec : ℕ) : ℕ :=
  fld ctx mem (sec + 16) 8 + fld ctx mem (sec + 24) 8 + (2 ^ 64 - 1)

/-- What is checked of a section that is loaded. -/
structure LoadOk (ctx : Ctx) (mem : Bytes) (len sec : ℕ) : Prop where
  mapped : ctx.Mapped mem (sec + 4) 4 ∧ ctx.Mapped mem (sec + 16) 8 ∧ ctx.Mapped mem (sec + 24) 8
  align : fld ctx mem (sec + 4) 4 &&& (fld ctx mem (sec + 4) 4 + (2 ^ 32 - 1)) % 2 ^ 32 = 0
  offAlign : fld ctx mem (sec + 16) 8 &&& (fld ctx mem (sec + 4) 4 + (2 ^ 32 - 1)) % 2 ^ 32 = 0
  off : fld ctx mem (sec + 16) 8 ≤ len
  size : fld ctx mem (sec + 24) 8 ≤ len
  fin : (fld ctx mem (sec + 16) 8 + fld ctx mem (sec + 24) 8) % 2 ^ 64 ≤ len
  strtab : fld ctx mem sec 4 = sectStrtab →
    ctx.Mapped mem (lastAt ctx mem sec) 1 ∧ fld ctx mem (lastAt ctx mem sec) 1 = 0

/-- What is checked of a section. -/
structure SectionOk (ctx : Ctx) (mem : Bytes) (len i : ℕ) : Prop where
  mapped : ctx.Mapped mem (hdrAt ctx mem i) 4 ∧ ctx.Mapped mem (hdrAt ctx mem i + 8) 4
  loadable : isLoadable (fld ctx mem (hdrAt ctx mem i) 4) → isLoad (fld ctx mem (hdrAt ctx mem i + 8) 4)
  load : isLoad (fld ctx mem (hdrAt ctx mem i + 8) 4) → LoadOk ctx mem len (hdrAt ctx mem i)

lemma secAt_bind {β : Type} {i : ℕ} {f : ℕ → Exec St β} {b : β} : (secAt ctx i >>= f) s = (some b, s') ↔
    ctx.Mapped s.mem 32 8 ∧ ctx.Mapped s.mem 24 4 ∧
      f (hdrAt ctx s.mem i) ((s.touch ctx (ctx.at 32) 8).touch ctx (ctx.at 24) 4) = (some b, s') := by
  simp only [secAt, secoff, secsize, bind_assoc, pure_bind, num_bind]
  exact Iff.rfl

lemma checkSection_iff {len i : ℕ} (hoff : ctx.Mapped s.mem 32 8) (hsize : ctx.Mapped s.mem 24 4) :
    (∃ s', checkSection ctx len i s = (some (), s')) ↔ SectionOk ctx s.mem len i := by
  simp only [checkSection, secAt_bind, dofsType, dofsFlags, num_bind, ite_fail]
  by_cases hload : isLoad (fld ctx s.mem (hdrAt ctx s.mem i + 8) 4) = true
  · simp only [hload, Bool.not_true, Bool.false_eq_true, and_false, if_false, not_false_eq_true, true_and, dofsAlign,
      dofsOffset, dofsSize, num_bind, ite_fail]
    simp only [ite_eq_some, num_bind, fail_ne_some, pure_eq_some, and_false, false_or]
    constructor
    · rintro ⟨s', -, -, m1, m2, m3, halign, m4, hoffAlign, m5, hfit, hstr⟩
      refine ⟨⟨m1, m2⟩, fun _ => hload, fun _ => ⟨⟨m3, m4, m5⟩, not_not.1 halign, not_not.1 hoffAlign, by omega,
        by omega, by omega, fun htype => ?_⟩⟩
      obtain ⟨-, hmap, hlast, -⟩ | ⟨hne, -⟩ := hstr
      · exact ⟨hmap, not_not.1 hlast⟩
      · exact absurd htype hne
    · intro h
      obtain ⟨⟨m3, m4, m5⟩, halign, hoffAlign, hoff', hsize', hfin, hstr⟩ := h.load hload
      by_cases htype : fld ctx s.mem (hdrAt ctx s.mem i) 4 = sectStrtab
      · obtain ⟨hmap, hlast⟩ := hstr htype
        exact ⟨_, hoff, hsize, h.mapped.1, h.mapped.2, m3, not_not.2 halign, m4, not_not.2 hoffAlign, m5, by omega,
          .inl ⟨htype, hmap, not_not.2 hlast, trivial, rfl⟩⟩
      · exact ⟨_, hoff, hsize, h.mapped.1, h.mapped.2, m3, not_not.2 halign, m4, not_not.2 hoffAlign, m5, by omega,
          .inr ⟨htype, trivial, rfl⟩⟩
  · simp only [Bool.not_eq_true] at hload
    simp only [hload, Bool.not_false, and_true, if_true, pure_eq_some]
    constructor
    · rintro ⟨_, -, -, m1, m2, hloadable, -, -⟩
      refine ⟨⟨m1, m2⟩, fun hable => absurd hable hloadable, fun hload' => ?_⟩
      rw [hload] at hload'
      cases hload'
    · intro h
      refine ⟨_, hoff, hsize, h.mapped.1, h.mapped.2, fun hable => ?_, trivial, rfl⟩
      have hload' := h.loadable hable
      rw [hload] at hload'
      cases hload'

lemma checkSection_same {len i : ℕ} (h : checkSection ctx len i s = (some (), s')) : s.Same s' := by
  simp only [checkSection, secAt_bind, dofsType, dofsFlags, num_bind, ite_fail] at h
  obtain ⟨-, -, -, -, -, h⟩ := h
  rcases ite_eq_some.1 h with ⟨-, h⟩ | ⟨-, h⟩
  · cases h
    exact ⟨rfl, rfl⟩
  · simp only [dofsAlign, dofsOffset, dofsSize, num_bind, ite_fail] at h
    simp only [ite_eq_some, num_bind, fail_ne_some, pure_eq_some, and_false, false_or] at h
    obtain ⟨-, -, -, -, -, -, ⟨-, -, -, -, rfl⟩ | ⟨-, -, rfl⟩⟩ := h
    all_goals exact ⟨rfl, rfl⟩

section

variable {body : ℕ → Exec St Unit} {B : ℕ → Prop} {mem : Bytes} {fuel i : ℕ}

lemma secLoop_some (hbody : ∀ i s s', s.mem = mem → body i s = (some (), s') → B i ∧ s.Same s') (hmem : s.mem = mem)
    (h : secLoop ctx body fuel i s = (some (), s')) : (∀ j, i ≤ j → j < fld ctx mem 28 4 → B j) ∧ s.Same s' := by
  induction fuel generalizing i s with
  | zero => cases h
  | succ fuel ih =>
    simp only [secLoop, secnum, num_bind, hmem] at h
    obtain ⟨-, h⟩ := h
    rcases ite_eq_some.1 h with ⟨hlt, h⟩ | ⟨hge, h⟩
    · obtain ⟨_, s1, hturn, h⟩ := bind_eq_some.1 h
      obtain ⟨hB, hs1⟩ := hbody i (s.touch ctx (ctx.at 28) 4) s1 hmem hturn
      obtain ⟨hrest, hs2⟩ := ih (hs1.mem.trans hmem) h
      refine ⟨fun j hj hlt => ?_, hs2.mem.trans hs1.mem, hs2.out.trans hs1.out⟩
      rcases Nat.eq_or_lt_of_le hj with rfl | hj
      · exact hB
      · exact hrest j hj hlt
    · cases h
      exact ⟨fun j hj hlt => absurd hlt (by omega), rfl, rfl⟩

lemma secLoop_of (hmap : ctx.Mapped mem 28 4)
    (hbody : ∀ i s, s.mem = mem → B i → ∃ s', body i s = (some (), s') ∧ s.Same s') (hmem : s.mem = mem)
    (hfuel : 0 < fuel) (hturns : fld ctx mem 28 4 < i + fuel) (hall : ∀ j, i ≤ j → j < fld ctx mem 28 4 → B j) :
    ∃ s', secLoop ctx body fuel i s = (some (), s') := by
  induction fuel generalizing i s with
  | zero => omega
  | succ fuel ih =>
    simp only [secLoop, secnum, num_bind, hmem]
    by_cases hi : i < fld ctx mem 28 4
    · obtain ⟨_, hturn, hs1⟩ := hbody i (s.touch ctx (ctx.at 28) 4) hmem (hall i le_rfl hi)
      obtain ⟨s2, hrest⟩ := ih (i := i + 1) (hs1.mem.trans hmem) (by omega) (by omega) fun j hj => hall j (by omega)
      refine ⟨s2, hmap, ?_⟩
      rw [if_pos hi, bind_some hturn]
      exact hrest
    · refine ⟨s.touch ctx (ctx.at 28) 4, hmap, ?_⟩
      rw [if_neg hi]
      rfl

end

/-- What the first pass checks. -/
structure Checked (ctx : Ctx) (mem : Bytes) : Prop where
  header : HeaderOk ctx mem
  sections : ∀ i < fld ctx mem 28 4, SectionOk ctx mem (fld ctx mem 40 8) i

lemma HeaderOk.mapped_of (h : HeaderOk ctx s.mem) :
    ctx.Mapped s.mem 32 8 ∧ ctx.Mapped s.mem 24 4 ∧ ctx.Mapped s.mem 28 4 :=
  ⟨h.mapped (32, 8) (by simp), h.mapped (24, 4) (by simp), h.mapped (28, 4) (by simp)⟩

lemma checkSections_some (h : checkSections ctx s = (some (), s')) : Checked ctx s.mem ∧ s.Same s' := by
  obtain ⟨_, s1, hheader, h⟩ := bind_eq_some.1 h
  obtain ⟨hok, rfl⟩ := checkHeader_iff.1 ⟨s1, hheader⟩
  have hs1 := checkHeader_same hheader
  obtain ⟨hoff, hsize, -⟩ := hok.mapped_of
  obtain ⟨hall, hs2⟩ := secLoop_some (B := SectionOk ctx s.mem (fld ctx s.mem 40 8)) (fun i t t' hmem hturn => by
    have hok' := (checkSection_iff (by rwa [hmem]) (by rwa [hmem])).1 ⟨t', hturn⟩
    rw [hmem] at hok'
    exact ⟨hok', checkSection_same hturn⟩) hs1.mem h
  exact ⟨⟨hok, fun i hi => hall i (Nat.zero_le i) hi⟩, hs1.trans hs2⟩

theorem checkSections_iff : (checkSections ctx s).1 = some () ↔ Checked ctx s.mem := by
  constructor
  · intro h
    exact (checkSections_some (eq_of_fst h)).1
  · intro h
    obtain ⟨_, hheader⟩ := checkHeader_iff.2 ⟨h.header, rfl⟩
    have hs1 := checkHeader_same hheader
    obtain ⟨hoff, hsize, hnum⟩ := h.header.mapped_of
    have hlt := fld_lt ctx s.mem 28 4
    have hturn : ∀ i t, t.mem = s.mem → SectionOk ctx s.mem (fld ctx s.mem 40 8) i →
        ∃ t', checkSection ctx (fld ctx s.mem 40 8) i t = (some (), t') ∧ t.Same t' := by
      intro i t hmem hok
      rw [← hmem] at hoff hsize hok
      obtain ⟨t', hturn⟩ := (checkSection_iff hoff hsize).2 hok
      rw [hmem] at hturn
      exact ⟨t', hturn, checkSection_same hturn⟩
    obtain ⟨_, hloop⟩ := secLoop_of hnum hturn hs1.mem (by decide : 0 < maxTurns) (by rw [maxTurns]; omega)
      fun j _ hj => h.sections j hj
    rw [checkSections, bind_some hheader, hloop]

/-! ## Relocations -/

/-- What a relocation header says: the headers of its table and of its target, the first entry and how many there
are. -/
structure TableOk (ctx : Ctx) (mem : Bytes) (sec rs ts r n : ℕ) : Prop where
  size : 12 ≤ fld ctx mem (sec + 24) 8
  str : Referred ctx mem sectStrtab (fld ctx mem (fld ctx mem (sec + 16) 8) 4)
  rel : Referred ctx mem sectReltab (fld ctx mem (fld ctx mem (sec + 16) 8 + 4) 4)
  tgt : Referred ctx mem sectNone (fld ctx mem (fld ctx mem (sec + 16) 8 + 8) 4)
  rsAt : rs = hdrAt ctx mem (fld ctx mem (fld ctx mem (sec + 16) 8 + 4) 4)
  tsAt : ts = hdrAt ctx mem (fld ctx mem (fld ctx mem (sec + 16) 8 + 8) 4)
  entsize : 24 ≤ fld ctx mem (rs + 12) 4
  first : r = fld ctx mem (rs + 16) 8
  count : n = fld ctx mem (rs + 24) 8 / fld ctx mem (rs + 12) 4 % 2 ^ 32

lemma relocTable_some {sec rs ts r n : ℕ} (h : relocTable ctx sec s = (some (rs, ts, r, n), s')) :
    TableOk ctx s.mem sec rs ts r n ∧ s.Same s' := by
  simp only [relocTable, dofsOffset, dofsSize, dofsAlign, num_bind, ite_fail] at h
  obtain ⟨-, -, -, hsize, -, h⟩ := h
  obtain ⟨ss, s1, hss, h⟩ := bind_eq_some.1 h
  simp only [num_bind] at h
  obtain ⟨-, h⟩ := h
  obtain ⟨rs', s2, hrs, h⟩ := bind_eq_some.1 h
  simp only [num_bind] at h
  obtain ⟨-, h⟩ := h
  obtain ⟨ts', s3, hts, h⟩ := bind_eq_some.1 h
  have hm1 : s1.mem = s.mem := (dofSect_mem hss).trans rfl
  have hm2 : s2.mem = s.mem := (dofSect_mem hrs).trans hm1
  have hm3 : s3.mem = s.mem := (dofSect_mem hts).trans hm2
  rcases ss with _ | _
  · cases h
  rcases rs' with _ | _
  · cases h
  rcases ts' with _ | _
  · cases h
  obtain ⟨-, hstr, hs1⟩ := dofSect_some hss
  obtain ⟨rfl, hrel, hs2⟩ := dofSect_some hrs
  obtain ⟨rfl, htgt, hs3⟩ := dofSect_some hts
  simp only [hm1] at hrel
  simp only [hm2] at htgt
  simp only [dofsEntsize, num_bind, ite_fail, pure_eq_some, hm1, hm2, hm3, Prod.mk.injEq] at h
  obtain ⟨-, -, hent, -, -, ⟨rfl, rfl, rfl, rfl⟩, rfl⟩ := h
  refine ⟨⟨by omega, hstr, hrel, htgt, rfl, rfl, by omega, rfl, rfl⟩, hm3, ?_⟩
  exact hs3.out.trans (hs2.out.trans hs1.out)

def relocAt (ctx : Ctx) (mem : Bytes) (ts r : ℕ) : ℕ := fld ctx mem (ts + 16) 8 + fld ctx mem (r + 8) 8

def patch (mem : Bytes) (a : ℕ) (bs : Bytes) : Bytes := mem.take a ++ (bs ++ mem.drop (a + bs.length))

/-- An entry is applied. -/
structure Applies (ctx : Ctx) (mem : Bytes) (ts r : ℕ) : Prop where
  type : fld ctx mem (r + 4) 4 = 1
  lt : fld ctx mem (r + 8) 8 < fld ctx mem (ts + 24) 8
  le : (fld ctx mem (r + 8) 8 + 8) % 2 ^ 64 ≤ fld ctx mem (ts + 24) 8
  below : fld ctx mem (relocAt ctx mem ts r) 8 ≤ ctx.addr.toNat
  mapped : ctx.Mapped mem (relocAt ctx mem ts r) 8

lemma write_some {x : ℕ} {bs : Bytes} (h : write ctx x bs s = (some (), s')) :
    ctx.at x + bs.length ≤ s.mem.length ∧ s'.mem = patch s.mem (ctx.at x) bs ∧ s'.out = s.out := by
  rw [write] at h
  split at h
  · cases h
    exact ⟨‹_›, rfl, rfl⟩
  · cases h

lemma relocEntry_some {ts r : ℕ} (h : relocEntry ctx ts r s = (some (), s')) :
    s.Same s' ∨ (Applies ctx s.mem ts r ∧ s'.out = s.out ∧
      ∃ v, s'.mem = patch s.mem (ctx.at (relocAt ctx s.mem ts r)) (Bytes.ofNat 8 v)) := by
  simp only [relocEntry, dofsOffset, dofsSize, num_bind] at h
  obtain ⟨-, -, -, h⟩ := h
  rcases ite_eq_some.1 h with ⟨-, h⟩ | ⟨-, h⟩
  · cases h
    exact .inl ⟨rfl, rfl⟩
  rcases ite_eq_some.1 h with ⟨htype, h⟩ | ⟨-, h⟩
  · simp only [num_bind, ite_fail] at h
    obtain ⟨-, hfit, -, hmap, h⟩ := h
    rcases ite_eq_some.1 h with ⟨-, h⟩ | ⟨hle, h⟩
    · cases h
      exact .inl ⟨rfl, rfl⟩
    · obtain ⟨-, hmem, hout⟩ := write_some h
      exact .inr ⟨⟨htype, by omega, by omega, not_lt.1 hle, hmap⟩, hout, _, hmem⟩
  · exact absurd h fail_ne_some

end

end DTrace.Usdt.Dof
