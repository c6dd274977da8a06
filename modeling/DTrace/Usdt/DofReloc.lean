import DTrace.Usdt.DofSlurp

/-!
# Relocations and the checks before them

Relocations are applied after the headers have been checked, and nothing keeps an entry from a target that overlaps a
header.

* `Vital` — the bytes that have been checked;
* `Apart` — an entry does not touch them;
* `reloc_checked` — if no entry touches them, the checks would pass at any time.
-/

namespace DTrace.Usdt.Dof

open Lib Exec List

variable {i a : ℕ} {ctx : Ctx} {A : ℕ → Prop}

section

variable {m m' : Bytes}

/-- An address is one of `n` from an offset on. -/
def Ctx.In (ctx : Ctx) (x n a : ℕ) : Prop := ctx.at x ≤ a ∧ a < ctx.at x + n

/-- Memory is the same at some addresses. -/
structure Agree (A : ℕ → Prop) (m m' : Bytes) : Prop where
  length : m'.length = m.length
  get : ∀ a, A a → m'[a]? = m[a]?

lemma Agree.refl (A : ℕ → Prop) (m : Bytes) : Agree A m m := ⟨rfl, fun _ _ => rfl⟩

variable {x n : ℕ} {bs : Bytes}

lemma Agree.slice (h : Agree A m m') (hA : ∀ a, ctx.In x n a → A a) :
    (m'.drop (ctx.at x)).take n = (m.drop (ctx.at x)).take n := by
  apply ext_getElem?
  intro k
  rw [getElem?_take, getElem?_take, getElem?_drop, getElem?_drop]
  split
  · exact h.get _ (hA _ ⟨by omega, by omega⟩)
  · rfl

lemma Agree.fld (h : Agree A m m') (hA : ∀ a, ctx.In x n a → A a) : fld ctx m' x n = fld ctx m x n := by
  rw [Dof.fld, h.slice hA, Dof.fld]

lemma Agree.mapped (h : Agree A m m') : ctx.Mapped m' x n ↔ ctx.Mapped m x n := by
  rw [Ctx.Mapped, Ctx.Mapped, h.length]

lemma length_patch (h : a + bs.length ≤ m.length) : (patch m a bs).length = m.length := by
  simp only [patch, length_append, length_take, length_drop]
  omega

lemma getElem?_patch {b : ℕ} (h : a + bs.length ≤ m.length) (hb : ¬(a ≤ b ∧ b < a + bs.length)) :
    (patch m a bs)[b]? = m[b]? := by
  rw [patch]
  by_cases hlt : b < a
  · rw [getElem?_append_left (by rw [length_take]; omega), getElem?_take, if_pos hlt]
  · have hlen : (m.take a).length = a := by rw [length_take]; omega
    rw [getElem?_append_right (by omega), hlen, getElem?_append_right (by omega), getElem?_drop]
    congr 1
    omega

lemma Agree.patch (h : Agree A m m') (hle : a + bs.length ≤ m'.length)
    (hapart : ∀ b, A b → ¬(a ≤ b ∧ b < a + bs.length)) : Agree A m (patch m' a bs) :=
  ⟨(length_patch hle).trans h.length, fun b hb => by rw [getElem?_patch hle (hapart b hb), h.get b hb]⟩

/-! ## The bytes that have been checked -/

/-- The fields of the header and of a section header. -/
def headerFields : List (ℕ × ℕ) := [(40, 8), (0, 16), (16, 4), (24, 4), (28, 4), (32, 8)]
def sectionFields : List (ℕ × ℕ) := [(0, 4), (4, 4), (8, 4), (16, 8), (24, 8)]

/-- The bytes that the first pass of `dof_slurp` looks at: the header, the section headers and the ends of string
tables. -/
inductive Vital (ctx : Ctx) (m : Bytes) (a : ℕ) : Prop
  | header (p : ℕ × ℕ) (hp : p ∈ headerFields) (ha : ctx.In p.1 p.2 a)
  | section (i : ℕ) (hi : i < fld ctx m 28 4) (p : ℕ × ℕ) (hp : p ∈ sectionFields)
      (ha : ctx.In (hdrAt ctx m i + p.1) p.2 a)
  | strtab (i : ℕ) (hi : i < fld ctx m 28 4) (htype : fld ctx m (hdrAt ctx m i) 4 = sectStrtab)
      (ha : ctx.In (lastAt ctx m (hdrAt ctx m i)) 1 a)

section

variable (h : Agree (Vital ctx m) m m')
include h

lemma Agree.headerFld (hp : (x, n) ∈ headerFields) : Dof.fld ctx m' x n = Dof.fld ctx m x n :=
  h.fld fun _ ha => .header (x, n) hp ha

lemma Agree.hdrAt (i : ℕ) : Dof.hdrAt ctx m' i = Dof.hdrAt ctx m i := by
  rw [Dof.hdrAt, Dof.hdrAt, h.headerFld (by decide), h.headerFld (by decide)]

lemma Agree.sectionFld {x n : ℕ} (hi : i < Dof.fld ctx m 28 4) (hp : (x, n) ∈ sectionFields) :
    Dof.fld ctx m' (Dof.hdrAt ctx m i + x) n = Dof.fld ctx m (Dof.hdrAt ctx m i + x) n :=
  h.fld fun _ ha => .section i hi (x, n) hp ha

lemma Agree.lastAt (hi : i < Dof.fld ctx m 28 4) :
    Dof.lastAt ctx m' (Dof.hdrAt ctx m i) = Dof.lastAt ctx m (Dof.hdrAt ctx m i) := by
  rw [Dof.lastAt, Dof.lastAt, h.sectionFld hi (by decide),
    h.sectionFld hi (by decide)]

lemma Agree.headerOk (hok : HeaderOk ctx m) : HeaderOk ctx m' := by
  have h40 := h.headerFld (x := 40) (n := 8) (by decide)
  have h16 := h.headerFld (x := 16) (n := 4) (by decide)
  have h24 := h.headerFld (x := 24) (n := 4) (by decide)
  have h28 := h.headerFld (x := 28) (n := 4) (by decide)
  have h32 := h.headerFld (x := 32) (n := 8) (by decide)
  have hident :=
    h.slice fun _ ha => .header (0, 16) (by decide) ha
  obtain ⟨hmap, hlen, hid, hflags, hsize, hoff, hseclen, hfin, halign, halign'⟩ := hok
  constructor
  · exact fun p hp => h.mapped.2 (hmap p hp)
  · rwa [h40]
  · rwa [hident]
  · rwa [h16]
  · rwa [h24]
  · rwa [h32, h40]
  · rwa [h28, h24, h40]
  · rwa [h32, h28, h24, h40]
  · rwa [h32]
  · rwa [h24]

lemma Agree.sectionOk (hi : i < Dof.fld ctx m 28 4)
    (hok : SectionOk ctx m (Dof.fld ctx m 40 8) i) : SectionOk ctx m' (Dof.fld ctx m' 40 8) i := by
  have h40 := h.headerFld (x := 40) (n := 8) (by decide)
  have htype := h.sectionFld (x := 0) (n := 4) hi (by decide)
  have halign := h.sectionFld (x := 4) (n := 4) hi (by decide)
  have hflags := h.sectionFld (x := 8) (n := 4) hi (by decide)
  have hoff := h.sectionFld (x := 16) (n := 8) hi (by decide)
  have hsize := h.sectionFld (x := 24) (n := 8) hi (by decide)
  rw [Nat.add_zero] at htype
  obtain ⟨⟨hmap, hmap'⟩, hloadable, hload⟩ := hok
  refine ⟨?_, ?_, fun hflag => ?_⟩
  · rw [h.hdrAt]
    exact ⟨h.mapped.2 hmap, h.mapped.2 hmap'⟩
  · rw [h.hdrAt, htype, hflags]
    exact hloadable
  · rw [h.hdrAt, hflags] at hflag
    obtain ⟨⟨hm1, hm2, hm3⟩, hal, hoal, hol, hsl, hfin, hstr⟩ := hload hflag
    rw [h.hdrAt, h40]
    constructor
    · exact ⟨h.mapped.2 hm1, h.mapped.2 hm2, h.mapped.2 hm3⟩
    · rw [halign]
      exact hal
    · rw [halign, hoff]
      exact hoal
    · rw [hoff]
      exact hol
    · rw [hsize]
      exact hsl
    · rw [hoff, hsize]
      exact hfin
    · intro hty
      rw [htype] at hty
      obtain ⟨hlast, hzero⟩ := hstr hty
      rw [h.lastAt hi]
      refine ⟨h.mapped.2 hlast, ?_⟩
      rw [h.fld fun _ ha => .strtab i hi hty ha]
      exact hzero

lemma Agree.checked (hok : Checked ctx m) : Checked ctx m' := by
  refine ⟨h.headerOk hok.header, fun i hi => ?_⟩
  rw [h.headerFld (by decide)] at hi
  exact h.sectionOk hi (hok.sections i hi)

lemma Agree.vital (ha : Vital ctx m a) : Vital ctx m' a := by
  have h28 := h.headerFld (x := 28) (n := 4) (by decide)
  cases ha with
  | header p hp ha => exact .header p hp ha
  | «section» i hi p hp ha =>
    refine .section i (by rw [h28]; exact hi) p hp ?_
    rw [h.hdrAt]
    exact ha
  | strtab i hi htype ha =>
    have htype' := h.sectionFld (x := 0) (n := 4) hi (by decide)
    rw [Nat.add_zero] at htype'
    refine .strtab i (by rw [h28]; exact hi) ?_ ?_
    · rw [h.hdrAt, htype']
      exact htype
    · rw [h.hdrAt, h.lastAt hi]
      exact ha

end

end

/-! ## Runs -/

/-- A section is loaded and is a relocation header, for a table with `n` entries from `r` on. -/
def IsTable (ctx : Ctx) (i : ℕ) (s : St) (rs ts r n : ℕ) (s' : St) : Prop :=
  ∃ sec s₁ flags s₂ type s₃, secAt ctx i s = (some sec, s₁) ∧ dofsFlags ctx sec s₁ = (some flags, s₂) ∧
    isLoad flags ∧ dofsType ctx sec s₂ = (some type, s₃) ∧ type = sectUrelhdr ∧
    relocTable ctx sec s₃ = (some (rs, ts, r, n), s')

variable {s : St}

section

variable {rs ts r n : ℕ} {s' : St}

lemma IsTable.same (h : IsTable ctx i s rs ts r n s') : s.Same s' := by
  obtain ⟨_, _, _, _, _, _, hsec, hflags, -, htype, -, htable⟩ := h
  obtain ⟨-, hs1⟩ := secAt_eq_some hsec
  obtain ⟨-, -, rfl⟩ := num_eq_some.1 hflags
  obtain ⟨-, -, rfl⟩ := num_eq_some.1 htype
  obtain ⟨-, hs4⟩ := relocTable_some htable
  exact hs1.trans ⟨hs4.mem, hs4.out⟩

lemma relocSection_some (h : relocSection ctx i s = (some (), s')) :
    s.Same s' ∨ ∃ rs ts r n s1, IsTable ctx i s rs ts r n s1 ∧ relocLoop ctx rs ts n r s1 = (some (), s') := by
  obtain ⟨sec, s1, hsec, h⟩ := bind_eq_some.1 h
  obtain ⟨flags, s2, hflags, h⟩ := bind_eq_some.1 h
  obtain ⟨-, hs1⟩ := secAt_eq_some hsec
  obtain ⟨-, -, hs2⟩ := num_eq_some.1 hflags
  rcases ite_eq_some.1 h with ⟨-, h⟩ | ⟨hload, h⟩
  · cases h
    rw [hs2]
    exact .inl ⟨hs1.mem, hs1.out⟩
  · obtain ⟨type, s3, htype, h⟩ := bind_eq_some.1 h
    obtain ⟨-, -, hs3⟩ := num_eq_some.1 htype
    rcases ite_eq_some.1 h with ⟨hrel, h⟩ | ⟨-, h⟩
    · obtain ⟨⟨rs, ts, r, n⟩, s4, htable, h⟩ := bind_eq_some.1 h
      exact .inr ⟨rs, ts, r, n, s4, ⟨sec, s1, flags, s2, type, s3, hsec, hflags, by simpa using hload, htype, hrel,
        htable⟩, h⟩
    · cases h
      rw [hs3, hs2]
      exact .inl ⟨hs1.mem, hs1.out⟩

end

section

variable (ctx : Ctx) (P : ℕ → ℕ → St → Prop)

/-- `P` holds of the target section, of every entry of a relocation table and of the state in which it is reached. -/
def EntriesMeet (rs ts : ℕ) : ℕ → ℕ → St → Prop
  | 0, _, _ => True
  | n + 1, r, s => P ts r s ∧ ∀ s₁ entsize s₂, relocEntry ctx ts r s = (some (), s₁) →
      dofsEntsize ctx rs s₁ = (some entsize, s₂) → EntriesMeet rs ts n (r + entsize) s₂

/-- The same for the entries that one section refers to, if it is a relocation header. -/
def TableMeets (i : ℕ) (s : St) : Prop :=
  ∀ rs ts r n s', IsTable ctx i s rs ts r n s' → EntriesMeet ctx P rs ts n r s'

def RelocsMeet (s : St) : Prop := LoopMeets ctx (relocSection ctx) (TableMeets ctx P) maxTurns 0 s

variable {ctx P} {Q : ℕ → ℕ → St → Prop} {I : St → Prop} (hsame : ∀ s s', s.Same s' → I s → I s')

section

variable (hentry : ∀ ts r s, I s → P ts r s → Q ts r s ∧ ∀ s', relocEntry ctx ts r s = (some (), s') → I s')

include hsame hentry

/-- What is kept by each entry that satisfies `P` holds in every state reached. -/
lemma EntriesMeet.run {rs ts n r : ℕ} (hI : I s) (h : EntriesMeet ctx P rs ts n r s) :
    EntriesMeet ctx Q rs ts n r s ∧ ∀ s', relocLoop ctx rs ts n r s = (some (), s') → I s' := by
  induction n generalizing r s with
  | zero =>
    refine ⟨trivial, fun s' h => ?_⟩
    cases h
    exact hI
  | succ n ih =>
    obtain ⟨hP, hrest⟩ := h
    obtain ⟨hQ, hkeep⟩ := hentry ts r s hI hP
    have hent : ∀ s1 entsize s2, relocEntry ctx ts r s = (some (), s1) → dofsEntsize ctx rs s1 = (some entsize, s2) →
        I s2 := by
      intro s1 entsize s2 hrun hn
      obtain ⟨-, -, rfl⟩ := num_eq_some.1 hn
      exact hsame s1 _ ⟨rfl, rfl⟩ (hkeep s1 hrun)
    constructor
    · refine ⟨hQ, fun s1 entsize s2 hrun hn => ?_⟩
      exact (ih (hent s1 entsize s2 hrun hn) (hrest s1 entsize s2 hrun hn)).1
    · intro s' hloop
      obtain ⟨_, s1, hrun, hloop⟩ := bind_eq_some.1 hloop
      obtain ⟨entsize, s2, hn, hloop⟩ := bind_eq_some.1 hloop
      exact (ih (hent s1 entsize s2 hrun hn) (hrest s1 entsize s2 hrun hn)).2 s' hloop

lemma RelocsMeet.run (hI : I s) (h : RelocsMeet ctx P s) :
    RelocsMeet ctx Q s ∧ ∀ s', relocSections ctx s = (some (), s') → I s' := by
  have htable : ∀ i s rs ts r n s1, I s → TableMeets ctx P i s → IsTable ctx i s rs ts r n s1 → _ :=
    fun i s rs ts r n s1 hI hP ht => EntriesMeet.run hsame hentry (hsame s s1 ht.same hI) (hP rs ts r n s1 ht)
  refine LoopMeets.run hsame (fun i s hI hP => ⟨?_, fun s' hturn => ?_⟩) hI h
  · intro rs ts r n s1 ht
    exact (htable i s rs ts r n s1 hI hP ht).1
  · rcases relocSection_some hturn with hs | ⟨rs, ts, r, n, s1, ht, hloop⟩
    · exact hsame s s' hs hI
    · exact (htable i s rs ts r n s1 hI hP ht).2 s' hloop

end

lemma entriesMeet_true (rs ts n r : ℕ) (s : St) : EntriesMeet ctx (fun _ _ _ => True) rs ts n r s := by
  induction n generalizing r s with
  | zero => trivial
  | succ n ih => exact ⟨trivial, fun _ _ _ _ _ => ih _ _⟩

include hsame in
lemma relocSections_keep (hentry : ∀ ts r s s', I s → relocEntry ctx ts r s = (some (), s') → I s') {s' : St} (hI : I s)
    (h : relocSections ctx s = (some (), s')) : I s' := by
  have hmeet : RelocsMeet ctx (fun _ _ _ => True) s := .intro (fun _ _ _ _ => trivial)
    (fun _ _ _ _ => ⟨fun rs ts r n s' _ => entriesMeet_true rs ts n r s', fun _ _ => trivial⟩) trivial
  exact (RelocsMeet.run hsame
    (fun ts r t ht _ => ⟨trivial, fun t' hrun => hentry ts r t t' ht hrun⟩) hI hmeet).2 s' h

end

/-! ## Checked bytes -/

section

/-- An entry that is applied does not touch a byte that has been checked. -/
def Apart (ctx : Ctx) (ts r : ℕ) (s : St) : Prop :=
  Applies ctx s.mem ts r → ∀ a, Vital ctx s.mem a → ¬ctx.In (relocAt ctx s.mem ts r) 8 a

/-- The checks of the first pass would pass. -/
def Passes (ctx : Ctx) (s : St) : Prop := (checkSections ctx s).1 = some ()

lemma Agree.relocEntry {m : Bytes} {ts r : ℕ} {s' : St} (h : Agree A m s.mem)
    (hapart : Applies ctx s.mem ts r → ∀ a, A a → ¬ctx.In (relocAt ctx s.mem ts r) 8 a)
    (hrun : relocEntry ctx ts r s = (some (), s')) : Agree A m s'.mem := by
  rcases relocEntry_some hrun with hsame | ⟨happlies, -, v, hmem⟩
  · rw [hsame.mem]
    exact h
  · rw [hmem]
    refine h.patch ?_ fun a ha => ?_
    · rw [Bytes.length_ofNat]
      exact happlies.mapped
    · rw [Bytes.length_ofNat]
      exact hapart happlies a ha

/-- **Relocations keep the checks.**  If no relocation that is applied touches a byte that has been checked, the
checks would pass before every entry and after all of them. -/
theorem reloc_checked {s s₁ : St} (h : checkSections ctx s = (some (), s₁))
    (hapart : RelocsMeet ctx (Apart ctx) s₁) :
    RelocsMeet ctx (fun _ _ t => Passes ctx t) s₁ ∧
      ∀ s₂, relocSections ctx s₁ = (some (), s₂) → Passes ctx s₂ := by
  obtain ⟨hchecked, hs₁⟩ := checkSections_some h
  have hpass : ∀ t : St, Agree (Vital ctx s.mem) s.mem t.mem → Passes ctx t := fun t ht =>
    checkSections_iff.2 (ht.checked hchecked)
  obtain ⟨hmeet, hend⟩ := RelocsMeet.run
    (I := fun t => Agree (Vital ctx s.mem) s.mem t.mem) (fun t t' hsame ht => by rw [hsame.mem]; exact ht)
    (fun ts r t ht hP => ⟨hpass t ht, fun t' hrun => ht.relocEntry (fun happ a ha => hP happ a (ht.vital ha)) hrun⟩)
    (by rw [hs₁.mem]; exact Agree.refl _ _) hapart
  exact ⟨hmeet, fun s₂ hrel => hpass s₂ (hend s₂ hrel)⟩

end

/-- A DOF with one relocation, at `roff` of a section with `tsize` bytes at `toff`. -/
def relocDof (toff tsize roff : ℕ) : Bytes :=
  dofHdr 1 4 240 ++ secHdr sectStrtab 1 0 192 1 ++ secHdr sectUrelhdr 4 0 196 12 ++ secHdr sectReltab 8 24 208 24 ++
    secHdr sectProbes 8 48 toff tsize ++ List.replicate 4 0 ++ [0, 2, 3].flatMap (Bytes.ofNat 4) ++
    (Bytes.ofNat 4 0 ++ Bytes.ofNat 4 1 ++ Bytes.ofNat 8 roff ++ Bytes.ofNat 8 0) ++ Bytes.ofNat 8 16

def relocCtx (block : Bytes) : Ctx := { smallCtx block with addr := 0x400000 }

/-- A DOF whose relocation is in a section of its own, behind everything else. -/
def goodReloc : Bytes := relocDof 232 8 0
def goodCtx : Ctx := relocCtx goodReloc
def goodMem : Bytes := (smallSt goodReloc).mem

section

variable {t : Bytes} (h : Agree (· < 240) goodMem t)

include h

lemma good_fld {x n : ℕ} (hx : goodCtx.at x + n ≤ 240) : fld goodCtx t x n = fld goodCtx goodMem x n :=
  h.fld fun a ha => by
    have := ha.2
    omega

lemma good_hdrAt (hi : i < 4) : hdrAt goodCtx t i = 64 + 32 * i := by
  rw [hdrAt, good_fld h (by decide), good_fld h (by decide)]
  revert i
  decide +kernel

lemma good_type (hi : i < 4) :
    fld goodCtx t (hdrAt goodCtx t i) 4 = [sectStrtab, sectUrelhdr, sectReltab, sectProbes].getD i 0 := by
  have hat : goodCtx.at (64 + 32 * i) + 4 ≤ 240 := by
    revert i
    decide
  rw [good_hdrAt h hi, good_fld h hat]
  revert i
  decide +kernel

lemma good_vital (ha : Vital goodCtx t a) : a < 240 := by
  have hnum : fld goodCtx t 28 4 = 4 := by
    rw [good_fld h (by decide)]
    decide +kernel
  cases ha with
  | header p hp ha =>
    have hle : ∀ p ∈ headerFields, goodCtx.at p.1 + p.2 ≤ 240 := by decide
    have := ha.2
    have := hle p hp
    omega
  | «section» i hi p hp ha =>
    rw [hnum] at hi
    have hle : ∀ i < 4, ∀ p ∈ sectionFields, goodCtx.at (64 + 32 * i + p.1) + p.2 ≤ 240 := by decide
    rw [good_hdrAt h hi] at ha
    have := ha.2
    have := hle i hi p hp
    omega
  | strtab i hi htype ha =>
    rw [hnum] at hi
    have hzero : ∀ i < 4, [sectStrtab, sectUrelhdr, sectReltab, sectProbes].getD i 0 = sectStrtab → i = 0 := by decide
    obtain rfl := hzero i hi ((good_type h hi).symm.trans htype)
    have hlast : lastAt goodCtx t (hdrAt goodCtx t 0) = lastAt goodCtx goodMem 64 := by
      rw [good_hdrAt h (by decide), lastAt, lastAt, good_fld h (by decide),
        good_fld h (by decide)]
    have hlt : goodCtx.at (lastAt goodCtx goodMem 64) + 1 ≤ 240 := by decide +kernel
    rw [hlast] at ha
    have := ha.2
    omega

end

/-- Only the second section is a relocation header, and its table has one entry, with a target behind everything. -/
lemma good_table {rs ts r n : ℕ} {s' : St} (h : Agree (· < 240) goodMem s.mem) (hi : i < fld goodCtx s.mem 28 4)
    (ht : IsTable goodCtx i s rs ts r n s') : n = 1 ∧ goodCtx.at (relocAt goodCtx s.mem ts r) = 240 := by
  have hnum : fld goodCtx s.mem 28 4 = 4 := by
    rw [good_fld h (by decide)]
    decide +kernel
  rw [hnum] at hi
  obtain ⟨_, _, _, _, _, _, hsec, hflags, -, htype, hrel, htable⟩ := ht
  obtain ⟨rfl, hs1⟩ := secAt_eq_some hsec
  obtain ⟨-, -, rfl⟩ := num_eq_some.1 hflags
  obtain ⟨-, rfl, rfl⟩ := num_eq_some.1 htype
  obtain ⟨hok, -⟩ := relocTable_some htable
  simp only [hs1.mem] at hok hrel
  have hone : ∀ i < 4, [sectStrtab, sectUrelhdr, sectReltab, sectProbes].getD i 0 = sectUrelhdr → i = 1 := by decide
  obtain rfl := hone i hi ((good_type h hi).symm.trans hrel)
  have hdofr : fld goodCtx s.mem (hdrAt goodCtx s.mem 1 + 16) 8 = 196 := by
    rw [good_hdrAt h hi, good_fld h (by decide)]
    decide +kernel
  have hrs : rs = 128 := by
    rw [hok.rsAt, hdofr, good_fld h (by decide)]
    exact good_hdrAt h (by decide +kernel)
  have hts : ts = 160 := by
    rw [hok.tsAt, hdofr, good_fld h (by decide)]
    exact good_hdrAt h (by decide +kernel)
  have hcount := hok.count
  have hfirst := hok.first
  rw [hrs, good_fld h (by decide), good_fld h (by decide)] at hcount
  rw [hrs, good_fld h (by decide)] at hfirst
  have hr : r = 208 := hfirst.trans (by decide +kernel)
  refine ⟨hcount.trans (by decide +kernel), ?_⟩
  rw [relocAt, hts, hr, good_fld h (by decide), good_fld h (by decide)]
  decide +kernel

lemma good_apart (hs : s.mem = goodMem) : RelocsMeet goodCtx (Apart goodCtx) s := by
  refine .intro (I := fun s => Agree (· < 240) goodMem s.mem)
    (fun s s' hsame h => by rw [hsame.mem]; exact h)
    (fun i s h hi => ⟨fun rs ts r n s' ht => ?_, fun s' hturn => ?_⟩) (by rw [hs]; exact Agree.refl _ _)
  · obtain ⟨rfl, hat⟩ := good_table h hi ht
    refine ⟨fun _ a ha hin => ?_, fun _ _ _ _ _ => trivial⟩
    rw [ht.same.mem] at ha hin
    have hlt := good_vital h ha
    have := hin.1
    omega
  · rcases relocSection_some hturn with hsame | ⟨_, _, r, n, _, ht, hloop⟩
    · rw [hsame.mem]
      exact h
    · obtain ⟨rfl, hat⟩ := good_table h hi ht
      obtain ⟨_, s2, hentry, hloop⟩ := bind_eq_some.1 hloop
      obtain ⟨_, _, hent, hloop⟩ := bind_eq_some.1 hloop
      obtain ⟨-, -, rfl⟩ := num_eq_some.1 hent
      cases hloop
      rcases relocEntry_some hentry with hsame | ⟨happlies, -, v, hmem⟩
      · rw [show (s2.touch goodCtx _ _).mem = s.mem from hsame.mem.trans ht.same.mem]
        exact h
      · rw [ht.same.mem, hat] at hmem
        have hle := happlies.mapped
        rw [ht.same.mem, Ctx.Mapped, hat] at hle
        rw [show (s2.touch goodCtx _ _).mem = _ from hmem]
        refine ⟨?_, fun a ha => ?_⟩
        · rw [length_patch (by rwa [Bytes.length_ofNat])]
          exact h.length
        · rw [getElem?_patch (by rwa [Bytes.length_ofNat]) (by omega)]
          exact h.get a ha

theorem reloc_good :
    (relocSections goodCtx (checkSections goodCtx (smallSt goodReloc)).2).1 = some () ∧
      Passes goodCtx (relocSections goodCtx (checkSections goodCtx (smallSt goodReloc)).2).2 := by
  have hcheck : (checkSections goodCtx (smallSt goodReloc)).1 = some () := by decide +kernel
  have hrel : (relocSections goodCtx (checkSections goodCtx (smallSt goodReloc)).2).1 = some () := by decide +kernel
  have hmem := (checkSections_some (eq_of_fst hcheck)).2.mem
  exact ⟨hrel, (reloc_checked (eq_of_fst hcheck) (good_apart hmem)).2 _ (eq_of_fst hrel)⟩

/-- The relocation is applied to the offset in the header of its own target section. -/
theorem reloc_hits_header :
    (checkSections (relocCtx (relocDof 160 32 16)) (smallSt (relocDof 160 32 16))).1 = some () ∧
      (relocSections (relocCtx (relocDof 160 32 16))
        (checkSections (relocCtx (relocDof 160 32 16)) (smallSt (relocDof 160 32 16))).2).1 = some () ∧
      ¬Passes (relocCtx (relocDof 160 32 16)) (relocSections (relocCtx (relocDof 160 32 16))
        (checkSections (relocCtx (relocDof 160 32 16)) (smallSt (relocDof 160 32 16))).2).2 := by
  unfold Passes
  decide +kernel

end DTrace.Usdt.Dof
