import DTrace.Usdt.NotesEmit
import DTrace.Usdt.NotesScan

/-!
# Where the parser of notes reads

The parser reads its block only, and of a note the description only, exactly as long as what it takes for strings and
counts ends there.

* `NoteSafe` — the name of a note ends in the block, and its description has what its contents need;
* `Reaches` — the notes that the loop comes to, with the state they are parsed in;
* `parseNote_stays` — one note;
* `bounds_iff` — all of them.
-/

namespace DTrace.Usdt

open Lib List Exec

/-- The block from the name of a note on. -/
def St.named (ctx : Ctx) (s : St) (note : Note) : Bytes := (s.mem.take ctx.size).drop note.name

/-- The name of the note ends in the block, and the scan of its description stays in the description. -/
structure NoteSafe (ctx : Ctx) (s : St) (note : Note) : Prop where
  name : 0 ∈ s.named ctx note
  prov : litProv <+: s.named ctx note →
    provIn (s.part note.desc note.descsz) (s.prvmap.list.map Provider.name) ≠ .out
  usdt : litUsdt <+: s.named ctx note → usdtIn ctx (s.part note.desc note.descsz) s.prbmap ≠ .out

/-- From the offset on the loop comes to the note, and the state is then `s₁`. -/
inductive Reaches (ctx : Ctx) : St → ℕ → St → Note → Prop
  | here {s s₁ off off' note} : getNote ctx off s = (some (note, off'), s₁) → Reaches ctx s off s₁ note
  | next {s s₁ s₂ s₃ off off' note note'} : getNote ctx off s = (some (note, off'), s₁) →
    parseNote ctx note s₁ = (some (), s₂) → off' ≠ 0 → Reaches ctx s₂ off' s₃ note' → Reaches ctx s off s₃ note'

/-! ## Names -/

section

variable {ctx : Ctx} {s : St} {n a : ℕ}

lemma readByte_block (hmem : n ≤ s.mem.length) {b : BitVec 8} {bs : Bytes} (h : (s.mem.take n).drop a = b :: bs) :
    readByte ⟨0, n⟩ a s = (some b, s) ∧ (s.mem.take n).drop (a + 1) = bs := by
  have hsim : Sim Eq (readByte ⟨0, 0 + n⟩ (0 + a)) s (byteIn (s.part 0 n) a) := readByte_sim (by omega)
  rw [Nat.zero_add, Nat.zero_add, byteIn, show s.part 0 n = s.mem.take n from rfl, h] at hsim
  obtain ⟨_, hrun, rfl⟩ := hsim
  refine ⟨hrun, ?_⟩
  rw [← tail_drop, h]
  rfl

lemma readByte_behind (hmem : n ≤ s.mem.length) (h : (s.mem.take n).drop a = []) :
    (readByte ⟨0, n⟩ a s).2.stray = true := by
  have hsim : Sim Eq (readByte ⟨0, 0 + n⟩ (0 + a)) s (byteIn (s.part 0 n) a) := readByte_sim (by omega)
  rw [Nat.zero_add, Nat.zero_add, byteIn, show s.part 0 n = s.mem.take n from rfl, h] at hsim
  exact hsim

variable {str : Bytes}

lemma strcmpLit_block (hmem : n ≤ s.mem.length) (h0 : 0 ∈ (s.mem.take n).drop a) (hstr : 0 ∉ str) :
    strcmpLit ⟨0, n⟩ a (str ++ [0]) s = (some (decide (str ++ [0] <+: (s.mem.take n).drop a)), s) := by
  induction str generalizing a with
  | nil =>
    obtain ⟨b, bs, hb⟩ := exists_cons_of_ne_nil (ne_nil_of_mem h0)
    obtain ⟨hread, -⟩ := readByte_block hmem hb
    rw [nil_append, strcmpLit, bind_some hread, hb]
    by_cases heq : b = 0
    · have hpre : [0] <+: b :: bs := cons_prefix_cons.2 ⟨heq.symm, nil_prefix⟩
      rw [if_pos heq, decide_eq_true hpre]
      rfl
    · have hpre : ¬[0] <+: b :: bs := fun h => heq (cons_prefix_cons.1 h).1.symm
      rw [if_neg heq, decide_eq_false hpre]
      rfl
  | cons c cs ih =>
    obtain ⟨b, bs, hb⟩ := exists_cons_of_ne_nil (ne_nil_of_mem h0)
    obtain ⟨hread, hrest⟩ := readByte_block hmem hb
    rw [mem_cons, not_or] at hstr
    rw [cons_append, strcmpLit, bind_some hread, hb]
    by_cases heq : b = c
    · subst heq
      rw [hb, mem_cons] at h0
      rw [if_pos rfl, ih (by rw [hrest]; exact h0.resolve_left hstr.1) hstr.2, hrest]
      simp
    · have hpre : ¬c :: (cs ++ [0]) <+: b :: bs := fun h => heq (cons_prefix_cons.1 h).1.symm
      rw [if_neg heq, decide_eq_false hpre]
      rfl

/-- A string that does not end in the block is different, or the comparison leaves the block. -/
lemma strcmpLit_open {lit : Bytes} (hmem : n ≤ s.mem.length) (h0 : 0 ∉ (s.mem.take n).drop a) (hlit : 0 ∈ lit) :
    (strcmpLit ⟨0, n⟩ a lit s).2.stray = true ∨ strcmpLit ⟨0, n⟩ a lit s = (some false, s) := by
  induction lit generalizing a with
  | nil => cases hlit
  | cons c cs ih =>
    rcases hb : (s.mem.take n).drop a with _ | ⟨b, _⟩
    · left
      have hbehind : Sim Eq (readByte ⟨0, n⟩ a) s .out := readByte_behind hmem hb
      have hout : Sim (fun _ _ => True) (strcmpLit ⟨0, n⟩ a (c :: cs)) s (.out : Scan Unit) :=
        hbehind.out fun _ => (reads_strcmpLit _ _ _).lasting.ite (lasting_pure _)
      exact hout
    · obtain ⟨hread, hrest⟩ := readByte_block hmem hb
      rw [hb, mem_cons, not_or] at h0
      rw [strcmpLit, bind_some hread]
      by_cases heq : b = c
      · rw [if_pos heq]
        exact ih (hrest ▸ h0.2) ((mem_cons.1 hlit).resolve_left (heq ▸ h0.1))
      · rw [if_neg heq]
        exact .inr rfl

/-! ## One note -/

lemma lasting_parseProvNote (ctx : Ctx) (note : Note) : Lasting (parseProvNote ctx note) := by
  refine (reads_readStr _ _).lasting.bind fun name => (lasting_fail _ _ _).ite (lasting_get.bind fun s => ?_)
  refine (lasting_fail _ _ _).ite ((reads_readWords _ _ _).lasting.bind fun _ => ?_)
  refine (reads_readNat _ _ _).lasting.bind fun _ => ?_
  exact (lasting_provProbes _ _ _ _ _ _).bind fun _ => lasting_modify fun _ => ⟨id, le_rfl⟩

lemma lasting_parseUsdtNote (ctx : Ctx) (note : Note) : Lasting (parseUsdtNote ctx note) := by
  rw [parseUsdtNote_eq]
  split
  · exact lasting_fail _ _ _
  refine (lasting_fail _ _ _).ite ((reads_readNat _ _ _).lasting.bind fun off => ?_)
  refine (reads_readNat _ _ _).lasting.bind fun fno => ?_
  refine (reads_readStr _ _).lasting.bind fun prv => (lasting_fail _ _ _).ite ((lasting_fail _ _ _).ite ?_)
  exact lasting_usdtName _ _ _ _ _ _ _

lemma name_block (y z : Exec St Unit) (hmem : n ≤ s.mem.length) (h0 : 0 ∈ (s.mem.take n).drop a) (hstr : 0 ∉ str) :
    (strcmpLit ⟨0, n⟩ a (str ++ [0]) >>= fun b => if b then y else z) s =
      if str ++ [0] <+: (s.mem.take n).drop a then y s else z s := by
  rw [bind_some (strcmpLit_block hmem h0 hstr)]
  split <;> rename_i h
  · rw [if_pos (of_decide_eq_true h)]
  · rw [if_neg (of_decide_eq_false (Bool.eq_false_iff.2 h))]

/-- If it does not, and the other branch leaves the block, the block is left. -/
lemma name_open (lit : Bytes) {y z : Exec St Unit} (hmem : n ≤ s.mem.length) (h0 : 0 ∉ (s.mem.take n).drop a)
    (hlit : 0 ∈ lit) (hy : Lasting y) (hz : Lasting z) (h : (z s).2.stray = true) :
    ((strcmpLit ⟨0, n⟩ a lit >>= fun b => if b then y else z) s).2.stray = true := by
  rcases strcmpLit_open hmem h0 hlit with hout | hrun
  · have hsim : Sim Eq (strcmpLit ⟨0, n⟩ a lit) s .out := hout
    have hsim' : Sim (fun _ _ => True) (strcmpLit ⟨0, n⟩ a lit >>= fun b => if b then y else z) s
        (.out : Scan Unit) := hsim.out fun _ => hy.ite hz
    exact hsim'
  · rw [bind_some hrun]
    exact h

variable {note : Note}

lemma unknown_stays (hs : s.stray = false) :
    ((readStr ⟨0, ctx.size⟩ note.name >>= fun name =>
      (fail .einval "Unknown note: %s" [.str name] : Exec St Unit)) s).2.stray = false ↔ 0 ∈ s.named ctx note := by
  have hread : Sim Eq (readStr ⟨0, 0 + ctx.size⟩ (0 + note.name)) s _ := readStr_sim
  rw [Nat.zero_add, Nat.zero_add] at hread
  have hstays : Stays (readStr ⟨0, ctx.size⟩ note.name >>= fun name =>
      (fail .einval "Unknown note: %s" [.str name] : Exec St Unit)) s _ :=
    hread.stays (fun _ => lasting_fail _ _ _) fun _ => hs
  refine Iff.trans hstays ?_
  rw [strIn, cstr, show (s.part 0 ctx.size).drop note.name = s.named ctx note from rfl]
  split <;> rename_i h
  · split at h <;> simp_all
  · split at h <;> simp_all

lemma parseNote_stays (hs : s.stray = false) (hmem : ctx.size ≤ s.mem.length)
    (hfit : note.desc + note.descsz ≤ ctx.size) (ha : note.desc % 4 = 0) (htidy : Tidy prvOps s.prvmap) :
    (parseNote ctx note s).2.stray = false ↔ NoteSafe ctx s note := by
  have hprov : Stays (parseProvNote ctx note) s _ := parseProvNote_stays hs (hfit.trans hmem) ha htidy
  have husdt : Stays (parseUsdtNote ctx note) s _ := parseUsdtNote_stays hs (hfit.trans hmem)
  have hname : _ ↔ 0 ∈ s.named ctx note := unknown_stays hs
  by_cases h0 : 0 ∈ s.named ctx note
  · have hrun : parseNote ctx note s =
        if litProv <+: s.named ctx note then parseProvNote ctx note s
        else if litUsdt <+: s.named ctx note then parseUsdtNote ctx note s
        else if litDver <+: s.named ctx note then (some (), s)
        else if litUtsn <+: s.named ctx note then (some (), s)
        else (readStr ⟨0, ctx.size⟩ note.name >>= fun name => fail .einval "Unknown note: %s" [.str name]) s := by
      rw [parseNote]
      rw [show litProv = [112, 114, 111, 118] ++ [0] from rfl, name_block _ _ hmem h0 (by decide)]
      rw [show litUsdt = [117, 115, 100, 116] ++ [0] from rfl, name_block _ _ hmem h0 (by decide)]
      rw [show litDver = [100, 118, 101, 114] ++ [0] from rfl, name_block _ _ hmem h0 (by decide)]
      rw [show litUtsn = [117, 116, 115, 110] ++ [0] from rfl, name_block _ _ hmem h0 (by decide)]
      rfl
    rw [hrun]
    by_cases hp : litProv <+: s.named ctx note
    · rw [if_pos hp]
      refine hprov.trans ⟨fun h => ⟨h0, fun _ => h, fun hu => ?_⟩, fun h => h.prov hp⟩
      exact absurd (prefix_of_prefix_length_le hp hu (le_rfl)) (by decide)
    rw [if_neg hp]
    by_cases hu : litUsdt <+: s.named ctx note
    · rw [if_pos hu]
      exact husdt.trans ⟨fun h => ⟨h0, fun hp' => absurd hp' hp, fun _ => h⟩, fun h => h.usdt hu⟩
    rw [if_neg hu]
    refine iff_of_true ?_ ⟨h0, fun hp' => absurd hp' hp, fun hu' => absurd hu' hu⟩
    split
    · exact hs
    split
    · exact hs
    exact hname.2 h0
  · refine iff_of_false ?_ fun h => h0 h.name
    have hout := mt hname.1 h0
    rw [Bool.not_eq_false] at hout ⊢
    have hlast : Lasting (readStr ⟨0, ctx.size⟩ note.name >>= fun name =>
        (fail .einval "Unknown note: %s" [.str name] : Exec St Unit)) :=
      (reads_readStr _ _).lasting.bind fun _ => lasting_fail _ _ _
    have hlast1 := (reads_strcmpLit ⟨0, ctx.size⟩ note.name litUtsn).lasting.bind fun b =>
      (lasting_pure ()).ite (c := b = true) hlast
    have hlast2 := (reads_strcmpLit ⟨0, ctx.size⟩ note.name litDver).lasting.bind fun b =>
      (lasting_pure ()).ite (c := b = true) hlast1
    have hlast3 := (reads_strcmpLit ⟨0, ctx.size⟩ note.name litUsdt).lasting.bind fun b =>
      (lasting_parseUsdtNote ctx note).ite (c := b = true) hlast2
    have hout1 := name_open litUtsn hmem h0 (by decide) (lasting_pure ()) hlast hout
    have hout2 := name_open litDver hmem h0 (by decide) (lasting_pure ()) hlast1 hout1
    have hout3 := name_open litUsdt hmem h0 (by decide) (lasting_parseUsdtNote ctx note) hlast2 hout2
    exact name_open litProv hmem h0 (by decide) (lasting_parseProvNote ctx note) hlast3 hout3

lemma lasting_parseNote (ctx : Ctx) (note : Note) : Lasting (parseNote ctx note) := by
  refine (reads_strcmpLit _ _ _).lasting.bind fun _ => (lasting_parseProvNote ctx note).ite ?_
  refine (reads_strcmpLit _ _ _).lasting.bind fun _ => (lasting_parseUsdtNote ctx note).ite ?_
  refine (reads_strcmpLit _ _ _).lasting.bind fun _ => (lasting_pure _).ite ?_
  refine (reads_strcmpLit _ _ _).lasting.bind fun _ => (lasting_pure _).ite ?_
  exact (reads_readStr _ _).lasting.bind fun _ => lasting_fail _ _ _

/-! ## All notes -/

lemma readNat_block {k : ℕ} (hmem : n ≤ s.mem.length) (h : a + k ≤ n) : ∃ v, readNat ⟨0, n⟩ a k s = (some v, s) := by
  have hread : readNat ⟨0, 0 + n⟩ (0 + a) k s = _ := readNat_part (by omega) h
  rw [Nat.zero_add, Nat.zero_add] at hread
  exact ⟨_, hread⟩

/-- `get_note` reads the block, and the description of the note is in the block. -/
lemma getNote_block (off : ℕ) (hs : s.stray = false) (hmem : ctx.size ≤ s.mem.length) :
    ((getNote ctx off s).1 = none ∧ (getNote ctx off s).2.stray = false) ∨
    ∃ note off', getNote ctx off s = (some (note, off'), s) ∧ note.desc + note.descsz ≤ ctx.size ∧
      note.desc % 4 = 0 := by
  rw [getNote]
  split
  · exact .inl ⟨rfl, hs⟩
  split
  · exact .inl ⟨rfl, hs⟩
  rename_i hroom halign
  obtain ⟨_, hnamesz⟩ : ∃ v, readNat ⟨0, ctx.size⟩ off 4 s = (some v, s) := readNat_block hmem (by omega)
  obtain ⟨_, hdescsz⟩ : ∃ v, readNat ⟨0, ctx.size⟩ (off + 4) 4 s = (some v, s) := readNat_block hmem (by omega)
  obtain ⟨_, htype⟩ : ∃ v, readNat ⟨0, ctx.size⟩ (off + 8) 4 s = (some v, s) := readNat_block hmem (by omega)
  rw [bind_some hnamesz, bind_some hdescsz, bind_some htype]
  split
  · exact .inl ⟨rfl, hs⟩
  dsimp only
  split
  · exact .inl ⟨rfl, hs⟩
  rename_i hname hdesc
  refine .inr ⟨_, _, rfl, ?_, ?_⟩
  · dsimp only
    omega
  · dsimp only [align4]
    omega

lemma lasting_readNotes (ctx : Ctx) (n off : ℕ) : Lasting (readNotes ctx n off) := by
  induction n generalizing off with
  | zero => exact lasting_stop
  | succ n ih =>
    refine (reads_getNote ctx off).lasting.bind fun r => (lasting_parseNote ctx r.1).bind fun _ => ?_
    exact (lasting_pure _).ite (ih _)

variable {off : ℕ}

lemma not_reaches {s1 : St} (h : (getNote ctx off s).1 = none) : ¬Reaches ctx s off s1 note := by
  rintro (hget | ⟨hget, -, -, -⟩)
  all_goals
    rw [hget] at h
    cases h

lemma reaches_iff {s1 s2 : St} {note2 : Note} {off' : ℕ} (hget : getNote ctx off s = (some (note, off'), s1)) :
    Reaches ctx s off s2 note2 ↔ (s2 = s1 ∧ note2 = note) ∨
      ∃ s', parseNote ctx note s1 = (some (), s') ∧ off' ≠ 0 ∧ Reaches ctx s' off' s2 note2 := by
  constructor
  · rintro (hget' | ⟨hget', hparse, hoff, hreach⟩)
    · rw [hget] at hget'
      cases hget'
      exact .inl ⟨rfl, rfl⟩
    · rw [hget] at hget'
      cases hget'
      exact .inr ⟨_, hparse, hoff, hreach⟩
  · rintro (⟨rfl, rfl⟩ | ⟨_, hparse, hoff, hreach⟩)
    · exact .here hget
    · exact .next hget hparse hoff hreach

/-- The loop stays in the parts of the notes exactly if the notes that it comes to are safe. -/
lemma readNotes_stays (hs : s.stray = false) (hmem : ctx.size ≤ s.mem.length) (hcoll : Collected ctx s)
    (hn : ctx.size < off + n) :
    (readNotes ctx n off s).2.stray = false ↔ ∀ s1 note, Reaches ctx s off s1 note → NoteSafe ctx s1 note := by
  induction n generalizing off s with
  | zero =>
    have hget : (getNote ctx off s).1 = none := by
      rw [getNote, if_pos (.inl (by omega))]
      rfl
    exact iff_of_true hs fun _ _ h => absurd h (not_reaches hget)
  | succ n ih =>
    rw [readNotes]
    rcases getNote_block off hs hmem with ⟨hnone, hstray⟩ | ⟨note, off', hget, hfit, ha⟩
    · refine iff_of_true ?_ fun _ _ h => absurd h (not_reaches hnone)
      rw [bind_none (Prod.ext hnone rfl)]
      exact hstray
    rw [bind_some hget]
    have hnote := parseNote_stays hs hmem hfit ha hcoll.prvTidy
    have hlast := lasting_parseNote ctx note s
    dsimp only
    rcases hparse : parseNote ctx note s with ⟨_ | _, s'⟩
    · -- the note is the last one
      rw [bind_none hparse]
      rw [hparse] at hnote
      refine hnote.trans ⟨fun hsafe s1 note1 hreach => ?_, fun h => h _ _ (.here hget)⟩
      rcases (reaches_iff hget).1 hreach with ⟨rfl, rfl⟩ | ⟨s2, hparse2, -⟩
      · exact hsafe
      · rw [hparse] at hparse2
        cases hparse2
    rw [bind_some hparse]
    rw [hparse] at hnote hlast
    by_cases hoff : off' = 0
    · rw [if_pos hoff]
      refine hnote.trans ⟨fun hsafe s1 note1 hreach => ?_, fun h => h _ _ (.here hget)⟩
      rcases (reaches_iff hget).1 hreach with ⟨rfl, rfl⟩ | ⟨s2, -, hne, -⟩
      · exact hsafe
      · exact absurd hoff hne
    rw [if_neg hoff]
    by_cases hs' : s'.stray = false
    · have hnext := (getNote_next hget).resolve_left hoff
      have hrest := ih hs' (hmem.trans hlast.mem) (hcoll.parseNote hparse) (show ctx.size < off' + n by omega)
      refine hrest.trans ⟨fun hsafe s1 note1 hreach => ?_, fun h _ _ hreach => h _ _ (.next hget hparse hoff hreach)⟩
      rcases (reaches_iff hget).1 hreach with ⟨rfl, rfl⟩ | ⟨_, hparse2, -, hreach⟩
      · exact hnote.1 hs'
      · rw [hparse] at hparse2
        cases hparse2
        exact hsafe _ _ hreach
    · refine iff_of_false ?_ fun h => hs' (hnote.2 (h _ _ (.here hget)))
      rw [Bool.not_eq_false] at hs' ⊢
      exact (lasting_readNotes ctx n off' s').stray hs'

/-! ## The whole parser -/

def Blind {α : Type} (x : Exec St α) : Prop := Exec.Keeps (fun s s' => s'.stray = s.stray) x

lemma Blind.bind {α β : Type} {x : Exec St α} {f : α → Exec St β} (hx : Blind x) (hf : ∀ a, Blind (f a)) :
    Blind (x >>= f) := Exec.Keeps.bind (fun _ _ _ h h' => h'.trans h) hx hf

lemma blind_moveOne (ptp : Probe) : Blind (moveOne ptp) := by
  intro s
  rw [moveOne]
  split
  · rfl
  split
  · rfl
  split
  · rfl
  · rfl

lemma blind_moveLoop (n : ℕ) (it : Walk Probe) : Blind (moveLoop n it) := by
  induction n generalizing it with
  | zero => exact fun _ => rfl
  | succ n ih =>
    intro s
    rw [moveLoop]
    dsimp only
    split
    · rfl
    · exact (blind_moveOne _).bind (fun _ => ih _) s

/-- The parser stays in the block and in the descriptions exactly if all notes that it comes to are safe. -/
theorem bounds_iff {mem : Bytes} (hmem : ctx.size ≤ mem.length) :
    (usdtParseNotes ctx (St.init mem)).2.stray = false ↔
      ∀ s note, Reaches ctx (St.init mem) 0 s note → NoteSafe ctx s note := by
  have hread : _ ↔ ∀ s note, Reaches ctx (St.init mem) 0 s note → NoteSafe ctx s note :=
    readNotes_stays (n := ctx.size + 1) rfl hmem (collected_init ctx mem) (by omega)
  rw [← hread, usdtParseNotes]
  rcases hrun : readNotes ctx (ctx.size + 1) 0 (St.init mem) with ⟨_ | _, s⟩
  · rw [bind_none hrun]
  · have hrest : Blind (Exec.get >>= fun s : St =>
        moveLoop (s.prbmap.list.length + 1) .start >>= fun _ => emitAll ctx) :=
      Blind.bind (fun _ => rfl) fun _ => (blind_moveLoop _ _).bind fun _ => fun _ => rfl
    rw [bind_some hrun, hrest s]

theorem bounds_small : (usdtParseNotes twoNotes (St.init (provNote ++ usdtNote 113 16))).2.stray = false ∧
    ∀ s note, Reaches twoNotes (St.init (provNote ++ usdtNote 113 16)) 0 s note → NoteSafe twoNotes s note := by
  have hrun : (usdtParseNotes twoNotes (St.init (provNote ++ usdtNote 113 16))).2.stray = false := by decide +kernel
  exact ⟨hrun, (bounds_iff (by decide)).1 hrun⟩

/-- A `prov` note: its description is the name of a provider, and the name does not end in it. -/
def openNote : Bytes :=
  Bytes.ofNat 4 5 ++ Bytes.ofNat 4 4 ++ Bytes.ofNat 4 1 ++ litProv ++ [0, 0, 0] ++ [112, 112, 112, 112]

/-- The byte behind the block is read. -/
theorem open_provider :
    openNote.length = 24 ∧ ¬(usdtParseNotes ⟨24, [109], 0, none⟩ (St.init (openNote ++ [0]))).2.stray = false := by
  decide +kernel

end

end DTrace.Usdt
