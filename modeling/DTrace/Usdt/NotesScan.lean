import DTrace.Usdt.NotesTable

/-!
# Scanning a description

The parser reads a description where it is in memory, and what it takes for a string may end behind the description.
Here the description is a list of bytes of its own, and the parser is a scan of that list.

* `Scan` — the scan needs a byte that is not there, it ends with an error, or it goes on;
* `provIn`, `usdtIn` — the scans of the two kinds of descriptions;
* `Sim` — code on memory that goes as a scan goes, with the rule for sequences `Sim.bind`;
* `parseProvNote_stays`, `parseUsdtNote_stays` — the parser leaves a description exactly if the scan does.
-/

namespace DTrace.Usdt

open Lib List Exec

/-! ## Scans -/

/-- A byte is needed that is not there, there is an error, or there is a result. -/
inductive Scan (α : Type)
  | out
  | bad
  | ok (a : α)
  deriving DecidableEq

namespace Scan

variable {α β : Type}

protected def bind (r : Scan α) (f : α → Scan β) : Scan β :=
  match r with
  | .out => .out
  | .bad => .bad
  | .ok a => f a

instance : Monad Scan where
  pure := .ok
  bind := Scan.bind

end Scan

/-- The string at `p`, with its final 0. -/
def strIn (desc : Bytes) (p : ℕ) : Scan Bytes :=
  match cstr desc p with
  | some str => .ok str
  | none => .out

/-- The byte at `p`. -/
def byteIn (desc : Bytes) (p : ℕ) : Scan (BitVec 8) :=
  match (desc.drop p).head? with
  | some b => .ok b
  | none => .out

/-- Where `cnt` strings end; there is none if one does not begin in the description. -/
def strsIn (desc : Bytes) (skip : ℕ) : ℕ → ℕ → Scan (Option ℕ)
  | 0, p => .ok (some p)
  | cnt + 1, p =>
    if desc.length ≤ p then .ok none
    else do
      let str ← strIn desc p
      strsIn desc skip cnt (p + str.length + 1 + skip)

/-- A probe that is not one of `names`: its name, and where the next one begins. -/
def probeIn (desc : Bytes) (names : List Bytes) (p : ℕ) : Scan (Bytes × ℕ) := do
  let p := align4 p
  let name ← strIn desc p
  let p := p + name.length + 1
  if desc.length < p + 2 then .bad
  else if name ∈ names then .bad
  else
    let nargc ← byteIn desc p
    match ← strsIn desc 0 nargc.toNat (p + 1) with
    | none => .bad
    | some p =>
      let xargc ← byteIn desc p
      match ← strsIn desc 1 xargc.toNat (p + 1) with
      | none => .bad
      | some p => if desc.length < p then .out else .ok (name, p)

def probesIn (desc : Bytes) : ℕ → ℕ → List Bytes → Scan Unit
  | 0, _, _ => .ok ()
  | probec + 1, p, names => do
    let (name, p) ← probeIn desc names p
    probesIn desc probec p (name :: names)

/-- The description of a provider that is not one of `names`. -/
def provIn (desc : Bytes) (names : List Bytes) : Scan Unit := do
  let name ← strIn desc 0
  let p := align4 (name.length + 1)
  if desc.length < p + 24 then .bad
  else if name ∈ names then .bad
  else probesIn desc (Bytes.val ((desc.drop (p + 20)).take 4)) (p + 24) []

/-- The description of a tracepoint, with the table of those that are known. -/
def usdtIn (ctx : Ctx) (desc : Bytes) (prbmap : Htab Probe) : Scan Unit :=
  match ctx.rodata with
  | none => .bad
  | some ro =>
    if desc.length < 16 then .bad
    else do
      let off := Bytes.val (desc.take 8)
      let fno := Bytes.val ((desc.drop 8).take 8)
      let prv ← strIn desc 16
      let p := 16 + prv.length + 1
      if fno < ro.base ∨ ro.size ≤ fno - ro.base then .bad
      else
        let name ← strIn desc p
        let p := p + name.length + 1
        let fn ← strIn (ro.mem.take ro.size) (fno - ro.base)
        if (dtHtabLookup prbOps prbmap
            (Probe.key prv ctx.mod (some fn) (hyphenate name) (BitVec.ofNat 32 off))).isSome then .bad
        else
          let _ ← byteIn desc p
          let _ ← strIn desc (p + 1)
          .ok ()

variable {desc : Bytes} {p : ℕ}

section

lemma byteIn_lt (hp : p < desc.length) : ∃ b, byteIn desc p = .ok b := by
  have hcons : desc.drop p ≠ [] := by
    rw [Ne, drop_eq_nil_iff]
    omega
  obtain ⟨b, _, hb⟩ := exists_cons_of_ne_nil hcons
  exact ⟨b, by rw [byteIn, hb]; rfl⟩

lemma byteIn_ge (hp : desc.length ≤ p) : byteIn desc p = .out := by
  rw [byteIn, drop_eq_nil_of_le hp]
  rfl

end

variable {str : Bytes}

lemma strIn_le (h : strIn desc p = .ok str) : p + str.length + 1 ≤ desc.length := by
  rw [strIn] at h
  split at h
  · rename_i hstr
    cases h
    obtain ⟨hpre, -⟩ := cstr_eq_some.1 hstr
    have hlen := hpre.length_le
    rw [length_append, length_singleton, length_drop] at hlen
    omega
  · cases h

variable {skip : ℕ}

lemma strsIn_succ {cnt p' : ℕ} (h : strsIn desc skip (cnt + 1) p = .ok (some p')) :
    ∃ str, strIn desc p = .ok str ∧ strsIn desc skip cnt (p + str.length + 1 + skip) = .ok (some p') := by
  rw [strsIn] at h
  split at h
  · cases h
  cases hstr : strIn desc p with
  | out | bad =>
    rw [hstr] at h
    cases h
  | ok str =>
    rw [hstr] at h
    exact ⟨str, rfl, h⟩

section

variable {cnt p' : ℕ}

lemma strsIn_le (h : strsIn desc skip cnt p = .ok (some p')) : p ≤ p' := by
  induction cnt generalizing p with
  | zero =>
    cases h
    exact le_rfl
  | succ cnt ih =>
    obtain ⟨_, -, h⟩ := strsIn_succ h
    have := ih h
    omega

lemma strsIn_le_length (h : strsIn desc 0 cnt p = .ok (some p')) (hp : p ≤ desc.length) : p' ≤ desc.length := by
  induction cnt generalizing p with
  | zero =>
    cases h
    exact hp
  | succ cnt ih =>
    obtain ⟨_, hstr, h⟩ := strsIn_succ h
    exact ih h (strIn_le hstr)

end

/-! ## Code that goes as a scan goes -/

/-- Where the scan needs a byte that is not there, the code reads something else.  Where it has an error, the code has
one.  Where it has a result, the code has one, and it has read nothing else. -/
def Sim {α β : Type} (Q : α → β → Prop) (x : Exec St α) (s : St) : Scan β → Prop
  | .out => (x s).2.stray = true
  | .bad => (x s).1 = none ∧ (x s).2.stray = false
  | .ok b => ∃ a, x s = (some a, s) ∧ Q a b

variable {s : St}

section

variable {α β γ δ : Type} {Q : α → β → Prop} {R : γ → δ → Prop} {x : Exec St α} {f : α → Exec St γ}
  {r : Scan β}

lemma sim_fail (hs : s.stray = false) (errNo : Errno) (fmt : String) (args : List FmtArg) :
    Sim Q (fail errNo fmt args) s .bad := ⟨rfl, hs⟩

lemma sim_pure {a : α} {b : β} (h : Q a b) : Sim Q (pure a) s (.ok b) := ⟨a, rfl, h⟩

lemma Sim.congr {y : Exec St α} (h : Sim Q x s r) (hxy : y s = x s) : Sim Q y s r := by
  cases r <;> simpa only [Sim, hxy] using h

lemma Sim.out (h : Sim Q x s .out) (hlast : ∀ a, Lasting (f a)) : Sim R (x >>= f) s .out := by
  change ((x >>= f) s).2.stray = true
  change (x s).2.stray = true at h
  rcases hrun : x s with ⟨_ | a, s'⟩
  · rw [bind_none hrun]
    rwa [hrun] at h
  · rw [bind_some hrun]
    rw [hrun] at h
    exact (hlast a s').stray h

lemma Sim.bad (h : Sim Q x s .bad) : Sim R (x >>= f) s .bad := by
  obtain ⟨hnone, hstray⟩ := h
  rcases hrun : x s with ⟨_ | a, s'⟩
  · rw [hrun] at hstray
    exact Sim.congr (x := fun _ => (none, s')) ⟨rfl, hstray⟩ (bind_none hrun)
  · rw [hrun] at hnone
    cases hnone

lemma Sim.map {R : γ → β → Prop} {g : α → γ} (h : Sim Q x s r) (hg : ∀ a b, Q a b → R (g a) b) :
    Sim R (x >>= fun a => pure (g a)) s r := by
  cases r with
  | out => exact h.out lasting_pure
  | bad => exact h.bad
  | ok b =>
    obtain ⟨a, ha, hQ⟩ := h
    exact ⟨g a, bind_some ha, hg a b hQ⟩

variable {g : β → Scan δ}

lemma Sim.bind (hx : Sim Q x s r) (hlast : ∀ a, Lasting (f a))
    (hf : ∀ a b, x s = (some a, s) → r = .ok b → Q a b → Sim R (f a) s (g b)) : Sim R (x >>= f) s (r >>= g) := by
  cases r with
  | out => exact hx.out hlast
  | bad => exact hx.bad
  | ok b =>
    obtain ⟨a, ha, hQ⟩ := hx
    exact (hf a b ha rfl hQ).congr (bind_some ha)

/-- The code reads something else exactly if the scan needs a byte that is not there. -/
def Stays (x : Exec St α) (s : St) (r : Scan β) : Prop := (x s).2.stray = false ↔ r ≠ .out

lemma stays_fail (hs : s.stray = false) (errNo : Errno) (fmt : String) (args : List FmtArg) :
    Stays (fail errNo fmt args : Exec St α) s (.bad : Scan β) := iff_of_true hs (by simp)

lemma stays_ok {b : β} (h : (x s).2.stray = false) : Stays x s (.ok b) := iff_of_true h (by simp)

lemma Stays.congr {y : Exec St γ} {s' : St} (h : Stays x s r) (hxy : (y s').2 = (x s).2) : Stays y s' r := by
  rw [Stays, hxy]
  exact h

lemma Stays.bind (hx : Sim Q x s r) (hlast : ∀ a, Lasting (f a))
    (hf : ∀ a b, x s = (some a, s) → r = .ok b → Q a b → Stays (f a) s (g b)) : Stays (x >>= f) s (r >>= g) := by
  cases r with
  | out =>
    have hout : Sim (fun _ _ => True) (x >>= f) s (.out : Scan δ) := hx.out hlast
    exact iff_of_false (by rw [show ((x >>= f) s).2.stray = true from hout]; simp) fun h => h rfl
  | bad =>
    have hbad : Sim (fun _ _ => True) (x >>= f) s (.bad : Scan δ) := hx.bad
    exact iff_of_true hbad.2 nofun
  | ok b =>
    obtain ⟨a, ha, hQ⟩ := hx
    exact (hf a b ha rfl hQ).congr (congrArg Prod.snd (bind_some ha))

lemma Sim.stays (hx : Sim Q x s r) (hlast : ∀ a, Lasting (f a)) (hf : ∀ a, (f a s).2.stray = false) :
    Stays (x >>= f) s r := by
  have h : Stays (x >>= f) s (r >>= .ok) := .bind hx hlast fun a _ _ _ _ => stays_ok (hf a)
  cases r <;> exact h

end

/-! ## Reading a part of memory -/

def St.part (s : St) (a n : ℕ) : Bytes := (s.mem.drop a).take n

section

variable {a n : ℕ}

lemma drop_part (s : St) (a n p : ℕ) : (s.part a n).drop p = (s.mem.drop (a + p)).take (n - p) := by
  rw [St.part, drop_take, drop_drop]

lemma cstr_part : cstr (s.part a n) p = some str ↔ cstr s.mem (a + p) = some str ∧ p + str.length + 1 ≤ n := by
  rw [cstr_eq_some, cstr_eq_some, drop_part, prefix_take_iff, length_append, length_singleton]
  constructor
  · rintro ⟨⟨hpre, hlen⟩, h0⟩
    exact ⟨⟨hpre, h0⟩, by omega⟩
  · rintro ⟨⟨hpre, h0⟩, hlen⟩
    exact ⟨⟨hpre, by omega⟩, h0⟩

lemma readStr_sim : Sim Eq (readStr ⟨a, a + n⟩ (a + p)) s (strIn (s.part a n) p) := by
  rw [strIn]
  cases hpart : cstr (s.part a n) p with
  | some str =>
    obtain ⟨hmem, hlen⟩ := cstr_part.1 hpart
    refine ⟨str, ?_, rfl⟩
    rw [readStr, hmem]
    dsimp only
    rw [escapes_eq_false (by simp) (by simp only; omega), Bool.or_false]
  | none =>
    change (readStr ⟨a, a + n⟩ (a + p) s).2.stray = true
    rw [readStr]
    cases hmem : cstr s.mem (a + p) with
    | none => rfl
    | some str =>
      have hlen : n < p + str.length + 1 := by
        by_contra hle
        rw [cstr_part.2 ⟨hmem, by omega⟩] at hpart
        cases hpart
      have hesc : Window.escapes ⟨a, a + n⟩ (a + p) (str.length + 1) = true := by
        simp only [Window.escapes, decide_eq_true_eq]
        omega
      simp [hesc]

variable (hfit : a + n ≤ s.mem.length)
include hfit

lemma length_part : (s.part a n).length = n := by
  rw [St.part, length_take, length_drop]
  omega

variable {k : ℕ}

lemma readBytes_part (hk : p + k ≤ n) :
    readBytes ⟨a, a + n⟩ (a + p) k s = (some (((s.part a n).drop p).take k), s) := by
  rw [readBytes, if_pos (by omega), escapes_eq_false (by simp) (by simp only; omega), Bool.or_false, drop_part,
    take_take, Nat.min_eq_left (by omega)]

lemma readNat_part (hk : p + k ≤ n) :
    readNat ⟨a, a + n⟩ (a + p) k s = (some (Bytes.val (((s.part a n).drop p).take k)), s) := by
  rw [readNat, bind_some (readBytes_part hfit hk)]
  rfl

lemma readWords_part (hk : p + 4 * k ≤ n) : ∃ ws, readWords ⟨a, a + n⟩ k (a + p) s = (some ws, s) := by
  induction k generalizing p with
  | zero => exact ⟨[], rfl⟩
  | succ k ih =>
    have hword : readNat ⟨a, a + n⟩ (a + p) 4 s = _ := readNat_part hfit (by omega)
    have hrest : p + 4 + 4 * k ≤ n := by omega
    obtain ⟨_, hws⟩ := ih hrest
    rw [← Nat.add_assoc] at hws
    exact ⟨_, by rw [readWords, bind_some hword, bind_some hws]; rfl⟩

lemma readByte_sim : Sim Eq (readByte ⟨a, a + n⟩ (a + p)) s (byteIn (s.part a n) p) := by
  have hlen := length_part hfit
  rw [byteIn]
  rcases Nat.lt_or_ge p n with hp | hp
  · have hcons : (s.part a n).drop p ≠ [] := by
      rw [Ne, drop_eq_nil_iff]
      omega
    obtain ⟨b, _, hb⟩ := exists_cons_of_ne_nil hcons
    rw [hb]
    refine ⟨b, ?_, rfl⟩
    rw [readByte, bind_some (readBytes_part hfit (by omega)), hb]
    rfl
  · have hnil : (s.part a n).drop p = [] := drop_eq_nil_of_le (by omega)
    rw [hnil]
    change (readByte ⟨a, a + n⟩ (a + p) s).2.stray = true
    rw [readByte, bind_pure_snd, readBytes]
    have hesc : Window.escapes ⟨a, a + n⟩ (a + p) 1 = true := by
      simp only [Window.escapes, decide_eq_true_eq]
      omega
    split
    · simp [hesc]
    · rfl

lemma strarraySize_sim (skip cnt : ℕ) :
    Sim (fun r r' => r = r'.map (a + ·)) (strarraySize ⟨a, a + n⟩ skip cnt (a + p)) s
      (strsIn (s.part a n) skip cnt p) := by
  induction cnt generalizing p with
  | zero => exact sim_pure rfl
  | succ cnt ih =>
    rw [strarraySize, strsIn, length_part hfit]
    by_cases hp : n ≤ p
    · rw [if_pos hp, if_pos (show a + n ≤ a + p by omega)]
      exact sim_pure rfl
    · rw [if_neg hp, if_neg (show ¬a + n ≤ a + p by omega)]
      refine readStr_sim.bind (fun _ => (reads_strarraySize _ _ _ _).lasting) ?_
      rintro str _ - - rfl
      rw [show a + p + str.length + 1 + skip = a + (p + str.length + 1 + skip) by omega]
      exact ih

lemma counted_sim {γ δ : Type} {R : γ → δ → Prop} {k : BitVec 8 → Option ℕ → Exec St γ}
    {g : BitVec 8 → Option ℕ → Scan δ} (hlast : ∀ c r, Lasting (k c r))
    (hk : ∀ c r, byteIn (s.part a n) p = .ok c → strsIn (s.part a n) skip c.toNat (p + 1) = .ok r →
      Sim R (k c (r.map (a + ·))) s (g c r)) :
    Sim R (readByte ⟨a, a + n⟩ (a + p) >>= fun c => strarraySize ⟨a, a + n⟩ skip c.toNat (a + p + 1) >>= k c) s
      (byteIn (s.part a n) p >>= fun c => strsIn (s.part a n) skip c.toNat (p + 1) >>= g c) := by
  refine (readByte_sim hfit).bind (fun c => (reads_strarraySize _ skip _ _).lasting.bind (hlast c)) ?_
  rintro c _ - hbyte rfl
  refine (strarraySize_sim hfit skip c.toNat).bind (hlast c) ?_
  rintro r r' - hstrs rfl
  exact hk c r' hbyte hstrs

/-- Translated arguments: the strings are there, and so are their bytes if the last one is. -/
lemma xlatArgs_sim {cnt p' : ℕ} (hstrs : strsIn (s.part a n) 1 cnt p = .ok (some p')) (hp : p ≤ n) :
    Sim (fun r q => r.2.2 = a + q) (xlatArgs ⟨a, a + n⟩ cnt (a + p)) s (if n < p' then .out else .ok p') := by
  induction cnt generalizing p with
  | zero =>
    cases hstrs
    rw [if_neg (by omega)]
    exact sim_pure rfl
  | succ cnt ih =>
    have hread : Sim Eq (readStr ⟨a, a + n⟩ (a + p)) s _ := readStr_sim
    obtain ⟨str, hstr, hstrs⟩ := strsIn_succ hstrs
    rw [hstr] at hread
    obtain ⟨_, hrun, rfl⟩ := hread
    rw [xlatArgs]
    refine Sim.congr ?_ (bind_some hrun)
    rename_i str
    have hbyte : Sim Eq (readByte ⟨a, a + n⟩ (a + (p + str.length + 1))) s _ := readByte_sim hfit
    have hle := strsIn_le hstrs
    have hlen := length_part hfit
    rw [show a + p + str.length + 1 = a + (p + str.length + 1) by omega,
      show a + p + str.length + 2 = a + (p + str.length + 2) by omega]
    rcases Nat.lt_or_ge (p + str.length + 1) n with hlt | hge
    · have hlt' : p + str.length + 1 < (s.part a n).length := by omega
      obtain ⟨b, hb⟩ := byteIn_lt hlt'
      rw [hb] at hbyte
      obtain ⟨m, hm, -⟩ := hbyte
      refine Sim.congr ?_ (bind_some hm)
      exact (ih hstrs (by omega)).map fun _ _ h => h
    · rw [byteIn_ge (by omega)] at hbyte
      rw [if_pos (by omega)]
      exact hbyte.out fun _ => (reads_xlatArgs _ _ _).lasting.bind lasting_pure

end

/-! ## Provider notes -/

variable {note : Note} {ctx : Ctx}

section

variable {a n : ℕ} {prv : Bytes} {pmap : Htab Probe} {names : List Bytes}

lemma Defs.lookup_isSome {mod : Bytes} (h : Defs prv mod pmap) (name : Bytes) :
    (dtHtabLookup prbOps pmap (Probe.key prv mod none name 0)).isSome ↔ ∃ q ∈ pmap.list, q.prb = name := by
  constructor
  · intro hsome
    obtain ⟨q, hq⟩ := Option.isSome_iff_exists.1 hsome
    obtain ⟨hmem, hcmp, -⟩ := h.tidy.lookup_some hq
    simp only [prbOps, prbCmp, Bool.and_eq_true, decide_eq_true_eq] at hcmp
    exact ⟨q, hmem, hcmp.1.2⟩
  · rintro ⟨q, hq, rfl⟩
    have hdef := h.isDef q hq
    have hkey : dtHtabLookup prbOps pmap (.key prv mod none q.prb 0) = dtHtabLookup prbOps pmap q := by
      rw [lookup_prb (q := q), hdef.prv, hdef.mod, hdef.fn, hdef.off]
    rw [hkey, h.tidy.lookup_self hq]
    rfl

/-- `parse_prov_note` from the translated arguments of a probe on. -/
def provXlat (ctx : Ctx) (prv prb : Bytes) (w : Window) (nargc : ℕ) (args : Bytes) (p : ℕ) : Exec St (Probe × ℕ) := do
  let xargc ← readByte w p
  match ← strarraySize w 1 xargc.toNat (p + 1) with
  | none => fail .einval "Incomplete note data" []
  | some _ =>
    let (xargs, xmap, p) ← xlatArgs w xargc.toNat (p + 1)
    pure ({ Probe.key prv ctx.mod none prb 0 with
      nargc := nargc, xargc := xargc.toNat, nargs := args, xargs := xargs, xmap := xmap }, p)

/-- `parse_prov_note` from the native arguments of a probe on. -/
def provNative (ctx : Ctx) (prv prb : Bytes) (w : Window) (p : ℕ) : Exec St (Probe × ℕ) := do
  let nargc ← readByte w p
  match ← strarraySize w 0 nargc.toNat (p + 1) with
  | none => fail .einval "Incomplete note data" []
  | some q =>
    if w.hi < q then fail .einval "Incomplete note data" []
    else
      let args ← readBytes w (p + 1) (q - (p + 1))
      provXlat ctx prv prb w nargc.toNat args q

lemma provProbe_eq (ctx : Ctx) (prv : Bytes) (w : Window) (pmap : Htab Probe) (p : ℕ) :
    provProbe ctx prv w pmap p = (do
      let prb ← readStr w (align4 p)
      if w.hi < align4 p + prb.length + 1 + 2 then fail .einval "Incomplete note data" []
      else if (dtHtabLookup prbOps pmap (Probe.key prv ctx.mod none prb 0)).isSome then
        fail .eexist "Duplicate probe: %s:%s::%s" [.str prv, .str ctx.mod, .str prb]
      else provNative ctx prv prb w (align4 p + prb.length + 1)) := rfl

lemma lasting_provXlat (ctx : Ctx) (prv prb : Bytes) (w : Window) (nargc : ℕ) (args : Bytes) (p : ℕ) :
    Lasting (provXlat ctx prv prb w nargc args p) := by
  refine (reads_readByte w p).lasting.bind fun xargc => (reads_strarraySize w 1 _ _).lasting.bind fun r => ?_
  cases r with
  | none => exact lasting_fail _ _ _
  | some e => exact (reads_xlatArgs w _ _).lasting.bind lasting_pure

lemma lasting_provNative (ctx : Ctx) (prv prb : Bytes) (w : Window) (p : ℕ) :
    Lasting (provNative ctx prv prb w p) := by
  refine (reads_readByte w p).lasting.bind fun nargc => (reads_strarraySize w 0 _ _).lasting.bind fun r => ?_
  cases r with
  | none => exact lasting_fail _ _ _
  | some e =>
    exact (lasting_fail _ _ _).ite ((reads_readBytes w _ _).lasting.bind fun _ => lasting_provXlat _ _ _ _ _ _ _)

lemma lasting_provProbes (ctx : Ctx) (prv : Bytes) (w : Window) (probec p : ℕ) (pmap : Htab Probe) :
    Lasting (provProbes ctx prv w probec p pmap) := by
  induction probec generalizing p pmap with
  | zero => exact lasting_pure _
  | succ probec ih =>
    rw [provProbes, provProbe_eq]
    refine Lasting.bind ((reads_readStr w _).lasting.bind fun _ => ?_) fun _ => ih _ _
    exact (lasting_fail _ _ _).ite ((lasting_fail _ _ _).ite (lasting_provNative _ _ _ _ _))

variable (hs : s.stray = false) (hfit : a + n ≤ s.mem.length)
include hs hfit

lemma provXlat_sim (prb : Bytes) (nargc : ℕ) (args : Bytes) :
    Sim (fun r b => r.1.prb = b.1 ∧ r.2 = a + b.2) (provXlat ctx prv prb ⟨a, a + n⟩ nargc args (a + p)) s
      (do
        let xargc ← byteIn (s.part a n) p
        match ← strsIn (s.part a n) 1 xargc.toNat (p + 1) with
        | none => .bad
        | some p => if (s.part a n).length < p then .out else .ok (prb, p)) := by
  refine counted_sim hfit (fun xargc r => ?_) fun xargc r' hbyte hstrs => ?_
  · cases r with
    | none => exact lasting_fail _ _ _
    | some e => exact (reads_xlatArgs _ _ _).lasting.bind lasting_pure
  have hp : p + 1 ≤ n := by
    by_contra hge
    rw [byteIn_ge (by rw [length_part hfit]; omega)] at hbyte
    cases hbyte
  cases r' with
  | none => exact sim_fail hs _ _ _
  | some p' =>
    have hxlat := xlatArgs_sim hfit hstrs hp
    dsimp only [Option.map_some]
    rw [length_part hfit]
    by_cases hout : n < p'
    · rw [if_pos hout] at hxlat ⊢
      exact hxlat.out lasting_pure
    · rw [if_neg hout] at hxlat ⊢
      obtain ⟨r, hrun, hr⟩ := hxlat
      exact ⟨_, bind_some hrun, rfl, hr⟩

lemma provNative_sim (hp : p + 1 ≤ n) (prb : Bytes) :
    Sim (fun r b => r.1.prb = b.1 ∧ r.2 = a + b.2) (provNative ctx prv prb ⟨a, a + n⟩ (a + p)) s
      (do
        let nargc ← byteIn (s.part a n) p
        match ← strsIn (s.part a n) 0 nargc.toNat (p + 1) with
        | none => .bad
        | some p =>
          let xargc ← byteIn (s.part a n) p
          match ← strsIn (s.part a n) 1 xargc.toNat (p + 1) with
          | none => .bad
          | some p => if (s.part a n).length < p then .out else .ok (prb, p)) := by
  have hlen := length_part hfit
  refine counted_sim hfit (fun nargc r => ?_) fun nargc r' _ hstrs => ?_
  · cases r with
    | none => exact lasting_fail _ _ _
    | some e =>
      exact (lasting_fail _ _ _).ite ((reads_readBytes _ _ _).lasting.bind fun _ => lasting_provXlat _ _ _ _ _ _ _)
  cases r' with
  | none => exact sim_fail hs _ _ _
  | some q =>
    have hq := strsIn_le_length hstrs (by omega)
    have hargs : readBytes ⟨a, a + n⟩ (a + (p + 1)) (a + q - (a + (p + 1))) s = _ :=
      readBytes_part hfit (by omega)
    dsimp only [Option.map_some]
    rw [if_neg (by omega)]
    exact (provXlat_sim hs hfit prb nargc.toNat _).congr (bind_some hargs)

lemma provProbe_sim (ha : a % 4 = 0) (hdefs : Defs prv ctx.mod pmap)
    (hnames : ∀ name, name ∈ names ↔ ∃ q ∈ pmap.list, q.prb = name) :
    Sim (fun r b => r.1.prb = b.1 ∧ r.2 = a + b.2) (provProbe ctx prv ⟨a, a + n⟩ pmap (a + p)) s
      (probeIn (s.part a n) names p) := by
  have hlen := length_part hfit
  rw [provProbe_eq, probeIn, align4_add ha]
  refine readStr_sim.bind (fun _ => ?_) ?_
  · exact (lasting_fail _ _ _).ite ((lasting_fail _ _ _).ite (lasting_provNative _ _ _ _ _))
  rintro name _ - - rfl
  by_cases hroom : (s.part a n).length < align4 p + name.length + 1 + 2
  · rw [if_pos hroom, if_pos (show a + n < a + align4 p + name.length + 1 + 2 by omega)]
    exact sim_fail hs _ _ _
  rw [if_neg hroom, if_neg (show ¬a + n < a + align4 p + name.length + 1 + 2 by omega)]
  have hdup := (hdefs.lookup_isSome name).trans (hnames name).symm
  by_cases hmem : name ∈ names
  · rw [if_pos hmem, if_pos (hdup.2 hmem)]
    exact sim_fail hs _ _ _
  rw [if_neg hmem, if_neg (mt hdup.1 hmem),
    show a + align4 p + name.length + 1 = a + (align4 p + name.length + 1) by omega]
  have hp : align4 p + name.length + 1 + 1 ≤ n := by omega
  exact provNative_sim hs hfit hp name

lemma provProbes_sim {probec : ℕ} (ha : a % 4 = 0) (hdefs : Defs prv ctx.mod pmap)
    (hnames : ∀ name, name ∈ names ↔ ∃ q ∈ pmap.list, q.prb = name) :
    Sim (fun _ _ => True) (provProbes ctx prv ⟨a, a + n⟩ probec (a + p) pmap) s
      (probesIn (s.part a n) probec p names) := by
  induction probec generalizing p pmap names with
  | zero => exact sim_pure trivial
  | succ probec ih =>
    refine (provProbe_sim hs hfit ha hdefs hnames).bind (fun r => lasting_provProbes _ _ _ _ _ _) ?_
    rintro ⟨prp, q⟩ ⟨_, _⟩ hrun - ⟨hprb, hq⟩
    obtain ⟨-, hdef, hnew⟩ := provProbe_some hrun
    subst hq
    refine ih (hdefs.insert hdef hnew) fun name' => ?_
    have hperm : (dtHtabInsert prbOps pmap prp).list.Perm _ := list_insert hdefs.tidy.pos prp
    rw [mem_cons, hnames]
    constructor
    · rintro (rfl | ⟨r, hr, hrprb⟩)
      · exact ⟨prp, hperm.mem_iff.2 mem_cons_self, hprb⟩
      · exact ⟨r, hperm.mem_iff.2 (mem_cons_of_mem _ hr), hrprb⟩
    · rintro ⟨r, hr, rfl⟩
      rcases mem_cons.1 (hperm.mem_iff.1 hr) with rfl | hr
      · exact .inl hprb
      · exact .inr ⟨r, hr, rfl⟩

omit hs hfit in
lemma lookup_prv_isSome {prvmap : Htab Provider} (h : Tidy prvOps prvmap) (name : Bytes) :
    (dtHtabLookup prvOps prvmap (Provider.key name)).isSome ↔ name ∈ prvmap.list.map Provider.name := by
  rw [mem_map]
  constructor
  · intro hsome
    obtain ⟨q, hq⟩ := Option.isSome_iff_exists.1 hsome
    obtain ⟨hmem, hcmp, -⟩ := h.lookup_some hq
    exact ⟨q, hmem, by simpa [prvOps, Provider.key] using hcmp⟩
  · rintro ⟨q, hq, rfl⟩
    have hkey : dtHtabLookup prvOps prvmap (.key q.name) = dtHtabLookup prvOps prvmap q :=
      lookup_congr rfl fun _ => rfl
    rw [hkey, h.lookup_self hq]
    rfl

omit hs hfit in
lemma parseProvNote_stays (hs : s.stray = false) (hfit : note.desc + note.descsz ≤ s.mem.length)
    (ha : note.desc % 4 = 0) (htidy : Tidy prvOps s.prvmap) :
    Stays (parseProvNote ctx note) s (provIn (s.part note.desc note.descsz) (s.prvmap.list.map Provider.name)) := by
  have hlen := length_part hfit
  rw [provIn, parseProvNote]
  refine .bind (readStr_sim) (fun name => ?_) ?_
  · exact (lasting_fail _ _ _).ite (lasting_get.bind fun _ => (lasting_fail _ _ _).ite
      ((reads_readWords _ _ _).lasting.bind fun _ => (reads_readNat _ _ _).lasting.bind fun _ =>
        (lasting_provProbes _ _ _ _ _ _).bind fun _ => lasting_modify fun _ => ⟨id, le_rfl⟩))
  rintro name _ - - rfl
  set p := align4 (name.length + 1)
  by_cases hroom : (s.part note.desc note.descsz).length < p + 24
  · rw [if_pos hroom, if_pos (show note.desc + note.descsz < note.desc + p + 24 by omega)]
    exact stays_fail hs _ _ _
  rw [if_neg hroom, if_neg (show ¬note.desc + note.descsz < note.desc + p + 24 by omega)]
  refine .congr ?_ (congrArg Prod.snd (bind_some rfl))
  have hdup := lookup_prv_isSome htidy name
  by_cases hmem : name ∈ s.prvmap.list.map Provider.name
  · rw [if_pos hmem, if_pos (hdup.2 hmem)]
    exact stays_fail hs _ _ _
  rw [if_neg hmem, if_neg (mt hdup.1 hmem)]
  obtain ⟨_, hattrs⟩ : ∃ ws, readWords ⟨note.desc, note.desc + note.descsz⟩ 5 (note.desc + p) s = (some ws, s) :=
    readWords_part hfit (by omega)
  have hprobec : readNat ⟨note.desc, note.desc + note.descsz⟩ (note.desc + (p + 20)) 4 s = _ :=
    readNat_part hfit (by omega)
  refine .congr ?_ (congrArg Prod.snd ((bind_some hattrs).trans (bind_some hprobec)))
  have hprobes : ∀ probec, Sim _ (provProbes ctx name ⟨note.desc, note.desc + note.descsz⟩ probec
      (note.desc + (p + 24)) dtHtabCreate) s (probesIn _ probec _ []) :=
    fun _ => provProbes_sim hs hfit ha (defs_create _ _) (by simp [list_create])
  exact (hprobes _).stays (fun _ => lasting_modify fun _ => ⟨id, le_rfl⟩) fun _ => hs

end

/-! ## Tracepoint notes -/

section

variable {a n : ℕ}

lemma readRodata_sim (ro : Rodata) (a : ℕ) : Sim Eq (readRodata ro a) s (strIn (ro.mem.take ro.size) a) := by
  -- the block of `.rodata` as the memory of a state
  let t : St := { s with mem := ro.mem }
  have hread : Sim Eq (readStr ⟨0, 0 + ro.size⟩ (0 + a)) t (strIn (ro.mem.take ro.size) a) := readStr_sim
  rw [Nat.zero_add, Nat.zero_add] at hread
  have heq : readRodata ro a s =
      ((readStr ⟨0, ro.size⟩ a t).1, { s with stray := (readStr ⟨0, ro.size⟩ a t).2.stray }) := by
    rw [readRodata, readStr]
    cases cstr ro.mem a <;> rfl
  cases hstr : strIn (ro.mem.take ro.size) a with
  | out =>
    rw [hstr] at hread
    change (readRodata ro a s).2.stray = true
    rw [heq]
    exact hread
  | bad =>
    rw [strIn] at hstr
    split at hstr <;> cases hstr
  | ok str =>
    rw [hstr] at hread
    obtain ⟨_, hrun, rfl⟩ := hread
    exact ⟨_, by rw [heq, hrun], rfl⟩

lemma length_hyphenate_le (name : Bytes) : (hyphenate name).length ≤ name.length := by
  fun_induction hyphenate name with
  | case1 s ih =>
    simp only [length_cons]
    omega
  | case2 c s _ ih => simpa using ih
  | case3 => exact le_rfl

def written (mem : Bytes) (a : ℕ) (str : Bytes) : Bytes := mem.take a ++ (str ++ 0 :: mem.drop (a + str.length + 1))

section

variable {mem : Bytes}

lemma length_written (h : a + str.length + 1 ≤ mem.length) : (written mem a str).length = mem.length := by
  simp only [written, length_append, length_take, length_cons, length_drop]
  omega

lemma drop_written (h : a + str.length + 1 ≤ mem.length) (hp : a + str.length + 1 ≤ p) :
    (written mem a str).drop p = mem.drop p := by
  have hpre : (mem.take a ++ (str ++ [0])).length = a + str.length + 1 := by
    simp only [length_append, length_take, length_singleton]
    omega
  have hsplit : written mem a str = (mem.take a ++ (str ++ [0])) ++ mem.drop (a + str.length + 1) := by
    simp [written]
  rw [hsplit, drop_append, hpre, drop_eq_nil_of_le (by omega), nil_append, drop_drop,
    Nat.add_sub_cancel' hp]

end

/-- `parse_usdt_note` once the name of the probe has been changed. -/
def usdtTail (ctx : Ctx) (note : Note) (ro : Rodata) (off fno : ℕ) (prv prb : Bytes) (p : ℕ) : Exec St Unit := do
  let w : Window := ⟨note.desc, note.desc + note.descsz⟩
  let fn ← readRodata ro (fno - ro.base)
  let s ← Exec.get
  if (dtHtabLookup prbOps s.prbmap (Probe.key prv ctx.mod (some fn) prb (BitVec.ofNat 32 off))).isSome then
    fail .eexist "Duplicate probe: %s:%s:%s:%s" [.str prv, .str ctx.mod, .str fn, .str prb]
  else
    let sargc ← readByte w p
    let sargs ← readStr w (p + 1)
    if w.hi < p + 1 + sargs.length + 1 then fail .einval "Incomplete note data" []
    else
      let prp : Probe := { Probe.key prv ctx.mod (some fn) prb (BitVec.ofNat 32 off) with
        sargc := sargc.toNat, tp := ⟨BitVec.ofNat 32 off, decide (note.type = 2), sargs⟩ }
      Exec.modify fun s => { s with
        prbmap := dtHtabInsert prbOps s.prbmap prp
        seen := s.seen ++ [⟨prv, fn, prb, BitVec.ofNat 64 off, decide (note.type = 2), sargs⟩] }

/-- `parse_usdt_note` from the name of the probe on. -/
def usdtName (ctx : Ctx) (note : Note) (ro : Rodata) (off fno : ℕ) (prv : Bytes) (a : ℕ) : Exec St Unit := do
  let w : Window := ⟨note.desc, note.desc + note.descsz⟩
  let name ← readStr w a
  if w.hi < a + name.length + 1 then fail .einval "Incomplete note data" []
  else
    writeStr a (hyphenate name)
    usdtTail ctx note ro off fno prv (hyphenate name) (a + name.length + 1)

lemma parseUsdtNote_eq (ctx : Ctx) (note : Note) : parseUsdtNote ctx note = (do
    let w : Window := ⟨note.desc, note.desc + note.descsz⟩
    match ctx.rodata with
    | none => fail .einval "Missing .rodata data" []
    | some ro =>
      if w.hi < note.desc + 16 then fail .einval "Incomplete note data" []
      else
        let off ← readNat w note.desc 8
        let fno ← readNat w (note.desc + 8) 8
        let prv ← readStr w (note.desc + 16)
        let a := note.desc + 16 + prv.length + 1
        if w.hi < a then fail .einval "Incomplete note data" []
        else if fno < ro.base ∨ ro.size ≤ fno - ro.base then fail .einval "Invalid function name offset" []
        else usdtName ctx note ro off fno prv a) := rfl

lemma lasting_usdtTail (ctx : Ctx) (note : Note) (ro : Rodata) (off fno : ℕ) (prv prb : Bytes) (p : ℕ) :
    Lasting (usdtTail ctx note ro off fno prv prb p) := by
  refine (reads_readRodata _ _).lasting.bind fun fn => lasting_get.bind fun s => (lasting_fail _ _ _).ite ?_
  refine (reads_readByte _ _).lasting.bind fun sargc => (reads_readStr _ _).lasting.bind fun sargs => ?_
  exact (lasting_fail _ _ _).ite (lasting_modify fun _ => ⟨id, le_rfl⟩)

lemma lasting_usdtName (ctx : Ctx) (note : Note) (ro : Rodata) (off fno : ℕ) (prv : Bytes) (a : ℕ) :
    Lasting (usdtName ctx note ro off fno prv a) := by
  refine (reads_readStr _ _).lasting.bind fun name => (lasting_fail _ _ _).ite ?_
  exact (reads_writeStr _ _).lasting.bind fun _ => lasting_usdtTail _ _ _ _ _ _ _ _

variable (hs : s.stray = false) (hfit : note.desc + note.descsz ≤ s.mem.length)
include hs hfit

lemma usdtTail_stays (ro : Rodata) (off fno : ℕ) (prv prb : Bytes) :
    Stays (usdtTail ctx note ro off fno prv prb (note.desc + p)) s (do
      let fn ← strIn (ro.mem.take ro.size) (fno - ro.base)
      if (dtHtabLookup prbOps s.prbmap (Probe.key prv ctx.mod (some fn) prb (BitVec.ofNat 32 off))).isSome then .bad
      else
        let _ ← byteIn (s.part note.desc note.descsz) p
        let _ ← strIn (s.part note.desc note.descsz) (p + 1)
        .ok ()) := by
  have hlen := length_part hfit
  refine .bind (readRodata_sim _ _) (fun fn => ?_) ?_
  · refine lasting_get.bind fun s => (lasting_fail _ _ _).ite ?_
    refine (reads_readByte _ _).lasting.bind fun sargc => (reads_readStr _ _).lasting.bind fun sargs => ?_
    exact (lasting_fail _ _ _).ite (lasting_modify fun _ => ⟨id, le_rfl⟩)
  rintro fn _ - - rfl
  refine .congr ?_ (congrArg Prod.snd (bind_some rfl))
  split
  · exact stays_fail hs _ _ _
  refine .bind (readByte_sim hfit) (fun sargc => ?_) ?_
  · refine (reads_readStr _ _).lasting.bind fun sargs => (lasting_fail _ _ _).ite ?_
    exact lasting_modify fun _ => ⟨id, le_rfl⟩
  rintro sargc _ - - rfl
  rw [Nat.add_assoc]
  refine .bind readStr_sim (fun sargs => (lasting_fail _ _ _).ite ?_) ?_
  · exact lasting_modify fun _ => ⟨id, le_rfl⟩
  rintro sargs _ - hstr rfl
  have hle := strIn_le hstr
  rw [if_neg (show ¬note.desc + note.descsz < note.desc + (p + 1) + sargs.length + 1 by omega)]
  exact stays_ok hs

lemma usdtName_stays (ro : Rodata) (off fno : ℕ) (prv : Bytes) :
    Stays (usdtName ctx note ro off fno prv (note.desc + a)) s (do
      let name ← strIn (s.part note.desc note.descsz) a
      let fn ← strIn (ro.mem.take ro.size) (fno - ro.base)
      if (dtHtabLookup prbOps s.prbmap
          (Probe.key prv ctx.mod (some fn) (hyphenate name) (BitVec.ofNat 32 off))).isSome then .bad
      else
        let _ ← byteIn (s.part note.desc note.descsz) (a + name.length + 1)
        let _ ← strIn (s.part note.desc note.descsz) (a + name.length + 1 + 1)
        .ok ()) := by
  have hlen := length_part hfit
  refine .bind readStr_sim (fun name => (lasting_fail _ _ _).ite ?_) ?_
  · exact (reads_writeStr _ _).lasting.bind fun _ => lasting_usdtTail _ _ _ _ _ _ _ _
  rintro name _ - hstr rfl
  have hle := strIn_le hstr
  rw [if_neg (show ¬note.desc + note.descsz < note.desc + a + name.length + 1 by omega)]
  set s' : St := { s with mem := written s.mem (note.desc + a) (hyphenate name) }
  have hwrite : writeStr (note.desc + a) (hyphenate name) s = (some (), s') := rfl
  refine .congr ?_ (congrArg Prod.snd (bind_some hwrite))
  have hshort := length_hyphenate_le name
  have hin : note.desc + a + (hyphenate name).length + 1 ≤ s.mem.length := by omega
  have hfit' : note.desc + note.descsz ≤ s'.mem.length := by
    rwa [length_written hin]
  -- what is left is as it was
  have hdrop : ∀ p, a + name.length + 1 ≤ p →
      (s'.part note.desc note.descsz).drop p = (s.part note.desc note.descsz).drop p := by
    intro p hp
    rw [drop_part, drop_part, drop_written hin (by omega)]
  have htail : Stays (usdtTail ctx note ro off fno prv (hyphenate name) (note.desc + (a + name.length + 1))) s' _ :=
    usdtTail_stays (show s'.stray = false from hs) hfit' ro off fno prv (hyphenate name)
  set p := a + name.length + 1
  have hbyte : byteIn (s'.part note.desc note.descsz) p = byteIn (s.part note.desc note.descsz) p := by
    rw [byteIn, byteIn, hdrop p le_rfl]
  have hargs : strIn (s'.part note.desc note.descsz) (p + 1) = strIn (s.part note.desc note.descsz) (p + 1) := by
    rw [strIn, strIn, cstr, cstr, hdrop _ (Nat.le_succ p)]
  rw [hbyte, hargs] at htail
  rw [show note.desc + a + name.length + 1 = note.desc + p by omega]
  exact htail

lemma parseUsdtNote_stays :
    Stays (parseUsdtNote ctx note) s (usdtIn ctx (s.part note.desc note.descsz) s.prbmap) := by
  have hlen := length_part hfit
  rw [usdtIn, parseUsdtNote_eq]
  cases hro : ctx.rodata with
  | none => exact stays_fail hs _ _ _
  | some ro =>
    dsimp only
    by_cases hroom : (s.part note.desc note.descsz).length < 16
    · rw [if_pos hroom, if_pos (by omega)]
      exact stays_fail hs _ _ _
    rw [if_neg hroom, if_neg (by omega)]
    have hoff : readNat ⟨note.desc, note.desc + note.descsz⟩ (note.desc + 0) 8 s = _ := readNat_part hfit (by omega)
    have hfno : readNat ⟨note.desc, note.desc + note.descsz⟩ (note.desc + 8) 8 s = _ := readNat_part hfit (by omega)
    refine .congr ?_ (congrArg Prod.snd ((bind_some hoff).trans (bind_some hfno)))
    refine .bind readStr_sim (fun prv => ?_) ?_
    · exact (lasting_fail _ _ _).ite ((lasting_fail _ _ _).ite (lasting_usdtName _ _ _ _ _ _ _))
    rintro prv _ - hstr rfl
    have hle := strIn_le hstr
    rw [if_neg (by omega)]
    split
    · exact stays_fail hs _ _ _
    rw [show note.desc + 16 + prv.length + 1 = note.desc + (16 + prv.length + 1) by omega]
    exact usdtName_stays hs hfit ro _ _ prv

end

end DTrace.Usdt
