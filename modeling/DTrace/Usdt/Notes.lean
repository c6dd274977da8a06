import DTrace.Lib.Exec
import DTrace.Usdt.Htab
import DTrace.Usdt.Stream

/-!
# USDT notes

The parser of ELF notes with USDT definitions.  A `prov` note has a provider and its probes, a `usdt` note a
tracepoint.  All notes are read into hash tables; then the tracepoints are moved from their table to the probes of the
providers, and what the providers have got is emitted.

* `getNote`, `parseProvNote`, `parseUsdtNote` — reading;
* `moveOne`, `moveLoop` — from one table to the other;
* `emitProbe`, `emitProvider` — the messages;
* `usdtParseNotes` — all of it.
-/

namespace DTrace.Usdt

open Lib

/-! ## Tables -/

def str2hval (s : Bytes) (hval : BitVec 32) : BitVec 32 :=
  s.foldl (fun hval c =>
    let hval := (hval <<< 4) + c.signExtend 32
    let g := hval &&& 0xf0000000
    if g ≠ 0 then (hval ^^^ (g >>> 24)) ^^^ g else hval) hval

/-- What `emit_tp` reads of a tracepoint. -/
structure Tp where
  off : BitVec 32
  isEnabled : Bool
  sargs : Bytes
  deriving DecidableEq

/-- `dt_probe_t`.  A probe of a `prov` note has no function; `next` are the tracepoints that have been put behind
it. -/
structure Probe where
  prv : Bytes
  mod : Bytes
  fn : Option Bytes
  prb : Bytes
  tp : Tp
  ntp : ℕ
  nargc : ℕ
  xargc : ℕ
  sargc : ℕ
  nargs : Bytes
  xargs : Bytes
  xmap : Bytes
  next : List Tp
  deriving DecidableEq

def Probe.key (prv mod : Bytes) (fn : Option Bytes) (prb : Bytes) (off : BitVec 32) : Probe :=
  ⟨prv, mod, fn, prb, ⟨off, false, []⟩, 0, 0, 0, 0, [], [], [], []⟩

def prbHval (p : Probe) : BitVec 32 :=
  str2hval p.prb (str2hval (p.fn.getD []) (str2hval p.mod (str2hval p.prv p.tp.off)))

/-- `prb_cmp` gives 0. -/
def prbCmp (p q : Probe) : Bool :=
  p.prv = q.prv && p.fn = q.fn && p.prb = q.prb && (p.tp.off = 0 || q.tp.off = 0 || p.tp.off = q.tp.off)

/-- `prb_htab_ops` and `pmap_htab_ops`. -/
def prbOps : Ops Probe where
  hval := prbHval
  cmp := prbCmp
  refl p := by simp [prbCmp]
  symm p q := by
    have h : ∀ p q : Probe, prbCmp p q = true → prbCmp q p = true := by
      intro p q h
      simp only [prbCmp, Bool.and_eq_true, Bool.or_eq_true, decide_eq_true_eq] at h ⊢
      obtain ⟨⟨⟨h₁, h₂⟩, h₃⟩, h₄⟩ := h
      refine ⟨⟨⟨h₁.symm, h₂.symm⟩, h₃.symm⟩, ?_⟩
      rcases h₄ with (h₄ | h₄) | h₄
      · exact .inl (.inr h₄)
      · exact .inl (.inl h₄)
      · exact .inr h₄.symm
    exact Bool.eq_iff_iff.2 ⟨h p q, h q p⟩

deriving instance DecidableEq for Bucket, Htab

/-- `dt_provider_t`. -/
structure Provider where
  name : Bytes
  attrs : List (BitVec 32)
  probec : ℕ
  pmap : Htab Probe
  deriving DecidableEq

def Provider.key (name : Bytes) : Provider := ⟨name, [], 0, dtHtabCreate⟩

/-- `prv_htab_ops`: `prv_hval` and `prv_cmp`. -/
def prvOps : Ops Provider where
  hval p := str2hval p.name 0
  cmp p q := p.name = q.name
  refl p := by simp
  symm p q := by simp [eq_comm]

/-! ## Reading -/

/-- The block of `.rodata`, and what memory has from there on. -/
structure Rodata where
  base : ℕ
  size : ℕ
  mem : Bytes

/-- What the parser is given besides the notes themselves: the size of their block, `dofhp_mod`, `dofhp_addr` and the
second block. -/
structure Ctx where
  size : ℕ
  mod : Bytes
  addr : BitVec 64
  rodata : Option Rodata

/-- A tracepoint as a `usdt` note has it. -/
structure UsdtNote where
  prv : Bytes
  fn : Bytes
  prb : Bytes
  off : BitVec 64
  isEnabled : Bool
  sargs : Bytes
  deriving DecidableEq

/-- The state of the parser: what memory has from the start of the block of notes on, whether a byte has been read
that is not part of what is being parsed, the two tables, the messages, and the history of `usdt` notes.  A string
that has been read is kept as it is: each note changes its own description only. -/
structure St where
  mem : Bytes
  stray : Bool
  prvmap : Htab Provider
  prbmap : Htab Probe
  out : List Msg
  seen : List UsdtNote

def St.init (mem : Bytes) : St := ⟨mem, false, dtHtabCreate, dtHtabCreate, [], []⟩

/-- A part of memory that something is to be read from. -/
structure Window where
  lo : ℕ
  hi : ℕ

/-- `n` bytes from `a` on are read that are not in the window. -/
def Window.escapes (w : Window) (a n : ℕ) : Bool := decide (¬(w.lo ≤ a ∧ a + n ≤ w.hi))

/-- The string at `a`, if it ends. -/
def cstr (mem : Bytes) (a : ℕ) : Option Bytes :=
  if 0 ∈ mem.drop a then some ((mem.drop a).takeWhile (· ≠ 0)) else none

/-- `usdt_error`, and the parser gives up. -/
def fail {α : Type} (errNo : Errno) (fmt : String) (args : List FmtArg) : Exec St α := fun s =>
  (none, { s with out := s.out ++ [.err errNo fmt args] })

/-- Bytes are read.  Beyond the end of memory there is a fault. -/
def readBytes (w : Window) (a n : ℕ) : Exec St Bytes := fun s =>
  if a + n ≤ s.mem.length then (some ((s.mem.drop a).take n), { s with stray := s.stray || w.escapes a n })
  else (none, { s with stray := true })

def readByte (w : Window) (a : ℕ) : Exec St (BitVec 8) := do
  let bs ← readBytes w a 1
  pure (bs.headD 0)

def readNat (w : Window) (a n : ℕ) : Exec St ℕ := do
  let bs ← readBytes w a n
  pure (Bytes.val bs)

/-- `n` 32-bit words. -/
def readWords (w : Window) : ℕ → ℕ → Exec St (List (BitVec 32))
  | 0, _ => pure []
  | n + 1, a => do
    let v ← readNat w a 4
    let vs ← readWords w n (a + 4)
    pure (BitVec.ofNat 32 v :: vs)

def readStr (w : Window) (a : ℕ) : Exec St Bytes := fun s =>
  match cstr s.mem a with
  | some str => (some str, { s with stray := s.stray || w.escapes a (str.length + 1) })
  | none => (none, { s with stray := true })

/-- `strcmp` with a literal, given with its final 0. -/
def strcmpLit (w : Window) : ℕ → Bytes → Exec St Bool
  | _, [] => pure true
  | a, c :: cs => do
    let b ← readByte w a
    if b = c then strcmpLit w (a + 1) cs else pure false

/-- `ALIGN(x, 4)`. -/
def align4 (x : ℕ) : ℕ := (x + 3) / 4 * 4

/-- `usdt_note_t`, with offsets in the block. -/
structure Note where
  type : ℕ
  name : ℕ
  desc : ℕ
  descsz : ℕ

/-- `get_note`: the note, and where the next one is (0 if it is the last). -/
def getNote (ctx : Ctx) (off : ℕ) : Exec St (Note × ℕ) := do
  if ctx.size ≤ off ∨ ctx.size - off < 12 then fail .einval "Invalid ELF note offset %zi" [.num off]
  else if off % 4 ≠ 0 then fail .einval "Pointer to note header not aligned" []
  else
    let namesz ← readNat ⟨0, ctx.size⟩ off 4
    let descsz ← readNat ⟨0, ctx.size⟩ (off + 4) 4
    let type ← readNat ⟨0, ctx.size⟩ (off + 8) 4
    let name := off + 12
    if ctx.size ≤ name ∨ ctx.size - name < namesz then fail .einval "Invalid name size %d" [.num namesz]
    else
      let desc := name + align4 namesz
      if ctx.size ≤ desc ∨ ctx.size - desc < descsz then fail .einval "Invalid desc size %d" [.num descsz]
      else
        let off := desc + align4 descsz
        pure (⟨type, name, desc, descsz⟩, if ctx.size ≤ off then 0 else off)

/-- `strarray_size`: where the strings end, unless `end` comes first. -/
def strarraySize (w : Window) (skip : ℕ) : ℕ → ℕ → Exec St (Option ℕ)
  | 0, p => pure (some p)
  | cnt + 1, p =>
    if w.hi ≤ p then pure none
    else do
      let s ← readStr w p
      strarraySize w skip cnt (p + s.length + 1 + skip)

/-- The translated arguments: their types, and the map. -/
def xlatArgs (w : Window) : ℕ → ℕ → Exec St (Bytes × Bytes × ℕ)
  | 0, p => pure ([], [], p)
  | cnt + 1, p => do
    let s ← readStr w p
    let m ← readByte w (p + s.length + 1)
    let (xargs, xmap, p) ← xlatArgs w cnt (p + s.length + 2)
    pure (s ++ 0 :: xargs, m :: xmap, p)

/-- One probe of a `prov` note. -/
def provProbe (ctx : Ctx) (prv : Bytes) (w : Window) (pmap : Htab Probe) (p : ℕ) : Exec St (Probe × ℕ) := do
  let p := align4 p
  let prb ← readStr w p
  let p := p + prb.length + 1
  if w.hi < p + 2 then fail .einval "Incomplete note data" []
  else if (dtHtabLookup prbOps pmap (Probe.key prv ctx.mod none prb 0)).isSome then
    fail .eexist "Duplicate probe: %s:%s::%s" [.str prv, .str ctx.mod, .str prb]
  else
    let nargc ← readByte w p
    let nargs := p + 1
    match ← strarraySize w 0 nargc.toNat nargs with
    | none => fail .einval "Incomplete note data" []
    | some p =>
      if w.hi < p then fail .einval "Incomplete note data" []
      else
        let args ← readBytes w nargs (p - nargs)
        let xargc ← readByte w p
        match ← strarraySize w 1 xargc.toNat (p + 1) with
        | none => fail .einval "Incomplete note data" []
        | some _ =>
          let (xargs, xmap, p) ← xlatArgs w xargc.toNat (p + 1)
          pure ({ Probe.key prv ctx.mod none prb 0 with
            nargc := nargc.toNat, xargc := xargc.toNat, nargs := args, xargs := xargs, xmap := xmap }, p)

/-- The probes of a `prov` note. -/
def provProbes (ctx : Ctx) (prv : Bytes) (w : Window) : ℕ → ℕ → Htab Probe → Exec St (Htab Probe)
  | 0, _, pmap => pure pmap
  | probec + 1, p, pmap => do
    let (prp, p) ← provProbe ctx prv w pmap p
    provProbes ctx prv w probec p (dtHtabInsert prbOps pmap prp)

def parseProvNote (ctx : Ctx) (note : Note) : Exec St Unit := do
  let w : Window := ⟨note.desc, note.desc + note.descsz⟩
  let name ← readStr w note.desc
  let p := note.desc + align4 (name.length + 1)
  if w.hi < p + 24 then fail .einval "Incomplete note data" []
  else
    let s ← Exec.get
    if (dtHtabLookup prvOps s.prvmap (Provider.key name)).isSome then
      fail .eexist "Duplicate provider: %s" [.str name]
    else
      let attrs ← readWords w 5 p
      let probec ← readNat w (p + 20) 4
      let pmap ← provProbes ctx name w probec (p + 24) dtHtabCreate
      Exec.modify fun s => { s with prvmap := dtHtabInsert prvOps s.prvmap ⟨name, attrs, 0, pmap⟩ }

/-- The name of a probe with `__` changed to `-`. -/
def hyphenate : Bytes → Bytes
  | 95 :: 95 :: s => 45 :: hyphenate s
  | c :: s => c :: hyphenate s
  | [] => []

def writeStr (a : ℕ) (str : Bytes) : Exec St Unit := Exec.modify fun s =>
  { s with mem := s.mem.take a ++ (str ++ 0 :: s.mem.drop (a + str.length + 1)) }

/-- A string of `.rodata`. -/
def readRodata (ro : Rodata) (a : ℕ) : Exec St Bytes := fun s =>
  match cstr ro.mem a with
  | some str => (some str, { s with stray := s.stray || (⟨0, ro.size⟩ : Window).escapes a (str.length + 1) })
  | none => (none, { s with stray := true })

def parseUsdtNote (ctx : Ctx) (note : Note) : Exec St Unit := do
  let w : Window := ⟨note.desc, note.desc + note.descsz⟩
  match ctx.rodata with
  | none => fail .einval "Missing .rodata data" []
  | some ro =>
    if w.hi < note.desc + 16 then fail .einval "Incomplete note data" []
    else
      let off ← readNat w note.desc 8
      let fno ← readNat w (note.desc + 8) 8
      let prv ← readStr w (note.desc + 16)
      let a := note.desc + 16 + prv.length + 1
      if w.hi < a then fail .einval "Incomplete note data" []
      else if fno < ro.base ∨ ro.size ≤ fno - ro.base then fail .einval "Invalid function name offset" []
      else
        let name ← readStr w a
        let p := a + name.length + 1
        if w.hi < p then fail .einval "Incomplete note data" []
        else
          let prb := hyphenate name
          writeStr a prb
          let fn ← readRodata ro (fno - ro.base)
          let s ← Exec.get
          if (dtHtabLookup prbOps s.prbmap (Probe.key prv ctx.mod (some fn) prb (BitVec.ofNat 32 off))).isSome then
            fail .eexist "Duplicate probe: %s:%s:%s:%s" [.str prv, .str ctx.mod, .str fn, .str prb]
          else
            let sargc ← readByte w p
            let sargs ← readStr w (p + 1)
            if w.hi < p + 1 + sargs.length + 1 then fail .einval "Incomplete note data" []
            else
              let prp : Probe := { Probe.key prv ctx.mod (some fn) prb (BitVec.ofNat 32 off) with
                sargc := sargc.toNat, tp := ⟨BitVec.ofNat 32 off, decide (note.type = 2), sargs⟩ }
              Exec.modify fun s => { s with
                prbmap := dtHtabInsert prbOps s.prbmap prp
                seen := s.seen ++ [⟨prv, fn, prb, BitVec.ofNat 64 off, decide (note.type = 2), sargs⟩] }

/-- `"prov"`, `"usdt"`, `"dver"` and `"utsn"`. -/
def litProv : Bytes := [112, 114, 111, 118, 0]
def litUsdt : Bytes := [117, 115, 100, 116, 0]
def litDver : Bytes := [100, 118, 101, 114, 0]
def litUtsn : Bytes := [117, 116, 115, 110, 0]

def parseNote (ctx : Ctx) (note : Note) : Exec St Unit := do
  let w : Window := ⟨0, ctx.size⟩
  if ← strcmpLit w note.name litProv then parseProvNote ctx note
  else if ← strcmpLit w note.name litUsdt then parseUsdtNote ctx note
  else if ← strcmpLit w note.name litDver then pure ()
  else if ← strcmpLit w note.name litUtsn then pure ()
  else
    let name ← readStr w note.name
    fail .einval "Unknown note: %s" [.str name]

/-- The loop over the notes, with at most `n` turns. -/
def readNotes (ctx : Ctx) : ℕ → ℕ → Exec St Unit
  | 0, _ => Exec.stop
  | n + 1, off => do
    let (note, off) ← getNote ctx off
    parseNote ctx note
    if off = 0 then pure () else readNotes ctx n off

/-! ## Moving the tracepoints -/

/-- The probe of the provider that a tracepoint goes to, with the key it is found by: one with the same function if
there is one, or the probe of the `prov` note. -/
def matching (pmap : Htab Probe) (ptp : Probe) : Option (Probe × Probe) :=
  let key := Probe.key ptp.prv ptp.mod ptp.fn ptp.prb 0
  match dtHtabLookup prbOps pmap key with
  | some prp => some (key, prp)
  | none =>
    let key := Probe.key ptp.prv ptp.mod none ptp.prb 0
    (dtHtabLookup prbOps pmap key).map fun prp => (key, prp)

/-- A tracepoint is put behind a probe that has the same function. -/
def Probe.link (prp ptp : Probe) : Probe :=
  { prp with next := ptp.tp :: prp.next, ntp := (prp.ntp + 1) % 2 ^ 32 }

/-- A tracepoint becomes a probe of the provider, with the arguments of the `prov` note. -/
def Probe.adopt (prp ptp : Probe) : Probe :=
  { ptp with
    ntp := 1, nargc := prp.nargc, nargs := prp.nargs, xargc := prp.xargc, xargs := prp.xargs, xmap := prp.xmap }

/-- The tracepoint is added to the provider. -/
def Provider.add (pvp : Provider) (key prp ptp : Probe) : Provider :=
  if prp.fn ≠ none then { pvp with pmap := pvp.pmap.update prbOps key (·.link ptp) }
  else { pvp with pmap := dtHtabInsert prbOps pvp.pmap (prp.adopt ptp), probec := (pvp.probec + 1) % 2 ^ 32 }

/-- `" (is-enabled)"`. -/
def textIsEnabled : Bytes := [32, 40, 105, 115, 45, 101, 110, 97, 98, 108, 101, 100, 41]

/-- One turn of the loop over the tracepoints. -/
def moveOne (ptp : Probe) : Exec St Unit := fun s =>
  match dtHtabLookup prvOps s.prvmap (Provider.key ptp.prv) with
  | none => fail .enoent "No such provider: %s" [.str ptp.prv] s
  | some pvp =>
    match matching pvp.pmap ptp with
    | none => fail .enoent "No such probe: %s:::%s" [.str ptp.prv, .str ptp.prb] s
    | some (key, prp) =>
      if ptp.sargc ≠ prp.nargc ∧ (¬ptp.tp.isEnabled ∨ ptp.sargc ≠ 1) then
        fail .einval "%s:::%s%s prototype mismatch: %hhd passed, %hhd expected"
          [.str ptp.prv, .str ptp.prb, .str (if ptp.tp.isEnabled then textIsEnabled else []), .num ptp.sargc,
            .num (if ptp.tp.isEnabled then 1 else prp.nargc)] s
      else
        (some (), { s with
          prbmap := dtHtabDelete prbOps s.prbmap ptp
          prvmap := s.prvmap.update prvOps (Provider.key ptp.prv) fun _ => pvp.add key prp ptp })

/-- The loop over the tracepoints, with at most `n` turns. -/
def moveLoop : ℕ → Walk Probe → Exec St Unit
  | 0, _ => Exec.stop
  | n + 1, it => fun s =>
    match dtHtabNext s.prbmap it with
    | (none, _) => (some (), s)
    | (some ptp, it) => (moveOne ptp >>= fun _ => moveLoop n it) s

/-! ## Emission -/

/-- The entries that a loop over a table gets, with at most `n` turns. -/
def walkLoop {α : Type} [DecidableEq α] (t : Htab α) : ℕ → Walk α → List α
  | 0, _ => []
  | n + 1, it =>
    match dtHtabNext t it with
    | (none, _) => []
    | (some e, it) => e :: walkLoop t n it

def walk {α : Type} [DecidableEq α] (t : Htab α) : List α := walkLoop t (t.list.length + 1) .start

def emitTp (ctx : Ctx) (tp : Tp) : Msg := .tracepoint (tp.off.setWidth 64 + ctx.addr) tp.isEnabled tp.sargs

def emitProbe (ctx : Ctx) (prp : Probe) : List Msg :=
  .probe prp.ntp prp.nargc prp.xargc prp.mod (prp.fn.getD []) prp.prb ::
    ((if prp.nargc ≠ 0 then
        .argsNative prp.nargs :: (if prp.xargc ≠ 0 then [.argsXlat prp.xargs, .argsMap prp.xmap] else [])
      else []) ++ (prp.tp :: prp.next).map (emitTp ctx))

def emitProvider (ctx : Ctx) (pvp : Provider) : List Msg :=
  .provider pvp.probec pvp.name ::
    (walk pvp.pmap).flatMap fun prp => if prp.fn = none then [] else emitProbe ctx prp

/-- The last loop of `usdt_parse_notes`. -/
def emitAll (ctx : Ctx) : Exec St Unit := Exec.modify fun s =>
  { s with out := s.out ++ (walk s.prvmap).flatMap fun pvp => if 0 < pvp.probec then emitProvider ctx pvp else [] }

/-- `usdt_parse_notes`: it returns 0 if there is a result. -/
def usdtParseNotes (ctx : Ctx) : Exec St Unit := do
  readNotes ctx (ctx.size + 1) 0
  let s ← Exec.get
  moveLoop (s.prbmap.list.length + 1) .start
  emitAll ctx

end DTrace.Usdt
