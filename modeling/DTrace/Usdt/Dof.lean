import DTrace.Usdt.Notes

/-!
# USDT definitions in DOF

The parser of DOF with USDT definitions.  The DOF is a block in memory: a header, section headers and sections, and
all of them are read where they are.  `dof_slurp` checks the headers and applies relocations, then every provider
section is validated and emitted.

* `read`, `write` — access to memory, with a note of whether the block has been left;
* `dofSlurp` — `checkHeader`, `checkSection` and `dofRelocate`;
* `validateProvider`, `emitProvider` — the definitions;
* `usdtParseDof` — all of it.
-/

namespace DTrace.Usdt.Dof

open Lib

/-! ## Memory -/

/-- The block, as an address and a size, and `dofhp_mod` and `dofhp_addr`.  The parser is not told the size. -/
structure Ctx where
  daddr : ℕ
  size : ℕ
  mod : Bytes
  addr : BitVec 64

/-- The state of the parser: memory, whether anything that is not part of the block has been read or written, and the
messages. -/
structure St where
  mem : Bytes
  stray : Bool
  out : List Msg

def St.init (mem : Bytes) : St := ⟨mem, false, []⟩

/-- The address at an offset from the start of the block. -/
def Ctx.at (ctx : Ctx) (x : ℕ) : ℕ := (ctx.daddr + x) % 2 ^ 64

/-- `n` bytes from `a` on are not all in the block. -/
def Ctx.escapes (ctx : Ctx) (a n : ℕ) : Bool := decide (¬(ctx.daddr ≤ a ∧ a + n ≤ ctx.daddr + ctx.size))

/-- Bytes are read.  Where there is no memory there is a fault. -/
def read (ctx : Ctx) (x n : ℕ) : Exec St Bytes := fun s =>
  if ctx.at x + n ≤ s.mem.length then
    (some ((s.mem.drop (ctx.at x)).take n), { s with stray := s.stray || ctx.escapes (ctx.at x) n })
  else (none, { s with stray := true })

/-- A number of `n` bytes. -/
def num (ctx : Ctx) (x n : ℕ) : Exec St ℕ := do
  let bs ← read ctx x n
  pure bs.val

def readStr (ctx : Ctx) (x : ℕ) : Exec St Bytes := fun s =>
  match cstr s.mem (ctx.at x) with
  | some str => (some str, { s with stray := s.stray || ctx.escapes (ctx.at x) (str.length + 1) })
  | none => (none, { s with stray := true })

def write (ctx : Ctx) (x : ℕ) (bs : Bytes) : Exec St Unit := fun s =>
  if ctx.at x + bs.length ≤ s.mem.length then
    (some (), { s with
      mem := s.mem.take (ctx.at x) ++ (bs ++ s.mem.drop (ctx.at x + bs.length))
      stray := s.stray || ctx.escapes (ctx.at x) bs.length })
  else (none, { s with stray := true })

def emit (msg : Msg) : Exec St Unit := Exec.modify fun s => { s with out := s.out ++ [msg] }

/-- `usdt_error`, and the parser gives up. -/
def fail {α : Type} (fmt : String) (args : List FmtArg) : Exec St α := do
  emit (.err .einval fmt args)
  Exec.stop

/-! ## Sections -/

/-- `DOF_SECT_STRTAB` and so on. -/
def sectNone : ℕ := 0
def sectStrtab : ℕ := 8
def sectReltab : ℕ := 10
def sectUrelhdr : ℕ := 12
def sectProvider : ℕ := 15
def sectProbes : ℕ := 16
def sectPrargs : ℕ := 17
def sectProffs : ℕ := 18
def sectPrenoffs : ℕ := 26

/-- `DOF_SEC_ISLOADABLE`. -/
def isLoadable (type : ℕ) : Bool :=
  type ∈ [3, 4, 5, 6, 7, sectStrtab, 9, sectReltab, 11, sectUrelhdr, 13, 14, sectProvider, sectProbes, sectPrargs,
    sectProffs, 19, 21, 22, 23, 24, 25, sectPrenoffs]

/-- `dofh_ident[DOF_ID_VERSION]`, `dofh_secsize`, `dofh_secnum`, `dofh_secoff` and `dofh_loadsz`. -/
def version (ctx : Ctx) : Exec St ℕ := num ctx 6 1
def secsize (ctx : Ctx) : Exec St ℕ := num ctx 24 4
def secnum (ctx : Ctx) : Exec St ℕ := num ctx 28 4
def secoff (ctx : Ctx) : Exec St ℕ := num ctx 32 8
def loadsz (ctx : Ctx) : Exec St ℕ := num ctx 40 8

/-- The fields of a section header: `dofs_type`, `dofs_align`, `dofs_flags`, `dofs_entsize`, `dofs_offset` and
`dofs_size`. -/
def dofsType (ctx : Ctx) (sec : ℕ) : Exec St ℕ := num ctx sec 4
def dofsAlign (ctx : Ctx) (sec : ℕ) : Exec St ℕ := num ctx (sec + 4) 4
def dofsFlags (ctx : Ctx) (sec : ℕ) : Exec St ℕ := num ctx (sec + 8) 4
def dofsEntsize (ctx : Ctx) (sec : ℕ) : Exec St ℕ := num ctx (sec + 12) 4
def dofsOffset (ctx : Ctx) (sec : ℕ) : Exec St ℕ := num ctx (sec + 16) 8
def dofsSize (ctx : Ctx) (sec : ℕ) : Exec St ℕ := num ctx (sec + 24) 8

/-- `DOF_SECF_LOAD`. -/
def isLoad (flags : ℕ) : Bool := flags % 2 = 1

/-- Where a section header is.  The product has 32 bits. -/
def secAt (ctx : Ctx) (i : ℕ) : Exec St ℕ := do
  let off ← secoff ctx
  let size ← secsize ctx
  pure (off + i * size % 2 ^ 32)

/-- `dof_sect`; it gives `NULL` after an error. -/
def dofSect (ctx : Ctx) (sectype i : ℕ) : Exec St (Option ℕ) := do
  let sec ← secAt ctx i
  let n ← secnum ctx
  if n ≤ i then
    emit (.err .einval "referenced section index %u is invalid, above %u" [.num i, .num n])
    pure none
  else
    let flags ← dofsFlags ctx sec
    if !isLoad flags then
      emit (.err .einval "referenced section %u is not loadable" [.num i])
      pure none
    else if sectype = sectNone then pure (some sec)
    else
      let type ← dofsType ctx sec
      if sectype ≠ type then
        emit (.err .einval "referenced section %u is the wrong type, %u, not %u" [.num i, .num type, .num sectype])
        pure none
      else pure (some sec)

/-- A loop over the sections, with at most `fuel` turns.  Their number is read again each time. -/
def secLoop (ctx : Ctx) (body : ℕ → Exec St Unit) : ℕ → ℕ → Exec St Unit
  | 0, _ => Exec.stop
  | fuel + 1, i => do
    let n ← secnum ctx
    if i < n then
      body i
      secLoop ctx body fuel (i + 1)
    else pure ()

/-- More than enough turns: the number of sections has 32 bits. -/
def maxTurns : ℕ := 2 ^ 32

/-! ## Slurping -/

/-- An entry of a relocation table, for the section with header `ts`. -/
def relocEntry (ctx : Ctx) (ts r : ℕ) : Exec St Unit := do
  let toff ← dofsOffset ctx ts
  let roff ← num ctx (r + 8) 8
  let type ← num ctx (r + 4) 4
  if type = 0 then pure ()
  else if type = 1 then
    let tsize ← dofsSize ctx ts
    if tsize ≤ roff ∨ tsize < (roff + 8) % 2 ^ 64 then
      fail "bad relocation offset: offset %zi, section size %zi)" [.num roff, .num tsize]
    else if ctx.at (toff + roff) % 8 ≠ 0 then fail "misaligned setx relo" []
    else
      -- the loader may have done it already
      let v ← num ctx (toff + roff) 8
      if ctx.addr.toNat < v then pure () else write ctx (toff + roff) (Bytes.ofNat 8 (v + ctx.addr.toNat))
  else fail "invalid relocation type %i" [.num type]

/-- The loop of `dof_relocate`.  The size of an entry is read again each time. -/
def relocLoop (ctx : Ctx) (rs ts : ℕ) : ℕ → ℕ → Exec St Unit
  | 0, _ => pure ()
  | n + 1, r => do
    relocEntry ctx ts r
    let entsize ← dofsEntsize ctx rs
    relocLoop ctx rs ts n (r + entsize)

/-- `dof_relocate` up to its loop: the headers of the table and of its target, where the first entry is, and how many
there are. -/
def relocTable (ctx : Ctx) (sec : ℕ) : Exec St (ℕ × ℕ × ℕ × ℕ) := do
  let dofr ← dofsOffset ctx sec
  let size ← dofsSize ctx sec
  let align ← dofsAlign ctx sec
  if size < 12 ∨ align ≠ 4 then
    fail "invalid relocation header: size %zi (expected %zi); alignment %u (expected %zi)"
      [.num size, .num 12, .num align, .num 4]
  else
    let strtab ← num ctx dofr 4
    let ss ← dofSect ctx sectStrtab strtab
    let relsec ← num ctx (dofr + 4) 4
    let rs ← dofSect ctx sectReltab relsec
    let tgtsec ← num ctx (dofr + 8) 4
    let ts ← dofSect ctx sectNone tgtsec
    match ss, rs, ts with
    | some _, some rs, some ts =>
      let entsize ← dofsEntsize ctx rs
      let align ← dofsAlign ctx rs
      if entsize < 24 ∨ align ≠ 8 then
        fail "invalid relocation section: entsize %i (expected %zi); alignment %u (expected %zi)"
          [.num entsize, .num 24, .num align, .num 8]
      else
        let r ← dofsOffset ctx rs
        let size ← dofsSize ctx rs
        pure (rs, ts, r, size / entsize % 2 ^ 32)
    | _, _, _ => Exec.stop

def dofRelocate (ctx : Ctx) (sec : ℕ) : Exec St Unit := do
  let (rs, ts, r, n) ← relocTable ctx sec
  relocLoop ctx rs ts n r

/-- The first of the bytes that is not 0, with its index. -/
def firstSet : ℕ → Bytes → Option (ℕ × BitVec 8)
  | _, [] => none
  | i, b :: bs => if b ≠ 0 then some (i, b) else firstSet (i + 1) bs

/-- `dof_slurp` up to its first loop; the load size. -/
def checkHeader (ctx : Ctx) : Exec St ℕ := do
  let len ← loadsz ctx
  if len < 64 then fail "load size %zi smaller than header %zi" [.num len, .num 64]
  else
    let ident ← read ctx 0 16
    let id (i : ℕ) : ℕ := (ident.getD i 0).toNat
    let magic : Bytes := [0x7f, 0x44, 0x4f, 0x46]
    if ident.take 4 ≠ magic then
      fail "DOF magic string mismatch: %c%c%c%c versus %c%c%c%c\n"
        ((ident.take 4 ++ magic).map fun b => .num b.toNat)
    else if id 4 ≠ 1 ∧ id 4 ≠ 2 then fail "DOF has invalid data model: %i" [.num (id 4)]
    else if id 5 ≠ 1 then fail "DOF encoding mismatch: %i, expected %i" [.num (id 5), .num 1]
    else if id 6 ≠ 1 ∧ id 6 ≠ 2 ∧ id 6 ≠ 3 then fail "DOF version mismatch: %i" [.num (id 6)]
    else if id 7 ≠ 2 then fail "DOF uses unsupported instruction set %i" [.num (id 7)]
    else if 8 < id 8 then fail "DOF uses too many integer registers: %i > %i" [.num (id 8), .num 8]
    else if 8 < id 9 then fail "DOF uses too many tuple registers: %i > %i" [.num (id 9), .num 8]
    else
      match firstSet 10 (ident.drop 10) with
      | some (i, b) => fail "DOF has invalid ident byte set: %i = %i" [.num i, .num b.toNat]
      | none =>
        let flags ← num ctx 16 4
        if flags ≠ 0 then fail "DOF has invalid flag bits set: %xi" [.num flags]
        else
          let size ← secsize ctx
          if size = 0 then fail "zero section header size" []
          else
            let n ← secnum ctx
            let off ← secoff ctx
            let seclen := n * size
            if len < off ∨ len < seclen ∨ len < (off + seclen) % 2 ^ 64 then
              fail "truncated section headers: %zi, %zi, %zi" [.num off, .num len, .num seclen]
            else if off % 8 ≠ 0 then fail "misaligned section headers" []
            else if size % 8 ≠ 0 then fail "misaligned section size" []
            else pure len

def checkSection (ctx : Ctx) (len i : ℕ) : Exec St Unit := do
  let sec ← secAt ctx i
  let type ← dofsType ctx sec
  let flags ← dofsFlags ctx sec
  if isLoadable type ∧ !isLoad flags then fail "loadable section %i with load flag unset" [.num i]
  else if !isLoad flags then pure ()
  else
    let align ← dofsAlign ctx sec
    let mask := (align + (2 ^ 32 - 1)) % 2 ^ 32
    if align &&& mask ≠ 0 then fail "bad section %i alignment %x" [.num i, .num align]
    else
      let off ← dofsOffset ctx sec
      if off &&& mask ≠ 0 then
        fail "misaligned section %i: %lx, stated alignment %xi" [.num i, .num off, .num align]
      else
        let size ← dofsSize ctx sec
        if len < off ∨ len < size ∨ len < (off + size) % 2 ^ 64 then
          fail "corrupt section %i header: offset %lx, size %lx, len %lx" [.num i, .num off, .num size, .num len]
        else if type = sectStrtab then
          -- an empty table has its last byte before its first one
          let last ← num ctx (off + size + (2 ^ 64 - 1)) 1
          if last ≠ 0 then fail "section %i: non-0-terminated string table" [.num i] else pure ()
        else pure ()

/-- `dof_slurp` up to its second loop. -/
def checkSections (ctx : Ctx) : Exec St Unit := do
  let len ← checkHeader ctx
  secLoop ctx (checkSection ctx len) maxTurns 0

def relocSection (ctx : Ctx) (i : ℕ) : Exec St Unit := do
  let sec ← secAt ctx i
  let flags ← dofsFlags ctx sec
  if !isLoad flags then pure ()
  else
    let type ← dofsType ctx sec
    if type = sectUrelhdr then dofRelocate ctx sec else pure ()

/-- The second loop of `dof_slurp`. -/
def relocSections (ctx : Ctx) : Exec St Unit := secLoop ctx (relocSection ctx) maxTurns 0

def dofSlurp (ctx : Ctx) : Exec St Unit := do
  checkSections ctx
  relocSections ctx

/-! ## Validation -/

/-- The fields of `dof_provider_t`. -/
def dofpvStrtab (ctx : Ctx) (prov : ℕ) : Exec St ℕ := num ctx prov 4
def dofpvProbes (ctx : Ctx) (prov : ℕ) : Exec St ℕ := num ctx (prov + 4) 4
def dofpvPrargs (ctx : Ctx) (prov : ℕ) : Exec St ℕ := num ctx (prov + 8) 4
def dofpvProffs (ctx : Ctx) (prov : ℕ) : Exec St ℕ := num ctx (prov + 12) 4
def dofpvName (ctx : Ctx) (prov : ℕ) : Exec St ℕ := num ctx (prov + 16) 4
def dofpvPrenoffs (ctx : Ctx) (prov : ℕ) : Exec St ℕ := num ctx (prov + 40) 4

/-- The fields of `dof_probe_t`. -/
def dofprAddr (ctx : Ctx) (prb : ℕ) : Exec St ℕ := num ctx prb 8
def dofprFunc (ctx : Ctx) (prb : ℕ) : Exec St ℕ := num ctx (prb + 8) 4
def dofprName (ctx : Ctx) (prb : ℕ) : Exec St ℕ := num ctx (prb + 12) 4
def dofprNargv (ctx : Ctx) (prb : ℕ) : Exec St ℕ := num ctx (prb + 16) 4
def dofprXargv (ctx : Ctx) (prb : ℕ) : Exec St ℕ := num ctx (prb + 20) 4
def dofprArgidx (ctx : Ctx) (prb : ℕ) : Exec St ℕ := num ctx (prb + 24) 4
def dofprOffidx (ctx : Ctx) (prb : ℕ) : Exec St ℕ := num ctx (prb + 28) 4
def dofprNargc (ctx : Ctx) (prb : ℕ) : Exec St ℕ := num ctx (prb + 32) 1
def dofprXargc (ctx : Ctx) (prb : ℕ) : Exec St ℕ := num ctx (prb + 33) 1
def dofprNoffs (ctx : Ctx) (prb : ℕ) : Exec St ℕ := num ctx (prb + 34) 2
def dofprEnoffidx (ctx : Ctx) (prb : ℕ) : Exec St ℕ := num ctx (prb + 36) 4
def dofprNenoffs (ctx : Ctx) (prb : ℕ) : Exec St ℕ := num ctx (prb + 40) 2

/-- The headers of the sections of a provider.  There need not be one for is-enabled offsets. -/
structure Secs where
  str : ℕ
  prb : ℕ
  arg : ℕ
  off : ℕ
  enoff : Option ℕ

/-- `cnt` entries from `idx` on do not wrap the index, and the section has room for them.  Index and product have
32 bits. -/
def fits (idx cnt entsize size : ℕ) : Bool :=
  decide (idx ≤ (idx + cnt) % 2 ^ 32 ∧ (idx + cnt) % 2 ^ 32 * entsize % 2 ^ 32 ≤ size)

/-- A name in the string table that is shorter than `max`. -/
def checkName (ctx : Ctx) (strtab strsize idx max : ℕ) (badIdx tooLong : String) : Exec St Unit := do
  if strsize ≤ idx then fail badIdx [.num idx, .num strsize]
  else
    let name ← readStr ctx (strtab + idx)
    if max ≤ name.length then fail tooLong [.str name] else pure ()

/-- A loop over types of arguments.  The index has 32 bits, and the pointer goes with it. -/
def typeLoop (ctx : Ctx) (strsize : ℕ) (check : ℕ → Exec St Unit) (badType tooLong : String) :
    ℕ → ℕ → ℕ → ℕ → Exec St Unit
  | 0, _, _, _ => pure ()
  | n + 1, k, typeidx, typestr => do
    check k
    if strsize ≤ typeidx then fail badType [.num k, .num typeidx]
    else
      let str ← readStr ctx typestr
      if 128 < str.length + 1 then fail tooLong [.num k, .str str]
      else
        typeLoop ctx strsize check badType tooLong n (k + 1) ((typeidx + (str.length + 1)) % 2 ^ 32)
          (typestr + (str.length + 1))

/-- The map entry of a translated argument. -/
def checkArg (ctx : Ctx) (arg argidx nargc k : ℕ) : Exec St Unit := do
  let m ← num ctx (arg + (argidx + k) % 2 ^ 32) 1
  if nargc < m then
    fail "bad native argument index for arg %i: %i (max %i)" [.num k, .num m, .num nargc]
  else pure ()

def checkOffs (ctx : Ctx) (secs : Secs) (version prb : ℕ) : Exec St Unit := do
  let offidx ← dofprOffidx ctx prb
  let noffs ← dofprNoffs ctx prb
  let entsize ← dofsEntsize ctx secs.off
  let size ← dofsSize ctx secs.off
  if !fits offidx noffs entsize size then
    fail "invalid probe offset %x (offset count %x, section entsize %x, size %lx)"
      [.num offidx, .num noffs, .num entsize, .num size]
  else if version ≠ 1 then
    match secs.enoff with
    | none =>
      let enoffidx ← dofprEnoffidx ctx prb
      if enoffidx ≠ 0 then fail "is-enabled offsets with null section" []
      else
        let nenoffs ← dofprNenoffs ctx prb
        if nenoffs ≠ 0 then fail "is-enabled offsets with null section" []
        else if noffs + nenoffs = 0 then fail "zero probe and is-enabled offsets" []
        else pure ()
    | some enoff =>
      let enoffidx ← dofprEnoffidx ctx prb
      let nenoffs ← dofprNenoffs ctx prb
      let entsize ← dofsEntsize ctx enoff
      let size ← dofsSize ctx enoff
      if !fits enoffidx nenoffs entsize size then
        fail "invalid is-enabled offset %x (offset count %x, section entsize %x, size %lx)"
          [.num enoffidx, .num nenoffs, .num entsize, .num size]
      else if noffs + nenoffs = 0 then fail "zero probe and is-enabled offsets" []
      else pure ()
  else if noffs = 0 then fail "zero probe offsets" []
  else pure ()

def checkArgs (ctx : Ctx) (secs : Secs) (strtab arg prb : ℕ) : Exec St Unit := do
  let argidx ← dofprArgidx ctx prb
  let xargc ← dofprXargc ctx prb
  let entsize ← dofsEntsize ctx secs.arg
  let size ← dofsSize ctx secs.arg
  if !fits argidx xargc entsize size then
    fail "invalid args, idx %x (offset count %x, section entsize %x, size %lx)"
      [.num argidx, .num xargc, .num entsize, .num size]
  else
    let strsize ← dofsSize ctx secs.str
    let nargv ← dofprNargv ctx prb
    let nargc ← dofprNargc ctx prb
    typeLoop ctx strsize (fun _ => pure ()) "bad native argument type for arg %i: %x"
      "native argument type for arg %i too long: %s" nargc 0 nargv (strtab + nargv)
    let xargv ← dofprXargv ctx prb
    typeLoop ctx strsize (checkArg ctx arg argidx nargc) "bad translated argument type for arg %i: %x"
      "translated argument type for arg %i too long: %s" xargc 0 xargv (strtab + xargv)

/-- One turn of the loop over the probes. -/
def checkProbe (ctx : Ctx) (secs : Secs) (version strtab arg prb : ℕ) : Exec St Unit := do
  let strsize ← dofsSize ctx secs.str
  let func ← dofprFunc ctx prb
  checkName ctx strtab strsize func 128 "invalid function name: strtab offset %x, max %lx" "function name %s too long"
  let name ← dofprName ctx prb
  checkName ctx strtab strsize name 64 "invalid probe name: strtab offset %x, max %lx" "probe name %s too long"
  checkOffs ctx secs version prb
  checkArgs ctx secs strtab arg prb

def checkProbes (ctx : Ctx) (secs : Secs) (version strtab arg : ℕ) : ℕ → ℕ → Exec St Unit
  | 0, _ => pure ()
  | n + 1, j => do
    let off ← dofsOffset ctx secs.prb
    let entsize ← dofsEntsize ctx secs.prb
    checkProbe ctx secs version strtab arg (off + j * entsize % 2 ^ 32)
    checkProbes ctx secs version strtab arg n (j + 1)

/-- `validate_provider` up to the sections: the version, the provider and its sections. -/
def providerSecs (ctx : Ctx) (sec : ℕ) : Exec St (ℕ × ℕ × Secs) := do
  let type ← dofsType ctx sec
  if type ≠ sectProvider then fail "DOF is not provider DOF: %i" [.num type]
  else
    let prov ← dofsOffset ctx sec
    if prov % 4 ≠ 0 then fail "misaligned section offset: %lx" [.num prov]
    else
      let vers ← version ctx
      let size ← dofsSize ctx sec
      if size < (if vers = 1 then 40 else 44) then fail "provider section too small: %lx" [.num size]
      else
        let strtab ← dofpvStrtab ctx prov
        let str ← dofSect ctx sectStrtab strtab
        let probes ← dofpvProbes ctx prov
        let prb ← dofSect ctx sectProbes probes
        let prargs ← dofpvPrargs ctx prov
        let arg ← dofSect ctx sectPrargs prargs
        let proffs ← dofpvProffs ctx prov
        let off ← dofSect ctx sectProffs proffs
        match str, prb, arg, off with
        | some str, some prb, some arg, some off =>
          if vers = 1 then pure (vers, prov, ⟨str, prb, arg, off, none⟩)
          else
            let prenoffs ← dofpvPrenoffs ctx prov
            if prenoffs = sectNone then pure (vers, prov, ⟨str, prb, arg, off, none⟩)
            else
              match ← dofSect ctx sectPrenoffs prenoffs with
              | none => Exec.stop
              | some enoff => pure (vers, prov, ⟨str, prb, arg, off, some enoff⟩)
        | _, _, _, _ => Exec.stop

/-- The entry sizes of the sections; how many probes there are. -/
def checkEntsizes (ctx : Ctx) (secs : Secs) : Exec St ℕ := do
  let entsize ← dofsEntsize ctx secs.prb
  let size ← dofsSize ctx secs.prb
  if entsize = 0 ∨ size < entsize then fail "invalid entry size %x, max %lx" [.num entsize, .num size]
  else if entsize % 8 ≠ 0 then fail "misaligned entry size %x" [.num entsize]
  else
    let offEntsize ← dofsEntsize ctx secs.off
    if offEntsize ≠ 4 then fail "invalid entry size %x" [.num offEntsize]
    else
      let off ← dofsOffset ctx secs.off
      if off % 4 ≠ 0 then fail "misaligned section offset %lx" [.num off]
      else
        let argEntsize ← dofsEntsize ctx secs.arg
        if argEntsize ≠ 1 then fail "invalid entry size %x" [.num argEntsize]
        else pure (size / entsize)

/-- `validate_provider`.  It counts the probes with 32 bits. -/
def validateProvider (ctx : Ctx) (sec : ℕ) : Exec St Unit := do
  let (vers, prov, secs) ← providerSecs ctx sec
  let strtab ← dofsOffset ctx secs.str
  let strsize ← dofsSize ctx secs.str
  let name ← dofpvName ctx prov
  checkName ctx strtab strsize name 64 "invalid provider name offset: %u > %zi" "provider name too long: %s"
  let nprobes ← checkEntsizes ctx secs
  let arg ← dofsOffset ctx secs.arg
  checkProbes ctx secs vers strtab arg (nprobes % 2 ^ 32) 0

/-! ## Emission -/

/-- `uint32_cmp`: the difference has 32 bits, and it is taken for a signed number. -/
def uint32Cmp (a b : BitVec 32) : ℤ := (a - b).toInt

/-- `qsort` with `uint32_cmp`.  The values are put in another order, and in ascending order if the comparison is one
of numbers. -/
structure Qsort where
  sort : List (BitVec 32) → List (BitVec 32)
  perm : ∀ l, (sort l).Perm l
  sorted : ∀ l, (∀ a ∈ l, ∀ b ∈ l, uint32Cmp a b < 0 ↔ a < b) → (sort l).Pairwise (· ≤ ·)

/-- `dtrace_helper_probedesc_t`, with offsets from the start of the block. -/
structure ProbeDesc where
  func : ℕ
  name : ℕ
  base : BitVec 64
  offs : ℕ
  noffs : ℕ
  enoffs : ℕ
  nenoffs : ℕ
  args : ℕ
  nargc : ℕ
  xargc : ℕ
  ntypes : ℕ
  xtypes : ℕ

/-- An array of `n` 32-bit words. -/
def words (ctx : Ctx) : ℕ → ℕ → Exec St (List (BitVec 32))
  | 0, _ => pure []
  | n + 1, x => do
    let v ← num ctx x 4
    let vs ← words ctx n (x + 4)
    pure (BitVec.ofNat 32 v :: vs)

def wordBytes (ws : List (BitVec 32)) : Bytes := ws.flatMap fun w => Bytes.ofNat 4 w.toNat

/-- The first address that is not above the one before it, with its index. -/
def firstNotAbove (base : BitVec 64) : ℕ → List (BitVec 32) → Option (ℕ × BitVec 64 × BitVec 64)
  | i, a :: b :: ws =>
    if base + b.setWidth 64 ≤ base + a.setWidth 64 then some (i, base + b.setWidth 64, base + a.setWidth 64)
    else firstNotAbove base (i + 1) (b :: ws)
  | _, _ => none

/-- An array of offsets is sorted in place, and they must be unique.  Less than two of them are not touched. -/
def sortUnique (ctx : Ctx) (q : Qsort) (base : BitVec 64) (x n : ℕ) (nonUnique : String) : Exec St Bool := do
  if n < 2 then pure true
  else
    let ws ← words ctx n x
    write ctx x (wordBytes (q.sort ws))
    match firstNotAbove base 1 (q.sort ws) with
    | none => pure true
    | some (i, a, b) =>
      emit (.err .einval nonUnique [.num i, .num a.toInt, .num b.toInt])
      pure false

/-- `validate_probe` gives 0. -/
def validateProbe (ctx : Ctx) (q : Qsort) (dhpb : ProbeDesc) : Exec St Bool := do
  if ← sortUnique ctx q dhpb.base dhpb.offs dhpb.noffs "non-unique USDT offsets at %i: %li <= %li" then
    if ← sortUnique ctx q dhpb.base dhpb.enoffs dhpb.nenoffs
        "non-unique is-enabled USDT offsets at %i: %li <= %li" then
      if dhpb.noffs = 0 ∧ dhpb.nenoffs = 0 then
        emit (.err .einval "USDT probe with zero tracepoints" [])
        pure false
      else pure true
    else pure false
  else pure false

/-- `n` strings, with their final 0s; `strings_len` and `memcpy`. -/
def strings (ctx : Ctx) : ℕ → ℕ → Exec St Bytes
  | 0, _ => pure []
  | n + 1, x => do
    let str ← readStr ctx x
    let rest ← strings ctx n (x + (str.length + 1))
    pure (str ++ 0 :: rest)

/-- A loop over tracepoints, with `emit_tp`. -/
def emitTps (ctx : Ctx) (base : BitVec 64) (isEnabled : Bool) : ℕ → ℕ → Exec St Unit
  | 0, _ => pure ()
  | n + 1, x => do
    let off ← num ctx x 4
    emit (.tracepoint (base + BitVec.ofNat 64 off) isEnabled [])
    emitTps ctx base isEnabled n (x + 4)

def emitArgs (ctx : Ctx) (dhpb : ProbeDesc) : Exec St Unit := do
  if 0 < dhpb.nargc then
    let nargs ← strings ctx dhpb.nargc dhpb.ntypes
    emit (.argsNative nargs)
    if 0 < dhpb.xargc then
      let xargs ← strings ctx dhpb.xargc dhpb.xtypes
      emit (.argsXlat xargs)
      let argmap ← read ctx dhpb.args dhpb.xargc
      emit (.argsMap argmap)
    else pure ()
  else pure ()

def emitProbe (ctx : Ctx) (q : Qsort) (dhpb : ProbeDesc) : Exec St Unit := do
  if ← validateProbe ctx q dhpb then
    let func ← readStr ctx dhpb.func
    let name ← readStr ctx dhpb.name
    emit (.probe (dhpb.noffs + dhpb.nenoffs) dhpb.nargc dhpb.xargc ctx.mod func name)
    emitArgs ctx dhpb
    emitTps ctx dhpb.base false dhpb.noffs dhpb.offs
    emitTps ctx dhpb.base true dhpb.nenoffs dhpb.enoffs
  else pure ()

/-- Where the parts of a provider are: `strtab`, `off`, `arg` and `enoff`. -/
structure Parts where
  strtab : ℕ
  off : ℕ
  arg : ℕ
  enoff : Option ℕ

/-- `emit_provider` fills in the description of a probe. -/
def probeDesc (ctx : Ctx) (parts : Parts) (prb : ℕ) : Exec St ProbeDesc := do
  let func ← dofprFunc ctx prb
  let name ← dofprName ctx prb
  let base ← dofprAddr ctx prb
  let offidx ← dofprOffidx ctx prb
  let noffs ← dofprNoffs ctx prb
  let (enoffs, nenoffs) ←
    match parts.enoff with
    | some enoff => do
      let enoffidx ← dofprEnoffidx ctx prb
      let nenoffs ← dofprNenoffs ctx prb
      pure (enoff + 4 * enoffidx, nenoffs)
    | none => pure (0, 0)
  let argidx ← dofprArgidx ctx prb
  let nargc ← dofprNargc ctx prb
  let xargc ← dofprXargc ctx prb
  let nargv ← dofprNargv ctx prb
  let xargv ← dofprXargv ctx prb
  pure ⟨parts.strtab + func, parts.strtab + name, BitVec.ofNat 64 base, parts.off + 4 * offidx, noffs, enoffs,
    nenoffs, parts.arg + argidx, nargc, xargc, parts.strtab + nargv, parts.strtab + xargv⟩

/-- The description of the probe with an index, in the section with header `prb`. -/
def nextProbe (ctx : Ctx) (prb : ℕ) (parts : Parts) (i : ℕ) : Exec St ProbeDesc := do
  let off ← dofsOffset ctx prb
  let entsize ← dofsEntsize ctx prb
  probeDesc ctx parts (off + i * entsize % 2 ^ 32)

def emitProbes (ctx : Ctx) (q : Qsort) (prb : ℕ) (parts : Parts) : ℕ → ℕ → Exec St Unit
  | 0, _ => pure ()
  | n + 1, i => do
    let dhpb ← nextProbe ctx prb parts i
    emitProbe ctx q dhpb
    emitProbes ctx q prb parts n (i + 1)

/-- `emit_provider` up to its loop: the header of the probes, the parts and the number of probes. -/
def emitHeader (ctx : Ctx) (sec : ℕ) : Exec St (ℕ × Parts × ℕ) := do
  let prov ← dofsOffset ctx sec
  let strIdx ← dofpvStrtab ctx prov
  let str ← secAt ctx strIdx
  let prbIdx ← dofpvProbes ctx prov
  let prb ← secAt ctx prbIdx
  let argIdx ← dofpvPrargs ctx prov
  let arg ← secAt ctx argIdx
  let offIdx ← dofpvProffs ctx prov
  let off ← secAt ctx offIdx
  let strtab ← dofsOffset ctx str
  let off ← dofsOffset ctx off
  let arg ← dofsOffset ctx arg
  let vers ← version ctx
  -- is-enabled probes of version 2 are ignored
  let enoff ←
    if vers < 3 then pure none
    else do
      let prenoffs ← dofpvPrenoffs ctx prov
      if prenoffs = sectNone then pure none
      else
        let enoffSec ← secAt ctx prenoffs
        let enoff ← dofsOffset ctx enoffSec
        pure (some enoff)
  let nameIdx ← dofpvName ctx prov
  let name ← readStr ctx (strtab + nameIdx)
  let size ← dofsSize ctx prb
  let entsize ← dofsEntsize ctx prb
  emit (.provider (size / entsize) name)
  pure (prb, ⟨strtab, off, arg, enoff⟩, size / entsize)

/-- `emit_provider`.  The index of its loop has 32 bits: with more probes the loop does not end. -/
def emitProvider (ctx : Ctx) (q : Qsort) (sec : ℕ) : Exec St Unit := do
  let (prb, parts, nprobes) ← emitHeader ctx sec
  if nprobes < 2 ^ 32 then emitProbes ctx q prb parts nprobes 0 else Exec.stop

/-- One turn of the loop over the sections. -/
def parseSection (ctx : Ctx) (q : Qsort) (i : ℕ) : Exec St Unit := do
  let sec ← secAt ctx i
  let type ← dofsType ctx sec
  if type ≠ sectProvider then pure ()
  else
    validateProvider ctx sec
    emitProvider ctx q sec

/-- `usdt_parse_dof`: it returns 0 if there is a result. -/
def usdtParseDof (ctx : Ctx) (q : Qsort) : Exec St Unit := do
  let len ← loadsz ctx
  if len < 64 then fail "invalid load size %zi, smaller than header size %zi" [.num len, .num 64]
  else
    dofSlurp ctx
    secLoop ctx (parseSection ctx q) maxTurns 0

end DTrace.Usdt.Dof
