import Mathlib.Data.Int.ModEq

/-!
# The assembler

`dt_as.c`: the list of instructions the code generator has appended becomes an array.  A branch carries the number of a
label in its 16-bit `off` field until the assembler replaces it by a distance; a labelled no-op stands for a label and is
dropped.

* `Irlist` — instruction lists, as `dt_irlist_append` builds them;
* `dtAs` — the three passes: copy and place labels, resolve branches, record relocations;
* `Assembled` — what is expected of the result.
-/

namespace DTrace.As

/-! ## Instructions -/

/-- `struct bpf_insn`. -/
structure BpfInsn where
  code : BitVec 8
  dstReg : BitVec 4
  srcReg : BitVec 4
  off : BitVec 16
  imm : BitVec 32
  deriving DecidableEq, Repr

namespace BpfInsn

/-- `BPF_IS_NOP`: a jump (`BPF_JMP | BPF_JA`) by nothing. -/
def isNop (i : BpfInsn) : Bool := i.code == 5#8 && i.off == 0#16

/-- Of class `BPF_JMP`, and neither `BPF_CALL` nor `BPF_EXIT`. -/
def takesLabel (i : BpfInsn) : Bool :=
  i.code &&& 7#8 == 5#8 && i.code &&& 0xf0#8 != 0x80#8 && i.code &&& 0xf0#8 != 0x90#8

def isBranch (i : BpfInsn) : Bool := i.takesLabel && !i.isNop

end BpfInsn

/-- An instruction as it is emitted: one that the assembler leaves as it is, or a branch to a label. -/
inductive Asm
  | insn (i : BpfInsn) (h : i.isBranch = false)
  | branch (i : BpfInsn) (h : i.takesLabel = true) (lbl : ℕ)

namespace Asm

/-- `di_instr`: the number of the label goes to the 16 bits of `off`. -/
def instr : Asm → BpfInsn
  | insn i _ => i
  | branch i _ lbl => { i with off := BitVec.ofNat 16 lbl }

def target : Asm → Option ℕ
  | insn _ _ => none
  | branch _ _ lbl => some lbl

end Asm

def bpfJump (lbl : ℕ) : Asm := .branch ⟨5#8, 0, 0, 0, 0⟩ (by decide) lbl

def bpfNop : Asm := .insn ⟨5#8, 0, 0, 0, 0⟩ (by decide)

/-- `dt_ident_t`, as far as relocations read it: name, `di_flags`, `di_id` and the `id` of the symbol in `di_data`. -/
structure Ident where
  name : String
  flags : BitVec 32
  id : ℕ
  symId : ℕ
  deriving DecidableEq, Repr

/-- `dt_irnode_t`; label `0` is `DT_LBL_NONE`. -/
structure Irnode where
  label : ℕ
  asm : Asm
  diExtern : Option Ident

namespace Irnode

/-- The node takes a place in the instruction buffer. -/
def kept (n : Irnode) : Bool := n.label == 0 || !n.asm.instr.isNop

end Irnode

/-- `dt_irlist_t`: `dl_len` counts the nodes that are kept, and labels have been handed out before they are placed. -/
structure Irlist where
  list : List Irnode
  len : ℕ
  label : ℕ
  len_eq : len = (list.filter Irnode.kept).length
  label_lt : ∀ n ∈ list, n.label < label

def dtIrlistCreate : Irlist := ⟨[], 0, 1, rfl, by simp⟩

def dtIrlistAppend (dlp : Irlist) (dip : Irnode) (h : dip.label < dlp.label) : Irlist where
  list := dlp.list ++ [dip]
  len := if dip.label = 0 ∨ dip.asm.instr.isNop = false then dlp.len + 1 else dlp.len
  label := dlp.label
  len_eq := by
    rw [List.filter_append, List.length_append, dlp.len_eq]
    have hiff : dip.kept = true ↔ dip.label = 0 ∨ dip.asm.instr.isNop = false := by simp [Irnode.kept]
    by_cases hk : dip.kept = true
    · rw [if_pos (hiff.1 hk)]
      simp [hk]
    · rw [if_neg (mt hiff.2 hk)]
      simp [hk]
  label_lt := by
    exact List.forall_mem_append.2 ⟨dlp.label_lt, List.forall_mem_singleton.2 ‹_›⟩

def dtIrlistLabel (dlp : Irlist) : ℕ × Irlist :=
  (dlp.label, { dlp with label := dlp.label + 1, label_lt := fun n hn => (dlp.label_lt n hn).trans (Nat.lt_succ_self _) })

/-! ## Relocations -/

/-- `dtdo_breltab`, `dtdo_kreltab` and `dtdo_ureltab`. -/
inductive Tab
  | b
  | k
  | u
  deriving DecidableEq, Repr

/-- `R_BPF_64_ABS32`, `R_BPF_64_64` and `R_BPF_64_32`. -/
inductive RelType
  | abs32
  | r64
  | r32
  deriving DecidableEq, Repr

/-- `dof_relodesc_t`. -/
structure Relodesc where
  name : ℕ
  type : RelType
  offset : ℕ
  data : ℕ
  deriving DecidableEq, Repr

/-- `dt_linkmode`. -/
inductive LinkMode
  | kernel
  | dynamic
  | static
  deriving DecidableEq, Repr

/-- What the assembler reads besides the list: the linking policy, the flags `DTRACE_C_KNODEF` and `DTRACE_C_UNODEF`, and
where `dt_strtab_insert` puts a string, if it does. -/
structure AsEnv where
  linkmode : LinkMode
  knodef : Bool
  unodef : Bool
  stroff : String → Option ℕ

/-- `DT_IDFLG_USER`. -/
def idflgUser : BitVec 32 := 0x200

/-- `DT_IDFLG_BPF`. -/
def idflgBpf : BitVec 32 := 0x1000

def Ident.isBpf (idp : Ident) : Bool := idp.flags &&& idflgBpf != 0

/-- `kmask` and `kbits`. -/
def LinkMode.kernelBits : LinkMode → BitVec 32 × BitVec 32
  | .kernel => (0, -1)
  | .dynamic => (idflgUser, 0)
  | .static => (0, -1)

/-- `umask` and `ubits`. -/
def LinkMode.userBits : LinkMode → BitVec 32 × BitVec 32
  | .kernel => (idflgUser, idflgUser)
  | .dynamic => (idflgUser, idflgUser)
  | .static => (0, -1)

/-- The table an identifier has its relocation in. -/
def relTab (mode : LinkMode) (idp : Ident) : Option Tab :=
  if idp.isBpf then some .b
  else if idp.flags &&& mode.kernelBits.1 = mode.kernelBits.2 then some .k
  else if idp.flags &&& mode.userBits.1 = mode.userBits.2 then some .u
  else none

/-- The type of a relocation, by `code`: stores and moves of immediates, `lddw`, and calls of BPF functions. -/
def relType (i : BpfInsn) : Option RelType :=
  if i.code = 0x62#8 ∨ i.code = 0x7a#8 ∨ i.code = 0xb7#8 ∨ i.code = 0x07#8 then some .abs32
  else if i.code = 0x18#8 then some .r64
  else if i.code = 0x85#8 ∧ i.srcReg = 1#4 then some .r32
  else none

/-- What the first pass counts for an external reference; `none` is the error "unexpected asm relocation". -/
def countRel (mode : LinkMode) (idp : Ident) (i : BpfInsn) : Option (Option Tab) :=
  match relType i with
  | some .r64 => some (relTab mode idp)
  | some _ => if idp.isBpf then some (some .b) else none
  | none => none

/-! ## The passes -/

/-- What the first pass leaves: the buffer, `labels[]` and the counters. -/
structure Pass1 where
  buf : List BpfInsn
  labels : ℕ → ℕ
  count : Tab → ℕ

/-- The first pass, from the buffer index `i` on. -/
def pass1 (mode : LinkMode) : ℕ → (ℕ → ℕ) → List Irnode → Option Pass1
  | _, labels, [] => some ⟨[], labels, fun _ => 0⟩
  | i, labels, dip :: rest =>
    let labels := if dip.label ≠ 0 then Function.update labels dip.label i else labels
    let next := (pass1 mode (if dip.kept then i + 1 else i) labels rest).map fun p =>
      { p with buf := if dip.kept then dip.asm.instr :: p.buf else p.buf }
    match dip.diExtern with
    | none => next
    | some idp =>
      match countRel mode idp dip.asm.instr with
      | none => none
      | some none => next
      | some (some t) => next.map fun p => { p with count := Function.update p.count t (p.count t + 1) }

/-- The label number in a branch, as C reads it: sign-extended, and then unsigned. -/
def field (off : BitVec 16) : ℕ := (off.signExtend 32).toNat

/-- The second pass, from the buffer index `i` on; `none` is a failed assertion. -/
def pass2 (labels : ℕ → ℕ) (dlLabel : ℕ) : ℕ → List BpfInsn → Option (List BpfInsn)
  | _, [] => some []
  | i, instr :: rest =>
    if instr.isBranch then
      if field instr.off < dlLabel then
        (pass2 labels dlLabel (i + 1) rest).map fun buf =>
          { instr with off := BitVec.ofInt 16 (labels (field instr.off) - i - 1) } :: buf
      else none
    else (pass2 labels dlLabel (i + 1) rest).map fun buf => instr :: buf

/-- `nodef`: an undefined symbol is allowed in the table. -/
def AsEnv.nodef (env : AsEnv) : Tab → Bool
  | .b => true
  | .k => env.knodef
  | .u => env.unodef

/-- The entry for an external reference at the buffer index `i`; `none` is an error. -/
def relodesc (env : AsEnv) (i : ℕ) (instr : BpfInsn) (idp : Ident) (t : Tab) : Option Relodesc :=
  if env.nodef t then
    match relType instr, env.stroff idp.name with
    | some type, some soff => some ⟨soff, type, i * 8, if idp.isBpf then idp.id else idp.symId⟩
    | _, _ => none
  else none

/-- The third pass: the entries, each with the table it is appended to. -/
def pass3 (env : AsEnv) : ℕ → List Irnode → Option (List (Tab × Relodesc))
  | _, [] => some []
  | i, dip :: rest =>
    if dip.kept then
      match dip.diExtern.bind fun idp => (relTab env.linkmode idp).map fun t => (idp, t) with
      | none => pass3 env (i + 1) rest
      | some (idp, t) =>
        match relodesc env i dip.asm.instr idp t with
        | none => none
        | some rp => (pass3 env (i + 1) rest).map fun rps => (t, rp) :: rps
    else pass3 env i rest

/-- The part of `dtrace_difo_t` that comes from the instruction list. -/
structure Difo where
  buf : List BpfInsn
  reltab : Tab → List Relodesc

def tabEntries (rps : List (Tab × Relodesc)) (t : Tab) : List Relodesc :=
  (rps.filter fun p => p.1 = t).map Prod.snd

/-- `dt_as`, with failed assertions as errors. -/
def dtAs (env : AsEnv) (dlp : Irlist) : Option Difo :=
  match pass1 env.linkmode 0 (fun _ => 0) dlp.list with
  | none => none
  | some p =>
    if p.buf.length = dlp.len then
      match pass2 p.labels dlp.label 0 p.buf with
      | none => none
      | some buf =>
        if p.count .b + p.count .k + p.count .u > 0 then
          match pass3 env 0 dlp.list with
          | none => none
          | some rps =>
            if ∀ t ∈ [Tab.b, .k, .u], (tabEntries rps t).length = p.count t then some ⟨buf, tabEntries rps⟩ else none
        else some ⟨buf, fun _ => []⟩
    else none

/-! ## What is expected -/

namespace Irnode

def isLabel (n : Irnode) : Bool := n.label != 0 && n.asm.target.isNone && n.asm.instr.isNop

end Irnode

def code (ns : List Irnode) : List Irnode := ns.filter fun n => !n.isLabel

/-- The place of a label: the number of instructions before it. -/
def place (l : ℕ) : List Irnode → ℕ
  | [] => 0
  | n :: ns => if n.label = l then 0 else (if n.isLabel then 0 else 1) + place l ns

def placings (l : ℕ) (ns : List Irnode) : ℕ := ns.countP fun n => n.label = l

/-- Every label that is branched to is placed exactly once. -/
def WellLabelled (dlp : Irlist) : Prop :=
  ∀ n ∈ dlp.list, ∀ l, n.asm.target = some l → l ≠ 0 ∧ placings l dlp.list = 1

/-- The instruction at `i` is the node's, with the branch to its label resolved. -/
structure Resolved (ns : List Irnode) (i : ℕ) (n : Irnode) (b : BpfInsn) : Prop where
  same : { b with off := n.asm.instr.off } = n.asm.instr
  unchanged : n.asm.target = none → b = n.asm.instr
  target : ∀ l, n.asm.target = some l → (i : ℤ) + 1 + b.off.toInt = place l ns

/-- The result is the instructions in order, with branches to where their labels were placed, and relocations for the
instructions that have an external reference. -/
structure Assembled (dlp : Irlist) (dp : Difo) : Prop where
  length : dp.buf.length = (code dlp.list).length
  insns : ∀ i n b, (code dlp.list)[i]? = some n → dp.buf[i]? = some b → Resolved dlp.list i n b
  relocs : ∀ t, ∀ rp ∈ dp.reltab t, ∃ i n idp, (code dlp.list)[i]? = some n ∧ n.diExtern = some idp ∧ rp.offset = i * 8 ∧
    rp.data = if idp.isBpf then idp.id else idp.symId

end DTrace.As
