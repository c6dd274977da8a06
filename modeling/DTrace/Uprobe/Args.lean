import DTrace.Cg.Member
import DTrace.Lib.Scanf

/-!
# Argument specifications of USDT probes

The trampoline of a USDT probe fetches the arguments as the note of the tracepoint describes them: a list of operands
in assembler syntax, each with its size, negative for signed values.  `copy_args` reads the list by `sscanf` and emits
the code that puts the values into `argv` of the machine state.

* `asmRegs`, `getAsmReg` — the names of registers and where their values are;
* `scanSpec`, `scanOperand`, `scanMem`, `scanIndex` — reading a specification;
* `emitOperand` — the code for it; `copyArgs` — the loop;
* `copyLoop_ok` — what is accepted is a list of specifications and the code for each of them;
* `scanLoop_ranged` — the numbers that are read are within their types;
* `scanLoop_print` — a list that is written in assembler syntax is read back.
-/

namespace DTrace.Uprobe

open Lib Bpf Scanf Option List

/-! ## Registers -/

/-- The members of `struct pt_regs` that the names refer to. -/
inductive Member
  | ax
  | bx
  | cx
  | dx
  | si
  | di
  | sp
  | bp
  | r8
  | r9
  | r10
  | r11
  | r12
  | r13
  | r14
  | r15
  | ip
  deriving DecidableEq, Repr

/-- The words of `struct pt_regs`, as the type information of the kernel places them. -/
structure Layout where
  word : Member → ℕ
  inj : Function.Injective word
  lt : ∀ m, word m < 21

/-- `areg->off`. -/
def Layout.off (L : Layout) (m : Member) : ℤ := 8 * L.word m

/-- `asm_reg_t`. -/
structure AsmReg where
  name : String
  mname : Member
  mask : Word
  shift : ℕ
  deriving DecidableEq, Repr

def regR (n : String) (m : Member) : AsmReg := ⟨n, m, -1, 0⟩
def regE (n : String) (m : Member) : AsmReg := ⟨n, m, 0xffffffff, 0⟩
def regX (n : String) (m : Member) : AsmReg := ⟨n, m, 0xffff, 0⟩
def regL (n : String) (m : Member) : AsmReg := ⟨n, m, 0xff, 0⟩
def regH (n : String) (m : Member) : AsmReg := ⟨n, m, 0xff, 8⟩

def asmRegs : List AsmReg :=
  [regR "rax" .ax, regE "eax" .ax, regX "ax" .ax, regL "al" .ax, regH "ah" .ax,
    regR "rbx" .bx, regE "ebx" .bx, regX "bx" .bx, regL "bl" .bx, regH "bh" .bx,
    regR "rcx" .cx, regE "ecx" .cx, regX "cx" .cx, regL "cl" .cx, regH "ch" .cx,
    regR "rdx" .dx, regE "edx" .dx, regX "dx" .dx, regL "dl" .dx, regH "dh" .dx,
    regR "rsi" .si, regE "esi" .si, regX "si" .si, regL "sil" .si,
    regR "rdi" .di, regE "edi" .di, regX "di" .di, regL "dil" .di,
    regR "rsp" .sp, regE "esp" .sp, regX "sp" .sp, regL "spl" .sp,
    regR "rbp" .bp, regE "ebp" .bp, regX "bp" .bp, regL "bpl" .bp,
    regR "r8" .r8, regE "r8d" .r8, regX "r8w" .r8, regL "r8b" .r8,
    regR "r9" .r9, regE "r9d" .r9, regX "r9w" .r9, regL "r9b" .r9,
    regR "r10" .r10, regE "r10d" .r10, regX "r10w" .r10, regL "r10b" .r10,
    regR "r11" .r11, regE "r11d" .r11, regX "r11w" .r11, regL "r11b" .r11,
    regR "r12" .r12, regE "r12d" .r12, regX "r12w" .r12, regL "r12b" .r12,
    regR "r13" .r13, regE "r13d" .r13, regX "r13w" .r13, regL "r13b" .r13,
    regR "r14" .r14, regE "r14d" .r14, regX "r14w" .r14, regL "r14b" .r14,
    regR "r15" .r15, regE "r15d" .r15, regX "r15w" .r15, regL "r15b" .r15,
    regR "rip" .ip, regE "eip" .ip, regX "ip" .ip]

/-- `get_asm_reg`: the names are all different, so the hash table finds what the list has. -/
def getAsmReg (name : List Char) : Option AsmReg := asmRegs.find? fun r => r.name.toList = name

/-- The entries: whole registers, or the lowest 32, 16 or 8 bits, or the second byte. -/
inductive AsmReg.Shape : AsmReg → Prop
  | whole (n : String) (m : Member) : Shape ⟨n, m, -1, 0⟩
  | low (n : String) (m : Member) (k : ℕ) (hk : k = 1 ∨ k = 2 ∨ k = 4) :
    Shape ⟨n, m, BitVec.ofNat 64 (256 ^ k - 1), 0⟩
  | high (n : String) (m : Member) : Shape ⟨n, m, 0xff, 8⟩

variable {r : AsmReg}

lemma shape_of_mem (h : r ∈ asmRegs) : r.Shape := by
  have hall : ∀ r ∈ asmRegs,
      (r.shift = 0 ∧ r.mask ∈ [-1, 0xffffffff, 0xffff, 0xff]) ∨ (r.shift = 8 ∧ r.mask = 0xff) := by
    decide +kernel
  obtain ⟨n, m, mask, shift⟩ := r
  rcases hall _ h with ⟨hs, hm⟩ | ⟨hs, hm⟩
  · obtain rfl : shift = 0 := hs
    simp only [mem_cons, not_mem_nil, or_false] at hm
    rcases hm with rfl | rfl | rfl | rfl
    · exact .whole n m
    · exact .low n m 4 (by omega)
    · exact .low n m 2 (by omega)
    · exact .low n m 1 (by omega)
  · obtain rfl : shift = 8 := hs
    obtain rfl : mask = 0xff := hm
    exact .high n m

lemma shape_of_getAsmReg {name : List Char} (h : getAsmReg name = some r) : r.Shape :=
  shape_of_mem (mem_of_find?_eq_some h)

/-! ## Reading a specification -/

/-- The operands: in memory with a base register, in memory without one, in a register, and constants.  An index has a
scale unless it was left out. -/
inductive Operand
  | based (disp : ℤ) (base : List Char) (index : Option (List Char × Option ℤ))
  | indexed (disp : ℤ) (index : List Char) (scale : Option ℤ)
  | reg (name : List Char)
  | const (val : ℤ)
  deriving DecidableEq, Repr

/-- A size, negative for signed values, and an operand. -/
structure Spec where
  ssize : ℤ
  op : Operand
  deriving DecidableEq, Repr

/-- `") %n"`. -/
def closing : List Directive := [.lit ')', .space, .count]

/-- The index register, the scale if there is one, and what is behind the parenthesis.  The position stays where it is
if the parenthesis is missing. -/
def scanIndex (i : ℕ) (p : List Char) : Except String (List Char × Option ℤ × List Char) :=
  let r := sscanf p [.lit ',', .space, .percent, .noneOf [',', ')'], .space, .count]
  if r.ret ≤ 0 then .error s!"Missing index register in arg{i} spec"
  else
    let p := p.drop (r.len.getD 0)
    let q := sscanf p [.lit ',', .space, .int, .space, .lit ')', .space, .count]
    let c := sscanf p closing
    if q.ret ≤ 0 ∧ c.ret < 0 then .error s!"Missing scale or ) in arg{i} spec"
    else
      let len := if q.ret ≤ 0 then c.len.getD 0 else q.len.getD 0
      .ok (r.str.getD [], q.num, p.drop len)

/-- The registers of an operand in memory, from behind the opening parenthesis. -/
def scanMem (i : ℕ) (disp : ℤ) (p : List Char) : Except String (Operand × List Char) :=
  if p.head? = some ',' then do
    let (ireg, scale, p) ← scanIndex i p
    .ok (.indexed disp ireg scale, p)
  else
    let r := sscanf p [.percent, .noneOf [',', ')'], .space, .count]
    if r.ret ≤ 0 then .error s!"Missing base register in arg{i} spec"
    else
      let reg := r.str.getD []
      let p := p.drop (r.len.getD 0)
      if p.head? = some ')' then .ok (.based disp reg none, p.drop ((sscanf p closing).len.getD 0))
      else do
        let (ireg, scale, p) ← scanIndex i p
        .ok (.based disp reg (some (ireg, scale)), p)

/-- Displacement and opening parenthesis, if the operand is in memory. -/
def scanDeref (p : List Char) : Option (ℤ × List Char) :=
  let r := sscanf p [.int, .space, .lit '(', .space, .count]
  let c := sscanf p [.lit '(', .space, .count]
  let len := if r.ret = 1 then r.len else if c.ret = 0 then c.len else none
  len.map fun n => (r.num.getD 0, p.drop n)

def scanOperand (i : ℕ) (p : List Char) : Except String (Operand × List Char) :=
  match scanDeref p with
  | some (disp, p) => scanMem i disp p
  | none =>
    let r := sscanf p [.percent, .word, .space, .count]
    let v := sscanf p [.lit '$', .long, .space, .count]
    if 0 < r.ret then .ok (.reg (r.str.getD []), p.drop (r.len.getD 0))
    else if 0 < v.ret then .ok (.const (v.num.getD 0), p.drop (v.len.getD 0))
    else .error s!"Unknown format in arg{i} spec"

def scanSpec (i : ℕ) (p : List Char) : Except String (Spec × List Char) :=
  let r := sscanf p [.space, .int, .space, .lit '@', .space, .count]
  if r.ret ≤ 0 ∨ r.len = none then .error s!"Missing sign/size in arg{i} spec"
  else do
    let (op, p) ← scanOperand i (p.drop (r.len.getD 0))
    .ok (⟨r.num.getD 0, op⟩, p)

/-! ## Emitting code -/

/-- `bpf_probe_read_user`. -/
inductive Helper
  | probeReadUser
  deriving DecidableEq, Repr

abbrev ArgInsn := Insn Helper

/-- `DMST_ARG(i)`: `argv` follows 56 bytes and the 21 words of `regs`. -/
def dmstArg (i : ℕ) : ℤ := 224 + 8 * i

/-- `DMST_ARG(i)` in the 16 bits an instruction has for offsets. -/
def argOfs (i : ℕ) : ℤ := (BitVec.ofInt 16 (dmstArg i)).toInt

/-- `ssize` without its sign. -/
def absSize (ssize : ℤ) : ℤ := if ssize < 0 then int32 (-ssize) else ssize

/-- `64 - ssize * 8`. -/
def shiftOf (n : ℤ) : ℤ := int32 (64 - int32 (n * 8))

/-- Sign or zero extension of `%r0`. -/
def emitShifts (ssize : ℤ) : List ArgInsn :=
  let shift := shiftOf (absSize ssize)
  if shift = 0 then []
  else [.aluImm .lsh 0 (BitVec.ofInt 32 shift), .aluImm (if ssize < 0 then .arsh else .rsh) 0 (BitVec.ofInt 32 shift)]

/-- The index in `%r1`. -/
def emitIndex (L : Layout) (i : ℕ) (ireg : List Char) (scale : Option ℤ) : Except String (List ArgInsn) :=
  match getAsmReg ireg with
  | none =>
    let name := String.ofList ireg
    .error s!"Unknown index register {name} in arg{i} spec"
  | some areg =>
    let scale := scale.getD (-1)
    .ok (.load .dw 1 8 (L.off areg.mname) :: if 0 < scale then [.aluImm .mul 1 (BitVec.ofInt 32 scale)] else [])

def emitIndexOpt (L : Layout) (i : ℕ) : Option (List Char × Option ℤ) → Except String (List ArgInsn)
  | none => .ok []
  | some (ireg, scale) => emitIndex L i ireg scale

def emitDisp (r : Reg) (disp : ℤ) : List ArgInsn := if disp ≠ 0 then [.aluImm .add r (BitVec.ofInt 32 disp)] else []

/-- The value at the address in `%r0`, into `argv[i]` and then into `%r0`. -/
def emitRead (i : ℕ) (ssize : ℤ) : List ArgInsn :=
  [.movReg 1 7, .aluImm .add 1 (BitVec.ofInt 32 (dmstArg i)), .movImm 2 (BitVec.ofInt 32 (absSize ssize)),
    .movReg 3 0, .callFunc .probeReadUser, .load .dw 0 7 (argOfs i)]

def emitOperand (L : Layout) (i : ℕ) (ssize : ℤ) : Operand → Except String (List ArgInsn)
  | .based disp reg index => do
    let idx ← emitIndexOpt L i index
    match getAsmReg reg with
    | none =>
      let name := String.ofList reg
      .error s!"Unknown base register {name} in arg{i} spec"
    | some areg =>
      .ok (idx ++ ([.load .dw 0 8 (L.off areg.mname)] ++ ((if index.isSome then [.aluReg .add 0 1] else []) ++
        (emitDisp 0 disp ++ (emitRead i ssize ++ (emitShifts ssize ++ [.store .dw 7 (argOfs i) 0]))))))
  | .indexed disp ireg scale => do
    let idx ← emitIndex L i ireg scale
    .ok (idx ++ (emitDisp 1 disp ++ [.store .dw 7 (argOfs i) 1]))
  | .reg name =>
    match Cg.bpfLdstSize (absSize ssize).toNat with
    | none =>
      let n := absSize ssize
      .error s!"internal error -- cg cannot store size {n} when passed by value"
    | some sz =>
      match getAsmReg name with
      | none =>
        let name := String.ofList name
        .error s!"Unknown register {name} in arg{i} spec"
      | some areg =>
        .ok (.load sz 0 8 (L.off areg.mname) :: (emitShifts ssize ++ [.store .dw 7 (argOfs i) 0]))
  | .const val =>
    -- the comparison is unsigned, so that negative values take the first branch
    if 2 ^ 32 - 1 < (BitVec.ofInt 64 val).toNat then .ok [.lddw 0 (BitVec.ofInt 64 val), .store .dw 7 (argOfs i) 0]
    else .ok [.storeImm .dw 7 (argOfs i) (BitVec.ofInt 32 val)]

/-! ## The loop -/

/-- The loop of `copy_args`: `n` specifications from the `i`-th on. -/
def copyLoop (L : Layout) : ℕ → ℕ → List Char → Except String (List ArgInsn)
  | 0, _, _ => .ok []
  | n + 1, i, p => do
    let (sp, p) ← scanSpec i p
    let code ← emitOperand L i sp.ssize sp.op
    let rest ← copyLoop L n (i + 1) p
    .ok (code ++ rest)

def copyArgs (L : Layout) (sargc : ℕ) (sargv : List Char) : Except String (List ArgInsn) := copyLoop L sargc 0 sargv

def scanLoop : ℕ → ℕ → List Char → Except String (List Spec)
  | 0, _, _ => .ok []
  | n + 1, i, p => do
    let (sp, p) ← scanSpec i p
    let rest ← scanLoop n (i + 1) p
    .ok (sp :: rest)

def scanArgs (sargc : ℕ) (sargv : List Char) : Except String (List Spec) := scanLoop sargc 0 sargv

/-- `code` is the code for the specifications from the `i`-th on. -/
inductive Emits (L : Layout) : ℕ → List Spec → List ArgInsn → Prop
  | nil (i : ℕ) : Emits L i [] []
  | cons {i : ℕ} {sp : Spec} {specs : List Spec} {code rest : List ArgInsn}
      (hcode : emitOperand L i sp.ssize sp.op = .ok code) (hrest : Emits L (i + 1) specs rest) :
      Emits L i (sp :: specs) (code ++ rest)

lemma bind_ok {ε α β : Type} {x : Except ε α} {f : α → Except ε β} {b : β} (h : (x >>= f) = .ok b) :
    ∃ a, x = .ok a ∧ f a = .ok b := by
  rcases x with e | a
  · cases h
  · exact ⟨a, rfl, h⟩

variable {i : ℕ}

lemma copyLoop_ok {L : Layout} {n : ℕ} {p : List Char} {code : List ArgInsn} (h : copyLoop L n i p = .ok code) :
    ∃ specs, scanLoop n i p = .ok specs ∧ specs.length = n ∧ Emits L i specs code := by
  induction n generalizing i p code with
  | zero =>
    obtain rfl : [] = code := by simpa [copyLoop] using h
    exact ⟨[], rfl, rfl, .nil i⟩
  | succ n ih =>
    obtain ⟨⟨sp, q⟩, hspec, h⟩ := bind_ok h
    obtain ⟨c, hc, h⟩ := bind_ok h
    obtain ⟨rest, hrest, h⟩ := bind_ok h
    obtain rfl : c ++ rest = code := by simpa using h
    obtain ⟨specs, hscan, hlen, hemits⟩ := ih hrest
    refine ⟨sp :: specs, ?_, by simp [hlen], .cons hc hemits⟩
    rw [scanLoop, hspec]
    change (scanLoop n (i + 1) q >>= fun rest => Except.ok (sp :: rest)) = _
    rw [hscan]
    rfl

/-! ## Numbers are within their types -/

def Int32 (z : ℤ) : Prop := -2 ^ 31 ≤ z ∧ z < 2 ^ 31

def RangedIndex (index : List Char × Option ℤ) : Prop := ∀ k ∈ index.2, Int32 k

/-- The numbers of an operand are within the types they are read into. -/
def Operand.Ranged : Operand → Prop
  | .based disp _ index => Int32 disp ∧ ∀ x ∈ index, RangedIndex x
  | .indexed disp ireg scale => Int32 disp ∧ RangedIndex (ireg, scale)
  | .reg _ => True
  | .const val => -2 ^ 63 ≤ val ∧ val < 2 ^ 63

def Spec.Ranged (sp : Spec) : Prop := Int32 sp.ssize ∧ sp.op.Ranged

variable {op : Operand} {specs : List Spec} {disp : ℤ} {sp : Spec}

section

variable {p q : List Char} {fmt : List Directive}

lemma sscanf_int32 (h : .long ∉ fmt) : ∀ z ∈ (sscanf p fmt).num, Int32 z :=
  run_num (fun _ => int32_range) (fun hm => absurd hm h) nofun

lemma sscanf_getD (h : .long ∉ fmt) : Int32 ((sscanf p fmt).num.getD 0) := by
  rcases hn : (sscanf p fmt).num with _ | z
  · exact ⟨by decide, by decide⟩
  · exact sscanf_int32 h z hn

lemma scanIndex_ranged {x : List Char × Option ℤ × List Char} (h : scanIndex i p = .ok x) :
    RangedIndex (x.1, x.2.1) := by
  unfold scanIndex at h
  dsimp only at h
  split at h
  · cases h
  · split at h
    · cases h
    · cases h
      exact sscanf_int32 (by decide)

lemma scanMem_ranged (hdisp : Int32 disp) (h : scanMem i disp p = .ok (op, q)) : op.Ranged := by
  unfold scanMem at h
  dsimp only at h
  split at h
  · obtain ⟨x, hx, h⟩ := bind_ok h
    cases h
    exact ⟨hdisp, scanIndex_ranged hx⟩
  · split at h
    · cases h
    · split at h
      · cases h
        exact ⟨hdisp, nofun⟩
      · obtain ⟨x, hx, h⟩ := bind_ok h
        cases h
        refine ⟨hdisp, fun y hy => ?_⟩
        obtain rfl : (x.1, x.2.1) = y := Option.some.inj hy
        exact scanIndex_ranged hx

lemma scanOperand_ranged (h : scanOperand i p = .ok (op, q)) : op.Ranged := by
  unfold scanOperand at h
  split at h
  · next disp t hd =>
    refine scanMem_ranged ?_ h
    obtain ⟨n, -, heq⟩ := map_eq_some_iff.1 hd
    cases heq
    exact sscanf_getD (by decide)
  · dsimp only at h
    split at h
    · cases h
      trivial
    · split at h
      · cases h
        have hrange : ∀ z ∈ (sscanf p [.lit '$', .long, .space, .count]).num, -2 ^ 63 ≤ z ∧ z < 2 ^ 63 :=
          run_num (fun hm => absurd hm (by decide)) (fun _ => toLong_range) nofun
        rcases hn : (sscanf p [.lit '$', .long, .space, .count]).num with _ | z
        · exact ⟨by decide, by decide⟩
        · exact hrange z hn
      · cases h

lemma scanSpec_ranged (h : scanSpec i p = .ok (sp, q)) : sp.Ranged := by
  unfold scanSpec at h
  dsimp only at h
  split at h
  · cases h
  · obtain ⟨x, hx, h⟩ := bind_ok h
    cases h
    exact ⟨sscanf_getD (by decide), scanOperand_ranged hx⟩

lemma scanLoop_ranged {n : ℕ} (h : scanLoop n i p = .ok specs) : ∀ sp ∈ specs, sp.Ranged := by
  induction n generalizing i p specs with
  | zero =>
    obtain rfl : [] = specs := by simpa [scanLoop] using h
    exact nofun
  | succ n ih =>
    obtain ⟨x, hspec, h⟩ := bind_ok h
    obtain ⟨rest, hrest, h⟩ := bind_ok h
    obtain rfl : x.1 :: rest = specs := by simpa using h
    exact forall_mem_cons.2 ⟨scanSpec_ranged hspec, ih hrest⟩

end

/-! ## Lists in assembler syntax -/

def printIndex (x : List Char × Option ℤ) : List Char := ',' :: '%' :: (x.1 ++ x.2.elim [] fun k => ',' :: decimal k)

def printDisp (disp : ℤ) : List Char := if disp = 0 then [] else decimal disp

def Operand.print : Operand → List Char
  | .based disp base index => printDisp disp ++ '(' :: '%' :: (base ++ (index.elim [] printIndex ++ [')']))
  | .indexed disp ireg scale => printDisp disp ++ '(' :: (printIndex (ireg, scale) ++ [')'])
  | .reg name => '%' :: name
  | .const val => '$' :: decimal val

def Spec.print (sp : Spec) : List Char := decimal sp.ssize ++ '@' :: sp.op.print

/-- A list: the specifications with blanks between them. -/
def printSpecs : List Spec → List Char
  | [] => []
  | [sp] => sp.print
  | sp :: sp' :: specs => sp.print ++ ' ' :: printSpecs (sp' :: specs)

/-- A name of a register: no separators in it. -/
def IsName (n : List Char) : Prop := n ≠ [] ∧ ∀ c ∈ n, isSpace c = false ∧ c ∉ [',', ')']

def Operand.names : Operand → List (List Char)
  | .based _ base index => base :: index.toList.map Prod.fst
  | .indexed _ ireg _ => [ireg]
  | .reg name => [name]
  | .const _ => []

/-- Names are names, and numbers are within their types. -/
def Spec.Plain (sp : Spec) : Prop := sp.Ranged ∧ ∀ n ∈ sp.op.names, IsName n

section

variable {s t n : List Char} {c : Char}

lemma reads_closing (s : List Char) : Reads (')' :: s) closing .start (skip s) :=
  reads ((dropWhile_suffix _).trans (suffix_cons _ _)) rfl

lemma run_name {p : List Char} {r : Scan} (hn : IsName n) (hc : c ∈ [',', ')']) :
    run p [.noneOf [',', ')'], .space, .count] (n ++ c :: t) r =
      (r.setStr n).setLen (p.length - (c :: t).length) := by
  have hspace : ∀ c ∈ [',', ')'], isSpace c = false := forall_mem_cons.2 ⟨rfl, forall_mem_singleton.2 rfl⟩
  have hstops : Scanf.Stops (fun c => c ∉ [',', ')']) (c :: t) := stops_cons (decide_eq_false (not_not.2 hc))
  rw [run_noneOf hn.1 (fun x hx => (hn.2 x hx).2) hstops, run_space, skip_cons (hspace c hc), run_count, run_nil]

lemma scanIndex_print {index : List Char × Option ℤ} (hname : IsName index.1) (hscale : RangedIndex index)
    (s : List Char) : scanIndex i (printIndex index ++ ')' :: s) = .ok (index.1, index.2, skip s) := by
  have hr : ∀ c t, c ∈ [',', ')'] → Reads (',' :: '%' :: (index.1 ++ c :: t))
      [.lit ',', .space, .percent, .noneOf [',', ')'], .space, .count] (Scan.start.setStr index.1) (c :: t) :=
    fun c t hc => reads ⟨',' :: '%' :: index.1, rfl⟩ (run_name hname hc)
  match index with
  | (ireg, none) =>
    have hr := hr ')' s (by simp)
    have hc := reads_closing s
    rw [scanIndex, printIndex, elim_none, append_nil, cons_append, cons_append]
    simp only [hr.ret, hr.str, hr.drop, hc.ret]
    change Except.ok (ireg, none, drop ((sscanf (')' :: s) closing).len.getD 0) (')' :: s)) = _
    rw [hc.drop]
  | (ireg, some k) =>
    have hr := hr ',' (decimal k ++ ')' :: s) (by simp)
    have hq : Reads (',' :: (decimal k ++ ')' :: s)) [.lit ',', .space, .int, .space, .lit ')', .space, .count]
        (Scan.start.setNum k) (skip s) := by
      refine reads ((dropWhile_suffix _).trans ⟨',' :: (decimal k ++ [')']), by simp⟩) ?_
      rw [sscanf, run_lit_same, run_space, skip_decimal, run_int_decimal (hscale k rfl) (stops_cons rfl)]
      rfl
    rw [scanIndex, printIndex, elim_some, cons_append, cons_append, append_assoc, cons_append]
    simp only [hr.ret, hr.str, hr.drop, hq.ret, hq.num]
    change Except.ok (ireg, some k, drop ((sscanf (',' :: (decimal k ++ ')' :: s)) _).len.getD 0) _) = _
    rw [hq.drop]

lemma scanMem_print {base : List Char} {index : Option (List Char × Option ℤ)} (hbase : IsName base)
    (hname : ∀ x ∈ index, IsName x.1) (hscale : ∀ x ∈ index, RangedIndex x) (s : List Char) :
    scanMem i disp ('%' :: (base ++ (index.elim [] printIndex ++ ')' :: s))) = .ok (.based disp base index, skip s) := by
  have hr : ∀ c t, c ∈ [',', ')'] → Reads ('%' :: (base ++ c :: t)) [.percent, .noneOf [',', ')'], .space, .count]
      (Scan.start.setStr base) (c :: t) := fun c t hc => reads ⟨'%' :: base, rfl⟩ (run_name hbase hc)
  rw [scanMem, if_neg (by simp)]
  cases index with
  | none =>
    have hr := hr ')' s (by simp)
    simp only [elim_none, nil_append, hr.ret, hr.str, hr.drop]
    change Except.ok (_, drop ((sscanf (')' :: s) closing).len.getD 0) (')' :: s)) = _
    rw [(reads_closing s).drop]
    rfl
  | some x =>
    have hr : Reads ('%' :: (base ++ (printIndex x ++ ')' :: s))) _ _ (printIndex x ++ ')' :: s) := hr ',' _ (by simp)
    simp only [elim_some, hr.ret, hr.str, hr.drop, scanIndex_print (hname x rfl) (hscale x rfl) s]
    rfl

lemma scanDeref_print (hdisp : Int32 disp) (hc : isSpace c = false) (s : List Char) :
    scanDeref (printDisp disp ++ '(' :: c :: s) = some (disp, c :: s) := by
  rw [printDisp, scanDeref]
  split
  · next h0 =>
    have hp : sscanf ('(' :: c :: s) [.lit '(', .space, .count] = Scan.start.setLen 1 := by simp [sscanf, skip_cons hc]
    rw [nil_append, hp, h0]
    rfl
  · have hr : Reads (decimal disp ++ '(' :: c :: s) [.int, .space, .lit '(', .space, .count] (Scan.start.setNum disp)
        (c :: s) := by
      refine reads ⟨decimal disp ++ ['('], by simp⟩ ?_
      rw [sscanf, run_int_decimal hdisp (stops_cons rfl)]
      change run _ [.count] (skip (c :: s)) _ = _
      rw [skip_cons hc]
      rfl
    obtain ⟨n, hn, hdrop⟩ := hr.len
    simp only [hr.ret, hr.num, hn]
    change some (disp, drop n _) = _
    rw [hdrop]

lemma scanOperand_reg (hn : IsName n) (hs : Scanf.Stops (fun c => !isSpace c) s) :
    scanOperand i ('%' :: (n ++ s)) = .ok (.reg n, skip s) := by
  have hr : Reads ('%' :: (n ++ s)) [.percent, .word, .space, .count] (Scan.start.setStr n) (skip s) := by
    refine reads ((dropWhile_suffix _).trans ⟨'%' :: n, rfl⟩) ?_
    rw [sscanf, run_percent, run_word hn.1 (fun x hx => (hn.2 x hx).1) hs]
    rfl
  rw [scanOperand, show scanDeref ('%' :: (n ++ s)) = none from rfl]
  simp only [hr.ret, hr.str, hr.drop]
  rfl

lemma scanOperand_const {val : ℤ} (hval : -2 ^ 63 ≤ val ∧ val < 2 ^ 63) (hs : Scanf.Stops (fun c => !isSpace c) s) :
    scanOperand i ('$' :: (decimal val ++ s)) = .ok (.const val, skip s) := by
  have hdigit : Scanf.Stops Char.isDigit s := by
    rcases s with _ | ⟨c, s⟩
    · rfl
    · refine stops_cons (Bool.eq_false_iff.2 fun h => ?_)
      simp [Scanf.Stops, isSpace_of_isDigit h] at hs
  have hr : sscanf ('$' :: (decimal val ++ s)) [.percent, .word, .space, .count] = .start := rfl
  have hv : Reads ('$' :: (decimal val ++ s)) [.lit '$', .long, .space, .count] (Scan.start.setNum val) (skip s) := by
    refine reads ((dropWhile_suffix _).trans ⟨'$' :: decimal val, rfl⟩) ?_
    rw [sscanf, run_lit_same, run_long_decimal hval hdigit]
    rfl
  rw [scanOperand, show scanDeref ('$' :: (decimal val ++ s)) = none from rfl]
  simp only [hr, hv.ret, hv.num, hv.drop]
  rfl

lemma scanOperand_print (h : op.Ranged) (hn : ∀ n ∈ op.names, IsName n)
    (hs : Scanf.Stops (fun c => !isSpace c) s) : scanOperand i (op.print ++ s) = .ok (op, skip s) := by
  match op, h with
  | .based disp base index, ⟨hdisp, hindex⟩ =>
    rw [Operand.print, append_assoc, cons_append, cons_append, append_assoc, append_assoc, scanOperand,
      scanDeref_print hdisp rfl]
    refine scanMem_print (hn base (by simp [Operand.names])) (fun x hx => hn x.1 ?_) hindex s
    exact mem_cons_of_mem _ (mem_map_of_mem (mem_toList.2 hx))
  | .indexed disp ireg scale, ⟨hdisp, hscale⟩ =>
    rw [Operand.print, append_assoc, cons_append, append_assoc, printIndex, cons_append, scanOperand,
      scanDeref_print hdisp rfl]
    change scanMem i disp (printIndex (ireg, scale) ++ ')' :: s) = _
    rw [scanMem, if_pos (by rfl), scanIndex_print (hn ireg (by simp [Operand.names])) hscale s]
    rfl
  | .reg name, _ => exact scanOperand_reg (hn name (by simp [Operand.names])) hs
  | .const val, h => exact scanOperand_const h hs

lemma skip_print (op : Operand) (s : List Char) : skip (op.print ++ s) = op.print ++ s := by
  have hmem : ∀ disp t, skip (printDisp disp ++ '(' :: t) = printDisp disp ++ '(' :: t := by
    intro disp t
    unfold printDisp
    split
    · rfl
    · exact skip_decimal disp
  match op with
  | .based .. | .indexed .. => simp only [Operand.print, append_assoc, cons_append, hmem]
  | .reg _ | .const _ => rfl

lemma scanSpec_print (h : sp.Plain) (hs : Scanf.Stops (fun c => !isSpace c) s) :
    scanSpec i (sp.print ++ s) = .ok (sp, skip s) := by
  have hr : Reads (sp.print ++ s) [.space, .int, .space, .lit '@', .space, .count] (Scan.start.setNum sp.ssize)
      (sp.op.print ++ s) := by
    refine reads ⟨decimal sp.ssize ++ ['@'], by simp [Spec.print]⟩ ?_
    rw [sscanf, Spec.print, append_assoc, cons_append, run_space, skip_decimal,
      run_int_decimal h.1.1 (stops_cons rfl)]
    change run _ [.count] (skip (sp.op.print ++ s)) _ = _
    rw [skip_print]
    rfl
  obtain ⟨n, hn, hdrop⟩ := hr.len
  rw [scanSpec]
  simp only [hr.ret, hr.num, hn, getD_some, hdrop, scanOperand_print h.1.2 h.2 hs]
  rfl

lemma skip_printSpecs (specs : List Spec) : skip (printSpecs specs) = printSpecs specs := by
  match specs with
  | [] => rfl
  | [sp] => exact skip_decimal sp.ssize
  | sp :: sp' :: specs => simp only [printSpecs, Spec.print, append_assoc, skip_decimal]

/-- A list in assembler syntax is read back. -/
theorem scanLoop_print (h : ∀ sp ∈ specs, sp.Plain) : scanLoop specs.length i (printSpecs specs) = .ok specs := by
  fun_induction printSpecs specs generalizing i with
  | case1 => rfl
  | case2 sp =>
    have hsp := scanSpec_print (i := i) (s := []) (h sp (by simp)) rfl
    rw [append_nil] at hsp
    rw [length_singleton, scanLoop, hsp]
    rfl
  | case3 sp sp' specs ih =>
    have hsp := scanSpec_print (i := i) (s := ' ' :: printSpecs (sp' :: specs)) (h sp (by simp)) rfl
    have hskip : skip (' ' :: printSpecs (sp' :: specs)) = printSpecs (sp' :: specs) := skip_printSpecs _
    have hrest := @ih (i + 1) fun x hx => h x (mem_cons_of_mem _ hx)
    rw [hskip] at hsp
    rw [length_cons, scanLoop, hsp]
    change (scanLoop (sp' :: specs).length (i + 1) _ >>= fun rest => Except.ok (sp :: rest)) = _
    rw [hrest]
    rfl

end

/-- A constant, a register and an element of an array on the stack. -/
theorem scanLoop_five : scanLoop 3 0 "-4@$5 8@%rdi -4@-20(%rbp,%rax,4)".toList = .ok
    [⟨-4, .const 5⟩, ⟨8, .reg "rdi".toList⟩, ⟨-4, .based (-20) "rbp".toList (some ("rax".toList, some 4))⟩] := by
  have hplain : ∀ sp ∈ [Spec.mk (-4) (.const 5), ⟨8, .reg "rdi".toList⟩,
      ⟨-4, .based (-20) "rbp".toList (some ("rax".toList, some 4))⟩], sp.Plain := by
    simp [Spec.Plain, Spec.Ranged, Operand.Ranged, RangedIndex, Int32, Operand.names, IsName, isSpace]
  exact scanLoop_print hplain

end DTrace.Uprobe
