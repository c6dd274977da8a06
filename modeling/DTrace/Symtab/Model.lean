import DTrace.Lib.Qsort

/-!
# Symbol tables

The part of a symbol table that maps addresses to symbols.  Ranges are first symbols that are to be sorted, and then
pieces of address space that are each owned by one symbol.

* `dtSymrangeSortCmp` — the order of symbols;
* `dtSymtabFormRanges` — the sweep that cuts address space into pieces;
* `dtSymtabSort` — sorting, sizes for symbols that have none, and the sweep;
* `dtSymbolByAddr` — search.
-/

namespace DTrace.Symtab

open Lib

/-- `dt_symbol`.  Pointers to symbols are told apart, so a symbol has its own address in memory. -/
structure DtSymbol where
  ptr : ℕ
  name : Bytes
  addr : ℕ
  size : ℕ
  info : BitVec 8
  deriving DecidableEq, Repr

/-- `GELF_ST_TYPE` is `STT_NOTYPE`. -/
def DtSymbol.notype (sym : DtSymbol) : Bool := sym.info &&& 0xf = 0

/-- `GELF_ST_BIND` is `STB_WEAK`. -/
def DtSymbol.weak (sym : DtSymbol) : Bool := sym.info >>> 4 = 2

/-- The bytes of `cleanup_module`. -/
def cleanupModule : Bytes := [99, 108, 101, 97, 110, 117, 112, 95, 109, 111, 100, 117, 108, 101]

def DtSymbol.fin (sym : DtSymbol) : ℕ := (sym.addr + sym.size) % 2 ^ 64

/-- What comes after address and size: symbols with a type, those that are not weak, and names other than
`cleanup_module` come first. -/
def rankCmp : DtSymbol → DtSymbol → ℤ :=
  andThen (cmpOn DtSymbol.notype) (andThen (cmpOn DtSymbol.weak) (cmpOn fun sym => decide (sym.name = cleanupModule)))

def dtSymrangeSortCmp : DtSymbol → DtSymbol → ℤ :=
  andThen (cmpOn DtSymbol.addr) (andThen (fun lhs rhs => cmpOn DtSymbol.size rhs lhs)
    (andThen rankCmp fun lhs rhs => strcmp lhs.name rhs.name))

structure DtSymrange where
  lo : ℕ
  hi : ℕ
  sym : DtSymbol
  deriving DecidableEq, Repr

def DtSymbol.wins (sym2 sym : DtSymbol) : Bool :=
  sym.addr < sym2.addr ∨ (sym2.addr = sym.addr ∧ sym2.size < sym.size)

/-- Other candidates for a range that starts at `lo`: where it ends, and its symbol. -/
def candidates (lo : ℕ) : List DtSymbol → ℕ → DtSymbol → ℕ × DtSymbol
  | [], hi, sym => (hi, sym)
  | sym2 :: rest, hi, sym =>
    -- all others are too high as well
    if hi ≤ sym2.addr then (hi, sym)
    else if lo < sym2.addr then (sym2.addr, sym)
    else if sym2.fin ≤ lo then candidates lo rest hi sym
    else candidates lo rest (if sym2.fin < hi then sym2.fin else hi) (if sym2.wins sym then sym2 else sym)

/-- A new range, after those that there are, last one first; it can make the last one longer. -/
def addRange (lo hi : ℕ) (sym : DtSymbol) : List DtSymrange → List DtSymrange
  | r :: new => if r.hi = lo ∧ r.sym = sym then { r with hi } :: new else ⟨lo, hi, sym⟩ :: r :: new
  | [] => [⟨lo, hi, sym⟩]

/-- The loop of `dt_symtab_form_ranges`, with at most `fuel` turns. -/
def formLoop : ℕ → List DtSymbol → ℕ → List DtSymrange → Option (List DtSymrange)
  | _, [], _, new => some new.reverse
  | 0, _ :: _, _, _ => none
  | fuel + 1, sym :: rest, hi, new =>
    if sym.size = 0 then formLoop fuel rest hi new
    else if sym.addr < hi ∧ sym.fin ≤ hi then formLoop fuel rest hi new
    else
      let lo := if sym.addr < hi then hi else sym.addr
      let (hi, sym') := candidates lo rest sym.fin sym
      formLoop fuel (sym :: rest) hi (addRange lo hi sym' new)

def dtSymtabFormRanges (syms : List DtSymbol) : Option (List DtSymrange) := formLoop (3 * syms.length) syms 0 []

/-- Every symbol but the last gets a size that takes it to the next one. -/
def resize : List DtSymbol → List DtSymbol
  | sym :: nsym :: rest => { sym with size := (nsym.addr + (2 ^ 64 - sym.addr)) % 2 ^ 64 } :: resize (nsym :: rest)
  | syms => syms

/-- The symbols that `dt_symtab_sort` forms ranges of.  `dt_symbol_insert` leaves out those without a size. -/
def sortedSyms (q : Qsort dtSymrangeSortCmp) (syms : List DtSymbol) (flag : Bool) : List DtSymbol :=
  let sorted := q.sort (syms.filter fun sym => 0 < sym.size)
  if flag then resize sorted else sorted

def dtSymtabSort (q : Qsort dtSymrangeSortCmp) (syms : List DtSymbol) (flag : Bool) : Option (List DtSymrange) :=
  dtSymtabFormRanges (sortedSyms q syms flag)

def dtSymbolSearchCmp (addr : ℕ) (r : DtSymrange) : ℤ := if addr < r.lo then -1 else if r.hi ≤ addr then 1 else 0

/-- `dt_symbol_by_addr`, in a table that is sorted. -/
def dtSymbolByAddr (ranges : List DtSymrange) (addr : ℕ) : Option DtSymbol :=
  (bsearch (dtSymbolSearchCmp addr) ranges).map DtSymrange.sym

end DTrace.Symtab
