import DTrace.Consume.Probe

/-!
# Speculative tracing

Clauses run on several CPUs, call the functions of `bpf/speculation.c` and write records to the buffer of their CPU; the
consumer takes records from the front of any buffer.  Every call, every record that is written and every record that is
consumed is one step, in any order.

A call of `speculation()` that hands out an identifier has a number of its own, the mark that its entry in `specs` carries;
what is recorded, committed or discarded is remembered under that number.

* `Sys`, `Event`, `step` — the system;
* `Run` — runs whose steps all meet a condition;
* `Quiet` — no clause runs, and all buffers are empty.
-/

namespace DTrace.Spec

open Consume Function

/-- A clause while it runs, or what it has written: the speculation it writes for, and its actions so far. -/
structure Clause where
  specid : ℕ
  gen : Option ℕ
  acts : List (Act ℕ)

namespace Clause

def new : Clause := ⟨0, none, []⟩

def hasCommit (cl : Clause) : Bool := cl.acts.any fun
  | .commit _ _ => true
  | _ => false

def hasData (cl : Clause) : Bool := cl.acts.any fun a => !a.isFate

/-- `speculate()` follows none of `speculate()`, `commit()` and data-recording actions: `dt_cg_clsflags`. -/
def canSpeculate (cl : Clause) : Bool := cl.specid == 0 && !cl.hasCommit && !cl.hasData

/-- `commit()` does not follow data-recording actions. -/
def canCommit (cl : Clause) : Bool := !cl.hasData

/-- Data-recording actions do not follow `commit()`. -/
def canRecord (cl : Clause) : Bool := !cl.hasCommit

end Clause

/-- What a clause does, what a record of the `ERROR` probe does, and what the consumer does. -/
inductive Event (κ β : Type)
  | speculation
  | enter (c : κ)
  | speculate (c : κ) (id : ℕ)
  /-- `commit()` or `discard()`. -/
  | fate (c : κ) (commit : Bool) (id : ℕ)
  | data (c : κ)
  /-- The clause ends without a record: a fault, a predicate, or too much data for `specsize`. -/
  | abort (c : κ)
  | output (c : κ) (isBegin : Bool) (size : ℕ) (payload : β)
  | error (c : κ) (isBegin : Bool) (size : ℕ) (payload : β)
  | consume (c : κ)

/-- The system.  The lists below the line are not part of it: which records have been written speculatively, which
speculations are named by the `commit()`s and `discard()`s in records, and by those that have been consumed. -/
structure Sys (κ β : Type) where
  hdl : Hdl κ ℕ β
  clause : κ → Option Clause
  buf : κ → List (Record ℕ β)
  nextGen : ℕ
  failed : Bool
  -- history
  speculated : List (κ × Record ℕ β)
  commits : List ℕ
  discards : List ℕ
  consumed : List ℕ

/-- The speculation that an action commits. -/
def commitGen : Act ℕ → Option ℕ
  | .commit _ gen => gen
  | _ => none

def discardGen : Act ℕ → Option ℕ
  | .discard _ gen => gen
  | _ => none

/-- The speculation that an action commits or discards. -/
def fateGen : Act ℕ → Option ℕ
  | .commit _ gen => gen
  | .discard _ gen => gen
  | .data => none

def fateAct (commit : Bool) (id : ℕ) (gen : Option ℕ) : Act ℕ := if commit then .commit id gen else .discard id gen

section

variable {κ β : Type} [DecidableEq κ]

namespace Sys

def init : Sys κ β :=
  ⟨⟨fun _ => none, fun _ => none, [], 0, []⟩, fun _ => none, fun _ => [], 0, false, [], [], [], []⟩

def setClause (s : Sys κ β) (c : κ) (o : Option Clause) : Sys κ β := { s with clause := update s.clause c o }

def setSpecs (s : Sys κ β) (specs : Specs ℕ) : Sys κ β := { s with hdl := { s.hdl with specs := specs } }

def write (s : Sys κ β) (c : κ) (r : Record ℕ β) : Sys κ β := { s with buf := update s.buf c (s.buf c ++ [r]) }

end Sys

def Clause.record (cl : Clause) (isBegin : Bool) (size : ℕ) (payload : β) : Record ℕ β :=
  ⟨cl.specid, cl.gen, isBegin, false, size, cl.acts, payload⟩

namespace Sys

/-- `speculate()`; the clause ends if the speculation cannot be written to. -/
def speculate (s : Sys κ β) (c : κ) (id : ℕ) (cl : Clause) : Sys κ β :=
  if cl.canSpeculate then
    match dtSpeculationSpeculate s.hdl.specs id with
    | none => s.setClause c none
    | some (spec, specs) => (s.setSpecs specs).setClause c (some { cl with specid := id, gen := some spec.gen })
  else s

/-- `commit()` or `discard()`; the clause ends in a fault if there can be no such speculation. -/
def fate (nspec : ℕ) (s : Sys κ β) (c : κ) (commit : Bool) (id : ℕ) (cl : Clause) : Sys κ β :=
  if !commit || cl.canCommit then
    match dtSpeculationSetDrainable nspec s.hdl.specs id with
    | none => s.setClause c none
    | some specs =>
      let act := fateAct commit id ((s.hdl.specs id).map DtBpfSpecs.gen)
      (s.setSpecs specs).setClause c (some { cl with acts := cl.acts ++ [act] })
  else s

def data (s : Sys κ β) (c : κ) (cl : Clause) : Sys κ β :=
  if cl.canRecord then s.setClause c (some { cl with acts := cl.acts ++ [.data] }) else s

def output (s : Sys κ β) (c : κ) (cl : Clause) (r : Record ℕ β) : Sys κ β :=
  { (s.setClause c none).write c r with
    speculated := if cl.specid = 0 then s.speculated else s.speculated ++ [(c, r)]
    commits := s.commits ++ cl.acts.filterMap commitGen
    discards := s.discards ++ cl.acts.filterMap discardGen }

/-- The consumer takes a record from the front of a buffer. -/
def consume (specsize : ℕ) (s : Sys κ β) (c : κ) : Sys κ β :=
  match s.buf c with
  | [] => s
  | r :: rest =>
    match dtConsumeOneProbe specsize .off (fun _ => true) c s.hdl r with
    | .error _ => { s with failed := true }
    | .ok hdl =>
      { s with
        hdl := hdl
        buf := update s.buf c rest
        consumed := if r.isError || r.specid != 0 then s.consumed else s.consumed ++ r.acts.filterMap fateGen }

end Sys

def step (nspec specsize : ℕ) (s : Sys κ β) : Event κ β → Sys κ β
  | .speculation =>
    match dtSpeculation nspec s.nextGen s.hdl.specs with
    | .ok (_, specs) => { s.setSpecs specs with nextGen := s.nextGen + 1 }
    | .error _ => s
  | .enter c => if (s.clause c).isNone then s.setClause c (some .new) else s
  | .speculate c id => (s.clause c).elim s (s.speculate c id)
  | .fate c commit id => (s.clause c).elim s (s.fate nspec c commit id)
  | .data c => (s.clause c).elim s (s.data c)
  | .abort c => s.setClause c none
  | .output c isBegin size payload => (s.clause c).elim s fun cl => s.output c cl (cl.record isBegin size payload)
  | .error c isBegin size payload => s.write c ⟨0, none, isBegin, true, size, [], payload⟩
  | .consume c => s.consume specsize c

/-- A run whose steps all meet a condition. -/
inductive Run (nspec specsize : ℕ) (ok : Sys κ β → Event κ β → Prop) : Sys κ β → Prop
  | init : Run nspec specsize ok .init
  | step {s : Sys κ β} (h : Run nspec specsize ok s) (ev : Event κ β) (hok : ok s ev) :
      Run nspec specsize ok (step nspec specsize s ev)

/-- No clause runs, and all buffers have been consumed. -/
def Quiet (s : Sys κ β) : Prop := ∀ c, s.clause c = none ∧ s.buf c = []

end

end DTrace.Spec
