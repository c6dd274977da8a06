import DTrace.Spec.Map

/-!
# Consuming one record

`dt_consume_one_probe` of `dt_consume.c`: what the consumer does with one record of a buffer, and the speculations it
holds back, hands out or throws away meanwhile.

The callbacks of the caller are `accepts`, which tells the records that the probe callback asks to skip from the others;
a record is handed to the caller if the probe callback takes it, and then its data is given to the record callback, action
by action.  A callback does not end the consumption.

* `dtConsumeOneProbe` — the function, for a record that comes from a buffer;
* `commitOneProbe` — the function, for a record of a speculation that is being committed;
* `drain` — the loop over the speculations that are being drained.
-/

namespace DTrace.Consume

open Spec Function

/-- The actions of a clause that the consumer tells apart: `commit()` and `discard()` of an identifier, and any other.
The mark of the speculation that the identifier named when the clause ran is not part of the record. -/
inductive Act (γ : Type)
  | data
  | commit (id : ℕ) (gen : Option γ)
  | discard (id : ℕ) (gen : Option γ)
  deriving DecidableEq

/-- A record, as a clause wrote it.  The mark of the speculation it was written under is not part of it. -/
structure Record (γ β : Type) where
  specid : ℕ
  gen : Option γ
  /-- The probe is `dtrace:::BEGIN`; for a record of the library's `ERROR` enabling, the probe that failed is. -/
  isBegin : Bool
  /-- `dtdd_uarg` is `DT_ECB_ERROR`. -/
  isError : Bool
  size : ℕ
  acts : List (Act γ)
  payload : β
  deriving DecidableEq

/-- `CONSUME_PEEK_START`, `CONSUME_PEEK`, `CONSUME_PEEK_FINISH`, or none of them. -/
inductive Peek
  | off
  | start
  | peek
  | finish
  deriving DecidableEq, Repr

/-- `dt_spec_buf_t`: the records held back for an identifier.  `written` and `draining` are the members of `dtsb_spec`;
`read` is `dtsd_read` of the entry in the list of buffers that are being drained. -/
structure SpecBuf (κ γ β : Type) where
  size : ℕ
  committing : Bool
  written : ℕ
  draining : Bool
  read : ℕ
  data : List (κ × Record γ β)

/-- What the consumer works on: the map `specs`, `dt_spec_bufs`, `dt_spec_bufs_draining`, `dt_specdrops`, and the records
handed to the caller so far. -/
structure Hdl (κ γ β : Type) where
  specs : Specs γ
  specBufs : ℕ → Option (SpecBuf κ γ β)
  draining : List ℕ
  specdrops : ℕ
  handed : List (κ × Record γ β)

/-- The consumer stops: the entry of the map cannot be read, or an assertion fails. -/
inductive Fault
  | lookup
  | assertion
  deriving DecidableEq, Repr

variable {κ γ β : Type}

/-- `commit()` or `discard()`. -/
def Act.isFate : Act γ → Bool
  | .data => false
  | _ => true

/-- A clause that only commits or discards is not data-recording. -/
def Record.dataRecording (r : Record γ β) : Bool := !(r.acts.any Act.isFate && r.acts.all Act.isFate)

/-! ## Holding back -/

/-- `dt_spec_buf_create`. -/
def SpecBuf.new : SpecBuf κ γ β := ⟨0, false, 0, false, 0, []⟩

/-- `dt_spec_buf_add_data`. -/
def SpecBuf.addData (b : SpecBuf κ γ β) (c : κ) (r : Record γ β) : SpecBuf κ γ β :=
  { b with size := b.size + r.size, data := b.data ++ [(c, r)] }

/-- `dt_spec_buf_data_destroy`, once the records have been counted. -/
def SpecBuf.dataDestroy (b : SpecBuf κ γ β) : SpecBuf κ γ β :=
  { b with size := 0, read := b.read + b.data.length, data := [] }

/-- The bytes held back for an identifier. -/
def Hdl.cursz (h : Hdl κ γ β) (id : ℕ) : ℕ := ((h.specBufs id).map SpecBuf.size).getD 0

/-- A speculative record is set aside, unless that has been done in an earlier pass. -/
def Hdl.hive (specsize : ℕ) (peekflags : Peek) (c : κ) (r : Record γ β) (h : Hdl κ γ β) : Hdl κ γ β :=
  if peekflags = .peek ∨ peekflags = .finish then h
  else if specsize < h.cursz r.specid + r.size then { h with specdrops := h.specdrops + 1 }
  else
    { h with
      specBufs := update h.specBufs r.specid (some (((h.specBufs r.specid).getD .new).addData c r)) }

/-! ## Draining -/

def Hdl.hand (h : Hdl κ γ β) (c : κ) (r : Record γ β) : Hdl κ γ β := { h with handed := h.handed ++ [(c, r)] }

/-- The first `commit()` or `discard()` of a speculation of which something is held back. -/
def Hdl.setDraining (h : Hdl κ γ β) (id : ℕ) (committing : Bool) : Except Fault (Hdl κ γ β) :=
  match h.specBufs id with
  | none => .ok h
  | some b =>
    if b.draining then .ok h
    else
      match h.specs id with
      | none => .error .lookup
      | some spec =>
        if spec.draining then
          .ok { h with
            specBufs := update h.specBufs id
              (some { b with committing := committing, written := spec.written, draining := spec.draining, read := 0 })
            draining := h.draining ++ [id] }
        else .error .assertion

/-- An action, in the scan for `commit()` and `discard()`. -/
def Hdl.act (h : Hdl κ γ β) : Act γ → Except Fault (Hdl κ γ β)
  | .data => .ok h
  | .commit id _ => h.setDraining id true
  | .discard id _ => h.setDraining id false

/-- `dt_consume_one_probe` for a record that was held back.  It must not commit or discard anything itself. -/
def commitOneProbe (accepts : Record γ β → Bool) (h : Hdl κ γ β) (x : κ × Record γ β) : Except Fault (Hdl κ γ β) :=
  if !accepts x.2 then .ok h
  else if x.2.isError then .ok (h.hand x.1 x.2)
  else if x.2.acts.any Act.isFate then .error .assertion
  else .ok (h.hand x.1 x.2)

def dtCommitOneSpec (accepts : Record γ β → Bool) (b : SpecBuf κ γ β) (h : Hdl κ γ β) : Except Fault (Hdl κ γ β) :=
  b.data.foldlM (commitOneProbe accepts) h

/-- One turn of the loop over the buffers that are being drained. -/
def drainOne (accepts : Record γ β → Bool) (h : Hdl κ γ β) (id : ℕ) : Except Fault (Hdl κ γ β) :=
  match h.specBufs id with
  | none => .ok h
  | some b => do
    let h ← if b.committing then dtCommitOneSpec accepts b h else .ok h
    if b.read + b.data.length < b.written then
      return { h with specBufs := update h.specBufs id (some b.dataDestroy) }
    else
      -- deleting the buffer deletes its identifier from the map, too
      return { h with
        specBufs := update h.specBufs id none
        specs := update h.specs id none
        draining := h.draining.erase id }

def drain (accepts : Record γ β → Bool) (h : Hdl κ γ β) : Except Fault (Hdl κ γ β) :=
  h.draining.foldlM (drainOne accepts) h

/-- `dt_consume_one_probe` for a record of a buffer. -/
def dtConsumeOneProbe (specsize : ℕ) (peekflags : Peek) (accepts : Record γ β → Bool) (c : κ) (h : Hdl κ γ β) (r : Record γ β) :
    Except Fault (Hdl κ γ β) :=
  if r.isError then .ok (if accepts r then h.hand c r else h)
  else if r.specid ≠ 0 then .ok (h.hive specsize peekflags c r)
  else if r.dataRecording && !accepts r then .ok h
  else do
    let h ← r.acts.foldlM Hdl.act h
    drain accepts (if r.dataRecording then h.hand c r else h)

end DTrace.Consume
