import DTrace.Lib.Bytes

/-!
# The parsed stream

What the parser of USDT definitions writes to the daemon: messages that announce how many others follow.

* `Msg` — the messages;
* `Due.step` — what still has to come, message by message;
* `WellFormed` — a stream in which everything comes as it is announced;
* `Runs`, `Stuck` — messages that take what is due to what is due, and messages that no stream can go on with.
-/

namespace DTrace.Usdt

open Lib List

/-- An argument of an error message. -/
inductive FmtArg
  | str (s : Bytes)
  | num (n : ℤ)
  deriving DecidableEq

/-- The `errno` values of the parser's errors. -/
inductive Errno
  | einval
  | eexist
  | enoent
  | enomem
  | e2big
  deriving DecidableEq

/-- `dof_parsed_t`; an error message is its format and what is put in. -/
inductive Msg
  | provider (nprobes : ℕ) (name : Bytes)
  | probe (ntp nargc xargc : ℕ) (mod fn prb : Bytes)
  | argsNative (args : Bytes)
  | argsXlat (args : Bytes)
  | argsMap (argmap : Bytes)
  | tracepoint (addr : BitVec 64) (isEnabled : Bool) (args : Bytes)
  | err (errNo : Errno) (fmt : String) (args : List FmtArg)
  deriving DecidableEq

/-- What has been announced and has not come yet: the probes of the provider, the arguments of the probe, its
tracepoints. -/
structure Due where
  probes : ℕ
  native : Bool
  xlat : Bool
  map : Bool
  tps : ℕ
  deriving DecidableEq

namespace Due

def none : Due := ⟨0, false, false, false, 0⟩

def step (d : Due) : Msg → Option Due
  | .provider nprobes _ => if d = none then some { none with probes := nprobes } else .none
  | .probe ntp nargc xargc _ _ _ =>
    if d = { none with probes := d.probes } ∧ 0 < d.probes ∧ 0 < ntp then
      some ⟨d.probes - 1, decide (0 < nargc), decide (0 < xargc), decide (0 < xargc), ntp⟩
    else .none
  | .argsNative _ => if d.native then some { d with native := false } else .none
  | .argsXlat _ => if !d.native && d.xlat then some { d with xlat := false } else .none
  | .argsMap _ => if !d.native && !d.xlat && d.map then some { d with map := false } else .none
  | .tracepoint _ _ _ =>
    if !d.native && !d.xlat && !d.map && decide (0 < d.tps) then some { d with tps := d.tps - 1 } else .none
  | .err _ _ _ => .none

end Due

/-- Every provider is followed by the probes it announces, every probe by the arguments and the tracepoints it
announces, one tracepoint at least, and there is no error. -/
def WellFormed (msgs : List Msg) : Prop := msgs.foldlM Due.step Due.none = some Due.none

def tracepoints (msgs : List Msg) : List (BitVec 64 × Bool × Bytes) :=
  msgs.filterMap fun
    | .tracepoint addr isEnabled args => some (addr, isEnabled, args)
    | _ => none

/-! ## Messages one after the other -/

/-- `n` probes are due, and nothing else. -/
def Due.atProbe (n : ℕ) : Due := { Due.none with probes := n }

/-- The messages take what is due to what is due. -/
def Runs (msgs : List Msg) (d d' : Due) : Prop := msgs.foldlM Due.step d = some d'

/-- Whatever is due, the messages do not follow. -/
def Stuck (msgs : List Msg) : Prop := ∀ d, msgs.foldlM Due.step d = none

section

variable {msgs msgs' : List Msg} {d d' d'' : Due}

lemma Runs.append (h : Runs msgs d d') (h' : Runs msgs' d' d'') : Runs (msgs ++ msgs') d d'' := by
  rw [Runs, foldlM_append, h]
  exact h'

lemma Stuck.append_right (h : Stuck msgs) (msgs' : List Msg) : Stuck (msgs ++ msgs') := by
  intro d
  rw [foldlM_append, h d]
  rfl

lemma Stuck.append_left (h : Stuck msgs) (msgs' : List Msg) : Stuck (msgs' ++ msgs) := by
  intro d
  rw [foldlM_append]
  cases foldlM Due.step d msgs' with
  | none => rfl
  | some d' => exact h d'

def Msg.IsTp : Msg → Prop
  | .tracepoint _ _ _ => True
  | _ => False

lemma runs_tracepoints (h : ∀ m ∈ msgs, m.IsTp) (n k : ℕ) :
    Runs msgs ⟨n, false, false, false, msgs.length + k⟩ ⟨n, false, false, false, k⟩ := by
  induction msgs with
  | nil =>
    rw [length_nil, Nat.zero_add]
    rfl
  | cons m msgs ih =>
    have hm := h m mem_cons_self
    cases m with
    | tracepoint addr isEnabled args =>
      have hstep : Due.step ⟨n, false, false, false, msgs.length + 1 + k⟩ (.tracepoint addr isEnabled args) =
          some ⟨n, false, false, false, msgs.length + k⟩ := by
        simp [Due.step]
      rw [Runs, length_cons, foldlM_cons, hstep]
      exact ih fun m hm => h m (mem_cons_of_mem _ hm)
    | _ => exact hm.elim

lemma stuck_xlat {ntp nargc xargc : ℕ} {mod fn prb : Bytes} {m : Msg} (hx : 0 < xargc) (hm : m.IsTp)
    (msgs : List Msg) : Stuck (.probe ntp nargc xargc mod fn prb :: m :: msgs) := by
  intro d
  rw [foldlM_cons]
  cases hstep : Due.step d (.probe ntp nargc xargc mod fn prb) with
  | none => rfl
  | some d' =>
    have hxlat : d'.xlat = true := by
      simp only [Due.step] at hstep
      split at hstep
      · cases hstep
        simpa using hx
      · cases hstep
    have htp : Due.step d' m = none := by
      cases m with
      | tracepoint addr isEnabled args => simp [Due.step, hxlat]
      | _ => exact hm.elim
    change foldlM Due.step d' (m :: msgs) = none
    rw [foldlM_cons, htp]
    rfl

lemma stuck_err (errNo : Errno) (fmt : String) (args : List FmtArg) : Stuck [.err errNo fmt args] := fun _ => rfl

end

end DTrace.Usdt
