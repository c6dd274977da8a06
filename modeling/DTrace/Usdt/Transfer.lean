import Mathlib.Algebra.Ring.Nat
import Mathlib.Tactic.Common

/-!
# Transfer loops

A buffer is written to a descriptor, or read from one, with as many system calls as it takes.  The results of the
calls are given; a loop that runs out of them waits for the call it has made.

* `writeOneLoop`, `copyinLoop`, `writeChunkLoop` — the loops of the parser and of the stash;
* `hostWrite` — a sequence of transfers;
* `Transfer.Sound` — what a loop has to do;
* `transfers_iff` — it does that as long as no call fails.
-/

namespace DTrace.Usdt

open List BitVec

/-- What a system call gives: a count, or -1 with `EINTR` or with another `errno`. -/
inductive Outcome
  | count (n : ℕ)
  | eintr
  | error
  deriving DecidableEq

namespace Outcome

/-- The bytes that a call for `len` bytes has transferred. -/
def moved (len : ℕ) : Outcome → ℕ
  | count n => min n len
  | eintr => 0
  | error => 0

/-- The result of a call for `len` bytes, as a `size_t`. -/
def ret (len : BitVec 64) : Outcome → BitVec 64
  | count n => BitVec.ofNat 64 (min n len.toNat)
  | eintr => -1
  | error => -1

def isCount : Outcome → Bool
  | count _ => true
  | eintr => false
  | error => false

end Outcome

/-- A run of a loop: the calls, each with an offset and a length, the outcomes of those that have one, and what the
loop reports (nothing while it waits). -/
structure Transfer where
  calls : List (BitVec 64 × BitVec 64)
  used : List Outcome
  result : Option Bool
  deriving DecidableEq

namespace Transfer

def done (result : Bool) : Transfer := ⟨[], [], some result⟩

def waits (off len : BitVec 64) : Transfer := ⟨[(off, len)], [], none⟩

def step (off len : BitVec 64) (o : Outcome) (t : Transfer) : Transfer :=
  ⟨(off, len) :: t.calls, o :: t.used, t.result⟩

/-- The bytes that each call has transferred. -/
def moved (t : Transfer) : List ℕ := List.zipWith (fun call o => o.moved call.2.toNat) t.calls t.used

/-- A transfer of `size` bytes of which `start` have been transferred.  Each call is for all that is left, from where
the calls before it have ended; success is reported when nothing is left; failure is reported after an error, and only
after an error or, for a reader, at the end of the file. -/
structure SoundFrom (isRead : Bool) (start size : ℕ) (t : Transfer) : Prop where
  placed : ∀ k off len, t.calls[k]? = some (off, len) →
    off.toNat = start + (t.moved.take k).sum ∧ off.toNat + len.toNat = size
  whole : t.result = some true → start + t.moved.sum = size
  failed : .error ∈ t.used → t.result = some false
  gaveUp : t.result = some false → .error ∈ t.used ∨ isRead ∧ .count 0 ∈ t.used

abbrev Sound (isRead : Bool) (size : ℕ) (t : Transfer) : Prop := SoundFrom isRead 0 size t

end Transfer

/-- `usdt_parser_write_one`, from offset `i` on.  The result of `write` is kept in a `size_t`. -/
def writeOneLoop (size : BitVec 64) : List Outcome → BitVec 64 → Transfer
  | [], i => if i < size then .waits i (size - i) else .done true
  | o :: outs, i =>
    if i < size then
      let ret := o.ret (size - i)
      .step i (size - i) o (
        if ret < 0 then (if o = .eintr then writeOneLoop size outs i else .done false)
        else writeOneLoop size outs (i + ret))
    else .done true

/-- `usdt_copyin`, from offset `i` on. -/
def copyinLoop (size : BitVec 64) : List Outcome → BitVec 64 → Transfer
  | [], i => if i < size then .waits i (size - i) else .done true
  | o :: outs, i =>
    if i < size then
      let ret := o.ret (size - i)
      .step i (size - i) o (
        if ret < 0 then (if o = .eintr then copyinLoop size outs i else .done false)
        else if ret = 0 then .done false
        else copyinLoop size outs (i + ret))
    else .done true

/-- `write_chunk`, with the pointer and the size that are left. -/
def writeChunkLoop : List Outcome → BitVec 64 → BitVec 64 → Transfer
  | [], bufptr, size => if 0 < size then .waits bufptr size else .done true
  | o :: outs, bufptr, size =>
    if 0 < size then
      let len := o.ret size
      .step bufptr size o (
        if len < 0 ∧ o ≠ .eintr then .done false
        else writeChunkLoop outs (bufptr + len) (size - len))
    else .done true

/-- `usdt_parser_write_one`, `usdt_copyin` and `write_chunk`. -/
def usdtParserWriteOne (size : BitVec 64) (outs : List Outcome) : Transfer := writeOneLoop size outs 0
def usdtCopyin (size : BitVec 64) (outs : List Outcome) : Transfer := copyinLoop size outs 0
def writeChunk (size : BitVec 64) (outs : List Outcome) : Transfer := writeChunkLoop outs 0 size

/-- What `usdt_parser_write_one` returns: 0, or an `errno` value. -/
def errOf (ok : Bool) : ℤ := if ok then 0 else 5

/-- Transfers one after the other: the outcomes they have used, and what is reported.  An error is looked for below
0. -/
def hostWriteLoop : List (BitVec 64) → List Outcome → List Outcome × Option Bool
  | [], _ => ([], some true)
  | size :: sizes, outs =>
    let t := usdtParserWriteOne size outs
    match t.result with
    | none => (t.used, none)
    | some ok =>
      if errOf ok < 0 then (t.used, some false)
      else
        let (used, result) := hostWriteLoop sizes (outs.drop t.used.length)
        (t.used ++ used, result)

/-- `usdt_parser_host_write`: the helper, the number of blocks, and for each block its base, its size and the data. -/
def usdtParserHostWrite (blocks : List (BitVec 64)) (outs : List Outcome) : List Outcome × Option Bool :=
  hostWriteLoop (80 :: 8 :: blocks.flatMap fun size => [8, 8, size]) outs

/-- No call fails before everything has been transferred (or the file has ended). -/
def clean (isRead : Bool) : List Outcome → ℕ → Bool
  | [], _ => true
  | o :: outs, left => decide (left = 0) ||
    match o with
    | .count n => isRead && decide (n = 0) || clean isRead outs (left - n)
    | .eintr => false
    | .error => false

/-! ## Steps -/

variable {o : Outcome} {isRead : Bool}

namespace Transfer

section

variable {start size n : ℕ} {off len : BitVec 64} {t : Transfer}

lemma soundFrom_done_true : SoundFrom isRead start size (done true) ↔ start = size := by
  constructor
  · intro h
    simpa [done, moved] using h.whole rfl
  · rintro rfl
    exact ⟨by simp [done], by simp [done, moved], by simp [done], by simp [done]⟩

lemma soundFrom_waits : SoundFrom isRead start size (waits off len) ↔
    off.toNat = start ∧ off.toNat + len.toNat = size := by
  constructor
  · intro h
    simpa using h.placed 0 off len rfl
  · rintro ⟨hoff, hsize⟩
    refine ⟨?_, by simp [waits], by simp [waits], by simp [waits]⟩
    intro k off' len' hk
    cases k with
    | zero =>
      simp only [waits, getElem?_cons_zero, Option.some.injEq, Prod.mk.injEq] at hk
      obtain ⟨rfl, rfl⟩ := hk
      exact ⟨by simpa using hoff, hsize⟩
    | succ k => simp [waits] at hk

lemma soundFrom_step (hoff : off.toNat = start) (hlen : off.toNat + len.toNat = size) (hn : isRead = false ∨ n ≠ 0) :
    SoundFrom isRead start size (step off len (.count n) t) ↔ SoundFrom isRead (start + min n len.toNat) size t := by
  have hmoved : (step off len (.count n) t).moved = min n len.toNat :: t.moved := rfl
  have herror : .error ∈ (step off len (.count n) t).used ↔ .error ∈ t.used := by simp [step]
  have heof : isRead ∧ .count 0 ∈ (step off len (.count n) t).used ↔ isRead ∧ .count 0 ∈ t.used := by
    rcases hn with rfl | hn
    · simp
    · simp [step, Ne.symm hn]
  constructor
  · intro h
    refine ⟨fun k off' len' hk => ?_, fun hr => ?_, fun he => h.failed (herror.2 he), fun hr => ?_⟩
    · have hplaced := h.placed (k + 1) off' len' hk
      rwa [hmoved, take_succ_cons, sum_cons, ← Nat.add_assoc] at hplaced
    · have hwhole := h.whole hr
      rwa [hmoved, sum_cons, ← Nat.add_assoc] at hwhole
    · have hgave := h.gaveUp hr
      rwa [herror, heof] at hgave
  · intro h
    refine ⟨fun k off' len' hk => ?_, fun hr => ?_, fun he => h.failed (herror.1 he), fun hr => ?_⟩
    · cases k with
      | zero =>
        simp only [step, getElem?_cons_zero, Option.some.injEq, Prod.mk.injEq] at hk
        obtain ⟨rfl, rfl⟩ := hk
        exact ⟨by simpa using hoff, hlen⟩
      | succ k =>
        have hplaced := h.placed k off' len' hk
        rwa [hmoved, take_succ_cons, sum_cons, ← Nat.add_assoc]
    · rw [hmoved, sum_cons, ← Nat.add_assoc]
      exact h.whole hr
    · rw [herror, heof]
      exact h.gaveUp hr

lemma soundFrom_eof (hoff : off.toNat = start) (hlen : off.toNat + len.toNat = size) :
    SoundFrom true start size (step off len (.count 0) (done false)) := by
  refine ⟨fun k off' len' hk => ?_, by simp [step, done], by simp [step, done], by simp [step, done]⟩
  cases k with
  | zero =>
    simp only [step, getElem?_cons_zero, Option.some.injEq, Prod.mk.injEq] at hk
    obtain ⟨rfl, rfl⟩ := hk
    exact ⟨by simpa using hoff, hlen⟩
  | succ k => simp [step, done] at hk

lemma SoundFrom.head_eq {off' len' : BitVec 64} (h : SoundFrom isRead start size (step off len o t))
    (ho : o.isCount = false) (hhead : t.calls.head? = some (off', len')) : off'.toNat = start := by
  have hzero : o.moved len.toNat = 0 := by
    cases o with
    | count n => cases ho
    | eintr => rfl
    | error => rfl
  have hcall : (step off len o t).calls[1]? = some (off', len') := by
    rw [step, getElem?_cons_succ, ← head?_eq_getElem?, hhead]
  have hmoved : (step off len o t).moved.take 1 = [0] := by
    rw [← hzero]
    rfl
  simpa [hmoved] using (h.placed 1 off' len' hcall).1

lemma SoundFrom.not_done (h : SoundFrom isRead start size (step off len o (done true)))
    (ho : o.isCount = false) : start = size := by
  have hwhole := h.whole rfl
  cases o with
  | count n => cases ho
  | eintr | error => simpa [step, done, moved, Outcome.moved] using hwhole

end

end Transfer

variable {size : BitVec 64}

section

variable {i : BitVec 64}

lemma ret_count_toNat (n : ℕ) (len : BitVec 64) : (Outcome.ret len (.count n)).toNat = min n len.toNat := by
  rw [Outcome.ret, toNat_ofNat]
  exact Nat.mod_eq_of_lt (by omega)

lemma ret_of_failed {len : BitVec 64} (h : o.isCount = false) : o.ret len = -1 := by
  cases o with
  | count n => cases h
  | eintr => rfl
  | error => rfl

lemma lt_or_eq_size (h : i ≤ size) : i < size ∨ i = size := by
  by_cases hlt : i < size
  · exact .inl hlt
  · exact .inr (BitVec.le_antisymm h (BitVec.not_lt.1 hlt))

lemma sub_toNat (h : i ≤ size) : (size - i).toNat = size.toNat - i.toNat := toNat_sub_of_le h

lemma advance_toNat (h : i ≤ size) (n : ℕ) :
    (i + Outcome.ret (size - i) (.count n)).toNat = i.toNat + min n (size.toNat - i.toNat) := by
  have hlt := size.isLt
  have hle : i.toNat ≤ size.toNat := h
  rw [toNat_add, ret_count_toNat, sub_toNat h]
  exact Nat.mod_eq_of_lt (by omega)

end

namespace Transfer

/-- A loop that goes from offset to offset.  After a failure it is over, or its next call is for other bytes. -/
structure Loop (isRead : Bool) (size : BitVec 64) where
  run : List Outcome → BitVec 64 → Transfer
  ended : ∀ outs, run outs size = done true
  waiting : ∀ i < size, run [] i = waits i (size - i)
  eof : isRead = true → ∀ outs, ∀ i < size, run (.count 0 :: outs) i = step i (size - i) (.count 0) (done false)
  goesOn : ∀ n outs, ∀ i < size, isRead = false ∨ n ≠ 0 →
    run (.count n :: outs) i = step i (size - i) (.count n) (run outs (i + Outcome.ret (size - i) (.count n)))
  derails : ∀ o outs, ∀ i < size, o.isCount = false → ∃ t, run (o :: outs) i = step i (size - i) o t ∧
    (t = done true ∨ ∃ off len, t.calls.head? = some (off, len) ∧ off ≠ i)

/-- Such a loop is sound exactly if no call fails. -/
lemma Loop.sound_iff (loop : Loop isRead size) (outs : List Outcome) (i : BitVec 64) (hi : i ≤ size) :
    SoundFrom isRead i.toNat size.toNat (loop.run outs i) ↔ clean isRead outs (size.toNat - i.toNat) = true := by
  induction outs generalizing i with
  | nil =>
    rcases lt_or_eq_size hi with hlt | rfl
    · have hle : i.toNat ≤ size.toNat := hi
      rw [loop.waiting i hlt, soundFrom_waits, sub_toNat hi]
      exact iff_of_true ⟨rfl, by omega⟩ rfl
    · rw [loop.ended, soundFrom_done_true]
      exact iff_of_true rfl rfl
  | cons o outs ih =>
    rcases lt_or_eq_size hi with hlt | rfl
    swap
    · rw [loop.ended, soundFrom_done_true]
      exact iff_of_true rfl (by simp [clean])
    have hlt' : i.toNat < size.toNat := hlt
    have hpos : size.toNat - i.toNat ≠ 0 := by omega
    have hsize : i.toNat + (size - i).toNat = size.toNat := by
      rw [sub_toNat hi]
      omega
    cases hcount : o.isCount with
    | false =>
      have hclean : clean isRead (o :: outs) (size.toNat - i.toNat) = false := by
        cases o with
        | count n => cases hcount
        | eintr | error => simp [clean, hpos]
      rw [hclean]
      refine iff_of_false (fun h => ?_) (by simp)
      obtain ⟨t, hrun, rfl | ⟨_, _, hhead, hne⟩⟩ := loop.derails o outs i hlt hcount
      · rw [hrun] at h
        have := h.not_done hcount
        omega
      · rw [hrun] at h
        exact hne (eq_of_toNat_eq (h.head_eq hcount hhead))
    | true =>
      obtain ⟨n, rfl⟩ : ∃ n, o = .count n := by
        cases o with
        | count n => exact ⟨n, rfl⟩
        | eintr => cases hcount
        | error => cases hcount
      by_cases heof : isRead = true ∧ n = 0
      · obtain ⟨rfl, rfl⟩ := heof
        rw [loop.eof rfl outs i hlt]
        exact iff_of_true (soundFrom_eof rfl hsize) (by simp [clean])
      have hn : isRead = false ∨ n ≠ 0 := by
        cases isRead with
        | false => exact .inl rfl
        | true => exact .inr fun h => heof ⟨rfl, h⟩
      have hadv := advance_toNat hi n
      have hle : i + Outcome.ret (size - i) (.count n) ≤ size := by
        rw [le_def, hadv]
        omega
      have hclean : clean isRead (.count n :: outs) (size.toNat - i.toNat) =
          clean isRead outs (size.toNat - i.toNat - n) := by
        rcases hn with rfl | hn
        · simp [clean, hpos]
        · simp [clean, hpos, hn]
      rw [loop.goesOn n outs i hlt hn, soundFrom_step rfl hsize hn, sub_toNat hi, ← hadv, ih _ hle, hadv, hclean,
        show size.toNat - (i.toNat + min n (size.toNat - i.toNat)) = size.toNat - i.toNat - n by omega]

end Transfer

/-! ## The loops -/

section

variable {i : BitVec 64} {outs : List Outcome}

lemma writeOneLoop_done (h : ¬i < size) : writeOneLoop size outs i = .done true := by
  cases outs <;> rw [writeOneLoop, if_neg h]

lemma writeOneLoop_head (h : i < size) : (writeOneLoop size outs i).calls.head? = some (i, size - i) := by
  cases outs <;> (rw [writeOneLoop, if_pos h]; rfl)

variable {bufptr : BitVec 64}

lemma writeOneLoop_cons (h : i < size) : writeOneLoop size (o :: outs) i =
    .step i (size - i) o (writeOneLoop size outs (i + o.ret (size - i))) := by
  have hret : ¬o.ret (size - i) < 0 := by simp
  rw [writeOneLoop, if_pos h]
  simp only [if_neg hret]

lemma add_neg_one_ne (i : BitVec 64) : i + -1 ≠ i := by bv_omega

def writeOneTransfer (size : BitVec 64) : Transfer.Loop false size where
  run := writeOneLoop size
  ended outs := writeOneLoop_done (BitVec.lt_irrefl size)
  waiting i h := by rw [writeOneLoop, if_pos h]
  eof h := by cases h
  goesOn n outs i h _ := writeOneLoop_cons h
  derails o outs i h ho := by
    refine ⟨_, writeOneLoop_cons h, ?_⟩
    rw [ret_of_failed ho]
    by_cases hlt : i + -1 < size
    · exact .inr ⟨_, _, writeOneLoop_head hlt, add_neg_one_ne i⟩
    · exact .inl (writeOneLoop_done hlt)

lemma copyinLoop_done (h : ¬i < size) : copyinLoop size outs i = .done true := by
  cases outs <;> rw [copyinLoop, if_neg h]

lemma copyinLoop_head (h : i < size) : (copyinLoop size outs i).calls.head? = some (i, size - i) := by
  cases outs <;> (rw [copyinLoop, if_pos h]; rfl)

lemma copyinLoop_cons (h : i < size) (h0 : o.ret (size - i) ≠ 0) : copyinLoop size (o :: outs) i =
    .step i (size - i) o (copyinLoop size outs (i + o.ret (size - i))) := by
  have hret : ¬o.ret (size - i) < 0 := by simp
  rw [copyinLoop, if_pos h]
  simp only [if_neg hret, if_neg h0]

def copyinTransfer (size : BitVec 64) : Transfer.Loop true size where
  run := copyinLoop size
  ended outs := copyinLoop_done (BitVec.lt_irrefl size)
  waiting i h := by rw [copyinLoop, if_pos h]
  eof _ outs i h := by
    rw [copyinLoop, if_pos h]
    rfl
  goesOn n outs i h hn := by
    refine copyinLoop_cons h fun h0 => ?_
    have hlt : i.toNat < size.toNat := h
    have hzero := congrArg BitVec.toNat h0
    rw [ret_count_toNat, sub_toNat (BitVec.le_of_lt h)] at hzero
    rcases hn with hn | hn
    · cases hn
    · simp at hzero
      omega
  derails o outs i h ho := by
    have hret : o.ret (size - i) = -1 := ret_of_failed ho
    refine ⟨_, copyinLoop_cons h (by rw [hret]; decide), ?_⟩
    rw [hret]
    by_cases hlt : i + -1 < size
    · exact .inr ⟨_, _, copyinLoop_head hlt, add_neg_one_ne i⟩
    · exact .inl (copyinLoop_done hlt)

lemma writeChunkLoop_done : writeChunkLoop outs bufptr 0 = .done true := by
  cases outs <;> rw [writeChunkLoop, if_neg (BitVec.lt_irrefl 0)]

lemma writeChunkLoop_head (h : 0 < size) : (writeChunkLoop outs bufptr size).calls.head? = some (bufptr, size) := by
  cases outs <;> (rw [writeChunkLoop, if_pos h]; rfl)

lemma writeChunkLoop_cons (h : 0 < size) : writeChunkLoop (o :: outs) bufptr size =
    .step bufptr size o (writeChunkLoop outs (bufptr + o.ret size) (size - o.ret size)) := by
  have hret : ¬(o.ret size < 0 ∧ o ≠ .eintr) := by simp
  rw [writeChunkLoop, if_pos h]
  simp only [if_neg hret]

lemma sub_pos (h : i < size) : 0 < size - i := by
  have hlt : i.toNat < size.toNat := h
  rw [lt_def, sub_toNat (BitVec.le_of_lt h)]
  exact Nat.sub_pos_of_lt hlt

def writeChunkTransfer (size : BitVec 64) : Transfer.Loop false size where
  run outs i := writeChunkLoop outs i (size - i)
  ended outs := by
    rw [BitVec.sub_self]
    exact writeChunkLoop_done
  waiting i h := by rw [writeChunkLoop, if_pos (sub_pos h)]
  eof h := by cases h
  goesOn n outs i h _ := by
    rw [writeChunkLoop_cons (sub_pos h)]
    congr 2
    bv_omega
  derails o outs i h ho := by
    refine ⟨_, writeChunkLoop_cons (sub_pos h), ?_⟩
    rw [ret_of_failed ho]
    by_cases h0 : size - i - -1 = 0
    · rw [h0]
      exact .inl writeChunkLoop_done
    · exact .inr ⟨_, _, writeChunkLoop_head ((BitVec.pos_iff_ne_zero _).2 h0), add_neg_one_ne i⟩

lemma hostWriteLoop_result (sizes : List (BitVec 64)) (outs : List Outcome) :
    (hostWriteLoop sizes outs).2 ≠ some false := by
  induction sizes generalizing outs with
  | nil => simp [hostWriteLoop]
  | cons size sizes ih =>
    have herr : ∀ ok, ¬errOf ok < 0 := by decide
    rw [hostWriteLoop]
    split
    · simp
    · rw [if_neg (herr _)]
      exact ih _

/-- Each of the loops does what it has to do exactly if no call fails, and the sequence of transfers exactly if there is
no error to report. -/
theorem transfers_iff (size : BitVec 64) (blocks : List (BitVec 64)) (outs : List Outcome) :
    ((usdtParserWriteOne size outs).Sound false size.toNat ↔ clean false outs size.toNat = true) ∧
    ((usdtCopyin size outs).Sound true size.toNat ↔ clean true outs size.toNat = true) ∧
    ((writeChunk size outs).Sound false size.toNat ↔ clean false outs size.toNat = true) ∧
    ((.error ∈ (usdtParserHostWrite blocks outs).1 → (usdtParserHostWrite blocks outs).2 = some false) ↔
      .error ∉ (usdtParserHostWrite blocks outs).1) := by
  have hzero : 0 ≤ size := Nat.zero_le size.toNat
  refine ⟨?_, ?_, ?_, ?_⟩
  · exact (writeOneTransfer size).sound_iff outs 0 hzero
  · exact (copyinTransfer size).sound_iff outs 0 hzero
  · have hchunk := (writeChunkTransfer size).sound_iff outs 0 hzero
    rwa [show (writeChunkTransfer size).run outs 0 = writeChunk size outs by
      rw [writeChunk]; exact congrArg _ (BitVec.sub_zero size)] at hchunk
  · constructor
    · exact fun h hmem => hostWriteLoop_result _ _ (h hmem)
    · exact fun h hmem => absurd hmem h

/-- An error on the first call: nothing is transferred, and success is reported. -/
theorem error_ignored : (usdtParserWriteOne 2 [.error]).result = some true ∧
    ¬(usdtParserWriteOne 2 [.error]).Sound false 2 := by
  refine ⟨by decide, fun h => ?_⟩
  exact absurd (h.whole (by decide)) (by decide)

end

end DTrace.Usdt
