import DTrace.Lib.Bytes
import DTrace.Usdt.Transfer

/-!
# The pipe between parser and host

Messages begin with their size.  The parser writes them one after the other, and the host reads them back, whatever
pieces the pipe gives them in.

* `Frame` — a message;
* `Transfer.data` — what a transfer has written;
* `usdtParserHostRead` — the host reads one message;
* `framing` — it gets the messages that have been written.
-/

namespace DTrace.Usdt

open Lib List

/-- A message: its first 8 bytes are its size. -/
structure Frame where
  bytes : Bytes
  long : 8 ≤ bytes.length
  size : Bytes.val (bytes.take 8) = bytes.length

/-- The bytes of a buffer that a transfer has written. -/
def Transfer.data (buf : Bytes) (t : Transfer) : Bytes :=
  (List.zipWith (fun call o => (buf.drop call.1.toNat).take (o.moved call.2.toNat)) t.calls t.used).flatten

/-- A message is written with the given results of `write`. -/
def Frame.written (m : Frame) (outs : List Outcome) : Transfer :=
  usdtParserWriteOne (BitVec.ofNat 64 m.bytes.length) outs

/-- What is in the pipe once messages have been written to it. -/
def piped (msgs : List (Frame × List Outcome)) : Bytes := msgs.flatMap fun m => (m.1.written m.2).data m.1.bytes

/-- The reading end of a pipe: what is to be read, and how many reads there have been. -/
structure Pipe where
  rest : Bytes
  reads : ℕ

/-- `read` for `n` bytes.  It gives as many as it likes, but not none, unless there are none. -/
def Pipe.read (pieces : ℕ → ℕ) (n : ℕ) (p : Pipe) : Bytes × Pipe :=
  let k := max 1 (min (pieces p.reads) n)
  (p.rest.take k, ⟨p.rest.drop k, p.reads + 1⟩)

/-- The loop of `usdt_parser_host_read`.  `sizeof(dof_parsed_t)` is 48. -/
def hostReadLoop (pieces : ℕ → ℕ) : ℕ → Bytes → ℕ → ℕ → Pipe → Option (Bytes × Pipe)
  | 0, _, _, _, _ => none
  | fuel + 1, reply, i, sz, p =>
    if i < sz then
      let (data, p) := p.read pieces (sz - i)
      let ret := data.length
      if ret = 0 then none
      else
        let reply := reply.take i ++ (data ++ reply.drop (i + ret))
        let size := Bytes.val (reply.take 8)
        -- the size is known now
        let sz := if i < 8 ∧ 8 ≤ i + ret then size else sz
        let reply := if 48 < sz then reply.take (i + ret) ++ List.replicate (size - (i + ret)) 0 else reply
        hostReadLoop pieces fuel reply (i + ret) sz p
    else some (reply, p)

def usdtParserHostRead (pieces : ℕ → ℕ) (p : Pipe) : Option (Bytes × Pipe) :=
  hostReadLoop pieces (p.rest.length + 1) (List.replicate 48 0) 0 8 p

/-- Messages are read one after the other; of a reply the bytes that its size says. -/
def hostReads (pieces : ℕ → ℕ) : ℕ → Pipe → Option (List Bytes × Pipe)
  | 0, p => some ([], p)
  | n + 1, p => do
    let (reply, p) ← usdtParserHostRead pieces p
    let (msgs, p) ← hostReads pieces n p
    some (reply.take (Bytes.val (reply.take 8)) :: msgs, p)

/-! ## Writing -/

section

variable {size i : BitVec 64} {buf : Bytes} {outs : List Outcome}

lemma data_writeOneLoop (hbuf : buf.length = size.toNat) (hi : i ≤ size) (houts : ∀ o ∈ outs, o.isCount = true)
    (hdone : (writeOneLoop size outs i).result = some true) :
    (writeOneLoop size outs i).data buf = buf.drop i.toNat := by
  induction outs generalizing i with
  | nil =>
    rcases lt_or_eq_size hi with hlt | rfl
    · rw [writeOneLoop, if_pos hlt] at hdone
      cases hdone
    · rw [writeOneLoop_done (BitVec.lt_irrefl _), ← hbuf, drop_length]
      rfl
  | cons o outs ih =>
    rcases lt_or_eq_size hi with hlt | rfl
    swap
    · rw [writeOneLoop_done (BitVec.lt_irrefl _), ← hbuf, drop_length]
      rfl
    obtain ⟨n, rfl⟩ : ∃ n, o = .count n := by
      cases o with
      | count n => exact ⟨n, rfl⟩
      | eintr | error => cases houts _ mem_cons_self
    have hadv := advance_toNat hi n
    have hin : i.toNat ≤ size.toNat := hi
    have hle : i + Outcome.ret (size - i) (.count n) ≤ size := by
      rw [BitVec.le_def, hadv]
      omega
    rw [writeOneLoop_cons hlt] at hdone ⊢
    have hrest := ih hle (fun o ho => houts o (mem_cons_of_mem _ ho)) hdone
    change (buf.drop i.toNat).take (min n (size - i).toNat) ++ (writeOneLoop size outs _).data buf = _
    rw [hrest, hadv, sub_toNat hi, ← drop_drop, take_append_drop]

end

lemma Frame.data_written {m : Frame} {outs : List Outcome} (houts : ∀ o ∈ outs, o.isCount = true)
    (hdone : (m.written outs).result = some true) : (m.written outs).data m.bytes = m.bytes := by
  have hlt : m.bytes.length < 2 ^ 64 := by
    have := Bytes.val_lt (m.bytes.take 8)
    rw [m.size, length_take, Nat.min_eq_left m.long] at this
    exact this.trans_le (by norm_num)
  have hlen : m.bytes.length = (BitVec.ofNat 64 m.bytes.length).toNat := by
    rw [BitVec.toNat_ofNat, Nat.mod_eq_of_lt hlt]
  exact data_writeOneLoop hlen (Nat.zero_le _) houts hdone

/-! ## Reading -/

section

variable {m : Frame} {reply : Bytes} {i sz : ℕ} (pieces : ℕ → ℕ) (rest : Bytes)

/-- What the loop keeps: the first `i` bytes of the message have been read, the rest of it is in the pipe, and the
size is known once it has been read. -/
structure Reading (m : Frame) (reply : Bytes) (i sz : ℕ) : Prop where
  le : i ≤ m.bytes.length
  got : reply.take i = m.bytes.take i
  room : i ≤ reply.length
  size : sz = if i < 8 then 8 else m.bytes.length

lemma take_stored {reply bytes : Bytes} {i k : ℕ} (hgot : reply.take i = bytes.take i) (hroom : i ≤ reply.length)
    (hk : i + k ≤ bytes.length) :
    (reply.take i ++ ((bytes.drop i).take k ++ reply.drop (i + k))).take (i + k) = bytes.take (i + k) := by
  have hlen : (reply.take i ++ (bytes.drop i).take k).length = i + k := by
    simp only [length_append, length_take, length_drop]
    omega
  rw [← append_assoc, take_append_of_le_length (by omega), take_of_length_le (by omega), hgot,
    ← take_add]

lemma hostReadLoop_turn (h : Reading m reply i sz) (hlt : i < sz) (reads fuel : ℕ) :
    ∃ reply' k sz', 0 < k ∧ Reading m reply' (i + k) sz' ∧
      hostReadLoop pieces (fuel + 1) reply i sz ⟨m.bytes.drop i ++ rest, reads⟩ =
        hostReadLoop pieces fuel reply' (i + k) sz' ⟨m.bytes.drop (i + k) ++ rest, reads + 1⟩ := by
  have hlong := m.long
  have hsz := h.size
  set k := max 1 (min (pieces reads) (sz - i)) with hk
  have hik : i + k ≤ m.bytes.length := by
    split at hsz <;> omega
  -- the piece is a piece of the message
  have hread : Pipe.read pieces (sz - i) ⟨m.bytes.drop i ++ rest, reads⟩ =
      ((m.bytes.drop i).take k, ⟨m.bytes.drop (i + k) ++ rest, reads + 1⟩) := by
    have hle : k ≤ (m.bytes.drop i).length := by
      rw [length_drop]
      omega
    rw [Pipe.read, ← hk]
    rw [take_append_of_le_length hle, drop_append_of_le_length hle, drop_drop]
  have hdata : ((m.bytes.drop i).take k).length = k := by
    rw [length_take, length_drop]
    omega
  set reply1 := reply.take i ++ ((m.bytes.drop i).take k ++ reply.drop (i + k)) with hreply1
  have hgot1 : reply1.take (i + k) = m.bytes.take (i + k) := take_stored h.got h.room hik
  have hroom1 : i + k ≤ reply1.length := by
    have hlen := congrArg length hgot1
    rw [length_take, length_take, Nat.min_eq_left hik] at hlen
    omega
  have hsize : 8 ≤ i + k → Bytes.val (reply1.take 8) = m.bytes.length := by
    intro h8
    have htake : ∀ bs : Bytes, bs.take 8 = (bs.take (i + k)).take 8 := fun bs => by
      rw [take_take, Nat.min_eq_left h8]
    rw [← m.size, htake reply1, hgot1, ← htake]
  set sz' := if i < 8 ∧ 8 ≤ i + k then Bytes.val (reply1.take 8) else sz with hsz'
  have hsz1 : sz' = if i + k < 8 then 8 else m.bytes.length := by
    by_cases h8 : 8 ≤ i + k
    · rw [if_neg (by omega), hsz', hsize h8]
      by_cases hi8 : i < 8
      · rw [if_pos ⟨hi8, h8⟩]
      · rw [if_neg fun hc => hi8 hc.1, hsz, if_neg hi8]
    · rw [if_pos (by omega), hsz', if_neg fun hc => h8 hc.2, hsz, if_pos (by omega)]
  refine ⟨if 48 < sz' then reply1.take (i + k) ++ replicate (Bytes.val (reply1.take 8) - (i + k)) 0 else reply1,
    k, sz', by omega, ⟨hik, ?_, ?_, hsz1⟩, ?_⟩
  · split
    · rw [take_append_of_le_length (by rw [length_take]; omega), take_take, Nat.min_self, hgot1]
    · exact hgot1
  · split
    · rw [length_append, length_take]
      omega
    · exact hroom1
  · rw [hostReadLoop, if_pos hlt, hread]
    dsimp only
    rw [hdata, if_neg (by omega)]

lemma hostReadLoop_rest {reads fuel : ℕ} (h : Reading m reply i sz) (hfuel : m.bytes.length - i < fuel) :
    ∃ reply' reads', reply'.take m.bytes.length = m.bytes ∧
      hostReadLoop pieces fuel reply i sz ⟨m.bytes.drop i ++ rest, reads⟩ = some (reply', ⟨rest, reads'⟩) := by
  induction fuel generalizing reply i sz reads with
  | zero => omega
  | succ fuel ih =>
    by_cases hlt : i < sz
    · obtain ⟨_, k, _, hk, h', hturn⟩ := hostReadLoop_turn pieces rest h hlt reads fuel
      rw [hturn]
      exact ih h' (by have := h'.le; omega)
    · have hlong := m.long
      have hall : i = m.bytes.length := by
        have hle := h.le
        have hsz := h.size
        split at hsz <;> omega
      refine ⟨reply, reads, ?_, ?_⟩
      · rw [← hall, h.got, hall, take_length]
      · rw [hostReadLoop, if_neg hlt, hall, drop_length, nil_append]

end

/-- The host reads the message at the front of the pipe, and nothing behind it. -/
lemma usdtParserHostRead_frame (pieces : ℕ → ℕ) (m : Frame) (rest : Bytes) (reads : ℕ) :
    ∃ reply reads', reply.take m.bytes.length = m.bytes ∧
      usdtParserHostRead pieces ⟨m.bytes ++ rest, reads⟩ = some (reply, ⟨rest, reads'⟩) := by
  have hstart : Reading m (replicate 48 0) 0 8 := ⟨Nat.zero_le _, rfl, Nat.zero_le _, rfl⟩
  refine hostReadLoop_rest pieces rest hstart ?_
  rw [length_append]
  omega

/-- Whatever the pieces are in which messages are written and read, the host gets the messages that have been written,
and each call takes its own message out of the pipe. -/
theorem framing (pieces : ℕ → ℕ) (msgs later : List (Frame × List Outcome)) (reads : ℕ)
    (hpos : ∀ m ∈ msgs ++ later, ∀ o ∈ m.2, ∃ n, 0 < n ∧ o = .count n)
    (hdone : ∀ m ∈ msgs ++ later, (m.1.written m.2).result = some true) :
    ∃ reads', hostReads pieces msgs.length ⟨piped (msgs ++ later), reads⟩ =
      some (msgs.map fun m => m.1.bytes, ⟨piped later, reads'⟩) := by
  induction msgs generalizing reads with
  | nil => exact ⟨reads, rfl⟩
  | cons m msgs ih =>
    have hcount : ∀ o ∈ m.2, o.isCount = true := by
      intro o ho
      obtain ⟨n, -, rfl⟩ := hpos m mem_cons_self o ho
      rfl
    have hpipe : piped (m :: msgs ++ later) = m.1.bytes ++ piped (msgs ++ later) := by
      rw [piped, cons_append, flatMap_cons, Frame.data_written hcount (hdone m mem_cons_self)]
      rfl
    obtain ⟨reply, reads₁, hreply, hread⟩ := usdtParserHostRead_frame pieces m.1 (piped (msgs ++ later)) reads
    obtain ⟨reads₂, hrest⟩ := ih reads₁ (fun m' hm' => hpos m' (mem_cons_of_mem _ hm'))
      fun m' hm' => hdone m' (mem_cons_of_mem _ hm')
    have hsize : Bytes.val (reply.take 8) = m.1.bytes.length := by
      rw [← m.1.size, ← hreply, take_take, Nat.min_eq_left m.1.long]
    refine ⟨reads₂, ?_⟩
    rw [length_cons, hostReads, hpipe, hread]
    simp only [Option.bind_eq_bind, Option.bind_some, hrest, hsize, hreply, map_cons]

def eofFrame : Frame := ⟨Bytes.ofNat 8 16 ++ Bytes.ofNat 8 4, by decide, by decide +kernel⟩
def longFrame : Frame := ⟨Bytes.ofNat 8 60 ++ replicate 52 7, by decide, by decide +kernel⟩

/-- A message that is larger than the buffer of the reader, and the last message, both written and read in pieces. -/
theorem framing_eof : ∃ reads', hostReads (fun _ => 5) 2
    ⟨piped [(longFrame, [.count 50, .count 100]), (eofFrame, [.count 3, .count 100])], 0⟩ =
      some ([longFrame.bytes, eofFrame.bytes], ⟨[], reads'⟩) := by
  refine framing (fun _ => 5) [(longFrame, [.count 50, .count 100]), (eofFrame, [.count 3, .count 100])] [] 0 (by simp) ?_
  rw [append_nil, forall_mem_cons, forall_mem_singleton]
  exact ⟨by decide, by decide⟩

end DTrace.Usdt
