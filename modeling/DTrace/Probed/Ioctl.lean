import Mathlib.Algebra.Group.Int.Defs
import Mathlib.Algebra.Group.Nat.Defs
import Mathlib.Data.Nat.Basic
import Mathlib.Order.Basic
import Mathlib.Tactic.Common

/-!
# Fetching DOF

The `ioctl` handler of `dtprobed`: FUSE calls it again and again, each time with the bytes it has asked for, until
it has the whole DOF of the client and gives it to the parser.  A DOF that is too big is fetched by chunks.

* `helperIoctl` — one call of the handler, for `DTRACEHIOC_ADDDOF`;
* `transfer` — all the calls;
* `transfer_chunks` — the calls that fetch chunks;
* `delivered_iff` — the load sizes for which all goes well.
-/

namespace DTrace.Probed

open Nat

abbrev Byte := BitVec 8

/-- `in_buf` and `in_bufsz`. -/
structure Inbound where
  size : ℕ
  byte : ℕ → Byte

def u64 (b : ℕ → Byte) (o : ℕ) : BitVec 64 :=
  b (o + 7) ++ b (o + 6) ++ b (o + 5) ++ b (o + 4) ++ b (o + 3) ++ b (o + 2) ++ b (o + 1) ++ b o

/-- `sizeof(dof_helper_t)`. -/
def helperSize : ℕ := 80

/-- The offset of `dofhp_dof`. -/
def dofhpDof : ℕ := 72

/-- `sizeof(dof_hdr_t)`. -/
def hdrSize : ℕ := 64

/-- The offset of `dofh_loadsz`. -/
def dofhLoadsz : ℕ := 40

/-- `DOF_CHUNKSZ`. -/
def chunkSize : ℕ := 64 * 1024

/-- `dtprobed_fuse_state_t`. -/
inductive FuseState
  | start
  | hdr
  | dofhdr
  | dofchunk
  | dof
  deriving DecidableEq, Repr

/-- `dtprobed_userdata_t`, with the members of `dh` and `dof_hdr` that the handler reads.  A byte of the buffer that
has not been written is `none`. -/
structure Userdata where
  state : FuseState
  dof : BitVec 64
  loadsz : BitVec 64
  nextChunk : BitVec 64
  buf : Option (ℕ → Option Byte)

/-- What the handler gets from elsewhere: whether `fuse_reply_ioctl_retry`, `malloc` and `mapping_dev_inums`
succeed. -/
structure Env where
  retryOk : Bool
  mallocOk : Bool
  mapOk : Bool

/-- How a call ends: it asks for some bytes of the client, passes data to `process_dof`, or rejects the request, with
a message or without. -/
inductive Reply
  | retry (base : BitVec 64) (len : ℕ)
  | process (size : BitVec 64) (byte : ℕ → Option Byte)
  | error (errmsg : Option String)

/-- The label `process_err`. -/
def processErr (u : Userdata) : Userdata × Reply := ({ u with buf := none, state := .start }, .error none)

/-- The labels `fuse_errmsg` and `fuse_err`. -/
def fuseErr (u : Userdata) (errmsg : String) : Userdata × Reply :=
  ({ u with buf := none, state := .start }, .error (some errmsg))

/-- `fuse_reply_ioctl_retry`, and the state to wait in. -/
def replyRetry (env : Env) (u : Userdata) (base : BitVec 64) (len : ℕ) (state : FuseState) (errmsg : String) :
    Userdata × Reply :=
  if env.retryOk then ({ u with state := state }, .retry base len) else fuseErr u errmsg

/-- The final call: the DOF has been acquired. -/
def passOn (env : Env) (u : Userdata) (inb : Inbound) : Userdata × Reply :=
  let buf := u.buf.getD fun i => if i < inb.size then some (inb.byte i) else none
  if env.mapOk then ({ u with buf := none, state := .start }, .process u.loadsz buf)
  else processErr u

def copyChunk (buf : ℕ → Option Byte) (off : ℕ) (inb : Inbound) (n : ℕ) : ℕ → Option Byte := fun i =>
  if off ≤ i ∧ i < off + n then some (inb.byte (i - off)) else buf i

/-- A chunk has been read: go on to the next, until there are no more. -/
def nextChunk (env : Env) (u : Userdata) (inb : Inbound) : Userdata × Reply :=
  let remaining := (u.loadsz - u.nextChunk).toInt
  let remaining := if remaining < 0 then 0 else remaining.toNat
  let toCopy := min inb.size remaining
  let u := { u with
    buf := u.buf.map fun buf => copyChunk buf u.nextChunk.toNat inb toCopy
    nextChunk := u.nextChunk + BitVec.ofNat 64 toCopy }
  let remaining := remaining - toCopy
  if remaining = 0 then passOn env { u with state := .dof } inb
  else replyRetry env u (u.dof + u.nextChunk) (min chunkSize remaining) .dofchunk "cannot read DOF"

/-- Get the DOF itself, in chunks if it is too big. -/
def getDof (env : Env) (u : Userdata) (inb : Inbound) : Userdata × Reply :=
  if chunkSize < u.loadsz.toNat then
    if u.state = .dofhdr then
      if env.mallocOk then
        replyRetry env { u with buf := some fun _ => none } u.dof chunkSize .dofchunk "cannot read DOF"
      else fuseErr u "out of memory allocating DOF"
    else nextChunk env u inb
  else replyRetry env u u.dof u.loadsz.toNat .dof "cannot read DOF"

def helperIoctl (env : Env) (arg : BitVec 64) (u : Userdata) (inb : Inbound) : Userdata × Reply :=
  match u.state with
  | .start => replyRetry env { u with buf := none, nextChunk := 0 } arg helperSize .hdr "error reading ioctl size"
  | .hdr =>
    if inb.size ≠ helperSize then fuseErr u "helper size incorrect"
    else
      let u := { u with dof := u64 inb.byte dofhpDof }
      replyRetry env u u.dof hdrSize .dofhdr "cannot read DOF header"
  | .dofhdr =>
    if inb.size < hdrSize then fuseErr u "DOF too small"
    else if hdrSize < inb.size then fuseErr u "DOF header size incorrect"
    else getDof env { u with loadsz := u64 inb.byte dofhLoadsz } inb
  | .dofchunk => if inb.size < hdrSize then fuseErr u "DOF too small" else getDof env u inb
  | .dof => if inb.size < hdrSize then fuseErr u "DOF too small" else passOn env u inb

/-! ## All the calls -/

def fetch (mem : BitVec 64 → Byte) (base : BitVec 64) (len : ℕ) : Inbound :=
  ⟨len, fun i => mem (base + BitVec.ofNat 64 i)⟩

/-- The handler is called again with what it has asked for, all of it: what it asks for, and how it ends. -/
def transfer (env : Env) (mem : BitVec 64 → Byte) (arg : BitVec 64) :
    ℕ → Userdata → Inbound → List (BitVec 64 × ℕ) × Option Reply
  | 0, _, _ => ([], none)
  | n + 1, u, inb =>
    match helperIoctl env arg u inb with
    | (u', .retry base len) =>
      let r := transfer env mem arg n u' (fetch mem base len)
      ((base, len) :: r.1, r.2)
    | (_, out) => ([], some out)

section

variable (mem : BitVec 64 → Byte) (arg : BitVec 64)

def allOk : Env := ⟨true, true, true⟩

def dofAddr : BitVec 64 := u64 (fetch mem arg helperSize).byte dofhpDof

def loadSize : BitVec 64 := u64 (fetch mem (dofAddr mem arg) hdrSize).byte dofhLoadsz

/-- The transfer ends with the client's DOF, and does not ask for anything else but the client's `dof_helper_t`. -/
def Delivered (u : Userdata) : Prop :=
  ∃ n reqs byte,
    transfer allOk mem arg n u ⟨0, fun _ => 0⟩ = ((arg, helperSize) :: reqs, some (.process (loadSize mem arg) byte)) ∧
    (∀ i < (loadSize mem arg).toNat, byte i = some (mem (dofAddr mem arg + BitVec.ofNat 64 i))) ∧
    ∀ q ∈ reqs, ∃ o, q.1 = dofAddr mem arg + BitVec.ofNat 64 o ∧ o + q.2 ≤ (loadSize mem arg).toNat

/-- Load sizes for which no piece that is fetched is smaller than a header. -/
def Fits (loadsz : BitVec 64) : Prop :=
  hdrSize ≤ loadsz.toNat ∧ loadsz.toNat < 2 ^ 63 ∧
    (loadsz.toNat ≤ chunkSize ∨ loadsz.toNat % chunkSize = 0 ∨ hdrSize ≤ loadsz.toNat % chunkSize)

variable {len : ℕ} {mem arg} {env : Env} {n m : ℕ} {u u' : Userdata} {inb : Inbound} {base : BitVec 64}

/-! ## Calls -/

lemma replyRetry_allOk (u : Userdata) (base : BitVec 64) (len : ℕ) (state : FuseState) (errmsg : String) :
    replyRetry allOk u base len state errmsg = ({ u with state := state }, .retry base len) := rfl

lemma passOn_allOk (u : Userdata) (inb : Inbound) : passOn allOk u inb = ({ u with buf := none, state := .start },
      .process u.loadsz (u.buf.getD fun i => if i < inb.size then some (inb.byte i) else none)) := rfl

lemma transfer_retry (h : helperIoctl env arg u inb = (u', .retry base len)) :
    transfer env mem arg (n + 1) u inb =
      ((base, len) :: (transfer env mem arg n u' (fetch mem base len)).1,
        (transfer env mem arg n u' (fetch mem base len)).2) := by
  rw [transfer, h]

lemma transfer_stop {out : Reply} (h : helperIoctl env arg u inb = (u', out))
    (hout : ∀ base len, out ≠ .retry base len) : transfer env mem arg (n + 1) u inb = ([], some out) := by
  rw [transfer, h]
  cases out with
  | retry base len => exact absurd rfl (hout base len)
  | process size byte => rfl
  | error errmsg => rfl

lemma transfer_unique {r r' : List (BitVec 64 × ℕ)} {out out' : Reply}
    (h : transfer env mem arg n u inb = (r, some out))
    (h' : transfer env mem arg m u inb = (r', some out')) : r = r' ∧ out = out' := by
  induction n generalizing m u inb r r' with
  | zero => simp [transfer] at h
  | succ n ih =>
    cases m with
    | zero => simp [transfer] at h'
    | succ m =>
      rcases hcall : helperIoctl env arg u inb with ⟨_, out0⟩
      cases out0 with
      | retry base len =>
        rw [transfer_retry hcall] at h h'
        obtain ⟨h1, h2⟩ := Prod.mk.inj h
        obtain ⟨h1', h2'⟩ := Prod.mk.inj h'
        obtain ⟨heq, hout⟩ := ih (Prod.ext rfl h2) (Prod.ext rfl h2')
        exact ⟨h1.symm.trans ((congrArg _ heq).trans h1'), hout⟩
      | process size byte | error errmsg =>
        rw [transfer_stop hcall (by simp)] at h h'
        cases h
        cases h'
        exact ⟨rfl, rfl⟩

/-! ## Chunks -/

/-- The state in which a chunk is awaited, after `N` bytes. -/
structure Awaits (mem : BitVec 64 → Byte) (N : ℕ) (u : Userdata) : Prop where
  state : u.state = .dofchunk
  next : u.nextChunk.toNat = N
  lt : N < u.loadsz.toNat
  small : u.loadsz.toNat < 2 ^ 63
  big : chunkSize < u.loadsz.toNat
  buf : ∃ buf, u.buf = some buf ∧ ∀ i < N, buf i = some (mem (u.dof + BitVec.ofNat 64 i))

variable {N : ℕ}

def chunkAt (mem : BitVec 64 → Byte) (N : ℕ) (u : Userdata) : Inbound :=
  fetch mem (u.dof + BitVec.ofNat 64 N) (min chunkSize (u.loadsz.toNat - N))

def preserve (mem : BitVec 64 → Byte) (N : ℕ) (u : Userdata) : Userdata :=
  { u with
    buf := u.buf.map fun buf => copyChunk buf u.nextChunk.toNat (chunkAt mem N u) (min chunkSize (u.loadsz.toNat - N))
    nextChunk := u.nextChunk + BitVec.ofNat 64 (min chunkSize (u.loadsz.toNat - N)) }

section

variable (h : Awaits mem N u)
include h

lemma Awaits.remaining : (u.loadsz - u.nextChunk).toInt = (u.loadsz.toNat - N : ℕ) := by
  have hlt := h.lt
  have hsmall := h.small
  have hsub : (u.loadsz - u.nextChunk).toNat = u.loadsz.toNat - N := by
    rw [BitVec.toNat_sub, h.next]
    omega
  rw [BitVec.toInt_eq_toNat_cond, hsub, if_pos (by omega)]

lemma Awaits.bytes :
    ∃ buf, (preserve mem N u).buf = some buf ∧
      ∀ i < N + min chunkSize (u.loadsz.toNat - N), buf i = some (mem (u.dof + BitVec.ofNat 64 i)) := by
  obtain ⟨_, hbuf, hbytes⟩ := h.buf
  refine ⟨_, by rw [preserve, hbuf]; rfl, fun i hi => ?_⟩
  simp only [copyChunk, h.next]
  by_cases hN : N ≤ i
  · rw [if_pos ⟨hN, hi⟩]
    simp only [chunkAt, fetch]
    rw [BitVec.add_assoc, ← BitVec.ofNat_add, Nat.add_sub_cancel' hN]
  · rw [if_neg (by omega)]
    exact hbytes i (by omega)

lemma Awaits.next_preserve : (preserve mem N u).nextChunk.toNat = N + min chunkSize (u.loadsz.toNat - N) := by
  have hlt := h.lt
  simp only [preserve, BitVec.toNat_add, h.next, BitVec.toNat_ofNat]
  omega

lemma Awaits.call :
    helperIoctl allOk arg u (chunkAt mem N u) =
      if min chunkSize (u.loadsz.toNat - N) < hdrSize then fuseErr u "DOF too small"
      else if u.loadsz.toNat - N ≤ chunkSize then
        passOn allOk { preserve mem N u with state := .dof } (chunkAt mem N u)
      else (preserve mem N u, .retry (u.dof + (preserve mem N u).nextChunk)
        (min chunkSize (u.loadsz.toNat - N - chunkSize))) := by
  have hbig := h.big
  have hstate := h.state
  unfold helperIoctl
  rw [hstate]
  change (if min chunkSize (u.loadsz.toNat - N) < hdrSize then _ else _) = _
  split
  · rfl
  · rw [getDof, if_pos hbig, if_neg (by simp [hstate]), nextChunk]
    have hneg : ¬((u.loadsz.toNat - N : ℕ) : ℤ) < 0 := by omega
    simp only [h.remaining, Int.toNat_natCast, if_neg hneg, chunkAt, fetch, min_assoc, min_self]
    by_cases hlast : u.loadsz.toNat - N ≤ chunkSize
    · rw [if_pos (by omega), if_pos hlast]
      rfl
    · have hmin : min chunkSize (u.loadsz.toNat - N) = chunkSize := by omega
      rw [if_neg (by omega), if_neg hlast, replyRetry_allOk]
      simp only [preserve, chunkAt, fetch, hmin, ← hstate]

lemma Awaits.last (arg : BitVec 64) (hsize : hdrSize ≤ u.loadsz.toNat - N) (hlast : u.loadsz.toNat - N ≤ chunkSize) :
    ∃ u' byte, helperIoctl allOk arg u (chunkAt mem N u) = (u', .process u.loadsz byte) ∧
      ∀ i < u.loadsz.toNat, byte i = some (mem (u.dof + BitVec.ofNat 64 i)) := by
  obtain ⟨_, hbuf, hbytes⟩ := h.bytes
  rw [h.call, if_neg (by omega), if_pos hlast, passOn_allOk]
  refine ⟨_, _, rfl, fun i hi => ?_⟩
  rw [hbuf]
  exact hbytes i (by omega)

lemma Awaits.more (arg : BitVec 64) (hmore : chunkSize < u.loadsz.toNat - N) :
    helperIoctl allOk arg u (chunkAt mem N u) = (preserve mem N u, .retry (u.dof + BitVec.ofNat 64 (N + chunkSize))
        (min chunkSize (u.loadsz.toNat - N - chunkSize))) ∧
      Awaits mem (N + chunkSize) (preserve mem N u) := by
  obtain ⟨buf, hbuf, hbytes⟩ := h.bytes
  have hnext := h.next_preserve
  have hmin : min chunkSize (u.loadsz.toNat - N) = chunkSize := by omega
  have hchunk : hdrSize ≤ chunkSize := by decide
  rw [hmin] at hnext hbytes
  refine ⟨?_, ⟨h.state, hnext, ?_, h.small, h.big, buf, hbuf, hbytes⟩⟩
  · rw [h.call, if_neg (by omega), if_neg (by omega), ← hnext, BitVec.ofNat_toNat, BitVec.setWidth_eq]
  · change N + chunkSize < u.loadsz.toNat
    omega

end

/-- All requests are for bytes of the DOF. -/
def Within (dof : BitVec 64) (size : ℕ) (reqs : List (BitVec 64 × ℕ)) : Prop :=
  ∀ q ∈ reqs, ∃ o, q.1 = dof + BitVec.ofNat 64 o ∧ o + q.2 ≤ size

variable {reqs : List (BitVec 64 × ℕ)} {dof : BitVec 64}

lemma Within.cons {size o : ℕ} (h : Within dof size reqs)
    (hle : o + len ≤ size) : Within dof size ((dof + BitVec.ofNat 64 o, len) :: reqs) := by
  exact List.forall_mem_cons.2 ⟨⟨o, rfl, hle⟩, h⟩

lemma Within.first {size : ℕ} (h : Within dof size reqs)
    (hle : len ≤ size) : Within dof size ((dof, len) :: reqs) := by
  have hcons := h.cons (by omega : 0 + len ≤ size)
  rwa [BitVec.add_zero] at hcons

lemma Within.nil (dof : BitVec 64) (size : ℕ) : Within dof size [] := by
  intro q hq
  cases hq

/-- The last of the chunks in which `len` bytes are fetched is smaller than a header. -/
def Ragged (len : ℕ) : Prop := 0 < len % chunkSize ∧ len % chunkSize < hdrSize

lemma ragged_sub_chunkSize (h : chunkSize ≤ len) : Ragged (len - chunkSize) ↔ Ragged len := by
  rw [Ragged, Ragged, mod_eq_sub_mod h]

/-- All of the DOF is passed on. -/
def Whole (mem : BitVec 64 → Byte) (dof size : BitVec 64) (out : Reply) : Prop :=
  ∃ byte, out = .process size byte ∧ ∀ i < size.toNat, byte i = some (mem (dof + BitVec.ofNat 64 i))

/-- The calls that fetch the chunks: they end with the DOF, unless the last chunk is smaller than a header. -/
theorem transfer_chunks (h : Awaits mem N u) (arg : BitVec 64) :
    ∃ n reqs out, transfer allOk mem arg n u (chunkAt mem N u) = (reqs, some out) ∧
      Within u.dof u.loadsz.toNat reqs ∧
      (Ragged (u.loadsz.toNat - N) → ∃ msg, out = .error msg) ∧
      (¬Ragged (u.loadsz.toNat - N) → Whole mem u.dof u.loadsz out) := by
  -- on what is missing
  induction hk : u.loadsz.toNat - N using Nat.strong_induction_on generalizing u N with
  | _ len ih =>
    subst hk
    have hlt := h.lt
    by_cases hmore : chunkSize < u.loadsz.toNat - N
    · obtain ⟨hcall, hnext⟩ := h.more arg hmore
      have hchunk : fetch mem (u.dof + .ofNat 64 (N + chunkSize))
          (min chunkSize (u.loadsz.toNat - N - chunkSize)) = chunkAt mem (N + chunkSize) (preserve mem N u) := by
        rw [chunkAt, ← Nat.sub_sub]
        rfl
      have hlen :=
        (Nat.sub_sub u.loadsz.toNat N chunkSize).symm
      have hpos : 0 < chunkSize := by decide
      obtain ⟨n, _, out, htrans, hwithin, hout⟩ := ih _ (by omega) hnext hlen
      rw [ragged_sub_chunkSize hmore.le] at hout
      have hle : N + chunkSize + min chunkSize (u.loadsz.toNat - N - chunkSize) ≤ u.loadsz.toNat := by omega
      refine ⟨n + 1, _, out, ?_, hwithin.cons hle, hout⟩
      rw [transfer_retry hcall, hchunk, htrans]
      rfl
    · rcases lt_or_ge (u.loadsz.toNat - N) hdrSize with hsize | hsize
      · have hcall : helperIoctl allOk arg u (chunkAt mem N u) = fuseErr u "DOF too small" := by
          rw [h.call, if_pos (by omega)]
        refine ⟨1, [], _, transfer_stop hcall (by simp), Within.nil _ _, fun _ => ⟨_, rfl⟩,
          fun hrag => absurd ?_ hrag⟩
        rw [Ragged, mod_eq_of_lt (hsize.trans (by decide))]
        omega
      · obtain ⟨_, byte, hcall, hbytes⟩ := h.last arg hsize (not_lt.1 hmore)
        refine ⟨1, [], _, transfer_stop hcall (by simp), Within.nil _ _, fun hrag => absurd hrag ?_,
          fun _ => ⟨byte, rfl, hbytes⟩⟩
        rcases (not_lt.1 hmore).eq_or_lt with heq | hlt
        · rw [Ragged, heq, mod_self]
          omega
        · rw [Ragged, mod_eq_of_lt hlt]
          omega

/-! ## The whole transfer -/

/-- The state after the first three calls, when the header of the DOF is there. -/
def opened (mem : BitVec 64 → Byte) (arg : BitVec 64) : Userdata :=
  ⟨.dofhdr, dofAddr mem arg, loadSize mem arg, 0, none⟩

/-- How a transfer goes on from there. -/
structure Opens (mem : BitVec 64 → Byte) (arg : BitVec 64) (reqs : List (BitVec 64 × ℕ)) (out : Reply) : Prop where
  run : ∀ (u : Userdata) inb, ∃ n, transfer allOk mem arg n { u with state := .start } inb =
    ((arg, helperSize) :: (dofAddr mem arg, hdrSize) :: reqs, some out)
  within : Within (dofAddr mem arg) (loadSize mem arg).toNat reqs

lemma transfer_opens
    (hcall : getDof allOk (opened mem arg) (fetch mem (dofAddr mem arg) hdrSize) = (u', .retry base len))
    (u : Userdata) (inb : Inbound) : transfer allOk mem arg (n + 3) { u with state := .start } inb =
      ((arg, helperSize) :: (dofAddr mem arg, hdrSize) :: (base, len) ::
        (transfer allOk mem arg n u' (fetch mem base len)).1,
        (transfer allOk mem arg n u' (fetch mem base len)).2) := by
  have hstart : helperIoctl allOk arg { u with state := .start } inb =
      (⟨.hdr, u.dof, u.loadsz, 0, none⟩, .retry arg helperSize) := rfl
  have hhdr : helperIoctl allOk arg ⟨.hdr, u.dof, u.loadsz, 0, none⟩ (fetch mem arg helperSize) =
      (⟨.dofhdr, dofAddr mem arg, u.loadsz, 0, none⟩, .retry (dofAddr mem arg) hdrSize) := rfl
  have hdof : helperIoctl allOk arg ⟨.dofhdr, dofAddr mem arg, u.loadsz, 0, none⟩
      (fetch mem (dofAddr mem arg) hdrSize) = (u', .retry base len) := hcall
  rw [transfer_retry hstart, transfer_retry hhdr, transfer_retry hdof]

lemma opens_small (h : (loadSize mem arg).toNat ≤ chunkSize) :
    ∃ reqs out, Opens mem arg reqs out ∧
      ((loadSize mem arg).toNat < hdrSize → ∃ msg, out = .error msg) ∧
      (hdrSize ≤ (loadSize mem arg).toNat → Whole mem (dofAddr mem arg) (loadSize mem arg) out) := by
  have hcall : getDof allOk (opened mem arg) (fetch mem (dofAddr mem arg) hdrSize) =
      ({ opened mem arg with state := .dof }, .retry (dofAddr mem arg) (loadSize mem arg).toNat) := by
    rw [getDof, if_neg (show ¬chunkSize < (opened mem arg).loadsz.toNat from not_lt.2 h)]
    rfl
  have hwithin : Within (dofAddr mem arg) (loadSize mem arg).toNat [(dofAddr mem arg, (loadSize mem arg).toNat)] :=
    (Within.nil _ _).first le_rfl
  by_cases hsize : (loadSize mem arg).toNat < hdrSize
  · refine ⟨_, .error (some "DOF too small"), ⟨fun u inb => ⟨1 + 3, ?_⟩, hwithin⟩, fun _ => ⟨_, rfl⟩,
      fun hge => by omega⟩
    have hstop : helperIoctl allOk arg { opened mem arg with state := .dof }
        (fetch mem (dofAddr mem arg) (loadSize mem arg).toNat) =
        fuseErr { opened mem arg with state := .dof } "DOF too small" :=
      if_pos hsize
    rw [transfer_opens hcall, transfer_stop hstop (by simp)]
  · refine ⟨_, .process (loadSize mem arg) fun i =>
        if i < (loadSize mem arg).toNat then some (mem (dofAddr mem arg + .ofNat 64 i)) else none,
      ⟨fun u inb => ⟨1 + 3, ?_⟩, hwithin⟩, fun hlt => absurd hlt hsize, fun _ => ⟨_, rfl, fun i hi => if_pos hi⟩⟩
    have hstop : helperIoctl allOk arg { opened mem arg with state := .dof }
        (fetch mem (dofAddr mem arg) (loadSize mem arg).toNat) =
        passOn allOk { opened mem arg with state := .dof } (fetch mem (dofAddr mem arg) (loadSize mem arg).toNat) :=
      if_neg hsize
    rw [transfer_opens hcall, transfer_stop hstop (by simp)]
    rfl

/-- The state when the first chunk of a bigger DOF is awaited. -/
def chunking (mem : BitVec 64 → Byte) (arg : BitVec 64) : Userdata :=
  ⟨.dofchunk, dofAddr mem arg, loadSize mem arg, 0, some fun _ => none⟩

lemma getDof_opened (h : chunkSize < (loadSize mem arg).toNat) :
    getDof allOk (opened mem arg) (fetch mem (dofAddr mem arg) hdrSize) =
      (chunking mem arg, .retry (dofAddr mem arg) chunkSize) := by
  rw [getDof, if_pos (show chunkSize < (opened mem arg).loadsz.toNat from h)]
  rfl

lemma opens_chunks (h : chunkSize < (loadSize mem arg).toNat) (hsmall : (loadSize mem arg).toNat < 2 ^ 63) :
    ∃ reqs out, Opens mem arg reqs out ∧
      (Ragged (loadSize mem arg).toNat → ∃ msg, out = .error msg) ∧
      (¬Ragged (loadSize mem arg).toNat → Whole mem (dofAddr mem arg) (loadSize mem arg) out) := by
  have hawaits : Awaits mem 0 (chunking mem arg) :=
    ⟨rfl, rfl, zero_lt_of_lt h, hsmall, h, _, rfl, fun i hi => absurd hi (not_lt_zero i)⟩
  obtain ⟨n, reqs, out, htrans, hwithin, hout⟩ := transfer_chunks hawaits arg
  have hchunk : chunkAt mem 0 (chunking mem arg) = fetch mem (dofAddr mem arg) chunkSize := by
    have hmin : min chunkSize ((loadSize mem arg).toNat - 0) = chunkSize := by omega
    change fetch mem (dofAddr mem arg + 0#64) (min chunkSize ((loadSize mem arg).toNat - 0)) = _
    rw [hmin, BitVec.add_zero]
  rw [hchunk] at htrans
  refine ⟨(dofAddr mem arg, chunkSize) :: reqs, out, ⟨fun u inb => ⟨n + 3, ?_⟩, hwithin.first h.le⟩, hout⟩
  rw [transfer_opens (getDof_opened h), htrans]

lemma copyChunk_zero (buf : ℕ → Option Byte) (off : ℕ) (inb : Inbound) : copyChunk buf off inb 0 = buf := by
  funext i
  rw [copyChunk, if_neg (by omega)]

lemma nextChunk_neg (h : (u.loadsz - u.nextChunk).toInt < 0) :
    nextChunk env u inb = passOn env { u with state := .dof } inb := by
  simp only [nextChunk, if_pos h, Nat.min_zero, Nat.sub_self, if_true, copyChunk_zero, Option.map_id', BitVec.add_zero]

/-- A load size that is negative as a `ssize_t`: nothing is copied from the first chunk, and no other is asked for. -/
lemma opens_huge (h : 2 ^ 63 ≤ (loadSize mem arg).toNat) :
    ∃ reqs, Opens mem arg reqs (.process (loadSize mem arg) fun _ => none) := by
  have hchunk : chunkSize < (loadSize mem arg).toNat := lt_of_lt_of_le (by decide) h
  have hneg : ((chunking mem arg).loadsz - (chunking mem arg).nextChunk).toInt < 0 := by
    change (loadSize mem arg - 0#64).toInt < 0
    rw [BitVec.sub_zero, BitVec.toInt_eq_toNat_cond, if_neg (by omega)]
    omega
  have hcall : helperIoctl allOk arg (chunking mem arg) (fetch mem (dofAddr mem arg) chunkSize) =
      (⟨.start, dofAddr mem arg, loadSize mem arg, 0, none⟩, .process (loadSize mem arg) fun _ => none) := by
    change getDof allOk (chunking mem arg) _ = _
    rw [getDof, if_pos (show chunkSize < (chunking mem arg).loadsz.toNat from hchunk), if_neg (by simp [chunking]),
      nextChunk_neg hneg, passOn_allOk]
    simp [chunking]
  refine ⟨[(dofAddr mem arg, chunkSize)], ⟨fun u inb => ⟨1 + 3, ?_⟩, (Within.nil _ _).first hchunk.le⟩⟩
  rw [transfer_opens (getDof_opened hchunk), transfer_stop hcall (by simp)]

lemma opens_cases (mem : BitVec 64 → Byte) (arg : BitVec 64) :
    ∃ reqs out, Opens mem arg reqs out ∧
      (Fits (loadSize mem arg) → Whole mem (dofAddr mem arg) (loadSize mem arg) out) ∧
      (¬Fits (loadSize mem arg) → ∀ byte, out = .process (loadSize mem arg) byte →
        0 < (loadSize mem arg).toNat ∧ byte 0 = none) := by
  rcases le_or_gt (loadSize mem arg).toNat chunkSize with hle | hgt
  · obtain ⟨reqs, out, hopens, herr, hok⟩ := opens_small hle
    refine ⟨reqs, out, hopens, fun hfits => hok hfits.1, fun hfits byte hout => ?_⟩
    have hpow : chunkSize < 2 ^ 63 := by decide
    have hsize : (loadSize mem arg).toNat < hdrSize := by
      by_contra hge
      exact hfits ⟨not_lt.1 hge, by omega, .inl hle⟩
    obtain ⟨msg, hmsg⟩ := herr hsize
    rw [hmsg] at hout
    cases hout
  · rcases lt_or_ge (loadSize mem arg).toNat (2 ^ 63) with hsmall | hhuge
    · obtain ⟨reqs, out, hopens, herr, hok⟩ := opens_chunks hgt hsmall
      have hdr : hdrSize ≤ chunkSize := by decide
      have hiff : Fits (loadSize mem arg) ↔ ¬Ragged (loadSize mem arg).toNat := by
        unfold Fits Ragged
        omega
      rw [hiff, not_not]
      refine ⟨reqs, out, hopens, hok, fun hrag byte hout => ?_⟩
      obtain ⟨_, hmsg⟩ := herr hrag
      rw [hmsg] at hout
      cases hout
    · obtain ⟨reqs, hopens⟩ := opens_huge hhuge
      refine ⟨reqs, _, hopens, fun hfits => absurd hfits.2.1 (not_lt.2 hhuge), fun _ byte hout => ?_⟩
      cases hout
      exact ⟨by omega, rfl⟩

lemma Delivered.fits (h : Delivered mem arg { u with state := .start }) : Fits (loadSize mem arg) := by
  obtain ⟨_, _, hopens, -, hnot⟩ := opens_cases mem arg
  obtain ⟨n, hrun⟩ := hopens.run u ⟨0, fun _ => 0⟩
  obtain ⟨m, _, byte, hrun', hbytes, -⟩ := h
  obtain ⟨-, hout⟩ := transfer_unique hrun hrun'
  by_contra hfits
  obtain ⟨hpos, hnone⟩ := hnot hfits byte hout
  have hzero := hbytes 0 hpos
  rw [hnone] at hzero
  cases hzero

/-- The client's DOF is passed on, and nothing else is asked for, exactly when no piece that is fetched is smaller than
a header and the load size is not negative as a `ssize_t`. -/
theorem delivered_iff (mem : BitVec 64 → Byte) (arg : BitVec 64) (u : Userdata) :
    Delivered mem arg { u with state := .start } ↔ Fits (loadSize mem arg) := by
  refine ⟨fun h => h.fits, fun hfits => ?_⟩
  obtain ⟨_, _, hopens, hfit, -⟩ := opens_cases mem arg
  obtain ⟨n, hrun⟩ := hopens.run u ⟨0, fun _ => 0⟩
  obtain ⟨byte, rfl, hbytes⟩ := hfit hfits
  exact ⟨n, _, byte, hrun, hbytes, hopens.within.first hfits.1⟩

/-- A client with its `dof_helper_t` at 0 and its DOF at 256; the load size is one byte over a chunk. -/
def overChunk : BitVec 64 → Byte := fun a => if a = 73 ∨ a = 296 ∨ a = 298 then 1 else 0

/-- The last chunk, of one byte, is smaller than a header: the transfer is rejected. -/
theorem overChunk_rejected : loadSize overChunk 0 = 65537 ∧ ¬Delivered overChunk 0 ⟨.start, 0, 0, 0, none⟩ := by
  have hsize : loadSize overChunk 0 = 65537 := by decide
  refine ⟨hsize, fun h => ?_⟩
  have hfits : Fits (loadSize overChunk 0) := Delivered.fits (u := ⟨.start, 0, 0, 0, none⟩) h
  exact absurd hfits (by unfold Fits; decide)

end

end DTrace.Probed
