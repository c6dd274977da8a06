import DTrace.Bpf.Machine
import DTrace.Lib.Qsort

/-!
# Comparison of strings

`dt_strcmp` copies both strings, overwrites one copy with marks that tell where the copies differ, and looks for the
first mark.  A copy has one character less than a string can have.

* `dtStrcmp` — the function of `strcmp.S`;
* `mark_eq_zero` — the marks; `dtStrcmp_eq` — what is compared after the search;
* `dtStrcmp_of_ne`, `dtStrcmp_of_eq` — copies that differ, and copies that do not;
* `dtStrcmp_eq_order` — when the result is the order of the strings.
-/

namespace DTrace.Bpf

open Lib Function List BitVec

/-- Memory from a pointer on. -/
abbrev Buf := ℕ → BitVec 8

/-- `bpf_probe_read_str`: its result, and what it leaves at the destination. -/
def probeReadStr (dst : Buf) (size : ℕ) (src : Buf) : ℕ × Buf :=
  let n := (List.range (size - 1)).findIdx fun i => src i = 0
  (n + 1, fun i => if i < n then src i else if i = n then 0 else dst i)

/-- `dt_strcmp_xor`, with `n` passes of its loop over words. -/
def dtStrcmpXor (t : Buf) : ℕ → ℕ → Buf → Buf
  | 0, _, s => s
  | n + 1, r6, s => dtStrcmpXor t n (r6 + 8) fun i => if r6 ≤ i ∧ i < r6 + 8 then s i ^^^ t i else s i

/-- What `dt_strcmp_not` makes of a byte. -/
def notByte (b : BitVec 8) : BitVec 8 := (((b.setWidth 64 &&& 0xff#64) - 1) >>> 63).setWidth 8

/-- `dt_strcmp_not`, with `n` passes of its loop over bytes. -/
def dtStrcmpNot : ℕ → ℕ → Buf → Buf
  | 0, _, s => s
  | n + 1, r6, s => dtStrcmpNot n (r6 + 1) (update s r6 (notByte (s r6)))

/-- The comparison at the end of `dt_strcmp`. -/
def verdict (r6 r7 : ℕ) : ℤ := if r7 < r6 then 1 else if r6 < r7 then -1 else 0

/-- `dt_strcmp`, for strings that can be read. -/
def dtStrcmp (strsz : ℕ) (s t tmp1 tmp2 : Buf) : ℤ :=
  let (r6, tmp1) := probeReadStr tmp1 strsz s
  let r6 := if r6 ≤ strsz then r6 else strsz
  let (r7, tmp2) := probeReadStr tmp2 strsz t
  let r7 := if r7 ≤ strsz then r7 else strsz
  let tmp1 := update tmp1 r6 0
  let tmp2 := update tmp2 r7 0
  let r8 := (strsz + 7) / 8 * 8
  let tmp1 := dtStrcmpNot r8 0 (dtStrcmpXor tmp2 (r8 / 8) 0 tmp1)
  let r0 := (probeReadStr tmp1 r8 tmp1).1
  let r0 := (if r0 < strsz then r0 else strsz) - 1
  if r6 < r0 ∨ r7 < r0 then verdict r6 r7 else verdict (s r0).toNat (tmp2 r0).toNat

/-! ## Strings -/

/-- A string of `n` characters; memory behind its final 0 may hold anything. -/
structure StrAt (n : ℕ) (s : Buf) : Prop where
  chars : ∀ i < n, s i ≠ 0
  nul : s n = 0

/-- The characters of a string, and 0 behind them. -/
def padded (n : ℕ) (s : Buf) : Buf := fun i => if i < n then s i else 0

/-- The order of two strings of at most `k` characters: that of the first that differ, as unsigned bytes. -/
def order : ℕ → Buf → Buf → ℤ
  | 0 => fun _ _ => 0
  | k + 1 => andThen (order k) (cmpOn fun s => (s k).toNat)

/-- Strings of `m` and `n` characters that are compared rightly: their copies differ, or else the byte behind the first
is not taken for one of its own, and the second has no last character that its copy does not have, unless that of the
first is above it. -/
def Comparable (strsz m n : ℕ) (s t : Buf) : Prop :=
  (∀ i < strsz - 1, padded m s i = padded n t i) → (m + 2 = strsz → s (strsz - 1) = 0) ∧
    ∀ k, k + 1 = strsz → n = strsz → k ≤ m → t k < s k

/-- What a string of `m` characters gives when it is compared with itself. -/
def selfOrder (strsz m : ℕ) (s : Buf) : ℤ := if m + 2 < strsz then 0 else verdict (s (strsz - 1)).toNat 0

/-! ## Copies and marks -/

section

variable {p : ℕ → Bool} {strsz n m k : ℕ} {s t : Buf}

lemma le_findIdx_range (hle : k ≤ n) (hmin : ∀ i < k, p i = false) : k ≤ (range n).findIdx p := by
  by_contra hlt
  have hidx : (range n).findIdx p < (range n).length := by
    rw [length_range]
    omega
  have := findIdx_getElem (w := hidx)
  rw [getElem_range, hmin _ (by omega)] at this
  cases this

lemma findIdx_range_le (hp : p k = true) : (range n).findIdx p ≤ k := by
  by_contra hlt
  have := not_of_lt_findIdx (not_le.1 hlt)
  rw [getElem_range, hp] at this
  cases this

lemma dtStrcmpXor_eq (t : Buf) (n r6 : ℕ) (s : Buf) (i : ℕ) :
    dtStrcmpXor t n r6 s i = if r6 ≤ i ∧ i < r6 + 8 * n then s i ^^^ t i else s i := by
  induction n generalizing r6 s with
  | zero => simp [dtStrcmpXor]
  | succ n ih =>
    rw [dtStrcmpXor, ih]
    split_ifs <;> first | rfl | omega

lemma notByte_eq : ∀ b, notByte b = if b = 0 then 1 else 0 := by decide +kernel

lemma dtStrcmpNot_eq (n r6 : ℕ) (s : Buf) (i : ℕ) :
    dtStrcmpNot n r6 s i = if r6 ≤ i ∧ i < r6 + n then notByte (s i) else s i := by
  induction n generalizing r6 s with
  | zero => simp [dtStrcmpNot]
  | succ n ih =>
    rw [dtStrcmpNot, ih]
    by_cases hi : i = r6
    · subst hi
      simp
    · rw [update_of_ne hi]
      split_ifs <;> first | rfl | omega

lemma mark_eq_zero {i : ℕ} (s t : Buf) (hi : i < (strsz + 7) / 8 * 8) :
    dtStrcmpNot ((strsz + 7) / 8 * 8) 0 (dtStrcmpXor t ((strsz + 7) / 8 * 8 / 8) 0 s) i = 0 ↔ s i ≠ t i := by
  rw [dtStrcmpNot_eq, if_pos (by omega), dtStrcmpXor_eq, if_pos (by omega), notByte_eq]
  by_cases h : s i = t i <;> simp [h]

/-- A copy has all characters but the one that there is no room for. -/
lemma probeReadStr_eq (h : StrAt n s) (dst : Buf) : probeReadStr dst strsz s =
    (min n (strsz - 1) + 1, fun i =>
      if i < min n (strsz - 1) then s i else if i = min n (strsz - 1) then 0 else dst i) := by
  have hidx : (range (strsz - 1)).findIdx (fun i => s i = 0) = min n (strsz - 1) := by
    refine le_antisymm (le_min (findIdx_range_le (by simp [h.nul])) ?_)
      (le_findIdx_range (min_le_right _ _) fun i hi => ?_)
    · exact findIdx_le_length.trans_eq length_range
    · exact decide_eq_false (h.chars i (by omega))
  rw [probeReadStr, hidx]

/-- The rest of the function goes by the first place where the copies differ, or by the last place. -/
lemma dtStrcmp_eq (hs : StrAt m s) (ht : StrAt n t) (hsz : 0 < strsz) (tmp1 tmp2 : Buf) : let r6 := min m (strsz - 1)
    let r7 := min n (strsz - 1)
    ∃ (c d : Buf) (r0 : ℕ), (∀ i ≤ r6 + 1, c i = padded r6 s i) ∧ (∀ i ≤ r7 + 1, d i = padded r7 t i) ∧
      r0 ≤ strsz - 1 ∧ (∀ k ≤ strsz - 1, (∀ i < k, c i = d i) → k ≤ r0) ∧ (∀ k < strsz - 1, c k ≠ d k → r0 ≤ k) ∧
      dtStrcmp strsz s t tmp1 tmp2 =
        if r6 + 1 < r0 ∨ r7 + 1 < r0 then verdict (r6 + 1) (r7 + 1) else verdict (s r0).toNat (d r0).toNat := by
  intro r6 r7
  have hcopy : ∀ (l : ℕ) (u dst : Buf), ∀ i ≤ l + 1,
      update (fun i => if i < l then u i else if i = l then 0 else dst i) (l + 1) 0 i = padded l u i := by
    intro l u dst i hi
    unfold padded
    rcases hi.lt_or_eq with hlt | rfl
    · rw [update_of_ne hlt.ne]
      split_ifs <;> first | rfl | omega
    · simp
  let r8 := (strsz + 7) / 8 * 8
  let c := update (probeReadStr tmp1 strsz s).2 (r6 + 1) 0
  let d := update (probeReadStr tmp2 strsz t).2 (r7 + 1) 0
  let marks := dtStrcmpNot r8 0 (dtStrcmpXor d (r8 / 8) 0 c)
  let idx := (range (r8 - 1)).findIdx fun i => marks i = 0
  refine ⟨c, d, min idx (strsz - 1), ?_, ?_, min_le_right _ _, fun k hk h => ?_, fun k hk hne => ?_, ?_⟩
  · simpa only [c, probeReadStr_eq hs] using hcopy r6 s tmp1
  · simpa only [d, probeReadStr_eq ht] using hcopy r7 t tmp2
  · refine le_min (le_findIdx_range (by omega) fun i hi => decide_eq_false fun h0 => ?_) hk
    exact (mark_eq_zero c d (by omega)).1 h0 (h i hi)
  · exact (min_le_left _ _).trans (findIdx_range_le (decide_eq_true ((mark_eq_zero c d (by omega)).2 hne)))
  · have hr0 : (if idx + 1 < strsz then idx + 1 else strsz) - 1 = min idx (strsz - 1) := by
      split <;> omega
    have h6 : r6 + 1 ≤ strsz := by omega
    have h7 : r7 + 1 ≤ strsz := by omega
    rw [← hr0]
    simp only [dtStrcmp, c, d, marks, idx, r8, probeReadStr_eq hs, probeReadStr_eq ht, r6, r7, if_pos h6, if_pos h7]
    rfl

end

/-! ## The result -/

section

variable {strsz m n k : ℕ} {s t u v : Buf}

lemma order_eq_zero : order k u v = 0 ↔ ∀ i < k, u i = v i := by
  induction k with
  | zero => simp [order]
  | succ k ih => rw [order, andThen_eq_zero, ih, cmpOn_eq_zero, toNat_inj, Nat.forall_lt_succ_right]

lemma cmpOn_eq_verdict : cmpOn (fun s : Buf => (s k).toNat) u v = verdict (u k).toNat (v k).toNat := by
  unfold cmpOn verdict
  dsimp only
  split_ifs <;> first | rfl | omega

lemma order_of_first {j : ℕ} (hsame : ∀ i < j, u i = v i) (hne : u j ≠ v j) (hj : j < k) :
    order k u v = verdict (u j).toNat (v j).toNat := by
  induction k with
  | zero => omega
  | succ k ih =>
    rw [order]
    rcases Nat.lt_succ_iff_lt_or_eq.1 hj with hlt | rfl
    · rw [andThen, if_pos (mt order_eq_zero.1 fun h => hne (h j hlt)), ih hlt]
    · rw [andThen_of_eq_zero (order_eq_zero.2 hsame), cmpOn_eq_verdict]

lemma order_cases (k : ℕ) (u v : Buf) : order k u v ∈ [-1, 0, 1] := by
  induction k with
  | zero => simp [order]
  | succ k ih =>
    rw [order, andThen]
    split
    · exact ih
    · unfold cmpOn
      split_ifs <;> simp

section

variable (hs : StrAt m s)
include hs

lemma padded_eq_zero : padded m s k = 0 ↔ m ≤ k := by
  unfold padded
  split
  · exact iff_of_false (hs.chars k ‹_›) (by omega)
  · exact iff_of_true rfl (by omega)

lemma padded_of_le (hk : k ≤ m) : padded m s k = s k := by
  unfold padded
  split
  · rfl
  · rw [show k = m by omega, hs.nul]

/-- The first place where two strings differ is not behind the end of one. -/
lemma le_of_first (ht : StrAt n t) (hsame : ∀ i < k, padded m s i = padded n t i)
    (hne : padded m s k ≠ padded n t k) : k ≤ m := by
  by_contra hlt
  have hn : n ≤ m := (padded_eq_zero ht).1 ((hsame m (by omega)).symm.trans ((padded_eq_zero hs).2 le_rfl))
  exact hne (((padded_eq_zero hs).2 (by omega)).trans ((padded_eq_zero ht).2 (by omega)).symm)

lemma dtStrcmp_of_ne (ht : StrAt n t) (hsz : 0 < strsz) (tmp1 tmp2 : Buf)
    (hne : ∃ i < strsz - 1, padded m s i ≠ padded n t i) :
    dtStrcmp strsz s t tmp1 tmp2 = order strsz (padded m s) (padded n t) := by
  obtain ⟨k, ⟨hk, hne⟩, hmin⟩ : ∃ k, (k < strsz - 1 ∧ padded m s k ≠ padded n t k) ∧
      ∀ i < k, padded m s i = padded n t i := by
    refine ⟨Nat.find hne, Nat.find_spec hne, fun i hi => ?_⟩
    have hlt := (Nat.find_spec hne).1
    by_contra hc
    exact Nat.find_min hne hi ⟨by omega, hc⟩
  have hm := le_of_first hs ht hmin hne
  have hn := le_of_first ht hs (fun i hi => (hmin i hi).symm) hne.symm
  obtain ⟨c, d, r0, hc, hd, -, hge, hle, hrun⟩ := dtStrcmp_eq hs ht hsz tmp1 tmp2
  -- the copies are the strings up to there
  have hcut : ∀ (l : ℕ) (w : Buf), ∀ i ≤ k, padded (min l (strsz - 1)) w i = padded l w i := fun l w i hi => by
    have : i < min l (strsz - 1) ↔ i < l := by omega
    simp only [padded, this]
  have hc' : ∀ i ≤ k, c i = padded m s i := fun i hi => (hc i (by omega)).trans (hcut m s i hi)
  have hd' : ∀ i ≤ k, d i = padded n t i := fun i hi => (hd i (by omega)).trans (hcut n t i hi)
  obtain rfl : r0 = k := by
    refine le_antisymm (hle k hk ?_) (hge k hk.le fun i hi => ?_)
    · rwa [hc' k le_rfl, hd' k le_rfl]
    · rw [hc' i hi.le, hd' i hi.le, hmin i hi]
  rw [hrun, if_neg (by omega), order_of_first hmin hne (by omega), hd' r0 le_rfl, padded_of_le hs hm]

/-- Copies that do not differ: the byte at the last place of the first string is compared with 0 if they go so far. -/
lemma dtStrcmp_of_eq (ht : StrAt n t) (hsz : 0 < strsz) (tmp1 tmp2 : Buf)
    (heq : ∀ i < strsz - 1, padded m s i = padded n t i) : min m (strsz - 1) = min n (strsz - 1) ∧
    dtStrcmp strsz s t tmp1 tmp2 = selfOrder strsz m s := by
  have hlen : min m (strsz - 1) = min n (strsz - 1) := by
    have h : ∀ i < strsz - 1, m ≤ i ↔ n ≤ i := fun i hi => by rw [← padded_eq_zero hs, ← padded_eq_zero ht, heq i hi]
    have := h m
    have := h n
    omega
  refine ⟨hlen, ?_⟩
  obtain ⟨c, d, r0, hc, hd, hle, hge, -, hrun⟩ := dtStrcmp_eq hs ht hsz tmp1 tmp2
  rw [← hlen] at hd hrun
  have hsame : ∀ i ≤ min m (strsz - 1) + 1, c i = d i := fun i hi => by
    rw [hc i hi, hd i hi]
    unfold padded
    split
    · have := heq i (by omega)
      rwa [padded_of_le hs (by omega), padded_of_le ht (by omega)] at this
    · rfl
  rw [hrun, selfOrder]
  by_cases hshort : m + 2 < strsz
  · have := hge (m + 2) (by omega) fun i hi => hsame i (by omega)
    rw [if_pos hshort, if_pos (by omega)]
    simp [verdict]
  · have hr0 : r0 = strsz - 1 := le_antisymm hle (hge _ le_rfl fun i hi => hsame i (by omega))
    have hlast : padded (min m (strsz - 1)) t (strsz - 1) = 0 := if_neg (by omega)
    rw [if_neg hshort, hr0, if_neg (by omega), hd _ (by omega), hlast]
    rfl

end

lemma verdict_eq_zero {x y : ℕ} : verdict x y = 0 ↔ x = y := by
  unfold verdict
  split_ifs <;> simp <;> omega

lemma verdict_zero_eq (x y : ℕ) : verdict x 0 = verdict x y ↔ y = 0 ∨ y < x := by
  unfold verdict
  split_ifs <;> simp <;> omega

lemma dtStrcmp_zero (hs : s 0 = 0) (t tmp1 tmp2 : Buf) : dtStrcmp 0 s t tmp1 tmp2 = 0 := by
  simp [dtStrcmp, probeReadStr, dtStrcmpXor, dtStrcmpNot, verdict, hs]

lemma dtStrcmp_self (hs : StrAt m s) (hm : m ≤ strsz) (tmp1 tmp2 : Buf) :
    dtStrcmp strsz s s tmp1 tmp2 = selfOrder strsz m s := by
  rcases strsz.eq_zero_or_pos with rfl | hsz
  · obtain rfl : m = 0 := by omega
    rw [dtStrcmp_zero hs.nul]
    simp [selfOrder, hs.nul, verdict]
  · exact (dtStrcmp_of_eq hs hs hsz tmp1 tmp2 fun _ _ => rfl).2

/-- Strings of at most `strsz` characters, whatever is in memory behind them and in the buffers. -/
theorem dtStrcmp_eq_order (hs : StrAt m s) (ht : StrAt n t) (hm : m ≤ strsz) (hn : n ≤ strsz) (tmp1 tmp2 : Buf) :
    dtStrcmp strsz s t tmp1 tmp2 = order strsz (padded m s) (padded n t) ↔ Comparable strsz m n s t := by
  unfold Comparable
  rcases strsz.eq_zero_or_pos with rfl | hsz
  · obtain rfl : m = 0 := by omega
    simp [dtStrcmp_zero hs.nul, order]
  by_cases heq : ∀ i < strsz - 1, padded m s i = padded n t i
  · obtain ⟨hlen, hrun⟩ := dtStrcmp_of_eq hs ht hsz tmp1 tmp2 heq
    obtain ⟨k, rfl⟩ : ∃ k, strsz = k + 1 := ⟨strsz - 1, by omega⟩
    -- what is left to compare is the last place
    have hlast : order (k + 1) (padded m s) (padded n t) = verdict (padded m s k).toNat (padded n t k).toNat :=
      (andThen_of_eq_zero (order_eq_zero.2 heq)).trans cmpOn_eq_verdict
    have hn0 := padded_eq_zero ht (k := k)
    have hzero : ∀ b : BitVec 8, b.toNat = 0 ↔ b = 0 := fun b => toNat_inj (y := 0)
    rw [hrun, hlast, forall_prop_of_true heq, selfOrder, Nat.add_sub_cancel]
    rcases Nat.lt_or_ge m k with hlt | hge
    · rw [(padded_eq_zero hs).2 hlt.le, hn0.2 (by omega)]
      have hvac : ∀ j, j + 1 = k + 1 → n = k + 1 → j ≤ m → t j < s j := by
        intro j hj hn hjm
        omega
      split
      · exact ⟨fun _ => ⟨by omega, hvac⟩, fun _ => rfl⟩
      · rw [show verdict (BitVec.toNat 0) (BitVec.toNat 0) = 0 from rfl, verdict_eq_zero, hzero]
        exact ⟨fun h => ⟨fun _ => h, hvac⟩, fun h => h.1 (by omega)⟩
    · rw [if_neg (by omega), padded_of_le hs hge, verdict_zero_eq, hzero, hn0, ← lt_def]
      constructor
      · rintro h
        refine ⟨by omega, fun j hj hfull _ => ?_⟩
        obtain rfl : j = k := by omega
        have hlt := h.resolve_left (by omega)
        rwa [padded_of_le ht (by omega)] at hlt
      · rintro ⟨-, h⟩
        rcases Nat.lt_or_ge k n with hkn | hnk
        · rw [padded_of_le ht hkn.le]
          exact .inr (h k rfl (by omega) hge)
        · exact .inl hnk
  · have hne : ∃ i < strsz - 1, padded m s i ≠ padded n t i := by simpa using heq
    simp [heq, dtStrcmp_of_ne hs ht hsz tmp1 tmp2 hne]

end

/-- One character and zeros. -/
def oneChar (c : BitVec 8) : Buf := fun i => if i = 0 then c else 0

/-- A string is above itself: one with as many characters as there can be, and one that has two less and a byte behind
it. -/
theorem dtStrcmp_byte_behind : StrAt 2 (padded 2 fun _ => 97) ∧
    dtStrcmp 2 (padded 2 fun _ => 97) (padded 2 fun _ => 97) (fun _ => 0) (fun _ => 0) = 1 ∧
    StrAt 1 (update (oneChar 97) 2 97) ∧
    order 3 (padded 1 (update (oneChar 97) 2 97)) (padded 1 (oneChar 97)) = 0 ∧
    dtStrcmp 3 (update (oneChar 97) 2 97) (oneChar 97) (fun _ => 0) (fun _ => 0) = 1 :=
  ⟨⟨by decide, by decide⟩, by decide +kernel, ⟨by decide, by decide⟩, by decide, by decide +kernel⟩

end DTrace.Bpf
