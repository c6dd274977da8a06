import DTrace.Bpf.Strcmp
import Mathlib.Data.List.DropRight
import Mathlib.Data.List.GetD

/-!
# Characters in strings

`dt_strchr` overwrites a copy of the string so that the character it looks for becomes the end of the copy,
`dt_strrchr` goes back in a copy.  Both copies have one character less than a string can have.

* `Holds` — a string in a buffer, with anything behind it;
* `probeRead`, `backUp` — copies of bytes, and loops that go back in a string;
* `dtStrchr`, `dtStrrchr` — the functions of `strchr.S` and `strrchr.S`;
* `strchr_iff` — when they return what the functions of C do;
* `dtSubstr`, `dtSubstr_holds` — the function of `substr.S`, and the part of the string that it returns.
-/

namespace DTrace.Bpf

open List Function

/-- The buffer holds the string, without its final 0 in the list. -/
structure Holds (d : Buf) (l : List (BitVec 8)) : Prop where
  chars : 0 ∉ l
  bytes : ∀ i ≤ l.length, d i = l.getD i 0

/-- A string and zeros. -/
def text (l : List (BitVec 8)) : Buf := fun i => l.getD i 0

/-- `bpf_probe_read`. -/
def probeRead (dst : Buf) (n : ℕ) (src : Buf) : Buf := fun i => if i < n then src i else dst i

/-- The loops that go back from `n` while characters satisfy `p`; `none` at the start of the string. -/
def backUp (p : BitVec 8 → Bool) (d : Buf) : ℕ → Option ℕ
  | 0 => none
  | n + 1 => if p (d n) then backUp p d n else some n

variable {l : List (BitVec 8)} {src : Buf}

section

variable {d : Buf} {n k : ℕ}

lemma Holds.get (h : Holds d l) (hk : k < l.length) : d k = l[k] := by
  rw [h.bytes k hk.le, getD_eq_getElem _ _ hk]

lemma Holds.strAt (h : Holds d l) : StrAt l.length d where
  chars i hi h0 := h.chars (h0 ▸ h.get hi ▸ getElem_mem hi)
  nul := by rw [h.bytes _ le_rfl, getD_eq_default _ _ le_rfl]

lemma Holds.length_eq {l' : List (BitVec 8)} (h : Holds d l) (h' : Holds d l') : l.length = l'.length := by
  rcases Nat.lt_trichotomy l.length l'.length with hlt | heq | hgt
  · exact absurd h.strAt.nul (h'.strAt.chars _ hlt)
  · exact heq
  · exact absurd h'.strAt.nul (h.strAt.chars _ hgt)

lemma Holds.drop (h : Holds d l) (hk : k ≤ l.length) : Holds (fun i => d (k + i)) (l.drop k) where
  chars h0 := h.chars (mem_of_mem_drop h0)
  bytes i hi := by
    rw [length_drop] at hi
    rw [h.bytes (k + i) (by omega), getD_eq_getElem?_getD, getD_eq_getElem?_getD, getElem?_drop]

/-- A buffer that has the first characters of the string, and 0 behind them. -/
lemma Holds.cut (h : Holds src l) (hn : n ≤ l.length) (hd : ∀ i < n, d i = src i) (h0 : d n = 0) :
    Holds d (l.take n) where
  chars hm := h.chars (mem_of_mem_take hm)
  bytes i hi := by
    rw [length_take_of_le hn] at hi
    rcases hi.lt_or_eq with hlt | rfl
    · rw [hd i hlt, h.bytes i (by omega), getD_eq_getElem?_getD, getD_eq_getElem?_getD,
        getElem?_take_of_lt hlt]
    · rw [h0, getD_eq_default _ _ (length_take_le _ _)]

/-- What `bpf_probe_read_str` returns and leaves. -/
lemma Holds.read (h : Holds src l) (dst : Buf) (size : ℕ) :
    (probeReadStr dst size src).1 = (l.take (size - 1)).length + 1 ∧
      Holds (probeReadStr dst size src).2 (l.take (size - 1)) := by
  rw [probeReadStr_eq h.strAt, length_take, min_comm, take_eq_take_min]
  refine ⟨rfl, h.cut (min_le_right _ _) (fun i hi => if_pos hi) ?_⟩
  exact (if_neg (lt_irrefl _)).trans (if_pos rfl)

lemma Holds.copied (h : Holds src l) (hn : n ≤ l.length) (dst : Buf) :
    Holds (update (probeRead dst n src) n 0) (l.take n) := by
  refine h.cut hn (fun i hi => ?_) (update_self ..)
  rw [update_of_ne hi.ne, probeRead, if_pos hi]

lemma rtakeWhile_eq_drop {p : BitVec 8 → Bool} (h : l.rdropWhile p = l.take k) : l.rtakeWhile p = l.drop k := by
  have happ := rdropWhile_append_rtakeWhile (p := p) (l := l)
  rw [h] at happ
  exact append_cancel_left (happ.trans (take_append_drop k l).symm)

lemma backUp_spec (p : BitVec 8 → Bool) (h : Holds d l) (hn : n ≤ l.length) :
    match backUp p d n with
    | none => (l.take n).rdropWhile p = []
    | some k => k < n ∧ p (d k) = false ∧ (l.take n).rdropWhile p = l.take (k + 1) := by
  induction n with
  | zero => simp [backUp]
  | succ n ih =>
    have htake : l.take (n + 1) = l.take n ++ [d n] := by rw [h.get hn, take_concat_get' l n hn]
    rw [backUp]
    by_cases hp : p (d n) = true
    · rw [if_pos hp, htake, rdropWhile_concat_pos _ _ _ hp]
      have := ih (by omega)
      split at this
      · exact this
      · exact ⟨by omega, this.2⟩
    · rw [if_neg hp, htake, rdropWhile_concat_neg _ _ _ hp]
      exact ⟨by omega, Bool.eq_false_iff.2 hp, htake.symm⟩

end

/-! ## `strchr()` and `strrchr()` -/

/-- The loop that changes `n` words of the copy, the last one first.  Every byte of the other operand is the
character. -/
def dtStrchrXor (c : BitVec 8) : ℕ → Buf → Buf
  | 0, d => d
  | n + 1, d => dtStrchrXor c n fun i => if 8 * n ≤ i ∧ i < 8 * n + 8 then d i ^^^ c else d i

/-- `dt_strchr`; `none` for `-1`. -/
def dtStrchr (strsz : ℕ) (src : Buf) (c : BitVec 8) (dst tmp : Buf) : Option Buf :=
  let (r6, dst) := probeReadStr dst strsz src
  if r6 ≤ 1 then none
  else
    let r6 := r6 - 1
    let dst := update (dtStrchrXor c ((r6 + 7) / 8) dst) r6 0
    let r8 := (probeReadStr tmp (r6 + 1) dst).1 - 1
    if r6 - r8 = 0 then none
    else some (update (probeRead dst (r6 - r8) fun i => src (r8 + i)) (r6 - r8) 0)

/-- `dt_strrchr`; `none` for `-1`. -/
def dtStrrchr (strsz : ℕ) (src : Buf) (c : BitVec 8) (dst : Buf) : Option Buf :=
  let (r0, dst) := probeReadStr dst strsz src
  let r6 := r0 - 1
  (backUp (· ≠ c) dst r6).map fun r8 =>
    update (probeRead dst (r6 - r8) fun i => src (r8 + i)) (r6 - r8) 0

/-- `strchr` of C: from the first occurrence on. -/
def strchr (c : BitVec 8) (l : List (BitVec 8)) : Option (List (BitVec 8)) :=
  if c ∈ l then some (l.drop (l.idxOf c)) else none

/-- `strrchr` of C: the last occurrence, and what is behind it. -/
def strrchr (c : BitVec 8) (l : List (BitVec 8)) : Option (List (BitVec 8)) :=
  if c ∈ l then some (c :: l.rtakeWhile (· ≠ c)) else none

variable {strsz : ℕ}

section

variable {c : BitVec 8}

lemma dtStrchrXor_eq (n : ℕ) (d : Buf) (i : ℕ) : dtStrchrXor c n d i = if i < 8 * n then d i ^^^ c else d i := by
  induction n generalizing d with
  | zero => simp [dtStrchrXor]
  | succ n ih =>
    rw [dtStrchrXor, ih]
    split_ifs <;> first | rfl | omega

/-- The string from `k` on, as far as the copy goes. -/
lemma Holds.suffix {k : ℕ} (h : Holds src l) (dst : Buf) (hk : k ≤ (l.take (strsz - 1)).length) :
    Holds (update (probeRead dst ((l.take (strsz - 1)).length - k) fun i => src (k + i))
      ((l.take (strsz - 1)).length - k) 0) ((l.take (strsz - 1)).drop k) := by
  have hlen := length_take_le' (strsz - 1) l
  have heq : (l.take (strsz - 1)).drop k = (l.drop k).take ((l.take (strsz - 1)).length - k) := by
    rw [drop_take, length_take, take_eq_take_iff, length_drop]
    omega
  rw [heq]
  exact (h.drop (by omega)).copied (by rw [length_drop]; omega) dst

/-- The first 0 in the changed copy is where the character was, or the one at the end. -/
lemma first_changed (h : Holds src l) (tmp : Buf) :
    (probeReadStr tmp (l.length + 1) (update (dtStrchrXor c ((l.length + 7) / 8) src) l.length 0)
    ).1 - 1 = l.idxOf c := by
  have hd : ∀ i (hi : i < l.length),
      update (dtStrchrXor c ((l.length + 7) / 8) src) l.length 0 i = 0 ↔ l[i] = c := by
    intro i hi
    rw [update_of_ne hi.ne, dtStrchrXor_eq, if_pos (by omega), h.get hi]
    exact BitVec.xor_eq_zero_iff
  rw [probeReadStr, Nat.add_sub_cancel, Nat.add_sub_cancel]
  refine le_antisymm ?_ (le_findIdx_range idxOf_le_length fun i hi => decide_eq_false fun h0 => ?_)
  · rcases (idxOf_le_length (a := c)).lt_or_eq with hlt | heq
    · exact findIdx_range_le (decide_eq_true ((hd _ hlt).2 (getElem_idxOf hlt)))
    · rw [heq]
      exact findIdx_le_length.trans_eq length_range
  · have := not_of_lt_findIdx hi
    simp [(hd i (hi.trans_le idxOf_le_length)).1 h0] at this

/-- What `dt_strchr` returns is right for the part of the string that is copied. -/
lemma dtStrchr_eq (h : Holds src l) (dst tmp : Buf) :
    Option.Rel Holds (dtStrchr strsz src c dst tmp) (strchr c (l.take (strsz - 1))) := by
  obtain ⟨hr6, hcopy⟩ := h.read dst strsz
  rw [dtStrchr, strchr]
  simp only [hr6, Nat.add_sub_cancel, first_changed hcopy]
  by_cases hm : c ∈ l.take (strsz - 1)
  · have hlt := idxOf_lt_length_iff.2 hm
    rw [if_pos hm, if_neg (by omega), if_neg (by omega)]
    exact .some (h.suffix _ hlt.le)
  · rw [if_neg hm, idxOf_of_notMem hm, Nat.sub_self, if_pos rfl, ite_self]
    exact .none

lemma dtStrrchr_eq (h : Holds src l) (dst : Buf) :
    Option.Rel Holds (dtStrrchr strsz src c dst) (strrchr c (l.take (strsz - 1))) := by
  obtain ⟨hr0, hcopy⟩ := h.read dst strsz
  have hback := backUp_spec (· ≠ c) hcopy le_rfl
  rw [take_length] at hback
  rw [dtStrrchr, strrchr]
  simp only [hr0, Nat.add_sub_cancel]
  split at hback
  · next hr8 =>
    rw [hr8, if_neg fun hm => by simpa using rdropWhile_eq_nil_iff.1 hback c hm]
    exact .none
  · next k hr8 =>
    obtain ⟨hk, hc, hback⟩ := hback
    have hlast : (l.take (strsz - 1))[k] = c := (hcopy.get hk).symm.trans (by simpa using hc)
    rw [hr8, rtakeWhile_eq_drop hback, if_pos (hlast ▸ getElem_mem hk)]
    nth_rewrite 1 [← hlast]
    rw [← drop_eq_getElem_cons]
    exact .some (h.suffix _ hk.le)

/-- Strings of at most `strsz` characters: what is returned is right if the string is shorter, or the character does
not occur.  A last character that there is no room for in the copies is lost. -/
theorem strchr_iff (h : Holds src l) (hl : l.length ≤ strsz) (dst tmp : Buf) :
    (Option.Rel Holds (dtStrchr strsz src c dst tmp) (strchr c l) ∧
      Option.Rel Holds (dtStrrchr strsz src c dst) (strrchr c l)) ↔ l.length < strsz ∨ c ∉ l := by
  have hchr : Option.Rel Holds (dtStrchr strsz src c dst tmp) _ := dtStrchr_eq h dst tmp
  have hrchr : Option.Rel Holds (dtStrrchr strsz src c dst) _ := dtStrrchr_eq h dst
  rcases Nat.lt_or_ge l.length strsz with hlt | hge
  · rw [take_of_length_le (by omega)] at hchr hrchr
    exact iff_of_true ⟨hchr, hrchr⟩ (.inl hlt)
  · by_cases hm : c ∈ l
    · refine iff_of_false (fun hboth => ?_) (by simpa [hm] using hge)
      -- both strings would begin at the first occurrence, and end at different places
      have hright := hboth.1
      rw [strchr, if_pos hm] at hright
      by_cases hm' : c ∈ l.take (strsz - 1)
      · rw [strchr, if_pos hm'] at hchr
        generalize dtStrchr strsz src c dst tmp = r at hchr hright
        rcases hchr with h₁ | _
        rcases hright with h₂ | _
        have hlen := h₁.length_eq h₂
        rw [← take_append_drop (strsz - 1) l, idxOf_append_of_mem hm', take_append_drop] at hlen
        have := idxOf_lt_length_iff.2 hm'
        simp only [length_drop, length_take] at hlen this
        omega
      · rw [strchr, if_neg hm'] at hchr
        generalize dtStrchr strsz src c dst tmp = r at hchr hright
        cases hchr
        cases hright
    · have hm' : c ∉ l.take (strsz - 1) := fun h => hm (mem_of_mem_take h)
      rw [strchr, if_neg hm'] at hchr
      rw [strrchr, if_neg hm'] at hrchr
      rw [strchr, if_neg hm, strrchr, if_neg hm]
      exact iff_of_true ⟨hchr, hrchr⟩ (.inr hm)

end

/-- Strings of two characters with room for a third. -/
theorem strchr_ab : Option.Rel Holds (dtStrchr 3 (text [97, 98]) 98 (text [1]) (text [2])) (some [98]) ∧
    Option.Rel Holds (dtStrrchr 3 (text [97, 98]) 98 (text [1])) (some [98]) :=
  (strchr_iff ⟨by decide, fun _ _ => rfl⟩ (by decide) _ _).2 (.inl (by decide))

/-- Without that room, `strchr("ab", 'a')` is `"a"`, and `strrchr("ab", 'b')` is `NULL`. -/
theorem strchr_full : (∃ d, dtStrchr 2 (text [97, 98]) 97 (text []) (text []) = some d ∧ Holds d [97]) ∧
    dtStrrchr 2 (text [97, 98]) 98 (text []) = none :=
  ⟨⟨_, rfl, by decide, by decide +kernel⟩, by decide +kernel⟩

/-! ## `substr()` -/

/-- The label `Lempty`. -/
def emptyStr (dst : Buf) : Buf := update dst 0 0

/-- From the label `Lcopy` on: `cnt` characters from `idx` on. -/
def copySlice (strsz : ℕ) (dst src : Buf) (idx cnt : ℤ) : Buf :=
  (probeReadStr dst ((min cnt strsz).toNat + 1) fun i => src (idx.toNat + i)).2

/-- From the label `Lcheck_idx` on. -/
def checkIdx (strsz : ℕ) (dst src : Buf) (len idx cnt : ℤ) : Buf :=
  if len ≤ idx then emptyStr dst
  else if 0 ≤ cnt then copySlice strsz dst src idx cnt
  else if cnt + (len - idx) ≤ 0 then emptyStr dst
  else copySlice strsz dst src idx (cnt + (len - idx))

/-- `dt_substr`.  The sums of sign-extended numbers and lengths of strings are within 64 bits. -/
def dtSubstr (strsz : ℕ) (dst src : Buf) (idx : BitVec 32) (cnt : Option (BitVec 32)) : Buf :=
  let r6 := idx.toInt
  let r7 := cnt.elim (strsz : ℤ) BitVec.toInt
  let (r0, dst) := probeReadStr dst (strsz + 1) src
  if r0 ≤ 1 then emptyStr dst
  else
    let len : ℤ := (r0 - 1 : ℕ)
    if 0 ≤ r6 then checkIdx strsz dst src len r6 r7
    else if 0 ≤ r6 + len then checkIdx strsz dst src len (r6 + len) r7
    else if r7 ≤ -(r6 + len) then emptyStr dst
    else checkIdx strsz dst src len 0 (r7 + (r6 + len))

/-- The part of a string that an index and a count stand for. -/
def substr (l : List (BitVec 8)) (idx cnt : ℤ) : List (BitVec 8) :=
  let len : ℤ := l.length
  let i := if idx < 0 then len + idx else idx
  let (i, cnt) := if i < 0 ∧ 0 < i + cnt then (0, cnt + i) else (i, cnt)
  if i < 0 ∨ len ≤ i then []
  else if cnt < 0 then (l.take (len + cnt).toNat).drop i.toNat
  else (l.take (min len (i + cnt)).toNat).drop i.toNat

section

variable {idx cnt : ℤ}

lemma holds_emptyStr (dst : Buf) : Holds (emptyStr dst) [] where
  chars := not_mem_nil
  bytes i hi := by
    obtain rfl : i = 0 := Nat.le_zero.1 hi
    exact update_self ..

lemma holds_copySlice (h : Holds src l) (hl : l.length ≤ strsz) (dst : Buf) (hidx : 0 ≤ idx) (hlt : idx < l.length)
    (hcnt : 0 ≤ cnt) : Holds (copySlice strsz dst src idx cnt)
      ((l.take (min (l.length : ℤ) (idx + cnt)).toNat).drop idx.toNat) := by
  have heq : (l.take (min (l.length : ℤ) (idx + cnt)).toNat).drop idx.toNat =
      (l.drop idx.toNat).take ((min cnt strsz).toNat + 1 - 1) := by
    rw [drop_take, take_eq_take_iff, length_drop]
    omega
  rw [heq]
  exact ((h.drop (by omega)).read dst _).2

lemma holds_checkIdx (h : Holds src l) (hl : l.length ≤ strsz) (dst : Buf) (hidx : 0 ≤ idx) :
    Holds (checkIdx strsz dst src l.length idx cnt)
      (if (l.length : ℤ) ≤ idx then [] else if cnt < 0 then (l.take (l.length + cnt).toNat).drop idx.toNat
        else (l.take (min (l.length : ℤ) (idx + cnt)).toNat).drop idx.toNat) := by
  unfold checkIdx
  split
  · exact holds_emptyStr dst
  · next hlt =>
    rcases lt_or_ge cnt 0 with hneg | hcnt
    · rw [if_neg (by omega), if_pos hneg]
      split
      · rw [drop_eq_nil_of_le (by rw [length_take]; omega)]
        exact holds_emptyStr dst
      · have hcopy : Holds (copySlice strsz dst src idx (cnt + (l.length - idx))) _ :=
          holds_copySlice h hl dst hidx (by omega) (by omega)
        rwa [show min (l.length : ℤ) (idx + (cnt + (l.length - idx))) = l.length + cnt by omega] at hcopy
    · rw [if_pos hcnt, if_neg (by omega)]
      exact holds_copySlice h hl dst hidx (by omega) hcnt

/-- `substr()` returns the part of the string that the index and the count stand for; without a count, the count is
the size of strings. -/
theorem dtSubstr_holds (h : Holds src l) (hl : l.length ≤ strsz) (dst : Buf) (idx : BitVec 32)
    (cnt : Option (BitVec 32)) :
    Holds (dtSubstr strsz dst src idx cnt) (substr l idx.toInt (cnt.elim (strsz : ℤ) BitVec.toInt)) := by
  obtain ⟨hr0, -⟩ := h.read dst (strsz + 1)
  rw [Nat.add_sub_cancel, take_of_length_le hl] at hr0
  rw [dtSubstr, substr]
  simp only [hr0, Nat.add_sub_cancel]
  generalize idx.toInt = r6
  generalize cnt.elim (strsz : ℤ) BitVec.toInt = r7
  generalize (probeReadStr dst (strsz + 1) src).2 = d
  by_cases hlen : l.length + 1 ≤ 1
  · rw [if_pos hlen, if_pos (by split_ifs <;> omega)]
    exact holds_emptyStr d
  have hcheck : ∀ i c : ℤ, 0 ≤ i → ¬(i < 0 ∧ 0 < i + c) ∧ ((i < 0 ∨ (l.length : ℤ) ≤ i) = ((l.length : ℤ) ≤ i)) :=
    fun i c hi => ⟨by omega, by simp [not_lt.2 hi]⟩
  rw [if_neg hlen]
  by_cases h6 : 0 ≤ r6
  · rw [if_pos h6, if_neg (not_lt.2 h6), if_neg (hcheck r6 r7 h6).1]
    simp only [(hcheck r6 r7 h6).2]
    exact holds_checkIdx h hl d h6
  rw [if_neg h6, if_pos (not_le.1 h6), add_comm r6]
  by_cases hi : 0 ≤ l.length + r6
  · rw [if_pos hi, if_neg (hcheck _ r7 hi).1]
    simp only [(hcheck _ r7 hi).2]
    exact holds_checkIdx h hl d hi
  rw [if_neg hi]
  by_cases h7 : r7 ≤ -(l.length + r6)
  · rw [if_pos h7, if_neg fun hc : _ ∧ _ => by omega, if_pos (.inl (not_le.1 hi))]
    exact holds_emptyStr d
  · have hcnt : l.length + r6 < 0 ∧ 0 < l.length + r6 + r7 := by omega
    rw [if_neg h7, if_pos hcnt]
    simp only [(hcheck 0 r7 le_rfl).2]
    exact holds_checkIdx h hl d le_rfl

end

/-- `substr("abc", -4, 2)` is `"a"`. -/
example : Holds (dtSubstr 3 (text []) (text [97, 98, 99]) (-4) (some 2)) [97] :=
  dtSubstr_holds ⟨by decide, fun _ _ => rfl⟩ (by decide) _ _ _

end DTrace.Bpf
