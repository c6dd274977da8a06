import DTrace.Bpf.Str

/-!
# Numbers as strings

`dt_lltostr` writes the digits of a number to its stack, the last one first, and copies them.  It does not write a
final 0 if the number takes all the room that there is.  Its callers in the code generator are not modelled here: the
buffer, its contents and the size of strings are any.

* `dtLltostr` — the function of `lltostr.S`;
* `lltostrLoop_spec` — the digits on the stack;
* `lltostr_iff` — when the result is the text of the number, cut to the size of strings.
-/

namespace DTrace.Bpf

open List Function Nat

/-- The loop over the digits, with `n` places left; `stk` is indexed by the distance from the frame pointer. -/
def lltostrLoop : ℕ → ℕ → ℕ → Buf → ℕ × Buf
  | 0, _, idx, stk => (idx, stk)
  | n + 1, val, idx, stk =>
    if val = 0 then (idx, stk)
    else lltostrLoop n (val / 10) (idx + 1) (update stk idx (BitVec.ofNat 8 (val % 10 + 48)))

/-- `MAXCHARS`. -/
def maxChars : ℕ := 19

/-- `dt_lltostr`. -/
def dtLltostr (strsz : ℕ) (v : BitVec 64) (stk str : Buf) : Buf :=
  let sgn := v >>> 63
  let val := v * (1#64 - sgn - sgn)
  let (idx, stk) := lltostrLoop maxChars val.toNat 1 (update stk 1 48)
  let idx := if idx ≤ 1 then idx else idx - 1
  let idx := min (max idx 1) maxChars + sgn.toNat
  let len := min idx strsz
  let str := probeRead str len fun i => stk (idx - i)
  let str := if sgn = 0#64 then str else update str 0 45
  if len < strsz then update str len 0 else str

def digitsText (n : ℕ) : List (BitVec 8) :=
  if n = 0 then [48] else (Nat.digits 10 n).reverse.map fun d => BitVec.ofNat 8 (d + 48)

/-- The decimal text of a signed number. -/
def decimalText (v : BitVec 64) : List (BitVec 8) := (if v.toInt < 0 then [45] else []) ++ digitsText v.toInt.natAbs

section

variable {n val idx i : ℕ}

lemma lltostrLoop_spec (hval : val < 10 ^ n) (stk : Buf) :
    (lltostrLoop n val idx stk).1 = idx + (Nat.digits 10 val).length ∧
      (∀ i (hi : i < (Nat.digits 10 val).length),
        (lltostrLoop n val idx stk).2 (idx + i) = BitVec.ofNat 8 ((Nat.digits 10 val)[i] + 48)) ∧
      ∀ i < idx, (lltostrLoop n val idx stk).2 i = stk i := by
  induction n generalizing val idx stk with
  | zero =>
    obtain rfl : val = 0 := by simpa using hval
    simp [lltostrLoop]
  | succ n ih =>
    rw [lltostrLoop]
    split
    · next h0 =>
      subst h0
      simp
    · next h0 =>
      have hdiv : val / 10 < 10 ^ n := by
        rw [div_lt_iff_lt_mul (by omega)]
        omega
      obtain ⟨hidx, hnew, hold⟩ := @ih (val / 10) (idx + 1) hdiv
        (update stk idx (.ofNat 8 (val % 10 + 48)))
      rw [digits_def' (by omega) (by omega)]
      refine ⟨by rw [hidx, length_cons]; omega, fun i hi => ?_, fun i hi => ?_⟩
      · cases i with
        | zero => exact (hold idx (by omega)).trans (update_self ..)
        | succ i =>
          rw [show idx + (i + 1) = idx + 1 + i by omega, hnew i (by simpa using hi)]
          rfl
      · rw [hold i (by omega), update_of_ne hi.ne]

/-- The number of digits, and where they are. -/
lemma digits_on_stack (hval : val < 10 ^ maxChars) (stk : Buf) : let r := lltostrLoop maxChars val 1 (update stk 1 48)
    min (max (if r.1 ≤ 1 then r.1 else r.1 - 1) 1) maxChars = (digitsText val).length ∧
      ∀ i < (digitsText val).length, r.2 ((digitsText val).length - i) = (digitsText val).getD i 0 := by
  intro r
  by_cases h0 : val = 0
  · subst h0
    refine ⟨rfl, fun i hi => ?_⟩
    obtain rfl : i = 0 := lt_one_iff.1 hi
    rfl
  · obtain ⟨hidx, hnew, -⟩ := @lltostrLoop_spec _ _ 1 hval (update stk 1 48)
    have hlen := (digits_length_le_iff (by omega) val).2 hval
    have hpos : 0 < (Nat.digits 10 val).length := length_pos_iff.2 (digits_ne_nil_iff_ne_zero.2 h0)
    rw [digitsText, if_neg h0, length_map, length_reverse]
    refine ⟨by rw [hidx, if_neg (by omega)]; omega, fun i hi => ?_⟩
    have := hnew ((Nat.digits 10 val).length - 1 - i) (by omega)
    rw [show 1 + ((Nat.digits 10 val).length - 1 - i) = (Nat.digits 10 val).length - i by omega] at this
    rw [this, getD_eq_getElem?_getD, getElem?_map, getElem?_reverse hi]
    simp [getElem?_eq_getElem (show (Nat.digits 10 val).length - 1 - i < (Nat.digits 10 val).length by omega)]

end

section

variable {strsz : ℕ} {v : BitVec 64}

lemma sign_eq (v : BitVec 64) : v >>> 63 = if v.toInt < 0 then 1#64 else 0#64 := by
  apply BitVec.eq_of_toNat_eq
  have hint := BitVec.toInt_eq_toNat_cond v
  rw [BitVec.toNat_ushiftRight, shiftRight_eq_div_pow]
  split_ifs at hint ⊢ <;> simp <;> omega

lemma magnitude_eq (v : BitVec 64) : (v * (1#64 - v >>> 63 - v >>> 63)).toNat = v.toInt.natAbs := by
  have habs := Lib.ofNat_natAbs v
  have hle : v.toInt.natAbs < 2 ^ 64 := by
    have := v.toInt_lt
    have := v.le_toInt
    omega
  rw [sign_eq]
  split
  · rw [if_neg (by omega)] at habs
    rw [show 1#64 - 1#64 - 1#64 = -1#64 from rfl, BitVec.mul_neg, BitVec.mul_one, ← habs, BitVec.toNat_ofNat,
      mod_eq_of_lt hle]
  · rw [if_pos (by omega)] at habs
    rw [show 1#64 - 0#64 - 0#64 = 1#64 from rfl, BitVec.mul_one]
    nth_rewrite 1 [← habs]
    rw [BitVec.toNat_ofNat, mod_eq_of_lt hle]

/-- What the function leaves: the text as far as there is room, and a 0 behind it if there is more room. -/
lemma dtLltostr_bytes (stk str : Buf) :
    (∀ i < min (decimalText v).length strsz, dtLltostr strsz v stk str i = (decimalText v).getD i 0) ∧
    ((decimalText v).length < strsz → dtLltostr strsz v stk str (decimalText v).length = 0) ∧
    (strsz ≤ (decimalText v).length →
      dtLltostr strsz v stk str strsz = if strsz = 0 ∧ v.toInt < 0 then 45 else str strsz) := by
  have hval : v.toInt.natAbs < 10 ^ maxChars := by
    have := v.toInt_lt
    have := v.le_toInt
    rw [maxChars]
    omega
  obtain ⟨hidx, hstk⟩ := digits_on_stack hval stk
  have hlen : (digitsText v.toInt.natAbs).length + (v >>> 63).toNat = (decimalText v).length := by
    rw [sign_eq, decimalText]
    split <;> simp [add_comm]
  -- before the final 0
  let s := probeRead str (min (decimalText v).length strsz) fun i =>
    (lltostrLoop maxChars v.toInt.natAbs 1 (update stk 1 48)).2 ((decimalText v).length - i)
  have hrun : dtLltostr strsz v stk str = (if min (decimalText v).length strsz < strsz then
      update (if v.toInt < 0 then update s 0 45 else s) (min (decimalText v).length strsz) 0
      else if v.toInt < 0 then update s 0 45 else s) := by
    rw [dtLltostr]
    simp only [magnitude_eq, hidx, hlen, s]
    have hsgn : (v >>> 63 = 0#64) = ¬v.toInt < 0 := by
      rw [sign_eq]
      split <;> simp [*]
    simp only [hsgn, ite_not]
  have hs : ∀ i < min (decimalText v).length strsz,
      (if v.toInt < 0 then update s 0 45 else s) i = (decimalText v).getD i 0 := by
    intro i hi
    have hread : s i = (lltostrLoop maxChars v.toInt.natAbs 1 (update stk 1 48)).2
        ((decimalText v).length - i) := if_pos hi
    by_cases hneg : v.toInt < 0
    · have htext : decimalText v = 45 :: digitsText v.toInt.natAbs := by rw [decimalText, if_pos hneg]; rfl
      rw [if_pos hneg]
      rw [htext] at hi hread ⊢
      cases i with
      | zero => exact update_self ..
      | succ i =>
        rw [length_cons] at hi hread
        rw [update_of_ne (Nat.succ_ne_zero i), hread, Nat.add_sub_add_right, hstk i (by omega)]
        rfl
    · have htext : decimalText v = digitsText v.toInt.natAbs := by rw [decimalText, if_neg hneg]; rfl
      rw [htext] at hi hread ⊢
      rw [if_neg hneg, hread, hstk i (by omega)]
  rw [hrun]
  refine ⟨fun i hi => ?_, fun hlt => ?_, fun hle => ?_⟩
  · split
    · rw [update_of_ne hi.ne, hs i hi]
    · exact hs i hi
  · rw [min_eq_left hlt.le, if_pos hlt, update_self]
  · have hread : s strsz = str strsz := if_neg (by omega)
    rw [min_eq_right hle, if_neg (lt_irrefl _)]
    by_cases h0 : strsz = 0
    · subst h0
      split <;> simp [*]
    · simp only [h0, false_and, if_false]
      split
      · rw [update_of_ne h0, hread]
      · exact hread

lemma zero_notMem_decimalText (v : BitVec 64) : 0 ∉ decimalText v := by
  have hdigit : ∀ d < 10, BitVec.ofNat 8 (d + 48) ≠ 0 := by decide
  intro h
  rcases mem_append.1 h with h | h
  · split at h <;> simp at h
  · unfold digitsText at h
    split at h
    · simp at h
    · obtain ⟨d, hd, h0⟩ := mem_map.1 h
      exact hdigit d (digits_lt_base (by omega) (mem_reverse.1 hd)) h0

/-- The buffer holds the text of the number, cut to the size of strings, if the text is shorter than that, and
otherwise if there was a 0 behind it before. -/
theorem lltostr_iff (v : BitVec 64) (stk str : Buf) :
    Holds (dtLltostr strsz v stk str) ((decimalText v).take strsz) ↔
      (decimalText v).length < strsz ∨ str strsz = 0 ∧ (strsz = 0 → 0 ≤ v.toInt) := by
  obtain ⟨hchars, hlast, hfull⟩ := @dtLltostr_bytes strsz v stk str
  have hchars' : 0 ∉ (decimalText v).take strsz := fun h => zero_notMem_decimalText _ (mem_of_mem_take h)
  have hbytes : ∀ i < ((decimalText v).take strsz).length,
      dtLltostr strsz v stk str i = ((decimalText v).take strsz).getD i 0 := by
    intro i hi
    rw [length_take] at hi
    rw [hchars i (by omega), getD_eq_getElem?_getD, getD_eq_getElem?_getD,
      getElem?_take_of_lt (by omega)]
  -- what is left is the byte behind the text
  have hiff : Holds (dtLltostr strsz v stk str) ((decimalText v).take strsz) ↔
      dtLltostr strsz v stk str ((decimalText v).take strsz).length = 0 := by
    refine ⟨fun h => h.strAt.nul, fun h0 => ⟨hchars', fun i hi => ?_⟩⟩
    rcases hi.lt_or_eq with hlt | rfl
    · exact hbytes i hlt
    · rw [h0, getD_eq_default _ _ le_rfl]
  rw [hiff, length_take]
  rcases lt_or_ge (decimalText v).length strsz with hlt | hge
  · rw [min_eq_right hlt.le]
    exact iff_of_true (hlast hlt) (.inl hlt)
  · rw [min_eq_left hge, hfull hge, or_iff_right (by omega)]
    split
    · next h =>
      refine iff_of_false (by decide) fun hc => ?_
      omega
    · next h => exact ⟨fun h0 => ⟨h0, fun hz => by_contra fun hn => h ⟨hz, by omega⟩⟩, fun h0 => h0.1⟩

end

/-- The number 12 in a buffer of three bytes that are not 0: there is no final 0. -/
theorem lltostr_full : ¬ ∃ i ≤ 2, dtLltostr 2 12 (fun _ => 0) (fun _ => 120) i = 0 := by decide +kernel

end DTrace.Bpf
