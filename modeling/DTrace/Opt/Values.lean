import DTrace.Lib.Bytes

/-!
# Values of options

Sizes and rates are numbers with a suffix.  The number is read by `strtoull` and multiplied in 64 bits; the type of
values is unsigned, so that the tests for negative values look at nothing.

* `scan` — the numeral that `strtoull` and `strtoll` read;
* `dtOptvalParse`, `dtOptRate` — sizes and rates;
* `sizeExact`, `rateExact` — what the string says, over the integers;
* `values_iff` — a value that is taken is the exact one if there is a numeral and the product is within 64 bits.
-/

namespace DTrace.Opt

open Lib BitVec Option Nat

/-! ## Numerals -/

def isSpace (c : BitVec 8) : Bool := c = 32 || (9 ≤ c.toNat && c.toNat ≤ 13)

/-- The value of a digit; 36 for what is none. -/
def digit (c : BitVec 8) : ℕ :=
  if 48 ≤ c.toNat ∧ c.toNat ≤ 57 then c.toNat - 48
  else if 97 ≤ c.toNat ∧ c.toNat ≤ 122 then c.toNat - 87
  else if 65 ≤ c.toNat ∧ c.toNat ≤ 90 then c.toNat - 55
  else 36

/-- The sign: whether it is `-`, and what is behind it. -/
def sign : Bytes → Bool × Bytes
  | 45 :: s => (true, s)
  | 43 :: s => (false, s)
  | s => (false, s)

/-- The base, and where the digits begin: `0x` if a digit follows, `0`, or none. -/
def base : Bytes → ℕ × Bytes
  | 48 :: x :: c :: s => if (x = 120 ∨ x = 88) ∧ digit c < 16 then (16, c :: s) else (8, 48 :: x :: c :: s)
  | 48 :: s => (8, 48 :: s)
  | s => (10, s)

/-- The numeral at the front of a string: whether it is negative, its value, and what is behind it. -/
def scan (s : Bytes) : Option (Bool × ℕ × Bytes) :=
  let (neg, s) := sign (s.dropWhile isSpace)
  let (b, s) := base s
  let ds := s.takeWhile (digit · < b)
  if ds = [] then none else some (neg, ds.foldl (fun n c => b * n + digit c) 0, s.dropWhile (digit · < b))

def signed (neg : Bool) (n : ℕ) : ℤ := if neg then -n else n

/-- `strtoull` with base 0: the number, whether `errno` is `ERANGE`, and the string at `end`. -/
def strtoull (s : Bytes) : BitVec 64 × Bool × Bytes :=
  match scan s with
  | none => (0, false, s)
  | some (neg, n, rest) =>
    if 2 ^ 64 ≤ n then (BitVec.allOnes 64, true, rest)
    else (if neg then -BitVec.ofNat 64 n else BitVec.ofNat 64 n, false, rest)

/-- `strtoll` with base 0. -/
def strtoll (s : Bytes) : ℤ :=
  match scan s with
  | none => 0
  | some (neg, n, _) => max (-2 ^ 63) (min (2 ^ 63 - 1) (signed neg n))

/-! ## Sizes -/

/-- `mul`, by the last character. -/
def sizeMul (c : BitVec 8) : ℕ :=
  if c = 116 ∨ c = 84 then 1024 * 1024 * 1024 * 1024
  else if c = 103 ∨ c = 71 then 1024 * 1024 * 1024
  else if c = 109 ∨ c = 77 then 1024 * 1024
  else if c = 107 ∨ c = 75 then 1024
  else 1

/-- `arg[len - 1]`, which is in front of an empty string. -/
def lastByte (prev : BitVec 8) (arg : Bytes) : BitVec 8 := arg.getLast?.getD prev

/-- `dt_optval_parse`.  `prev` is what is in memory in front of the string. -/
def dtOptvalParse (prev : BitVec 8) (arg : Bytes) : Option (BitVec 64) :=
  let mul := sizeMul (lastByte prev arg)
  let negtest := strtoll arg
  let (val, errno, rest) := strtoull arg
  let rval := val * BitVec.ofNat 64 mul
  if (1 < mul ∧ rest.length ≠ 1) ∨ (mul = 1 ∧ rest ≠ []) ∨ negtest < 0 ∨ errno then none else some rval

/-- What the string says: the numeral times the multiplier. -/
def sizeExact (prev : BitVec 8) (arg : Bytes) : Option ℤ :=
  (scan arg).map fun (neg, n, _) => signed neg n * (sizeMul (lastByte prev arg) : ℤ)

/-! ## Rates -/

def nanosec : ℕ := 1000000000

/-- `suffix`: the names, and the multipliers. -/
def suffixes : List (Bytes × ℕ) :=
  [([110, 115], 1), ([110, 115, 101, 99], 1),
    ([117, 115], nanosec / 1000000), ([117, 115, 101, 99], nanosec / 1000000),
    ([109, 115], nanosec / 1000), ([109, 115, 101, 99], nanosec / 1000),
    ([115], nanosec), ([115, 101, 99], nanosec),
    ([109], nanosec * 60), ([109, 105, 110], nanosec * 60),
    ([104], nanosec * 60 * 60), ([104, 111, 117, 114], nanosec * 60 * 60),
    ([100], nanosec * (24 * 60 * 60)), ([100, 97, 121], nanosec * (24 * 60 * 60)),
    ([104, 122], 0)]

def lower (c : BitVec 8) : BitVec 8 := if 65 ≤ c.toNat ∧ c.toNat ≤ 90 then c + 32 else c

/-- The multiplier of a suffix, compared by `strcasecmp`; 1 if there is none. -/
def rateMul (rest : Bytes) : Option ℕ :=
  match suffixes.find? fun e => e.1.map lower = rest.map lower with
  | some e => some e.2
  | none => if rest = [] then some 1 else none

def dtOptRate (arg : Bytes) : Option (BitVec 64) :=
  let negtest := strtoll arg
  let (val, _, rest) := strtoull arg
  match rateMul rest with
  | none => none
  | some mul =>
    if negtest < 0 then none
    else if mul = 0 then some (if val ≠ 0 then BitVec.ofNat 64 nanosec / val else val)
    else some (val * BitVec.ofNat 64 mul)

/-- What the string says: the interval, in nanoseconds. -/
def rateExact (arg : Bytes) : Option ℤ :=
  (scan arg).bind fun (neg, n, rest) => (rateMul rest).map fun mul : ℕ =>
    if mul = 0 then ((nanosec / n : ℕ) : ℤ) else signed neg n * (mul : ℤ)

/-! ## What is taken -/

variable {arg : Bytes} {neg : Bool}

section

variable {rest : Bytes} {n mul : ℕ}

section

variable (hscan : scan arg = some (neg, n, rest))
include hscan

lemma signed_of_strtoll (h : ¬strtoll arg < 0) : signed neg n = n ∧ (neg → n = 0) := by
  rw [strtoll, hscan] at h
  dsimp only at h
  rw [signed] at h ⊢
  cases neg with
  | false => exact ⟨rfl, nofun⟩
  | true =>
    rw [if_pos rfl] at h ⊢
    have hn : n = 0 := by omega
    subst hn
    exact ⟨rfl, fun _ => rfl⟩

lemma strtoull_of_lt (hneg : neg → n = 0) (hn : n < 2 ^ 64) : strtoull arg = (BitVec.ofNat 64 n, false, rest) := by
  rw [strtoull, hscan]
  dsimp only
  rw [if_neg (by omega)]
  cases neg with
  | false => rfl
  | true =>
    rw [hneg rfl]
    rfl

lemma strtoull_of_le (hn : 2 ^ 64 ≤ n) : strtoull arg = (allOnes 64, true, rest) := by
  rw [strtoull, hscan]
  dsimp only
  rw [if_pos hn]

end

lemma mul_exact_iff (hn : n < 2 ^ 64) (hmul : mul < 2 ^ 64) :
    (n * mul : ℤ) = (BitVec.ofNat 64 n * BitVec.ofNat 64 mul).toNat ↔ (n * mul : ℤ) < 2 ^ 64 := by
  rw [toNat_mul, toNat_ofNat, toNat_ofNat, mod_eq_of_lt hn, mod_eq_of_lt hmul]
  norm_cast
  constructor
  · intro h
    omega
  · intro h
    rw [mod_eq_of_lt h]

lemma sizeMul_lt (c : BitVec 8) : sizeMul c < 2 ^ 64 := by
  rw [sizeMul]
  split_ifs <;> decide

lemma rateMul_lt (h : rateMul rest = some mul) : mul < 2 ^ 64 := by
  rw [rateMul] at h
  split at h
  next e he =>
    cases h
    have hall : ∀ e ∈ suffixes, e.2 < 2 ^ 64 := by decide
    exact hall e (List.mem_of_find?_eq_some he)
  next =>
    split at h
    · cases h
      decide
    · cases h

end

variable {v : BitVec 64}

lemma size_iff {prev : BitVec 8} (h : dtOptvalParse prev arg = some v) :
    sizeExact prev arg = some (v.toNat : ℤ) ↔ ∃ x, sizeExact prev arg = some x ∧ x < 2 ^ 64 := by
  rw [dtOptvalParse] at h
  dsimp only at h
  split at h
  · cases h
  next hok =>
    push Not at hok
    obtain ⟨-, -, hneg, herrno⟩ := hok
    rw [sizeExact]
    rcases hscan : scan arg with _ | ⟨_, n, _⟩
    · simp
    obtain ⟨hsigned, hzero⟩ := signed_of_strtoll hscan (not_lt.2 hneg)
    have hn : n < 2 ^ 64 := by
      by_contra hge
      rw [strtoull_of_le hscan (not_lt.1 hge)] at herrno
      exact herrno rfl
    rw [strtoull_of_lt hscan hzero hn] at h
    cases h
    simp only [map_some, hsigned, Option.some.injEq, exists_eq_left']
    exact mul_exact_iff hn (sizeMul_lt _)

/-- The interval of a frequency.  A number that does not fit is read as the largest that does, and the interval is
zero for both. -/
lemma hz_interval {rest : Bytes} {n : ℕ} (hscan : scan arg = some (neg, n, rest)) (hzero : neg → n = 0) :
    (if (strtoull arg).1 ≠ 0 then BitVec.ofNat 64 nanosec / (strtoull arg).1 else (strtoull arg).1).toNat =
      nanosec / n := by
  rcases lt_or_ge n (2 ^ 64) with hn | hn
  · rw [strtoull_of_lt hscan hzero hn]
    dsimp only
    split
    next => rw [toNat_udiv, toNat_ofNat, toNat_ofNat, mod_eq_of_lt hn]; rfl
    next h =>
      have hval : (BitVec.ofNat 64 n).toNat = 0 := by
        rw [not_not.1 h]
        rfl
      rw [toNat_ofNat, mod_eq_of_lt hn] at hval
      rw [hval]
      rfl
  · have hall : (strtoull arg).1 = allOnes 64 := by rw [strtoull_of_le hscan hn]
    rw [hall, if_pos (by decide), div_eq_of_lt (lt_of_lt_of_le (by decide) hn)]
    decide

lemma rate_iff (h : dtOptRate arg = some v) :
    rateExact arg = some (v.toNat : ℤ) ↔ ∃ x, rateExact arg = some x ∧ x < 2 ^ 64 := by
  rw [dtOptRate] at h
  dsimp only at h
  rw [rateExact]
  rcases hscan : scan arg with _ | ⟨_, n, rest⟩
  · simp
  have hrest : (strtoull arg).2.2 = rest := by
    rcases lt_or_ge n (2 ^ 64) with hn | hn
    · rw [strtoull, hscan]
      dsimp only
      rw [if_neg (by omega)]
    · rw [strtoull_of_le hscan hn]
  rw [hrest] at h
  rcases hmul : rateMul rest with _ | mul
  · rw [hmul] at h
    cases h
  rw [hmul] at h
  dsimp only at h
  split at h
  · cases h
  next hneg =>
    obtain ⟨hsigned, hzero⟩ := signed_of_strtoll hscan hneg
    simp only [bind_some, hmul, map_some, hsigned, Option.some.injEq, exists_eq_left']
    split at h
    next hhz =>
      -- a frequency
      cases h
      rw [if_pos hhz]
      refine iff_of_true ?_ ?_
      · norm_cast
        exact (hz_interval hscan hzero).symm
      · have := div_le_self nanosec n
        have : nanosec < 2 ^ 64 := by decide
        norm_cast
        omega
    next hhz =>
      cases h
      rw [if_neg hhz]
      rcases lt_or_ge n (2 ^ 64) with hn | hn
      · rw [strtoull_of_lt hscan hzero hn]
        exact mul_exact_iff hn (rateMul_lt hmul)
      · -- the numeral alone does not fit
        have hge : 2 ^ 64 ≤ n * mul := le_trans hn (Nat.le_mul_of_pos_right n (Nat.pos_of_ne_zero hhz))
        norm_cast
        omega

/-- The value that is stored is what the string says, for sizes and for rates that are taken, if and only if the
string has a numeral and its value fits. -/
theorem values_iff (prev : BitVec 8) (arg : Bytes) (v : BitVec 64) :
    (dtOptvalParse prev arg = some v →
      (sizeExact prev arg = some (v.toNat : ℤ) ↔ ∃ x, sizeExact prev arg = some x ∧ x < 2 ^ 64)) ∧
    (dtOptRate arg = some v →
      (rateExact arg = some (v.toNat : ℤ) ↔ ∃ x, rateExact arg = some x ∧ x < 2 ^ 64)) :=
  ⟨size_iff, rate_iff⟩

/-- `4k` and `2MS`. -/
theorem values_small :
    sizeExact 0 [52, 107] = some 4096 ∧ dtOptvalParse 0 [52, 107] = some 4096 ∧
      rateExact [50, 77, 83] = some 2000000 ∧ dtOptRate [50, 77, 83] = some 2000000 := by
  have hsize : dtOptvalParse 0 [52, 107] = some 4096 := by decide
  have hrate : dtOptRate [50, 77, 83] = some 2000000 := by decide
  exact ⟨((values_iff _ _ _).1 hsize).2 ⟨4096, by decide, by decide⟩, hsize,
    ((values_iff 0 _ _).2 hrate).2 ⟨2000000, by decide, by decide⟩, hrate⟩

/-- `16777216t` is taken for zero. -/
theorem size_wraps :
    dtOptvalParse 0 [49, 54, 55, 55, 55, 50, 49, 54, 116] = some 0 ∧
      sizeExact 0 [49, 54, 55, 55, 55, 50, 49, 54, 116] = some (2 ^ 64) := by
  decide

end DTrace.Opt
