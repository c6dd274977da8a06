import Mathlib.Algebra.Group.Int.Defs
import Mathlib.Algebra.Group.Nat.Defs
import Mathlib.Tactic.Common

/-!
# Reading text by formats

The directives of `sscanf`, as the C library carries them out: a format is read against a string from the left and
ends at the first directive that fails.

* `Directive`, `step`, `sscanf` — directives, one of them, and a format;
* `Scan` — what was assigned and whether the string had ended; `Scan.ret` is what the function returns;
* `run_num` — numbers are within the types of their directives;
* `decimal` — how a number is written; `run_int_decimal`, `run_long_decimal` — it is read back;
* `run_noneOf`, `run_word` — names up to a separator are read back;
* `Reads` — what a caller gets from a format that was read to its end.
-/

namespace DTrace.Lib.Scanf

open Nat

/-- The directives: white space, a character, `%%`, `%d`, `%ld`, `%m[^…]`, `%ms` and `%n`. -/
inductive Directive
  | space
  | lit (c : Char)
  | percent
  | int
  | long
  | noneOf (set : List Char)
  | word
  | count
  deriving DecidableEq, Repr

/-- What a format has assigned: how many conversions, whether the string ended too early, and the values. -/
structure Scan where
  done : ℕ
  eof : Bool
  num : Option ℤ
  str : Option (List Char)
  len : Option ℕ
  deriving DecidableEq, Repr

def Scan.start : Scan := ⟨0, false, none, none, none⟩

/-- The result of the function: `EOF` if the string ended before any conversion. -/
def Scan.ret (r : Scan) : ℤ := if r.eof ∧ r.done = 0 then -1 else r.done

def Scan.setNum (r : Scan) (z : ℤ) : Scan := { r with done := r.done + 1, num := some z }

def Scan.setStr (r : Scan) (s : List Char) : Scan := { r with done := r.done + 1, str := some s }

def Scan.setLen (r : Scan) (n : ℕ) : Scan := { r with len := some n }

def isSpace (c : Char) : Bool := c = ' ' || (9 ≤ c.toNat && c.toNat ≤ 13)

def skip (s : List Char) : List Char := s.dropWhile isSpace

/-! ## Numbers -/

/-- The sign: whether it is `-`, and what is behind it. -/
def sign : List Char → Bool × List Char
  | '-' :: s => (true, s)
  | '+' :: s => (false, s)
  | s => (false, s)

/-- The decimal number at the front of a string, and what is behind it. -/
def numeral (s : List Char) : Option (ℤ × List Char) :=
  let (neg, t) := sign s
  let ds := t.takeWhile Char.isDigit
  let n : ℤ := Nat.ofDigitChars 10 ds 0
  if ds = [] then none else some (if neg then -n else n, t.dropWhile Char.isDigit)

/-- `strtol`: values out of range are replaced by the nearest. -/
def toLong (z : ℤ) : ℤ := max (-2 ^ 63) (min (2 ^ 63 - 1) z)

def int32 (z : ℤ) : ℤ := (BitVec.ofInt 32 z).toInt

/-! ## Directives -/

/-- A run of characters that is not empty. -/
def span (q : Char → Bool) (s : List Char) (r : Scan) : Except Bool (List Char × Scan) :=
  if s = [] then .error true
  else if s.takeWhile q = [] then .error false
  else .ok (s.dropWhile q, r.setStr (s.takeWhile q))

/-- A number; `f` converts it. -/
def convert (f : ℤ → ℤ) (s : List Char) (r : Scan) : Except Bool (List Char × Scan) :=
  if s = [] then .error true
  else match numeral s with
    | none => .error false
    | some (z, t) => .ok (t, r.setNum (f z))

def expect (c : Char) (s : List Char) (r : Scan) : Except Bool (List Char × Scan) :=
  match s with
  | [] => .error true
  | x :: t => if x = c then .ok (t, r) else .error false

/-- One directive on the rest `s` of the string `p`; an error says whether the string had ended. -/
def step (p : List Char) (d : Directive) (s : List Char) (r : Scan) : Except Bool (List Char × Scan) :=
  match d with
  | .space => .ok (skip s, r)
  | .lit c => expect c s r
  | .percent => expect '%' (skip s) r
  | .int => convert (fun z => int32 (toLong z)) (skip s) r
  | .long => convert toLong (skip s) r
  | .noneOf set => span (fun c => c ∉ set) s r
  | .word => span (fun c => !isSpace c) (skip s) r
  | .count => .ok (s, r.setLen (p.length - s.length))

def run (p : List Char) : List Directive → List Char → Scan → Scan
  | [], _, r => r
  | d :: ds, s, r =>
    match step p d s r with
    | .error e => { r with eof := e }
    | .ok (t, r') => run p ds t r'

def sscanf (p : List Char) (fmt : List Directive) : Scan := run p fmt p .start

/-! ## Steps that succeed -/

section

variable {p s t : List Char} {d : Directive} {ds : List Directive} {r r' : Scan} {c x : Char} {q : Char → Bool}

lemma run_ok (h : step p d s r = .ok (t, r')) : run p (d :: ds) s r = run p ds t r' := by
  rw [run, h]

lemma run_error {e : Bool} (h : step p d s r = .error e) : run p (d :: ds) s r = { r with eof := e } := by
  rw [run, h]

@[simp] lemma run_nil : run p [] s r = r := rfl

@[simp] lemma run_space : run p (.space :: ds) s r = run p ds (skip s) r := rfl

@[simp] lemma run_count : run p (.count :: ds) s r = run p ds s (r.setLen (p.length - s.length)) := rfl

@[simp] lemma run_lit_same : run p (.lit c :: ds) (c :: s) r = run p ds s r := run_ok (if_pos rfl)

@[simp] lemma run_percent : run p (.percent :: ds) ('%' :: s) r = run p ds s r := rfl

/-- The format reads the string up to `t` and assigns what `r` has. -/
structure Reads (p : List Char) (fmt : List Directive) (r : Scan) (t : List Char) : Prop where
  ret : (sscanf p fmt).ret = r.ret
  num : (sscanf p fmt).num = r.num
  str : (sscanf p fmt).str = r.str
  len : ∃ n, (sscanf p fmt).len = some n ∧ p.drop n = t

variable {fmt : List Directive}

lemma reads (ht : t <:+ p) (h : sscanf p fmt = r.setLen (p.length - t.length)) : Reads p fmt r t := by
  rw [List.suffix_iff_eq_drop] at ht
  constructor <;> rw [h]
  case len => exact ⟨_, rfl, ht.symm⟩
  all_goals rfl

lemma Reads.drop (h : Reads p fmt r t) : p.drop ((sscanf p fmt).len.getD 0) = t := by
  obtain ⟨n, hn, hdrop⟩ := h.len
  rwa [hn]

/-- The string ends, or goes on with a character that is not in the class. -/
abbrev Stops (q : Char → Bool) (s : List Char) : Prop := s.takeWhile q = []

lemma stops_cons (h : q c = false) : Stops q (c :: s) := List.takeWhile_cons_of_neg (by simp [h])

lemma dropWhile_stops (h : Stops q s) : s.dropWhile q = s := by
  have hall := List.takeWhile_append_dropWhile (p := q) (l := s)
  rwa [h] at hall

lemma takeWhile_append_stops (ht : ∀ c ∈ t, q c = true) (h : Stops q s) : (t ++ s).takeWhile q = t := by
  rw [List.takeWhile_append_of_pos ht, h, List.append_nil]

lemma dropWhile_append_stops (ht : ∀ c ∈ t, q c = true) (h : Stops q s) : (t ++ s).dropWhile q = s := by
  rw [List.dropWhile_append_of_pos ht, dropWhile_stops h]

lemma skip_cons (h : isSpace c = false) : skip (c :: s) = c :: s := dropWhile_stops (stops_cons h)

lemma span_append (hne : t ≠ []) (ht : ∀ c ∈ t, q c = true) (h : Stops q s) :
    span q (t ++ s) r = .ok (s, r.setStr t) := by
  rw [span, if_neg (by simp [hne]), takeWhile_append_stops ht h, if_neg hne, dropWhile_append_stops ht h]

lemma run_noneOf {set : List Char} (hne : t ≠ []) (ht : ∀ c ∈ t, c ∉ set) (h : Stops (fun c => c ∉ set) s) :
    run p (.noneOf set :: ds) (t ++ s) r = run p ds s (r.setStr t) :=
  run_ok (span_append hne (by simpa using ht) h)

lemma run_word (hne : t ≠ []) (ht : ∀ c ∈ t, isSpace c = false) (h : Stops (fun c => !isSpace c) s) :
    run p (.word :: ds) (t ++ s) r = run p ds s (r.setStr t) := by
  obtain ⟨x, t, rfl⟩ := List.exists_cons_of_ne_nil hne
  refine run_ok ?_
  rw [step, List.cons_append, skip_cons (ht x List.mem_cons_self)]
  exact span_append hne (by simpa using ht) h

/-! ## Numbers are in range -/

variable {x : List Char × Scan} {c : Char} {z : ℤ}

lemma span_num (h : span q s r = .ok x) : x.2.num = r.num := by
  unfold span at h
  split at h
  · cases h
  · split at h
    · cases h
    · cases h
      rfl

lemma expect_num (h : expect c s r = .ok x) : x.2 = r := by
  unfold expect at h
  split at h
  · cases h
  · split at h
    · cases h
      rfl
    · cases h

lemma convert_num {f : ℤ → ℤ} (h : convert f s r = .ok x) : ∃ z, x.2.num = some (f z) := by
  unfold convert at h
  split at h
  · cases h
  · split at h
    · cases h
    · next z _ _ =>
      cases h
      exact ⟨z, rfl⟩

/-- What a directive leaves as a number: the one that was there, or one that it has converted. -/
lemma step_num (h : step p d s r = .ok x) :
    x.2.num = r.num ∨ (d = .int ∧ ∃ z, x.2.num = some (int32 z)) ∨ (d = .long ∧ ∃ z, x.2.num = some (toLong z)) := by
  cases d with
  | space => cases h; exact .inl rfl
  | lit c | percent => exact .inl (by rw [expect_num h])
  | int =>
    obtain ⟨z, hz⟩ := convert_num h
    exact .inr (.inl ⟨rfl, toLong z, hz⟩)
  | long => exact .inr (.inr ⟨rfl, convert_num h⟩)
  | noneOf set | word => exact .inl (span_num h)
  | count => cases h; exact .inl rfl

/-- The numbers a format assigns are within the types it names. -/
theorem run_num {Q : ℤ → Prop} (hint : .int ∈ ds → ∀ z, Q (int32 z)) (hlong : .long ∈ ds → ∀ z, Q (toLong z))
    (h : ∀ z ∈ r.num, Q z) : ∀ z ∈ (run p ds s r).num, Q z := by
  induction ds generalizing s r with
  | nil => exact h
  | cons d ds ih =>
    rcases hstep : step p d s r with e | ⟨t, _⟩
    · rw [run_error hstep]
      exact h
    · rw [run_ok hstep]
      refine ih (fun hm => hint (.tail _ hm)) (fun hm => hlong (.tail _ hm)) fun z hz => ?_
      rcases step_num hstep with heq | ⟨rfl, y, hy⟩ | ⟨rfl, y, hy⟩
      · exact h z (heq ▸ hz)
      · obtain rfl := Option.mem_unique hy hz
        exact hint (.head _) y
      · obtain rfl := Option.mem_unique hy hz
        exact hlong (.head _) y

lemma int32_range (z : ℤ) : -2 ^ 31 ≤ int32 z ∧ int32 z < 2 ^ 31 :=
  ⟨BitVec.le_toInt (.ofInt 32 z), BitVec.toInt_lt⟩

lemma toLong_range (z : ℤ) : -2 ^ 63 ≤ toLong z ∧ toLong z < 2 ^ 63 := by
  unfold toLong
  omega

/-! ## Numbers are read back -/

/-- A number as `%d` prints it. -/
def decimal (z : ℤ) : List Char :=
  if z < 0 then '-' :: Nat.toDigits 10 z.natAbs else Nat.toDigits 10 z.natAbs

lemma isDigit_toDigits {n : ℕ} (h : c ∈ Nat.toDigits 10 n) : c.isDigit = true :=
  isDigit_of_mem_toDigits (by omega) (by omega) h

lemma isSpace_of_isDigit (h : c.isDigit = true) : isSpace c = false := by
  have hval : 48 ≤ c.toNat ∧ c.toNat ≤ 57 := by
    simpa [Char.isDigit, UInt32.le_iff_toNat_le] using h
  have hsp : c ≠ ' ' := by
    rintro rfl
    exact absurd hval (by decide)
  simp [isSpace, hsp]
  omega

lemma toDigits_cons (n : ℕ) : ∃ c t, Nat.toDigits 10 n = c :: t ∧ c.isDigit = true := by
  obtain ⟨c, t, h⟩ := List.exists_cons_of_ne_nil (toDigits_ne_nil (b := 10) (n := n))
  exact ⟨c, t, h, isDigit_toDigits (h ▸ List.mem_cons_self)⟩

lemma decimal_cons (z : ℤ) : ∃ c t, decimal z = c :: t ∧ isSpace c = false := by
  obtain ⟨c, t, h, hc⟩ := toDigits_cons z.natAbs
  unfold decimal
  split
  · exact ⟨'-', _, rfl, rfl⟩
  · exact ⟨c, t, h, isSpace_of_isDigit hc⟩

lemma sign_decimal (z : ℤ) : sign (decimal z ++ s) = (decide (z < 0), Nat.toDigits 10 z.natAbs ++ s) := by
  unfold decimal
  split
  · next hz => rw [decide_eq_true hz]; rfl
  · next hz =>
    obtain ⟨c, t, h, hc⟩ := toDigits_cons z.natAbs
    rw [h, decide_eq_false hz, List.cons_append]
    unfold sign
    split <;> simp_all

lemma numeral_decimal (z : ℤ) (h : Stops Char.isDigit s) : numeral (decimal z ++ s) = some (z, s) := by
  have hval : Nat.ofDigitChars 10 (Nat.toDigits 10 z.natAbs) 0 = z.natAbs := ofDigitChars_toDigits (by omega) (by omega)
  rw [numeral, sign_decimal]
  simp only [takeWhile_append_stops (fun _ => isDigit_toDigits) h, dropWhile_append_stops (fun _ => isDigit_toDigits) h,
    hval, toDigits_ne_nil, if_false, decide_eq_true_eq, Option.some.injEq, Prod.mk.injEq, and_true]
  split <;> omega

lemma skip_decimal (z : ℤ) : skip (decimal z ++ s) = decimal z ++ s := by
  obtain ⟨c, t, h, hc⟩ := decimal_cons z
  rw [h]
  exact skip_cons hc

lemma convert_decimal (f : ℤ → ℤ) (z : ℤ) (h : Stops Char.isDigit s) :
    convert f (skip (decimal z ++ s)) r = .ok (s, r.setNum (f z)) := by
  obtain ⟨c, t, hz, -⟩ := decimal_cons z
  rw [skip_decimal, convert, if_neg (by simp [hz]), numeral_decimal z h]

lemma toLong_of_range (h : -2 ^ 63 ≤ z ∧ z < 2 ^ 63) : toLong z = z := by
  unfold toLong
  omega

lemma int32_of_range (h : -2 ^ 31 ≤ z ∧ z < 2 ^ 31) : int32 z = z := by
  rw [int32, BitVec.toInt_ofInt, Int.bmod_eq_of_le (by omega) (by omega)]

lemma run_int_decimal (hz : -2 ^ 31 ≤ z ∧ z < 2 ^ 31) (h : Stops Char.isDigit s) :
    run p (.int :: ds) (decimal z ++ s) r = run p ds s (r.setNum z) := by
  refine run_ok ?_
  rw [step, convert_decimal _ z h, toLong_of_range (by omega), int32_of_range hz]

lemma run_long_decimal (hz : -2 ^ 63 ≤ z ∧ z < 2 ^ 63) (h : Stops Char.isDigit s) :
    run p (.long :: ds) (decimal z ++ s) r = run p ds s (r.setNum z) := by
  refine run_ok ?_
  rw [step, convert_decimal _ z h, toLong_of_range hz]

end

end DTrace.Lib.Scanf
