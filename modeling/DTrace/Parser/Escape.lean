import DTrace.Lib.Bytes

/-!
# Escape sequences in strings

* `stresc2chr` — escape sequences to characters; `strchr2esc` — characters to escape sequences, in a buffer of `bufSize`;
* `chars_escape` — the character of an escape sequence, whatever follows it;
* `stresc2chr_strchr2esc` — the string comes back, and the buffer is filled.
-/

namespace DTrace.Parser

open Lib List

def chr (c : Char) : BitVec 8 := .ofNat 8 c.toNat

/-- A comparison with two characters; `char` is signed. -/
def within (lo hi : Char) (c : BitVec 8) : Bool := (chr lo).toInt ≤ c.toInt ∧ c.toInt ≤ (chr hi).toInt

/-! ## To characters -/

/-- At most three octal digits, the first of which is there. -/
def octals (s : Bytes) : Bytes := (s.take 3).takeWhile (within '0' '7')

def hexes (s : Bytes) : Bytes := s.takeWhile fun c => within '0' '9' c || within 'a' 'f' c || within 'A' 'F' c

def hex (c : BitVec 8) : BitVec 32 :=
  if within '0' '9' c then c.signExtend 32 - 48
  else if within 'a' 'f' c then c.signExtend 32 - 97 + 10
  else c.signExtend 32 - 65 + 10

/-- The other characters after a backslash. -/
def charOf (c : BitVec 8) : Option (BitVec 8) :=
  match Char.ofNat c.toNat with
  | 'a' => some 7
  | 'b' => some 8
  | 'f' => some 12
  | 'n' => some 10
  | 'r' => some 13
  | 't' => some 9
  | 'v' => some 11
  | '\x22' | '\\' => some c
  | _ => none

/-- What the loop of `stresc2chr` writes.  It writes to the string it reads, never ahead of where it reads. -/
def chars : Bytes → Bytes
  | [] => []
  | c :: s =>
    if c = 0 then []
    else if c ≠ chr '\\' then c :: chars s
    else match s with
      | [] => []
      | c :: s =>
        if c = 0 then []
        else if within '0' '7' c then
          (octals (c :: s)).foldl (fun x d => x * 8 + (d - chr '0')) 0 :: chars (s.drop ((octals (c :: s)).length - 1))
        else if c = chr 'x' then
          ((hexes s).foldl (fun x d => x * 16 + hex d) 0).setWidth 8 :: chars (s.drop (hexes s).length)
        else match charOf c with
          | some d => d :: chars s
          | none => chr '\\' :: c :: chars s
termination_by s => s.length
decreasing_by all_goals simp only [length_cons, length_drop]; omega

def stresc2chr (s : Bytes) : Bytes × ℕ := (chars s, (chars s).length)

/-! ## To escape sequences -/

/-- How many characters `strchr2esc` needs more than one. -/
def addl (c : BitVec 8) : ℕ :=
  match c.toNat with
  | 0 | 7 | 8 | 12 | 10 | 13 | 9 | 11 | 34 | 92 => 1
  | 32 => 0
  | _ => if within '!' '~' c then 0 else 3

def escape (c : BitVec 8) : Bytes :=
  match c.toNat with
  | 0 => [chr '\\', chr '0']
  | 7 => [chr '\\', chr 'a']
  | 8 => [chr '\\', chr 'b']
  | 12 => [chr '\\', chr 'f']
  | 10 => [chr '\\', chr 'n']
  | 13 => [chr '\\', chr 'r']
  | 9 => [chr '\\', chr 't']
  | 11 => [chr '\\', chr 'v']
  | 34 => [chr '\\', 34]
  | 92 => [chr '\\', chr '\\']
  | 32 => [c]
  | _ =>
    if within '!' '~' c then [c]
    else [chr '\\', (c.sshiftRight 6 &&& 3) + chr '0', (c.sshiftRight 3 &&& 7) + chr '0', (c &&& 7) + chr '0']

/-- What `malloc` is called with. -/
def bufSize (s : Bytes) : ℕ := s.length + (s.map addl).sum + 1

def strchr2esc : Bytes → Bytes
  | [] => []
  | c :: s => escape c ++ if c = 0 then [] else strchr2esc s

/-! ## There and back -/

lemma length_escape : ∀ c : BitVec 8, (escape c).length = 1 + addl c := by decide

/-- The character itself, or an escape sequence of it. -/
def isEscape (c : BitVec 8) : Bytes → Bool
  | [d] => d = c ∧ d ≠ 0 ∧ d ≠ chr '\\'
  | [b, d] => b = chr '\\' ∧ d ≠ 0 ∧ ¬within '0' '7' d ∧ d ≠ chr 'x' ∧ charOf d = some c
  | [b, d, e, f] => b = chr '\\' ∧ d ≠ 0 ∧ within '0' '7' d ∧ within '0' '7' e ∧ within '0' '7' f ∧
      ((0 * 8 + (d - chr '0')) * 8 + (e - chr '0')) * 8 + (f - chr '0') = c
  | _ => false

lemma isEscape_escape : ∀ c : BitVec 8, c ≠ 0 → isEscape c (escape c) := by decide

lemma chars_escape {c : BitVec 8} (hc : c ≠ 0) (s : Bytes) : chars (escape c ++ s) = c :: chars s := by
  have h := isEscape_escape c hc
  unfold isEscape at h
  split at h
  · next heq =>
    obtain ⟨rfl, h0, hslash⟩ := of_decide_eq_true h
    rw [heq, singleton_append, chars.eq_def]
    exact (if_neg h0).trans (if_pos hslash)
  · next heq =>
    obtain ⟨rfl, h0, hoct, hx, hchar⟩ := of_decide_eq_true h
    rw [heq, cons_append, singleton_append, chars, if_neg (by decide), if_neg (by decide)]
    simp only [if_neg h0, if_neg hoct, if_neg hx, hchar]
  · next d e f heq =>
    obtain ⟨rfl, h0, hd, he, hf, hval⟩ := of_decide_eq_true h
    have hoct : octals (d :: e :: f :: s) = [d, e, f] := by simp [octals, hd, he, hf]
    rw [heq]
    simp only [cons_append, nil_append]
    rw [chars, if_neg (by decide), if_neg (by decide)]
    simp only [if_neg h0, if_pos hd, hoct, foldl_cons, foldl_nil, hval]
    rfl
  · cases h

/-- **Escape sequences.**  What is escaped comes back, with its length, and the escape sequences fill the buffer. -/
theorem stresc2chr_strchr2esc (s : Bytes) (h : 0 ∉ s) :
    stresc2chr (strchr2esc s) = (s, s.length) ∧ (strchr2esc s).length + 1 = bufSize s := by
  have hback : chars (strchr2esc s) = s ∧ (strchr2esc s).length = s.length + (s.map addl).sum := by
    induction s with
    | nil => exact ⟨by rw [strchr2esc, chars], rfl⟩
    | cons c s ih =>
      obtain ⟨hc, hs⟩ := not_or.1 (mem_cons.not.1 h)
      obtain ⟨hback, hlen⟩ := ih hs
      rw [strchr2esc, if_neg (Ne.symm hc), chars_escape (Ne.symm hc), hback, length_append, length_escape, hlen]
      refine ⟨rfl, ?_⟩
      simp only [length_cons, map_cons, sum_cons]
      omega
  rw [stresc2chr, hback.1, hback.2]
  exact ⟨rfl, rfl⟩

/-- A newline and a byte that is no character. -/
theorem stresc2chr_newline : strchr2esc [10, 255] = [92, 110, 92, 51, 55, 55] ∧
    stresc2chr (strchr2esc [10, 255]) = ([10, 255], 2) :=
  ⟨by decide, (stresc2chr_strchr2esc [10, 255] (by decide)).1⟩

end DTrace.Parser
