import DTrace.Usdt.NotesScan

/-!
# Hyphens in names of probes

The name of a probe has `-` where the program has `__`.  `strhyphenate` changes it where a provider is declared, and
`parse_usdt_note` where a tracepoint is read; each does so in place.

* `strhyphenate`, `rewriteName` — the two loops;
* `hyphens_agree` — they leave the same name.
-/

namespace DTrace.Usdt

open Lib List

def strlen (b : Bytes) : ℕ := (b.takeWhile (· ≠ 0)).length

/-- The loop of `strhyphenate`, on what is at `p` and behind it; there are `n` bytes up to `q`, which stays where it is while
the end of the string moves. -/
def hyphenateLoop : ℕ → Bytes → Bytes
  | n + 1, 95 :: 95 :: b => 45 :: hyphenateLoop n (b.take n ++ (95 :: b).drop n)
  | n + 1, c :: b => c :: hyphenateLoop n b
  | _, b => b

def strhyphenate (b : Bytes) : Bytes := hyphenateLoop (strlen b) b

/-- The loop of `parse_usdt_note`, on what is at `q` and behind it: what is left over before `s`, and what is at `s`.  There
are `n` bytes from `s` up to `e`. -/
def rewriteLoop : ℕ → Bytes → Bytes → Bytes
  | n + 1, old, 95 :: 95 :: b => 45 :: rewriteLoop (n - 1) (old ++ [95, 95]).tail b
  -- nothing is written if `q` is `s`: the character is there
  | n + 1, old, c :: b => c :: rewriteLoop n (old ++ [c]).tail b
  | _, old, b => old ++ b

/-- What `parse_usdt_note` does to the name of a probe; `e` is behind its final 0. -/
def rewriteName (b : Bytes) : Bytes :=
  if [95, 95] <:+: b.take (strlen b) then rewriteLoop (strlen b + 1) [] b else b

section

variable {name b b' rest : Bytes}

lemma cstr_zero_iff : cstr b 0 = some name ↔ (∃ rest, b = name ++ 0 :: rest) ∧ 0 ∉ name := by
  rw [cstr_eq_some, drop_zero]
  refine and_congr_left fun _ => exists_congr fun rest => ?_
  rw [append_assoc, singleton_append, eq_comm]

lemma strlen_append (h : 0 ∉ name) : strlen (name ++ 0 :: rest) = name.length := by
  rw [strlen, takeWhile_append_of_pos fun c hc => by simpa using ne_of_mem_of_not_mem hc h,
    takeWhile_cons_of_neg (by simp), append_nil]

lemma zero_notMem_hyphenate (h : 0 ∉ name) : 0 ∉ hyphenate name := by
  fun_induction hyphenate name <;> simp_all

lemma hyphenate_of_not (h : ¬[95, 95] <:+: name) : hyphenate name = name := by
  fun_induction hyphenate name with
  | case1 s => exact absurd ⟨[], s, rfl⟩ h
  | case2 c s _ ih => rw [ih fun hs => h (hs.trans (suffix_cons c s).isInfix)]
  | case3 => rfl

/-- Where a string has no two underscores, a zero behind it does not make them. -/
lemma append_ne {c : BitVec 8} (h : ∀ s, c = 95 → name = 95 :: s → False) :
    ∀ s, c = 95 → name ++ 0 :: rest = 95 :: s → False := by
  intro s hc hs
  cases name with
  | nil => cases hs
  | cons d t => exact h t hc (by rw [(cons.inj hs).1])

lemma hyphenateLoop_zeros (z : ℕ) : hyphenateLoop z (replicate (z + 1) 0 ++ rest) = replicate (z + 1) 0 ++ rest := by
  induction z with
  | zero => rfl
  | succ z ih =>
    rw [replicate_succ, cons_append, hyphenateLoop, ih]
    simp

/-- The end of the string moves by one, and a zero is left behind. -/
lemma move_one (s : Bytes) (z : ℕ) : (s ++ (replicate (z + 1) 0 ++ rest)).take (s.length + (z + 1)) ++
    (95 :: (s ++ (replicate (z + 1) 0 ++ rest))).drop (s.length + (z + 1)) = s ++ (replicate (z + 2) 0 ++ rest) := by
  rw [take_length_add_append, take_left' length_replicate, ← Nat.add_assoc, drop_succ_cons, drop_length_add_append,
    replicate_succ' (n := z), append_assoc _ [0], drop_left' length_replicate, replicate_succ' (n := z + 1),
    replicate_succ' (n := z)]
  simp

/-- Between the end of the string and `q` there are zeros. -/
lemma hyphenateLoop_append (name rest : Bytes) (z : ℕ) :
    ∃ b, hyphenateLoop (name.length + z) (name ++ (replicate (z + 1) 0 ++ rest)) = hyphenate name ++ 0 :: b := by
  fun_induction hyphenate name generalizing z with
  | case1 s ih =>
    obtain ⟨b, hb⟩ := ih (z + 1)
    refine ⟨b, ?_⟩
    rw [length_cons, length_cons, Nat.add_right_comm, Nat.add_assoc s.length, Nat.add_comm 1 z, cons_append, cons_append,
      hyphenateLoop, move_one, hb, cons_append]
  | case2 c s h ih =>
    obtain ⟨b, hb⟩ := ih z
    refine ⟨b, ?_⟩
    rw [length_cons, Nat.add_right_comm, cons_append, hyphenateLoop, hb, cons_append]
    exact append_ne h
  | case3 => exact ⟨replicate z 0 ++ rest, by rw [length_nil, Nat.zero_add, nil_append, hyphenateLoop_zeros]; rfl⟩

/-- From `q` on, everything is as it was. -/
lemma rewriteLoop_append (old : Bytes) : rewriteLoop (name.length + 1) old (name ++ 0 :: rest) =
    hyphenate name ++ 0 :: (old ++ (name ++ 0 :: rest)).drop ((hyphenate name).length + 1) := by
  fun_induction hyphenate name generalizing old with
  | case1 s ih =>
    rw [length_cons, length_cons, cons_append, cons_append, rewriteLoop, Nat.add_succ_sub_one, ih,
      ← tail_append_of_ne_nil (by simp), drop_tail]
    simp
  | case2 c s h ih =>
    rw [length_cons, cons_append, rewriteLoop, ih, ← tail_append_of_ne_nil (by simp), drop_tail]
    · simp
    · exact append_ne h
  | case3 =>
    rw [length_nil, nil_append, rewriteLoop, rewriteLoop, ← tail_append_of_ne_nil (by simp)]
    · simp
    · simp
    · simp
    · exact fun _ h => absurd h (by decide)

/-- The loop leaves what `writeStr` leaves. -/
lemma rewriteName_append (h : 0 ∉ name) : rewriteName (name ++ 0 :: rest) =
    hyphenate name ++ 0 :: (name ++ 0 :: rest).drop ((hyphenate name).length + 1) := by
  rw [rewriteName, strlen_append h, take_left]
  split
  · exact rewriteLoop_append []
  · next hno => simp [hyphenate_of_not hno]

/-- **Hyphens.**  A name is the same string after `strhyphenate` and after the loop of `parse_usdt_note`, whatever is behind
it, and the loop does to memory what the parser does. -/
theorem hyphens_agree (hb : cstr b 0 = some name) (hb' : cstr b' 0 = some name) :
    cstr (rewriteName b) 0 = cstr (strhyphenate b') 0 ∧ cstr (strhyphenate b') 0 = some (hyphenate name) ∧
      ∀ (s : St) (a : ℕ), s.mem.drop a = b →
        writeStr a (hyphenate name) s = (some (), { s with mem := s.mem.take a ++ rewriteName b }) := by
  obtain ⟨⟨rest, rfl⟩, hname⟩ := cstr_zero_iff.1 hb
  obtain ⟨⟨rest', rfl⟩, -⟩ := cstr_zero_iff.1 hb'
  have hzero := zero_notMem_hyphenate hname
  have hlib : cstr (strhyphenate (name ++ 0 :: rest')) 0 = some (hyphenate name) := by
    rw [strhyphenate, strlen_append hname]
    exact cstr_zero_iff.2 ⟨hyphenateLoop_append name rest' 0, hzero⟩
  refine ⟨?_, hlib, fun s a hmem => ?_⟩
  · rw [hlib]
    exact cstr_zero_iff.2 ⟨⟨_, rewriteName_append hname⟩, hzero⟩
  · rw [rewriteName_append hname, ← hmem, drop_drop]
    rfl

/-- `a___b`, with other bytes behind it. -/
theorem hyphens_agree_odd : cstr (rewriteName [97, 95, 95, 95, 98, 0, 95, 95]) 0 = some [97, 45, 95, 98] ∧
    cstr (strhyphenate [97, 95, 95, 95, 98, 0]) 0 = some [97, 45, 95, 98] := by
  have hname : ∀ rest : Bytes, cstr ([97, 95, 95, 95, 98] ++ 0 :: rest) 0 = some [97, 95, 95, 95, 98] := fun rest =>
    cstr_zero_iff.2 ⟨⟨rest, rfl⟩, by decide⟩
  obtain ⟨heq, hlib, -⟩ := hyphens_agree (hname [95, 95]) (hname [])
  exact ⟨heq.trans hlib, hlib⟩

end

end DTrace.Usdt
