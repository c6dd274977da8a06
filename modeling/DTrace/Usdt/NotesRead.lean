import DTrace.Usdt.Notes
import Mathlib.Data.List.TakeWhile

/-!
# Reading notes

What the reading functions give when memory is known to have something.

* `Holds` — memory has these bytes at that place, inside a window;
* `readBytes_holds`, `readStr_holds`, `readNat_holds` — they are read, and nothing else is read with them;
* `strarraySize_holds`, `xlatArgs_holds` — strings, one after the other.
-/

namespace DTrace.Usdt

open Lib List

/-- Memory has these bytes from `a` on, and they are in the window. -/
structure Holds (w : Window) (s : St) (a : ℕ) (bs : Bytes) : Prop where
  mem : bs <+: s.mem.drop a
  lo : w.lo ≤ a
  hi : a + bs.length ≤ w.hi

section

variable {s : St} {w : Window} {a n : ℕ} {xs ys str : Bytes}

lemma Holds.left (h : Holds w s a (xs ++ ys)) : Holds w s a xs := by
  have hhi := h.hi
  rw [length_append] at hhi
  exact ⟨(prefix_append xs ys).trans h.mem, h.lo, by omega⟩

lemma Holds.right (h : Holds w s a (xs ++ ys)) : Holds w s (a + xs.length) ys := by
  obtain ⟨⟨tail, htail⟩, hlo, hhi⟩ := h
  rw [length_append] at hhi
  refine ⟨⟨tail, ?_⟩, by omega, by omega⟩
  rw [← drop_drop, ← htail, append_assoc, drop_left]

lemma Holds.cons {x : BitVec 8} (h : Holds w s a (x :: xs)) : Holds w s a [x] ∧ Holds w s (a + 1) xs := by
  have happ : Holds w s a ([x] ++ xs) := h
  exact ⟨happ.left, happ.right⟩

lemma Holds.end_le (h : Holds w s a xs) (hne : xs ≠ []) : a + xs.length ≤ s.mem.length := by
  have hle := h.mem.length_le
  rw [length_drop] at hle
  have hpos := length_pos_of_ne_nil hne
  omega

lemma align4_add (ha : a % 4 = 0) (n : ℕ) : align4 (a + n) = a + align4 n := by
  simp only [align4]
  omega

lemma escapes_eq_false (hlo : w.lo ≤ a) (hhi : a + n ≤ w.hi) : w.escapes a n = false := by
  simp [Window.escapes, hlo, hhi]

lemma readBytes_holds (h : Holds w s a xs) (hle : a + xs.length ≤ s.mem.length) :
    readBytes w a xs.length s = (some xs, s) := by
  obtain ⟨⟨_, htail⟩, hlo, hhi⟩ := h
  rw [readBytes, if_pos hle, ← htail, take_left, escapes_eq_false hlo hhi, Bool.or_false]

lemma readByte_holds {x : BitVec 8} (h : Holds w s a [x]) : readByte w a s = (some x, s) := by
  have hbytes : readBytes w a 1 s = _ := readBytes_holds h (h.end_le (by simp))
  exact Exec.bind_some hbytes

lemma readNat_holds (h : Holds w s a xs) (hne : xs ≠ []) (hn : xs.length = n) :
    readNat w a n s = (some (Bytes.val xs), s) := by
  subst hn
  exact Exec.bind_some (readBytes_holds h (h.end_le hne))

/-- A string of memory: it has no 0, and there is one behind it. -/
lemma cstr_eq_some {mem : Bytes} : cstr mem a = some str ↔ str ++ [0] <+: mem.drop a ∧ 0 ∉ str := by
  constructor
  · intro h
    rw [cstr] at h
    split at h
    · rename_i hmem
      cases h
      have hne : ∀ x ∈ (mem.drop a).takeWhile (· ≠ 0), x ≠ 0 := fun x hx => by simpa using mem_takeWhile_imp hx
      refine ⟨?_, fun h0 => hne 0 h0 rfl⟩
      -- what comes behind the string begins with 0
      have hsplit := takeWhile_append_dropWhile (p := (· ≠ 0)) (l := mem.drop a)
      cases hrest : (mem.drop a).dropWhile (· ≠ 0) with
      | nil =>
        rw [hrest, append_nil] at hsplit
        rw [← hsplit] at hmem
        exact absurd rfl (hne 0 hmem)
      | cons c cs =>
        have hc : c = 0 := by
          have := head?_dropWhile_not (p := (· ≠ 0)) (l := mem.drop a)
          rw [hrest] at this
          simpa using this
        rw [hrest, hc] at hsplit
        exact ⟨cs, by rw [append_assoc]; exact hsplit⟩
    · cases h
  · rintro ⟨⟨tail, htail⟩, h0⟩
    have hmem : (0 : BitVec 8) ∈ str ++ [0] ++ tail := by simp
    have htake : (str ++ ([0] ++ tail)).takeWhile (fun x => decide (x ≠ 0)) = str := by
      rw [takeWhile_append_of_pos]
      · simp
      · intro x hx
        rw [decide_eq_true_iff]
        rintro rfl
        exact h0 hx
    rw [cstr, ← htail, if_pos hmem, append_assoc, htake]

lemma readStr_holds (h : Holds w s a (str ++ [0])) (h0 : 0 ∉ str) : readStr w a s = (some str, s) := by
  have hhi := h.hi
  rw [length_append, length_singleton] at hhi
  rw [readStr, cstr_eq_some.2 ⟨h.mem, h0⟩]
  dsimp only
  rw [escapes_eq_false h.lo hhi, Bool.or_false]

end

/-- Strings with a final 0, each with some more bytes. -/
def strs (ts : List (Bytes × Bytes)) : Bytes := ts.flatMap fun t => t.1 ++ 0 :: t.2

lemma strs_cons (t : Bytes × Bytes) (ts : List (Bytes × Bytes)) :
    strs (t :: ts) = t.1 ++ [0] ++ (t.2 ++ strs ts) := by
  simp [strs]

section

variable {s : St} {w : Window} {p skip : ℕ} {ts : List (Bytes × Bytes)}

lemma strarraySize_holds (h : Holds w s p (strs ts)) (h0 : ∀ t ∈ ts, 0 ∉ t.1) (hskip : ∀ t ∈ ts, t.2.length = skip) :
    strarraySize w skip ts.length p s = (some (some (p + (strs ts).length)), s) := by
  induction ts generalizing p with
  | nil => rfl
  | cons t ts ih =>
    rw [strs_cons] at h
    have hlen : (strs (t :: ts)).length = t.1.length + 1 + skip + (strs ts).length := by
      rw [strs_cons]
      simp [hskip t mem_cons_self]
      omega
    have hend := h.left.hi
    rw [length_append, length_singleton] at hend
    have hrest : Holds w s (p + t.1.length + 1 + skip) (strs ts) := by
      have := h.right.right
      rwa [hskip t mem_cons_self, length_append, length_singleton, ← Nat.add_assoc] at this
    have hrun := ih hrest (fun u hu => h0 u (mem_cons_of_mem _ hu)) fun u hu => hskip u (mem_cons_of_mem _ hu)
    rw [length_cons, strarraySize, if_neg (by omega), Exec.bind_some (readStr_holds h.left (h0 t mem_cons_self)), hrun,
      hlen]
    congr 3
    omega

def xstrs (xs : List (Bytes × BitVec 8)) : Bytes := strs (xs.map fun x => (x.1, [x.2]))

lemma xstrs_cons (x : Bytes × BitVec 8) (xs : List (Bytes × BitVec 8)) :
    xstrs (x :: xs) = x.1 ++ [0] ++ ([x.2] ++ xstrs xs) := by
  rw [xstrs, map_cons, strs_cons]
  rfl

lemma xlatArgs_holds {xs : List (Bytes × BitVec 8)} (h : Holds w s p (xstrs xs)) (h0 : ∀ x ∈ xs, 0 ∉ x.1) :
    xlatArgs w xs.length p s =
      (some (xs.flatMap fun x => x.1 ++ [0], xs.map Prod.snd, p + (xstrs xs).length), s) := by
  induction xs generalizing p with
  | nil => rfl
  | cons x xs ih =>
    rw [xstrs_cons] at h
    have hlen : (xstrs (x :: xs)).length = x.1.length + 2 + (xstrs xs).length := by
      rw [xstrs_cons]
      simp
      omega
    have hmap : Holds w s (p + x.1.length + 1) [x.2] := by
      have := h.right.left
      rwa [length_append, length_singleton, ← Nat.add_assoc] at this
    have hrest : Holds w s (p + x.1.length + 2) (xstrs xs) := by
      have := h.right.right
      rwa [length_append, length_singleton, length_singleton, ← Nat.add_assoc] at this
    rw [length_cons, xlatArgs, Exec.bind_some (readStr_holds h.left (h0 x mem_cons_self)),
      Exec.bind_some (readByte_holds hmap), Exec.bind_some (ih hrest fun u hu => h0 u (mem_cons_of_mem _ hu)), hlen]
    have hsum : p + x.1.length + 2 + (xstrs xs).length = p + (x.1.length + 2 + (xstrs xs).length) := by omega
    simp only [hsum, flatMap_cons, map_cons, append_assoc, singleton_append]
    rfl

lemma readWords_holds {ws : List (BitVec 32)} (h : Holds w s p (ws.flatMap fun v => Bytes.ofNat 4 v.toNat)) :
    readWords w ws.length p s = (some ws, s) := by
  induction ws generalizing p with
  | nil => rfl
  | cons v ws ih =>
    have hne : Bytes.ofNat 4 v.toNat ≠ [] := ne_nil_of_length_pos (by simp)
    have hrest := h.right
    rw [Bytes.length_ofNat] at hrest
    rw [length_cons, readWords, Exec.bind_some (readNat_holds h.left hne (Bytes.length_ofNat 4 v.toNat)),
      Exec.bind_some (ih hrest), Bytes.val_ofNat (by simpa using v.isLt), BitVec.ofNat_toNat, BitVec.setWidth_eq]
    rfl

end

end DTrace.Usdt
