import Mathlib.Data.List.Infix
import Mathlib.Data.Nat.Notation

/-!
# Flow indentation

`dt_flowindent` of `dt_consume.c`: which probes open and close a level of indentation.

* `flowKind` — the classification by the name of the probe; `dtFlowindent` — the function;
* `flowKind_iff` — it is the one the comment states, for the names in which the word does not occur earlier as well.
-/

namespace DTrace.Consume

open List

inductive Flow
  | entry
  | ret
  | none
  deriving DecidableEq, Repr

variable {n w : List Char} {prev : Option Char}

/-- `strstr`: the character before the first occurrence, if there is one, and the text from there on. -/
def strstr (w : List Char) : Option Char → List Char → Option (Option Char × List Char)
  | prev, [] => if w <+: [] then some (prev, []) else .none
  | prev, c :: n => if w <+: c :: n then some (prev, c :: n) else strstr w (some c) n

/-- The first occurrence of the word is at the end of the name, and is the whole of it or behind a hyphen. -/
def endsFlow (w : List Char) (prev : Option Char) (n : List Char) : Bool :=
  (strstr w prev n).any fun (prev, sub) => sub = w ∧ (prev = .none ∨ prev = some '-')

def ent : List Char := ['e', 'n', 't', 'r', 'y']

def ret : List Char := ['r', 'e', 't', 'u', 'r', 'n']

def flowKind (n : List Char) : Flow :=
  if endsFlow ent .none n then .entry else if endsFlow ret .none n then .ret else .none

/-- `dt_flowindent`: the flow, the prefix and the indentation. -/
def dtFlowindent (prv n : List Char) (id stid lastprid laststid : ℕ) (indent : ℤ) : Flow × String × ℤ :=
  let syscall := prv = "syscall".toList
  match flowKind n with
  | .entry =>
    if stid ≠ laststid ∧ id = lastprid then (.none, "| ", indent)
    else (.entry, if syscall then " => " else " -> ", indent)
  | .ret => (.ret, if syscall then " <= " else " <- ", if 0 < indent then indent - 2 else indent)
  | .none => (.none, "| ", indent)

/-- The name is the word, or ends with a hyphen and the word. -/
def Names (w : List Char) (prev : Option Char) (n : List Char) : Prop :=
  n = w ∧ (prev = .none ∨ prev = some '-') ∨ '-' :: w <:+ n

lemma endsFlow_iff (hw : w ≠ []) : endsFlow w prev n = true ↔ Names w prev n ∧ ¬w <:+: n.dropLast := by
  fun_induction strstr w prev n with
  | case1 prev h => exact absurd (prefix_nil.1 h) hw
  | case2 prev h => simp [endsFlow, strstr, h, Names, hw.symm]
  | case3 prev c n h =>
    rw [endsFlow, strstr, if_pos h]
    obtain ⟨t, ht⟩ := h
    rcases eq_or_ne t [] with rfl | hne
    · -- the word alone
      rw [append_nil] at ht
      have hshort : ¬w <:+: w.dropLast := fun h => by
        have := h.length_le
        have := length_pos_iff.2 hw
        simp only [length_dropLast] at *
        omega
      have hself : ¬ '-' :: w <:+ w := fun h => Nat.not_succ_le_self _ h.length_le
      simp [← ht, Names, hshort, hself]
    · have hinfix : w <:+: (c :: n).dropLast := ⟨[], t.dropLast, by rw [← ht, dropLast_append_of_ne_nil hne, nil_append]⟩
      have hlong : c :: n ≠ w := fun h => hne (by simpa [h] using ht)
      simp [hlong, hinfix]
  | case4 prev c n h ih =>
    rw [endsFlow, strstr, if_neg h]
    refine ih.trans (and_congr ?_ (not_congr ?_))
    · have hlong : c :: n ≠ w := fun heq => h (heq ▸ prefix_rfl)
      simp [Names, hlong, suffix_cons_iff, eq_comm, and_comm]
    · cases n with
      | nil => rfl
      | cons d n =>
        have hnot : ¬w <+: c :: (d :: n).dropLast := fun hp => h (hp.trans <| dropLast_prefix (c :: d :: n))
        rw [dropLast_cons_cons, infix_cons_iff, or_iff_right hnot]

lemma Names.suffix (h : Names w prev n) : w <:+ n := by
  rcases h with ⟨rfl, -⟩ | h
  · exact suffix_rfl
  · exact (suffix_cons '-' w).trans h

/-- **Flow.**  A name is classified by its end if and only if the word at the end does not occur earlier as well. -/
theorem flowKind_iff (n : List Char) :
    ((flowKind n = .entry ↔ Names ent .none n) ∧ (flowKind n = .ret ↔ Names ret .none n)) ↔
      ∀ w ∈ [ent, ret], Names w .none n → ¬w <:+: n.dropLast := by
  have hnot : ¬(Names ent .none n ∧ Names ret .none n) := fun h =>
    absurd (suffix_of_suffix_length_le h.1.suffix h.2.suffix (by decide)) (by decide)
  have hent : flowKind n = .entry ↔ endsFlow ent .none n := by
    unfold flowKind; split_ifs <;> simp [*]
  have hret : flowKind n = .ret ↔ ¬endsFlow ent .none n ∧ endsFlow ret .none n := by
    unfold flowKind; split_ifs <;> simp [*]
  rw [hent, hret, endsFlow_iff (by decide), endsFlow_iff (by decide)]
  simp only [mem_cons, not_mem_nil, or_false, forall_eq_or_imp, forall_eq]
  grind

/-- The word occurs twice. -/
theorem flowKind_entry_entry : flowKind "entry-entry".toList = .none ∧ Names ent .none "entry-entry".toList := by
  unfold Names
  decide

end DTrace.Consume
