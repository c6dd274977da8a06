import DTrace.Symtab.Model

/-!
# The sweep over symbols

Symbols are gone through in the order of their addresses.  Each turn makes a range that starts where the last one has
ended or where the next symbol starts, and that ends before any symbol starts or ends.

* `Preferred` — the symbol that an address should have;
* `candidates_spec` — all addresses of a new range should have its symbol;
* `Swept`, `Left` — what has been done up to an address, and what is left;
* `formLoop_spec` — the sweep ends, and no address is forgotten;
* `lookup_spec` — what a search in a sorted table gives.
-/

namespace DTrace.Symtab

open Lib List

def DtSymbol.Covers (sym : DtSymbol) (a : ℕ) : Prop := sym.addr ≤ a ∧ a < sym.addr + sym.size

instance (sym : DtSymbol) (a : ℕ) : Decidable (sym.Covers a) := inferInstanceAs (Decidable (_ ∧ _))

/-- The greatest start comes first, then the smallest size, then the order of the table. -/
def preferCmp : DtSymbol → DtSymbol → ℤ :=
  andThen (fun lhs rhs => cmpOn DtSymbol.addr rhs lhs) (andThen (cmpOn DtSymbol.size) dtSymrangeSortCmp)

/-- A symbol has an address, no other one that has it comes before it, and of those that do not come after it either it is
the first in the table. -/
structure Preferred (a : ℕ) (syms : List DtSymbol) (sym : DtSymbol) : Prop where
  mem : sym ∈ syms
  covers : sym.Covers a
  first : ∀ t ∈ syms, t.Covers a → preferCmp sym t ≤ 0
  place : ∃ before after, syms = before ++ sym :: after ∧ ∀ t ∈ before, t.Covers a → preferCmp sym t ≠ 0

/-- Symbols that do not overlap, or that are in the order of the table. -/
def InOrder (s t : DtSymbol) : Prop := s.addr + s.size ≤ t.addr ∨ dtSymrangeSortCmp s t ≤ 0

variable {s sym : DtSymbol} {syms : List DtSymbol}

section

variable {a lo hi : ℕ} {t : DtSymbol} {rest : List DtSymbol}

lemma DtSymbol.fin_eq (h : sym.addr + sym.size < 2 ^ 64) : sym.fin = sym.addr + sym.size := Nat.mod_eq_of_lt h

lemma weakOrder_rankCmp (S : DtSymbol → Prop) : WeakOrder rankCmp S :=
  (weakOrder_cmpOn _ S).andThen ((weakOrder_cmpOn _ S).andThen (weakOrder_cmpOn _ S))

lemma weakOrder_dtSymrangeSortCmp (S : DtSymbol → Prop) : WeakOrder dtSymrangeSortCmp S :=
  (weakOrder_cmpOn _ S).andThen ((weakOrder_cmpOn DtSymbol.size S).swap.andThen
    ((weakOrder_rankCmp S).andThen (weakOrder_strcmp DtSymbol.name S)))

lemma weakOrder_preferCmp (S : DtSymbol → Prop) : WeakOrder preferCmp S :=
  (weakOrder_cmpOn DtSymbol.addr S).swap.andThen ((weakOrder_cmpOn _ S).andThen (weakOrder_dtSymrangeSortCmp S))

lemma addr_size_of_sorted (h : dtSymrangeSortCmp s t ≤ 0) :
    s.addr ≤ t.addr ∧ (s.addr = t.addr → t.size ≤ s.size) := by
  rcases andThen_le_zero.1 h with h | ⟨h, h'⟩
  · have := cmpOn_lt_zero.1 h
    omega
  · have haddr := cmpOn_eq_zero.1 h
    have hsize : t.size ≤ s.size := by
      rcases andThen_le_zero.1 h' with h | ⟨h, -⟩
      · exact (cmpOn_lt_zero.1 h).le
      · exact (cmpOn_eq_zero.1 h).le
    exact ⟨haddr.le, fun _ => hsize⟩

lemma InOrder.addr_le (h : InOrder s t) : s.addr ≤ t.addr := by
  rcases h with h | h
  · omega
  · exact (addr_size_of_sorted h).1

lemma preferCmp_of_wins (h : t.wins s) : preferCmp t s < 0 := by
  rcases of_decide_eq_true h with h | ⟨haddr, hsize⟩
  · exact andThen_lt_zero.2 (.inl (cmpOn_lt_zero.2 h))
  · exact andThen_lt_zero.2 (.inr ⟨cmpOn_eq_zero.2 haddr.symm, andThen_lt_zero.2 (.inl (cmpOn_lt_zero.2 hsize))⟩)

lemma preferCmp_of_not_wins (hcmp : dtSymrangeSortCmp s t ≤ 0) (h : ¬t.wins s) : preferCmp s t ≤ 0 := by
  obtain ⟨hle, hge⟩ := addr_size_of_sorted hcmp
  simp only [DtSymbol.wins, decide_eq_true_eq, not_or, not_and, not_lt] at h
  have haddr : s.addr = t.addr := le_antisymm hle h.1
  have hsize : s.size = t.size := le_antisymm (h.2 haddr.symm) (hge haddr)
  exact andThen_le_zero.2 (.inr ⟨cmpOn_eq_zero.2 haddr.symm,
    andThen_le_zero.2 (.inr ⟨cmpOn_eq_zero.2 hsize, hcmp⟩)⟩)

/-- Symbols that do not have the address make no difference. -/
lemma Preferred.more (h : Preferred a syms sym) (before after : List DtSymbol) (hbefore : ∀ t ∈ before, ¬t.Covers a)
    (hafter : ∀ t ∈ after, ¬t.Covers a) : Preferred a (before ++ (syms ++ after)) sym := by
  obtain ⟨front, back, hsyms, hfront⟩ := h.place
  refine ⟨by simp [h.mem], h.covers, fun t ht hc => ?_, before ++ front, back ++ after, by simp [hsyms], fun t ht hc => ?_⟩
  · rcases mem_append.1 ht with ht | ht
    · exact absurd hc (hbefore t ht)
    · exact h.first t ((mem_append.1 ht).resolve_right fun ht => hafter t ht hc) hc
  · exact hfront t ((mem_append.1 ht).resolve_left fun ht => hbefore t ht hc) hc

lemma Preferred.concat (h : Preferred a syms s) (hc : t.Covers a) (hord : InOrder s t) :
    Preferred a (syms ++ [t]) (if t.wins s then t else s) := by
  have hpre := weakOrder_preferCmp fun _ => True
  have hcmp : dtSymrangeSortCmp s t ≤ 0 := hord.resolve_left fun hle => by
    have := h.covers.2
    have := hc.1
    omega
  have hmem : ∀ {u}, u ∈ syms ++ [t] → u ∈ syms ∨ u = t := by simp
  split
  · rename_i hwins
    have hbefore : ∀ u ∈ syms, u.Covers a → preferCmp t u < 0 := fun u hu huc =>
      hpre.lt_of_lt_of_le trivial trivial trivial (preferCmp_of_wins hwins) (h.first u hu huc)
    refine ⟨by simp, hc, fun u hu huc => ?_, syms, [], rfl, fun u hu huc => (hbefore u hu huc).ne⟩
    rcases hmem hu with hu | rfl
    · exact (hbefore u hu huc).le
    · exact (hpre.self trivial).le
  · rename_i hwins
    obtain ⟨front, back, hsyms, hfront⟩ := h.place
    refine ⟨by simp [h.mem], h.covers, fun u hu huc => ?_, front, back ++ [t], by simp [hsyms], hfront⟩
    rcases hmem hu with hu | rfl
    · exact h.first u hu huc
    · exact preferCmp_of_not_wins hcmp hwins

/-- A new range has the symbol that its addresses should have, and it ends at the start or at the end of a symbol. -/
lemma candidates_spec (past : List DtSymbol) (hov : ∀ s ∈ past ++ rest, s.addr + s.size < 2 ^ 64)
    (hsorted : (past ++ rest).Pairwise InOrder) (hlo : lo < hi)
    (hpast : ∀ a, lo ≤ a → a < hi → Preferred a past sym) (hend : ∃ s ∈ past ++ rest, hi = s.addr ∨ hi = s.fin) :
    lo < (candidates lo rest hi sym).1 ∧ (candidates lo rest hi sym).1 ≤ hi ∧
      (∀ a, lo ≤ a → a < (candidates lo rest hi sym).1 →
        Preferred a (past ++ rest) (candidates lo rest hi sym).2) ∧
      ∃ s ∈ past ++ rest, (candidates lo rest hi sym).1 = s.addr ∨ (candidates lo rest hi sym).1 = s.fin := by
  induction rest generalizing past hi sym with
  | nil => exact ⟨hlo, le_rfl, fun a h1 h2 => by rw [append_nil]; exact hpast a h1 h2, hend⟩
  | cons t rest ih =>
    have ht : t ∈ past ++ t :: rest := by simp
    have hfin := DtSymbol.fin_eq (hov t ht)
    obtain ⟨-, hrest, hcross⟩ := pairwise_append.1 hsorted
    -- an address below this symbol is below all the others
    have hbelow : ∀ a, lo ≤ a → a < hi → a < t.addr → Preferred a (past ++ t :: rest) sym := by
      intro a h1 h2 h3
      refine (hpast a h1 h2).more [] _ (by simp) fun s hs hc => ?_
      have : t.addr ≤ s.addr := by
        rcases mem_cons.1 hs with rfl | hs
        · exact le_rfl
        · exact ((pairwise_cons.1 hrest).1 s hs).addr_le
      have := hc.1
      omega
    rw [append_cons] at hov hsorted hend
    rw [candidates]
    by_cases hhigh : hi ≤ t.addr
    · rw [if_pos hhigh]
      exact ⟨hlo, le_rfl, fun a h1 h2 => hbelow a h1 h2 (h2.trans_le hhigh), by rwa [append_cons]⟩
    rw [if_neg hhigh]
    by_cases hcut : lo < t.addr
    · rw [if_pos hcut]
      exact ⟨hcut, (not_le.1 hhigh).le, fun a h1 h2 => hbelow a h1 (h2.trans (not_le.1 hhigh)) h2,
        t, ht, .inl rfl⟩
    rw [if_neg hcut, append_cons]
    by_cases hpassed : t.fin ≤ lo
    · rw [if_pos hpassed]
      refine ih (past ++ [t]) hov hsorted hlo (fun a h1 h2 => ?_) hend
      refine (hpast a h1 h2).more [] _ (by simp) fun s hs hc => ?_
      obtain rfl := mem_singleton.1 hs
      have := hc.2
      omega
    · rw [if_neg hpassed]
      have hlo' : lo < if t.fin < hi then t.fin else hi := by split <;> omega
      have hle : (if t.fin < hi then t.fin else hi) ≤ hi ∧ (if t.fin < hi then t.fin else hi) ≤ t.fin := by
        split <;> omega
      have hend' : ∃ s ∈ past ++ [t] ++ rest, (if t.fin < hi then t.fin else hi) = s.addr ∨
          (if t.fin < hi then t.fin else hi) = s.fin := by
        split
        · exact ⟨t, by simp, .inr rfl⟩
        · exact hend
      obtain ⟨h1, h2, h3⟩ := ih (past ++ [t]) hov hsorted hlo' (fun a ha ha' => by
        have hsym := hpast a ha (by omega)
        exact hsym.concat ⟨by omega, by omega⟩ (hcross sym hsym.mem t mem_cons_self)) hend'
      exact ⟨h1, h2.trans hle.1, h3⟩

end

/-! ## Ranges -/

/-- Ranges, last one first, are apart, and they are those of the addresses below `hi` that have a symbol. -/
structure Swept (syms : List DtSymbol) (hi : ℕ) (new : List DtSymrange) : Prop where
  ordered : new.Pairwise fun r r' => r'.hi ≤ r.lo
  proper : ∀ r ∈ new, r.lo < r.hi ∧ r.hi ≤ hi
  owner : ∀ r ∈ new, ∀ a, r.lo ≤ a → a < r.hi → Preferred a syms r.sym
  cover : ∀ a < hi, ∀ s ∈ syms, s.Covers a → ∃ r ∈ new, r.lo ≤ a ∧ a < r.hi

/-- What is left to be gone through, and how far the symbols before it reach. -/
structure Left (past rest : List DtSymbol) (hi : ℕ) : Prop where
  passed : ∀ s ∈ past, ∀ a, hi ≤ a → ¬s.Covers a
  small : ∀ s ∈ past ++ rest, s.addr + s.size < 2 ^ 64
  sorted : (past ++ rest).Pairwise InOrder

/-- Addresses where a symbol starts or ends that are still above `hi`, and symbols that are still there. -/
def work (rest : List DtSymbol) (hi : ℕ) : ℕ :=
  rest.length + rest.countP (hi < ·.addr) + rest.countP (hi < ·.fin)

section

variable {lo hi hi' : ℕ} {past rest : List DtSymbol} {new : List DtSymrange}

lemma Swept.nil (syms : List DtSymbol) : Swept syms 0 [] :=
  ⟨List.Pairwise.nil, fun _ h => absurd h not_mem_nil, fun _ h => absurd h not_mem_nil,
    fun a h => absurd h (Nat.not_lt_zero a)⟩

/-- Another range.  One that goes on where the last one ends, with the same symbol, makes that one longer. -/
lemma Swept.add (h : Swept syms hi new) (hlo : hi ≤ lo) (hhi : lo < hi')
    (hgap : ∀ s ∈ syms, ∀ a, hi ≤ a → s.Covers a → lo ≤ a)
    (hown : ∀ a, lo ≤ a → a < hi' → Preferred a syms sym) : Swept syms hi' (addRange lo hi' sym new) := by
  have happ : Swept syms hi' (⟨lo, hi', sym⟩ :: new) := by
    refine ⟨pairwise_cons.2 ⟨fun r hr => (h.proper r hr).2.trans hlo, h.ordered⟩, fun r hr => ?_,
      fun r hr => ?_, fun a ha s hs hc => ?_⟩
    · rcases mem_cons.1 hr with rfl | hr
      · exact ⟨hhi, le_rfl⟩
      · have := h.proper r hr
        omega
    · exact forall_mem_cons.2 ⟨hown, h.owner⟩ r hr
    · rcases Nat.lt_or_ge a hi with hlt | hge
      · obtain ⟨r, hr, hin⟩ := h.cover a hlt s hs hc
        exact ⟨r, mem_cons_of_mem _ hr, hin⟩
      · exact ⟨_, mem_cons_self, hgap s hs a hge hc, ha⟩
  rcases new with _ | ⟨r, _⟩
  · exact happ
  rw [addRange]
  split
  · rename_i hsame
    obtain ⟨hord, hord'⟩ := pairwise_cons.1 (pairwise_cons.1 happ.ordered).2
    have hr := h.proper r mem_cons_self
    have hlast : ∀ a, r.lo ≤ a ∧ a < hi' ↔ (r.lo ≤ a ∧ a < r.hi) ∨ (lo ≤ a ∧ a < hi') := by
      intro a
      omega
    refine ⟨pairwise_cons.2 ⟨hord, hord'⟩, fun r' hr' => ?_, fun r' hr' a h1 h2 => ?_, fun a ha s hs hc => ?_⟩
    · rcases mem_cons.1 hr' with rfl | hr'
      · exact ⟨by simp only; omega, le_rfl⟩
      · exact happ.proper r' (by simp [hr'])
    · rcases mem_cons.1 hr' with rfl | hr'
      · rcases (hlast a).1 ⟨h1, h2⟩ with hin | hin
        · exact h.owner r mem_cons_self a hin.1 hin.2
        · exact hsame.2 ▸ hown a hin.1 hin.2
      · exact happ.owner r' (by simp [hr']) a h1 h2
    · obtain ⟨r', hr', hin⟩ := happ.cover a ha s hs hc
      rcases mem_cons.1 hr' with rfl | hr'
      · exact ⟨_, mem_cons_self, (hlast a).2 (.inr hin)⟩
      · rcases mem_cons.1 hr' with rfl | hr'
        · exact ⟨_, mem_cons_self, (hlast a).2 (.inl hin)⟩
        · exact ⟨r', mem_cons_of_mem _ hr', hin⟩
  · exact happ

lemma Left.next (h : Left past (sym :: rest) hi) (hsym : ∀ a, hi ≤ a → ¬sym.Covers a) :
    Left (past ++ [sym]) rest hi := by
  exact ⟨forall_mem_append.2 ⟨h.passed, forall_mem_singleton.2 hsym⟩, by simpa using h.small, by simpa using h.sorted⟩

lemma work_le (rest : List DtSymbol) (hi : ℕ) : work rest hi ≤ 3 * rest.length := by
  have h1 := countP_le_length (p := fun s : DtSymbol => decide (hi < s.addr)) (l := rest)
  have h2 := countP_le_length (p := fun s : DtSymbol => decide (hi < s.fin)) (l := rest)
  unfold work
  omega

lemma work_next (sym : DtSymbol) (rest : List DtSymbol) (hi : ℕ) : work rest hi < work (sym :: rest) hi := by
  simp only [work, length_cons, countP_cons]
  omega

lemma countP_above_le (rest : List DtSymbol) (f : DtSymbol → ℕ) (hle : hi ≤ hi') :
    rest.countP (hi' < f ·) ≤ rest.countP (hi < f ·) :=
  countP_mono_left fun _ _ h => decide_eq_true (hle.trans_lt (of_decide_eq_true h))

lemma countP_above_lt {f : DtSymbol → ℕ} (hlt : hi < hi') (hmem : ∃ s ∈ rest, hi' = f s) :
    rest.countP (hi' < f ·) < rest.countP (hi < f ·) := by
  obtain ⟨s, hs, rfl⟩ := hmem
  obtain ⟨l1, l2, rfl⟩ := append_of_mem hs
  have h1 := countP_above_le l1 f hlt.le
  have h2 := countP_above_le l2 f hlt.le
  simp only [countP_append, countP_cons, decide_eq_true_eq, lt_irrefl, hlt, if_false, if_true]
  omega

lemma work_lt (hlt : hi < hi') (hend : ∃ s ∈ rest, hi' = s.addr ∨ hi' = s.fin) : work rest hi' < work rest hi := by
  have h1 := countP_above_le rest DtSymbol.addr hlt.le
  have h2 := countP_above_le rest DtSymbol.fin hlt.le
  obtain ⟨s, hs, he | he⟩ := hend
  · have := countP_above_lt hlt ⟨s, hs, he⟩
    unfold work
    omega
  · have := countP_above_lt hlt ⟨s, hs, he⟩
    unfold work
    omega

lemma formLoop_spec {fuel : ℕ} (past : List DtSymbol) (h : Left past rest hi) (hnew : Swept (past ++ rest) hi new)
    (hfuel : work rest hi ≤ fuel) :
    ∃ ranges hi', formLoop fuel rest hi new = some ranges ∧ Swept (past ++ rest) hi' ranges.reverse ∧
      ∀ s ∈ past ++ rest, ∀ a, hi' ≤ a → ¬s.Covers a := by
  induction fuel generalizing past rest hi new with
  | zero =>
    cases rest with
    | nil => exact ⟨_, hi, rfl, by rwa [reverse_reverse], by simpa using h.passed⟩
    | cons sym rest =>
      have := work_next sym rest hi
      omega
  | succ fuel ih =>
    cases rest with
    | nil => exact ⟨_, hi, rfl, by rwa [reverse_reverse], by simpa using h.passed⟩
    | cons sym rest =>
      have hwork := work_next sym rest hi
      have hfin := DtSymbol.fin_eq (h.small sym (by simp))
      have hskip : (∀ a, hi ≤ a → ¬sym.Covers a) → ∃ ranges hi', formLoop fuel rest hi new = some ranges ∧
          Swept (past ++ sym :: rest) hi' ranges.reverse ∧
          ∀ s ∈ past ++ sym :: rest, ∀ a, hi' ≤ a → ¬s.Covers a := by
        intro hsym
        rw [append_cons] at hnew ⊢
        exact ih _ (h.next hsym) hnew (by omega)
      rw [formLoop]
      by_cases hsize : sym.size = 0
      · rw [if_pos hsize]
        exact hskip fun a _ hc => by have := hc.1; have := hc.2; omega
      rw [if_neg hsize]
      by_cases hnext : sym.addr < hi ∧ sym.fin ≤ hi
      · rw [if_pos hnext]
        exact hskip fun a ha hc => by have := hc.2; omega
      rw [if_neg hnext]
      set lo := if sym.addr < hi then hi else sym.addr with hlo
      have hlow : hi ≤ lo ∧ sym.addr ≤ lo ∧ lo < sym.fin ∧ (lo = hi ∨ lo = sym.addr) := by
        rw [hlo]
        split <;> omega
      obtain ⟨-, hsorted, -⟩ := pairwise_append.1 h.sorted
      have hsym : ∀ a, lo ≤ a → a < sym.fin → Preferred a [sym] sym := fun a ha ha' => by
        refine ⟨mem_singleton_self sym, ⟨by omega, by omega⟩, fun t ht _ => ?_, [], [], rfl, by simp⟩
        rw [mem_singleton.1 ht]
        exact ((weakOrder_preferCmp fun _ => True).self trivial).le
      obtain ⟨h1, -, h3, h4⟩ := candidates_spec [sym] (fun s hs => h.small s (mem_append_right past hs)) hsorted
        hlow.2.2.1 hsym ⟨sym, mem_cons_self, .inr rfl⟩
      refine ih past ⟨fun s hs a ha => h.passed s hs a (by omega), h.small, h.sorted⟩ (hnew.add hlow.1 h1 ?_ ?_)
        (Nat.lt_succ_iff.1 ((work_lt (hlow.1.trans_lt h1) h4).trans_le hfuel))
      · intro s hs a ha hc
        rcases mem_append.1 hs with hs | hs
        · exact absurd hc (h.passed s hs a ha)
        · have : sym.addr ≤ s.addr := by
            rcases mem_cons.1 hs with rfl | hs
            · exact le_rfl
            · exact ((pairwise_cons.1 hsorted).1 s hs).addr_le
          have := hc.1
          omega
      · intro a ha ha'
        have hbest := (h3 a ha ha').more past [] (fun s hs => h.passed s hs a (by omega)) (by simp)
        rwa [append_nil] at hbest

lemma dtSymbolSearchCmp_neg (addr : ℕ) (r : DtSymrange) : dtSymbolSearchCmp addr r < 0 ↔ addr < r.lo := by
  unfold dtSymbolSearchCmp
  split
  · simpa
  · split <;> simp <;> omega

lemma dtSymbolSearchCmp_pos (addr : ℕ) (r : DtSymrange) :
    0 < dtSymbolSearchCmp addr r ↔ r.lo ≤ addr ∧ r.hi ≤ addr := by
  unfold dtSymbolSearchCmp
  split
  · simp; omega
  · split <;> simp <;> omega

lemma dtSymbolSearchCmp_zero (addr : ℕ) (r : DtSymrange) :
    dtSymbolSearchCmp addr r = 0 ↔ r.lo ≤ addr ∧ addr < r.hi := by
  have h1 := dtSymbolSearchCmp_neg addr r
  have h2 := dtSymbolSearchCmp_pos addr r
  omega

lemma dtSymbolByAddr_spec {ranges : List DtSymrange} (h : Swept syms hi ranges.reverse)
    (hend : ∀ s ∈ syms, ∀ a, hi ≤ a → ¬s.Covers a) (addr : ℕ) :
    (dtSymbolByAddr ranges addr = none ↔ ∀ s ∈ syms, ¬s.Covers addr) ∧
      ∀ s, dtSymbolByAddr ranges addr = some s → Preferred addr syms s := by
  have hord := pairwise_reverse.1 h.ordered
  have hproper : ∀ r ∈ ranges, r.lo < r.hi := fun r hr => (h.proper r (mem_reverse.2 hr)).1
  have hsome : ∀ s, dtSymbolByAddr ranges addr = some s → Preferred addr syms s := by
    intro s hs
    obtain ⟨r, hfind, rfl⟩ := Option.map_eq_some_iff.1 hs
    obtain ⟨hr, hc⟩ := bsearchLoop_some hfind
    have hin := (dtSymbolSearchCmp_zero addr r).1 hc
    exact h.owner r (mem_reverse.2 hr) addr hin.1 hin.2
  refine ⟨⟨fun hnone s hs hc => ?_, fun hnone => ?_⟩, hsome⟩
  · have hno : ∀ r ∈ ranges, dtSymbolSearchCmp addr r ≠ 0 := by
      refine bsearchLoop_none le_rfl (hord.imp_of_mem fun {r r'} hr hr' hle => ?_)
        (hord.imp_of_mem fun {r r'} hr hr' hle => ?_) (Option.map_eq_none_iff.1 hnone)
      · have := hproper r hr
        rw [dtSymbolSearchCmp_neg, dtSymbolSearchCmp_neg]
        omega
      · have := hproper r hr
        rw [dtSymbolSearchCmp_pos, dtSymbolSearchCmp_pos]
        omega
    rcases Nat.lt_or_ge addr hi with hlt | hge
    · obtain ⟨r, hr, hin⟩ := h.cover addr hlt s hs hc
      exact hno r (mem_reverse.1 hr) ((dtSymbolSearchCmp_zero addr r).2 hin)
    · exact hend s hs addr hge hc
  · by_contra hne
    obtain ⟨s, hs⟩ := Option.ne_none_iff_exists'.1 hne
    exact hnone s (hsome s hs).mem (hsome s hs).covers

end

/-! ## Sorted tables -/

section

def DtSymbol.unsized (sym : DtSymbol) : DtSymbol := { sym with size := 0 }

lemma map_unsized_resize (syms : List DtSymbol) : (resize syms).map DtSymbol.unsized = syms.map DtSymbol.unsized := by
  fun_induction resize syms with
  | case1 sym nsym rest ih => rw [map_cons, ih, map_cons, map_cons]; rfl
  | case2 syms _ => rfl

lemma addr_mem_of_resize (hs : s ∈ resize syms) : ∃ t ∈ syms, t.addr = s.addr := by
  have hmem := map_unsized_resize syms ▸ mem_map_of_mem hs
  obtain ⟨t, ht, heq⟩ := mem_map.1 hmem
  exact ⟨t, ht, (DtSymbol.mk.inj heq).2.2.1⟩

lemma resize_size {nsym : DtSymbol} (hle : sym.addr ≤ nsym.addr) (hlt : nsym.addr < 2 ^ 64) :
    sym.addr + (nsym.addr + (2 ^ 64 - sym.addr)) % 2 ^ 64 = nsym.addr := by
  rw [show nsym.addr + (2 ^ 64 - sym.addr) = nsym.addr - sym.addr + 2 ^ 64 by omega, Nat.add_mod_right,
    Nat.mod_eq_of_lt (by omega)]
  omega

lemma pairwise_resize (haddr : ∀ s ∈ syms, s.addr < 2 ^ 64) (hsorted : syms.Pairwise fun s t => s.addr ≤ t.addr) :
    (resize syms).Pairwise fun s t => s.addr + s.size ≤ t.addr := by
  fun_induction resize syms with
  | case1 sym nsym rest ih =>
    obtain ⟨hsym, hrest⟩ := pairwise_cons.1 hsorted
    have hnsym := haddr nsym (mem_cons_of_mem sym mem_cons_self)
    refine pairwise_cons.2 ⟨fun t ht => ?_, ih (fun s hs => haddr s (mem_cons_of_mem sym hs)) hrest⟩
    simp only [resize_size (hsym nsym mem_cons_self) hnsym]
    -- the next symbol is the lowest of the others, and they still start where they did
    obtain ⟨t', ht', heq⟩ := addr_mem_of_resize ht
    rw [← heq]
    rcases mem_cons.1 ht' with rfl | ht'
    · exact le_rfl
    · exact (pairwise_cons.1 hrest).1 t' ht'
  | case2 syms hshort =>
    match syms, hshort with
    | [], _ => exact List.Pairwise.nil
    | [s], _ => exact pairwise_singleton _ s
    | s :: t :: rest, hshort => exact absurd rfl (hshort s t rest)

lemma fin_of_resize (haddr : ∀ s ∈ syms, s.addr < 2 ^ 64) (hsorted : syms.Pairwise fun s t => s.addr ≤ t.addr)
    (hs : s ∈ resize syms) : s ∈ syms ∨ ∃ t ∈ syms, s.addr + s.size = t.addr := by
  fun_induction resize syms with
  | case1 sym nsym rest ih =>
    obtain ⟨hsym, hrest⟩ := pairwise_cons.1 hsorted
    rcases mem_cons.1 hs with rfl | hs
    · refine .inr ⟨nsym, mem_cons_of_mem sym mem_cons_self, ?_⟩
      exact resize_size (hsym nsym mem_cons_self) (haddr nsym (mem_cons_of_mem sym mem_cons_self))
    · rcases ih (fun s hs => haddr s (mem_cons_of_mem sym hs)) hrest hs with h | ⟨t, ht, h⟩
      · exact .inl (mem_cons_of_mem sym h)
      · exact .inr ⟨t, mem_cons_of_mem sym ht, h⟩
  | case2 syms _ => exact .inl hs

lemma sortedSyms_spec (q : Qsort dtSymrangeSortCmp) (flag : Bool) (hov : ∀ s ∈ syms, s.addr + s.size < 2 ^ 64) :
    (∀ s ∈ sortedSyms q syms flag, s.addr + s.size < 2 ^ 64) ∧ (sortedSyms q syms flag).Pairwise InOrder := by
  set nonzero := syms.filter fun sym => 0 < sym.size
  have hsmall : ∀ s ∈ q.sort nonzero, s.addr + s.size < 2 ^ 64 := fun s hs =>
    hov s (mem_of_mem_filter (q.mem.1 hs))
  have hsorted := q.sorted nonzero (weakOrder_dtSymrangeSortCmp _)
  cases flag with
  | false => exact ⟨hsmall, hsorted.imp .inr⟩
  | true =>
    have haddr : ∀ s ∈ q.sort nonzero, s.addr < 2 ^ 64 := fun s hs => (Nat.le_add_right _ _).trans_lt (hsmall s hs)
    have hlow := hsorted.imp fun h => (addr_size_of_sorted h).1
    refine ⟨fun s hs => ?_, (pairwise_resize haddr hlow).imp .inl⟩
    rcases fin_of_resize haddr hlow hs with h | ⟨t, ht, h⟩
    · exact hsmall s h
    · rw [h]
      exact haddr t ht

lemma form_of_sorted (q : Qsort dtSymrangeSortCmp) (flag : Bool) (hov : ∀ s ∈ syms, s.addr + s.size < 2 ^ 64) :
    ∃ ranges hi, dtSymtabSort q syms flag = some ranges ∧ Swept (sortedSyms q syms flag) hi ranges.reverse ∧
      ∀ s ∈ sortedSyms q syms flag, ∀ a, hi ≤ a → ¬s.Covers a := by
  obtain ⟨hsmall, hsorted⟩ := sortedSyms_spec q flag hov
  exact formLoop_spec [] ⟨fun _ h => absurd h not_mem_nil, hsmall, hsorted⟩ (Swept.nil _) (work_le _ 0)

/-- A table is built, its ranges are in order and apart, and an address is given the symbol that has it and that is
preferred, if there is one.  Symbols without a size are left out; with `flag`, the others have their new sizes. -/
theorem lookup_spec (q : Qsort dtSymrangeSortCmp) (syms : List DtSymbol) (flag : Bool)
    (hov : ∀ s ∈ syms, s.addr + s.size < 2 ^ 64) :
    (flag = false → ∀ s, s ∈ sortedSyms q syms flag ↔ s ∈ syms ∧ 0 < s.size) ∧
    ∃ ranges, dtSymtabSort q syms flag = some ranges ∧
      ranges.Pairwise (fun r r' => r.hi ≤ r'.lo) ∧ (∀ r ∈ ranges, r.lo < r.hi) ∧
      ∀ addr, (dtSymbolByAddr ranges addr = none ↔ ∀ s ∈ sortedSyms q syms flag, ¬s.Covers addr) ∧
        ∀ s, dtSymbolByAddr ranges addr = some s → Preferred addr (sortedSyms q syms flag) s := by
  refine ⟨?_, ?_⟩
  · rintro rfl s
    simp [sortedSyms, q.mem]
  · obtain ⟨ranges, hi, hranges, hswept, hend⟩ := form_of_sorted q flag hov
    exact ⟨ranges, hranges, pairwise_reverse.1 hswept.ordered,
      fun r hr => (hswept.proper r (mem_reverse.2 hr)).1, dtSymbolByAddr_spec hswept hend⟩

/-- A symbol with two aliases inside it, and another one in these. -/
theorem lookup_nested : let syms : List DtSymbol :=
      [⟨0, [65], 0, 100, 2⟩, ⟨1, [67], 40, 20, 2⟩, ⟨2, [66], 40, 20, 2⟩, ⟨3, [68], 50, 5, 2⟩]
    let pieces := [(0, 40, 0), (40, 50, 2), (50, 55, 3), (55, 60, 2), (60, 100, 0)]
    ∃ ranges, dtSymtabSort (Qsort.insertion _) syms false = some ranges ∧
      ranges.Pairwise (fun r r' => r.hi ≤ r'.lo) ∧ ranges.map (fun r => (r.lo, r.hi, r.sym.ptr)) = pieces := by
  intro syms pieces
  obtain ⟨-, ranges, hranges, hord, -⟩ := lookup_spec (Qsort.insertion _) syms false (by decide)
  refine ⟨ranges, hranges, hord, ?_⟩
  have hrun : (dtSymtabSort (Qsort.insertion _) syms false).map (List.map fun r => (r.lo, r.hi, r.sym.ptr)) =
      some pieces := by decide +kernel
  rw [hranges] at hrun
  exact Option.some.inj hrun

end

end DTrace.Symtab
