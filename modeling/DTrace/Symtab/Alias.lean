import DTrace.Symtab.Sweep

/-!
# Aliases in a table without sizes

`/proc/kallsyms` has no sizes.  All symbols are inserted with the same one, and once they are sorted each of them gets
a size that takes it to the next one.  Aliases start at the same address, so all but the last of them get size 0.

* `formLoop_wraps` — a last symbol that wraps around the end of address space keeps the sweep from ending;
* `rankCmp_of_covers` — an alias that still has addresses is the last in the order;
* `alias_preference_iff` — when a search gives an alias that is ranked best.
-/

namespace DTrace.Symtab

open Lib List

/-- The symbols that are given a place in the table. -/
def placed (syms : List DtSymbol) : List DtSymbol := syms.filter fun sym => 0 < sym.size

/-- The symbols that an address belongs to are those at `start`: there is no other start up to it, and it is below a
later start, or in the size `z` that symbols have been inserted with. -/
def StartOf (syms : List DtSymbol) (z start addr : ℕ) : Prop :=
  start ≤ addr ∧ (∀ s ∈ syms, s.addr ≤ addr → s.addr ≤ start) ∧ ((∃ s ∈ syms, addr < s.addr) ∨ addr < start + z)

/-- An address of two or more aliases is looked up, and one of them that is ranked best is found. -/
def AliasPreference (q : Qsort dtSymrangeSortCmp) (syms : List DtSymbol) (z : ℕ) : Prop :=
  ∀ s ∈ placed syms, ∀ t ∈ placed syms, s ≠ t → s.addr = t.addr → ∀ addr, StartOf (placed syms) z s.addr addr →
    ∃ ranges found, dtSymtabSort q syms true = some ranges ∧ dtSymbolByAddr ranges addr = some found ∧
      found.addr = s.addr ∧ ∀ u ∈ placed syms, u.addr = s.addr → rankCmp found u ≤ 0

/-! ## Symbols that wrap around -/

section

variable {lo hi fuel : ℕ} {sym last : DtSymbol} {rest pre l : List DtSymbol} {new : List DtSymrange}

lemma candidates_le (lo : ℕ) (rest : List DtSymbol) (hi : ℕ) (sym : DtSymbol) :
    (candidates lo rest hi sym).1 ≤ hi := by
  fun_induction candidates lo rest hi sym with
  | case1 => exact le_rfl
  | case2 => exact le_rfl
  | case3 => simp only; omega
  | case4 _ _ _ _ _ _ _ ih => exact ih
  | case5 _ _ _ _ _ _ _ ih => exact ih.trans (by split <;> omega)

/-- The last symbol ends below its start, so it is never passed. -/
lemma formLoop_wraps (pre : List DtSymbol) (hsize : last.size ≠ 0) (hfin : last.fin ≤ last.addr)
    (hpre : ∀ s ∈ pre, s.fin ≤ last.addr) (hhi : hi ≤ last.addr) : formLoop fuel (pre ++ [last]) hi new = none := by
  induction fuel generalizing pre hi new with
  | zero => cases pre <;> rfl
  | succ fuel ih =>
    cases pre with
    | nil =>
      have hlow : ¬last.addr < hi := by omega
      rw [nil_append, formLoop, if_neg hsize, if_neg fun h => hlow h.1]
      exact ih [] hpre hfin
    | cons s pre =>
      have hpre' : ∀ s ∈ pre, s.fin ≤ last.addr := fun t ht => hpre t (mem_cons_of_mem s ht)
      rw [cons_append, formLoop]
      split
      · exact ih pre hpre' hhi
      · split
        · exact ih pre hpre' hhi
        · exact ih (s :: pre) hpre ((candidates_le _ _ _ _).trans (hpre s mem_cons_self))

lemma resize_concat (l : List DtSymbol) (last : DtSymbol) : ∃ pre, resize (l ++ [last]) = pre ++ [last] := by
  induction l with
  | nil => exact ⟨[], rfl⟩
  | cons s l ih =>
    obtain ⟨pre, hpre⟩ := ih
    cases l with
    | nil => exact ⟨[_], rfl⟩
    | cons t l => exact ⟨_ :: pre, by rw [cons_append, cons_append, resize, ← cons_append, hpre]; rfl⟩

lemma dtSymtabSort_wraps (q : Qsort dtSymrangeSortCmp) {syms : List DtSymbol} {z : ℕ} {u : DtSymbol} (hz : z < 2 ^ 64)
    (hsize : ∀ s ∈ syms, s.size = z) (haddr : ∀ s ∈ syms, s.addr < 2 ^ 64) (hu : u ∈ placed syms)
    (hwrap : 2 ^ 64 ≤ u.addr + u.size) : dtSymtabSort q syms true = none := by
  have hmem : ∀ {s}, s ∈ q.sort (placed syms) → s ∈ syms := fun hs => mem_of_mem_filter (q.mem.1 hs)
  have hsorted := (q.sorted (placed syms) (weakOrder_dtSymrangeSortCmp _)).imp fun h => (addr_size_of_sorted h).1
  have happart := pairwise_resize (fun s hs => haddr s (hmem hs)) hsorted
  change formLoop _ (resize (q.sort (placed syms))) 0 [] = none
  have huq := q.mem.2 hu
  rcases eq_nil_or_concat (q.sort (placed syms)) with hnil | ⟨l, last, hl⟩
  · rw [hnil] at huq
    cases huq
  obtain ⟨pre, hpre⟩ := resize_concat l last
  rw [concat_eq_append] at hl
  rw [hl] at hmem hsorted happart huq ⊢
  rw [hpre] at happart ⊢
  have hlast : last ∈ syms := hmem (by simp)
  have hle : u.addr ≤ last.addr := by
    rcases mem_append.1 huq with h | h
    · exact (pairwise_append.1 hsorted).2.2 u h last (mem_singleton_self last)
    · rw [mem_singleton.1 h]
  have hsizes : u.size = last.size := (hsize u (mem_of_mem_filter hu)).trans (hsize last hlast).symm
  have hlast' := haddr last hlast
  have hz' := hsize last hlast
  refine formLoop_wraps pre (by omega) ?_ (fun s hs => (Nat.mod_le _ _).trans ?_) (Nat.zero_le _)
  · rw [DtSymbol.fin, Nat.mod_eq_sub_mod (by omega), Nat.mod_eq_of_lt (by omega)]
    omega
  · exact (pairwise_append.1 happart).2.2 s hs last (mem_singleton_self last)

end

/-! ## Aliases with new sizes -/

section

variable {l : List DtSymbol} {s t u r : DtSymbol} {z : ℕ}

lemma rankCmp_of_sorted (h : dtSymrangeSortCmp s t ≤ 0) (haddr : s.addr = t.addr) (hsize : s.size = t.size) :
    rankCmp s t ≤ 0 := by
  have hrest := (andThen_le_zero.1 h).resolve_left fun hlt => (cmpOn_lt_zero.1 hlt).ne haddr
  have hrest := (andThen_le_zero.1 hrest.2).resolve_left fun hlt => (cmpOn_lt_zero.1 hlt).ne hsize.symm
  exact (andThen_le_zero.1 hrest.2).elim le_of_lt fun h => h.1.le

lemma unsized_mem_of_resize (hr : r ∈ resize l) : ∃ t ∈ l, t.unsized = r.unsized :=
  mem_map.1 (map_unsized_resize l ▸ mem_map_of_mem hr)

/-- An alias that still has addresses is the last in the order. -/
lemma rankCmp_of_covers (haddr : ∀ s ∈ l, s.addr < 2 ^ 64) (hsize : ∀ s ∈ l, s.size = z)
    (hsorted : l.Pairwise fun s t => dtSymrangeSortCmp s t ≤ 0) (hr : r ∈ resize l) (hne : r.size ≠ 0) (hu : u ∈ l)
    (hur : u.addr = r.addr) : rankCmp u r ≤ 0 := by
  fun_induction resize l with
  | case1 sym nsym rest ih =>
    obtain ⟨hsym, hrest⟩ := pairwise_cons.1 hsorted
    have hlow : ∀ t ∈ nsym :: rest, nsym.addr ≤ t.addr := fun t ht => by
      rcases mem_cons.1 ht with rfl | ht
      · exact le_rfl
      · exact (addr_size_of_sorted ((pairwise_cons.1 hrest).1 t ht)).1
    have htail : ∀ t ∈ nsym :: rest, t ∈ sym :: nsym :: rest := fun t ht => mem_cons_of_mem sym ht
    rcases mem_cons.1 hr with rfl | hr'
    · -- it ends at the next symbol, which has another start
      have hend := resize_size (addr_size_of_sorted (hsym nsym mem_cons_self)).1
        (haddr nsym (htail nsym mem_cons_self))
      rcases mem_cons.1 hu with rfl | hu
      · exact ((weakOrder_rankCmp fun _ => True).self trivial).le
      · have := hlow u hu
        simp only at hne hur hend
        omega
    · rcases mem_cons.1 hu with rfl | hu
      · obtain ⟨t, ht, heq⟩ := unsized_mem_of_resize hr'
        have hrank : rankCmp u t.unsized ≤ 0 := by
          refine rankCmp_of_sorted (t := t) (hsym t ht) ?_ ?_
          · exact hur.trans (DtSymbol.mk.inj heq).2.2.1.symm
          · rw [hsize u hu, hsize t (htail t ht)]
        rwa [heq] at hrank
      · exact ih (fun s hs => haddr s (htail s hs)) (fun s hs => hsize s (htail s hs)) hrest hr' hu
  | case2 l hshort =>
    obtain rfl : u = r := by
      rcases l with _ | ⟨s, _ | ⟨t, rest⟩⟩
      · cases hu
      · rw [mem_singleton.1 hu, mem_singleton.1 hr]
      · exact absurd rfl (hshort s t rest)
    exact ((weakOrder_rankCmp fun _ => True).self trivial).le

lemma exists_covers_resize {start addr : ℕ} (haddr : ∀ s ∈ l, s.addr < 2 ^ 64) (hsize : ∀ s ∈ l, s.size = z)
    (hsorted : l.Pairwise fun s t => s.addr ≤ t.addr) (hs : ∃ s ∈ l, s.addr = start) (h : StartOf l z start addr) :
    ∃ r ∈ resize l, r.addr = start ∧ r.Covers addr := by
  obtain ⟨hle, hmax, hend⟩ := h
  fun_induction resize l with
  | case1 sym nsym rest ih =>
    obtain ⟨hsym, hrest⟩ := pairwise_cons.1 hsorted
    have htail : ∀ t ∈ nsym :: rest, t ∈ sym :: nsym :: rest := fun t ht => mem_cons_of_mem sym ht
    have hnext := hsym nsym mem_cons_self
    by_cases hlast : sym.addr = start ∧ start < nsym.addr
    · have := resize_size hnext (haddr nsym (htail nsym mem_cons_self))
      refine ⟨_, mem_cons_self, hlast.1, by simp only; omega, ?_⟩
      by_contra hge
      have := hmax nsym (htail nsym mem_cons_self) (by simp only at hge; omega)
      omega
    · have hs' : ∃ s ∈ nsym :: rest, s.addr = start := by
        obtain ⟨s, hs, rfl⟩ := hs
        rcases mem_cons.1 hs with rfl | hs
        · exact ⟨nsym, mem_cons_self, by omega⟩
        · exact ⟨s, hs, rfl⟩
      have hend' : (∃ s ∈ nsym :: rest, addr < s.addr) ∨ addr < start + z := by
        rcases hend with ⟨t, ht, hlt⟩ | hend
        · rcases mem_cons.1 ht with rfl | ht
          · obtain ⟨s, hs', rfl⟩ := hs'
            have := hsym s hs'
            omega
          · exact .inl ⟨t, ht, hlt⟩
        · exact .inr hend
      obtain ⟨r, hr, hcov⟩ := ih (fun s hs => haddr s (htail s hs)) (fun s hs => hsize s (htail s hs)) hrest hs'
        (fun s hs => hmax s (htail s hs)) hend'
      exact ⟨r, mem_cons_of_mem _ hr, hcov⟩
  | case2 l hshort =>
    obtain ⟨s, hs, rfl⟩ := hs
    have hall : ∀ t ∈ l, t = s := by
      rcases l with _ | ⟨s', _ | ⟨t, rest⟩⟩
      · exact fun t ht => absurd ht not_mem_nil
      · exact fun t ht => (mem_singleton.1 ht).trans (mem_singleton.1 hs).symm
      · exact absurd rfl (hshort s' t rest)
    refine ⟨s, hs, rfl, hle, ?_⟩
    rcases hend with ⟨t, ht, hlt⟩ | hend
    · rw [hall t ht] at hlt
      omega
    · rwa [hsize s hs]

/-- Symbols that have all been inserted with the same size: an alias that is ranked best is found, whatever address of
aliases is looked up, exactly if aliases have the same rank, and no symbol wraps around where there are aliases. -/
theorem alias_preference_iff (q : Qsort dtSymrangeSortCmp) (syms : List DtSymbol) (z : ℕ) (hz : z < 2 ^ 64)
    (hsize : ∀ s ∈ syms, s.size = z) (haddr : ∀ s ∈ syms, s.addr < 2 ^ 64) :
    AliasPreference q syms z ↔ ∀ s ∈ placed syms, ∀ t ∈ placed syms, s ≠ t → s.addr = t.addr →
      rankCmp s t = 0 ∧ ∀ u ∈ placed syms, u.addr + u.size < 2 ^ 64 := by
  have hrank := weakOrder_rankCmp fun _ => True
  have hmem : ∀ {s}, s ∈ placed syms → s ∈ syms := mem_of_mem_filter
  have hsorted := q.sorted (placed syms) (weakOrder_dtSymrangeSortCmp _)
  have haddr' : ∀ s ∈ q.sort (placed syms), s.addr < 2 ^ 64 := fun s hs => haddr s (hmem (q.mem.1 hs))
  have hsize' : ∀ s ∈ q.sort (placed syms), s.size = z := fun s hs => hsize s (hmem (q.mem.1 hs))
  -- where there is a symbol in the table, all symbols are
  have hall : ∀ s ∈ placed syms, ∀ u ∈ syms, u ∈ placed syms := by
    intro s hs u hu
    have hpos := of_decide_eq_true (mem_filter.1 hs).2
    rw [hsize s (hmem hs), ← hsize u hu] at hpos
    exact mem_filter.2 ⟨hu, decide_eq_true hpos⟩
  constructor
  · intro h s hs t ht hne heq
    have hpos := of_decide_eq_true (mem_filter.1 hs).2
    rw [hsize s (hmem hs)] at hpos
    obtain ⟨ranges, found, hbuilt, hfound, hstart, hbest⟩ :=
      h s hs t ht hne heq s.addr ⟨le_rfl, fun _ _ h => h, .inr (by omega)⟩
    have hov : ∀ u ∈ placed syms, u.addr + u.size < 2 ^ 64 := by
      intro u hu
      by_contra hwrap
      rw [dtSymtabSort_wraps q hz hsize haddr hu (by omega)] at hbuilt
      cases hbuilt
    obtain ⟨_, hi, hbuilt', hswept, hend⟩ := form_of_sorted q true fun u hu => hov u (hall s hs u hu)
    obtain rfl := Option.mem_unique hbuilt hbuilt'
    have hpref := (dtSymbolByAddr_spec hswept hend s.addr).2 found hfound
    have hworst : ∀ u ∈ placed syms, u.addr = s.addr → rankCmp u found ≤ 0 := fun u hu hus =>
      rankCmp_of_covers haddr' hsize' hsorted hpref.mem (by have := hpref.covers.1; have := hpref.covers.2; omega)
        (q.mem.2 hu) (hus.trans hstart.symm)
    have h₁ := hrank.trans s found t trivial trivial trivial (hworst s hs rfl) (hbest t ht heq.symm)
    have h₂ := hrank.trans t found s trivial trivial trivial (hworst t ht heq.symm) (hbest s hs rfl)
    have h₃ := hrank.sign s t trivial trivial
    exact ⟨by omega, hov⟩
  · intro h s hs t ht hne heq addr hstart
    obtain ⟨-, hov⟩ := h s hs t ht hne heq
    obtain ⟨ranges, hi, hbuilt, hswept, hend⟩ := form_of_sorted q true fun u hu => hov u (hall s hs u hu)
    obtain ⟨hnone, hsome⟩ := dtSymbolByAddr_spec hswept hend addr
    have hstart' : StartOf (q.sort (placed syms)) z s.addr addr := by
      simpa only [StartOf, q.mem] using hstart
    obtain ⟨r, hr, hrs, hrc⟩ := exists_covers_resize haddr' hsize' (hsorted.imp fun h => (addr_size_of_sorted h).1)
      ⟨s, q.mem.2 hs, rfl⟩ hstart'
    obtain ⟨found, hfound⟩ := Option.ne_none_iff_exists'.1 fun hno => hnone.1 hno r hr hrc
    have hpref := hsome found hfound
    obtain ⟨f, hf, hfeq⟩ := unsized_mem_of_resize hpref.mem
    have hfaddr : f.addr = found.addr := (DtSymbol.mk.inj hfeq).2.2.1
    have hge : r.addr ≤ found.addr := by
      rcases andThen_le_zero.1 (hpref.first r hr hrc) with hlt | ⟨hlt, -⟩
      · exact (cmpOn_lt_zero.1 hlt).le
      · exact (cmpOn_eq_zero.1 hlt).le
    have hle := hstart.2.1 f (q.mem.1 hf) (hfaddr.trans_le hpref.covers.1)
    refine ⟨ranges, found, hbuilt, hfound, by omega, fun u hu hus => ?_⟩
    have hfu : rankCmp f.unsized u ≤ 0 := by
      by_cases hfu : f = u
      · rw [hfu]
        exact (hrank.self trivial).le
      · exact (h f (q.mem.1 hf) u hu hfu (by omega)).1.le
    rwa [hfeq] at hfu

/-- Two aliases of one rank. -/
theorem alias_preference_same :
    let syms : List DtSymbol := [⟨0, [97], 4096, 1, 18⟩, ⟨1, [98], 4096, 1, 18⟩, ⟨2, [99], 8192, 1, 18⟩]
    AliasPreference (Qsort.insertion _) syms 1 :=
  (alias_preference_iff _ _ 1 (by decide) (by decide) (by decide)).2 (by decide)

/-- A function, and a symbol without a type at the same address: the latter is found. -/
theorem alias_preference_notype :
    ¬AliasPreference (Qsort.insertion _)
      [⟨0, [97], 4096, 1, 18⟩, ⟨1, [98], 4096, 1, 16⟩, ⟨2, [99], 8192, 1, 18⟩] 1 := by
  intro h
  obtain ⟨ranges, _, hbuilt, hfound, -, hbest⟩ := h ⟨0, [97], 4096, 1, 18⟩ (by decide) ⟨1, [98], 4096, 1, 16⟩
    (by decide) (by decide) rfl 4096 ⟨le_rfl, by decide, .inl (by decide)⟩
  have hrun : ((dtSymtabSort (Qsort.insertion _) [⟨0, [97], 4096, 1, 18⟩, ⟨1, [98], 4096, 1, 16⟩,
      ⟨2, [99], 8192, 1, 18⟩] true).bind fun ranges => dtSymbolByAddr ranges 4096) =
      some ⟨1, [98], 4096, 4096, 16⟩ := by decide +kernel
  rw [hbuilt, Option.bind_some, hfound] at hrun
  have := hbest ⟨0, [97], 4096, 1, 18⟩ (by decide) rfl
  rw [Option.some.inj hrun] at this
  exact absurd this (by decide)

end

end DTrace.Symtab
