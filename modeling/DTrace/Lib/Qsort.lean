import DTrace.Lib.Bytes

/-!
# Sorting and searching with a comparison function

Comparison functions give a number that is negative, zero or positive, as `qsort` and `bsearch` want them.

* `cmpOn`, `andThen`, `inTurn` — comparison by a key, and by one function after another;
* `strcmp` — comparison of strings by their bytes;
* `WeakOrder` — comparison is a strict weak order on some elements;
* `Qsort` — a function that sorts if it can;
* `bsearch` — search by halves.
-/

namespace DTrace.Lib

open List

variable {α κ : Type}

def cmpOn [LT κ] [DecidableLT κ] (f : α → κ) (a b : α) : ℤ := if f a < f b then -1 else if f b < f a then 1 else 0

/-- Comparison by the second function where the first makes no difference. -/
def andThen (c c' : α → α → ℤ) (a b : α) : ℤ := if c a b ≠ 0 then c a b else c' a b

/-- Comparison by one function after the other: a loop that returns the first result that is not 0. -/
def inTurn {ι : Type} (c : ι → α → α → ℤ) : List ι → α → α → ℤ
  | [] => fun _ _ => 0
  | i :: is => andThen (c i) (inTurn c is)

/-- Comparison of strings, without their final 0, by their first bytes that differ. -/
def strcmp : Bytes → Bytes → ℤ
  | [], [] => 0
  | [], _ :: _ => -1
  | _ :: _, [] => 1
  | a :: as, b :: bs => if a = b then strcmp as bs else (a.toNat : ℤ) - b.toNat

/-- Comparison is a strict weak order on the elements that satisfy `S`: the sign changes with the order of the
arguments, and not being above is transitive. -/
structure WeakOrder (c : α → α → ℤ) (S : α → Prop) : Prop where
  sign : ∀ a b, S a → S b → (c a b < 0 ↔ 0 < c b a)
  trans : ∀ x y z, S x → S y → S z → c x y ≤ 0 → c y z ≤ 0 → c x z ≤ 0

variable {a : α}

section

variable {c c' : α → α → ℤ} {S : α → Prop} {b x y z : α}

section

variable (h : WeakOrder c S)
include h

lemma WeakOrder.mono {S' : α → Prop} (hS : ∀ a, S' a → S a) : WeakOrder c S' :=
  ⟨fun a b ha hb => h.sign a b (hS a ha) (hS b hb),
    fun x y z hx hy hz => h.trans x y z (hS x hx) (hS y hy) (hS z hz)⟩

lemma WeakOrder.eq_zero_iff (ha : S a) (hb : S b) : c a b = 0 ↔ c b a = 0 := by
  have := h.sign a b ha hb
  have := h.sign b a hb ha
  omega

lemma WeakOrder.self (ha : S a) : c a a = 0 := by
  have := h.sign a a ha ha
  omega

lemma WeakOrder.total (ha : S a) (hb : S b) : c a b ≤ 0 ∨ c b a ≤ 0 := by
  have := h.sign a b ha hb
  omega

lemma WeakOrder.lt_of_lt_of_le (hx : S x) (hy : S y) (hz : S z) (hxy : c x y < 0) (hyz : c y z ≤ 0) : c x z < 0 := by
  have hle := h.trans x y z hx hy hz hxy.le hyz
  by_contra hn
  have hzx : c z x ≤ 0 := by
    have := (h.eq_zero_iff hx hz).1 (by omega)
    omega
  have := h.trans y z x hy hz hx hyz hzx
  have := h.sign x y hx hy
  omega

lemma WeakOrder.lt_of_le_of_lt (hx : S x) (hy : S y) (hz : S z) (hxy : c x y ≤ 0) (hyz : c y z < 0) : c x z < 0 := by
  have hle := h.trans x y z hx hy hz hxy hyz.le
  by_contra hn
  have hzx : c z x ≤ 0 := by
    have := (h.eq_zero_iff hx hz).1 (by omega)
    omega
  have := h.trans z x y hz hx hy hzx hxy
  have := h.sign y z hy hz
  omega

lemma WeakOrder.swap : WeakOrder (fun a b => c b a) S :=
  ⟨fun a b ha hb => h.sign b a hb ha, fun x y z hx hy hz hxy hyz => h.trans z y x hz hy hx hyz hxy⟩

lemma WeakOrder.comap {β : Type} (f : β → α) : WeakOrder (fun a b => c (f a) (f b)) fun b => S (f b) :=
  ⟨fun a b => h.sign (f a) (f b), fun x y z => h.trans (f x) (f y) (f z)⟩

end

lemma andThen_le_zero : andThen c c' a b ≤ 0 ↔ c a b < 0 ∨ (c a b = 0 ∧ c' a b ≤ 0) := by
  rw [andThen]
  split <;> omega

lemma andThen_lt_zero : andThen c c' a b < 0 ↔ c a b < 0 ∨ (c a b = 0 ∧ c' a b < 0) := by
  rw [andThen]
  split <;> omega

lemma andThen_of_eq_zero (h : c a b = 0) : andThen c c' a b = c' a b := if_neg (not_not.2 h)

lemma andThen_eq_zero : andThen c c' a b = 0 ↔ c a b = 0 ∧ c' a b = 0 := by
  rw [andThen]
  split <;> omega

/-- The second function is a weak order on the elements that the first does not tell apart. -/
lemma WeakOrder.andThen_of_class (h : WeakOrder c S) (h' : ∀ a, S a → WeakOrder c' fun b => S b ∧ c a b = 0) :
    WeakOrder (Lib.andThen c c') S := by
  refine ⟨fun a b ha hb => ?_, fun x y z hx hy hz hxy hyz => ?_⟩
  · have h1 := h.sign a b ha hb
    have h2 := h.eq_zero_iff ha hb
    by_cases h0 : c a b = 0
    · have h3 := (h' a ha).sign a b ⟨ha, h.self ha⟩ ⟨hb, h0⟩
      rwa [andThen_of_eq_zero h0, andThen_of_eq_zero (h2.1 h0)]
    · rwa [Lib.andThen, Lib.andThen, if_pos h0, if_pos (mt h2.2 h0)]
  · rw [andThen_le_zero] at hxy hyz ⊢
    rcases hxy with hxy | ⟨hxy, hxy'⟩
    · exact .inl (h.lt_of_lt_of_le hx hy hz hxy (by omega))
    · rcases hyz with hyz | ⟨hyz, hyz'⟩
      · exact .inl (h.lt_of_le_of_lt hx hy hz hxy.le hyz)
      · by_cases hxz : c x z = 0
        · exact .inr ⟨hxz, (h' x hx).trans x y z ⟨hx, h.self hx⟩ ⟨hy, hxy⟩ ⟨hz, hxz⟩ hxy' hyz'⟩
        · have := h.trans x y z hx hy hz hxy.le hyz.le
          omega

lemma WeakOrder.andThen (h : WeakOrder c S) (h' : WeakOrder c' S) : WeakOrder (Lib.andThen c c') S :=
  h.andThen_of_class fun _ _ => h'.mono fun _ hb => hb.1

lemma WeakOrder.congr (h : WeakOrder c S) (heq : ∀ a b, S a → S b → c' a b = c a b) : WeakOrder c' S := by
  refine ⟨fun a b ha hb => ?_, fun x y z hx hy hz hxy hyz => ?_⟩
  · rw [heq a b ha hb, heq b a hb ha]
    exact h.sign a b ha hb
  · rw [heq x y hx hy] at hxy
    rw [heq y z hy hz] at hyz
    rw [heq x z hx hz]
    exact h.trans x y z hx hy hz hxy hyz

variable {f : α → κ}

lemma cmpOn_le_zero [LinearOrder κ] : cmpOn f a b ≤ 0 ↔ f a ≤ f b := by
  rw [cmpOn]
  split
  · rename_i hlt
    simp [hlt.le]
  · split
    · rename_i hgt
      simp [hgt]
    · rename_i hgt
      simp [not_lt.1 hgt]

lemma cmpOn_lt_zero [LinearOrder κ] : cmpOn f a b < 0 ↔ f a < f b := by
  rw [cmpOn]
  split
  · simpa
  · split <;> simpa using ‹¬f a < f b›

lemma cmpOn_eq_zero [LinearOrder κ] : cmpOn f a b = 0 ↔ f a = f b := by
  have hle : cmpOn f a b ≤ 0 ↔ f a ≤ f b := cmpOn_le_zero
  have hlt : cmpOn f a b < 0 ↔ f a < f b := cmpOn_lt_zero
  rw [le_antisymm_iff, hle, ← not_lt (a := cmpOn f a b), hlt, le_antisymm_iff, not_lt]

variable {ι : Type}

lemma inTurn_eq_zero {c : ι → α → α → ℤ} {is : List ι} : inTurn c is a b = 0 ↔ ∀ i ∈ is, c i a b = 0 := by
  induction is with
  | nil => simp [inTurn]
  | cons i is ih => rw [inTurn, andThen_eq_zero, ih, forall_mem_cons]

lemma WeakOrder.inTurn {c : ι → α → α → ℤ} {l : List ι} (h : ∀ i, WeakOrder (c i) S) :
    WeakOrder (Lib.inTurn c l) S := by
  induction l with
  | nil => exact ⟨by simp [Lib.inTurn], by simp [Lib.inTurn]⟩
  | cons i l ih => exact (h i).andThen ih

lemma weakOrder_cmpOn [LinearOrder κ] (f : α → κ) (S : α → Prop) : WeakOrder (cmpOn f) S := by
  refine ⟨fun a b _ _ => ?_, fun x y z _ _ _ hxy hyz => ?_⟩
  · have hle : cmpOn f b a ≤ 0 ↔ f b ≤ f a := cmpOn_le_zero
    rw [cmpOn_lt_zero, ← not_le, ← hle]
    omega
  · rw [cmpOn_le_zero] at hxy hyz ⊢
    exact hxy.trans hyz

end

lemma strcmp_sign (as bs : Bytes) : strcmp as bs < 0 ↔ 0 < strcmp bs as := by
  fun_induction strcmp as bs with
  | case1 => simp [strcmp]
  | case2 => simp [strcmp]
  | case3 => simp [strcmp]
  | case4 as b bs ih => simpa [strcmp] using ih
  | case5 a as b bs hne =>
    rw [strcmp, if_neg (Ne.symm hne)]
    omega

lemma strcmp_trans {as bs cs : Bytes} (hab : strcmp as bs ≤ 0) (hbc : strcmp bs cs ≤ 0) : strcmp as cs ≤ 0 := by
  induction as generalizing bs cs with
  | nil => cases cs <;> simp [strcmp]
  | cons a as ih =>
    rcases bs with _ | ⟨b, _⟩
    · simp [strcmp] at hab
    rcases cs with _ | ⟨c, _⟩
    · simp [strcmp] at hbc
    rw [strcmp] at hab hbc ⊢
    -- the bytes are the same, or one of them is below the next
    by_cases h1 : a = b
    · subst h1
      rw [if_pos rfl] at hab
      split
      · rename_i h2
        rw [if_pos h2] at hbc
        exact ih hab hbc
      · rename_i h2
        rwa [if_neg h2] at hbc
    · rw [if_neg h1] at hab
      have hne : a.toNat ≠ b.toNat := fun h => h1 (BitVec.eq_of_toNat_eq h)
      split at hbc
      · rename_i h2
        subst h2
        rw [if_neg h1]
        exact hab
      · rename_i h2
        have hne' : a ≠ c := fun h => by
          subst h
          omega
        rw [if_neg hne']
        omega

lemma weakOrder_strcmp (f : α → Bytes) (S : α → Prop) : WeakOrder (fun a b => strcmp (f a) (f b)) S :=
  ⟨fun a b _ _ => strcmp_sign (f a) (f b), fun _ _ _ _ _ _ hxy hyz => strcmp_trans hxy hyz⟩

/-! ## Sorting -/

/-- The elements are put in another order, and in ascending order if comparison is a strict weak order on them. -/
structure Qsort (c : α → α → ℤ) where
  sort : List α → List α
  perm : ∀ l, (sort l).Perm l
  sorted : ∀ l, WeakOrder c (· ∈ l) → (sort l).Pairwise fun a b => c a b ≤ 0

variable {l : List α}

section

variable {c : α → α → ℤ}

lemma Qsort.mem (q : Qsort c) : a ∈ q.sort l ↔ a ∈ l := (q.perm l).mem_iff

lemma pairwise_orderedInsert (h : WeakOrder c (· ∈ a :: l))
    (hl : l.Pairwise fun a b => c a b ≤ 0) : (l.orderedInsert (c · · ≤ 0) a).Pairwise fun a b => c a b ≤ 0 := by
  induction l with
  | nil => simp
  | cons b l ih =>
    have ha : a ∈ a :: b :: l := mem_cons_self
    have hb : b ∈ a :: b :: l := mem_cons_of_mem _ mem_cons_self
    rw [pairwise_cons] at hl
    by_cases hle : c a b ≤ 0
    · rw [orderedInsert_cons_of_le _ l hle]
      refine pairwise_cons.2 ⟨forall_mem_cons.2 ⟨hle, fun x hx => ?_⟩, pairwise_cons.2 hl⟩
      exact h.trans a b x ha hb (by simp [hx]) hle (hl.1 x hx)
    · rw [orderedInsert_of_not_le _ l hle]
      have hsub : ∀ x, x ∈ a :: l → x ∈ a :: b :: l := fun x hx => by
        rcases mem_cons.1 hx with rfl | hx
        · exact ha
        · simp [hx]
      refine pairwise_cons.2 ⟨fun x hx => ?_, ih (h.mono hsub) hl.2⟩
      rcases (mem_orderedInsert _).1 hx with rfl | hx
      · exact (h.total ha hb).resolve_left hle
      · exact hl.1 x hx

def Qsort.insertion (c : α → α → ℤ) : Qsort c where
  sort := List.insertionSort (c · · ≤ 0)
  perm := List.perm_insertionSort _
  sorted := fun l h => by
    induction l with
    | nil => exact List.Pairwise.nil
    | cons a l ih =>
      refine pairwise_orderedInsert (h.mono fun x hx => ?_) (ih (h.mono fun x hx => List.mem_cons_of_mem a hx))
      rcases List.mem_cons.1 hx with rfl | hx
      · exact List.mem_cons_self
      · exact List.mem_cons_of_mem a ((List.mem_insertionSort _).1 hx)

end

/-! ## Searching -/

/-- Search in the half where the key must be, with at most `fuel` turns; `c` compares the key with an element. -/
def bsearchLoop (c : α → ℤ) : ℕ → List α → Option α
  | 0, _ => none
  | fuel + 1, l =>
    match l.drop (l.length / 2) with
    | [] => none
    | a :: rest =>
      if c a < 0 then bsearchLoop c fuel (l.take (l.length / 2))
      else if 0 < c a then bsearchLoop c fuel rest
      else some a

def bsearch (c : α → ℤ) (l : List α) : Option α := bsearchLoop c l.length l

section

variable {c : α → ℤ} {fuel : ℕ}

lemma bsearchLoop_some (h : bsearchLoop c fuel l = some a) : a ∈ l ∧ c a = 0 := by
  induction fuel generalizing l with
  | zero => cases h
  | succ fuel ih =>
    rw [bsearchLoop] at h
    rcases hdrop : l.drop (l.length / 2) with _ | ⟨b, rest⟩
    · rw [hdrop] at h
      cases h
    · simp only [hdrop] at h
      have hsub : ∀ x ∈ b :: rest, x ∈ l := fun x hx => mem_of_mem_drop (hdrop ▸ hx)
      split at h
      · obtain ⟨hmem, hzero⟩ := ih h
        exact ⟨mem_of_mem_take hmem, hzero⟩
      · split at h
        · obtain ⟨hmem, hzero⟩ := ih h
          exact ⟨hsub a (mem_cons_of_mem b hmem), hzero⟩
        · cases h
          exact ⟨hsub a mem_cons_self, by omega⟩

/-- In a list where elements the key is below come last and those it is above come first, nothing is missed. -/
lemma bsearchLoop_none (hlen : l.length ≤ fuel) (hlt : l.Pairwise fun x y => c x < 0 → c y < 0)
    (hgt : l.Pairwise fun x y => 0 < c y → 0 < c x) (h : bsearchLoop c fuel l = none) : ∀ a ∈ l, c a ≠ 0 := by
  induction fuel generalizing l with
  | zero =>
    intro a ha
    rw [length_eq_zero_iff.1 (by omega : l.length = 0)] at ha
    cases ha
  | succ fuel ih =>
    have hcat := take_append_drop (l.length / 2) l
    have htake : (l.take (l.length / 2)).length = l.length / 2 := by
      rw [length_take]
      omega
    rw [bsearchLoop] at h
    rcases hdrop : l.drop (l.length / 2) with _ | ⟨b, rest⟩
    · intro a ha
      have hnil := drop_eq_nil_iff.1 hdrop
      rw [length_eq_zero_iff.1 (by omega : l.length = 0)] at ha
      cases ha
    · simp only [hdrop] at h
      rw [hdrop] at hcat
      have hrest : rest.length + 1 + l.length / 2 = l.length := by
        have := congrArg length hcat
        rw [length_append, htake, length_cons] at this
        omega
      rw [← hcat] at hlt hgt ⊢
      obtain ⟨hlt1, hlt2, -⟩ := pairwise_append.1 hlt
      obtain ⟨hgt1, hgt2, hgt3⟩ := pairwise_append.1 hgt
      rw [pairwise_cons] at hlt2 hgt2
      intro a ha
      rcases mem_append.1 ha with ha | ha
      · split at h
        · exact ih (by omega) hlt1 hgt1 h a ha
        · split at h
          · have := hgt3 a ha b mem_cons_self ‹0 < c b›
            omega
          · cases h
      · split at h
        · rename_i hb
          rcases mem_cons.1 ha with rfl | ha
          · omega
          · have := hlt2.1 a ha hb
            omega
        · split at h
          · rename_i hb
            rcases mem_cons.1 ha with rfl | ha
            · omega
            · exact ih (by omega) hlt2.2 hgt2.2 h a ha
          · cases h

end

end DTrace.Lib
