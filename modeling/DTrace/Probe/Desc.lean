import DTrace.Lib.Bytes
import Mathlib.Data.List.DropRight

/-!
# Probe descriptions

`dtrace_xstr2desc` takes a description apart from its end: it walks back to a colon, takes what is behind it as an
element, steps over the colon and goes on for as long as it is inside the string.

* `expand` — macro references in a component;
* `dtraceXstr2desc` — the elements, from the last to the first;
* `Assigned` — the components where they belong;
* `xstr2desc_iff` — a colon at the front is passed over, and with it the component in front of it.
-/

namespace DTrace.Probe

open Lib List

/-- `':'` and `'$'`. -/
def colon : BitVec 8 := 58
def dollar : BitVec 8 := 36

/-- `dtrace_probespec_t`. -/
inductive Spec
  | none
  | provider
  | mod
  | func
  | name
  deriving DecidableEq

/-- The number of elements that a description can have. -/
def Spec.allowed : Spec → ℕ
  | .none => 0
  | .provider => 1
  | .mod => 2
  | .func => 3
  | .name => 4

/-- A `dtrace_probedesc_t`, as far as it is text. -/
structure Desc where
  prv : Bytes
  mod : Bytes
  fn : Bytes
  prb : Bytes
  deriving DecidableEq

/-- The element of a level, from `DTRACE_PROBESPEC_PROVIDER` on. -/
def Desc.get (d : Desc) : ℕ → Bytes
  | 0 => d.prv
  | 1 => d.mod
  | 2 => d.fn
  | 3 => d.prb
  | _ => []

def Desc.set (d : Desc) (name : Bytes) : ℕ → Desc
  | 0 => { d with prv := name }
  | 1 => { d with mod := name }
  | 2 => { d with fn := name }
  | 3 => { d with prb := name }
  | _ => d

def Desc.empty : Desc := ⟨[], [], [], []⟩

/-- `EDT_BADSPCV` and `EDT_BADSPEC`. -/
inductive Err
  | badSpcv
  | badSpec
  deriving DecidableEq

/-- What macro references refer to. -/
structure Macros where
  argv : List Bytes
  /-- `dt_macros`, with the value of each. -/
  ids : Bytes → Option ℤ

def isDigit (c : BitVec 8) : Bool := 48 ≤ c.toNat && c.toNat ≤ 57

/-- `strtol` of digits. -/
def decimal (ds : Bytes) : ℕ := ds.foldl (fun n c => 10 * n + (c.toNat - 48)) 0

/-- `snprintf` with `%d`. -/
def text (z : ℤ) : Bytes := (toString z).toList.map fun c => BitVec.ofNat 8 c.toNat

/-- A reference: what is behind its `$`, or behind the second if there are two. -/
def expandRef (env : Macros) (ref : Bytes) : Option Bytes :=
  match ref with
  | [] => none
  | c :: _ =>
    if isDigit c then (env.argv[decimal (ref.takeWhile isDigit)]?).map (· ++ ref.dropWhile isDigit)
    else (env.ids ref).map text

/-- A component with its macro reference, if there is one, replaced. -/
def expand (env : Macros) (comp : Bytes) : Option Bytes :=
  match comp.dropWhile (· ≠ dollar) with
  | [] => some comp
  | _ :: ref =>
    let ref := if 1 < ref.length ∧ ref.head? = some dollar then ref.tail else ref
    (expandRef env ref).map (comp.takeWhile (· ≠ dollar) ++ ·)

/-- The loop.  `upto` is the string up to and with the character at `p`, and `n` elements can still be given. -/
def xstr2descLoop (env : Macros) : ℕ → Bytes → Desc → Except Err Desc
  | 0, upto, _ =>
    match expand env (upto.rtakeWhile (· ≠ colon)) with
    | none => .error .badSpcv
    | some _ => .error .badSpec
  | n + 1, upto, d =>
    match expand env (upto.rtakeWhile (· ≠ colon)) with
    | none => .error .badSpcv
    | some name =>
      -- `--p >= s`: nothing is in front of the colon, or there is no colon
      let rest := (upto.rdropWhile (· ≠ colon)).dropLast
      if rest = [] then .ok (d.set name n) else xstr2descLoop env n rest (d.set name n)

/-- `dtrace_xstr2desc`, with memory for the elements. -/
def dtraceXstr2desc (env : Macros) (spec : Spec) (s : Bytes) : Except Err Desc :=
  xstr2descLoop env spec.allowed s .empty

/-! ## Elements -/

section

variable {d : Desc} {name : Bytes} {n l : ℕ}

lemma get_set_self (h : n < 4) : (d.set name n).get n = name := by
  obtain rfl | rfl | rfl | rfl : n = 0 ∨ n = 1 ∨ n = 2 ∨ n = 3 := by omega
  all_goals rfl

lemma get_set_of_ne (h : l ≠ n) : (d.set name n).get l = d.get l := by
  rcases n with _ | _ | _ | _ | n <;> rcases l with _ | _ | _ | _ | l <;> first | rfl | exact absurd rfl h

end

lemma expand_plain (env : Macros) {comp : Bytes} (h : dollar ∉ comp) : expand env comp = some comp := by
  have hnone : comp.dropWhile (· ≠ dollar) = [] := by
    rw [dropWhile_eq_nil_iff]
    intro c hc
    rw [decide_eq_true_iff]
    rintro rfl
    exact h hc
  rw [expand, hnone]

def components (s : Bytes) : List Bytes := s.splitOn colon

section

variable {a b : Bytes}

lemma last_colon (s : Bytes) : colon ∉ s ∨ ∃ a b, s = a ++ colon :: b ∧ colon ∉ b := by
  induction s with
  | nil => exact .inl not_mem_nil
  | cons c s ih =>
    rcases ih with hno | ⟨a, b, rfl, hb⟩
    · by_cases hc : c = colon
      · exact .inr ⟨[], s, by rw [hc]; rfl, hno⟩
      · exact .inl (by simp [hno, Ne.symm hc])
    · exact .inr ⟨c :: a, b, rfl, hb⟩

section

variable (h : colon ∉ b)
include h

lemma ne_colon : ∀ c ∈ b.reverse, decide (c ≠ colon) = true := by
  intro c hc
  rw [decide_eq_true_iff]
  rintro rfl
  exact h (mem_reverse.1 hc)

lemma rtakeWhile_plain : b.rtakeWhile (· ≠ colon) = b := by
  rw [rtakeWhile_eq_self_iff]
  exact fun c hc => ne_colon h c (mem_reverse.2 hc)

lemma rdropWhile_plain : b.rdropWhile (· ≠ colon) = [] := by
  rw [rdropWhile_eq_nil_iff]
  exact fun c hc => ne_colon h c (mem_reverse.2 hc)

lemma rtakeWhile_colon : (a ++ colon :: b).rtakeWhile (· ≠ colon) = b := by
  rw [rtakeWhile, reverse_append, reverse_cons, append_assoc, singleton_append,
    takeWhile_append_of_pos (ne_colon h), takeWhile_cons_of_neg (by simp), append_nil,
    reverse_reverse]

lemma rdropWhile_colon : (a ++ colon :: b).rdropWhile (· ≠ colon) = a ++ [colon] := by
  rw [rdropWhile, reverse_append, reverse_cons, append_assoc, singleton_append,
    dropWhile_append_of_pos (ne_colon h), dropWhile_cons_of_neg (by simp), reverse_cons,
    reverse_reverse]

lemma components_plain : components b = [b] := splitOn_eq_singleton h

lemma components_colon : components (a ++ colon :: b) = components a ++ [b] := by
  rw [components, splitOn_append_cons_self, splitOn_eq_singleton h]
  rfl

end

lemma length_components_pos (s : Bytes) : 0 < (components s).length :=
  length_pos_of_ne_nil (splitOn_ne_nil _ _)

end

/-! ## The loop -/

/-- There are not too many components, or the one too many is in front of a colon at the front. -/
def Fits (n : ℕ) (s : Bytes) : Prop :=
  (components s).length ≤ n ∨ (components s).length = n + 1 ∧ s.head? = some colon

/-- The components, from the last on, at the levels from `n - 1` down. -/
def Placed (n : ℕ) (s : Bytes) (d d' : Desc) : Prop :=
  ∀ l, d'.get l = if l < n then ((components s).reverse[n - 1 - l]?).getD [] else d.get l

section

variable {n : ℕ} {a b : Bytes} {d d' : Desc}

lemma not_fits_zero (s : Bytes) : ¬Fits 0 s := by
  rintro (h | ⟨h, hhead⟩)
  · have := length_components_pos s
    omega
  · -- with a colon there are two components
    obtain ⟨rest, rfl⟩ : ∃ rest, s = colon :: rest := by
      rcases s with _ | ⟨c, rest⟩
      · cases hhead
      · cases hhead
        exact ⟨rest, rfl⟩
    have hlen : components (colon :: rest) = [[]] ++ components rest := splitOn_append_cons_self [] rest
    rw [hlen, length_append, length_singleton] at h
    have := length_components_pos rest
    omega

lemma fits_colon (ha : a ≠ []) (hb : colon ∉ b) : Fits (n + 1) (a ++ colon :: b) ↔ Fits n a := by
  have hhead : (a ++ colon :: b).head? = a.head? := head?_append_of_ne_nil a ha
  rw [Fits, Fits, components_colon hb, hhead, length_append, length_singleton, Nat.add_le_add_iff_right,
    Nat.add_right_cancel_iff]

lemma placed_plain (hn : n < 4) (hb : colon ∉ b) (hd : ∀ l < n + 1, d.get l = []) :
    Placed (n + 1) b d (d.set b n) := by
  intro l
  rw [components_plain hb]
  by_cases hl : l = n
  · rw [hl, get_set_self hn, if_pos (Nat.lt_succ_self n), Nat.add_sub_cancel, Nat.sub_self]
    rfl
  · rw [get_set_of_ne hl]
    split
    next hlt =>
      obtain ⟨i, hi⟩ : ∃ i, n + 1 - 1 - l = i + 1 := ⟨n - l - 1, by omega⟩
      rw [hi, hd l hlt]
      rfl
    next => rfl

lemma placed_colon (hn : n < 4) (hb : colon ∉ b) (h : Placed n a (d.set b n) d') :
    Placed (n + 1) (a ++ colon :: b) d d' := by
  intro l
  rw [h l, components_colon hb, reverse_append, reverse_singleton, singleton_append]
  rcases Nat.lt_trichotomy l n with hl | rfl | hl
  · obtain ⟨i, hi⟩ : ∃ i, n - 1 - l = i ∧ n + 1 - 1 - l = i + 1 := ⟨n - 1 - l, rfl, by omega⟩
    rw [if_pos hl, if_pos (by omega), hi.1, hi.2]
    rfl
  · rw [if_neg (lt_irrefl l), if_pos (Nat.lt_succ_self l), get_set_self hn, Nat.add_sub_cancel, Nat.sub_self]
    rfl
  · rw [if_neg (by omega), if_neg (by omega), get_set_of_ne (by omega)]

lemma placed_front (hn : n < 4) (hb : colon ∉ b) (hd : ∀ l < n + 1, d.get l = []) :
    Placed (n + 1) ([] ++ colon :: b) d (d.set b n) := by
  refine placed_colon hn hb fun l => ?_
  split
  next hl =>
    rw [get_set_of_ne (by omega), hd l (by omega)]
    rcases hi : n - 1 - l with _ | i
    · rfl
    · rfl
  next => rfl

end

lemma xstr2descLoop_spec (env : Macros) : ∀ (n : ℕ) (s : Bytes) (d : Desc), n ≤ 4 → dollar ∉ s →
    (∀ l < n, d.get l = []) →
    (Fits n s → ∃ d', xstr2descLoop env n s d = .ok d' ∧ Placed n s d d') ∧
      (¬Fits n s → xstr2descLoop env n s d = .error .badSpec)
  | 0, s, d, _, hs, _ => by
    have hcomp : dollar ∉ s.rtakeWhile (· ≠ colon) := fun h => hs ((rtakeWhile_suffix _ _).subset h)
    refine ⟨fun h => absurd h (not_fits_zero s), fun _ => ?_⟩
    rw [xstr2descLoop, expand_plain env hcomp]
  | n + 1, s, d, hn, hs, hd => by
    rcases last_colon s with hno | ⟨a, b, rfl, hb⟩
    · -- the only component
      have hrun : xstr2descLoop env (n + 1) s d = .ok (d.set s n) := by
        rw [xstr2descLoop, rtakeWhile_plain hno, rdropWhile_plain hno, expand_plain env hs]
        rfl
      refine ⟨fun _ => ⟨_, hrun, placed_plain (by omega) hno hd⟩, fun h => absurd (.inl ?_) h⟩
      rw [components_plain hno, length_singleton]
      omega
    rw [mem_append, mem_cons, not_or, not_or] at hs
    have hstep : xstr2descLoop env (n + 1) (a ++ colon :: b) d =
        if a = [] then .ok (d.set b n) else xstr2descLoop env n a (d.set b n) := by
      rw [xstr2descLoop, rtakeWhile_colon hb, rdropWhile_colon hb, expand_plain env hs.2.2, dropLast_concat]
    rw [hstep]
    by_cases ha : a = []
    · subst ha
      rw [if_pos rfl]
      refine ⟨fun _ => ⟨_, rfl, placed_front (by omega) hb hd⟩, fun h => absurd ?_ h⟩
      have hlen : (components ([] ++ colon :: b)).length = 2 := by
        rw [components_colon hb]
        rfl
      rcases n with _ | n
      · exact .inr ⟨hlen, rfl⟩
      · exact .inl (by omega)
    · rw [if_neg ha, fits_colon ha hb]
      obtain ⟨hok, herr⟩ := xstr2descLoop_spec env n a (d.set b n) (by omega) hs.1 fun l hl => by
        rw [get_set_of_ne (by omega), hd l (by omega)]
      refine ⟨fun hfits => ?_, herr⟩
      obtain ⟨d', hrun, hplaced⟩ := hok hfits
      exact ⟨d', hrun, placed_colon (by omega) hb hplaced⟩

/-- The components are where they belong, from the last on: the last at the level of the specification, the one before
it one level lower.  Elements without a component are empty. -/
def Assigned (spec : Spec) (s : Bytes) (d : Desc) : Prop := Placed spec.allowed s .empty d

/-- A description is taken if it has not too many components, and only then, and its components are where they belong:
if and only if it is not one component too long with a colon at the front. -/
theorem xstr2desc_iff (env : Macros) (spec : Spec) {s : Bytes} (h : dollar ∉ s) :
    (((∃ d, dtraceXstr2desc env spec s = .ok d) ↔ (components s).length ≤ spec.allowed) ∧
        ∀ d, dtraceXstr2desc env spec s = .ok d → Assigned spec s d) ↔
      ¬((components s).length = spec.allowed + 1 ∧ s.head? = some colon) := by
  have hempty : ∀ l < spec.allowed, Desc.empty.get l = [] := by
    intro l _
    rcases l with _ | _ | _ | _ | l <;> rfl
  have hallowed : spec.allowed ≤ 4 := by cases spec <;> decide
  obtain ⟨hok, herr⟩ := xstr2descLoop_spec env spec.allowed s .empty hallowed h hempty
  have hiff : (∃ d, dtraceXstr2desc env spec s = .ok d) ↔ Fits spec.allowed s := by
    constructor
    · rintro ⟨d, hd⟩
      by_contra hno
      rw [dtraceXstr2desc, herr hno] at hd
      cases hd
    · intro hfits
      obtain ⟨d, hd, -⟩ := hok hfits
      exact ⟨d, hd⟩
  have hassigned : ∀ d, dtraceXstr2desc env spec s = .ok d → Assigned spec s d := by
    intro d hd
    obtain ⟨d', hd', hplaced⟩ := hok (hiff.1 ⟨d, hd⟩)
    obtain rfl : d' = d := by
      rw [dtraceXstr2desc, hd'] at hd
      injection hd
    exact hplaced
  rw [hiff, and_iff_left hassigned, Fits]
  constructor
  · rintro hle ⟨hlen, hhead⟩
    have := hle.1 (.inr ⟨hlen, hhead⟩)
    omega
  · intro hno
    exact or_iff_left hno

/-- `a:b:c` for a function: the provider is `a`. -/
theorem xstr2desc_three :
    (∃ d, dtraceXstr2desc ⟨[], fun _ => none⟩ .func [97, 58, 98, 58, 99] = .ok d) ∧
      ∀ d, dtraceXstr2desc ⟨[], fun _ => none⟩ .func [97, 58, 98, 58, 99] = .ok d →
        Assigned .func [97, 58, 98, 58, 99] d := by
  have h := (xstr2desc_iff ⟨[], fun _ => none⟩ .func (s := [97, 58, 98, 58, 99]) (by decide)).2 (by decide)
  exact ⟨h.1.2 (by decide), h.2⟩

/-- `:a` has two components, and is taken for a provider. -/
theorem colon_front :
    dtraceXstr2desc ⟨[], fun _ => none⟩ .provider [58, 97] = .ok ⟨[97], [], [], []⟩ ∧
      (components [58, 97]).length = 2 ∧ Spec.provider.allowed = 1 := by
  decide

end DTrace.Probe
