import Mathlib.Data.Int.Basic
import Mathlib.Data.List.GetD
import Mathlib.Tactic.Common

/-!
# Lines of a distribution

What the three distribution printers share: the search for the first and the last bin with data, and the number printed at
the end of a line.  The bars are left out.

* `scanUp_le_of_ne`, `le_scanDown_of_ne` — a bin with data lies between the bins the two loops find.
-/

namespace DTrace.Agg

abbrev Datum := BitVec 64

/-- The number `dt_print_quantline` prints: `(long long)val / normal` with an unsigned `normal`, so the division is
unsigned, printed with `%lld`. -/
def dtPrintQuantline (val normal : Datum) : ℤ := (val / normal).toInt

def binAt (data : List Datum) (i : ℕ) : Datum := data.getD i 0

/-- `while (first_bin <= last_bin && data[first_bin] == 0) first_bin++`, from 0. -/
def scanUp (data : List Datum) : ℕ := data.findIdx fun d => d != 0

/-- `while (last_bin > 0 && data[last_bin] == 0) last_bin--`. -/
def scanDown (data : List Datum) : ℕ → ℕ
  | 0 => 0
  | n + 1 => if binAt data (n + 1) = 0 then scanDown data n else n + 1

lemma scanUp_le_of_ne {data : List Datum} {i : ℕ} (h : binAt data i ≠ 0) : scanUp data ≤ i := by
  by_contra hlt
  have hi : i < data.length := by
    by_contra hge
    exact h (List.getD_eq_default _ _ (by omega))
  have := List.not_of_lt_findIdx (p := fun d => d != 0) (by unfold scanUp at hlt; omega : i < data.findIdx _)
  have h0 : data[i] = 0 := by simpa using this
  exact h (by rw [binAt, List.getD_eq_getElem _ _ hi, h0])

lemma le_scanDown_of_ne {data : List Datum} {i : ℕ} (h : binAt data i ≠ 0) : ∀ n, i ≤ n → i ≤ scanDown data n
  | 0, hi => hi
  | n + 1, hi => by
    unfold scanDown
    split
    · next h0 =>
      have : i ≠ n + 1 := by rintro rfl; exact h h0
      exact le_scanDown_of_ne h n (by omega)
    · exact hi

end DTrace.Agg
