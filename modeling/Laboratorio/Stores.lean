import Mathlib.Logic.Function.Basic

/-! A run of stores into a table, one after another. A cell ends up with the value of the last store
that went to it, and keeps its own value if none did. -/

namespace Laboratorio

open Function

variable {ι α : Type} [DecidableEq ι]

/-- Store number `i` puts value number `i` into `cell i`. -/
def stores (cell : Nat → ι) : List α → (ι → α) → ι → α
  | [], table => table
  | v :: vs, table => stores (fun i => cell (i + 1)) vs (update table (cell 0) v)

theorem stores_of_ne {cell : Nat → ι} {vs : List α} {table : ι → α} {k : ι}
    (h : ∀ i < vs.length, cell i ≠ k) : stores cell vs table k = table k := by
  induction vs generalizing cell table with
  | nil => rfl
  | cons v vs ih =>
    have hrest : ∀ i < vs.length, cell (i + 1) ≠ k := fun i hi => h (i + 1) (by simpa using hi)
    rw [stores, ih hrest, update_of_ne (h 0 (by simp)).symm]

theorem stores_last {cell : Nat → ι} {vs : List α} {table : ι → α} {i : Nat} (hi : i < vs.length)
    (hlast : ∀ j < vs.length, i < j → cell j ≠ cell i) : stores cell vs table (cell i) = vs[i] := by
  induction vs generalizing cell table i with
  | nil => simp at hi
  | cons v vs ih =>
    rw [stores]
    cases i with
    | zero =>
      have hrest : ∀ j < vs.length, cell (j + 1) ≠ cell 0 := fun j hj =>
        hlast (j + 1) (by simpa using hj) (by omega)
      rw [stores_of_ne hrest, update_self]
      rfl
    | succ i =>
      have hi' : i < vs.length := by simpa using hi
      have hrest : ∀ j < vs.length, i < j → cell (j + 1) ≠ cell (i + 1) := fun j hj hij =>
        hlast (j + 1) (by simpa using hj) (by omega)
      have hstored : stores (fun i => cell (i + 1)) vs (update table (cell 0) v) (cell (i + 1)) =
          vs[i] := ih hi' hrest
      exact hstored

end Laboratorio
