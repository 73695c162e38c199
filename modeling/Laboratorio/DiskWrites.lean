import Mathlib.Logic.Function.Basic
import Mathlib.Data.List.Range
import Mathlib.Tactic.Common

/-! A store after a list of writes. `writeAll d ws` is the store `d` after the writes `ws`, in order;
a crash leaves the store after the first `j` of them, `writeAll d (ws.take j)`. -/

namespace Laboratorio

open Function

variable {ι α : Type*} {addr : ℕ → ι} {val : ℕ → α}

/-- The writes of a loop over the indices below `n`. -/
def loopWrites (addr : ℕ → ι) (val : ℕ → α) (n : ℕ) : List (ι × α) :=
  (List.range n).map fun i => (addr i, val i)

theorem loopWrites_succ (n : ℕ) :
    loopWrites addr val (n + 1) = loopWrites addr val n ++ [(addr n, val n)] := by
  rw [loopWrites, List.range_succ, List.map_append]
  rfl

@[simp] theorem length_loopWrites (n : ℕ) : (loopWrites addr val n).length = n := by
  rw [loopWrites, List.length_map, List.length_range]

variable {n : ℕ}

theorem mem_loopWrites {w : ι × α} (h : w ∈ loopWrites addr val n) :
    ∃ i < n, w = (addr i, val i) := by
  obtain ⟨i, hi, rfl⟩ := List.mem_map.mp h
  exact ⟨i, List.mem_range.mp hi, rfl⟩

theorem loopWrites_congr {addr' : ℕ → ι} {val' : ℕ → α} (haddr : ∀ i < n, addr i = addr' i)
    (hval : ∀ i < n, val i = val' i) : loopWrites addr val n = loopWrites addr' val' n := by
  apply List.map_congr_left
  intro i hi
  rw [haddr i (List.mem_range.mp hi), hval i (List.mem_range.mp hi)]

variable [DecidableEq ι]

def writeAll (d : ι → α) (ws : List (ι × α)) : ι → α :=
  ws.foldl (fun d w => update d w.1 w.2) d

@[simp] theorem writeAll_nil (d : ι → α) : writeAll d [] = d := rfl

theorem writeAll_append (d : ι → α) (ws vs : List (ι × α)) :
    writeAll d (ws ++ vs) = writeAll (writeAll d ws) vs := List.foldl_append

theorem writeAll_singleton (d : ι → α) (a : ι) (v : α) :
    writeAll d [(a, v)] = update d a v := rfl

/-- A write list touches only its own addresses. -/
theorem writeAll_of_notMem {ws : List (ι × α)} (d : ι → α) {a : ι} (h : ∀ w ∈ ws, w.1 ≠ a) :
    writeAll d ws a = d a := by
  induction ws generalizing d with
  | nil => rfl
  | cons w ws ih =>
    have hhead := h w List.mem_cons_self
    have htail : ∀ v ∈ ws, v.1 ≠ a := fun v hv => h v (List.mem_cons_of_mem w hv)
    calc writeAll d (w :: ws) a
        = writeAll (update d w.1 w.2) ws a := rfl
      _ = update d w.1 w.2 a := ih _ htail
      _ = d a := update_of_ne hhead.symm _ _

/-- Two stores that agree off the addresses of a write list agree everywhere after it. -/
theorem writeAll_congr {ws : List (ι × α)} {d e : ι → α}
    (h : ∀ a, (∀ w ∈ ws, w.1 ≠ a) → d a = e a) : writeAll d ws = writeAll e ws := by
  induction ws generalizing d e with
  | nil =>
    funext a
    exact h a (by simp)
  | cons w ws ih =>
    change writeAll (update d w.1 w.2) ws = writeAll (update e w.1 w.2) ws
    apply ih
    intro a ha
    by_cases hw : a = w.1
    · subst hw
      rw [update_self, update_self]
    · rw [update_of_ne hw, update_of_ne hw]
      apply h
      intro v hv
      rcases List.mem_cons.mp hv with rfl | hv
      · exact fun heq => hw heq.symm
      · exact ha v hv

theorem writeAll_loop_off (d : ι → α) {a : ι} (h : ∀ i < n, addr i ≠ a) :
    writeAll d (loopWrites addr val n) a = d a := by
  apply writeAll_of_notMem
  intro w hw
  obtain ⟨i, hi, rfl⟩ := mem_loopWrites hw
  exact h i hi

/-- A loop over distinct addresses leaves at each of them the value it wrote there. -/
theorem writeAll_loop (d : ι → α) (inj : ∀ i < n, ∀ j < n, addr i = addr j → i = j) {i : ℕ}
    (hi : i < n) : writeAll d (loopWrites addr val n) (addr i) = val i := by
  induction n with
  | zero => exact absurd hi (Nat.not_lt_zero i)
  | succ n ih =>
    rw [loopWrites_succ, writeAll_append, writeAll_singleton]
    rcases Nat.lt_succ_iff_lt_or_eq.mp hi with hlt | rfl
    · have hne : addr i ≠ addr n := fun heq =>
        absurd (inj i hi n (Nat.lt_succ_self n) heq) (Nat.ne_of_lt hlt)
      rw [update_of_ne hne]
      exact ih (fun i hi j hj => inj i (by omega) j (by omega)) hlt
    · rw [update_self]

end Laboratorio
