import Mathlib.Algebra.BigOperators.Group.List.Basic
import Mathlib.Tactic.Common
import Mathlib.Algebra.GroupWithZero.Nat

/-! A round-robin run queue, by the turns that each task in it still takes. The task at the head takes
its turn and goes to the back, or leaves if it has none left. A scheduler that cannot hand the processor
back to a task that is alone strands the last task unless another one is still in the queue at its last
turn; `Covered` says this of the queue as it stands, and a turn neither makes nor breaks it. -/

namespace Laboratorio

namespace RunQueue

def turn : List ℕ → List ℕ
  | [] => []
  | 0 :: q => q
  | (r + 1) :: q => q ++ [r]

def work (q : List ℕ) : ℕ := q.sum + q.length

/-- Every task that has a turn left has a task ahead of it with at least as many turns, or one behind
it with at least as many less one. -/
def Covered (q : List ℕ) : Prop :=
  ∀ ahead r behind, q = ahead ++ (r + 1) :: behind →
    (∃ x ∈ ahead, r + 1 ≤ x) ∨ ∃ x ∈ behind, r ≤ x

theorem work_turn_lt {q : List ℕ} (h : q ≠ []) : work (turn q) < work q := by
  cases q with
  | nil => exact absurd rfl h
  | cons r q =>
    cases r with
    | zero =>
      simp only [turn, work, List.sum_cons, List.length_cons]
      omega
    | succ r =>
      simp only [turn, work, List.sum_append, List.length_append, List.sum_cons, List.sum_nil,
        List.length_cons, List.length_nil]
      omega

theorem covered_nil : Covered [] := by
  intro ahead r behind h
  exact absurd h (by simp)

theorem not_covered_singleton (r : ℕ) : ¬Covered [r + 1] := by
  intro h
  rcases h [] r [] rfl with ⟨x, hx, -⟩ | ⟨x, hx, -⟩
  · exact absurd hx List.not_mem_nil
  · exact absurd hx List.not_mem_nil

theorem covered_cons_zero (q : List ℕ) : Covered (0 :: q) ↔ Covered q := by
  constructor
  · intro h ahead r behind hq
    rcases h (0 :: ahead) r behind (by rw [hq]; rfl) with ⟨x, hx, hr⟩ | hbehind
    · rcases List.mem_cons.mp hx with rfl | hx
      · exact absurd hr (Nat.not_succ_le_zero r)
      · exact Or.inl ⟨x, hx, hr⟩
    · exact Or.inr hbehind
  · intro h ahead r behind hq
    cases ahead with
    | nil => exact absurd hq (by simp)
    | cons y ahead =>
      obtain ⟨rfl, htail⟩ := List.cons.inj hq
      rcases h ahead r behind htail with ⟨x, hx, hr⟩ | hbehind
      · exact Or.inl ⟨x, List.mem_cons_of_mem 0 hx, hr⟩
      · exact Or.inr hbehind

theorem covered_rotate {r : ℕ} {q : List ℕ} (hne : q ≠ []) :
    Covered ((r + 1) :: q) ↔ Covered (q ++ [r]) := by
  constructor
  · intro h ahead s behind hq
    rcases List.eq_nil_or_concat behind with rfl | ⟨behind, y, rfl⟩
    · obtain ⟨rfl, hr⟩ := List.append_inj' hq rfl
      obtain rfl : r = s + 1 := (List.cons.inj hr).1
      rcases h [] (s + 1) q rfl with ⟨x, hx, -⟩ | hq
      · exact absurd hx List.not_mem_nil
      · exact Or.inl hq
    · rw [List.concat_eq_append, ← List.cons_append, ← List.append_assoc] at hq
      obtain ⟨hfront, hy⟩ := List.append_inj' hq rfl
      obtain rfl : r = y := (List.cons.inj hy).1
      rcases h ((r + 1) :: ahead) s behind (by rw [hfront]; rfl) with ⟨x, hx, hs⟩ | ⟨x, hx, hs⟩
      · rcases List.mem_cons.mp hx with rfl | hx
        · exact Or.inr ⟨r, by simp, by omega⟩
        · exact Or.inl ⟨x, hx, hs⟩
      · exact Or.inr ⟨x, by simp [hx], hs⟩
  · intro h ahead s behind hq
    cases ahead with
    | nil =>
      obtain ⟨hr, rfl⟩ := List.cons.inj hq
      obtain rfl : r = s := Nat.succ.inj hr
      refine Or.inr ?_
      cases r with
      | zero =>
        obtain ⟨x, hx⟩ := List.exists_mem_of_ne_nil q hne
        exact ⟨x, hx, Nat.zero_le x⟩
      | succ r =>
        rcases h q r [] rfl with hx | ⟨x, hx, -⟩
        · exact hx
        · exact absurd hx List.not_mem_nil
    | cons y ahead =>
      obtain ⟨hy, rfl⟩ := List.cons.inj hq
      rcases h ahead s (behind ++ [r]) (by simp) with ⟨x, hx, hs⟩ | ⟨x, hx, hs⟩
      · exact Or.inl ⟨x, List.mem_cons_of_mem y hx, hs⟩
      · rcases List.mem_append.mp hx with hx | hx
        · exact Or.inr ⟨x, hx, hs⟩
        · obtain rfl := List.mem_singleton.mp hx
          exact Or.inl ⟨y, List.mem_cons_self, by omega⟩

end RunQueue

end Laboratorio
