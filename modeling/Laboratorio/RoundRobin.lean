import Mathlib.Data.List.Nodup
import Mathlib.Tactic.Common

/-! A ring of tasks: the one at the head runs, then it goes to the back or leaves, and the next one
runs. Between two turns of a task every task still in the ring has exactly one turn. -/

namespace Laboratorio

variable {α : Type}

/-- The head of `ring` gives way to the next task, and goes to the back or leaves. -/
def Turns (ring ring' : List α) : Prop :=
  ∃ x rest, ring = x :: rest ∧ rest ≠ [] ∧ (ring' = rest ++ [x] ∨ ring' = rest)

variable {x : α}

theorem Turns.mem {ring ring' : List α} (h : Turns ring ring') (hx : x ∈ ring') : x ∈ ring := by
  obtain ⟨y, rest, rfl, -, rfl | rfl⟩ := h
  · rcases List.mem_append.mp hx with hx | hx
    · exact List.mem_cons_of_mem y hx
    · rw [List.mem_singleton.mp hx]
      exact List.mem_cons_self
  · exact List.mem_cons_of_mem y hx

section Sequence

variable {ring : ℕ → List α} {i j : ℕ}

/-- Nobody joins the ring. -/
theorem mem_of_turns (h : ∀ k, i ≤ k → k < j → Turns (ring k) (ring (k + 1))) (hij : i ≤ j)
    (hx : x ∈ ring j) : x ∈ ring i := by
  induction hij with
  | refl => exact hx
  | step hij ih =>
    have hlast := h _ hij (Nat.lt_succ_self _)
    exact ih (fun k hik hkj => h k hik (Nat.lt_succ_of_lt hkj)) (hlast.mem hx)

/-- After the head's turn the others come to the head in their order, and the old head is behind them
all, in front of those that had their turn since, or gone. -/
theorem ring_after {rest : List α} (hring : ring i = x :: rest) {m : ℕ} (hm : m ≤ rest.length)
    (h : ∀ k, i ≤ k → k < i + 1 + m → Turns (ring k) (ring (k + 1))) :
    ∃ back, ring (i + 1 + m) = rest.drop m ++ back ∧ ((∃ more, back = x :: more ∧ more ⊆ rest) ∨ back ⊆ rest) := by
  induction m with
  | zero =>
    obtain ⟨y, others, heq, -, hnext⟩ := h i (Nat.le_refl i) (by omega)
    rw [hring] at heq
    obtain ⟨rfl, rfl⟩ := List.cons.inj heq
    rcases hnext with hnext | hnext
    · exact ⟨[x], by rw [Nat.add_zero, hnext, List.drop_zero], .inl ⟨[], rfl, List.nil_subset _⟩⟩
    · exact ⟨[], by rw [Nat.add_zero, hnext, List.drop_zero, List.append_nil], .inr (List.nil_subset _)⟩
  | succ m ih =>
    obtain ⟨back, hback, hwhere⟩ := ih (by omega) fun k hik hkm => h k hik (by omega)
    obtain ⟨y, others, heq, -, hnext⟩ := h (i + 1 + m) (by omega) (by omega)
    rw [hback, List.drop_eq_getElem_cons (by omega), List.cons_append] at heq
    obtain ⟨rfl, rfl⟩ := List.cons.inj heq
    have hwhere' : ∀ last : List α, last ⊆ rest →
        (∃ more, back ++ last = x :: more ∧ more ⊆ rest) ∨ back ++ last ⊆ rest := by
      intro last hlast
      rcases hwhere with ⟨more, rfl, hmore⟩ | hsub
      · exact .inl ⟨more ++ last, rfl, List.append_subset.mpr ⟨hmore, hlast⟩⟩
      · exact .inr (List.append_subset.mpr ⟨hsub, hlast⟩)
    rcases hnext with hnext | hnext
    · refine ⟨back ++ [rest[m]], ?_, hwhere' _ (by simp)⟩
      rw [← List.append_assoc]
      exact hnext
    · refine ⟨back ++ [], ?_, hwhere' _ (List.nil_subset _)⟩
      rw [List.append_nil]
      exact hnext

/-- Between two turns of `x` with none in between, every other task still in the ring has exactly one
turn. -/
theorem one_turn_between (hnodup : (ring i).Nodup) (hij : i < j)
    (h : ∀ k, i ≤ k → k < j → Turns (ring k) (ring (k + 1))) (hi : (ring i).head? = some x)
    (hj : (ring j).head? = some x) (hbetween : ∀ k, i < k → k < j → (ring k).head? ≠ some x) {y : α}
    (hy : y ∈ ring j) (hne : y ≠ x) : ∃! k, (i < k ∧ k < j) ∧ (ring k).head? = some y := by
  obtain ⟨rest, hring⟩ := List.head?_eq_some_iff.mp hi
  rw [hring, List.nodup_cons] at hnodup
  obtain ⟨hx, hrest⟩ := hnodup
  have hhead : ∀ (m : ℕ) (hm : m < rest.length), i + 1 + m ≤ j → (ring (i + 1 + m)).head? = some rest[m] := by
    intro m hm hmj
    obtain ⟨back, hback, -⟩ := ring_after hring (Nat.le_of_lt hm) fun k hik hkm => h k hik (by omega)
    rw [hback, List.drop_eq_getElem_cons hm]
    rfl
  have hfirst : i + 1 + rest.length ≤ j := by
    by_contra hlt
    have hj' := hhead (j - (i + 1)) (by omega) (by omega)
    rw [Nat.add_sub_cancel' hij, hj] at hj'
    exact hx (Option.some.inj hj' ▸ List.getElem_mem _)
  -- at its next turn `x` is at the head, since it did not leave
  have hback : (ring (i + 1 + rest.length)).head? = some x := by
    obtain ⟨back, heq, hwhere⟩ := ring_after hring (Nat.le_refl _) fun k hik hkm => h k hik (by omega)
    rw [List.drop_length, List.nil_append] at heq
    rcases hwhere with ⟨more, hmore, -⟩ | hsub
    · rw [heq, hmore]
      rfl
    · have hmem : x ∈ ring j := List.mem_of_mem_head? hj
      have := mem_of_turns (fun k hik hkj => h k (by omega) hkj) hfirst hmem
      rw [heq] at this
      exact absurd (hsub this) hx
  have hj_eq : j = i + 1 + rest.length := by
    by_contra hne'
    exact hbetween _ (by omega) (by omega) hback
  have hmem : y ∈ rest := by
    have := mem_of_turns h (Nat.le_of_lt hij) hy
    rw [hring] at this
    exact (List.mem_cons.mp this).resolve_left hne
  obtain ⟨m, hm, rfl⟩ := List.mem_iff_getElem.mp hmem
  refine ⟨i + 1 + m, ⟨⟨by omega, by omega⟩, hhead m hm (by omega)⟩, ?_⟩
  rintro k ⟨⟨hik, hkj⟩, hk⟩
  have hk' := hhead (k - (i + 1)) (by omega) (by omega)
  rw [Nat.add_sub_cancel' hik, hk] at hk'
  have := (List.Nodup.getElem_inj_iff hrest).mp (Option.some.inj hk')
  omega

end Sequence

end Laboratorio
