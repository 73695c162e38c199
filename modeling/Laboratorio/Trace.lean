import Mathlib.Data.List.GetD
import Mathlib.Logic.Function.Basic
import Mathlib.Tactic.Common
import Mathlib.Algebra.GroupWithZero.Nat

/-! Finite executions of a system given by a partial step function, with the state at each time. A run
of a list of actions is one, and an invariant holds at every time. -/

namespace Laboratorio

variable {σ α : Type*}

/-- A step that changes the state at one place only. -/
theorem update_cases {ι β : Type*} [DecidableEq ι] (f : ι → β) (i : ι) (v : β) (j : ι) :
    j = i ∧ Function.update f i v j = v ∨ j ≠ i ∧ Function.update f i v j = f j := by
  rcases eq_or_ne j i with rfl | hne
  · exact Or.inl ⟨rfl, Function.update_self j v f⟩
  · exact Or.inr ⟨hne, Function.update_of_ne hne v f⟩

structure Trace (init : σ) (step : σ → α → Option σ) where
  len : ℕ
  state : ℕ → σ
  act : ℕ → α
  start : state 0 = init
  next : ∀ t < len, step (state t) (act t) = some (state (t + 1))

namespace Trace

variable {init : σ} {step : σ → α → Option σ}

theorem invariant (e : Trace init step) {I : σ → Prop} (hinit : I init)
    (hstep : ∀ s a s', I s → step s a = some s' → I s') : ∀ t ≤ e.len, I (e.state t) := by
  intro t
  induction t with
  | zero =>
    intro _
    rw [e.start]
    exact hinit
  | succ t ih =>
    intro ht
    exact hstep _ _ _ (ih (by omega)) (e.next t ht)

theorem foldlM_take_isSome {acts : List α} (h : (acts.foldlM step init).isSome) (t : ℕ) :
    ((acts.take t).foldlM step init).isSome := by
  rw [← List.take_append_drop t acts, List.foldlM_append] at h
  cases hfirst : (acts.take t).foldlM step init with
  | none => simp [hfirst] at h
  | some s => rfl

/-- The execution of a list of actions that can all be taken. -/
def ofList (acts : List α) (d : α) (h : (acts.foldlM step init).isSome) : Trace init step where
  len := acts.length
  state t := ((acts.take t).foldlM step init).getD init
  act t := acts.getD t d
  start := rfl
  next := by
    intro t ht
    obtain ⟨s, hs⟩ := Option.isSome_iff_exists.mp (foldlM_take_isSome h t)
    obtain ⟨s', hs'⟩ := Option.isSome_iff_exists.mp (foldlM_take_isSome h (t + 1))
    rw [hs, hs', List.getD_eq_getElem _ _ ht]
    rw [← List.take_append_getElem ht, List.foldlM_append, hs] at hs'
    simpa using hs'

theorem ofList_last {acts : List α} {s : σ} (d : α) (h : (acts.foldlM step init).isSome)
    (hs : acts.foldlM step init = some s) : (ofList acts d h).state (ofList acts d h).len = s := by
  simp only [ofList, List.take_length, hs, Option.getD_some]

end Trace

end Laboratorio
