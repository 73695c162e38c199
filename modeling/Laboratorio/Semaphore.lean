import Mathlib.Data.Nat.Count
import Mathlib.Tactic.Linarith
import Laboratorio.Counting

/-! Threads that share semaphores and a mutex. A mutex names the one thread inside its section; the
permits of a semaphore are kept in a balance with what the phase of each thread accounts for; and the
times at which a counted event happens can be read off the counter. -/

namespace Laboratorio

open Function

/-! ### Mutual exclusion -/

section Excludes

variable {ι : Type*} {holder : Option ι} {inside : ι → Prop}

/-- The threads between lock and unlock are the holder of the mutex, if it has one. -/
def Excludes (holder : Option ι) (inside : ι → Prop) : Prop := ∀ i, inside i ↔ holder = some i

theorem Excludes.eq (h : Excludes holder inside) {i j : ι} (hi : inside i) (hj : inside j) : i = j := by
  have hi' := (h i).mp hi
  rw [(h j).mp hj] at hi'
  exact (Option.some.inj hi').symm

theorem Excludes.free (h : Excludes none inside) (i : ι) : ¬inside i := by
  intro hi
  cases (h i).mp hi

variable {inside' : ι → Prop}

/-- A step that moves no thread into or out of the section. -/
theorem Excludes.keep (h : Excludes holder inside) (hsame : ∀ i, inside' i ↔ inside i) :
    Excludes holder inside' := fun i => (hsame i).trans (h i)

theorem Excludes.lock (h : Excludes none inside) {i : ι} (hi : inside' i)
    (hsame : ∀ j, j ≠ i → (inside' j ↔ inside j)) : Excludes (some i) inside' := by
  intro j
  constructor
  · intro hj
    by_contra hne
    have hji : j ≠ i := fun he => hne (by rw [he])
    exact h.free j ((hsame j hji).mp hj)
  · intro hj
    cases hj
    exact hi

theorem Excludes.unlock (h : Excludes holder inside) {i : ι} (hin : inside i) (hi : ¬inside' i)
    (hsame : ∀ j, j ≠ i → (inside' j ↔ inside j)) : Excludes none inside' := by
  intro j
  refine ⟨fun hj => ?_, fun hj => nomatch hj⟩
  have hji : j ≠ i := fun he => hi (he ▸ hj)
  exact absurd (h.eq ((hsame j hji).mp hj) hin) hji

end Excludes

/-! ### Permits -/

section Balance

variable {ι κ : Type*} [Fintype ι] {value total : ℤ} {w : κ → ℤ} {f : ι → κ}

/-- What the shared variables hold and what the threads account for, each by its phase, make up the
total. -/
def Balance (value : ℤ) (w : κ → ℤ) (f : ι → κ) (total : ℤ) : Prop := value + ∑ i, w (f i) = total

/-- A thread moves on, and the shared variables change by what its phase accounts for less. -/
theorem Balance.step [DecidableEq ι] (h : Balance value w f total) (i : ι) {x : κ} {value' : ℤ}
    (hv : value' + w x = value + w (f i)) : Balance value' w (update f i x) total := by
  have hsum := sum_update f i x w
  unfold Balance at h ⊢
  linarith

/-- No thread accounts for more than there is. -/
theorem Balance.le (h : Balance value w f total) (hw : ∀ x, 0 ≤ w x) (i : ι) : value + w (f i) ≤ total := by
  have hle : w (f i) ≤ ∑ j, w (f j) :=
    Finset.single_le_sum (f := fun j => w (f j)) (fun j _ => hw (f j)) (Finset.mem_univ i)
  unfold Balance at h
  linarith

theorem Balance.le_total (h : Balance value w f total) (hw : ∀ x, 0 ≤ w x) : value ≤ total := by
  have hnonneg : 0 ≤ ∑ j, w (f j) := Finset.sum_nonneg fun j _ => hw (f j)
  unfold Balance at h
  linarith

/-- Only one thread accounts for anything. -/
theorem Balance.only (h : Balance value w f total) {i : ι} (hzero : ∀ j, j ≠ i → w (f j) = 0) :
    value + w (f i) = total := by
  have hsum : ∑ j, w (f j) = w (f i) :=
    Finset.sum_eq_single i (fun j _ hj => hzero j hj) fun hi => absurd (Finset.mem_univ i) hi
  rw [← hsum]
  exact h

theorem Balance.settled (h : Balance value w f total) (hzero : ∀ j, w (f j) = 0) : value = total := by
  have hsum : ∑ j, w (f j) = 0 := Finset.sum_eq_zero fun j _ => hzero j
  unfold Balance at h
  linarith

end Balance

/-! ### The times of a counted event -/

section Times

variable {p : ℕ → Prop} [DecidablePred p]

/-- A counter that passes `n` between two times does so at an event. -/
theorem exists_event {a b n : ℕ} (ha : Nat.count p a ≤ n) (hb : n < Nat.count p b) :
    ∃ t, a ≤ t ∧ t < b ∧ p t ∧ Nat.count p t = n := by
  induction b with
  | zero =>
    rw [Nat.count_zero] at hb
    exact absurd hb (Nat.not_lt_zero n)
  | succ b ih =>
    by_cases hlt : n < Nat.count p b
    · obtain ⟨t, hat, htb, hp, hn⟩ := ih hlt
      exact ⟨t, hat, by omega, hp, hn⟩
    rw [Nat.count_succ] at hb
    split_ifs at hb with hp
    · have hn : Nat.count p b = n := by omega
      refine ⟨b, ?_, by omega, hp, hn⟩
      by_contra hba
      have hmono : Nat.count p (b + 1) ≤ Nat.count p a := Nat.count_monotone p (by omega)
      rw [Nat.count_succ, if_pos hp] at hmono
      omega
    · omega

end Times

end Laboratorio
