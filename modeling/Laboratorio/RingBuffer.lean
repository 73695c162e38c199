import Mathlib.Data.Fin.Basic
import Mathlib.Data.UInt
import Mathlib.Tactic.Common
import Mathlib.Algebra.Group.Nat.Defs

/-! A ring of `N` places under two counters that only grow: the number of elements put in and the number
taken out. The ring holds the elements between the two. A machine word that counts so wraps around; the
differences of two such words and the places they select are those of the counts. -/

namespace Laboratorio.RingBuffer

open Function

variable {α : Type*} {N : ℕ} [NeZero N]

/-- The ring `data` after the elements `stored` were put in and the first `taken` of them taken out. -/
structure Holds (data : Fin N → α) (stored : List α) (taken : ℕ) : Prop where
  le : taken ≤ stored.length
  fits : stored.length ≤ taken + N
  elem : ∀ j, taken ≤ j → j < stored.length → stored[j]? = some (data (Fin.ofNat N j))

variable {data : Fin N → α} {stored : List α} {taken : ℕ}

theorem holds_empty (data : Fin N → α) : Holds data [] 0 :=
  ⟨Nat.le_refl 0, Nat.zero_le _, fun _ _ hj => absurd hj (Nat.not_lt_zero _)⟩

/-- Two counts less than `N` apart have different places. -/
theorem ofNat_ne {i j : ℕ} (hij : i < j) (hjN : j < i + N) : Fin.ofNat N i ≠ Fin.ofNat N j := by
  intro heq
  have hmod : i % N = j % N := congrArg Fin.val heq
  have hdvd : N ∣ j - i := Nat.dvd_of_mod_eq_zero (Nat.sub_mod_eq_zero_of_mod_eq hmod.symm)
  have hle := Nat.le_of_dvd (by omega) hdvd
  omega

theorem Holds.put (h : Holds data stored taken) (hroom : stored.length < taken + N) (b : α) :
    Holds (update data (Fin.ofNat N stored.length) b) (stored ++ [b]) taken := by
  have hle := h.le
  refine ⟨?_, ?_, fun j hj hlt => ?_⟩
  · rw [List.length_append, List.length_singleton]
    omega
  · rw [List.length_append, List.length_singleton]
    omega
  · rw [List.length_append, List.length_singleton] at hlt
    by_cases hlast : j = stored.length
    · rw [hlast, update_self, List.getElem?_concat_length]
    · have hbefore : j < stored.length := by omega
      rw [update_of_ne (ofNat_ne hbefore (by omega)), List.getElem?_append_left hbefore]
      exact h.elem j hj hbefore

theorem Holds.get (h : Holds data stored taken) (hsome : taken < stored.length) :
    stored[taken]? = some (data (Fin.ofNat N taken)) := h.elem taken (Nat.le_refl _) hsome

theorem Holds.take (h : Holds data stored taken) (hsome : taken < stored.length) :
    Holds data stored (taken + 1) := by
  have hfits := h.fits
  exact ⟨hsome, by omega, fun j hj hlt => h.elem j (by omega) hlt⟩

/-- The last elements can be taken back. -/
theorem Holds.undo (h : Holds data stored taken) {k : ℕ} (hk : taken ≤ k) (hlen : k ≤ stored.length) :
    Holds data (stored.take k) taken := by
  have hfits := h.fits
  have htake : (stored.take k).length = k := by
    rw [List.length_take]
    omega
  refine ⟨by omega, by omega, fun j hj hlt => ?_⟩
  rw [htake] at hlt
  rw [List.getElem?_take_of_lt hlt]
  exact h.elem j hj (by omega)

/-- The word `x` counts `n`, modulo its size. -/
def Counts (x : UInt32) (n : ℕ) : Prop := x.toNat = n % 2 ^ 32

namespace Counts

variable {x y : UInt32} {m n : ℕ}

theorem succ (hx : Counts x n) : Counts (x + 1) (n + 1) := by
  rw [Counts] at hx ⊢
  rw [UInt32.toNat_add, hx]
  change (n % 2 ^ 32 + 1) % 2 ^ 32 = _
  omega

theorem pred (hx : Counts x (n + 1)) : Counts (x - 1) n := by
  rw [Counts] at hx ⊢
  rw [UInt32.toNat_sub, hx]
  change (2 ^ 32 - 1 + (n + 1) % 2 ^ 32) % 2 ^ 32 = _
  omega

theorem add (hx : Counts x n) (k : ℕ) : Counts (x + UInt32.ofNat k) (n + k) := by
  rw [Counts] at hx ⊢
  rw [UInt32.toNat_add, hx, UInt32.toNat_ofNat']
  omega

theorem toNat_sub (hx : Counts x n) (hy : Counts y m) (hle : m ≤ n) (hlt : n < m + 2 ^ 32) :
    (x - y).toNat = n - m := by
  rw [Counts] at hx hy
  rw [UInt32.toNat_sub, hx, hy]
  omega

theorem eq_iff (hx : Counts x n) (hy : Counts y m) (hle : m ≤ n) (hlt : n < m + 2 ^ 32) :
    x = y ↔ n = m := by
  rw [Counts] at hx hy
  rw [← UInt32.toNat_inj, hx, hy]
  omega

theorem place (hx : Counts x n) (hdvd : N ∣ 2 ^ 32) : Fin.ofNat N x.toNat = Fin.ofNat N n := by
  apply Fin.ext
  rw [hx]
  exact Nat.mod_mod_of_dvd _ hdvd

end Counts

end Laboratorio.RingBuffer
