import Mathlib.Logic.Function.Basic
import Laboratorio.Overwrite

/-! A table of slots that holds a partial map. `read` says what a slot holds: nothing, or a key and its value. A key is
in one slot at most, and a new one may go into any slot that holds nothing, or after the last. -/

namespace Laboratorio

open Function

variable {ε κ β : Type*} {read : ε → Option (κ × β)} {m : κ → Option β} {l : List ε} {k : ℕ} {e e' : ε} {x : κ} {b : β}

/-- The slots hold the map. -/
structure SlotMap (read : ε → Option (κ × β)) (m : κ → Option β) (l : List ε) : Prop where
  mem : ∀ x b, m x = some b ↔ ∃ (i : ℕ) (e : ε), l[i]? = some e ∧ read e = some (x, b)
  distinct : ∀ {i j : ℕ} {e e' : ε} {x : κ} {b b' : β}, l[i]? = some e → l[j]? = some e' → read e = some (x, b) →
    read e' = some (x, b') → i = j

theorem getElem?_overwrite_singleton (hk : k ≤ l.length) (e : ε) (o : ℕ) :
    (overwrite l k [e])[o]? = if o = k then some e else l[o]? := by
  rw [getElem?_overwrite hk, List.length_singleton]
  by_cases ho : o = k
  · rw [if_pos (by omega), if_pos ho, ho, Nat.sub_self]
    rfl
  · rw [if_neg (by omega), if_neg ho]

namespace SlotMap

/-- A slot without the key holds another. -/
theorem ne_key (h : SlotMap read m l) (hx : m x = none) {i : ℕ} (hi : l[i]? = some e) {y : κ}
    (he : read e = some (y, b)) : y ≠ x := by
  intro heq
  rw [heq] at he
  have hsome := (h.mem x b).mpr ⟨i, e, hi, he⟩
  rw [hx] at hsome
  cases hsome

variable [DecidableEq κ]

/-- A new key in a slot that held nothing. -/
theorem put (h : SlotMap read m l) (hk : k ≤ l.length) (hempty : ∀ e', l[k]? = some e' → read e' = none)
    (hx : m x = none) (he : read e = some (x, b)) : SlotMap read (update m x (some b)) (overwrite l k [e]) := by
  have hget := getElem?_overwrite_singleton hk e
  -- A slot of the new table that holds another key is one of the old table.
  have hold : ∀ {i e' y c}, (overwrite l k [e])[i]? = some e' → read e' = some (y, c) → y ≠ x →
    i ≠ k ∧ l[i]? = some e' := by
    intro i e' y c hi he' hyx
    have hik : i ≠ k := by
      intro heq
      rw [hget, if_pos heq] at hi
      cases hi
      rw [he] at he'
      cases he'
      exact hyx rfl
    rw [hget, if_neg hik] at hi
    exact ⟨hik, hi⟩
  have hnew : ∀ {i e' c}, (overwrite l k [e])[i]? = some e' → read e' = some (x, c) → i = k := by
    intro i e' c hi he'
    by_contra hik
    rw [hget, if_neg hik] at hi
    exact h.ne_key hx hi he' rfl
  refine ⟨fun y c => ⟨fun hy => ?_, ?_⟩, fun {i j e₁ e₂ y c c'} hi hj he₁ he₂ => ?_⟩
  · by_cases hyx : y = x
    · subst hyx
      rw [update_self] at hy
      cases hy
      exact ⟨k, e, by rw [hget, if_pos rfl], he⟩
    rw [update_of_ne hyx] at hy
    obtain ⟨i, e', hi, he'⟩ := (h.mem y c).mp hy
    refine ⟨i, e', ?_, he'⟩
    rw [hget, if_neg, hi]
    intro hik
    rw [hik] at hi
    rw [hempty e' hi] at he'
    cases he'
  · rintro ⟨i, e', hi, he'⟩
    by_cases hyx : y = x
    · subst hyx
      have hik := hnew hi he'
      rw [hget, if_pos hik] at hi
      cases hi
      rw [he] at he'
      cases he'
      exact update_self _ _ _
    · rw [update_of_ne hyx]
      exact (h.mem y c).mpr ⟨i, e', (hold hi he' hyx).2, he'⟩
  · by_cases hyx : y = x
    · subst hyx
      rw [hnew hi he₁, hnew hj he₂]
    · exact h.distinct (hold hi he₁ hyx).2 (hold hj he₂ hyx).2 he₁ he₂

/-- The slot of a key holds nothing any more. -/
theorem clear (h : SlotMap read m l) (hk : l[k]? = some e) (he : read e = some (x, b)) (he' : read e' = none) :
    SlotMap read (update m x none) (overwrite l k [e']) := by
  have hget := getElem?_overwrite_singleton (Nat.le_of_lt (List.getElem?_eq_some_iff.mp hk).1) e'
  have hold : ∀ {i e₁ y c}, (overwrite l k [e'])[i]? = some e₁ → read e₁ = some (y, c) → i ≠ k ∧ l[i]? = some e₁ := by
    intro i e₁ y c hi he₁
    have hik : i ≠ k := by
      intro heq
      rw [hget, if_pos heq] at hi
      cases hi
      rw [he'] at he₁
      cases he₁
    rw [hget, if_neg hik] at hi
    exact ⟨hik, hi⟩
  refine ⟨fun y c => ⟨fun hy => ?_, ?_⟩, fun hi hj he₁ he₂ => h.distinct (hold hi he₁).2 (hold hj he₂).2 he₁ he₂⟩
  · have hyx : y ≠ x := by
      intro heq
      rw [heq, update_self] at hy
      cases hy
    rw [update_of_ne hyx] at hy
    obtain ⟨i, e₁, hi, he₁⟩ := (h.mem y c).mp hy
    refine ⟨i, e₁, ?_, he₁⟩
    rw [hget, if_neg, hi]
    intro hik
    rw [hik, hk] at hi
    cases hi
    rw [he] at he₁
    cases he₁
    exact hyx rfl
  · rintro ⟨i, e₁, hi, he₁⟩
    obtain ⟨hik, hi⟩ := hold hi he₁
    have hyx : y ≠ x := by
      intro heq
      rw [heq] at he₁
      exact hik (h.distinct hi hk he₁ he)
    rw [update_of_ne hyx]
    exact (h.mem y c).mpr ⟨i, e₁, hi, he₁⟩

end SlotMap

end Laboratorio
