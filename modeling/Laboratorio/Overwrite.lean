import Mathlib.Data.List.Basic
import Mathlib.Tactic.Common

/-! Overwriting a stretch of a list, which may grow it, and reading a stretch. -/

namespace Laboratorio

variable {α : Type*}

/-- `src` in place of the elements from `off` on. -/
def overwrite (a : List α) (off : ℕ) (src : List α) : List α :=
  a.take off ++ src ++ a.drop (off + src.length)

variable {a : List α} {off : ℕ}

theorem length_overwrite (h : off ≤ a.length) (src : List α) :
    (overwrite a off src).length = max a.length (off + src.length) := by
  rw [overwrite, List.length_append, List.length_append, List.length_take, List.length_drop]
  omega

/-- Overwriting at the end appends. -/
theorem overwrite_end (a src : List α) : overwrite a a.length src = a ++ src := by
  rw [overwrite, List.take_length, List.drop_eq_nil_of_le (by omega), List.append_nil]

theorem getElem?_overwrite (h : off ≤ a.length) (src : List α) (o : ℕ) :
    (overwrite a off src)[o]? = if off ≤ o ∧ o < off + src.length then src[o - off]? else a[o]? := by
  have htake : (a.take off).length = off := List.length_take_of_le h
  unfold overwrite
  by_cases hlo : o < off
  · rw [if_neg (by omega), List.append_assoc, List.getElem?_append_left (by omega),
      List.getElem?_take_of_lt hlo]
  · by_cases hhi : o < off + src.length
    · rw [if_pos (by omega), List.getElem?_append_left (by rw [List.length_append]; omega),
        List.getElem?_append_right (by omega), htake]
    · rw [if_neg (by omega), List.getElem?_append_right (by rw [List.length_append]; omega),
        List.getElem?_drop, List.length_append, htake]
      congr 1
      omega

theorem overwrite_nil (a : List α) (off : ℕ) : overwrite a off [] = a := by
  rw [overwrite, List.append_nil, List.length_nil, Nat.add_zero, List.take_append_drop]

/-- Two stretches one after the other are one stretch. -/
theorem overwrite_append (h : off ≤ a.length) (xs ys : List α) :
    overwrite (overwrite a off xs) (off + xs.length) ys = overwrite a off (xs ++ ys) := by
  have hlen : (a.take off ++ xs).length = off + xs.length := by
    rw [List.length_append, List.length_take_of_le h]
  have hfirst : (overwrite a off xs).take (off + xs.length) = a.take off ++ xs := by
    rw [overwrite, ← hlen, List.take_left]
  have hrest : (overwrite a off xs).drop (off + xs.length + ys.length) = a.drop (off + (xs ++ ys).length) := by
    rw [overwrite, ← hlen, List.drop_length_add_append, hlen, List.drop_drop, List.length_append, Nat.add_assoc]
  calc overwrite (overwrite a off xs) (off + xs.length) ys
      = a.take off ++ xs ++ ys ++ a.drop (off + (xs ++ ys).length) := by rw [overwrite, hfirst, hrest]
    _ = overwrite a off (xs ++ ys) := by rw [overwrite, List.append_assoc (a.take off)]

/-- What was written can be read back. -/
theorem overwrite_stretch (h : off ≤ a.length) (xs ys zs : List α) :
    ((overwrite a off (xs ++ ys ++ zs)).drop (off + xs.length)).take ys.length = ys := by
  have hlen : (a.take off ++ xs).length = off + xs.length := by
    rw [List.length_append, List.length_take_of_le h]
  have hsplit : overwrite a off (xs ++ ys ++ zs) =
      (a.take off ++ xs) ++ (ys ++ (zs ++ a.drop (off + (xs ++ ys ++ zs).length))) := by
    simp only [overwrite, List.append_assoc]
  rw [hsplit, ← hlen, List.drop_left, List.take_left]

/-- Overwriting past the first element. -/
theorem overwrite_cons (b : α) (l : List α) (k : ℕ) (src : List α) :
    overwrite (b :: l) (k + 1) src = b :: overwrite l k src := by
  unfold overwrite
  rw [List.take_succ_cons, Nat.add_right_comm, List.drop_succ_cons]
  rfl

theorem mem_overwrite_singleton {l : List α} {k : ℕ} {a b : α} (h : b ∈ overwrite l k [a]) : b ∈ l ∨ b = a := by
  rw [overwrite, List.mem_append, List.mem_append, List.mem_singleton] at h
  obtain (hb | hb) | hb := h
  · exact Or.inl (List.mem_of_mem_take hb)
  · exact Or.inr hb
  · exact Or.inl (List.mem_of_mem_drop hb)

theorem map_overwrite {β : Type*} (f : α → β) (l : List α) (k : ℕ) (src : List α) :
    (overwrite l k src).map f = overwrite (l.map f) k (src.map f) := by
  unfold overwrite
  rw [List.map_append, List.map_append, List.map_take, List.map_drop, List.length_map]

/-- One element more of the new value, and one less of the one that was there. -/
theorem count_overwrite [DecidableEq α] {l : List α} {k : ℕ} (hk : k ≤ l.length) (a b : α) :
    (overwrite l k [a]).count b + (if l[k]? = some b then 1 else 0) = l.count b + if a = b then 1 else 0 := by
  have hone : ∀ c : α, [c].count b = if c = b then 1 else 0 := by
    intro c
    simp only [List.count_singleton, beq_iff_eq]
  by_cases hlt : k < l.length
  · have hsplit : l.count b = (l.take k).count b + ((if l[k] = b then 1 else 0) + (l.drop (k + 1)).count b) := by
      calc l.count b = (l.take k ++ ([l[k]] ++ l.drop (k + 1))).count b := by
            rw [List.singleton_append, ← List.drop_eq_getElem_cons hlt, List.take_append_drop]
        _ = _ := by rw [List.count_append, List.count_append, hone]
    rw [overwrite, List.count_append, List.count_append, hone, List.getElem?_eq_getElem hlt, hsplit,
      List.length_singleton]
    simp only [Option.some.injEq]
    omega
  · have hend : k = l.length := by omega
    rw [hend, overwrite_end, List.count_append, hone, List.getElem?_eq_none (Nat.le_refl _),
      if_neg (Option.some_ne_none b).symm, Nat.add_zero]
end Laboratorio
