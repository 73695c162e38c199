import Mathlib.Logic.Function.Basic
import Mathlib.Data.Option.Basic

/-! Two partial maps that invert each other: where an item is placed, and which item a place
holds. The three moves of a store of places keep the two sides in agreement: putting an unplaced
item into a free place, moving a placed item to a free place, and exchanging two placed items. -/

namespace Laboratorio

open Function

variable {α β : Type} [DecidableEq α] [DecidableEq β]

/-- The item `a` is recorded at the place `b` exactly when `b` holds `a`. -/
def Agree (loc : α → Option β) (held : β → Option α) : Prop :=
  ∀ a b, loc a = some b ↔ held b = some a

variable {a : α} {b b' : β}

namespace Agree

variable {loc : α → Option β} {held : β → Option α}

omit [DecidableEq α] [DecidableEq β] in
/-- No item is held by two places. -/
theorem held_unique (h : Agree loc held) (hb : held b = some a) (hb' : held b' = some a) : b = b' := by
  have h1 := (h a b).mpr hb
  have h2 := (h a b').mpr hb'
  exact Option.some.inj (h1.symm.trans h2)

/-- An unplaced item enters a free place. -/
theorem insert (h : Agree loc held) (ha : loc a = none) (hb : held b = none) :
    Agree (update loc a (some b)) (update held b (some a)) := by
  intro x y
  by_cases hx : x = a <;> by_cases hy : y = b
  · subst hx hy
    simp
  · subst hx
    rw [update_self, update_of_ne hy]
    constructor
    · intro he
      exact absurd (Option.some.inj he).symm hy
    · intro he
      rw [(h x y).mpr he] at ha
      cases ha
  · subst hy
    rw [update_self, update_of_ne hx]
    constructor
    · intro he
      rw [(h x y).mp he] at hb
      cases hb
    · intro he
      exact absurd (Option.some.inj he).symm hx
  · rw [update_of_ne hx, update_of_ne hy]
    exact h x y

/-- A placed item leaves its place empty and enters a free one. -/
theorem move (h : Agree loc held) (ha : loc a = some b) (hb' : held b' = none) :
    Agree (update loc a (some b')) (update (update held b none) b' (some a)) := by
  have hab : held b = some a := (h a b).mp ha
  have hne : b' ≠ b := by
    intro he
    rw [he, hab] at hb'
    cases hb'
  intro x y
  by_cases hx : x = a
  · subst hx
    rw [update_self]
    by_cases hy : y = b'
    · subst hy
      simp
    rw [update_of_ne hy]
    by_cases hyb : y = b
    · subst hyb
      simp [hne]
    · rw [update_of_ne hyb]
      constructor
      · intro he
        exact absurd (Option.some.inj he).symm hy
      · intro he
        exact absurd (h.held_unique he hab) hyb
  · rw [update_of_ne hx]
    by_cases hy : y = b'
    · subst hy
      rw [update_self, h x y, hb']
      constructor
      · intro he
        cases he
      · intro he
        exact absurd (Option.some.inj he).symm hx
    · rw [update_of_ne hy]
      by_cases hyb : y = b
      · subst hyb
        rw [update_self, h x y, hab]
        constructor
        · intro he
          exact absurd (Option.some.inj he).symm hx
        · intro he
          cases he
      · rw [update_of_ne hyb]
        exact h x y

/-- Two placed items exchange their places. -/
theorem exchange (h : Agree loc held) {a' : α} (hne : a ≠ a') (ha : loc a = some b) (ha' : loc a' = some b') :
    Agree (update (update loc a' (some b)) a (some b')) (update (update held b (some a')) b' (some a)) := by
  have hb : held b = some a := (h a b).mp ha
  have hb' : held b' = some a' := (h a' b').mp ha'
  have hbne : b ≠ b' := by
    intro he
    rw [he, hb'] at hb
    exact hne (Option.some.inj hb).symm
  intro x y
  by_cases hy' : y = b'
  · subst hy'
    rw [update_self]
    by_cases hx : x = a
    · subst hx
      simp
    · rw [update_of_ne hx]
      by_cases hx' : x = a'
      · subst hx'
        simp [hbne, hne]
      · rw [update_of_ne hx', h x y, hb']
        simp [Ne.symm hx', Ne.symm hx]
  · rw [update_of_ne hy']
    by_cases hy : y = b
    · subst hy
      rw [update_self]
      by_cases hx : x = a
      · subst hx
        simp [Ne.symm hbne, Ne.symm hne]
      · rw [update_of_ne hx]
        by_cases hx' : x = a'
        · subst hx'
          simp
        · rw [update_of_ne hx', h x y, hb]
          simp [Ne.symm hx', Ne.symm hx]
    · rw [update_of_ne hy]
      by_cases hx : x = a
      · subst hx
        rw [update_self, ← h x y, ha]
        simp [Ne.symm hy, Ne.symm hy']
      · rw [update_of_ne hx]
        by_cases hx' : x = a'
        · subst hx'
          rw [update_self, ← h x y, ha']
          simp [Ne.symm hy, Ne.symm hy']
        · rw [update_of_ne hx']
          exact h x y

/-- An unplaced item takes the place of a placed one, which moves to a free place. -/
theorem replace (h : Agree loc held) {v : α} (ha : loc a = none) (hv : loc v = some b) (hb' : held b' = none) :
    Agree (update (update loc a (some b)) v (some b')) (update (update held b' (some v)) b (some a)) := by
  have hb : held b = some v := (h v b).mp hv
  have hbne : b' ≠ b := by
    intro he
    rw [he, hb] at hb'
    cases hb'
  have hav : v ≠ a := by
    intro he
    rw [he, ha] at hv
    cases hv
  have hmoved := h.move hv hb'
  have hfree : update (update held b none) b' (some v) b = none := by
    rw [update_of_ne (Ne.symm hbne), update_self]
  have hout : update loc v (some b') a = none := by
    rw [update_of_ne (Ne.symm hav), ha]
  have hplaced := hmoved.insert hout hfree
  rwa [update_comm (Ne.symm hbne), update_idem,
    update_comm hav] at hplaced

end Agree
end Laboratorio
