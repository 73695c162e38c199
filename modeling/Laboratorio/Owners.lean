import Mathlib.Logic.Function.Basic
import Mathlib.Data.Finset.Card
import Mathlib.Tactic.Common

/-! Who owns which unit of a pool. Positions of an arbitrary type point to units numbered by naturals,
0 for none; the units below `lo` are reserved and those from `hi` on do not exist. `Exact` says that no
two positions share a unit, that no position owns a reserved one, and that the marks kept by an
allocator are exactly the reserved and the owned units. -/

namespace Laboratorio

open Function

variable {κ : Type*}

structure Exact (addr : κ → ℕ) (lo hi : ℕ) (used : ℕ → Bool) : Prop where
  range : ∀ p, addr p ≠ 0 → lo ≤ addr p ∧ addr p < hi
  inj : ∀ p q, addr p = addr q → addr p ≠ 0 → p = q
  marks : ∀ b < hi, used b = true ↔ b < lo ∨ ∃ p, addr p ≠ 0 ∧ addr p = b

namespace Exact

variable {addr : κ → ℕ} {lo hi b : ℕ} {used : ℕ → Bool} {p : κ}

section

variable (h : Exact addr lo hi used)

include h

/-- An owned unit is marked. -/
theorem used_addr (hp : addr p ≠ 0) : used (addr p) = true :=
  (h.marks _ (h.range p hp).2).mpr (Or.inr ⟨p, hp, rfl⟩)

/-- An unmarked unit is neither reserved nor owned. -/
theorem free (hb : b < hi) (hfree : used b = false) :
    lo ≤ b ∧ ∀ q, addr q ≠ 0 → addr q ≠ b := by
  have hnot : ¬(b < lo ∨ ∃ p, addr p ≠ 0 ∧ addr p = b) := by
    rw [← h.marks b hb, hfree]
    exact Bool.false_ne_true
  rw [not_or] at hnot
  exact ⟨not_lt.mp hnot.1, fun q hq heq => hnot.2 ⟨q, hq, heq⟩⟩

/-- A change of marks from `hi` on does not matter. -/
theorem congr_used {used' : ℕ → Bool} (hsame : ∀ b < hi, used' b = used b) :
    Exact addr lo hi used' :=
  ⟨h.range, h.inj, fun b hb => by rw [hsame b hb, h.marks b hb]⟩

/-- A unit joins the pool, with no owner. -/
theorem grow (hle : lo ≤ hi) : Exact addr lo (hi + 1) (update used hi false) := by
  refine ⟨fun p hp => ?_, h.inj, fun b hb => ?_⟩
  · have hrange := h.range p hp
    exact ⟨hrange.1, Nat.lt_succ_of_lt hrange.2⟩
  by_cases hbhi : b = hi
  · rw [hbhi, update_self]
    refine iff_of_false Bool.false_ne_true ?_
    rintro (hlt | ⟨p, hp, heq⟩)
    · omega
    · have hrange := h.range p hp
      omega
  · rw [update_of_ne hbhi]
    exact h.marks b (by omega)

/-- Other positions, where those that own something come from the old ones. -/
theorem transport {κ' : Type*} {addr' : κ' → ℕ} (f : κ → κ') (haddr : ∀ p, addr' (f p) = addr p)
    (hcover : ∀ q, addr' q ≠ 0 → ∃ p, f p = q) : Exact addr' lo hi used := by
  refine ⟨fun q hq => ?_, fun q q' heq hq => ?_, fun b hb => ?_⟩
  · obtain ⟨p, rfl⟩ := hcover q hq
    rw [haddr] at hq ⊢
    exact h.range p hq
  · obtain ⟨p', rfl⟩ := hcover q' (heq ▸ hq)
    obtain ⟨p, rfl⟩ := hcover q hq
    rw [haddr] at heq hq
    rw [haddr] at heq
    rw [h.inj p p' heq hq]
  · rw [h.marks b hb]
    apply or_congr_right
    constructor
    · rintro ⟨p, hp, heq⟩
      exact ⟨f p, by rwa [haddr], by rwa [haddr]⟩
    · rintro ⟨q, hq, heq⟩
      obtain ⟨p, rfl⟩ := hcover q hq
      rw [haddr] at hq heq
      exact ⟨p, hq, heq⟩

end

variable [DecidableEq κ]

/-- A position that owns nothing takes an unmarked unit. -/
theorem assign (h : Exact addr lo hi used) (hlo : 0 < lo) (hp : addr p = 0) (hb : b < hi) (hfree : used b = false) :
    Exact (update addr p b) lo hi (update used b true) := by
  obtain ⟨hge, hnew⟩ := h.free hb hfree
  have hold : ∀ q, q ≠ p → update addr p b q = addr q :=
    fun q hq => update_of_ne hq _ _
  refine ⟨?_, ?_, ?_⟩
  · intro q hq
    by_cases hqp : q = p
    · rw [hqp, update_self]
      exact ⟨hge, hb⟩
    · rw [hold q hqp] at hq ⊢
      exact h.range q hq
  · intro q r heq hq
    by_cases hqp : q = p
    · by_cases hrp : r = p
      · rw [hqp, hrp]
      · rw [hqp, update_self] at hq
        rw [hqp, update_self, hold r hrp] at heq
        exact absurd heq.symm (hnew r (heq ▸ hq))
    · rw [hold q hqp] at heq hq
      by_cases hrp : r = p
      · rw [hrp, update_self] at heq
        exact absurd heq (hnew q hq)
      · rw [hold r hrp] at heq
        exact h.inj q r heq hq
  · intro c hc
    by_cases hcb : c = b
    · rw [hcb, update_self]
      refine iff_of_true rfl (Or.inr ⟨p, ?_, update_self _ _ _⟩)
      rw [update_self]
      omega
    rw [update_of_ne hcb, h.marks c hc]
    apply or_congr_right
    constructor
    · rintro ⟨q, hq, rfl⟩
      have hqp : q ≠ p := fun heq => hq (heq ▸ hp)
      exact ⟨q, by rwa [hold q hqp], hold q hqp⟩
    · rintro ⟨q, hq, rfl⟩
      have hqp : q ≠ p := by
        rintro rfl
        exact hcb (update_self _ _ _)
      rw [hold q hqp] at hq ⊢
      exact ⟨q, hq, rfl⟩

/-- A position gives its unit back. -/
theorem release (h : Exact addr lo hi used) (hp : addr p ≠ 0) :
    Exact (update addr p 0) lo hi (update used (addr p) false) := by
  have hold : ∀ q, q ≠ p → update addr p 0 q = addr q :=
    fun q hq => update_of_ne hq _ _
  have hother : ∀ q, update addr p 0 q ≠ 0 → q ≠ p := by
    rintro q hq rfl
    exact hq (update_self _ _ _)
  refine ⟨?_, ?_, ?_⟩
  · intro q hq
    have hqp := hother q hq
    rw [hold q hqp] at hq ⊢
    exact h.range q hq
  · intro q r heq hq
    have hqp := hother q hq
    have hrp := hother r (heq ▸ hq)
    rw [hold q hqp] at heq hq
    rw [hold r hrp] at heq
    exact h.inj q r heq hq
  · intro c hc
    by_cases hcp : c = addr p
    · rw [hcp, update_self]
      refine iff_of_false Bool.false_ne_true ?_
      rintro (hlt | ⟨q, hq, heq⟩)
      · exact absurd (h.range p hp).1 (not_le.mpr hlt)
      · have hqp := hother q hq
        rw [hold q hqp] at heq
        exact hqp (h.inj q p heq (heq ▸ hp))
    · rw [update_of_ne hcp, h.marks c hc]
      apply or_congr_right
      constructor
      · rintro ⟨q, hq, rfl⟩
        have hqp : q ≠ p := fun heq => hcp (by rw [heq])
        exact ⟨q, by rwa [hold q hqp], hold q hqp⟩
      · rintro ⟨q, hq, rfl⟩
        have hqp := hother q hq
        rw [hold q hqp] at hq ⊢
        exact ⟨q, hq, rfl⟩

/-- A position hands its unit to one that owns nothing. -/
theorem move (h : Exact addr lo hi used) (hlo : 0 < lo) {q : κ} (hp : addr p ≠ 0) (hq : addr q = 0) :
    Exact (update (update addr p 0) q (addr p)) lo hi used := by
  have hqp : q ≠ p := by
    rintro rfl
    exact hp hq
  have hgiven := (h.release hp).assign hlo (by rw [update_of_ne hqp, hq])
    (h.range p hp).2 (update_self _ _ _)
  apply hgiven.congr_used
  intro c _
  rw [update_idem]
  by_cases hc : c = addr p
  · rw [hc, update_self, h.used_addr hp]
  · rw [update_of_ne hc]

end Exact

def freeUnits (hi : ℕ) (used : ℕ → Bool) : Finset ℕ := (Finset.range hi).filter fun b => used b = false

theorem card_freeUnits_assign {hi b : ℕ} {used : ℕ → Bool} (hb : b < hi) (hfree : used b = false) :
    (freeUnits hi (update used b true)).card + 1 = (freeUnits hi used).card := by
  have herase : freeUnits hi (update used b true) = (freeUnits hi used).erase b := by
    ext c
    by_cases hc : c = b
    · simp [freeUnits, hc]
    · simp [freeUnits, hc]
  rw [herase, Finset.card_erase_add_one]
  simp [freeUnits, hb, hfree]

/-- Positions that come to own something, while the others keep their units, take units that were free. -/
theorem Exact.card_le_free {addr addr' : κ → ℕ} {lo hi : ℕ} {used used' : ℕ → Bool} (h : Exact addr lo hi used)
    (h' : Exact addr' lo hi used') (hkept : ∀ p, addr p ≠ 0 → addr' p = addr p) {S : Finset κ}
    (hS : ∀ p ∈ S, addr p = 0 ∧ addr' p ≠ 0) :
    S.card + (freeUnits hi used').card ≤ (freeUnits hi used).card := by
  have hinj : Set.InjOn addr' S := fun p hp q _ heq => h'.inj p q heq (hS p hp).2
  have hstill : ∀ b < hi, used b = true → used' b = true := by
    intro b hb hused
    rw [h.marks b hb] at hused
    rw [h'.marks b hb]
    rcases hused with hlt | ⟨q, hq, rfl⟩
    · exact Or.inl hlt
    · exact Or.inr ⟨q, by rwa [hkept q hq], hkept q hq⟩
  have hfree : ∀ p ∈ S, used (addr' p) = false := by
    intro p hp
    obtain ⟨hnone, hnew⟩ := hS p hp
    have hrange := h'.range p hnew
    rw [← Bool.not_eq_true, h.marks _ hrange.2]
    rintro (hlt | ⟨q, hq, heq⟩)
    · omega
    · rw [← hkept q hq] at heq
      rw [h'.inj q p heq (heq ▸ hnew)] at hq
      exact hq hnone
  have hdisjoint : Disjoint (S.image addr') (freeUnits hi used') := by
    rw [Finset.disjoint_left]
    intro b hb hb'
    obtain ⟨p, hp, rfl⟩ := Finset.mem_image.mp hb
    have hclear := (Finset.mem_filter.mp hb').2
    rw [h'.used_addr (hS p hp).2] at hclear
    cases hclear
  rw [← Finset.card_image_of_injOn hinj, ← Finset.card_union_of_disjoint hdisjoint]
  apply Finset.card_le_card
  intro b hb
  rw [freeUnits, Finset.mem_filter, Finset.mem_range]
  rcases Finset.mem_union.mp hb with hb | hb
  · obtain ⟨p, hp, rfl⟩ := Finset.mem_image.mp hb
    exact ⟨(h'.range p (hS p hp).2).2, hfree p hp⟩
  · obtain ⟨hlt, hclear⟩ := Finset.mem_filter.mp hb
    rw [Finset.mem_range] at hlt
    refine ⟨hlt, ?_⟩
    rw [← Bool.not_eq_true] at hclear ⊢
    exact fun hused => hclear (hstill b hlt hused)

end Laboratorio
