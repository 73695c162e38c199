import Mathlib.Data.List.Range
import Mathlib.Logic.Function.Basic
import Mathlib.Tactic.Common
import Mathlib.Algebra.Group.Nat.Defs

/-! The two `memmove`s. That of `string.c` copies from the end where the destination starts inside the source;
that of `ulib.c` copies from the start always, and counts with an `int`. -/

namespace Laboratorio

open Function

/-! ### Copying cell by cell -/

section Cells

variable {ι α : Type} [DecidableEq ι] {dst src : ℕ → ι} {is : List ℕ} {m : ι → α}

/-- Cell `dst i` becomes cell `src i`, for one `i` of the list after another. -/
def copyCells (dst src : ℕ → ι) : List ℕ → (ι → α) → ι → α
  | [], m => m
  | i :: is, m => copyCells dst src is (update m (dst i) (m (src i)))

theorem copyCells_concat (i : ℕ) :
    copyCells dst src (is ++ [i]) m = update (copyCells dst src is m) (dst i) (copyCells dst src is m (src i)) := by
  induction is generalizing m with
  | nil => rfl
  | cons j is ih => exact ih

theorem copyCells_of_ne {a : ι} (h : ∀ i ∈ is, a ≠ dst i) : copyCells dst src is m a = m a := by
  induction is generalizing m with
  | nil => rfl
  | cons i is ih =>
    rw [copyCells, ih fun j hj => h j (List.mem_cons_of_mem i hj)]
    exact update_of_ne (h i List.mem_cons_self) _ _

theorem copyCells_of_mem (h : is.Pairwise fun i j => dst i ≠ dst j ∧ src j ≠ dst i) {j : ℕ} (hj : j ∈ is) :
    copyCells dst src is m (dst j) = m (src j) := by
  induction is generalizing m with
  | nil => cases hj
  | cons i is ih =>
    obtain ⟨hfirst, hrest⟩ := List.pairwise_cons.mp h
    rw [copyCells]
    rcases List.mem_cons.mp hj with rfl | hmem
    · rw [copyCells_of_ne fun k hk => (hfirst k hk).1]
      exact update_self _ _ _
    · rw [ih hrest hmem]
      exact update_of_ne (hfirst j hmem).2 _ _

end Cells

namespace Memmove

abbrev Memory := BitVec 32 → UInt8

/-- `while(n-- > 0) *d++ = *s++`. -/
def copyUp : ℕ → BitVec 32 → BitVec 32 → Memory → Memory
  | 0, _, _, m => m
  | n + 1, d, s, m => copyUp n (d + 1) (s + 1) (update m d (m s))

/-- `while(n-- > 0) *--d = *--s`. -/
def copyDown : ℕ → BitVec 32 → BitVec 32 → Memory → Memory
  | 0, _, _, m => m
  | n + 1, d, s, m => copyDown n (d - 1) (s - 1) (update m (d - 1) (m (s - 1)))

/-- `memmove` of `string.c`. -/
def StringC.memmove (m : Memory) (dst src n : BitVec 32) : BitVec 32 × Memory :=
  (dst, if src < dst ∧ src + n > dst then copyDown n.toNat (dst + n) (src + n) m else copyUp n.toNat dst src m)

/-- `memmove` of `ulib.c`: `n` is an `int`. -/
def Ulib.memmove (m : Memory) (vdst vsrc n : BitVec 32) : BitVec 32 × Memory :=
  (vdst, copyUp n.toInt.toNat vdst vsrc m)

def cell (p : BitVec 32) (i : ℕ) : BitVec 32 := p + BitVec.ofNat 32 i

/-- `dst[0..n-1]` is what `src[0..n-1]` was, and nothing else has changed. -/
def Moved (m : Memory) (dst src : BitVec 32) (n : ℕ) (m' : Memory) : Prop :=
  (∀ i < n, m' (cell dst i) = m (cell src i)) ∧ ∀ a, (∀ i < n, a ≠ cell dst i) → m' a = m a

/-- A count beyond `int` moves nothing. Where the destination starts inside the source, the bytes before it come again
and again. -/
def Repeats (m : Memory) (dst src n : BitVec 32) : Prop :=
  (2 ^ 31 ≤ n.toNat → ∀ i < n.toNat, m (cell src i) = m (cell dst i)) ∧
    (n.toNat < 2 ^ 31 → src < dst → ∀ i < n.toNat, m (cell src i) = m (cell src (i % (dst.toNat - src.toNat))))

section Loops

variable {m : Memory} {dst src n d s : BitVec 32} {k : ℕ}

theorem cell_zero (p : BitVec 32) : cell p 0 = p := BitVec.add_zero p

theorem cell_succ (p : BitVec 32) (i : ℕ) : cell p i + 1 = cell p (i + 1) := by
  rw [cell, cell, BitVec.ofNat_add, BitVec.add_assoc]
  rfl

theorem cell_pred (p : BitVec 32) (i : ℕ) : cell p (i + 1) - 1 = cell p i := by
  rw [← cell_succ]
  exact BitVec.add_sub_cancel _ _

theorem toNat_cell (h : d.toNat + k ≤ 2 ^ 32) {i : ℕ} (hi : i < k) : (cell d i).toNat = d.toNat + i := by
  rw [cell, BitVec.toNat_add, BitVec.toNat_ofNat]
  omega

theorem cell_inj (h : d.toNat + k ≤ 2 ^ 32) {i j : ℕ} (hi : i < k) (hj : j < k) (heq : cell d i = cell d j) :
    i = j := by
  have hnat := congrArg BitVec.toNat heq
  rw [toNat_cell h hi, toNat_cell h hj] at hnat
  omega

theorem copyUp_eq (dst src : BitVec 32) (m : Memory) (n i : ℕ) :
    copyUp n (cell dst i) (cell src i) m = copyCells (cell dst) (cell src) (List.range' i n) m := by
  induction n generalizing i m with
  | zero => rfl
  | succ n ih =>
    rw [copyUp, cell_succ, cell_succ, List.range'_succ, copyCells]
    exact ih _ (i + 1)

theorem copyUp_range (m : Memory) (n : ℕ) : copyUp n dst src m = copyCells (cell dst) (cell src) (List.range n) m := by
  have h := copyUp_eq dst src m n 0
  rwa [cell_zero, cell_zero, ← List.range_eq_range'] at h

theorem copyDown_range (m : Memory) (n : ℕ) :
    copyDown n (cell dst n) (cell src n) m = copyCells (cell dst) (cell src) (List.range n).reverse m := by
  induction n generalizing m with
  | zero => rfl
  | succ n ih =>
    rw [copyDown, cell_pred, cell_pred, List.range_succ, List.reverse_concat, copyCells]
    exact ih _

theorem Moved.of_cells {is : List ℕ} (hmem : ∀ i, i ∈ is ↔ i < k)
    (h : is.Pairwise fun i j => cell dst i ≠ cell dst j ∧ cell src j ≠ cell dst i) :
    Moved m dst src k (copyCells (cell dst) (cell src) is m) :=
  ⟨fun i hi => copyCells_of_mem h ((hmem i).mpr hi), fun _ ha => copyCells_of_ne fun i hi => ha i ((hmem i).mp hi)⟩

theorem moved_copyUp (hsrc : src.toNat + k ≤ 2 ^ 32) (hdst : dst.toNat + k ≤ 2 ^ 32)
    (h : src.toNat < dst.toNat → src.toNat + k ≤ dst.toNat) : Moved m dst src k (copyUp k dst src m) := by
  rw [copyUp_range]
  refine .of_cells (fun i => List.mem_range) ?_
  refine (List.pairwise_lt_range).imp_of_mem fun {i j} hi hj hij => ⟨fun heq => ?_, fun heq => ?_⟩
  · exact hij.ne (cell_inj hdst (List.mem_range.mp hi) (List.mem_range.mp hj) heq)
  · have hnat := congrArg BitVec.toNat heq
    have hjk := List.mem_range.mp hj
    rw [toNat_cell hsrc hjk, toNat_cell hdst (List.mem_range.mp hi)] at hnat
    omega

theorem moved_copyDown (hsrc : src.toNat + k ≤ 2 ^ 32) (hdst : dst.toNat + k ≤ 2 ^ 32) (h : src.toNat < dst.toNat) :
    Moved m dst src k (copyDown k (cell dst k) (cell src k) m) := by
  rw [copyDown_range]
  refine .of_cells (fun i => List.mem_reverse.trans List.mem_range) ?_
  rw [List.pairwise_reverse]
  refine (List.pairwise_lt_range).imp_of_mem fun {i j} hi hj hij => ⟨fun heq => ?_, fun heq => ?_⟩
  · exact hij.ne' (cell_inj hdst (List.mem_range.mp hj) (List.mem_range.mp hi) heq)
  · have hnat := congrArg BitVec.toNat heq
    rw [toNat_cell hsrc (List.mem_range.mp hi), toNat_cell hdst (List.mem_range.mp hj)] at hnat
    omega

theorem Moved.unique {m₁ m₂ : Memory} (h₁ : Moved m dst src k m₁) (h₂ : Moved m dst src k m₂) : m₁ = m₂ := by
  ext a
  by_cases ha : ∃ i < k, a = cell dst i
  · obtain ⟨i, hi, rfl⟩ := ha
    rw [h₁.1 i hi, h₂.1 i hi]
  · have hout : ∀ i < k, a ≠ cell dst i := fun i hi heq => ha ⟨i, hi, heq⟩
    rw [h₁.2 a hout, h₂.2 a hout]

theorem copyUp_inside (hsrc : src.toNat + k ≤ 2 ^ 32) (hdst : dst.toNat + k ≤ 2 ^ 32) (h : src.toNat < dst.toNat) :
    ∀ i < k, copyUp k dst src m (cell dst i) = m (cell src (i % (dst.toNat - src.toNat))) := by
  -- After `c` copies, the first `c` bytes are in place.
  have hloop : ∀ c ≤ k, ∀ i < c, copyCells (cell dst) (cell src) (List.range c) m (cell dst i) =
      m (cell src (i % (dst.toNat - src.toNat))) := by
    intro c
    induction c with
    | zero => exact fun _ i hi => absurd hi (Nat.not_lt_zero i)
    | succ c ih =>
      intro hc i hi
      rw [List.range_succ, copyCells_concat]
      by_cases hic : i = c
      · rw [hic, update_self]
        by_cases hbefore : c < dst.toNat - src.toNat
        · rw [Nat.mod_eq_of_lt hbefore]
          refine copyCells_of_ne fun j hj heq => ?_
          have hnat := congrArg BitVec.toNat heq
          have hjc := List.mem_range.mp hj
          rw [toNat_cell hsrc hc, toNat_cell hdst (hjc.trans hc)] at hnat
          omega
        · have hread : cell src c = cell dst (c - (dst.toNat - src.toNat)) := by
            apply BitVec.eq_of_toNat_eq
            rw [toNat_cell hsrc hc, toNat_cell hdst (show c - (dst.toNat - src.toNat) < k by omega)]
            omega
          rw [hread, ih (Nat.le_of_succ_le hc) _ (by omega), Nat.mod_eq_sub_mod (Nat.le_of_not_lt hbefore)]
      · have hlt : i < c := by omega
        rw [update_of_ne fun heq => hic (cell_inj hdst (hlt.trans hc) hc heq)]
        exact ih (Nat.le_of_succ_le hc) i hlt
  rw [copyUp_range]
  exact hloop k (Nat.le_refl k)

theorem moved_stringC (hsrc : src.toNat + n.toNat ≤ 2 ^ 32) (hdst : dst.toNat + n.toNat ≤ 2 ^ 32) :
    Moved m dst src n.toNat (StringC.memmove m dst src n).2 := by
  have hcell : ∀ p : BitVec 32, cell p n.toNat = p + n := fun p => by rw [cell, BitVec.ofNat_toNat, BitVec.setWidth_eq]
  unfold StringC.memmove
  split
  · rename_i hinside
    rw [← hcell, ← hcell]
    exact moved_copyDown hsrc hdst hinside.1
  · rename_i houtside
    refine moved_copyUp hsrc hdst fun hlt => ?_
    have hend : (src + n).toNat = src.toNat + n.toNat := by
      rw [BitVec.toNat_add]
      omega
    rw [not_and, gt_iff_lt, BitVec.lt_def, BitVec.lt_def, hend] at houtside
    exact Nat.le_of_not_lt (houtside hlt)

theorem moved_ulib_iff (hsrc : src.toNat + n.toNat ≤ 2 ^ 32) (hdst : dst.toNat + n.toNat ≤ 2 ^ 32) :
    Moved m dst src n.toNat (Ulib.memmove m dst src n).2 ↔ Repeats m dst src n := by
  have hcount : n.toInt.toNat = if n.toNat < 2 ^ 31 then n.toNat else 0 := by
    rw [BitVec.toInt_eq_toNat_cond]
    split <;> split <;> omega
  unfold Ulib.memmove Repeats
  dsimp only
  rw [hcount]
  by_cases hint : n.toNat < 2 ^ 31
  · rw [if_pos hint]
    by_cases hlt : src.toNat < dst.toNat
    · have hinside := copyUp_inside (m := m) hsrc hdst hlt
      constructor
      · intro hmoved
        refine ⟨fun hbig => absurd hint (Nat.not_lt.mpr hbig), fun _ _ i hi => ?_⟩
        rw [← hmoved.1 i hi, hinside i hi]
      · rintro ⟨-, hrepeats⟩
        refine ⟨fun i hi => ?_, fun a ha => ?_⟩
        · rw [hinside i hi, hrepeats hint hlt i hi]
        · rw [copyUp_range]
          exact copyCells_of_ne fun i hi => ha i (List.mem_range.mp hi)
    · refine iff_of_true (moved_copyUp hsrc hdst fun h => absurd h hlt) ⟨fun hbig => ?_, fun _ h => absurd h hlt⟩
      exact absurd hint (Nat.not_lt.mpr hbig)
  · rw [if_neg hint]
    constructor
    · rintro ⟨hmoved, -⟩
      exact ⟨fun _ i hi => (hmoved i hi).symm, fun h => absurd h hint⟩
    · rintro ⟨hsame, -⟩
      exact ⟨fun i hi => (hsame (Nat.le_of_not_lt hint) i hi).symm, fun _ _ => rfl⟩

end Loops

/-- Two bytes moved up by one: the user library has put the first one twice. -/
theorem memmove_overlap :
    ¬Moved (fun a => UInt8.ofNat a.toNat) 1 0 2 (Ulib.memmove (fun a => UInt8.ofNat a.toNat) 1 0 2).2 := by
  intro h
  have hsecond := h.1 1 (by decide)
  revert hsecond
  decide

/-- The kernel moves every range; the user library does, and agrees with it, exactly when the bytes repeat. -/
theorem memmove_moves_iff (m : Memory) (dst src n : BitVec 32) (hsrc : src.toNat + n.toNat ≤ 2 ^ 32)
    (hdst : dst.toNat + n.toNat ≤ 2 ^ 32) :
    Moved m dst src n.toNat (StringC.memmove m dst src n).2 ∧
      (Moved m dst src n.toNat (Ulib.memmove m dst src n).2 ↔ Repeats m dst src n) ∧
      (StringC.memmove m dst src n = Ulib.memmove m dst src n ↔ Repeats m dst src n) := by
  have hkernel := moved_stringC (m := m) hsrc hdst
  refine ⟨hkernel, moved_ulib_iff hsrc hdst, ?_⟩
  rw [← moved_ulib_iff hsrc hdst]
  constructor
  · intro heq
    rwa [← heq]
  · intro huser
    exact Prod.ext rfl (hkernel.unique huser)

theorem memmove_moves_iff_down :
    Moved (fun a => UInt8.ofNat a.toNat) 0 1 2 (Ulib.memmove (fun a => UInt8.ofNat a.toNat) 0 1 2).2 :=
  (memmove_moves_iff _ 0 1 2 (by decide) (by decide)).2.1.mpr ⟨fun h => absurd h (by decide),
  fun _ h => absurd h (by decide)⟩

end Memmove

end Laboratorio
