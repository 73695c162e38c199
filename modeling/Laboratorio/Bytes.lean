import Mathlib.Data.List.Range
import Mathlib.Tactic.Common
import Mathlib.Algebra.GroupWithZero.Nat
import Mathlib.Algebra.Group.Int.Defs

/-! Byte strings of a fixed length, and the little-endian words stored in them. A word of `w` bytes
at offset `o` is read by `getLE` and written by `setLE`; the two offsets of a program's record either
coincide or are disjoint, and one lemma covers each case. A bit is read and written through the mask
`1 << (i % 8)` of byte `i / 8`. -/

namespace Laboratorio

abbrev Bytes (n : Nat) := Fin n → UInt8

variable {b : Bytes n}

namespace Bytes

variable {n : Nat}

/-- The byte at offset `i`; zero past the end. -/
def byte (b : Bytes n) (i : Nat) : UInt8 := if h : i < n then b ⟨i, h⟩ else 0

/-- Overwrite `len` bytes from offset `o` on. -/
def patch (b : Bytes n) (o len : Nat) (src : Nat → UInt8) : Bytes n := fun j =>
  if o ≤ j.val ∧ j.val < o + len then src (j.val - o) else b j

/-- The little-endian word of `w` bytes at offset `o`. -/
def getLE (b : Bytes n) (o : Nat) : Nat → Nat
  | 0 => 0
  | w + 1 => (byte b o).toNat + 256 * getLE b (o + 1) w

/-- Store the low `w` bytes of `x` at offset `o`. -/
def setLE (b : Bytes n) (o w x : Nat) : Bytes n :=
  patch b o w fun k => UInt8.ofNat (x / 256 ^ k)

/-- Store `k` consecutive words of `w` bytes from offset `o` on. -/
def setWords (b : Bytes n) (o w k : Nat) (f : Nat → Nat) : Bytes n :=
  (List.range k).foldl (fun b i => setLE b (o + w * i) w (f i)) b

theorem byte_patch (b : Bytes n) (src : Nat → UInt8) {o len i : Nat} (h : i < n) :
    byte (patch b o len src) i = if o ≤ i ∧ i < o + len then src (i - o) else byte b i := by
  simp only [byte, h, dif_pos, patch]

theorem byte_patch_off (b : Bytes n) (src : Nat → UInt8) {o len i : Nat}
    (h : i < o ∨ o + len ≤ i) : byte (patch b o len src) i = byte b i := by
  by_cases hi : i < n
  · rw [byte_patch b src hi, if_neg (by omega)]
  · simp only [byte, dif_neg hi]

theorem getLE_congr {c : Bytes n} {o w : Nat} (h : ∀ k < w, byte b (o + k) = byte c (o + k)) :
    getLE b o w = getLE c o w := by
  induction w generalizing o with
  | zero => rfl
  | succ w ih =>
    have hzero := h 0 (Nat.succ_pos w)
    have htail : getLE b (o + 1) w = getLE c (o + 1) w := by
      apply ih
      intro k hk
      have hstep := h (k + 1) (by omega)
      rwa [show o + (k + 1) = o + 1 + k by omega] at hstep
    rw [Nat.add_zero] at hzero
    rw [getLE, getLE, hzero, htail]

theorem getLE_lt (b : Bytes n) (o w : Nat) : getLE b o w < 256 ^ w := by
  induction w generalizing o with
  | zero => exact Nat.one_pos
  | succ w ih =>
    have hbyte := (byte b o).toNat_lt
    have hrest := ih (o + 1)
    rw [getLE, Nat.pow_succ]
    omega

/-- A word whose bytes are the digits of `x` in base 256 reads as `x` modulo its width. -/
theorem getLE_of_digits {o w x : Nat}
    (h : ∀ k < w, byte b (o + k) = UInt8.ofNat (x / 256 ^ k)) : getLE b o w = x % 256 ^ w := by
  induction w generalizing o x with
  | zero => simp [getLE, Nat.mod_one]
  | succ w ih =>
    have hzero := h 0 (Nat.succ_pos w)
    have htail : getLE b (o + 1) w = x / 256 % 256 ^ w := by
      apply ih
      intro k hk
      have hstep := h (k + 1) (by omega)
      rw [show o + (k + 1) = o + 1 + k by omega] at hstep
      rw [hstep, Nat.pow_succ', Nat.div_div_eq_div_mul]
    rw [Nat.add_zero, Nat.pow_zero, Nat.div_one] at hzero
    rw [getLE, hzero, htail, Nat.pow_succ', Nat.mod_mul]
    rfl

/-- The bytes of a word that was read. -/
theorem ofNat_getLE (b : Bytes n) {o w k : Nat} (hk : k < w) :
    UInt8.ofNat (getLE b o w / 256 ^ k) = byte b (o + k) := by
  induction w generalizing o k with
  | zero => exact absurd hk (Nat.not_lt_zero k)
  | succ w ih =>
    have hbyte := (byte b o).toNat_lt
    cases k with
    | zero =>
      rw [getLE, Nat.pow_zero, Nat.div_one, Nat.add_zero o]
      apply UInt8.toNat_inj.mp
      rw [UInt8.toNat_ofNat']
      omega
    | succ k =>
      have hrest : ((byte b o).toNat + 256 * getLE b (o + 1) w) / 256 = getLE b (o + 1) w := by omega
      rw [getLE, Nat.pow_succ', ← Nat.div_div_eq_div_mul, hrest, ih (Nat.lt_of_succ_lt_succ hk)]
      congr 1
      omega

theorem getLE_zeros {o w : Nat} (h : ∀ k < w, byte b (o + k) = 0) : getLE b o w = 0 := by
  have hdigits : getLE b o w = 0 % 256 ^ w := by
    apply getLE_of_digits
    intro k hk
    rw [h k hk, Nat.zero_div]
    rfl
  rw [hdigits, Nat.zero_mod]

section

variable (b : Bytes n)

theorem getLE_setLE {o w : Nat} (x : Nat) (h : o + w ≤ n) :
    getLE (setLE b o w x) o w = x % 256 ^ w := by
  apply getLE_of_digits
  intro k hk
  rw [setLE, byte_patch b _ (by omega), if_pos (by omega), Nat.add_sub_cancel_left]

theorem getLE_setLE_off {o w o' w' : Nat} (x : Nat)
    (h : o + w ≤ o' ∨ o' + w' ≤ o) : getLE (setLE b o' w' x) o w = getLE b o w := by
  apply getLE_congr
  intro k hk
  exact byte_patch_off b _ (by omega)

theorem byte_setLE_off {o w i : Nat} (x : Nat) (h : i < o ∨ o + w ≤ i) :
    byte (setLE b o w x) i = byte b i := byte_patch_off b _ h

theorem setWords_succ (o w k : Nat) (f : Nat → Nat) :
    setWords b o w (k + 1) f = setLE (setWords b o w k f) (o + w * k) w (f k) := by
  rw [setWords, List.range_succ, List.foldl_append]
  rfl

theorem byte_setWords_off {o w k i : Nat} (f : Nat → Nat) (h : i < o ∨ o + w * k ≤ i) :
    byte (setWords b o w k f) i = byte b i := by
  induction k with
  | zero => rfl
  | succ k ih =>
    rw [Nat.mul_succ] at h
    rw [setWords_succ, byte_setLE_off _ _ (by omega), ih (by omega)]

theorem getLE_setWords_off {o w k o' w' : Nat} (f : Nat → Nat)
    (h : o' + w' ≤ o ∨ o + w * k ≤ o') : getLE (setWords b o w k f) o' w' = getLE b o' w' := by
  induction k with
  | zero => rfl
  | succ k ih =>
    rw [Nat.mul_succ] at h
    rw [setWords_succ, getLE_setLE_off _ _ (by omega), ih (by omega)]

theorem getLE_setWords {o w k : Nat} (f : Nat → Nat) (h : o + w * k ≤ n) {i : Nat}
    (hi : i < k) : getLE (setWords b o w k f) (o + w * i) w = f i % 256 ^ w := by
  induction k with
  | zero => exact absurd hi (Nat.not_lt_zero i)
  | succ k ih =>
    rw [Nat.mul_succ] at h
    rw [setWords_succ]
    rcases Nat.lt_succ_iff_lt_or_eq.mp hi with hlt | rfl
    · have hmul : w * i + w ≤ w * k := by
        rw [← Nat.mul_succ]
        exact Nat.mul_le_mul_left w hlt
      rw [getLE_setLE_off _ _ (by omega), ih (by omega) hlt]
    · exact getLE_setLE _ _ (by omega)

end

/-! ### Bits -/

def mask (i : Nat) : UInt8 := 1 <<< UInt8.ofNat (i % 8)

def bit (b : Bytes n) (i : Nat) : Bool := byte b (i / 8) &&& mask i != 0

def setBit (b : Bytes n) (i : Nat) : Bytes n := patch b (i / 8) 1 fun _ => byte b (i / 8) ||| mask i

def clearBit (b : Bytes n) (i : Nat) : Bytes n := patch b (i / 8) 1 fun _ => byte b (i / 8) &&& ~~~mask i

theorem mask_toBitVec (i : Nat) : (mask i).toBitVec = BitVec.twoPow 8 (i % 8) := by
  have hall : ∀ k < 8, ((1 : UInt8) <<< UInt8.ofNat k).toBitVec = BitVec.twoPow 8 k := by decide
  exact hall (i % 8) (Nat.mod_lt i (by decide))

theorem and_mask (x : UInt8) (i : Nat) : (x &&& mask i != 0) = x.toBitVec.getLsbD (i % 8) := by
  have hpow : ∀ k < 8, BitVec.twoPow 8 k ≠ 0#8 := by decide
  have hzero : x &&& mask i = 0 ↔ (x.toBitVec &&& BitVec.twoPow 8 (i % 8)) = 0#8 := by
    rw [← mask_toBitVec, ← UInt8.toBitVec_and, ← UInt8.toBitVec_inj]
    rfl
  rw [BitVec.and_twoPow] at hzero
  cases hbit : x.toBitVec.getLsbD (i % 8) with
  | false =>
    rw [hbit] at hzero
    rw [hzero.mpr (if_neg Bool.false_ne_true)]
    rfl
  | true =>
    rw [hbit, if_pos rfl] at hzero
    rw [bne_iff_ne, ne_eq, hzero]
    exact hpow _ (Nat.mod_lt i (by decide))

theorem getLsbD_mask (i j : Nat) : (mask i).toBitVec.getLsbD (j % 8) = decide (i % 8 = j % 8) := by
  have hi := Nat.mod_lt i (show 8 > 0 by decide)
  rw [mask_toBitVec, BitVec.getLsbD_twoPow]
  simp only [hi, decide_true, Bool.true_and]

theorem eq_of_div_mod {i j : Nat} (hdiv : i / 8 = j / 8) : i % 8 = j % 8 ↔ i = j := by
  omega

/-- Setting bit `i` sets that bit and no other. -/
theorem bit_setBit (b : Bytes n) {i j : Nat} (hj : j < 8 * n) :
    bit (setBit b i) j = (decide (i = j) || bit b j) := by
  unfold bit setBit
  by_cases hdiv : i / 8 = j / 8
  · rw [hdiv, byte_patch b _ (by omega), if_pos (by omega), and_mask, and_mask, UInt8.toBitVec_or,
      BitVec.getLsbD_or, getLsbD_mask, Bool.or_comm]
    simp only [eq_of_div_mod hdiv]
  · have hne : i ≠ j := fun heq => hdiv (by rw [heq])
    rw [byte_patch_off b _ (by omega), decide_eq_false hne, Bool.false_or]

/-- Clearing bit `i` clears that bit and no other. -/
theorem bit_clearBit (b : Bytes n) {i j : Nat} (hj : j < 8 * n) :
    bit (clearBit b i) j = (!decide (i = j) && bit b j) := by
  unfold bit clearBit
  by_cases hdiv : i / 8 = j / 8
  · have hlt := Nat.mod_lt j (show 8 > 0 by decide)
    rw [hdiv, byte_patch b _ (by omega), if_pos (by omega), and_mask, and_mask, UInt8.toBitVec_and,
      BitVec.getLsbD_and, UInt8.toBitVec_not, BitVec.getLsbD_not, getLsbD_mask, Bool.and_comm]
    simp only [eq_of_div_mod hdiv, hlt, decide_true, Bool.true_and]
  · have hne : i ≠ j := fun heq => hdiv (by rw [heq])
    rw [byte_patch_off b _ (by omega), decide_eq_false hne, Bool.not_false, Bool.true_and]

end Bytes

end Laboratorio
