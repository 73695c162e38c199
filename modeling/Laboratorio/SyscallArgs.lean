import Laboratorio.Kalloc

/-! The checks of user addresses in `xv6/syscall.c`. A `uint` or an `int` is a word of 32 bits. -/

namespace Laboratorio.Syscall

open Vm (KERNBASE)

/-- What the checks read of a process: its size, the saved stack pointer and the bytes of its memory. -/
structure Proc where
  sz : BitVec 32
  esp : BitVec 32
  mem : Nat → UInt8

/-- `*(int*)(addr)`. -/
def Proc.word (p : Proc) (addr : BitVec 32) : BitVec 32 :=
  (p.mem (addr.toNat + 3)).toBitVec ++ (p.mem (addr.toNat + 2)).toBitVec ++ (p.mem (addr.toNat + 1)).toBitVec ++
    (p.mem addr.toNat).toBitVec

def fetchint (p : Proc) (addr : BitVec 32) : Option (BitVec 32) :=
  if p.sz ≤ addr ∨ p.sz < addr + 4 then none else some (p.word addr)

/-- The loop of `fetchstr` over the `n` bytes from `s` to `ep`; the result is what `s` advances. -/
def fetchLoop (mem : Nat → UInt8) (s : Nat) : Nat → Option Nat
  | 0 => none
  | n + 1 => if mem s = 0 then some 0 else (fetchLoop mem (s + 1) n).map (· + 1)

/-- The length of the string; `*pp` is `addr`. -/
def fetchstr (p : Proc) (addr : BitVec 32) : Option Nat :=
  if p.sz ≤ addr then none else fetchLoop p.mem addr.toNat (p.sz.toNat - addr.toNat)

/-- Where `argint` finds argument `n`. -/
def Proc.arg (p : Proc) (n : BitVec 32) : BitVec 32 := p.esp + 4 + 4 * n

def argint (p : Proc) (n : BitVec 32) : Option (BitVec 32) := fetchint p (p.arg n)

/-- The pointer that is stored in `*pp`. -/
def argptr (p : Proc) (n size : BitVec 32) : Option (BitVec 32) := do
  let i ← argint p n
  if size.toInt < 0 ∨ p.sz ≤ i ∨ p.sz < i + size then none else some i

def argstr (p : Proc) (n : BitVec 32) : Option (BitVec 32 × Nat) := do
  let addr ← argint p n
  let length ← fetchstr p addr
  some (addr, length)

theorem fetchLoop_spec (mem : Nat → UInt8) (s n : Nat) :
    match fetchLoop mem s n with
    | none => ∀ k < n, mem (s + k) ≠ 0
    | some len => len < n ∧ mem (s + len) = 0 ∧ ∀ k < len, mem (s + k) ≠ 0 := by
  induction n generalizing s with
  | zero => exact fun k hk => absurd hk (Nat.not_lt_zero k)
  | succ n ih =>
    have hshift (k : Nat) : s + (k + 1) = s + 1 + k := by omega
    rw [fetchLoop]
    split_ifs with hs
    · exact ⟨Nat.succ_pos n, hs, nofun⟩
    · specialize ih (s + 1)
      cases hloop : fetchLoop mem (s + 1) n with
      | none =>
        rw [hloop] at ih
        refine Nat.forall_lt_succ_left.mpr ⟨hs, fun k hk => ?_⟩
        rw [hshift]
        exact ih k hk
      | some len =>
        rw [hloop] at ih
        obtain ⟨hlen, hzero, hbefore⟩ := ih
        refine ⟨Nat.succ_lt_succ hlen, by rw [hshift]; exact hzero, Nat.forall_lt_succ_left.mpr ⟨hs, fun k hk => ?_⟩⟩
        rw [hshift]
        exact hbefore k hk

section

variable {p : Proc} (hsz : p.sz.toNat < KERNBASE)

include hsz

theorem fetchint_eq_some_iff (addr i : BitVec 32) :
    fetchint p addr = some i ↔ addr.toNat + 4 ≤ p.sz.toNat ∧ p.word addr = i := by
  have hguard : ¬(p.sz ≤ addr ∨ p.sz < addr + 4) ↔ addr.toNat + 4 ≤ p.sz.toNat := by
    rw [BitVec.le_def, BitVec.lt_def, BitVec.toNat_add, show BitVec.toNat (4 : BitVec 32) = 4 from rfl]
    simp only [KERNBASE] at hsz
    omega
  unfold fetchint
  split
  next h => exact iff_of_false nofun fun h' => hguard.mpr h'.1 h
  next h => rw [Option.some.injEq, and_iff_right (hguard.mp h)]

theorem argptr_eq_some_iff (n size i : BitVec 32) :
    argptr p n size = some i ↔ ((p.arg n).toNat + 4 ≤ p.sz.toNat ∧ p.word (p.arg n) = i) ∧
      0 ≤ size.toInt ∧ i.toNat < p.sz.toNat ∧ i.toNat + size.toInt ≤ p.sz.toNat := by
  -- both summands are below `2 ^ 31`
  have hguard (j : BitVec 32) : ¬(size.toInt < 0 ∨ p.sz ≤ j ∨ p.sz < j + size) ↔
      0 ≤ size.toInt ∧ j.toNat < p.sz.toNat ∧ j.toNat + size.toInt ≤ p.sz.toNat := by
    rw [BitVec.le_def, BitVec.lt_def, BitVec.toNat_add]
    have hsize := BitVec.toInt_eq_toNat_cond size
    have hlt := size.isLt
    simp only [KERNBASE] at hsz
    split at hsize <;> omega
  unfold argptr
  rw [Option.bind_eq_bind, Option.bind_eq_some_iff]
  simp only [argint, fetchint_eq_some_iff hsz]
  constructor
  · rintro ⟨j, hj, h⟩
    split at h
    · cases h
    next hok =>
      rw [Option.some.injEq] at h
      subst h
      exact ⟨hj, (hguard _).mp hok⟩
  · rintro ⟨hi, hok⟩
    exact ⟨i, hi, if_neg ((hguard i).mpr hok)⟩

theorem argstr_eq_some_iff (n addr : BitVec 32) (len : Nat) :
    argstr p n = some (addr, len) ↔
      ((p.arg n).toNat + 4 ≤ p.sz.toNat ∧ p.word (p.arg n) = addr) ∧ fetchstr p addr = some len := by
  unfold argstr
  simp only [Option.bind_eq_bind, Option.bind_eq_some_iff, argint, fetchint_eq_some_iff hsz, Option.some.injEq,
    Prod.mk.injEq]
  constructor
  · rintro ⟨_, harg, _, hlen, rfl, rfl⟩
    exact ⟨harg, hlen⟩
  · rintro ⟨harg, hlen⟩
    exact ⟨addr, harg, len, hlen, rfl, rfl⟩

/-- The checks accept exactly the words, blocks and strings that lie below the size of the process. -/
theorem user_pointers_checked :
    (∀ n size i, argptr p n size = some i ↔ ((p.arg n).toNat + 4 ≤ p.sz.toNat ∧ p.word (p.arg n) = i) ∧
      0 ≤ size.toInt ∧ i.toNat < p.sz.toNat ∧ i.toNat + size.toInt ≤ p.sz.toNat) ∧
    (∀ addr i, fetchint p addr = some i ↔ addr.toNat + 4 ≤ p.sz.toNat ∧ p.word addr = i) ∧
    (∀ n addr len, argstr p n = some (addr, len) ↔
      ((p.arg n).toNat + 4 ≤ p.sz.toNat ∧ p.word (p.arg n) = addr) ∧ fetchstr p addr = some len) ∧
    ∀ addr, match fetchstr p addr with
      | none => ∀ a, addr.toNat ≤ a → a < p.sz.toNat → p.mem a ≠ 0
      | some len => addr.toNat + len < p.sz.toNat ∧ p.mem (addr.toNat + len) = 0 ∧
        ∀ k < len, p.mem (addr.toNat + k) ≠ 0 := by
  refine ⟨argptr_eq_some_iff hsz, fetchint_eq_some_iff hsz, argstr_eq_some_iff hsz, fun addr => ?_⟩
  have hloop := fetchLoop_spec p.mem addr.toNat (p.sz.toNat - addr.toNat)
  unfold fetchstr
  split_ifs with haddr
  · intro a ha hlt
    exact absurd (BitVec.le_def.mp haddr) (by omega)
  · cases hres : fetchLoop p.mem addr.toNat (p.sz.toNat - addr.toNat) with
    | none =>
      rw [hres] at hloop
      intro a ha hlt
      have h := hloop (a - addr.toNat) (by omega)
      rwa [Nat.add_sub_cancel' ha] at h
    | some len =>
      rw [hres] at hloop
      exact ⟨by omega, hloop.2⟩

end

theorem user_pointers_checked_page : argptr ⟨4096, 4084, fun _ => 0⟩ 1 4096 = some 0 :=
  ((user_pointers_checked (by decide)).1 1 4096 0).mpr (by decide)

end Laboratorio.Syscall
