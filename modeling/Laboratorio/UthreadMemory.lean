import Laboratorio.UthreadTable
import Mathlib.Data.List.FinRange
import Mathlib.Algebra.Group.Nat.Defs

/-! The thread table of `uthreadlib.c` in the memory of the process: `all_thread` is an array of
structures of a saved stack pointer, a stack and a state, and what lies behind it has the addresses of a
ninth entry. Memory is taken in words of four bytes, and every store is recorded. -/

namespace Laboratorio.Uthread

open Function

abbrev STACK_SIZE : Nat := 8192

abbrev WORDS : Nat := 1 + STACK_SIZE / 4 + 1

/-- Where the linker put `all_thread`, in words. One more entry still has 32-bit addresses. -/
structure Place where
  base : Nat
  fits : 4 * (base + (MAX_THREAD + 1) * WORDS) ≤ 2 ^ 32

namespace Place

variable (L : Place)

def sp (t : Nat) : Nat := L.base + t * WORDS

/-- `&all_thread[t].stack`, and `i` words on. -/
def stack (t i : Nat) : Nat := L.base + t * WORDS + 1 + i

def state (t : Nat) : Nat := L.base + t * WORDS + 1 + STACK_SIZE / 4

/-- The words of `all_thread[t]`. -/
def InEntry (t a : Nat) : Prop := L.sp t ≤ a ∧ a ≤ L.state t

end Place

structure Machine where
  word : Nat → UInt32
  lastIndex : Nat
  currentThread : Nat
  printed : List String
  stored : List Nat

/-- A word compared with `FREE` and `RUNNABLE`. -/
def threadState (w : UInt32) : ThreadState := if w = 0 then .FREE else if w = 2 then .RUNNABLE else .RUNNING

def ThreadState.word : ThreadState → UInt32
  | .FREE => 0
  | .RUNNING => 1
  | .RUNNABLE => 2

namespace Machine

def store (m : Machine) (a : Nat) (v : UInt32) : Machine :=
  { m with word := update m.word a v, stored := m.stored ++ [a] }

variable (L : Place)

def view (m : Machine) : Uthreads where
  state := fun t => if t < MAX_THREAD then threadState (m.word (L.state t)) else .FREE
  left := fun _ => 0
  lastIndex := m.lastIndex
  currentThread := m.currentThread
  printed := m.printed

def threadInit (m : Machine) : Machine :=
  { m with currentThread := 0 }.store (L.state 0) ThreadState.RUNNING.word

/-- The entry at which the loop of `thread_create` stops: the first free one, or the one past the end. -/
def freeEntry (m : Machine) : Nat :=
  ((List.range MAX_THREAD).find? fun t => m.word (L.state t) = 0).getD MAX_THREAD

def threadCreate (func : UInt32) (m : Machine) : Machine :=
  let t := m.freeEntry L
  let m := m.store (L.sp t) (UInt32.ofNat (4 * L.stack t 0 + STACK_SIZE))
  let m := m.store (L.sp t) (m.word (L.sp t) - 4)
  let m := m.store ((m.word (L.sp t)).toNat / 4) func
  let m := m.store (L.sp t) (m.word (L.sp t) - 32)
  m.store (L.state t) ThreadState.RUNNABLE.word

/-- `pusha` with the stack pointer at word `esp`. -/
def pusha (esp : Nat) (regs : Fin 8 → UInt32) (m : Machine) : Machine :=
  (List.finRange 8).foldl (fun m i => m.store (esp - 1 - i.val) (regs i)) m

/-- `thread_switch`: the eight registers are pushed, the stack pointer is saved in the current entry and
the next thread becomes the current one. -/
def threadSwitch (next esp : Nat) (regs : Fin 8 → UInt32) (m : Machine) : Machine :=
  let m := m.pusha esp regs
  let m := m.store (L.sp m.currentThread) (UInt32.ofNat (4 * (esp - 8)))
  { m with currentThread := next }

def threadSchedule (esp : Nat) (regs : Fin 8 → UInt32) (m : Machine) : Machine :=
  let (found, t) := (m.view L).findNext
  let m := { m with lastIndex := found.getD m.lastIndex }
  let next := if t ≥ MAX_THREAD ∧ m.word (L.state m.currentThread) = ThreadState.RUNNABLE.word
    then some m.currentThread else found
  let (m, next) := match next with
    | some t => (m, t)
    | none => ({ m with printed := m.printed ++ ["thread_schedule: no runnable threads\n"] }, 0)
  if m.currentThread ≠ next then
    (m.store (L.state next) ThreadState.RUNNING.word).threadSwitch L next esp regs
  else m

def threadYield (esp : Nat) (regs : Fin 8 → UInt32) (m : Machine) : Machine :=
  (m.store (L.state m.currentThread) ThreadState.RUNNABLE.word).threadSchedule L esp regs

def threadExit (esp : Nat) (regs : Fin 8 → UInt32) (m : Machine) : Machine :=
  (m.store (L.state m.currentThread) ThreadState.FREE.word).threadSchedule L esp regs

end Machine

/-- A call of the library by the current thread, with the stack pointer and the registers it has then. -/
inductive Call where
  | create (func : UInt32)
  | yield (esp : Nat) (regs : Fin 8 → UInt32)
  | exit (esp : Nat) (regs : Fin 8 → UInt32)

def Machine.call (L : Place) (m : Machine) : Call → Machine
  | .create func => m.threadCreate L func
  | .yield esp regs => m.threadYield L esp regs
  | .exit esp regs => m.threadExit L esp regs

/-! ### What `thread_create` stores -/

variable {L : Place} {m : Machine} {t : Nat}

theorem Place.sp_ne_state (t u : Nat) : L.sp t ≠ L.state u := by
  simp only [Place.sp, Place.state, WORDS, STACK_SIZE]
  omega

theorem Place.stack_ne_sp (t u : Nat) {i : Nat} (hi : i < STACK_SIZE / 4) : L.stack t i ≠ L.sp u := by
  simp only [Place.stack, Place.sp, WORDS, STACK_SIZE] at hi ⊢
  omega

theorem Place.stack_ne_state (t u : Nat) {i : Nat} (hi : i < STACK_SIZE / 4) : L.stack t i ≠ L.state u := by
  simp only [Place.stack, Place.state, WORDS, STACK_SIZE] at hi ⊢
  omega

theorem freeEntry_cases (L : Place) (m : Machine) :
    (m.freeEntry L < MAX_THREAD ∧ m.word (L.state (m.freeEntry L)) = 0) ∨
      (m.freeEntry L = MAX_THREAD ∧ ∀ t < MAX_THREAD, m.word (L.state t) ≠ 0) := by
  unfold Machine.freeEntry
  cases hfind : (List.range MAX_THREAD).find? fun t => m.word (L.state t) = 0 with
  | none =>
    right
    refine ⟨rfl, fun t ht => ?_⟩
    have := List.find?_eq_none.mp hfind t (List.mem_range.mpr ht)
    simpa using this
  | some t =>
    left
    obtain ⟨hzero, hmem, -⟩ := List.find?_range_eq_some.mp hfind
    exact ⟨List.mem_range.mp hmem, by simpa using hzero⟩

/-- `thread_create` as the five stores it makes: the saved stack pointer three times, the return address at
the top of the stack, and the state. -/
theorem threadCreate_eq (func : UInt32) (ht : m.freeEntry L = t) (hle : t ≤ MAX_THREAD) :
    m.threadCreate L func = ((((m.store (L.sp t) (UInt32.ofNat (4 * L.stack t 0 + STACK_SIZE))).store (L.sp t)
        (UInt32.ofNat (4 * L.stack t (STACK_SIZE / 4 - 1)))).store (L.stack t (STACK_SIZE / 4 - 1)) func).store
        (L.sp t) (UInt32.ofNat (4 * L.stack t (STACK_SIZE / 4 - 9)))).store (L.state t) 2 := by
  have hfits := L.fits
  have hpush : UInt32.ofNat (4 * L.stack t 0 + STACK_SIZE) - 4 =
      UInt32.ofNat (4 * L.stack t (STACK_SIZE / 4 - 1)) := by
    have h := UInt32.ofNat_sub (a := 4 * L.stack t 0 + STACK_SIZE) (b := 4) (by simp only [STACK_SIZE]; omega)
    rw [show 4 * L.stack t 0 + STACK_SIZE - 4 = 4 * L.stack t (STACK_SIZE / 4 - 1) by
      simp only [Place.stack, STACK_SIZE]; omega] at h
    exact h.symm
  have hregs : UInt32.ofNat (4 * L.stack t (STACK_SIZE / 4 - 1)) - 32 =
      UInt32.ofNat (4 * L.stack t (STACK_SIZE / 4 - 9)) := by
    have h := UInt32.ofNat_sub (a := 4 * L.stack t (STACK_SIZE / 4 - 1)) (b := 32) (by
      simp only [Place.stack, STACK_SIZE]; omega)
    rw [show 4 * L.stack t (STACK_SIZE / 4 - 1) - 32 = 4 * L.stack t (STACK_SIZE / 4 - 9) by
      simp only [Place.stack, STACK_SIZE]; omega] at h
    exact h.symm
  have htop : (UInt32.ofNat (4 * L.stack t (STACK_SIZE / 4 - 1))).toNat / 4 = L.stack t (STACK_SIZE / 4 - 1) := by
    rw [UInt32.toNat_ofNat_of_lt']
    · omega
    · simp only [Place.stack, WORDS, STACK_SIZE, MAX_THREAD, UInt32.size] at hfits hle ⊢
      omega
  have hother : L.sp t ≠ L.stack t (STACK_SIZE / 4 - 1) := (Place.stack_ne_sp t t (by decide)).symm
  simp only [Machine.threadCreate, ht, Machine.store, update_self, hpush, htop,
    update_of_ne hother, hregs, ThreadState.word]

section Created

variable (func : UInt32) (ht : m.freeEntry L = t) (hle : t ≤ MAX_THREAD)
include ht hle

theorem threadCreate_stored : (m.threadCreate L func).stored =
    m.stored ++ [L.sp t, L.sp t, L.stack t (STACK_SIZE / 4 - 1), L.sp t, L.state t] := by
  rw [threadCreate_eq func ht hle]
  simp [Machine.store]

theorem threadCreate_sp :
    (m.threadCreate L func).word (L.sp t) = UInt32.ofNat (4 * L.stack t (STACK_SIZE / 4 - 9)) := by
  rw [threadCreate_eq func ht hle]
  simp [Machine.store, update_of_ne (Place.sp_ne_state t t)]

theorem threadCreate_state : (m.threadCreate L func).word (L.state t) = ThreadState.RUNNABLE.word := by
  rw [threadCreate_eq func ht hle]
  simp [Machine.store, ThreadState.word]

theorem threadCreate_other {a : Nat} (h1 : a ≠ L.sp t) (h2 : a ≠ L.stack t (STACK_SIZE / 4 - 1))
    (h3 : a ≠ L.state t) : (m.threadCreate L func).word a = m.word a := by
  rw [threadCreate_eq func ht hle]
  simp only [Machine.store, update_of_ne h1, update_of_ne h2, update_of_ne h3]

end Created

/-- `thread_create` respects the table: it makes one free entry `RUNNABLE`, with the saved stack pointer in
that entry's own stack, and stores nowhere else; or no entry is free and it stores nothing. The scheduler's
variables are as before, and nothing is printed. -/
def Respects (L : Place) (m m' : Machine) : Prop :=
  ((∃ t < MAX_THREAD, m.word (L.state t) = ThreadState.FREE.word ∧
      m'.word (L.state t) = ThreadState.RUNNABLE.word ∧
      (4 * L.stack t 0 ≤ (m'.word (L.sp t)).toNat ∧ (m'.word (L.sp t)).toNat < 4 * L.stack t (STACK_SIZE / 4)) ∧
      (∃ stores, m'.stored = m.stored ++ stores ∧ ∀ a ∈ stores, L.InEntry t a) ∧
      ∀ a, ¬L.InEntry t a → m'.word a = m.word a) ∨
    ((∀ t < MAX_THREAD, m.word (L.state t) ≠ ThreadState.FREE.word) ∧ m'.word = m.word ∧ m'.stored = m.stored)) ∧
  m'.lastIndex = m.lastIndex ∧ m'.currentThread = m.currentThread ∧ m'.printed = m.printed

theorem inEntry_created (L : Place) (t : Nat) :
    L.InEntry t (L.sp t) ∧ L.InEntry t (L.stack t (STACK_SIZE / 4 - 1)) ∧ L.InEntry t (L.state t) := by
  simp only [Place.InEntry, Place.sp, Place.stack, Place.state, STACK_SIZE]
  omega

theorem respects_of_free (func : UInt32) (ht : m.freeEntry L = t) (hlt : t < MAX_THREAD)
    (hfree : m.word (L.state t) = ThreadState.FREE.word) : Respects L m (m.threadCreate L func) := by
  have hle : t ≤ MAX_THREAD := Nat.le_of_lt hlt
  obtain ⟨hsp, hstack, hstate⟩ := inEntry_created L t
  refine ⟨.inl ⟨t, hlt, hfree, threadCreate_state func ht hle, ?_, ⟨_, threadCreate_stored func ht hle, ?_⟩, ?_⟩, rfl,
    rfl, rfl⟩
  · have hfits := L.fits
    rw [threadCreate_sp func ht hle, UInt32.toNat_ofNat_of_lt']
    · simp only [Place.stack, STACK_SIZE]
      omega
    · simp only [Place.stack, WORDS, STACK_SIZE, MAX_THREAD, UInt32.size] at hfits hlt ⊢
      omega
  · simp [hsp, hstack, hstate]
  · intro a ha
    apply threadCreate_other func ht hle
    · exact fun h => ha (h ▸ hsp)
    · exact fun h => ha (h ▸ hstack)
    · exact fun h => ha (h ▸ hstate)

theorem not_respects_of_full (func : UInt32) (hnone : ∀ t < MAX_THREAD, m.word (L.state t) ≠ ThreadState.FREE.word)
    (ht : m.freeEntry L = MAX_THREAD) : ¬Respects L m (m.threadCreate L func) := by
  rintro ⟨⟨t, hlt, hfree, -⟩ | ⟨-, -, hsame⟩, -⟩
  · exact hnone t hlt hfree
  · rw [threadCreate_stored func ht (Nat.le_refl _)] at hsame
    simp at hsame

theorem respects_iff (L : Place) (m : Machine) (func : UInt32) :
    Respects L m (m.threadCreate L func) ↔ ∃ t < MAX_THREAD, m.word (L.state t) = ThreadState.FREE.word := by
  rcases freeEntry_cases L m with ⟨hlt, hfree⟩ | ⟨heq, hnone⟩
  · exact iff_of_true (respects_of_free func rfl hlt hfree) ⟨_, hlt, hfree⟩
  · refine iff_of_false (not_respects_of_full func hnone heq) ?_
    rintro ⟨t, ht, hfree⟩
    exact hnone t ht hfree

/-! ### The words of the table and the table

The calls on the words do to the table what the calls of `UthreadTable` do, as long as the contexts that
`thread_switch` pushes stay off the `state` words. -/

theorem threadState_word (x : ThreadState) : threadState x.word = x := by
  cases x <;> rfl

theorem threadState_eq_free {w : UInt32} : threadState w = .FREE ↔ w = 0 := by
  unfold threadState
  split_ifs <;> simp_all

theorem view_store_state (m : Machine) {t : Nat} (ht : t < MAX_THREAD) (x : ThreadState) :
    (m.store (L.state t) x.word).view L = (m.view L).setState t x := by
  have hstate : ((m.store (L.state t) x.word).view L).state = update (m.view L).state t x := by
    funext u
    by_cases hu : u = t
    · rw [hu, update_self]
      simp [Machine.view, Machine.store, ht, threadState_word]
    · have hne : L.state u ≠ L.state t := by
        simp only [Place.state, WORDS, STACK_SIZE]
        omega
      rw [update_of_ne hu]
      simp [Machine.view, Machine.store, update_of_ne hne]
  unfold Uthreads.setState
  rw [← hstate]
  rfl

theorem view_store (m : Machine) {a : Nat} (ha : ∀ t < MAX_THREAD, L.state t ≠ a) (v : UInt32) :
    (m.store a v).view L = m.view L := by
  have hstate : ((m.store a v).view L).state = (m.view L).state := by
    funext t
    by_cases ht : t < MAX_THREAD
    · simp [Machine.view, Machine.store, ht, update_of_ne (ha t ht)]
    · simp [Machine.view, ht]
  change { (m.view L) with state := ((m.store a v).view L).state } = m.view L
  rw [hstate]

/-- The context pushed at word `esp` stays off the `state` words. -/
def ClearOf (L : Place) (esp : Nat) : Prop := ∀ t < MAX_THREAD, ∀ i < 8, L.state t ≠ esp - 1 - i

theorem view_pusha {esp : Nat} (hesp : ClearOf L esp) (regs : Fin 8 → UInt32) (m : Machine) :
    (m.pusha esp regs).view L = m.view L := by
  unfold Machine.pusha
  generalize List.finRange 8 = is
  induction is generalizing m with
  | nil => rfl
  | cons i is ih =>
    rw [List.foldl_cons, ih]
    exact view_store m (fun t ht => hesp t ht i.val i.isLt) _

theorem view_switch {next esp : Nat} (hesp : ClearOf L esp) (regs : Fin 8 → UInt32) (m : Machine) :
    (m.threadSwitch L next esp regs).view L = (m.view L).threadSwitch next := by
  have hsp : ∀ t < MAX_THREAD, L.state t ≠ L.sp (m.pusha esp regs).currentThread :=
    fun t _ => (Place.sp_ne_state _ t).symm
  calc (m.threadSwitch L next esp regs).view L
      = (((m.pusha esp regs).store (L.sp (m.pusha esp regs).currentThread)
          (UInt32.ofNat (4 * (esp - 8)))).view L).threadSwitch next := rfl
    _ = ((m.pusha esp regs).view L).threadSwitch next := by rw [view_store _ hsp]
    _ = (m.view L).threadSwitch next := by rw [view_pusha hesp]

/-- What the loop of `thread_schedule` found, and the last entry it looked at, are entries of the table. -/
theorem findNext_lt (s : Uthreads) : (∀ t, s.findNext.1 = some t → t < MAX_THREAD) ∧ s.findNext.2 < MAX_THREAD := by
  unfold Uthreads.findNext
  split
  · next t hfind =>
      obtain ⟨i, -, rfl⟩ := List.mem_map.mp (List.mem_of_find?_eq_some hfind)
      have hlt := Nat.mod_lt (s.lastIndex + i) (show MAX_THREAD > 0 by decide)
      refine ⟨fun t ht => ?_, hlt⟩
      cases ht
      exact hlt
  · refine ⟨fun t ht => ?_, Nat.mod_lt _ (by decide)⟩
    cases ht

/-- The end of `thread_schedule`: the switch to `next`, unless it is the current thread. -/
theorem view_dispatch {esp next : Nat} (hesp : ClearOf L esp) (regs : Fin 8 → UInt32) (hnext : next < MAX_THREAD)
    (m : Machine) : (if m.currentThread ≠ next then
        (m.store (L.state next) ThreadState.RUNNING.word).threadSwitch L next esp regs else m).view L =
      if (m.view L).currentThread ≠ next then ((m.view L).setState next .RUNNING).threadSwitch next else m.view L := by
  change _ = if m.currentThread ≠ next then _ else _
  by_cases hc : m.currentThread ≠ next
  · rw [if_pos hc, if_pos hc, view_switch hesp, view_store_state m hnext]
  · rw [if_neg hc, if_neg hc]

section

variable {esp : Nat} (hesp : ClearOf L esp) (regs : Fin 8 → UInt32)

include hesp

theorem view_schedule (m : Machine) :
    (m.threadSchedule L esp regs).view L = (m.view L).threadSchedule := by
  obtain ⟨hfound, hlast⟩ := findNext_lt (m.view L)
  have hmain : 0 < MAX_THREAD := by decide
  unfold Machine.threadSchedule Uthreads.threadSchedule
  generalize (m.view L).findNext = result at hfound hlast ⊢
  obtain ⟨found, t⟩ := result
  have hin : ¬t ≥ MAX_THREAD := not_le.mpr hlast
  simp only [hin, false_and, if_false]
  cases found with
  | some u => exact view_dispatch hesp regs (hfound u rfl) { m with lastIndex := u }
  | none =>
    exact view_dispatch hesp regs hmain { m with
      printed := m.printed ++ ["thread_schedule: no runnable threads\n"] }

theorem view_yield (hcur : m.currentThread < MAX_THREAD) :
    (m.threadYield L esp regs).view L = (m.view L).threadYield := by
  rw [Machine.threadYield, view_schedule hesp, view_store_state m hcur]
  rfl

theorem view_exit (hcur : m.currentThread < MAX_THREAD) : (m.threadExit L esp regs).view L = (m.view L).threadExit := by
  rw [Machine.threadExit, view_schedule hesp, view_store_state m hcur]
  rfl

end

theorem view_create (func : UInt32) (hlt : m.freeEntry L < MAX_THREAD) :
    (m.view L).threadCreate 0 = some ((m.threadCreate L func).view L) := by
  have hfree : ∀ t < MAX_THREAD, (m.view L).state t = .FREE ↔ m.word (L.state t) = 0 := by
    intro t ht
    simp only [Machine.view, if_pos ht, threadState_eq_free]
  have hfind : (List.range MAX_THREAD).find? (fun t => (m.view L).state t = .FREE) = some (m.freeEntry L) := by
    unfold Machine.freeEntry at hlt ⊢
    cases hf : (List.range MAX_THREAD).find? fun t => m.word (L.state t) = 0 with
    | none =>
      rw [hf] at hlt
      exact absurd hlt (Nat.lt_irrefl _)
    | some t =>
      obtain ⟨hzero, hmem, hbefore⟩ := List.find?_range_eq_some.mp hf
      have ht := List.mem_range.mp hmem
      refine List.find?_range_eq_some.mpr ⟨by simpa [hfree t ht] using hzero, hmem, fun j hj => ?_⟩
      have hjt : j < t := hj
      simpa [hfree j (hjt.trans ht)] using hbefore j hj
  have hsp : ∀ t < MAX_THREAD, L.state t ≠ L.sp (m.freeEntry L) := fun t _ => (Place.sp_ne_state _ t).symm
  have hstack : ∀ t < MAX_THREAD, L.state t ≠ L.stack (m.freeEntry L) (STACK_SIZE / 4 - 1) :=
    fun t _ => (Place.stack_ne_state _ t (by decide)).symm
  have hstate := view_store_state (L := L) (((((m.store (L.sp (m.freeEntry L))
    (UInt32.ofNat (4 * L.stack (m.freeEntry L) 0 + STACK_SIZE))).store (L.sp (m.freeEntry L))
    (UInt32.ofNat (4 * L.stack (m.freeEntry L) (STACK_SIZE / 4 - 1)))).store
    (L.stack (m.freeEntry L) (STACK_SIZE / 4 - 1)) func).store
    (L.sp (m.freeEntry L)) (UInt32.ofNat (4 * L.stack (m.freeEntry L) (STACK_SIZE / 4 - 9))))) hlt .RUNNABLE
  rw [Uthreads.threadCreate, hfind, threadCreate_eq func rfl (Nat.le_of_lt hlt)]
  rw [view_store _ hsp, view_store _ hstack, view_store _ hsp, view_store _ hsp] at hstate
  rw [show (2 : UInt32) = ThreadState.RUNNABLE.word from rfl, hstate]
  rw [Option.map_some]
  congr 1
  change { (m.view L).setState (m.freeEntry L) .RUNNABLE with
    left := update (fun _ => 0) (m.freeEntry L) 0 } = _
  rw [update_eq_self]
  rfl

/-! ### Whole runs -/

/-- The machine before call number `k` of a run. -/
def before (L : Place) (m : Machine) (calls : List Call) (k : Nat) : Machine :=
  (calls.take k).foldl (Machine.call L) m

/-- Every `thread_create` of a run of calls, from any memory, respects the table exactly when each of them
finds a free entry. -/
theorem creates_respect_iff (L : Place) (m : Machine) (calls : List Call) :
    (∀ k func, calls[k]? = some (.create func) →
      Respects L (before L m calls k) (before L m calls (k + 1))) ↔
    ∀ k func, calls[k]? = some (.create func) →
      ∃ t < MAX_THREAD, (before L m calls k).word (L.state t) = ThreadState.FREE.word := by
  have hstep : ∀ k func, calls[k]? = some (.create func) →
      before L m calls (k + 1) = (before L m calls k).threadCreate L func := by
    intro k func hk
    obtain ⟨hlt, hget⟩ := List.getElem?_eq_some_iff.mp hk
    rw [before, ← List.take_append_getElem hlt, List.foldl_append, hget]
    rfl
  constructor
  · intro h k func hk
    have hr := h k func hk
    rw [hstep k func hk] at hr
    exact (respects_iff L _ func).mp hr
  · intro h k func hk
    rw [hstep k func hk]
    exact (respects_iff L _ func).mpr (h k func hk)

/-- A process whose memory is zero, with `all_thread` at address 0, after `thread_init`. -/
def started : Machine :=
  Machine.threadInit ⟨0, by decide⟩ {
    word := fun _ => 0, lastIndex := 0, currentThread := 0, printed := [], stored := [] }

/-- Eight calls of `thread_create`: the table has seven entries for them. -/
def eightCreates : List Call := List.replicate 8 (.create 0)

/-- The eighth `thread_create` stores behind the table. -/
theorem eighth_create_leaves_table :
    eightCreates[7]? = some (.create 0) ∧
      (before ⟨0, by decide⟩ started eightCreates 8).stored.getLast? = some (8 * WORDS + 1 + STACK_SIZE / 4) ∧
      ¬Respects ⟨0, by decide⟩ (before ⟨0, by decide⟩ started eightCreates 7)
        (before ⟨0, by decide⟩ started eightCreates 8) := by
  refine ⟨rfl, by decide +kernel, ?_⟩
  have hfull : ∀ t < MAX_THREAD, (before ⟨0, by decide⟩ started eightCreates 7).word (Place.state ⟨0, by decide⟩ t) ≠
      ThreadState.FREE.word := by decide +kernel
  have hentry : (before ⟨0, by decide⟩ started eightCreates 7).freeEntry ⟨0, by decide⟩ = MAX_THREAD := by
    decide +kernel
  exact not_respects_of_full 0 hfull hentry

/-! ### Runs on the table -/

/-- A call on the table; none where `thread_create` has no free entry. -/
def Uthreads.call (s : Uthreads) : Call → Option Uthreads
  | .create _ => s.threadCreate 0
  | .yield _ _ => some s.threadYield
  | .exit _ _ => some s.threadExit

def Call.Clear (L : Place) : Call → Prop
  | .create _ => True
  | .yield esp _ => ClearOf L esp
  | .exit esp _ => ClearOf L esp

theorem threadSchedule_lt {s : Uthreads} (hcur : s.currentThread < MAX_THREAD) :
    s.threadSchedule.currentThread < MAX_THREAD := by
  obtain ⟨hfound, hlast⟩ := findNext_lt s
  unfold Uthreads.threadSchedule
  generalize s.findNext = result at hfound hlast ⊢
  obtain ⟨found, t⟩ := result
  have hin : ¬t ≥ MAX_THREAD := not_le.mpr hlast
  simp only [hin, false_and, if_false]
  cases found with
  | some u =>
    split_ifs
    · exact hfound u rfl
    · exact hcur
  | none =>
    split_ifs
    · exact Nat.zero_lt_succ 7
    · exact hcur

theorem view_call {c : Call} {s : Uthreads} (hcur : m.currentThread < MAX_THREAD) (hclear : c.Clear L)
    (hcall : (m.view L).call c = some s) : (m.call L c).view L = s ∧ s.currentThread < MAX_THREAD := by
  cases c with
  | create func =>
    obtain ⟨t, hfind, hs⟩ := Option.map_eq_some_iff.mp hcall
    have hlt : m.freeEntry L < MAX_THREAD := by
      rcases freeEntry_cases L m with ⟨hlt, -⟩ | ⟨-, hnone⟩
      · exact hlt
      obtain ⟨hfree, hmem, -⟩ := List.find?_range_eq_some.mp hfind
      have ht := List.mem_range.mp hmem
      simp only [Machine.view, if_pos ht, threadState_eq_free, decide_eq_true_eq] at hfree
      exact absurd hfree (hnone t ht)
    refine ⟨Option.some.inj ((view_create func hlt).symm.trans hcall), ?_⟩
    rw [← hs]
    exact hcur
  | yield esp regs =>
    cases hcall
    exact ⟨view_yield hclear regs hcur, threadSchedule_lt hcur⟩
  | exit esp regs =>
    cases hcall
    exact ⟨view_exit hclear regs hcur, threadSchedule_lt hcur⟩

/-- Wherever the calls on the table have a meaning, those on the words of memory do the same to it, as long as no
context is pushed over a `state` word. -/
theorem memory_refines_table (L : Place) (m : Machine) (hcur : m.currentThread < MAX_THREAD) (calls : List Call)
    (hclear : ∀ c ∈ calls, c.Clear L) {s : Uthreads} (hrun : calls.foldlM Uthreads.call (m.view L) = some s) :
    (calls.foldl (Machine.call L) m).view L = s := by
  induction calls generalizing m with
  | nil => exact Option.some.inj hrun
  | cons c calls ih =>
    rw [List.foldlM_cons] at hrun
    obtain ⟨s₁, hcall, hrest⟩ := Option.bind_eq_some_iff.mp hrun
    obtain ⟨rfl, hcur₁⟩ := view_call hcur (hclear c List.mem_cons_self) hcall
    exact ih (m.call L c) hcur₁ (fun c' hc => hclear c' (List.mem_cons_of_mem c hc)) hrest

/-- A thread is made, and main yields to it. -/
theorem memory_refines_table_yield :
    (([.create 0, .yield 100 fun _ => 0] : List Call).foldl (Machine.call ⟨0, by decide⟩) started).view ⟨0, by decide⟩ =
    (((started.view ⟨0, by decide⟩).threadCreate 0).getD zeroed).threadYield := by
  refine memory_refines_table _ started (by decide) _ (fun c hc => ?_) rfl
  rcases List.mem_pair.mp hc with rfl | rfl
  · trivial
  · show ∀ t < MAX_THREAD, _
    decide

end Laboratorio.Uthread
