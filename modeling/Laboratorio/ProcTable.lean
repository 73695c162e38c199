import Laboratorio.RunPrefix
import Mathlib.Data.Fintype.Card
import Mathlib.Logic.Function.Basic
import Mathlib.Tactic.Common
import Mathlib.Algebra.GroupWithZero.Nat
import Mathlib.Algebra.Group.Int.Defs

/-! The process table of `proc.c` and what its functions do to it under `ptable.lock`. A pointer into the
table is the number of a slot. Of `struct proc` the fields are those that `fork`, `exit`, `wait`, `kill`,
`sleep`, `wakeup` and the scheduler use; a kernel stack is there or not. -/

namespace Laboratorio.Procs

open Function

abbrev NPROC : Nat := 64

abbrev Slot := Fin NPROC

inductive ProcState where
  | unused
  | embryo
  | sleeping
  | runnable
  | running
  | zombie
  deriving DecidableEq

/-- What a process may sleep on: a process, in `wait`, or anything else. -/
inductive Chan where
  | proc (k : Slot)
  | other (addr : Nat)
  deriving DecidableEq

structure Proc where
  state : ProcState
  pid : Int
  parent : Option Slot
  chan : Option Chan
  killed : Bool
  kstack : Bool
  deriving DecidableEq

/-- The slots of `ptable.proc` as the kernel starts. -/
def Proc.zero : Proc where
  state := .unused
  pid := 0
  parent := none
  chan := none
  killed := false
  kstack := false

structure Table where
  proc : Slot → Proc
  nextpid : Int

abbrev INITPROC : Slot := 0

/-- The slot with a number. -/
def slot (k : Nat) : Slot := Fin.ofNat NPROC k

def Table.boot : Table where
  proc := update (fun _ => Proc.zero) INITPROC
    { Proc.zero with state := .runnable, pid := 1, kstack := true }
  nextpid := 2

theorem Table.boot_of_ne {k : Slot} (hk : k ≠ INITPROC) : Table.boot.proc k = Proc.zero := by
  rw [Table.boot]
  dsimp only
  rw [update_of_ne hk]

def ProcState.alive : ProcState → Bool
  | .sleeping | .runnable | .running => true
  | _ => false

def Table.set (s : Table) (k : Slot) (p : Proc) : Table := { s with proc := update s.proc k p }

theorem Table.set_self (s : Table) (k : Slot) (p : Proc) : (s.set k p).proc k = p := update_self _ _ _

theorem Table.set_other (s : Table) {k l : Slot} (p : Proc) (h : l ≠ k) : (s.set k p).proc l = s.proc l :=
  update_of_ne h _ _

/-- A slot filled with a process under a new pid. -/
def Table.alloc (s : Table) (k : Slot) (p : Proc) : Table :=
  { s.set k p with nextpid := s.nextpid + 1 }

theorem Table.alloc_self (s : Table) (k : Slot) (p : Proc) : (s.alloc k p).proc k = p := s.set_self k p

theorem Table.alloc_other (s : Table) {k l : Slot} (p : Proc) (h : l ≠ k) : (s.alloc k p).proc l = s.proc l :=
  s.set_other p h

theorem Table.alloc_set (s : Table) (k : Slot) (p q : Proc) : (s.alloc k p).set k q = s.alloc k q := by
  unfold Table.alloc Table.set
  rw [update_idem]

def Table.setState (s : Table) (k : Slot) (st : ProcState) : Table := s.set k { s.proc k with state := st }

section Functions

variable (s : Table)

/-- The locked part of `allocproc`: the slot, if there is one. Past the range of `int` the increment of
`nextpid` has no meaning, and there is no result. -/
def allocproc : Option (Option Slot × Table) :=
  match (List.finRange NPROC).find? fun k => (s.proc k).state = .unused with
  | none => some (none, s)
  | some k =>
    if s.nextpid < 2 ^ 31 then
      some (some k, s.alloc k { s.proc k with state := .embryo, pid := s.nextpid })
    else none

def wakeup1 (c : Option Chan) : Table :=
  { s with proc := fun k =>
      if (s.proc k).state = .sleeping ∧ (s.proc k).chan = c then { s.proc k with state := .runnable }
      else s.proc k }

def kill (pid : Int) : Int × Table :=
  match (List.finRange NPROC).find? fun k => (s.proc k).pid = pid with
  | none => (-1, s)
  | some k =>
    (0, s.set k { s.proc k with
      killed := true
      state := if (s.proc k).state = .sleeping then .runnable else (s.proc k).state })

/-- One turn of the loop of `exit` over the table. -/
def passChild (cur : Slot) (s : Table) (k : Slot) : Table :=
  if (s.proc k).parent = some cur then
    let s := s.set k { s.proc k with parent := some INITPROC }
    if (s.proc k).state = .zombie then wakeup1 s (some (.proc INITPROC)) else s
  else s

def passChildren (cur : Slot) : Table := (List.finRange NPROC).foldl (passChild cur) s

/-- The locked part of `exit`, up to `sched`. -/
def exit (cur : Slot) : Table :=
  (passChildren (wakeup1 s ((s.proc cur).parent.map .proc)) cur).setState cur .zombie

/-- What `wait` does to a child that it found. -/
def reap (k : Slot) : Table :=
  s.set k { s.proc k with state := .unused, pid := 0, parent := none, killed := false, kstack := false }

/-- The first child in the table that has exited. -/
def zombieChild (cur : Slot) : Option Slot :=
  (List.finRange NPROC).find? fun k => (s.proc k).parent = some cur ∧ (s.proc k).state = .zombie

/-- `havekids`, if no child has exited. -/
def haveKids (cur : Slot) : Bool := (List.finRange NPROC).any fun k => (s.proc k).parent = some cur

def pscnt : Nat := ((List.finRange NPROC).filter fun k => (s.proc k).state ≠ .unused).length

end Functions

/-! ### Wakeups -/

def Woken (p p' : Proc) : Prop := p' = p ∨ p.state = .sleeping ∧ p' = { p with state := .runnable }

namespace Woken

variable {p p' p'' : Proc}

theorem refl (p : Proc) : Woken p p := Or.inl rfl

theorem trans (h : Woken p p') (h' : Woken p' p'') : Woken p p'' := by
  rcases h with rfl | ⟨hsleep, rfl⟩
  · exact h'
  · rcases h' with rfl | ⟨hagain, -⟩
    · exact Or.inr ⟨hsleep, rfl⟩
    · cases hagain

theorem pid (h : Woken p p') : p'.pid = p.pid := by
  rcases h with rfl | ⟨-, rfl⟩ <;> rfl

theorem parent (h : Woken p p') : p'.parent = p.parent := by
  rcases h with rfl | ⟨-, rfl⟩ <;> rfl

theorem killed (h : Woken p p') : p'.killed = p.killed := by
  rcases h with rfl | ⟨-, rfl⟩ <;> rfl

theorem state_iff (h : Woken p p') {st : ProcState} (hsleep : st ≠ .sleeping) (hrun : st ≠ .runnable) :
    p'.state = st ↔ p.state = st := by
  rcases h with rfl | ⟨hp, rfl⟩
  · exact Iff.rfl
  · rw [hp]
    exact ⟨fun heq => absurd heq.symm hrun, fun heq => absurd heq.symm hsleep⟩

theorem alive (h : Woken p p') : p'.state.alive = p.state.alive := by
  rcases h with rfl | ⟨hp, rfl⟩
  · rfl
  · rw [hp]
    rfl

end Woken

theorem wakeup1_woken (s : Table) (c : Option Chan) (k : Slot) : Woken (s.proc k) ((wakeup1 s c).proc k) := by
  unfold wakeup1
  dsimp only
  split
  · rename_i hsleep
    exact Or.inr ⟨hsleep.1, rfl⟩
  · exact Woken.refl _

theorem wakeup1_if_woken (s : Table) (b : Prop) [Decidable b] (c : Option Chan) (k : Slot) :
    Woken (s.proc k) ((if b then wakeup1 s c else s).proc k) := by
  split
  · exact wakeup1_woken s c k
  · exact Woken.refl _

/-! ### Children of a process that exits -/

/-- The parent of a process after `cur` has exited. -/
def adopt (cur : Slot) (p : Proc) : Proc :=
  if p.parent = some cur then { p with parent := some INITPROC } else p

variable {cur : Slot}

theorem adopt_woken {p p' : Proc} (h : Woken p p') : Woken (adopt cur p) (adopt cur p') := by
  unfold adopt
  rw [h.parent]
  split
  · rcases h with rfl | ⟨hsleep, rfl⟩
    · exact Woken.refl _
    · exact Or.inr ⟨hsleep, rfl⟩
  · exact h

theorem passChild_self (cur : Slot) (s : Table) (k : Slot) :
    Woken (adopt cur (s.proc k)) ((passChild cur s k).proc k) := by
  unfold passChild adopt
  by_cases hparent : (s.proc k).parent = some cur
  · rw [if_pos hparent, if_pos hparent]
    have hset : (s.set k { s.proc k with parent := some INITPROC }).proc k =
        { s.proc k with parent := some INITPROC } := update_self _ _ _
    nth_rewrite 1 [← hset]
    exact wakeup1_if_woken _ _ _ k
  · rw [if_neg hparent, if_neg hparent]
    exact Woken.refl _

theorem passChild_other (cur : Slot) (s : Table) {k l : Slot} (h : l ≠ k) :
    Woken (s.proc l) ((passChild cur s k).proc l) := by
  unfold passChild
  split
  · have hset : (s.set k { s.proc k with parent := some INITPROC }).proc l = s.proc l :=
      update_of_ne h _ _
    nth_rewrite 1 [← hset]
    exact wakeup1_if_woken _ _ _ l
  · exact Woken.refl _

theorem foldl_passChild (cur : Slot) (l : List Slot) (hl : l.Nodup) (s : Table) (k : Slot) :
    (k ∈ l → Woken (adopt cur (s.proc k)) ((l.foldl (passChild cur) s).proc k)) ∧
      (k ∉ l → Woken (s.proc k) ((l.foldl (passChild cur) s).proc k)) := by
  induction l generalizing s with
  | nil => exact ⟨nofun, fun _ => Woken.refl _⟩
  | cons a l ih =>
    obtain ⟨ha, hl⟩ := List.nodup_cons.mp hl
    obtain ⟨hin, hout⟩ := ih hl (passChild cur s a)
    rw [List.foldl_cons]
    refine ⟨fun hk => ?_, fun hk => ?_⟩
    · by_cases hka : k = a
      · subst hka
        exact (passChild_self cur s k).trans (hout ha)
      · have hmem : k ∈ l := (List.mem_cons.mp hk).resolve_left hka
        exact (adopt_woken (passChild_other cur s hka)).trans (hin hmem)
    · obtain ⟨hka, hmem⟩ := not_or.mp (List.mem_cons.not.mp hk)
      exact (passChild_other cur s hka).trans (hout hmem)

theorem foldl_passChild_nextpid (cur : Slot) (l : List Slot) (s : Table) :
    (l.foldl (passChild cur) s).nextpid = s.nextpid := by
  induction l generalizing s with
  | nil => rfl
  | cons a l ih =>
    rw [List.foldl_cons, ih]
    unfold passChild
    split
    · dsimp only
      split <;> rfl
    · rfl

theorem passChildren_woken (s : Table) (cur k : Slot) :
    Woken (adopt cur (s.proc k)) ((passChildren s cur).proc k) := by
  rw [passChildren]
  exact (foldl_passChild cur _ (List.nodup_finRange NPROC) s k).1 (List.mem_finRange k)

theorem exit_woken (s : Table) (cur k : Slot) :
    Woken (adopt cur (s.proc k)) ((passChildren (wakeup1 s ((s.proc cur).parent.map .proc)) cur).proc k) :=
  (adopt_woken (wakeup1_woken s _ k)).trans (passChildren_woken _ cur k)

theorem exit_other (s : Table) {k : Slot} (h : k ≠ cur) :
    Woken (adopt cur (s.proc k)) ((exit s cur).proc k) := by
  rw [exit, Table.setState, Table.set]
  dsimp only
  rw [update_of_ne h]
  exact exit_woken s cur k

theorem exit_self (s : Table) (cur : Slot) :
    ∃ p, Woken (adopt cur (s.proc cur)) p ∧ (exit s cur).proc cur = { p with state := .zombie } := by
  refine ⟨_, exit_woken s cur cur, ?_⟩
  rw [exit, Table.setState, Table.set]
  dsimp only
  rw [update_self]

theorem exit_nextpid (s : Table) (cur : Slot) : (exit s cur).nextpid = s.nextpid := by
  rw [exit, Table.setState, Table.set]
  rw [passChildren, foldl_passChild_nextpid]
  rfl

/-! ### Searches -/

theorem allocproc_cases {s s' : Table} {found : Option Slot} (h : allocproc s = some (found, s')) :
    (found = none ∧ s' = s) ∨ ∃ k, found = some k ∧ (s.proc k).state = .unused ∧ s.nextpid < 2 ^ 31 ∧
      s' = s.alloc k { s.proc k with state := .embryo, pid := s.nextpid } := by
  unfold allocproc at h
  split at h
  · cases h
    exact Or.inl ⟨rfl, rfl⟩
  · rename_i k hfind
    split at h
    · rename_i hrange
      cases h
      have hfound := List.find?_some hfind
      exact Or.inr ⟨k, rfl, of_decide_eq_true hfound, hrange, rfl⟩
    · cases h

theorem zombieChild_some {s : Table} {k : Slot} (h : zombieChild s cur = some k) :
    (s.proc k).parent = some cur ∧ (s.proc k).state = .zombie := by
  have hfound := List.find?_some h
  exact of_decide_eq_true hfound

theorem haveKids_eq_false {s : Table} (h : haveKids s cur = false) (k : Slot) :
    (s.proc k).parent ≠ some cur := by
  have hk := List.any_eq_false.mp h k (List.mem_finRange k)
  exact fun hparent => hk (decide_eq_true hparent)

end Laboratorio.Procs
