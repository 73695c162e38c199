import Mathlib.Logic.Function.Basic
import Mathlib.Data.List.Rotate
import Mathlib.Tactic.Common

/-! The user-level threads of `uthreadlib.c`. The table, `last_index` and `current_thread` are the
library's own; a saved context is the number of `thread_yield` calls that the thread's function still
makes before it calls `thread_exit`. A pointer into `all_thread` is the index it points to, and
`thread_switch` changes the current thread. -/

namespace Laboratorio.Uthread

open Function

abbrev MAX_THREAD : Nat := 8

inductive ThreadState where
  | FREE
  | RUNNING
  | RUNNABLE
  deriving DecidableEq

structure Uthreads where
  state : Nat → ThreadState
  left : Nat → Nat
  lastIndex : Nat
  currentThread : Nat
  printed : List String

def zeroed : Uthreads where
  state := fun _ => .FREE
  left := fun _ => 0
  lastIndex := 0
  currentThread := 0
  printed := []

namespace Uthreads

def setState (s : Uthreads) (t : Nat) (x : ThreadState) : Uthreads :=
  { s with state := update s.state t x }

def threadInit (s : Uthreads) : Uthreads := { s with currentThread := 0 }.setState 0 .RUNNING

/-- The indices that the loop of `thread_schedule` visits, in order. -/
def scan (lastIndex : Nat) : List Nat :=
  (List.range' 1 (MAX_THREAD - 1)).map fun i => (lastIndex + i) % MAX_THREAD

section

variable (s : Uthreads)

/-- The loop: the thread it stops at, and the last one it looked at. -/
def findNext : Option Nat × Nat :=
  match (scan s.lastIndex).find? fun t => s.state t = .RUNNABLE ∧ t ≠ s.currentThread with
  | some t => (some t, t)
  | none => (none, (s.lastIndex + (MAX_THREAD - 1)) % MAX_THREAD)

def print (text : String) : Uthreads := { s with printed := s.printed ++ [text] }

/-- `thread_switch`, to a thread other than the current one. -/
def threadSwitch (next : Nat) : Uthreads := { s with currentThread := next }

def threadSchedule : Uthreads :=
  let (found, t) := s.findNext
  let s := { s with lastIndex := found.getD s.lastIndex }
  let next := if t ≥ MAX_THREAD ∧ s.state s.currentThread = .RUNNABLE then some s.currentThread
    else found
  let (s, next) := match next with
    | some t => (s, t)
    | none => (s.print "thread_schedule: no runnable threads\n", 0)
  if s.currentThread ≠ next then (s.setState next .RUNNING).threadSwitch next else s

/-- `thread_create` of a function that yields `yields` times; with no free entry the C code stores past
the end of the table. -/
def threadCreate (yields : Nat) : Option Uthreads :=
  ((List.range MAX_THREAD).find? fun t => s.state t = .FREE).map fun t =>
    { s.setState t .RUNNABLE with left := update s.left t yields }

def threadYield : Uthreads := (s.setState s.currentThread .RUNNABLE).threadSchedule

def threadExit : Uthreads := (s.setState s.currentThread .FREE).threadSchedule

/-- The current thread runs up to its next call of the library. -/
def resume : Uthreads :=
  match s.left s.currentThread with
  | 0 => s.threadExit
  | r + 1 => { s with left := update s.left s.currentThread r }.threadYield

end

/-- Run the threads until control is back in the main thread. -/
def untilMain : Nat → Uthreads → Option Uthreads
  | 0, s => if s.currentThread = 0 then some s else none
  | fuel + 1, s => if s.currentThread = 0 then some s else untilMain fuel s.resume

end Uthreads

open Uthreads

/-- `main`, with one thread for each number of yields, up to the return of its `thread_schedule`. -/
def main (fuel : Nat) (yields : List Nat) : Option Uthreads :=
  (yields.foldlM threadCreate zeroed.threadInit).bind fun s => untilMain fuel s.threadSchedule

end Laboratorio.Uthread
