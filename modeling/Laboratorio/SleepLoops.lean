import Laboratorio.Console
import Laboratorio.PipeCalls
import Laboratorio.ProcSched

/-! The loops that test `killed` and then call `sleep`: `wait`, `sys_sleep`, `pipewrite`, `piperead` and
`consoleread`, on the processes and CPUs of `proc.c`. `wait` does both under `ptable.lock`. The others test
under a lock of their own, and `sleep` acquires `ptable.lock` after the test; a stretch under that other lock
is one step, up to the call of `sleep`, and the section of `sleep` under `ptable.lock` is another. -/

namespace Laboratorio.Waits

open Function

open Procs (Machine Slot)
open Pipes (Pipe)
open Console (Input)

/-- `tickslock`, the lock of a pipe, and `cons.lock`. -/
inductive Lock where
  | ticks
  | pipe (p : ℕ)
  | cons
  deriving DecidableEq

/-- A call in progress: `sys_sleep` with the value of `ticks` that it started from, once it is read;
`pipewrite` with `i` bytes stored; `piperead`; `consoleread`. -/
inductive Call where
  | sleep (n : UInt32) (ticks0 : Option UInt32)
  | pipewrite (p : ℕ) (addr : List UInt8) (i : ℕ)
  | piperead (p : ℕ) (n : ℕ)
  | consoleread (c : Console.Call)
  deriving DecidableEq

def Call.lock : Call → Lock
  | .sleep _ _ => .ticks
  | .pipewrite p _ _ => .pipe p
  | .piperead p _ => .pipe p
  | .consoleread _ => .cons

/-- The addresses `&ticks`, `&input.r`, `&p->nread` and `&p->nwrite`. -/
def ticksChan : Procs.Chan := .other 0
def inputChan : Procs.Chan := .other 1
def nreadChan (p : ℕ) : Procs.Chan := .other (2 * p + 2)
def nwriteChan (p : ℕ) : Procs.Chan := .other (2 * p + 3)

def Call.chan : Call → Procs.Chan
  | .sleep _ _ => ticksChan
  | .pipewrite p _ _ => nwriteChan p
  | .piperead p _ => nreadChan p
  | .consoleread _ => inputChan

/-- Where a process is in the last four loops. -/
inductive Loop where
  | out
  /-- About to acquire the lock, at the top of the loop. -/
  | top (k : Call)
  /-- In `sleep`, with the lock, before `ptable.lock` is acquired. -/
  | drowsy (k : Call)
  /-- In `sleep`, after the switch to the scheduler. -/
  | asleep (k : Call)
  deriving DecidableEq

def Loop.drowses : Loop → Bool
  | .drowsy _ => true
  | _ => false

structure State (C : Type) where
  machine : Machine C
  ticks : UInt32
  pipe : ℕ → Pipe
  input : Input
  /-- Who is in `sleep` with the lock. -/
  holder : Lock → Option Slot
  loop : Slot → Loop

/-- The kernel as it starts, with pipes that will be allocated in pages with the contents `data`. -/
def State.init (C : Type) (data : ℕ → Fin Pipes.PIPESIZE → UInt8) : State C where
  machine := Machine.boot C
  ticks := 0
  pipe := fun p => Pipe.alloc (data p)
  input := ⟨fun _ => 0, 0, 0, 0⟩
  holder := fun _ => none
  loop := fun _ => .out

/-- How a stretch ends. -/
inductive Outcome where
  | returns (value : Int)
  | sleeps (k : Call)

section Stretches

variable {C : Type} (s : State C) (q : Slot)

def State.killed : Bool := (s.machine.table.proc q).killed

def State.wakeup (c : Procs.Chan) : State C :=
  { s with machine := { s.machine with table := Procs.wakeup1 s.machine.table (some c) } }

def State.setPipe (p : ℕ) (x : Pipe) : State C := { s with pipe := update s.pipe p x }

/-- A stretch of `sys_sleep`. The comparison with `n` is one of unsigned numbers. -/
def sysSleep (n : UInt32) (ticks0 : Option UInt32) : State C × Outcome :=
  let ticks0 := ticks0.getD s.ticks
  if s.ticks - ticks0 < n then
    if s.killed q then (s, .returns (-1)) else (s, .sleeps (.sleep n (some ticks0)))
  else (s, .returns 0)

def pipewrite (p : ℕ) (addr : List UInt8) (i : ℕ) : State C × Outcome :=
  let r := (s.pipe p).writeLoop (addr.drop i)
  if r.2 = [] then ((s.setPipe p r.1).wakeup (nreadChan p), .returns addr.length)
  else if r.1.readopen = false ∨ s.killed q = true then (s.setPipe p r.1, .returns (-1))
  else
    ((s.setPipe p r.1).wakeup (nreadChan p), .sleeps (.pipewrite p addr (addr.length - r.2.length)))

def piperead (p : ℕ) (n : ℕ) : State C × Outcome :=
  if (s.pipe p).empty ∧ (s.pipe p).writeopen = true then
    if s.killed q then (s, .returns (-1)) else (s, .sleeps (.piperead p n))
  else
    let r := (s.pipe p).readLoop n
    ((s.setPipe p r.1).wakeup (nwriteChan p), .returns r.2.length)

def consoleread (c : Console.Call) : State C × Outcome :=
  let rd := s.input.readLoop c.target (c.target - c.got.length)
  let c' : Console.Call := { c with got := c.got ++ rd.bytes }
  if rd.done then ({ s with input := rd.input }, .returns c'.got.length)
  else if s.killed q then ({ s with input := rd.input }, .returns (-1))
  else ({ s with input := rd.input }, .sleeps (.consoleread c'))

def stretch : Call → State C × Outcome
  | .sleep n ticks0 => sysSleep s q n ticks0
  | .pipewrite p addr i => pipewrite s q p addr i
  | .piperead p n => piperead s q p n
  | .consoleread c => consoleread s q c

/-- The process goes on after a stretch. -/
def State.after (k : Call) : Outcome → State C
  | .returns _ => { s with loop := update s.loop q .out }
  | .sleeps k' =>
    { s with
      holder := update s.holder k.lock (some q)
      loop := update s.loop q (.drowsy k') }

end Stretches

/-- A step of the machine of `proc.c` (`wait` among them), a call of one of the other loops, a stretch of it,
the section of `sleep` that follows, `kill`, a timer or console interrupt, and `pipeclose`. -/
inductive Act (C : Type) where
  | base (a : Procs.Act C)
  | sysSleep (c : C) (n : UInt32)
  | pipewrite (c : C) (p : ℕ) (addr : List UInt8)
  | piperead (c : C) (p : ℕ) (n : ℕ)
  | consoleread (c : C) (n : ℕ)
  | enter (c : C)
  | sleep (c : C)
  | kill (c : C) (pid : Int)
  | tick
  | intr (cs : List UInt8)
  | close (p : ℕ) (writable : Bool)

section Steps

variable {C : Type} [DecidableEq C] (s : State C)

/-- The process on `c` is outside the loops and not in `fork`. -/
def free (c : C) : Prop := ∀ q ∈ s.machine.cpu c, s.loop q = .out ∧ s.machine.pc q = .user

instance (c : C) : Decidable (free s c) := inferInstanceAs (Decidable (∀ q ∈ _, _))

/-- The steps of the machine that the loops leave to it. A process in `sleep` has interrupts off, so it does
not yield. -/
def permits : Procs.Act C → Prop
  | .allocproc c | .kalloc c _ | .copyuvm c _ | .start c | .exit c | .wait c =>
    ∀ q ∈ s.machine.cpu c, s.loop q = .out
  | .yield c => ∀ q ∈ s.machine.cpu c, (s.loop q).drowses = false
  | .sleep c _ => free s c
  | .wakeup _ => True
  | .kill _ => False
  | .schedule _ _ => True

instance (a : Procs.Act C) : Decidable (permits s a) :=
  match a with
  | .allocproc _ | .kalloc _ _ | .copyuvm _ _ | .start _ | .exit _ | .wait _ | .yield _ =>
    inferInstanceAs (Decidable (∀ q ∈ _, _))
  | .sleep c _ => inferInstanceAs (Decidable (free s c))
  | .wakeup _ => isTrue trivial
  | .kill _ => isFalse id
  | .schedule _ _ => isTrue trivial

/-- A process that is scheduled leaves `sleep`, and is back at the top of its loop. -/
def Loop.resume : Loop → Loop
  | .asleep k => .top k
  | l => l

/-- The loops after a step of the machine. -/
def resumed (loop : Slot → Loop) : Procs.Act C → Slot → Loop
  | .schedule _ p => update loop p (loop p).resume
  | _ => loop

/-- The process on `c` calls one of the functions. -/
def call (c : C) (k : Call) : Option (State C) :=
  (s.machine.cpu c).bind fun q =>
    if s.loop q = .out ∧ s.machine.pc q = .user then
      some { s with loop := update s.loop q (.top k) }
    else none

def enter (c : C) : Option (State C) :=
  (s.machine.cpu c).bind fun q =>
    match s.loop q with
    | .top k =>
      if s.holder k.lock = none then some ((stretch s q k).1.after q k (stretch s q k).2) else none
    | _ => none

/-- The section of `sleep` under `ptable.lock`, which gives the other lock up. -/
def sleep (c : C) : Option (State C) :=
  (s.machine.cpu c).bind fun q =>
    match s.loop q with
    | .drowsy k =>
      (Procs.step s.machine (.sleep c (some k.chan))).map fun m =>
        { s with
          machine := m
          holder := update s.holder k.lock none
          loop := update s.loop q (.asleep k) }
    | _ => none

def consoleintr (cs : List UInt8) : State C :=
  let k := s.input.keys cs
  let s := { s with input := k.1 }
  if k.2 then s.wakeup inputChan else s

def pipeclose (p : ℕ) (writable : Bool) : State C :=
  if writable then (s.setPipe p { s.pipe p with writeopen := false }).wakeup (nreadChan p)
  else (s.setPipe p { s.pipe p with readopen := false }).wakeup (nwriteChan p)

def step : Act C → Option (State C)
  | .base a =>
    if permits s a then
      (Procs.step s.machine a).map fun m => { s with machine := m, loop := resumed s.loop a }
    else none
  | .sysSleep c n => call s c (.sleep n none)
  | .pipewrite c p addr => call s c (.pipewrite p addr 0)
  | .piperead c p n => call s c (.piperead p n)
  | .consoleread c n => call s c (.consoleread ⟨n, []⟩)
  | .enter c => enter s c
  | .sleep c => sleep s c
  | .kill c pid =>
    if (s.machine.cpu c).isSome ∧ free s c then
      (Procs.step s.machine (.kill pid)).map fun m => { s with machine := m }
    else none
  | .tick =>
    if s.holder .ticks = none then some ({ s with ticks := s.ticks + 1 }.wakeup ticksChan) else none
  | .intr cs => if s.holder .cons = none then some (consoleintr s cs) else none
  | .close p writable => if s.holder (.pipe p) = none then some (pipeclose s p writable) else none

end Steps

end Laboratorio.Waits
