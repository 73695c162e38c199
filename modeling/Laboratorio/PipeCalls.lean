import Laboratorio.RingBuffer
import Laboratorio.Trace
import Mathlib.Data.UInt

/-! `pipe.c` with the parts of `sleep`, `wakeup` and `kill` that it uses, for any number of processes on
one pipe. A stretch under `p->lock` is one step; it ends by releasing the lock, or at the call of `sleep`,
which still holds it. `sleep` gives the lock up and puts the process to sleep in one step under
`ptable.lock`, and a process may be killed before that. -/

namespace Laboratorio.Pipes

open Function

abbrev PIPESIZE : Nat := 512

structure Pipe where
  data : Fin PIPESIZE → UInt8
  nread : UInt32
  nwrite : UInt32
  readopen : Bool
  writeopen : Bool

namespace Pipe

/-- What `pipealloc` sets up in a page with the contents `data`. -/
def alloc (data : Fin PIPESIZE → UInt8) : Pipe where
  data := data
  nread := 0
  nwrite := 0
  readopen := true
  writeopen := true

def full (p : Pipe) : Prop := p.nwrite = p.nread + 512

def empty (p : Pipe) : Prop := p.nread = p.nwrite

instance (p : Pipe) : Decidable p.full := inferInstanceAs (Decidable (_ = _))

instance (p : Pipe) : Decidable p.empty := inferInstanceAs (Decidable (_ = _))

def put (p : Pipe) (b : UInt8) : Pipe :=
  { p with data := update p.data (Fin.ofNat PIPESIZE p.nwrite.toNat) b, nwrite := p.nwrite + 1 }

def front (p : Pipe) : UInt8 := p.data (Fin.ofNat PIPESIZE p.nread.toNat)

def advance (p : Pipe) : Pipe := { p with nread := p.nread + 1 }

/-- Store bytes until the pipe is full; the bytes that are left. -/
def writeLoop (p : Pipe) : List UInt8 → Pipe × List UInt8
  | [] => (p, [])
  | b :: rest => if p.full then (p, b :: rest) else (p.put b).writeLoop rest

/-- The copy loop of `piperead`. -/
def readLoop (p : Pipe) : Nat → Pipe × List UInt8
  | 0 => (p, [])
  | n + 1 =>
    if p.empty then (p, [])
    else ((p.advance.readLoop n).1, p.front :: (p.advance.readLoop n).2)

end Pipe

inductive Chan where
  | nread
  | nwrite
  deriving DecidableEq

/-- A call in progress: `pipewrite` of `addr` with `i` bytes stored, or `piperead` of up to `n` bytes. -/
inductive Call where
  | write (addr : List UInt8) (i : Nat)
  | read (n : Nat)
  deriving DecidableEq

def Call.chan : Call → Chan
  | .write _ _ => .nwrite
  | .read _ => .nread

inductive Pc where
  | idle
  /-- About to acquire `p->lock`, at the top of its loop. -/
  | runnable (c : Call)
  /-- In `sleep`, before `ptable.lock` is acquired. -/
  | drowsy (c : Call)
  | sleeping (c : Call)
  deriving DecidableEq

structure State (P : Type) where
  pipe : Pipe
  lock : Option P
  killed : P → Bool
  pc : P → Pc

def State.init {P : Type} (data : Fin PIPESIZE → UInt8) (killed : P → Bool) : State P where
  pipe := Pipe.alloc data
  lock := none
  killed := killed
  pc := fun _ => .idle

variable {P : Type} [DecidableEq P]

def Pc.wake (c : Chan) : Pc → Pc
  | .sleeping k => if k.chan = c then .runnable k else .sleeping k
  | pc => pc

def wakeup (c : Chan) (pc : P → Pc) : P → Pc := fun q => (pc q).wake c

/-- What a call returns, with the bytes that it copied out. -/
structure Answer where
  value : Int
  bytes : List UInt8

/-- A stretch of `pipewrite` under the lock. -/
def pipewrite (s : State P) (q : P) (addr : List UInt8) (i : Nat) : State P × Option Answer :=
  let r := s.pipe.writeLoop (addr.drop i)
  if r.2 = [] then
    ({ s with pipe := r.1, pc := update (wakeup .nread s.pc) q .idle }, some ⟨addr.length, []⟩)
  else if r.1.readopen = false ∨ s.killed q = true then
    ({ s with pipe := r.1, pc := update s.pc q .idle }, some ⟨-1, []⟩)
  else
    ({ s with
        pipe := r.1
        lock := some q
        pc := update (wakeup .nread s.pc) q (.drowsy (.write addr (addr.length - r.2.length))) },
      none)

/-- A stretch of `piperead` under the lock. -/
def piperead (s : State P) (q : P) (n : Nat) : State P × Option Answer :=
  if s.pipe.empty ∧ s.pipe.writeopen = true then
    if s.killed q = true then ({ s with pc := update s.pc q .idle }, some ⟨-1, []⟩)
    else ({ s with lock := some q, pc := update s.pc q (.drowsy (.read n)) }, none)
  else
    let r := s.pipe.readLoop n
    ({ s with pipe := r.1, pc := update (wakeup .nwrite s.pc) q .idle }, some ⟨r.2.length, r.2⟩)

def pipeclose (s : State P) (writable : Bool) : State P :=
  if writable then
    { s with pipe := { s.pipe with writeopen := false }, pc := wakeup .nread s.pc }
  else
    { s with pipe := { s.pipe with readopen := false }, pc := wakeup .nwrite s.pc }

def kill (s : State P) (q : P) : State P :=
  { s with
    killed := update s.killed q true
    pc := match s.pc q with
      | .sleeping c => update s.pc q (.runnable c)
      | _ => s.pc }

inductive Act (P : Type) where
  | write (q : P) (addr : List UInt8)
  | read (q : P) (n : Nat)
  | enter (q : P)
  | sleep (q : P)
  | close (writable : Bool)
  | kill (q : P)

/-- The stretch that process `q` runs when it gets the lock. -/
def stretch (s : State P) (q : P) : Option (State P × Option Answer) :=
  if s.lock.isSome then none
  else match s.pc q with
    | .runnable (.write addr i) => some (pipewrite s q addr i)
    | .runnable (.read n) => some (piperead s q n)
    | _ => none

/-- Start the call `c`. -/
def start (s : State P) (q : P) (c : Call) : Option (State P) :=
  if s.pc q = .idle then some { s with pc := update s.pc q (.runnable c) } else none

def step (s : State P) : Act P → Option (State P)
  | .write q addr => start s q (.write addr 0)
  | .read q n => start s q (.read n)
  | .enter q => (stretch s q).map Prod.fst
  | .sleep q =>
    match s.pc q with
    | .drowsy c => some { s with lock := none, pc := update s.pc q (.sleeping c) }
    | _ => none
  | .close writable => if s.lock.isSome then none else some (pipeclose s writable)
  | .kill q => some (kill s q)

def stored (s : State P) : Act P → List UInt8
  | .enter q =>
    match s.pc q with
    | .runnable (.write addr i) =>
      (addr.drop i).take ((addr.drop i).length - (s.pipe.writeLoop (addr.drop i)).2.length)
    | _ => []
  | _ => []

def received (s : State P) : Act P → List UInt8
  | .enter q => ((stretch s q).bind Prod.snd).elim [] Answer.bytes
  | _ => []

end Laboratorio.Pipes
