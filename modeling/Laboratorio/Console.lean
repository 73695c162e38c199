import Laboratorio.RingBuffer
import Laboratorio.Trace
import Mathlib.Data.UInt

/-! The input side of `console.c`, for any number of processes in `consoleread`. A call of `consoleintr`
is one step under `cons.lock`, for all the characters that `getc` returns in it, and so is a stretch of
`consoleread`, which ends by releasing the lock or at the call of `sleep`; `sleep` gives the lock up in a
step of its own, under `ptable.lock`. What is echoed to the screen is left out. -/

namespace Laboratorio.Console

open Function

abbrev INPUT_BUF : Nat := 128

/-- `C('D')`, `C('P')`, `C('U')`, `C('H')`, delete, line feed and carriage return. -/
abbrev ctrlD : UInt8 := 4
abbrev ctrlP : UInt8 := 16
abbrev ctrlU : UInt8 := 21
abbrev ctrlH : UInt8 := 8
abbrev del : UInt8 := 127
abbrev nl : UInt8 := 10
abbrev cr : UInt8 := 13

structure Input where
  buf : Fin INPUT_BUF → UInt8
  r : UInt32
  w : UInt32
  e : UInt32

namespace Input

def char (i : Input) (k : UInt32) : UInt8 := i.buf (Fin.ofNat INPUT_BUF k.toNat)

/-- The loop of the case `C('U')`, for at most `n` turns. -/
def killLine (i : Input) : Nat → Input
  | 0 => i
  | n + 1 => if i.e ≠ i.w ∧ i.char (i.e - 1) ≠ nl then { i with e := i.e - 1 }.killLine n else i

/-- One character in `consoleintr`, and whether it calls `wakeup`. After `e - w` turns the loop that
kills the line has `e = w`. -/
def key (i : Input) (c : UInt8) : Input × Bool :=
  if c = ctrlP then (i, false)
  else if c = ctrlU then (i.killLine (i.e - i.w).toNat, false)
  else if c = ctrlH ∨ c = del then (if i.e ≠ i.w then { i with e := i.e - 1 } else i, false)
  else if c ≠ 0 ∧ i.e - i.r < 128 then
    let c := if c = cr then nl else c
    let i := { i with buf := update i.buf (Fin.ofNat INPUT_BUF i.e.toNat) c, e := i.e + 1 }
    if c = nl ∨ c = ctrlD ∨ i.e = i.r + 128 then ({ i with w := i.e }, true) else (i, false)
  else (i, false)

/-- The characters of one `consoleintr`. -/
def keys (i : Input) (cs : List UInt8) : Input × Bool :=
  cs.foldl (fun a c => ((a.1.key c).1, a.2 || (a.1.key c).2)) (i, false)

/-- What a stretch of `consoleread` does: the bytes it copies out, whether it takes a `C('D')`, and
whether the call returns after it. -/
structure Reading where
  input : Input
  bytes : List UInt8
  eof : Bool
  done : Bool

/-- The loop of `consoleread` with `n` bytes still wanted, up to the point where it finds nothing. -/
def readLoop (i : Input) (target : Nat) : Nat → Reading
  | 0 => ⟨i, [], false, true⟩
  | n + 1 =>
    if i.r = i.w then ⟨i, [], false, false⟩
    else
      let c := i.char i.r
      let j := { i with r := i.r + 1 }
      if c = ctrlD then
        if n + 1 < target then ⟨{ j with r := j.r - 1 }, [], false, true⟩ else ⟨j, [], true, true⟩
      else if c = nl then ⟨j, [c], false, true⟩
      else
        let rest := j.readLoop target n
        ⟨rest.input, c :: rest.bytes, rest.eof, rest.done⟩

end Input

/-- A call of `consoleread` for `target` bytes that has copied out `got`. -/
structure Call where
  target : Nat
  got : List UInt8
  deriving DecidableEq

inductive Pc where
  | idle
  /-- About to acquire `cons.lock`. -/
  | runnable (c : Call)
  /-- In `sleep`, before `ptable.lock` is acquired. -/
  | drowsy (c : Call)
  | sleeping (c : Call)
  deriving DecidableEq

structure State (P : Type) where
  input : Input
  lock : Option P
  killed : P → Bool
  pc : P → Pc

def State.init (P : Type) : State P where
  input := ⟨fun _ => 0, 0, 0, 0⟩
  lock := none
  killed := fun _ => false
  pc := fun _ => .idle

variable {P : Type} [DecidableEq P]

def Pc.wake : Pc → Pc
  | .sleeping c => .runnable c
  | pc => pc

def consoleintr (s : State P) (cs : List UInt8) : State P :=
  let k := s.input.keys cs
  { s with input := k.1, pc := if k.2 then fun q => (s.pc q).wake else s.pc }

/-- What a step shows to the outside: the bytes a reader gets, whether a `C('D')` was taken, and what a
call returns. -/
structure Output where
  bytes : List UInt8
  eof : Bool
  answer : Option Int

/-- A stretch of `consoleread` under the lock. A reader that finds nothing and was killed returns -1. -/
def consoleread (s : State P) (q : P) (c : Call) : State P × Output :=
  let rd := s.input.readLoop c.target (c.target - c.got.length)
  let c' : Call := { c with got := c.got ++ rd.bytes }
  if rd.done then
    ({ s with input := rd.input, pc := update s.pc q .idle },
      ⟨rd.bytes, rd.eof, some (c'.got.length : Int)⟩)
  else if s.killed q then
    ({ s with input := rd.input, pc := update s.pc q .idle }, ⟨rd.bytes, rd.eof, some (-1)⟩)
  else
    ({ s with input := rd.input, lock := some q, pc := update s.pc q (.drowsy c') },
      ⟨rd.bytes, rd.eof, none⟩)

inductive Act (P : Type) where
  | intr (cs : List UInt8)
  | read (q : P) (n : Nat)
  | enter (q : P)
  | sleep (q : P)
  | kill (q : P)
  deriving DecidableEq

/-- The stretch that process `q` runs when it gets the lock. -/
def stretch (s : State P) (q : P) : Option (State P × Output) :=
  if s.lock.isSome then none
  else match s.pc q with
    | .runnable c => some (consoleread s q c)
    | _ => none

def step (s : State P) : Act P → Option (State P)
  | .intr cs => if s.lock.isSome then none else some (consoleintr s cs)
  | .read q n =>
    if s.pc q = .idle then some { s with pc := update s.pc q (.runnable ⟨n, []⟩) } else none
  | .enter q => (stretch s q).map Prod.fst
  | .sleep q =>
    match s.pc q with
    | .drowsy c => some { s with lock := none, pc := update s.pc q (.sleeping c) }
    | _ => none
  | .kill q =>
    some { s with
      killed := update s.killed q true
      pc := update s.pc q (s.pc q).wake }

def output (s : State P) : Act P → Output
  | .enter q => (stretch s q).elim ⟨[], false, none⟩ Prod.snd
  | _ => ⟨[], false, none⟩

end Laboratorio.Console
