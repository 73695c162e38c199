import Laboratorio.LinkedQueue
import Laboratorio.Params
import Laboratorio.Trace

/-! The request queue of `ide.c`, for any processes and buffers. A section under `idelock` is one step, up to
the call of `sleep`, which still holds it and gives it up in a step of its own. The disk raises one interrupt
for each command that `idestart` gives it, some time later. The sleeplock of a buffer is taken and released,
and the buffer changed by its holder or recycled by the cache, at any time between two calls. -/

namespace Laboratorio.Ide

open Function

/-- The part of `struct buf` that the driver uses, `qnext` apart. -/
structure Buf where
  valid : Bool
  dirty : Bool
  dev : Nat
  blockno : Nat
  data : Block

/-- `(b->flags & (B_VALID|B_DIRTY)) == B_VALID`. -/
def Buf.done (b : Buf) : Bool := b.valid && !b.dirty

abbrev SECTOR_SIZE : Nat := 512

/-- What `idestart` writes to the ports 0x1f2 to 0x1f7, and to 0x1f0 for a write. -/
structure Command where
  sectors : Nat
  low : Nat
  mid : Nat
  high : Nat
  drive : Nat
  command : Nat
  data : Option Block

def Buf.command (b : Buf) : Command :=
  let sectorPerBlock := BSIZE / SECTOR_SIZE
  let sector := b.blockno * sectorPerBlock
  { sectors := sectorPerBlock
    low := sector &&& 0xff
    mid := (sector >>> 8) &&& 0xff
    high := (sector >>> 16) &&& 0xff
    drive := 0xe0 ||| ((b.dev &&& 1) <<< 4) ||| ((sector >>> 24) &&& 0x0f)
    command :=
      if b.dirty then (if sectorPerBlock = 1 then 0x30 else 0xc5) else (if sectorPerBlock = 1 then 0x20 else 0xc4)
    data := if b.dirty then some b.data else none }

inductive Panic where
  | idestart
  | incorrectBlockno
  | notLocked
  | nothingToDo
  | notDisk1
  deriving DecidableEq

inductive Pc (B : Type) where
  | idle
  /-- Past the checks, about to acquire `idelock`. -/
  | entering (b : B)
  /-- In `sleep`, before `ptable.lock` is acquired. -/
  | drowsy (b : B)
  | sleeping (b : B)
  /-- Woken, about to acquire `idelock` again. -/
  | woken (b : B)
  deriving DecidableEq

structure State (B P : Type) where
  buf : B → Buf
  /-- The process that holds the sleeplock. -/
  lock : B → Option P
  queue : LinkedQueue B
  idelock : Option P
  /-- Given to the disk, which has not raised their interrupts. -/
  commands : List Command
  havedisk1 : Bool
  pc : P → Pc B

def State.init {B : Type} (P : Type) (buf : B → Buf) (qnext : B → Option B) (havedisk1 : Bool) : State B P where
  buf := buf
  lock := fun _ => none
  queue := ⟨none, qnext⟩
  idelock := none
  commands := []
  havedisk1 := havedisk1
  pc := fun _ => .idle

section Driver

variable {B P : Type} (s : State B P)

def idestart (b : Option B) : Except Panic (State B P) :=
  match b with
  | none => .error .idestart
  | some b =>
    if FSSIZE ≤ (s.buf b).blockno then .error .incorrectBlockno
    else if 7 < BSIZE / SECTOR_SIZE then .error .idestart
    else .ok { s with commands := s.commands ++ [(s.buf b).command] }

/-- The effect of `wakeup(b)` on a process. -/
def Pc.wake [DecidableEq B] (b : B) : Pc B → Pc B
  | .sleeping c => if c = b then .woken c else .sleeping c
  | pc => pc

/-- The buffer at the end of its request; `r` is what `insl` reads, unless `idewait` reports an error. -/
def Buf.finish (b : Buf) (r : Option Block) : Buf :=
  { b with
    data := if b.dirty then b.data else r.getD b.data
    valid := true
    dirty := false }

variable [DecidableEq B] [DecidableEq P]

def ideintr (r : Option Block) : Except Panic (State B P) :=
  match s.queue.head with
  | none => .ok s
  | some b =>
    let s := { s with
      queue := s.queue.dequeue b
      buf := update s.buf b ((s.buf b).finish r)
      pc := fun p => (s.pc p).wake b }
    if s.queue.head ≠ none then idestart s s.queue.head else .ok s

def iderwCheck (p : P) (b : B) : Except Panic (State B P) :=
  if s.lock b ≠ some p then .error .notLocked
  else if (s.buf b).done then .error .nothingToDo
  else if (s.buf b).dev ≠ 0 ∧ s.havedisk1 = false then .error .notDisk1
  else .ok { s with pc := update s.pc p (.entering b) }

/-- The test of the last loop of `iderw`: return, or call `sleep` with `idelock`. -/
def iderwWait (p : P) (b : B) : State B P :=
  if (s.buf b).done then { s with pc := update s.pc p .idle }
  else { s with idelock := some p, pc := update s.pc p (.drowsy b) }

/-- `iderw` from `acquire` to its first test. No result means that the walk over the queue does not end. -/
def iderwAppend [Fintype B] (p : P) (b : B) : Option (Except Panic (State B P)) :=
  (s.queue.enqueue (Fintype.card B) b).map fun queue =>
    let s := { s with queue := queue }
    if s.queue.head = some b then (idestart s (some b)).map fun s => iderwWait s p b
    else .ok (iderwWait s p b)

end Driver

inductive Act (B P : Type) where
  | acquiresleep (p : P) (b : B)
  | releasesleep (p : P) (b : B)
  /-- The holder stores into the buffer. -/
  | modify (p : P) (b : B) (valid dirty : Bool) (data : Block)
  /-- `bget` takes the buffer for another block. -/
  | recycle (b : B) (dev blockno : Nat)
  | iderw (p : P) (b : B)
  | append (p : P)
  | sleep (p : P)
  | retest (p : P)
  /-- `kill` wakes a process. -/
  | kill (p : P)
  /-- The interrupt of a command. -/
  | intr (r : Option Block)

/-- A step; none if the kernel panics in it. -/
def step {B P : Type} [Fintype B] [DecidableEq B] [DecidableEq P] (s : State B P) : Act B P → Option (State B P)
  | .acquiresleep p b =>
    if s.pc p = .idle ∧ s.lock b = none then some { s with lock := update s.lock b (some p) } else none
  | .releasesleep p b =>
    if s.pc p = .idle ∧ s.lock b = some p then some { s with lock := update s.lock b none } else none
  | .modify p b valid dirty data =>
    if s.pc p = .idle ∧ s.lock b = some p then
      some { s with buf := update s.buf b { s.buf b with valid := valid, dirty := dirty, data := data } }
    else none
  | .recycle b dev blockno =>
    if s.lock b = none then
      some { s with
        buf := update s.buf b
          { s.buf b with valid := false, dirty := false, dev := dev, blockno := blockno } }
    else none
  | .iderw p b => if s.pc p = .idle then (iderwCheck s p b).toOption else none
  | .append p =>
    match s.pc p with
    | .entering b => if s.idelock = none then (iderwAppend s p b).bind Except.toOption else none
    | _ => none
  | .sleep p =>
    match s.pc p with
    | .drowsy b => some { s with idelock := none, pc := update s.pc p (.sleeping b) }
    | _ => none
  | .retest p =>
    match s.pc p with
    | .woken b => if s.idelock = none then some (iderwWait s p b) else none
    | _ => none
  | .kill p =>
    match s.pc p with
    | .sleeping b => some { s with pc := update s.pc p (.woken b) }
    | _ => none
  | .intr r =>
    match s.commands with
    | [] => none
    | _ :: rest =>
      if s.idelock = none then (ideintr { s with commands := rest } r).toOption else none

end Laboratorio.Ide
