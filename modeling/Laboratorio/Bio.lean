import Laboratorio.LinkedRing
import Laboratorio.LogGroup
import Laboratorio.ProcTable

/-! `bio.c`, `iderw` of `memide.c` and `log_write`: the buffer cache with its list of buffers, the disk in
memory, and processes that run their calls at once. A section of `bread` or `brelse` that holds
`bcache.lock`, and one that needs the lock of the buffer, is a step of its own. What the rest of `log.c` does
to the log between two calls of `log_write` is left open. -/

namespace Laboratorio.Bio

open Function

open Xv6Log

abbrev NBUF : Nat := MAXOPBLOCKS * 3

abbrev ROOTDEV : Nat := 1

/-- `struct buf`, with the two flags `B_VALID` and `B_DIRTY` and the process that holds the sleeplock. -/
structure Buf (P : Type) where
  valid : Bool
  dirty : Bool
  dev : Nat
  blockno : Nat
  lock : Option P
  refcnt : UInt32
  data : Block

inductive Panic where
  | noBuffers
  | bwrite
  | brelse
  | notLocked
  | nothingToDo
  | notDisk1
  | outOfRange
  | tooBig
  | outsideOfTrans
  deriving DecidableEq

/-- The fields of `struct log` that `log_write` uses. -/
structure LogState where
  lh : LogHeader
  size : Int
  outstanding : Int

/-- Where a process stands between two steps of a call. -/
inductive Pc where
  | idle
  /-- `bread`: in `acquiresleep`. -/
  | waiting (blockno : Nat) (b : Fin NBUF)
  /-- `bread`: past `bget`. -/
  | reading (blockno : Nat) (b : Fin NBUF)
  /-- `brelse`: past `releasesleep`. -/
  | releasing (b : Fin NBUF)
  deriving DecidableEq

structure Kernel (P : Type) where
  buf : Fin NBUF → Buf P
  links : Links (Fin NBUF)
  memdisk : Disk
  disksize : Nat
  log : LogState
  pc : P → Pc

/-- `binit`. The fields of a buffer are set before they are read. -/
def binit : Links (Fin NBUF) :=
  (List.finRange NBUF).foldl Links.insert { next := fun _ => none, prev := fun _ => none }

namespace Kernel

variable {P : Type} [DecidableEq P]

section

variable (k : Kernel P)

def set (b : Fin NBUF) (e : Buf P) : Kernel P := { k with buf := update k.buf b e }

def goto (p : P) (pc : Pc) : Kernel P := { k with pc := update k.pc p pc }

/-- `bget`, up to `acquiresleep`. The list has `NBUF` buffers. -/
def bget (dev blockno : Nat) : Except Panic (Fin NBUF × Kernel P) :=
  match Links.find k.links.next (fun b => (k.buf b).dev = dev ∧ (k.buf b).blockno = blockno) (NBUF + 1)
      (k.links.next none) with
  | some b => .ok (b, k.set b { k.buf b with refcnt := (k.buf b).refcnt + 1 })
  | none =>
    match Links.find k.links.prev (fun b => (k.buf b).refcnt = 0 ∧ (k.buf b).dirty = false) (NBUF + 1)
        (k.links.prev none) with
    | some b =>
      .ok (b, k.set b { k.buf b with dev := dev, blockno := blockno, valid := false, dirty := false, refcnt := 1 })
    | none => .error .noBuffers

def iderw (p : P) (b : Fin NBUF) : Except Panic (Kernel P) :=
  if (k.buf b).lock ≠ some p then .error .notLocked
  else if (k.buf b).valid = true ∧ (k.buf b).dirty = false then .error .nothingToDo
  else if (k.buf b).dev ≠ 1 then .error .notDisk1
  else if k.disksize ≤ (k.buf b).blockno then .error .outOfRange
  else if (k.buf b).dirty = true then
    .ok { k.set b { k.buf b with dirty := false, valid := true } with
      memdisk := update k.memdisk (k.buf b).blockno (k.buf b).data }
  else .ok (k.set b { k.buf b with data := k.memdisk (k.buf b).blockno, valid := true })

/-- `bread`, past `bget`. -/
def breadRest (p : P) (b : Fin NBUF) : Except Panic (Kernel P) :=
  if (k.buf b).valid = false then k.iderw p b else .ok k

def bwrite (p : P) (b : Fin NBUF) : Except Panic (Kernel P) :=
  if (k.buf b).lock ≠ some p then .error .bwrite
  else (k.set b { k.buf b with dirty := true }).iderw p b

/-- `brelse`, up to `releasesleep`. -/
def brelse (p : P) (b : Fin NBUF) : Except Panic (Kernel P) :=
  if (k.buf b).lock ≠ some p then .error .brelse
  else .ok (k.set b { k.buf b with lock := none })

/-- `brelse`, past `releasesleep`. -/
def brelseRest (b : Fin NBUF) : Kernel P :=
  let k := k.set b { k.buf b with refcnt := (k.buf b).refcnt - 1 }
  if (k.buf b).refcnt = 0 then { k with links := (k.links.unlink b).insert b } else k

def logWrite (b : Fin NBUF) : Except Panic (Kernel P) :=
  if LOGSIZE ≤ k.log.lh.n ∨ k.log.size - 1 ≤ k.log.lh.n then .error .tooBig
  else if k.log.outstanding < 1 then .error .outsideOfTrans
  else .ok { k.set b { k.buf b with dirty := true } with
    log := { k.log with lh := k.log.lh.record (k.buf b).blockno } }

end

end Kernel

/-! ### Use of the cache -/

/-- The kernel with what the users of the cache have done: the buffers that hold data not yet passed to
`log_write` or `bwrite`, and the last data passed to them for each block. -/
structure Usage (P : Type) extends Kernel P where
  touched : Fin NBUF → Bool
  stored : Disk

inductive Act (P : Type) where
  | bget (p : P) (blockno : Nat)
  | acquiresleep (p : P)
  | bread (p : P)
  | modify (p : P) (b : Fin NBUF) (data : Block)
  | logWrite (p : P) (b : Fin NBUF)
  | bwrite (p : P) (b : Fin NBUF)
  | releasesleep (p : P) (b : Fin NBUF)
  | brelse (p : P)
  | log (l : LogState)

namespace Usage

variable {P : Type} [DecidableEq P]

/-- The kernel after `binit`, over a disk and with some log. -/
def boot (d : Disk) (disksize : Nat) (log : LogState) : Usage P where
  buf := fun _ =>
    { valid := false, dirty := false, dev := 0, blockno := 0, lock := none, refcnt := 0, data := fun _ => 0 }
  links := binit
  memdisk := d
  disksize := disksize
  log := log
  pc := fun _ => .idle
  touched := fun _ => false
  stored := d

/-- The process `p` has `b` from a `bread` that has returned, and has not called `brelse`. -/
def Holds (s : Usage P) (p : P) (b : Fin NBUF) : Prop := (s.buf b).lock = some p ∧ s.pc p = .idle

instance (s : Usage P) (p : P) (b : Fin NBUF) : Decidable (s.Holds p b) := by
  unfold Holds
  infer_instance

def store (s : Usage P) (b : Fin NBUF) (k : Kernel P) : Usage P where
  toKernel := k
  touched := update s.touched b false
  stored := update s.stored (s.buf b).blockno (s.buf b).data

def lift (s : Usage P) (k : Kernel P) : Usage P := { s with toKernel := k }

/-- A step. A buffer is used by the process that holds it, and given back without data that is not stored. -/
def step (s : Usage P) : Act P → Option (Usage P)
  | .bget p blockno =>
    if s.pc p = .idle then
      (s.toKernel.bget ROOTDEV blockno).toOption.map fun (b, k) => s.lift (k.goto p (.waiting blockno b))
    else none
  | .acquiresleep p =>
    match s.pc p with
    | .waiting blockno b =>
      if (s.buf b).lock = none then
        some (s.lift ((s.toKernel.set b { s.buf b with lock := some p }).goto p (.reading blockno b)))
      else none
    | _ => none
  | .bread p =>
    match s.pc p with
    | .reading _ b => (s.toKernel.breadRest p b).toOption.map fun k => s.lift (k.goto p .idle)
    | _ => none
  | .modify p b data =>
    if s.Holds p b then
      some { s.lift (s.toKernel.set b { s.buf b with data := data }) with touched := update s.touched b true }
    else none
  | .logWrite p b => if s.Holds p b then (s.toKernel.logWrite b).toOption.map (s.store b) else none
  | .bwrite p b => if s.Holds p b then (s.toKernel.bwrite p b).toOption.map (s.store b) else none
  | .releasesleep p b =>
    if s.Holds p b ∧ s.touched b = false then
      (s.toKernel.brelse p b).toOption.map fun k => s.lift (k.goto p (.releasing b))
    else none
  | .brelse p =>
    match s.pc p with
    | .releasing b => some (s.lift ((s.toKernel.brelseRest b).goto p .idle))
    | _ => none
  | .log l => some { s with log := l }

end Usage

end Laboratorio.Bio
