import Laboratorio.Params
import Laboratorio.DiskWrites

/-! The disk half of `log.c`: `write_log`, `write_head`, `install_trans`, `read_head`, `commit` and
`recover_from_log`. The kernel state holds the buffer cache as the function that `bread` computes, the
in-memory log header, and the block writes sent to the disk so far, in program order. A crash leaves
the disk after some prefix of those writes and a fresh kernel whose cache is the disk. -/

namespace Laboratorio.Xv6Log

open Function

open Bytes

/-- `struct logheader`. The entries are read only as unsigned block numbers. -/
structure LogHeader where
  n : Nat
  block : Nat → Nat

/-- The fields of `struct log` that `initlog` sets from the superblock. -/
structure Log where
  start : Nat
  size : Nat

/-- The log area that `mkfs` lays out. -/
def mkfsLog : Log := { start := 2, size := LOGSIZE }

def zeroDisk : Disk := fun _ _ => 0

def Log.Home (log : Log) (b : Nat) : Prop := b < log.start ∨ log.start + log.size ≤ b

structure Kernel where
  cache : Nat → Block
  lh : LogHeader
  writes : List (Nat × Block)

namespace Kernel

def bread (k : Kernel) (b : Nat) : Block := k.cache b

def bwrite (k : Kernel) (b : Nat) (data : Block) : Kernel :=
  { k with cache := update k.cache b data, writes := k.writes ++ [(b, data)] }

/-- The loop of `write_log` and of `install_trans`: copy block `src tail` to block `dst tail` and
write it, for each `tail` below `n`. -/
def copyBlocks (src dst : Nat → Nat) (n : Nat) (k : Kernel) : Kernel :=
  (List.range n).foldl (fun k tail => k.bwrite (dst tail) (k.bread (src tail))) k

/-- Memory after a restart: nothing cached that is not on the disk, and a zeroed `struct log`. -/
def boot (d : Disk) : Kernel := { cache := d, lh := { n := 0, block := fun _ => 0 }, writes := [] }

end Kernel

/-- The C `int` with bit pattern `x`. -/
def int (x : Nat) : Int := (x : Int).bmod (2 ^ 32)

/-- The stores of `write_head` into the header block `hb`. -/
def headBlock (hb : Block) (lh : LogHeader) : Block :=
  setWords (setLE hb 0 4 lh.n) 4 4 lh.n lh.block

/-- `n` of the header block; no loop of `log.c` runs for a negative one. -/
def headN (hb : Block) : Nat := (int (getLE hb 0 4)).toNat

def headEntry (hb : Block) (i : Nat) : Nat := getLE hb (4 + 4 * i) 4

section

variable (log : Log)

def writeLog (k : Kernel) : Kernel :=
  k.copyBlocks k.lh.block (fun tail => log.start + tail + 1) k.lh.n

def installTrans (k : Kernel) : Kernel :=
  k.copyBlocks (fun tail => log.start + tail + 1) k.lh.block k.lh.n

def writeHead (k : Kernel) : Kernel := k.bwrite log.start (headBlock (k.bread log.start) k.lh)

/-- `read_head`; a count above `LOGSIZE` would store past the end of `log.lh.block`. -/
def readHead (k : Kernel) : Option Kernel :=
  let hb := k.bread log.start
  if headN hb ≤ LOGSIZE then
    some { k with
      lh := { n := headN hb, block := fun i => if i < headN hb then headEntry hb i else k.lh.block i } }
  else none

def clearLog (k : Kernel) : Kernel := { k with lh := { k.lh with n := 0 } }

def recoverFromLog (k : Kernel) : Option Kernel :=
  (readHead log k).map fun k => writeHead log (clearLog (installTrans log k))

def commit (k : Kernel) : Kernel :=
  if 0 < k.lh.n then
    let k := writeLog log k
    let k := writeHead log k
    let k := installTrans log k
    writeHead log (clearLog k)
  else k

end

theorem copyBlocks_eq (k : Kernel) {src dst : Nat → Nat} {n : Nat}
    (h : ∀ i < n, ∀ j < n, src i ≠ dst j) :
    k.copyBlocks src dst n = { k with
      cache := writeAll k.cache (loopWrites dst (fun i => k.cache (src i)) n)
      writes := k.writes ++ loopWrites dst (fun i => k.cache (src i)) n } := by
  induction n with
  | zero => simp [Kernel.copyBlocks, loopWrites]
  | succ n ih =>
    have hfirst := ih fun i hi j hj => h i (by omega) j (by omega)
    have hread : writeAll k.cache (loopWrites dst (fun i => k.cache (src i)) n) (src n) =
        k.cache (src n) := by
      apply writeAll_loop_off
      intro i hi
      exact (h n (by omega) i (by omega)).symm
    have hstep : k.copyBlocks src dst (n + 1) =
        (k.copyBlocks src dst n).bwrite (dst n) ((k.copyBlocks src dst n).bread (src n)) := by
      rw [Kernel.copyBlocks, List.range_succ, List.foldl_append]
      rfl
    rw [hstep, hfirst]
    simp only [Kernel.bwrite, Kernel.bread, hread, loopWrites_succ, writeAll_append,
      writeAll_singleton, List.append_assoc]

theorem int_of_lt {x : Nat} (h : x < 2 ^ 31) : int x = (x : Int) := by
  apply Int.bmod_eq_of_le
  · omega
  · omega

theorem headN_headBlock (hb : Block) {lh : LogHeader} (h : lh.n ≤ LOGSIZE) :
    headN (headBlock hb lh) = lh.n := by
  change lh.n ≤ 30 at h
  have hword : getLE (headBlock hb lh) 0 4 = lh.n := by
    rw [headBlock, getLE_setWords_off _ _ (Or.inl (Nat.le_refl 4)), getLE_setLE _ _ (by decide),
      Nat.mod_eq_of_lt (by omega)]
  rw [headN, hword, int_of_lt (by omega), Int.toNat_natCast]

theorem headEntry_headBlock (hb : Block) {lh : LogHeader} (h : lh.n ≤ LOGSIZE) {i : Nat}
    (hi : i < lh.n) (hblock : lh.block i < 2 ^ 32) : headEntry (headBlock hb lh) i = lh.block i := by
  have hfits : 4 + 4 * lh.n ≤ BSIZE := by
    change lh.n ≤ 30 at h
    change 4 + 4 * lh.n ≤ 512
    omega
  rw [headEntry, headBlock, getLE_setWords _ _ hfits hi]
  exact Nat.mod_eq_of_lt hblock

end Laboratorio.Xv6Log
