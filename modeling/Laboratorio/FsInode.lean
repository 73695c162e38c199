import Laboratorio.FsDisk
import Laboratorio.RunPrefix

/-! The block and inode layers of `fs.c`: `balloc`, `bfree`, `bmap`, `itrunc`, `ialloc`, `iupdate`,
`readi` and `writei`. A disk block is what `bread` returns for it, and a buffer
changed through `log_write` is changed there. A loop of the source that stops early is a search over the
values of its counter. -/

namespace Laboratorio.Fs

open Function

open Bytes

/-- The panics of `fs.c`, `file.c`, `sysfile.c` and `exit`. -/
inductive Panic where
  | outOfBlocks
  | freeingFreeBlock
  | noInodes
  | cacheFull
  | ilock
  | noType
  | outOfRange
  | dirlookupNotDir
  | dirlookupRead
  | dirlinkRead
  | dirlink
  | isdirempty
  | unlinkNlink
  | unlinkWritei
  | createDots
  | createDirlink
  | filedup
  | fileclose
  | fileread
  | filewrite
  | shortFilewrite
  | initExiting
  deriving DecidableEq

def Panic.text : Panic → String
  | .outOfBlocks => "balloc: out of blocks"
  | .freeingFreeBlock => "freeing free block"
  | .noInodes => "ialloc: no inodes"
  | .cacheFull => "iget: no inodes"
  | .ilock => "ilock"
  | .noType => "ilock: no type"
  | .outOfRange => "bmap: out of range"
  | .dirlookupNotDir => "dirlookup not DIR"
  | .dirlookupRead => "dirlookup read"
  | .dirlinkRead => "dirlink read"
  | .dirlink => "dirlink"
  | .isdirempty => "isdirempty: readi"
  | .unlinkNlink => "unlink: nlink < 1"
  | .unlinkWritei => "unlink: writei"
  | .createDots => "create dots"
  | .createDirlink => "create: dirlink"
  | .filedup => "filedup"
  | .fileclose => "fileclose"
  | .fileread => "fileread"
  | .filewrite => "filewrite"
  | .shortFilewrite => "short filewrite"
  | .initExiting => "init exiting"

/-- The ways a call does not complete: the kernel panics, or the process waits for a sleep lock that it
holds itself. -/
inductive Stop where
  | panic (p : Panic)
  | deadlock
  deriving DecidableEq

abbrev T_DIR : UInt16 := 1
abbrev T_FILE : UInt16 := 2
abbrev T_DEV : UInt16 := 3
abbrev NDEV : Nat := 10

section Blocks

variable (sb : Superblock) (d : Disk)

/-- The two loops of `balloc`: the first block whose bit is clear. -/
def freeBlock : Option Nat :=
  (List.range ((sb.size + BPB - 1) / BPB)).findSome? fun k =>
    ((List.range BPB).find? fun bi =>
      decide (k * BPB + bi < sb.size) && !bit (d (sb.bblock (k * BPB))) bi).map (k * BPB + ·)

def markBlock (b : Nat) : Disk :=
  putBlock d (sb.bblock b) (setBit (d (sb.bblock b)) (b % BPB))

def bzero (b : Nat) : Disk := putBlock d b zeroBlock

def balloc : Except Stop (Nat × Disk) :=
  match freeBlock sb d with
  | some b => .ok (b, bzero (markBlock sb d b) b)
  | none => .error (.panic .outOfBlocks)

def bfree (b : Nat) : Except Stop Disk :=
  if bitAt sb d b = false then .error (.panic .freeingFreeBlock)
  else .ok (putBlock d (sb.bblock b) (clearBit (d (sb.bblock b)) (b % BPB)))

end Blocks

namespace Dinode

def setAddr (ip : Dinode) (k : Fin (NDIRECT + 1)) (b : Nat) : Dinode :=
  { ip with addrs := update ip.addrs k (UInt32.ofNat b) }

def addr (ip : Dinode) (k : Fin (NDIRECT + 1)) : Nat := (ip.addrs k).toNat

end Dinode

section Inodes

variable (sb : Superblock)

/-- `if ((addr = ip->addrs[k]) == 0) ip->addrs[k] = addr = balloc(ip->dev)`. -/
def ensureAddr (d : Disk) (ip : Dinode) (k : Fin (NDIRECT + 1)) : Except Stop (Nat × Disk × Dinode) :=
  if ip.addr k = 0 then do
    let (b, d) ← balloc sb d
    pure (b, d, ip.setAddr k b)
  else pure (ip.addr k, d, ip)

/-- The address of an indirect block in `addrs`. -/
def tableIndex : Fin (NDIRECT + 1) := Fin.last NDIRECT

def bmap (d : Disk) (ip : Dinode) (bn : Nat) : Except Stop (Nat × Disk × Dinode) :=
  if h : bn < NDIRECT then ensureAddr sb d ip ⟨bn, Nat.lt_succ_of_lt h⟩
  else if bn - NDIRECT < NINDIRECT then do
    let (t, d, ip) ← ensureAddr sb d ip tableIndex
    let a := entryAt (d t) (bn - NDIRECT)
    if a = 0 then do
      let (b, d) ← balloc sb d
      pure (b, putBlock d t (setEntry (d t) (bn - NDIRECT) b), ip)
    else pure (a, d, ip)
  else throw (.panic .outOfRange)

def iupdate (d : Disk) (i : Nat) (ip : Dinode) : Disk :=
  putBlock d (sb.iblock i) (writeDinode (d (sb.iblock i)) (i % IPB) ip)

/-- One turn of the first loop of `itrunc`. -/
def freeDirect (s : Disk × Dinode) (k : Fin NDIRECT) : Except Stop (Disk × Dinode) :=
  if s.2.addr k.castSucc ≠ 0 then do
    let d ← bfree sb s.1 (s.2.addr k.castSucc)
    pure (d, s.2.setAddr k.castSucc 0)
  else pure s

/-- One turn of the second loop, over the entries of the indirect block `a`. -/
def freeEntry (a : Block) (d : Disk) (j : Fin NINDIRECT) : Except Stop Disk :=
  if entryAt a j ≠ 0 then bfree sb d (entryAt a j) else pure d

def freeTable (d : Disk) (ip : Dinode) : Except Stop (Disk × Dinode) :=
  if ip.addr tableIndex ≠ 0 then do
    let d ← (List.finRange NINDIRECT).foldlM (freeEntry sb (d (ip.addr tableIndex))) d
    let d ← bfree sb d (ip.addr tableIndex)
    pure (d, ip.setAddr tableIndex 0)
  else pure (d, ip)

def itrunc (d : Disk) (i : Nat) (ip : Dinode) : Except Stop (Disk × Dinode) := do
  let (d, ip) ← (List.finRange NDIRECT).foldlM (freeDirect sb) (d, ip)
  let (d, ip) ← freeTable sb d ip
  let ip := { ip with size := 0 }
  pure (iupdate sb d i ip, ip)

/-- `ialloc`, up to `iget`: the inode number. -/
def ialloc (d : Disk) (type : UInt16) : Except Stop (Nat × Disk) :=
  match (List.range' 1 (sb.ninodes - 1)).find? fun i => (loadInode sb d i).type = 0 with
  | some i => .ok (i, putBlock d (sb.iblock i) (blankDinode (d (sb.iblock i)) (i % IPB) type))
  | none => .error (.panic .noInodes)

end Inodes

/-! ### Contents -/

/-- The entries of `devsw`; the drivers touch no disk block. -/
structure Devices where
  read : Nat → Option (Nat → Int × List UInt8)
  write : Nat → Option (List UInt8 → Int)

section Contents

variable (sb : Superblock) (dev : Devices)

/-- The loop of `readi`; each turn copies at least one byte, so `n` turns are enough. -/
def readLoop : Nat → Disk → Dinode → Nat → Nat → Except Stop (List UInt8 × Disk × Dinode)
  | 0, d, ip, _, _ => pure ([], d, ip)
  | fuel + 1, d, ip, off, n =>
    if n = 0 then pure ([], d, ip)
    else do
      let (a, d, ip) ← bmap sb d ip (off / BSIZE)
      let m := min n (BSIZE - off % BSIZE)
      let chunk := (List.range m).map fun k => byte (d a) (off % BSIZE + k)
      let (rest, d, ip) ← readLoop fuel d ip (off + m) (n - m)
      pure (chunk ++ rest, d, ip)

/-- The value `readi` returns, and what it copied to `dst`. -/
def readi (d : Disk) (ip : Dinode) (off n : UInt32) : Except Stop ((Int × List UInt8) × Disk × Dinode) :=
  if ip.type = T_DEV then
    if ip.major.toNat ≥ NDEV then pure ((-1, []), d, ip)
    else match dev.read ip.major.toNat with
      | none => pure ((-1, []), d, ip)
      | some f => pure (f n.toNat, d, ip)
  else if off > ip.size ∨ off + n < off then pure ((-1, []), d, ip)
  else do
    let m := if off + n > ip.size then ip.size - off else n
    let (bytes, d, ip) ← readLoop sb m.toNat d ip off.toNat m.toNat
    pure ((m.toNat, bytes), d, ip)

/-- The loop of `writei`, over the bytes still to copy. -/
def writeLoop : Nat → Disk → Dinode → Nat → List UInt8 → Except Stop (Disk × Dinode)
  | 0, d, ip, _, _ => pure (d, ip)
  | fuel + 1, d, ip, off, src =>
    if src = [] then pure (d, ip)
    else do
      let (a, d, ip) ← bmap sb d ip (off / BSIZE)
      let m := min src.length (BSIZE - off % BSIZE)
      let d := putBlock d a (patch (d a) (off % BSIZE) m fun k => src.getD k 0)
      writeLoop fuel d ip (off + m) (src.drop m)

/-- `writei` of the bytes `src`, whose number is the `uint n` of the source. -/
def writei (d : Disk) (i : Nat) (ip : Dinode) (src : List UInt8) (off : UInt32) :
    Except Stop (Int × Disk × Dinode) :=
  let n := UInt32.ofNat src.length
  if ip.type = T_DEV then
    if ip.major.toNat ≥ NDEV then pure (-1, d, ip)
    else match dev.write ip.major.toNat with
      | none => pure (-1, d, ip)
      | some f => pure (f src, d, ip)
  else if off > ip.size ∨ off + n < off then pure (-1, d, ip)
  else if (off + n).toNat > MAXFILE * BSIZE then pure (-1, d, ip)
  else do
    let (d, ip) ← writeLoop sb src.length d ip off.toNat src
    let off := off + n
    if 0 < n ∧ off > ip.size then
      let ip := { ip with size := off }
      pure (n.toNat, iupdate sb d i ip, ip)
    else pure (n.toNat, d, ip)

end Contents

end Laboratorio.Fs
