import Laboratorio.FsPath

/-! `mkfs`, the program that writes the first image of the file system. It appends to files with its own
`ialloc`, `balloc` and `iappend`, over two counters for the next free inode and the next free block. Words
are stored in the byte order of the disk, and writing to the image never fails. -/

namespace Laboratorio.Mkfs

open Fs Bytes

def nbitmap : Nat := FSSIZE / (BSIZE * 8) + 1

def ninodeblocks : Nat := NINODES / IPB + 1

def nlog : Nat := LOGSIZE

def nmeta : Nat := 2 + nlog + ninodeblocks + nbitmap

def sb : Superblock where
  size := FSSIZE
  nblocks := FSSIZE - nmeta
  ninodes := NINODES
  nlog := nlog
  logstart := 2
  inodestart := 2 + nlog
  bmapstart := 2 + nlog + ninodeblocks

/-- The exits with an error, and the assertions. -/
inductive Stop where
  | read
  | openFile
  | rootino
  | slash
  | maxfile
  | used
  deriving DecidableEq

/-- The image file, of `len` blocks, and the counters. -/
structure Image where
  block : Disk
  len : Nat
  freeinode : Nat
  freeblock : Nat

def Image.bump (s : Image) : Image := { s with freeblock := s.freeblock + 1 }

/-! ### Sectors and inodes -/

def wsect (s : Image) (sec : Nat) (buf : Block) : Image :=
  { s with block := putBlock s.block sec buf, len := max s.len (sec + 1) }

def rsect (s : Image) (sec : Nat) : Except Stop Block :=
  if sec < s.len then .ok (s.block sec) else .error .read

def winode (s : Image) (inum : Nat) (ip : Dinode) : Except Stop Image := do
  let buf ← rsect s (sb.iblock inum)
  pure (wsect s (sb.iblock inum) (writeDinode buf (inum % IPB) ip))

def rinode (s : Image) (inum : Nat) : Except Stop Dinode := do
  let buf ← rsect s (sb.iblock inum)
  pure (readDinode buf (inum % IPB))

def ialloc (s : Image) (type : UInt16) : Except Stop (Nat × Image) := do
  let inum := s.freeinode
  let s ← winode { s with freeinode := s.freeinode + 1 } inum { Dinode.blank type with nlink := 1 }
  pure (inum, s)

/-- The bitmap block whose first `used` bits are set. -/
def marks (used : Nat) : Block := (List.range used).foldl setBit zeroBlock

def balloc (s : Image) (used : Nat) : Except Stop Image :=
  if used < BSIZE * 8 then .ok (wsect s sb.bmapstart (marks used)) else .error .used

/-! ### Appending -/

/-- The block that `din.addrs[k]` names, taken from `freeblock++` if it names none, and what is in it. -/
def fetchAddr (s : Image) (din : Dinode) (k : Fin (NDIRECT + 1)) :
    Except Stop (Nat × Block × Image × Dinode) := do
  let (x, s, din) := if din.addr k = 0 then (s.freeblock, s.bump, din.setAddr k s.freeblock)
    else (din.addr k, s, din)
  let buf ← rsect s x
  pure (x, buf, s, din)

/-- The block that entry `j` of the indirect block `t` names, as `fetchAddr`. -/
def fetchEntry (s : Image) (din : Dinode) (t : Nat) (indirect : Block) (j : Nat) :
    Except Stop (Nat × Block × Image × Dinode) := do
  let (x, s) := if entryAt indirect j = 0 then (s.freeblock, wsect s.bump t (setEntry indirect j s.freeblock))
    else (entryAt indirect j, s)
  let buf ← rsect s x
  pure (x, buf, s, din)

/-- The block `fbn` of the file, and what is in it. -/
def fetch (s : Image) (din : Dinode) (fbn : Nat) : Except Stop (Nat × Block × Image × Dinode) :=
  if h : fbn < NDIRECT then fetchAddr s din ⟨fbn, Nat.lt_succ_of_lt h⟩
  else do
    let (t, indirect, s, din) ← fetchAddr s din tableIndex
    fetchEntry s din t indirect (fbn - NDIRECT)

/-- The loop of `iappend`; each turn copies at least one byte. -/
def appendLoop : Nat → Image → Dinode → Nat → List UInt8 → Except Stop (Image × Dinode × Nat)
  | 0, s, din, off, _ => pure (s, din, off)
  | fuel + 1, s, din, off, p =>
    if p = [] then pure (s, din, off)
    else if off / BSIZE < MAXFILE then do
      let (x, buf, s, din) ← fetch s din (off / BSIZE)
      let n1 := min p.length ((off / BSIZE + 1) * BSIZE - off)
      let s := wsect s x (patch buf (off - off / BSIZE * BSIZE) n1 fun k => p.getD k 0)
      appendLoop fuel s din (off + n1) (p.drop n1)
    else throw .maxfile

def iappend (s : Image) (inum : Nat) (p : List UInt8) : Except Stop Image := do
  let din ← rinode s inum
  let (s, din, off) ← appendLoop p.length s din din.size.toNat p
  winode s inum { din with size := UInt32.ofNat off }

/-! ### The program -/

/-- A file of the host: its name, whether it can be opened, and what the calls of `read` return until the
end of the file. -/
structure HostFile where
  name : List UInt8
  readable : Bool
  chunks : List (List UInt8)
  name_terminated : 0 ∉ name
  chunks_fit : ∀ c ∈ chunks, c ≠ [] ∧ c.length ≤ BSIZE

namespace HostFile

def bytes (f : HostFile) : List UInt8 := f.chunks.flatten

/-- The name without a leading `_`. -/
def fsName (f : HostFile) : List UInt8 := if f.name.headD 0 = 95 then f.name.tail else f.name

end HostFile

/-- The directory entry of an inode, as `iappend` copies it. -/
def dirent (inum : Nat) (name : List UInt8) : List UInt8 :=
  { inum := UInt16.ofNat inum, name := strncpy DIRSIZ name : Dirent }.encode

/-- The block that `main` copies the superblock to. -/
def superBlock : Block :=
  setWords zeroBlock 0 4 7 fun i =>
    [sb.size, sb.nblocks, sb.ninodes, sb.nlog, sb.logstart, sb.inodestart, sb.bmapstart].getD i 0

/-- The new image file, every block written with zeroes. -/
@[irreducible] def zeroed : Image :=
  (List.range FSSIZE).foldl (fun s i => wsect s i zeroBlock)
    { block := fun _ => zeroBlock, len := 0, freeinode := 1, freeblock := nmeta }

def addFile (s : Image) (f : HostFile) : Except Stop Image :=
  if SLASH ∈ f.name then .error .slash
  else if f.readable = false then .error .openFile
  else do
    let (inum, s) ← ialloc s T_FILE
    let s ← iappend s ROOTINO (dirent inum f.fsName)
    f.chunks.foldlM (fun s c => iappend s inum c) s

/-- The root directory with its two entries. -/
def makeRoot (s : Image) : Except Stop Image := do
  let (rootino, s) ← ialloc s T_DIR
  if rootino ≠ ROOTINO then throw .rootino
  let s ← iappend s rootino (dirent rootino dot)
  iappend s rootino (dirent rootino dotdot)

/-- Fix the size of the root directory. -/
def fixRoot (s : Image) : Except Stop Image := do
  let din ← rinode s ROOTINO
  winode s ROOTINO { din with size := UInt32.ofNat ((din.size.toNat / BSIZE + 1) * BSIZE) }

def mkfs (files : List HostFile) : Except Stop Image := do
  let s ← makeRoot (wsect zeroed 1 superBlock)
  let s ← files.foldlM addFile s
  let s ← fixRoot s
  balloc s s.freeblock

end Laboratorio.Mkfs
