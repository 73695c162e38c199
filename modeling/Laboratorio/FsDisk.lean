import Laboratorio.Params

/-! The on-disk structures of `fs.h`: superblock, inodes, free bit map and indirect blocks, as bytes of
disk blocks. Each structure comes with the lemmas that say what a store into it changes and what it
leaves alone. -/

namespace Laboratorio.Fs

open Function

open Bytes

structure Superblock where
  size : Nat
  nblocks : Nat
  ninodes : Nat
  nlog : Nat
  logstart : Nat
  inodestart : Nat
  bmapstart : Nat

namespace Superblock

def datastart (sb : Superblock) : Nat := sb.size - sb.nblocks

def iblock (sb : Superblock) (i : Nat) : Nat := i / IPB + sb.inodestart

def bblock (sb : Superblock) (b : Nat) : Nat := b / BPB + sb.bmapstart

end Superblock

/-- A superblock whose areas follow one another as `mkfs` lays them out, on a disk small enough for
the `int` block counter of `balloc`. -/
structure Layout extends Superblock where
  inodes_le : inodestart + (ninodes / IPB + 1) ≤ bmapstart
  bitmap_le : bmapstart + (size / BPB + 1) ≤ size - nblocks
  nblocks_le : nblocks ≤ size
  size_le : size ≤ 2 ^ 31

instance : Coe Layout Superblock := ⟨Layout.toSuperblock⟩

namespace Layout

variable (sb : Layout)

theorem iblock_lt {i : Nat} (hi : i < sb.ninodes) : sb.iblock i < sb.bmapstart := by
  have hle := sb.inodes_le
  have hdiv : i / IPB ≤ sb.ninodes / IPB := Nat.div_le_div_right (Nat.le_of_lt hi)
  unfold Superblock.iblock
  omega

theorem bblock_lt {b : Nat} (hb : b < sb.size) : sb.bblock b < sb.datastart := by
  have hle := sb.bitmap_le
  have hdiv : b / BPB ≤ sb.size / BPB := Nat.div_le_div_right (Nat.le_of_lt hb)
  unfold Superblock.bblock Superblock.datastart
  omega

theorem bmapstart_le_bblock (b : Nat) : sb.bmapstart ≤ sb.bblock b := Nat.le_add_left _ _

theorem bmapstart_lt_datastart : sb.bmapstart < sb.datastart :=
  Nat.lt_of_lt_of_le (Nat.lt_add_of_pos_right (Nat.succ_pos _)) sb.bitmap_le

theorem datastart_pos : 0 < sb.datastart := Nat.zero_lt_of_lt sb.bmapstart_lt_datastart

end Layout

/-! ### Inodes -/

/-- `struct dinode`, and the fields that `struct inode` copies from it. -/
structure Dinode where
  type : UInt16
  major : UInt16
  minor : UInt16
  nlink : UInt16
  size : UInt32
  addrs : Fin (NDIRECT + 1) → UInt32

@[ext] theorem Dinode.ext {a b : Dinode} (htype : a.type = b.type) (hmajor : a.major = b.major)
    (hminor : a.minor = b.minor) (hnlink : a.nlink = b.nlink) (hsize : a.size = b.size)
    (haddrs : ∀ k, a.addrs k = b.addrs k) : a = b := by
  cases a
  cases b
  simp only [Dinode.mk.injEq]
  exact ⟨htype, hmajor, hminor, hnlink, hsize, funext haddrs⟩

/-- A freshly allocated inode: everything zero but the type. -/
def Dinode.blank (type : UInt16) : Dinode where
  type := type
  major := 0
  minor := 0
  nlink := 0
  size := 0
  addrs := fun _ => 0

def getU16 (b : Block) (o : Nat) : UInt16 := UInt16.ofNat (getLE b o 2)

def getU32 (b : Block) (o : Nat) : UInt32 := UInt32.ofNat (getLE b o 4)

def readDinode (b : Block) (k : Nat) : Dinode where
  type := getU16 b (64 * k)
  major := getU16 b (64 * k + 2)
  minor := getU16 b (64 * k + 4)
  nlink := getU16 b (64 * k + 6)
  size := getU32 b (64 * k + 8)
  addrs := fun i => getU32 b (64 * k + 12 + 4 * i)

/-- The addresses as the array that `memmove` copies. -/
def Dinode.addrWord (di : Dinode) (i : Nat) : Nat :=
  if h : i < NDIRECT + 1 then (di.addrs ⟨i, h⟩).toNat else 0

/-- The stores of `iupdate`, in its order. -/
def writeDinode (b : Block) (k : Nat) (di : Dinode) : Block :=
  let b := setLE b (64 * k) 2 di.type.toNat
  let b := setLE b (64 * k + 2) 2 di.major.toNat
  let b := setLE b (64 * k + 4) 2 di.minor.toNat
  let b := setLE b (64 * k + 6) 2 di.nlink.toNat
  let b := setLE b (64 * k + 8) 4 di.size.toNat
  setWords b (64 * k + 12) 4 (NDIRECT + 1) di.addrWord

/-- The stores of `ialloc`. -/
def blankDinode (b : Block) (k : Nat) (type : UInt16) : Block :=
  setLE (patch b (64 * k) 64 fun _ => 0) (64 * k) 2 type.toNat

theorem ofNat_mod16 (x : UInt16) : UInt16.ofNat (x.toNat % 256 ^ 2) = x := by
  have hlt : x.toNat < 256 ^ 2 := x.toNat_lt
  rw [Nat.mod_eq_of_lt hlt, UInt16.ofNat_toNat]

theorem ofNat_mod32 (x : UInt32) : UInt32.ofNat (x.toNat % 256 ^ 4) = x := by
  have hlt : x.toNat < 256 ^ 4 := x.toNat_lt
  rw [Nat.mod_eq_of_lt hlt, UInt32.ofNat_toNat]

variable {k : Nat}

theorem readDinode_writeDinode (b : Block) (hk : k < IPB) (di : Dinode) :
    readDinode (writeDinode b k di) k = di := by
  change k < 8 at hk
  have hfit : 64 * k + 12 ≤ BSIZE := by
    change 64 * k + 12 ≤ 512
    omega
  have haddrs : 64 * k + 12 + 4 * (NDIRECT + 1) ≤ BSIZE := by
    change 64 * k + 12 + 4 * 13 ≤ 512
    omega
  ext i
  case haddrs =>
    simp only [readDinode, writeDinode, getU32]
    rw [getLE_setWords _ _ haddrs i.isLt, Dinode.addrWord, dif_pos i.isLt, ofNat_mod32]
  all_goals
    simp (disch := omega) only [readDinode, writeDinode, getU16, getU32, getLE_setWords_off, getLE_setLE_off,
      getLE_setLE, ofNat_mod16, ofNat_mod32]

theorem readDinode_congr {b c : Block}
    (h : ∀ j, 64 * k ≤ j → j < 64 * k + 64 → byte b j = byte c j) : readDinode b k = readDinode c k := by
  have hword : ∀ o w, 64 * k ≤ o → o + w ≤ 64 * k + 64 → getLE b o w = getLE c o w := by
    intro o w hlo hhi
    apply getLE_congr
    intro j hj
    exact h (o + j) (by omega) (by omega)
  ext i
  · simp only [readDinode, getU16, hword (64 * k) 2 (by omega) (by omega)]
  · simp only [readDinode, getU16, hword (64 * k + 2) 2 (by omega) (by omega)]
  · simp only [readDinode, getU16, hword (64 * k + 4) 2 (by omega) (by omega)]
  · simp only [readDinode, getU16, hword (64 * k + 6) 2 (by omega) (by omega)]
  · simp only [readDinode, getU32, hword (64 * k + 8) 4 (by omega) (by omega)]
  · have hi : i.val < 13 := i.isLt
    simp only [readDinode, getU32, hword (64 * k + 12 + 4 * i) 4 (by omega) (by omega)]

theorem readDinode_writeDinode_of_ne (b : Block) {k' : Nat} (hne : k' ≠ k) (di : Dinode) :
    readDinode (writeDinode b k di) k' = readDinode b k' := by
  have hwords : 4 * (NDIRECT + 1) = 52 := rfl
  apply readDinode_congr
  intro j hlo hhi
  simp (disch := omega) only [writeDinode, byte_setWords_off, byte_setLE_off]

theorem readDinode_blankDinode (b : Block) (hk : k < IPB) (type : UInt16) :
    readDinode (blankDinode b k type) k = Dinode.blank type := by
  change k < 8 at hk
  have hfit : 64 * k + 64 ≤ BSIZE := by
    change 64 * k + 64 ≤ 512
    omega
  have hzero : ∀ o w, 64 * k + 2 ≤ o → o + w ≤ 64 * k + 64 →
      getLE (blankDinode b k type) o w = 0 := by
    intro o w hlo hhi
    apply getLE_zeros
    intro j hj
    rw [blankDinode, byte_setLE_off _ _ (by omega), byte_patch _ _ (by omega), if_pos (by omega)]
  ext i
  · simp only [readDinode, getU16, blankDinode]
    rw [getLE_setLE _ _ (by omega), ofNat_mod16]
    rfl
  · simp only [readDinode, getU16, hzero (64 * k + 2) 2 (by omega) (by omega)]
    rfl
  · simp only [readDinode, getU16, hzero (64 * k + 4) 2 (by omega) (by omega)]
    rfl
  · simp only [readDinode, getU16, hzero (64 * k + 6) 2 (by omega) (by omega)]
    rfl
  · simp only [readDinode, getU32, hzero (64 * k + 8) 4 (by omega) (by omega)]
    rfl
  · have hi : i.val < 13 := i.isLt
    simp only [readDinode, getU32, hzero (64 * k + 12 + 4 * i) 4 (by omega) (by omega)]
    rfl

theorem readDinode_blankDinode_of_ne (b : Block) {k' : Nat} (hne : k' ≠ k) (type : UInt16) :
    readDinode (blankDinode b k type) k' = readDinode b k' := by
  apply readDinode_congr
  intro j hlo hhi
  rw [blankDinode, byte_setLE_off _ _ (by omega), byte_patch_off _ _ (by omega)]

/-! ### The disk -/

section

variable (sb : Superblock) (d : Disk)

def readsb : Superblock where
  size := getLE (d 1) 0 4
  nblocks := getLE (d 1) 4 4
  ninodes := getLE (d 1) 8 4
  nlog := getLE (d 1) 12 4
  logstart := getLE (d 1) 16 4
  inodestart := getLE (d 1) 20 4
  bmapstart := getLE (d 1) 24 4

/-- The inode `i` as `ilock` reads it from the disk. -/
def loadInode (i : Nat) : Dinode := readDinode (d (sb.iblock i)) (i % IPB)

def bitAt (b : Nat) : Bool := bit (d (sb.bblock b)) (b % BPB)

def putBlock (a : Nat) (blk : Block) : Disk := update d a blk

end

def entryAt (b : Block) (j : Nat) : Nat := getLE b (4 * j) 4

def setEntry (b : Block) (j x : Nat) : Block := setLE b (4 * j) 4 x

def zeroBlock : Block := fun _ => 0

theorem entryAt_setEntry (b : Block) {j x : Nat} (hj : j < NINDIRECT) (hx : x < 2 ^ 32) :
    entryAt (setEntry b j x) j = x := by
  change j < 128 at hj
  rw [entryAt, setEntry, getLE_setLE _ _ (by change 4 * j + 4 ≤ 512; omega)]
  exact Nat.mod_eq_of_lt hx

theorem entryAt_setEntry_of_ne (b : Block) {j j' : Nat} (x : Nat) (hne : j' ≠ j) :
    entryAt (setEntry b j x) j' = entryAt b j' := getLE_setLE_off _ _ (by omega)

theorem entryAt_zeroBlock (j : Nat) : entryAt zeroBlock j = 0 := by
  apply getLE_zeros
  intro k _
  unfold byte
  split <;> rfl

end Laboratorio.Fs
