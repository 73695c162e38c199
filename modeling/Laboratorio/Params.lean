import Laboratorio.Bytes

/-! The constants of `param.h` and `fs.h`, and disk blocks as byte strings. A block number is the
`uint` of the C code, read as a natural number. -/

namespace Laboratorio

/-- Max # of blocks any FS op writes. -/
abbrev MAXOPBLOCKS : Nat := 10

/-- Max data blocks in on-disk log. -/
abbrev LOGSIZE : Nat := MAXOPBLOCKS * 3

abbrev BSIZE : Nat := 512

abbrev NDIRECT : Nat := 12

abbrev NINDIRECT : Nat := 128

abbrev MAXFILE : Nat := NDIRECT + NINDIRECT

abbrev IPB : Nat := 8

abbrev BPB : Nat := 4096

abbrev DIRSIZ : Nat := 14

/-- Size of the file system in blocks. -/
abbrev FSSIZE : Nat := 1000

/-- The inodes that `mkfs` makes. -/
abbrev NINODES : Nat := 200

abbrev Block := Bytes BSIZE

abbrev Disk := Nat → Block

end Laboratorio
