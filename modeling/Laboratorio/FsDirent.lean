import Laboratorio.FsInode

/-! Directories as files of 16-byte entries: `namecmp`, `dirlookup`, `dirlink` and `isdirempty`, over
whatever `readi` and `writei` do for the directory inode. The three loops of the source differ in the
offset they start at, the entry they stop at and the panic of a short read. -/

namespace Laboratorio.Fs

/-- `strncmp(p, q, n)`; past the end of a list stands its terminating 0. -/
def strncmp : Nat → List UInt8 → List UInt8 → Int
  | 0, _, _ => 0
  | n + 1, p, q =>
    if p.headD 0 ≠ 0 ∧ p.headD 0 = q.headD 0 then strncmp n p.tail q.tail
    else ((p.headD 0).toNat : Int) - (q.headD 0).toNat

/-- The `n` bytes that `strncpy(s, t, n)` stores at `s`. -/
def strncpy : Nat → List UInt8 → List UInt8
  | 0, _ => []
  | n + 1, t => if t.headD 0 = 0 then List.replicate (n + 1) 0 else t.headD 0 :: strncpy n t.tail

def namecmp (s t : List UInt8) : Int := strncmp DIRSIZ s t

structure Dirent where
  inum : UInt16
  name : List UInt8
  deriving DecidableEq

abbrev DIRENT : Nat := 16

namespace Dirent

def decode (bytes : List UInt8) : Dirent where
  inum := UInt16.ofNat ((bytes.getD 0 0).toNat + 256 * (bytes.getD 1 0).toNat)
  name := bytes.drop 2

def encode (de : Dirent) : List UInt8 :=
  UInt8.ofNat de.inum.toNat :: UInt8.ofNat (de.inum.toNat / 256) :: de.name

end Dirent

/-- What the directory code uses of a locked inode. -/
structure Contents (σ : Type) where
  type : σ → UInt16
  size : σ → UInt32
  readi : σ → UInt32 → UInt32 → Except Stop ((Int × List UInt8) × σ)
  writei : σ → List UInt8 → UInt32 → Except Stop (Int × σ)

section Directories

variable {σ : Type} (dp : Contents σ)

def readDirent (p : Panic) (s : σ) (off : Nat) : Except Stop (Dirent × σ) := do
  let ((r, bytes), s) ← dp.readi s (UInt32.ofNat off) (UInt32.ofNat DIRENT)
  if r ≠ (DIRENT : Int) then throw (.panic p) else pure (Dirent.decode bytes, s)

/-- `for (; off < dp->size; off += sizeof(de))` up to the first entry that passes the test. -/
def findDirent (p : Panic) (test : Dirent → Bool) :
    Nat → σ → Nat → Except Stop (Option Dirent × Nat × σ)
  | 0, s, off => pure (none, off, s)
  | fuel + 1, s, off =>
    if off < (dp.size s).toNat then do
      let (de, s) ← readDirent dp p s off
      if test de then pure (some de, off, s) else findDirent p test fuel s (off + DIRENT)
    else pure (none, off, s)

/-- The turns that a loop over a directory of `size` bytes can take. -/
def turns (size : UInt32) : Nat := size.toNat / DIRENT + 1

/-- `dirlookup`, up to `iget`: the inode number and the offset of the entry. -/
def dirlookup (s : σ) (name : List UInt8) : Except Stop (Option (Nat × Nat) × σ) :=
  if dp.type s ≠ T_DIR then throw (.panic .dirlookupNotDir)
  else do
    let (found, off, s) ← findDirent dp .dirlookupRead
      (fun de => de.inum ≠ 0 ∧ namecmp name de.name = 0) (turns (dp.size s)) s 0
    pure (found.map fun de => (de.inum.toNat, off), s)

/-- `dirlink` from the search for an empty entry on. -/
def addDirent (s : σ) (name : List UInt8) (inum : Nat) : Except Stop σ := do
  let (_, off, s) ← findDirent dp .dirlinkRead (fun de => de.inum = 0) (turns (dp.size s)) s 0
  let de : Dirent := { inum := UInt16.ofNat inum, name := strncpy DIRSIZ name }
  let (r, s) ← dp.writei s de.encode (UInt32.ofNat off)
  if r ≠ (DIRENT : Int) then throw (.panic .dirlink) else pure s

def isdirempty (s : σ) : Except Stop (Bool × σ) := do
  let (found, _, s) ← findDirent dp .isdirempty (fun de => de.inum ≠ 0) (turns (dp.size s)) s (2 * DIRENT)
  pure (found.isNone, s)

theorem findDirent_same {p : Panic} {test : Dirent → Bool} {s : σ}
    (h : ∀ off n, ∃ r, dp.readi s off n = .ok (r, s)) (fuel off : Nat) :
    (∃ found off', findDirent dp p test fuel s off = .ok (found, off', s)) ∨
      findDirent dp p test fuel s off = .error (.panic p) := by
  induction fuel generalizing off with
  | zero => exact Or.inl ⟨none, off, rfl⟩
  | succ fuel ih =>
    rw [findDirent]
    split
    · obtain ⟨⟨r, bytes⟩, hread⟩ := h (UInt32.ofNat off) (UInt32.ofNat DIRENT)
      rw [readDirent, hread, ok_bind]
      dsimp only
      split
      · exact Or.inr rfl
      · rw [pure_eq_ok, ok_bind]
        split
        · exact Or.inl ⟨_, off, rfl⟩
        · exact ih (off + DIRENT)
    · exact Or.inl ⟨none, off, rfl⟩

end Directories

end Laboratorio.Fs
