import Laboratorio.FsArrays
import Laboratorio.VmGrow

/-! `exec.c`, with `loaduvm`, `uva2ka` and `copyout` of `vm.c`. The file is the array of bytes that `readi` reads
from; its headers are whatever those bytes say. The names of the stores that `loaduvm` makes are kept beside the
memory, each with the page table entry that it went through. -/

namespace Laboratorio.Vm

open Fs (readArray)
open Procs (Slot)

abbrev MAXARG : Nat := 32

abbrev ELF_MAGIC : Nat := 0x464C457F

abbrev ELF_PROG_LOAD : Nat := 1

/-- What ends a call of `exec` badly: a panic of the calls that it makes, those of `loaduvm` ("addr must be page
aligned", "address should exist"), and the load through a null pointer in `uva2ka`, which does not look at what
`walkpgdir` returns. -/
inductive Halt where
  | call (p : Panic)
  | loaduvmAligned
  | loaduvmExist
  | uva2kaNull
  deriving DecidableEq

/-! ### Headers -/

def field (b : List UInt8) (o w : Nat) : Nat := Bytes.getLE (n := b.length) b.get o w

/-- `struct elfhdr`, as far as `exec` reads it. -/
structure Elfhdr where
  magic : Nat
  entry : Nat
  phoff : Nat
  phnum : Nat

abbrev sizeofElfhdr : Nat := 52

def elfhdr (b : List UInt8) : Elfhdr where
  magic := field b 0 4
  entry := field b 24 4
  phoff := field b 28 4
  phnum := field b 44 2

/-- `struct proghdr`, as far as `exec` reads it. -/
structure Proghdr where
  type : Nat
  off : Nat
  vaddr : Nat
  filesz : Nat
  memsz : Nat

abbrev sizeofProghdr : Nat := 32

def proghdr (b : List UInt8) : Proghdr where
  type := field b 0 4
  off := field b 4 4
  vaddr := field b 8 4
  filesz := field b 16 4
  memsz := field b 20 4

/-- `readi(ip, dst, off, n)`. -/
def readi (file : List UInt8) (off n : Nat) : Int × List UInt8 := readArray file (UInt32.ofNat off) (UInt32.ofNat n)

/-! ### Bytes in pages -/

def pageBytes (words : Index → Nat) : Bytes PGSIZE :=
  fun i => UInt8.ofNat (words (Index.ofNat (i.val / 4)) / 256 ^ (i.val % 4))

def pageWords (b : Bytes PGSIZE) : Index → Nat := fun j => Bytes.getLE b (4 * j.val) 4

/-- Copy bytes into a page, from offset `o` on. -/
def Memory.copy (m : Memory) (pg o : Nat) (src : List UInt8) : Memory :=
  m.put pg (pageWords (Bytes.patch (pageBytes (m.word pg)) o src.length fun k => src.getD k 0))

/-! ### `loaduvm` -/

/-- A store of file bytes: the address, and the page table entry that was found for it. -/
structure Store where
  va : Nat
  pte : Nat

/-- The memory, and the stores of file bytes so far. -/
structure Load where
  mem : Memory
  stores : List Store

/-- `readi` copies its bytes into the page of the entry. -/
def Load.copy (l : Load) (va pte : Nat) (src : List UInt8) : Load :=
  if src = [] then l else ⟨l.mem.copy (pteAddr pte) 0 src, l.stores ++ [⟨va, pte⟩]⟩

/-- The loop of `loaduvm` from `i` on. -/
def loadLoop (pgdir addr : Nat) (file : List UInt8) (offset sz : Nat) : Nat → Load → Nat → Except Halt (Int × Load)
  | 0, l, i => if i < sz then .error (.call .unfinished) else .ok (0, l)
  | fuel + 1, l, i =>
    if i < sz then
      match (walkpgdir l.mem pgdir (addr + i) false).1 with
      | none => .error .loaduvmExist
      | some (pgtab, j) =>
        let pte := l.mem.word pgtab j
        let n := if sz - i < PGSIZE then sz - i else PGSIZE
        let (r, bytes) := readi file (offset + i) n
        if r ≠ n then .ok (-1, l.copy (addr + i) pte bytes)
        else loadLoop pgdir addr file offset sz fuel (l.copy (addr + i) pte bytes) (i + PGSIZE)
    else .ok (0, l)

def loaduvm (l : Load) (pgdir addr : Nat) (file : List UInt8) (offset sz : Nat) : Except Halt (Int × Load) :=
  if addr % PGSIZE ≠ 0 then .error .loaduvmAligned
  else loadLoop pgdir addr file offset sz (sz / PGSIZE + 1) l 0

/-! ### `copyout` -/

/-- The page of a user address, if the user may use it. -/
def uva2ka (m : Memory) (pgdir uva : Nat) : Except Halt (Option Nat) :=
  match (walkpgdir m pgdir uva false).1 with
  | none => .error .uva2kaNull
  | some (pgtab, i) =>
    let pte := m.word pgtab i
    if ¬present pte then .ok none
    else if pte / PTE_U % 2 = 0 then .ok none
    else .ok (some (pteAddr pte))

/-- The loop of `copyout`; every turn copies a byte at least. -/
def copyoutLoop (pgdir : Nat) : Nat → Memory → Nat → List UInt8 → Except Halt (Int × Memory)
  | 0, m, _, buf => if buf = [] then .ok (0, m) else .error (.call .unfinished)
  | fuel + 1, m, va, buf =>
    if buf = [] then .ok (0, m)
    else do
      let va0 := PGROUNDDOWN va
      match ← uva2ka m pgdir va0 with
      | none => pure (-1, m)
      | some pa0 =>
        let n := min (PGSIZE - (va - va0)) buf.length
        copyoutLoop pgdir fuel (m.copy pa0 (va - va0) (buf.take n)) ((va0 + PGSIZE) % 2 ^ 32) (buf.drop n)

def copyout (m : Memory) (pgdir va : Nat) (p : List UInt8) : Except Halt (Int × Memory) :=
  copyoutLoop pgdir p.length m va p

/-! ### `exec` -/

def calls {α : Type} (x : Except Panic α) : Except Halt α := x.mapError .call

/-- The loop over the program headers, with `left` of them to come; `none` is `goto bad`. -/
def loadSegments (L : Layout) (pgdir : Nat) (file : List UInt8) :
    Nat → Nat → Nat → Load → Except Halt (Option Nat × Load)
  | 0, _, sz, l => .ok (some sz, l)
  | left + 1, off, sz, l =>
    let (r, b) := readi file off sizeofProghdr
    let ph := proghdr b
    if r ≠ sizeofProghdr then .ok (none, l)
    else if ph.type ≠ ELF_PROG_LOAD then loadSegments L pgdir file left (off + sizeofProghdr) sz l
    else if ph.memsz < ph.filesz then .ok (none, l)
    else if (ph.vaddr + ph.memsz) % 2 ^ 32 < ph.vaddr then .ok (none, l)
    else do
      let (sz, m) ← calls (allocuvm L l.mem pgdir sz ((ph.vaddr + ph.memsz) % 2 ^ 32))
      if sz = 0 then pure (none, { l with mem := m })
      else if ph.vaddr % PGSIZE ≠ 0 then pure (none, { l with mem := m })
      else do
        let (r, l) ← loaduvm { l with mem := m } pgdir ph.vaddr file ph.off ph.filesz
        if r < 0 then pure (none, l) else loadSegments L pgdir file left (off + sizeofProghdr) sz l

/-- The loop over `argv`. It leaves `sp` and the pointers `ustack[3..]`, of which there are `argc`. -/
def pushArgs (pgdir : Nat) : List (List UInt8) → Nat → List Nat → Memory →
    Except Halt (Option (Nat × List Nat) × Memory)
  | [], sp, ustack, m => .ok (some (sp, ustack), m)
  | arg :: argv, sp, ustack, m =>
    if MAXARG ≤ ustack.length then .ok (none, m)
    else do
      let sp := (sp + 2 ^ 32 - (arg.length + 1)) % 2 ^ 32 / 4 * 4
      let (r, m) ← copyout m pgdir sp (arg ++ [0])
      if r < 0 then pure (none, m) else pushArgs pgdir argv sp (ustack ++ [sp]) m

def uintBytes (words : List Nat) : List UInt8 :=
  words.flatMap fun w => [UInt8.ofNat w, UInt8.ofNat (w / 256), UInt8.ofNat (w / 256 ^ 2), UInt8.ofNat (w / 256 ^ 3)]

/-- The stack of the new image, in the page above a guard page: `sz` and `sp`, or `none` for `goto bad`. -/
def buildStack (L : Layout) (m : Memory) (pgdir sz : Nat) (argv : List (List UInt8)) :
    Except Halt (Option (Nat × Nat) × Memory) := do
  let (sz, m) ← calls (allocuvm L m pgdir (PGROUNDUP sz) (PGROUNDUP sz + 2 * PGSIZE))
  if sz = 0 then pure (none, m)
  else do
    let m ← calls (clearpteu m pgdir (sz - 2 * PGSIZE))
    match ← pushArgs pgdir argv sz [] m with
    | (none, m) => pure (none, m)
    | (some (sp, ustack), m) => do
        let argc := ustack.length
        let head := [0xffffffff, argc, (sp + 2 ^ 32 - (argc + 1) * 4) % 2 ^ 32]
        let sp := (sp + 2 ^ 32 - (3 + argc + 1) * 4) % 2 ^ 32
        let (r, m) ← copyout m pgdir sp (uintBytes (head ++ ustack ++ [0]))
        if r < 0 then pure (none, m) else pure (some (sz, sp), m)

/-- The image in a new directory: `sz` and `sp`, or `none` for `goto bad`. -/
def buildImage (L : Layout) (m : Memory) (pgdir : Nat) (file : List UInt8) (elf : Elfhdr) (argv : List (List UInt8)) :
    Except Halt (Option (Nat × Nat) × Load) := do
  match ← loadSegments L pgdir file elf.phnum elf.phoff 0 ⟨m, []⟩ with
  | (none, l) => pure (none, l)
  | (some sz, l) => do
      let (image, m) ← buildStack L l.mem pgdir sz argv
      pure (image, { l with mem := m })

structure Trapframe where
  eip : Nat
  esp : Nat

structure Outcome where
  ret : Int
  kernel : Kernel
  tf : Trapframe
  stores : List Store

/-- `exec` of process `k`; `ip` is what `namei` found. -/
def exec (L : Layout) (s : Kernel) (k : Slot) (tf : Trapframe) (ip : Option (List UInt8)) (argv : List (List UInt8)) :
    Except Halt Outcome :=
  match ip with
  | none => .ok ⟨-1, s, tf, []⟩
  | some file =>
    let (r, b) := readi file 0 sizeofElfhdr
    let elf := elfhdr b
    if r ≠ sizeofElfhdr then .ok ⟨-1, s, tf, []⟩
    else if elf.magic ≠ ELF_MAGIC then .ok ⟨-1, s, tf, []⟩
    else do
      let (pgdir, m) ← calls (setupkvm L s.mem)
      if pgdir = 0 then pure ⟨-1, { s with mem := m }, tf, []⟩
      else
        match ← buildImage L m pgdir file elf argv with
        | (none, l) => do
            let m ← calls (freevm L l.mem pgdir)
            pure ⟨-1, { s with mem := m }, tf, l.stores⟩
        | (some (sz, sp), l) => do
            let m ← calls (freevm L l.mem (s.proc k).pgdir)
            pure ⟨0, s.setProc m k { s.proc k with pgdir := pgdir, sz := sz }, ⟨elf.entry, sp⟩, l.stores⟩

end Laboratorio.Vm
