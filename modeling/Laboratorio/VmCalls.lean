import Laboratorio.Kalloc
import Laboratorio.ProcTable

/-! Page tables as `vm.c` builds and frees them, and the calls that `fork`, `exec`, `growproc`, `wait` and
`pipealloc` make on them. An address is the `uint` of the C code, read as a natural number. A call on a page
directory is one step, and so is each `kalloc` and `kfree` that a process makes itself; between two steps
other processes run, and every process may write to its own pages. -/

namespace Laboratorio.Vm

open Function

open Procs (Slot)

/-! ### Page tables -/

abbrev PTE_P : Nat := 1

abbrev PTE_W : Nat := 2

abbrev PTE_U : Nat := 4

def present (pte : Nat) : Prop := pte % 2 = 1

instance (pte : Nat) : Decidable (present pte) := inferInstanceAs (Decidable (pte % 2 = 1))

def pteAddr (pte : Nat) : Nat := pte / PGSIZE

def pteFlags (pte : Nat) : Nat := pte % PGSIZE

def PDX (va : Nat) : Index := Index.ofNat (va / 2 ^ 22)

def PTX (va : Nat) : Index := Index.ofNat (va / 2 ^ 12)

/-- The page table and the index in it of the entry for `va`. -/
def walkpgdir (m : Memory) (pgdir va : Nat) (alloc : Bool) : Option (Nat × Index) × Memory :=
  if present (m.word pgdir (PDX va)) then (some (pteAddr (m.word pgdir (PDX va)), PTX va), m)
  else if alloc = false then (none, m)
  else
    match kalloc m with
    | (0, m) => (none, m)
    | (pgtab, m) =>
      (some (pgtab, PTX va), (m.fill pgtab 0).set pgdir (PDX va) (pgtab * PGSIZE ||| (PTE_P ||| PTE_W ||| PTE_U)))

/-- The loop of `mappages`, with `left` pages to map after the one at `a`. -/
def mapLoop (pgdir perm : Nat) : Nat → Memory → Nat → Nat → Except Panic (Int × Memory)
  | left, m, a, pa =>
    match walkpgdir m pgdir a true with
    | (none, m) => .ok (-1, m)
    | (some (pgtab, i), m) =>
      if present (m.word pgtab i) then .error .remap
      else
        match left with
        | 0 => .ok (0, m.set pgtab i (pa ||| (perm ||| PTE_P)))
        | left + 1 => mapLoop pgdir perm left (m.set pgtab i (pa ||| (perm ||| PTE_P)))
            ((a + PGSIZE) % 2 ^ 32) ((pa + PGSIZE) % 2 ^ 32)

def mappages (m : Memory) (pgdir va size pa perm : Nat) : Except Panic (Int × Memory) :=
  let a := PGROUNDDOWN va
  let last := PGROUNDDOWN ((va + size - 1) % 2 ^ 32)
  mapLoop pgdir perm ((last + 2 ^ 32 - a) % 2 ^ 32 / PGSIZE) m a pa

structure Kmap where
  virt : Nat
  phys_start : Nat
  phys_end : Nat
  perm : Nat

def kmap (L : Layout) : List Kmap :=
  [⟨KERNBASE, 0, EXTMEM, PTE_W⟩,
    ⟨KERNLINK, KERNLINK - KERNBASE, L.data - KERNBASE, 0⟩,
    ⟨L.data, L.data - KERNBASE, PHYSTOP, PTE_W⟩,
    ⟨DEVSPACE, DEVSPACE, 0, PTE_W⟩]

/-- The loop of `deallocuvm` from `a` on. -/
def deallocLoop (L : Layout) (pgdir oldsz : Nat) : Nat → Memory → Nat → Except Panic Memory
  | 0, m, a => if a < oldsz then .error .unfinished else .ok m
  | fuel + 1, m, a =>
    if a < oldsz then
      match (walkpgdir m pgdir a false).1 with
      | none => deallocLoop L pgdir oldsz fuel m (((PDX a).val + 1) * 2 ^ 22 % 2 ^ 32)
      | some (pgtab, i) =>
        if present (m.word pgtab i) then
          if pteAddr (m.word pgtab i) = 0 then .error .kfree
          else do
            let m ← kfree L m (pteAddr (m.word pgtab i))
            deallocLoop L pgdir oldsz fuel (m.set pgtab i 0) ((a + PGSIZE) % 2 ^ 32)
        else deallocLoop L pgdir oldsz fuel m ((a + PGSIZE) % 2 ^ 32)
    else .ok m

def deallocuvm (L : Layout) (m : Memory) (pgdir oldsz newsz : Nat) : Except Panic (Nat × Memory) :=
  if oldsz ≤ newsz then .ok (oldsz, m)
  else do
    let m ← deallocLoop L pgdir oldsz (oldsz / PGSIZE + 1) m (PGROUNDUP newsz)
    pure (newsz, m)

def freevm (L : Layout) (m : Memory) (pgdir : Nat) : Except Panic Memory :=
  if pgdir = 0 then .error .noPgdir
  else do
    let (_, m) ← deallocuvm L m pgdir KERNBASE 0
    let m ← (List.finRange NPDENTRIES).foldlM (fun m i =>
      if present (m.word pgdir i) then kfree L m (pteAddr (m.word pgdir i)) else .ok m) m
    kfree L m pgdir

/-- The loop of `setupkvm`. -/
def setupLoop (L : Layout) (pgdir : Nat) : List Kmap → Memory → Except Panic (Nat × Memory)
  | [], m => .ok (pgdir, m)
  | k :: rest, m => do
      let (r, m) ← mappages m pgdir k.virt ((k.phys_end + 2 ^ 32 - k.phys_start) % 2 ^ 32) k.phys_start k.perm
      if r < 0 then do
        let m ← freevm L m pgdir
        pure (0, m)
      else setupLoop L pgdir rest m

def setupkvm (L : Layout) (m : Memory) : Except Panic (Nat × Memory) :=
  match kalloc m with
  | (0, m) => .ok (0, m)
  | (pgdir, m) =>
    if DEVSPACE < KERNBASE + PHYSTOP then .error .physTooHigh
    else setupLoop L pgdir (kmap L) (m.fill pgdir 0)

/-- The loop of `allocuvm` from `a` on. -/
def allocLoop (L : Layout) (pgdir oldsz newsz : Nat) : Nat → Memory → Nat → Except Panic (Nat × Memory)
  | 0, m, a => if a < newsz then .error .unfinished else .ok (newsz, m)
  | fuel + 1, m, a =>
    if a < newsz then
      match kalloc m with
      | (0, m) => do
          let (_, m) ← deallocuvm L m pgdir newsz oldsz
          pure (0, m)
      | (mem, m) => do
          let (r, m) ← mappages (m.fill mem 0) pgdir a PGSIZE (mem * PGSIZE) (PTE_W ||| PTE_U)
          if r < 0 then do
            let (_, m) ← deallocuvm L m pgdir newsz oldsz
            let m ← kfree L m mem
            pure (0, m)
          else allocLoop L pgdir oldsz newsz fuel m (a + PGSIZE)
    else .ok (newsz, m)

def allocuvm (L : Layout) (m : Memory) (pgdir oldsz newsz : Nat) : Except Panic (Nat × Memory) :=
  if KERNBASE ≤ newsz then .ok (0, m)
  else if newsz < oldsz then .ok (oldsz, m)
  else allocLoop L pgdir oldsz newsz (newsz / PGSIZE + 1) m (PGROUNDUP oldsz)

/-- The loop of `copyuvm` from `i` on, into the directory `d`. -/
def copyLoop (L : Layout) (pgdir sz d : Nat) : Nat → Memory → Nat → Except Panic (Nat × Memory)
  | 0, m, i => if i < sz then .error .unfinished else .ok (d, m)
  | fuel + 1, m, i =>
    if i < sz then
      match (walkpgdir m pgdir i false).1 with
      | none => .error .copyuvmNoPte
      | some (pgtab, j) =>
        let pte := m.word pgtab j
        if ¬present pte then .error .copyuvmNotPresent
        else
          match kalloc m with
          | (0, m) => do
              let m ← freevm L m d
              pure (0, m)
          | (mem, m) => do
              let m := { m with word := update m.word mem (m.word (pteAddr pte)) }
              let (r, m) ← mappages m d i PGSIZE (mem * PGSIZE) (pteFlags pte)
              if r < 0 then do
                let m ← kfree L m mem
                let m ← freevm L m d
                pure (0, m)
              else copyLoop L pgdir sz d fuel m (i + PGSIZE)
    else .ok (d, m)

def copyuvm (L : Layout) (m : Memory) (pgdir sz : Nat) : Except Panic (Nat × Memory) := do
  let (d, m) ← setupkvm L m
  if d = 0 then pure (0, m) else copyLoop L pgdir sz d (sz / PGSIZE + 1) m 0

def clearpteu (m : Memory) (pgdir uva : Nat) : Except Panic Memory :=
  match (walkpgdir m pgdir uva false).1 with
  | none => .error .clearpteu
  | some (pgtab, i) =>
    let pte := m.word pgtab i
    .ok (m.set pgtab i (if pte / PTE_U % 2 = 1 then pte - PTE_U else pte))

def inituvm (m : Memory) (pgdir : Nat) : Except Panic (Nat × Int × Memory) := do
  let (mem, m) := kalloc m
  let (r, m) ← mappages (m.fill mem 0) pgdir 0 PGSIZE (mem * PGSIZE) (PTE_W ||| PTE_U)
  pure (mem, r, m)

/-- `sz + n`, as a `uint`. -/
def addInt (sz : Nat) (n : Int) : Nat := ((sz + n) % 2 ^ 32).toNat

/-- The result of `growproc`, with `curproc->sz` after it. -/
def growproc (L : Layout) (m : Memory) (pgdir sz : Nat) (n : Int) : Except Panic (Int × Nat × Memory) :=
  if 0 < n then do
    let (r, m) ← allocuvm L m pgdir sz (addInt sz n)
    pure (if r = 0 then (-1, sz, m) else (0, r, m))
  else if n < 0 then do
    let (r, m) ← deallocuvm L m pgdir sz (addInt sz n)
    pure (if r = 0 then (-1, sz, m) else (0, r, m))
  else .ok (0, sz, m)

/-! ### Processes -/

/-- How far a process has come: `embryo` has a kernel stack only, `failed` is an embryo whose address space
could not be copied, and `reaping` is a zombie whose kernel stack `wait` has freed. -/
inductive Stage where
  | unused
  | embryo
  | failed
  | live
  | zombie
  | reaping
  deriving DecidableEq

/-- A call of `exec` in progress, with its `pgdir` and `sz`. -/
inductive Exec where
  | none
  | building (pgdir sz : Nat)
  | bad (pgdir : Nat)
  deriving DecidableEq

structure Proc where
  stage : Stage
  kstack : Nat
  pgdir : Nat
  sz : Nat
  exec : Exec

/-- `wait` and `fork` leave the field `pgdir` of an unused slot as it is. -/
def Proc.root (p : Proc) : Nat :=
  match p.stage with
  | .live => p.pgdir
  | .zombie => p.pgdir
  | .reaping => p.pgdir
  | _ => 0

def Exec.root : Exec → Nat
  | .none => 0
  | .building pgdir _ => pgdir
  | .bad pgdir => pgdir

structure Kernel where
  mem : Memory
  top : Nat
  kpgdir : Nat
  proc : Slot → Proc
  pipe : Nat → Nat
  cpustack : Nat → Nat

/-- After `kinit1`, which cannot fail. -/
def Kernel.boot (L : Layout) (word : Nat → Index → Nat) : Kernel where
  mem := ((freerange L ⟨word, 0⟩ L.kend (KERNBASE + 4 * 1024 * 1024)).toOption).getD ⟨word, 0⟩
  top := 1024
  kpgdir := 0
  proc := fun _ => { stage := .unused, kstack := 0, pgdir := 0, sz := 0, exec := .none }
  pipe := fun _ => 0
  cpustack := fun _ => 0

/-- The variables that hold a page directory. -/
inductive Dir where
  | kernel
  | proc (k : Slot)
  | exec (k : Slot)
  deriving DecidableEq

/-- The variables that hold a page of another kind; `mem` is the local variable of a call. -/
inductive Keep where
  | kstack (k : Slot)
  | cpustack (cpu : Nat)
  | pipe (i : Nat)
  | mem
  deriving DecidableEq

namespace Kernel

def root (s : Kernel) : Dir → Nat
  | .kernel => s.kpgdir
  | .proc k => (s.proc k).root
  | .exec k => (s.proc k).exec.root

def keep (s : Kernel) : Keep → Nat
  | .kstack k => (s.proc k).kstack
  | .cpustack cpu => s.cpustack cpu
  | .pipe i => s.pipe i
  | .mem => 0

def setProc (s : Kernel) (m : Memory) (k : Slot) (p : Proc) : Kernel :=
  { s with mem := m, proc := update s.proc k p }

def Running (s : Kernel) (k : Slot) : Prop := (s.proc k).stage = .live ∧ (s.proc k).exec = .none

instance (s : Kernel) (k : Slot) : Decidable (s.Running k) :=
  inferInstanceAs (Decidable ((s.proc k).stage = .live ∧ (s.proc k).exec = .none))

end Kernel

/-- The calls of `main`, which have memory enough; those of `fork`, `exec`, `growproc` and `wait`; those of
`pipealloc` and `pipeclose`; and stores into the pages of a process, a stack or a pipe. -/
inductive Act where
  | kvmalloc
  | startothers (cpu : Nat)
  | kinit2
  | userinit (k : Slot)
  | allocproc (k : Slot)
  | copyuvm (parent k : Slot)
  | forkBad (k : Slot)
  | setupkvm (k : Slot)
  | allocuvm (k : Slot) (newsz : Nat)
  | allocStack (k : Slot)
  | execBad (k : Slot)
  | commit (k : Slot)
  | growproc (k : Slot) (n : Int)
  | exit (k : Slot)
  | kfreeStack (k : Slot)
  | freevm (k : Slot)
  | pipealloc (i : Nat)
  | pipeclose (i : Nat)
  | store (r : Dir) (va : Nat) (words : Index → Nat)
  | storeKept (o : Keep) (words : Index → Nat)

def Memory.put (m : Memory) (pg : Nat) (words : Index → Nat) : Memory :=
  { m with word := update m.word pg words }

def Kernel.step (L : Layout) (s : Kernel) : Act → Option Kernel
  | .kvmalloc => do
      let (d, m) ← (setupkvm L s.mem).toOption
      if s.kpgdir = 0 ∧ d ≠ 0 then some { s with mem := m, kpgdir := d } else none
  | .startothers cpu =>
    let (pg, m) := kalloc s.mem
    if s.cpustack cpu = 0 ∧ pg ≠ 0 then some { s with mem := m, cpustack := update s.cpustack cpu pg } else none
  | .kinit2 => do
      let m ← (freerange L s.mem (KERNBASE + 4 * 1024 * 1024) (KERNBASE + PHYSTOP)).toOption
      if s.top = 1024 then some { s with mem := m, top := PHYSTOP / PGSIZE } else none
  | .userinit k =>
    if (s.proc k).stage = .embryo then do
      let (d, m) ← (Vm.setupkvm L s.mem).toOption
      let (mem, r, m) ← (inituvm m d).toOption
      if d ≠ 0 ∧ mem ≠ 0 ∧ r = 0 then some (s.setProc m k { s.proc k with stage := .live, pgdir := d, sz := PGSIZE })
      else none
    else none
  | .allocproc k =>
    if (s.proc k).stage = .unused then
      let (pg, m) := kalloc s.mem
      some (s.setProc m k { s.proc k with kstack := pg, stage := if pg = 0 then .unused else .embryo })
    else none
  | .copyuvm parent k =>
    if s.Running parent ∧ (s.proc k).stage = .embryo then do
      let (d, m) ← (Vm.copyuvm L s.mem (s.proc parent).pgdir (s.proc parent).sz).toOption
      some (s.setProc m k (if d = 0 then { s.proc k with stage := .failed, pgdir := 0 }
        else { s.proc k with stage := .live, pgdir := d, sz := (s.proc parent).sz }))
    else none
  | .forkBad k =>
    if (s.proc k).stage = .failed then do
      let m ← (kfree L s.mem (s.proc k).kstack).toOption
      some (s.setProc m k { s.proc k with kstack := 0, stage := .unused })
    else none
  | .setupkvm k =>
    if s.Running k then do
      let (d, m) ← (Vm.setupkvm L s.mem).toOption
      some (s.setProc m k (if d = 0 then s.proc k else { s.proc k with exec := .building d 0 }))
    else none
  | .allocuvm k newsz =>
    match (s.proc k).exec with
    | .building d sz => do
        let (r, m) ← (Vm.allocuvm L s.mem d sz newsz).toOption
        some (s.setProc m k { s.proc k with exec := if r = 0 then .bad d else .building d r })
    | _ => none
  | .allocStack k =>
    match (s.proc k).exec with
    | .building d sz => do
        let (r, m) ← (Vm.allocuvm L s.mem d (PGROUNDUP sz) (PGROUNDUP sz + 2 * PGSIZE)).toOption
        if r = 0 then some (s.setProc m k { s.proc k with exec := .bad d })
        else do
          let m ← (clearpteu m d (r - 2 * PGSIZE)).toOption
          some (s.setProc m k { s.proc k with exec := .building d r })
    | _ => none
  | .execBad k =>
    if (s.proc k).exec = .none then none
    else do
      let m ← (Vm.freevm L s.mem (s.proc k).exec.root).toOption
      some (s.setProc m k { s.proc k with exec := .none })
  | .commit k =>
    match (s.proc k).stage, (s.proc k).exec with
    | .live, .building d sz => do
        let m ← (Vm.freevm L s.mem (s.proc k).pgdir).toOption
        some (s.setProc m k { s.proc k with pgdir := d, sz := sz, exec := .none })
    | _, _ => none
  | .growproc k n =>
    if s.Running k then do
      let (_, sz, m) ← (Vm.growproc L s.mem (s.proc k).pgdir (s.proc k).sz n).toOption
      some (s.setProc m k { s.proc k with sz := sz })
    else none
  | .exit k => if s.Running k then some (s.setProc s.mem k { s.proc k with stage := .zombie }) else none
  | .kfreeStack k =>
    if (s.proc k).stage = .zombie then do
      let m ← (kfree L s.mem (s.proc k).kstack).toOption
      some (s.setProc m k { s.proc k with kstack := 0, stage := .reaping })
    else none
  | .freevm k =>
    if (s.proc k).stage = .reaping then do
      let m ← (Vm.freevm L s.mem (s.proc k).pgdir).toOption
      some (s.setProc m k { s.proc k with stage := .unused })
    else none
  | .pipealloc i =>
    let (pg, m) := kalloc s.mem
    if s.pipe i = 0 then some { s with mem := m, pipe := update s.pipe i pg } else none
  | .pipeclose i =>
    if s.pipe i = 0 then none
    else do
      let m ← (kfree L s.mem (s.pipe i)).toOption
      some { s with mem := m, pipe := update s.pipe i 0 }
  | .store r va words =>
    if s.root r ≠ 0 ∧ va < KERNBASE then do
      let (pgtab, i) ← (walkpgdir s.mem (s.root r) va false).1
      if present (s.mem.word pgtab i) then some { s with mem := s.mem.put (pteAddr (s.mem.word pgtab i)) words }
        else none
    else none
  | .storeKept o words => if s.keep o = 0 then none else some { s with mem := s.mem.put (s.keep o) words }

end Laboratorio.Vm
