import Mathlib.Algebra.BigOperators.Group.Finset.Basic
import Laboratorio.FsArrays
import Laboratorio.MkfsImage
import Laboratorio.ProcTable

/-! The file-system calls of `sysfile.c`, with the path and inode-cache functions of `fs.c` and the
descriptors of `file.c` and `proc.c` that they use. The contents of an inode are an array of bytes, which
takes blocks of the disk, and its other fields are those on the disk: a valid cached copy has the same. Calls run one
after another, so a sleep lock that is held is held by the running call, and asking for it again never ends. `held`
lists the inodes that the call has locked. -/

namespace Laboratorio.Sys

open Function

open Fs

abbrev NOFILE : Nat := 16

abbrev NFILE : Nat := 100

abbrev NPROC : Nat := 64

/-- The fields of `struct dinode`, with the contents in place of size and addresses. -/
structure Node where
  type : UInt16
  major : UInt16
  minor : UInt16
  nlink : UInt16
  data : List UInt8

abbrev Nodes := Nat → Node

def Node.blank (type : UInt16) : Node where
  type := type
  major := 0
  minor := 0
  nlink := 0
  data := []

def Nodes.blocks (n : Nodes) : Nat := ∑ i ∈ Finset.range NINODES, blocksFor (n i).data.length

/-- The value of a `short`. -/
def short (x : UInt16) : Int := if x.toNat < 2 ^ 15 then x.toNat else (x.toNat : Int) - 2 ^ 16

/-- The inodes on the disk and the inode cache. -/
structure Vfs where
  nodes : Nodes
  icache : Icache Unit

namespace Vfs

def node (v : Vfs) (k : Fin NINODE) : Node := v.nodes (v.icache k).inum

/-- A change of an inode, stored by `iupdate`. -/
def modify (v : Vfs) (k : Fin NINODE) (g : Node → Node) : Vfs :=
  { v with nodes := update v.nodes (v.icache k).inum (g (v.node k)) }

end Vfs

/-! ### Cached inodes -/

def ilock (v : Vfs) (held : List (Fin NINODE)) (k : Fin NINODE) : Except Stop Vfs :=
  if (v.icache k).ref < 1 then .error (.panic .ilock)
  else if k ∈ held then .error .deadlock
  else if (v.icache k).valid then .ok v
  else if (v.node k).type = 0 then .error (.panic .noType)
  else .ok { v with icache := update v.icache k { v.icache k with valid := true } }

/-- `itrunc` and `ip->type = 0`. -/
def Node.freed (n : Node) : Node := { n with type := 0, data := [] }

/-- The branch of `iput` for the last reference to an inode without links. -/
def ifree (v : Vfs) (k : Fin NINODE) : Vfs where
  nodes := update v.nodes (v.icache k).inum (v.node k).freed
  icache := update v.icache k { v.icache k with valid := false }

def Vfs.unref (v : Vfs) (k : Fin NINODE) : Vfs :=
  { v with icache := update v.icache k { v.icache k with ref := (v.icache k).ref - 1 } }

def iput (v : Vfs) (held : List (Fin NINODE)) (k : Fin NINODE) : Except Stop Vfs :=
  if k ∈ held then .error .deadlock
  else if (v.icache k).valid ∧ (v.node k).nlink = 0 ∧ (v.icache k).ref = 1 then .ok ((ifree v k).unref k)
  else .ok (v.unref k)

def idup (v : Vfs) (k : Fin NINODE) : Vfs :=
  { v with icache := update v.icache k { v.icache k with ref := (v.icache k).ref + 1 } }

/-- `readi` and `writei` on a directory. -/
def contentsOf (k : Fin NINODE) : Contents Vfs where
  type v := (v.node k).type
  size v := UInt32.ofNat (v.node k).data.length
  readi v off n := .ok (readArray (v.node k).data off n, v)
  writei v src off :=
    let v' := v.modify k fun n => { n with data := (writeArray n.data src off).2 }
    if Mkfs.sb.nblocks < v'.nodes.blocks then .error (.panic .outOfBlocks) else .ok
      ((writeArray (v.node k).data src off).1, v')

def vget (v : Vfs) (inum : Nat) : Except Stop (Fin NINODE × Vfs) := do
  let (k, c) ← iget v.icache inum
  pure (k, { v with icache := c })

def ialloc (v : Vfs) (type : UInt16) : Except Stop (Fin NINODE × Vfs) :=
  match (List.range' 1 (NINODES - 1)).find? fun i => (v.nodes i).type = 0 with
  | some i => vget { v with nodes := update v.nodes i (Node.blank type) } i
  | none => .error (.panic .noInodes)

def dirlink (v : Vfs) (held : List (Fin NINODE)) (k : Fin NINODE) (name : List UInt8) (inum : Nat) :
    Except Stop (Int × Vfs) := do
  let (found, v) ← dirlookup (contentsOf k) v name
  match found with
  | some (i, _) => do
      let (l, v) ← vget v i
      let v ← iput v held l
      pure (-1, v)
  | none => do
      let v ← addDirent (contentsOf k) v name inum
      pure (0, v)

/-! ### Paths -/

/-- The cache of a call that holds no lock. -/
def inodes : Inodes Vfs where
  iget := vget
  idup := idup
  ilock v := ilock v []
  iput v := iput v []
  contents := contentsOf

def namex : Vfs → Fin NINODE → List UInt8 → Bool → Except Stop (Option (Fin NINODE × List UInt8) × Vfs) :=
  Fs.namex inodes

/-! ### The calls on paths -/

section

variable (v : Vfs)

/-- The part of `sys_link` that looks for the parent and enters the name there. -/
def linkEntry (cwd : Fin NINODE) (ip : Fin NINODE) (new : List UInt8) : Except Stop (Int × Vfs) := do
  let (parent, v) ← namex v cwd new true
  match parent with
  | none => pure (-1, v)
  | some (dp, name) => do
      let v ← ilock v [] dp
      let (r, v) ← dirlink v [dp] dp name (v.icache ip).inum
      let v ← iput v [] dp
      pure (r, v)

def sysLink (cwd : Fin NINODE) (old new : List UInt8) : Except Stop (Int × Vfs) := do
  let (found, v) ← namex v cwd old false
  match found with
  | none => pure (-1, v)
  | some (ip, _) => do
      let v ← ilock v [] ip
      if (v.node ip).type = T_DIR then do
        let v ← iput v [] ip
        pure (-1, v)
      else do
        let v := v.modify ip fun n => { n with nlink := n.nlink + 1 }
        let (r, v) ← linkEntry v cwd ip new
        if r < 0 then do
          let v ← ilock v [] ip
          let v := v.modify ip fun n => { n with nlink := n.nlink - 1 }
          let v ← iput v [] ip
          pure (-1, v)
        else do
          let v ← iput v [] ip
          pure (0, v)

/-- `!(ip->type == T_DIR && !isdirempty(ip))`. -/
def removable (ip : Fin NINODE) : Except Stop (Bool × Vfs) :=
  if (v.node ip).type = T_DIR then isdirempty (contentsOf ip) v else .ok (true, v)

/-- The end of `sys_unlink`: the inode that lost its entry has a link less. -/
def unlinkPut (dp ip : Fin NINODE) : Except Stop (Int × Vfs) := do
  let v ← iput v [ip] dp
  let v := v.modify ip fun n => { n with nlink := n.nlink - 1 }
  let v ← iput v [] ip
  pure (0, v)

/-- `sys_unlink` of the entry at `off`, with both inodes locked. -/
def unlinkEntry (dp ip : Fin NINODE) (off : Nat) : Except Stop (Int × Vfs) :=
  if short (v.node ip).nlink < 1 then .error (.panic .unlinkNlink)
  else do
    let (empty, v) ← removable v ip
    if ¬empty then do
      let v ← iput v [dp] ip
      let v ← iput v [] dp
      pure (-1, v)
    else do
      let (r, v) ← (contentsOf dp).writei v (List.replicate DIRENT 0) (UInt32.ofNat off)
      if r ≠ (DIRENT : Int) then throw (.panic .unlinkWritei)
      else if (v.node ip).type = T_DIR then unlinkPut (v.modify dp fun n => { n with nlink := n.nlink - 1 }) dp ip
      else unlinkPut v dp ip

def sysUnlink (cwd : Fin NINODE) (path : List UInt8) : Except Stop (Int × Vfs) := do
  let (parent, v) ← namex v cwd path true
  match parent with
  | none => pure (-1, v)
  | some (dp, name) => do
      let v ← ilock v [] dp
      if namecmp name dot = 0 ∨ namecmp name dotdot = 0 then do
        let v ← iput v [] dp
        pure (-1, v)
      else do
        let (found, v) ← dirlookup (contentsOf dp) v name
        match found with
        | none => do
            let v ← iput v [] dp
            pure (-1, v)
        | some (i, off) => do
            let (ip, v) ← vget v i
            let v ← ilock v [dp] ip
            unlinkEntry v dp ip off

/-- The `.` and `..` entries that `create` makes in a directory. -/
def makeDots (dp ip : Fin NINODE) (type : UInt16) : Except Stop Vfs :=
  if type ≠ T_DIR then .ok v
  else do
    let v := v.modify dp fun n => { n with nlink := n.nlink + 1 }
    let (r, v) ← dirlink v [dp, ip] ip dot (v.icache ip).inum
    if r < 0 then throw (.panic .createDots)
    else do
      let (r, v) ← dirlink v [dp, ip] ip dotdot (v.icache dp).inum
      if r < 0 then throw (.panic .createDots) else pure v

/-- `create` of a name that is not there yet, in the locked directory `dp`. -/
def createNew (dp : Fin NINODE) (name : List UInt8) (type major minor : UInt16) :
    Except Stop (Option (Fin NINODE) × Vfs) := do
  let (ip, v) ← ialloc v type
  let v ← ilock v [dp] ip
  let v := v.modify ip fun n => { n with major := major, minor := minor, nlink := 1 }
  let v ← makeDots v dp ip type
  let (r, v) ← dirlink v [dp, ip] dp name (v.icache ip).inum
  if r < 0 then throw (.panic .createDirlink)
  else do
    let v ← iput v [ip] dp
    pure (some ip, v)

/-- `create`; the inode that it returns is locked. -/
def create (cwd : Fin NINODE) (path : List UInt8) (type major minor : UInt16) :
    Except Stop (Option (Fin NINODE) × Vfs) := do
  let (parent, v) ← namex v cwd path true
  match parent with
  | none => pure (none, v)
  | some (dp, name) => do
      let v ← ilock v [] dp
      let (found, v) ← dirlookup (contentsOf dp) v name
      match found with
      | some (i, _) => do
          let (ip, v) ← vget v i
          let v ← iput v [] dp
          let v ← ilock v [] ip
          if type = T_FILE ∧ (v.node ip).type = T_FILE then pure (some ip, v)
          else do
            let v ← iput v [] ip
            pure (none, v)
      | none => createNew v dp name type major minor

/-- `sys_mkdir` and `sys_mknod`. -/
def sysMake (cwd : Fin NINODE) (path : List UInt8) (type major minor : UInt16) :
    Except Stop (Int × Vfs) := do
  let (made, v) ← create v cwd path type major minor
  match made with
  | none => pure (-1, v)
  | some ip => do
      let v ← iput v [] ip
      pure (0, v)

/-- `namei` and the two locks of `exec`; the file is loaded in between. -/
def sysExec (cwd : Fin NINODE) (path : List UInt8) (loads : Bool) : Except Stop (Int × Vfs) := do
  let (found, v) ← namex v cwd path false
  match found with
  | none => pure (-1, v)
  | some (ip, _) => do
      let v ← ilock v [] ip
      let v ← iput v [] ip
      pure (if loads then 0 else -1, v)

end

/-! ### Descriptors -/

/-- `FD_NONE`, `FD_PIPE` and `FD_INODE`. -/
inductive FileType where
  | none
  | pipe
  | inode
  deriving DecidableEq

structure File where
  type : FileType
  ref : Int
  readable : Bool
  writable : Bool
  ip : Fin NINODE
  off : UInt32

structure Proc where
  cwd : Fin NINODE
  ofile : Fin NOFILE → Option (Fin NFILE)

/-- A slot of `procs` without a process is free or a zombie's; either holds nothing. `parent` is set for the slots
that are not free, but for that of `initproc`. -/
structure Kernel where
  vfs : Vfs
  ftable : Fin NFILE → File
  procs : Fin NPROC → Option Proc
  parent : Fin NPROC → Option (Fin NPROC)
  zombie : Fin NPROC → Bool

abbrev O_RDONLY : UInt32 := 0
abbrev O_WRONLY : UInt32 := 1
abbrev O_RDWR : UInt32 := 2
abbrev O_CREATE : UInt32 := 512

def filealloc (s : Kernel) : Option (Fin NFILE) := (List.finRange NFILE).find? fun f => (s.ftable f).ref = 0

def fdalloc (p : Proc) : Option (Fin NOFILE) := (List.finRange NOFILE).find? fun fd => (p.ofile fd).isNone

def Proc.setFile (p : Proc) (fd : Fin NOFILE) (f : Option (Fin NFILE)) : Proc :=
  { p with ofile := update p.ofile fd f }

def Kernel.setProc (s : Kernel) (pid : Fin NPROC) (p : Option Proc) : Kernel :=
  { s with procs := update s.procs pid p }

def Kernel.setFile (s : Kernel) (f : Fin NFILE) (file : File) : Kernel :=
  { s with ftable := update s.ftable f file }

def Kernel.setRef (s : Kernel) (f : Fin NFILE) (ref : Int) : Kernel := s.setFile f { s.ftable f with ref := ref }

def filedup (s : Kernel) (f : Fin NFILE) : Except Stop Kernel :=
  if (s.ftable f).ref < 1 then .error (.panic .filedup) else .ok (s.setRef f ((s.ftable f).ref + 1))

def File.closed (file : File) : File := { file with ref := 0, type := .none }

/-- `fileclose`; of a pipe it changes nothing else that is here. -/
def fileclose (s : Kernel) (f : Fin NFILE) : Except Stop Kernel :=
  if (s.ftable f).ref < 1 then .error (.panic .fileclose)
  else if 1 < (s.ftable f).ref then .ok (s.setRef f ((s.ftable f).ref - 1))
  else
    let s' := s.setFile f (s.ftable f).closed
    match (s.ftable f).type with
    | .inode => do
        let v ← iput s.vfs [] (s.ftable f).ip
        pure { s' with vfs := v }
    | .pipe => .ok s'
    | .none => .ok s'

/-- The inode that `sys_open` opens, locked. -/
def openInode (v : Vfs) (cwd : Fin NINODE) (path : List UInt8) (omode : UInt32) :
    Except Stop (Option (Fin NINODE) × Vfs) :=
  if omode &&& O_CREATE ≠ 0 then create v cwd path T_FILE 0 0
  else do
    let (found, v) ← namex v cwd path false
    match found with
    | none => pure (none, v)
    | some (ip, _) => do
        let v ← ilock v [] ip
        if (v.node ip).type = T_DIR ∧ omode ≠ O_RDONLY then do
          let v ← iput v [] ip
          pure (none, v)
        else pure (some ip, v)

def openedFile (omode : UInt32) (ip : Fin NINODE) : File where
  type := .inode
  ref := 1
  readable := omode &&& O_WRONLY = 0
  writable := omode &&& O_WRONLY ≠ 0 ∨ omode &&& O_RDWR ≠ 0
  ip := ip
  off := 0

def sysOpen (s : Kernel) (pid : Fin NPROC) (p : Proc) (path : List UInt8) (omode : UInt32) :
    Except Stop (Int × Kernel) := do
  let (found, v) ← openInode s.vfs p.cwd path omode
  let s := { s with vfs := v }
  match found with
  | none => pure (-1, s)
  | some ip =>
    match filealloc s with
    | none => do
        let v ← iput s.vfs [] ip
        pure (-1, { s with vfs := v })
    | some f =>
      match fdalloc p with
      | none => do
          let s ← fileclose (s.setRef f 1) f
          let v ← iput s.vfs [] ip
          pure (-1, { s with vfs := v })
      | some fd => pure (fd.val, (s.setFile f (openedFile omode ip)).setProc pid (some (p.setFile fd (some f))))

def sysClose (s : Kernel) (pid : Fin NPROC) (p : Proc) (fd : Fin NOFILE) : Except Stop (Int × Kernel) :=
  match p.ofile fd with
  | none => .ok (-1, s)
  | some f => do
      let s ← fileclose (s.setProc pid (some (p.setFile fd none))) f
      pure (0, s)

def sysDup (s : Kernel) (pid : Fin NPROC) (p : Proc) (fd : Fin NOFILE) : Except Stop (Int × Kernel) :=
  match p.ofile fd with
  | none => .ok (-1, s)
  | some f =>
    match fdalloc p with
    | none => .ok (-1, s)
    | some fd' => do
        let s ← filedup (s.setProc pid (some (p.setFile fd' (some f)))) f
        pure (fd'.val, s)

/-- An end of a pipe, as `pipealloc` leaves it. -/
def pipeEnd (file : File) (writable : Bool) : File :=
  { file with type := .pipe, readable := !writable, writable := writable }

/-- `pipealloc`; `memory` says whether there is a page for the pipe. -/
def pipealloc (s : Kernel) (memory : Bool) : Except Stop (Option (Fin NFILE × Fin NFILE) × Kernel) :=
  match filealloc s with
  | none => .ok (none, s)
  | some f0 =>
    let s := s.setRef f0 1
    match filealloc s with
    | none => do
        let s ← fileclose s f0
        pure (none, s)
    | some f1 =>
      let s := s.setRef f1 1
      if ¬memory then do
        let s ← fileclose s f0
        let s ← fileclose s f1
        pure (none, s)
      else
        let s := s.setFile f0 (pipeEnd (s.ftable f0) false)
        .ok (some (f0, f1), s.setFile f1 (pipeEnd (s.ftable f1) true))

def sysPipe (s : Kernel) (pid : Fin NPROC) (p : Proc) (memory : Bool) : Except Stop (Int × Kernel) := do
  let (ends, s) ← pipealloc s memory
  match ends with
  | none => pure (-1, s)
  | some (rf, wf) =>
    match (do
      let fd0 ← fdalloc p
      let fd1 ← fdalloc (p.setFile fd0 (some rf))
      pure ((p.setFile fd0 (some rf)).setFile fd1 (some wf))) with
    | none => do
        let s ← fileclose s rf
        let s ← fileclose s wf
        pure (-1, s)
    | some p => pure (0, s.setProc pid (some p))

/-- `if(r > 0) f->off += r`. -/
def File.advance (file : File) (r : Int) : File :=
  { file with off := if 0 < r then file.off + UInt32.ofNat r.toNat else file.off }

/-- `fileread` of a process's descriptor. `answer` is what a pipe or a device returns. -/
def sysRead (s : Kernel) (p : Proc) (fd : Fin NOFILE) (n : UInt32) (answer : Int) : Except Stop (Int × Kernel) :=
  match p.ofile fd with
  | none => .ok (-1, s)
  | some f =>
    let file := s.ftable f
    if file.readable = false then .ok (-1, s)
    else
      match file.type with
      | .pipe => .ok (answer, s)
      | .inode => do
          let v ← ilock s.vfs [] file.ip
          let r := if (v.node file.ip).type = T_DEV then answer else (readArray (v.node file.ip).data file.off n).1
          pure (r, { s with vfs := v }.setFile f (file.advance r))
      | .none => .error (.panic .fileread)

abbrev MAXWRITE : Nat := 1536

/-- `writei` of a chunk to a device or a file. -/
def writeChunk (v : Vfs) (k : Fin NINODE) (answer : List UInt8 → Int) (chunk : List UInt8) (off : UInt32) :
    Except Stop (Int × Vfs) :=
  if (v.node k).type = T_DEV then .ok (answer chunk, v) else (contentsOf k).writei v chunk off

/-- The loop of `filewrite`, and whether it wrote everything. `answer` is what a device returns for a chunk. -/
def writeLoop (f : Fin NFILE) (answer : List UInt8 → Int) : Nat → Kernel → List UInt8 → Except Stop (Bool × Kernel)
  | 0, s, _ => .ok (true, s)
  | fuel + 1, s, src =>
    if src = [] then .ok (true, s)
    else do
      let file := s.ftable f
      let chunk := src.take MAXWRITE
      let v ← ilock s.vfs [] file.ip
      let (r, v) ← writeChunk v file.ip answer chunk file.off
      let s := { s with vfs := v }.setFile f (file.advance r)
      if r < 0 then pure (false, s)
      else if r ≠ chunk.length then throw (.panic .shortFilewrite)
      else writeLoop f answer fuel s (src.drop MAXWRITE)

def sysWrite (s : Kernel) (p : Proc) (fd : Fin NOFILE) (src : List UInt8) (answer : List UInt8 → Int) :
    Except Stop (Int × Kernel) :=
  match p.ofile fd with
  | none => .ok (-1, s)
  | some f =>
    if (s.ftable f).writable = false then .ok (-1, s)
    else
      match (s.ftable f).type with
      | .pipe => .ok (answer src, s)
      | .inode => do
          let (done, s) ← writeLoop f answer src.length s src
          pure (if done then src.length else -1, s)
      | .none => .error (.panic .filewrite)

/-! ### Processes -/

def sysChdir (s : Kernel) (pid : Fin NPROC) (p : Proc) (path : List UInt8) : Except Stop (Int × Kernel) := do
  let (found, v) ← namex s.vfs p.cwd path false
  match found with
  | none => pure (-1, { s with vfs := v })
  | some (ip, _) => do
      let v ← ilock v [] ip
      if (v.node ip).type ≠ T_DIR then do
        let v ← iput v [] ip
        pure (-1, { s with vfs := v })
      else do
        let v ← iput v [] p.cwd
        pure (0, { s with vfs := v }.setProc pid (some { p with cwd := ip }))

/-- `filedup` of every open file of a process. -/
def dupFiles (s : Kernel) (p : Proc) : Except Stop Kernel :=
  (List.finRange NOFILE).foldlM (fun s fd =>
    match p.ofile fd with
    | none => pure s
    | some f => filedup s f) s

/-- `fork`; `memory` says whether the memory for the child is there. -/
def sysFork (s : Kernel) (pid : Fin NPROC) (p : Proc) (memory : Bool) : Except Stop (Int × Kernel) :=
  match (List.finRange NPROC).find? fun q => (s.procs q).isNone ∧ s.zombie q = false with
  | none => .ok (-1, s)
  | some q =>
    if ¬memory then .ok (-1, s)
    else do
      let s ← dupFiles s p
      let s := { s with vfs := idup s.vfs p.cwd, parent := update s.parent q (some pid) }
      pure (q.val, s.setProc q (some p))

abbrev INIT : Fin NPROC := Procs.INITPROC

/-- `exit`, up to the scheduler: close the files, leave the directory, pass the children to `initproc`. -/
def sysExit (s : Kernel) (pid : Fin NPROC) : Except Stop (Int × Kernel) := do
  if pid = INIT then throw (.panic .initExiting)
  let s ← (List.finRange NOFILE).foldlM (fun s fd =>
    match s.procs pid with
    | none => pure s
    | some p => do
        let (_, s) ← sysClose s pid p fd
        pure s) s
  match s.procs pid with
  | none => pure (0, s)
  | some p => do
      let v ← iput s.vfs [] p.cwd
      let s := { s with
        vfs := v
        parent := fun q => if s.parent q = some pid then some INIT else s.parent q
        zombie := update s.zombie pid true }
      pure (0, s.setProc pid none)

/-- `wait`; `killed` is the flag of the process. Without a zombie to reap it sleeps, and nothing wakes it in a run of
calls one after another. -/
def sysWait (s : Kernel) (pid : Fin NPROC) (killed : Bool) : Except Stop (Int × Kernel) :=
  match (List.finRange NPROC).find? fun q => s.parent q = some pid ∧ s.zombie q with
  | some q => .ok (q.val, { s with parent := update s.parent q none, zombie := update s.zombie q false })
  | none => if (∀ q, s.parent q ≠ some pid) ∨ killed then .ok (-1, s) else .error .deadlock

/-! ### Calls -/

/-- A path argument; `none` if `argstr` fails. -/
abbrev Arg := Option (List UInt8)

/-- A descriptor; `none` if it is out of range. -/
abbrev Fd := Option (Fin NOFILE)

inductive Op where
  | link (old new : Arg)
  | unlink (path : Arg)
  | mkdir (path : Arg)
  | mknod (path : Arg) (major minor : UInt16)
  | open (path : Arg) (omode : UInt32)
  | chdir (path : Arg)
  | close (fd : Fd)
  | fork (memory : Bool)
  | exit
  | wait (killed : Bool)
  | dup (fd : Fd)
  | pipe (memory : Bool)
  | read (fd : Fd) (n : UInt32) (answer : Int)
  | write (fd : Fd) (src : List UInt8) (answer : List UInt8 → Int)
  | exec (path : Arg) (loads : Bool)
  /-- A call whose other arguments are rejected. -/
  | rejected

/-- A call on paths alone. -/
def withVfs (s : Kernel) (x : Except Stop (Int × Vfs)) : Except Stop (Int × Kernel) := do
  let (r, v) ← x
  pure (r, { s with vfs := v })

/-- The call `op` of process `pid`; nothing happens if there is no such process. -/
def call (s : Kernel) (pid : Fin NPROC) (op : Op) : Except Stop (Int × Kernel) :=
  match s.procs pid with
  | none => .ok (-1, s)
  | some p =>
    match op with
    | .link (some old) (some new) => withVfs s (sysLink s.vfs p.cwd old new)
    | .link _ _ => .ok (-1, s)
    | .unlink (some path) => withVfs s (sysUnlink s.vfs p.cwd path)
    | .unlink none => .ok (-1, s)
    | .mkdir (some path) => withVfs s (sysMake s.vfs p.cwd path T_DIR 0 0)
    | .mkdir none => .ok (-1, s)
    | .mknod (some path) major minor => withVfs s (sysMake s.vfs p.cwd path T_DEV major minor)
    | .mknod none _ _ => .ok (-1, s)
    | .open (some path) omode => sysOpen s pid p path omode
    | .open none _ => .ok (-1, s)
    | .chdir (some path) => sysChdir s pid p path
    | .chdir none => .ok (-1, s)
    | .close (some fd) => sysClose s pid p fd
    | .close none => .ok (-1, s)
    | .fork memory => sysFork s pid p memory
    | .exit => sysExit s pid
    | .wait killed => sysWait s pid killed
    | .dup (some fd) => sysDup s pid p fd
    | .dup none => .ok (-1, s)
    | .pipe memory => sysPipe s pid p memory
    | .read (some fd) n answer => sysRead s p fd n answer
    | .read none _ _ => .ok (-1, s)
    | .write (some fd) src answer => sysWrite s p fd src answer
    | .write none _ _ => .ok (-1, s)
    | .exec (some path) loads => withVfs s (sysExec s.vfs p.cwd path loads)
    | .exec none _ => .ok (-1, s)
    | .rejected => .ok (-1, s)

def run (s : Kernel) (calls : List (Fin NPROC × Op)) : Except Stop Kernel :=
  calls.foldlM (fun s c => do
    let (_, s) ← call s c.1 c.2
    pure s) s

/-- The state that `userinit` leaves: `initproc` is in the root directory. -/
def Kernel.boot (nodes : Nodes) : Kernel where
  vfs :=
    { nodes := nodes
      icache := update (fun _ => { inum := 0, ref := 0, valid := false, copy := () }) firstEntry
        { inum := ROOTINO, ref := 1, valid := false, copy := () } }
  ftable := fun _ => { type := .none, ref := 0, readable := false, writable := false, ip := firstEntry, off := 0 }
  procs := update (fun _ => none) INIT (some { cwd := firstEntry, ofile := fun _ => none })
  parent := fun _ => none
  zombie := fun _ => false

end Laboratorio.Sys
