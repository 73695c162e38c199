import Laboratorio.SysDescriptors

/-! Reference counts. Whatever is on the disk, a call that completes gives back every reference to the inode cache
that it took and did not hand to a process or a file. -/

namespace Laboratorio.Sys

open Function

open Fs

abbrev Any (_ : Stop) : Prop := True

abbrev Anywhere (_ : Fin NINODE) : Prop := True

variable {v v' : Vfs} {m : Counts} {k l : Fin NINODE}

/-! ### The cache -/

theorem Counted.icache (h : Counted v m) (hsame : v'.icache = v.icache) : Counted v' m := by
  apply h.congr
  intro k
  rw [hsame]
  exact ⟨rfl, rfl⟩

theorem Counted.idup (h : Counted v m) (hk : 0 < m k) : Counted (idup v k) (hold m k) := by
  rw [hold_eq_update]
  refine h.assign (e := { v.icache k with ref := (v.icache k).ref + 1 }) ?_
    (fun l hlk hl heq => hlk (h.unique l k hl hk heq)) v.nodes
  dsimp only
  rw [h.ref k]
  exact (Int.natCast_succ (m k)).symm

theorem Counted.vget (h : Counted v m) (i : Nat) : Ends Any (vget v i) fun r => Counted r.2 (hold m r.1) := by
  unfold Sys.vget
  cases hrun : iget v.icache i with
  | error e => exact .stop trivial
  | ok r =>
    obtain ⟨k, c⟩ := r
    refine .ok ?_
    rcases iget_cases hrun with ⟨href, hinum, rfl⟩ | ⟨hnone, href, rfl⟩
    · exact h.idup (h.ref_pos.mp href)
    · rw [h.ref k] at href
      rw [hold_eq_update, Int.natCast_eq_zero.mp href]
      exact h.assign rfl (fun l _ hl => hnone l (h.ref_pos.mpr hl)) v.nodes

theorem Counted.ilock (h : Counted v m) (held : List (Fin NINODE)) (k : Fin NINODE) :
    Ends Any (ilock v held k) fun v' => Counted v' m := by
  unfold Sys.ilock
  split
  · exact .stop trivial
  split
  · exact .stop trivial
  split
  · exact .ok h
  split
  · exact .stop trivial
  · refine .ok (h.congr fun l => ?_)
    dsimp only
    by_cases hlk : l = k
    · rw [hlk, update_self]
      exact ⟨rfl, rfl⟩
    · rw [update_of_ne hlk]
      exact ⟨rfl, rfl⟩

theorem Counted.iput (h : Counted v (hold m k)) (held : List (Fin NINODE)) :
    Ends Any (iput v held k) fun v' => Counted v' m := by
  unfold Sys.iput
  split
  · exact .stop trivial
  split
  · exact .ok (h.congr (ifree_same v k)).unref
  · exact .ok h.unref

theorem Counted.bears : Bears Any Counted where
  fair _ _ := trivial
  iput h := h.iput []
  idup h hk := h.idup hk
  ilock h _ := h.ilock [] _

/-! ### Directories -/

theorem findDirent_any (p : Panic) (test : Dirent → Bool) (fuel off : Nat) :
    Ends Any (findDirent (contentsOf k) p test fuel v off) fun r => r.2.2 = v := by
  have hread : ∀ off n, ∃ r, (contentsOf k).readi v off n = .ok (r, v) := fun off n => ⟨_, rfl⟩
  obtain ⟨found, off', hrun⟩ | hrun := findDirent_same (contentsOf k) hread fuel off
  · rw [hrun]
    exact .ok rfl
  · rw [hrun]
    exact .stop trivial

theorem dirlookup_any (name : List UInt8) : Ends Any (dirlookup (contentsOf k) v name) fun r => r.2 = v := by
  unfold dirlookup
  split
  · exact .stop trivial
  · exact (findDirent_any _ _ _ _).bind fun r hr => .ok hr

theorem isdirempty_any : Ends Any (isdirempty (contentsOf k) v) fun r => r.2 = v :=
  (findDirent_any _ _ _ _).bind fun _ hr => .ok hr

theorem addDirent_any (name : List UInt8) (inum : Nat) :
    Ends Any (addDirent (contentsOf k) v name inum) fun v' => v'.icache = v.icache := by
  unfold addDirent
  refine (findDirent_any _ _ _ _).bind ?_
  rintro ⟨found, off, v₁⟩ hv₁
  obtain rfl : v₁ = v := hv₁
  refine (writei_ends trivial _ _).bind ?_
  rintro ⟨r, v₂⟩ ⟨-, hv₂⟩
  dsimp only at hv₂ ⊢
  split
  · exact .stop trivial
  · rw [hv₂]
    exact .ok rfl

theorem Counted.dirlink (h : Counted v m) (held : List (Fin NINODE)) (k : Fin NINODE) (name : List UInt8) (inum : Nat) :
    Ends Any (dirlink v held k name inum) fun r => Counted r.2 m := by
  unfold Sys.dirlink
  refine (dirlookup_any name).bind ?_
  rintro ⟨found, v₁⟩ hv₁
  obtain rfl : v₁ = v := hv₁
  dsimp only
  cases found with
  | none => exact (addDirent_any name inum).bind fun v' hv' => .ok (h.icache hv')
  | some entry =>
    refine (h.vget entry.1).bind fun r hr => ?_
    exact (hr.iput held).bind fun v' hv' => .ok hv'

/-! ### Paths -/

theorem Counted.namexLoop (h : Counted v (hold m k)) (nameiparent : Bool) (fuel : Nat) (path : List UInt8) :
    Ends Any (namexLoop inodes nameiparent fuel v k path) fun r => Counted r.2 (found m (r.1.map Prod.fst)) := by
  induction fuel generalizing v k path with
  | zero => exact .ok h
  | succ fuel ih =>
    rw [Fs.namexLoop]
    cases skipelem path with
    | none =>
      dsimp only
      split
      · exact (h.iput []).bind fun v' hv' => .ok hv'
      · exact .ok h
    | some r =>
      obtain ⟨name, rest⟩ := r
      dsimp only
      refine (h.ilock [] k).bind fun v₁ hv₁ => ?_
      split
      · exact (hv₁.iput []).bind fun v' hv' => .ok hv'
      split
      · exact .ok hv₁
      refine (dirlookup_any (k := k) name).bind ?_
      rintro ⟨entry, v₂⟩ hv₂
      obtain rfl : v₂ = v₁ := hv₂
      dsimp only
      cases entry with
      | none => exact (hv₁.iput []).bind fun v' hv' => .ok hv'
      | some entry =>
        refine (hv₁.vget entry.1).bind ?_
        rintro ⟨next, v₃⟩ hv₃
        dsimp only at hv₃ ⊢
        rw [hold_comm] at hv₃
        exact (hv₃.iput []).bind fun v₄ hv₄ => ih hv₄ rest

variable {cwd : Fin NINODE}

theorem Counted.namex (h : Counted v m) (hcwd : 0 < m cwd) (path : List UInt8) (nameiparent : Bool) :
    Ends Any (namex v cwd path nameiparent) fun r => Counted r.2 (found m (r.1.map Prod.fst)) := by
  unfold Sys.namex Fs.namex
  split
  · exact (h.vget ROOTINO).bind fun r hr => hr.namexLoop nameiparent _ path
  · rw [pure_eq_ok, ok_bind]
    exact (h.idup hcwd).namexLoop nameiparent _ path

/-- A call that begins with `namex`: by cases on whether the path leads to an inode. -/
theorem Counted.resolve {α : Type} {Q : α → Prop} {f : Option (Fin NINODE × List UInt8) × Vfs → Except Stop α}
    (h : Counted v m) (hcwd : 0 < m cwd) (path : List UInt8) (nameiparent : Bool)
    (hmissing : ∀ v₁, Counted v₁ m → Ends Any (f (none, v₁)) Q)
    (hfound : ∀ ip name v₁, Counted v₁ (hold m ip) → Ends Any (f (some (ip, name), v₁)) Q) :
    Ends Any (Sys.namex v cwd path nameiparent >>= f) Q := by
  refine (h.namex hcwd path nameiparent).bind ?_
  rintro ⟨r, v₁⟩ hv₁
  cases r with
  | none => exact hmissing v₁ hv₁
  | some r => exact hfound r.1 r.2 v₁ hv₁

/-! ### The calls on paths -/

theorem Counted.modify (h : Counted v m) (k : Fin NINODE) (g : Node → Node) : Counted (v.modify k g) m := h.icache rfl

theorem Counted.linkEntry (h : Counted v m) (hcwd : 0 < m cwd) (ip : Fin NINODE) (new : List UInt8) :
    Ends Any (linkEntry v cwd ip new) fun r => Counted r.2 m := by
  unfold Sys.linkEntry
  refine h.resolve hcwd new true (fun v₁ hv₁ => .ok hv₁) fun dp name v₁ hv₁ => ?_
  dsimp only
  refine (hv₁.ilock [] dp).bind fun v₂ hv₂ => ?_
  refine (hv₂.dirlink [dp] dp name _).bind fun r hr => ?_
  exact (Counted.iput hr []).bind fun v' hv' => .ok hv'

theorem Counted.sysLink (h : Counted v m) (hcwd : 0 < m cwd) (old new : List UInt8) :
    Ends Any (sysLink v cwd old new) fun r => Counted r.2 m := by
  unfold Sys.sysLink
  refine h.resolve hcwd old false (fun v₁ hv₁ => .ok hv₁) fun ip name v₁ hv₁ => ?_
  dsimp only
  refine (hv₁.ilock [] ip).bind fun v₂ hv₂ => ?_
  split
  · exact (hv₂.iput []).bind fun v' hv' => .ok hv'
  refine ((hv₂.modify ip _).linkEntry (hold_mono hcwd) ip new).bind ?_
  rintro ⟨r, v₃⟩ hv₃
  dsimp only at hv₃ ⊢
  split
  · refine (hv₃.ilock [] ip).bind fun v₄ hv₄ => ?_
    exact ((hv₄.modify ip _).iput []).bind fun v' hv' => .ok hv'
  · exact (hv₃.iput []).bind fun v' hv' => .ok hv'

theorem removable_any (ip : Fin NINODE) : Ends Any (removable v ip) fun r => r.2 = v := by
  unfold removable
  split
  · exact isdirempty_any
  · exact .ok rfl

theorem Counted.unlinkPut {dp ip : Fin NINODE} (h : Counted v (hold (hold m dp) ip)) :
    Ends Any (unlinkPut v dp ip) fun r => Counted r.2 m := by
  rw [hold_comm] at h
  refine (h.iput [ip]).bind fun v₁ hv₁ => ?_
  exact ((hv₁.modify ip _).iput []).bind fun v' hv' => .ok hv'

theorem Counted.unlinkEntry {dp ip : Fin NINODE} (h : Counted v (hold (hold m dp) ip)) (off : Nat) :
    Ends Any (unlinkEntry v dp ip off) fun r => Counted r.2 m := by
  unfold Sys.unlinkEntry
  split
  · exact .stop trivial
  refine (removable_any ip).bind fun r hr => ?_
  obtain ⟨empty, v₁⟩ := r
  obtain rfl : v₁ = v := hr
  dsimp only
  split
  · refine (h.iput [dp]).bind fun v₂ hv₂ => ?_
    exact (hv₂.iput []).bind fun v' hv' => .ok hv'
  refine (writei_ends trivial _ _).bind fun r hr => ?_
  obtain ⟨r, v₂⟩ := r
  have hr := hr.2
  dsimp only at hr ⊢
  have hcleared : Counted v₂ (hold (hold m dp) ip) := by
    rw [hr]
    exact h.icache rfl
  split
  · exact .stop trivial
  split
  · exact (hcleared.modify dp _).unlinkPut
  · exact hcleared.unlinkPut

theorem Counted.sysUnlink (h : Counted v m) (hcwd : 0 < m cwd) (path : List UInt8) :
    Ends Any (sysUnlink v cwd path) fun r => Counted r.2 m := by
  unfold Sys.sysUnlink
  refine h.resolve hcwd path true (fun v₁ hv₁ => .ok hv₁) fun dp name v₁ hv₁ => ?_
  dsimp only
  refine (hv₁.ilock [] dp).bind fun v₂ hv₂ => ?_
  split
  · exact (hv₂.iput []).bind fun v' hv' => .ok hv'
  refine (dirlookup_any (k := dp) name).bind ?_
  rintro ⟨entry, v₃⟩ hv₃
  obtain rfl : v₃ = v₂ := hv₃
  cases entry with
  | none => exact (hv₂.iput []).bind fun v' hv' => .ok hv'
  | some entry =>
    obtain ⟨i, off⟩ := entry
    dsimp only
    refine (hv₂.vget i).bind ?_
    rintro ⟨ip, v₄⟩ hv₄
    dsimp only at hv₄ ⊢
    refine (hv₄.ilock [dp] ip).bind fun v₅ hv₅ => ?_
    exact hv₅.unlinkEntry off

theorem Counted.makeDots (h : Counted v m) (dp ip : Fin NINODE) (type : UInt16) :
    Ends Any (makeDots v dp ip type) fun v' => Counted v' m := by
  unfold Sys.makeDots
  split
  · exact .ok h
  refine ((h.modify dp _).dirlink [dp, ip] ip dot _).bind ?_
  rintro ⟨r, v₁⟩ hv₁
  dsimp only at hv₁ ⊢
  split
  · exact .stop trivial
  refine (hv₁.dirlink [dp, ip] ip dotdot _).bind ?_
  rintro ⟨r', v₂⟩ hv₂
  dsimp only at hv₂ ⊢
  split
  · exact .stop trivial
  · exact .ok hv₂

theorem Counted.ialloc (h : Counted v m) (type : UInt16) :
    Ends Any (ialloc v type) fun r => Counted r.2 (hold m r.1) := by
  unfold Sys.ialloc
  split
  · rename_i i _
    have hblank : Counted { v with nodes := update v.nodes i (Node.blank type) } m := h.icache rfl
    exact hblank.vget i
  · exact .stop trivial

theorem Counted.createNew {dp : Fin NINODE} (h : Counted v (hold m dp)) (name : List UInt8)
    (type major minor : UInt16) : Ends Any (createNew v dp name type major minor) fun r =>
    Counted r.2 (found m r.1) := by
  unfold Sys.createNew
  refine (h.ialloc type).bind fun r hr => ?_
  obtain ⟨ip, v₁⟩ := r
  dsimp only at hr ⊢
  refine (hr.ilock [dp] ip).bind fun v₂ hv₂ => ?_
  refine ((hv₂.modify ip _).makeDots dp ip type).bind fun v₃ hv₃ => ?_
  refine (hv₃.dirlink [dp, ip] dp name _).bind fun r hr => ?_
  obtain ⟨r, v₄⟩ := r
  dsimp only at hr ⊢
  split
  · exact .stop trivial
  rw [hold_comm] at hr
  exact (hr.iput [ip]).bind fun v' hv' => .ok hv'

section

variable (h : Counted v m) {cwd : Fin NINODE} (hcwd : 0 < m cwd) (path : List UInt8)

include h hcwd

theorem Counted.create (type major minor : UInt16) :
    Ends Any (create v cwd path type major minor) fun r => Counted r.2 (found m r.1) := by
  unfold Sys.create
  refine h.resolve hcwd path true (fun v₁ hv₁ => .ok hv₁) fun dp name v₁ hv₁ => ?_
  dsimp only
  refine (hv₁.ilock [] dp).bind fun v₂ hv₂ => ?_
  refine (dirlookup_any (k := dp) name).bind ?_
  rintro ⟨entry, v₃⟩ hv₃
  obtain rfl : v₃ = v₂ := hv₃
  cases entry with
  | some entry =>
    obtain ⟨i, off⟩ := entry
    dsimp only
    refine (hv₂.vget i).bind ?_
    rintro ⟨ip, v₄⟩ hv₄
    dsimp only at hv₄ ⊢
    rw [hold_comm] at hv₄
    refine (hv₄.iput []).bind fun v₅ hv₅ => ?_
    refine (hv₅.ilock [] ip).bind fun v₆ hv₆ => ?_
    split
    · exact .ok hv₆
    · exact (hv₆.iput []).bind fun v' hv' => .ok hv'
  | none =>
    exact hv₂.createNew name type major minor

theorem Counted.sysMake (type major minor : UInt16) :
    Ends Any (sysMake v cwd path type major minor) fun r => Counted r.2 m := by
  unfold Sys.sysMake
  refine (h.create hcwd path type major minor).bind ?_
  rintro ⟨made, v₁⟩ hv₁
  cases made with
  | none => exact .ok hv₁
  | some ip => exact (Counted.iput hv₁ []).bind fun v' hv' => .ok hv'

theorem Counted.openInode (omode : UInt32) :
    Ends Any (openInode v cwd path omode) fun r => Counted r.2 (found m r.1) := by
  unfold Sys.openInode
  split
  · exact h.create hcwd path T_FILE 0 0
  refine h.resolve hcwd path false (fun v₁ hv₁ => .ok hv₁) fun ip name v₁ hv₁ => ?_
  dsimp only
  refine (hv₁.ilock [] ip).bind fun v₂ hv₂ => ?_
  split
  · exact (hv₂.iput []).bind fun v' hv' => .ok hv'
  · exact .ok hv₂

theorem Counted.sysExec (loads : Bool) :
    Ends Any (sysExec v cwd path loads) fun r => Counted r.2 m := by
  unfold Sys.sysExec
  refine h.resolve hcwd path false (fun v₁ hv₁ => .ok hv₁) fun ip name v₁ hv₁ => ?_
  dsimp only
  refine (hv₁.ilock [] ip).bind fun v₂ hv₂ => ?_
  exact (hv₂.iput []).bind fun v' hv' => .ok hv'

end

/-! ### Runs -/

variable {s : Kernel}

theorem Exactly.call (h : Exactly Counted Anywhere s) (pid : Fin NPROC) (op : Op) :
    Ends Any (call s pid op) fun r => Exactly Counted Anywhere r.2 := by
  unfold Sys.call
  cases hp : s.procs pid with
  | none => exact .ok h
  | some p =>
    have hcwd := s.uses_cwd hp
    have hinodes := h.inodes
    cases op with
    | link old new =>
      cases old with
      | none => exact .ok h
      | some old =>
        cases new with
        | none => exact .ok h
        | some new => exact h.withVfs (hinodes.sysLink hcwd old new)
    | unlink path =>
      cases path with
      | none => exact .ok h
      | some path => exact h.withVfs (hinodes.sysUnlink hcwd path)
    | mkdir path =>
      cases path with
      | none => exact .ok h
      | some path => exact h.withVfs (hinodes.sysMake hcwd path T_DIR 0 0)
    | mknod path major minor =>
      cases path with
      | none => exact .ok h
      | some path => exact h.withVfs (hinodes.sysMake hcwd path T_DEV major minor)
    | «open» path omode =>
      cases path with
      | none => exact .ok h
      | some path =>
        refine (h.open Counted.bears hp (Q := fun _ _ => True) ((hinodes.openInode hcwd path omode).mono fun r hr =>
          ?_)).mono fun r hr => ?_
        · exact ⟨hr, fun _ _ _ => trivial⟩
        obtain ⟨w, hw, -⟩ := hr
        exact hw.mono fun _ _ => trivial
    | chdir path =>
      cases path with
      | none => exact .ok h
      | some path => exact h.chdir Counted.bears hp (hinodes.namex hcwd path false)
    | close fd =>
      cases fd with
      | none => exact .ok h
      | some fd => exact (h.close Counted.bears hp fd).mono fun r hr => hr.1
    | fork memory => exact h.fork Counted.bears hp memory
    | exit => exact h.exit Counted.bears hp
    | wait killed => exact h.wait Counted.bears pid killed
    | dup fd =>
      cases fd with
      | none => exact .ok h
      | some fd => exact h.dup Counted.bears hp fd
    | pipe memory => exact h.pipe Counted.bears hp memory
    | read fd n answer =>
      cases fd with
      | none => exact .ok h
      | some fd => exact h.read Counted.bears hp fd n answer
    | write fd src answer =>
      cases fd with
      | none => exact .ok h
      | some fd => exact h.write Counted.bears hp (fun _ hv _ _ _ => hv.modify _ _) fd src answer
    | exec path loads =>
      cases path with
      | none => exact .ok h
      | some path => exact h.withVfs (hinodes.sysExec hcwd path loads)
    | rejected => exact .ok h

theorem Counted.boot (nodes : Nodes) : Counted (Kernel.boot nodes).vfs (hold 0 0) := by
  refine ⟨fun k => ?_, fun k l hk hl _ => ?_⟩
  · dsimp only [Kernel.boot]
    by_cases hk : k = 0
    · rw [hk, update_self, hold_self]
      rfl
    · rw [update_of_ne hk, hold_of_ne hk]
      rfl
  · calc k = 0 := (hold_pos.mp hk).resolve_left (Nat.lt_irrefl 0)
      _ = l := ((hold_pos.mp hl).resolve_left (Nat.lt_irrefl 0)).symm

theorem Exactly.run (h : Exactly Counted Anywhere s) (calls : List (Fin NPROC × Op)) :
    Ends Any (run s calls) (Exactly Counted Anywhere) :=
  Ends.foldlM (fun _ c hs => (hs.call c.1 c.2).bind fun _ hr => .ok hr) calls h

/-- After any calls that complete, and whatever the disk holds: a file counts the descriptors that have it, a cached
inode the open files and the working directories that are it, and no inode is cached twice. -/
theorem references_exact (nodes : Nodes) {calls : List (Fin NPROC × Op)} {s : Kernel}
    (hrun : run (Kernel.boot nodes) calls = .ok s) :
      (∀ f, (s.ftable f).ref = s.opens f) ∧ (∀ k, (s.vfs.icache k).ref = s.uses k) ∧ ∀ k l, 0 < (s.vfs.icache k).ref →
      0 < (s.vfs.icache l).ref → (s.vfs.icache k).inum = (s.vfs.icache l).inum → k = l := by
  have hs : Exactly Counted Anywhere s := ((Exactly.boot (Counted.boot nodes)).run calls).of_ok hrun
  exact ⟨hs.files, hs.inodes.ref, hs.inodes.once⟩

def bareRoot : Nodes := fun i =>
  if i = ROOTINO then
    { type := T_DIR, major := 0, minor := 0, nlink := 1, data := (entry dot ROOTINO).encode ++
    (entry dotdot ROOTINO).encode }
  else Node.blank 0

/-- A directory opened, a descriptor copied, a directory made; a child that exits; a pipe for which there is no memory.
-/
def someCalls : List (Fin NPROC × Op) :=
  [(INIT, .open (some [SLASH]) O_RDONLY), (INIT, .dup (some 0)), (INIT, .mkdir (some [97])), (INIT, .fork true),
    (Procs.slot 1, .chdir (some [97])), (Procs.slot 1, .exit), (INIT, .wait false), (INIT, .pipe false)]

theorem references_exact_someCalls : ∃ s, run (Kernel.boot bareRoot) someCalls = .ok s ∧ (s.vfs.icache 0).ref = 2 ∧
    (∀ f, (s.ftable f).ref = s.opens f) ∧ (∀ k, (s.vfs.icache k).ref = s.uses k) ∧
    ∀ k l, 0 < (s.vfs.icache k).ref → 0 < (s.vfs.icache l).ref → (s.vfs.icache k).inum = (s.vfs.icache l).inum →
    k = l := by
  have hends : ∃ s, run (Kernel.boot bareRoot) someCalls = .ok s ∧ (s.vfs.icache 0).ref = 2 := by decide +kernel
  obtain ⟨s, hrun, href⟩ := hends
  exact ⟨s, hrun, href, references_exact bareRoot hrun⟩

end Laboratorio.Sys
