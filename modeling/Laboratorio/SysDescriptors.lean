import Mathlib.Algebra.BigOperators.Fin
import Laboratorio.Counting
import Laboratorio.SysRefs

/-! Descriptors and working directories. An open file counts the descriptors of processes that have it, and an inode
of the cache counts the open files and the working directories that are it. What else is asked of the inodes and of
the cache is left open: `Bears` lists what the calls do with them. -/

namespace Laboratorio.Sys

open Function

open Fs

/-! ### Counts -/

def Proc.opens (p : Proc) (f : Fin NFILE) : Nat := ∑ fd, if p.ofile fd = some f then 1 else 0

def slotOpens (f : Fin NFILE) : Option Proc → Nat
  | none => 0
  | some p => p.opens f

def slotCwd (k : Fin NINODE) : Option Proc → Nat
  | none => 0
  | some p => if p.cwd = k then 1 else 0

/-- An open file of type `FD_INODE` refers to its inode. -/
def File.refers (k : Fin NINODE) (file : File) : Nat := if file.type = .inode ∧ 0 < file.ref ∧ file.ip = k then 1 else 0

variable {pid : Fin NPROC} {f : Fin NFILE} {p : Proc}

namespace Kernel

def opens (s : Kernel) (f : Fin NFILE) : Nat := ∑ pid, slotOpens f (s.procs pid)

def uses (s : Kernel) (k : Fin NINODE) : Nat := ∑ f, (s.ftable f).refers k + ∑ pid, slotCwd k (s.procs pid)

variable (s : Kernel)

theorem opens_setProc (pid : Fin NPROC) (o : Option Proc) (f : Fin NFILE) :
    (s.setProc pid o).opens f + slotOpens f (s.procs pid) = s.opens f + slotOpens f o :=
  sum_update s.procs pid o (slotOpens f)

theorem uses_setProc (pid : Fin NPROC) (o : Option Proc) (k : Fin NINODE) :
    (s.setProc pid o).uses k + slotCwd k (s.procs pid) = s.uses k + slotCwd k o := by
  have hsum := sum_update s.procs pid o (slotCwd k)
  unfold uses
  dsimp only [setProc]
  omega

theorem uses_setFile (f : Fin NFILE) (file : File) (k : Fin NINODE) :
    (s.setFile f file).uses k + (s.ftable f).refers k = s.uses k + file.refers k := by
  have hsum := sum_update s.ftable f file (File.refers k)
  unfold uses
  dsimp only [setFile]
  omega

theorem uses_setFile_same {file : File} (h : ∀ k, file.refers k = (s.ftable f).refers k) :
    (s.setFile f file).uses = s.uses := by
  funext k
  have hsum := s.uses_setFile f file k
  rw [h k] at hsum
  exact Nat.add_right_cancel hsum

theorem refers_closed (file : File) (k : Fin NINODE) : file.closed.refers k = 0 := if_neg fun hc => nomatch hc.1

theorem uses_closed (htype : (s.ftable f).type ≠ .inode) : (s.setFile f (s.ftable f).closed).uses = s.uses := by
  apply s.uses_setFile_same
  intro k
  rw [refers_closed, File.refers, if_neg fun hc => htype hc.1]

theorem uses_closed_inode (htype : (s.ftable f).type = .inode) (hopen : 0 < (s.ftable f).ref) :
    s.uses = hold (s.setFile f (s.ftable f).closed).uses (s.ftable f).ip := by
  apply eq_hold
  intro k
  have hsum := s.uses_setFile f (s.ftable f).closed k
  have hrefers : (s.ftable f).refers k = if k = (s.ftable f).ip then 1 else 0 :=
    if_congr ⟨fun hc => hc.2.2.symm, fun hc => ⟨htype, hopen, hc.symm⟩⟩ rfl rfl
  rw [refers_closed, hrefers, Nat.add_zero] at hsum
  exact hsum.symm

theorem uses_setDescriptor (hp : s.procs pid = some p) (fd : Fin NOFILE) (o : Option (Fin NFILE)) :
    (s.setProc pid (some (p.setFile fd o))).uses = s.uses := by
  funext k
  have hsum := s.uses_setProc pid (some (p.setFile fd o)) k
  rw [hp] at hsum
  exact Nat.add_right_cancel hsum

theorem uses_cwd (hp : s.procs pid = some p) : 0 < s.uses p.cwd := by
  have hle : slotCwd p.cwd (s.procs pid) ≤ ∑ q, slotCwd p.cwd (s.procs q) :=
    Finset.single_le_sum (f := fun q => slotCwd p.cwd (s.procs q)) (fun _ _ => Nat.zero_le _) (Finset.mem_univ pid)
  rw [hp, slotCwd, if_pos rfl] at hle
  unfold uses
  omega

end Kernel

theorem Proc.opens_setFile (p : Proc) (fd : Fin NOFILE) (o : Option (Fin NFILE)) (f : Fin NFILE) :
    (p.setFile fd o).opens f + (if p.ofile fd = some f then 1 else 0) = p.opens f + if o = some f then 1 else 0 :=
  sum_update p.ofile fd o fun x => if x = some f then 1 else 0

variable {fd : Fin NOFILE}

theorem Kernel.opens_take (s : Kernel) (hp : s.procs pid = some p)
    (hfd : p.ofile fd = none) (f : Fin NFILE) :
    (s.setProc pid (some (p.setFile fd (some f)))).opens = hold s.opens f := by
  apply eq_hold
  intro g
  have hsum := s.opens_setProc pid (some (p.setFile fd (some f))) g
  have hfile := p.opens_setFile fd (some f) g
  rw [hp, slotOpens, slotOpens] at hsum
  rw [hfd, if_neg (show ¬none = some g from nofun)] at hfile
  simp only [Option.some.injEq, eq_comm (a := f)] at hfile
  omega

theorem Kernel.opens_drop (s : Kernel) (hp : s.procs pid = some p)
    (hfd : p.ofile fd = some f) : s.opens = hold (s.setProc pid (some (p.setFile fd none))).opens f := by
  apply eq_hold
  intro g
  have hsum := s.opens_setProc pid (some (p.setFile fd none)) g
  have hfile := p.opens_setFile fd none g
  rw [hp, slotOpens, slotOpens] at hsum
  rw [hfd, if_neg (show ¬none = some g from nofun)] at hfile
  simp only [Option.some.injEq, eq_comm (a := f)] at hfile
  omega

/-! ### What is asked of the inodes -/

/-- A property of the inodes and the cache, for the references that there are to its entries, that survives what a
process does with its own references. -/
structure Bears (E : Stop → Prop) (J : Vfs → Counts → Prop) : Prop where
  fair : ∀ e, e ≠ .panic .noType → E e
  iput : ∀ {v m k}, J v (hold m k) → Ends E (iput v [] k) fun v' => J v' m
  idup : ∀ {v m k}, J v m → 0 < m k → J (idup v k) (hold m k)
  ilock : ∀ {v m k}, J v m → 0 < m k → Ends E (ilock v [] k) fun v' => J v' m

def File.Writes (file : File) : Prop := file.type = .inode ∧ file.writable = true

/-- The files have `n` references; the inodes have those of the state, and `y` of the running call. Those that are open
for writing have the property `w`. -/
structure Table (J : Vfs → Counts → Prop) (w : Fin NINODE → Prop) (s : Kernel) (n : Fin NFILE → Nat) (y : Counts) :
    Prop where
  files : ∀ f, (s.ftable f).ref = n f
  closed : ∀ f, (s.ftable f).ref = 0 → (s.ftable f).type = .none
  writers : ∀ f, (s.ftable f).Writes → w (s.ftable f).ip
  inodes : J s.vfs fun k => s.uses k + y k

def Exactly (J : Vfs → Counts → Prop) (w : Fin NINODE → Prop) (s : Kernel) : Prop := Table J w s s.opens 0

section Tables

variable {E : Stop → Prop} {J : Vfs → Counts → Prop} {w : Fin NINODE → Prop} {s : Kernel} {n : Fin NFILE → Nat}
  {y : Counts} {f : Fin NFILE} {k : Fin NINODE} {pid : Fin NPROC} {p : Proc}

theorem add_hold (m y : Counts) (k : Fin NINODE) : (fun l => m l + hold y k l) = hold (fun l => m l + y l) k := by
  funext l
  exact (Nat.add_assoc _ _ _).symm

theorem add_zero_counts (m : Counts) : (fun l => m l + (0 : Counts) l) = m := funext fun _ => Nat.add_zero _

theorem hold_add (m y : Counts) (k : Fin NINODE) : (fun l => hold m k l + y l) = hold (fun l => m l + y l) k := by
  funext l
  exact Nat.add_right_comm _ _ _

theorem Table.refers_zero (h : Table J w s n y) (hn : n f = 0) (k : Fin NINODE) : (s.ftable f).refers k = 0 := by
  have href := h.files f
  rw [hn] at href
  apply if_neg
  intro hc
  omega

theorem Table.mono {w' : Fin NINODE → Prop} (h : Table J w s n y) (hw : ∀ k, w k → w' k) : Table J w' s n y :=
  ⟨h.files, h.closed, fun f hf => hw _ (h.writers f hf), h.inodes⟩

theorem Table.iput (h : Table J w s n (hold y k)) (hJ : Bears E J) :
    Ends E (iput s.vfs [] k) fun v => Table J w { s with vfs := v } n y := by
  have hinodes := h.inodes
  rw [add_hold] at hinodes
  exact (hJ.iput hinodes).mono fun v hv => ⟨h.files, h.closed, h.writers, hv⟩

theorem Table.setFile {n' : Fin NFILE → Nat} {y' : Counts} (h : Table J w s n y) {file : File}
    (hother : ∀ g, g ≠ f → n' g = n g) (href : file.ref = n' f) (hclosed : file.ref = 0 → file.type = .none)
    (hwriter : file.Writes → w file.ip)
    (hinodes : J s.vfs fun k => (s.setFile f file).uses k + y' k) : Table J w (s.setFile f file) n' y' := by
  have hself : (s.setFile f file).ftable f = file := update_self _ _ _
  have hsame : ∀ g, g ≠ f → (s.setFile f file).ftable g = s.ftable g := fun g hg => update_of_ne hg _ _
  refine ⟨fun g => ?_, fun g hg => ?_, fun g hg => ?_, hinodes⟩
  · by_cases hgf : g = f
    · rw [hgf, hself, href]
    · rw [hsame g hgf, hother g hgf, h.files g]
  · by_cases hgf : g = f
    · rw [hgf, hself] at hg ⊢
      exact hclosed hg
    · rw [hsame g hgf] at hg ⊢
      exact h.closed g hg
  · by_cases hgf : g = f
    · rw [hgf, hself] at hg ⊢
      exact hwriter hg
    · rw [hsame g hgf] at hg ⊢
      exact h.writers g hg

theorem Table.setRef {n' : Fin NFILE → Nat} (h : Table J w s n y) (hother : ∀ g, g ≠ f → n' g = n g)
    (hsame : (s.ftable f).type = .none ∨ 0 < n f ∧ 0 < n' f) (hpos : 0 < n' f) :
    Table J w (s.setRef f (n' f)) n' y := by
  have href := h.files f
  refine h.setFile hother rfl (fun hzero => ?_) (h.writers f) ?_
  · dsimp only at hzero
    omega
  have huses : (s.setRef f (n' f)).uses = s.uses := by
    apply s.uses_setFile_same
    intro k
    unfold File.refers
    rcases hsame with hnone | ⟨hold, -⟩
    · have hnot : (s.ftable f).type ≠ .inode := by
        rw [hnone]
        exact nofun
      rw [if_neg fun hc => hnot hc.1, if_neg fun hc => hnot hc.1]
    · refine if_congr (and_congr_right fun _ => and_congr_left fun _ => ?_) rfl rfl
      dsimp only
      exact iff_of_true (by omega) (by omega)
  change J s.vfs fun k => (s.setRef f (n' f)).uses k + y k
  rw [huses]
  exact h.inodes

theorem Table.fileclose (h : Table J w s (hold n f) y) (hJ : Bears E J) :
    Ends E (fileclose s f) fun s' => Table J w s' n y ∧ s'.procs = s.procs := by
  have href : (s.ftable f).ref = n f + 1 := by
    rw [h.files f, hold_self]
    rfl
  have hother : ∀ g, g ≠ f → n g = hold n f g := fun g hg => (hold_of_ne hg).symm
  unfold Sys.fileclose
  rw [if_neg (by omega)]
  by_cases hmore : 1 < (s.ftable f).ref
  · rw [if_pos hmore]
    have hn : (s.ftable f).ref - 1 = n f := by omega
    rw [hn]
    exact .ok ⟨h.setRef hother (Or.inr ⟨hold_pos_self n f, by omega⟩) (by omega), rfl⟩
  rw [if_neg hmore]
  have hn : n f = 0 := by omega
  have hset : ∀ {y'}, (J s.vfs fun k => (s.setFile f (s.ftable f).closed).uses k + y' k) →
      Table J w (s.setFile f (s.ftable f).closed) n y' := by
    intro y' hy'
    refine h.setFile hother ?_ (fun _ => rfl) (fun hc => nomatch hc.1) hy'
    rw [hn]
    rfl
  have hinodes := h.inodes
  cases htype : (s.ftable f).type with
  | inode =>
    rw [s.uses_closed_inode htype (by omega), hold_add, ← add_hold] at hinodes
    refine ((hset hinodes).iput hJ).bind fun v hv => ?_
    exact .ok ⟨hv, rfl⟩
  | pipe | none =>
    rw [← s.uses_closed (by rw [htype]; exact nofun)] at hinodes
    exact .ok ⟨hset hinodes, rfl⟩

/-! ### The calls -/

theorem filealloc_ref (h : filealloc s = some f) : (s.ftable f).ref = 0 := by
  have hfound := List.find?_some (p := fun f => decide ((s.ftable f).ref = 0)) h
  exact of_decide_eq_true hfound

theorem fdalloc_none (h : fdalloc p = some fd) : p.ofile fd = none := by
  have hfound := List.find?_some (p := fun fd => (p.ofile fd).isNone) h
  exact Option.isNone_iff_eq_none.mp hfound

theorem Table.filealloc (h : Table J w s n y) (hf : filealloc s = some f) : n f = 0 ∧ Table J w (s.setRef f 1)
    (hold n f) y := by
  have hzero := filealloc_ref hf
  have hn : n f = 0 := by
    have href := h.files f
    omega
  refine ⟨hn, ?_⟩
  have hone : hold n f f = 1 := by rw [hold_self, hn]
  have hset : Table J w (s.setRef f (hold n f f)) (hold n f) y :=
    h.setRef (fun g hg => hold_of_ne hg) (Or.inl (h.closed f hzero)) (hold_pos_self n f)
  rw [hone] at hset
  exact hset

theorem Table.congr {s' : Kernel} {y' : Counts} (h : Table J w s n y) (hvfs : s'.vfs = s.vfs)
    (hftable : s'.ftable = s.ftable) (huses : ∀ k, s'.uses k + y' k = s.uses k + y k) : Table J w s' n y' := by
  refine ⟨?_, ?_, ?_, ?_⟩
  · rw [hftable]
    exact h.files
  · rw [hftable]
    exact h.closed
  · rw [hftable]
    exact h.writers
  · rw [hvfs, show (fun k => s'.uses k + y' k) = fun k => s.uses k + y k from funext huses]
    exact h.inodes

theorem Table.take (h : Table J w s (hold s.opens f) 0) (hp : s.procs pid = some p) (hfd : p.ofile fd = none) :
    Exactly J w (s.setProc pid (some (p.setFile fd (some f)))) := by
  unfold Exactly
  rw [s.opens_take hp hfd f]
  refine h.congr rfl rfl fun k => ?_
  rw [s.uses_setDescriptor hp]

theorem Exactly.close (h : Exactly J w s) (hJ : Bears E J) (hp : s.procs pid = some p) (fd : Fin NOFILE) :
    Ends E (sysClose s pid p fd) fun r => Exactly J w r.2 ∧
    r.2.procs = update s.procs pid (some (p.setFile fd none)) := by
  unfold sysClose
  cases hfd : p.ofile fd with
  | none =>
    refine .ok ⟨h, ?_⟩
    have hsame : p.setFile fd none = p := by
      unfold Proc.setFile
      rw [← hfd, update_eq_self]
    rw [hsame, ← hp, update_eq_self]
  | some f =>
    have hdrop : Table J w (s.setProc pid (some (p.setFile fd none)))
        (hold (s.setProc pid (some (p.setFile fd none))).opens f) 0 := by
      rw [← s.opens_drop hp hfd]
      refine Table.congr h rfl rfl fun k => ?_
      rw [s.uses_setDescriptor hp]
    refine (hdrop.fileclose hJ).bind fun s' hs' => .ok ⟨?_, hs'.2⟩
    have hopens : s'.opens = (s.setProc pid (some (p.setFile fd none))).opens := by
      unfold Kernel.opens
      rw [hs'.2]
    unfold Exactly
    rw [hopens]
    exact hs'.1

/-- What a call that looks for an inode leaves: a reference to it, if it is found. -/
def found (m : Counts) : Option (Fin NINODE) → Counts
  | none => m
  | some k => hold m k

theorem Exactly.inodes (h : Exactly J w s) : J s.vfs s.uses := by
  have hinodes := Table.inodes h
  rw [add_zero_counts] at hinodes
  exact hinodes

theorem Exactly.setVfs {J' : Vfs → Counts → Prop} (h : Exactly J w s) {v : Vfs} (hv : J' v s.uses) :
    Exactly J' w { s with vfs := v } := by
  refine ⟨h.files, h.closed, h.writers, ?_⟩
  rw [add_zero_counts]
  exact hv

theorem Exactly.withVfs {J' : Vfs → Counts → Prop} (h : Exactly J w s) {x : Except Stop (Int × Vfs)}
    (hx : Ends E x fun r => J' r.2 s.uses) : Ends E (withVfs s x) fun r => Exactly J' w r.2 :=
  hx.bind fun _ hr => .ok (h.setVfs hr)

theorem Exactly.holding (h : Exactly J w s) {v : Vfs} {ip : Fin NINODE} (hv : J v (hold s.uses ip)) :
    Table J w { s with vfs := v } s.opens (hold 0 ip) := by
  refine ⟨h.files, h.closed, h.writers, ?_⟩
  rw [add_hold, add_zero_counts]
  exact hv

theorem Table.exactly (h : Table J w s n 0) (hopens : s.opens = n) : Exactly J w s := by
  rw [← hopens] at h
  exact h

theorem opens_congr {s s' : Kernel} (hprocs : s'.procs = s.procs) : s'.opens = s.opens := by
  funext f
  unfold Kernel.opens
  rw [hprocs]

theorem uses_opened (hclosed : ∀ k, (s.ftable f).refers k = 0) (omode : UInt32) (ip : Fin NINODE) :
    (s.setFile f (openedFile omode ip)).uses = hold s.uses ip := by
  apply eq_hold
  intro k
  have hsum := s.uses_setFile f (openedFile omode ip) k
  have hrefers : (openedFile omode ip).refers k = if k = ip then 1 else 0 :=
    if_congr ⟨fun hc => hc.2.2.symm, fun hc => ⟨rfl, Int.one_pos, hc.symm⟩⟩ rfl rfl
  rw [hclosed k, hrefers, Nat.add_zero] at hsum
  exact hsum

theorem Exactly.open (h : Exactly J w s) (hJ : Bears E J) (hp : s.procs pid = some p) {path : List UInt8}
    {omode : UInt32} {Q : Vfs → Fin NINODE → Prop} (hopen : Ends E (openInode s.vfs p.cwd path omode) fun r =>
      J r.2 (found s.uses r.1) ∧ ∀ ip, r.1 = some ip → (openedFile omode ip).Writes → Q r.2 ip) :
    Ends E (sysOpen s pid p path omode) fun r => ∃ w', Exactly J w' r.2 ∧ ∀ k, w' k → w k ∨ Q r.2.vfs k := by
  refine hopen.bind ?_
  rintro ⟨r, v⟩ ⟨hr, hQ⟩
  cases r with
  | none => exact .ok ⟨w, h.setVfs hr, fun _ => Or.inl⟩
  | some ip =>
    have htable := h.holding hr
    dsimp only
    cases hf : filealloc { s with vfs := v } with
    | none => exact (htable.iput hJ).bind fun v' hv' => .ok ⟨w, hv', fun _ => Or.inl⟩
    | some f =>
      obtain ⟨hn, halloc⟩ := htable.filealloc hf
      cases hfd : fdalloc p with
      | none =>
        refine (halloc.fileclose hJ).bind fun s' hs' => ?_
        refine (hs'.1.iput hJ).bind fun v' hv' => .ok ⟨w, hv'.exactly (opens_congr hs'.2), fun _ => Or.inl⟩
      | some fd =>
        have hwider : Table J (fun k => w k ∨ Q v k) { s with vfs := v } s.opens (hold 0 ip) := htable.mono fun _ =>
          Or.inl
        have hfile : Table J (fun k => w k ∨ Q v k) (Kernel.setFile { s with vfs := v } f (openedFile omode ip))
            (hold s.opens f) 0 := by
          refine hwider.setFile (fun g hg => hold_of_ne hg) ?_ nofun (fun hc => Or.inr (hQ ip rfl hc)) ?_
          · rw [hold_self, hn]
            rfl
          · rw [uses_opened (htable.refers_zero hn), add_zero_counts]
            exact hr
        exact .ok ⟨_, Table.take hfile hp (fdalloc_none hfd), fun _ hk => hk⟩

theorem Table.filedup (h : Table J w s n y) (hJ : Bears E J) (f : Fin NFILE) :
    Ends E (filedup s f) fun s' => Table J w s' (hold n f) y ∧ s'.procs = s.procs := by
  unfold Sys.filedup
  split
  · exact .stop (hJ.fair _ nofun)
  · rename_i hpos
    have href := h.files f
    have hn : (s.ftable f).ref + 1 = hold n f f := by
      rw [href, hold_self]
      rfl
    rw [hn]
    refine .ok ⟨h.setRef (fun g hg => hold_of_ne hg) (Or.inr ⟨by omega, hold_pos_self n f⟩) (hold_pos_self n f), rfl⟩

theorem Exactly.dup (h : Exactly J w s) (hJ : Bears E J) (hp : s.procs pid = some p) (fd : Fin NOFILE) :
    Ends E (sysDup s pid p fd) fun r => Exactly J w r.2 := by
  unfold sysDup
  cases hfd : p.ofile fd with
  | none => exact .ok h
  | some f =>
    cases hfd' : fdalloc p with
    | none => exact .ok h
    | some fd' =>
      have hset : Table J w (s.setProc pid (some (p.setFile fd' (some f)))) s.opens 0 := by
        refine Table.congr h rfl rfl fun k => ?_
        rw [s.uses_setDescriptor hp]
      refine (hset.filedup hJ f).bind fun s' hs' => .ok (hs'.1.exactly ?_)
      rw [opens_congr hs'.2]
      exact s.opens_take hp (fdalloc_none hfd') f

theorem Table.pipeEnd (h : Table J w s n y) (hn : 0 < n f) (htype : (s.ftable f).type ≠ .inode) (writable : Bool) :
    Table J w (s.setFile f (pipeEnd (s.ftable f) writable)) n y := by
  have href := h.files f
  refine h.setFile (fun _ _ => rfl) href (fun hzero => ?_) (fun hc => nomatch hc.1) ?_
  · change (s.ftable f).ref = 0 at hzero
    omega
  · rw [s.uses_setFile_same fun k => ?_]
    · exact h.inodes
    · have hpipe : (Sys.pipeEnd (s.ftable f) writable).refers k = 0 := if_neg fun hc => nomatch hc.1
      rw [hpipe, File.refers, if_neg fun hc => htype hc.1]

theorem Table.pipealloc (h : Table J w s n y) (hJ : Bears E J) (memory : Bool) :
    Ends E (pipealloc s memory) fun r => r.2.procs = s.procs ∧
      match r.1 with
      | none => Table J w r.2 n y
      | some (f0, f1) => Table J w r.2 (hold (hold n f0) f1) y := by
  unfold Sys.pipealloc
  cases hf0 : Sys.filealloc s with
  | none => exact .ok ⟨rfl, h⟩
  | some f0 =>
    obtain ⟨hn0, h0⟩ := h.filealloc hf0
    dsimp only
    cases hf1 : Sys.filealloc (s.setRef f0 1) with
    | none => exact (h0.fileclose hJ).bind fun s' hs' => .ok ⟨hs'.2, hs'.1⟩
    | some f1 =>
      obtain ⟨hn1, h1⟩ := h0.filealloc hf1
      dsimp only
      split
      · have hcomm := h1
        rw [hold_comm] at hcomm
        refine (hcomm.fileclose hJ).bind fun s₁ hs₁ => ?_
        refine (hs₁.1.fileclose hJ).bind fun s₂ hs₂ => .ok ⟨?_, hs₂.1⟩
        rw [hs₂.2, hs₁.2]
        rfl
      · refine .ok ⟨rfl, ?_⟩
        have hclosed0 := h.closed f0 (filealloc_ref hf0)
        have hclosed1 := h0.closed f1 (filealloc_ref hf1)
        have hne : f1 ≠ f0 := by
          rintro rfl
          rw [hold_self] at hn1
          cases hn1
        have htype0 : (((s.setRef f0 1).setRef f1 1).ftable f0).type = .none := by
          dsimp only [Kernel.setRef, Kernel.setFile]
          rw [update_of_ne (Ne.symm hne), update_self]
          exact hclosed0
        have htype1 : ((((s.setRef f0 1).setRef f1 1).setFile f0
          (Sys.pipeEnd (((s.setRef f0 1).setRef f1 1).ftable f0) false)).ftable
            f1).type = .none := by
          dsimp only [Kernel.setFile]
          rw [update_of_ne hne]
          dsimp only [Kernel.setRef, Kernel.setFile]
          rw [update_self]
          exact hclosed1
        have hread := h1.pipeEnd (hold_mono (hold_pos_self n f0)) (by rw [htype0]; exact nofun) false
        exact hread.pipeEnd (hold_pos_self _ f1) (by rw [htype1]; exact nofun) true

section

variable (h : Exactly J w s)

include h

theorem Exactly.pipe (hJ : Bears E J) (hp : s.procs pid = some p) (memory : Bool) :
    Ends E (sysPipe s pid p memory) fun r => Exactly J w r.2 := by
  refine (Table.pipealloc h hJ memory).bind ?_
  rintro ⟨ends, s₁⟩ ⟨hprocs, htable⟩
  cases ends with
  | none => exact .ok (htable.exactly (opens_congr hprocs))
  | some ends =>
    obtain ⟨rf, wf⟩ := ends
    dsimp only at htable ⊢
    cases hfds : (do
      let fd0 ← fdalloc p
      let fd1 ← fdalloc (p.setFile fd0 (some rf))
      pure ((p.setFile fd0 (some rf)).setFile fd1 (some wf)) : Option Proc) with
    | none =>
      rw [hold_comm] at htable
      refine (htable.fileclose hJ).bind fun s₂ hs₂ => ?_
      refine (hs₂.1.fileclose hJ).bind fun s₃ hs₃ => .ok (hs₃.1.exactly (opens_congr ?_))
      rw [hs₃.2, hs₂.2, hprocs]
    | some p' =>
      obtain ⟨fd0, hfd0, hrest⟩ := Option.bind_eq_some_iff.mp hfds
      obtain ⟨fd1, hfd1, hp'⟩ := Option.bind_eq_some_iff.mp hrest
      have hp₁ : s₁.procs pid = some p := by
        rw [hprocs]
        exact hp
      have hfirst : Table J w (s₁.setProc pid (some (p.setFile fd0 (some rf))))
          (hold (s₁.setProc pid (some (p.setFile fd0 (some rf)))).opens wf) 0 := by
        rw [s₁.opens_take hp₁ (fdalloc_none hfd0), opens_congr hprocs]
        refine htable.congr rfl rfl fun k => ?_
        rw [s₁.uses_setDescriptor hp₁]
      have hboth := hfirst.take (update_self pid _ _) (fdalloc_none hfd1)
      have hsame : (s₁.setProc pid (some (p.setFile fd0 (some rf)))).setProc pid (some p') =
        s₁.setProc pid (some p') := by
        unfold Kernel.setProc
        rw [update_idem]
      cases hp'
      rw [hsame] at hboth
      exact .ok hboth

theorem Exactly.ilock (hJ : Bears E J) (hk : 0 < s.uses k) :
    Ends E (ilock s.vfs [] k) fun v => Exactly J w { s with vfs := v } :=
  (hJ.ilock h.inodes hk).mono fun _ hv => h.setVfs hv

theorem Exactly.advance (f : Fin NFILE) (r : Int) : Exactly J w (s.setFile f ((s.ftable f).advance r)) := by
  have hrefers : ∀ k, ((s.ftable f).advance r).refers k = (s.ftable f).refers k := fun _ => rfl
  refine Table.setFile h (fun _ _ => rfl) (h.files f) (h.closed f) (h.writers f) ?_
  rw [s.uses_setFile_same hrefers]
  exact Table.inodes h

theorem Exactly.uses_file (hp : s.procs pid = some p) (hfd : p.ofile fd = some f)
    (htype : (s.ftable f).type = .inode) : 0 < s.uses (s.ftable f).ip := by
  have href := h.files f
  have hopen : s.opens f = hold (s.setProc pid (some (p.setFile fd none))).opens f f := congrFun (s.opens_drop hp hfd) f
  rw [hopen, hold_self] at href
  rw [s.uses_closed_inode htype (by omega)]
  exact hold_pos_self _ _

theorem Exactly.read (hJ : Bears E J) (hp : s.procs pid = some p) (fd : Fin NOFILE) (n : UInt32) (answer : Int) :
    Ends E (sysRead s p fd n answer) fun r => Exactly J w r.2 := by
  unfold sysRead
  cases hfd : p.ofile fd with
  | none => exact .ok h
  | some f =>
    dsimp only
    split
    · exact .ok h
    · cases htype : (s.ftable f).type with
      | pipe => exact .ok h
      | none => exact .stop (hJ.fair _ nofun)
      | inode =>
        refine (h.ilock hJ (h.uses_file hp hfd htype)).bind fun v hv => ?_
        exact .ok (hv.advance f _)

theorem Exactly.writeLoop (hJ : Bears E J) (hwrite : ∀ {v m k} (g : List UInt8 → List UInt8), J v m → 0 < m k → w k →
      Roomy (v.modify k fun n => { n with data := g n.data }).nodes →
      J (v.modify k fun n => { n with data := g n.data }) m)
    (answer : List UInt8 → Int) (fuel : Nat) (src : List UInt8) (huse : 0 < s.uses (s.ftable f).ip)
    (hw : w (s.ftable f).ip) :
    Ends E (writeLoop f answer fuel s src) fun r => Exactly J w r.2 := by
  induction fuel generalizing s src with
  | zero => exact .ok h
  | succ fuel ih =>
    rw [Sys.writeLoop]
    split
    · exact .ok h
    refine (h.ilock hJ huse).bind fun v hv => ?_
    have hdata : Ends E (writeChunk v (s.ftable f).ip answer (src.take MAXWRITE) (s.ftable f).off)
        fun r => Exactly J w { s with vfs := r.2 } := by
      unfold writeChunk
      split
      · exact .ok hv
      · refine (writei_ends (hJ.fair _ nofun) _ _).mono ?_
        rintro ⟨r, v'⟩ ⟨hroom, hv'⟩
        obtain rfl := hv'
        exact h.setVfs (hwrite (fun a => (writeArray a _ _).2) hv.inodes huse hw hroom)
    refine hdata.bind ?_
    rintro ⟨r, v'⟩ hv'
    dsimp only at hv' ⊢
    have hadvance := hv'.advance f r
    split
    · exact .ok hadvance
    split
    · exact .stop (hJ.fair _ nofun)
    have huses : (Kernel.setFile { s with vfs := v' } f ((s.ftable f).advance r)).uses = s.uses :=
      Kernel.uses_setFile_same _ fun _ => rfl
    have hip : ((Kernel.setFile { s with vfs := v' } f ((s.ftable f).advance r)).ftable f).ip = (s.ftable f).ip := by
      dsimp only [Kernel.setFile]
      rw [update_self]
      rfl
    refine ih hadvance _ ?_ ?_
    · rw [hip, huses]
      exact huse
    · rw [hip]
      exact hw

theorem Exactly.write (hJ : Bears E J) (hp : s.procs pid = some p)
    (hwrite : ∀ {v m k} (g : List UInt8 → List UInt8), J v m → 0 < m k → w k →
      Roomy (v.modify k fun n => { n with data := g n.data }).nodes →
      J (v.modify k fun n => { n with data := g n.data }) m)
    (fd : Fin NOFILE) (src : List UInt8) (answer : List UInt8 → Int) :
    Ends E (sysWrite s p fd src answer) fun r => Exactly J w r.2 := by
  unfold sysWrite
  cases hfd : p.ofile fd with
  | none => exact .ok h
  | some f =>
    dsimp only
    split
    · exact .ok h
    rename_i hwritable
    cases htype : (s.ftable f).type with
    | pipe => exact .ok h
    | none => exact .stop (hJ.fair _ nofun)
    | inode =>
      have huse := h.uses_file hp hfd htype
      have hw := h.writers f ⟨htype, Bool.not_eq_false _ ▸ hwritable⟩
      exact (h.writeLoop hJ hwrite answer src.length src huse hw).bind fun r hr => .ok hr

end

/-! ### Processes -/

theorem uses_chdir (hp : s.procs pid = some p) (ip : Fin NINODE) :
    hold s.uses ip = hold (s.setProc pid (some { p with cwd := ip })).uses p.cwd := by
  funext k
  have hsum := s.uses_setProc pid (some { p with cwd := ip }) k
  rw [hp, slotCwd, slotCwd] at hsum
  unfold hold
  simp only [eq_comm (a := k)]
  exact hsum.symm

theorem Exactly.chdir (h : Exactly J w s) (hJ : Bears E J) (hp : s.procs pid = some p) {path : List UInt8}
    (hname : Ends E (namex s.vfs p.cwd path false) fun r => J r.2 (found s.uses (r.1.map Prod.fst))) :
    Ends E (sysChdir s pid p path) fun r => Exactly J w r.2 := by
  refine hname.bind ?_
  rintro ⟨r, v⟩ hr
  cases r with
  | none => exact .ok (h.setVfs hr)
  | some r =>
    obtain ⟨ip, name⟩ := r
    change J v (hold s.uses ip) at hr
    refine (hJ.ilock hr (hold_pos_self _ ip)).bind fun v₁ hv₁ => ?_
    split
    · exact (hJ.iput hv₁).bind fun v₂ hv₂ => .ok (h.setVfs hv₂)
    -- The reference of the call becomes that of the process, whose old one goes.
    rw [uses_chdir hp ip] at hv₁
    refine (hJ.iput hv₁).bind fun v₂ hv₂ => .ok ?_
    have hopens : (Kernel.setProc { s with vfs := v₂ } pid (some { p with cwd := ip })).opens = s.opens := by
      funext f
      have hsum := s.opens_setProc pid (some { p with cwd := ip }) f
      rw [hp] at hsum
      exact Nat.add_right_cancel hsum
    refine Table.exactly ⟨h.files, h.closed, h.writers, ?_⟩ hopens
    rw [add_zero_counts]
    exact hv₂

theorem Table.dupFiles (h : Table J w s n y) (hJ : Bears E J) (p : Proc) (fds : List (Fin NOFILE)) :
    Ends E (fds.foldlM (fun s fd =>
      match p.ofile fd with
      | none => pure s
      | some f => Sys.filedup s f) s) fun s' => s'.procs = s.procs ∧
        Table J w s' (fun f => n f + (fds.map fun fd => if p.ofile fd = some f then 1 else 0).sum) y := by
  induction fds generalizing s n with
  | nil => exact .ok ⟨rfl, h⟩
  | cons fd fds ih =>
    rw [List.foldlM_cons]
    cases hfd : p.ofile fd with
    | none =>
      refine (ih h).mono fun s' hs' => ⟨hs'.1, ?_⟩
      simp only [List.map_cons, List.sum_cons, hfd, reduceCtorEq, if_false, Nat.zero_add]
      exact hs'.2
    | some f =>
      refine (h.filedup hJ f).bind fun s₁ hs₁ => ?_
      refine (ih hs₁.1).mono fun s' hs' => ⟨hs'.1.trans hs₁.2, ?_⟩
      have hcount : (fun g => n g + ((fd :: fds).map fun fd => if p.ofile fd = some g then 1 else 0).sum) =
          fun g => hold n f g + (fds.map fun fd => if p.ofile fd = some g then 1 else 0).sum := by
        funext g
        rw [List.map_cons, List.sum_cons, hfd]
        simp only [hold, Option.some.injEq, eq_comm (a := f)]
        omega
      rw [hcount]
      exact hs'.2

section

variable (h : Exactly J w s) (hJ : Bears E J) (hp : s.procs pid = some p)

include h hJ hp

theorem Exactly.fork (memory : Bool) :
    Ends E (sysFork s pid p memory) fun r => Exactly J w r.2 := by
  unfold sysFork
  cases hfind : (List.finRange NPROC).find? fun q => (s.procs q).isNone ∧ s.zombie q = false with
  | none => exact .ok h
  | some q =>
    have hq : s.procs q = none := by
      have hfound := List.find?_some hfind
      exact Option.isNone_iff_eq_none.mp (of_decide_eq_true hfound).1
    dsimp only
    split
    · exact .ok h
    refine (Table.dupFiles h hJ p (List.finRange NOFILE)).bind fun s₁ hs₁ => .ok ?_
    obtain ⟨hprocs, htable⟩ := hs₁
    have hp₁ : s₁.procs pid = some p := by
      rw [hprocs]
      exact hp
    have hq₁ : s₁.procs q = none := by
      rw [hprocs]
      exact hq
    have hopens : (s₁.setProc q (some p)).opens = fun f =>
        s.opens f + ((List.finRange NOFILE).map fun fd => if p.ofile fd = some f then 1 else 0).sum := by
      funext f
      have hsum := s₁.opens_setProc q (some p) f
      rw [hq₁, opens_congr hprocs] at hsum
      simp only [slotOpens, Nat.add_zero] at hsum
      rw [hsum, ← Fin.sum_univ_def, Proc.opens]
    have huses : (s₁.setProc q (some p)).uses = hold s₁.uses p.cwd := by
      apply eq_hold
      intro k
      have hsum := s₁.uses_setProc q (some p) k
      rw [hq₁] at hsum
      simp only [slotCwd, Nat.add_zero, eq_comm (a := p.cwd)] at hsum
      exact hsum
    refine Table.exactly ⟨htable.files, htable.closed, htable.writers, ?_⟩ hopens
    have hinodes := htable.inodes
    rw [add_zero_counts] at hinodes ⊢
    have hdup := hJ.idup hinodes (s₁.uses_cwd hp₁)
    rw [← huses] at hdup
    exact hdup

theorem Exactly.closeAll (fds : List (Fin NOFILE)) :
    Ends E (fds.foldlM (fun s fd =>
      match s.procs pid with
      | none => pure s
      | some p => do
          let (_, s) ← sysClose s pid p fd
          pure s) s) fun s' => Exactly J w s' ∧ ∃ p', s'.procs pid = some p' ∧
        (∀ fd, p.ofile fd = none → p'.ofile fd = none) ∧ ∀ fd ∈ fds, p'.ofile fd = none := by
  induction fds generalizing s p with
  | nil => exact .ok ⟨h, p, hp, fun _ => id, nofun⟩
  | cons fd fds ih =>
    rw [List.foldlM_cons, hp]
    refine Ends.bind (Q := fun s₁ => Exactly J w s₁ ∧ s₁.procs pid = some (p.setFile fd none)) ?_ ?_
    · refine (h.close hJ hp fd).bind fun r hr => .ok ⟨hr.1, ?_⟩
      rw [hr.2, update_self]
    intro s₁ hs₁
    refine (ih hs₁.1 hs₁.2).mono fun s' hs' => ⟨hs'.1, ?_⟩
    obtain ⟨p', hp', hstay, hclosed⟩ := hs'.2
    have hnone : ∀ fd', p.ofile fd' = none ∨ fd' = fd → p'.ofile fd' = none := by
      intro fd' hfd'
      apply hstay
      dsimp only [Proc.setFile]
      by_cases heq : fd' = fd
      · rw [heq, update_self]
      · rw [update_of_ne heq]
        exact hfd'.resolve_right heq
    refine ⟨p', hp', fun fd' hfd' => hnone fd' (Or.inl hfd'), fun fd' hfd' => ?_⟩
    rcases List.mem_cons.mp hfd' with heq | hmem
    · exact hnone fd' (Or.inr heq)
    · exact hclosed fd' hmem

theorem Exactly.exit :
    Ends E (sysExit s pid) fun r => Exactly J w r.2 := by
  unfold sysExit
  split
  · exact .stop (hJ.fair _ nofun)
  refine (h.closeAll hJ hp (List.finRange NOFILE)).bind fun s₁ hs₁ => ?_
  obtain ⟨h₁, p₁, hp₁, -, hclosed⟩ := hs₁
  rw [hp₁]
  have hcount : s₁.uses = hold (s₁.setProc pid none).uses p₁.cwd := by
    apply eq_hold
    intro k
    have hsum := s₁.uses_setProc pid none k
    rw [hp₁] at hsum
    simp only [slotCwd, Nat.add_zero, eq_comm (a := p₁.cwd)] at hsum
    exact hsum.symm
  have hopens : (s₁.setProc pid none).opens = s₁.opens := by
    funext f
    have hsum := s₁.opens_setProc pid none f
    have hzero : p₁.opens f = 0 := by
      apply Finset.sum_eq_zero
      intro fd _
      rw [hclosed fd (List.mem_finRange fd), if_neg nofun]
    rw [hp₁, slotOpens, slotOpens, hzero] at hsum
    exact Nat.add_right_cancel hsum
  have hinodes := h₁.inodes
  rw [hcount] at hinodes
  refine (hJ.iput hinodes).bind fun v hv => .ok ?_
  refine Table.exactly ⟨h₁.files, h₁.closed, h₁.writers, ?_⟩ hopens
  rw [add_zero_counts]
  exact hv

end

theorem Exactly.wait (h : Exactly J w s) (hJ : Bears E J) (pid : Fin NPROC) (killed : Bool) :
    Ends E (sysWait s pid killed) fun r => Exactly J w r.2 := by
  unfold sysWait
  split
  · exact .ok (Table.exactly (Table.congr h rfl rfl fun _ => rfl) rfl)
  · split
    · exact .ok h
    · exact .stop (hJ.fair _ nofun)

/-! ### The first process -/

theorem boot_eq (nodes : Nodes) : Kernel.boot nodes =
    Kernel.setProc { Kernel.boot nodes with procs := fun _ => none } INIT (some { cwd := 0, ofile := fun _ => none }) :=
    rfl

theorem opens_boot (nodes : Nodes) : (Kernel.boot nodes).opens = 0 := by
  funext f
  have hsum := Kernel.opens_setProc { Kernel.boot nodes with procs := fun _ => none } INIT
    (some { cwd := 0, ofile := fun _ => none }) f
  have hnone : Kernel.opens { Kernel.boot nodes with procs := fun _ => none } f = 0 := Finset.sum_eq_zero fun _ _ => rfl
  have hempty : Proc.opens { cwd := 0, ofile := fun _ => none } f = 0 := Finset.sum_eq_zero fun _ _ => rfl
  have hinit : slotOpens f (some { cwd := 0, ofile := fun _ => none }) = 0 := hempty
  rw [hnone, hinit] at hsum
  exact (Nat.add_eq_zero_iff.mp hsum).1

theorem uses_boot (nodes : Nodes) : (Kernel.boot nodes).uses = hold 0 0 := by
  apply eq_hold
  intro k
  have hsum := Kernel.uses_setProc { Kernel.boot nodes with procs := fun _ => none } INIT
    (some { cwd := 0, ofile := fun _ => none }) k
  have hfiles : ∑ f, ((Kernel.boot nodes).ftable f).refers k = 0 := Finset.sum_eq_zero fun _ _ => rfl
  have hprocs : ∑ _pid : Fin NPROC, slotCwd k none = 0 := Finset.sum_eq_zero fun _ _ => rfl
  have hnone : Kernel.uses { Kernel.boot nodes with procs := fun _ => none } k = 0 := by
    unfold Kernel.uses
    rw [hfiles, hprocs]
  rw [hnone] at hsum
  simp only [slotCwd, Nat.add_zero, eq_comm (a := (0 : Fin NINODE))] at hsum
  exact hsum

theorem Exactly.boot {nodes : Nodes} (h : J (Kernel.boot nodes).vfs (hold 0 0)) : Exactly J w (Kernel.boot nodes) := by
  refine Table.exactly ⟨fun _ => rfl, fun _ _ => rfl, fun _ hc => (nomatch hc.1), ?_⟩ (opens_boot nodes)
  rw [add_zero_counts, uses_boot]
  exact h

end Tables

end Laboratorio.Sys
