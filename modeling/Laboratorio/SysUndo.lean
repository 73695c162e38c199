import Laboratorio.SysPath
import Laboratorio.SysSteps

/-! Calls that fail. Directories of whole entries are all that a lookup needs, and every call keeps them, so this holds
in every state that is reached. There a call that returns -1 has changed no inode and nothing of its process: what it
had written it has undone, or it had written nothing. Only `open` is different: the file that it has created stays when
there is no descriptor for it. -/

namespace Laboratorio.Sys

open Function

open Fs

/-! ### What every call keeps -/

section Fitness

variable {n : Nodes} {x d i : Nat} {o : Node} {e : Dirent} {c : UInt16}

theorem Fit.directories {n' : Nodes} (h : Fit False n) (hsame : ∀ i, (n' i).type = T_DIR → n' i = n i) :
    Fit False n' := by
  refine ⟨fun i hi => ?_, False.elim, False.elim⟩
  have heq := hsame i hi
  rw [heq] at hi ⊢
  exact h.whole i hi

theorem Fit.sound_false : Sound False (Fit False) where
  fit h := h
  free {n n' i} h hfrees := by
    apply h.directories
    intro j hj
    rw [hfrees.eq] at hj ⊢
    by_cases hji : j = i
    · rw [hji, update_self] at hj
      cases hj
    · exact update_of_ne hji _ _
  data {n i a} h htype _ := by
    apply h.directories
    intro j hj
    by_cases hji : j = i
    · rw [hji, update_self] at hj
      exact absurd hj htype
    · exact update_of_ne hji _ _

theorem Fit.entered (h : Fit False n) (ho : o.type = T_DIR → Whole o) (hd : Whole ((n d).setEntry i e)) :
    Fit False (entered n x o d i e c) := by
  refine ⟨fun j hj => ?_, False.elim, False.elim⟩
  unfold Sys.entered at hj ⊢
  by_cases hjd : j = d
  · rw [hjd, update_self]
    exact hd.congr rfl
  · rw [update_of_ne hjd] at hj ⊢
    by_cases hjx : j = x
    · rw [hjx, update_self] at hj ⊢
      exact ho hj
    · rw [update_of_ne hjx] at hj ⊢
      exact h.whole j hj

theorem Fit.vacant {name : List UInt8} (h : Fit False n) (htype : (n d).type = T_DIR) (hvacant : Vacant (n d) i)
    (hx : x < NINODES) : Whole ((n d).setEntry i (entry name x)) := by
  refine (h.whole d htype).setEntry hvacant.le hvacant.fits (strncpy_length _ _) ?_
  rw [toNat_entry hx]
  exact hx

theorem Fit.creates (h : Fit False n) (cwd : Nat) (path : List UInt8) (type : UInt16) :
    Creates (Fit False) n cwd path type := by
  intro x d i name o c hc _
  refine h.entered (fun ho => ?_) (h.vacant hc.dir hc.vacant hc.range)
  cases hc.made with
  | leaf hleaf htype _ => exact absurd (htype.symm.trans ho) hleaf
  | dir _ _ _ hdata => exact whole_dots hdata hc.range hc.lt

theorem Fit.permits (h : Fit False n) (cwd : Nat) (op : Op) : Permits (Fit False) n cwd op := by
  cases op with
  | link old new =>
    cases old with
    | none => trivial
    | some old =>
      cases new with
      | none => trivial
      | some new =>
        intro x d i name hl _
        exact h.entered (fun ho => absurd ho hl.leaf) (h.vacant hl.type hl.vacant hl.range)
  | unlink path =>
    cases path with
    | none => trivial
    | some path =>
      intro x d i name e hu _
      have hlt := (List.getElem?_eq_some_iff.mp hu.place).1
      have hwhole := h.whole d hu.type
      have hfits : DIRENT * i + DIRENT ≤ MAXFILE * BSIZE := by
        have hle := hwhole.le
        rw [length_dirents] at hlt
        simp only [DIRENT] at hlt ⊢
        omega
      exact h.entered (fun ho => (h.whole x ho).congr rfl) (hwhole.setEntry hlt.le hfits rfl (by decide))
  | mkdir path =>
    cases path with
    | none => trivial
    | some path => exact h.creates cwd path T_DIR
  | mknod path major minor =>
    cases path with
    | none => trivial
    | some path => exact h.creates cwd path T_DEV
  | «open» path omode =>
    cases path with
    | none => trivial
    | some path => exact fun _ => h.creates cwd path T_FILE
  | _ => trivial

end Fitness

/-- A disk to start from. -/
structure Bootable (nodes : Nodes) : Prop where
  fit : Fit False nodes
  root : (nodes ROOTINO).type ≠ 0
  linked : ∀ i < NINODES, (nodes i).type ≠ 0 → (nodes i).nlink ≠ 0

theorem Settled.boot {strict : Prop} {T : Nodes → Prop} {nodes : Nodes} (hT : T nodes)
    (hroot : (nodes ROOTINO).type ≠ 0) (hlinked : ∀ i < NINODES, (nodes i).type ≠ 0 → (nodes i).nlink ≠ 0) :
    Settled strict T (Kernel.boot nodes) :=
  Exactly.boot ⟨Cached.boot hroot, Held.boot hlinked _, hT⟩

theorem Bootable.settled {nodes : Nodes} (h : Bootable nodes) {calls : List (Fin NPROC × Op)} {s : Kernel}
    (hrun : run (Kernel.boot nodes) calls = .ok s) : Settled False (Fit False) s := by
  have hstart : Settled False (Fit False) (Kernel.boot nodes) := Settled.boot h.fit h.root h.linked
  have hends := Settled.run Fit.sound_false (fun s _ op p hfit _ _ => hfit.permits _ op) hstart
    (Along.of_forall (fun _ _ _ => trivial) _ calls)
  exact hends.of_ok hrun

/-! ### Failures -/

/-- The calls that take paths, but for `exec`. -/
def Op.onPaths : Op → Bool
  | .link _ _ | .unlink _ | .mkdir _ | .mknod _ _ _ | .chdir _ | .open _ _ => true
  | _ => false

/-- Inodes and open files are what they were, and so are the descriptors and the working directory of the process. -/
structure Untouched (s s' : Kernel) (pid : Fin NPROC) : Prop where
  nodes : s'.vfs.nodes = s.vfs.nodes
  proc : s'.procs pid = s.procs pid
  files : s'.ftable = s.ftable
  cache : ∀ k, 0 < s.uses k → (s'.vfs.icache k).inum = (s.vfs.icache k).inum

/-- An `open` that creates its file: it has `O_CREATE`, and its name is missing from a directory that exists. -/
def opensNew (s : Kernel) (p : Proc) : Op → Prop
  | .open (some path) omode => omode &&& O_CREATE ≠ 0 ∧ (entersAt s.vfs.nodes (s.vfs.icache p.cwd).inum path).isSome =
  true
  | _ => False

/-- No `struct file` is free, or no descriptor of the process. -/
def Kernel.Exhausted (s : Kernel) (p : Proc) : Prop := (∀ f, (s.ftable f).ref ≠ 0) ∨ ∀ fd, p.ofile fd ≠ none

variable {strict : Prop} {T : Nodes → Prop} {s s' : Kernel} {v : Vfs} {m : Counts} {pid : Fin NPROC} {p : Proc}

theorem Moves.untouched (h : Moves strict s.vfs v s.uses m) (pid : Fin NPROC) : Untouched s { s with vfs := v } pid :=
  ⟨h.nodes, rfl, rfl, fun k hk => (h.keeps k hk).1⟩

theorem Done.untouched {x : Except Stop (Int × Vfs)} (hx : Ends (Fair strict) x (Done strict T s.vfs s.uses))
    (hcall : withVfs s x = .ok (-1, s')) (pid : Fin NPROC) : Untouched s s' pid := by
  cases hrun : x with
  | error e =>
    rw [hrun] at hcall
    cases hcall
  | ok r =>
    obtain ⟨r, v⟩ := r
    rw [hrun] at hcall
    cases hcall
    cases hx.of_ok hrun with
    | inl hfailed => exact hfailed.2.untouched pid
    | inr hok => cases hok.1

variable {path : List UInt8}

theorem Good.chdir_untouched (hT : Sound strict T) (h : Good strict T s.vfs s.uses) (hp : s.procs pid = some p) :
    Ends (Fair strict) (sysChdir s pid p path) fun r => r.1 = -1 → Untouched s r.2 pid := by
  have hcwd := s.uses_cwd hp
  refine (h.resolved hT hcwd path false).bind fun r hr => ?_
  cases hr with
  | missing _ hmoves => exact .ok fun _ => hmoves.untouched pid
  | @found v₁ ip name _ hmoves =>
    have hip := hold_pos_self s.uses ip
    refine (ilock_ends hmoves.cached hip []).bind fun v₂ hv₂ => ?_
    have hall : Moves strict s.vfs v₂ s.uses (hold s.uses ip) := hmoves.trans hv₂.2.2.of_hold
    split
    · refine (iput_moves hall.cached (hall.held h.held) []).bind fun v₃ hv₃ => ?_
      exact .ok fun _ => (hall.trans hv₃.2).untouched pid
    · have hgood := (h.taken hall).good
      have hstays : Stays strict T v₂ (hold s.uses ip) v₂ (hold s.uses ip) := ⟨hgood, fun _ _ _ => ⟨rfl, id⟩⟩
      rw [uses_chdir hp ip] at hstays
      refine ((Stays.bears hT _ _).iput hstays).bind fun v₃ _ => .ok fun hr => ?_
      cases hr

theorem fileclose_fresh {f : Fin NFILE} (href : (s.ftable f).ref = 0) (htype : (s.ftable f).type = .none) :
    fileclose (s.setRef f 1) f = .ok s := by
  have hfile : (s.setRef f 1).ftable f = { s.ftable f with ref := 1 } := update_self _ _ _
  have hclosed : File.closed { s.ftable f with ref := 1 } = s.ftable f := by
    calc File.closed { s.ftable f with ref := 1 } = { s.ftable f with ref := 0, type := .none } := rfl
      _ = s.ftable f := by rw [← href, ← htype]
  have hsame : (s.setRef f 1).setFile f (s.ftable f) = s := by
    dsimp only [Kernel.setRef, Kernel.setFile]
    rw [update_idem, update_eq_self]
  unfold fileclose
  rw [hfile, if_neg (show ¬(1 : Int) < 1 by decide), if_neg (show ¬(1 : Int) < 1 by decide), hclosed, hsame]
  rw [htype]

theorem sysOpen_fails {omode : UInt32} {ip : Fin NINODE}
    (hclosed : ∀ f, (s.ftable f).ref = 0 → (s.ftable f).type = .none)
    (hopen : openInode s.vfs p.cwd path omode = .ok (some ip, v)) (hcall : sysOpen s pid p path omode = .ok (-1, s')) :
    s.Exhausted p ∧ ∃ v', iput v [] ip = .ok v' ∧ s' = { s with vfs := v' } := by
  unfold sysOpen at hcall
  rw [hopen, ok_bind] at hcall
  dsimp only at hcall
  have hput : ∀ {t : Kernel}, t = { s with vfs := v } →
      (do let v' ← iput t.vfs [] ip; pure (-1, { t with vfs := v' }) : Except Stop (Int × Kernel)) = .ok (-1, s') →
      ∃ v', iput v [] ip = .ok v' ∧ s' = { s with vfs := v' } := by
    rintro t rfl ht
    cases hiput : iput v [] ip with
    | error e =>
      rw [hiput] at ht
      cases ht
    | ok v' =>
      rw [hiput] at ht
      cases ht
      exact ⟨v', rfl, rfl⟩
  split at hcall
  · rename_i hf
    exact ⟨.inl fun f hc => List.find?_eq_none.mp hf f (List.mem_finRange f) (decide_eq_true hc), hput rfl hcall⟩
  rename_i f hf
  split at hcall
  · rename_i hfd
    refine ⟨.inr fun fd hc => List.find?_eq_none.mp hfd fd (List.mem_finRange fd) (Option.isNone_iff_eq_none.mpr hc),
      ?_⟩
    have hfresh : fileclose (Kernel.setRef { s with vfs := v } f 1) f = .ok { s with vfs := v } :=
      fileclose_fresh (filealloc_ref hf) (hclosed f (filealloc_ref hf))
    rw [hfresh, ok_bind] at hcall
    exact hput rfl hcall
  · rename_i fd _
    injection hcall with hcall
    have hfd := congrArg Prod.fst hcall
    omega

theorem Good.open_untouched {omode : UInt32} (hT : Sound strict T) (h : Good strict T s.vfs s.uses)
    (hclosed : ∀ f, (s.ftable f).ref = 0 → (s.ftable f).type = .none) (hp : s.procs pid = some p)
    (hnew : omode &&& O_CREATE ≠ 0 → Creates T s.vfs.nodes (s.vfs.icache p.cwd).inum path T_FILE)
    (hcall : sysOpen s pid p path omode = .ok (-1, s')) :
    (Untouched s s' pid ↔ ¬opensNew s p (.open (some path) omode)) ∧
    (opensNew s p (.open (some path) omode) → s.Exhausted p) := by
  have hends := h.openInode hT (s.uses_cwd hp) hnew
  cases hopen : Sys.openInode s.vfs p.cwd path omode with
  | error e =>
    unfold sysOpen at hcall
    rw [hopen] at hcall
    cases hcall
  | ok r =>
    obtain ⟨found, v⟩ := r
    have hgot := hends.of_ok hopen
    cases hgot with
    | failed hquiet hmoves =>
      unfold sysOpen at hcall
      rw [hopen] at hcall
      cases hcall
      exact ⟨iff_of_true (hmoves.untouched pid) hquiet, fun hnews => absurd hnews hquiet⟩
    | @existing _ ip hquiet hmoves _ _ =>
      obtain ⟨-, v', hiput, rfl⟩ := sysOpen_fails hclosed hopen hcall
      have hput := ((iput_moves hmoves.cached (hmoves.held h.held) []).of_ok hiput).2
      exact ⟨iff_of_true ((hmoves.trans hput).untouched pid) hquiet, fun hnews => absurd hnews hquiet⟩
    | @made _ ip hnews hreaches _ _ hfree hlive hlinked =>
      obtain ⟨hshort, v', hiput, rfl⟩ := sysOpen_fails hclosed hopen hcall
      obtain ⟨-, -, -, -, hnodes⟩ := (iput_ends hreaches.good.cached hreaches.good.held []).of_ok hiput
      refine ⟨iff_of_false (fun huntouched => ?_) (not_not.mpr hnews), fun _ => hshort⟩
      have hsame : v'.nodes = v.nodes := by
        obtain hsame | ⟨-, hfrees⟩ := hnodes
        · exact hsame
        · exact absurd hfrees.nlink hlinked
      have hzero : (v.node ip).type = 0 := by
        rw [Vfs.node, ← hsame, huntouched.nodes]
        exact hfree
      exact hlive hzero

/-- In every state that is reached, a call on paths that returns -1 has left no trace, unless it is an `open` that
creates its file; such an `open` returns -1 only where no file or no descriptor is free. -/
theorem failed_calls_untouched_iff (nodes : Nodes) (calls : List (Fin NPROC × Op)) (s s' : Kernel) (pid : Fin NPROC)
    (p : Proc) (op : Op) (hboot : Bootable nodes) (hrun : run (Kernel.boot nodes) calls = .ok s)
    (hp : s.procs pid = some p) (hop : op.onPaths = true)
    (hcall : call s pid op = .ok (-1, s')) :
    (Untouched s s' pid ↔ ¬opensNew s p op) ∧ (opensNew s p op → s.Exhausted p) := by
  have hs : Settled False (Fit False) s := hboot.settled hrun
  have hgood := Exactly.inodes hs
  have hT := Fit.sound_false
  have hcwd := s.uses_cwd hp
  have hpermits := fun cwd => hgood.nodes.permits cwd op
  have hother : ∀ {op}, Untouched s s' pid → ¬opensNew s p op →
      (Untouched s s' pid ↔ ¬opensNew s p op) ∧ (opensNew s p op → s.Exhausted p) :=
    fun huntouched hnot => ⟨iff_of_true huntouched hnot, fun hnews => absurd hnews hnot⟩
  have hrefused : ∀ {op}, (.ok (-1, s) : Except Stop (Int × Kernel)) = .ok (-1, s') → ¬opensNew s p op →
      (Untouched s s' pid ↔ ¬opensNew s p op) ∧ (opensNew s p op → s.Exhausted p) := by
    intro op heq hnot
    cases heq
    exact hother ⟨rfl, rfl, rfl, fun _ _ => rfl⟩ hnot
  unfold call at hcall
  rw [hp] at hcall
  cases op with
  | link old new =>
    cases old with
    | none => exact hrefused hcall id
    | some old =>
      cases new with
      | none => exact hrefused hcall id
      | some new => exact hother (Done.untouched (hgood.sysLink hT hcwd old new (hpermits _)) hcall pid) id
  | unlink path =>
    cases path with
    | none => exact hrefused hcall id
    | some path => exact hother (Done.untouched (hgood.sysUnlink hT hcwd path (hpermits _)) hcall pid) id
  | mkdir path | mknod path major minor =>
    cases path with
    | none => exact hrefused hcall id
    | some path => exact hother (Done.untouched (hgood.sysMake hT hcwd (by decide) (hpermits _)) hcall pid) id
  | chdir path =>
    cases path with
    | none => exact hrefused hcall id
    | some path => exact hother ((hgood.chdir_untouched hT hp).of_ok hcall rfl) id
  | «open» path omode =>
    cases path with
    | none => exact hrefused hcall id
    | some path => exact hgood.open_untouched hT hs.closed hp (hpermits _) hcall
  | _ => cases hop

theorem bootable_bareRoot : Bootable bareRoot := by
  refine ⟨⟨bareRoot_fit.whole, False.elim, False.elim⟩, by decide, fun i _ htype => ?_⟩
  rw [bareRoot_type htype]
  decide

/-- `link` counts a name of `f` and finds that the new name is taken: it takes the count back. -/
theorem failed_calls_untouched_iff_taken : ∃ s s', run (Kernel.boot bareRoot)
    [(0, .open (some [102]) O_CREATE)] = .ok s ∧ call s 0 (.link (some [102]) (some [102])) = .ok (-1, s') ∧
    short (s'.vfs.nodes 2).nlink = 1 ∧ Untouched s s' 0 := by
  have hends : ∃ s, run (Kernel.boot bareRoot) [(0, .open (some [102]) O_CREATE)] = .ok s ∧ (s.procs 0).isSome ∧
      ∃ r, call s 0 (.link (some [102]) (some [102])) = .ok r ∧ r.1 = -1 ∧ short (r.2.vfs.nodes 2).nlink =
      1 := by decide +kernel
  obtain ⟨s, hrun, hproc, ⟨_, s'⟩, hcall, rfl, hone⟩ := hends
  obtain ⟨p, hp⟩ := Option.isSome_iff_exists.mp hproc
  exact ⟨s, s', hrun, hcall, hone,
    (failed_calls_untouched_iff bareRoot _ s s' 0 p _ bootable_bareRoot hrun hp rfl hcall).1.mpr id⟩

def sixteenOpen : List (Fin NPROC × Op) := List.replicate NOFILE (INIT, .open (some [SLASH]) O_RDONLY)

/-- It has no descriptor for the file `f`, which is created nonetheless. -/
theorem open_creates_and_fails : ∃ s s', run (Kernel.boot bareRoot) sixteenOpen = .ok s ∧
    call s 0 (.open (some [102]) O_CREATE) = .ok (-1, s') ∧ ¬Untouched s s' 0 ∧
    lookup (s.vfs.nodes ROOTINO).data [102] = none ∧ lookup (s'.vfs.nodes ROOTINO).data [102] = some 2 := by
  have hends : ∃ s, run (Kernel.boot bareRoot) sixteenOpen = .ok s ∧ ∃ r, call s 0 (.open (some [102]) O_CREATE) =
    .ok r ∧ r.1 = -1 ∧
      lookup (s.vfs.nodes ROOTINO).data [102] = none ∧ lookup (r.2.vfs.nodes ROOTINO).data [102] =
      some 2 := by decide +kernel
  obtain ⟨s, hrun, ⟨_, s'⟩, hcall, rfl, hbefore, hafter⟩ := hends
  refine ⟨s, s', hrun, hcall, fun huntouched => ?_, hbefore, hafter⟩
  rw [huntouched.nodes, hbefore] at hafter
  cases hafter

end Laboratorio.Sys
