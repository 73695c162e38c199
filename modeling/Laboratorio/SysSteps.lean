import Laboratorio.SysCreate

/-! A call of the system, for any property of the inodes that survives what the call does to names. Data is written to
no directory: an inode that is open for writing is none, and as long as it is open it does not become one. -/

namespace Laboratorio.Sys

open Function

open Fs

variable {strict : Prop} {T : Nodes → Prop} {v v' v₀ : Vfs} {m m' m₀ : Counts} {w : Fin NINODE → Prop} {k : Fin NINODE}
  {s : Kernel} {pid : Fin NPROC} {p : Proc}

/-! ### Entries in use -/

/-- All is good, and the entries that have been in use since `v₀` are what they were. -/
structure Stays (strict : Prop) (T : Nodes → Prop) (v₀ : Vfs) (m₀ : Counts) (v : Vfs) (m : Counts) : Prop where
  good : Good strict T v m
  since : ∀ k, 0 < m₀ k → 0 < m k → (v.icache k).inum = (v₀.icache k).inum ∧
    ((v₀.icache k).valid = true → (v.icache k).valid = true)

theorem Reaches.stays (h : Reaches strict T v v' m m') :
    Stays strict T v m v' m' := ⟨h.good, fun k hk _ => h.keeps k hk⟩

theorem Stays.keeps (h : Stays strict T v₀ m₀ v m) (hgood : Good strict T v' m') (hkeeps : Keeps v v' m)
    (hle : ∀ k, 0 < m' k → 0 < m k) : Stays strict T v₀ m₀ v' m' := by
  refine ⟨hgood, fun k hk₀ hk => ?_⟩
  obtain ⟨hinum, hvalid⟩ := h.since k hk₀ (hle k hk)
  obtain ⟨hinum', hvalid'⟩ := hkeeps k (hle k hk)
  exact ⟨hinum'.trans hinum, hvalid' ∘ hvalid⟩

theorem Stays.bears (hT : Sound strict T) (v₀ : Vfs) (m₀ : Counts) : Bears (Fair strict) (Stays strict T v₀ m₀) where
  fair _ he := Fair.of_ne he
  iput {v m k} h := by
    have hrefl : Reaches strict T v v m (hold m k) := ⟨h.good, Keeps.refl v m⟩
    refine (hrefl.drop hT).mono fun v' hv' => ⟨hv'.good, fun l hl₀ hl => ?_⟩
    obtain ⟨hinum, hvalid⟩ := h.since l hl₀ (hold_mono hl)
    obtain ⟨hinum', hvalid'⟩ := hv'.keeps l hl
    exact ⟨hinum'.trans hinum, hvalid' ∘ hvalid⟩
  idup {v m k} h hk := by
    have hmoves := idup_moves h.good.cached hk
    refine h.keeps (h.good.taken hmoves).good hmoves.keeps fun l hl => ?_
    obtain hl | rfl := hold_pos.mp hl
    · exact hl
    · exact hk
  ilock {v m k} h hk := by
    refine (ilock_ends h.good.cached hk []).mono fun v' hv' => ?_
    have hmoved := h.good.moved hv'.2.2
    exact h.keeps hmoved.good hmoved.keeps fun _ => id

/-! ### Inodes open for writing -/

/-- A file of the system may write to the inode of the entry. -/
structure Writable (v : Vfs) (k : Fin NINODE) : Prop where
  valid : (v.icache k).valid = true
  file : (v.node k).type ≠ T_DIR

abbrev Settled (strict : Prop) (T : Nodes → Prop) (s : Kernel) : Prop := Exactly (Good strict T) (Writable s.vfs) s

/-- The entries to which the files of `s` may write. -/
abbrev Written (s : Kernel) (k : Fin NINODE) : Prop := 0 < s.uses k ∧ Writable s.vfs k

/-- `T`, and no inode that was open for writing has become a directory. -/
structure Guarded (T : Nodes → Prop) (s : Kernel) (n : Nodes) : Prop where
  holds : T n
  files : ∀ k, Written s k → (n (s.vfs.icache k).inum).type ≠ T_DIR

theorem Sound.guarded (hT : Sound strict T) (s : Kernel) : Sound strict (Guarded T s) where
  fit h := hT.fit h.holds
  free {n n' i} h hfrees := by
    refine ⟨hT.free h.holds hfrees, fun k hk => ?_⟩
    rw [hfrees.eq]
    by_cases heq : (s.vfs.icache k).inum = i
    · rw [heq, update_self]
      exact nofun
    · rw [update_of_ne heq]
      exact h.files k hk
  data {n i a} h htype hroom := by
    refine ⟨hT.data h.holds htype hroom, fun k hk => ?_⟩
    by_cases heq : (s.vfs.icache k).inum = i
    · rw [heq, update_self]
      exact htype
    · rw [update_of_ne heq]
      exact h.files k hk

theorem Guarded.entered {n : Nodes} {x d i : Nat} {o : Node} {e : Dirent} {c : UInt16} (h : Guarded T s n)
    (hnew : T (entered n x o d i e c)) (htype : (n d).type = T_DIR) (ho : (n x).type = 0 ∨ o.type = (n x).type)
    (hlive : ∀ k, Written s k → (n (s.vfs.icache k).inum).type ≠ 0) : Guarded T s (entered n x o d i e c) := by
  refine ⟨hnew, fun k hk => ?_⟩
  have hfile := h.files k hk
  unfold Sys.entered
  have hd : (s.vfs.icache k).inum ≠ d := by
    rintro rfl
    exact hfile htype
  rw [update_of_ne hd]
  by_cases hx : (s.vfs.icache k).inum = x
  · rw [hx, update_self]
    cases ho with
    | inl hfree =>
      rw [← hx] at hfree
      exact absurd hfree (hlive k hk)
    | inr hsame =>
      rw [hsame, ← hx]
      exact hfile
  · rw [update_of_ne hx]
    exact hfile

/-! ### Calls -/

/-- `T` survives what the call does to names. -/
def Permits (T : Nodes → Prop) (n : Nodes) (cwd : Nat) : Op → Prop
  | .link (some old) (some new) => ∀ x d i name, Linking n cwd old new x d i name → Roomy (linkedNodes n x d i name) →
      T (linkedNodes n x d i name)
  | .unlink (some path) => ∀ x d i name e, Unlinking n cwd path x d i name e → Roomy (unlinkedNodes n x d i) →
  T (unlinkedNodes n x d i)
  | .mkdir (some path) => Creates T n cwd path T_DIR
  | .mknod (some path) _ _ => Creates T n cwd path T_DEV
  | .open (some path) omode => omode &&& O_CREATE ≠ 0 → Creates T n cwd path T_FILE
  | _ => True

section Guarding

variable {n : Nodes} {cwd : Nat} (h : Guarded T s n) (hlive : ∀ k, Written s k → (n (s.vfs.icache k).inum).type ≠ 0)

include h hlive

theorem Creates.guarded {path : List UInt8} {type : UInt16} (hnew : Creates T n cwd path type) :
    Creates (Guarded T s) n cwd path type :=
  fun x d i name o c hc hroom => h.entered (hnew x d i name o c hc hroom) hc.dir (Or.inl hc.free) hlive

theorem Permits.guarded {op : Op} (hop : Permits T n cwd op) : Permits (Guarded T s) n cwd op := by
  cases op with
  | link old new =>
    cases old with
    | none => trivial
    | some old =>
      cases new with
      | none => trivial
      | some new => exact fun x d i name hl hroom => h.entered (hop x d i name hl hroom) hl.type (Or.inr rfl) hlive
  | unlink path =>
    cases path with
    | none => trivial
    | some path => exact fun x d i name e hu hroom => h.entered (hop x d i name e hu hroom) hu.type (Or.inr rfl) hlive
  | mkdir path | mknod path major minor =>
    cases path with
    | none => trivial
    | some path => exact Creates.guarded h hlive hop
  | «open» path omode =>
    cases path with
    | none => trivial
    | some path => exact fun hmode => Creates.guarded h hlive (hop hmode)
  | _ => trivial

end Guarding

/-- What a call leaves: the entries that were written to, or that `open` has opened for writing. -/
def Leaves (strict : Prop) (T : Nodes → Prop) (s s' : Kernel) : Prop :=
  ∃ w, Exactly (Stays strict T s.vfs s.uses) w s' ∧ ∀ k, w k → Written s k ∨ Writable s'.vfs k

theorem Exactly.leaves {s' : Kernel} (h : Exactly (Stays strict T s.vfs s.uses) (Written s) s') :
    Leaves strict T s s' :=
  ⟨_, h, fun _ => Or.inl⟩

theorem Stays.writes (hT : Sound strict T) (g : List UInt8 → List UInt8)
    (h : Stays strict (Guarded T s) s.vfs s.uses v m) (hk : 0 < m k) (hw : Written s k)
    (hroom : Roomy (v.modify k fun n => { n with data := g n.data }).nodes) :
    Stays strict (Guarded T s) s.vfs s.uses (v.modify k fun n => { n with data := g n.data }) m := by
  obtain ⟨hinum, hvalid⟩ := h.since k hw.1 hk
  have hfile : (v.node k).type ≠ T_DIR := by
    rw [Vfs.node, hinum]
    exact h.good.nodes.files k hw
  have hnodes : Guarded T s (v.modify k fun n => { n with data := g n.data }).nodes :=
    (hT.guarded s).data h.good.nodes hfile hroom
  exact h.keeps ⟨h.good.cached.modify id, h.good.held.modify hk (hvalid hw.2.valid), hnodes⟩ modify_keeps fun _ => id

theorem Exactly.leave (h : Exactly (Good strict (Guarded T s)) (Written s) s) (hT : Sound strict T) {op : Op}
    (hop : ∀ p, s.procs pid = some p → Permits (Guarded T s) s.vfs.nodes (s.vfs.icache p.cwd).inum op) :
    Ends (Fair strict) (Sys.call s pid op) fun r => Leaves strict (Guarded T s) s r.2 := by
  have hG := hT.guarded s
  have hJ := Stays.bears hG s.vfs s.uses
  have hgood := h.inodes
  have hrefl : Reaches strict (Guarded T s) s.vfs s.vfs s.uses s.uses := ⟨hgood, Keeps.refl _ _⟩
  have hs : Exactly (Stays strict (Guarded T s) s.vfs s.uses) (Written s) s := h.setVfs hrefl.stays
  have hleave : ∀ {x : Except Stop (Int × Kernel)},
      Ends (Fair strict) x (fun r => Exactly (Stays strict (Guarded T s) s.vfs s.uses) (Written s) r.2) →
      Ends (Fair strict) x fun r => Leaves strict (Guarded T s) s r.2 := fun hx => hx.mono fun _ hr => hr.leaves
  unfold Sys.call
  cases hp : s.procs pid with
  | none => exact .ok hs.leaves
  | some p =>
    have hcwd := s.uses_cwd hp
    have hnew := hop p hp
    have hdone : ∀ {x}, Ends (Fair strict) x (Done strict (Guarded T s) s.vfs s.uses) →
        Ends (Fair strict) (Sys.withVfs s x) fun r => Leaves strict (Guarded T s) s r.2 :=
      fun hx => hleave (h.withVfs (hx.mono fun _ hr => (hr.reaches hgood).stays))
    cases op with
    | link old new =>
      cases old with
      | none => exact .ok hs.leaves
      | some old =>
        cases new with
        | none => exact .ok hs.leaves
        | some new => exact hdone (hgood.sysLink hG hcwd old new hnew)
    | unlink path =>
      cases path with
      | none => exact .ok hs.leaves
      | some path => exact hdone (hgood.sysUnlink hG hcwd path hnew)
    | mkdir path | mknod path major minor =>
      cases path with
      | none => exact .ok hs.leaves
      | some path => exact hdone (hgood.sysMake hG hcwd (by decide) hnew)
    | «open» path omode =>
      cases path with
      | none => exact .ok hs.leaves
      | some path =>
        refine hs.open hJ hp ((hgood.openInode hG hcwd hnew).mono fun r hr => ⟨(hr.reaches hgood).stays, ?_⟩)
        rintro ip hip hwrites
        have hmode : omode ≠ O_RDONLY := by
          rintro rfl
          have hfalse : (openedFile O_RDONLY ip).writable = false := by
            dsimp only [openedFile]
            decide
          rw [File.Writes, hfalse] at hwrites
          cases hwrites.2
        cases hr with
        | failed _ _ => cases hip
        | existing _ _ hvalid hfits | made _ _ hvalid hfits _ _ _ =>
          cases hip
          exact ⟨hvalid, fun hc => hmode (hfits hc)⟩
    | chdir path =>
      cases path with
      | none => exact .ok hs.leaves
      | some path =>
        refine hleave (hs.chdir hJ hp ((hgood.resolved hG hcwd path false).mono fun r hr => ?_))
        cases hr with
        | missing _ hmoves => exact (hgood.moved hmoves).stays
        | found _ hmoves => exact (hgood.taken hmoves).stays
    | close fd =>
      cases fd with
      | none => exact .ok hs.leaves
      | some fd => exact (hs.close hJ hp fd).mono fun r hr => hr.1.leaves
    | fork memory => exact hleave (hs.fork hJ hp memory)
    | exit => exact hleave (hs.exit hJ hp)
    | wait killed => exact hleave (hs.wait hJ pid killed)
    | dup fd =>
      cases fd with
      | none => exact .ok hs.leaves
      | some fd => exact hleave (hs.dup hJ hp fd)
    | pipe memory => exact hleave (hs.pipe hJ hp memory)
    | read fd n answer =>
      cases fd with
      | none => exact .ok hs.leaves
      | some fd => exact hleave (hs.read hJ hp fd n answer)
    | write fd src answer =>
      cases fd with
      | none => exact .ok hs.leaves
      | some fd =>
        exact hleave (hs.write hJ hp (fun g hv hk hw hroom => Stays.writes hT g hv hk hw hroom) fd src answer)
    | exec path loads =>
      cases path with
      | none => exact .ok hs.leaves
      | some path =>
        exact hleave (h.withVfs ((hgood.sysExec hG hcwd path loads).mono fun _ hr => (hgood.moved hr).stays))
    | rejected => exact .ok hs.leaves

theorem Exactly.uses_open {J : Vfs → Counts → Prop} (h : Exactly J w s) {f : Fin NFILE}
    (htype : (s.ftable f).type = .inode) : 0 < s.uses (s.ftable f).ip := by
  have href : 0 < (s.ftable f).ref := by
    have hfiles := h.files f
    have hne : (s.ftable f).ref ≠ 0 := by
      intro hc
      have hnone := h.closed f hc
      rw [htype] at hnone
      cases hnone
    omega
  rw [s.uses_closed_inode htype href]
  exact hold_pos_self _ _

theorem Settled.call (h : Settled strict T s) (hT : Sound strict T) {op : Op}
    (hop : ∀ p, s.procs pid = some p → Permits T s.vfs.nodes (s.vfs.icache p.cwd).inum op) :
    Ends (Fair strict) (call s pid op) fun r => Settled strict T r.2 := by
  have hgood := h.inodes
  have hguarded : Guarded T s s.vfs.nodes := ⟨hgood.nodes, fun k hk => hk.2.file⟩
  have hlive : ∀ k, Written s k → (s.vfs.nodes (s.vfs.icache k).inum).type ≠ 0 := fun k hk =>
    hgood.cached.live k hk.1 hk.2.valid
  have hstart : Exactly (Good strict (Guarded T s)) (Written s) s := by
    refine ⟨h.files, h.closed, fun f hf => ⟨h.uses_open hf.1, h.writers f hf⟩, ?_⟩
    rw [add_zero_counts]
    exact ⟨hgood.cached, hgood.held, hguarded⟩
  refine (hstart.leave hT fun p hp => Permits.guarded hguarded hlive (hop p hp)).mono fun r hr => ?_
  obtain ⟨w, hw, hwritten⟩ := hr
  have hgood' := hw.inodes.good
  refine ⟨hw.files, hw.closed, fun f hf => ?_, ?_⟩
  · have huse := hw.uses_open hf.1
    cases hwritten _ (hw.writers f hf) with
    | inr hnew => exact hnew
    | inl hold =>
      obtain ⟨hinum, hvalid⟩ := hw.inodes.since _ hold.1 huse
      refine ⟨hvalid hold.2.valid, ?_⟩
      rw [Vfs.node, hinum]
      exact hgood'.nodes.files _ hold
  · rw [add_zero_counts]
    exact ⟨hgood'.cached, hgood'.held, hgood'.nodes.holds⟩

/-! ### Runs -/

/-- Every call of a run is made in a state where `C` holds of it. -/
def Along (C : Kernel → Fin NPROC → Op → Prop) : Kernel → List (Fin NPROC × Op) → Prop
  | _, [] => True
  | s, c :: calls => C s c.1 c.2 ∧ ∀ r s', call s c.1 c.2 = .ok (r, s') → Along C s' calls

instance Along.decidable (C : Kernel → Fin NPROC → Op → Prop) [∀ s pid op, Decidable (C s pid op)] :
    ∀ (s : Kernel) (calls : List (Fin NPROC × Op)), Decidable (Along C s calls)
  | _, [] => isTrue trivial
  | s, c :: calls =>
    have : Decidable (∀ r s', call s c.1 c.2 = .ok (r, s') → Along C s' calls) :=
      match call s c.1 c.2 with
      | .error _ => isTrue nofun
      | .ok (r, s') =>
        have := Along.decidable C s' calls
        decidable_of_iff (Along C s' calls) ⟨fun | h, _, _, rfl => h, fun h => h r s' rfl⟩
    inferInstanceAs (Decidable (_ ∧ _))

theorem Along.of_forall {C : Kernel → Fin NPROC → Op → Prop} (h : ∀ s pid op, C s pid op) (s : Kernel)
    (calls : List (Fin NPROC × Op)) : Along C s calls := by
  induction calls generalizing s with
  | nil => trivial
  | cons c calls ih => exact ⟨h s c.1 c.2, fun _ s' _ => ih s'⟩

theorem Settled.run {C : Kernel → Fin NPROC → Op → Prop} (hT : Sound strict T)
    (hC : ∀ s pid op p, T s.vfs.nodes → s.procs pid = some p → C s pid op →
    Permits T s.vfs.nodes (s.vfs.icache p.cwd).inum op)
    {calls : List (Fin NPROC × Op)} (h : Settled strict T s) (hcalls : Along C s calls) :
    Ends (Fair strict) (run s calls) (Settled strict T) := by
  induction calls generalizing s with
  | nil => exact .ok h
  | cons c calls ih =>
    obtain ⟨hc, hrest⟩ := hcalls
    have hstep : Ends (Fair strict) (Sys.call s c.1 c.2) fun r => Settled strict T r.2 :=
      Settled.call h hT fun p hp => hC s c.1 c.2 p (Exactly.inodes h).nodes hp hc
    unfold Sys.run
    rw [List.foldlM_cons]
    cases hrun : Sys.call s c.1 c.2 with
    | error e =>
      rw [hrun] at hstep
      cases hstep with
      | stop he => exact .stop he
    | ok r => exact ih (hstep.of_ok hrun) (hrest r.1 r.2 hrun)

end Laboratorio.Sys
