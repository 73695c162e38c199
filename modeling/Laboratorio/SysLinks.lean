import Laboratorio.SysTree
import Laboratorio.SysUndo

/-! Link counts and names over whole runs. The calls keep the tree of directories as long as no name is entered in a
directory that has been removed, and then every link count is exact. If besides no directory is removed while another
one, itself removed but still in use, has it for its parent, then no entry names an inode that is free. -/

namespace Laboratorio.Sys

open Function

open Fs

variable {strict : Prop} {n : Nodes} {cwd x d i : Nat} {e e₀ e₁ : Dirent} {l : List Dirent} {name path : List UInt8}

/-! ### Places of a directory -/

theorem target_entry (hx : x < NINODES) (name : List UInt8) : target (entry name x) = x := toNat_entry hx name

theorem Shaped.place {n : Node} (h : Shaped d n e₀ e₁ l) (hd : d ≠ 0) (hvacant : Vacant n i)
    (hnone : lookup n.data name = none) (hx : x < NINODES) : ∃ k, i = k + 2 ∧ Place l k (entry name x) ∧ ∀ e,
    l[k]? = some e → e.inum = 0 := by
  have hle := hvacant.le
  have hempty := hvacant.empty
  rw [h.entries] at hle hempty
  have hne₀ : e₀.inum ≠ 0 := by
    intro hc
    rw [← target_eq_zero, h.self] at hc
    exact hd hc
  have hkey : ∀ e ∈ dirents n.data, e.inum ≠ 0 → key name ≠ key e.name := lookup_eq_none.mp hnone
  rw [h.entries] at hkey
  match i with
  | 0 => exact absurd (hempty e₀ rfl) hne₀
  | 1 => exact absurd (hempty e₁ rfl) h.parent
  | k + 2 =>
    refine ⟨k, rfl, ⟨?_, hvacant.fits, strncpy_length _ _, ?_, fun _ => ⟨?_, ?_⟩⟩, fun e he => hempty e he⟩
    · simp only [List.length_cons] at hle
      omega
    · rw [target_entry hx]
      exact hx
    · change key (strncpy DIRSIZ name) ≠ _
      rw [key_strncpy, ← h.first]
      exact hkey e₀ List.mem_cons_self hne₀
    · change key (strncpy DIRSIZ name) ≠ _
      rw [key_strncpy, ← h.second]
      exact hkey e₁ (List.mem_cons_of_mem _ List.mem_cons_self) h.parent

theorem Shaped.cleared {n : Node} (h : Shaped d n e₀ e₁ l) (he : (dirents n.data)[i]? = some e)
    (hkey : key name = key e.name) (hdot : key name ≠ key dot) (hdotdot : key name ≠ key dotdot) :
    ∃ k, i = k + 2 ∧ l[k]? = some e ∧ Place l k noEntry := by
  have hlt := (List.getElem?_eq_some_iff.mp he).1
  have hle := h.whole.le
  rw [length_dirents] at hlt
  rw [h.entries] at he
  match i with
  | 0 =>
    cases he
    exact absurd (hkey.trans h.first) hdot
  | 1 =>
    cases he
    exact absurd (hkey.trans h.second) hdotdot
  | k + 2 =>
    have hk := (List.getElem?_eq_some_iff.mp (show l[k]? = some e from he)).1
    refine ⟨k, rfl, he, hk.le, ?_, rfl, by decide, fun hc => absurd rfl hc⟩
    simp only [DIRENT] at hlt ⊢
    omega

theorem Shaped.lookup_dotdot {n : Node} (h : Shaped d n e₀ e₁ l) : lookup n.data dotdot = some (target e₁) := by
  have hfirst : named dotdot e₀ = false := by
    rw [Bool.eq_false_iff, ne_eq, named_iff]
    intro hc
    exact absurd (hc.2.trans h.first) (by decide)
  have hsecond : named dotdot e₁ = true := named_iff.mpr ⟨h.parent, h.second.symm⟩
  rw [lookup, h.entries, List.find?_cons, hfirst, List.find?_cons, hsecond]
  rfl

theorem Shaped.dots {n : Node} (h : n.data = []) (hx : x < NINODES) (hd : d < NINODES) (hd0 : d ≠ 0) :
    Shaped x (dots n x d) (entry dot x) (entry dotdot d) [] :=
  ⟨whole_dots h hx hd, dirents_dots h x d, key_strncpy dot, target_entry hx _, key_strncpy dotdot,
    entry_inum_ne_zero hd hd0 _, fun _ he => nomatch he⟩

/-! ### The calls keep the tree -/

theorem Tree.linked (h : Tree strict n) (hd : d < NINODES) (htype : (n d).type = T_DIR)
    (hshape : Shaped d (n d) e₀ e₁ l) {k : Nat} (hk : l[k]? = some e) (hinum : e.inum ≠ 0) : (n d).nlink ≠ 0 := by
  intro hzero
  have hobj : forest n d = _ := hshape.obj htype
  have hlinks : (forest n d).links ≤ 0 := by
    rw [hobj, hzero]
    exact Int.le_refl 0
  have hkind : (forest n d).kind = .dir (target e₁) (l.map target) := by rw [hobj]
  have hmem : target e ∈ l.map target := List.mem_map_of_mem (List.mem_of_getElem? hk)
  exact hinum (target_eq_zero.mp (h.inv.removed d hd _ _ hkind hlinks _ hmem))

theorem Tree.sound : Sound strict (Tree strict) where
  fit h := h.fit
  free h hfrees := h.free hfrees
  data {n i a} h htype hroom := by
    have hobj : Node.obj { n i with data := a } = forest n i := by
      change _ = (n i).obj
      unfold Node.obj
      rw [if_neg htype, if_neg htype]
    have hforest : forest (update n i { n i with data := a }) = forest n := by
      rw [forest_update, hobj, update_eq_self]
    refine ⟨fun j hj => ?_, ?_, fun hs => ?_, hroom⟩
    · by_cases hji : j = i
      · rw [hji, update_self] at hj
        exact absurd hj htype
      · rw [update_of_ne hji] at hj ⊢
        exact h.shaped j hj
    · rw [hforest]
      exact h.inv
    · rw [hforest]
      exact h.anchored hs

theorem Tree.creates {type : UInt16} (h : Tree strict n) (hkind : type ≠ 0)
    (hlinked : ∀ d, entersAt n cwd path = some d → (n d).nlink ≠ 0) : Creates (Tree strict) n cwd path type := by
  intro x d i name o c hc hroom
  obtain ⟨e₀, e₁, l, hshape⟩ := h.shaped d hc.dir
  have hd0 : d ≠ 0 := h.ne_zero (dir_ne_zero hc.dir)
  have hparent : Parent n d e₀ e₁ l := ⟨hc.lt, hc.dir, hshape, hlinked d (entersAt_eq hc.parent hc.fresh)⟩
  obtain ⟨k, rfl, hplace, hempty⟩ := hshape.place hd0 hc.vacant hc.fresh hc.range
  have htarget := target_entry hc.range name
  cases hc.made with
  | leaf hleaf htype hnlink =>
    rw [← htype] at hleaf hkind
    exact h.create hparent hplace hempty htarget hc.range hc.ne_zero hc.free ⟨hkind, hleaf⟩ hnlink hroom
  | dir hdir htype hnlink hdata =>
    exact h.makeDir hparent hplace hempty htarget hc.range hc.ne_zero hc.free (htype.trans hdir) hnlink
      (Shaped.dots hdata hc.range hc.lt hd0) (target_entry hc.lt _) hroom

theorem Tree.links {old new : List UInt8} (h : Tree strict n) (hl : Linking n cwd old new x d i name)
    (hlinked : (n d).nlink ≠ 0) (hroom : Roomy (linkedNodes n x d i name)) :
    Tree strict (linkedNodes n x d i name) := by
  obtain ⟨e₀, e₁, l, hshape⟩ := h.shaped d hl.type
  obtain ⟨k, rfl, hplace, hempty⟩ := hshape.place (h.ne_zero (dir_ne_zero hl.type)) hl.vacant hl.fresh hl.range
  exact h.link ⟨hl.lt, hl.type, hshape, hlinked⟩ hplace hempty (target_entry hl.range name) hl.range hl.live hl.leaf
    hroom

theorem Tree.unlinks (h : Tree strict n) (hu : Unlinking n cwd path x d i name e)
    (hchild : strict → (n x).type = T_DIR → ∀ y < NINODES, (n y).type = T_DIR → lookup (n y).data dotdot ≠ some x)
    (hroom : Roomy (unlinkedNodes n x d i)) : Tree strict (unlinkedNodes n x d i) := by
  obtain ⟨e₀, e₁, l, hshape⟩ := h.shaped d hu.type
  obtain ⟨k, rfl, hk, hplace⟩ :=
    hshape.cleared hu.place hu.named (fun hc => hu.notDot ((namecmp_eq_zero name dot).mpr hc)) fun hc =>
    hu.notDotdot ((namecmp_eq_zero name dotdot).mpr hc)
  have hparent : Parent n d e₀ e₁ l := ⟨hu.lt, hu.type, hshape, h.linked hu.lt hu.type hshape hk hu.inum⟩
  unfold unlinkedNodes at hroom ⊢
  by_cases hdir : (n x).type = T_DIR
  · rw [if_pos hdir] at hroom ⊢
    obtain ⟨e₀', e₁', l', hshape'⟩ := h.shaped x hdir
    have hempty := hu.empty hdir
    rw [hshape'.entries] at hempty
    have hlinked : (n x).nlink ≠ 0 := by
      intro hc
      have hone := hu.linked
      rw [hc] at hone
      exact absurd hone (by decide)
    refine (h.dropDir hparent hplace rfl hk hu.target ⟨hu.range, hdir, hshape', hlinked⟩ hempty
      (fun hs y hy _ q m hkind hq => ?_) hroom).2.2
    -- A child of `x` has the entry `..` for it.
    have hytype := type_of_dir hkind
    obtain ⟨e₀'', e₁'', l'', hshape''⟩ := h.shaped y hytype
    have hobj : (forest n y).kind = _ := congrArg LinkTree.Obj.kind (hshape''.obj hytype)
    rw [hobj] at hkind
    cases hkind
    apply hchild hs hdir y hy hytype
    rw [hshape''.lookup_dotdot, hq]
  · rw [if_neg hdir] at hroom ⊢
    exact h.dropLeaf hparent hplace rfl hk hu.target hu.range hu.live hdir hu.linked hroom

/-! ### What is asked of a call -/

/-- The directory where the call enters a name, if it does. -/
def enteredDir (n : Nodes) (cwd : Nat) : Op → Option Nat
  | .link (some old) (some new) =>
    match walk n cwd old false with
    | some (x, _) => if (n x).type = T_DIR then none else entersAt n cwd new
    | none => none
  | .mkdir (some path) => entersAt n cwd path
  | .mknod (some path) _ _ => entersAt n cwd path
  | .open (some path) omode => if omode &&& O_CREATE ≠ 0 then entersAt n cwd path else none
  | _ => none

/-- The empty directory that the call removes, if it does. -/
def removedDir (n : Nodes) (cwd : Nat) : Op → Option Nat
  | .unlink (some path) => removesDir n cwd path
  | _ => none

/-- The call enters a name in no directory that has been removed. -/
def EntersLinked (s : Kernel) (pid : Fin NPROC) (op : Op) : Prop :=
  ∀ p, s.procs pid = some p → ∀ d, enteredDir s.vfs.nodes (s.vfs.icache p.cwd).inum op = some d →
  (s.vfs.nodes d).nlink ≠ 0

/-- The call removes no directory that another one, in use or removed, has for its parent. -/
def KeepsParents (s : Kernel) (pid : Fin NPROC) (op : Op) : Prop :=
  ∀ p, s.procs pid = some p → ∀ x, removedDir s.vfs.nodes (s.vfs.icache p.cwd).inum op = some x →
    ∀ y < NINODES, (s.vfs.nodes y).type = T_DIR → lookup (s.vfs.nodes y).data dotdot ≠ some x

instance (s : Kernel) (pid : Fin NPROC) (op : Op) : Decidable (EntersLinked s pid op) :=
  inferInstanceAs (Decidable (∀ p ∈ s.procs pid, ∀ d ∈ enteredDir s.vfs.nodes (s.vfs.icache p.cwd).inum op, _))

instance (s : Kernel) (pid : Fin NPROC) (op : Op) : Decidable (KeepsParents s pid op) :=
  inferInstanceAs (Decidable (∀ p ∈ s.procs pid, ∀ x ∈ removedDir s.vfs.nodes (s.vfs.icache p.cwd).inum op, _))

theorem removesDir_eq (hu : Unlinking n cwd path x d i name e) (hdir : (n x).type = T_DIR) :
    removesDir n cwd path = some x := by
  have hname : ¬(namecmp name dot = 0 ∨ namecmp name dotdot = 0) := by
    rintro (hc | hc)
    · exact hu.notDot hc
    · exact hu.notDotdot hc
  unfold removesDir
  rw [hu.parent]
  dsimp only
  rw [if_neg hname, hu.found, Option.filter_some, if_pos (decide_eq_true ⟨hdir, hu.empty hdir⟩)]

theorem Tree.permits {op : Op} (h : Tree strict n) (hlinked : ∀ d, enteredDir n cwd op = some d → (n d).nlink ≠ 0)
    (hkept : strict → ∀ x, removedDir n cwd op = some x → ∀ y < NINODES, (n y).type = T_DIR →
    lookup (n y).data dotdot ≠ some x) :
    Permits (Tree strict) n cwd op := by
  cases op with
  | link old new =>
    cases old with
    | none => trivial
    | some old =>
      cases new with
      | none => trivial
      | some new =>
        intro x d i name hl hroom
        refine h.links hl (hlinked d ?_) hroom
        obtain ⟨last, hsource⟩ := hl.source
        rw [enteredDir, hsource]
        dsimp only
        rw [if_neg hl.leaf]
        exact entersAt_eq hl.parent hl.fresh
  | unlink path =>
    cases path with
    | none => trivial
    | some path =>
      exact fun x d i name e hu hroom =>
        h.unlinks hu (fun hs hdir => hkept hs x (removesDir_eq hu hdir)) hroom
  | mkdir path | mknod path major minor =>
    cases path with
    | none => trivial
    | some path => exact h.creates (by decide) hlinked
  | «open» path omode =>
    cases path with
    | none => trivial
    | some path =>
      intro hmode
      rw [enteredDir, if_pos hmode] at hlinked
      exact h.creates (by decide) hlinked
  | _ => trivial

end Laboratorio.Sys
