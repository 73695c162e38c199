import Laboratorio.MkfsTree
import Laboratorio.SysLinks

/-! What holds after every run of calls that keeps the tree of directories: link counts are exact, and no entry names an
inode that is free. The runs start from a disk whose only directory is the root, such as `mkfs` makes. -/

namespace Laboratorio.Sys

open Fs

variable {strict : Prop} {n : Nodes} {i y : Nat} {e₀ e₁ : Dirent} {l : List Dirent}

/-! ### A disk with one directory -/

theorem refs_leaf {o : Node} (h : o.type ≠ T_DIR) (y : Nat) : o.obj.refs y = 0 :=
  LinkTree.refs_dead fun ⟨_, _, hl⟩ => h (type_of_dir hl.kind)

/-- The root is the only directory, and it names every file as often as the file counts. -/
structure Flat (n : Nodes) (e₀ e₁ : Dirent) (l : List Dirent) : Prop where
  root : (n ROOTINO).type = T_DIR
  shaped : Shaped ROOTINO (n ROOTINO) e₀ e₁ l
  up : target e₁ = ROOTINO
  one : (n ROOTINO).nlink = 1
  zero : (n 0).type = 0
  only : ∀ i, (n i).type = T_DIR → i = ROOTINO
  other : ROOTINO ∉ l.map target
  files : ∀ i < NINODES, i ≠ ROOTINO → (n i).type ≠ 0 → short (n i).nlink = (l.map target).count i
  named : ∀ y ∈ l.map target, y ≠ 0 → y < NINODES ∧ (n y).type ≠ 0
  room : Roomy n

namespace Flat

variable (h : Flat n e₀ e₁ l)

include h

theorem obj : forest n ROOTINO = ⟨.dir ROOTINO (l.map target), 1⟩ := by
  have hobj : forest n ROOTINO = _ := h.shaped.obj h.root
  rw [hobj, h.up, h.one]
  rfl

theorem live : LinkTree.Live (forest n ROOTINO) ROOTINO (l.map target) := by
  rw [h.obj]
  exact ⟨rfl, Int.one_pos⟩

theorem dir_eq {p : Nat} {m : List Nat} (hkind : (forest n i).kind = .dir p m) :
    i = ROOTINO ∧ p = ROOTINO ∧ m = l.map target := by
  obtain rfl := h.only i (type_of_dir hkind)
  rw [h.obj] at hkind
  cases hkind
  exact ⟨rfl, rfl, rfl⟩

theorem count_eq (y : Nat) :
    LinkTree.count NINODES (forest n) y = (if ROOTINO = y then 1 else 0) + (l.map target).count y := by
  rw [LinkTree.count, Finset.sum_eq_single ROOTINO, LinkTree.refs_live h.live]
  · intro j _ hj
    exact refs_leaf (fun hc => hj (h.only j hc)) y
  · intro hmem
    exact absurd (Finset.mem_range.mpr (by decide)) hmem

theorem tree : Tree strict n := by
  refine ⟨fun i hi => ?_, ⟨obj_free.mpr h.zero, ⟨by decide, _, h.live⟩, fun x hx hfree => ?_,
    fun x _ p m hkind hlinks => ?_, fun x _ p m hm y hy hy0 => ?_, fun x _ hroot p m hm =>
      ?_, fun x _ p m hm y hy hy0 q k hkind => ?_⟩, fun _ x _ p m hkind => ?_, h.room⟩
  · obtain rfl := h.only i hi
    exact ⟨e₀, e₁, l, h.shaped⟩
  · rw [h.count_eq]
    by_cases hroot : x = ROOTINO
    · rw [hroot, h.obj, if_pos rfl, List.count_eq_zero.mpr h.other]
      rfl
    · rw [if_neg (Ne.symm hroot), Nat.zero_add]
      exact h.files x hx hroot fun hc => hfree (obj_free.mpr hc)
  · obtain ⟨rfl, -, -⟩ := h.dir_eq hkind
    rw [h.obj] at hlinks
    exact absurd hlinks Int.one_pos.not_ge
  · obtain ⟨-, -, rfl⟩ := h.dir_eq hm.kind
    obtain ⟨hlt, htype⟩ := h.named y hy hy0
    exact ⟨hlt, fun hc => htype (obj_free.mp hc)⟩
  · exact absurd (h.dir_eq hm.kind).1 hroot
  · obtain ⟨-, -, rfl⟩ := h.dir_eq hm.kind
    obtain ⟨rfl, -, -⟩ := h.dir_eq hkind
    exact absurd hy h.other
  · obtain ⟨-, rfl, -⟩ := h.dir_eq hkind
    exact ⟨by decide, _, _, h.live⟩

theorem settled (hlinked : ∀ i < NINODES, (n i).type ≠ 0 → (n i).nlink ≠ 0) :
    Settled strict (Tree strict) (Kernel.boot n) :=
  Settled.boot h.tree (dir_ne_zero h.root) hlinked

end Flat

theorem flat_bareRoot : Flat bareRoot (entry dot ROOTINO) (entry dotdot ROOTINO) [] := by
  have hnode : bareRoot ROOTINO = dots { Node.blank T_DIR with nlink := 1 } ROOTINO ROOTINO := rfl
  refine ⟨rfl, ?_, target_entry (by decide) _, rfl, rfl, fun i => bareRoot_dir, List.not_mem_nil,
    fun i _ hne htype => ?_, fun y hy => (nomatch hy), ?_⟩
  · rw [hnode]
    exact Shaped.dots rfl (by decide) (by decide) (by decide)
  · exact absurd (bareRoot_type htype) hne
  · decide +kernel

/-! ### Link counts -/

/-- The entries other than `.` that name `y`, in directories that have links. -/
def namings (n : Nodes) (y : Nat) : Nat :=
  ∑ i ∈ Finset.range NINODES, if (n i).type = T_DIR ∧ 0 < short (n i).nlink then
    (dirents (n i).data).countP fun e => e.inum ≠ 0 ∧ key e.name ≠ key dot ∧ e.inum.toNat = y
  else 0

def LinksExact (n : Nodes) : Prop := ∀ y < NINODES, (n y).type ≠ 0 → short (n y).nlink = namings n y

theorem Shaped.namings {n : Node} (h : Shaped i n e₀ e₁ l) (hy : y ≠ 0) :
    (dirents n.data).countP (fun e => e.inum ≠ 0 ∧ key e.name ≠ key dot ∧ e.inum.toNat = y) =
      (if target e₁ = y then 1 else 0) + (l.map target).count y := by
  have hrest : l.countP (fun e => e.inum ≠ 0 ∧ key e.name ≠ key dot ∧ e.inum.toNat = y) = (l.map target).count y := by
    rw [List.count, List.countP_map]
    apply List.countP_congr
    intro e he
    rw [decide_eq_true_iff, Function.comp_apply, beq_iff_eq]
    refine ⟨fun hc => hc.2.2, fun hc => ?_⟩
    have hinum : e.inum ≠ 0 := fun hzero => hy (hc.symm.trans (target_eq_zero.mpr hzero))
    exact ⟨hinum, (h.rest e he hinum).1, hc⟩
  have hdot : ¬(e₀.inum ≠ 0 ∧ key e₀.name ≠ key dot ∧ e₀.inum.toNat = y) := fun hc => hc.2.1 h.first
  have hdotdot : (e₁.inum ≠ 0 ∧ key e₁.name ≠ key dot ∧ e₁.inum.toNat = y) ↔ target e₁ = y := by
    refine ⟨fun hc => hc.2.2, fun hc => ⟨h.parent, ?_, hc⟩⟩
    rw [h.second]
    decide
  rw [h.entries, List.countP_cons_of_neg (by rwa [decide_eq_true_iff]), List.countP_cons, hrest, Nat.add_comm]
  congr 1
  exact if_congr (by rw [decide_eq_true_iff]; exact hdotdot) rfl rfl

theorem Tree.linksExact (h : Tree strict n) : LinksExact n := by
  intro y hy htype
  have hlinks := h.inv.links y hy fun hc => htype (obj_free.mp hc)
  have hcount : LinkTree.count NINODES (forest n) y = namings n y := by
    apply Finset.sum_congr rfl
    intro i _
    by_cases hlive : (n i).type = T_DIR ∧ 0 < short (n i).nlink
    · obtain ⟨e₀, e₁, l, hshape⟩ := h.shaped i hlive.1
      have hobj : LinkTree.Live (forest n i) (target e₁) (l.map target) := by
        change LinkTree.Live (n i).obj _ _
        rw [hshape.obj hlive.1]
        exact ⟨rfl, hlive.2⟩
      rw [if_pos hlive, hshape.namings (h.ne_zero htype), LinkTree.refs_live hobj]
    · rw [if_neg hlive]
      apply LinkTree.refs_dead
      rintro ⟨p, m, hm⟩
      exact hlive ⟨type_of_dir hm.kind, hm.links⟩
  rw [← hcount]
  exact hlinks

theorem tree_of_run {calls : List (Fin NPROC × Op)} {s : Kernel}
    (hcalls : Along EntersLinked (Kernel.boot bareRoot) calls) (hrun : run (Kernel.boot bareRoot) calls = .ok s) :
    Tree False s.vfs.nodes := by
  have hstart : Settled False (Tree False) (Kernel.boot bareRoot) := flat_bareRoot.settled fun i _ htype => by
    rw [bareRoot_type htype]
    decide
  have hends := Settled.run Tree.sound (fun s pid op p htree hp hop => htree.permits (hop p hp) False.elim) hstart
    hcalls
  exact (Exactly.inodes (hends.of_ok hrun)).nodes

/-- Link counts are exact after every run that enters names only in directories with links. -/
theorem link_counts_exact (calls : List (Fin NPROC × Op)) (s : Kernel)
    (hcalls : Along EntersLinked (Kernel.boot bareRoot) calls) (hrun : run (Kernel.boot bareRoot) calls = .ok s) :
    LinksExact s.vfs.nodes :=
  (tree_of_run hcalls hrun).linksExact

/-- The directory `a/b` is made and removed, and then `a`. -/
def makeRemove : List (Fin NPROC × Op) :=
  [(INIT, .mkdir (some [97])), (INIT, .mkdir (some [97, SLASH, 98])), (INIT, .unlink (some [97, SLASH, 98])),
  (INIT, .unlink (some [97]))]

theorem link_counts_exact_makeRemove : ∃ s, run (Kernel.boot bareRoot) makeRemove = .ok s ∧
    (s.vfs.nodes 2).type = 0 ∧ LinksExact s.vfs.nodes := by
  have hends : ∃ s, run (Kernel.boot bareRoot) makeRemove = .ok s ∧ (s.vfs.nodes 2).type = 0 := by decide +kernel
  obtain ⟨s, hrun, hfree⟩ := hends
  exact ⟨s, hrun, hfree, link_counts_exact makeRemove s (by decide +kernel) hrun⟩

/-- The directory `d` is removed while it is the working directory, and the file `f` is created in it. -/
def createRemoved : List (Fin NPROC × Op) :=
  [(INIT, .mkdir (some [100])), (INIT, .chdir (some [100])), (INIT, .unlink (some [SLASH, 100])),
  (INIT, .open (some [102]) O_CREATE)]

/-- The file has a link that is in no directory with links. -/
theorem createRemoved_miscounts : ∃ s, run (Kernel.boot bareRoot) createRemoved = .ok s ∧ ¬LinksExact s.vfs.nodes := by
  have hends : ∃ s, run (Kernel.boot bareRoot) createRemoved = .ok s ∧ (s.vfs.nodes 3).type ≠ 0 ∧
      short (s.vfs.nodes 3).nlink = 1 ∧ namings s.vfs.nodes 3 = 0 := by decide +kernel
  obtain ⟨s, hrun, htype, hone, hzero⟩ := hends
  refine ⟨s, hrun, fun hexact => ?_⟩
  have hlinks := hexact 3 (by decide) htype
  rw [hone, hzero] at hlinks
  cases hlinks

/-! ### The names of a directory -/

/-- A directory with links. -/
def InUse (n : Nodes) (i : Nat) : Prop := (n i).type = T_DIR ∧ 0 < short (n i).nlink

/-- How many entries of the directory after `.` and `..` name the inode. -/
def namedIn (n : Nodes) (d i : Nat) : Nat := (((dirents (n d).data).drop 2).map target).count i

theorem Tree.live_iff (h : Tree strict n) (i : Nat) :
    InUse n i ↔ ∃ p, (lookup (n i).data dotdot = some p ∧ ((dirents (n i).data)[1]?).map target = some p) ∧
      LinkTree.Live (forest n i) p (((dirents (n i).data).drop 2).map target) := by
  constructor
  · rintro ⟨htype, hlinks⟩
    obtain ⟨e₀, e₁, l, hshape⟩ := h.shaped i htype
    refine ⟨target e₁, ⟨hshape.lookup_dotdot, by rw [hshape.entries]; rfl⟩, ?_⟩
    change LinkTree.Live (n i).obj _ _
    rw [hshape.obj htype, hshape.entries]
    exact ⟨rfl, hlinks⟩
  · rintro ⟨p, -, hlive⟩
    exact ⟨type_of_dir hlive.kind, hlive.links⟩

/-- After every run that enters names only in directories with links, a directory with links other than the root has
one name, in the directory that its `..`, the second entry, names. -/
theorem directories_named_once (calls : List (Fin NPROC × Op)) (s : Kernel)
    (hcalls : Along EntersLinked (Kernel.boot bareRoot) calls) (hrun : run (Kernel.boot bareRoot) calls = .ok s) :
      ∀ i < NINODES, i ≠ ROOTINO → InUse s.vfs.nodes i → ∃ d < NINODES, lookup (s.vfs.nodes i).data dotdot = some d ∧
        ((dirents (s.vfs.nodes i).data)[1]?).map target = some d ∧ InUse s.vfs.nodes d ∧ namedIn s.vfs.nodes d i = 1 ∧
        ∀ d' < NINODES, InUse s.vfs.nodes d' → d' ≠ d → namedIn s.vfs.nodes d' i = 0 := by
  have h := tree_of_run hcalls hrun
  intro i hi hroot huse
  obtain ⟨d, ⟨hlookup, hsecond⟩, hlive⟩ := (h.live_iff i).mp huse
  obtain ⟨hd, q, m, hdlive, hmem⟩ := h.inv.up i hi hroot d _ hlive
  have hi0 := h.inv.live_ne_zero hlive
  have hduse : InUse s.vfs.nodes d := ⟨type_of_dir hdlive.kind, hdlive.links⟩
  obtain ⟨q', -, hdlive'⟩ := (h.live_iff d).mp hduse
  obtain ⟨rfl, rfl⟩ := hdlive.inj hdlive'
  refine ⟨d, hd, hlookup, hsecond, hduse, (h.inv.down d hd q _ hdlive i hmem hi0 d _ hlive.kind).2.2,
    fun d' hd' huse' hne => ?_⟩
  obtain ⟨q', -, hlive'⟩ := (h.live_iff d').mp huse'
  refine List.count_eq_zero.mpr fun hin => hne ?_
  exact (h.inv.down d' hd' q' _ hlive' i hin hi0 d _ hlive.kind).2.1.symm

theorem directories_named_once_nested : ∃ s, run (Kernel.boot bareRoot) (makeRemove.take 2) = .ok s ∧
    lookup (s.vfs.nodes 3).data dotdot = some 2 ∧ namedIn s.vfs.nodes 2 3 = 1 := by
  have hends : ∃ s, run (Kernel.boot bareRoot) (makeRemove.take 2) = .ok s ∧
      lookup (s.vfs.nodes 3).data dotdot = some 2 ∧ (s.vfs.nodes 3).type = T_DIR ∧
      0 < short (s.vfs.nodes 3).nlink := by decide +kernel
  obtain ⟨s, hrun, hparent, huse⟩ := hends
  obtain ⟨d, -, hd, -, -, hone, -⟩ :=
    directories_named_once (makeRemove.take 2) s (by decide +kernel) hrun 3 (by decide) (by decide) huse
  cases hparent.symm.trans hd
  exact ⟨s, hrun, hparent, hone⟩

/-! ### The disk that `mkfs` makes -/

/-- The inodes of a new disk; the last block of the root is filled with zeroes. -/
def fresh (files : List Mkfs.HostFile) : Nodes := fun i =>
  if i = ROOTINO then
    { type := T_DIR, major := 0, minor := 0, nlink := 1
      data := Mkfs.rootBytes files ++ List.replicate (BSIZE - (Mkfs.rootBytes files).length % BSIZE) 0 }
  else if 2 ≤ i ∧ i < files.length + 2 then
    { type := T_FILE, major := 0, minor := 0, nlink := 1, data := Mkfs.tree files i }
  else Node.blank 0

section Fresh

variable {files : List Mkfs.HostFile}

theorem fresh_file (h : 2 ≤ i ∧ i < files.length + 2) :
    fresh files i = { type := T_FILE, major := 0, minor := 0, nlink := 1, data := Mkfs.tree files i } := by
  have hroot : i ≠ ROOTINO := by
    change i ≠ 1
    omega
  rw [fresh, if_neg hroot, if_pos h]

theorem fresh_free (hroot : i ≠ ROOTINO) (h : ¬(2 ≤ i ∧ i < files.length + 2)) : fresh files i = Node.blank 0 := by
  rw [fresh, if_neg hroot, if_neg h]

theorem fresh_live (h : (fresh files i).type ≠ 0) : i = ROOTINO ∨ (2 ≤ i ∧ i < files.length + 2) := by
  by_contra hc
  rw [not_or] at hc
  rw [fresh_free hc.1 hc.2] at h
  exact h rfl

theorem fresh_image {img : Mkfs.Image} (hlt : files.length + 1 < NINODES) (hrun : Mkfs.mkfs files = .ok img)
    (hi : i < NINODES) : (loadInode mkfsLayout img.block i).type = (fresh files i).type ∧
      ((fresh files i).type ≠ 0 → (loadInode mkfsLayout img.block i).nlink = (fresh files i).nlink) := by
  obtain ⟨s, hbuilt, hfree, hblock⟩ := Mkfs.mkfs_image hlt hrun
  have hrep := (Mkfs.fixed_replaces hbuilt).1
  have hsame : (loadInode mkfsLayout img.block i).type = (loadInode mkfsLayout s.disk i).type ∧
      (loadInode mkfsLayout img.block i).nlink = (loadInode mkfsLayout s.disk i).nlink := by
    rw [hblock, hrep.inodes i hi]
    split
    · rename_i hroot
      rw [hroot]
      exact ⟨rfl, rfl⟩
    · exact ⟨rfl, rfl⟩
  rw [hsame.1, hsame.2, hbuilt.type i hi]
  by_cases hroot : i = ROOTINO
  · have htaken : Mkfs.Taken s ROOTINO := Mkfs.root_taken hfree
    rw [hroot, if_pos htaken]
    exact ⟨rfl, fun _ => hbuilt.nlink ROOTINO (by decide) htaken⟩
  by_cases hfile : 2 ≤ i ∧ i < files.length + 2
  · have htaken : Mkfs.Taken s i := Mkfs.Taken.of_freeinode hfree (by omega) hfile.2
    rw [fresh_file hfile, if_pos htaken, Mkfs.kind, if_neg hroot]
    exact ⟨rfl, fun _ => hbuilt.nlink i hi htaken⟩
  · have hnot : ¬Mkfs.Taken s i := by
      rintro ⟨hpos, hlt'⟩
      change i ≠ 1 at hroot
      omega
    rw [fresh_free hroot hfile, if_neg hnot]
    exact ⟨rfl, fun hc => absurd rfl hc⟩

/-- The entries of the root after its first two. -/
def freshEntries (files : List Mkfs.HostFile) : List Dirent :=
  ((files.zipIdx 2).map fun f => Mkfs.entryOf f.2 f.1.fsName) ++
    List.replicate ((BSIZE - (Mkfs.rootBytes files).length % BSIZE) / DIRENT) noEntry

theorem zeroes_eq (k : Nat) : List.replicate (DIRENT * k)
    (0 : UInt8) = (List.replicate k noEntry).flatMap Dirent.encode := by
  induction k with
  | zero => rfl
  | succ k ih => rw [List.replicate_succ, List.flatMap_cons, ← ih, Nat.mul_succ, Nat.add_comm, List.replicate_add]; rfl

theorem dirents_fresh (files : List Mkfs.HostFile) :
    dirents (fresh files ROOTINO).data = entry dot ROOTINO :: entry dotdot ROOTINO :: freshEntries files := by
  have hlength := Mkfs.length_rootBytes files
  have hpad : BSIZE - (Mkfs.rootBytes files).length % BSIZE = DIRENT *
    ((BSIZE - (Mkfs.rootBytes files).length % BSIZE) / DIRENT) := by
    rw [hlength]
    simp only [BSIZE, DIRENT]
    omega
  have hnames : ∀ de ∈ Mkfs.rootEntries files, de.name.length = DIRSIZ := by
    intro de hde
    obtain _ | ⟨_, hde⟩ := hde
    · exact strncpy_length _ _
    · obtain _ | ⟨_, hde⟩ := hde
      · exact strncpy_length _ _
      · obtain ⟨f, -, rfl⟩ := List.mem_map.mp hde
        exact strncpy_length _ _
  have hzero : dirents (List.replicate (BSIZE - (Mkfs.rootBytes files).length % BSIZE) 0) =
      List.replicate ((BSIZE - (Mkfs.rootBytes files).length % BSIZE) / DIRENT) noEntry := by
    rw [hpad, zeroes_eq, dirents_flatMap, ← hpad]
    intro de hde
    rw [List.eq_of_mem_replicate hde]
    rfl
  change dirents (Mkfs.rootBytes files ++ _) = _
  rw [dirents_append (by rw [hlength, Nat.mul_mod_right]), hzero, Mkfs.rootBytes, dirents_flatMap hnames]
  rfl

theorem targets_fresh (hlt : files.length + 1 < NINODES) : (freshEntries files).map target =
    List.range' 2 files.length ++ List.replicate ((BSIZE - (Mkfs.rootBytes files).length % BSIZE) / DIRENT) 0 := by
  have hfiles : ((files.zipIdx 2).map fun f => Mkfs.entryOf f.2 f.1.fsName).map target =
    List.range' 2 files.length := by
    rw [List.map_map, ← List.zipIdx_map_snd]
    apply List.map_congr_left
    intro f hf
    have hmem := List.snd_lt_of_mem_zipIdx hf
    simp only [NINODES] at hlt
    exact target_entry (by simp only [NINODES]; omega) _
  rw [freshEntries, List.map_append, hfiles, List.map_replicate]
  rfl

theorem count_fresh (hlt : files.length + 1 < NINODES) (hi : i ≠ 0) :
    ((freshEntries files).map target).count i = if 2 ≤ i ∧ i < files.length + 2 then 1 else 0 := by
  have hzero : (List.replicate ((BSIZE - (Mkfs.rootBytes files).length % BSIZE) / DIRENT) 0).count i = 0 := by
    rw [List.count_eq_zero]
    exact fun hc => hi (List.eq_of_mem_replicate hc)
  rw [targets_fresh hlt, List.count_append, hzero, Nat.add_zero]
  split
  · rename_i hfile
    exact List.count_eq_one_of_mem List.nodup_range' (List.mem_range'_1.mpr (by omega))
  · rename_i hfile
    rw [List.count_eq_zero]
    intro hc
    have hmem := List.mem_range'_1.mp hc
    omega

theorem flat_fresh (hlt : files.length + 1 < NINODES)
    (hnames : ∀ f ∈ files, key f.fsName ≠ key dot ∧ key f.fsName ≠ key dotdot) (hroom : Roomy (fresh files)) :
    Flat (fresh files) (entry dot ROOTINO) (entry dotdot ROOTINO) (freshEntries files) := by
  have hentries := dirents_fresh files
  have hlength : (fresh files ROOTINO).data.length = ((Mkfs.rootBytes files).length / BSIZE + 1) * BSIZE := by
    change (Mkfs.rootBytes files ++ List.replicate _ 0).length = _
    rw [List.length_append, List.length_replicate]
    simp only [BSIZE]
    omega
  have hroot := Mkfs.length_rootBytes files
  have htargets : ∀ y ∈ (freshEntries files).map target, y ≠ 0 → 2 ≤ y ∧ y < files.length + 2 := by
    intro y hy hy0
    by_contra hc
    have hcount := count_fresh hlt hy0
    rw [if_neg hc, List.count_eq_zero] at hcount
    exact hcount hy
  refine ⟨rfl, ⟨⟨?_, ?_, ?_⟩, hentries, key_strncpy dot, target_entry (by decide) _, key_strncpy dotdot, by decide, ?_⟩,
    target_entry (by decide) _, rfl, rfl, fun i hi => ?_, ?_, fun i hi hne htype => ?_, fun y hy hy0 => ?_, hroom⟩
  · rw [hlength]
    simp only [BSIZE, DIRENT]
    omega
  · rw [hlength, hroot]
    simp only [NINODES] at hlt
    simp only [BSIZE, DIRENT, MAXFILE, NDIRECT, NINDIRECT]
    omega
  · rw [hentries]
    intro e he
    obtain _ | ⟨_, he⟩ := he
    · decide
    obtain _ | ⟨_, he⟩ := he
    · decide
    · by_cases hzero : target e = 0
      · change target e < _
        rw [hzero]
        decide
      · have hfile := htargets (target e) (List.mem_map_of_mem he) hzero
        change target e < _
        omega
  · intro e he hinum
    obtain hmem | hpad := List.mem_append.mp he
    · obtain ⟨f, hf, rfl⟩ := List.mem_map.mp hmem
      change key (strncpy DIRSIZ _) ≠ _ ∧ key (strncpy DIRSIZ _) ≠ _
      rw [key_strncpy]
      exact hnames f.1 (List.fst_mem_of_mem_zipIdx hf)
    · rw [List.eq_of_mem_replicate hpad] at hinum
      exact absurd rfl hinum
  · have hlive : (fresh files i).type ≠ 0 := dir_ne_zero hi
    refine (fresh_live hlive).resolve_right fun hfile => ?_
    rw [fresh_file hfile] at hi
    exact absurd hi (show T_FILE ≠ T_DIR by decide)
  · intro hc
    have hfile := htargets ROOTINO hc (by decide)
    exact absurd hfile.1 (by decide)
  · have hfile := (fresh_live htype).resolve_left hne
    rw [count_fresh hlt (by omega), if_pos hfile, fresh_file hfile]
    rfl
  · have hfile := htargets y hy hy0
    refine ⟨by omega, ?_⟩
    rw [fresh_file hfile]
    exact show T_FILE ≠ 0 by decide

end Fresh

/-! ### Dangling entries -/

/-- Every entry of a directory, in use or removed, names an inode that is not free. -/
def NoDangling (n : Nodes) : Prop :=
  ∀ i < NINODES, (n i).type = T_DIR → ∀ e ∈ dirents (n i).data, e.inum ≠ 0 → (n e.inum.toNat).type ≠ 0

/-- No entry dangles after a run that enters names only in directories with links and removes no directory that is still
a parent, and no such run stops in `ilock` for lack of a type. -/
theorem no_dangling_entries (files : List Mkfs.HostFile) (calls : List (Fin NPROC × Op))
    (hlt : files.length + 1 < NINODES) (hnames : ∀ f ∈ files, key f.fsName ≠ key dot ∧ key f.fsName ≠ key dotdot)
    (hroom : Roomy (fresh files))
    (hcalls : Along (fun s pid op => EntersLinked s pid op ∧ KeepsParents s pid op) (Kernel.boot (fresh files)) calls) :
    (∀ s, run (Kernel.boot (fresh files)) calls = .ok s → NoDangling s.vfs.nodes) ∧
      run (Kernel.boot (fresh files)) calls ≠ .error (.panic .noType) := by
  have hstart : Settled True (Tree True) (Kernel.boot (fresh files)) :=
    (flat_fresh hlt hnames hroom).settled fun i _ htype => by
    obtain rfl | hfile := fresh_live htype
    · exact show (1 : UInt16) ≠ 0 by decide
    · rw [fresh_file hfile]
      exact show (1 : UInt16) ≠ 0 by decide
  have hends := Settled.run Tree.sound (fun s pid op p htree hp hop => htree.permits (hop.1 p hp) fun _ => hop.2 p hp)
    hstart hcalls
  constructor
  · intro s hrun i _ htype e he hinum
    exact (Exactly.inodes (hends.of_ok hrun)).nodes.fit.sound trivial i htype e he hinum
  · intro hrun
    rw [hrun] at hends
    cases hends with
    | stop hfair => exact hfair trivial rfl

theorem no_dangling_entries_makeRemove : ∃ s, run (Kernel.boot (fresh [])) makeRemove = .ok s ∧
    (s.vfs.nodes 2).type = 0 ∧ NoDangling s.vfs.nodes := by
  have hends : ∃ s, run (Kernel.boot (fresh [])) makeRemove = .ok s ∧ (s.vfs.nodes 2).type = 0 := by decide +kernel
  obtain ⟨s, hrun, hfree⟩ := hends
  exact ⟨s, hrun, hfree, (no_dangling_entries [] makeRemove (by decide) nofun (by decide +kernel) (by decide +kernel)).1
    s hrun⟩

/-- The directory `a/b` is removed while it is the working directory, and then `a`, its parent. -/
def removeParent : List (Fin NPROC × Op) :=
  [(INIT, .mkdir (some [97])), (INIT, .mkdir (some [97, SLASH, 98])), (INIT, .chdir (some [97, SLASH, 98])),
    (INIT, .unlink (some [SLASH, 97, SLASH, 98])), (INIT, .unlink (some [SLASH, 97]))]

/-- The entry `..` of `b` names the inode of `a`, which is free: `chdir("..")` panics. -/
theorem removeParent_dangles : ∃ s, run (Kernel.boot (fresh [])) removeParent = .ok s ∧ ¬NoDangling s.vfs.nodes ∧
    call s 0 (.chdir (some dotdot)) = .error (.panic .noType) := by
  have hends : ∃ s, run (Kernel.boot (fresh [])) removeParent = .ok s ∧ call s 0 (.chdir (some dotdot)) =
    .error (.panic .noType) ∧
      (s.vfs.nodes 3).type = T_DIR ∧ (s.vfs.nodes 2).type = 0 ∧ ∃ e ∈ dirents (s.vfs.nodes 3).data,
      e.inum = 2 := by decide +kernel
  obtain ⟨s, hrun, hcall, htype, hfree, e, he, hinum⟩ := hends
  refine ⟨s, hrun, fun hsafe => ?_, hcall⟩
  apply hsafe 3 (by decide) htype e he
  · rw [hinum]
    decide
  · rw [hinum]
    exact hfree

end Laboratorio.Sys
