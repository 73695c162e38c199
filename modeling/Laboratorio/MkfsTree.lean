import Laboratorio.MkfsFiles

/-! The image of a list of host files. The root directory has its two entries and one for each file, the
file at place `k` of the list is inode `k + 2`. The size of the root is rounded up to a block past its last
entry, which leaves a hole when the entries fill their blocks. -/

namespace Laboratorio.Mkfs

open Function

open Fs Bytes

/-- The directory entry of inode `i`. -/
def entryOf (i : Nat) (name : List UInt8) : Dirent where
  inum := UInt16.ofNat i
  name := strncpy DIRSIZ name

def rootEntries (files : List HostFile) : List Dirent :=
  entryOf ROOTINO dot :: entryOf ROOTINO dotdot :: (files.zipIdx 2).map fun f => entryOf f.2 f.1.fsName

def rootBytes (files : List HostFile) : List UInt8 := (rootEntries files).flatMap Dirent.encode

def tree (files : List HostFile) : Arrays := fun i =>
  if i = ROOTINO then rootBytes files
  else if 2 ≤ i then ((files[i - 2]?).map HostFile.bytes).getD [] else []

theorem add_two_ne_root (n : Nat) : n + 2 ≠ ROOTINO := by
  change n + 2 ≠ 1
  omega

theorem rootEntries_concat (files : List HostFile) (f : HostFile) :
    rootEntries (files ++ [f]) = rootEntries files ++ [entryOf (files.length + 2) f.fsName] := by
  rw [rootEntries, List.zipIdx_append, List.map_append, List.zipIdx_singleton, List.map_singleton, Nat.add_comm]
  rfl

theorem rootBytes_concat (files : List HostFile) (f : HostFile) :
    rootBytes (files ++ [f]) = rootBytes files ++ dirent (files.length + 2) f.fsName := by
  rw [rootBytes, rootEntries_concat, List.flatMap_append, List.flatMap_singleton]
  rfl

theorem tree_concat (files : List HostFile) (f : HostFile) :
    tree (files ++ [f]) = update (update (tree files) ROOTINO
      (tree files ROOTINO ++ dirent (files.length + 2) f.fsName)) (files.length + 2) f.bytes := by
  funext i
  by_cases hi : i = files.length + 2
  · rw [hi, update_self, tree, if_neg (add_two_ne_root _), if_pos (by omega), Nat.add_sub_cancel,
      List.getElem?_concat_length]
    rfl
  rw [update_of_ne hi]
  by_cases hroot : i = ROOTINO
  · rw [hroot, update_self]
    exact rootBytes_concat files f
  rw [update_of_ne hroot, tree, if_neg hroot, tree, if_neg hroot]
  by_cases htwo : 2 ≤ i
  · rw [if_pos htwo, if_pos htwo]
    congr 2
    by_cases hlt : i - 2 < files.length
    · rw [List.getElem?_append_left hlt]
    · rw [List.getElem?_eq_none (by rw [List.length_append, List.length_singleton]; omega),
        List.getElem?_eq_none (by omega)]
  · rw [if_neg htwo, if_neg htwo]

theorem tree_blank (files : List HostFile) : tree files (files.length + 2) = [] := by
  rw [tree, if_neg (add_two_ne_root _), if_pos (by omega), Nat.add_sub_cancel, List.getElem?_eq_none (le_refl _)]
  rfl

theorem length_dirent (i : Nat) (name : List UInt8) : (dirent i name).length = DIRENT := by
  rw [dirent, encode_length, strncpy_length]

theorem length_rootEntries (files : List HostFile) : (rootEntries files).length = files.length + 2 := by
  rw [rootEntries, List.length_cons, List.length_cons, List.length_map, List.length_zipIdx]

theorem length_rootBytes (files : List HostFile) : (rootBytes files).length = DIRENT * (files.length + 2) := by
  induction files using List.reverseRecOn with
  | nil => rfl
  | append_singleton files f ih =>
    rw [rootBytes_concat, List.length_append, ih, length_dirent, List.length_append, List.length_singleton]
    simp only [DIRENT]
    omega

/-! ### The new image -/

theorem readDinode_zeroBlock (k : Nat) : readDinode zeroBlock k = Dinode.blank 0 := by
  have hzero : ∀ o w, getLE zeroBlock o w = 0 := by
    intro o w
    apply getLE_zeros
    intro j _
    unfold byte
    split <;> rfl
  simp only [readDinode, getU16, getU32, hzero]
  rfl

theorem built_start : Built (wsect zeroed 1 superBlock) fun _ => [] := by
  rw [zeroed_eq]
  generalize hs : wsect ⟨fun _ => zeroBlock, FSSIZE, 1, nmeta⟩ 1 superBlock = s
  have hord : Orderly s := by
    rw [← hs]
    refine ⟨?_, by decide, le_refl _, by decide, fun a ha _ => ?_⟩
    · change putBlock (fun _ => zeroBlock) 1 superBlock 1 = superBlock
      rw [putBlock, update_self]
    have hne : a ≠ 1 := by
      change 59 ≤ a at ha
      omega
    exact update_of_ne hne _ _
  have hfreeblock : s.freeblock = nmeta := by rw [← hs]; rfl
  have hnot : ∀ i, ¬Taken s i := by
    intro i hi
    have hlt : i < 1 := by
      rw [← hs] at hi
      exact hi.2
    exact absurd hi.1 (by omega)
  have hload : ∀ i < NINODES, loadInode mkfsLayout s.disk i = Dinode.blank 0 := by
    intro i hi
    have hblock : s.disk (sb.iblock i) = zeroBlock := by
      rw [disk_of_ne s (iblock_bounds hi).2.1, ← hs]
      change putBlock (fun _ => zeroBlock) 1 superBlock (sb.iblock i) = zeroBlock
      rw [putBlock, update_of_ne (iblock_bounds hi).2.2.2]
    change readDinode (s.disk (sb.iblock i)) (i % IPB) = _
    rw [hblock, readDinode_zeroBlock]
  have hnone : ∀ p, addrOf mkfsLayout s.disk (loadInode mkfsLayout s.disk) p = 0 := by
    intro p
    refine if_neg fun hp => hp.2 ?_
    rw [hload p.1 hp.1]
    rfl
  refine ⟨hord, ⟨⟨fun p hp => absurd (hnone p) hp, fun p q _ hp => absurd (hnone p) hp, fun b hb => ?_⟩,
    fun i hi hlive => ?_⟩, fun i hi => ?_, fun i _ hi => absurd hi (hnot i), fun i _ hi => absurd hi (hnot i),
    fun _ _ => rfl, ?_⟩
  · rw [bitAt_disk s hb, decide_eq_true_eq, hfreeblock]
    refine ⟨Or.inl, fun h => h.elim id ?_⟩
    rintro ⟨p, hp, -⟩
    exact absurd (hnone p) hp
  · rw [hload i hi] at hlive
    exact absurd rfl hlive
  · rw [hload i hi, if_neg (hnot i)]
    rfl
  · rw [hload ROOTINO (by decide)]
    exact fun _ _ => rfl

/-! ### The files -/

variable {s s' : Image} {files : List HostFile} {f : HostFile}

theorem Taken.of_freeinode {i n : Nat} (hfree : s.freeinode = n) (hpos : 0 < i) (hlt : i < n) : Taken s i :=
  ⟨hpos, by rw [hfree]; exact hlt⟩

theorem tree_nil : tree [] = update (fun _ => []) ROOTINO (dirent ROOTINO dot ++ dirent ROOTINO dotdot) := by
  funext i
  by_cases hi : i = ROOTINO
  · rw [hi, update_self]
    rfl
  · rw [update_of_ne hi, tree, if_neg hi]
    split
    · rw [List.getElem?_nil]
      rfl
    · rfl

theorem makeRoot_built (hrun : makeRoot (wsect zeroed 1 superBlock) = .ok s) : Built s (tree []) := by
  have hstart := built_start
  have hone : (wsect zeroed 1 superBlock).freeinode = 1 := by rw [zeroed_eq]; rfl
  generalize wsect zeroed 1 superBlock = s₀ at hstart hone hrun
  obtain ⟨s₁, halloc, hbuilt, hfree, -⟩ := hstart.alloc (by omega) (by rw [hone]; decide)
  rw [hone] at halloc hfree
  rw [makeRoot, show T_DIR = kind 1 from rfl, halloc, ok_bind] at hrun
  dsimp only at hrun
  obtain ⟨s₂, hdot, hdotdot⟩ := bind_eq_ok hrun
  have hfree₂ : s₂.freeinode = 2 := ((iappend_freeinode s₁ 1 _).of_ok hdot).trans hfree
  have hbuilt₂ := hbuilt.append (by decide) (Taken.of_freeinode hfree (by omega) (by omega)) hdot
  have hbuilt₃ := hbuilt₂.append (by decide) (Taken.of_freeinode hfree₂ (by omega) (by omega)) hdotdot
  rw [update_self, update_idem, List.nil_append] at hbuilt₃
  rw [tree_nil]
  exact hbuilt₃

theorem addFile_built (h : Built s (tree files)) (hfree : s.freeinode = files.length + 2)
    (hlt : files.length + 2 < NINODES) (hrun : addFile s f = .ok s') : Built s' (tree (files ++ [f])) := by
  unfold addFile at hrun
  split at hrun
  · cases hrun
  split at hrun
  · cases hrun
  obtain ⟨s₁, halloc, hbuilt, hfree₁, -⟩ := h.alloc (by omega) (by rwa [hfree])
  rw [hfree] at halloc hfree₁
  rw [show T_FILE = kind (files.length + 2) from (if_neg (add_two_ne_root _)).symm, halloc, ok_bind] at hrun
  obtain ⟨s₂, hentry, hrest⟩ := bind_eq_ok hrun
  have hfree₂ : s₂.freeinode = files.length + 2 + 1 := ((iappend_freeinode s₁ ROOTINO _).of_ok hentry).trans hfree₁
  have hbuilt₂ := hbuilt.append (by decide) (Taken.of_freeinode hfree₁ (by decide) (by simp only [ROOTINO]; omega))
    hentry
  have hbuilt₃ := hbuilt₂.appends hlt (Taken.of_freeinode hfree₂ (by omega) (by omega)) hrest
  rw [update_of_ne (add_two_ne_root _), tree_blank, List.nil_append] at hbuilt₃
  rw [tree_concat]
  exact hbuilt₃

theorem addFiles_built {rest : List HostFile} (h : Built s (tree files)) (hfree : s.freeinode = files.length + 2)
    (hlt : files.length + rest.length + 1 < NINODES) (hrun : rest.foldlM addFile s = .ok s') :
    Built s' (tree (files ++ rest)) := by
  induction rest generalizing s files with
  | nil =>
    cases hrun
    rwa [List.append_nil]
  | cons f rest ih =>
    rw [List.length_cons] at hlt
    rw [List.foldlM_cons] at hrun
    obtain ⟨s₁, hone, hrest⟩ := bind_eq_ok hrun
    have hfree₁ : s₁.freeinode = s.freeinode + 1 := (addFile_freeinode s f).of_ok hone
    have hlen : (files ++ [f]).length = files.length + 1 := by
      rw [List.length_append, List.length_singleton]
    have hall := ih (addFile_built h hfree (by omega) hone) (by rw [hlen]; omega) (by rw [hlen]; omega) hrest
    rwa [List.append_assoc, List.singleton_append] at hall

/-! ### The last steps -/

/-- The root inode as `main` leaves it. -/
def fixedRoot (s : Image) : Dinode :=
  { loadInode mkfsLayout s.disk ROOTINO with
    size := UInt32.ofNat (((loadInode mkfsLayout s.disk ROOTINO).size.toNat / BSIZE + 1) * BSIZE) }

/-- The image that `mkfs` writes is the disk of a half-made one, but for the size of the root. -/
theorem mkfs_image {img : Image} (hlt : files.length + 1 < NINODES) (hrun : mkfs files = .ok img) :
    ∃ s, Built s (tree files) ∧ s.freeinode = files.length + 2 ∧
    img.block = iupdate mkfsLayout s.disk ROOTINO (fixedRoot s) := by
  obtain ⟨s₁, hroot, hrun⟩ := bind_eq_ok hrun
  obtain ⟨s₂, hfiles, hrun⟩ := bind_eq_ok hrun
  obtain ⟨s₃, hfix, hrun⟩ := bind_eq_ok hrun
  have hbuilt₁ := makeRoot_built hroot
  have hfree₁ : s₁.freeinode = 2 := by
    have hend := (makeRoot_freeinode _).of_ok hroot
    rw [zeroed_eq] at hend
    exact hend
  have hbuilt₂ : Built s₂ (tree files) := by
    exact addFiles_built hbuilt₁ hfree₁ (by rw [List.length_nil]; omega) hfiles
  have hfree₂ : s₂.freeinode = files.length + 2 := by
    have hend := (addFiles_freeinode s₁ files).of_ok hfiles
    omega
  obtain ⟨s₄, hput, hord, hdisk⟩ := winode_eq hbuilt₂.orderly (i := ROOTINO) (by decide) (fixedRoot s₂)
  have hfixed : fixRoot s₂ = .ok s₄ := by
    rw [fixRoot, rinode_eq hbuilt₂.orderly (by decide), ok_bind]
    exact hput
  rw [hfixed] at hfix
  cases hfix
  refine ⟨s₂, hbuilt₂, hfree₂, ?_⟩
  unfold balloc at hrun
  split at hrun
  · cases hrun
    rw [← hdisk]
    rfl
  · cases hrun

/-! ### Space -/

/-- The blocks of a list of files and of their entries in the root directory. -/
def blocksNeeded (files : List HostFile) : Nat :=
  blocksFor (DIRENT * (files.length + 2)) + (files.map fun f => blocksFor f.bytes.length).sum

theorem total_tree_concat (hlt : files.length + 2 < NINODES) :
    total (tree (files ++ [f])) = total (update (tree files) ROOTINO
      (tree files ROOTINO ++ dirent (files.length + 2) f.fsName)) + blocksFor f.bytes.length := by
  have hupdate := total_update (update (tree files) ROOTINO
    (tree files ROOTINO ++ dirent (files.length + 2) f.fsName)) hlt f.bytes
  rw [update_of_ne (add_two_ne_root _), tree_blank, ← tree_concat, List.length_nil, blocksFor_zero,
    Nat.add_zero] at hupdate
  exact hupdate

theorem total_tree (hlt : files.length + 1 < NINODES) : total (tree files) = blocksNeeded files := by
  induction files using List.reverseRecOn with
  | nil =>
    have hupdate := total_update (fun _ => []) (i := ROOTINO) (by decide) (dirent ROOTINO dot ++ dirent ROOTINO dotdot)
    rw [← tree_nil, total_empty, List.length_append, length_dirent, length_dirent, List.length_nil,
      blocksFor_zero, Nat.add_zero, Nat.zero_add] at hupdate
    exact hupdate
  | append_singleton files f ih =>
    rw [List.length_append, List.length_singleton] at hlt
    have hroot := total_update (tree files) (i := ROOTINO) (by decide)
      (tree files ROOTINO ++ dirent (files.length + 2) f.fsName)
    have hlen : (tree files ROOTINO).length = DIRENT * (files.length + 2) := length_rootBytes files
    have hlen' : (tree files ROOTINO ++ dirent (files.length + 2) f.fsName).length =
        DIRENT * ((files ++ [f]).length + 2) := by
      rw [List.length_append, hlen, length_dirent, List.length_append, List.length_singleton]
      simp only [DIRENT]
      omega
    rw [hlen, hlen', ih (by omega)] at hroot
    rw [total_tree_concat hlt]
    unfold blocksNeeded at hroot ⊢
    rw [List.map_append, List.sum_append, List.map_singleton, List.sum_singleton]
    omega

theorem blocksNeeded_mono (files rest : List HostFile) : blocksNeeded files ≤ blocksNeeded (files ++ rest) := by
  have hroot : blocksFor (DIRENT * (files.length + 2)) ≤ blocksFor (DIRENT * ((files ++ rest).length + 2)) := by
    apply blocksFor_mono
    rw [List.length_append]
    simp only [DIRENT]
    omega
  unfold blocksNeeded
  rw [List.map_append, List.sum_append]
  omega

/-- A host file that `mkfs` accepts. -/
structure Acceptable (f : HostFile) : Prop where
  slash : SLASH ∉ f.name
  readable : f.readable = true
  size : f.bytes.length ≤ MAXFILE * BSIZE

theorem makeRoot_total : ∃ s, makeRoot (wsect zeroed 1 superBlock) = .ok s ∧ s.freeblock ≤ nmeta + total (tree []) := by
  have hstart := built_start
  have hone : (wsect zeroed 1 superBlock).freeinode = 1 := by rw [zeroed_eq]; rfl
  have hblock : (wsect zeroed 1 superBlock).freeblock = nmeta := by rw [zeroed_eq]; rfl
  generalize wsect zeroed 1 superBlock = s₀ at hstart hone hblock ⊢
  obtain ⟨s₁, halloc, hbuilt, hfree, hspace⟩ := hstart.alloc (by omega) (by rw [hone]; decide)
  rw [hone] at halloc hfree
  have hhi := hbuilt.orderly.hi
  rw [freeBlocks_disk, freeBlocks_disk, hblock] at hspace
  have hroom : s₁.freeblock ≤ nmeta + total (fun _ => []) := by
    omega
  have htotal : total (tree []) ≤ FSSIZE - nmeta := by
    rw [total_tree (by decide)]
    decide
  have hdots := hbuilt.appends_total (i := ROOTINO) (by decide)
    (Taken.of_freeinode hfree (by decide) (by decide)) [dirent ROOTINO dot, dirent ROOTINO dotdot]
  rw [List.flatten_cons, List.flatten_cons, List.flatten_nil, List.append_nil, List.nil_append, ← tree_nil] at hdots
  have hfit : (dirent ROOTINO dot ++ dirent ROOTINO dotdot).length ≤ MAXFILE * BSIZE := by
    decide
  obtain ⟨s, hrun, hroom'⟩ := hdots hfit hroom htotal
  refine ⟨s, ?_, hroom'⟩
  rw [List.foldlM_cons] at hrun
  obtain ⟨s₂, hdot, hrun⟩ := bind_eq_ok hrun
  rw [List.foldlM_cons] at hrun
  obtain ⟨s₃, hdotdot, hrun⟩ := bind_eq_ok hrun
  cases hrun
  rw [makeRoot, show T_DIR = kind 1 from rfl, halloc, ok_bind]
  dsimp only
  rw [hdot, ok_bind]
  exact hdotdot

theorem addFile_total (h : Built s (tree files)) (hfree : s.freeinode = files.length + 2)
    (hlt : files.length + 2 < NINODES) (hf : Acceptable f) (hroom : s.freeblock ≤ nmeta + total (tree files))
    (htotal : total (tree (files ++ [f])) ≤ FSSIZE - nmeta) :
    ∃ s', addFile s f = .ok s' ∧ s'.freeblock ≤ nmeta + total (tree (files ++ [f])) := by
  obtain ⟨s₁, halloc, hbuilt, hfree₁, hspace⟩ := h.alloc (by omega) (by rwa [hfree])
  have hhi₁ := hbuilt.orderly.hi
  rw [freeBlocks_disk, freeBlocks_disk] at hspace
  rw [hfree] at halloc hfree₁
  rw [total_tree_concat hlt] at htotal
  have hroot : Taken s₁ ROOTINO := Taken.of_freeinode hfree₁ (by decide) (by simp only [ROOTINO]; omega)
  have hfit : (tree files ROOTINO ++ dirent (files.length + 2) f.fsName).length ≤ MAXFILE * BSIZE := by
    have hlen : (tree files ROOTINO).length = DIRENT * (files.length + 2) := length_rootBytes files
    rw [List.length_append, hlen, length_dirent]
    simp only [DIRENT, MAXFILE, NDIRECT, NINDIRECT, BSIZE, NINODES] at hlt ⊢
    omega
  obtain ⟨s₂, hentry, hroom₂⟩ := hbuilt.append_total (by decide) hroot hfit (by omega) (by omega)
  have hfree₂ : s₂.freeinode = files.length + 2 + 1 := ((iappend_freeinode s₁ ROOTINO _).of_ok hentry).trans hfree₁
  have hbuilt₂ := hbuilt.append (by decide) hroot hentry
  have hrest := hbuilt₂.appends_total hlt (Taken.of_freeinode hfree₂ (by omega) (by omega)) f.chunks
  rw [update_of_ne (add_two_ne_root _), tree_blank, List.nil_append, ← HostFile.bytes, ← tree_concat,
    total_tree_concat hlt] at hrest
  obtain ⟨s', hrun, hroom'⟩ := hrest hf.size hroom₂ htotal
  refine ⟨s', ?_, by rw [total_tree_concat hlt]; exact hroom'⟩
  rw [addFile, if_neg hf.slash, hf.readable, if_neg (by decide),
    show T_FILE = kind (files.length + 2) from (if_neg (add_two_ne_root _)).symm, halloc, ok_bind]
  dsimp only
  rw [hentry, ok_bind, hrun]

theorem addFiles_total {rest : List HostFile} (h : Built s (tree files)) (hfree : s.freeinode = files.length + 2)
    (hlt : files.length + rest.length + 1 < NINODES) (hrest : ∀ f ∈ rest, Acceptable f)
    (hroom : s.freeblock ≤ nmeta + total (tree files)) (hneeded : blocksNeeded (files ++ rest) ≤ FSSIZE - nmeta) :
    ∃ s', rest.foldlM addFile s = .ok s' := by
  induction rest generalizing s files with
  | nil => exact ⟨s, rfl⟩
  | cons f rest ih =>
    rw [List.length_cons] at hlt
    have hlen : (files ++ [f]).length = files.length + 1 := by
      rw [List.length_append, List.length_singleton]
    have hsplit : files ++ f :: rest = files ++ [f] ++ rest := by
      rw [List.append_assoc, List.singleton_append]
    rw [hsplit] at hneeded
    have htotal : total (tree (files ++ [f])) ≤ FSSIZE - nmeta := by
      rw [total_tree (by rw [hlen]; omega)]
      exact (blocksNeeded_mono _ _).trans hneeded
    obtain ⟨s₁, hone, hroom₁⟩ := addFile_total h hfree (by omega) (hrest f List.mem_cons_self) hroom htotal
    have hfree₁ : s₁.freeinode = s.freeinode + 1 := (addFile_freeinode s f).of_ok hone
    obtain ⟨s', hrun⟩ := ih (addFile_built h hfree (by omega) hone) (by rw [hlen]; omega) (by rw [hlen]; omega)
      (fun g hg => hrest g (List.mem_cons_of_mem f hg)) hroom₁ hneeded
    refine ⟨s', ?_⟩
    rw [List.foldlM_cons, hone, ok_bind, hrun]

theorem mkfs_total (hlt : files.length + 1 < NINODES) (hfiles : ∀ f ∈ files, Acceptable f)
    (hneeded : blocksNeeded files ≤ FSSIZE - nmeta) : ∃ img, mkfs files = .ok img := by
  obtain ⟨s₁, hroot, hroom⟩ := makeRoot_total
  have hfree : s₁.freeinode = 2 := by
    have hend := (makeRoot_freeinode _).of_ok hroot
    rw [zeroed_eq] at hend
    exact hend
  have hlt' : ([] : List HostFile).length + files.length + 1 < NINODES := by
    rw [List.length_nil]
    omega
  obtain ⟨s₂, hrun⟩ := addFiles_total (makeRoot_built hroot) hfree hlt' hfiles hroom hneeded
  have hbuilt := addFiles_built (makeRoot_built hroot) hfree hlt' hrun
  obtain ⟨s₃, hput, hord, -⟩ := winode_eq hbuilt.orderly (i := ROOTINO) (by decide) (fixedRoot s₂)
  have hfixed : fixRoot s₂ = .ok s₃ := by
    rw [fixRoot, rinode_eq hbuilt.orderly (by decide), ok_bind]
    exact hput
  have hused : s₃.freeblock < BSIZE * 8 := by
    have hhi := hord.hi
    simp only [FSSIZE, BSIZE] at hhi ⊢
    omega
  refine ⟨wsect s₃ sb.bmapstart (marks s₃.freeblock), ?_⟩
  rw [mkfs, hroot, ok_bind, hrun, ok_bind, hfixed, ok_bind, balloc, if_pos hused]

/-! ### Well-made images -/

/-- Every inode number handed out exists; the addresses in the inodes and indirect blocks are distinct data
blocks, and the free map marks them and the meta blocks; and no file has a hole below its size. -/
structure Wellmade (img : Image) : Prop where
  inodes : ∀ i, Taken img i → i < NINODES
  owned : Owned mkfsLayout img.block (loadInode mkfsLayout img.block)
  full : ∀ i < NINODES, (loadInode mkfsLayout img.block i).type ≠ 0 →
    ∀ bn < ((loadInode mkfsLayout img.block i).size.toNat + BSIZE - 1) / BSIZE,
      bn < MAXFILE ∧ addrOf mkfsLayout img.block (loadInode mkfsLayout img.block) (i, blockSlot bn) ≠ 0

theorem mapped_block {d : Disk} {ino : Nat → Dinode} {i bn : Nat} (hm : Mapped mkfsLayout d ino i (bn * BSIZE)) :
    bn < MAXFILE ∧ addrOf mkfsLayout d ino (i, blockSlot bn) ≠ 0 := by
  have hdiv : bn * BSIZE / BSIZE = bn := Nat.mul_div_cancel bn (by decide)
  obtain ⟨hbn, haddr⟩ := hm
  rw [spot, hdiv] at haddr
  rw [hdiv] at hbn
  exact ⟨hbn, haddr⟩

theorem root_taken (hfree : s.freeinode = files.length + 2) : Taken s ROOTINO :=
  Taken.of_freeinode hfree (by decide) (by simp only [ROOTINO]; omega)

theorem root_size (h : Built s (tree files)) (hfree : s.freeinode = files.length + 2)
    (hlt : files.length + 1 < NINODES) :
      (loadInode mkfsLayout s.disk ROOTINO).size.toNat = DIRENT * (files.length + 2) ∧
      (fixedRoot s).size.toNat = (DIRENT * (files.length + 2) / BSIZE + 1) * BSIZE := by
  have hsize : (loadInode mkfsLayout s.disk ROOTINO).size.toNat = DIRENT * (files.length + 2) := by
    rw [h.size_eq (by decide) (root_taken hfree)]
    exact length_rootBytes files
  refine ⟨hsize, ?_⟩
  rw [fixedRoot, hsize]
  apply UInt32.toNat_ofNat_of_lt'
  simp only [DIRENT, BSIZE, NINODES, UInt32.size] at hlt ⊢
  omega

theorem fixed_replaces {A : Arrays} (h : Built s A) :
    Replaces mkfsLayout s.disk (iupdate mkfsLayout s.disk ROOTINO (fixedRoot s)) ROOTINO (fixedRoot s) ∧
    ∀ j o, Mapped mkfsLayout s.disk (loadInode mkfsLayout s.disk) j o →
      Mapped mkfsLayout (iupdate mkfsLayout s.disk ROOTINO (fixedRoot s))
        (loadInode mkfsLayout (iupdate mkfsLayout s.disk ROOTINO (fixedRoot s))) j o ∧
      fileByte mkfsLayout (iupdate mkfsLayout s.disk ROOTINO (fixedRoot s))
        (loadInode mkfsLayout (iupdate mkfsLayout s.disk ROOTINO (fixedRoot s))) j o =
        fileByte mkfsLayout s.disk (loadInode mkfsLayout s.disk) j o := by
  obtain ⟨hrep, hmoved⟩ := h.wellFormed.iupdate (by decide)
    (show (fixedRoot s).type = (loadInode mkfsLayout s.disk ROOTINO).type from rfl) rfl
  refine ⟨hrep, fun j o hm => ?_⟩
  obtain ⟨hm', hbyte⟩ := hmoved j o hm
  exact ⟨hrep.mapped_iff.mpr hm', by rw [hrep.fileByte_eq, hbyte]⟩

theorem fixed_wellmade_iff {img : Image} (h : Built s (tree files)) (hfree : s.freeinode = files.length + 2)
    (hlt : files.length + 1 < NINODES) (hblock : img.block = iupdate mkfsLayout s.disk ROOTINO (fixedRoot s))
    (hinode : img.freeinode = s.freeinode) :
    Wellmade img ↔ (files.length + 2) % (BSIZE / DIRENT) ≠ 0 := by
  obtain ⟨hrep, hmoved⟩ := fixed_replaces h
  obtain ⟨hsize, hfixed⟩ := root_size h hfree hlt
  rw [← hblock] at hrep hmoved
  have hself : loadInode mkfsLayout img.block ROOTINO = fixedRoot s := hrep.loadInode_self (by decide)
  have hrootlive : (loadInode mkfsLayout img.block ROOTINO).type ≠ 0 := by
    rw [hself]
    exact (h.live (by decide) (root_taken hfree)).2
  constructor
  · -- The block after the last full one has no address.
    intro hmade hfull
    simp only [BSIZE, DIRENT, NINODES] at hfull hlt
    have hk : DIRENT * (files.length + 2) / BSIZE < NDIRECT := by
      simp only [BSIZE, DIRENT, NDIRECT]
      omega
    have hend : DIRENT * (files.length + 2) = BSIZE * (DIRENT * (files.length + 2) / BSIZE) := by
      simp only [BSIZE, DIRENT]
      omega
    have hmapped := (hmade.full ROOTINO (by decide) hrootlive (DIRENT * (files.length + 2) / BSIZE) (by
      rw [hself, hfixed]
      simp only [BSIZE, DIRENT]
      omega)).2
    rw [direct_blockSlot hk] at hmapped
    apply hmapped
    have haddr : addrOf mkfsLayout img.block (loadInode mkfsLayout img.block)
        (ROOTINO, .direct ⟨DIRENT * (files.length + 2) / BSIZE, hk⟩) =
        (loadInode mkfsLayout s.disk ROOTINO).addr (Fin.castSucc ⟨DIRENT * (files.length + 2) / BSIZE, hk⟩) := by
      rw [addrOf_eq (by decide) hrootlive]
      rw [slotAddr, hself]
      rfl
    rw [haddr]
    exact h.snug ⟨_, hk⟩ (by rw [hsize]; exact hend.le)
  · intro hpart
    simp only [BSIZE, DIRENT] at hpart
    refine ⟨fun i hi => ?_, ?_, fun i hi hlive bn hbn => ?_⟩
    · have hlt' := hi.2
      omega
    · unfold Owned
      rw [hrep.addrOf_eq]
      exact hrep.owned
    apply mapped_block
    refine (hmoved i _ (h.wellFormed.full i hi ?_ _ ?_)).1
    · by_cases hroot : i = ROOTINO
      · rw [hroot]
        exact (h.live (by decide) (root_taken hfree)).2
      · rw [← hrep.loadInode_of_ne hi hroot]
        exact hlive
    · by_cases hroot : i = ROOTINO
      · rw [hroot, hself, hfixed] at hbn
        rw [hroot, hsize]
        simp only [BSIZE, DIRENT] at hbn ⊢
        omega
      · have hsame : loadInode mkfsLayout img.block i = loadInode mkfsLayout s.disk i := hrep.loadInode_of_ne hi hroot
        rw [hsame] at hbn
        simp only [BSIZE] at hbn ⊢
        omega

def thirtyFiles : List HostFile :=
  (List.finRange 30).map fun k : Fin 30 =>
    { name := [UInt8.ofNat (97 + k.val)]
      readable := true
      chunks := []
      name_terminated := by revert k; decide
      chunks_fit := by simp }

theorem thirtyFiles_acceptable : ∀ f ∈ thirtyFiles, Acceptable f := by
  intro f hf
  obtain ⟨k, -, rfl⟩ := List.mem_map.mp hf
  have hslash : ∀ k : Fin 30, SLASH ∉ [UInt8.ofNat (97 + k.val)] := by decide
  exact ⟨hslash k, rfl, Nat.zero_le _⟩

/-- An image that `mkfs` writes is well made unless there are too few inodes for the files or their entries
fill the blocks of the root directory. With few enough files, each acceptable, and blocks for all of them,
there is an image. -/
theorem mkfs_wellmade_iff (files : List HostFile) :
    (∀ img, mkfs files = .ok img →
      (Wellmade img ↔ files.length + 1 < NINODES ∧ (files.length + 2) % (BSIZE / DIRENT) ≠ 0)) ∧
    (files.length + 1 < NINODES → (∀ f ∈ files, Acceptable f) → blocksNeeded files ≤ FSSIZE - nmeta →
      ∃ img, mkfs files = .ok img) := by
  refine ⟨fun img hrun => ?_, mkfs_total⟩
  have hinode := (mkfs_freeinode files).of_ok hrun
  by_cases hlt : files.length + 1 < NINODES
  · obtain ⟨s, hbuilt, hfree, hblock⟩ := mkfs_image hlt hrun
    rw [fixed_wellmade_iff hbuilt hfree hlt hblock (hinode.trans hfree.symm)]
    exact (and_iff_right hlt).symm
  · refine iff_of_false (fun hmade => hlt ?_) fun hc => hlt hc.1
    exact hmade.inodes (files.length + 1) ⟨Nat.succ_pos _, by omega⟩

/-- With one file less the entries leave room in their block. -/
theorem mkfs_wellmade_iff_twentyNine : ∃ img, mkfs thirtyFiles.tail = .ok img ∧ Wellmade img := by
  obtain ⟨hmade, htotal⟩ := mkfs_wellmade_iff thirtyFiles.tail
  obtain ⟨img, hrun⟩ := htotal (by decide)
    (fun f hf => thirtyFiles_acceptable f (List.mem_of_mem_tail hf)) (by decide)
  exact ⟨img, hrun, (hmade img hrun).mpr (by decide)⟩

/-- The 32 entries of the root directory fill one block, its size is two blocks, and there is no second. -/
theorem mkfs_thirtyFiles_hole : ∃ img, mkfs thirtyFiles = .ok img ∧ ¬Wellmade img := by
  have hlt : thirtyFiles.length + 1 < NINODES := by decide
  obtain ⟨img, hrun⟩ := mkfs_total hlt thirtyFiles_acceptable (by decide)
  obtain ⟨s, hbuilt, hfree, hblock⟩ := mkfs_image hlt hrun
  have hinode := (mkfs_freeinode thirtyFiles).of_ok hrun
  refine ⟨img, hrun, fun hmade => ?_⟩
  have hpart := (fixed_wellmade_iff hbuilt hfree hlt hblock (hinode.trans hfree.symm)).mp hmade
  exact absurd hpart (by decide)

end Laboratorio.Mkfs
