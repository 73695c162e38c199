import Laboratorio.FsEntries
import Laboratorio.MkfsTree
import Mathlib.Data.List.TakeWhile

/-! The image of `mkfs` as the kernel reads it. `namex` finds every file under its name in the root
directory, and `readi` returns its bytes. The scan of the root ends at the entry of the file, so it never
meets the hole that the image may have at the end of the root. -/

namespace Laboratorio.Fs

open Function

/-! ### A cache over a disk that nobody writes -/

/-- The cache holds an inode once, and its valid copies are what the disk has. -/
structure Mirrors (sb : Superblock) (s : State) : Prop where
  unique : s.icache.Unique
  copies : ∀ k, 0 < (s.icache k).ref → (s.icache k).valid = true →
    (s.icache k).copy = loadInode sb s.disk (s.icache k).inum

def Spare (s : State) : Prop := ∃ a b, a ≠ b ∧ (s.icache a).ref = 0 ∧ (s.icache b).ref = 0

theorem Mirrors.boot (sb : Superblock) (d : Disk) : Mirrors sb (State.boot d) ∧ Spare (State.boot d) :=
  ⟨⟨fun _ _ hk => absurd hk (lt_irrefl 0), fun _ hk => absurd hk (lt_irrefl 0)⟩, 0, 1, by decide, rfl, rfl⟩

variable {sb : Superblock} {s : State} {k : Fin NINODE} {i : Nat}

theorem Mirrors.entry (h : Mirrors sb s) {e : Inode Dinode}
    (hcopy : 0 < e.ref → e.valid = true → e.copy = loadInode sb s.disk e.inum)
    (hnew : 0 < e.ref → ∀ l, l ≠ k → 0 < (s.icache l).ref → (s.icache l).inum ≠ e.inum) :
    Mirrors sb { s with icache := update s.icache k e } := by
  have hself : update s.icache k e k = e := update_self _ _ _
  have hold : ∀ l, l ≠ k → update s.icache k e l = s.icache l :=
    fun l hl => update_of_ne hl _ _
  refine ⟨h.unique.update hnew, fun l hl hvalid => ?_⟩
  dsimp only at hl hvalid ⊢
  by_cases hlk : l = k
  · rw [hlk, hself] at hl hvalid ⊢
    exact hcopy hl hvalid
  · rw [hold l hlk] at hl hvalid ⊢
    exact h.copies l hl hvalid

theorem Mirrors.iget (h : Mirrors sb s) {a : Fin NINODE} (hfree : (s.icache a).ref = 0) (i : Nat) :
    ∃ k c, Fs.iget s.icache i = .ok (k, c) ∧ Mirrors sb { s with icache := c } ∧ (c k).inum = i ∧
      0 < (c k).ref ∧ ∀ l, l ≠ k → c l = s.icache l := by
  have hend : ∃ r, Fs.iget s.icache i = .ok r := by
    unfold Fs.iget
    split
    · exact ⟨_, rfl⟩
    · split
      · exact ⟨_, rfl⟩
      · rename_i hnone
        exact absurd (decide_eq_true hfree) (List.find?_eq_none.mp hnone a (List.mem_finRange a))
  obtain ⟨⟨k, c⟩, hrun⟩ := hend
  refine ⟨k, c, hrun, ?_⟩
  rcases iget_cases hrun with ⟨href, hinum, rfl⟩ | ⟨hnone, -, rfl⟩
  · refine ⟨h.entry (fun _ => h.copies k href) fun _ => h.unique.inum_ne href, ?_, ?_, ?_⟩
    · rw [update_self]
      exact hinum
    · rw [update_self]
      exact Int.lt_add_one_iff.mpr href.le
    · exact fun l hl => update_of_ne hl _ _
  · refine ⟨h.entry (fun _ hvalid => Bool.noConfusion hvalid) fun _ l _ hl => hnone l hl, ?_, ?_, ?_⟩
    · rw [update_self]
    · rw [update_self]
      exact Int.one_pos
    · exact fun l hl => update_of_ne hl _ _

theorem Mirrors.ilock (h : Mirrors sb s) (href : 0 < (s.icache k).ref)
    (hlive : (loadInode sb s.disk (s.icache k).inum).type ≠ 0) :
    ∃ c, Fs.ilock sb s k = .ok { s with icache := c } ∧ Mirrors sb { s with icache := c } ∧
      c k = { s.icache k with valid := true, copy := loadInode sb s.disk (s.icache k).inum } ∧ ∀ l, l ≠ k →
      c l = s.icache l := by
  unfold Fs.ilock
  rw [if_neg (by omega)]
  by_cases hvalid : (s.icache k).valid = true
  · refine ⟨s.icache, if_pos hvalid, h, ?_, fun _ _ => rfl⟩
    rw [← h.copies k href hvalid, ← hvalid]
  · refine ⟨update s.icache k
      { s.icache k with valid := true, copy := loadInode sb s.disk (s.icache k).inum }, ?_, ?_, ?_, ?_⟩
    · rw [if_neg hvalid, if_neg hlive]
    · exact h.entry (fun _ _ => rfl) fun _ => h.unique.inum_ne href
    · rw [update_self]
    · exact fun l hl => update_of_ne hl _ _

theorem Mirrors.iput (h : Mirrors sb s) (href : 0 < (s.icache k).ref) (hlinks : (s.icache k).copy.nlink ≠ 0) :
    ∃ c, Fs.iput sb s k = .ok { s with icache := c } ∧ Mirrors sb { s with icache := c } ∧ ∀ l, l ≠ k →
    c l = s.icache l := by
  refine ⟨update s.icache k { s.icache k with ref := (s.icache k).ref - 1 }, ?_, ?_, ?_⟩
  · rw [Fs.iput, if_neg fun hc => hlinks hc.2.1]
    rfl
  · exact h.entry (fun _ => h.copies k href) fun _ => h.unique.inum_ne href
  · exact fun l hl => update_of_ne hl _ _

/-! ### Stored bytes -/

/-- The inode `i` has the bytes `a`, and perhaps others past them. -/
structure Stores (sb : Superblock) (d : Disk) (i : Nat) (a : List UInt8) : Prop where
  le : a.length ≤ (loadInode sb d i).size.toNat
  mapped : ∀ o < a.length, Mapped sb d (loadInode sb d) i o
  byte : ∀ o < a.length, a[o]? = some (fileByte sb d (loadInode sb d) i o)

theorem Stores.readi {sb : Layout} {d : Disk} {a : List UInt8} (h : Stores sb d i a)
    (dev : Devices) (off n : UInt32) (hi : i < sb.ninodes) (hlive : (loadInode sb d i).type ≠ 0)
    (hdev : (loadInode sb d i).type ≠ T_DEV) (hwrap : off.toNat + n.toNat < 2 ^ 32)
    (hend : off.toNat + readCount (loadInode sb d i).size.toNat off.toNat n.toNat ≤ a.length) :
    readi sb dev d (loadInode sb d i) off n = .ok ((readCount (loadInode sb d i).size.toNat off.toNat n.toNat,
        (a.drop off.toNat).take (readCount (loadInode sb d i).size.toNat off.toNat n.toNat)), d, loadInode sb d i) := by
  have hle := h.le
  rw [readi_mapped dev hi hlive hdev _ _ fun o _ ho => h.mapped o (by omega), if_neg (by omega)]
  congr 3
  apply List.ext_getElem?
  intro j
  generalize readCount (loadInode sb d i).size.toNat off.toNat n.toNat = m at hend ⊢
  rw [List.getElem?_map, List.getElem?_take, List.getElem?_drop]
  by_cases hj : j < m
  · rw [List.getElem?_range hj, if_pos hj, h.byte _ (by omega)]
    rfl
  · rw [List.getElem?_eq_none (by rw [List.length_range]; omega), if_neg hj]
    rfl

theorem cached_readi {dev : Devices} {d : Disk} {ip : Dinode} {off n : UInt32} {r : Int × List UInt8}
    (hdisk : s.disk = d) (hcopy : (s.icache k).copy = ip) (hread : readi sb dev d ip off n = .ok (r, d, ip)) :
    (cached sb dev k).readi s off n = .ok (r, s) := by
  simp only [cached, hdisk, hcopy, hread, ok_bind, pure_eq_ok, State.put]
  rw [← hcopy, update_eq_self, ← hdisk]

end Laboratorio.Fs

namespace Laboratorio.Mkfs

open Fs Bytes
open Function

/-! ### The image -/

/-- What the kernel meets on the disk that `mkfs` writes. -/
structure Carries (d : Disk) (files : List HostFile) : Prop where
  super : readsb d = mkfsLayout.toSuperblock
  root : Stores mkfsLayout d ROOTINO (rootBytes files)
  rootType : (loadInode mkfsLayout d ROOTINO).type = T_DIR
  rootLinks : (loadInode mkfsLayout d ROOTINO).nlink = 1
  file : ∀ j f, files[j]? = some f → Stores mkfsLayout d (j + 2) f.bytes
  fileType : ∀ j < files.length, (loadInode mkfsLayout d (j + 2)).type = T_FILE
  fileSize : ∀ j f, files[j]? = some f → (loadInode mkfsLayout d (j + 2)).size.toNat = f.bytes.length

theorem readsb_superBlock {d : Disk} (h : d 1 = superBlock) : readsb d = mkfsLayout.toSuperblock := by
  have hword : ∀ i < 7, getLE (d 1) (0 + 4 * i) 4 =
      [sb.size, sb.nblocks, sb.ninodes, sb.nlog, sb.logstart, sb.inodestart, sb.bmapstart].getD i 0 % 256 ^ 4 := by
    intro i hi
    rw [h]
    exact getLE_setWords zeroBlock _ (by decide) hi
  have hsize := hword 0 (by decide)
  have hnblocks := hword 1 (by decide)
  have hninodes := hword 2 (by decide)
  have hnlog := hword 3 (by decide)
  have hlogstart := hword 4 (by decide)
  have hinodestart := hword 5 (by decide)
  have hbmapstart := hword 6 (by decide)
  rw [readsb, ← sb_eq]
  rw [hsize, hnblocks, hninodes, hnlog, hlogstart, hinodestart, hbmapstart]
  rfl

variable {s : Image} {files : List HostFile} {f : HostFile}

theorem Built.stores {A : Arrays} {i : Nat} {d : Disk} (h : Built s A) (hi : i < NINODES) (htaken : Taken s i)
    (hmoved : ∀ o, Mapped mkfsLayout s.disk (loadInode mkfsLayout s.disk) i o →
      Mapped mkfsLayout d (loadInode mkfsLayout d) i o ∧ fileByte mkfsLayout d (loadInode mkfsLayout d) i o =
        fileByte mkfsLayout s.disk (loadInode mkfsLayout s.disk) i o)
    (hle : (A i).length ≤ (loadInode mkfsLayout d i).size.toNat) : Stores mkfsLayout d i (A i) := by
  have hmapped : ∀ o < (A i).length, Mapped mkfsLayout s.disk (loadInode mkfsLayout s.disk) i o := by
    intro o ho
    rw [← h.size_eq hi htaken] at ho
    exact h.wellFormed.full i hi (h.live hi htaken).2 o ho
  refine ⟨hle, fun o ho => (hmoved o (hmapped o ho)).1, fun o ho => ?_⟩
  rw [(hmoved o (hmapped o ho)).2, ← h.contents i hi htaken, getElem?_contents, if_pos]
  rw [h.size_eq hi htaken]
  exact ho

variable {j : Nat}

theorem tree_file (hj : files[j]? = some f) : tree files (j + 2) = f.bytes := by
  rw [tree, if_neg (add_two_ne_root j), if_pos (by omega), Nat.add_sub_cancel, hj]
  rfl

theorem mkfs_carries {img : Image} (hlt : files.length + 1 < NINODES) (hrun : mkfs files = .ok img) :
    Carries img.block files := by
  obtain ⟨s, hbuilt, hfree, hblock⟩ := mkfs_image hlt hrun
  obtain ⟨hrep, hmoved⟩ := fixed_replaces hbuilt
  obtain ⟨hsize, hfixed⟩ := root_size hbuilt hfree hlt
  rw [← hblock] at hrep hmoved
  have hself : loadInode mkfsLayout img.block ROOTINO = fixedRoot s := hrep.loadInode_self (by decide)
  have hroot := root_taken hfree
  have htaken : ∀ j < files.length, j + 2 < NINODES ∧ Taken s (j + 2) ∧
      loadInode mkfsLayout img.block (j + 2) = loadInode mkfsLayout s.disk (j + 2) := by
    intro j hj
    refine ⟨by omega, Taken.of_freeinode hfree (by omega) (by omega), ?_⟩
    exact hrep.loadInode_of_ne (by change j + 2 < NINODES; omega) (add_two_ne_root j)
  have hfileSize : ∀ j f, files[j]? = some f →
      (loadInode mkfsLayout img.block (j + 2)).size.toNat = f.bytes.length := by
    intro j f hj
    obtain ⟨hi, ht, hsame⟩ := htaken j (List.getElem?_eq_some_iff.mp hj).1
    rw [hsame, hbuilt.size_eq hi ht, tree_file hj]
  refine ⟨?_, ?_, ?_, ?_, ?_, ?_, hfileSize⟩
  · apply readsb_superBlock
    have hne : mkfsLayout.iblock ROOTINO ≠ 1 := by decide
    rw [hblock, iupdate, putBlock, update_of_ne hne.symm]
    exact (disk_of_ne s (by decide)).trans hbuilt.orderly.super
  · refine hbuilt.stores (by decide) hroot (hmoved ROOTINO) ?_
    rw [hself, hfixed]
    refine (length_rootBytes files).le.trans ?_
    simp only [BSIZE, DIRENT]
    omega
  · rw [hself]
    exact (hbuilt.live (by decide) hroot).1
  · rw [hself]
    exact hbuilt.nlink ROOTINO (by decide) hroot
  · intro j f hj
    obtain ⟨hi, ht, -⟩ := htaken j (List.getElem?_eq_some_iff.mp hj).1
    have hstores := hbuilt.stores hi ht (hmoved (j + 2))
    rw [tree_file hj, hfileSize j f hj] at hstores
    exact hstores (le_refl _)
  · intro j hj
    obtain ⟨hi, ht, hsame⟩ := htaken j hj
    rw [hsame, (hbuilt.live hi ht).1]
    exact if_neg (add_two_ne_root j)

/-! ### Names -/

/-- Names as `mkfs` needs them: not empty, not one of the two entries of every directory, and different in
the part that an entry holds. -/
structure Named (files : List HostFile) : Prop where
  nonempty : ∀ f ∈ files, f.fsName ≠ []
  not_dot : ∀ f ∈ files, f.fsName ≠ dot
  not_dotdot : ∀ f ∈ files, f.fsName ≠ dotdot
  distinct : (files.map fun f => f.fsName.take DIRSIZ).Nodup

theorem fsName_sub (f : HostFile) {c : UInt8} (h : c ∈ f.fsName) : c ∈ f.name := by
  unfold HostFile.fsName at h
  split at h
  · exact List.mem_of_mem_tail h
  · exact h

theorem fsName_terminated (f : HostFile) : 0 ∉ f.fsName := fun h => f.name_terminated (fsName_sub f h)

variable {name : List UInt8}

theorem key_of_terminated (h : 0 ∉ name) : key name = name.take DIRSIZ := by
  rw [key, List.takeWhile_eq_self_iff]
  intro c hc
  apply decide_eq_true
  rintro rfl
  exact h (List.mem_of_mem_take hc)

theorem key_take (name : List UInt8) : key (name.take DIRSIZ) = key name := by
  rw [key, List.take_take, Nat.min_self]
  rfl

theorem take_ne {short : List UInt8} (hshort : short.length < DIRSIZ) (hne : name ≠ short) :
    name.take DIRSIZ ≠ short := by
  intro htake
  have hlen := congrArg List.length htake
  rw [List.length_take] at hlen
  rw [List.take_of_length_le (by omega)] at htake
  exact hne htake

theorem skipelem_file (hnonempty : name ≠ []) (hnull : 0 ∉ name) (hslash : SLASH ∉ name) :
    skipelem (SLASH :: name) = some (name.take DIRSIZ, []) := by
  obtain ⟨c, tail, rfl⟩ := List.exists_cons_of_ne_nil hnonempty
  have hc : c ≠ SLASH := fun hc => hslash (by rw [hc]; exact List.mem_cons_self)
  have hc' : c ≠ 0 := fun hc => hnull (by rw [hc]; exact List.mem_cons_self)
  have hdrop : (SLASH :: c :: tail).dropWhile (· = SLASH) = c :: tail := by
    rw [List.dropWhile_cons_of_pos (by decide), List.dropWhile_cons_of_neg (by simpa using hc)]
  have htake : (c :: tail).takeWhile (fun c => decide (c ≠ SLASH ∧ c ≠ 0)) = c :: tail := by
    rw [List.takeWhile_eq_self_iff]
    intro b hb
    apply decide_eq_true
    exact ⟨fun h => hslash (by rw [← h]; exact hb), fun h => hnull (by rw [← h]; exact hb)⟩
  unfold skipelem
  dsimp only
  rw [hdrop, htake, List.headD_cons, if_neg hc', List.drop_length]
  rfl

theorem skipelem_nil : skipelem [] = none := rfl

/-! ### The root directory -/

variable {e : Dirent}

theorem slice_flatMap {l : List Dirent} (hl : ∀ e ∈ l, e.encode.length = DIRENT)
    (he : l[j]? = some e) : slice (l.flatMap Dirent.encode) j = e.encode := by
  induction l generalizing j with
  | nil => exact absurd he (by rw [List.getElem?_nil]; exact nofun)
  | cons a l ih =>
    have ha : a.encode.length = DIRENT := hl a List.mem_cons_self
    cases j with
    | zero =>
      cases he
      rw [slice, Nat.mul_zero, List.drop_zero, List.flatMap_cons, List.take_append_of_le_length ha.ge,
        List.take_of_length_le ha.le]
    | succ j =>
      have hrest := ih (fun e he => hl e (List.mem_cons_of_mem a he)) he
      rw [slice, Nat.mul_succ, Nat.add_comm, List.flatMap_cons, ← List.drop_drop, ← ha, List.drop_left, ha]
      exact hrest

theorem rootEntries_length (he : e ∈ rootEntries files) : e.encode.length = DIRENT := by
  rw [rootEntries, List.mem_cons, List.mem_cons] at he
  rcases he with rfl | rfl | he
  · exact length_dirent _ _
  · exact length_dirent _ _
  · obtain ⟨g, -, rfl⟩ := List.mem_map.mp he
    exact length_dirent _ _

theorem rootEntries_file (files : List HostFile) (j : Nat) :
    (rootEntries files)[j + 2]? = (files[j]?).map fun f => entryOf (j + 2) f.fsName := by
  rw [rootEntries, List.getElem?_cons_succ, List.getElem?_cons_succ, List.getElem?_map, List.getElem?_zipIdx,
    Option.map_map, Nat.add_comm 2 j]
  rfl

variable {dev : Devices} {k : Fin NINODE} {t : State} {d : Disk}

theorem readDirent_root (h : Carries d files) (hlt : files.length + 1 < NINODES) {p : Panic}
    (hdisk : t.disk = d) (hcopy : (t.icache k).copy = loadInode mkfsLayout d ROOTINO)
    (he : (rootEntries files)[j]? = some e) :
    readDirent (cached mkfsLayout dev k) p t (DIRENT * j) = .ok (e, t) := by
  have hj : j < files.length + 2 := by
    rw [← length_rootEntries]
    exact (List.getElem?_eq_some_iff.mp he).1
  have hle := h.root.le
  have hlen := length_rootBytes files
  have hoff : (UInt32.ofNat (DIRENT * j)).toNat = DIRENT * j := by
    apply UInt32.toNat_ofNat_of_lt'
    simp only [DIRENT, NINODES, UInt32.size] at hlt ⊢
    omega
  have hn : (UInt32.ofNat DIRENT).toNat = DIRENT := rfl
  have hcount : readCount (loadInode mkfsLayout d ROOTINO).size.toNat (UInt32.ofNat (DIRENT * j)).toNat
      (UInt32.ofNat DIRENT).toNat = DIRENT := by
    rw [hoff, hn, readCount]
    simp only [DIRENT] at hlen ⊢
    omega
  have hread := h.root.readi dev (UInt32.ofNat (DIRENT * j)) (UInt32.ofNat DIRENT) (by decide)
    (by rw [h.rootType]; decide) (by rw [h.rootType]; decide)
    (by rw [hoff, hn]; simp only [DIRENT, NINODES] at hlt ⊢; omega)
    (by rw [hcount, hoff, hlen]; simp only [DIRENT]; omega)
  rw [hcount, hoff] at hread
  rw [readDirent, cached_readi hdisk hcopy hread, ok_bind]
  dsimp only
  change Except.ok (Dirent.decode (slice (rootBytes files) j), t) = _
  rw [rootBytes, slice_flatMap (fun e he => rootEntries_length he) he, decode_encode]

theorem rootEntries_skips (hnamed : Named files) (hj : files[j]? = some f) :
    Skips (rootEntries files) (fun de => de.inum ≠ 0 ∧ namecmp (f.fsName.take DIRSIZ) de.name = 0) 0 (j + 2) := by
  have hmem : f ∈ files := List.mem_of_getElem? hj
  have hkey : key (f.fsName.take DIRSIZ) = f.fsName.take DIRSIZ := by
    rw [key_take, key_of_terminated (fsName_terminated f)]
  have hpass : ∀ (i : Nat) (name : List UInt8), key name ≠ f.fsName.take DIRSIZ →
      decide ((entryOf i name).inum ≠ 0 ∧ namecmp (f.fsName.take DIRSIZ) (entryOf i name).name = 0) = false := by
    intro i name hne
    apply decide_eq_false
    rintro ⟨-, hcmp⟩
    rw [namecmp_eq_zero, hkey, entryOf, key_strncpy] at hcmp
    exact hne hcmp.symm
  intro o e _ ho he
  match o, ho, he with
  | 0, _, he =>
    cases he
    exact hpass _ _ (take_ne (by decide) (hnamed.not_dot f hmem)).symm
  | 1, _, he =>
    cases he
    exact hpass _ _ (take_ne (by decide) (hnamed.not_dotdot f hmem)).symm
  | o + 2, ho, he =>
    rw [rootEntries_file] at he
    obtain ⟨g, hg, rfl⟩ := Option.map_eq_some_iff.mp he
    apply hpass
    rw [key_of_terminated (fsName_terminated g)]
    intro hsame
    have hl : o < files.length := (List.getElem?_eq_some_iff.mp hg).1
    have hget : (files.map fun f => f.fsName.take DIRSIZ)[o]? = (files.map fun f => f.fsName.take DIRSIZ)[j]? := by
      rw [List.getElem?_map, List.getElem?_map, hg, hj, Option.map_some, Option.map_some, hsame]
    have heq := (List.getElem?_inj (by rw [List.length_map]; exact hl) hnamed.distinct).mp hget
    omega

theorem dirlookup_root (h : Carries d files) (hlt : files.length + 1 < NINODES) (hnamed : Named files)
    (hdisk : t.disk = d) (hcopy : (t.icache k).copy = loadInode mkfsLayout d ROOTINO) (hj : files[j]? = some f) :
    dirlookup (cached mkfsLayout dev k) t (f.fsName.take DIRSIZ) = .ok (some (j + 2, DIRENT * (j + 2)), t) := by
  have hlen : j < files.length := (List.getElem?_eq_some_iff.mp hj).1
  have hinum : (UInt16.ofNat (j + 2)).toNat = j + 2 := by
    apply UInt16.toNat_ofNat_of_lt'
    simp only [NINODES, UInt16.size] at hlt ⊢
    omega
  have htype : (cached mkfsLayout dev k).type t = T_DIR := by
    change (t.icache k).copy.type = T_DIR
    rw [hcopy, h.rootType]
  have hsize : DIRENT * (rootEntries files).length ≤ ((cached mkfsLayout dev k).size t).toNat := by
    change _ ≤ (t.icache k).copy.size.toNat
    rw [hcopy, length_rootEntries, ← length_rootBytes]
    exact h.root.le
  have he : (rootEntries files)[j + 2]? = some (entryOf (j + 2) f.fsName) := by
    rw [rootEntries_file, hj]
    rfl
  have htest : decide ((entryOf (j + 2) f.fsName).inum ≠ 0 ∧
      namecmp (f.fsName.take DIRSIZ) (entryOf (j + 2) f.fsName).name = 0) = true := by
    apply decide_eq_true
    refine ⟨fun hzero => ?_, ?_⟩
    · have htoNat : (UInt16.ofNat (j + 2)).toNat = 0 := congrArg UInt16.toNat hzero
      omega
    · rw [namecmp_eq_zero, key_take, entryOf, key_strncpy]
  have hfuel : j + 2 < turns ((cached mkfsLayout dev k).size t) + 0 := by
    rw [length_rootEntries] at hsize
    simp only [turns, DIRENT] at hsize ⊢
    omega
  have hscan := findDirent_first (cached mkfsLayout dev k) (p := .dirlookupRead)
    (fun j e => readDirent_root h hlt hdisk hcopy) hsize he htest hfuel (Nat.zero_le _)
    (rootEntries_skips hnamed hj)
  rw [Nat.mul_zero] at hscan
  rw [dirlookup, if_neg (not_not.mpr htype), hscan, ok_bind]
  dsimp only
  change Except.ok (some ((UInt16.ofNat (j + 2)).toNat, DIRENT * (j + 2)), t) = _
  rw [hinum]

/-! ### The lookup -/

/-- `namex` of the path of a file ends at its inode, with the reference for the caller. -/
theorem namex_file (h : Carries d files) (hlt : files.length + 1 < NINODES) (hnamed : Named files)
    (hfiles : ∀ f ∈ files, Acceptable f) (hdisk : t.disk = d) (hmirrors : Mirrors mkfsLayout t) (hspare : Spare t)
    (cwd : Fin NINODE) (hj : files[j]? = some f) :
    ∃ l c, namex (inodes mkfsLayout dev) t cwd (SLASH :: f.fsName) false = .ok (some (l, []), { t with icache := c }) ∧
      Mirrors mkfsLayout { t with icache := c } ∧ (c l).inum = j + 2 ∧ 0 < (c l).ref := by
  have hmem : f ∈ files := List.mem_of_getElem? hj
  have hskip := skipelem_file (hnamed.nonempty f hmem) (fsName_terminated f)
    fun hslash => (hfiles f hmem).slash (fsName_sub f hslash)
  obtain ⟨a, b, hab, ha, hb⟩ := hspare
  -- A reference to the root, which uses at most one of the two entries.
  obtain ⟨k, c₁, hget, hmirrors₁, hinum₁, href₁, hsame₁⟩ := hmirrors.iget ha ROOTINO
  obtain ⟨e, hek, he⟩ : ∃ e, e ≠ k ∧ (t.icache e).ref = 0 := by
    by_cases hak : a = k
    · exact ⟨b, fun hbk => hab (hak.trans hbk.symm), hb⟩
    · exact ⟨a, hak, ha⟩
  have hroot : loadInode mkfsLayout t.disk (c₁ k).inum = loadInode mkfsLayout d ROOTINO := by
    rw [hdisk, hinum₁]
  obtain ⟨c₂, hlock, hmirrors₂, hcopy₂, hsame₂⟩ := hmirrors₁.ilock href₁ (by
    rw [hroot, h.rootType]
    decide)
  dsimp only at hlock hcopy₂ hsame₂
  rw [hroot] at hcopy₂
  have hcopied : (c₂ k).copy = loadInode mkfsLayout d ROOTINO := by rw [hcopy₂]
  have hlookup : dirlookup (cached mkfsLayout dev k) { t with icache := c₂ } (f.fsName.take DIRSIZ) =
      .ok (some (j + 2, DIRENT * (j + 2)), { t with icache := c₂ }) :=
    dirlookup_root h hlt hnamed hdisk hcopied hj
  -- A reference to the file, in another entry.
  obtain ⟨l, c₃, hget₃, hmirrors₃, hinum₃, href₃, hsame₃⟩ := hmirrors₂.iget (by
    change (c₂ e).ref = 0
    rw [hsame₂ e hek, hsame₁ e hek]
    exact he) (j + 2)
  dsimp only at hget₃ hsame₃
  have hlk : k ≠ l := by
    rintro rfl
    have hfresh : (c₂ k).inum = ROOTINO := by rw [hcopy₂]; exact hinum₁
    rcases iget_cases hget₃ with ⟨-, hfound, -⟩ | ⟨-, hzero, -⟩
    · exact add_two_ne_root j (hfound.symm.trans hfresh)
    · rw [hcopy₂] at hzero
      exact absurd hzero href₁.ne'
  have hkept : c₃ k = c₂ k := hsame₃ k hlk
  obtain ⟨c₄, hput, hmirrors₄, hsame₄⟩ := hmirrors₃.iput (by
    change 0 < (c₃ k).ref
    rw [hkept, hcopy₂]
    exact href₁) (by
    change (c₃ k).copy.nlink ≠ 0
    rw [hkept, hcopied, h.rootLinks]
    decide)
  refine ⟨l, c₄, ?_, hmirrors₄, ?_, ?_⟩
  · rw [namex, List.headD_cons, if_pos rfl]
    change (Fs.iget t.icache ROOTINO >>= fun r => pure (r.1, { t with icache := r.2 })) >>= _ = _
    rw [hget, ok_bind, pure_eq_ok, ok_bind]
    dsimp only
    rw [List.length_cons, namexLoop, hskip]
    change Fs.ilock mkfsLayout { t with icache := c₁ } k >>= _ = _
    rw [hlock, ok_bind]
    have htype : ((inodes mkfsLayout dev).contents k).type { t with icache := c₂ } = T_DIR := by
      change (c₂ k).copy.type = T_DIR
      rw [hcopied, h.rootType]
    rw [if_neg (not_not.mpr htype), if_neg (fun hc => Bool.false_ne_true hc.1)]
    change dirlookup (cached mkfsLayout dev k) { t with icache := c₂ } (f.fsName.take DIRSIZ) >>= _ = _
    rw [hlookup, ok_bind]
    change (Fs.iget c₂ (j + 2) >>= fun r => pure (r.1, { t with icache := r.2 })) >>= _ = _
    rw [hget₃, ok_bind, pure_eq_ok, ok_bind]
    change Fs.iput mkfsLayout { t with icache := c₃ } k >>= _ = _
    rw [hput, ok_bind, namexLoop, skipelem_nil]
    rfl
  · rw [hsame₄ l hlk.symm]
    exact hinum₃
  · rw [hsame₄ l hlk.symm]
    exact href₃

/-- `mkfs` of files that fit completes, and the kernel reads the image back: on a disk with the image, with a
cache that mirrors it and has room for two inodes, the path of every file leads to an inode with the size
and the bytes of the file. -/
theorem mkfs_read_back (dev : Devices) (files : List HostFile) (hlt : files.length < NINODES - 1)
    (hfiles : ∀ f ∈ files, Acceptable f) (hneeded : blocksNeeded files ≤ FSSIZE - nmeta) (hnamed : Named files) :
    ∃ img, mkfs files = .ok img ∧
      ∀ t : State, t.disk = img.block → Mirrors (readsb img.block) t → Spare t → ∀ cwd, ∀ f ∈ files,
        ∃ k t₁ t₂, namex (inodes (readsb img.block) dev) t cwd (SLASH :: f.fsName) false = .ok (some (k, []), t₁) ∧
          ilock (readsb img.block) t₁ k = .ok t₂ ∧ t₂.disk = img.block ∧ Mirrors (readsb img.block) t₂ ∧
          (t₂.icache k).copy.size.toNat = f.bytes.length ∧
          ∀ n : UInt32, f.bytes.length ≤ n.toNat →
            (cached (readsb img.block) dev k).readi t₂ 0 n = .ok ((f.bytes.length, f.bytes), t₂) := by
  have hlt' : files.length + 1 < NINODES := by
    omega
  obtain ⟨img, hrun⟩ := mkfs_total hlt' hfiles hneeded
  have h := mkfs_carries hlt' hrun
  refine ⟨img, hrun, ?_⟩
  rw [h.super]
  intro t hdisk hmirrors hspare cwd f hf
  obtain ⟨j, hj⟩ := List.mem_iff_getElem?.mp hf
  have hlen : j < files.length := (List.getElem?_eq_some_iff.mp hj).1
  obtain ⟨k, c₁, hname, hmirrors₁, hinum, href⟩ := namex_file h hlt' hnamed hfiles hdisk hmirrors hspare cwd hj
  have hload : loadInode mkfsLayout t.disk (c₁ k).inum = loadInode mkfsLayout img.block (j + 2) := by
    rw [hdisk, hinum]
  obtain ⟨c₂, hlock, hmirrors₂, hcopy, -⟩ := hmirrors₁.ilock href (by
    rw [hload, h.fileType j hlen]
    decide)
  have hcopied : (c₂ k).copy = loadInode mkfsLayout img.block (j + 2) := by rw [hcopy, hload]
  refine ⟨k, _, _, hname, hlock, hdisk, hmirrors₂, ?_, fun n hn => ?_⟩
  · change (c₂ k).copy.size.toNat = _
    rw [hcopied, h.fileSize j f hj]
  have hcount : readCount (loadInode mkfsLayout img.block (j + 2)).size.toNat (0 : UInt32).toNat n.toNat =
      f.bytes.length := by
    rw [h.fileSize j f hj, UInt32.toNat_zero, readCount, Nat.sub_zero, Nat.min_eq_right hn]
  have hread := (h.file j f hj).readi dev 0 n (by change j + 2 < NINODES; omega)
    (by rw [h.fileType j hlen]; decide) (by rw [h.fileType j hlen]; decide)
    (by rw [UInt32.toNat_zero, Nat.zero_add]; exact n.toNat_lt)
    (by rw [hcount, UInt32.toNat_zero, Nat.zero_add])
  rw [hcount, UInt32.toNat_zero, List.drop_zero, List.take_length] at hread
  exact cached_readi hdisk hcopied hread

def shFile : HostFile where
  name := [95, 115, 104]
  readable := true
  chunks := [[1, 2], [3]]
  name_terminated := by decide
  chunks_fit := by decide

theorem mkfs_read_back_sh :
    ∃ img, mkfs [shFile] = .ok img ∧ ∃ k t₁ t₂,
      namex (inodes (readsb img.block) ⟨fun _ => none, fun _ => none⟩) (State.boot img.block) 0 [SLASH, 115,
        104] false = .ok (some (k, []), t₁) ∧ ilock (readsb img.block) t₁ k = .ok t₂ ∧
      (cached (readsb img.block) ⟨fun _ => none, fun _ => none⟩ k).readi t₂ 0 512 = .ok ((3, [1, 2, 3]), t₂) := by
  obtain ⟨img, hrun, hread⟩ := mkfs_read_back ⟨fun _ => none, fun _ => none⟩ [shFile] (by decide)
    (fun f hf => by
      obtain rfl := List.mem_singleton.mp hf
      exact ⟨by decide, rfl, by decide⟩)
    (by decide)
    ⟨fun f hf => by
      obtain rfl := List.mem_singleton.mp hf
      decide, fun f hf => by
      obtain rfl := List.mem_singleton.mp hf
      decide, fun f hf => by
      obtain rfl := List.mem_singleton.mp hf
      decide, List.nodup_singleton _⟩
  obtain ⟨hmirrors, hspare⟩ := Mirrors.boot (readsb img.block) img.block
  obtain ⟨k, t₁, t₂, hname, hlock, -, -, -, hbytes⟩ :=
    hread (State.boot img.block) rfl hmirrors hspare 0 shFile List.mem_cons_self
  exact ⟨img, hrun, k, t₁, t₂, hname, hlock, hbytes 512 (by decide)⟩

/-- The kernel can run on what `mkfs` writes: the superblock is the one that it reads, and whatever inode operations
complete leave the disk well formed and the inode cache true to it; no free block is freed. -/
theorem mkfs_disk_serves (dev : Devices) (files : List HostFile) {img : Image} (hrun : mkfs files = .ok img)
    (hlt : files.length + 1 < NINODES) (hpart : (files.length + 2) % (BSIZE / DIRENT) ≠ 0) :
    readsb img.block = mkfsLayout.toSuperblock ∧ ∀ ops : List (Op mkfsLayout),
      (∀ s, ops.foldlM (step mkfsLayout dev) (State.boot img.block) = .ok s → Coherent mkfsLayout s) ∧
      ops.foldlM (step mkfsLayout dev) (State.boot img.block) ≠ .error (.panic .freeingFreeBlock) := by
  obtain ⟨s, hbuilt, hfree, hblock⟩ := mkfs_image hlt hrun
  have hinode := (mkfs_freeinode files).of_ok hrun
  have hmade := (fixed_wellmade_iff hbuilt hfree hlt hblock (hinode.trans hfree.symm)).mpr hpart
  have hwf : WellFormed mkfsLayout img.block := by
    refine ⟨hmade.owned, fun i hi hlive o ho => hmade.full i hi hlive (o / BSIZE) ?_⟩
    simp only [BSIZE]
    omega
  exact ⟨(mkfs_carries hlt hrun).super, hwf.run⟩

theorem mkfs_disk_serves_sh : ∃ img, mkfs [shFile] = .ok img ∧ ∀ ops : List (Op mkfsLayout),
    ops.foldlM (step mkfsLayout ⟨fun _ => none, fun _ => none⟩) (State.boot img.block) ≠
    .error (.panic .freeingFreeBlock) := by
  obtain ⟨img, hrun⟩ : ∃ img, mkfs [shFile] = .ok img := mkfs_total (by decide)
    (fun f hf => by
      obtain rfl := List.mem_singleton.mp hf
      exact ⟨by decide, rfl, by decide⟩)
    (by decide)
  exact ⟨img, hrun, fun ops => ((mkfs_disk_serves _ [shFile] hrun (by decide) (by decide)).2 ops).2⟩

end Laboratorio.Mkfs
