import Laboratorio.FsCache

/-! Block ownership over whole runs. From a well-formed disk every sequence of inode operations that
completes leaves a well-formed disk, and none stops in `bfree`. -/

namespace Laboratorio.Fs

open Function

open Bytes

variable {sb : Layout} {dev : Devices} {s s' : State} {k : Fin NINODE}

/-! ### No free block is freed -/

/-- The computation does not stop with the panic of `bfree`. -/
def Quiet {α : Type} (x : Except Stop α) : Prop := x ≠ .error (.panic .freeingFreeBlock)

theorem Quiet.ok {α : Type} (a : α) : Quiet (.ok a) := fun hc => nomatch hc

theorem Quiet.bind {α β : Type} {x : Except Stop α} {f : α → Except Stop β} (hx : Quiet x)
    (hf : ∀ a, x = .ok a → Quiet (f a)) : Quiet (x >>= f) := by
  cases hcase : x with
  | error e =>
    intro hc
    apply hx
    rw [hcase]
    cases hc
    rfl
  | ok a => exact hf a hcase

theorem quiet_balloc (sb : Superblock) (d : Disk) : Quiet (balloc sb d) := by
  unfold balloc
  split
  · exact Quiet.ok _
  · exact fun hc => nomatch hc

theorem quiet_ensureAddr (sb : Superblock) (d : Disk) (ip : Dinode) (k : Fin (NDIRECT + 1)) :
    Quiet (ensureAddr sb d ip k) := by
  unfold ensureAddr
  split
  · exact (quiet_balloc sb d).bind fun _ _ => Quiet.ok _
  · exact Quiet.ok _

theorem quiet_bmap (sb : Superblock) (d : Disk) (ip : Dinode) (bn : Nat) : Quiet (bmap sb d ip bn) := by
  unfold bmap
  split
  · exact quiet_ensureAddr sb d ip _
  · split
    · refine (quiet_ensureAddr sb d ip tableIndex).bind fun r _ => ?_
      dsimp only
      split
      · exact (quiet_balloc sb r.2.1).bind fun _ _ => Quiet.ok _
      · exact Quiet.ok _
    · exact fun hc => nomatch hc

theorem quiet_writeLoop (sb : Superblock) (fuel : Nat) (d : Disk) (ip : Dinode) (off : Nat)
    (src : List UInt8) : Quiet (writeLoop sb fuel d ip off src) := by
  induction fuel generalizing d ip off src with
  | zero => exact Quiet.ok _
  | succ fuel ih =>
    rw [writeLoop]
    split
    · exact Quiet.ok _
    · exact (quiet_bmap sb d ip _).bind fun r _ => ih _ _ _ _

theorem quiet_writei (sb : Superblock) (dev : Devices) (d : Disk) (i : Nat) (ip : Dinode)
    (src : List UInt8) (off : UInt32) : Quiet (writei sb dev d i ip src off) := by
  unfold writei
  dsimp only
  split
  · split
    · exact Quiet.ok _
    · split <;> exact Quiet.ok _
  · split
    · exact Quiet.ok _
    · split
      · exact Quiet.ok _
      · refine (quiet_writeLoop sb _ d ip _ src).bind fun r _ => ?_
        split <;> exact Quiet.ok _

theorem quiet_iget (c : Icache Dinode) (i : Nat) : Quiet (iget c i) := by
  unfold iget
  split
  · exact Quiet.ok _
  · split
    · exact Quiet.ok _
    · exact fun hc => nomatch hc

theorem quiet_ilock (sb : Superblock) (s : State) (k : Fin NINODE) : Quiet (ilock sb s k) := by
  unfold ilock
  split
  · exact fun hc => nomatch hc
  · split
    · exact Quiet.ok _
    · dsimp only
      split
      · exact fun hc => nomatch hc
      · exact Quiet.ok _

theorem quiet_findDirent {p : Panic} {test : Dirent → Bool} (h : Locked sb s k) (hp : p ≠ .freeingFreeBlock)
    (fuel off : Nat) : Quiet (findDirent (cached sb dev k) p test fuel s off) := by
  rcases findDirent_same (cached sb dev k) (fun off n => h.readi off n) fuel off with
    ⟨found, off', hok⟩ | herror
  · rw [hok]
    exact Quiet.ok _
  · rw [herror]
    intro hc
    exact hp (Stop.panic.inj (Except.error.inj hc))

theorem quiet_dirlink (h : Locked sb s k) (name : List UInt8) (inum : Nat) :
    Quiet (dirlink sb dev s k name inum) := by
  have hlookup : Quiet (dirlookup (cached sb dev k) s name) := by
    unfold Fs.dirlookup
    split
    · exact fun hc => nomatch hc
    · exact (quiet_findDirent h Panic.noConfusion _ 0).bind fun _ _ => Quiet.ok _
  refine hlookup.bind fun r hr => ?_
  obtain ⟨found, s₁⟩ := r
  obtain rfl := h.dirlookup hr
  cases found with
  | some p =>
    refine (quiet_iget _ p.1).bind fun q hq => ?_
    obtain ⟨l, c⟩ := q
    dsimp only
    split
    · exact fun hc => nomatch hc
    · obtain ⟨s₂, hput, -⟩ := h.coherent.iget_iput hq
      rw [hput]
      exact Quiet.ok _
  | none =>
    have hadd : Quiet (addDirent (cached sb dev k) s₁ name inum) := by
      refine (quiet_findDirent h Panic.noConfusion _ 0).bind fun q hq => ?_
      obtain ⟨found, off, s₂⟩ := q
      have hwrite : Quiet ((cached sb dev k).writei s₂
          (Dirent.encode { inum := UInt16.ofNat inum, name := strncpy DIRSIZ name }) (UInt32.ofNat off)) :=
        (quiet_writei _ _ _ _ _ _ _).bind fun _ _ => Quiet.ok _
      refine hwrite.bind fun r _ => ?_
      obtain ⟨n, s₃⟩ := r
      by_cases hn : n ≠ (DIRENT : Int)
      · dsimp only
        rw [if_pos hn]
        exact fun hc => nomatch hc
      · dsimp only
        rw [if_neg hn]
        exact Quiet.ok _
    exact hadd.bind fun _ _ => Quiet.ok _

theorem Coherent.quiet (h : Coherent sb s) (op : Op sb) : Quiet (Fs.step sb dev s op) := by
  cases op with
  | iget i => exact (quiet_iget _ _).bind fun _ _ => Quiet.ok _
  | ialloc type =>
    have halloc : Quiet (ialloc sb s.disk type) := by
      unfold ialloc
      split
      · exact Quiet.ok _
      · exact fun hc => nomatch hc
    exact halloc.bind fun _ _ => (quiet_iget _ _).bind fun _ _ => Quiet.ok _
  | readi k off n =>
    refine (quiet_ilock _ s k).bind fun s₁ hs₁ => ?_
    have hread : ∃ r, (cached sb dev k).readi s₁ off n = .ok (r, s₁) := (h.ilock hs₁).readi off n
    obtain ⟨r, hr⟩ := hread
    rw [hr]
    exact Quiet.ok _
  | writei k src off =>
    refine (quiet_ilock _ s k).bind fun s₁ _ => ?_
    have hwrite : Quiet ((cached sb dev k).writei s₁ src.bytes off) :=
      (quiet_writei _ _ _ _ _ _ _).bind fun _ _ => Quiet.ok _
    exact hwrite.bind fun _ _ => Quiet.ok _
  | dirlink k name inum =>
    refine (quiet_ilock _ s k).bind fun s₁ hs₁ => ?_
    exact (quiet_dirlink (h.ilock hs₁) name inum).bind fun _ _ => Quiet.ok _
  | iupdate k major minor nlink =>
    exact (quiet_ilock _ s k).bind fun _ _ => Quiet.ok _
  | iput k =>
    obtain ⟨s₁, hput, -⟩ := h.iput
    change Quiet (Fs.iput sb s k)
    rw [hput]
    exact Quiet.ok _

/-! ### The empty file system -/

/-- The disk of `mkfs` before it makes any inode: zeroes, and the metadata marked in the free map. -/
def emptyDisk (sb : Superblock) : Disk :=
  (List.range sb.datastart).foldl (markBlock sb) fun _ => zeroBlock

theorem bit_zeroBlock (j : Nat) : bit zeroBlock j = false := by
  unfold bit byte
  split <;> simp [zeroBlock]

theorem bitAt_marks (sb : Superblock) (L : List Nat) (d : Disk) (c : Nat) :
    bitAt sb (L.foldl (markBlock sb) d) c = (decide (c ∈ L) || bitAt sb d c) := by
  induction L generalizing d with
  | nil => rfl
  | cons b L ih =>
    rw [List.foldl_cons, ih, bitAt_mark, ← Bool.or_assoc]
    congr 1
    rw [Bool.eq_iff_iff, Bool.or_eq_true, decide_eq_true_eq, decide_eq_true_eq, decide_eq_true_eq,
      List.mem_cons, or_comm, eq_comm]

theorem marks_low (sb : Layout) (L : List Nat) (d : Disk) {a : Nat} (ha : a < sb.bmapstart) :
    L.foldl (markBlock sb) d a = d a := by
  induction L generalizing d with
  | nil => rfl
  | cons b L ih =>
    have hge := sb.bmapstart_le_bblock b
    rw [List.foldl_cons, ih, markBlock, putBlock, update_of_ne (by omega)]

theorem emptyDisk_free (sb : Layout) {i : Nat} (hi : i < sb.ninodes) :
    (loadInode sb (emptyDisk sb) i).type = 0 := by
  rw [loadInode, emptyDisk, marks_low sb _ _ (sb.iblock_lt hi)]
  change UInt16.ofNat (getLE zeroBlock _ 2) = 0
  rw [getLE_zeros]
  · rfl
  · intro j _
    unfold byte
    split <;> rfl

theorem bitAt_emptyDisk (sb : Superblock) (b : Nat) :
    bitAt sb (emptyDisk sb) b = decide (b < sb.datastart) := by
  rw [emptyDisk, bitAt_marks, bitAt, bit_zeroBlock, Bool.or_false]
  simp only [List.mem_range]

theorem emptyDisk_wellFormed (sb : Layout) : WellFormed sb (emptyDisk sb) := by
  have hnone : ∀ p, addrOf sb (emptyDisk sb) (loadInode sb (emptyDisk sb)) p = 0 := by
    intro p
    exact if_neg fun hp => hp.2 (emptyDisk_free sb hp.1)
  refine ⟨⟨fun p hp => absurd (hnone p) hp, fun p q _ hp => absurd (hnone p) hp, ?_⟩,
    fun i hi hlive => absurd (emptyDisk_free sb hi) hlive⟩
  intro b _
  rw [bitAt_emptyDisk, decide_eq_true_eq]
  refine ⟨Or.inl, fun hb => hb.elim id ?_⟩
  rintro ⟨p, hp, -⟩
  exact absurd (hnone p) hp

/-- The layout that `mkfs` writes. -/
def mkfsLayout : Layout where
  size := 1000
  nblocks := 941
  ninodes := 200
  nlog := 30
  logstart := 2
  inodestart := 32
  bmapstart := 58
  inodes_le := by decide
  bitmap_le := by decide
  nblocks_le := by decide
  size_le := by decide

/-! ### Runs -/

theorem WellFormed.run {d : Disk} (h : WellFormed sb d) (ops : List (Op sb)) :
    (∀ s, ops.foldlM (step sb dev) (State.boot d) = .ok s → Coherent sb s) ∧
      ops.foldlM (step sb dev) (State.boot d) ≠ .error (.panic .freeingFreeBlock) := by
  have hstep : ∀ s (op : Op sb) s', Coherent sb s → step sb dev s op = .ok s' → Coherent sb s' :=
    fun _ _ _ hs hrun => hs.step hrun
  exact ⟨fun s hrun => foldlM_invariant hstep (Coherent.boot h) hrun,
    foldlM_ne_error hstep (fun _ op hs => hs.quiet op) ops (Coherent.boot h)⟩

/-- From a well-formed disk, whatever operations complete: the disk is well formed, no two positions
share a block, none owns a metadata block, and no free block is freed. -/
theorem block_ownership (sb : Layout) (dev : Devices) (d : Disk) (h : WellFormed sb d) (ops : List (Op sb)) :
    (∀ s, ops.foldlM (step sb dev) (State.boot d) = .ok s →
      WellFormed sb s.disk ∧
      (∀ p q, addrOf sb s.disk (loadInode sb s.disk) p = addrOf sb s.disk (loadInode sb s.disk) q →
        addrOf sb s.disk (loadInode sb s.disk) p ≠ 0 → p = q) ∧
      ∀ p, addrOf sb s.disk (loadInode sb s.disk) p ≠ 0 →
        sb.datastart ≤ addrOf sb s.disk (loadInode sb s.disk) p) ∧
    ops.foldlM (step sb dev) (State.boot d) ≠ .error (.panic .freeingFreeBlock) := by
  refine ⟨fun s hrun => ?_, (h.run ops).2⟩
  have hwf := ((h.run ops).1 s hrun).wellFormed
  exact ⟨hwf, hwf.owned.inj, fun p hp => (hwf.owned.range p hp).1⟩

/-- A file is made and written on an empty disk, and freed. -/
theorem block_ownership_empty : ∃ s, [Op.ialloc T_FILE, .writei 0 ⟨[1, 2, 3], by decide⟩ 0, .iput 0].foldlM
      (step mkfsLayout ⟨fun _ => none, fun _ => none⟩) (State.boot (emptyDisk mkfsLayout)) = .ok s ∧
    (loadInode mkfsLayout s.disk 1).type = 0 ∧ WellFormed mkfsLayout s.disk := by
  have hends : ∃ s, [Op.ialloc T_FILE, .writei 0 ⟨[1, 2, 3], by decide⟩ 0, .iput 0].foldlM
      (step mkfsLayout ⟨fun _ => none, fun _ => none⟩) (State.boot (emptyDisk mkfsLayout)) = .ok s ∧
      (loadInode mkfsLayout s.disk 1).type = 0 := by decide +kernel
  obtain ⟨s, hrun, hfree⟩ := hends
  exact ⟨s, hrun, hfree, ((block_ownership _ _ _ (emptyDisk_wellFormed mkfsLayout) _).1 s hrun).1⟩

/-- From a well-formed disk, whatever operations complete: the cache has an inode at most once, and every valid copy
is the inode on the disk, although `bmap` does not call `iupdate` and `writei` calls it only for a file that grows. -/
theorem inode_cache_written_through (sb : Layout) (dev : Devices) (d : Disk) (h : WellFormed sb d) (ops : List (Op sb))
    (s : State) (hrun : ops.foldlM (step sb dev) (State.boot d) = .ok s) :
    (∀ k l, 0 < (s.icache k).ref → 0 < (s.icache l).ref → (s.icache k).inum = (s.icache l).inum → k = l) ∧
    ∀ k, 0 < (s.icache k).ref → (s.icache k).valid = true →
      (s.icache k).copy = loadInode sb s.disk (s.icache k).inum ∧ (s.icache k).copy.type ≠ 0 := by
  have hend := (h.run ops).1 s hrun
  exact ⟨hend.unique, hend.copies⟩

theorem inode_cache_written_through_file :
    ∃ s, [Op.ialloc T_FILE, .writei 0 ⟨[1], by decide⟩ 0].foldlM (step mkfsLayout ⟨fun _ => none, fun _ => none⟩)
        (State.boot (emptyDisk mkfsLayout)) = .ok s ∧
      (s.icache 0).copy = loadInode mkfsLayout s.disk (s.icache 0).inum := by
  have hends : ∃ s, [Op.ialloc T_FILE, .writei 0 ⟨[1], by decide⟩ 0].foldlM
    (step mkfsLayout ⟨fun _ => none, fun _ => none⟩)
      (State.boot (emptyDisk mkfsLayout)) = .ok s ∧ 0 < (s.icache 0).ref ∧
      (s.icache 0).valid = true := by decide +kernel
  obtain ⟨s, hrun, href, hvalid⟩ := hends
  exact ⟨s, hrun, ((inode_cache_written_through _ _ _ (emptyDisk_wellFormed _) _ s hrun).2 0 href hvalid).1⟩

end Laboratorio.Fs
