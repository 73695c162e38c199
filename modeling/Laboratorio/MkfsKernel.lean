import Laboratorio.FsArrays
import Laboratorio.MkfsImage

/-! `mkfs` writes as the kernel does. With the bits of the blocks handed out so far in place of the free
map, the image is a disk on which the kernel's `bmap` allocates the block that `mkfs` takes next, and
`iappend` ends as the kernel's `writei` at the end of the file does. -/

namespace Laboratorio.Mkfs

open Function

open Fs Bytes

theorem sb_eq : sb = mkfsLayout.toSuperblock := rfl

def Image.disk (s : Image) : Disk := putBlock s.block sb.bmapstart (marks s.freeblock)

/-- The superblock is in its place, the blocks handed out are the first ones, and the others have never been
written. -/
structure Orderly (s : Image) : Prop where
  super : s.block 1 = superBlock
  len : s.len = FSSIZE
  lo : nmeta ≤ s.freeblock
  hi : s.freeblock ≤ FSSIZE
  fresh : ∀ a, s.freeblock ≤ a → a < FSSIZE → s.block a = zeroBlock

variable {s : Image} {ino : Nat → Dinode} {i : Nat}

/-! ### The free map -/

theorem marks_succ (used : Nat) : marks (used + 1) = setBit (marks used) used := by
  rw [marks, List.range_succ, List.foldl_append]
  rfl

theorem bit_marks {used j : Nat} (hj : j < BPB) : bit (marks used) j = decide (j < used) := by
  induction used with
  | zero => exact bit_zeroBlock j
  | succ used ih =>
    rw [marks_succ, bit_setBit _ hj, ih]
    by_cases heq : used = j
    · rw [decide_eq_true heq, Bool.true_or, decide_eq_true (by omega)]
    · rw [decide_eq_false heq, Bool.false_or]
      exact decide_eq_decide.mpr (by omega)

theorem disk_bitmap (s : Image) : s.disk sb.bmapstart = marks s.freeblock := by
  rw [Image.disk, putBlock, update_self]

theorem disk_of_ne (s : Image) {a : Nat} (ha : a ≠ sb.bmapstart) : s.disk a = s.block a :=
  update_of_ne ha _ _

theorem bblock_eq_bitmap {b : Nat} (hb : b < FSSIZE) : mkfsLayout.bblock b = sb.bmapstart := by
  change b / 4096 + 58 = 58
  simp only [FSSIZE] at hb
  omega

theorem mod_bits {b : Nat} (hb : b < FSSIZE) : b % BPB = b := Nat.mod_eq_of_lt (Nat.lt_trans hb (by decide))

theorem bitAt_disk (s : Image) {b : Nat} (hb : b < FSSIZE) :
    bitAt mkfsLayout s.disk b = decide (b < s.freeblock) := by
  rw [bitAt, bblock_eq_bitmap hb, disk_bitmap, mod_bits hb, bit_marks (Nat.lt_trans hb (by decide))]

theorem freeBlock_disk (s : Image) :
    freeBlock mkfsLayout s.disk = if s.freeblock < FSSIZE then some s.freeblock else none := by
  cases hscan : freeBlock mkfsLayout.toSuperblock s.disk with
  | none =>
    rw [if_neg]
    intro hlt
    have hbit := freeBlock_none hscan hlt
    rw [bitAt_disk s hlt, decide_eq_false (lt_irrefl _)] at hbit
    cases hbit
  | some b =>
    obtain ⟨hsize, hclear⟩ := freeBlock_some hscan
    have hlt : b < FSSIZE := hsize
    rw [bitAt_disk s hlt, decide_eq_false_iff_not, not_lt] at hclear
    rcases hclear.lt_or_eq with hbefore | heq
    · have hset := freeBlock_first hscan hbefore
      rw [bitAt_disk s (hbefore.trans hlt), decide_eq_true_eq] at hset
      exact absurd hset (lt_irrefl _)
    · rw [heq, if_pos hlt]

theorem disk_wsect {t : Nat} (ht : t ≠ sb.bmapstart) (buf : Block) :
    (wsect s t buf).disk = putBlock s.disk t buf := update_comm ht _ _ _

theorem Orderly.wsect (h : Orderly s) {t : Nat} (hone : t ≠ 1) (ht : t < s.freeblock) (buf : Block) :
    Orderly (wsect s t buf) := by
  have hhi := h.hi
  refine ⟨?_, ?_, h.lo, h.hi, fun a ha hlt => ?_⟩
  · exact (update_of_ne (Ne.symm hone) _ _).trans h.super
  · change max s.len (t + 1) = FSSIZE
    rw [h.len]
    omega
  · have hne : a ≠ t := by
      change s.freeblock ≤ a at ha
      omega
    exact (update_of_ne hne _ _).trans (h.fresh a ha hlt)

theorem Orderly.bump (h : Orderly s) (hlt : s.freeblock < FSSIZE) : Orderly s.bump :=
  ⟨h.super, h.len, Nat.le_succ_of_le h.lo, hlt, fun a ha => h.fresh a (Nat.le_of_succ_le ha)⟩

def Handed (s : Image) (x : Nat) : Prop := nmeta ≤ x ∧ x < s.freeblock

variable {x : Nat}

theorem Handed.ne_bitmap (h : Handed s x) : x ≠ sb.bmapstart := by
  have hlo := h.1
  change 59 ≤ x at hlo
  change x ≠ 58
  omega

theorem Handed.ne_super (h : Handed s x) : x ≠ 1 := by
  have hlo := h.1
  change 59 ≤ x at hlo
  omega

theorem handed_bump (h : Orderly s) : Handed s.bump s.freeblock := ⟨h.lo, Nat.lt_succ_self _⟩

theorem balloc_disk (h : Orderly s) : Fs.balloc mkfsLayout s.disk =
    if s.freeblock < FSSIZE then .ok (s.freeblock, s.bump.disk) else .error (.panic .outOfBlocks) := by
  rw [Fs.balloc, freeBlock_disk]
  by_cases hlt : s.freeblock < FSSIZE
  · rw [if_pos hlt, if_pos hlt]
    have hne := (handed_bump h).ne_bitmap
    have hbump : bzero (markBlock mkfsLayout s.disk s.freeblock) s.freeblock = s.bump.disk := by
      funext a
      rw [bzero, markBlock, bblock_eq_bitmap hlt, mod_bits hlt, disk_bitmap]
      by_cases ha : a = s.freeblock
      · rw [ha, putBlock, update_self, disk_of_ne _ hne]
        exact (h.fresh _ (le_refl _) hlt).symm
      · rw [putBlock, update_of_ne ha]
        by_cases hbit : a = sb.bmapstart
        · rw [hbit, putBlock, update_self, disk_bitmap]
          exact (marks_succ s.freeblock).symm
        · rw [putBlock, update_of_ne hbit, disk_of_ne _ hbit, disk_of_ne _ hbit]
          rfl
    exact congrArg (fun d => Except.ok (s.freeblock, d)) hbump
  · rw [if_neg hlt, if_neg hlt]

/-! ### `fetch` and `bmap` -/

theorem handed_of_owned (howned : Owned mkfsLayout s.disk ino) {p : Nat × Slot}
    (hp : addrOf mkfsLayout s.disk ino p ≠ 0) : Handed s (addrOf mkfsLayout s.disk ino p) := by
  obtain ⟨hge, hlt⟩ := howned.range p hp
  have hused := howned.used_addr hp
  rw [bitAt_disk s hlt, decide_eq_true_eq] at hused
  exact ⟨hge, hused⟩

/-- `mkfs` with a block, what is in it, the image and the inode, and the kernel after `bmap`. -/
structure Reached (f : Nat × Block × Image × Dinode) (r : Nat × Disk × Dinode) : Prop where
  result : r = (f.1, f.2.2.1.disk, f.2.2.2)
  orderly : Orderly f.2.2.1
  handed : Handed f.2.2.1 f.1
  buf : f.2.1 = f.2.2.1.disk f.1

theorem rsect_handed (h : Orderly s) (hx : Handed s x) : rsect s x = .ok (s.disk x) := by
  have hhi := h.hi
  have hlt := hx.2
  rw [rsect, h.len, if_pos (by omega), disk_of_ne s hx.ne_bitmap]

theorem rsect_past (hx : ¬x < s.len) : rsect s x = .error .read := if_neg hx

theorem fetchAddr_alike (h : Orderly s) {din : Dinode} {k : Fin (NDIRECT + 1)}
    (hold : din.addr k ≠ 0 → Handed s (din.addr k)) : Alike Reached (fetchAddr s din k)
    (Fs.ensureAddr mkfsLayout s.disk din k) := by
  unfold fetchAddr Fs.ensureAddr
  by_cases hnew : din.addr k = 0
  · rw [if_pos hnew, if_pos hnew, balloc_disk h]
    dsimp only
    by_cases hlt : s.freeblock < FSSIZE
    · rw [if_pos hlt, rsect_handed (h.bump hlt) (handed_bump h), ok_bind, ok_bind]
      exact .ok ⟨rfl, h.bump hlt, handed_bump h, rfl⟩
    · have hpast : ¬s.freeblock < s.bump.len := by
        rw [show s.bump.len = FSSIZE from h.len]
        exact hlt
      rw [if_neg hlt, rsect_past hpast]
      exact .stop
  · have hhanded := hold hnew
    rw [if_neg hnew, if_neg hnew]
    dsimp only
    rw [rsect_handed h hhanded, ok_bind]
    exact .ok ⟨rfl, h, hhanded, rfl⟩

theorem addr_handed (howned : Owned mkfsLayout s.disk ino) (hi : i < NINODES)
    (hlive : (ino i).type ≠ 0) {k : Fin (NDIRECT + 1)} (hne : (ino i).addr k ≠ 0) :
    Handed s ((ino i).addr k) := by
  have haddr : addrOf mkfsLayout s.disk ino (i, indexSlot k) = (ino i).addr k := by
    rw [addrOf_eq hi hlive, slotAddr_indexSlot]
  rw [← haddr]
  exact handed_of_owned howned (by rwa [haddr])

theorem fetchEntry_alike (h : Orderly s) {din : Dinode} {t j : Nat} (ht : Handed s t)
    (hold : entryAt (s.disk t) j ≠ 0 → Handed s (entryAt (s.disk t) j)) :
    Alike Reached (fetchEntry s din t (s.disk t) j) (if entryAt (s.disk t) j = 0 then
        Fs.balloc mkfsLayout s.disk >>= fun r => pure (r.1, putBlock r.2 t (setEntry (r.2 t) j r.1), din)
      else pure (entryAt (s.disk t) j, s.disk, din)) := by
  unfold fetchEntry
  generalize hx : entryAt (s.disk t) j = x at *
  by_cases hnew : x = 0
  · rw [if_pos hnew, if_pos hnew, balloc_disk h]
    dsimp only
    by_cases hlt : s.freeblock < FSSIZE
    · have hbump := handed_bump h
      have hwritten := (h.bump hlt).wsect ht.ne_super (Nat.lt_succ_of_lt ht.2) (setEntry (s.disk t) j s.freeblock)
      have hhanded : Handed (wsect s.bump t (setEntry (s.disk t) j s.freeblock)) s.freeblock := hbump
      have hsame : s.bump.disk t = s.disk t := by
        rw [disk_of_ne _ ht.ne_bitmap, disk_of_ne _ ht.ne_bitmap]
        rfl
      rw [if_pos hlt, ok_bind, rsect_handed hwritten hhanded, ok_bind]
      refine .ok ⟨?_, hwritten, hhanded, rfl⟩
      dsimp only
      rw [disk_wsect ht.ne_bitmap, hsame]
    · have hpast : ¬s.freeblock < (wsect s.bump t (setEntry (s.disk t) j s.freeblock)).len := by
        have hlt' := ht.2
        have hhi := h.hi
        change ¬s.freeblock < max s.len (t + 1)
        rw [h.len]
        omega
      rw [if_neg hlt, rsect_past hpast]
      exact .stop
  · have hhanded := hold hnew
    rw [if_neg hnew, if_neg hnew]
    dsimp only
    rw [rsect_handed h hhanded, ok_bind]
    exact .ok ⟨rfl, h, hhanded, rfl⟩

theorem fetch_alike (h : Orderly s) (howned : Owned mkfsLayout s.disk ino) (hi : i < NINODES)
    (hlive : (ino i).type ≠ 0) {bn : Nat} (hbn : bn < MAXFILE) :
    Alike Reached (fetch s (ino i) bn) (bmap mkfsLayout s.disk (ino i) bn) := by
  have haddr : ∀ k, Alike Reached (fetchAddr s (ino i) k) (Fs.ensureAddr mkfsLayout s.disk (ino i) k) :=
    fun k => fetchAddr_alike h fun hne => addr_handed howned hi hlive hne
  unfold fetch bmap
  by_cases hd : bn < NDIRECT
  · rw [dif_pos hd, dif_pos hd]
    exact haddr _
  have hn : bn - NDIRECT < NINDIRECT := by
    change bn < 140 at hbn
    change bn - 12 < 128
    omega
  rw [dif_neg hd, dif_neg hd, if_pos hn]
  refine (haddr tableIndex).bind ?_
  rintro ⟨t, indirect, s₁, din⟩ r hensure ⟨rfl, hord, hhanded, hbuf⟩
  dsimp only at hensure hord hhanded hbuf ⊢
  have hspec := ensureAddr_spec howned hi hlive hensure
  have hlive₁ : din.type ≠ 0 := by
    rw [Dinode.type_of_fields hspec.2.1]
    exact hlive
  rw [hbuf]
  refine fetchEntry_alike hord hhanded fun hentry => ?_
  have hself : addrOf mkfsLayout s₁.disk (within ino i din) (i, .entry ⟨bn - NDIRECT, hn⟩) =
      entryAt (s₁.disk t) (bn - NDIRECT) := by
    rw [addrOf_within_self hi hlive₁, slotAddr, hspec.2.2.1, if_neg hspec.2.2.2.1]
  rw [← hself] at hentry ⊢
  exact handed_of_owned hspec.1.owned hentry

/-! ### `iappend` and `writei` -/

theorem appendLoop_alike {fuel off : Nat} {p : List UInt8} (hfuel : p.length ≤ fuel) (h : Orderly s)
    (howned : Owned mkfsLayout s.disk ino) (hi : i < NINODES) (hlive : (ino i).type ≠ 0) :
    Alike (fun a b => b = (a.1.disk, a.2.1) ∧ Orderly a.1 ∧ a.2.2 = off + p.length)
      (appendLoop fuel s (ino i) off p) (writeLoop mkfsLayout fuel s.disk (ino i) off p) := by
  induction fuel generalizing s ino off p with
  | zero =>
    have hnil : p.length = 0 := Nat.le_zero.mp hfuel
    exact .ok ⟨rfl, h, by rw [hnil]; rfl⟩
  | succ fuel ih =>
    rw [appendLoop, writeLoop]
    by_cases hnil : p = []
    · rw [if_pos hnil, if_pos hnil]
      exact .ok ⟨rfl, h, by rw [hnil]; rfl⟩
    rw [if_neg hnil, if_neg hnil]
    by_cases hbn : off / BSIZE < MAXFILE
    · rw [if_pos hbn]
      refine (fetch_alike h howned hi hlive hbn).bind ?_
      rintro ⟨x, buf, s₁, din⟩ r hbmap ⟨rfl, hord, hhanded, hbuf⟩
      dsimp only at hbmap hord hhanded hbuf ⊢
      have hoff : off - off / BSIZE * BSIZE = off % BSIZE := by
        simp only [BSIZE]
        omega
      have hroom : (off / BSIZE + 1) * BSIZE - off = BSIZE - off % BSIZE := by
        simp only [BSIZE]
        omega
      have hlen : p.length ≠ 0 := fun hzero => hnil (List.length_eq_zero_iff.mp hzero)
      have hpos := chunk_pos off hlen
      have hle : min p.length (BSIZE - off % BSIZE) ≤ p.length := Nat.min_le_left _ _
      obtain ⟨hchunk, hfields⟩ := chunk_writes howned hi hlive hbmap (chunk_le p.length off)
        (fun o => p.getD (o - off) 0)
      simp only [Nat.add_sub_cancel_left] at hchunk
      rw [hbuf, hoff, hroom]
      generalize min p.length (BSIZE - off % BSIZE) = m at *
      have hself : within ino i din i = din := update_self _ _ _
      have hlive₁ : (within ino i din i).type ≠ 0 := by
        rw [hself, Dinode.type_of_fields hfields]
        exact hlive
      rw [← disk_wsect hhanded.ne_bitmap] at hchunk ⊢
      have hrest := @ih _ _ (off + m) (p.drop m) (by rw [List.length_drop]; omega)
        (hord.wsect hhanded.ne_super hhanded.2 _) hchunk.owned hlive₁
      have hend : off + m + (p.drop m).length = off + p.length := by
        rw [List.length_drop]
        omega
      rw [hself, hend] at hrest
      exact hrest
    · rw [if_neg hbn]
      have hrange : bmap mkfsLayout s.disk (ino i) (off / BSIZE) = .error (.panic .outOfRange) := by
        unfold bmap
        have hd : ¬off / BSIZE < NDIRECT := fun hd => hbn (Nat.lt_add_right _ hd)
        have hn : ¬off / BSIZE - NDIRECT < NINDIRECT := by
          change ¬_ < 12 + 128 at hbn
          change ¬_ - 12 < 128
          omega
        rw [dif_neg hd, if_neg hn]
        rfl
      rw [hrange]
      exact .stop

/-! ### Inodes -/

theorem iblock_bounds (hi : i < NINODES) :
    sb.iblock i < FSSIZE ∧ sb.iblock i ≠ sb.bmapstart ∧ sb.iblock i < nmeta ∧ sb.iblock i ≠ 1 := by
  change i / 8 + 32 < 1000 ∧ i / 8 + 32 ≠ 58 ∧ i / 8 + 32 < 59 ∧ i / 8 + 32 ≠ 1
  simp only [NINODES] at hi
  omega

theorem rinode_eq (h : Orderly s) (hi : i < NINODES) : rinode s i = .ok (loadInode mkfsLayout s.disk i) := by
  obtain ⟨hlt, hne, -⟩ := iblock_bounds hi
  have hload : loadInode mkfsLayout s.disk i = readDinode (s.disk (sb.iblock i)) (i % IPB) := rfl
  rw [rinode, rsect, h.len, if_pos hlt, hload, disk_of_ne s hne]
  rfl

theorem winode_eq (h : Orderly s) (hi : i < NINODES) (ip : Dinode) :
    ∃ s', winode s i ip = .ok s' ∧ Orderly s' ∧ s'.disk = iupdate mkfsLayout s.disk i ip := by
  obtain ⟨hlt, hne, hmeta, hone⟩ := iblock_bounds hi
  have hlo := h.lo
  refine ⟨wsect s (sb.iblock i) (writeDinode (s.disk (sb.iblock i)) (i % IPB) ip), ?_, h.wsect hone (by omega) _, ?_⟩
  · rw [winode, rsect, h.len, if_pos hlt, disk_of_ne s hne]
    rfl
  · rw [disk_wsect hne]
    rfl

def Snug (ip : Dinode) : Prop := ∀ k : Fin NDIRECT, ip.size.toNat ≤ BSIZE * k → ip.addr k.castSucc = 0

theorem bmap_addr_other {d d' : Disk} {ip ip' : Dinode} {bn a : Nat} {k : Fin NDIRECT} (hk : k.val ≠ bn)
    (hrun : bmap mkfsLayout d ip bn = .ok (a, d', ip')) : ip'.addr k.castSucc = ip.addr k.castSucc := by
  have hensure : ∀ {k' : Fin (NDIRECT + 1)} {a d' ip'}, k.castSucc ≠ k' →
      Fs.ensureAddr mkfsLayout d ip k' = .ok (a, d', ip') → ip'.addr k.castSucc = ip.addr k.castSucc := by
    intro k' a d' ip' hne hrun
    unfold Fs.ensureAddr at hrun
    split at hrun
    · obtain ⟨⟨b, d₁⟩, -, hrun⟩ := bind_eq_ok hrun
      cases hrun
      change (update ip.addrs k' (UInt32.ofNat a) k.castSucc).toNat = _
      rw [update_of_ne hne]
      rfl
    · cases hrun
      rfl
  unfold bmap at hrun
  split at hrun
  · rename_i hd
    have hne : k.castSucc ≠ ⟨bn, Nat.lt_succ_of_lt hd⟩ := Fin.ne_of_val_ne hk
    exact hensure hne hrun
  split at hrun
  · obtain ⟨⟨t, d₁, ip₁⟩, htable, hrun⟩ := bind_eq_ok hrun
    have hsame := hensure (castSucc_ne_table k) htable
    dsimp only at hrun
    split at hrun
    · obtain ⟨⟨b, d₂⟩, -, hrun⟩ := bind_eq_ok hrun
      cases hrun
      exact hsame
    · cases hrun
      exact hsame
  · cases hrun

theorem writeLoop_addr_past {fuel off : Nat} {d d' : Disk} {ip ip' : Dinode} {src : List UInt8} {k : Fin NDIRECT}
    (hk : off + src.length ≤ BSIZE * k) (hrun : writeLoop mkfsLayout fuel d ip off src = .ok (d', ip')) :
    ip'.addr k.castSucc = ip.addr k.castSucc := by
  induction fuel generalizing d ip off src with
  | zero =>
    cases hrun
    rfl
  | succ fuel ih =>
    rw [writeLoop] at hrun
    split at hrun
    · cases hrun
      rfl
    rename_i hnil
    obtain ⟨⟨a, d₁, ip₁⟩, hbmap, hrun⟩ := bind_eq_ok hrun
    have hlen : src.length ≠ 0 := fun hzero => hnil (List.length_eq_zero_iff.mp hzero)
    have hle : min src.length (BSIZE - off % BSIZE) ≤ src.length := Nat.min_le_left _ _
    generalize min src.length (BSIZE - off % BSIZE) = m at *
    have hother : k.val ≠ off / BSIZE := by
      simp only [BSIZE] at hk ⊢
      omega
    have hrest : off + m + (src.drop m).length ≤ BSIZE * k := by
      rw [List.length_drop]
      omega
    rw [ih hrest hrun, bmap_addr_other hother hbmap]

/-! ### What `iappend` does -/

theorem size_le_of_full {d : Disk} (h : WellFormed mkfsLayout d) (hi : i < NINODES)
    (hlive : (loadInode mkfsLayout d i).type ≠ 0) : (loadInode mkfsLayout d i).size.toNat ≤ MAXFILE * BSIZE := by
  by_contra hbig
  obtain ⟨hbn, -⟩ := h.full i hi hlive (MAXFILE * BSIZE) (by omega)
  exact absurd hbn (by decide)

theorem iappend_spec {s' : Image} {p : List UInt8} (h : Orderly s) (hwf : WellFormed mkfsLayout s.disk)
    (hi : i < NINODES) (hlive : (loadInode mkfsLayout s.disk i).type ≠ 0) (hrun : iappend s i p = .ok s') :
    Orderly s' ∧ ∃ ip, Overwrites mkfsLayout s.disk s'.disk i ip (loadInode mkfsLayout s.disk i).size.toNat p ∧
      (Snug (loadInode mkfsLayout s.disk i) → Snug ip) := by
  unfold iappend at hrun
  rw [rinode_eq h hi, ok_bind] at hrun
  obtain ⟨⟨s₁, din, off⟩, hloop, hrun⟩ := bind_eq_ok hrun
  obtain ⟨⟨d₁, ip₁⟩, hkernel, heq, hord, hoff⟩ := (appendLoop_alike (le_refl _) h hwf.owned hi hlive).of_ok hloop
  cases heq
  dsimp only at hord hoff hrun
  obtain ⟨s₂, hput, hord₂, hdisk⟩ := winode_eq hord hi { din with size := UInt32.ofNat off }
  rw [hput] at hrun
  cases hrun
  obtain ⟨hw, hfields⟩ := writeLoop_writes (le_refl _) hwf.owned hi hlive hkernel
  have hsize := size_le_of_full hwf hi hlive
  have hbound : off < 2 ^ 32 := by
    by_cases hp : p.length = 0
    · simp only [MAXFILE, NDIRECT, NINDIRECT, BSIZE] at hsize
      omega
    · obtain ⟨⟨hbn, -⟩, -⟩ := hw.mapped (off - 1) (by omega) (by omega)
      simp only [MAXFILE, NDIRECT, NINDIRECT, BSIZE] at hbn
      omega
  have htoNat : (UInt32.ofNat off).toNat = off := UInt32.toNat_ofNat_of_lt' hbound
  refine ⟨hord₂, { din with size := UInt32.ofNat off }, ?_, ?_⟩
  · refine hw.overwrites hwf hi hlive (le_refl _) hfields rfl ?_ ?_ ?_ ?_
    · dsimp only
      rw [htoNat, hoff]
      omega
    · rw [hdisk]
      exact (hw.owned.within_congr (by rfl) (by rfl)).putLow (mkfsLayout.iblock_lt hi) _
    · rw [hdisk]
      exact putLow_data (mkfsLayout.iblock_lt hi) _
    · intro j hj
      rw [hdisk, loadInode_iupdate, loadInode_low hw.low hj]
  · intro hsnug k hk
    rw [htoNat] at hk
    have hsame : din.addr k.castSucc = (loadInode mkfsLayout s.disk i).addr k.castSucc :=
      writeLoop_addr_past (by rwa [← hoff]) hkernel
    change din.addr k.castSucc = 0
    rw [hsame]
    exact hsnug k (by omega)

theorem iappend_total {p : List UInt8} (h : Orderly s) (hwf : WellFormed mkfsLayout s.disk) (hi : i < NINODES)
    (hlive : (loadInode mkfsLayout s.disk i).type ≠ 0)
    (hfit : (loadInode mkfsLayout s.disk i).size.toNat + p.length ≤ MAXFILE * BSIZE)
    (hfree : blocksFor ((loadInode mkfsLayout s.disk i).size.toNat + p.length) ≤
      freeBlocks mkfsLayout s.disk + blocksFor (loadInode mkfsLayout s.disk i).size.toNat) :
    ∃ s', iappend s i p = .ok s' ∧ freeBlocks mkfsLayout s.disk + blocksFor (loadInode mkfsLayout s.disk i).size.toNat ≤
        freeBlocks mkfsLayout s'.disk + blocksFor ((loadInode mkfsLayout s.disk i).size.toNat + p.length) := by
  have hmax : max (loadInode mkfsLayout s.disk i).size.toNat
      ((loadInode mkfsLayout s.disk i).size.toNat + p.length) =
      (loadInode mkfsLayout s.disk i).size.toNat + p.length := by omega
  obtain ⟨d₁, ip₁, hkernel, hcount⟩ := writeLoop_total (le_refl p.length) hwf.owned hi hlive
    (fun o ho => hwf.full i hi hlive o ho) hfit (by rwa [hmax])
  obtain ⟨⟨s₁, din, off⟩, hloop, heq, hord, hoff⟩ :=
    (appendLoop_alike (le_refl _) h hwf.owned hi hlive).of_ok_right hkernel
  cases heq
  obtain ⟨s₂, hput, hord₂, hdisk⟩ := winode_eq hord hi { din with size := UInt32.ofNat off }
  refine ⟨s₂, ?_, ?_⟩
  · rw [iappend, rinode_eq h hi, ok_bind, hloop, ok_bind]
    exact hput
  · rw [hdisk, iupdate, freeBlocks_put (Or.inl (mkfsLayout.iblock_lt hi))]
    rwa [hmax] at hcount

end Laboratorio.Mkfs
