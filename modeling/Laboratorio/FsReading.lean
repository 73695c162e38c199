import Laboratorio.FsFiles

/-! Reading, and the inode blocks. Where every byte below the size has a block, `readi` returns the bytes of
the file and allocates nothing. A store into an inode block changes that inode alone, and neither such a
store nor one into the free map moves a block to another owner. -/

namespace Laboratorio.Fs

open Function

open Bytes

variable {sb : Layout} {d d' : Disk} {ino : Nat → Dinode} {i j o a : Nat}

/-! ### Reading -/

variable {ip : Dinode}

theorem bmap_mapped {bn : Nat} (hbn : bn < MAXFILE) (h : slotAddr d ip (blockSlot bn) ≠ 0) :
    bmap sb d ip bn = .ok (slotAddr d ip (blockSlot bn), d, ip) := by
  unfold bmap
  by_cases hd : bn < NDIRECT
  · rw [dif_pos hd]
    rw [direct_blockSlot hd] at h ⊢
    exact if_neg h
  have hn : bn - NDIRECT < NINDIRECT := by
    change bn < 140 at hbn
    change bn - 12 < 128
    omega
  rw [dif_neg hd, if_pos hn]
  rw [entry_blockSlot hd hn, slotAddr] at h ⊢
  split at h
  · exact absurd rfl h
  · rename_i htable
    have hensure : ensureAddr sb d ip tableIndex = .ok (ip.addr tableIndex, d, ip) := if_neg htable
    rw [hensure, if_neg htable, ok_bind]
    exact if_neg h

theorem readLoop_mapped {fuel off n : Nat} (hfuel : n ≤ fuel) (hi : i < sb.ninodes)
    (hlive : (ino i).type ≠ 0) (hm : ∀ o, off ≤ o → o < off + n → Mapped sb d ino i o) :
    readLoop sb fuel d (ino i) off n = .ok ((List.range n).map fun k => fileByte sb d ino i (off + k), d, ino i) := by
  induction fuel generalizing off n with
  | zero =>
    obtain rfl := Nat.le_zero.mp hfuel
    rfl
  | succ fuel ih =>
    rw [readLoop]
    by_cases hn : n = 0
    · rw [if_pos hn, hn]
      rfl
    have hpos := chunk_pos off hn
    have hle := chunk_le n off
    have hmin : min n (BSIZE - off % BSIZE) ≤ n := Nat.min_le_left _ _
    obtain ⟨hbn, haddr⟩ := hm off (Nat.le_refl _) (by omega)
    have hslot : addrOf sb d ino (spot i off) = slotAddr d (ino i) (blockSlot (off / BSIZE)) :=
      addrOf_eq hi hlive _
    rw [if_neg hn, bmap_mapped hbn (by rw [← hslot]; exact haddr), ok_bind]
    dsimp only
    generalize min n (BSIZE - off % BSIZE) = m at *
    have hrest : ∀ o, off + m ≤ o → o < off + m + (n - m) → Mapped sb d ino i o :=
      fun o hlo hhi => hm o (by omega) (by omega)
    rw [ih (by omega) hrest, ok_bind, pure_eq_ok]
    congr 2
    have hsplit : List.range n = List.range m ++ (List.range (n - m)).map (m + ·) := by
      rw [← List.range_add, Nat.add_sub_cancel' hmin]
    rw [hsplit, List.map_append, List.map_map]
    congr 1
    · apply List.map_congr_left
      intro k hk
      have hdiv := div_of_chunk hle (Nat.le_add_right off k) (Nat.add_lt_add_left (List.mem_range.mp hk) off)
      rw [fileByte, spot, hdiv, ← hslot]
      have hmod : (off + k) % BSIZE = off % BSIZE + k := by
        have hk' := List.mem_range.mp hk
        simp only [BSIZE] at hle hdiv ⊢
        omega
      rw [hmod]
      rfl
    · apply List.map_congr_left
      intro k _
      rw [Function.comp_apply, Nat.add_assoc]

theorem add_lt_iff (a b : UInt32) : a + b < a ↔ 2 ^ 32 ≤ a.toNat + b.toNat := by
  rw [UInt32.lt_iff_toNat_lt, UInt32.toNat_add]
  have := a.toNat_lt
  have := b.toNat_lt
  omega

/-- The bytes that a read of `n` bytes at `off` returns from a file of `size` bytes. -/
def readCount (size off n : Nat) : Nat := min n (size - off)

theorem lt_of_readCount {size off n o : Nat} (hlo : off ≤ o) (ho : o < off + readCount size off n) : o < size := by
  unfold readCount at ho
  omega

section

variable (dev : Devices) (hi : i < sb.ninodes) (hlive : (ino i).type ≠ 0)

include hi hlive

theorem readi_mapped (htype : (ino i).type ≠ T_DEV) (off n : UInt32)
    (hm : ∀ o, off.toNat ≤ o → o < off.toNat + readCount (ino i).size.toNat off.toNat n.toNat → Mapped sb d ino i o) :
    readi sb dev d (ino i) off n = .ok (if (ino i).size.toNat < off.toNat ∨ 2 ^ 32 ≤ off.toNat + n.toNat then (-1, [])
        else ((readCount (ino i).size.toNat off.toNat n.toNat : Nat),
          (List.range (readCount (ino i).size.toNat off.toNat n.toNat)).map fun k =>
            fileByte sb d ino i (off.toNat + k)), d, ino i) := by
  unfold readi
  rw [if_neg htype]
  simp only [gt_iff_lt, UInt32.lt_iff_toNat_lt (a := (ino i).size), add_lt_iff]
  by_cases hreject : (ino i).size.toNat < off.toNat ∨ 2 ^ 32 ≤ off.toNat + n.toNat
  · rw [if_pos hreject, if_pos hreject]
    rfl
  rw [if_neg hreject, if_neg hreject]
  rw [not_or, not_lt, not_le] at hreject
  obtain ⟨hoff, hwrap⟩ := hreject
  have hcount : (if (ino i).size.toNat < (off + n).toNat then (ino i).size - off else n).toNat =
      readCount (ino i).size.toNat off.toNat n.toNat := by
    rw [UInt32.toNat_add, Nat.mod_eq_of_lt hwrap, readCount]
    split
    · rw [UInt32.toNat_sub_of_le _ _ (UInt32.le_iff_toNat_le.mpr hoff)]
      omega
    · omega
  rw [hcount, readLoop_mapped (Nat.le_refl _) hi hlive hm, ok_bind]
  rfl

theorem readi_same (hfull : ∀ o < (ino i).size.toNat, Mapped sb d ino i o) (off n : UInt32) :
    ∃ r, readi sb dev d (ino i) off n = .ok (r, d, ino i) := by
  by_cases htype : (ino i).type = T_DEV
  · unfold readi
    rw [if_pos htype]
    split
    · exact ⟨_, rfl⟩
    · split
      · exact ⟨_, rfl⟩
      · exact ⟨_, rfl⟩
  · exact ⟨_, readi_mapped dev hi hlive htype off n fun o hlo ho => hfull o (lt_of_readCount hlo ho)⟩

end

/-! ### The inode blocks -/

theorem ne_of_iblock_eq {sb : Superblock} (h : sb.iblock i = sb.iblock j) (hne : i ≠ j) :
    i % IPB ≠ j % IPB := by
  change i / 8 + _ = j / 8 + _ at h
  change i % 8 ≠ j % 8
  omega

theorem loadInode_low (h : ∀ a < sb.bmapstart, d' a = d a) (hi : i < sb.ninodes) :
    loadInode sb d' i = loadInode sb d i := by
  rw [loadInode, h _ (sb.iblock_lt hi)]
  rfl

theorem loadInode_put {blk : Block} (hself : readDinode blk (i % IPB) = ip)
    (hother : ∀ k, k ≠ i % IPB → readDinode blk k = readDinode (d (sb.iblock i)) k) (j : Nat) :
    loadInode sb (putBlock d (sb.iblock i) blk) j = if j = i then ip else loadInode sb d j := by
  unfold loadInode putBlock
  by_cases hj : j = i
  · rw [hj, update_self, if_pos rfl, hself]
  · rw [if_neg hj]
    by_cases hblock : sb.iblock j = sb.iblock i
    · rw [hblock, update_self, hother _ (ne_of_iblock_eq hblock hj)]
    · rw [update_of_ne hblock]

theorem loadInode_iupdate (d : Disk) (i : Nat) (ip : Dinode) (j : Nat) :
    loadInode sb (iupdate sb d i ip) j = if j = i then ip else loadInode sb d j :=
  loadInode_put (readDinode_writeDinode _ (Nat.mod_lt i (by decide)) ip)
    (fun _ hk => readDinode_writeDinode_of_ne _ hk ip) j

theorem addrOf_congr_data {used : Nat → Bool} (h : Exact (addrOf sb d ino) sb.datastart sb.size used)
    (hdata : ∀ a, sb.datastart ≤ a → d' a = d a) : addrOf sb d' ino = addrOf sb d ino := by
  apply addrOf_congr_disk
  intro l hl hlive hne
  have htab : addrOf sb d ino (l, .table) = (ino l).addr tableIndex := addrOf_eq hl hlive .table
  have hrange := (h.range (l, .table) (by rw [htab]; exact hne)).1
  rw [htab] at hrange
  exact hdata _ hrange

theorem fileByte_congr_data (h : Owned sb d ino) (hdata : ∀ a, sb.datastart ≤ a → d' a = d a)
    (hm : Mapped sb d ino j o) : Mapped sb d' ino j o ∧ fileByte sb d' ino j o = fileByte sb d ino j o := by
  have haddr := addrOf_congr_data h hdata
  refine ⟨⟨hm.1, by rw [haddr]; exact hm.2⟩, ?_⟩
  rw [fileByte, haddr, hdata _ (h.range _ hm.2).1]
  rfl

theorem putLow_data (ha : a < sb.bmapstart) (blk : Block) :
    ∀ c, sb.datastart ≤ c → putBlock d a blk c = d c := by
  intro c hc
  have hlt := sb.bmapstart_lt_datastart
  exact update_of_ne (by omega) _ _

theorem Owned.putLow (h : Owned sb d ino) (ha : a < sb.bmapstart) (blk : Block) :
    Owned sb (putBlock d a blk) ino := by
  unfold Owned
  rw [addrOf_congr_data h (putLow_data ha blk)]
  apply Exact.congr_used h
  intro c _
  have hblock := sb.bmapstart_le_bblock c
  exact bitAt_putBlock_of_ne _ (by omega)

theorem addrOf_congr_ino {ino' : Nat → Dinode} (h : ∀ l < sb.ninodes, ino' l = ino l) :
    addrOf sb d ino' = addrOf sb d ino := by
  funext p
  unfold addrOf
  by_cases hp : p.1 < sb.ninodes
  · rw [h p.1 hp]
  · rw [if_neg (fun hc => hp hc.1), if_neg (fun hc => hp hc.1)]

theorem addrOf_within_congr {ip' : Dinode} (htype : ip'.type = ip.type) (haddrs : ip'.addrs = ip.addrs) :
    addrOf sb d (within ino i ip') = addrOf sb d (within ino i ip) := by
  have haddr : ∀ k, ip'.addr k = ip.addr k := fun k => by rw [Dinode.addr, haddrs, Dinode.addr]
  have hslot : ∀ s, slotAddr d ip' s = slotAddr d ip s := by
    intro s
    cases s with
    | direct k => exact haddr k.castSucc
    | table => exact haddr tableIndex
    | entry j => rw [slotAddr, slotAddr, haddr]
  funext p
  by_cases hp : p.1 = i
  · simp only [addrOf, within, hp, update_self, htype, hslot]
  · rw [addrOf_within_of_ne _ hp, addrOf_within_of_ne _ hp]

theorem Owned.within_congr {ip' : Dinode} (h : Owned sb d (within ino i ip)) (htype : ip'.type = ip.type)
    (haddrs : ip'.addrs = ip.addrs) : Owned sb d (within ino i ip') := by
  unfold Owned
  rw [addrOf_within_congr htype haddrs]
  exact h

end Laboratorio.Fs
