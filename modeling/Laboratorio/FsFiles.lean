import Laboratorio.FsOwner

/-! The bytes of a file through its positions, and what the loop of `writei` does to them. Byte `o` of
inode `j` lies in the block that the slot of block `o / BSIZE` owns. -/

namespace Laboratorio.Fs

open Function

open Bytes

variable {sb : Layout} {d d' d'' : Disk} {ino ino' ino'' : Nat → Dinode} {i j o a : Nat}

/-- The position of the block with byte `o` of inode `j`. -/
def spot (j o : Nat) : Nat × Slot := (j, blockSlot (o / BSIZE))

/-- Byte `o` of inode `j` has a block. -/
def Mapped (sb : Superblock) (d : Disk) (ino : Nat → Dinode) (j o : Nat) : Prop :=
  o / BSIZE < MAXFILE ∧ addrOf sb d ino (spot j o) ≠ 0

def fileByte (sb : Superblock) (d : Disk) (ino : Nat → Dinode) (j o : Nat) : UInt8 :=
  byte (d (addrOf sb d ino (spot j o))) (o % BSIZE)

theorem blockSlot_ne_table (bn : Nat) : blockSlot bn ≠ .table := by
  unfold blockSlot
  split <;> exact Slot.noConfusion

theorem blockSlot_inj {bn bm : Nat} (hn : bn < MAXFILE) (hm : bm < MAXFILE) (h : blockSlot bn = blockSlot bm) :
    bn = bm := by
  change bn < 140 at hn
  change bm < 140 at hm
  unfold blockSlot at h
  split at h <;> split at h
  · exact Fin.mk.inj (Slot.direct.inj h)
  · cases h
  · cases h
  · rename_i hn' hm'
    have hmod := Fin.mk.inj (Slot.entry.inj h)
    change ¬bn < 12 at hn'
    change ¬bm < 12 at hm'
    change (bn - 12) % 128 = (bm - 12) % 128 at hmod
    omega

/-- Bytes `lo` to `hi` of inode `i` become those of `f`, on blocks allocated where there were none;
everything else stays. -/
structure Writes (sb : Superblock) (d : Disk) (ino : Nat → Dinode) (d' : Disk) (ino' : Nat → Dinode)
    (i lo hi : Nat) (f : Nat → UInt8) : Prop where
  owned : Owned sb d' ino'
  kept : ∀ p, addrOf sb d ino p ≠ 0 → addrOf sb d' ino' p = addrOf sb d ino p
  low : ∀ a < sb.bmapstart, d' a = d a
  bytes : ∀ j o, Mapped sb d ino j o →
    fileByte sb d' ino' j o = if j = i ∧ lo ≤ o ∧ o < hi then f o else fileByte sb d ino j o
  mapped : ∀ o, lo ≤ o → o < hi → Mapped sb d' ino' i o ∧ fileByte sb d' ino' i o = f o

theorem Writes.keeps_mapped {lo hi : Nat} {f : Nat → UInt8} (h : Writes sb d ino d' ino' i lo hi f)
    (hm : Mapped sb d ino j o) : Mapped sb d' ino' j o :=
  ⟨hm.1, by rw [h.kept _ hm.2]; exact hm.2⟩

theorem Writes.refl (h : Owned sb d ino) (i lo : Nat) (f : Nat → UInt8) :
    Writes sb d ino d ino i lo lo f := by
  refine ⟨h, fun _ _ => rfl, fun _ _ => rfl, fun j o _ => ?_, fun o hlo hhi => by omega⟩
  rw [if_neg (by omega)]

theorem Writes.trans {lo mid hi : Nat} {f : Nat → UInt8} (hle : lo ≤ mid) (hle' : mid ≤ hi)
    (h : Writes sb d ino d' ino' i lo mid f) (h' : Writes sb d' ino' d'' ino'' i mid hi f) :
    Writes sb d ino d'' ino'' i lo hi f := by
  refine ⟨h'.owned, ?_, ?_, ?_, ?_⟩
  · intro p hp
    have hkept := h.kept p hp
    rw [h'.kept p (by rwa [hkept]), hkept]
  · intro a ha
    rw [h'.low a ha, h.low a ha]
  · intro j o hm
    rw [h'.bytes j o (h.keeps_mapped hm), h.bytes j o hm]
    by_cases hj : j = i
    · simp only [hj, true_and]
      by_cases hmid : mid ≤ o ∧ o < hi
      · rw [if_pos hmid, if_pos (by omega)]
      · rw [if_neg hmid]
        by_cases hlo : lo ≤ o ∧ o < mid
        · rw [if_pos hlo, if_pos (by omega)]
        · rw [if_neg hlo, if_neg (by omega)]
    · simp only [hj, false_and, if_false]
  · intro o hlo hhi
    by_cases hmid : mid ≤ o
    · exact h'.mapped o hmid hhi
    · obtain ⟨hm, hbyte⟩ := h.mapped o hlo (by omega)
      refine ⟨h'.keeps_mapped hm, ?_⟩
      rw [h'.bytes i o hm, if_neg (by omega), hbyte]

theorem Extends.fileByte (h : Extends sb d ino d' ino') (hm : Mapped sb d ino j o) :
    Fs.fileByte sb d' ino' j o = Fs.fileByte sb d ino j o := by
  unfold Fs.fileByte
  rw [h.kept _ hm.2, h.data _ hm.2 (blockSlot_ne_table _)]

theorem addrOf_putData (h : Owned sb d ino) {p : Nat × Slot} (htable : p.2 ≠ .table) (blk : Block) :
    addrOf sb (putBlock d (addrOf sb d ino p) blk) ino = addrOf sb d ino := by
  apply addrOf_congr_disk
  intro l hl hlive hne
  have htab : addrOf sb d ino (l, .table) = (ino l).addr tableIndex := addrOf_eq hl hlive .table
  have hdiff : (ino l).addr tableIndex ≠ addrOf sb d ino p := by
    intro heq
    have hpos := h.inj (l, .table) p (by rw [htab, heq]) (by rw [htab]; exact hne)
    exact htable (congrArg Prod.snd hpos).symm
  exact update_of_ne hdiff _ _

theorem Owned.putData (h : Owned sb d ino) {p : Nat × Slot} (hp : addrOf sb d ino p ≠ 0) (htable : p.2 ≠ .table)
    (blk : Block) : Owned sb (putBlock d (addrOf sb d ino p) blk) ino := by
  have hrange := (h.range p hp).1
  unfold Owned
  rw [addrOf_putData h htable]
  apply Exact.congr_used h
  intro c hc
  have hblock := sb.bblock_lt hc
  exact bitAt_putBlock_of_ne _ (by omega)

theorem chunk_offsets {off o : Nat} (m : Nat) (hdiv : o / BSIZE = off / BSIZE) :
    (off % BSIZE ≤ o % BSIZE ∧ o % BSIZE < off % BSIZE + m ↔ off ≤ o ∧ o < off + m) ∧
      (off ≤ o → off + (o % BSIZE - off % BSIZE) = o) := by
  simp only [BSIZE] at hdiv ⊢
  omega

theorem div_of_chunk {off o m : Nat} (hm : off % BSIZE + m ≤ BSIZE) (hlo : off ≤ o) (hhi : o < off + m) :
    o / BSIZE = off / BSIZE := by
  simp only [BSIZE] at hm ⊢
  omega

theorem chunk_writes (h : Owned sb d ino) (hi : i < sb.ninodes) (hlive : (ino i).type ≠ 0) {off m : Nat}
    {ip' : Dinode} (hrun : bmap sb d (ino i) (off / BSIZE) = .ok (a, d', ip')) (hm : off % BSIZE + m ≤ BSIZE)
    (f : Nat → UInt8) :
    Writes sb d ino (putBlock d' a (patch (d' a) (off % BSIZE) m fun k => f (off + k)))
      (within ino i ip') i off (off + m) f ∧ ip'.fields = (ino i).fields := by
  obtain ⟨hbn, hext, hmeta, haddr, hne, -⟩ := bmap_spec h hi hlive hrun
  have hlive' : ip'.type ≠ 0 := by
    rw [Dinode.type_of_fields hmeta]
    exact hlive
  have hpos : addrOf sb d' (within ino i ip') (spot i off) = a := by
    rw [spot, addrOf_within_self hi hlive', haddr]
  have hposne : addrOf sb d' (within ino i ip') (spot i off) ≠ 0 := by rwa [hpos]
  have hdata := blockSlot_ne_table (off / BSIZE)
  have hsame := addrOf_putData hext.owned (p := spot i off) hdata
    (patch (d' a) (off % BSIZE) m fun k => f (off + k))
  have howned := hext.owned.putData hposne hdata (patch (d' a) (off % BSIZE) m fun k => f (off + k))
  rw [hpos] at hsame howned
  -- A byte of the chunk lies in block `off / BSIZE`, and nothing else does.
  have hbyte : ∀ j o, Mapped sb d' (within ino i ip') j o →
      fileByte sb (putBlock d' a (patch (d' a) (off % BSIZE) m fun k => f (off + k)))
        (within ino i ip') j o =
      if j = i ∧ off ≤ o ∧ o < off + m then f o else fileByte sb d' (within ino i ip') j o := by
    intro j o ho
    unfold fileByte
    rw [hsame]
    by_cases hspot : addrOf sb d' (within ino i ip') (spot j o) = a
    · have heq := hext.owned.inj (spot j o) (spot i off) (hspot.trans hpos.symm) ho.2
      have hj : j = i := congrArg Prod.fst heq
      have hdiv : o / BSIZE = off / BSIZE :=
        blockSlot_inj ho.1 hbn (congrArg Prod.snd heq)
      obtain ⟨hiff, heq⟩ := chunk_offsets m hdiv
      rw [hspot, putBlock, update_self, byte_patch _ _ (Nat.mod_lt o (by decide))]
      by_cases hin : off ≤ o ∧ o < off + m
      · rw [if_pos (hiff.mpr hin), if_pos ⟨hj, hin⟩, heq hin.1]
      · rw [if_neg (fun hc => hin (hiff.mp hc)), if_neg (fun hc => hin hc.2)]
    · rw [putBlock, update_of_ne hspot, if_neg]
      rintro ⟨rfl, hlo, hhi⟩
      apply hspot
      rw [spot, div_of_chunk hm hlo hhi]
      exact hpos
  refine ⟨⟨howned, ?_, ?_, ?_, ?_⟩, hmeta⟩
  · intro p hp
    rw [hsame, hext.kept p hp]
  · intro c hc
    have hlt := sb.bmapstart_lt_datastart
    have hge := (hext.owned.range _ hposne).1
    rw [hpos] at hge
    rw [putBlock, update_of_ne (by omega), hext.low c hc]
  · intro j o ho
    have ho' : Mapped sb d' (within ino i ip') j o := ⟨ho.1, by rw [hext.kept _ ho.2]; exact ho.2⟩
    rw [hbyte j o ho', hext.fileByte ho]
  · intro o hlo hhi
    have hdiv := div_of_chunk hm hlo hhi
    have ho : Mapped sb d' (within ino i ip') i o := by
      refine ⟨by rw [hdiv]; exact hbn, ?_⟩
      rw [spot, hdiv]
      exact hposne
    refine ⟨⟨ho.1, by rw [hsame]; exact ho.2⟩, ?_⟩
    rw [hbyte i o ho, if_pos ⟨rfl, hlo, hhi⟩]

theorem chunk_le (n off : Nat) : off % BSIZE + min n (BSIZE - off % BSIZE) ≤ BSIZE := by
  have hlt : off % BSIZE < BSIZE := Nat.mod_lt off (by decide)
  omega

theorem chunk_pos {n : Nat} (off : Nat) (hn : n ≠ 0) : 0 < min n (BSIZE - off % BSIZE) := by
  have hlt : off % BSIZE < BSIZE := Nat.mod_lt off (by decide)
  omega

theorem getD_drop (src : List UInt8) (m k : Nat) : (src.drop m).getD k 0 = src.getD (m + k) 0 := by
  rw [List.getD_eq_getElem?_getD, List.getD_eq_getElem?_getD, List.getElem?_drop]

theorem writes_nothing (h : Owned sb d ino) {src : List UInt8} (hnil : src = []) (off : Nat) :
    Writes sb d ino d (within ino i (ino i)) i off (off + src.length) (fun o => src.getD (o - off) 0) ∧
      (ino i).fields = (ino i).fields := by
  rw [hnil, within, update_eq_self]
  exact ⟨Writes.refl h i off _, rfl⟩

theorem writeLoop_writes {fuel : Nat} {src : List UInt8} {off : Nat} {ip' : Dinode}
    (hfuel : src.length ≤ fuel) (h : Owned sb d ino) (hi : i < sb.ninodes) (hlive : (ino i).type ≠ 0)
    (hrun : writeLoop sb fuel d (ino i) off src = .ok (d', ip')) :
    Writes sb d ino d' (within ino i ip') i off (off + src.length) (fun o => src.getD (o - off) 0) ∧
      ip'.fields = (ino i).fields := by
  induction fuel generalizing d ino off src with
  | zero =>
    cases hrun
    exact writes_nothing h (List.length_eq_zero_iff.mp (Nat.le_zero.mp hfuel)) off
  | succ fuel ih =>
    rw [writeLoop] at hrun
    split at hrun
    · rename_i hnil
      cases hrun
      exact writes_nothing h hnil off
    rename_i hne
    obtain ⟨⟨a, d₁, ip₁⟩, hbmap, hrun⟩ := bind_eq_ok hrun
    have hlen : src.length ≠ 0 := fun hzero => hne (List.length_eq_zero_iff.mp hzero)
    have hpos := chunk_pos off hlen
    have hle : min src.length (BSIZE - off % BSIZE) ≤ src.length := Nat.min_le_left _ _
    obtain ⟨hchunk, hmeta⟩ := chunk_writes h hi hlive hbmap (chunk_le src.length off)
      (fun o => src.getD (o - off) 0)
    generalize min src.length (BSIZE - off % BSIZE) = m at *
    simp only [Nat.add_sub_cancel_left] at hchunk
    have hself : within ino i ip₁ i = ip₁ := update_self _ _ _
    have hlive₁ : (within ino i ip₁ i).type ≠ 0 := by
      rw [hself, Dinode.type_of_fields hmeta]
      exact hlive
    have hfuel' : (src.drop m).length ≤ fuel := by
      rw [List.length_drop]
      omega
    obtain ⟨hrest, hmeta'⟩ := ih hfuel' hchunk.owned hlive₁ (by rw [hself]; exact hrun)
    rw [hself] at hmeta'
    refine ⟨?_, hmeta'.trans hmeta⟩
    have hend : off + m + (src.drop m).length = off + src.length := by
      rw [List.length_drop]
      omega
    rw [hend, within, within, update_idem] at hrest
    refine hchunk.trans (by omega) (by omega) ⟨hrest.owned, hrest.kept, hrest.low, ?_, ?_⟩
    · intro j o hm
      rw [hrest.bytes j o hm]
      by_cases hin : j = i ∧ off + m ≤ o ∧ o < off + src.length
      · rw [if_pos hin, if_pos hin, getD_drop, show m + (o - (off + m)) = o - off by omega]
      · rw [if_neg hin, if_neg hin]
    · intro o hlo hhi
      obtain ⟨hm, hbyte⟩ := hrest.mapped o hlo hhi
      rw [getD_drop, show m + (o - (off + m)) = o - off by omega] at hbyte
      exact ⟨hm, hbyte⟩

end Laboratorio.Fs
