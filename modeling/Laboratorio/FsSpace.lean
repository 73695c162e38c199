import Laboratorio.FsWellFormed
import Mathlib.Order.Interval.Finset.Nat

/-! Space. `balloc` succeeds as long as a block is free and takes one. The blocks that a write takes are those of the
slots that it goes through and that have none: with that many free it completes, with fewer `balloc` panics. For a
file without holes they are at most those of its new size beyond those of the old one. -/

namespace Laboratorio.Fs

open Function

open Bytes

variable {sb : Layout} {d d' : Disk} {ino : Nat → Dinode} {i a : Nat}

def freeBlocks (sb : Superblock) (d : Disk) : Nat := (freeUnits sb.size (bitAt sb d)).card

theorem freeBlocks_congr {used : Nat → Bool} (h : ∀ c < sb.size, bitAt sb d' c = used c) :
    freeBlocks sb d' = (freeUnits sb.size used).card := by
  unfold freeBlocks freeUnits
  congr 1
  apply Finset.filter_congr
  intro c hc
  rw [h c (Finset.mem_range.mp hc)]

theorem freeBlocks_put (ha : a < sb.bmapstart ∨ sb.datastart ≤ a) (blk : Block) :
    freeBlocks sb (putBlock d a blk) = freeBlocks sb d := by
  apply freeBlocks_congr
  intro c hc
  have hge := sb.bmapstart_le_bblock c
  have hlt := sb.bblock_lt hc
  exact bitAt_putBlock_of_ne _ (by omega)

theorem balloc_space (h : Owned sb d ino) : Ends (fun e => e = .panic .outOfBlocks ∧ freeBlocks sb d = 0) (balloc sb d)
    fun r => freeBlocks sb r.2 + 1 = freeBlocks sb d := by
  cases hscan : freeBlock sb.toSuperblock d with
  | none =>
    rw [balloc, hscan]
    refine .stop ⟨rfl, ?_⟩
    rw [freeBlocks, Finset.card_eq_zero, freeUnits, Finset.filter_eq_empty_iff]
    intro c hc
    rw [freeBlock_none hscan (Finset.mem_range.mp hc)]
    exact Bool.noConfusion
  | some b =>
    have hrun : balloc sb d = .ok (b, bzero (markBlock sb d b) b) := by rw [balloc, hscan]
    have hf := h.balloc hrun
    rw [hrun]
    refine .ok ?_
    rw [freeBlocks_congr hf.bits]
    exact card_freeUnits_assign hf.lt hf.clear

def lacks (addr : Nat) : Nat := if addr = 0 then 1 else 0

theorem ensureAddr_space (h : Owned sb d ino) (k : Fin (NDIRECT + 1)) :
    Ends (fun e => e = .panic .outOfBlocks ∧ freeBlocks sb d < lacks ((ino i).addr k)) (ensureAddr sb d (ino i) k)
      fun r => freeBlocks sb r.2.1 + lacks ((ino i).addr k) = freeBlocks sb d := by
  unfold ensureAddr lacks
  split
  · refine ((balloc_space h).mono_stop fun e he => ⟨he.1, ?_⟩).bind fun r hr => .ok hr
    rw [he.2]
    exact Nat.one_pos
  · exact .ok rfl

/-- The blocks that `bmap` allocates for block `bn`. -/
def bmapCost (d : Disk) (ip : Dinode) (bn : Nat) : Nat :=
  (if NDIRECT ≤ bn then lacks (ip.addr tableIndex) else 0) + lacks (slotAddr d ip (blockSlot bn))

theorem bmap_space (h : Owned sb d ino) (hi : i < sb.ninodes) (hlive : (ino i).type ≠ 0) {bn : Nat}
    (hbn : bn < MAXFILE) : Ends (fun e => e = .panic .outOfBlocks ∧ freeBlocks sb d < bmapCost d (ino i) bn)
      (bmap sb d (ino i) bn) fun r => freeBlocks sb r.2.1 + bmapCost d (ino i) bn = freeBlocks sb d := by
  unfold bmap bmapCost
  by_cases hd : bn < NDIRECT
  · rw [direct_blockSlot hd, if_neg (Nat.not_le.mpr hd), Nat.zero_add, dif_pos hd]
    exact ensureAddr_space h _
  have hn : bn - NDIRECT < NINDIRECT := by
    change bn < 140 at hbn
    change bn - 12 < 128
    omega
  rw [if_pos (Nat.not_lt.mp hd), entry_blockSlot hd hn, dif_neg hd, if_pos hn]
  have htotal := ensureAddr_space (i := i) h tableIndex
  cases htable : ensureAddr sb d (ino i) tableIndex with
  | error e =>
    rw [htable] at htotal
    cases htotal with
    | stop he => exact .stop ⟨he.1, by omega⟩
  | ok r =>
    obtain ⟨t, d₁, ip₁⟩ := r
    have hcount := htotal.of_ok htable
    obtain ⟨hext, hmeta, haddr, hne, hzero, hold⟩ := ensureAddr_spec h hi hlive htable
    -- The entry in the indirect block is the one on disk, or that of a new, zeroed block.
    have hentry : entryAt (d₁ t) (bn - NDIRECT) = slotAddr d (ino i) (.entry ⟨bn - NDIRECT, hn⟩) := by
      rw [slotAddr]
      by_cases h0 : (ino i).addr tableIndex = 0
      · rw [if_pos h0, hzero h0, entryAt_zeroBlock]
      · obtain ⟨rfl, rfl⟩ := hold h0
        rw [if_neg h0, haddr]
    have hlt : sb.datastart ≤ t := by
      have hself : addrOf sb d₁ (within ino i ip₁) (i, .table) = t := by
        rw [addrOf_within_self hi (by rw [Dinode.type_of_fields hmeta]; exact hlive), slotAddr, haddr]
      have hrange := hext.owned.range (i, .table) (by rw [hself]; exact hne)
      rw [hself] at hrange
      exact hrange.1
    rw [ok_bind]
    dsimp only at hcount ⊢
    rw [hentry]
    generalize slotAddr d (ino i) (.entry ⟨bn - NDIRECT, hn⟩) = x at *
    by_cases hx : x = 0
    · have hone : lacks x = 1 := if_pos hx
      rw [if_pos hx, hone]
      refine ((balloc_space hext.owned).mono_stop fun e he => ⟨he.1, by omega⟩).bind fun r hr => .ok ?_
      rw [freeBlocks_put (Or.inr hlt)]
      omega
    · have hnone : lacks x = 0 := if_neg hx
      rw [if_neg hx, hnone]
      exact .ok hcount

/-! ### The slots that a write goes through -/

def slotsAt (bn : Nat) : Finset Slot := if NDIRECT ≤ bn then {.table, blockSlot bn} else {blockSlot bn}

/-- The slots of the blocks of `n` bytes from `off` on, and that of the indirect block if one of them is listed in it.
-/
def slotsOf (off n : Nat) : Finset Slot := (Finset.range n).biUnion fun k => slotsAt ((off + k) / BSIZE)

theorem slotsOf_add (off m n : Nat) : slotsOf off (m + n) = slotsOf off m ∪ slotsOf (off + m) n := by
  ext s
  simp only [slotsOf, Finset.mem_union, Finset.mem_biUnion, Finset.mem_range]
  constructor
  · rintro ⟨k, hk, hs⟩
    by_cases hlt : k < m
    · exact Or.inl ⟨k, hlt, hs⟩
    · exact Or.inr ⟨k - m, by omega, by rwa [show off + m + (k - m) = off + k by omega]⟩
  · rintro (⟨k, hk, hs⟩ | ⟨k, hk, hs⟩)
    · exact ⟨k, by omega, hs⟩
    · exact ⟨m + k, by omega, by rwa [← Nat.add_assoc]⟩

theorem slotsOf_chunk {off m : Nat} (hpos : 0 < m) (hm : off % BSIZE + m ≤ BSIZE) :
    slotsOf off m = slotsAt (off / BSIZE) := by
  have hdiv : ∀ k < m, (off + k) / BSIZE = off / BSIZE := fun k hk => div_of_chunk hm (by omega) (by omega)
  ext s
  simp only [slotsOf, Finset.mem_biUnion, Finset.mem_range]
  constructor
  · rintro ⟨k, hk, hs⟩
    rwa [hdiv k hk] at hs
  · exact fun hs => ⟨0, hpos, by rwa [hdiv 0 hpos]⟩

/-- How many of the slots in `S` of inode `i` have no block. -/
def lacking (sb : Superblock) (d : Disk) (ino : Nat → Dinode) (i : Nat) (S : Finset Slot) : Nat :=
  (S.filter fun s => addrOf sb d ino (i, s) = 0).card

/-- Inode `i` has taken free blocks for the slots in `S` that had none, and for no others. -/
structure Filled (sb : Superblock) (d : Disk) (ino : Nat → Dinode) (d' : Disk) (ino' : Nat → Dinode) (i : Nat)
    (S : Finset Slot) : Prop where
  space : freeBlocks sb d' + lacking sb d ino i S = freeBlocks sb d
  zero : ∀ s, addrOf sb d' ino' (i, s) = 0 ↔ addrOf sb d ino (i, s) = 0 ∧ s ∉ S

/-- Why an allocation for the slots in `S` stops. -/
def Short (sb : Superblock) (d : Disk) (ino : Nat → Dinode) (i : Nat) (S : Finset Slot) (e : Stop) : Prop :=
  e = .panic .outOfBlocks ∧ freeBlocks sb d < lacking sb d ino i S

variable {src : List UInt8}

section Filling

variable {S T : Finset Slot} {ino' ino'' : Nat → Dinode} {d'' : Disk}

theorem Filled.refl (off : Nat) : Filled sb d ino d ino i (slotsOf off 0) := ⟨rfl, fun s => by simp [slotsOf]⟩

theorem Filled.nothing (hnil : src = []) (off : Nat) :
    Filled sb d ino d (within ino i (ino i)) i (slotsOf off src.length) := by
  rw [hnil, within, update_eq_self]
  exact Filled.refl off

theorem Filled.lacking_union (h : Filled sb d ino d' ino' i S) (T : Finset Slot) :
    lacking sb d ino i (S ∪ T) = lacking sb d ino i S + lacking sb d' ino' i T := by
  have hsplit : (S ∪ T).filter (fun s => addrOf sb d ino (i, s) = 0) =
      S.filter (fun s => addrOf sb d ino (i, s) = 0) ∪ T.filter (fun s => addrOf sb d' ino' (i, s) = 0) := by
    ext s
    simp only [Finset.mem_union, Finset.mem_filter, h.zero]
    tauto
  unfold lacking
  rw [hsplit, Finset.card_union_of_disjoint]
  rw [Finset.disjoint_left]
  intro s hs hs'
  exact ((h.zero s).mp (Finset.mem_filter.mp hs').2).2 (Finset.mem_filter.mp hs).1

theorem Filled.trans (h : Filled sb d ino d' ino' i S) (h' : Filled sb d' ino' d'' ino'' i T) :
    Filled sb d ino d'' ino'' i (S ∪ T) := by
  refine ⟨?_, fun s => ?_⟩
  · have hspace := h.space
    have hspace' := h'.space
    rw [h.lacking_union]
    omega
  · rw [h'.zero, h.zero, Finset.mem_union, not_or, and_assoc]

theorem Filled.short {e : Stop} (h : Filled sb d ino d' ino' i S) (he : Short sb d' ino' i T e) :
    Short sb d ino i (S ∪ T) e := by
  have hspace := h.space
  refine ⟨he.1, ?_⟩
  rw [h.lacking_union]
  have hlt := he.2
  omega

theorem Short.union {e : Stop} (he : Short sb d ino i S e) (T : Finset Slot) : Short sb d ino i (S ∪ T) e :=
  ⟨he.1, he.2.trans_le (Finset.card_le_card (Finset.filter_subset_filter _ Finset.subset_union_left))⟩

/-- It is enough that the slots have blocks in the end and that no more have been taken than they lacked. -/
theorem Extends.filled (hext : Extends sb d ino d' ino') (h : Owned sb d ino)
    (hS : ∀ s ∈ S, addrOf sb d' ino' (i, s) ≠ 0) (hspace : freeBlocks sb d' + lacking sb d ino i S = freeBlocks sb d) :
    Filled sb d ino d' ino' i S := by
  refine ⟨hspace, fun s => ⟨fun hnone => ⟨?_, fun hs => hS s hs hnone⟩, fun ⟨hnone, hs⟩ => ?_⟩⟩
  · by_contra hne
    rw [hext.kept _ hne] at hnone
    exact hne hnone
  by_contra hnew
  -- One more slot than those that were lacking would have a block that was free.
  have htaken := h.card_le_free hext.owned hext.kept
    (S := (insert s (S.filter fun s => addrOf sb d ino (i, s) = 0)).image (Prod.mk i)) (by
      intro p hp
      obtain ⟨s', hs', rfl⟩ := Finset.mem_image.mp hp
      rcases Finset.mem_insert.mp hs' with rfl | hs'
      · exact ⟨hnone, hnew⟩
      · obtain ⟨hmem, hzero⟩ := Finset.mem_filter.mp hs'
        exact ⟨hzero, hS s' hmem⟩)
  rw [Finset.card_image_of_injective _ (Prod.mk_right_injective i),
    Finset.card_insert_of_notMem fun hmem => hs (Finset.mem_filter.mp hmem).1] at htaken
  unfold lacking freeBlocks at hspace
  omega

end Filling

theorem lacking_slotsAt (hi : i < sb.ninodes) (hlive : (ino i).type ≠ 0) (bn : Nat) :
    lacking sb d ino i (slotsAt bn) = bmapCost d (ino i) bn := by
  have hone : lacking sb d ino i {blockSlot bn} = lacks (slotAddr d (ino i) (blockSlot bn)) := by
    rw [lacking, Finset.filter_singleton, addrOf_eq hi hlive, lacks]
    split <;> rfl
  unfold slotsAt bmapCost
  split
  · have hnot : Slot.table ∉ ({blockSlot bn} : Finset Slot).filter fun s => addrOf sb d ino (i, s) = 0 :=
      fun hmem => blockSlot_ne_table bn (Finset.mem_singleton.mp (Finset.mem_filter.mp hmem).1).symm
    have htable : addrOf sb d ino (i, .table) = (ino i).addr tableIndex := addrOf_eq hi hlive .table
    rw [← hone, lacking, Finset.filter_insert, htable, lacks]
    split
    · rw [Finset.card_insert_of_notMem hnot, Nat.add_comm, lacking]
    · rw [Nat.zero_add, lacking]
  · rw [hone, Nat.zero_add]

theorem table_of_slot {ip : Dinode} {bn : Nat} (hd : NDIRECT ≤ bn) (hslot : slotAddr d ip (blockSlot bn) ≠ 0) :
    ip.addr tableIndex ≠ 0 := by
  intro htable
  rw [blockSlot, dif_neg (Nat.not_lt.mpr hd), slotAddr, if_pos htable] at hslot
  exact hslot rfl

theorem bmap_fills (h : Owned sb d ino) (hi : i < sb.ninodes) (hlive : (ino i).type ≠ 0) {bn : Nat}
    (hbn : bn < MAXFILE) : Ends (Short sb d ino i (slotsAt bn)) (bmap sb d (ino i) bn)
      fun r => Filled sb d ino r.2.1 (within ino i r.2.2) i (slotsAt bn) := by
  have hspace := bmap_space h hi hlive hbn
  rw [← lacking_slotsAt hi hlive] at hspace
  cases hrun : bmap sb d (ino i) bn with
  | error e =>
    rw [hrun] at hspace
    cases hspace with
    | stop he => exact .stop he
  | ok r =>
    obtain ⟨a, d', ip'⟩ := r
    have hcount := hspace.of_ok hrun
    obtain ⟨-, hext, hmeta, haddr, hne, -⟩ := bmap_spec h hi hlive hrun
    refine .ok (hext.filled h (fun s hs => ?_) hcount)
    rw [addrOf_within_self hi (by rw [Dinode.type_of_fields hmeta]; exact hlive)]
    have hslot : slotAddr d' ip' (blockSlot bn) ≠ 0 := by rwa [haddr]
    unfold slotsAt at hs
    split at hs
    · rename_i hd
      rcases Finset.mem_insert.mp hs with rfl | hs
      · exact table_of_slot hd hslot
      · rwa [Finset.mem_singleton.mp hs]
    · rwa [Finset.mem_singleton.mp hs]

/-- The blocks of a file of `size` bytes, the indirect block included. -/
def blocksFor (size : Nat) : Nat :=
  (size + BSIZE - 1) / BSIZE + if NDIRECT * BSIZE < size then 1 else 0

theorem blocksFor_zero : blocksFor 0 = 0 := by decide

theorem blocksFor_mono {m n : Nat} (h : m ≤ n) : blocksFor m ≤ blocksFor n := by
  unfold blocksFor
  simp only [BSIZE, NDIRECT]
  split <;> split <;> omega

theorem table_of_mapped {o : Nat} (hi : i < sb.ninodes) (hlive : (ino i).type ≠ 0) (hm : Mapped sb d ino i o) :
    slotAddr d (ino i) (blockSlot (o / BSIZE)) ≠ 0 ∧ (NDIRECT ≤ o / BSIZE → (ino i).addr tableIndex ≠ 0) := by
  obtain ⟨hbn, hne⟩ := hm
  rw [spot, addrOf_eq hi hlive] at hne
  exact ⟨hne, fun hd => table_of_slot hd hne⟩

/-- In a file that has its blocks up to byte `v`, a write lacks at most those of the bytes beyond. -/
theorem lacking_le {off n v : Nat} (hi : i < sb.ninodes) (hlive : (ino i).type ≠ 0)
    (hv : ∀ o < v, Mapped sb d ino i o) :
    lacking sb d ino i (slotsOf off n) + blocksFor v ≤ blocksFor (max v (off + n)) := by
  have hsub : (slotsOf off n).filter (fun s => addrOf sb d ino (i, s) = 0) ⊆
      (Finset.Ico ((v + BSIZE - 1) / BSIZE) ((off + n + BSIZE - 1) / BSIZE)).image blockSlot ∪
        if v ≤ NDIRECT * BSIZE ∧ NDIRECT * BSIZE < off + n then {.table} else ∅ := by
    intro s hs
    obtain ⟨hmem, hnone⟩ := Finset.mem_filter.mp hs
    obtain ⟨k, hk, hat⟩ := Finset.mem_biUnion.mp hmem
    rw [Finset.mem_range] at hk
    rw [addrOf_eq hi hlive] at hnone
    rw [Finset.mem_union]
    have hcases : s = blockSlot ((off + k) / BSIZE) ∨ s = .table ∧ NDIRECT ≤ (off + k) / BSIZE := by
      unfold slotsAt at hat
      split at hat
      · rename_i hd
        rcases Finset.mem_insert.mp hat with rfl | hat
        · exact Or.inr ⟨rfl, hd⟩
        · exact Or.inl (Finset.mem_singleton.mp hat)
      · exact Or.inl (Finset.mem_singleton.mp hat)
    rcases hcases with rfl | ⟨rfl, hd⟩
    · refine Or.inl (Finset.mem_image_of_mem _ (Finset.mem_Ico.mpr ⟨?_, ?_⟩))
      · by_contra hlt
        have hold := (table_of_mapped hi hlive
          (hv ((off + k) / BSIZE * BSIZE) (by simp only [BSIZE] at hlt ⊢; omega))).1
        rw [Nat.mul_div_cancel _ (by decide)] at hold
        exact hold hnone
      · simp only [BSIZE]
        omega
    · refine Or.inr ?_
      rw [if_pos, Finset.mem_singleton]
      refine ⟨?_, by simp only [BSIZE, NDIRECT] at hd ⊢; omega⟩
      by_contra hlt
      exact (table_of_mapped hi hlive (hv (NDIRECT * BSIZE) (by omega))).2 (by decide) hnone
  have hcard := (Finset.card_le_card hsub).trans (Finset.card_union_le _ _)
  have himage := Finset.card_image_le (s := Finset.Ico ((v + BSIZE - 1) / BSIZE) ((off + n + BSIZE - 1) / BSIZE))
    (f := blockSlot)
  rw [Nat.card_Ico] at himage
  have hgrow : (off + n + BSIZE - 1) / BSIZE - (v + BSIZE - 1) / BSIZE +
      (if v ≤ NDIRECT * BSIZE ∧ NDIRECT * BSIZE < off + n then 1 else 0) + blocksFor v ≤
      blocksFor (max v (off + n)) := by
    unfold blocksFor
    simp only [BSIZE, NDIRECT]
    split <;> split <;> split <;> omega
  unfold lacking
  split at hcard
  · rename_i hcond
    rw [if_pos hcond] at hgrow
    rw [Finset.card_singleton] at hcard
    omega
  · rename_i hcond
    rw [if_neg hcond] at hgrow
    rw [Finset.card_empty] at hcard
    omega

/-! ### `writei` -/

theorem writeLoop_fills {fuel off : Nat} (hfuel : src.length ≤ fuel) (h : Owned sb d ino)
    (hi : i < sb.ninodes) (hlive : (ino i).type ≠ 0) (hfit : off + src.length ≤ MAXFILE * BSIZE) :
    Ends (Short sb d ino i (slotsOf off src.length)) (writeLoop sb fuel d (ino i) off src)
      fun r => Filled sb d ino r.1 (within ino i r.2) i (slotsOf off src.length) := by
  induction fuel generalizing d ino off src with
  | zero => exact .ok (Filled.nothing (List.length_eq_zero_iff.mp (Nat.le_zero.mp hfuel)) off)
  | succ fuel ih =>
    rw [writeLoop]
    split
    · rename_i hnil
      exact .ok (Filled.nothing hnil off)
    rename_i hne
    have hlen : src.length ≠ 0 := fun hzero => hne (List.length_eq_zero_iff.mp hzero)
    have hpos := chunk_pos off hlen
    have hle : min src.length (BSIZE - off % BSIZE) ≤ src.length := Nat.min_le_left _ _
    have hchunk := chunk_le src.length off
    have hbn : off / BSIZE < MAXFILE := by
      rw [Nat.div_lt_iff_lt_mul (by decide)]
      omega
    generalize min src.length (BSIZE - off % BSIZE) = m at *
    have hslots : slotsOf off src.length = slotsAt (off / BSIZE) ∪ slotsOf (off + m) (src.drop m).length := by
      rw [← slotsOf_chunk hpos hchunk, ← slotsOf_add, List.length_drop, Nat.add_sub_cancel' hle]
    have hfills := bmap_fills h hi hlive hbn
    rw [hslots]
    cases hbmap : bmap sb d (ino i) (off / BSIZE) with
    | error e =>
      rw [hbmap] at hfills
      cases hfills with
      | stop he => exact .stop (he.union _)
    | ok r =>
      obtain ⟨a, d₁, ip₁⟩ := r
      have hfill := hfills.of_ok hbmap
      obtain ⟨-, hext, -, haddr, hane, -⟩ := bmap_spec h hi hlive hbmap
      obtain ⟨hwrites, hmeta⟩ := chunk_writes h hi hlive hbmap hchunk (fun o => src.getD (o - off) 0)
      simp only [Nat.add_sub_cancel_left] at hwrites
      have hlive₁ : ip₁.type ≠ 0 := by
        rw [Dinode.type_of_fields hmeta]
        exact hlive
      have hspot : addrOf sb d₁ (within ino i ip₁) (spot i off) = a := by
        rw [spot, addrOf_within_self hi hlive₁, haddr]
      have hdata := (hext.owned.range (spot i off) (by rw [hspot]; exact hane)).1
      have hsame := addrOf_putData hext.owned (p := spot i off) (blockSlot_ne_table _)
        (patch (d₁ a) (off % BSIZE) m fun k => src.getD k 0)
      rw [hspot] at hdata hsame
      have hself : within ino i ip₁ i = ip₁ := update_self _ _ _
      have hfill' : Filled sb d ino (putBlock d₁ a (patch (d₁ a) (off % BSIZE) m fun k => src.getD k 0))
          (within ino i ip₁) i (slotsAt (off / BSIZE)) :=
        ⟨by rw [freeBlocks_put (Or.inr hdata)]; exact hfill.space, fun s => by rw [hsame]; exact hfill.zero s⟩
      have hlen' : (src.drop m).length ≤ fuel := by
        rw [List.length_drop]
        omega
      have hfit' : off + m + (src.drop m).length ≤ MAXFILE * BSIZE := by
        rw [List.length_drop]
        omega
      have hrest := ih hlen' hwrites.owned (by rw [hself]; exact hlive₁) hfit'
      rw [hself] at hrest
      rw [ok_bind]
      refine (hrest.mono_stop fun e he => hfill'.short he).mono fun r hr => ?_
      rw [within, within, update_idem] at hr
      exact hfill'.trans hr

/-- The loop of `writei` completes when the blocks are there; `v` is how far the file has its blocks. -/
theorem writeLoop_total {fuel off v : Nat} (hfuel : src.length ≤ fuel)
    (h : Owned sb d ino) (hi : i < sb.ninodes) (hlive : (ino i).type ≠ 0)
    (hv : ∀ o < v, Mapped sb d ino i o) (hfit : off + src.length ≤ MAXFILE * BSIZE)
    (hfree : blocksFor (max v (off + src.length)) ≤ freeBlocks sb d + blocksFor v) :
    ∃ d' ip', writeLoop sb fuel d (ino i) off src = .ok (d', ip') ∧
      freeBlocks sb d + blocksFor v ≤ freeBlocks sb d' + blocksFor (max v (off + src.length)) := by
  have hle : lacking sb d ino i (slotsOf off src.length) + _ ≤ _ := lacking_le hi hlive hv
  obtain ⟨⟨d', ip'⟩, hrun, hfill⟩ :=
    ((writeLoop_fills hfuel h hi hlive hfit).mono_stop fun e he => absurd he.2 (by omega)).exists_ok
  have hspace := hfill.space
  exact ⟨d', ip', hrun, by dsimp only at hspace; omega⟩

theorem writei_fills (dev : Devices) {off : UInt32} (h : WellFormed sb d)
    (hi : i < sb.ninodes) (hlive : (loadInode sb d i).type ≠ 0) (htype : (loadInode sb d i).type ≠ T_DEV)
    (hsrc : src.length < 2 ^ 32) (haccept : ¬rejectsWrite (loadInode sb d i).size.toNat off.toNat src.length) :
    Ends (Short sb d (loadInode sb d) i (slotsOf off.toNat src.length)) (writei sb dev d i (loadInode sb d i) src off)
      fun r => Filled sb d (loadInode sb d) r.2.1 (loadInode sb r.2.1) i (slotsOf off.toNat src.length) := by
  have hfills := writeLoop_fills (le_refl _) h.owned hi hlive (rejectsWrite_not haccept).2.2
  have heq : writei sb dev d i (loadInode sb d i) src off = _ := writei_eq dev htype hsrc
  rw [if_neg haccept] at heq
  cases hloop : writeLoop sb src.length d (loadInode sb d i) off.toNat src with
  | error e =>
    rw [hloop] at hfills heq
    rw [heq]
    cases hfills with
    | stop he => exact .stop he
  | ok r =>
    obtain ⟨d₁, ip₁⟩ := r
    have hfill := hfills.of_ok hloop
    have howned := (writeLoop_writes (le_refl _) h.owned hi hlive hloop).1.owned
    rw [hloop, ok_bind] at heq
    dsimp only at heq hfill
    split at heq
    · obtain ⟨-, -, hover⟩ := (writei_spec h hi hlive htype hsrc heq).resolve_left fun hc => haccept hc.1
      rw [heq]
      refine .ok ⟨?_, fun s => ?_⟩
      · rw [iupdate, freeBlocks_put (Or.inl (sb.iblock_lt hi))]
        exact hfill.space
      · have haddr : addrOf sb d₁ (within (loadInode sb d) i { ip₁ with size := off + UInt32.ofNat src.length }) =
            addrOf sb d₁ (within (loadInode sb d) i ip₁) := addrOf_within_congr rfl rfl
        rw [hover.replaces.addrOf_eq, iupdate,
          addrOf_congr_data (howned.within_congr (by rfl) (by rfl)) (putLow_data (sb.iblock_lt hi) _), haddr]
        exact hfill.zero s
    · obtain ⟨-, -, hover⟩ := (writei_spec h hi hlive htype hsrc heq).resolve_left fun hc => haccept hc.1
      rw [heq]
      refine .ok ⟨hfill.space, fun s => ?_⟩
      rw [hover.replaces.addrOf_eq]
      exact hfill.zero s

end Laboratorio.Fs
