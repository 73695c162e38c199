import Laboratorio.FsInode
import Laboratorio.Owners

/-! Block ownership. A position is an inode number and a slot of that inode: a direct address, the
indirect block, or an entry of it. `Owned` says that the positions of the allocated inodes own distinct
data blocks and that the free map marks exactly those and the metadata. While an operation is at work on
an inode in memory, the inode table is the disk's with that copy in its place. -/

namespace Laboratorio.Fs

open Function

open Bytes

/-! ### The free map -/

section Bitmap

variable {sb : Superblock} {d : Disk} {a b c : Nat}

theorem bblock_eq {k bi : Nat} (h : bi < BPB) : sb.bblock (k * BPB + bi) = sb.bblock (k * BPB) := by
  change bi < 4096 at h
  change (k * 4096 + bi) / 4096 + _ = k * 4096 / 4096 + _
  omega

theorem bitAt_eq {k bi : Nat} (h : bi < BPB) :
    bitAt sb d (k * BPB + bi) = bit (d (sb.bblock (k * BPB))) bi := by
  have hmod : (k * BPB + bi) % BPB = bi := by
    change bi < 4096 at h
    change (k * 4096 + bi) % 4096 = bi
    omega
  rw [bitAt, bblock_eq h, hmod]

theorem freeBlock_some (h : freeBlock sb d = some b) : b < sb.size ∧ bitAt sb d b = false := by
  obtain ⟨k, -, hk⟩ := List.exists_of_findSome?_eq_some h
  obtain ⟨bi, hfind, rfl⟩ := Option.map_eq_some_iff.mp hk
  have hbi := List.mem_range.mp (List.mem_of_find?_eq_some hfind)
  have hfound := List.find?_some hfind
  rw [Bool.and_eq_true, decide_eq_true_eq, Bool.not_eq_true'] at hfound
  rw [bitAt_eq hbi]
  exact hfound

theorem freeBlock_none (h : freeBlock sb d = none) (hb : b < sb.size) : bitAt sb d b = true := by
  have hmod : b % BPB < BPB := Nat.mod_lt b (by decide)
  have hsplit : b / BPB * BPB + b % BPB = b := Nat.div_add_mod' b BPB
  have hrange : b / BPB ∈ List.range ((sb.size + BPB - 1) / BPB) := by
    rw [List.mem_range]
    change b / 4096 < (sb.size + 4096 - 1) / 4096
    omega
  have hnone := Option.map_eq_none_iff.mp (List.findSome?_eq_none_iff.mp h _ hrange)
  have hbit := List.find?_eq_none.mp hnone (b % BPB) (List.mem_range.mpr hmod)
  rw [← bitAt_eq hmod, hsplit, Bool.and_eq_true, decide_eq_true_eq, not_and, Bool.not_eq_true',
    Bool.not_eq_false] at hbit
  exact hbit hb

theorem freeBlock_first (h : freeBlock sb d = some b) (hc : c < b) : bitAt sb d c = true := by
  obtain ⟨l₁, k, l₂, hsplit, hk, hbefore⟩ := List.findSome?_eq_some_iff.mp h
  obtain ⟨bi, hfind, rfl⟩ := Option.map_eq_some_iff.mp hk
  obtain ⟨hfound, hmem, hfirst⟩ := List.find?_range_eq_some.mp hfind
  rw [Bool.and_eq_true, decide_eq_true_eq] at hfound
  have hbi : bi < BPB := List.mem_range.mp hmem
  have hmod : c % BPB < BPB := Nat.mod_lt c (by decide)
  have hdiv : c / BPB * BPB + c % BPB = c := Nat.div_add_mod' c BPB
  have hpast : ∀ x, x < k → x ∈ l₁ := by
    -- The values after `k` in the range are greater.
    intro x hx
    have hsorted : (l₁ ++ k :: l₂).Pairwise (· < ·) := hsplit ▸ List.pairwise_lt_range
    have hk : k ∈ List.range ((sb.size + BPB - 1) / BPB) := by
      rw [hsplit]
      exact List.mem_append_right _ List.mem_cons_self
    have hmem : x ∈ l₁ ++ k :: l₂ := by
      rw [← hsplit]
      exact List.mem_range.mpr (hx.trans (List.mem_range.mp hk))
    rcases List.mem_append.mp hmem with hl₁ | hl₂
    · exact hl₁
    · rcases List.mem_cons.mp hl₂ with heq | hafter
      · exact absurd heq hx.ne
      · have hgt := (List.pairwise_cons.mp (List.pairwise_append.mp hsorted).2.1).1 x hafter
        omega
  rcases lt_trichotomy (c / BPB) k with hlt | heq | hgt
  · have hnone := Option.map_eq_none_iff.mp (hbefore _ (hpast _ hlt))
    have hbit := List.find?_eq_none.mp hnone (c % BPB) (List.mem_range.mpr hmod)
    rw [← bitAt_eq hmod, hdiv, Bool.and_eq_true, decide_eq_true_eq, not_and, Bool.not_eq_true',
      Bool.not_eq_false] at hbit
    exact hbit (by omega)
  · have hclear := hfirst (c % BPB) (by rw [← heq] at hc; omega)
    rw [← heq, ← bitAt_eq hmod, hdiv, decide_eq_true (by omega), Bool.true_and, Bool.not_not] at hclear
    exact hclear
  · have hmul : (k + 1) * BPB ≤ c / BPB * BPB := Nat.mul_le_mul_right _ hgt
    rw [Nat.add_mul, Nat.one_mul] at hmul
    omega

theorem bitAt_putBlock_of_ne (blk : Block) (h : sb.bblock b ≠ a) :
    bitAt sb (putBlock d a blk) b = bitAt sb d b := by
  rw [bitAt, putBlock, update_of_ne h]
  rfl

theorem eq_of_bblock_eq (hdiv : sb.bblock b = sb.bblock c) : b % BPB = c % BPB ↔ b = c := by
  change b / 4096 + _ = c / 4096 + _ at hdiv
  change b % 4096 = c % 4096 ↔ _
  omega

theorem bitAt_mark : bitAt sb (markBlock sb d b) c = (decide (b = c) || bitAt sb d c) := by
  have hmod : c % BPB < 8 * BSIZE := Nat.mod_lt c (by decide)
  by_cases hblock : sb.bblock b = sb.bblock c
  · rw [bitAt, markBlock, putBlock, hblock, update_self, bit_setBit _ hmod]
    simp only [eq_of_bblock_eq hblock]
    rfl
  · have hne : b ≠ c := fun heq => hblock (by rw [heq])
    rw [markBlock, bitAt_putBlock_of_ne _ (Ne.symm hblock), decide_eq_false hne, Bool.false_or]

theorem bitAt_clear :
    bitAt sb (putBlock d (sb.bblock b) (clearBit (d (sb.bblock b)) (b % BPB))) c =
    (!decide (b = c) && bitAt sb d c) := by
  have hmod : c % BPB < 8 * BSIZE := Nat.mod_lt c (by decide)
  by_cases hblock : sb.bblock b = sb.bblock c
  · rw [bitAt, putBlock, hblock, update_self, bit_clearBit _ hmod]
    simp only [eq_of_bblock_eq hblock]
    rfl
  · have hne : b ≠ c := fun heq => hblock (by rw [heq])
    rw [bitAt_putBlock_of_ne _ (Ne.symm hblock), decide_eq_false hne, Bool.not_false, Bool.true_and]

end Bitmap

/-! ### Positions -/

inductive Slot where
  | direct (k : Fin NDIRECT)
  | table
  | entry (j : Fin NINDIRECT)
  deriving DecidableEq

/-- The block that a slot of an inode owns, 0 for none. -/
def slotAddr (d : Disk) (ip : Dinode) : Slot → Nat
  | .direct k => ip.addr k.castSucc
  | .table => ip.addr tableIndex
  | .entry j => if ip.addr tableIndex = 0 then 0 else entryAt (d (ip.addr tableIndex)) j

/-- The slot of block `bn` of a file. -/
def blockSlot (bn : Nat) : Slot :=
  if h : bn < NDIRECT then .direct ⟨bn, h⟩
  else .entry ⟨(bn - NDIRECT) % NINDIRECT, Nat.mod_lt _ (by decide)⟩

/-- The block that a position owns; only allocated inodes own blocks. -/
def addrOf (sb : Superblock) (d : Disk) (ino : Nat → Dinode) (p : Nat × Slot) : Nat :=
  if p.1 < sb.ninodes ∧ (ino p.1).type ≠ 0 then slotAddr d (ino p.1) p.2 else 0

def Owned (sb : Superblock) (d : Disk) (ino : Nat → Dinode) : Prop :=
  Exact (addrOf sb d ino) sb.datastart sb.size (bitAt sb d)

/-- `d'` and `ino'` come from `d` and `ino` by allocating blocks: every position keeps its block, every
data block its contents, and the metadata before the free map is untouched. -/
structure Extends (sb : Superblock) (d : Disk) (ino : Nat → Dinode) (d' : Disk) (ino' : Nat → Dinode) :
    Prop where
  owned : Owned sb d' ino'
  kept : ∀ p, addrOf sb d ino p ≠ 0 → addrOf sb d' ino' p = addrOf sb d ino p
  data : ∀ p, addrOf sb d ino p ≠ 0 → p.2 ≠ .table →
    d' (addrOf sb d ino p) = d (addrOf sb d ino p)
  low : ∀ a < sb.bmapstart, d' a = d a

theorem Extends.refl {sb : Superblock} {d : Disk} {ino : Nat → Dinode} (h : Owned sb d ino) :
    Extends sb d ino d ino := ⟨h, fun _ _ => rfl, fun _ _ _ => rfl, fun _ _ => rfl⟩

theorem Extends.trans {sb : Superblock} {d d' d'' : Disk} {ino ino' ino'' : Nat → Dinode}
    (h : Extends sb d ino d' ino') (h' : Extends sb d' ino' d'' ino'') :
    Extends sb d ino d'' ino'' := by
  refine ⟨h'.owned, ?_, ?_, ?_⟩
  · intro p hp
    have hkept := h.kept p hp
    rw [h'.kept p (by rwa [hkept]), hkept]
  · intro p hp htable
    have hkept := h.kept p hp
    have hdata := h'.data p (by rwa [hkept]) htable
    rw [hkept] at hdata
    rw [hdata, h.data p hp htable]
  · intro a ha
    rw [h'.low a ha, h.low a ha]

/-! ### Allocating -/

variable {sb : Layout} {d d' : Disk} {ino : Nat → Dinode} {i a b : Nat}

theorem addrOf_eq (hi : i < sb.ninodes) (hlive : (ino i).type ≠ 0) (s : Slot) :
    addrOf sb d ino (i, s) = slotAddr d (ino i) s := if_pos ⟨hi, hlive⟩

theorem addrOf_congr_disk (h : ∀ i < sb.ninodes, (ino i).type ≠ 0 → (ino i).addr tableIndex ≠ 0 →
    d' ((ino i).addr tableIndex) = d ((ino i).addr tableIndex)) :
    addrOf sb d' ino = addrOf sb d ino := by
  funext p
  unfold addrOf
  split
  · rename_i hp
    cases hs : p.2 with
    | direct k => rfl
    | table => rfl
    | entry j =>
      simp only [slotAddr]
      split
      · rfl
      · rename_i htable
        rw [h p.1 hp.1 hp.2 htable]
  · rfl

/-- What `balloc` does to a disk in order. -/
structure Fresh (sb : Layout) (d : Disk) (ino : Nat → Dinode) (b : Nat) (d' : Disk) : Prop where
  ge : sb.datastart ≤ b
  lt : b < sb.size
  clear : bitAt sb d b = false
  unowned : ∀ p, addrOf sb d ino p ≠ 0 → addrOf sb d ino p ≠ b
  bits : ∀ c < sb.size, bitAt sb d' c = update (bitAt sb d) b true c
  zero : d' b = zeroBlock
  other : ∀ a, a ≠ b → a ≠ sb.bblock b → d' a = d a

theorem Owned.balloc (h : Owned sb d ino) (hrun : balloc sb d = .ok (b, d')) : Fresh sb d ino b d' := by
  unfold Fs.balloc at hrun
  cases hfree : freeBlock sb d with
  | none =>
    rw [hfree] at hrun
    cases hrun
  | some c =>
    rw [hfree] at hrun
    cases hrun
    obtain ⟨hlt, hclear⟩ := freeBlock_some hfree
    obtain ⟨hge, hunowned⟩ := h.free hlt hclear
    refine ⟨hge, hlt, hclear, hunowned, ?_, update_self _ _ _, ?_⟩
    · intro c hc
      have hblock := sb.bblock_lt hc
      rw [bzero, bitAt_putBlock_of_ne _ (by omega), bitAt_mark]
      by_cases hcb : c = b
      · rw [hcb, decide_eq_true rfl, Bool.true_or, update_self]
      · rw [update_of_ne hcb, decide_eq_false (Ne.symm hcb), Bool.false_or]
    · intro a hab hblock
      rw [bzero, putBlock, update_of_ne hab, markBlock, putBlock,
        update_of_ne hblock]

variable {p : Nat × Slot}

namespace Fresh

variable (hf : Fresh sb d ino b d')

include hf

theorem addrOf_same (h : Owned sb d ino) :
    addrOf sb d' ino = addrOf sb d ino := by
  apply addrOf_congr_disk
  intro i hi hlive htable
  have haddr := addrOf_eq (d := d) hi hlive .table
  have hne : addrOf sb d ino (i, .table) ≠ 0 := by
    rw [haddr]
    exact htable
  have hrange := (h.range _ hne).1
  have hunowned := hf.unowned _ hne
  rw [haddr] at hrange hunowned
  have hblock := sb.bblock_lt hf.lt
  apply hf.other
  · exact hunowned
  · change sb.datastart ≤ (ino i).addr tableIndex at hrange
    omega

theorem low {a : Nat} (ha : a < sb.bmapstart) : d' a = d a := by
  have hge := hf.ge
  have hlt := sb.bmapstart_lt_datastart
  have hblock := sb.bmapstart_le_bblock b
  exact hf.other a (by omega) (by omega)

theorem owned_same (h : Owned sb d ino) (hp : addrOf sb d ino p ≠ 0) :
    d' (addrOf sb d ino p) = d (addrOf sb d ino p) := by
  have hrange := (h.range p hp).1
  have hblock := sb.bblock_lt hf.lt
  exact hf.other _ (hf.unowned p hp) (by omega)

theorem lt_uint : b < 2 ^ 32 := by
  have hlt := hf.lt
  have hle := sb.size_le
  omega

theorem ne_zero : b ≠ 0 := by
  have hge := hf.ge
  have hpos := sb.datastart_pos
  omega

theorem assign (h : Owned sb d ino) {d'' : Disk} {ino' : Nat → Dinode} (hp : addrOf sb d ino p = 0)
    (haddr : addrOf sb d'' ino' = update (addrOf sb d ino) p b) (hbits : ∀ c < sb.size, bitAt sb d'' c = bitAt sb d' c)
    (hdata : ∀ q, addrOf sb d ino q ≠ 0 → q.2 ≠ .table → d'' (addrOf sb d ino q) = d' (addrOf sb d ino q))
    (hlow : ∀ a < sb.bmapstart, d'' a = d' a) :
    Extends sb d ino d'' ino' := by
  refine ⟨?_, ?_, ?_, ?_⟩
  · unfold Owned
    rw [haddr]
    apply (Exact.assign h sb.datastart_pos hp hf.lt hf.clear).congr_used
    intro c hc
    rw [hbits c hc, hf.bits c hc]
  · intro q hq
    have hne : q ≠ p := fun heq => hq (heq ▸ hp)
    rw [haddr, update_of_ne hne]
  · intro q hq htable
    rw [hdata q hq htable, hf.owned_same h hq]
  · intro a ha
    rw [hlow a ha, hf.low ha]

end Fresh

/-! ### `bmap` -/

variable {k : Fin (NDIRECT + 1)}

theorem addr_setAddr (ip : Dinode) {k' : Fin (NDIRECT + 1)} (hb : b < 2 ^ 32) :
    (ip.setAddr k b).addr k' = if k' = k then b else ip.addr k' := by
  change (update ip.addrs k (UInt32.ofNat b) k').toNat = _
  by_cases hk : k' = k
  · rw [if_pos hk, hk, update_self, UInt32.toNat_ofNat_of_lt' hb]
  · rw [if_neg hk, update_of_ne hk]
    rfl

/-- The slot of an entry of `addrs`. -/
def indexSlot (k : Fin (NDIRECT + 1)) : Slot := if h : k.val < NDIRECT then .direct ⟨k, h⟩ else .table

theorem indexSlot_castSucc (k : Fin NDIRECT) : indexSlot k.castSucc = .direct k := dif_pos k.isLt

theorem slotAddr_indexSlot (d : Disk) (ip : Dinode) (k : Fin (NDIRECT + 1)) :
    slotAddr d ip (indexSlot k) = ip.addr k := by
  refine Fin.lastCases ?_ (fun k => ?_) k
  · rfl
  · rw [indexSlot_castSucc]
    rfl

/-- Storing a new block in `addrs` changes that one slot; the entries of a new indirect block are all
free. -/
theorem slotAddr_setAddr (ip : Dinode) (hb : b < 2 ^ 32) (hnew : ip.addr k = 0)
    (hzero : d' b = zeroBlock) (htable : ip.addr tableIndex ≠ 0 → d' (ip.addr tableIndex) = d (ip.addr tableIndex))
    (s : Slot) :
    slotAddr d' (ip.setAddr k b) s = if s = indexSlot k then b else slotAddr d ip s := by
  have hindex : ∀ s', (∃ k', s' = indexSlot k') ∨ ∃ j, s' = Slot.entry j := by
    intro s'
    cases s' with
    | direct k' => exact Or.inl ⟨k'.castSucc, (indexSlot_castSucc k').symm⟩
    | table => exact Or.inl ⟨tableIndex, rfl⟩
    | entry j => exact Or.inr ⟨j, rfl⟩
  have hinj : ∀ k', indexSlot k' = indexSlot k ↔ k' = k := by
    intro k'
    refine ⟨fun heq => ?_, fun heq => by rw [heq]⟩
    unfold indexSlot at heq
    apply Fin.ext
    have hlt := k.isLt
    have hlt' := k'.isLt
    split at heq <;> split at heq
    · exact Fin.mk.inj (Slot.direct.inj heq)
    · cases heq
    · cases heq
    · omega
  rcases hindex s with ⟨k', rfl⟩ | ⟨j, rfl⟩
  · rw [slotAddr_indexSlot, addr_setAddr ip hb, slotAddr_indexSlot]
    simp only [hinj]
  have hne : Slot.entry j ≠ indexSlot k := by
    unfold indexSlot
    split <;> exact Slot.noConfusion
  rw [if_neg hne]
  simp only [slotAddr, addr_setAddr ip hb]
  by_cases hk : tableIndex = k
  · rw [if_pos hk, hk, hnew, if_pos rfl, hzero, entryAt_zeroBlock, ite_self]
  · rw [if_neg hk]
    split
    · rfl
    · rename_i hne'
      rw [htable hne']

/-- The inode table with the copy of inode `i` in memory. -/
abbrev within (ino : Nat → Dinode) (i : Nat) (ip : Dinode) : Nat → Dinode := update ino i ip

theorem addrOf_within_of_ne (ip : Dinode) (hp : p.1 ≠ i) :
    addrOf sb d (within ino i ip) p = addrOf sb d ino p := by
  unfold addrOf
  rw [show within ino i ip p.1 = ino p.1 from update_of_ne hp _ _]

variable {ip : Dinode}

theorem addrOf_within_self (hi : i < sb.ninodes) (hlive : ip.type ≠ 0) (s : Slot) :
    addrOf sb d (within ino i ip) (i, s) = slotAddr d ip s := by
  have hself : within ino i ip i = ip := update_self _ _ _
  rw [addrOf_eq hi (by rw [hself]; exact hlive), hself]

/-- The fields of an inode other than its addresses. -/
def Dinode.fields (ip : Dinode) : UInt16 × UInt16 × UInt16 × UInt16 × UInt32 :=
  (ip.type, ip.major, ip.minor, ip.nlink, ip.size)

variable {ip' : Dinode}

theorem Dinode.type_of_fields (h : ip'.fields = ip.fields) : ip'.type = ip.type :=
  congrArg Prod.fst h

theorem ensureAddr_spec (h : Owned sb d ino) (hi : i < sb.ninodes) (hlive : (ino i).type ≠ 0)
    (hrun : ensureAddr sb d (ino i) k = .ok (a, d', ip')) :
    Extends sb d ino d' (within ino i ip') ∧ ip'.fields = (ino i).fields ∧
      ip'.addr k = a ∧ a ≠ 0 ∧ ((ino i).addr k = 0 → d' a = zeroBlock) ∧
      ((ino i).addr k ≠ 0 → d' = d ∧ ip' = ino i) := by
  unfold ensureAddr at hrun
  split at hrun
  · rename_i hnew
    cases hballoc : balloc sb.toSuperblock d with
    | error e =>
      rw [hballoc] at hrun
      cases hrun
    | ok r =>
      obtain ⟨b, d₁⟩ := r
      rw [hballoc] at hrun
      cases hrun
      have hf := h.balloc hballoc
      have htable : (ino i).addr tableIndex ≠ 0 →
          d' ((ino i).addr tableIndex) = d ((ino i).addr tableIndex) := by
        intro hne
        have haddr := addrOf_eq (d := d) hi hlive .table
        rw [show (ino i).addr tableIndex = addrOf sb d ino (i, .table) from haddr.symm]
        exact hf.owned_same h (by rw [haddr]; exact hne)
      have hself : ((ino i).setAddr k a).addr k = a := by rw [addr_setAddr _ hf.lt_uint, if_pos rfl]
      refine ⟨?_, rfl, hself, hf.ne_zero, fun _ => hf.zero, fun hne => absurd hnew hne⟩
      refine hf.assign h (p := (i, indexSlot k)) ?_ ?_ (fun _ _ => rfl) (fun _ _ _ => rfl)
        (fun _ _ => rfl)
      · rw [addrOf_eq hi hlive, slotAddr_indexSlot, hnew]
      funext p
      obtain ⟨j, s⟩ := p
      by_cases hj : j = i
      · subst hj
        have hlive' : ((ino j).setAddr k a).type ≠ 0 := hlive
        rw [addrOf_within_self hi hlive', slotAddr_setAddr _ hf.lt_uint hnew hf.zero htable]
        by_cases hs : s = indexSlot k
        · rw [if_pos hs, hs, update_self]
        · rw [if_neg hs, update_of_ne (fun heq => hs (congrArg Prod.snd heq)),
            addrOf_eq hi hlive]
      · rw [addrOf_within_of_ne _ hj, update_of_ne (fun heq => hj (congrArg Prod.fst heq)),
          hf.addrOf_same h]
  · rename_i hold
    cases hrun
    refine ⟨?_, rfl, rfl, hold, fun hzero => absurd hzero hold, fun _ => ⟨rfl, rfl⟩⟩
    rw [within, update_eq_self]
    exact Extends.refl h

theorem entry_blockSlot {bn : Nat} (hd : ¬bn < NDIRECT) (hn : bn - NDIRECT < NINDIRECT) :
    blockSlot bn = .entry ⟨bn - NDIRECT, hn⟩ := by
  rw [blockSlot, dif_neg hd]
  simp only [Nat.mod_eq_of_lt hn]

theorem direct_blockSlot {bn : Nat} (hd : bn < NDIRECT) : blockSlot bn = .direct ⟨bn, hd⟩ := dif_pos hd

theorem entry_assign (h : Owned sb d ino) (hi : i < sb.ninodes) (hlive : (ino i).type ≠ 0)
    (ht : (ino i).addr tableIndex ≠ 0) {j : Fin NINDIRECT}
    (hnew : entryAt (d ((ino i).addr tableIndex)) j = 0) (hf : Fresh sb d ino b d') :
    Extends sb d ino (putBlock d' ((ino i).addr tableIndex) (setEntry (d' ((ino i).addr tableIndex)) j b)) ino := by
  have htable : addrOf sb d ino (i, .table) = (ino i).addr tableIndex := addrOf_eq hi hlive .table
  have hne : addrOf sb d ino (i, .table) ≠ 0 := by rwa [htable]
  have hrange := (h.range _ hne).1
  rw [htable] at hrange
  have hsame : d' ((ino i).addr tableIndex) = d ((ino i).addr tableIndex) := by
    rw [← htable]
    exact hf.owned_same h hne
  refine hf.assign h (p := (i, .entry j)) ?_ ?_ ?_ ?_ ?_
  · rw [addrOf_eq hi hlive, slotAddr, if_neg ht, hnew]
  · funext p
    obtain ⟨l, s⟩ := p
    by_cases hl : l = i
    · subst hl
      rw [addrOf_eq hi hlive]
      cases s with
      | direct k | table =>
        rw [update_of_ne (by simp), addrOf_eq hi hlive]
        rfl
      | entry j' =>
        simp only [slotAddr, ht, if_false, putBlock, update_self]
        by_cases hj : j' = j
        · rw [hj, update_self, entryAt_setEntry _ j.isLt hf.lt_uint]
        · have hval : j'.val ≠ j.val := fun heq => hj (Fin.ext heq)
          rw [update_of_ne (fun heq => hj (Slot.entry.inj (congrArg Prod.snd heq))),
            entryAt_setEntry_of_ne _ _ hval, hsame, addrOf_eq hi hlive, slotAddr, if_neg ht]
    · rw [update_of_ne (fun heq => hl (congrArg Prod.fst heq)), ← hf.addrOf_same h]
      unfold addrOf
      split
      · rename_i hlive'
        cases s with
        | direct k => rfl
        | table => rfl
        | entry j' =>
          simp only [slotAddr]
          split
          · rfl
          rename_i hother
          have hdiff : (ino l).addr tableIndex ≠ (ino i).addr tableIndex := by
            intro heq
            have hl' : addrOf sb d ino (l, .table) = (ino l).addr tableIndex :=
              addrOf_eq hlive'.1 hlive'.2 .table
            have hpos := h.inj (l, .table) (i, .table) (by rw [hl', htable, heq])
              (by rw [hl']; exact hother)
            exact hl (congrArg Prod.fst hpos)
          rw [putBlock, update_of_ne hdiff]
      · rfl
  · intro c hc
    have hblock := sb.bblock_lt hc
    exact bitAt_putBlock_of_ne _ (by omega)
  · intro q hq hqt
    have hdiff : addrOf sb d ino q ≠ (ino i).addr tableIndex := by
      intro heq
      have hpos := h.inj q (i, .table) (by rw [htable, heq]) hq
      exact hqt (congrArg Prod.snd hpos)
    exact update_of_ne hdiff _ _
  · intro c hc
    have hlt := sb.bmapstart_lt_datastart
    exact update_of_ne (by omega) _ _

theorem bmap_spec (h : Owned sb d ino) (hi : i < sb.ninodes) (hlive : (ino i).type ≠ 0) {bn : Nat}
    (hrun : bmap sb d (ino i) bn = .ok (a, d', ip')) :
    bn < MAXFILE ∧ Extends sb d ino d' (within ino i ip') ∧ ip'.fields = (ino i).fields ∧
      slotAddr d' ip' (blockSlot bn) = a ∧ a ≠ 0 ∧ (slotAddr d (ino i) (blockSlot bn) = 0 → d' a = zeroBlock) := by
  unfold bmap at hrun
  split at hrun
  · rename_i hd
    obtain ⟨hext, hmeta, haddr, hne, hzero, -⟩ := ensureAddr_spec h hi hlive hrun
    rw [direct_blockSlot hd]
    exact ⟨Nat.lt_add_right _ hd, hext, hmeta, haddr, hne, hzero⟩
  rename_i hd
  split at hrun
  · rename_i hn
    obtain ⟨⟨t, d₁, ip₁⟩, htable, hrun⟩ := bind_eq_ok hrun
    obtain ⟨hext, hmeta, haddr, hne, hzero, hold⟩ := ensureAddr_spec h hi hlive htable
    have hself : within ino i ip₁ i = ip₁ := update_self _ _ _
    have hlive₁ : (within ino i ip₁ i).type ≠ 0 := by
      rw [hself, Dinode.type_of_fields hmeta]
      exact hlive
    rw [entry_blockSlot hd hn]
    refine ⟨by change bn < 140; change ¬bn < 12 at hd; change bn - 12 < 128 at hn; omega, ?_⟩
    dsimp only at hrun
    split at hrun
    · rename_i hnew
      obtain ⟨⟨b, d₂⟩, hballoc, hrun⟩ := bind_eq_ok hrun
      cases hrun
      have hf := hext.owned.balloc hballoc
      have ht : (within ino i ip' i).addr tableIndex = t := by rw [hself, haddr]
      have hentry := entry_assign hext.owned hi hlive₁ (by rw [ht]; exact hne)
        (j := ⟨bn - NDIRECT, hn⟩) (by rw [ht]; exact hnew) hf
      rw [ht] at hentry
      have htb : b ≠ t := by
        have hunowned := hf.unowned (i, .table)
        rw [addrOf_eq hi hlive₁, slotAddr, ht] at hunowned
        exact (hunowned hne).symm
      refine ⟨hext.trans hentry, hmeta, ?_, hf.ne_zero, fun _ => ?_⟩
      · rw [slotAddr, haddr, if_neg hne, putBlock, update_self,
          entryAt_setEntry _ hn hf.lt_uint]
      · rw [putBlock, update_of_ne htb]
        exact hf.zero
    · rename_i hused
      cases hrun
      refine ⟨hext, hmeta, by rw [slotAddr, haddr, if_neg hne], hused, fun hfree => ?_⟩
      by_cases htable0 : (ino i).addr tableIndex = 0
      · rw [hzero htable0, entryAt_zeroBlock] at hused
        exact absurd rfl hused
      · obtain ⟨rfl, rfl⟩ := hold htable0
        rw [slotAddr, haddr, if_neg hne] at hfree
        exact absurd hfree hused
  · cases hrun

end Laboratorio.Fs
