import Laboratorio.FsReading
import Mathlib.Order.Fin.Basic

/-! `itrunc` gives every block of an inode back, each of them once: it never meets a block that is free
already. Only the free map and the inode itself change. -/

namespace Laboratorio.Fs

open Function

open Bytes

variable {sb : Layout} {d d' : Disk} {ino : Nat → Dinode} {i j o a : Nat}

/-- Outside the free map nothing has changed. -/
def SameBlocks (sb : Superblock) (d d' : Disk) : Prop :=
  ∀ a, a < sb.bmapstart ∨ sb.datastart ≤ a → d' a = d a

theorem SameBlocks.refl (sb : Superblock) (d : Disk) : SameBlocks sb d d := fun _ _ => rfl

theorem SameBlocks.trans {d'' : Disk} (h : SameBlocks sb d d') (h' : SameBlocks sb d' d'') :
    SameBlocks sb d d'' := fun a ha => (h' a ha).trans (h a ha)

theorem Owned.of_exact (h : Exact (addrOf sb d ino) sb.datastart sb.size (bitAt sb d'))
    (hs : SameBlocks sb d d') : Owned sb d' ino := by
  unfold Owned
  rw [addrOf_congr_data h fun a ha => hs a (Or.inr ha)]
  exact h

variable {A : Nat × Slot → Nat}

theorem bfree_spec {p : Nat × Slot} (h : Exact A sb.datastart sb.size (bitAt sb d)) (hp : A p ≠ 0) :
    ∃ d', bfree sb d (A p) = .ok d' ∧ Exact (update A p 0) sb.datastart sb.size (bitAt sb d') ∧ SameBlocks sb d d' := by
  have hused : ¬bitAt sb d (A p) = false := by
    rw [h.used_addr hp]
    exact Bool.true_eq_false_eq_False
  refine ⟨_, if_neg hused, (h.release hp).congr_used ?_, ?_⟩
  · intro c _
    rw [bitAt_clear]
    by_cases hc : c = A p
    · rw [hc, decide_eq_true rfl, update_self]
      rfl
    · rw [decide_eq_false (Ne.symm hc), update_of_ne hc, Bool.not_false, Bool.true_and]
  · intro a ha
    have hge := sb.bmapstart_le_bblock (A p)
    have hlt := sb.bblock_lt (h.range p hp).2
    exact update_of_ne (by omega) _ _

theorem bfree_if_spec (p : Nat × Slot) (h : Exact A sb.datastart sb.size (bitAt sb d)) :
    ∃ d', (if A p ≠ 0 then bfree sb d (A p) else pure d) = .ok d' ∧
      Exact (update A p 0) sb.datastart sb.size (bitAt sb d') ∧ SameBlocks sb d d' := by
  by_cases hp : A p ≠ 0
  · rw [if_pos hp]
    exact bfree_spec h hp
  · rw [if_neg hp]
    refine ⟨d, rfl, ?_, SameBlocks.refl sb d⟩
    rw [update_eq_self_iff.mpr (not_not.mp hp).symm]
    exact h

variable {ip : Dinode}

theorem setAddr_self {k : Fin (NDIRECT + 1)} (h : ip.addr k = 0) : ip.setAddr k 0 = ip := by
  have hzero : ip.addrs k = 0 := UInt32.toNat_inj.mp h
  have hupdate : update ip.addrs k (UInt32.ofNat 0) = ip.addrs :=
    update_eq_self_iff.mpr hzero.symm
  rw [Dinode.setAddr, hupdate]

theorem addr_clear (ip : Dinode) (k k' : Fin (NDIRECT + 1)) :
    (ip.setAddr k 0).addr k' = if k' = k then 0 else ip.addr k' := addr_setAddr ip (by decide)

theorem castSucc_ne_table (k : Fin NDIRECT) : k.castSucc ≠ tableIndex :=
  Fin.ne_of_lt (Fin.castSucc_lt_last k)

theorem addrOf_clearDirect (hi : i < sb.ninodes) (hlive : ip.type ≠ 0) (k : Fin NDIRECT) :
    addrOf sb d (within ino i (ip.setAddr k.castSucc 0)) = update (addrOf sb d (within ino i ip)) (i, .direct k) 0 := by
  have htable : (ip.setAddr k.castSucc 0).addr tableIndex = ip.addr tableIndex := by
    rw [addr_clear, if_neg (castSucc_ne_table k).symm]
  funext p
  obtain ⟨j, s⟩ := p
  by_cases hj : j = i
  · subst hj
    have hlive' : (ip.setAddr k.castSucc 0).type ≠ 0 := hlive
    rw [addrOf_within_self hi hlive']
    cases s with
    | direct l =>
      by_cases hl : l = k
      · rw [hl, update_self, slotAddr, addr_clear, if_pos rfl]
      · rw [update_of_ne (fun heq => hl (Slot.direct.inj (congrArg Prod.snd heq))),
          addrOf_within_self hi hlive, slotAddr, addr_clear,
          if_neg (fun heq => hl (Fin.castSucc_inj.mp heq))]
        rfl
    | table =>
      rw [update_of_ne (by simp), addrOf_within_self hi hlive]
      exact htable
    | entry l =>
      rw [update_of_ne (by simp), addrOf_within_self hi hlive, slotAddr, slotAddr, htable]
  · rw [addrOf_within_of_ne _ hj, update_of_ne (fun heq => hj (congrArg Prod.fst heq)),
      addrOf_within_of_ne _ hj]

theorem freeDirect_spec (hi : i < sb.ninodes) (hlive : ip.type ≠ 0)
    (h : Owned sb d (within ino i ip)) (k : Fin NDIRECT) :
    ∃ d', freeDirect sb (d, ip) k = .ok (d', ip.setAddr k.castSucc 0) ∧
      Owned sb d' (within ino i (ip.setAddr k.castSucc 0)) ∧ SameBlocks sb d d' := by
  have hpos : addrOf sb d (within ino i ip) (i, .direct k) = ip.addr k.castSucc :=
    addrOf_within_self hi hlive _
  obtain ⟨d', hrun, hexact, hs⟩ := bfree_if_spec (i, .direct k) h
  rw [← addrOf_clearDirect hi hlive] at hexact
  rw [hpos] at hrun
  refine ⟨d', ?_, Owned.of_exact hexact hs, hs⟩
  unfold freeDirect
  by_cases hne : ip.addr k.castSucc ≠ 0
  · rw [if_pos hne] at hrun ⊢
    rw [hrun]
    rfl
  · rw [if_neg hne] at hrun ⊢
    cases hrun
    rw [setAddr_self (not_not.mp hne)]
    rfl

theorem freeDirects_spec (hi : i < sb.ninodes) (L : List (Fin NDIRECT))
    (hlive : ip.type ≠ 0) (h : Owned sb d (within ino i ip)) :
    ∃ d' ip', L.foldlM (freeDirect sb) (d, ip) = .ok (d', ip') ∧ Owned sb d' (within ino i ip') ∧
      SameBlocks sb d d' ∧ ip'.fields = ip.fields ∧ ∀ k, ip'.addr k = if ∃ l ∈ L,
      k = l.castSucc then 0 else ip.addr k := by
  induction L generalizing d ip with
  | nil =>
    refine ⟨d, ip, rfl, h, SameBlocks.refl sb d, rfl, fun k => ?_⟩
    rw [if_neg (by rintro ⟨l, hl, -⟩; cases hl)]
  | cons l L ih =>
    obtain ⟨d₁, hrun, howned, hs⟩ := freeDirect_spec hi hlive h l
    have hlive' : (ip.setAddr l.castSucc 0).type ≠ 0 := hlive
    obtain ⟨d₂, ip₂, hrun', howned', hs', hfields, haddr⟩ := ih hlive' howned
    refine ⟨d₂, ip₂, ?_, howned', hs.trans hs', hfields, fun k => ?_⟩
    · rw [List.foldlM_cons, hrun, ok_bind, hrun']
    · rw [haddr, addr_clear]
      by_cases hk : k = l.castSucc
      · rw [if_pos hk, ite_self, if_pos ⟨l, List.mem_cons_self, hk⟩]
      · simp only [List.mem_cons, exists_eq_or_imp, hk, false_or, if_false]

theorem freeEntries_spec {blk : Block} (L : List (Fin NINDIRECT)) (hL : L.Nodup)
    (h : Exact A sb.datastart sb.size (bitAt sb d)) (hA : ∀ j ∈ L, A (i, .entry j) = entryAt blk j) :
    ∃ d', L.foldlM (freeEntry sb blk) d = .ok d' ∧
      Exact (fun p => if p.1 = i ∧ ∃ j ∈ L, p.2 = .entry j then 0 else A p) sb.datastart sb.size
        (bitAt sb d') ∧ SameBlocks sb d d' := by
  induction L generalizing d A with
  | nil =>
    refine ⟨d, rfl, ?_, SameBlocks.refl sb d⟩
    simp only [List.not_mem_nil, false_and, exists_false, and_false, if_false]
    exact h
  | cons j L ih =>
    obtain ⟨hj, hL⟩ := List.nodup_cons.mp hL
    obtain ⟨d₁, hrun, hexact, hs⟩ := bfree_if_spec (i, .entry j) h
    rw [hA j List.mem_cons_self] at hrun
    have hA₁ : ∀ l ∈ L, update A (i, .entry j) 0 (i, .entry l) = entryAt blk l := by
      intro l hl
      have hne : l ≠ j := fun heq => hj (heq ▸ hl)
      rw [update_of_ne (fun heq => hne (Slot.entry.inj (congrArg Prod.snd heq)))]
      exact hA l (List.mem_cons_of_mem _ hl)
    obtain ⟨d₂, hrun', hexact', hs'⟩ := ih hL hexact hA₁
    refine ⟨d₂, ?_, ?_, hs.trans hs'⟩
    · have hturn : freeEntry sb blk d j = .ok d₁ := hrun
      rw [List.foldlM_cons, hturn, ok_bind, hrun']
    convert hexact' using 1
    funext p
    obtain ⟨l, s⟩ := p
    by_cases hp : (l, s) = (i, Slot.entry j)
    · cases hp
      rw [update_self, ite_self, if_pos ⟨rfl, j, List.mem_cons_self, rfl⟩]
    · rw [update_of_ne hp]
      simp only [List.mem_cons, exists_eq_or_imp]
      have hnot : ¬(l = i ∧ s = Slot.entry j) := fun hc => hp (by rw [hc.1, hc.2])
      simp only [and_or_left, hnot, false_or]

theorem freeTable_spec (hi : i < sb.ninodes) (hlive : ip.type ≠ 0) (h : Owned sb d (within ino i ip)) :
    ∃ d', freeTable sb d ip = .ok (d', ip.setAddr tableIndex 0) ∧
      Owned sb d' (within ino i (ip.setAddr tableIndex 0)) ∧ SameBlocks sb d d' := by
  unfold freeTable
  by_cases hne : ip.addr tableIndex ≠ 0
  · have hentry : ∀ j ∈ List.finRange NINDIRECT, addrOf sb d (within ino i ip) (i, .entry j) =
        entryAt (d (ip.addr tableIndex)) j := by
      intro j _
      rw [addrOf_within_self hi hlive, slotAddr, if_neg hne]
    obtain ⟨d₁, hrun, hexact, hs⟩ := freeEntries_spec _ (List.nodup_finRange _) h hentry
    have htable : (if (i, Slot.table).1 = i ∧ ∃ j ∈ List.finRange NINDIRECT, (i, Slot.table).2 = .entry j
        then 0 else addrOf sb d (within ino i ip) (i, .table)) = ip.addr tableIndex := by
      rw [if_neg (by rintro ⟨-, j, -, hj⟩; cases hj), addrOf_within_self hi hlive]
      rfl
    obtain ⟨d₂, hrun', hexact', hs'⟩ := bfree_spec (p := (i, .table)) hexact (by rw [htable]; exact hne)
    rw [htable] at hrun'
    refine ⟨d₂, ?_, ?_, hs.trans hs'⟩
    · rw [if_pos hne, hrun, ok_bind, hrun']
      rfl
    apply Owned.of_exact _ (hs.trans hs')
    convert hexact' using 1
    funext p
    obtain ⟨l, s⟩ := p
    by_cases hl : l = i
    · subst hl
      have hlive' : (ip.setAddr tableIndex 0).type ≠ 0 := hlive
      rw [addrOf_within_self hi hlive']
      cases s with
      | direct k =>
        rw [update_of_ne (by simp),
          if_neg (by rintro ⟨-, j, -, hj⟩; cases hj), addrOf_within_self hi hlive, slotAddr,
          addr_clear, if_neg (castSucc_ne_table k)]
        rfl
      | table =>
        rw [update_self, slotAddr, addr_clear, if_pos rfl]
      | entry j =>
        rw [update_of_ne (by simp),
          if_pos ⟨rfl, j, List.mem_finRange j, rfl⟩, slotAddr, addr_clear, if_pos rfl, if_pos rfl]
    · rw [addrOf_within_of_ne _ hl, update_of_ne (fun heq => hl (congrArg Prod.fst heq)),
        if_neg (fun hc => hl hc.1), addrOf_within_of_ne _ hl]
  · rw [if_neg hne, setAddr_self (not_not.mp hne)]
    exact ⟨d, rfl, h, SameBlocks.refl sb d⟩

def Dinode.emptied (ip : Dinode) : Dinode := { ip with size := 0, addrs := fun _ => 0 }

theorem itrunc_spec (h : Owned sb d ino) (hi : i < sb.ninodes) (hlive : (ino i).type ≠ 0) :
    ∃ d', itrunc sb d i (ino i) = .ok (d', (ino i).emptied) ∧
      Owned sb d' (within ino i (ino i).emptied) ∧ (∀ a, sb.datastart ≤ a → d' a = d a) ∧
      ∀ j < sb.ninodes, loadInode sb d' j = if j = i then (ino i).emptied else loadInode sb d j := by
  have hsame : within ino i (ino i) = ino := update_eq_self _ _
  obtain ⟨d₁, ip₁, hdirect, howned, hs, hfields, haddr⟩ :=
    freeDirects_spec hi (List.finRange NDIRECT) hlive (by rw [hsame]; exact h)
  have hlive₁ : ip₁.type ≠ 0 := by
    rw [Dinode.type_of_fields hfields]
    exact hlive
  obtain ⟨d₂, htable, howned', hs'⟩ := freeTable_spec hi hlive₁ howned
  have hzero : ∀ k, (ip₁.setAddr tableIndex 0).addr k = 0 := by
    intro k
    rw [addr_clear]
    refine Fin.lastCases ?_ (fun l => ?_) k
    · exact if_pos rfl
    · rw [if_neg (castSucc_ne_table l), haddr, if_pos ⟨l, List.mem_finRange l, rfl⟩]
  have hempty : { ip₁.setAddr tableIndex 0 with size := 0 } = (ino i).emptied := by
    obtain ⟨htype, hmajor, hminor, hnlink, -⟩ := by simpa only [Dinode.fields, Prod.mk.injEq] using hfields
    refine Dinode.ext htype hmajor hminor hnlink rfl fun k => ?_
    exact UInt32.toNat_inj.mp (hzero k)
  have hss := hs.trans hs'
  refine ⟨iupdate sb d₂ i (ino i).emptied, ?_, ?_, ?_, ?_⟩
  · rw [itrunc, hdirect, ok_bind]
    dsimp only
    rw [htable, ok_bind]
    rw [hempty]
    rfl
  · rw [← hempty]
    exact (howned'.within_congr (by rfl) (by rfl)).putLow (sb.iblock_lt hi) _
  · intro a ha
    rw [iupdate, putLow_data (sb.iblock_lt hi) _ a ha, hss a (Or.inr ha)]
  · intro j hj
    rw [loadInode_iupdate]
    by_cases hji : j = i
    · rw [if_pos hji, if_pos hji]
    · rw [if_neg hji, if_neg hji, loadInode_low (fun a ha => hss a (Or.inl ha)) hj]

end Laboratorio.Fs
