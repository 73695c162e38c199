import Laboratorio.FsTrunc

/-! Well-formed disks: the positions of the inodes on the disk own their blocks as `Owned` says, and no
file has a hole below its size. `writei`, `itrunc`, `ialloc` and `iupdate` keep a disk well formed. -/

namespace Laboratorio.Fs

open Function

open Bytes

variable {sb : Layout} {d d' : Disk} {ino : Nat → Dinode} {i j o a : Nat}

structure WellFormed (sb : Layout) (d : Disk) : Prop where
  owned : Owned sb d (loadInode sb d)
  full : ∀ i < sb.ninodes, (loadInode sb d i).type ≠ 0 →
    ∀ o < (loadInode sb d i).size.toNat, Mapped sb d (loadInode sb d) i o

def contents (sb : Superblock) (d : Disk) (i : Nat) : List UInt8 :=
  (List.range (loadInode sb d i).size.toNat).map (fileByte sb d (loadInode sb d) i)

/-- From `d` to `d'` inode `i` has become `ip`, and no other file has changed. -/
structure Replaces (sb : Layout) (d d' : Disk) (i : Nat) (ip : Dinode) : Prop where
  owned : Owned sb d' (within (loadInode sb d) i ip)
  inodes : ∀ j < sb.ninodes, loadInode sb d' j = if j = i then ip else loadInode sb d j
  others : ∀ j o, j ≠ i → Mapped sb d (loadInode sb d) j o →
    Mapped sb d' (within (loadInode sb d) i ip) j o ∧
      fileByte sb d' (within (loadInode sb d) i ip) j o = fileByte sb d (loadInode sb d) j o

namespace Replaces

variable {ip : Dinode} (r : Replaces sb d d' i ip)

include r

theorem addrOf_eq : addrOf sb d' (loadInode sb d') = addrOf sb d' (within (loadInode sb d) i ip) := by
  apply addrOf_congr_ino
  intro l hl
  rw [r.inodes l hl, within, update_apply]

theorem mapped_iff : Mapped sb d' (loadInode sb d') j o ↔ Mapped sb d' (within (loadInode sb d) i ip) j o := by
  rw [Mapped, r.addrOf_eq, Mapped]

theorem fileByte_eq : fileByte sb d' (loadInode sb d') j o = fileByte sb d' (within (loadInode sb d) i ip) j o := by
  rw [fileByte, r.addrOf_eq, fileByte]

theorem loadInode_self (hi : i < sb.ninodes) : loadInode sb d' i = ip := by
  rw [r.inodes i hi, if_pos rfl]

theorem loadInode_of_ne (hj : j < sb.ninodes) (hne : j ≠ i) : loadInode sb d' j = loadInode sb d j := by
  rw [r.inodes j hj, if_neg hne]

theorem wellFormed (h : WellFormed sb d)
    (hfull : ip.type ≠ 0 → ∀ o < ip.size.toNat, Mapped sb d' (within (loadInode sb d) i ip) i o) :
    WellFormed sb d' := by
  constructor
  · unfold Owned
    rw [r.addrOf_eq]
    exact r.owned
  intro j hj hlive o ho
  rw [r.mapped_iff]
  by_cases hji : j = i
  · subst hji
    rw [r.loadInode_self hj] at hlive ho
    exact hfull hlive o ho
  · rw [r.loadInode_of_ne hj hji] at hlive ho
    exact (r.others j o hji (h.full j hj hlive o ho)).1

theorem contents_other (h : WellFormed sb d) (hj : j < sb.ninodes) (hlive : (loadInode sb d j).type ≠ 0)
    (hne : j ≠ i) : contents sb d' j = contents sb d j := by
  rw [contents, r.loadInode_of_ne hj hne, contents]
  apply List.map_congr_left
  intro o ho
  rw [r.fileByte_eq, (r.others j o hne (h.full j hj hlive o (List.mem_range.mp ho))).2]

end Replaces

/-! ### Stores into the inode table -/

variable {ip : Dinode}

theorem WellFormed.put (h : WellFormed sb d) (hi : i < sb.ninodes) {blk : Block}
    (hself : readDinode blk (i % IPB) = ip)
    (hother : ∀ k, k ≠ i % IPB → readDinode blk k = readDinode (d (sb.iblock i)) k)
    (haddr : addrOf sb d (within (loadInode sb d) i ip) = addrOf sb d (loadInode sb d)) :
    Replaces sb d (putBlock d (sb.iblock i) blk) i ip ∧ ∀ j o, Mapped sb d (loadInode sb d) j o →
        Mapped sb (putBlock d (sb.iblock i) blk) (within (loadInode sb d) i ip) j o ∧
        fileByte sb (putBlock d (sb.iblock i) blk) (within (loadInode sb d) i ip) j o =
        fileByte sb d (loadInode sb d) j o := by
  have howned : Owned sb d (within (loadInode sb d) i ip) := by
    unfold Owned
    rw [haddr]
    exact h.owned
  have hkept : ∀ j o, Mapped sb d (loadInode sb d) j o →
      Mapped sb (putBlock d (sb.iblock i) blk) (within (loadInode sb d) i ip) j o ∧
        fileByte sb (putBlock d (sb.iblock i) blk) (within (loadInode sb d) i ip) j o =
          fileByte sb d (loadInode sb d) j o := by
    intro j o hm
    have hm' : Mapped sb d (within (loadInode sb d) i ip) j o := ⟨hm.1, by rw [haddr]; exact hm.2⟩
    obtain ⟨hmapped, hbyte⟩ := fileByte_congr_data howned (putLow_data (sb.iblock_lt hi) blk) hm'
    refine ⟨hmapped, ?_⟩
    rw [hbyte, fileByte, haddr, fileByte]
  exact ⟨⟨howned.putLow (sb.iblock_lt hi) blk, fun j _ => loadInode_put hself hother j,
    fun j o _ hm => hkept j o hm⟩, hkept⟩

theorem WellFormed.iupdate (h : WellFormed sb d) (hi : i < sb.ninodes)
    (htype : ip.type = (loadInode sb d i).type) (haddrs : ip.addrs = (loadInode sb d i).addrs) :
    Replaces sb d (iupdate sb d i ip) i ip ∧ ∀ j o, Mapped sb d (loadInode sb d) j o →
        Mapped sb (Fs.iupdate sb d i ip) (within (loadInode sb d) i ip) j o ∧
        fileByte sb (Fs.iupdate sb d i ip) (within (loadInode sb d) i ip) j o = fileByte sb d (loadInode sb d) j o := by
  apply h.put hi (readDinode_writeDinode _ (Nat.mod_lt i (by decide)) ip)
    (fun _ hk => readDinode_writeDinode_of_ne _ hk ip)
  rw [addrOf_within_congr htype haddrs, within, update_eq_self]

theorem addrOf_within_blank (hfree : (ino i).type = 0) (hip : ip.addrs = fun _ => 0) :
    addrOf sb d (within ino i ip) = addrOf sb d ino := by
  have haddr : ∀ k, ip.addr k = 0 := fun k => by rw [Dinode.addr, hip]; rfl
  have hslot : ∀ s, slotAddr d ip s = 0 := by
    intro s
    cases s with
    | direct k => exact haddr k.castSucc
    | table => exact haddr tableIndex
    | entry l => rw [slotAddr, if_pos (haddr tableIndex)]
  funext p
  by_cases hp : p.1 = i
  · have hnew : addrOf sb d (within ino i ip) p = 0 := by
      unfold addrOf
      split
      · rw [hp, within, update_self, hslot]
      · rfl
    rw [hnew, addrOf, if_neg (fun hc => hc.2 (by rw [hp, hfree]))]
  · exact addrOf_within_of_ne _ hp

theorem ialloc_spec (h : WellFormed sb d) {type : UInt16} (hrun : ialloc sb d type = .ok (i, d')) :
    i < sb.ninodes ∧ i ≠ 0 ∧ (loadInode sb d i).type = 0 ∧ Replaces sb d d' i (Dinode.blank type) := by
  unfold ialloc at hrun
  split at hrun
  · rename_i k hfind
    cases hrun
    have hmem := List.mem_range'_1.mp (List.mem_of_find?_eq_some hfind)
    have hfound := List.find?_some hfind
    have hfree : (loadInode sb d i).type = 0 := of_decide_eq_true hfound
    have hi : i < sb.ninodes := by omega
    refine ⟨hi, by omega, hfree, ?_⟩
    exact (h.put hi (readDinode_blankDinode _ (Nat.mod_lt i (by decide)) type)
      (fun _ hk => readDinode_blankDinode_of_ne _ hk type) (addrOf_within_blank hfree rfl)).1
  · cases hrun

/-! ### Freeing an inode -/

/-- What `iput` leaves of an inode that it frees. -/
def Dinode.freed (ip : Dinode) : Dinode := { ip.emptied with type := 0 }

theorem ifree_spec (h : WellFormed sb d) (hi : i < sb.ninodes) (hlive : (loadInode sb d i).type ≠ 0) :
    ∃ d₁, itrunc sb d i (loadInode sb d i) = .ok (d₁, (loadInode sb d i).emptied) ∧
      Replaces sb d (iupdate sb d₁ i (loadInode sb d i).freed) i (loadInode sb d i).freed := by
  obtain ⟨d₁, hrun, howned, hdata, hinodes⟩ := itrunc_spec h.owned hi hlive
  refine ⟨d₁, hrun, ?_⟩
  unfold Dinode.freed
  generalize hip : (loadInode sb d i).emptied = ip at *
  have haddrs : ip.addrs = fun _ => 0 := by rw [← hip]; rfl
  -- The emptied inode owns nothing, so its type does not matter.
  have hsame : ∀ p, addrOf sb d₁ (within (loadInode sb d) i { ip with type := 0 }) p =
      addrOf sb d₁ (within (loadInode sb d) i ip) p := by
    intro p
    have hfree : (within (loadInode sb d) i { ip with type := 0 } i).type = 0 := by
      rw [within, update_self]
    have hblank : addrOf sb d₁ (within (within (loadInode sb d) i { ip with type := 0 }) i ip) =
        addrOf sb d₁ (within (loadInode sb d) i { ip with type := 0 }) := addrOf_within_blank hfree haddrs
    rw [within, within, update_idem] at hblank
    rw [within, within, hblank]
  have howned' : Owned sb d₁ (within (loadInode sb d) i { ip with type := 0 }) := by
    unfold Owned
    rw [funext hsame]
    exact howned
  have hlow := sb.iblock_lt hi
  refine ⟨howned'.putLow hlow _, ?_, ?_⟩
  · intro j hj
    rw [loadInode_iupdate]
    by_cases hji : j = i
    · rw [if_pos hji, if_pos hji]
    · rw [if_neg hji, if_neg hji, hinodes j hj, if_neg hji]
  · intro j o hji hm
    have hm₁ := fileByte_congr_data h.owned hdata hm
    have haddr : addrOf sb d₁ (within (loadInode sb d) i { ip with type := 0 }) (spot j o) =
        addrOf sb d₁ (loadInode sb d) (spot j o) := addrOf_within_of_ne _ hji
    have hm₂ : Mapped sb d₁ (within (loadInode sb d) i { ip with type := 0 }) j o :=
      ⟨hm.1, by rw [haddr]; exact hm₁.1.2⟩
    obtain ⟨hmapped, hbyte⟩ := fileByte_congr_data howned' (putLow_data hlow _) hm₂
    refine ⟨hmapped, ?_⟩
    rw [Fs.iupdate, hbyte, ← hm₁.2, fileByte, haddr, fileByte]

/-! ### Writing -/

variable {src : List UInt8}

theorem writeLoop_same {fuel off : Nat} {ip' : Dinode} (h : Owned sb d ino)
    (hi : i < sb.ninodes) (hlive : (ino i).type ≠ 0) (hm : ∀ o, off ≤ o → o < off + src.length → Mapped sb d ino i o)
    (hrun : writeLoop sb fuel d (ino i) off src = .ok (d', ip')) : ip' = ino i := by
  induction fuel generalizing d off src with
  | zero =>
    cases hrun
    rfl
  | succ fuel ih =>
    rw [writeLoop] at hrun
    split at hrun
    · cases hrun
      rfl
    rename_i hne
    have hlen : src.length ≠ 0 := fun hzero => hne (List.length_eq_zero_iff.mp hzero)
    have hle : min src.length (BSIZE - off % BSIZE) ≤ src.length := Nat.min_le_left _ _
    have hslot : addrOf sb d ino (spot i off) = slotAddr d (ino i) (blockSlot (off / BSIZE)) :=
      addrOf_eq hi hlive _
    obtain ⟨hbn, haddr⟩ := hm off (Nat.le_refl _) (by omega)
    have hbmap : bmap sb d (ino i) (off / BSIZE) =
        .ok (slotAddr d (ino i) (blockSlot (off / BSIZE)), d, ino i) :=
      bmap_mapped hbn (by rw [← hslot]; exact haddr)
    obtain ⟨hchunk, -⟩ := chunk_writes h hi hlive hbmap (chunk_le src.length off)
      (fun o => src.getD (o - off) 0)
    rw [hbmap, ok_bind] at hrun
    generalize min src.length (BSIZE - off % BSIZE) = m at *
    simp only [Nat.add_sub_cancel_left, within, update_eq_self] at hchunk
    refine ih hchunk.owned (fun o hlo hhi => ?_) hrun
    rw [List.length_drop] at hhi
    exact hchunk.keeps_mapped (hm o (by omega) (by omega))

/-- What `writei` turns down. -/
def rejectsWrite (size off n : Nat) : Prop := size < off ∨ 2 ^ 32 ≤ off + n ∨ MAXFILE * BSIZE < off + n

instance (size off n : Nat) : Decidable (rejectsWrite size off n) :=
  inferInstanceAs (Decidable (_ ∨ _ ∨ _))

/-- What an accepted `writei` of `src` at `off` does to inode `i`. -/
structure Overwrites (sb : Layout) (d d' : Disk) (i : Nat) (ip : Dinode) (off : Nat) (src : List UInt8) :
    Prop where
  replaces : Replaces sb d d' i ip
  type : ip.type = (loadInode sb d i).type
  nlink : ip.nlink = (loadInode sb d i).nlink
  major : ip.major = (loadInode sb d i).major
  minor : ip.minor = (loadInode sb d i).minor
  size : ip.size.toNat = max (loadInode sb d i).size.toNat (off + src.length)
  full : ∀ o < ip.size.toNat, Mapped sb d' (within (loadInode sb d) i ip) i o
  bytes : ∀ o < ip.size.toNat, fileByte sb d' (within (loadInode sb d) i ip) i o =
    if off ≤ o ∧ o < off + src.length then src.getD (o - off) 0 else fileByte sb d (loadInode sb d) i o

theorem Writes.overwrites {d₁ : Disk} {ip₁ : Dinode} {off : Nat}
    (h : WellFormed sb d) (hi : i < sb.ninodes) (hlive : (loadInode sb d i).type ≠ 0)
    (hoff : off ≤ (loadInode sb d i).size.toNat)
    (hw : Writes sb d (loadInode sb d) d₁ (within (loadInode sb d) i ip₁) i off (off + src.length)
      (fun o => src.getD (o - off) 0))
    (hfields : ip₁.fields = (loadInode sb d i).fields) (hip : ip = { ip₁ with size := ip.size })
    (hsize : ip.size.toNat = max (loadInode sb d i).size.toNat (off + src.length))
    (howned : Owned sb d' (within (loadInode sb d) i ip)) (hdata : ∀ a, sb.datastart ≤ a → d' a = d₁ a)
    (hinodes : ∀ j < sb.ninodes, loadInode sb d' j = if j = i then ip else loadInode sb d j) :
    Overwrites sb d d' i ip off src := by
  have hsame : addrOf sb d₁ (within (loadInode sb d) i ip) = addrOf sb d₁ (within (loadInode sb d) i ip₁) := by
    rw [hip]
    exact addrOf_within_congr rfl rfl
  have hmove : ∀ {l o}, Mapped sb d₁ (within (loadInode sb d) i ip₁) l o →
      Mapped sb d' (within (loadInode sb d) i ip) l o ∧ fileByte sb d' (within (loadInode sb d) i ip) l o =
        fileByte sb d₁ (within (loadInode sb d) i ip₁) l o := by
    intro l o hm
    have howned₁ : Owned sb d₁ (within (loadInode sb d) i ip) := by
      rw [hip]
      exact hw.owned.within_congr rfl rfl
    have hm₁ : Mapped sb d₁ (within (loadInode sb d) i ip) l o := ⟨hm.1, by rw [hsame]; exact hm.2⟩
    obtain ⟨hmapped, hbyte⟩ := fileByte_congr_data howned₁ hdata hm₁
    refine ⟨hmapped, ?_⟩
    rw [hbyte, fileByte, hsame, fileByte]
  have hfull : ∀ o < ip.size.toNat, Mapped sb d₁ (within (loadInode sb d) i ip₁) i o ∧
      fileByte sb d₁ (within (loadInode sb d) i ip₁) i o =
        if off ≤ o ∧ o < off + src.length then src.getD (o - off) 0
        else fileByte sb d (loadInode sb d) i o := by
    intro o ho
    by_cases hin : off ≤ o ∧ o < off + src.length
    · rw [if_pos hin]
      exact hw.mapped o hin.1 hin.2
    · have hold : Mapped sb d (loadInode sb d) i o := h.full i hi hlive o (by omega)
      rw [if_neg hin, hw.bytes i o hold, if_neg (fun hc => hin hc.2)]
      exact ⟨hw.keeps_mapped hold, rfl⟩
  have hmeta : ip₁.type = (loadInode sb d i).type ∧ ip₁.major = (loadInode sb d i).major ∧
      ip₁.minor = (loadInode sb d i).minor ∧ ip₁.nlink = (loadInode sb d i).nlink ∧
      ip₁.size = (loadInode sb d i).size := by
    simpa only [Dinode.fields, Prod.mk.injEq] using hfields
  obtain ⟨htype, hmajor, hminor, hnlink, -⟩ := hmeta
  refine ⟨⟨howned, hinodes, ?_⟩, ?_, ?_, ?_, ?_, hsize, ?_, ?_⟩
  · intro j o hji hm
    have hmoved := hmove (hw.keeps_mapped hm)
    refine ⟨hmoved.1, ?_⟩
    rw [hmoved.2, hw.bytes j o hm, if_neg (fun hc => hji hc.1)]
  · rw [hip]
    exact htype
  · rw [hip]
    exact hnlink
  · rw [hip]
    exact hmajor
  · rw [hip]
    exact hminor
  · intro o ho
    exact (hmove (hfull o ho).1).1
  · intro o ho
    rw [(hmove (hfull o ho).1).2, (hfull o ho).2]

theorem rejectsWrite_not {size off n : Nat} (h : ¬rejectsWrite size off n) :
    off ≤ size ∧ off + n < 2 ^ 32 ∧ off + n ≤ MAXFILE * BSIZE := by
  simpa only [rejectsWrite, not_or, not_lt, not_le] using h

/-- `writei` on a file: the sums are those of numbers, since a write that would wrap is turned down. -/
theorem writei_eq (dev : Devices) {off : UInt32} (htype : ip.type ≠ T_DEV)
    (hsrc : src.length < 2 ^ 32) :
    writei sb dev d i ip src off =
      if rejectsWrite ip.size.toNat off.toNat src.length then .ok (-1, d, ip)
      else writeLoop sb src.length d ip off.toNat src >>= fun (d, ip) =>
        if 0 < src.length ∧ ip.size.toNat < off.toNat + src.length then
          .ok ((src.length : Int), iupdate sb d i { ip with size := off + UInt32.ofNat src.length },
            { ip with size := off + UInt32.ofNat src.length })
        else .ok ((src.length : Int), d, ip) := by
  have hn : (UInt32.ofNat src.length).toNat = src.length := UInt32.toNat_ofNat_of_lt' hsrc
  unfold writei
  rw [if_neg htype]
  simp only [gt_iff_lt, UInt32.lt_iff_toNat_lt (a := ip.size), add_lt_iff, hn]
  by_cases hreject : ip.size.toNat < off.toNat ∨ 2 ^ 32 ≤ off.toNat + src.length
  · have hturned : rejectsWrite ip.size.toNat off.toNat src.length := hreject.imp_right Or.inl
    rw [if_pos hreject, if_pos hturned]
    rfl
  rw [if_neg hreject]
  rw [not_or, not_lt, not_le] at hreject
  have hend : (off + UInt32.ofNat src.length).toNat = off.toNat + src.length := by
    rw [UInt32.toNat_add, hn, Nat.mod_eq_of_lt hreject.2]
  rw [hend]
  by_cases hbig : MAXFILE * BSIZE < off.toNat + src.length
  · have hturned : rejectsWrite ip.size.toNat off.toNat src.length := Or.inr (Or.inr hbig)
    rw [if_pos hbig, if_pos hturned]
    rfl
  have haccept : ¬rejectsWrite ip.size.toNat off.toNat src.length := by
    rintro (hc | hc | hc) <;> omega
  rw [if_neg hbig, if_neg haccept]
  simp only [UInt32.lt_iff_toNat_lt, hn, hend, UInt32.toNat_zero]
  rfl

theorem writei_spec {dev : Devices} {off : UInt32} {r : Int}
    (h : WellFormed sb d) (hi : i < sb.ninodes) (hlive : (loadInode sb d i).type ≠ 0)
    (htype : (loadInode sb d i).type ≠ T_DEV) (hsrc : src.length < 2 ^ 32)
    (hrun : writei sb dev d i (loadInode sb d i) src off = .ok (r, d', ip)) :
    (rejectsWrite (loadInode sb d i).size.toNat off.toNat src.length ∧ r = -1 ∧ d' = d ∧ ip = loadInode sb d i) ∨
    (¬rejectsWrite (loadInode sb d i).size.toNat off.toNat src.length ∧
      r = src.length ∧ Overwrites sb d d' i ip off.toNat src) := by
  rw [writei_eq dev htype hsrc] at hrun
  split at hrun
  · rename_i hreject
    cases hrun
    exact Or.inl ⟨hreject, rfl, rfl, rfl⟩
  rename_i haccept
  refine Or.inr ⟨haccept, ?_⟩
  obtain ⟨hoff, hwrap, -⟩ := rejectsWrite_not haccept
  have hend : (off + UInt32.ofNat src.length).toNat = off.toNat + src.length := by
    rw [UInt32.toNat_add, UInt32.toNat_ofNat_of_lt' hsrc, Nat.mod_eq_of_lt hwrap]
  obtain ⟨⟨d₁, ip₁⟩, hloop, hrun⟩ := bind_eq_ok hrun
  obtain ⟨hw, hfields⟩ := writeLoop_writes (Nat.le_refl _) h.owned hi hlive hloop
  have hsize₁ : ip₁.size = (loadInode sb d i).size := congrArg (fun f => f.2.2.2.2) hfields
  dsimp only at hrun
  rw [hsize₁] at hrun
  split at hrun
  · rename_i hgrow
    cases hrun
    refine ⟨rfl, hw.overwrites h hi hlive hoff hfields rfl (by rw [hend]; omega)
      ((hw.owned.within_congr (by rfl) (by rfl)).putLow (sb.iblock_lt hi) _) (putLow_data (sb.iblock_lt hi) _) ?_⟩
    intro j hj
    rw [loadInode_iupdate, loadInode_low hw.low hj]
  · rename_i hstay
    cases hrun
    have hstay' : off.toNat + src.length ≤ (loadInode sb d i).size.toNat := by
      omega
    have hip : ip = loadInode sb d i :=
      writeLoop_same h.owned hi hlive (fun o _ hhi => h.full i hi hlive o (by omega)) hloop
    refine ⟨rfl, hw.overwrites h hi hlive hoff hfields rfl (by rw [hsize₁]; omega) hw.owned
      (fun _ _ => rfl) ?_⟩
    intro j hj
    rw [loadInode_low hw.low hj, hip]
    split
    · rename_i hji
      rw [hji]
    · rfl

end Laboratorio.Fs
