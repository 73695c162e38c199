import Mathlib.Algebra.BigOperators.Group.Finset.Basic
import Mathlib.Order.Interval.Finset.Nat
import Laboratorio.MkfsKernel

/-! A run of `mkfs`. The files made so far are byte arrays, as for the kernel; `iappend` adds at the end of one
of them, and the blocks taken are at most those of the sizes. The image is what the kernel would have
written, but for the size of the root directory. -/

namespace Laboratorio.Mkfs

open Function

open Fs Bytes

theorem zeroed_eq :
    zeroed = { block := fun _ => zeroBlock, len := FSSIZE, freeinode := 1, freeblock := nmeta } := by
  have hloop : ∀ n, (List.range n).foldl (fun s i => wsect s i zeroBlock)
      { block := fun _ => zeroBlock, len := 0, freeinode := 1, freeblock := nmeta } =
      { block := fun _ => zeroBlock, len := n, freeinode := 1, freeblock := nmeta } := by
    intro n
    induction n with
    | zero => rfl
    | succ n ih =>
      rw [List.range_succ, List.foldl_append, ih]
      have hsame : putBlock (fun _ => zeroBlock) n zeroBlock = fun _ => zeroBlock :=
        update_eq_self n fun _ : Nat => zeroBlock
      have hlen : max n (n + 1) = n + 1 := by omega
      change Image.mk (putBlock (fun _ => zeroBlock) n zeroBlock) (max n (n + 1)) 1 nmeta = _
      rw [hsame, hlen]
  unfold zeroed
  exact hloop FSSIZE

/-! ### The next inode -/

theorem rsect_ends (s : Image) (sec : Nat) : Ends (fun _ => True) (rsect s sec) fun _ => True := by
  unfold rsect
  split
  · exact .ok trivial
  · exact .stop trivial

theorem fetchAddr_freeinode (s : Image) (din : Dinode) (k : Fin (NDIRECT + 1)) :
    Ends (fun _ => True) (fetchAddr s din k) fun f => f.2.2.1.freeinode = s.freeinode := by
  unfold fetchAddr
  by_cases hnew : din.addr k = 0
  · rw [if_pos hnew]
    exact (rsect_ends _ _).bind fun _ _ => .ok rfl
  · rw [if_neg hnew]
    exact (rsect_ends _ _).bind fun _ _ => .ok rfl

theorem fetchEntry_freeinode (s : Image) (din : Dinode) (t : Nat) (indirect : Block) (j : Nat) :
    Ends (fun _ => True) (fetchEntry s din t indirect j) fun f => f.2.2.1.freeinode = s.freeinode := by
  unfold fetchEntry
  by_cases hnew : entryAt indirect j = 0
  · rw [if_pos hnew]
    exact (rsect_ends _ _).bind fun _ _ => .ok rfl
  · rw [if_neg hnew]
    exact (rsect_ends _ _).bind fun _ _ => .ok rfl

theorem fetch_freeinode (s : Image) (din : Dinode) (fbn : Nat) :
    Ends (fun _ => True) (fetch s din fbn) fun f => f.2.2.1.freeinode = s.freeinode := by
  unfold fetch
  split
  · exact fetchAddr_freeinode s din _
  · refine (fetchAddr_freeinode s din tableIndex).bind ?_
    rintro ⟨t, indirect, s₁, din⟩ hsame
    exact (fetchEntry_freeinode s₁ din t indirect _).mono fun f hf => hf.trans hsame

theorem appendLoop_freeinode (fuel : Nat) (s : Image) (din : Dinode) (off : Nat) (p : List UInt8) :
    Ends (fun _ => True) (appendLoop fuel s din off p) fun r => r.1.freeinode = s.freeinode := by
  induction fuel generalizing s din off p with
  | zero => exact .ok rfl
  | succ fuel ih =>
    rw [appendLoop]
    split
    · exact .ok rfl
    · split
      · refine (fetch_freeinode s din _).bind ?_
        rintro ⟨x, buf, s₁, din⟩ hsame
        exact (ih _ din _ _).mono fun r hr => hr.trans hsame
      · exact .stop trivial

section

variable (s : Image)

theorem winode_freeinode (i : Nat) (ip : Dinode) :
    Ends (fun _ => True) (winode s i ip) fun s' => s'.freeinode = s.freeinode :=
  (rsect_ends s _).bind fun _ _ => .ok rfl

theorem rinode_ends (i : Nat) : Ends (fun _ => True) (rinode s i) fun _ => True :=
  (rsect_ends s _).bind fun _ _ => .ok trivial

theorem iappend_freeinode (i : Nat) (p : List UInt8) :
    Ends (fun _ => True) (iappend s i p) fun s' => s'.freeinode = s.freeinode := by
  refine (rinode_ends s i).bind fun din _ => (appendLoop_freeinode _ s din _ p).bind ?_
  rintro ⟨s₁, din, off⟩ hsame
  exact (winode_freeinode s₁ i _).mono fun s' hs' => hs'.trans hsame

theorem ialloc_freeinode (type : UInt16) :
    Ends (fun _ => True) (ialloc s type) fun r => r.1 = s.freeinode ∧ r.2.freeinode = s.freeinode + 1 :=
  (winode_freeinode _ _ _).bind fun _ hs => .ok ⟨rfl, hs⟩

theorem addFile_freeinode (f : HostFile) :
    Ends (fun _ => True) (addFile s f) fun s' => s'.freeinode = s.freeinode + 1 := by
  unfold addFile
  split
  · exact .stop trivial
  split
  · exact .stop trivial
  · refine (ialloc_freeinode s T_FILE).bind ?_
    rintro ⟨inum, s₁⟩ ⟨-, hnext⟩
    refine (iappend_freeinode s₁ ROOTINO _).bind fun s₂ hs₂ => ?_
    refine Ends.foldlM (fun s' c hs' => ?_) _
      (hs₂.trans hnext)
    exact (iappend_freeinode s' inum c).mono fun s'' hs'' => hs''.trans hs'

theorem addFiles_freeinode (files : List HostFile) :
    Ends (fun _ => True) (files.foldlM addFile s) fun s' => s'.freeinode = s.freeinode + files.length := by
  induction files generalizing s with
  | nil => exact .ok rfl
  | cons f files ih =>
    rw [List.foldlM_cons]
    refine (addFile_freeinode s f).bind fun s₁ hs₁ => (ih s₁).mono fun s' hs' => ?_
    rw [hs', hs₁, List.length_cons]
    omega

theorem makeRoot_freeinode :
    Ends (fun _ => True) (makeRoot s) fun s' => s'.freeinode = s.freeinode + 1 := by
  refine (ialloc_freeinode s T_DIR).bind ?_
  rintro ⟨rootino, s₁⟩ ⟨-, hnext⟩
  dsimp only at hnext ⊢
  split
  · exact .stop trivial
  · refine (iappend_freeinode s₁ rootino _).bind fun s₂ hs₂ => ?_
    exact (iappend_freeinode s₂ rootino _).mono fun s₃ hs₃ => hs₃.trans (hs₂.trans hnext)

theorem fixRoot_freeinode :
    Ends (fun _ => True) (fixRoot s) fun s' => s'.freeinode = s.freeinode :=
  (rinode_ends s ROOTINO).bind fun _ _ => winode_freeinode s ROOTINO _

end

theorem mkfs_freeinode (files : List HostFile) :
    Ends (fun _ => True) (mkfs files) fun s => s.freeinode = files.length + 2 := by
  rw [mkfs, zeroed_eq]
  refine (makeRoot_freeinode _).bind fun s₁ hs₁ => (addFiles_freeinode s₁ files).bind fun s₂ hs₂ =>
    (fixRoot_freeinode s₂).bind fun s₃ hs₃ => ?_
  unfold balloc
  split
  · refine .ok ?_
    change s₃.freeinode = _
    rw [hs₃, hs₂, hs₁]
    change 1 + 1 + files.length = _
    omega
  · exact .stop trivial

/-! ### The files made so far -/

def kind (i : Nat) : UInt16 := if i = ROOTINO then T_DIR else T_FILE

theorem kind_ne_zero (i : Nat) : kind i ≠ 0 := by
  unfold kind
  split <;> decide

/-- An inode number that `ialloc` has handed out. -/
def Taken (s : Image) (i : Nat) : Prop := 0 < i ∧ i < s.freeinode

instance (s : Image) (i : Nat) : Decidable (Taken s i) := inferInstanceAs (Decidable (_ ∧ _))

/-- The image has the bytes `A` in its files. -/
structure Built (s : Image) (A : Arrays) : Prop where
  orderly : Orderly s
  wellFormed : WellFormed mkfsLayout s.disk
  type : ∀ i < NINODES, (loadInode mkfsLayout s.disk i).type = if Taken s i then kind i else 0
  nlink : ∀ i < NINODES, Taken s i → (loadInode mkfsLayout s.disk i).nlink = 1
  contents : ∀ i < NINODES, Taken s i → contents mkfsLayout s.disk i = A i
  blank : ∀ i, ¬Taken s i → A i = []
  snug : Snug (loadInode mkfsLayout s.disk ROOTINO)

namespace Built

variable {s s' : Image} {A : Arrays} {i : Nat} {p : List UInt8}

section

variable (h : Built s A) (hi : i < NINODES) (htaken : Taken s i)

include h hi htaken

theorem live :
    (loadInode mkfsLayout s.disk i).type = kind i ∧ (loadInode mkfsLayout s.disk i).type ≠ 0 := by
  have htype := h.type i hi
  rw [if_pos htaken] at htype
  rw [htype]
  exact ⟨rfl, kind_ne_zero i⟩

theorem size_eq :
    (loadInode mkfsLayout s.disk i).size.toNat = (A i).length := by
  rw [← h.contents i hi htaken, length_contents]

theorem append (hrun : iappend s i p = .ok s') :
    Built s' (update A i (A i ++ p)) := by
  have hfree : s'.freeinode = s.freeinode := (iappend_freeinode s i p).of_ok hrun
  have hsame : ∀ j, Taken s' j ↔ Taken s j := by
    intro j
    unfold Taken
    rw [hfree]
  obtain ⟨htype, hlive⟩ := h.live hi htaken
  obtain ⟨hord, ip, hover, hsnug⟩ := iappend_spec h.orderly h.wellFormed hi hlive hrun
  have hload := hover.replaces.inodes
  refine ⟨hord, hover.replaces.wellFormed h.wellFormed fun _ o ho => hover.full o ho, fun j hj => ?_,
    fun j hj hjtaken => ?_, fun j hj hjtaken => ?_, fun j hj => ?_, ?_⟩
  · rw [hload j hj]
    split
    · rename_i hji
      rw [hover.type, htype, hji, if_pos ((hsame i).mpr htaken)]
    · rw [h.type j hj]
      simp only [hsame]
  · rw [hsame] at hjtaken
    rw [hload j hj]
    split
    · rw [hover.nlink, h.nlink i hi htaken]
    · exact h.nlink j hj hjtaken
  · rw [hsame] at hjtaken
    by_cases hji : j = i
    · subst hji
      have hsize : (loadInode mkfsLayout s.disk j).size.toNat = (Fs.contents mkfsLayout s.disk j).length :=
        (length_contents _ _ _).symm
      rw [hover.contents_eq hj (le_refl _), hsize, overwrite_end, h.contents j hj htaken,
        update_self]
    · rw [hover.replaces.contents_other h.wellFormed hj (h.live hj hjtaken).2 hji, h.contents j hj hjtaken,
        update_of_ne hji]
  · rw [hsame] at hj
    have hji : j ≠ i := by
      rintro rfl
      exact hj htaken
    rw [update_of_ne hji, h.blank j hj]
  · rw [hload ROOTINO (by decide)]
    split
    · rename_i hroot
      apply hsnug
      rw [← hroot]
      exact h.snug
    · exact h.snug

end

theorem alloc (h : Built s A) (hpos : 0 < s.freeinode) (hlt : s.freeinode < NINODES) :
    ∃ s', ialloc s (kind s.freeinode) = .ok (s.freeinode, s') ∧ Built s' A ∧ s'.freeinode = s.freeinode + 1 ∧
      freeBlocks mkfsLayout s'.disk = freeBlocks mkfsLayout s.disk := by
  have hord : Orderly { s with freeinode := s.freeinode + 1 } :=
    ⟨h.orderly.super, h.orderly.len, h.orderly.lo, h.orderly.hi, h.orderly.fresh⟩
  obtain ⟨s', hput, hord', hdisk⟩ := winode_eq hord hlt { Dinode.blank (kind s.freeinode) with nlink := 1 }
  have hfree : s'.freeinode = s.freeinode + 1 := (winode_freeinode _ _ _).of_ok hput
  have hnot : ¬Taken s s.freeinode := fun hc => lt_irrefl _ hc.2
  have hzero : (loadInode mkfsLayout s.disk s.freeinode).type = 0 := by
    rw [h.type _ hlt, if_neg hnot]
  change s'.disk = iupdate mkfsLayout s.disk s.freeinode _ at hdisk
  have hload : ∀ j, loadInode mkfsLayout s'.disk j = if j = s.freeinode then
      { Dinode.blank (kind s.freeinode) with nlink := 1 } else loadInode mkfsLayout s.disk j := by
    intro j
    rw [hdisk, loadInode_iupdate]
  have hrep : Replaces mkfsLayout s.disk s'.disk s.freeinode { Dinode.blank (kind s.freeinode) with nlink := 1 } := by
    rw [hdisk]
    exact (h.wellFormed.put hlt (readDinode_writeDinode _ (Nat.mod_lt _ (by decide)) _)
      (fun _ hk => readDinode_writeDinode_of_ne _ hk _) (addrOf_within_blank hzero rfl)).1
  have hsame : ∀ j, j ≠ s.freeinode → (Taken s' j ↔ Taken s j) := by
    intro j hj
    unfold Taken
    rw [hfree]
    omega
  have hself : Taken s' s.freeinode := ⟨hpos, by omega⟩
  refine ⟨s', ?_, ⟨hord', hrep.wellFormed h.wellFormed fun _ o ho => ?_, fun j hj => ?_, fun j hj hjtaken => ?_,
    fun j hj hjtaken => ?_, fun j hj => ?_, ?_⟩, hfree, ?_⟩
  · rw [ialloc]
    rw [hput]
    rfl
  · exact absurd ho (Nat.not_lt_zero o)
  · rw [hload j]
    by_cases hjs : j = s.freeinode
    · rw [if_pos hjs, hjs, if_pos hself]
      rfl
    · rw [if_neg hjs, h.type j hj]
      simp only [hsame j hjs]
  · rw [hload j]
    split
    · rfl
    · rename_i hjs
      exact h.nlink j hj ((hsame j hjs).mp hjtaken)
  · by_cases hjs : j = s.freeinode
    · rw [hjs, h.blank _ hnot]
      apply List.length_eq_zero_iff.mp
      rw [length_contents, hload, if_pos rfl]
      rfl
    · have htaken := (hsame j hjs).mp hjtaken
      rw [hrep.contents_other h.wellFormed hj (h.live hj htaken).2 hjs, h.contents j hj htaken]
  · apply h.blank
    intro hc
    have hjs : j ≠ s.freeinode := by
      rintro rfl
      exact hnot hc
    exact hj ((hsame j hjs).mpr hc)
  · rw [hload]
    split
    · exact fun _ _ => rfl
    · exact h.snug
  · rw [hdisk, iupdate, freeBlocks_put (Or.inl (mkfsLayout.iblock_lt hlt))]

theorem appends {chunks : List (List UInt8)} (h : Built s A) (hi : i < NINODES) (htaken : Taken s i)
    (hrun : chunks.foldlM (fun s c => iappend s i c) s = .ok s') :
    Built s' (update A i (A i ++ chunks.flatten)) := by
  induction chunks generalizing s A with
  | nil =>
    cases hrun
    rw [List.flatten_nil, List.append_nil, update_eq_self]
    exact h
  | cons c chunks ih =>
    rw [List.foldlM_cons] at hrun
    obtain ⟨s₁, hone, hrest⟩ := bind_eq_ok hrun
    have hfree : s₁.freeinode = s.freeinode := (iappend_freeinode s i c).of_ok hone
    have hall := ih (h.append hi htaken hone) ⟨htaken.1, by rw [hfree]; exact htaken.2⟩ hrest
    rw [update_self, update_idem, List.append_assoc] at hall
    rw [List.flatten_cons]
    exact hall

end Built

/-! ### Space -/

/-- The blocks of all files. -/
@[irreducible] def total (A : Arrays) : Nat := ∑ i ∈ Finset.range NINODES, blocksFor (A i).length

theorem total_empty : total (fun _ => []) = 0 := by
  unfold total
  exact Finset.sum_eq_zero fun _ _ => blocksFor_zero

theorem total_update (A : Arrays) {i : Nat} (hi : i < NINODES) (a : List UInt8) :
    total (update A i a) + blocksFor (A i).length = total A + blocksFor a.length := by
  have hmem : i ∈ Finset.range NINODES := Finset.mem_range.mpr hi
  have hothers : ∑ j ∈ (Finset.range NINODES).erase i, blocksFor (update A i a j).length =
      ∑ j ∈ (Finset.range NINODES).erase i, blocksFor (A j).length := by
    apply Finset.sum_congr rfl
    intro j hj
    rw [update_of_ne (Finset.ne_of_mem_erase hj)]
  unfold total
  rw [← Finset.add_sum_erase _ _ hmem, ← Finset.add_sum_erase (Finset.range NINODES)
    (fun j => blocksFor (A j).length) hmem, hothers, update_self]
  omega

theorem freeBlocks_disk (s : Image) : freeBlocks mkfsLayout s.disk = FSSIZE - s.freeblock := by
  have hfilter : freeUnits FSSIZE (bitAt mkfsLayout s.disk) = Finset.Ico s.freeblock FSSIZE := by
    ext b
    rw [freeUnits, Finset.mem_filter, Finset.mem_range, Finset.mem_Ico]
    constructor
    · rintro ⟨hlt, hclear⟩
      rw [bitAt_disk s hlt, decide_eq_false_iff_not, not_lt] at hclear
      exact ⟨hclear, hlt⟩
    · rintro ⟨hge, hlt⟩
      refine ⟨hlt, ?_⟩
      rw [bitAt_disk s hlt, decide_eq_false_iff_not, not_lt]
      exact hge
  exact (congrArg Finset.card hfilter).trans (Nat.card_Ico _ _)

namespace Built

variable {s s' : Image} {A : Arrays} {i : Nat} {p : List UInt8}

theorem append_total (h : Built s A) (hi : i < NINODES) (htaken : Taken s i)
    (hfit : (A i ++ p).length ≤ MAXFILE * BSIZE) (hroom : s.freeblock ≤ nmeta + total A)
    (htotal : total (update A i (A i ++ p)) ≤ FSSIZE - nmeta) :
    ∃ s', iappend s i p = .ok s' ∧ s'.freeblock ≤ nmeta + total (update A i (A i ++ p)) := by
  have hcost := total_update A hi (A i ++ p)
  have hhi := h.orderly.hi
  have hmeta : nmeta ≤ FSSIZE := by decide
  rw [List.length_append] at hfit hcost
  have hlive := (h.live hi htaken).2
  have hsize := h.size_eq hi htaken
  have hspec := iappend_total (p := p) h.orderly h.wellFormed hi hlive
  rw [hsize, freeBlocks_disk] at hspec
  obtain ⟨s', hrun, hcount⟩ := hspec hfit (by omega)
  have hhi' := (h.append hi htaken hrun).orderly.hi
  rw [freeBlocks_disk] at hcount
  exact ⟨s', hrun, by omega⟩

theorem total_mono (A : Arrays) (hi : i < NINODES) {a b : List UInt8} (hab : a.length ≤ b.length) :
    total (update A i a) ≤ total (update A i b) := by
  have ha := total_update A hi a
  have hb := total_update A hi b
  have hmono := blocksFor_mono hab
  omega

theorem appends_total (h : Built s A) (hi : i < NINODES) (htaken : Taken s i) (chunks : List (List UInt8))
    (hfit : (A i ++ chunks.flatten).length ≤ MAXFILE * BSIZE) (hroom : s.freeblock ≤ nmeta + total A)
    (htotal : total (update A i (A i ++ chunks.flatten)) ≤ FSSIZE - nmeta) :
    ∃ s', chunks.foldlM (fun s c => iappend s i c) s = .ok s' ∧
      s'.freeblock ≤ nmeta + total (update A i (A i ++ chunks.flatten)) := by
  induction chunks generalizing s A with
  | nil =>
    refine ⟨s, rfl, ?_⟩
    rw [List.flatten_nil, List.append_nil, update_eq_self]
    exact hroom
  | cons c chunks ih =>
    rw [List.flatten_cons, ← List.append_assoc] at hfit htotal ⊢
    have hle : (A i ++ c).length ≤ (A i ++ c ++ chunks.flatten).length := by
      simp only [List.length_append]
      omega
    obtain ⟨s₁, hone, hroom₁⟩ := h.append_total hi htaken (hle.trans hfit) hroom
      ((total_mono A hi hle).trans htotal)
    have hfree : s₁.freeinode = s.freeinode := (iappend_freeinode s i c).of_ok hone
    have hrest := ih (h.append hi htaken hone) ⟨htaken.1, by rw [hfree]; exact htaken.2⟩
    rw [update_self, update_idem] at hrest
    obtain ⟨s', hrun, hroom'⟩ := hrest hfit hroom₁ htotal
    refine ⟨s', ?_, hroom'⟩
    rw [List.foldlM_cons, hone, ok_bind, hrun]

end Built

end Laboratorio.Mkfs
