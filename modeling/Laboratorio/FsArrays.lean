import Laboratorio.FsRuns
import Laboratorio.FsSpace
import Laboratorio.Overwrite

/-! Files are byte arrays. The abstract file system is one list of bytes for each inode; a write
overwrites a stretch of one list. With enough free blocks every sequence of `readi` and `writei` calls on
regular files completes and answers as the abstract one does. -/

namespace Laboratorio.Fs

open Function

inductive Call where
  | readi (k : Fin NINODE) (off n : UInt32)
  | writei (k : Fin NINODE) (src : Buffer) (off : UInt32)

def Call.slot : Call → Fin NINODE
  | .readi k _ _ => k
  | .writei k _ _ => k

abbrev Answer := Int × List UInt8

def call (sb : Superblock) (dev : Devices) (s : State) : Call → Except Stop (Answer × State)
  | .readi k off n => do
      let s ← ilock sb s k
      (cached sb dev k).readi s off n
  | .writei k src off => do
      let s ← ilock sb s k
      let (r, s) ← (cached sb dev k).writei s src.bytes off
      pure ((r, []), s)

/-! ### The abstract file system -/

/-- `readi` of `n` bytes at `off`. -/
def readArray (a : List UInt8) (off n : UInt32) : Answer :=
  if a.length < off.toNat ∨ 2 ^ 32 ≤ off.toNat + n.toNat then (-1, [])
  else ((min n.toNat (a.length - off.toNat) : Nat), (a.drop off.toNat).take n.toNat)

/-- `writei` of `src` at `off`: the value returned and the new bytes. -/
def writeArray (a src : List UInt8) (off : UInt32) : Int × List UInt8 :=
  if rejectsWrite a.length off.toNat src.length then (-1, a)
  else (src.length, overwrite a off.toNat src)

abbrev Arrays := Nat → List UInt8

namespace Arrays

variable (inum : Fin NINODE → Nat) (A : Arrays)

def call : Call → Answer × Arrays
  | .readi k off n => (readArray (A (inum k)) off n, A)
  | .writei k src off =>
    (((writeArray (A (inum k)) src.bytes off).1, []),
      update A (inum k) (writeArray (A (inum k)) src.bytes off).2)

def after (calls : List Call) : Arrays := calls.foldl (fun A c => (A.call inum c).2) A

/-- The blocks that a call allocates at most. -/
def cost : Call → Nat
  | .readi _ _ _ => 0
  | .writei k src off =>
    if rejectsWrite (A (inum k)).length off.toNat src.bytes.length then 0
    else blocksFor (max (A (inum k)).length (off.toNat + src.bytes.length)) -
      blocksFor (A (inum k)).length

def need (A : Arrays) : List Call → Nat
  | [] => 0
  | c :: calls => A.cost inum c + need (A.call inum c).2 calls

end Arrays

/-! ### Contents -/

variable {sb : Layout} {dev : Devices} {d d' : Disk} {s s' : State} {k : Fin NINODE} {i : Nat}

theorem length_contents (sb : Superblock) (d : Disk) (i : Nat) :
    (contents sb d i).length = (loadInode sb d i).size.toNat := by
  rw [contents, List.length_map, List.length_range]

theorem getElem?_contents (sb : Superblock) (d : Disk) (i o : Nat) :
    (contents sb d i)[o]? = if o < (loadInode sb d i).size.toNat then some (fileByte sb d (loadInode sb d) i o)
    else none := by
  rw [contents, List.getElem?_map]
  split
  · rename_i ho
    rw [List.getElem?_range ho]
    rfl
  · rename_i ho
    rw [List.getElem?_eq_none (by rw [List.length_range]; omega)]
    rfl

theorem Overwrites.contents_eq {ip : Dinode} {off : Nat} {src : List UInt8}
    (h : Overwrites sb d d' i ip off src) (hi : i < sb.ninodes) (hoff : off ≤ (loadInode sb d i).size.toNat) :
    contents sb d' i = overwrite (contents sb d i) off src := by
  have hoff' : off ≤ (contents sb d i).length := by rwa [length_contents]
  apply List.ext_getElem?
  intro o
  rw [getElem?_overwrite hoff', getElem?_contents, getElem?_contents, h.replaces.loadInode_self hi,
    h.replaces.fileByte_eq]
  have hsize := h.size
  by_cases ho : o < ip.size.toNat
  · rw [if_pos ho, h.bytes o ho]
    by_cases hin : off ≤ o ∧ o < off + src.length
    · rw [if_pos hin, if_pos hin, List.getD_eq_getElem?_getD,
        List.getElem?_eq_getElem (by omega : o - off < src.length), Option.getD_some]
    · rw [if_neg hin, if_neg hin, if_pos (by omega)]
  · rw [if_neg ho, if_neg (by omega), if_neg (by omega)]

theorem read_contents (off n : Nat) :
    ((List.range (readCount (loadInode sb d i).size.toNat off n)).map fun k =>
      fileByte sb d (loadInode sb d) i (off + k)) = ((contents sb d i).drop off).take n := by
  apply List.ext_getElem?
  intro o
  rw [List.getElem?_map, List.getElem?_take, List.getElem?_drop, getElem?_contents]
  unfold readCount
  by_cases ho : o < min n ((loadInode sb d i).size.toNat - off)
  · rw [List.getElem?_range ho, if_pos (by omega), if_pos (by omega)]
    rfl
  · rw [List.getElem?_eq_none (by rw [List.length_range]; omega), Option.map_none]
    split
    · rw [if_neg (by omega)]
    · rfl

/-! ### One call -/

/-- The array of every allocated inode is its contents. -/
def Represents (sb : Superblock) (A : Arrays) (d : Disk) : Prop :=
  ∀ i < sb.ninodes, (loadInode sb d i).type ≠ 0 → contents sb d i = A i

/-- A reference to an allocated regular file. -/
structure Regular (sb : Superblock) (s : State) (k : Fin NINODE) : Prop where
  ref : 0 < (s.icache k).ref
  type : (loadInode sb s.disk (s.icache k).inum).type = T_FILE

/-- Which inode an entry of the cache is for, and the types on the disk, do not change. -/
structure SameFiles (sb : Superblock) (s s' : State) : Prop where
  inum : ∀ k, (s'.icache k).inum = (s.icache k).inum
  ref : ∀ k, (s'.icache k).ref = (s.icache k).ref
  type : ∀ i < sb.ninodes, (loadInode sb s'.disk i).type = (loadInode sb s.disk i).type

theorem SameFiles.trans {s'' : State} (h : SameFiles sb s s') (h' : SameFiles sb s' s'') :
    SameFiles sb s s'' :=
  ⟨fun k => (h'.inum k).trans (h.inum k), fun k => (h'.ref k).trans (h.ref k),
    fun i hi => (h'.type i hi).trans (h.type i hi)⟩

theorem SameFiles.regular (h : SameFiles sb s s') (hr : Regular sb s k)
    (hlt : (s.icache k).inum < sb.ninodes) : Regular sb s' k := by
  constructor
  · rw [h.ref]
    exact hr.ref
  · rw [h.inum, h.type _ hlt]
    exact hr.type

theorem ilock_regular (hr : Regular sb s k) :
    ∃ s', ilock sb s k = .ok s' ∧ s'.disk = s.disk ∧ SameFiles sb s s' := by
  have href := hr.ref
  unfold ilock
  rw [if_neg (by omega)]
  split
  · exact ⟨s, rfl, rfl, fun _ => rfl, fun _ => rfl, fun _ _ => rfl⟩
  rw [if_neg (by rw [hr.type]; decide)]
  refine ⟨_, rfl, rfl, fun l => ?_, fun l => ?_, fun _ _ => rfl⟩
  · by_cases hl : l = k
    · simp only [hl, update_self]
    · simp only [update_of_ne hl]
  · by_cases hl : l = k
    · simp only [hl, update_self]
    · simp only [update_of_ne hl]

theorem sameFiles_put {ip : Dinode} (s : State) (k : Fin NINODE)
    (htype : ∀ i < sb.ninodes, (loadInode sb d' i).type = (loadInode sb s.disk i).type) :
    SameFiles sb s (s.put k d' ip) := by
  refine ⟨fun l => ?_, fun l => ?_, htype⟩
  · by_cases hl : l = k
    · simp only [State.put, hl, update_self]
    · simp only [State.put, update_of_ne hl]
  · by_cases hl : l = k
    · simp only [State.put, hl, update_self]
    · simp only [State.put, update_of_ne hl]

/-- What a call does, as the abstract file system says. -/
structure Refines (sb : Layout) (inum : Fin NINODE → Nat) (A : Arrays) (s : State) (c : Call) (s' : State) :
    Prop where
  coherent : Coherent sb s'
  files : SameFiles sb s s'
  represents : Represents sb (A.call inum c).2 s'.disk
  space : freeBlocks sb s.disk ≤ freeBlocks sb s'.disk + A.cost inum c
  rejected : (A.call inum c).1.1 = -1 → s'.disk = s.disk

section OneCall

variable {inum : Fin NINODE → Nat} {A : Arrays}

theorem readi_refines (h : Coherent sb s) (hA : Represents sb A s.disk) (hr : Regular sb s k)
    (hinum : ∀ k, (s.icache k).inum = inum k) (off n : UInt32) :
    ∃ s', call sb dev s (.readi k off n) = .ok ((A.call inum (.readi k off n)).1, s') ∧
      Refines sb inum A s (.readi k off n) s' := by
  obtain ⟨s₁, hlock, hdisk, hsame⟩ := ilock_regular hr
  have hl := h.ilock hlock
  have hr₁ := hsame.regular hr (h.inum_lt k hr.ref)
  have hA₁ : Represents sb A s₁.disk := by
    rw [hdisk]
    exact hA
  have hdev : (loadInode sb s₁.disk (s₁.icache k).inum).type ≠ T_DEV := by
    rw [hr₁.type]
    decide
  have hfull := hl.coherent.wellFormed.full _ hl.inum_lt hl.live
  have hbytes := readi_mapped dev hl.inum_lt hl.live hdev off n fun o hlo ho => hfull o (lt_of_readCount hlo ho)
  have hread : (cached sb dev k).readi s₁ off n = .ok ((A.call inum (.readi k off n)).1, s₁) := by
    simp only [cached, hl.copy, hbytes, ok_bind, pure_eq_ok, State.put]
    rw [← hl.copy, update_eq_self, hl.copy, read_contents, ← length_contents,
      hA₁ _ hl.inum_lt hl.live, hsame.inum, hinum]
    rfl
  refine ⟨s₁, ?_, hl.coherent, hsame, hA₁, ?_, fun _ => hdisk⟩
  · rw [call, hlock, ok_bind, hread]
  · rw [hdisk]
    exact Nat.le_add_right _ _

/-- A `writei` of a regular file that completes either changes nothing and returns -1, or overwrites a
stretch of its array. -/
theorem writei_ran (h : Coherent sb s) (hr : Regular sb s k) {src : Buffer} {off : UInt32} {a : Answer}
    (hrun : call sb dev s (.writei k src off) = .ok (a, s')) :
    Coherent sb s' ∧ SameFiles sb s s' ∧
    ((rejectsWrite (contents sb s.disk (s.icache k).inum).length off.toNat src.bytes.length ∧
          a = (-1, []) ∧ s'.disk = s.disk) ∨
        (¬rejectsWrite (contents sb s.disk (s.icache k).inum).length off.toNat src.bytes.length ∧
          a = ((src.bytes.length : Int), []) ∧ contents sb s'.disk (s.icache k).inum =
            overwrite (contents sb s.disk (s.icache k).inum) off.toNat src.bytes ∧
          ∀ j < sb.ninodes, (loadInode sb s.disk j).type ≠ 0 → j ≠ (s.icache k).inum →
            contents sb s'.disk j = contents sb s.disk j)) := by
  obtain ⟨s₁, hlock, hdisk, hsame⟩ := ilock_regular hr
  have hl := h.ilock hlock
  have hr₁ := hsame.regular hr (h.inum_lt k hr.ref)
  have hwf := hl.coherent.wellFormed
  have hdev : (loadInode sb s₁.disk (s₁.icache k).inum).type ≠ T_DEV := by
    rw [hr₁.type]
    decide
  rw [call, hlock, ok_bind] at hrun
  simp only [cached, hl.copy] at hrun
  cases hwrite : writei sb dev s₁.disk (s₁.icache k).inum (loadInode sb s₁.disk (s₁.icache k).inum) src.bytes off with
  | error stop =>
    rw [hwrite] at hrun
    cases hrun
  | ok result =>
    obtain ⟨r, d', ip⟩ := result
    rw [hwrite] at hrun
    cases hrun
    rw [length_contents, ← hsame.inum k, ← hdisk]
    rcases writei_spec hwf hl.inum_lt hl.live hdev src.fits hwrite with
      ⟨hreject, rfl, rfl, rfl⟩ | ⟨haccept, rfl, hover⟩
    · have hstay : s₁.put k s₁.disk (loadInode sb s₁.disk (s₁.icache k).inum) = s₁ := by
        rw [State.put, ← hl.copy, update_eq_self]
      rw [hstay]
      exact ⟨hl.coherent, hsame, Or.inl ⟨hreject, rfl, rfl⟩⟩
    have hrep := hover.replaces
    have hoff : off.toNat ≤ (loadInode sb s₁.disk (s₁.icache k).inum).size.toNat := by
      by_contra hc
      exact haccept (Or.inl (by omega))
    have htypes : ∀ j < sb.ninodes, (loadInode sb d' j).type = (loadInode sb s₁.disk j).type := by
      intro j hj
      rw [hrep.inodes j hj]
      split
      · rename_i hji
        rw [hover.type, hji]
      · rfl
    exact ⟨(hl.put hrep (by rw [hover.type]; exact hl.live) hover.full).coherent,
      hsame.trans (sameFiles_put s₁ k htypes),
      Or.inr ⟨haccept, rfl, hover.contents_eq hl.inum_lt hoff,
        fun j hj hlive hne => hrep.contents_other hwf hj hlive hne⟩⟩

/-- A `writei` of a regular file that is not turned down takes the blocks that it lacks, or stops because there are too
few. -/
theorem writei_ends (h : Coherent sb s) (hr : Regular sb s k) (src : Buffer) (off : UInt32) :
    Ends (fun e => ¬rejectsWrite (contents sb s.disk (s.icache k).inum).length off.toNat src.bytes.length ∧
        Short sb s.disk (loadInode sb s.disk) (s.icache k).inum (slotsOf off.toNat src.bytes.length) e)
      (call sb dev s (.writei k src off)) fun r =>
      ¬rejectsWrite (contents sb s.disk (s.icache k).inum).length off.toNat src.bytes.length →
        Filled sb s.disk (loadInode sb s.disk) r.2.disk (loadInode sb r.2.disk) (s.icache k).inum
          (slotsOf off.toNat src.bytes.length) := by
  obtain ⟨s₁, hlock, hdisk, hsame⟩ := ilock_regular hr
  have hl := h.ilock hlock
  have hr₁ := hsame.regular hr (h.inum_lt k hr.ref)
  have hdev : (loadInode sb s₁.disk (s₁.icache k).inum).type ≠ T_DEV := by
    rw [hr₁.type]
    decide
  rw [length_contents, ← hsame.inum k, ← hdisk, call, hlock, ok_bind]
  simp only [cached, hl.copy]
  by_cases hreject : rejectsWrite (loadInode sb s₁.disk (s₁.icache k).inum).size.toNat off.toNat src.bytes.length
  · rw [writei_eq dev hdev src.fits, if_pos hreject]
    exact .ok fun haccept => absurd hreject haccept
  · have hfills := writei_fills dev hl.coherent.wellFormed hl.inum_lt hl.live hdev src.fits hreject
    exact ((hfills.mono_stop fun e he => ⟨hreject, he⟩).bind fun r hr => .ok hr).bind fun r hr => .ok fun _ => hr

theorem writei_refines (h : Coherent sb s) (hA : Represents sb A s.disk) (hr : Regular sb s k)
    (hinum : ∀ k, (s.icache k).inum = inum k) (src : Buffer) (off : UInt32)
    (hspace : A.cost inum (.writei k src off) ≤ freeBlocks sb s.disk) :
    ∃ s', call sb dev s (.writei k src off) = .ok ((A.call inum (.writei k src off)).1, s') ∧
      Refines sb inum A s (.writei k src off) s' := by
  have hlive : (loadInode sb s.disk (inum k)).type ≠ 0 := by
    rw [← hinum, hr.type]
    decide
  have hlt : inum k < sb.ninodes := hinum k ▸ h.inum_lt k hr.ref
  have harray : contents sb s.disk (s.icache k).inum = A (inum k) := by
    rw [hinum]
    exact hA _ hlt hlive
  have hcost : ¬rejectsWrite (A (inum k)).length off.toNat src.bytes.length →
      A.cost inum (.writei k src off) = blocksFor (max (A (inum k)).length (off.toNat + src.bytes.length)) -
        blocksFor (A (inum k)).length := fun hacc => if_neg hacc
  have hle : lacking sb s.disk (loadInode sb s.disk) (inum k) (slotsOf off.toNat src.bytes.length) +
      blocksFor (A (inum k)).length ≤ blocksFor (max (A (inum k)).length (off.toNat + src.bytes.length)) := by
    rw [← hA _ hlt hlive, length_contents]
    exact lacking_le hlt hlive (h.wellFormed.full _ hlt hlive)
  have hends : Ends _ (call sb dev s (.writei k src off)) _ := writei_ends h hr src off
  rw [harray, hinum] at hends
  obtain ⟨⟨a, s'⟩, hrun, hfilled⟩ := (hends.mono_stop fun e he => by
    have hshort := he.2.2
    rw [hcost he.1] at hspace
    omega).exists_ok
  obtain ⟨hcoherent, hfiles, hcases⟩ := writei_ran h hr hrun
  rw [harray, hinum] at hcases
  rcases hcases with ⟨hreject, rfl, hdisk⟩ | ⟨haccept, rfl, hcontents, hothers⟩
  · have habs : A.call inum (.writei k src off) = ((-1, []), A) := by
      have harr : writeArray (A (inum k)) src.bytes off = (-1, A (inum k)) := if_pos hreject
      rw [Arrays.call, harr, update_eq_self]
    refine ⟨s', by rw [hrun, habs], hcoherent, hfiles, ?_, ?_, fun _ => hdisk⟩
    · rw [habs, hdisk]
      exact hA
    · rw [hdisk]
      exact Nat.le_add_right _ _
  · have habs : A.call inum (.writei k src off) = (((src.bytes.length : Int), []),
        update A (inum k) (overwrite (A (inum k)) off.toNat src.bytes)) := by
      have harr : writeArray (A (inum k)) src.bytes off =
          ((src.bytes.length : Int), overwrite (A (inum k)) off.toNat src.bytes) := if_neg haccept
      rw [Arrays.call, harr]
    refine ⟨s', by rw [hrun, habs], hcoherent, hfiles, ?_, ?_, ?_⟩
    · intro j hj hlive'
      have hlive₀ : (loadInode sb s.disk j).type ≠ 0 := by
        rw [← hfiles.type j hj]
        exact hlive'
      rw [habs]
      change contents sb s'.disk j = update A (inum k) (overwrite (A (inum k)) off.toNat src.bytes) j
      by_cases hji : j = inum k
      · rw [hji, update_self]
        exact hcontents
      · rw [update_of_ne hji, hothers j hj hlive₀ hji]
        exact hA j hj hlive₀
    · have hfree := (hfilled haccept).space
      rw [hcost haccept]
      dsimp only at hfree
      omega
    · intro hc
      rw [habs] at hc
      have hnonneg : (0 : Int) ≤ src.bytes.length := Int.natCast_nonneg _
      change (src.bytes.length : Int) = -1 at hc
      omega

theorem call_refines (h : Coherent sb s) (hA : Represents sb A s.disk) {c : Call}
    (hr : Regular sb s c.slot) (hinum : ∀ k, (s.icache k).inum = inum k)
    (hspace : A.cost inum c ≤ freeBlocks sb s.disk) :
    ∃ s', call sb dev s c = .ok ((A.call inum c).1, s') ∧ Refines sb inum A s c s' := by
  cases c with
  | readi k off n => exact readi_refines h hA hr hinum off n
  | writei k src off => exact writei_refines h hA hr hinum src off hspace

end OneCall

/-! ### Sequences of calls -/

theorem calls_refine {inum : Fin NINODE → Nat} (calls : List Call) {A : Arrays} (h : Coherent sb s)
    (hA : Represents sb A s.disk) (hr : ∀ c ∈ calls, Regular sb s c.slot)
    (hinum : ∀ k, (s.icache k).inum = inum k) (hspace : A.need inum calls ≤ freeBlocks sb s.disk) :
    ∃ st : Nat → State, st 0 = s ∧ (∀ t (ht : t < calls.length),
        call sb dev (st t) calls[t] = .ok (((A.after inum (calls.take t)).call inum calls[t]).1, st (t + 1)) ∧
        (((A.after inum (calls.take t)).call inum calls[t]).1.1 = -1 → (st (t + 1)).disk = (st t).disk)) ∧
      ∀ t ≤ calls.length, Represents sb (A.after inum (calls.take t)) (st t).disk ∧ SameFiles sb s (st t) := by
  induction calls generalizing A s with
  | nil =>
    refine ⟨fun _ => s, rfl, fun t ht => absurd ht (Nat.not_lt_zero t), fun t _ => ?_⟩
    rw [List.take_nil]
    exact ⟨hA, fun _ => rfl, fun _ => rfl, fun _ _ => rfl⟩
  | cons c calls ih =>
    rw [Arrays.need] at hspace
    have hstep : ∃ s', call sb dev s c = .ok ((A.call inum c).1, s') ∧ Refines sb inum A s c s' :=
      call_refines h hA (hr c List.mem_cons_self) hinum (by omega)
    obtain ⟨s₁, hcall, hone⟩ := hstep
    have hr₁ : ∀ c' ∈ calls, Regular sb s₁ c'.slot := by
      intro c' hc'
      have hold := hr c' (List.mem_cons_of_mem _ hc')
      exact hone.files.regular hold (h.inum_lt _ hold.ref)
    have hspace₁ : (A.call inum c).2.need inum calls ≤ freeBlocks sb s₁.disk := by
      have hfree := hone.space
      omega
    obtain ⟨st, hstart, hnext, hrep⟩ := ih hone.coherent hone.represents hr₁
      (fun l => (hone.files.inum l).trans (hinum l)) hspace₁
    -- The run of the remaining calls, one step later.
    refine ⟨fun t => t.casesOn s st, rfl, ?_, ?_⟩
    · intro t ht
      cases t with
      | zero =>
        change call sb dev s c = .ok ((A.call inum c).1, st 0) ∧
          ((A.call inum c).1.1 = -1 → (st 0).disk = s.disk)
        rw [hstart]
        exact ⟨hcall, hone.rejected⟩
      | succ t => exact hnext t (Nat.lt_of_succ_lt_succ ht)
    · intro t ht
      cases t with
      | zero => exact ⟨hA, fun _ => rfl, fun _ => rfl, fun _ _ => rfl⟩
      | succ t =>
        obtain ⟨hrep', hfiles⟩ := hrep t (Nat.le_of_succ_le_succ ht)
        exact ⟨hrep', hone.files.trans hfiles⟩

/-- With enough free blocks every call on a regular file completes and answers as the arrays do, a call
that returns -1 changes nothing on the disk, and after every call each allocated inode holds its array. -/
theorem files_are_byte_arrays (sb : Layout) (dev : Devices) (s : State) (h : Coherent sb s)
    (calls : List Call) (hr : ∀ c ∈ calls, Regular sb s c.slot)
    (hspace : Arrays.need (fun k => (s.icache k).inum) (contents sb s.disk) calls ≤
      freeBlocks sb s.disk) :
    ∃ st : Nat → State, st 0 = s ∧
      (∀ t (ht : t < calls.length),
        call sb dev (st t) calls[t] = .ok
          (((Arrays.after (fun k => (s.icache k).inum) (contents sb s.disk) (calls.take t)).call
            (fun k => (s.icache k).inum) calls[t]).1, st (t + 1)) ∧
        (((Arrays.after (fun k => (s.icache k).inum) (contents sb s.disk) (calls.take t)).call
            (fun k => (s.icache k).inum) calls[t]).1.1 = -1 → (st (t + 1)).disk = (st t).disk)) ∧
      ∀ t ≤ calls.length, ∀ i < sb.ninodes, (loadInode sb s.disk i).type ≠ 0 →
        contents sb (st t).disk i =
          Arrays.after (fun k => (s.icache k).inum) (contents sb s.disk) (calls.take t) i := by
  obtain ⟨st, hstart, hnext, hrep⟩ :=
    calls_refine calls h (fun _ _ _ => rfl) hr (fun _ => rfl) hspace
  refine ⟨st, hstart, hnext, fun t ht i hi hlive => ?_⟩
  obtain ⟨hrep', hfiles⟩ := hrep t ht
  exact hrep' i hi (by rw [hfiles.type i hi]; exact hlive)

/-! A new file on an empty disk, written and read back. -/

/-- `ialloc` on an empty disk. -/
def oneFile : State where
  disk := putBlock (emptyDisk mkfsLayout) (mkfsLayout.iblock 1)
    (blankDinode (emptyDisk mkfsLayout (mkfsLayout.iblock 1)) (1 % IPB) T_FILE)
  icache := update (State.boot (emptyDisk mkfsLayout)).icache firstEntry
    { inum := 1, ref := 1, valid := false, copy := Dinode.blank 0 }

theorem oneFile_ialloc (dev : Devices) :
    step mkfsLayout dev (State.boot (emptyDisk mkfsLayout)) (.ialloc T_FILE) = .ok oneFile := by
  have halloc : ialloc mkfsLayout (emptyDisk mkfsLayout) T_FILE = .ok (1, oneFile.disk) := by
    have hfind : (List.range' 1 (mkfsLayout.ninodes - 1)).find?
        (fun i => (loadInode mkfsLayout (emptyDisk mkfsLayout) i).type = 0) = some 1 := by
      change (1 :: List.range' 2 198).find? _ = some 1
      rw [List.find?_cons_of_pos]
      exact decide_eq_true (emptyDisk_free mkfsLayout (by decide))
    rw [ialloc, hfind]
    rfl
  have hget : iget (State.boot (emptyDisk mkfsLayout)).icache 1 = .ok (0, oneFile.icache) := by rfl
  change (ialloc mkfsLayout (emptyDisk mkfsLayout) T_FILE >>= _) = _
  rw [halloc, ok_bind]
  dsimp only
  rw [hget]
  rfl

theorem oneFile_inum : (oneFile.icache 0).inum = 1 := rfl

theorem oneFile_load : loadInode mkfsLayout oneFile.disk 1 = Dinode.blank T_FILE :=
  loadInode_put (readDinode_blankDinode _ (by decide) T_FILE)
    (fun _ hk => readDinode_blankDinode_of_ne _ hk T_FILE) 1

theorem oneFile_contents : contents mkfsLayout oneFile.disk 1 = [] := by
  apply List.length_eq_zero_iff.mp
  rw [length_contents, oneFile_load]
  rfl

theorem oneFile_space : 1 ≤ freeBlocks mkfsLayout oneFile.disk := by
  unfold oneFile
  rw [freeBlocks_put (Or.inl (mkfsLayout.iblock_lt (by decide)))]
  refine Finset.card_pos.mpr ⟨999, Finset.mem_filter.mpr ⟨Finset.mem_range.mpr (by decide), ?_⟩⟩
  rw [bitAt_emptyDisk]
  decide

theorem oneFile_coherent : Coherent mkfsLayout oneFile :=
  (Coherent.boot (emptyDisk_wellFormed mkfsLayout)).step (oneFile_ialloc ⟨fun _ => none, fun _ => none⟩)

theorem oneFile_regular : Regular mkfsLayout oneFile 0 := by
  refine ⟨by decide, ?_⟩
  change (loadInode mkfsLayout oneFile.disk 1).type = T_FILE
  rw [oneFile_load]
  rfl

theorem files_are_byte_arrays_oneFile : ∃ s₁ s₂ : State,
    call mkfsLayout ⟨fun _ => none, fun _ => none⟩ oneFile (.writei 0 ⟨[1, 2, 3], by decide⟩ 0) =
      .ok ((3, []), s₁) ∧
    call mkfsLayout ⟨fun _ => none, fun _ => none⟩ s₁ (.readi 0 0 3) = .ok ((3, [1, 2, 3]), s₂) := by
  have hcalls : ∀ c ∈ [Call.writei 0 ⟨[1, 2, 3], by decide⟩ 0, .readi 0 0 3],
      Regular mkfsLayout oneFile c.slot := by
    intro c hc
    rcases List.mem_cons.mp hc with rfl | hc
    · exact oneFile_regular
    · rw [List.mem_singleton.mp hc]
      exact oneFile_regular
  have hneed : Arrays.need (fun k => (oneFile.icache k).inum) (contents mkfsLayout oneFile.disk)
      [Call.writei 0 ⟨[1, 2, 3], by decide⟩ 0, .readi 0 0 3] = 1 := by
    simp only [Arrays.need, Arrays.cost, oneFile_inum, oneFile_contents]
    decide
  have hfirst : Arrays.call (fun k => (oneFile.icache k).inum) (contents mkfsLayout oneFile.disk)
      (.writei 0 ⟨[1, 2, 3], by decide⟩ 0) =
      ((3, []), update (contents mkfsLayout oneFile.disk) 1 [1, 2, 3]) := by
    simp only [Arrays.call, oneFile_inum, oneFile_contents]
    rfl
  obtain ⟨st, hstart, hnext, -⟩ := files_are_byte_arrays mkfsLayout ⟨fun _ => none, fun _ => none⟩ oneFile
    oneFile_coherent _ hcalls (by rw [hneed]; exact oneFile_space)
  refine ⟨st 1, st 2, ?_, ?_⟩
  · rw [← hstart]
    exact (hnext 0 (by decide)).1.trans (congrArg (fun a => Except.ok (a.1, st 1)) hfirst)
  · refine (hnext 1 (by decide)).1.trans ?_
    change Except.ok ((Arrays.call (fun k => (oneFile.icache k).inum)
      (Arrays.call (fun k => (oneFile.icache k).inum) (contents mkfsLayout oneFile.disk)
        (.writei 0 ⟨[1, 2, 3], by decide⟩ 0)).2 (.readi 0 0 3)).1, st 2) = _
    rw [hfirst]
    simp only [Arrays.call, oneFile_inum, update_self]
    rfl

end Laboratorio.Fs
