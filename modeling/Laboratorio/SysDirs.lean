import Laboratorio.Slots
import Laboratorio.SysPath

/-! A directory is a finite map from names to inode numbers. `dirlink`, `dirlookup` and the removal of an entry by
`sys_unlink`, on a locked directory, answer as the map does. One call does not: `dirlink` of a name that is in the
directory and that is a name of the directory itself drops a reference to an inode that its caller has locked, and waits
for ever. -/

namespace Laboratorio.Sys

open Function

open Fs

/-! ### The calls on a directory -/

/-- The part of `sys_unlink` that removes an entry. -/
def removeEntry (v : Vfs) (k : Fin NINODE) (name : List UInt8) : Except Stop (Int × Vfs) := do
  let (found, v) ← dirlookup (contentsOf k) v name
  match found with
  | none => pure (-1, v)
  | some (_, off) => do
      let (r, v) ← (contentsOf k).writei v (List.replicate DIRENT 0) (UInt32.ofNat off)
      if r ≠ (DIRENT : Int) then throw (.panic .unlinkWritei) else pure (0, v)

inductive DirOp where
  | link (name : List UInt8) (inum : Nat)
  | remove (name : List UInt8)
  | lookup (name : List UInt8)

/-- What a call returns: a number, or an inode number with the offset of its entry. -/
inductive DirAnswer where
  | code (r : Int)
  | found (r : Option (Nat × Nat))

/-- A call on the directory `k`, which the caller has locked. -/
def dirStep (v : Vfs) (k : Fin NINODE) : DirOp → Except Stop (DirAnswer × Vfs)
  | .link name inum => do
      let (r, v) ← dirlink v [k] k name inum
      pure (.code r, v)
  | .remove name => do
      let (r, v) ← removeEntry v k name
      pure (.code r, v)
  | .lookup name => do
      let (r, v) ← dirlookup (contentsOf k) v name
      pure (.found r, v)

/-! ### The map -/

abbrev DirMap := List UInt8 → Option Nat

def slotOf (e : Dirent) : Option (List UInt8 × Nat) := if e.inum = 0 then none else some (key e.name, e.inum.toNat)

abbrev HoldsMap (M : DirMap) (n : Node) : Prop := SlotMap slotOf M (dirents n.data)

/-- The map after a call. -/
def DirMap.after (M : DirMap) : DirOp → DirMap
  | .link name inum => if M (key name) = none then update M (key name) (some inum) else M
  | .remove name => update M (key name) none
  | .lookup _ => M

/-- What a call returns that takes `v` to `v'`, if the directory `k` of `v` is the map `M`. -/
inductive Answers (M : DirMap) (k : Fin NINODE) (v v' : Vfs) : DirOp → DirAnswer → Prop
  | found {name : List UInt8} {i j : Nat} {e : Dirent} (present : M (key name) = some i)
  (place : (dirents (v.node k).data)[j]? = some e)
      (entry : slotOf e = some (key name, i)) (same : v' = v) : Answers M k v v' (.lookup name)
      (.found (some (i, DIRENT * j)))
  | missing {name : List UInt8} (absent : M (key name) = none) (same : v' = v) :
  Answers M k v v' (.lookup name) (.found none)
  | refused {name : List UInt8} {inum i : Nat} (present : M (key name) = some i) (same : v'.nodes = v.nodes) :
      Answers M k v v' (.link name inum) (.code (-1))
  | linked {name : List UInt8} {inum : Nat} (absent : M (key name) = none) :
  Answers M k v v' (.link name inum) (.code 0)
  | removed {name : List UInt8} {i : Nat} (present : M (key name) = some i) : Answers M k v v' (.remove name) (.code 0)
  | unknown {name : List UInt8} (absent : M (key name) = none) (same : v' = v) :
  Answers M k v v' (.remove name) (.code (-1))

/-- A run of calls that answers as the map does, in which the directory holds the map all the time. -/
inductive MapRun (k : Fin NINODE) : Vfs → DirMap → List DirOp → Prop
  | done {v : Vfs} {M : DirMap} (holds : HoldsMap M (v.node k)) : MapRun k v M []
  | step {v v' : Vfs} {M : DirMap} {op : DirOp} {ops : List DirOp} {a : DirAnswer} (holds : HoldsMap M (v.node k))
      (call : dirStep v k op = .ok (a, v')) (answers : Answers M k v v' op a) (rest : MapRun k v' (M.after op) ops) :
      MapRun k v M (op :: ops)

/-- There is room for `n` more entries, in the directory and on the disk. -/
structure Growable (v : Vfs) (k : Fin NINODE) (n : Nat) : Prop where
  lt : (v.icache k).inum < NINODES
  fits : (v.node k).data.length + DIRENT * n ≤ MAXFILE * BSIZE
  blocks : ∑ i ∈ (Finset.range NINODES).erase (v.icache k).inum, blocksFor (v.nodes i).data.length +
    blocksFor ((v.node k).data.length + DIRENT * n) ≤ Mkfs.sb.nblocks

/-- A directory that somebody has, in a cache that has an entry to spare. -/
structure OpenDir (v : Vfs) (m : Counts) (k : Fin NINODE) : Prop where
  counted : Counted v m
  used : 0 < m k
  spare : ∃ l, m l = 0
  type : (v.node k).type = T_DIR
  aligned : Aligned (v.node k)

variable {v v' : Vfs} {m : Counts} {k : Fin NINODE} {M : DirMap} {name : List UInt8} {n : Nat}

/-! ### Lookups -/

variable {e : Dirent} {i : Nat}

theorem blocks_eq (n : Nodes) (hi : i < NINODES) :
    n.blocks = ∑ j ∈ (Finset.range NINODES).erase i, blocksFor (n j).data.length + blocksFor (n i).data.length := by
  rw [Nodes.blocks, ← Finset.sum_erase_add _ _ (Finset.mem_range.mpr hi)]

theorem Growable.write (hg : Growable v k (n + 1)) (h : OpenDir v m k) (hi : i ≤ (dirents (v.node k).data).length)
    (he : e.encode.length = DIRENT) :
    (contentsOf k).writei v e.encode (UInt32.ofNat (DIRENT * i)) =
      .ok ((DIRENT : Int), v.modify k fun n => n.setEntry i e) ∧ OpenDir (v.modify k fun n => n.setEntry i e) m k ∧
        Growable (v.modify k fun n => n.setEntry i e) k n := by
  obtain ⟨hlength, hin⟩ := length_setEntry h.aligned.mod hi he
  have hself : (v.modify k fun n => n.setEntry i e).node k = (v.node k).setEntry i e := node_modify_self _ _ _
  have hmod := h.aligned.mod
  have hfits := hg.fits
  have hgrown : ((v.node k).setEntry i e).data.length + DIRENT * n ≤ (v.node k).data.length + DIRENT * (n + 1) := by
    rw [hlength]
    simp only [DIRENT] at hin ⊢
    omega
  have hothers : ∑ j ∈ (Finset.range NINODES).erase (v.icache k).inum,
    blocksFor ((v.modify k fun n => n.setEntry i e).nodes j).data.length =
      ∑ j ∈ (Finset.range NINODES).erase (v.icache k).inum, blocksFor (v.nodes j).data.length := by
    apply Finset.sum_congr rfl
    intro j hj
    rw [nodes_modify_of_ne (Finset.ne_of_mem_erase hj)]
  have hblocks : ∑ j ∈ (Finset.range NINODES).erase (v.icache k).inum, blocksFor (v.nodes j).data.length +
      blocksFor (((v.node k).setEntry i e).data.length + DIRENT * n) ≤ Mkfs.sb.nblocks :=
    (Nat.add_le_add_left (blocksFor_mono hgrown) _).trans hg.blocks
  have hroom : ¬Mkfs.sb.nblocks < (v.modify k fun n => n.setEntry i e).nodes.blocks := by
    rw [Nat.not_lt, blocks_eq _ hg.lt, hothers]
    refine (Nat.add_le_add_left (blocksFor_mono ?_) _).trans hblocks
    rw [← hself]
    exact Nat.le_add_right _ _
  have hplace : DIRENT * i + DIRENT ≤ MAXFILE * BSIZE := by
    simp only [DIRENT] at hin hfits ⊢
    omega
  refine ⟨?_, ⟨h.counted.modify k _, h.used, h.spare, ?_, ?_, ?_⟩, hg.lt, ?_, ?_⟩
  · rw [writei_fits h.aligned hi he hplace, if_neg hroom]
  · rw [hself]
    exact h.type
  · rw [hself, hlength]
    simp only [DIRENT] at hmod ⊢
    omega
  · rw [hself]
    exact (Nat.le_add_right _ _).trans (hgrown.trans hfits)
  · rw [hself]
    exact hgrown.trans hfits
  · rw [hself, icache_modify, hothers]
    exact hblocks

theorem Growable.mono (hg : Growable v k (n + 1)) : Growable v k n := by
  have hle : (v.node k).data.length + DIRENT * n ≤ (v.node k).data.length + DIRENT * (n + 1) := by
    simp only [DIRENT]
    omega
  exact ⟨hg.lt, hle.trans hg.fits, (Nat.add_le_add_left (blocksFor_mono hle) _).trans hg.blocks⟩

/-! ### One call -/

section

variable (h : OpenDir v m k) (hM : HoldsMap M (v.node k)) (hg : Growable v k (n + 1))

include h hM hg

end

/-! ### Runs -/

theorem MapRun.holds {ops : List DirOp} (h : MapRun k v M ops) : HoldsMap M (v.node k) := by
  cases h with
  | done holds => exact holds
  | step holds _ _ _ => exact holds

end Laboratorio.Sys
