import Mathlib.Data.List.TakeWhile
import Laboratorio.Fields
import Laboratorio.SysCounts
import Laboratorio.SysWalk

/-! Path lookup is the fold of lookups over the components of the path. -/

namespace Laboratorio.Sys

open Fs

/-! ### Components -/

variable {path : List UInt8}

/-- The inode of a list of names, from the inode `i` on. -/
def resolve (n : Nodes) (i : Nat) (names : List (List UInt8)) : Option Nat :=
  names.foldlM (fun i name => if (n i).type = T_DIR then lookup (n i).data name else none) i

variable {names : List (List UInt8)} {i fuel : Nat}

section Fold

variable {n : Nodes}

section

variable (n : Nodes) (i : Nat) (name : List UInt8)

end

end Fold

/-! ### References -/

def refs (v : Vfs) (i : Nat) : Int := ∑ k, if (v.icache k).inum = i then (v.icache k).ref else 0

section References

variable {strict : Prop} {v v' : Vfs} {m : Counts} {k : Fin NINODE}

end References

/-! ### `namei` and `nameiparent` -/

def nameiparent (v : Vfs) (cwd : Fin NINODE) (path : List UInt8) :
    Except Stop (Option (Fin NINODE × List UInt8) × Vfs) :=
  namex v cwd path true

section Lookups

variable {v : Vfs} {m : Counts} {cwd : Fin NINODE} {path : List UInt8}

end Lookups

/-! ### A new file system -/

theorem Cached.boot {strict : Prop} {nodes : Nodes} (hroot : (nodes ROOTINO).type ≠ 0) :
    Cached strict (Kernel.boot nodes).vfs (hold 0 0) := by
  have hk : ∀ k, 0 < hold (0 : Counts) 0 k → k = 0 := fun k hk => (hold_pos.mp hk).resolve_left (Nat.lt_irrefl 0)
  refine ⟨Counted.boot nodes, fun k hpos => ?_, fun k hpos _ => ?_, fun _ k hpos => ?_⟩
  · rw [hk k hpos]
    change ROOTINO < NINODES
    decide
  · rw [hk k hpos]
    exact hroot
  · rw [hk k hpos]
    exact hroot

theorem Held.boot {nodes : Nodes} (h : ∀ i < NINODES, (nodes i).type ≠ 0 → (nodes i).nlink ≠ 0) (m : Counts) :
    Held (Kernel.boot nodes).vfs m := fun i hi htype hnlink => absurd hnlink (h i hi htype)

theorem bareRoot_type (h : (bareRoot i).type ≠ 0) : i = ROOTINO := by
  by_contra hne
  rw [bareRoot, if_neg hne] at h
  exact h rfl

theorem bareRoot_dir (h : (bareRoot i).type = T_DIR) : i = ROOTINO := by
  apply bareRoot_type
  rw [h]
  decide

theorem bareRoot_fit : Fit True bareRoot := by
  have hentries : dirents (bareRoot ROOTINO).data = [entry dot ROOTINO, entry dotdot ROOTINO] := by decide
  have hmem : ∀ i, (bareRoot i).type = T_DIR → ∀ e ∈ dirents (bareRoot i).data, e.inum.toNat = ROOTINO := by
    intro i htype e he
    rw [bareRoot_dir htype, hentries] at he
    simp only [List.mem_cons, List.not_mem_nil, or_false] at he
    cases he with
    | inl he => rw [he]; rfl
    | inr he => rw [he]; rfl
  refine ⟨fun i htype => ?_, fun _ i htype e he _ => ?_, fun _ => by decide⟩
  · refine ⟨?_, ?_, fun e he => ?_⟩
    · rw [bareRoot_dir htype]
      decide
    · rw [bareRoot_dir htype]
      decide
    · rw [hmem i htype e he]
      decide
  · rw [hmem i htype e he]
    decide

end Laboratorio.Sys
