import Laboratorio.FsEntries
import Laboratorio.SysCalls

/-! Directories of whole entries. There the loops of `dirlookup`, `dirlink` and `isdirempty` are searches in
the list of entries, and a write of one entry replaces it or appends it. -/

namespace Laboratorio.Sys

open Fs

/-- A directory that is a sequence of whole entries of inodes that exist. -/
structure Whole (n : Node) : Prop where
  mod : n.data.length % DIRENT = 0
  le : n.data.length ≤ MAXFILE * BSIZE
  inum : ∀ e ∈ dirents n.data, e.inum.toNat < NINODES

/-- A directory that is a sequence of whole entries. -/
structure Aligned (n : Node) : Prop where
  mod : n.data.length % DIRENT = 0
  le : n.data.length ≤ MAXFILE * BSIZE

variable {n : Node}

theorem Whole.aligned (h : Whole n) : Aligned n := ⟨h.mod, h.le⟩

theorem Aligned.toNat_length (h : Aligned n) : (UInt32.ofNat n.data.length).toNat = n.data.length := by
  have hle := h.le
  apply UInt32.toNat_ofNat_of_lt'
  simp only [MAXFILE, NDIRECT, NINDIRECT, BSIZE] at hle
  simp only [UInt32.size]
  omega

/-! ### Scans -/

variable {v v' : Vfs} {k : Fin NINODE} {name : List UInt8}

theorem readDirent_eq {p : Panic} (h : Aligned (v.node k)) {j : Nat} (hj : j < (dirents (v.node k).data).length) :
    readDirent (contentsOf k) p v (DIRENT * j) = .ok ((dirents (v.node k).data)[j], v) := by
  have hle := h.le
  have hmod := h.mod
  have hj' := hj
  rw [length_dirents] at hj'
  simp only [DIRENT, MAXFILE, NDIRECT, NINDIRECT, BSIZE] at hle hmod hj' ⊢
  have hoff : (UInt32.ofNat (16 * j)).toNat = 16 * j :=
    UInt32.toNat_ofNat_of_lt' (show 16 * j < UInt32.size by simp only [UInt32.size]; omega)
  have hread : readArray (v.node k).data (UInt32.ofNat (16 * j)) (UInt32.ofNat DIRENT) =
      (16, slice (v.node k).data j) := by
    unfold readArray
    rw [hoff, show (UInt32.ofNat DIRENT).toNat = 16 from rfl, if_neg (by omega),
      show min 16 ((v.node k).data.length - 16 * j) = 16 by omega]
    rfl
  rw [readDirent]
  simp only [contentsOf, hread, ok_bind]
  rw [if_neg (by decide), pure_eq_ok]
  congr 2
  simp only [dirents, List.getElem_map, List.getElem_range]

/-- A scan of the entries from `j` on ends at the first that passes the test, or past the last one. -/
theorem findDirent_eq (p : Panic) (test : Dirent → Bool) (h : Aligned (v.node k)) {fuel j : Nat}
    (hfuel : (dirents (v.node k).data).length < fuel + j) :
    (∃ i e, (dirents (v.node k).data)[i]? = some e ∧ test e = true ∧ j ≤ i ∧ Skips (dirents (v.node k).data) test j i ∧
      findDirent (contentsOf k) p test fuel v (DIRENT * j) = .ok (some e, DIRENT * i, v)) ∨
    (Skips (dirents (v.node k).data) test j (dirents (v.node k).data).length ∧
      ∃ i, (j ≤ (dirents (v.node k).data).length → i = (dirents (v.node k).data).length) ∧
        findDirent (contentsOf k) p test fuel v (DIRENT * j) = .ok (none, DIRENT * i, v)) := by
  have hmod := h.mod
  have hsize : ((contentsOf k).size v).toNat = (v.node k).data.length := h.toNat_length
  have hlen := length_dirents (v.node k).data
  simp only [DIRENT] at hmod hlen
  induction fuel generalizing j with
  | zero => exact Or.inr ⟨Skips.empty (by omega), j, fun hj => absurd hj (by omega), rfl⟩
  | succ fuel ih =>
    rw [findDirent, hsize]
    by_cases hj : j < (dirents (v.node k).data).length
    · have hin : DIRENT * j < (v.node k).data.length := by
        simp only [DIRENT]
        omega
      have hget : (dirents (v.node k).data)[j]? = some (dirents (v.node k).data)[j] :=
        List.getElem?_eq_getElem hj
      rw [if_pos hin, readDirent_eq h hj, ok_bind]
      dsimp only
      by_cases htest : test (dirents (v.node k).data)[j] = true
      · rw [if_pos htest]
        exact Or.inl ⟨j, _, hget, htest, Nat.le_refl j, Skips.empty (Nat.le_refl j), rfl⟩
      · rw [if_neg htest, show DIRENT * j + DIRENT = DIRENT * (j + 1) by rfl]
        rcases ih (j := j + 1) (by omega) with ⟨i, e, he, htrue, hi, hskip, hrun⟩ | ⟨hskip, i, hi, hrun⟩
        · exact Or.inl ⟨i, e, he, htrue, by omega, hskip.cons hget htest, hrun⟩
        · exact Or.inr ⟨hskip.cons hget htest, i, fun _ => hi (by omega), hrun⟩
    · rw [if_neg (by simp only [DIRENT]; omega)]
      exact Or.inr ⟨Skips.empty (by omega), j, fun hj' => by omega, rfl⟩

theorem length_lt_turns (h : Aligned (v.node k)) (j : Nat) :
    (dirents (v.node k).data).length < turns ((contentsOf k).size v) + j := by
  have hsize : ((contentsOf k).size v).toNat = (v.node k).data.length := h.toNat_length
  rw [turns, hsize, length_dirents]
  omega

/-! ### Directory operations -/

def named (name : List UInt8) (e : Dirent) : Bool := e.inum ≠ 0 ∧ namecmp name e.name = 0

variable {e : Dirent}

theorem named_iff : named name e = true ↔ e.inum ≠ 0 ∧ key name = key e.name := by
  rw [named, decide_eq_true_iff, namecmp_eq_zero]

/-- The inode that a directory has under a name. -/
def lookup (a : List UInt8) (name : List UInt8) : Option Nat :=
  ((dirents a).find? (named name)).map (·.inum.toNat)

theorem lookup_eq_none {a : List UInt8} :
    lookup a name = none ↔ ∀ e ∈ dirents a, e.inum ≠ 0 → key name ≠ key e.name := by
  rw [lookup, Option.map_eq_none_iff, List.find?_eq_none]
  simp only [named_iff, not_and, ne_eq]

theorem dirlookup_eq (hw : Aligned (v.node k)) (htype : (v.node k).type = T_DIR) (name : List UInt8) :
    (∃ i e, (dirents (v.node k).data)[i]? = some e ∧ e.inum ≠ 0 ∧ key name = key e.name ∧
      lookup (v.node k).data name = some e.inum.toNat ∧
      dirlookup (contentsOf k) v name = .ok (some (e.inum.toNat, DIRENT * i), v)) ∨
    (lookup (v.node k).data name = none ∧ dirlookup (contentsOf k) v name = .ok (none, v)) := by
  have hnot : ¬(contentsOf k).type v ≠ T_DIR := not_not.mpr htype
  rw [dirlookup, if_neg hnot]
  rcases findDirent_eq .dirlookupRead (named name) hw (length_lt_turns hw 0) with
    ⟨i, e, he, htest, -, hskip, hrun⟩ | ⟨hskip, i, -, hrun⟩
  · have hfind : (dirents (v.node k).data).find? (named name) = some e := by
      rw [List.find?_eq_some_iff_getElem]
      obtain ⟨hi, hget⟩ := List.getElem?_eq_some_iff.mp he
      refine ⟨htest, i, hi, hget, fun o ho => ?_⟩
      rw [hskip o _ (Nat.zero_le o) ho (List.getElem?_eq_getElem (ho.trans hi))]
      rfl
    obtain ⟨hinum, hkey⟩ := named_iff.mp htest
    refine Or.inl ⟨i, e, he, hinum, hkey, by rw [lookup, hfind]; rfl, ?_⟩
    change findDirent _ _ (named name) _ v (DIRENT * 0) >>= _ = _
    rw [hrun]
    rfl
  · refine Or.inr ⟨?_, ?_⟩
    · rw [lookup_eq_none]
      intro e he hinum hkey
      obtain ⟨o, ho⟩ := List.mem_iff_getElem?.mp he
      have hlt := (List.getElem?_eq_some_iff.mp ho).1
      have hfalse := hskip o e (Nat.zero_le o) hlt ho
      rw [named_iff.mpr ⟨hinum, hkey⟩] at hfalse
      cases hfalse
    · change findDirent _ _ (named name) _ v (DIRENT * 0) >>= _ = _
      rw [hrun]
      rfl

def entry (name : List UInt8) (inum : Nat) : Dirent where
  inum := UInt16.ofNat inum
  name := strncpy DIRSIZ name

theorem entry_length (name : List UInt8) (inum : Nat) : (entry name inum).encode.length = DIRENT := by
  rw [encode_length]
  exact congrArg (· + 2) (strncpy_length _ _)

/-- A node with an entry written in place `i`. -/
def Node.setEntry (n : Node) (i : Nat) (e : Dirent) : Node :=
  { n with data := overwrite n.data (DIRENT * i) e.encode }

variable {i : Nat}

theorem length_setEntry (hmod : n.data.length % DIRENT = 0) (hi : i ≤ (dirents n.data).length)
    (he : e.encode.length = DIRENT) :
    (n.setEntry i e).data.length = max n.data.length (DIRENT * i + DIRENT) ∧ DIRENT * i ≤ n.data.length := by
  rw [length_dirents] at hi
  simp only [DIRENT] at hmod hi he ⊢
  have hin : 16 * i ≤ n.data.length := by omega
  refine ⟨?_, hin⟩
  change (overwrite n.data (16 * i) e.encode).length = _
  rw [length_overwrite hin, he]

theorem dirents_setEntry (hmod : n.data.length % DIRENT = 0) (hi : i ≤ (dirents n.data).length)
    (hname : e.name.length = DIRSIZ) : dirents (n.setEntry i e).data = overwrite (dirents n.data) i [e] :=
  dirents_overwrite hmod (length_setEntry hmod hi (by rw [encode_length, hname])).2 hname

theorem Whole.congr {n' : Node} (h : Whole n) (hdata : n'.data = n.data) : Whole n' := by
  refine ⟨?_, ?_, ?_⟩
  · rw [hdata]
    exact h.mod
  · rw [hdata]
    exact h.le
  · rw [hdata]
    exact h.inum

theorem Whole.setEntry (h : Whole n) (hi : i ≤ (dirents n.data).length)
    (hfits : DIRENT * i + DIRENT ≤ MAXFILE * BSIZE) (hname : e.name.length = DIRSIZ) (hinum : e.inum.toNat < NINODES) :
    Whole (n.setEntry i e) := by
  have hmod := h.mod
  obtain ⟨hlength, -⟩ := length_setEntry hmod hi (by rw [encode_length, hname])
  refine ⟨?_, ?_, ?_⟩
  · rw [hlength]
    simp only [DIRENT] at hmod ⊢
    omega
  · rw [hlength]
    exact max_le h.le hfits
  · rw [dirents_setEntry hmod hi hname]
    intro e' he'
    cases mem_overwrite_singleton he' with
    | inl hmem => exact h.inum e' hmem
    | inr heq =>
      rw [heq]
      exact hinum

def noEntry : Dirent where
  inum := 0
  name := List.replicate DIRSIZ 0

/-- A place of a directory where `dirlink` may write. -/
structure Vacant (n : Node) (i : Nat) : Prop where
  le : i ≤ (dirents n.data).length
  empty : ∀ e, (dirents n.data)[i]? = some e → e.inum = 0
  fits : DIRENT * i + DIRENT ≤ MAXFILE * BSIZE

theorem Vacant.congr {n' : Node} (h : Vacant n i) (hdata : n'.data = n.data) : Vacant n' i := by
  refine ⟨?_, ?_, h.fits⟩
  · rw [hdata]
    exact h.le
  · rw [hdata]
    exact h.empty

abbrev Roomy (n : Nodes) : Prop := n.blocks ≤ Mkfs.sb.nblocks

theorem writei_ends {E : Stop → Prop} (hE : E (.panic .outOfBlocks)) (src : List UInt8) (off : UInt32) :
    Ends E ((contentsOf k).writei v src off) fun r =>
      Roomy (v.modify k fun n => { n with data := (writeArray n.data src off).2 }).nodes ∧ r.2 = v.modify k fun n =>
        { n with data := (writeArray n.data src off).2 } := by
  dsimp only [contentsOf]
  split
  · exact .stop hE
  · rename_i hroom
    exact .ok ⟨Nat.not_lt.mp hroom, rfl⟩

section

variable (hw : Aligned (v.node k))

include hw

theorem writei_fits (hi : i ≤ (dirents (v.node k).data).length)
    (he : e.encode.length = DIRENT) (hfits : DIRENT * i + DIRENT ≤ MAXFILE * BSIZE) :
    (contentsOf k).writei v e.encode (UInt32.ofNat (DIRENT * i)) =
      if Mkfs.sb.nblocks < (v.modify k fun n => n.setEntry i e).nodes.blocks then .error (.panic .outOfBlocks)
      else .ok ((DIRENT : Int), v.modify k fun n => n.setEntry i e) := by
  have hle := hw.le
  have hmod := hw.mod
  rw [length_dirents] at hi
  simp only [MAXFILE, NDIRECT, NINDIRECT, BSIZE, DIRENT] at hle hmod hi he hfits ⊢
  have hoff : (UInt32.ofNat (16 * i)).toNat = 16 * i :=
    UInt32.toNat_ofNat_of_lt' (show 16 * i < UInt32.size by simp only [UInt32.size]; omega)
  have hkeeps : ¬rejectsWrite (v.node k).data.length (16 * i) 16 := by
    simp only [rejectsWrite, MAXFILE, NDIRECT, NINDIRECT, BSIZE]
    omega
  have hwrite : writeArray (v.node k).data e.encode (UInt32.ofNat (16 * i)) =
      (16, overwrite (v.node k).data (16 * i) e.encode) := by
    rw [writeArray, hoff, he, if_neg hkeeps]
    rfl
  simp only [contentsOf, Vfs.modify, hwrite]
  rfl

theorem writei_entry (hi : i ≤ (dirents (v.node k).data).length) (he : e.encode.length = DIRENT) :
    (DIRENT * i + DIRENT ≤ MAXFILE * BSIZE ∧ Roomy (v.modify k fun n => n.setEntry i e).nodes ∧
      (contentsOf k).writei v e.encode (UInt32.ofNat (DIRENT * i)) =
      .ok ((DIRENT : Int), v.modify k fun n => n.setEntry i e)) ∨
    (∃ v', (contentsOf k).writei v e.encode (UInt32.ofNat (DIRENT * i)) = .ok (-1, v')) ∨
    (contentsOf k).writei v e.encode (UInt32.ofNat (DIRENT * i)) = .error (.panic .outOfBlocks) := by
  by_cases hfits : DIRENT * i + DIRENT ≤ MAXFILE * BSIZE
  · rw [writei_fits hw hi he hfits]
    by_cases hroom : Mkfs.sb.nblocks < (v.modify k fun n => n.setEntry i e).nodes.blocks
    · exact Or.inr (Or.inr (if_pos hroom))
    · exact Or.inl ⟨hfits, Nat.not_lt.mp hroom, if_neg hroom⟩
  have hle := hw.le
  rw [length_dirents] at hi
  simp only [MAXFILE, NDIRECT, NINDIRECT, BSIZE, DIRENT] at hle hi he hfits ⊢
  have hoff : (UInt32.ofNat (16 * i)).toNat = 16 * i :=
    UInt32.toNat_ofNat_of_lt' (show 16 * i < UInt32.size by simp only [UInt32.size]; omega)
  have hrejects : rejectsWrite (v.node k).data.length (16 * i) 16 := by
    simp only [rejectsWrite, MAXFILE, NDIRECT, NINDIRECT, BSIZE]
    omega
  refine Or.inr ?_
  have hwrite : (writeArray (v.node k).data e.encode (UInt32.ofNat (16 * i))).1 = -1 := by
    rw [writeArray, hoff, he, if_pos hrejects]
  simp only [contentsOf, hwrite]
  split
  · exact Or.inr rfl
  · exact Or.inl ⟨_, rfl⟩

/-- `dirlink` writes the entry in the first place that is empty, or after the last entry. -/
theorem addDirent_writes (name : List UInt8) (inum : Nat) :
    ∃ i, i ≤ (dirents (v.node k).data).length ∧ (∀ e, (dirents (v.node k).data)[i]? = some e → e.inum = 0) ∧
      addDirent (contentsOf k) v name inum = (do
        let (r, v) ← (contentsOf k).writei v (entry name inum).encode (UInt32.ofNat (DIRENT * i))
        if r ≠ (DIRENT : Int) then throw (.panic .dirlink) else pure v) := by
  rcases findDirent_eq .dirlinkRead (fun de => de.inum = 0) hw (length_lt_turns hw 0) with
    ⟨i, e, he, htest, -, -, hrun⟩ | ⟨-, i, hi, hrun⟩
  · refine ⟨i, (List.getElem?_eq_some_iff.mp he).1.le, fun e' he' => ?_, ?_⟩
    · cases he.symm.trans he'
      exact of_decide_eq_true htest
    · rw [addDirent, show 0 = DIRENT * 0 from rfl, hrun, ok_bind]
      rfl
  · have hend := hi (Nat.zero_le _)
    refine ⟨i, hend.le, fun e he => ?_, ?_⟩
    · rw [List.getElem?_eq_none hend.ge] at he
      cases he
    · rw [addDirent, show 0 = DIRENT * 0 from rfl, hrun, ok_bind]
      rfl

theorem addDirent_eq (name : List UInt8) (inum : Nat) :
    (∃ i, Vacant (v.node k) i ∧ Roomy (v.modify k fun n => n.setEntry i (entry name inum)).nodes ∧
      addDirent (contentsOf k) v name inum = .ok (v.modify k fun n => n.setEntry i (entry name inum))) ∨
    addDirent (contentsOf k) v name inum = .error (.panic .dirlink) ∨
    addDirent (contentsOf k) v name inum = .error (.panic .outOfBlocks) := by
  obtain ⟨i, hi, hempty, hrun⟩ := addDirent_writes hw name inum
  rw [hrun]
  rcases writei_entry hw hi (entry_length name inum) with ⟨hfits, hroom, hwrite⟩ | ⟨v', hwrite⟩ | hwrite
  · refine Or.inl ⟨i, ⟨hi, hempty, hfits⟩, hroom, ?_⟩
    rw [hwrite]
    rfl
  · refine Or.inr (Or.inl ?_)
    rw [hwrite]
    rfl
  · refine Or.inr (Or.inr ?_)
    rw [hwrite]
    rfl

theorem isdirempty_eq :
    ∃ empty, isdirempty (contentsOf k) v = .ok (empty, v) ∧
      (empty = true → ∀ e ∈ (dirents (v.node k).data).drop 2, e.inum = 0) := by
  rcases findDirent_eq .isdirempty (fun de => de.inum ≠ 0) hw (length_lt_turns hw 2) with
    ⟨i, e, he, htest, -, -, hrun⟩ | ⟨hskip, i, -, hrun⟩
  · refine ⟨false, ?_, fun hc => nomatch hc⟩
    change findDirent _ _ _ _ v (DIRENT * 2) >>= _ = _
    rw [hrun]
    rfl
  refine ⟨true, ?_, fun _ e he => ?_⟩
  · change findDirent _ _ _ _ v (DIRENT * 2) >>= _ = _
    rw [hrun]
    rfl
  · obtain ⟨o, ho⟩ := List.mem_iff_getElem?.mp he
    rw [List.getElem?_drop] at ho
    have hfalse := hskip (2 + o) e (Nat.le_add_right 2 o) (List.getElem?_eq_some_iff.mp ho).1 ho
    exact not_not.mp (of_decide_eq_false hfalse)

end

end Laboratorio.Sys
