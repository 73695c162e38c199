import Laboratorio.FsCache

/-! Path lookup: `skipelem` and `namex`, over whatever the inode cache does. Calls run one after another,
so `namex` holds no lock when it takes one. -/

namespace Laboratorio.Fs

open Function

abbrev ROOTINO : Nat := 1

abbrev SLASH : UInt8 := 47

abbrev dot : List UInt8 := [46]

abbrev dotdot : List UInt8 := [46, 46]

/-- The next element of a path, cut to `DIRSIZ`, and what follows it. -/
def skipelem (path : List UInt8) : Option (List UInt8 × List UInt8) :=
  let path := path.dropWhile (· = SLASH)
  if path.headD 0 = 0 then none
  else
    let s := path.takeWhile fun c => c ≠ SLASH ∧ c ≠ 0
    some (s.take DIRSIZ, (path.drop s.length).dropWhile (· = SLASH))

/-- What a path lookup uses of the inode cache. -/
structure Inodes (σ : Type) where
  iget : σ → Nat → Except Stop (Fin NINODE × σ)
  idup : σ → Fin NINODE → σ
  ilock : σ → Fin NINODE → Except Stop σ
  iput : σ → Fin NINODE → Except Stop σ
  contents : Fin NINODE → Contents σ

section Lookup

variable {σ : Type} (c : Inodes σ)

/-- The loop of `namex` from the inode `k`; it takes an element of the path in each turn. -/
def namexLoop (nameiparent : Bool) : Nat → σ → Fin NINODE → List UInt8 →
    Except Stop (Option (Fin NINODE × List UInt8) × σ)
  | 0, s, k, _ => pure (some (k, []), s)
  | fuel + 1, s, k, path =>
    match skipelem path with
    | none =>
      if nameiparent then do
        let s ← c.iput s k
        pure (none, s)
      else pure (some (k, []), s)
    | some (name, rest) => do
        let s ← c.ilock s k
        if (c.contents k).type s ≠ T_DIR then do
          let s ← c.iput s k
          pure (none, s)
        else if nameiparent ∧ rest.headD 0 = 0 then pure (some (k, name), s)
        else do
          let (found, s) ← dirlookup (c.contents k) s name
          match found with
          | none => do
              let s ← c.iput s k
              pure (none, s)
          | some (i, _) => do
              let (next, s) ← c.iget s i
              let s ← c.iput s k
              namexLoop nameiparent fuel s next rest

/-- `namex`: the inode, with the last element of the path if its parent was asked for. -/
def namex (s : σ) (cwd : Fin NINODE) (path : List UInt8) (nameiparent : Bool) :
    Except Stop (Option (Fin NINODE × List UInt8) × σ) := do
  let (k, s) ← if path.headD 0 = SLASH then c.iget s ROOTINO else pure (cwd, c.idup s cwd)
  namexLoop c nameiparent (path.length + 1) s k path

end Lookup

theorem skipelem_length {path name rest : List UInt8} (h : skipelem path = some (name, rest)) :
    rest.length < path.length := by
  unfold skipelem at h
  dsimp only at h
  split at h
  · cases h
  rename_i hnull
  cases hpath : path.dropWhile (· = SLASH) with
  | nil =>
    rw [hpath] at hnull
    exact absurd rfl hnull
  | cons c tail =>
    have hslash : ¬c = SLASH := by
      have hhead := List.head?_dropWhile_not (fun c => decide (c = SLASH)) path
      rw [hpath] at hhead
      simpa using hhead
    have hdrop : (c :: tail).length ≤ path.length := by
      rw [← hpath]
      exact (List.dropWhile_suffix _).length_le
    rw [hpath] at h hnull
    have htake : 0 < ((c :: tail).takeWhile fun c => decide (c ≠ SLASH ∧ c ≠ 0)).length := by
      rw [List.takeWhile_cons, if_pos (decide_eq_true ⟨hslash, hnull⟩)]
      exact Nat.succ_pos _
    cases h
    have hrest := (List.dropWhile_suffix (fun c => decide (c = SLASH))
      (l := (c :: tail).drop ((c :: tail).takeWhile fun c => decide (c ≠ SLASH ∧ c ≠ 0)).length)).length_le
    have hcons : 0 < (c :: tail).length := Nat.succ_pos _
    rw [List.length_drop] at hrest
    omega

/-- The cache over the disk. -/
def inodes (sb : Superblock) (dev : Devices) : Inodes State where
  iget s i := do
    let (k, c) ← iget s.icache i
    pure (k, { s with icache := c })
  idup s k := { s with icache := update s.icache k { s.icache k with ref := (s.icache k).ref + 1 } }
  ilock := ilock sb
  iput := iput sb
  contents := cached sb dev

end Laboratorio.Fs
