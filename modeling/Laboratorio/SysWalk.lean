import Laboratorio.SysRefs

/-! Path lookup. `walk` reads the inodes only; `namex` ends where it does, with one reference more, and has
changed no inode on the way. -/

namespace Laboratorio.Sys

open Fs

/-- The loop of a path lookup, on inode numbers. -/
def walkLoop (n : Nodes) (nameiparent : Bool) : Nat → Nat → List UInt8 → Option (Nat × List UInt8)
  | 0, i, _ => some (i, [])
  | fuel + 1, i, path =>
    match skipelem path with
    | none => if nameiparent then none else some (i, [])
    | some (name, rest) =>
      if (n i).type ≠ T_DIR then none
      else if nameiparent ∧ rest.headD 0 = 0 then some (i, name)
      else match lookup (n i).data name with
        | none => none
        | some j => walkLoop n nameiparent fuel j rest

/-- The inode of a path, or its parent with the last element. -/
def walk (n : Nodes) (cwd : Nat) (path : List UInt8) (nameiparent : Bool) : Option (Nat × List UInt8) :=
  walkLoop n nameiparent (path.length + 1) (if path.headD 0 = SLASH then ROOTINO else cwd) path

/-- Directories that a lookup can go through; a strict one finds no free inode there. -/
structure Fit (strict : Prop) (n : Nodes) : Prop where
  whole : ∀ i, (n i).type = T_DIR → Whole (n i)
  sound : strict → ∀ i, (n i).type = T_DIR → ∀ e ∈ dirents (n i).data, e.inum ≠ 0 →
    (n e.inum.toNat).type ≠ 0
  root : strict → (n ROOTINO).type ≠ 0

/-- What a lookup from `v` with target `t` comes back with. -/
inductive Resolved (strict : Prop) (v : Vfs) (m : Counts) (t : Option (Nat × List UInt8)) :
    Option (Fin NINODE × List UInt8) × Vfs → Prop
  | missing {v' : Vfs} (target : t = none) (moves : Moves strict v v' m m) : Resolved strict v m t (none, v')
  | found {v' : Vfs} {k : Fin NINODE} {name : List UInt8} (target : t = some ((v'.icache k).inum, name))
      (moves : Moves strict v v' m (hold m k)) : Resolved strict v m t (some (k, name), v')

variable {strict : Prop} {v v' : Vfs} {m m' : Counts} {k : Fin NINODE}

theorem Resolved.trans {t : Option (Nat × List UInt8)} {r : Option (Fin NINODE × List UInt8) × Vfs}
    (h : Moves strict v v' m m') (hr : Resolved strict v' m t r) : Resolved strict v m t r := by
  cases hr with
  | missing target moves => exact .missing target (h.trans moves)
  | found target moves => exact .found target (h.trans moves)

def Crowded (m : Counts) : Prop := ∀ k l, m k = 0 → m l = 0 → k = l

/-- How a lookup may stop. It needs an entry of the cache for the inode it is at and one for the next. -/
inductive Stuck (strict : Prop) (m : Counts) : Stop → Prop
  | full (h : Crowded m) : Stuck strict m (.panic .cacheFull)
  | noType (h : ¬strict) : Stuck strict m (.panic .noType)

theorem Stuck.fair {e : Stop} (h : Stuck strict m e) : Fair strict e := by
  cases h with
  | full _ => exact Fair.of_ne (by decide)
  | noType hnot => exact fun hs => absurd hs hnot

theorem Crowded.of_hold (h : ∀ l, 0 < hold m k l) : Crowded m := by
  have hk : ∀ l, m l = 0 → l = k := fun l hl => (hold_pos.mp (h l)).resolve_left (by omega)
  intro l l' hl hl'
  rw [hk l hl, hk l' hl']

theorem namexLoop_ends (nameiparent : Bool) {fuel : Nat} (path : List UInt8) (hpath : path.length < fuel)
    (hfit : Fit strict v.nodes) (hheld : Held v m) (hc : Cached strict v (hold m k)) :
    Ends (Stuck strict m) (namexLoop inodes nameiparent fuel v k path)
      (Resolved strict v m (walkLoop v.nodes nameiparent fuel (v.icache k).inum path)) := by
  induction fuel generalizing v k path with
  | zero => exact absurd hpath (Nat.not_lt_zero _)
  | succ fuel ih =>
    rw [namexLoop, walkLoop]
    cases hskip : skipelem path with
    | none =>
      cases nameiparent with
      | true =>
        refine (hc.drop hheld [] nofun).bind ?_
        rintro v₁ ⟨-, hmoves⟩
        exact .ok (.missing rfl hmoves)
      | false => exact .ok (.found rfl ⟨hc, rfl, Keeps.refl v m⟩)
    | some r =>
      obtain ⟨name, rest⟩ := r
      have hrest := skipelem_length hskip
      have hk := hold_pos_self m k
      dsimp only
      refine (hc.ilock hk [] nofun .noType).bind ?_
      rintro v₁ ⟨-, -, hlock⟩
      have hnode : v.nodes (v.icache k).inum = v₁.node k := (hlock.node hk).symm
      have hheld₁ := hlock.of_hold.held hheld
      have hcontents : inodes.contents k = contentsOf k := rfl
      have hkind : (contentsOf k).type v₁ = (v₁.node k).type := rfl
      rw [hnode, hcontents, hkind]
      by_cases htype : (v₁.node k).type ≠ T_DIR
      · rw [if_pos htype, if_pos htype]
        refine (hlock.cached.drop hheld₁ [] nofun).bind ?_
        rintro v₂ ⟨-, hmoves⟩
        exact .ok (.missing rfl (hlock.of_hold.trans hmoves))
      rw [if_neg htype, if_neg htype]
      by_cases hlast : nameiparent = true ∧ rest.headD 0 = 0
      · rw [if_pos hlast, if_pos hlast]
        refine .ok (.found ?_ hlock.of_hold)
        rw [hlock.inum hk]
      rw [if_neg hlast, if_neg hlast]
      rw [not_not] at htype
      have hdir : (v.nodes (v.icache k).inum).type = T_DIR := by
        rw [hnode]
        exact htype
      have hwhole : Whole (v₁.node k) := by
        rw [← hnode]
        exact hfit.whole _ hdir
      rcases dirlookup_eq hwhole.aligned htype name with ⟨i, e, he, hinum, -, hlookup, hrun⟩ | ⟨hlookup, hrun⟩
      · rw [hrun, hlookup, ok_bind]
        have hmem := List.mem_of_getElem? he
        have hbacked : strict → (v₁.nodes e.inum.toNat).type ≠ 0 := by
          intro hs
          rw [hlock.nodes]
          rw [← hnode] at hmem
          exact hfit.sound hs _ hdir e hmem hinum
        refine (hlock.cached.vget (hwhole.inum e hmem) hbacked fun h => .full (.of_hold h)).bind ?_
        rintro ⟨next, v₂⟩ ⟨hnext, hget⟩
        have hheld₂ := hget.of_hold.held hheld₁
        have hc₂ := hget.cached
        rw [hold_comm] at hc₂
        refine (hc₂.drop (hheld₂.hold next) [] nofun).bind ?_
        rintro v₃ ⟨-, hput⟩
        have hall := (hlock.of_hold.trans hget.of_hold).trans hput.of_hold
        have hfit₃ : Fit strict v₃.nodes := by
          rw [hall.nodes]
          exact hfit
        have hresolved := ih rest (by omega) hfit₃ (hput.of_hold.held hheld₂) hput.cached
        rw [hput.inum (hold_pos_self m next), hnext, hall.nodes] at hresolved
        exact hresolved.mono fun r hr => hr.trans hall
      · rw [hrun, hlookup, ok_bind]
        refine (hlock.cached.drop hheld₁ [] nofun).bind ?_
        rintro v₂ ⟨-, hmoves⟩
        exact .ok (.missing rfl (hlock.of_hold.trans hmoves))

theorem namex_resolves {cwd : Fin NINODE} (path : List UInt8) (nameiparent : Bool) (hfit : Fit strict v.nodes)
    (hheld : Held v m) (hc : Cached strict v m) (hcwd : 0 < m cwd) :
    Ends (Stuck strict m) (namex v cwd path nameiparent)
      (Resolved strict v m (walk v.nodes (v.icache cwd).inum path nameiparent)) := by
  rw [namex, Fs.namex, walk]
  have hstart : ∀ {k v₁} (_ : Moves strict v v₁ m (hold m k)),
      Ends (Stuck strict m) (namexLoop inodes nameiparent (path.length + 1) v₁ k path)
        (Resolved strict v m (walkLoop v.nodes nameiparent (path.length + 1) (v₁.icache k).inum path)) := by
    intro k v₁ hmoves
    have hfit₁ : Fit strict v₁.nodes := by
      rw [hmoves.nodes]
      exact hfit
    have hloop := namexLoop_ends nameiparent path (Nat.lt_succ_self path.length) hfit₁
      (hmoves.held hheld) hmoves.cached
    rw [hmoves.nodes] at hloop
    exact hloop.mono fun r hr => hr.trans hmoves
  by_cases hslash : path.headD 0 = SLASH
  · rw [if_pos hslash, if_pos hslash]
    refine (hc.vget (by decide) hfit.root fun h => .full fun l _ hl => absurd hl (h l).ne').bind ?_
    rintro ⟨k, v₁⟩ ⟨hinum, hmoves⟩
    rw [← hinum]
    exact hstart hmoves
  · rw [if_neg hslash, if_neg hslash, pure_eq_ok, ok_bind]
    have hmoves := idup_moves hc hcwd
    have hinum : ((idup v cwd).icache cwd).inum = (v.icache cwd).inum := hmoves.inum hcwd
    rw [← hinum]
    exact hstart hmoves

theorem namex_ends {cwd : Fin NINODE} (path : List UInt8) (nameiparent : Bool) (hfit : Fit strict v.nodes)
    (hheld : Held v m) (hc : Cached strict v m) (hcwd : 0 < m cwd) :
    Ends (Fair strict) (namex v cwd path nameiparent)
    (Resolved strict v m (walk v.nodes (v.icache cwd).inum path nameiparent)) :=
  (namex_resolves path nameiparent hfit hheld hc hcwd).mono_stop fun _ h => h.fair

end Laboratorio.Sys
