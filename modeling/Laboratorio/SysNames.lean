import Laboratorio.SysWalk
import Laboratorio.SysDescriptors

/-! The calls on paths. A call looks names up and drops its own references without changing an inode, so what it does to
the disk is what it writes between two lookups: a change of an inode and of an entry, which is `entered`. What a call
needs of the inodes is left open: any property `T` that makes directories fit for lookups and survives the freeing of an
inode is kept by a call if it survives what the call writes. A call that fails has changed no inode. -/

namespace Laboratorio.Sys

open Function

open Fs

/-- A property of the inodes that lookups can rely on, and that survives the freeing of an inode and what is written to
a file. -/
structure Sound (strict : Prop) (T : Nodes → Prop) : Prop where
  fit : ∀ {n}, T n → Fit strict n
  free : ∀ {n n' i}, T n → Frees n i n' → T n'
  data : ∀ {n i a}, T n → (n i).type ≠ T_DIR → Roomy (update n i { n i with data := a }) →
    T (update n i { n i with data := a })

/-- The inodes and the cache between two calls, with `m` references. -/
structure Good (strict : Prop) (T : Nodes → Prop) (v : Vfs) (m : Counts) : Prop where
  cached : Cached strict v m
  held : Held v m
  nodes : T v.nodes

/-- What a call leaves: all is good again, and the entries of the cache that were in use stay. -/
structure Reaches (strict : Prop) (T : Nodes → Prop) (v v' : Vfs) (m m' : Counts) : Prop where
  good : Good strict T v' m'
  keeps : Keeps v v' m

/-- The result of a call on paths: it has failed and changed no inode, or it has done its work. -/
def Done (strict : Prop) (T : Nodes → Prop) (v : Vfs) (m : Counts) (r : Int × Vfs) : Prop :=
  (r.1 = -1 ∧ Moves strict v r.2 m m) ∨ (r.1 = 0 ∧ Reaches strict T v r.2 m m)

variable {strict : Prop} {T : Nodes → Prop} {v v' : Vfs} {m m' : Counts} {k l cwd dp ip : Fin NINODE}

theorem Good.moved (h : Good strict T v m) (hmoves : Moves strict v v' m m) : Reaches strict T v v' m m := by
  refine ⟨⟨hmoves.cached, hmoves.held h.held, ?_⟩, hmoves.keeps⟩
  rw [hmoves.nodes]
  exact h.nodes

theorem Good.taken (h : Good strict T v m) (hmoves : Moves strict v v' m (hold m k)) :
    Reaches strict T v v' m (hold m k) := by
  refine ⟨⟨hmoves.cached, (hmoves.held h.held).hold k, ?_⟩, hmoves.keeps⟩
  rw [hmoves.nodes]
  exact h.nodes

theorem Done.reaches {r : Int × Vfs} (h : Good strict T v m) (hr : Done strict T v m r) :
    Reaches strict T v r.2 m m := by
  cases hr with
  | inl hfailed => exact h.moved hfailed.2
  | inr hdone => exact hdone.2

theorem Reaches.drop (hT : Sound strict T) (h : Reaches strict T v v' m (hold m k)) :
    Ends (Fair strict) (iput v' [] k) fun v'' => Reaches strict T v v'' m m := by
  refine (iput_ends h.good.cached h.good.held []).mono fun v'' hv'' => ?_
  obtain ⟨-, hcached, hheld, hkeeps, hnodes | ⟨-, hfrees⟩⟩ := hv''
  · refine ⟨⟨hcached, hheld, ?_⟩, h.keeps.trans hkeeps⟩
    rw [hnodes]
    exact h.good.nodes
  · exact ⟨⟨hcached, hheld, hT.free h.good.nodes hfrees⟩, h.keeps.trans hkeeps⟩

/-! ### Lookups -/

theorem Good.resolved (hT : Sound strict T) (h : Good strict T v m) (hcwd : 0 < m cwd) (path : List UInt8)
    (nameiparent : Bool) : Ends (Fair strict) (namex v cwd path nameiparent)
    (Resolved strict v m (walk v.nodes (v.icache cwd).inum path nameiparent)) :=
  namex_ends path nameiparent (hT.fit h.nodes) h.held h.cached hcwd

theorem Good.sysExec (hT : Sound strict T) (h : Good strict T v m) (hcwd : 0 < m cwd) (path : List UInt8)
    (loads : Bool) : Ends (Fair strict) (sysExec v cwd path loads) fun r => Moves strict v r.2 m m := by
  refine (h.resolved hT hcwd path false).bind fun r hr => ?_
  cases hr with
  | missing _ hmoves => exact .ok hmoves
  | @found v₁ ip name _ hmoves =>
    refine (ilock_ends hmoves.cached (hold_pos_self m ip) []).bind fun v₂ hv₂ => ?_
    have hall : Moves strict v v₂ m (hold m ip) := hmoves.trans hv₂.2.2.of_hold
    exact (iput_moves hall.cached (hall.held h.held) []).bind fun v₃ hv₃ => .ok (hall.trans hv₃.2)

variable {n : Nodes} {i d : Nat} {name : List UInt8}

theorem walk_dir {path : List UInt8} (h : walk n i path true = some (d, name)) : (n d).type = T_DIR := by
  have hloop : ∀ (fuel j : Nat) (path : List UInt8), path.length < fuel → walkLoop n true fuel j path = some (d, name) →
      (n d).type = T_DIR := by
    intro fuel
    induction fuel with
    | zero => exact fun _ _ hlt => absurd hlt (Nat.not_lt_zero _)
    | succ fuel ih =>
      intro j path hlt hwalk
      rw [walkLoop] at hwalk
      cases hskip : skipelem path with
      | none =>
        rw [hskip] at hwalk
        cases hwalk
      | some r =>
        obtain ⟨first, rest⟩ := r
        have hrest := skipelem_length hskip
        rw [hskip] at hwalk
        dsimp only at hwalk
        split at hwalk
        · cases hwalk
        · rename_i htype
          split at hwalk
          · cases hwalk
            exact not_not.mp htype
          · split at hwalk
            · cases hwalk
            · exact ih _ rest (by omega) hwalk
  exact hloop _ _ path (Nat.lt_succ_self _) h

/-- `nameiparent` followed by `ilock`: the directory that the walk ends in, held and locked. -/
theorem Moves.lock_parent {v₁ : Vfs} {path : List UInt8} (hmoves : Moves strict v v₁ m (hold m dp))
    (htarget : walk v.nodes i path true = some ((v₁.icache dp).inum, name)) :
    Ends (Fair strict) (ilock v₁ [] dp) fun v₂ => (v₂.icache dp).valid = true ∧ Moves strict v v₂ m (hold m dp) ∧
      walk v.nodes i path true = some ((v₂.icache dp).inum, name) ∧ (v₂.node dp).type = T_DIR := by
  refine (ilock_ends hmoves.cached (hold_pos_self m dp) []).mono fun v₂ hv₂ => ?_
  obtain ⟨-, hvalid, hlock⟩ := hv₂
  have hall : Moves strict v v₂ m (hold m dp) := hmoves.trans hlock.of_hold
  rw [← hlock.inum (hold_pos_self m dp)] at htarget
  refine ⟨hvalid, hall, htarget, ?_⟩
  rw [Vfs.node, hall.nodes]
  exact walk_dir htarget

variable {n' : Nodes}

theorem walk_congr (h : ∀ i, (n' i).type = (n i).type ∧ (n' i).data = (n i).data) (cwd : Nat) (path : List UInt8)
    (nameiparent : Bool) : walk n' cwd path nameiparent = walk n cwd path nameiparent := by
  have hloop : ∀ (fuel j : Nat) (path : List UInt8), walkLoop n' nameiparent fuel j path =
    walkLoop n nameiparent fuel j path := by
    intro fuel
    induction fuel with
    | zero => exact fun _ _ => rfl
    | succ fuel ih =>
      intro j path
      rw [walkLoop, walkLoop, (h j).1, (h j).2]
      simp only [ih]
  exact hloop _ _ path

/-! ### Entries -/

theorem Fit.entry_backed {e : Dirent} (h : Fit strict n) (htype : (n d).type = T_DIR)
    (he : (dirents (n d).data)[i]? = some e) (hinum : e.inum ≠ 0) :
    e.inum.toNat < NINODES ∧ (strict → (n e.inum.toNat).type ≠ 0) :=
  have hmem := List.mem_of_getElem? he
  ⟨(h.whole d htype).inum e hmem, fun hs => h.sound hs d htype e hmem hinum⟩

theorem dirlink_fresh (hwhole : Whole (v.node k)) (htype : (v.node k).type = T_DIR)
    (hnone : lookup (v.node k).data name = none) (held : List (Fin NINODE)) (inum : Nat) :
    Ends (Fair strict) (dirlink v held k name inum) fun r =>
      r.1 = 0 ∧ ∃ i, Vacant (v.node k) i ∧ Roomy r.2.nodes ∧ r.2 = v.modify k fun n =>
        n.setEntry i (entry name inum) := by
  unfold dirlink
  cases dirlookup_eq hwhole.aligned htype name with
  | inl hfound =>
    obtain ⟨-, e, -, -, -, hlookup, -⟩ := hfound
    exact absurd (hnone.symm.trans hlookup) (Option.some_ne_none _).symm
  | inr hmissing =>
    rw [hmissing.2, ok_bind]
    dsimp only
    obtain ⟨i, hvacant, hroom, hadd⟩ | hpanic | hpanic := addDirent_eq hwhole.aligned name inum
    · rw [hadd, ok_bind]
      exact .ok ⟨rfl, i, hvacant, hroom, rfl⟩
    · rw [hpanic]
      exact .stop (Fair.of_ne (by decide))
    · rw [hpanic]
      exact .stop (Fair.of_ne (by decide))

/-- `dirlink` leaves all as it was where the name is there already, and writes an entry where it is not. -/
theorem dirlink_ends (hc : Cached strict v m) (hheld : Held v m) (hfit : Fit strict v.nodes)
    (htype : (v.node k).type = T_DIR) (held : List (Fin NINODE)) (name : List UInt8) (inum : Nat) :
    Ends (Fair strict) (dirlink v held k name inum) fun r => (r.1 = -1 ∧ Moves strict v r.2 m m) ∨
      (r.1 = 0 ∧ lookup (v.node k).data name = none ∧ ∃ i, Vacant (v.node k) i ∧ Roomy r.2.nodes ∧
        r.2 = v.modify k fun n => n.setEntry i (entry name inum)) := by
  have hwhole : Whole (v.node k) := hfit.whole _ htype
  cases dirlookup_eq hwhole.aligned htype name with
  | inl hfound =>
    obtain ⟨i, e, he, hinum, -, -, hrun⟩ := hfound
    obtain ⟨hlt, hbacked⟩ := hfit.entry_backed htype he hinum
    unfold dirlink
    rw [hrun, ok_bind]
    refine (vget_ends hc hlt hbacked).bind fun r hr => ?_
    obtain ⟨l, v₁⟩ := r
    obtain ⟨-, hget⟩ := hr
    exact (iput_moves hget.cached (hget.held hheld) held).bind fun v₂ hv₂ => .ok (Or.inl ⟨rfl, hget.trans hv₂.2⟩)
  | inr hmissing =>
    refine (dirlink_fresh hwhole htype hmissing.1 held inum).mono fun r hr => Or.inr ?_
    exact ⟨hr.1, hmissing.1, hr.2⟩

/-- The directory where a call enters the last element of a path. -/
def entersAt (n : Nodes) (cwd : Nat) (path : List UInt8) : Option Nat :=
  match walk n cwd path true with
  | none => none
  | some (d, name) => if (lookup (n d).data name).isSome then none else some d

theorem entersAt_eq {path : List UInt8} (hwalk : walk n i path true = some (d, name))
    (hnone : lookup (n d).data name = none) : entersAt n i path = some d := by
  unfold entersAt
  rw [hwalk]
  dsimp only
  rw [hnone, if_neg (by decide)]

theorem Held.rewrite {g : Node → Node} (h : Held v m) (htype : (g (v.node k)).type = (v.node k).type)
    (hnlink : (g (v.node k)).nlink = (v.node k).nlink) : Held (v.modify k g) m := by
  refine h.relink modify_keeps fun i hi hzero => ?_
  by_cases heq : i = (v.icache k).inum
  · have hself : (v.modify k g).nodes i = g (v.node k) := by
      rw [heq]
      exact node_modify_self v k g
    rw [hself, htype] at hi
    rw [hself, hnlink] at hzero
    rw [heq]
    exact ⟨hi, hzero⟩
  · rw [nodes_modify_of_ne heq] at hi hzero
    exact ⟨hi, hzero⟩

/-! ### `link` -/

/-- A step that enters `x` in the directory `d`, and leaves `m` references. -/
structure Enters (strict : Prop) (v v' : Vfs) (m : Counts) (d : Nat) (name : List UInt8) (x : Nat) : Prop where
  lt : d < NINODES
  type : (v.nodes d).type = T_DIR
  fresh : lookup (v.nodes d).data name = none
  written : ∃ i, Vacant (v.nodes d) i ∧ v'.nodes = update v.nodes d ((v.nodes d).setEntry i (entry name x))
  room : Roomy v'.nodes
  cached : Cached strict v' m
  held : Held v' m
  keeps : Keeps v v' m

theorem linkEntry_ends (hc : Cached strict v m) (hheld : Held v m) (hfit : Fit strict v.nodes) (hcwd : 0 < m cwd)
    (hip : 0 < m ip) (new : List UInt8) :
    Ends (Fair strict) (linkEntry v cwd ip new) fun r => (r.1 = -1 ∧ Moves strict v r.2 m m) ∨
      (r.1 = 0 ∧ ∃ d name, walk v.nodes (v.icache cwd).inum new true = some (d, name) ∧
        Enters strict v r.2 m d name (v.icache ip).inum) := by
  refine (namex_ends new true hfit hheld hc hcwd).bind fun r hr => ?_
  cases hr with
  | missing _ hmoves => exact .ok (Or.inl ⟨rfl, hmoves⟩)
  | @found v₁ dp name htarget hmoves =>
    refine (hmoves.lock_parent htarget).bind fun v₂ hv₂ => ?_
    obtain ⟨-, hall, htarget, htype⟩ := hv₂
    have hheld₂ : Held v₂ m := hall.held hheld
    have hfit₂ : Fit strict v₂.nodes := by
      rw [hall.nodes]
      exact hfit
    refine (dirlink_ends hall.cached (hheld₂.hold dp) hfit₂ htype [dp] name _).bind fun r hr => ?_
    obtain ⟨r, v₃⟩ := r
    obtain ⟨rfl, hsame⟩ | ⟨rfl, hnone, i, hvacant, hroom, rfl⟩ := hr
    · refine (iput_moves hsame.cached (hsame.of_hold.held hheld₂) []).bind fun v₄ hv₄ => ?_
      exact .ok (Or.inl ⟨rfl, (hall.trans hsame.of_hold).trans hv₄.2⟩)
    have hcached : Cached strict (v₂.modify dp fun n => n.setEntry i (entry name (v₂.icache ip).inum)) (hold m dp) :=
      hall.cached.modify fun hne => hne
    refine (iput_moves hcached (hheld₂.rewrite rfl rfl) []).bind fun v₄ hv₄ => ?_
    obtain ⟨-, hput⟩ := hv₄
    have hnode : v₂.node dp = v.nodes (v₂.icache dp).inum := congrFun hall.nodes _
    rw [hnode] at htype hnone hvacant
    refine .ok (Or.inr ⟨rfl, _, name, htarget, hall.cached.range dp (hold_pos_self m dp), htype, hnone,
      ⟨i, hvacant, ?_⟩, ?_, hput.cached, hput.held (hheld₂.rewrite rfl rfl),
      (hall.keeps.trans modify_keeps).trans hput.keeps⟩)
    · rw [hput.nodes, ← hnode, ← hall.inum hip]
      dsimp only [Vfs.modify]
      rw [hall.nodes]
    · rw [hput.nodes]
      exact hroom

theorem Fit.congr (h : Fit strict n) (hsame : ∀ i, (n' i).type = (n i).type ∧ (n' i).data = (n i).data) :
    Fit strict n' := by
  refine ⟨fun i htype => ?_, fun hs i htype e he hinum => ?_, fun hs => ?_⟩
  · rw [(hsame i).1] at htype
    have hwhole := h.whole i htype
    refine ⟨?_, ?_, ?_⟩
    · rw [(hsame i).2]
      exact hwhole.mod
    · rw [(hsame i).2]
      exact hwhole.le
    · rw [(hsame i).2]
      exact hwhole.inum
  · rw [(hsame i).1] at htype
    rw [(hsame i).2] at he
    rw [(hsame _).1]
    exact h.sound hs i htype e he hinum
  · rw [(hsame _).1]
    exact h.root hs

theorem modify_nlink_same (v : Vfs) (k : Fin NINODE) (g : UInt16 → UInt16) (i : Nat) :
    ((v.modify k fun n => { n with nlink := g n.nlink }).nodes i).type = (v.nodes i).type ∧
      ((v.modify k fun n => { n with nlink := g n.nlink }).nodes i).data = (v.nodes i).data := by
  dsimp only [Vfs.modify]
  by_cases heq : i = (v.icache k).inum
  · rw [heq, update_self]
    exact ⟨rfl, rfl⟩
  · rw [update_of_ne heq]
    exact ⟨rfl, rfl⟩

theorem dir_ne_zero {n : Node} (h : n.type = T_DIR) : n.type ≠ 0 := by
  rw [h]
  decide

/-- The inodes after `x` became `o`, and the directory `d` got the entry `e` in place `i` and the link count `c`. -/
def entered (n : Nodes) (x : Nat) (o : Node) (d i : Nat) (e : Dirent) (c : UInt16) : Nodes :=
  update (update n x o) d { (n d).setEntry i e with nlink := c }

/-- A call of `link` that enters the name `name` for `x` in `d`. -/
structure Linking (n : Nodes) (cwd : Nat) (old new : List UInt8) (x d i : Nat) (name : List UInt8) : Prop where
  source : ∃ last, walk n cwd old false = some (x, last)
  parent : walk n cwd new true = some (d, name)
  lt : d < NINODES
  type : (n d).type = T_DIR
  fresh : lookup (n d).data name = none
  vacant : Vacant (n d) i
  range : x < NINODES
  live : (n x).type ≠ 0
  leaf : (n x).type ≠ T_DIR

/-- The inodes after a `link`. -/
abbrev linkedNodes (n : Nodes) (x d i : Nat) (name : List UInt8) : Nodes :=
  entered n x { n x with nlink := (n x).nlink + 1 } d i (entry name x) (n d).nlink

theorem Good.sysLink (hT : Sound strict T) (h : Good strict T v m) (hcwd : 0 < m cwd) (old new : List UInt8)
    (hnew : ∀ x d i name, Linking v.nodes (v.icache cwd).inum old new x d i name →
      Roomy (linkedNodes v.nodes x d i name) → T (linkedNodes v.nodes x d i name)) :
    Ends (Fair strict) (sysLink v cwd old new) (Done strict T v m) := by
  refine (h.resolved hT hcwd old false).bind fun r hr => ?_
  cases hr with
  | missing _ hmoves => exact .ok (Or.inl ⟨rfl, hmoves⟩)
  | @found v₁ ip last htarget hmoves =>
    have hip := hold_pos_self m ip
    refine (ilock_ends hmoves.cached hip []).bind fun v₂ hv₂ => ?_
    obtain ⟨-, hvalid, hlock⟩ := hv₂
    have hall : Moves strict v v₂ m (hold m ip) := hmoves.trans hlock.of_hold
    have h₂ : Good strict T v₂ (hold m ip) := (h.taken hall).good
    rw [← hlock.inum hip] at htarget
    split
    · refine (iput_moves hall.cached (hall.held h.held) []).bind fun v₃ hv₃ => ?_
      exact .ok (Or.inl ⟨rfl, hall.trans hv₃.2⟩)
    rename_i hkind
    have hsame := modify_nlink_same v₂ ip (· + 1)
    have hheld₃ : Held (v₂.modify ip fun n => { n with nlink := n.nlink + 1 }) (hold m ip) := h₂.held.modify hip hvalid
    have hcached₃ : Cached strict (v₂.modify ip fun n => { n with nlink := n.nlink + 1 }) (hold m ip) :=
      h₂.cached.modify fun hne => hne
    refine (linkEntry_ends hcached₃ hheld₃ ((hT.fit h₂.nodes).congr hsame) (hold_mono hcwd) hip new).bind fun r hr => ?_
    obtain ⟨r, v₄⟩ := r
    dsimp only at hr ⊢
    obtain ⟨rfl, hback⟩ | ⟨rfl, d, name, hwalk, henters⟩ := hr
    · rw [if_pos (by decide)]
      refine (ilock_ends hback.cached hip []).bind fun v₅ hv₅ => ?_
      obtain ⟨-, hvalid₅, hlock₅⟩ := hv₅
      -- The link count is what it was.
      have hnodes : (v₅.modify ip fun n => { n with nlink := n.nlink - 1 }).nodes = v₂.nodes := by
        dsimp only [Vfs.modify, Vfs.node]
        rw [hlock₅.inum hip, hback.inum hip, hlock₅.nodes, hback.nodes]
        dsimp only [Vfs.modify]
        rw [update_self, update_idem, UInt16.add_sub_cancel]
        exact update_eq_self _ _
      have hkeeps : Keeps v (v₅.modify ip fun n => { n with nlink := n.nlink - 1 }) m :=
        ((hall.keeps.trans modify_keeps).trans (hback.keeps.of_hold.trans hlock₅.keeps.of_hold)).trans modify_keeps
      have hmoves₆ : Moves strict v (v₅.modify ip fun n => { n with nlink := n.nlink - 1 }) m (hold m ip) :=
        ⟨hlock₅.cached.modify fun hne => hne, hnodes.trans hall.nodes, hkeeps⟩
      refine (iput_moves hmoves₆.cached (hmoves₆.held h.held) []).bind fun v₇ hv₇ => ?_
      exact .ok (Or.inl ⟨rfl, hmoves₆.trans hv₇.2⟩)
    · rw [if_neg (by decide)]
      have htype : (v₂.nodes d).type = T_DIR := (hsame d).1.symm.trans henters.type
      have hdx : d ≠ (v₂.icache ip).inum := by
        intro heq
        rw [heq] at htype
        exact hkind htype
      have hnode := nodes_modify_of_ne (g := fun n => { n with nlink := n.nlink + 1 }) hdx
      obtain ⟨i, hvacant, hnodes⟩ := henters.written
      have hfresh := henters.fresh
      have hcwd' : ((v₂.modify ip fun n => { n with nlink := n.nlink + 1 }).icache cwd).inum = (v.icache cwd).inum :=
        hall.inum hcwd
      rw [walk_congr hsame, hall.nodes, hcwd'] at hwalk
      rw [hnode] at hvacant hfresh hnodes
      rw [hall.nodes] at htype hvacant hfresh
      have hlinking : Linking v.nodes (v.icache cwd).inum old new (v₂.icache ip).inum d i name := by
        refine ⟨⟨last, htarget⟩, hwalk, henters.lt, htype, hfresh, hvacant, h₂.cached.range ip hip, ?_, ?_⟩
        · rw [← hall.nodes]
          exact h₂.cached.live ip hip hvalid
        · rw [← hall.nodes]
          exact hkind
      have hwritten : v₄.nodes = linkedNodes v.nodes (v₂.icache ip).inum d i name := by
        rw [hnodes]
        dsimp only [Vfs.modify, Vfs.node]
        rw [hall.nodes]
        rfl
      have h₄ : Reaches strict T v v₄ m (hold m ip) := by
        refine ⟨⟨henters.cached, henters.held, ?_⟩, (hall.keeps.trans modify_keeps).trans henters.keeps.of_hold⟩
        have hroom := henters.room
        rw [hwritten] at hroom ⊢
        exact hnew _ d i name hlinking hroom
      exact (h₄.drop hT).bind fun v₅ h₅ => .ok (Or.inr ⟨rfl, h₅⟩)

/-! ### `unlink` -/

theorem Roomy.congr (h : Roomy n) (hdata : ∀ i, (n' i).data = (n i).data) : Roomy n' := by
  have hsame : n'.blocks = n.blocks := by
    apply Finset.sum_congr rfl
    intro i _
    rw [hdata]
  change n'.blocks ≤ _
  rw [hsame]
  exact h

/-- The empty directory that a call removes. -/
def removesDir (n : Nodes) (cwd : Nat) (path : List UInt8) : Option Nat :=
  match walk n cwd path true with
  | none => none
  | some (d, name) =>
    if namecmp name dot = 0 ∨ namecmp name dotdot = 0 then none
    else (lookup (n d).data name).filter fun x => (n x).type = T_DIR ∧ ∀ e ∈ (dirents (n x).data).drop 2, e.inum = 0

theorem removable_eq (hwhole : (v.node k).type = T_DIR → Whole (v.node k)) :
    ∃ empty, removable v k = .ok (empty, v) ∧
      (empty = true → (v.node k).type = T_DIR → ∀ e ∈ (dirents (v.node k).data).drop 2, e.inum = 0) := by
  unfold removable
  by_cases htype : (v.node k).type = T_DIR
  · rw [if_pos htype]
    obtain ⟨empty, hrun, hempty⟩ := isdirempty_eq (hwhole htype).aligned
    exact ⟨empty, hrun, fun hc _ => hempty hc⟩
  · rw [if_neg htype]
    exact ⟨true, rfl, fun _ hc => absurd hc htype⟩

theorem modify_modify (v : Vfs) (k : Fin NINODE) (g g' : Node → Node) :
    (v.modify k g).modify k g' = v.modify k fun n => g' (g n) := by
  dsimp only [Vfs.modify, Vfs.node]
  rw [update_self, update_idem]

/-- The end of `sys_unlink`, once the entry is cleared and the parent has its new link count. The parent may be freed
before the inode that was unlinked has its new count. -/
theorem Good.unlinkPut (hT : Sound strict T) (h : Good strict T v (hold (hold m dp) ip))
    (hne : (v.icache ip).inum ≠ (v.icache dp).inum) (hvalid : (v.icache ip).valid = true)
    (hvalid' : (v.icache dp).valid = true) {g : Node → Node}
    (htype : (g (v.node dp)).type = (v.node dp).type)
    (hnew : T (update (update v.nodes (v.icache ip).inum { v.node ip with nlink := (v.node ip).nlink - 1 })
      (v.icache dp).inum (g (v.node dp)))) :
    Ends (Fair strict) (unlinkPut (v.modify dp g) dp ip) fun r => r.1 = 0 ∧ Reaches strict T v r.2 m m := by
  have hcomm := hold_comm m ip dp
  have hcached : Cached strict (v.modify dp g) (hold (hold m ip) dp) := by
    rw [hcomm]
    refine h.cached.modify fun hlive => ?_
    rw [htype]
    exact hlive
  have hheld : Held (v.modify dp g) (hold (hold m ip) dp) := by
    rw [hcomm]
    exact h.held.modify (hold_mono (hold_pos_self m dp)) hvalid'
  have hip := hold_pos_self m ip
  refine (iput_ends hcached hheld [ip]).bind fun v₁ hv₁ => ?_
  obtain ⟨-, hcached₁, hheld₁, hkeeps₁, hnodes₁⟩ := hv₁
  have hinum : (v₁.icache ip).inum = (v.icache ip).inum := (hkeeps₁ ip hip).1
  have hvalid₁ : (v₁.icache ip).valid = true := (hkeeps₁ ip hip).2 hvalid
  have hT₂ : T (v₁.modify ip fun n => { n with nlink := n.nlink - 1 }).nodes := by
    dsimp only [Vfs.modify, Vfs.node] at hnodes₁ ⊢
    rw [hinum]
    obtain hsame | ⟨-, hfrees⟩ := hnodes₁
    · rw [hsame, update_of_ne hne, update_comm hne.symm]
      exact hnew
    refine hT.free hnew ⟨hfrees.lt, ?_, ?_, ?_⟩
    · have hlive := hfrees.type
      rw [update_self] at hlive ⊢
      exact hlive
    · have hnlink := hfrees.nlink
      rw [update_self] at hnlink ⊢
      exact hnlink
    · rw [hfrees.eq, update_of_ne hne, update_of_ne hne, update_idem, update_self,
        update_self, update_idem, update_comm hne.symm]
      rfl
  have h₂ : Reaches strict T v (v₁.modify ip fun n => { n with nlink := n.nlink - 1 }) m (hold m ip) :=
    ⟨⟨hcached₁.modify fun hlive => hlive, hheld₁.modify hip hvalid₁, hT₂⟩,
    (modify_keeps.trans hkeeps₁.of_hold).trans modify_keeps⟩
  exact (h₂.drop hT).bind fun v₃ h₃ => .ok ⟨rfl, h₃⟩

/-- A call of `unlink` that removes the entry `e`, with the name `name` for `x`, from `d`. -/
structure Unlinking (n : Nodes) (cwd : Nat) (path : List UInt8) (x d i : Nat) (name : List UInt8) (e : Dirent) :
    Prop where
  parent : walk n cwd path true = some (d, name)
  found : lookup (n d).data name = some x
  lt : d < NINODES
  type : (n d).type = T_DIR
  place : (dirents (n d).data)[i]? = some e
  inum : e.inum ≠ 0
  target : e.inum.toNat = x
  named : key name = key e.name
  notDot : namecmp name dot ≠ 0
  notDotdot : namecmp name dotdot ≠ 0
  ne : x ≠ d
  range : x < NINODES
  live : (n x).type ≠ 0
  linked : 1 ≤ short (n x).nlink
  empty : (n x).type = T_DIR → ∀ e ∈ (dirents (n x).data).drop 2, e.inum = 0

/-- The inodes after an `unlink`; a directory that is removed was a link to its parent. -/
abbrev unlinkedNodes (n : Nodes) (x d i : Nat) : Nodes :=
  entered n x { n x with nlink := (n x).nlink - 1 } d i noEntry (if (n x).type = T_DIR then (n d).nlink -
  1 else (n d).nlink)

theorem entered_data {x : Nat} {o : Node} {e : Dirent} {c : UInt16} (ho : o.data = (n x).data) (j : Nat) :
    (entered n x o d i e c j).data = (update n d ((n d).setEntry i e) j).data := by
  unfold entered
  by_cases hjd : j = d
  · rw [hjd, update_self, update_self]
  · rw [update_of_ne hjd, update_of_ne hjd]
    by_cases hjx : j = x
    · rw [hjx, update_self, ho]
    · rw [update_of_ne hjx]

theorem Good.unlinkEntry (hT : Sound strict T) (h : Good strict T v (hold (hold m dp) ip)) (hheld : Held v m)
    (hne : (v.icache ip).inum ≠ (v.icache dp).inum) (hvalid : (v.icache ip).valid = true)
    (hvalid' : (v.icache dp).valid = true)
    (htype : (v.node dp).type = T_DIR) (hi : i < (dirents (v.node dp).data).length)
    (hnew : 1 ≤ short (v.node ip).nlink → ((v.node ip).type = T_DIR → ∀ e ∈ (dirents (v.node ip).data).drop 2,
      e.inum = 0) → Roomy (unlinkedNodes v.nodes (v.icache ip).inum (v.icache dp).inum i) →
      T (unlinkedNodes v.nodes (v.icache ip).inum (v.icache dp).inum i)) :
    Ends (Fair strict) (unlinkEntry v dp ip (DIRENT * i)) (Done strict T v m) := by
  unfold Sys.unlinkEntry
  split
  · exact .stop (Fair.of_ne (by decide))
  rename_i hlinks
  obtain ⟨empty, hrun, hempty⟩ := removable_eq ((hT.fit h.nodes).whole _)
  rw [hrun, ok_bind]
  dsimp only
  split
  · refine (iput_moves h.cached (hheld.hold dp) [dp]).bind fun v₁ hv₁ => ?_
    obtain ⟨-, hput⟩ := hv₁
    refine (iput_moves hput.cached (hput.of_hold.held hheld) []).bind fun v₂ hv₂ => ?_
    exact .ok (Or.inl ⟨rfl, hput.of_hold.trans hv₂.2⟩)
  rename_i hnot
  have hzero : List.replicate DIRENT (0 : UInt8) = noEntry.encode := rfl
  rw [hzero]
  obtain ⟨-, hroom, hwrite⟩ | ⟨v₁, hwrite⟩ | hwrite :=
    writei_entry (e := noEntry) ((hT.fit h.nodes).whole _ htype).aligned hi.le rfl
  · rw [hwrite, ok_bind]
    dsimp only
    have hnode : (v.modify dp fun n => n.setEntry i noEntry).node ip = v.node ip := nodes_modify_of_ne hne
    have hfinal := hnew (Int.not_lt.mp hlinks) (hempty (not_not.mp hnot)) (hroom.congr (entered_data rfl))
    have hkind : v.nodes (v.icache ip).inum = v.node ip := rfl
    unfold unlinkedNodes entered at hfinal
    rw [hkind] at hfinal
    rw [if_neg (by decide), hnode]
    by_cases hdir : (v.node ip).type = T_DIR
    · rw [if_pos hdir, modify_modify]
      rw [if_pos hdir] at hfinal
      exact (h.unlinkPut hT hne hvalid hvalid' rfl hfinal).mono fun r hr => Or.inr hr
    · rw [if_neg hdir]
      rw [if_neg hdir] at hfinal
      exact (h.unlinkPut hT hne hvalid hvalid' rfl hfinal).mono fun r hr => Or.inr hr
  · rw [hwrite, ok_bind]
    exact .stop (Fair.of_ne (by decide))
  · rw [hwrite]
    exact .stop (Fair.of_ne (by decide))

theorem Done.after {r : Int × Vfs} (hmoves : Moves strict v v' m m') (hr : Done strict T v' m r) :
    Done strict T v m r := by
  have hkeeps : Keeps v v' m := hmoves.keeps
  cases hr with
  | inl hfailed => exact Or.inl ⟨hfailed.1, hfailed.2.cached, hfailed.2.nodes.trans hmoves.nodes,
  hkeeps.trans hfailed.2.keeps⟩
  | inr hdone => exact Or.inr ⟨hdone.1, hdone.2.good, hkeeps.trans hdone.2.keeps⟩

theorem Good.sysUnlink (hT : Sound strict T) (h : Good strict T v m) (hcwd : 0 < m cwd) (path : List UInt8)
    (hnew : ∀ x d i name e, Unlinking v.nodes (v.icache cwd).inum path x d i name e →
      Roomy (unlinkedNodes v.nodes x d i) → T (unlinkedNodes v.nodes x d i)) :
    Ends (Fair strict) (sysUnlink v cwd path) (Done strict T v m) := by
  refine (h.resolved hT hcwd path true).bind fun r hr => ?_
  cases hr with
  | missing _ hmoves => exact .ok (Or.inl ⟨rfl, hmoves⟩)
  | @found v₁ dp name htarget hmoves =>
    have hdp := hold_pos_self m dp
    refine (hmoves.lock_parent htarget).bind fun v₂ hv₂ => ?_
    obtain ⟨hvalid, hall, htarget, htype⟩ := hv₂
    have hheld₂ : Held v₂ m := hall.held h.held
    have h₂ : Good strict T v₂ (hold m dp) := (h.taken hall).good
    have hback : Ends (Fair strict) (iput v₂ [] dp) fun v₃ => Moves strict v v₃ m m :=
      (iput_moves hall.cached hheld₂ []).mono fun v₃ hv₃ => hall.trans hv₃.2
    split
    · exact hback.bind fun v₃ hv₃ => .ok (Or.inl ⟨rfl, hv₃⟩)
    rename_i hname
    have hfit := hT.fit h₂.nodes
    cases dirlookup_eq (hfit.whole _ htype).aligned htype name with
    | inr hmissing =>
      rw [hmissing.2, ok_bind]
      exact hback.bind fun v₃ hv₃ => .ok (Or.inl ⟨rfl, hv₃⟩)
    | inl hfound =>
      obtain ⟨i, e, he, hinum, hkey, hlookup, hrun⟩ := hfound
      obtain ⟨hlt, hbacked⟩ := hfit.entry_backed htype he hinum
      rw [hrun, ok_bind]
      refine (vget_ends h₂.cached hlt hbacked).bind fun r hr => ?_
      obtain ⟨ip, v₃⟩ := r
      obtain ⟨hx, hget⟩ := hr
      have hip := hold_pos_self (hold m dp) ip
      refine (ilock_ends hget.cached hip [dp]).bind fun v₄ hv₄ => ?_
      obtain ⟨hmem, hvalid₄, hlock₄⟩ := hv₄
      have hall₄ : Moves strict v₂ v₄ (hold m dp) (hold (hold m dp) ip) := hget.trans hlock₄.of_hold
      have hstart : Moves strict v v₄ m (hold (hold m dp) ip) := hall.trans hall₄.of_hold
      have h₄ : Good strict T v₄ (hold (hold m dp) ip) := (h₂.taken hall₄).good
      rw [← hlock₄.inum hip] at hx
      have hd : (v₄.icache dp).inum = (v₂.icache dp).inum := hall₄.inum hdp
      have hnode : v₄.node dp = v₂.node dp := hall₄.node hdp
      have hne : (v₄.icache ip).inum ≠ (v₄.icache dp).inum := fun heq =>
        hmem (List.mem_singleton.mpr (h₄.cached.unique ip dp hip (hold_mono hdp) heq))
      rw [← hnode] at htype he hlookup
      refine (h₄.unlinkEntry hT (hstart.held h.held) hne hvalid₄ ((hall₄.keeps dp hdp).2 hvalid) htype
        (List.getElem?_eq_some_iff.mp he).1 fun hlinked hempty hroom => ?_).mono fun r hr => hr.after hstart
      have hfree := h₄.cached.live ip hip hvalid₄
      rw [Vfs.node] at htype he hlookup hlinked hempty hfree
      rw [hstart.nodes] at htype he hlookup hlinked hempty hfree hroom ⊢
      rw [← hd] at htarget
      exact hnew _ _ i name e ⟨htarget, hx ▸ hlookup, h₄.cached.range dp (hold_mono hdp), htype, he, hinum, hx.symm,
        hkey, fun hc => hname (Or.inl hc), fun hc => hname (Or.inr hc), hne, h₄.cached.range ip hip, hfree, hlinked,
        hempty⟩ hroom

end Laboratorio.Sys
