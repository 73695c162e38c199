import Laboratorio.SysNames

/-! `create`, and with it `mkdir`, `mknod` and `open`. The new inode gets its type, its first link and, as a directory,
its two entries before the parent names it; then all calls on the inodes in one step of the system. -/

namespace Laboratorio.Sys

open Function

open Fs

variable {strict : Prop} {T : Nodes → Prop} {v v' : Vfs} {m m' : Counts} {k cwd dp ip : Fin NINODE}

/-! ### A new directory -/

variable {x : Nat}

theorem toNat_entry (hx : x < NINODES) (name : List UInt8) : (entry name x).inum.toNat = x :=
  UInt16.toNat_ofNat_of_lt' (Nat.lt_trans hx (by decide))

theorem entry_inum_ne_zero (hx : x < NINODES) (hx0 : x ≠ 0) (name : List UInt8) : (entry name x).inum ≠ 0 := by
  intro hc
  apply hx0
  rw [← toNat_entry hx name, hc]
  rfl

section Dots

variable {n : Node} {x d : Nat}

theorem dirents_first (h : n.data = []) (name : List UInt8) (x : Nat) :
    dirents (n.setEntry 0 (entry name x)).data = [entry name x] := by
  rw [dirents_setEntry (by rw [h]; rfl) (Nat.zero_le _) (strncpy_length _ _), h]
  rfl

theorem length_first (h : n.data = []) (name : List UInt8) (x : Nat) :
    (n.setEntry 0 (entry name x)).data.length = DIRENT := by
  change (overwrite n.data (DIRENT * 0) _).length = _
  rw [h, length_overwrite (Nat.le_refl 0), entry_length]
  rfl

/-- The entries that `create` makes in a new directory. -/
def dots (n : Node) (x d : Nat) : Node := (n.setEntry 0 (entry dot x)).setEntry 1 (entry dotdot d)

theorem dirents_dots (h : n.data = []) (x d : Nat) : dirents (dots n x d).data = [entry dot x, entry dotdot d] := by
  have hlength := length_first h dot x
  have hfirst := dirents_first h dot x
  rw [dots, dirents_setEntry (by rw [hlength]; rfl) (by rw [hfirst]; exact Nat.le_refl 1) (strncpy_length _ _), hfirst]
  rfl

theorem whole_empty (h : n.data = []) : Whole n := by
  refine ⟨?_, ?_, ?_⟩
  · rw [h]
    rfl
  · rw [h]
    exact Nat.zero_le _
  · rw [h]
    exact fun _ he => nomatch he

theorem whole_first (h : n.data = []) (hx : x < NINODES) : Whole (n.setEntry 0 (entry dot x)) := by
  refine (whole_empty h).setEntry (Nat.zero_le _) (by decide) (strncpy_length _ _) ?_
  rw [toNat_entry hx]
  exact hx

theorem whole_dots (h : n.data = []) (hx : x < NINODES) (hd : d < NINODES) : Whole (dots n x d) := by
  refine (whole_first h hx).setEntry ?_ (by decide) (strncpy_length _ _) ?_
  · rw [dirents_first h]
    exact Nat.le_refl 1
  · rw [toNat_entry hd]
    exact hd

theorem vacant_empty {i : Nat} (h : n.data = []) (hvacant : Vacant n i) : i = 0 := by
  have hle := hvacant.le
  rw [h] at hle
  exact Nat.le_zero.mp hle

theorem vacant_first {i : Nat} (h : n.data = []) (hx : x < NINODES) (hx0 : x ≠ 0)
    (hvacant : Vacant (n.setEntry 0 (entry dot x)) i) : i = 1 := by
  have hle := hvacant.le
  have hempty := hvacant.empty
  rw [dirents_first h] at hle hempty
  match i with
  | 0 => exact absurd (hempty _ rfl) (entry_inum_ne_zero hx hx0 dot)
  | 1 => rfl
  | i + 2 => exact absurd hle (by simp)

end Dots

theorem makeDots_ends {type : UInt16} (hne : (v.icache ip).inum ≠ (v.icache dp).inum) (hdata : (v.node ip).data = [])
    (htype : (v.node ip).type = type) (hx : (v.icache ip).inum < NINODES) (hx0 : (v.icache ip).inum ≠ 0) :
    Ends (Fair strict) (makeDots v dp ip type) fun v' =>
      (type ≠ T_DIR ∧ v' = v) ∨ (type = T_DIR ∧ v'.icache = v.icache ∧ v'.nodes =
        update (update v.nodes (v.icache ip).inum (dots (v.node ip) (v.icache ip).inum (v.icache dp).inum))
          (v.icache dp).inum { v.node dp with nlink := (v.node dp).nlink + 1 }) := by
  unfold makeDots
  by_cases hdir : type = T_DIR
  · rw [if_neg (not_not.mpr hdir)]
    have hnode : (v.modify dp fun n => { n with nlink := n.nlink + 1 }).node ip = v.node ip := nodes_modify_of_ne hne
    have hnone : lookup (v.node ip).data dot = none := by
      rw [hdata]
      rfl
    refine (dirlink_fresh (by rw [hnode]; exact whole_empty hdata) (by rw [hnode, htype, hdir])
      (by rw [hnode]; exact hnone) _ _).bind fun r hr => ?_
    obtain ⟨r, v₁⟩ := r
    obtain ⟨rfl, i, hvacant, -, rfl⟩ := hr
    rw [hnode] at hvacant
    obtain rfl := vacant_empty hdata hvacant
    dsimp only [icache_modify]
    rw [if_neg (by decide)]
    have hnode₁ : ((v.modify dp fun n => { n with nlink := n.nlink + 1 }).modify ip fun n =>
        n.setEntry 0 (entry dot (v.icache ip).inum)).node ip =
          (v.node ip).setEntry 0 (entry dot (v.icache ip).inum) := by
      rw [node_modify_self, hnode]
    have hnone₁ : lookup ((v.node ip).setEntry 0 (entry dot (v.icache ip).inum)).data dotdot = none := by
      rw [lookup_eq_none, dirents_first hdata]
      intro e he _
      rw [List.mem_singleton.mp he]
      change _ ≠ key (strncpy DIRSIZ dot)
      rw [key_strncpy]
      decide
    refine (dirlink_fresh (by rw [hnode₁]; exact whole_first hdata hx) (by rw [hnode₁]; exact htype.trans hdir)
      (by rw [hnode₁]; exact hnone₁) _ _).bind fun r hr => ?_
    obtain ⟨r, v₂⟩ := r
    obtain ⟨rfl, j, hvacant₁, -, rfl⟩ := hr
    rw [hnode₁] at hvacant₁
    obtain rfl := vacant_first hdata hx hx0 hvacant₁
    dsimp only
    rw [if_neg (by decide)]
    refine .ok (Or.inr ⟨hdir, rfl, ?_⟩)
    rw [modify_modify, Vfs.modify, hnode]
    exact update_comm hne.symm _ _ _
  · rw [if_pos hdir]
    exact .ok (Or.inl ⟨hdir, rfl⟩)

/-! ### `create` -/

/-- What `create` makes of the new inode and of the link count of its parent. -/
inductive Made (n : Nodes) (x d : Nat) (type : UInt16) : Node → UInt16 → Prop
  | leaf {o : Node} (hkind : type ≠ T_DIR) (htype : o.type = type) (hnlink : o.nlink = 1) :
  Made n x d type o (n d).nlink
  | dir {o : Node} (hkind : type = T_DIR) (htype : o.type = type) (hnlink : o.nlink = 1) (hdata : o.data = []) :
      Made n x d type (dots o x d) ((n d).nlink + 1)

variable {n : Nodes} {d : Nat}

theorem Made.type {type c : UInt16} {o : Node} (h : Made n x d type o c) : o.type = type := by
  cases h with
  | leaf _ htype _ => exact htype
  | dir _ htype _ _ => exact htype

theorem Made.nlink {type c : UInt16} {o : Node} (h : Made n x d type o c) : o.nlink = 1 := by
  cases h with
  | leaf _ _ hnlink => exact hnlink
  | dir _ _ hnlink _ => exact hnlink

theorem ialloc_ends {type : UInt16} (hc : Cached strict v m) (hkind : type ≠ 0) :
    Ends (Fair strict) (ialloc v type) fun r => ∃ x, x < NINODES ∧ x ≠ 0 ∧ (v.nodes x).type = 0 ∧
      (r.2.icache r.1).inum = x ∧ Moves strict { v with nodes := update v.nodes x (Node.blank type) } r.2 m
      (hold m r.1) := by
  unfold ialloc
  split
  · rename_i x hfind
    have hmem := List.mem_range'_1.mp (List.mem_of_find?_eq_some hfind)
    have htype : (v.nodes x).type = 0 :=
      of_decide_eq_true (List.find?_some (p := fun i => decide ((v.nodes i).type = 0)) hfind)
    have hx : x < NINODES := by
      simp only [NINODES] at hmem ⊢
      omega
    have hblank : ∀ i, (v.nodes i).type ≠ 0 → (update v.nodes x (Node.blank type) i).type ≠ 0 := by
      intro i hi
      have hix : i ≠ x := by
        intro heq
        rw [heq] at hi
        exact hi htype
      rw [update_of_ne hix]
      exact hi
    have hc' : Cached strict { v with nodes := update v.nodes x (Node.blank type) } m := hc.relabel rfl hblank
    refine (vget_ends hc' hx fun _ => ?_).mono fun r hr => ⟨x, hx, by omega, htype, hr⟩
    dsimp only
    rw [update_self]
    exact hkind
  · exact .stop (Fair.of_ne (by decide))

theorem made_nodes {type major minor : UInt16} (hx : (v.icache ip).inum = x) (hd : (v.icache dp).inum = d) (hne : x ≠ d)
    (hrange : x < NINODES) (hx0 : x ≠ 0) (hnodes : v.nodes = update n x (Node.blank type)) :
    Ends (Fair strict) (makeDots (v.modify ip fun n => { n with major := major, minor := minor, nlink := 1 }) dp ip
    type) fun v' =>
      v'.icache = v.icache ∧ ∃ o c, Made n x d type o c ∧
        v'.nodes = update (update n x o) d { n d with nlink := c } := by
  have hnode : v.node ip = Node.blank type := by
    rw [Vfs.node, hnodes, hx, update_self]
  have hparent : (v.modify ip fun n => { n with major := major, minor := minor, nlink := 1 }).node dp = n d := by
    have hother : (v.icache dp).inum ≠ (v.icache ip).inum := by
      rw [hd, hx]
      exact hne.symm
    rw [Vfs.node, icache_modify, nodes_modify_of_ne hother, hnodes, hd, update_of_ne hne.symm]
  have hself : (v.modify ip fun n => { n with major := major, minor := minor, nlink := 1 }).node ip =
      { Node.blank type with major := major, minor := minor, nlink := 1 } := by
    rw [node_modify_self, hnode]
  have hwritten : (v.modify ip fun n => { n with major := major, minor := minor, nlink := 1 }).nodes =
      update n x { Node.blank type with major := major, minor := minor, nlink := 1 } := by
    dsimp only [Vfs.modify]
    rw [hx, hnodes, hnode, update_idem]
  refine (makeDots_ends ?_ (by rw [hself]; rfl) (by rw [hself]; rfl) ?_ ?_).mono fun v' hv' => ?_
  · rw [icache_modify, hx, hd]
    exact hne
  · rw [icache_modify, hx]
    exact hrange
  · rw [icache_modify, hx]
    exact hx0
  obtain ⟨hleaf, rfl⟩ | ⟨hdir, hcache, hnodes'⟩ := hv'
  · refine ⟨rfl, { Node.blank type with major := major, minor := minor, nlink := 1 }, _, .leaf hleaf rfl rfl, ?_⟩
    have hsame : update n x { Node.blank type with major := major, minor := minor, nlink := 1 } d = n d :=
      update_of_ne hne.symm _ _
    rw [hwritten]
    nth_rewrite 1 [← update_eq_self d (update n x _)]
    rw [hsame]
  · have hmade := Made.dir (n := n) (x := x) (d := d)
      (o := { Node.blank type with major := major, minor := minor, nlink := 1 }) hdir rfl rfl rfl
    refine ⟨hcache, _, _, hmade, ?_⟩
    rw [hnodes', icache_modify, hx, hd, hwritten, hself, hparent, update_idem]

/-- A call of `create` that makes `x` and enters its name in `d`. -/
structure Creating (n : Nodes) (cwd : Nat) (path : List UInt8) (type : UInt16) (x d i : Nat) (name : List UInt8)
    (o : Node) (c : UInt16) : Prop where
  parent : walk n cwd path true = some (d, name)
  lt : d < NINODES
  dir : (n d).type = T_DIR
  fresh : lookup (n d).data name = none
  vacant : Vacant (n d) i
  range : x < NINODES
  ne_zero : x ≠ 0
  free : (n x).type = 0
  made : Made n x d type o c

/-- `T` survives what `create` writes. -/
def Creates (T : Nodes → Prop) (n : Nodes) (cwd : Nat) (path : List UInt8) (type : UInt16) : Prop :=
  ∀ x d i name o c, Creating n cwd path type x d i name o c → Roomy (entered n x o d i (entry name x) c) →
    T (entered n x o d i (entry name x) c)

/-- What a call comes back with that looks for an inode, or makes it where `creates` holds. The inode is locked. -/
inductive Got (strict : Prop) (T : Nodes → Prop) (v : Vfs) (m : Counts) (creates : Prop) (kind : UInt16 → Prop) :
    Option (Fin NINODE) × Vfs → Prop
  | failed {v' : Vfs} (quiet : ¬creates) (moves : Moves strict v v' m m) : Got strict T v m creates kind (none, v')
  | existing {v' : Vfs} {ip : Fin NINODE} (quiet : ¬creates) (moves : Moves strict v v' m (hold m ip))
      (valid : (v'.icache ip).valid = true) (fits : kind (v'.node ip).type) :
      Got strict T v m creates kind (some ip, v')
  | made {v' : Vfs} {ip : Fin NINODE} (news : creates) (reaches : Reaches strict T v v' m (hold m ip))
      (valid : (v'.icache ip).valid = true) (fits : kind (v'.node ip).type)
      (free : (v.nodes (v'.icache ip).inum).type = 0)
      (live : (v'.node ip).type ≠ 0) (linked : (v'.node ip).nlink ≠ 0) : Got strict T v m creates kind (some ip, v')

variable {r : Option (Fin NINODE) × Vfs} {kind : UInt16 → Prop} {creates : Prop}

theorem Got.mono {creates' : Prop} {kind' : UInt16 → Prop} (h : Got strict T v m creates kind r)
    (hcreates : creates ↔ creates') (hkind : ∀ t, kind t → kind' t) : Got strict T v m creates' kind' r := by
  cases h with
  | failed quiet moves => exact .failed (fun hc => quiet (hcreates.mpr hc)) moves
  | existing quiet moves valid fits => exact .existing (fun hc => quiet (hcreates.mpr hc)) moves valid (hkind _ fits)
  | made news reaches valid fits free live linked =>
  exact .made (hcreates.mp news) reaches valid (hkind _ fits) free live linked

theorem Got.after (hmoves : Moves strict v v' m m')
    (h : Got strict T v' m creates kind r) : Got strict T v m creates kind r := by
  cases h with
  | failed quiet moves => exact .failed quiet ⟨moves.cached, moves.nodes.trans hmoves.nodes,
  hmoves.keeps.trans moves.keeps⟩
  | existing quiet moves valid fits =>
    exact .existing quiet ⟨moves.cached, moves.nodes.trans hmoves.nodes, hmoves.keeps.trans moves.keeps⟩ valid fits
  | made news reaches valid fits free live linked =>
    rw [hmoves.nodes] at free
    exact .made news ⟨reaches.good, hmoves.keeps.trans reaches.keeps⟩ valid fits free live linked

theorem Got.reaches (h : Good strict T v m)
    (hr : Got strict T v m creates kind r) : Reaches strict T v r.2 m (found m r.1) := by
  cases hr with
  | failed _ moves => exact h.moved moves
  | existing _ moves _ _ => exact h.taken moves
  | made _ reaches _ _ _ _ _ => exact reaches

theorem Good.createNew {name : List UInt8} {type major minor : UInt16} (hT : Sound strict T)
    (h : Good strict T v (hold m dp)) (hheld : Held v m) (hvalid : (v.icache dp).valid = true)
    (htype : (v.node dp).type = T_DIR)
    (hfresh : lookup (v.node dp).data name = none) (hkind : type ≠ 0)
    (hnew : ∀ x i o c, x < NINODES → x ≠ 0 → (v.nodes x).type = 0 → Vacant (v.node dp) i →
      Made v.nodes x (v.icache dp).inum type o c → Roomy (entered v.nodes x o (v.icache dp).inum i (entry name x) c) →
      T (entered v.nodes x o (v.icache dp).inum i (entry name x) c)) :
    Ends (Fair strict) (createNew v dp name type major minor) (Got strict T v m True (· = type)) := by
  refine (ialloc_ends h.cached hkind).bind fun r hr => ?_
  obtain ⟨ip, v₁⟩ := r
  obtain ⟨x, hx, hx0, hfree, hinum, hget⟩ := hr
  have hdp : 0 < hold m dp dp := hold_pos_self m dp
  have hip := hold_pos_self (hold m dp) ip
  refine (ilock_ends hget.cached hip [dp]).bind fun v₂ hv₂ => ?_
  obtain ⟨-, hvalid₂, hlock⟩ := hv₂
  have hmoved := hget.trans hlock.of_hold
  have hx₂ : (v₂.icache ip).inum = x := (hlock.inum hip).trans hinum
  have hd₂ : (v₂.icache dp).inum = (v.icache dp).inum := hmoved.inum hdp
  have hne : x ≠ (v.icache dp).inum := by
    intro heq
    rw [heq] at hfree
    exact dir_ne_zero htype hfree
  refine (made_nodes hx₂ hd₂ hne hx hx0 hmoved.nodes).bind fun v₄ hv₄ => ?_
  obtain ⟨hcache, o, c, hmade, hnodes⟩ := hv₄
  have hnode : v₄.node dp = { v.node dp with nlink := c } := by
    rw [Vfs.node, hnodes, hcache, hd₂, update_self]
    rfl
  have hx₄ : (v₄.icache ip).inum = x := by rw [hcache, hx₂]
  refine (dirlink_fresh (by rw [hnode]; exact ((hT.fit h.nodes).whole _ htype).congr rfl) (by rw [hnode]; exact htype)
    (by rw [hnode]; exact hfresh) _ _).bind fun r hr => ?_
  obtain ⟨r, v₅⟩ := r
  obtain ⟨rfl, i, hvacant, hroom, rfl⟩ := hr
  dsimp only at hroom ⊢
  rw [if_neg (by decide)]
  rw [hx₄] at hroom ⊢
  have hvacant' : Vacant (v.node dp) i := hvacant.congr (by rw [hnode])
  have hwritten : (v₄.modify dp fun n => n.setEntry i (entry name x)).nodes =
      entered v.nodes x o (v.icache dp).inum i (entry name x) c := by
    dsimp only [Vfs.modify]
    rw [hcache, hd₂, hnode, hnodes, update_idem]
    rfl
  rw [hwritten] at hroom
  have hself : ∀ {o'}, entered v.nodes x o' (v.icache dp).inum i (entry name x) c x = o' := by
    intro o'
    rw [entered, update_of_ne hne, update_self]
  have hdir : entered v.nodes x o (v.icache dp).inum i (entry name x) c (v.icache dp).inum =
      { (v.node dp).setEntry i (entry name x) with nlink := c } := update_self _ _ _
  have hother : ∀ j, j ≠ x → j ≠ (v.icache dp).inum → entered v.nodes x o (v.icache dp).inum i (entry name x) c j =
    v.nodes j := by
    intro j hjx hjd
    rw [entered, update_of_ne hjd, update_of_ne hjx]
  have hcached : Cached strict (v₄.modify dp fun n => n.setEntry i (entry name x)) (hold (hold m ip) dp) := by
    rw [hold_comm]
    refine hlock.cached.relabel hcache fun j hj => ?_
    rw [hwritten]
    by_cases hjx : j = x
    · rw [hjx, hself, hmade.type]
      exact hkind
    by_cases hjd : j = (v.icache dp).inum
    · rw [hjd, hdir]
      exact dir_ne_zero htype
    · rw [hother j hjx hjd]
      rw [hmoved.nodes] at hj
      dsimp only at hj
      rw [update_of_ne hjx] at hj
      exact hj
  have hkeeps : Keeps v (v₄.modify dp fun n => n.setEntry i (entry name x)) (hold m dp) := by
    intro l hl
    have hl' := hmoved.keeps l hl
    rw [icache_modify, hcache]
    exact hl'
  have hheld₅ : Held (v₄.modify dp fun n => n.setEntry i (entry name x)) (hold (hold m ip) dp) := by
    intro j hj hlive hzero
    rw [hwritten] at hlive hzero
    by_cases hjd : j = (v.icache dp).inum
    · exact ⟨dp, hold_pos_self _ dp, (hkeeps dp hdp).1.trans hjd.symm, (hkeeps dp hdp).2 hvalid⟩
    · by_cases hjx : j = x
      · rw [hjx, hself, hmade.nlink] at hzero
        exact absurd hzero (by decide)
      · rw [hother j hjx hjd] at hlive hzero
        obtain ⟨l, hl, hlinum, hlvalid⟩ := hheld j hj hlive hzero
        exact ⟨l, hold_mono (hold_mono hl), (hkeeps l (hold_mono hl)).1.trans hlinum,
          (hkeeps l (hold_mono hl)).2 hlvalid⟩
  refine (iput_ends hcached hheld₅ [ip]).bind fun v₆ hv₆ => .ok ?_
  obtain ⟨-, hcached₆, hheld₆, hkeeps₆, hnodes₆⟩ := hv₆
  have hip₆ := hold_pos_self m ip
  have hx₆ : (v₆.icache ip).inum = x := (hkeeps₆ ip hip₆).1.trans hx₄
  have hvalid₆ : (v₆.icache ip).valid = true := by
    apply (hkeeps₆ ip hip₆).2
    rw [icache_modify, hcache]
    exact hvalid₂
  have hT₅ := hnew x i o c hx hx0 hfree hvacant' hmade hroom
  rw [hwritten] at hnodes₆
  rw [icache_modify, hcache, hd₂] at hnodes₆
  have hafter : T v₆.nodes ∧ v₆.nodes x = o := by
    obtain hsame | ⟨-, hfrees⟩ := hnodes₆
    · rw [hsame, hself]
      exact ⟨hT₅, rfl⟩
    · refine ⟨hT.free hT₅ hfrees, ?_⟩
      rw [hfrees.eq, update_of_ne hne, hself]
  have hnode₆ : v₆.node ip = o := by
    rw [Vfs.node, hx₆]
    exact hafter.2
  refine .made trivial ⟨⟨hcached₆, hheld₆, hafter.1⟩, hkeeps.of_hold.trans hkeeps₆.of_hold⟩ hvalid₆ ?_ ?_ ?_ ?_
  · rw [hnode₆]
    exact hmade.type
  · rw [hx₆]
    exact hfree
  · rw [hnode₆, hmade.type]
    exact hkind
  · rw [hnode₆, hmade.nlink]
    decide

variable {path : List UInt8}

theorem entersAt_none {i : Nat} {name : List UInt8} (hwalk : walk n i path true = some (d, name))
    (hfound : lookup (n d).data name = some x) : entersAt n i path = none := by
  unfold entersAt
  rw [hwalk]
  dsimp only
  rw [hfound, Option.isSome_some, if_pos rfl]

theorem Good.create {type major minor : UInt16} (hT : Sound strict T) (h : Good strict T v m) (hcwd : 0 < m cwd)
    (hkind : type ≠ 0) (hnew : Creates T v.nodes (v.icache cwd).inum path type) :
    Ends (Fair strict) (create v cwd path type major minor)
      (Got strict T v m ((entersAt v.nodes (v.icache cwd).inum path).isSome = true) (· = type)) := by
  refine (h.resolved hT hcwd path true).bind fun r hr => ?_
  cases hr with
  | missing htarget hmoves =>
    refine .ok (.failed ?_ hmoves)
    rw [entersAt, htarget]
    exact Bool.false_ne_true
  | @found v₁ dp name htarget hmoves =>
    refine (hmoves.lock_parent htarget).bind fun v₂ hv₂ => ?_
    obtain ⟨hvalid, hall, htarget, htype⟩ := hv₂
    have h₂ : Good strict T v₂ (hold m dp) := (h.taken hall).good
    have hheld₂ : Held v₂ m := hall.held h.held
    have hfit := hT.fit h₂.nodes
    have hnode : v₂.node dp = v.nodes (v₂.icache dp).inum := congrFun hall.nodes _
    cases dirlookup_eq (hfit.whole _ htype).aligned htype name with
    | inl hfound =>
      obtain ⟨i, e, he, hinum, hkey, hlookup, hrun⟩ := hfound
      obtain ⟨hlt, hbacked⟩ := hfit.entry_backed htype he hinum
      have hquiet : ¬(entersAt v.nodes (v.icache cwd).inum path).isSome = true := by
        rw [hnode] at hlookup
        rw [entersAt_none htarget hlookup]
        exact Bool.false_ne_true
      rw [hrun, ok_bind]
      refine (vget_ends h₂.cached hlt hbacked).bind fun r hr => ?_
      obtain ⟨ip, v₃⟩ := r
      obtain ⟨-, hget⟩ := hr
      have hcached₃ : Cached strict v₃ (hold (hold m ip) dp) := by
        rw [hold_comm]
        exact hget.cached
      have hheld₃ : Held v₃ (hold m ip) := (hget.of_hold.held hheld₂).hold ip
      refine (iput_moves hcached₃ hheld₃ []).bind fun v₄ hv₄ => ?_
      have hip := hold_pos_self m ip
      refine (ilock_ends hv₄.2.cached hip []).bind fun v₅ hv₅ => ?_
      have hall₅ : Moves strict v v₅ m (hold m ip) :=
        hall.trans ((hget.of_hold.trans hv₄.2.of_hold).trans hv₅.2.2.of_hold)
      split
      · rename_i hfile
        exact .ok (.existing hquiet hall₅ hv₅.2.1 (hfile.2.trans hfile.1.symm))
      · refine (iput_moves hall₅.cached (hall₅.held h.held) []).bind fun v₆ hv₆ =>
          .ok (.failed hquiet (hall₅.trans hv₆.2))
    | inr hmissing =>
      obtain ⟨hnone, hrun⟩ := hmissing
      rw [hrun, ok_bind]
      refine (h₂.createNew hT hheld₂ hvalid htype hnone hkind fun x i o c hx hx0 hfree hvacant hmade hroom => ?_).mono
        fun r hr => ?_
      · rw [hnode] at htype hnone hvacant
        rw [hall.nodes] at hfree hmade hroom ⊢
        exact hnew x _ i name o c ⟨htarget, h₂.cached.range dp (hold_pos_self m dp), htype, hnone, hvacant, hx, hx0,
          hfree, hmade⟩ hroom
      · rw [hnode] at hnone
        refine (hr.after hall).mono ?_ fun _ ht => ht
        rw [entersAt_eq htarget hnone]
        exact iff_of_true trivial rfl

theorem Good.sysMake {type major minor : UInt16} (hT : Sound strict T) (h : Good strict T v m) (hcwd : 0 < m cwd)
    (hkind : type ≠ 0) (hnew : Creates T v.nodes (v.icache cwd).inum path type) :
    Ends (Fair strict) (sysMake v cwd path type major minor) (Done strict T v m) := by
  refine (h.create hT hcwd hkind hnew).bind fun r hr => ?_
  have hreaches := hr.reaches h
  cases hr with
  | failed _ moves => exact .ok (Or.inl ⟨rfl, moves⟩)
  | existing _ _ _ _ | made _ _ _ _ _ _ _ => exact (Reaches.drop hT hreaches).bind fun v₂ h₂ => .ok (Or.inr ⟨rfl, h₂⟩)

theorem Good.openInode {omode : UInt32} (hT : Sound strict T) (h : Good strict T v m) (hcwd : 0 < m cwd)
    (hnew : omode &&& O_CREATE ≠ 0 → Creates T v.nodes (v.icache cwd).inum path T_FILE) :
    Ends (Fair strict) (openInode v cwd path omode)
      (Got strict T v m (omode &&& O_CREATE ≠ 0 ∧ (entersAt v.nodes (v.icache cwd).inum path).isSome = true)
        fun t => t = T_DIR → omode = O_RDONLY) := by
  unfold Sys.openInode
  by_cases hmode : omode &&& O_CREATE ≠ 0
  · rw [if_pos hmode]
    refine (h.create hT hcwd (by decide) (hnew hmode)).mono fun r hr =>
      hr.mono (and_iff_right hmode).symm fun t ht hdir => ?_
    rw [ht] at hdir
    exact absurd hdir (by decide)
  rw [if_neg hmode]
  refine (h.resolved hT hcwd path false).bind fun r hr => ?_
  cases hr with
  | missing _ hmoves => exact .ok (.failed (fun hc => hmode hc.1) hmoves)
  | @found v₁ ip name _ hmoves =>
    refine (ilock_ends hmoves.cached (hold_pos_self m ip) []).bind fun v₂ hv₂ => ?_
    have hall : Moves strict v v₂ m (hold m ip) := hmoves.trans hv₂.2.2.of_hold
    split
    · refine (iput_moves hall.cached (hall.held h.held) []).bind fun v₃ hv₃ => ?_
      exact .ok (.failed (fun hc => hmode hc.1) (hall.trans hv₃.2))
    · rename_i hdir
      refine .ok (.existing (fun hc => hmode hc.1) hall hv₂.2.1 fun ht => ?_)
      by_contra hne
      exact hdir ⟨ht, hne⟩

end Laboratorio.Sys
