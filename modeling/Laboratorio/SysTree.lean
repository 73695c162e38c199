import Mathlib.Algebra.BigOperators.Ring.Finset
import Laboratorio.LinkTree
import Laboratorio.SysWalk

/-! The directory tree of the disk. The inodes are objects with link counts: a directory has for parent the inode
of its second entry and names those of the entries that follow. A directory in use counts for the link counts, and
an entry of 16 bytes takes room on the disk, so that no link count overflows a `short`. The calls change an inode
and an entry of a directory; what that does to the tree is said once, by `Tree.change`. -/

namespace Laboratorio.Sys

open Function

open Fs

/-! ### Objects -/

def target (e : Dirent) : Nat := e.inum.toNat

/-- What an inode is in the tree. -/
def Node.obj (n : Node) : LinkTree.Obj where
  kind :=
    if n.type = 0 then .free
    else if n.type = T_DIR then .dir (((dirents n.data)[1]?).elim 0 target) (((dirents n.data).drop 2).map target)
    else .leaf
  links := short n.nlink

def forest (n : Nodes) : LinkTree.Forest := fun i => (n i).obj

theorem forest_update (n : Nodes) (i : Nat) (o : Node) :
    forest (update n i o) = update (forest n) i o.obj := by
  funext j
  by_cases hj : j = i
  · rw [hj, update_self]
    exact congrArg Node.obj (update_self i o n)
  · rw [update_of_ne hj]
    exact congrArg Node.obj (update_of_ne hj o n)

theorem obj_free {n : Node} : n.obj.kind = .free ↔ n.type = 0 := by
  unfold Node.obj
  split
  · rename_i htype
    exact ⟨fun _ => htype, fun _ => rfl⟩
  · rename_i htype
    split
    · exact ⟨fun hc => (nomatch hc), fun hc => absurd hc htype⟩
    · exact ⟨fun hc => (nomatch hc), fun hc => absurd hc htype⟩

theorem type_of_dir {n : Node} {p : Nat} {l : List Nat} (h : n.obj.kind = .dir p l) : n.type = T_DIR := by
  unfold Node.obj at h
  split at h
  · cases h
  · split at h
    · rename_i htype
      exact htype
    · cases h

theorem obj_leaf {n : Node} (hfree : n.type ≠ 0) (hdir : n.type ≠ T_DIR) : n.obj = ⟨.leaf, short n.nlink⟩ := by
  unfold Node.obj
  rw [if_neg hfree, if_neg hdir]

/-! ### Link counts -/

variable {x : UInt16}

theorem short_of_lt (h : x.toNat < 2 ^ 15) : short x = x.toNat := if_pos h

theorem short_eq_natCast {c : Nat} (h : short x = c) : x.toNat = c := by
  unfold short at h
  have hx := x.toNat_lt
  split at h <;> omega

theorem short_succ (h : x.toNat + 1 < 2 ^ 15) : short (x + 1) = short x + 1 := by
  have hadd : (x + 1).toNat = x.toNat + 1 := by
    rw [UInt16.toNat_add, UInt16.toNat_one]
    omega
  rw [short_of_lt (by omega), short_of_lt (by omega), hadd]
  rfl

theorem short_pred (h : 1 ≤ short x) : short (x - 1) = short x - 1 := by
  have hx := x.toNat_lt
  unfold short at h ⊢
  have hsub : (x - 1).toNat = x.toNat - 1 := by
    have hle : (1 : UInt16) ≤ x := by
      rw [UInt16.le_iff_toNat_le, UInt16.toNat_one]
      split at h <;> omega
    rw [UInt16.toNat_sub_of_le _ _ hle, UInt16.toNat_one]
  rw [hsub]
  split at h
  · rw [if_pos (by omega), if_pos (by omega)]
    omega
  · omega

/-! ### Directories -/

/-- A directory of inode `i`: itself, its parent, and entries under other names. -/
structure Shaped (i : Nat) (n : Node) (e₀ e₁ : Dirent) (l : List Dirent) : Prop where
  whole : Whole n
  entries : dirents n.data = e₀ :: e₁ :: l
  first : key e₀.name = key dot
  self : target e₀ = i
  second : key e₁.name = key dotdot
  parent : e₁.inum ≠ 0
  rest : ∀ e ∈ l, e.inum ≠ 0 → key e.name ≠ key dot ∧ key e.name ≠ key dotdot

theorem target_eq_zero {e : Dirent} : target e = 0 ↔ e.inum = 0 := by
  rw [← UInt16.toNat_inj]
  rfl

variable {e' : Dirent}

section Shape

variable {i : Nat} {n n' : Node} {e e₀ e₁ : Dirent} {l : List Dirent}

theorem Shaped.congr (h : Shaped i n e₀ e₁ l) (hdata : n'.data = n.data) : Shaped i n' e₀ e₁ l := by
  refine ⟨h.whole.congr hdata, ?_, h.first, h.self, h.second, h.parent, h.rest⟩
  rw [hdata]
  exact h.entries

theorem Shaped.obj (h : Shaped i n e₀ e₁ l) (htype : n.type = T_DIR) :
    n.obj = ⟨.dir (target e₁) (l.map target), short n.nlink⟩ := by
  unfold Node.obj
  rw [htype, if_neg (by decide), if_pos rfl, h.entries]
  rfl

/-- A place of the list of names and the entry that is written there. -/
structure Place (l : List Dirent) (k : Nat) (e : Dirent) : Prop where
  le : k ≤ l.length
  fits : DIRENT * (k + 2) + DIRENT ≤ MAXFILE * BSIZE
  name : e.name.length = DIRSIZ
  inum : target e < NINODES
  other : e.inum ≠ 0 → key e.name ≠ key dot ∧ key e.name ≠ key dotdot

theorem Shaped.setEntry {k : Nat} (h : Shaped i n e₀ e₁ l) (hp : Place l k e) :
    Shaped i (n.setEntry (k + 2) e) e₀ e₁ (overwrite l k [e]) := by
  have hin : k + 2 ≤ (dirents n.data).length := by
    rw [h.entries]
    exact Nat.add_le_add_right hp.le 2
  refine ⟨h.whole.setEntry hin hp.fits hp.name hp.inum, ?_, h.first, h.self, h.second, h.parent, ?_⟩
  · rw [dirents_setEntry h.whole.mod hin hp.name, h.entries, overwrite_cons, overwrite_cons]
  · intro e' he'
    cases mem_overwrite_singleton he' with
    | inl hmem => exact h.rest e' hmem
    | inr heq =>
      rw [heq]
      exact hp.other

theorem adds_overwrite {k x : Nat} (hk : k ≤ l.length) (hempty : ∀ e', l[k]? = some e' → e'.inum = 0)
    (he : target e = x) : LinkTree.Adds (l.map target) ((overwrite l k [e]).map target) x := by
  intro y hy
  have hcount := count_overwrite (l := l.map target) (k := k) (by rwa [List.length_map]) x y
  have hold : ¬(l.map target)[k]? = some y := by
    rw [List.getElem?_map]
    intro hc
    obtain ⟨e', he', hy'⟩ := Option.map_eq_some_iff.mp hc
    exact hy (hy'.symm.trans (target_eq_zero.mpr (hempty e' he')))
  rw [if_neg hold, Nat.add_zero] at hcount
  rw [map_overwrite, List.map_singleton, he, hcount]
  simp only [eq_comm]

theorem drops_overwrite {k x : Nat} (hk : l[k]? = some e') (hx : target e' = x) (he : e.inum = 0) :
    LinkTree.Adds ((overwrite l k [e]).map target) (l.map target) x := by
  intro y hy
  have hlt := (List.getElem?_eq_some_iff.mp hk).1
  have hcount := count_overwrite (l := l.map target) (k := k) (by rw [List.length_map]; exact hlt.le) 0 y
  rw [List.getElem?_map, hk, Option.map_some, hx, if_neg (Ne.symm hy), Nat.add_zero] at hcount
  rw [map_overwrite, List.map_singleton, target_eq_zero.mpr he, ← hcount]
  simp only [Option.some.injEq, eq_comm]

end Shape

/-! ### The tree -/

structure Tree (strict : Prop) (n : Nodes) : Prop where
  shaped : ∀ i, (n i).type = T_DIR → ∃ e₀ e₁ l, Shaped i (n i) e₀ e₁ l
  inv : LinkTree.Inv NINODES ROOTINO (forest n)
  anchored : strict → LinkTree.Anchored NINODES (forest n)
  room : Roomy n

section Trees

variable {strict : Prop} {n : Nodes} {d k x i : Nat} {o : Node} {e e₀ e₁ : Dirent} {l : List Dirent} {c : UInt16}

theorem refs_le {n : Node} (h : n.type = T_DIR → ∃ e₀ e₁ l, Shaped i n e₀ e₁ l) (y : Nat) :
    n.obj.refs y ≤ BSIZE / DIRENT * blocksFor n.data.length := by
  by_cases hlive : ∃ p l, LinkTree.Live n.obj p l
  · obtain ⟨p, m, hm⟩ := hlive
    have htype := type_of_dir hm.kind
    obtain ⟨e₀, e₁, l, hshape⟩ := h htype
    have hlength := length_dirents n.data
    have hobj := hm.kind
    rw [hshape.obj htype] at hobj
    cases hobj
    have hcount := List.count_le_length (l := l.map target) (a := y)
    rw [hshape.entries] at hlength
    rw [LinkTree.refs_live hm]
    rw [List.length_map] at hcount
    have hone : (if target e₁ = y then 1 else 0) ≤ 1 := by
      split
      · exact Nat.le_refl 1
      · exact Nat.zero_le 1
    simp only [List.length_cons, DIRENT] at hlength
    simp only [blocksFor, BSIZE, DIRENT]
    omega
  · rw [LinkTree.refs_dead hlive]
    exact Nat.zero_le _

section

variable (h : Tree strict n)

include h

theorem Tree.count_le (y : Nat) : LinkTree.count NINODES (forest n) y ≤ 30112 := by
  calc LinkTree.count NINODES (forest n) y
      ≤ ∑ j ∈ Finset.range NINODES, BSIZE / DIRENT * blocksFor (n j).data.length :=
        Finset.sum_le_sum fun j _ => refs_le (h.shaped j) y
    _ = BSIZE / DIRENT * n.blocks := (Finset.mul_sum _ _ _).symm
    _ ≤ BSIZE / DIRENT * Mkfs.sb.nblocks := Nat.mul_le_mul_left _ h.room
    _ = 30112 := by decide

theorem Tree.nlink_eq (hi : i < NINODES) (hfree : (n i).type ≠ 0) :
    (n i).nlink.toNat = LinkTree.count NINODES (forest n) i :=
  short_eq_natCast (h.inv.links i hi fun hc => hfree (obj_free.mp hc))

theorem Tree.nlink_le (hi : i < NINODES) (hfree : (n i).type ≠ 0) : (n i).nlink.toNat ≤ 30112 := by
  rw [h.nlink_eq hi hfree]
  exact h.count_le i

theorem Tree.short_nlink (hi : i < NINODES) (hfree : (n i).type ≠ 0) :
    short (n i).nlink = (n i).nlink.toNat := by
  have hle := h.nlink_le hi hfree
  exact short_of_lt (by omega)

theorem Tree.type_zero : (n 0).type = 0 := obj_free.mp h.inv.zero

theorem Tree.ne_zero (hfree : (n i).type ≠ 0) : i ≠ 0 := by
  intro heq
  rw [heq] at hfree
  exact hfree h.type_zero

theorem Tree.live (hd : d < NINODES) (htype : (n d).type = T_DIR) (hshape : Shaped d (n d) e₀ e₁ l)
    (hnlink : (n d).nlink ≠ 0) : LinkTree.Live (forest n d) (target e₁) (l.map target) := by
  have hfree : (n d).type ≠ 0 := by
    rw [htype]
    decide
  have hobj : forest n d = _ := hshape.obj htype
  rw [hobj]
  refine ⟨rfl, ?_⟩
  have hpos : (n d).nlink.toNat ≠ 0 := fun hc => hnlink (UInt16.toNat_inj.mp hc)
  dsimp only
  rw [h.short_nlink hd hfree]
  omega

end

theorem Shaped.lt {n : Node} (h : Shaped i n e₀ e₁ l) : i < NINODES := by
  rw [← h.self]
  apply h.whole.inum
  rw [h.entries]
  exact List.mem_cons_self

theorem Tree.fit (h : Tree strict n) : Fit strict n := by
  refine ⟨fun i htype => ?_, fun hs i htype e he hinum => ?_, fun _ => ?_⟩
  · obtain ⟨e₀, e₁, l, hshape⟩ := h.shaped i htype
    exact hshape.whole
  · obtain ⟨e₀, e₁, l, hshape⟩ := h.shaped i htype
    have hobj : (forest n i).kind = .dir (target e₁) (l.map target) := congrArg LinkTree.Obj.kind (hshape.obj htype)
    obtain ⟨⟨-, hup⟩, hdown⟩ := h.inv.not_dangling (h.anchored hs) hshape.lt hobj
    change (n (target e)).type ≠ 0
    rw [hshape.entries] at he
    obtain _ | ⟨_, he⟩ := he
    · rw [hshape.self, htype]
      decide
    · obtain _ | ⟨_, he⟩ := he
      · exact fun hc => hup (obj_free.mpr hc)
      · have hne : target e ≠ 0 := fun hc => hinum (target_eq_zero.mp hc)
        exact fun hc => (hdown _ (List.mem_map_of_mem he) hne).2 (obj_free.mpr hc)
  · obtain ⟨-, l, hl⟩ := h.inv.root_live
    rw [type_of_dir hl.kind]
    decide

/-! ### Changing an inode and an entry -/

/-- The inodes after `x` became `o`, and the directory `d` got the entry `e` and the link count `c`. -/
def enter (n : Nodes) (x : Nat) (o : Node) (d k : Nat) (e : Dirent) (c : UInt16) : Nodes :=
  update (update n x o) d { (n d).setEntry (k + 2) e with nlink := c }

theorem forest_enter (htype : (n d).type = T_DIR) (hshape : Shaped d (n d) e₀ e₁ l) (hp : Place l k e) (x : Nat)
    (o : Node) (c : UInt16) : forest (enter n x o d k e c) =
      LinkTree.change (forest n) x o.obj d (target e₁) ((overwrite l k [e]).map target) (short c) := by
  have hnew : Shaped d { (n d).setEntry (k + 2) e with nlink := c } e₀ e₁ (overwrite l k [e]) :=
    (hshape.setEntry hp).congr rfl
  rw [enter, forest_update, forest_update, hnew.obj htype]
  rfl

theorem Tree.change (h : Tree strict n) (htype : (n d).type = T_DIR) (hshape : Shaped d (n d) e₀ e₁ l)
    (hp : Place l k e) (hx : o.type = T_DIR → ∃ e₀ e₁ l, Shaped x o e₀ e₁ l) (hroom : Roomy (enter n x o d k e c))
    (hinv : LinkTree.Inv NINODES ROOTINO
      (LinkTree.change (forest n) x o.obj d (target e₁) ((overwrite l k [e]).map target) (short c)))
    (hanchored : strict → LinkTree.Anchored NINODES
      (LinkTree.change (forest n) x o.obj d (target e₁) ((overwrite l k [e]).map target) (short c))) :
    Tree strict (enter n x o d k e c) := by
  rw [← forest_enter htype hshape hp] at hinv hanchored
  refine ⟨fun i hi => ?_, hinv, hanchored, hroom⟩
  unfold enter at hi ⊢
  by_cases hid : i = d
  · rw [hid, update_self]
    exact ⟨e₀, e₁, _, (hshape.setEntry hp).congr rfl⟩
  · rw [update_of_ne hid] at hi ⊢
    by_cases hix : i = x
    · rw [hix, update_self] at hi ⊢
      exact hx hi
    · rw [update_of_ne hix] at hi ⊢
      exact h.shaped i hi

/-- A directory in use, as the calls find it. -/
structure Parent (n : Nodes) (d : Nat) (e₀ e₁ : Dirent) (l : List Dirent) : Prop where
  lt : d < NINODES
  type : (n d).type = T_DIR
  shaped : Shaped d (n d) e₀ e₁ l
  linked : (n d).nlink ≠ 0

theorem Tree.nochild (h : Tree strict n) (hx : (n x).type ≠ T_DIR) (hs : strict) :
    ∀ y < NINODES, y ≠ x → ∀ q m, (forest n y).kind = .dir q m → q ≠ x :=
  (h.anchored hs).nochild fun ⟨_, _, hl⟩ => hx (type_of_dir hl.kind)

theorem not_dir_kind (hx : (n x).type ≠ T_DIR) (q : Nat) (m : List Nat) : (forest n x).kind ≠ .dir q m :=
  fun hc => hx (type_of_dir hc)

section

variable (h : Tree strict n) (hd : Parent n d e₀ e₁ l) (hp : Place l k e) (hempty : ∀ e', l[k]? = some e' → e'.inum = 0)
  (he : target e = x) (hx : x < NINODES)

include h hd hp hempty he hx

theorem Tree.addLeaf (hx0 : x ≠ 0) (hkind : (n x).type ≠ T_DIR) (hleaf : o.type ≠ 0 ∧ o.type ≠ T_DIR)
    (hlinks : short o.nlink = LinkTree.count NINODES (forest n) x + 1)
    (hroom : Roomy (enter n x o d k e (n d).nlink)) : Tree strict (enter n x o d k e (n d).nlink) := by
  have hlive := h.live hd.lt hd.type hd.shaped hd.linked
  have hobj : o.obj = ⟨.leaf, LinkTree.count NINODES (forest n) x + 1⟩ := by
    rw [obj_leaf hleaf.1 hleaf.2, hlinks]
  have hxd : x ≠ d := by
    intro heq
    rw [heq] at hkind
    exact hkind hd.type
  refine h.change hd.type hd.shaped hp (fun hc => absurd hc hleaf.2) hroom ?_ fun hs => ?_
  · rw [hobj]
    exact h.inv.addLeaf hd.lt hlive hx hx0 (not_dir_kind hkind) (adds_overwrite hp.le hempty he)
  · refine (h.anchored hs).change hd.lt hlive hxd hlive.links (fun q m hq => ?_) (h.nochild hkind hs)
    rw [hobj] at hq
    cases hq

theorem Tree.link (hfree : (n x).type ≠ 0) (hkind : (n x).type ≠ T_DIR)
    (hroom : Roomy (enter n x { n x with nlink := (n x).nlink + 1 } d k e (n d).nlink)) :
    Tree strict (enter n x { n x with nlink := (n x).nlink + 1 } d k e (n d).nlink) := by
  have hle := h.nlink_le hx hfree
  refine h.addLeaf hd hp hempty he hx (h.ne_zero hfree) hkind ⟨hfree, hkind⟩ ?_ hroom
  calc short ((n x).nlink + 1) = short (n x).nlink + 1 := short_succ (by omega)
    _ = LinkTree.count NINODES (forest n) x + 1 := by rw [h.short_nlink hx hfree, h.nlink_eq hx hfree]

theorem Tree.create (hx0 : x ≠ 0) (hfree : (n x).type = 0) (hleaf : o.type ≠ 0 ∧ o.type ≠ T_DIR) (hone : o.nlink = 1)
    (hroom : Roomy (enter n x o d k e (n d).nlink)) : Tree strict (enter n x o d k e (n d).nlink) := by
  have hkind : (n x).type ≠ T_DIR := by
    rw [hfree]
    decide
  refine h.addLeaf hd hp hempty he hx hx0 hkind hleaf ?_ hroom
  rw [h.inv.count_free hx0 (obj_free.mpr hfree), hone]
  rfl

end

theorem Tree.makeDir {e₀' e₁' : Dirent} (h : Tree strict n) (hd : Parent n d e₀ e₁ l) (hp : Place l k e)
    (hempty : ∀ e', l[k]? = some e' → e'.inum = 0) (he : target e = x) (hx : x < NINODES) (hx0 : x ≠ 0)
    (hfree : (n x).type = 0) (htype : o.type = T_DIR) (hone : o.nlink = 1) (hshape : Shaped x o e₀' e₁' [])
    (hup : target e₁' = d) (hroom : Roomy (enter n x o d k e ((n d).nlink + 1))) :
    Tree strict (enter n x o d k e ((n d).nlink + 1)) := by
  have hlive := h.live hd.lt hd.type hd.shaped hd.linked
  have hkind : (n x).type ≠ T_DIR := by
    rw [hfree]
    decide
  have hxd : x ≠ d := by
    intro heq
    rw [heq] at hkind
    exact hkind hd.type
  have hobj : o.obj = ⟨.dir d [], 1⟩ := by
    rw [hshape.obj htype, hup, hone]
    rfl
  have hlinks : short ((n d).nlink + 1) = (forest n d).links + 1 := by
    have hle := h.nlink_le hd.lt (by rw [hd.type]; decide)
    exact short_succ (by omega)
  refine h.change hd.type hd.shaped hp (fun _ => ⟨e₀', e₁', [], hshape⟩) hroom ?_ fun hs => ?_
  · rw [hobj, hlinks]
    exact h.inv.makeDir hd.lt hlive hx hx0 (obj_free.mpr hfree) (adds_overwrite hp.le hempty he)
  · have hpos := hlive.links
    refine (h.anchored hs).change hd.lt hlive hxd ?_ (fun q m hq => ?_) (h.nochild hkind hs)
    · rw [hlinks]
      omega
    · rw [hobj] at hq
      cases hq
      rfl

theorem Tree.dropLeaf (h : Tree strict n) (hd : Parent n d e₀ e₁ l) (hp : Place l k e) (he : e.inum = 0)
    (hk : l[k]? = some e') (hx' : target e' = x) (hx : x < NINODES) (hfree : (n x).type ≠ 0)
    (hkind : (n x).type ≠ T_DIR)
    (hlinks : 1 ≤ short (n x).nlink)
    (hroom : Roomy (enter n x { n x with nlink := (n x).nlink - 1 } d k e (n d).nlink)) :
    Tree strict (enter n x { n x with nlink := (n x).nlink - 1 } d k e (n d).nlink) := by
  have hlive := h.live hd.lt hd.type hd.shaped hd.linked
  have hobj : forest n x = ⟨.leaf, short (n x).nlink⟩ := obj_leaf hfree hkind
  have hobj' : Node.obj { n x with nlink := (n x).nlink - 1 } = ⟨.leaf, (forest n x).links - 1⟩ := by
    calc Node.obj { n x with nlink := (n x).nlink - 1 } = ⟨.leaf, short ((n x).nlink - 1)⟩ := obj_leaf hfree hkind
      _ = ⟨.leaf, (forest n x).links - 1⟩ := by rw [short_pred hlinks, hobj]
  have hxd : x ≠ d := by
    intro heq
    rw [heq] at hkind
    exact hkind hd.type
  refine h.change hd.type hd.shaped hp (fun hc => absurd hc hkind) hroom ?_ fun hs => ?_
  · rw [hobj']
    refine h.inv.dropLeaf hd.lt hlive hx (h.ne_zero hfree) ?_ (drops_overwrite hk hx' he)
    rw [hobj]
  · refine (h.anchored hs).change hd.lt hlive hxd hlive.links (fun q m hq => ?_) (h.nochild hkind hs)
    rw [hobj'] at hq
    cases hq

/-- `unlink` of an empty directory that no other directory, removed or not, has for its parent. -/
theorem Tree.dropDir {e₀' e₁' : Dirent} {l' : List Dirent} (h : Tree strict n) (hd : Parent n d e₀ e₁ l)
    (hp : Place l k e) (he : e.inum = 0) (hk : l[k]? = some e') (hx' : target e' = x) (hx : Parent n x e₀' e₁' l')
    (hquiet : ∀ e ∈ l', e.inum = 0)
    (hchild : strict → ∀ y < NINODES, y ≠ x → ∀ q m, (forest n y).kind = .dir q m → q ≠ x)
    (hroom : Roomy (enter n x { n x with nlink := (n x).nlink - 1 } d k e ((n d).nlink - 1))) :
    x ≠ d ∧ 2 ≤ (n d).nlink.toNat ∧
    Tree strict (enter n x { n x with nlink := (n x).nlink - 1 } d k e ((n d).nlink - 1)) := by
  have hlive := h.live hd.lt hd.type hd.shaped hd.linked
  have hxlive := h.live hx.lt hx.type hx.shaped hx.linked
  have hfree : (n x).type ≠ 0 := by
    rw [hx.type]
    decide
  have hdfree : (n d).type ≠ 0 := by
    rw [hd.type]
    decide
  have hmem : x ∈ l.map target := by
    rw [← hx']
    exact List.mem_map_of_mem (List.mem_of_getElem? hk)
  have hempty : ∀ z ∈ l'.map target, z = 0 := by
    intro z hz
    obtain ⟨e, he, rfl⟩ := List.mem_map.mp hz
    exact target_eq_zero.mpr (hquiet e he)
  have hchildren := h.inv.emptyChild hd.lt hlive (h.ne_zero hfree) hmem hxlive.kind hempty
  have htwo : 2 ≤ (n d).nlink.toNat := by
    rw [h.nlink_eq hd.lt hdfree]
    exact hchildren.siblings
  have hlinks : short ((n d).nlink - 1) = (forest n d).links - 1 := by
    apply short_pred
    rw [h.short_nlink hd.lt hdfree]
    omega
  have hobj : Node.obj { n x with nlink := (n x).nlink - 1 } = ⟨.dir (target e₁') (l'.map target),
    (forest n x).links - 1⟩ := by
    have hshape : Shaped x { n x with nlink := (n x).nlink - 1 } e₀' e₁' l' := hx.shaped.congr rfl
    rw [hshape.obj hx.type]
    rw [short_pred hxlive.links]
    rfl
  refine ⟨hchildren.ne_dir, htwo, h.change hd.type hd.shaped hp (fun _ => ⟨e₀', e₁', l', hx.shaped.congr rfl⟩) hroom ?_
    fun hs => ?_⟩
  · rw [hobj, hlinks]
    exact h.inv.dropDir hd.lt hlive (h.ne_zero hfree) hmem hxlive.kind hempty (drops_overwrite hk hx' he)
  refine (h.anchored hs).change hd.lt hlive hchildren.ne_dir ?_ (fun q m hq => ?_) (hchild hs)
  · rw [hlinks]
    have hd' := h.short_nlink hd.lt hdfree
    change 0 < short (n d).nlink - 1
    omega
  · rw [hobj] at hq
    cases hq
    exact hchildren.parent

theorem Tree.free {n' : Nodes} (h : Tree strict n) (hfrees : Frees n x n') : Tree strict n' := by
  have hforest : forest n' = update (forest n) x ⟨.free, short (n x).nlink⟩ := by
    rw [hfrees.eq, forest_update]
    rfl
  have hlinks : (forest n x).links = 0 := by
    change short (n x).nlink = 0
    rw [hfrees.nlink]
    rfl
  have hother : ∀ i, i ≠ x → n' i = n i := by
    intro i hi
    rw [hfrees.eq, update_of_ne hi]
  have hself : n' x = (n x).freed := by
    rw [hfrees.eq, update_self]
  refine ⟨fun i htype => ?_, ?_, fun hs => ?_, ?_⟩
  · have hix : i ≠ x := by
      intro heq
      rw [heq, hself] at htype
      cases htype
    rw [hother i hix] at htype ⊢
    exact h.shaped i htype
  · rw [hforest]
    exact h.inv.free hfrees.lt (h.ne_zero hfrees.type) (fun hc => hfrees.type (obj_free.mp hc)) hlinks _
  · rw [hforest]
    exact (h.anchored hs).free hlinks _
  · refine Nat.le_trans (Finset.sum_le_sum fun i _ => ?_) h.room
    by_cases hix : i = x
    · rw [hix, hself]
      exact blocksFor_mono (Nat.zero_le _)
    · rw [hother i hix]

end Trees

end Laboratorio.Sys
