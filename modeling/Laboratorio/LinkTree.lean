import Mathlib.Algebra.Order.BigOperators.Group.Finset
import Mathlib.Tactic.Common

/-! Numbered objects with link counts. An object is free, a leaf, or a directory with a parent and a list
of the objects it names, 0 for an empty place. A directory whose link count has dropped to 0 is removed:
it names nothing more and its parent does not count it. `Inv` says that link counts are exact and that
the directories in use form a tree; the operations that a file system makes on names keep it. -/

namespace Laboratorio.LinkTree

open Function

inductive Kind where
  | free
  | leaf
  | dir (parent : ℕ) (named : List ℕ)

structure Obj where
  kind : Kind
  links : ℤ

abbrev Forest := ℕ → Obj

structure Live (o : Obj) (p : ℕ) (l : List ℕ) : Prop where
  kind : o.kind = .dir p l
  links : 0 < o.links

/-- How often an object refers to `y`: as its parent, and by name. -/
def Obj.refs (o : Obj) (y : ℕ) : ℕ :=
  match o.kind with
  | .dir p l => if 0 < o.links then (if p = y then 1 else 0) + l.count y else 0
  | _ => 0

variable {m : List ℕ} {q : ℕ}

section Refs

variable {o : Obj} {p y : ℕ} {l : List ℕ}

theorem refs_live (h : Live o p l) : o.refs y = (if p = y then 1 else 0) + l.count y := by
  unfold Obj.refs
  rw [h.kind]
  exact if_pos h.links

theorem refs_dead (h : ¬∃ p l, Live o p l) : o.refs y = 0 := by
  unfold Obj.refs
  split
  · rename_i p l hkind
    exact if_neg fun hlinks => h ⟨p, l, hkind, hlinks⟩
  · rfl

theorem Live.inj (h : Live o p l) (h' : Live o q m) : p = q ∧ l = m := by
  have hkind := h.kind.symm.trans h'.kind
  cases hkind
  exact ⟨rfl, rfl⟩

theorem not_live_of_kind (h : ∀ p l, o.kind ≠ .dir p l) : ¬∃ p l, Live o p l :=
  fun ⟨p, l, hl⟩ => h p l hl.kind

end Refs

/-- All references to `y` from objects below `N`. -/
def count (N : ℕ) (f : Forest) (y : ℕ) : ℕ := ∑ j ∈ Finset.range N, (f j).refs y

theorem count_update {N : ℕ} (f : Forest) {d : ℕ} (hd : d < N) (o : Obj) (y : ℕ) :
    count N (update f d o) y + (f d).refs y = count N f y + o.refs y := by
  have hmem : d ∈ Finset.range N := Finset.mem_range.mpr hd
  have hrest : ∑ j ∈ (Finset.range N).erase d, (update f d o j).refs y =
      ∑ j ∈ (Finset.range N).erase d, (f j).refs y := by
    apply Finset.sum_congr rfl
    intro j hj
    rw [update_of_ne (Finset.ne_of_mem_erase hj)]
  calc count N (update f d o) y + (f d).refs y
      = o.refs y + ∑ j ∈ (Finset.range N).erase d, (f j).refs y + (f d).refs y := by
        rw [count, ← Finset.add_sum_erase _ _ hmem, update_self, hrest]
    _ = count N f y + o.refs y := by
        rw [count, ← Finset.add_sum_erase _ _ hmem]
        omega

theorem refs_le_count {N : ℕ} (f : Forest) {d : ℕ} (hd : d < N) (y : ℕ) : (f d).refs y ≤ count N f y :=
  Finset.single_le_sum (f := fun j => (f j).refs y) (fun _ _ => Nat.zero_le _) (Finset.mem_range.mpr hd)

/-- `l'` is `l` with one more `x`, up to empty places. -/
def Adds (l l' : List ℕ) (x : ℕ) : Prop := ∀ y ≠ 0, l'.count y = l.count y + if y = x then 1 else 0

structure Inv (N root : ℕ) (f : Forest) : Prop where
  zero : (f 0).kind = .free
  root_live : root < N ∧ ∃ l, Live (f root) root l
  links : ∀ x < N, (f x).kind ≠ .free → (f x).links = count N f x
  removed : ∀ x < N, ∀ p l, (f x).kind = .dir p l → (f x).links ≤ 0 → ∀ y ∈ l, y = 0
  named : ∀ x < N, ∀ p l, Live (f x) p l → ∀ y ∈ l, y ≠ 0 → y < N ∧ (f y).kind ≠ .free
  up : ∀ x < N, x ≠ root → ∀ p l, Live (f x) p l → p < N ∧ ∃ q m, Live (f p) q m ∧ x ∈ m
  down : ∀ x < N, ∀ p l, Live (f x) p l → ∀ y ∈ l, y ≠ 0 → ∀ q m, (f y).kind = .dir q m →
    y ≠ root ∧ q = x ∧ l.count y = 1

variable {N root : ℕ} {f : Forest} {d x p : ℕ} {l l' : List ℕ}

namespace Inv

variable (h : Inv N root f)

include h

theorem live_ne_zero (hl : Live (f x) p l) : x ≠ 0 := by
  rintro rfl
  have hkind := hl.kind
  rw [h.zero] at hkind
  cases hkind

/-- The parent of a directory in use is in use. -/
theorem parent_live (hx : x < N) (hl : Live (f x) p l) : p < N ∧ ∃ q m, Live (f p) q m := by
  by_cases hroot : x = root
  · obtain ⟨hlt, m, hm⟩ := h.root_live
    subst hroot
    obtain ⟨rfl, rfl⟩ := hl.inj hm
    exact ⟨hlt, p, l, hm⟩
  · obtain ⟨hlt, q, m, hm, -⟩ := h.up x hx hroot p l hl
    exact ⟨hlt, q, m, hm⟩

theorem links_live (hd : d < N) (hlive : Live (f d) p l) : (f d).links = count N f d :=
  h.links d hd (by rw [hlive.kind]; exact Kind.noConfusion)

/-- Nothing refers to a free object. -/
theorem count_free (hx : x ≠ 0) (hfree : (f x).kind = .free) : count N f x = 0 := by
  apply Finset.sum_eq_zero
  intro j hj
  have hjN := Finset.mem_range.mp hj
  by_cases hlive : ∃ p l, Live (f j) p l
  · obtain ⟨p, l, hl⟩ := hlive
    have hparent : p ≠ x := by
      rintro rfl
      obtain ⟨-, q, m, hm⟩ := h.parent_live hjN hl
      rw [hm.kind] at hfree
      cases hfree
    have hnamed : x ∉ l := fun hmem => (h.named j hjN p l hl x hmem hx).2 hfree
    rw [refs_live hl, List.count_eq_zero.mpr hnamed, if_neg hparent, Nat.add_zero]
  · exact refs_dead hlive

end Inv

/-! ### Changing an object and the directory that names it -/

/-- The forest after `x` becomes `o` and the directory `d` gets the names `l'` and the link count `c`. -/
def change (f : Forest) (x : ℕ) (o : Obj) (d p : ℕ) (l' : List ℕ) (c : ℤ) : Forest :=
  update (update f x o) d ⟨.dir p l', c⟩

section Change

variable {o : Obj} {c : ℤ}

theorem change_dir : change f x o d p l' c d = ⟨.dir p l', c⟩ := update_self _ _ _

theorem change_obj (hxd : x ≠ d) : change f x o d p l' c x = o := by
  rw [change, update_of_ne hxd, update_self]

theorem change_other {y : ℕ} (hyd : y ≠ d) (hyx : y ≠ x) : change f x o d p l' c y = f y := by
  rw [change, update_of_ne hyd, update_of_ne hyx]

theorem count_change (o : Obj) (l' : List ℕ) (hd : d < N) (hx : x < N) (hxd : x ≠ d)
    (hlive : Live (f d) p l) (hc : 0 < c) (y : ℕ) :
    count N (change f x o d p l' c) y + l.count y + (f x).refs y = count N f y + l'.count y + o.refs y := by
  have hone := count_update (update f x o) hd ⟨.dir p l', c⟩ y
  have htwo := count_update f hx o y
  have hnew : Live ⟨.dir p l', c⟩ p l' := ⟨rfl, hc⟩
  rw [update_of_ne (Ne.symm hxd), refs_live hlive, refs_live hnew] at hone
  change count N (change f x o d p l' c) y + _ = _ at hone
  omega

/-- The names of a directory, but for `x`, survive the change. -/
theorem change_back (hlive : Live (f d) p l) (hc : 0 < c)
    (hsame : ∀ z ≠ 0, z ≠ x → l'.count z = l.count z) {y : ℕ} (hyx : y ≠ x)
    (hy : Live (change f x o d p l' c y) q m) :
    ∃ m₀, Live (f y) q m₀ ∧ ∀ z ≠ 0, z ≠ x → m.count z = m₀.count z := by
  by_cases hyd : y = d
  · subst hyd
    rw [change_dir] at hy
    obtain ⟨rfl, rfl⟩ := hy.inj ⟨rfl, hc⟩
    exact ⟨l, hlive, hsame⟩
  · rw [change_other hyd hyx] at hy
    exact ⟨m, hy, fun _ _ _ => rfl⟩

theorem change_forward (hlive : Live (f d) p l) (hc : 0 < c)
    (hsame : ∀ z ≠ 0, z ≠ x → l'.count z = l.count z) {y : ℕ} (hyx : y ≠ x) (hy : Live (f y) q m) :
    ∃ m', Live (change f x o d p l' c y) q m' ∧ ∀ z ≠ 0, z ≠ x → m'.count z = m.count z := by
  by_cases hyd : y = d
  · subst hyd
    obtain ⟨rfl, rfl⟩ := hy.inj hlive
    rw [change_dir]
    exact ⟨l', ⟨rfl, hc⟩, hsame⟩
  · rw [change_other hyd hyx]
    exact ⟨m, hy, fun _ _ _ => rfl⟩

/-- A change of `x` and of the names of `x` in `d` keeps the invariant when `x` names nothing, before and
after, when the link counts come out right, and when `x` as a directory has `d` for its parent. -/
theorem Inv.change (h : Inv N root f) (hd : d < N) (hlive : Live (f d) p l) (hx : x < N) (hx0 : x ≠ 0)
    (hxd : x ≠ d) (hxr : x ≠ root) (hc : 0 < c) (hsame : ∀ z ≠ 0, z ≠ x → l'.count z = l.count z)
    (hquiet : ∀ q m, (f x).kind = .dir q m → ∀ z ∈ m, z = 0)
    (hquiet' : ∀ q m, o.kind = .dir q m → ∀ z ∈ m, z = 0) (hfree : o.kind ≠ .free)
    (hup : ∀ q m, Live o q m → q = d ∧ x ∈ l') (hdown : ∀ q m, o.kind = .dir q m → (x ∈ l' → q = d ∧ l'.count x = 1) ∧
      ∀ y < N, y ≠ d → ∀ r k, Live (f y) r k → x ∉ k)
    (hself : o.links + (f x).refs x + l.count x = count N f x + l'.count x + o.refs x)
    (hdir : c + (f x).refs d = (f d).links + o.refs d) (hrest : ∀ y ≠ 0, y ≠ x → y ≠ d → (f x).refs y = o.refs y) :
    Inv N root (change f x o d p l' c) := by
  have hd0 : d ≠ 0 := h.live_ne_zero hlive
  have hzero : (LinkTree.change f x o d p l' c 0).kind = .free := by
    rw [change_other (Ne.symm hd0) (Ne.symm hx0)]
    exact h.zero
  have hkind : ∀ y, y ≠ x → (f y).kind ≠ .free → (LinkTree.change f x o d p l' c y).kind ≠ .free := by
    intro y hyx hy
    by_cases hyd : y = d
    · rw [hyd, change_dir]
      exact Kind.noConfusion
    · rw [change_other hyd hyx]
      exact hy
  refine ⟨hzero, ?_, ?_, ?_, ?_, ?_, ?_⟩
  · obtain ⟨hroot, m, hm⟩ := h.root_live
    obtain ⟨m', hm', -⟩ := change_forward hlive hc hsame (Ne.symm hxr) hm
    exact ⟨hroot, m', hm'⟩
  · intro y hy hyfree
    have hy0 : y ≠ 0 := by
      rintro rfl
      exact hyfree hzero
    have hcount := count_change o l' hd hx hxd hlive hc y
    by_cases hyx : y = x
    · subst hyx
      rw [change_obj hxd]
      omega
    have hkeep := hsame y hy0 hyx
    by_cases hyd : y = d
    · subst hyd
      have hold := h.links_live hd hlive
      rw [change_dir]
      change c = _
      omega
    · have hrefs := hrest y hy0 hyx hyd
      rw [change_other hyd hyx] at hyfree ⊢
      have hold := h.links y hy hyfree
      omega
  · intro y hy q m hym hle
    by_cases hyx : y = x
    · rw [hyx, change_obj hxd] at hym
      exact hquiet' q m hym
    · by_cases hyd : y = d
      · rw [hyd, change_dir] at hle
        exact absurd hc (not_lt.mpr hle)
      · rw [change_other hyd hyx] at hym hle
        exact h.removed y hy q m hym hle
  · intro y hy q m hym z hz hz0
    by_cases hyx : y = x
    · rw [hyx, change_obj hxd] at hym
      exact absurd (hquiet' q m hym.kind z hz) hz0
    by_cases hzx : z = x
    · rw [hzx, change_obj hxd]
      exact ⟨hx, hfree⟩
    · obtain ⟨m₀, hm₀, hcount⟩ := change_back hlive hc hsame hyx hym
      have hmem : z ∈ m₀ := by
        rw [← List.count_pos_iff, ← hcount z hz0 hzx]
        exact List.count_pos_iff.mpr hz
      obtain ⟨hzN, hzfree⟩ := h.named y hy q m₀ hm₀ z hmem hz0
      exact ⟨hzN, hkind z hzx hzfree⟩
  · intro y hy hroot q m hym
    by_cases hyx : y = x
    · rw [hyx, change_obj hxd] at hym
      obtain ⟨rfl, hmem⟩ := hup q m hym
      rw [hyx, change_dir]
      exact ⟨hd, p, l', ⟨rfl, hc⟩, hmem⟩
    obtain ⟨m₀, hm₀, -⟩ := change_back hlive hc hsame hyx hym
    obtain ⟨hq, q', m', hq', hmem⟩ := h.up y hy hroot q m₀ hm₀
    have hy0 := h.live_ne_zero hm₀
    -- `x` names nothing, so it is nobody's parent.
    have hqx : q ≠ x := by
      rintro rfl
      exact hy0 (hquiet q' m' hq'.kind y hmem)
    obtain ⟨m'', hm'', hcount⟩ := change_forward hlive hc hsame hqx hq'
    refine ⟨hq, q', m'', hm'', ?_⟩
    rw [← List.count_pos_iff, hcount y hy0 hyx]
    exact List.count_pos_iff.mpr hmem
  · intro y hy q m hym z hz hz0 r k hzk
    by_cases hyx : y = x
    · rw [hyx, change_obj hxd] at hym
      exact absurd (hquiet' q m hym.kind z hz) hz0
    by_cases hzx : z = x
    · rw [hzx, change_obj hxd] at hzk
      rw [hzx] at hz ⊢
      obtain ⟨hself, honly⟩ := hdown r k hzk
      by_cases hyd : y = d
      · rw [hyd, change_dir] at hym
        obtain ⟨rfl, rfl⟩ := hym.inj ⟨rfl, hc⟩
        obtain ⟨hrd, hcount⟩ := hself hz
        exact ⟨hxr, by rw [hrd, hyd], hcount⟩
      · rw [change_other hyd hyx] at hym
        exact absurd hz (honly y hy hyd q m hym)
    · obtain ⟨m₀, hm₀, hcount⟩ := change_back hlive hc hsame hyx hym
      have hmem : z ∈ m₀ := by
        rw [← List.count_pos_iff, ← hcount z hz0 hzx]
        exact List.count_pos_iff.mpr hz
      have hkind₀ : ∃ k₀, (f z).kind = .dir r k₀ := by
        by_cases hzd : z = d
        · rw [hzd, change_dir] at hzk
          cases hzk
          exact ⟨l, hzd ▸ hlive.kind⟩
        · rw [change_other hzd hzx] at hzk
          exact ⟨k, hzk⟩
      obtain ⟨k₀, hk₀⟩ := hkind₀
      rw [hcount z hz0 hzx]
      exact h.down y hy q m₀ hm₀ z hmem hz0 r k₀ hk₀

end Change

/-! ### The operations -/

theorem Adds.same (h : Adds l l' x) : ∀ z ≠ 0, z ≠ x → l'.count z = l.count z := by
  intro z hz hzx
  rw [h z hz, if_neg hzx, Nat.add_zero]

theorem Adds.count_self (h : Adds l l' x) (hx : x ≠ 0) : l'.count x = l.count x + 1 := by
  rw [h x hx, if_pos rfl]

theorem Inv.ne_root (h : Inv N root f) (hkind : ∀ q m, (f x).kind ≠ .dir q m) : x ≠ root := by
  rintro rfl
  obtain ⟨-, m, hm⟩ := h.root_live
  exact hkind x m hm.kind

/-- The names of a leaf in one directory change, and its link count with them. -/
theorem Inv.relink {k : ℤ} (h : Inv N root f) (hd : d < N) (hlive : Live (f d) p l) (hx : x < N) (hx0 : x ≠ 0)
    (hkind : ∀ q m, (f x).kind ≠ .dir q m) (hsame : ∀ z ≠ 0, z ≠ x → l'.count z = l.count z)
    (hk : k + l.count x = count N f x + l'.count x) :
    Inv N root (LinkTree.change f x ⟨.leaf, k⟩ d p l' (f d).links) := by
  have hxd : x ≠ d := fun heq => hkind p l (heq ▸ hlive.kind)
  have hold (y : ℕ) : (f x).refs y = 0 := refs_dead (not_live_of_kind hkind)
  have hnew (y : ℕ) : Obj.refs ⟨.leaf, k⟩ y = 0 := rfl
  refine h.change hd hlive hx hx0 hxd (h.ne_root hkind) hlive.links hsame
    (fun q m hq => absurd hq (hkind q m)) (fun q m hq => nomatch hq) (fun hc => nomatch hc)
    (fun q m hq => nomatch hq.kind) (fun q m hq => nomatch hq) ?_ ?_ ?_
  · rw [hold, hnew]
    change k + _ + _ = _
    omega
  · rw [hold, hnew]
  · exact fun y _ _ _ => (hold y).trans (hnew y).symm

section

variable (h : Inv N root f) (hd : d < N) (hlive : Live (f d) p l) (hx : x < N) (hx0 : x ≠ 0)

include h hd hlive hx hx0

/-- A leaf gets a name more, or a free object becomes a leaf with its first name. -/
theorem Inv.addLeaf (hkind : ∀ q m, (f x).kind ≠ .dir q m) (hadd : Adds l l' x) :
    Inv N root (LinkTree.change f x ⟨.leaf, count N f x + 1⟩ d p l' (f d).links) := by
  have hself := hadd.count_self hx0
  exact h.relink hd hlive hx hx0 hkind hadd.same (by omega)

/-- A leaf loses a name. -/
theorem Inv.dropLeaf (hkind : (f x).kind = .leaf) (hdrop : Adds l' l x) :
    Inv N root (LinkTree.change f x ⟨.leaf, (f x).links - 1⟩ d p l' (f d).links) := by
  have hself := hdrop.count_self hx0
  have hold := h.links x hx (by rw [hkind]; exact Kind.noConfusion)
  exact h.relink hd hlive hx hx0 (fun q m hq => nomatch hkind.symm.trans hq)
    (fun z hz hzx => (hdrop.same z hz hzx).symm) (by omega)

/-- A free object becomes an empty directory under `d`. -/
theorem Inv.makeDir (hkind : (f x).kind = .free) (hadd : Adds l l' x) :
    Inv N root (LinkTree.change f x ⟨.dir d [], 1⟩ d p l' ((f d).links + 1)) := by
  have hnot : ∀ q m, (f x).kind ≠ .dir q m := by
    intro q m hq
    rw [hkind] at hq
    cases hq
  have hxd : x ≠ d := fun heq => hnot p l (heq ▸ hlive.kind)
  have hpos : 0 < (f d).links + 1 := by
    have hlinks := hlive.links
    omega
  have hzero := h.count_free hx0 hkind
  have hunnamed : x ∉ l := fun hmem => (h.named d hd p l hlive x hmem hx0).2 hkind
  have hone : l'.count x = 1 := by
    rw [hadd.count_self hx0, List.count_eq_zero.mpr hunnamed]
  have hnew : Live ⟨.dir d [], 1⟩ d [] := ⟨rfl, Int.one_pos⟩
  have hold (y : ℕ) : (f x).refs y = 0 := refs_dead (not_live_of_kind hnot)
  have hrefs (y : ℕ) : Obj.refs ⟨.dir d [], 1⟩ y = if d = y then 1 else 0 := refs_live hnew
  refine h.change hd hlive hx hx0 hxd (h.ne_root hnot) hpos hadd.same
    (fun q m hq => absurd hq (hnot q m)) ?_ (fun hc => nomatch hc) ?_ ?_ ?_ ?_ ?_
  · intro q m hq z hz
    cases hq
    cases hz
  · intro q m hq
    obtain ⟨rfl, rfl⟩ := hq.inj hnew
    exact ⟨rfl, List.count_pos_iff.mp (by rw [hone]; exact Nat.one_pos)⟩
  · intro q m hq
    cases hq
    exact ⟨fun _ => ⟨rfl, hone⟩, fun y hy _ r k hk hmem => (h.named y hy r k hk x hmem hx0).2 hkind⟩
  · rw [hold, hrefs, if_neg (Ne.symm hxd), List.count_eq_zero.mpr hunnamed, hzero, hone]
    rfl
  · rw [hold, hrefs, if_pos rfl]
    omega
  · intro y _ _ hyd
    rw [hold, hrefs, if_neg (Ne.symm hyd)]

end

theorem add_refs_le_count (f : Forest) {i j : ℕ} (hi : i < N) (hj : j < N) (hij : i ≠ j) (y : ℕ) :
    (f i).refs y + (f j).refs y ≤ count N f y := by
  have hsub : {i, j} ⊆ Finset.range N := by
    intro k hk
    rcases Finset.mem_insert.mp hk with rfl | hk
    · exact Finset.mem_range.mpr hi
    · rw [Finset.mem_singleton.mp hk]
      exact Finset.mem_range.mpr hj
  rw [← Finset.sum_pair (f := fun k => (f k).refs y) hij]
  exact Finset.sum_le_sum_of_subset hsub

/-- A directory that names nothing and has a name is a child of the directory that names it, and that is
its only link. -/
structure EmptyChild (N root : ℕ) (f : Forest) (x d q : ℕ) (l : List ℕ) : Prop where
  lt : x < N
  ne_root : x ≠ root
  ne_dir : x ≠ d
  parent : q = d
  once : l.count x = 1
  links : (f x).links = 1
  only : ∀ y < N, y ≠ d → ∀ r k, Live (f y) r k → x ∉ k
  siblings : 2 ≤ count N f d

theorem Inv.emptyChild (h : Inv N root f) (hd : d < N) (hlive : Live (f d) p l)
    (hx0 : x ≠ 0) (hmem : x ∈ l) (hkind : (f x).kind = .dir q m) (hempty : ∀ z ∈ m, z = 0) :
    EmptyChild N root f x d q l := by
  obtain ⟨hxN, hfree⟩ := h.named d hd p l hlive x hmem hx0
  obtain ⟨hroot, hqd, honce⟩ := h.down d hd p l hlive x hmem hx0 q m hkind
  -- Nobody has `x` for a parent: it would name its child.
  have hnochild : ∀ y < N, ∀ r k, Live (f y) r k → r ≠ x := by
    rintro y hy r k hk rfl
    by_cases hyroot : y = root
    · obtain ⟨-, k', hk'⟩ := h.root_live
      rw [hyroot] at hk
      exact hroot (hk.inj hk').1
    · obtain ⟨-, q', m', hm', hmem'⟩ := h.up y hy hyroot r k hk
      have heq := hm'.kind.symm.trans hkind
      cases heq
      exact h.live_ne_zero hk (hempty y hmem')
  have honly : ∀ y < N, y ≠ d → ∀ r k, Live (f y) r k → x ∉ k := by
    intro y hy hyd r k hk hmem'
    obtain ⟨-, hqy, -⟩ := h.down y hy r k hk x hmem' hx0 q m hkind
    exact hyd (hqy.symm.trans hqd)
  have hcount : count N f x = 1 := by
    unfold count
    rw [Finset.sum_eq_single d]
    · rw [refs_live hlive, if_neg (hnochild d hd p l hlive), honce]
    · intro y hy hyd
      by_cases hylive : ∃ r k, Live (f y) r k
      · obtain ⟨r, k, hk⟩ := hylive
        have hyN := Finset.mem_range.mp hy
        rw [refs_live hk, if_neg (hnochild y hyN r k hk),
          List.count_eq_zero.mpr (honly y hyN hyd r k hk), Nat.add_zero]
      · exact refs_dead hylive
    · intro hnot
      exact absurd (Finset.mem_range.mpr hd) hnot
  have hlinks : (f x).links = 1 := by
    rw [h.links x hxN hfree, hcount]
    rfl
  have hxlive : Live (f x) q m := ⟨hkind, by rw [hlinks]; exact Int.one_pos⟩
  have hxd : x ≠ d := by
    rintro rfl
    have heq := hxlive.inj hlive
    obtain ⟨-, rfl⟩ := heq
    exact hx0 (hempty x hmem)
  refine ⟨hxN, hroot, hxd, hqd, honce, hlinks, honly, ?_⟩
  have hself : 1 ≤ (f x).refs d := by
    rw [refs_live hxlive, if_pos hqd]
    exact Nat.le_add_right _ _
  by_cases hdroot : d = root
  · obtain ⟨-, k, hk⟩ := h.root_live
    have hdown : 1 ≤ (f d).refs d := by
      rw [← hdroot] at hk
      rw [refs_live hk, if_pos rfl]
      exact Nat.le_add_right _ _
    have hle := add_refs_le_count f hxN hd hxd d
    omega
  · obtain ⟨hp, q', m', hm', hmem'⟩ := h.up d hd hdroot p l hlive
    have hup : 1 ≤ (f p).refs d := by
      rw [refs_live hm']
      have hpos := List.count_pos_iff.mpr hmem'
      omega
    have hle := add_refs_le_count f hxN hp (Ne.symm (hnochild d hd p l hlive)) d
    omega

/-- An empty directory loses its name: it is removed, and its parent has one link less. -/
theorem Inv.dropDir (h : Inv N root f) (hd : d < N) (hlive : Live (f d) p l)
    (hx0 : x ≠ 0) (hmem : x ∈ l) (hkind : (f x).kind = .dir q m) (hempty : ∀ z ∈ m, z = 0) (hdrop : Adds l' l x) :
    Inv N root (LinkTree.change f x ⟨.dir q m, (f x).links - 1⟩ d p l' ((f d).links - 1)) := by
  have hc := h.emptyChild hd hlive hx0 hmem hkind hempty
  have hdlinks := h.links_live hd hlive
  have hxlinks := hc.links
  have hpos : 0 < (f d).links - 1 := by
    have htwo := hc.siblings
    omega
  have hgone : x ∉ l' := by
    rw [← List.count_eq_zero]
    have hself := hdrop.count_self hx0
    have honce := hc.once
    omega
  have hxlive : Live (f x) q m := ⟨hkind, by rw [hxlinks]; exact Int.one_pos⟩
  have hdead : ¬∃ r k, Live ⟨.dir q m, (f x).links - 1⟩ r k := by
    rintro ⟨r, k, hk⟩
    have hlt : 0 < (f x).links - 1 := hk.links
    omega
  have hrefs (y : ℕ) (hy0 : y ≠ 0) : (f x).refs y = if q = y then 1 else 0 := by
    rw [refs_live hxlive, List.count_eq_zero.mpr fun hmem' => hy0 (hempty y hmem'), Nat.add_zero]
  have hnew (y : ℕ) : Obj.refs ⟨.dir q m, (f x).links - 1⟩ y = 0 := refs_dead hdead
  refine h.change hd hlive hc.lt hx0 hc.ne_dir hc.ne_root hpos
    (fun z hz hzx => (hdrop.same z hz hzx).symm) ?_ ?_ (fun hfree => nomatch hfree)
    (fun r k hk => absurd ⟨r, k, hk⟩ hdead) ?_ ?_ ?_ ?_
  · intro r k hk
    rw [hkind] at hk
    cases hk
    exact hempty
  · intro r k hk
    cases hk
    exact hempty
  · exact fun r k _ => ⟨fun hmem' => absurd hmem' hgone, hc.only⟩
  · have hself := hdrop.count_self hx0
    have hold := h.links x hc.lt (by rw [hkind]; exact Kind.noConfusion)
    rw [hrefs x hx0, if_neg (by rw [hc.parent]; exact Ne.symm hc.ne_dir), hnew]
    change (f x).links - 1 + _ + _ = _
    omega
  · rw [hrefs d (h.live_ne_zero hlive), if_pos hc.parent, hnew]
    omega
  · intro y hy0 _ hyd
    rw [hrefs y hy0, if_neg (by rw [hc.parent]; exact Ne.symm hyd), hnew]

/-- An object without links is freed. -/
theorem Inv.free (h : Inv N root f) (hx : x < N) (hx0 : x ≠ 0) (halloc : (f x).kind ≠ .free)
    (hlinks : (f x).links = 0) (c : ℤ) : Inv N root (update f x ⟨.free, c⟩) := by
  have hdead : ¬∃ p l, Live (f x) p l := by
    rintro ⟨p, l, hl⟩
    have hpos := hl.links
    omega
  have hother : ∀ y, y ≠ x → update f x ⟨.free, c⟩ y = f y :=
    fun y hy => update_of_ne hy _ _
  have hlive : ∀ y p l, Live (update f x ⟨.free, c⟩ y) p l → y ≠ x ∧ Live (f y) p l := by
    intro y p l hl
    have hyx : y ≠ x := by
      rintro rfl
      rw [update_self] at hl
      cases hl.kind
    rw [hother y hyx] at hl
    exact ⟨hyx, hl⟩
  have hunnamed : ∀ y < N, ∀ p l, Live (f y) p l → x ∉ l := by
    intro y hy p l hl hmem
    have hle := refs_le_count f hy x
    have hzero := h.links x hx halloc
    have hpos := List.count_pos_iff.mpr hmem
    rw [refs_live hl] at hle
    omega
  have hcount : ∀ y, count N (update f x ⟨.free, c⟩) y = count N f y := by
    intro y
    have hup := count_update f hx ⟨.free, c⟩ y
    have hrefs : Obj.refs ⟨.free, c⟩ y = 0 := rfl
    rw [refs_dead hdead, hrefs] at hup
    omega
  have hstays : ∀ y p l, Live (f y) p l → Live (update f x ⟨.free, c⟩ y) p l := by
    intro y p l hl
    rw [hother y fun heq => hdead ⟨p, l, heq ▸ hl⟩]
    exact hl
  refine ⟨?_, ?_, ?_, ?_, ?_, ?_, ?_⟩
  · rw [hother 0 (Ne.symm hx0)]
    exact h.zero
  · obtain ⟨hroot, l, hl⟩ := h.root_live
    exact ⟨hroot, l, hstays root root l hl⟩
  · intro y hy hfree
    have hyx : y ≠ x := by
      rintro rfl
      rw [update_self] at hfree
      exact hfree rfl
    rw [hother y hyx] at hfree ⊢
    rw [hcount]
    exact h.links y hy hfree
  · intro y hy p l hkind hle
    have hyx : y ≠ x := by
      rintro rfl
      rw [update_self] at hkind
      cases hkind
    rw [hother y hyx] at hkind hle
    exact h.removed y hy p l hkind hle
  · intro y hy p l hl z hz hz0
    obtain ⟨-, hl'⟩ := hlive y p l hl
    obtain ⟨hzN, hzfree⟩ := h.named y hy p l hl' z hz hz0
    have hzx : z ≠ x := fun heq => hunnamed y hy p l hl' (heq ▸ hz)
    rw [hother z hzx]
    exact ⟨hzN, hzfree⟩
  · intro y hy hroot p l hl
    obtain ⟨-, hl'⟩ := hlive y p l hl
    obtain ⟨hp, q, m, hm, hmem⟩ := h.up y hy hroot p l hl'
    exact ⟨hp, q, m, hstays p q m hm, hmem⟩
  · intro y hy p l hl z hz hz0 q m hkind
    obtain ⟨-, hl'⟩ := hlive y p l hl
    have hzx : z ≠ x := fun heq => hunnamed y hy p l hl' (heq ▸ hz)
    rw [hother z hzx] at hkind
    exact h.down y hy p l hl' z hz hz0 q m hkind

/-! ### Removed directories -/

/-- The parent of every directory, in use or removed, is in use. -/
def Anchored (N : ℕ) (f : Forest) : Prop :=
  ∀ x < N, ∀ p l, (f x).kind = .dir p l → p < N ∧ ∃ q m, Live (f p) q m

/-- Nothing that a directory refers to is free. -/
theorem Inv.not_dangling (h : Inv N root f) (ha : Anchored N f) (hx : x < N) (hkind : (f x).kind = .dir p l) :
    (p < N ∧ (f p).kind ≠ .free) ∧ ∀ y ∈ l, y ≠ 0 → y < N ∧ (f y).kind ≠ .free := by
  constructor
  · obtain ⟨hp, q, m, hm⟩ := ha x hx p l hkind
    refine ⟨hp, ?_⟩
    rw [hm.kind]
    exact Kind.noConfusion
  · intro y hy hy0
    by_cases hlinks : 0 < (f x).links
    · exact h.named x hx p l ⟨hkind, hlinks⟩ y hy hy0
    · exact absurd (h.removed x hx p l hkind (not_lt.mp hlinks) y hy) hy0

theorem Anchored.change {o : Obj} {c : ℤ} (ha : Anchored N f) (hd : d < N) (hlive : Live (f d) p l)
    (hxd : x ≠ d) (hc : 0 < c) (hself : ∀ q m, o.kind = .dir q m → q = d)
    (hnochild : ∀ y < N, y ≠ x → ∀ q m, (f y).kind = .dir q m → q ≠ x) :
    Anchored N (LinkTree.change f x o d p l' c) := by
  have hstays : ∀ y q m, y ≠ x → Live (f y) q m → ∃ m', Live (LinkTree.change f x o d p l' c y) q m' := by
    intro y q m hyx hy
    by_cases hyd : y = d
    · subst hyd
      obtain ⟨rfl, rfl⟩ := hy.inj hlive
      rw [change_dir]
      exact ⟨l', rfl, hc⟩
    · rw [change_other hyd hyx]
      exact ⟨m, hy⟩
  intro y hy q m hym
  by_cases hyx : y = x
  · rw [hyx, change_obj hxd] at hym
    rw [hself q m hym, change_dir]
    exact ⟨hd, p, l', rfl, hc⟩
  have hold : ∃ m₀, (f y).kind = .dir q m₀ := by
    by_cases hyd : y = d
    · rw [hyd, change_dir] at hym
      cases hym
      exact ⟨l, hyd ▸ hlive.kind⟩
    · rw [change_other hyd hyx] at hym
      exact ⟨m, hym⟩
  obtain ⟨m₀, hm₀⟩ := hold
  obtain ⟨hq, r, k, hk⟩ := ha y hy q m₀ hm₀
  obtain ⟨k', hk'⟩ := hstays q r k (hnochild y hy hyx q m₀ hm₀) hk
  exact ⟨hq, r, k', hk'⟩

/-- An object that is not in use is nobody's parent. -/
theorem Anchored.nochild (ha : Anchored N f) (hdead : ¬∃ p l, Live (f x) p l) :
    ∀ y < N, y ≠ x → ∀ q m, (f y).kind = .dir q m → q ≠ x := by
  rintro y hy - q m hym rfl
  obtain ⟨-, hlive⟩ := ha y hy q m hym
  exact hdead hlive

theorem Anchored.free (ha : Anchored N f) (hlinks : (f x).links = 0) (c : ℤ) :
    Anchored N (update f x ⟨.free, c⟩) := by
  have hdead : ¬∃ p l, Live (f x) p l := by
    rintro ⟨p, l, hl⟩
    have hpos := hl.links
    omega
  intro y hy q m hym
  have hyx : y ≠ x := by
    rintro rfl
    rw [update_self] at hym
    cases hym
  rw [update_of_ne hyx] at hym
  obtain ⟨hq, hlive⟩ := ha y hy q m hym
  rw [update_of_ne (ha.nochild hdead y hy hyx q m hym)]
  exact ⟨hq, hlive⟩

end Laboratorio.LinkTree
