import Laboratorio.SysEntries

/-! References to cached inodes. `Cached v m` says that the cache of `v` is right for `m k` references to
each entry `k`: those that processes and files hold, and those of the running call. An inode without links
stays allocated only as long as somebody refers to it, so a call that drops a reference of its own to an
inode that others hold changes no inode.

A call is `strict` about one way to fail: it must not stop in `ilock` for lack of a type. -/

namespace Laboratorio.Sys

open Function
open Fs

def Fair (strict : Prop) (e : Stop) : Prop := strict → e ≠ .panic .noType

theorem Fair.of_ne {strict : Prop} {e : Stop} (h : e ≠ .panic .noType) : Fair strict e := fun _ => h

abbrev Counts := Fin NINODE → Nat

/-- One more reference to `k`. -/
def hold {ι : Type} [DecidableEq ι] (m : ι → Nat) (k : ι) : ι → Nat := fun l => m l + if l = k then 1 else 0

section Counts

variable {ι : Type} [DecidableEq ι] {m : ι → Nat} {k l : ι}

theorem hold_self (m : ι → Nat) (k : ι) : hold m k k = m k + 1 := by rw [hold, if_pos rfl]

theorem hold_of_ne (h : l ≠ k) : hold m k l = m l := by rw [hold, if_neg h, Nat.add_zero]

theorem hold_pos : 0 < hold m k l ↔ 0 < m l ∨ l = k := by
  unfold hold
  split
  · rename_i heq
    exact ⟨fun _ => Or.inr heq, fun _ => Nat.succ_pos _⟩
  · rename_i hne
    exact ⟨Or.inl, fun h => h.resolve_right hne⟩

theorem hold_comm (m : ι → Nat) (k l : ι) : hold (hold m k) l = hold (hold m l) k := by
  funext j
  unfold hold
  omega

theorem hold_pos_self (m : ι → Nat) (k : ι) : 0 < hold m k k := hold_pos.mpr (Or.inr rfl)

theorem hold_mono (h : 0 < m l) : 0 < hold m k l := hold_pos.mpr (Or.inl h)

theorem eq_hold {n : ι → Nat} (h : ∀ l, n l = m l + if l = k then 1 else 0) : n = hold m k := funext h

end Counts

/-- The counts are exact, and no inode has two entries. -/
structure Counted (v : Vfs) (m : Counts) : Prop where
  ref : ∀ k, (v.icache k).ref = m k
  unique : ∀ k l, 0 < m k → 0 < m l → (v.icache k).inum = (v.icache l).inum → k = l

structure Cached (strict : Prop) (v : Vfs) (m : Counts) : Prop extends Counted v m where
  range : ∀ k, 0 < m k → (v.icache k).inum < NINODES
  live : ∀ k, 0 < m k → (v.icache k).valid = true → (v.node k).type ≠ 0
  backed : strict → ∀ k, 0 < m k → (v.node k).type ≠ 0

/-- An inode without links is in use. -/
def Held (v : Vfs) (m : Counts) : Prop :=
  ∀ i < NINODES, (v.nodes i).type ≠ 0 → (v.nodes i).nlink = 0 →
    ∃ k, 0 < m k ∧ (v.icache k).inum = i ∧ (v.icache k).valid = true

/-- The entries in use stay what they are. -/
def Keeps (v v' : Vfs) (m : Counts) : Prop :=
  ∀ k, 0 < m k → (v'.icache k).inum = (v.icache k).inum ∧
    ((v.icache k).valid = true → (v'.icache k).valid = true)

/-- A step that changes no inode and leaves `m'` references of `m`. -/
structure Moves (strict : Prop) (v v' : Vfs) (m m' : Counts) : Prop where
  cached : Cached strict v' m'
  nodes : v'.nodes = v.nodes
  keeps : Keeps v v' m

variable {strict : Prop} {v v' v'' : Vfs} {m m' m'' : Counts} {k l : Fin NINODE}

theorem Keeps.refl (v : Vfs) (m : Counts) : Keeps v v m := fun _ _ => ⟨rfl, id⟩

theorem Keeps.trans (h : Keeps v v' m) (h' : Keeps v' v'' m) : Keeps v v'' m := by
  intro k hk
  obtain ⟨hinum, hvalid⟩ := h k hk
  obtain ⟨hinum', hvalid'⟩ := h' k hk
  exact ⟨hinum'.trans hinum, hvalid' ∘ hvalid⟩

theorem Keeps.of_hold (h : Keeps v v' (hold m k)) : Keeps v v' m := fun l hl => h l (hold_mono hl)

theorem Held.relink (h : Held v m) (hkeeps : Keeps v v' m)
    (hlinks : ∀ i, (v'.nodes i).type ≠ 0 → (v'.nodes i).nlink = 0 → (v.nodes i).type ≠ 0 ∧ (v.nodes i).nlink = 0) :
    Held v' m := by
  intro i hi htype hnlink
  obtain ⟨htype₀, hnlink₀⟩ := hlinks i htype hnlink
  obtain ⟨k, hk, hinum, hvalid⟩ := h i hi htype₀ hnlink₀
  obtain ⟨hinum', hvalid'⟩ := hkeeps k hk
  exact ⟨k, hk, hinum'.trans hinum, hvalid' hvalid⟩

theorem Held.keeps (h : Held v m) (hnodes : v'.nodes = v.nodes) (hkeeps : Keeps v v' m) : Held v' m := by
  apply h.relink hkeeps
  intro i htype hnlink
  rw [hnodes] at htype hnlink
  exact ⟨htype, hnlink⟩

theorem Held.hold (h : Held v m) (k : Fin NINODE) : Held v (hold m k) := by
  intro i hi htype hnlink
  obtain ⟨l, hl, hrest⟩ := h i hi htype hnlink
  exact ⟨l, hold_mono hl, hrest⟩

theorem Moves.trans (h : Moves strict v v' m m') (h' : Moves strict v' v'' m m'') :
    Moves strict v v'' m m'' := ⟨h'.cached, h'.nodes.trans h.nodes, h.keeps.trans h'.keeps⟩

theorem Moves.of_hold (h : Moves strict v v' (hold m k) m') : Moves strict v v' m m' :=
  ⟨h.cached, h.nodes, h.keeps.of_hold⟩

theorem Moves.inum (h : Moves strict v v' m m') (hk : 0 < m k) :
    (v'.icache k).inum = (v.icache k).inum := (h.keeps k hk).1

theorem Moves.node (h : Moves strict v v' m m') (hk : 0 < m k) : v'.node k = v.node k := by
  rw [Vfs.node, h.nodes, h.inum hk]
  rfl

theorem Moves.held (h : Moves strict v v' m m') (hheld : Held v m) : Held v' m := hheld.keeps h.nodes h.keeps

/-! ### Lookups and locks -/

theorem iget_error {α : Type} {c : Icache α} {inum : Nat} {e : Stop} (h : iget c inum = .error e) :
    e = .panic .cacheFull ∧ ∀ k, (c k).ref ≠ 0 := by
  unfold iget at h
  split at h
  · cases h
  · split at h
    · cases h
    · rename_i hnone
      cases h
      exact ⟨rfl, fun k hk => List.find?_eq_none.mp hnone k (List.mem_finRange k) (decide_eq_true hk)⟩

theorem Counted.ref_pos (h : Counted v m) : 0 < (v.icache k).ref ↔ 0 < m k := by rw [h.ref, Int.natCast_pos]

theorem Counted.once (h : Counted v m) : v.icache.Unique :=
  fun k l hk hl => h.unique k l (h.ref_pos.mp hk) (h.ref_pos.mp hl)

variable {e : Inode Unit}

theorem Counted.assign (h : Counted v m) {n : Nat} (href : e.ref = n)
    (hunique : ∀ l, l ≠ k → 0 < m l → (v.icache l).inum ≠ e.inum) (nodes : Nodes) :
    Counted ⟨nodes, update v.icache k e⟩ (update m k n) := by
  have hrefs : ∀ l, (update v.icache k e l).ref = update m k n l := by
    intro l
    by_cases hlk : l = k
    · rw [hlk, update_self, update_self, href]
    · rw [update_of_ne hlk, update_of_ne hlk, h.ref]
  have hone : Icache.Unique (update v.icache k e) :=
    h.once.update fun _ l hlk hl => hunique l hlk (h.ref_pos.mp hl)
  refine ⟨hrefs, fun l l' hl hl' => hone l l' ?_ ?_⟩
  · rw [hrefs]
    exact Int.natCast_pos.mpr hl
  · rw [hrefs]
    exact Int.natCast_pos.mpr hl'

theorem Cached.assign (h : Cached strict v m) {n : Nat} (href : e.ref = n)
    (hrange : e.inum < NINODES) (hunique : ∀ l, l ≠ k → 0 < m l → (v.icache l).inum ≠ e.inum)
    (hlive : e.valid = true → (v.nodes e.inum).type ≠ 0) (hbacked : strict → (v.nodes e.inum).type ≠ 0) :
    Cached strict { v with icache := update v.icache k e } (update m k n) := by
  have hself : update v.icache k e k = e := update_self _ _ _
  have hother : ∀ l, l ≠ k → update v.icache k e l = v.icache l :=
    fun l hl => update_of_ne hl _ _
  have hm : ∀ l, l ≠ k → 0 < update m k n l → 0 < m l := by
    intro l hl hpos
    rw [update_of_ne hl] at hpos
    exact hpos
  refine ⟨h.toCounted.assign href hunique v.nodes, fun l hl => ?_, fun l hl hvalid => ?_, fun hs l hl => ?_⟩
  · dsimp only
    by_cases hlk : l = k
    · rw [hlk, hself]
      exact hrange
    · rw [hother l hlk]
      exact h.range l (hm l hlk hl)
  · dsimp only [Vfs.node] at hvalid ⊢
    by_cases hlk : l = k
    · rw [hlk, hself] at hvalid ⊢
      exact hlive hvalid
    · rw [hother l hlk] at hvalid ⊢
      exact h.live l (hm l hlk hl) hvalid
  · dsimp only [Vfs.node]
    by_cases hlk : l = k
    · rw [hlk, hself]
      exact hbacked hs
    · rw [hother l hlk]
      exact h.backed hs l (hm l hlk hl)

theorem hold_eq_update (m : Counts) (k : Fin NINODE) : hold m k = update m k (m k + 1) := by
  funext l
  by_cases hlk : l = k
  · rw [hlk, hold_self, update_self]
  · rw [hold_of_ne hlk, update_of_ne hlk]

theorem Cached.assign_same (h : Cached strict v m) {n : Nat} (hk : 0 < m k) (href : e.ref = n)
    (hinum : e.inum = (v.icache k).inum) (hvalid : e.valid = true → (v.node k).type ≠ 0) :
    Cached strict { v with icache := update v.icache k e } (update m k n) := by
  refine h.assign href ?_ ?_ ?_ ?_
  · rw [hinum]
    exact h.range k hk
  · intro l hlk hl heq
    exact hlk (h.unique l k hl hk (heq.trans hinum))
  · rw [hinum]
    exact hvalid
  · rw [hinum]
    exact fun hs => h.backed hs k hk

theorem keeps_update (h : 0 < m k → e.inum = (v.icache k).inum ∧ ((v.icache k).valid = true → e.valid = true)) :
    Keeps v { v with icache := update v.icache k e } m := by
  intro l hl
  dsimp only
  by_cases hlk : l = k
  · subst hlk
    rw [update_self]
    exact h hl
  · rw [update_of_ne hlk]
    exact ⟨rfl, id⟩

theorem idup_moves (h : Cached strict v m) (hk : 0 < m k) : Moves strict v (idup v k) m (hold m k) := by
  refine ⟨?_, rfl, keeps_update fun _ => ⟨rfl, id⟩⟩
  rw [hold_eq_update]
  refine h.assign_same hk ?_ rfl (h.live k hk)
  rw [h.ref k]
  exact (Int.natCast_succ (m k)).symm

variable {E : Stop → Prop}

theorem Cached.vget (h : Cached strict v m) {i : Nat} (hi : i < NINODES)
    (hbacked : strict → (v.nodes i).type ≠ 0) (hfull : (∀ k, 0 < m k) → E (.panic .cacheFull)) :
    Ends E (vget v i) fun r => (r.2.icache r.1).inum = i ∧ Moves strict v r.2 m (hold m r.1) := by
  rw [Sys.vget]
  cases hrun : iget v.icache i with
  | error e =>
    obtain ⟨rfl, hused⟩ := iget_error hrun
    refine .stop (hfull fun k => Nat.pos_of_ne_zero fun hk => hused k ?_)
    rw [h.ref k, hk]
    rfl
  | ok r =>
    obtain ⟨k, c⟩ := r
    refine .ok ?_
    rcases iget_cases hrun with ⟨href, hinum, rfl⟩ | ⟨hnone, href, rfl⟩
    · refine ⟨?_, idup_moves h (h.ref_pos.mp href)⟩
      dsimp only
      rw [update_self]
      exact hinum
    · have hk : m k = 0 := by
        rw [h.ref k] at href
        exact Int.natCast_eq_zero.mp href
      refine ⟨?_, ?_, rfl, keeps_update fun hpos => absurd hk hpos.ne'⟩
      · dsimp only
        rw [update_self]
      · rw [hold_eq_update, hk]
        refine h.assign rfl hi ?_ (fun hc => nomatch hc) hbacked
        exact fun l _ hl => hnone l (h.ref_pos.mpr hl)

theorem vget_ends (h : Cached strict v m) {i : Nat} (hi : i < NINODES) (hbacked : strict → (v.nodes i).type ≠ 0) :
    Ends (Fair strict) (vget v i) fun r => (r.2.icache r.1).inum = i ∧ Moves strict v r.2 m (hold m r.1) :=
  h.vget hi hbacked fun _ => Fair.of_ne (by decide)

theorem Cached.ilock (h : Cached strict v m) (hk : 0 < m k) (held : List (Fin NINODE))
    (hself : k ∈ held → E .deadlock) (hfree : ¬strict → E (.panic .noType)) :
    Ends E (ilock v held k) fun v' => k ∉ held ∧ (v'.icache k).valid = true ∧ Moves strict v v' m m := by
  have href : ¬(v.icache k).ref < 1 := by
    rw [h.ref k]
    omega
  rw [Sys.ilock, if_neg href]
  by_cases hheld : k ∈ held
  · rw [if_pos hheld]
    exact .stop (hself hheld)
  rw [if_neg hheld]
  by_cases hvalid : (v.icache k).valid = true
  · rw [if_pos hvalid]
    exact .ok ⟨hheld, hvalid, h, rfl, Keeps.refl v m⟩
  rw [if_neg hvalid]
  by_cases htype : (v.node k).type = 0
  · rw [if_pos htype]
    exact .stop (hfree fun hs => h.backed hs k hk htype)
  rw [if_neg htype]
  refine .ok ⟨hheld, ?_, ?_, rfl, keeps_update fun _ => ⟨rfl, fun _ => rfl⟩⟩
  · dsimp only
    rw [update_self]
  · have hsame := h.assign_same (e := { v.icache k with valid := true }) hk (h.ref k) rfl
      fun _ => htype
    rw [update_eq_self] at hsame
    exact hsame

theorem ilock_ends (h : Cached strict v m) (hk : 0 < m k) (held : List (Fin NINODE)) :
    Ends (Fair strict) (ilock v held k) fun v' => k ∉ held ∧ (v'.icache k).valid = true ∧ Moves strict v v' m m :=
  h.ilock hk held (fun _ => Fair.of_ne (by decide)) fun hnot hs => absurd hs hnot

/-! ### Dropping a reference -/

/-- The last reference to an inode without links frees it. -/
structure Frees (n : Nodes) (i : Nat) (n' : Nodes) : Prop where
  lt : i < NINODES
  type : (n i).type ≠ 0
  nlink : (n i).nlink = 0
  eq : n' = update n i (n i).freed

theorem Counted.congr (h : Counted v m)
    (hsame : ∀ k, (v'.icache k).ref = (v.icache k).ref ∧ (v'.icache k).inum = (v.icache k).inum) : Counted v' m := by
  refine ⟨fun k => ?_, fun k l hk hl heq => ?_⟩
  · rw [(hsame k).1, h.ref k]
  · rw [(hsame k).2, (hsame l).2] at heq
    exact h.unique k l hk hl heq

theorem unref_same (v : Vfs) (k l : Fin NINODE) : ((v.unref k).icache l).inum = (v.icache l).inum ∧
    ((v.unref k).icache l).valid = (v.icache l).valid := by
  dsimp only [Vfs.unref]
  by_cases hlk : l = k
  · rw [hlk, update_self]
    exact ⟨rfl, rfl⟩
  · rw [update_of_ne hlk]
    exact ⟨rfl, rfl⟩

theorem Counted.unref (h : Counted v (hold m k)) : Counted (v.unref k) m := by
  refine ⟨fun l => ?_, fun l l' hl hl' heq => ?_⟩
  · dsimp only [Vfs.unref]
    by_cases hlk : l = k
    · rw [hlk, update_self, h.ref k, hold_self]
      dsimp only
      omega
    · rw [update_of_ne hlk, h.ref l, hold_of_ne hlk]
  · rw [(unref_same v k l).1, (unref_same v k l').1] at heq
    exact h.unique l l' (hold_mono hl) (hold_mono hl') heq

theorem ifree_same (v : Vfs) (k l : Fin NINODE) :
    ((ifree v k).icache l).ref = (v.icache l).ref ∧ ((ifree v k).icache l).inum = (v.icache l).inum := by
  dsimp only [ifree]
  by_cases hlk : l = k
  · rw [hlk, update_self]
    exact ⟨rfl, rfl⟩
  · rw [update_of_ne hlk]
    exact ⟨rfl, rfl⟩

theorem unref_cached (h : Cached strict v (hold m k)) : Cached strict (v.unref k) m := by
  have hnode : ∀ l, (v.unref k).node l = v.node l := fun l => congrArg v.nodes (unref_same v k l).1
  refine ⟨h.toCounted.unref, fun l hl => ?_, fun l hl hvalid => ?_, fun hs l hl => ?_⟩
  · rw [(unref_same v k l).1]
    exact h.range l (hold_mono hl)
  · rw [(unref_same v k l).2] at hvalid
    rw [hnode]
    exact h.live l (hold_mono hl) hvalid
  · rw [hnode]
    exact h.backed hs l (hold_mono hl)

theorem unref_keeps : Keeps v (v.unref k) m := keeps_update fun _ => ⟨rfl, id⟩

theorem ifree_unref_cached (h : Cached strict v (hold m k)) (hm : m k = 0) :
    Cached strict ((ifree v k).unref k) m ∧ Keeps v ((ifree v k).unref k) m := by
  have hother : ∀ l, 0 < m l → ((ifree v k).unref k).icache l = v.icache l ∧
      ((ifree v k).unref k).node l = v.node l := by
    intro l hl
    have hlk : l ≠ k := by
      rintro rfl
      omega
    have hentry : ((ifree v k).unref k).icache l = v.icache l := by
      dsimp only [Vfs.unref, ifree]
      rw [update_of_ne hlk, update_of_ne hlk]
    refine ⟨hentry, ?_⟩
    have hne : (v.icache l).inum ≠ (v.icache k).inum := fun heq =>
      hlk (h.unique l k (hold_mono hl) (hold_pos_self m k) heq)
    rw [Vfs.node, hentry]
    exact update_of_ne hne _ _
  refine ⟨⟨(h.toCounted.congr (ifree_same v k)).unref, fun l hl => ?_, fun l hl hvalid => ?_,
    fun hs l hl => ?_⟩, fun l hl => ?_⟩
  · rw [(hother l hl).1]
    exact h.range l (hold_mono hl)
  · rw [(hother l hl).1] at hvalid
    rw [(hother l hl).2]
    exact h.live l (hold_mono hl) hvalid
  · rw [(hother l hl).2]
    exact h.backed hs l (hold_mono hl)
  · rw [(hother l hl).1]
    exact ⟨rfl, id⟩

theorem Cached.iput (h : Cached strict v (hold m k)) (hheld : Held v (hold m k)) (held : List (Fin NINODE))
    (hself : k ∈ held → E .deadlock) :
    Ends E (iput v held k) fun v' => k ∉ held ∧ Cached strict v' m ∧ Held v' m ∧ Keeps v v' m ∧
        (v'.nodes = v.nodes ∨ m k = 0 ∧ Frees v.nodes (v.icache k).inum v'.nodes) := by
  have hpos := hold_pos_self m k
  rw [Sys.iput]
  by_cases hmem : k ∈ held
  · rw [if_pos hmem]
    exact .stop (hself hmem)
  rw [if_neg hmem]
  by_cases hlast : (v.icache k).valid = true ∧ (v.node k).nlink = 0 ∧ (v.icache k).ref = 1
  · rw [if_pos hlast]
    obtain ⟨hvalid, hnlink, href⟩ := hlast
    have hm : m k = 0 := by
      rw [h.ref k, hold_self] at href
      omega
    obtain ⟨hcached, hkeeps⟩ := ifree_unref_cached h hm
    refine .ok ⟨hmem, hcached, ?_, hkeeps, Or.inr ⟨hm, h.range k hpos, h.live k hpos hvalid, hnlink, rfl⟩⟩
    intro i hi htype hzero
    by_cases heq : i = (v.icache k).inum
    · subst heq
      refine absurd ?_ htype
      exact congrArg Node.type (update_self (v.icache k).inum (v.node k).freed v.nodes)
    have hsame : ((ifree v k).unref k).nodes i = v.nodes i := update_of_ne heq _ _
    rw [hsame] at htype hzero
    obtain ⟨l, hl, hinum, hlvalid⟩ := hheld i hi htype hzero
    have hlk : l ≠ k := by
      rintro rfl
      exact heq hinum.symm
    rw [hold_of_ne hlk] at hl
    exact ⟨l, hl, (hkeeps l hl).1.trans hinum, (hkeeps l hl).2 hlvalid⟩
  · rw [if_neg hlast]
    refine .ok ⟨hmem, unref_cached h, ?_, unref_keeps, Or.inl rfl⟩
    intro i hi htype hzero
    obtain ⟨l, hl, hinum, hlvalid⟩ := hheld i hi htype hzero
    have hl' : 0 < m l := by
      by_cases hlk : l = k
      · subst hlk
        -- Its reference count is not 1, so others hold it.
        by_contra hnot
        refine hlast ⟨hlvalid, ?_, ?_⟩
        · rw [Vfs.node, hinum]
          exact hzero
        · rw [h.ref l, hold_self]
          omega
      · rw [hold_of_ne hlk] at hl
        exact hl
    exact ⟨l, hl', (unref_keeps l hl').1.trans hinum, (unref_keeps l hl').2 hlvalid⟩

theorem iput_ends (h : Cached strict v (hold m k)) (hheld : Held v (hold m k)) (held : List (Fin NINODE)) :
    Ends (Fair strict) (iput v held k) fun v' => k ∉ held ∧ Cached strict v' m ∧ Held v' m ∧ Keeps v v' m ∧
        (v'.nodes = v.nodes ∨ m k = 0 ∧ Frees v.nodes (v.icache k).inum v'.nodes) :=
  h.iput hheld held fun _ => Fair.of_ne (by decide)

theorem Cached.drop (h : Cached strict v (hold m k)) (hheld : Held v m) (held : List (Fin NINODE))
    (hself : k ∈ held → E .deadlock) : Ends E (Sys.iput v held k) fun v' => k ∉ held ∧ Moves strict v v' m m := by
  refine (h.iput (hheld.hold k) held hself).mono ?_
  rintro v' ⟨hmem, hcached, -, hkeeps, hnodes | ⟨hm, hfrees⟩⟩
  · exact ⟨hmem, hcached, hnodes, hkeeps⟩
  · obtain ⟨l, hl, hinum, -⟩ := hheld _ hfrees.lt hfrees.type hfrees.nlink
    have hlk := h.unique l k (hold_mono hl) (hold_pos_self m k) hinum
    rw [hlk, hm] at hl
    exact absurd hl (Nat.lt_irrefl 0)

theorem iput_moves (h : Cached strict v (hold m k)) (hheld : Held v m) (held : List (Fin NINODE)) :
    Ends (Fair strict) (iput v held k) fun v' => k ∉ held ∧ Moves strict v v' m m :=
  h.drop hheld held fun _ => Fair.of_ne (by decide)

/-! ### Changing an inode -/

variable {g : Node → Node}

@[simp] theorem icache_modify (v : Vfs) (k : Fin NINODE) (g : Node → Node) : (v.modify k g).icache = v.icache := rfl

theorem node_modify_self (v : Vfs) (k : Fin NINODE) (g : Node → Node) :
    (v.modify k g).node k = g (v.node k) := update_self _ _ _

theorem nodes_modify_of_ne {i : Nat} (hne : i ≠ (v.icache k).inum) : (v.modify k g).nodes i = v.nodes i :=
  update_of_ne hne _ _

theorem modify_keeps : Keeps v (v.modify k g) m := fun _ _ => ⟨rfl, id⟩

theorem Cached.relabel (h : Cached strict v m) (hcache : v'.icache = v.icache)
    (htype : ∀ i, (v.nodes i).type ≠ 0 → (v'.nodes i).type ≠ 0) : Cached strict v' m := by
  have hnode : ∀ k, (v.node k).type ≠ 0 → (v'.node k).type ≠ 0 := by
    intro k hk
    rw [Vfs.node, hcache]
    exact htype _ hk
  refine ⟨⟨?_, ?_⟩, ?_, ?_, fun hs k hk => hnode k (h.backed hs k hk)⟩
  · rw [hcache]
    exact h.ref
  · rw [hcache]
    exact h.unique
  · rw [hcache]
    exact h.range
  · intro k hk hvalid
    rw [hcache] at hvalid
    exact hnode k (h.live k hk hvalid)

theorem Cached.modify (h : Cached strict v m)
    (htype : (v.node k).type ≠ 0 → (g (v.node k)).type ≠ 0) : Cached strict (v.modify k g) m := by
  refine h.relabel (show (v.modify k g).icache = v.icache from rfl) fun i hi => ?_
  by_cases heq : i = (v.icache k).inum
  · rw [heq] at hi ⊢
    change ((v.modify k g).node k).type ≠ 0
    rw [node_modify_self]
    exact htype hi
  · rw [nodes_modify_of_ne heq]
    exact hi

theorem Held.modify (h : Held v m) (hk : 0 < m k) (hvalid : (v.icache k).valid = true) :
    Held (v.modify k g) m := by
  intro i hi htype hnlink
  by_cases heq : i = (v.icache k).inum
  · exact ⟨k, hk, heq.symm, hvalid⟩
  · rw [nodes_modify_of_ne heq] at htype hnlink
    exact h i hi htype hnlink

end Laboratorio.Sys
