import Laboratorio.VmSpecs
import Mathlib.Algebra.GroupWithZero.Nat

/-! The calls that build an address space: `setupkvm`, `allocuvm` and `copyuvm`. Where one of them runs out of
memory, every holder has what it had before the call, but for page tables in the directory of the caller. -/

namespace Laboratorio.Vm

open Function

variable {R K : Type} {L : Layout} {s : Space R K} {lo hi : Nat} {r : R} {o : K}

theorem update_back {α : Type} [DecidableEq α] {f : α → Nat} {x : α} (hx : f x = 0) (pg : Nat) :
    update (update f x pg) x 0 = f := by
  rw [update_idem, ← hx, update_eq_self]

theorem Space.page_of_root (hr : s.root r = 0) {p : Holder R K} (hp : ¬Apart r Set.univ ∅ p) : s.page p = 0 := by
  cases p with
  | dir r' => rw [Space.page, not_not.mp hp, hr]
  | table r' i => rw [Space.page, Space.table, not_not.mp hp, hr, tableOf_zero]
  | user r' e =>
    obtain ⟨rfl, -⟩ := Classical.not_imp.mp hp
    rw [Space.page, Space.pte, hr, pteOf_zero, frame_zero, ite_self]
  | kept o => exact absurd (Set.notMem_empty o) hp

theorem Frame.full {s' : Space R K} (h : Frame (Apart r Set.univ ∅) s s') (hr : s.root r = 0) (hr' : s'.root r = 0) :
    Frame (fun _ => True) s s' := by
  constructor
  · intro p _
    by_cases hp : Apart r Set.univ ∅ p
    · exact h.page p hp
    · rw [Space.page_of_root hr hp, Space.page_of_root hr' hp]
  · intro p _ hne
    by_cases hp : Apart r Set.univ ∅ p
    · exact h.word p hp hne
    · exact absurd (Space.page_of_root hr hp) hne

/-! ### What a call does to a directory -/

variable {U : Set (Index × Index)}

theorem Frame.hand {s₁ s₂ : Space R K} (h : Frame (· ≠ .kept o) s s₁) (h' : Frame (Apart r U {o}) s₁ s₂)
    (ho : s.keep o = 0) (ho' : s₂.keep o = 0) : Frame (Apart r U ∅) s s₂ := by
  have hapart : ∀ p, Apart r U {o} p → p ≠ .kept o := by
    rintro p hp rfl
    exact hp rfl
  refine ((h.mono hapart).trans h').join (.kept o) ho ho' fun p hp hpo => ?_
  cases p with
  | dir r' => exact hp
  | table r' i => exact hp
  | user r' e => exact hp
  | kept o' => exact fun heq => hpo (congrArg Holder.kept heq)

def forUser (pte : Nat) : Prop := pte / PTE_U % 2 = 1

instance (pte : Nat) : Decidable (forUser pte) := inferInstanceAs (Decidable (pte / PTE_U % 2 = 1))

theorem forUser_iff (pte : Nat) : forUser pte ↔ forUser (pteFlags pte) := by
  unfold forUser pteFlags
  simp only [PTE_U, PGSIZE]
  omega

/-- What a call of `allocuvm` has done so far: the pages in `U` are mapped, for the user. -/
structure Grown (r : R) (U U' : Set (Index × Index)) (s s' : Space R K) : Prop where
  filled : ∀ e ∈ U, present (s'.pte r e)
  opened : ∀ e ∈ U, forUser (s'.pte r e)
  same : ∀ e, e ∉ U → s'.pte r e = s.pte r e
  frame : Frame (Apart r U' ∅) s s'

theorem Grown.cleared {U' : Set (Index × Index)} {s₀ s' : Space R K} (h : Grown r U U' s₀ s) (hU : U ⊆ U')
    (h' : Cleared r U' s s') : Cleared r U' s₀ s' := by
  refine ⟨h'.gone, fun e he => ?_, h.frame.trans h'.frame⟩
  rw [h'.same e he, h.same e fun hu => he (hU hu)]

theorem Cleared.hand {s₁ s₂ s₃ : Space R K} (h : Frame (· ≠ .kept o) s s₁) (h' : Cleared r U s₁ s₂)
    (h'' : Frame (· ≠ .kept o) s₂ s₃) (ho : s.keep o = 0) (ho' : s₃.keep o = 0) : Cleared r U s s₃ := by
  have hpte : ∀ e, s₃.pte r e = s₂.pte r e := h''.pte fun i => nofun
  refine ⟨fun e he => ?_, fun e he => ?_, h.hand ((h'.frame.mono ?_).trans (h''.mono ?_)) ho ho'⟩
  · rw [hpte]
    exact h'.gone e he
  · rw [hpte, h'.same e he]
    exact h.pte (fun i => nofun) e
  · exact fun p hp => hp.mono subset_rfl (Set.empty_subset _)
  · rintro p hp rfl
    exact hp rfl

variable {a : Nat}

theorem span_mono {b c : Nat} (h : b ≤ c) : Span a b ⊆ Span a c := fun _ he => ⟨he.1, he.2.trans_le h⟩

/-! ### `setupkvm` -/

def Kmap.size (k : Kmap) : Nat := (k.phys_end + 2 ^ 32 - k.phys_start) % 2 ^ 32

/-- Mappings of whole pages from `a` on, none over another. -/
def Tiled : Nat → List Kmap → Prop
  | _, [] => True
  | a, k :: rest => ∃ n, k.size = (n + 1) * PGSIZE ∧ a ≤ k.virt ∧ k.virt % PGSIZE = 0 ∧
      k.virt + (n + 1) * PGSIZE ≤ 2 ^ 32 ∧ Tiled (k.virt + (n + 1) * PGSIZE) rest

theorem kmap_tiled (L : Layout) : Tiled KERNBASE (kmap L) := by
  obtain ⟨data, kend, haligned, hlink, hdata, hkend⟩ := L
  have hstart : KERNLINK % PGSIZE = 0 := by decide
  simp only [KERNLINK, KERNBASE, EXTMEM, PGSIZE] at haligned hlink hkend
  refine ⟨255, rfl, le_refl _, rfl, by decide, (data - KERNLINK) / PGSIZE - 1, ?_, ?_, hstart, ?_,
    (KERNBASE + PHYSTOP - data) / PGSIZE - 1, ?_, ?_, haligned, ?_, 8191, rfl, ?_, rfl, by decide, trivial⟩
  all_goals
    simp only [Kmap.size, KERNLINK, KERNBASE, EXTMEM, PHYSTOP, DEVSPACE, PGSIZE]
    omega

theorem mappages_pages {size n : Nat} (ha : a % PGSIZE = 0) (hsize : size = (n + 1) * PGSIZE)
    (hend : a + (n + 1) * PGSIZE ≤ 2 ^ 32) (m : Memory) (d pa perm : Nat) :
    mappages m d a size pa perm = mapLoop d perm n m a pa := by
  have hdown : PGROUNDDOWN a = a := by
    simp only [PGROUNDDOWN, PGSIZE] at ha ⊢
    omega
  have hlast : PGROUNDDOWN ((a + size - 1) % 2 ^ 32) = a + n * PGSIZE := by
    rw [hsize]
    simp only [PGROUNDDOWN, PGSIZE] at ha hend ⊢
    omega
  have hleft : (a + n * PGSIZE + 2 ^ 32 - a) % 2 ^ 32 / PGSIZE = n := by
    simp only [PGSIZE] at hend ⊢
    omega
  rw [mappages, hdown, hlast, hleft]

def Kmap.tables (k : Kmap) : Nat := (k.virt + k.size - PGSIZE) / 2 ^ 22 - k.virt / 2 ^ 22 + 1

/-- The entries after the mappings of a list. -/
def mapAll (ks : List Kmap) (f : Index × Index → Nat) : Index × Index → Nat :=
  ks.foldl (fun f k => mapped k.virt (k.size / PGSIZE) k.phys_start k.perm f) f

/-- The entries of a directory that `setupkvm` makes. -/
def kernelPte (L : Layout) : Index × Index → Nat := mapAll (kmap L) fun _ => 0

/-- The page tables for `kmap`: the kernel has one, the memory above it 56 at most, and the devices eight. -/
theorem kmap_tables (L : Layout) : ((kmap L).map Kmap.tables).sum ≤ 66 := by
  have hbios : (Kmap.mk KERNBASE 0 EXTMEM PTE_W).tables = 1 := by decide
  have hdevices : (Kmap.mk DEVSPACE DEVSPACE 0 PTE_W).tables = 8 := by decide
  have hlow : KERNLINK < L.data := L.link_lt
  have hhigh : L.data ≤ KERNBASE + 4 * 1024 * 1024 := L.data_le.trans L.kend_le
  have htext : (Kmap.mk KERNLINK (KERNLINK - KERNBASE) (L.data - KERNBASE) 0).tables ≤ 1 := by
    simp only [KERNLINK, KERNBASE, EXTMEM] at hlow hhigh
    simp only [Kmap.tables, Kmap.size, KERNLINK, KERNBASE, EXTMEM, PGSIZE]
    omega
  have hmemory : (Kmap.mk L.data (L.data - KERNBASE) PHYSTOP PTE_W).tables ≤ 56 := by
    simp only [KERNLINK, KERNBASE, EXTMEM] at hlow hhigh
    simp only [Kmap.tables, Kmap.size, KERNBASE, PHYSTOP, PGSIZE]
    omega
  unfold kmap
  rw [List.map_cons, List.map_cons, List.map_cons, List.map_cons, List.map_nil, List.sum_cons, List.sum_cons,
    List.sum_cons, List.sum_cons, List.sum_nil, hbios, hdevices]
  generalize Kmap.tables _ = text at htext ⊢
  generalize Kmap.tables _ = memory at hmemory ⊢
  omega

theorem kmap_start (L : Layout) : ∀ k ∈ kmap L, k.phys_start < 2 ^ 32 := by
  have hdata := L.data_le
  have hkend := L.kend_le
  simp only [KERNBASE] at hkend
  simp only [kmap, List.forall_mem_cons, KERNLINK, KERNBASE, EXTMEM, DEVSPACE]
  refine ⟨by decide, by decide, by omega, by decide, nofun⟩

variable {e : Index × Index} {ks : List Kmap}

theorem lt_of_tiled (h : Tiled a ks) (f : Index × Index → Nat) (he : vaOf e < a) :
    mapAll ks f e = f e := by
  induction ks generalizing a f with
  | nil => rfl
  | cons k ks ih =>
    obtain ⟨n, -, hle, -, -, hrest⟩ := h
    have hlow : e ∉ Span k.virt (k.virt + k.size / PGSIZE * PGSIZE) := fun hspan => by
      have := hspan.1
      omega
    calc mapAll (k :: ks) f e = mapAll ks (mapped k.virt (k.size / PGSIZE) k.phys_start k.perm f) e := rfl
      _ = mapped k.virt (k.size / PGSIZE) k.phys_start k.perm f e := ih hrest _ (by omega)
      _ = f e := if_neg hlow

theorem kernelPte_user (L : Layout) (he : IsUser e.1) : kernelPte L e = 0 :=
  lt_of_tiled (kmap_tiled L) _ ((isUser_iff e).mp he)

theorem kmap_perm (L : Layout) : ∀ k ∈ kmap L, k.virt % PGSIZE = 0 ∧ k.phys_start % PGSIZE = 0 ∧
    (k.perm = 0 ∨ k.perm = PTE_W) := by
  have haligned := L.data_aligned
  have hlink := L.link_lt
  simp only [kmap, List.forall_mem_cons]
  refine ⟨by decide, by decide, ⟨haligned, ?_, by decide⟩, by decide, nofun⟩
  simp only [KERNBASE, PGSIZE] at haligned ⊢
  omega

theorem mapAll_not_forUser
    (hks : ∀ k ∈ ks, k.virt % PGSIZE = 0 ∧ k.phys_start % PGSIZE = 0 ∧ (k.perm = 0 ∨ k.perm = PTE_W))
    {f : Index × Index → Nat} (hf : ∀ e, ¬forUser (f e)) (e : Index × Index) : ¬forUser (mapAll ks f e) := by
  induction ks generalizing f with
  | nil => exact hf e
  | cons k ks ih =>
    obtain ⟨⟨hvirt, hphys, hperm⟩, hrest⟩ := List.forall_mem_cons.mp hks
    refine ih hrest fun e => ?_
    change ¬forUser (mapped k.virt (k.size / PGSIZE) k.phys_start k.perm f e)
    unfold mapped
    split
    · have hva := vaOf_aligned e
      have hpage : (k.phys_start + (vaOf e - k.virt)) % 2 ^ 32 =
          (k.phys_start + (vaOf e - k.virt)) % 2 ^ 32 / PGSIZE * PGSIZE := by
        simp only [PGSIZE] at hvirt hphys hva ⊢
        omega
      rw [hpage, forUser_iff]
      rcases hperm with hperm | hperm
      · rw [hperm, (frame_entry _ (by decide)).2.2]
        decide
      · rw [hperm, (frame_entry _ (by decide)).2.2]
        decide
    · exact hf e

theorem kernelPte_not_forUser (L : Layout) (e : Index × Index) : ¬forUser (kernelPte L e) :=
  mapAll_not_forUser (kmap_perm L) (fun _ => by decide) e

theorem kernelPte_devspace (L : Layout) (he : DEVSPACE ≤ vaOf e) : present (kernelPte L e) := by
  have htop : vaOf e < DEVSPACE + 8192 * PGSIZE := by
    have hi := e.1.isLt
    have hj := e.2.isLt
    simp only [vaOf, NPDENTRIES, PGSIZE, DEVSPACE] at hi hj ⊢
    omega
  have hlast : kernelPte L e = (DEVSPACE + (vaOf e - DEVSPACE)) % 2 ^ 32 ||| (PTE_W ||| PTE_P) := if_pos ⟨he, htop⟩
  rw [hlast]
  unfold present
  rw [Nat.or_mod_two_eq_one]
  exact Or.inr rfl

variable [DecidableEq R] [DecidableEq K]

theorem Inv.setupLoop (h : Inv s lo hi) (hpool : Pool L lo hi) (hr : s.root r ≠ 0)
    (htiled : Tiled a ks) (hstart : ∀ k ∈ ks, k.phys_start < 2 ^ 32) (ha : KERNBASE ≤ a)
    (hfree : ∀ e, a ≤ vaOf e → ¬present (s.pte r e)) :
    Ends (fun _ => False) (setupLoop L (s.root r) ks s.mem) fun res =>
      (res.1 = 0 ∧ Inv { s with mem := res.2, root := update s.root r 0 } lo hi ∧
        Frame (Apart r Set.univ ∅) s { s with mem := res.2, root := update s.root r 0 } ∧
        ¬Room s.mem (ks.map Kmap.tables).sum) ∨
      (res.1 = s.root r ∧ Inv { s with mem := res.2 } lo hi ∧ { s with mem := res.2 }.pte r = mapAll ks (s.pte r) ∧
        Frame (Apart r ∅ ∅) s { s with mem := res.2 } ∧ ∀ n, Room s.mem (n + (ks.map Kmap.tables).sum) →
        Room res.2 n) := by
  induction ks generalizing s a with
  | nil => exact .ok (Or.inr ⟨rfl, h, rfl, .refl _ s, fun n hn => hn⟩)
  | cons k ks ih =>
    obtain ⟨n, hsize, hle, haligned, hend, hrest⟩ := htiled
    obtain ⟨hk, hks⟩ := List.forall_mem_cons.mp hstart
    have hge : KERNBASE ≤ k.virt := ha.trans hle
    have hpages : k.size / PGSIZE = n + 1 := by rw [hsize, Nat.mul_div_cancel _ (by decide)]
    have htables : s.lacks r k.virt n ≤ k.tables := by
      have hone := s.lack_le r k.virt
      unfold Space.lacks Kmap.tables
      rw [hsize]
      simp only [PGSIZE]
      omega
    have hmap := h.mapKernel hpool.pos hr haligned hge (show k.virt + n * PGSIZE <
      2 ^ 32 by simp only [PGSIZE] at hend ⊢; omega) hk (fun e he => hfree e (hle.trans he.1)) k.perm
    rw [Vm.setupLoop, show (k.phys_end + 2 ^ 32 - k.phys_start) % 2 ^ 32 = k.size from rfl,
      mappages_pages haligned hsize hend, List.map_cons, List.sum_cons]
    refine hmap.bind ?_
    rintro ⟨res, m⟩ ⟨hinv, hframe, hres⟩
    dsimp only at hinv hframe hres ⊢
    have hunder : Frame (Apart r Set.univ ∅) s { s with mem := m } :=
      hframe.mono fun p hp => hp.mono (Set.empty_subset _) subset_rfl
    rcases hres with ⟨rfl, hfull⟩ | ⟨rfl, hpte, hroom⟩
    · rw [if_pos (by decide)]
      refine (hinv.freevm hpool hr).bind fun m' hm' => .ok (Or.inl ⟨rfl, hm'.1, hunder.trans hm'.2, fun hn => ?_⟩)
      exact hfull (hn.mono (htables.trans (Nat.le_add_right _ _)))
    have hfree' : ∀ e, k.virt + (n + 1) * PGSIZE ≤ vaOf e → ¬present ({ s with mem := m }.pte r e) := by
      intro e he
      have hout : e ∉ Span k.virt (k.virt + (n + 1) * PGSIZE) := fun hspan => not_lt.mpr he hspan.2
      rw [hpte, mapped, if_neg hout]
      exact hfree e (by omega)
    refine (ih hinv hr hrest hks (by omega) hfree').mono fun res hres => ?_
    rcases hres with ⟨hzero, hinv', hframe', hfull⟩ | ⟨hroot, hinv', hpte', hframe', hroom'⟩
    · refine Or.inl ⟨hzero, hinv', hunder.trans hframe', fun hn => hfull (hroom _ (hn.mono ?_))⟩
      omega
    · refine Or.inr ⟨hroot, hinv', ?_, hframe.trans hframe', fun n' hn => hroom' n' (hroom _ (hn.mono ?_))⟩
      · rw [hpte', hpte, ← hpages]
        rfl
      · omega

variable {m : Memory}

theorem Inv.kallocPut (h : Inv s lo hi) (hpos : 0 < lo) (ho : s.keep o = 0) {pg : Nat}
    (hrun : Vm.kalloc s.mem = (pg, m)) (words : Index → Nat) :
    (pg = 0 ∧ m = s.mem ∧ ¬Room s.mem 1) ∨
      (pg ≠ 0 ∧ Inv { s with mem := m.put pg words, keep := update s.keep o pg } lo hi ∧
      Frame (· ≠ .kept o) s { s with mem := m.put pg words, keep := update s.keep o pg } ∧
      ∀ n, Room s.mem (n + 1) → Room (m.put pg words) n) := by
  rcases h.kalloc hpos ho hrun with ⟨hzero, hmem⟩ | ⟨hpg, hinv, hframe, -⟩
  · exact Or.inl ⟨hzero, hmem, fun hroom => hroom.kalloc_ne_zero hrun hzero⟩
  have hself : Space.page { s with mem := m, keep := update s.keep o pg } (.kept o) = pg :=
    update_self _ _ _
  obtain ⟨hput, -, hframe'⟩ := hinv.put (q := .kept o) (by rwa [hself]) nofun nofun words
  rw [hself] at hput hframe'
  refine Or.inr ⟨hpg, hput, hframe.trans hframe', fun n => h.room hput [pg] fun p _ hp => ⟨p, ?_⟩⟩
  refine ((hframe.trans hframe').page p ?_).symm
  rintro rfl
  exact hp (List.mem_singleton.mpr hself)

/-- `setupkvm` makes the entries of the kernel, and no others, from at most 67 pages. -/
theorem Inv.setupkvm (h : Inv s lo hi) (hpool : Pool L lo hi) (hr : s.root r = 0) (ho : s.keep o = 0) :
    Ends (fun _ => False) (setupkvm L s.mem) fun res =>
      (res.1 = 0 ∧ Inv { s with mem := res.2 } lo hi ∧ Frame (fun _ => True) s { s with mem := res.2 } ∧
        ¬Room s.mem 67) ∨
      (res.1 ≠ 0 ∧ Inv { s with mem := res.2, root := update s.root r res.1 } lo hi ∧
        { s with mem := res.2, root := update s.root r res.1 }.pte r = kernelPte L ∧
        Frame (Apart r Set.univ ∅) s { s with mem := res.2, root := update s.root r res.1 } ∧
        ∀ n, Room s.mem (n + 67) → Room res.2 n) := by
  have htables := kmap_tables L
  unfold Vm.setupkvm
  obtain ⟨⟨pg, m⟩, hrun⟩ : ∃ x, Vm.kalloc s.mem = x := ⟨_, rfl⟩
  rw [hrun]
  rcases h.kallocPut hpool.pos ho hrun (fun _ => 0) with ⟨rfl, rfl, hfull⟩ | ⟨hpg, hinv, hframe, hroom⟩
  · exact .ok (Or.inl ⟨rfl, h, .refl _ s, fun hn => hfull (hn.mono (by decide))⟩)
  split
  · rename_i heq
    cases heq
    exact absurd rfl hpg
  rename_i heq
  cases heq
  obtain ⟨s₁, hs₁⟩ : ∃ s₁ : Space R K, s₁ = { s with mem := m.put pg fun _ => 0, keep := update s.keep o pg } :=
    ⟨_, rfl⟩
  rw [← hs₁] at hinv hframe
  have hself : s₁.keep o = pg := by
    rw [hs₁]
    exact update_self _ _ _
  have hblank : ∀ i, s₁.mem.word (s₁.keep o) i = 0 := by
    intro i
    rw [hself, hs₁]
    exact congrFun (Memory.word_fill_self m pg 0) i
  have hr₁ : s₁.root r = 0 := by
    rw [hs₁]
    exact hr
  obtain ⟨hadopt, hnone, hframe'⟩ := hinv.adopt hpool.pos hr₁ (by rwa [hself]) hblank
  have hs₂ : ({ s₁ with root := update s₁.root r (s₁.keep o), keep := update s₁.keep o 0 } : Space R K) =
      { s with mem := m.put pg fun _ => 0, root := update s.root r pg } := by
    rw [hself, hs₁]
    rw [update_back ho]
  rw [hs₂] at hadopt hnone hframe'
  have hpte : ({ s with mem := m.put pg fun _ => 0, root := update s.root r pg } : Space R K).pte r = fun _ => 0 := by
    funext e
    exact pteOf_none (hnone e.1)
  have hapart : Frame (Apart r Set.univ ∅) s { s with mem := m.put pg fun _ => 0, root := update s.root r pg } := by
    refine ((hframe.mono ?_).trans (hframe'.mono fun p hp => hp)).join (.kept o) ho ho fun p hp hpo => ⟨?_, hpo⟩
    · exact fun p hp => hp.2
    · rintro rfl
      exact hp rfl
  have hroot : update s.root r pg r = pg := update_self _ _ _
  have hloop := hadopt.setupLoop hpool (by dsimp only; rwa [hroot]) (kmap_tiled L) (kmap_start L) (le_refl _)
    fun e _ => by rw [hpte]; exact not_present_zero
  dsimp only at hloop
  rw [hroot] at hloop
  refine hloop.mono fun res hres => ?_
  rcases hres with ⟨hzero, hinv', hframe'', hfull⟩ | ⟨hd, hinv', hpte', hframe'', hroom'⟩
  · rw [update_back hr] at hinv' hframe''
    exact Or.inl ⟨hzero, hinv', (hapart.trans hframe'').full hr hr, fun hn => hfull (hroom _ (hn.mono (by omega)))⟩
  · rw [hpte] at hpte'
    rw [← hd] at hpg hinv' hpte' hframe'' hapart
    refine Or.inr ⟨hpg, hinv', hpte', hapart.trans (hframe''.mono fun p hp => hp.mono (Set.empty_subset _) subset_rfl),
      fun n hn => hroom' n (hroom _ (hn.mono (by omega)))⟩

/-! ### One page -/

/-- `kalloc`, a store of words into the page, and `mappages`. The page stays in the variable when it cannot be mapped.
-/
theorem Inv.takePage (h : Inv s lo hi) (hpos : 0 < lo) (hr : s.root r ≠ 0) (ho : s.keep o = 0)
    (ha : a % PGSIZE = 0) (hlt : a < KERNBASE) {flags : Nat} (hflags : flags < PGSIZE) {pg : Nat}
    (hrun : Vm.kalloc s.mem = (pg, m)) (words : Index → Nat) :
    (pg = 0 ∧ m = s.mem ∧ ¬Room s.mem 1) ∨
      (pg ≠ 0 ∧ Inv { s with mem := m.put pg words, keep := update s.keep o pg } lo hi ∧
      Frame (· ≠ .kept o) s { s with mem := m.put pg words, keep := update s.keep o pg } ∧
      Ends (fun e => e = .remap ∧ present (s.pte r (entry a)))
        (mappages (m.put pg words) (s.root r) a PGSIZE (pg * PGSIZE) flags) fun res =>
        (res = (-1, m.put pg words) ∧ ¬Room s.mem 2) ∨ (res.1 = 0 ∧ Inv { s with mem := res.2 } lo hi ∧
          { s with mem := res.2 }.pte r = update (s.pte r) (entry a) (pg * PGSIZE ||| (flags ||| PTE_P)) ∧
          res.2.word pg = words ∧ Frame (Apart r {entry a} ∅) s { s with mem := res.2 } ∧
          ∀ n, Room s.mem (n + 2) → Room res.2 n)) := by
  rcases h.kallocPut hpos ho hrun words with hnone | ⟨hpg, hinv, hframe, hroom⟩
  · exact Or.inl hnone
  refine Or.inr ⟨hpg, hinv, hframe, ?_⟩
  have hself : update s.keep o pg o = pg := update_self _ _ _
  have hpte : Space.pte { s with mem := m.put pg words, keep := update s.keep o pg } r = s.pte r :=
    funext (hframe.pte fun i => nofun)
  have hheld : Space.keep { s with mem := m.put pg words, keep := update s.keep o pg } o ≠ 0 := by
    dsimp only
    rwa [hself]
  have hmap := hinv.mapPage hpos hr ha hlt hheld hflags
  dsimp only at hmap
  rw [hself, hpte, update_back ho] at hmap
  refine hmap.mono fun res hres => ?_
  rcases hres with ⟨hfail, hfull⟩ | ⟨hzero, hinv', hentry, hword, hframe', hroom'⟩
  · exact Or.inl ⟨hfail, fun hn => hfull (hroom 1 hn)⟩
  · refine Or.inr ⟨hzero, hinv', hentry, hword.trans ?_, hframe.hand hframe' ho ho,
      fun n hn => hroom' n (hroom (n + 1) hn)⟩
    exact update_self _ _ _

theorem Inv.giveBack {pg : Nat} (h : Inv { s with mem := m, keep := update s.keep o pg } lo hi) (hpool : Pool L lo hi)
    (hpg : pg ≠ 0) (ho : s.keep o = 0) :
    ∃ m', Vm.kfree L m pg = .ok m' ∧ Inv { s with mem := m' } lo hi ∧
      Frame (· ≠ .kept o) { s with mem := m, keep := update s.keep o pg } { s with mem := m' } := by
  have hheld : update s.keep o pg o = pg := update_self _ _ _
  obtain ⟨m', hfree, hinv, hframe⟩ := h.kfree hpool (by dsimp only; rwa [hheld])
  dsimp only at hfree hinv hframe
  rw [hheld] at hfree
  rw [update_back ho] at hinv hframe
  exact ⟨m', hfree, hinv, hframe⟩

/-! ### `allocuvm` -/

theorem Inv.allocLoop {s₀ : Space R K} (h : Inv s lo hi) (hpool : Pool L lo hi) (hr : s.root r ≠ 0) (ho : s.keep o = 0)
    {fuel oldsz newsz : Nat} (ha : a % PGSIZE = 0) (hbase : PGROUNDUP oldsz ≤ a) (hlt : newsz < KERNBASE)
    (hfuel : newsz ≤ a + fuel * PGSIZE)
    (hgrown : Grown r (Span (PGROUNDUP oldsz) (min a newsz)) (Span (PGROUNDUP oldsz) newsz) s₀ s) :
    Ends (fun e => e = .remap ∧ ∃ e ∈ Span (PGROUNDUP oldsz) newsz, present (s₀.pte r e))
      (allocLoop L (s.root r) oldsz newsz fuel s.mem a) fun res => Inv { s with mem := res.2 } lo hi ∧
      ((res.1 = 0 ∧ Cleared r (Span (PGROUNDUP oldsz) newsz) s₀ { s with mem := res.2 } ∧ ¬Room s.mem (2 * fuel)) ∨
       (res.1 = newsz ∧ Grown r (Span (PGROUNDUP oldsz) newsz) (Span (PGROUNDUP oldsz) newsz) s₀
       { s with mem := res.2 } ∧
        ∀ n, Room s.mem (n + 2 * fuel) → Room res.2 n)) := by
  have hsub : Span (PGROUNDUP oldsz) (min a newsz) ⊆ Span (PGROUNDUP oldsz) newsz := span_mono (Nat.min_le_right _ _)
  induction fuel generalizing s a with
  | zero =>
    rw [Nat.min_eq_right (by omega)] at hgrown
    rw [Vm.allocLoop, if_neg (by omega)]
    exact .ok ⟨h, Or.inr ⟨rfl, hgrown, fun n hn => hn⟩⟩
  | succ fuel ih =>
    rw [Vm.allocLoop]
    split
    case isFalse hge =>
      rw [Nat.min_eq_right (by omega)] at hgrown
      exact .ok ⟨h, Or.inr ⟨rfl, hgrown, fun n hn => hn.mono (Nat.le_add_right _ _)⟩⟩
    case isTrue halt =>
      rw [Nat.succ_mul] at hfuel
      rw [Nat.min_eq_left halt.le] at hgrown hsub
      have haltk := halt.trans hlt
      have hva := vaOf_entry_of_aligned ha (lt_of_kernbase haltk)
      have hmem : entry a ∈ Span (PGROUNDUP oldsz) newsz := by
        rw [mem_span, hva]
        exact ⟨hbase, halt⟩
      have hself : entry a ∉ Span (PGROUNDUP oldsz) a := by
        rw [mem_span, hva]
        omega
      obtain ⟨⟨pg, m⟩, hrun⟩ : ∃ x, Vm.kalloc s.mem = x := ⟨_, rfl⟩
      rw [hrun]
      rcases h.takePage hpool.pos hr ho ha haltk (show PTE_W ||| PTE_U < PGSIZE by decide) hrun (fun _ => 0) with
        ⟨rfl, rfl, hfull⟩ | ⟨hpg, hinv, hframe, hmap⟩
      · refine (h.deallocuvm hpool hr hlt.le).never.bind ?_
        rintro ⟨n, m⟩ ⟨-, hinv, hcleared⟩
        exact .ok ⟨hinv, Or.inl ⟨rfl, hgrown.cleared hsub hcleared, fun hn => hfull (hn.mono (by omega))⟩⟩
      split
      · rename_i heq
        cases heq
        exact absurd rfl hpg
      rename_i heq
      cases heq
      have hold : s₀.pte r (entry a) = s.pte r (entry a) := (hgrown.same _ hself).symm
      refine (hmap.mono_stop fun e he => ⟨he.1, entry a, hmem, by rw [hold]; exact he.2⟩).bind ?_
      rintro ⟨res, m'⟩ (⟨hfail, hfull⟩ | ⟨hzero, hinv', hentry, -, hframe', hroom⟩)
      · cases hfail
        dsimp only
        refine (hinv.deallocuvm hpool hr hlt.le).never.bind ?_
        rintro ⟨n, m₂⟩ ⟨-, hinv₂, hcleared⟩
        obtain ⟨m₃, hfree, hinv₃, hframe₃⟩ := hinv₂.giveBack hpool hpg ho
        rw [hfree, ok_bind]
        exact .ok ⟨hinv₃, Or.inl ⟨rfl, hgrown.cleared hsub (hcleared.hand hframe hframe₃ ho ho),
          fun hn => hfull (hn.mono (by omega))⟩⟩
      dsimp only at hzero hinv' hentry hframe' hroom ⊢
      rw [hzero, if_neg (by decide)]
      obtain ⟨hpresent, -, hflags⟩ := frame_entry pg (show PTE_W ||| PTE_U < PGSIZE by decide)
      have huser : forUser (pg * PGSIZE ||| (PTE_W ||| PTE_U ||| PTE_P)) := by
        rw [forUser_iff, hflags]
        decide
      -- The entry is the new one, or one of those before it.
      have hstep : ∀ e ∈ Span (PGROUNDUP oldsz) (min (a + PGSIZE) newsz), present ({ s with mem := m' }.pte r e) ∧
          forUser ({ s with mem := m' }.pte r e) := by
        intro e he
        rw [hentry]
        by_cases hea : e = entry a
        · rw [hea, update_self]
          exact ⟨hpresent, huser⟩
        · rw [update_of_ne hea]
          have hold : e ∈ Span (PGROUNDUP oldsz) a := by
            refine ⟨he.1, ?_⟩
            by_contra hge
            refine hea (eq_entry_of_span ha (lt_of_kernbase haltk) ⟨by omega, ?_⟩)
            exact he.2.trans_le (Nat.min_le_left _ _)
          exact ⟨hgrown.filled e hold, hgrown.opened e hold⟩
      refine (ih hinv' hr ho (by rw [Nat.add_mod_right, ha]) (by omega) (by omega)
        ⟨fun e he => (hstep e he).1, fun e he => (hstep e he).2, fun e he => ?_, ?_⟩
        (span_mono (Nat.min_le_right _ _))).mono fun res hres => ⟨hres.1, ?_⟩
      · have hea : e ≠ entry a := by
          rintro rfl
          refine he ?_
          rw [mem_span, hva]
          exact ⟨hbase, by simp only [PGSIZE]; omega⟩
        rw [hentry, update_of_ne hea]
        refine hgrown.same e fun hc => he ⟨hc.1, ?_⟩
        have := hc.2
        omega
      · refine hgrown.frame.trans (hframe'.mono fun p hp => hp.mono ?_ subset_rfl)
        exact Set.singleton_subset_iff.mpr hmem
      · rcases hres.2 with ⟨hzero', hcleared, hfull⟩ | ⟨hdone, hgrown', hroom'⟩
        · exact Or.inl ⟨hzero', hcleared, fun hn => hfull (hroom _ (hn.mono (by omega)))⟩
        · exact Or.inr ⟨hdone, hgrown', fun n hn => hroom' n (hroom _ (hn.mono (by omega)))⟩

theorem Inv.allocuvm (h : Inv s lo hi) (hpool : Pool L lo hi) (hr : s.root r ≠ 0) (ho : s.keep o = 0)
    (oldsz newsz : Nat) :
      Ends (fun e => e = .remap ∧ newsz < KERNBASE ∧ ∃ e ∈ Span (PGROUNDUP oldsz) newsz, present (s.pte r e))
      (allocuvm L s.mem (s.root r) oldsz newsz) fun res => Inv { s with mem := res.2 } lo hi ∧
      ((res.1 = 0 ∧ Cleared r (Span (PGROUNDUP oldsz) newsz) s { s with mem := res.2 } ∧
      ¬Room s.mem (2 * (newsz / PGSIZE + 1))) ∨
       (KERNBASE ≤ newsz ∧ res = (0, s.mem)) ∨ (newsz < oldsz ∧ newsz < KERNBASE ∧ res = (oldsz, s.mem)) ∨
       (res.1 = newsz ∧ oldsz ≤ newsz ∧ newsz < KERNBASE ∧
         Grown r (Span (PGROUNDUP oldsz) newsz) (Span (PGROUNDUP oldsz) newsz) s { s with mem := res.2 } ∧
         ∀ n, Room s.mem (n + 2 * (newsz / PGSIZE + 1)) → Room res.2 n)) := by
  unfold Vm.allocuvm
  split
  · rename_i hge
    exact .ok ⟨h, Or.inr (Or.inl ⟨hge, rfl⟩)⟩
  rename_i hlt
  rw [not_le] at hlt
  split
  · rename_i hless
    exact .ok ⟨h, Or.inr (Or.inr (Or.inl ⟨hless, hlt, rfl⟩))⟩
  rename_i hle
  have hloop := h.allocLoop hpool hr ho (PGROUNDUP_aligned oldsz) (le_refl _) hlt
    (show newsz ≤ PGROUNDUP oldsz + (newsz / PGSIZE + 1) * PGSIZE by simp only [PGSIZE]; omega)
    ⟨fun e he => absurd he (span_empty (Nat.min_le_left _ _) e),
      fun e he => absurd he (span_empty (Nat.min_le_left _ _) e), fun _ _ => rfl, .refl _ s⟩
  refine (hloop.mono_stop fun e he => ⟨he.1, hlt, he.2⟩).mono fun res hres => ⟨hres.1, ?_⟩
  rcases hres.2 with hfail | ⟨hdone, hgrown, hroom⟩
  · exact Or.inl hfail
  · exact Or.inr (Or.inr (Or.inr ⟨hdone, by omega, hlt, hgrown, hroom⟩))

theorem Inv.allocuvm_lt (h : Inv s lo hi) (hpool : Pool L lo hi) (hr : s.root r ≠ 0) (ho : s.keep o = 0)
    {oldsz newsz : Nat} (hlt : oldsz < KERNBASE ∨ oldsz ≤ newsz) :
    Ends (fun _ => True) (Vm.allocuvm L s.mem (s.root r) oldsz newsz) fun res =>
      Inv { s with mem := res.2 } lo hi ∧ res.1 < KERNBASE := by
  refine ((h.allocuvm hpool hr ho oldsz newsz).mono_stop fun _ _ => trivial).mono fun res hres => ⟨hres.1, ?_⟩
  rcases hres.2 with ⟨hzero, -⟩ | ⟨-, rfl⟩ | ⟨hless, -, rfl⟩ | ⟨hn, -, hlt', -⟩
  · rw [hzero]
    decide
  · exact (by decide : 0 < KERNBASE)
  · exact hlt.resolve_right (not_le.mpr hless)
  · omega

theorem Inv.inituvm (h : Inv s lo hi) (hpos : 0 < lo) (hr : s.root r ≠ 0) (ho : s.keep o = 0) :
    Ends (fun _ => present (s.pte r (entry 0)) ∨ ¬Room s.mem 2) (Vm.inituvm s.mem (s.root r)) fun res =>
      (res.1 ≠ 0 ∧ res.2.1 = 0 → Inv { s with mem := res.2.2 } lo hi ∧
        present ({ s with mem := res.2.2 }.pte r (entry 0)) ∧ ∀ e, e ≠ entry 0 →
        { s with mem := res.2.2 }.pte r e = s.pte r e) ∧
      ∀ n, Room s.mem (n + 2) → res.1 ≠ 0 ∧ res.2.1 = 0 ∧ Room res.2.2 n := by
  obtain ⟨⟨pg, m⟩, hrun⟩ : ∃ x, Vm.kalloc s.mem = x := ⟨_, rfl⟩
  unfold Vm.inituvm
  rw [hrun]
  dsimp only
  rcases h.takePage hpos hr ho (Nat.zero_mod _) (by decide) (show PTE_W ||| PTE_U < PGSIZE by decide) hrun
    (fun _ => 0) with
    ⟨rfl, rfl, hfull⟩ | ⟨hpg, -, -, hmap⟩
  · cases hmap : mappages (s.mem.fill 0 0) (s.root r) 0 PGSIZE (0 * PGSIZE) (PTE_W ||| PTE_U) with
    | error e => exact .stop (Or.inr fun hn => hfull (hn.mono (by decide)))
    | ok res => exact .ok ⟨fun hok => absurd rfl hok.1, fun n hn => absurd (hn.mono (by omega)) hfull⟩
  refine (hmap.mono_stop fun _ he => Or.inl he.2).bind ?_
  rintro ⟨res, m'⟩ (⟨hfail, hfull⟩ | ⟨hzero, hinv, hentry, -, -, hroom⟩)
  · cases hfail
    exact .ok ⟨fun hok => absurd hok.2 (show (-1 : Int) ≠ 0 by decide), fun n hn => absurd (hn.mono (by omega)) hfull⟩
  · refine .ok ⟨fun _ => ⟨hinv, ?_, fun e he => ?_⟩, fun n hn => ⟨hpg, hzero, hroom n hn⟩⟩
    · dsimp only at hentry ⊢
      rw [hentry, update_self]
      exact (frame_entry pg (by decide)).1
    · dsimp only at hentry ⊢
      rw [hentry, update_of_ne he]

theorem Inv.growproc (h : Inv s lo hi) (hpool : Pool L lo hi) (hr : s.root r ≠ 0) (ho : s.keep o = 0) {sz : Nat}
    (hlt : sz < KERNBASE) (n : Int) :
    Ends (fun _ => True) (Vm.growproc L s.mem (s.root r) sz n) fun res =>
      Inv { s with mem := res.2.2 } lo hi ∧ res.2.1 < KERNBASE := by
  unfold Vm.growproc
  split
  · refine (h.allocuvm_lt hpool hr ho (Or.inl hlt)).bind fun res hres => ?_
    dsimp only
    split
    · exact .ok ⟨hres.1, hlt⟩
    · exact .ok hres
  · split
    · refine (h.deallocuvm hpool hr hlt.le).never.bind fun res hres => ?_
      dsimp only
      split
      · exact .ok ⟨hres.2.1, hlt⟩
      · refine .ok ⟨hres.2.1, ?_⟩
        rw [hres.1]
        omega
    · exact .ok ⟨h, hlt⟩

/-! ### `copyuvm` -/

/-- The user page at an entry is a copy of another directory's, as that was in `s`. -/
structure CopyOf (s : Space R K) (r₀ : R) (s' : Space R K) (r : R) (e : Index × Index) : Prop where
  source : present (s.pte r₀ e)
  target : present (s'.pte r e)
  flags : pteFlags (s'.pte r e) = pteFlags (s.pte r₀ e)
  words : s'.mem.word (pteAddr (s'.pte r e)) = s.mem.word (pteAddr (s.pte r₀ e))

/-- `copyuvm` reads the directory of another variable. -/
def Source (s : Space R K) (r r₀ : R) (pgdir : Nat) : Prop := r₀ ≠ r ∧ s.root r₀ ≠ 0 ∧ pgdir = s.root r₀

theorem pteFlags_or {pte : Nat} (h : present pte) : pteFlags pte ||| PTE_P = pteFlags pte := by
  have hodd : pteFlags pte = 2 * (pteFlags pte / 2) + 1 := by
    unfold present at h
    unfold pteFlags
    simp only [PGSIZE]
    omega
  rw [hodd]
  generalize pteFlags pte / 2 = k
  apply Nat.eq_of_testBit_eq
  intro i
  cases i with
  | zero => simp
  | succ i =>
    rw [Nat.testBit_or, Nat.testBit_succ, Nat.testBit_succ]
    simp [PTE_P]

omit [DecidableEq R] [DecidableEq K] in
theorem CopyOf.of_frame {s₁ s' : Space R K} {r₀ : R} (h : CopyOf s₁ r₀ s' r e) (hinv : Inv s lo hi)
    (hframe : Frame (Apart r U ∅) s s₁) (hr₀ : r₀ ≠ r) (he : IsUser e.1) : CopyOf s r₀ s' r e := by
  have hpte : s₁.pte r₀ e = s.pte r₀ e := hframe.pte (fun _ => hr₀) e
  have hsource := h.source
  rw [hpte] at hsource
  have hpage : s.page (.user r₀ e) = pteAddr (s.pte r₀ e) := by rw [Space.page_user he, frame_of_present hsource]
  have hne := hinv.users r₀ e he hsource
  have hword := hframe.word (.user r₀ e) (fun heq => absurd heq hr₀)
  rw [hpage] at hword
  refine ⟨hsource, h.target, ?_, ?_⟩
  · rw [h.flags, hpte]
  · rw [h.words, hpte, hword hne]

/-- The copy goes into a directory without user pages from `i` on; it stops only at a page that the source has not. -/
theorem Inv.copyLoop (h : Inv s lo hi) (hpool : Pool L lo hi) (hr : s.root r ≠ 0) {r₀ : R} {pgdir : Nat}
    (hsrc : Source s r r₀ pgdir) (ho : s.keep o = 0) {i sz fuel : Nat} (ha : i % PGSIZE = 0) (hsz : sz ≤ KERNBASE)
    (hfuel : sz ≤ i + fuel * PGSIZE)
    (hfree : ∀ e ∈ Span i KERNBASE, ¬present (s.pte r e)) :
    Ends (fun _ => ∃ e ∈ Span i sz, ¬present (s.pte r₀ e)) (copyLoop L pgdir sz (s.root r) fuel s.mem i) fun res =>
      (res.1 = 0 ∧ Inv { s with mem := res.2, root := update s.root r 0 } lo hi ∧
        Frame (Apart r Set.univ ∅) s { s with mem := res.2, root := update s.root r 0 } ∧ ¬Room s.mem (2 * fuel)) ∨
      (res.1 = s.root r ∧ Inv { s with mem := res.2 } lo hi ∧
        (∀ e, e ∉ Span i sz → { s with mem := res.2 }.pte r e = s.pte r e) ∧
        Frame (Apart r (Span i sz) ∅) s { s with mem := res.2 } ∧
        (∀ e ∈ Span i sz, CopyOf s r₀ { s with mem := res.2 } r e) ∧ ∀ n, Room s.mem (n + 2 * fuel) →
        Room res.2 n) := by
  have hdone : ∀ {s : Space R K} {i fuel : Nat}, Inv s lo hi → sz ≤ i →
      s.root r = s.root r ∧ Inv { s with mem := s.mem } lo hi ∧
        (∀ e, e ∉ Span i sz → { s with mem := s.mem }.pte r e = s.pte r e) ∧
        Frame (Apart r (Span i sz) ∅) s { s with mem := s.mem } ∧
        (∀ e ∈ Span i sz, CopyOf s r₀ { s with mem := s.mem } r e) ∧ ∀ n, Room s.mem (n + 2 * fuel) → Room s.mem n := by
    intro s i fuel hinv hle
    exact ⟨rfl, hinv, fun _ _ => rfl, .refl _ s, fun e he => absurd he (span_empty hle e),
      fun n hn => hn.mono (Nat.le_add_right _ _)⟩
  induction fuel generalizing s i with
  | zero =>
    rw [Vm.copyLoop, if_neg (by omega)]
    exact .ok (Or.inr (hdone h (by omega)))
  | succ fuel ih =>
    rw [Vm.copyLoop]
    split
    case isFalse hge => exact .ok (Or.inr (hdone h (not_lt.mp hge)))
    case isTrue hlt =>
      rw [Nat.succ_mul] at hfuel
      have hltk : i < KERNBASE := hlt.trans_le hsz
      have hva := vaOf_entry_of_aligned ha (lt_of_kernbase hltk)
      have hmem : entry i ∈ Span i sz := by
        rw [mem_span, hva]
        exact ⟨le_refl i, hlt⟩
      have hself : entry i ∉ Span (i + PGSIZE) sz := by
        rw [mem_span, hva]
        simp only [PGSIZE]
        omega
      have hsub : Span (i + PGSIZE) sz ⊆ Span i sz := fun e he => ⟨(Nat.le_add_right i _).trans he.1, he.2⟩
      have hnone : ¬present (s.pte r (entry i)) := hfree _ ⟨hmem.1, hmem.2.trans_le hsz⟩
      have hr₀ := hsrc.1
      have hwalk := h.walkpgdir_false hsrc.2.1 i
      rw [← hsrc.2.2] at hwalk
      rcases hwalk with ⟨hw, htable⟩ | ⟨hw, htable⟩
      · rw [hw]
        refine .stop ⟨entry i, hmem, ?_⟩
        rw [Space.pte, pteOf_none (e := entry i) htable]
        exact not_present_zero
      have hpte : s.pte r₀ (entry i) = s.mem.word (s.table r₀ (PDX i)) (PTX i) := pteOf_eq htable
      rw [hw]
      dsimp only
      rw [← hpte]
      split
      case isTrue hnot => exact .stop ⟨entry i, hmem, hnot⟩
      rename_i hsource
      rw [not_not] at hsource
      obtain ⟨⟨pg, m⟩, hrun⟩ : ∃ x, Vm.kalloc s.mem = x := ⟨_, rfl⟩
      have hflags : pteFlags (s.pte r₀ (entry i)) < PGSIZE := Nat.mod_lt _ (by decide)
      rw [hrun]
      rcases h.takePage hpool.pos hr ho ha hltk hflags hrun (m.word (pteAddr (s.pte r₀ (entry i)))) with
        ⟨rfl, rfl, hfull⟩ | ⟨hpg, hinv, hframe, hmap⟩
      · refine (h.freevm hpool hr).never.bind fun m' hm' => .ok (Or.inl ⟨rfl, hm'.1, hm'.2, fun hn => ?_⟩)
        exact hfull (hn.mono (by omega))
      split
      · rename_i heq
        cases heq
        exact absurd rfl hpg
      rename_i heq
      cases heq
      refine (hmap.mono_stop fun e he => absurd he.2 hnone).bind ?_
      rintro ⟨res, m'⟩ (⟨hfail, hfull⟩ | ⟨hzero, hinv', hentry, hword, hframe', hroom⟩)
      · cases hfail
        dsimp only
        obtain ⟨m₂, hkfree, hinv₂, hframe₂⟩ := hinv.giveBack hpool hpg ho
        rw [hkfree, ok_bind]
        refine (hinv₂.freevm hpool hr).never.bind fun m₃ hm₃ => .ok (Or.inl ⟨rfl, hm₃.1, ?_, fun hn => ?_⟩)
        · refine (hframe.hand (hframe₂.mono ?_) ho ho).trans hm₃.2
          rintro p hp rfl
          exact hp rfl
        · exact hfull (hn.mono (by omega))
      rw [hzero, if_neg (by decide)]
      have hafter : ∀ e, e ≠ entry i → { s with mem := m' }.pte r e = s.pte r e := by
        intro e he
        rw [hentry, update_of_ne he]
      have hfree' : ∀ e ∈ Span (i + PGSIZE) KERNBASE, ¬present ({ s with mem := m' }.pte r e) := by
        intro e he
        have hea : e ≠ entry i := by
          rintro rfl
          have := he.1
          omega
        rw [hafter e hea]
        exact hfree e ⟨(Nat.le_add_right i _).trans he.1, he.2⟩
      have hapart : Frame (Apart r (Span i sz) ∅) s { s with mem := m' } :=
        hframe'.mono fun p hp => hp.mono (Set.singleton_subset_iff.mpr hmem) subset_rfl
      refine ((ih hinv' hr hsrc ho (by rw [Nat.add_mod_right, ha]) (by omega) hfree').mono_stop fun err herr => ?_).mono
        fun res hres => ?_
      · obtain ⟨e, he, hnot⟩ := herr
        rw [hframe'.pte (fun _ => hr₀) e] at hnot
        exact ⟨e, hsub he, hnot⟩
      rcases hres with ⟨hres, hinv'', hframe'', hfull⟩ | ⟨hres, hinv'', hsame, hframe'', hcopy, hroom'⟩
      · refine Or.inl ⟨hres, hinv'', ?_, fun hn => hfull (hroom _ (hn.mono (by omega)))⟩
        exact (hapart.mono fun p hp => hp.mono (Set.subset_univ _) subset_rfl).trans hframe''
      refine Or.inr ⟨hres, hinv'', fun e he => ?_, ?_, fun e he => ?_,
        fun n hn => hroom' n (hroom _ (hn.mono (by omega)))⟩
      · rw [hsame e fun hc => he (hsub hc)]
        apply hafter
        rintro rfl
        exact he hmem
      · exact hapart.trans (hframe''.mono fun p hp => hp.mono hsub subset_rfl)
      by_cases hea : e = entry i
      · -- The page that was copied now is left alone by the turns that follow.
        obtain ⟨hnew, haddr, hbits⟩ := frame_entry pg hflags
        have hx : { s with mem := m' }.pte r (entry i) = pg * PGSIZE ||| (pteFlags (s.pte r₀ (entry i)) ||| PTE_P) := by
          rw [hentry, update_self]
        have hpage : { s with mem := m' }.page (.user r (entry i)) = pg := by
          rw [Space.page_user (PDX_isUser hltk), hx, frame_of_present hnew, haddr]
        have hkept := hframe''.word (.user r (entry i)) fun _ => hself
        rw [hpage] at hkept
        rw [hea]
        refine ⟨hsource, ?_, ?_, ?_⟩
        · rw [hsame _ hself, hx]
          exact hnew
        · rw [hsame _ hself, hx, hbits, pteFlags_or hsource]
        · rw [hsame _ hself, hx, haddr, hkept hpg]
          exact hword.trans (congrFun (kalloc_word hrun) _)
      · have he' : e ∈ Span (i + PGSIZE) sz := by
          refine ⟨?_, he.2⟩
          by_contra hge
          exact hea (eq_entry_of_span ha (lt_of_kernbase hltk) ⟨he.1, not_le.mp hge⟩)
        exact (hcopy e he').of_frame h hframe' hr₀ ((isUser_iff e).mpr (he.2.trans_le hsz))

/-- `copyuvm` copies the pages below `sz`; the other entries are those of `setupkvm`. -/
theorem Inv.copyuvm (h : Inv s lo hi) (hpool : Pool L lo hi) (hr : s.root r = 0) (ho : s.keep o = 0) {r₀ : R}
    {pgdir sz : Nat} (hsrc : Source s r r₀ pgdir) (hsz : sz ≤ KERNBASE) :
    Ends (fun _ => ∃ e ∈ Span 0 sz, ¬present (s.pte r₀ e)) (copyuvm L s.mem pgdir sz) fun res =>
      (res.1 = 0 ∧ Inv { s with mem := res.2 } lo hi ∧ Frame (fun _ => True) s { s with mem := res.2 } ∧
        ¬Room s.mem (67 + 2 * (sz / PGSIZE + 1))) ∨
      (res.1 ≠ 0 ∧ Inv { s with mem := res.2, root := update s.root r res.1 } lo hi ∧
        Frame (Apart r Set.univ ∅) s { s with mem := res.2, root := update s.root r res.1 } ∧
        (∀ e, e ∉ Span 0 sz → { s with mem := res.2, root := update s.root r res.1 }.pte r e = kernelPte L e) ∧
        (∀ e ∈ Span 0 sz, CopyOf s r₀ { s with mem := res.2, root := update s.root r res.1 } r e) ∧
        ∀ n, Room s.mem (n + (67 + 2 * (sz / PGSIZE + 1))) → Room res.2 n) := by
  refine (h.setupkvm hpool hr ho).never.bind ?_
  rintro ⟨d, m⟩ (⟨hzero, hinv, hframe, hfull⟩ | ⟨hd, hinv, hpte, hframe, hroom⟩)
  · dsimp only at hzero hinv hframe ⊢
    rw [if_pos hzero]
    exact .ok (Or.inl ⟨rfl, hinv, hframe, fun hn => hfull (hn.mono (Nat.le_add_right _ _))⟩)
  dsimp only at hd hinv hpte hframe hroom ⊢
  rw [if_neg hd]
  have hroot : update s.root r d r = d := update_self _ _ _
  have hfree : ∀ e ∈ Span 0 KERNBASE, ¬present ({ s with mem := m, root := update s.root r d }.pte r e) := by
    intro e he
    rw [hpte, kernelPte_user L ((isUser_iff e).mpr he.2)]
    exact not_present_zero
  have hsrc' : Source { s with mem := m, root := update s.root r d } r r₀ pgdir := by
    have hsame : update s.root r d r₀ = s.root r₀ := update_of_ne hsrc.1 _ _
    dsimp only [Source]
    rw [hsame]
    exact hsrc
  have hloop := hinv.copyLoop hpool (by dsimp only; rwa [hroot]) hsrc' ho (Nat.zero_mod _) hsz
    (show sz ≤ 0 + (sz / PGSIZE + 1) * PGSIZE by simp only [PGSIZE]; omega) hfree
  dsimp only at hloop
  rw [hroot, update_back hr] at hloop
  refine (hloop.mono_stop fun err herr => ?_).mono fun res hres => ?_
  · obtain ⟨e, he, hnot⟩ := herr
    rw [hframe.pte (fun _ => hsrc.1) e] at hnot
    exact ⟨e, he, hnot⟩
  · rcases hres with ⟨hzero, hinv', hframe', hfull⟩ | ⟨hres, hinv', hsame, hframe', hcopy, hroom'⟩
    · refine Or.inl ⟨hzero, hinv', (hframe.trans hframe').full hr hr, fun hn => hfull (hroom _ (hn.mono (by omega)))⟩
    · rw [hres]
      refine Or.inr ⟨hd, hinv', ?_, fun e he => ?_, fun e he => ?_, fun n hn => hroom' n (hroom _ (hn.mono (by omega)))⟩
      · exact hframe.trans (hframe'.mono fun p hp => hp.mono (Set.subset_univ _) subset_rfl)
      · rw [hsame e he, hpte]
      · exact (hcopy e he).of_frame h hframe hsrc.1 ((isUser_iff e).mpr (he.2.trans_le hsz))

/-! ### `clearpteu` -/

def clearU (pte : Nat) : Nat := if pte / PTE_U % 2 = 1 then pte - PTE_U else pte

theorem clearU_bits (pte : Nat) : (present (clearU pte) ↔ present pte) ∧ pteAddr (clearU pte) = pteAddr pte ∧
    ¬forUser (clearU pte) := by
  unfold clearU present pteAddr forUser
  simp only [PTE_U, PGSIZE]
  split <;> omega

theorem Inv.clearpteu (h : Inv s lo hi) (hr : s.root r ≠ 0) (va : Nat) :
    Ends (fun e => e = .clearpteu ∧ ¬present (s.pte r (entry va))) (clearpteu s.mem (s.root r) va) fun m =>
      Inv { s with mem := m } lo hi ∧
        { s with mem := m }.pte r = update (s.pte r) (entry va) (clearU (s.pte r (entry va))) ∧
        Frame (Apart r ∅ ∅) s { s with mem := m } := by
  unfold Vm.clearpteu
  rcases h.walkpgdir_false hr va with ⟨hnone, htable⟩ | ⟨hsome, ht⟩
  · rw [hnone]
    refine .stop ⟨rfl, ?_⟩
    rw [Space.pte, pteOf_none (e := entry va) htable]
    exact not_present_zero
  rw [hsome]
  dsimp only
  have hentry : s.pte r (entry va) = s.mem.word (s.table r (PDX va)) (PTX va) := pteOf_eq ht
  rw [← hentry]
  obtain ⟨hpresent, haddr, -⟩ := clearU_bits (s.pte r (entry va))
  have hframe : frame (clearU (s.pte r (entry va))) = frame (s.pte r (entry va)) := by
    unfold frame
    rw [haddr]
    exact if_congr hpresent rfl rfl
  obtain ⟨hinv, hsame⟩ := h.setSame (x := clearU (s.pte r (entry va))) ht fun hu => by
    refine ⟨?_, fun hnew => ?_⟩
    · rw [hframe]
      exact (Space.page_user hu).symm
    · rw [haddr]
      exact h.users r (entry va) hu (hpresent.mp hnew)
  refine .ok ⟨hinv, h.setPte_pte ht (PTX va) _, hsame.mono fun p hp => ?_⟩
  rintro rfl
  exact hp rfl

end Laboratorio.Vm
