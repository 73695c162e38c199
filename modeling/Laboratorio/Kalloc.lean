import Laboratorio.Owners
import Laboratorio.RunPrefix
import Mathlib.Algebra.GroupWithZero.Nat

/-! `kalloc.c`: the free list that runs through the free pages themselves, in a memory of pages of words. A
page stands for its physical address divided by `PGSIZE`, and a pointer to a page is that number, with 0 for
the null pointer. The books are kept when the list holds each page that nobody owns once. -/

namespace Laboratorio.Vm

open Function

abbrev PGSIZE : Nat := 4096

abbrev NPDENTRIES : Nat := 1024

abbrev Index := Fin NPDENTRIES

abbrev Index.ofNat (n : Nat) : Index := Fin.ofNat NPDENTRIES n

abbrev KERNBASE : Nat := 0x80000000

abbrev EXTMEM : Nat := 0x100000

abbrev KERNLINK : Nat := KERNBASE + EXTMEM

abbrev PHYSTOP : Nat := 0xE000000

abbrev DEVSPACE : Nat := 0xFE000000

def PGROUNDUP (sz : Nat) : Nat := (sz + PGSIZE - 1) / PGSIZE * PGSIZE

def PGROUNDDOWN (a : Nat) : Nat := a / PGSIZE * PGSIZE

/-- The addresses `data` and `end` of the kernel, which is loaded into the first four megabytes. -/
structure Layout where
  data : Nat
  kend : Nat
  data_aligned : data % PGSIZE = 0
  link_lt : KERNLINK < data
  data_le : data ≤ kend
  kend_le : kend ≤ KERNBASE + 4 * 1024 * 1024

def Layout.first (L : Layout) : Nat := (PGROUNDUP L.kend - KERNBASE) / PGSIZE

inductive Panic where
  | kfree
  | remap
  | physTooHigh
  | noPgdir
  | clearpteu
  | copyuvmNoPte
  | copyuvmNotPresent
  /-- Not a panic of the kernel: a loop of this model has no turns left. -/
  | unfinished
  deriving DecidableEq

structure Memory where
  word : Nat → Index → Nat
  freelist : Nat

namespace Memory

def fill (m : Memory) (pg x : Nat) : Memory := { m with word := update m.word pg fun _ => x }

def set (m : Memory) (pg : Nat) (i : Index) (x : Nat) : Memory :=
  { m with word := update m.word pg (update (m.word pg) i x) }

variable (m : Memory) {pg y : Nat}

theorem word_fill_self (pg x : Nat) : (m.fill pg x).word pg = fun _ => x := update_self _ _ _

theorem word_fill_of_ne (hy : y ≠ pg) (x : Nat) : (m.fill pg x).word y = m.word y := update_of_ne hy _ _

theorem word_set_self (pg : Nat) (i : Index) (x : Nat) : (m.set pg i x).word pg = update (m.word pg) i x :=
  update_self _ _ _

theorem word_set_of_ne (hy : y ≠ pg) (i : Index) (x : Nat) : (m.set pg i x).word y = m.word y :=
  update_of_ne hy _ _

end Memory

def kalloc (m : Memory) : Nat × Memory :=
  if m.freelist = 0 then (0, m) else (m.freelist, { m with freelist := m.word m.freelist 0 })

variable {m' m : Memory}

theorem kalloc_word {pg : Nat} (hrun : kalloc m = (pg, m')) : m'.word = m.word := by
  unfold kalloc at hrun
  split at hrun
  · cases hrun
    rfl
  · cases hrun
    rfl

def kfree (L : Layout) (m : Memory) (pg : Nat) : Except Panic Memory :=
  if pg * PGSIZE + KERNBASE < L.kend ∨ PHYSTOP ≤ pg * PGSIZE then .error .kfree
  else .ok { (m.fill pg 0x01010101).set pg 0 m.freelist with freelist := pg }

def freerange (L : Layout) (m : Memory) (vstart vend : Nat) : Except Panic Memory :=
  (List.range ((vend - PGROUNDUP vstart) / PGSIZE)).foldlM
    (fun m i => kfree L m ((PGROUNDUP vstart - KERNBASE) / PGSIZE + i)) m

/-! ### The free list -/

/-- The pages of `l`, linked through their first words. -/
def Linked (word : Nat → Index → Nat) : Nat → List Nat → Prop
  | p, [] => p = 0
  | p, x :: l => p = x ∧ x ≠ 0 ∧ Linked word (word x 0) l

theorem Linked.congr {word word' : Nat → Index → Nat} {p : Nat} {l : List Nat} (h : Linked word p l)
    (hsame : ∀ x ∈ l, word' x = word x) : Linked word' p l := by
  induction l generalizing p with
  | nil => exact h
  | cons x l ih =>
    obtain ⟨hp, hx, hrest⟩ := h
    refine ⟨hp, hx, ?_⟩
    rw [hsame x List.mem_cons_self]
    exact ih hrest fun y hy => hsame y (List.mem_cons_of_mem x hy)

theorem Linked.unique {word : Nat → Index → Nat} {p : Nat} {l l' : List Nat} (h : Linked word p l)
    (h' : Linked word p l') : l = l' := by
  induction l generalizing p l' with
  | nil =>
    cases l' with
    | nil => rfl
    | cons y l' => exact absurd (h'.1.symm.trans h) h'.2.1
  | cons x l ih =>
    cases l' with
    | nil => exact absurd (h.1.symm.trans h') h.2.1
    | cons y l' =>
      obtain rfl : x = y := h.1.symm.trans h'.1
      rw [ih h.2.2 h'.2.2]

/-- The free list of a memory is `l`. -/
def FreeList (m : Memory) (l : List Nat) : Prop := Linked m.word m.freelist l

def Free (m : Memory) (pg : Nat) : Prop := ∃ l, FreeList m l ∧ pg ∈ l

def Room (m : Memory) (n : Nat) : Prop := ∃ l, FreeList m l ∧ n ≤ l.length

theorem Room.mono {n n' : Nat} (h : Room m n) (hle : n' ≤ n) : Room m n' := by
  obtain ⟨l, hlinked, hlen⟩ := h
  exact ⟨l, hlinked, hle.trans hlen⟩

theorem Room.kalloc_ne_zero {pg : Nat} (h : Room m 1) (hrun : kalloc m = (pg, m')) : pg ≠ 0 := by
  obtain ⟨l, hlinked, hlen⟩ := h
  cases l with
  | nil => exact absurd hlen (by decide)
  | cons x l =>
    obtain ⟨hhead, hx, -⟩ := hlinked
    have hne : m.freelist ≠ 0 := by rwa [hhead]
    rw [kalloc, if_neg hne] at hrun
    obtain ⟨rfl, -⟩ := Prod.mk.inj hrun
    exact hne

theorem kfree_ok {L : Layout} {pg : Nat} (hlow : ¬pg * PGSIZE + KERNBASE < L.kend) (hhigh : pg * PGSIZE < PHYSTOP) :
    ∃ m', kfree L m pg = .ok m' ∧ m'.freelist = pg ∧ m'.word pg 0 = m.freelist ∧ ∀ x, x ≠ pg →
    m'.word x = m.word x := by
  refine ⟨{ (m.fill pg 0x01010101).set pg 0 m.freelist with freelist := pg }, ?_, rfl, ?_, fun x hx => ?_⟩
  · exact if_neg (not_or.mpr ⟨hlow, by omega⟩)
  · rw [Memory.word_set_self, update_self]
  · rw [Memory.word_set_of_ne _ hx, Memory.word_fill_of_ne _ hx]

section Books

variable {κ : Type*} {L : Layout} {m : Memory} {addr : κ → Nat} {lo hi pg : Nat} {l : List Nat} {p q : κ}

/-- The free list has every page of the pool that no position owns, once. -/
structure Listed (m : Memory) (addr : κ → Nat) (lo hi : Nat) (l : List Nat) : Prop where
  linked : FreeList m l
  nodup : l.Nodup
  lt : ∀ x ∈ l, x < hi
  exact : Exact addr lo hi fun x => decide (x ∉ l)

theorem Listed.mem_iff (h : Listed m addr lo hi l) : pg ∈ l ↔ lo ≤ pg ∧ pg < hi ∧ ∀ p, addr p ≠ 0 → addr p ≠ pg := by
  constructor
  · intro hmem
    obtain ⟨hlo, hno⟩ := h.exact.free (h.lt pg hmem) (decide_eq_false (not_not.mpr hmem))
    exact ⟨hlo, h.lt pg hmem, hno⟩
  · rintro ⟨hlo, hhi, hno⟩
    by_contra hmem
    rcases (h.exact.marks pg hhi).mp (decide_eq_true hmem) with hlt | ⟨p, hp, heq⟩
    · omega
    · exact hno p hp heq

theorem Listed.ne_of_mem (h : Listed m addr lo hi l) (hmem : pg ∈ l) (hp : addr p ≠ 0) : addr p ≠ pg :=
  (h.mem_iff.mp hmem).2.2 p hp

def Books (m : Memory) (addr : κ → Nat) (lo hi : Nat) : Prop := ∃ l, Listed m addr lo hi l

theorem Listed.congr {addr' : κ → Nat} (h : Listed m addr lo hi l) (hfree : m'.freelist = m.freelist)
    (hsame : ∀ x ∈ l, m'.word x = m.word x) (haddr : addr' = addr) : Listed m' addr' lo hi l := by
  subst haddr
  refine ⟨?_, h.nodup, h.lt, h.exact⟩
  unfold FreeList
  rw [hfree]
  exact Linked.congr h.linked hsame

theorem Books.zero (hnone : ∀ p, addr p = 0) (word : Nat → Index → Nat) :
    Books ⟨word, 0⟩ addr lo lo := by
  refine ⟨[], rfl, List.nodup_nil, nofun, fun p hp => absurd (hnone p) hp, fun p q _ hp => absurd (hnone p) hp, ?_⟩
  exact fun b hb => iff_of_true rfl (Or.inl hb)

theorem Books.write (h : Books m addr lo hi) (hfree : m'.freelist = m.freelist)
    (hsame : ∀ x, m'.word x ≠ m.word x → ∃ p, addr p ≠ 0 ∧ addr p = x) : Books m' addr lo hi := by
  obtain ⟨l, h⟩ := h
  refine ⟨l, h.congr hfree (fun x hx => ?_) rfl⟩
  by_contra hne
  obtain ⟨p, hp, heq⟩ := hsame x hne
  exact h.ne_of_mem hx hp heq

theorem Listed.push (h : Listed m addr lo hi l) (hpg : pg ≠ 0) (hlist : m'.freelist = pg)
    (hword : m'.word pg 0 = m.freelist) (hsame : ∀ x, x ≠ pg → m'.word x = m.word x) (hmem : pg ∉ l) :
    FreeList m' (pg :: l) := by
  refine ⟨hlist, hpg, ?_⟩
  rw [hword]
  exact Linked.congr h.linked fun x hx => hsame x fun heq => hmem (heq ▸ hx)

theorem Books.kfree_next (h : Books m addr lo hi) (hpos : 0 < lo) (hfirst : L.first ≤ lo) (hle : lo ≤ hi)
    (hhi : (hi + 1) * PGSIZE ≤ PHYSTOP) :
    ∃ m', Vm.kfree L m hi = .ok m' ∧ (∀ x, x ≠ hi → m'.word x = m.word x) ∧ Books m' addr lo (hi + 1) := by
  obtain ⟨l, h⟩ := h
  have hlow : ¬hi * PGSIZE + KERNBASE < L.kend := by
    have hkend := L.kend_le
    have hfirst' : L.first ≤ hi := hfirst.trans hle
    simp only [Layout.first, PGROUNDUP, PGSIZE, KERNBASE] at hfirst' hkend ⊢
    omega
  obtain ⟨m', hrun, hlist, hword, hsame⟩ := kfree_ok hlow (by
    simp only [PGSIZE, PHYSTOP] at hhi ⊢
    omega)
  have hmem : hi ∉ l := fun hmem => lt_irrefl _ (h.lt hi hmem)
  refine ⟨m', hrun, hsame, hi :: l, h.push (by omega) hlist hword hsame hmem, List.nodup_cons.mpr ⟨hmem, h.nodup⟩, ?_,
    ?_⟩
  · intro x hx
    rcases List.mem_cons.mp hx with rfl | hx
    · exact Nat.lt_succ_self x
    · exact Nat.lt_succ_of_lt (h.lt x hx)
  · apply (h.exact.grow hle).congr_used
    intro c _
    by_cases hc : c = hi
    · rw [hc, update_self]
      exact decide_eq_false (not_not.mpr List.mem_cons_self)
    · rw [update_of_ne hc]
      simp [hc]

variable [DecidableEq κ]

/-- `kalloc` returns 0 or a page for a position that has none, and changes no page. -/
theorem Books.kalloc (h : Books m addr lo hi) (hlo : 0 < lo) (hp : addr p = 0) (hrun : kalloc m = (pg, m')) :
    (pg = 0 ∧ m' = m) ∨ (pg ≠ 0 ∧ m'.word = m.word ∧ (∀ q, addr q ≠ 0 → addr q ≠ pg) ∧
    Books m' (update addr p pg) lo hi) := by
  obtain ⟨l, h⟩ := h
  unfold Vm.kalloc at hrun
  split at hrun
  · cases hrun
    exact Or.inl ⟨rfl, rfl⟩
  rename_i hne
  cases hrun
  refine Or.inr ⟨hne, rfl, ?_⟩
  have hlinked := h.linked
  cases l with
  | nil => exact absurd hlinked hne
  | cons x l =>
    obtain ⟨hx, hzero, hrest⟩ := hlinked
    rw [hx]
    obtain ⟨hxl, hnodup⟩ := List.nodup_cons.mp h.nodup
    have hfree : decide (x ∉ x :: l) = false := decide_eq_false (not_not.mpr List.mem_cons_self)
    have hassign := h.exact.assign hlo hp (h.lt x List.mem_cons_self) hfree
    refine ⟨fun q hq => h.ne_of_mem List.mem_cons_self hq, l, hrest, hnodup,
      fun y hy => h.lt y (List.mem_cons_of_mem x hy), hassign.congr_used fun c _ => ?_⟩
    by_cases hc : c = x
    · rw [hc, update_self]
      exact decide_eq_true hxl
    · rw [update_of_ne hc]
      simp [hc]

theorem Books.kfree (h : Books m addr lo hi) (hlo : L.first ≤ lo) (hhi : hi * PGSIZE ≤ PHYSTOP) (hp : addr p ≠ 0) :
    ∃ m', Vm.kfree L m (addr p) = .ok m' ∧ (∀ x, x ≠ addr p → m'.word x = m.word x) ∧
    Books m' (update addr p 0) lo hi := by
  obtain ⟨l, h⟩ := h
  obtain ⟨hge, hlt⟩ := h.exact.range p hp
  have hlow : ¬addr p * PGSIZE + KERNBASE < L.kend := by
    have hfirst : L.first ≤ addr p := hlo.trans hge
    have hkend := L.kend_le
    simp only [Layout.first, PGROUNDUP, PGSIZE, KERNBASE] at hfirst hkend ⊢
    omega
  obtain ⟨m', hrun, hlist, hword, hsame⟩ := kfree_ok hlow (by
    simp only [PGSIZE, PHYSTOP] at hhi ⊢
    omega)
  refine ⟨m', hrun, hsame, addr p :: l, ?_, ?_, ?_, ?_⟩
  · exact h.push hp hlist hword hsame fun hmem => h.ne_of_mem hmem hp rfl
  · exact List.nodup_cons.mpr ⟨fun hmem => h.ne_of_mem hmem hp rfl, h.nodup⟩
  · intro x hx
    rcases List.mem_cons.mp hx with rfl | hx
    · exact hlt
    · exact h.lt x hx
  · apply (h.exact.release hp).congr_used
    intro c _
    by_cases hc : c = addr p
    · rw [hc, update_self]
      exact decide_eq_false (not_not.mpr List.mem_cons_self)
    · rw [update_of_ne hc]
      simp [hc]

end Books

end Laboratorio.Vm
