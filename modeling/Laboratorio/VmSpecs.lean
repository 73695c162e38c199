import Laboratorio.VmPages

/-! What the calls of `vm.c` do to the holders of pages. They panic only where the source finds an entry that
it did not expect; where they run out of memory, the pages that they took are free again, but for page tables
of a directory that stays. -/

namespace Laboratorio.Vm

open Function

/-! ### Addresses -/

/-- The entries for the addresses from `a` up to `b`. -/
def Span (a b : Nat) : Set (Index × Index) := { e | a ≤ vaOf e ∧ vaOf e < b }

variable {a b : Nat}

theorem mem_span {e : Index × Index} : e ∈ Span a b ↔ a ≤ vaOf e ∧ vaOf e < b := Iff.rfl

theorem span_empty (h : b ≤ a) (e : Index × Index) : e ∉ Span a b := fun he => by
  have := he.1
  have := he.2
  omega

theorem PGROUNDUP_aligned (sz : Nat) : PGROUNDUP sz % PGSIZE = 0 := Nat.mul_mod_left _ _

theorem le_PGROUNDUP (sz : Nat) : sz ≤ PGROUNDUP sz := by
  simp only [PGROUNDUP, PGSIZE]
  omega

theorem PDX_isUser (h : a < KERNBASE) : IsUser (PDX a) := by
  unfold IsUser
  rw [PDX_val (by simp only [KERNBASE] at h; omega)]
  simp only [KERNBASE] at h
  omega

theorem not_isUser_PDX (h : KERNBASE ≤ a) (hlt : a < 2 ^ 32) : ¬IsUser (PDX a) := by
  unfold IsUser
  rw [PDX_val hlt]
  simp only [KERNBASE] at h
  omega

theorem vaOf_entry_of_aligned (ha : a % PGSIZE = 0) (h : a < 2 ^ 32) : vaOf (entry a) = a := by
  rw [vaOf_entry h, PGROUNDDOWN]
  simp only [PGSIZE] at ha ⊢
  omega

theorem lt_of_kernbase (h : a < KERNBASE) : a < 2 ^ 32 := h.trans (by decide)

theorem eq_entry_of_span {e : Index × Index} (ha : a % PGSIZE = 0) (h : a < 2 ^ 32)
    (he : e ∈ Span a (a + PGSIZE)) : e = entry a := by
  have haligned := vaOf_aligned e
  rw [mem_span] at he
  apply vaOf_inj
  rw [vaOf_entry_of_aligned ha h]
  simp only [PGSIZE] at ha haligned he
  omega

theorem span_succ (ha : a % PGSIZE = 0) (h : a < 2 ^ 32) (hlt : a < b) :
    Span a b = {entry a} ∪ Span (a + PGSIZE) b := by
  ext e
  constructor
  · intro he
    by_cases hnext : a + PGSIZE ≤ vaOf e
    · exact Or.inr ⟨hnext, he.2⟩
    · exact Or.inl (eq_entry_of_span ha h ⟨he.1, not_le.mp hnext⟩)
  · rintro (rfl | he)
    · rw [mem_span, vaOf_entry_of_aligned ha h]
      exact ⟨le_refl a, hlt⟩
    · exact ⟨(Nat.le_add_right a _).trans he.1, he.2⟩

/-! ### `walkpgdir` -/

variable {R K : Type} {L : Layout} {s : Space R K} {lo hi : Nat} {r : R} {o : K}

theorem Inv.walkpgdir_false (h : Inv s lo hi) (hr : s.root r ≠ 0) (va : Nat) :
    ((walkpgdir s.mem (s.root r) va false).1 = none ∧ s.table r (PDX va) = 0) ∨
    ((walkpgdir s.mem (s.root r) va false).1 = some (s.table r (PDX va), PTX va) ∧ s.table r (PDX va) ≠ 0) := by
  unfold walkpgdir
  by_cases hpresent : present (s.mem.word (s.root r) (PDX va))
  · obtain ⟨heq, hne⟩ := h.table_eq hr hpresent
    rw [if_pos hpresent, heq]
    rw [heq] at hne
    exact Or.inr ⟨rfl, hne⟩
  · rw [if_neg hpresent]
    refine Or.inl ⟨rfl, ?_⟩
    rw [Space.table, tableOf_eq hr, frame_of_not_present hpresent]

/-- What `deallocuvm` does to the user pages in `U`. -/
structure Cleared (r : R) (U : Set (Index × Index)) (s s' : Space R K) : Prop where
  gone : ∀ e ∈ U, ¬present (s'.pte r e)
  same : ∀ e, e ∉ U → s'.pte r e = s.pte r e
  frame : Frame (Apart r U ∅) s s'

theorem Cleared.trans {U U' : Set (Index × Index)} {s s₁ s' : Space R K} (h : Cleared r U s s₁)
    (h' : Cleared r U' s₁ s') : Cleared r (U ∪ U') s s' := by
  refine ⟨fun e he => ?_, fun e he => ?_, ?_⟩
  · by_cases he' : e ∈ U'
    · exact h'.gone e he'
    · rw [h'.same e he']
      exact h.gone e (he.resolve_right he')
  · rw [h'.same e fun hc => he (Or.inr hc), h.same e fun hc => he (Or.inl hc)]
  · exact (h.frame.mono fun p hp => hp.mono Set.subset_union_left subset_rfl).trans
      (h'.frame.mono fun p hp => hp.mono Set.subset_union_right subset_rfl)

theorem Cleared.empty {U : Set (Index × Index)} (hU : ∀ e, e ∉ U) (s : Space R K) : Cleared r U s s :=
  ⟨fun e he => absurd he (hU e), fun _ _ => rfl, .refl _ s⟩

def Space.lack (s : Space R K) (r : R) (va : Nat) : Nat := if s.table r (PDX va) = 0 then 1 else 0

theorem Space.lack_le (s : Space R K) (r : R) (va : Nat) : s.lack r va ≤ 1 := by
  unfold lack
  split <;> omega

variable [DecidableEq R] [DecidableEq K]

/-- `walkpgdir` with allocation: the entries are what they were. It fails only without a free page for the page table
that it needs. -/
theorem Inv.walkpgdir_true (h : Inv s lo hi) (hpos : 0 < lo) (hr : s.root r ≠ 0) (va : Nat) :
    (walkpgdir s.mem (s.root r) va true = (none, s.mem) ∧ ¬Room s.mem (s.lack r va)) ∨
    ∃ m, walkpgdir s.mem (s.root r) va true = (some ({ s with mem := m }.table r (PDX va), PTX va), m) ∧
      Inv { s with mem := m } lo hi ∧ { s with mem := m }.table r (PDX va) ≠ 0 ∧
      { s with mem := m }.pte r = s.pte r ∧ Frame (Apart r ∅ ∅) s { s with mem := m } ∧
      ∀ n, Room s.mem (n + s.lack r va) → Room m n := by
  unfold walkpgdir
  by_cases hpresent : present (s.mem.word (s.root r) (PDX va))
  · obtain ⟨heq, hne⟩ := h.table_eq hr hpresent
    refine Or.inr ⟨s.mem, ?_, h, hne, rfl, .refl _ s, fun n hroom => hroom.mono (Nat.le_add_right _ _)⟩
    rw [if_pos hpresent, ← heq]
  have hempty : s.table r (PDX va) = 0 := by
    rw [Space.table, tableOf_eq hr, frame_of_not_present hpresent]
  have hlack : s.lack r va = 1 := if_pos hempty
  rw [if_neg hpresent, if_neg Bool.noConfusion, hlack]
  cases hrun : Vm.kalloc s.mem with
  | mk pg m =>
    by_cases hpg : pg = 0
    · subst hpg
      rcases h.books.kalloc hpos (show s.page (.table r (PDX va)) = 0 from hempty) hrun with ⟨-, rfl⟩ | ⟨hne, -⟩
      · exact Or.inl ⟨rfl, fun hroom => hroom.kalloc_ne_zero hrun rfl⟩
      · exact absurd rfl hne
    obtain ⟨hentry, haddr, -⟩ := frame_entry pg (show PTE_W ||| PTE_U < PGSIZE by decide)
    have hflags : PTE_P ||| PTE_W ||| PTE_U = PTE_W ||| PTE_U ||| PTE_P := by decide
    obtain ⟨hinv, htable, hpte, hframe⟩ := h.link hpos hr hpresent hrun hpg hentry haddr
    have happart : ∀ p : Holder R K, Apart r ∅ ∅ p → p ≠ .dir r ∧ p ≠ .table r (PDX va) := by
      intro p hp
      constructor
      · rintro rfl
        exact hp rfl
      · rintro rfl
        exact hp rfl
    refine Or.inr ⟨_, ?_, hinv, by rwa [htable], funext hpte, hframe.mono happart,
      fun n => h.room hinv [pg] fun p _ hp => ?_⟩
    · rw [htable]
      split
      · rename_i heq
        cases heq
        exact absurd rfl hpg
      · rename_i heq
        cases heq
        rfl
    · -- The new page table is the only page that is held now and was not.
      by_cases hdir : p = .dir r
      · exact ⟨.dir r, by rw [hdir]; rfl⟩
      · refine ⟨p, (hframe.page p ⟨hdir, ?_⟩).symm⟩
        rintro rfl
        exact hp (List.mem_singleton.mpr htable)

/-! ### `mappages` -/

theorem mappages_page (ha : a % PGSIZE = 0) (hlt : a < KERNBASE) (m : Memory) (d pa perm : Nat) :
    mappages m d a PGSIZE pa perm = mapLoop d perm 0 m a pa := by
  have hdown : PGROUNDDOWN a = a := by
    simp only [PGROUNDDOWN, PGSIZE] at ha ⊢
    omega
  have hlast : PGROUNDDOWN ((a + PGSIZE - 1) % 2 ^ 32) = a := by
    simp only [PGROUNDDOWN, PGSIZE, KERNBASE] at ha hlt ⊢
    omega
  have hleft : (a + 2 ^ 32 - a) % 2 ^ 32 / PGSIZE = 0 := by
    rw [Nat.add_sub_cancel_left, Nat.mod_self, Nat.zero_div]
  rw [mappages, hdown, hlast, hleft]

theorem Inv.mapPage (h : Inv s lo hi) (hpos : 0 < lo) (hr : s.root r ≠ 0) (ha : a % PGSIZE = 0)
    (hlt : a < KERNBASE) (ho : s.keep o ≠ 0) {flags : Nat} (hflags : flags < PGSIZE) :
    Ends (fun e => e = .remap ∧ present (s.pte r (entry a)))
      (mappages s.mem (s.root r) a PGSIZE (s.keep o * PGSIZE) flags) fun res => (res = (-1, s.mem) ∧ ¬Room s.mem 1) ∨
      (res.1 = 0 ∧ Inv { s with mem := res.2, keep := update s.keep o 0 } lo hi ∧
        { s with mem := res.2, keep := update s.keep o 0 }.pte r =
          update (s.pte r) (entry a) (s.keep o * PGSIZE ||| (flags ||| PTE_P)) ∧
          res.2.word (s.keep o) = s.mem.word (s.keep o) ∧
        Frame (Apart r {entry a} {o}) s { s with mem := res.2, keep := update s.keep o 0 } ∧
        ∀ n, Room s.mem (n + 1) → Room res.2 n) := by
  rw [mappages_page ha hlt, mapLoop]
  rcases h.walkpgdir_true hpos hr a with ⟨hnone, hfull⟩ | ⟨m, hsome, hinv, ht, hpte, hframe, hroom⟩
  · rw [hnone]
    exact .ok (Or.inl ⟨rfl, fun hone => hfull (hone.mono (s.lack_le r a))⟩)
  rw [hsome]
  dsimp only
  have hentry : m.word ({ s with mem := m }.table r (PDX a)) (PTX a) = s.pte r (entry a) := by
    rw [← hpte]
    exact (pteOf_eq (e := entry a) ht).symm
  split
  · rename_i hpresent
    rw [hentry] at hpresent
    exact .stop ⟨rfl, hpresent⟩
  rename_i hfree
  rw [hentry, ← hpte] at hfree
  obtain ⟨hpresent, haddr, -⟩ := frame_entry (s.keep o) hflags
  obtain ⟨hmapped, hframe', hpages⟩ := hinv.map hpos (PDX_isUser hlt) ht hfree ho hpresent haddr
  have hset := hinv.setPte_pte ht (PTX a) (s.keep o * PGSIZE ||| (flags ||| PTE_P))
  rw [hpte] at hset
  -- Neither the new page table nor the store into it is in the page that is mapped.
  have hword : (Space.setPte { s with mem := m } r (PDX a) (PTX a)
      (s.keep o * PGSIZE ||| (flags ||| PTE_P))).mem.word (s.keep o) = s.mem.word (s.keep o) :=
    (hinv.setPte_word (PTX a) _ (p := .kept o) nofun ho).trans (hframe.word (.kept o) (Set.notMem_empty o) ho)
  refine .ok (Or.inr ⟨rfl, hmapped, hset, hword, ?_, fun n hn => ?_⟩)
  · refine (hframe.mono fun p hp => hp.mono (Set.empty_subset _) (Set.empty_subset _)).trans (hframe'.mono ?_)
    rintro p hp
    refine ⟨?_, ?_, ?_⟩
    · rintro rfl
      exact hp rfl
    · rintro rfl
      exact hp rfl rfl
    · rintro rfl
      exact hp rfl
  · have hn' : Room m n := hroom n (hn.mono (Nat.add_le_add_left (s.lack_le r a) n))
    exact hinv.room hmapped [] (fun p hp _ => hpages p hp) hn'

theorem Inv.mapStep (h : Inv s lo hi) (hpos : 0 < lo) (hr : s.root r ≠ 0) (ha : KERNBASE ≤ a) (hlt : a < 2 ^ 32)
    (hfree : ¬present (s.pte r (entry a))) :
    (walkpgdir s.mem (s.root r) a true = (none, s.mem) ∧ ¬Room s.mem (s.lack r a)) ∨
    ∃ t m, walkpgdir s.mem (s.root r) a true = (some (t, PTX a), m) ∧ ¬present (m.word t (PTX a)) ∧
      ∀ x, Inv { s with mem := m.set t (PTX a) x } lo hi ∧
        { s with mem := m.set t (PTX a) x }.pte r = update (s.pte r) (entry a) x ∧
        { s with mem := m.set t (PTX a) x }.table r (PDX a) ≠ 0 ∧
        Frame (Apart r ∅ ∅) s { s with mem := m.set t (PTX a) x } ∧
        ∀ n, Room s.mem (n + s.lack r a) → Room (m.set t (PTX a) x) n := by
  rcases h.walkpgdir_true hpos hr a with hnone | ⟨m, hsome, hinv, ht, hpte, hframe, hroom⟩
  · exact Or.inl hnone
  refine Or.inr ⟨_, m, hsome, ?_, fun x => ?_⟩
  · have hentry := pteOf_eq (e := entry a) ht
    change { s with mem := m }.pte r (entry a) = _ at hentry
    rw [hpte] at hentry
    rwa [hentry] at hfree
  obtain ⟨hset, hframe'⟩ := hinv.setSame ht fun hu => absurd hu (not_isUser_PDX ha hlt)
  have htable := hinv.setPte_table (PDX a) (PTX a) x r r (PDX a)
  refine ⟨hset, ?_, fun hzero => ht (htable.symm.trans hzero), hframe.trans (hframe'.mono fun p hp => ?_),
    fun n hn => ?_⟩
  · rw [← hpte]
    exact hinv.setPte_pte ht (PTX a) x
  · rintro rfl
    exact hp rfl
  · refine hinv.room hset [] (fun p _ _ => ⟨p, ?_⟩) (hroom n hn)
    by_cases hp : p = .table r (PDX a)
    · rw [hp]
      exact htable.symm
    · exact (hframe'.page p hp).symm

instance (a b : Nat) (e : Index × Index) :
    Decidable (e ∈ Span a b) := inferInstanceAs (Decidable (a ≤ vaOf e ∧ vaOf e < b))

/-- The entries after a call of `mappages`: the `n` from `a` on name the pages from `pa` on. -/
def mapped (a n pa perm : Nat) (f : Index × Index → Nat) : Index × Index → Nat := fun e =>
  if e ∈ Span a (a + n * PGSIZE) then (pa + (vaOf e - a)) % 2 ^ 32 ||| (perm ||| PTE_P) else f e

theorem mapped_zero (a pa perm : Nat) (f : Index × Index → Nat) : mapped a 0 pa perm f = f := by
  funext e
  exact if_neg (span_empty (by omega) e)

theorem mapped_succ {pa : Nat} (ha : a % PGSIZE = 0) (hlt : a < 2 ^ 32) (hpa : pa < 2 ^ 32) (n perm : Nat)
    (f : Index × Index → Nat) : mapped a (n + 1) pa perm f =
      mapped (a + PGSIZE) n ((pa + PGSIZE) % 2 ^ 32) perm (update f (entry a) (pa ||| (perm ||| PTE_P))) := by
  have hva := vaOf_entry_of_aligned ha hlt
  have hsucc : a + (n + 1) * PGSIZE = a + PGSIZE + n *
    PGSIZE := by rw [Nat.succ_mul, Nat.add_comm (n * PGSIZE), Nat.add_assoc]
  funext e
  unfold mapped
  rw [hsucc]
  by_cases hself : e = entry a
  · have hfirst : entry a ∈ Span a (a + PGSIZE + n * PGSIZE) := by
      rw [mem_span, hva]
      simp only [PGSIZE]
      omega
    have hrest : entry a ∉ Span (a + PGSIZE) (a + PGSIZE + n * PGSIZE) := by
      rw [mem_span, hva]
      simp only [PGSIZE]
      omega
    rw [hself, if_pos hfirst, if_neg hrest, update_self, hva, Nat.sub_self, Nat.add_zero, Nat.mod_eq_of_lt hpa]
  · rw [update_of_ne hself]
    by_cases hrest : e ∈ Span (a + PGSIZE) (a + PGSIZE + n * PGSIZE)
    · have hle := hrest.1
      have hpage : (pa + (vaOf e - a)) % 2 ^ 32 = ((pa + PGSIZE) % 2 ^ 32 + (vaOf e - (a + PGSIZE))) % 2 ^ 32 := by
        omega
      rw [if_pos hrest, if_pos ⟨(Nat.le_add_right a PGSIZE).trans hle, hrest.2⟩, hpage]
    · rw [if_neg hrest, if_neg]
      intro hspan
      refine hself (eq_entry_of_span ha hlt ⟨hspan.1, ?_⟩)
      by_contra hge
      exact hrest ⟨not_lt.mp hge, hspan.2⟩

/-- The page tables that `mappages` may need for the `left + 1` pages from `a` on. -/
def Space.lacks (s : Space R K) (r : R) (a left : Nat) : Nat := (a + left * PGSIZE) / 2 ^ 22 - a / 2 ^ 22 + s.lack r a

theorem Inv.mapKernel (h : Inv s lo hi) (hpos : 0 < lo) (hr : s.root r ≠ 0) {left pa : Nat} (haligned : a % PGSIZE = 0)
    (ha : KERNBASE ≤ a) (hend : a + left * PGSIZE < 2 ^ 32) (hpa : pa < 2 ^ 32)
    (hfree : ∀ e ∈ Span a (a + (left + 1) * PGSIZE), ¬present (s.pte r e)) (perm : Nat) :
    Ends (fun _ => False) (mapLoop (s.root r) perm left s.mem a pa) fun res =>
      Inv { s with mem := res.2 } lo hi ∧ Frame (Apart r ∅ ∅) s { s with mem := res.2 } ∧
        ((res.1 = -1 ∧ ¬Room s.mem (s.lacks r a left)) ∨
          (res.1 = 0 ∧ { s with mem := res.2 }.pte r = mapped a (left + 1) pa perm (s.pte r) ∧
            ∀ n, Room s.mem (n + s.lacks r a left) → Room res.2 n)) := by
  induction left generalizing s a pa with
  | zero =>
    have hlt : a < 2 ^ 32 := by omega
    have hmem : entry a ∈ Span a (a + (0 + 1) * PGSIZE) := by
      rw [mem_span, vaOf_entry_of_aligned haligned hlt]
      simp only [PGSIZE]
      omega
    have hlacks : s.lacks r a 0 = s.lack r a := by
      unfold Space.lacks
      omega
    rw [mapLoop, hlacks]
    rcases h.mapStep hpos hr ha hlt (hfree _ hmem) with ⟨hnone, hfull⟩ | ⟨t, m, hsome, hnot, hset⟩
    · rw [hnone]
      exact .ok ⟨h, .refl _ s, Or.inl ⟨rfl, hfull⟩⟩
    · rw [hsome]
      dsimp only
      rw [if_neg hnot]
      obtain ⟨hinv, hpte, -, hframe, hroom⟩ := hset (pa ||| (perm ||| PTE_P))
      refine .ok ⟨hinv, hframe, Or.inr ⟨rfl, ?_, hroom⟩⟩
      rw [mapped_succ haligned hlt hpa, mapped_zero]
      exact hpte
  | succ left ih =>
    simp only [PGSIZE] at hend
    have hlt : a < 2 ^ 32 := by omega
    have hnext : (a + PGSIZE) % 2 ^ 32 = a + PGSIZE := by
      apply Nat.mod_eq_of_lt
      simp only [PGSIZE]
      omega
    have hspan : a + PGSIZE + (left + 1) * PGSIZE = a + (left + 1 + 1) * PGSIZE := by
      simp only [PGSIZE]
      omega
    have hmem : entry a ∈ Span a (a + (left + 1 + 1) * PGSIZE) := by
      rw [mem_span, vaOf_entry_of_aligned haligned hlt]
      simp only [PGSIZE]
      omega
    have hself : entry a ∉ Span (a + PGSIZE) (a + (left + 1 + 1) * PGSIZE) := by
      rw [mem_span, vaOf_entry_of_aligned haligned hlt]
      simp only [PGSIZE]
      omega
    have hlacks : s.lack r a ≤ s.lacks r a (left + 1) := Nat.le_add_left _ _
    rw [mapLoop]
    rcases h.mapStep hpos hr ha hlt (hfree _ hmem) with ⟨hnone, hfull⟩ | ⟨t, m, hsome, hnot, hset⟩
    · rw [hnone]
      exact .ok ⟨h, .refl _ s, Or.inl ⟨rfl, fun hroom => hfull (hroom.mono hlacks)⟩⟩
    rw [hsome]
    dsimp only
    rw [if_neg hnot, hnext]
    obtain ⟨hinv, hpte, htable, hframe, hroom⟩ := hset (pa ||| (perm ||| PTE_P))
    have hfree' : ∀ e ∈ Span (a + PGSIZE) (a + PGSIZE + (left + 1) * PGSIZE),
        ¬present ({ s with mem := m.set t (PTX a) (pa ||| (perm ||| PTE_P)) }.pte r e) := by
      intro e he
      rw [hspan] at he
      have hne : e ≠ entry a := by
        rintro rfl
        exact hself he
      rw [hpte, update_of_ne hne]
      exact hfree e ⟨by have := he.1; omega, he.2⟩
    -- Where the next page is in the same page table, that table is there now.
    have hcost : { s with mem := m.set t (PTX a) (pa ||| (perm ||| PTE_P)) }.lacks r (a + PGSIZE) left + s.lack r a ≤
        s.lacks r a (left + 1) := by
      have hlack : (a + PGSIZE) / 2 ^ 22 = a / 2 ^ 22 →
          { s with mem := m.set t (PTX a) (pa ||| (perm ||| PTE_P)) }.lack r (a + PGSIZE) = 0 := by
        intro hsame
        refine if_neg ?_
        rw [show PDX (a + PGSIZE) = PDX a from congrArg Index.ofNat hsame]
        exact htable
      have hone := Space.lack_le { s with mem := m.set t (PTX a) (pa ||| (perm ||| PTE_P)) } r (a + PGSIZE)
      unfold Space.lacks
      generalize Space.lack _ r (a + PGSIZE) = next at hlack hone ⊢
      simp only [PGSIZE] at hlack ⊢
      omega
    have hrest := ih hinv hr (by rw [Nat.add_mod_right, haligned]) (by omega)
      (by simp only [PGSIZE]; omega) (Nat.mod_lt (pa + PGSIZE) (by decide)) hfree'
    refine hrest.mono fun res hres => ⟨hres.1, hframe.trans hres.2.1, ?_⟩
    rcases hres.2.2 with ⟨hfail, hfull⟩ | ⟨hok, hpte', hroom'⟩
    · exact Or.inl ⟨hfail, fun hn => hfull (hroom _ (hn.mono hcost))⟩
    · refine Or.inr ⟨hok, ?_, fun n hn => hroom' n (hroom _ (hn.mono ?_))⟩
      · rw [mapped_succ haligned hlt hpa, ← hpte]
        exact hpte'
      · rw [Nat.add_assoc]
        exact Nat.add_le_add_left hcost n

/-! ### `deallocuvm` -/

/-- A turn of the loop of `deallocuvm` that goes on at the next page even where the page table is missing. -/
def visitPage (L : Layout) (pgdir : Nat) (m : Memory) (a : Nat) : Except Panic Memory :=
  match (walkpgdir m pgdir a false).1 with
  | none => .ok m
  | some (pgtab, i) =>
    if present (m.word pgtab i) then
      if pteAddr (m.word pgtab i) = 0 then .error .kfree
      else do
        let m' ← Vm.kfree L m (pteAddr (m.word pgtab i))
        pure (m'.set pgtab i 0)
    else .ok m

/-- The plain loop over `n` pages from `a` on. -/
def visitPages (L : Layout) (pgdir : Nat) : Nat → Memory → Nat → Except Panic Memory
  | 0, m, _ => .ok m
  | n + 1, m, a => do
      let m ← visitPage L pgdir m a
      visitPages L pgdir n m (a + PGSIZE)

/-- The pages from the aligned address `a` up to `b`. -/
def pagesTo (a b : Nat) : Nat := (b + PGSIZE - 1 - a) / PGSIZE

theorem pagesTo_zero (h : b ≤ a) : pagesTo a b = 0 := by
  simp only [pagesTo, PGSIZE]
  omega

theorem pagesTo_succ (h : a < b) : pagesTo a b = pagesTo (a + PGSIZE) b + 1 := by
  simp only [pagesTo, PGSIZE]
  omega

variable {m : Memory}

theorem visitPages_skip {pgdir k oldsz : Nat}
    (hnone : ∀ x, a ≤ x → x < a + k * PGSIZE → (walkpgdir m pgdir x false).1 = none) :
    visitPages L pgdir (pagesTo a oldsz) m a = visitPages L pgdir (pagesTo (a + k * PGSIZE) oldsz) m
    (a + k * PGSIZE) := by
  induction k generalizing a with
  | zero => rw [Nat.zero_mul, Nat.add_zero]
  | succ k ih =>
    rw [Nat.succ_mul] at hnone ⊢
    by_cases hlt : a < oldsz
    · have hrest := ih (a := a + PGSIZE) fun x hle hx => hnone x (by omega) (by omega)
      rw [Nat.add_assoc, Nat.add_comm PGSIZE] at hrest
      rw [pagesTo_succ hlt, visitPages, visitPage, hnone a (le_refl a) (by simp only [PGSIZE]; omega), ← hrest]
      rw [ok_bind]
    · rw [pagesTo_zero (not_lt.mp hlt), pagesTo_zero (by omega), visitPages, visitPages]

theorem deallocLoop_eq {pgdir fuel oldsz : Nat} (ha : a % PGSIZE = 0) (hle : oldsz ≤ KERNBASE)
    (hfuel : oldsz ≤ a + fuel * PGSIZE) :
    deallocLoop L pgdir oldsz fuel m a = visitPages L pgdir (pagesTo a oldsz) m a := by
  induction fuel generalizing m a with
  | zero => rw [pagesTo_zero (by omega), Vm.deallocLoop, if_neg (by omega), visitPages]
  | succ fuel ih =>
    rw [Nat.succ_mul] at hfuel
    rw [Vm.deallocLoop]
    split
    case isFalse hge => rw [pagesTo_zero (not_lt.mp hge), visitPages]
    case isTrue hlt =>
      have hltk : a < KERNBASE := hlt.trans_le hle
      have hnext : (a + PGSIZE) % 2 ^ 32 = a + PGSIZE := by
        apply Nat.mod_eq_of_lt
        simp only [KERNBASE, PGSIZE] at hltk ⊢
        omega
      have hrest := fun m => ih (m := m) (by rw [Nat.add_mod_right, ha]) (by omega)
      cases hwalk : (walkpgdir m pgdir a false).1 with
      | none =>
        -- Up to the next 4 megabytes the directory entry is the same.
        obtain ⟨k, hk⟩ : ∃ k, ((PDX a).val + 1) * 2 ^ 22 % 2 ^ 32 = a + k * PGSIZE := by
          refine ⟨(2 ^ 22 - a % 2 ^ 22) / PGSIZE, ?_⟩
          rw [PDX_val (lt_of_kernbase hltk)]
          simp only [KERNBASE, PGSIZE] at hltk ha ⊢
          omega
        have hsame : ∀ x, a ≤ x → x < a + k * PGSIZE → (walkpgdir m pgdir x false).1 = none := by
          intro x hax hx
          rw [← hk, PDX_val (lt_of_kernbase hltk)] at hx
          have hdir : PDX x = PDX a := by
            rw [PDX, PDX, show x / 2 ^ 22 = a / 2 ^ 22 by simp only [KERNBASE] at hltk; omega]
          rw [walkpgdir] at hwalk ⊢
          rw [hdir]
          split at hwalk
          · cases hwalk
          · rename_i hnot
            rw [if_neg hnot]
            rfl
        rw [hk, visitPages_skip hsame]
        apply ih
        · rw [Nat.add_mul_mod_self_right, ha]
        · have hge : PGSIZE ≤ k * PGSIZE := by
            rw [PDX_val (lt_of_kernbase hltk)] at hk
            simp only [KERNBASE, PGSIZE] at hltk ha hk ⊢
            omega
          omega
      | some p =>
        obtain ⟨pgtab, i⟩ := p
        rw [pagesTo_succ hlt, visitPages, visitPage, hwalk]
        dsimp only
        rw [hnext]
        split
        · split
          · rfl
          · cases Vm.kfree L m (pteAddr (m.word pgtab i)) with
            | error e => exact (rfl : (Except.error e : Except Panic Memory) = .error e)
            | ok m' => rw [ok_bind, ok_bind, hrest, pure_eq_ok, ok_bind]
        · rw [ok_bind, hrest]

section

variable (h : Inv s lo hi) (hpool : Pool L lo hi) (hr : s.root r ≠ 0)

include h hpool hr

theorem Inv.visitPage (hlt : a < KERNBASE) :
    Ends (fun _ => False) (visitPage L (s.root r) s.mem a) fun m =>
      Inv { s with mem := m } lo hi ∧ Cleared r {entry a} s { s with mem := m } ∧
        { s with mem := m }.table r = s.table r := by
  have hsame (hnot : ¬present (s.pte r (entry a))) : Cleared r {entry a} s s := by
    refine ⟨?_, fun _ _ => rfl, .refl _ s⟩
    rintro e rfl
    exact hnot
  unfold Vm.visitPage
  rcases h.walkpgdir_false hr a with ⟨hnone, htable⟩ | ⟨hsome, ht⟩
  · rw [hnone]
    refine .ok ⟨h, hsame ?_, rfl⟩
    rw [Space.pte, pteOf_none (e := entry a) htable]
    exact not_present_zero
  have hentry : s.pte r (entry a) = s.mem.word (s.table r (PDX a)) (PTX a) := pteOf_eq ht
  rw [hsome]
  dsimp only
  rw [← hentry]
  by_cases hpresent : present (s.pte r (entry a))
  · rw [if_pos hpresent, if_neg (h.users r (entry a) (PDX_isUser hlt) hpresent)]
    obtain ⟨m, hrun, hinv, hpte, hframe⟩ := h.unmap hpool (PDX_isUser hlt) ht hpresent
    change Vm.kfree L s.mem (pteAddr (s.pte r (entry a))) = _ at hrun
    rw [hrun, ok_bind]
    refine .ok ⟨hinv, ⟨?_, fun e he => ?_, hframe.mono fun p hp => ⟨?_, ?_⟩⟩,
      tableOf_congr (hframe.word (.dir r) ⟨by simp, by simp⟩)⟩
    · rintro e rfl
      rw [hpte, show entry a = (PDX a, PTX a) from rfl, update_self]
      exact not_present_zero
    · rw [hpte]
      exact update_of_ne he _ _
    · rintro rfl
      exact hp rfl
    · rintro rfl
      exact hp rfl rfl
  · rw [if_neg hpresent]
    exact .ok ⟨h, hsame hpresent, rfl⟩

theorem Inv.visitPages {n oldsz : Nat} (ha : a % PGSIZE = 0) (hle : oldsz ≤ KERNBASE) (hn : pagesTo a oldsz = n) :
    Ends (fun _ => False) (visitPages L (s.root r) n s.mem a) fun m =>
      Inv { s with mem := m } lo hi ∧ Cleared r (Span a oldsz) s { s with mem := m } ∧
        { s with mem := m }.table r = s.table r := by
  induction n generalizing s a with
  | zero =>
    refine .ok ⟨h, .empty (span_empty ?_) s, rfl⟩
    simp only [pagesTo, PGSIZE] at hn
    omega
  | succ n ih =>
    have hlt : a < oldsz := by
      by_contra hge
      rw [pagesTo_zero (not_lt.mp hge)] at hn
      cases hn
    rw [pagesTo_succ hlt] at hn
    rw [span_succ ha (lt_of_kernbase (hlt.trans_le hle)) hlt]
    refine (h.visitPage hpool hr (hlt.trans_le hle)).bind fun m hm => ?_
    obtain ⟨hinv, hcleared, htable⟩ := hm
    refine (ih hinv hr (by rw [Nat.add_mod_right, ha]) (Nat.succ.inj hn)).mono fun m' hm' => ?_
    exact ⟨hm'.1, hcleared.trans hm'.2.1, hm'.2.2.trans htable⟩

theorem Inv.deallocuvm {oldsz newsz : Nat} (hle : oldsz ≤ KERNBASE) :
    Ends (fun _ => False) (deallocuvm L s.mem (s.root r) oldsz newsz) fun res =>
      res.1 = min oldsz newsz ∧ Inv { s with mem := res.2 } lo hi ∧
        Cleared r (Span (PGROUNDUP newsz) oldsz) s { s with mem := res.2 } := by
  have hup := le_PGROUNDUP newsz
  unfold Vm.deallocuvm
  split
  · exact .ok ⟨by dsimp only; omega, h, .empty (span_empty (by omega)) s⟩
  · rw [deallocLoop_eq (PGROUNDUP_aligned newsz) hle (by simp only [PGSIZE]; omega)]
    refine (h.visitPages hpool hr (PGROUNDUP_aligned newsz) hle rfl).bind fun m hm => .ok ⟨?_, hm.1, hm.2.1⟩
    omega

end

/-! ### `freevm` -/

/-- The holders while `freevm` frees the page tables: those in `todo` are left. -/
def Space.freed (s : Space R K) (r : R) (todo : List Index) : Holder R K → Nat
  | .table r' i => if r' = r ∧ i ∉ todo then 0 else s.table r' i
  | p => s.page p

theorem freed_cons {todo : List Index} {i : Index} (hi : i ∉ todo) (s : Space R K) (r : R) :
    s.freed r todo = update (s.freed r (i :: todo)) (.table r i) 0 := by
  funext p
  by_cases hp : p = .table r i
  · rw [hp, update_self]
    exact if_pos ⟨rfl, hi⟩
  rw [update_of_ne hp]
  cases p with
  | dir r' => rfl
  | user r' e => rfl
  | kept o => rfl
  | table r' i' =>
    simp only [Space.freed, List.mem_cons, not_or]
    by_cases hr : r' = r
    · have hne : i' ≠ i := fun heq => hp (by rw [hr, heq])
      simp [hr, hne]
    · simp [hr]

theorem Inv.freeTables (h : Inv s lo hi) (hpool : Pool L lo hi) (hr : s.root r ≠ 0) {todo : List Index}
    (hnodup : todo.Nodup) (hbooks : Books m (s.freed r todo) lo hi)
    (hword : ∀ p, s.freed r todo p ≠ 0 → m.word (s.freed r todo p) = s.mem.word (s.freed r todo p)) :
    Ends (fun _ => False) (todo.foldlM (fun m i =>
        if present (m.word (s.root r) i) then Vm.kfree L m (pteAddr (m.word (s.root r) i)) else .ok m) m) fun m' =>
      Books m' (s.freed r []) lo hi ∧ ∀ p, s.freed r [] p ≠ 0 →
        m'.word (s.freed r [] p) = s.mem.word (s.freed r [] p) := by
  induction todo generalizing m with
  | nil => exact .ok ⟨hbooks, hword⟩
  | cons i todo ih =>
    obtain ⟨hi, hnodup'⟩ := List.nodup_cons.mp hnodup
    have hdir : m.word (s.root r) = s.mem.word (s.root r) := hword (.dir r) hr
    have hself : s.freed r (i :: todo) (.table r i) = s.table r i :=
      if_neg fun hc => hc.2 List.mem_cons_self
    rw [List.foldlM_cons, hdir]
    by_cases hpresent : present (s.mem.word (s.root r) i)
    · obtain ⟨htable, hne⟩ := h.table_eq hr hpresent
      rw [if_pos hpresent, ← htable, ← hself]
      rw [← hself] at hne
      obtain ⟨m', hrun, hsame, hbooks'⟩ := hbooks.kfree hpool.first hpool.top hne
      rw [hrun, ok_bind]
      rw [← freed_cons hi] at hbooks'
      refine ih hnodup' hbooks' fun p hp => ?_
      rw [freed_cons hi] at hp ⊢
      have hpt : p ≠ .table r i := by
        rintro rfl
        exact hp (update_self _ _ _)
      rw [update_of_ne hpt] at hp ⊢
      rw [hsame, hword p hp]
      intro heq
      obtain ⟨l, hlisted⟩ := hbooks
      exact hpt (hlisted.exact.inj p _ heq hp)
    · have hzero : s.freed r (i :: todo) (.table r i) = 0 := by
        rw [hself, Space.table, tableOf_eq hr, frame_of_not_present hpresent]
      have hfreed : s.freed r todo = s.freed r (i :: todo) := by
        rw [freed_cons hi, ← hzero, update_eq_self]
      rw [if_neg hpresent, ok_bind]
      rw [← hfreed] at hbooks hword
      exact ih hnodup' hbooks hword

theorem Inv.drop (h : Inv s lo hi) (hnone : ∀ e, IsUser e.1 → ¬present (s.pte r e))
    (hbooks : Books m (update (s.freed r []) (.dir r) 0) lo hi)
    (hword : ∀ p, p ≠ .dir r → s.freed r [] p ≠ 0 → m.word (s.freed r [] p) = s.mem.word (s.freed r [] p)) :
    Inv { s with mem := m, root := update s.root r 0 } lo hi ∧
      Frame (Apart r Set.univ ∅) s { s with mem := m, root := update s.root r 0 } := by
  obtain ⟨s', hs'⟩ : ∃ s' : Space R K, s' = { s with mem := m, root := update s.root r 0 } := ⟨_, rfl⟩
  rw [← hs']
  have hrootr : s'.root r = 0 := by
    rw [hs']
    exact update_self _ _ _
  have hroot : ∀ r', r' ≠ r → s'.root r' = s.root r' := by
    intro r' hr'
    rw [hs']
    exact update_of_ne hr' _ _
  have hmem : s'.mem = m := by rw [hs']
  have hdir : ∀ r', r' ≠ r → s.root r' ≠ 0 → m.word (s.root r') = s.mem.word (s.root r') :=
    fun r' hr' => hword (.dir r') fun heq => hr' (Holder.dir.inj heq)
  have htable : ∀ r' i, r' ≠ r → s'.table r' i = s.table r' i := by
    intro r' i hr'
    rw [Space.table, hroot r' hr', hmem]
    exact congrFun (tableOf_congr (hdir r' hr')) i
  have hpte : ∀ r' e, r' ≠ r → s'.pte r' e = s.pte r' e := by
    intro r' e hr'
    refine pteOf_congr (htable r' e.1 hr') fun ht => ?_
    have heq : s.freed r [] (.table r' e.1) = s.table r' e.1 := if_neg fun hc => hr' hc.1
    have hw := hword (.table r' e.1) (by simp)
    rw [heq] at hw
    rw [hmem]
    exact hw ht
  have hpage : s'.page = update (s.freed r []) (.dir r) 0 := by
    funext p
    cases p with
    | dir r' =>
      by_cases hr' : r' = r
      · rw [hr', update_self]
        exact hrootr
      · rw [update_of_ne fun heq => hr' (Holder.dir.inj heq)]
        exact hroot r' hr'
    | kept o =>
      rw [update_of_ne (by simp), hs']
      rfl
    | table r' i =>
      by_cases hr' : r' = r
      · rw [hr', Space.page, Space.table, hrootr, tableOf_zero]
        exact (if_pos ⟨rfl, List.not_mem_nil⟩).symm
      · rw [Space.page, htable r' i hr']
        exact (if_neg fun hc => hr' hc.1).symm
    | user r' e =>
      by_cases hr' : r' = r
      · rw [hr', Space.page, Space.pte, hrootr, pteOf_zero, frame_zero, ite_self]
        by_cases he : IsUser e.1
        · exact ((Space.page_user he).trans (frame_of_not_present (hnone e he))).symm
        · exact (Space.page_kernel he).symm
      · exact Space.page_user_congr (hpte r' e hr')
  have hleft : ∀ p, Apart r Set.univ ∅ p → p ≠ .dir r ∧ s.freed r [] p = s.page p := by
    intro p hp
    cases p with
    | dir r' => exact ⟨fun heq => hp (Holder.dir.inj heq), rfl⟩
    | table r' i => exact ⟨by simp, if_neg fun hc => hp hc.1⟩
    | user r' e => exact ⟨by simp, rfl⟩
    | kept o => exact ⟨by simp, rfl⟩
  refine ⟨⟨?_, fun r' i hr₂ => ?_, fun r' e he => ?_⟩, fun p hp => ?_, fun p hp hne => ?_⟩
  · rw [hpage, hmem]
    exact hbooks
  · by_cases hr' : r' = r
    · rw [hr'] at hr₂
      exact absurd hrootr hr₂
    · rw [hroot r' hr'] at hr₂ ⊢
      rw [hmem, hdir r' hr' hr₂]
      exact h.tables r' i hr₂
  · by_cases hr' : r' = r
    · rw [hr', Space.pte, hrootr, pteOf_zero]
      exact fun hc => absurd hc not_present_zero
    · rw [hpte r' e hr']
      exact h.users r' e he
  · obtain ⟨hpd, hfreed⟩ := hleft p hp
    rw [hpage, update_of_ne hpd, hfreed]
  · obtain ⟨hpd, hfreed⟩ := hleft p hp
    have hw := hword p hpd
    rw [hfreed] at hw
    rw [hmem]
    exact hw hne

theorem Inv.freevm (h : Inv s lo hi) (hpool : Pool L lo hi) (hr : s.root r ≠ 0) :
    Ends (fun _ => False) (freevm L s.mem (s.root r)) fun m =>
    Inv { s with mem := m, root := update s.root r 0 } lo hi ∧
        Frame (Apart r Set.univ ∅) s { s with mem := m, root := update s.root r 0 } := by
  unfold Vm.freevm
  rw [if_neg hr]
  refine (h.deallocuvm hpool hr (le_refl KERNBASE)).bind ?_
  rintro ⟨n, m₁⟩ ⟨-, hinv, hcleared⟩
  have hframe : Frame (Apart r Set.univ ∅) s { s with mem := m₁ } :=
    hcleared.frame.mono fun p hp => hp.mono (Set.subset_univ _) subset_rfl
  have hnone : ∀ e, IsUser e.1 → ¬present ({ s with mem := m₁ }.pte r e) :=
    fun e he => hcleared.gone e ⟨Nat.zero_le _, (isUser_iff e).mp he⟩
  have hall : { s with mem := m₁ }.freed r (List.finRange NPDENTRIES) = { s with mem := m₁ }.page := by
    funext p
    cases p with
    | table r' i => exact if_neg fun hc => hc.2 (List.mem_finRange i)
    | dir r' => rfl
    | user r' e => rfl
    | kept o => rfl
  have htables := hinv.freeTables hpool hr (List.nodup_finRange NPDENTRIES) (by rw [hall]; exact hinv.books) fun p _ =>
    rfl
  refine htables.bind fun m₂ hm₂ => ?_
  obtain ⟨hbooks, hword⟩ := hm₂
  have hdir : { s with mem := m₁ }.freed r [] (.dir r) ≠ 0 := hr
  obtain ⟨m, hrun, hsame, hbooks'⟩ := hbooks.kfree hpool.first hpool.top hdir
  change Vm.kfree L m₂ (s.root r) = _ at hrun
  rw [hrun]
  obtain ⟨hinv', hframe'⟩ := hinv.drop hnone hbooks' fun p hp hne => by
    rw [hsame, hword p hne]
    intro heq
    obtain ⟨l, hlisted⟩ := hbooks
    exact hp (hlisted.exact.inj p (.dir r) heq hne)
  exact .ok ⟨hinv', hframe.trans hframe'⟩

end Laboratorio.Vm
