import Laboratorio.VmCalls

/-! Who holds a physical page: a variable with a page directory, an entry of a directory, an entry of a page
table below `KERNBASE`, or another variable of the kernel. Nobody else does unless the page is free, and no
page is held twice; every store into a page table moves a page from one holder to another. -/

namespace Laboratorio.Vm

open Function

open Memory (word_fill_self word_fill_of_ne word_set_self word_set_of_ne)

/-! ### Entries -/

def frame (pte : Nat) : Nat := if present pte then pteAddr pte else 0

theorem not_present_zero : ¬present 0 := by decide

theorem frame_zero : frame 0 = 0 := rfl

theorem frame_of_present {pte : Nat} (h : present pte) : frame pte = pteAddr pte := if_pos h

theorem frame_of_not_present {pte : Nat} (h : ¬present pte) : frame pte = 0 := if_neg h

theorem frame_entry (pg : Nat) {flags : Nat} (hflags : flags < PGSIZE) :
    present (pg * PGSIZE ||| (flags ||| PTE_P)) ∧ pteAddr (pg * PGSIZE ||| (flags ||| PTE_P)) = pg ∧
      pteFlags (pg * PGSIZE ||| (flags ||| PTE_P)) = flags ||| PTE_P := by
  have hlt : flags ||| PTE_P < 2 ^ 12 := Nat.or_lt_two_pow hflags (by decide)
  have hodd : (flags ||| PTE_P) % 2 = 1 := by
    rw [Nat.or_mod_two_eq_one]
    exact Or.inr rfl
  have hsum : pg * PGSIZE ||| (flags ||| PTE_P) = 2 ^ 12 * pg + (flags ||| PTE_P) := by
    rw [Nat.two_pow_add_eq_or_of_lt hlt, Nat.mul_comm]
  rw [hsum]
  generalize flags ||| PTE_P = f at hlt hodd
  unfold present pteAddr pteFlags
  simp only [PGSIZE]
  omega

/-- The address of entry `j` of page table `i`. -/
def vaOf (e : Index × Index) : Nat := (e.1.val * NPDENTRIES + e.2.val) * PGSIZE

def entry (va : Nat) : Index × Index := (PDX va, PTX va)

theorem vaOf_entry {a : Nat} (ha : a < 2 ^ 32) : vaOf (entry a) = PGROUNDDOWN a := by
  simp only [vaOf, entry, PDX, PTX, PGROUNDDOWN, NPDENTRIES, PGSIZE, Fin.val_ofNat]
  omega

theorem PDX_val {a : Nat} (ha : a < 2 ^ 32) : (PDX a).val = a / 2 ^ 22 := by
  simp only [PDX, NPDENTRIES, Fin.val_ofNat]
  omega

variable {e : Index × Index}

theorem vaOf_inj {e' : Index × Index} (h : vaOf e = vaOf e') : e = e' := by
  have hj := e.2.isLt
  have hj' := e'.2.isLt
  simp only [vaOf, NPDENTRIES, PGSIZE] at h hj hj'
  exact Prod.ext (Fin.ext (by omega)) (Fin.ext (by omega))

theorem vaOf_aligned (e : Index × Index) : vaOf e % PGSIZE = 0 := Nat.mul_mod_left _ _

/-- The entries of the directory for addresses below `KERNBASE`. -/
def IsUser (i : Index) : Prop := i.val < 512

instance (i : Index) : Decidable (IsUser i) := inferInstanceAs (Decidable (i.val < 512))

theorem isUser_iff (e : Index × Index) : IsUser e.1 ↔ vaOf e < KERNBASE := by
  have hj := e.2.isLt
  simp only [IsUser, vaOf, NPDENTRIES, PGSIZE, KERNBASE] at hj ⊢
  omega

/-! ### Holders -/

inductive Holder (R K : Type) where
  | dir (r : R)
  | table (r : R) (i : Index)
  | user (r : R) (e : Index × Index)
  | kept (o : K)
  deriving DecidableEq

/-- The memory, with the variables that hold page directories and those that hold other pages. -/
structure Space (R K : Type) where
  mem : Memory
  root : R → Nat
  keep : K → Nat

def tableOf (word : Nat → Index → Nat) (d : Nat) (i : Index) : Nat := if d = 0 then 0 else frame (word d i)

/-- The entry of the page table, or 0 where there is no table. -/
def pteOf (word : Nat → Index → Nat) (d : Nat) (e : Index × Index) : Nat :=
  if tableOf word d e.1 = 0 then 0 else word (tableOf word d e.1) e.2

theorem tableOf_zero (word : Nat → Index → Nat) (i : Index) : tableOf word 0 i = 0 := if_pos rfl

variable {word : Nat → Index → Nat} {d : Nat}

theorem tableOf_eq (hd : d ≠ 0) (i : Index) : tableOf word d i = frame (word d i) :=
  if_neg hd

theorem pteOf_none (ht : tableOf word d e.1 = 0) :
    pteOf word d e = 0 := if_pos ht

theorem pteOf_eq (ht : tableOf word d e.1 ≠ 0) :
    pteOf word d e = word (tableOf word d e.1) e.2 := if_neg ht

theorem pteOf_zero (word : Nat → Index → Nat) (e : Index × Index) :
    pteOf word 0 e = 0 := pteOf_none (tableOf_zero word e.1)

theorem tableOf_congr {word' : Nat → Index → Nat} (h : d ≠ 0 → word' d = word d) :
    tableOf word' d = tableOf word d := by
  funext i
  unfold tableOf
  split
  · rfl
  · rename_i hd
    rw [h hd]

theorem pteOf_congr {word' : Nat → Index → Nat} {d' : Nat}
    (htable : tableOf word' d' e.1 = tableOf word d e.1)
    (h : tableOf word d e.1 ≠ 0 → word' (tableOf word d e.1) = word (tableOf word d e.1)) :
    pteOf word' d' e = pteOf word d e := by
  unfold pteOf
  rw [htable]
  split
  · rfl
  · rename_i ht
    rw [h ht]

variable {R K : Type} {s : Space R K}

namespace Space

def table (s : Space R K) (r : R) (i : Index) : Nat := tableOf s.mem.word (s.root r) i

def pte (s : Space R K) (r : R) (e : Index × Index) : Nat := pteOf s.mem.word (s.root r) e

def page (s : Space R K) : Holder R K → Nat
  | .dir r => s.root r
  | .table r i => s.table r i
  | .user r e => if IsUser e.1 then frame (s.pte r e) else 0
  | .kept o => s.keep o

theorem page_user {r : R} (he : IsUser e.1) : s.page (.user r e) = frame (s.pte r e) :=
  if_pos he

theorem page_kernel {r : R} (he : ¬IsUser e.1) : s.page (.user r e) = 0 := if_neg he

theorem page_user_congr {s' : Space R K} {r : R} (h : s'.pte r e = s.pte r e) :
    s'.page (.user r e) = s.page (.user r e) := by rw [page, page, h]

end Space

/-! ### The invariant -/

/-- The pages of the allocator. -/
structure Pool (L : Layout) (lo hi : Nat) : Prop where
  pos : 0 < lo
  first : L.first ≤ lo
  top : hi * PGSIZE ≤ PHYSTOP

structure Inv (s : Space R K) (lo hi : Nat) : Prop where
  books : Books s.mem s.page lo hi
  tables : ∀ r i, s.root r ≠ 0 → present (s.mem.word (s.root r) i) → pteAddr (s.mem.word (s.root r) i) ≠ 0
  users : ∀ r e, IsUser e.1 → present (s.pte r e) → pteAddr (s.pte r e) ≠ 0

/-- The holders in `S` have the pages that they had, and what is in them is as it was. -/
structure Frame (S : Holder R K → Prop) (s s' : Space R K) : Prop where
  page : ∀ p, S p → s'.page p = s.page p
  word : ∀ p, S p → s.page p ≠ 0 → s'.mem.word (s.page p) = s.mem.word (s.page p)

namespace Frame

variable {S T : Holder R K → Prop} {s s' s'' : Space R K} {r : R}

theorem refl (S : Holder R K → Prop) (s : Space R K) : Frame S s s := ⟨fun _ _ => rfl, fun _ _ _ => rfl⟩

theorem trans (h : Frame S s s') (h' : Frame S s' s'') : Frame S s s'' := by
  refine ⟨fun p hp => (h'.page p hp).trans (h.page p hp), fun p hp hne => ?_⟩
  have hword := h'.word p hp
  rw [h.page p hp] at hword
  exact (hword hne).trans (h.word p hp hne)

theorem mono (h : Frame S s s') (hT : ∀ p, T p → S p) : Frame T s s' :=
  ⟨fun p hp => h.page p (hT p hp), fun p hp => h.word p (hT p hp)⟩

theorem join (h : Frame S s s') (q : Holder R K) (hq : s.page q = 0) (hq' : s'.page q = 0)
    (hT : ∀ p, T p → p ≠ q → S p) : Frame T s s' := by
  constructor
  · intro p hp
    by_cases hpq : p = q
    · rw [hpq, hq, hq']
    · exact h.page p (hT p hp hpq)
  · intro p hp hne
    exact h.word p (hT p hp fun hpq => hne (hpq ▸ hq)) hne

theorem pte (h : Frame S s s') (htable : ∀ i, S (.table r i)) (e : Index × Index) : s'.pte r e = s.pte r e :=
  pteOf_congr (h.page (.table r e.1) (htable e.1)) fun ht => h.word (.table r e.1) (htable e.1) ht

end Frame

/-- All holders but those of a directory and its page tables, of its user pages in `U`, and of the variables in `V`. -/
def Apart (r : R) (U : Set (Index × Index)) (V : Set K) : Holder R K → Prop
  | .dir r' => r' ≠ r
  | .table r' _ => r' ≠ r
  | .user r' e => r' = r → e ∉ U
  | .kept o => o ∉ V

variable {p : Holder R K}

theorem Apart.mono {r : R} {U U' : Set (Index × Index)} {V V' : Set K} (h : Apart r U' V' p)
    (hU : U ⊆ U') (hV : V ⊆ V') : Apart r U V p := by
  cases p with
  | dir r' => exact h
  | table r' i => exact h
  | user r' e => exact fun hr hu => h hr (hU hu)
  | kept o => exact fun hv => h (hV hv)

section Moves

variable {L : Layout} {s : Space R K} {m : Memory} {lo hi : Nat} {r : R} {i : Index}

namespace Inv

section

variable (h : Inv s lo hi)

include h

theorem inj {q : Holder R K} (heq : s.page p = s.page q) (hp : s.page p ≠ 0) : p = q := by
  obtain ⟨l, hlisted⟩ := h.books
  exact hlisted.exact.inj p q heq hp

theorem table_eq {i : Index} (hr : s.root r ≠ 0) (hpresent : present (s.mem.word (s.root r) i)) :
    s.table r i = pteAddr (s.mem.word (s.root r) i) ∧ s.table r i ≠ 0 := by
  have heq : s.table r i = pteAddr (s.mem.word (s.root r) i) := by
    rw [Space.table, tableOf_eq hr, frame_of_present hpresent]
  rw [heq]
  exact ⟨rfl, h.tables r i hr hpresent⟩

theorem free_iff (pg : Nat) : Free s.mem pg ↔ lo ≤ pg ∧ pg < hi ∧ ∀ p, s.page p ≠ 0 → s.page p ≠ pg := by
  obtain ⟨l, hlisted⟩ := h.books
  rw [← hlisted.mem_iff]
  constructor
  · rintro ⟨l', hl', hmem⟩
    rwa [Linked.unique hlisted.linked hl']
  · exact fun hmem => ⟨l, hlisted.linked, hmem⟩

/-- Where a call takes no page but those in `X`, it takes no more from the free list. -/
theorem room {R' K' : Type} {s' : Space R' K'} (h' : Inv s' lo hi) (X : List Nat)
    (hpages : ∀ p, s'.page p ≠ 0 → s'.page p ∉ X → ∃ q, s.page q = s'.page p) {n : Nat}
    (hroom : Room s.mem (n + X.length)) :
    Room s'.mem n := by
  obtain ⟨l, hlisted⟩ := h.books
  obtain ⟨l', hlisted'⟩ := h'.books
  obtain ⟨l₀, hlinked, hlen⟩ := hroom
  obtain rfl : l = l₀ := Linked.unique hlisted.linked hlinked
  refine ⟨l', hlisted'.linked, ?_⟩
  have hsub : l ⊆ l' ++ X := by
    intro pg hpg
    obtain ⟨hlo, hhi, hno⟩ := hlisted.mem_iff.mp hpg
    rw [List.mem_append, or_iff_not_imp_right]
    intro hX
    refine hlisted'.mem_iff.mpr ⟨hlo, hhi, fun p hp heq => ?_⟩
    rw [heq] at hp
    obtain ⟨q, hq⟩ := hpages p (by rwa [heq]) (by rwa [heq])
    rw [heq] at hq
    exact hno q (by rwa [hq]) hq
  have hle := (hlisted.nodup.subperm hsub).length_le
  rw [List.length_append] at hle
  omega

section

variable {q : Holder R K} (hsame : ∀ x, x ≠ s.page q → m.word x = s.mem.word x) (hdir : ∀ r, q ≠ .dir r)
  (htable : ∀ r i, q ≠ .table r i)

include hsame hdir htable

theorem pages_of_word :
    (∀ r, s.root r ≠ 0 → m.word (s.root r) = s.mem.word (s.root r)) ∧
    (∀ r i, { s with mem := m }.table r i = s.table r i) ∧
    ∀ r e, { s with mem := m }.pte r e = s.pte r e := by
  have hroot : ∀ r, s.root r ≠ 0 → m.word (s.root r) = s.mem.word (s.root r) := by
    intro r hr
    apply hsame
    intro heq
    exact hdir r (h.inj (p := .dir r) heq hr).symm
  have htables : ∀ r i, { s with mem := m }.table r i = s.table r i := fun r i => congrFun (tableOf_congr (hroot r)) i
  refine ⟨hroot, htables, fun r e => pteOf_congr (htables r e.1) fun ht => ?_⟩
  apply hsame
  intro heq
  exact htable r e.1 (h.inj (p := .table r e.1) heq ht).symm

theorem change {keep : K → Nat} (hbooks : Books m { mem := m, root := s.root, keep := keep : Space R K}.page lo hi) :
    Inv { mem := m, root := s.root, keep := keep : Space R K } lo hi := by
  obtain ⟨hroot, -, hptes⟩ := h.pages_of_word hsame hdir htable
  refine ⟨hbooks, fun r i hr => ?_, fun r e => ?_⟩
  · change present (m.word (s.root r) i) → pteAddr (m.word (s.root r) i) ≠ 0
    rw [hroot r hr]
    exact h.tables r i hr
  · rw [show ({ mem := m, root := s.root, keep := keep : Space R K }).pte r e = s.pte r e from hptes r e]
    exact h.users r e

theorem frame_of_word :
    { s with mem := m }.page = s.page ∧ Frame (· ≠ q) s { s with mem := m } := by
  obtain ⟨-, htables, hptes⟩ := h.pages_of_word hsame hdir htable
  have hpage : { s with mem := m }.page = s.page := by
    funext p
    cases p with
    | dir r => rfl
    | kept o => rfl
    | table r i => exact htables r i
    | user r e => exact Space.page_user_congr (hptes r e)
  refine ⟨hpage, fun p _ => congrFun hpage p, fun p hp hne => hsame _ fun heq => hp (h.inj heq hne)⟩

end

theorem put {q : Holder R K} (hq : s.page q ≠ 0) (hdir : ∀ r, q ≠ .dir r) (htable : ∀ r i, q ≠ .table r i)
    (words : Index → Nat) : Inv { s with mem := s.mem.put (s.page q) words } lo hi ∧
      { s with mem := s.mem.put (s.page q) words }.page = s.page ∧
      Frame (· ≠ q) s { s with mem := s.mem.put (s.page q) words } := by
  have hsame : ∀ x, x ≠ s.page q → (s.mem.put (s.page q) words).word x = s.mem.word x :=
    fun x hx => update_of_ne hx _ _
  obtain ⟨hpage, hframe⟩ := h.frame_of_word hsame hdir htable
  refine ⟨h.change hsame hdir htable ?_, hpage, hframe⟩
  rw [hpage]
  refine h.books.write rfl fun x hx => ⟨q, hq, ?_⟩
  by_contra hne
  exact hx (hsame x fun heq => hne heq.symm)

end

end Inv

/-- The memory after a store into the entry. -/
def Space.setPte (s : Space R K) (r : R) (i j : Index) (x : Nat) : Space R K :=
  { s with mem := s.mem.set (s.table r i) j x }

namespace Inv

theorem setPte_word (h : Inv s lo hi) (j : Index) (x : Nat)
    (hp : p ≠ .table r i) (hne : s.page p ≠ 0) : (s.setPte r i j x).mem.word (s.page p) = s.mem.word (s.page p) :=
  word_set_of_ne _ (fun heq => hp (h.inj heq hne)) j x

theorem setPte_table (h : Inv s lo hi) (i j : Index) (x : Nat) (r r' : R) (i' : Index) :
    (s.setPte r i j x).table r' i' = s.table r' i' :=
  congrFun (tableOf_congr fun hr' => h.setPte_word j x (p := .dir r') nofun hr') i'

theorem setPte_pte (h : Inv s lo hi) (ht : s.table r i ≠ 0) (j : Index) (x : Nat) :
    (s.setPte r i j x).pte r = update (s.pte r) (i, j) x := by
  funext e
  have htable := h.setPte_table i j x r r e.1
  by_cases he : e.1 = i
  · obtain ⟨i', j'⟩ := e
    obtain rfl : i' = i := he
    have hword : (s.setPte r i' j x).mem.word (s.table r i') = update (s.mem.word (s.table r i')) j x :=
      word_set_self _ _ _ _
    have heq : (s.setPte r i' j x).pte r (i', j') = update (s.mem.word (s.table r i')) j x j' := by
      rw [← hword, ← htable]
      exact pteOf_eq (by rwa [← htable] at ht)
    rw [heq]
    by_cases hj : j' = j
    · rw [hj, update_self, update_self]
    · rw [update_of_ne hj, update_of_ne fun heq => hj (Prod.mk.inj heq).2]
      exact (pteOf_eq (e := (i', j')) ht).symm
  · rw [update_of_ne fun heq => he (congrArg Prod.fst heq)]
    refine pteOf_congr htable fun ht' => h.setPte_word j x (p := .table r e.1) ?_ ht'
    exact fun heq => he (Holder.table.inj heq).2

theorem setPte_pte_of_ne (h : Inv s lo hi) (j : Index) (x : Nat) {r' : R} (hr' : r' ≠ r)
    (e : Index × Index) : (s.setPte r i j x).pte r' e = s.pte r' e :=
  pteOf_congr (h.setPte_table i j x r r' e.1) fun ht' =>
    h.setPte_word j x (fun heq => hr' (Holder.table.inj heq).1) ht'

theorem setPte_listed (ht : s.table r i ≠ 0) (j : Index) (x : Nat) {l : List Nat} {f : Holder R K → Nat}
    (hf : f (.table r i) = s.table r i) (hlisted : Listed m f lo hi l) :
    FreeList (m.set (s.table r i) j x) l := by
  apply Linked.congr hlisted.linked
  intro y hy
  apply word_set_of_ne
  rintro rfl
  exact hlisted.ne_of_mem hy (by rwa [hf]) hf

end Inv

variable [DecidableEq R]

theorem Inv.setPte_sound (h : Inv s lo hi) (ht : s.table r i ≠ 0) {j : Index} {x : Nat}
    (hx : IsUser i → present x → pteAddr x ≠ 0) {keep : K → Nat}
    (hbooks : Books (s.setPte r i j x).mem { s.setPte r i j x with keep := keep }.page lo hi) :
    Inv { s.setPte r i j x with keep := keep } lo hi := by
  refine ⟨hbooks, fun r' i' hr' => ?_, fun r' e he => ?_⟩
  · have hword : (s.setPte r i j x).mem.word (s.page (.dir r')) = _ := h.setPte_word j x nofun hr'
    change present ((s.setPte r i j x).mem.word (s.page (.dir r')) i') →
      pteAddr ((s.setPte r i j x).mem.word (s.page (.dir r')) i') ≠ 0
    rw [hword]
    exact h.tables r' i' hr'
  · change present ((s.setPte r i j x).pte r' e) → pteAddr ((s.setPte r i j x).pte r' e) ≠ 0
    by_cases hr' : r' = r
    · subst hr'
      rw [h.setPte_pte ht]
      by_cases heq : e = (i, j)
      · subst heq
        rw [update_self]
        exact hx he
      · rw [update_of_ne heq]
        exact h.users r' e he
    · rw [h.setPte_pte_of_ne j x hr']
      exact h.users r' e he

variable [DecidableEq K]

theorem Space.page_keep (s : Space R K) (o : K) (pg : Nat) :
    { s with keep := update s.keep o pg }.page = update s.page (.kept o) pg := by
  funext p
  cases p with
  | kept o' => simp [page, update_apply]
  | dir r => rw [update_of_ne (show Holder.dir r ≠ .kept o from nofun)]; rfl
  | table r i => rw [update_of_ne (show Holder.table r i ≠ .kept o from nofun)]; rfl
  | user r e => rw [update_of_ne (show Holder.user r e ≠ .kept o from nofun)]; rfl

namespace Inv

theorem kalloc (h : Inv s lo hi) (hpos : 0 < lo) {o : K} (ho : s.keep o = 0) {pg : Nat}
    (hrun : kalloc s.mem = (pg, m)) :
      (pg = 0 ∧ m = s.mem) ∨ (pg ≠ 0 ∧ Inv { s with mem := m, keep := update s.keep o pg } lo hi ∧
      Frame (· ≠ .kept o) s { s with mem := m, keep := update s.keep o pg } ∧
      ∀ r e, { s with mem := m, keep := update s.keep o pg }.pte r e = s.pte r e) := by
  rcases h.books.kalloc hpos (show s.page (.kept o) = 0 from ho) hrun with hnone | ⟨hpg, hword, -, hbooks⟩
  · exact Or.inl hnone
  have hpage : { s with mem := m, keep := update s.keep o pg }.page = update s.page (.kept o) pg := by
    rw [← Space.page_keep]
    funext p
    cases p <;> simp only [Space.page, Space.table, Space.pte, hword]
  refine Or.inr ⟨hpg, ⟨?_, ?_, ?_⟩, ⟨fun p hp => ?_, fun p _ _ => ?_⟩, fun r e => ?_⟩
  · rw [hpage]
    exact hbooks
  · simp only [hword]
    exact h.tables
  · simp only [Space.pte, hword]
    exact h.users
  · rw [hpage, update_of_ne hp]
  · simp only [hword]
  · simp only [Space.pte, hword]

theorem kfree (h : Inv s lo hi) (hpool : Pool L lo hi) {o : K} (ho : s.keep o ≠ 0) :
    ∃ m, Vm.kfree L s.mem (s.keep o) = .ok m ∧ Inv { s with mem := m, keep := update s.keep o 0 } lo hi ∧
      Frame (· ≠ .kept o) s { s with mem := m, keep := update s.keep o 0 } := by
  obtain ⟨m, hrun, hsame, hbooks⟩ := h.books.kfree hpool.first hpool.top (show s.page (.kept o) ≠ 0 from ho)
  obtain ⟨hpage, hframe⟩ := h.frame_of_word hsame (show ∀ r, Holder.kept o ≠ .dir r from nofun) nofun
  have hpage' : { s with mem := m, keep := update s.keep o 0 }.page = update s.page (.kept o) 0 := by
    rw [← hpage]
    exact Space.page_keep { s with mem := m } o 0
  refine ⟨m, hrun, h.change hsame (show ∀ r, Holder.kept o ≠ .dir r from nofun) nofun ?_, fun p hp => ?_,
    fun p hp hne => hframe.word p hp hne⟩
  · rw [hpage']
    exact hbooks
  · rw [hpage', update_of_ne hp]

theorem adopt (h : Inv s lo hi) (hpos : 0 < lo) {o : K} (hr : s.root r = 0) (ho : s.keep o ≠ 0)
    (hblank : ∀ i, s.mem.word (s.keep o) i = 0) :
    Inv { s with root := update s.root r (s.keep o), keep := update s.keep o 0 } lo hi ∧
      (∀ i, { s with root := update s.root r (s.keep o), keep := update s.keep o 0 }.table r i = 0) ∧
      Frame (fun p => p ≠ .dir r ∧ p ≠ .kept o) s
        { s with root := update s.root r (s.keep o), keep := update s.keep o 0 } := by
  obtain ⟨s', hs'⟩ : ∃ s', s' = { s with root := update s.root r (s.keep o), keep := update s.keep o 0 } :=
    ⟨_, rfl⟩
  rw [← hs']
  have hself : s'.root r = s.keep o := by rw [hs']; exact update_self _ _ _
  have hother : ∀ r', r' ≠ r → s'.root r' = s.root r' := fun r' hr' => by rw [hs']; exact update_of_ne hr' _ _
  have hmem : s'.mem = s.mem := by rw [hs']
  have hnone : ∀ i, s'.table r i = 0 := by
    intro i
    rw [Space.table, hself, hmem, tableOf_eq ho, hblank, frame_zero]
  have htable : ∀ r' i, s'.table r' i = s.table r' i := by
    intro r' i
    by_cases hr' : r' = r
    · rw [hr', hnone, Space.table, hr, tableOf_zero]
    · rw [Space.table, hother r' hr', hmem, Space.table]
  have hpte : ∀ r' e, s'.pte r' e = s.pte r' e := fun r' e => pteOf_congr (htable r' e.1) fun _ => by rw [hmem]
  have hpage : s'.page = update (update s.page (.kept o) 0) (.dir r) (s.keep o) := by
    funext p
    cases p with
    | kept o' | dir r' => simp [Space.page, update_apply, hs']
    | table r' i => simp [Space.page, htable]
    | user r' e => simp [Space.page, hpte]
  refine ⟨⟨?_, fun r' i => ?_, fun r' e => ?_⟩, hnone, fun p hp => ?_, fun p _ _ => by rw [hmem]⟩
  · rw [hpage]
    obtain ⟨l, hlisted⟩ := h.books
    rw [← hmem] at hlisted
    exact ⟨l, hlisted.linked, hlisted.nodup, hlisted.lt,
      hlisted.exact.move hpos (show s.page (.kept o) ≠ 0 from ho) (show s.page (.dir r) = 0 from hr)⟩
  · rw [hmem]
    by_cases hr' : r' = r
    · rw [hr', hself, hblank]
      exact fun _ hpresent => absurd hpresent not_present_zero
    · rw [hother r' hr']
      exact h.tables r' i
  · rw [hpte]
    exact h.users r' e
  · rw [hpage, update_of_ne hp.1, update_of_ne hp.2]

end Inv

/-! ### Stores into page tables -/

section Stores

variable {j : Index} {x : Nat}

namespace Inv

theorem setPte_page (h : Inv s lo hi) (ht : s.table r i ≠ 0) (j : Index) (x : Nat) :
    (s.setPte r i j x).page = if IsUser i then update s.page (.user r (i, j)) (Vm.frame x) else s.page := by
  funext p
  cases p with
  | dir r' | kept o => split <;> simp [Space.page, Space.setPte]
  | table r' i' =>
    have htable := h.setPte_table i j x r r' i'
    split <;> simp [Space.page, htable]
  | user r' e =>
    by_cases hr' : r' = r
    · subst hr'
      by_cases he : e = (i, j)
      · subst he
        have hpte : (s.setPte r' i j x).pte r' (i, j) = x := by rw [h.setPte_pte ht, update_self]
        split
        · rename_i hi
          rw [update_self, Space.page_user hi, hpte]
        · rename_i hi
          rw [Space.page_kernel hi, Space.page_kernel hi]
      · have hpte : (s.setPte r' i j x).pte r' e = s.pte r' e := by rw [h.setPte_pte ht, update_of_ne he]
        have hpage := Space.page_user_congr hpte
        split
        · rw [update_of_ne fun heq => he (Holder.user.inj heq).2, hpage]
        · exact hpage
    · have hpage := Space.page_user_congr (h.setPte_pte_of_ne (i := i) j x hr' e)
      split
      · rw [update_of_ne fun heq => hr' (Holder.user.inj heq).1, hpage]
      · exact hpage

theorem setSame (h : Inv s lo hi) (ht : s.table r i ≠ 0)
    (hx : IsUser i → Vm.frame x = s.page (.user r (i, j)) ∧ (present x → pteAddr x ≠ 0)) :
    Inv (s.setPte r i j x) lo hi ∧ Frame (· ≠ .table r i) s (s.setPte r i j x) := by
  have hpage : (s.setPte r i j x).page = s.page := by
    rw [h.setPte_page ht]
    split
    · rename_i hi
      rw [(hx hi).1]
      exact update_eq_self _ _
    · rfl
  refine ⟨h.setPte_sound ht (fun hi => (hx hi).2) ?_, fun p _ => congrFun hpage p, fun p hp => h.setPte_word j x hp⟩
  change Books (s.setPte r i j x).mem (s.setPte r i j x).page lo hi
  rw [hpage]
  obtain ⟨l, hlisted⟩ := h.books
  exact ⟨l, setPte_listed ht j x rfl hlisted, hlisted.nodup, hlisted.lt, hlisted.exact⟩

theorem map (h : Inv s lo hi) (hpos : 0 < lo) (hu : IsUser i) (ht : s.table r i ≠ 0) (hfree : ¬present (s.pte r (i, j)))
    {o : K} (ho : s.keep o ≠ 0) (hpresent : present x) (hx : pteAddr x = s.keep o) :
    Inv { s.setPte r i j x with keep := update s.keep o 0 } lo hi ∧
      Frame (fun p => p ≠ .table r i ∧ p ≠ .user r (i, j) ∧ p ≠ .kept o) s
      { s.setPte r i j x with keep := update s.keep o 0 } ∧
      ∀ p, { s.setPte r i j x with keep := update s.keep o 0 }.page p ≠ 0 →
        ∃ q, s.page q = { s.setPte r i j x with keep := update s.keep o 0 }.page p := by
  have hempty : s.page (.user r (i, j)) = 0 := by rw [Space.page_user hu, frame_of_not_present hfree]
  have hpage : { s.setPte r i j x with keep := update s.keep o 0 }.page =
      update (update s.page (.kept o) 0) (.user r (i, j)) (s.keep o) := by
    have hkeep := Space.page_keep (s.setPte r i j x) o 0
    rw [h.setPte_page ht, if_pos hu, frame_of_present hpresent, hx] at hkeep
    exact hkeep.trans (update_comm (show Holder.user r (i, j) ≠ .kept o from nofun) _ _ _)
  refine ⟨h.setPte_sound ht (fun _ _ => by rwa [hx]) ?_, ⟨fun p hp => ?_, fun p hp => h.setPte_word j x hp.1⟩,
    fun p hp => ?_⟩
  · rw [hpage]
    obtain ⟨l, hlisted⟩ := h.books
    exact ⟨l, setPte_listed ht j x rfl hlisted, hlisted.nodup, hlisted.lt,
      hlisted.exact.move hpos (show s.page (.kept o) ≠ 0 from ho) hempty⟩
  · rw [hpage, update_of_ne hp.2.1, update_of_ne hp.2.2]
  rw [hpage] at hp ⊢
  by_cases huser : p = .user r (i, j)
  · exact ⟨.kept o, by rw [huser, update_self]; rfl⟩
  · rw [update_of_ne huser] at hp ⊢
    have hkept : p ≠ .kept o := by
      rintro rfl
      exact hp (update_self _ _ _)
    exact ⟨p, (update_of_ne hkept _ _).symm⟩

theorem unmap (h : Inv s lo hi) (hpool : Pool L lo hi) (hu : IsUser i) (ht : s.table r i ≠ 0)
    (hpresent : present (s.pte r (i, j))) :
    ∃ m, Vm.kfree L s.mem (pteAddr (s.pte r (i, j))) = .ok m ∧ Inv { s with mem := m.set (s.table r i) j 0 } lo hi ∧
      { s with mem := m.set (s.table r i) j 0 }.pte r = update (s.pte r) (i, j) 0 ∧
      Frame (fun p => p ≠ .table r i ∧ p ≠ .user r (i, j)) s { s with mem := m.set (s.table r i) j 0 } := by
  have huser : s.page (.user r (i, j)) = pteAddr (s.pte r (i, j)) := by
    rw [Space.page_user hu, frame_of_present hpresent]
  have hne := h.users r (i, j) hu hpresent
  rw [← huser] at hne ⊢
  obtain ⟨m, hrun, hsame, l, hlisted⟩ := h.books.kfree hpool.first hpool.top hne
  refine ⟨m, hrun, ?_⟩
  -- The store into the entry is made in the memory that `kfree` left; but for the free list it is as if it came first.
  have hdir : ∀ r', (Holder.user r (i, j) : Holder R K) ≠ .dir r' := nofun
  have htable : ∀ r' i', (Holder.user r (i, j) : Holder R K) ≠ .table r' i' := nofun
  obtain ⟨hroot, htables, hptes⟩ := h.pages_of_word hsame hdir htable
  have hword : ∀ p, p ≠ .user r (i, j) → s.page p ≠ 0 → m.word (s.page p) = s.mem.word (s.page p) :=
    fun p hp hnz => hsame _ fun heq => hp (h.inj heq hnz)
  obtain ⟨s', hs'⟩ : ∃ s' : Space R K, s' = { s with mem := m.set (s.table r i) j 0 } := ⟨_, rfl⟩
  rw [← hs']
  have hword' : ∀ p, p ≠ .user r (i, j) → s.page p ≠ 0 →
      s'.mem.word (s.page p) = (s.setPte r i j 0).mem.word (s.page p) := by
    intro p hp hnz
    subst hs'
    by_cases hpt : s.page p = s.table r i
    · rw [hpt]
      change (m.set (s.table r i) j 0).word (s.table r i) = (s.mem.set (s.table r i) j 0).word (s.table r i)
      rw [word_set_self, word_set_self, ← hpt, hword p hp hnz]
    · change (m.set (s.table r i) j 0).word (s.page p) = (s.mem.set (s.table r i) j 0).word (s.page p)
      rw [word_set_of_ne _ hpt, word_set_of_ne _ hpt, hword p hp hnz]
  have hroot' : s'.root = s.root := by rw [hs']
  have htable' : ∀ r' i', s'.table r' i' = (s.setPte r i j 0).table r' i' := by
    intro r' i'
    have hcongr : tableOf s'.mem.word (s.root r') = tableOf (s.setPte r i j 0).mem.word (s.root r') :=
      tableOf_congr fun hr' => hword' (.dir r') nofun hr'
    rw [Space.table, hroot', hcongr]
    rfl
  have hpte' : ∀ r' e, s'.pte r' e = (s.setPte r i j 0).pte r' e := by
    intro r' e
    refine pteOf_congr (htable' r' e.1) fun ht' => ?_
    have heq : (s.setPte r i j 0).table r' e.1 = s.table r' e.1 := h.setPte_table i j 0 r r' e.1
    change (s.setPte r i j 0).table r' e.1 ≠ 0 at ht'
    change s'.mem.word ((s.setPte r i j 0).table r' e.1) = (s.setPte r i j 0).mem.word ((s.setPte r i j 0).table r' e.1)
    rw [heq] at ht' ⊢
    exact hword' (.table r' e.1) nofun ht'
  have hpage : s'.page = update s.page (.user r (i, j)) 0 := by
    have hset := h.setPte_page ht j 0
    rw [if_pos hu, frame_zero] at hset
    rw [← hset]
    funext p
    cases p with
    | dir r' => rw [Space.page, hroot']; rfl
    | kept o => rw [hs']; rfl
    | table r' i' => exact htable' r' i'
    | user r' e => exact Space.page_user_congr (hpte' r' e)
  refine ⟨⟨?_, fun r' i' hr' => ?_, fun r' e he => ?_⟩, ?_, fun p hp => ?_, fun p hp hnz => ?_⟩
  · rw [hpage, hs']
    have hheld : update s.page (.user r (i, j)) 0 (.table r i) = s.table r i :=
      update_of_ne (show Holder.table r i ≠ Holder.user r (i, j) from nofun) _ _
    exact ⟨l, setPte_listed ht j 0 hheld hlisted, hlisted.nodup, hlisted.lt, hlisted.exact⟩
  · rw [hroot'] at hr' ⊢
    have hw := (hword' (.dir r') nofun hr').trans (h.setPte_word j 0 nofun hr')
    change s'.mem.word (s.root r') = s.mem.word (s.root r') at hw
    rw [hw]
    exact h.tables r' i' hr'
  · rw [hpte']
    by_cases hr' : r' = r
    · subst hr'
      rw [h.setPte_pte ht]
      by_cases heq : e = (i, j)
      · rw [heq, update_self]
        exact fun hc => absurd hc not_present_zero
      · rw [update_of_ne heq]
        exact h.users r' e he
    · rw [h.setPte_pte_of_ne j 0 hr']
      exact h.users r' e he
  · rw [← h.setPte_pte ht]
    exact funext (hpte' r)
  · rw [hpage, update_of_ne hp.2]
  · rw [hword' p hp.2 hnz]
    exact h.setPte_word j 0 hp.1 hnz

theorem link (h : Inv s lo hi) (hpos : 0 < lo) (hr : s.root r ≠ 0) (hfree : ¬present (s.mem.word (s.root r) i))
    {pg : Nat} (hrun : Vm.kalloc s.mem = (pg, m)) (hpg : pg ≠ 0) (hpresent : present x) (hx : pteAddr x = pg) :
    Inv { s with mem := (m.fill pg 0).set (s.root r) i x } lo hi ∧
      { s with mem := (m.fill pg 0).set (s.root r) i x }.table r i = pg ∧
      (∀ e, { s with mem := (m.fill pg 0).set (s.root r) i x }.pte r e = s.pte r e) ∧
      Frame (fun p => p ≠ .dir r ∧ p ≠ .table r i) s { s with mem := (m.fill pg 0).set (s.root r) i x } := by
  have hempty : s.page (.table r i) = 0 := by
    rw [Space.page, Space.table, tableOf_eq hr, frame_of_not_present hfree]
  rcases h.books.kalloc hpos hempty hrun with ⟨hzero, -⟩ | ⟨-, hword, hfresh, l, hlisted⟩
  · exact absurd hzero hpg
  obtain ⟨s', hs'⟩ : ∃ s' : Space R K, s' = { s with mem := (m.fill pg 0).set (s.root r) i x } := ⟨_, rfl⟩
  rw [← hs']
  have hroot' : s'.root = s.root := by rw [hs']
  have hdir : s.root r ≠ pg := hfresh (.dir r) hr
  have hself : s'.mem.word (s.root r) = update (s.mem.word (s.root r)) i x := by
    rw [hs', word_set_self, word_fill_of_ne _ hdir, hword]
  have hpgword : ∀ j, s'.mem.word pg j = 0 := by
    intro j
    rw [hs', word_set_of_ne _ hdir.symm, word_fill_self]
  have hother : ∀ p, p ≠ .dir r → s.page p ≠ 0 → s'.mem.word (s.page p) = s.mem.word (s.page p) := by
    intro p hp hne
    have hnot : s.page p ≠ s.root r := fun heq => hp (h.inj heq hne)
    rw [hs', word_set_of_ne _ hnot, word_fill_of_ne _ (hfresh p hne), hword]
  have htables : ∀ r' i', (r', i') ≠ (r, i) → s'.table r' i' = s.table r' i' := by
    intro r' i' hne
    by_cases hr' : r' = r
    · subst hr'
      have hi' : i' ≠ i := fun heq => hne (by rw [heq])
      rw [Space.table, hroot', tableOf_eq hr, hself, update_of_ne hi', Space.table, tableOf_eq hr]
    · rw [Space.table, hroot']
      exact congrFun (tableOf_congr fun hd => hother (.dir r') (fun heq => hr' (Holder.dir.inj heq)) hd) i'
  have hnew : s'.table r i = pg := by
    rw [Space.table, hroot', tableOf_eq hr, hself, update_self, frame_of_present hpresent, hx]
  have hpte : ∀ r' e, s'.pte r' e = s.pte r' e := by
    intro r' e
    by_cases hri : (r', e.1) = (r, i)
    · obtain ⟨hr', he⟩ := Prod.mk.inj hri
      have hold : s.pte r' e = 0 := pteOf_none (by rw [hr', he]; exact hempty)
      have hnew' : tableOf s'.mem.word (s'.root r') e.1 = pg := by
        rw [hr', he]
        exact hnew
      rw [hold, Space.pte, pteOf_eq (by rwa [hnew']), hnew', hpgword]
    · exact pteOf_congr (htables r' e.1 hri) fun ht' => hother (.table r' e.1) nofun ht'
  have hpage : s'.page = update s.page (.table r i) pg := by
    funext p
    cases p with
    | dir r' => simp [Space.page, hroot']
    | kept o => simp [Space.page, hs']
    | table r' i' =>
      by_cases hri : (r', i') = (r, i)
      · cases hri
        rw [update_self, Space.page, hnew]
      · have hne : (Holder.table r' i' : Holder R K) ≠ .table r i := by
          intro heq
          cases heq
          exact hri rfl
        rw [update_of_ne hne]
        exact htables r' i' hri
    | user r' e =>
      exact Space.page_user_congr (hpte r' e)
  refine ⟨⟨?_, fun r' i' hr' => ?_, fun r' e he => ?_⟩, hnew, hpte r, fun p hp => ?_, fun p hp => hother p hp.1⟩
  · rw [hpage, hs']
    refine ⟨l, ?_, hlisted.nodup, hlisted.lt, hlisted.exact⟩
    apply Linked.congr hlisted.linked
    intro y hy
    rw [word_set_of_ne, word_fill_of_ne]
    · rintro rfl
      have hheld : update s.page (.table r i) y (.table r i) = y := update_self _ _ _
      exact hlisted.ne_of_mem hy (by rwa [hheld]) hheld
    · rintro rfl
      have hheld : update s.page (.table r i) pg (.dir r) = s.root r :=
        update_of_ne (show Holder.dir r ≠ Holder.table r i from nofun) _ _
      exact hlisted.ne_of_mem hy (by rwa [hheld]) hheld
  · rw [hroot'] at hr' ⊢
    by_cases hrr : r' = r
    · subst hrr
      rw [hself]
      by_cases hi' : i' = i
      · rw [hi', update_self, hx]
        exact fun _ => hpg
      · rw [update_of_ne hi']
        exact h.tables r' i' hr
    · have hw := hother (.dir r') (fun heq => hrr (Holder.dir.inj heq)) hr'
      change s'.mem.word (s.root r') = s.mem.word (s.root r') at hw
      rw [hw]
      exact h.tables r' i' hr'
  · rw [hpte]
    exact h.users r' e he
  · rw [hpage, update_of_ne hp.2]

end Inv

end Stores

end Moves

end Laboratorio.Vm
