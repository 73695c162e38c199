import Laboratorio.ExecLoad

/-! The image that `exec` builds. The pages of the new directory are those below the size, and each of them was free
before; so what is loaded from the file goes nowhere else, and the addresses that are used exist. -/

namespace Laboratorio.Vm

open Function

variable {R K : Type} [DecidableEq R]

/-- The variable `r` with the directory `d`. -/
def Space.holding (s : Space R K) (r : R) (d : Nat) (m : Memory) : Space R K :=
  { s with mem := m, root := update s.root r d }

theorem Space.root_holding (s : Space R K) (r : R) (d : Nat) (m : Memory) : (s.holding r d m).root r = d :=
  update_self _ _ _

theorem Space.pte_holding (s : Space R K) (r : R) (d : Nat) (m : Memory) :
    (s.holding r d m).pte r = pteOf m.word d := by
  funext e
  rw [Space.pte, Space.root_holding]
  rfl

/-- A directory that was made since `s`; whoever held a page then holds it with what is in it. -/
structure Built (s : Space R K) (r : R) (d lo hi : Nat) (m : Memory) : Prop where
  start : Inv s lo hi
  empty : s.root r = 0
  dir : d ≠ 0
  inv : Inv (s.holding r d m) lo hi
  frame : Frame (Apart r Set.univ ∅) s (s.holding r d m)

/-- The pages of the new directory are those below `sz`; the user may use them, but for those in `G`. -/
structure Staged (L : Layout) (G : Set (Index × Index)) (s : Space R K) (r : R) (d lo hi sz : Nat) (m : Memory) : Prop
    extends Built s r d lo hi m where
  mapped : (s.holding r d m).MappedTo r sz
  laid : (s.holding r d m).Laid L r G

variable {va : Nat}

section Staging

variable {L : Layout} {G : Set (Index × Index)} {s : Space R K} {r : R} {o : K} {d lo hi sz : Nat} {m m' : Memory}

theorem Built.root_ne_zero (h : Built s r d lo hi m) : (s.holding r d m).root r ≠ 0 := by
  rw [Space.root_holding]
  exact h.dir

theorem Built.walkpgdir (h : Built s r d lo hi m) (va : Nat) :
    ((walkpgdir m d va false).1 = none ∧ tableOf m.word d (PDX va) = 0) ∨
    ((walkpgdir m d va false).1 = some (tableOf m.word d (PDX va), PTX va) ∧ tableOf m.word d (PDX va) ≠ 0) := by
  have hwalk := h.inv.walkpgdir_false h.root_ne_zero va
  rw [Space.table, Space.root_holding] at hwalk
  exact hwalk

theorem Built.next {U : Set (Index × Index)} (h : Built s r d lo hi m) (hinv : Inv (s.holding r d m') lo hi)
    (hframe : Frame (Apart r U ∅) (s.holding r d m) (s.holding r d m')) : Built s r d lo hi m' := by
  refine ⟨h.start, h.empty, h.dir, hinv, h.frame.trans (hframe.mono fun p hp => ?_)⟩
  exact hp.mono (Set.subset_univ U) subset_rfl

theorem Built.fresh (h : Built s r d lo hi m) {e : Index × Index} (he : (s.holding r d m).page (.user r e) ≠ 0) :
    Free s.mem ((s.holding r d m).page (.user r e)) := by
  obtain ⟨l, hlisted⟩ := h.inv.books
  obtain ⟨hlo, hhi⟩ := hlisted.exact.range _ he
  refine (h.start.free_iff _).mpr ⟨hlo, hhi, fun p hp heq => ?_⟩
  have hapart : Apart r Set.univ ∅ p := by
    by_contra hnot
    exact hp (Space.page_of_root h.empty hnot)
  have hsame := h.frame.page p hapart
  have huser : p = .user r e := h.inv.inj (hsame.trans heq) (by rwa [hsame])
  rw [huser] at hapart
  exact hapart rfl (Set.mem_univ e)

theorem Built.freevm [DecidableEq K] (h : Built s r d lo hi m) (hpool : Pool L lo hi) :
    Ends (fun _ => False) (freevm L m d) fun m' => Inv { s with mem := m' } lo hi ∧
    Frame (fun _ => True) s { s with mem := m' } := by
  have hfree := h.inv.freevm hpool h.root_ne_zero
  rw [Space.root_holding] at hfree
  refine hfree.mono fun m' hm' => ?_
  have hback : update (s.holding r d m).root r 0 = s.root := update_back h.empty d
  rw [hback] at hm'
  obtain ⟨hinv, hframe⟩ := hm'
  exact ⟨hinv, (h.frame.trans hframe).full h.empty h.empty⟩

theorem Staged.allocuvm [DecidableEq K] (h : Staged L ∅ s r d lo hi sz m) (hpool : Pool L lo hi) (ho : s.keep o = 0)
    (newsz : Nat) : Ends (fun _ => False) (allocuvm L m d sz newsz) fun res => Built s r d lo hi res.2 ∧
        (res.1 ≠ 0 → Staged L ∅ s r d lo hi res.1 res.2 ∧ res.1 = max sz newsz ∧ newsz < KERNBASE) ∧
        (0 < newsz → newsz < KERNBASE → Room m (2 * (newsz / PGSIZE + 1)) → res.1 ≠ 0) := by
  have halloc := h.inv.allocuvm hpool (o := o) h.root_ne_zero ho sz newsz
  rw [Space.root_holding] at halloc
  refine (halloc.mono_stop ?_).mono ?_
  · intro err herr
    obtain ⟨-, hlt, e, he, hpresent⟩ := herr
    exact h.mapped.absent he hlt.le hpresent
  intro res hres
  obtain ⟨newsz', m'⟩ := res
  obtain ⟨hinv, hcases⟩ := hres
  rcases hcases with ⟨hzero, hcleared, hfull⟩ | ⟨hge, heq⟩ | ⟨hless, hlt, heq⟩ | ⟨heq, hle, hlt, hgrown, -⟩
  · exact ⟨h.next hinv hcleared.frame, fun hne => absurd hzero hne, fun _ _ hroom => absurd hroom hfull⟩
  · cases heq
    exact ⟨h.toBuilt, fun hne => absurd rfl hne, fun _ hlt => absurd hge (not_le.mpr hlt)⟩
  · cases heq
    exact ⟨h.toBuilt, fun _ => ⟨h, (Nat.max_eq_left hless.le).symm, hlt⟩,
      fun _ _ _ => Nat.ne_of_gt (Nat.zero_lt_of_lt hless)⟩
  · obtain rfl : newsz' = newsz := heq
    have hbuilt := h.next hinv hgrown.frame
    have hlaid := hgrown.laid h.laid fun e he => ⟨(isUser_iff e).mpr (he.2.trans hlt), Set.notMem_empty e⟩
    exact ⟨hbuilt, fun _ => ⟨⟨hbuilt, hgrown.mapped h.mapped hle, hlaid⟩, (Nat.max_eq_right hle).symm, hlt⟩,
      fun hpos _ _ => Nat.ne_of_gt hpos⟩

theorem Staged.present_entry (h : Staged L G s r d lo hi sz m) (hva : va < sz) (hsz : sz ≤ KERNBASE) :
    IsUser (PDX va) ∧ present ((s.holding r d m).pte r (entry va)) := by
  have huser : IsUser (PDX va) := PDX_isUser (hva.trans_le hsz)
  refine ⟨huser, (h.mapped (entry va) huser).mpr ?_⟩
  calc vaOf (entry va) = PGROUNDDOWN va := vaOf_entry (lt_of_kernbase (hva.trans_le hsz))
    _ ≤ va := Nat.div_mul_le_self va PGSIZE
    _ < sz := hva
    _ ≤ PGROUNDUP sz := le_PGROUNDUP sz

theorem Staged.clearpteu [DecidableEq K] (h : Staged L G s r d lo hi sz m) (hva : va < sz) (hsz : sz ≤ KERNBASE) :
    Ends (fun _ => False) (clearpteu m d va) (Staged L (insert (entry va) G) s r d lo hi sz) := by
  have hclear := h.inv.clearpteu h.root_ne_zero va
  rw [Space.root_holding] at hclear
  refine (hclear.mono_stop ?_).mono ?_
  · intro err herr
    exact herr.2 (h.present_entry hva hsz).2
  intro m' hm'
  obtain ⟨hinv, hpte, hframe⟩ := hm'
  refine ⟨h.next hinv hframe, fun e he => ?_, h.laid.guard (PDX_isUser (hva.trans_le hsz)) hpte⟩
  rw [← h.mapped e he]
  change present ({ s.holding r d m with mem := m' }.pte r e) ↔ _
  rw [hpte]
  by_cases hea : e = entry va
  · rw [hea, update_self]
    exact (clearU_bits _).1
  · rw [update_of_ne hea]

theorem Staged.put (h : Staged L G s r d lo hi sz m) {e : Index × Index} (he : IsUser e.1)
    (hpresent : present (pteOf m.word d e)) (words : Index → Nat) :
    Staged L G s r d lo hi sz (m.put (pteAddr (pteOf m.word d e)) words) ∧
      pteOf (m.put (pteAddr (pteOf m.word d e)) words).word d = pteOf m.word d ∧
      Free s.mem (pteAddr (pteOf m.word d e)) := by
  rw [← Space.pte_holding s r d m] at hpresent ⊢
  have hpage : (s.holding r d m).page (.user r e) = pteAddr ((s.holding r d m).pte r e) := by
    rw [Space.page_user he, frame_of_present hpresent]
  have hne := h.inv.users r e he hpresent
  rw [← hpage] at hne ⊢
  obtain ⟨hinv, -, hframe⟩ := h.inv.put hne nofun nofun words
  have hpte := funext (hframe.pte (r := r) fun i => nofun)
  refine ⟨⟨h.next hinv (hframe.mono fun p hp => ?_) (U := Set.univ), fun e' he' => ?_, h.laid.of_pte hpte⟩, ?_,
    h.fresh hne⟩
  · rintro rfl
    exact hp rfl (Set.mem_univ _)
  · have hsame := h.mapped e' he'
    rw [← hpte] at hsame
    exact hsame
  · rw [← hpte]
    exact (Space.pte_holding s r d _).symm

/-- `walkpgdir` finds the entry of an address below the size. Its page was free, and may be stored to. -/
theorem Staged.walk (h : Staged L G s r d lo hi sz m) (hva : va < sz) (hsz : sz ≤ KERNBASE) :
    ∃ pgtab, (walkpgdir m d va false).1 = some (pgtab, PTX va) ∧ present (m.word pgtab (PTX va)) ∧
      Free s.mem (pteAddr (m.word pgtab (PTX va))) ∧
      ∀ words, Staged L G s r d lo hi sz (m.put (pteAddr (m.word pgtab (PTX va))) words) := by
  obtain ⟨huser, hpresent⟩ := h.present_entry hva hsz
  rw [Space.pte_holding] at hpresent
  rcases h.toBuilt.walkpgdir va with ⟨-, hnone⟩ | ⟨hsome, htable⟩
  · rw [pteOf_none (e := entry va) hnone] at hpresent
    exact absurd hpresent not_present_zero
  · have hentry : pteOf m.word d (entry va) = m.word (tableOf m.word d (PDX va)) (PTX va) :=
      pteOf_eq (e := entry va) htable
    refine ⟨_, hsome, ?_⟩
    rw [← hentry]
    exact ⟨hpresent, (h.put huser hpresent fun _ => 0).2.2, fun words => (h.put huser hpresent words).1⟩

/-! ### `loaduvm` -/

/-- A store that went through a user entry to a page that was free. -/
structure Store.Fresh (s : Space R K) (st : Store) : Prop where
  user : st.va < KERNBASE
  present : Vm.present st.pte
  free : Free s.mem (pteAddr st.pte)

/-- The memory while the file is loaded. -/
structure Loading (L : Layout) (s : Space R K) (r : R) (d lo hi sz : Nat) (l : Load) : Prop where
  staged : Staged L ∅ s r d lo hi sz l.mem
  fresh : ∀ st ∈ l.stores, st.Fresh s

variable {l : Load} {file : List UInt8}

theorem Loading.copy (h : Loading L s r d lo hi sz l) (hva : va < sz) (hsz : sz ≤ KERNBASE) :
    ∃ pgtab, (walkpgdir l.mem d va false).1 = some (pgtab, PTX va) ∧
      ∀ src, Loading L s r d lo hi sz (l.copy va (l.mem.word pgtab (PTX va)) src) := by
  obtain ⟨pgtab, hwalk, hpresent, hfree, hput⟩ := h.staged.walk hva hsz
  refine ⟨pgtab, hwalk, fun src => ?_⟩
  unfold Load.copy
  split
  · exact h
  · refine ⟨hput _, fun st hst => ?_⟩
    rcases List.mem_append.mp hst with hold | hnew
    · exact h.fresh st hold
    · obtain rfl : st = ⟨va, l.mem.word pgtab (PTX va)⟩ := List.mem_singleton.mp hnew
      exact ⟨hva.trans_le hsz, hpresent, hfree⟩

theorem Loading.loadLoop (h : Loading L s r d lo hi sz l) (hsz : sz ≤ KERNBASE) {addr n : Nat} (hend : addr + n ≤ sz)
    (offset : Nat) {fuel i : Nat} (hfuel : n ≤ i + fuel * PGSIZE) :
    Ends (fun _ => False) (loadLoop d addr file offset n fuel l i) fun res => Loading L s r d lo hi sz res.2 := by
  induction fuel generalizing l i with
  | zero =>
    rw [Vm.loadLoop, if_neg (by omega)]
    exact .ok h
  | succ fuel ih =>
    rw [Vm.loadLoop]
    split
    case isFalse hge => exact .ok h
    case isTrue hlt =>
      obtain ⟨pgtab, hwalk, hcopy⟩ := h.copy (show addr + i < sz by omega) hsz
      rw [hwalk]
      dsimp only
      generalize (if n - i < PGSIZE then n - i else PGSIZE) = count
      split
      · exact .ok (hcopy _)
      · exact ih (hcopy _) (by rw [Nat.succ_mul] at hfuel; omega)

theorem Loading.loaduvm (h : Loading L s r d lo hi sz l) (hsz : sz ≤ KERNBASE) {addr n : Nat}
    (haligned : addr % PGSIZE = 0) (hend : addr + n ≤ sz) (offset : Nat) :
    Ends (fun _ => False) (loaduvm l d addr file offset n) fun res => Loading L s r d lo hi sz res.2 := by
  unfold Vm.loaduvm
  rw [if_neg (not_not.mpr haligned)]
  exact h.loadLoop hsz hend offset (by simp only [PGSIZE]; omega)

/-! ### The program headers -/

/-- What `goto bad` finds. -/
structure Stopped (s : Space R K) (r : R) (d lo hi : Nat) (l : Load) : Prop where
  built : Built s r d lo hi l.mem
  fresh : ∀ st ∈ l.stores, st.Fresh s

theorem Loading.stopped (h : Loading L s r d lo hi sz l) : Stopped s r d lo hi l := ⟨h.staged.toBuilt, h.fresh⟩

theorem proghdr_lt (b : List UInt8) : (proghdr b).vaddr < 2 ^ 32 ∧ (proghdr b).memsz < 2 ^ 32 :=
  ⟨Bytes.getLE_lt _ 8 4, Bytes.getLE_lt _ 20 4⟩

/-- A segment ends below the size after it, since `filesz ≤ memsz` and the sum does not wrap. -/
theorem segment_end {vaddr filesz memsz : Nat} (hfile : ¬memsz < filesz) (hwrap : ¬(vaddr + memsz) % 2 ^ 32 < vaddr)
    (hvaddr : vaddr < 2 ^ 32) (hmemsz : memsz < 2 ^ 32) : vaddr + filesz ≤ (vaddr + memsz) % 2 ^ 32 := by
  omega

theorem Loading.loadSegments [DecidableEq K] (h : Loading L s r d lo hi sz l) (hpool : Pool L lo hi) (ho : s.keep o = 0)
    (hsz : sz < KERNBASE) (left off : Nat) :
    Ends (fun _ => False) (loadSegments L d file left off sz l) fun res =>
      Stopped s r d lo hi res.2 ∧ ∀ sz', res.1 = some sz' → Loading L s r d lo hi sz' res.2 ∧ sz' < KERNBASE := by
  induction left generalizing l sz off with
  | zero =>
    refine .ok ⟨h.stopped, fun sz' hres => ?_⟩
    cases hres
    exact ⟨h, hsz⟩
  | succ left ih =>
    rw [Vm.loadSegments]
    dsimp only
    generalize readi file off sizeofProghdr = header
    obtain ⟨count, b⟩ := header
    dsimp only
    split
    · exact .ok ⟨h.stopped, nofun⟩
    split
    · exact ih h hsz _
    split
    · exact .ok ⟨h.stopped, nofun⟩
    rename_i hfile
    split
    · exact .ok ⟨h.stopped, nofun⟩
    rename_i hwrap
    have hend := segment_end hfile hwrap (proghdr_lt b).1 (proghdr_lt b).2
    refine ((h.staged.allocuvm hpool ho _).mapError fun _ => False.elim).bind ?_
    rintro ⟨newsz, m'⟩ ⟨hbuilt, hstaged, -⟩
    dsimp only at hbuilt hstaged ⊢
    split
    · exact .ok ⟨⟨hbuilt, h.fresh⟩, nofun⟩
    rename_i hne
    obtain ⟨hstaged', hmax, hlt⟩ := hstaged hne
    have hnewsz : newsz < KERNBASE := by
      rw [hmax]
      exact max_lt hsz hlt
    split
    · exact .ok ⟨⟨hbuilt, h.fresh⟩, nofun⟩
    rename_i haligned
    have hload : Loading L s r d lo hi newsz { l with mem := m' } := ⟨hstaged', h.fresh⟩
    have hin : (proghdr b).vaddr + (proghdr b).filesz ≤ newsz := by
      rw [hmax]
      exact hend.trans (Nat.le_max_right _ _)
    refine (hload.loaduvm hnewsz.le (not_not.mp haligned) hin _).bind ?_
    rintro ⟨res, l'⟩ hl'
    dsimp only at hl' ⊢
    split
    · exact .ok ⟨hl'.stopped, nofun⟩
    · exact ih hl' hnewsz _

end Staging

end Laboratorio.Vm
