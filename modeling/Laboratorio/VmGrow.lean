import Laboratorio.VmRun

/-! `growproc` of a process whose pages are those below its size. It grows and shrinks exactly, and fails without
effect, unless a process with memory asks to give back all of it or more. -/

namespace Laboratorio.Vm

open Function

variable {R K : Type}

/-- The user pages below the size are mapped, and no others. -/
def Space.MappedTo (s : Space R K) (r : R) (sz : Nat) : Prop :=
  ∀ e, IsUser e.1 → (present (s.pte r e) ↔ vaOf e < PGROUNDUP sz)

/-- The entries of a directory as the calls leave them: those of the kernel are the ones of `setupkvm`, and the user may
use the pages that are mapped, but for the guard pages in `G`. -/
structure Space.Laid (L : Layout) (s : Space R K) (r : R) (G : Set (Index × Index)) : Prop where
  kernel : ∀ e, ¬IsUser e.1 → s.pte r e = kernelPte L e
  user : ∀ e, IsUser e.1 → present (s.pte r e) → (forUser (s.pte r e) ↔ e ∉ G)

/-- The user page at an entry is what it was, with what is in it. -/
def Space.SamePage (s s' : Space R K) (r : R) (e : Index × Index) : Prop :=
  s'.page (.user r e) = s.page (.user r e) ∧
    (s.page (.user r e) ≠ 0 → s'.mem.word (s.page (.user r e)) = s.mem.word (s.page (.user r e)))

/-- What `growproc(n)` is to do for a size `sz`: on success the size is the sum and the pages are those below it; on
failure nothing changes. -/
structure GrowsExactly (s : Space R K) (r : R) (sz : Nat) (n : Int) (res : Int × Nat × Memory) : Prop where
  result : res.1 = 0 ∨ res.1 = -1
  exact : res.1 = 0 → (res.2.1 : Int) = sz + n ∧ 0 ≤ sz + n ∧ sz + n < KERNBASE ∧
    { s with mem := res.2.2 }.MappedTo r res.2.1 ∧
    ∀ e, IsUser e.1 → vaOf e < min sz res.2.1 → s.SamePage { s with mem := res.2.2 } r e
  unchanged : res.1 = -1 → res.2.1 = sz ∧ ∀ e, IsUser e.1 → s.SamePage { s with mem := res.2.2 } r e

variable {U : Set (Index × Index)}

section

variable {s s' : Space R K} {r : R} {a b : Nat} {e : Index × Index}

theorem lt_PGROUNDUP_iff (e : Index × Index) (sz : Nat) : vaOf e < PGROUNDUP sz ↔ vaOf e < sz := by
  have haligned := vaOf_aligned e
  simp only [PGROUNDUP, PGSIZE] at haligned ⊢
  omega

theorem Space.SamePage.of_frame {S : Holder R K → Prop} (h : Frame S s s') (he : S (.user r e)) : s.SamePage s' r e :=
  ⟨h.page _ he, h.word _ he⟩

theorem Space.SamePage.of_absent (h : ¬present (s.pte r e)) (h' : ¬present (s'.pte r e)) : s.SamePage s' r e := by
  have hpage : s.page (.user r e) = 0 := by rw [page, frame_of_not_present h, ite_self]
  refine ⟨?_, fun hne => absurd hpage hne⟩
  rw [hpage, page, frame_of_not_present h', ite_self]

theorem Cleared.samePage (h : Cleared r (Span a b) s s') (he : e ∉ Span a b) : s.SamePage s' r e :=
  .of_frame h.frame fun _ => he

theorem GrowsExactly.failed (s : Space R K) (r : R) (sz : Nat) (n : Int) : GrowsExactly s r sz n (-1, sz, s.mem) :=
  ⟨Or.inr rfl, nofun, fun _ => ⟨rfl, fun _ _ => ⟨rfl, fun _ => rfl⟩⟩⟩

theorem GrowsExactly.zero {sz : Nat} (hsz : sz < KERNBASE) (hmapped : s.MappedTo r sz) :
    GrowsExactly s r sz 0 (0, sz, s.mem) := by
  refine ⟨Or.inl rfl, fun _ => ⟨?_, ?_, ?_, hmapped, fun _ _ _ => ⟨rfl, fun _ => rfl⟩⟩, nofun⟩
  · dsimp only
    omega
  · omega
  · omega

theorem Space.MappedTo.absent {sz n : Nat} (h : s.MappedTo r sz) (he : e ∈ Span (PGROUNDUP sz) n) (hn : n ≤ KERNBASE) :
    ¬present (s.pte r e) := by
  intro hpresent
  have huser : IsUser e.1 := (isUser_iff e).mpr (he.2.trans_le hn)
  exact absurd he.1 (not_le.mpr ((h e huser).mp hpresent))

theorem Grown.mapped {sz n : Nat} (h : Grown r (Span (PGROUNDUP sz) n) U s s') (hmapped : s.MappedTo r sz)
    (hle : sz ≤ n) : s'.MappedTo r n := by
  intro e he
  rw [lt_PGROUNDUP_iff]
  by_cases hspan : e ∈ Span (PGROUNDUP sz) n
  · exact iff_of_true (h.filled e hspan) hspan.2
  rw [h.same e hspan, hmapped e he]
  have hup := lt_PGROUNDUP_iff e sz
  constructor
  · intro hlow
    exact (hup.mp hlow).trans_le hle
  · intro hlow
    by_contra hge
    exact hspan ⟨not_lt.mp hge, hlow⟩

section Laid

variable {L : Layout} {G U U' : Set (Index × Index)}

theorem Space.Laid.of_pte (h : s.Laid L r G) (hpte : s'.pte r = s.pte r) : s'.Laid L r G := by
  refine ⟨fun e he => ?_, fun e he => ?_⟩
  · rw [hpte]
    exact h.kernel e he
  · rw [hpte]
    exact h.user e he

theorem Grown.laid (h : Grown r U U' s s') (hlaid : s.Laid L r G) (hU : ∀ e ∈ U, IsUser e.1 ∧ e ∉ G) :
    s'.Laid L r G := by
  refine ⟨fun e he => ?_, fun e he hpresent => ?_⟩
  · rw [h.same e fun hu => he (hU e hu).1]
    exact hlaid.kernel e he
  · by_cases hu : e ∈ U
    · exact iff_of_true (h.opened e hu) (hU e hu).2
    · rw [h.same e hu] at hpresent ⊢
      exact hlaid.user e he hpresent

theorem Space.Laid.guard {e : Index × Index} (h : s.Laid L r G) (he : IsUser e.1)
    (hpte : s'.pte r = update (s.pte r) e (clearU (s.pte r e))) : s'.Laid L r (insert e G) := by
  refine ⟨fun e' he' => ?_, fun e' he' hpresent => ?_⟩
  · have hne : e' ≠ e := by
      rintro rfl
      exact he' he
    rw [hpte, update_of_ne hne]
    exact h.kernel e' he'
  · by_cases hee : e' = e
    · rw [hee, hpte, update_self]
      exact iff_of_false (clearU_bits _).2.2 (not_not.mpr (Set.mem_insert e G))
    · rw [hpte, update_of_ne hee] at hpresent ⊢
      rw [h.user e' he' hpresent, Set.mem_insert_iff, not_or, and_iff_right hee]

end Laid

end

theorem growproc_zero (L : Layout) (m : Memory) (d sz : Nat) : growproc L m d sz 0 = .ok (0, sz, m) := by
  unfold growproc
  rw [if_neg (by omega), if_neg (by omega)]

variable {L : Layout} {s : Space R K} {lo hi : Nat} {r : R} {o : K} {sz : Nat} {n : Int} [DecidableEq R] [DecidableEq K]

theorem Inv.growproc_up (h : Inv s lo hi) (hpool : Pool L lo hi) (hr : s.root r ≠ 0) (ho : s.keep o = 0)
    (hsz : sz < KERNBASE) (hmapped : s.MappedTo r sz) (hpos : 0 < n) (hn : n < 2 ^ 31) :
    Ends (fun _ => False) (Vm.growproc L s.mem (s.root r) sz n) (GrowsExactly s r sz n) := by
  obtain ⟨k, rfl⟩ := Int.eq_ofNat_of_zero_le hpos.le
  have hsum : addInt sz k = sz + k := by
    simp only [KERNBASE] at hsz
    unfold addInt
    omega
  unfold Vm.growproc
  rw [if_pos hpos, hsum]
  refine ((h.allocuvm hpool hr ho sz (sz + k)).mono_stop fun err herr => ?_).bind fun res hres => ?_
  · obtain ⟨-, hlt, e, he, hpresent⟩ := herr
    exact hmapped.absent he hlt.le hpresent
  obtain ⟨newsz, m⟩ := res
  dsimp only at hres ⊢
  rcases hres.2 with ⟨hzero, hcleared, -⟩ | ⟨-, heq⟩ | ⟨hless, -⟩ | ⟨hres', -, hlt, hgrown, -⟩
  · -- Out of memory: what was mapped is unmapped again.
    rw [if_pos hzero]
    refine .ok ⟨Or.inr rfl, nofun, fun _ => ⟨rfl, fun e he => ?_⟩⟩
    by_cases hspan : e ∈ Span (PGROUNDUP sz) (sz + k)
    · refine .of_absent (fun hpresent => ?_) (hcleared.gone e hspan)
      exact absurd hspan.1 (not_le.mpr ((hmapped e he).mp hpresent))
    · exact hcleared.samePage hspan
  · cases heq
    exact .ok (.failed s r sz _)
  · omega
  · rw [if_neg (by omega)]
    refine .ok ⟨Or.inl rfl, fun _ => ⟨?_, by omega, by omega, ?_, fun e he hlow => ?_⟩, nofun⟩
    · dsimp only
      omega
    · dsimp only
      rw [hres']
      exact hgrown.mapped hmapped (by omega)
    · refine .of_frame hgrown.frame fun _ hspan => ?_
      have hup := le_PGROUNDUP sz
      have := hspan.1
      omega

theorem Inv.growproc_down (h : Inv s lo hi) (hpool : Pool L lo hi) (hr : s.root r ≠ 0) (hsz : sz < KERNBASE)
    (hmapped : s.MappedTo r sz) (hneg : n < 0) (hleft : 0 < sz + n) :
    Ends (fun _ => False) (Vm.growproc L s.mem (s.root r) sz n) (GrowsExactly s r sz n) := by
  obtain ⟨newsz, hnewsz⟩ := Int.eq_ofNat_of_zero_le hleft.le
  have hsum : addInt sz n = newsz := by
    simp only [KERNBASE] at hsz
    unfold addInt
    omega
  unfold Vm.growproc
  rw [if_neg (by omega), if_pos hneg, hsum]
  refine (h.deallocuvm hpool hr hsz.le).bind fun res hres => ?_
  obtain ⟨size, m⟩ := res
  obtain ⟨hres', -, hcleared⟩ := hres
  dsimp only at hres' hcleared ⊢
  rw [Nat.min_eq_right (by omega)] at hres'
  rw [if_neg (by omega)]
  refine .ok ⟨Or.inl rfl, fun _ => ⟨?_, by omega, by omega, fun e he => ?_, fun e he hlow => ?_⟩, nofun⟩
  · dsimp only
    omega
  · dsimp only
    rw [hres']
    by_cases hspan : e ∈ Span (PGROUNDUP newsz) sz
    · exact iff_of_false (hcleared.gone e hspan) (not_lt.mpr hspan.1)
    rw [hcleared.same e hspan, hmapped e he, lt_PGROUNDUP_iff, lt_PGROUNDUP_iff]
    have hup := lt_PGROUNDUP_iff e newsz
    constructor
    · intro hlow
      apply hup.mp
      by_contra hge
      exact hspan ⟨not_lt.mp hge, hlow⟩
    · intro hlow
      omega
  · refine hcleared.samePage fun hspan => ?_
    have hup := le_PGROUNDUP newsz
    have := hspan.1
    dsimp only at hlow
    omega

theorem growproc_wrap (hsz : sz < KERNBASE) (hn : -2 ^ 31 ≤ n) (hneg : sz + n < 0) (m : Memory) (d : Nat) :
    Vm.growproc L m d sz n = .ok (if sz = 0 then -1 else 0, sz, m) := by
  have hle : sz ≤ addInt sz n := by
    simp only [KERNBASE] at hsz
    unfold addInt
    omega
  unfold Vm.growproc Vm.deallocuvm
  rw [if_neg (by omega), if_pos (by omega), if_pos hle, ok_bind]
  by_cases hzero : sz = 0
  · simp [hzero, pure_eq_ok]
  · simp [hzero, pure_eq_ok]

theorem Inv.growproc_all (h : Inv s lo hi) (hpool : Pool L lo hi) (hr : s.root r ≠ 0) (hsz : sz < KERNBASE)
    (hpos : 0 < sz) : Ends (fun _ => False) (Vm.growproc L s.mem (s.root r) sz (-sz)) fun res =>
      res.1 = -1 ∧ ∀ e, vaOf e < sz → ¬present ({ s with mem := res.2.2 }.pte r e) := by
  have hsum : addInt sz (-sz) = 0 := by
    unfold addInt
    omega
  unfold Vm.growproc
  rw [if_neg (by omega), if_pos (by omega), hsum]
  refine (h.deallocuvm hpool hr hsz.le).bind fun res hres => ?_
  obtain ⟨size, m⟩ := res
  obtain ⟨hres', -, hcleared⟩ := hres
  dsimp only at hres' hcleared ⊢
  rw [if_pos (by omega)]
  exact .ok ⟨rfl, fun e he => hcleared.gone e ⟨Nat.zero_le _, he⟩⟩

/-- `growproc` of a process whose pages are those below its size is exact or without effect, unless the process has
memory and `n` takes all of it or more: it never panics, and on every other `int` it is right. -/
theorem growproc_exact_iff {L : Layout} {s : Kernel} {k : Procs.Slot} {n : Int} (h : s.Sound L) (hrun : s.Running k)
    (hmapped : s.space.MappedTo (.proc k) (s.proc k).sz) (hn : -2 ^ 31 ≤ n ∧ n < 2 ^ 31) :
    ∃ res, growproc L s.mem (s.proc k).pgdir (s.proc k).sz n = .ok res ∧
      (GrowsExactly s.space (.proc k) (s.proc k).sz n res ↔ ¬(0 < (s.proc k).sz ∧ (s.proc k).sz + n ≤ 0)) := by
  obtain ⟨hroot, hdir⟩ := h.root_of_live hrun
  have hsz := (h.procs k).size
  generalize (s.proc k).sz = sz at hmapped hsz
  rw [← hroot] at hdir ⊢
  have hsome : ∀ {n}, Ends (fun _ => False) (growproc L s.mem (s.root (.proc k)) sz n)
    (GrowsExactly s.space (.proc k) sz n) →
      ¬(0 < sz ∧ sz + n ≤ 0) →
      ∃ res, growproc L s.mem (s.root (.proc k)) sz n = .ok res ∧
        (GrowsExactly s.space (.proc k) sz n res ↔ ¬(0 < sz ∧ sz + n ≤ 0)) := by
    intro n hends hfine
    obtain ⟨res, hres, hexact⟩ := hends.exists_ok
    exact ⟨res, hres, iff_of_true hexact hfine⟩
  rcases lt_trichotomy n 0 with hneg | hzero | hpos
  · rcases lt_trichotomy (sz + n) 0 with hwrap | hall | hleft
    · have hrun' := growproc_wrap (L := L) hsz hn.1 hwrap s.mem (s.root (.proc k))
      by_cases hempty : sz = 0
      · rw [if_pos hempty] at hrun'
        exact ⟨_, hrun', iff_of_true (.failed s.space _ sz n) (by omega)⟩
      · rw [if_neg hempty] at hrun'
        refine ⟨_, hrun', iff_of_false (fun hexact => ?_) (by omega)⟩
        have hsum := (hexact.exact rfl).1
        omega
    · obtain rfl : n = -sz := by omega
      obtain ⟨res, hres, hfail, hgone⟩ := (h.inv.growproc_all h.pool (r := Dir.proc k) hdir hsz (by omega)).exists_ok
      refine ⟨res, hres, iff_of_false (fun hexact => ?_) (by omega)⟩
      -- The first page was there.
      have huser : IsUser (entry 0).1 := by decide
      have hfirst : vaOf (entry 0) < sz := by
        rw [show vaOf (entry 0) = 0 by decide]
        omega
      have hpresent := (hmapped _ huser).mpr ((lt_PGROUNDUP_iff _ _).mpr hfirst)
      have hsame := ((hexact.unchanged hfail).2 _ huser).1
      rw [Space.page_user huser, Space.page_user huser, frame_of_not_present (hgone _ hfirst),
        frame_of_present hpresent] at hsame
      exact h.inv.users _ _ huser hpresent hsame.symm
    · exact hsome (h.inv.growproc_down h.pool (r := Dir.proc k) hdir hsz hmapped hneg hleft) (by omega)
  · subst hzero
    exact ⟨_, growproc_zero L _ _ _, iff_of_true (.zero hsz hmapped) (by omega)⟩
  · exact hsome (h.inv.growproc_up h.pool (r := Dir.proc k) (o := Keep.mem) hdir rfl hsz hmapped hpos hn.2) (by omega)

/-! ### A process with one page -/

def fourPages : Layout := ⟨KERNLINK + PGSIZE, KERNBASE + 1020 * PGSIZE, data_aligned_page,
    link_lt_page, by decide, by decide⟩

def onePage : Kernel where
  mem :=
    { word := fun pg i => if i.val = 0 then
        if pg = 1020 then 1021 * PGSIZE + 7 else if pg = 1021 then 1022 * PGSIZE + 7 else 0
      else 0
      freelist := 0 }
  top := 1024
  kpgdir := 0
  proc k := if k = Procs.INITPROC then { stage := .live, kstack := 1023, pgdir := 1020, sz := PGSIZE, exec := .none }
    else { stage := .unused, kstack := 0, pgdir := 0, sz := 0, exec := .none }
  pipe _ := 0
  cpustack _ := 0

theorem onePage_root (r : Dir) : onePage.space.root r = if r = .proc 0 then 1020 else 0 := by
  cases r with
  | kernel => rfl
  | proc k =>
    by_cases hk : k = 0
    · rw [hk]
      rfl
    · simp [Kernel.space, Kernel.root, onePage, hk, Proc.root]
  | exec k =>
    by_cases hk : k = 0
    · rw [hk]
      rfl
    · simp [Kernel.space, Kernel.root, onePage, hk, Exec.root]

theorem onePage_table (r : Dir) (i : Index) : onePage.space.table r i = if r = .proc 0 ∧ i = 0 then 1021 else 0 := by
  rw [Space.table, onePage_root]
  by_cases hr : r = .proc 0
  · by_cases hi : i = 0
    · simp only [hr, hi]
      decide
    · simp [hr, hi, tableOf, onePage, Kernel.space, frame, present]
  · simp [hr, tableOf_zero]

theorem onePage_pte (r : Dir) (e : Index × Index) :
    onePage.space.pte r e = if r = .proc 0 ∧ e = (0, 0) then 1022 * PGSIZE + 7 else 0 := by
  have htable := onePage_table r e.1
  by_cases hr : r = .proc 0 ∧ e.1 = 0
  · rw [if_pos hr] at htable
    have hpte : onePage.space.pte r e = onePage.space.mem.word 1021 e.2 := by
      rw [← htable]
      exact pteOf_eq (by
        change onePage.space.table r e.1 ≠ 0
        rw [htable]
        decide)
    rw [hpte]
    by_cases he : e.2 = 0
    · rw [if_pos ⟨hr.1, Prod.ext hr.2 he⟩, he]
      rfl
    · rw [if_neg fun hc => he (congrArg Prod.snd hc.2)]
      exact if_neg fun h => he (Fin.ext h)
  · rw [if_neg hr] at htable
    rw [if_neg fun hc => hr ⟨hc.1, congrArg Prod.fst hc.2⟩]
    exact pteOf_none htable

def onePageHolder : Fin 4 → Holder Dir Keep
  | 0 => .dir (.proc Procs.INITPROC)
  | 1 => .table (.proc Procs.INITPROC) (PDX 0)
  | 2 => .user (.proc Procs.INITPROC) (entry 0)
  | 3 => .kept (.kstack Procs.INITPROC)

theorem onePage_holder (i : Fin 4) : onePage.space.page (onePageHolder i) = 1020 + i.val := by
  match i with
  | 0 => rfl
  | 1 => exact onePage_table _ _
  | 2 =>
    change (if IsUser 0 then frame (onePage.space.pte (.proc 0) (0, 0)) else 0) = 1022
    rw [onePage_pte]
    decide
  | 3 => rfl

theorem onePage_held (p : Holder Dir Keep) (hp : onePage.space.page p ≠ 0) : ∃ i, onePageHolder i = p := by
  cases p with
  | dir r =>
    refine ⟨0, ?_⟩
    by_contra hne
    refine hp ((onePage_root r).trans (if_neg fun hr => hne ?_))
    rw [hr]
    rfl
  | table r i =>
    refine ⟨1, ?_⟩
    by_contra hne
    refine hp ((onePage_table r i).trans (if_neg fun hc => hne ?_))
    rw [hc.1, hc.2]
    rfl
  | user r e =>
    refine ⟨2, ?_⟩
    by_contra hne
    refine hp ?_
    have hnot : ¬(r = .proc 0 ∧ e = (0, 0)) := by
      intro hc
      rw [hc.1, hc.2] at hne
      exact hne rfl
    rw [Space.page, onePage_pte, if_neg hnot, frame_zero, ite_self]
  | kept o =>
    cases o with
    | kstack k =>
      refine ⟨3, ?_⟩
      by_contra hne
      refine hp (?_ : (onePage.proc k).kstack = 0)
      have hk : k ≠ 0 := fun hk => hne (by rw [hk]; rfl)
      simp [onePage, hk]
    | cpustack cpu | pipe i | mem => exact absurd rfl hp

theorem onePage_sound : onePage.Sound fourPages := by
  have hfirst : fourPages.first = 1020 := by decide
  have hexact : Exact onePage.space.page 1020 1024 fun x => decide (x ∉ ([] : List Nat)) := by
    refine Exact.mk (fun p hp => ?_) (fun p q heq hp => ?_) fun b hb => ?_
    · obtain ⟨i, rfl⟩ := onePage_held p hp
      rw [onePage_holder]
      omega
    · obtain ⟨i, rfl⟩ := onePage_held p hp
      rw [heq] at hp
      obtain ⟨j, rfl⟩ := onePage_held q hp
      rw [onePage_holder, onePage_holder] at heq
      rw [show i = j from Fin.ext (by omega)]
    · refine iff_of_true (by simp) ?_
      by_cases hlt : b < 1020
      · exact Or.inl hlt
      · have hpage := onePage_holder ⟨b - 1020, by omega⟩
        rw [show 1020 + (b - 1020) = b by omega] at hpage
        exact Or.inr ⟨_, by omega, hpage⟩
  refine ⟨⟨⟨[], rfl, List.nodup_nil, nofun, ?_⟩, fun r i hr hpresent => ?_, fun r e _ hpresent => ?_⟩, Or.inl rfl,
    fun k => ?_⟩
  · rw [hfirst]
    exact hexact
  · have hroot := onePage_root r
    by_cases hc : r = .proc 0
    · rw [if_pos hc] at hroot
      rw [hroot] at hpresent ⊢
      by_cases hi : i = 0
      · rw [hi]
        decide
      · have hword : onePage.space.mem.word 1020 i = 0 := if_neg fun h => hi (Fin.ext h)
        rw [hword] at hpresent
        exact absurd hpresent not_present_zero
    · rw [if_neg hc] at hroot
      exact absurd hroot hr
  · rw [onePage_pte] at hpresent ⊢
    split at hpresent
    · rename_i hc
      rw [if_pos hc]
      decide
    · exact absurd hpresent not_present_zero
  · by_cases hk : k = 0
    · rw [hk]
      exact ⟨by decide, nofun, nofun, fun _ => by decide, nofun⟩
    · have hproc : onePage.proc k = { stage := .unused, kstack := 0, pgdir := 0, sz := 0, exec := .none } := if_neg hk
      rw [hproc]
      exact Proc.Good.unused

theorem onePage_mapped : onePage.space.MappedTo (.proc 0) PGSIZE := by
  intro e _
  rw [onePage_pte, lt_PGROUNDUP_iff]
  by_cases he : e = (0, 0)
  · subst he
    decide
  · rw [if_neg fun hc => he hc.2]
    refine iff_of_false not_present_zero fun hlt => he ?_
    have haligned := vaOf_aligned e
    apply vaOf_inj
    rw [show vaOf (0, 0) = 0 by decide]
    simp only [PGSIZE] at haligned hlt
    omega

/-- The process asks for two pages less than none: it is told that it succeeded. It gives back its only page: it is told
that it failed, and the page is gone. -/
theorem growproc_not_exact : onePage.Sound fourPages ∧ onePage.Running 0 ∧ onePage.space.MappedTo (.proc 0)
    (onePage.proc 0).sz ∧ growproc fourPages onePage.mem 1020 PGSIZE (-8192) = .ok (0, PGSIZE, onePage.mem) ∧
    ¬GrowsExactly onePage.space (.proc 0) PGSIZE (-8192) (0, PGSIZE, onePage.mem) ∧
    ∃ m, growproc fourPages onePage.mem 1020 PGSIZE (-4096) = .ok (-1, PGSIZE, m) ∧ m.word 1021 0 = 0 := by
  refine ⟨onePage_sound, by decide, onePage_mapped, rfl, fun hexact => ?_, _, rfl, by decide⟩
  have hsum := (hexact.exact rfl).1
  simp at hsum

theorem growproc_exact_onePage : ∃ res, growproc fourPages onePage.mem 1020 PGSIZE (-100) = .ok res ∧
    GrowsExactly onePage.space (.proc 0) PGSIZE (-100) res := by
  obtain ⟨res, hres, hiff⟩ :=
    growproc_exact_iff (n := -100) onePage_sound (show onePage.Running 0 by decide) onePage_mapped (by decide)
  exact ⟨res, hres, hiff.mpr (by decide)⟩

/-! ### `deallocuvm` of any table -/

omit [DecidableEq R] [DecidableEq K] in
theorem Cleared.page {s s' : Space R K} (h : Cleared r U s s') (hroot : s'.root r = s.root r)
    (htable : s'.table r = s.table r) (p : Holder R K) :
    ((∃ e ∈ U, p = .user r e) ∧ s'.page p = 0) ∨ ((∀ e ∈ U, p ≠ .user r e) ∧ s'.page p = s.page p) := by
  by_cases hp : ∃ e ∈ U, p = .user r e
  · obtain ⟨e, he, rfl⟩ := hp
    refine Or.inl ⟨⟨e, he, rfl⟩, ?_⟩
    rw [Space.page, frame_of_not_present (h.gone e he), ite_self]
  · push Not at hp
    refine Or.inr ⟨hp, ?_⟩
    by_cases hapart : Apart r U ∅ p
    · exact h.frame.page p hapart
    · cases p with
      | dir r' =>
        obtain rfl := not_not.mp hapart
        exact hroot
      | table r' i =>
        obtain rfl := not_not.mp hapart
        exact congrFun htable i
      | user r' e =>
        refine absurd (fun heq he => ?_) hapart
        exact hp e he (by rw [heq])
      | kept o => exact absurd (Set.notMem_empty o) hapart

omit [DecidableEq R] [DecidableEq K] in
theorem Inv.free_dealloc {m : Memory} (h : Inv s lo hi) (h' : Inv { s with mem := m } lo hi)
    (hcleared : Cleared r U s { s with mem := m }) (htable : { s with mem := m }.table r = s.table r)
    (hU : ∀ e ∈ U, IsUser e.1) (pg : Nat) :
    Free m pg ↔ Free s.mem pg ∨ ∃ e ∈ U, present (s.pte r e) ∧ pteAddr (s.pte r e) = pg := by
  have hpage := hcleared.page rfl htable
  have hheld : ∀ e ∈ U, present (s.pte r e) → s.page (.user r e) = pteAddr (s.pte r e) := by
    intro e he hpresent
    rw [Space.page_user (hU e he), frame_of_present hpresent]
  constructor
  · intro hfree
    obtain ⟨hlo, hhi, hno⟩ := (h'.free_iff pg).mp hfree
    by_contra hcon
    rw [not_or] at hcon
    refine hcon.1 ((h.free_iff pg).mpr ⟨hlo, hhi, fun p hp heq => ?_⟩)
    rcases hpage p with ⟨⟨e, he, rfl⟩, -⟩ | ⟨-, hsame⟩
    · by_cases hpresent : present (s.pte r e)
      · exact hcon.2 ⟨e, he, hpresent, (hheld e he hpresent).symm.trans heq⟩
      · refine hp ?_
        rw [Space.page_user (hU e he), frame_of_not_present hpresent]
    · rw [← hsame] at hp heq
      exact hno p hp heq
  · intro hcase
    -- Whoever held the page held it as a page in `U`.
    have hrange : lo ≤ pg ∧ pg < hi ∧ ∀ p, s.page p ≠ 0 → s.page p = pg → ∃ e ∈ U, p = .user r e := by
      rcases hcase with hfree | ⟨e, he, hpresent, rfl⟩
      · obtain ⟨hlo, hhi, hno⟩ := (h.free_iff pg).mp hfree
        exact ⟨hlo, hhi, fun p hp heq => absurd heq (hno p hp)⟩
      · obtain ⟨l, hlisted⟩ := h.books
        have hne := h.users r e (hU e he) hpresent
        rw [← hheld e he hpresent] at hne ⊢
        obtain ⟨hlo, hhi⟩ := hlisted.exact.range _ hne
        exact ⟨hlo, hhi, fun p hp heq => ⟨e, he, h.inj heq hp⟩⟩
    obtain ⟨hlo, hhi, howner⟩ := hrange
    refine (h'.free_iff pg).mpr ⟨hlo, hhi, fun p hp heq => ?_⟩
    rcases hpage p with ⟨-, hzero⟩ | ⟨hnot, hsame⟩
    · exact hp hzero
    · rw [hsame] at hp heq
      obtain ⟨e, he, rfl⟩ := howner p hp heq
      exact hnot e he rfl

/-- `deallocuvm` does to any table what a loop over every page of the range does. In a table of the kernel it completes:
the entries of the range are cleared, their pages are freed, and nothing else changes. -/
theorem deallocuvm_exact (L : Layout) {oldsz newsz : Nat} (hle : oldsz ≤ KERNBASE) (hlt : newsz < oldsz) :
    (∀ m pgdir fuel, oldsz / PGSIZE < fuel → deallocLoop L pgdir oldsz fuel m (PGROUNDUP newsz) =
      visitPages L pgdir (pagesTo (PGROUNDUP newsz) oldsz) m (PGROUNDUP newsz)) ∧
    (∀ m pgdir, deallocuvm L m pgdir oldsz newsz =
      (visitPages L pgdir (pagesTo (PGROUNDUP newsz) oldsz) m (PGROUNDUP newsz)).map fun m' => (newsz, m')) ∧
    ∀ (s : Kernel) (r : Dir), s.Sound L → s.root r ≠ 0 → ∃ m, deallocuvm L s.mem (s.root r) oldsz newsz =
      .ok (newsz, m) ∧ Cleared r (Span (PGROUNDUP newsz) oldsz) s.space { s.space with mem := m } ∧
      ∀ pg, Free m pg ↔ Free s.mem pg ∨
        ∃ e ∈ Span (PGROUNDUP newsz) oldsz, present (s.space.pte r e) ∧ pteAddr (s.space.pte r e) = pg := by
  have hloop : ∀ m pgdir fuel, oldsz / PGSIZE < fuel → deallocLoop L pgdir oldsz fuel m (PGROUNDUP newsz) =
      visitPages L pgdir (pagesTo (PGROUNDUP newsz) oldsz) m (PGROUNDUP newsz) := by
    intro m pgdir fuel hfuel
    apply deallocLoop_eq (PGROUNDUP_aligned newsz) hle
    simp only [PGSIZE] at hfuel ⊢
    omega
  have hplain : ∀ m pgdir, deallocuvm L m pgdir oldsz newsz =
      (visitPages L pgdir (pagesTo (PGROUNDUP newsz) oldsz) m (PGROUNDUP newsz)).map fun m' => (newsz, m') := by
    intro m pgdir
    rw [deallocuvm, if_neg (not_le.mpr hlt), hloop m pgdir _ (Nat.lt_succ_self _)]
    cases visitPages L pgdir (pagesTo (PGROUNDUP newsz) oldsz) m (PGROUNDUP newsz) <;> rfl
  refine ⟨hloop, hplain, fun s r hs hr => ?_⟩
  obtain ⟨m, hrun, hinv, hcleared, htable⟩ := (hs.inv.visitPages hs.pool hr (PGROUNDUP_aligned newsz) hle rfl).exists_ok
  refine ⟨m, ?_, hcleared, hs.inv.free_dealloc hinv hcleared htable fun e he => ?_⟩
  · rw [hplain]
    exact congrArg (Except.map fun m' => (newsz, m')) hrun
  · exact (isUser_iff e).mpr (he.2.trans_le hle)

/-- The page of the process is freed, and the loop goes on past the page tables that it does not have. -/
theorem deallocuvm_exact_onePage : onePage.space.table (.proc 0) 1 = 0 ∧ onePage.space.table (.proc 0) 2 = 0 ∧
    ∃ m, deallocuvm fourPages onePage.mem 1020 (12 * 1024 * 1024) 0 = .ok (0, m) ∧ Free m 1022 := by
  obtain ⟨m, hrun, -, hfree⟩ := (deallocuvm_exact fourPages (show 12 * 1024 * 1024 ≤ KERNBASE by decide)
    (show 0 < 12 * 1024 * 1024 by decide)).2.2 onePage (.proc 0) onePage_sound (by decide)
  refine ⟨onePage_table _ _, onePage_table _ _, m, hrun, (hfree 1022).mpr (Or.inr ⟨(0, 0), by decide, ?_, ?_⟩)⟩
  · rw [onePage_pte]
    decide
  · rw [onePage_pte]
    decide

end Laboratorio.Vm
