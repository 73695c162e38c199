import Mathlib.Logic.Equiv.Basic
import Laboratorio.VmBuild
import Laboratorio.Trace

/-! The pages of a running kernel. Whatever `fork`, `exec`, `growproc`, `wait`, `pipealloc` and `pipeclose` do,
every page handed to the allocator is on the free list or has one holder. -/

namespace Laboratorio.Vm

open Function

open Procs (Slot)

/-! ### The pages of the allocator -/

theorem Books.freeNext {κ : Type*} {L : Layout} {m : Memory} {addr : κ → Nat} {lo hi : Nat} (h : Books m addr lo hi)
    (hpos : 0 < lo) (hfirst : L.first ≤ lo) (hle : lo ≤ hi) {n : Nat} (hn : (hi + n) * PGSIZE ≤ PHYSTOP) :
    ∃ m', (List.range n).foldlM (fun m i => Vm.kfree L m (hi + i)) m = .ok m' ∧ Books m' addr lo (hi + n) ∧
      ∀ x < hi, m'.word x = m.word x := by
  induction n with
  | zero => exact ⟨m, rfl, h, fun _ _ => rfl⟩
  | succ n ih =>
    have hn' : (hi + n) * PGSIZE ≤ PHYSTOP := le_trans (Nat.mul_le_mul_right _ (by omega)) hn
    obtain ⟨m', hrun, hbooks, hsame⟩ := ih hn'
    obtain ⟨m'', hfree, hsame', hbooks'⟩ := hbooks.kfree_next hpos hfirst (Nat.le_add_right_of_le hle) hn
    refine ⟨m'', ?_, hbooks', fun x hx => ?_⟩
    · rw [List.range_succ, List.foldlM_append, hrun, ok_bind, List.foldlM_cons, hfree, ok_bind]
      rfl
    · rw [hsame' x (by omega), hsame x hx]

theorem Books.freerange {κ : Type*} {L : Layout} {m : Memory} {addr : κ → Nat} {lo hi hi' : Nat}
    (h : Books m addr lo hi) (hpos : 0 < lo) (hfirst : L.first ≤ lo) (hle : lo ≤ hi) (hhi : hi ≤ hi')
    (htop : hi' * PGSIZE ≤ PHYSTOP) {vstart vend : Nat}
    (hstart : PGROUNDUP vstart = KERNBASE + hi * PGSIZE) (hend : vend = KERNBASE + hi' * PGSIZE) :
    ∃ m', Vm.freerange L m vstart vend = .ok m' ∧ Books m' addr lo hi' ∧ ∀ x < hi, m'.word x = m.word x := by
  obtain ⟨n, rfl⟩ := Nat.exists_eq_add_of_le hhi
  have hpage : (PGROUNDUP vstart - KERNBASE) / PGSIZE = hi := by
    rw [hstart, Nat.add_sub_cancel_left, Nat.mul_div_cancel _ (by decide)]
  have hcount : (vend - PGROUNDUP vstart) / PGSIZE = n := by
    rw [hstart, hend, Nat.add_sub_add_left, ← Nat.sub_mul, Nat.add_sub_cancel_left, Nat.mul_div_cancel _ (by decide)]
  obtain ⟨m', hrun, hrest⟩ := h.freeNext hpos hfirst hle htop
  refine ⟨m', ?_, hrest⟩
  rw [Vm.freerange, hpage, hcount]
  exact hrun

section Spaces

variable {R K : Type} {s : Space R K} {m : Memory} {lo hi hi' : Nat}

theorem Inv.of_word (h : Inv s lo hi) (hsame : ∀ p, s.page p ≠ 0 → m.word (s.page p) = s.mem.word (s.page p))
    (hbooks : Books m s.page lo hi') : Inv { s with mem := m } lo hi' := by
  have htable : ∀ r i, { s with mem := m }.table r i = s.table r i :=
    fun r i => congrFun (tableOf_congr fun hr => hsame (.dir r) hr) i
  have hpte : ∀ r e, { s with mem := m }.pte r e = s.pte r e :=
    fun r e => pteOf_congr (htable r e.1) fun ht => hsame (.table r e.1) ht
  have hpage : { s with mem := m }.page = s.page := by
    funext p
    cases p with
    | dir r => rfl
    | kept o => rfl
    | table r i => exact htable r i
    | user r e => exact Space.page_user_congr (hpte r e)
  refine ⟨?_, fun r i hr => ?_, fun r e => ?_⟩
  · rw [hpage]
    exact hbooks
  · have hword : m.word (s.root r) = s.mem.word (s.root r) := hsame (.dir r) hr
    rw [hword]
    exact h.tables r i hr
  · rw [hpte]
    exact h.users r e

theorem Space.page_none (hroot : ∀ r, s.root r = 0) (hkeep : ∀ o, s.keep o = 0) (p : Holder R K) : s.page p = 0 := by
  cases p with
  | dir r => exact hroot r
  | kept o => exact hkeep o
  | table r i =>
    rw [Space.page, Space.table, hroot]
    exact tableOf_zero _ i
  | user r e => rw [Space.page, Space.pte, hroot, pteOf_zero, frame_zero, ite_self]

/-- The holder of a directory elsewhere. -/
def Holder.at {R' : Type} (f : R → R') : Holder R K → Holder R' K
  | .dir r => .dir (f r)
  | .table r i => .table (f r) i
  | .user r e => .user (f r) e
  | .kept o => .kept o

theorem Inv.transport (h : Inv s lo hi) {R' : Type} (root : R' → Nat) (f : R → R') (hroot : ∀ r, root (f r) = s.root r)
    (hcover : ∀ r', root r' ≠ 0 → ∃ r, f r = r') : Inv ({ s with root := root } : Space R' K) lo hi := by
  have hpage : ∀ p : Holder R K, ({ s with root := root } : Space R' K).page (p.at f) = s.page p := by
    intro p
    cases p <;> simp [Holder.at, Space.page, Space.table, Space.pte, hroot]
  have hcases : ∀ r', root r' = 0 ∨ ∃ r, f r = r' := fun r' => (Decidable.em (root r' = 0)).imp_right (hcover r')
  obtain ⟨l, hlisted⟩ := h.books
  refine ⟨⟨l, hlisted.linked, hlisted.nodup, hlisted.lt, hlisted.exact.transport (Holder.at f) hpage fun q hq => ?_⟩,
    fun r' i hr' => ?_, fun r' e => ?_⟩
  · cases q with
    | kept o => exact ⟨.kept o, rfl⟩
    | dir r' =>
      obtain ⟨r, rfl⟩ := hcover r' hq
      exact ⟨.dir r, rfl⟩
    | table r' i =>
      rcases hcases r' with hzero | ⟨r, rfl⟩
      · exact absurd (Space.page_of_root (p := .table r' i) hzero (not_not.mpr rfl)) hq
      · exact ⟨.table r i, rfl⟩
    | user r' e =>
      rcases hcases r' with hzero | ⟨r, rfl⟩
      · exact absurd (Space.page_of_root (p := .user r' e) hzero fun hapart => hapart rfl trivial) hq
      · exact ⟨.user r e, rfl⟩
  · obtain ⟨r, rfl⟩ := hcover r' hr'
    dsimp only at hr' ⊢
    rw [hroot] at hr' ⊢
    exact h.tables r i hr'
  · rw [Space.pte]
    dsimp only
    rcases hcases r' with hzero | ⟨r, rfl⟩
    · rw [hzero, pteOf_zero]
      exact fun _ hpresent => absurd hpresent not_present_zero
    · rw [hroot]
      exact h.users r e

def Space.spare (s : Space R K) : Space (Option R) K := { s with root := fun r => r.elim 0 s.root }

theorem Inv.spare (h : Inv s lo hi) : Inv s.spare lo hi := by
  refine h.transport (fun r => r.elim 0 s.root) some (fun _ => rfl) fun r' hr' => ?_
  cases r' with
  | none => exact absurd rfl hr'
  | some r => exact ⟨r, rfl⟩

theorem Inv.free_same (h : Inv s lo hi) (h' : Inv { s with mem := m } lo hi)
    (hframe : Frame (fun _ => True) s { s with mem := m }) (pg : Nat) : Free m pg ↔ Free s.mem pg := by
  have hpage : { s with mem := m }.page = s.page := funext fun p => hframe.page p trivial
  have hiff := h'.free_iff pg
  rw [hpage] at hiff
  exact hiff.trans (h.free_iff pg).symm

/-- After `deallocuvm` in a directory a page that was free is free, or is one of its page tables. -/
theorem Inv.free_cleared (h : Inv s lo hi) {r : R} {U : Set (Index × Index)}
    (h' : Inv { s with mem := m } lo hi) (hcleared : Cleared r U s { s with mem := m }) {pg : Nat}
    (hfree : Free s.mem pg) :
    Free m pg ∨ ∃ i, tableOf m.word (s.root r) i = pg := by
  obtain ⟨hlo, hhi, hno⟩ := (h.free_iff pg).mp hfree
  by_contra hcon
  rw [not_or] at hcon
  have hnot := hcon.1
  refine hnot ((h'.free_iff pg).mpr ⟨hlo, hhi, fun p hp heq => ?_⟩)
  have hsame : Apart r U ∅ p → False := by
    intro hapart
    rw [hcleared.frame.page p hapart] at hp heq
    exact hno p hp heq
  cases p with
  | dir r' => exact hno (.dir r') hp heq
  | kept o => exact hsame (Set.notMem_empty o)
  | table r' i =>
    by_cases hr' : r' = r
    · subst hr'
      exact hcon.2 ⟨i, heq⟩
    · exact hsame hr'
  | user r' e =>
    by_cases hr' : r' = r
    · subst hr'
      by_cases he : e ∈ U
      · have hzero : { s with mem := m }.page (.user r' e) = 0 := by
          rw [Space.page, frame_of_not_present (hcleared.gone e he), ite_self]
        exact hp hzero
      · exact hsame fun _ => he
    · exact hsame fun heq => absurd heq hr'

end Spaces

/-! ### The kernel -/

namespace Kernel

def space (s : Kernel) : Space Dir Keep := ⟨s.mem, s.root, s.keep⟩

end Kernel

/-- What a process keeps about its directories, its size and its stack. -/
structure Proc.Good (p : Proc) : Prop where
  size : p.sz < KERNBASE
  building : ∀ d sz, p.exec = .building d sz → d ≠ 0 ∧ sz < KERNBASE
  bad : ∀ d, p.exec = .bad d → d ≠ 0
  dir : p.stage = .live ∨ p.stage = .zombie ∨ p.stage = .reaping → p.pgdir ≠ 0
  stack : p.stage = .unused ∨ p.stage = .reaping → p.kstack = 0

theorem Proc.Good.unused : Proc.Good { stage := .unused, kstack := 0, pgdir := 0, sz := 0, exec := .none } :=
  ⟨by decide, nofun, nofun, nofun, fun _ => rfl⟩

structure Kernel.Sound (L : Layout) (s : Kernel) : Prop where
  inv : Inv s.space L.first s.top
  top : s.top = 1024 ∨ s.top = PHYSTOP / PGSIZE
  procs : ∀ k, (s.proc k).Good

theorem Layout.first_pos (L : Layout) :
    0 < L.first ∧ L.first ≤ 1024 ∧ PGROUNDUP L.kend = KERNBASE + L.first * PGSIZE := by
  have hlink := L.link_lt
  have hdata := L.data_le
  have hkend := L.kend_le
  simp only [first, PGROUNDUP, KERNLINK, EXTMEM, KERNBASE, PGSIZE] at hlink hkend ⊢
  omega

variable {words : Index → Nat}

namespace Kernel.Sound

variable {L : Layout} {s s' : Kernel} {k : Slot} {m : Memory} {p : Proc}

theorem pool (h : s.Sound L) : Pool L L.first s.top := by
  refine ⟨L.first_pos.1, le_refl _, ?_⟩
  rcases h.top with htop | htop <;> rw [htop] <;> decide

theorem boot (L : Layout) (word : Nat → Index → Nat) : (Kernel.boot L word).Sound L := by
  obtain ⟨hpos, hle, hstart⟩ := L.first_pos
  have hnone : ∀ p, (⟨⟨word, 0⟩, fun _ => 0, fun _ => 0⟩ : Space Dir Keep).page p = 0 :=
    Space.page_none (fun _ => rfl) fun _ => rfl
  obtain ⟨m, hrun, hbooks, -⟩ := (Books.zero hnone word).freerange hpos (le_refl _) (le_refl _) hle
    (by decide) hstart rfl
  have hempty : Inv (⟨⟨word, 0⟩, fun _ => 0, fun _ => 0⟩ : Space Dir Keep) L.first L.first :=
    ⟨Books.zero hnone word, fun r i hr => absurd rfl hr, fun r e _ hpresent => by
      exact absurd hpresent not_present_zero⟩
  have hmem : (Kernel.boot L word).mem = m := by
    rw [Kernel.boot, show KERNBASE + 4 * 1024 * 1024 = KERNBASE + 1024 * PGSIZE from rfl, hrun]
    rfl
  refine ⟨?_, Or.inl rfl, fun _ => Proc.Good.unused⟩
  have hroot : (Kernel.boot L word).root = fun _ => 0 := by
    funext r
    cases r <;> rfl
  have hkeep : (Kernel.boot L word).keep = fun _ => 0 := by
    funext o
    cases o <;> rfl
  rw [Kernel.space, hroot, hkeep, hmem]
  exact hempty.of_word (fun p hp => absurd (hnone p) hp) hbooks

/-! ### Changes of one process -/

theorem root_setProc (s : Kernel) (m : Memory) (k : Slot) (p : Proc) :
    (s.setProc m k p).root = update (update s.root (.proc k) p.root) (.exec k) p.exec.root := by
  funext r
  cases r with
  | kernel => simp [Kernel.root, Kernel.setProc]
  | proc j | exec j =>
    by_cases hj : j = k
    · simp [Kernel.root, Kernel.setProc, hj]
    · simp [Kernel.root, Kernel.setProc, hj]

theorem keep_setProc (s : Kernel) (m : Memory) (k : Slot) (p : Proc) :
    (s.setProc m k p).keep = update s.keep (.kstack k) p.kstack := by
  funext o
  cases o with
  | cpustack cpu | pipe i => simp [Kernel.keep, Kernel.setProc]
  | mem => simp [Kernel.keep]
  | kstack j =>
    by_cases hj : j = k
    · simp [Kernel.keep, Kernel.setProc, hj]
    · simp [Kernel.keep, Kernel.setProc, hj]

theorem setProc (h : s.Sound L) (hp : p.Good)
    (hinv : Inv (⟨m, update (update s.root (.proc k) p.root) (.exec k) p.exec.root,
      update s.keep (.kstack k) p.kstack⟩ : Space Dir Keep) L.first s.top) :
    (s.setProc m k p).Sound L := by
  refine ⟨?_, h.top, fun j => ?_⟩
  · rw [Kernel.space, root_setProc, keep_setProc]
    exact hinv
  · by_cases hj : j = k
    · simp [Kernel.setProc, hj, hp]
    · simp [Kernel.setProc, hj, h.procs j]

theorem update_proc (s : Kernel) (k : Slot) (hroot : p.root = (s.proc k).root) :
    update s.root (.proc k) p.root = s.root := by
  rw [hroot]
  exact update_eq_self (Dir.proc k) s.root

theorem update_exec (s : Kernel) (k : Slot) {f : Dir → Nat} (hf : f (.exec k) = (s.proc k).exec.root)
    (hexec : p.exec.root = (s.proc k).exec.root) : update f (.exec k) p.exec.root = f := by
  rw [hexec, ← hf]
  exact update_eq_self _ _

theorem update_stack (s : Kernel) (k : Slot) (hstack : p.kstack = (s.proc k).kstack) :
    update s.keep (.kstack k) p.kstack = s.keep := by
  rw [hstack]
  exact update_eq_self (Keep.kstack k) s.keep

theorem setProc_mem (h : s.Sound L) (hp : p.Good) (hroot : p.root = (s.proc k).root)
    (hexec : p.exec.root = (s.proc k).exec.root) (hstack : p.kstack = (s.proc k).kstack)
    (hinv : Inv { s.space with mem := m } L.first s.top) : (s.setProc m k p).Sound L := by
  apply h.setProc hp
  rw [update_proc s k hroot, update_exec s k rfl hexec, update_stack s k hstack]
  exact hinv

theorem setProc_root (h : s.Sound L) (hp : p.Good) (hexec : p.exec.root = (s.proc k).exec.root)
    (hstack : p.kstack = (s.proc k).kstack)
    (hinv : Inv { s.space with mem := m, root := update s.root (.proc k) p.root } L.first s.top) :
    (s.setProc m k p).Sound L := by
  apply h.setProc hp
  rw [update_exec s k (update_of_ne (show Dir.exec k ≠ .proc k from nofun) _ _) hexec, update_stack s k hstack]
  exact hinv

theorem setProc_exec (h : s.Sound L) (hp : p.Good) (hroot : p.root = (s.proc k).root)
    (hstack : p.kstack = (s.proc k).kstack)
    (hinv : Inv { s.space with mem := m, root := update s.root (.exec k) p.exec.root } L.first s.top) :
    (s.setProc m k p).Sound L := by
  apply h.setProc hp
  rw [update_proc s k hroot, update_stack s k hstack]
  exact hinv

theorem setProc_stack (h : s.Sound L) (hp : p.Good) (hroot : p.root = (s.proc k).root)
    (hexec : p.exec.root = (s.proc k).exec.root)
    (hinv : Inv { s.space with mem := m, keep := update s.keep (.kstack k) p.kstack } L.first s.top) :
    (s.setProc m k p).Sound L := by
  apply h.setProc hp
  rw [update_proc s k hroot, update_exec s k rfl hexec]
  exact hinv

/-! ### Steps -/

theorem root_kpgdir (s : Kernel) (m : Memory) (d : Nat) :
    { s with mem := m, kpgdir := d }.root = update s.root .kernel d := by
  funext r
  cases r <;> simp [Kernel.root]

theorem keep_cpustack (s : Kernel) (m : Memory) (cpu pg : Nat) :
    { s with mem := m, cpustack := update s.cpustack cpu pg }.keep = update s.keep (.cpustack cpu) pg := by
  funext o
  cases o <;> simp [Kernel.keep, update_apply]

theorem keep_pipe (s : Kernel) (m : Memory) (i pg : Nat) :
    { s with mem := m, pipe := update s.pipe i pg }.keep = update s.keep (.pipe i) pg := by
  funext o
  cases o <;> simp [Kernel.keep, update_apply]

theorem root_of_stage (hstage : (s.proc k).stage = .embryo) : s.root (.proc k) = 0 := by
  rw [Kernel.root, Proc.root, hstage]

theorem root_of_live (h : s.Sound L) (hrun : s.Running k) :
    s.root (.proc k) = (s.proc k).pgdir ∧ (s.proc k).pgdir ≠ 0 := by
  refine ⟨?_, (h.procs k).dir (Or.inl hrun.1)⟩
  rw [Kernel.root, Proc.root, hrun.1]

theorem root_of_building (h : s.Sound L) {d sz : Nat} (hexec : (s.proc k).exec = .building d sz) :
    s.root (.exec k) = d ∧ d ≠ 0 ∧ sz < KERNBASE := by
  refine ⟨?_, (h.procs k).building d sz hexec⟩
  rw [Kernel.root, hexec]
  rfl

theorem kfree_zero (L : Layout) (m : Memory) : kfree L m 0 = .error .kfree := by
  have hlink := L.link_lt
  have hdata := L.data_le
  refine if_pos (Or.inl ?_)
  simp only [KERNLINK, EXTMEM, KERNBASE] at hlink ⊢
  omega

section

variable (h : s.Sound L)

include h

theorem kvmalloc (hstep : s.step L .kvmalloc = some s') : s'.Sound L := by
  obtain ⟨⟨d, m⟩, hrun, hrest⟩ := Option.bind_eq_some_iff.mp hstep
  obtain ⟨hcond, hrest⟩ := Option.ite_none_right_eq_some.mp hrest
  cases hrest
  rcases (h.inv.setupkvm h.pool (r := Dir.kernel) (o := Keep.mem) hcond.1 rfl).of_some hrun with
    ⟨hzero, -⟩ | ⟨-, hinv, -⟩
  · exact absurd hzero hcond.2
  · refine ⟨?_, h.top, h.procs⟩
    rw [Kernel.space, root_kpgdir]
    exact hinv

theorem startothers {cpu : Nat} (hstep : s.step L (.startothers cpu) = some s') : s'.Sound L := by
  obtain ⟨hcond, hstep⟩ := Option.ite_none_right_eq_some.mp hstep
  cases hstep
  rcases h.inv.kalloc h.pool.pos (o := Keep.cpustack cpu) hcond.1 rfl with ⟨hzero, -⟩ | ⟨-, hinv, -⟩
  · exact absurd hzero hcond.2
  · refine ⟨?_, h.top, h.procs⟩
    rw [Kernel.space, keep_cpustack]
    exact hinv

theorem kinit2 (hstep : s.step L .kinit2 = some s') : s'.Sound L := by
  dsimp only [Kernel.step] at hstep
  obtain ⟨m, hrun, hrest⟩ := Option.bind_eq_some_iff.mp hstep
  obtain ⟨htop, hrest⟩ := Option.ite_none_right_eq_some.mp hrest
  cases hrest
  obtain ⟨hpos, hle, -⟩ := L.first_pos
  have hinv := h.inv
  rw [htop] at hinv
  obtain ⟨m', hrun', hbooks, hsame⟩ :=
    hinv.books.freerange hpos (le_refl _) hle (show 1024 ≤ PHYSTOP / PGSIZE by decide) (by decide)
    (show PGROUNDUP (KERNBASE + 4 * 1024 * 1024) = KERNBASE + 1024 * PGSIZE by decide)
    (show KERNBASE + PHYSTOP = KERNBASE + PHYSTOP / PGSIZE * PGSIZE by decide)
  change Vm.freerange L s.mem _ _ = _ at hrun'
  rw [hrun'] at hrun
  cases hrun
  refine ⟨hinv.of_word (fun p hp => hsame _ ?_) hbooks, Or.inr rfl, h.procs⟩
  obtain ⟨l, hlisted⟩ := hinv.books
  exact (hlisted.exact.range p hp).2

theorem userinit (hstep : s.step L (.userinit k) = some s') : s'.Sound L := by
  obtain ⟨hstage, hstep⟩ := Option.ite_none_right_eq_some.mp hstep
  obtain ⟨⟨d, m⟩, hrun, hrest⟩ := Option.bind_eq_some_iff.mp hstep
  obtain ⟨⟨mem, res, m'⟩, hinit, hlast⟩ := Option.bind_eq_some_iff.mp hrest
  obtain ⟨hok, hlast⟩ := Option.ite_none_right_eq_some.mp hlast
  cases hlast
  have hroot := root_of_stage hstage
  rcases (h.inv.setupkvm h.pool (r := Dir.proc k) (o := Keep.mem) hroot rfl).of_some hrun with
    ⟨hzero, -⟩ | ⟨hd, hinv, -, -⟩
  · exact absurd hzero hok.1
  · have hinv' := hinv.inituvm (r := Dir.proc k) (o := Keep.mem) h.pool.pos ?_ rfl
    · dsimp only [Kernel.space] at hinv'
      rw [update_self] at hinv'
      exact h.setProc_root ⟨show PGSIZE < KERNBASE by decide, (h.procs k).building, (h.procs k).bad, fun _ => hd,
        nofun⟩ rfl rfl ((hinv'.of_some hinit).1 hok.2).1
    · dsimp only [Kernel.space]
      rwa [update_self]

theorem allocproc (hstep : s.step L (.allocproc k) = some s') : s'.Sound L := by
  dsimp only [Kernel.step] at hstep
  obtain ⟨hstage, hstep⟩ := Option.ite_none_right_eq_some.mp hstep
  cases hstep
  have hgood := h.procs k
  have hzero : s.space.keep (.kstack k) = 0 := hgood.stack (Or.inl hstage)
  have hroot : (s.proc k).root = 0 := by rw [Proc.root, hstage]
  obtain ⟨⟨pg, m⟩, hrun⟩ : ∃ x, Vm.kalloc s.mem = x := ⟨_, rfl⟩
  rw [hrun]
  rcases h.inv.kalloc h.pool.pos hzero hrun with ⟨rfl, rfl⟩ | ⟨hpg, hinv, -⟩
  · exact h.setProc_mem ⟨hgood.size, hgood.building, hgood.bad, nofun, fun _ => rfl⟩ hroot.symm rfl hzero.symm h.inv
  · dsimp only
    rw [if_neg hpg]
    exact h.setProc_stack ⟨hgood.size, hgood.building, hgood.bad, nofun, nofun⟩ hroot.symm rfl hinv

theorem copyuvm {parent : Slot} (hstep : s.step L (.copyuvm parent k) = some s') : s'.Sound L := by
  obtain ⟨hcond, hstep⟩ := Option.ite_none_right_eq_some.mp hstep
  obtain ⟨⟨d, m⟩, hrun, hrest⟩ := Option.bind_eq_some_iff.mp hstep
  cases hrest
  have hgood := h.procs k
  have hroot := root_of_stage hcond.2
  obtain ⟨hparent, hdir⟩ := h.root_of_live hcond.1
  have hne : Dir.proc parent ≠ .proc k := by
    intro heq
    have hlive := hcond.1.1
    rw [Dir.proc.inj heq, hcond.2] at hlive
    cases hlive
  rcases (h.inv.copyuvm h.pool (r := Dir.proc k) (o := Keep.mem) hroot rfl ⟨hne, hparent.trans_ne hdir, hparent.symm⟩
    (h.procs parent).size.le).of_some hrun with ⟨hzero, hinv, -⟩ | ⟨hd, hinv, -⟩
  · rw [if_pos hzero]
    exact h.setProc_mem ⟨hgood.size, hgood.building, hgood.bad, nofun, nofun⟩ hroot.symm rfl rfl hinv
  · rw [if_neg hd]
    exact h.setProc_root ⟨(h.procs parent).size, hgood.building, hgood.bad, fun _ => hd, nofun⟩ rfl rfl hinv

theorem freeStack (hrun : (kfree L s.mem (s.proc k).kstack).toOption = some m) :
    Inv { s.space with mem := m, keep := update s.keep (.kstack k) 0 } L.first s.top := by
  by_cases hzero : s.space.keep (.kstack k) = 0
  · rw [show (s.proc k).kstack = 0 from hzero, kfree_zero] at hrun
    cases hrun
  · obtain ⟨m', hrun', hinv, -⟩ := h.inv.kfree h.pool hzero
    change kfree L s.mem (s.proc k).kstack = _ at hrun'
    rw [hrun'] at hrun
    cases hrun
    exact hinv

theorem forkBad (hstep : s.step L (.forkBad k) = some s') : s'.Sound L := by
  obtain ⟨hstage, hstep⟩ := Option.ite_none_right_eq_some.mp hstep
  obtain ⟨m, hrun, hrest⟩ := Option.bind_eq_some_iff.mp hstep
  cases hrest
  have hgood := h.procs k
  have hroot : (s.proc k).root = 0 := by rw [Proc.root, hstage]
  exact h.setProc_stack ⟨hgood.size, hgood.building, hgood.bad, nofun, fun _ => rfl⟩ hroot.symm rfl (h.freeStack hrun)

theorem kfreeStack (hstep : s.step L (.kfreeStack k) = some s') : s'.Sound L := by
  obtain ⟨hstage, hstep⟩ := Option.ite_none_right_eq_some.mp hstep
  obtain ⟨m, hrun, hrest⟩ := Option.bind_eq_some_iff.mp hstep
  cases hrest
  have hgood := h.procs k
  have hroot : (s.proc k).root = (s.proc k).pgdir := by rw [Proc.root, hstage]
  exact h.setProc_stack ⟨hgood.size, hgood.building, hgood.bad, fun _ => hgood.dir (Or.inr (Or.inl hstage)),
    fun _ => rfl⟩ hroot.symm rfl (h.freeStack hrun)

theorem setupkvm (hstep : s.step L (.setupkvm k) = some s') : s'.Sound L := by
  obtain ⟨hlive, hstep⟩ := Option.ite_none_right_eq_some.mp hstep
  obtain ⟨⟨d, m⟩, hrun, hrest⟩ := Option.bind_eq_some_iff.mp hstep
  cases hrest
  have hgood := h.procs k
  have hroot : s.root (.exec k) = 0 := by
    rw [Kernel.root, hlive.2]
    rfl
  rcases (h.inv.setupkvm h.pool (r := Dir.exec k) (o := Keep.mem) hroot rfl).of_some hrun with
    ⟨hzero, hinv, -⟩ | ⟨hd, hinv, -, -⟩
  · rw [if_pos hzero]
    exact h.setProc_mem hgood rfl rfl rfl hinv
  · rw [if_neg hd]
    refine h.setProc_exec ⟨hgood.size, fun d' sz hexec => ?_, nofun, hgood.dir, hgood.stack⟩ rfl rfl hinv
    cases hexec
    exact ⟨hd, show 0 < KERNBASE by decide⟩

theorem setProc_building {d sz : Nat} (hexec : (s.proc k).exec = .building d sz) {x : Exec} (hroot : x.root = d)
    (hx : ∀ d' sz', x = .building d' sz' → sz' < KERNBASE) (hinv : Inv { s.space with mem := m } L.first s.top) :
    (s.setProc m k { s.proc k with exec := x }).Sound L := by
  have hgood := h.procs k
  obtain ⟨hold, hd, -⟩ := h.root_of_building hexec
  refine h.setProc_mem ⟨hgood.size, fun d' sz' heq => ⟨?_, hx d' sz' heq⟩, fun d' heq => ?_, hgood.dir, hgood.stack⟩ rfl
    (hroot.trans hold.symm) rfl hinv
  · subst heq
    exact hroot.trans_ne hd
  · subst heq
    exact hroot.trans_ne hd

theorem allocuvm {newsz : Nat} (hstep : s.step L (.allocuvm k newsz) = some s') : s'.Sound L := by
  dsimp only [Kernel.step] at hstep
  split at hstep
  case h_2 => cases hstep
  case h_1 d sz hexec =>
    obtain ⟨⟨n, m⟩, hrun, hrest⟩ := Option.bind_eq_some_iff.mp hstep
    cases hrest
    obtain ⟨hroot, hd, hsz⟩ := h.root_of_building hexec
    rw [← hroot] at hrun hd
    obtain ⟨hinv, hn⟩ := (h.inv.allocuvm_lt h.pool (r := Dir.exec k) (o := Keep.mem) hd rfl (Or.inl hsz)).of_some hrun
    by_cases hzero : n = 0
    · rw [if_pos hzero]
      exact h.setProc_building hexec rfl nofun hinv
    · rw [if_neg hzero]
      refine h.setProc_building hexec rfl (fun d' sz' heq => ?_) hinv
      cases heq
      exact hn

theorem allocStack (hstep : s.step L (.allocStack k) = some s') : s'.Sound L := by
  dsimp only [Kernel.step] at hstep
  split at hstep
  case h_2 => cases hstep
  case h_1 d sz hexec =>
    obtain ⟨⟨n, m⟩, hrun, hrest⟩ := Option.bind_eq_some_iff.mp hstep
    obtain ⟨hroot, hd, -⟩ := h.root_of_building hexec
    rw [← hroot] at hrun hd
    obtain ⟨hinv, hn⟩ :=
      (h.inv.allocuvm_lt h.pool (r := Dir.exec k) (o := Keep.mem) hd rfl (Or.inr (Nat.le_add_right _ _))).of_some hrun
    split at hrest
    · cases hrest
      exact h.setProc_building hexec rfl nofun hinv
    · obtain ⟨m', hclear, hlast⟩ := Option.bind_eq_some_iff.mp hrest
      cases hlast
      rw [← hroot] at hclear
      obtain ⟨hinv', -⟩ := (hinv.clearpteu (r := Dir.exec k) hd _).of_some hclear
      refine h.setProc_building hexec rfl (fun d' sz' heq => ?_) hinv'
      cases heq
      exact hn

theorem execBad (hstep : s.step L (.execBad k) = some s') : s'.Sound L := by
  obtain ⟨hexec, hstep⟩ := Option.ite_none_left_eq_some.mp hstep
  obtain ⟨m, hrun, hrest⟩ := Option.bind_eq_some_iff.mp hstep
  cases hrest
  have hgood := h.procs k
  have hroot : s.space.root (.exec k) ≠ 0 := by
    change (s.proc k).exec.root ≠ 0
    cases he : (s.proc k).exec with
    | none => exact absurd he hexec
    | building d sz => exact (hgood.building d sz he).1
    | bad d => exact hgood.bad d he
  obtain ⟨hinv, -⟩ := (h.inv.freevm h.pool hroot).of_some hrun
  exact h.setProc_exec ⟨hgood.size, nofun, nofun, hgood.dir, hgood.stack⟩ rfl rfl hinv

theorem commit (hstep : s.step L (.commit k) = some s') : s'.Sound L := by
  dsimp only [Kernel.step] at hstep
  split at hstep
  case h_2 => cases hstep
  case h_1 d sz hstage hexec =>
    obtain ⟨m, hrun, hrest⟩ := Option.bind_eq_some_iff.mp hstep
    cases hrest
    have hgood := h.procs k
    obtain ⟨hroot, hd, hsz⟩ := h.root_of_building hexec
    have hproc : s.root (.proc k) = (s.proc k).pgdir := by rw [Kernel.root, Proc.root, hstage]
    rw [← hproc] at hrun
    obtain ⟨hinv, -⟩ := (h.inv.freevm h.pool (r := Dir.proc k) (by
      change s.root (.proc k) ≠ 0
      rw [hproc]
      exact hgood.dir (Or.inl hstage))).of_some hrun
    refine h.setProc ⟨hsz, nofun, nofun, fun _ => hd, fun hs => hgood.stack hs⟩ ?_
    have hswap : update (update s.root (.proc k) (Proc.root { s.proc k with pgdir := d, sz := sz, exec := .none }))
        (.exec k) 0 = update s.root (.proc k) 0 ∘ Equiv.swap (Dir.proc k) (Dir.exec k) := by
      have hnew : Proc.root { s.proc k with pgdir := d, sz := sz, exec := .none } = d := by
        rw [Proc.root]
        rw [hstage]
      rw [hnew]
      funext r
      rw [Function.comp_apply]
      by_cases hp : r = .proc k
      · rw [hp, Equiv.swap_apply_left, update_of_ne (show Dir.proc k ≠ .exec k from nofun), update_self,
          update_of_ne (show Dir.exec k ≠ .proc k from nofun), hroot]
      · by_cases he : r = .exec k
        · rw [he, Equiv.swap_apply_right, update_self, update_self]
        · rw [Equiv.swap_apply_of_ne_of_ne hp he, update_of_ne he, update_of_ne hp, update_of_ne hp]
    have hrename := hinv.transport (update s.root (.proc k) 0 ∘ Equiv.swap (Dir.proc k) (Dir.exec k))
      (Equiv.swap (Dir.proc k) (Dir.exec k)) (fun r => by simp [Kernel.space]) fun r' _ =>
      ⟨Equiv.swap (Dir.proc k) (Dir.exec k) r', by simp⟩
    rw [update_stack s k rfl]
    change Inv (⟨m, update (update s.root (.proc k) (Proc.root { s.proc k with pgdir := d, sz := sz, exec := .none }))
      (.exec k) 0, s.keep⟩ : Space Dir Keep) _ _
    rw [hswap]
    exact hrename

theorem growproc {n : Int} (hstep : s.step L (.growproc k n) = some s') : s'.Sound L := by
  obtain ⟨hlive, hstep⟩ := Option.ite_none_right_eq_some.mp hstep
  obtain ⟨⟨res, sz, m⟩, hrun, hrest⟩ := Option.bind_eq_some_iff.mp hstep
  cases hrest
  have hgood := h.procs k
  obtain ⟨hroot, hdir⟩ := h.root_of_live hlive
  rw [← hroot] at hrun hdir
  obtain ⟨hinv, hsz⟩ := (h.inv.growproc h.pool (r := Dir.proc k) (o := Keep.mem) hdir rfl hgood.size n).of_some hrun
  exact h.setProc_mem ⟨hsz, hgood.building, hgood.bad, hgood.dir, hgood.stack⟩ rfl rfl rfl hinv

theorem exit (hstep : s.step L (.exit k) = some s') : s'.Sound L := by
  obtain ⟨hlive, hstep⟩ := Option.ite_none_right_eq_some.mp hstep
  cases hstep
  have hgood := h.procs k
  have hroot : (s.proc k).root = (s.proc k).pgdir := by rw [Proc.root, hlive.1]
  exact h.setProc_mem ⟨hgood.size, hgood.building, hgood.bad, fun _ => hgood.dir (Or.inl hlive.1),
    nofun⟩ hroot.symm rfl rfl h.inv

theorem freevm (hstep : s.step L (.freevm k) = some s') : s'.Sound L := by
  obtain ⟨hstage, hstep⟩ := Option.ite_none_right_eq_some.mp hstep
  obtain ⟨m, hrun, hrest⟩ := Option.bind_eq_some_iff.mp hstep
  cases hrest
  have hgood := h.procs k
  have hproc : s.root (.proc k) = (s.proc k).pgdir := by rw [Kernel.root, Proc.root, hstage]
  have hdir := hgood.dir (Or.inr (Or.inr hstage))
  rw [← hproc] at hrun hdir
  obtain ⟨hinv, -⟩ := (h.inv.freevm h.pool (r := Dir.proc k) hdir).of_some hrun
  exact h.setProc_root ⟨hgood.size, hgood.building, hgood.bad, nofun, fun _ => hgood.stack (Or.inr hstage)⟩ rfl rfl hinv

theorem pipealloc {i : Nat} (hstep : s.step L (.pipealloc i) = some s') : s'.Sound L := by
  dsimp only [Kernel.step] at hstep
  obtain ⟨hzero, hstep⟩ := Option.ite_none_right_eq_some.mp hstep
  cases hstep
  refine ⟨?_, h.top, h.procs⟩
  rw [Kernel.space, keep_pipe]
  rcases h.inv.kalloc h.pool.pos (o := Keep.pipe i) hzero rfl with ⟨hpg, hmem⟩ | ⟨-, hinv, -⟩
  · change (kalloc s.mem).1 = 0 at hpg
    change (kalloc s.mem).2 = s.mem at hmem
    rw [hpg, hmem, show update s.keep (.pipe i) 0 = s.keep from ?_]
    · exact h.inv
    · have hkeep : s.keep (.pipe i) = 0 := hzero
      rw [← hkeep]
      exact update_eq_self _ _
  · exact hinv

theorem pipeclose {i : Nat} (hstep : s.step L (.pipeclose i) = some s') : s'.Sound L := by
  obtain ⟨hne, hstep⟩ := Option.ite_none_left_eq_some.mp hstep
  obtain ⟨m, hrun, hrest⟩ := Option.bind_eq_some_iff.mp hstep
  cases hrest
  obtain ⟨m', hrun', hinv, -⟩ := h.inv.kfree h.pool (o := Keep.pipe i) hne
  change kfree L s.mem (s.pipe i) = _ at hrun'
  rw [hrun'] at hrun
  cases hrun
  refine ⟨?_, h.top, h.procs⟩
  rw [Kernel.space, keep_pipe]
  exact hinv

/-- A store goes to the page of its entry, if there is one. -/
theorem store_eq {r : Dir} {va : Nat} (hr : s.root r ≠ 0) (hva : va < KERNBASE) (words : Index → Nat) :
    s.step L (.store r va words) = if present (s.space.pte r (entry va)) then
      some { s with mem := s.mem.put (s.space.page (.user r (entry va))) words } else none := by
  refine (if_pos ⟨hr, hva⟩).trans ?_
  rcases h.inv.walkpgdir_false hr va with ⟨hnone, ht⟩ | ⟨hsome, ht⟩
  · have hentry : s.space.pte r (entry va) = 0 := pteOf_none ht
    rw [hentry, if_neg not_present_zero]
    exact congrArg (Option.bind · _) hnone
  · have hentry : s.space.pte r (entry va) = s.mem.word (s.space.table r (PDX va)) (PTX va) := pteOf_eq ht
    refine (congrArg (Option.bind · _) hsome).trans ?_
    rw [Option.bind_some]
    dsimp only
    rw [← hentry, Space.page_user (PDX_isUser hva)]
    split
    · rename_i hpresent
      rw [frame_of_present hpresent]
    · rfl

theorem store_cases {r : Dir} {va : Nat} (hstep : s.step L (.store r va words) = some s') :
    s.space.page (.user r (entry va)) ≠ 0 ∧
      s' = { s with mem := s.mem.put (s.space.page (.user r (entry va))) words } := by
  obtain ⟨⟨hr, hva⟩, -⟩ := Option.ite_none_right_eq_some.mp hstep
  rw [h.store_eq hr hva] at hstep
  obtain ⟨hpresent, hstep⟩ := Option.ite_none_right_eq_some.mp hstep
  refine ⟨?_, (Option.some.inj hstep).symm⟩
  rw [Space.page_user (PDX_isUser hva), frame_of_present hpresent]
  exact h.inv.users r (entry va) (PDX_isUser hva) hpresent

theorem store {r : Dir} {va : Nat} (hstep : s.step L (.store r va words) = some s') :
    s'.Sound L := by
  obtain ⟨hne, rfl⟩ := h.store_cases hstep
  exact ⟨(h.inv.put hne nofun nofun words).1, h.top, h.procs⟩

theorem storeKept {o : Keep} (hstep : s.step L (.storeKept o words) = some s') :
    s'.Sound L := by
  obtain ⟨hne, hstep⟩ := Option.ite_none_left_eq_some.mp hstep
  cases hstep
  exact ⟨(h.inv.put (q := .kept o) hne nofun nofun words).1, h.top, h.procs⟩

theorem step {a : Act} (hstep : s.step L a = some s') : s'.Sound L := by
  cases a with
  | kvmalloc => exact h.kvmalloc hstep
  | startothers cpu => exact h.startothers hstep
  | kinit2 => exact h.kinit2 hstep
  | userinit k => exact h.userinit hstep
  | allocproc k => exact h.allocproc hstep
  | copyuvm parent k => exact h.copyuvm hstep
  | forkBad k => exact h.forkBad hstep
  | setupkvm k => exact h.setupkvm hstep
  | allocuvm k newsz => exact h.allocuvm hstep
  | allocStack k => exact h.allocStack hstep
  | execBad k => exact h.execBad hstep
  | commit k => exact h.commit hstep
  | growproc k n => exact h.growproc hstep
  | exit k => exact h.exit hstep
  | kfreeStack k => exact h.kfreeStack hstep
  | freevm k => exact h.freevm hstep
  | pipealloc i => exact h.pipealloc hstep
  | pipeclose i => exact h.pipeclose hstep
  | store r va words => exact h.store hstep
  | storeKept o words => exact h.storeKept hstep

end

theorem trace (word : Nat → Index → Nat) (e : Trace (Kernel.boot L word) (Kernel.step L)) :
    ∀ t ≤ e.len, (e.state t).Sound L :=
  e.invariant (boot L word) fun _ _ _ h hstep => h.step hstep

end Kernel.Sound

/-- After any calls of the kernel: every page of the allocator is on the free list, once, and nobody holds it,
or it is not and has one holder, a directory, a page table, a user mapping, a stack or a pipe; and when
`setupkvm`, `copyuvm` or `allocuvm` fails, the pages that were free are free, but for page tables of the
directory that `allocuvm` was given. -/
theorem pages_conserved (L : Layout) (word : Nat → Index → Nat) (e : Trace (Kernel.boot L word) (Kernel.step L)) :
    ∀ t ≤ e.len, (∃ l, FreeList (e.state t).mem l ∧ l.Nodup ∧ (∀ pg ∈ l, L.first ≤ pg ∧ pg < (e.state t).top) ∧
      ∀ pg, L.first ≤ pg → pg < (e.state t).top →
        (pg ∈ l ∧ ∀ p, (e.state t).space.page p ≠ pg) ∨ (pg ∉ l ∧ ∃! p, (e.state t).space.page p = pg)) ∧
    (∀ m, setupkvm L (e.state t).mem = .ok (0, m) → ∀ pg, Free m pg ↔ Free (e.state t).mem pg) ∧
    (∀ k m, (e.state t).Running k → copyuvm L (e.state t).mem ((e.state t).proc k).pgdir ((e.state t).proc k).sz =
      .ok (0, m) → ∀ pg, Free m pg ↔ Free (e.state t).mem pg) ∧
    (∀ r oldsz newsz m, (e.state t).root r ≠ 0 → allocuvm L (e.state t).mem ((e.state t).root r) oldsz newsz =
      .ok (0, m) → ∀ pg, Free (e.state t).mem pg → Free m pg ∨ ∃ i, tableOf m.word ((e.state t).root r) i = pg) := by
  intro t ht
  have h := Kernel.Sound.trace word e t ht
  generalize e.state t = s at h
  have hspare := h.inv.spare
  refine ⟨?_, fun m hrun => ?_, fun k m hk hrun => ?_, fun r oldsz newsz m hr hrun pg hfree => ?_⟩
  · obtain ⟨l, hlisted⟩ := h.inv.books
    refine ⟨l, hlisted.linked, hlisted.nodup, fun pg hmem => ?_, fun pg hlo hhi => ?_⟩
    · obtain ⟨hlo, hhi, -⟩ := hlisted.mem_iff.mp hmem
      exact ⟨hlo, hhi⟩
    have hpos := h.pool.pos
    by_cases hmem : pg ∈ l
    · refine Or.inl ⟨hmem, fun p heq => hlisted.ne_of_mem hmem (by omega) heq⟩
    · refine Or.inr ⟨hmem, ?_⟩
      rw [hlisted.mem_iff] at hmem
      push Not at hmem
      obtain ⟨p, hp, heq⟩ := hmem hlo hhi
      refine ⟨p, heq, fun q hq => h.inv.inj (hq.trans heq.symm) (by omega)⟩
  · rcases (hspare.setupkvm h.pool (r := none) (o := Keep.mem) rfl rfl).of_ok hrun with ⟨-, hinv, hframe, -⟩ | ⟨hne, -⟩
    · exact hspare.free_same hinv hframe
    · exact absurd rfl hne
  · obtain ⟨hroot, hdir⟩ := h.root_of_live hk
    have hsrc : Source s.space.spare none (some (Dir.proc k)) (s.proc k).pgdir :=
      ⟨nofun, hroot.trans_ne hdir, hroot.symm⟩
    rcases (hspare.copyuvm h.pool (o := Keep.mem) rfl rfl hsrc (h.procs k).size.le).of_ok hrun with
      ⟨-, hinv, hframe, -⟩ | ⟨hne, -⟩
    · exact hspare.free_same hinv hframe
    · exact absurd rfl hne
  · obtain ⟨hinv, hcase⟩ := (h.inv.allocuvm h.pool (o := Keep.mem) hr rfl oldsz newsz).of_ok hrun
    rcases hcase with ⟨-, hcleared, -⟩ | ⟨-, heq⟩ | ⟨hlt, -, heq⟩ | ⟨hzero, -, -, hgrown, -⟩
    · exact h.inv.free_cleared hinv hcleared hfree
    · cases heq
      exact Or.inl hfree
    · cases heq
      exact absurd hlt (Nat.not_lt_zero _)
    · refine h.inv.free_cleared hinv ⟨fun e he => ?_, hgrown.same, hgrown.frame⟩ hfree
      exact absurd he (span_empty (by omega) e)

theorem data_aligned_page : (KERNLINK + PGSIZE) % PGSIZE = 0 := by decide

theorem link_lt_page : KERNLINK < KERNLINK + PGSIZE := by decide

def twoPages : Layout := ⟨KERNLINK + PGSIZE, KERNBASE + 1022 * PGSIZE, data_aligned_page,
    link_lt_page, by decide, by decide⟩

def threePipes : Trace (Kernel.boot twoPages fun _ _ => 0) (Kernel.step twoPages) :=
  Trace.ofList [.pipealloc 0, .pipealloc 1, .pipealloc 2] (.pipealloc 0) (by decide +kernel)

theorem pages_conserved_threePipes :
    (threePipes.state 3).pipe 0 = 1023 ∧ (threePipes.state 3).pipe 2 = 0 ∧ ∃! p, (threePipes.state 3).space.page p =
    1023 := by
  obtain ⟨⟨l, -, -, -, hpages⟩, -⟩ := pages_conserved twoPages (fun _ _ => 0) threePipes 3 (by decide)
  have hpipe : (threePipes.state 3).pipe 0 = 1023 := by decide +kernel
  refine ⟨hpipe, by decide +kernel, ?_⟩
  rcases hpages 1023 (by decide) (by decide +kernel) with ⟨-, hnone⟩ | ⟨-, hone⟩
  · exact absurd hpipe (hnone (.kept (.pipe 0)))
  · exact hone

end Laboratorio.Vm
