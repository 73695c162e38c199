import Laboratorio.VmBoot

/-! What `fork` makes of the memory of the parent, and what stores leave of the memory of other processes, whatever
the kernel has done before. -/

namespace Laboratorio.Vm

open Function
open Procs (Slot)

section Spaces

variable {R K : Type} {s s₁ s' : Space R K} {r : R}

/-- The directory `r` is where it was, with the entries that it had and the same words in its user pages. -/
structure Space.SameMemory (s s' : Space R K) (r : R) : Prop where
  root : s'.root r = s.root r
  pte : ∀ e, s'.pte r e = s.pte r e
  words : ∀ e, IsUser e.1 → present (s.pte r e) → s'.mem.word (pteAddr (s.pte r e)) = s.mem.word (pteAddr (s.pte r e))

theorem Space.SameMemory.trans (h : s.SameMemory s₁ r) (h' : s₁.SameMemory s' r) : s.SameMemory s' r := by
  refine ⟨h'.root.trans h.root, fun e => (h'.pte e).trans (h.pte e), fun e he hp => ?_⟩
  have hwords := h'.words e he
  rw [h.pte] at hwords
  exact (hwords hp).trans (h.words e he hp)

theorem Frame.sameMemory {S : Holder R K → Prop} {lo hi : Nat} (h : Frame S s s') (hinv : Inv s lo hi)
    (hdir : S (.dir r)) (htable : ∀ i, S (.table r i)) (huser : ∀ e, S (.user r e)) : s.SameMemory s' r := by
  refine ⟨h.page (.dir r) hdir, h.pte htable, fun e he hp => ?_⟩
  have hpage : s.page (.user r e) = pteAddr (s.pte r e) := by rw [Space.page_user he, frame_of_present hp]
  have hword := h.word (.user r e) (huser e)
  rw [hpage] at hword
  exact hword (hinv.users r e he hp)

end Spaces

/-- A store through the user mappings of a directory other than `r`, or into a stack or a pipe. -/
def Act.StoresBeside (r : Dir) : Act → Prop
  | .store q _ _ => q ≠ r
  | .storeKept _ _ => True
  | _ => False

namespace Kernel

variable {L : Layout} {word : Nat → Index → Nat} {acts : List Act} {s s' : Kernel} {r : Dir}

theorem Sound.foldlM (hrun : acts.foldlM (Kernel.step L) (Kernel.boot L word) = some s) : s.Sound L := by
  have hsome : (acts.foldlM (Kernel.step L) (Kernel.boot L word)).isSome := by
    rw [hrun]
    rfl
  rw [← Trace.ofList_last .kinit2 hsome hrun]
  exact Sound.trace word _ _ (le_refl _)

theorem Sound.sameMemory_store {a : Act} (h : s.Sound L) (hstep : s.step L a = some s') (ha : a.StoresBeside r) :
    s.space.SameMemory s'.space r := by
  cases a with
  | store q va words =>
    obtain ⟨hne, rfl⟩ := h.store_cases hstep
    refine (h.inv.put hne nofun nofun words).2.2.sameMemory h.inv nofun nofun fun e heq => ?_
    cases heq
    exact ha rfl
  | storeKept o words =>
    obtain ⟨hne, hstep⟩ := Option.ite_none_left_eq_some.mp hstep
    cases hstep
    exact (h.inv.put (q := .kept o) hne nofun nofun words).2.2.sameMemory h.inv nofun nofun nofun
  | _ => exact ha.elim

end Kernel

/-! ### `fork` -/

namespace Kernel

variable {L : Layout} {s s' : Kernel} {parent j k : Slot}

theorem Sound.source (h : s.Sound L) (hcond : s.Running parent ∧ (s.proc k).stage = .embryo) :
    Source s.space (.proc k) (.proc parent) (s.proc parent).pgdir := by
  obtain ⟨hroot, hdir⟩ := h.root_of_live hcond.1
  refine ⟨fun heq => ?_, hroot.trans_ne hdir, hroot.symm⟩
  have hlive := hcond.1.1
  rw [Dir.proc.inj heq, hcond.2] at hlive
  cases hlive

/-- With the pages of the parent in place and memory enough, `fork` succeeds. -/
theorem Sound.exists_child (h : s.Sound L) (hcond : s.Running parent ∧ (s.proc k).stage = .embryo)
    (hmapped : s.space.MappedTo (.proc parent) (s.proc parent).sz)
    (hroom : Room s.mem (67 + 2 * ((s.proc parent).sz / PGSIZE + 1))) :
    ∃ s', s.step L (.copyuvm parent k) = some s' ∧ (s'.proc k).stage = .live := by
  have hspec := h.inv.copyuvm h.pool (r := Dir.proc k) (o := Keep.mem) (root_of_stage hcond.2) rfl (h.source hcond)
    (h.procs parent).size.le
  obtain ⟨⟨d, m⟩, hok, hres⟩ := (hspec.mono_stop fun _ ⟨e, he, hno⟩ => hno
    ((hmapped e ((isUser_iff e).mpr (he.2.trans (h.procs parent).size))).mpr
    (he.2.trans_le (le_PGROUNDUP _)))).exists_ok
  have hd := (hres.resolve_left fun hfull => hfull.2.2.2 hroom).1
  change Vm.copyuvm L s.mem _ _ = _ at hok
  refine ⟨_, (if_pos hcond).trans (Option.bind_eq_some_iff.mpr ⟨(d, m), by rw [hok]; rfl, rfl⟩), ?_⟩
  simp [Kernel.setProc, hd]

theorem proc_allocproc (hstep : s.step L (.allocproc k) = some s') (hj : j ≠ k) : s'.proc j = s.proc j := by
  obtain ⟨-, hstep⟩ := Option.ite_none_right_eq_some.mp hstep
  cases hstep
  exact update_of_ne hj _ _

theorem proc_userinit (hstep : s.step L (.userinit k) = some s') (hj : j ≠ k) : s'.proc j = s.proc j := by
  obtain ⟨-, hstep⟩ := Option.ite_none_right_eq_some.mp hstep
  obtain ⟨x, -, hrest⟩ := Option.bind_eq_some_iff.mp hstep
  obtain ⟨y, -, hlast⟩ := Option.bind_eq_some_iff.mp hrest
  obtain ⟨-, hlast⟩ := Option.ite_none_right_eq_some.mp hlast
  cases hlast
  exact update_of_ne hj _ _

end Kernel

/-- A `fork` that succeeds changes no memory but that of the child, which has a copy of every page of the parent below
its size, with its flags, and otherwise the entries of `setupkvm`. -/
theorem Kernel.Sound.forked {L : Layout} {s s' : Kernel} {parent k : Slot} (h : s.Sound L)
    (hstep : s.step L (.copyuvm parent k) = some s') (hlive : (s'.proc k).stage = .live) :
    Frame (Apart (.proc k) Set.univ ∅) s.space s'.space ∧
    (∀ i, i ∉ Span 0 (s.proc parent).sz → s'.space.pte (.proc k) i = kernelPte L i) ∧
    ∀ i ∈ Span 0 (s.proc parent).sz, CopyOf s.space (.proc parent) s'.space (.proc k) i := by
  obtain ⟨hcond, hstep⟩ := Option.ite_none_right_eq_some.mp hstep
  obtain ⟨⟨d, m⟩, hrun, hrest⟩ := Option.bind_eq_some_iff.mp hstep
  have hnext := Option.some.inj hrest
  rcases (h.inv.copyuvm h.pool (r := Dir.proc k) (o := Keep.mem) (root_of_stage hcond.2) rfl (h.source hcond)
    (h.procs parent).size.le).of_some hrun with
    ⟨hzero, -⟩ | ⟨hd, -, hframe, hkernel, hcopy, -⟩
  · rw [← hnext, if_pos hzero] at hlive
    simp [Kernel.setProc] at hlive
  rw [if_neg hd] at hnext
  have hspace : s'.space = { s.space with mem := m, root := update s.root (.proc k) d } := by
    rw [← hnext, Kernel.space, root_setProc, keep_setProc,
      update_exec s k (update_of_ne (show Dir.exec k ≠ .proc k by simp) _ _) rfl, update_stack s k rfl]
    rfl
  rw [hspace]
  exact ⟨hframe, hkernel, hcopy⟩

/-- Whatever the kernel has done before, `fork` copies the memory of the parent, every page into one that nothing else
holds, and leaves that of every other process. -/
theorem fork_copies (L : Layout) (word : Nat → Index → Nat) (before : List Act) {s s' : Kernel} {parent k : Slot}
    (hbefore : before.foldlM (Kernel.step L) (Kernel.boot L word) = some s)
    (hstep : s.step L (.copyuvm parent k) = some s') (hlive : (s'.proc k).stage = .live) :
    (∀ i ∈ Span 0 (s.proc parent).sz, CopyOf s.space (.proc parent) s'.space (.proc k) i ∧
      ∀ p, s'.space.page p = pteAddr (s'.space.pte (.proc k) i) → p = .user (.proc k) i) ∧
    (∀ i, i ∉ Span 0 (s.proc parent).sz → s'.space.pte (.proc k) i = kernelPte L i) ∧
    ∀ r, r ≠ .proc k → s.space.SameMemory s'.space r := by
  have h := Kernel.Sound.foldlM hbefore
  obtain ⟨hframe, hkernel, hcopy⟩ := h.forked hstep hlive
  have hinv := (h.step hstep).inv
  refine ⟨fun i hi => ⟨hcopy i hi, fun p hp => ?_⟩, hkernel,
    fun r hr => hframe.sameMemory h.inv hr (fun _ => hr) fun _ heq => absurd heq hr⟩
  have huser : IsUser i.1 := (isUser_iff i).mpr (hi.2.trans (h.procs parent).size)
  have hpage := (Space.page_user huser).trans (frame_of_present (hcopy i hi).target)
  exact (hinv.inj (hpage.trans hp.symm) (hpage.trans_ne (hinv.users _ _ huser (hcopy i hi).target))).symm

/-- The first process, and a second one that has a stack but no memory. -/
theorem smallKernel_second : ∃ s, [.allocproc 0, .allocproc 1, .userinit 0].foldlM (Kernel.step smallKernel)
    (Kernel.boot smallKernel fun _ _ => 0) = some s ∧ (s.proc 0).sz = PGSIZE ∧
      ∃ s', s.step smallKernel (.copyuvm 0 1) = some s' ∧ (s'.proc 1).stage = .live := by
  have hboot := Kernel.Sound.boot smallKernel fun _ _ => 0
  have hnone : ∀ p, (Kernel.boot smallKernel fun _ _ => 0).space.page p = 0 := by
    apply Space.page_none
    · rintro (- | k | k) <;> rfl
    · rintro (k | cpu | i | -) <;> rfl
  obtain ⟨s₁, hstep₁, hs₁, hstage₁, hexec₁, hroom₁⟩ :=
    hboot.exists_embryo (k := 0) rfl (n := 701) ((hboot.room_of_none hnone).mono (by decide))
  have hunused : (s₁.proc 1).stage = .unused := by rw [Kernel.proc_allocproc hstep₁ (by decide)]; rfl
  obtain ⟨s₂, hstep₂, hs₂, hstage₂, -, hroom₂⟩ := hs₁.exists_embryo hunused (n := 700) hroom₁
  have hfirst : s₂.proc 0 = s₁.proc 0 := Kernel.proc_allocproc hstep₂ (by decide)
  rw [← hfirst] at hstage₁ hexec₁
  obtain ⟨s, hstep, hs, hrun, hsz, hmapped, hroom⟩ :=
    hs₂.exists_user hstage₁ (hexec₁.trans rfl) (n := 600) (hroom₂.mono (by omega))
  have hchild : (s.proc 1).stage = .embryo := by rw [Kernel.proc_userinit hstep (by decide), hstage₂]
  rw [← hsz] at hmapped
  refine ⟨s, by simp [hstep₁, hstep₂, hstep], hsz, ?_⟩
  exact hs.exists_child ⟨hrun, hchild⟩ hmapped (hroom.mono (by rw [hsz]; decide))

/-- The first process forks. -/
theorem fork_copies_first : ∃ s s', [.allocproc 0, .allocproc 1, .userinit 0].foldlM (Kernel.step smallKernel)
    (Kernel.boot smallKernel fun _ _ => 0) = some s ∧ s.step smallKernel (.copyuvm 0 1) = some s' ∧
      CopyOf s.space (.proc 0) s'.space (.proc 1) (entry 0) := by
  obtain ⟨s, hbefore, hsz, s', hfork, hlive⟩ := smallKernel_second
  refine ⟨s, s', hbefore, hfork, ((fork_copies smallKernel _ _ hbefore hfork hlive).1 (entry 0) ⟨Nat.zero_le _, ?_⟩).1⟩
  rw [hsz]
  decide

/-! ### Stores -/

/-- Whatever the kernel has done before, no stores of other processes and none into pages of the kernel change the
memory of a process. -/
theorem stores_isolated (L : Layout) (word : Nat → Index → Nat) (before acts : List Act) {s s' : Kernel} (r : Dir)
    (hbefore : before.foldlM (Kernel.step L) (Kernel.boot L word) = some s)
    (hrun : acts.foldlM (Kernel.step L) s = some s')
    (hacts : ∀ a ∈ acts, a.StoresBeside r) : s.space.SameMemory s'.space r := by
  have h := Kernel.Sound.foldlM hbefore
  clear hbefore
  induction acts generalizing s with
  | nil =>
    cases hrun
    exact ⟨rfl, fun _ => rfl, fun _ _ _ => rfl⟩
  | cons a acts ih =>
    rw [List.foldlM_cons] at hrun
    obtain ⟨s₁, hstep, hrest⟩ := Option.bind_eq_some_iff.mp hrun
    have hfirst := h.sameMemory_store hstep (hacts a List.mem_cons_self)
    exact hfirst.trans (ih hrest (fun b hb => hacts b (List.mem_cons_of_mem a hb)) (h.step hstep))

/-- The child of a `fork` writes to its first page, of which the parent has the original. -/
theorem stores_isolated_fork :
    ∃ s s', [.allocproc 0, .allocproc 1, .userinit 0, .copyuvm 0 1].foldlM (Kernel.step smallKernel)
      (Kernel.boot smallKernel fun _ _ => 0) = some s ∧ s.step smallKernel (.store (.proc 1) 0 fun _ => 7) = some s' ∧
      present (s.space.pte (.proc 0) (entry 0)) ∧ s.space.SameMemory s'.space (.proc 0) := by
  obtain ⟨s₀, hbefore, hsz, s, hfork, hlive⟩ := smallKernel_second
  have h₀ := Kernel.Sound.foldlM hbefore
  have h := h₀.step hfork
  have hrun : [.allocproc 0, .allocproc 1, .userinit 0, .copyuvm 0 1].foldlM (Kernel.step smallKernel)
      (Kernel.boot smallKernel fun _ _ => 0) = some s := by
    rw [show [Act.allocproc 0, .allocproc 1, .userinit 0, .copyuvm 0 1] =
      [.allocproc 0, .allocproc 1, .userinit 0] ++ [.copyuvm 0 1] from rfl, List.foldlM_append, hbefore]
    simpa using hfork
  obtain ⟨hframe, -, hcopies⟩ := h₀.forked hfork hlive
  have hcopy := hcopies (entry 0) ⟨Nat.zero_le _, by rw [hsz]; decide⟩
  have hroot : s.root (.proc 1) ≠ 0 := by
    rw [Kernel.root, Proc.root, hlive]
    exact (h.procs 1).dir (Or.inl hlive)
  have hstore : s.step smallKernel (.store (.proc 1) 0 fun _ => 7) = _ := h.store_eq hroot (by decide) _
  rw [if_pos hcopy.target] at hstore
  refine ⟨s, _, hrun, hstore, ?_, stores_isolated smallKernel _ _ [.store (.proc 1) 0 fun _ => 7] (.proc 0) hrun ?_ ?_⟩
  · rw [hframe.pte fun _ => (by decide : Dir.proc 0 ≠ .proc 1)]
    exact hcopy.source
  · simpa using hstore
  · intro a ha
    rw [List.mem_singleton.mp ha]
    exact (by decide : Dir.proc 1 ≠ .proc 0)

end Laboratorio.Vm
