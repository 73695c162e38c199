import Laboratorio.VmGrow

/-! The kernel when `userinit` is done: one process, with one page, and the rest of the first four megabytes free. -/

namespace Laboratorio.Vm

open Function

section First

variable {L : Layout} {s : Kernel} {k : Procs.Slot} {n : Nat}

theorem Kernel.Sound.room_of_none (h : s.Sound L) (hnone : ∀ p, s.space.page p = 0) : Room s.mem (s.top - L.first) := by
  obtain ⟨l, hlisted⟩ := h.inv.books
  have hsub : List.range' L.first (s.top - L.first) ⊆ l := by
    intro pg hpg
    rw [List.mem_range'_1] at hpg
    exact hlisted.mem_iff.mpr ⟨hpg.1, by omega, fun p hp => absurd (hnone p) hp⟩
  refine ⟨l, hlisted.linked, ?_⟩
  calc s.top - L.first = (List.range' L.first (s.top - L.first)).length := List.length_range'.symm
    _ ≤ l.length := (List.subperm_of_subset List.nodup_range' hsub).length_le

theorem Kernel.Sound.exists_embryo (h : s.Sound L) (hstage : (s.proc k).stage = .unused) (hroom : Room s.mem (n + 1)) :
    ∃ s', s.step L (.allocproc k) = some s' ∧ s'.Sound L ∧ (s'.proc k).stage = .embryo ∧
      (s'.proc k).exec = (s.proc k).exec ∧ Room s'.mem n := by
  obtain ⟨⟨pg, m⟩, hrun⟩ : ∃ x, kalloc s.mem = x := ⟨_, rfl⟩
  have hpg := (hroom.mono (Nat.le_add_left 1 n)).kalloc_ne_zero hrun
  have hzero : s.space.keep (.kstack k) = 0 := (h.procs k).stack (Or.inl hstage)
  have hput : m.put pg (m.word pg) = m := by rw [Memory.put, update_eq_self]
  have hleft := ((h.inv.kallocPut h.pool.pos hzero hrun (m.word pg)).resolve_left fun hnone => hpg hnone.1).2.2.2 n
    hroom
  rw [hput] at hleft
  have hstep : s.step L (.allocproc k) = some (s.setProc m k { s.proc k with kstack := pg, stage := .embryo }) := by
    simp only [Kernel.step, hstage, if_true, hrun, hpg, if_false]
  refine ⟨_, hstep, h.allocproc hstep, ?_, ?_, hleft⟩
  · simp only [Kernel.setProc, update_self]
  · simp only [Kernel.setProc, update_self]

theorem Kernel.Sound.exists_user (h : s.Sound L) (hstage : (s.proc k).stage = .embryo) (hexec : (s.proc k).exec = .none)
    (hroom : Room s.mem (n + 69)) :
    ∃ s', s.step L (.userinit k) = some s' ∧ s'.Sound L ∧ s'.Running k ∧ (s'.proc k).sz = PGSIZE ∧
      s'.space.MappedTo (.proc k) PGSIZE ∧ Room s'.mem n := by
  have hroot := Kernel.Sound.root_of_stage hstage
  obtain ⟨⟨d, m⟩, hsetup, hres⟩ := (h.inv.setupkvm h.pool (r := Dir.proc k) (o := Keep.mem) hroot rfl).exists_ok
  obtain ⟨hd, hinv, hkernel, -, hleft⟩ := hres.resolve_left fun hfull => hfull.2.2.2 (hroom.mono (by omega))
  have hroom' : Room m (n + 2) := hleft (n + 2) (hroom.mono (by omega))
  have hself : update s.space.root (.proc k) d (.proc k) = d := update_self _ _ _
  have hinit := hinv.inituvm (o := Keep.mem) h.pool.pos (by dsimp only; rwa [hself]) rfl
  dsimp only at hinit hkernel
  rw [hself, hkernel] at hinit
  have hstop : ¬(present (kernelPte L (entry 0)) ∨ ¬Room m 2) := by
    rw [kernelPte_user L (by decide), not_or, not_not]
    exact ⟨not_present_zero, hroom'.mono (Nat.le_add_left 2 n)⟩
  obtain ⟨⟨mem, r, m'⟩, hrun, hentries, hsupply⟩ := (hinit.mono_stop fun _ herr => hstop herr).exists_ok
  obtain ⟨hmem, hr, hroom''⟩ := hsupply n hroom'
  obtain ⟨-, hfirst, hrest⟩ := hentries ⟨hmem, hr⟩
  have hstep : s.step L (.userinit k) =
    some (s.setProc m' k { s.proc k with stage := .live, pgdir := d, sz := PGSIZE }) := by
    change Vm.setupkvm L s.mem = .ok (d, m) at hsetup
    simp only [Kernel.step, hstage, if_true]
    rw [hsetup]
    refine Option.bind_eq_some_iff.mpr ⟨(d, m), rfl,
      Option.bind_eq_some_iff.mpr ⟨(mem, r, m'), ?_, if_pos ⟨hd, hmem, hr⟩⟩⟩
    rw [hrun]
    rfl
  refine ⟨_, hstep, h.userinit hstep, ?_, ?_, fun e he => ?_, hroom''⟩
  · simp only [Kernel.Running, Kernel.setProc, update_self]
    exact ⟨trivial, hexec⟩
  · simp only [Kernel.setProc, update_self]
  have hpte : (s.setProc m' k { s.proc k with stage := .live, pgdir := d, sz := PGSIZE }).space.pte (.proc k) e =
    pteOf m'.word d e := by
    simp only [Space.pte, Kernel.space, Kernel.root, Kernel.setProc, update_self, Proc.root]
  have hnew : pteOf m'.word d e = Space.pte ⟨m', update s.space.root (.proc k) d, s.space.keep⟩ (.proc k) e := by
    rw [Space.pte]
    dsimp only
    rw [hself]
  rw [hpte, hnew]
  by_cases hfirst' : e = entry 0
  · rw [hfirst']
    exact iff_of_true hfirst (by decide)
  · refine iff_of_false ?_ fun hlt => hfirst' (eq_entry_of_span rfl (by decide) ⟨Nat.zero_le _, ?_⟩)
    · rw [hrest e hfirst', kernelPte_user L he]
      exact not_present_zero
    · exact hlt

end First

def smallKernel : Layout :=
    ⟨KERNLINK + PGSIZE, KERNLINK + PGSIZE, data_aligned_page, link_lt_page, by decide, by decide⟩

theorem smallKernel_first : ∃ s : Kernel, s.Sound smallKernel ∧ s.Running 0 ∧ (s.proc 0).sz = PGSIZE ∧
    s.space.MappedTo (.proc 0) PGSIZE ∧ Room s.mem 600 := by
  have hboot := Kernel.Sound.boot smallKernel fun _ _ => 0
  have hnone : ∀ p, (Kernel.boot smallKernel fun _ _ => 0).space.page p = 0 := by
    apply Space.page_none
    · rintro (- | k | k) <;> rfl
    · rintro (k | cpu | i | -) <;> rfl
  have hroom : Room (Kernel.boot smallKernel fun _ _ => 0).mem (700 + 1) := (hboot.room_of_none hnone).mono (by decide)
  obtain ⟨s₁, -, hs₁, hstage, hexec, hroom₁⟩ := hboot.exists_embryo rfl hroom
  obtain ⟨s, -, hs, hrun, hsz, hmapped, hleft⟩ := hs₁.exists_user hstage hexec (n := 600) (hroom₁.mono (by omega))
  exact ⟨s, hs, hrun, hsz, hmapped, hleft⟩

end Laboratorio.Vm
