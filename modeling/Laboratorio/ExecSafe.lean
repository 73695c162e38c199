import Mathlib.Algebra.Order.BigOperators.Group.List
import Mathlib.Algebra.Order.Group.Nat
import Laboratorio.ExecStack
import Laboratorio.VmBoot

/-! `exec` of a hostile file. Whatever the headers say, it stops without effect or leaves an image whose pages are those
below its size, with the arguments on the stack. -/

namespace Laboratorio.Vm

open Function

open Procs (Slot)

/-! ### The image -/

variable {argv : List (List UInt8)}

section Image

variable {R K : Type} [DecidableEq R] {L : Layout} {s : Space R K} {r : R} {o : K} {d lo hi : Nat} {m : Memory}
  {file : List UInt8}

theorem Staged.buildImage [DecidableEq K] (h : Staged L ∅ s r d lo hi 0 m) (hpool : Pool L lo hi) (ho : s.keep o = 0)
    (elf : Elfhdr) (argv : List (List UInt8)) :
    Ends (fun _ => ¬∀ arg ∈ argv, arg.length < 2 ^ 24) (buildImage L m d file elf argv) fun res =>
      Stopped s r d lo hi res.2 ∧ (∀ sz sp, res.1 = some (sz, sp) → Stack L s r d lo hi sz res.2.mem ∧ Fits argv ∧
          Delivered res.2.mem d sz sp argv (argAddrs sz argv)) ∧
          (elf.phnum = 0 → Room m 6 → Fits argv → res.1 ≠ none) := by
  have hstart : Loading L s r d lo hi 0 ⟨m, []⟩ := ⟨h, nofun⟩
  unfold Vm.buildImage
  by_cases hnone : elf.phnum = 0
  · rw [hnone]
    refine (h.buildStack hpool ho argv).bind ?_
    rintro ⟨image, m'⟩ ⟨hbuilt, himage, hsupply⟩
    exact .ok ⟨⟨hbuilt, nofun⟩, himage, fun _ hroom => hsupply (by decide) hroom⟩
  refine (hstart.loadSegments hpool ho (by decide) elf.phnum elf.phoff).never.bind ?_
  rintro ⟨loaded, l⟩ ⟨hstopped, hloaded⟩
  cases loaded with
  | none => exact .ok ⟨hstopped, nofun, fun hzero => absurd hzero hnone⟩
  | some sz =>
    obtain ⟨hloading, -⟩ := hloaded sz rfl
    refine (hloading.staged.buildStack hpool ho argv).bind ?_
    rintro ⟨image, m'⟩ ⟨hbuilt, himage, -⟩
    exact .ok ⟨⟨hbuilt, hstopped.fresh⟩, himage, fun hzero => absurd hzero hnone⟩

theorem Delivered.congr {m' : Memory} {sz esp : Nat} {ptrs : List Nat} (h : Delivered m d sz esp argv ptrs)
    (hpte : pteOf m'.word d = pteOf m.word d) (hbyte : ∀ x < sz, userByte m' d x = userByte m d x) :
    Delivered m' d sz esp argv ptrs := by
  have htop := h.top
  refine ⟨h.count, fun i w hw => ?_, fun i arg p harg hp j b hj => ?_, h.low, h.within, h.apart, h.top, h.page, ?_, ?_⟩
  · obtain ⟨hlt, -⟩ := List.getElem?_eq_some_iff.mp hw
    simp only [List.length_append, List.length_cons, List.length_nil, h.count] at hlt
    rw [← h.words i w hw]
    unfold userWord
    rw [hbyte _ (by omega), hbyte _ (by omega), hbyte _ (by omega), hbyte _ (by omega)]
  · obtain ⟨hlt, -⟩ := List.getElem?_eq_some_iff.mp hj
    have hin := (h.within i arg p harg hp).2
    rw [hbyte _ (by omega)]
    exact h.copies i arg p harg hp j b hj
  · rw [hpte]
    exact h.usable
  · rw [hpte]
    exact h.guarded

end Image

/-! ### `exec` -/

/-- What a call of `exec` is to leave: file bytes only in user pages of the new directory, none of which was in use; and
either nothing changed, with the same pages free, or an image whose pages are there. -/
structure Harmless (L : Layout) (s : Kernel) (k : Slot) (tf : Trapframe) (out : Outcome) : Prop where
  sound : out.kernel.Sound L
  stores : ∀ st ∈ out.stores, st.Fresh s.space
  ends : (out.ret = -1 ∧ out.kernel.proc = s.proc ∧ out.tf = tf ∧ ∀ pg, Free out.kernel.mem pg ↔ Free s.mem pg) ∨
    (out.ret = 0 ∧ ∀ va < (out.kernel.proc k).sz,
    present (pteOf out.kernel.mem.word (out.kernel.proc k).pgdir (entry va)))

/-- The process after a call of `exec` that succeeds: its pages are those below its size, and the user may use them but
for the guard page; the arguments are on its stack. -/
structure Image (L : Layout) (k : Slot) (argv : List (List UInt8)) (out : Outcome) : Prop where
  running : out.kernel.Running k
  mapped : out.kernel.space.MappedTo (.proc k) (out.kernel.proc k).sz
  laid : out.kernel.space.Laid L (.proc k) {entry ((out.kernel.proc k).sz - 2 * PGSIZE)}
  fits : Fits argv
  delivered : Delivered out.kernel.mem (out.kernel.proc k).pgdir (out.kernel.proc k).sz out.tf.esp argv
    (argAddrs (out.kernel.proc k).sz argv)

section Kernel

variable {L : Layout} {s : Kernel} {k : Slot} {m : Memory}

theorem Harmless.unchanged (hs : s.Sound L) (k : Slot) (tf : Trapframe) : Harmless L s k tf ⟨-1, s, tf, []⟩ :=
  ⟨hs, nofun, Or.inl ⟨rfl, rfl, rfl, fun _ => Iff.rfl⟩⟩

theorem Harmless.failed (hs : s.Sound L) {stores : List Store} (hstores : ∀ st ∈ stores, st.Fresh s.space)
    (hinv : Inv { s.space with mem := m } L.first s.top)
    (hframe : Frame (fun _ => True) s.space { s.space with mem := m })
    (k : Slot) (tf : Trapframe) : Harmless L s k tf ⟨-1, { s with mem := m }, tf, stores⟩ :=
  ⟨⟨hinv, hs.top, hs.procs⟩, hstores, Or.inl ⟨rfl, rfl, rfl, hs.inv.free_same hinv hframe⟩⟩

theorem Kernel.Running.root_exec (hk : s.Running k) : s.space.root (.exec k) = 0 := by
  change (s.proc k).exec.root = 0
  rw [hk.2]
  rfl

theorem Built.building (hs : s.Sound L) {d sz : Nat} (h : Built s.space (.exec k) d L.first s.top m)
    (hsz : sz < KERNBASE) : (s.setProc m k { s.proc k with exec := .building d sz }).Sound L := by
  have hgood := hs.procs k
  refine hs.setProc_exec ⟨hgood.size, fun d' sz' heq => ?_, nofun, hgood.dir, hgood.stack⟩ rfl rfl h.inv
  cases heq
  exact ⟨h.dir, hsz⟩

theorem Built.commit (hs : s.Sound L) (hk : s.Running k) {d sz : Nat} (h : Built s.space (.exec k) d L.first s.top m)
    (hsz : sz < KERNBASE) :
    Ends (fun _ => False) (Vm.freevm L m (s.proc k).pgdir) fun m' =>
      (s.setProc m' k { s.proc k with pgdir := d, sz := sz }).Sound L ∧ pteOf m'.word d = pteOf m.word d ∧
        ∀ e, IsUser e.1 → present (pteOf m.word d e) →
        m'.word (pteAddr (pteOf m.word d e)) = m.word (pteAddr (pteOf m.word d e)) := by
  obtain ⟨hroot, hdir⟩ := hs.root_of_live hk
  have hother : Dir.exec k ≠ .proc k := nofun
  have hold : (s.space.holding (.exec k) d m).root (.proc k) = (s.proc k).pgdir := by
    rw [← hroot]
    exact update_of_ne hother.symm d s.root
  have hfree := h.inv.freevm hs.pool (by rwa [hold])
  rw [hold] at hfree
  obtain ⟨m', hrun, hinv, hframe⟩ := hfree.exists_ok
  change Vm.freevm L m (s.proc k).pgdir = .ok m' at hrun
  rw [hrun]
  refine .ok ⟨(h.building hs hsz).commit (k := k) ?_, ?_, fun e he hpresent => ?_⟩
  · have hstep : (s.setProc m k { s.proc k with exec := .building d sz }).step L (.commit k) =
        some (s.setProc m' k { s.proc k with pgdir := d, sz := sz, exec := .none }) := by
      simp [Kernel.step, Kernel.setProc, hk.1, hrun, Except.toOption]
    rw [hstep, ← hk.2]
  · funext e
    have hpte := hframe.pte (fun i => hother) e
    rw [Space.pte_holding, Space.pte] at hpte
    dsimp only at hpte
    rwa [update_of_ne hother, Space.root_holding] at hpte
  · rw [← Space.pte_holding s.space (.exec k) d m] at hpresent ⊢
    have hpage : (s.space.holding (.exec k) d m).page (.user (.exec k) e) =
      pteAddr ((s.space.holding (.exec k) d m).pte (.exec k) e) := by
      rw [Space.page_user he, frame_of_present hpresent]
    have hword := hframe.word (.user (.exec k) e) fun heq => absurd heq hother
    rw [hpage] at hword
    exact hword (h.inv.users _ e he hpresent)

theorem Stack.image (hk : s.Running k) {d sz sp entry : Nat} {m' : Memory} {stores : List Store}
    (h : Stack L s.space (.exec k) d L.first s.top sz m) (hfits : Fits argv)
    (hdelivered : Delivered m d sz sp argv (argAddrs sz argv))
    (hpte : pteOf m'.word d = pteOf m.word d)
    (hwords : ∀ e, IsUser e.1 → present (pteOf m.word d e) →
    m'.word (pteAddr (pteOf m.word d e)) = m.word (pteAddr (pteOf m.word d e))) :
    Image L k argv ⟨0, s.setProc m' k { s.proc k with pgdir := d, sz := sz }, ⟨entry, sp⟩, stores⟩ := by
  have hproc : (s.setProc m' k { s.proc k with pgdir := d, sz := sz }).proc k =
      { s.proc k with pgdir := d, sz := sz } := update_self _ _ _
  have hroot : (s.setProc m' k { s.proc k with pgdir := d, sz := sz }).space.root (.proc k) = d := by
    change ((s.setProc m' k { s.proc k with pgdir := d, sz := sz }).proc k).root = d
    rw [hproc, Proc.root, hk.1]
  have hnew : (s.setProc m' k { s.proc k with pgdir := d, sz := sz }).space.pte (.proc k) =
      (s.space.holding (.exec k) d m).pte (.exec k) := by
    rw [Space.pte_holding, ← hpte]
    funext e
    rw [Space.pte, hroot]
    rfl
  have hbyte : ∀ x < sz, userByte m' d x = userByte m d x := by
    intro x hx
    obtain ⟨huser, hpresent⟩ := h.present_entry hx h.below.le
    rw [Space.pte_holding] at hpresent
    unfold userByte
    rw [hpte, hwords _ huser hpresent]
  refine ⟨?_, fun e he => ?_, ⟨fun e he => ?_, fun e he => ?_⟩, hfits, ?_⟩
  · dsimp only [Kernel.Running]
    rw [hproc]
    exact hk
  · dsimp only
    rw [hnew, hproc]
    exact h.mapped e he
  · dsimp only
    rw [hnew]
    exact h.laid.kernel e he
  · dsimp only
    rw [hnew, hproc]
    exact h.laid.user e he
  · dsimp only
    rw [hproc]
    exact hdelivered.congr hpte hbyte

/-- Whatever is in the file and whichever pages are free: `exec` of arguments below 16 megabytes completes, is harmless,
and leaves the image where it succeeds; it does, with memory enough, for a program of no segments. -/
theorem exec_ends (hs : s.Sound L) (hk : s.Running k) (tf : Trapframe) (ip : Option (List UInt8))
    (argv : List (List UInt8)) : Ends (fun _ => ¬∀ arg ∈ argv, arg.length < 2 ^ 24) (exec L s k tf ip argv) fun out =>
      Harmless L s k tf out ∧ (out.ret = 0 → Image L k argv out) ∧
        ∀ file b, ip = some file → readi file 0 sizeofElfhdr = ((sizeofElfhdr : Int), b) →
          (elfhdr b).magic = ELF_MAGIC → (elfhdr b).phnum = 0 → Room s.mem 73 → Fits argv → out.ret = 0 := by
  unfold exec
  cases ip with
  | none => exact .ok ⟨.unchanged hs k tf, nofun, nofun⟩
  | some file =>
    dsimp only
    cases hheader : readi file 0 sizeofElfhdr with
    | mk count b =>
    split
    · rename_i hcount
      refine .ok ⟨.unchanged hs k tf, nofun, fun file' b' hfile hread => ?_⟩
      cases hfile
      rw [hheader] at hread
      exact absurd (Prod.mk.inj hread).1 hcount
    split
    · rename_i hmagic
      refine .ok ⟨.unchanged hs k tf, nofun, fun file' b' hfile hread => ?_⟩
      cases hfile
      rw [hheader] at hread
      rw [← (Prod.mk.inj hread).2]
      exact fun hgood => absurd hgood hmagic
    have hempty := hk.root_exec
    refine ((hs.inv.setupkvm hs.pool (o := Keep.mem) hempty rfl).mapError fun _ => False.elim).bind ?_
    rintro ⟨d, m⟩ hsetup
    split
    · rename_i hzero
      rcases hsetup with ⟨-, hinv, hframe, hfull⟩ | ⟨hne, -⟩
      · refine .ok ⟨.failed hs (List.forall_mem_nil _) hinv hframe k tf, nofun, fun _ _ _ _ _ _ hroom => ?_⟩
        exact absurd (hroom.mono (by decide)) hfull
      · exact absurd hzero hne
    rename_i hd
    obtain ⟨hinv, hkernel, hframe, hroom⟩ := hsetup.elim (fun hzero => absurd hzero.1 hd) fun hnew => hnew.2
    have hstaged : Staged L ∅ s.space (.exec k) d L.first s.top 0 m := by
      have hnone : ∀ e, IsUser e.1 → ¬present ((s.space.holding (.exec k) d m).pte (.exec k) e) := by
        intro e he
        change ¬present (Space.pte { s.space with mem := m, root := update s.space.root (.exec k) d } (.exec k) e)
        rw [hkernel, kernelPte_user L he]
        exact not_present_zero
      refine ⟨⟨hs.inv, hempty, hd, hinv, hframe⟩, fun e he => iff_of_false (hnone e he) ?_,
        fun e _ => congrFun hkernel e, fun e he hpresent => absurd hpresent (hnone e he)⟩
      rw [lt_PGROUNDUP_iff]
      exact Nat.not_lt_zero _
    refine (hstaged.buildImage hs.pool (o := Keep.mem) rfl (elfhdr b) argv).bind ?_
    rintro ⟨image, l⟩ ⟨hstopped, himage, hsupply⟩
    cases image with
    | none =>
      refine ((hstopped.built.freevm hs.pool).mapError fun _ => False.elim).bind ?_
      intro m' hm'
      refine .ok ⟨.failed hs hstopped.fresh hm'.1 hm'.2 k tf, nofun, fun file' b' hfile hread _ hnone hfree hfits => ?_⟩
      cases hfile
      rw [hheader] at hread
      rw [← (Prod.mk.inj hread).2] at hnone
      exact absurd rfl (hsupply hnone (hroom 6 hfree) hfits)
    | some image =>
      obtain ⟨sz, sp⟩ := image
      obtain ⟨hstack, hfits, hdelivered⟩ := himage sz sp rfl
      refine ((hstack.toBuilt.commit hs hk hstack.below).mapError fun _ => False.elim).bind ?_
      intro m' hm'
      obtain ⟨hsound, hpte, hwords⟩ := hm'
      refine .ok ⟨⟨hsound, hstopped.fresh, Or.inr ⟨rfl, fun va hva => ?_⟩⟩,
        fun _ => hstack.image hk hfits hdelivered hpte hwords, fun _ _ _ _ _ _ _ _ => rfl⟩
      simp only [Kernel.setProc, update_self] at hva ⊢
      rw [hpte, ← Space.pte_holding s.space (.exec k) d l.mem]
      exact (hstack.present_entry hva hstack.below.le).2

theorem length_lt_of_sum {n : Nat} (hargv : (argv.map List.length).sum < n) : ∀ arg ∈ argv, arg.length < n :=
  fun _ harg => (List.single_le_sum (by simp) _ (List.mem_map_of_mem harg)).trans_lt hargv

/-- Whatever is in the file and whichever pages are free: `exec` of arguments that fit in a page completes, and is
harmless. -/
theorem exec_harmless (hs : s.Sound L) (hk : s.Running k) (tf : Trapframe) (ip : Option (List UInt8))
    {argv : List (List UInt8)} (hargv : (argv.map List.length).sum ≤ PGSIZE) :
    ∃ out, exec L s k tf ip argv = .ok out ∧ Harmless L s k tf out := by
  have hshort := length_lt_of_sum (hargv.trans_lt (show PGSIZE < 2 ^ 24 by decide))
  obtain ⟨out, hrun, hharmless, -⟩ := ((exec_ends hs hk tf ip argv).mono_stop fun _ herr => herr hshort).exists_ok
  exact ⟨out, hrun, hharmless⟩

/-- A file with one program header, of a segment at the address of the kernel. -/
def kernelSegment : List UInt8 :=
  [0x7F, 0x45, 0x4C, 0x46] ++ List.replicate 24 0 ++ [52, 0, 0, 0] ++ List.replicate 12 0 ++ [1] ++
    List.replicate 7 0 ++ [1, 0, 0, 0, 84, 0, 0, 0, 0, 0, 0, 0x80, 0, 0, 0, 0, 0, 0x10, 0, 0, 0, 0x10, 0, 0] ++
    List.replicate 8 0

theorem exec_harmless_kernelSegment : (elfhdr kernelSegment).phnum = 1 ∧
    (proghdr (kernelSegment.drop sizeofElfhdr)).vaddr = KERNBASE ∧ ∃ s : Kernel, s.Running 0 ∧
      ∃ out, exec smallKernel s 0 ⟨0, 0⟩ (some kernelSegment) [[104, 105]] = .ok out ∧
      Harmless smallKernel s 0 ⟨0, 0⟩ out := by
  obtain ⟨s, hs, hk, -⟩ := smallKernel_first
  exact ⟨by decide, by decide, s, hk, exec_harmless hs hk ⟨0, 0⟩ _ (by decide)⟩

/-- `exec` delivers the arguments where it succeeds, and refuses those that do not fit in the page of the stack. -/
theorem exec_delivers (hs : s.Sound L) (hk : s.Running k) (tf : Trapframe) (ip : Option (List UInt8))
    (argv : List (List UInt8)) : (∀ out, exec L s k tf ip argv = .ok out → out.ret = 0 →
      ∃ ptrs, Delivered out.kernel.mem (out.kernel.proc k).pgdir (out.kernel.proc k).sz out.tf.esp argv ptrs) ∧
    ((argv.map List.length).sum < 16 * 1024 * 1024 → PGSIZE < (argv.map argRoom).sum + 4 * (argv.length + 4) →
      ∃ out, exec L s k tf ip argv = .ok out ∧ out.ret = -1) := by
  have hends := exec_ends hs hk tf ip argv
  refine ⟨fun out hrun hret => ⟨_, ((hends.of_ok hrun).2.1 hret).delivered⟩, fun hshort hlong => ?_⟩
  obtain ⟨out, hrun, hharmless, himage, -⟩ := (hends.mono_stop fun _ herr => herr (length_lt_of_sum hshort)).exists_ok
  refine ⟨out, hrun, hharmless.ends.elim (fun hbad => hbad.1) fun hgood => ?_⟩
  have hfits := (himage hgood.1).fits.2
  omega

/-- The first process of a small kernel has a program of no segments, and is given one argument. -/
theorem exec_delivers_first : ∃ s : Kernel, ∃ out, exec smallKernel s 0 ⟨0, 0⟩
    (some ([0x7F, 0x45, 0x4C, 0x46] ++ List.replicate 48 0)) [[104, 105]] = .ok out ∧ out.ret = 0 ∧
    ∃ ptrs, Delivered out.kernel.mem (out.kernel.proc 0).pgdir (out.kernel.proc 0).sz out.tf.esp [[104, 105]] ptrs := by
  obtain ⟨s, hs, hk, -, -, hroom⟩ := smallKernel_first
  obtain ⟨out, hrun, -, -, hsupply⟩ := ((exec_ends hs hk ⟨0, 0⟩ (some ([0x7F, 0x45, 0x4C, 0x46] ++ List.replicate 48 0))
    [[104, 105]]).mono_stop fun _ herr => herr (by decide)).exists_ok
  have hret := hsupply _ _ rfl rfl (by decide) (by decide) (hroom.mono (by omega)) (by decide)
  exact ⟨s, out, hrun, hret, (exec_delivers hs hk ⟨0, 0⟩ _ [[104, 105]]).1 out hrun hret⟩

end Kernel

end Laboratorio.Vm
