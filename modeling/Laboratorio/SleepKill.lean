import Laboratorio.SleepLoops

/-! What a `kill` does to a process in one of the sleeping loops. -/

namespace Laboratorio.Procs

open Function

variable {C : Type}

def killTarget (t : Table) (pid : Int) : Option Slot := (List.finRange NPROC).find? fun k => (t.proc k).pid = pid

def Keeps (p p' : Proc) : Prop := p'.killed = p.killed ∧ (p'.state = .sleeping → p.state = .sleeping)

namespace Keeps

variable {t : Table} {k q : Slot} {p p' p'' : Proc}

theorem refl (p : Proc) : Keeps p p := ⟨rfl, id⟩

theorem of_woken (h : Woken p p') : Keeps p p' := by
  refine ⟨h.killed, fun hsleep => ?_⟩
  rcases h with rfl | ⟨hp, rfl⟩
  · exact hsleep
  · exact hp

theorem set (h : Keeps (t.proc k) p) (q : Slot) : Keeps (t.proc q) ((t.set k p).proc q) := by
  by_cases hq : q = k
  · rw [hq, t.set_self]
    exact h
  · rw [t.set_other p hq]
    exact refl _

theorem trans (h : Keeps p p') (h' : Keeps p' p'') : Keeps p p'' :=
  ⟨h'.1.trans h.1, fun hsleep => h.2 (h'.2 hsleep)⟩

end Keeps

/-- The step may take the process on `c` off it. -/
def Act.leaves : Act C → C → Prop
  | .exit d, c | .wait d, c | .yield d, c | .sleep d _, c => d = c
  | _, _ => False

/-- What a step of the machine does to one process. It leaves its CPU by a step of its own. Only `kill` marks it, only
`wait` clears the mark, and only of a process that has exited. It goes to sleep in a call of `sleep` that it makes
itself, or in `wait`, which it does not do when it is marked; a process that is marked in its sleep is woken. -/
structure Marking (m : Machine C) (a : Act C) (m' : Machine C) (q : Slot) : Prop where
  killed : (m'.table.proc q).killed = true →
    (m.table.proc q).killed = true ∨ ∃ pid, a = .kill pid ∧ killTarget m.table pid = some q
  stays : (m.table.proc q).state = .running → (m.table.proc q).killed = true → (m'.table.proc q).killed = true
  sleeping : (m'.table.proc q).state = .sleeping →
    ((m.table.proc q).state = .sleeping ∧ m'.pc q = m.pc q ∧ ∀ pid, a = .kill pid → killTarget m.table pid ≠ some q) ∨
    (∃ c chan, m.cpu c = some q ∧ a = .sleep c chan ∧ m'.pc q = m.pc q) ∨
    (m'.table.proc q).killed = false
  cpu : ∀ c, m.cpu c = some q → m'.cpu c = some q ∨ a.leaves c

variable {a : Act C}

theorem Marking.of_keeps {m m' : Machine C} {q : Slot}
    (h : Keeps (m.table.proc q) (m'.table.proc q)) (hkill : ∀ pid, a ≠ .kill pid)
    (hpc : (m.table.proc q).state = .sleeping → m'.pc q = m.pc q)
    (hcpu : ∀ c, m.cpu c = some q → m'.cpu c = some q ∨ a.leaves c) : Marking m a m' q :=
  ⟨fun hk => Or.inl (h.1 ▸ hk), fun _ hk => h.1.trans hk, fun hs =>
    Or.inl ⟨h.2 hs, hpc (h.2 hs), fun pid heq => absurd heq (hkill pid)⟩, hcpu⟩

theorem Marking.of_set {m m' : Machine C} {k q : Slot} {p : Proc}
    (htable : m'.table.proc = (m.table.set k p).proc) (h : Keeps (m.table.proc k) p) (hkill : ∀ pid, a ≠ .kill pid)
    (hpc : (m.table.proc q).state = .sleeping → m'.pc q = m.pc q)
    (hcpu : ∀ c, m.cpu c = some q → m'.cpu c = some q ∨ a.leaves c) : Marking m a m' q := by
  refine Marking.of_keeps ?_ hkill hpc hcpu
  rw [htable]
  exact h.set q

theorem exit_keeps (t : Table) (cur q : Slot) : Keeps (t.proc q) ((exit t cur).proc q) := by
  have hadopt : Keeps (t.proc q) (adopt cur (t.proc q)) := by
    unfold adopt
    split
    · exact ⟨rfl, id⟩
    · exact Keeps.refl _
  by_cases hq : q = cur
  · obtain ⟨p, hp, heq⟩ := exit_self t cur
    rw [hq] at hadopt ⊢
    rw [heq]
    exact ⟨(hadopt.trans (Keeps.of_woken hp)).1, nofun⟩
  · exact hadopt.trans (Keeps.of_woken (exit_other t hq))

variable {m m' : Machine C} {c : C} {q r : Slot}

/-- A sleeping process is on no CPU: the step of another one leaves its program counter. -/
theorem Inv.pc_of_sleeping (h : Inv m) (hc : m.cpu c = some r) (next : Pc)
    (hsleep : (m.table.proc q).state = .sleeping) : update m.pc r next q = m.pc q := by
  apply update_of_ne
  intro heq
  rw [heq, h.cpus.running c r hc] at hsleep
  cases hsleep

/-- What `kill` makes of the process that it finds. -/
def Proc.marked (p : Proc) :
    Proc := { p with killed := true, state := if p.state = .sleeping then .runnable else p.state }

theorem kill_marking {pid : Int} : Marking m (.kill pid) { m with table := (kill m.table pid).2 } q := by
  cases hfind : killTarget m.table pid with
  | none =>
    have hsame : (kill m.table pid).2 = m.table := by
      rw [killTarget] at hfind
      rw [kill, hfind]
    rw [hsame]
    exact ⟨fun hk => Or.inl hk, fun _ hk => hk, fun hs =>
      Or.inl ⟨hs, rfl, fun pid' heq => by cases heq; rw [hfind]; nofun⟩, fun _ => Or.inl⟩
  | some k =>
    have hset : (kill m.table pid).2 = m.table.set k (m.table.proc k).marked := by
      rw [killTarget] at hfind
      rw [kill, hfind]
      rfl
    rw [hset]
    by_cases hq : q = k
    · subst hq
      have hself := m.table.set_self q (m.table.proc q).marked
      refine ⟨fun _ => Or.inr ⟨pid, rfl, hfind⟩, fun _ _ => ?_, fun hsleep => ?_, fun _ => Or.inl⟩
      · rw [hself]
        rfl
      · rw [hself, Proc.marked] at hsleep
        split at hsleep
        · cases hsleep
        · rename_i hnot
          exact absurd hsleep hnot
    · have hother := m.table.set_other (m.table.proc k).marked hq
      refine ⟨fun hk => Or.inl ?_, fun _ hk => ?_, fun hs => Or.inl ⟨?_, rfl, fun pid' heq => ?_⟩, fun _ => Or.inl⟩
      · rw [hother] at hk
        exact hk
      · rw [hother]
        exact hk
      · rw [hother] at hs
        exact hs
      · cases heq
        rw [hfind]
        exact fun heq => hq (Option.some.inj heq).symm

/-- A step in the middle of `fork`, which changes the entry of the child. -/
theorem Marking.goto {k : Slot} {p : Proc} (h : Inv m) (hc : m.cpu c = some r) (next : Pc)
    (hkill : ∀ pid, a ≠ .kill pid) (hp : Keeps (m.table.proc k) p) : Marking m a (m.goto r (m.table.set k p) next) q :=
  Marking.of_set rfl hp hkill (h.pc_of_sleeping hc next) fun _ => Or.inl

theorem allocStep_marking (h : Inv m) (hc : m.cpu c = some r) (hstep : allocStep m r = some m') :
    Marking m (.allocproc c) m' q := by
  unfold allocStep at hstep
  split at hstep
  · rename_i np t _ halloc
    cases hstep
    rcases allocproc_cases halloc with ⟨hnp, -⟩ | ⟨k, hnp, hunused, -, rfl⟩
    · cases hnp
    · exact Marking.of_set rfl ⟨rfl, nofun⟩ nofun (h.pc_of_sleeping hc _) fun _ => Or.inl
  · cases hstep
    exact Marking.of_keeps (Keeps.refl _) nofun (fun _ => rfl) fun _ => Or.inl
  · cases hstep

theorem kallocStep_marking {ok : Bool} (h : Inv m) (hc : m.cpu c = some r) (hstep : kallocStep m r ok = some m') :
    Marking m (.kalloc c ok) m' q := by
  unfold kallocStep at hstep
  split at hstep
  · cases hstep
    cases ok with
    | true => exact .goto h hc _ nofun ⟨rfl, id⟩
    | false => exact .goto h hc _ nofun ⟨rfl, nofun⟩
  · cases hstep

theorem copyuvmStep_marking {ok : Bool} (h : Inv m) (hc : m.cpu c = some r) (hstep : copyuvmStep m r ok = some m') :
    Marking m (.copyuvm c ok) m' q := by
  unfold copyuvmStep at hstep
  split at hstep
  · cases hstep
    cases ok with
    | true => exact .goto h hc _ nofun ⟨rfl, id⟩
    | false => exact .goto h hc _ nofun ⟨rfl, nofun⟩
  · cases hstep

/-- `wait` frees the entry of a child that has exited. -/
theorem reap_marking {k : Slot} (h : Inv m) (hc : m.cpu c = some r) (hk : (m.table.proc k).state = .zombie) :
    Marking m (.wait c) (m.goto r (reap m.table k) .user) q := by
  by_cases hq : q = k
  · have hself : ((reap m.table k).proc k) = _ := m.table.set_self k _
    subst hq
    refine ⟨fun hmark => ?_, fun hrun => ?_, fun hsleep => ?_, fun _ => Or.inl⟩
    · rw [Machine.goto, hself] at hmark
      cases hmark
    · rw [hk] at hrun
      cases hrun
    · rw [Machine.goto, hself] at hsleep
      cases hsleep
  · have hother : ((reap m.table k).proc q) = m.table.proc q := m.table.set_other _ hq
    refine Marking.of_keeps ?_ nofun (h.pc_of_sleeping hc _) fun _ => Or.inl
    rw [Machine.goto, hother]
    exact Keeps.refl _

variable [DecidableEq C]

theorem cpu_of_sched (c d : C) (hd : m.cpu d = some q) : update m.cpu c none d = some q ∨ c = d := by
  by_cases hcd : c = d
  · exact Or.inr hcd
  · exact Or.inl ((update_of_ne (Ne.symm hcd) _ _).trans hd)

theorem waitStep_marking (h : Inv m) (hc : m.cpu c = some r) (hstep : waitStep m c r = some m') :
    Marking m (.wait c) m' q := by
  unfold waitStep at hstep
  split at hstep
  · split at hstep
    · rename_i k hzombie
      cases hstep
      exact reap_marking h hc (zombieChild_some hzombie).2
    split at hstep
    · cases hstep
      exact Marking.of_keeps (Keeps.refl _) nofun (h.pc_of_sleeping hc _) fun _ => Or.inl
    rename_i hgo
    cases hstep
    by_cases hq : q = r
    · subst hq
      have hmark : (m.table.proc q).killed = false := by
        rw [not_or, Bool.not_eq_true] at hgo
        exact hgo.2
      refine ⟨fun hk => ?_, fun _ hk => ?_, fun _ => Or.inr (Or.inr ?_), cpu_of_sched c⟩
      · rw [Machine.sched, m.table.set_self, hmark] at hk
        cases hk
      · rw [hmark] at hk
        cases hk
      · rw [Machine.sched, m.table.set_self]
        exact hmark
    · refine Marking.of_keeps ?_ nofun (h.pc_of_sleeping hc _) (cpu_of_sched c)
      rw [Machine.sched, m.table.set_other _ hq]
      exact Keeps.refl _
  · cases hstep

theorem sleep_marking {chan : Option Chan} (hc : m.cpu c = some r) : Marking m (.sleep c chan)
    (m.sched c (m.table.set r { m.table.proc r with state := .sleeping, chan := chan })) q := by
  by_cases hq : q = r
  · subst hq
    refine ⟨fun hk => Or.inl ?_, fun _ hk => ?_, fun _ => Or.inr (Or.inl ⟨c, chan, hc, rfl, rfl⟩), cpu_of_sched c⟩
    · rw [Machine.sched, m.table.set_self] at hk
      exact hk
    · rw [Machine.sched, m.table.set_self]
      exact hk
  · refine Marking.of_keeps ?_ nofun (fun _ => rfl) (cpu_of_sched c)
    rw [Machine.sched, m.table.set_other _ hq]
    exact Keeps.refl _

theorem scheduleStep_marking {p : Slot} (hstep : scheduleStep m c p = some m') : Marking m (.schedule c p) m' q := by
  unfold scheduleStep at hstep
  split at hstep
  · rename_i hidle
    cases hstep
    refine Marking.of_set rfl ⟨rfl, nofun⟩ nofun (fun _ => rfl) fun d hd => Or.inl ?_
    have hne : d ≠ c := by
      rintro rfl
      rw [hd] at hidle
      cases hidle.1
    exact (update_of_ne hne _ _).trans hd
  · cases hstep

theorem step_marking (h : Inv m) (hstep : step m a = some m') (q : Slot) : Marking m a m' q := by
  cases a with
  | allocproc c =>
    obtain ⟨r, hc, hstep⟩ := Option.bind_eq_some_iff.mp hstep
    exact allocStep_marking h hc hstep
  | kalloc c ok =>
    obtain ⟨r, hc, hstep⟩ := Option.bind_eq_some_iff.mp hstep
    exact kallocStep_marking h hc hstep
  | copyuvm c ok =>
    obtain ⟨r, hc, hstep⟩ := Option.bind_eq_some_iff.mp hstep
    exact copyuvmStep_marking h hc hstep
  | start c =>
    obtain ⟨r, hc, hstep⟩ := Option.bind_eq_some_iff.mp hstep
    unfold startStep at hstep
    split at hstep
    · cases hstep
      exact .goto h hc _ nofun ⟨rfl, nofun⟩
    · cases hstep
  | exit c =>
    obtain ⟨r, hc, hstep⟩ := Option.bind_eq_some_iff.mp hstep
    unfold exitStep at hstep
    split at hstep
    · cases hstep
      exact Marking.of_keeps (exit_keeps _ _ q) nofun (fun _ => rfl) (cpu_of_sched c)
    · cases hstep
  | wait c =>
    obtain ⟨r, hc, hstep⟩ := Option.bind_eq_some_iff.mp hstep
    exact waitStep_marking h hc hstep
  | yield c =>
    obtain ⟨r, hc, hstep⟩ := Option.bind_eq_some_iff.mp hstep
    cases hstep
    exact Marking.of_set rfl ⟨rfl, nofun⟩ nofun (fun _ => rfl) (cpu_of_sched c)
  | sleep c chan =>
    obtain ⟨r, hc, hstep⟩ := Option.bind_eq_some_iff.mp hstep
    cases hstep
    exact sleep_marking hc
  | wakeup chan =>
    cases hstep
    exact Marking.of_keeps (Keeps.of_woken (wakeup1_woken _ _ q)) nofun (fun _ => rfl) fun _ => Or.inl
  | kill pid =>
    cases hstep
    exact kill_marking
  | schedule c p => exact scheduleStep_marking hstep

end Laboratorio.Procs

namespace Laboratorio.Waits

open Procs (Machine Slot killTarget)
open Function

variable {C : Type} {s s' : State C} {q : Slot}

/-- The process tested `killed` and has not acquired `ptable.lock` yet. -/
def Drowsy (s : State C) (q : Slot) : Prop := (s.loop q).drowses = true

/-- The process is `SLEEPING` at the call of `sleep` of one of the five loops. -/
def SleepsInLoop (s : State C) (q : Slot) : Prop :=
  (s.machine.table.proc q).state = .sleeping ∧ (s.machine.pc q = .waiting ∨ ∃ k, s.loop q = .asleep k)

/-- The step is a `kill` that finds the process. -/
def KillHits (s : State C) (a : Act C) (q : Slot) : Prop :=
  ∃ c pid, a = .kill c pid ∧ killTarget s.machine.table pid = some q

/-- At most a `wakeup` happens on the machine. -/
def Quiet [DecidableEq C] (s s' : State C) : Prop :=
  s'.machine = s.machine ∨ ∃ c, Procs.step s.machine (.wakeup c) = some s'.machine

section Inversion

variable [DecidableEq C] {a : Act C}

theorem quiet_wakeup (s : State C) (c : Procs.Chan) : Quiet s (s.wakeup c) := Or.inr ⟨some c, rfl⟩

/-- A stretch leaves the loops to its end, and calls `sleep` only if it found the process not killed. -/
theorem stretch_quiet (s : State C) (q : Slot) (k : Call) :
    Quiet s (stretch s q k).1 ∧ (stretch s q k).1.loop = s.loop ∧ ∀ k', (stretch s q k).2 = .sleeps k' →
    s.killed q = false := by
  cases k with
  | sleep n ticks0 =>
    rw [stretch, sysSleep]
    split
    · split
      · exact ⟨Or.inl rfl, rfl, nofun⟩
      · rename_i hkilled
        exact ⟨Or.inl rfl, rfl, fun _ _ => Bool.eq_false_iff.mpr hkilled⟩
    · exact ⟨Or.inl rfl, rfl, nofun⟩
  | pipewrite p addr i =>
    rw [stretch, pipewrite]
    split
    · exact ⟨quiet_wakeup _ _, rfl, nofun⟩
    · split
      · exact ⟨Or.inl rfl, rfl, nofun⟩
      · rename_i hkilled
        exact ⟨quiet_wakeup _ _, rfl, fun _ _ => Bool.eq_false_iff.mpr fun hk => hkilled (Or.inr hk)⟩
  | piperead p n =>
    rw [stretch, piperead]
    split
    · split
      · exact ⟨Or.inl rfl, rfl, nofun⟩
      · rename_i hkilled
        exact ⟨Or.inl rfl, rfl, fun _ _ => Bool.eq_false_iff.mpr hkilled⟩
    · exact ⟨quiet_wakeup _ _, rfl, nofun⟩
  | consoleread c =>
    rw [stretch, consoleread]
    split
    · exact ⟨Or.inl rfl, rfl, nofun⟩
    · split
      · exact ⟨Or.inl rfl, rfl, nofun⟩
      · rename_i hkilled
        exact ⟨Or.inl rfl, rfl, fun _ _ => Bool.eq_false_iff.mpr hkilled⟩

/-- What a step can be: nothing but a wakeup, a move of the process on a CPU within its loop, a `kill`, the
section of `sleep`, or a step of the machine. -/
inductive Moves (s : State C) : Act C → State C → Prop
  | quiet {a : Act C} {s' : State C} (hquiet : Quiet s s') (hloop : s'.loop = s.loop) : Moves s a s'
  | goto {a : Act C} {s' : State C} (c : C) (q : Slot) (l : Loop) (hc : s.machine.cpu c = some q) (hnot : ¬Drowsy s q)
      (hquiet : Quiet s s') (hloop : s'.loop = update s.loop q l) (hawake : ∀ k, l ≠ .asleep k)
      (htest : l.drowses = true → s.killed q = false) : Moves s a s'
  | kill {s' : State C} (c : C) (pid : Int) (hstep : Procs.step s.machine (.kill pid) = some s'.machine)
      (hloop : s'.loop = s.loop) : Moves s (.kill c pid) s'
  | sleep {s' : State C} (c : C) (q : Slot) (k : Call) (hc : s.machine.cpu c = some q) (hk : s.loop q = .drowsy k)
      (hstep : Procs.step s.machine (.sleep c (some k.chan)) = some s'.machine)
      (hloop : s'.loop = update s.loop q (.asleep k)) : Moves s (.sleep c) s'
  | base {s' : State C} (b : Procs.Act C) (hpermits : permits s b) (hstep : Procs.step s.machine b = some s'.machine)
      (hloop : s'.loop = resumed s.loop b) : Moves s (.base b) s'

theorem call_moves {c : C} {k : Call} (hstep : call s c k = some s') : Moves s a s' := by
  obtain ⟨q, hc, hstep⟩ := Option.bind_eq_some_iff.mp hstep
  split at hstep
  · rename_i hout
    cases hstep
    refine .goto c q (.top k) hc ?_ (Or.inl rfl) rfl nofun nofun
    rw [Drowsy, hout.1]
    nofun
  · cases hstep

theorem step_moves (hstep : step s a = some s') : Moves s a s' := by
  cases a with
  | base b =>
    rw [step] at hstep
    split at hstep
    · rename_i hpermits
      obtain ⟨m, hm, rfl⟩ := Option.map_eq_some_iff.mp hstep
      exact .base b hpermits hm rfl
    · cases hstep
  | sysSleep c n | pipewrite c p addr | piperead c p n | consoleread c n => exact call_moves hstep
  | enter c =>
    obtain ⟨q, hc, hstep⟩ := Option.bind_eq_some_iff.mp hstep
    split at hstep
    · rename_i k htop
      obtain ⟨hquiet, hloop, htest⟩ := stretch_quiet s q k
      have hnot : ¬Drowsy s q := by
        rw [Drowsy, htop]
        nofun
      split at hstep
      · cases hstep
        cases hout : (stretch s q k).2 with
        | returns v =>
          refine .goto c q .out hc hnot hquiet ?_ nofun nofun
          rw [State.after, hloop]
        | sleeps k' =>
          refine .goto c q (.drowsy k') hc hnot hquiet ?_ nofun fun _ => htest k' hout
          rw [State.after, hloop]
      · cases hstep
    · cases hstep
  | sleep c =>
    obtain ⟨q, hc, hstep⟩ := Option.bind_eq_some_iff.mp hstep
    split at hstep
    · rename_i k hk
      obtain ⟨m, hm, rfl⟩ := Option.map_eq_some_iff.mp hstep
      exact .sleep c q k hc hk hm rfl
    · cases hstep
  | kill c pid =>
    rw [step] at hstep
    split at hstep
    · obtain ⟨m, hm, rfl⟩ := Option.map_eq_some_iff.mp hstep
      exact .kill c pid hm rfl
    · cases hstep
  | tick =>
    rw [step] at hstep
    split at hstep
    · cases hstep
      exact .quiet (quiet_wakeup _ _) rfl
    · cases hstep
  | intr cs =>
    rw [step] at hstep
    split at hstep
    · cases hstep
      rw [consoleintr]
      split
      · exact .quiet (quiet_wakeup _ _) rfl
      · exact .quiet (Or.inl rfl) rfl
    · cases hstep
  | close p writable =>
    rw [step] at hstep
    split at hstep
    · cases hstep
      cases writable with
      | true | false => exact .quiet (quiet_wakeup _ _) rfl
    · cases hstep

end Inversion

/-- A process in `sleep` with a lock is on a CPU. -/
structure Sane (s : State C) : Prop where
  inv : Procs.Inv s.machine
  onCpu : ∀ q, Drowsy s q → ∃ c, s.machine.cpu c = some q

theorem Sane.running (h : Sane s) (hq : Drowsy s q) : (s.machine.table.proc q).state = .running := by
  obtain ⟨c, hc⟩ := h.onCpu q hq
  exact h.inv.cpus.running c q hc

theorem sane_init (data : ℕ → Fin Pipes.PIPESIZE → UInt8) : Sane (State.init C data) := ⟨Procs.Inv.boot, nofun⟩

theorem not_leaves {b : Procs.Act C} {c : C} (hpermits : permits s b) (hc : s.machine.cpu c = some q)
    (hq : Drowsy s q) : ¬b.leaves c := by
  intro hleaves
  have hout : s.loop q ≠ .out := by
    intro heq
    rw [Drowsy, heq] at hq
    cases hq
  cases b with
  | exit d | wait d =>
    obtain rfl : d = c := hleaves
    exact hout (hpermits q hc)
  | yield d =>
    obtain rfl : d = c := hleaves
    have hnot := hpermits q hc
    rw [hq] at hnot
    cases hnot
  | sleep d chan =>
    obtain rfl : d = c := hleaves
    exact hout (hpermits q hc).1
  | _ => exact hleaves

theorem resumed_drowses (loop : Slot → Loop) (b : Procs.Act C) (q : Slot) :
    (resumed loop b q).drowses = (loop q).drowses := by
  cases b with
  | schedule c p =>
    rw [resumed]
    by_cases hq : q = p
    · rw [hq, update_self]
      cases loop p with
      | _ => rfl
    · rw [update_of_ne hq]
  | _ => rfl

variable [DecidableEq C] {a : Act C}

theorem Quiet.inv (hquiet : Quiet s s') (h : Procs.Inv s.machine) : Procs.Inv s'.machine := by
  rcases hquiet with heq | ⟨c, hstep⟩
  · rw [heq]
    exact h
  · exact h.step hstep

theorem Quiet.marking (hquiet : Quiet s s') (h : Procs.Inv s.machine) (q : Slot) :
    ∃ c, Procs.Marking s.machine (.wakeup c) s'.machine q := by
  rcases hquiet with heq | ⟨c, hstep⟩
  · rw [heq]
    exact ⟨none, Procs.Marking.of_keeps (Procs.Keeps.refl _) nofun (fun _ => rfl) fun _ hc => Or.inl hc⟩
  · exact ⟨c, Procs.step_marking h hstep q⟩

theorem Moves.marking (hmoves : Moves s a s') (h : Procs.Inv s.machine) (q : Slot) :
    ∃ b, Procs.Marking s.machine b s'.machine q ∧ (∀ pid, b = .kill pid → ∃ c, a = .kill c pid) ∧
      (∀ c chan, b = .sleep c chan → s.machine.cpu c = some q → a = .sleep c ∧ Drowsy s q ∨ free s c ∧
      s'.loop = s.loop) ∧
      (∀ c, b.leaves c → s.machine.cpu c = some q → Drowsy s q → ¬Drowsy s' q) := by
  cases hmoves with
  | quiet hquiet hloop | goto c r l hc hnot hquiet hloop hawake htest =>
    obtain ⟨c, hmarking⟩ := hquiet.marking h q
    exact ⟨_, hmarking, nofun, nofun, fun _ hleaves => hleaves.elim⟩
  | kill c pid hstep hloop =>
    refine ⟨_, Procs.step_marking h hstep q, fun pid' heq => ?_, nofun, fun _ hleaves => hleaves.elim⟩
    cases heq
    exact ⟨c, rfl⟩
  | sleep c r k hc hk hstep hloop =>
    have hrq : ∀ d, c = d → s.machine.cpu d = some q → r = q := by
      rintro d rfl hd
      exact Option.some.inj (hc.symm.trans hd)
    refine ⟨_, Procs.step_marking h hstep q, nofun, fun d chan heq hd => Or.inl ?_, fun d hleaves hd _ => ?_⟩
    · cases heq
      refine ⟨rfl, ?_⟩
      rw [Drowsy, ← hrq _ rfl hd, hk]
      rfl
    · rw [Drowsy, hloop, hrq d hleaves hd, update_self]
      nofun
  | base b hpermits hstep hloop =>
    refine ⟨b, Procs.step_marking h hstep q, fun pid heq => ?_, fun c chan heq _ => Or.inr ?_,
      fun c hleaves hc hq => ?_⟩
    · rw [heq] at hpermits
      exact hpermits.elim
    · rw [heq] at hpermits hloop
      exact ⟨hpermits, hloop⟩
    · exact absurd hleaves (not_leaves hpermits hc hq)

theorem Moves.inv (hmoves : Moves s a s') (h : Procs.Inv s.machine) : Procs.Inv s'.machine := by
  cases hmoves with
  | quiet hquiet hloop | goto c r l hc hnot hquiet hloop hawake htest => exact hquiet.inv h
  | kill c pid hstep hloop | sleep c r k hc hk hstep hloop | base b hpermits hstep hloop => exact h.step hstep

theorem Moves.drowsy_before (hmoves : Moves s a s') (h : Procs.Inv s.machine) (hq : Drowsy s' q) :
    Drowsy s q ∨ (∃ c, s'.machine.cpu c = some q) ∧ s'.killed q = false := by
  cases hmoves with
  | quiet hquiet hloop =>
    rw [Drowsy, hloop] at hq
    exact Or.inl hq
  | goto c r l hc hnot hquiet hloop hawake htest =>
    by_cases hqr : q = r
    · obtain ⟨chan, hmarking⟩ := hquiet.marking h q
      rw [Drowsy, hloop, hqr, update_self] at hq
      subst hqr
      refine Or.inr ⟨⟨c, (hmarking.cpu c hc).resolve_right id⟩, ?_⟩
      rw [Bool.eq_false_iff]
      intro hkilled
      rcases hmarking.killed hkilled with hbefore | ⟨pid, heq, -⟩
      · have htested := htest hq
        rw [State.killed, hbefore] at htested
        cases htested
      · cases heq
    · rw [Drowsy, hloop, update_of_ne hqr] at hq
      exact Or.inl hq
  | kill c pid hstep hloop =>
    rw [Drowsy, hloop] at hq
    exact Or.inl hq
  | sleep c r k hc hk hstep hloop =>
    by_cases hqr : q = r
    · rw [Drowsy, hloop, hqr, update_self] at hq
      cases hq
    · rw [Drowsy, hloop, update_of_ne hqr] at hq
      exact Or.inl hq
  | base b hpermits hstep hloop =>
    rw [Drowsy, hloop, resumed_drowses] at hq
    exact Or.inl hq

theorem Sane.step (h : Sane s) (hstep : Waits.step s a = some s') : Sane s' := by
  have hmoves := step_moves hstep
  refine ⟨hmoves.inv h.inv, fun q hq => ?_⟩
  rcases hmoves.drowsy_before h.inv hq with hbefore | ⟨hcpu, -⟩
  · obtain ⟨c, hc⟩ := h.onCpu q hbefore
    obtain ⟨b, hmarking, -, -, hleaves⟩ := hmoves.marking h.inv q
    rcases hmarking.cpu c hc with hstays | hgone
    · exact ⟨c, hstays⟩
    · exact absurd hq (hleaves c hgone hc hbefore)
  · exact hcpu

theorem drowsy_killed (h : Sane s) (hstep : step s a = some s') (hq : Drowsy s' q) (hk : s'.killed q = true) :
    Drowsy s q ∧ (s.killed q = true ∨ KillHits s a q) := by
  have hmoves := step_moves hstep
  rcases hmoves.drowsy_before h.inv hq with hbefore | ⟨-, hnot⟩
  · refine ⟨hbefore, ?_⟩
    obtain ⟨b, hmarking, hkill, -, -⟩ := hmoves.marking h.inv q
    rcases hmarking.killed hk with hkilled | ⟨pid, hpid, htarget⟩
    · exact Or.inl hkilled
    · obtain ⟨c, hc⟩ := hkill pid hpid
      exact Or.inr ⟨c, pid, hc, htarget⟩
  · rw [hk] at hnot
    cases hnot

theorem killed_stays (h : Sane s) (hstep : step s a = some s') (hq : Drowsy s q) (hk : s.killed q = true) :
    s'.killed q = true := by
  obtain ⟨b, hmarking, -⟩ := (step_moves hstep).marking h.inv q
  exact hmarking.stays (h.running hq) hk

theorem KillHits.killed (hhits : KillHits s a q) (hstep : step s a = some s') : s'.killed q = true := by
  obtain ⟨c, pid, rfl, htarget⟩ := hhits
  rw [step] at hstep
  split at hstep
  · obtain ⟨m, hm, rfl⟩ := Option.map_eq_some_iff.mp hstep
    cases hm
    rw [killTarget] at htarget
    rw [State.killed]
    rw [Procs.kill, htarget]
    rw [Procs.Table.set_self]
  · cases hstep

theorem Moves.asleep_before (hmoves : Moves s a s') (h : Procs.Inv s.machine)
    (hstate : (s.machine.table.proc q).state = .sleeping) {k : Call} (hk : s'.loop q = .asleep k) :
    s.loop q = .asleep k := by
  -- A sleeping process is on no CPU, so the step is not its own.
  have hoff : ∀ c r, s.machine.cpu c = some r → q ≠ r := by
    rintro c r hc rfl
    rw [h.cpus.running c q hc] at hstate
    cases hstate
  cases hmoves with
  | quiet hquiet hloop => rw [← hloop, hk]
  | goto c r l hc hnot hquiet hloop hawake htest => rw [← hk, hloop, update_of_ne (hoff c r hc)]
  | kill c pid hstep hloop => rw [← hloop, hk]
  | sleep c r k hc hk' hstep hloop => rw [← hk, hloop, update_of_ne (hoff c r hc)]
  | base b hpermits hstep hloop =>
    cases b with
    | schedule c p =>
      rw [hloop, resumed] at hk
      by_cases hqp : q = p
      · rw [hqp, update_self] at hk
        cases hp : s.loop p with
        | _ =>
          rw [hp] at hk
          cases hk
      · rw [update_of_ne hqp] at hk
        exact hk
    | _ =>
      rw [hloop] at hk
      exact hk

theorem killed_asleep (h : Sane s) (hstep : step s a = some s') (hk : s'.killed q = true) (hq : SleepsInLoop s' q) :
    s.killed q = true ∧ (SleepsInLoop s q ∨ Drowsy s q ∧ ∃ c, a = .sleep c ∧ s.machine.cpu c = some q) := by
  have hmoves := step_moves hstep
  obtain ⟨hstate, hwhere⟩ := hq
  obtain ⟨b, hmarking, -, hsleep, -⟩ := hmoves.marking h.inv q
  rcases hmarking.sleeping hstate with ⟨hbefore, hpc, hnot⟩ | ⟨c, chan, hc, rfl, hpc⟩ | hfalse
  · refine ⟨?_, Or.inl ⟨hbefore, ?_⟩⟩
    · rcases hmarking.killed hk with hkilled | ⟨pid, hpid, htarget⟩
      · exact hkilled
      · exact absurd htarget (hnot pid hpid)
    · rcases hwhere with hwait | ⟨k, hloop⟩
      · exact Or.inl (hpc ▸ hwait)
      · exact Or.inr ⟨k, hmoves.asleep_before h.inv hbefore hloop⟩
  · refine ⟨?_, Or.inr ?_⟩
    · rcases hmarking.killed hk with hkilled | ⟨pid, hpid, -⟩
      · exact hkilled
      · cases hpid
    rcases hsleep c chan rfl hc with ⟨ha, hdrowsy⟩ | ⟨hfree, hloop⟩
    · exact ⟨hdrowsy, c, ha, hc⟩
    · -- A sleep elsewhere in the kernel is outside the loops.
      obtain ⟨hout, huser⟩ := hfree q hc
      rcases hwhere with hwait | ⟨k, hk'⟩
      · rw [hpc, huser] at hwait
        cases hwait
      · rw [hloop, hout] at hk'
        cases hk'
  · rw [State.killed, hfalse] at hk
    cases hk

section Runs

variable {data : ℕ → Fin Pipes.PIPESIZE → UInt8} (e : Trace (State.init C data) step)

/-- The three steps in their bad order: process `q` has tested `killed` before time `u`, is killed at time
`u`, and goes to sleep at time `v`. -/
def KilledTooLate (q : Slot) (u v : ℕ) : Prop :=
  u < v ∧ v < e.len ∧ KillHits (e.state u) (e.act u) q ∧ (∀ x, u ≤ x → x ≤ v → Drowsy (e.state x) q) ∧
    ∃ c, e.act v = .sleep c ∧ (e.state v).machine.cpu c = some q

theorem run_sane : ∀ t ≤ e.len, Sane (e.state t) :=
  e.invariant (sane_init data) fun _ _ _ h hstep => h.step hstep

/-- In every run, a drowsy process that is killed was killed since it is drowsy, and a killed process that
sleeps in a loop went to sleep so. -/
theorem run_killed : ∀ t ≤ e.len, ∀ q, (e.state t).killed q = true →
    (Drowsy (e.state t) q → ∃ u < t, KillHits (e.state u) (e.act u) q ∧ ∀ x, u ≤ x → x ≤ t → Drowsy (e.state x) q) ∧
    (SleepsInLoop (e.state t) q → ∃ u v, KilledTooLate e q u v) := by
  intro t
  induction t with
  | zero =>
    intro _ q
    rw [e.start]
    refine fun _ => ⟨nofun, fun hsleeps => ?_⟩
    rcases hsleeps.2 with hwait | ⟨k, hk⟩
    · cases hwait
    · cases hk
  | succ t ih =>
    intro ht q hk
    have hsane := run_sane e t (by omega)
    have hnext := e.next t ht
    refine ⟨fun hdrowsy => ?_, fun hsleeps => ?_⟩
    · obtain ⟨hbefore, hkilled | hhits⟩ := drowsy_killed hsane hnext hdrowsy hk
      · obtain ⟨u, hu, hhits, hall⟩ := (ih (by omega) q hkilled).1 hbefore
        refine ⟨u, by omega, hhits, fun x hx hxt => ?_⟩
        rcases Nat.le_succ_iff.mp hxt with hle | rfl
        · exact hall x hx hle
        · exact hdrowsy
      · refine ⟨t, Nat.lt_succ_self t, hhits, fun x hx hxt => ?_⟩
        rcases Nat.le_succ_iff.mp hxt with hle | rfl
        · rw [Nat.le_antisymm hle hx]
          exact hbefore
        · exact hdrowsy
    · obtain ⟨hkilled, hslept | ⟨hdrowsy, hsleep⟩⟩ := killed_asleep hsane hnext hk hsleeps
      · exact (ih (by omega) q hkilled).2 hslept
      · obtain ⟨u, hu, hhits, hall⟩ := (ih (by omega) q hkilled).1 hdrowsy
        exact ⟨u, t, hu, by omega, hhits, hall, hsleep⟩

theorem KilledTooLate.asleep {e : Trace (State.init C data) step} {u v : ℕ} (h : KilledTooLate e q u v) :
    (e.state (v + 1)).killed q = true ∧ SleepsInLoop (e.state (v + 1)) q := by
  obtain ⟨huv, hv, hhits, hall, c, hact, hc⟩ := h
  have hmark : ∀ x, u < x → x ≤ v → (e.state x).killed q = true := by
    intro x hux
    induction x, hux using Nat.le_induction with
    | base => exact fun _ => hhits.killed (e.next u (by omega))
    | succ x hx ih =>
      intro hxv
      exact killed_stays (run_sane e x (by omega)) (e.next x (by omega)) (hall x (by omega) (by omega)) (ih (by omega))
  have hnext := e.next v hv
  refine ⟨killed_stays (run_sane e v (by omega)) hnext (hall v (by omega) (Nat.le_refl v))
    (hmark v huv (Nat.le_refl v)), ?_⟩
  rw [hact] at hnext
  obtain ⟨r, hr, hstep⟩ := Option.bind_eq_some_iff.mp hnext
  rw [hc] at hr
  cases hr
  split at hstep
  · rename_i k hk
    obtain ⟨m, hm, hstate⟩ := Option.map_eq_some_iff.mp hstep
    obtain ⟨r, hr, hsched⟩ := Option.bind_eq_some_iff.mp hm
    rw [hc] at hr
    cases hr
    cases hsched
    rw [← hstate]
    refine ⟨?_, Or.inr ⟨k, update_self _ _ _⟩⟩
    rw [Machine.sched, Procs.Table.set_self]
  · cases hstep

/-- In a run no killed process sleeps in one of the five loops, at any time, if and only if no process is
killed between its test of `killed` and the section of `sleep` that follows. -/
theorem kill_not_slept_through_iff :
    (∀ t ≤ e.len, ∀ q, (e.state t).killed q = true → ¬SleepsInLoop (e.state t) q) ↔
      ∀ q u v, ¬KilledTooLate e q u v := by
  constructor
  · intro hnever q u v hlate
    obtain ⟨hkilled, hsleeps⟩ := hlate.asleep
    exact hnever (v + 1) hlate.2.1 q hkilled hsleeps
  · intro hnone t ht q hkilled hsleeps
    obtain ⟨u, v, hlate⟩ := (run_killed e t ht q hkilled).2 hsleeps
    exact hnone q u v hlate

end Runs

/-- `initproc` forks on one CPU. Its child runs on the other, calls `sys_sleep(100)` and finds `killed` 0;
`initproc` kills it; it goes to sleep. -/
def lateKill : List (Act Bool) :=
  [.base (.schedule false Procs.INITPROC), .base (.allocproc false), .base (.kalloc false true),
    .base (.copyuvm false true), .base (.start false), .base (.schedule true (Procs.slot 1)), .sysSleep true 100,
    .enter true, .kill false 2, .sleep true]

def lateKillTrace : Trace (State.init Bool fun _ _ => 0) step :=
  Trace.ofList lateKill .tick (by decide +kernel)

theorem killed_child_sleeps :
    (lateKillTrace.state lateKillTrace.len).killed 1 = true ∧ SleepsInLoop (lateKillTrace.state lateKillTrace.len) 1 :=
  ⟨by decide +kernel, by decide +kernel, Or.inr ⟨.sleep 100 (some 0), by decide +kernel⟩⟩

end Laboratorio.Waits
