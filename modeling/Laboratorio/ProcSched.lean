import Laboratorio.ProcCalls

/-! Processes on any number of CPUs. A section under `ptable.lock` is one step, with the switch to the
scheduler that ends it; `fork` works on its new slot without the lock, in steps of its own, and may be
interrupted between them. A step names the CPU that makes it. -/

namespace Laboratorio.Procs

open Function

/-- Where a process is in the kernel: in `fork`, about to allocate the stack of the new slot, to copy the
address space or to make the child runnable, or asleep in `wait`; anywhere else otherwise. -/
inductive Pc where
  | user
  | forkStack (np : Slot)
  | forkCopy (np : Slot)
  | forkLink (np : Slot)
  | waiting
  deriving DecidableEq

/-- The slot that a process in `fork` works on. -/
def Pc.forks : Pc → Option Slot
  | .forkStack np | .forkCopy np | .forkLink np => some np
  | _ => none

structure Machine (C : Type) where
  table : Table
  /-- `c->proc`. -/
  cpu : C → Option Slot
  pc : Slot → Pc

/-- The machine when the schedulers start. -/
def Machine.boot (C : Type) : Machine C where
  table := Table.boot
  cpu := fun _ => none
  pc := fun _ => .user

inductive Act (C : Type) where
  | allocproc (c : C)
  | kalloc (c : C) (ok : Bool)
  | copyuvm (c : C) (ok : Bool)
  | start (c : C)
  | exit (c : C)
  | wait (c : C)
  | yield (c : C)
  | sleep (c : C) (chan : Option Chan)
  | wakeup (chan : Option Chan)
  | kill (pid : Int)
  | schedule (c : C) (p : Slot)

section Steps

variable {C : Type} [DecidableEq C] (s : Machine C)

/-- The process `q` goes on at `pc`, with another table. -/
def Machine.goto (q : Slot) (t : Table) (pc : Pc) : Machine C :=
  { s with table := t, pc := update s.pc q pc }

/-- The process on `c` has given up the CPU, with another table. -/
def Machine.sched (c : C) (t : Table) : Machine C := { s with table := t, cpu := update s.cpu c none }

def allocStep (q : Slot) : Option (Machine C) :=
  match s.pc q, allocproc s.table with
  | .user, some (some np, t) => some (s.goto q t (.forkStack np))
  | .user, some (none, _) => some s
  | _, _ => none

/-- The end of a `fork` without memory. -/
def Machine.giveBack (q np : Slot) : Machine C :=
  s.goto q (s.table.set np { s.table.proc np with kstack := false, state := .unused }) .user

def kallocStep (q : Slot) (ok : Bool) : Option (Machine C) :=
  match s.pc q with
  | .forkStack np =>
    some (if ok then s.goto q (s.table.set np { s.table.proc np with kstack := true }) (.forkCopy np)
      else s.giveBack q np)
  | _ => none

def copyuvmStep (q : Slot) (ok : Bool) : Option (Machine C) :=
  match s.pc q with
  | .forkCopy np =>
    some (if ok then s.goto q (s.table.set np { s.table.proc np with parent := some q }) (.forkLink np)
      else s.giveBack q np)
  | _ => none

def startStep (q : Slot) : Option (Machine C) :=
  match s.pc q with
  | .forkLink np => some (s.goto q (s.table.setState np .runnable) .user)
  | _ => none

def exitStep (c : C) (q : Slot) : Option (Machine C) :=
  if s.pc q = .user ∧ q ≠ INITPROC then some (s.sched c (exit s.table q)) else none

def waitStep (c : C) (q : Slot) : Option (Machine C) :=
  if s.pc q = .user ∨ s.pc q = .waiting then
    match zombieChild s.table q with
    | some k => some (s.goto q (reap s.table k) .user)
    | none =>
      if haveKids s.table q = false ∨ (s.table.proc q).killed = true then some (s.goto q s.table .user)
      else some ((s.goto q s.table .waiting).sched c
        (s.table.set q { s.table.proc q with state := .sleeping, chan := some (.proc q) }))
  else none

def scheduleStep (c : C) (p : Slot) : Option (Machine C) :=
  if s.cpu c = none ∧ (s.table.proc p).state = .runnable then
    some { s with
      table := s.table.set p { s.table.proc p with state := .running, chan := none }
      cpu := update s.cpu c (some p) }
  else none

/-- A step of the process that runs on `c`. -/
def onCpu (c : C) (f : Slot → Option (Machine C)) : Option (Machine C) := (s.cpu c).bind f

def step : Act C → Option (Machine C)
  | .allocproc c => onCpu s c (allocStep s)
  | .kalloc c ok => onCpu s c fun q => kallocStep s q ok
  | .copyuvm c ok => onCpu s c fun q => copyuvmStep s q ok
  | .start c => onCpu s c (startStep s)
  | .exit c => onCpu s c (exitStep s c)
  | .wait c => onCpu s c (waitStep s c)
  | .yield c => onCpu s c fun q => some (s.sched c (s.table.setState q .runnable))
  | .sleep c chan => onCpu s c fun q =>
    some (s.sched c (s.table.set q { s.table.proc q with state := .sleeping, chan := chan }))
  | .wakeup chan => some { s with table := wakeup1 s.table chan }
  | .kill pid => some { s with table := (kill s.table pid).2 }
  | .schedule c p => scheduleStep s c p

end Steps

def getppid (t : Table) (k : Slot) : Option Int := (t.proc k).parent.map fun j => (t.proc j).pid

/-! ### Processes and CPUs -/

variable {C : Type}

/-- The running processes are those on a CPU, each on one. -/
structure Cpus (t : Table) (cpu : C → Option Slot) : Prop where
  running : ∀ c k, cpu c = some k → (t.proc k).state = .running
  cpuOf : ∀ k, (t.proc k).state = .running → ∃ c, cpu c = some k
  unique : ∀ c c' k, cpu c = some k → cpu c' = some k → c = c'

namespace Cpus

variable {t t' : Table} {cpu : C → Option Slot} {c : C} {q : Slot}

theorem congr (h : Cpus t cpu) (hiff : ∀ k, (t'.proc k).state = .running ↔ (t.proc k).state = .running) :
    Cpus t' cpu :=
  ⟨fun c k hk => (hiff k).mpr (h.running c k hk), fun k hk => h.cpuOf k ((hiff k).mp hk), h.unique⟩

theorem leave [DecidableEq C] (h : Cpus t cpu) (hc : cpu c = some q) (hq : (t'.proc q).state ≠ .running)
    (hiff : ∀ k, k ≠ q → ((t'.proc k).state = .running ↔ (t.proc k).state = .running)) :
    Cpus t' (update cpu c none) := by
  have hback : ∀ d k, update cpu c none d = some k → d ≠ c ∧ cpu d = some k := by
    intro d k hd
    have hdc : d ≠ c := by
      rintro rfl
      rw [update_self] at hd
      cases hd
    rw [update_of_ne hdc] at hd
    exact ⟨hdc, hd⟩
  refine ⟨fun d k hd => ?_, fun k hk => ?_, fun d d' k hd hd' => ?_⟩
  · obtain ⟨hdc, hd⟩ := hback d k hd
    have hkq : k ≠ q := by
      rintro rfl
      exact hdc (h.unique d c k hd hc)
    exact (hiff k hkq).mpr (h.running d k hd)
  · have hkq : k ≠ q := by
      rintro rfl
      exact hq hk
    obtain ⟨d, hd⟩ := h.cpuOf k ((hiff k hkq).mp hk)
    have hdc : d ≠ c := by
      rintro rfl
      exact hkq (Option.some.inj (hd.symm.trans hc))
    exact ⟨d, (update_of_ne hdc _ _).trans hd⟩
  · exact h.unique d d' k (hback d k hd).2 (hback d' k hd').2

theorem enter [DecidableEq C] (h : Cpus t cpu) (hc : cpu c = none) (hq : (t.proc q).state ≠ .running)
    (hq' : (t'.proc q).state = .running)
    (hiff : ∀ k, k ≠ q → ((t'.proc k).state = .running ↔ (t.proc k).state = .running)) :
    Cpus t' (update cpu c (some q)) := by
  have hback : ∀ d k, update cpu c (some q) d = some k → (d = c ∧ k = q) ∨ (k ≠ q ∧ cpu d = some k) := by
    intro d k hd
    by_cases hdc : d = c
    · rw [hdc, update_self] at hd
      exact Or.inl ⟨hdc, (Option.some.inj hd).symm⟩
    · rw [update_of_ne hdc] at hd
      refine Or.inr ⟨?_, hd⟩
      rintro rfl
      exact hq (h.running d k hd)
  refine ⟨fun d k hd => ?_, fun k hk => ?_, fun d d' k hd hd' => ?_⟩
  · rcases hback d k hd with ⟨-, rfl⟩ | ⟨hkq, hd⟩
    · exact hq'
    · exact (hiff k hkq).mpr (h.running d k hd)
  · by_cases hkq : k = q
    · exact ⟨c, by rw [hkq, update_self]⟩
    · obtain ⟨d, hd⟩ := h.cpuOf k ((hiff k hkq).mp hk)
      have hdc : d ≠ c := by
        rintro rfl
        rw [hc] at hd
        cases hd
      exact ⟨d, (update_of_ne hdc _ _).trans hd⟩
  · rcases hback d k hd with ⟨rfl, rfl⟩ | ⟨hkq, hd⟩
    · rcases hback d' k hd' with ⟨rfl, -⟩ | ⟨hne, -⟩
      · rfl
      · exact absurd rfl hne
    · rcases hback d' k hd' with ⟨-, rfl⟩ | ⟨-, hd'⟩
      · exact absurd rfl hkq
      · exact h.unique d d' k hd hd'

end Cpus

/-! ### Parents -/

/-- `initproc` has not exited, and neither has the parent of any other process. -/
structure Tree (t : Table) : Prop where
  init : (t.proc INITPROC).state.alive = true
  parent : ∀ k, k ≠ INITPROC → (t.proc k).state ≠ .unused → (t.proc k).state ≠ .embryo →
    ∃ j, (t.proc k).parent = some j ∧ (t.proc j).state.alive = true

theorem Tree.mono {t t' : Table} (h : Tree t)
    (halive : ∀ k, (t.proc k).state.alive = true → (t'.proc k).state.alive = true)
      (hparent : ∀ k, k ≠ INITPROC → (t'.proc k).state ≠ .unused → (t'.proc k).state ≠ .embryo →
      (∃ j, (t'.proc k).parent = some j ∧ (t.proc j).state.alive = true) ∨
      ((t.proc k).state ≠ .unused ∧ (t.proc k).state ≠ .embryo ∧ (t'.proc k).parent = (t.proc k).parent)) :
    Tree t' := by
  refine ⟨halive _ h.init, fun k hk hunused hembryo => ?_⟩
  rcases hparent k hk hunused hembryo with ⟨j, hj, hjalive⟩ | ⟨hunused', hembryo', heq⟩
  · exact ⟨j, hj, halive j hjalive⟩
  · obtain ⟨j, hj, hjalive⟩ := h.parent k hk hunused' hembryo'
    exact ⟨j, heq.trans hj, halive j hjalive⟩

/-! ### Forks under way -/

/-- A process in `fork` lives, works on an `EMBRYO` slot of its own, and is its parent once that is
written. -/
structure Forking (t : Table) (pc : Slot → Pc) : Prop where
  embryo : ∀ q np, (pc q).forks = some np → (t.proc np).state = .embryo
  alive : ∀ q np, (pc q).forks = some np → (t.proc q).state.alive = true
  unique : ∀ q q' np, (pc q).forks = some np → (pc q').forks = some np → q = q'
  linked : ∀ q np, pc q = .forkLink np → (t.proc np).parent = some q

namespace Forking

variable {t t' : Table} {pc : Slot → Pc} {q : Slot} {next : Pc}

/-- A step that leaves the slots under construction and the processes in `fork` alone. -/
theorem mono (h : Forking t pc) (hembryo : ∀ q np, (pc q).forks = some np → (t'.proc np).state = .embryo)
    (halive : ∀ q np, (pc q).forks = some np → (t'.proc q).state.alive = true)
    (hparent : ∀ q np, pc q = .forkLink np → (t'.proc np).parent = (t.proc np).parent) : Forking t' pc :=
  ⟨hembryo, halive, h.unique, fun q np hq => (hparent q np hq).trans (h.linked q np hq)⟩

/-- Process `q` goes on in `fork`, with the same slot or a fresh one, or leaves it. -/
theorem goto (h : Forking t pc) (hothers : ∀ r np, r ≠ q → (pc r).forks = some np → (t'.proc np).state = .embryo ∧
      (t'.proc r).state.alive = true ∧ (t'.proc np).parent = (t.proc np).parent ∧ next.forks ≠ some np)
    (hnext : ∀ np, next.forks = some np → (t'.proc np).state = .embryo ∧ (t'.proc q).state.alive = true)
    (hlink : ∀ np, next = .forkLink np → (t'.proc np).parent = some q) :
    Forking t' (update pc q next) := by
  have hcases : ∀ r np, (update pc q next r).forks = some np →
      (r = q ∧ next.forks = some np) ∨ (r ≠ q ∧ (pc r).forks = some np) := by
    intro r np hr
    by_cases hrq : r = q
    · rw [hrq, update_self] at hr
      exact Or.inl ⟨hrq, hr⟩
    · rw [update_of_ne hrq] at hr
      exact Or.inr ⟨hrq, hr⟩
  refine ⟨fun r np hr => ?_, fun r np hr => ?_, fun r r' np hr hr' => ?_, fun r np hr => ?_⟩
  · rcases hcases r np hr with ⟨-, hnp⟩ | ⟨hrq, hnp⟩
    · exact (hnext np hnp).1
    · exact (hothers r np hrq hnp).1
  · rcases hcases r np hr with ⟨rfl, hnp⟩ | ⟨hrq, hnp⟩
    · exact (hnext np hnp).2
    · exact (hothers r np hrq hnp).2.1
  · rcases hcases r np hr with ⟨rfl, hnp⟩ | ⟨hrq, hnp⟩
    · rcases hcases r' np hr' with ⟨rfl, -⟩ | ⟨hrq', hnp'⟩
      · rfl
      · exact absurd hnp (hothers r' np hrq' hnp').2.2.2
    · rcases hcases r' np hr' with ⟨rfl, hnp'⟩ | ⟨-, hnp'⟩
      · exact absurd hnp' (hothers r np hrq hnp).2.2.2
      · exact h.unique r r' np hnp hnp'
  · by_cases hrq : r = q
    · rw [hrq, update_self] at hr
      rw [hrq]
      exact hlink np hr
    · rw [update_of_ne hrq] at hr
      have hforks : (pc r).forks = some np := by
        rw [hr]
        rfl
      rw [(hothers r np hrq hforks).2.2.1]
      exact h.linked r np hr

end Forking

/-! ### The invariant -/

structure Inv (s : Machine C) : Prop where
  pids : Pids s.table
  cpus : Cpus s.table s.cpu
  tree : Tree s.table
  forking : Forking s.table s.pc

theorem alive_of_running {st : ProcState} (h : st = .running) : st.alive = true := by
  rw [h]
  rfl

theorem alive_ne {st : ProcState} (h : st.alive = true) : st ≠ .unused ∧ st ≠ .embryo ∧ st ≠ .zombie := by
  refine ⟨?_, ?_, ?_⟩ <;> rintro rfl <;> cases h

namespace Inv

variable {s : Machine C} {c : C} {q np k : Slot} {p : Proc} {next : Pc}

theorem boot : Inv (Machine.boot C) := by
  refine ⟨Pids.boot, ⟨nofun, fun k hk => ?_, nofun⟩, ⟨rfl, fun k hk hunused => ?_⟩, ⟨nofun, nofun, nofun, nofun⟩⟩
  · by_cases hki : k = INITPROC
    · rw [hki] at hk
      cases hk
    · rw [Machine.boot, Table.boot_of_ne hki] at hk
      cases hk
  · rw [Machine.boot, Table.boot_of_ne hk] at hunused
    exact absurd rfl hunused

variable (h : Inv s)

include h

theorem nudge {t : Table} (hnext : t.nextpid = s.table.nextpid)
    (hwoken : ∀ k, Woken (s.table.proc k) { t.proc k with killed := (s.table.proc k).killed }) :
    Inv { s with table := t } := by
  have halive : ∀ k, (t.proc k).state.alive = (s.table.proc k).state.alive := fun k => (hwoken k).alive
  have hparent : ∀ k, (t.proc k).parent = (s.table.proc k).parent := fun k => (hwoken k).parent
  have hpid : ∀ k, (t.proc k).pid = (s.table.proc k).pid := fun k => (hwoken k).pid
  have hiff : ∀ k {st}, st ≠ .sleeping → st ≠ .runnable →
      ((t.proc k).state = st ↔ (s.table.proc k).state = st) := fun k _ hsleep hrun => (hwoken k).state_iff hsleep hrun
  refine ⟨h.pids.keep hnext (fun k => Or.inl (hpid k)) fun k hk => ⟨hpid k, fun heq => ?_⟩,
    h.cpus.congr fun k => hiff k (by decide) (by decide),
    h.tree.mono (fun k hk => (halive k).trans hk) fun k _ hunused hembryo => ?_,
    h.forking.mono (fun r np hr => ?_) (fun r np hr => (halive r).trans (h.forking.alive r np hr))
      fun r np _ => hparent np⟩
  · exact hk ((hiff k (by decide) (by decide)).mpr heq)
  · exact Or.inr ⟨fun heq => hunused ((hiff k (by decide) (by decide)).mpr heq),
      fun heq => hembryo ((hiff k (by decide) (by decide)).mpr heq), hparent k⟩
  · exact (hiff np (by decide) (by decide)).mpr (h.forking.embryo r np hr)

theorem alter {cpu : C → Option Slot} (hq : (s.table.proc q).state.alive = true) (hp : p.state.alive = true)
    (hpid : p.pid = (s.table.proc q).pid) (hparent : p.parent = (s.table.proc q).parent)
    (hcpus : Cpus (s.table.set q p) cpu) : Inv { s with table := s.table.set q p, cpu := cpu } := by
  obtain ⟨hunused, hembryo, -⟩ := alive_ne hq
  have hcases : ∀ k, (k = q ∧ (s.table.set q p).proc k = p) ∨ (s.table.set q p).proc k = s.table.proc k := by
    intro k
    by_cases hkq : k = q
    · exact Or.inl ⟨hkq, by rw [hkq, s.table.set_self]⟩
    · exact Or.inr (s.table.set_other p hkq)
  have halive : ∀ k, (s.table.proc k).state.alive = true → ((s.table.set q p).proc k).state.alive = true := by
    intro k hk
    rcases hcases k with ⟨-, heq⟩ | heq
    · rwa [heq]
    · rwa [heq]
  have hother : ∀ r np, (s.pc r).forks = some np → (s.table.set q p).proc np = s.table.proc np := by
    intro r np hr
    apply s.table.set_other
    rintro rfl
    exact hembryo (h.forking.embryo r np hr)
  refine ⟨h.pids.keep rfl (fun k => Or.inl ?_) fun k hk => ?_, hcpus,
    h.tree.mono halive fun k _ hk hk' => Or.inr ?_, h.forking.mono (fun r np hr => ?_)
      (fun r np hr => halive r (h.forking.alive r np hr)) fun r np hr => ?_⟩ <;> dsimp only at *
  · rcases hcases k with ⟨rfl, heq⟩ | heq
    · rw [heq, hpid]
    · rw [heq]
  · rcases hcases k with ⟨rfl, heq⟩ | heq
    · rw [heq]
      exact ⟨hpid, hunused⟩
    · rw [heq] at hk ⊢
      exact ⟨rfl, hk⟩
  · rcases hcases k with ⟨rfl, heq⟩ | heq
    · rw [heq]
      exact ⟨hunused, hembryo, hparent⟩
    · rw [heq] at hk hk' ⊢
      exact ⟨hk, hk', rfl⟩
  · rw [hother r np hr]
    exact h.forking.embryo r np hr
  · rw [hother r np (by rw [hr]; rfl)]

theorem pause [DecidableEq C] (hc : s.cpu c = some q) (hp : p.state.alive = true) (hstop : p.state ≠ .running)
    (hpid : p.pid = (s.table.proc q).pid) (hparent : p.parent = (s.table.proc q).parent) :
    Inv (s.sched c (s.table.set q p)) := by
  refine h.alter (alive_of_running (h.cpus.running c q hc)) hp hpid hparent (h.cpus.leave hc ?_ fun k hk => ?_)
  · rwa [s.table.set_self]
  · rw [s.table.set_other p hk]

theorem moveOn (hnext : next.forks = none) : Inv (s.goto q s.table next) := by
  refine ⟨h.pids, h.cpus, h.tree, h.forking.goto (fun r np _ hr => ?_) (fun np hnp => ?_) fun np hnp => ?_⟩
  · refine ⟨h.forking.embryo r np hr, h.forking.alive r np hr, rfl, ?_⟩
    rw [hnext]
    exact nofun
  · rw [hnext] at hnp
    cases hnp
  · rw [hnp] at hnext
    cases hnext

theorem schedule [DecidableEq C] (hc : s.cpu c = none) (hq : (s.table.proc q).state = .runnable)
    (hstate : p.state = .running) (hpid : p.pid = (s.table.proc q).pid) (hparent : p.parent = (s.table.proc q).parent) :
    Inv { s with table := s.table.set q p, cpu := update s.cpu c (some q) } := by
  have halive : (s.table.proc q).state.alive = true := by
    rw [hq]
    rfl
  refine h.alter halive (alive_of_running hstate) hpid hparent (h.cpus.enter hc ?_ ?_ fun k hk => ?_)
  · rw [hq]
    exact nofun
  · rwa [s.table.set_self]
  · rw [s.table.set_other p hk]

/-- A slot without a living process is filled anew, and `q` moves on: with this slot in `fork`, or out of it. -/
theorem refill {t : Table} (hpids : Pids t) (hself : t.proc np = p) (hother : ∀ k, k ≠ np → t.proc k = s.table.proc k)
    (hdead : (s.table.proc np).state.alive = false) (hstop : p.state ≠ .running)
    (hfresh : ∀ r, r ≠ q → (s.pc r).forks ≠ some np)
    (hparent : p.state ≠ .unused → p.state ≠ .embryo → ∃ j, p.parent = some j ∧ (s.table.proc j).state.alive = true)
    (hnext : ∀ k, next.forks = some k → k = np ∧ p.state = .embryo ∧ (s.table.proc q).state.alive = true)
    (hlink : next = .forkLink np → p.parent = some q) : Inv (s.goto q t next) := by
  have halive : ∀ k, (s.table.proc k).state.alive = true → t.proc k = s.table.proc k := by
    intro k hk
    apply hother
    rintro rfl
    rw [hdead] at hk
    cases hk
  refine ⟨hpids, h.cpus.congr fun k => ?_, h.tree.mono (fun k hk => ?_) fun k _ hk hk' => ?_,
    h.forking.goto (fun r k hr hforks => ?_) (fun k hk => ?_) fun k hk => ?_⟩ <;> dsimp only [Machine.goto] at *
  · by_cases hknp : k = np
    · rw [hknp, hself]
      refine iff_of_false hstop fun heq => ?_
      rw [heq] at hdead
      cases hdead
    · rw [hother k hknp]
  · rwa [halive k hk]
  · by_cases hknp : k = np
    · rw [hknp, hself] at hk hk' ⊢
      exact Or.inl (hparent hk hk')
    · rw [hother k hknp] at hk hk' ⊢
      exact Or.inr ⟨hk, hk', rfl⟩
  · have hne : k ≠ np := fun heq => hfresh r hr (heq ▸ hforks)
    rw [hother k hne, halive r (h.forking.alive r k hforks)]
    exact ⟨h.forking.embryo r k hforks, h.forking.alive r k hforks, rfl, fun heq => hne (hnext k heq).1⟩
  · obtain ⟨rfl, hembryo, hq⟩ := hnext k hk
    rw [hself, halive q hq]
    exact ⟨hembryo, hq⟩
  · obtain ⟨rfl, -⟩ := hnext k (by rw [hk]; rfl)
    rw [hself]
    exact hlink hk

/-- A step of `fork` on its slot `np`: it stays under construction, is given back or starts to live. -/
theorem work (hq : (s.pc q).forks = some np) (hpid : p.pid = (s.table.proc np).pid) (hstop : p.state ≠ .running)
    (hparent : p.state ≠ .unused → p.state ≠ .embryo → p.parent = some q)
    (hnext : ∀ k, next.forks = some k → k = np ∧ p.state = .embryo) (hlink : next = .forkLink np → p.parent = some q) :
    Inv (s.goto q (s.table.set np p) next) := by
  have hembryo := h.forking.embryo q np hq
  have halive := h.forking.alive q np hq
  refine h.refill (h.pids.set (Or.inl hpid) fun _ => ⟨hpid, ?_⟩) (s.table.set_self np p) (fun k => s.table.set_other p)
    ?_ hstop (fun r hr hforks => hr (h.forking.unique r q np hforks hq))
    (fun hused hpast => ⟨q, hparent hused hpast, halive⟩) (fun k hk => ⟨(hnext k hk).1, (hnext k hk).2, halive⟩) hlink
  · rw [hembryo]
    exact nofun
  · rw [hembryo]
    rfl

theorem allocate (hq : (s.table.proc q).state.alive = true) (hnp : (s.table.proc np).state = .unused)
    (hstate : p.state = .embryo) (hpid : p.pid = s.table.nextpid) :
    Inv (s.goto q (s.table.alloc np p) (.forkStack np)) := by
  refine h.refill (h.pids.alloc hpid) (s.table.alloc_self np p) (fun k => s.table.alloc_other p) ?_ ?_
    (fun r _ hforks => ?_) (fun _ hpast => absurd hstate hpast)
    (fun k hk => ⟨(Option.some.inj hk).symm, hstate, hq⟩) nofun
  · rw [hnp]
    rfl
  · rw [hstate]
    exact nofun
  · exact nomatch hnp.symm.trans (h.forking.embryo r np hforks)

theorem reap (hk : (s.table.proc k).state = .zombie) : Inv (s.goto q (Procs.reap s.table k) .user) := by
  refine h.refill (h.pids.set (Or.inr rfl) fun hused => absurd rfl hused) (reap_self s.table k)
    (fun l => reap_other s.table) ?_ nofun (fun r _ hforks => ?_) (fun hused => absurd rfl hused) nofun nofun
  · rw [hk]
    rfl
  · exact nomatch hk.symm.trans (h.forking.embryo r k hforks)

theorem exit [DecidableEq C] (hc : s.cpu c = some q) (hpc : s.pc q = .user) (hq : q ≠ INITPROC) :
    Inv (s.sched c (Procs.exit s.table q)) := by
  have hrun := h.cpus.running c q hc
  have hiff : ∀ k, k ≠ q → ∀ st, st ≠ .sleeping → st ≠ .runnable →
      (((Procs.exit s.table q).proc k).state = st ↔ (s.table.proc k).state = st) :=
    fun k hk st hsleep hrunnable => exit_state s.table hk hsleep hrunnable
  have halive : ∀ k, k ≠ q → ((Procs.exit s.table q).proc k).state.alive = (s.table.proc k).state.alive := by
    intro k hk
    rw [(exit_other s.table hk).alive]
    unfold adopt
    split <;> rfl
  have hself := exit_state_self s.table q
  have hforker : ∀ r np, (s.pc r).forks = some np → r ≠ q ∧ np ≠ q := by
    refine fun r np hr => ⟨?_, ?_⟩
    · rintro rfl
      rw [hpc] at hr
      cases hr
    · rintro rfl
      have hembryo := h.forking.embryo r np hr
      rw [hrun] at hembryo
      cases hembryo
  refine ⟨h.pids.keep (exit_nextpid s.table q) (fun k => Or.inl (exit_fields s.table q k).1) fun k hk => ?_,
    h.cpus.leave hc ?_ fun k hk => hiff k hk _ nofun nofun, ⟨?_, fun k hk hunused hembryo => ?_⟩,
    h.forking.mono (fun r np hr => ?_) (fun r np hr => ?_) fun r np hr => ?_⟩ <;> dsimp only [Machine.sched] at *
  · refine ⟨(exit_fields s.table q k).1, fun hunused => ?_⟩
    by_cases hkq : k = q
    · rw [hkq, hrun] at hunused
      cases hunused
    · exact hk ((hiff k hkq .unused nofun nofun).mpr hunused)
  · rw [hself]
    exact nofun
  · rw [halive _ hq.symm]
    exact h.tree.init
  · have hpast : (s.table.proc k).state ≠ .unused ∧ (s.table.proc k).state ≠ .embryo := by
      by_cases hkq : k = q
      · rw [hkq, hrun]
        exact ⟨nofun, nofun⟩
      · exact ⟨fun heq => hunused ((hiff k hkq .unused nofun nofun).mpr heq),
          fun heq => hembryo ((hiff k hkq .embryo nofun nofun).mpr heq)⟩
    obtain ⟨j, hj, hjalive⟩ := h.tree.parent k hk hpast.1 hpast.2
    rw [(exit_fields s.table q k).2.2, adopt, hj]
    by_cases hjq : j = q
    · -- The children of `q` go to `initproc`.
      rw [if_pos (by rw [hjq])]
      refine ⟨INITPROC, rfl, ?_⟩
      rw [halive _ hq.symm]
      exact h.tree.init
    · rw [if_neg fun heq => hjq (Option.some.inj heq)]
      refine ⟨j, hj, ?_⟩
      rw [halive j hjq]
      exact hjalive
  · exact (hiff np (hforker r np hr).2 .embryo nofun nofun).mpr (h.forking.embryo r np hr)
  · rw [halive r (hforker r np hr).1]
    exact h.forking.alive r np hr
  · have hforks : (s.pc r).forks = some np := by
      rw [hr]
      rfl
    have hparent := h.forking.linked r np hr
    rw [(exit_fields s.table q np).2.2, adopt, if_neg]
    rw [hparent]
    exact fun heq => (hforker r np hforks).1 (Option.some.inj heq)

theorem step [DecidableEq C] {s' : Machine C} {a : Act C} (hstep : Procs.step s a = some s') : Inv s' := by
  cases a with
  | allocproc c =>
    obtain ⟨q, hc, hstep⟩ := Option.bind_eq_some_iff.mp hstep
    unfold allocStep at hstep
    split at hstep
    · rename_i np t hpc halloc
      cases hstep
      rcases allocproc_cases halloc with ⟨hnp, -⟩ | ⟨k, hnp, hunused, -, rfl⟩
      · cases hnp
      · cases hnp
        exact h.allocate (alive_of_running (h.cpus.running c q hc)) hunused rfl rfl
    · cases hstep
      exact h
    · cases hstep
  | kalloc c ok =>
    obtain ⟨q, hc, hstep⟩ := Option.bind_eq_some_iff.mp hstep
    unfold kallocStep at hstep
    split at hstep
    · rename_i np hpc
      cases hstep
      have hforks : (s.pc q).forks = some np := congrArg Pc.forks hpc
      have hembryo := h.forking.embryo q np hforks
      cases ok with
      | true =>
        exact h.work hforks rfl (hembryo ▸ nofun) (fun _ hpast => absurd hembryo hpast)
          (fun k hk => ⟨(Option.some.inj hk).symm, hembryo⟩) nofun
      | false => exact h.work hforks rfl nofun (fun hused => absurd rfl hused) nofun nofun
    · cases hstep
  | copyuvm c ok =>
    obtain ⟨q, hc, hstep⟩ := Option.bind_eq_some_iff.mp hstep
    unfold copyuvmStep at hstep
    split at hstep
    · rename_i np hpc
      cases hstep
      have hforks : (s.pc q).forks = some np := congrArg Pc.forks hpc
      have hembryo := h.forking.embryo q np hforks
      cases ok with
      | true =>
        exact h.work hforks rfl (hembryo ▸ nofun) (fun _ _ => rfl) (fun k hk => ⟨(Option.some.inj hk).symm, hembryo⟩)
          fun _ => rfl
      | false => exact h.work hforks rfl nofun (fun hused => absurd rfl hused) nofun nofun
    · cases hstep
  | start c =>
    obtain ⟨q, hc, hstep⟩ := Option.bind_eq_some_iff.mp hstep
    unfold startStep at hstep
    split at hstep
    · rename_i np hpc
      cases hstep
      exact h.work (congrArg Pc.forks hpc) rfl nofun (fun _ _ => h.forking.linked q np hpc) nofun nofun
    · cases hstep
  | exit c =>
    obtain ⟨q, hc, hstep⟩ := Option.bind_eq_some_iff.mp hstep
    unfold exitStep at hstep
    split at hstep
    · rename_i hwhere
      cases hstep
      exact h.exit hc hwhere.1 hwhere.2
    · cases hstep
  | wait c =>
    obtain ⟨q, hc, hstep⟩ := Option.bind_eq_some_iff.mp hstep
    unfold waitStep at hstep
    split at hstep
    · split at hstep
      · rename_i k hzombie
        cases hstep
        exact h.reap (zombieChild_some hzombie).2
      · split at hstep
        · cases hstep
          exact h.moveOn rfl
        · cases hstep
          have hmoved : Inv (s.goto q s.table .waiting) := h.moveOn rfl
          exact hmoved.pause hc rfl nofun rfl rfl
    · cases hstep
  | yield c | sleep c chan =>
    obtain ⟨q, hc, hstep⟩ := Option.bind_eq_some_iff.mp hstep
    cases hstep
    exact h.pause hc rfl nofun rfl rfl
  | wakeup chan =>
    cases hstep
    refine h.nudge rfl fun k => ?_
    have hwoken := wakeup1_woken s.table chan k
    rw [← hwoken.killed]
    exact hwoken
  | kill pid =>
    cases hstep
    have heffect := kill_effect s.table INITPROC pid
    generalize (Procs.kill s.table pid).1 = r at heffect
    generalize (Procs.kill s.table pid).2 = t at heffect ⊢
    cases heffect with
    | missed => exact h
    | marked k p _ hwoken =>
      refine h.nudge rfl fun l => ?_
      by_cases hl : l = k
      · rw [hl, s.table.set_self]
        exact hwoken
      · rw [s.table.set_other p hl]
        exact Woken.refl _
  | schedule c p =>
    change scheduleStep s c p = some s' at hstep
    unfold scheduleStep at hstep
    split at hstep
    · rename_i hidle
      cases hstep
      exact h.schedule hidle.1 hidle.2 rfl rfl rfl
    · cases hstep

end Inv

theorem wait_frees [DecidableEq C] {s s' : Machine C} {c : C} {k : Slot} (hstep : Procs.step s (.wait c) = some s')
    (hk : ((s.table.proc k).state ≠ .unused ∧ (s'.table.proc k).state = .unused) ∨
      ((s.table.proc k).kstack = true ∧ (s'.table.proc k).kstack = false)) :
    (s.table.proc k).state = .zombie := by
  have hkept : s'.table.proc k = s.table.proc k → (s.table.proc k).state = .zombie := by
    intro heq
    rw [heq] at hk
    rcases hk with ⟨hused, hunused⟩ | ⟨hstack, hgone⟩
    · exact absurd hunused hused
    · exact nomatch hstack.symm.trans hgone
  obtain ⟨q, hc, hstep⟩ := Option.bind_eq_some_iff.mp hstep
  unfold waitStep at hstep
  split at hstep
  · split at hstep
    · rename_i l hzombie
      cases hstep
      by_cases hkl : k = l
      · rw [hkl]
        exact (zombieChild_some hzombie).2
      · exact hkept (reap_other s.table hkl)
    · split at hstep
      · cases hstep
        exact hkept rfl
      cases hstep
      by_cases hkq : k = q
      · dsimp only [Machine.sched] at hk
        rw [hkq, s.table.set_self] at hk
        rcases hk with ⟨-, hunused⟩ | ⟨hstack, hgone⟩
        · cases hunused
        · exact nomatch hstack.symm.trans hgone
      · exact hkept (s.table.set_other _ hkq)
  · cases hstep

/-- On any number of CPUs and after any steps: two slots in use have different pids; the running
processes are those on exactly one CPU; every process past its creation has a living parent, whose
positive pid `getppid` returns; and `wait` frees only what no CPU runs. -/
theorem process_tree [DecidableEq C] (e : Trace (Machine.boot C) step) : ∀ t ≤ e.len,
    (∀ k l, ((e.state t).table.proc k).state ≠ .unused → ((e.state t).table.proc l).state ≠ .unused → k ≠ l →
      ((e.state t).table.proc k).pid ≠ ((e.state t).table.proc l).pid) ∧
    (∀ k, ((e.state t).table.proc k).state = .running ↔ ∃! c, (e.state t).cpu c = some k) ∧
    (∀ k, k ≠ INITPROC → ((e.state t).table.proc k).state ≠ .unused → ((e.state t).table.proc k).state ≠ .embryo →
      ∃ j, ((e.state t).table.proc k).parent = some j ∧ ((e.state t).table.proc j).state ≠ .unused ∧
        ((e.state t).table.proc j).state ≠ .zombie ∧ ∃ pid, getppid (e.state t).table k = some pid ∧ 0 < pid ∧
          pid = ((e.state t).table.proc j).pid) ∧
    (t < e.len → ∀ c k, e.act t = .wait c →
      (((e.state t).table.proc k).state ≠ .unused ∧ ((e.state (t + 1)).table.proc k).state = .unused) ∨
        (((e.state t).table.proc k).kstack = true ∧ ((e.state (t + 1)).table.proc k).kstack = false) →
      ∀ c', (e.state t).cpu c' ≠ some k) := by
  intro t ht
  have h : Inv (e.state t) := e.invariant Inv.boot (fun _ _ _ hinv hstep => hinv.step hstep) t ht
  refine ⟨fun k l hk _ hkl heq => ?_, fun k => ⟨fun hk => ?_, fun hk => ?_⟩, fun k hk hunused hembryo => ?_,
    fun hlt c k hact hfreed c' hc' => ?_⟩
  · exact hkl (h.pids.inj k l (h.pids.pos k hk).ne' heq)
  · obtain ⟨c, hc⟩ := h.cpus.cpuOf k hk
    exact ⟨c, hc, fun c' hc' => h.cpus.unique c' c k hc' hc⟩
  · obtain ⟨c, hc, -⟩ := hk
    exact h.cpus.running c k hc
  · obtain ⟨j, hj, halive⟩ := h.tree.parent k hk hunused hembryo
    have hne := alive_ne halive
    refine ⟨j, hj, hne.1, hne.2.2, _, ?_, h.pids.pos j hne.1, rfl⟩
    rw [getppid, hj, Option.map_some]
  · have hstep := e.next t hlt
    rw [hact] at hstep
    have hzombie := wait_frees hstep hfreed
    have hrun := h.cpus.running c' k hc'
    rw [hzombie] at hrun
    cases hrun

/-- On two CPUs: `initproc` forks, both run, the child exits and is waited for. -/
def parentAndChild : List (Act Bool) :=
  [.schedule false INITPROC, .allocproc false, .kalloc false true, .copyuvm false true, .start false,
    .schedule true (slot 1), .exit true, .wait false]

def parentAndChildTrace : Trace (Machine.boot Bool) step :=
  Trace.ofList parentAndChild (.wakeup none) (by decide +kernel)

theorem process_tree_parentAndChild :
    (parentAndChildTrace.state 6).cpu true = some 1 ∧
    (∃! c, (parentAndChildTrace.state 6).cpu c = some 1) ∧
    (∃ j, ((parentAndChildTrace.state 6).table.proc 1).parent = some j ∧
      ((parentAndChildTrace.state 6).table.proc j).state ≠ .unused ∧
      ((parentAndChildTrace.state 6).table.proc j).state ≠ .zombie ∧
      ∃ pid, getppid (parentAndChildTrace.state 6).table 1 = some pid ∧ 0 < pid ∧
        pid = ((parentAndChildTrace.state 6).table.proc j).pid) ∧
    ∀ c, (parentAndChildTrace.state 7).cpu c ≠ some 1 := by
  obtain ⟨-, hrunning, hparent, -⟩ := process_tree parentAndChildTrace 6 (by decide)
  obtain ⟨-, -, -, hfrees⟩ := process_tree parentAndChildTrace 7 (by decide)
  have hcpu : (parentAndChildTrace.state 6).cpu true = some 1 := by decide +kernel
  have hstate : ((parentAndChildTrace.state 6).table.proc 1).state = .running := by decide +kernel
  refine ⟨hcpu, (hrunning 1).mp hstate, hparent 1 (by decide) ?_ ?_, hfrees (by decide) false 1 rfl (Or.inl ?_)⟩
  · rw [hstate]
    exact nofun
  · rw [hstate]
    exact nofun
  · decide +kernel

end Laboratorio.Procs
