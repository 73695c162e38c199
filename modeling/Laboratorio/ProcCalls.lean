import Laboratorio.ProcTable
import Laboratorio.Trace

/-! The calls `fork`, `exit`, `wait` and `kill`, one after another. Between two calls a process that has
not exited is `RUNNABLE`; a call that would sleep has not completed.

`kill` looks at `pid` only. An `UNUSED` slot keeps the pid 0, or that of a `fork` that failed, so `kill`
can mark a slot that holds no process, and `allocproc` does not clear the mark. -/

namespace Laboratorio.Procs

/-- The memory that a `fork` finds: none for the kernel stack, none for the copy of the address space, or
enough. -/
inductive Memory where
  | noStack
  | noCopy
  | enough
  deriving DecidableEq

inductive Call where
  | fork (memory : Memory)
  | exit
  | wait
  | kill (pid : Int)
  deriving DecidableEq

def fork (s : Table) (cur : Slot) (memory : Memory) : Option (Int × Table) :=
  match allocproc s with
  | none => none
  | some (none, s) => some (-1, s)
  | some (some k, s) =>
    match memory with
    | .noStack | .noCopy => some (-1, s.set k { s.proc k with kstack := false, state := .unused })
    | .enough =>
      some ((s.proc k).pid, s.set k { s.proc k with
        kstack := true
        parent := some cur
        state := .runnable })

/-- `wait`, if it does not sleep. -/
def wait (s : Table) (cur : Slot) : Option (Int × Table) :=
  match zombieChild s cur with
  | some k => some ((s.proc k).pid, reap s k)
  | none => if haveKids s cur = false ∨ (s.proc cur).killed = true then some (-1, s) else none

/-- A call of a process: what it returns, and the table then. -/
def call (s : Table) (a : Slot × Call) : Option (Int × Table) :=
  if (s.proc a.1).state ≠ .runnable then none
  else match a.2 with
    | .fork memory => fork s a.1 memory
    | .exit => if a.1 = INITPROC then none else some (0, exit s a.1)
    | .wait => wait s a.1
    | .kill pid => some (kill s pid)

def next (s : Table) (a : Slot × Call) : Option Table := (call s a).map Prod.snd

/-- The pids of the slots: 0, or distinct and given out already. -/
structure Pids (s : Table) : Prop where
  nonneg : ∀ k, 0 ≤ (s.proc k).pid
  lt : ∀ k, (s.proc k).pid < s.nextpid
  pos : ∀ k, (s.proc k).state ≠ .unused → 0 < (s.proc k).pid
  inj : ∀ k l, (s.proc k).pid ≠ 0 → (s.proc k).pid = (s.proc l).pid → k = l

variable {k : Slot}

namespace Pids

variable {s s' : Table}

theorem boot : Pids Table.boot := by
  have hinit : (Table.boot.proc INITPROC).pid = 1 := rfl
  refine ⟨fun k => ?_, fun k => ?_, fun k hk => ?_, fun k l hk heq => ?_⟩
  · by_cases hinitk : k = INITPROC
    · rw [hinitk, hinit]
      decide
    · rw [Table.boot_of_ne hinitk]
      decide
  · by_cases hinitk : k = INITPROC
    · rw [hinitk, hinit]
      decide
    · rw [Table.boot_of_ne hinitk]
      decide
  · by_cases hinitk : k = INITPROC
    · rw [hinitk, hinit]
      decide
    · rw [Table.boot_of_ne hinitk] at hk
      exact absurd rfl hk
  · by_cases hinitk : k = INITPROC
    · by_cases hinitl : l = INITPROC
      · rw [hinitk, hinitl]
      · rw [hinitk, Table.boot_of_ne hinitl, hinit] at heq
        cases heq
    · rw [Table.boot_of_ne hinitk] at hk
      exact absurd rfl hk

theorem keep (h : Pids s) (hnext : s'.nextpid = s.nextpid)
    (hpid : ∀ k, (s'.proc k).pid = (s.proc k).pid ∨ (s'.proc k).pid = 0)
    (hpos : ∀ k, (s'.proc k).state ≠ .unused → (s'.proc k).pid = (s.proc k).pid ∧ (s.proc k).state ≠ .unused) :
    Pids s' := by
  have hback : ∀ k, (s'.proc k).pid ≠ 0 → (s'.proc k).pid = (s.proc k).pid :=
    fun k hk => (hpid k).resolve_right hk
  refine ⟨fun k => ?_, fun k => ?_, fun k hk => ?_, fun k l hk heq => ?_⟩
  · rcases hpid k with heq | heq
    · rw [heq]
      exact h.nonneg k
    · rw [heq]
  · rw [hnext]
    rcases hpid k with heq | heq
    · rw [heq]
      exact h.lt k
    · rw [heq]
      exact (h.nonneg k).trans_lt (h.lt k)
  · obtain ⟨heq, hused⟩ := hpos k hk
    rw [heq]
    exact h.pos k hused
  · have hl : (s'.proc l).pid ≠ 0 := heq ▸ hk
    rw [hback k hk, hback l hl] at heq
    exact h.inj k l (hback k hk ▸ hk) heq

theorem set (h : Pids s) {p : Proc} (hpid : p.pid = (s.proc k).pid ∨ p.pid = 0)
    (hpos : p.state ≠ .unused → p.pid = (s.proc k).pid ∧ (s.proc k).state ≠ .unused) : Pids (s.set k p) := by
  refine h.keep rfl (fun l => ?_) fun l hl => ?_
  · by_cases hlk : l = k
    · rwa [hlk, s.set_self]
    · rw [s.set_other p hlk]
      exact Or.inl rfl
  · by_cases hlk : l = k
    · rw [hlk, s.set_self] at hl ⊢
      exact hpos hl
    · rw [s.set_other p hlk] at hl ⊢
      exact ⟨rfl, hl⟩

theorem alloc (h : Pids s) {p : Proc} (hp : p.pid = s.nextpid) : Pids (s.alloc k p) := by
  have hpos : 0 < s.nextpid := (h.nonneg k).trans_lt (h.lt k)
  have hnext : (s.alloc k p).nextpid = s.nextpid + 1 := rfl
  have hself : ∀ l, l = k → ((s.alloc k p).proc l).pid = s.nextpid := by
    rintro l rfl
    rw [s.alloc_self, hp]
  refine ⟨fun l => ?_, fun l => ?_, fun l hl => ?_, fun l j hl heq => ?_⟩
  · by_cases hlk : l = k
    · rw [hself l hlk]
      exact hpos.le
    · rw [s.alloc_other p hlk]
      exact h.nonneg l
  · rw [hnext]
    by_cases hlk : l = k
    · rw [hself l hlk]
      exact Int.lt_add_one_of_le (le_refl _)
    · rw [s.alloc_other p hlk]
      exact Int.lt_add_one_of_le (h.lt l).le
  · by_cases hlk : l = k
    · rw [hself l hlk]
      exact hpos
    · rw [s.alloc_other p hlk] at hl ⊢
      exact h.pos l hl
  · by_cases hlk : l = k
    · by_cases hjk : j = k
      · rw [hlk, hjk]
      · rw [hself l hlk, s.alloc_other p hjk] at heq
        exact absurd heq (h.lt j).ne'
    · by_cases hjk : j = k
      · rw [hself j hjk, s.alloc_other p hlk] at heq
        exact absurd heq (h.lt l).ne
      · rw [s.alloc_other p hlk] at hl heq
        rw [s.alloc_other p hjk] at heq
        exact h.inj l j hl heq

end Pids

/-! ### What a call does -/

variable {s s' : Table} {cur : Slot} {c : Call} {r : Int}

/-- All that a completed call of process `cur` can do and return. -/
inductive Effect (s : Table) (cur : Slot) : Call → Int → Table → Prop
  | full (memory : Memory) : Effect s cur (.fork memory) (-1) s
  | failed (memory : Memory) (k : Slot) (p : Proc) (unused : (s.proc k).state = .unused)
      (pid : p.pid = s.nextpid) (killed : p.killed = (s.proc k).killed) (state : p.state = .unused)
      (parent : p.parent = (s.proc k).parent) :
      Effect s cur (.fork memory) (-1) (s.alloc k p)
  | forked (memory : Memory) (k : Slot) (p : Proc) (unused : (s.proc k).state = .unused)
      (pid : p.pid = s.nextpid) (killed : p.killed = (s.proc k).killed) (state : p.state = .runnable)
      (parent : p.parent = some cur) :
      Effect s cur (.fork memory) s.nextpid (s.alloc k p)
  | exited (other : cur ≠ INITPROC) : Effect s cur .exit 0 (exit s cur)
  | reaped (k : Slot) (parent : (s.proc k).parent = some cur) (zombie : (s.proc k).state = .zombie) :
      Effect s cur .wait (s.proc k).pid (reap s k)
  | gaveUp (reason : (∀ k, (s.proc k).parent ≠ some cur) ∨ (s.proc cur).killed = true) :
      Effect s cur .wait (-1) s
  | missed (pid : Int) (nobody : ∀ k, (s.proc k).pid ≠ pid) : Effect s cur (.kill pid) (-1) s
  | marked (k : Slot) (p : Proc) (killed : p.killed = true)
      (woken : Woken (s.proc k) { p with killed := (s.proc k).killed }) :
      Effect s cur (.kill (s.proc k).pid) 0 (s.set k p)

theorem fork_effect {memory : Memory} (h : fork s cur memory = some (r, s')) :
    Effect s cur (.fork memory) r s' := by
  unfold fork at h
  split at h
  · cases h
  · rename_i s₁ halloc
    cases h
    rcases allocproc_cases halloc with ⟨-, rfl⟩ | ⟨k, hk, -⟩
    · exact .full memory
    · cases hk
  · rename_i k s₁ halloc
    rcases allocproc_cases halloc with ⟨hk, -⟩ | ⟨k', hk, hunused, -, rfl⟩
    · cases hk
    cases hk
    split at h
    · cases h
      rw [s.alloc_set, s.alloc_self]
      exact .failed _ k _ hunused rfl rfl rfl rfl
    · cases h
      rw [s.alloc_set, s.alloc_self]
      exact .failed _ k _ hunused rfl rfl rfl rfl
    · cases h
      rw [s.alloc_set, s.alloc_self]
      exact .forked _ k _ hunused rfl rfl rfl rfl

theorem wait_effect (h : wait s cur = some (r, s')) : Effect s cur .wait r s' := by
  unfold wait at h
  split at h
  · rename_i k hk
    cases h
    obtain ⟨hparent, hzombie⟩ := zombieChild_some hk
    exact .reaped k hparent hzombie
  · split at h
    · rename_i hwhy
      cases h
      exact .gaveUp (hwhy.imp_left haveKids_eq_false)
    · cases h

theorem kill_effect (s : Table) (cur : Slot) (pid : Int) :
    Effect s cur (.kill pid) (kill s pid).1 (kill s pid).2 := by
  unfold kill
  split
  · rename_i hnone
    refine .missed pid fun k hk => ?_
    have hno := List.find?_eq_none.mp hnone k (List.mem_finRange k)
    exact hno (decide_eq_true hk)
  · rename_i k hfind
    have hfound := List.find?_some hfind
    obtain rfl := of_decide_eq_true hfound
    refine .marked k _ rfl ?_
    by_cases hsleep : (s.proc k).state = .sleeping
    · exact Or.inr ⟨hsleep, by rw [if_pos hsleep]⟩
    · exact Or.inl (by rw [if_neg hsleep])

theorem call_effect (h : call s (cur, c) = some (r, s')) :
    (s.proc cur).state = .runnable ∧ Effect s cur c r s' := by
  unfold call at h
  split at h
  · cases h
  rename_i hrun
  refine ⟨not_not.mp hrun, ?_⟩
  cases c with
  | fork memory => exact fork_effect h
  | exit =>
    dsimp only at h
    split at h
    · cases h
    · rename_i hother
      cases h
      exact .exited hother
  | wait => exact wait_effect h
  | kill pid =>
    have hkill : kill s pid = (r, s') := Option.some.inj h
    have heffect := kill_effect s cur pid
    rw [hkill] at heffect
    exact heffect

theorem reap_self (s : Table) (k : Slot) : (reap s k).proc k =
    { s.proc k with state := .unused, pid := 0, parent := none, killed := false, kstack := false } :=
  s.set_self k _

theorem reap_other (s : Table) {l : Slot} (h : l ≠ k) : (reap s k).proc l = s.proc l := s.set_other _ h

theorem exit_fields (s : Table) (cur k : Slot) :
    ((exit s cur).proc k).pid = (s.proc k).pid ∧ ((exit s cur).proc k).killed = (s.proc k).killed ∧
      ((exit s cur).proc k).parent = (adopt cur (s.proc k)).parent := by
  have hadopt : (adopt cur (s.proc k)).pid = (s.proc k).pid ∧
      (adopt cur (s.proc k)).killed = (s.proc k).killed := by
    unfold adopt
    split <;> exact ⟨rfl, rfl⟩
  by_cases hk : k = cur
  · obtain ⟨p, hp, heq⟩ := exit_self s cur
    subst hk
    rw [heq]
    exact ⟨hp.pid.trans hadopt.1, hp.killed.trans hadopt.2, hp.parent⟩
  · have hp := exit_other s hk
    exact ⟨hp.pid.trans hadopt.1, hp.killed.trans hadopt.2, hp.parent⟩

theorem exit_state (s : Table) {cur : Slot} (hk : k ≠ cur) {st : ProcState} (hsleep : st ≠ .sleeping)
    (hrun : st ≠ .runnable) : ((exit s cur).proc k).state = st ↔ (s.proc k).state = st := by
  rw [(exit_other s hk).state_iff hsleep hrun]
  unfold adopt
  split <;> exact Iff.rfl

theorem exit_state_self (s : Table) (cur : Slot) : ((exit s cur).proc cur).state = .zombie := by
  obtain ⟨p, -, heq⟩ := exit_self s cur
  rw [heq]

theorem Pids.effect (hp : Pids s) (hrun : (s.proc cur).state = .runnable) (h : Effect s cur c r s') :
    Pids s' := by
  cases h with
  | full memory => exact hp
  | failed memory k p _ pid | forked memory k p _ pid => exact hp.alloc pid
  | exited =>
    refine hp.keep (exit_nextpid s cur) (fun k => Or.inl (exit_fields s cur k).1) fun k hk => ?_
    refine ⟨(exit_fields s cur k).1, fun hunused => ?_⟩
    by_cases hkc : k = cur
    · rw [hkc, hrun] at hunused
      cases hunused
    · exact hk ((exit_state s hkc (by decide) (by decide)).mpr hunused)
  | reaped k => exact hp.set (Or.inr rfl) fun hused => absurd rfl hused
  | gaveUp => exact hp
  | missed => exact hp
  | marked k p _ woken =>
    refine hp.set (Or.inl woken.pid) fun hused => ⟨woken.pid, fun hunused => ?_⟩
    exact hused ((woken.state_iff (by decide) (by decide)).mpr hunused)

/-! ### Who a kill reaches -/

/-- `kill(pid)` found the process with that pid and marked it alone, or there was none. -/
def KillReaches (s : Table) (pid : Int) (r : Int) (s' : Table) : Prop :=
  (r = 0 ↔ ∃ k, (s.proc k).state ≠ .unused ∧ (s.proc k).pid = pid) ∧
    (∀ k, (s'.proc k).killed ≠ (s.proc k).killed → (s.proc k).state ≠ .unused ∧ (s.proc k).pid = pid) ∧
    (r = 0 → ∀ k, (s.proc k).state ≠ .unused → (s.proc k).pid = pid → (s'.proc k).killed = true)

/-- A child that a call made is not marked. -/
def ChildUnmarked (s s' : Table) : Prop :=
  ∀ k, (s.proc k).state = .unused → (s'.proc k).state ≠ .unused → (s'.proc k).killed = false

def CallReaches (s : Table) (a : Slot × Call) : Prop :=
  ∀ r s', call s a = some (r, s') → ChildUnmarked s s' ∧ ∀ pid, a.2 = .kill pid → KillReaches s pid r s'

/-- No `UNUSED` slot has the pid that the call kills. -/
def AimsAtProcess (s : Table) (a : Slot × Call) : Prop :=
  ∀ pid, a.2 = .kill pid → ∀ k, (s.proc k).state = .unused → (s.proc k).pid ≠ pid

def Unmarked (s : Table) : Prop := ∀ k, (s.proc k).state = .unused → (s.proc k).killed = false

theorem Unmarked.update (hm : Unmarked s) {p : Proc} (hself : s'.proc k = p)
    (hother : ∀ l, l ≠ k → s'.proc l = s.proc l) (hp : p.state = .unused → p.killed = false)
    (hchild : (s.proc k).state = .unused → p.state ≠ .unused → p.killed = false) :
    Unmarked s' ∧ ChildUnmarked s s' := by
  refine ⟨fun l hl => ?_, fun l hl hl' => ?_⟩
  · by_cases hlk : l = k
    · rw [hlk, hself] at hl ⊢
      exact hp hl
    · rw [hother l hlk] at hl ⊢
      exact hm l hl
  · by_cases hlk : l = k
    · rw [hlk, hself] at hl' ⊢
      exact hchild (hlk ▸ hl) hl'
    · rw [hother l hlk] at hl'
      exact absurd hl hl'

theorem Unmarked.effect (hm : Unmarked s) (hrun : (s.proc cur).state = .runnable)
    (haims : AimsAtProcess s (cur, c)) (h : Effect s cur c r s') : Unmarked s' ∧ ChildUnmarked s s' := by
  have hsame : Unmarked s ∧ ChildUnmarked s s := ⟨hm, fun k hk hk' => absurd hk hk'⟩
  cases h with
  | full => exact hsame
  | failed memory k p unused _ killed | forked memory k p unused _ killed =>
    have hnew := killed.trans (hm k unused)
    exact hm.update (s.alloc_self k p) (fun l => s.alloc_other p) (fun _ => hnew) fun _ _ => hnew
  | exited =>
    have hback : ∀ k, ((exit s cur).proc k).state = .unused ↔ (s.proc k).state = .unused := by
      intro k
      by_cases hkc : k = cur
      · rw [hkc, exit_state_self, hrun]
        decide
      · exact exit_state s hkc (by decide) (by decide)
    refine ⟨fun k hk => ?_, fun k hk hk' => absurd ((hback k).mpr hk) hk'⟩
    rw [(exit_fields s cur k).2.1]
    exact hm k ((hback k).mp hk)
  | reaped k _ zombie =>
    exact hm.update (reap_self s k) (fun l => reap_other s) (fun _ => rfl)
      fun hunused _ => nomatch zombie.symm.trans hunused
  | gaveUp => exact hsame
  | missed => exact hsame
  | marked k p _ woken =>
    have hused : (s.proc k).state ≠ .unused := fun hunused => haims _ rfl k hunused rfl
    refine hm.update (s.set_self k p) (fun l => s.set_other p) (fun hunused => ?_)
      fun hunused _ => absurd hunused hused
    exact absurd ((woken.state_iff (by decide) (by decide)).mp hunused) hused

theorem kill_reaches_iff (hp : Pids s) {pid : Int} (h : Effect s cur (.kill pid) r s') :
    KillReaches s pid r s' ↔ ∀ k, (s.proc k).state = .unused → (s.proc k).pid ≠ pid := by
  -- A process and an empty slot never share a pid.
  have happart : ∀ k l, (s.proc k).state ≠ .unused → (s.proc k).pid = pid → (s.proc l).pid = pid → l = k :=
    fun k l hk hkpid hlpid => (hp.inj k l (hp.pos k hk).ne' (hkpid.trans hlpid.symm)).symm
  constructor
  · intro hreaches k hk hkpid
    have hzero : r = 0 := by
      cases h with
      | missed _ nobody => exact absurd hkpid (nobody k)
      | marked => rfl
    obtain ⟨l, hl, hlpid⟩ := hreaches.1.mp hzero
    obtain rfl := happart l k hl hlpid hkpid
    exact hl hk
  · intro haims
    cases h with
    | missed _ nobody =>
      exact ⟨⟨fun hc => absurd hc (by decide), fun ⟨k, _, hk⟩ => absurd hk (nobody k)⟩,
        fun k hk => absurd rfl hk, fun hc => absurd hc (by decide)⟩
    | marked k p killed =>
      have hused : (s.proc k).state ≠ .unused := fun hunused => haims k hunused rfl
      refine ⟨⟨fun _ => ⟨k, hused, rfl⟩, fun _ => rfl⟩, fun l hl => ?_, fun _ l hl hlpid => ?_⟩
      · by_cases hlk : l = k
        · rw [hlk]
          exact ⟨hused, rfl⟩
        · rw [s.set_other p hlk] at hl
          exact absurd rfl hl
      · obtain rfl := happart k l hused rfl hlpid
        rw [s.set_self]
        exact killed

section Runs

variable (e : Trace Table.boot next)

theorem effect_of_trace {t : Nat} (ht : t < e.len) :
    ∃ r, call (e.state t) (e.act t) = some (r, e.state (t + 1)) ∧ ((e.state t).proc (e.act t).1).state = .runnable ∧
      Effect (e.state t) (e.act t).1 (e.act t).2 r (e.state (t + 1)) := by
  have hnext := e.next t ht
  rw [next, Option.map_eq_some_iff] at hnext
  obtain ⟨⟨r, s'⟩, hcall, rfl⟩ := hnext
  exact ⟨r, hcall, call_effect hcall⟩

theorem pids_run : ∀ t ≤ e.len, Pids (e.state t) := by
  refine e.invariant Pids.boot fun s a s' hs hstep => ?_
  rw [next, Option.map_eq_some_iff] at hstep
  obtain ⟨⟨r, s₁⟩, hcall, rfl⟩ := hstep
  obtain ⟨hrun, heffect⟩ := call_effect hcall
  exact hs.effect hrun heffect

theorem unmarked_run (haims : ∀ t < e.len, AimsAtProcess (e.state t) (e.act t)) :
    ∀ t ≤ e.len, Unmarked (e.state t) := by
  intro t
  induction t with
  | zero =>
    intro _ k _
    rw [e.start]
    by_cases hk : k = INITPROC
    · rw [hk]
      rfl
    · rw [Table.boot]
      dsimp only
      rw [Function.update_of_ne hk]
      rfl
  | succ t ih =>
    intro ht
    obtain ⟨r, -, hrun, heffect⟩ := effect_of_trace e ht
    exact ((ih (by omega)).effect hrun (haims t ht) heffect).1

/-- In a run of calls every `kill` reaches only its target and every child starts unmarked, exactly when
no `kill` is given the pid of a slot that is `UNUSED`. -/
theorem kill_reaches_only_target_iff :
    (∀ t < e.len, CallReaches (e.state t) (e.act t)) ↔ ∀ t < e.len, AimsAtProcess (e.state t) (e.act t) := by
  constructor
  · intro hgood t ht pid hact
    obtain ⟨r, hcall, -, heffect⟩ := effect_of_trace e ht
    rw [hact] at heffect
    exact (kill_reaches_iff (pids_run e t ht.le) heffect).mp ((hgood t ht r _ hcall).2 pid hact)
  · intro haims t ht r s' hcall
    obtain ⟨hrun, heffect⟩ := call_effect hcall
    refine ⟨((unmarked_run e haims t ht.le).effect hrun (haims t ht) heffect).2, fun pid hact => ?_⟩
    rw [hact] at heffect
    exact (kill_reaches_iff (pids_run e t ht.le) heffect).mpr (haims t ht pid hact)

end Runs

/-- `initproc` calls `kill(0)` and then `fork`. -/
def killZero : Trace Table.boot next :=
  Trace.ofList [(INITPROC, .kill 0), (INITPROC, .fork .enough)] (INITPROC, .wait) (by decide +kernel)

theorem killZero_marks_child :
    (kill (killZero.state 0) 0).1 = 0 ∧ (∀ k, ((killZero.state 0).proc k).state ≠ .unused →
      ((killZero.state 0).proc k).pid ≠ 0) ∧
      ((killZero.state 2).proc 1).state = .runnable ∧ ((killZero.state 2).proc 1).killed = true := by
  decide +kernel

end Laboratorio.Procs
