import Laboratorio.UthreadTable
import Laboratorio.RunQueue
import Mathlib.Tactic.IntervalCases

/-! When `thread_schedule` returns to `main`. The table is a round-robin queue: the current thread at
its head, and behind it the `RUNNABLE` threads in the order in which the cyclic scan meets them. The
test for a thread that is alone compares `t` with the end of the table, which `t` never reaches, so a
thread that yields alone is left `RUNNABLE` and control goes back to `main`. -/

namespace Laboratorio.Uthread

open Function

open Uthreads RunQueue

variable {s : Uthreads} {c d : Nat}

theorem cons_scan (hc : c < MAX_THREAD) : c :: scan c = (List.range MAX_THREAD).rotate c := by
  interval_cases c <;> decide

theorem scan_split (hc : c < MAX_THREAD) {pre post : List Nat} (h : scan c = pre ++ d :: post) :
    scan d = post ++ c :: pre ∧ d < MAX_THREAD := by
  have hget : (scan c)[pre.length]? = some d := by
    rw [h, List.getElem?_append_right (Nat.le_refl _), Nat.sub_self]
    rfl
  have hd : (c + (1 + pre.length)) % MAX_THREAD = d := by
    rw [scan, List.getElem?_map] at hget
    obtain ⟨i, hi, hd⟩ := Option.map_eq_some_iff.mp hget
    obtain ⟨hlen, rfl⟩ := List.getElem?_eq_some_iff.mp hi
    rw [← hd, List.getElem_range', Nat.one_mul]
  have hlt : d < MAX_THREAD := by
    rw [← hd]
    exact Nat.mod_lt _ (by decide)
  refine ⟨?_, hlt⟩
  have hrotate : d :: scan d = d :: (post ++ c :: pre) := by
    calc d :: scan d
        = (List.range MAX_THREAD).rotate d := cons_scan hlt
      _ = (List.range MAX_THREAD).rotate (c + (1 + pre.length)) := by
          rw [← hd]
          exact List.rotate_mod (List.range MAX_THREAD) _
      _ = (c :: scan c).rotate (1 + pre.length) := by rw [← List.rotate_rotate, cons_scan hc]
      _ = ((c :: pre) ++ d :: post).rotate (c :: pre).length := by
          rw [h, List.length_cons, Nat.add_comm]
          rfl
      _ = d :: (post ++ c :: pre) := List.rotate_append_length_eq _ _
  exact (List.cons.inj hrotate).2

theorem nodup_cons_scan (hc : c < MAX_THREAD) : (c :: scan c).Nodup := by
  rw [cons_scan hc, List.nodup_rotate]
  exact List.nodup_range

/-- The threads that wait for the processor, in the order of the scan. -/
def waiting (s : Uthreads) : List Nat :=
  (scan s.currentThread).filter fun t => s.state t = .RUNNABLE ∧ t ≠ s.currentThread

/-- A thread other than main runs, and the table is the queue `q`. -/
structure Queued (s : Uthreads) (q : List Nat) : Prop where
  pos : 0 < s.currentThread
  lt : s.currentThread < MAX_THREAD
  last : s.lastIndex = s.currentThread
  main : s.state 0 = .RUNNING
  queue : q = s.left s.currentThread :: (waiting s).map s.left

variable {rest : List Nat}

theorem findNext_some (hlast : s.lastIndex = s.currentThread)
    (h : waiting s = d :: rest) : s.findNext = (some d, d) := by
  have hfind := congrArg List.head? h
  rw [waiting, List.head?_filter, List.head?_cons] at hfind
  rw [findNext, hlast, hfind]

theorem findNext_none (hlast : s.lastIndex = s.currentThread) (h : waiting s = []) :
    s.findNext = (none, (s.lastIndex + (MAX_THREAD - 1)) % MAX_THREAD) := by
  have hfind := congrArg List.head? h
  rw [waiting, List.head?_filter, List.head?_nil] at hfind
  rw [findNext, hlast, hfind]

/-- With nobody waiting, control goes back to main, whatever the state of the current thread: the test
for a thread that is alone never succeeds, because `t` stays inside the table. -/
theorem schedule_nobody (hpos : 0 < s.currentThread) (hlast : s.lastIndex = s.currentThread)
    (h : waiting s = []) : s.threadSchedule =
      ((s.print "thread_schedule: no runnable threads\n").setState 0 .RUNNING).threadSwitch 0 := by
  have hin : ¬(s.lastIndex + (MAX_THREAD - 1)) % MAX_THREAD ≥ MAX_THREAD :=
    not_le.mpr (Nat.mod_lt _ (by decide))
  have hmain : s.currentThread ≠ 0 := by omega
  rw [threadSchedule, findNext_none hlast h]
  simp only [hin, false_and, if_false, Option.getD_none]
  exact if_pos hmain

theorem mem_waiting {t : Nat} : t ∈ waiting s ↔ t ∈ scan s.currentThread ∧ s.state t = .RUNNABLE ∧
    t ≠ s.currentThread := by
  rw [waiting, List.mem_filter, decide_eq_true_eq]

theorem mem_scan_lt {t : Nat} (h : t ∈ scan c) : t < MAX_THREAD := by
  obtain ⟨i, -, rfl⟩ := List.mem_map.mp h
  exact Nat.mod_lt _ (by decide)

theorem schedule_some (hlast : s.lastIndex = s.currentThread)
    (h : waiting s = d :: rest) :
    s.threadSchedule = ({ s with lastIndex := d }.setState d .RUNNING).threadSwitch d := by
  obtain ⟨hmem, -, hne⟩ := mem_waiting.mp (h ▸ List.mem_cons_self)
  have hin : ¬d ≥ MAX_THREAD := not_le.mpr (mem_scan_lt hmem)
  rw [threadSchedule, findNext_some hlast h]
  simp only [hin, false_and, if_false, Option.getD_some]
  exact if_pos hne.symm

/-- Otherwise the first one that waits runs, and the current thread waits behind the others if it is
`RUNNABLE`. -/
theorem waiting_schedule (hc : s.currentThread < MAX_THREAD) (hlast : s.lastIndex = s.currentThread)
    (h : waiting s = d :: rest) :
    waiting s.threadSchedule = rest ++ if s.state s.currentThread = .RUNNABLE then [s.currentThread] else [] := by
  obtain ⟨pre, post, hscan, hpre, hpost⟩ : ∃ pre post, scan s.currentThread = pre ++ d :: post ∧
      (∀ t ∈ pre, ¬(s.state t = .RUNNABLE ∧ t ≠ s.currentThread)) ∧
      post.filter (fun t => s.state t = .RUNNABLE ∧ t ≠ s.currentThread) = rest := by
    obtain ⟨pre, post, hsplit, hpre, -, hpost⟩ := List.filter_eq_cons_iff.mp h
    exact ⟨pre, post, hsplit, fun t ht => by simpa using hpre t ht, hpost⟩
  obtain ⟨hscan', -⟩ := scan_split hc hscan
  obtain ⟨-, -, hne⟩ := mem_waiting.mp (h ▸ List.mem_cons_self)
  have hnodup := nodup_cons_scan hc
  rw [hscan] at hnodup
  have hself : s.currentThread ∉ pre ∧ s.currentThread ∉ post := by
    have hnot := (List.nodup_cons.mp hnodup).1
    simp only [List.mem_append, List.mem_cons, not_or] at hnot
    exact ⟨hnot.1, hnot.2.2⟩
  have hd : d ∉ post ∧ d ∉ pre := by
    have hmiddle := List.nodup_middle.mp (List.nodup_cons.mp hnodup).2
    have hnot := (List.nodup_cons.mp hmiddle).1
    rw [List.mem_append, not_or] at hnot
    exact ⟨hnot.2, hnot.1⟩
  have hstate : ∀ t, t ≠ d → update s.state d .RUNNING t = s.state t :=
    fun t ht => update_of_ne ht _ _
  have hbehind : post.filter (fun t => update s.state d .RUNNING t = .RUNNABLE ∧ t ≠ d) =
      rest := by
    rw [← hpost]
    apply List.filter_congr
    intro t ht
    have htd : t ≠ d := fun heq => hd.1 (heq ▸ ht)
    have htc : t ≠ s.currentThread := fun heq => hself.2 (heq ▸ ht)
    simp only [hstate t htd, htd, htc, ne_eq, not_false_eq_true, and_true]
  have hskipped : pre.filter (fun t => update s.state d .RUNNING t = .RUNNABLE ∧ t ≠ d) =
      [] := by
    rw [List.filter_eq_nil_iff]
    intro t ht
    have htd : t ≠ d := fun heq => hd.2 (heq ▸ ht)
    have htc : t ≠ s.currentThread := fun heq => hself.1 (heq ▸ ht)
    have hidle := hpre t ht
    simp only [htc, ne_eq, not_false_eq_true, and_true] at hidle
    simp only [hstate t htd, htd, ne_eq, not_false_eq_true, and_true, decide_eq_true_eq]
    exact hidle
  rw [schedule_some hlast h]
  change (scan d).filter (fun t => update s.state d .RUNNING t = .RUNNABLE ∧ t ≠ d) = _
  rw [hscan', List.filter_append, List.filter_cons, hbehind, hskipped, hstate s.currentThread hne.symm]
  simp only [hne.symm, ne_eq, not_false_eq_true, and_true, decide_eq_true_eq]

theorem schedule_next (hc : s.currentThread < MAX_THREAD) (hlast : s.lastIndex = s.currentThread)
    (hmain : s.state 0 = .RUNNING) (h : waiting s = d :: rest) :
    Queued s.threadSchedule (s.left d :: (rest ++
      if s.state s.currentThread = .RUNNABLE then [s.currentThread] else []).map s.left) := by
  obtain ⟨hmem, hrunnable, -⟩ := mem_waiting.mp (h ▸ List.mem_cons_self)
  have hzero : d ≠ 0 := by
    rintro rfl
    rw [hmain] at hrunnable
    exact ThreadState.noConfusion hrunnable
  rw [← waiting_schedule hc hlast h, schedule_some hlast h]
  refine ⟨Nat.pos_of_ne_zero hzero, mem_scan_lt hmem, rfl, ?_, rfl⟩
  exact (update_of_ne hzero.symm _ _).trans hmain

def NoneRunnable (s : Uthreads) : Prop := ∀ t < MAX_THREAD, s.state t ≠ .RUNNABLE

theorem setState_waiting (s : Uthreads) (x : ThreadState) :
    waiting (s.setState s.currentThread x) = waiting s := by
  apply List.filter_congr
  intro t _
  by_cases ht : t = s.currentThread
  · simp [ht, setState]
  · simp [setState, update_of_ne ht]

theorem mem_scan {t : Nat} (hc : c < MAX_THREAD) (ht : t < MAX_THREAD) (hne : t ≠ c) :
    t ∈ scan c := by
  have hmem : t ∈ c :: scan c := by
    rw [cons_scan hc, List.mem_rotate, List.mem_range]
    exact ht
  exact (List.mem_cons.mp hmem).resolve_left hne

/-- The current thread goes back to the library in the state `x`, with `left` yields to make. -/
def handOver (s : Uthreads) (x : ThreadState) (left : Nat) : Uthreads :=
  { s with left := update s.left s.currentThread left }.setState s.currentThread x

theorem resume_zero (h : s.left s.currentThread = 0) :
    s.resume = (handOver s .FREE 0).threadSchedule := by
  have hsame : update s.left s.currentThread 0 = s.left :=
    update_eq_self_iff.mpr h.symm
  simp only [Uthreads.resume, h, handOver, hsame]
  rfl

theorem resume_succ {r : Nat} (h : s.left s.currentThread = r + 1) :
    s.resume = (handOver s .RUNNABLE r).threadSchedule := by
  simp only [Uthreads.resume, h]
  rfl

theorem waiting_handOver (s : Uthreads) (x : ThreadState) (left : Nat) :
    waiting (handOver s x left) = waiting s :=
  setState_waiting { s with left := update s.left s.currentThread left } x

section

variable {q : List Nat} (h : Queued s q)

include h

theorem Queued.alone (hnone : waiting s = []) (x : ThreadState)
    (left : Nat) : (handOver s x left).threadSchedule.currentThread = 0 ∧
      (NoneRunnable (handOver s x left).threadSchedule ↔ x ≠ .RUNNABLE) := by
  have hpos := h.pos
  rw [schedule_nobody (s := handOver s x left) h.pos h.last ((waiting_handOver s x left).trans hnone)]
  refine ⟨rfl, ?_⟩
  change (∀ t < MAX_THREAD,
    update (update s.state s.currentThread x) 0 .RUNNING t ≠ .RUNNABLE) ↔ _
  constructor
  · intro hrun
    have hc := hrun s.currentThread h.lt
    rwa [update_of_ne (by omega), update_self] at hc
  intro hx t ht
  by_cases hzero : t = 0
  · rw [hzero, update_self]
    exact ThreadState.noConfusion
  rw [update_of_ne hzero]
  by_cases hc : t = s.currentThread
  · rw [hc, update_self]
    exact hx
  · rw [update_of_ne hc]
    intro hrunnable
    have hmem : t ∈ waiting s := mem_waiting.mpr ⟨mem_scan h.lt ht hc, hrunnable, hc⟩
    rw [hnone] at hmem
    exact absurd hmem List.not_mem_nil

theorem Queued.next (hsome : waiting s ≠ []) (x : ThreadState) (left : Nat) : Queued (handOver s x left).threadSchedule
      ((waiting s).map s.left ++ if x = .RUNNABLE then [left] else []) := by
  obtain ⟨d, rest, hwaiting⟩ := List.exists_cons_of_ne_nil hsome
  have hmain : (handOver s x left).state 0 = .RUNNING :=
    (update_of_ne (Nat.ne_of_lt h.pos) _ _).trans h.main
  have hself : (handOver s x left).state s.currentThread = x := update_self _ _ _
  have hother : ∀ t ∈ d :: rest, (handOver s x left).left t = s.left t := by
    intro t ht
    rw [← hwaiting] at ht
    exact update_of_ne (mem_waiting.mp ht).2.2 _ _
  have hqueue := schedule_next (s := handOver s x left) h.lt h.last hmain
    ((waiting_handOver s x left).trans hwaiting)
  rw [← List.map_cons, ← List.cons_append, List.map_append, List.map_congr_left hother] at hqueue
  rw [hwaiting]
  change Queued _ ((d :: rest).map s.left ++
    (if (handOver s x left).state s.currentThread = .RUNNABLE then [s.currentThread] else []).map
      (handOver s x left).left) at hqueue
  rw [hself] at hqueue
  split at hqueue
  · rename_i hx
    rw [if_pos hx]
    rwa [List.map_singleton, show (handOver s x left).left s.currentThread = left from
      update_self _ _ _] at hqueue
  · rename_i hx
    rwa [if_neg hx]

theorem Queued.resume_alone (hnone : waiting s = []) :
    s.resume.currentThread = 0 ∧ (NoneRunnable s.resume ↔ Covered q) := by
  have hqueue := h.queue
  rw [hnone, List.map_nil] at hqueue
  cases hleft : s.left s.currentThread with
  | zero =>
    obtain ⟨hzero, hrun⟩ := h.alone hnone .FREE 0
    rw [resume_zero hleft, hqueue, hleft, hrun, covered_cons_zero]
    exact ⟨hzero, iff_of_true ThreadState.noConfusion covered_nil⟩
  | succ r =>
    obtain ⟨hzero, hrun⟩ := h.alone hnone .RUNNABLE r
    rw [resume_succ hleft, hqueue, hleft, hrun]
    exact ⟨hzero, iff_of_false (not_not.mpr rfl) (not_covered_singleton r)⟩

theorem Queued.resume_next (hsome : waiting s ≠ []) :
    Queued s.resume (turn q) ∧ (Covered (turn q) ↔ Covered q) := by
  have hne : (waiting s).map s.left ≠ [] := fun hnil => hsome (List.map_eq_nil_iff.mp hnil)
  cases hleft : s.left s.currentThread with
  | zero =>
    have hnext := h.next hsome .FREE 0
    rw [if_neg ThreadState.noConfusion, List.append_nil] at hnext
    rw [resume_zero hleft, h.queue, hleft]
    exact ⟨hnext, (covered_cons_zero _).symm⟩
  | succ r =>
    have hnext := h.next hsome .RUNNABLE r
    rw [if_pos rfl] at hnext
    rw [resume_succ hleft, h.queue, hleft]
    exact ⟨hnext, (covered_rotate hne).symm⟩

/-- The run of a queue comes back to main, with nothing left to run exactly when the queue is
covered. -/
theorem Queued.untilMain : ∃ n s', (∀ fuel ≥ n, Uthreads.untilMain fuel s = some s') ∧
    (NoneRunnable s' ↔ Covered q) := by
  induction hwork : work q using Nat.strongRecOn generalizing s q with
  | ind w ih =>
    have hpos := h.pos
    have hstep : ∀ {n s'}, (∀ fuel ≥ n, Uthreads.untilMain fuel s.resume = some s') →
        ∀ fuel ≥ n + 1, Uthreads.untilMain fuel s = some s' := by
      intro n s' hrun fuel hge
      obtain ⟨m, rfl⟩ := Nat.exists_eq_add_of_le' hge
      rw [show m + (n + 1) = (m + n) + 1 by omega, Uthreads.untilMain, if_neg (by omega)]
      exact hrun (m + n) (by omega)
    by_cases hnone : waiting s = []
    · obtain ⟨hzero, hiff⟩ := h.resume_alone hnone
      refine ⟨1, s.resume, hstep fun fuel _ => ?_, hiff⟩
      cases fuel <;> rw [Uthreads.untilMain, if_pos hzero]
    · obtain ⟨hnext, hcovered⟩ := h.resume_next hnone
      have hlt : work (turn q) < w := by
        rw [← hwork]
        exact work_turn_lt (by rw [h.queue]; exact List.cons_ne_nil _ _)
      obtain ⟨n, s', hrun, hiff⟩ := ih _ hlt hnext rfl
      exact ⟨n + 1, s', hstep hrun, hiff.trans hcovered⟩

end

/-- `main` after it created its threads: entry 0 is main itself, the threads follow in order. -/
structure Created (s : Uthreads) (yields : List Nat) : Prop where
  last : s.lastIndex = 0
  current : s.currentThread = 0
  state : ∀ t, s.state t = if t = 0 then .RUNNING else if t ≤ yields.length then .RUNNABLE else .FREE
  left : (List.range' 1 yields.length).map s.left = yields

theorem Created.init : Created zeroed.threadInit [] where
  last := rfl
  current := rfl
  state := by
    intro t
    by_cases ht : t = 0
    · simp [ht, threadInit, setState]
    · simp [ht, threadInit, setState, zeroed]
  left := rfl

variable {yields : List Nat}

theorem Created.create (h : Created s yields) (hlen : yields.length + 1 < MAX_THREAD)
    (y : Nat) : ∃ s', s.threadCreate y = some s' ∧ Created s' (yields ++ [y]) := by
  have hfree : s.state (yields.length + 1) = .FREE := by
    rw [h.state, if_neg (by omega), if_neg (by omega)]
  have hfind : (List.range MAX_THREAD).find? (fun t => s.state t = .FREE) =
      some (yields.length + 1) := by
    rw [List.find?_range_eq_some]
    refine ⟨by simpa using hfree, List.mem_range.mpr hlen, fun t ht => ?_⟩
    have hused : s.state t ≠ .FREE := by
      rw [h.state]
      split
      · exact ThreadState.noConfusion
      · rw [if_pos (by omega)]
        exact ThreadState.noConfusion
    simpa using hused
  refine ⟨{ s.setState (yields.length + 1) .RUNNABLE with
    left := update s.left (yields.length + 1) y }, by rw [threadCreate, hfind]; rfl, h.last,
    h.current, fun t => ?_, ?_⟩
  · change update s.state (yields.length + 1) .RUNNABLE t = _
    rw [List.length_append, List.length_singleton]
    by_cases ht : t = yields.length + 1
    · rw [ht, update_self, if_neg (by omega), if_pos (Nat.le_refl _)]
    · rw [update_of_ne ht, h.state]
      by_cases hle : t ≤ yields.length
      · simp only [hle, if_true, show t ≤ yields.length + 1 by omega]
      · simp only [hle, if_false, show ¬t ≤ yields.length + 1 by omega]
  · change (List.range' 1 (yields ++ [y]).length).map
      (update s.left (yields.length + 1) y) = _
    rw [List.length_append, List.length_singleton, List.range'_1_concat, List.map_append,
      List.map_singleton, Nat.add_comm 1, update_self]
    have hold : ∀ t ∈ List.range' 1 yields.length,
        update s.left (yields.length + 1) y t = s.left t := by
      intro t ht
      rw [List.mem_range'_1] at ht
      exact update_of_ne (by omega) _ _
    rw [List.map_congr_left hold, h.left]

theorem created_threads (hlen : yields.length < MAX_THREAD) :
    ∃ s, yields.foldlM threadCreate zeroed.threadInit = some s ∧ Created s yields := by
  induction yields using List.reverseRecOn with
  | nil => exact ⟨_, rfl, Created.init⟩
  | append_singleton yields y ih =>
    rw [List.length_append, List.length_singleton] at hlen
    obtain ⟨s, hs, hcreated⟩ := ih (by omega)
    obtain ⟨s', hs', hcreated'⟩ := hcreated.create hlen y
    refine ⟨s', ?_, hcreated'⟩
    rw [List.foldlM_append, hs]
    simpa using hs'

theorem Created.waiting_eq (h : Created s yields) (hlen : yields.length < MAX_THREAD) :
    waiting s = List.range' 1 yields.length := by
  have hscan : scan 0 = List.range' 1 yields.length ++
      List.range' (1 + yields.length) (MAX_THREAD - 1 - yields.length) := by
    rw [List.range'_append_1, Nat.add_sub_cancel' (by omega)]
    rfl
  rw [waiting, h.current, hscan, List.filter_append, List.filter_eq_self.mpr,
    List.filter_eq_nil_iff.mpr, List.append_nil]
  · intro t ht
    rw [List.mem_range'_1] at ht
    simp [h.state, show t ≠ 0 by omega, show ¬t ≤ yields.length by omega]
  · intro t ht
    rw [List.mem_range'_1] at ht
    simp [h.state, show t ≠ 0 by omega, show t ≤ yields.length by omega]

/-- The first `thread_schedule` of `main` starts the threads in the order of their creation. -/
theorem Created.schedule (h : Created s yields) (hne : yields ≠ [])
    (hlen : yields.length < MAX_THREAD) : Queued s.threadSchedule yields := by
  have hmain : s.state 0 = .RUNNING := by rw [h.state, if_pos rfl]
  cases hlist : List.range' 1 yields.length with
  | nil =>
    have hzero := List.range'_eq_nil_iff.mp hlist
    exact absurd (List.length_eq_zero_iff.mp hzero) hne
  | cons d rest =>
    have hqueue := schedule_next (by rw [h.current]; decide) (by rw [h.last, h.current]) hmain
      ((h.waiting_eq hlen).trans hlist)
    rw [h.current, hmain, if_neg ThreadState.noConfusion, List.append_nil, ← List.map_cons,
      ← hlist, h.left] at hqueue
    exact hqueue

/-- For one to seven threads, `thread_schedule` returns to `main`, and it does so with no thread left
to run exactly when every thread that yields at all has an earlier thread that yields at least as
often, or a later one that yields at least as often less one. -/
theorem main_none_runnable_iff (yields : List Nat) (hne : yields ≠ [])
    (hlen : yields.length < MAX_THREAD) : ∃ n s, (∀ fuel ≥ n, main fuel yields = some s) ∧
      ((∀ t < MAX_THREAD, s.state t ≠ .RUNNABLE) ↔ Covered yields) := by
  obtain ⟨s, hs, hcreated⟩ := created_threads hlen
  obtain ⟨n, s', hrun, hiff⟩ := (hcreated.schedule hne hlen).untilMain
  refine ⟨n, s', fun fuel hfuel => ?_, hiff⟩
  rw [main, hs]
  exact hrun fuel hfuel

/-- Two threads that yield once each run to completion. -/
theorem main_none_runnable_twoThreads : ∃ n s, (∀ fuel ≥ n, main fuel [1, 1] = some s) ∧
    ∀ t < MAX_THREAD, s.state t ≠ .RUNNABLE := by
  have hcovered : Covered [1, 1] := by
    rw [covered_rotate (List.cons_ne_nil _ _), List.singleton_append,
      covered_rotate (List.cons_ne_nil _ _), List.singleton_append, covered_cons_zero,
      covered_cons_zero]
    exact covered_nil
  obtain ⟨n, s, hrun, hiff⟩ := main_none_runnable_iff [1, 1] (List.cons_ne_nil _ _) (by decide)
  exact ⟨n, s, hrun, hiff.mpr hcovered⟩

/-- A single thread that yields once is left `RUNNABLE`. -/
theorem main_leaves_runnable : (main 1 [1]).map (fun s => s.state 1) = some .RUNNABLE := by
  decide

end Laboratorio.Uthread
