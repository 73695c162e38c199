import Laboratorio.RoundRobin
import Laboratorio.UthreadRun

/-! The order in which `thread_schedule` dispatches the created threads. While one of them runs,
`last_index` is its own entry, so the scan starts behind it: the threads form a ring, and every call
turns it by one. -/

namespace Laboratorio.Uthread

open Function

open Uthreads

variable {s : Uthreads} {d : Nat}

/-- `next` is the first `RUNNABLE` entry behind entry `c`, in cyclic order. -/
def FirstBehind (state : Nat → ThreadState) (c next : Nat) : Prop :=
  ∃ e, (1 ≤ e ∧ e < MAX_THREAD) ∧ next = (c + e) % MAX_THREAD ∧ state next = .RUNNABLE ∧
    ∀ f, 1 ≤ f → f < e → state ((c + f) % MAX_THREAD) ≠ .RUNNABLE

def ring (s : Uthreads) : List Nat := s.currentThread :: waiting s

/-- A created thread runs, `last_index` is its entry, and no other thread but main is `RUNNING`. -/
structure Dispatched (s : Uthreads) : Prop where
  queued : ∃ q, Queued s q
  alone : ∀ t, t ≠ 0 → s.state t = .RUNNING → t = s.currentThread

theorem nodup_ring (hc : s.currentThread < MAX_THREAD) : (ring s).Nodup := by
  have hscan := nodup_cons_scan hc
  rw [List.nodup_cons] at hscan
  rw [ring, List.nodup_cons]
  refine ⟨fun hmem => ?_, hscan.2.filter _⟩
  exact (mem_waiting.mp hmem).2.2 rfl

theorem scan_getElem (c i : Nat) (hi : i < (scan c).length) : (scan c)[i] = (c + (i + 1)) % MAX_THREAD := by
  simp only [scan, List.getElem_map, List.getElem_range', Nat.one_mul]
  rw [Nat.add_comm 1 i]

/-- The first one that waits is the first `RUNNABLE` entry behind the current one. -/
theorem firstBehind_waiting (hc : s.currentThread < MAX_THREAD) {rest : List Nat} (h : waiting s = d :: rest) :
    FirstBehind s.state s.currentThread d := by
  obtain ⟨pre, post, hscan, hpre, -, -⟩ := List.filter_eq_cons_iff.mp h
  obtain ⟨-, hrunnable, -⟩ := mem_waiting.mp (h ▸ List.mem_cons_self)
  have hlen : (scan s.currentThread).length = MAX_THREAD - 1 := by simp [scan]
  have hpost : pre.length < (scan s.currentThread).length := by
    rw [hscan, List.length_append, List.length_cons]
    omega
  refine ⟨pre.length + 1, ⟨by omega, by omega⟩, ?_, hrunnable, ?_⟩
  · rw [← scan_getElem _ _ hpost]
    simp [hscan]
  intro f h1 hf hrun
  have hlt : f - 1 < (scan s.currentThread).length := by omega
  have hval : (scan s.currentThread)[f - 1] = (s.currentThread + f) % MAX_THREAD := by
    rw [scan_getElem _ _ hlt, Nat.sub_add_cancel h1]
  have hmem : (s.currentThread + f) % MAX_THREAD ∈ pre := by
    rw [← hval]
    simp only [hscan]
    rw [List.getElem_append_left (by omega)]
    exact List.getElem_mem _
  have hself : (s.currentThread + f) % MAX_THREAD ≠ s.currentThread := by
    intro heq
    have hnodup := nodup_cons_scan hc
    rw [List.nodup_cons] at hnodup
    rw [heq] at hmem
    apply hnodup.1
    rw [hscan]
    exact List.mem_append_left _ hmem
  have hskip := hpre _ hmem
  simp [hrun, hself] at hskip

theorem resume_handOver (s : Uthreads) :
    ∃ x left, s.resume = (handOver s x left).threadSchedule ∧ (x = .FREE ∨ x = .RUNNABLE) := by
  cases hleft : s.left s.currentThread with
  | zero => exact ⟨.FREE, 0, resume_zero hleft, .inl rfl⟩
  | succ r => exact ⟨.RUNNABLE, r, resume_succ hleft, .inr rfl⟩

/-- One call of `thread_schedule` with somebody waiting: the first one that waits is dispatched and the
ring turns. -/
theorem Dispatched.resume (h : Dispatched s) {rest : List Nat} (hwait : waiting s = d :: rest) :
    Dispatched s.resume ∧ s.resume.currentThread = d ∧ Turns (ring s) (ring s.resume) := by
  obtain ⟨⟨q, hq⟩, halone⟩ := h
  obtain ⟨x, left, hresume, hx⟩ := resume_handOver s
  have hwait' : waiting (handOver s x left) = d :: rest := (waiting_handOver s x left).trans hwait
  have hsched := schedule_some (s := handOver s x left) hq.last hwait'
  have hring := waiting_schedule (s := handOver s x left) hq.lt hq.last hwait'
  have hqueued : Queued s.resume _ := (hq.resume_next (by rw [hwait]; exact List.cons_ne_nil d rest)).1
  rw [hresume] at hqueued ⊢
  have hcurrent : (handOver s x left).threadSchedule.currentThread = d := by rw [hsched]; rfl
  refine ⟨⟨⟨_, hqueued⟩, ?_⟩, hcurrent, ?_⟩
  · intro t ht hrun
    rw [hcurrent]
    by_contra htd
    rw [hsched] at hrun
    change update (update s.state s.currentThread x) d .RUNNING t = .RUNNING at hrun
    rw [update_of_ne htd] at hrun
    by_cases htc : t = s.currentThread
    · rw [htc, update_self] at hrun
      rcases hx with rfl | rfl
      · exact ThreadState.noConfusion hrun
      · exact ThreadState.noConfusion hrun
    · rw [update_of_ne htc] at hrun
      exact htc (halone t ht hrun)
  · refine ⟨s.currentThread, waiting s, rfl, by rw [hwait]; exact List.cons_ne_nil d rest, ?_⟩
    rw [ring, hcurrent, hring, hwait]
    have hself : (handOver s x left).state (handOver s x left).currentThread = x := update_self _ _ _
    rw [hself]
    rcases hx with rfl | rfl
    · right
      rw [if_neg ThreadState.noConfusion, List.append_nil]
    · left
      rw [if_pos rfl]
      rfl

theorem Dispatched.mem_ring (h : Dispatched s) {t : Nat} (h0 : t ≠ 0) (ht : t < MAX_THREAD)
    (hfree : s.state t ≠ .FREE) : t ∈ ring s := by
  obtain ⟨⟨q, hq⟩, halone⟩ := h
  by_cases hc : t = s.currentThread
  · rw [hc]
    exact List.mem_cons_self
  · apply List.mem_cons_of_mem
    refine mem_waiting.mpr ⟨mem_scan hq.lt ht hc, ?_, hc⟩
    cases hstate : s.state t with
    | FREE => exact absurd hstate hfree
    | RUNNING => exact absurd (halone t h0 hstate) hc
    | RUNNABLE => rfl

/-! ### Whole runs -/

/-- The run after `n` calls of `thread_schedule` by created threads. -/
def after (s : Uthreads) (n : Nat) : Uthreads := Uthreads.resume^[n] s

theorem after_succ (s : Uthreads) (n : Nat) : after s (n + 1) = (after s n).resume :=
  Function.iterate_succ_apply' _ _ _

/-- Control has not gone back to main in the first `n` calls. -/
def InThreads (s : Uthreads) (n : Nat) : Prop := ∀ m ≤ n, (after s m).currentThread ≠ 0

theorem Dispatched.after (h : Dispatched s) {n : Nat} (hn : InThreads s n) :
    Dispatched (after s n) ∧ ∀ m < n, Turns (ring (Uthread.after s m)) (ring (Uthread.after s (m + 1))) := by
  induction n with
  | zero => exact ⟨h, fun m hm => absurd hm (Nat.not_lt_zero m)⟩
  | succ n ih =>
    obtain ⟨hd, hturns⟩ := ih fun m hm => hn m (by omega)
    have hnext := hn (n + 1) (Nat.le_refl _)
    rw [after_succ] at hnext ⊢
    cases hwait : waiting (Uthread.after s n) with
    | nil =>
      obtain ⟨q, hq⟩ := hd.queued
      exact absurd (hq.resume_alone hwait).1 hnext
    | cons d rest =>
      obtain ⟨hd', -, hturn⟩ := hd.resume hwait
      refine ⟨hd', fun m hm => ?_⟩
      rcases Nat.lt_succ_iff_lt_or_eq.mp hm with hlt | rfl
      · exact hturns m hlt
      · rw [after_succ]
        exact hturn

theorem head_ring (s : Uthreads) (t : Nat) : (ring s).head? = some t ↔ s.currentThread = t := by
  simp [ring]

theorem InThreads.succ {n : Nat} (h : InThreads s n) (hnext : (after s (n + 1)).currentThread ≠ 0) :
    InThreads s (n + 1) := by
  intro m hm
  rcases Nat.le_succ_iff.mp hm with hle | rfl
  · exact h m hle
  · exact hnext

/-- A thread that waits is dispatched: every call takes away the first of those before it. -/
theorem Dispatched.served (h : Dispatched s) {t n : Nat} {before behind : List Nat} (hn : InThreads s n)
    (hwait : waiting (Uthread.after s n) = before ++ t :: behind) :
    ∃ k > n, InThreads s k ∧ (Uthread.after s k).currentThread = t := by
  induction before generalizing n behind with
  | nil =>
    obtain ⟨hd, hcurrent, -⟩ := (h.after hn).1.resume hwait
    obtain ⟨q, hq⟩ := hd.queued
    rw [← after_succ] at hcurrent hq
    exact ⟨n + 1, Nat.lt_succ_self n, hn.succ (Nat.ne_of_gt hq.pos), hcurrent⟩
  | cons d before ih =>
    obtain ⟨hd, hcurrent, x, rest, hring, -, hturn⟩ := (h.after hn).1.resume hwait
    obtain ⟨q, hq⟩ := hd.queued
    rw [← after_succ] at hcurrent hq hturn
    rw [ring, hwait] at hring
    obtain ⟨-, rfl⟩ := List.cons.inj hring
    rw [ring, hcurrent] at hturn
    have hin := hn.succ (Nat.ne_of_gt hq.pos)
    obtain ⟨behind', hwait'⟩ : ∃ l, waiting (Uthread.after s (n + 1)) = before ++ t :: l := by
      rcases hturn with hturn | hturn
      · exact ⟨behind ++ [x], by simpa using (List.cons.inj hturn).2⟩
      · exact ⟨behind, (List.cons.inj hturn).2⟩
    obtain ⟨k, hk, hin', ht⟩ := ih hin hwait'
    exact ⟨k, Nat.lt_of_succ_lt hk, hin', ht⟩

/-- The scheduler serves its threads in turn. The first thread created runs first and all are dispatched:
one that is `RUNNABLE` while a thread runs is dispatched later. Every call that a created thread makes
while another one is `RUNNABLE` dispatches the first `RUNNABLE` entry behind the caller's, and between two
consecutive dispatches of a thread every other thread that has not exited by the second one is dispatched
exactly once. -/
structure ServesInTurn (s : Uthreads) (threads : Nat) : Prop where
  first : s.currentThread = 1
  all : ∀ u, 1 ≤ u → u ≤ threads → ∃ n, InThreads s n ∧ (after s n).currentThread = u
  served : ∀ n, InThreads s n → ∀ t < MAX_THREAD, t ≠ (after s n).currentThread →
    (after s n).state t = .RUNNABLE → ∃ k > n, InThreads s k ∧ (after s k).currentThread = t
  next : ∀ n, InThreads s n →
    (∃ t < MAX_THREAD, t ≠ (after s n).currentThread ∧ (after s n).state t = .RUNNABLE) →
    FirstBehind (after s n).state (after s n).currentThread (after s (n + 1)).currentThread
  once : ∀ i j t, i < j → InThreads s j → (after s i).currentThread = t → (after s j).currentThread = t →
    (∀ k, i < k → k < j → (after s k).currentThread ≠ t) →
    ∀ u, 1 ≤ u → u ≤ threads → u ≠ t → (after s j).state u ≠ .FREE →
      ∃! k, (i < k ∧ k < j) ∧ (after s k).currentThread = u

/-- The first `thread_schedule` of main makes a ring of the created threads, in the order of creation. -/
theorem Created.dispatched {yields : List Nat} (h : Created s yields) (hne : yields ≠ [])
    (hlen : yields.length < MAX_THREAD) :
    Dispatched s.threadSchedule ∧ ring s.threadSchedule = List.range' 1 yields.length := by
  have hlast : s.lastIndex = s.currentThread := by rw [h.last, h.current]
  cases hwait : waiting s with
  | nil =>
    rw [h.waiting_eq hlen, List.range'_eq_nil_iff] at hwait
    exact absurd (List.length_eq_zero_iff.mp hwait) hne
  | cons d rest =>
    have hsched := schedule_some hlast hwait
    refine ⟨⟨⟨_, h.schedule hne hlen⟩, ?_⟩, ?_⟩
    · intro t ht hrun
      rw [hsched] at hrun ⊢
      change update s.state d .RUNNING t = .RUNNING at hrun
      change t = d
      by_contra htd
      rw [update_of_ne htd, h.state, if_neg ht] at hrun
      split_ifs at hrun
    · have hmain : s.state s.currentThread = .RUNNING := by rw [h.current, h.state, if_pos rfl]
      have hbehind := waiting_schedule (by rw [h.current]; decide) hlast hwait
      rw [hmain, if_neg ThreadState.noConfusion, List.append_nil] at hbehind
      rw [ring, hbehind, hsched, ← h.waiting_eq hlen, hwait]
      rfl

theorem Dispatched.servesInTurn (h : Dispatched s) {threads : Nat} (hlen : threads < MAX_THREAD)
    (hring : ring s = List.range' 1 threads) : ServesInTurn s threads := by
  have hserved : ∀ n, InThreads s n → ∀ t ∈ waiting (Uthread.after s n),
      ∃ k > n, InThreads s k ∧ (Uthread.after s k).currentThread = t := by
    intro n hn t ht
    obtain ⟨before, behind, hwait⟩ := List.append_of_mem ht
    exact h.served hn hwait
  obtain ⟨q, hq⟩ := h.queued
  have hstart : InThreads s 0 := fun m hm => by
    rw [Nat.le_zero.mp hm]
    exact Nat.ne_of_gt hq.pos
  constructor
  · cases threads with
    | zero => exact absurd hring (List.cons_ne_nil _ _)
    | succ m => exact (List.cons.inj hring).1
  · intro u h1 hu
    have hmem : u ∈ ring s := by
      rw [hring, List.mem_range'_1]
      omega
    rcases List.mem_cons.mp hmem with rfl | hwait
    · exact ⟨0, hstart, rfl⟩
    · obtain ⟨k, -, hk⟩ := hserved 0 hstart u hwait
      exact ⟨k, hk⟩
  · intro n hn t ht htc hrun
    obtain ⟨q, hq⟩ := (h.after hn).1.queued
    exact hserved n hn t (mem_waiting.mpr ⟨mem_scan hq.lt ht htc, hrun, htc⟩)
  · intro n hn hother
    obtain ⟨hd, -⟩ := h.after hn
    obtain ⟨q, hq⟩ := hd.queued
    obtain ⟨t, ht, htc, hrun⟩ := hother
    cases hwait : waiting (Uthread.after s n) with
    | nil =>
      have hmem : t ∈ waiting (Uthread.after s n) := mem_waiting.mpr ⟨mem_scan hq.lt ht htc, hrun, htc⟩
      rw [hwait] at hmem
      exact absurd hmem List.not_mem_nil
    | cons d rest =>
      rw [after_succ, (hd.resume hwait).2.1]
      exact firstBehind_waiting hq.lt hwait
  · intro i j t hij hin hi hj hbetween u h1 hu hut hfree
    obtain ⟨hdi, -⟩ := h.after (fun m hm => hin m (by omega) : InThreads s i)
    obtain ⟨hdj, hturns⟩ := h.after hin
    obtain ⟨q, hq⟩ := hdi.queued
    have hmem := hdj.mem_ring (by omega) (by omega) hfree
    have hone : ∃! k, (i < k ∧ k < j) ∧ (ring (Uthread.after s k)).head? = some u := by
      refine one_turn_between (nodup_ring hq.lt) hij (fun k _ hkj => hturns k hkj) ((head_ring _ _).mpr hi)
        ((head_ring _ _).mpr hj) ?_ hmem hut
      intro k hik hkj hk
      exact hbetween k hik hkj ((head_ring _ _).mp hk)
    simpa only [head_ring] using hone

/-- Two to seven threads, whatever their numbers of yields, all run and are served in turn. -/
theorem threads_served_in_turn (yields : List Nat) (h2 : 2 ≤ yields.length) (h7 : yields.length ≤ 7) :
    ∃ s, yields.foldlM threadCreate zeroed.threadInit = some s ∧
      ServesInTurn s.threadSchedule yields.length := by
  have hlen : yields.length < MAX_THREAD := Nat.lt_succ_of_le h7
  have hne : yields ≠ [] := by
    rintro rfl
    simp at h2
  obtain ⟨s, hs, hcreated⟩ := created_threads hlen
  obtain ⟨hdispatched, hring⟩ := hcreated.dispatched hne hlen
  exact ⟨s, hs, hdispatched.servesInTurn hlen hring⟩

/-- Three threads that yield twice, once and twice. -/
theorem threads_served_in_turn_threeThreads :
    ∃ s, [2, 1, 2].foldlM threadCreate zeroed.threadInit = some s ∧ ServesInTurn s.threadSchedule 3 :=
  threads_served_in_turn [2, 1, 2] (by decide) (by decide)

end Laboratorio.Uthread
