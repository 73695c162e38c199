import Laboratorio.LogOps
import Mathlib.Tactic.IntervalCases

/-! Operations and commits along an execution of the log. The span of an operation runs from the turn
of `begin_op` that admits it to its `end_op`. No commit starts inside a span, and what was logged in it
stays in the header until the first commit after it starts. -/

namespace Laboratorio.Xv6Log

open LogState

variable {P : Type} [DecidableEq P] {log : Log} {k : Kernel}

abbrev Execution (log : Log) (P : Type) [DecidableEq P] (k : Kernel) :=
  Trace (LogState.initial P k) (LogState.step log)

/-- Process `p` is admitted at time `i`, and the `end_op` of that operation is at time `j`. -/
structure OpSpan (e : Execution log P k) (p : P) (i j : ℕ) : Prop where
  lt : i < j
  le : j < e.len
  admitted : e.act i = .test p ∧ (e.state (i + 1)).pc p = .inOp
  ended : e.act j = .endOp p
  between : ∀ t, i < t → t < j → e.act t ≠ .endOp p

/-- The locked section of `log_write(b)` by `p` runs at time `t`. -/
def Logs (e : Execution log P k) (p : P) (b t : ℕ) : Prop :=
  e.act t = .advance p ∧ (e.state t).pc p = .append b

def CommitStarts (e : Execution log P k) (c : ℕ) : Prop :=
  ∃ p, e.act c = .endOp p ∧ (e.state (c + 1)).pc p = .commit .start

theorem inv_state (e : Execution log P k) : ∀ t ≤ e.len, Inv log (e.state t) :=
  e.invariant (Inv.initial k) fun _ _ _ h hstep => h.step hstep

variable {t : ℕ}

theorem effect_state (e : Execution log P k) (ht : t < e.len) :
    (e.state t).stop = none ∧ Effect log (e.state t) (e.act t) (e.state (t + 1)) :=
  step_effect (e.next t ht)

namespace LogState

variable {s s' : LogState P} {a : Act P}

/-- While the flag is set, only the process in `commit` touches the header or a buffer. -/
theorem Inv.frozen (h : Inv log s) (hcommitting : s.committing = true) (heffect : Effect log s a s') :
    (s.pc a.proc).committing = true ∨ (s'.kernel = s.kernel ∧ s'.dirty = s.dirty) := by
  have hidle : ∀ p, (s.pc p).busy ≠ true := fun p hp =>
    Bool.false_ne_true ((h.calm hcommitting p).symm.trans hp)
  cases heffect with
  | move _ p c _ _ _ _ _ => exact Or.inr ⟨rfl, rfl⟩
  | enter p _ hcalm _ => exact absurd (hcalm.symm.trans hcommitting) Bool.false_ne_true
  | modify p b data hpc => exact absurd (by rw [hpc]; rfl) (hidle p)
  | tooBig p hbusy _ | outsideTrans p hbusy _ | whileCommitting p hbusy _ => exact absurd hbusy (hidle p)
  | blockOverflow p b hpc | record p b hpc | leave p hpc _ _ | close p hpc _ _ =>
    exact absurd (by rw [hpc]; rfl) (hidle p)
  | commit p ph hpc _ | release p hpc => exact Or.inl (by simp [Act.proc, hpc, Pc.committing])

/-- Outside a commit the header only grows. -/
theorem Inv.blocks_mono (h : Inv log s) (hcalm : s.committing = false)
    (heffect : Effect log s a s') : s.kernel.lh.blocks ⊆ s'.kernel.lh.blocks := by
  cases heffect with
  | record p b _ =>
    rw [LogHeader.blocks_record]
    exact Finset.subset_insert b _
  | commit p ph hpc _ => exact absurd hpc (h.no_commit hcalm p ph)
  | release p hpc => exact absurd hpc (h.no_commit hcalm p .finish)
  | _ => exact Finset.Subset.refl _

/-- The flag is set by the `end_op` that starts a commit and by nothing else. -/
theorem Inv.stays_calm (h : Inv log s) (hcalm : s.committing = false) (heffect : Effect log s a s')
    (hstart : ∀ p, a = .endOp p → s'.pc p ≠ .commit .start) : s'.committing = false := by
  cases heffect with
  | close p _ _ _ => exact absurd (goto_pc_self _ _ _) (hstart p rfl)
  | commit p ph hpc _ => exact absurd hpc (h.no_commit hcalm p ph)
  | release p _ => rfl
  | _ => exact hcalm

/-- An operation goes on until its own `end_op`. -/
theorem Effect.stays_busy (heffect : Effect log s a s') {p : P} (hp : (s.pc p).busy = true)
    (hend : a ≠ .endOp p) : (s'.pc p).busy = true := by
  have hgoto : ∀ (s : LogState P) q c, (s.pc p).busy = true → (q = p → c.busy = true) →
      ((s.goto q c).pc p).busy = true := by
    intro s q c hs hc
    by_cases hq : p = q
    · subst hq
      rw [goto_pc_self]
      exact hc rfl
    · rw [goto_pc_of_ne s c hq]
      exact hs
  cases heffect with
  | move _ q c _ hbusy _ _ _ =>
    refine hgoto s q c hp fun hq => ?_
    rw [hbusy, hq, hp]
  | enter q _ _ _ | record q b _ => exact hgoto s q _ hp fun _ => rfl
  | leave q _ _ _ =>
    rw [wakeup_busy]
    exact hgoto _ q _ hp fun hq => absurd (by rw [hq]) hend
  | close q _ _ _ => exact hgoto _ q _ hp fun hq => absurd (by rw [hq]) hend
  | commit q ph hpc hph =>
    have hne : p ≠ q := by
      rintro rfl
      rw [hpc] at hp
      exact absurd hp Bool.false_ne_true
    have hpc' : (s.commitStep log q ph).pc p = s.pc p := by
      cases ph <;> simp only [commitStep, LogState.bwrite, LogState.setKernel] <;>
        first
        | exact goto_pc_of_ne _ _ hne
        | (split <;> exact goto_pc_of_ne _ _ hne)
        | exact absurd rfl hph
    rw [hpc']
    exact hp
  | release q hpc =>
    rw [wakeup_busy]
    refine hgoto _ q _ hp fun hq => ?_
    rw [hq] at hpc
    rw [hpc] at hp
    exact hp
  | _ => exact hp

end LogState

variable {e : Execution log P k} {p : P} {i j : ℕ}

/-- The operation is in progress at every time of its span. -/
theorem OpSpan.busy (h : OpSpan e p i j) (hi : i < t) (hj : t ≤ j) :
    ((e.state t).pc p).busy = true := by
  induction t, hi using Nat.le_induction with
  | base =>
    rw [h.admitted.2]
    rfl
  | succ t ht ih =>
    have hlt := h.le
    exact (effect_state e (by omega)).2.stays_busy (ih (by omega)) (h.between t ht (by omega))

/-- No commit starts inside the span. -/
theorem OpSpan.no_commit (h : OpSpan e p i j) {c : ℕ} (hi : i < c) (hj : c < j) :
    ¬CommitStarts e c := by
  rintro ⟨q, hact, hpc⟩
  have hlen := h.le
  have hbusy := h.busy (t := c + 1) (by omega) (by omega)
  have hcalm := (inv_state e (c + 1) (by omega)).not_committing hbusy
  exact (inv_state e (c + 1) (by omega)).no_commit hcalm q .start hpc

/-- Between the admission and the first commit after it, no commit is in progress. -/
theorem OpSpan.calm (h : OpSpan e p i j) {c : ℕ} (hc : c < e.len)
    (hfirst : ∀ c', i < c' → c' < c → ¬CommitStarts e c') (hi : i < t) (ht : t ≤ c) :
    (e.state t).committing = false := by
  induction t, hi using Nat.le_induction with
  | base => exact (inv_state e (i + 1) (by omega)).not_committing (h.busy (by omega) h.lt)
  | succ t hit ih =>
    refine (inv_state e t (by omega)).stays_calm (ih (by omega)) (effect_state e (by omega)).2 ?_
    intro q hact hpc
    exact hfirst t hit (by omega) ⟨q, hact, hpc⟩

/-- A logged block is in the header right after `log_write`. -/
theorem OpSpan.logged (h : OpSpan e p i j) {b : ℕ} (ht : t < j) (hlogs : Logs e p b t) :
    b ∈ (e.state (t + 1)).kernel.lh.blocks := by
  have hlen := h.le
  obtain ⟨hact, hpc⟩ := hlogs
  obtain ⟨-, heffect⟩ := effect_state e (by omega)
  obtain ⟨hstop, -⟩ := effect_state e (t := t + 1) (by omega)
  have hadvance : (e.state t).advance log p = some (e.state (t + 1)) := by
    have hnext := e.next t (by omega)
    rw [hact, LogState.step, if_neg (by rw [(effect_state e (by omega)).1]; simp)] at hnext
    exact hnext
  simp only [LogState.advance, hpc, Option.some.injEq] at hadvance
  rw [LogState.append] at hadvance
  split at hadvance
  · rw [← hadvance] at hstop
    exact absurd hstop (by simp [LogState.halt])
  · rw [← hadvance]
    rw [LogHeader.blocks_record]
    exact Finset.mem_insert_self b _

/-- While `log.committing` is set no operation is in progress and only the committing process touches
the header or a buffer; two of the panics are unreachable; and the first commit after an operation is
admitted starts after it ended, with every block it logged in the header. -/
theorem group_commit_keeps_operations (e : Execution log P k) :
    (∀ t ≤ e.len, (e.state t).stop ≠ some .committing ∧ (e.state t).stop ≠ some .outsideTrans ∧
      ((e.state t).committing = true → (e.state t).outstanding = 0 ∧
        (∀ p, ((e.state t).pc p).busy = false) ∧
        (t < e.len → ((e.state t).pc (e.act t).proc).committing = true ∨
          ((e.state (t + 1)).kernel = (e.state t).kernel ∧
            (e.state (t + 1)).dirty = (e.state t).dirty)))) ∧
    ∀ p i j, OpSpan e p i j → ∀ c, i < c → c < e.len → CommitStarts e c →
      (∀ c', i < c' → c' < c → ¬CommitStarts e c') →
      j ≤ c ∧ ∀ t b, i < t → t < j → Logs e p b t → b ∈ (e.state (c + 1)).kernel.lh.blocks := by
  refine ⟨fun t ht => ?_, ?_⟩
  · have hinv := inv_state e t ht
    refine ⟨hinv.stop.1, hinv.stop.2, fun hcommitting => ⟨?_, hinv.calm hcommitting, ?_⟩⟩
    · obtain ⟨crew, hmem, hout⟩ := hinv.crew
      have hempty : crew = ∅ := by
        apply Finset.eq_empty_of_forall_notMem
        intro p hp
        exact Bool.false_ne_true ((hinv.calm hcommitting p).symm.trans ((hmem p).mp hp))
      rw [hout, hempty]
      rfl
    · intro hlt
      exact hinv.frozen hcommitting (effect_state e hlt).2
  · intro p i j h c hic hc hstart hfirst
    have hjc : j ≤ c := by
      by_contra hlt
      exact h.no_commit hic (by omega) hstart
    refine ⟨hjc, fun t b hit htj hlogs => ?_⟩
    have hlen := h.le
    have hkeep : ∀ u, t + 1 ≤ u → u ≤ c + 1 → b ∈ (e.state u).kernel.lh.blocks := by
      intro u hu
      induction u, hu using Nat.le_induction with
      | base => exact fun _ => h.logged htj hlogs
      | succ u hu ih =>
        intro huc
        have hcalm := h.calm hc hfirst (t := u) (by omega) (by omega)
        exact (inv_state e u (by omega)).blocks_mono hcalm (effect_state e (by omega)).2
          (ih (by omega))
    exact hkeep (c + 1) (by omega) (Nat.le_refl _)

/-- Process `false` logs block 40 while `true` is in an operation of its own, which ends last. -/
def twoProcesses : List (Act Bool) :=
  [.call false, .test false, .call true, .test true, .logWrite false 40] ++
    List.replicate 4 (.advance false) ++ [.endOp false, .endOp true]

def twoProcessesRun : Execution mkfsLog Bool (Kernel.boot zeroDisk) :=
  Trace.ofList twoProcesses (.call false) (by decide +kernel)

theorem twoProcesses_span : OpSpan twoProcessesRun false 1 9 where
  lt := by decide
  le := by decide
  admitted := ⟨rfl, by decide +kernel⟩
  ended := rfl
  between := by
    intro t hlo hhi
    interval_cases t <;> exact fun h => by cases h

theorem group_commit_keeps_operations_twoProcesses :
    40 ∈ (twoProcessesRun.state 11).kernel.lh.blocks := by
  have hstart : CommitStarts twoProcessesRun 10 := ⟨true, rfl, by decide +kernel⟩
  have hfirst : ∀ c', 1 < c' → c' < 10 → ¬CommitStarts twoProcessesRun c' := by
    intro c' hlo hhi
    rcases Nat.lt_or_ge c' 9 with hlt | hge
    · exact twoProcesses_span.no_commit hlo hlt
    · obtain rfl : c' = 9 := by omega
      rintro ⟨p, hact, hpc⟩
      cases hact
      exact absurd hpc (by decide +kernel)
  have hlogs : Logs twoProcessesRun false 40 8 := ⟨rfl, by decide +kernel⟩
  exact ((group_commit_keeps_operations twoProcessesRun).2 false 1 9 twoProcesses_span 10 (by decide)
    (by decide) hstart hfirst).2 8 40 (by decide) (by decide) hlogs

/-- The interleaved commit does what the sequential `commit` does to the kernel it started from. -/
theorem commit_sequential (e : Execution log P k) (ht : t ≤ e.len) {p : P} (hpc : (e.state t).pc p = .commit .finish) :
    (e.state t).kernel = commit log (e.state t).snap :=
  ((inv_state e t ht).commit p .finish hpc).2.1

theorem LogState.Effect.snap_eq {s s' : LogState P} {a : Act P} (h : Effect log s a s')
    (hcommitting : s.committing = true) : s'.snap = s.snap := by
  cases h with
  | close p hpc hcalm hlast => exact absurd (hcalm.symm.trans hcommitting) Bool.false_ne_true
  | commit p ph hpc hph =>
    cases ph with
    | writeLog tail | installTrans tail =>
      simp only [commitStep]
      split_ifs <;> rfl
    | _ => rfl
  | _ => rfl

theorem LogState.Effect.snap_close {s s' : LogState P} {p : P} (h : Effect log s (.endOp p) s')
    (hstart : s'.pc p = .commit .start) : s'.snap = s.kernel := by
  cases h with
  | move _ q c hproc hbusy hold hnew htarget =>
    obtain rfl : p = q := hproc
    rw [show c = .commit .start by simpa [goto] using hstart] at hnew
    cases hnew
  | whileCommitting _ hbusy =>
    rw [show s.pc p = .commit .start from hstart] at hbusy
    cases hbusy
  | leave => simp [wakeup, goto] at hstart
  | close => rfl

/-- The commit of a group, whatever the other processes do meanwhile: when it is finished, the buffers, the disk and
the header are those that the sequential `commit` makes of what there was when it started. -/
theorem group_commit_sequential (e : Execution log P k) {p : P} {c t : ℕ} (hct : c < t) (ht : t ≤ e.len)
    (hact : e.act c = .endOp p) (hstart : (e.state (c + 1)).pc p = .commit .start)
    (hflag : ∀ u, c < u → u < t → (e.state u).committing = true)
    (hpc : (e.state t).pc p = .commit .finish) : (e.state t).kernel = commit log (e.state c).kernel := by
  have hsnap : ∀ u, c < u → u ≤ t → (e.state u).snap = (e.state c).kernel := by
    intro u hu
    induction u, hu using Nat.le_induction with
    | base =>
      intro _
      have heffect := (effect_state e (hct.trans_le ht)).2
      rw [hact] at heffect
      exact heffect.snap_close hstart
    | succ u hu ih =>
      intro hut
      have hkeep := (effect_state e (by omega)).2.snap_eq (hflag u hu hut)
      exact hkeep.trans (ih (by omega))
  rw [commit_sequential e ht hpc, hsnap t hct (le_refl t)]

/-- The group of both processes is committed by the second one. -/
def twoProcessesCommit : Execution mkfsLog Bool (Kernel.boot zeroDisk) :=
  Trace.ofList (twoProcesses ++ List.replicate 8 (.advance true)) (.call false) (by decide +kernel)

theorem group_commit_sequential_twoProcesses :
    (twoProcessesCommit.state 19).kernel = commit mkfsLog (twoProcessesCommit.state 10).kernel := by
  refine group_commit_sequential twoProcessesCommit (by decide) (by decide) rfl (by decide +kernel) ?_
    (by decide +kernel)
  intro u hlo hhi
  interval_cases u <;> decide +kernel

end Laboratorio.Xv6Log
