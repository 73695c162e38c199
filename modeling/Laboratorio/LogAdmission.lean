import Laboratorio.LogSpans
import Mathlib.Algebra.BigOperators.Group.Finset.Basic
import Mathlib.Algebra.Order.BigOperators.Group.Finset

/-! Whether the admission test of `begin_op` keeps `log_write` from running out of log space. The test
reserves `MAXOPBLOCKS` blocks for each operation in a log of `LOGSIZE` blocks, but `log_write` refuses
to log when only `log.size - 1` blocks are in use, and `mkfs` makes `log.size` equal to `LOGSIZE`: one
block of the reservation does not exist. -/

namespace Laboratorio.Xv6Log

open Function

open LogState

/-- `LogState.step` of processes whose operations log at most `limit` distinct blocks each. -/
def limitedStep {P : Type} [DecidableEq P] (limit : ℕ) (log : Log) (s : LogState P) (a : Act P) :
    Option (LogState P) :=
  match a with
  | .logWrite p b => if (insert b (s.used p)).card ≤ limit then s.step log (.logWrite p b) else none
  | a => s.step log a

abbrev LimitedExecution (limit : ℕ) (log : Log) (P : Type) [DecidableEq P] (k : Kernel) :=
  Trace (LogState.initial P k) (limitedStep limit log)

variable {P : Type} [DecidableEq P] {log : Log} {k : Kernel} {limit : ℕ} {s s' : LogState P} {a : Act P}

theorem step_of_limitedStep (h : limitedStep limit log s a = some s') : s.step log a = some s' := by
  cases a with
  | logWrite p b => exact (Option.ite_none_right_eq_some.mp h).2
  | _ => exact h

variable {p : P}

theorem limit_of_limitedStep {b : Nat} (h : limitedStep limit log s (.logWrite p b) = some s') :
    (insert b (s.used p)).card ≤ limit := (Option.ite_none_right_eq_some.mp h).1

def reserved (s : LogState P) (crew : Finset P) : ℕ := ∑ p ∈ crew, (MAXOPBLOCKS - (s.used p).card)

/-- The header and the reservations fit, with a block to spare once at most one operation is in
progress. -/
structure Room (limit : ℕ) (s : LogState P) : Prop where
  fits : ∃ crew : Finset P, (∀ p, p ∈ crew ↔ (s.pc p).busy = true) ∧ s.outstanding = crew.card ∧
    s.kernel.lh.n + reserved s crew + (if crew.card ≤ 1 then 1 else 0) ≤ LOGSIZE
  used : ∀ p, (s.pc p).busy = true → (s.used p).card ≤ limit
  target : ∀ p b, (s.pc p).target = some b → (insert b (s.used p)).card ≤ limit
  empty : s.outstanding = 0 → s.committing = false → s.kernel.lh.n = 0

theorem one_le_left (hlimit : limit < MAXOPBLOCKS) {n : ℕ} (h : n ≤ limit) : 1 ≤ MAXOPBLOCKS - n := by
  omega

theorem reserved_erase {crew : Finset P} (hp : p ∈ crew) :
    reserved s crew = (MAXOPBLOCKS - (s.used p).card) + reserved s (crew.erase p) :=
  (Finset.add_sum_erase crew (fun p => MAXOPBLOCKS - (s.used p).card) hp).symm

theorem Room.lt (h : Room limit s) (hlimit : limit < MAXOPBLOCKS)
    (hp : (s.pc p).busy = true) : s.kernel.lh.n < LOGSIZE - 1 := by
  obtain ⟨crew, hmem, hout, hfits⟩ := h.fits
  have hcrew : p ∈ crew := (hmem p).mpr hp
  have hone := one_le_left hlimit (h.used p hp)
  rw [reserved_erase hcrew] at hfits
  have hlog : LOGSIZE = 30 := rfl
  by_cases hcard : crew.card ≤ 1
  · rw [if_pos hcard] at hfits
    omega
  · obtain ⟨q, hq, hqp⟩ := Finset.exists_mem_ne (show 1 < crew.card by omega) p
    have hq' : q ∈ crew.erase p := Finset.mem_erase.mpr ⟨hqp, hq⟩
    have hone' := one_le_left hlimit (h.used q ((hmem q).mp hq))
    rw [reserved_erase hq'] at hfits
    omega

omit [DecidableEq P] in
theorem Room.initial (k : Kernel) : Room limit (LogState.initial P k) where
  fits := ⟨∅, by simp [LogState.initial, Pc.busy], rfl, by
    change 0 + 0 + 1 ≤ 30
    decide⟩
  used := by simp [LogState.initial, Pc.busy]
  target := by simp [LogState.initial, Pc.target]
  empty := fun _ _ => rfl

theorem Room.goto (h : Room limit s) {c : Pc} (hbusy : c.busy = (s.pc p).busy)
    (htarget : ∀ b, c.target = some b → (insert b (s.used p)).card ≤ limit) :
    Room limit (s.goto p c) := by
  have hbusy' : ∀ q, ((s.goto p c).pc q).busy = (s.pc q).busy := by
    intro q
    by_cases hq : q = p
    · rw [hq, goto_pc_self, hbusy]
    · rw [goto_pc_of_ne s c hq]
  refine ⟨?_, ?_, ?_, h.empty⟩
  · obtain ⟨crew, hmem, hfits⟩ := h.fits
    exact ⟨crew, fun q => by rw [hbusy', hmem], hfits⟩
  · intro q hq
    rw [hbusy'] at hq
    exact h.used q hq
  · intro q b hb
    by_cases hq : q = p
    · rw [hq, goto_pc_self] at hb
      rw [hq]
      exact htarget b hb
    · rw [goto_pc_of_ne s c hq] at hb
      exact h.target q b hb

omit [DecidableEq P] in
theorem Room.wakeup (h : Room limit s) : Room limit s.wakeup := by
  refine ⟨?_, ?_, ?_, h.empty⟩
  · obtain ⟨crew, hmem, hfits⟩ := h.fits
    exact ⟨crew, fun q => by rw [wakeup_busy, hmem], hfits⟩
  · intro q hq
    rw [wakeup_busy] at hq
    exact h.used q hq
  · intro q b hb
    rw [wakeup_target] at hb
    exact h.target q b hb

theorem Room.enter (h : Room limit s) (hpc : s.pc p = .beginOp) (hcalm : s.committing = false)
    (hroom : s.kernel.lh.n + (s.outstanding + 1) * MAXOPBLOCKS ≤ LOGSIZE) :
    Room limit { s.goto p .inOp with
      outstanding := s.outstanding + 1, used := update s.used p ∅ } := by
  obtain ⟨crew, hmem, hout, hfits⟩ := h.fits
  have hp : p ∉ crew := by rw [hmem, hpc]; simp [Pc.busy]
  have hold : ∑ q ∈ crew, (MAXOPBLOCKS - (update s.used p ∅ q).card) = reserved s crew := by
    apply Finset.sum_congr rfl
    intro q hq
    rw [update_of_ne (by rintro rfl; exact hp hq)]
  have hbound : reserved s crew ≤ crew.card * MAXOPBLOCKS := by
    apply Finset.sum_le_card_nsmul
    intro q _
    exact Nat.sub_le _ _
  have hMAX : MAXOPBLOCKS = 10 := rfl
  have hLOG : LOGSIZE = 30 := rfl
  rw [hMAX] at hbound hroom
  refine ⟨⟨insert p crew, crew_insert hmem rfl, ?_, ?_⟩, ?_, ?_, ?_⟩
  · rw [Finset.card_insert_of_notMem hp]
    change s.outstanding + 1 = _
    omega
  · rw [Finset.card_insert_of_notMem hp, reserved, Finset.sum_insert hp]
    dsimp only
    rw [hold, update_self, Finset.card_empty]
    change s.kernel.lh.n + _ + _ ≤ _
    by_cases hcard : crew.card = 0
    · have hzero := h.empty (by omega) hcalm
      rw [if_pos (by omega), hzero]
      omega
    · rw [if_neg (by omega)]
      omega
  · intro q hq
    change (update s.used p ∅ q).card ≤ limit
    by_cases hqp : q = p
    · rw [hqp, update_self]
      exact Nat.zero_le _
    · change ((s.goto p .inOp).pc q).busy = true at hq
      rw [goto_pc_of_ne s _ hqp] at hq
      rw [update_of_ne hqp]
      exact h.used q hq
  · intro q b hb
    by_cases hqp : q = p
    · rw [hqp, goto_pc_self] at hb
      exact absurd hb (by simp [Pc.target])
    · rw [goto_pc_of_ne s _ hqp] at hb
      change (insert b (update s.used p ∅ q)).card ≤ limit
      rw [update_of_ne hqp]
      exact h.target q b hb
  · intro hzero
    change s.outstanding + 1 = 0 at hzero
    omega

/-- A block that `log_write` appends was not in the header, so it comes out of the reservation of the
operation that logs it. -/
theorem Room.record (h : Room limit s) (hinv : Inv log s) (hlimit : limit < MAXOPBLOCKS)
    {b : Nat} (hpc : s.pc p = .append b) : Room limit { s.goto p .inOp with
      kernel := { s.kernel with lh := s.kernel.lh.record b }
      dirty := update s.dirty b true
      used := update s.used p (insert b (s.used p)) } := by
  have hbusy : (s.pc p).busy = true := by rw [hpc]; rfl
  have hcard := h.target p b (by rw [hpc]; rfl)
  have hgoto : Room limit (s.goto p .inOp) :=
    h.goto (by rw [hbusy]; rfl) (fun b hb => by simp [Pc.target] at hb)
  obtain ⟨crew, hmem, hout, hfits⟩ := hgoto.fits
  have hp : p ∈ crew := (hmem p).mpr (by rw [goto_pc_self]; rfl)
  have hrest : ∑ q ∈ crew.erase p, (MAXOPBLOCKS -
      (update s.used p (insert b (s.used p)) q).card) = reserved s (crew.erase p) := by
    apply Finset.sum_congr rfl
    intro q hq
    rw [update_of_ne (Finset.ne_of_mem_erase hq)]
  have hsplit : ∑ q ∈ crew, (MAXOPBLOCKS -
      (update s.used p (insert b (s.used p)) q).card) =
      (MAXOPBLOCKS - (insert b (s.used p)).card) + reserved s (crew.erase p) := by
    rw [← Finset.add_sum_erase crew _ hp, hrest, update_self]
  have hn : (s.kernel.lh.record b).n + (MAXOPBLOCKS - (insert b (s.used p)).card) ≤
      s.kernel.lh.n + (MAXOPBLOCKS - (s.used p).card) := by
    by_cases hb : b ∈ s.kernel.lh.blocks
    · rw [LogHeader.record_of_mem hb]
      have := Finset.card_le_card (Finset.subset_insert b (s.used p))
      omega
    · have hnew : b ∉ s.used p := fun hmem => hb (hinv.used p hbusy hmem)
      rw [LogHeader.record_of_notMem hb]
      rw [Finset.card_insert_of_notMem hnew] at hcard ⊢
      change s.kernel.lh.n + 1 + _ ≤ _
      omega
  refine ⟨⟨crew, hmem, hout, ?_⟩, ?_, ?_, ?_⟩
  · change (s.kernel.lh.record b).n + ∑ q ∈ crew, (MAXOPBLOCKS -
      (update s.used p (insert b (s.used p)) q).card) + _ ≤ _
    change s.kernel.lh.n + reserved s crew + _ ≤ _ at hfits
    rw [reserved_erase hp] at hfits
    rw [hsplit]
    omega
  · intro q hq
    change (update s.used p (insert b (s.used p)) q).card ≤ limit
    by_cases hqp : q = p
    · rw [hqp, update_self]
      exact hcard
    · rw [update_of_ne hqp]
      exact hgoto.used q hq
  · intro q b' hb'
    change (insert b' (update s.used p (insert b (s.used p)) q)).card ≤ limit
    by_cases hqp : q = p
    · rw [hqp, goto_pc_self] at hb'
      exact absurd hb' (by simp [Pc.target])
    · rw [update_of_ne hqp]
      exact hgoto.target q b' hb'
  · intro hzero
    have := hinv.outstanding_pos hbusy
    change s.outstanding = 0 at hzero
    omega

theorem Room.leave (h : Room limit s) (hlimit : limit < MAXOPBLOCKS) {c : Pc}
    (hpc : s.pc p = .inOp) (hbusy : c.busy = false) (htarget : c.target = none)
    (hmore : s.outstanding - 1 = 0 → s.committing = false → s.kernel.lh.n = 0) :
    Room limit { s.goto p c with outstanding := s.outstanding - 1 } := by
  obtain ⟨crew, hmem, hout, hfits⟩ := h.fits
  have hp : p ∈ crew := (hmem p).mpr (by rw [hpc]; rfl)
  have hone := one_le_left hlimit (h.used p (by rw [hpc]; rfl))
  have hcard := Finset.card_erase_add_one hp
  have hold : ∀ q, q ≠ p → (s.goto p c).pc q = s.pc q := fun q hq => goto_pc_of_ne s c hq
  refine ⟨⟨crew.erase p, crew_erase hmem hbusy, ?_, ?_⟩, ?_, ?_, hmore⟩
  · change s.outstanding - 1 = _
    omega
  · change s.kernel.lh.n + reserved s (crew.erase p) + _ ≤ _
    rw [reserved_erase hp] at hfits
    split <;> omega
  · intro q hq
    by_cases hqp : q = p
    · rw [hqp, goto_pc_self, hbusy] at hq
      exact absurd hq Bool.false_ne_true
    · rw [hold q hqp] at hq
      exact h.used q hq
  · intro q b hb
    by_cases hqp : q = p
    · rw [hqp, goto_pc_self, htarget] at hb
      exact absurd hb (by simp)
    · rw [hold q hqp] at hb
      exact h.target q b hb

theorem commitStep_n_le (log : Log) (s : LogState P) (p : P) (ph : Phase) :
    (s.commitStep log p ph).kernel.lh.n ≤ s.kernel.lh.n := by
  cases ph <;> simp only [LogState.commitStep] <;>
    first
    | exact Nat.le_refl _
    | exact Nat.zero_le _
    | (split <;> exact Nat.le_refl _)

theorem commit_n (log : Log) (k : Kernel) : (commit log k).lh.n = 0 := by
  unfold commit
  split
  · rfl
  · omega

theorem Room.step (h : Room limit s) (hinv : Inv log s) (hlimit : limit < MAXOPBLOCKS)
    (hstep : limitedStep limit log s a = some s') : Room limit s' := by
  obtain ⟨-, heffect⟩ := step_effect (step_of_limitedStep hstep)
  cases heffect with
  | move _ p c hproc hbusy _ _ htarget =>
    refine h.goto hbusy fun b hb => ?_
    rcases htarget b hb with hold | hcall
    · exact h.target p b hold
    · rw [hcall] at hstep
      exact limit_of_limitedStep hstep
  | enter p hpc hcalm hroom => exact h.enter hpc hcalm hroom
  | modify p b data _ | tooBig p _ _ | outsideTrans p _ _ => exact ⟨h.fits, h.used, h.target, h.empty⟩
  | whileCommitting p hbusy hcommitting =>
    exact absurd ((hinv.not_committing hbusy).symm.trans hcommitting) Bool.false_ne_true
  | blockOverflow p b _ => exact ⟨h.fits, h.used, h.target, h.empty⟩
  | record p b hpc => exact h.record hinv hlimit hpc
  | leave p hpc _ hmore =>
    apply Room.wakeup
    exact h.leave hlimit hpc rfl rfl fun hzero => absurd hzero hmore
  | close p hpc _ _ =>
    have hflag : Room limit { s with committing := true, snap := s.kernel } :=
      ⟨h.fits, h.used, h.target, fun _ hcalm => absurd hcalm Bool.noConfusion⟩
    exact hflag.leave hlimit hpc rfl rfl fun _ hcalm => absurd hcalm Bool.noConfusion
  | commit p ph hpc hph =>
    obtain ⟨hcommitting, hk, hw⟩ := hinv.commit p ph hpc
    obtain ⟨ph', dirty, -, hs'⟩ := commitStep_progress hph hk hw
    have hn := commitStep_n_le log s p ph
    have hgoto : Room limit (s.goto p (.commit ph')) :=
      h.goto (by rw [hpc]; rfl) (fun b hb => by simp [Pc.target] at hb)
    rw [hs'] at hn ⊢
    obtain ⟨crew, hmem, hout, hfits⟩ := hgoto.fits
    refine ⟨⟨crew, hmem, hout, ?_⟩, hgoto.used, hgoto.target, ?_⟩
    · change s.kernel.lh.n + reserved s crew + _ ≤ _ at hfits
      change (ph'.progress log s.snap).lh.n + reserved s crew + _ ≤ _
      dsimp only at hn
      omega
    · intro _ hcalm
      exact absurd (hcommitting.symm.trans hcalm) Bool.noConfusion
  | release p hpc =>
    obtain ⟨-, hk, -⟩ := hinv.commit p .finish hpc
    have hgoto : Room limit (s.goto p .idle) :=
      h.goto (by rw [hpc]; rfl) (fun b hb => by simp [Pc.target] at hb)
    apply Room.wakeup
    refine ⟨hgoto.fits, hgoto.used, hgoto.target, fun _ _ => ?_⟩
    rw [hk]
    exact commit_n log s.snap

theorem room_state (hlimit : limit < MAXOPBLOCKS) (e : LimitedExecution limit log P k) :
    ∀ t ≤ e.len, Inv log (e.state t) ∧ Room limit (e.state t) :=
  e.invariant (I := fun s => Inv log s ∧ Room limit s) ⟨Inv.initial k, Room.initial k⟩ fun _ _ _ h hstep =>
    ⟨h.1.step (step_of_limitedStep hstep), h.2.step h.1 hlimit hstep⟩

theorem Room.not_tooBig (h : Room limit s) (hinv : Inv log s) (hlimit : limit < MAXOPBLOCKS)
    (hsize : log.size = LOGSIZE) (hstop : s.stop ≠ some .tooBig)
    (hstep : limitedStep limit log s a = some s') : s'.stop ≠ some .tooBig := by
  obtain ⟨hnone, heffect⟩ := step_effect (step_of_limitedStep hstep)
  cases heffect with
  | tooBig p hbusy hfull =>
    have hlt := h.lt hlimit hbusy
    rw [hsize] at hfull
    have hLOG : LOGSIZE = 30 := rfl
    omega
  | commit p ph hpc hph =>
    obtain ⟨-, hk, hw⟩ := hinv.commit p ph hpc
    obtain ⟨ph', dirty, -, hs'⟩ := commitStep_progress hph hk hw
    rw [hs']
    exact hstop
  | outsideTrans p _ _ | whileCommitting p _ _ | blockOverflow p b _ =>
    exact fun heq => Stop.noConfusion (Option.some.inj heq)
  | _ => exact hstop

theorem not_tooBig_state (hlimit : limit < MAXOPBLOCKS) (hsize : log.size = LOGSIZE)
    (e : LimitedExecution limit log P k) : ∀ t ≤ e.len, (e.state t).stop ≠ some .tooBig := by
  intro t
  induction t with
  | zero =>
    intro _
    rw [e.start]
    exact fun heq => absurd heq (by simp [LogState.initial])
  | succ t ih =>
    intro ht
    obtain ⟨hinv, hroom⟩ := room_state hlimit e t (by omega)
    exact hroom.not_tooBig hinv hlimit hsize (ih (by omega)) (e.next t ht)

/-- The calls of one process that logs the blocks from `b` on, `n` of them. -/
def logRange (p : Fin 3) (b n : Nat) : List (Act (Fin 3)) :=
  (List.range n).flatMap fun i =>
    [.logWrite p (b + i), .advance p, .advance p, .advance p, .advance p]

/-- Three operations of `MAXOPBLOCKS` blocks each, up to the test that finds the log full. -/
def threeOps : List (Act (Fin 3)) :=
  [.call 0, .test 0, .call 1, .test 1, .call 2, .test 2] ++ logRange 0 100 10 ++ logRange 1 110 10 ++
    logRange 2 120 9 ++ [.logWrite 2 129, .advance 2, .advance 2]

theorem threeOps_stop : (threeOps.foldlM (limitedStep MAXOPBLOCKS mkfsLog)
    (LogState.initial (Fin 3) (Kernel.boot zeroDisk))).map LogState.stop = some (some .tooBig) := by
  decide +kernel

/-- The execution of `threeOps`. -/
def threeOpsRun : LimitedExecution MAXOPBLOCKS mkfsLog (Fin 3) (Kernel.boot zeroDisk) :=
  Trace.ofList threeOps (.call 0) (by
    have h := congrArg Option.isSome threeOps_stop
    rwa [Option.isSome_map] at h)

theorem threeOpsRun_stop : (threeOpsRun.state threeOpsRun.len).stop = some .tooBig := by
  obtain ⟨s, hs, hstop⟩ := Option.map_eq_some_iff.mp threeOps_stop
  rw [threeOpsRun, Trace.ofList_last _ _ hs]
  exact hstop

theorem limitedStep_mono {limit' : ℕ} (hle : limit ≤ limit')
    (h : limitedStep limit log s a = some s') : limitedStep limit' log s a = some s' := by
  cases a with
  | logWrite p b =>
    obtain ⟨hcard, hs'⟩ := Option.ite_none_right_eq_some.mp h
    exact Option.ite_none_right_eq_some.mpr ⟨hcard.trans hle, hs'⟩
  | _ => exact h

/-- On the log that `mkfs` lays out, operations of at most `limit` distinct blocks each never run into
the panic, whatever the processes and their interleaving, exactly when `limit` is below the
`MAXOPBLOCKS` that `begin_op` reserves for each of them. -/
theorem admission_suffices_iff (limit : ℕ) :
    (∀ (P : Type) [DecidableEq P] (k : Kernel) (e : LimitedExecution limit mkfsLog P k),
      ∀ t ≤ e.len, (e.state t).stop ≠ some .tooBig) ↔ limit < MAXOPBLOCKS := by
  refine ⟨fun h => ?_, fun hlimit P _ k e => not_tooBig_state hlimit rfl e⟩
  by_contra hge
  -- An execution held to MAXOPBLOCKS is held to any weaker limit, and one of those fails.
  let e : LimitedExecution limit mkfsLog (Fin 3) (Kernel.boot zeroDisk) :=
    { threeOpsRun with
      next := fun t ht => limitedStep_mono (not_lt.mp hge) (threeOpsRun.next t ht) }
  exact h (Fin 3) (Kernel.boot zeroDisk) e e.len (Nat.le_refl _) threeOpsRun_stop

theorem admission_fails_threeOps :
    ∃ e : LimitedExecution MAXOPBLOCKS mkfsLog (Fin 3) (Kernel.boot zeroDisk),
      (e.state e.len).stop = some .tooBig := ⟨threeOpsRun, threeOpsRun_stop⟩

end Laboratorio.Xv6Log
