import Laboratorio.LogGroup
import Laboratorio.Trace

/-! Group commit never splits an operation. `Effect` says once what a step can do; from it come the
invariant of every reachable state, and the blocks that an operation logged being in the header when
the commit starts that follows its `end_op`. -/

namespace Laboratorio.Xv6Log

open Function

/-- The block that a process inside `log_write` is logging. -/
def Pc.target : Pc → Option Nat
  | .testSize b | .testArea b | .testTrans b | .append b => some b
  | _ => none

variable {ph : Phase}

namespace LogState

variable {P : Type} {log : Log} {s s' : LogState P} {a : Act P}

@[simp] theorem wakeup_busy (s : LogState P) (p : P) : (s.wakeup.pc p).busy = (s.pc p).busy := by
  by_cases h : s.pc p = .asleep
  · simp [wakeup, h, Pc.busy]
  · simp [wakeup, h]

variable {p : P}

theorem wakeup_eq_commit {s : LogState P} :
    s.wakeup.pc p = .commit ph ↔ s.pc p = .commit ph := by
  by_cases h : s.pc p = .asleep
  · simp [wakeup, h]
  · simp [wakeup, h]

theorem wakeup_target (s : LogState P) (p : P) : (s.wakeup.pc p).target = (s.pc p).target := by
  by_cases h : s.pc p = .asleep
  · simp [wakeup, h, Pc.target]
  · simp [wakeup, h]

variable [DecidableEq P]

@[simp] theorem goto_pc_self (s : LogState P) (p : P) (c : Pc) : (s.goto p c).pc p = c :=
  update_self _ _ _

theorem goto_pc_of_ne (s : LogState P) {q : P} (c : Pc) (h : q ≠ p) : (s.goto p c).pc q = s.pc q :=
  update_of_ne h _ _

theorem crew_insert {crew : Finset P} {c : Pc} (hmem : ∀ q, q ∈ crew ↔ (s.pc q).busy = true) (hc : c.busy = true)
    (q : P) : q ∈ insert p crew ↔ ((s.goto p c).pc q).busy = true := by
  by_cases hq : q = p
  · rw [hq, goto_pc_self, hc]
    simp
  · rw [goto_pc_of_ne s c hq, Finset.mem_insert, hmem]
    exact or_iff_right hq

theorem crew_erase {crew : Finset P} {c : Pc} (hmem : ∀ q, q ∈ crew ↔ (s.pc q).busy = true) (hc : c.busy = false)
    (q : P) : q ∈ crew.erase p ↔ ((s.goto p c).pc q).busy = true := by
  by_cases hq : q = p
  · rw [hq, goto_pc_self, hc]
    simp
  · rw [goto_pc_of_ne s c hq, Finset.mem_erase, hmem]
    exact and_iff_right hq

/-- Where no other process commits, only the one that moves can be committing afterwards. -/
theorem goto_commit {q : P} {c : Pc} (hothers : ∀ q ph, q ≠ p → s.pc q ≠ .commit ph)
    (hq : (s.goto p c).pc q = .commit ph) : q = p ∧ c = .commit ph := by
  by_cases hqp : q = p
  · rw [hqp, goto_pc_self] at hq
    exact ⟨hqp, hq⟩
  · rw [goto_pc_of_ne s c hqp] at hq
    exact absurd hq (hothers q ph hqp)

/-- What a step can do. -/
inductive Effect (log : Log) (s : LogState P) : Act P → LogState P → Prop where
  | move (a : Act P) (p : P) (c : Pc) (hproc : a.proc = p) (hbusy : c.busy = (s.pc p).busy)
      (hold : (s.pc p).committing = false) (hnew : c.committing = false)
      (htarget : ∀ b, c.target = some b → (s.pc p).target = some b ∨ a = .logWrite p b) :
      Effect log s a (s.goto p c)
  | enter (p : P) (hpc : s.pc p = .beginOp) (hcalm : s.committing = false)
      (hroom : s.kernel.lh.n + (s.outstanding + 1) * MAXOPBLOCKS ≤ LOGSIZE) :
      Effect log s (.test p) { s.goto p .inOp with
        outstanding := s.outstanding + 1, used := update s.used p ∅ }
  | modify (p : P) (b : Nat) (data : Block) (hpc : s.pc p = .inOp) :
      Effect log s (.modify p b data)
        (s.setKernel { s.kernel with cache := update s.kernel.cache b data })
  | tooBig (p : P) (hbusy : (s.pc p).busy)
      (hfull : s.kernel.lh.n ≥ LOGSIZE ∨ (s.kernel.lh.n : Int) ≥ log.size - 1) :
      Effect log s (.advance p) (s.halt .tooBig)
  | outsideTrans (p : P) (hbusy : (s.pc p).busy) (hnone : s.outstanding < 1) :
      Effect log s (.advance p) (s.halt .outsideTrans)
  | whileCommitting (p : P) (hbusy : (s.pc p).busy) (hcommitting : s.committing = true) :
      Effect log s (.endOp p) ({ s with outstanding := s.outstanding - 1 }.halt .committing)
  | blockOverflow (p : P) (b : Nat) (hpc : s.pc p = .append b) :
      Effect log s (.advance p) (s.halt .blockOverflow)
  | record (p : P) (b : Nat) (hpc : s.pc p = .append b) :
      Effect log s (.advance p) { s.goto p .inOp with
        kernel := { s.kernel with lh := s.kernel.lh.record b }
        dirty := update s.dirty b true
        used := update s.used p (insert b (s.used p)) }
  | leave (p : P) (hpc : s.pc p = .inOp) (hcalm : s.committing = false) (hmore : s.outstanding - 1 ≠ 0) :
      Effect log s (.endOp p) ({ s with outstanding := s.outstanding - 1 }.goto p .idle).wakeup
  | close (p : P) (hpc : s.pc p = .inOp) (hcalm : s.committing = false) (hlast : s.outstanding - 1 = 0) :
      Effect log s (.endOp p) { { s with outstanding := s.outstanding - 1 }.goto p (.commit .start) with
        committing := true, snap := s.kernel }
  | commit (p : P) (ph : Phase) (hpc : s.pc p = .commit ph) (hph : ph ≠ .finish) :
      Effect log s (.advance p) (s.commitStep log p ph)
  | release (p : P) (hpc : s.pc p = .commit .finish) :
      Effect log s (.advance p) ({ s with committing := false }.goto p .idle).wakeup

theorem beginOp_effect (hpc : s.pc p = .beginOp) : Effect log s (.test p) (s.beginOp p) := by
  have hsleep : Effect log s (.test p) (s.goto p .asleep) :=
    .move _ p _ rfl (by rw [hpc]; rfl) (by rw [hpc]; rfl) rfl (fun b hb => by simp [Pc.target] at hb)
  unfold beginOp
  split
  · exact hsleep
  · rename_i hcalm
    split
    · exact hsleep
    · rename_i hroom
      exact .enter p hpc (Bool.eq_false_iff.mpr hcalm) (not_lt.mp hroom)

theorem endOp_effect (hpc : s.pc p = .inOp) : Effect log s (.endOp p) (s.endOp p) := by
  unfold endOp
  dsimp only
  split
  · rename_i hcommitting
    exact .whileCommitting p (by rw [hpc]; rfl) hcommitting
  · rename_i hcalm
    split
    · rename_i hlast
      exact .close p hpc (Bool.eq_false_iff.mpr hcalm) hlast
    · rename_i hmore
      exact .leave p hpc (Bool.eq_false_iff.mpr hcalm) hmore

theorem advance_effect (h : s.advance log p = some s') : Effect log s (.advance p) s' := by
  have hmove : ∀ c b, (s.pc p).busy = true → c.busy = true → (s.pc p).target = some b →
      c.target = some b → Effect log s (.advance p) (s.goto p c) := by
    intro c b hold hnew htold htnew
    refine .move _ p c rfl (by rw [hold, hnew]) ?_ ?_ ?_
    · cases hpc : s.pc p <;> simp_all [Pc.busy, Pc.committing]
    · cases c <;> simp_all [Pc.busy, Pc.committing]
    · intro b' hb'
      rw [htnew] at hb'
      exact Or.inl (htold.trans hb')
  unfold advance at h
  cases hpc : s.pc p with
  | idle | beginOp | asleep | inOp => simp [hpc] at h
  | testSize b =>
    simp only [hpc, Option.some.injEq] at h
    subst h
    split
    · rename_i hfull
      exact .tooBig p (by rw [hpc]; rfl) (Or.inl hfull)
    · exact hmove _ b (by rw [hpc]; rfl) rfl (by rw [hpc]; rfl) rfl
  | testArea b =>
    simp only [hpc, Option.some.injEq] at h
    subst h
    split
    · rename_i hfull
      exact .tooBig p (by rw [hpc]; rfl) (Or.inr hfull)
    · exact hmove _ b (by rw [hpc]; rfl) rfl (by rw [hpc]; rfl) rfl
  | testTrans b =>
    simp only [hpc, Option.some.injEq] at h
    subst h
    split
    · rename_i hnone
      exact .outsideTrans p (by rw [hpc]; rfl) hnone
    · exact hmove _ b (by rw [hpc]; rfl) rfl (by rw [hpc]; rfl) rfl
  | append b =>
    simp only [hpc, Option.some.injEq] at h
    subst h
    unfold append
    split
    · exact .blockOverflow p b hpc
    · exact .record p b hpc
  | commit ph =>
    simp only [hpc, Option.some.injEq] at h
    subst h
    by_cases hph : ph = .finish
    · subst hph
      exact .release p hpc
    · exact .commit p ph hpc hph

theorem step_effect (h : s.step log a = some s') : s.stop = none ∧ Effect log s a s' := by
  unfold step at h
  split at h
  · cases h
  rename_i hstop
  refine ⟨Option.not_isSome_iff_eq_none.mp hstop, ?_⟩
  cases a with
  | call p =>
    obtain ⟨hpc, hs⟩ := Option.ite_none_right_eq_some.mp h
    cases hs
    exact .move _ p _ rfl (by rw [hpc]; rfl) (by rw [hpc]; rfl) rfl
      (fun b hb => by simp [Pc.target] at hb)
  | test p =>
    obtain ⟨hpc, hs⟩ := Option.ite_none_right_eq_some.mp h
    cases hs
    exact beginOp_effect hpc
  | wake p =>
    obtain ⟨hpc, hs⟩ := Option.ite_none_right_eq_some.mp h
    cases hs
    exact .move _ p _ rfl (by rw [hpc]; rfl) (by rw [hpc]; rfl) rfl
      (fun b hb => by simp [Pc.target] at hb)
  | modify p b data =>
    obtain ⟨hpc, hs⟩ := Option.ite_none_right_eq_some.mp h
    cases hs
    exact .modify p b data hpc
  | logWrite p b =>
    obtain ⟨hpc, hs⟩ := Option.ite_none_right_eq_some.mp h
    cases hs
    refine .move _ p _ rfl (by rw [hpc]; rfl) (by rw [hpc]; rfl) rfl (fun b' hb => Or.inr ?_)
    rw [Option.some.inj hb]
  | advance p => exact advance_effect h
  | endOp p =>
    obtain ⟨hpc, hs⟩ := Option.ite_none_right_eq_some.mp h
    cases hs
    exact endOp_effect hpc

end LogState

/-! ### The commit in progress -/

theorem copyBlocks_succ (k : Kernel) (src dst : Nat → Nat) (n : Nat) :
    k.copyBlocks src dst (n + 1) = (k.copyBlocks src dst n).bwrite (dst n)
    ((k.copyBlocks src dst n).bread (src n)) := by
  rw [Kernel.copyBlocks, List.range_succ, List.foldl_append]
  rfl

@[simp] theorem lh_copyBlocks (k : Kernel) (src dst : Nat → Nat) (n : Nat) :
    (k.copyBlocks src dst n).lh = k.lh := by
  induction n with
  | zero => rfl
  | succ n ih =>
    rw [copyBlocks_succ]
    exact ih

namespace Phase

/-- The kernel that the sequential `commit`, started in `k`, has reached. -/
def progress (log : Log) (k : Kernel) : Phase → Kernel
  | .start => k
  | .writeLog tail => k.copyBlocks k.lh.block (fun tail => log.start + tail + 1) tail
  | .writeHead => Xv6Log.writeLog log k
  | .installTrans tail => (Xv6Log.writeHead log (Xv6Log.writeLog log k)).copyBlocks
      (fun tail => log.start + tail + 1) k.lh.block tail
  | .clear => Xv6Log.installTrans log (Xv6Log.writeHead log (Xv6Log.writeLog log k))
  | .erase => clearLog (Xv6Log.installTrans log (Xv6Log.writeHead log (Xv6Log.writeLog log k)))
  | .finish => Xv6Log.commit log k

def Within (n : Nat) : Phase → Prop
  | .start | .finish => True
  | .writeLog tail | .installTrans tail => 0 < n ∧ tail ≤ n
  | .writeHead | .clear | .erase => 0 < n

end Phase

namespace LogState

variable {P : Type} [DecidableEq P] {log : Log} {s s' : LogState P} {a : Act P}

theorem writeHead_lh (k : Kernel) : (Xv6Log.writeHead log (Xv6Log.writeLog log k)).lh = k.lh := by
  simp [Xv6Log.writeHead, Xv6Log.writeLog, Kernel.bwrite]

/-- A step of `commit` takes the kernel to the next phase of the sequential `commit`. -/
theorem commitStep_progress {p : P} (hph : ph ≠ .finish)
    (hk : s.kernel = ph.progress log s.snap) (hw : ph.Within s.snap.lh.n) :
    ∃ ph' dirty, ph'.Within s.snap.lh.n ∧ s.commitStep log p ph = { s.goto p (.commit ph') with
      kernel := ph'.progress log s.snap, dirty := dirty } := by
  obtain ⟨k, outstanding, committing, dirty, pc, stop, used, snap⟩ := s
  dsimp only at hk hw
  subst hk
  cases ph with
  | start =>
    by_cases hn : 0 < snap.lh.n
    · refine ⟨.writeLog 0, dirty, ⟨hn, Nat.zero_le _⟩, ?_⟩
      simp only [commitStep, Phase.progress, hn, if_true]
      rfl
    · refine ⟨.finish, dirty, trivial, ?_⟩
      simp only [commitStep, Phase.progress, Xv6Log.commit, hn, if_false]
      rfl
  | writeLog tail =>
    by_cases ht : tail < snap.lh.n
    · refine ⟨.writeLog (tail + 1), update dirty (log.start + tail + 1) false,
        ⟨hw.1, ht⟩, ?_⟩
      simp only [commitStep, Phase.progress, lh_copyBlocks, ht, if_true, copyBlocks_succ]
      rfl
    · have heq : tail = snap.lh.n := Nat.le_antisymm hw.2 (not_lt.mp ht)
      refine ⟨.writeHead, dirty, hw.1, ?_⟩
      simp only [commitStep, Phase.progress, lh_copyBlocks, ht, if_false]
      rw [heq]
      rfl
  | writeHead => exact ⟨.installTrans 0, _, ⟨hw, Nat.zero_le _⟩, rfl⟩
  | installTrans tail =>
    by_cases ht : tail < snap.lh.n
    · refine ⟨.installTrans (tail + 1), update dirty (snap.lh.block tail) false,
        ⟨hw.1, ht⟩, ?_⟩
      simp only [commitStep, Phase.progress, lh_copyBlocks, writeHead_lh, ht, if_true,
        copyBlocks_succ]
      rfl
    · have heq : tail = snap.lh.n := Nat.le_antisymm hw.2 (not_lt.mp ht)
      refine ⟨.clear, dirty, hw.1, ?_⟩
      simp only [commitStep, Phase.progress, lh_copyBlocks, writeHead_lh, ht, if_false,
        Xv6Log.installTrans]
      rw [heq]
      rfl
  | clear => exact ⟨.erase, dirty, hw, rfl⟩
  | erase =>
    have hcommit : Phase.finish.progress log snap =
        Xv6Log.writeHead log (Phase.erase.progress log snap) := if_pos hw
    refine ⟨.finish, update dirty log.start false, trivial, ?_⟩
    rw [hcommit]
    rfl
  | finish => exact absurd rfl hph

/-! ### The invariant -/

structure Inv (log : Log) (s : LogState P) : Prop where
  crew : ∃ crew : Finset P, (∀ p, p ∈ crew ↔ (s.pc p).busy = true) ∧ s.outstanding = crew.card
  calm : s.committing = true → ∀ p, (s.pc p).busy = false
  commit : ∀ p ph, s.pc p = .commit ph → s.committing = true ∧
    s.kernel = ph.progress log s.snap ∧ ph.Within s.snap.lh.n
  single : ∀ p q ph ph', s.pc p = .commit ph → s.pc q = .commit ph' → p = q
  used : ∀ p, (s.pc p).busy = true → s.used p ⊆ s.kernel.lh.blocks
  stop : s.stop ≠ some .committing ∧ s.stop ≠ some .outsideTrans

section Facts

omit [DecidableEq P]

theorem Inv.initial (k : Kernel) : Inv log (initial P k) where
  crew := ⟨∅, by simp [LogState.initial, Pc.busy], rfl⟩
  calm := by simp [LogState.initial]
  commit := by simp [LogState.initial]
  single := by simp [LogState.initial]
  used := by simp [LogState.initial, Pc.busy]
  stop := by simp [LogState.initial]

variable (h : Inv log s)

include h

theorem Inv.outstanding_pos {p : P} (hp : (s.pc p).busy = true) :
    0 < s.outstanding := by
  obtain ⟨crew, hmem, hout⟩ := h.crew
  have hpos : 0 < crew.card := Finset.card_pos.mpr ⟨p, (hmem p).mpr hp⟩
  omega

theorem Inv.not_committing {p : P} (hp : (s.pc p).busy = true) :
    s.committing = false := by
  by_contra hcommitting
  rw [Bool.not_eq_false] at hcommitting
  exact Bool.false_ne_true ((h.calm hcommitting p).symm.trans hp)

theorem Inv.no_commit (hcalm : s.committing = false) (p : P) (ph : Phase) :
    s.pc p ≠ .commit ph := by
  intro hpc
  exact Bool.false_ne_true (hcalm.symm.trans (h.commit p ph hpc).1)

theorem Inv.wakeup : Inv log s.wakeup := by
  refine ⟨?_, ?_, ?_, ?_, ?_, h.stop⟩
  · obtain ⟨crew, hmem, hout⟩ := h.crew
    exact ⟨crew, fun q => by rw [wakeup_busy, hmem], hout⟩
  · intro hcommitting q
    rw [wakeup_busy]
    exact h.calm hcommitting q
  · intro q ph hpc
    exact h.commit q ph (wakeup_eq_commit.mp hpc)
  · intro q r ph ph' hq hr
    exact h.single q r ph ph' (wakeup_eq_commit.mp hq) (wakeup_eq_commit.mp hr)
  · intro q hq
    rw [wakeup_busy] at hq
    exact h.used q hq

theorem Inv.halt {r : Stop} (hcommitting : r ≠ .committing) (htrans : r ≠ .outsideTrans) : Inv log (s.halt r) :=
  ⟨h.crew, h.calm, h.commit, h.single, h.used, by simpa [LogState.halt] using ⟨hcommitting, htrans⟩⟩

end Facts

section Steps

variable {p : P} (h : Inv log s)

include h

theorem Inv.goto {c : Pc} (hbusy : c.busy = (s.pc p).busy) (hnew : c.committing = false) : Inv log (s.goto p c) := by
  have hbusy' : ∀ q, ((s.goto p c).pc q).busy = (s.pc q).busy := by
    intro q
    by_cases hq : q = p
    · rw [hq, goto_pc_self, hbusy]
    · rw [goto_pc_of_ne s c hq]
  have hcommit : ∀ q ph, (s.goto p c).pc q = .commit ph → s.pc q = .commit ph := by
    intro q ph hpc
    by_cases hq : q = p
    · rw [hq, goto_pc_self] at hpc
      rw [hpc] at hnew
      exact absurd hnew (by simp [Pc.committing])
    · rwa [goto_pc_of_ne s c hq] at hpc
  refine ⟨?_, ?_, ?_, ?_, ?_, h.stop⟩
  · obtain ⟨crew, hmem, hout⟩ := h.crew
    exact ⟨crew, fun q => by rw [hbusy', hmem], hout⟩
  · intro hcommitting q
    rw [hbusy']
    exact h.calm hcommitting q
  · intro q ph hpc
    exact h.commit q ph (hcommit q ph hpc)
  · intro q r ph ph' hq hr
    exact h.single q r ph ph' (hcommit q ph hq) (hcommit r ph' hr)
  · intro q hq
    rw [hbusy'] at hq
    exact h.used q hq

theorem Inv.crew_leave {c : Pc} (hpc : (s.pc p).busy = true) (hc : c.busy = false) : ∃ crew : Finset P,
      (∀ q, q ∈ crew ↔ ((s.goto p c).pc q).busy = true) ∧ s.outstanding - 1 = crew.card := by
  obtain ⟨crew, hmem, hout⟩ := h.crew
  have hp : p ∈ crew := (hmem p).mpr hpc
  have hcard := Finset.card_erase_add_one hp
  exact ⟨crew.erase p, crew_erase hmem hc, by omega⟩

theorem Inv.enter (hpc : s.pc p = .beginOp) (hcalm : s.committing = false) :
    Inv log { s.goto p .inOp with outstanding := s.outstanding + 1, used := update s.used p ∅ } := by
  have hnone : ∀ q ph, (s.goto p .inOp).pc q ≠ .commit ph :=
    fun q ph hq => Pc.noConfusion (goto_commit (fun q ph _ => h.no_commit hcalm q ph) hq).2
  refine ⟨?_, fun hc => absurd (hcalm.symm.trans hc) Bool.false_ne_true, fun q ph hq => absurd hq (hnone q ph),
    fun q r ph ph' hq => absurd hq (hnone q ph), fun q hq => ?_, h.stop⟩
  · obtain ⟨crew, hmem, hout⟩ := h.crew
    have hp : p ∉ crew := by
      rw [hmem, hpc]
      simp [Pc.busy]
    refine ⟨insert p crew, crew_insert hmem rfl, ?_⟩
    rw [Finset.card_insert_of_notMem hp]
    change s.outstanding + 1 = _
    omega
  · change update s.used p ∅ q ⊆ _
    by_cases hqp : q = p
    · rw [hqp, update_self]
      exact Finset.empty_subset _
    · change ((s.goto p .inOp).pc q).busy = true at hq
      rw [goto_pc_of_ne s _ hqp] at hq
      rw [update_of_ne hqp]
      exact h.used q hq

theorem Inv.record {b : Nat} (hpc : s.pc p = .append b) : Inv log { s.goto p .inOp with
    kernel := { s.kernel with lh := s.kernel.lh.record b }, dirty := update s.dirty b true
    used := update s.used p (insert b (s.used p)) } := by
  have hbusy : (s.pc p).busy = true := by rw [hpc]; rfl
  have hcalm := h.not_committing hbusy
  have hgoto : Inv log (s.goto p .inOp) := h.goto (by rw [hbusy]; rfl) rfl
  refine ⟨hgoto.crew, hgoto.calm, fun q ph hq => absurd hq (hgoto.no_commit hcalm q ph), hgoto.single, fun q hq => ?_,
    h.stop⟩
  change update s.used p (insert b (s.used p)) q ⊆ (s.kernel.lh.record b).blocks
  rw [LogHeader.blocks_record]
  by_cases hqp : q = p
  · rw [hqp, update_self]
    exact Finset.insert_subset_insert b (h.used p hbusy)
  · rw [update_of_ne hqp]
    exact (hgoto.used q hq).trans (Finset.subset_insert b _)

theorem Inv.leave (hpc : s.pc p = .inOp) (hcalm : s.committing = false) :
    Inv log ({ s with outstanding := s.outstanding - 1 }.goto p .idle) := by
  have hnone : ∀ q ph, (s.goto p .idle).pc q ≠ .commit ph :=
    fun q ph hq => Pc.noConfusion (goto_commit (fun q ph _ => h.no_commit hcalm q ph) hq).2
  refine ⟨h.crew_leave (by rw [hpc]; rfl) rfl, fun hc => absurd (hcalm.symm.trans hc) Bool.false_ne_true,
    fun q ph hq => absurd hq (hnone q ph), fun q r ph ph' hq => absurd hq (hnone q ph), fun q hq => ?_, h.stop⟩
  change ((s.goto p .idle).pc q).busy = true at hq
  by_cases hqp : q = p
  · rw [hqp, goto_pc_self] at hq
    exact absurd hq Bool.false_ne_true
  · rw [goto_pc_of_ne s _ hqp] at hq
    exact h.used q hq

/-- The last operation begins the commit: nobody is busy any more. -/
theorem Inv.close (hpc : s.pc p = .inOp) (hcalm : s.committing = false) (hlast : s.outstanding - 1 = 0) :
    Inv log { { s with outstanding := s.outstanding - 1 }.goto p (.commit .start) with
      committing := true, snap := s.kernel } := by
  obtain ⟨crew, hmem, hout⟩ := h.crew_leave (c := .commit .start) (by rw [hpc]; rfl) rfl
  have hempty : crew = ∅ := by
    rw [← Finset.card_eq_zero]
    omega
  have hidle : ∀ q, ((s.goto p (.commit .start)).pc q).busy = false := by
    intro q
    rw [← Bool.not_eq_true, ← hmem, hempty]
    exact Finset.notMem_empty q
  have hsole : ∀ q ph, (s.goto p (.commit .start)).pc q = .commit ph → q = p ∧ Pc.commit .start = .commit ph :=
    fun q ph => goto_commit fun q ph _ => h.no_commit hcalm q ph
  refine ⟨⟨crew, hmem, hout⟩, fun _ => hidle, fun q ph hq => ?_, fun q r ph ph' hq hr => ?_, fun q hq => ?_, h.stop⟩
  · cases (hsole q ph hq).2
    exact ⟨rfl, rfl, trivial⟩
  · exact (hsole q ph hq).1.trans (hsole r ph' hr).1.symm
  · exact absurd ((hidle q).symm.trans hq) Bool.false_ne_true

theorem Inv.commitStep (hpc : s.pc p = .commit ph) (hph : ph ≠ .finish) : Inv log (s.commitStep log p ph) := by
  obtain ⟨hcommitting, hk, hw⟩ := h.commit p ph hpc
  obtain ⟨ph', dirty, hw', hs'⟩ := commitStep_progress hph hk hw
  have hidle : ∀ q, ((s.goto p (.commit ph')).pc q).busy = (s.pc q).busy := by
    intro q
    by_cases hq : q = p
    · rw [hq, goto_pc_self, hpc]
      rfl
    · rw [goto_pc_of_ne s _ hq]
  have hsole : ∀ q r, (s.goto p (.commit ph')).pc q = .commit r → q = p ∧ Pc.commit ph' = .commit r :=
    fun q r => goto_commit fun q r hqp hq => hqp (h.single q p r ph hq hpc)
  rw [hs']
  refine ⟨?_, fun _ q => (hidle q).trans (h.calm hcommitting q), fun q r hq => ?_, fun q r qh rh hq hr => ?_,
    fun q hq => ?_, h.stop⟩
  · obtain ⟨crew, hmem, hout⟩ := h.crew
    exact ⟨crew, fun q => (hmem q).trans (by rw [← hidle q]), hout⟩
  · cases (hsole q r hq).2
    exact ⟨hcommitting, rfl, hw'⟩
  · exact (hsole q qh hq).1.trans (hsole r rh hr).1.symm
  · exact absurd ((h.calm hcommitting q).symm.trans ((hidle q).symm.trans hq)) Bool.false_ne_true

theorem Inv.release (hpc : s.pc p = .commit .finish) : Inv log ({ s with committing := false }.goto p .idle) := by
  obtain ⟨hcommitting, -, -⟩ := h.commit p .finish hpc
  have hidle : ∀ q, ((s.goto p .idle).pc q).busy = false := by
    intro q
    by_cases hq : q = p
    · rw [hq, goto_pc_self]
      rfl
    · rw [goto_pc_of_ne s _ hq]
      exact h.calm hcommitting q
  have hnone : ∀ q ph, (s.goto p .idle).pc q ≠ .commit ph :=
    fun q ph hq => Pc.noConfusion (goto_commit (fun q ph hqp hq => hqp (h.single q p ph .finish hq hpc)) hq).2
  refine ⟨?_, fun _ => hidle, fun q ph hq => absurd hq (hnone q ph), fun q r ph ph' hq => absurd hq (hnone q ph),
    fun q hq => absurd ((hidle q).symm.trans hq) Bool.false_ne_true, h.stop⟩
  obtain ⟨crew, hmem, hout⟩ := h.crew
  refine ⟨crew, fun q => ?_, hout⟩
  rw [hmem, h.calm hcommitting q]
  exact (iff_of_eq (congrArg (· = true) (hidle q))).symm

theorem Inv.step (hstep : s.step log a = some s') : Inv log s' := by
  obtain ⟨-, heffect⟩ := step_effect hstep
  cases heffect with
  | move _ p c _ hbusy _ hnew _ => exact h.goto hbusy hnew
  | enter p hpc hcalm _ => exact h.enter hpc hcalm
  | modify p b data hpc =>
    have hcalm := h.not_committing (by rw [hpc]; rfl)
    exact ⟨h.crew, h.calm, fun q ph hq => absurd hq (h.no_commit hcalm q ph), h.single, h.used, h.stop⟩
  | tooBig p _ _ => exact h.halt Stop.noConfusion Stop.noConfusion
  | outsideTrans p hbusy hnone =>
    have := h.outstanding_pos hbusy
    omega
  | whileCommitting p hbusy hcommitting =>
    exact absurd ((h.not_committing hbusy).symm.trans hcommitting) Bool.false_ne_true
  | blockOverflow p b _ => exact h.halt Stop.noConfusion Stop.noConfusion
  | record p b hpc => exact h.record hpc
  | leave p hpc hcalm _ => exact (h.leave hpc hcalm).wakeup
  | close p hpc hcalm hlast => exact h.close hpc hcalm hlast
  | commit p ph hpc hph => exact h.commitStep hpc hph
  | release p hpc => exact (h.release hpc).wakeup

end Steps

end LogState

end Laboratorio.Xv6Log
