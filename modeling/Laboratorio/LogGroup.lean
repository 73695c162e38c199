import Laboratorio.LogDisk
import Mathlib.Data.Finset.Card
import Mathlib.Data.Finset.Image

/-! The concurrent half of `log.c`: `begin_op`, `log_write` and `end_op` called by any number of
processes, and the commit that the last `end_op` runs without the lock. A section that holds `log.lock`
is one step; the tests of `log_write` before `acquire` and the block writes of `commit` are steps of
their own, so that other processes can run between any two of them. -/

namespace Laboratorio.Xv6Log

open Function

/-! ### The in-memory header -/

variable {lh : LogHeader} {b : Nat}

namespace LogHeader

/-- Where the scan of `log_write` stops: at block `b`, or past the last entry. -/
def slot (lh : LogHeader) (b : Nat) : Nat :=
  ((List.range lh.n).find? fun i => lh.block i == b).getD lh.n

def record (lh : LogHeader) (b : Nat) : LogHeader where
  n := if lh.slot b = lh.n then lh.n + 1 else lh.n
  block := update lh.block (lh.slot b) b

def blocks (lh : LogHeader) : Finset Nat := (Finset.range lh.n).image lh.block

theorem mem_blocks : b ∈ lh.blocks ↔ ∃ i < lh.n, lh.block i = b := by
  simp only [blocks, Finset.mem_image, Finset.mem_range]

theorem slot_cases (lh : LogHeader) (b : Nat) :
    (lh.slot b < lh.n ∧ lh.block (lh.slot b) = b) ∨ (lh.slot b = lh.n ∧ b ∉ lh.blocks) := by
  cases hfind : (List.range lh.n).find? fun i => lh.block i == b with
  | none =>
    refine Or.inr ⟨by rw [slot, hfind, Option.getD_none], ?_⟩
    intro hmem
    obtain ⟨i, hi, hb⟩ := mem_blocks.mp hmem
    have hnot := List.find?_eq_none.mp hfind i (List.mem_range.mpr hi)
    exact hnot (beq_iff_eq.mpr hb)
  | some i =>
    have hslot : lh.slot b = i := by rw [slot, hfind, Option.getD_some]
    have hblock : (lh.block i == b) = true := List.find?_some (p := fun i => lh.block i == b) hfind
    rw [hslot]
    exact Or.inl ⟨List.mem_range.mp (List.mem_of_find?_eq_some hfind), beq_iff_eq.mp hblock⟩

theorem record_of_mem (h : b ∈ lh.blocks) : lh.record b = lh := by
  rcases lh.slot_cases b with ⟨hlt, hblock⟩ | ⟨-, hnot⟩
  · simp only [record, Nat.ne_of_lt hlt, if_false]
    congr 1
    exact update_eq_self_iff.mpr hblock.symm
  · exact absurd h hnot

theorem slot_of_notMem (h : b ∉ lh.blocks) : lh.slot b = lh.n := by
  rcases lh.slot_cases b with ⟨hlt, hblock⟩ | ⟨heq, -⟩
  · exact absurd (mem_blocks.mpr ⟨_, hlt, hblock⟩) h
  · exact heq

theorem record_of_notMem (h : b ∉ lh.blocks) :
    lh.record b = { n := lh.n + 1, block := update lh.block lh.n b } := by
  simp only [record, slot_of_notMem h, if_true]

theorem blocks_record (lh : LogHeader) (b : Nat) : (lh.record b).blocks = insert b lh.blocks := by
  by_cases h : b ∈ lh.blocks
  · rw [record_of_mem h, Finset.insert_eq_of_mem h]
  · have hold : (Finset.range lh.n).image (update lh.block lh.n b) = lh.blocks := by
      apply Finset.image_congr
      intro i hi
      exact update_of_ne (Nat.ne_of_lt (Finset.mem_range.mp hi)) _ _
    rw [record_of_notMem h, blocks]
    dsimp only
    rw [Finset.range_add_one, Finset.image_insert, update_self, hold]

end LogHeader

/-! ### Processes -/

/-- The next step of a process inside `commit`. -/
inductive Phase where
  | start
  | writeLog (tail : Nat)
  | writeHead
  | installTrans (tail : Nat)
  | clear
  | erase
  | finish
  deriving DecidableEq

inductive Pc where
  | idle
  /-- At the top of the loop of `begin_op`. -/
  | beginOp
  /-- In `sleep(&log, &log.lock)`. -/
  | asleep
  /-- Between `begin_op` and `end_op`. -/
  | inOp
  /-- In `log_write(b)`, at the first half of the first test, its second half, the second test, and the
  locked section. -/
  | testSize (b : Nat)
  | testArea (b : Nat)
  | testTrans (b : Nat)
  | append (b : Nat)
  | commit (ph : Phase)
  deriving DecidableEq

/-- Between `begin_op` and `end_op`, inside `log_write` or not. -/
def Pc.busy : Pc → Bool
  | .inOp | .testSize _ | .testArea _ | .testTrans _ | .append _ => true
  | _ => false

def Pc.committing : Pc → Bool
  | .commit _ => true
  | _ => false

/-- How a run stops: the panics of `log.c`, and a store past the end of `log.lh.block`. -/
inductive Stop where
  | tooBig
  | outsideTrans
  | committing
  | blockOverflow
  deriving DecidableEq

/-- `used p` holds the blocks that the current operation of `p` has logged and `snap` the kernel when
the last commit started; the code has neither. -/
structure LogState (P : Type) where
  kernel : Kernel
  outstanding : Int
  committing : Bool
  dirty : Nat → Bool
  pc : P → Pc
  stop : Option Stop
  used : P → Finset Nat
  snap : Kernel

inductive Act (P : Type) where
  /-- `begin_op` is called. -/
  | call (p : P)
  /-- One turn of the loop of `begin_op`. -/
  | test (p : P)
  /-- `kill` makes a sleeper runnable. -/
  | wake (p : P)
  /-- The caller changes a buffer that it is about to log. -/
  | modify (p : P) (b : Nat) (data : Block)
  /-- `log_write` is called. -/
  | logWrite (p : P) (b : Nat)
  /-- The next step of `log_write` or of `commit`. -/
  | advance (p : P)
  /-- The first locked section of `end_op`. -/
  | endOp (p : P)

def Act.proc {P : Type} : Act P → P
  | .call p | .test p | .wake p | .modify p _ _ | .logWrite p _ | .advance p | .endOp p => p

namespace LogState

variable {P : Type} [DecidableEq P]

section

variable (s : LogState P)

def goto (p : P) (c : Pc) : LogState P := { s with pc := update s.pc p c }

def halt (r : Stop) : LogState P := { s with stop := some r }

def wakeup : LogState P :=
  { s with pc := fun p => if s.pc p = .asleep then .beginOp else s.pc p }

def setKernel (k : Kernel) : LogState P := { s with kernel := k }

def bwrite (b : Nat) (data : Block) : LogState P :=
  { s with kernel := s.kernel.bwrite b data, dirty := update s.dirty b false }

def beginOp (p : P) : LogState P :=
  if s.committing then s.goto p .asleep
  else if s.kernel.lh.n + (s.outstanding + 1) * MAXOPBLOCKS > LOGSIZE then s.goto p .asleep
  else { s.goto p .inOp with
    outstanding := s.outstanding + 1
    used := update s.used p ∅ }

def endOp (p : P) : LogState P :=
  let s := { s with outstanding := s.outstanding - 1 }
  if s.committing then s.halt .committing
  else if s.outstanding = 0 then
    { s.goto p (.commit .start) with committing := true, snap := s.kernel }
  else (s.goto p .idle).wakeup

/-- The locked section of `log_write`. -/
def append (p : P) (b : Nat) : LogState P :=
  if s.kernel.lh.slot b ≥ LOGSIZE then s.halt .blockOverflow
  else { s.goto p .inOp with
    kernel := { s.kernel with lh := s.kernel.lh.record b }
    dirty := update s.dirty b true
    used := update s.used p (insert b (s.used p)) }

end

def commitStep (log : Log) (s : LogState P) (p : P) : Phase → LogState P
  | .start => s.goto p (.commit (if 0 < s.kernel.lh.n then .writeLog 0 else .finish))
  | .writeLog tail =>
    if tail < s.kernel.lh.n then
      (s.bwrite (log.start + tail + 1) (s.kernel.bread (s.kernel.lh.block tail))).goto p
        (.commit (.writeLog (tail + 1)))
    else s.goto p (.commit .writeHead)
  | .writeHead =>
    (s.bwrite log.start (headBlock (s.kernel.bread log.start) s.kernel.lh)).goto p
      (.commit (.installTrans 0))
  | .installTrans tail =>
    if tail < s.kernel.lh.n then
      (s.bwrite (s.kernel.lh.block tail) (s.kernel.bread (log.start + tail + 1))).goto p
        (.commit (.installTrans (tail + 1)))
    else s.goto p (.commit .clear)
  | .clear => (s.setKernel (clearLog s.kernel)).goto p (.commit .erase)
  | .erase =>
    (s.bwrite log.start (headBlock (s.kernel.bread log.start) s.kernel.lh)).goto p (.commit .finish)
  | .finish => ({ s with committing := false }.goto p .idle).wakeup

def advance (log : Log) (s : LogState P) (p : P) : Option (LogState P) :=
  match s.pc p with
  | .testSize b => some (if s.kernel.lh.n ≥ LOGSIZE then s.halt .tooBig else s.goto p (.testArea b))
  | .testArea b =>
    some (if (s.kernel.lh.n : Int) ≥ log.size - 1 then s.halt .tooBig else s.goto p (.testTrans b))
  | .testTrans b => some (if s.outstanding < 1 then s.halt .outsideTrans else s.goto p (.append b))
  | .append b => some (s.append p b)
  | .commit ph => some (s.commitStep log p ph)
  | _ => none

def step (log : Log) (s : LogState P) (a : Act P) : Option (LogState P) :=
  if s.stop.isSome then none
  else match a with
    | .call p => if s.pc p = .idle then some (s.goto p .beginOp) else none
    | .test p => if s.pc p = .beginOp then some (s.beginOp p) else none
    | .wake p => if s.pc p = .asleep then some (s.goto p .beginOp) else none
    | .modify p b data =>
      if s.pc p = .inOp then
        some (s.setKernel { s.kernel with cache := update s.kernel.cache b data })
      else none
    | .logWrite p b => if s.pc p = .inOp then some (s.goto p (.testSize b)) else none
    | .advance p => s.advance log p
    | .endOp p => if s.pc p = .inOp then some (s.endOp p) else none

def initial (P : Type) (k : Kernel) : LogState P where
  kernel := clearLog k
  outstanding := 0
  committing := false
  dirty := fun _ => false
  pc := fun _ => .idle
  stop := none
  used := fun _ => ∅
  snap := k

end LogState

end Laboratorio.Xv6Log
