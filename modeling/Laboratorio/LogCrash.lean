import Laboratorio.LogDisk

/-! Crash atomicity of the redo log. A run is a list of transactions, each committed in full or cut off
after some of its block writes; a cut-off commit is followed by recoveries, all but the last of which
are cut off too. Two descriptions of the disk carry the argument: `Clean`, where the header records no
transaction, and `Committed`, where it records one whose blocks are in the log area. Every single block
write of `commit` and of `recover_from_log` leaves one of the two. -/

namespace Laboratorio.Xv6Log

open Function

variable {log : Log}

/-- The blocks of one transaction and the contents `log_write` left for them in the cache. The bound
by `LOGSIZE` is the length of `log.lh.block`. -/
structure Tx (log : Log) where
  lh : LogHeader
  data : Nat → Block
  pos : 0 < lh.n
  le_size : lh.n ≤ log.size - 1
  le_logsize : lh.n ≤ LOGSIZE
  uint : ∀ i < lh.n, lh.block i < 2 ^ 32
  distinct : ∀ i < lh.n, ∀ j < lh.n, lh.block i = lh.block j → i = j
  home : ∀ i < lh.n, log.Home (lh.block i)

namespace Tx

def homeWrites (tx : Tx log) : List (Nat × Block) := loopWrites tx.lh.block tx.data tx.lh.n

/-- The writes that copy the transaction to the log area. -/
def logWrites (tx : Tx log) : List (Nat × Block) :=
  loopWrites (fun tail => log.start + tail + 1) tx.data tx.lh.n

def after (tx : Tx log) (d : Disk) : Disk := writeAll d tx.homeWrites

/-- The kernel when the last `end_op` calls `commit`: the blocks are modified in the cache only. -/
def load (tx : Tx log) (k : Kernel) : Kernel :=
  { cache := writeAll k.cache tx.homeWrites, lh := tx.lh, writes := [] }

end Tx

/-- Recoveries cut off after the given numbers of block writes, then one that completes. -/
def recoveries (log : Log) (d : Disk) : List Nat → Option (Disk × Kernel)
  | [] => (recoverFromLog log (Kernel.boot d)).map fun k => (writeAll d k.writes, k)
  | r :: rs => (recoverFromLog log (Kernel.boot d)).bind fun k =>
    recoveries log (writeAll d (k.writes.take r)) rs

inductive Event (log : Log) where
  | commit (tx : Tx log)
  | crash (tx : Tx log) (j : Nat) (rs : List Nat)

/-- `Event.crash tx j rs`: power fails after `j` block writes of the commit. -/
def event : Disk × Kernel → Event log → Option (Disk × Kernel)
  | (d, k), .commit tx =>
    let k := commit log (tx.load k)
    some (writeAll d k.writes, k)
  | (d, k), .crash tx j rs =>
    recoveries log (writeAll d ((commit log (tx.load k)).writes.take j)) rs

def run (log : Log) (d : Disk) (events : List (Event log)) : Option (Disk × Kernel) :=
  events.foldlM event (d, Kernel.boot d)

/-- The disk after the first `j` block writes of a commit, and then a completed recovery. -/
def afterCrash (d : Disk) (k : Kernel) (tx : Tx log) (j : Nat) (rs : List Nat) : Option Disk :=
  (event (d, k) (.crash tx j rs)).map Prod.fst

/-- The first `write_head` of the commit is among its first `j` block writes. -/
def HeadReached (k : Kernel) (tx : Tx log) (j : Nat) : Prop :=
  (writeHead log (writeLog log (tx.load k))).writes.length ≤ j

/-- The header records no transaction, and the home blocks are those of `a`. -/
structure Clean (log : Log) (d a : Disk) : Prop where
  head : headN (d log.start) = 0
  home : ∀ b, log.Home b → d b = a b

/-- The header records `tx`, whose blocks are in the log area; the other home blocks are those of
`a`. -/
structure Committed (d a : Disk) (tx : Tx log) : Prop where
  head : headN (d log.start) = tx.lh.n
  entries : ∀ i < tx.lh.n, headEntry (d log.start) i = tx.lh.block i
  blocks : ∀ i < tx.lh.n, d (log.start + i + 1) = tx.data i
  home : ∀ b, log.Home b → (∀ i < tx.lh.n, tx.lh.block i ≠ b) → d b = a b

variable {b : Nat}

namespace Tx

theorem home_ne_start (tx : Tx log) (h : log.Home b) : b ≠ log.start := by
  have := tx.pos
  have := tx.le_size
  unfold Log.Home at h
  omega

theorem home_ne_log (tx : Tx log) {i : Nat} (h : log.Home b) (hi : i < tx.lh.n) :
    b ≠ log.start + i + 1 := by
  have := tx.le_size
  unfold Log.Home at h
  omega

variable (tx : Tx log)

theorem after_block (d : Disk) {i : Nat} (hi : i < tx.lh.n) : tx.after d (tx.lh.block i) = tx.data i :=
  writeAll_loop d tx.distinct hi

theorem after_off (d : Disk) (h : ∀ i < tx.lh.n, tx.lh.block i ≠ b) : tx.after d b = d b :=
  writeAll_loop_off d h

theorem after_start (d : Disk) : tx.after d log.start = d log.start :=
  tx.after_off d fun _ hi => tx.home_ne_start (tx.home _ hi)

theorem logWrites_block (d : Disk) {i : Nat} (hi : i < tx.lh.n) :
    writeAll d tx.logWrites (log.start + i + 1) = tx.data i := by
  apply writeAll_loop d _ hi
  intro i _ j _ hij
  omega

theorem logWrites_off (d : Disk) (h : ∀ i < tx.lh.n, b ≠ log.start + i + 1) :
    writeAll d tx.logWrites b = d b :=
  writeAll_loop_off d fun i hi => (h i hi).symm

def head (d : Disk) : Block := headBlock (d log.start) tx.lh

def clearHead (d : Disk) : Block := headBlock (tx.head d) { tx.lh with n := 0 }

def commitWrites (d : Disk) : List (Nat × Block) :=
  tx.logWrites ++ ((log.start, tx.head d) :: (tx.homeWrites ++ [(log.start, tx.clearHead d)]))

theorem writeLog_load (k : Kernel) : writeLog log (tx.load k) =
    { cache := writeAll (tx.after k.cache) tx.logWrites, lh := tx.lh, writes := tx.logWrites } := by
  have hsrc : loopWrites (fun tail => log.start + tail + 1) (fun i => tx.after k.cache (tx.lh.block i))
      tx.lh.n = tx.logWrites := loopWrites_congr (fun _ _ => rfl) fun i hi => tx.after_block k.cache hi
  have hne : ∀ i < tx.lh.n, ∀ j < tx.lh.n, tx.lh.block i ≠ log.start + j + 1 :=
    fun i hi j hj => tx.home_ne_log (tx.home i hi) hj
  rw [← hsrc]
  exact copyBlocks_eq (tx.load k) hne

theorem writeHead_load (k : Kernel) : writeHead log (writeLog log (tx.load k)) =
    { cache := writeAll (tx.after k.cache) (tx.logWrites ++ [(log.start, tx.head k.cache)])
      lh := tx.lh
      writes := tx.logWrites ++ [(log.start, tx.head k.cache)] } := by
  have hstart : writeAll (tx.after k.cache) tx.logWrites log.start = k.cache log.start := by
    rw [tx.logWrites_off _ (fun i _ => by omega), tx.after_start]
  rw [tx.writeLog_load, writeAll_append, writeAll_singleton]
  simp only [writeHead, Kernel.bwrite, Kernel.bread, hstart, head]

theorem commit_load (k : Kernel) : commit log (tx.load k) =
    { cache := writeAll (tx.after k.cache) (tx.commitWrites k.cache)
      lh := { tx.lh with n := 0 }
      writes := tx.commitWrites k.cache } := by
  have hne : ∀ i < tx.lh.n, ∀ j < tx.lh.n, log.start + i + 1 ≠ tx.lh.block j :=
    fun i hi j hj => (tx.home_ne_log (tx.home j hj) hi).symm
  have hsrc : loopWrites tx.lh.block (fun i => writeAll (tx.after k.cache)
      (tx.logWrites ++ [(log.start, tx.head k.cache)]) (log.start + i + 1)) tx.lh.n =
      tx.homeWrites := by
    apply loopWrites_congr (fun _ _ => rfl)
    intro i hi
    rw [writeAll_append, writeAll_singleton, update_of_ne (by omega),
      tx.logWrites_block _ hi]
  have hinstall : installTrans log (writeHead log (writeLog log (tx.load k))) =
      { cache := writeAll (tx.after k.cache)
          (tx.logWrites ++ [(log.start, tx.head k.cache)] ++ tx.homeWrites)
        lh := tx.lh
        writes := tx.logWrites ++ [(log.start, tx.head k.cache)] ++ tx.homeWrites } := by
    rw [tx.writeHead_load, writeAll_append _ _ tx.homeWrites, ← hsrc]
    exact copyBlocks_eq _ hne
  have hstart : writeAll (tx.after k.cache)
      (tx.logWrites ++ [(log.start, tx.head k.cache)] ++ tx.homeWrites) log.start =
      tx.head k.cache := by
    rw [writeAll_append]
    change tx.after _ log.start = _
    rw [tx.after_start, writeAll_append, writeAll_singleton, update_self]
  have hcommit : commit log (tx.load k) =
      writeHead log (clearLog (installTrans log (writeHead log (writeLog log (tx.load k))))) :=
    if_pos tx.pos
  have hlist : tx.commitWrites k.cache = tx.logWrites ++ [(log.start, tx.head k.cache)] ++
      tx.homeWrites ++ [(log.start, tx.clearHead k.cache)] := by
    simp only [commitWrites, List.append_assoc, List.cons_append, List.nil_append]
  rw [hcommit, hinstall, hlist, writeAll_append _ _ [(log.start, tx.clearHead k.cache)],
    writeAll_singleton]
  simp only [writeHead, clearLog, Kernel.bwrite, Kernel.bread, hstart, clearHead]

end Tx

variable {d a : Disk}

theorem Clean.cut (h : Clean log d a) (tx : Tx log) (j : Nat) :
    Clean log (writeAll d (tx.logWrites.take j)) a := by
  have hoff : ∀ b, (∀ i < tx.lh.n, b ≠ log.start + i + 1) →
      writeAll d (tx.logWrites.take j) b = d b := by
    intro b hb
    apply writeAll_of_notMem
    intro w hw
    obtain ⟨i, hi, rfl⟩ := mem_loopWrites (List.mem_of_mem_take hw)
    exact (hb i hi).symm
  refine ⟨?_, ?_⟩
  · rw [hoff log.start (fun i _ => by omega)]
    exact h.head
  · intro b hb
    rw [hoff b (fun i hi => tx.home_ne_log hb hi)]
    exact h.home b hb

/-- The header write is the commit point; installing any number of blocks after it changes nothing
that a recovery looks at. -/
theorem Clean.committed (h : Clean log d a) (tx : Tx log) (m : Nat) :
    Committed (writeAll d (tx.logWrites ++ (log.start, tx.head d) :: tx.homeWrites.take m)) a tx := by
  have hlog : ∀ b, (∀ i < tx.lh.n, tx.lh.block i ≠ b) →
      writeAll d (tx.logWrites ++ (log.start, tx.head d) :: tx.homeWrites.take m) b =
        update (writeAll d tx.logWrites) log.start (tx.head d) b := by
    intro b hb
    rw [writeAll_append]
    apply writeAll_of_notMem (update (writeAll d tx.logWrites) log.start (tx.head d))
    intro w hw
    obtain ⟨i, hi, rfl⟩ := mem_loopWrites (List.mem_of_mem_take hw)
    exact hb i hi
  have hstart : writeAll d (tx.logWrites ++ (log.start, tx.head d) :: tx.homeWrites.take m)
      log.start = tx.head d := by
    rw [hlog log.start (fun i hi => tx.home_ne_start (tx.home i hi)), update_self]
  refine ⟨?_, ?_, ?_, ?_⟩
  · rw [hstart]
    exact headN_headBlock _ tx.le_logsize
  · intro i hi
    rw [hstart]
    exact headEntry_headBlock _ tx.le_logsize hi (tx.uint i hi)
  · intro i hi
    rw [hlog _ (fun l hl => tx.home_ne_log (tx.home l hl) hi), update_of_ne (by omega)]
    exact tx.logWrites_block d hi
  · intro b hb hne
    rw [hlog b hne, update_of_ne (tx.home_ne_start hb),
      tx.logWrites_off d (fun i hi => tx.home_ne_log hb hi)]
    exact h.home b hb

variable {tx : Tx log}

theorem Committed.clean (h : Committed d a tx) {hb : Block} (hzero : headN hb = 0) :
    Clean log (writeAll d (tx.homeWrites ++ [(log.start, hb)])) (tx.after a) := by
  refine ⟨?_, ?_⟩
  · rw [writeAll_append, writeAll_singleton, update_self]
    exact hzero
  intro b hb
  rw [writeAll_append, writeAll_singleton, update_of_ne (tx.home_ne_start hb)]
  change tx.after d b = tx.after a b
  by_cases hin : ∃ i < tx.lh.n, tx.lh.block i = b
  · obtain ⟨i, hi, rfl⟩ := hin
    rw [tx.after_block d hi, tx.after_block a hi]
  · have hne : ∀ i < tx.lh.n, tx.lh.block i ≠ b := fun i hi heq => hin ⟨i, hi, heq⟩
    rw [tx.after_off d hne, tx.after_off a hne]
    exact h.home b hb hne

theorem Committed.cut (h : Committed d a tx) (r : Nat) :
    Committed (writeAll d (tx.homeWrites.take r)) a tx := by
  have hoff : ∀ b, (∀ i < tx.lh.n, tx.lh.block i ≠ b) →
      writeAll d (tx.homeWrites.take r) b = d b := by
    intro b hb
    apply writeAll_of_notMem
    intro w hw
    obtain ⟨i, hi, rfl⟩ := mem_loopWrites (List.mem_of_mem_take hw)
    exact hb i hi
  have hstart := hoff log.start fun i hi => tx.home_ne_start (tx.home i hi)
  refine ⟨?_, ?_, ?_, ?_⟩
  · rw [hstart]
    exact h.head
  · intro i hi
    rw [hstart]
    exact h.entries i hi
  · intro i hi
    rw [hoff _ (fun l hl => tx.home_ne_log (tx.home l hl) hi)]
    exact h.blocks i hi
  · intro b hb hne
    rw [hoff b hne]
    exact h.home b hb hne

theorem recover_clean (h : Clean log d a) :
    ∃ k hb, recoverFromLog log (Kernel.boot d) = some k ∧ k.writes = [(log.start, hb)] ∧
      k.cache = writeAll d k.writes ∧ headN hb = 0 := by
  have hread : readHead log (Kernel.boot d) = some (Kernel.boot d) := by
    simp only [readHead, Kernel.bread, Kernel.boot, h.head, Nat.zero_le, if_true, Nat.not_lt_zero,
      if_false]
  refine ⟨writeHead log (clearLog (installTrans log (Kernel.boot d))), _, ?_, rfl, rfl, ?_⟩
  · rw [recoverFromLog, hread]
    rfl
  · exact headN_headBlock _ (Nat.zero_le LOGSIZE)

theorem recover_committed (h : Committed d a tx) :
    ∃ k hb, recoverFromLog log (Kernel.boot d) = some k ∧
      k.writes = tx.homeWrites ++ [(log.start, hb)] ∧ k.cache = writeAll d k.writes ∧ headN hb = 0 := by
  obtain ⟨lh, hn, hblock, hread⟩ : ∃ lh : LogHeader, lh.n = tx.lh.n ∧
      (∀ i < tx.lh.n, lh.block i = tx.lh.block i) ∧
      readHead log (Kernel.boot d) = some { cache := d, lh := lh, writes := [] } := by
    refine ⟨{ n := tx.lh.n, block := fun i => if i < tx.lh.n then headEntry (d log.start) i else 0 },
      rfl, ?_, ?_⟩
    · intro i hi
      simp only [hi, if_true]
      exact h.entries i hi
    · simp only [readHead, Kernel.bread, Kernel.boot, h.head, tx.le_logsize, if_true]
  have hne : ∀ i < lh.n, ∀ j < lh.n, log.start + i + 1 ≠ lh.block j := by
    intro i hi j hj
    rw [hn] at hi hj
    rw [hblock j hj]
    exact (tx.home_ne_log (tx.home j hj) hi).symm
  have hinstall := copyBlocks_eq { cache := d, lh := lh, writes := [] } hne
  have hwrites : loopWrites lh.block (fun i => d (log.start + i + 1)) lh.n = tx.homeWrites := by
    rw [hn]
    exact loopWrites_congr hblock h.blocks
  simp only [hwrites, List.nil_append] at hinstall
  refine ⟨writeHead log (clearLog (installTrans log { cache := d, lh := lh, writes := [] })),
    headBlock (writeAll d tx.homeWrites log.start) { lh with n := 0 }, ?_, ?_, ?_, ?_⟩
  · rw [recoverFromLog, hread]
    rfl
  · simp only [installTrans, hinstall, writeHead, clearLog, Kernel.bwrite, Kernel.bread]
  · simp only [installTrans, hinstall, writeHead, clearLog, Kernel.bwrite, Kernel.bread,
      writeAll_append, writeAll_singleton]
  · exact headN_headBlock _ (Nat.zero_le LOGSIZE)

theorem Clean.head_write (h : Clean log d a) (tx : Tx log) {hb : Block}
    (hzero : headN hb = 0) (r : Nat) : Clean log (writeAll d ([(log.start, hb)].take r)) a := by
  cases r with
  | zero => exact h
  | succ r =>
    rw [List.take_of_length_le (by simp), writeAll_singleton]
    refine ⟨?_, ?_⟩
    · rw [update_self]
      exact hzero
    · intro b hb
      rw [update_of_ne (tx.home_ne_start hb)]
      exact h.home b hb

theorem recoveries_clean (tx : Tx log) (rs : List Nat) (h : Clean log d a) :
    ∃ d' k, recoveries log d rs = some (d', k) ∧ Clean log d' a ∧ k.cache = d' := by
  induction rs generalizing d with
  | nil =>
    obtain ⟨k, hb, hrec, hwrites, hcache, hzero⟩ := recover_clean h
    refine ⟨writeAll d k.writes, k, ?_, ?_, hcache⟩
    · rw [recoveries, hrec]
      rfl
    · rw [hwrites]
      exact h.head_write tx hzero 1
  | cons r rs ih =>
    obtain ⟨k, hb, hrec, hwrites, -, hzero⟩ := recover_clean h
    have hnext := ih (h.head_write tx hzero r)
    rw [← hwrites] at hnext
    rw [recoveries, hrec]
    exact hnext

theorem recoveries_committed (rs : List Nat) (h : Committed d a tx) :
    ∃ d' k, recoveries log d rs = some (d', k) ∧ Clean log d' (tx.after a) ∧ k.cache = d' := by
  induction rs generalizing d with
  | nil =>
    obtain ⟨k, hb, hrec, hwrites, hcache, hzero⟩ := recover_committed h
    refine ⟨writeAll d k.writes, k, ?_, ?_, hcache⟩
    · rw [recoveries, hrec]
      rfl
    · rw [hwrites]
      exact h.clean hzero
  | cons r rs ih =>
    obtain ⟨k, hb, hrec, hwrites, -, hzero⟩ := recover_committed h
    rw [recoveries, hrec]
    change ∃ d' k', recoveries log (writeAll d (k.writes.take r)) rs = some (d', k') ∧ _
    rw [hwrites]
    by_cases hr : r ≤ tx.homeWrites.length
    · rw [List.take_append_of_le_length hr]
      exact ih (h.cut r)
    · rw [List.take_of_length_le (by simp only [List.length_append, List.length_singleton]; omega)]
      exact recoveries_clean tx rs (h.clean hzero)

theorem headReached_iff (k : Kernel) (tx : Tx log) (j : Nat) :
    HeadReached k tx j ↔ tx.lh.n < j := by
  rw [HeadReached, tx.writeHead_load, List.length_append, List.length_singleton, Tx.logWrites,
    length_loopWrites, Nat.succ_le_iff]

theorem Clean.commit (h : Clean log d a) (tx : Tx log) :
    Clean log (writeAll d (tx.commitWrites d)) (tx.after a) := by
  have hlist : tx.commitWrites d =
      (tx.logWrites ++ (log.start, tx.head d) :: tx.homeWrites.take 0) ++
        (tx.homeWrites ++ [(log.start, tx.clearHead d)]) := by
    simp only [Tx.commitWrites, List.take_zero, List.append_assoc, List.cons_append,
      List.nil_append]
  rw [hlist, writeAll_append]
  exact (h.committed tx 0).clean (headN_headBlock _ (Nat.zero_le LOGSIZE))

/-- A commit cut off after `j` block writes, and then recovered: old contents up to the header write,
new contents from it on. -/
theorem Clean.crash (h : Clean log d a) (tx : Tx log) (j : Nat) (rs : List Nat) :
    ∃ d' k, recoveries log (writeAll d ((tx.commitWrites d).take j)) rs = some (d', k) ∧
      Clean log d' (if tx.lh.n < j then tx.after a else a) ∧ k.cache = d' := by
  have hlen : tx.logWrites.length = tx.lh.n := length_loopWrites _
  have hlenHome : tx.homeWrites.length = tx.lh.n := length_loopWrites _
  by_cases hj : tx.lh.n < j
  · rw [if_pos hj]
    obtain ⟨m, rfl⟩ := Nat.exists_eq_add_of_lt hj
    have htake : (tx.commitWrites d).take (tx.lh.n + m + 1) = tx.logWrites ++ (log.start, tx.head d) ::
        (tx.homeWrites ++ [(log.start, tx.clearHead d)]).take m := by
      rw [Tx.commitWrites, List.take_append, hlen, List.take_of_length_le (by omega),
        show tx.lh.n + m + 1 - tx.lh.n = m + 1 by omega, List.take_succ_cons]
    by_cases hm : m ≤ tx.lh.n
    · rw [htake, List.take_append_of_le_length (by omega)]
      exact recoveries_committed rs (h.committed tx m)
    · rw [htake, List.take_of_length_le (by rw [List.length_append, hlenHome]; simp; omega)]
      exact recoveries_clean tx rs (h.commit tx)
  · rw [if_neg hj]
    rw [Tx.commitWrites, List.take_append_of_le_length (by omega)]
    exact recoveries_clean tx rs (h.cut tx j)

/-- The abstract disk: a transaction happens as a whole or not at all. -/
def Event.apply (a : Disk) : Event log → Disk
  | .commit tx => tx.after a
  | .crash tx j _ => if tx.lh.n < j then tx.after a else a

/-- Between events the cache holds nothing that is not on the disk. -/
structure Settled (log : Log) (s : Disk × Kernel) (a : Disk) : Prop where
  clean : Clean log s.1 a
  cache : s.2.cache = s.1

theorem Settled.event {s : Disk × Kernel} (h : Settled log s a) (e : Event log) :
    ∃ s', event s e = some s' ∧ Settled log s' (e.apply a) := by
  obtain ⟨d, k⟩ := s
  obtain ⟨hclean, hcache⟩ := h
  simp only at hclean hcache
  cases e with
  | commit tx =>
    refine ⟨_, rfl, ?_, ?_⟩
    · rw [tx.commit_load, hcache]
      exact hclean.commit tx
    rw [tx.commit_load, hcache]
    apply writeAll_congr
    intro b hb
    apply tx.after_off
    intro i hi
    have hmem : (tx.lh.block i, tx.data i) ∈ tx.homeWrites :=
      List.mem_map.mpr ⟨i, List.mem_range.mpr hi, rfl⟩
    exact hb (tx.lh.block i, tx.data i) (by simp [Tx.commitWrites, hmem])
  | crash tx j rs =>
    obtain ⟨d', k', hrec, hclean', hcache'⟩ := hclean.crash tx j rs
    refine ⟨(d', k'), ?_, hclean', hcache'⟩
    rw [Xv6Log.event, tx.commit_load, hcache]
    exact hrec

theorem run_settled (h : headN (d log.start) = 0) (events : List (Event log)) :
    ∃ s, run log d events = some s ∧ Settled log s (events.foldl Event.apply d) := by
  have hrun : ∀ (events : List (Event log)) (s : Disk × Kernel) (a : Disk), Settled log s a →
      ∃ s', events.foldlM Xv6Log.event s = some s' ∧
        Settled log s' (events.foldl Event.apply a) := by
    intro events
    induction events with
    | nil => exact fun s a hs => ⟨s, rfl, hs⟩
    | cons e events ih =>
      intro s a hs
      obtain ⟨s₁, hevent, hs₁⟩ := hs.event e
      obtain ⟨s₂, hrest, hs₂⟩ := ih s₁ _ hs₁
      refine ⟨s₂, ?_, hs₂⟩
      rw [List.foldlM_cons, hevent]
      exact hrest
  exact hrun events (d, Kernel.boot d) d ⟨⟨h, fun _ _ => rfl⟩, rfl⟩

/-- After any run, a commit cut off anywhere and recovered leaves either all the new contents, exactly
when its header reached the disk, or the old ones, and an empty log. -/
theorem commit_crash_atomic {d₀ : Disk} (h : headN (d₀ log.start) = 0) (events : List (Event log)) :
    ∃ d k, run log d₀ events = some (d, k) ∧ ∀ (tx : Tx log) (j : Nat) (rs : List Nat),
      ∃ d', afterCrash d k tx j rs = some d' ∧ headN (d' log.start) = 0 ∧
        (HeadReached k tx j → ∀ b, log.Home b → d' b = tx.after d b) ∧
        (¬HeadReached k tx j → ∀ b, log.Home b → d' b = d b) := by
  obtain ⟨⟨d, k⟩, hrun, hclean, hcache⟩ := run_settled h events
  have hsettled : Settled log (d, k) d := ⟨⟨hclean.head, fun _ _ => rfl⟩, hcache⟩
  refine ⟨d, k, hrun, fun tx j rs => ?_⟩
  obtain ⟨⟨d', k'⟩, hevent, hclean', -⟩ := hsettled.event (.crash tx j rs)
  refine ⟨d', ?_, hclean'.head, ?_, ?_⟩
  · rw [afterCrash, hevent]
    rfl
  · intro hreached b hb
    rw [headReached_iff] at hreached
    have hhome := hclean'.home b hb
    rwa [Event.apply, if_pos hreached] at hhome
  · intro hreached b hb
    rw [headReached_iff] at hreached
    have hhome := hclean'.home b hb
    rwa [Event.apply, if_neg hreached] at hhome

def twoBlocks : Tx mkfsLog where
  lh := { n := 2, block := fun i => 40 + i }
  data := fun _ _ => 1
  pos := by decide
  le_size := by decide
  le_logsize := by decide
  uint := by decide
  distinct := by decide
  home := fun i _ => Or.inr (Nat.le_add_right_of_le (by decide))

theorem commit_crash_atomic_twoBlocks : ∃ d k d', run mkfsLog zeroDisk
    [.crash twoBlocks 2 [1], .commit twoBlocks] = some (d, k) ∧
    afterCrash d k twoBlocks 3 [0, 2] = some d' ∧ d' 40 = twoBlocks.after d 40 := by
  have hzero : headN (zeroDisk mkfsLog.start) = 0 := by decide
  obtain ⟨d, k, hrun, hcrash⟩ :=
    commit_crash_atomic hzero [.crash twoBlocks 2 [1], .commit twoBlocks]
  obtain ⟨d', hafter, -, hnew, -⟩ := hcrash twoBlocks 3 [0, 2]
  exact ⟨d, k, d', hrun, hafter, hnew ((headReached_iff k twoBlocks 3).mpr (by decide)) 40
    (Or.inr (by decide))⟩

end Laboratorio.Xv6Log
