import Laboratorio.PipeCalls

/-! The pipe is a lossless queue. The two counters are the numbers of bytes stored and received so far,
modulo `2 ^ 32`, and the ring holds the bytes between the two. -/

namespace Laboratorio.Pipes

open RingBuffer

/-- The pipe after the bytes `w` were stored and the first `r` of them received. -/
structure Carries (p : Pipe) (w : List UInt8) (r : Nat) : Prop where
  holds : Holds p.data w r
  nwrite : p.nwrite.toNat = w.length % 2 ^ 32
  nread : p.nread.toNat = r % 2 ^ 32

variable {p : Pipe} {w : List UInt8} {r : Nat}

theorem carries_alloc (data : Fin PIPESIZE → UInt8) : Carries (Pipe.alloc data) [] 0 :=
  ⟨holds_empty data, rfl, rfl⟩

namespace Carries

variable (h : Carries p w r)

include h

theorem counts : Counts p.nwrite w.length ∧ Counts p.nread r ∧ r ≤ w.length ∧ w.length ≤ r + 512 :=
  ⟨h.nwrite, h.nread, h.holds.le, h.holds.fits⟩

theorem toNat_sub : (p.nwrite - p.nread).toNat = w.length - r := by
  obtain ⟨hw, hr, hle, hfits⟩ := h.counts
  exact hw.toNat_sub hr hle (by omega)

theorem full_iff : p.full ↔ w.length = r + PIPESIZE := by
  obtain ⟨hw, hr, hle, hfits⟩ := h.counts
  have hend : Counts (p.nread + 512) (r + 512) := hr.add 512
  rw [Pipe.full, eq_comm]
  exact (hend.eq_iff hw hfits (by omega)).trans eq_comm

theorem empty_iff : p.empty ↔ w.length = r := by
  obtain ⟨hw, hr, hle, hfits⟩ := h.counts
  rw [Pipe.empty, eq_comm]
  exact hw.eq_iff hr hle (by omega)

theorem put (hroom : ¬p.full) (b : UInt8) : Carries (p.put b) (w ++ [b]) r := by
  obtain ⟨hw, hr, hle, hfits⟩ := h.counts
  have hlt : w.length < r + PIPESIZE := by
    rw [h.full_iff] at hroom
    exact Nat.lt_of_le_of_ne hfits hroom
  refine ⟨?_, ?_, hr⟩
  · rw [Pipe.put, hw.place (by decide)]
    exact h.holds.put hlt b
  · rw [Pipe.put, List.length_append, List.length_singleton]
    exact hw.succ

theorem front (hsome : ¬p.empty) : w[r]? = some p.front := by
  obtain ⟨_, hr, hle, _⟩ := h.counts
  have hlt : r < w.length := by
    rw [h.empty_iff] at hsome
    omega
  rw [Pipe.front, hr.place (by decide)]
  exact h.holds.get hlt

theorem advance (hsome : ¬p.empty) : Carries p.advance w (r + 1) := by
  obtain ⟨hw, hr, hle, _⟩ := h.counts
  have hlt : r < w.length := by
    rw [h.empty_iff] at hsome
    omega
  exact ⟨h.holds.take hlt, hw, hr.succ⟩

end Carries

theorem writeLoop_carries (h : Carries p w r) (src : List UInt8) :
    ∃ done, src = done ++ (p.writeLoop src).2 ∧ Carries (p.writeLoop src).1 (w ++ done) r := by
  induction src generalizing p w with
  | nil => exact ⟨[], rfl, by rwa [List.append_nil]⟩
  | cons b rest ih =>
    rw [Pipe.writeLoop]
    by_cases hfull : p.full
    · rw [if_pos hfull]
      exact ⟨[], rfl, by rwa [List.append_nil]⟩
    · rw [if_neg hfull]
      obtain ⟨done, hsrc, hdone⟩ := ih (h.put hfull b)
      refine ⟨b :: done, ?_, ?_⟩
      · rw [List.cons_append, ← hsrc]
      · rw [List.append_assoc] at hdone
        exact hdone

theorem readLoop_carries (h : Carries p w r) (n : Nat) :
    Carries (p.readLoop n).1 w (r + (p.readLoop n).2.length) ∧
    (p.readLoop n).2 = (w.drop r).take (p.readLoop n).2.length := by
  induction n generalizing p r with
  | zero => exact ⟨h, rfl⟩
  | succ n ih =>
    rw [Pipe.readLoop]
    by_cases hempty : p.empty
    · rw [if_pos hempty]
      exact ⟨h, rfl⟩
    rw [if_neg hempty]
    obtain ⟨hcarries, hbytes⟩ := ih (h.advance hempty)
    have hfront := h.front hempty
    obtain ⟨hlt, hget⟩ := List.getElem?_eq_some_iff.mp hfront
    refine ⟨?_, ?_⟩
    · rw [List.length_cons, Nat.add_comm _ 1, ← Nat.add_assoc]
      exact hcarries
    · rw [List.length_cons, List.drop_eq_getElem_cons hlt, List.take_succ_cons, ← hbytes, hget]

variable {P : Type} [DecidableEq P] {s s' : State P} {a : Act P}

theorem step_carries (h : Carries s.pipe w r) (hstep : step s a = some s') :
    Carries s'.pipe (w ++ stored s a) (r + (received s a).length) ∧
      received s a = ((w ++ stored s a).drop r).take (received s a).length := by
  have hquiet : ∀ {p' : Pipe}, p'.data = s.pipe.data → p'.nread = s.pipe.nread → p'.nwrite = s.pipe.nwrite →
      Carries p' (w ++ []) (r + 0) := by
    intro p' hdata hnread hnwrite
    rw [List.append_nil]
    exact ⟨hdata ▸ h.holds, hnwrite ▸ h.nwrite, hnread ▸ h.nread⟩
  cases a with
  | write q addr | read q n =>
    rw [step, start] at hstep
    split at hstep
    · cases hstep
      exact ⟨hquiet rfl rfl rfl, rfl⟩
    · cases hstep
  | sleep q =>
    rw [step] at hstep
    split at hstep
    · cases hstep
      exact ⟨hquiet rfl rfl rfl, rfl⟩
    · cases hstep
  | close writable =>
    rw [step] at hstep
    split at hstep
    · cases hstep
    · cases hstep
      cases writable with
      | false | true => exact ⟨hquiet rfl rfl rfl, rfl⟩
  | kill q =>
    cases hstep
    exact ⟨hquiet rfl rfl rfl, rfl⟩
  | enter q =>
    rw [step, Option.map_eq_some_iff] at hstep
    obtain ⟨⟨s₁, answer⟩, hstretch, rfl⟩ := hstep
    have hreceived : received s (.enter q) = answer.elim [] Answer.bytes := by
      rw [received, hstretch]
      rfl
    rw [hreceived]
    rw [stretch] at hstretch
    split at hstretch
    · cases hstretch
    split at hstretch
    · rename_i addr i hpc
      have hstored : stored s (.enter q) =
          (addr.drop i).take ((addr.drop i).length - (s.pipe.writeLoop (addr.drop i)).2.length) := by
        rw [stored, hpc]
      obtain ⟨done, hsrc, hdone⟩ := writeLoop_carries h (addr.drop i)
      have htake : stored s (.enter q) = done := by
        have hlen := congrArg List.length hsrc
        rw [List.length_append] at hlen
        rw [hstored, show (addr.drop i).length - (s.pipe.writeLoop (addr.drop i)).2.length = done.length by
          omega]
        nth_rewrite 1 [hsrc]
        exact List.take_left
      rw [htake]
      rw [pipewrite] at hstretch
      split at hstretch
      · cases hstretch
        exact ⟨hdone, rfl⟩
      · split at hstretch
        · cases hstretch
          exact ⟨hdone, rfl⟩
        · cases hstretch
          exact ⟨hdone, rfl⟩
    · rename_i n hpc
      have hstored : stored s (.enter q) = [] := by rw [stored, hpc]
      rw [hstored]
      rw [piperead] at hstretch
      split at hstretch
      · split at hstretch
        · cases hstretch
          exact ⟨hquiet rfl rfl rfl, rfl⟩
        · cases hstretch
          exact ⟨hquiet rfl rfl rfl, rfl⟩
      · cases hstretch
        rw [List.append_nil]
        exact readLoop_carries h n
    · cases hstretch

section Runs

variable {data : Fin PIPESIZE → UInt8} {killed : P → Bool} (e : Trace (State.init data killed) step)

/-- All bytes stored in the first `t` steps, in order. -/
def storedUpTo (t : Nat) : List UInt8 :=
  (List.range t).flatMap fun i => stored (e.state i) (e.act i)

/-- All bytes that readers got in the first `t` steps, in order. -/
def receivedUpTo (t : Nat) : List UInt8 :=
  (List.range t).flatMap fun i => received (e.state i) (e.act i)

theorem run_carries :
    ∀ t ≤ e.len, Carries (e.state t).pipe (storedUpTo e t) (receivedUpTo e t).length ∧
      receivedUpTo e t = (storedUpTo e t).take (receivedUpTo e t).length := by
  intro t
  induction t with
  | zero =>
    intro _
    rw [e.start]
    exact ⟨carries_alloc data, rfl⟩
  | succ t ih =>
    intro ht
    obtain ⟨hcarries, hreceived⟩ := ih (by omega)
    obtain ⟨hnext, hbytes⟩ := step_carries hcarries (e.next t ht)
    have hstored : storedUpTo e (t + 1) = storedUpTo e t ++ stored (e.state t) (e.act t) := by
      rw [storedUpTo, List.range_succ, List.flatMap_append, List.flatMap_singleton]
      rfl
    have hrec : receivedUpTo e (t + 1) = receivedUpTo e t ++ received (e.state t) (e.act t) := by
      rw [receivedUpTo, List.range_succ, List.flatMap_append, List.flatMap_singleton]
      rfl
    rw [hstored, hrec, List.length_append]
    refine ⟨hnext, ?_⟩
    rw [List.take_add, ← hbytes, List.take_append_of_le_length hcarries.holds.le, ← hreceived]

/-- In every run, at every time, the counters are at most `PIPESIZE` apart and what readers got is a
prefix of what writers stored. -/
theorem pipe_is_fifo :
    ∀ t ≤ e.len, ((e.state t).pipe.nwrite - (e.state t).pipe.nread).toNat ≤ PIPESIZE ∧
      receivedUpTo e t <+: storedUpTo e t := by
  intro t ht
  obtain ⟨hcarries, hreceived⟩ := run_carries e t ht
  refine ⟨?_, ?_⟩
  · have hfits := hcarries.holds.fits
    rw [hcarries.toNat_sub]
    omega
  · rw [hreceived]
    exact List.take_prefix _ _

end Runs

def twoBytes : List (Act Bool) := [.write false [7, 8, 9], .enter false, .read true 2, .enter true]

def twoBytesTrace : Trace (State.init (fun _ => 0) fun _ : Bool => false) step :=
  Trace.ofList twoBytes (.enter false) (by decide +kernel)

theorem pipe_is_fifo_twoBytes :
    receivedUpTo twoBytesTrace 4 = [7, 8] ∧ storedUpTo twoBytesTrace 4 = [7, 8, 9] ∧
      (((twoBytesTrace.state 4).pipe.nwrite - (twoBytesTrace.state 4).pipe.nread).toNat ≤ PIPESIZE ∧
        receivedUpTo twoBytesTrace 4 <+: storedUpTo twoBytesTrace 4) :=
  ⟨by decide +kernel, by decide +kernel, pipe_is_fifo twoBytesTrace 4 (by decide)⟩

end Laboratorio.Pipes
