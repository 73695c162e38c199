import Laboratorio.PipeFifo

/-! Who sleeps on a pipe. A process sleeps on `&p->nread` only while the pipe is empty and open for
writing, and on `&p->nwrite` only while it is full and open for reading, as long as no `pipewrite` gives
up half-way while a reader sleeps: that return does not wake the readers. -/

namespace Laboratorio.Pipes

open Function

/-- What a process that sleeps on the channel waits for has not happened. -/
def Blocked (p : Pipe) : Chan → Prop
  | .nread => p.empty ∧ p.writeopen = true
  | .nwrite => p.full ∧ p.readopen = true

section Statements

variable {P : Type}

def NoStuck (s : State P) : Prop := ∀ q c, s.pc q = .sleeping c → Blocked s.pipe c.chan

/-- The writer stores some of its bytes and then returns -1, while a reader sleeps. -/
def GivesUp (s : State P) (q : P) (rest : List UInt8) : Prop :=
  (s.pipe.readopen = false ∨ s.killed q = true) ∧
    (s.pipe.nwrite - s.pipe.nread).toNat < PIPESIZE ∧
    PIPESIZE < (s.pipe.nwrite - s.pipe.nread).toNat + rest.length ∧
    ∃ r n, s.pc r = .sleeping (.read n)

/-- The step is no stretch of `pipewrite` that gives up. -/
def Permits (s : State P) : Act P → Prop
  | .enter q => ∀ addr i, s.pc q = .runnable (.write addr i) → ¬GivesUp s q (addr.drop i)
  | _ => True

end Statements

/-! ### Loops -/

variable {p : Pipe} {w : List UInt8} {r : Nat}

theorem writeLoop_rest (h : Carries p w r) (src : List UInt8) :
    (p.writeLoop src).2 = src.drop (PIPESIZE - (p.nwrite - p.nread).toNat) ∧
      ((p.writeLoop src).2 ≠ [] → (p.writeLoop src).1.full) := by
  have hle := h.holds.le
  have hfits := h.holds.fits
  induction src generalizing p w with
  | nil =>
    refine ⟨?_, fun hne => absurd rfl hne⟩
    rw [List.drop_nil]
    rfl
  | cons b rest ih =>
    rw [h.toNat_sub, Pipe.writeLoop]
    by_cases hfull : p.full
    · rw [if_pos hfull]
      refine ⟨?_, fun _ => hfull⟩
      rw [h.full_iff] at hfull
      rw [show PIPESIZE - (w.length - r) = 0 by omega]
      rfl
    · rw [if_neg hfull]
      have hput := h.put hfull b
      obtain ⟨hrest, hend⟩ := ih hput hput.holds.le hput.holds.fits
      refine ⟨?_, hend⟩
      rw [hrest, hput.toNat_sub, List.length_append, List.length_singleton]
      rw [h.full_iff] at hfull
      rw [show PIPESIZE - (w.length - r) = PIPESIZE - (w.length + 1 - r) + 1 by omega, List.drop_succ_cons]

theorem writeLoop_of_full (hfull : p.full) (src : List UInt8) : p.writeLoop src = (p, src) := by
  cases src with
  | nil => rfl
  | cons b rest => rw [Pipe.writeLoop, if_pos hfull]

theorem writeLoop_flags (p : Pipe) (src : List UInt8) :
    (p.writeLoop src).1.readopen = p.readopen ∧ (p.writeLoop src).1.writeopen = p.writeopen := by
  induction src generalizing p with
  | nil => exact ⟨rfl, rfl⟩
  | cons b rest ih =>
    rw [Pipe.writeLoop]
    split
    · exact ⟨rfl, rfl⟩
    · exact ih (p.put b)

/-! ### Wakeups -/

theorem wake_sleeping {c : Chan} {pc : Pc} {k : Call} (h : pc.wake c = .sleeping k) :
    pc = .sleeping k ∧ k.chan ≠ c := by
  cases pc with
  | sleeping j =>
    rw [Pc.wake] at h
    split at h
    · cases h
    · rename_i hne
      cases h
      exact ⟨rfl, hne⟩
  | idle => cases h
  | runnable j => cases h
  | drowsy j => cases h

theorem wake_drowsy {c : Chan} {pc : Pc} {k : Call} (h : pc.wake c = .drowsy k) : pc = .drowsy k := by
  cases pc with
  | sleeping j =>
    rw [Pc.wake] at h
    split at h <;> cases h
  | idle => cases h
  | runnable j => cases h
  | drowsy j => exact h

variable {c : Call}

section Settled

variable {P : Type} {s s' : State P} {a : Act P} {q : P}

/-- The lock is held by the process that is on its way to sleep, and whoever sleeps or is about to has a
reason. -/
structure Settled (s : State P) : Prop where
  lock : ∀ q c, s.pc q = .drowsy c → s.lock = some q
  drowsy : ∀ q c, s.pc q = .drowsy c → Blocked s.pipe c.chan
  sleeping : NoStuck s

theorem Settled.init (data : Fin PIPESIZE → UInt8) (killed : P → Bool) : Settled (State.init data killed) :=
  ⟨nofun, nofun, nofun⟩

theorem Settled.no_drowsy (h : Settled s) (hlock : s.lock = none) (q : P) (c : Call) : s.pc q ≠ .drowsy c := by
  intro hq
  have hsome := h.lock q c hq
  rw [hlock] at hsome
  cases hsome

theorem chan_ne_nread (h : c.chan ≠ .nread) : c.chan = .nwrite := by
  cases c with
  | write addr i => rfl
  | read n => exact absurd rfl h

theorem chan_ne_nwrite (h : c.chan ≠ .nwrite) : c.chan = .nread := by
  cases c with
  | write addr i => exact absurd rfl h
  | read n => rfl

theorem sleeping_of_wake_nread (h : Settled s) {r : P}
    (hr : wakeup .nread s.pc r = .sleeping c) : c.chan = .nwrite ∧ s.pipe.full ∧ s.pipe.readopen = true := by
  obtain ⟨hsleep, hne⟩ := wake_sleeping hr
  have hchan := chan_ne_nread hne
  have hblocked := h.sleeping r c hsleep
  rw [hchan] at hblocked
  exact ⟨hchan, hblocked⟩

theorem sleeping_of_wake_nwrite (h : Settled s) {r : P}
    (hr : wakeup .nwrite s.pc r = .sleeping c) : c.chan = .nread ∧ s.pipe.empty ∧ s.pipe.writeopen = true := by
  obtain ⟨hsleep, hne⟩ := wake_sleeping hr
  have hchan := chan_ne_nwrite hne
  have hblocked := h.sleeping r c hsleep
  rw [hchan] at hblocked
  exact ⟨hchan, hblocked⟩

theorem Settled.pipeclose (h : Settled s) (hlock : s.lock = none) (writable : Bool) :
    Settled (Pipes.pipeclose s writable) := by
  have hnone : ∀ {ch : Chan} (r : P) (c : Call), wakeup ch s.pc r ≠ .drowsy c :=
    fun r c hr => h.no_drowsy hlock r c (wake_drowsy hr)
  cases writable with
  | true =>
    refine ⟨fun r c hr => absurd hr (hnone r c), fun r c hr => absurd hr (hnone r c), fun r c hr => ?_⟩
    obtain ⟨hchan, hblocked⟩ := sleeping_of_wake_nread h hr
    rw [hchan]
    exact hblocked
  | false =>
    refine ⟨fun r c hr => absurd hr (hnone r c), fun r c hr => absurd hr (hnone r c), fun r c hr => ?_⟩
    obtain ⟨hchan, hblocked⟩ := sleeping_of_wake_nwrite h hr
    rw [hchan]
    exact hblocked

variable [DecidableEq P]

theorem Pc.idle_awake (c : Call) : Pc.idle ≠ .drowsy c ∧ Pc.idle ≠ .sleeping c := ⟨nofun, nofun⟩

section

variable (h : Settled s)

include h

theorem Settled.leave (hlock : s.lock = none) {p : Pipe} {killed : P → Bool} {pc : P → Pc}
    {next : Pc} (hnext : ∀ c, next ≠ .drowsy c ∧ next ≠ .sleeping c)
    (hdrowsy : ∀ r c, pc r = .drowsy c → s.pc r = .drowsy c)
    (hsleeping : ∀ r c, r ≠ q → pc r = .sleeping c → Blocked p c.chan) :
    Settled { s with pipe := p, killed := killed, pc := update pc q next } := by
  have hnone : ∀ r c, update pc q next r ≠ .drowsy c := by
    intro r c hr
    by_cases hrq : r = q
    · rw [hrq, update_self] at hr
      exact (hnext c).1 hr
    · rw [update_of_ne hrq] at hr
      exact h.no_drowsy hlock r c (hdrowsy r c hr)
  refine ⟨fun r c hr => absurd hr (hnone r c), fun r c hr => absurd hr (hnone r c), fun r c hr => ?_⟩
  dsimp only at hr
  by_cases hrq : r = q
  · rw [hrq, update_self] at hr
    exact absurd hr (hnext c).2
  · rw [update_of_ne hrq] at hr
    exact hsleeping r c hrq hr

theorem Settled.doze (hlock : s.lock = none) {p : Pipe} {pc : P → Pc} {k : Call}
    (hdrowsy : ∀ r c, pc r = .drowsy c → s.pc r = .drowsy c)
    (hsleeping : ∀ r c, pc r = .sleeping c → Blocked p c.chan) (hk : Blocked p k.chan) :
    Settled { s with pipe := p, lock := some q, pc := update pc q (.drowsy k) } := by
  refine ⟨fun r c hr => ?_, fun r c hr => ?_, fun r c hr => ?_⟩
  · dsimp only at hr ⊢
    by_cases hrq : r = q
    · rw [hrq]
    · rw [update_of_ne hrq] at hr
      exact absurd (hdrowsy r c hr) (h.no_drowsy hlock r c)
  · dsimp only at hr ⊢
    by_cases hrq : r = q
    · rw [hrq, update_self] at hr
      cases hr
      exact hk
    · rw [update_of_ne hrq] at hr
      exact absurd (hdrowsy r c hr) (h.no_drowsy hlock r c)
  · dsimp only at hr ⊢
    by_cases hrq : r = q
    · rw [hrq, update_self] at hr
      cases hr
    · rw [update_of_ne hrq] at hr
      exact hsleeping r c hr

theorem Settled.pipewrite (hcarries : Carries s.pipe w r) (hlock : s.lock = none)
    {addr : List UInt8} {i : Nat} (hgives : ¬GivesUp s q (addr.drop i)) :
    Settled (Pipes.pipewrite s q addr i).1 := by
  obtain ⟨hrest, hfull⟩ := writeLoop_rest hcarries (addr.drop i)
  have hopen := (writeLoop_flags s.pipe (addr.drop i)).1
  -- A writer that sleeps finds the pipe as it was: it was full.
  have hwriters : ∀ r c, wakeup .nread s.pc r = .sleeping c →
      Blocked (s.pipe.writeLoop (addr.drop i)).1 c.chan := by
    intro r c hr
    obtain ⟨hchan, hwasfull, hwasopen⟩ := sleeping_of_wake_nread h hr
    rw [hchan, writeLoop_of_full hwasfull]
    exact ⟨hwasfull, hwasopen⟩
  rw [Pipes.pipewrite]
  split
  · exact h.leave hlock Pc.idle_awake (fun r c hr => wake_drowsy hr)
      fun r c _ hr => hwriters r c hr
  rename_i hleft
  split
  · rename_i hstop
    rw [hopen] at hstop
    refine h.leave hlock Pc.idle_awake (fun r c hr => hr) fun r c _ hr => ?_
    by_cases hwasfull : s.pipe.full
    · rw [writeLoop_of_full hwasfull]
      exact h.sleeping r c hr
    have hblocked := h.sleeping r c hr
    cases c with
    | write addr' i' => exact absurd hblocked.1 hwasfull
    | read n =>
      refine absurd ⟨hstop, ?_, ?_, r, n, hr⟩ hgives
      · have hfits := hcarries.holds.fits
        rw [hcarries.full_iff] at hwasfull
        rw [hcarries.toNat_sub]
        have hle := hcarries.holds.le
        omega
      · rw [hrest] at hleft
        have hlen := List.length_pos_iff.mpr hleft
        rw [List.length_drop] at hlen
        omega
  · rename_i hstop
    refine h.doze hlock (fun r c hr => wake_drowsy hr) hwriters ⟨hfull hleft, ?_⟩
    exact Bool.not_eq_false _ ▸ (not_or.mp hstop).1

theorem Settled.piperead (hlock : s.lock = none) {n : Nat} :
    Settled (Pipes.piperead s q n).1 := by
  rw [Pipes.piperead]
  split
  · rename_i hempty
    split
    · exact h.leave hlock Pc.idle_awake (fun r c hr => hr) fun r c _ hr => h.sleeping r c hr
    · exact h.doze hlock (fun r c hr => hr) h.sleeping hempty
  · rename_i hempty
    refine h.leave hlock Pc.idle_awake (fun r c hr => wake_drowsy hr) fun r c _ hr => ?_
    obtain ⟨-, hwasempty, hwasopen⟩ := sleeping_of_wake_nwrite h hr
    exact absurd ⟨hwasempty, hwasopen⟩ hempty

theorem Settled.kill (q : P) : Settled (Pipes.kill s q) := by
  have hback : ∀ r, (Pipes.kill s q).pc r = s.pc r ∨ ∃ c, (Pipes.kill s q).pc r = .runnable c := by
    intro r
    rw [Pipes.kill]
    cases hq : s.pc q with
    | sleeping c =>
      by_cases hrq : r = q
      · rw [hrq]
        exact Or.inr ⟨c, update_self _ _ _⟩
      · exact Or.inl (update_of_ne hrq _ _)
    | idle | runnable c | drowsy c => exact Or.inl rfl
  refine ⟨fun r c hr => ?_, fun r c hr => ?_, fun r c hr => ?_⟩
  · rcases hback r with hsame | ⟨d, hd⟩
    · exact h.lock r c (hsame.symm.trans hr)
    · cases hd.symm.trans hr
  · rcases hback r with hsame | ⟨d, hd⟩
    · exact h.drowsy r c (hsame.symm.trans hr)
    · cases hd.symm.trans hr
  · rcases hback r with hsame | ⟨d, hd⟩
    · exact h.sleeping r c (hsame.symm.trans hr)
    · cases hd.symm.trans hr

theorem Settled.sleep (hq : s.pc q = .drowsy c) :
    Settled { s with lock := none, pc := update s.pc q (.sleeping c) } := by
  have hlock := h.lock q c hq
  -- The lock is `q`'s, so no other process is on its way to sleep.
  have hnone : ∀ r d, update s.pc q (.sleeping c) r ≠ .drowsy d := by
    intro r d hr
    by_cases hrq : r = q
    · rw [hrq, update_self] at hr
      cases hr
    · rw [update_of_ne hrq] at hr
      have hlock' := h.lock r d hr
      rw [hlock] at hlock'
      exact hrq (Option.some.inj hlock').symm
  refine ⟨fun r d hr => absurd hr (hnone r d), fun r d hr => absurd hr (hnone r d), fun r d hr => ?_⟩
  dsimp only at hr ⊢
  by_cases hrq : r = q
  · rw [hrq, update_self] at hr
    cases hr
    exact h.drowsy q c hq
  · rw [update_of_ne hrq] at hr
    exact h.sleeping r d hr

theorem Settled.start (hq : s.pc q = .idle) :
    Settled { s with pc := update s.pc q (.runnable c) } := by
  have hback : ∀ r d, r = q ∨ update s.pc q (.runnable d) r = s.pc r := by
    intro r d
    by_cases hrq : r = q
    · exact Or.inl hrq
    · exact Or.inr (update_of_ne hrq _ _)
  have hself : ∀ {d : Pc}, update s.pc q (.runnable c) q = d → d = .runnable c := by
    intro d hd
    rw [update_self] at hd
    exact hd.symm
  refine ⟨fun r d hr => ?_, fun r d hr => ?_, fun r d hr => ?_⟩
  · rcases hback r c with rfl | hsame
    · cases hself hr
    · exact h.lock r d (hsame.symm.trans hr)
  · rcases hback r c with rfl | hsame
    · cases hself hr
    · exact h.drowsy r d (hsame.symm.trans hr)
  · rcases hback r c with rfl | hsame
    · cases hself hr
    · exact h.sleeping r d (hsame.symm.trans hr)

theorem Settled.step (hcarries : Carries s.pipe w r) (hpermits : Permits s a)
    (hstep : Pipes.step s a = some s') : Settled s' := by
  cases a with
  | write q addr | read q n =>
    rw [Pipes.step, Pipes.start] at hstep
    split at hstep
    · rename_i hq
      cases hstep
      exact h.start hq
    · cases hstep
  | enter q =>
    rw [Pipes.step, Option.map_eq_some_iff] at hstep
    obtain ⟨result, hstretch, rfl⟩ := hstep
    rw [stretch] at hstretch
    split at hstretch
    · cases hstretch
    rename_i hlock
    have hfree : s.lock = none := Option.not_isSome_iff_eq_none.mp hlock
    split at hstretch
    · rename_i addr i hpc
      cases hstretch
      exact h.pipewrite hcarries hfree (hpermits addr i hpc)
    · cases hstretch
      exact h.piperead hfree
    · cases hstretch
  | sleep q =>
    rw [Pipes.step] at hstep
    split at hstep
    · rename_i c hpc
      cases hstep
      exact h.sleep hpc
    · cases hstep
  | close writable =>
    rw [Pipes.step] at hstep
    split at hstep
    · cases hstep
    · rename_i hlock
      cases hstep
      exact h.pipeclose (Option.not_isSome_iff_eq_none.mp hlock) writable
  | kill q =>
    cases hstep
    exact h.kill q

end

/-- After a `pipewrite` that gave up the reader still sleeps, and the pipe is not empty. -/
theorem stuck_of_not_permits (hcarries : Carries s.pipe w r) (hnot : ¬Permits s a)
    (hstep : Pipes.step s a = some s') : s'.lock = none ∧ ¬NoStuck s' := by
  cases a with
  | enter q =>
    simp only [Permits, not_forall, not_not] at hnot
    obtain ⟨addr, i, hpc, hstop, hroom, hover, reader, n, hreader⟩ := hnot
    obtain ⟨hrest, hfull⟩ := writeLoop_rest hcarries (addr.drop i)
    have hleft : (s.pipe.writeLoop (addr.drop i)).2 ≠ [] := by
      rw [hrest, ← List.length_pos_iff, List.length_drop]
      omega
    rw [Pipes.step, Option.map_eq_some_iff] at hstep
    obtain ⟨result, hstretch, rfl⟩ := hstep
    rw [stretch] at hstretch
    split at hstretch
    · cases hstretch
    rename_i hlock
    rw [hpc] at hstretch
    cases hstretch
    have hopen := (writeLoop_flags s.pipe (addr.drop i)).1
    rw [← hopen] at hstop
    rw [pipewrite, if_neg hleft, if_pos hstop]
    refine ⟨Option.not_isSome_iff_eq_none.mp hlock, fun hgood => ?_⟩
    have hne : reader ≠ q := by
      rintro rfl
      rw [hpc] at hreader
      cases hreader
    have hblocked := hgood reader (.read n) ((update_of_ne hne _ _).trans hreader)
    obtain ⟨done, -, hdone⟩ := writeLoop_carries hcarries (addr.drop i)
    have hisempty := hdone.empty_iff.mp hblocked.1
    have hisfull := hdone.full_iff.mp (hfull hleft)
    simp only [PIPESIZE] at hisfull
    omega
  | write q addr | read q n | sleep q | close writable | kill q => exact absurd trivial hnot

section Runs

variable {data : Fin PIPESIZE → UInt8} {killed : P → Bool}

theorem run_settled (e : Trace (State.init data killed) Pipes.step)
    (hpermits : ∀ t < e.len, Permits (e.state t) (e.act t)) : ∀ t ≤ e.len, Settled (e.state t) := by
  intro t
  induction t with
  | zero =>
    intro _
    rw [e.start]
    exact Settled.init data killed
  | succ t ih =>
    intro ht
    exact (ih (by omega)).step (run_carries e t (by omega)).1 (hpermits t ht) (e.next t ht)

/-- A run has a stuck sleeper at some time, with the lock free, exactly when some `pipewrite` in it gives
up after storing bytes while a reader sleeps. -/
theorem no_stuck_sleeper_iff (e : Trace (State.init data killed) Pipes.step) :
    (∀ t ≤ e.len, (e.state t).lock = none → NoStuck (e.state t)) ↔
      ∀ t < e.len, Permits (e.state t) (e.act t) := by
  constructor
  · intro hgood t ht
    by_contra hnot
    obtain ⟨hlock, hstuck⟩ := stuck_of_not_permits (run_carries e t ht.le).1 hnot (e.next t ht)
    exact hstuck (hgood (t + 1) ht hlock)
  · intro hpermits t ht _
    exact (run_settled e hpermits t ht).sleeping

end Runs

end Settled

/-- Process `true` sleeps in `piperead`; process `false` is killed in the middle of a write of 600 bytes. -/
def killedWriter : List (Act Bool) :=
  [.read true 1, .enter true, .sleep true, .write false (List.replicate 600 7), .kill false, .enter false]

def killedWriterTrace : Trace (State.init (fun _ => 0) fun _ : Bool => false) step :=
  Trace.ofList killedWriter (.enter false) (by decide +kernel)

theorem killedWriter_stuck :
    (killedWriterTrace.state 6).lock = none ∧ (killedWriterTrace.state 6).pc true = .sleeping (.read 1) ∧
      ¬(killedWriterTrace.state 6).pipe.empty ∧ ¬NoStuck (killedWriterTrace.state 6) := by
  have hpc : (killedWriterTrace.state 6).pc true = .sleeping (.read 1) := by decide +kernel
  have hfull : ¬(killedWriterTrace.state 6).pipe.empty := by decide +kernel
  exact ⟨by decide +kernel, hpc, hfull, fun hgood => hfull (hgood true _ hpc).1⟩

end Laboratorio.Pipes
