import Laboratorio.Ide

/-! The queue of requests, the command of the disk and the processes in `iderw` agree at every time of a run. -/

namespace Laboratorio.Ide

open Function

open LinkedQueue

variable {B P : Type}

/-- The buffer of the call that a process is in. -/
def Pc.buf : Pc B → Option B
  | .idle => none
  | .entering b | .drowsy b | .sleeping b | .woken b => some b

/-- The buffer whose request a process has appended and waits for. -/
def Pc.waits : Pc B → Option B
  | .idle | .entering _ => none
  | .drowsy b | .sleeping b | .woken b => some b

def Pc.sleeps : Pc B → Option B
  | .drowsy b | .sleeping b => some b
  | _ => none

variable {b : B}

theorem Pc.buf_of_waits {pc : Pc B} (h : pc.waits = some b) : pc.buf = some b := by
  cases pc with
  | idle => cases h
  | entering c => cases h
  | drowsy c => exact h
  | sleeping c => exact h
  | woken c => exact h

theorem Pc.waits_of_sleeps {pc : Pc B} (h : pc.sleeps = some b) : pc.waits = some b := by
  cases pc with
  | drowsy c => exact h
  | sleeping c => exact h
  | _ => cases h

section Wake

variable [DecidableEq B] (b : B) (pc : Pc B)

theorem Pc.wake_cases : pc = .sleeping b ∧ pc.wake b = .woken b ∨ pc ≠ .sleeping b ∧ pc.wake b = pc := by
  cases pc with
  | sleeping c =>
    rw [Pc.wake]
    by_cases hc : c = b
    · rw [if_pos hc, hc]
      exact Or.inl ⟨rfl, rfl⟩
    · rw [if_neg hc]
      exact Or.inr ⟨fun heq => hc (Pc.sleeping.inj heq), rfl⟩
  | _ => exact Or.inr ⟨nofun, rfl⟩

theorem Pc.wake_buf : (pc.wake b).buf = pc.buf := by
  rcases pc.wake_cases b with ⟨hpc, hwake⟩ | ⟨-, hwake⟩
  · rw [hwake, hpc]
    rfl
  · rw [hwake]

theorem Pc.wake_waits : (pc.wake b).waits = pc.waits := by
  rcases pc.wake_cases b with ⟨hpc, hwake⟩ | ⟨-, hwake⟩
  · rw [hwake, hpc]
    rfl
  · rw [hwake]

variable {b pc}

theorem Pc.of_wake (h : pc.wake b ≠ .woken b) : pc.wake b = pc := by
  rcases pc.wake_cases b with ⟨-, hwake⟩ | ⟨-, hwake⟩
  · exact absurd hwake h
  · exact hwake

theorem Pc.of_wake_sleeps {c : B} (h : (pc.wake b).sleeps = some c) :
    pc.sleeps = some c ∧ (pc = .drowsy c ∨ c ≠ b) := by
  rcases pc.wake_cases b with ⟨-, hwake⟩ | ⟨hne, hwake⟩
  · rw [hwake] at h
    cases h
  rw [hwake] at h
  refine ⟨h, ?_⟩
  cases pc with
  | drowsy d =>
    cases h
    exact Or.inl rfl
  | sleeping d =>
    cases h
    exact Or.inr fun heq => hne (by rw [heq])
  | _ => cases h

end Wake

/-- The requests in the queue are those that are waited for and not finished, the disk works on the first
one, and a process sleeps only as long as its request is in the queue. -/
structure Inv (s : State B P) (xs : List B) : Prop where
  lists : s.queue.Lists xs
  owner : ∀ p b, (s.pc p).buf = some b → s.lock b = some p
  entering : ∀ p b, s.pc p = .entering b → b ∉ xs ∧ (s.buf b).done = false
  queued : ∀ b ∈ xs, (s.buf b).done = false ∧ ∃ p, (s.pc p).waits = some b
  unfinished : ∀ p b, (s.pc p).waits = some b → (s.buf b).done = false → b ∈ xs
  asleep : ∀ p b, (s.pc p).sleeps = some b → b ∈ xs
  held : ∀ p b, s.pc p = .drowsy b → s.idelock = some p
  commands : s.commands = (xs.head?.map fun b => (s.buf b).command).toList

theorem inv_init (buf : B → Buf) (qnext : B → Option B) (havedisk1 : Bool) :
    Inv (State.init P buf qnext havedisk1) [] :=
  ⟨⟨rfl, List.nodup_nil⟩, nofun, nofun, nofun, nofun, nofun, nofun, rfl⟩

variable {s' : State B P}

namespace Inv

variable {s : State B P} {xs : List B} {p : P} {b : B}

theorem not_mem (h : Inv s xs) (hfree : ∀ q, (s.pc q).buf ≠ some b) : b ∉ xs := by
  intro hmem
  obtain ⟨-, q, hq⟩ := h.queued b hmem
  exact hfree q (Pc.buf_of_waits hq)

/-- A buffer that is not locked, or locked by a process outside `iderw`, is in no call. -/
theorem free (h : Inv s xs) (hlock : s.lock b = none ∨ s.lock b = some p ∧ s.pc p = .idle) (q : P) :
    (s.pc q).buf ≠ some b := by
  intro hq
  have howner := h.owner q b hq
  rcases hlock with hnone | ⟨hp, hidle⟩
  · rw [hnone] at howner
    cases howner
  · rw [hp] at howner
    cases howner
    rw [hidle] at hq
    cases hq

theorem relock [DecidableEq B] (h : Inv s xs) (hfree : ∀ q, (s.pc q).buf ≠ some b) (x : Option P) :
    Inv { s with lock := update s.lock b x } xs := by
  refine ⟨h.lists, fun q c hq => ?_, h.entering, h.queued, h.unfinished, h.asleep, h.held, h.commands⟩
  have hne : c ≠ b := by
    rintro rfl
    exact hfree q hq
  exact (update_of_ne hne _ _).trans (h.owner q c hq)

theorem touch [DecidableEq B] (h : Inv s xs) (hfree : ∀ q, (s.pc q).buf ≠ some b) (x : Buf) :
    Inv { s with buf := update s.buf b x } xs := by
  have hsame : ∀ c ∈ xs, update s.buf b x c = s.buf c := by
    intro c hc
    apply update_of_ne
    rintro rfl
    exact h.not_mem hfree hc
  have hcall : ∀ q c, (s.pc q).buf = some c → update s.buf b x c = s.buf c := by
    intro q c hq
    apply update_of_ne
    rintro rfl
    exact hfree q hq
  refine ⟨h.lists, h.owner, fun q c hq => ?_, fun c hc => ?_, fun q c hq hdone => ?_, h.asleep, h.held, ?_⟩
  · obtain ⟨hnot, hdone⟩ := h.entering q c hq
    refine ⟨hnot, ?_⟩
    dsimp only
    rw [hcall q c (by rw [hq]; rfl)]
    exact hdone
  · dsimp only
    rw [hsame c hc]
    exact h.queued c hc
  · dsimp only at hdone
    rw [hcall q c (Pc.buf_of_waits hq)] at hdone
    exact h.unfinished q c hq hdone
  · dsimp only
    rw [h.commands]
    cases xs with
    | nil => rfl
    | cons c xs =>
      rw [List.head?_cons, Option.map_some, Option.map_some, hsame c List.mem_cons_self]

theorem not_drowsy (h : Inv s xs) (hfree : s.idelock = none) (q : P) (c : B) : s.pc q ≠ .drowsy c := by
  intro hq
  have hheld := h.held q c hq
  rw [hfree] at hheld
  cases hheld

theorem pop [DecidableEq B] (h : Inv s (b :: xs)) (hfree : s.idelock = none) (r : Option Block)
    {commands : List Command} (hcommands : commands = (xs.head?.map fun c => (s.buf c).command).toList) :
    Inv { s with
      queue := s.queue.dequeue b
      buf := update s.buf b ((s.buf b).finish r)
      commands := commands
      pc := fun q => (s.pc q).wake b } xs := by
  obtain ⟨hb, -⟩ := List.nodup_cons.mp h.lists.nodup
  have hsame : ∀ c ∈ xs, update s.buf b ((s.buf b).finish r) c = s.buf c := by
    intro c hc
    apply update_of_ne
    rintro rfl
    exact hb hc
  refine ⟨h.lists.dequeue, fun q c hq => ?_, fun q c hq => ?_, fun c hc => ?_, fun q c hq hdone => ?_,
    fun q c hq => ?_, fun q c hq => ?_, ?_⟩
  · rw [Pc.wake_buf] at hq
    exact h.owner q c hq
  · have hold : s.pc q = .entering c := (Pc.of_wake (by dsimp only at hq; rw [hq]; nofun)).symm.trans hq
    obtain ⟨hnot, hdone⟩ := h.entering q c hold
    rw [List.mem_cons, not_or] at hnot
    refine ⟨hnot.2, ?_⟩
    dsimp only
    rw [update_of_ne hnot.1]
    exact hdone
  · obtain ⟨hdone, q, hq⟩ := h.queued c (List.mem_cons_of_mem b hc)
    refine ⟨?_, q, ?_⟩
    · dsimp only
      rw [hsame c hc]
      exact hdone
    · rw [Pc.wake_waits]
      exact hq
  · rw [Pc.wake_waits] at hq
    dsimp only at hdone
    have hne : c ≠ b := by
      rintro rfl
      rw [update_self] at hdone
      cases hdone
    rw [update_of_ne hne] at hdone
    exact (List.mem_cons.mp (h.unfinished q c hq hdone)).resolve_left hne
  · obtain ⟨hsleeps, hdrowsy | hne⟩ := Pc.of_wake_sleeps hq
    · exact absurd hdrowsy (h.not_drowsy hfree q c)
    · exact (List.mem_cons.mp (h.asleep q c hsleeps)).resolve_left hne
  · have hold : s.pc q = .drowsy c := (Pc.of_wake (by dsimp only at hq; rw [hq]; nofun)).symm.trans hq
    exact absurd hold (h.not_drowsy hfree q c)
  · dsimp only
    rw [hcommands]
    cases xs with
    | nil => rfl
    | cons c xs => rw [List.head?_cons, Option.map_some, Option.map_some, hsame c List.mem_cons_self]

theorem intr [DecidableEq B] (h : Inv s (b :: xs)) (hfree : s.idelock = none) {r : Option Block}
    (hok : ideintr { s with commands := [] } r = .ok s') : Inv s' xs := by
  have hhead : s.queue.head = some b := h.lists.head
  have hnext : (s.queue.dequeue b).head = xs.head? := h.lists.dequeue.head
  obtain ⟨hb, -⟩ := List.nodup_cons.mp h.lists.nodup
  rw [ideintr] at hok
  rw [hhead] at hok
  dsimp only at hok
  rw [hnext] at hok
  cases xs with
  | nil =>
    cases hok
    exact h.pop hfree r rfl
  | cons c xs =>
    have hne : c ≠ b := fun heq => hb (heq ▸ List.mem_cons_self)
    rw [List.head?_cons, if_pos nofun, idestart] at hok
    split at hok
    · cases hok
    · cases hok
      refine h.pop hfree r ?_
      dsimp only
      rw [update_of_ne hne]
      rfl

variable [DecidableEq P] {pc : Pc B}

/-- A process changes only where it is: it has the lock of its buffer, and if it sleeps the request is in the
queue. -/
theorem goto (h : Inv s xs) (x : Option P) (howner : ∀ c, pc.buf = some c → s.lock c = some p)
    (hentering : ∀ c, pc = .entering c → c ∉ xs ∧ (s.buf c).done = false)
    (hqueued : ∀ c ∈ xs, (s.pc p).waits = some c → pc.waits = some c)
    (hwaits : ∀ c, pc.waits = some c → (s.buf c).done = false → c ∈ xs)
    (hsleeps : ∀ c, pc.sleeps = some c → c ∈ xs) (hheld : ∀ c, pc = .drowsy c → x = some p)
    (hothers : ∀ q c, q ≠ p → s.pc q = .drowsy c → x = some q) :
    Inv { s with idelock := x, pc := update s.pc p pc } xs := by
  refine ⟨h.lists, fun q c hq => ?_, fun q c hq => ?_, fun c hc => ?_, fun q c hq => ?_, fun q c hq => ?_,
    fun q c hq => ?_, h.commands⟩
  · rcases update_cases s.pc p pc q with ⟨rfl, heq⟩ | ⟨-, heq⟩
    · exact howner c (heq ▸ hq)
    · exact h.owner q c (heq ▸ hq)
  · rcases update_cases s.pc p pc q with ⟨rfl, heq⟩ | ⟨-, heq⟩
    · exact hentering c (heq ▸ hq)
    · exact h.entering q c (heq ▸ hq)
  · obtain ⟨hdone, q, hq⟩ := h.queued c hc
    refine ⟨hdone, q, ?_⟩
    dsimp only
    rcases update_cases s.pc p pc q with ⟨rfl, heq⟩ | ⟨-, heq⟩
    · rw [heq]
      exact hqueued c hc hq
    · rw [heq]
      exact hq
  · rcases update_cases s.pc p pc q with ⟨rfl, heq⟩ | ⟨-, heq⟩
    · exact hwaits c (heq ▸ hq)
    · exact h.unfinished q c (heq ▸ hq)
  · rcases update_cases s.pc p pc q with ⟨rfl, heq⟩ | ⟨-, heq⟩
    · exact hsleeps c (heq ▸ hq)
    · exact h.asleep q c (heq ▸ hq)
  · rcases update_cases s.pc p pc q with ⟨rfl, heq⟩ | ⟨hqp, heq⟩
    · exact hheld c (heq ▸ hq)
    · exact hothers q c hqp (heq ▸ hq)

theorem stay (h : Inv s xs) (x : Option P) (hpc : (s.pc p).waits = some b) (hnext : pc.waits = some b) (hmem : b ∈ xs)
    (hheld : ∀ c, pc = .drowsy c → x = some p) (hothers : ∀ q c, q ≠ p → s.pc q = .drowsy c → x = some q) :
    Inv { s with idelock := x, pc := update s.pc p pc } xs := by
  have hsame : ∀ c, pc.waits = some c → c = b := fun c hc => Option.some.inj (hc.symm.trans hnext)
  refine h.goto x (fun c hc => ?_) (fun c hc => ?_) (fun c _ hwaits => ?_) (fun c hc _ => ?_) (fun c hc => ?_) hheld
    hothers
  · rw [Pc.buf_of_waits hnext] at hc
    cases hc
    exact h.owner p b (Pc.buf_of_waits hpc)
  · rw [hc] at hnext
    cases hnext
  · rw [hnext, ← hwaits, hpc]
  · rw [hsame c hc]
    exact hmem
  · rw [hsame c (Pc.waits_of_sleeps hc)]
    exact hmem

/-- The test at the end of `iderw`, by a process whose request is in the queue or finished. -/
theorem wait [DecidableEq B] (h : Inv s xs) (hpc : (s.pc p).waits = some b) (hfree : s.idelock = none) :
    Inv (iderwWait s p b) xs := by
  rw [iderwWait]
  split
  · rename_i hdone
    refine h.goto s.idelock nofun nofun (fun c hc hwaits => ?_) nofun nofun nofun fun q c _ => h.held q c
    rw [hpc] at hwaits
    cases hwaits
    rw [(h.queued b hc).1] at hdone
    cases hdone
  · rename_i hdone
    rw [Bool.not_eq_true] at hdone
    have hmem := h.unfinished p b hpc hdone
    exact h.stay (some p) hpc rfl hmem (fun _ _ => rfl) fun q c _ hq => absurd hq (h.not_drowsy hfree q c)

theorem push (h : Inv s xs) (hpc : s.pc p = .entering b) (hfree : s.idelock = none) {queue : LinkedQueue B}
    (hlists : queue.Lists (xs ++ [b])) {commands : List Command}
    (hcommands : commands = if xs = [] then s.commands ++ [(s.buf b).command] else s.commands) :
    Inv { s with queue := queue, commands := commands, pc := update s.pc p (.woken b) } (xs ++ [b]) := by
  have howner : s.lock b = some p := h.owner p b (by rw [hpc]; rfl)
  obtain ⟨-, hdone⟩ := h.entering p b hpc
  have hother : ∀ q c, q ≠ p → (s.pc q).buf = some c → c ≠ b := by
    rintro q c hq hc rfl
    have hlock := h.owner q c hc
    rw [howner] at hlock
    exact hq (Option.some.inj hlock).symm
  have hcases := update_cases s.pc p (.woken b)
  refine ⟨hlists, fun q c hq => ?_, fun q c hq => ?_, fun c hc => ?_, fun q c hq hcdone => ?_, fun q c hq => ?_,
    fun q c hq => ?_, ?_⟩
  · rcases hcases q with ⟨rfl, heq⟩ | ⟨-, heq⟩
    · cases Option.some.inj ((congrArg Pc.buf heq).symm.trans hq)
      exact howner
    · exact h.owner q c (heq ▸ hq)
  · rcases hcases q with ⟨-, heq⟩ | ⟨hqp, heq⟩
    · cases heq.symm.trans hq
    · have hold : s.pc q = .entering c := heq ▸ hq
      obtain ⟨hnot, hcdone⟩ := h.entering q c hold
      refine ⟨?_, hcdone⟩
      rw [List.mem_append, List.mem_singleton, not_or]
      exact ⟨hnot, hother q c hqp (by rw [hold]; rfl)⟩
  · rcases List.mem_append.mp hc with hmem | hmem
    · obtain ⟨hcdone, q, hq⟩ := h.queued c hmem
      refine ⟨hcdone, q, ?_⟩
      rcases hcases q with ⟨rfl, -⟩ | ⟨-, heq⟩
      · rw [hpc] at hq
        cases hq
      · exact (congrArg Pc.waits heq).trans hq
    · obtain rfl := List.mem_singleton.mp hmem
      exact ⟨hdone, p, congrArg Pc.waits (update_self p (.woken c) s.pc)⟩
  · rcases hcases q with ⟨-, heq⟩ | ⟨-, heq⟩
    · cases Option.some.inj ((congrArg Pc.waits heq).symm.trans hq)
      exact List.mem_append_right _ List.mem_cons_self
    · exact List.mem_append_left _ (h.unfinished q c (heq ▸ hq) hcdone)
  · rcases hcases q with ⟨-, heq⟩ | ⟨-, heq⟩
    · cases (congrArg Pc.sleeps heq).symm.trans hq
    · exact List.mem_append_left _ (h.asleep q c (heq ▸ hq))
  · rcases hcases q with ⟨-, heq⟩ | ⟨-, heq⟩
    · cases heq.symm.trans hq
    · exact absurd (heq ▸ hq) (h.not_drowsy hfree q c)
  · rw [hcommands, h.commands]
    cases xs with
    | nil => rfl
    | cons c xs => rw [if_neg nofun, List.cons_append, List.head?_cons, List.head?_cons]

theorem append [DecidableEq B] [Fintype B] (h : Inv s xs) (hpc : s.pc p = .entering b)
    (hfree : s.idelock = none) (happend : iderwAppend s p b = some (.ok s')) : Inv s' (xs ++ [b]) := by
  obtain ⟨hnot, -⟩ := h.entering p b hpc
  obtain ⟨queue, henqueue, hlists⟩ := h.lists.enqueue hnot h.lists.nodup.length_le_card
  have hhead : queue.head = some b ↔ xs = [] := by
    rw [hlists.head]
    cases xs with
    | nil => exact ⟨fun _ => rfl, fun _ => rfl⟩
    | cons c xs =>
      constructor
      · intro heq
        cases heq
        exact absurd List.mem_cons_self hnot
      · nofun
  rw [iderwAppend, henqueue, Option.map_some, Option.some_inj] at happend
  -- Where the process was before the test does not matter.
  have hwait : ∀ commands, iderwWait { s with queue := queue, commands := commands } p b =
      iderwWait { s with queue := queue, commands := commands, pc := update s.pc p (.woken b) } p b := by
    intro commands
    rw [iderwWait, iderwWait]
    rw [update_idem, update_idem]
  dsimp only at happend
  split at happend
  · rename_i hfirst
    rw [hhead] at hfirst
    rw [idestart] at happend
    split at happend
    · cases happend
    · cases happend
      dsimp only
      rw [hwait]
      exact (h.push hpc hfree hlists (by rw [if_pos hfirst])).wait
        (by dsimp only; rw [update_self]; rfl) hfree
  · rename_i hfirst
    rw [hhead] at hfirst
    cases happend
    rw [show iderwWait { s with queue := queue } p b = _ from hwait s.commands]
    exact (h.push hpc hfree hlists (by rw [if_neg hfirst])).wait
      (by dsimp only; rw [update_self]; rfl) hfree

end Inv

/-- The request that a step appends. -/
def appended (s : State B P) : Act B P → List B
  | .append p =>
    match s.pc p with
    | .entering b => [b]
    | _ => []
  | _ => []

/-- The request that a step finishes. -/
def finished (s : State B P) : Act B P → List B
  | .intr _ => s.queue.head.toList
  | _ => []

theorem iderwWait_pc [DecidableEq P] (s : State B P) (p : P) (b : B) :
    (iderwWait s p b).pc = update s.pc p (.drowsy b) ∨ (iderwWait s p b).pc = update s.pc p .idle ∧
    (s.buf b).done = true := by
  rw [iderwWait]
  split
  · rename_i hdone
    exact Or.inr ⟨rfl, hdone⟩
  · exact Or.inl rfl

theorem idestart_same {s : State B P} {b : Option B} (hok : idestart s b = .ok s') : s'.pc = s.pc ∧ s'.buf = s.buf := by
  cases b with
  | none => cases hok
  | some b =>
    rw [idestart] at hok
    split at hok
    · cases hok
    · cases hok
      exact ⟨rfl, rfl⟩

theorem ideintr_pc [DecidableEq B] {s : State B P} {r : Option Block} (hok : ideintr s r = .ok s') (p : P) :
    s'.pc p = s.pc p ∨ ∃ b, s'.pc p = (s.pc p).wake b := by
  rw [ideintr] at hok
  split at hok
  · cases hok
    exact Or.inl rfl
  rename_i b _
  dsimp only at hok
  split at hok
  · obtain ⟨hpc, -⟩ := idestart_same hok
    rw [hpc]
    exact Or.inr ⟨b, rfl⟩
  · cases hok
    exact Or.inr ⟨b, rfl⟩

variable [Fintype B] [DecidableEq B] [DecidableEq P] {s s' : State B P} {xs : List B} {a : Act B P}

/-- How a process moves in a step: it stays in its call, or it starts one, appends its request, or finds it
finished. -/
inductive Moves (s : State B P) (p : P) : Act B P → Pc B → Prop
  | stays {a : Act B P} {pc : Pc B} (hbuf : pc.buf = (s.pc p).buf) (hwaits : pc.waits = (s.pc p).waits) : Moves s p a pc
  | enters (b : B) (hidle : s.pc p = .idle) : Moves s p (.iderw p b) (.entering b)
  | appends (b : B) (hpc : s.pc p = .entering b) (pc : Pc B)
      (hnext : pc = .drowsy b ∨ pc = .idle ∧ (s.buf b).done = true) : Moves s p (.append p) pc
  | returns (b : B) (hpc : s.pc p = .woken b) (hdone : (s.buf b).done = true) : Moves s p (.retest p) .idle

omit [Fintype B] [DecidableEq B] in
theorem Moves.update {q : P} {pc : Pc B} (hmoves : Moves s q a pc) (p : P) : Moves s p a (update s.pc q pc p) := by
  rcases update_cases s.pc q pc p with ⟨rfl, heq⟩ | ⟨-, heq⟩
  · rw [heq]
    exact hmoves
  · rw [heq]
    exact .stays rfl rfl

variable {p : P}

theorem iderwAppend_pc (happend : iderwAppend s p b = some (.ok s')) :
    s'.pc = update s.pc p (.drowsy b) ∨ s'.pc = update s.pc p .idle ∧ (s.buf b).done = true := by
  obtain ⟨queue, -, hok⟩ := Option.map_eq_some_iff.mp happend
  dsimp only at hok
  split at hok
  · cases hstart : idestart { s with queue := queue } (some b) with
    | error panic =>
      rw [hstart] at hok
      cases hok
    | ok s₁ =>
      obtain ⟨hpc, hbuf⟩ := idestart_same hstart
      rw [hstart] at hok
      cases hok
      have hwait := iderwWait_pc s₁ p b
      rw [hpc, hbuf] at hwait
      exact hwait
  · cases hok
    exact iderwWait_pc { s with queue := queue } p b

theorem step_spec (h : Inv s xs) (hstep : step s a = some s') :
    ∃ ys, (∀ p, Moves s p a (s'.pc p)) ∧ Inv s' ys ∧ xs ++ appended s a = finished s a ++ ys := by
  cases a with
  | acquiresleep q b =>
    rw [step] at hstep
    obtain ⟨hlock, hstep⟩ := Option.ite_none_right_eq_some.mp hstep
    cases hstep
    exact ⟨xs, fun _ => .stays rfl rfl, h.relock (h.free (p := q) (Or.inl hlock.2)) _, List.append_nil xs⟩
  | releasesleep q b =>
    rw [step] at hstep
    obtain ⟨hlock, hstep⟩ := Option.ite_none_right_eq_some.mp hstep
    cases hstep
    exact ⟨xs, fun _ => .stays rfl rfl, h.relock (h.free (Or.inr ⟨hlock.2, hlock.1⟩)) _, List.append_nil xs⟩
  | modify q b valid dirty data =>
    rw [step] at hstep
    obtain ⟨hlock, hstep⟩ := Option.ite_none_right_eq_some.mp hstep
    cases hstep
    exact ⟨xs, fun _ => .stays rfl rfl, h.touch (h.free (Or.inr ⟨hlock.2, hlock.1⟩)) _, List.append_nil xs⟩
  | recycle b dev blockno =>
    rw [step] at hstep
    obtain ⟨hlock, hstep⟩ := Option.ite_none_right_eq_some.mp hstep
    cases hstep
    refine ⟨xs, fun _ => .stays rfl rfl, h.touch (fun q hq => ?_) _, List.append_nil xs⟩
    exact h.free (p := q) (Or.inl hlock) q hq
  | iderw q b =>
    rw [step] at hstep
    obtain ⟨hidle, hstep⟩ := Option.ite_none_right_eq_some.mp hstep
    rw [iderwCheck] at hstep
    split_ifs at hstep with hlock hdone hdev
    · cases hstep
    · cases hstep
    · cases hstep
    rw [ne_eq, not_not] at hlock
    rw [Bool.not_eq_true] at hdone
    cases hstep
    have hnot := h.not_mem (h.free (Or.inr ⟨hlock, hidle⟩))
    refine ⟨xs, (Moves.enters b hidle).update, ?_, List.append_nil xs⟩
    refine h.goto s.idelock (fun c hc => ?_) (fun c hc => ?_) (fun c _ hwaits => ?_) nofun nofun nofun fun p c _ =>
      h.held p c
    · cases hc
      exact hlock
    · cases hc
      exact ⟨hnot, hdone⟩
    · rw [hidle] at hwaits
      cases hwaits
  | append q =>
    rw [step] at hstep
    split at hstep
    · rename_i b hpc
      obtain ⟨hfree, hstep⟩ := Option.ite_none_right_eq_some.mp hstep
      obtain ⟨r, happend, hr⟩ := Option.bind_eq_some_iff.mp hstep
      cases r with
      | error panic => cases hr
      | ok s₁ =>
        cases hr
        refine ⟨xs ++ [b], ?_, h.append hpc hfree happend, by rw [appended, hpc]; rfl⟩
        rcases iderwAppend_pc happend with hnext | ⟨hnext, hdone⟩
        · rw [hnext]
          exact (Moves.appends b hpc _ (Or.inl rfl)).update
        · rw [hnext]
          exact (Moves.appends b hpc _ (Or.inr ⟨rfl, hdone⟩)).update
    · cases hstep
  | sleep q =>
    rw [step] at hstep
    split at hstep
    · rename_i b hpc
      cases hstep
      have hwaits : (s.pc q).waits = some b := by rw [hpc]; rfl
      refine ⟨xs, (Moves.stays (by rw [hpc]; rfl) (by rw [hpc]; rfl)).update, ?_, List.append_nil xs⟩
      refine h.stay none hwaits rfl (h.asleep q b (by rw [hpc]; rfl)) nofun fun p c hpq hp => ?_
      -- Only one process holds `idelock`.
      have hother := h.held p c hp
      rw [h.held q b hpc] at hother
      exact absurd (Option.some.inj hother).symm hpq
    · cases hstep
  | retest q =>
    rw [step] at hstep
    split at hstep
    · rename_i b hpc
      obtain ⟨hfree, hstep⟩ := Option.ite_none_right_eq_some.mp hstep
      cases hstep
      refine ⟨xs, ?_, h.wait (by rw [hpc]; rfl) hfree, List.append_nil xs⟩
      rcases iderwWait_pc s q b with hnext | ⟨hnext, hdone⟩
      · rw [hnext]
        exact (Moves.stays (by rw [hpc]; rfl) (by rw [hpc]; rfl)).update
      · rw [hnext]
        exact (Moves.returns b hpc hdone).update
    · cases hstep
  | kill q =>
    rw [step] at hstep
    split at hstep
    · rename_i b hpc
      cases hstep
      have hwaits : (s.pc q).waits = some b := by rw [hpc]; rfl
      refine ⟨xs, (Moves.stays (by rw [hpc]; rfl) (by rw [hpc]; rfl)).update, ?_, List.append_nil xs⟩
      exact h.stay s.idelock hwaits rfl (h.asleep q b (by rw [hpc]; rfl)) nofun fun p c _ => h.held p c
    · cases hstep
  | intr r =>
    rw [step] at hstep
    split at hstep
    · cases hstep
    rename_i cmd rest hcommands
    obtain ⟨hfree, hstep⟩ := Option.ite_none_right_eq_some.mp hstep
    -- A command is under way, so the queue is not empty, and no other command is.
    rw [h.commands] at hcommands
    cases xs with
    | nil => cases hcommands
    | cons b xs =>
      have hrest : rest = [] := (List.cons.inj hcommands).2.symm
      have hhead : s.queue.head = some b := h.lists.head
      rw [hrest] at hstep
      cases hok : ideintr { s with commands := [] } r with
      | error panic =>
        rw [hok] at hstep
        cases hstep
      | ok s₁ =>
        rw [hok] at hstep
        cases hstep
        refine ⟨xs, fun p => ?_, h.intr hfree hok, by rw [finished, hhead]; exact List.append_nil _⟩
        rcases ideintr_pc hok p with hsame | ⟨c, hwake⟩
        · rw [hsame]
          exact .stays rfl rfl
        · rw [hwake]
          exact .stays (Pc.wake_buf c _) (Pc.wake_waits c _)

theorem waits_before (h : Inv s xs) (hstep : step s a = some s') (hnext : (s'.pc p).waits = some b) :
    (s.pc p).waits = some b ∨ a = .append p ∧ s.pc p = .entering b := by
  obtain ⟨-, hmoves, -⟩ := step_spec h hstep
  have hmoves := hmoves p
  generalize s'.pc p = pc at hmoves hnext
  cases hmoves with
  | stays hbuf hwaits => exact Or.inl (hwaits ▸ hnext)
  | enters c hidle => cases hnext
  | appends c hpc pc hcases =>
    rcases hcases with rfl | ⟨rfl, -⟩
    · cases hnext
      exact Or.inr ⟨rfl, hpc⟩
    · cases hnext
  | returns c hpc hdone => cases hnext

theorem returns_finished (h : Inv s xs) (hstep : step s a = some s')
    (hcall : (s.pc p).buf = some b) (hnext : s'.pc p = .idle) : (s.pc p).waits = some b ∧ b ∉ xs := by
  obtain ⟨-, hmoves, -⟩ := step_spec h hstep
  have hmoves := hmoves p
  rw [hnext] at hmoves
  cases hmoves with
  | stays hbuf hwaits =>
    rw [hcall] at hbuf
    cases hbuf
  | appends c hpc pc hcases =>
    rcases hcases with hdrowsy | ⟨-, hdone⟩
    · cases hdrowsy
    · rw [(h.entering p c hpc).2] at hdone
      cases hdone
  | returns c hpc hdone =>
    rw [hpc] at hcall ⊢
    cases hcall
    refine ⟨rfl, fun hmem => ?_⟩
    rw [(h.queued b hmem).1] at hdone
    cases hdone

theorem iderwAppend_isSome (h : Inv s xs) (hpc : s.pc p = .entering b) :
    (iderwAppend s p b).isSome := by
  obtain ⟨hnot, -⟩ := h.entering p b hpc
  obtain ⟨queue, henqueue, -⟩ := h.lists.enqueue hnot h.lists.nodup.length_le_card
  rw [iderwAppend, henqueue]
  rfl

section Runs

variable {buf : B → Buf} {qnext : B → Option B} {havedisk1 : Bool}
  (e : Trace (State.init P buf qnext havedisk1) step)

/-- The requests appended in the first `t` steps, in order. -/
def appendedUpTo (t : ℕ) : List B := (List.range t).flatMap fun k => appended (e.state k) (e.act k)

/-- The requests finished in the first `t` steps, in order. -/
def finishedUpTo (t : ℕ) : List B := (List.range t).flatMap fun k => finished (e.state k) (e.act k)

theorem appendedUpTo_succ (t : ℕ) : appendedUpTo e (t + 1) = appendedUpTo e t ++ appended (e.state t) (e.act t) := by
  rw [appendedUpTo, List.range_succ, List.flatMap_append, List.flatMap_singleton]
  rfl

theorem finishedUpTo_succ (t : ℕ) : finishedUpTo e (t + 1) = finishedUpTo e t ++ finished (e.state t) (e.act t) := by
  rw [finishedUpTo, List.range_succ, List.flatMap_append, List.flatMap_singleton]
  rfl

theorem run_inv : ∀ t ≤ e.len, ∃ xs, Inv (e.state t) xs ∧ appendedUpTo e t = finishedUpTo e t ++ xs := by
  intro t
  induction t with
  | zero =>
    intro _
    rw [e.start]
    exact ⟨[], inv_init buf qnext havedisk1, rfl⟩
  | succ t ih =>
    intro ht
    obtain ⟨xs, hinv, happended⟩ := ih (by omega)
    obtain ⟨ys, -, hnext, heq⟩ := step_spec hinv (e.next t ht)
    refine ⟨ys, hnext, ?_⟩
    calc appendedUpTo e (t + 1)
        = finishedUpTo e t ++ (xs ++ appended (e.state t) (e.act t)) := by
          rw [appendedUpTo_succ, happended, List.append_assoc]
      _ = finishedUpTo e (t + 1) ++ ys := by
          rw [heq, ← List.append_assoc, finishedUpTo_succ]

theorem run_waits : ∀ t ≤ e.len, ∀ p b, ((e.state t).pc p).waits = some b →
    ∃ u < t, e.act u = .append p ∧ (e.state u).pc p = .entering b ∧ ∀ x, u < x → x ≤ t →
    ((e.state x).pc p).waits = some b := by
  intro t
  induction t with
  | zero =>
    intro _ p b hwaits
    rw [e.start] at hwaits
    cases hwaits
  | succ t ih =>
    intro ht p b hwaits
    obtain ⟨xs, hinv, -⟩ := run_inv e t (by omega)
    rcases waits_before hinv (e.next t ht) hwaits with hbefore | ⟨hact, hpc⟩
    · obtain ⟨u, hu, hact, hpc, hall⟩ := ih (by omega) p b hbefore
      refine ⟨u, by omega, hact, hpc, fun x hux hxt => ?_⟩
      rcases Nat.le_succ_iff.mp hxt with hle | rfl
      · exact hall x hux hle
      · exact hwaits
    · refine ⟨t, Nat.lt_succ_self t, hact, hpc, fun x hux hxt => ?_⟩
      rw [show x = t + 1 by omega]
      exact hwaits

theorem appendedUpTo_get {u t : ℕ} (hut : u < t) (hact : e.act u = .append p)
    (hpc : (e.state u).pc p = .entering b) : (appendedUpTo e t)[(appendedUpTo e u).length]? = some b := by
  induction t, hut using Nat.le_induction with
  | base =>
    rw [appendedUpTo_succ, hact, appended, hpc]
    exact List.getElem?_concat_length
  | succ t _ ih =>
    rw [appendedUpTo_succ]
    obtain ⟨hlt, -⟩ := List.getElem?_eq_some_iff.mp ih
    rw [List.getElem?_append_left hlt]
    exact ih

/-- In every run, at every time, the queue is a list of different buffers. What was appended is what was
finished followed by it, in order. A buffer that is waited for and not finished is in it once, the commands
that the disk has are that of its first buffer, and a process that sleeps has its request in it. When a call
returns, the request that it appended is finished. -/
theorem disk_queue_in_order : ∀ t ≤ e.len, ∃ xs : List B, (e.state t).queue.Lists xs ∧
    appendedUpTo e t = finishedUpTo e t ++ xs ∧
    (∀ p b, ((e.state t).pc p).waits = some b → ((e.state t).buf b).done = false → xs.count b = 1) ∧
    (∀ p b, ((e.state t).pc p).sleeps = some b → b ∈ xs) ∧
    (e.state t).commands = (xs.head?.map fun b => ((e.state t).buf b).command).toList ∧
    ((e.state t).commands = [] → xs = []) ∧
    ∀ p b, t < e.len → ((e.state t).pc p).buf = some b → (e.state (t + 1)).pc p = .idle →
      ∃ u < t, e.act u = .append p ∧ (e.state u).pc p = .entering b ∧
        (∀ x, u < x → x ≤ t → ((e.state x).pc p).waits = some b) ∧
        (finishedUpTo e t)[(appendedUpTo e u).length]? = some b := by
  intro t ht
  obtain ⟨xs, hinv, happended⟩ := run_inv e t ht
  refine ⟨xs, hinv.lists, happended, fun p b hwaits hdone => ?_, hinv.asleep, hinv.commands, fun hidle => ?_,
    fun p b hlt hcall hreturn => ?_⟩
  · exact List.count_eq_one_of_mem hinv.lists.nodup (hinv.unfinished p b hwaits hdone)
  · rw [hinv.commands] at hidle
    cases xs with
    | nil => rfl
    | cons c xs => cases hidle
  obtain ⟨hwaits, hnot⟩ := returns_finished hinv (e.next t hlt) hcall hreturn
  obtain ⟨u, hu, hact, hpc, hall⟩ := run_waits e t ht p b hwaits
  refine ⟨u, hu, hact, hpc, hall, ?_⟩
  have hget := appendedUpTo_get e hu hact hpc
  rw [happended] at hget
  -- A request that is not finished would still be in the queue.
  by_cases hdone : (appendedUpTo e u).length < (finishedUpTo e t).length
  · rw [List.getElem?_append_left hdone] at hget
    exact hget
  · rw [List.getElem?_append_right (Nat.not_lt.mp hdone)] at hget
    exact absurd (List.mem_of_getElem? hget) hnot

theorem run_append_isSome : ∀ t ≤ e.len, ∀ p b, (e.state t).pc p = .entering b →
    (iderwAppend (e.state t) p b).isSome := by
  intro t ht p b hpc
  obtain ⟨xs, hinv, -⟩ := run_inv e t ht
  exact iderwAppend_isSome hinv hpc

end Runs

/-- Two processes read a block each; the request of the first one finishes, and its call returns. -/
def twoReads : List (Act Bool Bool) :=
  [.acquiresleep false false, .acquiresleep true true, .iderw false false, .iderw true true, .append false,
    .sleep false, .append true, .sleep true, .intr none, .retest false]

def twoReadsTrace :
    Trace (State.init Bool (fun b : Bool => ⟨false, false, 0, b.toNat, fun _ => 0⟩) (fun _ => none) false) step :=
  Trace.ofList twoReads (.kill false) (by decide +kernel)

theorem disk_queue_in_order_twoReads :
    (appendedUpTo twoReadsTrace 10 = [false, true] ∧ finishedUpTo twoReadsTrace 10 = [false] ∧
      ∃ xs : List Bool, appendedUpTo twoReadsTrace 10 = finishedUpTo twoReadsTrace 10 ++ xs) ∧
    ∃ u < 9, twoReadsTrace.act u = .append false ∧
      (finishedUpTo twoReadsTrace 9)[(appendedUpTo twoReadsTrace u).length]? = some false := by
  refine ⟨⟨by decide +kernel, by decide +kernel, ?_⟩, ?_⟩
  · obtain ⟨xs, -, happended, -⟩ := disk_queue_in_order twoReadsTrace 10 (by decide)
    exact ⟨xs, happended⟩
  · obtain ⟨xs, -, -, -, -, -, -, hreturns⟩ := disk_queue_in_order twoReadsTrace 9 (by decide)
    obtain ⟨u, hu, hact, -, -, hfinished⟩ := hreturns false false (by decide) (by decide +kernel) (by decide +kernel)
    exact ⟨u, hu, hact, hfinished⟩

end Laboratorio.Ide
