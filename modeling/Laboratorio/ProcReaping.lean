import Laboratorio.ProcCalls

/-! The history of a run of calls: which process forked which, who exited and who was reaped by whom. Every
child is reaped at most once, after it exited, by the process that is its parent then, and the number of
slots in use is the number of processes forked and not yet reaped. Within the range of `int` a pid is
never given out twice, so that it stands for the process. -/

namespace Laboratorio.Procs

/-- What a call adds to the history, by pids. -/
inductive Event where
  | fork (parent child : Int)
  | exit (pid : Int)
  | wait (caller child : Int)
  deriving DecidableEq

def eventOf (s : Table) (cur : Slot) (c : Call) (r : Int) : List Event :=
  match c with
  | .fork _ => if r = -1 then [] else [.fork (s.proc cur).pid r]
  | .exit => [.exit (s.proc cur).pid]
  | .wait => if r = -1 then [] else [.wait (s.proc cur).pid r]
  | .kill _ => []

def events (s : Table) (a : Slot × Call) : List Event :=
  match call s a with
  | some (r, _) => eventOf s a.1 a.2 r
  | none => []

def history (e : Trace Table.boot next) (t : Nat) : List Event :=
  (List.range t).flatMap fun i => events (e.state i) (e.act i)

abbrev INITPID : Int := 1

/-- Whose child a process forked by `p` is: `p`'s until `p` exits, and then `initproc`'s. -/
def parentOf (log : List Event) (p : Int) : Int := if .exit p ∈ log then INITPID else p

def Event.waited : Event → Option Int
  | .wait _ r => some r
  | _ => none

def Event.isFork : Event → Bool
  | .fork _ _ => true
  | _ => false

def waited (log : List Event) : List Int := log.filterMap Event.waited

/-- Every `wait` in the history returned a child that had exited, to its parent at that time. -/
def Justified (log : List Event) : Prop :=
  ∀ before q r after, log = before ++ .wait q r :: after →
    ∃ p, .fork p r ∈ before ∧ .exit r ∈ before ∧ q = parentOf before p

variable {log : List Event} {x : Event}

theorem justified_concat (h : Justified log)
    (hx : ∀ q r, x = .wait q r → ∃ p, .fork p r ∈ log ∧ .exit r ∈ log ∧ q = parentOf log p) :
    Justified (log ++ [x]) := by
  intro before q r after heq
  rcases List.eq_nil_or_concat' after with rfl | ⟨rest, y, rfl⟩
  · obtain ⟨rfl, hsame⟩ := List.append_inj' heq rfl
    exact hx q r (List.head_eq_of_cons_eq hsame)
  · rw [← List.cons_append, ← List.append_assoc] at heq
    exact h before q r rest (List.append_inj' heq rfl).1

theorem mem_waited {r : Int} : r ∈ waited log ↔ ∃ q, .wait q r ∈ log := by
  rw [waited, List.mem_filterMap]
  constructor
  · rintro ⟨x, hx, hr⟩
    cases x with
    | wait q r' =>
      cases hr
      exact ⟨q, hx⟩
    | fork p r' => cases hr
    | exit p => cases hr
  · rintro ⟨q, hq⟩
    exact ⟨_, hq, rfl⟩

theorem mem_concat {y : Event} : y ∈ log ++ [x] ↔ y ∈ log ∨ y = x := by
  rw [List.mem_append, List.mem_singleton]

theorem waited_concat (log : List Event) (x : Event) : waited (log ++ [x]) = waited log ++ x.waited.toList := by
  rw [waited, List.filterMap_append]
  cases x <;> rfl

theorem parentOf_concat (hx : ∀ r, .exit r ≠ x) (q : Int) :
    parentOf (log ++ [x]) q = parentOf log q := by
  have hiff : .exit q ∈ log ++ [x] ↔ .exit q ∈ log := mem_concat.trans (or_iff_left (hx q))
  rw [parentOf, parentOf]
  simp only [hiff]

theorem used_of_runnable {p : Proc} (h : p.state = .runnable) : p.state ≠ .unused := by
  rw [h]
  exact nofun

/-! ### Counting slots -/

theorem pscnt_eq (s : Table) :
    pscnt s = (Finset.univ.filter fun k => (s.proc k).state ≠ .unused).card := by
  rw [pscnt, ← List.toFinset_card_of_nodup ((List.nodup_finRange NPROC).filter _)]
  congr 1
  ext k
  simp

theorem pscnt_congr {s s' : Table} (h : ∀ k, (s'.proc k).state = .unused ↔ (s.proc k).state = .unused) :
    pscnt s' = pscnt s := by
  rw [pscnt_eq, pscnt_eq]
  congr 1
  ext k
  rw [Finset.mem_filter, Finset.mem_filter, ne_eq, ne_eq, h k]

variable {k : Slot}

theorem pscnt_insert {s s' : Table} (hk : (s.proc k).state = .unused) (hk' : (s'.proc k).state ≠ .unused)
    (h : ∀ l, l ≠ k → ((s'.proc l).state = .unused ↔ (s.proc l).state = .unused)) :
    pscnt s' = pscnt s + 1 := by
  have hinsert : (Finset.univ.filter fun l => (s'.proc l).state ≠ .unused) =
      insert k (Finset.univ.filter fun l => (s.proc l).state ≠ .unused) := by
    ext l
    rw [Finset.mem_insert, Finset.mem_filter, Finset.mem_filter]
    by_cases hlk : l = k
    · rw [hlk]
      simp [hk']
    · rw [ne_eq, ne_eq, h l hlk]
      simp [hlk]
  rw [pscnt_eq, pscnt_eq, hinsert, Finset.card_insert_of_notMem]
  rw [Finset.mem_filter, not_and, not_not]
  exact fun _ => hk

/-! ### The table and the history -/

/-- The table tells of each process what the history does. -/
structure Agrees (s : Table) (log : List Event) : Prop where
  pids : Pids s
  init : (s.proc INITPROC).pid = INITPID ∧ (s.proc INITPROC).state = .runnable
  states : ∀ k, (s.proc k).state = .unused ∨ (s.proc k).state = .runnable ∨ (s.proc k).state = .zombie
  orphan : ∀ k, (s.proc k).state = .unused → (s.proc k).parent = none
  forked : ∀ p r, .fork p r ∈ log → INITPID ≤ p ∧ p < r ∧ r < s.nextpid
  unique : ∀ p p' r, .fork p r ∈ log → .fork p' r ∈ log → p = p'
  exited : ∀ r, .exit r ∈ log → INITPID < r ∧ r < s.nextpid
  reaped : ∀ q r, .wait q r ∈ log → r < s.nextpid
  process : ∀ k, k ≠ INITPROC → (s.proc k).state ≠ .unused → ∃ p j, .fork p (s.proc k).pid ∈ log ∧
    (s.proc k).parent = some j ∧ (s.proc j).state = .runnable ∧ (s.proc j).pid = parentOf log p
  zombie : ∀ k, (s.proc k).state ≠ .unused → ((s.proc k).state = .zombie ↔ .exit (s.proc k).pid ∈ log)
  unreaped : ∀ k, (s.proc k).state ≠ .unused → (s.proc k).pid ∉ waited log
  present : ∀ p r, .fork p r ∈ log → r ∉ waited log → ∃ k, (s.proc k).state ≠ .unused ∧ (s.proc k).pid = r

namespace Agrees

variable {s s' : Table} {log : List Event} {cur : Slot}

theorem boot : Agrees Table.boot [] := by
  have hinit : (Table.boot.proc INITPROC).state = .runnable := rfl
  have hused : ∀ k, (Table.boot.proc k).state ≠ .unused → k = INITPROC := by
    intro k hk
    by_contra hne
    rw [Table.boot_of_ne hne] at hk
    exact hk rfl
  refine ⟨Pids.boot, ⟨rfl, rfl⟩, fun k => ?_, fun k hk => ?_, nofun, nofun, nofun, nofun,
    fun k hk hstate => absurd (hused k hstate) hk, fun k hk => ?_, fun k hk => nofun, nofun⟩
  · by_cases hk : k = INITPROC
    · rw [hk]
      exact Or.inr (Or.inl rfl)
    · rw [Table.boot_of_ne hk]
      exact Or.inl rfl
  · by_cases hki : k = INITPROC
    · rw [hki, hinit] at hk
      cases hk
    · rw [Table.boot_of_ne hki]
      rfl
  · rw [hused k hk, hinit]
    exact ⟨nofun, nofun⟩

variable (h : Agrees s log)

include h

theorem slot_eq {l : Slot} (hk : (s.proc k).state ≠ .unused) (heq : (s.proc k).pid = (s.proc l).pid) : k = l :=
  h.pids.inj k l (h.pids.pos k hk).ne' heq

theorem same (hpids : Pids s') (hnext : s.nextpid ≤ s'.nextpid)
    (hstate : ∀ k, (s'.proc k).state = (s.proc k).state) (hparent : ∀ k, (s'.proc k).parent = (s.proc k).parent)
    (hpid : ∀ k, (s.proc k).state ≠ .unused → (s'.proc k).pid = (s.proc k).pid) : Agrees s' log := by
  refine ⟨hpids, ⟨(hpid _ (used_of_runnable h.init.2)).trans h.init.1, (hstate _).trans h.init.2⟩, fun k => ?_,
    fun k hk => ?_, fun p r hf => ?_, h.unique, fun r hr => ?_, fun q r hq => ?_, fun k hk hused => ?_,
    fun k hused => ?_, fun k hused => ?_, fun p r hf hr => ?_⟩
  · rw [hstate]
    exact h.states k
  · rw [hparent]
    exact h.orphan k (hstate k ▸ hk)
  · obtain ⟨hp, hlt, hr⟩ := h.forked p r hf
    exact ⟨hp, hlt, hr.trans_le hnext⟩
  · obtain ⟨hone, hlt⟩ := h.exited r hr
    exact ⟨hone, hlt.trans_le hnext⟩
  · exact (h.reaped q r hq).trans_le hnext
  · rw [hstate] at hused
    obtain ⟨p, j, hfork, hpar, hj, hjpid⟩ := h.process k hk hused
    rw [hpid k hused]
    exact ⟨p, j, hfork, (hparent k).trans hpar, (hstate j).trans hj, (hpid j (used_of_runnable hj)).trans hjpid⟩
  · rw [hstate] at hused ⊢
    rw [hpid k hused]
    exact h.zombie k hused
  · rw [hstate] at hused
    rw [hpid k hused]
    exact h.unreaped k hused
  · obtain ⟨k, hused, hkpid⟩ := h.present p r hf hr
    exact ⟨k, by rwa [hstate], (hpid k hused).trans hkpid⟩

theorem fork (hcur : (s.proc cur).state = .runnable) (hunused : (s.proc k).state = .unused)
    (hpids : Pids s') (hnext : s'.nextpid = s.nextpid + 1) (hother : ∀ l, l ≠ k → s'.proc l = s.proc l)
    (hpid : (s'.proc k).pid = s.nextpid) (hstate : (s'.proc k).state = .runnable)
    (hparent : (s'.proc k).parent = some cur) :
    Agrees s' (log ++ [.fork (s.proc cur).pid s.nextpid]) := by
  have hcurused := used_of_runnable hcur
  have hsame : ∀ l, (s.proc l).state ≠ .unused → s'.proc l = s.proc l := by
    intro l hl
    apply hother
    rintro rfl
    exact hl hunused
  have hwaited : waited (log ++ [.fork (s.proc cur).pid s.nextpid]) = waited log :=
    (waited_concat log _).trans (List.append_nil _)
  have hforked : ∀ q r, .fork q r ∈ log → r ≠ s.nextpid := fun q r hf => (h.forked q r hf).2.2.ne
  have hcurpid : INITPID ≤ (s.proc cur).pid := Int.add_one_le_of_lt (h.pids.pos cur hcurused)
  have hlive : (s.proc cur).pid < s.nextpid := h.pids.lt cur
  refine ⟨hpids, ?_, fun l => ?_, fun l hl => ?_, fun q r hf => ?_, fun q q' r hf hf' => ?_,
    fun r hr => ?_, fun q r hq => ?_, fun l hl hused => ?_, fun l hused => ?_, fun l hused => ?_,
    fun q r hf hr => ?_⟩
  · rw [hsame _ (used_of_runnable h.init.2)]
    exact h.init
  · by_cases hlk : l = k
    · rw [hlk, hstate]
      exact Or.inr (Or.inl rfl)
    · rw [hother l hlk]
      exact h.states l
  · by_cases hlk : l = k
    · rw [hlk, hstate] at hl
      cases hl
    · rw [hother l hlk] at hl ⊢
      exact h.orphan l hl
  · rcases mem_concat.mp hf with hf | hf
    · obtain ⟨hq, hlt, hr⟩ := h.forked q r hf
      exact ⟨hq, hlt, by omega⟩
    · cases hf
      exact ⟨hcurpid, hlive, by omega⟩
  · rcases mem_concat.mp hf with hf | hf
    · rcases mem_concat.mp hf' with hf' | hf'
      · exact h.unique q q' r hf hf'
      · cases hf'
        exact absurd rfl (hforked q _ hf)
    · rcases mem_concat.mp hf' with hf' | hf'
      · cases hf
        exact absurd rfl (hforked q' _ hf')
      · cases hf
        cases hf'
        rfl
  · obtain ⟨hone, hlt⟩ := h.exited r ((mem_concat.mp hr).resolve_right nofun)
    exact ⟨hone, by omega⟩
  · rcases mem_concat.mp hq with hq | hq
    · have hlt := h.reaped q r hq
      omega
    · cases hq
  · by_cases hlk : l = k
    · refine ⟨(s.proc cur).pid, cur, ?_, ?_, ?_, ?_⟩
      · rw [hlk, hpid]
        exact mem_concat.mpr (Or.inr rfl)
      · rw [hlk, hparent]
      · rw [hsame cur hcurused]
        exact hcur
      · rw [hsame cur hcurused, parentOf_concat (by simp), parentOf, if_neg]
        exact fun hexited => nomatch hcur.symm.trans ((h.zombie cur hcurused).mpr hexited)
    · rw [hother l hlk] at hused ⊢
      obtain ⟨q, j, hfork, hpar, hj, hjpid⟩ := h.process l hl hused
      refine ⟨q, j, mem_concat.mpr (Or.inl hfork), hpar, ?_⟩
      rw [hsame j (used_of_runnable hj), parentOf_concat (by simp)]
      exact ⟨hj, hjpid⟩
  · by_cases hlk : l = k
    · rw [hlk, hpid, hstate, mem_concat, or_iff_left nofun]
      refine ⟨nofun, fun hexited => ?_⟩
      have hlt := (h.exited _ hexited).2
      omega
    · rw [hother l hlk] at hused ⊢
      rw [mem_concat, or_iff_left nofun]
      exact h.zombie l hused
  · rw [hwaited]
    by_cases hlk : l = k
    · rw [hlk, hpid]
      intro hmem
      obtain ⟨q, hq⟩ := mem_waited.mp hmem
      have hlt := h.reaped q _ hq
      omega
    · rw [hother l hlk] at hused ⊢
      exact h.unreaped l hused
  · rw [hwaited] at hr
    rcases mem_concat.mp hf with hf | hf
    · obtain ⟨l, hused, hlpid⟩ := h.present q r hf hr
      exact ⟨l, by rwa [hsame l hused], by rwa [hsame l hused]⟩
    · cases hf
      exact ⟨k, used_of_runnable hstate, hpid⟩

theorem exit (hcur : (s.proc cur).state = .runnable) (hother : cur ≠ INITPROC) (hpids : Pids (Procs.exit s cur)) :
    Agrees (Procs.exit s cur) (log ++ [.exit (s.proc cur).pid]) := by
  have hcurused := used_of_runnable hcur
  have hpid : ∀ k, ((Procs.exit s cur).proc k).pid = (s.proc k).pid := fun k => (exit_fields s cur k).1
  have hstate : ∀ k, k ≠ cur → ((Procs.exit s cur).proc k).state = (s.proc k).state := by
    intro k hk
    have hadopt : (adopt cur (s.proc k)).state = (s.proc k).state := by
      unfold adopt
      split <;> rfl
    rcases exit_other s hk with heq | ⟨hsleep, -⟩
    · rw [heq, hadopt]
    · rw [hadopt] at hsleep
      rcases h.states k with hk | hk | hk <;> rw [hk] at hsleep <;> cases hsleep
  have hused : ∀ k, ((Procs.exit s cur).proc k).state ≠ .unused → (s.proc k).state ≠ .unused := by
    intro k hk
    by_cases hkc : k = cur
    · rw [hkc]
      exact hcurused
    · rwa [← hstate k hkc]
  have hparent : ∀ k, ((Procs.exit s cur).proc k).parent = (adopt cur (s.proc k)).parent :=
    fun k => (exit_fields s cur k).2.2
  have hfork : ∀ {p r}, .fork p r ∈ log ++ [.exit (s.proc cur).pid] → .fork p r ∈ log :=
    fun hf => (mem_concat.mp hf).resolve_right nofun
  have hwaited : waited (log ++ [.exit (s.proc cur).pid]) = waited log :=
    (waited_concat log _).trans (List.append_nil _)
  have hcurpid : INITPID < (s.proc cur).pid := by
    have hpos := h.pids.pos cur hcurused
    have hne : (s.proc cur).pid ≠ 1 := fun heq => hother (h.slot_eq hcurused (heq.trans h.init.1.symm))
    change 1 < (s.proc cur).pid
    omega
  refine ⟨hpids, ?_, fun k => ?_, fun k hk => ?_, fun p r hf => ?_, fun p p' r hf hf' => ?_, fun r hr => ?_,
    fun q r hq => ?_, fun k hk hkused => ?_, fun k hkused => ?_, fun k hkused => ?_, fun p r hf hr => ?_⟩
  · rw [hpid, hstate _ hother.symm]
    exact h.init
  · by_cases hkc : k = cur
    · rw [hkc, exit_state_self]
      exact Or.inr (Or.inr rfl)
    · rw [hstate k hkc]
      exact h.states k
  · have hkc : k ≠ cur := by
      rintro rfl
      rw [exit_state_self] at hk
      cases hk
    rw [hstate k hkc] at hk
    rw [hparent, adopt, h.orphan k hk, if_neg nofun]
    exact h.orphan k hk
  · rw [exit_nextpid]
    exact h.forked p r (hfork hf)
  · exact h.unique p p' r (hfork hf) (hfork hf')
  · rw [exit_nextpid]
    rcases mem_concat.mp hr with hr | hr
    · exact h.exited r hr
    · cases hr
      exact ⟨hcurpid, h.pids.lt cur⟩
  · rw [exit_nextpid]
    exact h.reaped q r ((mem_concat.mp hq).resolve_right nofun)
  · obtain ⟨p, j, hf, hpar, hj, hjpid⟩ := h.process k hk (hused k hkused)
    rw [hpid]
    by_cases hjc : j = cur
    · -- The parent was `cur`, which had not exited: it is the forker.
      have hp : p = (s.proc cur).pid := by
        rw [hjc, parentOf] at hjpid
        split at hjpid
        · omega
        · exact hjpid.symm
      refine ⟨p, INITPROC, mem_concat.mpr (Or.inl hf), ?_, ?_, ?_⟩
      · rw [hparent, adopt, if_pos (hjc ▸ hpar)]
      · rw [hstate _ hother.symm]
        exact h.init.2
      · rw [hpid, h.init.1, parentOf, if_pos (mem_concat.mpr (Or.inr (congrArg Event.exit hp)))]
    · refine ⟨p, j, mem_concat.mpr (Or.inl hf), ?_, ?_, ?_⟩
      · rw [hparent, adopt, if_neg, hpar]
        rw [hpar]
        exact fun heq => hjc (Option.some.inj heq)
      · rw [hstate j hjc]
        exact hj
      rw [hpid, hjpid, parentOf, parentOf]
      by_cases hexited : .exit p ∈ log
      · rw [if_pos hexited, if_pos (mem_concat.mpr (Or.inl hexited))]
      · rw [if_neg hexited, if_neg]
        intro hmem
        rcases mem_concat.mp hmem with hmem | hmem
        · exact hexited hmem
        · cases hmem
          rw [parentOf, if_neg hexited] at hjpid
          exact hjc (h.slot_eq (used_of_runnable hj) hjpid)
  · rw [hpid]
    by_cases hkc : k = cur
    · rw [hkc, exit_state_self]
      exact ⟨fun _ => mem_concat.mpr (Or.inr rfl), fun _ => rfl⟩
    · rw [hstate k hkc, h.zombie k (hused k hkused), mem_concat]
      refine ⟨Or.inl, fun hor => hor.resolve_right fun heq => ?_⟩
      exact hkc (h.slot_eq (hused k hkused) (Event.exit.inj heq))
  · rw [hpid, hwaited]
    exact h.unreaped k (hused k hkused)
  · rw [hwaited] at hr
    obtain ⟨k, hkused, hkpid⟩ := h.present p r (hfork hf) hr
    refine ⟨k, ?_, (hpid k).trans hkpid⟩
    by_cases hkc : k = cur
    · rw [hkc, exit_state_self]
      exact nofun
    · rwa [hstate k hkc]

theorem reap (hparent : (s.proc k).parent = some cur) (hzombie : (s.proc k).state = .zombie)
    (hpids : Pids (Procs.reap s k)) :
    Agrees (Procs.reap s k) (log ++ [.wait (s.proc cur).pid (s.proc k).pid]) := by
  have hne : ∀ l, (s.proc l).state = .runnable → l ≠ k := by
    rintro l hl rfl
    rw [hzombie] at hl
    cases hl
  have hother : ∀ l, ((Procs.reap s k).proc l).state ≠ .unused → l ≠ k := by
    rintro l hl rfl
    rw [reap_self] at hl
    exact hl rfl
  have hfork : ∀ {p r}, .fork p r ∈ log ++ [.wait (s.proc cur).pid (s.proc k).pid] → .fork p r ∈ log :=
    fun hf => (mem_concat.mp hf).resolve_right nofun
  have hwaited : ∀ r, r ∈ waited (log ++ [.wait (s.proc cur).pid (s.proc k).pid]) ↔
    r ∈ waited log ∨ r = (s.proc k).pid := by
    intro r
    rw [waited_concat, List.mem_append]
    exact or_congr Iff.rfl List.mem_singleton
  refine ⟨hpids, ?_, fun l => ?_, fun l hl => ?_, fun p r hf => h.forked p r (hfork hf),
    fun p p' r hf hf' => h.unique p p' r (hfork hf) (hfork hf'), fun r hr =>
      h.exited r ((mem_concat.mp hr).resolve_right nofun),
    fun q r hq => ?_, fun l hl hused => ?_, fun l hused => ?_, fun l hused => ?_, fun p r hf hr => ?_⟩
  · rw [reap_other s (hne _ h.init.2)]
    exact h.init
  · by_cases hlk : l = k
    · rw [hlk, reap_self]
      exact Or.inl rfl
    · rw [reap_other s hlk]
      exact h.states l
  · by_cases hlk : l = k
    · rw [hlk, reap_self]
    · rw [reap_other s hlk] at hl ⊢
      exact h.orphan l hl
  · rcases mem_concat.mp hq with hq | hq
    · exact h.reaped q r hq
    · cases hq
      exact h.pids.lt k
  · have hlk := hother l hused
    rw [reap_other s hlk] at hused ⊢
    obtain ⟨p, j, hf, hpar, hj, hjpid⟩ := h.process l hl hused
    refine ⟨p, j, mem_concat.mpr (Or.inl hf), hpar, ?_⟩
    rw [reap_other s (hne j hj), parentOf_concat (by simp)]
    exact ⟨hj, hjpid⟩
  · have hlk := hother l hused
    rw [reap_other s hlk] at hused ⊢
    rw [mem_concat, or_iff_left nofun]
    exact h.zombie l hused
  · have hlk := hother l hused
    rw [reap_other s hlk] at hused ⊢
    rw [hwaited, not_or]
    exact ⟨h.unreaped l hused, fun heq => hlk (h.slot_eq hused heq)⟩
  · rw [hwaited, not_or] at hr
    obtain ⟨l, hused, hlpid⟩ := h.present p r (hfork hf) hr.1
    have hlk : l ≠ k := by
      rintro rfl
      exact hr.2 hlpid.symm
    exact ⟨l, by rwa [reap_other s hlk], by rwa [reap_other s hlk]⟩

end Agrees

/-- The table, the history and the counts. -/
structure Tallies (s : Table) (log : List Event) : Prop where
  agrees : Agrees s log
  justified : Justified log
  once : (waited log).Nodup
  count : pscnt s + (waited log).length = 1 + log.countP Event.isFork

namespace Tallies

variable {s s' : Table} {log : List Event} {cur : Slot} {c : Call} {r : Int}

theorem boot : Tallies Table.boot [] := by
  refine ⟨Agrees.boot, fun before q r after heq => ?_, List.nodup_nil, by decide +kernel⟩
  cases before <;> cases heq

theorem same (h : Tallies s log) (hagrees : Agrees s' log)
    (hstate : ∀ k, (s'.proc k).state = (s.proc k).state) : Tallies s' (log ++ []) := by
  rw [List.append_nil]
  refine ⟨hagrees, h.justified, h.once, ?_⟩
  have hcount : pscnt s' = pscnt s := pscnt_congr fun k => by rw [hstate k]
  rw [hcount]
  exact h.count

theorem concat (h : Tallies s log) (hx : x.waited = none) (hagrees : Agrees s' (log ++ [x]))
    (hcount : pscnt s' = pscnt s + if x.isFork then 1 else 0) : Tallies s' (log ++ [x]) := by
  have hwaited : waited (log ++ [x]) = waited log := by
    rw [waited_concat, hx]
    exact List.append_nil _
  refine ⟨hagrees, justified_concat h.justified ?_, hwaited ▸ h.once, ?_⟩
  · rintro q r rfl
    cases hx
  · have hold := h.count
    rw [hwaited, List.countP_append, List.countP_singleton, hcount]
    omega

theorem wait (h : Tallies s log) (hparent : (s.proc k).parent = some cur)
    (hzombie : (s.proc k).state = .zombie) (hpids : Pids (reap s k)) :
    Tallies (reap s k) (log ++ [.wait (s.proc cur).pid (s.proc k).pid]) := by
  have hused : (s.proc k).state ≠ .unused := by
    rw [hzombie]
    exact nofun
  have hwaited : waited (log ++ [.wait (s.proc cur).pid (s.proc k).pid]) = waited log ++ [(s.proc k).pid] :=
    waited_concat log _
  refine ⟨h.agrees.reap hparent hzombie hpids, justified_concat h.justified ?_, ?_, ?_⟩
  · rintro q r heq
    cases heq
    have hinit : k ≠ INITPROC := by
      rintro rfl
      rw [h.agrees.init.2] at hzombie
      cases hzombie
    obtain ⟨p, j, hfork, hpar, -, hpid⟩ := h.agrees.process k hinit hused
    cases hparent.symm.trans hpar
    exact ⟨p, hfork, (h.agrees.zombie k hused).mp hzombie, hpid⟩
  · rw [hwaited, ← List.concat_eq_append]
    exact h.once.concat (h.agrees.unreaped k hused)
  · have hold := h.count
    have hcount : pscnt s = pscnt (reap s k) + 1 := by
      refine pscnt_insert (by rw [reap_self]) hused fun l hl => ?_
      rw [reap_other s hl]
    rw [hwaited, List.length_append, List.length_singleton, List.countP_append]
    change _ = 1 + (log.countP Event.isFork + 0)
    omega

theorem effect (h : Tallies s log) (hrun : (s.proc cur).state = .runnable) (heffect : Effect s cur c r s') :
    Tallies s' (log ++ eventOf s cur c r) := by
  have hpids := h.agrees.pids.effect hrun heffect
  have hpos : ∀ k, (s.proc k).pid ≠ -1 := by
    intro k heq
    have hnonneg := h.agrees.pids.nonneg k
    omega
  cases heffect with
  | full memory => exact h.same h.agrees fun _ => rfl
  | failed memory k p unused pid killed state parent =>
    have hstate : ∀ l, ((s.alloc k p).proc l).state = (s.proc l).state := by
      intro l
      by_cases hlk : l = k
      · rw [hlk, s.alloc_self, state, unused]
      · rw [s.alloc_other p hlk]
    refine h.same (h.agrees.same hpids (Int.le_add_one (le_refl _)) hstate (fun l => ?_) fun l hl => ?_) hstate
    · by_cases hlk : l = k
      · rw [hlk, s.alloc_self, parent]
      · rw [s.alloc_other p hlk]
    · have hlk : l ≠ k := by
        rintro rfl
        exact hl unused
      rw [s.alloc_other p hlk]
  | forked memory k p unused pid killed state parent =>
    have hnew : ¬s.nextpid = -1 := by
      have hlt := h.agrees.pids.lt k
      have hnonneg := h.agrees.pids.nonneg k
      omega
    rw [eventOf, if_neg hnew]
    refine h.concat rfl (h.agrees.fork hrun unused hpids rfl (fun l => s.alloc_other p) ?_ ?_ ?_) ?_
    · rw [s.alloc_self, pid]
    · rw [s.alloc_self, state]
    · rw [s.alloc_self, parent]
    · refine pscnt_insert unused ?_ fun l hl => ?_
      · rw [s.alloc_self, state]
        exact nofun
      · rw [s.alloc_other p hl]
  | exited other =>
    refine h.concat rfl (h.agrees.exit hrun other hpids) ?_
    refine pscnt_congr fun k => ?_
    by_cases hkc : k = cur
    · rw [hkc, exit_state_self, hrun]
      exact ⟨nofun, nofun⟩
    · exact exit_state s hkc nofun nofun
  | reaped k parent zombie =>
    rw [eventOf, if_neg (hpos k)]
    exact h.wait parent zombie hpids
  | gaveUp | missed => exact h.same h.agrees fun _ => rfl
  | marked k p killed woken =>
    have hstate : ∀ l, ((s.set k p).proc l).state = (s.proc l).state := by
      intro l
      by_cases hlk : l = k
      · rw [hlk, s.set_self]
        rcases woken with heq | ⟨hsleep, -⟩
        · have hsame := congrArg Proc.state heq
          exact hsame
        · rcases h.agrees.states k with hk | hk | hk <;> rw [hk] at hsleep <;> cases hsleep
      · rw [s.set_other p hlk]
    refine h.same (h.agrees.same hpids (le_refl _) hstate (fun l => ?_) fun l hl => ?_) hstate
    · by_cases hlk : l = k
      · rw [hlk, s.set_self]
        exact woken.parent
      · rw [s.set_other p hlk]
    · by_cases hlk : l = k
      · rw [hlk, s.set_self]
        exact woken.pid
      · rw [s.set_other p hlk]

end Tallies

section Runs

variable (e : Trace Table.boot next)

theorem history_succ {t : Nat} {r : Int} (hcall : call (e.state t) (e.act t) = some (r, e.state (t + 1))) :
    history e (t + 1) = history e t ++ eventOf (e.state t) (e.act t).1 (e.act t).2 r := by
  have hevents : events (e.state t) (e.act t) = eventOf (e.state t) (e.act t).1 (e.act t).2 r := by
    rw [events, hcall]
  rw [history, List.range_succ, List.flatMap_append, List.flatMap_singleton, hevents]
  rfl

theorem tallies_run : ∀ t ≤ e.len, Tallies (e.state t) (history e t) := by
  intro t
  induction t with
  | zero =>
    intro _
    rw [e.start]
    exact Tallies.boot
  | succ t ih =>
    intro ht
    obtain ⟨r, hcall, hrun, heffect⟩ := effect_of_trace e ht
    rw [history_succ e hcall]
    exact (ih (by omega)).effect hrun heffect

/-- At every time of every run of calls: no pid was returned by two `wait`s; each `wait` returned a child
that had been forked and had exited, to its parent; `pscnt` counts the processes forked and not reaped;
and a `wait` that returns -1 is by a process without unreaped children, or killed. -/
theorem children_reaped_once :
    ∀ t ≤ e.len, (waited (history e t)).Nodup ∧ Justified (history e t) ∧
      (pscnt (e.state t) : Int) = 1 + (history e t).countP Event.isFork - (waited (history e t)).length ∧
      (t < e.len → ∀ q, e.act t = (q, .wait) → (call (e.state t) (e.act t)).map Prod.fst = some (-1) →
        ((e.state t).proc q).killed = true ∨ ∀ p r, .fork p r ∈ history e t →
          parentOf (history e t) p = ((e.state t).proc q).pid → r ∈ waited (history e t)) := by
  intro t ht
  have h := tallies_run e t ht
  refine ⟨h.once, h.justified, ?_, fun hlt q hact hanswer => ?_⟩
  · have hcount := h.count
    omega
  obtain ⟨r, hcall, hrun, heffect⟩ := effect_of_trace e hlt
  have hr : r = -1 := by
    rw [hcall] at hanswer
    exact Option.some.inj hanswer
  rw [hact, hr] at heffect
  rw [hact] at hrun
  generalize hs' : e.state (t + 1) = s' at heffect
  generalize hpid : (-1 : Int) = pid at heffect
  cases heffect with
  | reaped k =>
    have hnonneg := h.agrees.pids.nonneg k
    omega
  | gaveUp reason =>
    refine reason.symm.imp_right fun hnochild p r' hfork hparent => ?_
    by_contra hnot
    obtain ⟨k, hused, hkpid⟩ := h.agrees.present p r' hfork hnot
    have hinit : k ≠ INITPROC := by
      rintro rfl
      obtain ⟨hp, hlt', -⟩ := h.agrees.forked p r' hfork
      rw [h.agrees.init.1] at hkpid
      omega
    obtain ⟨p', j, hfork', hpar, hj, hjpid⟩ := h.agrees.process k hinit hused
    rw [hkpid] at hfork'
    obtain rfl := h.agrees.unique p p' r' hfork hfork'
    obtain rfl := h.agrees.slot_eq (used_of_runnable hj) (hjpid.trans hparent)
    exact hnochild k hpar

end Runs

/-- `initproc` forks 2, which forks 3; both exit, and `initproc` waits three times. -/
def family : List (Slot × Call) :=
  [(INITPROC, .fork .enough), (slot 1, .fork .enough), (slot 1, .exit), (slot 2, .exit)] ++
    List.replicate 3 (INITPROC, .wait)

def familyTrace : Trace Table.boot next := Trace.ofList family (INITPROC, .wait) (by decide +kernel)

theorem children_reaped_once_family :
    history familyTrace 6 = [.fork 1 2, .fork 2 3, .exit 2, .exit 3, .wait 1 2, .wait 1 3] ∧
      (waited (history familyTrace 6)).Nodup ∧ Justified (history familyTrace 6) ∧
      (pscnt (familyTrace.state 6) : Int) =
        1 + (history familyTrace 6).countP Event.isFork - (waited (history familyTrace 6)).length ∧
      (((familyTrace.state 6).proc 0).killed = true ∨ ∀ p r, .fork p r ∈ history familyTrace 6 →
        parentOf (history familyTrace 6) p = ((familyTrace.state 6).proc 0).pid →
          r ∈ waited (history familyTrace 6)) := by
  obtain ⟨honce, hjustified, hcount, hgaveUp⟩ := children_reaped_once familyTrace 6 (by decide)
  exact ⟨by decide +kernel, honce, hjustified, hcount, hgaveUp (by decide) 0 rfl (by decide +kernel)⟩

end Laboratorio.Procs
