import Laboratorio.Bio
import Laboratorio.Counting
import Laboratorio.Trace

/-! The buffer cache is transparent: whatever the processes do with the blocks of the disk, `bread` returns
the last data stored. The list of buffers stays a ring of all of them, a block is in one buffer at most, and
a buffer in use or with data that the disk has not is not recycled. -/

namespace Laboratorio.Bio

open Function

open Xv6Log

/-! ### The list of buffers -/

variable {l : List (Fin NBUF)}

theorem ring_foldl {r : Links (Fin NBUF)} {l' : List (Fin NBUF)} (h : r.Ring l) (hnodup : (l' ++ l).Nodup) :
    (l'.foldl Links.insert r).Ring (l'.reverse ++ l) := by
  induction l' generalizing r l with
  | nil => exact h
  | cons b l' ih =>
    rw [List.cons_append, List.nodup_cons] at hnodup
    obtain ⟨hb, hrest⟩ := hnodup
    have hmem := List.mem_append.not.mp hb
    rw [List.reverse_cons, List.append_assoc]
    apply ih (h.insert fun hl => hmem (Or.inr hl))
    exact List.nodup_middle.mpr (List.nodup_cons.mpr ⟨hb, hrest⟩)

def Listed (r : Links (Fin NBUF)) : Prop := ∃ l, r.Ring l ∧ l.Perm (List.finRange NBUF)

theorem binit_listed : Listed binit := by
  have hnodup : (List.finRange NBUF ++ []).Nodup := by
    exact List.nodup_finRange NBUF
  have hring := ring_foldl (r := { next := fun _ => none, prev := fun _ => none }) (Links.Ring.nil rfl rfl) hnodup
  rw [List.append_nil] at hring
  exact ⟨_, hring, List.reverse_perm _⟩

section Ring

variable {r : Links (Fin NBUF)} {test : Fin NBUF → Bool} {b : Fin NBUF}

theorem Listed.mem (hperm : l.Perm (List.finRange NBUF)) (b : Fin NBUF) : b ∈ l :=
  hperm.mem_iff.mpr (List.mem_finRange b)

theorem Listed.length_lt (hperm : l.Perm (List.finRange NBUF)) : l.length < NBUF + 1 := by
  rw [hperm.length_eq, List.length_finRange]
  exact Nat.lt_succ_self NBUF

theorem Listed.front (h : Listed r) (b : Fin NBUF) : Listed ((r.unlink b).insert b) := by
  obtain ⟨l, hring, hperm⟩ := h
  have hb := Listed.mem hperm b
  refine ⟨b :: l.erase b, (hring.unlink hb).insert fun hmem => ?_, (List.perm_cons_erase hb).symm.trans hperm⟩
  exact (List.Nodup.mem_erase_iff hring.nodup).mp hmem |>.1 rfl

theorem Listed.find_next (h : Listed r) (test : Fin NBUF → Bool) :
    (∃ b, Links.find r.next test (NBUF + 1) (r.next none) = some b ∧ test b = true) ∨
    (Links.find r.next test (NBUF + 1) (r.next none) = none ∧ ∀ b, test b = false) := by
  obtain ⟨l, hring, hperm⟩ := h
  rw [hring.find_next (Listed.length_lt hperm)]
  cases hfind : l.find? test with
  | none =>
    refine Or.inr ⟨rfl, fun b => ?_⟩
    exact Bool.eq_false_iff.mpr (List.find?_eq_none.mp hfind b (Listed.mem hperm b))
  | some b => exact Or.inl ⟨b, rfl, List.find?_some hfind⟩

theorem Listed.find_prev (h : Listed r) (hfind : Links.find r.prev test (NBUF + 1) (r.prev none) = some b) :
    test b = true := by
  obtain ⟨l, hring, hperm⟩ := h
  rw [hring.find_prev (Listed.length_lt hperm)] at hfind
  exact List.find?_some hfind

end Ring

/-! ### Users of a buffer -/

/-- A process on its way to the lock of the buffer, or from it. -/
def weight (c : Fin NBUF) : Pc → Nat
  | .waiting _ b => if b = c then 1 else 0
  | .releasing b => if b = c then 1 else 0
  | _ => 0

/-- The buffer that a process is busy with. -/
def Pc.On (c : Fin NBUF) : Pc → Prop
  | .idle => False
  | .waiting _ b => b = c
  | .reading _ b => b = c
  | .releasing b => b = c

theorem weight_le_one (c : Fin NBUF) (x : Pc) : weight c x ≤ 1 := by
  cases x with
  | idle | reading n b => exact Nat.zero_le 1
  | waiting n b | releasing b =>
    rw [weight]
    split <;> decide

theorem weight_of_not_on {c : Fin NBUF} {x : Pc} (h : ¬x.On c) : weight c x = 0 := by
  cases x with
  | idle => rfl
  | reading n b => rfl
  | waiting n b | releasing b => exact if_neg h

theorem not_on_idle {x : Pc} (hpc : x = .idle) (c : Fin NBUF) : ¬x.On c := by
  rw [hpc]
  exact fun h => h

variable {P : Type} {s : Usage P}

theorem ne_of_idle {p q : P} {n : Nat} {b : Fin NBUF} (hpc : s.pc p = .idle)
    (hq : s.pc q = .reading n b) : q ≠ p := by
  rintro rfl
  rw [hpc] at hq
  cases hq

/-! ### Calls that return -/

variable {s' : Usage P}

section Calls

variable {s : Usage P} {k : Kernel P} {b : Fin NBUF} {p : P}

theorem bget_cases {n : Nat} (hlisted : Listed s.links) (hrun : s.toKernel.bget ROOTDEV n = .ok (b, k)) :
    ((s.buf b).dev = ROOTDEV ∧ (s.buf b).blockno = n ∧
      k = s.toKernel.set b { s.buf b with refcnt := (s.buf b).refcnt + 1 }) ∨
    ((∀ c, (s.buf c).dev = ROOTDEV → (s.buf c).blockno ≠ n) ∧ (s.buf b).refcnt = 0 ∧ (s.buf b).dirty = false ∧
      k = s.toKernel.set b
        { s.buf b with dev := ROOTDEV, blockno := n, valid := false, dirty := false, refcnt := 1 }) := by
  unfold Kernel.bget at hrun
  rcases hlisted.find_next fun b => decide ((s.buf b).dev = ROOTDEV ∧ (s.buf b).blockno = n) with
    ⟨c, hfind, htest⟩ | ⟨hfind, hnone⟩
  · rw [hfind] at hrun
    cases hrun
    obtain ⟨hdev, hblockno⟩ := of_decide_eq_true htest
    exact Or.inl ⟨hdev, hblockno, rfl⟩
  rw [hfind] at hrun
  dsimp only at hrun
  split at hrun
  · rename_i c hprev
    cases hrun
    obtain ⟨hrefcnt, hclean⟩ := of_decide_eq_true (hlisted.find_prev hprev)
    exact Or.inr ⟨fun c hdev hblockno => of_decide_eq_false (hnone c) ⟨hdev, hblockno⟩, hrefcnt, hclean, rfl⟩
  · cases hrun

theorem logWrite_ok (hrun : s.toKernel.logWrite b = .ok k) :
    ∃ l, k = { s.toKernel.set b { s.buf b with dirty := true } with log := l } := by
  unfold Kernel.logWrite at hrun
  split at hrun
  · cases hrun
  · split at hrun
    · cases hrun
    · cases hrun
      exact ⟨_, rfl⟩

theorem bwrite_ok [DecidableEq P] (hrun : s.toKernel.bwrite p b = .ok k) :
    k = { s.toKernel.set b { s.buf b with dirty := false, valid := true } with
      memdisk := update s.memdisk (s.buf b).blockno (s.buf b).data } := by
  have hself : (s.toKernel.set b { s.buf b with dirty := true }).buf b = { s.buf b with dirty := true } :=
    update_self _ _ _
  unfold Kernel.bwrite at hrun
  split at hrun
  · cases hrun
  unfold Kernel.iderw at hrun
  rw [hself] at hrun
  split at hrun
  · cases hrun
  split at hrun
  · cases hrun
  · split at hrun
    · cases hrun
    · split at hrun
      · cases hrun
      · rw [if_pos rfl] at hrun
        cases hrun
        simp only [Kernel.set, update_idem]

theorem brelseRest_buf (b : Fin NBUF) :
    (s.toKernel.brelseRest b).buf = update s.buf b { s.buf b with refcnt := (s.buf b).refcnt - 1 } := by
  unfold Kernel.brelseRest
  dsimp only
  split
  · rfl
  · rfl

theorem brelse_ok [DecidableEq P] (hrun : s.toKernel.brelse p b = .ok k) :
    k = s.toKernel.set b { s.buf b with lock := none } := by
  unfold Kernel.brelse at hrun
  split at hrun
  · cases hrun
  · cases hrun
    rfl

theorem toOption_map_eq_some {α β ε : Type} {r : Except ε α} {f : α → β} {y : β} (h : r.toOption.map f = some y) :
    ∃ a, r = .ok a ∧ f a = y := by
  cases r with
  | error e => cases h
  | ok a => exact ⟨a, rfl, Option.some.inj h⟩

theorem same_block {e : Buf P} (hbuf : s'.buf = update s.buf b e) (hdev : e.dev = (s.buf b).dev)
    (hblockno : e.blockno = (s.buf b).blockno) (c : Fin NBUF) :
    (s'.buf c).dev = (s.buf c).dev ∧ (s'.buf c).blockno = (s.buf c).blockno := by
  rw [hbuf]
  by_cases hc : c = b
  · rw [hc, update_self]
    exact ⟨hdev, hblockno⟩
  · rw [update_of_ne hc]
    exact ⟨rfl, rfl⟩

end Calls

/-! ### Counting the users -/

variable [Fintype P]

def users (pc : P → Pc) (c : Fin NBUF) : Nat := ∑ p, weight c (pc p)

theorem users_update [DecidableEq P] (pc : P → Pc) (p : P) (x : Pc) (c : Fin NBUF) :
    users (update pc p x) c + weight c (pc p) = users pc c + weight c x :=
  sum_update pc p x (weight c)

theorem users_le (pc : P → Pc) (c : Fin NBUF) : users pc c ≤ Fintype.card P := sum_le_card (weight_le_one c) pc

theorem weight_le_users (pc : P → Pc) (p : P) (c : Fin NBUF) : weight c (pc p) ≤ users pc c :=
  Finset.single_le_sum (f := fun p => weight c (pc p)) (fun _ _ => Nat.zero_le _) (Finset.mem_univ p)

/-! ### The invariant -/

structure Good (s : Usage P) (b : Fin NBUF) : Prop where
  count : (s.buf b).refcnt.toNat = users s.pc b + if (s.buf b).lock = none then 0 else 1
  waiting : ∀ p n, s.pc p = .waiting n b → (s.buf b).dev = ROOTDEV ∧ (s.buf b).blockno = n
  reading : ∀ p n, s.pc p = .reading n b →
    (s.buf b).lock = some p ∧ (s.buf b).blockno = n ∧ s.touched b = false
  held : ∀ p, (s.buf b).lock = some p → (s.buf b).dev = ROOTDEV ∧
    ((∀ n, s.pc p ≠ .reading n b) → (s.buf b).valid = true)
  touched : (s.buf b).lock = none → s.touched b = false
  dirty : (s.buf b).dirty = true → (s.buf b).valid = true
  disk : (s.buf b).dev = ROOTDEV → (s.buf b).dirty = false →
    s.memdisk (s.buf b).blockno = s.stored (s.buf b).blockno
  data : (s.buf b).dev = ROOTDEV → (s.buf b).valid = true → s.touched b = false →
    (s.buf b).data = s.stored (s.buf b).blockno

structure Inv (s : Usage P) : Prop where
  listed : Listed s.links
  unique : ∀ b c, (s.buf b).dev = ROOTDEV → (s.buf c).dev = ROOTDEV → (s.buf b).blockno = (s.buf c).blockno → b = c
  good : ∀ b, Good s b
  uncached : ∀ n, (∀ b, (s.buf b).dev = ROOTDEV → (s.buf b).blockno ≠ n) → s.memdisk n = s.stored n

theorem Inv.boot (d : Disk) (disksize : Nat) (log : LogState) : Inv (Usage.boot d disksize log : Usage P) := by
  have hdev : ∀ b, ((Usage.boot d disksize log : Usage P).buf b).dev ≠ ROOTDEV := fun _ => zero_ne_one
  have husers : ∀ b, users (fun _ : P => Pc.idle) b = 0 := fun b => Finset.sum_const_zero
  refine ⟨binit_listed, fun b _ hb => absurd hb (hdev b), fun b => ?_, fun _ _ => rfl⟩
  refine ⟨?_, nofun, nofun, nofun,
    fun _ => rfl, fun hdirty => Bool.noConfusion hdirty, fun hb => absurd hb (hdev b), fun hb => absurd hb (hdev b)⟩
  change 0 = users (fun _ : P => Pc.idle) b + 0
  rw [husers]

theorem Good.frame {c : Fin NBUF} (h : Good s c) (hbuf : s'.buf c = s.buf c)
    (htouched : s'.touched c = s.touched c) {p : P} (hold : ¬(s.pc p).On c) (hnew : ¬(s'.pc p).On c)
    (hpc : ∀ q, q ≠ p → s'.pc q = s.pc q)
    (hdisk : (s.buf c).dev = ROOTDEV → s'.memdisk (s.buf c).blockno = s.memdisk (s.buf c).blockno)
    (hstored : (s.buf c).dev = ROOTDEV → s'.stored (s.buf c).blockno = s.stored (s.buf c).blockno) : Good s' c := by
  have husers : users s'.pc c = users s.pc c := by
    apply Finset.sum_congr rfl
    intro q _
    by_cases hq : q = p
    · rw [hq, weight_of_not_on hold, weight_of_not_on hnew]
    · rw [hpc q hq]
  have hon : ∀ q (x : Pc), x.On c → (s'.pc q = x ↔ s.pc q = x) := by
    intro q x hx
    by_cases hq : q = p
    · rw [hq]
      exact iff_of_false (fun heq => hnew (heq ▸ hx)) fun heq => hold (heq ▸ hx)
    · rw [hpc q hq]
  refine ⟨?_, ?_, ?_, ?_, ?_, ?_, ?_, ?_⟩
  · rw [hbuf, husers]
    exact h.count
  · intro q n hq
    rw [hbuf]
    exact h.waiting q n ((hon q (.waiting n c) rfl).mp hq)
  · intro q n hq
    rw [hbuf, htouched]
    exact h.reading q n ((hon q (.reading n c) rfl).mp hq)
  · intro q hq
    rw [hbuf] at hq ⊢
    obtain ⟨hdev, hvalid⟩ := h.held q hq
    exact ⟨hdev, fun hn => hvalid fun n heq => hn n ((hon q (.reading n c) rfl).mpr heq)⟩
  · rw [hbuf, htouched]
    exact h.touched
  · rw [hbuf]
    exact h.dirty
  · intro hdev hclean
    rw [hbuf] at hdev hclean ⊢
    rw [hdisk hdev, hstored hdev]
    exact h.disk hdev hclean
  · intro hdev hvalid ht
    rw [hbuf] at hdev hvalid ⊢
    rw [htouched] at ht
    rw [hstored hdev]
    exact h.data hdev hvalid ht

theorem Good.of_holds {b : Fin NBUF} {p : P} (h : Good s b) (hholds : s.Holds p b) :
    (s.buf b).dev = ROOTDEV ∧ (s.buf b).valid = true ∧ ∀ q, q ≠ p → ∀ n, s.pc q ≠ .reading n b := by
  obtain ⟨hlock, hpc⟩ := hholds
  obtain ⟨hdev, hvalid⟩ := h.held p hlock
  refine ⟨hdev, hvalid fun n hn => ?_, fun q hq n hn => hq ?_⟩
  · rw [hpc] at hn
    cases hn
  · have hread := (h.reading q n hn).1
    rw [hlock] at hread
    exact (Option.some.inj hread).symm

theorem Inv.log (h : Inv s) (l : LogState) : Inv { s with log := l } := by
  refine ⟨h.listed, h.unique, fun b => ?_, h.uncached⟩
  have hgood := h.good b
  exact ⟨hgood.count, hgood.waiting, hgood.reading, hgood.held, hgood.touched, hgood.dirty, hgood.disk, hgood.data⟩

section Steps

variable [DecidableEq P] {s s' : Usage P} {b : Fin NBUF} {e : Buf P} {p : P} {x : Pc} {n : Nat}

/-- The buffer that a step of process `p` is about, while it stays the buffer of its block. -/
theorem Good.turn (h : Good s b) (hbuf : s'.buf b = e) (hpc : s'.pc = update s.pc p x)
    (hdev : e.dev = (s.buf b).dev) (hblockno : e.blockno = (s.buf b).blockno)
    (hcount : e.refcnt.toNat + weight b (s.pc p) + (if (s.buf b).lock = none then 0 else 1) =
      (s.buf b).refcnt.toNat + weight b x + if e.lock = none then 0 else 1)
    (hwaiting : ∀ n, x = .waiting n b → (s.buf b).dev = ROOTDEV ∧ (s.buf b).blockno = n)
    (hreading : ∀ n, x = .reading n b → e.lock = some p ∧ (s.buf b).blockno = n ∧ s'.touched b = false)
    (hothers : ∀ q, q ≠ p → ∀ n, s.pc q = .reading n b → e.lock = some q ∧ s'.touched b = false)
    (hheld : ∀ q, e.lock = some q → (s.buf b).dev = ROOTDEV ∧ ((∀ n, s'.pc q ≠ .reading n b) → e.valid = true))
    (htouched : e.lock = none → s'.touched b = false) (hdirty : e.dirty = true → e.valid = true)
    (hdisk : (s.buf b).dev = ROOTDEV → e.dirty = false → s'.memdisk (s.buf b).blockno = s'.stored (s.buf b).blockno)
    (hdata : (s.buf b).dev = ROOTDEV → e.valid = true → s'.touched b = false →
      e.data = s'.stored (s.buf b).blockno) : Good s' b := by
  subst hbuf
  have hself : s'.pc p = x := by rw [hpc, update_self]
  have hother : ∀ q, q ≠ p → s'.pc q = s.pc q := fun q hq => by rw [hpc, update_of_ne hq]
  refine ⟨?_, ?_, ?_, ?_, htouched, hdirty, ?_, ?_⟩
  · have husers := users_update s.pc p x b
    have hold := h.count
    rw [hpc]
    omega
  · intro q n hq
    rw [hdev, hblockno]
    by_cases hqp : q = p
    · rw [hqp, hself] at hq
      exact hwaiting n hq
    · rw [hother q hqp] at hq
      exact h.waiting q n hq
  · intro q n hq
    rw [hblockno]
    by_cases hqp : q = p
    · rw [hqp, hself] at hq
      rw [hqp]
      exact hreading n hq
    · rw [hother q hqp] at hq
      obtain ⟨hlock, ht⟩ := hothers q hqp n hq
      exact ⟨hlock, (h.reading q n hq).2.1, ht⟩
  · intro q hq
    rw [hdev]
    exact hheld q hq
  · rw [hdev, hblockno]
    exact hdisk
  · rw [hdev, hblockno]
    exact hdata

section

variable (h : Inv s)

include h

theorem Inv.turn (hlinks : Listed s'.links) (hbuf : s'.buf = update s.buf b e)
    (hdev : e.dev = (s.buf b).dev) (hblockno : e.blockno = (s.buf b).blockno)
    (htouched : ∀ c, c ≠ b → s'.touched c = s.touched c) (hpc : s'.pc = update s.pc p x)
    (hold : ∀ c, c ≠ b → ¬(s.pc p).On c) (hnew : ∀ c, c ≠ b → ¬x.On c)
    (hdisk : ∀ n, ((s.buf b).dev = ROOTDEV → (s.buf b).blockno ≠ n) → s'.memdisk n = s.memdisk n)
    (hstored : ∀ n, ((s.buf b).dev = ROOTDEV → (s.buf b).blockno ≠ n) → s'.stored n = s.stored n)
    (hself : Good s' b) : Inv s' := by
  have hold' : ∀ c, c ≠ b → s'.buf c = s.buf c := fun c hc => by rw [hbuf, update_of_ne hc]
  have hid : ∀ c, (s'.buf c).dev = (s.buf c).dev ∧ (s'.buf c).blockno = (s.buf c).blockno := by
    intro c
    by_cases hc : c = b
    · rw [hc, hbuf, update_self]
      exact ⟨hdev, hblockno⟩
    · rw [hold' c hc]
      exact ⟨rfl, rfl⟩
  refine ⟨hlinks, fun c c' => ?_, fun c => ?_, fun n hn => ?_⟩
  · rw [(hid c).1, (hid c').1, (hid c).2, (hid c').2]
    exact h.unique c c'
  · by_cases hc : c = b
    · rw [hc]
      exact hself
    · have hapart : (s.buf c).dev = ROOTDEV → (s.buf b).dev = ROOTDEV → (s.buf b).blockno ≠ (s.buf c).blockno :=
        fun hcd hbd heq => hc (h.unique c b hcd hbd heq.symm)
      refine (h.good c).frame (hold' c hc) (htouched c hc) (hold c hc) ?_ (fun q hq => ?_)
        (fun hcd => hdisk _ (hapart hcd)) fun hcd => hstored _ (hapart hcd)
      · rw [hpc, update_self]
        exact hnew c hc
      · rw [hpc, update_of_ne hq]
  · have hn' : ∀ c, (s.buf c).dev = ROOTDEV → (s.buf c).blockno ≠ n := by
      intro c hc
      have hcn := hn c
      rw [(hid c).1, (hid c).2] at hcn
      exact hcn hc
    rw [hdisk n (hn' b), hstored n (hn' b)]
    exact h.uncached n hn'

theorem Inv.found (hcard : Fintype.card P + 1 < 2 ^ 32) (hpc : s.pc p = .idle)
    (hdev : (s.buf b).dev = ROOTDEV) (hblockno : (s.buf b).blockno = n) :
    Inv (s.lift ((s.toKernel.set b { s.buf b with refcnt := (s.buf b).refcnt + 1 }).goto p (.waiting n b))) := by
  have hgood := h.good b
  have hself : (update s.buf b { s.buf b with refcnt := (s.buf b).refcnt + 1 }) b =
      { s.buf b with refcnt := (s.buf b).refcnt + 1 } := update_self _ _ _
  have hadd : ((s.buf b).refcnt + 1).toNat = (s.buf b).refcnt.toNat + 1 := by
    have hcount := hgood.count
    have husers := users_update s.pc p (.waiting n b) b
    have hle := users_le (update s.pc p (.waiting n b)) b
    rw [hpc] at husers
    simp only [weight, if_true] at husers
    apply Nat.mod_eq_of_lt
    change (s.buf b).refcnt.toNat + 1 < _
    split at hcount <;> omega
  refine h.turn h.listed rfl rfl rfl (fun _ _ => rfl) rfl (fun c _ => not_on_idle hpc c) (fun c hc heq => hc heq.symm)
    (fun _ _ => rfl) (fun _ _ => rfl) (hgood.turn hself rfl rfl rfl ?_ ?_ nofun ?_ ?_ hgood.touched hgood.dirty
      hgood.disk hgood.data)
  · rw [hadd, hpc]
    simp only [weight, if_true]
  · intro m hm
    cases hm
    exact ⟨hdev, hblockno⟩
  · exact fun q _ m hq => ⟨(hgood.reading q m hq).1, (hgood.reading q m hq).2.2⟩
  · intro q hq
    refine ⟨hdev, fun hn => (hgood.held q hq).2 fun m hm => hn m ?_⟩
    exact (update_of_ne (ne_of_idle hpc hm) _ _).trans hm

theorem Inv.recycle (hpc : s.pc p = .idle) (hrefcnt : (s.buf b).refcnt = 0)
    (hclean : (s.buf b).dirty = false) (hnone : ∀ c, (s.buf c).dev = ROOTDEV → (s.buf c).blockno ≠ n) :
    Inv (s.lift ((s.toKernel.set b
      { s.buf b with dev := ROOTDEV, blockno := n, valid := false, dirty := false, refcnt := 1 }).goto p
      (.waiting n b))) := by
  have hgood := h.good b
  have hcount := hgood.count
  rw [hrefcnt] at hcount
  have hnobody : users s.pc b = 0 := by
    change 0 = _ at hcount
    omega
  have hlock : (s.buf b).lock = none := by
    by_contra hlock
    rw [if_neg hlock] at hcount
    exact absurd hcount (Nat.succ_ne_zero _).symm
  generalize he :
    ({ s.buf b with dev := ROOTDEV, blockno := n, valid := false, dirty := false, refcnt := 1 } : Buf P) = e
  generalize hs' : s.lift ((s.toKernel.set b e).goto p (.waiting n b)) = s'
  have hself : s'.buf b = e := by rw [← hs']; exact update_self _ _ _
  have hother : ∀ c, c ≠ b → s'.buf c = s.buf c := by
    intro c hc
    rw [← hs']
    exact update_of_ne hc _ _
  have hpc' : s'.pc = update s.pc p (.waiting n b) := by rw [← hs']; rfl
  have hdev : e.dev = ROOTDEV := by rw [← he]
  have hblockno : e.blockno = n := by rw [← he]
  have hdisk : s'.memdisk = s.memdisk := by rw [← hs']; rfl
  have hstored : s'.stored = s.stored := by rw [← hs']; rfl
  have htouched : s'.touched = s.touched := by rw [← hs']; rfl
  refine ⟨by rw [← hs']; exact h.listed, fun c c' hc hc' heq => ?_, fun c => ?_, fun m hm => ?_⟩
  · by_cases hcb : c = b
    · by_cases hcb' : c' = b
      · rw [hcb, hcb']
      · rw [hcb, hself, hblockno, hother c' hcb'] at heq
        rw [hother c' hcb'] at hc'
        exact absurd heq.symm (hnone c' hc')
    · rw [hother c hcb] at hc heq
      by_cases hcb' : c' = b
      · rw [hcb', hself, hblockno] at heq
        exact absurd heq (hnone c hc)
      · rw [hother c' hcb'] at hc' heq
        exact h.unique c c' hc hc' heq
  · by_cases hcb : c = b
    · rw [hcb]
      have hidle : ∀ q m, s'.pc q = .waiting m b → m = n := by
        intro q m hq
        by_cases hqp : q = p
        · rw [hpc', hqp, update_self] at hq
          cases hq
          rfl
        · rw [hpc', update_of_ne hqp] at hq
          have hle := weight_le_users s.pc q b
          rw [hq, hnobody] at hle
          simp [weight] at hle
      have hunread : ∀ q m, s'.pc q ≠ .reading m b := by
        intro q m hq
        by_cases hqp : q = p
        · rw [hpc', hqp, update_self] at hq
          cases hq
        · rw [hpc', update_of_ne hqp] at hq
          have hread := (hgood.reading q m hq).1
          rw [hlock] at hread
          cases hread
      have hlock' : e.lock = none := by rw [← he]; exact hlock
      refine ⟨?_, fun q m hq => ?_, fun q m hq => absurd hq (hunread q m), ?_, ?_, ?_, ?_, ?_⟩
      all_goals rw [hself]
      · have husers := users_update s.pc p (.waiting n b) b
        rw [hpc, hnobody] at husers
        rw [hpc', hlock', if_pos rfl, ← he]
        simpa [weight] using husers.symm
      · exact ⟨hdev, hblockno.trans (hidle q m hq).symm⟩
      · rw [hlock']
        exact nofun
      · rw [htouched]
        exact fun _ => hgood.touched hlock
      · rw [← he]
        exact nofun
      · intro _ _
        rw [hdisk, hstored, hblockno]
        exact h.uncached n hnone
      · rw [← he]
        exact nofun
    · refine (h.good c).frame (hother c hcb) (by rw [htouched]) (not_on_idle hpc c) ?_ (fun q hq => ?_)
        (fun _ => by rw [hdisk]) fun _ => by rw [hstored]
      · rw [hpc', update_self]
        exact fun heq => hcb heq.symm
      · rw [hpc', update_of_ne hq]
  · rw [hdisk, hstored]
    -- The block that `b` held is on the disk.
    by_cases hm' : (s.buf b).dev = ROOTDEV ∧ (s.buf b).blockno = m
    · rw [← hm'.2]
      exact hgood.disk hm'.1 hclean
    apply h.uncached m
    intro c hc heq
    by_cases hcb : c = b
    · rw [hcb] at hc heq
      exact hm' ⟨hc, heq⟩
    · have hne := hm c
      rw [hother c hcb] at hne
      exact hne hc heq

theorem Inv.acquiresleep (hpc : s.pc p = .waiting n b) (hlock : (s.buf b).lock = none) :
    Inv (s.lift ((s.toKernel.set b { s.buf b with lock := some p }).goto p (.reading n b))) := by
  have hgood := h.good b
  have hself : update s.buf b { s.buf b with lock := some p } b = { s.buf b with lock := some p } :=
    update_self _ _ _
  obtain ⟨hdev, hblockno⟩ := hgood.waiting p n hpc
  have hunread : ∀ q m, s.pc q ≠ .reading m b := by
    intro q m hq
    have hread := (hgood.reading q m hq).1
    rw [hlock] at hread
    cases hread
  refine h.turn h.listed rfl rfl rfl (fun _ _ => rfl) rfl (fun c hc => ?_) (fun c hc heq => hc heq.symm)
    (fun _ _ => rfl) (fun _ _ => rfl) (hgood.turn hself rfl rfl rfl ?_ nofun ?_ ?_ ?_ nofun hgood.dirty
      hgood.disk hgood.data)
  · rw [hpc]
    exact fun heq => hc heq.symm
  · rw [hpc, hlock]
    simp [weight]
  · intro m hm
    cases hm
    exact ⟨rfl, hblockno, hgood.touched hlock⟩
  · exact fun q _ m hq => absurd hq (hunread q m)
  · intro q hq
    cases hq
    exact ⟨hdev, fun hn => absurd (update_self _ _ _) (hn n)⟩

theorem breadRest_eq (hpc : s.pc p = .reading n b) :
    s.toKernel.breadRest p b = if (s.buf b).valid = false ∧ s.disksize ≤ n then .error .outOfRange
      else .ok (s.toKernel.set b { s.buf b with valid := true, data := s.stored n }) := by
  have hgood := h.good b
  obtain ⟨hlock, hblockno, htouched⟩ := hgood.reading p n hpc
  have hdev := (hgood.held p hlock).1
  unfold Kernel.breadRest
  by_cases hvalid : (s.buf b).valid = false
  · have hclean : (s.buf b).dirty = false := by
      by_contra hdirty
      rw [Bool.not_eq_false] at hdirty
      rw [hgood.dirty hdirty] at hvalid
      cases hvalid
    have hdata := hgood.disk hdev hclean
    rw [hblockno] at hdata
    rw [if_pos hvalid, Kernel.iderw, if_neg (not_not.mpr hlock), if_neg (by rw [hvalid]; exact nofun),
      if_neg (not_not.mpr hdev), hblockno]
    by_cases hrange : s.disksize ≤ n
    · rw [if_pos hrange, if_pos ⟨hvalid, hrange⟩]
    · have hdirty : ¬(s.buf b).dirty = true := by
        rw [hclean]
        exact nofun
      rw [if_neg hrange, if_neg hdirty, if_neg (fun hc => hrange hc.2), hdata]
  · rw [if_neg hvalid, if_neg (fun hc => hvalid hc.1)]
    rw [Bool.not_eq_false] at hvalid
    have hdata := hgood.data hdev hvalid htouched
    rw [hblockno] at hdata
    rw [← hdata, ← hvalid, Kernel.set, update_eq_self]

theorem Inv.bread (hpc : s.pc p = .reading n b) :
    Inv (s.lift ((s.toKernel.set b { s.buf b with valid := true, data := s.stored n }).goto p .idle)) := by
  have hgood := h.good b
  have hself : update s.buf b { s.buf b with valid := true, data := s.stored n } b =
      { s.buf b with valid := true, data := s.stored n } := update_self _ _ _
  obtain ⟨hlock, hblockno, htouched⟩ := hgood.reading p n hpc
  refine h.turn h.listed rfl rfl rfl (fun _ _ => rfl) rfl (fun c hc => ?_) (fun c _ => not_on_idle rfl c)
    (fun _ _ => rfl) (fun _ _ => rfl) (hgood.turn hself rfl rfl rfl ?_ nofun nofun ?_ ?_ hgood.touched (fun _ => rfl)
      hgood.disk ?_)
  · rw [hpc]
    exact fun heq => hc heq.symm
  · rw [hpc]
    simp only [weight]
  · exact fun q _ m hq => ⟨(hgood.reading q m hq).1, (hgood.reading q m hq).2.2⟩
  · exact fun q hq => ⟨(hgood.held q hq).1, fun _ => rfl⟩
  · intro _ _ _
    rw [hblockno]
    rfl

/-- A change of a buffer between `bread` and `brelse`, of it and of what is stored for its block. -/
theorem Inv.use (hholds : s.Holds p b) {d : Disk} {st : Disk} {t : Bool} {l : LogState}
    (hs' : s' = { s.lift { s.toKernel.set b e with memdisk := d, log := l } with
      touched := update s.touched b t, stored := st })
    (hdev : e.dev = (s.buf b).dev) (hblockno : e.blockno = (s.buf b).blockno)
    (hlock : e.lock = (s.buf b).lock) (hrefcnt : e.refcnt = (s.buf b).refcnt) (hvalid : e.valid = true)
    (hd : ∀ m, (s.buf b).blockno ≠ m → d m = s.memdisk m) (hst : ∀ m, (s.buf b).blockno ≠ m → st m = s.stored m)
    (hdisk : e.dirty = false → d (s.buf b).blockno = st (s.buf b).blockno)
    (hdata : t = false → e.data = st (s.buf b).blockno) : Inv s' := by
  have hgood := h.good b
  obtain ⟨hroot, -, hunread⟩ := hgood.of_holds hholds
  have hself : s'.buf b = e := by rw [hs']; exact update_self _ _ _
  have htouched : s'.touched b = t := by rw [hs']; exact update_self _ _ _
  have hpc : s'.pc = update s.pc p (s.pc p) := by rw [hs', update_eq_self]; rfl
  refine h.turn (by rw [hs']; exact h.listed) (by rw [hs']; rfl) hdev hblockno (fun c hc => ?_) hpc
    (fun c _ => not_on_idle hholds.2 c) (fun c _ => not_on_idle hholds.2 c) (fun m hm => ?_) (fun m hm => ?_)
    (hgood.turn hself hpc hdev hblockno ?_ ?_ ?_ ?_ ?_ ?_ (fun _ => hvalid) ?_ ?_)
  · rw [hs']
    exact update_of_ne hc _ _
  · rw [hs']
    exact hd m (hm hroot)
  · rw [hs']
    exact hst m (hm hroot)
  · rw [hrefcnt, hlock]
  · intro m hm
    rw [hholds.2] at hm
    cases hm
  · intro m hm
    rw [hholds.2] at hm
    cases hm
  · exact fun q hq m hm => absurd hm (hunread q hq m)
  · exact fun q _ => ⟨hroot, fun _ => hvalid⟩
  · intro hnone
    rw [hlock, hholds.1] at hnone
    cases hnone
  · intro _ hclean
    rw [hs']
    exact hdisk hclean
  · intro _ _ ht
    rw [htouched] at ht
    rw [hs']
    exact hdata ht

theorem Inv.releasesleep (hholds : s.Holds p b) (htouched : s.touched b = false) :
    Inv (s.lift ((s.toKernel.set b { s.buf b with lock := none }).goto p (.releasing b))) := by
  have hgood := h.good b
  obtain ⟨hdev, hvalid, hunread⟩ := hgood.of_holds hholds
  have hself : update s.buf b { s.buf b with lock := none } b = { s.buf b with lock := none } :=
    update_self _ _ _
  refine h.turn h.listed rfl rfl rfl (fun _ _ => rfl) rfl (fun c _ => not_on_idle hholds.2 c)
    (fun c hc heq => hc heq.symm) (fun _ _ => rfl) (fun _ _ => rfl)
      (hgood.turn hself rfl rfl rfl ?_ nofun nofun ?_ nofun (fun _ => htouched) hgood.dirty hgood.disk hgood.data)
  · rw [hholds.1, hholds.2]
    simp [weight]
  · exact fun q hq m hm => absurd hm (hunread q hq m)

theorem Inv.brelse (hpc : s.pc p = .releasing b) :
    Inv (s.lift ((s.toKernel.brelseRest b).goto p .idle)) := by
  have hgood := h.good b
  have hpos : 1 ≤ (s.buf b).refcnt.toNat := by
    have hle := weight_le_users s.pc p b
    rw [hpc] at hle
    simp only [weight, if_true] at hle
    rw [hgood.count]
    omega
  have hsub : ((s.buf b).refcnt - 1).toNat = (s.buf b).refcnt.toNat - 1 :=
    UInt32.toNat_sub_of_le _ _ (UInt32.le_iff_toNat_le.mpr hpos)
  generalize hs' : s.lift ((s.toKernel.brelseRest b).goto p .idle) = s'
  have hlinks : Listed s'.links ∧ s'.buf = update s.buf b { s.buf b with refcnt := (s.buf b).refcnt - 1 } ∧
      s'.pc = update s.pc p .idle ∧ s'.memdisk = s.memdisk ∧ s'.stored = s.stored ∧ s'.touched = s.touched := by
    rw [← hs']
    unfold Kernel.brelseRest
    dsimp only
    split
    · exact ⟨h.listed.front b, rfl, rfl, rfl, rfl, rfl⟩
    · exact ⟨h.listed, rfl, rfl, rfl, rfl, rfl⟩
  obtain ⟨hlinks, hbuf, hpc', hdisk, hstored, htouched⟩ := hlinks
  have hself : s'.buf b = { s.buf b with refcnt := (s.buf b).refcnt - 1 } := by rw [hbuf, update_self]
  refine h.turn hlinks hbuf rfl rfl (fun _ _ => by rw [htouched]) hpc' (fun c hc => ?_) (fun c _ => not_on_idle rfl c)
    (fun _ _ => by rw [hdisk]) (fun _ _ => by rw [hstored]) (hgood.turn hself hpc' rfl rfl ?_ nofun nofun
      ?_ ?_ (by rw [htouched]; exact hgood.touched) hgood.dirty (by rw [hdisk, hstored]; exact hgood.disk)
      (by rw [htouched, hstored]; exact hgood.data))
  · rw [hpc]
    exact fun heq => hc heq.symm
  · rw [hpc, hsub]
    simp only [weight, if_true]
    omega
  · rw [htouched]
    exact fun q _ m hq => ⟨(hgood.reading q m hq).1, (hgood.reading q m hq).2.2⟩
  intro q hq
  refine ⟨(hgood.held q hq).1, fun hn => (hgood.held q hq).2 fun m hm => hn m ?_⟩
  have hqp : q ≠ p := by
    rintro rfl
    rw [hpc] at hm
    cases hm
  rw [hpc', update_of_ne hqp]
  exact hm

end

/-! ### Whole runs -/

theorem Inv.step (h : Inv s) (hcard : Fintype.card P + 1 < 2 ^ 32) {a : Act P} (hstep : s.step a = some s') :
    Inv s' ∧ ∀ c, (s.buf c).dirty = true ∨ (s.buf c).refcnt ≠ 0 →
      (s'.buf c).dev = (s.buf c).dev ∧ (s'.buf c).blockno = (s.buf c).blockno := by
  cases a with
  | bget p n =>
    obtain ⟨hpc, hstep⟩ := Option.ite_none_right_eq_some.mp hstep
    obtain ⟨⟨b, k⟩, hrun, rfl⟩ := toOption_map_eq_some hstep
    rcases bget_cases h.listed hrun with ⟨hdev, hblockno, rfl⟩ | ⟨hnone, hrefcnt, hclean, rfl⟩
    · exact ⟨h.found hcard hpc hdev hblockno, fun c _ => same_block rfl (by rfl) (by rfl) c⟩
    refine ⟨h.recycle hpc hrefcnt hclean hnone, fun c hc => ?_⟩
    have hcb : c ≠ b := by
      rintro rfl
      rcases hc with hdirty | hused
      · rw [hclean] at hdirty
        cases hdirty
      · exact hused hrefcnt
    exact ⟨congrArg Buf.dev (update_of_ne hcb _ _), congrArg Buf.blockno (update_of_ne hcb _ _)⟩
  | acquiresleep p =>
    simp only [Usage.step] at hstep
    split at hstep
    · rename_i n b hpc
      obtain ⟨hlock, hstep⟩ := Option.ite_none_right_eq_some.mp hstep
      cases hstep
      exact ⟨h.acquiresleep hpc hlock, fun c _ => same_block rfl (by rfl) (by rfl) c⟩
    · cases hstep
  | bread p =>
    simp only [Usage.step] at hstep
    split at hstep
    · rename_i n b hpc
      obtain ⟨k, hrun, rfl⟩ := toOption_map_eq_some hstep
      rw [breadRest_eq h hpc] at hrun
      split at hrun
      · cases hrun
      · cases hrun
        exact ⟨h.bread hpc, fun c _ => same_block rfl (by rfl) (by rfl) c⟩
    · cases hstep
  | modify p b data =>
    obtain ⟨hholds, hstep⟩ := Option.ite_none_right_eq_some.mp hstep
    cases hstep
    obtain ⟨hdev, hvalid, -⟩ := (h.good b).of_holds hholds
    refine ⟨h.use hholds rfl rfl rfl rfl rfl hvalid (fun _ _ => rfl) (fun _ _ => rfl) ((h.good b).disk hdev) nofun,
      fun c _ => same_block rfl (by rfl) (by rfl) c⟩
  | logWrite p b =>
    obtain ⟨hholds, hstep⟩ := Option.ite_none_right_eq_some.mp hstep
    obtain ⟨k, hrun, rfl⟩ := toOption_map_eq_some hstep
    obtain ⟨l, rfl⟩ := logWrite_ok hrun
    obtain ⟨-, hvalid, -⟩ := (h.good b).of_holds hholds
    refine ⟨h.use hholds rfl rfl rfl rfl rfl hvalid (fun _ _ => rfl)
      (fun m hm => update_of_ne (Ne.symm hm) _ _) nofun (fun _ => by rw [update_self]),
      fun c _ => same_block rfl (by rfl) (by rfl) c⟩
  | bwrite p b =>
    obtain ⟨hholds, hstep⟩ := Option.ite_none_right_eq_some.mp hstep
    obtain ⟨k, hrun, rfl⟩ := toOption_map_eq_some hstep
    rw [bwrite_ok hrun]
    refine ⟨h.use hholds rfl rfl rfl rfl rfl rfl (fun m hm => update_of_ne (Ne.symm hm) _ _)
      (fun m hm => update_of_ne (Ne.symm hm) _ _) (fun _ => ?_) (fun _ => by rw [update_self]),
      fun c _ => same_block rfl (by rfl) (by rfl) c⟩
    rw [update_self, update_self]
  | releasesleep p b =>
    obtain ⟨⟨hholds, htouched⟩, hstep⟩ := Option.ite_none_right_eq_some.mp hstep
    obtain ⟨k, hrun, rfl⟩ := toOption_map_eq_some hstep
    rw [brelse_ok hrun]
    exact ⟨h.releasesleep hholds htouched, fun c _ => same_block rfl (by rfl) (by rfl) c⟩
  | brelse p =>
    simp only [Usage.step] at hstep
    split at hstep
    · rename_i b hpc
      cases hstep
      refine ⟨h.brelse hpc, fun c _ => same_block (brelseRest_buf b) (by rfl) (by rfl) c⟩
    · cases hstep
  | log l =>
    cases hstep
    exact ⟨h.log l, fun _ _ => ⟨rfl, rfl⟩⟩

end Steps

/-- After any steps of the processes on the cache: the list is a ring of all the buffers; a block is in one
buffer at most; a step recycles no buffer that is dirty or in use; and a process past `bget` gets, by
`bread`, the last data stored for the block it asked for. -/
theorem buffer_cache_transparent (d : Disk) (disksize : Nat) (log : LogState)
    (e : Trace (Usage.boot d disksize log : Usage Procs.Slot) Usage.step) : ∀ t ≤ e.len,
    (∃ l, (e.state t).links.Ring l ∧ l.Perm (List.finRange NBUF)) ∧
    (∀ b c, ((e.state t).buf b).dev = ROOTDEV → ((e.state t).buf c).dev = ROOTDEV →
      ((e.state t).buf b).blockno = ((e.state t).buf c).blockno → b = c) ∧
    (t < e.len → ∀ b, ((e.state t).buf b).dirty = true ∨ ((e.state t).buf b).refcnt ≠ 0 →
      ((e.state (t + 1)).buf b).dev = ((e.state t).buf b).dev ∧
        ((e.state (t + 1)).buf b).blockno = ((e.state t).buf b).blockno) ∧
    (∀ p n b, (e.state t).pc p = .reading n b → n < (e.state t).disksize →
      ∃ s', (e.state t).step (.bread p) = some s' ∧ s'.pc p = .idle ∧ (s'.buf b).lock = some p ∧
        (s'.buf b).dev = ROOTDEV ∧ (s'.buf b).blockno = n ∧ (s'.buf b).data = (e.state t).stored n) := by
  have hcard : Fintype.card Procs.Slot + 1 < 2 ^ 32 := by
    decide
  intro t ht
  have h : Inv (e.state t) :=
    e.invariant (Inv.boot d disksize log) (fun _ _ _ hinv hstep => (hinv.step hcard hstep).1) t ht
  refine ⟨h.listed, h.unique, fun hlt => (h.step hcard (e.next t hlt)).2, fun p n b hpc hrange => ?_⟩
  have hself : update (e.state t).buf b
      { (e.state t).buf b with valid := true, data := (e.state t).stored n } b =
      { (e.state t).buf b with valid := true, data := (e.state t).stored n } := update_self _ _ _
  obtain ⟨hlock, hblockno, -⟩ := (h.good b).reading p n hpc
  refine ⟨(e.state t).lift (((e.state t).toKernel.set b
    { (e.state t).buf b with valid := true, data := (e.state t).stored n }).goto p .idle), ?_, ?_, ?_, ?_, ?_, ?_⟩
  · rw [Usage.step, hpc]
    dsimp only
    rw [breadRest_eq h hpc, if_neg (fun hc => absurd hrange (by omega))]
    rfl
  · exact update_self _ _ _
  · exact (congrArg Buf.lock hself).trans hlock
  · exact (congrArg Buf.dev hself).trans ((h.good b).held p hlock).1
  · exact (congrArg Buf.blockno hself).trans hblockno
  · exact congrArg Buf.data hself

/-- `p` logs a block of sevens, and `q` asks for the block. -/
def rewriteBlock (p q : Procs.Slot) : List (Act Procs.Slot) :=
  [.bget p 5, .acquiresleep p, .bread p, .modify p 0 fun _ => 7, .logWrite p 0, .releasesleep p 0, .brelse p,
    .bget q 5, .acquiresleep q]

def rewriteBlockTrace :
    Trace (Usage.boot zeroDisk FSSIZE ⟨⟨0, fun _ => 0⟩, LOGSIZE, 1⟩ : Usage Procs.Slot) Usage.step :=
  Trace.ofList (rewriteBlock Procs.INITPROC (Procs.slot 1)) (.brelse Procs.INITPROC) (by decide +kernel)

theorem buffer_cache_transparent_rewriteBlock :
    ((rewriteBlockTrace.state 9).buf 0).dirty = true ∧
    ∃ s', (rewriteBlockTrace.state 9).step (.bread 1) = some s' ∧ (s'.buf 0).blockno = 5 ∧
      (s'.buf 0).data = fun _ => 7 := by
  obtain ⟨-, -, -, hread⟩ := buffer_cache_transparent _ _ _ rewriteBlockTrace 9 (by decide)
  obtain ⟨s', hstep, -, -, -, hblockno, hdata⟩ := hread 1 5 0 (by decide +kernel) (by decide +kernel)
  exact ⟨by decide +kernel, s', hstep, hblockno, hdata.trans rfl⟩

end Laboratorio.Bio
