import Mathlib.Data.List.Nodup
import Mathlib.Logic.Function.Basic

/-! Circular doubly linked lists with a sentinel, as the fields `next` and `prev` of the nodes. The sentinel
is `none`. A ring is a list of nodes that the fields lead through in both directions; putting a node after
the sentinel and taking one out are stores into the fields, in the order of the usual code. -/

namespace Laboratorio

open Function

structure Links (α : Type*) where
  next : Option α → Option α
  prev : Option α → Option α

variable {fuel : Nat}

namespace Links

variable {α : Type*}

/-- The first node that passes the test, from a node on and along `step`, up to the sentinel. -/
def find (step : Option α → Option α) (test : α → Bool) : Nat → Option α → Option α
  | 0, _ => none
  | _ + 1, none => none
  | fuel + 1, some b => if test b then some b else find step test fuel (step (some b))

section Stores

variable [DecidableEq α]

/-- `b->next->prev = b->prev; b->prev->next = b->next;` -/
def unlink (r : Links α) (b : α) : Links α :=
  let r := { r with prev := update r.prev (r.next (some b)) (r.prev (some b)) }
  { r with next := update r.next (r.prev (some b)) (r.next (some b)) }

/-- `b->next = head.next; b->prev = &head; head.next->prev = b; head.next = b;` -/
def insert (r : Links α) (b : α) : Links α :=
  let r := { r with next := update r.next (some b) (r.next none) }
  let r := { r with prev := update r.prev (some b) none }
  let r := { r with prev := update r.prev (r.next none) (some b) }
  { r with next := update r.next none (some b) }

end Stores

/-! ### Paths -/

/-- The fields lead from `a` through the nodes of `l` to `z`, and back. -/
def Path (r : Links α) : Option α → List α → Option α → Prop
  | a, [], z => r.next a = z ∧ r.prev z = a
  | a, x :: l, z => r.next a = some x ∧ r.prev (some x) = a ∧ Path r (some x) l z

variable {r r' : Links α} {a z : Option α} {b : α} {l l' : List α}

theorem Path.congr (h : Path r a l z) (hnext : r'.next a = r.next a) (hprev : r'.prev z = r.prev z)
    (hnexts : ∀ x ∈ l, r'.next (some x) = r.next (some x)) (hprevs : ∀ x ∈ l, r'.prev (some x) = r.prev (some x)) :
    Path r' a l z := by
  induction l generalizing a with
  | nil => exact ⟨hnext.trans h.1, hprev.trans h.2⟩
  | cons x l ih =>
    refine ⟨hnext.trans h.1, (hprevs x List.mem_cons_self).trans h.2.1, ?_⟩
    exact ih h.2.2 (hnexts x List.mem_cons_self) (fun y hy => hnexts y (List.mem_cons_of_mem x hy))
      (fun y hy => hprevs y (List.mem_cons_of_mem x hy))

theorem path_append : Path r a (l ++ b :: l') z ↔ Path r a l (some b) ∧ Path r (some b) l' z := by
  induction l generalizing a with
  | nil => exact ⟨fun h => ⟨⟨h.1, h.2.1⟩, h.2.2⟩, fun h => ⟨h.1.1, h.1.2, h.2⟩⟩
  | cons x l ih =>
    constructor
    · intro h
      obtain ⟨hfirst, hsecond⟩ := ih.mp h.2.2
      exact ⟨⟨h.1, h.2.1, hfirst⟩, hsecond⟩
    · rintro ⟨⟨hnext, hprev, hfirst⟩, hsecond⟩
      exact ⟨hnext, hprev, ih.mpr ⟨hfirst, hsecond⟩⟩

/-- The node before the end is the start or on the path. -/
theorem Path.prev_mem (h : Path r a l z) : r.prev z = a ∨ ∃ x ∈ l, r.prev z = some x := by
  induction l generalizing a with
  | nil => exact Or.inl h.2
  | cons x l ih =>
    rcases ih h.2.2 with hx | ⟨y, hy, hprev⟩
    · exact Or.inr ⟨x, List.mem_cons_self, hx⟩
    · exact Or.inr ⟨y, List.mem_cons_of_mem x hy, hprev⟩

/-- The last link of a path set to another node. -/
theorem Path.retarget {y : Option α} (h : Path r a l z) (ha : ∀ x ∈ l, a ≠ some x) (hnodup : l.Nodup)
    (hnext : r'.next (r.prev z) = y) (hprev : r'.prev y = r.prev z) (hnexts : ∀ x, x ≠ r.prev z → r'.next x = r.next x)
    (hprevs : ∀ x ∈ l, r'.prev (some x) = r.prev (some x)) : Path r' a l y := by
  induction l generalizing a with
  | nil => exact ⟨by rw [← h.2, hnext], hprev.trans h.2⟩
  | cons x l ih =>
    obtain ⟨hx, hnodup⟩ := List.nodup_cons.mp hnodup
    have hne : a ≠ r.prev z := by
      rcases h.2.2.prev_mem with hlast | ⟨w, hw, hlast⟩
      · rw [hlast]
        exact ha x List.mem_cons_self
      · rw [hlast]
        exact ha w (List.mem_cons_of_mem x hw)
    refine ⟨(hnexts a hne).trans h.1, (hprevs x List.mem_cons_self).trans h.2.1, ?_⟩
    refine ih h.2.2 (fun w hw => ?_) hnodup fun w hw => hprevs w (List.mem_cons_of_mem x hw)
    rintro heq
    exact hx (Option.some.inj heq ▸ hw)

/-! ### Rings -/

structure Ring (r : Links α) (l : List α) : Prop where
  nodup : l.Nodup
  path : Path r none l none

theorem Ring.nil (hnext : r.next none = none) (hprev : r.prev none = none) : Ring r [] :=
  ⟨List.nodup_nil, hnext, hprev⟩

variable {test : α → Bool}

theorem Path.find (h : Path r a l none) (hfuel : l.length < fuel) :
    Links.find r.next test fuel (r.next a) = l.find? test := by
  induction l generalizing a fuel with
  | nil =>
    obtain ⟨fuel, rfl⟩ := Nat.exists_eq_succ_of_ne_zero (Nat.ne_zero_of_lt hfuel)
    rw [h.1]
    rfl
  | cons x l ih =>
    obtain ⟨fuel, rfl⟩ := Nat.exists_eq_succ_of_ne_zero (Nat.ne_zero_of_lt hfuel)
    rw [h.1, Links.find, List.find?_cons]
    cases test x with
    | true => rfl
    | false => exact ih h.2.2 (Nat.lt_of_succ_lt_succ hfuel)

def flip (r : Links α) : Links α := ⟨r.prev, r.next⟩

theorem Path.flip (h : Path r a l z) : Path r.flip z l.reverse a := by
  induction l generalizing a with
  | nil => exact ⟨h.2, h.1⟩
  | cons x l ih =>
    rw [List.reverse_cons]
    exact path_append.mpr ⟨ih h.2.2, h.2.1, h.1⟩

/-- A scan forwards meets the nodes in order. -/
theorem Ring.find_next (h : Ring r l) (hfuel : l.length < fuel) :
    Links.find r.next test fuel (r.next none) = l.find? test := h.path.find hfuel

theorem Ring.find_prev (h : Ring r l) (hfuel : l.length < fuel) :
    Links.find r.prev test fuel (r.prev none) = l.reverse.find? test :=
  h.path.flip.find (by rwa [List.length_reverse])

variable [DecidableEq α]

theorem next_insert (r : Links α) (b : α) :
    (r.insert b).next = update (update r.next (some b) (r.next none)) none (some b) := rfl

theorem prev_insert (r : Links α) (b : α) : (r.insert b).prev = update (update r.prev (some b) none) (r.next none)
    (some b) := by
  simp only [Links.insert, update_of_ne (show none ≠ some b from nofun)]

theorem Ring.insert (h : Ring r l) (hb : b ∉ l) : Ring (r.insert b) (b :: l) := by
  refine ⟨List.nodup_cons.mpr ⟨hb, h.nodup⟩, ?_⟩
  have hpath := h.path
  cases l with
  | nil =>
    obtain ⟨hnext, hprev⟩ := hpath
    refine ⟨?_, ?_, ?_, ?_⟩
    all_goals simp [next_insert, prev_insert, hnext]
  | cons y l =>
    obtain ⟨hnext, hprev, hrest⟩ := hpath
    obtain ⟨hby, hbl⟩ := not_or.mp (List.mem_cons.not.mp hb)
    obtain ⟨hyl, -⟩ := List.nodup_cons.mp h.nodup
    have hne : ∀ x ∈ l, x ≠ b ∧ x ≠ y := fun x hx => ⟨fun heq => hbl (heq ▸ hx), fun heq => hyl (heq ▸ hx)⟩
    refine ⟨?_, ?_, ?_, ?_, ?_⟩
    · simp [next_insert]
    · simp [prev_insert, hnext, hby]
    · simp [next_insert, hnext]
    · simp [prev_insert, hnext]
    · apply hrest.congr
      · simp [next_insert, Ne.symm hby]
      · simp [prev_insert, hnext]
      · intro x hx
        simp [next_insert, (hne x hx).1]
      · intro x hx
        simp [prev_insert, hnext, (hne x hx).1, (hne x hx).2]

theorem Ring.unlink (h : Ring r l) (hb : b ∈ l) : Ring (r.unlink b) (l.erase b) := by
  obtain ⟨l₁, l₂, rfl⟩ := List.append_of_mem hb
  have hnodup := h.nodup
  obtain ⟨hfirst, hsecond⟩ := path_append.mp h.path
  have hdisjoint := List.nodup_append.mp hnodup
  have hb₁ : b ∉ l₁ := fun hmem => hdisjoint.2.2 b hmem b List.mem_cons_self rfl
  obtain ⟨hb₂, hnodup₂⟩ := List.nodup_cons.mp hdisjoint.2.1
  rw [List.erase_append_right _ hb₁, List.erase_cons_head]
  have hnodup' : (l₁ ++ l₂).Nodup :=
    List.nodup_append.mpr ⟨hdisjoint.1, hnodup₂, fun x hx y hy => hdisjoint.2.2 x hx y (List.mem_cons_of_mem b hy)⟩
  refine ⟨hnodup', ?_⟩
  -- `b->prev` is not changed by the first store.
  have hself : r.next (some b) ≠ some b := by
    cases l₂ with
    | nil => rw [hsecond.1]; exact nofun
    | cons y l₂ =>
      rw [hsecond.1]
      exact fun heq => hb₂ (Option.some.inj heq ▸ List.mem_cons_self)
  have hprev : (r.unlink b).prev = update r.prev (r.next (some b)) (r.prev (some b)) := rfl
  have hnext : (r.unlink b).next = update r.next (r.prev (some b)) (r.next (some b)) := by
    simp only [Links.unlink, update_of_ne hself.symm]
  have hstart : Path (r.unlink b) none l₁ (r.next (some b)) := by
    apply hfirst.retarget (fun _ _ => nofun) hdisjoint.1
    · rw [hnext, update_self]
    · rw [hprev, update_self]
    · intro x hx
      rw [hnext, update_of_ne hx]
    · intro x hx
      rw [hprev, update_of_ne]
      cases l₂ with
      | nil => rw [hsecond.1]; exact nofun
      | cons y l₂ =>
        rw [hsecond.1]
        exact fun heq => hdisjoint.2.2 x hx y (List.mem_cons_of_mem b List.mem_cons_self) (Option.some.inj heq)
  cases l₂ with
  | nil =>
    rw [hsecond.1] at hstart
    rw [List.append_nil]
    exact hstart
  | cons y l₂ =>
    rw [hsecond.1] at hstart
    refine path_append.mpr ⟨hstart, ?_⟩
    obtain ⟨hy, hnodup₂⟩ := List.nodup_cons.mp hnodup₂
    have hlast : ∀ x ∈ y :: l₂, (r.unlink b).next (some x) = r.next (some x) := by
      intro x hx
      rw [hnext, update_of_ne]
      rcases hfirst.prev_mem with heq | ⟨w, hw, heq⟩
      · rw [heq]
        exact nofun
      · rw [heq]
        exact fun hc => hdisjoint.2.2 w hw x (List.mem_cons_of_mem b hx) (Option.some.inj hc).symm
    apply hsecond.2.2.congr
    · exact hlast y List.mem_cons_self
    · rw [hprev, hsecond.1, update_of_ne (show none ≠ some y from nofun)]
    · exact fun x hx => hlast x (List.mem_cons_of_mem y hx)
    · intro x hx
      rw [hprev, hsecond.1, update_of_ne]
      exact fun hc => hy (Option.some.inj hc ▸ hx)

end Links

end Laboratorio
