import Mathlib.Data.Fintype.Card
import Mathlib.Data.List.Nodup
import Mathlib.Logic.Function.Basic

/-! Singly linked queues: a pointer to the first node and a field `next` in every node. Appending walks to
the last node and stores there; taking the first node out moves the pointer. -/

namespace Laboratorio

open Function

structure LinkedQueue (α : Type*) where
  head : Option α
  next : α → Option α

namespace LinkedQueue

variable {α : Type*}

/-- The last node from `x` on, if it is at most `fuel` nodes away. -/
def last (next : α → Option α) : ℕ → α → Option α
  | 0, _ => none
  | fuel + 1, x =>
    match next x with
    | none => some x
    | some y => last next fuel y

/-- `b->next = 0; for(pp = &head; *pp; pp = &(*pp)->next); *pp = b;` -/
def enqueue [DecidableEq α] (q : LinkedQueue α) (fuel : ℕ) (b : α) : Option (LinkedQueue α) :=
  let q := { q with next := update q.next b none }
  match q.head with
  | none => some { q with head := some b }
  | some x => (last q.next fuel x).map fun y => { q with next := update q.next y (some b) }

/-- The first node `b` is taken out. -/
def dequeue (q : LinkedQueue α) (b : α) : LinkedQueue α := { q with head := q.next b }

/-- The pointers lead through the nodes of a list, to the end. -/
def Chain (next : α → Option α) : Option α → List α → Prop
  | h, [] => h = none
  | h, x :: xs => h = some x ∧ Chain next (next x) xs

/-- The queue is that list of different nodes. -/
structure Lists (q : LinkedQueue α) (xs : List α) : Prop where
  chain : Chain q.next q.head xs
  nodup : xs.Nodup

variable {next next' : α → Option α} {h : Option α} {xs : List α} {b x : α} {q : LinkedQueue α}

theorem Chain.congr (hchain : Chain next h xs) (hsame : ∀ x ∈ xs, next' x = next x) : Chain next' h xs := by
  induction xs generalizing h with
  | nil => exact hchain
  | cons x xs ih =>
    refine ⟨hchain.1, ?_⟩
    rw [hsame x List.mem_cons_self]
    exact ih hchain.2 fun y hy => hsame y (List.mem_cons_of_mem x hy)

theorem Lists.head (hq : q.Lists xs) : q.head = xs.head? := by
  cases xs with
  | nil => exact hq.chain
  | cons x xs => exact hq.chain.1

theorem Lists.dequeue (hq : q.Lists (b :: xs)) : (q.dequeue b).Lists xs :=
  ⟨hq.chain.2, (List.nodup_cons.mp hq.nodup).2⟩

/-- The walk from `x` ends at the last node of the chain, and a node stored there continues it. -/
theorem Chain.store_last [DecidableEq α] {fuel : ℕ} (hchain : Chain next (some x) (x :: xs)) (hnodup : (x :: xs).Nodup)
    (hb : b ∉ x :: xs) (hnext : next b = none) (hfuel : xs.length < fuel) :
    ∃ y ∈ x :: xs, last next fuel x = some y ∧ Chain (update next y (some b)) (some x) (x :: xs ++ [b]) := by
  induction xs generalizing x fuel with
  | nil =>
    obtain ⟨fuel, rfl⟩ : ∃ k, fuel = k + 1 := ⟨fuel - 1, by omega⟩
    have hbx : b ≠ x := fun heq => hb (heq ▸ List.mem_cons_self)
    have hx : next x = none := hchain.2
    refine ⟨x, List.mem_cons_self, ?_, rfl, ?_⟩
    · rw [last, hx]
    · rw [update_self]
      refine ⟨rfl, ?_⟩
      rw [update_of_ne hbx]
      exact hnext
  | cons z zs ih =>
    obtain ⟨fuel, rfl⟩ : ∃ k, fuel = k + 1 := ⟨fuel - 1, by omega⟩
    obtain ⟨hx, hnodup⟩ := List.nodup_cons.mp hnodup
    have hz : next x = some z := hchain.2.1
    have hrest : Chain next (some z) (z :: zs) := hz ▸ hchain.2
    have hlen : zs.length < fuel := Nat.lt_of_succ_lt_succ hfuel
    obtain ⟨y, hy, hlast, hnew⟩ := ih hrest hnodup (fun hmem => hb (List.mem_cons_of_mem x hmem)) hlen
    have hxy : x ≠ y := fun heq => hx (heq ▸ hy)
    refine ⟨y, List.mem_cons_of_mem x hy, ?_, rfl, ?_⟩
    · rw [last, hz]
      exact hlast
    · rw [update_of_ne hxy, hz]
      exact hnew

/-- With enough fuel a new node is appended. -/
theorem Lists.enqueue [DecidableEq α] {fuel : ℕ} (hq : q.Lists xs) (hb : b ∉ xs) (hfuel : xs.length ≤ fuel) :
    ∃ q', q.enqueue fuel b = some q' ∧ q'.Lists (xs ++ [b]) := by
  have hnodup : (xs ++ [b]).Nodup := by
    rw [← List.concat_eq_append]
    exact hq.nodup.concat hb
  have hclear : Chain (update q.next b none) q.head xs :=
    hq.chain.congr fun x hx => update_of_ne (fun heq : x = b => hb (heq ▸ hx)) _ _
  cases xs with
  | nil =>
    have hhead : q.head = none := hq.chain
    refine ⟨⟨some b, update q.next b none⟩, ?_, ⟨rfl, ?_⟩, hnodup⟩
    · rw [LinkedQueue.enqueue, hhead]
    · exact update_self b none q.next
  | cons x xs =>
    have hhead : q.head = some x := hq.chain.1
    rw [hhead] at hclear
    obtain ⟨y, -, hlast, hnew⟩ := hclear.store_last hq.nodup hb (update_self b none q.next) hfuel
    refine ⟨⟨some x, update (update q.next b none) y (some b)⟩, ?_, hnew, hnodup⟩
    rw [LinkedQueue.enqueue, hhead]
    dsimp only
    rw [hlast]
    rfl

end LinkedQueue

end Laboratorio
