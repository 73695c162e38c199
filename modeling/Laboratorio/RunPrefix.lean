import Mathlib.Data.List.Basic

/-! A loop that reads a list of inputs and may stop with an error, as a monadic fold. The state
after the first `t` inputs, the step from one such state to the next, and the induction over the
length of the prefix. -/

namespace Laboratorio

variable {σ α ε : Type}

theorem ok_bind {β : Type} (a : α) (f : α → Except ε β) : (Except.ok a >>= f) = f a := rfl

theorem pure_eq_ok (a : α) : (pure a : Except ε α) = .ok a := rfl

variable {x : Except ε α}

/-- Peel one step off a computation that completes. -/
theorem bind_eq_ok {β : Type} {f : α → Except ε β} {r : β} (h : (x >>= f) = .ok r) :
    ∃ y, x = .ok y ∧ f y = .ok r := by
  cases x with
  | error e => cases h
  | ok y => exact ⟨y, rfl, h⟩

/-- Running a computation decides whether it completes with a result in `Q`. -/
instance decidableCompletes {Q : α → Prop} [DecidablePred Q] : ∀ x : Except ε α, Decidable (∃ a, x = .ok a ∧ Q a)
  | .error _ => isFalse nofun
  | .ok a => decidable_of_iff (Q a) ⟨fun h => ⟨a, rfl, h⟩, fun | ⟨_, rfl, h⟩ => h⟩

instance (priority := low) decidableStops [DecidableEq ε] (e : ε) : ∀ x : Except ε α, Decidable (x = .error e)
  | .error e' => decidable_of_iff (e' = e) ⟨congrArg _, fun | rfl => rfl⟩
  | .ok _ => isFalse nofun

/-- The computation completes with a result in `Q` or stops with an error in `E`. -/
inductive Ends (E : ε → Prop) : Except ε α → (α → Prop) → Prop
  | ok {a : α} {Q : α → Prop} (h : Q a) : Ends E (.ok a) Q
  | stop {e : ε} {Q : α → Prop} (h : E e) : Ends E (.error e) Q

variable {step : σ → α → Except ε σ} {I : σ → Prop} {s : σ}

namespace Ends

variable {E : ε → Prop} {Q : α → Prop}

theorem bind {β : Type} {f : α → Except ε β} {R : β → Prop} (hx : Ends E x Q)
    (hf : ∀ a, Q a → Ends E (f a) R) : Ends E (x >>= f) R := by
  cases hx with
  | ok h => exact hf _ h
  | stop h => exact .stop h

theorem mono {R : α → Prop} (hx : Ends E x Q) (h : ∀ a, Q a → R a) : Ends E x R := by
  cases hx with
  | ok ha => exact .ok (h _ ha)
  | stop he => exact .stop he

/-- The errors may be described by less. -/
theorem mono_stop {E' : ε → Prop} (hx : Ends E x Q) (h : ∀ e, E e → E' e) : Ends E' x Q := by
  cases hx with
  | ok ha => exact .ok ha
  | stop he => exact .stop (h _ he)

/-- The errors under another name. -/
theorem mapError {δ : Type} {E' : δ → Prop} {f : ε → δ} (hx : Ends E x Q) (h : ∀ e, E e → E' (f e)) :
    Ends E' (x.mapError f) Q := by
  cases hx with
  | ok ha => exact .ok ha
  | stop he => exact .stop (h _ he)

theorem never (hx : Ends (fun _ => False) x Q) : Ends E x Q := hx.mono_stop fun _ => False.elim

theorem of_ok {a : α} (hx : Ends E x Q) (h : x = .ok a) : Q a := by
  subst h
  cases hx with
  | ok h => exact h

theorem exists_ok (hx : Ends (fun _ => False) x Q) : ∃ a, x = .ok a ∧ Q a := by
  cases hx with
  | ok ha => exact ⟨_, rfl, ha⟩
  | stop he => exact he.elim

/-- The same of a result that is kept as an option. -/
theorem of_some {a : α} (hx : Ends E x Q) (h : x.toOption = some a) : Q a := by
  cases hx with
  | ok ha =>
    cases h
    exact ha
  | stop he => cases h

theorem foldlM (hstep : ∀ s a, I s → Ends E (step s a) I)
    (inputs : List α) (hs : I s) : Ends E (inputs.foldlM step s) I := by
  induction inputs generalizing s with
  | nil => exact .ok hs
  | cons a inputs ih =>
    rw [List.foldlM_cons]
    exact (hstep s a hs).bind fun s' hs' => ih hs'

end Ends

/-- Two computations end alike: both complete, with results in `R`, or both stop. -/
inductive Alike {β δ : Type} (R : α → β → Prop) : Except ε α → Except δ β → Prop
  | ok {a : α} {b : β} (h : R a b) : Alike R (.ok a) (.ok b)
  | stop {e : ε} {e' : δ} : Alike R (.error e) (.error e')

namespace Alike

variable {β δ : Type} {R : α → β → Prop} {x : Except ε α} {y : Except δ β}

theorem bind {α' β' : Type} {S : α' → β' → Prop} {f : α → Except ε α'} {g : β → Except δ β'} (h : Alike R x y)
    (hf : ∀ a b, y = .ok b → R a b → Alike S (f a) (g b)) : Alike S (x >>= f) (y >>= g) := by
  cases h with
  | ok h => exact hf _ _ rfl h
  | stop => exact .stop

theorem of_ok {a : α} (h : Alike R x y) (hx : x = .ok a) : ∃ b, y = .ok b ∧ R a b := by
  cases h with
  | ok h =>
    cases hx
    exact ⟨_, rfl, h⟩
  | stop => cases hx

theorem of_ok_right {b : β} (h : Alike R x y) (hy : y = .ok b) : ∃ a, x = .ok a ∧ R a b := by
  cases h with
  | ok h =>
    cases hy
    exact ⟨_, rfl, h⟩
  | stop => cases hy

end Alike

/-- Two computations both complete, with results in `R`. -/
inductive BothEnd {β δ : Type} (R : α → β → Prop) : Except ε α → Except δ β → Prop
  | ok {a : α} {b : β} (h : R a b) : BothEnd R (.ok a) (.ok b)

namespace BothEnd

variable {β δ : Type} {R : α → β → Prop} {x : Except ε α} {y : Except δ β}

theorem bind {α' β' : Type} {S : α' → β' → Prop} {f : α → Except ε α'} {g : β → Except δ β'}
    (h : BothEnd R x y) (hf : ∀ a b, R a b → BothEnd S (f a) (g b)) : BothEnd S (x >>= f) (y >>= g) := by
  cases h with
  | ok h => exact hf _ _ h

theorem mono {S : α → β → Prop} (h : BothEnd R x y) (hRS : ∀ a b, R a b → S a b) : BothEnd S x y := by
  cases h with
  | ok h => exact .ok (hRS _ _ h)

theorem exists_ok (h : BothEnd R x y) : ∃ a b, x = .ok a ∧ y = .ok b ∧ R a b := by
  cases h with
  | ok h => exact ⟨_, _, rfl, rfl, h⟩

end BothEnd

variable {inputs : List α} {s' : σ}

/-- An invariant of the step holds after the loop. -/
theorem foldlM_invariant
    (hstep : ∀ s a s', I s → step s a = .ok s' → I s') (hs : I s)
    (hrun : inputs.foldlM step s = .ok s') : I s' := by
  induction inputs generalizing s with
  | nil =>
    cases hrun
    exact hs
  | cons a inputs ih =>
    rw [List.foldlM_cons] at hrun
    obtain ⟨s₁, hone, hrest⟩ := bind_eq_ok hrun
    exact ih (hstep s a s₁ hs hone) hrest

/-- An error that no step from a state in the invariant ends with is not how the loop ends. -/
theorem foldlM_ne_error {e : ε}
    (hstep : ∀ s a s', I s → step s a = .ok s' → I s') (hne : ∀ s a, I s → step s a ≠ .error e)
    (inputs : List α) (hs : I s) : inputs.foldlM step s ≠ .error e := by
  induction inputs generalizing s with
  | nil => exact fun hc => nomatch hc
  | cons a inputs ih =>
    rw [List.foldlM_cons]
    cases hone : step s a with
    | error e' =>
      intro hc
      apply hne s a hs
      rw [hone]
      cases hc
      rfl
    | ok s₁ => exact ih (hstep s a s₁ hs hone)

/-- The state after the first `t` inputs, if the loop got that far. -/
def afterPrefix (step : σ → α → Except ε σ) (s : σ) (inputs : List α) (t : Nat) : Option σ :=
  ((inputs.take t).foldlM step s).toOption

variable {t : Nat}

theorem foldlM_take_succ (step : σ → α → Except ε σ) (s : σ) (inputs : List α) (ht : t < inputs.length) :
    (inputs.take (t + 1)).foldlM step s = ((inputs.take t).foldlM step s >>= fun s' => step s' inputs[t]) := by
  rw [← List.take_append_getElem ht, List.foldlM_append]
  congr 1
  funext s'
  simp

theorem toOption_eq_some {x : Except ε σ} : x.toOption = some s ↔ x = .ok s := by
  cases x <;> simp [Except.toOption]

/-- One more input is one more step. -/
theorem afterPrefix_succ (step : σ → α → Except ε σ) {s'' : σ}
    (ht : t < inputs.length) (hs : afterPrefix step s inputs t = some s')
    (hstep : step s' inputs[t] = .ok s'') : afterPrefix step s inputs (t + 1) = some s'' := by
  rw [afterPrefix, toOption_eq_some] at hs ⊢
  rw [foldlM_take_succ step s inputs ht, hs]
  exact hstep

/-- A loop stopped in the middle ends with the error it was stopped by. -/
theorem foldlM_error_of_step (step : σ → α → Except ε σ) {e : ε}
    (ht : t < inputs.length) (hs : afterPrefix step s inputs t = some s')
    (hstep : step s' inputs[t] = .error e) : inputs.foldlM step s = .error e := by
  rw [afterPrefix, toOption_eq_some] at hs
  have hsucc := foldlM_take_succ step s inputs ht
  rw [hs] at hsucc
  change _ = step s' inputs[t] at hsucc
  rw [hstep] at hsucc
  rw [← List.take_append_drop (t + 1) inputs, List.foldlM_append, hsucc]
  rfl

/-- The loop ends with an error exactly when some step ends with it. -/
theorem foldlM_eq_error_iff (step : σ → α → Except ε σ) (s : σ) (inputs : List α) (e : ε) :
    inputs.foldlM step s = .error e ↔
      ∃ t, ∃ ht : t < inputs.length, ∃ s', afterPrefix step s inputs t = some s' ∧ step s' inputs[t] = .error e := by
  constructor
  · intro h
    induction inputs generalizing s with
    | nil => cases h
    | cons a inputs ih =>
      rw [List.foldlM_cons] at h
      cases hone : step s a with
      | error e' =>
        rw [hone] at h
        exact ⟨0, Nat.zero_lt_succ _, s, rfl, hone.trans h⟩
      | ok s₁ =>
        rw [hone, ok_bind] at h
        obtain ⟨t, ht, s', hs', hstep⟩ := ih s₁ h
        refine ⟨t + 1, Nat.succ_lt_succ ht, s', ?_, hstep⟩
        rw [afterPrefix, List.take_succ_cons, List.foldlM_cons, hone]
        exact hs'
  · intro h
    obtain ⟨t, ht, s', hs', hstep⟩ := h
    exact foldlM_error_of_step step ht hs' hstep

/-- An invariant of the step holds after every number of inputs. -/
theorem afterPrefix_invariant
    (hstep : ∀ s a s', I s → step s a = .ok s' → I s') (hs : I s)
    (hrun : afterPrefix step s inputs t = some s') : I s' :=
  foldlM_invariant hstep hs (toOption_eq_some.mp hrun)

end Laboratorio
