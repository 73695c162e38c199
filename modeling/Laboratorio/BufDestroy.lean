import Laboratorio.BufThreads

/-! `main` of `lab-05/buf.c` destroys the two semaphores and the mutex without waiting for the threads.
Which runs operate on a destroyed object, and that the two threads never block each other for good:
whatever they still have to do, they can do. -/

namespace Laboratorio.Buf

open Function

variable {p : Params} {s s' : Estado p} {h : Hilo} {o : Objeto}

/-- The thread still has an operation on the object to perform. -/
def Local.Falta (p : Params) (h : Hilo) (l : Local) (o : Objeto) : Prop :=
  match l.fase with
  | .noCreado | .wait | .enWait => True
  | .lock | .enLock | .acceso | .unlock => o ≠ .sem h.esperado ∨ l.i + 1 < p.items
  | .post => o = .sem h.avisado ∨ l.i + 1 < p.items
  | .espera => l.i + 1 < p.items
  | .imprime | .fin => False

theorem falta_trasVuelta (h : Hilo) (o : Objeto) (n : ℕ) :
    (⟨trasVuelta p h n, n⟩ : Local).Falta p h o ↔ n < p.items := by
  unfold trasVuelta
  split_ifs with hn
  · simp [Local.Falta, hn]
  · cases h <;> simp [Local.Falta, hn]

variable {l : Local}

theorem falta_of_usa (ho : usa h l.fase = some o) : l.Falta p h o := by
  obtain ⟨f, i⟩ := l
  cases f <;> simp only [usa, Option.some.injEq, reduceCtorEq] at ho <;> subst ho <;> simp [Local.Falta]

/-- A step of the thread performs one operation: what is left afterwards was left before, and what was
left before and is not performed is left afterwards. -/
theorem falta_next (h : Hilo) (l : Local) (o : Objeto) :
    ((l.next p h).Falta p h o → l.Falta p h o) ∧
    (l.Falta p h o → usa h l.fase ≠ some o → (l.next p h).Falta p h o) := by
  obtain ⟨f, i⟩ := l
  cases f with
  | espera =>
    simp only [Local.next]
    rw [falta_trasVuelta]
    exact ⟨id, fun hf _ => hf⟩
  | unlock =>
    rcases o with (_ | _) | _ <;> cases h <;>
      simp [Local.next, Local.Falta, usa, Hilo.esperado, Hilo.avisado]
  | _ => simp [Local.next, Local.Falta, usa, eq_comm] <;> tauto

/-! ### What a thread step leaves alone -/

theorem stepHilo_resto (hs : stepHilo s h = some s') :
    s'.destruido = s.destruido ∧ s'.indefinido = s.indefinido ∧ s'.main = s.main := by
  unfold stepHilo at hs
  cases hf : (s.hilos h).fase <;> simp only [hf] at hs <;> try split_ifs at hs
  all_goals
    cases hs
    try exact ⟨rfl, rfl, rfl⟩
  cases h <;> exact ⟨rfl, rfl, rfl⟩

theorem falta_stepHilo (hs : stepHilo s h = some s') (h' : Hilo) (o : Objeto) :
    ((s'.hilos h').Falta p h' o → (s.hilos h').Falta p h' o) ∧
      ((s.hilos h').Falta p h' o → usa h (s.hilos h).fase ≠ some o → (s'.hilos h').Falta p h' o) := by
  rw [stepHilo_hilos hs]
  by_cases hh : h' = h
  · subst hh
    rw [update_self]
    exact falta_next h' (s.hilos h') o
  · rw [update_of_ne hh]
    exact ⟨id, fun hf _ => hf⟩

/-! ### Runs in which nothing is destroyed too early -/

/-- No thread has an operation left on a destroyed object. -/
structure Intacto (s : Estado p) : Prop where
  definido : s.indefinido = false
  cumplido : ∀ o, s.destruido o = true → ∀ h, ¬(s.hilos h).Falta p h o

/-- The condition on a step of `main`: what it destroys is not needed any more. -/
def SinUso (s : Estado p) (a : Accion) : Prop :=
  ∀ o, a = .main → s.main = .destruye o → ∀ h, ¬(s.hilos h).Falta p h o

variable {a : Accion}

theorem Intacto.step (hin : Intacto s) (hi : Inv s) (hs : Buf.step s a = some s')
    (huso : SinUso s a) : Intacto s' := by
  cases paso_of_step hs with
  | roto h o _ ho hd => exact absurd (falta_of_usa ho) (hin.cumplido o hd h)
  | hilo h _ _ _ hs =>
    obtain ⟨hdes, hdef, -⟩ := stepHilo_resto hs
    refine ⟨hdef.trans hin.definido, fun o hd h' hf => ?_⟩
    rw [hdes] at hd
    exact hin.cumplido o hd h' ((falta_stepHilo hs h' o).1 hf)
  | main _ _ hs =>
    -- a thread that does not exist yet needs every object
    have hcrea : ∀ h, s.main = .crea h → ∀ o, s.destruido o = false := by
      intro h hm o
      have hnuevo := hi.porCrear h (.inr hm)
      cases hd : s.destruido o with
      | false => rfl
      | true =>
        refine absurd ?_ (hin.cumplido o hd h)
        rw [hnuevo]
        trivial
    unfold Buf.stepMain at hs
    split at hs
    case h_1 hm =>
      cases hs
      exact ⟨hin.definido, fun o hd => by rw [hcrea _ hm o] at hd; cases hd⟩
    case h_2 hm =>
      cases hs
      exact ⟨hin.definido, fun o hd => by rw [hcrea _ hm o] at hd; cases hd⟩
    case h_3 o hm =>
      cases hs
      refine ⟨hin.definido, fun o' hd h => ?_⟩
      by_cases ho : o' = o
      · subst ho
        exact huso o' rfl hm h
      · simp only [update_of_ne ho] at hd
        exact hin.cumplido o' hd h
    case h_4 =>
      cases hs
      exact ⟨hin.definido, hin.cumplido⟩
    case h_5 => cases hs

variable {basura : Fin p.size → ℤ}

theorem Intacto.trace (e : Trace (inicio p basura) Buf.step)
    (huso : ∀ t < e.len, SinUso (e.state t) (e.act t)) : ∀ t ≤ e.len, Intacto (e.state t) := by
  intro t
  induction t with
  | zero =>
    intro _
    rw [e.start]
    exact ⟨rfl, fun o hd => nomatch hd⟩
  | succ t ih =>
    intro ht
    exact (ih (by omega)).step (Inv.trace e t (by omega)) (e.next t ht) (huso t ht)

/-! ### The threads never wait for each other for good -/

/-- The loop counter of a thread in or behind its loop. -/
def Local.Cabe (p : Params) (l : Local) : Prop :=
  match l.fase with
  | .imprime | .fin => l.i = p.items
  | _ => l.i < p.items

theorem cabe_trasVuelta (h : Hilo) {n : ℕ} (hn : n ≤ p.items) : (⟨trasVuelta p h n, n⟩ : Local).Cabe p := by
  unfold trasVuelta
  split_ifs with hlt
  · exact hlt
  · have heq : n = p.items := by omega
    cases h <;> exact heq

theorem cabe_next (h : Hilo) (hl : l.Cabe p) : (l.next p h).Cabe p := by
  obtain ⟨f, i⟩ := l
  cases f with
  | espera => exact cabe_trasVuelta h hl
  | _ => exact hl

/-- The mutex is held by the thread between its lock and its unlock, the loop counters are in range and
the threads exist once `main` is past creating them. -/
structure Orden (s : Estado p) : Prop where
  mutex : Excludes s.mutex fun h => (s.hilos h).fase = .acceso ∨ (s.hilos h).fase = .unlock
  cabe : ∀ h, (s.hilos h).Cabe p
  creados : ∀ h, s.main ≠ .crea .producer → s.main ≠ .crea h → (s.hilos h).fase ≠ .noCreado

theorem inicio_orden (p : Params) (basura : Fin p.size → ℤ) : Orden (inicio p basura) := by
  refine ⟨fun h => ?_, fun h => p.items_pos, fun h hc => absurd rfl hc⟩
  simp [inicio]

theorem trasVuelta_creado (h : Hilo) (n : ℕ) : trasVuelta p h n ≠ .noCreado := by
  unfold trasVuelta
  split_ifs
  · decide
  · cases h <;> decide

theorem creado_next (hl : l.fase ≠ .noCreado) : (l.next p h).fase ≠ .noCreado := by
  obtain ⟨f, i⟩ := l
  cases f with
  | noCreado => exact absurd rfl hl
  | espera => exact trasVuelta_creado h (i + 1)
  | _ => simp [Local.next]

theorem stepHilo_mutex (hs : stepHilo s h = some s') :
    ((s.hilos h).fase = .enLock ∧ s.mutex = none ∧ s'.mutex = some h) ∨ ((s.hilos h).fase = .unlock ∧ s'.mutex = none) ∨
      ((s.hilos h).fase ≠ .enLock ∧ (s.hilos h).fase ≠ .unlock ∧ s'.mutex = s.mutex) := by
  unfold stepHilo at hs
  cases hf : (s.hilos h).fase with
  | enLock =>
    simp only [hf] at hs
    split_ifs at hs with hm
    cases hs
    exact .inl ⟨rfl, hm, rfl⟩
  | unlock =>
    simp only [hf, Option.some.injEq] at hs
    subst hs
    exact .inr (.inl ⟨rfl, rfl⟩)
  | acceso =>
    simp only [hf, Option.some.injEq] at hs
    subst hs
    exact .inr (.inr ⟨nofun, nofun, by cases h <;> rfl⟩)
  | enWait =>
    simp only [hf] at hs
    split_ifs at hs
    cases hs
    exact .inr (.inr ⟨nofun, nofun, rfl⟩)
  | noCreado | fin => simp [hf] at hs
  | _ =>
    simp only [hf, Option.some.injEq] at hs
    subst hs
    exact .inr (.inr ⟨nofun, nofun, rfl⟩)

theorem dentro_next (h : Hilo) (hl : l.fase ≠ .enLock) (hu : l.fase ≠ .unlock) :
    ((l.next p h).fase = .acceso ∨ (l.next p h).fase = .unlock) ↔ (l.fase = .acceso ∨ l.fase = .unlock) := by
  obtain ⟨f, i⟩ := l
  cases f with
  | espera =>
    simp only [Local.next, trasVuelta]
    split_ifs
    · simp
    · cases h <;> simp
  | enLock => exact absurd rfl hl
  | unlock => exact absurd rfl hu
  | _ => simp [Local.next]

theorem Orden.stepHilo (ho : Orden s) (hs : Buf.stepHilo s h = some s') : Orden s' := by
  have hhilos := stepHilo_hilos hs
  have hotros : ∀ h', h' ≠ h → s'.hilos h' = s.hilos h' := by
    intro h' hne
    rw [hhilos, update_of_ne hne]
  have hpropio : s'.hilos h = (s.hilos h).next p h := by rw [hhilos, update_self]
  have hexcl := ho.mutex
  refine ⟨?_, ?_, ?_⟩
  · rcases stepHilo_mutex hs with ⟨hf, hm, hm'⟩ | ⟨hf, hm'⟩ | ⟨hl, hu, hm'⟩
    · rw [hm] at hexcl
      rw [hm']
      refine hexcl.lock ?_ fun h' hne => by rw [hotros h' hne]
      rw [hpropio, Local.next, hf]
      exact .inl rfl
    · rw [hm']
      refine hexcl.unlock (.inr hf) ?_ fun h' hne => by rw [hotros h' hne]
      rw [hpropio, Local.next, hf]
      simp
    · rw [hm']
      refine hexcl.keep fun h' => ?_
      by_cases hne : h' = h
      · subst hne
        rw [hpropio]
        exact dentro_next h' hl hu
      · rw [hotros h' hne]
  · intro h'
    by_cases hne : h' = h
    · subst hne
      rw [hpropio]
      exact cabe_next h' (ho.cabe h')
    · rw [hotros h' hne]
      exact ho.cabe h'
  · intro h' hprod hcrea
    rw [(stepHilo_resto hs).2.2] at hprod hcrea
    have hcre := ho.creados h' hprod hcrea
    by_cases hne : h' = h
    · subst hne
      rw [hpropio]
      exact creado_next hcre
    · rw [hotros h' hne]
      exact hcre

theorem Orden.stepMain (ho : Orden s) (hi : Inv s) (hs : Buf.stepMain s = some s') : Orden s' := by
  -- a new thread is outside the section, and so it was
  have hnuevo : ∀ h, s.main = .crea h →
      Excludes s.mutex (fun h' => (update s.hilos h ⟨trasVuelta p h 0, 0⟩ h').fase = .acceso ∨
        (update s.hilos h ⟨trasVuelta p h 0, 0⟩ h').fase = .unlock) ∧
      ∀ h', (update s.hilos h ⟨trasVuelta p h 0, 0⟩ h').Cabe p := by
    intro h hm
    have hprev := hi.porCrear h (.inr hm)
    have hstart : trasVuelta p h 0 = .wait := if_pos p.items_pos
    refine ⟨ho.mutex.keep fun h' => ?_, fun h' => ?_⟩
    · by_cases hne : h' = h
      · subst hne
        simp [hprev, hstart]
      · simp only [update_of_ne hne]
    · by_cases hne : h' = h
      · subst hne
        rw [update_self]
        exact cabe_trasVuelta h' (Nat.zero_le _)
      · rw [update_of_ne hne]
        exact ho.cabe h'
  have hexiste : ∀ h, (update s.hilos h ⟨trasVuelta p h 0, 0⟩ h).fase ≠ .noCreado := by
    intro h
    rw [update_self]
    exact trasVuelta_creado h 0
  unfold Buf.stepMain at hs
  split at hs
  case h_1 hm =>
    cases hs
    refine ⟨(hnuevo _ hm).1, (hnuevo _ hm).2, fun h' _ hc => ?_⟩
    cases h' with
    | producer => exact hexiste .producer
    | consumer => exact absurd rfl hc
  case h_2 hm =>
    cases hs
    refine ⟨(hnuevo _ hm).1, (hnuevo _ hm).2, fun h' _ _ => ?_⟩
    cases h' with
    | producer => exact ho.creados .producer (by simp [hm]) (by simp [hm])
    | consumer => exact hexiste .consumer
  case h_3 o hm =>
    cases hs
    exact ⟨ho.mutex, ho.cabe, fun h' _ _ => ho.creados h' (by simp [hm]) (by simp [hm])⟩
  case h_4 hm =>
    cases hs
    exact ⟨ho.mutex, ho.cabe, fun h' _ _ => ho.creados h' (by simp [hm]) (by simp [hm])⟩
  case h_5 => cases hs

theorem Orden.step (ho : Orden s) (hi : Inv s) (hs : Buf.step s a = some s') : Orden s' := by
  cases paso_of_step hs with
  | hilo h _ _ _ hs => exact ho.stepHilo hs
  | roto => exact ⟨ho.mutex, ho.cabe, ho.creados⟩
  | main _ _ hs => exact ho.stepMain hi hs

theorem Orden.trace (e : Trace (inicio p basura) Buf.step) : ∀ t ≤ e.len, Orden (e.state t) := by
  intro t ht
  have hboth := e.invariant (I := fun s => Inv s ∧ Orden s) ⟨inicio_inv p basura, inicio_orden p basura⟩
    fun s a s' hs hstep => ⟨hs.1.step hstep, hs.2.step hs.1 hstep⟩
  exact (hboth t ht).2

/-- A thread that cannot take its next step does not exist, is done, or waits for a semaphore at 0 or
for a held mutex. -/
theorem detenido (hs : stepHilo s h = none) :
    (s.hilos h).fase = .noCreado ∨ (s.hilos h).fase = .fin ∨ ((s.hilos h).fase = .enWait ∧ s.sem h.esperado = 0) ∨
      ((s.hilos h).fase = .enLock ∧ s.mutex ≠ none) := by
  unfold stepHilo at hs
  cases hf : (s.hilos h).fase with
  | noCreado => exact .inl rfl
  | fin => exact .inr (.inl rfl)
  | enWait =>
    simp only [hf] at hs
    split_ifs at hs with hpos
    exact .inr (.inr (.inl ⟨rfl, by omega⟩))
  | enLock =>
    simp only [hf] at hs
    split_ifs at hs with hm
    exact .inr (.inr (.inr ⟨rfl, hm⟩))
  | _ => simp [hf] at hs

theorem fin_de_detenidos (hi : Inv s) (ho : Orden s) (hcre : ∀ h, (s.hilos h).fase ≠ .noCreado)
    (hs : ∀ h, stepHilo s h = none) : ∀ h, (s.hilos h).fase = .fin := by
  -- the holder of the mutex can always go on, so nobody waits for it
  have hlibre : s.mutex = none := by
    cases hm : s.mutex with
    | none => rfl
    | some h =>
      have hdentro : (s.hilos h).fase = .acceso ∨ (s.hilos h).fase = .unlock := (ho.mutex h).mpr hm
      rcases detenido (hs h) with hf | hf | ⟨hf, -⟩ | ⟨hf, -⟩ <;> rw [hf] at hdentro <;> simp at hdentro
  have hfase : ∀ h, (s.hilos h).fase = .fin ∨ ((s.hilos h).fase = .enWait ∧ s.sem h.esperado = 0) := by
    intro h
    rcases detenido (hs h) with hf | hf | hf | ⟨-, hm⟩
    · exact absurd hf (hcre h)
    · exact .inl hf
    · exact .inr hf
    · exact absurd hlibre hm
  have hv := hi.vacios
  have hl := hi.llenos
  have hcp := ho.cabe .producer
  have hcc := ho.cabe .consumer
  have hsize := p.size_pos
  simp only [Local.tomados, Local.avisos] at hv hl
  -- the semaphores cannot both be at 0 with items still to come
  rcases hfase .producer with hp | ⟨hp, hp0⟩ <;> rcases hfase .consumer with hc | ⟨hc, hc0⟩ <;>
    simp only [Local.Cabe, hp, hc] at hcp hcc <;> simp only [hp, hc, Fase.tomado, Fase.aviso] at hv hl
  · intro h
    cases h with
    | producer => exact hp
    | consumer => exact hc
  · change s.sem .llenos = 0 at hc0
    omega
  · change s.sem .vacios = 0 at hp0
    omega
  · change s.sem .vacios = 0 at hp0
    change s.sem .llenos = 0 at hc0
    omega

theorem Orden.entregado (hi : Inv s) (ho : Orden s) (hcrea : ∀ h, s.main ≠ .crea h)
    (hs : ∀ h, Buf.stepHilo s h = none) : ∀ i < p.items, s.readerResults i = some (i : ℤ) := by
  have hfin := fin_de_detenidos hi ho (fun h => ho.creados h (hcrea .producer) (hcrea h)) hs .consumer
  have hcabe := ho.cabe .consumer
  simp only [Local.Cabe, hfin] at hcabe
  intro i hlt
  apply hi.leidos
  simp only [Local.hechos, hfin, Fase.hecho, hcabe]
  omega

/-! ### The threads do what they still have to do -/

/-- A bound on the steps a thread still takes. -/
def Local.resta (p : Params) (l : Local) : ℕ :=
  match l.fase with
  | .noCreado | .wait => 8 * (p.items - l.i) + 2
  | .enWait => 8 * (p.items - l.i) + 1
  | .lock => 8 * (p.items - l.i)
  | .enLock => 8 * (p.items - l.i) - 1
  | .acceso => 8 * (p.items - l.i) - 2
  | .unlock => 8 * (p.items - l.i) - 3
  | .post => 8 * (p.items - l.i) - 4
  | .espera => 8 * (p.items - l.i) - 5
  | .imprime => 1
  | .fin => 0

theorem resta_next (hcabe : l.Cabe p) (hcre : l.fase ≠ .noCreado) (hfin : l.fase ≠ .fin) :
    (l.next p h).resta p < l.resta p := by
  obtain ⟨f, i⟩ := l
  cases f with
  | noCreado => exact absurd rfl hcre
  | fin => exact absurd rfl hfin
  | imprime => simp [Local.next, Local.resta]
  | espera =>
    simp only [Local.Cabe] at hcabe
    simp only [Local.next, trasVuelta]
    split_ifs
    · simp only [Local.resta]
      omega
    · cases h <;> simp only [Local.resta] <;> omega
  | _ =>
    simp only [Local.Cabe] at hcabe
    simp only [Local.next, Local.resta]
    omega

theorem step_vivo (hdef : s.indefinido = false) (hvivo : ∀ o, usa h (s.hilos h).fase = some o → s.destruido o = false) :
    step s (.hilo h) = stepHilo s h := by
  simp only [step, hdef, Bool.false_eq_true, if_false]
  cases hu : usa h (s.hilos h).fase with
  | none => rfl
  | some o => simp only [hvivo o hu, Bool.false_eq_true, if_false]

theorem step_roto (hdef : s.indefinido = false) (hu : usa h (s.hilos h).fase = some o)
    (hd : s.destruido o = true) : step s (.hilo h) = some { s with indefinido := true } := by
  simp only [step, hdef, Bool.false_eq_true, if_false, hu, hd, if_true]

theorem resta_stepHilo (ho : Orden s) (hcre : (s.hilos h).fase ≠ .noCreado) (hs : stepHilo s h = some s') :
    (s'.hilos .producer).resta p + (s'.hilos .consumer).resta p < (s.hilos .producer).resta p +
    (s.hilos .consumer).resta p := by
  have hfin : (s.hilos h).fase ≠ .fin := by
    intro hf
    simp [stepHilo, hf] at hs
  have hlt := resta_next (h := h) (ho.cabe h) hcre hfin
  rw [stepHilo_hilos hs]
  cases h with
  | producer =>
    rw [update_self, update_of_ne (show Hilo.consumer ≠ .producer from nofun)]
    omega
  | consumer =>
    rw [update_self, update_of_ne (show Hilo.producer ≠ .consumer from nofun)]
    omega

theorem resta_le (l : Local) : l.resta p ≤ 8 * p.items + 2 := by
  unfold Local.resta
  split <;> omega

theorem resta_run (hi : Inv s) (ho : Orden s) (hcrea : ∀ h, s.main ≠ .crea h) {hilos : List Hilo}
    (hrun : hilos.foldlM stepHilo s = some s') :
    Inv s' ∧ Orden s' ∧ (∀ h, s'.main ≠ .crea h) ∧ hilos.length ≤ (s.hilos .producer).resta p +
    (s.hilos .consumer).resta p := by
  induction hilos generalizing s with
  | nil =>
    cases hrun
    exact ⟨hi, ho, hcrea, Nat.zero_le _⟩
  | cons h hilos ih =>
    rw [List.foldlM_cons] at hrun
    obtain ⟨s₁, hone, hrest⟩ := Option.bind_eq_some_iff.mp hrun
    have hmain := (stepHilo_resto hone).2.2
    have hless := resta_stepHilo ho (ho.creados h (hcrea .producer) (hcrea h)) hone
    obtain ⟨hi', ho', hcrea', hle⟩ := ih (hi.stepHilo hone) (ho.stepHilo hone) (by rw [hmain]; exact hcrea) hrest
    refine ⟨hi', ho', hcrea', ?_⟩
    rw [List.length_cons]
    omega

theorem alcanza (hi : Inv s) (ho : Orden s) (hdef : s.indefinido = false) (hcrea : ∀ h, s.main ≠ .crea h)
    (hd : s.destruido o = true) (hf : (s.hilos h).Falta p h o) :
    ∃ hilos : List Hilo, ∃ s', (hilos.map Accion.hilo).foldlM step s = some s' ∧ s'.indefinido = true := by
  induction hn : (s.hilos .producer).resta p + (s.hilos .consumer).resta p using Nat.strong_induction_on
    generalizing s with
  | _ n ih =>
    have hcre : ∀ h, (s.hilos h).fase ≠ .noCreado := fun h => ho.creados h (hcrea .producer) (hcrea h)
    obtain ⟨h₁, s₁, hs₁⟩ : ∃ h₁ s₁, stepHilo s h₁ = some s₁ := by
      by_contra hc
      have hnone : ∀ h, stepHilo s h = none := by
        intro h
        cases hs : stepHilo s h with
        | none => rfl
        | some s₁ => exact absurd ⟨h, s₁, hs⟩ hc
      have hfin := fin_de_detenidos hi ho hcre hnone h
      simp [Local.Falta, hfin] at hf
    by_cases hroto : ∃ o', usa h₁ (s.hilos h₁).fase = some o' ∧ s.destruido o' = true
    · obtain ⟨o', hu, hd'⟩ := hroto
      exact ⟨[h₁], { s with indefinido := true }, by simp [step_roto hdef hu hd'], rfl⟩
    have hvivo : ∀ o', usa h₁ (s.hilos h₁).fase = some o' → s.destruido o' = false := by
      intro o' hu
      cases hd' : s.destruido o' with
      | false => rfl
      | true => exact absurd ⟨o', hu, hd'⟩ hroto
    have hstep : step s (.hilo h₁) = some s₁ := (step_vivo hdef hvivo).trans hs₁
    obtain ⟨hdes, hdef₁, hmain₁⟩ := stepHilo_resto hs₁
    have husa : usa h₁ (s.hilos h₁).fase ≠ some o := by
      intro hu
      rw [hvivo o hu] at hd
      cases hd
    obtain ⟨hilos, s', hrun, hind⟩ := ih _ (hn ▸ resta_stepHilo ho (hcre h₁) hs₁) (hi.step hstep)
      (ho.step hi hstep) (hdef₁.trans hdef) (by rw [hmain₁]; exact hcrea) (by rw [hdes]; exact hd)
      ((falta_stepHilo hs₁ h o).2 hf husa) rfl
    refine ⟨h₁ :: hilos, s', ?_, hind⟩
    rw [List.map_cons, List.foldlM_cons, hstep]
    exact hrun

/-! ### Use after destruction -/

/-- An object is destroyed that a thread still needs. -/
structure Prematuro (s : Estado p) (h : Hilo) (o : Objeto) : Prop where
  creado : ∀ h, s.main ≠ .crea h
  destruido : s.destruido o = true
  falta : (s.hilos h).Falta p h o

theorem Prematuro.step (hp : Prematuro s h o) (hs : Buf.step s a = some s')
    (hdef : s'.indefinido = false) : Prematuro s' h o := by
  cases paso_of_step hs with
  | roto => cases hdef
  | hilo h₁ _ _ hvivo hs =>
    obtain ⟨hdes, -, hmain⟩ := stepHilo_resto hs
    refine ⟨by rw [hmain]; exact hp.creado, by rw [hdes]; exact hp.destruido,
      (falta_stepHilo hs h o).2 hp.falta ?_⟩
    intro hu
    have hd := hvivo o hu
    rw [hp.destruido] at hd
    cases hd
  | main _ _ hs =>
    unfold Buf.stepMain at hs
    split at hs
    case h_1 hm | h_2 hm => exact absurd hm (hp.creado _)
    case h_3 o' hm =>
      cases hs
      refine ⟨fun h' => ?_, ?_, hp.falta⟩
      · rcases o' with (_ | _) | _ <;> simp
      · dsimp only
        by_cases ho : o = o'
        · rw [ho, update_self]
        · rw [update_of_ne ho]
          exact hp.destruido
    case h_4 =>
      cases hs
      exact ⟨fun h' => by simp, hp.destruido, hp.falta⟩
    case h_5 => cases hs

theorem Prematuro.nace (hm : s.main = .destruye o) (hs : Buf.step s .main = some s')
    (hf : (s.hilos h).Falta p h o) : Prematuro s' h o := by
  cases paso_of_step hs with
  | main _ _ hs =>
    simp only [Buf.stepMain, hm, Option.some.injEq] at hs
    subst hs
    refine ⟨fun h' => ?_, update_self .., hf⟩
    rcases o with (_ | _) | _ <;> simp

/-- A run, and every way in which its two threads can go on, operates on no destroyed object exactly
when `main` destroyed each object only after both threads were through with it. -/
theorem no_use_after_destroy_iff (p : Params) (basura : Fin p.size → ℤ) (e : Trace (inicio p basura) step) :
    ((∀ t ≤ e.len, (e.state t).indefinido = false) ∧
      ∀ (hilos : List Hilo) s, (hilos.map Accion.hilo).foldlM step (e.state e.len) = some s →
        s.indefinido = false) ↔
    ∀ t < e.len, ∀ o, e.act t = .main → (e.state t).main = .destruye o →
      ∀ h, ¬((e.state t).hilos h).Falta p h o := by
  constructor
  · rintro ⟨hrun, hgo⟩ t ht o hact hm h hf
    have hnext := e.next t ht
    rw [hact] at hnext
    have hpre : ∀ k, t + 1 + k ≤ e.len → Prematuro (e.state (t + 1 + k)) h o := by
      intro k
      induction k with
      | zero => exact fun _ => Prematuro.nace hm hnext hf
      | succ k ih =>
        intro hk
        exact (ih (by omega)).step (e.next (t + 1 + k) (by omega)) (hrun _ hk)
    obtain ⟨k, hk⟩ := Nat.exists_eq_add_of_le (Nat.succ_le_of_lt ht)
    have hend := hpre k (by omega)
    rw [← hk] at hend
    obtain ⟨hilos, s, hs, hind⟩ := alcanza (Inv.trace e e.len (le_refl _)) (Orden.trace e e.len (le_refl _))
      (hrun e.len (le_refl _)) hend.creado hend.destruido hend.falta
    rw [hgo hilos s hs] at hind
    cases hind
  · intro huso
    have hint := Intacto.trace e fun t ht o hact hm h => huso t ht o hact hm h
    refine ⟨fun t ht => (hint t ht).definido, fun hilos s hs => ?_⟩
    have hgo : ∀ (hilos : List Hilo) (r : Estado p), Inv r → Intacto r →
        (hilos.map Accion.hilo).foldlM step r = some s → s.indefinido = false := by
      intro hilos
      induction hilos with
      | nil =>
        intro r _ hr hs
        cases hs
        exact hr.definido
      | cons h hilos ih =>
        intro r hi hr hs
        rw [List.map_cons, List.foldlM_cons] at hs
        obtain ⟨r₁, hone, hrest⟩ := Option.bind_eq_some_iff.mp hs
        exact ih r₁ (hi.step hone) (hr.step hi hone fun o ha => nomatch ha) hrest
    exact hgo hilos _ (Inv.trace e e.len (le_refl _)) (hint e.len (le_refl _)) hs

def unItem : Params := ⟨1, 1, Nat.one_pos, Nat.one_pos⟩

/-- `main` creates both threads and destroys `vacios`; then the producer calls `sem_wait` on it. -/
def temprano : List Accion := [.main, .main, .main, .hilo .producer]

theorem producer_uses_destroyed_vacios :
    ∃ s, temprano.foldlM step (inicio unItem fun _ => 0) = some s ∧ s.indefinido = true := by
  refine ⟨_, rfl, ?_⟩
  rfl

/-- Once both threads are created, and as long as nothing is destroyed, they take a bounded number of steps in whatever
order they run, and they do not wait for each other for ever: where neither can go on, every item was delivered. -/
theorem threads_finish (p : Params) (basura : Fin p.size → ℤ) (e : Trace (inicio p basura) Buf.step)
    (hcrea : ∀ h, (e.state e.len).main ≠ .crea h) (hilos : List Hilo) {s : Estado p}
    (hrun : hilos.foldlM stepHilo (e.state e.len) = some s) :
    hilos.length ≤ 16 * p.items + 4 ∧
      ((∀ h, stepHilo s h = none) → ∀ i < p.items, s.readerResults i = some (i : ℤ)) := by
  obtain ⟨hi, ho, hcrea', hle⟩ := resta_run (Inv.trace e e.len le_rfl) (Orden.trace e e.len le_rfl) hcrea hrun
  refine ⟨?_, ho.entregado hi hcrea'⟩
  have hproducer := resta_le (p := p) ((e.state e.len).hilos .producer)
  have hconsumer := resta_le (p := p) ((e.state e.len).hilos .consumer)
  omega

/-- `main` has created both threads. -/
def creados : Trace (inicio unItem fun _ => 0) step := Trace.ofList [.main, .main] .main (by decide)

theorem threads_finish_unItem :
    ∃ s, (List.replicate 8 Hilo.producer ++ List.replicate 9 Hilo.consumer).foldlM stepHilo (creados.state 2) = some s ∧
      ∀ i < 1, s.readerResults i = some (i : ℤ) := by
  obtain ⟨s, hrun, hstop⟩ : ∃ s, (List.replicate 8 Hilo.producer ++ List.replicate 9 Hilo.consumer).foldlM stepHilo
      (creados.state 2) = some s ∧ ∀ h, stepHilo s h = none := ⟨_, rfl, fun h => by cases h <;> rfl⟩
  exact ⟨s, hrun, (threads_finish unItem _ creados (fun h => by cases h <;> decide) _ hrun).2 hstop⟩

end Laboratorio.Buf
