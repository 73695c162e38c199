import Laboratorio.SimDependencia

/-! Which accesses of the simulator leave an array. The input check only bounds the pair from above, so
`pid - 1` and `pagina` can be negative; the indices that are read from the tables are bad where the
access reads a field that nobody wrote. -/

namespace Laboratorio.Sim

variable {modo : Char} {s s' : Estado} {x : PagVirtual} {a : Int × Int}

/-- The two checks at the start of the loop body let the pair through. -/
def Admitida (s : Estado) (a : Int × Int) : Prop :=
  ¬(a.1 > (MAX_PROCESOS : Int) - 1 ∨ a.2 > (VIRTUAL : Int) - 1) ∧ primerHueco s.memSecundaria.paginas ≠ none

def EnMarcha (modo : Char) (s : Estado) : Prop := ∃ U, EnLinea modo s s U

/-- The pair names an entry of the tables, and the access reads nothing that nobody wrote. -/
def Definida (modo : Char) (s : Estado) (a : Int × Int) : Prop :=
  EnRango a ∧ ∀ x, a = par x → Determinado modo s s x

theorem Inicial.enMarcha (h : Inicial s) (hsalida : s.salida = []) (modo : Char) : EnMarcha modo s := by
  have havance : Avance modo s s [] 0 := Avance.inicial modo h h hsalida hsalida
  cases havance with
  | sigue s' r' U hs hr henlinea =>
    cases hs
    cases hr
    exact ⟨U, henlinea⟩
  | llena hs hr => cases hs

/-! ### One access -/

theorem acceso_rechazada (modo : Char) (h : ¬Admitida s a) :
    acceso modo s a = .error (.noSeSoporta a.1 a.2) ∨ acceso modo s a = .error .memoriaSecundariaLlena := by
  by_cases hgrande : a.1 > (MAX_PROCESOS : Int) - 1 ∨ a.2 > (VIRTUAL : Int) - 1
  · apply Or.inl
    simp only [acceso, if_pos hgrande]
    rfl
  · apply Or.inr
    have hlleno : primerHueco s.memSecundaria.paginas = none := by
      by_contra hne
      exact h ⟨hgrande, hne⟩
    simp only [acceso, if_neg hgrande, verificarMemoriaSecundaria, hlleno]
    rfl

theorem acceso_admitida (modo : Char) (h : Admitida s a) :
    acceso modo s a = (inicializarProcesoSiEsNecesario a.1 s >>= servir modo a.1 a.2) := by
  obtain ⟨i, hi⟩ := Option.ne_none_iff_exists'.mp h.2
  simp only [acceso, if_neg h.1, verificarMemoriaSecundaria, hi, ok_bind]

section

variable (hmodo : modo = 'f' ∨ modo = 'l')

include hmodo

theorem servir_pagina_negativa (s : Estado) (pid : Int) {pagina : Int}
    (h : pagina < 0) : servir modo pid pagina s = .error .fueraDeRango := by
  have hentrada : s.entrada pid pagina = .error .fueraDeRango := by
    unfold Estado.entrada
    cases hpid : indexar MAX_PROCESOS (pid - 1) with
    | error e =>
      unfold indexar at hpid
      split at hpid
      · cases hpid
      · cases hpid
        rfl
    | ok p =>
      rw [ok_bind, indexar_fuera h]
      rfl
  cases hmodo with
  | inl hf =>
    subst hf
    simp only [servir, gestionarProcesoEnMemoria, Char.reduceEq, if_false, if_true, hentrada]
    rfl
  | inr hl =>
    subst hl
    simp only [servir, gestionarProcesoEnMemoria, if_true, hentrada]
    rfl

theorem acceso_negativa (h : Admitida s a) (ha : ¬EnRango a) :
    acceso modo s a = .error .fueraDeRango := by
  rw [acceso_admitida modo h]
  have hgrande := h.1
  simp only [MAX_PROCESOS, VIRTUAL] at hgrande
  by_cases hpid : a.1 ≤ 0
  · rw [inicializarProcesoSiEsNecesario, indexar_fuera (by omega)]
    rfl
  have hpagina : a.2 < 0 := by
    by_contra hge
    exact ha ⟨⟨by omega, by omega⟩, by omega, by omega⟩
  unfold inicializarProcesoSiEsNecesario
  rw [show indexar MAX_PROCESOS (a.1 - 1) = .ok ⟨(a.1 - 1).toNat, by simp only [MAX_PROCESOS]; omega⟩ from
    dif_pos ⟨by omega, by simp only [MAX_PROCESOS]; omega⟩, ok_bind]
  split
  · exact servir_pagina_negativa hmodo _ _ hpagina
  · exact servir_pagina_negativa hmodo _ _ hpagina

/-- An access from a state that the loop reaches: it completes in such a state if it is defined, and
leaves an array if the checks let it through and it is not. -/
theorem EnMarcha.acceso (h : EnMarcha modo s) (hadm : Admitida s a) :
    (Definida modo s a → ∃ s', acceso modo s a = .ok s' ∧ EnMarcha modo s') ∧
      (¬Definida modo s a → acceso modo s a = .error .fueraDeRango) := by
  obtain ⟨U, hlinea⟩ := h
  obtain ⟨i, hi⟩ := Option.ne_none_iff_exists'.mp hadm.2
  constructor
  · intro hdef
    obtain ⟨x, hx, rfl⟩ := hdef.1.exists_par
    obtain ⟨s', r', V, hs', hr', hV⟩ := hlinea.paso hmodo hx hi (hdef.2 x rfl)
    rw [hs'] at hr'
    cases hr'
    exact ⟨s', hs', V, hV⟩
  · intro hdef
    by_cases ha : EnRango a
    · obtain ⟨x, hx, rfl⟩ := ha.exists_par
      by_contra hne
      apply hdef
      refine ⟨ha, fun y hy => ?_⟩
      rw [← par_injective hy]
      exact hlinea.choque hmodo hx hi ⟨rfl, hne⟩
    · exact acceso_negativa hmodo hadm ha

theorem EnMarcha.fuera_iff (h : EnMarcha modo s) (a : Int × Int) :
    Sim.acceso modo s a = .error .fueraDeRango ↔ Admitida s a ∧ ¬Definida modo s a := by
  constructor
  · intro herror
    by_cases hadm : Admitida s a
    · refine ⟨hadm, fun hdef => ?_⟩
      obtain ⟨s', hs', -⟩ := (h.acceso hmodo hadm).1 hdef
      rw [hs'] at herror
      cases herror
    · cases acceso_rechazada modo hadm with
      | inl hno =>
        rw [hno] at herror
        cases herror
      | inr hlleno =>
        rw [hlleno] at herror
        cases herror
  · intro hmal
    exact (h.acceso hmodo hmal.1).2 hmal.2

theorem EnMarcha.sigue (h : EnMarcha modo s)
    (hrun : Sim.acceso modo s a = .ok s') : Admitida s a ∧ Definida modo s a ∧ EnMarcha modo s' := by
  have hadm : Admitida s a := by
    by_contra hadm
    cases acceso_rechazada modo hadm with
    | inl hno =>
      rw [hno] at hrun
      cases hrun
    | inr hlleno =>
      rw [hlleno] at hrun
      cases hrun
  have hdef : Definida modo s a := by
    by_contra hdef
    rw [(h.acceso hmodo hadm).2 hdef] at hrun
    cases hrun
  obtain ⟨s'', hs'', h''⟩ := (h.acceso hmodo hadm).1 hdef
  rw [hrun] at hs''
  cases hs''
  exact ⟨hadm, hdef, h''⟩

end

/-! ### Whole runs -/

/-- In either mode and on every list of pairs of integers, no index leaves its array exactly when every
access that the checks let through names an entry of the tables and reads nothing that nobody wrote. -/
theorem indices_en_rango_iff (modo : Char) (hmodo : modo = 'f' ∨ modo = 'l') (s₀ : Estado) (h₀ : Inicial s₀)
    (hsalida : s₀.salida = []) (accesos : List (Int × Int)) :
    correr modo s₀ accesos ≠ .error .fueraDeRango ↔
      ∀ t (ht : t < accesos.length) s, tras modo s₀ accesos t = some s → Admitida s accesos[t] →
        Definida modo s accesos[t] := by
  have hmarcha : ∀ {t s}, tras modo s₀ accesos t = some s → EnMarcha modo s := fun hs =>
    afterPrefix_invariant (fun _ _ _ h hrun => (h.sigue hmodo hrun).2.2) (h₀.enMarcha hsalida modo) hs
  rw [Ne, correr, foldlM_eq_error_iff]
  constructor
  · intro hno t ht s hs hadm
    by_contra hdef
    exact hno ⟨t, ht, s, hs, ((hmarcha hs).fuera_iff hmodo _).mpr ⟨hadm, hdef⟩⟩
  · intro hdef herror
    obtain ⟨t, ht, s, hs, hstep⟩ := herror
    obtain ⟨hadm, hno⟩ := ((hmarcha hs).fuera_iff hmodo _).mp hstep
    exact hno (hdef t ht s hs hadm)

theorem definida_arranque (modo : Char) {a : Int × Int} (ha : EnRango a) : Definida modo arranque a := by
  refine ⟨ha, fun x _ => ⟨fun _ => .inl ?_, fun _ hc => ?_⟩⟩
  · exact ⟨arranque_memoria x, arranque_memoria x⟩
  · exact absurd (.inl rfl) hc

theorem indices_en_rango_iff_unAcceso : correr 'f' arranque [(1, 0)] ≠ .error .fueraDeRango := by
  refine (indices_en_rango_iff 'f' (.inl rfl) arranque arranque_inicial rfl [(1, 0)]).mpr ?_
  intro t ht s hs _
  obtain rfl : t = 0 := by
    simp only [List.length_singleton] at ht
    omega
  cases hs
  exact definida_arranque 'f' (unAcceso_enRango _ (List.getElem_mem _))

/-- The pair `0 0` passes the input check and is used as `procesos[-1]`. -/
theorem par_cero_fuera_de_rango : correr 'f' arranque [(0, 0)] = .error .fueraDeRango := rfl

end Laboratorio.Sim
