import Laboratorio.SimIndices

/-! When the simulator stops with the secondary memory full. The check is made before it is known where
the page is, so it stops also for a page that is in one of the memories; that both memories are full then
is an invariant. In mode `l` it follows from the tables. In mode `f`, whose tables are not exact, the last
swap frame is only ever filled by a replacement, which finds RAM full and all the other frames in use. -/

namespace Laboratorio.Sim

open Function

variable {modo : Char} {s s' : Estado} {x : PagVirtual} {a : Int × Int}

/-- The page is in neither memory, and there is no free frame in either. -/
def Agotada (s : Estado) (a : Int × Int) : Prop :=
  (∀ m, ¬s.Sostiene m a) ∧ (∀ k, (s.ram.paginas k).pid ≠ -1) ∧ ∀ i, (s.memSecundaria.paginas i).pid ≠ -1

/-- Both memories are full. -/
def Estado.Lleno (s : Estado) : Prop :=
  (∀ k, (s.ram.paginas k).pid ≠ -1) ∧ ∀ i, (s.memSecundaria.paginas i).pid ≠ -1

/-! ### Mode `f` -/

def ultimo : Fin SWAP := Fin.last 15

/-- The entries of active processes: in mode `f` none names a frame above those of RAM. -/
def Corta (s : Estado) : Prop :=
  ∀ y : PagVirtual, (s.procesos y.1).activo ≠ -1 →
    (s.tabla y).nroEnMemoria < FISICA ∧ (s.tabla y).pid ≠ -1

def UltimoLibre (s : Estado) : Prop := (s.memSecundaria.paginas ultimo).pid = -1 ∨ s.Lleno

theorem Corta.cambiarEntrada (h : Corta s) (pid pagina : Int) (f : Pagina → Pagina)
    (hf : ∀ e : Pagina, e.nroEnMemoria < FISICA → e.pid ≠ -1 → (f e).nroEnMemoria < FISICA ∧ (f e).pid ≠ -1) :
    Ends (fun _ => True) (s.cambiarEntrada pid pagina f) fun s' =>
      Corta s' ∧ s'.ram = s.ram ∧ s'.memSecundaria = s.memSecundaria ∧ ∀ p,
        (s'.procesos p).activo = (s.procesos p).activo := by
  unfold Estado.cambiarEntrada
  cases indexar MAX_PROCESOS (pid - 1) with
  | error e => exact .stop trivial
  | ok p =>
    cases indexar VIRTUAL pagina with
    | error e => exact .stop trivial
    | ok q =>
      refine .ok ⟨?_, rfl, rfl, s.activo_ponerEntrada (p, q) _⟩
      intro y hy
      rw [s.activo_ponerEntrada (p, q)] at hy
      rw [s.tabla_ponerEntrada (p, q)]
      by_cases hyx : y = (p, q)
      · subst hyx
        rw [update_self]
        exact hf _ (h _ hy).1 (h _ hy).2
      · rw [update_of_ne hyx]
        exact h y hy

theorem Corta.marcarCargada (h : Corta s) (pid pagina : Int) {marco : Int} (hmarco : marco < FISICA) :
    Ends (fun _ => True) (Sim.marcarCargada pid pagina marco s) fun s' =>
      Corta s' ∧ s'.ram = s.ram ∧ s'.memSecundaria = s.memSecundaria ∧ ∀ p,
        (s'.procesos p).activo = (s.procesos p).activo := by
  apply Ends.bind (h.cambiarEntrada pid pagina _ ?_)
  · intro s₁ h₁
    exact .ok h₁
  · intro e _ hpid
    exact ⟨hmarco, hpid⟩

variable {i : Fin SWAP}

theorem Corta.intercambiar (h : Corta s) (pid pagina : Int) (hi : i.val < FISICA) (k : Fin FISICA) :
    Ends (fun _ => True) (Sim.intercambiar pid pagina i k s) fun s' =>
      Corta s' ∧ ∀ j, j ≠ i → s'.memSecundaria.paginas j = s.memSecundaria.paginas j := by
  have hs : Corta (s.ponerSwap i { s.ram.paginas k with memoria := 2 }) := h
  have hi' : (i.val : Int) < FISICA := by omega
  refine (hs.cambiarEntrada _ _ (fun e => { e with nroEnMemoria := i.val, memoria := 2 })
    fun e _ hpid => ⟨hi', hpid⟩).bind fun s₁ h₁ => ?_
  have hk : (k.val : Int) < FISICA := by
    have := k.isLt
    omega
  have h₂ : Corta (s₁.ponerMarco k { s.memSecundaria.paginas i with memoria := 1 }) := h₁.1
  refine (h₂.cambiarEntrada pid pagina (fun e => { e with nroEnMemoria := k.val, memoria := 1 })
    fun e _ hpid => ⟨hk, hpid⟩).mono fun s₃ h₃ => ⟨h₃.1, ?_⟩
  intro j hj
  rw [h₃.2.2.1]
  calc
    s₁.memSecundaria.paginas j = (s.ponerSwap i { s.ram.paginas k with memoria := 2 }).memSecundaria.paginas j := by
      rw [h₁.2.2.1]
    _ = s.memSecundaria.paginas j := update_of_ne hj _ _

theorem Corta.inicializar (h : Corta s) (x : PagVirtual) :
    Ends (fun _ => True) (inicializarProcesoSiEsNecesario x.pid s) fun s' =>
      Corta s' ∧ (s'.procesos x.1).activo ≠ -1 ∧ s'.ram = s.ram ∧ s'.memSecundaria = s.memSecundaria := by
  simp only [PagVirtual.pid, inicializarProcesoSiEsNecesario, Int.add_sub_cancel, indexar_val, ok_bind]
  split
  · refine .ok ⟨?_, ?_, rfl, rfl⟩
    · intro y hy
      by_cases hyp : y.1 = x.1
      · simp only [Estado.tabla, Estado.ponerProceso, hyp, update_self]
        exact ⟨by decide, by omega⟩
      · simp only [Estado.tabla, Estado.ponerProceso, update_of_ne hyp] at hy ⊢
        exact h y hy
    · simp [Estado.ponerProceso]
  · next hact => exact .ok ⟨h, hact, rfl, rfl⟩

section

variable (h : Corta s) (hact : (s.procesos x.1).activo ≠ -1) {k : Fin FISICA} (hk : s.ram.fifoIndex = (k.val : Int))

include h hact hk

theorem Corta.reemplazoFifo (hram : ∀ k, (s.ram.paginas k).pid ≠ -1)
    (hi : primerHueco s.memSecundaria.paginas = some i) (hultimo : (s.memSecundaria.paginas ultimo).pid = -1) :
    Ends (fun _ => True) (Sim.reemplazoFifo x.pid x.pagina s) fun s' => Corta s' ∧ UltimoLibre s' := by
  have hk8 : (k.val : Int) < FISICA := by
    have := k.isLt
    omega
  simp only [Sim.reemplazoFifo, Estado.memSecundaria_imprimir, hi, Estado.ram_imprimir, hk]
  have h₀ : Corta (s.imprimir .sinHuecoFifo) := h
  refine (h₀.marcarCargada _ _ hk8).bind fun s₁ h₁ => ?_
  obtain ⟨hc₁, hr₁, hm₁, ha₁⟩ := h₁
  simp only [hr₁, Estado.ram_imprimir, hk, indexar_val, ok_bind]
  have hs : Corta (s₁.ponerSwap i { s.ram.paginas k with memoria := 2 }) := hc₁
  refine (hs.cambiarEntrada _ _ (fun e => { e with memoria := 2 }) fun e hn hpid => ⟨hn, hpid⟩).bind ?_
  intro s₂ h₂
  obtain ⟨hc₂, hr₂, hm₂, ha₂⟩ := h₂
  have hram₂ : s₂.ram = s.ram := hr₂.trans hr₁
  have hswap₂ : s₂.memSecundaria.paginas =
      update s.memSecundaria.paginas i { s.ram.paginas k with memoria := 2 } := by
    rw [hm₂]
    simp only [Estado.ponerSwap, hm₁, Estado.memSecundaria_imprimir]
  have hnueva : (s₂.tabla x).pid ≠ -1 := by
    apply (hc₂ x ?_).2
    rw [ha₂]
    exact (ha₁ x.1).trans_ne hact
  simp only [pure_eq_ok, ok_bind, Estado.ram_imprimir, hram₂, hk, indexar_val, Estado.entrada_virtual,
    Estado.tabla_imprimir]
  refine .ok ⟨hc₂, ?_⟩
  by_cases hiu : i = ultimo
  · refine .inr ⟨fun j => ?_, fun j => ?_⟩
    · change (update s₂.ram.paginas k (s₂.tabla x) j).pid ≠ -1
      by_cases hj : j = k
      · rw [hj, update_self]
        exact hnueva
      · rw [update_of_ne hj, hram₂]
        exact hram j
    · change (s₂.memSecundaria.paginas j).pid ≠ -1
      rw [hswap₂]
      by_cases hj : j = i
      · rw [hj, update_self]
        exact hram k
      · rw [update_of_ne hj]
        apply (primerHueco_eq_some hi).2 j
        rw [hiu] at hj ⊢
        exact Fin.lt_last_iff_ne_last.mpr hj
  · left
    change (s₂.memSecundaria.paginas ultimo).pid = -1
    rw [hswap₂, update_of_ne (Ne.symm hiu)]
    exact hultimo

theorem Corta.cargar (hi : primerHueco s.memSecundaria.paginas = some i)
    (hultimo : (s.memSecundaria.paginas ultimo).pid = -1) :
    Ends (fun _ => True) (Sim.cargar 'f' x.pid x.pagina s) fun s' => Corta s' ∧ UltimoLibre s' := by
  cases hj : primerHueco s.ram.paginas with
  | some j =>
    have hj8 : (j.val : Int) < FISICA := by
      have := j.isLt
      omega
    simp only [Sim.cargar, hj]
    refine (h.marcarCargada _ _ hj8).bind fun s₁ h₁ => ?_
    obtain ⟨hc₁, -, hm₁, -⟩ := h₁
    simp only [Estado.entrada_virtual, ok_bind]
    refine .ok ⟨hc₁, .inl ?_⟩
    change (s₁.memSecundaria.paginas ultimo).pid = -1
    rw [hm₁]
    exact hultimo
  | none =>
    simp only [Sim.cargar, hj, if_true, Char.reduceEq, if_false]
    exact (h.reemplazoFifo hact hk (primerHueco_eq_none.mp hj) hi hultimo).bind fun s' h' => .ok h'

theorem Corta.servir (hi : primerHueco s.memSecundaria.paginas = some i)
    (hultimo : (s.memSecundaria.paginas ultimo).pid = -1) :
    Ends (fun _ => True) (Sim.servir 'f' x.pid x.pagina s) fun s' => Corta s' ∧ UltimoLibre s' := by
  simp only [Sim.servir, gestionarProcesoEnMemoria, Char.reduceEq, if_false, if_true, Estado.entrada_virtual,
    ok_bind]
  by_cases hm1 : (s.tabla x).memoria = 1
  · simp only [if_pos hm1, pure_eq_ok, ok_bind]
    exact .ok ⟨h, .inl hultimo⟩
  by_cases hm2 : (s.tabla x).memoria = 2
  · simp only [if_neg hm1, if_pos hm2, Estado.ram_imprimir, hk, indexar_val, ok_bind]
    cases hj : indexar SWAP (s.tabla x).nroEnMemoria with
    | error e => exact .stop trivial
    | ok j =>
      have hj8 : j.val < FISICA := by
        have hcorta := (h x hact).1
        rw [indexar_eq_ok hj] at hcorta
        omega
      simp only [ok_bind]
      have h₀ : ∀ m, Corta (s.imprimir m) := fun _ => h
      rw [bind_assoc]
      refine ((h₀ _).intercambiar _ _ hj8 k).bind fun s₁ h₁ => .ok ⟨h₁.1, .inl ?_⟩
      change (s₁.memSecundaria.paginas ultimo).pid = -1
      rw [h₁.2 ultimo ?_]
      · exact hultimo
      · intro hju
        rw [← hju] at hj8
        exact absurd hj8 (by decide)
  · simp only [if_neg hm1, if_neg hm2, pure_eq_ok, ok_bind, if_true]
    exact h.cargar hact hk hi hultimo

end

/-- What a run in mode `f` keeps. -/
structure EnMarchaFifo (s : Estado) : Prop where
  marcha : EnMarcha 'f' s
  corta : Corta s
  ultimo : UltimoLibre s

theorem EnMarchaFifo.sigue (h : EnMarchaFifo s) (hrun : acceso 'f' s a = .ok s') : EnMarchaFifo s' := by
  obtain ⟨hadm, hdef, hmarcha'⟩ := h.marcha.sigue (.inl rfl) hrun
  obtain ⟨i, hi⟩ := Option.ne_none_iff_exists'.mp hadm.2
  have hultimo : (s.memSecundaria.paginas Sim.ultimo).pid = -1 :=
    h.ultimo.resolve_right fun hlleno => hlleno.2 i (primerHueco_eq_some hi).1
  obtain ⟨U, hpar, -⟩ := h.marcha
  obtain ⟨k, hk, -⟩ := hpar.fifoIndex
  obtain ⟨x, -, rfl⟩ := hdef.1.exists_par
  rw [acceso_admitida 'f' hadm] at hrun
  have hfin : Ends (fun _ => True)
      (inicializarProcesoSiEsNecesario x.pid s >>= servir 'f' x.pid x.pagina)
      fun s' => Corta s' ∧ UltimoLibre s' := by
    refine (h.corta.inicializar x).bind fun s₁ h₁ => ?_
    obtain ⟨hc₁, hact, hram, hswap⟩ := h₁
    apply hc₁.servir hact
    · rw [hram]
      exact hk
    · rw [hswap]
      exact hi
    · rw [hswap]
      exact hultimo
  exact ⟨hmarcha', (hfin.of_ok hrun).1, (hfin.of_ok hrun).2⟩

theorem Inicial.enMarchaFifo (h : Inicial s) (hsalida : s.salida = []) : EnMarchaFifo s :=
  ⟨h.enMarcha hsalida 'f', fun y hy => absurd (h.activo y.1) hy, .inl (h.memSecundaria _)⟩

/-! ### Both modes -/

/-- In mode `l` the tables say that nothing is in the secondary memory while RAM has a free frame. -/
theorem EnMarcha.lleno_lru (h : EnMarcha 'l' s) (hswap : ∀ i, (s.memSecundaria.paginas i).pid ≠ -1) :
    s.Lleno := by
  obtain ⟨U, -, hclara⟩ := h
  obtain ⟨c, hc, hcon⟩ := hclara rfl
  refine ⟨fun k => ?_, hswap⟩
  have hheld : c.held (.inr Sim.ultimo) ≠ none := by
    rw [Ne, hcon.held_eq_none_iff]
    exact fun hpid => hswap Sim.ultimo ((hc.marcos (.inr Sim.ultimo)).libre_iff.mpr hpid)
  obtain ⟨v, hv⟩ := Option.ne_none_iff_exists'.mp hheld
  have hk := hcon.ramLlena Sim.ultimo v hv k
  rw [Ne, hcon.held_eq_none_iff] at hk
  exact fun hpid => hk ((hc.marcos (.inl k)).libre_iff.mp hpid)

theorem lleno_of_correr (hmodo : modo = 'f' ∨ modo = 'l') {s₀ : Estado} (h₀ : Inicial s₀)
    (hsalida : s₀.salida = []) {accesos : List (Int × Int)} (hs : correr modo s₀ accesos = .ok s)
    (hswap : ∀ i, (s.memSecundaria.paginas i).pid ≠ -1) : s.Lleno := by
  cases hmodo with
  | inl hf =>
    subst hf
    have hfifo : EnMarchaFifo s :=
      foldlM_invariant (fun _ _ _ h hrun => h.sigue hrun) (h₀.enMarchaFifo hsalida) hs
    exact hfifo.ultimo.resolve_left (hswap _)
  | inr hl =>
    subst hl
    have hmarcha : EnMarcha 'l' s := foldlM_invariant
      (fun _ _ _ h hrun => (h.sigue (.inr rfl) hrun).2.2) (h₀.enMarcha hsalida 'l') hs
    exact hmarcha.lleno_lru hswap

theorem EnMarcha.llena_iff (hmodo : modo = 'f' ∨ modo = 'l') (h : EnMarcha modo s) (ha : EnRango a) :
    Sim.acceso modo s a = .error .memoriaSecundariaLlena ↔ ∀ i, (s.memSecundaria.paginas i).pid ≠ -1 := by
  obtain ⟨x, hx, rfl⟩ := ha.exists_par
  rw [← primerHueco_eq_none]
  constructor
  · intro hllena
    by_contra hne
    have hadm : Admitida s (par x) := ⟨no_rechazada hx, hne⟩
    by_cases hdef : Definida modo s (par x)
    · obtain ⟨s', hs', -⟩ := (h.acceso hmodo hadm).1 hdef
      rw [hs'] at hllena
      cases hllena
    · rw [(h.acceso hmodo hadm).2 hdef] at hllena
      cases hllena
  · exact acceso_llena modo hx

/-- In every state that a run of either mode reaches, the next access in range stops with the secondary
memory full exactly for a page in neither memory with both memories full, if the secondary memory has a
free frame or the page is in neither memory; and not otherwise. -/
theorem llena_iff_agotada_iff (modo : Char) (hmodo : modo = 'f' ∨ modo = 'l') (s₀ s : Estado)
    (h₀ : Inicial s₀) (hsalida : s₀.salida = []) (accesos : List (Int × Int))
    (hs : correr modo s₀ accesos = .ok s) (a : Int × Int) (ha : EnRango a) :
    (acceso modo s a = .error .memoriaSecundariaLlena ↔ Agotada s a) ↔
      (∃ i, (s.memSecundaria.paginas i).pid = -1) ∨ ∀ m, ¬s.Sostiene m a := by
  have hmarcha : EnMarcha modo s := foldlM_invariant
    (fun _ _ _ h hrun => (h.sigue hmodo hrun).2.2) (h₀.enMarcha hsalida modo) hs
  rw [hmarcha.llena_iff hmodo ha]
  constructor
  · intro hiff
    by_cases hswap : ∀ i, (s.memSecundaria.paginas i).pid ≠ -1
    · exact .inr (hiff.mp hswap).1
    · exact .inl (by simpa using hswap)
  intro hcond
  constructor
  · intro hswap
    obtain ⟨hram, -⟩ := lleno_of_correr hmodo h₀ hsalida hs hswap
    refine ⟨hcond.resolve_left ?_, hram, hswap⟩
    intro hlibre
    obtain ⟨i, hi⟩ := hlibre
    exact hswap i hi
  · exact fun hagotada => hagotada.2.2

def veinticuatro : List (Int × Int) :=
  (List.range 24).map fun n => (1 + (n / 16 : ℕ), (n % 16 : ℕ))

instance (s : Estado) (m : Marco) (a : Int × Int) : Decidable (s.Sostiene m a) := inferInstanceAs (Decidable (_ ∧ _))

/-- After 24 pages both memories are full, and an access to a new page stops. -/
theorem llena_iff_agotada_iff_nueva : ∃ s, correr 'f' arranque veinticuatro = .ok s ∧ Agotada s (2, 8) ∧
    acceso 'f' s (2, 8) = .error .memoriaSecundariaLlena := by
  have hends : ∃ s, correr 'f' arranque veinticuatro = .ok s ∧ (∀ k, ¬s.Sostiene (.inl k) (2, 8)) ∧
    (∀ i, ¬s.Sostiene (.inr i) (2, 8)) ∧
      (∀ k, (s.ram.paginas k).pid ≠ -1) ∧ ∀ i, (s.memSecundaria.paginas i).pid ≠ -1 := by decide +kernel
  obtain ⟨s, hs, hram, hswap, hllena⟩ := hends
  have hagotada : Agotada s (2, 8) := ⟨Sum.rec hram hswap, hllena⟩
  exact ⟨s, hs, hagotada, ((llena_iff_agotada_iff 'f' (.inl rfl) arranque s arranque_inicial rfl veinticuatro hs (2, 8)
    ⟨⟨by decide, by decide⟩, by decide, by decide⟩).mpr (.inr hagotada.1)).mpr hagotada⟩
/-- After 24 pages, an access to the page loaded last stops although the page is in RAM. -/
theorem llena_con_pagina_en_ram : ∃ s, correr 'f' arranque veinticuatro = .ok s ∧
    s.Sostiene (.inl 7) (2, 7) ∧ acceso 'f' s (2, 7) = .error .memoriaSecundariaLlena :=
  ⟨_, rfl, ⟨rfl, rfl⟩, rfl⟩

end Laboratorio.Sim
