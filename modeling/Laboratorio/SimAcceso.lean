import Laboratorio.RunPrefix
import Laboratorio.SimConcuerda

/-! What one access does to the frames, in either mode, on a state whose tables agree. The two
replacement policies differ only in the RAM frame they give up. -/

namespace Laboratorio.Sim

open Function

variable {s : Estado} {T : PagVirtual → Prop} {x v : PagVirtual}

/-- The frames before and after an access to `x`, where `k` is the frame the policy gives up if it
has to. `quieta` and `avanza` are what the policy's own bookkeeping satisfies when no page leaves
RAM and when one does. -/
inductive Efecto (s s' : Estado) (x : PagVirtual) (k : Fin FISICA) (quieta avanza : Prop) : Prop where
  | acierto (j : Fin FISICA) (hx : s.loc x = some (.inl j)) (hheld : s'.held = s.held)
      (hq : quieta)
  | carga (j : Fin FISICA) (hx : s.loc x = none) (hj : primerHueco s.ram.paginas = some j)
      (hheld : s'.held = update s.held (.inl j) (some x)) (hq : quieta)
  | cede (v : PagVirtual) (i : Fin SWAP) (hx : ∀ j, s.loc x ≠ some (.inl j))
      (hllena : ∀ j, s.held (.inl j) ≠ none) (hv : s.held (.inl k) = some v)
      (hheld : s'.held =
        update (update s.held (.inr i) (some v)) (.inl k) (some x))
      (ha : avanza)

/-! ### The parts of the loop body -/

theorem marcarCargada_spec (s : Estado) (x : PagVirtual) (marco : Int) :
    marcarCargada x.pid x.pagina marco s =
      .ok (s.ponerEntrada x.1 x.2 { s.tabla x with
        nroEnMemoria := marco, memoria := 1, lruIndice := s.lruIndex }).avanzarLru := by
  simp only [marcarCargada, Estado.cambiarEntrada_virtual]
  rfl

theorem intercambiar_spec (i : Fin SWAP) (k : Fin FISICA) (hv : (s.ram.paginas k).virtual = some v) (hne : x ≠ v) :
    ∃ s', intercambiar x.pid x.pagina i k s = .ok s' ∧
      Queda s s' (update (update s.tabla v { s.tabla v with nroEnMemoria := i.val, memoria := 2 })
          x { s.tabla x with nroEnMemoria := k.val, memoria := 1 })
        (update (update s.marco (.inr i) { s.ram.paginas k with memoria := 2 })
          (.inl k) { s.memSecundaria.paginas i with memoria := 1 }) ∧
      s'.ram.fifoIndex = s.ram.fifoIndex ∧ s'.lruIndex = s.lruIndex := by
  obtain ⟨hpid, hind⟩ := virtual_eq_some.mp hv
  simp only [intercambiar, hpid, hind, Estado.cambiarEntrada_virtual]
  refine ⟨_, rfl, ⟨?_, ?_, ?_⟩, rfl, rfl⟩
  · simp [update_of_ne hne]
  · simp
  · simp

theorem inicializar_spec (h : Concuerda s T) (x : PagVirtual) :
    ∃ s', inicializarProcesoSiEsNecesario x.pid s = .ok s' ∧ Concuerda s' T ∧
      (s'.procesos x.1).activo ≠ -1 ∧ s'.loc = s.loc ∧ s'.ram = s.ram ∧
      s'.memSecundaria = s.memSecundaria ∧ s'.lruIndex = s.lruIndex := by
  simp only [inicializarProcesoSiEsNecesario, Int.add_sub_cancel, indexar_val]
  by_cases hact : (s.procesos x.1).activo = -1
  · let nuevo : Proceso :=
      { pid := (x.1.val : Int) + 1
        activo := 1
        paginas := fun i =>
          { (s.procesos x.1).paginas i with
            pid := (x.1.val : Int) + 1, nroEnMemoria := -1, indice := i.val, lruIndice := -1 } }
    refine ⟨s.ponerProceso x.1 nuevo, ?_, ?_⟩
    · show (if (s.procesos x.1).activo = -1 then _ else _) = _
      rw [if_pos hact]
      rfl
    have hother : ∀ y : PagVirtual, y.1 ≠ x.1 →
        (s.ponerProceso x.1 nuevo).tabla y = s.tabla y := by
      intro y hy
      simp only [Estado.tabla, Estado.ponerProceso, update_of_ne hy]
    have hown : ∀ y : PagVirtual, y.1 = x.1 →
        (s.ponerProceso x.1 nuevo).tabla y = nuevo.paginas y.2 := by
      intro y hy
      simp only [Estado.tabla, Estado.ponerProceso, hy, update_self]
    have hout : ∀ y : PagVirtual, y.1 = x.1 → ¬T y := by
      intro y hy hT
      exact h.activa y hT (by rw [hy]; exact hact)
    have hfuera : ∀ y : PagVirtual, ¬T y → ((s.ponerProceso x.1 nuevo).tabla y).memoria ≠ 1 ∧
        ((s.ponerProceso x.1 nuevo).tabla y).memoria ≠ 2 := by
      intro y hy
      by_cases hyx : y.1 = x.1
      · rw [hown y hyx]
        have := h.fuera y hy
        simpa only [Estado.tabla, hyx] using this
      · rw [hother y hyx]
        exact h.fuera y hy
    have hloc : (s.ponerProceso x.1 nuevo).loc = s.loc := by
      funext y
      by_cases hyx : y.1 = x.1
      · have h1 := hfuera y (hout y hyx)
        have h2 := h.fuera y (hout y hyx)
        simp only [Estado.loc, comp_apply, ubicacion_none h1.1 h1.2,
          ubicacion_none h2.1 h2.2]
      · simp only [Estado.loc, comp_apply, hother y hyx]
    refine ⟨⟨?_, ?_, hfuera, ?_, ?_, h.libre, h.ramLlena⟩, ?_, hloc, rfl, rfl, rfl⟩
    · rw [hloc]
      exact h.agree
    · rw [hloc]
      exact h.tocada
    · intro y hy
      have hyx : y.1 ≠ x.1 := fun he => hout y he hy
      simp only [Estado.ponerProceso, update_of_ne hyx]
      exact h.activa y hy
    · intro y hy
      by_cases hyx : y.1 = x.1
      · rw [hown y hyx, virtual_eq_some]
        exact ⟨by rw [hyx], rfl⟩
      · rw [hother y hyx]
        simp only [Estado.ponerProceso, update_of_ne hyx] at hy
        exact h.propia y hy
    · simp [Estado.ponerProceso, nuevo]
  · refine ⟨s, ?_, h, hact, rfl, rfl, rfl, rfl⟩
    show (if (s.procesos x.1).activo = -1 then _ else _) = _
    rw [if_neg hact]
    rfl

/-- An entry marked as loaded into the RAM frame `marco` at the current `lruIndex`. -/
def Estado.cargada (s : Estado) (x : PagVirtual) (marco : Fin FISICA) : Pagina :=
  { s.tabla x with nroEnMemoria := marco.val, memoria := 1, lruIndice := s.lruIndex }

theorem cargar_libre (modo : Char) (x : PagVirtual) {j : Fin FISICA} (hj : primerHueco s.ram.paginas = some j) :
    ∃ s', cargar modo x.pid x.pagina s = .ok s' ∧
      Queda s s' (update s.tabla x (s.cargada x j)) (update s.marco (.inl j) (s.cargada x j)) ∧
      s'.ram.fifoIndex = s.ram.fifoIndex ∧ s'.lruIndex = incInt s.lruIndex := by
  simp only [cargar, hj, marcarCargada_spec, ok_bind, Estado.entrada_virtual, pure_eq_ok]
  refine ⟨_, rfl, ⟨?_, ?_, ?_⟩, rfl, rfl⟩
  · simp [Estado.cargada]
  · simp [Estado.cargada]
  · simp

/-- `(fifoIndex + 1) % FISICA` for a frame number. -/
def siguiente (k : Fin FISICA) : Fin FISICA := ⟨(k.val + 1) % FISICA, Nat.mod_lt _ (by decide)⟩

theorem siguiente_val (k : Fin FISICA) :
    ((k.val : Int) + 1).tmod FISICA = ((siguiente k).val : Int) := by
  rw [Int.tmod_eq_emod_of_nonneg (by omega)]
  simp only [siguiente, FISICA]
  omega

variable {k : Fin FISICA} {i : Fin SWAP}

theorem reemplazoFifo_spec (hi : primerHueco s.memSecundaria.paginas = some i) (hk : s.ram.fifoIndex = (k.val : Int))
    (hv : (s.ram.paginas k).virtual = some v) (hne : x ≠ v) :
    ∃ s', reemplazoFifo x.pid x.pagina s = .ok s' ∧
      Queda s s' (update (update s.tabla v { s.tabla v with memoria := 2 }) x (s.cargada x k))
        (update (update s.marco (.inr i) { s.ram.paginas k with memoria := 2 }) (.inl k) (s.cargada x k)) ∧
      s'.ram.fifoIndex = ((siguiente k).val : Int) := by
  obtain ⟨hpid, hind⟩ := virtual_eq_some.mp hv
  simp only [reemplazoFifo, Estado.memSecundaria_imprimir, hi, marcarCargada_spec, ok_bind,
    pure_eq_ok, Estado.ram_avanzarLru, Estado.ram_ponerEntrada, Estado.ram_ponerSwap,
    Estado.ram_imprimir, hk, indexar_val, hpid, hind, Estado.cambiarEntrada_virtual,
    Estado.entrada_virtual]
  refine ⟨_, rfl, ⟨?_, ?_, ?_⟩, ?_⟩
  · simp [Estado.cargada, update_of_ne (Ne.symm hne), update_comm hne]
  · simp [Estado.cargada, update_of_ne hne, hk]
  · simp
  · show (s.ram.fifoIndex + 1).tmod FISICA = _
    rw [hk, siguiente_val]

theorem reemplazoLru_spec (hi : primerHueco s.memSecundaria.paginas = some i) (hk : (menorLru s.ram.paginas).1 = k)
    (hv : (s.ram.paginas k).virtual = some v) (hne : x ≠ v) :
    ∃ s', reemplazoLru x.pid x.pagina s = .ok s' ∧
      Queda s s' (update (update s.tabla v { s.tabla v with memoria := 2, nroEnMemoria := i.val }) x (s.cargada x k))
        (update (update s.marco (.inr i) { s.ram.paginas k with memoria := 2 }) (.inl k) (s.cargada x k)) ∧
      s'.lruIndex = incInt s.lruIndex := by
  obtain ⟨hpid, hind⟩ := virtual_eq_some.mp hv
  simp only [reemplazoLru, Estado.ram_imprimir, hk, Estado.memSecundaria_imprimir, hi,
    marcarCargada_spec, ok_bind, pure_eq_ok, hpid, hind, Estado.cambiarEntrada_virtual,
    Estado.entrada_virtual]
  refine ⟨_, rfl, ⟨?_, ?_, ?_⟩, rfl⟩
  · simp [Estado.cargada, update_of_ne (Ne.symm hne), update_comm hne]
  · simp [Estado.cargada, update_of_ne hne]
  · simp

variable {s₁ : Estado}

theorem held_of_memorias (hram : s₁.ram = s.ram)
    (hswap : s₁.memSecundaria = s.memSecundaria) : s₁.held = s.held := by
  funext m
  cases m <;> simp [Estado.held, Estado.marco, hram, hswap]

variable {s' : Estado}

theorem Efecto.of_vistas {quieta avanza : Prop}
    (hloc : s₁.loc = s.loc) (hheld : s₁.held = s.held) (hram : s₁.ram = s.ram)
    (he : Efecto s₁ s' x k quieta avanza) : Efecto s s' x k quieta avanza := by
  cases he with
  | acierto j hx hh hq => exact .acierto j (hloc ▸ hx) (hheld ▸ hh) hq
  | carga j hx hj hh hq => exact .carga j (hloc ▸ hx) (hram ▸ hj) (hheld ▸ hh) hq
  | cede v i hx hllena hv hh ha =>
    rw [hheld] at hllena hv hh
    exact .cede v i (hloc ▸ hx) hllena hv hh ha

theorem no_rechazada (hx : x.1.val < 99) :
    ¬((x.1.val : Int) + 1 > (MAX_PROCESOS : Int) - 1 ∨ (x.2.val : Int) > (VIRTUAL : Int) - 1) := by
  have := x.2.isLt
  simp only [MAX_PROCESOS, VIRTUAL] at this ⊢
  omega

theorem acceso_eq (modo : Char) (hx : x.1.val < 99)
    (hi : primerHueco s.memSecundaria.paginas = some i)
    (hinic : inicializarProcesoSiEsNecesario x.pid s = .ok s₁) :
    acceso modo s (x.pid, x.pagina) = servir modo x.pid x.pagina s₁ := by
  simp only [acceso, if_neg (no_rechazada hx), verificarMemoriaSecundaria, hi, hinic, ok_bind]

theorem cargada_ubicacion (s : Estado) (x : PagVirtual) (k : Fin FISICA) :
    (s.cargada x k).ubicacion = some (.inl k) := ubicacion_ram rfl rfl

theorem cargada_virtual (h : Concuerda s T) (hact : (s.procesos x.1).activo ≠ -1) (k : Fin FISICA) :
    (s.cargada x k).virtual = some x := h.propia x hact

theorem Concuerda.imprimir (h : Concuerda s T) (m : Mensaje) : Concuerda (s.imprimir m) T :=
  ⟨h.agree, h.tocada, h.fuera, h.activa, h.propia, h.libre, h.ramLlena⟩

theorem tocadas_mas (hx : T x) : (fun y => T y ∨ y = x) = T := by
  ext y
  simp only [or_iff_left_iff_imp]
  intro hy
  rw [hy]
  exact hx

theorem Concuerda.mas (h : Concuerda s T) (hx : T x) : Concuerda s (fun y => T y ∨ y = x) := by
  rw [tocadas_mas hx]
  exact h

/-! ### One access in mode `f` -/

/-- An access in mode `f`: frame `fifoIndex` is given up. The tables still agree afterwards when an evicted page that
makes room for a new one goes to the swap frame of that same number. -/
structure SirveFifo (s s' : Estado) (T : PagVirtual → Prop) (x : PagVirtual) (k : Fin FISICA) (i : Fin SWAP) :
    Prop where
  efecto : Efecto s s' x k (s'.ram.fifoIndex = (k.val : Int)) (s'.ram.fifoIndex = ((siguiente k).val : Int))
  echada : s.loc x = none → primerHueco s.ram.paginas = none →
    ∃ v, T v ∧ s'.held (.inr i) = some v ∧ (s'.tabla v).nroEnMemoria = (k.val : Int)
  concuerda : (s.loc x = none → primerHueco s.ram.paginas = none → i.val = k.val) → Concuerda s' (fun y => T y ∨ y = x)

theorem servir_fifo (h : Concuerda s T) (hact : (s.procesos x.1).activo ≠ -1)
    (hk : s.ram.fifoIndex = (k.val : Int)) (hi : primerHueco s.memSecundaria.paginas = some i) :
    ∃ s', servir 'f' x.pid x.pagina s = .ok s' ∧ SirveFifo s s' T x k i := by
  simp only [servir, gestionarProcesoEnMemoria, Char.reduceEq, if_false, if_true,
    Estado.entrada_virtual, ok_bind]
  cases hxl : s.loc x with
  | none =>
    have hTx : ¬T x := (h.loc_eq_none_iff x).mp hxl
    obtain ⟨hm1, hm2⟩ := h.fuera x hTx
    simp only [if_neg hm1, if_neg hm2, pure_eq_ok, ok_bind, if_true]
    cases hj : primerHueco s.ram.paginas with
    | some j =>
      obtain ⟨s', hrun, hq, hf, -⟩ := cargar_libre 'f' x hj
      have hheld := held_eq_of_marco hq.marco
      rw [cargada_virtual h hact] at hheld
      refine ⟨s', hrun, .carga j hxl hj hheld (hf.trans hk), by simp [hj], fun _ => ?_⟩
      exact h.carga hTx hact (h.hueco_ram hj) hq (cargada_ubicacion s x j)
        (cargada_virtual h hact j) (cargada_virtual h hact j)
    | none =>
      have hram : ∀ j, s.loc x ≠ some (.inl j) := by simp [hxl]
      have hllena := h.ram_llena hj
      obtain ⟨v, hv, hvl, hne⟩ := h.victima hram hllena k
      obtain ⟨hvm, hvn⟩ := ubicacion_eq_ram.mp hvl
      obtain ⟨s', hrun, hq, hf⟩ := reemplazoFifo_spec hi hk hv hne
      have hheld := held_eq_of_marco₂ hq.marco hv (cargada_virtual h hact k)
      simp only [cargar, hj, if_true, hrun, ok_bind, Char.reduceEq, if_false, pure_eq_ok]
      refine ⟨s', rfl, .cede v i hram hllena hv hheld hf, ?_, ?_⟩
      · intro _ _
        refine ⟨v, (h.tocada v).mpr ⟨_, hvl⟩, by rw [hheld]; simp, ?_⟩
        rw [hq.tabla, update_of_ne hne.symm, update_self]
        exact hvn
      · intro hik
        refine h.cede (Or.inr rfl) (fun _ => or_iff_left) hact hvl hllena hq ?_ (cargada_ubicacion s x k)
          (ubicacion_swap rfl ?_) (cargada_virtual h hact k) rfl (cargada_virtual h hact k) hv
        · rw [update_comm hne.symm]
          exact h.agree.replace hxl hvl (h.hueco_swap hi)
        · rw [hik hxl hj]
          exact hvn
  | some m =>
    have hTx : T x := (h.tocada x).mpr ⟨m, hxl⟩
    cases m with
    | inl j =>
      have hm1 := (ubicacion_eq_ram.mp hxl).1
      simp only [if_pos hm1, pure_eq_ok, ok_bind]
      exact ⟨_, rfl, .acierto j hxl rfl hk, by simp [hxl], fun _ => (h.imprimir _).mas hTx⟩
    | inr j =>
      obtain ⟨hm2, hn⟩ := ubicacion_eq_swap.mp hxl
      have hm1 : (s.tabla x).memoria ≠ 1 := by omega
      have hram : ∀ j, s.loc x ≠ some (.inl j) := by simp [hxl]
      have hxh := (h.agree x (.inr j)).mp hxl
      have hllena := h.ramLlena j x hxh
      obtain ⟨v, hv, hvl, hne⟩ := h.victima hram hllena k
      simp only [if_neg hm1, if_pos hm2, hn, indexar_val, ok_bind, Estado.ram_imprimir, hk]
      let s₁ := s.imprimir (.moviendoARam x.pid x.pagina j.val k.val)
      obtain ⟨s', hrun, hq, hf, -⟩ := intercambiar_spec (s := s₁) j k hv hne
      have hheld := held_eq_of_marco₂ hq.marco hv hxh
      simp only [s₁, hrun, ok_bind, pure_eq_ok]
      refine ⟨s'.avanzarFifo, rfl, .cede v j hram hllena hv ?_ ?_, by simp [hxl], fun _ => ?_⟩
      · rw [Estado.held, Estado.marco_avanzarFifo]
        exact hheld
      · show (s'.ram.fifoIndex + 1).tmod FISICA = _
        rw [hf, ← siguiente_val, ← hk]
        rfl
      · have h' : Concuerda s'.avanzarFifo T := h.cede hTx (fun _ _ => Iff.rfl) hact hvl hllena
          ⟨hq.tabla, s'.marco_avanzarFifo.trans hq.marco, hq.activo⟩ (h.agree.exchange hne hxl hvl)
          (ubicacion_ram rfl rfl)
          (ubicacion_swap rfl rfl) (h.propia x hact) rfl hxh hv
        exact h'.mas hTx

theorem acceso_fifo (h : Concuerda s T) (hx : x.1.val < 99)
    (hk : s.ram.fifoIndex = (k.val : Int)) (hi : primerHueco s.memSecundaria.paginas = some i) :
    ∃ s', acceso 'f' s (x.pid, x.pagina) = .ok s' ∧ SirveFifo s s' T x k i := by
  obtain ⟨s₁, hinic, h₁, hact, hloc, hram, hswap, -⟩ := inicializar_spec h x
  have hheld := held_of_memorias hram hswap
  obtain ⟨s', hrun, hef, hmal, hbien⟩ := servir_fifo h₁ hact (by rw [hram]; exact hk)
    (by rw [hswap]; exact hi)
  rw [hloc, hram] at hmal hbien
  exact ⟨s', (acceso_eq 'f' hx hi hinic).trans hrun, hef.of_vistas hloc hheld hram, hmal, hbien⟩

/-! ### One access in mode `l` -/

/-- What mode `l` does to the RAM frames: the frame of the accessed page gets the current
`lruIndex`, no other RAM frame changes, and `lruIndex` advances. -/
def Sella (s s' : Estado) (x : PagVirtual) : Prop :=
  (∃ j, s'.held (.inl j) = some x ∧ (s'.ram.paginas j).lruIndice = s.lruIndex ∧
    ∀ l, l ≠ j → s'.ram.paginas l = s.ram.paginas l) ∧ s'.lruIndex = incInt s.lruIndex

theorem ram_of_marco_self {f : Marco → Pagina} {mx : Pagina} (hm : s'.marco = update f (.inl k) mx) :
    s'.ram.paginas k = mx := by
  have hm := congrFun hm (.inl k)
  rw [update_self] at hm
  exact hm

theorem Sella.of_marco {f : Marco → Pagina} {mx : Pagina} (hm : s'.marco = update f (.inl k) mx)
    (hf : ∀ l, l ≠ k → f (.inl l) = s.marco (.inl l)) (hx : mx.virtual = some x) (hmx : mx.lruIndice = s.lruIndex)
    (hl : s'.lruIndex = incInt s.lruIndex) : Sella s s' x := by
  have hself := ram_of_marco_self hm
  refine ⟨⟨k, (congrArg Pagina.virtual hself).trans hx, (congrArg Pagina.lruIndice hself).trans hmx, fun l hlk => ?_⟩,
    hl⟩
  have hm := congrFun hm (.inl l)
  rw [update_of_ne (Sum.inl_injective.ne hlk)] at hm
  exact hm.trans (hf l hlk)

theorem gestionar_lru_ram {j : Fin FISICA} (hm : (s.tabla x).memoria = 1)
    (hn : (s.tabla x).nroEnMemoria = (j.val : Int)) :
      ∃ s', gestionarProcesoEnMemoria 'l' x.pid x.pagina s = .ok (0, s') ∧
        Queda s s' (update s.tabla x { s.tabla x with lruIndice := s.lruIndex })
        (update s.marco (.inl j) { s.ram.paginas j with lruIndice := s.lruIndex }) ∧
      s'.lruIndex = incInt s.lruIndex := by
  simp only [gestionarProcesoEnMemoria, if_true, Estado.entrada_virtual, if_pos hm,
    Estado.cambiarEntrada_virtual, hn, indexar_val, pure_eq_ok, ok_bind]
  refine ⟨_, rfl, ⟨?_, ?_, ?_⟩, rfl⟩
  · simp [hn]
  · simp
  · simp

theorem gestionar_lru_swap (hm : (s.tabla x).memoria = 2)
    (hn : (s.tabla x).nroEnMemoria = (i.val : Int)) (hk : (menorLru s.ram.paginas).1 = k)
    (hv : (s.ram.paginas k).virtual = some v) (hne : x ≠ v) :
    ∃ s', gestionarProcesoEnMemoria 'l' x.pid x.pagina s = .ok (0, s') ∧
      Queda s s' (update (update s.tabla v { s.tabla v with nroEnMemoria := i.val, memoria := 2 }) x (s.cargada x k))
        (update (update s.marco (.inr i) { s.ram.paginas k with memoria := 2 })
          (.inl k) { s.memSecundaria.paginas i with memoria := 1, lruIndice := s.lruIndex }) ∧
      s'.lruIndex = incInt s.lruIndex := by
  have hm1 : (s.tabla x).memoria ≠ 1 := by omega
  simp only [gestionarProcesoEnMemoria, if_true, Estado.entrada_virtual, if_neg hm1, if_pos hm, hn,
    indexar_val, ok_bind, Estado.ram_imprimir, hk]
  generalize hs : ((((s.imprimir _).imprimir _).imprimir _).imprimir _) = s₁
  have htabla : s₁.tabla = s.tabla := by rw [← hs]; rfl
  have hmarco : s₁.marco = s.marco := by rw [← hs]; rfl
  have hram : s₁.ram = s.ram := by rw [← hs]; rfl
  have hswap : s₁.memSecundaria = s.memSecundaria := by rw [← hs]; rfl
  have hproc : s₁.procesos = s.procesos := by rw [← hs]; rfl
  have hlru : s₁.lruIndex = s.lruIndex := by rw [← hs]; rfl
  obtain ⟨s', hrun, ⟨ht, hmar, ha⟩, -, hl⟩ := intercambiar_spec i k
    (by rw [hram]; exact hv) hne
  rw [htabla] at ht
  rw [hmarco, hram, hswap] at hmar
  simp only [hrun, ok_bind, Estado.cambiarEntrada_virtual, pure_eq_ok]
  refine ⟨_, rfl, ⟨?_, ?_, ?_⟩, ?_⟩
  · simp [ht, hl, hlru, Estado.cargada]
  · simp [hmar, hl, hlru, ram_of_marco_self hmar]
  · intro p
    simp [ha, hproc]
  · show incInt s'.lruIndex = _
    rw [hl, hlru]

/-- In mode `l` the frame of smallest `lruIndice` is given up and the tables agree afterwards. -/
theorem servir_lru (h : Concuerda s T) (hact : (s.procesos x.1).activo ≠ -1)
    (hk : (menorLru s.ram.paginas).1 = k) (hi : primerHueco s.memSecundaria.paginas = some i) :
    ∃ s', servir 'l' x.pid x.pagina s = .ok s' ∧
      Efecto s s' x k True True ∧ Sella s s' x ∧ Concuerda s' (fun y => T y ∨ y = x) := by
  cases hxl : s.loc x with
  | none =>
    have hTx : ¬T x := (h.loc_eq_none_iff x).mp hxl
    obtain ⟨hm1, hm2⟩ := h.fuera x hTx
    simp only [servir, gestionarProcesoEnMemoria, Char.reduceEq, if_false, if_true,
      Estado.entrada_virtual, if_neg hm1, if_neg hm2, pure_eq_ok, ok_bind]
    cases hj : primerHueco s.ram.paginas with
    | some j =>
      obtain ⟨s', hrun, hq, -, hl⟩ := cargar_libre 'l' x hj
      have hheld := held_eq_of_marco hq.marco
      rw [cargada_virtual h hact] at hheld
      refine ⟨s', hrun, .carga j hxl hj hheld trivial,
        .of_marco hq.marco (fun _ _ => rfl) (cargada_virtual h hact j) rfl hl, ?_⟩
      exact h.carga hTx hact (h.hueco_ram hj) hq (cargada_ubicacion s x j)
        (cargada_virtual h hact j) (cargada_virtual h hact j)
    | none =>
      have hram : ∀ j, s.loc x ≠ some (.inl j) := by simp [hxl]
      have hllena := h.ram_llena hj
      obtain ⟨v, hv, hvl, hne⟩ := h.victima hram hllena k
      obtain ⟨s', hrun, hq, hl⟩ := reemplazoLru_spec hi hk hv hne
      have hheld := held_eq_of_marco₂ hq.marco hv (cargada_virtual h hact k)
      simp only [cargar, hj, if_true, hrun, ok_bind, Char.reduceEq, if_false, pure_eq_ok]
      refine ⟨s', rfl, .cede v i hram hllena hv hheld trivial,
        .of_marco hq.marco (fun _ _ => update_of_ne (by simp) _ _) (cargada_virtual h hact k) rfl hl, ?_⟩
      refine h.cede (Or.inr rfl) (fun _ => or_iff_left) hact hvl hllena hq ?_ (cargada_ubicacion s x k)
        (ubicacion_swap rfl rfl) (cargada_virtual h hact k) rfl (cargada_virtual h hact k) hv
      rw [update_comm hne.symm]
      exact h.agree.replace hxl hvl (h.hueco_swap hi)
  | some m =>
    have hTx : T x := (h.tocada x).mpr ⟨m, hxl⟩
    cases m with
    | inl j =>
      obtain ⟨hm1, hn⟩ := ubicacion_eq_ram.mp hxl
      obtain ⟨s', hrun, hq, hl⟩ := gestionar_lru_ram hm1 hn
      have hheld : s'.held = s.held := by
        rw [held_eq_of_marco hq.marco]
        exact update_eq_self (Sum.inl j) s.held
      have h' : Concuerda s' T := h.acierto hxl hq rfl rfl rfl
      refine ⟨s', ?_, .acierto j hxl hheld trivial,
        .of_marco hq.marco (fun _ _ => rfl) ((h.agree x (.inl j)).mp hxl) rfl hl, h'.mas hTx⟩
      rw [servir, hrun]
      rfl
    | inr j =>
      obtain ⟨hm2, hn⟩ := ubicacion_eq_swap.mp hxl
      have hram : ∀ j, s.loc x ≠ some (.inl j) := by simp [hxl]
      have hxh := (h.agree x (.inr j)).mp hxl
      have hllena := h.ramLlena j x hxh
      obtain ⟨v, hv, hvl, hne⟩ := h.victima hram hllena k
      obtain ⟨s', hrun, hq, hl⟩ := gestionar_lru_swap hm2 hn hk hv hne
      have hheld := held_eq_of_marco₂ hq.marco hv hxh
      have h' : Concuerda s' T := h.cede hTx (fun _ _ => Iff.rfl) hact hvl hllena hq (h.agree.exchange hne hxl hvl)
        (cargada_ubicacion s x k) (ubicacion_swap rfl rfl) (h.propia x hact) rfl hxh hv
      refine ⟨s', ?_, .cede v j hram hllena hv hheld trivial,
        .of_marco hq.marco (fun _ _ => update_of_ne (by simp) _ _) hxh rfl hl, h'.mas hTx⟩
      rw [servir, hrun]
      rfl

theorem acceso_lru (h : Concuerda s T) (hx : x.1.val < 99) (hi : primerHueco s.memSecundaria.paginas = some i) :
    ∃ s', acceso 'l' s (x.pid, x.pagina) = .ok s' ∧
      Efecto s s' x (menorLru s.ram.paginas).1 True True ∧ Sella s s' x ∧ Concuerda s' (fun y => T y ∨ y = x) := by
  obtain ⟨s₁, hinic, h₁, hact, hloc, hram, hswap, hlru⟩ := inicializar_spec h x
  have hheld := held_of_memorias hram hswap
  obtain ⟨s', hrun, hef, hsella, hbien⟩ := servir_lru h₁ hact rfl (by rw [hswap]; exact hi)
  rw [Sella, hram, hlru] at hsella
  rw [hram] at hef
  exact ⟨s', (acceso_eq 'l' hx hi hinic).trans hrun, hef.of_vistas hloc hheld hram, hsella, hbien⟩

end Laboratorio.Sim
