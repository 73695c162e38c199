import Laboratorio.SimHistoria

/-! Mode `f`. The RAM frames are a queue that starts at `fifoIndex`: the pages were loaded in that
order. The page tables follow the frames exactly as long as every page evicted by a new one goes to
the swap frame that has the number of the RAM frame it left, because `main` does not rewrite the
`nroEnMemoria` of that page (the swap-in path and mode `l` do). -/

namespace Laboratorio.Sim

open Function

/-- The place of frame `j` in the queue that starts at frame `k`. -/
def turno (k j : Fin FISICA) : Nat := (j.val + FISICA - k.val) % FISICA

/-- After `t` accesses the frame `k` is next to be given up, `carga j` is the access that loaded the
page of frame `j`, the loads are in queue order, and RAM is filled from frame 0 up. -/
structure ColaFifo (h : Nat → Option Estado) (t : Nat) (s : Estado) (k : Fin FISICA)
    (carga : Fin FISICA → Nat) : Prop where
  fifo : s.ram.fifoIndex = (k.val : Int)
  cargada : ∀ j y, s.held (.inl j) = some y → CargadaEn h (carga j) t (par y)
  orden : ∀ j l, s.held (.inl j) ≠ none → s.held (.inl l) ≠ none → turno k j < turno k l →
    carga j < carga l
  libre : ∀ j, s.held (.inl j) = none → k.val = 0 ∧ ∀ l, j ≤ l → s.held (.inl l) = none

variable {h : Nat → Option Estado} {t : Nat} {s s' : Estado} {x : PagVirtual} {k : Fin FISICA}
  {carga : Fin FISICA → Nat} {T : PagVirtual → Prop}

theorem turno_siguiente {k j l : Fin FISICA} (hl : l ≠ k)
    (h : turno (siguiente k) j < turno (siguiente k) l) : turno k j < turno k l := by
  simp only [turno, siguiente, FISICA] at *
  omega

theorem turno_ultimo (k l : Fin FISICA) : turno (siguiente k) l ≤ turno (siguiente k) k := by
  simp only [turno, siguiente, FISICA] at *
  omega

theorem turno_primero {k l : Fin FISICA} (hl : l ≠ k) : turno k k < turno k l := by
  simp only [turno, FISICA] at *
  omega

theorem ColaFifo.paso (hc : Concuerda s T) (hq : ColaFifo h t s k carga) (hs : h t = some s) (hs' : h (t + 1) = some s')
    (he : Efecto s s' x k (s'.ram.fifoIndex = (k.val : Int)) (s'.ram.fifoIndex = ((siguiente k).val : Int))) :
    ∃ k' carga', ColaFifo h (t + 1) s' k' carga' := by
  have hsigue : ∀ {j y}, s.held (.inl j) = some y → s'.held (.inl j) = some y →
      CargadaEn h (carga j) (t + 1) (par y) := by
    intro j y hj hj'
    exact (hq.cargada j y hj).sigue ((residente_par hs').mpr ⟨j, hj'⟩)
  have hpasado : ∀ {l}, s.held (.inl l) ≠ none → carga l < t := by
    intro l hl
    obtain ⟨y, hy⟩ := Option.ne_none_iff_exists'.mp hl
    exact (hq.cargada l y hy).1
  have hnueva : (∀ j, s.loc x ≠ some (.inl j)) → (∃ j, s'.held (.inl j) = some x) →
      CargadaEn h t (t + 1) (par x) := by
    intro hx hx'
    refine .nueva ?_ ((residente_par hs').mpr hx')
    rw [residente_par hs]
    rintro ⟨j, hj⟩
    exact hx j ((hc.agree x (.inl j)).mpr hj)
  cases he with
  | acierto j hx hheld hf =>
    refine ⟨k, carga, hf, ?_, ?_, ?_⟩
    · intro l y hl
      exact hsigue (hheld ▸ hl) hl
    · rw [hheld]
      exact hq.orden
    · rw [hheld]
      exact hq.libre
  | carga j hx hj hheld hf =>
    have hfree := hc.hueco_ram hj
    obtain ⟨hk0, harriba⟩ := hq.libre j hfree
    have hself : s'.held (.inl j) = some x := by rw [hheld, update_self]
    have hother : ∀ l, l ≠ j → s'.held (.inl l) = s.held (.inl l) := by
      intro l hl
      rw [hheld, update_of_ne (Sum.inl_injective.ne hl)]
    have habajo : ∀ l, s.held (.inl l) ≠ none → l < j := by
      intro l hl
      by_contra hge
      exact hl (harriba l (not_lt.mp hge))
    refine ⟨k, update carga j t, hf, ?_, ?_, ?_⟩
    · intro l y hl
      by_cases hlj : l = j
      · subst hlj
        rw [hself] at hl
        cases hl
        rw [update_self]
        exact hnueva (by simp [hx]) ⟨l, hself⟩
      · rw [update_of_ne hlj]
        exact hsigue ((hother l hlj).symm.trans hl) hl
    · intro l m hl hm hlt
      by_cases hmj : m = j
      · subst hmj
        have hlm : l ≠ m := by
          rintro rfl
          exact absurd hlt (lt_irrefl _)
        rw [hother l hlm] at hl
        rw [update_self, update_of_ne hlm]
        exact hpasado hl
      · rw [hother m hmj] at hm
        have hmlt := habajo m hm
        have hlj : l ≠ j := by
          rintro rfl
          simp only [turno, FISICA, hk0] at hlt
          simp only [FISICA] at *
          omega
        rw [hother l hlj] at hl
        rw [update_of_ne hmj, update_of_ne hlj]
        exact hq.orden l m hl hm hlt
    · intro l hl
      have hlj : l ≠ j := by
        rintro rfl
        rw [hself] at hl
        cases hl
      rw [hother l hlj] at hl
      refine ⟨hk0, fun m hm => ?_⟩
      have hjl : j ≤ l := by
        by_contra hlt
        refine absurd ((hc.held_eq_none_iff (.inl l)).mp hl) ?_
        exact (primerHueco_eq_some hj).2 l (not_le.mp hlt)
      have hmj : m ≠ j := by
        rintro rfl
        exact hlj (le_antisymm hm hjl)
      rw [hother m hmj]
      exact harriba m (le_trans hjl hm)
  | cede v i hx hllena hv hheld hf =>
    have hself : s'.held (.inl k) = some x := by rw [hheld, update_self]
    have hother : ∀ l, l ≠ k → s'.held (.inl l) = s.held (.inl l) := by
      intro l hl
      rw [hheld, update_of_ne (Sum.inl_injective.ne hl), update_of_ne (by simp)]
    refine ⟨siguiente k, update carga k t, hf, ?_, ?_, ?_⟩
    · intro l y hl
      by_cases hlk : l = k
      · subst hlk
        rw [hself] at hl
        cases hl
        rw [update_self]
        exact hnueva hx ⟨l, hself⟩
      · rw [update_of_ne hlk]
        exact hsigue ((hother l hlk).symm.trans hl) hl
    · intro l m hl hm hlt
      by_cases hlk : l = k
      · subst hlk
        exact absurd hlt (not_lt.mpr (turno_ultimo l m))
      · rw [update_of_ne hlk]
        by_cases hmk : m = k
        · subst hmk
          rw [update_self]
          exact hpasado (hllena l)
        · rw [update_of_ne hmk]
          exact hq.orden l m (hllena l) (hllena m) (turno_siguiente hmk hlt)
    · intro l hl
      by_cases hlk : l = k
      · subst hlk
        rw [hself] at hl
        cases hl
      · rw [hother l hlk] at hl
        exact absurd hl (hllena l)

theorem ColaFifo.primera (hq : ColaFifo h t s k carga) {y z : PagVirtual} {l : Fin FISICA}
    (hy : s.held (.inl k) = some y) (hz : s.held (.inl l) = some z) (hne : y ≠ z) {i j : Nat}
    (hi : CargadaEn h i t (par y)) (hj : CargadaEn h j t (par z)) : i < j := by
  have hlk : l ≠ k := by
    rintro rfl
    rw [hy] at hz
    exact hne (Option.some.inj hz)
  rw [hi.unica (hq.cargada k y hy), hj.unica (hq.cargada l z hz)]
  exact hq.orden k l (by simp [hy]) (by simp [hz]) (turno_primero hlk)

/-! ### Runs -/

/-- If the page is untouched and RAM is full, the first free swap frame, where the evicted page goes,
has the number `fifoIndex` of the RAM frame it leaves. -/
def MarcoCoincide (s : Estado) (a : Int × Int) : Prop :=
  ∀ e, s.entrada a.1 a.2 = .ok e → e.memoria ≠ 1 → e.memoria ≠ 2 →
    primerHueco s.ram.paginas = none →
    ∀ i, primerHueco s.memSecundaria.paginas = some i → (i.val : Int) = s.ram.fifoIndex

/-- The page tables and the frames agree after `t` accesses, the page just accessed is in RAM, and a
page that the last access drove out of RAM had been loaded before every other page of RAM. -/
def FifoBien (s₀ : Estado) (accesos : List (Int × Int)) (t : Nat) : Prop :=
  ∃ s, tras 'f' s₀ accesos t = some s ∧ TablasConcuerdan s (accesos.take t) ∧
    (∀ a, (accesos.take t).getLast? = some a → s.EnRam a) ∧
    ∀ u, u + 1 = t → ∀ a b, EnRango a → EnRango b → a ≠ b →
      Desalojada (tras 'f' s₀ accesos) u a → Residente (tras 'f' s₀ accesos) u b →
      ∀ i j, CargadaEn (tras 'f' s₀ accesos) i u a → CargadaEn (tras 'f' s₀ accesos) j u b → i < j

/-- What holds after `t` accesses of a run in which the frame numbers have coincided so far. -/
def EstadoFifo (s₀ : Estado) (accesos : List (Int × Int)) (t : Nat) (s : Estado) : Prop :=
  tras 'f' s₀ accesos t = some s ∧ Concuerda s (Tocadas (accesos.take t)) ∧
    ∃ k carga, ColaFifo (tras 'f' s₀ accesos) t s k carga

variable {s₀ : Estado} {accesos : List (Int × Int)}

theorem EstadoFifo.inicial (hini : Inicial s₀) (hmem : ∀ x, (s₀.tabla x).memoria ≠ 1 ∧ (s₀.tabla x).memoria ≠ 2) :
    EstadoFifo s₀ accesos 0 s₀ := by
  have hc := hini.concuerda hmem
  have hfree : ∀ j, s₀.held (.inl j) = none := fun j => (hc.held_eq_none_iff (.inl j)).mpr (hini.ram j)
  refine ⟨rfl, by simpa using hc, ⟨0, by decide⟩, fun _ => 0, by simpa using hini.fifoIndex, ?_, ?_, ?_⟩
  · intro j y hj
    rw [hfree j] at hj
    cases hj
  · intro j l hj
    exact absurd (hfree j) hj
  · exact fun j _ => ⟨rfl, fun l _ => hfree l⟩

theorem loc_eq_none_of_memoria {e : Pagina} (hc : Concuerda s T) (he : s.entrada (par x).1 (par x).2 = .ok e) :
    (e.memoria ≠ 1 ∧ e.memoria ≠ 2) ↔ s.loc x = none := by
  rw [par, Estado.entrada_virtual] at he
  cases he
  rw [hc.loc_eq_none_iff, hc.tocada_iff_memoria, not_or]

/-- The next access of such a run: all of `FifoBien` but the page tables, and these agree exactly
when the frame numbers coincide once more. -/
theorem EstadoFifo.avanza {t : Nat} (ht : t < accesos.length) (hr : EnRango accesos[t])
    (hno : correr 'f' s₀ accesos ≠ .error .memoriaSecundariaLlena) (hs : EstadoFifo s₀ accesos t s) :
    ∃ s', tras 'f' s₀ accesos (t + 1) = some s' ∧ s'.EnRam accesos[t] ∧
      (∀ a b, EnRango a → EnRango b → a ≠ b → Desalojada (tras 'f' s₀ accesos) t a →
        Residente (tras 'f' s₀ accesos) t b → ∀ i j, CargadaEn (tras 'f' s₀ accesos) i t a →
        CargadaEn (tras 'f' s₀ accesos) j t b → i < j) ∧
      (MarcoCoincide s accesos[t] → EstadoFifo s₀ accesos (t + 1) s') ∧
      (TablasConcuerdan s' (accesos.take (t + 1)) → MarcoCoincide s accesos[t]) := by
  obtain ⟨htras, hc, k, carga, hq⟩ := hs
  obtain ⟨x, hx, hax⟩ := hr.exists_par
  obtain ⟨i, hi⟩ := hueco_of_no_llena ht hr hno htras
  obtain ⟨s', hrun, hef, hmal, hbien⟩ := acceso_fifo hc hx hq.fifo hi
  have hstep : acceso 'f' s accesos[t] = .ok s' := by
    rw [hax]
    exact hrun
  have htras' := afterPrefix_succ (acceso 'f') ht htras hstep
  refine ⟨s', htras', ?_, ?_, ?_, ?_⟩
  · rw [hax]
    exact hef.accedida hc
  · intro a b ha hb hab hda hrb i j hi hj
    obtain ⟨y, -, rfl⟩ := ha.exists_par
    obtain ⟨z, -, rfl⟩ := hb.exists_par
    have hy : s.held (.inl k) = some y := by
      refine hef.desalojada (enRam_par.mpr ((residente_par htras).mp hda.1)) ?_
      rw [enRam_par, ← residente_par htras']
      exact hda.2
    obtain ⟨l, hz⟩ := (residente_par htras).mp hrb
    exact hq.primera hy hz (fun he => hab (by rw [he])) hi hj
  · intro hcoin
    refine ⟨htras', ?_, hq.paso hc htras htras' hef⟩
    rw [← tocadas_take_succ ht hax]
    refine hbien (fun hnone hllena => ?_)
    have hent : s.entrada (par x).1 (par x).2 = .ok (s.tabla x) := Estado.entrada_virtual s x
    obtain ⟨h1, h2⟩ := (loc_eq_none_of_memoria hc hent).mpr hnone
    rw [hax] at hcoin
    have := hcoin (s.tabla x) hent h1 h2 hllena i hi
    rw [hq.fifo] at this
    omega
  · intro htab e hent h1 h2 hllena j hj
    rw [hi] at hj
    cases hj
    rw [hax] at hent
    have hnone := (loc_eq_none_of_memoria hc hent).mp ⟨h1, h2⟩
    obtain ⟨v, hv, hheld, hnro⟩ := hmal hnone hllena
    have hmem : par v ∈ accesos.take (t + 1) := by
      rw [← List.take_append_getElem ht]
      exact List.mem_append_left _ hv
    have hiff := htab.enSwap (par v) hmem (s'.tabla v) (Estado.entrada_virtual s' v) i
    have hread := (hiff.mpr (sostiene_par.mpr hheld)).2
    rw [hq.fifo, ← hnro, hread]

theorem FifoBien.of_estado {t : Nat} (ht : t < accesos.length) (hr : ∀ a ∈ accesos, EnRango a)
    (hno : correr 'f' s₀ accesos ≠ .error .memoriaSecundariaLlena)
    (hs : EstadoFifo s₀ accesos t s) (hcoin : MarcoCoincide s accesos[t]) :
    FifoBien s₀ accesos (t + 1) := by
  obtain ⟨s', htras', hram, horden, hsig, -⟩ := hs.avanza ht (hr _ (List.getElem_mem ht)) hno
  refine ⟨s', htras', (hsig hcoin).2.1.tablas ?_, ?_, ?_⟩
  · exact fun a ha => hr a (List.mem_of_mem_take ha)
  · intro a ha
    rw [← List.take_append_getElem ht, List.getLast?_append] at ha
    cases ha
    exact hram
  · intro u hu
    cases hu
    exact horden

theorem fifo_estados (hini : Inicial s₀) (hmem : ∀ x, (s₀.tabla x).memoria ≠ 1 ∧ (s₀.tabla x).memoria ≠ 2)
    (hr : ∀ a ∈ accesos, EnRango a) (hno : correr 'f' s₀ accesos ≠ .error .memoriaSecundariaLlena)
    (hcoin : ∀ t (ht : t < accesos.length) s, EstadoFifo s₀ accesos t s → MarcoCoincide s accesos[t])
    (t : Nat) (ht : t ≤ accesos.length) : ∃ s, EstadoFifo s₀ accesos t s := by
  induction t with
  | zero => exact ⟨s₀, .inicial hini hmem⟩
  | succ t ih =>
    obtain ⟨s, hs⟩ := ih (by omega)
    obtain ⟨s', -, -, -, hsig, -⟩ := hs.avanza ht (hr _ (List.getElem_mem ht)) hno
    exact ⟨s', hsig (hcoin t ht s hs)⟩

/-- In mode `f` the page tables, the frames and the order of the evictions are right after every
access of a run exactly when every page evicted by a new one goes to the swap frame whose number is
`fifoIndex`. -/
theorem fifo_bien_iff (s₀ : Estado) (hini : Inicial s₀)
    (hmem : ∀ x, (s₀.tabla x).memoria ≠ 1 ∧ (s₀.tabla x).memoria ≠ 2)
    (accesos : List (Int × Int)) (hr : ∀ a ∈ accesos, EnRango a)
    (hno : correr 'f' s₀ accesos ≠ .error .memoriaSecundariaLlena) :
    (∀ t ≤ accesos.length, FifoBien s₀ accesos t) ↔
      ∀ t (ht : t < accesos.length) s, tras 'f' s₀ accesos t = some s →
        MarcoCoincide s accesos[t] := by
  constructor
  · intro hbien t ht s hs
    have hcoin : ∀ t (ht : t < accesos.length) s, EstadoFifo s₀ accesos t s →
        MarcoCoincide s accesos[t] := by
      intro t ht s hs
      obtain ⟨s', htras', -, -, -, hvuelta⟩ := hs.avanza ht (hr _ (List.getElem_mem ht)) hno
      obtain ⟨r, hr', htab, -, -⟩ := hbien (t + 1) ht
      rw [htras'] at hr'
      cases hr'
      exact hvuelta htab
    obtain ⟨r, hest⟩ := fifo_estados hini hmem hr hno hcoin t (le_of_lt ht)
    rw [hest.1] at hs
    cases hs
    exact hcoin t ht s hest
  · intro hcoin t ht
    have hcoin' : ∀ t (ht : t < accesos.length) s, EstadoFifo s₀ accesos t s →
        MarcoCoincide s accesos[t] := fun t ht s hs => hcoin t ht s hs.1
    cases t with
    | zero =>
      refine ⟨s₀, rfl, ?_, by simp, by simp⟩
      exact (hini.concuerda hmem).tablas (by simp)
    | succ t =>
      obtain ⟨s, hs⟩ := fifo_estados hini hmem hr hno hcoin' t (by omega)
      exact .of_estado ht hr hno hs (hcoin' t ht s hs)

/-- Eleven accesses: nine pages, then the first one again (a swap-in, which moves `fifoIndex` but
takes no new swap frame), then a tenth page. -/
def onceAccesos : List (Int × Int) :=
  [(1, 0), (1, 1), (1, 2), (1, 3), (1, 4), (1, 5), (1, 6), (1, 7), (1, 8), (1, 0), (1, 9)]

theorem onceAccesos_enRango : ∀ a ∈ onceAccesos, EnRango a := by
  unfold onceAccesos EnRango
  decide

theorem onceAccesos_no_llena : correr 'f' arranque onceAccesos ≠ .error .memoriaSecundariaLlena := by
  have h : (correr 'f' arranque onceAccesos).isOk = true := by decide +kernel
  intro he
  rw [he] at h
  cases h

theorem fifo_bien_iff_onceAccesos :
    (∀ t ≤ onceAccesos.length, FifoBien arranque onceAccesos t) ↔
      ∀ t (ht : t < onceAccesos.length) s, tras 'f' arranque onceAccesos t = some s →
        MarcoCoincide s onceAccesos[t] :=
  fifo_bien_iff arranque arranque_inicial arranque_memoria onceAccesos onceAccesos_enRango
    onceAccesos_no_llena

/-- After the eleventh access swap frame 1 holds page 2 of process 1, whose entry names swap
frame 2. -/
theorem fifo_bien_onceAccesos_falla :
    Inicial arranque ∧ (∀ x, (arranque.tabla x).memoria ≠ 1 ∧ (arranque.tabla x).memoria ≠ 2) ∧
      (∀ a ∈ onceAccesos, EnRango a) ∧
      correr 'f' arranque onceAccesos ≠ .error .memoriaSecundariaLlena ∧
      ¬∀ t ≤ onceAccesos.length, FifoBien arranque onceAccesos t := by
  refine ⟨arranque_inicial, arranque_memoria, onceAccesos_enRango, onceAccesos_no_llena, ?_⟩
  intro hbien
  obtain ⟨s, hs, htab, -, -⟩ := hbien 11 (by decide)
  have hcheck : (tras 'f' arranque onceAccesos 11).all (fun s =>
      decide ((s.marco (.inr 1)).pid = 1 ∧ (s.marco (.inr 1)).indice = 2 ∧
        (s.tabla (0, 2)).nroEnMemoria = 2)) = true := by decide +kernel
  rw [hs, Option.all_some, decide_eq_true_eq] at hcheck
  obtain ⟨hpid, hind, hnro⟩ := hcheck
  have hiff := htab.enSwap (1, 2) (by decide) (s.tabla (0, 2)) (Estado.entrada_virtual s (0, 2)) 1
  have hread := (hiff.mpr ⟨hpid, hind⟩).2
  rw [hnro] at hread
  exact absurd hread (by decide)

end Laboratorio.Sim
