import Laboratorio.SimParalelos

/-! The runs of the simulator whose output the input determines. A run reads what nobody wrote in
two places: the field `memoria` of an entry at the first access to its page, and, in mode `f`, the
`indice` of a free RAM frame that a swap-in is about to give up. -/

namespace Laboratorio.Sim

/-- No access has given the page a frame. -/
def Estado.SinCargar (s : Estado) (x : PagVirtual) : Prop :=
  (s.procesos x.1).activo = -1 ∨ (s.tabla x).nroEnMemoria = -1

/-- The state in which an access to `x` starts, in two runs, does not make the access depend on what
the memory held: the entry of a page without a frame does not look like that of a loaded page, or it
looks loaded into RAM in both runs of mode `f`; and the frame that a swap-in of mode `f` gives up is
not free. -/
structure Determinado (modo : Char) (s r : Estado) (x : PagVirtual) : Prop where
  primera : s.SinCargar x →
    (((s.tabla x).memoria ≠ 1 ∧ (s.tabla x).memoria ≠ 2) ∧
      (r.tabla x).memoria ≠ 1 ∧ (r.tabla x).memoria ≠ 2) ∨
    (modo = 'f' ∧ (s.tabla x).memoria = 1 ∧ (r.tabla x).memoria = 1)
  marco : modo = 'f' → ¬s.SinCargar x → (s.tabla x).memoria = 2 →
    ∀ k : Fin FISICA, s.ram.fifoIndex = (k.val : Int) → (s.ram.paginas k).pid ≠ -1

/-- Two outcomes are the same and neither left an array: an access outside an array reaches memory
that the input says nothing about. -/
def MismoResultado (a b : Res Estado) : Prop :=
  a.map Estado.resultado = b.map Estado.resultado ∧ a ≠ .error .fueraDeRango

variable {modo : Char} {s r : Estado} {U : PagVirtual → Prop} {x : PagVirtual}

/-! ### The access to a page without a frame whose entry looks loaded -/

theorem indexar_fuera {n : Nat} {i : Int} (h : i < 0) : indexar n i = .error .fueraDeRango := by
  rw [indexar, dif_neg (by omega)]

theorem servir_nueva (modo : Char) (hm : (s.tabla x).memoria ≠ 1 ∧ (s.tabla x).memoria ≠ 2) :
    servir modo x.pid x.pagina s = cargar modo x.pid x.pagina s := by
  simp only [servir, gestionarProcesoEnMemoria, Estado.entrada_virtual, ok_bind, if_neg hm.1, if_neg hm.2]
  split_ifs <;> simp only [pure_eq_ok, ok_bind, if_true]

theorem servir_basura_fifo (hm : (s.tabla x).memoria = 1) :
    servir 'f' x.pid x.pagina s =
      .ok (s.imprimir (.yaEnMemoria x.pagina x.pid)) := by
  simp only [servir, gestionarProcesoEnMemoria, Char.reduceEq, if_false, if_true, Estado.entrada_virtual,
    ok_bind, if_pos hm, pure_eq_ok]
  rfl

/-- An entry that looks loaded sends mode `l`, and mode `f` for the secondary memory, to frame -1. -/
theorem servir_fuera (hmodo : modo = 'f' ∨ modo = 'l') (hn : (s.tabla x).nroEnMemoria = -1)
    (hm : (s.tabla x).memoria = 2 ∨ modo = 'l' ∧ (s.tabla x).memoria = 1) :
    servir modo x.pid x.pagina s = .error .fueraDeRango := by
  have hswap : indexar SWAP (-1) = .error .fueraDeRango := indexar_fuera (by decide)
  have hram : indexar FISICA (-1) = .error .fueraDeRango := indexar_fuera (by decide)
  rcases hm with hm | ⟨rfl, hm⟩
  · have hm1 : ¬(s.tabla x).memoria = 1 := by omega
    rcases hmodo with rfl | rfl
    · simp only [servir, gestionarProcesoEnMemoria, Char.reduceEq, if_false, if_true,
        Estado.entrada_virtual, ok_bind, if_neg hm1, if_pos hm, hn, hswap]
      rfl
    · simp only [servir, gestionarProcesoEnMemoria, if_true, Estado.entrada_virtual, ok_bind, if_neg hm1,
        if_pos hm, hn, hswap]
      rfl
  · simp only [servir, gestionarProcesoEnMemoria, if_true, Estado.entrada_virtual, ok_bind, if_pos hm,
      Estado.cambiarEntrada_virtual, hn, hram]
    rfl

variable {i : Fin SWAP}

/-- A swap-in of mode `f` that gives up a free frame writes through its `pid - 1 = -2`. -/
theorem servir_marco_libre {k : Fin FISICA} (hm : (s.tabla x).memoria = 2)
    (hi : (s.tabla x).nroEnMemoria = (i.val : Int)) (hk : s.ram.fifoIndex = (k.val : Int))
    (hpid : (s.ram.paginas k).pid = -1) :
    servir 'f' x.pid x.pagina s = .error .fueraDeRango := by
  have hm1 : ¬(s.tabla x).memoria = 1 := by omega
  have hproc : indexar MAX_PROCESOS (-1 - 1) = .error .fueraDeRango := indexar_fuera (by decide)
  simp only [servir, gestionarProcesoEnMemoria, Char.reduceEq, if_false, if_true, Estado.entrada_virtual,
    ok_bind, if_neg hm1, if_pos hm, hi, indexar_val, Estado.ram_imprimir, hk, intercambiar,
    Estado.cambiarEntrada, hpid, hproc]
  rfl

/-! ### One access of two runs -/

theorem Paralelos.sinCargar_iff (h : Paralelos s r U) (x : PagVirtual) : s.SinCargar x ↔ ¬U x := by
  rw [Estado.SinCargar, h.activo]
  constructor
  · intro hx hU
    obtain ⟨heq, hub⟩ := h.cargada x hU
    rcases hx with hact | hn
    · exact h.activa x hU hact
    · rw [heq] at hn
      exact hub.nroEnMemoria_ne hn
  · intro hU
    by_cases hact : (r.procesos x.1).activo = -1
    · exact .inl hact
    · obtain ⟨heq, hn⟩ := h.resto x hU hact
      rw [heq]
      exact .inr hn

/-- The loop body of two runs in step: both find the same free swap frame and initialise the process,
and the rest is `servir` on states still in step that kept the entry's `memoria` and the RAM. -/
theorem Paralelos.entra (h : Paralelos s r U) (modo : Char) (hx : x.1.val < 99)
    (hi : primerHueco r.memSecundaria.paginas = some i) :
    ∃ s₁ r₁, acceso modo s (par x) = servir modo x.pid x.pagina s₁ ∧
      acceso modo r (par x) = servir modo x.pid x.pagina r₁ ∧
      Paralelos s₁ r₁ U ∧ (r₁.procesos x.1).activo ≠ -1 ∧
      (s₁.tabla x).memoria = (s.tabla x).memoria ∧ (r₁.tabla x).memoria = (r.tabla x).memoria ∧
      s₁.ram = s.ram ∧ r₁.ram = r.ram ∧ primerHueco r₁.memSecundaria.paginas = some i := by
  obtain ⟨s₁, r₁, hs, hr, h₁, hact, hms, hmr, hrams, hramr, -, hsw⟩ := (h.inicializar x).exists_ok
  have hi' : primerHueco s.memSecundaria.paginas = some i := by rw [h.hueco_swap, hi]
  exact ⟨s₁, r₁, acceso_eq modo hx hi' hs, acceso_eq modo hx hi hr, h₁, hact, hms, hmr, hrams, hramr,
    by rw [hsw, hi]⟩

theorem Paralelos.acceso (hmodo : modo = 'f' ∨ modo = 'l') (h : Paralelos s r U) (hx : x.1.val < 99)
    (hi : primerHueco r.memSecundaria.paginas = some i)
    (hnueva : ¬U x → ((s.tabla x).memoria ≠ 1 ∧ (s.tabla x).memoria ≠ 2) ∧ (r.tabla x).memoria ≠ 1 ∧
    (r.tabla x).memoria ≠ 2)
    (hlru : modo = 'l' → U x → (r.tabla x).memoria = 2 → ∀ k, (r.ram.paginas k).pid ≠ -1)
    (hfifo : modo = 'f' → U x → (r.tabla x).memoria = 2 → ∀ k : Fin FISICA,
      r.ram.fifoIndex = (k.val : Int) → (r.ram.paginas k).pid ≠ -1) :
    BothEnd (fun s' r' => Paralelos s' r' (fun y => U y ∨ y = x)) (Sim.acceso modo s (par x))
    (Sim.acceso modo r (par x)) := by
  obtain ⟨s₁, r₁, hs, hr, h₁, hact, hms, hmr, -, hramr, hi₁⟩ := h.entra modo hx hi
  rw [hs, hr]
  by_cases hU : U x
  · rw [tocadas_mas hU]
    have hgest : BothEnd (fun a b => a.1 = 0 ∧ b.1 = 0 ∧ Paralelos a.2 b.2 U)
        (gestionarProcesoEnMemoria modo x.pid x.pagina s₁)
        (gestionarProcesoEnMemoria modo x.pid x.pagina r₁) := by
      rcases hmodo with rfl | rfl
      · apply h₁.gestionar_fifo hU
        rw [hmr, hramr]
        exact hfifo rfl hU
      · apply h₁.gestionar_lru hU
        rw [hmr, hramr]
        exact hlru rfl hU
    simp only [servir]
    refine hgest.bind ?_
    intro a b hab
    have hne : ¬(0 : Int) = 1 := by decide
    simp only [hab.1, hab.2.1, if_neg hne]
    exact .ok hab.2.2
  · obtain ⟨hs2, hr2⟩ := hnueva hU
    rw [← hms] at hs2
    rw [← hmr] at hr2
    rw [servir_nueva modo hs2, servir_nueva modo hr2]
    exact h₁.cargar hmodo hU hact hi₁

/-- The mode `f` access to a page whose entry looks loaded into RAM in both runs. -/
theorem Paralelos.acceso_basura (h : Paralelos s r U) (hx : x.1.val < 99)
    (hi : primerHueco r.memSecundaria.paginas = some i) (hs : (s.tabla x).memoria = 1) (hr : (r.tabla x).memoria = 1) :
    BothEnd (fun s' r' => Paralelos s' r' U) (Sim.acceso 'f' s (par x)) (Sim.acceso 'f' r (par x)) := by
  obtain ⟨s₁, r₁, has, har, h₁, -, hms, hmr, -⟩ := h.entra 'f' hx hi
  rw [has, har, servir_basura_fifo (hms.trans hs), servir_basura_fifo (hmr.trans hr)]
  exact .ok (h₁.imprimir _)

/-- Two runs in step. In mode `l` there is also a state in step with them in which no entry looks
loaded that is not: the tables of such a state agree with its frames. -/
def EnLinea (modo : Char) (s r : Estado) (U : PagVirtual → Prop) : Prop :=
  Paralelos s r U ∧ (modo = 'l' → ∃ c, Paralelos s c U ∧ Concuerda c U)

/-- In mode `l` the RAM frames are all in use when a page is in the secondary memory. -/
theorem EnLinea.ram_en_uso (h : EnLinea 'l' s r U) (hU : U x) (hm : (s.tabla x).memoria = 2)
    (k : Fin FISICA) : (s.ram.paginas k).pid ≠ -1 := by
  obtain ⟨c, hc, hcon⟩ := h.2 rfl
  obtain ⟨heq, hub⟩ := hc.cargada x hU
  rw [heq] at hm
  obtain ⟨-, i, hi⟩ := hub.resolve_left (fun hb => by omega)
  have hheld := (hcon.agree x (.inr i)).mp (ubicacion_swap hm hi)
  have hk := hcon.ramLlena i x hheld k
  rw [Ne, hcon.held_eq_none_iff] at hk
  exact fun hs => hk ((hc.marcos (.inl k)).libre_iff.mp hs)

theorem EnLinea.paso (hmodo : modo = 'f' ∨ modo = 'l') (h : EnLinea modo s r U) (hx : x.1.val < 99)
    (hi : primerHueco r.memSecundaria.paginas = some i) (hd : Determinado modo s r x) :
    ∃ s' r' V, acceso modo s (par x) = .ok s' ∧ acceso modo r (par x) = .ok r' ∧ EnLinea modo s' r' V := by
  obtain ⟨hpar, hclara⟩ := h
  have hsin := hpar.sinCargar_iff x
  by_cases hb : ¬U x ∧ modo = 'f' ∧ (s.tabla x).memoria = 1 ∧ (r.tabla x).memoria = 1
  · obtain ⟨-, rfl, hs, hr⟩ := hb
    obtain ⟨s', r', hs', hr', h'⟩ := (hpar.acceso_basura hx hi hs hr).exists_ok
    exact ⟨s', r', U, hs', hr', h', fun hl => by simp at hl⟩
  have hnueva : ¬U x → ((s.tabla x).memoria ≠ 1 ∧ (s.tabla x).memoria ≠ 2) ∧
      (r.tabla x).memoria ≠ 1 ∧ (r.tabla x).memoria ≠ 2 := by
    intro hU
    exact (hd.primera (hsin.mpr hU)).resolve_right fun hc => hb ⟨hU, hc⟩
  have hmem : U x → (s.tabla x).memoria = (r.tabla x).memoria := fun hU => by
    rw [(hpar.cargada x hU).1]
  have hfifo : modo = 'f' → U x → (r.tabla x).memoria = 2 → ∀ k : Fin FISICA,
      r.ram.fifoIndex = (k.val : Int) → (r.ram.paginas k).pid ≠ -1 := by
    intro hf hU hm k hk
    obtain ⟨k', hks, hkr⟩ := hpar.fifoIndex
    have hkk : k' = k := Fin.ext (by omega)
    have hlib := hd.marco hf (fun hc => hsin.mp hc hU) ((hmem hU).trans hm) k (hkk ▸ hks)
    exact fun hc => hlib ((hpar.marcos (.inl k)).libre_iff.mpr hc)
  have hlru : modo = 'l' → U x → (s.tabla x).memoria = 2 → ∀ k, (s.ram.paginas k).pid ≠ -1 := by
    rintro rfl hU hm k
    exact EnLinea.ram_en_uso ⟨hpar, hclara⟩ hU hm k
  obtain ⟨s', r', hs', hr', h'⟩ := (hpar.acceso hmodo hx hi hnueva
    (fun hl hU hm k hk => hlru hl hU ((hmem hU).trans hm) k ((hpar.marcos (.inl k)).libre_iff.mpr hk))
    hfifo).exists_ok
  refine ⟨s', r', _, hs', hr', h', ?_⟩
  -- the clean state takes the same access and its tables still agree
  rintro rfl
  obtain ⟨c, hc, hcon⟩ := hclara rfl
  have hic : primerHueco c.memSecundaria.paginas = some i := by
    rw [← hc.hueco_swap, hpar.hueco_swap, hi]
  obtain ⟨s'', c', hs'', hc', h''⟩ := (hc.acceso (.inr rfl) hx hic
    (fun hU => ⟨(hnueva hU).1, hcon.fuera x hU⟩)
    (fun _ hU hm k hk => hlru rfl hU (by rw [(hc.cargada x hU).1]; exact hm) k
      ((hc.marcos (.inl k)).libre_iff.mpr hk))
    (fun hf => by simp at hf)).exists_ok
  obtain ⟨c'', hc'', -, -, hcon'⟩ := acceso_lru hcon hx hic
  rw [hs'] at hs''
  cases hs''
  rw [par, hc''] at hc'
  cases hc'
  exact ⟨c', h'', hcon'⟩

/-! ### Where two runs part -/

theorem MismoResultado.symm {a b : Res Estado} (h : MismoResultado a b) : MismoResultado b a := by
  refine ⟨h.1.symm, ?_⟩
  rintro rfl
  apply h.2
  cases a with
  | ok s => exact absurd h.1 nofun
  | error e =>
    have he := h.1
    simp only [Except.map, Except.error.injEq] at he
    rw [he]

/-- Two runs that give the same result on a page without a frame: neither was sent outside an array,
and if one took the page for a loaded one, so did the other. -/
theorem Paralelos.primera (hmodo : modo = 'f' ∨ modo = 'l') (h : Paralelos s r U) (hU : ¬U x)
    (hact : (r.procesos x.1).activo ≠ -1) (hi : primerHueco r.memSecundaria.paginas = some i)
    (hm : MismoResultado (servir modo x.pid x.pagina s)
      (servir modo x.pid x.pagina r)) :
    (s.tabla x).memoria ≠ 2 ∧
    ((s.tabla x).memoria = 1 → modo = 'f' ∧ ((r.tabla x).memoria ≠ 2 → (r.tabla x).memoria = 1)) := by
  obtain ⟨heq, hn⟩ := h.resto x hU hact
  have hns : (s.tabla x).nroEnMemoria = -1 := by
    rw [heq]
    exact hn
  refine ⟨fun h2 => hm.2 (servir_fuera hmodo hns (.inl h2)), fun h1 => ?_⟩
  have hf : modo = 'f' := hmodo.resolve_right fun hl => hm.2 (servir_fuera hmodo hns (.inr ⟨hl, h1⟩))
  subst hf
  refine ⟨rfl, fun hr2 => ?_⟩
  by_contra hr1
  -- the run on the right loads the page, so its entry is in the result; on the left it is not
  obtain ⟨r', r'', hr', hr'', h'⟩ := (h.derecha.cargar hmodo hU hact hi).exists_ok
  rw [hr'] at hr''
  cases hr''
  have hub := (h'.cargada x (.inr rfl)).2
  have hact' := h'.activa x (.inr rfl)
  rw [servir_basura_fifo h1, servir_nueva 'f' ⟨hr1, hr2⟩, hr'] at hm
  have hres := congrFun (congrArg Resultado.tablas (Except.ok.inj hm.1)) x.1
  have hsact : (s.procesos x.1).activo ≠ -1 := by
    rw [h.activo]
    exact hact
  simp only [Estado.resultado, Estado.procesos_imprimir, hsact, hact', if_false, Option.some.injEq,
    Prod.mk.injEq] at hres
  have hent : (s.tabla x).cargada = (r'.tabla x).cargada := congrFun hres.2.2 x.2
  simp only [Pagina.cargada, if_pos hns, if_neg hub.nroEnMemoria_ne] at hent
  cases hent

/-- Where `Determinado` fails the next access gives two different results or leaves an array. -/
theorem EnLinea.choque (hmodo : modo = 'f' ∨ modo = 'l') (h : EnLinea modo s r U) (hx : x.1.val < 99)
    (hi : primerHueco r.memSecundaria.paginas = some i)
    (hm : MismoResultado (acceso modo s (par x)) (acceso modo r (par x))) : Determinado modo s r x := by
  obtain ⟨s₁, r₁, hs, hr, h₁, hact, hms, hmr, hrams, -, hi₁⟩ := h.1.entra modo hx hi
  rw [hs, hr] at hm
  have hsin := h.1.sinCargar_iff x
  by_cases hU : U x
  · refine ⟨fun hc => absurd hU (hsin.mp hc), ?_⟩
    rintro rfl - hm2 k hk hpid
    rw [← hms] at hm2
    obtain ⟨heq, hub⟩ := h₁.cargada x hU
    rw [← heq] at hub
    obtain ⟨-, j, hj⟩ := hub.resolve_left (fun hb => by omega)
    exact hm.2 (servir_marco_libre hm2 hj (by rw [hrams]; exact hk) (by rw [hrams]; exact hpid))
  · refine ⟨fun _ => ?_, fun _ hc => absurd (hsin.mpr hU) hc⟩
    have hacts : (s₁.procesos x.1).activo ≠ -1 := by
      rw [h₁.activo]
      exact hact
    have his : primerHueco s₁.memSecundaria.paginas = some i := by rw [h₁.hueco_swap, hi₁]
    obtain ⟨hs2, hs1⟩ := h₁.primera hmodo hU hact hi₁ hm
    obtain ⟨hr2, hr1⟩ := h₁.symm.primera hmodo hU hacts his hm.symm
    rw [hms] at hs2 hs1 hr1
    rw [hmr] at hr2 hr1 hs1
    by_cases hs : (s.tabla x).memoria = 1
    · exact .inr ⟨(hs1 hs).1, hs, (hs1 hs).2 hr2⟩
    · exact .inl ⟨⟨hs, hs2⟩, fun hr => hs ((hr1 hr).2 hs2), hr2⟩

/-! ### Whole runs -/

variable {s₀ s₁ : Estado} {accesos : List (Int × Int)}

/-- At every access that the check of the secondary memory lets through, the two runs are in states
in which the input decides. -/
def EjecucionDeterminada (modo : Char) (s₀ s₁ : Estado) (accesos : List (Int × Int)) : Prop :=
  ∀ t (ht : t < accesos.length) s r, tras modo s₀ accesos t = some s → tras modo s₁ accesos t = some r →
    primerHueco s.memSecundaria.paginas ≠ none → ∀ x, accesos[t] = par x → Determinado modo s r x

/-- Two runs up to access `t`: both are in step there, or both were stopped by the same full secondary
memory. -/
inductive Avance (modo : Char) (s₀ s₁ : Estado) (accesos : List (Int × Int)) (t : Nat) : Prop where
  | sigue (s r : Estado) (U : PagVirtual → Prop) (hs : correr modo s₀ (accesos.take t) = .ok s)
      (hr : correr modo s₁ (accesos.take t) = .ok r) (h : EnLinea modo s r U)
  | llena (hs : correr modo s₀ (accesos.take t) = .error .memoriaSecundariaLlena)
      (hr : correr modo s₁ (accesos.take t) = .error .memoriaSecundariaLlena)

variable {t : Nat}

theorem Avance.mismo (h : Avance modo s₀ s₁ accesos t) :
    MismoResultado (correr modo s₀ (accesos.take t)) (correr modo s₁ (accesos.take t)) := by
  cases h with
  | sigue s r U hs hr h =>
    rw [hs, hr]
    exact ⟨congrArg Except.ok h.1.resultado_eq, nofun⟩
  | llena hs hr =>
    rw [hs, hr]
    exact ⟨rfl, nofun⟩

theorem acceso_llena (modo : Char) (hx : x.1.val < 99) (hi : primerHueco s.memSecundaria.paginas = none) :
    acceso modo s (par x) = .error .memoriaSecundariaLlena := by
  simp only [acceso, par, if_neg (no_rechazada hx), verificarMemoriaSecundaria, hi]
  rfl

theorem correr_succ (modo : Char) (s₀ : Estado) (ht : t < accesos.length) :
    correr modo s₀ (accesos.take (t + 1)) = (correr modo s₀ (accesos.take t) >>= fun s => acceso modo s accesos[t]) :=
  foldlM_take_succ (acceso modo) s₀ accesos ht

theorem Avance.paso (hmodo : modo = 'f' ∨ modo = 'l') (h : Avance modo s₀ s₁ accesos t)
    (ht : t < accesos.length) (hr : EnRango accesos[t])
    (hd : ∀ s r, tras modo s₀ accesos t = some s → tras modo s₁ accesos t = some r →
      primerHueco s.memSecundaria.paginas ≠ none → ∀ x, accesos[t] = par x → Determinado modo s r x) :
    Avance modo s₀ s₁ accesos (t + 1) := by
  obtain ⟨x, hx, hax⟩ := hr.exists_par
  cases h with
  | llena hs hr =>
    refine .llena ?_ ?_
    · rw [correr_succ modo s₀ ht, hs]
      rfl
    · rw [correr_succ modo s₁ ht, hr]
      rfl
  | sigue s r U hs hr h =>
    cases hi : primerHueco r.memSecundaria.paginas with
    | none =>
      refine .llena ?_ ?_
      · rw [correr_succ modo s₀ ht, hs, hax]
        exact acceso_llena modo hx (h.1.hueco_swap.trans hi)
      · rw [correr_succ modo s₁ ht, hr, hax]
        exact acceso_llena modo hx hi
    | some i =>
      have hdet : Determinado modo s r x :=
        hd s r (toOption_eq_some.mpr hs) (toOption_eq_some.mpr hr) (by simp [h.1.hueco_swap, hi]) x hax
      obtain ⟨s', r', V, hs', hr', h'⟩ := h.paso hmodo hx hi hdet
      refine .sigue s' r' V ?_ ?_ h'
      · rw [correr_succ modo s₀ ht, hs, hax]
        exact hs'
      · rw [correr_succ modo s₁ ht, hr, hax]
        exact hr'

theorem Avance.decide (hmodo : modo = 'f' ∨ modo = 'l') (h : Avance modo s₀ s₁ accesos t)
    (ht : t < accesos.length) (hr : EnRango accesos[t])
    (hm : MismoResultado (correr modo s₀ (accesos.take (t + 1))) (correr modo s₁ (accesos.take (t + 1))))
    (s r : Estado) (hs : tras modo s₀ accesos t = some s) (hr' : tras modo s₁ accesos t = some r)
    (hi : primerHueco s.memSecundaria.paginas ≠ none) (x : PagVirtual) (hx : accesos[t] = par x) :
    Determinado modo s r x := by
  have hs : correr modo s₀ (accesos.take t) = .ok s := toOption_eq_some.mp hs
  have hr' : correr modo s₁ (accesos.take t) = .ok r := toOption_eq_some.mp hr'
  rw [correr_succ modo s₀ ht, correr_succ modo s₁ ht, hs, hr', hx] at hm
  have hx99 : x.1.val < 99 := by
    rw [hx] at hr
    have := hr.1.2
    simp only [par] at this
    omega
  cases h with
  | llena hs' _ =>
    rw [hs] at hs'
    cases hs'
  | sigue s' r' U hs' hr'' h =>
    rw [hs] at hs'
    rw [hr'] at hr''
    cases hs'
    cases hr''
    rw [h.1.hueco_swap] at hi
    obtain ⟨i, hi⟩ := Option.ne_none_iff_exists'.mp hi
    exact h.choque hmodo hx99 hi hm

theorem Avance.inicial (modo : Char) (h₀ : Inicial s₀) (h₁ : Inicial s₁) (hm₀ : s₀.salida = [])
    (hm₁ : s₁.salida = []) : Avance modo s₀ s₁ accesos 0 := by
  have hpar : ∀ {s r : Estado}, Inicial s → Inicial r → s.salida = [] → r.salida = [] →
      Paralelos s r (Tocadas []) := by
    intro s r hs hr hms hmr
    have hno : ∀ x, ¬Tocadas [] x := fun x => List.not_mem_nil
    refine ⟨hs.lruIndex.trans hr.lruIndex.symm, ⟨0, hs.fifoIndex, hr.fifoIndex⟩, hms.trans hmr.symm, ?_,
      fun p => (hs.activo p).trans (hr.activo p).symm, fun p hp => absurd (hr.activo p) hp,
      fun x hx => absurd hx (hno x), fun x hx => absurd hx (hno x), fun x hx => absurd (hr.activo x.1) hx,
      fun x _ hx => absurd (hr.activo x.1) hx⟩
    intro m
    cases m with
    | inl k => exact .inl ⟨hs.ram k, hr.ram k⟩
    | inr i => exact .inl ⟨hs.memSecundaria i, hr.memSecundaria i⟩
  exact .sigue s₀ s₁ (Tocadas []) rfl rfl ⟨hpar h₀ h₁ hm₀ hm₁, fun _ =>
    ⟨arranque, hpar h₀ arranque_inicial hm₀ rfl, arranque_inicial.concuerda arranque_memoria⟩⟩

/-- Two runs on one input, in either mode, whatever the memory they started in: their page tables,
memories and messages are the same all along, with no access outside an array, exactly when at every
access the input decides. -/
theorem resultados_iguales_iff (modo : Char) (hmodo : modo = 'f' ∨ modo = 'l') (s₀ s₁ : Estado)
    (h₀ : Inicial s₀) (h₁ : Inicial s₁) (hm₀ : s₀.salida = []) (hm₁ : s₁.salida = [])
    (accesos : List (Int × Int)) (hr : ∀ a ∈ accesos, EnRango a) :
    (∀ t, t ≤ accesos.length →
      MismoResultado (correr modo s₀ (accesos.take t)) (correr modo s₁ (accesos.take t))) ↔
    EjecucionDeterminada modo s₀ s₁ accesos := by
  constructor
  · intro hm
    have hav : ∀ t, t ≤ accesos.length → Avance modo s₀ s₁ accesos t := by
      intro t
      induction t with
      | zero => exact fun _ => Avance.inicial modo h₀ h₁ hm₀ hm₁
      | succ t ih =>
        intro ht
        have hrt := hr _ (List.getElem_mem ht)
        exact (ih (by omega)).paso hmodo ht hrt ((ih (by omega)).decide hmodo ht hrt (hm (t + 1) ht))
    intro t ht
    exact (hav t (by omega)).decide hmodo ht (hr _ (List.getElem_mem ht)) (hm (t + 1) ht)
  · intro hd t ht
    have hav : Avance modo s₀ s₁ accesos t := by
      induction t with
      | zero => exact Avance.inicial modo h₀ h₁ hm₀ hm₁
      | succ t ih => exact (ih (by omega)).paso hmodo ht (hr _ (List.getElem_mem ht)) (hd t ht)
    exact hav.mismo

/-- The state of `main` on entry to the loop when every word it did not set held `b`. -/
def arranqueCon (b : Int) : Estado where
  procesos := fun _ => { pid := b, paginas := fun _ => ⟨b, b, b, b, b⟩, activo := -1 }
  ram := { paginas := fun _ => ⟨-1, b, b, b, b⟩, fifoIndex := 0 }
  memSecundaria := { paginas := fun _ => ⟨-1, b, b, b, b⟩ }
  lruIndex := 0
  salida := []

theorem arranqueCon_inicial (b : Int) : Inicial (arranqueCon b) :=
  ⟨fun _ => rfl, fun _ => rfl, fun _ => rfl, rfl, rfl⟩

theorem unAcceso_enRango : ∀ a ∈ [((1, 0) : Int × Int)], EnRango a := by
  intro a ha
  rw [List.mem_singleton.mp ha]
  exact ⟨⟨by decide, by decide⟩, by decide, by decide⟩

/-- Words of 0 and of 7 in the memory make no difference to the first access. -/
theorem resultados_iguales_iff_unAcceso :
    MismoResultado (correr 'f' (arranqueCon 0) [(1, 0)]) (correr 'f' (arranqueCon 7) [(1, 0)]) := by
  refine (resultados_iguales_iff 'f' (.inl rfl) (arranqueCon 0) (arranqueCon 7) (arranqueCon_inicial 0)
    (arranqueCon_inicial 7) rfl rfl [(1, 0)] unAcceso_enRango).mpr ?_ 1 (le_refl 1)
  intro t ht s r hs hr _ x _
  obtain rfl : t = 0 := by
    simp only [List.length_singleton] at ht
    omega
  cases hs
  cases hr
  refine ⟨fun _ => .inl ⟨⟨?_, ?_⟩, ?_, ?_⟩, fun _ hc => absurd (.inl rfl) hc⟩
  · exact show (0 : Int) ≠ 1 by decide
  · exact show (0 : Int) ≠ 2 by decide
  · exact show (7 : Int) ≠ 1 by decide
  · exact show (7 : Int) ≠ 2 by decide

/-- Words of 1 do: the page that nothing has loaded is reported as already in memory. -/
theorem resultados_distintos :
    (∀ b, Inicial (arranqueCon b)) ∧ (∀ a ∈ [((1, 0) : Int × Int)], EnRango a) ∧
      ¬MismoResultado (correr 'f' (arranqueCon 0) [(1, 0)]) (correr 'f' (arranqueCon 1) [(1, 0)]) := by
  refine ⟨arranqueCon_inicial, unAcceso_enRango, fun h => ?_⟩
  have hmensajes := congrArg (Except.map Resultado.mensajes) h.1
  have hcero : ((correr 'f' (arranqueCon 0) [(1, 0)]).map Estado.resultado).map Resultado.mensajes =
      .ok [.cargandoEnRam 1 0 0] := rfl
  have huno : ((correr 'f' (arranqueCon 1) [(1, 0)]).map Estado.resultado).map Resultado.mensajes =
      .ok [.yaEnMemoria 0 1] := rfl
  rw [hcero, huno] at hmensajes
  cases hmensajes

end Laboratorio.Sim
