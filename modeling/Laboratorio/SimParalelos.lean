import Laboratorio.SimHistoria

/-! What the output of the simulator depends on. `main` and `inicializarProcesoSiEsNecesario` leave
part of the three tables as the memory was, so two runs on one input are compared entry by entry:
they stay in step as long as neither reads what nobody wrote. -/

namespace Laboratorio.Sim

open Function

/-! ### What a run produces -/

/-- A cell of a printed page table. -/
inductive Celda where
  | vacia
  | enRam (marco : Int)
  | enSecundaria (marco : Int)
  deriving DecidableEq

/-- The cell printed for an entry. A loaded entry whose `memoria` is neither 1 nor 2 prints nothing. -/
def Pagina.celda (e : Pagina) : Option Celda :=
  if e.nroEnMemoria = -1 then some .vacia
  else if e.memoria = 1 then some (.enRam e.nroEnMemoria)
  else if e.memoria = 2 then some (.enSecundaria e.nroEnMemoria)
  else none

/-- `imprimirTablaPaginacion`: the lines of the active processes, each with its cells. -/
def imprimirTablaPaginacion (procesos : Fin MAX_PROCESOS → Proceso) : List (Int × List Celda) :=
  (List.finRange MAX_PROCESOS).filterMap fun j =>
    if (procesos j).activo = 1 ∧ (procesos j).pid ≠ -1 then
      some ((procesos j).pid, (List.finRange VIRTUAL).filterMap fun k => ((procesos j).paginas k).celda)
    else none

/-- `pid.indice` as printed for a frame, or `-` for a free one. -/
def Pagina.impresa (e : Pagina) : Option (Int × Int) :=
  if e.pid = -1 then none else some (e.pid, e.indice)

def imprimirMemorias (ram : Ram) (memSecundaria : MemSecundaria) :
    List (Option (Int × Int)) × List (Option (Int × Int)) :=
  ((List.finRange FISICA).map fun j => (ram.paginas j).impresa,
    (List.finRange SWAP).map fun i => (memSecundaria.paginas i).impresa)

/-- The page tables, the memories and the messages of a run, with every field of every loaded entry
and of every frame in use. -/
@[ext]
structure Resultado where
  tablas : Fin MAX_PROCESOS → Option (Int × Int × (Fin VIRTUAL → Option Pagina))
  ram : Fin FISICA → Option Pagina
  memSecundaria : Fin SWAP → Option Pagina
  mensajes : List Mensaje

def Pagina.cargada (e : Pagina) : Option Pagina := if e.nroEnMemoria = -1 then none else some e

def Pagina.enUso (e : Pagina) : Option Pagina := if e.pid = -1 then none else some e

def Estado.resultado (s : Estado) : Resultado where
  tablas := fun p =>
    if (s.procesos p).activo = -1 then none
    else some ((s.procesos p).activo, (s.procesos p).pid, fun q => ((s.procesos p).paginas q).cargada)
  ram := fun k => (s.ram.paginas k).enUso
  memSecundaria := fun i => (s.memSecundaria.paginas i).enUso
  mensajes := s.salida

variable {e e' : Pagina}

theorem celda_eq_of_cargada (h : e.cargada = e'.cargada) : e.celda = e'.celda := by
  by_cases he : e.nroEnMemoria = -1 <;> by_cases he' : e'.nroEnMemoria = -1 <;>
    simp_all [Pagina.cargada, Pagina.celda]

theorem impresa_eq_of_enUso (h : e.enUso = e'.enUso) : e.impresa = e'.impresa := by
  by_cases he : e.pid = -1 <;> by_cases he' : e'.pid = -1 <;>
    simp_all [Pagina.enUso, Pagina.impresa]

theorem imprimirTablaPaginacion_eq {s r : Estado} (h : s.resultado = r.resultado) :
    imprimirTablaPaginacion s.procesos = imprimirTablaPaginacion r.procesos := by
  unfold imprimirTablaPaginacion
  congr 1
  funext p
  have hp := congrFun (congrArg Resultado.tablas h) p
  simp only [Estado.resultado] at hp
  by_cases hs : (s.procesos p).activo = -1 <;> by_cases hr : (r.procesos p).activo = -1
  · simp [hs, hr]
  · simp [hs, hr] at hp
  · simp [hs, hr] at hp
  · simp only [hs, hr, if_false, Option.some.injEq, Prod.mk.injEq] at hp
    obtain ⟨hact, hpid, hpag⟩ := hp
    have hcel : ∀ q, ((s.procesos p).paginas q).celda = ((r.procesos p).paginas q).celda :=
      fun q => celda_eq_of_cargada (congrFun hpag q)
    simp only [hact, hpid, hcel]

theorem imprimirMemorias_eq {s r : Estado} (h : s.resultado = r.resultado) :
    imprimirMemorias s.ram s.memSecundaria = imprimirMemorias r.ram r.memSecundaria := by
  have hram : ∀ k, (s.ram.paginas k).impresa = (r.ram.paginas k).impresa := fun k =>
    impresa_eq_of_enUso (congrFun (congrArg Resultado.ram h) k)
  have hswap : ∀ i, (s.memSecundaria.paginas i).impresa = (r.memSecundaria.paginas i).impresa :=
    fun i => impresa_eq_of_enUso (congrFun (congrArg Resultado.memSecundaria h) i)
  simp only [imprimirMemorias, hram, hswap]

/-! ### Two runs in step -/

/-- The contents of one frame in two runs: free in both, or the same loaded page. -/
def MarcosPar (U : PagVirtual → Prop) (e e' : Pagina) : Prop :=
  (e.pid = -1 ∧ e'.pid = -1) ∨ (e = e' ∧ ∃ x, U x ∧ e'.virtual = some x)

/-- The entry names a frame of the memory it says the page is in. -/
def Pagina.Ubicada (e : Pagina) : Prop :=
  (e.memoria = 1 ∧ ∃ k : Fin FISICA, e.nroEnMemoria = (k.val : Int)) ∨
    (e.memoria = 2 ∧ ∃ i : Fin SWAP, e.nroEnMemoria = (i.val : Int))

/-- Two runs that have loaded the pages `U`. They agree on everything but the free frames, the
processes not yet active and the field `memoria` of the entries not yet loaded. -/
structure Paralelos (s r : Estado) (U : PagVirtual → Prop) : Prop where
  lruIndex : s.lruIndex = r.lruIndex
  fifoIndex : ∃ k : Fin FISICA, s.ram.fifoIndex = (k.val : Int) ∧ r.ram.fifoIndex = (k.val : Int)
  salida : s.salida = r.salida
  marcos : ∀ m, MarcosPar U (s.marco m) (r.marco m)
  activo : ∀ p, (s.procesos p).activo = (r.procesos p).activo
  pid : ∀ p, (r.procesos p).activo ≠ -1 → (s.procesos p).pid = (r.procesos p).pid
  activa : ∀ x, U x → (r.procesos x.1).activo ≠ -1
  cargada : ∀ x, U x → s.tabla x = r.tabla x ∧ (r.tabla x).Ubicada
  propia : ∀ x, (r.procesos x.1).activo ≠ -1 → (r.tabla x).virtual = some x
  resto : ∀ x, ¬U x → (r.procesos x.1).activo ≠ -1 →
    s.tabla x = { r.tabla x with memoria := (s.tabla x).memoria } ∧ (r.tabla x).nroEnMemoria = -1

theorem Pagina.Ubicada.nroEnMemoria_ne (h : e.Ubicada) : e.nroEnMemoria ≠ -1 := by
  rcases h with ⟨-, k, hk⟩ | ⟨-, i, hi⟩
  · omega
  · omega

/-- An entry keeps naming a frame when only `memoria` becomes 2: there are more swap frames than RAM
frames. -/
theorem Pagina.Ubicada.aSecundaria (h : e.Ubicada) : { e with memoria := 2 }.Ubicada := by
  rcases h with ⟨-, k, hk⟩ | ⟨-, i, hi⟩
  · exact .inr ⟨rfl, k.castLE (by decide), hk⟩
  · exact .inr ⟨rfl, i, hi⟩

variable {U : PagVirtual → Prop}

theorem MarcosPar.mono {V : PagVirtual → Prop} (h : MarcosPar U e e')
    (hUV : ∀ x, U x → V x) : MarcosPar V e e' := by
  rcases h with h | ⟨heq, x, hx, hv⟩
  · exact .inl h
  · exact .inr ⟨heq, x, hUV x hx, hv⟩

theorem MarcosPar.libre_iff (h : MarcosPar U e e') :
    e.pid = -1 ↔ e'.pid = -1 := by
  rcases h with ⟨h, h'⟩ | ⟨rfl, -⟩
  · simp only [h, h']
  · exact Iff.rfl

theorem MarcosPar.cambia (h : MarcosPar U e e')
    (f : Pagina → Pagina) (hpid : ∀ e, (f e).pid = e.pid) (hind : ∀ e, (f e).indice = e.indice) :
    MarcosPar U (f e) (f e') := by
  rcases h with ⟨h, h'⟩ | ⟨rfl, x, hx, hv⟩
  · exact .inl ⟨(hpid e).trans h, (hpid e').trans h'⟩
  · refine .inr ⟨rfl, x, hx, ?_⟩
    rw [virtual_eq_some] at hv ⊢
    rw [hpid, hind]
    exact hv

theorem primerHueco_congr {n : Nat} {paginas paginas' : Fin n → Pagina}
    (h : ∀ k, (paginas k).pid = -1 ↔ (paginas' k).pid = -1) : primerHueco paginas = primerHueco paginas' := by
  simp only [primerHueco, h]

/-- The assignments through the `pid` and `indice` of a frame go to the entry of the page it holds. -/
theorem cambiarEntrada_de_marco {v : PagVirtual} (hv : e.virtual = some v) (s : Estado) (f : Pagina → Pagina) :
    s.cambiarEntrada e.pid e.indice f = s.cambiarEntrada ((v.1.val : Int) + 1) (v.2.val : Int) f := by
  obtain ⟨hpid, hind⟩ := virtual_eq_some.mp hv
  rw [hpid, hind]

variable {i : Fin SWAP}

namespace Paralelos

variable {s r : Estado} {U : PagVirtual → Prop} {x v : PagVirtual} {e e' : Pagina}

theorem hueco_ram (h : Paralelos s r U) : primerHueco s.ram.paginas = primerHueco r.ram.paginas :=
  primerHueco_congr fun k => (h.marcos (.inl k)).libre_iff

theorem hueco_swap (h : Paralelos s r U) :
    primerHueco s.memSecundaria.paginas = primerHueco r.memSecundaria.paginas :=
  primerHueco_congr fun i => (h.marcos (.inr i)).libre_iff

theorem marco_eq (h : Paralelos s r U) {m : Marco} (hm : (r.marco m).pid ≠ -1) :
    s.marco m = r.marco m ∧ ∃ v, U v ∧ (r.marco m).virtual = some v := by
  rcases h.marcos m with ⟨-, hpid⟩ | heq
  · exact absurd hpid hm
  · exact heq

theorem resultado_eq (h : Paralelos s r U) : s.resultado = r.resultado := by
  have henUso : ∀ m, (s.marco m).enUso = (r.marco m).enUso := by
    intro m
    rcases h.marcos m with ⟨hs, hr⟩ | ⟨heq, -⟩
    · simp only [Pagina.enUso, hs, hr, if_true]
    · rw [heq]
  have htablas : s.resultado.tablas = r.resultado.tablas := by
    funext p
    simp only [Estado.resultado, h.activo]
    by_cases hact : (r.procesos p).activo = -1
    · simp only [hact, if_true]
    simp only [hact, if_false, h.pid p hact, Option.some.injEq, Prod.mk.injEq, true_and]
    funext q
    change (s.tabla (p, q)).cargada = (r.tabla (p, q)).cargada
    by_cases hU : U (p, q)
    · rw [(h.cargada _ hU).1]
    · obtain ⟨heq, hn⟩ := h.resto (p, q) hU hact
      rw [heq]
      simp only [Pagina.cargada, hn, if_true]
  have hram : s.resultado.ram = r.resultado.ram := funext fun k => henUso (.inl k)
  have hswap : s.resultado.memSecundaria = r.resultado.memSecundaria := funext fun i => henUso (.inr i)
  exact Resultado.ext htablas hram hswap h.salida

/-! Each assignment of the loop body, made in both runs, keeps them in step. -/

section

variable (h : Paralelos s r U)

include h

theorem imprimir (m : Mensaje) : Paralelos (s.imprimir m) (r.imprimir m) U :=
  { h with salida := by simp only [Estado.imprimir, h.salida] }

theorem avanzarLru : Paralelos s.avanzarLru r.avanzarLru U :=
  { h with lruIndex := by simp only [Estado.avanzarLru, h.lruIndex] }

theorem avanzarFifo : Paralelos s.avanzarFifo r.avanzarFifo U := by
  obtain ⟨k, hs, hr⟩ := h.fifoIndex
  refine { h with fifoIndex := ⟨siguiente k, ?_, ?_⟩, marcos := ?_ }
  · rw [← siguiente_val, ← hs]
    rfl
  · rw [← siguiente_val, ← hr]
    rfl
  · simpa only [Estado.marco_avanzarFifo] using h.marcos

theorem ponerMarco (k : Fin FISICA) (he : MarcosPar U e e') :
    Paralelos (s.ponerMarco k e) (r.ponerMarco k e') U := by
  refine { h with marcos := ?_ }
  intro m
  rw [Estado.marco_ponerMarco, Estado.marco_ponerMarco]
  by_cases hm : m = .inl k
  · subst hm
    simpa only [update_self] using he
  · simpa only [update_of_ne hm] using h.marcos m

theorem ponerSwap (i : Fin SWAP) (he : MarcosPar U e e') :
    Paralelos (s.ponerSwap i e) (r.ponerSwap i e') U := by
  refine { h with marcos := ?_ }
  intro m
  rw [Estado.marco_ponerSwap, Estado.marco_ponerSwap]
  by_cases hm : m = .inr i
  · subst hm
    simpa only [update_self] using he
  · simpa only [update_of_ne hm] using h.marcos m

theorem ponerEntrada (hact : (r.procesos x.1).activo ≠ -1) (hv : e.virtual = some x) (he : e.Ubicada) :
    Paralelos (s.ponerEntrada x.1 x.2 e) (r.ponerEntrada x.1 x.2 e) (fun y => U y ∨ y = x) := by
  have hpid : ∀ (s : Estado) p, ((s.ponerEntrada x.1 x.2 e).procesos p).pid = (s.procesos p).pid := by
    intro s p
    simp only [Estado.ponerEntrada, Estado.ponerProceso]
    by_cases hp : p = x.1
    · subst hp
      rw [update_self]
    · rw [update_of_ne hp]
  refine ⟨h.lruIndex, h.fifoIndex, h.salida, ?_, ?_, ?_, ?_, ?_, ?_, ?_⟩
  · intro m
    exact (h.marcos m).mono fun y hy => .inl hy
  · simpa only [Estado.activo_ponerEntrada] using h.activo
  · intro p hp
    rw [Estado.activo_ponerEntrada] at hp
    rw [hpid, hpid, h.pid p hp]
  · intro y hy
    rw [Estado.activo_ponerEntrada]
    rcases hy with hy | rfl
    · exact h.activa y hy
    · exact hact
  · intro y hy
    simp only [Estado.tabla_ponerEntrada]
    by_cases hyx : y = x
    · subst hyx
      simpa only [update_self, true_and] using he
    · simpa only [update_of_ne hyx] using h.cargada y (hy.resolve_right hyx)
  · intro y hy
    rw [Estado.activo_ponerEntrada] at hy
    rw [Estado.tabla_ponerEntrada]
    by_cases hyx : y = x
    · subst hyx
      rw [update_self]
      exact hv
    · rw [update_of_ne hyx]
      exact h.propia y hy
  · intro y hy hact'
    rw [Estado.activo_ponerEntrada] at hact'
    have hyx : y ≠ x := fun he => hy (.inr he)
    simp only [Estado.tabla_ponerEntrada, update_of_ne hyx]
    exact h.resto y (fun hU => hy (.inl hU)) hact'

end

theorem mas (h : Paralelos s r (fun y => U y ∨ y = x)) (hx : U x) : Paralelos s r U := by
  rwa [tocadas_mas hx] at h

section

variable (h : Paralelos s r U)

include h

theorem cambiarEntrada (hx : U x) (f : Pagina → Pagina)
    (hv : ∀ e, (f e).virtual = e.virtual) (hf : ∀ e, e.Ubicada → (f e).Ubicada) :
    BothEnd (fun s' r' => Paralelos s' r' U ∧ s'.ram = s.ram ∧ r'.ram = r.ram)
      (s.cambiarEntrada x.pid x.pagina f) (r.cambiarEntrada x.pid x.pagina f) := by
  obtain ⟨heq, hub⟩ := h.cargada x hx
  have hact := h.activa x hx
  rw [Estado.cambiarEntrada_virtual, Estado.cambiarEntrada_virtual]
  rw [heq]
  exact .ok ⟨(h.ponerEntrada hact ((hv _).trans (h.propia x hact)) (hf _ hub)).mas hx, rfl, rfl⟩

theorem marcarCargada (hx : ¬U x) (hact : (r.procesos x.1).activo ≠ -1) (k : Fin FISICA) :
    BothEnd (fun s' r' => Paralelos s' r' (fun y => U y ∨ y = x) ∧ s'.ram = s.ram ∧
        s'.memSecundaria = s.memSecundaria ∧ r'.ram = r.ram ∧ r'.memSecundaria = r.memSecundaria)
      (Sim.marcarCargada x.pid x.pagina (k.val : Int) s)
      (Sim.marcarCargada x.pid x.pagina (k.val : Int) r) := by
  obtain ⟨heq, -⟩ := h.resto x hx hact
  have hcargada : ∀ t : Estado, Sim.marcarCargada x.pid x.pagina (k.val : Int) t =
      .ok (t.ponerEntrada x.1 x.2 (t.cargada x k)).avanzarLru := fun t => marcarCargada_spec t x k
  have hnueva : s.cargada x k = r.cargada x k := by
    simp only [Estado.cargada, h.lruIndex]
    rw [heq]
  rw [hcargada, hcargada, hnueva]
  have hv : (r.cargada x k).virtual = some x := h.propia x hact
  exact .ok ⟨(h.ponerEntrada hact hv (.inl ⟨rfl, k, rfl⟩)).avanzarLru, rfl, rfl, rfl, rfl⟩

theorem inicializar (x : PagVirtual) :
    BothEnd (fun s' r' => Paralelos s' r' U ∧ (r'.procesos x.1).activo ≠ -1 ∧
        (s'.tabla x).memoria = (s.tabla x).memoria ∧ (r'.tabla x).memoria = (r.tabla x).memoria ∧
        s'.ram = s.ram ∧ r'.ram = r.ram ∧ s'.memSecundaria = s.memSecundaria ∧ r'.memSecundaria = r.memSecundaria)
      (inicializarProcesoSiEsNecesario x.pid s) (inicializarProcesoSiEsNecesario x.pid r) := by
  simp only [inicializarProcesoSiEsNecesario, Int.add_sub_cancel, indexar_val, ok_bind, h.activo x.1]
  by_cases hact : (r.procesos x.1).activo = -1
  · simp only [if_pos hact]
    have hout : ∀ y : PagVirtual, U y → y.1 ≠ x.1 := fun y hy he => h.activa y hy (by rw [he]; exact hact)
    refine .ok ⟨⟨h.lruIndex, h.fifoIndex, h.salida, h.marcos, ?_, ?_, ?_, ?_, ?_, ?_⟩, ?_, ?_, ?_,
      rfl, rfl, rfl, rfl⟩
    · intro p
      by_cases hp : p = x.1
      · simp [Estado.ponerProceso, hp]
      · simpa [Estado.ponerProceso, hp] using h.activo p
    · intro p hp'
      by_cases hp : p = x.1
      · simp [Estado.ponerProceso, hp]
      · simp only [Estado.ponerProceso, update_of_ne hp] at hp' ⊢
        exact h.pid p hp'
    · intro y hy
      simpa [Estado.ponerProceso, hout y hy] using h.activa y hy
    · intro y hy
      simpa [Estado.tabla, Estado.ponerProceso, hout y hy] using h.cargada y hy
    · intro y hy
      by_cases hyx : y.1 = x.1
      · simp [Estado.tabla, Estado.ponerProceso, hyx, virtual_eq_some]
      · simp only [Estado.tabla, Estado.ponerProceso, update_of_ne hyx] at hy ⊢
        exact h.propia y hy
    · intro y hU hy
      by_cases hyx : y.1 = x.1
      · simp [Estado.tabla, Estado.ponerProceso, hyx]
      · simp only [Estado.tabla, Estado.ponerProceso, update_of_ne hyx] at hy ⊢
        exact h.resto y hU hy
    · simp [Estado.ponerProceso]
    · simp [Estado.tabla, Estado.ponerProceso]
    · simp [Estado.tabla, Estado.ponerProceso]
  · simp only [if_neg hact]
    exact .ok ⟨h, hact, rfl, rfl, rfl, rfl, rfl, rfl⟩

theorem intercambiar (hx : U x) (i : Fin SWAP) {k : Fin FISICA} (hk : (r.ram.paginas k).pid ≠ -1) :
    BothEnd (fun s' r' => Paralelos s' r' U) (Sim.intercambiar x.pid x.pagina i k s)
      (Sim.intercambiar x.pid x.pagina i k r) := by
  obtain ⟨heq, v, hU, hv⟩ := h.marco_eq (m := .inl k) hk
  change s.ram.paginas k = r.ram.paginas k at heq
  have hswap := h.marcos (.inr i)
  have hentrada : ∀ (t : Estado) f, t.cambiarEntrada (r.ram.paginas k).pid (r.ram.paginas k).indice f =
      t.cambiarEntrada ((v.1.val : Int) + 1) (v.2.val : Int) f := cambiarEntrada_de_marco hv
  simp only [Sim.intercambiar, heq, hentrada]
  have h₁ := h.ponerSwap (e := { r.ram.paginas k with memoria := 2 }) i (.inr ⟨rfl, v, hU, hv⟩)
  refine (h₁.cambiarEntrada hU (fun e => { e with nroEnMemoria := i.val, memoria := 2 }) (fun _ => rfl)
    fun _ _ => .inr ⟨rfl, i, rfl⟩).bind ?_
  intro s₂ r₂ h₂
  have h₃ := h₂.1.ponerMarco k (hswap.cambia (fun e => { e with memoria := 1 }) (fun _ => rfl) fun _ => rfl)
  exact (h₃.cambiarEntrada hx (fun e => { e with nroEnMemoria := k.val, memoria := 1 }) (fun _ => rfl)
    fun _ _ => .inl ⟨rfl, k, rfl⟩).mono fun _ _ h' => h'.1

theorem ponerLru (hx : U x) :
    BothEnd (fun s' r' => Paralelos s' r' U)
      (s.cambiarEntrada x.pid x.pagina fun e => { e with lruIndice := s.lruIndex })
      (r.cambiarEntrada x.pid x.pagina fun e => { e with lruIndice := r.lruIndex }) := by
  rw [h.lruIndex]
  exact (h.cambiarEntrada hx (fun e => { e with lruIndice := r.lruIndex }) (fun _ => rfl)
    fun _ he => he).mono fun _ _ h' => h'.1

theorem selloMarco (k : Fin FISICA) :
    Paralelos (s.ponerMarco k { s.ram.paginas k with lruIndice := s.lruIndex })
      (r.ponerMarco k { r.ram.paginas k with lruIndice := r.lruIndex }) U := by
  rw [h.lruIndex]
  exact h.ponerMarco k
    ((h.marcos (.inl k)).cambia (fun e => { e with lruIndice := r.lruIndex }) (fun _ => rfl) fun _ => rfl)

/-- An access to a loaded page, mode `l`. A page in the secondary memory is exchanged for the RAM
frame of smallest `lruIndice`; all the RAM frames are in use then. -/
theorem gestionar_lru (hx : U x) (hllena : (r.tabla x).memoria = 2 → ∀ k, (r.ram.paginas k).pid ≠ -1) :
    BothEnd (fun a b => a.1 = 0 ∧ b.1 = 0 ∧ Paralelos a.2 b.2 U)
      (gestionarProcesoEnMemoria 'l' x.pid x.pagina s)
      (gestionarProcesoEnMemoria 'l' x.pid x.pagina r) := by
  obtain ⟨heq, hub⟩ := h.cargada x hx
  simp only [gestionarProcesoEnMemoria, if_true, Estado.entrada_virtual, ok_bind, heq]
  rcases hub with ⟨hm, k, hk⟩ | ⟨hm, i, hi⟩
  · simp only [if_pos hm, hk, indexar_val, ok_bind, h.lruIndex]
    have h₁ := h.imprimir (.actualizandoLru x.pid x.pagina (r.tabla x).lruIndice r.lruIndex)
    refine (h₁.ponerLru hx).bind ?_
    intro s₂ r₂ h₂
    exact .ok ⟨rfl, rfl, (h₂.selloMarco k).avanzarLru⟩
  · have hm1 : ¬(r.tabla x).memoria = 1 := by omega
    have hram : s.ram.paginas = r.ram.paginas := by
      funext k
      exact (h.marco_eq (m := .inl k) (hllena hm k)).1
    simp only [if_neg hm1, if_pos hm, hi, indexar_val, ok_bind, Estado.ram_imprimir, hram]
    refine (((((h.imprimir _).imprimir _).imprimir _).imprimir _).intercambiar hx i ?_).bind ?_
    · exact hllena hm _
    intro s₂ r₂ h₂
    refine ((h₂.selloMarco _).ponerLru hx).bind ?_
    intro s₃ r₃ h₃
    exact .ok ⟨rfl, rfl, h₃.avanzarLru⟩

theorem gestionar_fifo (hx : U x) (hfifo : (r.tabla x).memoria = 2 → ∀ k : Fin FISICA, r.ram.fifoIndex = (k.val : Int) →
      (r.ram.paginas k).pid ≠ -1) :
    BothEnd (fun a b => a.1 = 0 ∧ b.1 = 0 ∧ Paralelos a.2 b.2 U)
      (gestionarProcesoEnMemoria 'f' x.pid x.pagina s)
      (gestionarProcesoEnMemoria 'f' x.pid x.pagina r) := by
  obtain ⟨heq, hub⟩ := h.cargada x hx
  obtain ⟨k, hks, hkr⟩ := h.fifoIndex
  simp only [gestionarProcesoEnMemoria, Char.reduceEq, if_false, if_true, Estado.entrada_virtual, ok_bind,
    heq]
  rcases hub with ⟨hm, -⟩ | ⟨hm, i, hi⟩
  · simp only [if_pos hm]
    exact .ok ⟨rfl, rfl, h.imprimir _⟩
  · have hm1 : ¬(r.tabla x).memoria = 1 := by omega
    simp only [if_neg hm1, if_pos hm, hi, Estado.ram_imprimir, hks, hkr, indexar_val, ok_bind]
    refine ((h.imprimir _).intercambiar hx i ?_).bind ?_
    · exact hfifo hm k hkr
    intro s₂ r₂ h₂
    exact .ok ⟨rfl, rfl, h₂.avanzarFifo⟩

theorem ponerNueva (hx : U x) (k : Fin FISICA) :
    Paralelos (s.ponerMarco k (s.tabla x)) (r.ponerMarco k (r.tabla x)) U := by
  rw [(h.cargada x hx).1]
  exact h.ponerMarco k (.inr ⟨rfl, x, hx, h.propia x (h.activa x hx)⟩)

/-- The evicted page of a RAM frame in use goes to the swap frame `i`, and its entry to `f` of it. -/
theorem desalojar (i : Fin SWAP) {victima : Pagina} (hv : victima.virtual = some v)
    (hU : U v) (f : Pagina → Pagina) (hvirt : ∀ e, (f e).virtual = e.virtual) (hf : ∀ e, e.Ubicada → (f e).Ubicada) :
    BothEnd (fun s' r' => Paralelos s' r' U ∧ s'.ram = s.ram ∧ r'.ram = r.ram)
      ((s.ponerSwap i { victima with memoria := 2 }).cambiarEntrada victima.pid victima.indice f)
      ((r.ponerSwap i { victima with memoria := 2 }).cambiarEntrada victima.pid victima.indice f) := by
  rw [cambiarEntrada_de_marco hv, cambiarEntrada_de_marco hv]
  have h₁ := h.ponerSwap (e := { victima with memoria := 2 }) i (.inr ⟨rfl, v, hU, hv⟩)
  exact h₁.cambiarEntrada hU f hvirt hf

end

theorem cargar_libre (modo : Char) (h : Paralelos s r U) (hx : ¬U x)
    (hact : (r.procesos x.1).activo ≠ -1) {j : Fin FISICA} (hj : primerHueco r.ram.paginas = some j) :
    BothEnd (fun s' r' => Paralelos s' r' (fun y => U y ∨ y = x)) (cargar modo x.pid x.pagina s)
      (cargar modo x.pid x.pagina r) := by
  simp only [cargar, h.hueco_ram, hj]
  refine (h.marcarCargada hx hact j).bind ?_
  rintro s₁ r₁ ⟨h₁, -⟩
  simp only [Estado.entrada_virtual, ok_bind]
  exact .ok ((h₁.ponerNueva (.inr rfl) j).imprimir _)

theorem reemplazoFifo (h : Paralelos s r U) (hx : ¬U x) (hact : (r.procesos x.1).activo ≠ -1)
    (hram : ∀ k, (r.ram.paginas k).pid ≠ -1) (hi : primerHueco r.memSecundaria.paginas = some i) :
    BothEnd (fun s' r' => Paralelos s' r' (fun y => U y ∨ y = x)) (Sim.reemplazoFifo x.pid x.pagina s)
      (Sim.reemplazoFifo x.pid x.pagina r) := by
  obtain ⟨k, hks, hkr⟩ := h.fifoIndex
  obtain ⟨heq, v, hU, hv⟩ := h.marco_eq (m := .inl k) (hram k)
  change s.ram.paginas k = r.ram.paginas k at heq
  simp only [Sim.reemplazoFifo, Estado.memSecundaria_imprimir, h.hueco_swap, hi, Estado.ram_imprimir, hks, hkr]
  refine ((h.imprimir .sinHuecoFifo).marcarCargada hx hact k).bind ?_
  rintro s₁ r₁ ⟨h₁, hrs, -, hrr, -⟩
  simp only [hrs, hrr, Estado.ram_imprimir, hks, hkr, indexar_val, ok_bind, heq]
  refine (h₁.desalojar i hv (.inl hU) (fun e => { e with memoria := 2 }) (fun _ => rfl)
    fun _ he => he.aSecundaria).bind ?_
  rintro s₂ r₂ ⟨h₂, hs₂, hr₂⟩
  have hfs : s₂.ram.fifoIndex = (k.val : Int) := by rw [hs₂, hrs]; exact hks
  have hfr : r₂.ram.fifoIndex = (k.val : Int) := by rw [hr₂, hrr]; exact hkr
  simp only [pure_eq_ok, ok_bind, Estado.ram_imprimir, hfs, hfr, indexar_val, Estado.fifo_ponerMarco,
    Estado.entrada_virtual]
  exact .ok ((((h₂.imprimir _).ponerNueva (.inr rfl) k).imprimir _).avanzarFifo)

theorem reemplazoLru (h : Paralelos s r U) (hx : ¬U x) (hact : (r.procesos x.1).activo ≠ -1)
    (hram : ∀ k, (r.ram.paginas k).pid ≠ -1) (hi : primerHueco r.memSecundaria.paginas = some i) :
    BothEnd (fun s' r' => Paralelos s' r' (fun y => U y ∨ y = x)) (Sim.reemplazoLru x.pid x.pagina s)
      (Sim.reemplazoLru x.pid x.pagina r) := by
  have heq : s.ram.paginas = r.ram.paginas := by
    funext k
    exact (h.marco_eq (m := .inl k) (hram k)).1
  obtain ⟨-, v, hU, hv⟩ := h.marco_eq (m := .inl (menorLru r.ram.paginas).1) (hram _)
  simp only [Sim.reemplazoLru, Estado.memSecundaria_imprimir, h.hueco_swap, hi, Estado.ram_imprimir, heq]
  refine (((h.imprimir .sinHuecoLru).imprimir _).marcarCargada hx hact _).bind ?_
  rintro s₁ r₁ ⟨h₁, -⟩
  refine (h₁.desalojar i hv (.inl hU) (fun e => { e with memoria := 2, nroEnMemoria := i.val })
    (fun _ => rfl) fun _ _ => .inr ⟨rfl, i, rfl⟩).bind ?_
  rintro s₂ r₂ ⟨h₂, -⟩
  simp only [pure_eq_ok, ok_bind, Estado.entrada_virtual, Estado.lru_ponerMarco, Estado.lru_imprimir,
    h₂.lruIndex]
  exact .ok (((h₂.imprimir _).ponerNueva (.inr rfl) _).imprimir _)

theorem cargar {modo : Char} (hmodo : modo = 'f' ∨ modo = 'l') (h : Paralelos s r U) (hx : ¬U x)
    (hact : (r.procesos x.1).activo ≠ -1) (hi : primerHueco r.memSecundaria.paginas = some i) :
    BothEnd (fun s' r' => Paralelos s' r' (fun y => U y ∨ y = x)) (Sim.cargar modo x.pid x.pagina s)
      (Sim.cargar modo x.pid x.pagina r) := by
  cases hj : primerHueco r.ram.paginas with
  | some j => exact h.cargar_libre modo hx hact hj
  | none =>
    have hram := primerHueco_eq_none.mp hj
    rcases hmodo with rfl | rfl
    · simp only [Sim.cargar, h.hueco_ram, hj, if_true, Char.reduceEq, if_false]
      exact (h.reemplazoFifo hx hact hram hi).bind fun s' r' h' => .ok h'
    · simp only [Sim.cargar, h.hueco_ram, hj, if_true, Char.reduceEq, if_false, pure_eq_ok, ok_bind]
      exact h.reemplazoLru hx hact hram hi

/-! ### One access -/

theorem symm (h : Paralelos s r U) : Paralelos r s U := by
  obtain ⟨k, hks, hkr⟩ := h.fifoIndex
  have hvirt : ∀ y, (r.procesos y.1).activo ≠ -1 → (s.tabla y).virtual = (r.tabla y).virtual := by
    intro y hy
    by_cases hU : U y
    · rw [(h.cargada y hU).1]
    · rw [(h.resto y hU hy).1]
      rfl
  refine ⟨h.lruIndex.symm, ⟨k, hkr, hks⟩, h.salida.symm, ?_, fun p => (h.activo p).symm, ?_, ?_, ?_, ?_, ?_⟩
  · intro m
    rcases h.marcos m with ⟨hs, hr⟩ | ⟨heq, y, hy, hv⟩
    · exact .inl ⟨hr, hs⟩
    · exact .inr ⟨heq.symm, y, hy, by rw [heq]; exact hv⟩
  · intro p hp
    rw [h.activo] at hp
    exact (h.pid p hp).symm
  · intro y hy
    rw [h.activo]
    exact h.activa y hy
  · intro y hy
    obtain ⟨heq, hub⟩ := h.cargada y hy
    exact ⟨heq.symm, heq ▸ hub⟩
  · intro y hy
    rw [h.activo] at hy
    rw [hvirt y hy]
    exact h.propia y hy
  · intro y hU hy
    rw [h.activo] at hy
    obtain ⟨heq, hn⟩ := h.resto y hU hy
    rw [heq]
    exact ⟨rfl, hn⟩

theorem derecha (h : Paralelos s r U) : Paralelos r r U := by
  obtain ⟨k, -, hkr⟩ := h.fifoIndex
  refine ⟨rfl, ⟨k, hkr, hkr⟩, rfl, ?_, fun p => rfl, fun p _ => rfl, h.activa,
    fun y hy => ⟨rfl, (h.cargada y hy).2⟩, h.propia, fun y hU hy => ⟨rfl, (h.resto y hU hy).2⟩⟩
  intro m
  rcases h.marcos m with ⟨-, hr⟩ | ⟨-, hv⟩
  · exact .inl ⟨hr, hr⟩
  · exact .inr ⟨rfl, hv⟩

end Paralelos
end Laboratorio.Sim
