import Mathlib.Data.List.FinRange
import Mathlib.Data.Int.Basic
import Mathlib.Logic.Function.Basic
import Mathlib.Algebra.Group.Nat.Defs
import Mathlib.Algebra.Group.Int.Defs

/-! The paging simulator of `lab-07/sim.c`: the page tables, the RAM frames and the swap frames,
and the body of the reading loop of `main` as one function from state to state. Every index the
C code applies to an array goes through `indexar`, so an access outside an array is the outcome
`fueraDeRango` and never a silent read. Signed `int` counters wrap at 32 bits. -/

namespace Laboratorio.Sim

open Function

abbrev VIRTUAL : Nat := 16
abbrev FISICA : Nat := 8
abbrev SWAP : Nat := 16
abbrev MAX_PROCESOS : Nat := 100

structure Pagina where
  pid : Int
  indice : Int
  nroEnMemoria : Int
  memoria : Int
  lruIndice : Int
  deriving DecidableEq

structure Proceso where
  pid : Int
  paginas : Fin VIRTUAL → Pagina
  activo : Int

structure Ram where
  paginas : Fin FISICA → Pagina
  fifoIndex : Int

structure MemSecundaria where
  paginas : Fin SWAP → Pagina

/-- The lines the simulator prints, one constructor for each `printf` of the loop. -/
inductive Mensaje where
  | actualizandoLru (pid pagina viejo nuevo : Int)
  | estaEnSecundaria (pagina pid marcoSwap : Int)
  | paginaAReemplazarEnRam (pid pagina marco lru : Int)
  | moviendoARam (pid pagina marcoSwap marcoRam : Int)
  | guardandoEnSecundaria (pid pagina lru : Int)
  | yaEnMemoria (pagina pid : Int)
  | cargandoEnRam (pid pagina marco : Int)
  | sinHuecoFifo
  | moviendoASecundaria (pid pagina marco marcoSwap : Int)
  | sinHuecoLru
  | paginaAReemplazar (pid pagina marco lru : Int)
  | moviendoASecundariaLru (pid pagina marco marcoSwap lru : Int)
  | cargandoEnRamLru (pid pagina marco lru : Int)
  deriving DecidableEq

/-- The ways the loop is left before the end of the input. The first two are the `exit` calls with
their message, the last is an array access outside its bounds. -/
inductive Parada where
  | noSeSoporta (pid pagina : Int)
  | memoriaSecundariaLlena
  | fueraDeRango
  deriving DecidableEq

/-- The variables of `main` together with the global `lruIndex` and the printed lines. -/
structure Estado where
  procesos : Fin MAX_PROCESOS → Proceso
  ram : Ram
  memSecundaria : MemSecundaria
  lruIndex : Int
  salida : List Mensaje

abbrev Res (α : Type) := Except Parada α

/-- The position an `int` denotes in an array of `n` elements. -/
def indexar (n : Nat) (i : Int) : Res (Fin n) :=
  if h : 0 ≤ i ∧ i < n then .ok ⟨i.toNat, by omega⟩ else .error .fueraDeRango

def incInt (i : Int) : Int := Int.bmod (i + 1) (2 ^ 32)

namespace Estado

section

variable (s : Estado)

def entrada (pid pagina : Int) : Res Pagina := do
  let p ← indexar MAX_PROCESOS (pid - 1)
  let q ← indexar VIRTUAL pagina
  return (s.procesos p).paginas q

def ponerProceso (p : Fin MAX_PROCESOS) (proceso : Proceso) : Estado :=
  { s with procesos := update s.procesos p proceso }

def ponerEntrada (p : Fin MAX_PROCESOS) (q : Fin VIRTUAL) (e : Pagina) : Estado :=
  s.ponerProceso p
    { s.procesos p with paginas := update (s.procesos p).paginas q e }

/-- Assignments to fields of `procesos[pid - 1].paginas[pagina]`. -/
def cambiarEntrada (pid pagina : Int) (f : Pagina → Pagina) : Res Estado := do
  let p ← indexar MAX_PROCESOS (pid - 1)
  let q ← indexar VIRTUAL pagina
  return s.ponerEntrada p q (f ((s.procesos p).paginas q))

def ponerMarco (k : Fin FISICA) (e : Pagina) : Estado :=
  { s with ram := { s.ram with paginas := update s.ram.paginas k e } }

def ponerSwap (k : Fin SWAP) (e : Pagina) : Estado :=
  { s with memSecundaria := { paginas := update s.memSecundaria.paginas k e } }

def imprimir (m : Mensaje) : Estado := { s with salida := s.salida ++ [m] }

def avanzarFifo : Estado :=
  { s with ram := { s.ram with fifoIndex := (s.ram.fifoIndex + 1).tmod FISICA } }

def avanzarLru : Estado := { s with lruIndex := incInt s.lruIndex }

end

end Estado

/-- The first position whose `pid` is `-1`, as the loops over `ram.paginas` and
`memSecundaria.paginas` find it. -/
def primerHueco {n : Nat} (paginas : Fin n → Pagina) : Option (Fin n) :=
  (List.finRange n).find? fun i => (paginas i).pid = -1

/-- The scan for the RAM frame of smallest `lruIndice`, from frame 0 on and replacing the candidate
only by a strictly smaller one. Returns the frame and its `lruIndice`. -/
def menorLru (paginas : Fin FISICA → Pagina) : Fin FISICA × Int :=
  ((List.finRange FISICA).drop 1).foldl
    (fun menor i =>
      if (paginas i).lruIndice < menor.2 then (i, (paginas i).lruIndice) else menor)
    (⟨0, by decide⟩, (paginas ⟨0, by decide⟩).lruIndice)

/-- Swap-in: the page of frame `marcoSwap` and the page of frame `marcoRam` change places, and the
entries of both pages are redirected. -/
def intercambiar (pid pagina : Int) (marcoSwap : Fin SWAP) (marcoRam : Fin FISICA)
    (s : Estado) : Res Estado := do
  let paginaEnSwap := s.memSecundaria.paginas marcoSwap
  let paginaEnRAM := s.ram.paginas marcoRam
  let s := s.ponerSwap marcoSwap { paginaEnRAM with memoria := 2 }
  let s ← s.cambiarEntrada paginaEnRAM.pid paginaEnRAM.indice fun e =>
    { e with nroEnMemoria := marcoSwap, memoria := 2 }
  let s := s.ponerMarco marcoRam { paginaEnSwap with memoria := 1 }
  s.cambiarEntrada pid pagina fun e => { e with nroEnMemoria := marcoRam, memoria := 1 }

/-- `gestionarProcesoEnMemoria`: the access is served from the page tables (result 0) or the page
has to be loaded (result 1). -/
def gestionarProcesoEnMemoria (modo : Char) (pid pagina : Int) (s : Estado) :
    Res (Int × Estado) := do
  if modo = 'l' then
    let e ← s.entrada pid pagina
    if e.memoria = 1 then
      let s := s.imprimir (.actualizandoLru pid pagina e.lruIndice s.lruIndex)
      let s ← s.cambiarEntrada pid pagina fun e => { e with lruIndice := s.lruIndex }
      let k ← indexar FISICA e.nroEnMemoria
      let s := s.ponerMarco k { s.ram.paginas k with lruIndice := s.lruIndex }
      return (0, s.avanzarLru)
    if e.memoria = 2 then
      let marcoSwap ← indexar SWAP e.nroEnMemoria
      let s := s.imprimir (.estaEnSecundaria pagina pid e.nroEnMemoria)
      let (marcoRam, minLruIndice) := menorLru s.ram.paginas
      let paginaEnRAM := s.ram.paginas marcoRam
      let s := s.imprimir
        (.paginaAReemplazarEnRam paginaEnRAM.pid paginaEnRAM.indice marcoRam minLruIndice)
      let s := s.imprimir (.moviendoARam pid pagina e.nroEnMemoria marcoRam)
      let s := s.imprimir
        (.guardandoEnSecundaria paginaEnRAM.pid paginaEnRAM.indice paginaEnRAM.lruIndice)
      let s ← intercambiar pid pagina marcoSwap marcoRam s
      let s := s.ponerMarco marcoRam { s.ram.paginas marcoRam with lruIndice := s.lruIndex }
      let s ← s.cambiarEntrada pid pagina fun e => { e with lruIndice := s.lruIndex }
      return (0, s.avanzarLru)
  if modo = 'f' then
    let e ← s.entrada pid pagina
    if e.memoria = 1 then
      return (0, s.imprimir (.yaEnMemoria pagina pid))
    if e.memoria = 2 then
      let s := s.imprimir (.moviendoARam pid pagina e.nroEnMemoria s.ram.fifoIndex)
      let marcoSwap ← indexar SWAP e.nroEnMemoria
      let marcoRam ← indexar FISICA s.ram.fifoIndex
      let s ← intercambiar pid pagina marcoSwap marcoRam s
      return (0, s.avanzarFifo)
  return (1, s)

def verificarMemoriaSecundaria (m : MemSecundaria) : Res Unit :=
  match primerHueco m.paginas with
  | some _ => .ok ()
  | none => .error .memoriaSecundariaLlena

/-- `inicializarProcesoSiEsNecesario`: the field `memoria` of the pages is not set. -/
def inicializarProcesoSiEsNecesario (pid : Int) (s : Estado) : Res Estado := do
  let p ← indexar MAX_PROCESOS (pid - 1)
  if (s.procesos p).activo = -1 then
    return s.ponerProceso p
      { pid := pid
        activo := 1
        paginas := fun i =>
          { (s.procesos p).paginas i with
            pid := pid, nroEnMemoria := -1, indice := i.val, lruIndice := -1 } }
  else
    return s

/-- The three assignments that mark an entry as loaded into the RAM frame `marco`, and
`lruIndex++`. -/
def marcarCargada (pid pagina marco : Int) (s : Estado) : Res Estado := do
  let s ← s.cambiarEntrada pid pagina fun e =>
    { e with nroEnMemoria := marco, memoria := 1, lruIndice := s.lruIndex }
  return s.avanzarLru

/-- No free RAM frame, mode `f`: the page of frame `fifoIndex` goes to the first free swap frame
and the new page takes its frame. The entry of the evicted page keeps its `nroEnMemoria`. -/
def reemplazoFifo (pid pagina : Int) (s : Estado) : Res Estado := do
  let s := s.imprimir .sinHuecoFifo
  let s ← match primerHueco s.memSecundaria.paginas with
    | none => pure s
    | some i => do
        let s ← marcarCargada pid pagina s.ram.fifoIndex s
        let k ← indexar FISICA s.ram.fifoIndex
        let victima := s.ram.paginas k
        let s := s.ponerSwap i { victima with memoria := 2 }
        let s ← s.cambiarEntrada victima.pid victima.indice fun e => { e with memoria := 2 }
        pure (s.imprimir (.moviendoASecundaria victima.pid victima.indice s.ram.fifoIndex i))
  let k ← indexar FISICA s.ram.fifoIndex
  let e ← s.entrada pid pagina
  let s := s.ponerMarco k e
  let s := s.imprimir (.cargandoEnRam pid pagina s.ram.fifoIndex)
  return s.avanzarFifo

/-- No free RAM frame, mode `l`: as `reemplazoFifo` with the frame of smallest `lruIndice`, and
with the entry of the evicted page redirected to its swap frame. -/
def reemplazoLru (pid pagina : Int) (s : Estado) : Res Estado := do
  let s := s.imprimir .sinHuecoLru
  let (k, _) := menorLru s.ram.paginas
  let victima := s.ram.paginas k
  let s := s.imprimir (.paginaAReemplazar victima.pid victima.indice k victima.lruIndice)
  let s ← match primerHueco s.memSecundaria.paginas with
    | none => pure s
    | some i => do
        let s ← marcarCargada pid pagina k s
        let s := s.ponerSwap i { victima with memoria := 2 }
        let s ← s.cambiarEntrada victima.pid victima.indice fun e =>
          { e with memoria := 2, nroEnMemoria := i }
        pure (s.imprimir
          (.moviendoASecundariaLru victima.pid victima.indice k i victima.lruIndice))
  let e ← s.entrada pid pagina
  let s := s.ponerMarco k e
  return s.imprimir (.cargandoEnRamLru pid pagina k (s.lruIndex - 1))

/-- The part of the loop body behind `gestionarProcesoEnMemoria(...) == 1`: load into the first
free RAM frame, or replace. -/
def cargar (modo : Char) (pid pagina : Int) (s : Estado) : Res Estado :=
  match primerHueco s.ram.paginas with
  | some i => do
      let s ← marcarCargada pid pagina i s
      let e ← s.entrada pid pagina
      let s := s.ponerMarco i e
      return s.imprimir (.cargandoEnRam pid pagina i)
  | none => do
      let s ← if modo = 'f' then reemplazoFifo pid pagina s else pure s
      if modo = 'l' then reemplazoLru pid pagina s else pure s

/-- The statement `if (gestionarProcesoEnMemoria(...) == 1)` of the loop body. -/
def servir (modo : Char) (pid pagina : Int) (s : Estado) : Res Estado := do
  let (r, s) ← gestionarProcesoEnMemoria modo pid pagina s
  if r = 1 then cargar modo pid pagina s else return s

/-- The body of the reading loop of `main` for one pair `(pid, pagina)`. -/
def acceso (modo : Char) (s : Estado) (a : Int × Int) : Res Estado := do
  let (pid, pagina) := a
  if pid > MAX_PROCESOS - 1 ∨ pagina > VIRTUAL - 1 then
    throw (.noSeSoporta pid pagina)
  verificarMemoriaSecundaria s.memSecundaria
  let s ← inicializarProcesoSiEsNecesario pid s
  servir modo pid pagina s

def correr (modo : Char) (s : Estado) (accesos : List (Int × Int)) : Res Estado :=
  accesos.foldlM (acceso modo) s

/-- The state in which `main` enters the loop: it sets `activo`, the `pid` of the frames,
`fifoIndex` and `lruIndex`; everything else is whatever the memory held. -/
structure Inicial (s : Estado) : Prop where
  activo : ∀ p, (s.procesos p).activo = -1
  ram : ∀ k, (s.ram.paginas k).pid = -1
  memSecundaria : ∀ k, (s.memSecundaria.paginas k).pid = -1
  fifoIndex : s.ram.fifoIndex = 0
  lruIndex : s.lruIndex = 0

/-- The state of `main` on entry to the loop when the memory it did not set was zero. -/
def arranque : Estado where
  procesos := fun _ => { pid := 0, paginas := fun _ => ⟨0, 0, 0, 0, 0⟩, activo := -1 }
  ram := { paginas := fun _ => ⟨-1, 0, 0, 0, 0⟩, fifoIndex := 0 }
  memSecundaria := { paginas := fun _ => ⟨-1, 0, 0, 0, 0⟩ }
  lruIndex := 0
  salida := []

theorem arranque_inicial : Inicial arranque :=
  ⟨fun _ => rfl, fun _ => rfl, fun _ => rfl, rfl, rfl⟩

end Laboratorio.Sim
