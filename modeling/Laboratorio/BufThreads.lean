import Laboratorio.RingBuffer
import Laboratorio.Semaphore
import Laboratorio.Trace

/-! The bounded buffer of `lab-05/buf.c`: `main`, the producer and the consumer as three threads that
take turns in any order. A call of `sem_wait` or `pthread_mutex_lock` and its return are two steps, so
a thread can be seen blocked in between. An operation on an object that `main` has destroyed has no
defined outcome: the run ends there, with `indefinido` set. -/

namespace Laboratorio.Buf

open Function

/-- The two numbers of the command line that reach the threads; `main` exits unless both are
positive. -/
structure Params where
  size : ℕ
  items : ℕ
  size_pos : 0 < size
  items_pos : 0 < items

instance (p : Params) : NeZero p.size := ⟨Nat.pos_iff_ne_zero.mp p.size_pos⟩

inductive Hilo where
  | producer
  | consumer
  deriving DecidableEq

inductive Semaforo where
  | vacios
  | llenos
  deriving DecidableEq

inductive Objeto where
  | sem (x : Semaforo)
  | mutex
  deriving DecidableEq

/-- Where a thread is in its loop. In `enWait` and `enLock` the call has been made and has not
returned. -/
inductive Fase where
  | noCreado
  | wait
  | enWait
  | lock
  | enLock
  | acceso
  | unlock
  | post
  | espera
  | imprime
  | fin
  deriving DecidableEq

structure Local where
  fase : Fase
  i : ℕ
  deriving DecidableEq

inductive FaseMain where
  | crea (h : Hilo)
  | destruye (o : Objeto)
  | exit
  | fin
  deriving DecidableEq

structure Estado (p : Params) where
  sem : Semaforo → ℕ
  mutex : Option Hilo
  buf : Fin p.size → ℤ
  readerResults : ℕ → Option ℤ
  hilos : Hilo → Local
  main : FaseMain
  destruido : Objeto → Bool
  impreso : List (Option ℤ)
  indefinido : Bool

inductive Accion where
  | main
  | hilo (h : Hilo)
  deriving DecidableEq

variable {p : Params}

/-- The semaphore a thread waits for at the start of a turn of its loop. -/
def Hilo.esperado : Hilo → Semaforo
  | .producer => .vacios
  | .consumer => .llenos

/-- The semaphore a thread posts at the end of a turn. -/
def Hilo.avisado : Hilo → Semaforo
  | .producer => .llenos
  | .consumer => .vacios

/-- The object on which a thread operates next. -/
def usa (h : Hilo) : Fase → Option Objeto
  | .wait | .enWait => some (.sem h.esperado)
  | .lock | .enLock | .unlock => some .mutex
  | .post => some (.sem h.avisado)
  | _ => none

/-- The loop test with `i = n`; the consumer prints what it read when its loop is over. -/
def trasVuelta (p : Params) (h : Hilo) (n : ℕ) : Fase :=
  if n < p.items then .wait
  else match h with
    | .producer => .fin
    | .consumer => .imprime

namespace Estado

def ir (s : Estado p) (h : Hilo) (f : Fase) : Estado p :=
  { s with hilos := update s.hilos h { s.hilos h with fase := f } }

/-- The statement between lock and unlock: `buf[i % size] = i`, and
`reader_results[i] = buf[i % size]`. -/
def acceder (s : Estado p) : Hilo → Estado p
  | .producer =>
    let i := (s.hilos .producer).i
    { s with buf := update s.buf (Fin.ofNat p.size i) (i : ℤ) }
  | .consumer =>
    let i := (s.hilos .consumer).i
    { s with readerResults := update s.readerResults i (some (s.buf (Fin.ofNat p.size i))) }

end Estado

/-- The next step of the producer or of the consumer, on objects that exist. -/
def stepHilo (s : Estado p) (h : Hilo) : Option (Estado p) :=
  match (s.hilos h).fase with
  | .noCreado => none
  | .wait => some (s.ir h .enWait)
  | .enWait =>
    if 0 < s.sem h.esperado then
      some ({ s with sem := update s.sem h.esperado (s.sem h.esperado - 1) }.ir h .lock)
    else none
  | .lock => some (s.ir h .enLock)
  | .enLock => if s.mutex = none then some ({ s with mutex := some h }.ir h .acceso) else none
  | .acceso => some ((s.acceder h).ir h .unlock)
  | .unlock => some ({ s with mutex := none }.ir h .post)
  | .post =>
    some ({ s with sem := update s.sem h.avisado (s.sem h.avisado + 1) }.ir h .espera)
  | .espera =>
    let i := (s.hilos h).i + 1
    some { s with hilos := update s.hilos h ⟨trasVuelta p h i, i⟩ }
  | .imprime => some ({ s with impreso := (List.range p.items).map s.readerResults }.ir h .fin)
  | .fin => none

/-- `main` from `pthread_create` on. -/
def stepMain (s : Estado p) : Option (Estado p) :=
  match s.main with
  | .crea .producer =>
    some { s with
      hilos := update s.hilos .producer ⟨trasVuelta p .producer 0, 0⟩, main := .crea .consumer }
  | .crea .consumer =>
    some { s with
      hilos := update s.hilos .consumer ⟨trasVuelta p .consumer 0, 0⟩
      main := .destruye (.sem .vacios) }
  | .destruye o =>
    some { s with
      destruido := update s.destruido o true
      main := match o with
        | .sem .vacios => .destruye (.sem .llenos)
        | .sem .llenos => .destruye .mutex
        | .mutex => .exit }
  | .exit => some { s with main := .fin }
  | .fin => none

def step (s : Estado p) (a : Accion) : Option (Estado p) :=
  if s.indefinido then none
  else match a with
    | .main => stepMain s
    | .hilo h =>
      match usa h (s.hilos h).fase with
      | some o => if s.destruido o then some { s with indefinido := true } else stepHilo s h
      | none => stepHilo s h

/-- The state in which `main` calls `pthread_create` for the first time. The buffer holds what
`malloc` returned. -/
def inicio (p : Params) (basura : Fin p.size → ℤ) : Estado p where
  sem := fun
    | .vacios => p.size
    | .llenos => 0
  mutex := none
  buf := basura
  readerResults := fun _ => none
  hilos := fun _ => ⟨.noCreado, 0⟩
  main := .crea .producer
  destruido := fun _ => false
  impreso := []
  indefinido := false

/-! ### What a step can do -/

/-- A thread step on objects that exist, `main` giving or destroying an object, or the end of the
run's meaning. -/
inductive Paso (s : Estado p) : Accion → Estado p → Prop where
  | hilo (h : Hilo) (s' : Estado p) (hdef : s.indefinido = false)
      (hvivo : ∀ o, usa h (s.hilos h).fase = some o → s.destruido o = false) (hs : stepHilo s h = some s') :
      Paso s (.hilo h) s'
  | roto (h : Hilo) (o : Objeto) (hdef : s.indefinido = false) (ho : usa h (s.hilos h).fase = some o)
      (hd : s.destruido o = true) : Paso s (.hilo h) { s with indefinido := true }
  | main (s' : Estado p) (hdef : s.indefinido = false) (hs : stepMain s = some s') : Paso s .main s'

variable {a : Accion}

theorem paso_of_step {s s' : Estado p} (hs : step s a = some s') : Paso s a s' := by
  unfold step at hs
  cases hdef : s.indefinido with
  | true => simp [hdef] at hs
  | false =>
    simp only [hdef, Bool.false_eq_true, if_false] at hs
    cases a with
    | main => exact .main s' hdef hs
    | hilo h =>
      cases hu : usa h (s.hilos h).fase with
      | none =>
        simp only [hu] at hs
        exact .hilo h s' hdef (fun o ho => by rw [hu] at ho; cases ho) hs
      | some o =>
        simp only [hu] at hs
        cases hd : s.destruido o with
        | true =>
          simp only [hd, if_true, Option.some.injEq] at hs
          subst hs
          exact .roto h o hdef hu hd
        | false =>
          simp only [hd, Bool.false_eq_true, if_false] at hs
          refine .hilo h s' hdef (fun o' ho' => ?_) hs
          rw [hu] at ho'
          cases ho'
          exact hd

/-! ### The counters -/

/-- 1 once `sem_wait` has returned in this turn of the loop. -/
def Fase.tomado : Fase → ℕ
  | .lock | .enLock | .acceso | .unlock | .post | .espera => 1
  | _ => 0

/-- 1 once the buffer was accessed in this turn. -/
def Fase.hecho : Fase → ℕ
  | .unlock | .post | .espera => 1
  | _ => 0

/-- 1 once `sem_post` was called in this turn. -/
def Fase.aviso : Fase → ℕ
  | .espera => 1
  | _ => 0

namespace Local

/-- How often the thread has returned from `sem_wait`, accessed the buffer and posted. -/
def tomados (l : Local) : ℕ := l.i + l.fase.tomado
def hechos (l : Local) : ℕ := l.i + l.fase.hecho
def avisos (l : Local) : ℕ := l.i + l.fase.aviso

@[simp] theorem tomados_mk (f : Fase) (i : ℕ) : (⟨f, i⟩ : Local).tomados = i + f.tomado := rfl
@[simp] theorem hechos_mk (f : Fase) (i : ℕ) : (⟨f, i⟩ : Local).hechos = i + f.hecho := rfl
@[simp] theorem avisos_mk (f : Fase) (i : ℕ) : (⟨f, i⟩ : Local).avisos = i + f.aviso := rfl

theorem avisos_le_hechos (l : Local) : l.avisos ≤ l.hechos := by
  obtain ⟨f, i⟩ := l
  cases f <;> simp [avisos, hechos, Fase.aviso, Fase.hecho]

theorem hechos_le_tomados (l : Local) : l.hechos ≤ l.tomados := by
  obtain ⟨f, i⟩ := l
  cases f <;> simp [tomados, hechos, Fase.tomado, Fase.hecho]

end Local

theorem trasVuelta_eq (p : Params) (h : Hilo) (n : ℕ) :
    (⟨trasVuelta p h n, n⟩ : Local).tomados = n ∧ (⟨trasVuelta p h n, n⟩ : Local).hechos = n ∧
      (⟨trasVuelta p h n, n⟩ : Local).avisos = n := by
  unfold trasVuelta
  split_ifs
  · exact ⟨rfl, rfl, rfl⟩
  · cases h <;> exact ⟨rfl, rfl, rfl⟩

def enviados (n : ℕ) : List ℤ := List.map (fun k : ℕ => (k : ℤ)) (List.range n)

theorem enviados_length (n : ℕ) : (enviados n).length = n := by simp [enviados]

theorem enviados_succ (n : ℕ) : enviados (n + 1) = enviados n ++ [(n : ℤ)] := by
  simp [enviados, List.range_succ]

theorem enviados_getElem? {n k : ℕ} (hk : k < n) : (enviados n)[k]? = some (k : ℤ) := by
  simp [enviados, hk]

/-- Each semaphore holds what its posts exceed its waits by, the ring holds the items written and not
read, and each item read is in its place of `reader_results`. -/
structure Inv (s : Estado p) : Prop where
  vacios : s.sem .vacios + (s.hilos .producer).tomados = p.size + (s.hilos .consumer).avisos
  llenos : s.sem .llenos + (s.hilos .consumer).tomados = (s.hilos .producer).avisos
  anillo : RingBuffer.Holds s.buf (enviados (s.hilos .producer).hechos) (s.hilos .consumer).hechos
  leidos : ∀ i, i < (s.hilos .consumer).hechos → s.readerResults i = some (i : ℤ)
  sinLeer : ∀ i, (s.hilos .consumer).hechos ≤ i → s.readerResults i = none
  porCrear : ∀ h, s.main = .crea .producer ∨ s.main = .crea h → s.hilos h = ⟨.noCreado, 0⟩

theorem inicio_inv (p : Params) (basura : Fin p.size → ℤ) : Inv (inicio p basura) := by
  refine ⟨rfl, rfl, RingBuffer.holds_empty basura, ?_, fun i _ => rfl, fun h _ => rfl⟩
  exact fun i hi => absurd hi (Nat.not_lt_zero i)

variable {s s' : Estado p} {h : Hilo} {impreso' : List (Option ℤ)} {mutex' : Option Hilo}

section

variable (hi : Inv s)

include hi

theorem Inv.bounds : (s.hilos .consumer).tomados ≤ (s.hilos .producer).hechos ∧
    (s.hilos .producer).tomados ≤ (s.hilos .consumer).hechos + p.size := by
  have hv := hi.vacios
  have hl := hi.llenos
  have h₁ := (s.hilos .producer).avisos_le_hechos
  have h₂ := (s.hilos .consumer).avisos_le_hechos
  constructor
  · calc (s.hilos .consumer).tomados ≤ (s.hilos .producer).avisos := by omega
      _ ≤ (s.hilos .producer).hechos := h₁
  · calc (s.hilos .producer).tomados ≤ p.size + (s.hilos .consumer).avisos := by omega
      _ ≤ (s.hilos .consumer).hechos + p.size := by omega

/-- A change of one thread that touches neither the buffer nor the results keeps the invariant if its
counters and the semaphores agree on it. -/
theorem Inv.cambia {l : Local} {sem' : Semaforo → ℕ} {main' : FaseMain}
    (hcrear : ∀ h', main' = .crea .producer ∨ main' = .crea h' →
      update s.hilos h l h' = ⟨.noCreado, 0⟩)
    (hhechos : l.hechos = (s.hilos h).hechos)
    (hesp : sem' h.esperado + l.tomados = s.sem h.esperado + (s.hilos h).tomados)
    (havi : sem' h.avisado + (s.hilos h).avisos = s.sem h.avisado + l.avisos) :
    Inv { s with
      sem := sem', mutex := mutex', impreso := impreso', main := main'
      hilos := update s.hilos h l } := by
  have hv := hi.vacios
  have hl := hi.llenos
  cases h with
  | producer =>
    have hne : Hilo.consumer ≠ .producer := nofun
    simp only [Hilo.esperado, Hilo.avisado] at hesp havi
    refine ⟨?_, ?_, ?_, ?_, ?_, hcrear⟩
    · simp only [update_self, update_of_ne hne]
      omega
    · simp only [update_self, update_of_ne hne]
      omega
    · simpa only [update_self, update_of_ne hne, hhechos] using hi.anillo
    · simpa only [update_of_ne hne] using hi.leidos
    · simpa only [update_of_ne hne] using hi.sinLeer
  | consumer =>
    have hne : Hilo.producer ≠ .consumer := nofun
    simp only [Hilo.esperado, Hilo.avisado] at hesp havi
    refine ⟨?_, ?_, ?_, ?_, ?_, hcrear⟩
    · simp only [update_self, update_of_ne hne]
      omega
    · simp only [update_self, update_of_ne hne]
      omega
    · simpa only [update_self, update_of_ne hne, hhechos] using hi.anillo
    · simpa only [update_self, hhechos] using hi.leidos
    · simpa only [update_self, hhechos] using hi.sinLeer

theorem Inv.mueve {l : Local} {sem' : Semaforo → ℕ}
    (hcreado : (s.hilos h).fase ≠ .noCreado)
    (hhechos : l.hechos = (s.hilos h).hechos)
    (hesp : sem' h.esperado + l.tomados = s.sem h.esperado + (s.hilos h).tomados)
    (havi : sem' h.avisado + (s.hilos h).avisos = s.sem h.avisado + l.avisos) :
    Inv { s with
      sem := sem', mutex := mutex', impreso := impreso', hilos := update s.hilos h l } := by
  refine hi.cambia (fun h' hm => ?_) hhechos hesp havi
  have hh' := hi.porCrear h' hm
  have hne : h' ≠ h := by
    rintro rfl
    rw [hh'] at hcreado
    exact hcreado rfl
  rw [update_of_ne hne]
  exact hh'

theorem Inv.sigue {f g : Fase} (hf : (s.hilos h).fase = f) (hcreado : f ≠ .noCreado)
    (ht : g.tomado = f.tomado) (hh : g.hecho = f.hecho) (ha : g.aviso = f.aviso) :
    Inv ({ s with mutex := mutex', impreso := impreso' }.ir h g) := by
  apply hi.mueve
  · rw [hf]
    exact hcreado
  · simp only [Local.hechos, hf, hh]
  · simp only [Local.tomados, hf, ht]
  · simp only [Local.avisos, hf, ha]

theorem Inv.escribe (hf : (s.hilos .producer).fase = .acceso) :
    Inv ((s.acceder .producer).ir .producer .unlock) := by
  obtain ⟨i, hl⟩ : ∃ i, s.hilos .producer = ⟨.acceso, i⟩ := ⟨(s.hilos .producer).i, by rw [← hf]⟩
  have hb := hi.bounds.2
  have hv := hi.vacios
  have hll := hi.llenos
  have hring := hi.anillo
  rw [hl] at hb hv hll hring
  have hc : Hilo.consumer ≠ .producer := nofun
  have hput := hring.put (by rw [enviados_length]; exact hb) (i : ℤ)
  rw [enviados_length] at hput
  simp only [Estado.ir, Estado.acceder, hl]
  refine ⟨?_, ?_, ?_, ?_, ?_, ?_⟩
  · simpa only [update_self, update_of_ne hc, Local.tomados_mk, Fase.tomado] using hv
  · simpa only [update_self, update_of_ne hc, Local.avisos_mk, Fase.aviso] using hll
  · simpa only [update_self, update_of_ne hc, Local.hechos_mk, Fase.hecho, Nat.add_zero,
      enviados_succ] using hput
  · simpa only [update_of_ne hc] using hi.leidos
  · simpa only [update_of_ne hc] using hi.sinLeer
  · intro h' hm
    have hh' := hi.porCrear h' hm
    cases h' with
    | producer =>
      rw [hl] at hh'
      cases hh'
    | consumer => simpa only [update_of_ne hc] using hh'

theorem Inv.lee (hf : (s.hilos .consumer).fase = .acceso) :
    Inv ((s.acceder .consumer).ir .consumer .unlock) := by
  obtain ⟨i, hl⟩ : ∃ i, s.hilos .consumer = ⟨.acceso, i⟩ := ⟨(s.hilos .consumer).i, by rw [← hf]⟩
  have hb := hi.bounds.1
  have hv := hi.vacios
  have hll := hi.llenos
  have hring := hi.anillo
  have hleidos := hi.leidos
  have hsin := hi.sinLeer
  rw [hl] at hb hv hll hring hleidos hsin
  have hp : Hilo.producer ≠ .consumer := nofun
  have hsome : i < (enviados (s.hilos .producer).hechos).length := by
    rw [enviados_length]
    exact hb
  have hleido : s.buf (Fin.ofNat p.size i) = (i : ℤ) := by
    have hget := hring.get hsome
    simp only [Local.hechos_mk, Fase.hecho, Nat.add_zero] at hget
    rw [enviados_getElem? hb] at hget
    exact (Option.some.inj hget).symm
  simp only [Estado.ir, Estado.acceder, hl, hleido]
  refine ⟨?_, ?_, ?_, ?_, ?_, ?_⟩
  · simpa only [update_self, update_of_ne hp, Local.avisos_mk, Fase.aviso] using hv
  · simpa only [update_self, update_of_ne hp, Local.tomados_mk, Fase.tomado] using hll
  · simpa only [update_self, update_of_ne hp, Local.hechos_mk, Fase.hecho, Nat.add_zero]
      using hring.take hsome
  · intro k hk
    simp only [update_self, Local.hechos_mk, Fase.hecho] at hk
    dsimp only
    by_cases hki : k = i
    · rw [hki, update_self]
    · rw [update_of_ne hki]
      exact hleidos k (show k < i by omega)
  · intro k hk
    simp only [update_self, Local.hechos_mk, Fase.hecho] at hk
    dsimp only
    rw [update_of_ne (by omega)]
    exact hsin k (show i ≤ k by omega)
  · intro h' hm
    have hh' := hi.porCrear h' hm
    cases h' with
    | producer => simpa only [update_of_ne hp] using hh'
    | consumer =>
      rw [hl] at hh'
      cases hh'

theorem Inv.stepHilo (hs : Buf.stepHilo s h = some s') : Inv s' := by
  unfold Buf.stepHilo at hs
  cases hf : (s.hilos h).fase with
  | noCreado | fin => simp [hf] at hs
  | acceso =>
    simp only [hf, Option.some.injEq] at hs
    subst hs
    cases h with
    | producer => exact hi.escribe hf
    | consumer => exact hi.lee hf
  | wait | lock | unlock | imprime =>
    simp only [hf, Option.some.injEq] at hs
    subst hs
    exact hi.sigue hf (by decide) rfl rfl rfl
  | enLock =>
    simp only [hf] at hs
    split_ifs at hs
    cases hs
    exact hi.sigue hf (by decide) rfl rfl rfl
  | enWait =>
    simp only [hf] at hs
    split_ifs at hs with hpos
    cases hs
    apply hi.mueve
    · simp [hf]
    · simp [hf, Local.hechos, Fase.hecho]
    · simp only [update_self, Local.tomados, hf, Fase.tomado]
      omega
    · have hne : h.avisado ≠ h.esperado := by cases h <;> decide
      simp [update_of_ne hne, hf, Local.avisos, Fase.aviso]
  | post =>
    simp only [hf, Option.some.injEq] at hs
    subst hs
    apply hi.mueve
    · simp [hf]
    · simp [hf, Local.hechos, Fase.hecho]
    · have hne : h.esperado ≠ h.avisado := by cases h <;> decide
      simp [update_of_ne hne, hf, Local.tomados, Fase.tomado]
    · simp only [update_self, Local.avisos, hf, Fase.aviso]
      omega
  | espera =>
    simp only [hf, Option.some.injEq] at hs
    subst hs
    obtain ⟨ht, hh, ha⟩ := trasVuelta_eq p h ((s.hilos h).i + 1)
    apply hi.mueve
    · simp [hf]
    · rw [hh]
      simp [hf, Local.hechos, Fase.hecho]
    · rw [ht]
      simp [hf, Local.tomados, Fase.tomado]
    · rw [ha]
      simp [hf, Local.avisos, Fase.aviso]

theorem Inv.stepMain (hs : Buf.stepMain s = some s') : Inv s' := by
  unfold Buf.stepMain at hs
  cases hm : s.main with
  | crea h =>
    -- the counters of a thread are 0 before it exists and when it starts
    obtain ⟨ht, hh, ha⟩ := trasVuelta_eq p h 0
    have hnuevo := hi.porCrear h (.inr hm)
    have hhechos : (⟨trasVuelta p h 0, 0⟩ : Local).hechos = (s.hilos h).hechos := by
      rw [hh, hnuevo]
      rfl
    have htomados : (⟨trasVuelta p h 0, 0⟩ : Local).tomados = (s.hilos h).tomados := by
      rw [ht, hnuevo]
      rfl
    have havisos : (⟨trasVuelta p h 0, 0⟩ : Local).avisos = (s.hilos h).avisos := by
      rw [ha, hnuevo]
      rfl
    cases h with
    | producer =>
      simp only [hm, Option.some.injEq] at hs
      subst hs
      refine hi.cambia (fun h' hm' => ?_) hhechos (by rw [htomados]) (by rw [havisos])
      obtain rfl : h' = .consumer := by
        cases h' with
        | producer => simp at hm'
        | consumer => rfl
      exact hi.porCrear .consumer (.inl hm)
    | consumer =>
      simp only [hm, Option.some.injEq] at hs
      subst hs
      exact hi.cambia (fun h' hm' => by simp at hm') hhechos (by rw [htomados]) (by rw [havisos])
  | destruye o =>
    simp only [hm, Option.some.injEq] at hs
    subst hs
    refine ⟨hi.vacios, hi.llenos, hi.anillo, hi.leidos, hi.sinLeer, fun h' hm' => ?_⟩
    rcases o with (_ | _) | _ <;> simp at hm'
  | exit =>
    simp only [hm, Option.some.injEq] at hs
    subst hs
    exact ⟨hi.vacios, hi.llenos, hi.anillo, hi.leidos, hi.sinLeer, fun h' hm' => by simp at hm'⟩
  | fin => simp [hm] at hs

theorem Inv.step (hs : Buf.step s a = some s') : Inv s' := by
  cases paso_of_step hs with
  | hilo h _ _ _ hs => exact hi.stepHilo hs
  | roto => exact ⟨hi.vacios, hi.llenos, hi.anillo, hi.leidos, hi.sinLeer, hi.porCrear⟩
  | main _ _ hs => exact hi.stepMain hs

end

theorem Inv.trace {basura : Fin p.size → ℤ} (e : Trace (inicio p basura) Buf.step) :
    ∀ t ≤ e.len, Inv (e.state t) :=
  e.invariant (inicio_inv p basura) fun _ _ _ hi hs => hi.step hs

/-! ### Runs -/

/-- Where a thread is after its next step, whatever the others do. -/
def Local.next (p : Params) (h : Hilo) (l : Local) : Local :=
  match l.fase with
  | .wait => ⟨.enWait, l.i⟩
  | .enWait => ⟨.lock, l.i⟩
  | .lock => ⟨.enLock, l.i⟩
  | .enLock => ⟨.acceso, l.i⟩
  | .acceso => ⟨.unlock, l.i⟩
  | .unlock => ⟨.post, l.i⟩
  | .post => ⟨.espera, l.i⟩
  | .espera => ⟨trasVuelta p h (l.i + 1), l.i + 1⟩
  | .imprime => ⟨.fin, l.i⟩
  | .noCreado | .fin => l

theorem stepHilo_hilos (hs : stepHilo s h = some s') :
    s'.hilos = update s.hilos h ((s.hilos h).next p h) := by
  unfold stepHilo at hs
  cases hf : (s.hilos h).fase <;> simp only [hf] at hs <;> try split_ifs at hs
  all_goals
    cases hs
    try simp only [Local.next, hf, Estado.ir]
  -- the access changes the buffer or the results
  cases h <;> rfl

theorem hechos_next (h : Hilo) (l : Local) :
    (l.next p h).hechos = l.hechos + if l.fase = .acceso then 1 else 0 := by
  obtain ⟨f, i⟩ := l
  cases f with
  | espera =>
    simp only [Local.next]
    rw [(trasVuelta_eq p h _).2.1]
    simp [Fase.hecho]
  | _ => simp [Local.next, Fase.hecho]

theorem Inv.hechos_main (hi : Inv s) (hs : Buf.stepMain s = some s') (h : Hilo) :
    (s'.hilos h).hechos = (s.hilos h).hechos := by
  have hnuevo : ∀ h', s.main = .crea h' →
      (update s.hilos h' ⟨trasVuelta p h' 0, 0⟩ h).hechos = (s.hilos h).hechos := by
    intro h' hm
    by_cases hh : h = h'
    · subst hh
      rw [update_self, (trasVuelta_eq p h 0).2.1, hi.porCrear h (.inr hm)]
      rfl
    · rw [update_of_ne hh]
  unfold Buf.stepMain at hs
  split at hs
  case h_1 hm =>
    cases hs
    exact hnuevo .producer hm
  case h_2 hm =>
    cases hs
    exact hnuevo .consumer hm
  all_goals
    cases hs
    try rfl

theorem hechos_step (hi : Inv s) (hs : Buf.step s a = some s') (h : Hilo) :
    (s'.hilos h).hechos = (s.hilos h).hechos + if a = .hilo h ∧ (s.hilos h).fase = .acceso then 1 else 0 := by
  cases paso_of_step hs with
  | roto h' o hdef ho hd =>
    rw [if_neg]
    · rfl
    · rintro ⟨heq, hf⟩
      cases heq
      rw [hf] at ho
      cases ho
  | main _ _ hs =>
    exact hi.hechos_main hs h
  | hilo h' _ _ _ hs =>
    rw [stepHilo_hilos hs]
    by_cases hh : h = h'
    · subst hh
      rw [update_self, hechos_next]
      simp
    · have hne : Accion.hilo h' ≠ .hilo h := fun hc => hh (Accion.hilo.inj hc).symm
      simp [update_of_ne hh, hne]

variable {t : ℕ}

section Runs

variable {basura : Fin p.size → ℤ} (e : Trace (inicio p basura) Buf.step)

/-- Step number `t` is the thread's access to the buffer. -/
def Accede (h : Hilo) (t : ℕ) : Prop :=
  t < e.len ∧ e.act t = .hilo h ∧ ((e.state t).hilos h).fase = .acceso

instance (h : Hilo) : DecidablePred (Accede e h) := fun _ => inferInstanceAs (Decidable (_ ∧ _ ∧ _))

/-- The place of the buffer that step number `t` of the thread is about. -/
def lugar (h : Hilo) (t : ℕ) : Fin p.size := Fin.ofNat p.size ((e.state t).hilos h).i

theorem count_accede (h : Hilo) : ∀ t ≤ e.len, Nat.count (Accede e h) t = ((e.state t).hilos h).hechos := by
  intro t
  induction t with
  | zero =>
    intro _
    rw [Nat.count_zero, e.start]
    rfl
  | succ t ih =>
    intro ht
    have hstep := hechos_step (Inv.trace e t (by omega)) (e.next t ht) h
    rw [Nat.count_succ, ih (by omega), hstep]
    congr 1
    by_cases hc : e.act t = .hilo h ∧ ((e.state t).hilos h).fase = .acceso
    · rw [if_pos hc, if_pos ⟨ht, hc⟩]
    · rw [if_neg hc, if_neg fun ha => hc ha.2]

variable {e}

theorem Accede.i_eq (ha : Accede e h t) : ((e.state t).hilos h).i = Nat.count (Accede e h) t := by
  rw [count_accede e h t (le_of_lt ha.1), Local.hechos, ha.2.2]
  rfl

theorem count_bounds (ht : t ≤ e.len) :
    Nat.count (Accede e .consumer) t ≤ Nat.count (Accede e .producer) t ∧
      Nat.count (Accede e .producer) t ≤ Nat.count (Accede e .consumer) t + p.size := by
  have hb := (Inv.trace e t ht).bounds
  have h₁ := ((e.state t).hilos .consumer).hechos_le_tomados
  have h₂ := ((e.state t).hilos .producer).hechos_le_tomados
  rw [count_accede e _ t ht, count_accede e _ t ht]
  exact ⟨h₁.trans hb.1, h₂.trans hb.2⟩

theorem Accede.escribe_lt (ha : Accede e .producer t) :
    Nat.count (Accede e .producer) t < Nat.count (Accede e .consumer) t + p.size := by
  have hb := (Inv.trace e t (le_of_lt ha.1)).bounds.2
  rw [Local.tomados, ha.2.2, ha.i_eq] at hb
  rw [count_accede e .consumer t (le_of_lt ha.1)]
  exact hb

theorem Accede.lee_lt (ha : Accede e .consumer t) :
    Nat.count (Accede e .consumer) t < Nat.count (Accede e .producer) t := by
  have hb := (Inv.trace e t (le_of_lt ha.1)).bounds.1
  rw [Local.tomados, ha.2.2, ha.i_eq] at hb
  rw [count_accede e .producer t (le_of_lt ha.1)]
  exact hb

theorem Accede.separados {t₁ t₂ : ℕ} (h₁ : Accede e h t₁) (h₂ : Accede e h t₂) (hlt : t₁ < t₂)
    (hl : lugar e h t₁ = lugar e h t₂) :
    Nat.count (Accede e h) t₁ + p.size ≤ Nat.count (Accede e h) t₂ := by
  by_contra hc
  have hmono := Nat.count_strict_mono h₁ hlt
  rw [lugar, lugar, h₁.i_eq, h₂.i_eq] at hl
  exact RingBuffer.ofNat_ne hmono (by omega) hl

end Runs

/-- The bounded buffer, over every run: the consumer has stored `i` as its `i`-th value, between two
writes to a place there is a read of it, a read follows a write to its place that no other read has
used, and the items written and not read are between 0 and `size`. (A run that operates on a destroyed
object ends there, so this is about what it did before.) -/
theorem buffer_delivers_in_order (p : Params) (basura : Fin p.size → ℤ)
    (e : Trace (inicio p basura) Buf.step) :
    (∀ t ≤ e.len, ∀ i, i < Nat.count (Accede e .consumer) t → (e.state t).readerResults i = some (i : ℤ)) ∧
    (∀ t ≤ e.len, ∀ i v, (e.state t).readerResults i = some v → v = (i : ℤ)) ∧
    (∀ t₁ t₂, Accede e .producer t₁ → Accede e .producer t₂ → t₁ < t₂ →
      lugar e .producer t₁ = lugar e .producer t₂ →
      ∃ t, t₁ < t ∧ t < t₂ ∧ Accede e .consumer t ∧ lugar e .consumer t = lugar e .producer t₁) ∧
    (∀ t, Accede e .consumer t → ∃ t₁ < t, Accede e .producer t₁ ∧
      lugar e .producer t₁ = lugar e .consumer t ∧
      ∀ t', t₁ < t' → t' < t → Accede e .consumer t' → lugar e .consumer t' ≠ lugar e .consumer t) ∧
    (∀ t ≤ e.len, Nat.count (Accede e .consumer) t ≤ Nat.count (Accede e .producer) t ∧
      Nat.count (Accede e .producer) t ≤ Nat.count (Accede e .consumer) t + p.size) := by
  refine ⟨?_, ?_, ?_, ?_, fun t ht => count_bounds ht⟩
  · intro t ht i hi
    rw [count_accede e .consumer t ht] at hi
    exact (Inv.trace e t ht).leidos i hi
  · intro t ht i v hv
    have hinv := Inv.trace e t ht
    by_cases hi : i < ((e.state t).hilos .consumer).hechos
    · rw [hinv.leidos i hi] at hv
      exact (Option.some.inj hv).symm
    · rw [hinv.sinLeer i (by omega)] at hv
      cases hv
  · intro t₁ t₂ h₁ h₂ hlt hl
    -- the item written at `t₁` has not been read then and has been read before the place is free again
    have hsep := h₁.separados h₂ hlt hl
    have hnow := (count_bounds (le_of_lt h₁.1)).1
    have hroom := h₂.escribe_lt
    obtain ⟨t, hge, hlt₂, hread, hn⟩ := exists_event (b := t₂) hnow (by omega)
    refine ⟨t, ?_, hlt₂, hread, ?_⟩
    · refine lt_of_le_of_ne hge ?_
      rintro rfl
      have hact := h₁.2.1
      rw [hread.2.1] at hact
      cases hact
    · rw [lugar, lugar, hread.i_eq, h₁.i_eq, hn]
  · intro t ht
    obtain ⟨t₁, -, hlt, hwrite, hn⟩ := exists_event (by rw [Nat.count_zero]; omega) ht.lee_lt
    refine ⟨t₁, hlt, hwrite, ?_, ?_⟩
    · rw [lugar, lugar, hwrite.i_eq, ht.i_eq, hn]
    · intro t' ht₁ ht' hread hl
      have hsep := hread.separados ht ht' hl
      have hafter := Nat.count_strict_mono hwrite ht₁
      have hroom := (count_bounds (le_of_lt hread.1)).2
      omega

end Laboratorio.Buf
