import Laboratorio.Semaphore
import Laboratorio.Trace

/-! The shared stack of words of `lab-05/wordheap.c`, after one `-c`: any number of processes, each
running one `-w` or one `-r` command, that take turns in any order. A call of `sem_wait` or
`pthread_mutex_lock` and its return are two steps. -/

namespace Laboratorio.Wordheap

open Function

abbrev ITEMS : ℤ := 15
abbrev MAX_WORD : ℤ := 50

inductive FaseW where
  | inicio
  | enWait
  | lock
  | enLock
  | copia
  | bajaFree
  | subeItems
  | unlock
  | post
  | fin
  deriving DecidableEq

inductive FaseR where
  | inicio
  | enWait
  | lock
  | enLock
  | imprime
  | subeFree
  | borra
  | bajaItems
  | unlock
  | post
  | fin
  deriving DecidableEq

inductive Proceso where
  | w (palabra : List UInt8) (fase : FaseW)
  | r (fase : FaseR)
  deriving DecidableEq

/-- `wordstack_t`, with `heap` as the bytes from `heap[0][0]` on, the processes and what they
printed. -/
structure Estado (ι : Type) where
  free : ℤ
  items : ℤ
  mutex : Option ι
  full : ℕ
  empty : ℕ
  heap : ℤ → UInt8
  procesos : ι → Proceso
  impreso : List (List UInt8)

variable {ι : Type}

/-- `strncpy(dest, palabra, strlen(palabra))`: the letters and no terminator. -/
def strncpy (heap : ℤ → UInt8) (dest : ℤ) (palabra : List UInt8) : ℤ → UInt8 := fun k =>
  if dest ≤ k ∧ k < dest + palabra.length then palabra.getD (k - dest).toNat 0 else heap k

def bzero (heap : ℤ → UInt8) (dest n : ℤ) : ℤ → UInt8 := fun k =>
  if dest ≤ k ∧ k < dest + n then 0 else heap k

/-- The string at `dest`, up to the end of the heap if it is not terminated before. -/
def cadena (heap : ℤ → UInt8) (dest : ℤ) : List UInt8 :=
  ((List.range (ITEMS * MAX_WORD - dest).toNat).map fun j => heap (dest + j)).takeWhile (· ≠ 0)

section Pasos

variable [DecidableEq ι]

/-- The process `i` goes on to `q`. -/
def Estado.ir (s : Estado ι) (i : ι) (q : Proceso) : Estado ι :=
  { s with procesos := update s.procesos i q }

def stepW (s : Estado ι) (i : ι) (palabra : List UInt8) : FaseW → Option (Estado ι)
  | .inicio => some (s.ir i (.w palabra .enWait))
  | .enWait =>
    if 0 < s.empty then some ({ s with empty := s.empty - 1 }.ir i (.w palabra .lock)) else none
  | .lock => some (s.ir i (.w palabra .enLock))
  | .enLock => if s.mutex = none then some ({ s with mutex := some i }.ir i (.w palabra .copia)) else none
  | .copia =>
    some ({ s with heap := strncpy s.heap (s.free * MAX_WORD) palabra }.ir i (.w palabra .bajaFree))
  | .bajaFree => some ({ s with free := s.free - 1 }.ir i (.w palabra .subeItems))
  | .subeItems => some ({ s with items := s.items + 1 }.ir i (.w palabra .unlock))
  | .unlock => some ({ s with mutex := none }.ir i (.w palabra .post))
  | .post => some ({ s with full := s.full + 1 }.ir i (.w palabra .fin))
  | .fin => none

def stepR (s : Estado ι) (i : ι) : FaseR → Option (Estado ι)
  | .inicio => some (s.ir i (.r .enWait))
  | .enWait => if 0 < s.full then some ({ s with full := s.full - 1 }.ir i (.r .lock)) else none
  | .lock => some (s.ir i (.r .enLock))
  | .enLock => if s.mutex = none then some ({ s with mutex := some i }.ir i (.r .imprime)) else none
  | .imprime =>
    some ({ s with impreso := s.impreso ++ [cadena s.heap ((s.free + 1) * MAX_WORD)] }.ir i (.r .subeFree))
  | .subeFree => some ({ s with free := s.free + 1 }.ir i (.r .borra))
  | .borra => some ({ s with heap := bzero s.heap (s.free * MAX_WORD) 50 }.ir i (.r .bajaItems))
  | .bajaItems => some ({ s with items := s.items - 1 }.ir i (.r .unlock))
  | .unlock => some ({ s with mutex := none }.ir i (.r .post))
  | .post => some ({ s with empty := s.empty + 1 }.ir i (.r .fin))
  | .fin => none

def step (s : Estado ι) (i : ι) : Option (Estado ι) :=
  match s.procesos i with
  | .w palabra fase => stepW s i palabra fase
  | .r fase => stepR s i fase

end Pasos

inductive Comando where
  | w (palabra : List UInt8)
  | r

def Comando.proceso : Comando → Proceso
  | .w palabra => .w palabra .inicio
  | .r => .r .inicio

/-- The stack as `-c` leaves it, in memory that held `heap`, and the processes that have not begun. -/
def creada (heap : ℤ → UInt8) (comandos : ι → Comando) : Estado ι where
  free := ITEMS - 1
  items := 0
  mutex := none
  full := 0
  empty := (ITEMS - 1).toNat
  heap := heap
  procesos := fun i => (comandos i).proceso
  impreso := []

/-! ### What is to hold -/

namespace Proceso

/-- 1 for a `-w` process that `sem_wait(&empty)` has let in and that has not counted its word yet. -/
def escribe : Proceso → ℤ
  | .w _ .lock | .w _ .enLock | .w _ .copia | .w _ .bajaFree | .w _ .subeItems => 1
  | _ => 0

/-- 1 for a `-w` process that has counted its word and still has to post `full`. -/
def escribio : Proceso → ℤ
  | .w _ .unlock | .w _ .post => 1
  | _ => 0

/-- 1 for a `-r` process that `sem_wait(&full)` has let in and that has not taken its word off the
count yet. -/
def lee : Proceso → ℤ
  | .r .lock | .r .enLock | .r .imprime | .r .subeFree | .r .borra | .r .bajaItems => 1
  | _ => 0

/-- 1 for a `-r` process that has taken its word off and still has to post `empty`. -/
def leyo : Proceso → ℤ
  | .r .unlock | .r .post => 1
  | _ => 0

def Dentro : Proceso → Prop
  | .w _ .copia | .w _ .bajaFree | .w _ .subeItems | .w _ .unlock => True
  | .r .imprime | .r .subeFree | .r .borra | .r .bajaItems | .r .unlock => True
  | _ => False

/-- What `free` and `items` are out of step by, in the middle of a section. -/
def desfase : Proceso → ℤ
  | .w _ .subeItems => 1
  | .r .borra | .r .bajaItems => -1
  | _ => 0

end Proceso

namespace Estado

/-- The index of `heap` that the next step of the process uses. -/
def indice (s : Estado ι) (i : ι) : Option ℤ :=
  match s.procesos i with
  | .w _ .copia => some s.free
  | .r .imprime => some (s.free + 1)
  | .r .borra => some s.free
  | _ => none

/-- The process is in `sem_wait` of a semaphore at 0. -/
def EscritorBloqueado (s : Estado ι) (i : ι) : Prop :=
  s.empty = 0 ∧ ∃ palabra, s.procesos i = .w palabra .enWait

def LectorBloqueado (s : Estado ι) (i : ι) : Prop := s.full = 0 ∧ s.procesos i = .r .enWait

variable [Fintype ι]

def suma (s : Estado ι) (peso : Proceso → ℤ) : ℤ := ∑ i, peso (s.procesos i)

end Estado

/-- The stack is in order: with the mutex free `free` and `items` agree and `items` is in range; every
index is in range; a reader waits only when no stored word is left, the words still to be announced by
their writers apart; a writer waits only when every one of the `ITEMS` places is occupied, granted, or
still to be announced by the reader that emptied it. -/
structure Bien [Fintype ι] (s : Estado ι) : Prop where
  libre : s.mutex = none → s.free = ITEMS - 1 - s.items ∧ 0 ≤ s.items ∧ s.items ≤ ITEMS
  indices : ∀ i k, s.indice i = some k → 0 ≤ k ∧ k < ITEMS
  lector : ∀ i, s.LectorBloqueado i → s.items - s.suma Proceso.escribio - s.suma Proceso.lee = 0
  escritor : ∀ i, s.EscritorBloqueado i → s.items + s.suma Proceso.leyo + s.suma Proceso.escribe = ITEMS

/-! ### The accounts of the two semaphores -/

section Invariant

variable [Fintype ι] {s s' : Estado ι} {i : ι}

/-- Every permit of `empty` and of `full` is accounted for, `free` and `items` add up, and the mutex is
held by the process in its section. -/
structure Inv (s : Estado ι) : Prop where
  permisos : Balance (s.empty + s.items) (fun q => q.escribe + q.leyo) s.procesos (ITEMS - 1)
  palabras : Balance (s.full - s.items) (fun q => q.lee + q.escribio) s.procesos 0
  pila : Balance (s.free + s.items) Proceso.desfase s.procesos (ITEMS - 1)
  mutex : Excludes s.mutex fun i => (s.procesos i).Dentro

theorem creada_inv (heap : ℤ → UInt8) (comandos : ι → Comando) : Inv (creada heap comandos) := by
  have hcero : ∀ i, ((comandos i).proceso.escribe + (comandos i).proceso.leyo = 0) ∧
      ((comandos i).proceso.lee + (comandos i).proceso.escribio = 0) ∧
      ((comandos i).proceso.desfase = 0) ∧ ¬(comandos i).proceso.Dentro := by
    intro i
    cases comandos i <;> simp [Comando.proceso, Proceso.escribe, Proceso.leyo, Proceso.lee, Proceso.escribio,
      Proceso.desfase, Proceso.Dentro]
  refine ⟨?_, ?_, ?_, ?_⟩
  · simp [Balance, creada, hcero, ITEMS]
  · simp [Balance, creada, hcero]
  · simp [Balance, creada, hcero, ITEMS]
  · intro i
    simp [creada, hcero]

variable [DecidableEq ι]

theorem Inv.mueve (hi : Inv s) {q : Proceso} {free' items' : ℤ} {full' empty' : ℕ} {mutex' : Option ι}
    {heap' : ℤ → UInt8} {impreso' : List (List UInt8)}
    (hper : (empty' : ℤ) + items' + (q.escribe + q.leyo) =
      s.empty + s.items + ((s.procesos i).escribe + (s.procesos i).leyo))
    (hpal : (full' : ℤ) - items' + (q.lee + q.escribio) =
      s.full - s.items + ((s.procesos i).lee + (s.procesos i).escribio))
    (hpil : free' + items' + q.desfase = s.free + s.items + (s.procesos i).desfase)
    (hmut : (mutex' = s.mutex ∧ (q.Dentro ↔ (s.procesos i).Dentro)) ∨
      (s.mutex = none ∧ mutex' = some i ∧ q.Dentro) ∨ (mutex' = none ∧ (s.procesos i).Dentro ∧ ¬q.Dentro)) :
    Inv { s with
      free := free', items := items', mutex := mutex', full := full', empty := empty', heap := heap'
      procesos := update s.procesos i q, impreso := impreso' } := by
  refine ⟨hi.permisos.step i hper, hi.palabras.step i hpal, hi.pila.step i hpil, ?_⟩
  have hotros : ∀ j, j ≠ i → ((update s.procesos i q j).Dentro ↔ (s.procesos j).Dentro) := by
    intro j hj
    rw [update_of_ne hj]
  have hexcl := hi.mutex
  rcases hmut with ⟨rfl, hq⟩ | ⟨hlibre, rfl, hq⟩ | ⟨rfl, hp, hq⟩
  · apply hexcl.keep
    intro j
    by_cases hj : j = i
    · subst hj
      simpa only [update_self] using hq
    · exact hotros j hj
  · rw [hlibre] at hexcl
    apply hexcl.lock _ hotros
    simpa only [update_self] using hq
  · apply hexcl.unlock hp _ hotros
    simpa only [update_self] using hq

theorem Inv.stepW (hi : Inv s) {palabra : List UInt8} {fase : FaseW} (hp : s.procesos i = .w palabra fase)
    (hs : Wordheap.stepW s i palabra fase = some s') : Inv s' := by
  cases fase <;> simp only [Wordheap.stepW] at hs <;> try split_ifs at hs
  all_goals
    cases hs
    try apply hi.mueve <;> simp [Proceso.escribe, Proceso.leyo, Proceso.lee, Proceso.escribio,
      Proceso.desfase, Proceso.Dentro, *]
  all_goals omega

theorem Inv.stepR (hi : Inv s) {fase : FaseR} (hp : s.procesos i = .r fase)
    (hs : Wordheap.stepR s i fase = some s') : Inv s' := by
  cases fase <;> simp only [Wordheap.stepR] at hs <;> try split_ifs at hs
  all_goals
    cases hs
    try apply hi.mueve <;> simp [Proceso.escribe, Proceso.leyo, Proceso.lee, Proceso.escribio,
      Proceso.desfase, Proceso.Dentro, *]
  all_goals omega

theorem Inv.step (hi : Inv s) (hs : Wordheap.step s i = some s') : Inv s' := by
  unfold Wordheap.step at hs
  cases hp : s.procesos i with
  | w palabra fase =>
    simp only [hp] at hs
    exact hi.stepW hp hs
  | r fase =>
    simp only [hp] at hs
    exact hi.stepR hp hs

end Invariant

/-! ### What the accounts say -/

section Cuentas

variable [Fintype ι] {s : Estado ι}

theorem escribe_leyo_nonneg (q : Proceso) : 0 ≤ q.escribe + q.leyo := by
  rcases q with ⟨_, f⟩ | f <;> cases f <;> simp [Proceso.escribe, Proceso.leyo]

theorem lee_escribio_nonneg (q : Proceso) : 0 ≤ q.lee + q.escribio := by
  rcases q with ⟨_, f⟩ | f <;> cases f <;> simp [Proceso.lee, Proceso.escribio]

theorem desfase_fuera {q : Proceso} (hq : ¬q.Dentro) : q.desfase = 0 := by
  rcases q with ⟨_, f⟩ | f <;> cases f <;> simp_all [Proceso.Dentro, Proceso.desfase]

theorem Inv.items_bounds (hi : Inv s) (i : ι) :
    (s.procesos i).lee + (s.procesos i).escribio ≤ s.items ∧
      s.items + ((s.procesos i).escribe + (s.procesos i).leyo) ≤ ITEMS - 1 := by
  have h₁ := hi.palabras.le lee_escribio_nonneg i
  have h₂ := hi.permisos.le escribe_leyo_nonneg i
  exact ⟨by omega, by omega⟩

theorem Inv.libre (hi : Inv s) (hm : s.mutex = none) :
    s.free = ITEMS - 1 - s.items ∧ 0 ≤ s.items ∧ s.items ≤ ITEMS := by
  have hexcl := hi.mutex
  rw [hm] at hexcl
  have hpila := hi.pila.settled fun j => desfase_fuera (hexcl.free j)
  have h₁ := hi.palabras.le_total lee_escribio_nonneg
  have h₂ := hi.permisos.le_total escribe_leyo_nonneg
  simp only [ITEMS] at hpila h₁ h₂ ⊢
  refine ⟨by omega, by omega, by omega⟩

/-- In its section a process is the only one that `free` and `items` can be out of step by. -/
theorem Inv.dentro (hi : Inv s) {i : ι} (hd : (s.procesos i).Dentro) :
    s.free + s.items + (s.procesos i).desfase = ITEMS - 1 := by
  apply hi.pila.only
  intro j hj
  exact desfase_fuera fun hdj => hj (hi.mutex.eq hdj hd)

theorem Inv.indices (hi : Inv s) (i : ι) (k : ℤ) (hk : s.indice i = some k) : 0 ≤ k ∧ k < ITEMS := by
  obtain ⟨hmin, hmax⟩ := hi.items_bounds i
  unfold Estado.indice at hk
  split at hk
  case h_1 hp | h_2 hp | h_3 hp =>
    cases hk
    have hdentro := hi.dentro (by rw [hp]; trivial)
    simp only [hp, Proceso.lee, Proceso.escribio, Proceso.escribe, Proceso.leyo, Proceso.desfase, ITEMS]
      at hmin hmax hdentro ⊢
    omega
  case h_4 => cases hk

/-- `full` is what is stored and neither granted nor still to be announced; `empty` is what is left of
`ITEMS - 1` places. -/
theorem Inv.full_eq (hi : Inv s) : (s.full : ℤ) = s.items - s.suma Proceso.escribio - s.suma Proceso.lee := by
  have h := hi.palabras
  simp only [Balance, Finset.sum_add_distrib] at h
  simp only [Estado.suma]
  omega

theorem Inv.empty_eq (hi : Inv s) :
    (s.empty : ℤ) = ITEMS - 1 - (s.items + s.suma Proceso.leyo + s.suma Proceso.escribe) := by
  have h := hi.permisos
  simp only [Balance, Finset.sum_add_distrib] at h
  simp only [Estado.suma]
  omega

theorem escribio_nonneg (q : Proceso) : 0 ≤ q.escribio := by
  rcases q with ⟨_, f⟩ | f <;> cases f <;> simp [Proceso.escribio]

/-- A reader that waits leaves a stored word that is not granted exactly while some writer has counted its word and not
yet called `sem_post(&full)`. -/
theorem Inv.lector_literal_iff (hi : Inv s) {i : ι} (hblock : s.LectorBloqueado i) :
    s.items - s.suma Proceso.lee = 0 ↔ ∀ j, (s.procesos j).escribio = 0 := by
  have hfull := hi.full_eq
  rw [hblock.1] at hfull
  have hsuma : s.items - s.suma Proceso.lee = s.suma Proceso.escribio := by omega
  rw [hsuma, Estado.suma, Finset.sum_eq_zero_iff_of_nonneg fun j _ => escribio_nonneg _]
  simp only [Finset.mem_univ, true_implies]

/-- All that can be out of order is a writer that waits: it waits for `ITEMS - 1` places. -/
theorem Inv.bien_iff (hi : Inv s) : Bien s ↔ ∀ i, ¬s.EscritorBloqueado i := by
  constructor
  · intro hb i hblock
    have hfull := hb.escritor i hblock
    have hempty := hi.empty_eq
    rw [hblock.1] at hempty
    simp only [ITEMS] at hfull hempty
    omega
  · intro hno
    refine ⟨hi.libre, hi.indices, fun i hblock => ?_, fun i hblock => absurd hblock (hno i)⟩
    rw [← hi.full_eq, hblock.1]
    rfl

end Cuentas

/-! ### Runs -/

section Runs

variable [DecidableEq ι] {s s' : Estado ι} {i : ι}

/-- The condition on a step, in the state before it: a `-w` process calls `sem_wait(&empty)` only while
`empty` is positive, and takes the last permit only when no other `-w` process waits for one. -/
def HayLugar (s : Estado ι) (i : ι) : Prop :=
  ∀ palabra, (s.procesos i = .w palabra .inicio → 0 < s.empty) ∧
    (s.procesos i = .w palabra .enWait → s.empty = 1 → ∀ j, j ≠ i → ∀ otra, s.procesos j ≠ .w otra .enWait)

/-- What a step does to the writers that wait and to `empty`. -/
inductive Turno (s s' : Estado ι) (i : ι) : Prop where
  | llama (palabra : List UInt8) (hp : s.procesos i = .w palabra .inicio)
      (hproc : s'.procesos = update s.procesos i (.w palabra .enWait)) (hemp : s'.empty = s.empty)
  | toma (palabra : List UInt8) (hp : s.procesos i = .w palabra .enWait)
      (hproc : s'.procesos = update s.procesos i (.w palabra .lock)) (hemp : s'.empty + 1 = s.empty)
  | otro (q : Proceso) (hini : ∀ palabra, s.procesos i ≠ .w palabra .inicio)
      (hesp : ∀ palabra, s.procesos i ≠ .w palabra .enWait)
      (hproc : s'.procesos = update s.procesos i q) (hq : ∀ palabra, q ≠ .w palabra .enWait)
      (hemp : s.empty ≤ s'.empty)

theorem turno_of_step (hs : step s i = some s') : Turno s s' i := by
  unfold step at hs
  cases hp : s.procesos i with
  | w palabra fase =>
    simp only [hp] at hs
    cases fase with
    | inicio =>
      cases hs
      exact .llama palabra hp rfl rfl
    | enWait =>
      simp only [stepW] at hs
      split_ifs at hs with hpos
      cases hs
      exact .toma palabra hp rfl (Nat.sub_add_cancel hpos)
    | enLock =>
      simp only [stepW] at hs
      split_ifs at hs
      cases hs
      exact .otro _ (by simp [hp]) (by simp [hp]) rfl (by simp) (le_refl _)
    | fin => cases hs
    | _ =>
      cases hs
      exact .otro _ (by simp [hp]) (by simp [hp]) rfl (by simp) (le_refl _)
  | r fase =>
    simp only [hp] at hs
    cases fase <;> simp only [stepR] at hs <;> try split_ifs at hs
    all_goals
      cases hs
      try exact .otro _ (by simp [hp]) (by simp [hp]) rfl (by simp) (by simp [Estado.ir])

/-- From a state in which no writer waits for a permit that is not there, a step leads to such a state
exactly when it meets the condition. -/
theorem bloqueo_step (hs : step s i = some s') (hno : ∀ j, ¬s.EscritorBloqueado j) :
    (∀ j, ¬s'.EscritorBloqueado j) ↔ HayLugar s i := by
  cases turno_of_step hs with
  | llama palabra hp hproc hemp =>
    constructor
    · intro h otra
      refine ⟨fun _ => ?_, fun hc => ?_⟩
      · by_contra hcero
        refine h i ⟨by omega, palabra, ?_⟩
        rw [hproc, update_self]
      · rw [hp] at hc
        cases hc
    · intro h j hblock
      have hpos := (h palabra).1 hp
      have hcero := hblock.1
      omega
  | toma palabra hp hproc hemp =>
    constructor
    · intro h otra
      refine ⟨fun hc => ?_, fun _ huno j hj q hq => ?_⟩
      · rw [hp] at hc
        cases hc
      · refine h j ⟨by omega, q, ?_⟩
        rw [hproc, update_of_ne hj]
        exact hq
    · rintro h j ⟨hcero, q, hq⟩
      have hj : j ≠ i := by
        rintro rfl
        rw [hproc, update_self] at hq
        cases hq
      rw [hproc, update_of_ne hj] at hq
      exact (h palabra).2 hp (by omega) j hj q hq
  | otro q hini hesp hproc hq hemp =>
    refine ⟨fun _ palabra => ⟨fun hc => absurd hc (hini palabra), fun hc => absurd hc (hesp palabra)⟩, ?_⟩
    rintro - j ⟨hcero, otra, hj⟩
    by_cases hji : j = i
    · subst hji
      rw [hproc, update_self] at hj
      exact hq otra hj
    · rw [hproc, update_of_ne hji] at hj
      exact hno j ⟨by omega, otra, hj⟩

end Runs

/-- Over every run of any number of `-w` and `-r` processes the stack is in order exactly when no `-w`
process calls `sem_wait(&empty)` with `ITEMS - 1` places taken, nor takes the last of these places while
another one waits. A reader waits although a stored word is not granted only while its writer has still to post `full`.
-/
theorem wordstack_in_order_iff {ι : Type} [Fintype ι] [DecidableEq ι] (heap : ℤ → UInt8)
    (comandos : ι → Comando) (e : Trace (creada heap comandos) step) :
    ((∀ t ≤ e.len, Bien (e.state t)) ↔ ∀ t < e.len, HayLugar (e.state t) (e.act t)) ∧
    ∀ t ≤ e.len, ∀ i, (e.state t).LectorBloqueado i →
      ((e.state t).items - (e.state t).suma Proceso.lee = 0 ↔ ∀ j, ((e.state t).procesos j).escribio = 0) := by
  have hinv := e.invariant (creada_inv heap comandos) fun s i s' hi hs => hi.step hs
  refine ⟨?_, fun t ht i hblock => (hinv t ht).lector_literal_iff hblock⟩
  constructor
  · intro hb t ht
    have hahora := (hinv t (by omega)).bien_iff.mp (hb t (by omega))
    exact (bloqueo_step (e.next t ht) hahora).mp ((hinv (t + 1) ht).bien_iff.mp (hb (t + 1) ht))
  intro hlugar t
  induction t with
  | zero =>
    intro _
    rw [(hinv 0 (by omega)).bien_iff, e.start]
    exact fun i hblock => absurd hblock.1 (show (ITEMS - 1).toNat ≠ 0 by decide)
  | succ t ih =>
    intro ht
    have hahora := (hinv t (by omega)).bien_iff.mp (ih (by omega))
    exact (hinv (t + 1) ht).bien_iff.mpr ((bloqueo_step (e.next t ht) hahora).mpr (hlugar t ht))

/-- Fourteen writers are let in; the fifteenth calls `sem_wait(&empty)`. -/
def quinceEscritores : List (Fin 15) := (List.finRange 14).flatMap (fun i => [i.castSucc, i.castSucc]) ++ [14]

theorem writer_blocked_with_free_place :
    ∃ s, quinceEscritores.foldlM step (creada (fun _ => 0) fun _ => .w [97]) = some s ∧
      s.EscritorBloqueado 14 ∧ s.items + s.suma Proceso.leyo + s.suma Proceso.escribe = 14 ∧ ¬Bien s := by
  refine ⟨_, rfl, ⟨rfl, [97], rfl⟩, by decide, fun hb => ?_⟩
  exact absurd (hb.escritor 14 ⟨rfl, [97], rfl⟩) (by decide)

end Laboratorio.Wordheap
