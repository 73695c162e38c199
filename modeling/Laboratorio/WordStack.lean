import Laboratorio.CString
import Laboratorio.WordHeap

/-! Commands of `lab-05/wordheap.c` on one stack, executed one after another. Each is its process of
`WordHeap` run alone to the end; `-c` on a stack that exists resets the counters and the semaphores and
leaves the words where they are. -/

namespace Laboratorio.Wordheap

/-- A word that a command line can hold and that fits into a place with its terminator. -/
structure Palabra where
  bytes : List UInt8
  ne_nil : bytes ≠ []
  sinNul : 0 ∉ bytes
  corta : (bytes.length : ℤ) < MAX_WORD

inductive Orden where
  | c
  | w (palabra : Palabra)
  | r

def Proceso.termino : Proceso → Bool
  | .w _ .fin | .r .fin => true
  | _ => false

/-- The steps of the only process, until it ends or blocks. -/
def completar : ℕ → Estado Unit → Option (Estado Unit)
  | 0, s => if (s.procesos ()).termino then some s else none
  | n + 1, s => if (s.procesos ()).termino then some s else (step s ()).bind (completar n)

/-- A `-w` or `-r` command: its process takes at most ten steps. -/
def ejecutar (s : Estado Unit) (comando : Comando) : Option (Estado Unit) :=
  completar 10 { s with procesos := fun _ => comando.proceso }

variable {s : Estado Unit}

theorem ejecutar_w (hmutex : s.mutex = none) (hempty : 0 < s.empty) (palabra : List UInt8) :
    ∃ q, ejecutar s (.w palabra) = some { s with
      heap := strncpy s.heap (s.free * MAX_WORD) palabra
      free := s.free - 1
      items := s.items + 1
      full := s.full + 1
      empty := s.empty - 1
      procesos := q } := by
  obtain ⟨free, items, mutex, full, empty, heap, procesos, impreso⟩ := s
  obtain ⟨e, rfl⟩ := Nat.exists_eq_add_of_lt hempty
  obtain rfl : mutex = none := hmutex
  exact ⟨_, rfl⟩

theorem ejecutar_r (hmutex : s.mutex = none) (hfull : 0 < s.full) :
    ∃ q, ejecutar s .r = some { s with
      heap := bzero s.heap ((s.free + 1) * MAX_WORD) 50
      free := s.free + 1
      items := s.items - 1
      full := s.full - 1
      empty := s.empty + 1
      procesos := q
      impreso := s.impreso ++ [cadena s.heap ((s.free + 1) * MAX_WORD)] } := by
  obtain ⟨free, items, mutex, full, empty, heap, procesos, impreso⟩ := s
  obtain ⟨e, rfl⟩ := Nat.exists_eq_add_of_lt hfull
  obtain rfl : mutex = none := hmutex
  exact ⟨_, rfl⟩

theorem ejecutar_w_bloquea (hempty : s.empty = 0) (palabra : List UInt8) :
    ejecutar s (.w palabra) = none := by
  obtain ⟨free, items, mutex, full, empty, heap, procesos, impreso⟩ := s
  obtain rfl : empty = 0 := hempty
  rfl

theorem ejecutar_r_bloquea (hfull : s.full = 0) : ejecutar s .r = none := by
  obtain ⟨free, items, mutex, full, empty, heap, procesos, impreso⟩ := s
  obtain rfl : full = 0 := hfull
  rfl

/-- `-c`: a new segment is zero-filled, an old one keeps its bytes. -/
def crear : Option (Estado Unit) → Estado Unit
  | none => creada (fun _ => 0) fun _ => .r
  | some s => { creada s.heap fun _ => .r with impreso := s.impreso }

/-- The segment of the stack, if `-c` has made it; the words pushed since the last `-c` and not removed,
last one first; and the words that `-r` removed. Each word carries whether the byte that was to be its
terminator was zero when it was pushed. -/
structure Historia where
  segmento : Option (Estado Unit)
  pila : List (Palabra × Bool)
  sacadas : List (Palabra × Bool)

namespace Historia

def impreso (h : Historia) : List (List UInt8) := (h.segmento.map Estado.impreso).getD []

/-- One command, unless it blocks for ever. A `-w` or `-r` without a segment dies with nothing done:
`mmap` fails and its result is used. -/
def orden (h : Historia) : Orden → Option Historia
  | .c => some { h with segmento := some (crear h.segmento), pila := [] }
  | .w palabra => match h.segmento with
    | none => some h
    | some s => (ejecutar s (.w palabra.bytes)).map fun s' =>
      { h with
        segmento := some s'
        pila := (palabra, s.heap (s.free * MAX_WORD + palabra.bytes.length) = 0) :: h.pila }
  | .r => match h.segmento with
    | none => some h
    | some s => (ejecutar s .r).map fun s' =>
      { segmento := some s', pila := h.pila.tail, sacadas := h.sacadas ++ h.pila.head?.toList }

def correr (h : Historia) : List Orden → Historia
  | [] => h
  | o :: ordenes => match h.orden o with
    | none => h
    | some h' => h'.correr ordenes

end Historia

def vacia : Historia := { segmento := none, pila := [], sacadas := [] }

/-! ### What the places hold -/

/-- Place `k` holds the word, and a zero byte behind it exactly when the word was pushed over one. -/
def Lugar (heap : ℤ → UInt8) (k : ℤ) (x : Palabra × Bool) : Prop :=
  (∀ (i : ℕ) (hi : i < x.1.bytes.length), heap (k * MAX_WORD + i) = x.1.bytes[i]) ∧
    (x.2 = true ↔ heap (k * MAX_WORD + x.1.bytes.length) = 0)

/-- The places from `k` on hold the words. -/
def Lugares (heap : ℤ → UInt8) : ℤ → List (Palabra × Bool) → Prop
  | _, [] => True
  | k, x :: pila => Lugar heap k x ∧ Lugares heap (k + 1) pila

variable {heap heap' : ℤ → UInt8} {k : ℤ} {x : Palabra × Bool} {pila : List (Palabra × Bool)}

theorem Lugar.congr (h : Lugar heap k x) (heq : ∀ a, k * MAX_WORD ≤ a → heap' a = heap a) : Lugar heap' k x := by
  refine ⟨fun i hi => ?_, ?_⟩
  · rw [heq _ (by omega)]
    exact h.1 i hi
  · rw [heq _ (by omega)]
    exact h.2

theorem Lugares.congr (h : Lugares heap k pila) (heq : ∀ a, k * MAX_WORD ≤ a → heap' a = heap a) :
    Lugares heap' k pila := by
  induction pila generalizing k with
  | nil => trivial
  | cons x pila ih =>
    refine ⟨h.1.congr heq, ih h.2 fun a ha => heq a ?_⟩
    simp only [MAX_WORD] at ha ⊢
    omega

theorem lugar_strncpy (heap : ℤ → UInt8) (k : ℤ) (palabra : Palabra) :
    Lugar (strncpy heap (k * MAX_WORD) palabra.bytes) k (palabra, heap (k * MAX_WORD + palabra.bytes.length) = 0) := by
  refine ⟨fun i hi => ?_, ?_⟩
  · have hi' : i < palabra.bytes.length := hi
    rw [strncpy, if_pos ⟨by omega, by omega⟩, show (k * MAX_WORD + i - k * MAX_WORD).toNat = i by omega]
    exact List.getD_eq_getElem _ _ hi'
  · dsimp only
    rw [strncpy, if_neg (by omega)]
    exact decide_eq_true_iff

theorem strncpy_arriba (heap : ℤ → UInt8) (k : ℤ) (palabra : Palabra) {a : ℤ} (ha : (k + 1) * MAX_WORD ≤ a) :
    strncpy heap (k * MAX_WORD) palabra.bytes a = heap a := by
  have hcorta := palabra.corta
  apply if_neg
  simp only [MAX_WORD] at ha hcorta ⊢
  omega

theorem bzero_arriba (heap : ℤ → UInt8) (k : ℤ) {a : ℤ} (ha : (k + 1) * MAX_WORD ≤ a) :
    bzero heap (k * MAX_WORD) 50 a = heap a := by
  apply if_neg
  simp only [MAX_WORD] at ha ⊢
  omega

theorem cadena_eq (heap : ℤ → UInt8) (a : ℤ) : cadena heap a =
    cstring ((List.range (ITEMS * MAX_WORD - a).toNat).map fun j => heap (a + (j : ℕ))) := by
  have hmap : (List.range (ITEMS * MAX_WORD - a).toNat).flatMap (fun j => [heap (a + (j : ℕ))]) =
      (List.range (ITEMS * MAX_WORD - a).toNat).map fun j => heap (a + (j : ℕ)) := List.flatMap_pure_eq_map _ _
  simp [cadena, cstring, List.map_flatMap, hmap]

theorem Lugar.cadena_iff (h : Lugar heap k x) (hk : k < ITEMS) :
    cadena heap (k * MAX_WORD) = x.1.bytes ↔ x.2 = true := by
  have hcorta := x.1.corta
  obtain ⟨m, hm⟩ : ∃ m, (ITEMS * MAX_WORD - k * MAX_WORD).toNat = x.1.bytes.length + (1 + m) := by
    refine ⟨(ITEMS * MAX_WORD - k * MAX_WORD).toNat - x.1.bytes.length - 1, ?_⟩
    simp only [ITEMS, MAX_WORD] at hk hcorta ⊢
    omega
  have hword : (List.range x.1.bytes.length).map (fun j => heap (k * MAX_WORD + (j : ℕ))) = x.1.bytes := by
    apply List.ext_getElem
    · simp
    · intro i h1 h2
      simpa using h.1 i h2
  rw [h.2, ← cstring_word_iff x.1.sinNul (heap (k * MAX_WORD + x.1.bytes.length))
    ((List.range m).map fun j => heap (k * MAX_WORD + ((x.1.bytes.length + (1 + j) : ℕ) : ℤ)))]
  have hbytes : (List.range (ITEMS * MAX_WORD - k * MAX_WORD).toNat).map
      (fun j => heap (k * MAX_WORD + (j : ℕ))) = x.1.bytes ++ heap (k * MAX_WORD + x.1.bytes.length) ::
        (List.range m).map fun j => heap (k * MAX_WORD + ((x.1.bytes.length + (1 + j) : ℕ) : ℤ)) := by
    rw [hm, List.range_add, List.map_append, hword, List.map_map, Nat.add_comm 1 m, List.range_succ_eq_map]
    simp [Function.comp_def, Int.add_comm, Int.add_left_comm]
  rw [cadena_eq, hbytes]

/-! ### Whole runs -/

/-- The counters agree with the words, and the places hold them. -/
structure Guarda (s : Estado Unit) (pila : List (Palabra × Bool)) : Prop where
  mutex : s.mutex = none
  free : s.free = ITEMS - 1 - pila.length
  full : s.full = pila.length
  empty : (s.empty : ℤ) = ITEMS - 1 - pila.length
  lugares : Lugares s.heap (s.free + 1) pila

/-- Each removed word was printed as it was exactly when it had been pushed over a zero byte. -/
def Impresas (impreso : List (List UInt8)) (sacadas : List (Palabra × Bool)) : Prop :=
  List.Forall₂ (fun texto x => texto = x.1.bytes ↔ x.2 = true) impreso sacadas

structure EnOrden (h : Historia) : Prop where
  guarda : ∀ s, h.segmento = some s → Guarda s h.pila
  impresas : Impresas h.impreso h.sacadas

theorem Guarda.crear (seg : Option (Estado Unit)) : Guarda (crear seg) [] := by
  cases seg with
  | none | some s => exact ⟨rfl, by simp [Wordheap.crear, creada], rfl, by simp [Wordheap.crear, creada], trivial⟩

theorem EnOrden.orden {h h' : Historia} (hh : EnOrden h) (o : Orden) (hrun : h.orden o = some h') :
    EnOrden h' := by
  obtain ⟨hguarda, himp⟩ := hh
  cases o with
  | c =>
    cases hrun
    refine ⟨fun s hs => ?_, ?_⟩
    · cases hs
      exact Guarda.crear h.segmento
    · have himpreso : (Wordheap.crear h.segmento).impreso = h.impreso := by
        unfold Historia.impreso
        cases h.segmento <;> rfl
      change Impresas (Wordheap.crear h.segmento).impreso h.sacadas
      rw [himpreso]
      exact himp
  | w palabra =>
    cases hseg : h.segmento with
    | none =>
      simp only [Historia.orden, hseg] at hrun
      cases hrun
      exact ⟨hguarda, himp⟩
    | some s =>
      have hg := hguarda s hseg
      simp only [Historia.orden, hseg] at hrun
      rcases Nat.eq_zero_or_pos s.empty with hzero | hpos
      · rw [ejecutar_w_bloquea hzero] at hrun
        cases hrun
      obtain ⟨q, hq⟩ := ejecutar_w hg.mutex hpos palabra.bytes
      rw [hq] at hrun
      cases hrun
      have hempty := hg.empty
      have hfree := hg.free
      refine ⟨fun s' hs' => ?_, ?_⟩
      · cases hs'
        refine ⟨hg.mutex, ?_, ?_, ?_, ?_⟩
        · simp only [List.length_cons]
          omega
        · simp only [List.length_cons, hg.full]
        · simp only [List.length_cons]
          omega
        · dsimp only
          rw [Int.sub_add_cancel]
          exact ⟨lugar_strncpy _ _ _, hg.lugares.congr fun a ha => strncpy_arriba _ _ _ ha⟩
      · have himpreso : h.impreso = s.impreso := by simp [Historia.impreso, hseg]
        rw [himpreso] at himp
        exact himp
  | r =>
    cases hseg : h.segmento with
    | none =>
      simp only [Historia.orden, hseg] at hrun
      cases hrun
      exact ⟨hguarda, himp⟩
    | some s =>
      have hg := hguarda s hseg
      simp only [Historia.orden, hseg] at hrun
      cases hpila : h.pila with
      | nil =>
        have hfull := hg.full
        rw [hpila] at hfull
        rw [ejecutar_r_bloquea hfull] at hrun
        cases hrun
      | cons x pila =>
        rw [hpila] at hg
        have hfull := hg.full
        have hempty := hg.empty
        have hfree := hg.free
        have hlug := hg.lugares
        simp only [List.length_cons] at hfull hempty hfree
        obtain ⟨q, hq⟩ := ejecutar_r hg.mutex (by omega)
        rw [hq] at hrun
        cases hrun
        have himpreso : h.impreso = s.impreso := by simp [Historia.impreso, hseg]
        rw [himpreso] at himp
        rw [hpila]
        refine ⟨fun s' hs' => ?_, ?_⟩
        · cases hs'
          refine ⟨hg.mutex, ?_, ?_, ?_, ?_⟩
          · simp only [List.tail_cons]
            omega
          · simp only [List.tail_cons, hfull]
            omega
          · simp only [List.tail_cons]
            omega
          · exact hlug.2.congr fun a ha => bzero_arriba _ _ ha
        · have hultima := hlug.1.cadena_iff (by omega)
          exact List.rel_append himp (.cons hultima .nil)

theorem EnOrden.correr {h : Historia} (hh : EnOrden h) (ordenes : List Orden) : EnOrden (h.correr ordenes) := by
  induction ordenes generalizing h with
  | nil => exact hh
  | cons o ordenes ih =>
    unfold Historia.correr
    cases hrun : h.orden o with
    | none => exact hh
    | some h' => exact ih (hh.orden o hrun)

theorem Impresas.eq_iff {impreso : List (List UInt8)} {sacadas : List (Palabra × Bool)}
    (h : Impresas impreso sacadas) : impreso = sacadas.map (·.1.bytes) ↔ ∀ x ∈ sacadas, x.2 = true := by
  induction h with
  | nil => simp
  | cons hx _ ih => simp [hx, ih]

/-- In every sequence of commands, each `-r` prints the word it removes exactly when every word that was
removed had been pushed onto a place with a zero byte where the word ends. -/
theorem palabras_vuelven_iff (ordenes : List Orden) :
    (vacia.correr ordenes).impreso = (vacia.correr ordenes).sacadas.map (·.1.bytes) ↔
      ∀ x ∈ (vacia.correr ordenes).sacadas, x.2 = true := by
  have hvacia : EnOrden vacia := ⟨fun s hs => (by cases hs), .nil⟩
  exact (hvacia.correr ordenes).impresas.eq_iff

def abc : Palabra := { bytes := [97, 98, 99], ne_nil := by decide, sinNul := by decide, corta := by decide }

def equis : Palabra := { bytes := [120], ne_nil := by decide, sinNul := by decide, corta := by decide }

/-- "abc" is pushed, the stack is created again, and "x" pushed onto the old bytes comes back as "xbc". -/
theorem equis_vuelve_xbc :
    (vacia.correr [.c, .w abc, .c, .w equis, .r]).sacadas.map (·.1.bytes) = [[120]] ∧
      (vacia.correr [.c, .w abc, .c, .w equis, .r]).impreso = [[120, 98, 99]] := by
  refine ⟨rfl, ?_⟩
  decide +kernel

end Laboratorio.Wordheap
