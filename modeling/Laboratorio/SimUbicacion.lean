import Laboratorio.Placement
import Laboratorio.SimTables

/-! Where the tables of the simulator say a page is, and what the frames say they hold. The page
tables and the two memories are read as one pair of partial maps between virtual pages and frames;
every assignment of the loop body is an update of one of the two at one point. -/

namespace Laboratorio.Sim

open Function

/-- A slot of `procesos` and a page number. The slot `p` belongs to the process of pid `p + 1`. -/
abbrev PagVirtual := Fin MAX_PROCESOS × Fin VIRTUAL

/-- The number of the process in the input, from 1. -/
abbrev PagVirtual.pid (x : PagVirtual) : Int := x.1.val + 1

abbrev PagVirtual.pagina (x : PagVirtual) : Int := x.2.val

abbrev Marco := Fin FISICA ⊕ Fin SWAP

variable {n : Nat}

theorem indexar_val (i : Fin n) : indexar n (i.val : Int) = .ok i := by
  have h : 0 ≤ (i.val : Int) ∧ (i.val : Int) < n := ⟨by omega, by have := i.isLt; omega⟩
  simp [indexar, h]

theorem indexar_eq_ok {i : Int} {k : Fin n} (h : indexar n i = .ok k) :
    i = (k.val : Int) := by
  unfold indexar at h
  split at h
  · next hi =>
      cases h
      change i = ((i.toNat : Nat) : Int)
      omega
  · cases h

/-- The frame an entry of a page table names, if its fields name one. -/
def Pagina.ubicacion (e : Pagina) : Option Marco :=
  if e.memoria = 1 then (indexar FISICA e.nroEnMemoria).toOption.map .inl
  else if e.memoria = 2 then (indexar SWAP e.nroEnMemoria).toOption.map .inr
  else none

/-- The page a frame holds, if its fields name one. -/
def Pagina.virtual (e : Pagina) : Option PagVirtual :=
  match indexar MAX_PROCESOS (e.pid - 1), indexar VIRTUAL e.indice with
  | .ok p, .ok q => some (p, q)
  | _, _ => none

variable {e : Pagina}

theorem ubicacion_ram {k : Fin FISICA} (hm : e.memoria = 1)
    (hn : e.nroEnMemoria = (k.val : Int)) : e.ubicacion = some (.inl k) := by
  rw [Pagina.ubicacion, if_pos hm, hn, indexar_val]
  rfl

theorem ubicacion_swap {k : Fin SWAP} (hm : e.memoria = 2)
    (hn : e.nroEnMemoria = (k.val : Int)) : e.ubicacion = some (.inr k) := by
  rw [Pagina.ubicacion, if_neg (by omega), if_pos hm, hn, indexar_val]
  rfl

theorem ubicacion_eq_ram {k : Fin FISICA} :
    e.ubicacion = some (.inl k) ↔ e.memoria = 1 ∧ e.nroEnMemoria = (k.val : Int) := by
  constructor
  · intro h
    unfold Pagina.ubicacion at h
    split_ifs at h with h1 h2
    · refine ⟨h1, ?_⟩
      cases hi : indexar FISICA e.nroEnMemoria with
      | error => simp [hi, Except.toOption] at h
      | ok j =>
        simp only [hi, Except.toOption, Option.map_some, Option.some.injEq, Sum.inl.injEq] at h
        subst h
        exact indexar_eq_ok hi
    · cases hi : indexar SWAP e.nroEnMemoria <;> simp [hi, Except.toOption] at h
  · exact fun h => ubicacion_ram h.1 h.2

theorem ubicacion_eq_swap {k : Fin SWAP} :
    e.ubicacion = some (.inr k) ↔ e.memoria = 2 ∧ e.nroEnMemoria = (k.val : Int) := by
  constructor
  · intro h
    unfold Pagina.ubicacion at h
    split_ifs at h with h1 h2
    · cases hi : indexar FISICA e.nroEnMemoria <;> simp [hi, Except.toOption] at h
    · refine ⟨h2, ?_⟩
      cases hi : indexar SWAP e.nroEnMemoria with
      | error => simp [hi, Except.toOption] at h
      | ok j =>
        simp only [hi, Except.toOption, Option.map_some, Option.some.injEq, Sum.inr.injEq] at h
        subst h
        exact indexar_eq_ok hi
  · exact fun h => ubicacion_swap h.1 h.2

theorem ubicacion_none (h1 : e.memoria ≠ 1) (h2 : e.memoria ≠ 2) :
    e.ubicacion = none := by
  rw [Pagina.ubicacion, if_neg h1, if_neg h2]

theorem virtual_eq_some {x : PagVirtual} :
    e.virtual = some x ↔ e.pid = (x.1.val : Int) + 1 ∧ e.indice = (x.2.val : Int) := by
  constructor
  · intro h
    unfold Pagina.virtual at h
    cases hp : indexar MAX_PROCESOS (e.pid - 1) with
    | error => simp [hp] at h
    | ok p =>
      cases hq : indexar VIRTUAL e.indice with
      | error => simp [hp, hq] at h
      | ok q =>
        simp only [hp, hq, Option.some.injEq] at h
        subst h
        have h1 := indexar_eq_ok hp
        have h2 := indexar_eq_ok hq
        exact ⟨by simp only; omega, h2⟩
  · rintro ⟨hp, hq⟩
    have h1 : e.pid - 1 = (x.1.val : Int) := by omega
    simp only [Pagina.virtual, h1, hq, indexar_val]

theorem primerHueco_eq_some {paginas : Fin n → Pagina} {k : Fin n} (h : primerHueco paginas = some k) :
    (paginas k).pid = -1 ∧ ∀ j < k, (paginas j).pid ≠ -1 := by
  obtain ⟨hk, i, hi, hik, hlt⟩ := List.find?_eq_some_iff_getElem.mp h
  refine ⟨of_decide_eq_true hk, fun j hj => ?_⟩
  rw [List.getElem_finRange] at hik
  have hji : j.val < i := by
    rw [← hik] at hj
    exact hj
  have hne := hlt j.val hji
  simpa using hne

theorem primerHueco_eq_none {paginas : Fin n → Pagina} :
    primerHueco paginas = none ↔ ∀ k, (paginas k).pid ≠ -1 := by
  simp [primerHueco]

theorem menorLru_fold (paginas : Fin FISICA → Pagina) (l : List (Fin FISICA))
    (menor : Fin FISICA × Int) (hmenor : menor.2 = (paginas menor.1).lruIndice) :
    let r := l.foldl (fun menor i => if (paginas i).lruIndice < menor.2 then (i, (paginas i).lruIndice) else menor)
      menor
    r.2 = (paginas r.1).lruIndice ∧ r.2 ≤ menor.2 ∧ ∀ j ∈ l, r.2 ≤ (paginas j).lruIndice := by
  induction l generalizing menor with
  | nil => exact ⟨hmenor, le_refl _, by simp⟩
  | cons i l ih =>
    rw [List.foldl_cons]
    by_cases hlt : (paginas i).lruIndice < menor.2
    · rw [if_pos hlt]
      obtain ⟨h1, h2, h3⟩ := ih (i, (paginas i).lruIndice) rfl
      refine ⟨h1, le_of_lt (lt_of_le_of_lt h2 hlt), ?_⟩
      intro j hj
      rcases List.mem_cons.mp hj with rfl | hj
      · exact h2
      · exact h3 j hj
    · rw [if_neg hlt]
      obtain ⟨h1, h2, h3⟩ := ih menor hmenor
      refine ⟨h1, h2, ?_⟩
      intro j hj
      rcases List.mem_cons.mp hj with rfl | hj
      · exact le_trans h2 (not_lt.mp hlt)
      · exact h3 j hj

theorem menorLru_le (paginas : Fin FISICA → Pagina) (j : Fin FISICA) :
    (paginas (menorLru paginas).1).lruIndice ≤ (paginas j).lruIndice := by
  obtain ⟨h1, h2, h3⟩ := menorLru_fold paginas ((List.finRange FISICA).drop 1)
    (⟨0, by decide⟩, (paginas ⟨0, by decide⟩).lruIndice) rfl
  change (menorLru paginas).2 = (paginas (menorLru paginas).1).lruIndice at h1
  rw [← h1]
  by_cases hj : j.val = 0
  · have : j = ⟨0, by decide⟩ := Fin.ext hj
    rw [this]
    exact h2
  · refine h3 j ?_
    have hmem := List.mem_finRange j
    revert hj hmem
    revert j
    decide

/-! ### The page tables and the memories as maps -/

namespace Estado

def tabla (s : Estado) (x : PagVirtual) : Pagina := (s.procesos x.1).paginas x.2

def marco (s : Estado) : Marco → Pagina
  | .inl k => s.ram.paginas k
  | .inr k => s.memSecundaria.paginas k

def loc (s : Estado) : PagVirtual → Option Marco := Pagina.ubicacion ∘ s.tabla

def held (s : Estado) : Marco → Option PagVirtual := Pagina.virtual ∘ s.marco

variable (s : Estado) (x : PagVirtual) (e : Pagina)

theorem entrada_virtual : s.entrada x.pid x.pagina = .ok (s.tabla x) := by
  simp only [entrada, Int.add_sub_cancel, indexar_val]
  rfl

theorem cambiarEntrada_virtual (f : Pagina → Pagina) :
    s.cambiarEntrada x.pid x.pagina f = .ok (s.ponerEntrada x.1 x.2 (f (s.tabla x))) := by
  simp only [cambiarEntrada, Int.add_sub_cancel, indexar_val]
  rfl

@[simp] theorem tabla_ponerEntrada :
    (s.ponerEntrada x.1 x.2 e).tabla = update s.tabla x e := by
  funext y
  obtain ⟨p, q⟩ := x
  obtain ⟨p', q'⟩ := y
  simp only [tabla, ponerEntrada, ponerProceso]
  by_cases hp : p' = p
  · subst hp
    by_cases hq : q' = q
    · subst hq
      simp
    · simp only [update_self, update_of_ne hq]
      rw [update_of_ne (by simp [hq])]
      rfl
  · rw [update_of_ne hp, update_of_ne (by simp [hp])]
    rfl

@[simp] theorem marco_ponerEntrada : (s.ponerEntrada x.1 x.2 e).marco = s.marco := rfl

@[simp] theorem activo_ponerEntrada (p : Fin MAX_PROCESOS) :
    ((s.ponerEntrada x.1 x.2 e).procesos p).activo = (s.procesos p).activo := by
  simp only [ponerEntrada, ponerProceso]
  by_cases hp : p = x.1
  · subst hp
    simp
  · rw [update_of_ne hp]

@[simp] theorem ram_ponerEntrada : (s.ponerEntrada x.1 x.2 e).ram = s.ram := rfl

@[simp] theorem lru_ponerEntrada : (s.ponerEntrada x.1 x.2 e).lruIndex = s.lruIndex := rfl

@[simp] theorem tabla_ponerMarco (k : Fin FISICA) : (s.ponerMarco k e).tabla = s.tabla := rfl

@[simp] theorem marco_ponerMarco (k : Fin FISICA) :
    (s.ponerMarco k e).marco = update s.marco (.inl k) e := by
  funext m
  cases m with
  | inl j =>
    by_cases hj : j = k
    · subst hj
      simp [marco, ponerMarco]
    · simp [marco, ponerMarco, update_of_ne hj,
        update_of_ne (Sum.inl_injective.ne hj)]
  | inr j => simp [marco, ponerMarco]

@[simp] theorem activo_ponerMarco (k : Fin FISICA) (p : Fin MAX_PROCESOS) :
    ((s.ponerMarco k e).procesos p).activo = (s.procesos p).activo := rfl

@[simp] theorem fifo_ponerMarco (k : Fin FISICA) :
    (s.ponerMarco k e).ram.fifoIndex = s.ram.fifoIndex := rfl

@[simp] theorem lru_ponerMarco (k : Fin FISICA) : (s.ponerMarco k e).lruIndex = s.lruIndex := rfl

@[simp] theorem tabla_ponerSwap (k : Fin SWAP) : (s.ponerSwap k e).tabla = s.tabla := rfl

@[simp] theorem marco_ponerSwap (k : Fin SWAP) :
    (s.ponerSwap k e).marco = update s.marco (.inr k) e := by
  funext m
  cases m with
  | inl j => simp [marco, ponerSwap]
  | inr j =>
    by_cases hj : j = k
    · subst hj
      simp [marco, ponerSwap]
    · simp [marco, ponerSwap, update_of_ne hj,
        update_of_ne (Sum.inr_injective.ne hj)]

@[simp] theorem activo_ponerSwap (k : Fin SWAP) (p : Fin MAX_PROCESOS) :
    ((s.ponerSwap k e).procesos p).activo = (s.procesos p).activo := rfl

@[simp] theorem ram_ponerSwap (k : Fin SWAP) : (s.ponerSwap k e).ram = s.ram := rfl

variable (m : Mensaje)

@[simp] theorem tabla_imprimir : (s.imprimir m).tabla = s.tabla := rfl
@[simp] theorem marco_imprimir : (s.imprimir m).marco = s.marco := rfl
@[simp] theorem ram_imprimir : (s.imprimir m).ram = s.ram := rfl
@[simp] theorem procesos_imprimir : (s.imprimir m).procesos = s.procesos := rfl
@[simp] theorem memSecundaria_imprimir : (s.imprimir m).memSecundaria = s.memSecundaria := rfl
@[simp] theorem lru_imprimir : (s.imprimir m).lruIndex = s.lruIndex := rfl

@[simp] theorem tabla_avanzarFifo : s.avanzarFifo.tabla = s.tabla := rfl
@[simp] theorem procesos_avanzarFifo : s.avanzarFifo.procesos = s.procesos := rfl

@[simp] theorem marco_avanzarFifo : s.avanzarFifo.marco = s.marco := by
  funext m
  cases m <;> rfl

@[simp] theorem tabla_avanzarLru : s.avanzarLru.tabla = s.tabla := rfl
@[simp] theorem marco_avanzarLru : s.avanzarLru.marco = s.marco := rfl
@[simp] theorem ram_avanzarLru : s.avanzarLru.ram = s.ram := rfl
@[simp] theorem procesos_avanzarLru : s.avanzarLru.procesos = s.procesos := rfl

end Estado
end Laboratorio.Sim
