import Laboratorio.SimAcceso

/-! Whole runs of the simulator. A history gives the state after each number of accesses; the pages
of a history enter RAM, stay and leave, and the two policies are statements about these times. -/

namespace Laboratorio.Sim

open Function

/-- A pair `(pid, pagina)` that the input check lets through and that names a process. -/
def EnRango (a : Int × Int) : Prop := (1 ≤ a.1 ∧ a.1 ≤ 99) ∧ 0 ≤ a.2 ∧ a.2 ≤ 15

/-- The frame `m` holds the page of the pair `a`. -/
def Estado.Sostiene (s : Estado) (m : Marco) (a : Int × Int) : Prop :=
  (s.marco m).pid = a.1 ∧ (s.marco m).indice = a.2

def Estado.EnRam (s : Estado) (a : Int × Int) : Prop := ∃ k, s.Sostiene (.inl k) a

/-- Every touched page is held by exactly one frame, and its entry reads `(1, k)` or `(2, k)` exactly
when RAM frame `k` or swap frame `k` holds it. -/
structure TablasConcuerdan (s : Estado) (tocadas : List (Int × Int)) : Prop where
  unMarco : ∀ a ∈ tocadas, ∃! m, s.Sostiene m a
  enRam : ∀ a ∈ tocadas, ∀ e, s.entrada a.1 a.2 = .ok e → ∀ k : Fin FISICA,
    (e.memoria = 1 ∧ e.nroEnMemoria = (k.val : Int)) ↔ s.Sostiene (.inl k) a
  enSwap : ∀ a ∈ tocadas, ∀ e, s.entrada a.1 a.2 = .ok e → ∀ k : Fin SWAP,
    (e.memoria = 2 ∧ e.nroEnMemoria = (k.val : Int)) ↔ s.Sostiene (.inr k) a

def tras (modo : Char) (s₀ : Estado) (accesos : List (Int × Int)) : Nat → Option Estado :=
  afterPrefix (acceso modo) s₀ accesos

/-! ### Residence in RAM -/

variable {a : Int × Int} {t : Nat}

section

variable (h : Nat → Option Estado)

/-- After `t` accesses the page is in RAM. -/
def Residente (t : Nat) (a : Int × Int) : Prop := ∃ s, h t = some s ∧ s.EnRam a

/-- Access number `i` (from 0) brought the page into RAM, where it stayed up to time `t`. -/
def CargadaEn (i t : Nat) (a : Int × Int) : Prop :=
  i < t ∧ ¬Residente h i a ∧ ∀ j, i < j → j ≤ t → Residente h j a

/-- Access number `t` drove the page out of RAM. -/
def Desalojada (t : Nat) (a : Int × Int) : Prop := Residente h t a ∧ ¬Residente h (t + 1) a

variable {h}

theorem CargadaEn.unica {i j : Nat} (hi : CargadaEn h i t a) (hj : CargadaEn h j t a) : i = j := by
  rcases Nat.lt_trichotomy i j with hlt | heq | hlt
  · exact absurd (hi.2.2 j hlt (le_of_lt hj.1)) hj.2.1
  · exact heq
  · exact absurd (hj.2.2 i hlt (le_of_lt hi.1)) hi.2.1

theorem CargadaEn.sigue {i : Nat} (hi : CargadaEn h i t a)
    (hr : Residente h (t + 1) a) : CargadaEn h i (t + 1) a := by
  refine ⟨by have := hi.1; omega, hi.2.1, fun j hij hj => ?_⟩
  rcases Nat.lt_or_ge t j with hlt | hge
  · have : j = t + 1 := by omega
    rw [this]
    exact hr
  · exact hi.2.2 j hij hge

theorem CargadaEn.nueva (hn : ¬Residente h t a)
    (hr : Residente h (t + 1) a) : CargadaEn h t (t + 1) a := by
  refine ⟨by omega, hn, fun j hij hj => ?_⟩
  have : j = t + 1 := by omega
  rw [this]
  exact hr

end

/-! ### Pairs of integers and virtual pages -/

def par (x : PagVirtual) : Int × Int := ((x.1.val : Int) + 1, (x.2.val : Int))

variable {x y : PagVirtual}

theorem par_injective (h : par x = par y) : x = y := by
  simp only [par, Prod.mk.injEq] at h
  exact Prod.ext (Fin.ext (by omega)) (Fin.ext (by omega))

theorem EnRango.exists_par (ha : EnRango a) :
    ∃ x : PagVirtual, x.1.val < 99 ∧ a = par x := by
  obtain ⟨⟨h1, h2⟩, h3, h4⟩ := ha
  refine ⟨(⟨(a.1 - 1).toNat, ?_⟩, ⟨a.2.toNat, ?_⟩), ?_, Prod.ext ?_ ?_⟩
  · simp only [MAX_PROCESOS]
    omega
  · simp only [VIRTUAL]
    omega
  · simp only
    omega
  · simp only [par]
    omega
  · simp only [par]
    omega

variable {s : Estado}

theorem sostiene_par {m : Marco} :
    s.Sostiene m (par x) ↔ s.held m = some x := virtual_eq_some.symm

theorem enRam_par :
    s.EnRam (par x) ↔ ∃ k, s.held (.inl k) = some x := by
  simp only [Estado.EnRam, sostiene_par]

theorem residente_par {h : Nat → Option Estado} (hs : h t = some s)
    : Residente h t (par y) ↔ ∃ j, s.held (.inl j) = some y := by
  rw [← enRam_par]
  constructor
  · rintro ⟨r, hr, hy⟩
    rw [hs] at hr
    cases hr
    exact hy
  · exact fun hy => ⟨s, hs, hy⟩

def Tocadas (accesos : List (Int × Int)) (x : PagVirtual) : Prop := par x ∈ accesos

variable {accesos : List (Int × Int)}

theorem Concuerda.tablas (h : Concuerda s (Tocadas accesos))
    (hr : ∀ a ∈ accesos, EnRango a) : TablasConcuerdan s accesos := by
  refine ⟨?_, ?_, ?_⟩
  · intro a ha
    obtain ⟨x, -, rfl⟩ := (hr a ha).exists_par
    obtain ⟨m, hm⟩ := (h.tocada x).mp ha
    have hh := (h.agree x m).mp hm
    exact ⟨m, sostiene_par.mpr hh, fun m' hm' => h.agree.held_unique (sostiene_par.mp hm') hh⟩
  · intro a ha e he k
    obtain ⟨x, -, rfl⟩ := (hr a ha).exists_par
    rw [par, Estado.entrada_virtual] at he
    cases he
    rw [← ubicacion_eq_ram, sostiene_par]
    exact h.agree x (.inl k)
  · intro a ha e he k
    obtain ⟨x, -, rfl⟩ := (hr a ha).exists_par
    rw [par, Estado.entrada_virtual] at he
    cases he
    rw [← ubicacion_eq_swap, sostiene_par]
    exact h.agree x (.inr k)

theorem Inicial.concuerda (h : Inicial s)
    (hmem : ∀ x, (s.tabla x).memoria ≠ 1 ∧ (s.tabla x).memoria ≠ 2) : Concuerda s (Tocadas []) := by
  have hloc : ∀ x, s.loc x = none := fun x => ubicacion_none (hmem x).1 (hmem x).2
  have hpid : ∀ m, (s.marco m).pid = -1 := by
    intro m
    cases m with
    | inl k => exact h.ram k
    | inr k => exact h.memSecundaria k
  have hheld : ∀ m, s.held m = none := by
    intro m
    cases hm : s.held m with
    | none => rfl
    | some x => exact absurd (hpid m) (virtual_pid hm)
  refine ⟨fun x m => by simp [hloc, hheld], fun x => by simp [hloc, Tocadas],
    fun x _ => hmem x, fun x hx => by simp [Tocadas] at hx, ?_, fun m _ => hpid m,
    fun i v hv => by simp [hheld] at hv⟩
  intro x hx
  exact absurd (h.activo x.1) hx

theorem arranque_memoria (x : PagVirtual) :
    (arranque.tabla x).memoria ≠ 1 ∧ (arranque.tabla x).memoria ≠ 2 :=
  ⟨show (0 : Int) ≠ 1 by decide, show (0 : Int) ≠ 2 by decide⟩

theorem tocadas_take_succ (ht : t < accesos.length)
    (hx : accesos[t] = par x) :
    (fun y => Tocadas (accesos.take t) y ∨ y = x) = Tocadas (accesos.take (t + 1)) := by
  funext y
  simp only [Tocadas, ← List.take_append_getElem ht, List.mem_append, List.mem_singleton, hx]
  refine propext (or_congr Iff.rfl ⟨fun he => by rw [he], par_injective⟩)

/-- A run that the check of the secondary memory does not stop finds a free swap frame at every
access. -/
theorem hueco_of_no_llena {modo : Char} {s₀ : Estado}
    (ht : t < accesos.length) (hr : EnRango accesos[t]) (hno : correr modo s₀ accesos ≠ .error .memoriaSecundariaLlena)
    (hs : tras modo s₀ accesos t = some s) :
    ∃ i, primerHueco s.memSecundaria.paginas = some i := by
  cases hi : primerHueco s.memSecundaria.paginas with
  | some i => exact ⟨i, rfl⟩
  | none =>
    refine absurd (foldlM_error_of_step (acceso modo) ht hs ?_) hno
    have hrango : ¬((accesos[t]).1 > (MAX_PROCESOS : Int) - 1 ∨
        (accesos[t]).2 > (VIRTUAL : Int) - 1) := by
      obtain ⟨⟨-, h2⟩, -, h4⟩ := hr
      simp only [MAX_PROCESOS, VIRTUAL]
      omega
    simp only [acceso, if_neg hrango, verificarMemoriaSecundaria, hi]
    rfl

/-! ### Which page leaves RAM -/

variable {s s' : Estado} {x : PagVirtual} {k : Fin FISICA} {quieta avanza : Prop}

theorem Efecto.desalojada (he : Efecto s s' x k quieta avanza)
    (hy : s.EnRam (par y)) (hy' : ¬s'.EnRam (par y)) : s.held (.inl k) = some y := by
  obtain ⟨l, hl⟩ := enRam_par.mp hy
  rw [enRam_par] at hy'
  cases he with
  | acierto j hx hheld hq => exact absurd ⟨l, by rw [hheld]; exact hl⟩ hy'
  | carga j hx hj hheld hq =>
    by_cases hlj : l = j
    · subst hlj
      have hpid := (primerHueco_eq_some hj).1
      exact absurd hpid (virtual_pid hl)
    · refine absurd ⟨l, ?_⟩ hy'
      rw [hheld, update_of_ne (Sum.inl_injective.ne hlj)]
      exact hl
  | cede v i hx hllena hv hheld ha =>
    by_cases hlk : l = k
    · rw [← hlk]
      exact hl
    · refine absurd ⟨l, ?_⟩ hy'
      rw [hheld, update_of_ne (Sum.inl_injective.ne hlk), update_of_ne (by simp)]
      exact hl

theorem Efecto.accedida {T : PagVirtual → Prop} (h : Concuerda s T) (he : Efecto s s' x k quieta avanza) :
    s'.EnRam (par x) := by
  rw [enRam_par]
  cases he with
  | acierto j hx hheld hq => exact ⟨j, by rw [hheld]; exact (h.agree x (.inl j)).mp hx⟩
  | carga j hx hj hheld hq => exact ⟨j, by rw [hheld, update_self]⟩
  | cede v i hx hllena hv hheld ha => exact ⟨k, by rw [hheld, update_self]⟩

end Laboratorio.Sim
