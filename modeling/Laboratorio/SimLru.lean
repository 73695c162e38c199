import Laboratorio.SimHistoria

/-! Mode `l`. The `lruIndice` of an occupied RAM frame is the position of the last access to its
page, so the frame of smallest `lruIndice` holds the page that was not accessed for longest. The
positions are counted in a 32-bit `int`, hence the bound on the number of accesses. -/

namespace Laboratorio.Sim

/-- Position `p` (from 0) of the list is the last access to the page. -/
def UltimoAcceso (accesos : List (Int × Int)) (a : Int × Int) (p : Nat) : Prop :=
  accesos[p]? = some a ∧ ∀ q, p < q → accesos[q]? ≠ some a

theorem UltimoAcceso.unico {accesos : List (Int × Int)} {a : Int × Int} {p q : Nat}
    (hp : UltimoAcceso accesos a p) (hq : UltimoAcceso accesos a q) : p = q := by
  rcases Nat.lt_trichotomy p q with hlt | heq | hlt
  · exact absurd hq.1 (hp.2 q hlt)
  · exact heq
  · exact absurd hp.1 (hq.2 p hlt)

theorem ultimoAcceso_nuevo (accesos : List (Int × Int)) (a : Int × Int) :
    UltimoAcceso (accesos ++ [a]) a accesos.length := by
  refine ⟨by simp, fun q hq => ?_⟩
  rw [List.getElem?_eq_none (by simp; omega)]
  simp

theorem UltimoAcceso.sigue {accesos : List (Int × Int)} {a b : Int × Int} {p : Nat}
    (h : UltimoAcceso accesos a p) (hab : b ≠ a) : UltimoAcceso (accesos ++ [b]) a p := by
  have hp : p < accesos.length := by
    by_contra hge
    have := h.1
    rw [List.getElem?_eq_none (by omega)] at this
    cases this
  refine ⟨by rw [List.getElem?_append_left hp]; exact h.1, fun q hq => ?_⟩
  rcases Nat.lt_trichotomy q accesos.length with hlt | heq | hlt
  · rw [List.getElem?_append_left hlt]
    exact h.2 q hq
  · subst heq
    simpa using hab
  · rw [List.getElem?_eq_none (by simp; omega)]
    simp

theorem incInt_of_lt {t : Nat} (ht : t + 1 < 2 ^ 31) : incInt (t : Int) = ((t + 1 : Nat) : Int) := by
  rw [incInt, Int.bmod_eq_of_le (by omega) (by omega)]
  omega

/-- Every occupied RAM frame is stamped with the position of the last access to its page. -/
def Sellada (s : Estado) (accesos : List (Int × Int)) : Prop :=
  ∀ k y, s.held (.inl k) = some y → ∃ p : Nat, UltimoAcceso accesos (par y) p ∧
    (s.ram.paginas k).lruIndice = (p : Int)

variable {s s' s₀ : Estado} {x : PagVirtual} {T T' : PagVirtual → Prop} {accesos : List (Int × Int)}

theorem Sellada.paso (hsel : Sellada s accesos) (hlru : s.lruIndex = (accesos.length : Int))
    (hc' : Concuerda s' T') (hp : Sella s s' x) : Sellada s' (accesos ++ [par x]) := by
  obtain ⟨⟨j, hj, hstamp, hother⟩, -⟩ := hp
  intro k y hk
  by_cases hkj : k = j
  · subst hkj
    rw [hj] at hk
    cases hk
    exact ⟨accesos.length, ultimoAcceso_nuevo accesos (par x), hstamp.trans hlru⟩
  have hne : par x ≠ par y := by
    intro he
    have hxy := par_injective he
    subst hxy
    exact hkj (Sum.inl_injective (hc'.agree.held_unique hk hj))
  have hk0 : s.held (.inl k) = some y := by
    have hmarco : s'.marco (.inl k) = s.marco (.inl k) := hother k hkj
    rw [Estado.held, Function.comp_apply, hmarco] at hk
    exact hk
  obtain ⟨p, hp, hpl⟩ := hsel k y hk0
  exact ⟨p, hp.sigue hne, by rw [hother k hkj]; exact hpl⟩

theorem Sellada.menor (hsel : Sellada s accesos) {y z : PagVirtual} {l : Fin FISICA}
    (hy : s.held (.inl (menorLru s.ram.paginas).1) = some y) (hz : s.held (.inl l) = some z)
    (hne : y ≠ z) {p q : Nat} (hp : UltimoAcceso accesos (par y) p) (hq : UltimoAcceso accesos (par z) q) : p < q := by
  obtain ⟨p', hp', hpl⟩ := hsel _ y hy
  obtain ⟨q', hq', hql⟩ := hsel l z hz
  rw [hp.unico hp', hq.unico hq']
  have hle := menorLru_le s.ram.paginas l
  rw [hpl, hql] at hle
  have hpq : p' ≠ q' := by
    rintro rfl
    have := hp'.1.symm.trans hq'.1
    exact hne (par_injective (Option.some.inj this))
  omega

/-! ### Runs -/

/-- After `t` accesses: page tables and frames agree, the page just accessed is in RAM, the stamp of
every occupied RAM frame is the position of the last access to its page, and a page that the last
access drove out of RAM was the one whose last access was oldest. -/
def LruBien (s₀ : Estado) (accesos : List (Int × Int)) (t : Nat) : Prop :=
  ∃ s, tras 'l' s₀ accesos t = some s ∧ TablasConcuerdan s (accesos.take t) ∧
    (∀ a, (accesos.take t).getLast? = some a → s.EnRam a) ∧
    (∀ k, (s.ram.paginas k).pid ≠ -1 → ∃ p : Nat, (s.ram.paginas k).lruIndice = (p : Int) ∧
      UltimoAcceso (accesos.take t) ((s.ram.paginas k).pid, (s.ram.paginas k).indice) p) ∧
    ∀ u, u + 1 = t → ∀ a b, EnRango a → EnRango b → a ≠ b →
      Desalojada (tras 'l' s₀ accesos) u a → Residente (tras 'l' s₀ accesos) u b →
      ∀ p q, UltimoAcceso (accesos.take u) a p → UltimoAcceso (accesos.take u) b q → p < q

/-- What holds after `t` accesses of every run. -/
def EstadoLru (s₀ : Estado) (accesos : List (Int × Int)) (t : Nat) (s : Estado) : Prop :=
  tras 'l' s₀ accesos t = some s ∧ Concuerda s (Tocadas (accesos.take t)) ∧
    Sellada s (accesos.take t) ∧ s.lruIndex = (t : Int)

theorem EstadoLru.inicial (hini : Inicial s₀) (hmem : ∀ x, (s₀.tabla x).memoria ≠ 1 ∧ (s₀.tabla x).memoria ≠ 2) :
    EstadoLru s₀ accesos 0 s₀ := by
  have hc := hini.concuerda hmem
  refine ⟨rfl, by simpa using hc, ?_, by simpa using hini.lruIndex⟩
  intro k y hk
  rw [(hc.held_eq_none_iff (.inl k)).mpr (hini.ram k)] at hk
  cases hk

theorem EstadoLru.avanza {t : Nat} (ht : t < accesos.length) (hmax : accesos.length < 2 ^ 31) (hr : EnRango accesos[t])
    (hno : correr 'l' s₀ accesos ≠ .error .memoriaSecundariaLlena) (hs : EstadoLru s₀ accesos t s) :
    ∃ s', EstadoLru s₀ accesos (t + 1) s' ∧ s'.EnRam accesos[t] ∧
      ∀ a b, EnRango a → EnRango b → a ≠ b → Desalojada (tras 'l' s₀ accesos) t a →
        Residente (tras 'l' s₀ accesos) t b → ∀ p q, UltimoAcceso (accesos.take t) a p →
        UltimoAcceso (accesos.take t) b q → p < q := by
  obtain ⟨htras, hc, hsel, hlru⟩ := hs
  obtain ⟨x, hx, hax⟩ := hr.exists_par
  obtain ⟨i, hi⟩ := hueco_of_no_llena ht hr hno htras
  obtain ⟨s', hrun, hef, hp, hc'⟩ := acceso_lru hc hx hi
  have hstep : acceso 'l' s accesos[t] = .ok s' := by
    rw [hax]
    exact hrun
  have htras' := afterPrefix_succ (acceso 'l') ht htras hstep
  have hlen : (accesos.take t).length = t := List.length_take_of_le (le_of_lt ht)
  refine ⟨s', ⟨htras', ?_, ?_, ?_⟩, ?_, ?_⟩
  · rw [← tocadas_take_succ ht hax]
    exact hc'
  · rw [← List.take_append_getElem ht, hax]
    exact hsel.paso (by rw [hlen]; exact hlru) hc' hp
  · rw [hp.2, hlru, incInt_of_lt (by omega)]
  · rw [hax]
    exact hef.accedida hc
  intro a b ha hb hab hda hrb p q hpa hqb
  obtain ⟨y, -, rfl⟩ := ha.exists_par
  obtain ⟨z, -, rfl⟩ := hb.exists_par
  have hy : s.held (.inl (menorLru s.ram.paginas).1) = some y := by
    refine hef.desalojada (enRam_par.mpr ((residente_par htras).mp hda.1)) ?_
    rw [enRam_par, ← residente_par htras']
    exact hda.2
  obtain ⟨l, hz⟩ := (residente_par htras).mp hrb
  exact hsel.menor hy hz (fun he => hab (by rw [he])) hpa hqb

theorem EstadoLru.sellos {t : Nat} (hs : EstadoLru s₀ accesos t s) (k : Fin FISICA) (hk : (s.ram.paginas k).pid ≠ -1) :
    ∃ p : Nat, (s.ram.paginas k).lruIndice = (p : Int) ∧
      UltimoAcceso (accesos.take t) ((s.ram.paginas k).pid, (s.ram.paginas k).indice) p := by
  obtain ⟨-, hc, hsel, -⟩ := hs
  cases hy : s.held (.inl k) with
  | none => exact absurd (hc.libre (.inl k) hy) hk
  | some y =>
    obtain ⟨p, hp, hpl⟩ := hsel k y hy
    obtain ⟨h1, h2⟩ := sostiene_par.mpr hy
    refine ⟨p, hpl, ?_⟩
    have hpar : par y = ((s.ram.paginas k).pid, (s.ram.paginas k).indice) :=
      Prod.ext h1.symm h2.symm
    rw [← hpar]
    exact hp

theorem lru_estados (hini : Inicial s₀) (hmem : ∀ x, (s₀.tabla x).memoria ≠ 1 ∧ (s₀.tabla x).memoria ≠ 2)
    (hr : ∀ a ∈ accesos, EnRango a) (hmax : accesos.length < 2 ^ 31)
    (hno : correr 'l' s₀ accesos ≠ .error .memoriaSecundariaLlena)
    (t : Nat) (ht : t ≤ accesos.length) : ∃ s, EstadoLru s₀ accesos t s := by
  induction t with
  | zero => exact ⟨s₀, .inicial hini hmem⟩
  | succ t ih =>
    obtain ⟨s, hs⟩ := ih (by omega)
    obtain ⟨s', hs', -⟩ := hs.avanza ht hmax (hr _ (List.getElem_mem ht)) hno
    exact ⟨s', hs'⟩

/-- In mode `l` page tables, frames, stamps and evictions are right after every access of every run
of fewer than `2 ^ 31` accesses. -/
theorem lru_bien (s₀ : Estado) (hini : Inicial s₀)
    (hmem : ∀ x, (s₀.tabla x).memoria ≠ 1 ∧ (s₀.tabla x).memoria ≠ 2)
    (accesos : List (Int × Int)) (hr : ∀ a ∈ accesos, EnRango a) (hmax : accesos.length < 2 ^ 31)
    (hno : correr 'l' s₀ accesos ≠ .error .memoriaSecundariaLlena) :
    ∀ t ≤ accesos.length, LruBien s₀ accesos t := by
  intro t ht
  cases t with
  | zero =>
    have hs : EstadoLru s₀ accesos 0 s₀ := .inicial hini hmem
    exact ⟨s₀, rfl, (hini.concuerda hmem).tablas (by simp), by simp, hs.sellos, by simp⟩
  | succ t =>
    obtain ⟨s, hs⟩ := lru_estados hini hmem hr hmax hno t (by omega)
    obtain ⟨s', hs', hram, horden⟩ := hs.avanza ht hmax (hr _ (List.getElem_mem ht)) hno
    refine ⟨s', hs'.1, hs'.2.1.tablas ?_, ?_, hs'.sellos, ?_⟩
    · exact fun a ha => hr a (List.mem_of_mem_take ha)
    · intro a ha
      rw [← List.take_append_getElem ht, List.getLast?_append] at ha
      cases ha
      exact hram
    · intro u hu
      cases hu
      exact horden

/-- Eight pages of three processes, a hit, a new page, a swap-in and another new page. -/
def doceAccesos : List (Int × Int) :=
  [(1, 0), (1, 1), (2, 2), (1, 3), (1, 4), (3, 5), (1, 6), (1, 7), (1, 0), (1, 8), (1, 1), (1, 9)]

theorem lru_bien_doceAccesos : LruBien arranque doceAccesos 12 := by
  refine lru_bien arranque arranque_inicial arranque_memoria doceAccesos ?_ (by decide) ?_ 12
    (by decide)
  · unfold doceAccesos EnRango
    decide
  · intro he
    have h : (correr 'l' arranque doceAccesos).isOk = true := by decide +kernel
    rw [he] at h
    cases h

end Laboratorio.Sim
