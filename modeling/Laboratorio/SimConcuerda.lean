import Laboratorio.SimUbicacion

/-! The invariant that ties the page tables to the frames, and what one access does to a state
that satisfies it. `T` is the set of pages touched so far. -/

namespace Laboratorio.Sim

open Function

/-- Page tables and frames agree, the touched pages are exactly the placed ones, a frame that holds
no page is free, and nothing is in the secondary memory while RAM has a free frame. -/
structure Concuerda (s : Estado) (T : PagVirtual → Prop) : Prop where
  agree : Agree s.loc s.held
  tocada : ∀ x, T x ↔ ∃ m, s.loc x = some m
  fuera : ∀ x, ¬T x → (s.tabla x).memoria ≠ 1 ∧ (s.tabla x).memoria ≠ 2
  activa : ∀ x, T x → (s.procesos x.1).activo ≠ -1
  propia : ∀ x, (s.procesos x.1).activo ≠ -1 → (s.tabla x).virtual = some x
  libre : ∀ m, s.held m = none → (s.marco m).pid = -1
  ramLlena : ∀ i v, s.held (.inr i) = some v → ∀ k, s.held (.inl k) ≠ none

variable {x : PagVirtual} {e : Pagina}

theorem virtual_pid (h : e.virtual = some x) : e.pid ≠ -1 := by
  have hp := (virtual_eq_some.mp h).1
  omega

namespace Concuerda

variable {s : Estado} {T : PagVirtual → Prop}

section

variable (h : Concuerda s T)

include h

theorem held_eq_none_iff (m : Marco) : s.held m = none ↔ (s.marco m).pid = -1 := by
  refine ⟨h.libre m, fun hp => ?_⟩
  cases hv : s.held m with
  | none => rfl
  | some x => exact absurd hp (virtual_pid hv)

/-- A page in RAM has `memoria = 1`, a page in the secondary memory `memoria = 2`. -/
theorem tocada_iff_memoria (x : PagVirtual) :
    T x ↔ (s.tabla x).memoria = 1 ∨ (s.tabla x).memoria = 2 := by
  constructor
  · intro hx
    obtain ⟨m, hm⟩ := (h.tocada x).mp hx
    cases m with
    | inl k => exact Or.inl (ubicacion_eq_ram.mp hm).1
    | inr k => exact Or.inr (ubicacion_eq_swap.mp hm).1
  · intro hm
    by_contra hx
    obtain ⟨h1, h2⟩ := h.fuera x hx
    exact hm.elim h1 h2

theorem loc_eq_none_iff (x : PagVirtual) : s.loc x = none ↔ ¬T x := by
  rw [h.tocada x]
  cases s.loc x <;> simp

theorem hueco_ram {k : Fin FISICA} (hk : primerHueco s.ram.paginas = some k) : s.held (.inl k) = none :=
  (h.held_eq_none_iff (.inl k)).mpr (primerHueco_eq_some hk).1

theorem hueco_swap {i : Fin SWAP} (hi : primerHueco s.memSecundaria.paginas = some i) : s.held (.inr i) = none :=
  (h.held_eq_none_iff (.inr i)).mpr (primerHueco_eq_some hi).1

theorem ram_llena (hk : primerHueco s.ram.paginas = none) (k : Fin FISICA) : s.held (.inl k) ≠ none :=
  fun hv => primerHueco_eq_none.mp hk k ((h.held_eq_none_iff (.inl k)).mp hv)

/-- The page that leaves the frame `k` of a full RAM when `x`, which is not there, needs it. -/
theorem victima (hx : ∀ j, s.loc x ≠ some (.inl j)) (hllena : ∀ k, s.held (.inl k) ≠ none) (k : Fin FISICA) :
    ∃ v, s.held (.inl k) = some v ∧ s.loc v = some (.inl k) ∧ x ≠ v := by
  obtain ⟨v, hv⟩ := Option.ne_none_iff_exists'.mp (hllena k)
  have hvl := (h.agree v (.inl k)).mpr hv
  refine ⟨v, hv, hvl, ?_⟩
  rintro rfl
  exact hx k hvl

end

end Concuerda

theorem loc_eq_of_tabla {s s' : Estado} (h : s'.tabla = update s.tabla x e) :
    s'.loc = update s.loc x e.ubicacion := by
  rw [Estado.loc, h, comp_update]
  rfl

theorem held_eq_of_marco {s s' : Estado} {m : Marco} (h : s'.marco = update s.marco m e) :
    s'.held = update s.held m e.virtual := by
  rw [Estado.held, h, comp_update]
  rfl

theorem loc_eq_of_tabla₂ {s s' : Estado} {y : PagVirtual} {ex ey : Pagina} {m n : Option Marco}
    (h : s'.tabla = update (update s.tabla x ex) y ey) (hx : ex.ubicacion = m) (hy : ey.ubicacion = n) :
    s'.loc = update (update s.loc x m) y n := by
  rw [Estado.loc, h, comp_update, comp_update, hx, hy]
  rfl

theorem held_eq_of_marco₂ {s s' : Estado} {m n : Marco} {em en : Pagina} {x y : Option PagVirtual}
    (h : s'.marco = update (update s.marco m em) n en) (hm : em.virtual = x) (hn : en.virtual = y) :
    s'.held = update (update s.held m x) n y := by
  rw [Estado.held, h, comp_update, comp_update, hm, hn]
  rfl

/-- `s'` has the page tables `t` and the frames `m`, and the active processes of `s`. -/
structure Queda (s s' : Estado) (t : PagVirtual → Pagina) (m : Marco → Pagina) : Prop where
  tabla : s'.tabla = t
  marco : s'.marco = m
  activo : ∀ p, (s'.procesos p).activo = (s.procesos p).activo

/-! ### What keeps the invariant

The four things an access can do, each as an update of the page tables and of the frames. -/

namespace Concuerda

variable {s s' : Estado} {T : PagVirtual → Prop} {x v : PagVirtual} {i : Fin SWAP} {k : Fin FISICA}
  {ex ev mx mv : Pagina}

theorem cambia {T' : PagVirtual → Prop} (h : Concuerda s T) (ha : ∀ p, (s'.procesos p).activo = (s.procesos p).activo)
    (hagree : Agree s'.loc s'.held)
      (hpag : ∀ y, s'.tabla y = s.tabla y ∧ (T' y ↔ T y) ∨ T' y ∧ (s.procesos y.1).activo ≠ -1 ∧
      (∃ m, s'.loc y = some m) ∧ (s'.tabla y).virtual = some y)
      (hmarco : ∀ m, s'.marco m = s.marco m ∨ s'.held m ≠ none)
    (hllena : ∀ i v, s'.held (.inr i) = some v → ∀ k, s'.held (.inl k) ≠ none) : Concuerda s' T' := by
  refine ⟨hagree, fun y => ?_, fun y hy => ?_, fun y hy => ?_, fun y hy => ?_, fun m hm => ?_, hllena⟩
  · rcases hpag y with ⟨heq, hT⟩ | ⟨hy, -, hloc, -⟩
    · rw [hT, h.tocada y, Estado.loc, Estado.loc, comp_apply, comp_apply, heq]
    · exact iff_of_true hy hloc
  · rcases hpag y with ⟨heq, hT⟩ | ⟨hy', -⟩
    · rw [heq]
      exact h.fuera y (mt hT.mpr hy)
    · exact absurd hy' hy
  · rw [ha]
    rcases hpag y with ⟨-, hT⟩ | ⟨-, hact, -⟩
    · exact h.activa y (hT.mp hy)
    · exact hact
  · rw [ha] at hy
    rcases hpag y with ⟨heq, -⟩ | ⟨-, -, -, hvirtual⟩
    · rw [heq]
      exact h.propia y hy
    · exact hvirtual
  · rcases hmarco m with heq | hheld
    · rw [Estado.held, comp_apply, heq] at hm
      rw [heq]
      exact h.libre m hm
    · exact absurd hm hheld

theorem acierto (h : Concuerda s T) (hx : s.loc x = some (.inl k))
    (hq : Queda s s' (update s.tabla x ex) (update s.marco (.inl k) mx)) (hloc : ex.ubicacion = s.loc x)
    (hvx : ex.virtual = (s.tabla x).virtual) (hvm : mx.virtual = s.held (.inl k)) : Concuerda s' T := by
  obtain ⟨ht, hm, ha⟩ := hq
  have hTx : T x := (h.tocada x).mpr ⟨_, hx⟩
  have hloc' : s'.loc = s.loc := by
    rw [loc_eq_of_tabla ht, hloc, update_eq_self]
  have hheld' : s'.held = s.held := by
    rw [held_eq_of_marco hm, hvm, update_eq_self]
  refine h.cambia ha (by rw [hloc', hheld']; exact h.agree) (fun y => ?_) (fun m => ?_)
    (by rw [hheld']; exact h.ramLlena)
  · by_cases hyx : y = x
    · subst hyx
      refine Or.inr ⟨hTx, h.activa y hTx, ⟨_, by rw [hloc', hx]⟩, ?_⟩
      rw [ht, update_self, hvx]
      exact h.propia y (h.activa y hTx)
    · exact Or.inl ⟨by rw [ht, update_of_ne hyx], Iff.rfl⟩
  · by_cases hmk : m = .inl k
    · rw [hmk, hheld', (h.agree x (.inl k)).mp hx]
      exact Or.inr nofun
    · exact Or.inl (by rw [hm, update_of_ne hmk])

theorem carga (h : Concuerda s T) (hx : ¬T x) (hact : (s.procesos x.1).activo ≠ -1)
    (hk : s.held (.inl k) = none) (hq : Queda s s' (update s.tabla x ex) (update s.marco (.inl k) mx))
    (hloc : ex.ubicacion = some (.inl k)) (hvx : ex.virtual = some x) (hvm : mx.virtual = some x) :
    Concuerda s' (fun y => T y ∨ y = x) := by
  obtain ⟨ht, hm, ha⟩ := hq
  have hloc' : s'.loc = update s.loc x (some (.inl k)) := by
    rw [loc_eq_of_tabla ht, hloc]
  have hheld' : s'.held = update s.held (.inl k) (some x) := by
    rw [held_eq_of_marco hm, hvm]
  refine h.cambia ha ?_ (fun y => ?_) (fun m => ?_) fun i w hw => ?_
  · rw [hloc', hheld']
    exact h.agree.insert ((h.loc_eq_none_iff x).mpr hx) hk
  · by_cases hyx : y = x
    · subst hyx
      exact Or.inr ⟨Or.inr rfl, hact, ⟨_, by rw [hloc', update_self]⟩, by rw [ht, update_self, hvx]⟩
    · exact Or.inl ⟨by rw [ht, update_of_ne hyx], or_iff_left hyx⟩
  · by_cases hmk : m = .inl k
    · rw [hmk, hheld', update_self]
      exact Or.inr nofun
    · exact Or.inl (by rw [hm, update_of_ne hmk])
  · rw [hheld', update_of_ne (by simp)] at hw
    exact absurd hk (h.ramLlena i w hw k)

/-- With RAM full, page `x` takes the frame of a page that moves to the secondary memory. -/
theorem cede {T' : PagVirtual → Prop} (h : Concuerda s T) (hx : T' x) (hT : ∀ y, y ≠ x → (T' y ↔ T y))
    (hact : (s.procesos x.1).activo ≠ -1) (hv : s.loc v = some (.inl k)) (hllena : ∀ k, s.held (.inl k) ≠ none)
    (hq : Queda s s' (update (update s.tabla v ev) x ex) (update (update s.marco (.inr i) mv) (.inl k) mx))
    (hagree : Agree (update (update s.loc v (some (.inr i))) x (some (.inl k)))
      (update (update s.held (.inr i) (some v)) (.inl k) (some x)))
    (hlx : ex.ubicacion = some (.inl k)) (hlv : ev.ubicacion = some (.inr i)) (hvx : ex.virtual = some x)
    (hvv : ev.virtual = (s.tabla v).virtual) (hmx : mx.virtual = some x) (hmv : mv.virtual = some v) :
    Concuerda s' T' := by
  obtain ⟨ht, hm, ha⟩ := hq
  have hloc' := loc_eq_of_tabla₂ ht hlv hlx
  have hheld' := held_eq_of_marco₂ hm hmv hmx
  have hTv : T v := (h.tocada v).mpr ⟨_, hv⟩
  refine h.cambia ha (by rwa [hloc', hheld']) (fun y => ?_) (fun m => ?_) fun _ _ _ k' => ?_
  · by_cases hyx : y = x
    · subst hyx
      exact Or.inr ⟨hx, hact, ⟨_, by rw [hloc', update_self]⟩, by rw [ht, update_self, hvx]⟩
    · by_cases hyv : y = v
      · subst hyv
        refine Or.inr ⟨(hT y hyx).mpr hTv, h.activa y hTv, ⟨_, by rw [hloc', update_of_ne hyx, update_self]⟩, ?_⟩
        rw [ht, update_of_ne hyx, update_self, hvv]
        exact h.propia y (h.activa y hTv)
      · exact Or.inl ⟨by rw [ht, update_of_ne hyx, update_of_ne hyv], hT y hyx⟩
  · by_cases hmk : m = .inl k
    · rw [hmk, hheld', update_self]
      exact Or.inr nofun
    · by_cases hmi : m = .inr i
      · rw [hmi, hheld', update_of_ne (by simp), update_self]
        exact Or.inr nofun
      · exact Or.inl (by rw [hm, update_of_ne hmk, update_of_ne hmi])
  · by_cases hkk : k' = k
    · rw [hheld', hkk, update_self]
      exact nofun
    · rw [hheld', update_of_ne (Sum.inl_injective.ne hkk), update_of_ne (by simp)]
      exact hllena k'

end Concuerda
end Laboratorio.Sim
