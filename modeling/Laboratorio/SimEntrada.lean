import Laboratorio.Scan
import Laboratorio.SimIndices

/-! The reading loop of `main` on the bytes of standard input. `scanf("%d\n%d", &pid, &pagina)` is compared
with `EOF` only, so a call that converts one number or none is followed by the loop body too, with the old
values of the variables it did not set. -/

namespace Laboratorio.Sim

/-- What `scanf` returns, where `none` is `EOF`; the two variables after the call; and the unread bytes. -/
structure Llamada where
  valor : Option ℕ
  pid : Int
  pagina : Int
  resto : List UInt8
  deriving DecidableEq

/-- `scanf("%d\n%d", &pid, &pagina)`. `conv` is what a number written in the input gives as an `int`. -/
def scanf (conv : Int → Int) (entrada : List UInt8) (pid pagina : Int) : Llamada :=
  match scanInt entrada with
  | .eof => { valor := none, pid := pid, pagina := pagina, resto := [] }
  | .mismatch resto => { valor := some 0, pid := pid, pagina := pagina, resto := resto }
  | .value n resto => match scanInt (skipSpace resto) with
    | .eof => { valor := some 1, pid := conv n, pagina := pagina, resto := [] }
    | .mismatch resto' => { valor := some 1, pid := conv n, pagina := pagina, resto := resto' }
    | .value m resto' => { valor := some 2, pid := conv n, pagina := conv m, resto := resto' }

def Llamada.par (c : Llamada) : Int × Int := (c.pid, c.pagina)

/-- The variables of the loop, the unread input and the accesses simulated so far. -/
structure Lectura where
  entrada : List UInt8
  pid : Int
  pagina : Int
  estado : Estado
  simulados : List (Int × Int)

def Lectura.llamada (conv : Int → Int) (l : Lectura) : Llamada := scanf conv l.entrada l.pid l.pagina

inductive Motivo where
  | eof
  | parada (p : Parada)
  deriving DecidableEq

structure Final where
  motivo : Motivo
  simulados : List (Int × Int)
  deriving DecidableEq

/-- One turn of `while (scanf(...) != EOF)`. -/
def vuelta (modo : Char) (conv : Int → Int) (l : Lectura) : Except Final Lectura :=
  let c := l.llamada conv
  match c.valor with
  | none => .error ⟨.eof, l.simulados⟩
  | some _ => match acceso modo l.estado c.par with
    | .error p => .error ⟨.parada p, l.simulados⟩
    | .ok s => .ok ⟨c.resto, c.pid, c.pagina, s, l.simulados ++ [c.par]⟩

/-- The first `n` turns, or fewer if the loop ends. -/
def vueltas (modo : Char) (conv : Int → Int) : ℕ → Lectura → Except Final Lectura
  | 0, l => .ok l
  | n + 1, l => vuelta modo conv l >>= vueltas modo conv n

variable {entrada : List UInt8} {pagina pid : Int}

theorem scanf_completa {conv : Int → Int}
    (h : (scanf conv entrada pid pagina).valor = some 2) :
    ∃ n m resto resto', scanInt entrada = .value n resto ∧ scanInt (skipSpace resto) = .value m resto' ∧
      ∀ pid pagina, scanf conv entrada pid pagina =
        { valor := some 2, pid := conv n, pagina := conv m, resto := resto' } := by
  unfold scanf at h ⊢
  cases hn : scanInt entrada with
  | eof | mismatch resto => simp [hn] at h
  | value n resto =>
    cases hm : scanInt (skipSpace resto) with
    | eof | mismatch resto' => simp [hn, hm] at h
    | value m resto' => exact ⟨n, m, resto, resto', rfl, hm, fun pid pagina => by simp [hm]⟩

theorem length_lt_of_scanf {conv : Int → Int}
    (h : (scanf conv entrada pid pagina).valor = some 2) :
    (scanf conv entrada pid pagina).resto.length < entrada.length := by
  obtain ⟨n, m, resto, resto', hn, hm, hscanf⟩ := scanf_completa h
  rw [hscanf]
  calc
    resto'.length < (skipSpace resto).length := length_lt_of_scanInt hm
    _ ≤ resto.length := length_skipSpace_le resto
    _ < entrada.length := length_lt_of_scanInt hn

/-- The consecutive complete pairs of integers at the start of the input. -/
def pares (conv : Int → Int) (entrada : List UInt8) : List (Int × Int) :=
  if (scanf conv entrada 0 0).valor = some 2 then
    (scanf conv entrada 0 0).par :: pares conv (scanf conv entrada 0 0).resto
  else []
termination_by entrada.length
decreasing_by exact length_lt_of_scanf ‹_›

/-- The loop has simulated the pairs of the input: all of them at the end of the input, those before the
one where it stopped at an `exit`. -/
def Final.Correcto (f : Final) (l : List (Int × Int)) : Prop :=
  match f.motivo with
  | .eof => f.simulados = l
  | .parada (.noSeSoporta _ _) | .parada .memoriaSecundariaLlena => f.simulados <+: l
  | .parada .fueraDeRango => False

/-- The turn reads the end of the input, or is stopped by one of the checks, or reads a complete pair
that names an entry and whose access reads nothing that nobody wrote. -/
def VueltaBuena (modo : Char) (conv : Int → Int) (l : Lectura) : Prop :=
  (l.llamada conv).valor ≠ none → Admitida l.estado (l.llamada conv).par →
    (l.llamada conv).valor = some 2 ∧ Definida modo l.estado (l.llamada conv).par

/-! ### One turn -/

variable {modo : Char} {conv : Int → Int} {l l' : Lectura} {f : Final}

theorem pares_completa (h : (scanf conv entrada pid pagina).valor = some 2) :
    pares conv entrada = (scanf conv entrada pid pagina).par ::
      pares conv (scanf conv entrada pid pagina).resto := by
  obtain ⟨n, m, resto, resto', -, -, hscanf⟩ := scanf_completa h
  rw [pares, hscanf 0 0, hscanf pid pagina, if_pos rfl]

theorem pares_incompleta
    (h : (scanf conv entrada pid pagina).valor ≠ some 2) : pares conv entrada = [] := by
  rw [pares, if_neg]
  intro hc
  obtain ⟨n, m, resto, resto', -, -, hscanf⟩ := scanf_completa hc
  apply h
  rw [hscanf pid pagina]

theorem vuelta_eof (h : (l.llamada conv).valor = none) :
    vuelta modo conv l = .error ⟨.eof, l.simulados⟩ := by
  simp only [vuelta, h]

theorem vuelta_acceso (modo : Char) (h : (l.llamada conv).valor ≠ none) :
    vuelta modo conv l =
      match acceso modo l.estado
        (l.llamada conv).par with
      | .error p => .error ⟨.parada p, l.simulados⟩
      | .ok s => .ok ⟨(l.llamada conv).resto, (l.llamada conv).pid,
          (l.llamada conv).pagina, s, l.simulados ++
            [(l.llamada conv).par]⟩ := by
  obtain ⟨n, hn⟩ := Option.ne_none_iff_exists'.mp h
  simp only [vuelta, hn]

theorem vuelta_eq_ok (hmodo : modo = 'f' ∨ modo = 'l') (hl : EnMarcha modo l.estado) (h : vuelta modo conv l = .ok l') :
    (l.llamada conv).valor ≠ none ∧ Admitida l.estado (l.llamada conv).par ∧
      EnMarcha modo l'.estado ∧ l'.entrada = (l.llamada conv).resto ∧
      l'.simulados = l.simulados ++ [(l.llamada conv).par] := by
  have hne : (l.llamada conv).valor ≠ none := by
    intro hnone
    rw [vuelta_eof hnone] at h
    cases h
  rw [vuelta_acceso modo hne] at h
  cases hacc : acceso modo l.estado
      (l.llamada conv).par with
  | error p =>
    rw [hacc] at h
    cases h
  | ok s =>
    rw [hacc] at h
    cases h
    obtain ⟨hadm, -, hmarcha⟩ := hl.sigue hmodo hacc
    exact ⟨hne, hadm, hmarcha, rfl, rfl⟩

theorem pares_vuelta (hmodo : modo = 'f' ∨ modo = 'l') (hl : EnMarcha modo l.estado)
    (hbuena : VueltaBuena modo conv l) (h : vuelta modo conv l = .ok l') :
    l'.simulados ++ pares conv l'.entrada = l.simulados ++ pares conv l.entrada := by
  obtain ⟨hne, hadm, -, hentrada, hsim⟩ := vuelta_eq_ok hmodo hl h
  have hdos := (hbuena hne hadm).1
  calc
    l'.simulados ++ pares conv l'.entrada = l.simulados ++
        ((l.llamada conv).par ::
          pares conv (l.llamada conv).resto) := by
      rw [hentrada, hsim, List.append_assoc]
      rfl
    _ = l.simulados ++ pares conv l.entrada := congrArg (l.simulados ++ ·) (pares_completa hdos).symm

/-! ### Whole runs -/

variable {n : ℕ}

theorem vueltas_eq_error (h : vueltas modo conv (n + 1) l = .error f) :
    vuelta modo conv l = .error f ∨ ∃ l', vuelta modo conv l = .ok l' ∧ vueltas modo conv n l' = .error f := by
  unfold vueltas at h
  cases hv : vuelta modo conv l with
  | error f' =>
    rw [hv] at h
    exact .inl h
  | ok l' =>
    rw [hv] at h
    exact .inr ⟨l', rfl, h⟩

theorem simulados_prefijo (hmodo : modo = 'f' ∨ modo = 'l') (hl : EnMarcha modo l.estado)
    (h : vueltas modo conv n l = .error f) : l.simulados <+: f.simulados := by
  induction n generalizing l with
  | zero => cases h
  | succ n ih =>
    cases vueltas_eq_error h with
    | inl hv =>
      by_cases hne : (l.llamada conv).valor = none
      · rw [vuelta_eof hne] at hv
        cases hv
        exact List.prefix_refl _
      · rw [vuelta_acceso modo hne] at hv
        split at hv
        · cases hv
          exact List.prefix_refl _
        · cases hv
    | inr hv =>
      obtain ⟨l', hv, hrest⟩ := hv
      obtain ⟨-, -, hmarcha, -, hsim⟩ := vuelta_eq_ok hmodo hl hv
      have hmas := ih hmarcha hrest
      rw [hsim] at hmas
      exact (List.prefix_append _ _).trans hmas

theorem Final.Correcto.prefijo {l : List (Int × Int)} (h : f.Correcto l) : f.simulados <+: l := by
  obtain ⟨motivo, simulados⟩ := f
  cases motivo with
  | eof =>
    cases h
    exact List.prefix_refl _
  | parada p =>
    cases p with
    | noSeSoporta pid pagina => exact h
    | memoriaSecundariaLlena => exact h
    | fueraDeRango => exact h.elim

section

variable (hmodo : modo = 'f' ∨ modo = 'l') (hl : EnMarcha modo l.estado)

include hmodo hl

/-- If every turn is good the loop ends and has simulated the pairs of the input: every turn that goes on
reads a pair, which leaves less to read. -/
theorem termina_of_buenas (hbuenas : ∀ n l', vueltas modo conv n l = .ok l' → VueltaBuena modo conv l') :
    ∃ n f, vueltas modo conv n l = .error f ∧ f.Correcto (l.simulados ++ pares conv l.entrada) := by
  -- by the number of unread bytes
  induction hlen : l.entrada.length using Nat.strong_induction_on generalizing l with
  | h m ih =>
    have hbuena := hbuenas 0 l rfl
    by_cases hne : (l.llamada conv).valor = none
    · refine ⟨1, ⟨.eof, l.simulados⟩, ?_, ?_⟩
      · rw [vueltas, vuelta_eof hne]
        rfl
      · have hnada : pares conv l.entrada = [] :=
          pares_incompleta (hne.trans_ne nofun)
        rw [hnada, List.append_nil]
        rfl
    by_cases hadm : Admitida l.estado
        (l.llamada conv).par
    · obtain ⟨hdos, hdef⟩ := hbuena hne hadm
      obtain ⟨s', hs', hmarcha⟩ := (hl.acceso hmodo hadm).1 hdef
      have hv := vuelta_acceso modo hne
      rw [hs'] at hv
      have hcorto := length_lt_of_scanf hdos
      obtain ⟨n, f, hrun, hf⟩ := ih _ (hlen ▸ hcorto) hmarcha (fun n l' hn => hbuenas (n + 1) l' (by
        rw [vueltas, hv]
        exact hn)) rfl
      refine ⟨n + 1, f, ?_, ?_⟩
      · rw [vueltas, hv]
        exact hrun
      · rw [← pares_vuelta hmodo hl hbuena hv]
        exact hf
    · have hprefijo : l.simulados <+: l.simulados ++ pares conv l.entrada := List.prefix_append _ _
      cases acceso_rechazada modo hadm with
      | inl hno =>
        refine ⟨1, ⟨.parada (.noSeSoporta (l.llamada conv).pid (l.llamada conv).pagina), l.simulados⟩, ?_, hprefijo⟩
        rw [vueltas, vuelta_acceso modo hne, hno]
        rfl
      | inr hlleno =>
        refine ⟨1, ⟨.parada .memoriaSecundariaLlena, l.simulados⟩, ?_, hprefijo⟩
        rw [vueltas, vuelta_acceso modo hne, hlleno]
        rfl

theorem vueltaBuena_of_correcto
    (h : vueltas modo conv n l = .error f) (hf : f.Correcto (l.simulados ++ pares conv l.entrada)) :
    VueltaBuena modo conv l := by
  intro hne hadm
  cases n with
  | zero => cases h
  | succ n =>
    by_cases hdef : Definida modo l.estado (l.llamada conv).par
    · refine ⟨?_, hdef⟩
      by_contra hdos
      obtain ⟨s', hs', hmarcha⟩ := (hl.acceso hmodo hadm).1 hdef
      have hv := vuelta_acceso modo hne
      rw [hs'] at hv
      rw [vueltas, hv, ok_bind] at h
      -- the access of an incomplete call is one more than the pairs of the input
      have hmas := (simulados_prefijo hmodo hmarcha h).trans hf.prefijo
      rw [pares_incompleta hdos, List.append_nil] at hmas
      have hlen := hmas.length_le
      rw [List.length_append, List.length_singleton] at hlen
      omega
    · have hv := vuelta_acceso modo hne
      rw [(hl.acceso hmodo hadm).2 hdef] at hv
      rw [vueltas, hv] at h
      cases h
      exact hf.elim

theorem buenas_of_correcto
    (h : vueltas modo conv n l = .error f) (hf : f.Correcto (l.simulados ++ pares conv l.entrada)) (m : ℕ)
    (hm : vueltas modo conv m l = .ok l') : VueltaBuena modo conv l' := by
  induction m generalizing l n with
  | zero =>
    cases hm
    exact vueltaBuena_of_correcto hmodo hl h hf
  | succ m ih =>
    have hbuena := vueltaBuena_of_correcto hmodo hl h hf
    obtain ⟨l₁, hv, hm⟩ := bind_eq_ok hm
    cases n with
    | zero => cases h
    | succ n =>
      rw [vueltas, hv, ok_bind] at h
      rw [← pares_vuelta hmodo hl hbuena hv] at hf
      exact ih (vuelta_eq_ok hmodo hl hv).2.2.1 h hf hm

end

/-- For every input, in either mode, whatever the variables and the tables held: the loop ends, having
simulated the consecutive complete pairs of the input up to the end of it or to the `exit` of a check,
exactly when every turn that the checks let through has read a complete pair that names an entry and whose
access reads nothing that nobody wrote. -/
theorem entrada_consumida_iff (modo : Char) (hmodo : modo = 'f' ∨ modo = 'l') (conv : Int → Int) (s₀ : Estado)
    (h₀ : Inicial s₀) (hsalida : s₀.salida = []) (entrada : List UInt8) (pid pagina : Int) :
    (∃ n f, vueltas modo conv n ⟨entrada, pid, pagina, s₀, []⟩ = .error f ∧ f.Correcto (pares conv entrada)) ↔
      ∀ n l, vueltas modo conv n ⟨entrada, pid, pagina, s₀, []⟩ = .ok l → VueltaBuena modo conv l := by
  have hmarcha : EnMarcha modo s₀ := h₀.enMarcha hsalida modo
  constructor
  · intro h n l hl
    obtain ⟨n', f, hrun, hf⟩ := h
    exact buenas_of_correcto hmodo hmarcha hrun hf n hl
  · intro h
    exact termina_of_buenas hmodo hmarcha h

def unPar : List UInt8 := [49, 32, 50]

theorem entrada_consumida_iff_unPar :
    ∃ n f, vueltas 'f' id n ⟨unPar, 0, 0, arranque, []⟩ = .error f ∧ f.Correcto (pares id unPar) := by
  refine (entrada_consumida_iff 'f' (.inl rfl) id arranque arranque_inicial rfl unPar 0 0).mpr ?_
  intro n l hl
  cases n with
  | zero =>
    cases hl
    intro _ _
    exact ⟨rfl, definida_arranque 'f' ⟨⟨by decide, by decide⟩, by decide, by decide⟩⟩
  | succ n =>
    obtain ⟨l₁, hv, hrest⟩ := bind_eq_ok hl
    cases hv
    cases n with
    | zero =>
      cases hrest
      intro hne
      exact absurd rfl hne
    | succ n => cases hrest

/-! ### Inputs that are not rows of pairs -/

/-- The loop stands before the letter "x", and the page of its pair is in RAM. -/
structure Atascada (l : Lectura) : Prop where
  entrada : l.entrada = [120]
  pid : l.pid = 1
  pagina : l.pagina = 2
  activo : (l.estado.procesos 0).activo ≠ -1
  memoria : (l.estado.tabla (0, 2)).memoria = 1
  hueco : (l.estado.memSecundaria.paginas 0).pid = -1

/-- `scanf` leaves the letter unread, and the body serves the old pair once more. -/
theorem Atascada.vuelta (h : Atascada l) : ∃ l', vuelta 'f' id l = .ok l' ∧ Atascada l' := by
  have hllamada : l.llamada id = { valor := some 0, pid := 1, pagina := 2, resto := [120] } := by
    simp only [Lectura.llamada, h.entrada, h.pid, h.pagina]
    rfl
  have hhueco : primerHueco l.estado.memSecundaria.paginas = some 0 := by
    simp [primerHueco, List.finRange_succ, h.hueco]
  have hinic : inicializarProcesoSiEsNecesario (((0 : Fin MAX_PROCESOS).val : Int) + 1) l.estado = .ok l.estado := by
    simp only [inicializarProcesoSiEsNecesario, Int.add_sub_cancel, indexar_val, ok_bind, if_neg h.activo]
    rfl
  have hacceso : acceso 'f' l.estado (1, 2) = .ok (l.estado.imprimir (.yaEnMemoria 2 1)) :=
    (acceso_eq (x := (0, 2)) 'f' (by decide) hhueco hinic).trans (servir_basura_fifo h.memoria)
  have hne : (l.llamada id).valor ≠ none := by simp [hllamada]
  have hv := vuelta_acceso 'f' hne
  rw [hllamada, show Llamada.par { valor := some 0, pid := 1, pagina := 2, resto := [120] } = (1, 2) from rfl,
    hacceso] at hv
  exact ⟨_, hv, rfl, rfl, rfl, h.activo, h.memoria, h.hueco⟩

theorem Atascada.vueltas (h : Atascada l) (n : ℕ) : ∃ l', vueltas 'f' id n l = .ok l' := by
  induction n generalizing l with
  | zero => exact ⟨l, rfl⟩
  | succ n ih =>
    obtain ⟨l₁, hv, h₁⟩ := h.vuelta
    obtain ⟨l', hl'⟩ := ih h₁
    refine ⟨l', ?_⟩
    rw [Sim.vueltas, hv]
    exact hl'

theorem letra_no_termina : ∀ n, ∃ l, vueltas 'f' id n ⟨unPar ++ [120], 0, 0, arranque, []⟩ = .ok l := by
  intro n
  cases n with
  | zero => exact ⟨_, rfl⟩
  | succ n =>
    have hatascada : ∃ l, vuelta 'f' id ⟨unPar ++ [120], 0, 0, arranque, []⟩ = .ok l ∧ Atascada l :=
      ⟨_, rfl, rfl, rfl, rfl, by decide, rfl, rfl⟩
    obtain ⟨l, hv, hl⟩ := hatascada
    obtain ⟨l', hl'⟩ := hl.vueltas n
    refine ⟨l', ?_⟩
    rw [vueltas, hv]
    exact hl'

/-- On the input "1 2 3" the loop ends after an access to page 2 of process 3, which is no pair of it. -/
theorem impar_simula_de_mas :
    vueltas 'f' id 3 ⟨unPar ++ [32, 51], 0, 0, arranque, []⟩ = .error ⟨.eof, [(1, 2), (3, 2)]⟩ ∧
      pares id (unPar ++ [32, 51]) = [(1, 2)] := by
  refine ⟨rfl, ?_⟩
  rw [pares, if_pos (by decide), pares, if_neg (by decide)]
  rfl

end Laboratorio.Sim
