import Laboratorio.RunPrefix
import Mathlib.Data.Int.Basic
import Mathlib.Logic.Function.Basic
import Mathlib.Algebra.Group.Int.Defs

/-! The reading loop of `lab-01/histograma.c` and what it leaves in `palabras`. The words of a text
are its pieces between separators; the loop counts the pieces that a separator closes and that are
shorter than the array. Arithmetic on `int` outside its range is undefined in C and stops the model. -/

namespace Laboratorio.Histograma

open Function

abbrev MAX_CAPACIDAD : Nat := 20
abbrev INT_MAX : Int := 2 ^ 31 - 1

inductive Parada where
  | desborde
  deriving DecidableEq

structure Estado where
  palabras : Fin MAX_CAPACIDAD → Int
  espacio : Bool
  longitud : Int

def masUno (n : Int) : Except Parada Int := if n < INT_MAX then .ok (n + 1) else .error .desborde

def esSeparador (c : UInt8) : Bool := c == 32 || c == 10 || c == 9

/-- `palabras[longitud - 1]++`, for the lengths that the test in front of it lets through. -/
def contar (s : Estado) : Except Parada Estado :=
  if h : 0 < s.longitud ∧ s.longitud < MAX_CAPACIDAD then do
    let i : Fin MAX_CAPACIDAD := ⟨(s.longitud - 1).toNat, by omega⟩
    let n ← masUno (s.palabras i)
    return { s with palabras := update s.palabras i n }
  else return s

/-- The body of the loop on one character. -/
def leer (s : Estado) (c : UInt8) : Except Parada Estado :=
  if esSeparador c then do
    let s ← contar { s with espacio := false }
    return { s with longitud := 0 }
  else if s.espacio = false then
    return { s with espacio := true, longitud := 1 }
  else do
    let n ← masUno s.longitud
    return { s with longitud := n }

def bucle (s : Estado) (texto : List UInt8) : Except Parada Estado := texto.foldlM leer s

def arranque : Estado := { palabras := fun _ => 0, espacio := false, longitud := 0 }

/-- The lines of the histogram: a length and its number of stars. -/
def imprimir (palabras : Fin MAX_CAPACIDAD → Int) : List (Nat × Nat) :=
  (List.finRange MAX_CAPACIDAD).filterMap fun i =>
    if palabras i > 0 then some (i.val + 1, (palabras i).toNat) else none

/-! ### The words of a text -/

/-- The pieces of a text between separators. The maximal runs of characters other than separators are
the pieces that are not empty; the last piece is closed by the end of the text alone. -/
def trozos (texto : List UInt8) : List (List UInt8) := texto.splitOnP esSeparador

/-- The number of words of `k` characters, for positive `k`. -/
def numPalabras (texto : List UInt8) (k : Nat) : Nat := (trozos texto).countP (·.length = k)

/-- The word at the end of the text that no separator closes, if there is one. -/
def cortada (texto : List UInt8) : List UInt8 := (trozos texto).getLast (List.splitOnP_ne_nil _ _)

/-! ### What the loop counts -/

/-- The words among `ws` that the loop counts at index `k`: those of `k + 1` characters, except at the
last index. -/
def contadas (ws : List (List UInt8)) (k : Fin MAX_CAPACIDAD) : Nat :=
  if k.val + 1 < MAX_CAPACIDAD then ws.countP (·.length = k.val + 1) else 0

theorem contadas_cons (w : List UInt8) (ws : List (List UInt8)) (k : Fin MAX_CAPACIDAD) :
    contadas (w :: ws) k = (if w.length = k.val + 1 ∧ w.length < MAX_CAPACIDAD then 1 else 0) + contadas ws k := by
  unfold contadas
  by_cases hk : k.val + 1 < MAX_CAPACIDAD
  · by_cases hw : w.length = k.val + 1
    · rw [if_pos hk, if_pos hk, if_pos ⟨hw, by omega⟩, List.countP_cons_of_pos (by simpa using hw), Nat.add_comm]
    · rw [if_pos hk, if_pos hk, if_neg (fun h => hw h.1), List.countP_cons_of_neg (by simpa using hw),
        Nat.zero_add]
  · rw [if_neg hk, if_neg hk, if_neg (by omega)]

/-- In the middle of a word whose characters so far are `w`, last one first. -/
structure Leyendo (s : Estado) (w : List UInt8) : Prop where
  longitud : s.longitud = w.length
  espacio : s.espacio = !w.isEmpty
  cabe : ∀ k, s.palabras k ≤ INT_MAX

theorem masUno_ok {n m : Int} : masUno n = .ok m ↔ n < INT_MAX ∧ m = n + 1 := by
  unfold masUno
  split_ifs with h
  · simp [h, eq_comm]
  · simp [h]

variable {w : List UInt8} {s s' : Estado} {c : UInt8}

theorem leer_letra (hs : Leyendo s w) (hc : ¬esSeparador c) :
    leer s c = .ok s' ↔ (w.length : Int) < INT_MAX ∧ s' = { s with espacio := true, longitud := w.length + 1 } := by
  have hlong := hs.longitud
  have hesp := hs.espacio
  rw [leer, if_neg hc]
  cases w with
  | nil =>
    rw [if_pos (by simpa using hesp)]
    simp [eq_comm, pure_eq_ok]
  | cons d w =>
    have htrue : s.espacio = true := by simpa using hesp
    rw [if_neg (by simp [htrue])]
    constructor
    · intro h
      obtain ⟨n, hn, heq⟩ := bind_eq_ok h
      obtain ⟨hlt, rfl⟩ := masUno_ok.mp hn
      rw [hlong] at hlt
      cases heq
      exact ⟨hlt, by rw [hlong, ← htrue]⟩
    · rintro ⟨hlt, rfl⟩
      rw [masUno_ok.mpr ⟨by rw [hlong]; exact hlt, rfl⟩, hlong, ok_bind, ← htrue]
      rfl

theorem contadas_uno (w : List UInt8) (k : Fin MAX_CAPACIDAD) :
    contadas [w] k = if w.length = k.val + 1 ∧ w.length < MAX_CAPACIDAD then 1 else 0 := by
  rw [contadas_cons]
  simp [contadas]

/-- A word of `i + 1` characters that fits into the array is counted at index `i`. -/
theorem sumar_contadas {i : Fin MAX_CAPACIDAD} (hi : w.length = i.val + 1)
    (hw : w.length < MAX_CAPACIDAD) (f : Fin MAX_CAPACIDAD → Int) :
    (fun k => f k + contadas [w] k) = update f i (f i + 1) := by
  funext k
  rw [contadas_uno]
  by_cases hk : k = i
  · rw [hk, update_self, if_pos ⟨hi, hw⟩]
    rfl
  · rw [update_of_ne hk, if_neg fun h => hk (Fin.ext (by omega))]
    simp

theorem contar_ok (hlong : s.longitud = w.length) (hcabe : ∀ k, s.palabras k ≤ INT_MAX) :
    contar s = .ok s' ↔ (∀ k, s.palabras k + contadas [w] k ≤ INT_MAX) ∧
      s' = { s with palabras := fun k => s.palabras k + contadas [w] k } := by
  by_cases hw : 0 < s.longitud ∧ s.longitud < MAX_CAPACIDAD
  · obtain ⟨i, hi, hival⟩ : ∃ i : Fin MAX_CAPACIDAD, i = ⟨(s.longitud - 1).toNat, by omega⟩ ∧
        w.length = i.val + 1 := ⟨_, rfl, by simp only; omega⟩
    have hsuma := sumar_contadas hival (by omega) s.palabras
    have hlimite : (∀ k, s.palabras k + contadas [w] k ≤ INT_MAX) ↔ s.palabras i < INT_MAX := by
      have hk : ∀ k, s.palabras k + contadas [w] k = update s.palabras i (s.palabras i + 1) k :=
        fun k => congrFun hsuma k
      constructor
      · intro h
        have hle := h i
        rw [hk, update_self] at hle
        omega
      · intro h k
        rw [hk]
        by_cases hki : k = i
        · rw [hki, update_self]
          omega
        · rw [update_of_ne hki]
          exact hcabe k
    rw [contar, dif_pos hw, ← hi, hlimite, hsuma]
    constructor
    · intro h
      obtain ⟨n, hn, heq⟩ := bind_eq_ok h
      obtain ⟨hlt, rfl⟩ := masUno_ok.mp hn
      cases heq
      exact ⟨hlt, rfl⟩
    · rintro ⟨hlt, rfl⟩
      dsimp only
      rw [masUno_ok.mpr ⟨hlt, rfl⟩]
      rfl
  · have hcero : ∀ k, contadas [w] k = 0 := fun k => by rw [contadas_uno, if_neg (by omega)]
    have hsuma : (fun k => s.palabras k + (contadas [w] k : Int)) = s.palabras := by
      funext k
      simp [hcero]
    rw [contar, dif_neg hw, hsuma, pure_eq_ok, Except.ok.injEq, eq_comm]
    exact (and_iff_right fun k => by simpa [hcero] using hcabe k).symm

theorem leer_separador (hs : Leyendo s w) (hc : esSeparador c) :
    leer s c = .ok s' ↔ (∀ k, s.palabras k + contadas [w] k ≤ INT_MAX) ∧
      s' = { palabras := fun k => s.palabras k + contadas [w] k, espacio := false, longitud := 0 } := by
  have hcontar : ∀ s₁, contar { s with espacio := false } = .ok s₁ ↔
      (∀ k, s.palabras k + contadas [w] k ≤ INT_MAX) ∧
        s₁ = { s with espacio := false, palabras := fun k => s.palabras k + contadas [w] k } :=
    fun _ => contar_ok hs.longitud hs.cabe
  rw [leer, if_pos hc]
  constructor
  · intro h
    obtain ⟨s₁, hs₁, heq⟩ := bind_eq_ok h
    obtain ⟨hle, rfl⟩ := (hcontar s₁).mp hs₁
    cases heq
    exact ⟨hle, rfl⟩
  · rintro ⟨hle, rfl⟩
    rw [(hcontar _).mpr ⟨hle, rfl⟩]
    rfl

/-! ### The whole text -/

/-- The pieces of the rest of a text, from the middle of the word `w` on. -/
noncomputable def desde (w texto : List UInt8) : List (List UInt8) := texto.splitOnPPrepend esSeparador w

theorem desde_nil (texto : List UInt8) : desde [] texto = trozos texto := List.splitOnPPrepend_nil_right

theorem desde_separador (hc : esSeparador c) (w texto : List UInt8) :
    desde w (c :: texto) = w.reverse :: desde [] texto := by
  rw [desde_nil]
  exact List.splitOnPPrepend_cons_pos hc

theorem desde_letra (hc : ¬esSeparador c) (w texto : List UInt8) :
    desde w (c :: texto) = desde (c :: w) texto := List.splitOnPPrepend_cons_neg (by simpa using hc)

theorem desde_ne_nil (w texto : List UInt8) : desde w texto ≠ [] := List.splitOnPPrepend_ne_nil _ _ _

theorem exists_desde (w texto : List UInt8) : ∃ v ∈ desde w texto, w.length ≤ v.length := by
  induction texto generalizing w with
  | nil => exact ⟨w.reverse, by simp [desde], by simp⟩
  | cons c texto ih =>
    by_cases hc : esSeparador c
    · exact ⟨w.reverse, by simp [desde_separador hc], by simp⟩
    · obtain ⟨v, hv, hle⟩ := ih (c :: w)
      rw [List.length_cons] at hle
      exact ⟨v, by rwa [desde_letra hc], by omega⟩

theorem contadas_separador (hc : esSeparador c) (w texto : List UInt8) (k : Fin MAX_CAPACIDAD) :
    contadas (desde w (c :: texto)).dropLast k = contadas [w] k + contadas (desde [] texto).dropLast k := by
  rw [desde_separador hc, List.dropLast_cons_of_ne_nil (desde_ne_nil _ _), contadas_cons, contadas_uno,
    List.length_reverse]

variable {texto : List UInt8}

theorem bucle_cons :
    bucle s (c :: texto) = .ok s' ↔ ∃ s₁, leer s c = .ok s₁ ∧ bucle s₁ texto = .ok s' := by
  constructor
  · intro h
    exact bind_eq_ok h
  · rintro ⟨s₁, hone, hrest⟩
    rw [bucle, List.foldlM_cons, hone]
    exact hrest

theorem Leyendo.letra (hs : Leyendo s w) (c : UInt8) :
    Leyendo { s with espacio := true, longitud := w.length + 1 } (c :: w) :=
  ⟨by simp, by simp, hs.cabe⟩

theorem Leyendo.separador {palabras : Fin MAX_CAPACIDAD → Int} (h : ∀ k, palabras k ≤ INT_MAX) :
    Leyendo { palabras := palabras, espacio := false, longitud := 0 } [] :=
  ⟨by simp, by simp, h⟩

/-- A loop that ends has added, from the middle of the word `w` on, the words that a separator
closes, and no `int` left its range. -/
theorem bucle_ok (hs : Leyendo s w) (hw : (w.length : Int) ≤ INT_MAX)
    (hrun : bucle s texto = .ok s') :
    (∀ v ∈ desde w texto, (v.length : Int) ≤ INT_MAX) ∧
      (∀ k, s'.palabras k = s.palabras k + contadas (desde w texto).dropLast k) ∧ ∀ k, s'.palabras k ≤ INT_MAX := by
  induction texto generalizing s w with
  | nil =>
    cases hrun
    refine ⟨?_, ?_, hs.cabe⟩
    · simpa [desde] using hw
    · simp [desde, contadas]
  | cons c texto ih =>
    obtain ⟨s₁, hone, hrest⟩ := bucle_cons.mp hrun
    by_cases hc : esSeparador c
    · obtain ⟨hle, rfl⟩ := (leer_separador hs hc).mp hone
      obtain ⟨hlargos, hpal, hcabe⟩ := ih (.separador hle) (by decide) hrest
      refine ⟨?_, ?_, hcabe⟩
      · rw [desde_separador hc]
        intro v hv
        rcases List.mem_cons.mp hv with rfl | hv
        · simpa using hw
        · exact hlargos v hv
      · intro k
        rw [hpal, contadas_separador hc]
        dsimp only
        omega
    · obtain ⟨hlt, rfl⟩ := (leer_letra hs hc).mp hone
      rw [desde_letra hc]
      have hsigue := ih (hs.letra c) (by rw [List.length_cons]; omega) hrest
      exact hsigue

theorem bucle_total (hs : Leyendo s w)
    (hlargos : ∀ v ∈ desde w texto, (v.length : Int) ≤ INT_MAX)
    (hcabe : ∀ k, s.palabras k + contadas (desde w texto).dropLast k ≤ INT_MAX) :
    ∃ s', bucle s texto = .ok s' := by
  induction texto generalizing s w with
  | nil => exact ⟨s, rfl⟩
  | cons c texto ih =>
    by_cases hc : esSeparador c
    · rw [desde_separador hc] at hlargos
      have hsuma : ∀ k, s.palabras k + contadas [w] k + contadas (desde [] texto).dropLast k ≤ INT_MAX := by
        intro k
        have := hcabe k
        rw [contadas_separador hc] at this
        omega
      have hle : ∀ k, s.palabras k + contadas [w] k ≤ INT_MAX := by
        intro k
        have := hsuma k
        omega
      obtain ⟨s', hrest⟩ := ih (.separador hle) (fun v hv => hlargos v (List.mem_cons_of_mem _ hv)) hsuma
      exact ⟨s', bucle_cons.mpr ⟨_, (leer_separador hs hc).mpr ⟨hle, rfl⟩, hrest⟩⟩
    · rw [desde_letra hc] at hlargos hcabe
      have hlt : (w.length : Int) < INT_MAX := by
        obtain ⟨v, hv, hle⟩ := exists_desde (c :: w) texto
        have := hlargos v hv
        rw [List.length_cons] at hle
        omega
      obtain ⟨s', hrest⟩ := ih (hs.letra c) hlargos hcabe
      exact ⟨s', bucle_cons.mpr ⟨_, (leer_letra hs hc).mpr ⟨hlt, rfl⟩, hrest⟩⟩

/-- The words of `k` characters are those a separator closes and perhaps the one the end of the text
cuts. -/
theorem numPalabras_eq (texto : List UInt8) (k : Nat) :
    numPalabras texto k = (trozos texto).dropLast.countP (·.length = k) + if (cortada texto).length =
    k then 1 else 0 := by
  have hne : trozos texto ≠ [] := List.splitOnP_ne_nil _ _
  calc numPalabras texto k
      = ((trozos texto).dropLast ++ [cortada texto]).countP (·.length = k) := by
        rw [cortada, List.dropLast_append_getLast hne]
        rfl
    _ = (trozos texto).dropLast.countP (·.length = k) + [cortada texto].countP (·.length = k) :=
        List.countP_append
    _ = _ := by
        congr 1
        simp [List.countP_cons]

/-- Below the last index the loop misses only the word that the end of the text cuts, and at the last
index it counts nothing. -/
theorem contadas_eq_iff (texto : List UInt8) (k : Fin MAX_CAPACIDAD) :
    contadas (trozos texto).dropLast k = numPalabras texto (k.val + 1) ↔
      if k.val + 1 < MAX_CAPACIDAD then (cortada texto).length ≠ k.val + 1
      else numPalabras texto MAX_CAPACIDAD = 0 := by
  by_cases hk : k.val + 1 < MAX_CAPACIDAD
  · rw [contadas, if_pos hk, if_pos hk, numPalabras_eq]
    by_cases hc : (cortada texto).length = k.val + 1 <;> simp [hc]
  · have hveinte : k.val + 1 = MAX_CAPACIDAD := by omega
    rw [contadas, if_neg hk, if_neg hk, hveinte, eq_comm]

/-- After the reading loop every index holds the number of words of its length. -/
def Exacto (texto : List UInt8) : Prop :=
  ∃ s, bucle arranque texto = .ok s ∧ ∀ k : Fin MAX_CAPACIDAD, s.palabras k = numPalabras texto (k.val + 1)

theorem exacto_iff_contadas (texto : List UInt8) :
    Exacto texto ↔ (∀ w ∈ trozos texto, (w.length : Int) ≤ INT_MAX) ∧
      ∀ k : Fin MAX_CAPACIDAD, contadas (trozos texto).dropLast k = numPalabras texto (k.val + 1) ∧
        (numPalabras texto (k.val + 1) : Int) ≤ INT_MAX := by
  have harr : Leyendo arranque [] := .separador fun k => by decide
  have hcero : ∀ k, arranque.palabras k = 0 := fun k => rfl
  constructor
  · rintro ⟨s, hrun, hpal⟩
    obtain ⟨hlargos, hsuma, hcabe⟩ := bucle_ok harr (by decide) hrun
    rw [desde_nil] at hlargos hsuma
    refine ⟨hlargos, fun k => ⟨?_, ?_⟩⟩
    · have h := hpal k
      rw [hsuma, hcero] at h
      omega
    · rw [← hpal]
      exact hcabe k
  · rintro ⟨hlargos, hcuenta⟩
    have hcabe : ∀ k, arranque.palabras k + contadas (desde [] texto).dropLast k ≤ INT_MAX := by
      intro k
      rw [desde_nil, (hcuenta k).1, hcero, Int.zero_add]
      exact (hcuenta k).2
    obtain ⟨s, hrun⟩ := bucle_total harr (by rwa [desde_nil]) hcabe
    refine ⟨s, hrun, fun k => ?_⟩
    rw [(bucle_ok harr (by decide) hrun).2.1, desde_nil, (hcuenta k).1, hcero, Int.zero_add]

/-- The histogram is exact for the texts without a word of `MAX_CAPACIDAD` characters that do not end
inside a shorter word, as long as no `int` overflows. -/
theorem histograma_exacto_iff (texto : List UInt8) :
    Exacto texto ↔
      numPalabras texto MAX_CAPACIDAD = 0 ∧
      (cortada texto = [] ∨ MAX_CAPACIDAD ≤ (cortada texto).length) ∧
      (∀ w ∈ trozos texto, (w.length : Int) ≤ INT_MAX) ∧
      ∀ k, 1 ≤ k → k < MAX_CAPACIDAD → (numPalabras texto k : Int) ≤ INT_MAX := by
  rw [exacto_iff_contadas]
  constructor
  · rintro ⟨hlargos, hcuenta⟩
    have hindice : ∀ k, 1 ≤ k → k < MAX_CAPACIDAD → ∃ i : Fin MAX_CAPACIDAD, i.val + 1 = k :=
      fun k hk hlt => ⟨⟨k - 1, by omega⟩, by simp only; omega⟩
    refine ⟨?_, ?_, hlargos, ?_⟩
    · have hultimo := (contadas_eq_iff texto ⟨19, by decide⟩).mp (hcuenta _).1
      exact hultimo
    · by_contra hcorta
      rw [not_or, not_le, ← List.length_eq_zero_iff] at hcorta
      obtain ⟨i, hi⟩ := hindice (cortada texto).length (by omega) hcorta.2
      have hfalta := (contadas_eq_iff texto i).mp (hcuenta i).1
      rw [if_pos (by omega)] at hfalta
      exact hfalta hi.symm
    · intro k hk hlt
      obtain ⟨i, rfl⟩ := hindice k hk hlt
      exact (hcuenta i).2
  · rintro ⟨hveinte, hcola, hlargos, hcabe⟩
    refine ⟨hlargos, fun k => ?_⟩
    by_cases hk : k.val + 1 < MAX_CAPACIDAD
    · refine ⟨(contadas_eq_iff texto k).mpr ?_, hcabe _ (by omega) hk⟩
      rw [if_pos hk]
      rcases hcola with hnil | hlarga
      · simp [hnil]
      · omega
    · have hultimo : k.val + 1 = MAX_CAPACIDAD := by omega
      refine ⟨(contadas_eq_iff texto k).mpr ?_, ?_⟩
      · rwa [if_neg hk]
      · rw [hultimo, hveinte]
        decide

/-- The text `a`, a word that the end of the input cuts, is not counted. -/
theorem histograma_una_letra : ¬Exacto [97] := by
  rintro ⟨s, hrun, hpal⟩
  have h := hpal ⟨0, by decide⟩
  cases hrun
  revert h
  decide

/-- What is printed, for every text whose reading completes: a line for each length below `MAX_CAPACIDAD` of which a
separator closes a word, with a star for each of these words. -/
theorem histograma_impreso (texto : List UInt8) {s : Estado} (hrun : bucle arranque texto = .ok s) (k n : Nat) :
    (k, n) ∈ imprimir s.palabras ↔ (1 ≤ k ∧ k < MAX_CAPACIDAD) ∧ 0 < n ∧ (trozos texto).dropLast.countP (·.length = k) =
    n := by
  have hpal : ∀ i, s.palabras i = contadas (trozos texto).dropLast i := by
    intro i
    rw [(bucle_ok (.separador fun k => by decide) (by decide) hrun).2.1, desde_nil]
    exact Int.zero_add _
  simp only [imprimir, List.mem_filterMap, List.mem_finRange, true_and, hpal, contadas]
  constructor
  · rintro ⟨i, hi⟩
    split_ifs at hi with hk hpos
    · obtain ⟨rfl, rfl⟩ := Prod.mk.inj (Option.some.inj hi)
      exact ⟨⟨by omega, hk⟩, by omega, by omega⟩
    · omega
  · rintro ⟨⟨h1, h2⟩, hn, rfl⟩
    refine ⟨⟨k - 1, by omega⟩, ?_⟩
    have hk : k - 1 + 1 = k := by omega
    simp only [hk, h2, if_true]
    rw [if_pos (by omega), Int.toNat_natCast]

/-- Of `a b` and the end of the text, only the first word is printed. -/
theorem histograma_impreso_dos : ∃ s, bucle arranque [97, 32, 98] = .ok s ∧ (1, 1) ∈ imprimir s.palabras :=
  ⟨_, rfl, (histograma_impreso [97, 32, 98] rfl 1 1).mpr (by decide +kernel)⟩

end Laboratorio.Histograma
