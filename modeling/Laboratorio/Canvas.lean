import Laboratorio.RunPrefix
import Laboratorio.Stores
import Mathlib.Data.Int.Basic
import Mathlib.Data.Fintype.Basic
import Mathlib.Algebra.Group.Int.Defs

/-! Option `-w` of `lab-05/canvas.c`. A store outside the array and an `int` operation outside the range
of `int` both stop the model: C defines neither. -/

namespace Laboratorio.Canvas

open Function

abbrev HEIGHT : Nat := 25
abbrev WIDTH : Nat := 25
abbrev INT_MAX : Int := 2 ^ 31 - 1

abbrev Celda := Fin (HEIGHT * WIDTH)

abbrev CanvasT := Celda → UInt8

inductive Falla where
  | desborde
  | fueraDelCanvas
  deriving DecidableEq

def EsInt (n : Int) : Prop := -2 ^ 31 ≤ n ∧ n ≤ INT_MAX

instance (n : Int) : Decidable (EsInt n) := inferInstanceAs (Decidable (_ ∧ _))

/-- The result of an operation on `int`. -/
def comoInt (n : Int) : Except Falla Int := if EsInt n then .ok n else .error .desborde

/-- `(x * WIDTH + (y + i)) % (HEIGHT * WIDTH)`. -/
def indiceHorizontal (x y i : Int) : Except Falla Int := do
  let fila ← comoInt (x * WIDTH)
  let columna ← comoInt (y + i)
  let suma ← comoInt (fila + columna)
  return suma.tmod (HEIGHT * WIDTH)

/-- `((x + i) % HEIGHT) * WIDTH + y`. -/
def indiceVertical (x y i : Int) : Except Falla Int := do
  let fila ← comoInt (x + i)
  comoInt (fila.tmod HEIGHT * WIDTH + y)

def poner (index : Int) (c : UInt8) (canvas : CanvasT) : Except Falla CanvasT :=
  if h : 0 ≤ index ∧ index < (HEIGHT * WIDTH : Nat) then
    .ok (update canvas ⟨index.toNat, by omega⟩ c)
  else .error .fueraDelCanvas

/-- The loop over the characters of the message, from character `i` on. -/
def bucle (indice : Int → Except Falla Int) : Int → List UInt8 → CanvasT → Except Falla CanvasT
  | _, [], canvas => .ok canvas
  | i, c :: mensaje, canvas => do
      let index ← indice i
      let canvas ← poner index c canvas
      let i ← comoInt (i + 1)
      bucle indice i mensaje canvas

/-- Option `-w` once the canvas is open: `modo` is `argv[6][0]`, and `x` and `y` are what `atoi`
returned. -/
def opcionW (modo : Char) (mensaje : List UInt8) (x y : Int32) (canvas : CanvasT) : Except Falla CanvasT := do
  let canvas ← if modo = 'h' then bucle (indiceHorizontal x.toInt y.toInt) 0 mensaje canvas else pure canvas
  if modo = 'v' then bucle (indiceVertical x.toInt y.toInt) 0 mensaje canvas else pure canvas

/-! ### Where the characters belong -/

/-- Linear cell `(x * WIDTH + y + i) mod (HEIGHT * WIDTH)`. -/
def celdaHorizontal (x y : Int) (i : Nat) : Option Celda :=
  some ⟨((x * WIDTH + y + i) % (HEIGHT * WIDTH : Nat)).toNat, by simp only [HEIGHT, WIDTH]; omega⟩

/-- Row `(x + i) mod HEIGHT` of column `y`, if there is such a column. -/
def celdaVertical (x y : Int) (i : Nat) : Option Celda :=
  if h : 0 ≤ y ∧ y < WIDTH then
    some ⟨((x + i) % HEIGHT).toNat * WIDTH + y.toNat, by simp only [HEIGHT, WIDTH] at h ⊢; omega⟩
  else none

/-- The option ends with every character in its cell, a later one over an earlier one, and with every
other cell as it was. -/
def Escribe (celda : Nat → Option Celda) (mensaje : List UInt8) (canvas : CanvasT)
    (fin : Except Falla CanvasT) : Prop :=
  ∃ canvas', fin = .ok canvas' ∧
    (∀ (i : Nat) (hi : i < mensaje.length), ∃ k, celda i = some k ∧
      ((∀ j < mensaje.length, i < j → celda j ≠ some k) → canvas' k = mensaje[i])) ∧
    ∀ k, (∀ i < mensaje.length, celda i ≠ some k) → canvas' k = canvas k

theorem comoInt_ok {n m : Int} : comoInt n = .ok m ↔ EsInt n ∧ m = n := by
  unfold comoInt
  split_ifs with h
  · simp [h, eq_comm]
  · simp [h]

/-! ### The loop -/

variable {indice : Int → Except Falla Int} {i : Int} {mensaje : List UInt8} {canvas canvas' : CanvasT}

theorem bucle_stores {celda : Nat → Celda} (hi : 0 ≤ i) (hmax : i + mensaje.length ≤ INT_MAX)
    (hcelda : ∀ j < mensaje.length, indice (i + j) = .ok (celda j).val) :
    bucle indice i mensaje canvas = .ok (stores celda mensaje canvas) := by
  induction mensaje generalizing i celda canvas with
  | nil => rfl
  | cons c mensaje ih =>
    rw [List.length_cons] at hmax
    have hfirst : indice i = .ok (celda 0).val := by simpa using hcelda 0 (by simp)
    have hstore : poner ((celda 0).val : Int) c canvas = .ok (update canvas (celda 0) c) := by
      have hlt := (celda 0).isLt
      rw [poner, dif_pos ⟨by omega, by omega⟩]
      rfl
    have hnext : comoInt (i + 1) = .ok (i + 1) := comoInt_ok.mpr ⟨⟨by omega, by omega⟩, rfl⟩
    have hrest : ∀ j < mensaje.length, indice (i + 1 + j) = .ok (celda (j + 1)).val := by
      intro j hj
      have hsig : i + 1 + (j : Int) = i + ((j + 1 : Nat) : Int) := by
        push_cast
        omega
      rw [hsig]
      exact hcelda (j + 1) (by simpa using hj)
    rw [bucle, hfirst, ok_bind, hstore, ok_bind, hnext, ok_bind, ih (by omega) (by omega) hrest]
    rfl

theorem bucle_dentro (h : bucle indice i mensaje canvas = .ok canvas') :
    (mensaje = [] ∨ i + mensaje.length ≤ INT_MAX) ∧
      ∀ j < mensaje.length, ∃ k, indice (i + j) = .ok k ∧ 0 ≤ k ∧ k < (HEIGHT * WIDTH : Nat) := by
  induction mensaje generalizing i canvas with
  | nil => exact ⟨.inl rfl, by simp⟩
  | cons c mensaje ih =>
    obtain ⟨k, hk, h⟩ := bind_eq_ok h
    obtain ⟨canvas₁, hstore, h⟩ := bind_eq_ok h
    obtain ⟨i', hi', h⟩ := bind_eq_ok h
    obtain ⟨hint, rfl⟩ := comoInt_ok.mp hi'
    obtain ⟨hmax, hdentro⟩ := ih h
    have hrango : 0 ≤ k ∧ k < (HEIGHT * WIDTH : Nat) := by
      unfold poner at hstore
      split at hstore
      · assumption
      · cases hstore
    refine ⟨.inr ?_, ?_⟩
    · rw [List.length_cons]
      rcases hmax with rfl | hmax
      · exact hint.2
      · omega
    intro j hj
    cases j with
    | zero => exact ⟨k, by simpa using hk, hrango⟩
    | succ j =>
      obtain ⟨k', hk', hr⟩ := hdentro j (by simpa using hj)
      have hsig : i + ((j + 1 : Nat) : Int) = i + 1 + (j : Int) := by
        push_cast
        omega
      exact ⟨k', by rw [hsig]; exact hk', hr⟩

theorem escribe_of_celda {celda : Nat → Option Celda} {f : Nat → Celda} (hi : (mensaje.length : Int) ≤ INT_MAX)
    (hcelda : ∀ j < mensaje.length, celda j = some (f j))
    (hindice : ∀ j < mensaje.length, indice (j : Int) = .ok (f j).val) :
    Escribe celda mensaje canvas (bucle indice 0 mensaje canvas) := by
  refine ⟨stores f mensaje canvas, bucle_stores le_rfl (by omega) (by simpa using hindice), ?_, ?_⟩
  · intro j hj
    refine ⟨f j, hcelda j hj, fun hlast => stores_last hj fun l hl hjl heq => ?_⟩
    exact hlast l hl hjl (by rw [hcelda l hl, heq])
  · intro k hk
    exact stores_of_ne fun j hj heq => hk j hj (by rw [hcelda j hj, heq])

/-! ### The two indices -/

theorem tmod_nonneg_iff {a b : Int} (hb : 0 < b) : 0 ≤ a.tmod b ↔ 0 ≤ a ∨ b ∣ a := by
  have hlt := Int.emod_lt_of_pos a hb
  have hge := Int.emod_nonneg a (Int.ne_of_gt hb)
  rw [Int.tmod_eq_emod]
  split_ifs with h
  · simp [h, hge]
  · simp only [h, iff_false]
    omega

theorem tmod_eq_of_nonneg {a b : Int} (h : 0 ≤ a ∨ b ∣ a) : a.tmod b = a % b := by
  rw [Int.tmod_eq_emod, if_pos h]
  simp

theorem signo_iff {a b : Int} {n : Nat} (hn : 0 < n) (hb : 1 < b) :
    (∀ j < n, 0 ≤ a + j ∨ b ∣ a + j) ↔ 0 ≤ a ∨ n = 1 ∧ b ∣ a := by
  constructor
  · intro h
    by_cases ha : 0 ≤ a
    · exact .inl ha
    have hdiv : b ∣ a := by simpa [ha] using h 0 hn
    -- a second character would have a negative remainder
    refine .inr ⟨?_, hdiv⟩
    by_contra hne
    have hone : b ∣ 1 := by
      rcases h 1 (by omega) with h1 | h1
      · rw [show a = -1 by omega] at hdiv
        exact Int.dvd_neg.mp hdiv
      · exact (Int.dvd_add_right hdiv).mp h1
    have hle := Int.le_of_dvd Int.one_pos hone
    omega
  · rintro (h0 | ⟨rfl, hdiv⟩) j hj
    · exact .inl (by omega)
    · rw [show j = 0 by omega]
      exact .inr (by simpa using hdiv)

theorem indiceHorizontal_ok {x y i k : Int} :
    indiceHorizontal x y i = .ok k ↔ EsInt (x * WIDTH) ∧ EsInt (y + i) ∧ EsInt (x * WIDTH + y + i) ∧
        k = (x * WIDTH + y + i).tmod (HEIGHT * WIDTH) := by
  rw [Int.add_assoc]
  constructor
  · intro h
    obtain ⟨a, ha, h⟩ := bind_eq_ok h
    obtain ⟨b, hb, h⟩ := bind_eq_ok h
    obtain ⟨c, hc, h⟩ := bind_eq_ok h
    obtain ⟨ha', rfl⟩ := comoInt_ok.mp ha
    obtain ⟨hb', rfl⟩ := comoInt_ok.mp hb
    obtain ⟨hc', rfl⟩ := comoInt_ok.mp hc
    cases h
    exact ⟨ha', hb', hc', rfl⟩
  · rintro ⟨ha, hb, hc, rfl⟩
    rw [indiceHorizontal, comoInt_ok.mpr ⟨ha, rfl⟩, ok_bind, comoInt_ok.mpr ⟨hb, rfl⟩, ok_bind,
      comoInt_ok.mpr ⟨hc, rfl⟩]
    rfl

theorem indiceVertical_ok {x y i k : Int} :
    indiceVertical x y i = .ok k ↔
      EsInt (x + i) ∧ EsInt ((x + i).tmod HEIGHT * WIDTH + y) ∧ k = (x + i).tmod HEIGHT * WIDTH + y := by
  constructor
  · intro h
    obtain ⟨a, ha, h⟩ := bind_eq_ok h
    obtain ⟨ha', rfl⟩ := comoInt_ok.mp ha
    obtain ⟨hk, rfl⟩ := comoInt_ok.mp h
    exact ⟨ha', hk, rfl⟩
  · rintro ⟨ha, hk, rfl⟩
    rw [indiceVertical, comoInt_ok.mpr ⟨ha, rfl⟩, ok_bind, comoInt_ok.mpr ⟨hk, rfl⟩]

/-- A horizontal message of `n` characters from `(x, y)` stays on the canvas: the first cell has a
number, or the message is one character and that number a multiple of the size of the canvas; and no
`int` overflows on the way. -/
structure CabeHorizontal (x y : Int) (n : Nat) : Prop where
  largo : (n : Int) ≤ INT_MAX
  fila : EsInt (x * WIDTH)
  columna : y + n - 1 ≤ INT_MAX
  suma : -2 ^ 31 ≤ x * WIDTH + y ∧ x * WIDTH + y + n - 1 ≤ INT_MAX
  signo : 0 ≤ x * WIDTH + y ∨ n = 1 ∧ (HEIGHT * WIDTH : Int) ∣ x * WIDTH + y

/-- A vertical message of `n` characters from `(x, y)` stays in its column: there is such a column and
the row has a number, or the message is one character and the row a multiple of the height. -/
structure CabeVertical (x y : Int) (n : Nat) : Prop where
  largo : (n : Int) ≤ INT_MAX
  columna : 0 ≤ y ∧ y < WIDTH
  fila : x + n - 1 ≤ INT_MAX
  signo : 0 ≤ x ∨ n = 1 ∧ (HEIGHT : Int) ∣ x

variable {x y : Int}

theorem escribe_nil (celda : Nat → Option Celda) : Escribe celda [] canvas (bucle indice 0 [] canvas) :=
  ⟨canvas, rfl, by simp, by simp⟩

theorem horizontal_iff (hy : EsInt y) (hne : mensaje ≠ []) :
    Escribe (celdaHorizontal x y) mensaje canvas (bucle (indiceHorizontal x y) 0 mensaje canvas) ↔
      CabeHorizontal x y mensaje.length := by
  have hpos : 0 < mensaje.length := List.length_pos_iff.mpr hne
  constructor
  · rintro ⟨canvas', hrun, -, -⟩
    obtain ⟨hmax, hdentro⟩ := bucle_dentro hrun
    have hdatos : ∀ j < mensaje.length, EsInt (x * WIDTH) ∧ EsInt (y + j) ∧ EsInt (x * WIDTH + y + j) ∧
        (0 ≤ x * WIDTH + y + j ∨ (HEIGHT * WIDTH : Int) ∣ x * WIDTH + y + j) := by
      intro j hj
      obtain ⟨k, hk, h0, -⟩ := hdentro j hj
      rw [Int.zero_add] at hk
      obtain ⟨ha, hb, hc, rfl⟩ := indiceHorizontal_ok.mp hk
      exact ⟨ha, hb, hc, (tmod_nonneg_iff (by decide)).mp h0⟩
    obtain ⟨hfila, -, hS, -⟩ := hdatos 0 hpos
    obtain ⟨-, hcol, hSn, -⟩ := hdatos (mensaje.length - 1) (by omega)
    have hultimo : ((mensaje.length - 1 : Nat) : Int) = mensaje.length - 1 := by omega
    rw [hultimo] at hcol hSn
    refine ⟨by simpa using hmax.resolve_left hne, hfila, ?_, ?_, ?_⟩
    · have := hcol.2
      omega
    · have := hS.1
      have := hSn.2
      omega
    · exact (signo_iff hpos (by decide)).mp fun j hj => (hdatos j hj).2.2.2
  · intro h
    have hsigno := (signo_iff hpos (by decide)).mpr h.signo
    apply escribe_of_celda (f := fun j => ⟨((x * WIDTH + y + j) % (HEIGHT * WIDTH : Nat)).toNat, by
      simp only [HEIGHT, WIDTH]; omega⟩) h.largo
    · intro j _
      rfl
    intro j hj
    have := h.suma
    have := h.columna
    have := hy.1
    refine indiceHorizontal_ok.mpr ⟨h.fila, ⟨by omega, by omega⟩, ⟨by omega, by omega⟩, ?_⟩
    rw [tmod_eq_of_nonneg (hsigno j hj)]
    simp only [HEIGHT, WIDTH]
    omega

theorem vertical_iff (hx : EsInt x) (hne : mensaje ≠ []) :
    Escribe (celdaVertical x y) mensaje canvas (bucle (indiceVertical x y) 0 mensaje canvas) ↔
      CabeVertical x y mensaje.length := by
  have hpos : 0 < mensaje.length := List.length_pos_iff.mpr hne
  constructor
  · rintro ⟨canvas', hrun, hcelda, -⟩
    obtain ⟨hmax, hdentro⟩ := bucle_dentro hrun
    have hcol : 0 ≤ y ∧ y < WIDTH := by
      obtain ⟨k, hk, -⟩ := hcelda 0 hpos
      unfold celdaVertical at hk
      split at hk
      · assumption
      · cases hk
    have hdatos : ∀ j < mensaje.length, EsInt (x + j) ∧ (0 ≤ x + j ∨ (HEIGHT : Int) ∣ x + j) := by
      intro j hj
      obtain ⟨k, hk, h0, -⟩ := hdentro j hj
      rw [Int.zero_add] at hk
      obtain ⟨ha, -, rfl⟩ := indiceVertical_ok.mp hk
      refine ⟨ha, (tmod_nonneg_iff (by decide)).mp ?_⟩
      simp only [HEIGHT, WIDTH] at h0 hcol ⊢
      omega
    obtain ⟨hfila, -⟩ := hdatos (mensaje.length - 1) (by omega)
    have hultimo : ((mensaje.length - 1 : Nat) : Int) = mensaje.length - 1 := by omega
    rw [hultimo] at hfila
    refine ⟨by simpa using hmax.resolve_left hne, hcol, ?_, ?_⟩
    · have := hfila.2
      omega
    · exact (signo_iff hpos (by decide)).mp fun j hj => (hdatos j hj).2
  · intro h
    have hcol := h.columna
    have hsigno := (signo_iff hpos (by decide)).mpr h.signo
    apply escribe_of_celda (f := fun j => ⟨((x + j) % HEIGHT).toNat * WIDTH + y.toNat, by
      simp only [HEIGHT, WIDTH] at hcol ⊢; omega⟩) h.largo
    · intro j _
      rw [celdaVertical, dif_pos hcol]
    intro j hj
    have := h.fila
    have := hx.1
    have hresto : (x + j).tmod HEIGHT * WIDTH + y = (x + j) % HEIGHT * WIDTH + y := by
      rw [tmod_eq_of_nonneg (hsigno j hj)]
    refine indiceVertical_ok.mpr ⟨⟨by omega, by omega⟩, ?_, ?_⟩
    · rw [hresto]
      simp only [EsInt, INT_MAX, HEIGHT, WIDTH] at hcol ⊢
      omega
    · rw [hresto]
      simp only [HEIGHT, WIDTH] at hcol ⊢
      omega

/-! ### Option `-w` -/

theorem esInt_toInt (x : Int32) : EsInt x.toInt := by
  have hlt := x.toInt_lt
  exact ⟨x.le_toInt, by simp only [INT_MAX]; omega⟩

/-- For every message and every position, the horizontal and the vertical loop write the message where
it belongs, and nothing else, exactly when it is empty or the position fits. -/
theorem canvas_escribe_iff (mensaje : List UInt8) (x y : Int32) (canvas : CanvasT) :
    (Escribe (celdaHorizontal x.toInt y.toInt) mensaje canvas (opcionW 'h' mensaje x y canvas) ↔
      mensaje = [] ∨ CabeHorizontal x.toInt y.toInt mensaje.length) ∧
    (Escribe (celdaVertical x.toInt y.toInt) mensaje canvas (opcionW 'v' mensaje x y canvas) ↔
      mensaje = [] ∨ CabeVertical x.toInt y.toInt mensaje.length) := by
  have hh : opcionW 'h' mensaje x y canvas = bucle (indiceHorizontal x.toInt y.toInt) 0 mensaje canvas := by
    simp [opcionW]
  have hv : opcionW 'v' mensaje x y canvas = bucle (indiceVertical x.toInt y.toInt) 0 mensaje canvas := by
    simp [opcionW]
  rw [hh, hv]
  by_cases hne : mensaje = []
  · subst hne
    simp [escribe_nil]
  · simp only [hne, false_or]
    exact ⟨horizontal_iff (esInt_toInt y) hne, vertical_iff (esInt_toInt x) hne⟩

/-- One character at row 0, column -1, horizontally, and at row 24, column 25, vertically: the stores go
to cells -1 and 625. -/
theorem canvas_se_sale :
    opcionW 'h' [97] 0 (-1) (fun _ => 0) = .error .fueraDelCanvas ∧
      opcionW 'v' [97] 24 25 (fun _ => 0) = .error .fueraDelCanvas ∧
      ¬Escribe (celdaHorizontal 0 (-1)) [97] (fun _ => 0) (opcionW 'h' [97] 0 (-1) (fun _ => 0)) ∧
      ¬Escribe (celdaVertical 24 25) [97] (fun _ => 0) (opcionW 'v' [97] 24 25 (fun _ => 0)) := by
  have hh : opcionW 'h' [97] 0 (-1) (fun _ => 0) = .error .fueraDelCanvas := by rfl
  have hv : opcionW 'v' [97] 24 25 (fun _ => 0) = .error .fueraDelCanvas := by rfl
  refine ⟨hh, hv, ?_, ?_⟩
  · rintro ⟨canvas', hrun, -⟩
    rw [hh] at hrun
    cases hrun
  · rintro ⟨canvas', hrun, -⟩
    rw [hv] at hrun
    cases hrun

end Laboratorio.Canvas
