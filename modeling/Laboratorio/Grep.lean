import Mathlib.Computability.Language

/-! The matcher of `xv6/grep.c`. -/

open Computability

namespace Laboratorio.Grep

abbrev Str := List UInt8

/-- `*text == c || c == '.'`, the test of one byte of the text. -/
def Fits (c t : UInt8) : Prop := t = c ∨ c = '.'.toUInt8

instance (c t : UInt8) : Decidable (Fits c t) := inferInstanceAs (Decidable (_ ∨ _))

/-- `matchstar(c, re, text)`; here and below `here` is `matchhere(re, ·)`. -/
def matchstar (here : Str → Bool) (c : UInt8) : Str → Bool
  | [] => here []
  | t :: text => here (t :: text) || (decide (Fits c t) && matchstar here c text)

/-- The last test of `matchhere`: one byte of the text fits `c`, and `re` matches behind it. -/
def matchone (here : Str → Bool) (c : UInt8) : Str → Bool
  | [] => false
  | t :: text => decide (Fits c t) && here text

def matchhere : Str → Str → Bool
  | [], _ => true
  | [c], text => if c = '$'.toUInt8 then text.isEmpty else matchone (matchhere []) c text
  | c :: d :: re, text =>
    if d = '*'.toUInt8 then matchstar (matchhere re) c text else matchone (matchhere (d :: re)) c text

/-- The loop of `match`, which also looks at the empty rest of the text. -/
def matchAny (re : Str) : Str → Bool
  | [] => matchhere re []
  | t :: text => matchhere re (t :: text) || matchAny re text

/-- `match(re, text)`. -/
def matchRe (re text : Str) : Bool :=
  if re.head? = some '^'.toUInt8 then matchhere re.tail text else matchAny re text

/-! ### The language of a pattern -/

/-- What stands in a pattern: a byte or `.`, once or, before a `*`, any number of times. -/
inductive Item
  | one (c : UInt8)
  | star (c : UInt8)

def symbol (c : UInt8) : Language UInt8 := {w | ∃ t, Fits c t ∧ w = [t]}

def Item.lang : Item → Language UInt8
  | .one c => symbol c
  | .star c => (symbol c)∗

/-- The items of a pattern from left to right, and whether it ends in the anchor `$`. -/
def parse : Str → List Item × Bool
  | [] => ([], false)
  | [c] => if c = '$'.toUInt8 then ([], true) else ([.one c], false)
  | c :: d :: re =>
    if d = '*'.toUInt8 then (.star c :: (parse re).1, (parse re).2)
    else (.one c :: (parse (d :: re)).1, (parse (d :: re)).2)

def lang (items : List Item) : Language UInt8 := (items.map Item.lang).prod

/-- `text` starts with a word of the pattern, and with an anchor is that word. -/
def Begins (re text : Str) : Prop :=
  ∃ w rest, text = w ++ rest ∧ w ∈ lang (parse re).1 ∧ ((parse re).2 = true → rest = [])

theorem mem_kstar_symbol {c : UInt8} {w : Str} : w ∈ (symbol c)∗ ↔ ∀ t ∈ w, Fits c t := by
  rw [Language.mem_kstar]
  constructor
  · rintro ⟨pieces, rfl, h⟩ t ht
    obtain ⟨piece, hpiece, hin⟩ := List.mem_flatten.mp ht
    obtain ⟨u, hu, rfl⟩ := h piece hpiece
    rwa [List.mem_singleton.mp hin]
  · intro h
    refine ⟨w.map ([·]), by simp [← List.flatMap_def], fun piece hpiece => ?_⟩
    obtain ⟨t, ht, rfl⟩ := List.mem_map.mp hpiece
    exact ⟨t, h t ht, rfl⟩

theorem matchone_iff (here : Str → Bool) (c : UInt8) (text : Str) :
    matchone here c text = true ↔ ∃ w rest, text = w ++ rest ∧ w ∈ symbol c ∧ here rest = true := by
  constructor
  · intro h
    cases text with
    | nil => contradiction
    | cons t text =>
      rw [matchone, Bool.and_eq_true, decide_eq_true_iff] at h
      exact ⟨[t], text, rfl, ⟨t, h.1, rfl⟩, h.2⟩
  · rintro ⟨_, rest, rfl, ⟨t, ht, rfl⟩, h⟩
    simp [matchone, ht, h]

/-- The loop of `matchstar` leaves a part of the text that fits `c` and stops before one that `here` takes. -/
theorem matchstar_iff (here : Str → Bool) (c : UInt8) (text : Str) :
    matchstar here c text = true ↔ ∃ w rest, text = w ++ rest ∧ w ∈ (symbol c)∗ ∧ here rest = true := by
  induction text with
  | nil => simp [matchstar, mem_kstar_symbol]
  | cons t text ih =>
    rw [matchstar, Bool.or_eq_true, Bool.and_eq_true, decide_eq_true_iff, ih]
    simp only [mem_kstar_symbol]
    constructor
    · rintro (h | ⟨ht, w, rest, rfl, hw, h⟩)
      · exact ⟨[], t :: text, rfl, by simp, h⟩
      · exact ⟨t :: w, rest, rfl, by simpa using ⟨ht, hw⟩, h⟩
    · rintro ⟨w, rest, heq, hw, h⟩
      cases w with
      | nil => exact .inl (heq ▸ h)
      | cons u w =>
        obtain ⟨rfl, rfl⟩ := List.cons.inj heq
        exact .inr ⟨hw t (by simp), w, rest, rfl, fun u hu => hw u (by simp [hu]), h⟩

theorem begins_cons {re rest : Str} {item : Item} (hparse : parse re = (item :: (parse rest).1, (parse rest).2))
    (text : Str) : Begins re text ↔ ∃ w tail, text = w ++ tail ∧ w ∈ item.lang ∧ Begins rest tail := by
  unfold Begins lang
  rw [hparse]
  simp only [List.map_cons, List.prod_cons, Language.mem_mul]
  constructor
  · rintro ⟨_, tail, rfl, ⟨u, hu, v, hv, rfl⟩, hend⟩
    exact ⟨u, v ++ tail, List.append_assoc .., hu, v, tail, rfl, hv, hend⟩
  · rintro ⟨u, _, rfl, hu, v, tail, rfl, hv, hend⟩
    exact ⟨u ++ v, tail, (List.append_assoc ..).symm, ⟨u, hu, v, hv, rfl⟩, hend⟩

theorem matchhere_iff (re text : Str) : matchhere re text = true ↔ Begins re text := by
  have hnil (text : Str) : matchhere [] text = true ↔ Begins [] text :=
    iff_of_true rfl ⟨[], text, rfl, Language.nil_mem_one, nofun⟩
  induction re using parse.induct generalizing text with
  | case1 => exact hnil text
  | case2 =>
    rw [matchhere, if_pos rfl, Begins, parse, if_pos rfl, List.isEmpty_iff]
    constructor
    · rintro rfl
      exact ⟨[], [], rfl, Language.nil_mem_one, fun _ => rfl⟩
    · rintro ⟨w, rest, rfl, hw, hrest⟩
      rw [hrest rfl, (Language.mem_one w).mp hw, List.append_nil]
  | case3 c hc =>
    have hparse : parse [c] = (.one c :: (parse []).1, (parse []).2) := if_neg hc
    rw [matchhere, if_neg hc, matchone_iff, begins_cons hparse]
    simp only [hnil, Item.lang]
  | case4 c re ih =>
    have hparse : parse (c :: '*'.toUInt8 :: re) = (.star c :: (parse re).1, (parse re).2) := if_pos rfl
    rw [matchhere, if_pos rfl, matchstar_iff, begins_cons hparse]
    simp only [ih, Item.lang]
  | case5 c d re hd ih =>
    have hparse : parse (c :: d :: re) = (.one c :: (parse (d :: re)).1, (parse (d :: re)).2) := if_neg hd
    rw [matchhere, if_neg hd, matchone_iff, begins_cons hparse]
    simp only [ih, Item.lang]

theorem matchAny_eq (re text : Str) : matchAny re text = matchstar (matchhere re) '.'.toUInt8 text := by
  induction text with
  | nil => rfl
  | cons t text ih => rw [matchAny, matchstar, ih, decide_eq_true (.inr rfl), Bool.true_and]

/-- `match` finds a word of the pattern in the text, at its start if the pattern starts with `^`. -/
theorem matchRe_iff (re text : Str) :
    matchRe re text = true ↔
      if re.head? = some '^'.toUInt8 then
        ∃ w rest, text = w ++ rest ∧ w ∈ lang (parse re.tail).1 ∧ ((parse re.tail).2 = true → rest = [])
      else ∃ before w rest, text = before ++ w ++ rest ∧ w ∈ lang (parse re).1 ∧
        ((parse re).2 = true → rest = []) := by
  unfold matchRe
  split
  · exact matchhere_iff _ _
  · rw [matchAny_eq, matchstar_iff]
    simp only [matchhere_iff]
    constructor
    · rintro ⟨before, _, rfl, -, w, rest, rfl, h⟩
      exact ⟨before, w, rest, (List.append_assoc ..).symm, h⟩
    · rintro ⟨before, w, rest, rfl, h⟩
      exact ⟨before, w ++ rest, List.append_assoc .., mem_kstar_symbol.mpr fun _ _ => .inr rfl, w, rest, rfl, h⟩

end Laboratorio.Grep
