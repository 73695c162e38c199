import Mathlib.Data.List.TakeWhile
import Mathlib.Tactic.Common

/-! Strings that a zero byte ends. A word stored without its terminator reads back as it was exactly when
the byte behind it is zero. -/

namespace Laboratorio

/-- The string at the start of a list of bytes: what `printf` prints for `%s`, if there is a zero byte. -/
def cstring (bytes : List UInt8) : List UInt8 := bytes.takeWhile (· ≠ 0)

theorem cstring_append {word : List UInt8} (hword : 0 ∉ word) (rest : List UInt8) :
    cstring (word ++ rest) = word ++ cstring rest := by
  apply List.takeWhile_append_of_pos
  intro b hb
  simp only [ne_eq, decide_eq_true_eq]
  rintro rfl
  exact hword hb

theorem cstring_eq_nil_iff (b : UInt8) (rest : List UInt8) : cstring (b :: rest) = [] ↔ b = 0 := by
  unfold cstring
  rw [List.takeWhile_cons]
  by_cases hb : b = 0 <;> simp [hb]

/-- A word reads back exactly when the byte behind it is zero. -/
theorem cstring_word_iff {word : List UInt8} (hword : 0 ∉ word) (b : UInt8) (rest : List UInt8) :
    cstring (word ++ b :: rest) = word ↔ b = 0 := by
  rw [cstring_append hword, List.append_right_eq_self, cstring_eq_nil_iff]

end Laboratorio
