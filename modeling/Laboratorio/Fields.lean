import Mathlib.Data.List.Basic
import Mathlib.Tactic.Common

/-! The non-empty pieces of a list between separators. -/

namespace Laboratorio

variable {α : Type*} {sep : α → Bool} {a : α} {w l : List α}

def fields (sep : α → Bool) (l : List α) : List (List α) := (l.splitOnP sep).filter (! ·.isEmpty)

end Laboratorio
