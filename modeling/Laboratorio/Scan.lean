import Mathlib.Data.Int.Notation
import Mathlib.Tactic.Common

/-! Conversion of decimal integers from a stream of bytes, as `scanf` does it for `%d`: white space is
skipped, a sign and the digits are read, and the first byte that does not belong to the number stays in
the stream. -/

namespace Laboratorio

def isspace (b : UInt8) : Bool := b = 32 || (9 ≤ b && b ≤ 13)

def isdigit (b : UInt8) : Bool := 48 ≤ b && b ≤ 57

def skipSpace (bytes : List UInt8) : List UInt8 := bytes.dropWhile isspace

def decimal (digits : List UInt8) : ℕ := digits.foldl (fun n b => 10 * n + (b.toNat - 48)) 0

/-- How a conversion ends: at the end of the stream before anything but white space, on a byte that is not
part of a number, or with a number. -/
inductive Conversion where
  | eof
  | mismatch (rest : List UInt8)
  | value (n : ℤ) (rest : List UInt8)
  deriving DecidableEq

/-- The digits of a number whose sign has been read. -/
def scanDigits (sign : ℤ) (bytes : List UInt8) : Conversion :=
  if bytes.takeWhile isdigit = [] then .mismatch bytes
  else .value (sign * decimal (bytes.takeWhile isdigit)) (bytes.dropWhile isdigit)

/-- `%d`. A sign without digits is read and lost. -/
def scanInt (bytes : List UInt8) : Conversion :=
  match skipSpace bytes with
  | [] => .eof
  | b :: rest =>
    if b = 45 then scanDigits (-1) rest
    else if b = 43 then scanDigits 1 rest
    else scanDigits 1 (b :: rest)

theorem length_skipSpace_le (bytes : List UInt8) : (skipSpace bytes).length ≤ bytes.length :=
  (List.dropWhile_sublist isspace).length_le

/-- A number read leaves less of the stream. -/
theorem length_lt_of_scanDigits {sign n : ℤ} {bytes rest : List UInt8}
    (h : scanDigits sign bytes = .value n rest) : rest.length < bytes.length := by
  unfold scanDigits at h
  split at h
  · cases h
  · next hne =>
      cases h
      have hsplit := congrArg List.length (List.takeWhile_append_dropWhile (p := isdigit) (l := bytes))
      rw [List.length_append] at hsplit
      have hpos := List.length_pos_iff.mpr hne
      omega

theorem length_lt_of_scanInt {n : ℤ} {bytes rest : List UInt8} (h : scanInt bytes = .value n rest) :
    rest.length < bytes.length := by
  have hskip := length_skipSpace_le bytes
  unfold scanInt at h
  split at h
  · cases h
  next b tail heq =>
    rw [heq, List.length_cons] at hskip
    split_ifs at h
    · have hdigits := length_lt_of_scanDigits h
      omega
    · have hdigits := length_lt_of_scanDigits h
      omega
    · have hdigits := length_lt_of_scanDigits h
      rw [List.length_cons] at hdigits
      omega

end Laboratorio
