/-
Byte strings, and the calls that change part of a buffer or of a file.
-/
import Mathlib.Data.List.Basic

abbrev Bytes := List UInt8

namespace Bytes

variable {file bytes : Bytes} {n offset : Nat}

/-- The first `n` bytes; zeros for those that are missing. -/
def fit (n : Nat) (file : Bytes) : Bytes := file.take n ++ List.replicate (n - file.length) 0

/-- `file` after `bytes` were written at an offset. -/
def overwrite (file : Bytes) (offset : Nat) (bytes : Bytes) : Bytes :=
  fit offset file ++ bytes ++ file.drop (offset + bytes.length)

theorem fit_eq_take (h : n ≤ file.length) : fit n file = file.take n := by
  rw [fit, Nat.sub_eq_zero_of_le h, List.replicate_zero, List.append_nil]

/-- What stands up to the end of the bytes written. -/
theorem take_overwrite (h : offset ≤ file.length) (bytes : Bytes) :
    (overwrite file offset bytes).take (offset + bytes.length) = file.take offset ++ bytes := by
  rw [overwrite, fit_eq_take h, List.take_left']
  rw [List.length_append, List.length_take, Nat.min_eq_left h]

theorem length_overwrite (h : offset ≤ file.length) (bytes : Bytes) :
    (overwrite file offset bytes).length = max file.length (offset + bytes.length) := by
  rw [overwrite, fit_eq_take h]
  simp only [List.length_append, List.length_take, List.length_drop]
  omega

theorem overwrite_end (file bytes : Bytes) : overwrite file file.length bytes = file ++ bytes := by
  rw [overwrite, fit_eq_take (Nat.le_refl _), List.take_length, List.drop_of_length_le (Nat.le_add_right _ _),
    List.append_nil]

end Bytes
