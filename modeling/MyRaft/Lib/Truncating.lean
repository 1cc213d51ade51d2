/-
Lists that are written at a position and lose what stood behind it.
-/
import Mathlib.Data.List.Basic

namespace Truncating

variable {α : Type} {l : List α} {i n : Nat} {a b : α}

/-- `a` at position `i`, as the last element. -/
def insert (l : List α) (i : Nat) (a : α) : List α := l.take i ++ [a]

theorem length_insert (hi : i ≤ l.length) : (insert l i a).length = i + 1 := by
  unfold insert
  rw [List.length_append, List.length_take_of_le hi, List.length_singleton]

theorem getElem?_insert (hi : i ≤ l.length) :
    (insert l i a)[n]? = if n < i then l[n]? else if n = i then some a else none := by
  have hlen := List.length_take_of_le hi
  unfold insert
  split
  · rename_i hlt
    rw [List.getElem?_append_left (by omega), List.getElem?_take_of_lt hlt]
  · split
    · rename_i heq
      rw [List.getElem?_append_right (by omega), hlen, heq, Nat.sub_self]
      rfl
    · exact List.getElem?_eq_none (by simp only [List.length_append, hlen, List.length_singleton]; omega)

/-- An element behind the insert is new, one before it is old. -/
theorem getElem?_insert_cases (hi : i ≤ l.length) (h : (insert l i a)[n]? = some b) :
    n < i ∧ l[n]? = some b ∨ n = i ∧ a = b := by
  rw [getElem?_insert hi] at h
  split at h
  · exact .inl ⟨‹_›, h⟩
  · split at h
    · exact .inr ⟨‹_›, Option.some.inj h⟩
    · cases h

theorem insert_length : insert l l.length a = l ++ [a] := by
  unfold insert
  rw [List.take_length]

end Truncating
