/-
Items written end to end: where each one starts, and what is read back from
between two of these bounds.
-/
import MyRaft.Lib.Truncating
import Mathlib.Data.List.Flatten
import Mathlib.Order.Basic

namespace Layout

variable {α β : Type} (f : α → List β) {l : List α} {i j : Nat} {a : α}

/-- Where item `i` starts; the end of the last one, for `i` past the list. -/
def bound (l : List α) (i : Nat) : Nat := ((l.take i).flatMap f).length

/-- The bounds of all items, and the end. -/
def bounds (l : List α) : List Nat := (List.range (l.length + 1)).map (bound f l)

theorem length_bounds (l : List α) : (bounds f l).length = l.length + 1 := by
  simp [bounds]

theorem getElem?_bounds (hi : i ≤ l.length) : (bounds f l)[i]? = some (bound f l i) := by
  rw [bounds, List.getElem?_map, List.getElem?_range (by omega)]
  rfl

theorem drop_bounds (hi : i ≤ l.length) : (bounds f l).drop i = bound f l i :: (bounds f l).drop (i + 1) := by
  have hlt : i < (bounds f l).length := by rw [length_bounds]; omega
  rw [List.drop_eq_getElem_cons hlt, (List.getElem_eq_iff hlt).mpr (getElem?_bounds f hi)]

theorem drop_all_bounds (l : List α) : (bounds f l).drop (l.length + 1) = [] :=
  List.drop_of_length_le (Nat.le_of_eq (length_bounds f l))

theorem bounds_nil : bounds f [] = [0] := rfl

theorem bound_length (l : List α) : bound f l l.length = (l.flatMap f).length := by
  rw [bound, List.take_length]

theorem bound_succ (h : l[i]? = some a) : bound f l (i + 1) = bound f l i + (f a).length := by
  rw [bound, bound, List.take_add_one, h, List.flatMap_append, List.length_append]
  simp

theorem bound_mono (l : List α) (hij : i ≤ j) : bound f l i ≤ bound f l j := by
  obtain ⟨d, rfl⟩ := Nat.exists_eq_add_of_le hij
  rw [bound, bound, List.take_add, List.flatMap_append, List.length_append]
  exact Nat.le_add_right _ _

theorem bound_le (l : List α) (i : Nat) : bound f l i ≤ (l.flatMap f).length := by
  conv_rhs => rw [← List.take_append_drop i l, List.flatMap_append, List.length_append]
  exact Nat.le_add_right _ _

/-- What stands before a bound is the items before it. -/
theorem take_bound (l : List α) (i : Nat) (tail : List β) :
    (l.flatMap f ++ tail).take (bound f l i) = (l.take i).flatMap f := by
  conv_lhs => rw [← List.take_append_drop i l, List.flatMap_append, List.append_assoc]
  rw [bound, List.take_left' (by rw [List.take_append_drop])]

/-- What stands between two bounds is the item between them. -/
theorem slice (h : l[i]? = some a) (tail : List β) :
    ((l.flatMap f ++ tail).drop (bound f l i)).take (f a).length = f a := by
  obtain ⟨hi, rfl⟩ := List.getElem?_eq_some_iff.mp h
  have hsplit : l.flatMap f ++ tail = (l.take i).flatMap
      f ++ (f l[i] ++ ((l.drop (i + 1)).flatMap f ++ tail)) := by
    conv_lhs => rw [← List.take_append_drop i l, List.drop_eq_getElem_cons hi, List.flatMap_append,
      List.flatMap_cons]
    rw [List.append_assoc, List.append_assoc]
  rw [hsplit, bound, List.drop_left, List.take_left]

/-! ## Writing an item over the others -/

theorem flatMap_insert (l : List α) (i : Nat) (a : α) :
    (Truncating.insert l i a).flatMap f = (l.flatMap f).take (bound f l i) ++ f a := by
  have htake := take_bound f l i []
  rw [List.append_nil] at htake
  rw [htake, Truncating.insert, List.flatMap_append, List.flatMap_singleton]

theorem bound_insert (hi : i ≤ l.length) (hj : j ≤ i) : bound f (Truncating.insert l i a) j = bound f l j := by
  rw [bound, bound, Truncating.insert, List.take_append_of_le_length (by rw [List.length_take_of_le hi]; exact hj),
    List.take_take, Nat.min_eq_left hj]

/-- The bounds up to the item stay, and its end follows. -/
theorem bounds_insert (hi : i ≤ l.length) :
    bounds f (Truncating.insert l i a) = Truncating.insert (bounds f l) (i + 1) (bound f l i + (f a).length) := by
  refine List.ext_getElem? fun j => ?_
  have hlen := Truncating.length_insert (a := a) hi
  rw [Truncating.getElem?_insert (by rw [length_bounds]; omega)]
  split
  · rename_i hj
    rw [getElem?_bounds f (by omega), getElem?_bounds f (by omega), bound_insert f hi (by omega)]
  · split
    · rename_i hj
      have hlast : (Truncating.insert l i a)[i]? = some a := by rw [Truncating.getElem?_insert hi]; simp
      rw [hj, getElem?_bounds f (by omega), bound_succ f hlast, bound_insert f hi (Nat.le_refl i)]
    · rw [List.getElem?_eq_none (by rw [length_bounds]; omega)]

end Layout
