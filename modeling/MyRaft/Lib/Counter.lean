/-
The values a counter of 32 bits hands out, compared as signed numbers.
-/
import Mathlib.Algebra.Group.Nat.Defs
import Mathlib.Algebra.Group.Int.Defs
import Mathlib.Data.List.Basic

namespace Counter

variable {l : List Int32} {n : Int32} {j k : Nat}

/-- The values handed out by a counter that starts at 0, the last one first. -/
inductive Counted : List Int32 → Prop
  | nil : Counted []
  | cons {l : List Int32} : Counted l → Counted (Int32.ofNat l.length :: l)

theorem Counted.mem_iff (h : Counted l) : n ∈ l ↔ ∃ k < l.length, n = Int32.ofNat k := by
  induction h with
  | nil => simp
  | cons _ ih => rw [List.mem_cons, ih, List.length_cons, Nat.exists_lt_succ_right, or_comm]

theorem ofNat_lt_ofNat (hjk : j < k) (hk : k < 2 ^ 31) : Int32.ofNat j < Int32.ofNat k := by
  rw [Int32.lt_iff_toInt_lt, Int32.toInt_ofNat_of_lt (by omega), Int32.toInt_ofNat_of_lt hk]
  omega

theorem ofInt_le_ofInt_iff {a b : Int} (ha : -2 ^ 31 ≤ a ∧ a < 2 ^ 31) (hb : -2 ^ 31 ≤ b ∧ b < 2 ^ 31) :
    Int32.ofInt a ≤ Int32.ofInt b ↔ a ≤ b := by
  rw [Int32.le_iff_toInt_le, Int32.toInt_ofInt_of_le ha.1 ha.2, Int32.toInt_ofInt_of_le hb.1 hb.2]

theorem neg_one_lt_ofNat (hk : k < 2 ^ 31) : -1 < Int32.ofNat k := by
  have hneg : (-1 : Int32).toInt = -1 := by decide
  rw [Int32.lt_iff_toInt_lt, hneg, Int32.toInt_ofNat_of_lt hk]
  omega

/-- The largest value, the last before the counter wraps. -/
theorem not_maxValue_lt (n : Int32) : ¬ Int32.ofNat (2 ^ 31 - 1) < n := by
  have hlt := Int32.toInt_lt n
  rw [Int32.lt_iff_toInt_lt, Int32.toInt_ofNat_of_lt (by omega)]
  omega

/-- **The next value is above all before it until the counter wraps.** -/
theorem Counted.lt_next_iff (h : Counted l) : (∀ m ∈ l, m < Int32.ofNat l.length) ↔ l.length < 2 ^ 31 := by
  constructor
  · intro hall
    by_contra hge
    exact not_maxValue_lt _ (hall _ (h.mem_iff.mpr ⟨2 ^ 31 - 1, by omega, rfl⟩))
  · intro hlt m hm
    obtain ⟨k, hk, rfl⟩ := h.mem_iff.mp hm
    exact ofNat_lt_ofNat hk hlt

end Counter
