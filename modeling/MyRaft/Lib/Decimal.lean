/-
Decimal numerals in byte strings: what `to_string` and a `printf` of `%d` with
a width write, and what `atoi` reads.
-/
import MyRaft.Lib.Bytes
import Mathlib.Algebra.Group.Nat.Defs
import Mathlib.Algebra.Group.Int.Defs
import Mathlib.Data.List.TakeWhile
import Mathlib.Data.Nat.Notation

namespace Decimal

/-- `%d` of a number that is not negative. -/
def decimal (n : Nat) : Bytes := (Nat.toDigits 10 n).map Char.toUInt8

/-- `%d` with a width: blanks on the left, and no digit dropped. -/
def padded (width n : Nat) : Bytes := List.replicate (width - (decimal n).length) 32 ++ decimal n

def isSpace (b : UInt8) : Bool := b = 32 || (9 ≤ b && b ≤ 13)

def isDigit (b : UInt8) : Bool := 48 ≤ b && b ≤ 57

/-- The number the digits at the front of a string denote. -/
def unsigned (bs : Bytes) : Nat := (bs.takeWhile isDigit).foldl (fun n b => 10 * n + (b.toNat - 48)) 0

/-- The number at the front of a string, of any size; 0 where there is none. -/
def number (bs : Bytes) : Int :=
  match bs.dropWhile isSpace with
  | 45 :: bs => -(unsigned bs : Int)
  | 43 :: bs => unsigned bs
  | bs => unsigned bs

/-- `strtol`: a number that no `long` holds becomes the nearest one. -/
def strtol (bs : Bytes) : Int := max (-2 ^ 63) (min (number bs) (2 ^ 63 - 1))

/-- `atoi` casts the `long` that `strtol` returns to an `int`, which keeps its low 32 bits. -/
def atoi (bs : Bytes) : Int := (Int32.ofInt (strtol bs)).toInt

/-- An `int` holds the number. -/
def IsInt (n : Int) : Prop := -2 ^ 31 ≤ n ∧ n < 2 ^ 31

instance (n : Int) : Decidable (IsInt n) := inferInstanceAs (Decidable (-2 ^ 31 ≤ n ∧ n < 2 ^ 31))

/-- The blanks, the sign and the digits at the front of a string. `atoi` reads these and the byte behind them. -/
def numberLength (bs : Bytes) : Nat :=
  (bs.takeWhile isSpace).length +
    match bs.dropWhile isSpace with
    | 45 :: bs => 1 + (bs.takeWhile isDigit).length
    | 43 :: bs => 1 + (bs.takeWhile isDigit).length
    | bs => (bs.takeWhile isDigit).length

theorem toUInt8_toNat {c : Char} (hc : c.isDigit = true) : c.toUInt8.toNat = c.toNat := by
  simp only [Char.isDigit, Bool.and_eq_true, decide_eq_true_eq] at hc
  have h9 : c.toNat ≤ 57 := UInt32.le_iff_toNat_le.mp hc.2
  simp only [Char.toUInt8, Char.toNat] at *
  rw [UInt32.toNat_toUInt8]
  omega

theorem isDigit_decimal {n : Nat} {b : UInt8} (hb : b ∈ decimal n) : isDigit b = true := by
  obtain ⟨c, hc, rfl⟩ := List.mem_map.mp hb
  have hd := Nat.isDigit_of_mem_toDigits (by decide) (by decide) hc
  have ht := toUInt8_toNat hd
  simp only [Char.isDigit, Bool.and_eq_true, decide_eq_true_eq] at hd
  have h0 : 48 ≤ c.toNat := UInt32.le_iff_toNat_le.mp hd.1
  have h9 : c.toNat ≤ 57 := UInt32.le_iff_toNat_le.mp hd.2
  simp only [isDigit, Bool.and_eq_true, decide_eq_true_eq, UInt8.le_iff_toNat_le, ht]
  exact ⟨h0, h9⟩

theorem decimal_ne_nil (n : Nat) : decimal n ≠ [] := by
  simp [decimal, Nat.toDigits_ne_nil]

theorem unsigned_decimal (n : Nat) : unsigned (decimal n) = n := by
  have htake : (decimal n).takeWhile isDigit = decimal n :=
    List.takeWhile_eq_self_iff.mpr fun _ => isDigit_decimal
  have hfold : ∀ (cs : List Char) (m : Nat), (∀ c ∈ cs, c.isDigit = true) →
      (cs.map Char.toUInt8).foldl (fun n b => 10 * n + (b.toNat - 48)) m = Nat.ofDigitChars 10 cs m := by
    intro cs
    induction cs with
    | nil => simp
    | cons c cs ih =>
      intro m hd
      rw [List.map_cons, List.foldl_cons, toUInt8_toNat (hd c (by simp)), Nat.ofDigitChars_cons]
      exact ih _ fun d hm => hd d (by simp [hm])
  rw [unsigned, htake, decimal, hfold _ _ fun c hc => Nat.isDigit_of_mem_toDigits (by decide) (by decide) hc]
  exact Nat.ofDigitChars_ten_toDigits

theorem atoi_isInt (bs : Bytes) : IsInt (atoi bs) := ⟨Int32.le_toInt _, Int32.toInt_lt _⟩

/-- **`atoi` returns the number of a string exactly when an `int` holds it.** -/
theorem atoi_eq_number_iff {bs : Bytes} : atoi bs = number bs ↔ IsInt (number bs) := by
  constructor
  · intro h
    rw [← h]
    exact atoi_isInt bs
  · intro h
    have hlong : strtol bs = number bs := by
      unfold strtol
      have := h.1
      have := h.2
      omega
    rw [atoi, hlong]
    exact Int32.toInt_ofInt_of_le h.1 h.2

theorem number_padded (width n : Nat) : number (padded width n) = n := by
  have hspaces : ∀ k, (List.replicate k 32 ++ decimal n).dropWhile isSpace = (decimal n).dropWhile isSpace := by
    intro k
    induction k with
    | zero => rfl
    | succ k ih => rw [List.replicate_succ, List.cons_append, List.dropWhile_cons_of_pos (by decide), ih]
  rw [number, padded, hspaces]
  cases hd : decimal n with
  | nil => exact absurd hd (decimal_ne_nil n)
  | cons b bs =>
    have hb : isDigit b = true := isDigit_decimal (n := n) (by rw [hd]; simp)
    have hnum : unsigned (b :: bs) = n := by rw [← hd, unsigned_decimal]
    simp only [isDigit, Bool.and_eq_true, decide_eq_true_eq, UInt8.le_iff_toNat_le] at hb
    have hns : ¬ isSpace b = true := by
      simp only [isSpace, Bool.or_eq_true, Bool.and_eq_true, decide_eq_true_eq, UInt8.le_iff_toNat_le]
      rintro (rfl | ⟨-, h⟩)
      · exact absurd hb.1 (by decide)
      · exact absurd (Nat.le_trans hb.1 h) (by decide)
    rw [List.dropWhile_cons_of_neg hns]
    split
    · rename_i h
      obtain ⟨rfl, -⟩ := List.cons_eq_cons.mp h
      exact absurd hb.1 (by decide)
    · rename_i h
      obtain ⟨rfl, -⟩ := List.cons_eq_cons.mp h
      exact absurd hb.1 (by decide)
    · rw [hnum]

/-- **`atoi` reads back what `%d` wrote, whatever the width.** -/
theorem atoi_padded (width : Nat) {n : Nat} (hn : n < 2 ^ 31) : atoi (padded width n) = n := by
  have hnumber := number_padded width n
  rw [← hnumber]
  refine atoi_eq_number_iff.mpr ?_
  rw [hnumber]
  exact ⟨by omega, by omega⟩

theorem atoi_decimal {n : Nat} (hn : n < 2 ^ 31) : atoi (decimal n) = n := by
  have h := atoi_padded 0 hn
  rwa [padded, Nat.zero_sub, List.replicate_zero, List.nil_append] at h

theorem length_padded {width n : Nat} (hw : 0 < width) (hn : n < 10 ^ width) :
    (padded width n).length = width := by
  have hlen : (decimal n).length ≤ width := by
    rw [decimal, List.length_map]
    exact (Nat.length_toDigits_le_iff (by decide) hw).mpr hn
  rw [padded, List.length_append, List.length_replicate]
  omega

theorem le_length_padded (width n : Nat) : width ≤ (padded width n).length := by
  rw [padded, List.length_append, List.length_replicate]
  omega

/-- `atoi` reads past a byte that may be part of a number. -/
theorem numberLength_singleton (b : UInt8) :
    numberLength [b] = if isSpace b ∨ b = 45 ∨ b = 43 ∨ isDigit b then 1 else 0 := by
  by_cases hs : isSpace b = true
  · simp [numberLength, hs]
  · by_cases hm : b = 45
    · simp [numberLength, hm, isSpace]
    · by_cases hp : b = 43
      · simp [numberLength, hp, isSpace]
      · have hdrop : [b].dropWhile isSpace = [b] := by simp [hs]
        have htake : [b].takeWhile isSpace = [] := by simp [hs]
        rw [numberLength, hdrop, htake]
        split
        · rename_i h
          exact absurd (List.cons_eq_cons.mp h).1 hm
        · rename_i h
          exact absurd (List.cons_eq_cons.mp h).1 hp
        · by_cases hd : isDigit b = true <;> simp [hs, hm, hp, hd]

end Decimal
