/-
Base-128 varints: seven bits a byte, the lowest first, and the top bit set on
every byte but the last.
-/
import MyRaft.Lib.Bytes
import Mathlib.Data.Nat.Log

namespace Varint

/-- `n` in at most `fuel` bytes. -/
def encodeFuel : Nat → Nat → Bytes
  | 0, _ => []
  | fuel + 1, n => if n < 128 then [UInt8.ofNat n] else UInt8.ofNat (n % 128 + 128) :: encodeFuel fuel (n / 128)

/-- The shortest varint of `n`. -/
def encode (n : Nat) : Bytes := encodeFuel (n + 1) n

/-- The number at the front, and what is behind it. -/
def decode : Bytes → Option (Nat × Bytes)
  | [] => none
  | b :: bs =>
    if b < 128 then some (b.toNat, bs)
    else (decode bs).map fun (n, rest) => (b.toNat - 128 + 128 * n, rest)

variable {n : Nat}

theorem encodeFuel_eq {fuel fuel' : Nat} (h : n < fuel) (h' : n < fuel') :
    encodeFuel fuel n = encodeFuel fuel' n := by
  induction fuel generalizing n fuel' with
  | zero => omega
  | succ fuel ih =>
    cases fuel' with
    | zero => omega
    | succ fuel' =>
      simp only [encodeFuel]
      split
      · rfl
      · exact congrArg _ (ih (by omega) (by omega))

/-- One byte of the encoder. -/
theorem encode_eq (n : Nat) :
    encode n = if n < 128 then [UInt8.ofNat n] else UInt8.ofNat (n % 128 + 128) :: encode (n / 128) := by
  rw [encode, encodeFuel]
  split
  · rfl
  · rw [encode, encodeFuel_eq (by omega) (Nat.lt_succ_self _)]

theorem encode_of_lt (h : n < 128) : encode n = [UInt8.ofNat n] := by rw [encode_eq, if_pos h]

theorem encode_of_ge (h : ¬ n < 128) : encode n = UInt8.ofNat (n % 128 + 128) :: encode (n / 128) := by
  rw [encode_eq, if_neg h]

@[simp] theorem encode_zero : encode 0 = [0] := rfl

theorem encode_ne_nil (n : Nat) : encode n ≠ [] := by
  rw [encode_eq]
  split <;> simp

/-- Only the last byte is below 128. -/
theorem encode_last (n : Nat) : ∃ front last, encode n = front ++ [last] ∧ last < 128 := by
  induction n using Nat.strong_induction_on with
  | _ n ih =>
    by_cases h : n < 128
    · refine ⟨[], UInt8.ofNat n, encode_of_lt h, ?_⟩
      rw [UInt8.lt_iff_toNat_lt, UInt8.toNat_ofNat']
      simp
      omega
    · obtain ⟨front, last, heq, hlast⟩ := ih (n / 128) (by omega)
      exact ⟨UInt8.ofNat (n % 128 + 128) :: front, last, by rw [encode_of_ge h, heq]; rfl, hlast⟩

/-- **What the encoder wrote is read back.** -/
theorem decode_encode (n : Nat) (rest : Bytes) : decode (encode n ++ rest) = some (n, rest) := by
  induction n using Nat.strong_induction_on with
  | _ n ih =>
    by_cases h : n < 128
    · have hb : (UInt8.ofNat n).toNat = n := by rw [UInt8.toNat_ofNat']; omega
      have hlt : UInt8.ofNat n < 128 := by rw [UInt8.lt_iff_toNat_lt, hb]; exact h
      rw [encode_of_lt h, List.singleton_append, decode, if_pos hlt, hb]
    · have hb : (UInt8.ofNat (n % 128 + 128)).toNat = n % 128 + 128 := by rw [UInt8.toNat_ofNat']; omega
      have hge : ¬ UInt8.ofNat (n % 128 + 128) < 128 := by
        rw [UInt8.lt_iff_toNat_lt, hb]
        simp
      rw [encode_of_ge h, List.cons_append, decode, if_neg hge, ih _ (by omega), Option.map_some, hb]
      simp only [Option.some.injEq, Prod.mk.injEq, and_true]
      omega

/-- A byte for each digit to the base 128. -/
theorem length_encode (n : Nat) : (encode n).length = Nat.log 128 n + 1 := by
  induction n using Nat.strong_induction_on with
  | _ n ih =>
    by_cases h : n < 128
    · rw [encode_of_lt h, Nat.log_of_lt h]
      rfl
    · have hlog : Nat.log 128 n = Nat.log 128 (n / 128) + 1 := Nat.log_of_one_lt_of_le (by decide) (by omega)
      rw [encode_of_ge h, List.length_cons, ih _ (by omega), hlog]

end Varint
