/-
A C++ `std::string` as a Lean string: a character, below 256, for each byte.
-/
import MyRaft.Lib.Bytes

namespace Bytes

/-- The string of these bytes. -/
def text (bs : Bytes) : String := String.ofList (bs.map fun b => Char.ofNat b.toNat)

/-- The bytes of a string. -/
def ofText (s : String) : Bytes := s.toList.map Char.toUInt8

/-- Each character is a byte. -/
def IsText (s : String) : Prop := ∀ c ∈ s.toList, c.toNat < 256

instance (s : String) : Decidable (IsText s) := List.decidableBAll (fun c : Char => c.toNat < 256) s.toList

theorem toNat_ofNat {n : Nat} (h : n < 256) : (Char.ofNat n).toNat = n := by
  have hv : n.isValidChar := .inl (by omega)
  rw [Char.ofNat, dif_pos hv]
  rfl

theorem toNat_toUInt8 {c : Char} (h : c.toNat < 256) : c.toUInt8.toNat = c.toNat := by
  rw [Char.toUInt8, UInt32.toNat_toUInt8]
  exact Nat.mod_eq_of_lt h

theorem toUInt8_ofNat (b : UInt8) : (Char.ofNat b.toNat).toUInt8 = b := by
  have h := toNat_ofNat b.toNat_lt
  exact UInt8.toNat_inj.mp (by rw [toNat_toUInt8 (by rw [h]; exact b.toNat_lt), h])

theorem ofNat_toUInt8 {c : Char} (h : c.toNat < 256) : Char.ofNat c.toUInt8.toNat = c := by
  rw [toNat_toUInt8 h, Char.ofNat_toNat]

@[simp] theorem ofText_text (bs : Bytes) : ofText (text bs) = bs := by
  simp [ofText, text, Function.comp_def, toUInt8_ofNat]

theorem isText_text (bs : Bytes) : IsText (text bs) := by
  intro c hc
  simp only [text, String.toList_ofList, List.mem_map] at hc
  obtain ⟨b, -, rfl⟩ := hc
  rw [toNat_ofNat b.toNat_lt]
  exact b.toNat_lt

theorem text_ofText {s : String} (h : IsText s) : text (ofText s) = s := by
  have hmap : (s.toList.map Char.toUInt8).map (fun b => Char.ofNat b.toNat) = s.toList.map id := by
    rw [List.map_map]
    exact List.map_congr_left fun c hc => ofNat_toUInt8 (h c hc)
  rw [text, ofText, hmap, List.map_id, String.ofList_toList]

end Bytes
