/-
UTF-8: which byte strings are well formed. A first byte says how many bytes
follow and from which range each is, so that no character has two encodings,
none is a surrogate and none is above 10FFFF.
-/
import MyRaft.Lib.Bytes

namespace Utf8

/-- A range of bytes, its two ends included. -/
abbrev Range := UInt8 × UInt8

def tail : Range := (0x80, 0xBF)

/-- The ranges of the bytes that follow a first byte. -/
def first (b : UInt8) : Option (List Range) :=
  if b < 0x80 then some []
  else if 0xC2 ≤ b && b ≤ 0xDF then some [tail]
  else if b = 0xE0 then some [(0xA0, 0xBF), tail]
  else if b = 0xED then some [(0x80, 0x9F), tail]
  else if 0xE1 ≤ b && b ≤ 0xEF then some [tail, tail]
  else if b = 0xF0 then some [(0x90, 0xBF), tail, tail]
  else if 0xF1 ≤ b && b ≤ 0xF3 then some [tail, tail, tail]
  else if b = 0xF4 then some [(0x80, 0x8F), tail, tail]
  else none

/-- A byte, where bytes of some ranges are to follow. -/
def step : List Range → UInt8 → Option (List Range)
  | [], b => first b
  | (lo, hi) :: pending, b => if lo ≤ b && b ≤ hi then some pending else none

/-- A byte string, from where bytes of some ranges are to follow. -/
def run (pending : List Range) (bs : Bytes) : Option (List Range) := bs.foldlM step pending

/-- The bytes are whole characters. -/
def Valid (bs : Bytes) : Prop := run [] bs = some []

instance (bs : Bytes) : Decidable (Valid bs) := inferInstanceAs (Decidable (_ = _))

variable {pending : List Range} {a bs : Bytes} {b : UInt8}

@[simp] theorem run_nil : run pending [] = some pending := rfl

@[simp] theorem run_cons : run pending (b :: bs) = (step pending b).bind (run · bs) := List.foldlM_cons ..

theorem run_append : run pending (a ++ bs) = (run pending a).bind (run · bs) := List.foldlM_append ..

@[simp] theorem valid_nil : Valid [] := rfl

/-- Behind whole characters the rest is on its own. -/
theorem Valid.append_iff (ha : Valid a) : Valid (a ++ bs) ↔ Valid bs := by
  unfold Valid at *
  rw [run_append, ha]
  rfl

theorem valid_ascii_iff (hb : b < 0x80) : Valid (b :: bs) ↔ Valid bs := by
  simp [Valid, step, first, hb]

/-- The ranges of following bytes are above the ASCII bytes. -/
def High (pending : List Range) : Prop := ∀ r ∈ pending, 0x80 ≤ r.1

instance : Decidable (High pending) := List.decidableBAll (fun r : Range => 0x80 ≤ r.1) pending

theorem high_first (h : first b = some pending) : High pending := by
  unfold first at h
  repeat' split at h
  all_goals cases h
  all_goals decide

theorem high_step {next : List Range} (hp : High pending) (h : step pending b = some next) : High next := by
  cases pending with
  | nil => exact high_first h
  | cons r pending =>
    simp only [step] at h
    split at h
    · cases h
      exact fun r' hr' => hp r' (by simp [hr'])
    · cases h

theorem high_run {next : List Range} (hp : High pending) (h : run pending bs = some next) : High next := by
  induction bs generalizing pending with
  | nil =>
    cases h
    exact hp
  | cons b bs ih =>
    obtain ⟨mid, hmid, hrest⟩ := Option.bind_eq_some_iff.mp (run_cons.symm.trans h)
    exact ih (high_step hp hmid) hrest

/-- An ASCII byte does not continue a character. -/
theorem step_ascii (hp : High pending) (hb : b < 0x80) :
    step pending b = if pending = [] then some [] else none := by
  cases pending with
  | nil => simp [step, first, hb]
  | cons r pending =>
    have hlo : 0x80 ≤ r.1 := hp r (by simp)
    have hlt : ¬ r.1 ≤ b := fun hle => absurd (UInt8.le_trans hlo hle) (UInt8.not_le.mpr hb)
    simp [step, hlt]

/-- **An ASCII byte is between characters.** -/
theorem valid_append_ascii_iff (hb : b < 0x80) : Valid (a ++ b :: bs) ↔ Valid a ∧ Valid bs := by
  constructor
  · intro h
    obtain ⟨mid, hmid, hrest⟩ := Option.bind_eq_some_iff.mp (run_append.symm.trans h)
    have hhigh : High mid := high_run (by simp [High]) hmid
    rw [run_cons, step_ascii hhigh hb] at hrest
    split at hrest
    · rename_i hnil
      subst hnil
      exact ⟨hmid, hrest⟩
    · cases hrest
  · rintro ⟨ha, hbs⟩
    exact ha.append_iff.mpr ((valid_ascii_iff hb).mpr hbs)

end Utf8
