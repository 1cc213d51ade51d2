/-
Repairing a copy of a list. The holder of the original probes the copy at a
position: the copy accepts where the entry before the position has the same key
as the original's, and then takes the original's entry at the position. A refused
probe is followed by one a position lower, an accepted one by one a position
higher, up to the end of the original.
-/
import MyRaft.Lib.Truncating
import Mathlib.Data.List.Infix

namespace Repair

variable {α κ : Type} {key : α → κ} {original copy l : List α} {a : α}

/-- Entries of one key at one position have the same entries before them. -/
def Matching (key : α → κ) (original copy : List α) : Prop :=
  ∀ i, ∀ a ∈ original[i]?, ∀ b ∈ copy[i]?, key a = key b → original.take (i + 1) = copy.take (i + 1)

/-- The copy accepts a probe at `n`. -/
def Accepts (key : α → κ) (original copy : List α) (n : Nat) : Prop :=
  n = 0 ∨ ∃ a ∈ original[n - 1]?, ∃ b ∈ copy[n - 1]?, key a = key b

theorem Accepts.le_length {n : Nat} (h : Accepts key original copy n) : n ≤ copy.length := by
  rcases h with rfl | ⟨_, -, b, hb, -⟩
  · exact Nat.zero_le _
  · have := (List.getElem?_eq_some_iff.mp hb).1
    omega

/-- A copy that accepts a probe is the original up to there. -/
theorem Accepts.take_eq {n : Nat} (h : Accepts key original copy n) (hm : Matching key original copy) :
    original.take n = copy.take n := by
  rcases h with rfl | ⟨a, ha, b, hb, hkey⟩
  · rw [List.take_zero, List.take_zero]
  · cases n with
    | zero => rw [List.take_zero, List.take_zero]
    | succ n => exact hm n a ha b hb hkey

theorem accepts_take {n : Nat} (hn : n ≤ original.length) : Accepts key original (original.take n) n := by
  cases n with
  | zero => exact .inl rfl
  | succ n =>
    have hget := List.getElem?_eq_getElem (show n < original.length by omega)
    exact .inr ⟨_, hget, _, by rwa [Nat.add_sub_cancel, List.getElem?_take_of_lt (Nat.lt_succ_self n)], rfl⟩

/-- A repair under way: the probe at `n` is the `probes`-th, and `l` is what the
copy has become. Probes go down as long as they are refused, then up. -/
inductive Stage (original copy : List α) : (n : Nat) → (l : List α) → (probes : Nat) → (refused : Bool) → Prop
  | down {n probes refused} (hn : n ≤ original.length) (hprobes : probes + n = original.length + 1)
      (hrefused : refused = true ↔ n < original.length) : Stage original copy n copy probes refused
  | up {n probes refused} (hn : n ≤ original.length) (hpos : 0 < n) (hprobes : probes ≤ original.length + 1 + n) :
      Stage original copy n (original.take n) probes refused

variable {n probes : Nat} {refused : Bool}

theorem Stage.start : Stage original copy original.length copy 1 false :=
  .down (Nat.le_refl _) (Nat.add_comm _ _) (by simp)

/-- **A repair takes at most two probes a position.** -/
theorem Stage.probes_le (h : Stage original copy n l probes refused) : probes ≤ 2 * original.length + 1 := by
  cases h with
  | down hn hprobes => omega
  | up hn hpos hprobes => omega

/-- On the way up no probe is refused, nor is one at the start. -/
theorem Stage.refuse (h : Stage original copy n l probes refused) (hr : ¬ Accepts key original l n) :
    0 < n ∧ Stage original copy (n - 1) l (probes + 1) true := by
  cases h with
  | down hn hprobes hrefused =>
    have hpos : 0 < n := Nat.pos_of_ne_zero fun hz => hr (.inl hz)
    exact ⟨hpos, .down (by omega) (by omega) (by simp; omega)⟩
  | up hn => exact absurd (accepts_take hn) hr

theorem Stage.take_eq (h : Stage original copy n l probes refused) (hm : Matching key original copy)
    (ha : Accepts key original l n) : original.take n = l.take n := by
  cases h with
  | down => exact ha.take_eq hm
  | up => rw [List.take_take, Nat.min_self]

theorem Stage.accept (h : Stage original copy n l probes refused) (hm : Matching key original copy)
    (ha : Accepts key original l n) (hget : original[n]? = some a) :
    Stage original copy (n + 1) (Truncating.insert l n a) (probes + 1) refused := by
  obtain ⟨hlt, -⟩ := List.getElem?_eq_some_iff.mp hget
  have hl : Truncating.insert l n a = original.take (n + 1) := by
    rw [Truncating.insert, ← h.take_eq hm ha, List.take_add_one, hget, Option.toList_some]
  rw [hl]
  cases h with
  | down hn hprobes => exact .up (by omega) (by omega) (by omega)
  | up hn hpos hprobes => exact .up (by omega) (by omega) (by omega)

/-- **At the end the copy has the original as a prefix**, and is the original where a
probe was refused. -/
theorem Stage.finish (h : Stage original copy original.length l probes refused) (hm : Matching key original copy)
    (ha : Accepts key original l original.length) : original <+: l ∧ (refused = true → l = original) := by
  have htake := h.take_eq hm ha
  rw [List.take_length] at htake
  refine ⟨htake ▸ List.take_prefix _ _, fun hr => ?_⟩
  cases h with
  | down hn hprobes hrefused => exact absurd (hrefused.mp hr) (Nat.lt_irrefl _)
  | up => rw [List.take_length]

end Repair
