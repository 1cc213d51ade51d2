/-
Majorities: two of them meet, and the value a majority has reached is the entry
of the descending list at their number less one.
-/
import Mathlib.Data.List.GetD
import Mathlib.Data.List.Sort
import Mathlib.Data.List.Count
import Mathlib.Data.Finset.Card

namespace Rank

/-! ## Quorums -/

variable {α : Type} [DecidableEq α]

/-- More than half of the members. -/
structure Quorum (members : List α) (Q : Finset α) : Prop where
  subset : Q ⊆ members.toFinset
  majority : members.length / 2 + 1 ≤ Q.card

theorem Quorum.meet {members : List α} {Q Q' : Finset α} (h : Quorum members Q) (h' : Quorum members Q') :
    ∃ v ∈ Q, v ∈ Q' := by
  have hle : members.toFinset.card ≤ members.length := List.toFinset_card_le members
  have hlt : members.toFinset.card < Q.card + Q'.card := by
    have := h.majority
    have := h'.majority
    omega
  obtain ⟨v, hv⟩ := Finset.inter_nonempty_of_card_lt_card_add_card h.subset h'.subset hlt
  exact ⟨v, (Finset.mem_inter.mp hv).1, (Finset.mem_inter.mp hv).2⟩

/-! ## Descending lists -/

/-- At least `m + 1` entries of a descending list reach the one at `m`. -/
theorem le_getElem_iff {k : Int} : ∀ {l : List Int}, l.Pairwise (· ≥ ·) → ∀ {m : Nat} (hm : m < l.length),
    (k ≤ l[m] ↔ m < l.countP (k ≤ ·))
  | [], _, m, hm => absurd hm (by simp)
  | a :: l, hs, m, hm => by
    rw [List.pairwise_cons] at hs
    by_cases ha : k ≤ a
    · cases m with
      | zero => simp [ha]
      | succ m =>
        have ih := le_getElem_iff (k := k) hs.2 (m := m) (by simpa using hm)
        simp [ha, ih]
    · -- everything behind `a` is smaller still
      have hall : ∀ b ∈ a :: l, ¬ k ≤ b := fun b hb => by
        rcases List.mem_cons.mp hb with rfl | hb
        · exact ha
        · have := hs.1 b hb
          omega
      have hzero : (a :: l).countP (k ≤ ·) = 0 := by
        rw [List.countP_eq_zero]
        exact fun b hb => by simpa using hall b hb
      rw [hzero]
      simp only [Nat.not_lt_zero, iff_false]
      exact hall _ (List.getElem_mem hm)

/-- The same of the sorted list, counted before the sort. -/
theorem le_insertionSort_iff {k : Int} {l : List Int} {m : Nat} (hm : m < l.length) :
    k ≤ (l.insertionSort (· ≥ ·)).getD m 0 ↔ m < l.countP (k ≤ ·) := by
  have hlen : m < (l.insertionSort (· ≥ ·)).length := by rwa [List.length_insertionSort]
  rw [List.getD_eq_getElem _ _ hlen, le_getElem_iff (List.pairwise_insertionSort _ _) hlen,
    (List.perm_insertionSort _ l).countP_eq]

/-- The members that a count finds are a set of that size. -/
theorem card_filter_eq_countP {members : List α} (hn : members.Nodup) (p : α → Bool) :
    (members.toFinset.filter fun a => p a).card = members.countP p := by
  rw [List.countP_eq_length_filter, ← List.toFinset_filter, List.toFinset_card_of_nodup (hn.filter _)]

end Rank
