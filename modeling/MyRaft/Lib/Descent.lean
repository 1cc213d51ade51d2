/-
Steps that come to an end. Each step of a relation lowers one of several
counters, listed by rank, and raises none of a higher rank.
-/
import Mathlib.Order.WellFounded
import Mathlib.Logic.Relation
import Mathlib.Algebra.Order.BigOperators.Group.Finset

namespace Descent

open Relation (ReflTransGen)

variable {α : Type} {s s' : α} {μ : α → Nat} {μs : List (α → Nat)} {r : α → α → Prop} {I : α → Prop}

/-- From `s` to `s'` a counter falls, and none before it rises. -/
def Lowers : List (α → Nat) → α → α → Prop
  | [], _, _ => False
  | μ :: μs, s, s' => μ s' < μ s ∨ μ s' ≤ μ s ∧ Lowers μs s s'

theorem Lowers.falls (h : μ s' < μ s) : Lowers (μ :: μs) s s' := .inl h

theorem Lowers.stays (h : μ s' ≤ μ s) (hrest : Lowers μs s s') : Lowers (μ :: μs) s s' := .inr ⟨h, hrest⟩

theorem lowers_wf : ∀ μs : List (α → Nat), WellFounded fun s' s => Lowers μs s s'
  | [] => ⟨fun _ => ⟨_, nofun⟩⟩
  | μ :: μs => by
    have hlex := (Prod.lex ⟨_, Nat.lt_wfRel.wf⟩ ⟨_, lowers_wf μs⟩).wf
    refine Subrelation.wf (fun {s' s} h => ?_) (InvImage.wf (fun s => (μ s, s)) hlex)
    rcases h with hlt | ⟨hle, hrest⟩
    · exact .left _ _ hlt
    · rcases Nat.lt_or_eq_of_le hle with hlt | heq
      · exact .left _ _ hlt
      · show Prod.Lex _ _ (μ s', s') (μ s, s)
        rw [heq]
        exact .right _ hrest

/-- **A relation whose steps from an invariant keep it and lower the counters ends from there.** -/
theorem acc_of_lowers (hstep : ∀ {s s'}, I s → r s s' → I s' ∧ Lowers μs s s') (h : I s) :
    Acc (fun s' s => r s s') s := by
  induction s using (lowers_wf μs).induction with
  | _ s ih =>
    refine ⟨_, fun s' hr => ?_⟩
    obtain ⟨hkept, hlowers⟩ := hstep h hr
    exact ih s' hlowers hkept

/-- No run of it goes on for ever. -/
theorem no_chain (h : Acc (fun s' s => r s s') s) : ¬ ∃ run : Nat → α, run 0 = s ∧ ∀ n, r (run n) (run (n + 1)) :=
  fun ⟨run, hrun⟩ => (acc_iff_isEmpty_descending_chain.mp h).false ⟨run, hrun⟩

/-- And one that goes on while it can comes to where it cannot. -/
theorem exists_end (h : Acc (fun s' s => r s s') s) : ∃ s', ReflTransGen r s s' ∧ ∀ s'', ¬ r s' s'' := by
  induction h with
  | intro s _ ih =>
    by_cases hr : ∃ s', r s s'
    · obtain ⟨s', hr⟩ := hr
      obtain ⟨t, ht, hend⟩ := ih s' hr
      exact ⟨t, .head hr ht, hend⟩
    · exact ⟨s, .refl, fun s'' h => hr ⟨s'', h⟩⟩

/-! ## Sums in which one term changes -/

section Sums

variable {ι : Type} [DecidableEq ι] {t : Finset ι} {f g : ι → Nat} {a : ι}

theorem sum_le_of_ne (hne : ∀ i, i ≠ a → g i = f i) (ha : g a ≤ f a) : ∑ i ∈ t, g i ≤ ∑ i ∈ t, f i :=
  Finset.sum_le_sum fun i _ => by
    by_cases hi : i = a
    · exact hi ▸ ha
    · exact Nat.le_of_eq (hne i hi)

theorem sum_change (hne : ∀ i, i ≠ a → g i = f i) (hmem : a ∈ t) : ∑ i ∈ t, g i + f a = ∑ i ∈ t, f i + g a := by
  have herase : ∑ i ∈ t.erase a, g i = ∑ i ∈ t.erase a, f i :=
    Finset.sum_congr rfl fun i hi => hne i (Finset.ne_of_mem_erase hi)
  rw [← Finset.add_sum_erase t g hmem, ← Finset.add_sum_erase t f hmem, herase]
  omega

theorem sum_lt_of_ne (hne : ∀ i, i ≠ a → g i = f i) (hmem : a ∈ t) (ha : g a < f a) :
    ∑ i ∈ t, g i < ∑ i ∈ t, f i := by
  have := sum_change hne hmem
  omega

end Sums

end Descent
