/-
Runs of a step function that may have no next state: a condition on the steps
of a run, when two conditions hold along the same runs, what a run may cost, and
runs that match.
-/
import Mathlib.Data.List.Basic
import Mathlib.Algebra.GroupWithZero.Nat

namespace Runs

variable {σ ε : Type} {step : σ → ε → Option σ} {P Q : σ → ε → σ → Prop} {I : σ → Prop} {s s' : σ} {e : ε}
  {es : List ε}

/-- Each step of a run meets a condition on it and on the states around it.
A run ends where no step is possible. -/
def Always (step : σ → ε → Option σ) (P : σ → ε → σ → Prop) : σ → List ε → Prop
  | _, [] => True
  | s, e :: es => ∀ s' ∈ step s e, P s e s' ∧ Always step P s' es

theorem Always.at :
    ∀ {before : List ε} {s s₁ s₂ : σ} {e : ε} {after : List ε}, Always step P s (before ++ e :: after) →
    before.foldlM step s = some s₁ → step s₁ e = some s₂ → P s₁ e s₂
  | [], s, s₁, s₂, e, after, h, hrun, hstep => by
    obtain rfl : s = s₁ := by simpa using hrun
    exact (h s₂ hstep).1
  | d :: before, s, s₁, s₂, e, after, h, hrun, hstep => by
    rw [List.foldlM_cons] at hrun
    obtain ⟨s', hs', hrun⟩ := Option.bind_eq_some_iff.mp hrun
    exact Always.at (h s' hs').2 hrun hstep

/-- **A condition that the steps from an invariant meet, and that keeps it, holds along every run.** -/
theorem always_of_invariant (hstep : ∀ {s e s'}, I s → step s e = some s' → P s e s' ∧ I s') :
    ∀ {es : List ε} {s : σ}, I s → Always step P s es
  | [], _, _ => trivial
  | _ :: _, _, h => fun _ hs =>
    have ⟨hp, hi⟩ := hstep h hs
    ⟨hp, always_of_invariant hstep hi⟩

/-- **Two conditions that say the same from an invariant, which they keep, hold along the same runs.** -/
theorem always_congr (hkeep : ∀ {s e s'}, I s → step s e = some s' → P s e s' → I s')
    (hiff : ∀ {s e s'}, I s → step s e = some s' → (P s e s' ↔ Q s e s')) :
    ∀ {es : List ε} {s : σ}, I s → (Always step P s es ↔ Always step Q s es)
  | [], _, _ => Iff.rfl
  | _ :: _, _, h => forall₂_congr fun _ hs => by
    rw [← hiff h hs]
    exact and_congr_right fun hp => always_congr hkeep hiff (hkeep h hs hp)

theorem run_keeps (hstep : ∀ {s e s'}, I s → step s e = some s' → I s') :
    ∀ {es : List ε} {s s' : σ}, I s → es.foldlM step s = some s' → I s'
  | [], s, s', h, hrun => by
    obtain rfl : s = s' := by simpa using hrun
    exact h
  | e :: es, s, s', h, hrun => by
    rw [List.foldlM_cons] at hrun
    obtain ⟨s₁, hs, hrun⟩ := Option.bind_eq_some_iff.mp hrun
    exact run_keeps hstep (hstep h hs) hrun

/-- **What the steps of a run cost is paid** from the potential of its start and from what its steps bring in. -/
theorem run_pays {potential : σ → Nat} {cost income : ε → Nat}
    (hkeep : ∀ {s e s'}, I s → step s e = some s' → I s')
    (hstep : ∀ {s e s'}, I s → step s e = some s' → potential s' + cost e ≤ potential s + income e) :
    ∀ {es : List ε} {s s' : σ}, I s → es.foldlM step s = some s' →
      potential s' + (es.map cost).sum ≤ potential s + (es.map income).sum
  | [], s, s', _, hrun => by
    obtain rfl : s = s' := by simpa using hrun
    simp
  | e :: es, s, s', h, hrun => by
    rw [List.foldlM_cons] at hrun
    obtain ⟨s₁, hs, hrun⟩ := Option.bind_eq_some_iff.mp hrun
    have hfirst := hstep h hs
    have hrest := run_pays hkeep hstep (hkeep h hs) hrun
    simp only [List.map_cons, List.sum_cons]
    omega

/-- **A run is matched step by step** by what its states show, if each step is. -/
theorem run_simulates {τ : Type} {step' : τ → ε → Option τ} {f : σ → τ}
    (hkeep : ∀ {s e s'}, I s → step s e = some s' → I s')
    (hstep : ∀ {s e s'}, I s → step s e = some s' → step' (f s) e = some (f s')) :
    ∀ {es : List ε} {s s' : σ}, I s → es.foldlM step s = some s' → es.foldlM step' (f s) = some (f s')
  | [], s, s', _, hrun => by
    obtain rfl : s = s' := by simpa using hrun
    rfl
  | e :: es, s, s', h, hrun => by
    rw [List.foldlM_cons] at hrun ⊢
    obtain ⟨s₁, hs, hrun⟩ := Option.bind_eq_some_iff.mp hrun
    rw [hstep h hs]
    exact run_simulates hkeep hstep (hkeep h hs) hrun

end Runs
