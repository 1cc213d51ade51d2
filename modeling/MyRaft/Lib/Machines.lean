/-
Machines that run commands and answer queries, where a query may change the
state as well, and the abstract machines they implement, where it may not.

A run of a machine then shows, to its commands and its queries, what the
abstract machine shows after the commands alone.
-/
import Mathlib.Data.List.Induction

namespace Machines

/-- A call of a machine. -/
inductive Call (α β : Type) where
  | command (a : α)
  | query (b : β)
deriving DecidableEq

/-- The commands among some calls. -/
def commands {α β : Type} (calls : List (Call α β)) : List α :=
  calls.filterMap fun call => match call with
    | .command a => some a
    | .query _ => none

structure Machine (σ α β ο : Type) where
  initial : σ
  apply : σ → α → σ × ο
  get : σ → β → σ × ο

/-- A machine whose queries only read. -/
structure Spec (ν α β ο : Type) where
  initial : ν
  apply : ν → α → ν × ο
  answer : ν → β → ο

variable {σ ν α β ο : Type}

namespace Machine

def step (m : Machine σ α β ο) (s : σ) : Call α β → σ × ο
  | .command a => m.apply s a
  | .query b => m.get s b

/-- The state after some calls. -/
def run (m : Machine σ α β ο) (calls : List (Call α β)) : σ :=
  calls.foldl (fun s call => (m.step s call).1) m.initial

theorem run_concat (m : Machine σ α β ο) (calls : List (Call α β)) (call : Call α β) :
    m.run (calls ++ [call]) = (m.step (m.run calls) call).1 := by
  simp [run]

end Machine

namespace Spec

/-- The state after some commands. -/
def run (spec : Spec ν α β ο) (as : List α) : ν := as.foldl (fun v a => (spec.apply v a).1) spec.initial

theorem run_concat (spec : Spec ν α β ο) (as : List α) (a : α) :
    spec.run (as ++ [a]) = (spec.apply (spec.run as) a).1 := by
  simp [run]

/-- What the abstract machine returns for a call made after some commands. -/
def output (spec : Spec ν α β ο) (as : List α) : Call α β → ο
  | .command a => (spec.apply (spec.run as) a).2
  | .query b => spec.answer (spec.run as) b

end Spec

@[simp] theorem commands_nil : commands ([] : List (Call α β)) = [] := rfl

@[simp] theorem commands_append (calls calls' : List (Call α β)) :
    commands (calls ++ calls') = commands calls ++ commands calls' := by
  simp [commands]

@[simp] theorem commands_command (a : α) : commands [(.command a : Call α β)] = [a] := rfl

@[simp] theorem commands_query (b : β) : commands [(.query b : Call α β)] = [] := rfl

/-- What is seen of a state of the machine is a state of the abstract one, and calls show nothing else. -/
structure Implements (m : Machine σ α β ο) (spec : Spec ν α β ο) (view : σ → ν) : Prop where
  initial : view m.initial = spec.initial
  apply : ∀ s a, view (m.apply s a).1 = (spec.apply (view s) a).1 ∧ (m.apply s a).2 = (spec.apply (view s) a).2
  get : ∀ s b, view (m.get s b).1 = view s ∧ (m.get s b).2 = spec.answer (view s) b

variable {m : Machine σ α β ο} {spec : Spec ν α β ο} {view : σ → ν}

/-- **Queries leave no trace**: the machine shows the state after the commands alone. -/
theorem Implements.run (h : Implements m spec view) (calls : List (Call α β)) :
    view (m.run calls) = spec.run (commands calls) := by
  induction calls using List.reverseRecOn with
  | nil => exact h.initial
  | append_singleton calls call ih =>
    rw [Machine.run_concat, commands_append]
    cases call with
    | command a => rw [commands_command, Spec.run_concat, ← ih]; exact (h.apply _ a).1
    | query b => rw [commands_query, List.append_nil, ← ih]; exact (h.get _ b).1

/-- And each call returns what the abstract machine does. -/
theorem Implements.output (h : Implements m spec view) (calls : List (Call α β)) (call : Call α β) :
    (m.step (m.run calls) call).2 = spec.output (commands calls) call := by
  cases call with
  | command a => rw [Spec.output, ← h.run]; exact (h.apply _ a).2
  | query b => rw [Spec.output, ← h.run]; exact (h.get _ b).2

end Machines
