/-
Histories of a system: lists of events, newest first, so that the tail of a
history is what had happened before its head.
-/
import Mathlib.Data.List.Basic
import Mathlib.Data.List.Infix

namespace History

variable {ε : Type} {P Q : List ε → ε → Prop} {h past : List ε} {e : ε}

/-- Each event of a history meets a condition on itself and its past. -/
def Along (P : List ε → ε → Prop) : List ε → Prop
  | [] => True
  | e :: past => P past e ∧ Along P past

instance Along.decidable [∀ past e, Decidable (P past e)] : ∀ h : List ε, Decidable (Along P h)
  | [] => .isTrue trivial
  | e :: past =>
    have := decidable past
    inferInstanceAs (Decidable (P past e ∧ Along P past))

theorem Along.suffix (ha : Along P h) (hs : past <:+ h) : Along P past := by
  induction h with
  | nil => rwa [List.suffix_nil.mp hs]
  | cons e es ih =>
    rcases List.suffix_cons_iff.mp hs with rfl | hs
    · exact ha
    · exact ih ha.2 hs

theorem Along.at (ha : Along P h) (hs : e :: past <:+ h) : P past e := (ha.suffix hs).1

theorem along_of_forall : ∀ {h : List ε}, (∀ e past, e :: past <:+ h → P past e) → Along P h
  | [], _ => trivial
  | e :: past, hall =>
    ⟨hall e past (List.suffix_refl _), along_of_forall fun d p hs => hall d p (hs.trans (List.suffix_cons e past))⟩

theorem Along.imp (hPQ : ∀ past e, P past e → Q past e) : ∀ {h : List ε}, Along P h → Along Q h
  | [], _ => trivial
  | e :: past, ha => ⟨hPQ past e ha.1, ha.2.imp hPQ⟩

/-- An event of a history has a past there. -/
theorem exists_past (he : e ∈ h) : ∃ past, e :: past <:+ h := by
  obtain ⟨newer, past, rfl⟩ := List.append_of_mem he
  exact ⟨past, List.suffix_append newer _⟩

theorem mem_of_suffix (hs : e :: past <:+ h) : e ∈ h := hs.subset (by simp)

theorem past_suffix (hs : e :: past <:+ h) : past <:+ h := (List.suffix_cons e past).trans hs

/-- Another event came before, or it has this one in its past. -/
theorem before_or_after {d : ε} (hs : e :: past <:+ h) (hd : d ∈ h) :
    d ∈ past ∨ d = e ∨ ∃ past', d :: past' <:+ h ∧ e ∈ past' := by
  obtain ⟨newer, rfl⟩ := hs
  rcases List.mem_append.mp hd with hd | hd
  · obtain ⟨l, r, rfl⟩ := List.append_of_mem hd
    exact .inr (.inr ⟨r ++ e :: past, ⟨l, by simp⟩, by simp⟩)
  · rcases List.mem_cons.mp hd with rfl | hd
    · exact .inr (.inl rfl)
    · exact .inl hd

/-- Of two points of a history, one came first. -/
theorem suffix_cases {d : ε} {past' : List ε} (hs : e :: past <:+ h) (hs' : d :: past' <:+ h) :
    e :: past <:+ past' ∨ d :: past' <:+ past ∨ e = d ∧ past = past' := by
  rcases Nat.lt_trichotomy past.length past'.length with hlt | heq | hgt
  · exact .inl (List.suffix_of_suffix_length_le hs (past_suffix hs') hlt)
  · have := (List.suffix_of_suffix_length_le hs hs' (by simp [heq])).eq_of_length (by simp [heq])
    exact .inr (.inr (List.cons_eq_cons.mp this))
  · exact .inr (.inl (List.suffix_of_suffix_length_le hs' (past_suffix hs) hgt))

/-- Of the events of a kind, one is the first. -/
theorem exists_first {K : ε → Prop} : ∀ {h : List ε}, (∃ e ∈ h, K e) →
    ∃ e past, e :: past <:+ h ∧ K e ∧ ∀ x ∈ past, ¬ K x
  | [], hex => by simp at hex
  | a :: as, hex => by
    by_cases hlater : ∃ x ∈ as, K x
    · obtain ⟨f, past, hs, hf⟩ := exists_first hlater
      exact ⟨f, past, hs.trans (List.suffix_cons a as), hf⟩
    · obtain ⟨e, he, hk⟩ := hex
      rcases List.mem_cons.mp he with rfl | he
      · exact ⟨e, as, List.suffix_refl _, hk, fun x hx hkx => hlater ⟨x, hx, hkx⟩⟩
      · exact absurd ⟨e, he, hk⟩ hlater

/-! ## What a history says, oldest first -/

section Gather

variable {α : Type} {f : ε → List α} {a : α}

/-- What the events of a history say, in the order in which they happened. -/
def gather (f : ε → List α) : List ε → List α
  | [] => []
  | e :: past => gather f past ++ f e

theorem mem_gather : a ∈ gather f h ↔ ∃ e ∈ h, a ∈ f e := by
  induction h with
  | nil => simp [gather]
  | cons e past ih => simp [gather, ih, or_comm]

/-- What was said is not taken back. -/
theorem gather_mono (hs : past <:+ h) : gather f past <+: gather f h := by
  induction h with
  | nil => rw [List.suffix_nil.mp hs]
  | cons e es ih =>
    rcases List.suffix_cons_iff.mp hs with rfl | hs
    · exact List.prefix_refl _
    · exact (ih hs).trans (List.prefix_append _ _)

end Gather

end History
