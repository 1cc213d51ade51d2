/-
Logs copied from authors. Each entry names the author that made it; a log
follows its authors when, up to each of its entries, it is what the author of
that entry has written. Two logs that follow the same authors agree up to any
entry of one author that they hold at the same position.
-/
import Mathlib.Data.List.Basic
import Mathlib.Data.List.Infix
import Mathlib.Data.List.TakeDrop
import Mathlib.Order.Lattice

namespace Lineage

variable {α κ : Type} {key : α → κ} {author author' : κ → List α} {l l' : List α} {a a' : α} {i n : Nat}

def Follows (key : α → κ) (author : κ → List α) (l : List α) : Prop :=
  ∀ i a, l[i]? = some a → l.take (i + 1) <+: author (key a)

theorem take_add_one_of_getElem? (h : l[i]? = some a) : l.take (i + 1) = l.take i ++ [a] := by
  rw [List.take_add_one, h]
  rfl

theorem getElem?_extend (hp : l <+: l') (h : l[i]? = some a) : l'[i]? = some a := by
  obtain ⟨tail, rfl⟩ := hp
  rw [List.getElem?_append_left (List.getElem?_eq_some_iff.mp h).1, h]

/-- A list that has the elements of another at their places extends it. -/
theorem prefix_of_getElem? (h : ∀ (i : Nat) a, l[i]? = some a → l'[i]? = some a) : l <+: l' := by
  rw [List.prefix_iff_getElem?]
  exact fun i hi => h i l[i] (List.getElem?_eq_getElem hi)

/-- **Of lists that agree wherever two of them reach, one extends them all.** -/
theorem exists_longest {ls : List (List α)} (hne : ls ≠ [])
    (hagree : ∀ l ∈ ls, ∀ l' ∈ ls, ∀ (i : Nat) a b, l[i]? = some a → l'[i]? = some b → a = b) :
    ∃ m ∈ ls, ∀ l ∈ ls, l <+: m := by
  obtain ⟨m, hm, hlen⟩ : ∃ m ∈ ls, ∀ l ∈ ls, l.length ≤ m.length := by
    clear hagree
    induction ls with
    | nil => exact absurd rfl hne
    | cons l ls ih =>
      by_cases hls : ls = []
      · exact ⟨l, by simp, by simp [hls]⟩
      · obtain ⟨m, hm, hlen⟩ := ih hls
        rcases Nat.le_total l.length m.length with hle | hle
        · exact ⟨m, by simp [hm], by simpa [hle] using hlen⟩
        · exact ⟨l, by simp, by simpa using fun k hk => (hlen k hk).trans hle⟩
  refine ⟨m, hm, fun l hl => prefix_of_getElem? fun i a ha => ?_⟩
  obtain ⟨hi, -⟩ := List.getElem?_eq_some_iff.mp ha
  have hmi := List.getElem?_eq_getElem (Nat.lt_of_lt_of_le hi (hlen l hl))
  rw [hmi, hagree l hl m hm i a _ ha hmi]

theorem Follows.nil : Follows key author [] := fun i a h => by simp at h

theorem Follows.mono (h : Follows key author l) (hle : ∀ k, author k <+: author' k) : Follows key author' l :=
  fun i a ha => (h i a ha).trans (hle _)

theorem Follows.shorter (h : Follows key author l) (hp : l' <+: l) : Follows key author l' := by
  intro i a ha
  obtain ⟨hi, -⟩ := List.getElem?_eq_some_iff.mp ha
  obtain ⟨t, rfl⟩ := hp
  have := h i a (by rw [List.getElem?_append_left hi]; exact ha)
  rwa [List.take_append_of_le_length hi] at this

/-- An author's next entry extends a log that is all the author has written. -/
theorem Follows.concat (h : Follows key author l) (hp : l ++ [a] <+: author (key a)) :
    Follows key author (l ++ [a]) := by
  intro i b hb
  by_cases hi : i < l.length
  · rw [List.getElem?_append_left hi] at hb
    rw [List.take_append_of_le_length hi]
    exact h i b hb
  · obtain ⟨hlt, -⟩ := List.getElem?_eq_some_iff.mp hb
    have he : i = l.length := by
      simp only [List.length_append, List.length_singleton] at hlt
      omega
    subst he
    obtain rfl : a = b := by simpa using hb
    rw [List.take_of_length_le (by simp)]
    exact hp

/-- Prefixes of one list of the same length are the same. -/
theorem prefix_eq {m : List α} (h : l <+: m) (h' : l' <+: m) (hlen : l.length = l'.length) : l = l' :=
  (List.prefix_of_prefix_length_le h h' (Nat.le_of_eq hlen)).eq_of_length hlen

/-- **Logs that follow the same authors match.** -/
theorem Follows.agree (h : Follows key author l) (h' : Follows key author l') (ha : l[i]? = some a)
    (ha' : l'[i]? = some a') (hkey : key a = key a') : l.take (i + 1) = l'.take (i + 1) := by
  have hp := h i a ha
  have hp' := h' i a' ha'
  rw [← hkey] at hp'
  obtain ⟨hi, -⟩ := List.getElem?_eq_some_iff.mp ha
  obtain ⟨hi', -⟩ := List.getElem?_eq_some_iff.mp ha'
  refine prefix_eq hp hp' ?_
  rw [List.length_take_of_le hi, List.length_take_of_le hi']

/-- All of a log is what the author of its last entry has written. -/
theorem Follows.last (h : Follows key author l) (ha : l.getLast? = some a) : l <+: author (key a) := by
  rw [List.getLast?_eq_getElem?] at ha
  have hi := (List.getElem?_eq_some_iff.mp ha).1
  have := h _ _ ha
  rwa [List.take_of_length_le (by omega)] at this

section Order

variable [LinearOrder κ]

/-- The last entry of `l` is of a later author than the last of `l'`, or of the
same author and `l` is not shorter. -/
def UpToDate (key : α → κ) (l l' : List α) : Prop :=
  ∀ a' ∈ l'.getLast?, ∃ a ∈ l.getLast?, key a' < key a ∨ key a' = key a ∧ l'.length ≤ l.length

instance UpToDate.decidable (key : α → κ) (l l' : List α) : Decidable (UpToDate key l l') :=
  inferInstanceAs (Decidable (∀ a' ∈ l'.getLast?, ∃ a ∈ l.getLast?, key a' < key a ∨
  key a' = key a ∧ l'.length ≤ l.length))

/-- **An up-to-date log carries what the other log holds**, where the authors
after `t` carry it: `p` is of authors up to `t`, and the other log goes on to
`t` at least. -/
theorem Follows.carries {t : κ} {p : List α} (h : Follows key author l) (h' : Follows key author l')
    (hup : UpToDate key l l') (hp : p <+: l') (hlast : ∃ a ∈ l'.getLast?, t ≤ key a) (hle : ∀ a ∈ p, key a ≤ t)
    (hlater : ∀ a ∈ l.getLast?, t < key a → p <+: author (key a)) : p <+: l := by
  obtain ⟨a', ha', ht⟩ := hlast
  obtain ⟨a, ha, hlt | ⟨heq, hlen⟩⟩ := hup a' ha'
  · -- the author of the last entry has `p`, and wrote that entry behind it
    have hta := lt_of_le_of_lt ht hlt
    rcases Nat.le_total p.length l.length with hpl | hlp
    · exact List.prefix_of_prefix_length_le (hlater a ha hta) (h.last ha) hpl
    · have hlp := List.prefix_of_prefix_length_le (h.last ha) (hlater a ha hta) hlp
      exact absurd (hle a (hlp.subset (List.mem_of_getLast? ha))) (not_le.mpr hta)
  · -- both logs are of one author
    have hl' := h'.last ha'
    rw [heq] at hl'
    exact hp.trans (List.prefix_of_prefix_length_le hl' (h.last ha) hlen)

end Order

end Lineage
