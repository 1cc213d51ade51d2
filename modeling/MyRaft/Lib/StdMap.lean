/-
`std::map` as an association list with distinct keys. `get` and `set` are the
two readings of `operator[]`: a missing key reads as the default value of the
mapped type, and an assignment overwrites in place or adds the key.

The list keeps the order of insertion where `std::map` keeps the order of the
keys; nothing here is stated of the order.
-/
import Mathlib.Data.List.Basic
import Mathlib.Data.List.Nodup

namespace StdLib

/-- A finite map; no key is bound twice. -/
structure StdMap (κ ν : Type) where
  entries : List (κ × ν)
  nodup : (entries.map Prod.fst).Nodup

namespace StdMap

variable {κ ν : Type}

def empty : StdMap κ ν := ⟨[], List.nodup_nil⟩

def keys (m : StdMap κ ν) : List κ := m.entries.map Prod.fst

def values (m : StdMap κ ν) : List ν := m.entries.map Prod.snd

/-- Every bound value replaced, as a range-`for` over the map does. -/
def mapValues (m : StdMap κ ν) (f : ν → ν) : StdMap κ ν :=
  ⟨m.entries.map fun e => (e.1, f e.2), by
    have h : (m.entries.map fun e => (e.1, f e.2)).map Prod.fst = m.entries.map Prod.fst := by simp
    rw [h]; exact m.nodup⟩

variable [DecidableEq κ]

/-- `find`. -/
def find? (m : StdMap κ ν) (k : κ) : Option ν := (m.entries.find? fun e => e.1 = k).map Prod.snd

/-- `operator[]` on the right of an assignment. -/
def get [Inhabited ν] (m : StdMap κ ν) (k : κ) : ν := (m.find? k).getD default

/-- The entries with `k` bound to `v`. -/
def put (k : κ) (v : ν) : List (κ × ν) → List (κ × ν)
  | [] => [(k, v)]
  | e :: es => if e.1 = k then (k, v) :: es else e :: put k v es

theorem mem_keys_put {k : κ} {v : ν} {x : κ} :
    ∀ es : List (κ × ν), x ∈ (put k v es).map Prod.fst → x = k ∨ x ∈ es.map Prod.fst
  | [], h => by simpa [put] using h
  | e :: es, h => by
    by_cases he : e.1 = k
    · simp only [put, he, if_true, List.map_cons, List.mem_cons] at h ⊢
      exact h.imp id .inr
    · simp only [put, he, if_false, List.map_cons, List.mem_cons] at h ⊢
      rcases h with h | h
      · exact .inr (.inl h)
      · exact (mem_keys_put es h).imp id .inr

theorem nodup_put {k : κ} {v : ν} :
    ∀ es : List (κ × ν), (es.map Prod.fst).Nodup → ((put k v es).map Prod.fst).Nodup
  | [], _ => by simp [put]
  | e :: es, h => by
    simp only [List.map_cons, List.nodup_cons] at h
    by_cases he : e.1 = k
    · subst he
      simpa only [put, if_true, List.map_cons, List.nodup_cons] using h
    · simp only [put, he, if_false, List.map_cons, List.nodup_cons]
      refine ⟨fun hm => ?_, nodup_put es h.2⟩
      rcases mem_keys_put es hm with hk | hk
      · exact he hk
      · exact h.1 hk

/-- `operator[]` on the left of an assignment. -/
def set (m : StdMap κ ν) (k : κ) (v : ν) : StdMap κ ν := ⟨put k v m.entries, nodup_put _ m.nodup⟩

/-- A binding for each key of a list, in a range-`for` over the keys. -/
def setAll (m : StdMap κ ν) (ks : List κ) (v : ν) : StdMap κ ν := ks.foldl (fun m k => m.set k v) m

/-- `operator[]` by itself: a missing key is bound to the default value. -/
def index [Inhabited ν] (m : StdMap κ ν) (k : κ) : ν × StdMap κ ν :=
  match m.find? k with
  | some v => (v, m)
  | none => (default, m.set k default)

/-- `erase`. -/
def erase (m : StdMap κ ν) (k : κ) : StdMap κ ν :=
  ⟨m.entries.filter fun e => e.1 ≠ k, m.nodup.sublist (List.filter_sublist.map _)⟩

/-! ## Reads after writes -/

theorem find?_set (m : StdMap κ ν) (k x : κ) (v : ν) :
    (m.set k v).find? x = if x = k then some v else m.find? x := by
  unfold set find?
  dsimp only
  induction m.entries with
  | nil => by_cases h : x = k <;> simp [put, h, eq_comm]
  | cons e es ih =>
    by_cases he : e.1 = k
    · subst he
      by_cases hx : x = e.1
      · subst hx; simp [put]
      · simp [put, hx, Ne.symm hx]
    · by_cases hx : e.1 = x
      · have hxk : x ≠ k := fun h => he (hx.trans h)
        simp [put, hx, hxk]
      · simp only [put, he, if_false, List.find?_cons, hx, decide_false]
        exact ih

/-- After a sequence of assignments a key has the last value assigned to it. -/
theorem find?_foldl_set (k : κ) : ∀ (l : List (κ × ν)) (m : StdMap κ ν),
    (l.foldl (fun m e => m.set e.1 e.2) m).find? k = ((l.reverse.find? fun e => e.1 = k).map Prod.snd).or
    (m.find? k)
  | [], _ => rfl
  | e :: l, m => by
    rw [List.foldl_cons, find?_foldl_set k l, find?_set, List.reverse_cons, List.find?_append]
    by_cases he : k = e.1
    · cases (l.reverse.find? fun e => e.1 = k) <;> simp [he]
    · cases (l.reverse.find? fun e => e.1 = k) <;> simp [he, Ne.symm he]

@[simp] theorem find?_empty (k : κ) : (empty : StdMap κ ν).find? k = none := rfl

@[simp] theorem find?_mapValues (m : StdMap κ ν) (f : ν → ν) (x : κ) :
    (m.mapValues f).find? x = (m.find? x).map f := by
  unfold find? mapValues
  dsimp only
  rw [List.find?_map, Option.map_map, Option.map_map]
  rfl

theorem find?_erase (m : StdMap κ ν) (k x : κ) : (m.erase k).find? x = if x = k then none else m.find? x := by
  unfold erase find?
  dsimp only
  induction m.entries with
  | nil => simp
  | cons e es ih =>
    by_cases he : e.1 = k
    · by_cases hx : x = k
      · simp [hx]
      · have hne : ¬ k = x := fun h => hx h.symm
        simpa [he, hx, hne] using ih
    · by_cases hx : e.1 = x
      · have hxk : ¬ x = k := fun h => he (hx.trans h)
        simp [hx, hxk]
      · simpa [he, hx] using ih

section Reads

variable [Inhabited ν]

theorem index_fst (m : StdMap κ ν) (k : κ) : (m.index k).1 = m.get k := by
  unfold index get
  cases m.find? k <;> rfl

/-- Reading a key that is bound changes nothing. -/
theorem index_snd {m : StdMap κ ν} {k : κ} (h : (m.find? k).isSome) : (m.index k).2 = m := by
  obtain ⟨v, hv⟩ := Option.isSome_iff_exists.mp h
  simp [index, hv]

/-- Reading binds no key that was bound to another value. -/
theorem find?_index {m : StdMap κ ν} {x : κ} {v : ν} (h : m.find? x = some v) (k : κ) :
    (m.index k).2.find? x = some v := by
  unfold index
  cases hk : m.find? k with
  | some w => exact h
  | none =>
    have hne : x ≠ k := by
      intro he
      rw [he, hk] at h
      cases h
    rw [find?_set, if_neg hne, h]

theorem get_set (m : StdMap κ ν) (k x : κ) (v : ν) :
    (m.set k v).get x = if x = k then v else m.get x := by
  unfold get
  rw [find?_set]
  split <;> rfl

@[simp] theorem get_set_self (m : StdMap κ ν) (k : κ) (v : ν) : (m.set k v).get k = v := by
  simp [get_set]

/-- Reading changes no value. -/
theorem get_index (m : StdMap κ ν) (k x : κ) : (m.index k).2.get x = m.get x := by
  unfold index
  cases hk : m.find? k with
  | some w => rfl
  | none =>
    rw [get_set]
    split
    · rename_i hx
      rw [hx, get, hk]
      rfl
    · rfl

theorem get_set_ne (m : StdMap κ ν) {k x : κ} (v : ν) (h : x ≠ k) : (m.set k v).get x = m.get x := by
  simp [get_set, h]

theorem find?_eq_get {m : StdMap κ ν} {k : κ} (h : m.find? k ≠ none) : m.find? k = some (m.get k) := by
  obtain ⟨v, hv⟩ := Option.ne_none_iff_exists'.mp h
  rw [get, hv]
  rfl

theorem get_eq_default {m : StdMap κ ν} {k : κ} (h : m.find? k = none) : m.get k = default := by
  rw [get, h]
  rfl

omit [Inhabited ν] in
theorem find?_setAll (ks : List κ) (v : ν) (x : κ) :
    ∀ m : StdMap κ ν, (m.setAll ks v).find? x = if x ∈ ks then some v else m.find? x := by
  induction ks with
  | nil => intro m; simp [setAll]
  | cons k ks ih =>
    intro m
    have h := ih (m.set k v)
    simp only [setAll, List.foldl_cons] at h ⊢
    rw [h, find?_set]
    by_cases hx : x ∈ ks <;> by_cases hk : x = k <;> simp [hx, hk]

theorem get_setAll (ks : List κ) (v : ν) (x : κ) (m : StdMap κ ν) :
    (m.setAll ks v).get x = if x ∈ ks then v else m.get x := by
  unfold get
  rw [find?_setAll]
  split <;> rfl

theorem get_of_entries {m : StdMap κ ν} {e : κ × ν} (h : e ∈ m.entries) : m.get e.1 = e.2 := by
  have hn := m.nodup
  unfold get find?
  generalize m.entries = es at h hn
  induction es with
  | nil => simp at h
  | cons a es ih =>
    simp only [List.map_cons, List.nodup_cons, List.mem_map, not_exists, not_and] at hn
    rcases List.mem_cons.mp h with rfl | h
    · simp
    · have hne : a.1 ≠ e.1 := fun he => hn.1 e h he.symm
      simpa [List.find?_cons, hne] using ih h hn.2

theorem values_eq (m : StdMap κ ν) : m.values = m.keys.map m.get := by
  unfold values keys
  rw [List.map_map]
  exact List.map_congr_left fun e he => (get_of_entries he).symm

end Reads

/-! ## The key set -/

theorem put_keys_of_mem {k : κ} (v : ν) :
    ∀ es : List (κ × ν), k ∈ es.map Prod.fst → (put k v es).map Prod.fst = es.map Prod.fst
  | [], h => by simp at h
  | e :: es, h => by
    by_cases he : e.1 = k
    · simp [put, he]
    · have hk : k ∈ es.map Prod.fst := by
        rcases List.mem_cons.mp h with h | h
        · exact absurd h.symm he
        · exact h
      simp [put, he, put_keys_of_mem v es hk]

theorem put_keys_of_not_mem {k : κ} (v : ν) :
    ∀ es : List (κ × ν), k ∉ es.map Prod.fst → (put k v es).map Prod.fst = es.map Prod.fst ++ [k]
  | [], _ => by simp [put]
  | e :: es, h => by
    simp only [List.map_cons, List.mem_cons, not_or] at h
    simp [put, Ne.symm h.1, put_keys_of_not_mem v es h.2]

theorem keys_set_of_mem {m : StdMap κ ν} {k : κ} (v : ν) (h : k ∈ m.keys) : (m.set k v).keys = m.keys :=
  put_keys_of_mem v m.entries h

theorem keys_set_of_not_mem {m : StdMap κ ν} {k : κ} (v : ν) (h : k ∉ m.keys) :
    (m.set k v).keys = m.keys ++ [k] :=
  put_keys_of_not_mem v m.entries h

theorem keys_setAll_of_mem {ks : List κ} (v : ν) :
    ∀ {m : StdMap κ ν}, (∀ k ∈ ks, k ∈ m.keys) → (m.setAll ks v).keys = m.keys := by
  induction ks with
  | nil => intro m _; rfl
  | cons k ks ih =>
    intro m h
    have hk := keys_set_of_mem v (h k (by simp))
    have := ih (m := m.set k v) fun x hx => hk ▸ h x (by simp [hx])
    simp only [setAll, List.foldl_cons] at this ⊢
    rw [this, hk]

/-- Distinct keys added one by one to an empty map stay in their order. -/
theorem keys_setAll_empty {ks : List κ} (v : ν) (h : ks.Nodup) :
    ((empty : StdMap κ ν).setAll ks v).keys = ks := by
  have key : ∀ (ks : List κ) (m : StdMap κ ν), (m.keys ++ ks).Nodup → (m.setAll ks v).keys = m.keys ++ ks := by
    intro ks
    induction ks with
    | nil => intro m _; simp [setAll]
    | cons k ks ih =>
      intro m hn
      have hk : k ∉ m.keys := by
        intro hm
        rw [List.nodup_append] at hn
        exact hn.2.2 k hm k (by simp) rfl
      have hs := keys_set_of_not_mem v hk
      have := ih (m.set k v) (by rw [hs]; simpa using hn)
      simp only [setAll, List.foldl_cons] at this ⊢
      rw [this, hs]
      simp
  simpa [keys, empty] using key ks empty (by simpa [keys, empty] using h)

end StdMap

end StdLib
