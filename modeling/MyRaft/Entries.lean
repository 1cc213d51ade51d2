/-
The log in memory (`Entries` of `entry/entry.h`): the vector `entries_` and the
count `size_` of the entries that are current. An insert in the middle shrinks
`size_` and leaves the elements behind it in the vector; `log` is what counts.

The files the entries are also written to are in `MyRaft.LogStore`.
-/
import MyRaft.Rpc
import Mathlib.Data.List.Basic

namespace MyRaft

/-- `Entries`; the current entries are in the vector. -/
structure Entries where
  entries : List RpcEntry
  size_ : Nat
  size_le : size_ ≤ entries.length

namespace Entries

/-- The constructor, with no files to load. -/
def fresh : Entries := ⟨[], 0, Nat.le_refl 0⟩

/-- What the constructor makes of the entries it reads back. -/
def reloaded (entries : List RpcEntry) : Entries := ⟨entries, entries.length, Nat.le_refl _⟩

def size (es : Entries) : Int := es.size_

/-- `Entries::get`. The check lets a negative index through to `operator[]`. -/
def get (es : Entries) (index : Int) : Except Exn RpcEntry :=
  if hlt : es.size ≤ index then .error (.entriesGet es.size index)
  else if hpos : 0 ≤ index then
    .ok (es.entries.get ⟨index.toNat, by have := es.size_le; unfold size at hlt; omega⟩)
  else .error .negativeIndex

/-- `Entries::insert`. Its parameter is unsigned, so a negative argument is
larger than every size. Entries behind the inserted one stop being current. -/
def insert (es : Entries) (index : Int) (entry : RpcEntry) : Except Exn Entries :=
  if h : index < 0 ∨ es.size < index then .error (.entriesInsert es.size index)
  else if hpush : index = es.size ∧ es.entries.length = index.toNat then
    .ok ⟨es.entries ++ [entry], index.toNat + 1, by simp; omega⟩
  else
    .ok ⟨es.entries.set index.toNat entry, index.toNat + 1, by
      have := es.size_le
      unfold size at h hpush
      simp only [List.length_set]
      omega⟩

/-- The entries `get` reaches, in order. -/
def log (es : Entries) : List RpcEntry := es.entries.take es.size_

@[simp] theorem fresh_log : fresh.log = [] := rfl

@[simp] theorem reloaded_log (entries : List RpcEntry) : (reloaded entries).log = entries := List.take_length

theorem length_log (es : Entries) : es.log.length = es.size_ := by
  simp [log, es.size_le]

theorem size_eq (es : Entries) : es.size = es.log.length := by
  rw [length_log]; rfl

theorem get_ok {es : Entries} {index : Int} {entry : RpcEntry} (h : es.get index = .ok entry) :
    ∃ i : Nat, index = i ∧ es.log[i]? = some entry := by
  unfold get at h
  split at h
  · cases h
  · rename_i hlt
    split at h
    · rename_i hpos
      cases h
      refine ⟨index.toNat, by omega, ?_⟩
      unfold size at hlt
      rw [log, List.getElem?_take_of_lt (by omega)]
      simp
    · cases h

theorem get_eq_ok {es : Entries} {i : Nat} {entry : RpcEntry} (h : es.log[i]? = some entry) :
    es.get (i : Int) = .ok entry := by
  obtain ⟨hi, he⟩ := List.getElem?_eq_some_iff.mp h
  rw [length_log] at hi
  unfold get size
  rw [dif_neg (by omega), dif_pos (by omega)]
  rw [← he]
  simp [log]

/-- An insert truncates the log at its index and puts the entry there. -/
theorem insert_ok {es es' : Entries} {index : Int} {entry : RpcEntry} (h : es.insert index entry = .ok es') :
    ∃ i : Nat, index = i ∧ i ≤ es.log.length ∧ es'.log = es.log.take i ++ [entry] := by
  have hle := es.size_le
  have htake : index.toNat ≤ es.size_ → es.log.take index.toNat = es.entries.take index.toNat := fun hi => by
    rw [log, List.take_take, Nat.min_eq_left hi]
  rw [length_log]
  unfold insert at h
  split at h
  · cases h
  · rename_i hr
    have hr' : ¬ (index < 0 ∨ (es.size_ : Int) < index) := hr
    refine ⟨index.toNat, by omega, by omega, ?_⟩
    rw [htake (by omega)]
    split at h
    · rename_i hp
      cases h
      have hlen : (es.entries ++ [entry]).length = index.toNat + 1 := by simp [hp.2]
      have hall : es.entries.take index.toNat = es.entries := List.take_of_length_le (Nat.le_of_eq hp.2)
      rw [hall]
      exact List.take_of_length_le (Nat.le_of_eq hlen)
    · rename_i hp
      cases h
      have hp' : ¬ (index = (es.size_ : Int) ∧ es.entries.length = index.toNat) := hp
      show (es.entries.set index.toNat entry).take (index.toNat + 1) = _
      rw [List.take_add_one, List.take_set_of_le (Nat.le_refl _), List.getElem?_set_self (by omega)]
      rfl

theorem insert_eq_ok {es : Entries} {i : Nat} (entry : RpcEntry) (h : i ≤ es.log.length) :
    ∃ es', es.insert (i : Int) entry = .ok es' ∧ es'.log = es.log.take i ++ [entry] := by
  have hex : ∃ es', es.insert (i : Int) entry = .ok es' := by
    unfold insert
    rw [length_log] at h
    rw [dif_neg (by unfold size; omega)]
    split
    · exact ⟨_, rfl⟩
    · exact ⟨_, rfl⟩
  obtain ⟨es', he⟩ := hex
  obtain ⟨j, hj, -, hlog⟩ := insert_ok he
  exact ⟨es', he, by rw [hlog, Int.ofNat_inj.mp hj]⟩

end Entries

end MyRaft
