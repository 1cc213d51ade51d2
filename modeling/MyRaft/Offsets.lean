/-
The offsets of the log at their widths. `offset_` is a vector of `unsigned int`,
`write_from_offset` and `read_from_offset` take an `int`, and `ftruncate` takes
that `int` with the size of the entry added to it. The log is never compacted,
so the offsets grow with it.

Nothing checks them: an offset from 2^31 on is passed as a negative number, at
which `lseek` fails, and a sum from 2^32 on is stored modulo 2^32.
-/
import MyRaft.LogStore

namespace MyRaft

namespace LogStore

variable (codec : Codec)

/-- An operation on the store of a list passes on, and stores, the true offsets and lengths. -/
def Exact (l : List RpcEntry) (store : LogStore) : Op → Prop
  | .insert index entry => ∀ ops store', store.insert codec index entry = .ok (ops, store') →
      (∀ o, store.getOffset index = .ok o → int o = Layout.bound codec.serializeToString l index) ∧
      (∀ length : Int, .ftruncate length ∈ ops →
        length = (Layout.bound codec.serializeToString l index + (codec.serializeToString entry).length : Nat)) ∧
      store'.offset.map UInt32.toNat = Layout.bounds codec.serializeToString (Truncating.insert l index entry)
  | .restart => ∀ offset, loadOffset codec store.files = .ok offset →
      offset.map UInt32.toNat = Layout.bounds codec.serializeToString l ∧
      ∀ i entryHead entryTail entry, offset[i]? = some entryHead → offset[i + 1]? = some entryTail →
      l[i]? = some entry →
        int entryHead = Layout.bound codec.serializeToString l i ∧
        readLength entryHead entryTail = (codec.serializeToString entry).length

/-- An entry is written at an offset that is an `int` and ends at one that is an `unsigned int`,
and the entries that are read back have lengths that are `int`s. -/
def Fits (l : List RpcEntry) : Op → Prop
  | .insert index entry => index ≤ l.length →
      Layout.bound codec.serializeToString l index < 2 ^ 31 ∧
      Layout.bound codec.serializeToString l index + (codec.serializeToString entry).length < 2 ^ 32
  | .restart => ∀ entry ∈ l, (codec.serializeToString entry).length < 2 ^ 31

/-- Each operation of a sequence meets a condition on the list and the store before it. -/
def Throughout (P : List RpcEntry → LogStore → Op → Prop) (ops : List Op) : Prop :=
  ∀ past op, past ++ [op] <+: ops → ∀ store, run codec past = .ok store → P (stored past) store op

/-- The store keeps the true offsets of a list, in memory and on disk, and no entry starts out of reach. -/
structure Tracks (store : LogStore) (l : List RpcEntry) : Prop where
  log : store.entries.log.length = l.length
  offset : store.offset.map UInt32.toNat = Layout.bounds codec.serializeToString l
  archive : store.files.offset = some (codec.oarchive store.offset) ∨ store.files.offset = none ∧ l = []
  starts : ∀ i < l.length, Layout.bound codec.serializeToString l i < 2 ^ 31

variable {codec} {store store' : LogStore} {l : List RpcEntry} {op : Op} {index : Nat} {entry : RpcEntry}

theorem throughout_concat {P : List RpcEntry → LogStore → Op → Prop} {past : List Op} :
    Throughout codec P (past ++ [op]) ↔
      Throughout codec P past ∧ ∀ store, run codec past = .ok store → P (stored past) store op := by
  constructor
  · intro h
    exact ⟨fun p o hp => h p o (hp.trans (List.prefix_append _ _)), h past op (List.prefix_refl _)⟩
  · rintro ⟨hpast, hop⟩ p o hp
    rcases List.prefix_concat_iff.mp hp with heq | hp
    · obtain ⟨rfl, rfl⟩ := List.append_inj' heq rfl |>.imp id List.singleton_inj.mp
      exact hop
    · exact hpast p o hp

/-! ## One operation -/

theorem insert_past_end (hlog : store.entries.log.length = l.length) (hindex : l.length < index) :
    store.insert codec index entry = .error (.entries (.entriesInsert store.entries.size index)) := by
  have hsize : store.entries.size < index := by
    rw [Entries.size_eq, hlog]
    omega
  simp only [LogStore.insert, if_pos hsize]
  rfl

theorem mem_insert_ops {offset length : Int} {data archive : Bytes} {position : Nat} :
    .ftruncate length ∈ (writeFromOffset offset data position).1 ++ writeOffsetToFile archive ↔
      length = offset + data.length := by
  simp [writeFromOffset, writeOffsetToFile]

/-- **An insert is exact where it fits.** -/
theorem Tracks.insert_exact_iff (h : Tracks codec store l) :
    Exact codec l store (.insert index entry) ↔ Fits codec l (.insert index entry) := by
  rcases Nat.lt_or_ge l.length index with hlt | hle
  · simp [Exact, Fits, insert_past_end h.log hlt, Nat.not_le.mpr hlt]
  · obtain ⟨o, offset, entries, ho, hbound, rfl, -, -, hinsert⟩ := insert_within h.offset h.log hle entry
    have hget : store.getOffset index = .ok o := by rw [getOffset, ho]
    have hoffset := @offset_insert_iff codec l store index entry h.offset hle
    rw [← hbound] at hoffset
    constructor
    · intro hexact _
      obtain ⟨hstart, -, hend⟩ := hexact _ _ hinsert
      rw [← hbound] at hstart ⊢
      exact ⟨int_eq_iff.mp (hstart o hget), hoffset.mp hend⟩
    · intro hfits ops store' hinsert'
      obtain ⟨hstart, hend⟩ := hfits hle
      rw [← hbound] at hstart hend ⊢
      obtain ⟨rfl, rfl⟩ := Prod.mk.inj (Except.ok.inj (hinsert.symm.trans hinsert'))
      refine ⟨fun o' ho' => ?_, fun length hlength => ?_, hoffset.mpr hend⟩
      · obtain rfl := Except.ok.inj (hget.symm.trans ho')
        exact int_eq hstart
      · rw [mem_insert_ops.mp hlength, int_eq hstart]
        rfl

/-- **A restart is exact where it fits.** -/
theorem Tracks.restart_exact_iff (h : Tracks codec store l)
    (harchive : codec.iarchive (codec.oarchive store.offset) = some store.offset) :
    Exact codec l store .restart ↔ Fits codec l .restart := by
  have hload := loadOffset_eq h.offset h.archive harchive
  -- between two true offsets the length is right where it is an `int`
  have hlength : ∀ {entryHead entryTail : UInt32} {entry : RpcEntry},
      entryTail.toNat = entryHead.toNat + (codec.serializeToString entry).length →
      (readLength entryHead entryTail = (codec.serializeToString entry).length ↔
        (codec.serializeToString entry).length < 2 ^ 31) := fun {entryHead entryTail entry} htail => by
    have hiff := @readLength_eq_iff entryHead entryTail (by omega)
    rwa [htail, Nat.add_sub_cancel_left] at hiff
  constructor
  · intro hexact entry hentry
    obtain ⟨i, hi⟩ := List.mem_iff_getElem?.mp hentry
    obtain ⟨entryHead, entryTail, hhead, htail, -, hend⟩ := offset_between h.offset hi
    exact (hlength hend).mp ((hexact _ hload).2 i entryHead entryTail entry hhead htail hi).2
  · intro hfits offset hoffset
    obtain rfl := Except.ok.inj (hload.symm.trans hoffset)
    refine ⟨h.offset, fun i entryHead entryTail entry hhead htail hi => ?_⟩
    obtain ⟨o, o', ho, ho', hstart, hend⟩ := offset_between h.offset hi
    obtain rfl := Option.some.inj (hhead.symm.trans ho)
    obtain rfl := Option.some.inj (htail.symm.trans ho')
    have hlt := h.starts i (List.getElem?_eq_some_iff.mp hi).1
    exact ⟨by rw [int_eq (by omega), hstart], (hlength hend).mpr (hfits entry (List.mem_of_getElem? hi))⟩

theorem Tracks.exact_iff (h : Tracks codec store l)
    (harchive : codec.iarchive (codec.oarchive store.offset) = some store.offset) :
    Exact codec l store op ↔ Fits codec l op := by
  cases op with
  | insert index entry => exact h.insert_exact_iff
  | restart => exact h.restart_exact_iff harchive

/-! ## Sequences of operations -/

theorem start_tracks (hstart : load codec ⟨none, none⟩ = .ok store) : Tracks codec store [] := by
  obtain rfl : ⟨.reloaded [], [0], 0, ⟨some [], none⟩⟩ = store := Except.ok.inj hstart
  exact ⟨rfl, rfl, .inr ⟨rfl, rfl⟩, nofun⟩

/-- An insert that fits keeps the offsets true. -/
theorem Tracks.insert (h : Tracks codec store l) (hindex : index ≤ l.length)
    (hfits : Fits codec l (.insert index entry)) :
    ∃ store', step codec store (.insert index entry) = .ok store' ∧
      Tracks codec store' (Truncating.insert l index entry) := by
  obtain ⟨hstart, hend⟩ := hfits hindex
  obtain ⟨o, offset, entries, ho, hbound, rfl, -, hlog, hinsert⟩ := insert_within h.offset h.log hindex entry
  refine ⟨_, by rw [step, hinsert]; rfl, ?_, ?_, .inl ?_, fun i hi => ?_⟩
  · rw [hlog, Truncating.length_insert hindex, Truncating.length_insert (by rw [h.log]; exact hindex)]
  · show (Truncating.insert _ _ _).map UInt32.toNat = _
    rw [hbound]
    exact (offset_insert_iff h.offset hindex).mpr hend
  · show (List.foldl Files.apply _ (_ ++ _)).offset = _
    rw [List.foldl_append]
    rfl
  · rw [Truncating.length_insert hindex] at hi
    rw [Layout.bound_insert _ hindex (by omega)]
    exact Nat.lt_of_le_of_lt (Layout.bound_mono _ l (by omega)) hstart

/-- The loop of the constructor reads an entry between any two offsets. -/
theorem length_reload {file : Bytes} :
    ∀ {offset : List UInt32} {position position' : Nat} {entries : List RpcEntry},
    reload codec file offset position = .ok (position', entries) → entries.length = offset.length - 1
  | [], _, _, _, h | [_], _, _, _, h => by
    cases h
    rfl
  | entryHead :: entryTail :: offset, position, position', entries, h => by
    rw [reload] at h
    obtain ⟨⟨p, data⟩, -, h⟩ := Except.bind_eq_ok.mp h
    obtain ⟨⟨p', rest⟩, hrest, h⟩ := Except.bind_eq_ok.mp h
    obtain ⟨-, rfl⟩ := Prod.mk.inj (Except.pure_eq_ok.mp h)
    have hlen := length_reload hrest
    simp only [List.length_cons] at hlen ⊢
    omega

/-- A restart that returns keeps the offsets true. -/
theorem Tracks.restart (h : Tracks codec store l)
    (harchive : codec.iarchive (codec.oarchive store.offset) = some store.offset)
    (hstep : step codec store .restart = .ok store') : Tracks codec store' l := by
  simp only [step, load, loadOffset_eq h.offset h.archive harchive, bind, Except.bind] at hstep
  split at hstep
  · cases hstep
  · split at hstep
    · cases hstep
    · rename_i r hreload
      obtain ⟨position, entries⟩ := r
      obtain rfl := Except.ok.inj hstep
      refine ⟨?_, h.offset, h.archive, h.starts⟩
      rw [Entries.reloaded_log, length_reload hreload, length_offset h.offset, Nat.add_sub_cancel]

theorem run_tracks (harchive : ∀ offset, codec.iarchive (codec.oarchive offset) = some offset) {ops : List Op}
    (hfits : Throughout codec (fun l _ op => Fits codec l op) ops) (hrun : run codec ops = .ok store) :
    Tracks codec store (stored ops) := by
  induction ops using List.reverseRecOn generalizing store with
  | nil => exact start_tracks (by simpa [run] using hrun)
  | append_singleton past op ih =>
    obtain ⟨hpast, hop⟩ := throughout_concat.mp hfits
    rw [run_concat] at hrun
    obtain ⟨store₀, hrun₀, hstep⟩ := Except.bind_eq_ok.mp hrun
    have h := ih hpast hrun₀
    rw [stored_concat]
    cases op with
    | restart => exact h.restart (harchive _) hstep
    | insert index entry =>
      rcases Nat.lt_or_ge (stored past).length index with hlt | hle
      · rw [step, insert_past_end h.log hlt] at hstep
        cases hstep
      · obtain ⟨store₁, hstep', htracks⟩ := h.insert hle (hop store₀ hrun₀)
        obtain rfl := Except.ok.inj (hstep'.symm.trans hstep)
        exact htracks

/-- An operation fits where the data it leaves are below 2^31 bytes. -/
theorem fits_of_small (hsmall : (content codec (next l op)).length < 2 ^ 31) : Fits codec l op := by
  cases op with
  | insert index entry =>
    intro hindex
    have hcontent := congrArg List.length (Layout.flatMap_insert codec.serializeToString l index entry)
    rw [List.length_append, List.length_take_of_le (Layout.bound_le _ l index)] at hcontent
    simp only [content, next] at hsmall
    omega
  | restart =>
    intro entry hentry
    obtain ⟨i, hi⟩ := List.mem_iff_getElem?.mp hentry
    have hsucc := Layout.bound_succ codec.serializeToString hi
    have hle := Layout.bound_le codec.serializeToString l (i + 1)
    simp only [content, next] at hsmall
    omega

theorem throughout_fits {ops : List Op} (hsmall : ∀ past, past <+: ops →
    (content codec (stored past)).length < 2 ^ 31) :
    Throughout codec (fun l _ op => Fits codec l op) ops := by
  intro past op hp store _
  have h := hsmall _ hp
  rw [stored_concat] at h
  exact fits_of_small h

/-- **The offsets are true along a sequence of operations where each of them fits.** -/
theorem offsets_exact_iff (harchive : ∀ offset, codec.iarchive (codec.oarchive offset) = some offset)
    (ops : List Op) :
    Throughout codec (Exact codec) ops ↔ Throughout codec (fun l _ op => Fits codec l op) ops := by
  induction ops using List.reverseRecOn with
  | nil => exact ⟨fun _ _ _ hp => by simp at hp, fun _ _ _ hp => by simp at hp⟩
  | append_singleton past op ih =>
    rw [throughout_concat, throughout_concat, ih]
    exact and_congr_right fun hfits =>
      forall₂_congr fun store hrun => (run_tracks harchive hfits hrun).exact_iff (harchive _)

theorem overwriteAfterRestart_exact : Throughout smallCodec (Exact smallCodec) overwriteAfterRestart :=
  (offsets_exact_iff smallCodec_archive _).mpr
    (throughout_fits fun past hp => (overwriteAfterRestart_small past hp).1)

/-- An entry of eight bytes, appended `n` times. -/
def appends (n : Nat) : List Op := (List.range n).map fun index => .insert index ⟨1, 1, "xy"⟩

theorem appends_succ (n : Nat) : appends (n + 1) = appends n ++ [.insert n ⟨1, 1, "xy"⟩] := by
  simp [appends, List.range_succ]

theorem bound_replicate {n i : Nat} (hi : i ≤ n) :
    Layout.bound smallCodec.serializeToString (List.replicate n ⟨1, 1, "xy"⟩) i = 8 * i := by
  have hsize : (smallCodec.serializeToString ⟨1, 1, "xy"⟩).length = 8 := by decide
  rw [Layout.bound, List.take_replicate, Nat.min_eq_left hi]
  simp [List.length_flatMap, hsize, Nat.mul_comm]

theorem appends_tracks : ∀ n, 8 * n ≤ 2 ^ 31 → ∃ store, run smallCodec (appends n) = .ok store ∧
    stored (appends n) = List.replicate n ⟨1, 1, "xy"⟩ ∧ Tracks smallCodec store (stored (appends n)) := by
  intro n hn
  induction n with
  | zero => exact ⟨_, rfl, rfl, start_tracks rfl⟩
  | succ n ih =>
    obtain ⟨store, hrun, hstored, h⟩ := ih (by omega)
    have hlen : (stored (appends n)).length = n := by rw [hstored, List.length_replicate]
    have hfits : Fits smallCodec (stored (appends n)) (.insert n ⟨1, 1, "xy"⟩) := by
      intro _
      have hsize : (smallCodec.serializeToString ⟨1, 1, "xy"⟩).length = 8 := by decide
      rw [hstored, bound_replicate (Nat.le_refl n), hsize]
      omega
    obtain ⟨store', hstep, h'⟩ := h.insert (by rw [hlen]) hfits
    have hnext : next (stored (appends n)) (.insert n ⟨1, 1, "xy"⟩) = List.replicate (n + 1) ⟨1, 1, "xy"⟩ := by
      rw [next, hstored, Truncating.insert, List.take_of_length_le (by simp), List.replicate_succ']
    rw [appends_succ, run_concat, hrun, stored_concat]
    exact ⟨store', hstep, hnext, h'⟩

/-- The entry behind 2^31 bytes is written at a negative offset. -/
theorem appends_not_exact {n : Nat} (hn : 8 * n = 2 ^ 31) :
    ¬ Throughout smallCodec (Exact smallCodec) (appends (n + 1)) := by
  obtain ⟨store, hrun, hstored, h⟩ := appends_tracks n (Nat.le_of_eq hn)
  intro hexact
  rw [appends_succ] at hexact
  have hfits := h.insert_exact_iff.mp ((throughout_concat.mp hexact).2 store hrun)
  have hstart := (hfits (by simp [hstored])).1
  rw [hstored, bound_replicate (Nat.le_refl n)] at hstart
  omega

/-- 2^28 entries of eight bytes, and one more. -/
theorem longLog_not_exact : ¬ ∀ ops : List Op, Throughout smallCodec (Exact smallCodec) ops :=
  fun h => appends_not_exact (n := 2 ^ 28) (by decide) (h _)

end LogStore

end MyRaft
