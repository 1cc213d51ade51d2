/-
The log on disk: `Entries` (`entry/entry.cpp`) with its two files, and `data`
(`entry/data.cpp`), which writes one of them.

The data file is the serialized entries end to end; the offset file is the
archive of `offset_`, the bounds of the entries and the end. An insert writes
the entry at its offset, cuts the file behind it, and rewrites the offset file
after emptying it.

`SerializeToString` and `ParseFromString` of an entry and the binary archive of
a vector are the libraries', and a parameter here. Writes are complete.
-/
import MyRaft.Entries
import MyRaft.Lib.Bytes
import MyRaft.Lib.Except
import MyRaft.Lib.Layout
import Mathlib.Algebra.Group.Nat.Defs
import Mathlib.Data.List.Induction
import Mathlib.Data.List.Infix

namespace MyRaft

/-! ## Files -/

/-- The data file and the offset file, where they exist. -/
structure Files where
  data : Option Bytes
  offset : Option Bytes
deriving DecidableEq, Repr

/-- What the program does to its files. -/
inductive FileOp where
  /-- `write` of the data file, at the position of its descriptor. -/
  | write (position : Nat) (bytes : Bytes)
  | ftruncate (length : Int)
  /-- The constructor of `ofstream` empties the offset file. -/
  | emptyOffset
  | writeOffset (bytes : Bytes)
deriving Repr

def Files.apply (files : Files) : FileOp → Files
  | .write position bytes =>
    if bytes = [] then files else { files with data := files.data.map (·.overwrite position bytes) }
  | .ftruncate length => if length < 0 then files else { files with data := files.data.map (·.fit length.toNat) }
  | .emptyOffset => { files with offset := some [] }
  | .writeOffset bytes => { files with offset := some bytes }

/-- What the store throws. -/
inductive StoreExn where
  | entries (e : Exn)
  | getOffset (index size : Int)
  | modifyOffset (index size : Int)
  /-- `boost::archive::archive_exception`. -/
  | archive
  /-- `std::length_error`, for a size that is negative. -/
  | length
deriving DecidableEq, Repr

/-- `my_exception::what` of the exceptions that are thrown with `throw_line`. -/
def StoreExn.what : StoreExn → String
  | .entries e => e.what
  | .getOffset index size =>
    "trying to get the " ++ toString index ++ "th offset, there are " ++ toString size ++ " entries in entries"
  | .modifyOffset index size =>
    "trying to modify offset with index " ++ toString index ++ " but there are only " ++ toString
    size ++ " offsets"
  | .archive | .length => ""

/-- An `unsigned int` passed as an `int`. -/
def int (offset : UInt32) : Int := offset.toInt32.toInt

/-- `lseek` from the start of the file; it fails for a negative offset. -/
def lseek (offset : Int) (position : Nat) : Nat := if offset < 0 then position else offset.toNat

/-- `data::read_from_offset`: the position after it, and `len` bytes, zeros where the file ends. -/
def readFromOffset (file : Bytes) (offset len : Int) (position : Nat) : Except StoreExn (Nat × Bytes) :=
  let position := lseek offset position
  if len < 0 then .error .length
  else .ok (position + min len.toNat (file.length - position), Bytes.fit len.toNat (file.drop position))

/-- `entry_tail - entry_head`, of two `int`s. -/
def readLength (entryHead entryTail : UInt32) : Int := (entryTail.toInt32 - entryHead.toInt32).toInt

/-- `data::write_from_offset`, and the position after it. -/
def writeFromOffset (offset : Int) (data : Bytes) (position : Nat) : List FileOp × Nat :=
  let position := lseek offset position
  ([.write position data, .ftruncate (offset + data.length)], position + data.length)

/-- `Entries::write_offset_to_file`, for what the archive writes. -/
def writeOffsetToFile (archive : Bytes) : List FileOp := [.emptyOffset, .writeOffset archive]

/-! ## The store -/

/-- The serialization of entries and of `offset_`. -/
structure Codec where
  serializeToString : RpcEntry → Bytes
  parseFromString : Bytes → RpcEntry
  oarchive : List UInt32 → Bytes
  iarchive : Bytes → Option (List UInt32)

/-- `Entries`; `position` is the one of `file_fd_`. -/
structure LogStore where
  entries : Entries
  offset : List UInt32
  position : Nat
  files : Files

namespace LogStore

def getOffset (index : Nat) (store : LogStore) : Except StoreExn UInt32 :=
  match store.offset[index]? with
  | none => .error (.getOffset index store.entries.size)
  | some offset => .ok offset

def modifyOffsetVectorAfterInsert (index : Nat) (entryStr : Bytes) (store : LogStore) :
    Except StoreExn (List UInt32) :=
  let bound := UInt32.ofNat ((store.offset.getD index 0).toNat + entryStr.length)
  if index + 1 = store.offset.length then .ok (store.offset ++ [bound])
  else if index + 1 < store.offset.length then .ok ((store.offset.set (index + 1) bound).take (index + 2))
  else .error (.modifyOffset index store.entries.size)

variable (codec : Codec)

/-- `Entries::insert`: what it does to the files, in order, and the store when all of it is done. -/
def insert (index : Nat) (entry : RpcEntry) (store : LogStore) : Except StoreExn (List FileOp × LogStore) := do
  if store.entries.size < index then throw (.entries (.entriesInsert store.entries.size index))
  let offsetInsert ← store.getOffset index
  let entryString := codec.serializeToString entry
  let (dataOps, position) := writeFromOffset (int offsetInsert) entryString store.position
  let offset ← store.modifyOffsetVectorAfterInsert index entryString
  let ops := dataOps ++ writeOffsetToFile (codec.oarchive offset)
  let entries ← (store.entries.insert index entry).mapError StoreExn.entries
  return (ops, ⟨entries, offset, position, ops.foldl Files.apply store.files⟩)

/-- The loop of the constructor, over the offsets that are left. -/
def reload (file : Bytes) : List UInt32 → Nat → Except StoreExn (Nat × List RpcEntry)
  | entryHead :: entryTail :: offset, position => do
    let (position, data) ← readFromOffset file (int entryHead) (readLength entryHead entryTail) position
    let (position, entries) ← reload file (entryTail :: offset) position
    return (position, codec.parseFromString data :: entries)
  | _, position => return (position, [])

/-- The constructor's `offset_`. -/
def loadOffset (files : Files) : Except StoreExn (List UInt32) :=
  match files.offset with
  | none => .ok [0]
  | some archive =>
    match codec.iarchive archive with
    | none => .error .archive
    | some offset => .ok offset

/-- The constructor. `reserve` throws for the size of an empty `offset_`. -/
def load (files : Files) : Except StoreExn LogStore := do
  let data := files.data.getD []
  let offset ← loadOffset codec files
  if offset = [] then throw .length
  let (position, entries) ← reload codec data offset 0
  return ⟨.reloaded entries, offset, position, { files with data := some data }⟩

/-- A call of `insert`, or the end of the process and a new one. -/
inductive Op where
  | insert (index : Nat) (entry : RpcEntry)
  | restart
deriving Repr

def step (store : LogStore) : Op → Except StoreExn LogStore
  | .insert index entry => (·.2) <$> store.insert codec index entry
  | .restart => load codec store.files

/-- From no files. -/
def run (ops : List Op) : Except StoreExn LogStore := do
  ops.foldlM (step codec) (← load codec ⟨none, none⟩)

/-! ## The list it stores -/

/-- The abstract store: a list that is cut where it is written. -/
def next (l : List RpcEntry) : Op → List RpcEntry
  | .insert index entry => Truncating.insert l index entry
  | .restart => l

def stored (ops : List Op) : List RpcEntry := ops.foldl next []

/-- The bytes of all entries. -/
def content (l : List RpcEntry) : Bytes := l.flatMap codec.serializeToString

/-- The store holds a list: its memory, its offsets and its files agree on it. -/
structure Holds (store : LogStore) (l : List RpcEntry) : Prop where
  log : store.entries.log = l
  offset : store.offset.map UInt32.toNat = Layout.bounds codec.serializeToString l
  data : store.files.data = some (content codec l)
  archive : store.files.offset = some (codec.oarchive store.offset) ∨ store.files.offset = none ∧ l = []
  small : (content codec l).length < 2 ^ 31
  parsed : ∀ entry ∈ l, codec.parseFromString (codec.serializeToString entry) = entry

theorem int_eq {offset : UInt32} (h : offset.toNat < 2 ^ 31) : int offset = offset.toNat := by
  show offset.toBitVec.toInt = _
  rw [BitVec.toInt_eq_toNat_of_lt]
  · rfl
  · show 2 * offset.toNat < 2 ^ 32
    omega

theorem int_eq_iff {offset : UInt32} : int offset = offset.toNat ↔ offset.toNat < 2 ^ 31 := by
  refine ⟨fun h => ?_, int_eq⟩
  have hlt := Int32.toInt_lt offset.toInt32
  change offset.toInt32.toInt = _ at h
  omega

/-- A length is read right where it is an `int`, wherever the entry stands. -/
theorem readLength_eq_iff {head tail : UInt32} (hle : head.toNat ≤ tail.toNat) :
    readLength head tail = (tail.toNat - head.toNat : Nat) ↔ tail.toNat - head.toNat < 2 ^ 31 := by
  have hsub : (tail - head).toNat = tail.toNat - head.toNat :=
    UInt32.toNat_sub_of_le _ _ (UInt32.le_iff_toNat_le.mpr hle)
  rw [show readLength head tail = int (tail - head) from rfl, ← hsub, int_eq_iff]

section Offsets

variable {codec} {l : List RpcEntry} {offset : List UInt32} {i : Nat}

theorem length_offset (h : offset.map UInt32.toNat = Layout.bounds codec.serializeToString l) :
    offset.length = l.length + 1 := by
  rw [← List.length_map UInt32.toNat, h, Layout.length_bounds]

theorem getElem?_offset (h : offset.map UInt32.toNat = Layout.bounds codec.serializeToString l)
    (hi : i ≤ l.length) :
    ∃ o, offset[i]? = some o ∧ o.toNat = Layout.bound codec.serializeToString l i := by
  have hm := congrArg (·[i]?) h
  simp only [List.getElem?_map, Layout.getElem?_bounds _ hi, Option.map_eq_some_iff] at hm
  exact hm

/-- The offsets an entry lies between. -/
theorem offset_between (h : offset.map UInt32.toNat = Layout.bounds codec.serializeToString l) {entry : RpcEntry}
    (hi : l[i]? = some entry) : ∃ entryHead entryTail, offset[i]? = some entryHead ∧
    offset[i + 1]? = some entryTail ∧
      entryHead.toNat = Layout.bound codec.serializeToString l i ∧
      entryTail.toNat = entryHead.toNat + (codec.serializeToString entry).length := by
  have hlt : i < l.length := (List.getElem?_eq_some_iff.mp hi).1
  obtain ⟨entryHead, hhead, hbound⟩ := getElem?_offset h (Nat.le_of_lt hlt)
  obtain ⟨entryTail, htail, hbound'⟩ := getElem?_offset h hlt
  exact ⟨entryHead, entryTail, hhead, htail, hbound, by rw [hbound', hbound, ← Layout.bound_succ _ hi]⟩

end Offsets

/-! ## Restarts -/

theorem lseek_natCast (offset position : Nat) : lseek offset position = offset := by
  rw [lseek, if_neg (by omega), Int.toNat_natCast]

theorem readFromOffset_ok {file : Bytes} {offset len : Nat} (position : Nat) (h : offset + len ≤ file.length) :
    readFromOffset file offset len position = .ok (offset + len, (file.drop offset).take len) := by
  rw [readFromOffset, lseek_natCast]
  simp only [Int.toNat_natCast]
  rw [if_neg (by omega), Nat.min_eq_left (by omega), Bytes.fit_eq_take (by rw [List.length_drop]; omega)]

variable {codec} {l : List RpcEntry} {store : LogStore} {index : Nat} {entry : RpcEntry}

/-- The loop of the constructor reads the entries back, whatever stands behind them in the file. -/
theorem reload_ok (hsmall : (content codec l).length < 2 ^ 31)
    (hparsed : ∀ entry ∈ l, codec.parseFromString (codec.serializeToString entry) = entry) (tail : Bytes) :
    ∀ (offset : List UInt32) (i position : Nat), i ≤ l.length →
      offset.map UInt32.toNat = (Layout.bounds codec.serializeToString l).drop i →
      ∃ position', reload codec (content codec l ++ tail) offset position = .ok (position', l.drop i) := by
  intro offset
  induction offset with
  | nil =>
    intro i position hi h
    rw [Layout.drop_bounds _ hi] at h
    cases h
  | cons head offset ih =>
    intro i position hi h
    rw [Layout.drop_bounds _ hi, List.map_cons] at h
    obtain ⟨hhead, h⟩ := List.cons_eq_cons.mp h
    cases offset with
    | nil =>
      -- the last offset is the end of the file
      have hlen := congrArg List.length h
      rw [List.length_drop, Layout.length_bounds, List.map_nil, List.length_nil] at hlen
      exact ⟨position, by rw [List.drop_of_length_le (by omega)]; rfl⟩
    | cons next offset =>
      have hlt : i < l.length := by
        rcases Nat.lt_or_ge i l.length with hlt | hge
        · exact hlt
        · obtain rfl := Nat.le_antisymm hi hge
          rw [Layout.drop_all_bounds] at h
          cases h
      have hnext := h
      rw [Layout.drop_bounds _ hlt, List.map_cons] at hnext
      have hitem : l[i]? = some l[i] := List.getElem?_eq_getElem hlt
      have hsucc : next.toNat = _ :=
        (List.cons_eq_cons.mp hnext).1.trans (Layout.bound_succ codec.serializeToString hitem)
      have hle : next.toNat ≤ (content codec l).length :=
        Nat.le_trans (Nat.le_of_eq (List.cons_eq_cons.mp hnext).1) (Layout.bound_le _ l (i + 1))
      have hread :=
        @readFromOffset_ok (content codec l ++ tail) head.toNat (codec.serializeToString l[i]).length position
        (by rw [List.length_append]; omega)
      rw [hhead, show content codec l = l.flatMap codec.serializeToString from rfl, Layout.slice _ hitem,
        ← hhead] at hread
      obtain ⟨position', hrest⟩ := ih (i + 1) (head.toNat + (codec.serializeToString l[i]).length) hlt h
      refine ⟨position', ?_⟩
      have hlen : readLength head next = ((codec.serializeToString l[i]).length : Nat) := by
        rw [(readLength_eq_iff (by omega)).mpr (by omega)]
        omega
      rw [reload, hlen, int_eq (by omega), List.drop_eq_getElem_cons hlt]
      simp only [content] at hread hrest ⊢
      simp only [hread, hrest, hparsed _ (List.getElem_mem hlt), bind, Except.bind, pure, Except.pure]

/-- The constructor on a data file that starts with the entries of a list, and the offsets of that list. -/
theorem load_ok {files : Files} {offset : List UInt32} {tail : Bytes}
    (hoffset : offset.map UInt32.toNat = Layout.bounds codec.serializeToString l)
    (hdata : files.data = some (content codec l ++ tail)) (harchive : loadOffset codec files = .ok offset)
    (hsmall : (content codec l).length < 2 ^ 31)
    (hparsed : ∀ entry ∈ l, codec.parseFromString (codec.serializeToString entry) = entry) :
    ∃ store, load codec files = .ok store ∧ store.entries = .reloaded l ∧ store.offset = offset ∧
      store.files = files := by
  obtain ⟨position, hreload⟩ := reload_ok hsmall hparsed tail offset 0 0 (Nat.zero_le _) hoffset
  have hne : offset ≠ [] := by
    rintro rfl
    exact absurd (length_offset hoffset) (by simp)
  have hload : load codec files = .ok ⟨.reloaded l, offset, position, files⟩ := by
    simp only [load, harchive, hdata, Option.getD_some, bind, Except.bind, if_neg hne, hreload,
      List.drop_zero, pure,
      Except.pure]
    rw [← hdata]
  exact ⟨_, hload, rfl, rfl, rfl⟩

/-- A restart finds the offsets of the list, the one offset of an empty list where there is no file yet. -/
theorem loadOffset_eq (hoffset : store.offset.map UInt32.toNat = Layout.bounds codec.serializeToString l)
    (hfile : store.files.offset = some (codec.oarchive store.offset) ∨ store.files.offset = none ∧ l = [])
    (harchive : codec.iarchive (codec.oarchive store.offset) = some store.offset) :
    loadOffset codec store.files = .ok store.offset := by
  rw [LogStore.loadOffset]
  rcases hfile with hf | ⟨hf, rfl⟩
  · simp only [hf, harchive]
  · rw [Layout.bounds_nil, show [0] = [(0 : UInt32)].map UInt32.toNat from rfl] at hoffset
    rw [hf, List.map_injective_iff.mpr (fun _ _ => UInt32.toNat_inj.mp) hoffset]

theorem Holds.loadOffset (h : Holds codec store l)
    (harchive : codec.iarchive (codec.oarchive store.offset) = some store.offset) :
    loadOffset codec store.files = .ok store.offset :=
  loadOffset_eq h.offset h.archive harchive

/-- A restart reads back what the store holds. -/
theorem Holds.restart (h : Holds codec store l)
    (harchive : codec.iarchive (codec.oarchive store.offset) = some store.offset) :
    ∃ store', load codec store.files = .ok store' ∧ store'.entries = .reloaded l ∧ Holds codec store' l := by
  have hdata : store.files.data = some (content codec l ++ []) := by rw [List.append_nil]; exact h.data
  obtain ⟨store', hload, hentries, hoffset, hfiles⟩ :=
    load_ok h.offset hdata (h.loadOffset harchive) h.small h.parsed
  refine ⟨store', hload, hentries, ?_, ?_, ?_, ?_, h.small, h.parsed⟩
  · rw [hentries, Entries.reloaded_log]
  · rw [hoffset]; exact h.offset
  · rw [hfiles]; exact h.data
  · rw [hfiles, hoffset]; exact h.archive

theorem start_ok : ∃ store, load codec ⟨none, none⟩ = .ok store ∧ Holds codec store [] :=
  ⟨⟨.reloaded [], [0], 0, ⟨some [], none⟩⟩, rfl, rfl, rfl, rfl, .inr ⟨rfl, rfl⟩, Nat.two_pow_pos 31, nofun⟩

/-! ## Inserts -/

theorem modifyOffsetVectorAfterInsert_ok (hindex : index < store.offset.length) (entryStr : Bytes) :
    store.modifyOffsetVectorAfterInsert index entryStr =
      .ok (Truncating.insert store.offset (index + 1)
        (UInt32.ofNat ((store.offset.getD index 0).toNat + entryStr.length))) := by
  rw [modifyOffsetVectorAfterInsert]
  split
  · rename_i heq
    rw [heq, Truncating.insert_length]
  · rename_i hne
    rw [if_pos (by omega), List.take_add_one, List.take_set_of_le (Nat.le_refl _),
      List.getElem?_set_self (by omega)]
    rfl

/-- A write at an offset and the cut behind it. -/
theorem writeFromOffset_data {files : Files} {file : Bytes} (hdata : files.data = some file) {offset : Nat}
    (hoffset : offset ≤ file.length) (data : Bytes) (position : Nat) :
    (writeFromOffset offset data position).1.foldl Files.apply files =
      { files with data := some (file.take offset ++ data) } := by
  simp only [writeFromOffset, lseek_natCast, List.foldl_cons, List.foldl_nil, Files.apply]
  rw [if_neg (by omega), show ((offset : Int) + data.length).toNat = offset + data.length by omega]
  split
  · rename_i hnil
    rw [hnil, List.append_nil, List.length_nil, Nat.add_zero, hdata, Option.map_some, Bytes.fit_eq_take hoffset]
  · rw [hdata, Option.map_some, Option.map_some,
      Bytes.fit_eq_take (by rw [Bytes.length_overwrite hoffset]; exact Nat.le_max_right _ _),
      Bytes.take_overwrite hoffset]

/-- The parts of an insert that does not throw. -/
theorem insert_eq {o : UInt32} {offset : List UInt32} {entries : Entries} (hsize : ¬ store.entries.size < index)
    (hget : store.getOffset index = .ok o)
    (hmodify : store.modifyOffsetVectorAfterInsert index (codec.serializeToString entry) = .ok offset)
    (hentries : store.entries.insert index entry = .ok entries) :
    let w := writeFromOffset (int o) (codec.serializeToString entry) store.position
    let ops := w.1 ++ writeOffsetToFile (codec.oarchive offset)
    store.insert codec index entry = .ok (ops, ⟨entries, offset, w.2, ops.foldl Files.apply store.files⟩) := by
  simp only [insert, if_neg hsize, hget, hmodify, hentries, bind, Except.bind, pure, Except.pure, Except.mapError]

/-- An insert within the list does not throw, where the offsets are those of the list. -/
theorem insert_within (hoffset : store.offset.map UInt32.toNat = Layout.bounds codec.serializeToString l)
    (hlog : store.entries.log.length = l.length) (hindex : index ≤ l.length) (entry : RpcEntry) :
    ∃ o offset entries, store.offset[index]? = some o ∧ o.toNat = Layout.bound codec.serializeToString l index ∧
      offset = Truncating.insert store.offset (index + 1)
      (UInt32.ofNat (o.toNat + (codec.serializeToString entry).length)) ∧
      store.entries.insert index entry = .ok entries ∧
      entries.log = Truncating.insert store.entries.log index entry ∧
      let w := writeFromOffset (int o) (codec.serializeToString entry) store.position
      let ops := w.1 ++ writeOffsetToFile (codec.oarchive offset)
      store.insert codec index entry = .ok (ops, ⟨entries, offset, w.2, ops.foldl Files.apply store.files⟩) := by
  obtain ⟨o, ho, hbound⟩ := getElem?_offset hoffset hindex
  obtain ⟨entries, hentries, hlog'⟩ := @Entries.insert_eq_ok store.entries index entry (by rw [hlog]; exact hindex)
  have hlen := length_offset hoffset
  have hsize : ¬ store.entries.size < index := by
    rw [Entries.size_eq, hlog]
    omega
  have hget : store.getOffset index = .ok o := by rw [getOffset, ho]
  have hmodify := @modifyOffsetVectorAfterInsert_ok store index (by omega) (codec.serializeToString entry)
  rw [List.getD_eq_getElem?_getD, ho, Option.getD_some] at hmodify
  exact ⟨o, _, entries, ho, hbound, rfl, hentries, hlog', insert_eq hsize hget hmodify hentries⟩

/-- The offsets after an insert are those of the list where its end is an `unsigned int`. -/
theorem offset_insert_iff (hoffset : store.offset.map UInt32.toNat = Layout.bounds codec.serializeToString l)
    (hindex : index ≤ l.length) :
    (Truncating.insert store.offset (index + 1) (UInt32.ofNat (Layout.bound codec.serializeToString l index +
      (codec.serializeToString entry).length))).map UInt32.toNat =
        Layout.bounds codec.serializeToString (Truncating.insert l index entry) ↔
      Layout.bound codec.serializeToString l index + (codec.serializeToString entry).length < 2 ^ 32 := by
  rw [Layout.bounds_insert _ hindex, ← hoffset, Truncating.insert, Truncating.insert, List.map_append,
    List.map_take,
    List.append_cancel_left_eq, List.map_singleton, List.singleton_inj, UInt32.toNat_ofNat']
  omega

/-- An insert within the list cuts it there. -/
theorem Holds.insert (h : Holds codec store l) (hindex : index ≤ l.length)
    (hsmall : (content codec (Truncating.insert l index entry)).length < 2 ^ 31)
    (hparsed : codec.parseFromString (codec.serializeToString entry) = entry) :
    ∃ ops store', store.insert codec index entry = .ok (ops, store') ∧
      Holds codec store' (Truncating.insert l index entry) := by
  obtain ⟨o, offset, entries, ho, hbound, rfl, -, hlog, hinsert⟩ :=
    insert_within h.offset (congrArg List.length h.log) hindex entry
  rw [h.log] at hlog
  have hwithin : o.toNat ≤ (content codec l).length := by
    rw [hbound]
    exact Layout.bound_le _ l index
  have hcontent : content codec (Truncating.insert l index entry) =
      (content codec l).take o.toNat ++ codec.serializeToString entry := by
    rw [hbound]
    exact Layout.flatMap_insert _ l index entry
  have hend : o.toNat + (codec.serializeToString entry).length < 2 ^ 31 := by
    rw [hcontent, List.length_append, List.length_take_of_le hwithin] at hsmall
    exact hsmall
  have hwrite := writeFromOffset_data h.data hwithin (codec.serializeToString entry) store.position
  rw [← hcontent] at hwrite
  have hfiles : ∀ archive, ((writeFromOffset o.toNat (codec.serializeToString entry) store.position).1 ++
      writeOffsetToFile archive).foldl Files.apply store.files =
        ⟨some (content codec (Truncating.insert l index entry)), some archive⟩ := fun archive => by
    rw [List.foldl_append, hwrite]
    rfl
  rw [int_eq (by omega)] at hinsert
  refine ⟨_, _, hinsert, hlog, ?_, ?_, ?_, hsmall, fun e he => ?_⟩
  · show (Truncating.insert _ _ _).map UInt32.toNat = _
    rw [hbound]
    exact (offset_insert_iff h.offset hindex).mpr (by omega)
  · exact congrArg Files.data (hfiles _)
  · exact .inl (congrArg Files.offset (hfiles _))
  · rcases List.mem_append.mp he with he | he
    · exact h.parsed e (List.mem_of_mem_take he)
    · obtain rfl := List.mem_singleton.mp he
      exact hparsed

/-- An insert past the end throws. -/
theorem Holds.insert_error (h : Holds codec store l) (hindex : l.length < index) :
    store.insert codec index entry = .error (.entries (.entriesInsert store.entries.size index)) := by
  have hsize : store.entries.size < index := by
    rw [Entries.size_eq, h.log]
    omega
  simp only [LogStore.insert, if_pos hsize]
  rfl

/-! ## Sequences of calls and restarts -/

theorem stored_concat (ops : List Op) (op : Op) : stored (ops ++ [op]) = next (stored ops) op := by
  rw [stored, stored, List.foldl_append]
  rfl

theorem run_concat (ops : List Op) (op : Op) :
    run codec (ops ++ [op]) = (run codec ops).bind (step codec · op) := by
  simp only [run, List.foldlM_append, List.foldlM_cons, List.foldlM_nil, bind_pure]
  exact (bind_assoc (m := Except StoreExn) _ _ _).symm

/-- Each call of `insert` in the sequence returns. -/
def Succeeds (codec : Codec) (ops : List Op) : Prop :=
  ∀ past index entry, past ++ [.insert index entry] <+: ops → ∀ store, run codec past = .ok store →
    ∃ r, store.insert codec index entry = .ok r

theorem run_holds {ops : List Op} (hsmall : ∀ past, past <+: ops → (content codec (stored past)).length < 2 ^ 31)
    (hparsed : ∀ index entry, Op.insert index entry ∈ ops →
    codec.parseFromString (codec.serializeToString entry) = entry)
    (harchive : ∀ offset, codec.iarchive (codec.oarchive offset) = some offset) (hsucceeds : Succeeds codec ops) :
    ∃ store, run codec ops = .ok store ∧ Holds codec store (stored ops) := by
  induction ops using List.reverseRecOn with
  | nil => exact start_ok
  | append_singleton past op ih =>
    have hle := List.prefix_append past [op]
    obtain ⟨store, hrun, hholds⟩ := ih (fun p hp => hsmall p (hp.trans hle))
      (fun index entry hm => hparsed index entry (by simp [hm]))
      (fun p index entry hp => hsucceeds p index entry (hp.trans hle))
    rw [run_concat, hrun, stored_concat]
    cases op with
    | restart =>
      obtain ⟨store', hload, -, hholds'⟩ := hholds.restart (harchive _)
      exact ⟨store', hload, hholds'⟩
    | insert index entry =>
      obtain ⟨r, hr⟩ := hsucceeds past index entry (List.prefix_refl _) store hrun
      have hindex : index ≤ (stored past).length := by
        by_contra hlt
        rw [hholds.insert_error (Nat.lt_of_not_le hlt)] at hr
        cases hr
      have hsize := hsmall _ (List.prefix_refl _)
      rw [stored_concat] at hsize
      obtain ⟨ops, store', hinsert, hholds'⟩ := hholds.insert hindex hsize (hparsed index entry (by simp))
      refine ⟨store', ?_, hholds'⟩
      simp only [Except.bind, step, hinsert]
      rfl

/-- What can be seen of a store that holds a list. -/
structure Agrees (codec : Codec) (store : LogStore) (l : List RpcEntry) : Prop where
  size : store.entries.size = l.length
  get : ∀ (i : Nat) (entry : RpcEntry), l[i]? = some entry → store.entries.get i = .ok entry
  length : (store.offset.length : Int) = store.entries.size + 1
  starts : store.offset.head? = some 0
  sorted : store.offset.Pairwise (· ≤ ·)
  /-- The bytes of entry `i` are those between offsets `i` and `i + 1`. -/
  bytes : ∀ (i : Nat) (entry : RpcEntry), l[i]? = some entry → ∃ lo hi file, store.offset[i]? = some lo ∧
    store.offset[i + 1]? = some hi ∧ store.files.data = some file ∧
    (file.take hi.toNat).drop lo.toNat = codec.serializeToString entry
  ends : ∃ last file, store.offset.getLast? = some last ∧ store.files.data = some file ∧ file.length = last.toNat

theorem Holds.agrees (h : Holds codec store l) : Agrees codec store l := by
  have hsize : store.entries.size = l.length := by rw [Entries.size_eq, h.log]
  have hlen := length_offset h.offset
  refine ⟨hsize, fun i entry hi => Entries.get_eq_ok (by rw [h.log]; exact hi), by omega, ?_, ?_,
    fun i entry hi => ?_, ?_⟩
  · obtain ⟨o, ho, hbound⟩ := getElem?_offset h.offset (Nat.zero_le l.length)
    rw [List.head?_eq_getElem?, ho]
    exact congrArg some (UInt32.toNat_inj.mp hbound)
  · refine List.pairwise_iff_getElem.mpr fun i j hi hj hij => ?_
    obtain ⟨o, ho, hbound⟩ := getElem?_offset h.offset (i := i) (by omega)
    obtain ⟨o', ho', hbound'⟩ := getElem?_offset h.offset (i := j) (by omega)
    rw [(List.getElem_eq_iff hi).mpr ho, (List.getElem_eq_iff hj).mpr ho', UInt32.le_iff_toNat_le, hbound, hbound']
    exact Layout.bound_mono _ l (Nat.le_of_lt hij)
  · obtain ⟨lo, hi', hlo, hhi, hbound, hbound'⟩ := offset_between h.offset hi
    refine ⟨lo, hi', _, hlo, hhi, h.data, ?_⟩
    have hslice := Layout.slice codec.serializeToString hi []
    rw [List.append_nil] at hslice
    rw [List.drop_take, hbound', Nat.add_sub_cancel_left, hbound]
    exact hslice
  · obtain ⟨o, ho, hbound⟩ := getElem?_offset h.offset (Nat.le_refl l.length)
    refine ⟨o, _, ?_, h.data, ?_⟩
    · rw [List.getLast?_eq_getElem?, hlen, Nat.add_sub_cancel, ho]
    · rw [hbound, Layout.bound_length]
      rfl

/-- **The log store refines a truncating list.** -/
theorem log_store_refines {ops : List Op} (hsmall : ∀ past, past <+: ops →
    (content codec (stored past)).length < 2 ^ 31) (hparsed : ∀ index entry, Op.insert index entry ∈ ops →
    codec.parseFromString (codec.serializeToString entry) = entry)
    (harchive : ∀ offset, codec.iarchive (codec.oarchive offset) = some offset) (hsucceeds : Succeeds codec ops) :
    ∃ store, run codec ops = .ok store ∧ Agrees codec store (stored ops) := by
  obtain ⟨store, hrun, hholds⟩ := run_holds hsmall hparsed harchive hsucceeds
  exact ⟨store, hrun, hholds.agrees⟩

/-! ## Small entries -/

def field (tag : UInt8) (value : Int) : Bytes := if value = 0 then [] else [tag, UInt8.ofNat value.toNat]

def fields (entry : RpcEntry) : Bytes → RpcEntry
  | 8 :: term :: rest => fields { entry with term := term.toNat } rest
  | 16 :: index :: rest => fields { entry with index := index.toNat } rest
  | 26 :: _ :: msg => { entry with msg := String.ofList (msg.map fun b => Char.ofNat b.toNat) }
  | _ => entry

def littleEndian (offset : UInt32) : Bytes :=
  [UInt8.ofNat offset.toNat, UInt8.ofNat (offset.toNat / 2 ^ 8), UInt8.ofNat (offset.toNat / 2 ^ 16),
    UInt8.ofNat (offset.toNat / 2 ^ 24)]

def offsets : Bytes → List UInt32
  | a :: b :: c :: d :: rest =>
    UInt32.ofNat (a.toNat + 2 ^ 8 * b.toNat + 2 ^ 16 * c.toNat + 2 ^ 24 * d.toNat) :: offsets rest
  | _ => []

/-- What protobuf writes for an entry whose fields are small, and an archive of
which only the first byte of the signature is kept. -/
def smallCodec : Codec where
  serializeToString entry :=
    field 8 entry.term ++ field 16 entry.index ++
      (if entry.msg = "" then [] else 26 :: UInt8.ofNat entry.msg.length :: entry.msg.toList.map Char.toUInt8)
  parseFromString := fields ⟨0, 0, ""⟩
  oarchive offset := 22 :: offset.flatMap littleEndian
  iarchive
    | 22 :: offset => some (offsets offset)
    | _ => none

theorem smallCodec_archive (offset : List UInt32) :
    smallCodec.iarchive (smallCodec.oarchive offset) = some offset := by
  have hoffsets : ∀ l : List UInt32, offsets (l.flatMap littleEndian) = l := by
    intro l
    induction l with
    | nil => rfl
    | cons o l ih =>
      have hlt := o.toNat_lt
      rw [List.flatMap_cons, littleEndian]
      simp only [List.cons_append, List.nil_append, offsets, ih, UInt8.toNat_ofNat']
      congr 1
      apply UInt32.toNat_inj.mp
      rw [UInt32.toNat_ofNat']
      omega
  exact congrArg some (hoffsets offset)

theorem succeeds_of_run {ops : List Op} (hrun : ∀ past, past <+: ops → ∃ store, run codec past = .ok store) :
    Succeeds codec ops := by
  intro past index entry hp store hstore
  obtain ⟨store', h⟩ := hrun _ hp
  rw [run_concat, hstore] at h
  cases hi : store.insert codec index entry with
  | ok r => exact ⟨r, rfl⟩
  | error err =>
    simp only [Except.bind, step, hi] at h
    cases h

/-- Two appends, a restart, and a longer entry over the second. -/
def overwriteAfterRestart : List Op :=
  [.insert 0 ⟨1, 0, "x"⟩, .insert 1 ⟨1, 1, ""⟩, .restart, .insert 1 ⟨2, 1, "yz"⟩]

theorem overwriteAfterRestart_small : ∀ past, past <+: overwriteAfterRestart →
    (content smallCodec (stored past)).length < 2 ^ 31 ∧ (run smallCodec past).toOption.isSome = true := by
  have hall : ∀ past ∈ overwriteAfterRestart.inits, (content smallCodec (stored past)).length < 2 ^ 31 ∧
      (run smallCodec past).toOption.isSome = true := by decide +kernel
  exact fun past hp => hall past ((List.mem_inits _ _).mpr hp)

theorem overwriteAfterRestart_refines : ∃ store, run smallCodec overwriteAfterRestart = .ok store ∧
    Agrees smallCodec store [⟨1, 0, "x"⟩, ⟨2, 1, "yz"⟩] := by
  have hparsed : ∀ op ∈ overwriteAfterRestart, match op with
      | .insert _ entry => smallCodec.parseFromString (smallCodec.serializeToString entry) = entry
      | .restart => True := by
    intro op hm
    simp only [overwriteAfterRestart, List.mem_cons, List.not_mem_nil, or_false] at hm
    rcases hm with rfl | rfl | rfl | rfl <;> decide +kernel
  refine log_store_refines (fun past hp => (overwriteAfterRestart_small past hp).1)
    (fun index entry hm => hparsed _ hm) smallCodec_archive (succeeds_of_run fun past hp => ?_)
  have hsome := (overwriteAfterRestart_small past hp).2
  cases hr : run smallCodec past with
  | ok store => exact ⟨store, rfl⟩
  | error err =>
    rw [hr] at hsome
    cases hsome

/-! ## Crashes -/

/-- The files when the process stops after the first `k` file operations of an insert. -/
def crashed (ops : List FileOp) (k : Nat) (files : Files) : Files := (ops.take k).foldl Files.apply files

/-- Wherever an insert is cut between two of its file operations, the
constructor reads back the log before it or the log after it. -/
def CrashAtomic (codec : Codec) (index : Nat) (entry : RpcEntry) (store : LogStore) : Prop :=
  ∀ ops store', store.insert codec index entry = .ok (ops, store') → ∀ k, 0 < k → k < ops.length →
    ∃ reloaded, load codec (crashed ops k store.files) = .ok reloaded ∧
      (reloaded.entries.log = store.entries.log ∨ reloaded.entries.log = store'.entries.log)

/-- The file operations of an insert. -/
theorem insert_ops {ops : List FileOp} {store' : LogStore}
    (h : store.insert codec index entry = .ok (ops, store')) :
    ∃ o archive, store.getOffset index = .ok o ∧
      ops = (writeFromOffset (int o) (codec.serializeToString entry) store.position).1 ++ writeOffsetToFile
      archive := by
  simp only [insert] at h
  split at h
  · cases h
  · obtain ⟨o, ho, h⟩ := Except.bind_eq_ok.mp h
    obtain ⟨offset, -, h⟩ := Except.bind_eq_ok.mp h
    obtain ⟨entries, -, h⟩ := Except.bind_eq_ok.mp h
    obtain ⟨rfl, -⟩ := Prod.mk.inj (Except.pure_eq_ok.mp h)
    exact ⟨o, _, ho, rfl⟩

/-- An append that is cut before the offset file is emptied leaves the log as it was. -/
theorem Holds.append_cut (h : Holds codec store l)
    (harchive : codec.iarchive (codec.oarchive store.offset) = some store.offset) {ops : List FileOp}
    {store' : LogStore} (hinsert : store.insert codec l.length entry = .ok (ops, store')) {k : Nat} (hpos : 0 < k)
    (hk : k < 3) : ∃ reloaded, load codec (crashed ops k store.files) = .ok reloaded ∧
    reloaded.entries.log = l := by
  obtain ⟨o, archive, ho, rfl⟩ := insert_ops hinsert
  obtain ⟨o', ho', hbound⟩ := getElem?_offset h.offset (Nat.le_refl l.length)
  rw [getOffset, ho'] at ho
  obtain rfl := Except.ok.inj ho
  have hend : o'.toNat = (content codec l).length := by rw [hbound, Layout.bound_length]; rfl
  have hsmall := h.small
  have hwrite := writeFromOffset_data h.data (Nat.le_of_eq hend) (codec.serializeToString entry) store.position
  rw [← int_eq (by omega), hend, List.take_length] at hwrite
  -- after the write, and after the cut that changes nothing
  have hfiles : ∃ tail, crashed ((writeFromOffset (int o') (codec.serializeToString entry) store.position).1 ++
      writeOffsetToFile archive) k store.files = { store.files with data := some (content codec l ++ tail) } := by
    obtain rfl | rfl : k = 1 ∨ k = 2 := by omega
    · show ∃ tail, store.files.apply (.write (lseek (int o') store.position) _) = _
      rw [int_eq (by omega), lseek_natCast, Files.apply, hend, h.data, Option.map_some, Bytes.overwrite_end]
      split
      · exact ⟨[], by rw [List.append_nil, ← h.data]⟩
      · exact ⟨_, rfl⟩
    · exact ⟨_, hwrite⟩
  obtain ⟨tail, hfiles⟩ := hfiles
  have hdata : Files.data { store.files with data := some (content codec l ++ tail) } =
      some (content codec l ++ tail) := rfl
  obtain ⟨reloaded, hload, hentries, -, -⟩ := load_ok h.offset hdata (h.loadOffset harchive) h.small h.parsed
  exact ⟨reloaded, by rw [hfiles]; exact hload, by rw [hentries, Entries.reloaded_log]⟩

/-- The constructor finds the emptied offset file and throws. -/
theorem load_emptyOffset (hempty : codec.iarchive [] = none) {files : Files} (h : files.offset = some []) :
    load codec files = .error .archive := by
  simp only [load, loadOffset, h, hempty, bind, Except.bind]

/-- **No insert is atomic**: after the offset file is emptied there is no log to read back. -/
theorem insert_not_crash_atomic (hempty : codec.iarchive [] = none) {ops : List FileOp} {store' : LogStore}
    (hinsert : store.insert codec index entry = .ok (ops, store')) : ¬ CrashAtomic codec index entry store := by
  intro hatomic
  obtain ⟨o, archive, -, rfl⟩ := insert_ops hinsert
  obtain ⟨reloaded, hload, -⟩ := hatomic _ _ hinsert 3 (Nat.succ_pos 2) (Nat.lt_succ_self 3)
  rw [load_emptyOffset hempty rfl] at hload
  cases hload

theorem smallAppend : ∃ store r, run smallCodec [.insert 0 ⟨1, 0, "x"⟩] = .ok store ∧ store.entries.size = 1 ∧
    store.insert smallCodec 1 ⟨1, 1, "y"⟩ = .ok r := by
  have h : (run smallCodec [.insert 0 ⟨1, 0, "x"⟩]).toOption.any (fun store =>
      decide (store.entries.size = 1) && (store.insert smallCodec 1 ⟨1, 1, "y"⟩).toOption.isSome) = true := by
    decide +kernel
  cases hrun : run smallCodec [.insert 0 ⟨1, 0, "x"⟩] with
  | error err => simp [hrun, Except.toOption] at h
  | ok store =>
    simp only [hrun, Except.toOption, Option.any_some, Bool.and_eq_true, decide_eq_true_eq] at h
    cases hinsert : store.insert smallCodec 1 ⟨1, 1, "y"⟩ with
    | error err => simp [hinsert] at h
    | ok r => exact ⟨store, r, rfl, h.1, hinsert⟩

theorem smallAppend_not_atomic : ∃ store, run smallCodec [.insert 0 ⟨1, 0, "x"⟩] = .ok store ∧
    ¬ CrashAtomic smallCodec 1 ⟨1, 1, "y"⟩ store := by
  obtain ⟨store, ⟨ops, store'⟩, hrun, -, hinsert⟩ := smallAppend
  exact ⟨store, hrun, insert_not_crash_atomic rfl hinsert⟩

/-- The process stops between the two writes of the offset file. -/
theorem emptiedOffset_not_loaded : ¬ ∀ (ops : List Op) (store : LogStore) (index : Nat) (entry : RpcEntry),
    run smallCodec ops = .ok store → index ≤ store.entries.size → CrashAtomic smallCodec index entry store := by
  intro hall
  have hempty : smallCodec.iarchive [] = none := rfl
  obtain ⟨store, ⟨ops, store'⟩, hrun, hsize, hinsert⟩ := smallAppend
  have hatomic := hall _ store 1 ⟨1, 1, "y"⟩ hrun (by rw [hsize]; decide)
  obtain ⟨o, archive, -, rfl⟩ := insert_ops hinsert
  obtain ⟨reloaded, hload, -⟩ := hatomic _ _ hinsert 3 (Nat.succ_pos 2) (Nat.lt_succ_self 3)
  rw [load_emptyOffset hempty rfl] at hload
  cases hload

end LogStore

end MyRaft
