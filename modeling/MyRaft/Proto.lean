/-
`rpc.proto`: the fields of the five messages of the servers, and what parsing
makes of a serialized entry and AE.

`msg` of an entry and `ip` are of type `string`, and the parser refuses a
`string` that is not UTF-8. `msg` is the last field of an entry, so the entry is
whole all the same; an AE that carries it has `prelog_index` behind it.
-/
import MyRaft.Rpc
import MyRaft.Lib.Proto3
import Mathlib.Algebra.GroupWithZero.Nat

namespace MyRaft

open Bytes (ofText text IsText)
open Proto3

/-! ## The messages -/

def RpcEntry.proto : Schema RpcEntry where
  initial := ⟨0, 0, ""⟩
  fields entry := int32Field 1 entry.term ++ int32Field 2 entry.index ++ stringField 3 entry.msg
  merge field entry :=
    match field with
    | ⟨1, .varint n⟩ => (true, { entry with term := toInt32 n })
    | ⟨2, .varint n⟩ => (true, { entry with index := toInt32 n })
    | ⟨3, .bytes bs⟩ => (decide (Utf8.Valid bs), { entry with msg := text bs })
    | _ => (true, entry)

/-- A repeated message is parsed where it stands. -/
def AppendEntryRpc.proto (pb : Protobuf) : Schema AppendEntryRpc where
  initial := ⟨0, 0, 0, 0, "", 0, [], 0⟩
  fields ae := int32Field 1 ae.term ++ int32Field 2 ae.prelogTerm ++ int32Field 3 ae.commitIndex ++
    int32Field 4 ae.lsn ++ stringField 5 ae.ip ++ int32Field 6 ae.port ++
    ae.entry.map (fun entry => messageField 7 (pb.serializeToString RpcEntry.proto entry)) ++ int32Field 8
    ae.prelogIndex
  merge field ae :=
    match field with
    | ⟨1, .varint n⟩ => (true, { ae with term := toInt32 n })
    | ⟨2, .varint n⟩ => (true, { ae with prelogTerm := toInt32 n })
    | ⟨3, .varint n⟩ => (true, { ae with commitIndex := toInt32 n })
    | ⟨4, .varint n⟩ => (true, { ae with lsn := toInt32 n })
    | ⟨5, .bytes bs⟩ => (decide (Utf8.Valid bs), { ae with ip := text bs })
    | ⟨6, .varint n⟩ => (true, { ae with port := toInt32 n })
    | ⟨7, .bytes bs⟩ =>
      let (ok, entry) := pb.parseFromString RpcEntry.proto bs
      (ok, { ae with entry := ae.entry ++ [entry] })
    | ⟨8, .varint n⟩ => (true, { ae with prelogIndex := toInt32 n })
    | _ => (true, ae)

def RespAppendEntryRpc.proto : Schema RespAppendEntryRpc where
  initial := ⟨false, 0, 0, "", 0, false⟩
  fields resp := boolField 1 resp.ok ++ int32Field 2 resp.term ++ int32Field 3 resp.lsn ++ stringField 4 resp.ip ++
    int32Field 5 resp.port ++ boolField 6 resp.isEmptyAe
  merge field resp :=
    match field with
    | ⟨1, .varint n⟩ => (true, { resp with ok := n != 0 })
    | ⟨2, .varint n⟩ => (true, { resp with term := toInt32 n })
    | ⟨3, .varint n⟩ => (true, { resp with lsn := toInt32 n })
    | ⟨4, .bytes bs⟩ => (decide (Utf8.Valid bs), { resp with ip := text bs })
    | ⟨5, .varint n⟩ => (true, { resp with port := toInt32 n })
    | ⟨6, .varint n⟩ => (true, { resp with isEmptyAe := n != 0 })
    | _ => (true, resp)

def RequestVoteRpc.proto : Schema RequestVoteRpc where
  initial := ⟨0, 0, 0, 0, "", 0⟩
  fields rv := int32Field 1 rv.term ++ int32Field 2 rv.latestIndex ++ int32Field 3 rv.latestTerm ++
    int32Field 4 rv.lsn ++ stringField 5 rv.ip ++ int32Field 6 rv.port
  merge field rv :=
    match field with
    | ⟨1, .varint n⟩ => (true, { rv with term := toInt32 n })
    | ⟨2, .varint n⟩ => (true, { rv with latestIndex := toInt32 n })
    | ⟨3, .varint n⟩ => (true, { rv with latestTerm := toInt32 n })
    | ⟨4, .varint n⟩ => (true, { rv with lsn := toInt32 n })
    | ⟨5, .bytes bs⟩ => (decide (Utf8.Valid bs), { rv with ip := text bs })
    | ⟨6, .varint n⟩ => (true, { rv with port := toInt32 n })
    | _ => (true, rv)

def RespRequestVoteRpc.proto : Schema RespRequestVoteRpc where
  initial := ⟨false, 0, 0, "", 0⟩
  fields resp := boolField 1 resp.ok ++ int32Field 2 resp.term ++ int32Field 3 resp.lsn ++ stringField 4 resp.ip ++
    int32Field 5 resp.port
  merge field resp :=
    match field with
    | ⟨1, .varint n⟩ => (true, { resp with ok := n != 0 })
    | ⟨2, .varint n⟩ => (true, { resp with term := toInt32 n })
    | ⟨3, .varint n⟩ => (true, { resp with lsn := toInt32 n })
    | ⟨4, .bytes bs⟩ => (decide (Utf8.Valid bs), { resp with ip := text bs })
    | ⟨5, .varint n⟩ => (true, { resp with port := toInt32 n })
    | _ => (true, resp)

/-! ## What the fields hold -/

/-- The fields are in the range of their types; a character is a byte. -/
structure RpcEntry.WellTyped (entry : RpcEntry) : Prop where
  term : IsInt32 entry.term
  index : IsInt32 entry.index
  msg : IsText entry.msg

structure AppendEntryRpc.WellTyped (ae : AppendEntryRpc) : Prop where
  term : IsInt32 ae.term
  prelogTerm : IsInt32 ae.prelogTerm
  commitIndex : IsInt32 ae.commitIndex
  lsn : IsInt32 ae.lsn
  ip : IsText ae.ip
  port : IsInt32 ae.port
  entry : ∀ entry ∈ ae.entry, entry.WellTyped
  prelogIndex : IsInt32 ae.prelogIndex

/-! ## Entries -/

variable {pb : Protobuf}

theorem RpcEntry.fields_wellFormed (entry : RpcEntry) : ∀ f ∈ RpcEntry.proto.fields entry, f.WellFormed := by
  intro f hf
  simp only [RpcEntry.proto, List.mem_append, or_assoc] at hf
  rcases hf with hf | hf | hf
  · exact int32Field_wellFormed (by decide) hf
  · exact int32Field_wellFormed (by decide) hf
  · exact stringField_wellFormed (by decide) hf

/-- **An entry comes back, whatever its message**; parsing succeeds where the message is UTF-8. -/
theorem RpcEntry.parse_serialize (hpb : pb.WireFormat) {entry : RpcEntry} (h : entry.WellTyped) :
    pb.parseFromString RpcEntry.proto (pb.serializeToString RpcEntry.proto entry) =
      (decide (Utf8.Valid (ofText entry.msg)), entry) := by
  rw [hpb.serialize, hpb.parse _ _ entry.fields_wellFormed]
  have hfields : RpcEntry.proto.fields entry =
      int32Field 1 entry.term ++ (int32Field 2 entry.index ++ (stringField 3 entry.msg ++ [])) := by
    simp [RpcEntry.proto]
  rw [hfields]
  refine Eq.trans (mergeAll_int32Field (f := fun v => ⟨v, 0, ""⟩) h.term (fun _ => rfl) rfl) ?_
  refine Eq.trans (mergeAll_int32Field (f := fun v => ⟨entry.term, v, ""⟩) h.index (fun _ => rfl) rfl) ?_
  refine Eq.trans (mergeAll_stringField (f := fun s => ⟨entry.term, entry.index, s⟩) h.msg (fun _ => rfl) rfl) ?_
  split <;> simp [Schema.mergeAll, *]

/-! ## AEs -/

theorem AppendEntryRpc.fields_wellFormed (ae : AppendEntryRpc) :
    ∀ f ∈ (AppendEntryRpc.proto pb).fields ae, f.WellFormed := by
  intro f hf
  simp only [AppendEntryRpc.proto, List.mem_append, or_assoc, List.mem_map] at hf
  rcases hf with hf | hf | hf | hf | hf | hf | ⟨entry, -, rfl⟩ | hf
  · exact int32Field_wellFormed (by decide) hf
  · exact int32Field_wellFormed (by decide) hf
  · exact int32Field_wellFormed (by decide) hf
  · exact int32Field_wellFormed (by decide) hf
  · exact stringField_wellFormed (by decide) hf
  · exact int32Field_wellFormed (by decide) hf
  · exact ⟨by decide, by decide⟩
  · exact int32Field_wellFormed (by decide) hf

/-- An AE that carries an entry, read back: a `string` that is not UTF-8 ends it. -/
theorem AppendEntryRpc.parse_serialize (hpb : pb.WireFormat) {ae : AppendEntryRpc} (h : ae.WellTyped)
    {entry : RpcEntry} (hentry : ae.entry = [entry]) :
    pb.parseFromString (AppendEntryRpc.proto pb) (pb.serializeToString (AppendEntryRpc.proto pb) ae) =
      if Utf8.Valid (ofText ae.ip) then
        if Utf8.Valid (ofText entry.msg) then (true, ae) else (false, { ae with prelogIndex := 0 })
      else (false, { ae with port := 0, entry := [], prelogIndex := 0 }) := by
  obtain ⟨term, prelogTerm, commitIndex, lsn, ip, port, entries, prelogIndex⟩ := ae
  obtain rfl := hentry
  have he : entry.WellTyped := h.entry entry (by simp)
  rw [hpb.serialize, hpb.parse _ _ (AppendEntryRpc.fields_wellFormed _)]
  have hfields : (AppendEntryRpc.proto pb).fields ⟨term, prelogTerm, commitIndex, lsn, ip, port, [entry],
    prelogIndex⟩ =
      int32Field 1 term ++ (int32Field 2 prelogTerm ++ (int32Field 3 commitIndex ++ (int32Field 4 lsn ++
        (stringField 5 ip ++ (int32Field 6 port ++ (messageField 7 (pb.serializeToString RpcEntry.proto entry) ::
          (int32Field 8 prelogIndex ++ []))))))) := by
    simp [AppendEntryRpc.proto]
  rw [hfields]
  refine Eq.trans (mergeAll_int32Field (f := fun v => ⟨v, 0, 0, 0, "", 0, [], 0⟩) h.term (fun _ => rfl) rfl) ?_
  refine Eq.trans (mergeAll_int32Field (f := fun v => ⟨term, v, 0, 0, "", 0, [], 0⟩) h.prelogTerm
    (fun _ => rfl) rfl) ?_
  refine Eq.trans (mergeAll_int32Field (f := fun v => ⟨term, prelogTerm, v, 0, "", 0, [], 0⟩)
    h.commitIndex (fun _ => rfl) rfl) ?_
  refine Eq.trans (mergeAll_int32Field (f := fun v => ⟨term, prelogTerm, commitIndex, v, "", 0, [], 0⟩)
    h.lsn (fun _ => rfl) rfl) ?_
  refine Eq.trans (mergeAll_stringField (f := fun s => ⟨term, prelogTerm, commitIndex, lsn, s, 0, [], 0⟩)
    h.ip (fun _ => rfl) rfl) ?_
  simp only
  split
  · -- the entry, and behind it `prelog_index`
    have hmessage : (AppendEntryRpc.proto pb).merge (messageField 7 (pb.serializeToString RpcEntry.proto entry))
        ⟨term, prelogTerm, commitIndex, lsn, ip, port, [], 0⟩ =
        (decide (Utf8.Valid (ofText entry.msg)), ⟨term, prelogTerm, commitIndex, lsn, ip, port, [entry], 0⟩) := by
      simp only [AppendEntryRpc.proto, messageField, RpcEntry.parse_serialize hpb he, List.nil_append]
    refine Eq.trans (mergeAll_int32Field (f := fun v => ⟨term, prelogTerm, commitIndex, lsn, ip, v, [], 0⟩)
      h.port (fun _ => rfl) rfl) ?_
    simp only [mergeAll_cons, hmessage, decide_eq_true_eq]
    split
    · exact Eq.trans (mergeAll_int32Field (f := fun v =>
        ⟨term, prelogTerm, commitIndex, lsn, ip, port, [entry], v⟩)
        h.prelogIndex (fun _ => rfl) rfl) rfl
    · rfl
  · rfl

/-- An AE comes back exactly when parsing it succeeds, or only loses a `prelog_index` of zero. -/
theorem AppendEntryRpc.comes_back_iff (hpb : pb.WireFormat) {ae : AppendEntryRpc} (h : ae.WellTyped)
    {entry : RpcEntry} (hentry : ae.entry = [entry]) :
    (pb.parseFromString (AppendEntryRpc.proto pb) (pb.serializeToString (AppendEntryRpc.proto pb) ae)).2 = ae ↔
      Utf8.Valid (ofText ae.ip) ∧ (Utf8.Valid (ofText entry.msg) ∨ ae.prelogIndex = 0) := by
  rw [AppendEntryRpc.parse_serialize hpb h hentry]
  obtain ⟨term, prelogTerm, commitIndex, lsn, ip, port, entries, prelogIndex⟩ := ae
  obtain rfl := hentry
  by_cases hip : Utf8.Valid (ofText ip)
  · by_cases hmsg : Utf8.Valid (ofText entry.msg)
    · simp [hip, hmsg]
    · simp [hip, hmsg, eq_comm]
  · simp [hip]

/-! ## The other messages -/

structure RequestVoteRpc.WellTyped (rv : RequestVoteRpc) : Prop where
  term : IsInt32 rv.term
  latestIndex : IsInt32 rv.latestIndex
  latestTerm : IsInt32 rv.latestTerm
  lsn : IsInt32 rv.lsn
  ip : IsText rv.ip
  port : IsInt32 rv.port

structure RespRequestVoteRpc.WellTyped (resp : RespRequestVoteRpc) : Prop where
  term : IsInt32 resp.term
  lsn : IsInt32 resp.lsn
  ip : IsText resp.ip
  port : IsInt32 resp.port

structure RespAppendEntryRpc.WellTyped (resp : RespAppendEntryRpc) : Prop where
  term : IsInt32 resp.term
  lsn : IsInt32 resp.lsn
  ip : IsText resp.ip
  port : IsInt32 resp.port

theorem RequestVoteRpc.fields_wellFormed (rv : RequestVoteRpc) :
    ∀ f ∈ RequestVoteRpc.proto.fields rv, f.WellFormed := by
  intro f hf
  simp only [RequestVoteRpc.proto, List.mem_append, or_assoc] at hf
  rcases hf with hf | hf | hf | hf | hf | hf
  · exact int32Field_wellFormed (by decide) hf
  · exact int32Field_wellFormed (by decide) hf
  · exact int32Field_wellFormed (by decide) hf
  · exact int32Field_wellFormed (by decide) hf
  · exact stringField_wellFormed (by decide) hf
  · exact int32Field_wellFormed (by decide) hf

theorem RespRequestVoteRpc.fields_wellFormed (resp : RespRequestVoteRpc) :
    ∀ f ∈ RespRequestVoteRpc.proto.fields resp, f.WellFormed := by
  intro f hf
  simp only [RespRequestVoteRpc.proto, List.mem_append, or_assoc] at hf
  rcases hf with hf | hf | hf | hf | hf
  · exact boolField_wellFormed (by decide) hf
  · exact int32Field_wellFormed (by decide) hf
  · exact int32Field_wellFormed (by decide) hf
  · exact stringField_wellFormed (by decide) hf
  · exact int32Field_wellFormed (by decide) hf

theorem RespAppendEntryRpc.fields_wellFormed (resp : RespAppendEntryRpc) :
    ∀ f ∈ RespAppendEntryRpc.proto.fields resp, f.WellFormed := by
  intro f hf
  simp only [RespAppendEntryRpc.proto, List.mem_append, or_assoc] at hf
  rcases hf with hf | hf | hf | hf | hf | hf
  · exact boolField_wellFormed (by decide) hf
  · exact int32Field_wellFormed (by decide) hf
  · exact int32Field_wellFormed (by decide) hf
  · exact stringField_wellFormed (by decide) hf
  · exact int32Field_wellFormed (by decide) hf
  · exact boolField_wellFormed (by decide) hf

theorem RequestVoteRpc.parse_serialize (hpb : pb.WireFormat) {rv : RequestVoteRpc} (h : rv.WellTyped)
    (hip : Utf8.Valid (ofText rv.ip)) :
    pb.parseFromString RequestVoteRpc.proto (pb.serializeToString RequestVoteRpc.proto rv) = (true, rv) := by
  obtain ⟨term, latestIndex, latestTerm, lsn, ip, port⟩ := rv
  rw [hpb.serialize, hpb.parse _ _ (RequestVoteRpc.fields_wellFormed _)]
  have hfields : RequestVoteRpc.proto.fields ⟨term, latestIndex, latestTerm, lsn, ip, port⟩ =
      int32Field 1 term ++ (int32Field 2 latestIndex ++ (int32Field 3 latestTerm ++ (int32Field 4 lsn ++
        (stringField 5 ip ++ (int32Field 6 port ++ []))))) := by
    simp [RequestVoteRpc.proto]
  rw [hfields]
  refine Eq.trans (mergeAll_int32Field (f := fun v => ⟨v, 0, 0, 0, "", 0⟩) h.term (fun _ => rfl) rfl) ?_
  refine Eq.trans (mergeAll_int32Field (f := fun v => ⟨term, v, 0, 0, "", 0⟩) h.latestIndex (fun _ => rfl) rfl) ?_
  refine Eq.trans (mergeAll_int32Field (f := fun v => ⟨term, latestIndex, v, 0, "", 0⟩) h.latestTerm
    (fun _ => rfl) rfl) ?_
  refine Eq.trans (mergeAll_int32Field (f := fun v => ⟨term, latestIndex, latestTerm, v, "", 0⟩) h.lsn
    (fun _ => rfl) rfl) ?_
  refine Eq.trans (mergeAll_stringField (f := fun s => ⟨term, latestIndex, latestTerm, lsn, s, 0⟩) h.ip
    (fun _ => rfl) rfl) ?_
  rw [if_pos hip]
  exact Eq.trans (mergeAll_int32Field (f := fun v => ⟨term, latestIndex, latestTerm, lsn, ip, v⟩) h.port
    (fun _ => rfl) rfl) rfl

theorem RespRequestVoteRpc.parse_serialize (hpb : pb.WireFormat) {resp : RespRequestVoteRpc} (h : resp.WellTyped)
    (hip : Utf8.Valid (ofText resp.ip)) :
    pb.parseFromString RespRequestVoteRpc.proto (pb.serializeToString RespRequestVoteRpc.proto resp) =
    (true, resp) := by
  obtain ⟨ok, term, lsn, ip, port⟩ := resp
  rw [hpb.serialize, hpb.parse _ _ (RespRequestVoteRpc.fields_wellFormed _)]
  have hfields : RespRequestVoteRpc.proto.fields ⟨ok, term, lsn, ip, port⟩ =
      boolField 1 ok ++ (int32Field 2 term ++ (int32Field 3
      lsn ++ (stringField 4 ip ++ (int32Field 5 port ++ [])))) := by
    simp [RespRequestVoteRpc.proto]
  rw [hfields]
  refine Eq.trans (mergeAll_boolField (f := fun b => ⟨b, 0, 0, "", 0⟩) ok (fun _ => rfl) rfl) ?_
  refine Eq.trans (mergeAll_int32Field (f := fun v => ⟨ok, v, 0, "", 0⟩) h.term (fun _ => rfl) rfl) ?_
  refine Eq.trans (mergeAll_int32Field (f := fun v => ⟨ok, term, v, "", 0⟩) h.lsn (fun _ => rfl) rfl) ?_
  refine Eq.trans (mergeAll_stringField (f := fun s => ⟨ok, term, lsn, s, 0⟩) h.ip (fun _ => rfl) rfl) ?_
  rw [if_pos hip]
  exact Eq.trans (mergeAll_int32Field (f := fun v => ⟨ok, term, lsn, ip, v⟩) h.port (fun _ => rfl) rfl) rfl

theorem RespAppendEntryRpc.parse_serialize (hpb : pb.WireFormat) {resp : RespAppendEntryRpc} (h : resp.WellTyped)
    (hip : Utf8.Valid (ofText resp.ip)) :
    pb.parseFromString RespAppendEntryRpc.proto (pb.serializeToString RespAppendEntryRpc.proto resp) =
    (true, resp) := by
  obtain ⟨ok, term, lsn, ip, port, isEmptyAe⟩ := resp
  rw [hpb.serialize, hpb.parse _ _ (RespAppendEntryRpc.fields_wellFormed _)]
  have hfields : RespAppendEntryRpc.proto.fields ⟨ok, term, lsn, ip, port, isEmptyAe⟩ =
      boolField 1 ok ++ (int32Field 2 term ++ (int32Field 3 lsn ++ (stringField 4 ip ++ (int32Field 5 port ++
        (boolField 6 isEmptyAe ++ []))))) := by
    simp [RespAppendEntryRpc.proto]
  rw [hfields]
  refine Eq.trans (mergeAll_boolField (f := fun b => ⟨b, 0, 0, "", 0, false⟩) ok (fun _ => rfl) rfl) ?_
  refine Eq.trans (mergeAll_int32Field (f := fun v => ⟨ok, v, 0, "", 0, false⟩) h.term (fun _ => rfl) rfl) ?_
  refine Eq.trans (mergeAll_int32Field (f := fun v => ⟨ok, term, v, "", 0, false⟩) h.lsn (fun _ => rfl) rfl) ?_
  refine Eq.trans (mergeAll_stringField (f := fun s => ⟨ok, term, lsn, s, 0, false⟩) h.ip (fun _ => rfl) rfl) ?_
  rw [if_pos hip]
  refine Eq.trans (mergeAll_int32Field (f := fun v => ⟨ok, term, lsn, ip, v, false⟩) h.port (fun _ => rfl) rfl) ?_
  exact Eq.trans (mergeAll_boolField (f := fun b => ⟨ok, term, lsn, ip, port, b⟩) isEmptyAe (fun _ => rfl) rfl) rfl

/-- The entries of an AE are read back one behind the other. -/
theorem AppendEntryRpc.mergeAll_entries (hpb : pb.WireFormat) {rest : List Field} :
    ∀ {entries : List RpcEntry} {ae : AppendEntryRpc},
      (∀ entry ∈ entries, entry.WellTyped ∧ Utf8.Valid (ofText entry.msg)) →
      (AppendEntryRpc.proto pb).mergeAll
        (entries.map (fun entry => messageField 7 (pb.serializeToString RpcEntry.proto entry)) ++ rest) ae =
      (AppendEntryRpc.proto pb).mergeAll rest { ae with entry := ae.entry ++ entries } := by
  intro entries
  induction entries with
  | nil => simp
  | cons entry entries ih =>
    intro ae h
    obtain ⟨hentry, hmsg⟩ := h entry (by simp)
    have hmerge : (AppendEntryRpc.proto pb).merge (messageField 7 (pb.serializeToString RpcEntry.proto entry)) ae =
        (true, { ae with entry := ae.entry ++ [entry] }) := by
      simp only [AppendEntryRpc.proto, messageField, RpcEntry.parse_serialize hpb hentry, hmsg, decide_true]
    rw [List.map_cons, List.cons_append, mergeAll_cons, hmerge, if_pos rfl, ih fun e he => h e (by simp [he])]
    simp

/-- An AE of UTF-8 strings comes back. -/
theorem AppendEntryRpc.parse_serialize_valid (hpb : pb.WireFormat) {ae : AppendEntryRpc} (h : ae.WellTyped)
    (hip : Utf8.Valid (ofText ae.ip)) (hmsg : ∀ entry ∈ ae.entry, Utf8.Valid (ofText entry.msg)) :
    pb.parseFromString (AppendEntryRpc.proto pb) (pb.serializeToString (AppendEntryRpc.proto pb) ae) =
    (true, ae) := by
  obtain ⟨term, prelogTerm, commitIndex, lsn, ip, port, entries, prelogIndex⟩ := ae
  rw [hpb.serialize, hpb.parse _ _ (AppendEntryRpc.fields_wellFormed _)]
  have hfields : (AppendEntryRpc.proto pb).fields ⟨term, prelogTerm, commitIndex, lsn, ip, port, entries,
    prelogIndex⟩ =
      int32Field 1 term ++ (int32Field 2 prelogTerm ++ (int32Field 3 commitIndex ++ (int32Field 4 lsn ++
        (stringField 5 ip ++ (int32Field 6 port ++
          (entries.map (fun entry => messageField 7 (pb.serializeToString RpcEntry.proto entry)) ++
            (int32Field 8 prelogIndex ++ []))))))) := by
    simp [AppendEntryRpc.proto]
  rw [hfields]
  refine Eq.trans (mergeAll_int32Field (f := fun v => ⟨v, 0, 0, 0, "", 0, [], 0⟩) h.term (fun _ => rfl) rfl) ?_
  refine Eq.trans (mergeAll_int32Field (f := fun v => ⟨term, v, 0, 0, "", 0, [], 0⟩) h.prelogTerm
    (fun _ => rfl) rfl) ?_
  refine Eq.trans (mergeAll_int32Field (f := fun v => ⟨term, prelogTerm, v, 0, "", 0, [], 0⟩)
    h.commitIndex (fun _ => rfl) rfl) ?_
  refine Eq.trans (mergeAll_int32Field (f := fun v => ⟨term, prelogTerm, commitIndex, v, "", 0, [], 0⟩)
    h.lsn (fun _ => rfl) rfl) ?_
  refine Eq.trans (mergeAll_stringField (f := fun s => ⟨term, prelogTerm, commitIndex, lsn, s, 0, [], 0⟩)
    h.ip (fun _ => rfl) rfl) ?_
  rw [if_pos hip]
  refine Eq.trans (mergeAll_int32Field (f := fun v => ⟨term, prelogTerm, commitIndex, lsn, ip, v, [], 0⟩)
    h.port (fun _ => rfl) rfl) ?_
  rw [AppendEntryRpc.mergeAll_entries hpb fun entry hm => ⟨h.entry entry hm, hmsg entry hm⟩]
  exact Eq.trans (mergeAll_int32Field (f := fun v =>
    ⟨term, prelogTerm, commitIndex, lsn, ip, port, [] ++ entries, v⟩)
    h.prelogIndex (fun _ => rfl) rfl) rfl

/-! ## Sizes -/

/-- The bytes of a serialized entry. -/
def RpcEntry.byteSize (entry : RpcEntry) : Nat :=
  int32Size entry.term + int32Size entry.index + stringSize entry.msg

/-- The bytes of a serialized AE. -/
def AppendEntryRpc.byteSize (ae : AppendEntryRpc) : Nat :=
  int32Size ae.term + int32Size ae.prelogTerm + int32Size ae.commitIndex + int32Size ae.lsn + stringSize ae.ip +
    int32Size ae.port + (ae.entry.map fun entry => bytesSize entry.byteSize).sum + int32Size ae.prelogIndex

theorem RpcEntry.length_serialize (hpb : pb.WireFormat) (entry : RpcEntry) :
    (pb.serializeToString RpcEntry.proto entry).length = entry.byteSize := by
  rw [hpb.serialize]
  simp [RpcEntry.proto, RpcEntry.byteSize, encode_append, length_int32Field, length_stringField, Nat.add_assoc]

theorem AppendEntryRpc.length_serialize (hpb : pb.WireFormat) (ae : AppendEntryRpc) :
    (pb.serializeToString (AppendEntryRpc.proto pb) ae).length = ae.byteSize := by
  have hentries : (encode (ae.entry.map fun entry =>
    messageField 7 (pb.serializeToString RpcEntry.proto entry))).length =
      (ae.entry.map fun entry => bytesSize entry.byteSize).sum := by
    induction ae.entry with
    | nil => rfl
    | cons entry entries ih =>
      have hcons : ∀ field fields, encode (field :: fields) = field.encode ++ encode fields :=
        fun _ _ => List.flatMap_cons
      rw [List.map_cons, hcons, List.length_append, ih, length_messageField (by decide),
        RpcEntry.length_serialize hpb]
      rfl
  rw [hpb.serialize]
  simp [AppendEntryRpc.proto, AppendEntryRpc.byteSize, encode_append, length_int32Field, length_stringField,
    hentries,
    Nat.add_assoc]

end MyRaft
