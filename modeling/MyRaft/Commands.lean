/-
A client's command on its way into the logs: `build_apply_str` of
`EasyStateMachine.cpp` encodes it, the primary puts it into an `rpc_Entry`, and
AEs carry it to the followers.

The encoded command is bytes, and `msg` of `rpc_Entry` a `string`: where a
varint of the command is not UTF-8, the follower's parser stops behind the
entry and `prelog_index` is 0. And an AE is longer than the command it carries,
while both have to fit the receive buffer.
-/
import MyRaft.Proto
import MyRaft.Wire
import MyRaft.Apply

namespace MyRaft

open Bytes (ofText text IsText)
open Proto3
open StdLib (StdMap)

variable {pb : Protobuf}

/-! ## The encoded command -/

/-- `apply_call` of `easy_state_machine.proto`. -/
def ApplyCall.proto : Schema ApplyCall where
  initial := ⟨"", 0⟩
  fields call := stringField 1 call.key ++ int32Field 2 call.v
  merge field call :=
    match field with
    | ⟨1, .bytes bs⟩ => (decide (Utf8.Valid bs), { call with key := text bs })
    | ⟨2, .varint n⟩ => (true, { call with v := toInt32 n })
    | _ => (true, call)

/-- `EasyStateMachine::build_apply_str`. -/
def EasyStateMachine.buildApplyStr (pb : Protobuf) (key : String) (v : Int) : Bytes :=
  pb.serializeToString ApplyCall.proto ⟨key, v⟩

namespace ApplyCall

theorem fields_wellFormed (call : ApplyCall) : ∀ f ∈ ApplyCall.proto.fields call, f.WellFormed := by
  intro f hf
  simp only [ApplyCall.proto, List.mem_append] at hf
  rcases hf with hf | hf
  · exact stringField_wellFormed (by decide) hf
  · exact int32Field_wellFormed (by decide) hf

/-- The state machine parses the command that was encoded. -/
theorem parse_serialize (hpb : pb.WireFormat) {key : String} {v : Int} (hkey : IsText key)
    (hutf8 : Utf8.Valid (ofText key)) (hv : IsInt32 v) : pb.parseFromString ApplyCall.proto
    (EasyStateMachine.buildApplyStr pb key v) = (true, ⟨key, v⟩) := by
  rw [EasyStateMachine.buildApplyStr, hpb.serialize, hpb.parse _ _ (fields_wellFormed _)]
  have hfields : ApplyCall.proto.fields ⟨key, v⟩ = stringField 1 key ++ (int32Field 2 v ++ []) := by
    simp [ApplyCall.proto]
  rw [hfields]
  refine Eq.trans (mergeAll_stringField (f := fun s => ⟨s, 0⟩) hkey (fun _ => rfl) rfl) ?_
  rw [if_pos hutf8]
  exact Eq.trans (mergeAll_int32Field (f := fun v => ⟨key, v⟩) hv (fun _ => rfl) rfl) rfl

/-- The encoded command is UTF-8 where its two varints are. -/
theorem valid_buildApplyStr_iff (hpb : pb.WireFormat) {key : String} (hutf8 : Utf8.Valid (ofText key)) (v : Int) :
    Utf8.Valid (EasyStateMachine.buildApplyStr pb key v) ↔
      Utf8.Valid (Varint.encode key.length) ∧ Utf8.Valid (Varint.encode (ofInt32 v)) := by
  have hint : Utf8.Valid (encode (int32Field 2 v)) ↔ Utf8.Valid (Varint.encode (ofInt32 v)) := by
    by_cases hv : v = 0
    · subst hv
      decide
    · have htag : encode (int32Field 2 v) = 0x10 :: Varint.encode (ofInt32 v) := by
        simp [int32Field, hv, encode, Field.encode, Varint.encode_of_lt]
      rw [htag]
      exact Utf8.valid_ascii_iff (by decide)
  have hfields : ApplyCall.proto.fields ⟨key, v⟩ = stringField 1 key ++ int32Field 2 v := rfl
  rw [EasyStateMachine.buildApplyStr, hpb.serialize, hfields, encode_append, ← hint]
  by_cases hempty : key = ""
  · subst hempty
    have hzero : Utf8.Valid (Varint.encode "".length) := by decide
    have hnil : encode (stringField 1 "") = [] := rfl
    rw [hnil, List.nil_append]
    exact (and_iff_right hzero).symm
  · have htag : encode (stringField 1 key) = 0x0A :: (Varint.encode key.length ++ ofText key) := by
      simp [stringField, hempty, encode, Field.encode, Varint.encode_of_lt, length_ofText]
    rw [htag, List.cons_append, Utf8.valid_ascii_iff (by decide), List.append_assoc, valid_varint_append_iff,
      hutf8.append_iff]

end ApplyCall

/-- **An encoded command comes back in a stored entry. In an AE it comes back, with the other fields, exactly
when the string fields are UTF-8 or nothing is behind them.** -/
theorem command_comes_back_iff (pb : Protobuf) (hpb : pb.WireFormat) (key : String) (v term index : Int)
    (hutf8 : Utf8.Valid (ofText key)) (hterm : IsInt32 term) (hindex : IsInt32 index) :
    let entry : RpcEntry := ⟨term, index, text (EasyStateMachine.buildApplyStr pb key v)⟩
    (pb.parseFromString RpcEntry.proto (pb.serializeToString RpcEntry.proto entry)).2 = entry ∧
    ∀ ae : AppendEntryRpc, ae.WellTyped → ae.entry = [entry] →
      ((pb.parseFromString (AppendEntryRpc.proto pb) (pb.serializeToString (AppendEntryRpc.proto pb) ae)).2 = ae ↔
        Utf8.Valid (ofText ae.ip) ∧
          (Utf8.Valid (Varint.encode key.length) ∧ Utf8.Valid (Varint.encode (ofInt32 v)) ∨
          ae.prelogIndex = 0)) := by
  intro entry
  have hentry : entry.WellTyped := ⟨hterm, hindex, Bytes.isText_text _⟩
  refine ⟨by rw [RpcEntry.parse_serialize hpb hentry], fun ae hae hcarries => ?_⟩
  rw [AppendEntryRpc.comes_back_iff hpb hae hcarries, Bytes.ofText_text,
    ApplyCall.valid_buildApplyStr_iff hpb hutf8]

/-- A of term 1 sends the first entry of its log. -/
def firstAe (msg : Bytes) : AppendEntryRpc := ⟨1, -1, -1, 0, serverA.ip, serverA.port, [⟨1, 0, text msg⟩], -1⟩

theorem firstAe_wellTyped (msg : Bytes) : (firstAe msg).WellTyped where
  term := (by decide : IsInt32 1)
  prelogTerm := (by decide : IsInt32 (-1))
  commitIndex := (by decide : IsInt32 (-1))
  lsn := (by decide : IsInt32 0)
  ip := (by decide : IsText serverA.ip)
  port := (by decide : IsInt32 serverA.port)
  entry := by
    intro entry hentry
    obtain rfl := List.mem_singleton.mp hentry
    exact ⟨(by decide : IsInt32 1), (by decide : IsInt32 0), Bytes.isText_text msg⟩
  prelogIndex := (by decide : IsInt32 (-1))

/-- The command that sets x. -/
def setX (v : Int) : Bytes := EasyStateMachine.buildApplyStr protobuf "x" v

theorem setX_one_comes_back :
    (protobuf.parseFromString (AppendEntryRpc.proto protobuf)
      (protobuf.serializeToString (AppendEntryRpc.proto protobuf) (firstAe (setX 1)))).2 = firstAe (setX 1) :=
  ((command_comes_back_iff protobuf protobuf_wireFormat "x" 1 1 0 (by decide) (by decide) (by decide)).2
  (firstAe (setX 1))
    (firstAe_wellTyped _) rfl).mpr ⟨by decide, .inl ⟨by decide, by decide⟩⟩

/-- The varint of 128 is not UTF-8: the follower reads a `prelog_index` of 0. -/
theorem setX_128_lost : ¬ ∀ pb : Protobuf, pb.WireFormat → ∀ (key : String) (v term index : Int),
    Utf8.Valid (ofText key) → IsInt32 v → IsInt32 term → IsInt32 index →
    ∀ ae : AppendEntryRpc, ae.WellTyped → ae.entry =
    [⟨term, index, text (EasyStateMachine.buildApplyStr pb key v)⟩] →
      (pb.parseFromString (AppendEntryRpc.proto pb) (pb.serializeToString (AppendEntryRpc.proto pb) ae)).2 =
      ae := by
  intro hall
  have hback := hall protobuf protobuf_wireFormat "x" 128 1 0 (by decide) (by decide) (by decide) (by decide)
    (firstAe (setX 128)) (firstAe_wellTyped _) rfl
  have hread := AppendEntryRpc.parse_serialize protobuf_wireFormat (firstAe_wellTyped (setX 128)) rfl
  rw [if_pos (by decide), if_neg (by decide)] at hread
  rw [hread] at hback
  exact absurd (congrArg AppendEntryRpc.prelogIndex hback) (by decide)

/-! ## The size of an AE -/

/-- The follower receives the frame of the AE whole, and parses the same AE. -/
def Delivered (pb : Protobuf) (ae : AppendEntryRpc) : Prop :=
  ∃ frame, RPC.makeRpcCall .appendEntry (pb.serializeToString (AppendEntryRpc.proto pb) ae) = some frame ∧
    ∀ rest, ∃ msg, Connection.receive (frame ++ rest) = some ((.appendEntry, msg), rest) ∧
      (pb.parseFromString (AppendEntryRpc.proto pb) msg).2 = ae

/-- What is delivered fits the receive buffer with its type, and comes back. -/
theorem delivered_iff (hpb : pb.WireFormat) (ae : AppendEntryRpc) :
    Delivered pb ae ↔ ae.byteSize + 1 ≤ Connection.dataSize ∧
      (pb.parseFromString (AppendEntryRpc.proto pb) (pb.serializeToString (AppendEntryRpc.proto pb) ae)).2 =
      ae := by
  have hne : RpcType.appendEntry ≠ .error := by decide
  constructor
  · intro h
    obtain ⟨frame, hframe, hreceive⟩ := h
    obtain ⟨-, rfl⟩ := RPC.makeRpcCall_eq_some.mp hframe
    obtain ⟨msg, hmsg, hback⟩ := hreceive []
    -- nothing of the frame is left, so the body is all of it
    have hlen : (pb.serializeToString (AppendEntryRpc.proto pb) ae).length + 1 ≤ Connection.dataSize := by
      obtain ⟨body, hbody, -⟩ := Connection.receive_eq_some.mp hmsg
      obtain ⟨hle, hstream, hfour⟩ := Connection.readFrame_eq_some hbody
      have hlength := congrArg List.length hstream
      simp only [List.length_append, List.length_take, RPC.length_msgEncode, RpcType.length_decimal]
        at hlength hfour
      simp at hlength
      omega
    have hsent := Connection.receive_msgEncode hne hlen []
    rw [hsent] at hmsg
    obtain ⟨⟨-, rfl⟩, -⟩ := by simpa using hmsg
    exact ⟨by rw [← AppendEntryRpc.length_serialize hpb]; exact hlen, hback⟩
  · intro h
    obtain ⟨hlen, hback⟩ := h
    rw [← AppendEntryRpc.length_serialize hpb] at hlen
    exact ⟨_, RPC.makeRpcCall_eq_some.mpr ⟨hne, rfl⟩,
      fun rest => ⟨_, Connection.receive_msgEncode hne hlen rest, hback⟩⟩

/-- An AE is longer than the command it carries. -/
theorem AppendEntryRpc.lt_byteSize {ae : AppendEntryRpc} {entry : RpcEntry} (hentry : ae.entry = [entry]) :
    entry.msg.length + 2 ≤ ae.byteSize := by
  have hmsg : entry.msg.length ≤ stringSize entry.msg := by
    unfold stringSize
    split
    · rename_i h
      rw [h]
      decide
    · unfold bytesSize
      omega
  simp only [AppendEntryRpc.byteSize, hentry, List.map_cons, List.map_nil, List.sum_cons, List.sum_nil, bytesSize,
    varintSize, RpcEntry.byteSize]
  omega

/-- The AE for the position of an accepted command carries it. -/
theorem carries {s₀ s₁ s s' : RaftServer} {client server : Addr} {body : String} {ae : AppendEntryRpc}
    (happend : s₀.appendClientApplyToEntries client body = .ok s₁)
    (hkept : s.entries.get s₀.entries.size = s₁.entries.get s₀.entries.size)
    (hnext : s.nextIndex.get server = s₀.entries.size) (hbuild : s.buildRpcAeString server = .ok (ae, s')) :
    ae.entry = [⟨s₀.term, s₀.entries.size, body⟩] ∧ ae.prelogIndex = s₀.entries.size - 1 := by
  obtain ⟨entries, hlog, rfl⟩ := RaftServer.appendClientApplyToEntries_ok happend
  obtain ⟨⟨n, hn⟩, -, -⟩ := RaftServer.buildRpcAeString_ok hbuild
  have hget : entries.log[s₀.entries.log.length]? = some ⟨s₀.term, s₀.entries.log.length, body⟩ := by simp [hlog]
  rw [Entries.size_eq] at hkept hnext ⊢
  obtain ⟨i, hi, hentry⟩ := Entries.get_ok (hkept.trans (Entries.get_eq_ok hget))
  have hpos : n = i := Int.ofNat_inj.mp (hn.next.symm.trans (hnext.trans hi))
  have hindex : ((n : Nat) : Int) = s₀.entries.log.length := by rw [hpos, hi]
  subst hpos
  exact ⟨by rw [hn.entry, hentry]; rfl, by rw [hn.prelogIndex, hindex]⟩

/-- **An accepted command is delivered exactly when its AE fits the receive buffer, the `ip` is UTF-8, and the
command is, or `prelog_index` is 0.** -/
theorem command_delivered_iff (pb : Protobuf) (hpb : pb.WireFormat) {stream rest msg : Bytes}
    (hreceived : Connection.receive stream = some ((.clientApply, msg), rest)) {s₀ s₁ s s' : RaftServer}
    {client server : Addr} {ae : AppendEntryRpc} (happend : s₀.appendClientApplyToEntries client
    (text msg) = .ok s₁) (hkept : s.entries.get s₀.entries.size = s₁.entries.get s₀.entries.size)
    (hnext : s.nextIndex.get server = s₀.entries.size) (hbuild : s.buildRpcAeString server = .ok (ae, s'))
    (hae : ae.WellTyped) :
    msg.length + 1 ≤ Connection.dataSize ∧
      (Delivered pb ae ↔ ae.byteSize + 1 ≤ Connection.dataSize ∧ Utf8.Valid (ofText ae.ip) ∧
        (Utf8.Valid msg ∨ s₀.entries.size = 1)) := by
  obtain ⟨hentry, hprelog⟩ := carries happend hkept hnext hbuild
  have hzero : ae.prelogIndex = 0 ↔ s₀.entries.size = 1 := by omega
  refine ⟨Connection.receive_length hreceived, ?_⟩
  rw [delivered_iff hpb, AppendEntryRpc.comes_back_iff hpb hae hentry, hzero, Bytes.ofText_text]

/-- A, primary of term 1, without entries. -/
def primaryA : RaftServer :=
  { RaftServer.start serverA threeServers.configuration with term := 1, state := .primary }

/-- A after the command of a client. -/
def accepted (msg : Bytes) : RaftServer :=
  { primaryA with
    entries := ⟨[⟨1, 0, text msg⟩], 1, by simp⟩
    entryIndexToSocketAddrMap := primaryA.entryIndexToSocketAddrMap.set 0 ⟨"4.4.4.4", 4⟩
    followerSavedIndex := primaryA.followerSavedIndex.set serverA 0 }

theorem append_accepted (msg : Bytes) :
    primaryA.appendClientApplyToEntries ⟨"4.4.4.4", 4⟩ (text msg) = .ok (accepted msg) := rfl

theorem build_firstAe (msg : Bytes) : (accepted msg).buildRpcAeString serverB =
    .ok (firstAe msg, { accepted msg with currentRpcLsn := (accepted msg).currentRpcLsn.set serverB 1 }) := rfl

theorem lt_firstAe (msg : Bytes) : msg.length + 2 ≤ (firstAe msg).byteSize := by
  have hentry : (firstAe msg).entry = [⟨1, 0, text msg⟩] := rfl
  have hlength : (text msg).length = msg.length := by rw [← length_ofText, Bytes.ofText_text]
  have hlt := AppendEntryRpc.lt_byteSize hentry
  rwa [hlength] at hlt

theorem setX_one_delivered : Delivered protobuf (firstAe (setX 1)) := by
  have hreceived := Connection.receive_msgEncode (by decide : RpcType.clientApply ≠ .error)
    (by decide : (setX 1).length + 1 ≤ Connection.dataSize) []
  have hsize : (firstAe (setX 1)).byteSize + 1 ≤ Connection.dataSize := by
    rw [← AppendEntryRpc.length_serialize protobuf_wireFormat]
    decide
  exact (command_delivered_iff protobuf protobuf_wireFormat hreceived (append_accepted _) rfl (by decide)
    (build_firstAe _) (firstAe_wellTyped _)).2.mpr ⟨hsize, by decide, .inl (by decide)⟩

/-- The command that sets a key of 5116 characters to 0, which has 5119 bytes. -/
def longCommand : Bytes := EasyStateMachine.buildApplyStr protobuf (String.ofList (List.replicate 5116 'x')) 0

theorem length_setZero (hpb : pb.WireFormat) (key : String) :
    (EasyStateMachine.buildApplyStr pb key 0).length = stringSize key := by
  have hfields : ApplyCall.proto.fields ⟨key, 0⟩ = stringField 1 key := by simp [ApplyCall.proto, int32Field]
  rw [EasyStateMachine.buildApplyStr, hpb.serialize, hfields, length_stringField (by decide)]

theorem length_longCommand : longCommand.length = 5119 := by
  have hkey : (String.ofList (List.replicate 5116 'x')).length = 5116 := by
    rw [String.length_ofList, List.length_replicate]
  have hne : String.ofList (List.replicate 5116 'x') ≠ "" := by
    intro h
    rw [h] at hkey
    exact absurd hkey (by decide)
  have hvarint : varintSize 5116 = 2 := by decide
  rw [longCommand, length_setZero protobuf_wireFormat, stringSize, if_neg hne, hkey, bytesSize, hvarint]

theorem longCommand_not_delivered : ¬ ∀ pb : Protobuf, pb.WireFormat → ∀ {stream rest msg : Bytes},
    Connection.receive stream = some ((.clientApply, msg), rest) →
    ∀ {s₀ s₁ s s' : RaftServer} {client server : Addr}
      {ae : AppendEntryRpc}, s₀.appendClientApplyToEntries client (text msg) = .ok s₁ →
      s.entries.get s₀.entries.size = s₁.entries.get s₀.entries.size → s.nextIndex.get server = s₀.entries.size →
      s.buildRpcAeString server = .ok (ae, s') → ae.WellTyped → Delivered pb ae := by
  intro hall
  have hfits : longCommand.length + 1 ≤ Connection.dataSize := by
    rw [length_longCommand]
    decide
  have hreceived := Connection.receive_msgEncode (by decide : RpcType.clientApply ≠ .error) hfits []
  have hdelivered :=
    hall protobuf protobuf_wireFormat hreceived (append_accepted _) rfl (by decide) (build_firstAe _)
    (firstAe_wellTyped _)
  have hsize := ((delivered_iff protobuf_wireFormat _).mp hdelivered).1
  have hlong := lt_firstAe longCommand
  rw [length_longCommand] at hlong
  have hdata : Connection.dataSize = 5120 := rfl
  omega

end MyRaft
