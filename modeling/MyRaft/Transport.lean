/-
The cluster on bytes: handlers hand serialized messages to `make_rpc_call`,
frames go into the connections, and `process_msg` of the other side parses what
it cuts out of the stream.

`MyRaft.Cluster` has messages in flight and no bytes. The two are the same
cluster while what is sent can be read back: the numbers fit an `int32`, the
strings are UTF-8 and the frames fit `data_`. A number of a run is bounded by
the handlers that have run (`numbers_counted`), so what is asked for is a run
that is not too long, commands and results that are not too long, and addresses.

Between two servers there can be several connections, and a connection can
break: `process_msg` may have read a beginning of what was written to it. The
read loop is `MyRaft.Framing`, where `read_body` keeps two reads pending and
misreads a body that comes in pieces. The runs here are those in which none
does: a body has arrived whole when its header is handled.
-/
import MyRaft.Growth
import MyRaft.Answers
import MyRaft.Malformed

namespace MyRaft

open Bytes (ofText text IsText)
open Proto3
open Decimal (decimal)

/-! ## Messages as bytes -/

/-- The `RPC_TYPE` a message is sent with. -/
def Rpc.type : Rpc → RpcType
  | .requestVote _ => .requestVote
  | .appendEntry _ => .appendEntry
  | .respVote _ => .respVote
  | .respAppend _ => .respAppend
  | .clientApply _ => .clientApply
  | .clientQuery _ => .clientQuery
  | .respClientApply _ => .respClientApply
  | .respClientQuery _ => .respClientQuery

/-- The string `make_rpc_call` is given. -/
def Rpc.serialize (pb : Protobuf) : Rpc → Bytes
  | .requestVote rv => pb.serializeToString RequestVoteRpc.proto rv
  | .appendEntry ae => pb.serializeToString (AppendEntryRpc.proto pb) ae
  | .respVote resp => pb.serializeToString RespRequestVoteRpc.proto resp
  | .respAppend resp => pb.serializeToString RespAppendEntryRpc.proto resp
  | .clientApply body | .clientQuery body | .respClientApply body | .respClientQuery body => ofText body

/-- The bytes it sends. -/
def Rpc.frame (pb : Protobuf) (m : Rpc) : Bytes := RPC.msgEncode (decimal m.type.toNat ++ m.serialize pb)

theorem Rpc.type_ne_error (m : Rpc) : m.type ≠ .error := by cases m <;> simp [Rpc.type]

theorem Rpc.makeRpcCall_eq (pb : Protobuf) (m : Rpc) :
    RPC.makeRpcCall m.type (m.serialize pb) = some (m.frame pb) :=
  RPC.makeRpcCall_eq_some.mpr ⟨m.type_ne_error, rfl⟩

/-- A message fits `data_` with its type, and whoever reads it back does what the message asks. -/
def Rpc.Transmissible (pb : Protobuf) (m : Rpc) : Prop :=
  (m.serialize pb).length + 1 ≤ Connection.dataSize ∧ ∀ (s : RaftServer) (peer src : Addr),
    s.reactToIncomingBytes pb m.type (m.serialize pb) peer = s.reactToIncomingMsg m src

/-- An address that can be sent: a dotted quad, and a port. -/
structure Addr.WellTyped (a : Addr) : Prop where
  ip : IsText a.ip
  utf8 : Utf8.Valid (ofText a.ip)
  short : a.ip.length ≤ 15
  port : IsInt32 a.port

section Messages

variable {pb : Protobuf}

/-- A message that fits is what is read from a stream that begins with it. -/
theorem Rpc.Transmissible.receive {m : Rpc} (h : m.Transmissible pb) (rest : Bytes) :
    Connection.receive (m.frame pb ++ rest) = some ((m.type, m.serialize pb), rest) :=
  Connection.receive_msgEncode m.type_ne_error h.1 rest

theorem transmissible_requestVote (hpb : pb.WireFormat) {rv : RequestVoteRpc} (h : rv.WellTyped)
    (hserver : rv.server.WellTyped) : (Rpc.requestVote rv).Transmissible pb := by
  constructor
  · have hlength : (pb.serializeToString RequestVoteRpc.proto rv).length =
      int32Size rv.term + (int32Size rv.latestIndex +
        (int32Size rv.latestTerm + (int32Size rv.lsn + (stringSize rv.ip + int32Size rv.port)))) := by
      rw [hpb.serialize]
      simp [RequestVoteRpc.proto, encode_append, length_int32Field, length_stringField]
    have hip := stringSize_le (s := rv.ip) (k := 1) (by decide) (Nat.lt_of_le_of_lt hserver.short (by decide))
    have hshort : rv.ip.length ≤ 15 := hserver.short
    have h1 := int32Size_le rv.term
    have h2 := int32Size_le rv.latestIndex
    have h3 := int32Size_le rv.latestTerm
    have h4 := int32Size_le rv.lsn
    have h5 := int32Size_le rv.port
    simp only [Rpc.serialize, hlength, Connection.dataSize]
    omega
  · intro s peer src
    simp only [RaftServer.reactToIncomingBytes, parseRpc, Rpc.type, Rpc.serialize,
      RequestVoteRpc.parse_serialize hpb h hserver.utf8, Prod.map]
    rfl

theorem transmissible_respVote (hpb : pb.WireFormat) {resp : RespRequestVoteRpc} (h : resp.WellTyped)
    (hserver : resp.server.WellTyped) : (Rpc.respVote resp).Transmissible pb := by
  constructor
  · have hlength : (pb.serializeToString RespRequestVoteRpc.proto resp).length =
      (encode (boolField 1 resp.ok)).length +
        (int32Size resp.term + (int32Size resp.lsn + (stringSize resp.ip + int32Size resp.port))) := by
      rw [hpb.serialize]
      simp [RespRequestVoteRpc.proto, encode_append, length_int32Field, length_stringField]
    have hip := stringSize_le (s := resp.ip) (k := 1) (by decide) (Nat.lt_of_le_of_lt hserver.short (by decide))
    have hshort : resp.ip.length ≤ 15 := hserver.short
    have h0 := length_boolField_le (show 1 < 16 by decide) resp.ok
    have h1 := int32Size_le resp.term
    have h2 := int32Size_le resp.lsn
    have h3 := int32Size_le resp.port
    simp only [Rpc.serialize, hlength, Connection.dataSize]
    omega
  · intro s peer src
    simp only [RaftServer.reactToIncomingBytes, parseRpc, Rpc.type, Rpc.serialize,
      RespRequestVoteRpc.parse_serialize hpb h hserver.utf8, Prod.map]
    rfl

theorem transmissible_respAppend (hpb : pb.WireFormat) {resp : RespAppendEntryRpc} (h : resp.WellTyped)
    (hserver : resp.server.WellTyped) : (Rpc.respAppend resp).Transmissible pb := by
  constructor
  · have hlength : (pb.serializeToString RespAppendEntryRpc.proto resp).length =
      (encode (boolField 1 resp.ok)).length +
        (int32Size resp.term + (int32Size resp.lsn + (stringSize resp.ip + (int32Size resp.port +
          (encode (boolField 6 resp.isEmptyAe)).length)))) := by
      rw [hpb.serialize]
      simp [RespAppendEntryRpc.proto, encode_append, length_int32Field, length_stringField]
    have hip := stringSize_le (s := resp.ip) (k := 1) (by decide) (Nat.lt_of_le_of_lt hserver.short (by decide))
    have hshort : resp.ip.length ≤ 15 := hserver.short
    have h0 := length_boolField_le (show 1 < 16 by decide) resp.ok
    have h1 := int32Size_le resp.term
    have h2 := int32Size_le resp.lsn
    have h3 := int32Size_le resp.port
    have h4 := length_boolField_le (show 6 < 16 by decide) resp.isEmptyAe
    simp only [Rpc.serialize, hlength, Connection.dataSize]
    omega
  · intro s peer src
    simp only [RaftServer.reactToIncomingBytes, parseRpc, Rpc.type, Rpc.serialize,
      RespAppendEntryRpc.parse_serialize hpb h hserver.utf8, Prod.map]
    rfl

/-- A command of 5000 bytes leaves room for the rest of its AE. -/
theorem AppendEntryRpc.byteSize_le {ae : AppendEntryRpc} (hone : ae.entry.length ≤ 1)
    (hserver : ae.server.WellTyped) (hmsg : ∀ entry ∈ ae.entry, entry.msg.length ≤ 5000) : ae.byteSize + 1 ≤
    Connection.dataSize := by
  have hentries : (ae.entry.map fun entry => bytesSize entry.byteSize).sum ≤ 5028 := by
    match hentry : ae.entry with
    | [] => simp
    | [entry] =>
      have hshort : entry.msg.length ≤ 5000 := hmsg entry (by simp [hentry])
      have hstring := stringSize_le (s := entry.msg) (k := 2) (by decide) (Nat.lt_of_le_of_lt hshort (by decide))
      have h1 := int32Size_le entry.term
      have h2 := int32Size_le entry.index
      have hsize : entry.byteSize ≤ 5025 := by
        simp only [RpcEntry.byteSize]
        omega
      have hbytes := bytesSize_le (n := entry.byteSize) (k := 2) (by decide) (Nat.lt_of_le_of_lt hsize (by decide))
      simp only [List.map_cons, List.map_nil, List.sum_cons, List.sum_nil]
      omega
    | _ :: _ :: _ => simp [hentry] at hone
  have hip := stringSize_le (s := ae.ip) (k := 1) (by decide) (Nat.lt_of_le_of_lt hserver.short (by decide))
  have hshort : ae.ip.length ≤ 15 := hserver.short
  have h1 := int32Size_le ae.term
  have h2 := int32Size_le ae.prelogTerm
  have h3 := int32Size_le ae.commitIndex
  have h4 := int32Size_le ae.lsn
  have h5 := int32Size_le ae.port
  have h6 := int32Size_le ae.prelogIndex
  simp only [AppendEntryRpc.byteSize, Connection.dataSize]
  omega

theorem transmissible_appendEntry (hpb : pb.WireFormat) {ae : AppendEntryRpc} (h : ae.WellTyped)
    (hserver : ae.server.WellTyped) (hone : ae.entry.length ≤ 1)
    (hmsg : ∀ entry ∈ ae.entry, Utf8.Valid (ofText entry.msg) ∧ entry.msg.length ≤ 5000) :
    (Rpc.appendEntry ae).Transmissible pb := by
  constructor
  · rw [Rpc.serialize, AppendEntryRpc.length_serialize hpb]
    exact AppendEntryRpc.byteSize_le hone hserver fun entry hm => (hmsg entry hm).2
  · intro s peer src
    simp only [RaftServer.reactToIncomingBytes, parseRpc, Rpc.type, Rpc.serialize,
      AppendEntryRpc.parse_serialize_valid hpb h hserver.utf8 fun entry hm => (hmsg entry hm).1, Prod.map]
    rfl

/-- A reply to a client is only logged by a server that it reaches. -/
theorem transmissible_respClient {m : Rpc} {res : String}
    (hm : m = .respClientApply res ∨ m = .respClientQuery res)
    (hlen : res.length + 1 ≤ Connection.dataSize) : m.Transmissible pb := by
  rcases hm with rfl | rfl
  · exact ⟨by rw [Rpc.serialize, length_ofText]; exact hlen, fun _ _ _ => rfl⟩
  · exact ⟨by rw [Rpc.serialize, length_ofText]; exact hlen, fun _ _ _ => rfl⟩

end Messages

/-! ## What a run sends -/

/-- What a state machine returns fits a message. -/
def ShortAnswers (SM : Type) [StateMachine SM] : Prop := ∀ (sm : SM) (msg : String),
  (StateMachine.apply sm msg).2.length + 1 ≤ Connection.dataSize ∧
  (StateMachine.get sm msg).2.length + 1 ≤ Connection.dataSize

/-- A command that AEs can carry. -/
structure ShortCommand (msg : String) : Prop where
  bytes : IsText msg
  utf8 : Utf8.Valid (ofText msg)
  short : msg.length ≤ 5000

theorem Counted.isInt32 {n : Nat} {v : Int} (h : Counted n v) (hn : n < 2 ^ 31) : IsInt32 v := by
  unfold Counted at h
  unfold IsInt32
  omega

section Runs

variable {SM : Type} [StateMachine SM] {c : Cluster} {pb : Protobuf} {σ : System SM} {e : Event}
  {rest : List Packet}
  {p : Packet}

/-- A callback has what the state machine returned. -/
theorem Step.callback_short (hsm : ShortAnswers SM) (hr : Reachable c σ) (h : Step c σ e rest) {cb : Callback}
    (hi : e.input = .callback cb) :
    match cb with
    | .writeRespApplyCall _ res | .writeRespQueryCall _ res => res.length + 1 ≤ Connection.dataSize := by
  obtain ⟨d, before, -, hposts⟩ := h.posted hr hi
  unfold Event.posts at hposts
  split at hposts
  · split at hposts
    · obtain rfl := List.mem_singleton.mp hposts
      exact (hsm _ _).1
    · cases hposts
  · split at hposts
    · obtain rfl := List.mem_singleton.mp hposts
      exact (hsm _ _).2
    · cases hposts
  · cases hposts

/-- **What a run sends can be read back**, while it is not too long. -/
theorem Reachable.transmissible (hpb : pb.WireFormat) (hc : ∀ s ∈ c.configuration, s.WellTyped)
    (hsm : ShortAnswers SM) (hr : Reachable c σ) (hcommands : ∀ msg, Submitted σ.trace msg → ShortCommand msg)
    (hlen : σ.trace.length < 2 ^ 31) (hp : Sent σ.trace p) : p.rpc.Transmissible pb := by
  have hsrc : p.src.WellTyped := hc _ (hr.src_mem hp)
  have hnumbers := numbers_counted hr hp
  cases hm : p.rpc with
  | requestVote rv =>
    have hserver : rv.server = p.src := (hr.rv_sent hp hm).server
    rw [hm] at hnumbers
    have hint : ∀ v ∈ (Rpc.requestVote rv).numbers, IsInt32 v := fun v hv => (hnumbers v hv).isInt32 hlen
    rw [← hserver] at hsrc
    exact transmissible_requestVote hpb ⟨hint _ (by simp [Rpc.numbers]), hint _ (by simp [Rpc.numbers]),
      hint _ (by simp [Rpc.numbers]), hint _ (by simp [Rpc.numbers]), hsrc.ip, hsrc.port⟩ hsrc
  | appendEntry ae =>
    obtain ⟨n, hsent⟩ := hr.ae_sent hp hm
    have hserver : ae.server = p.src := hsent.server
    have hsubmitted := hr.ae_submitted hp hm
    rw [hm] at hnumbers
    have hint : ∀ v ∈ (Rpc.appendEntry ae).numbers, IsInt32 v := fun v hv => (hnumbers v hv).isInt32 hlen
    rw [← hserver] at hsrc
    have hentries : ∀ entry ∈ ae.entry, entry.WellTyped := fun entry hentry =>
      ⟨hint _ (by simp only [Rpc.numbers, List.mem_append, List.mem_flatMap]; exact .inr ⟨entry, hentry, by simp⟩),
        hint _ (by simp only [Rpc.numbers, List.mem_append, List.mem_flatMap]; exact .inr ⟨entry, hentry, by simp⟩),
        (hcommands _ (hsubmitted entry hentry)).bytes⟩
    have hone : ae.entry.length ≤ 1 := by
      rw [hsent.built.entry]
      cases p.sender.entries.log[n]? <;> simp
    exact transmissible_appendEntry hpb ⟨hint _ (by simp [Rpc.numbers]), hint _ (by simp [Rpc.numbers]),
      hint _ (by simp [Rpc.numbers]), hint _ (by simp [Rpc.numbers]), hsrc.ip, hsrc.port, hentries,
      hint _ (by simp [Rpc.numbers])⟩ hsrc hone fun entry hentry =>
        ⟨(hcommands _ (hsubmitted entry hentry)).utf8, (hcommands _ (hsubmitted entry hentry)).short⟩
  | respVote resp =>
    obtain ⟨q, rv, x, hreply⟩ := hr.vote_reply hp hm
    have hserver : resp.server = p.src := hreply.server
    rw [hm] at hnumbers
    have hint : ∀ v ∈ (Rpc.respVote resp).numbers, IsInt32 v := fun v hv => (hnumbers v hv).isInt32 hlen
    rw [← hserver] at hsrc
    exact transmissible_respVote hpb ⟨hint _ (by simp [Rpc.numbers]), hint _ (by simp [Rpc.numbers]), hsrc.ip,
      hsrc.port⟩ hsrc
  | respAppend resp =>
    obtain ⟨q, ae, x, hreply⟩ := hr.ae_reply hp hm
    have hserver : resp.server = p.src := hreply.server
    rw [hm] at hnumbers
    have hint : ∀ v ∈ (Rpc.respAppend resp).numbers, IsInt32 v := fun v hv => (hnumbers v hv).isInt32 hlen
    rw [← hserver] at hsrc
    exact transmissible_respAppend hpb ⟨hint _ (by simp [Rpc.numbers]), hint _ (by simp [Rpc.numbers]), hsrc.ip,
      hsrc.port⟩ hsrc
  | respClientApply res =>
    obtain ⟨σ₀, d, rest, hr₀, -, hst, hpd⟩ := hr.sent hp
    have hsends := hst.sends hr₀ hpd
    rw [hm] at hsends
    cases hsends with
    | respClientApply hi => exact transmissible_respClient (.inl rfl) (hst.callback_short hsm hr₀ hi)
  | respClientQuery res =>
    obtain ⟨σ₀, d, rest, hr₀, -, hst, hpd⟩ := hr.sent hp
    have heffect := (Event.mem_packets.mp hpd).1
    rw [hm] at heffect
    have hi := (hst.outcome hr₀).answers (hst.idle hr₀) heffect
    exact transmissible_respClient (.inr rfl) (hst.callback_short hsm hr₀ hi)
  | clientApply | clientQuery =>
    have := hr.wired.ofServer p hp
    rw [hm] at this
    cases this

end Runs

/-! ## The cluster on bytes -/

/-- A connection, by the server it leads to. -/
structure Link where
  dst : Addr
  id : Nat
deriving DecidableEq

/-- The processes, and the bytes that were written to each connection and not read. -/
structure ByteSystem (SM : Type) where
  nodes : Addr → Node SM
  streams : Link → Bytes
  /-- The number of handlers that have returned. -/
  handled : Nat
  /-- The bodies of the `CLIENT_APPLY`s so far, newest first. -/
  commands : List Bytes

/-- What the calls of a handler write, each to a connection with its server. -/
inductive Writes (pb : Protobuf) : List Effect → (Link → Bytes) → (Link → Bytes) → Prop
  | nil {streams} : Writes pb [] streams streams
  | rpc {dst m frame effects streams streams'} (id : Nat)
    (hframe : RPC.makeRpcCall m.type (m.serialize pb) = some frame)
      (h : Writes pb effects (Function.update streams ⟨dst, id⟩ (streams ⟨dst, id⟩ ++ frame)) streams') :
      Writes pb (.rpc dst m :: effects) streams streams'
  | other {effect effects streams streams'} (hother : effect.call? = none)
    (h : Writes pb effects streams streams') :
      Writes pb (effect :: effects) streams streams'

section ByteSystem

variable {SM : Type} [StateMachine SM]

/-- What a process does without the network. -/
inductive Node.Offers (n : Node SM) : Input → Prop
  | poll (timers) : n.ready = [] → Node.Offers n (.poll timers)
  | timer {handler rest} : n.ready = handler :: rest → Node.Offers n (.timer handler)
  | work {index msg rest} : n.writePool = (index, msg) :: rest → Node.Offers n (.work index msg)
  | read {body client} : (body, client) ∈ n.readPool → Node.Offers n (.read body client)
  | callback {cb rest} : n.posted = cb :: rest → Node.Offers n (.callback cb)

/-- A process whose handler returned `r`. -/
def Node.returned (n : Node SM) (r : RaftServer) : Node SM :=
  { n with
    raft := r.taken
    writePool := n.writePool ++ r.effects.filterMap Effect.task?
    readPool := n.readPool ++ r.effects.filterMap Effect.query? }

namespace ByteSystem

def raft (w : ByteSystem SM) (s : Addr) : RaftServer := (w.nodes s).raft

def start (c : Cluster) : ByteSystem SM where
  nodes s := ⟨RaftServer.start s c.configuration, [], [], [], [], StateMachine.initial⟩
  streams _ := []
  handled := 0
  commands := []

/-- The system once a handler of `s` returned `r`, where `n` is the process it ran in. -/
def returned (w : ByteSystem SM) (s : Addr) (n : Node SM) (r : RaftServer) (streams : Link → Bytes)
    (commands : List Bytes) : ByteSystem SM where
  nodes := Function.update w.nodes s (n.returned r)
  streams := streams
  handled := w.handled + 1
  commands := commands ++ w.commands

end ByteSystem

/-- One thing that happens. -/
inductive ByteStep (c : Cluster) (pb : Protobuf) (w : ByteSystem SM) : ByteSystem SM → Prop
  /-- `process_msg` on the next frame of a connection, whose body has arrived with its header. -/
  | receive {k type msg rest peer r streams} (hdst : k.dst ∈ c.configuration)
      (hreceive : Connection.receive (w.streams k) = some ((type, msg), rest))
      (hreact : (w.raft k.dst).reactToIncomingBytes pb type msg peer = .ok r)
      (hwrites : Writes pb r.effects (Function.update w.streams k rest) streams) :
      ByteStep c pb w (w.returned k.dst (w.nodes k.dst) r streams [])
  /-- A frame of a client, from a stream of its own. -/
  | clientApply {s stream msg rest peer r streams} (hs : s ∈ c.configuration)
      (hreceive : Connection.receive stream = some ((.clientApply, msg), rest))
      (hreact : (w.raft s).reactToIncomingBytes pb .clientApply msg peer = .ok r)
      (hwrites : Writes pb r.effects w.streams streams) : ByteStep c pb w
      (w.returned s (w.nodes s) r streams [msg])
  | clientQuery {s stream msg rest peer r streams} (hs : s ∈ c.configuration)
      (hreceive : Connection.receive stream = some ((.clientQuery, msg), rest))
      (hreact : (w.raft s).reactToIncomingBytes pb .clientQuery msg peer = .ok r)
      (hwrites : Writes pb r.effects w.streams streams) : ByteStep c pb w (w.returned s (w.nodes s) r streams [])
  | process {s input r streams} (hs : s ∈ c.configuration) (hoffers : (w.nodes s).Offers input)
      (hhandle : (w.raft s).handle input = .ok r) (hwrites : Writes pb r.effects w.streams streams) :
      ByteStep c pb w (w.returned s ((w.nodes s).take input) r streams [])
  /-- A connection breaks. -/
  | lost (k : Link) : ByteStep c pb w { w with streams := Function.update w.streams k [] }

/-- The states of the runs on bytes in which every handler returns. -/
inductive ByteReachable (c : Cluster) (pb : Protobuf) : ByteSystem SM → Prop
  | start : ByteReachable c pb (ByteSystem.start c)
  | step {w w' : ByteSystem SM} : ByteReachable c pb w → ByteStep c pb w w' → ByteReachable c pb w'

/-! ## The messages in the bytes -/

/-- The packets on a connection; a packet whose connection broke is on none. -/
def packetsOn (k : Link) (sent : List (Option Link × Packet)) : List Packet :=
  sent.filterMap fun (on, p) => if on = some k then some p else none

/-- The bytes of packets. -/
def framesOf (pb : Protobuf) (packets : List Packet) : Bytes := packets.flatMap fun p => p.rpc.frame pb

/-- `sent` says which packet was written to which connection, and the streams are what it says. -/
structure Carries (pb : Protobuf) (streams : Link → Bytes) (sent : List (Option Link × Packet)) : Prop where
  dst : ∀ k p, (some k, p) ∈ sent → p.dst = k.dst
  streams : ∀ k, streams k = framesOf pb (packetsOn k sent)

/-- The two systems are in the same state. -/
structure SameState (c : Cluster) (pb : Protobuf) (w : ByteSystem SM) (σ : System SM) : Prop where
  reachable : Reachable c σ
  nodes : σ.nodes = w.nodes
  handled : σ.trace.length = w.handled
  commands : ∀ msg, Submitted σ.trace msg → ∃ bs ∈ w.commands, msg = text bs
  carries : ∃ sent : List (Option Link × Packet), sent.map Prod.snd = σ.inflight ∧ Carries pb w.streams sent

end ByteSystem

section Carries

variable {pb : Protobuf} {streams streams' : Link → Bytes} {sent sent' : List (Option Link × Packet)} {k : Link}
  {p : Packet}

@[simp] theorem packetsOn_nil : packetsOn k [] = [] := rfl

@[simp] theorem packetsOn_append : packetsOn k (sent ++ sent') = packetsOn k sent ++ packetsOn k sent' :=
  List.filterMap_append

@[simp] theorem packetsOn_cons (on : Option Link) :
    packetsOn k ((on, p) :: sent) = if on = some k then p :: packetsOn k sent else packetsOn k sent := by
  unfold packetsOn
  split <;> simp [*]

@[simp] theorem framesOf_nil : framesOf pb [] = [] := rfl

@[simp] theorem framesOf_cons (packets : List Packet) :
    framesOf pb (p :: packets) = p.rpc.frame pb ++ framesOf pb packets :=
  List.flatMap_cons

@[simp] theorem framesOf_append (packets packets' : List Packet) :
    framesOf pb (packets ++ packets') = framesOf pb packets ++ framesOf pb packets' := List.flatMap_append

theorem mem_packetsOn : p ∈ packetsOn k sent ↔ (some k, p) ∈ sent := by
  unfold packetsOn
  rw [List.mem_filterMap]
  constructor
  · rintro ⟨⟨on, q⟩, hm, hq⟩
    simp only [Option.ite_none_right_eq_some, Option.some.injEq] at hq
    obtain ⟨rfl, rfl⟩ := hq
    exact hm
  · intro hm
    exact ⟨_, hm, by simp⟩

/-- The packet at the front of a connection. -/
theorem exists_front (h : packetsOn k sent ≠ []) :
    ∃ pre p post, sent = pre ++ (some k, p) :: post ∧ packetsOn k pre = [] := by
  induction sent with
  | nil => exact absurd rfl h
  | cons t sent ih =>
    obtain ⟨on, p⟩ := t
    by_cases hon : on = some k
    · exact ⟨[], p, sent, by rw [hon]; rfl, rfl⟩
    · rw [packetsOn_cons, if_neg hon] at h
      obtain ⟨pre, q, post, rfl, hpre⟩ := ih h
      exact ⟨(on, p) :: pre, q, post, rfl, by rw [packetsOn_cons, if_neg hon, hpre]⟩

theorem packetsOn_sublist (k : Link) (sent : List (Option Link × Packet)) :
    (packetsOn k sent).Sublist (sent.map Prod.snd) := by
  induction sent with
  | nil => exact .slnil
  | cons t sent ih =>
    obtain ⟨on, p⟩ := t
    rw [packetsOn_cons, List.map_cons]
    split
    · exact ih.cons_cons p
    · exact ih.cons p

/-- Frames that fit are read back one by one. -/
theorem receiveAll_framesOf {packets : List Packet} (h : ∀ p ∈ packets, p.rpc.Transmissible pb) :
    Connection.receiveAll (framesOf pb packets) = some
    (packets.map fun p => (p.rpc.type, p.rpc.serialize pb)) := by
  have hframes : (packets.map fun p => (p.rpc.type, p.rpc.serialize pb)).mapM (fun m => RPC.makeRpcCall m.1 m.2) =
      some (packets.map fun p => p.rpc.frame pb) := by
    induction packets with
    | nil => rfl
    | cons p packets ih =>
      rw [List.map_cons, List.mapM_cons, ih fun q hq => h q (by simp [hq]), Rpc.makeRpcCall_eq]
      rfl
  have hall := Connection.receiveAll_flatten (fun m hm => ?_) hframes
  · rw [← hall, framesOf, List.flatMap_def]
  · obtain ⟨p, hp, rfl⟩ := List.mem_map.mp hm
    exact (h p hp).1

/-- What a handler writes is its packets. -/
theorem Writes.carries (e : Event) {effects : List Effect} (h : Writes pb effects streams streams') :
    ∃ sent, sent.map Prod.snd = effects.filterMap (Effect.packet? e) ∧
    (∀ k p, (some k, p) ∈ sent → p.dst = k.dst) ∧
      ∀ k, streams' k = streams k ++ framesOf pb (packetsOn k sent) := by
  induction h with
  | nil => exact ⟨[], rfl, by simp, by simp⟩
  | @rpc dst m frame effects streams streams' id hframe _ ih =>
    obtain ⟨sent, hmap, hdst, hstreams⟩ := ih
    rw [Rpc.makeRpcCall_eq, Option.some.injEq] at hframe
    subst hframe
    refine ⟨(some ⟨dst, id⟩, ⟨e.server, dst, m, e.input.call, e.after⟩) :: sent, ?_, fun k p hm => ?_, fun k => ?_⟩
    · rw [List.map_cons, hmap, List.filterMap_cons_some]
      rfl
    · rcases List.mem_cons.mp hm with heq | hm
      · cases heq
        rfl
      · exact hdst k p hm
    · rw [hstreams k]
      by_cases hk : k = ⟨dst, id⟩
      · subst hk
        simp
      · have hne : ¬ (⟨dst, id⟩ : Link) = k := fun h => hk h.symm
        simp [hk, hne]
  | @other effect effects streams streams' hother _ ih =>
    obtain ⟨sent, hmap, hdst, hstreams⟩ := ih
    refine ⟨sent, ?_, hdst, hstreams⟩
    have hnone : Effect.packet? e effect = none := by
      cases effect with
      | rpc => cases hother
      | _ => rfl
    rw [hmap, List.filterMap_cons_none hnone]

/-- A handler's packets are behind those that were there. -/
theorem Carries.writes (h : Carries pb streams sent) (e : Event) {effects : List Effect}
    (hwrites : Writes pb effects streams streams') : ∃ sent', (sent ++ sent').map Prod.snd =
      sent.map Prod.snd ++ effects.filterMap (Effect.packet? e) ∧ Carries pb streams' (sent ++ sent') := by
  obtain ⟨sent', hmap, hdst, hstreams⟩ := hwrites.carries e
  refine ⟨sent', by rw [List.map_append, hmap], fun k p hm => ?_, fun k => ?_⟩
  · rcases List.mem_append.mp hm with hm | hm
    · exact h.dst k p hm
    · exact hdst k p hm
  · rw [hstreams k, h.streams k, packetsOn_append, framesOf_append]

/-- **What is read from a connection is the packet at its front.** -/
theorem Carries.receive (h : Carries pb streams sent) (hsent : ∀ q ∈ sent.map Prod.snd, q.rpc.Transmissible pb)
    {type : RpcType} {msg rest : Bytes} (hreceive : Connection.receive (streams k) = some ((type, msg), rest)) :
    ∃ pre p post, sent = pre ++ (some k, p) :: post ∧ p.dst = k.dst ∧ type = p.rpc.type ∧
    msg = p.rpc.serialize pb ∧
      Carries pb (Function.update streams k rest) (pre ++ post) := by
  have hne : packetsOn k sent ≠ [] := by
    intro hempty
    rw [h.streams k, hempty] at hreceive
    cases hreceive
  obtain ⟨pre, p, post, rfl, hpre⟩ := exists_front hne
  have hstream : streams k = p.rpc.frame pb ++ framesOf pb (packetsOn k post) := by
    rw [h.streams k]
    simp [hpre]
  have htransmissible := hsent p (by simp)
  rw [hstream, htransmissible.receive] at hreceive
  simp only [Option.some.injEq, Prod.mk.injEq] at hreceive
  obtain ⟨⟨rfl, rfl⟩, rfl⟩ := hreceive
  refine ⟨pre, p, post, rfl, h.dst k p (by simp), rfl, rfl, fun k' q hm => ?_, fun k' => ?_⟩
  · refine h.dst k' q ?_
    rcases List.mem_append.mp hm with hm | hm
    · exact List.mem_append_left _ hm
    · exact List.mem_append_right _ (List.mem_cons_of_mem _ hm)
  · by_cases hk : k' = k
    · subst hk
      simp [hpre]
    · have hk' : ¬ k = k' := fun h => hk h.symm
      rw [Function.update_of_ne hk, h.streams k']
      simp [hk']

/-- The packets of a connection are on none. -/
def takeOff (k : Link) (sent : List (Option Link × Packet)) : List (Option Link × Packet) :=
  sent.map fun t => (if t.1 = some k then none else t.1, t.2)

theorem packetsOn_takeOff (k k' : Link) (sent : List (Option Link × Packet)) :
    packetsOn k' (takeOff k sent) = if k' = k then [] else packetsOn k' sent := by
  induction sent with
  | nil => simp [takeOff]
  | cons t sent ih =>
    obtain ⟨on, p⟩ := t
    have hcons : takeOff k ((on, p) :: sent) = (if on = some k then none else on, p) :: takeOff k sent := rfl
    rw [hcons, packetsOn_cons, ih, packetsOn_cons]
    by_cases hk : k' = k
    · subst hk
      by_cases hon : on = some k' <;> simp [hon]
    · have hk' : ¬ k = k' := fun h => hk h.symm
      by_cases hon : on = some k
      · simp [hon, hk, hk']
      · simp [hon, hk]

/-- A connection that breaks takes its packets with it. -/
theorem Carries.lost (h : Carries pb streams sent) (k : Link) :
    Carries pb (Function.update streams k []) (takeOff k sent) := by
  refine ⟨fun k' p hm => ?_, fun k' => ?_⟩
  · rw [← mem_packetsOn, packetsOn_takeOff] at hm
    split at hm
    · cases hm
    · exact h.dst k' p (mem_packetsOn.mp hm)
  · rw [packetsOn_takeOff]
    by_cases hk : k' = k
    · subst hk
      simp
    · rw [Function.update_of_ne hk, if_neg hk]
      exact h.streams k'

theorem snd_takeOff (k : Link) (sent : List (Option Link × Packet)) :
    (takeOff k sent).map Prod.snd = sent.map Prod.snd := by
  simp [takeOff, Function.comp_def]

end Carries

/-! ## The refinement -/

section Refinement

variable {SM : Type} [StateMachine SM] {c : Cluster} {pb : Protobuf} {w w' : ByteSystem SM} {σ : System SM}
  {s : Addr}

omit [StateMachine SM] in
theorem Node.Offers.offers {input : Input} (h : (σ.nodes s).Offers input) : σ.Offers s input σ.inflight := by
  cases h with
  | poll timers hready => exact .poll timers hready
  | timer hready => exact .timer hready
  | work hpool => exact .work hpool
  | read hpool => exact .read hpool
  | callback hposted => exact .callback hposted

theorem SameState.start (c : Cluster) (pb : Protobuf) :
    SameState c pb (ByteSystem.start c : ByteSystem SM) (System.start c) where
  reachable := .start
  nodes := rfl
  handled := rfl
  commands := by simp [Submitted, System.start]
  carries := ⟨[], rfl, by simp, fun _ => rfl⟩

/-- A handler returns the same on both sides. -/
theorem SameState.returned (h : SameState c pb w σ) {input : Input} {r : RaftServer} {rest : List Packet}
    {commands : List Bytes} {streams streams' : Link → Bytes} {sent : List (Option Link × Packet)}
    (hs : s ∈ c.configuration) (hoffers : σ.Offers s input rest) (hhandle : (σ.raft s).handle input = .ok r)
    (hcommands : ∀ client msg, input = .clientApply client msg → ∃ bs ∈ commands, msg = text bs)
    (hsent : sent.map Prod.snd = rest) (hcarries : Carries pb streams sent)
    (hwrites : Writes pb r.effects streams streams') :
    SameState c pb (w.returned s ((w.nodes s).take input) r streams' commands)
    (σ.next (σ.event s input r) rest) := by
  obtain ⟨sent', hmap, hcarries'⟩ := hcarries.writes (σ.event s input r) hwrites
  refine ⟨.step h.reachable hs hoffers hhandle, ?_, ?_, ?_, sent ++ sent', ?_, hcarries'⟩
  · rw [System.next, ByteSystem.returned, h.nodes]
    rfl
  · rw [System.trace_next, List.length_cons, h.handled]
    rfl
  · rintro msg ⟨d, hd, client, hi⟩
    rcases List.mem_cons.mp hd with rfl | hd
    · obtain ⟨bs, hbs, hmsg⟩ := hcommands client msg hi
      exact ⟨bs, List.mem_append_left _ hbs, hmsg⟩
    · obtain ⟨bs, hbs, hmsg⟩ := h.commands msg ⟨d, hd, client, hi⟩
      exact ⟨bs, List.mem_append_right _ hbs, hmsg⟩
  · rw [hmap, hsent]
    rfl

/-- **One step on bytes is one of the cluster**, or none where a connection breaks. -/
theorem SameState.step (hsent : ∀ p, Sent σ.trace p → p.rpc.Transmissible pb) (h : SameState c pb w σ)
    (hst : ByteStep c pb w w') : ∃ σ', SameState c pb w' σ' := by
  obtain ⟨sent, hinflight, hcarries⟩ := h.carries
  have hraft : ∀ s, w.raft s = σ.raft s := fun s => by rw [System.raft, h.nodes]; rfl
  cases hst with
  | @receive k type msg rest peer r streams hdst hreceive hreact hwrites =>
    have htransmissible : ∀ q ∈ sent.map Prod.snd, q.rpc.Transmissible pb := fun q hq =>
      hsent q (h.reachable.wired.sent q (hinflight ▸ hq))
    obtain ⟨pre, p, post, hsplit, hpdst, rfl, rfl, hcarries'⟩ := hcarries.receive htransmissible hreceive
    have hin : σ.inflight = pre.map Prod.snd ++ p :: post.map Prod.snd := by simp [← hinflight, hsplit]
    rw [hraft, (htransmissible p (by simp [hsplit])).2 _ peer p.src] at hreact
    exact ⟨_, h.returned hdst (.message hin hpdst) hreact (by simp) List.map_append hcarries' hwrites⟩
  | @clientApply s stream msg rest peer r streams hs hreceive hreact hwrites =>
    rw [hraft] at hreact
    refine ⟨_, h.returned hs (.clientApply peer (text msg)) hreact
      (fun client body hi => ?_) hinflight hcarries hwrites⟩
    obtain ⟨-, rfl⟩ := Input.clientApply.inj hi
    exact ⟨msg, by simp, rfl⟩
  | @clientQuery s stream msg rest peer r streams hs hreceive hreact hwrites =>
    rw [hraft] at hreact
    exact ⟨_, h.returned hs (.clientQuery peer (text msg)) hreact (by simp) hinflight hcarries hwrites⟩
  | @process s input r streams hs hoffers hhandle hwrites =>
    rw [hraft] at hhandle
    rw [← h.nodes] at hoffers
    have hnot : ∀ client msg, input ≠ .clientApply client msg := by
      rintro client msg rfl
      cases hoffers
    exact ⟨_, h.returned hs hoffers.offers hhandle
      (fun client msg hi => absurd hi (hnot client msg)) hinflight hcarries
      hwrites⟩
  | lost k =>
    exact ⟨σ, h.reachable, h.nodes, h.handled, h.commands, takeOff k sent, by rw [snd_takeOff, hinflight],
      hcarries.lost k⟩

theorem SameState.transmissible (h : SameState c pb w σ) (hpb : pb.WireFormat)
    (hc : ∀ s ∈ c.configuration, s.WellTyped) (hsm : ShortAnswers SM)
    (hcommands : ∀ msg ∈ w.commands, Utf8.Valid msg ∧ msg.length ≤ 5000)
    (hhandled : w.handled < 2 ^ 31) {p : Packet} (hp : Sent σ.trace p) : p.rpc.Transmissible pb := by
  refine h.reachable.transmissible hpb hc hsm (fun msg hm => ?_) (h.handled ▸ hhandled) hp
  obtain ⟨bs, hbs, rfl⟩ := h.commands msg hm
  obtain ⟨hutf8, hshort⟩ := hcommands bs hbs
  have hlength : (text bs).length = bs.length := by rw [← length_ofText, Bytes.ofText_text]
  exact ⟨Bytes.isText_text bs, by rwa [Bytes.ofText_text], by rwa [hlength]⟩

/-- What a step on bytes counts. -/
theorem ByteStep.counts (h : ByteStep c pb w w') : w.handled ≤ w'.handled ∧ w.commands ⊆ w'.commands := by
  cases h with
  | lost k => exact ⟨Nat.le_refl _, fun _ h => h⟩
  | _ => exact ⟨Nat.le_succ _, fun _ h => List.mem_append_right _ h⟩

theorem ByteReachable.sameState (hpb : pb.WireFormat) (hc : ∀ s ∈ c.configuration, s.WellTyped)
    (hsm : ShortAnswers SM) (hw : ByteReachable c pb w)
    (hcommands : ∀ msg ∈ w.commands, Utf8.Valid msg ∧ msg.length ≤ 5000)
    (hhandled : w.handled < 2 ^ 31) : ∃ σ, SameState c pb w σ := by
  induction hw with
  | start => exact ⟨_, .start c pb⟩
  | @step w w' hw hst ih =>
    obtain ⟨hle, hsubset⟩ := hst.counts
    have hlt : w.handled < 2 ^ 31 := Nat.lt_of_le_of_lt hle hhandled
    have hbefore : ∀ msg ∈ w.commands, Utf8.Valid msg ∧ msg.length ≤ 5000 :=
      fun msg hm => hcommands msg (hsubset hm)
    obtain ⟨σ, h⟩ := ih hbefore hlt
    exact h.step (fun p hp => h.transmissible hpb hc hsm hbefore hlt hp) hst

/-- **On bytes the cluster is the cluster of `MyRaft.Cluster`**: while fewer than 2^31 handlers have run, and
the commands and results are of a size that a message can have, each state is one of a run of it. A
connection holds whole messages, each of which is read back as it was sent. -/
theorem bytes_refine (hpb : pb.WireFormat) (hc : ∀ s ∈ c.configuration, s.WellTyped) (hsm : ShortAnswers SM)
    (hw : ByteReachable c pb w) (hcommands : ∀ msg ∈ w.commands, Utf8.Valid msg ∧ msg.length ≤ 5000)
    (hhandled : w.handled < 2 ^ 31) :
    ∃ σ : System SM, Reachable c σ ∧ σ.nodes = w.nodes ∧ ∀ k : Link, ∃ packets : List Packet,
      packets.Sublist σ.inflight ∧ (∀ p ∈ packets, p.dst = k.dst ∧ p.rpc.Transmissible pb) ∧
        Connection.receiveAll (w.streams k) = some (packets.map fun p => (p.rpc.type, p.rpc.serialize pb)) := by
  obtain ⟨σ, h⟩ := hw.sameState hpb hc hsm hcommands hhandled
  obtain ⟨sent, hinflight, hcarries⟩ := h.carries
  refine ⟨σ, h.reachable, h.nodes, fun k => ⟨packetsOn k sent, hinflight ▸ packetsOn_sublist k sent, ?_⟩⟩
  have hon : ∀ p ∈ packetsOn k sent, p.dst = k.dst ∧ p.rpc.Transmissible pb := fun p hp => by
    have hflying : p ∈ σ.inflight := hinflight ▸ (packetsOn_sublist k sent).subset hp
    exact ⟨hcarries.dst k p (mem_packetsOn.mp hp),
      h.transmissible hpb hc hsm hcommands hhandled (h.reachable.wired.sent p hflying)⟩
  refine ⟨hon, ?_⟩
  rw [hcarries.streams k]
  exact receiveAll_framesOf fun p hp => (hon p hp).2

end Refinement

/-- What A sends B when it campaigns. -/
def firstRv : RequestVoteRpc := ⟨1, -1, 0, 0, serverA.ip, serverA.port⟩

theorem threeServers_wellTyped : ∀ s ∈ threeServers.configuration, s.WellTyped := by
  intro s hs
  simp only [threeServers, List.mem_cons, List.not_mem_nil, or_false] at hs
  rcases hs with rfl | rfl | rfl <;> exact ⟨by decide, by decide, by decide, by decide⟩

/-- A campaigns, and B reads its RV. -/
theorem campaignOnBytes_reachable : ∃ w : ByteSystem Unit, ByteReachable threeServers protobuf w ∧ w.handled = 3 ∧
    w.commands = [] ∧ (w.raft serverB).alreadyVoted = true := by
  have hrv : (Rpc.requestVote firstRv).Transmissible protobuf :=
    transmissible_requestVote protobuf_wireFormat ⟨by decide, by decide, by decide, by decide, by decide,
      by decide⟩
      (threeServers_wellTyped serverA (by decide))
  have hstart : ByteReachable threeServers protobuf (ByteSystem.start threeServers : ByteSystem Unit) := .start
  have hpolled := hstart.step
    (.process (s := serverA) (by decide) (.poll [.candidate] rfl) rfl .nil)
  have hcampaigned := hpolled.step (.process (s := serverA) (by decide) (.timer rfl) rfl
    (.rpc 0 (Rpc.makeRpcCall_eq _ _) (.rpc 0 (Rpc.makeRpcCall_eq _ _) .nil)))
  have hread := hrv.receive []
  rw [List.append_nil] at hread
  have hreceived := hcampaigned.step (.receive (k := ⟨serverB, 0⟩) (by decide) hread
    ((hrv.2 _ serverA serverA).trans rfl) (.rpc 0 (Rpc.makeRpcCall_eq _ _) .nil))
  exact ⟨_, hreceived, rfl, rfl, rfl⟩

/-- They are in the state of a run of `MyRaft.Cluster`. -/
theorem campaignOnBytes_refines : ∃ w : ByteSystem Unit, (w.raft serverB).alreadyVoted = true ∧
    ∃ σ : System Unit, Reachable threeServers σ ∧ σ.nodes = w.nodes := by
  obtain ⟨w, hw, hhandled, hcommands, hvoted⟩ := campaignOnBytes_reachable
  obtain ⟨σ, hr, hnodes, -⟩ := bytes_refine protobuf_wireFormat threeServers_wellTyped
    (fun _ _ => ⟨(by decide : "".length + 1 ≤ Connection.dataSize),
    (by decide : "".length + 1 ≤ Connection.dataSize)⟩) hw (by simp [hcommands]) (by rw [hhandled]; decide)
  exact ⟨w, hvoted, σ, hr, hnodes⟩

end MyRaft
