/-
The frames of `rpc/rpc.cpp` and `rpc/connection.cpp`: four characters of length
and a body, of which the first character is the type of the RPC.

The sender writes any length into the header. The receiver reads a body into
`data_`, and `asio::buffer` clamps the read to the size of that array, so a
longer body leaves its end in the stream, where the next header is expected.

A `char` is a byte. `header_` and `data_` are what was last read into them; how
reads share the socket is `MyRaft.Framing`.
-/
import MyRaft.Lib.Decimal

namespace MyRaft

open Decimal

/-- `RPC_TYPE`. -/
inductive RpcType where
  | requestVote
  | appendEntry
  | respVote
  | respAppend
  | clientApply
  | clientQuery
  | respClientApply
  | respClientQuery
  | error
deriving DecidableEq, Repr

namespace RpcType

/-- The value of the enumerator. -/
def toNat : RpcType → Nat
  | .requestVote => 0
  | .appendEntry => 1
  | .respVote => 2
  | .respAppend => 3
  | .clientApply => 4
  | .clientQuery => 5
  | .respClientApply => 6
  | .respClientQuery => 7
  | .error => 8

/-- The types `rpc_to_str` knows. It throws for `ERROR`, and for a value that is no enumerator. -/
def known? : Int → Option RpcType
  | 0 => some .requestVote
  | 1 => some .appendEntry
  | 2 => some .respVote
  | 3 => some .respAppend
  | 4 => some .clientApply
  | 5 => some .clientQuery
  | 6 => some .respClientApply
  | 7 => some .respClientQuery
  | _ => none

theorem known?_toNat {type : RpcType} (h : type ≠ .error) : known? type.toNat = some type := by
  cases type <;> first | rfl | exact absurd rfl h

theorem toNat_lt (type : RpcType) : type.toNat < 2 ^ 31 := by cases type <;> decide

/-- The type is one character of the body. -/
theorem length_decimal (type : RpcType) : (decimal type.toNat).length = 1 := by cases type <;> decide

end RpcType

/-! ## The sender -/

namespace RPC

/-- `sprintf` writes a length of five digits past the end of `header`; the
first four are what is sent. -/
def msgEncode (msg : Bytes) : Bytes := (padded 4 msg.length).take 4 ++ msg

/-- What `make_rpc_call` hands to the connection; its log line throws for a type it does not know. -/
def makeRpcCall (rpcType : RpcType) (rpcMsg : Bytes) : Option Bytes :=
  if rpcType = .error then none else some (msgEncode (decimal rpcType.toNat ++ rpcMsg))

/-! ## The receiver -/

/-- `process_msg`, up to the callback. Without a body the length of the message,
`bytes_transferred - len_type`, underflows. -/
def processMsg (data : Bytes) : Option (RpcType × Bytes) :=
  match data with
  | [] => none
  | charRpcType :: msg => (RpcType.known? (atoi [charRpcType])).map (·, msg)

end RPC

namespace Connection

/-- The size of `data_`. -/
def dataSize : Nat := 1024 * 5

/-- The size of the read `read_body` starts: `msg_len` as a `size_t`, clamped to `data_`. -/
def bodySize (header : Bytes) : Nat :=
  let msgLen := atoi header
  if msgLen < 0 then dataSize else min msgLen.toNat dataSize

/-- A header and the body it announces, and the stream after them. -/
def readFrame (stream : Bytes) : Option (Bytes × Bytes) :=
  if stream.length < 4 then none
  else
    let size := bodySize (stream.take 4)
    if (stream.drop 4).length < size then none
    else some ((stream.drop 4).take size, (stream.drop 4).drop size)

/-- The message of the frame at the front of the stream, and the stream after it. -/
def receive (stream : Bytes) : Option ((RpcType × Bytes) × Bytes) := do
  let (body, rest) ← readFrame stream
  let msg ← RPC.processMsg body
  return (msg, rest)

theorem bodySize_le (header : Bytes) : bodySize header ≤ dataSize := by
  simp only [bodySize]
  split
  · exact Nat.le_refl _
  · exact Nat.min_le_right _ _

/-- A body is no longer than `data_`, and what follows it is what follows it in the stream. -/
theorem readFrame_eq_some {stream body rest : Bytes} (h : readFrame stream = some (body, rest)) :
    body.length ≤ dataSize ∧ stream = stream.take 4 ++ body ++ rest ∧ 4 ≤ stream.length := by
  simp only [readFrame] at h
  split at h
  · cases h
  · split at h
    · cases h
    · rename_i hlen hsize
      obtain ⟨rfl, rfl⟩ := Prod.mk.inj (Option.some.inj h)
      refine ⟨?_, ?_, by omega⟩
      · exact Nat.le_trans (List.length_take_le _ _) (bodySize_le _)
      · rw [List.append_assoc, List.take_append_drop, List.take_append_drop]

theorem receive_eq_some {stream rest : Bytes} {msg : RpcType × Bytes} :
    receive stream = some (msg, rest) ↔ ∃ body, readFrame stream = some (body, rest) ∧
    RPC.processMsg body = some msg := by
  simp only [receive, Option.bind_eq_bind, Option.bind_eq_some_iff, Option.pure_def, Option.some.injEq,
    Prod.mk.injEq]
  constructor
  · rintro ⟨⟨body, rest'⟩, hf, msg', hp, rfl, rfl⟩
    exact ⟨body, hf, hp⟩
  · rintro ⟨body, hf, hp⟩
    exact ⟨(body, rest), hf, msg, hp, rfl, rfl⟩

theorem receive_lt {stream rest : Bytes} {msg : RpcType × Bytes} (h : receive stream = some (msg, rest)) :
    rest.length < stream.length := by
  obtain ⟨body, hf, -⟩ := receive_eq_some.mp h
  obtain ⟨-, heq, hlen⟩ := readFrame_eq_some hf
  have := congrArg List.length heq
  simp only [List.length_append, List.length_take] at this
  omega

/-- The messages of a stream of whole frames. -/
def receiveAll (stream : Bytes) : Option (List (RpcType × Bytes)) :=
  if stream = [] then some []
  else
    match h : receive stream with
    | none => none
    | some (msg, rest) =>
      have := receive_lt h
      (msg :: ·) <$> receiveAll rest
termination_by stream.length

end Connection

/-! ## The round trip -/

namespace RPC

theorem makeRpcCall_eq_some {type : RpcType} {msg frame : Bytes} :
    makeRpcCall type msg = some frame ↔ type ≠ .error ∧ frame = msgEncode (decimal type.toNat ++ msg) := by
  simp only [makeRpcCall]
  split
  · simp_all
  · simp_all [eq_comm]

/-- A header is four characters. -/
theorem length_header (n : Nat) : ((padded 4 n).take 4).length = 4 := by
  rw [List.length_take]
  exact Nat.min_eq_left (le_length_padded 4 n)

theorem length_msgEncode (msg : Bytes) : (msgEncode msg).length = 4 + msg.length := by
  rw [msgEncode, List.length_append, length_header]

theorem header_eq {n : Nat} (hn : n < 10000) : (padded 4 n).take 4 = padded 4 n :=
  List.take_of_length_le (Nat.le_of_eq (length_padded (by decide) hn))

theorem processMsg_body {type : RpcType} (h : type ≠ .error) (msg : Bytes) :
    processMsg (decimal type.toNat ++ msg) = some (type, msg) := by
  cases hd : decimal type.toNat with
  | nil => exact absurd hd (decimal_ne_nil _)
  | cons b bs =>
    obtain rfl : bs = [] := by
      have := type.length_decimal
      rw [hd] at this
      exact List.eq_nil_of_length_eq_zero (Nat.succ.inj this)
    rw [List.singleton_append, processMsg, ← hd, atoi_decimal type.toNat_lt, RpcType.known?_toNat h]
    rfl

end RPC

namespace Connection

theorem bodySize_padded {n : Nat} (hn : n ≤ dataSize) : bodySize ((padded 4 n).take 4) = n := by
  have hlt : n < 10000 := Nat.lt_of_le_of_lt hn (by decide)
  rw [bodySize, RPC.header_eq hlt, atoi_padded 4 (by omega)]
  simp only [Int.toNat_natCast]
  rw [if_neg (by omega), Nat.min_eq_left hn]

/-- **A body that fits `data_` is read back, and the stream is at the next frame.** -/
theorem readFrame_msgEncode {body : Bytes} (hlen : body.length ≤ dataSize) (rest : Bytes) :
    readFrame (RPC.msgEncode body ++ rest) = some (body, rest) := by
  have hstream : RPC.msgEncode body ++ rest = (padded 4 body.length).take 4 ++ (body ++ rest) := by
    rw [RPC.msgEncode, List.append_assoc]
  have htake : (RPC.msgEncode body ++ rest).take 4 = (padded 4 body.length).take 4 := by
    rw [hstream, List.take_append_of_le_length (Nat.le_of_eq (RPC.length_header _).symm),
      List.take_of_length_le (Nat.le_of_eq (RPC.length_header _))]
  have hdrop : (RPC.msgEncode body ++ rest).drop 4 = body ++ rest := by
    rw [hstream, List.drop_left' (RPC.length_header _)]
  have h4 : ¬ (RPC.msgEncode body ++ rest).length < 4 := by
    rw [List.length_append, RPC.length_msgEncode]
    omega
  rw [readFrame, if_neg h4, htake, hdrop, bodySize_padded hlen, if_neg (by simp)]
  rw [List.take_left' rfl, List.drop_left' rfl]

theorem receive_msgEncode {type : RpcType} (h : type ≠ .error) {msg : Bytes} (hlen : msg.length + 1 ≤ dataSize)
    (rest : Bytes) : receive (RPC.msgEncode (decimal type.toNat ++ msg) ++ rest) = some ((type, msg), rest) := by
  refine receive_eq_some.mpr ⟨_, readFrame_msgEncode ?_ rest, RPC.processMsg_body h msg⟩
  rw [List.length_append, type.length_decimal]
  omega

/-- A message that is received fits `data_` with its type. -/
theorem receive_length {stream rest msg : Bytes} {type : RpcType} (h : receive stream = some ((type, msg), rest)) :
    msg.length + 1 ≤ dataSize := by
  obtain ⟨body, hf, hp⟩ := receive_eq_some.mp h
  have hlen := (readFrame_eq_some hf).1
  cases body with
  | nil => cases hp
  | cons b body =>
    simp only [RPC.processMsg, Option.map_eq_some_iff, Prod.mk.injEq] at hp
    obtain ⟨_, -, -, rfl⟩ := hp
    exact hlen

@[simp] theorem receiveAll_nil : receiveAll [] = some [] := by
  rw [receiveAll, if_pos rfl]

theorem receiveAll_cons {stream rest : Bytes} {msg : RpcType × Bytes} (h : receive stream = some (msg, rest)) :
    receiveAll stream = (msg :: ·) <$> receiveAll rest := by
  have hne : stream ≠ [] := by
    rintro rfl
    cases h
  rw [receiveAll, if_neg hne]
  split
  · rename_i hn
    rw [h] at hn
    cases hn
  · rename_i hs
    rw [h] at hs
    obtain ⟨rfl, rfl⟩ := Prod.mk.inj (Option.some.inj hs)
    rfl

theorem receiveAll_length (stream : Bytes) {msgs : List (RpcType × Bytes)} (h : receiveAll stream = some msgs) :
    ∀ msg ∈ msgs, msg.2.length + 1 ≤ dataSize := by
  induction stream using receiveAll.induct generalizing msgs with
  | case1 =>
    rw [receiveAll_nil] at h
    cases h
    nofun
  | case2 stream hne hn =>
    rw [receiveAll, if_neg hne] at h
    split at h
    · cases h
    · rename_i hs
      rw [hn] at hs
      cases hs
  | case3 stream hne msg rest hs _ ih =>
    rw [receiveAll_cons hs, Option.map_eq_map, Option.map_eq_some_iff] at h
    obtain ⟨msgs, hm, rfl⟩ := h
    intro m hmem
    rcases List.mem_cons.mp hmem with rfl | hmem
    · exact receive_length hs
    · exact ih hm m hmem

/-- Frames that fit are received in order. -/
theorem receiveAll_flatten {calls : List (RpcType × Bytes)} (hlen : ∀ m ∈ calls, m.2.length + 1 ≤ dataSize)
    {frames : List Bytes} (h : calls.mapM (fun m => RPC.makeRpcCall m.1 m.2) = some frames) :
    receiveAll frames.flatten = some calls := by
  induction calls generalizing frames with
  | nil =>
    cases h
    exact receiveAll_nil
  | cons call calls ih =>
    simp only [List.mapM_cons, Option.bind_eq_bind, Option.bind_eq_some_iff, Option.pure_def,
      Option.some.injEq] at h
    obtain ⟨frame, hframe, frames, hframes, rfl⟩ := h
    obtain ⟨hne, rfl⟩ := RPC.makeRpcCall_eq_some.mp hframe
    have hr := receive_msgEncode hne (hlen call (by simp)) frames.flatten
    rw [List.flatten_cons, receiveAll_cons hr, ih (fun m hm => hlen m (by simp [hm])) hframes]
    rfl

end Connection

/-- **The wire codec round trip**: exactly the messages that fit `data_` with
their type are received as they were sent, alone or in a stream of frames. -/
theorem codec_round_trip_iff (type : RpcType) (msg rest : Bytes) (calls : List (RpcType × Bytes)) :
    (∀ frame, RPC.makeRpcCall type msg = some frame →
      (Connection.receive (frame ++ rest) = some ((type, msg), rest) ↔ msg.length + 1 ≤ Connection.dataSize)) ∧
    ∀ frames, calls.mapM (fun m => RPC.makeRpcCall m.1 m.2) = some frames →
      (Connection.receiveAll frames.flatten = some calls ↔ ∀ m ∈ calls, m.2.length + 1 ≤ Connection.dataSize) := by
  refine ⟨fun frame h => ⟨Connection.receive_length, fun hlen => ?_⟩,
    fun frames h => ⟨Connection.receiveAll_length _, fun hlen => Connection.receiveAll_flatten hlen h⟩⟩
  obtain ⟨hne, rfl⟩ := RPC.makeRpcCall_eq_some.mp h
  exact Connection.receive_msgEncode hne hlen rest

/-- A message of 5119 characters is the longest that fits; here a short one follows it. -/
theorem longest_round_trip :
    let long := List.replicate 5119 120
    let frames := [RPC.msgEncode (decimal 4 ++ long), RPC.msgEncode (decimal 0 ++ [])]
    Connection.receive (frames.head (by simp) ++ frames.tail.flatten) = some
    ((.clientApply, long), frames.tail.flatten) ∧
      Connection.receiveAll frames.flatten = some [(.clientApply, long), (.requestVote, [])] := by
  have hlong : (List.replicate 5119 (120 : UInt8)).length + 1 ≤ Connection.dataSize := by
    rw [List.length_replicate]
    decide
  obtain ⟨hone, hall⟩ := codec_round_trip_iff .clientApply (List.replicate 5119 120)
    [RPC.msgEncode (decimal 0 ++ [])].flatten [(.clientApply, List.replicate 5119 120), (.requestVote, [])]
  refine ⟨(hone _ rfl).mpr hlong, (hall _ rfl).mpr ?_⟩
  intro m hm
  rcases List.mem_cons.mp hm with rfl | hm
  · exact hlong
  · obtain rfl := List.mem_singleton.mp hm
    decide

/-- With one character more, the receiver leaves the last one in the stream. -/
theorem overlong_not_received : ¬ ∀ (type : RpcType) (msg frame rest : Bytes),
    RPC.makeRpcCall type msg = some frame → Connection.receive (frame ++ rest) = some ((type, msg), rest) := by
  intro hall
  have hlen := Connection.receive_length (hall .clientApply (List.replicate 5120 120) _ [] rfl)
  rw [List.length_replicate] at hlen
  exact absurd hlen (by decide)

end MyRaft
