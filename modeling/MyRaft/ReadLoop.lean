/-
What the read loop of `rpc/connection.cpp` does with bytes that are no frames:
any header, any type byte, and a connection that breaks at any time.

Every frame that is read to its end does some harm. Without a body the length of
the message underflows. A body starts with a byte that may be part of a number,
and then `atoi` reads past the array `char_rpc_type`, which no zero ends; or it
does not, and no frame of `msg_encode` starts so. What `atoi` finds behind the
array is not the program's: it comes with the turn.
-/
import MyRaft.Framing
import MyRaft.Lib.Runs

namespace MyRaft

open Decimal Runs

/-- The length `process_msg` gives the message: an `int` less an `unsigned int`. -/
def RPC.msgLength (bytesTransferred : Nat) : Nat := (UInt32.ofNat bytesTransferred - 1).toNat

theorem RPC.msgLength_eq {n : Nat} (h0 : 0 < n) (hn : n ≤ Connection.dataSize) : msgLength n = n - 1 := by
  have hsize : n ≤ 5120 := hn
  have h1 : (1 : UInt32) ≤ UInt32.ofNat n := by
    rw [UInt32.le_iff_toNat_le, UInt32.toNat_ofNat_of_lt' (by simp [UInt32.size]; omega)]
    exact h0
  rw [msgLength, UInt32.toNat_sub_of_le _ _ h1, UInt32.toNat_ofNat_of_lt' (by simp [UInt32.size]; omega)]
  rfl

/-- A connection with its handlers' errors and what they hand on. -/
structure ReadLoop where
  connection : Connection
  /-- A read of a header failed, and the peer was removed from the pool. -/
  removed : Bool
  /-- An exception left a handler, and with it `main`. -/
  thrown : Bool
  /-- The calls of the callback. -/
  delivered : List (RpcType × Bytes)
deriving Repr

namespace ReadLoop

inductive Turn where
  /-- The socket hands bytes over. -/
  | transfer (bytes : Nat)
  /-- A handler runs; `behind` is the memory behind `char_rpc_type`. -/
  | complete (behind : Bytes)
  /-- The read that waits longest fails, as the peer closed or the connection broke; the handlers before its
  own have run. -/
  | fail
deriving Repr

def start (stream : Bytes) : ReadLoop := ⟨Connection.start stream, false, false, []⟩

/-- `process_msg`: `rpc_to_str` throws for a type it does not know. Of a message that is longer than `data_`
this keeps what `data_` has. -/
def processMsg (behind : Bytes) (bytesTransferred : Nat) (s : ReadLoop) : ReadLoop :=
  match RpcType.known? (atoi (s.connection.data.take 1 ++ behind)) with
  | none => { s with thrown := true }
  | some type =>
    { s with
      delivered := s.delivered ++ [(type, (s.connection.data.drop 1).take (RPC.msgLength bytesTransferred))] }

/-- The read whose handler, not the composed read's, is next to run. -/
def due (s : ReadLoop) : Turn → Option Read
  | .complete _ => s.connection.completed.head?.filter fun r => r.size ≤ r.total
  | _ => none

/-- The bodies that `Connection.complete` records are those handed to `process_msg` here. -/
def complete (behind : Bytes) (s : ReadLoop) : Option ReadLoop :=
  s.connection.complete.map fun c =>
    match s.due (.complete behind) with
    | some ⟨.body, _, total⟩ => { s with connection := c }.processMsg behind total
    | _ => { s with connection := c }

/-- `read_body` and `body_callback` with an error. -/
def fail (s : ReadLoop) : Option ReadLoop :=
  match s.connection.started, s.connection.completed with
  | r :: started, [] =>
    let s := { s with connection := { s.connection with started := started } }
    some (match r.target with
      | .header => { s with removed := true }
      | .body => { s with thrown := true })
  | _, _ => none

def step (s : ReadLoop) (turn : Turn) : Option ReadLoop :=
  if s.thrown then none
  else
    match turn with
    | .transfer bytes => if s.removed then none else (s.connection.transfer bytes).map ({ s with connection := · })
    | .complete behind => s.complete behind
    | .fail => s.fail

/-! ## A turn without harm -/

/-- A turn does no harm. -/
structure Sound (s : ReadLoop) (turn : Turn) (s' : ReadLoop) : Prop where
  /-- No exception is raised. -/
  returns : s'.thrown = false
  /-- The message is of bytes received for its frame, behind the type. -/
  within : ∀ r ∈ s.due turn, r.target = .body → 1 + RPC.msgLength r.total ≤ r.total
  /-- `atoi` finds its end in the type field. -/
  field : ∀ r ∈ s.due turn, r.target = .body → numberLength (s.connection.data.take 1) < 1
  /-- A message handed to the callback has a frame, and the body received is that frame's. -/
  framed : ∀ msg, s'.delivered = s.delivered ++ [msg] → ∃ frame, RPC.makeRpcCall msg.1 msg.2 = some frame ∧
    ∃ r ∈ s.due turn, frame.drop 4 = s.connection.data.take r.total

/-- No body is read to its end, and none fails. -/
def NoBody (s : ReadLoop) (turn : Turn) : Prop :=
  (∀ r ∈ s.due turn, r.target = .header) ∧ (turn = .fail → ∀ r ∈ s.connection.started.head?, r.target = .header)

variable {s s' : ReadLoop} {turn : Turn} {behind : Bytes} {bytes : Nat} {r : Read} {stream : Bytes}

/-- Where what follows the type in memory is not read, this is `RPC.processMsg` on the bytes received. -/
theorem processMsg_eq {behind : Bytes} {n : Nat} (h0 : 0 < n) (hn : n ≤ Connection.dataSize)
    (hbehind : atoi (s.connection.data.take 1 ++ behind) = atoi (s.connection.data.take 1))
    (hdata : s.connection.data ≠ []) :
    s.processMsg behind n = match RPC.processMsg (s.connection.data.take n) with
      | none => { s with thrown := true }
      | some msg => { s with delivered := s.delivered ++ [msg] } := by
  obtain ⟨b, data, hb⟩ := List.exists_cons_of_ne_nil hdata
  obtain ⟨m, rfl⟩ := Nat.exists_eq_succ_of_ne_zero (Nat.pos_iff_ne_zero.mp h0)
  rw [processMsg, hbehind, hb, RPC.msgLength_eq h0 hn]
  simp only [List.take_succ_cons, List.take_zero, RPC.processMsg]
  cases RpcType.known? (atoi [b]) <;> simp

theorem step_thrown (hs : s.step turn = some s') : s.thrown = false := by
  simp only [step] at hs
  split at hs
  · cases hs
  · simpa using ‹¬ s.thrown = true›

theorem step_transfer (hs : s.step (.transfer bytes) = some s') :
    ∃ c, s.connection.transfer bytes = some c ∧ s' = { s with connection := c } := by
  have hrun := step_thrown hs
  simp only [step, hrun, Bool.false_eq_true, if_false] at hs
  split at hs
  · cases hs
  · obtain ⟨c, hc, rfl⟩ := Option.map_eq_some_iff.mp hs
    exact ⟨c, hc, by simp [hrun]⟩

theorem step_complete (hs : s.step (.complete behind) = some s') : s.complete behind = some s' := by
  simpa [step, step_thrown hs] using hs

theorem step_fail (hs : s.step .fail = some s') : s.fail = some s' := by
  simpa [step, step_thrown hs] using hs

/-- The type of a body that has a frame is its first byte, a digit. -/
theorem numberLength_type {type : RpcType} {msg frame body : Bytes} (h : RPC.makeRpcCall type msg = some frame)
    (hbody : frame.drop 4 = body) : numberLength (body.take 1) = 1 := by
  obtain ⟨-, rfl⟩ := RPC.makeRpcCall_eq_some.mp h
  rw [RPC.msgEncode, List.drop_left' (RPC.length_header _)] at hbody
  obtain ⟨b, hb⟩ := List.length_eq_one_iff.mp type.length_decimal
  have hdigit : isDigit b = true := isDigit_decimal (n := type.toNat) (by simp [hb])
  simp [← hbody, hb, numberLength_singleton, hdigit]

/-- **Processing a body does harm**, whatever it is and whatever stands behind the type field. -/
theorem not_sound_body (hdue : r ∈ s.due turn) (hbody : r.target = .body) (hs : s.step turn = some s') :
    ¬ Sound s turn s' := by
  intro h
  obtain ⟨target, size, total⟩ := r
  obtain rfl : target = .body := hbody
  have hlen := h.within _ hdue rfl
  dsimp only at hlen
  have hfield := h.field _ hdue rfl
  cases turn with
  | transfer | fail => simp [due] at hdue
  | complete behind =>
    have hdue' : s.due (.complete behind) = some ⟨.body, size, total⟩ := hdue
    have hcomplete := step_complete hs
    simp only [complete, hdue', Option.map_eq_some_iff] at hcomplete
    obtain ⟨c, hc, rfl⟩ := hcomplete
    cases htype : RpcType.known? (atoi (c.data.take 1 ++ behind)) with
    | none =>
      have hreturns := h.returns
      simp [processMsg, htype] at hreturns
    | some type =>
      -- a message is handed on, so the body starts with a digit
      obtain ⟨frame, hframe, r', hr', hdrop⟩ := h.framed (type, (c.data.drop 1).take (RPC.msgLength total))
        (by simp [processMsg, htype])
      obtain rfl := Option.some.inj (hdue'.symm.trans hr')
      have hone := numberLength_type hframe hdrop
      have hpos : 1 ≤ total := by omega
      rw [List.take_take, Nat.min_eq_left hpos] at hone
      rw [hone] at hfield
      exact absurd hfield (Nat.lt_irrefl 1)

theorem thrown_fail (hs : s.fail = some s') : ∃ r started, s.connection.started = r :: started ∧
    s'.thrown = (s.thrown || r.target = .body) ∧ s'.delivered = s.delivered := by
  simp only [fail] at hs
  split at hs
  · rename_i r started hstarted hcompleted
    refine ⟨r, started, hstarted, ?_⟩
    rw [← Option.some.inj hs]
    cases r.target <;> simp
  · cases hs

/-- Where no body is read nothing is thrown and nothing is handed on. -/
theorem NoBody.quiet (h : s.NoBody turn) (hs : s.step turn = some s') :
    s'.thrown = false ∧ s'.delivered = s.delivered := by
  have hrun := step_thrown hs
  cases turn with
  | transfer bytes =>
    obtain ⟨c, -, rfl⟩ := step_transfer hs
    exact ⟨hrun, rfl⟩
  | complete behind =>
    obtain ⟨c, -, rfl⟩ := Option.map_eq_some_iff.mp (step_complete hs)
    cases hdue : s.due (.complete behind) with
    | none => exact ⟨hrun, rfl⟩
    | some r =>
      have hheader := h.1 r hdue
      obtain ⟨target, size, total⟩ := r
      obtain rfl : target = .header := hheader
      exact ⟨hrun, rfl⟩
  | fail =>
    obtain ⟨r, started, hstarted, hthrown, hdelivered⟩ := thrown_fail (step_fail hs)
    have hheader := h.2 rfl r (by simp [hstarted])
    exact ⟨by simp [hthrown, hrun, hheader], hdelivered⟩

/-- A turn does harm exactly when it ends the read of a body. -/
theorem sound_iff (hs : s.step turn = some s') : Sound s turn s' ↔ s.NoBody turn := by
  constructor
  · intro h
    refine ⟨?_, ?_⟩
    · intro r hr
      have hheader : r.target = .header := by
        cases htarget : r.target with
        | header => rfl
        | body => exact absurd h (not_sound_body hr htarget hs)
      exact hheader
    · rintro rfl r hr
      obtain ⟨r', started, hstarted, hthrown, -⟩ := thrown_fail (step_fail hs)
      obtain rfl : r' = r := by simpa [hstarted] using hr
      have hreturns := h.returns
      rw [hthrown] at hreturns
      cases htarget : r'.target with
      | header => rfl
      | body => simp [htarget] at hreturns
  · intro h
    obtain ⟨hthrown, hdelivered⟩ := h.quiet hs
    refine ⟨hthrown, ?_, ?_, ?_⟩
    · intro r hr hbody
      simp [h.1 r hr] at hbody
    · intro r hr hbody
      simp [h.1 r hr] at hbody
    · intro msg hmsg
      simp [hdelivered] at hmsg

/-! ## A whole stream -/

/-- A connection whose peer sends no whole header. -/
structure Short (stream : Bytes) (s : ReadLoop) : Prop where
  /-- It reads the header, or has given up. -/
  reads : (∃ total, Connection.HeaderRead s.connection [] total stream) ∨
    s.connection.started = [] ∧ s.connection.completed = []
  stream_lt : stream.length < 4

theorem Short.start (h : stream.length < 4) : Short stream (start stream) :=
  ⟨.inl ⟨0, .inl ⟨rfl, by decide, rfl⟩, rfl, by decide, Nat.zero_le _, rfl, rfl⟩, h⟩

/-- No handler of `read_body` or `body_callback` runs without an error. -/
theorem Short.due (h : Short stream s) : s.due turn = none := by
  cases turn with
  | transfer | fail => rfl
  | complete behind =>
    obtain ⟨total, hread⟩ | ⟨-, hcompleted⟩ := h.reads
    · have htotal := hread.within
      have hlt := h.stream_lt
      obtain ⟨-, -, hcompleted⟩ | ⟨-, hcompleted⟩ := hread.queued
      · simp [ReadLoop.due, hcompleted]
      · simp [ReadLoop.due, hcompleted]
        omega
    · simp [ReadLoop.due, hcompleted]

theorem Short.noBody (h : Short stream s) : s.NoBody turn := by
  refine ⟨by simp [h.due], ?_⟩
  intro _ r hr
  obtain ⟨total, hread⟩ | ⟨hstarted, -⟩ := h.reads
  · obtain ⟨hstarted, -, -⟩ | ⟨hstarted, -⟩ := hread.queued <;> simp [hstarted] at hr
    simp [← hr]
  · simp [hstarted] at hr

theorem Short.step (h : Short stream s) (hs : s.step turn = some s') : Short stream s' := by
  refine ⟨?_, h.stream_lt⟩
  cases turn with
  | transfer bytes =>
    obtain ⟨c, hc, rfl⟩ := step_transfer hs
    obtain ⟨total, hread⟩ | ⟨hstarted, -⟩ := h.reads
    · exact .inl ⟨_, (hread.transfer hc).1⟩
    · simp [Connection.transfer, hstarted] at hc
  | complete behind =>
    have hcomplete := step_complete hs
    simp only [complete, h.due, Option.map_eq_some_iff] at hcomplete
    obtain ⟨c, hc, rfl⟩ := hcomplete
    obtain ⟨total, hread⟩ | ⟨-, hcompleted⟩ := h.reads
    · obtain ⟨-, -, hcompleted⟩ | ⟨hstarted, hcompleted⟩ := hread.queued
      · simp [Connection.complete, hcompleted] at hc
      · -- the rest of the header is asked for
        have hlt : total < 4 := Nat.lt_of_le_of_lt hread.within h.stream_lt
        simp only [Connection.complete, hcompleted, List.nil_append, hlt, if_true, Connection.asyncReadSome,
          hstarted,
          Option.some.injEq] at hc
        subst hc
        exact .inl ⟨total, .inl ⟨rfl, hlt, rfl⟩, hread.size, hread.total_le, hread.within, hread.header,
          hread.stream⟩
    · simp [Connection.complete, hcompleted] at hc
  | fail =>
    have hfail := step_fail hs
    simp only [fail] at hfail
    split at hfail
    · rename_i r started hstarted hcompleted
      obtain ⟨total, hread⟩ | ⟨hnone, -⟩ := h.reads
      · obtain ⟨hone, -, -⟩ | ⟨hnone, -⟩ := hread.queued
        · obtain ⟨rfl, rfl⟩ := List.cons_eq_cons.mp (hstarted.symm.trans hone)
          obtain rfl := Option.some.inj hfail
          exact .inr ⟨rfl, hcompleted⟩
        · simp [hstarted] at hnone
      · simp [hstarted] at hnone
    · cases hfail

/-- The handler of a header reads a body: one without bytes is read at once. -/
theorem readBody_idle {c : Connection} (hstarted : c.started = []) (hcompleted : c.completed = []) :
    c.readBody.completed = [⟨.body, 0, 0⟩] ∨
      ∃ size, c.readBody.completed = [] ∧ c.readBody.started = [⟨.body, size, 0⟩, ⟨.header, 4, 0⟩] := by
  by_cases hpos : 0 < Connection.bodySize c.header
  · refine .inr ⟨Connection.bodySize c.header, ?_, ?_⟩ <;>
      simp [Connection.readBody, Connection.readHeader, Connection.asyncRead, Connection.asyncReadSome, hpos,
        hstarted,
        hcompleted]
  · left
    have hzero : Connection.bodySize c.header = 0 := Nat.eq_zero_of_not_pos hpos
    simp [Connection.readBody, Connection.readHeader, Connection.asyncRead, Connection.asyncReadSome, hzero,
      hcompleted]

/-- After four bytes a body is next, read to its end or waiting. -/
theorem exists_body (h : 4 ≤ stream.length) :
    ∃ c : Connection, [Turn.transfer 4, .complete []].foldlM step (start stream) = some ⟨c, false, false, []⟩ ∧
      (c.completed = [⟨.body, 0, 0⟩] ∨
        ∃ size, c.completed = [] ∧ c.started = [⟨.body, size, 0⟩, ⟨.header, 4, 0⟩]) := by
  have hidle := @readBody_idle ⟨Bytes.overwrite (List.replicate 4 0) 0 (stream.take 4),
    List.replicate Connection.dataSize 0, stream.drop 4, [], [], []⟩ rfl rfl
  refine ⟨_, ?_, hidle⟩
  simp [step, start, Connection.start, Connection.readHeader, Connection.asyncRead, Connection.asyncReadSome,
    Connection.transfer, h, complete, Connection.complete, due]

/-- **Once a header is whole, some turn does harm.** -/
theorem not_always_sound (h : 4 ≤ stream.length) : ∃ turns, ¬ Always step Sound (start stream) turns := by
  obtain ⟨c, hrun, hcompleted | ⟨size, hcompleted, hstarted⟩⟩ := exists_body h
  · -- a body without bytes
    refine ⟨[.transfer 4, .complete []] ++ [.complete []], fun hall => ?_⟩
    have hstep : ∃ s', step ⟨c, false, false, []⟩ (.complete []) = some s' := by
      simp [step, complete, Connection.complete, hcompleted]
    obtain ⟨s', hs⟩ := hstep
    have hdue : (⟨.body, 0, 0⟩ : Read) ∈ due ⟨c, false, false, []⟩ (.complete []) := by simp [due, hcompleted]
    exact not_sound_body hdue rfl hs (hall.at hrun hs)
  · -- the connection breaks while the body is awaited
    refine ⟨[.transfer 4, .complete []] ++ [.fail], fun hall => ?_⟩
    have hstep : ∃ s', step ⟨c, false, false, []⟩ .fail = some s' := by simp [step, fail, hcompleted, hstarted]
    obtain ⟨s', hs⟩ := hstep
    have hno := ((sound_iff hs).mp (hall.at hrun hs)).2 rfl ⟨.body, size, 0⟩ (by simp [hstarted])
    cases hno

end ReadLoop

/-- **The frame decoder** does no harm in a run exactly when no body is read to its end or fails there,
whatever the headers are; and in all runs on a stream exactly when the stream has no whole header. -/
theorem decoder_total_iff (stream : Bytes) :
    (∀ turns, Always ReadLoop.step ReadLoop.Sound (ReadLoop.start stream) turns ↔
      Always ReadLoop.step (fun s turn _ => s.NoBody turn) (ReadLoop.start stream) turns) ∧
    ((∀ turns, Always ReadLoop.step ReadLoop.Sound (ReadLoop.start stream) turns) ↔ stream.length < 4) := by
  refine ⟨fun turns => ?_, fun hall => ?_, fun hlt turns => ?_⟩
  · exact always_congr (Q := fun s turn _ => s.NoBody turn) (I := fun _ => True) (fun _ _ _ => trivial)
      (fun _ hs => ReadLoop.sound_iff hs) trivial
  · by_contra hge
    obtain ⟨turns, hturns⟩ := ReadLoop.not_always_sound (Nat.not_lt.mp hge)
    exact hturns (hall turns)
  · exact always_of_invariant (fun h hs => ⟨(ReadLoop.sound_iff hs).mpr h.noBody, h.step hs⟩)
      (ReadLoop.Short.start hlt)

/-- A header of `   0`: the message of no body is to have 4294967295 bytes. -/
theorem zeroLength_harms :
    ¬ ∀ stream turns, Always ReadLoop.step ReadLoop.Sound (ReadLoop.start stream) turns := by
  intro hall
  let turns : List ReadLoop.Turn := [.transfer 4, .complete []]
  obtain ⟨s, hrun, hs⟩ := (Option.any_eq_true _ _).mp (show (turns.foldlM ReadLoop.step
    (ReadLoop.start [32, 32, 32, 48])).any (fun s => s.due (.complete []) == some ⟨.body, 0, 0⟩ &&
      (s.step (.complete [])).isSome) = true by decide +kernel)
  simp only [Bool.and_eq_true, beq_iff_eq, Option.isSome_iff_exists] at hs
  obtain ⟨hdue, s', hstep⟩ := hs
  have hsound := (hall [32, 32, 32, 48] (turns ++ [.complete []])).at hrun hstep
  exact absurd (hsound.within _ hdue rfl) (by decide)

end MyRaft
