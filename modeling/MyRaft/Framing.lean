/-
The read loop of `rpc/connection.cpp`, on the stream of bytes its peer sends.

`async_read` is a loop of `async_read_some`; those of one socket are served in
the order they were started, each with any number of bytes from one up to what
it still asks for. `read_body` starts the read of the body and then, before any
of it has come, the read of the next header, so the header is next in line when
the body is served in part, and takes the bytes that follow.
-/
import MyRaft.Wire

namespace MyRaft

open Decimal

/-! ## The connection -/

/-- The buffer of an `async_read`, which goes with its callback. -/
inductive Target where
  | header
  | body
deriving DecidableEq, Repr

/-- An `async_read` of `size` bytes that has `total` of them. -/
structure Read where
  target : Target
  size : Nat
  total : Nat
deriving DecidableEq, Repr

/-- A connection, the bytes its socket has not handed over yet, and the bodies
`process_msg` was called with. -/
structure Connection where
  header : Bytes
  data : Bytes
  stream : Bytes
  /-- The `async_read_some` that wait for bytes, in the order they were started. -/
  started : List Read
  /-- Those that got bytes and whose handler has not run yet. -/
  completed : List Read
  processed : List Bytes
deriving Repr

/-- What the process does next with a connection. -/
inductive Turn where
  /-- The socket hands `bytes` bytes to the `async_read_some` that waits longest. -/
  | transfer (bytes : Nat)
  /-- The handler of the one that completed first runs. -/
  | complete
deriving Repr

namespace Connection

/-- A read of nothing does not wait for the socket. -/
def asyncReadSome (r : Read) (c : Connection) : Connection :=
  if r.total < r.size then { c with started := c.started ++ [r] }
  else { c with completed := c.completed ++ [r] }

def asyncRead (target : Target) (size : Nat) (c : Connection) : Connection := c.asyncReadSome ⟨target, size, 0⟩

def readHeader (c : Connection) : Connection := c.asyncRead .header 4

/-- The body read is not awaited. -/
def readBody (c : Connection) : Connection := (c.asyncRead .body (bodySize c.header)).readHeader

def bodyCallback (bytesTransferred : Nat) (c : Connection) : Connection :=
  { c with processed := c.processed ++ [c.data.take bytesTransferred] }

def transfer (bytes : Nat) (c : Connection) : Option Connection :=
  match c.started with
  | [] => none
  | r :: started =>
    if 0 < bytes ∧ bytes ≤ r.size - r.total ∧ bytes ≤ c.stream.length then
      let received := c.stream.take bytes
      let c := { c with
        stream := c.stream.drop bytes
        started := started
        completed := c.completed ++ [{ r with total := r.total + bytes }] }
      some (match r.target with
        | .header => { c with header := c.header.overwrite r.total received }
        | .body => { c with data := c.data.overwrite r.total received })
    else none

/-- The composed read asks for the rest, or calls back. -/
def complete (c : Connection) : Option Connection :=
  match c.completed with
  | [] => none
  | r :: completed =>
    let c := { c with completed := completed }
    if r.total < r.size then some (c.asyncReadSome r)
    else
      match r.target with
      | .header => some c.readBody
      | .body => some (c.bodyCallback r.total)

def step (c : Connection) : Turn → Option Connection
  | .transfer bytes => c.transfer bytes
  | .complete => c.complete

def run : Connection → List Turn → Option Connection
  | c, [] => some c
  | c, turn :: turns => (c.step turn).bind fun c' => c'.run turns

/-- A connection whose peer sends `stream`, after `start`. -/
def start (stream : Bytes) : Connection :=
  readHeader ⟨List.replicate 4 0, List.replicate dataSize 0, stream, [], [], []⟩

/-- Nothing is left to do. -/
def Quiet (c : Connection) : Prop := ∀ turn, c.step turn = none

/-- A turn serves a body read all its bytes at once. -/
def ServesWhole (c : Connection) (turn : Turn) : Prop :=
  match turn, c.started with
  | .transfer bytes, ⟨.body, size, _⟩ :: _ => bytes = size
  | _, _ => True

instance : ∀ (c : Connection) (turn : Turn), Decidable (c.ServesWhole turn)
  | ⟨_, _, _, ⟨.body, size, _⟩ :: _, _, _⟩, .transfer bytes => inferInstanceAs (Decidable (bytes = size))
  | ⟨_, _, _, [], _, _⟩, .transfer _ => .isTrue trivial
  | ⟨_, _, _, ⟨.header, _, _⟩ :: _, _, _⟩, .transfer _ => .isTrue trivial
  | _, .complete => .isTrue trivial

/-- Each turn of a run does. -/
def BodiesWhole : Connection → List Turn → Prop
  | _, [] => True
  | c, turn :: turns => c.ServesWhole turn ∧ ∀ c' ∈ c.step turn, BodiesWhole c' turns

instance decidableBodiesWhole : ∀ (c : Connection) (turns : List Turn), Decidable (c.BodiesWhole turns)
  | _, [] => .isTrue trivial
  | c, turn :: turns =>
    have := fun c' => decidableBodiesWhole c' turns
    inferInstanceAs (Decidable (c.ServesWhole turn ∧ ∀ c' ∈ c.step turn, BodiesWhole c' turns))

end Connection

/-! ## The frames ahead -/

/-- The stream of a sequence of frames. -/
def frames (bodies : List Bytes) : Bytes := bodies.flatMap RPC.msgEncode

namespace Connection

@[simp] theorem frames_nil : frames [] = [] := rfl

theorem frames_cons (body : Bytes) (bodies : List Bytes) :
    frames (body :: bodies) = RPC.msgEncode body ++ frames bodies := by
  simp [frames]

/-- A header read with its first bytes of `ahead`, waiting for more or for its
handler, which runs after those of `before`. -/
structure HeaderRead (c : Connection) (before : List Read) (total : Nat) (ahead : Bytes) : Prop where
  queued : c.started = [⟨.header, 4, total⟩] ∧ total < 4 ∧ c.completed = before ∨
    c.started = [] ∧ c.completed = before ++ [⟨.header, 4, total⟩]
  size : c.header.length = 4
  total_le : total ≤ 4
  within : total ≤ ahead.length
  header : c.header.take total = ahead.take total
  stream : c.stream = ahead.drop total

/-- Where a connection is in a sequence of frames. -/
inductive Framed (bodies : List Bytes) (c : Connection) : Prop
  /-- It reads a header. -/
  | header {rest total} (hb : bodies = c.processed ++ rest) (hh : HeaderRead c [] total (frames rest))
  /-- It reads a body, and the next header is in line. -/
  | body {body rest} (hb : bodies = c.processed ++ body :: rest) (hne : 0 < body.length)
      (hstarted : c.started = [⟨.body, body.length, 0⟩, ⟨.header, 4, 0⟩]) (hcompleted : c.completed = [])
      (hstream : c.stream = body ++ frames rest) (hsize : c.header.length = 4)
  /-- It has read a body, and reads the next header. -/
  | bodyRead {body rest total} (hb : bodies = c.processed ++ body :: rest)
      (hh : HeaderRead c [⟨.body, body.length, body.length⟩] total (frames rest))
      (hdata : c.data.take body.length = body)

variable {c c' : Connection} {bodies : List Bytes}

/-- What the socket handing bytes over does. -/
theorem transfer_eq_some {r : Read} {started : List Read} (hs : c.started = r :: started) {bytes : Nat}
    (hc : c.transfer bytes = some c') :
    (0 < bytes ∧ bytes ≤ r.size - r.total ∧ bytes ≤ c.stream.length) ∧
    c' = { c with
      header := if r.target = .header then c.header.overwrite r.total (c.stream.take bytes) else c.header
      data := if r.target = .body then c.data.overwrite r.total (c.stream.take bytes) else c.data
      stream := c.stream.drop bytes
      started := started
      completed := c.completed ++ [{ r with total := r.total + bytes }] } := by
  simp only [Connection.transfer, hs] at hc
  split at hc
  · rename_i hbytes
    refine ⟨hbytes, ?_⟩
    rw [← Option.some.inj hc]
    split <;> simp [*]
  · cases hc

/-- A header read is served. -/
theorem HeaderRead.transfer {before : List Read} {total : Nat} {ahead : Bytes}
    (h : HeaderRead c before total ahead) {bytes : Nat} (hc : c.transfer bytes = some c') :
    HeaderRead c' before (total + bytes) ahead ∧ c'.processed = c.processed ∧ c'.data = c.data := by
  obtain ⟨hs, hlt, hq⟩ := h.queued.resolve_right fun ⟨hs, _⟩ => by simp [Connection.transfer, hs] at hc
  obtain ⟨⟨hpos, hle, hlen⟩, hnext⟩ := transfer_eq_some hs hc
  obtain rfl := hnext
  have hle : bytes ≤ 4 - total := hle
  have hahead := h.within
  rw [h.stream, List.length_drop] at hlen
  have hreceived : (c.stream.take bytes).length = bytes := by
    rw [h.stream, List.length_take, List.length_drop]
    omega
  refine ⟨⟨.inr ⟨rfl, by rw [hq]⟩, ?_, by omega, by omega, ?_, ?_⟩, rfl, rfl⟩
  · show (c.header.overwrite total (c.stream.take bytes)).length = 4
    rw [Bytes.length_overwrite (by rw [h.size]; omega), hreceived, h.size]
    omega
  · show (c.header.overwrite total (c.stream.take bytes)).take (total + bytes) = _
    have hover := Bytes.take_overwrite (by rw [h.size]; omega : total ≤ c.header.length) (c.stream.take bytes)
    rw [hreceived] at hover
    rw [hover, h.header, h.stream, List.take_add]
  · show c.stream.drop bytes = _
    rw [h.stream, List.drop_drop]

/-- The handler of a header read that has its four bytes starts the two next reads. -/
theorem Framed.readBody (hlen : ∀ body ∈ bodies, body.length ≤ dataSize) {rest : List Bytes}
    (hb : bodies = c.processed ++ rest) (hs : c.started = []) (hq : c.completed = []) (hsize : c.header.length = 4)
    (hwithin : 4 ≤ (frames rest).length) (hheader : c.header.take 4 = (frames rest).take 4)
    (hstream : c.stream = (frames rest).drop 4) : Framed bodies c.readBody := by
  cases rest with
  | nil => simp at hwithin
  | cons body rest =>
    have hbody : body.length ≤ dataSize := hlen body (by rw [hb]; simp)
    have hhdr : c.header = (padded 4 body.length).take 4 := by
      rw [List.take_of_length_le (Nat.le_of_eq hsize)] at hheader
      rw [hheader, frames_cons, RPC.msgEncode, List.append_assoc,
        List.take_left' (RPC.length_header _)]
    have hst : c.stream = body ++ frames rest := by
      rw [hstream, frames_cons, RPC.msgEncode, List.append_assoc, List.drop_left' (RPC.length_header _)]
    have hbs : bodySize c.header = body.length := by rw [hhdr, bodySize_padded hbody]
    by_cases hpos : 0 < body.length
    · have hnext : c.readBody = { c with started := [⟨.body, body.length, 0⟩, ⟨.header, 4, 0⟩] } := by
        simp [Connection.readBody, readHeader, asyncRead, asyncReadSome, hbs, hpos, hs]
      rw [hnext]
      exact .body hb hpos rfl hq hst hsize
    · obtain rfl : body = [] := List.eq_nil_of_length_eq_zero (by omega)
      have hnext : c.readBody = { c with started := [⟨.header, 4, 0⟩], completed := [⟨.body, 0, 0⟩] } := by
        simp [Connection.readBody, readHeader, asyncRead, asyncReadSome, hbs, hs, hq]
      rw [hnext]
      exact @Framed.bodyRead _ _ [] _ _ hb ⟨.inl ⟨rfl, by decide, rfl⟩, hsize, by decide, Nat.zero_le _, rfl,
        hst⟩ rfl

theorem Framed.complete (hlen : ∀ body ∈ bodies, body.length ≤ dataSize) (h : Framed bodies c)
    (hc : c.complete = some c') : Framed bodies c' := by
  cases h with
  | @header rest total hb hh =>
    rcases hh.queued with ⟨-, -, hq⟩ | ⟨hs, hq⟩ <;> simp only [Connection.complete, hq, List.nil_append] at hc
    · cases hc
    split at hc <;> obtain rfl := (Option.some.inj hc).symm
    · -- the header is not whole: the rest of it is asked for
      rename_i hlt
      have hnext : ({ c with completed := [] } : Connection).asyncReadSome ⟨.header, 4, total⟩ =
          { c with started := [⟨.header, 4, total⟩], completed := [] } := by
        simp only [asyncReadSome, if_pos hlt, hs, List.nil_append]
      rw [hnext]
      exact .header hb ⟨.inl ⟨rfl, hlt, rfl⟩, hh.size, hh.total_le, hh.within, hh.header, hh.stream⟩
    · rename_i hge
      obtain rfl : total = 4 := Nat.le_antisymm hh.total_le (Nat.not_lt.mp hge)
      exact Framed.readBody hlen hb hs rfl hh.size hh.within hh.header hh.stream
  | body hb hne hstarted hcompleted hstream hsize =>
    simp [Connection.complete, hcompleted] at hc
  | @bodyRead body rest total hb hh hdata =>
    have hbody : bodies = (c.processed ++ [c.data.take body.length]) ++ rest := by
      rw [hdata, hb, List.append_assoc, List.singleton_append]
    rcases hh.queued with ⟨hs, hlt, hq⟩ | ⟨hs, hq⟩ <;>
      simp only [Connection.complete, hq, List.singleton_append, Nat.lt_irrefl, if_false, Option.some.injEq]
        at hc <;>
      subst hc
    · exact .header hbody ⟨.inl ⟨hs, hlt, rfl⟩, hh.size, hh.total_le, hh.within, hh.header, hh.stream⟩
    · exact .header hbody ⟨.inr ⟨hs, rfl⟩, hh.size, hh.total_le, hh.within, hh.header, hh.stream⟩

theorem Framed.transfer (h : Framed bodies c) {bytes : Nat} (hw : c.ServesWhole (.transfer bytes))
    (hc : c.transfer bytes = some c') : Framed bodies c' := by
  cases h with
  | header hb hh =>
    obtain ⟨hh', hp, -⟩ := hh.transfer hc
    exact .header (by rw [hp]; exact hb) hh'
  | @body body rest hb hne hstarted hcompleted hstream hsize =>
    obtain rfl : bytes = body.length := by
      simpa [ServesWhole, hstarted] using hw
    have hreceived : c.stream.take body.length = body := by rw [hstream, List.take_left' rfl]
    obtain ⟨-, rfl⟩ := transfer_eq_some hstarted hc
    refine @Framed.bodyRead _ _ body rest 0 hb ⟨.inl ⟨rfl, by decide, ?_⟩, hsize, by decide, Nat.zero_le _,
      rfl, ?_⟩ ?_
    · simp [hcompleted]
    · show c.stream.drop body.length = frames rest
      rw [hstream, List.drop_left' rfl]
    · have hover := Bytes.take_overwrite (Nat.zero_le c.data.length) body
      rw [Nat.zero_add, List.take_zero, List.nil_append] at hover
      simpa [hreceived] using hover
  | bodyRead hb hh hdata =>
    obtain ⟨hh', hp, hd⟩ := hh.transfer hc
    exact .bodyRead (by rw [hp]; exact hb) hh' (by rw [hd]; exact hdata)

theorem Framed.start (bodies : List Bytes) : Framed bodies (start (frames bodies)) :=
  @Framed.header _ _ bodies 0 rfl ⟨.inl ⟨rfl, by decide, rfl⟩, rfl, by decide, Nat.zero_le _, rfl, rfl⟩

theorem Framed.run (hlen : ∀ body ∈ bodies, body.length ≤ dataSize) : ∀ {turns : List Turn} {c : Connection},
    Framed bodies c → c.BodiesWhole turns → c.run turns = some c' → Framed bodies c'
  | [], c, h, _, hrun => by
    obtain rfl := Option.some.inj hrun
    exact h
  | turn :: turns, c, h, hw, hrun => by
    obtain ⟨c₁, h₁, hrun⟩ := Option.bind_eq_some_iff.mp hrun
    refine Framed.run hlen ?_ (hw.2 c₁ h₁) hrun
    cases turn with
    | transfer bytes => exact h.transfer hw.1 h₁
    | complete => exact h.complete hlen h₁

/-- A connection where nothing is left to do has read all frames. -/
theorem Framed.quiet (h : Framed bodies c) (hquiet : c.Quiet) : c.processed = bodies := by
  have hcomplete : c.completed = [] := by
    have hn : c.complete = none := hquiet .complete
    simp only [Connection.complete] at hn
    split at hn
    · assumption
    · split at hn
      · cases hn
      · split at hn <;> cases hn
  -- a read that waits found no bytes
  have hempty : ∀ {r started}, c.started = r :: started → ∀ n, 0 < n → n ≤ r.size - r.total →
      c.stream.length < n := by
    intro r started hs n hpos hle
    have hn : c.transfer n = none := hquiet (.transfer n)
    simp only [Connection.transfer, hs] at hn
    split at hn
    · cases hn
    · rename_i hno
      exact Nat.not_le.mp fun h => hno ⟨hpos, hle, h⟩
  cases h with
  | @header rest total hb hh =>
    rcases hh.queued with ⟨hs, hlt, -⟩ | ⟨-, hq⟩
    · have hdrop := hempty hs 1 Nat.one_pos (by simp only; omega)
      rw [hh.stream, List.length_drop] at hdrop
      cases rest with
      | nil => rw [hb, List.append_nil]
      | cons body rest =>
        rw [frames_cons, List.length_append, RPC.length_msgEncode] at hdrop
        omega
    · rw [hq] at hcomplete
      cases hcomplete
  | @body body rest hb hne hstarted hcompleted hstream hsize =>
    have hlt := hempty hstarted body.length hne (Nat.le_refl _)
    rw [hstream, List.length_append] at hlt
    omega
  | bodyRead hb hh hdata =>
    rcases hh.queued with ⟨-, -, hq⟩ | ⟨-, hq⟩ <;> rw [hq] at hcomplete <;> cases hcomplete

theorem Framed.le (h : Framed bodies c) : c.processed <+: bodies := by
  cases h with
  | header hb | body hb | bodyRead hb => exact ⟨_, hb.symm⟩

end Connection

/-- **Framing**: when each body read is served whole, `process_msg` gets the
bodies of the frames in order, and all of them once nothing is left to do. -/
theorem frames_processed {bodies : List Bytes} (hlen : ∀ body ∈ bodies, body.length ≤ Connection.dataSize)
    {turns : List Turn} {c : Connection} (hrun : (Connection.start (frames bodies)).run turns = some c)
    (hw : (Connection.start (frames bodies)).BodiesWhole turns) :
    c.processed <+: bodies ∧ (c.Quiet → c.processed = bodies) :=
  have h := Connection.Framed.run hlen (Connection.Framed.start bodies) hw hrun
  ⟨h.le, h.quiet⟩

theorem Connection.quiet_of_empty {c : Connection} (hstream : c.stream = []) (hcompleted : c.completed = []) :
    c.Quiet := by
  intro turn
  cases turn with
  | transfer bytes =>
    simp only [step, transfer]
    split
    · rfl
    · rw [if_neg]
      rintro ⟨hpos, -, hle⟩
      rw [hstream, List.length_nil] at hle
      omega
  | complete => simp only [step, complete, hcompleted]

/-- The two frames whose bodies are `4ab` and `4c`. -/
def twoBodies : List Bytes := [[52, 97, 98], [52, 99]]

/-- The header of the second frame comes in two chunks. -/
theorem splitHeader_processed : ∃ turns c, (Connection.start (frames twoBodies)).run turns = some c ∧
    c.processed = twoBodies := by
  let turns : List Turn := [.transfer 4, .complete, .transfer 3, .transfer 1, .complete, .complete, .transfer 3,
    .complete, .transfer 2, .complete]
  obtain ⟨c, hrun, hc⟩ := (Option.any_eq_true _ _).mp (show ((Connection.start (frames twoBodies)).run turns).any
    (fun c => c.stream == [] && c.completed == []) = true by decide +kernel)
  obtain ⟨hstream, hcompleted⟩ := (Bool.and_eq_true_iff).mp hc
  exact ⟨turns, c, hrun, (frames_processed (by decide) hrun (by decide +kernel)).2
    (Connection.quiet_of_empty (beq_iff_eq.mp hstream) (beq_iff_eq.mp hcompleted))⟩

/-- The first body comes in two chunks: the header read takes `a`, and the body ends in the next frame. -/
theorem splitBody_not_processed : ¬ ∀ (bodies : List Bytes) (turns : List Turn) (c : Connection),
    (∀ body ∈ bodies, body.length ≤ Connection.dataSize) →
    (Connection.start (frames bodies)).run turns = some c → c.processed <+: bodies := by
  intro hall
  obtain ⟨c, hrun, hp⟩ := (Option.any_eq_true _ _).mp (show ((Connection.start (frames twoBodies)).run
    [.transfer 4, .complete, .transfer 1, .transfer 1, .complete, .complete, .transfer 2, .complete]).any
      (fun c => c.processed == [[52, 98, 32]]) = true by decide +kernel)
  have hle := hall twoBodies _ c (by decide) hrun
  rw [beq_iff_eq.mp hp] at hle
  exact absurd hle (by decide)

end MyRaft
