/-
The connection pool of `rpc/rpc.cpp`: `connection_map_` has the connection that
the calls to a peer go to. A connection that a call makes is put there when its
connect has completed, an accepted one at once, and the peer's entry is erased
when a read or a write of any connection to the peer fails.

A connection stands here for the object, open from its connect or accept to its
first error; what is read from it is `MyRaft.Framing`. Addresses are numeric,
as `from_string` needs: for another `make_rpc_call` throws and leaves the pool
as it was.
-/
import MyRaft.Lib.Runs
import MyRaft.Lib.StdMap
import MyRaft.Rpc
import MyRaft.Wire

namespace MyRaft

open Runs
open StdLib (StdMap)

inductive Socket where
  /-- `async_connect` is under way, and the message is to be sent after it. -/
  | connecting (msg : Bytes)
  | opened
  | closed
deriving DecidableEq, Repr

/-- A `connection`. -/
structure Pool.Connection where
  remotePeer : Addr
  socket : Socket
  /-- The read of a header is under way. -/
  reading : Bool
  /-- What the writes under way write. -/
  writes : List Bytes
deriving DecidableEq, Repr

/-- An RPC and the connection `make_rpc_call` handed it to. -/
structure Pool.Call where
  peer : Addr
  connection : Nat
deriving DecidableEq, Repr

/-- The connections made so far, known by their number, `connection_map_`, and
the calls, the newest first. -/
structure Pool where
  connections : List Pool.Connection
  connectionMap : StdMap Addr Nat
  calls : List Pool.Call

namespace Pool

def empty : Pool := ⟨[], .empty, []⟩

def get (remotePeer : Addr) (p : Pool) : Option Nat := p.connectionMap.find? remotePeer

def insert (remotePeer : Addr) (k : Nat) (p : Pool) : Pool :=
  { p with connectionMap := p.connectionMap.set remotePeer k }

def remove (remotePeer : Addr) (p : Pool) : Pool := { p with connectionMap := p.connectionMap.erase remotePeer }

/-- `make_shared`: the next number. -/
def make (c : Connection) (p : Pool) : Pool := { p with connections := p.connections ++ [c] }

def update (k : Nat) (f : Connection → Connection) (p : Pool) : Pool :=
  { p with connections := p.connections.modify k f }

def setSocket (k : Nat) (socket : Socket) (p : Pool) : Pool := p.update k fun c => { c with socket := socket }

def readHeader (k : Nat) (p : Pool) : Pool := p.update k fun c => { c with reading := true }

def deliver (k : Nat) (msg : Bytes) (p : Pool) : Pool := p.update k fun c => { c with writes := c.writes ++ [msg] }

/-- An RPC is handed to a connection. -/
def hand (peer : Addr) (k : Nat) (p : Pool) : Pool := { p with calls := ⟨peer, k⟩ :: p.calls }

def makeRpcCall (rpcType : RpcType) (server : Addr) (rpcMsg : Bytes) (p : Pool) : Option Pool :=
  (RPC.makeRpcCall rpcType rpcMsg).map fun encoded =>
    match p.get server with
    | none => (p.make ⟨server, .connecting encoded, false, []⟩).hand server p.connections.length
    | some k => (p.deliver k encoded).hand server k

/-- The handler of `connection::connect`; with an error it does nothing. -/
def connected (k : Nat) (ok : Bool) (p : Pool) : Option Pool :=
  match p.connections[k]? with
  | some ⟨peer, .connecting msg, _, _⟩ =>
    some (if ok then ((p.setSocket k .opened).readHeader k |>.insert peer k).deliver k msg
      else p.setSocket k .closed)
  | _ => none

/-- `startAccept`'s handler: the constructor and `start`. When the peer is gone,
`remote_endpoint` throws and `remote_peer_` is what a tuple is built with. -/
def accept (remote : Option Addr) (p : Pool) : Pool :=
  let k := p.connections.length
  let c : Connection :=
    match remote with
    | some peer => ⟨peer, .opened, false, []⟩
    | none => ⟨⟨"", 0⟩, .closed, false, []⟩
  ((p.make c).insert c.remotePeer k).readHeader k

/-- The handler of `deliver`'s write. -/
def written (k : Nat) (ok : Bool) (p : Pool) : Option Pool :=
  match p.connections[k]? with
  | some ⟨peer, _, _, _ :: writes⟩ =>
    let p := p.update k fun c => { c with writes := writes }
    some (if ok then p else (p.setSocket k .closed).remove peer)
  | _ => none

/-- `read_body` with an error. -/
def readFailed (k : Nat) (p : Pool) : Option Pool :=
  match p.connections[k]? with
  | some ⟨peer, _, true, _⟩ =>
    some (((p.update k fun c => { c with reading := false }).setSocket k .closed).remove peer)
  | _ => none

/-- What happens next. -/
inductive Event where
  | call (rpcType : RpcType) (server : Addr) (rpcMsg : Bytes)
  | connected (k : Nat) (ok : Bool)
  | accept (remote : Option Addr)
  | written (k : Nat) (ok : Bool)
  | readFailed (k : Nat)
deriving Repr

def step (p : Pool) : Event → Option Pool
  | .call rpcType server rpcMsg => p.makeRpcCall rpcType server rpcMsg
  | .connected k ok => p.connected k ok
  | .accept remote => some (p.accept remote)
  | .written k ok => p.written k ok
  | .readFailed k => p.readFailed k

/-! ## What the pool promises -/

/-- The peer of a connection. -/
def peer? (k : Nat) (p : Pool) : Option Addr := p.connections[k]?.map (·.remotePeer)

def socket? (k : Nat) (p : Pool) : Option Socket := p.connections[k]?.map (·.socket)

/-- The connect of a connection is pending. -/
def Connecting (k : Nat) (p : Pool) : Prop := ∃ msg, p.socket? k = some (.connecting msg)

/-- The connection an event closes. -/
def Event.closes : Event → Option Nat
  | .written k false | .readFailed k => some k
  | _ => none

/-- The pool is consistent across a step. -/
structure Consistent (p : Pool) (e : Event) (p' : Pool) : Prop where
  /-- An entry for a peer is an open connection to it. -/
  entries : ∀ {peer k}, p'.get peer = some k → p'.peer? k = some peer ∧ p'.socket? k = some .opened
  /-- Closing a connection leaves the entries of the open ones alone. -/
  closes : ∀ {j}, e.closes = some j → ∀ {peer k}, p.get peer = some k → k ≠ j → p.socket? k = some .opened →
    p'.get peer = some k
  /-- A call goes to the connection that an earlier one to the peer waits for. -/
  calls : ∀ {call}, p'.calls = call :: p.calls → ∀ first ∈ p.calls, first.peer = call.peer →
    p.Connecting first.connection → call.connection = first.connection

/-- An event that does no harm. -/
def Harmless (p : Pool) : Event → Prop
  | .call _ server _ => ∀ k, p.peer? k = some server → ¬ p.Connecting k
  | .accept remote => remote.isSome
  | .written k false | .readFailed k => ∀ {peer}, p.peer? k = some peer → ∀ {k'}, p.get peer = some k' → k' = k
  | _ => True

/-! ## What the steps do -/

section

variable {p p' : Pool} {k j : Nat} {f : Connection → Connection} {peer remotePeer : Addr} {c : Connection}
  {s : Socket}
  {msg : Bytes}

theorem getElem?_update :
    (p.update k f).connections[j]? = if k = j then p.connections[j]?.map f else p.connections[j]? := by
  simp only [update, List.getElem?_modify]
  split <;> simp

theorem peer?_update (hf : ∀ c, (f c).remotePeer = c.remotePeer) : (p.update k f).peer? j = p.peer? j := by
  simp only [peer?, getElem?_update]
  split <;> simp [Function.comp_def, hf]

theorem socket?_update (hf : ∀ c, (f c).socket = c.socket) : (p.update k f).socket? j = p.socket? j := by
  simp only [socket?, getElem?_update]
  split <;> simp [Function.comp_def, hf]

theorem socket?_setSocket :
    (p.setSocket k s).socket? j = if k = j then (p.socket? j).map fun _ => s else p.socket? j := by
  simp only [socket?, setSocket, getElem?_update]
  split <;> simp [Function.comp_def]

@[simp] theorem peer?_setSocket : (p.setSocket k s).peer? j = p.peer? j := peer?_update fun _ => rfl
@[simp] theorem peer?_readHeader : (p.readHeader k).peer? j = p.peer? j := peer?_update fun _ => rfl
@[simp] theorem peer?_deliver : (p.deliver k msg).peer? j = p.peer? j := peer?_update fun _ => rfl
@[simp] theorem peer?_insert : (p.insert remotePeer k).peer? j = p.peer? j := rfl
@[simp] theorem peer?_remove : (p.remove remotePeer).peer? j = p.peer? j := rfl
@[simp] theorem peer?_hand : (p.hand remotePeer k).peer? j = p.peer? j := rfl

@[simp] theorem socket?_readHeader : (p.readHeader k).socket? j = p.socket? j := socket?_update fun _ => rfl
@[simp] theorem socket?_deliver : (p.deliver k msg).socket? j = p.socket? j := socket?_update fun _ => rfl
@[simp] theorem socket?_insert : (p.insert remotePeer k).socket? j = p.socket? j := rfl
@[simp] theorem socket?_remove : (p.remove remotePeer).socket? j = p.socket? j := rfl
@[simp] theorem socket?_hand : (p.hand remotePeer k).socket? j = p.socket? j := rfl

theorem getElem?_make :
    (p.make c).connections[j]? = if j = p.connections.length then some c else p.connections[j]? := by
  simp only [make, List.getElem?_append]
  grind

theorem peer?_make : (p.make c).peer? j = if j = p.connections.length then some c.remotePeer else p.peer? j := by
  simp only [peer?, getElem?_make]
  split <;> rfl

theorem socket?_make : (p.make c).socket? j = if j = p.connections.length then some c.socket else p.socket? j := by
  simp only [socket?, getElem?_make]
  split <;> rfl

@[simp] theorem get_update : (p.update k f).get peer = p.get peer := rfl
@[simp] theorem get_setSocket : (p.setSocket k s).get peer = p.get peer := rfl
@[simp] theorem get_readHeader : (p.readHeader k).get peer = p.get peer := rfl
@[simp] theorem get_deliver : (p.deliver k msg).get peer = p.get peer := rfl
@[simp] theorem get_make : (p.make c).get peer = p.get peer := rfl
@[simp] theorem get_hand : (p.hand remotePeer k).get peer = p.get peer := rfl

theorem get_insert : (p.insert remotePeer k).get peer = if peer = remotePeer then some k else p.get peer :=
  StdMap.find?_set _ _ _ _

theorem get_remove : (p.remove remotePeer).get peer = if peer = remotePeer then none else p.get peer :=
  StdMap.find?_erase _ _ _

theorem lt_of_peer? (h : p.peer? k = some peer) : k < p.connections.length := by
  simp only [peer?, Option.map_eq_some_iff] at h
  obtain ⟨c, hc, -⟩ := h
  exact (List.getElem?_eq_some_iff.mp hc).1

/-- What a call does: its connection is new, or the one of the peer's entry. -/
theorem call_cases {rpcType : RpcType} {server : Addr} {rpcMsg : Bytes}
    (h : p.makeRpcCall rpcType server rpcMsg = some p') :
    ∃ encoded, p.get server = none ∧
      p' = (p.make ⟨server, .connecting encoded, false, []⟩).hand server p.connections.length ∨
      ∃ k, p.get server = some k ∧ p' = (p.deliver k encoded).hand server k := by
  simp only [makeRpcCall, Option.map_eq_some_iff] at h
  obtain ⟨encoded, -, rfl⟩ := h
  refine ⟨encoded, ?_⟩
  cases hget : p.get server <;> simp

/-- What a connect does when it completes. -/
theorem connected_cases {ok : Bool} (h : p.connected k ok = some p') :
    ∃ peer msg, p.peer? k = some peer ∧ p.socket? k = some (.connecting msg) ∧
      (ok = true ∧ p' = (((p.setSocket k .opened).readHeader k).insert peer k).deliver k msg ∨
        ok = false ∧ p' = p.setSocket k .closed) := by
  simp only [connected] at h
  split at h
  · rename_i peer msg reading writes hc
    refine ⟨peer, msg, by simp [peer?, hc], by simp [socket?, hc], ?_⟩
    cases ok <;> simpa [eq_comm] using h
  · cases h

/-- What an error of connection `k` to `peer` makes of the pool. -/
structure Closes (k : Nat) (peer : Addr) (p p' : Pool) : Prop where
  remote : p.peer? k = some peer
  entry : ∀ x, p'.get x = if x = peer then none else p.get x
  peers : ∀ j, p'.peer? j = p.peer? j
  sockets : ∀ j, p'.socket? j = if k = j then (p.socket? j).map fun _ => .closed else p.socket? j
  calls : p'.calls = p.calls

theorem closes_update (hpeer : p.peer? k = some peer) (hf : ∀ c, (f c).remotePeer = c.remotePeer)
    (hs : ∀ c, (f c).socket = c.socket) : Closes k peer p (((p.update k f).setSocket k .closed).remove peer) :=
  ⟨hpeer, fun x => by simp [get_remove], fun j => by simp [peer?_update hf],
    fun j => by simp [socket?_setSocket, socket?_update hs], rfl⟩

/-- **What closing a connection does**: the entry of its peer goes. -/
theorem closes_cases {e : Event} (h : p.step e = some p') (hk : e.closes = some k) :
    ∃ peer, Closes k peer p p' := by
  cases e with
  | written j ok =>
    cases ok with
    | true => cases hk
    | false =>
      obtain rfl : j = k := Option.some.inj hk
      simp only [step, written] at h
      split at h
      · rename_i peer socket reading msg writes hc
        obtain rfl := Option.some.inj h
        exact ⟨peer, closes_update (by simp [peer?, hc]) (fun _ => rfl) fun _ => rfl⟩
      · cases h
  | readFailed j =>
    obtain rfl : j = k := Option.some.inj hk
    simp only [step, readFailed] at h
    split at h
    · rename_i peer socket writes hc
      obtain rfl := Option.some.inj h
      exact ⟨peer, closes_update (by simp [peer?, hc]) (fun _ => rfl) fun _ => rfl⟩
    · cases h
  | call | connected | accept => cases hk

theorem written_cases (h : p.written k true = some p') :
    (∀ x, p'.get x = p.get x) ∧ (∀ j, p'.peer? j = p.peer? j) ∧ (∀ j, p'.socket? j = p.socket? j) ∧
    p'.calls = p.calls := by
  simp only [written] at h
  split at h
  · obtain rfl := Option.some.inj h
    exact ⟨fun _ => rfl, fun _ => peer?_update fun _ => rfl, fun _ => socket?_update fun _ => rfl, rfl⟩
  · cases h

end

/-! ## The invariant -/

/-- A pool that was consistent so far. -/
structure Sound (p : Pool) : Prop where
  entries : ∀ {peer k}, p.get peer = some k → p.peer? k = some peer ∧ p.socket? k = some .opened
  /-- A call goes to a connection to its peer. -/
  callee : ∀ call ∈ p.calls, p.peer? call.connection = some call.peer
  /-- A connection that is connecting was made for a call. -/
  caller : ∀ {k}, p.Connecting k → ∃ call ∈ p.calls, call.connection = k

theorem sound_empty : empty.Sound := ⟨by simp [empty, get], by simp [empty], by simp [empty, Connecting, socket?]⟩

variable {p p' : Pool} {e : Event} {k : Nat}

theorem Sound.call (h : p.Sound) {rpcType : RpcType} {server : Addr} {rpcMsg : Bytes}
    (hs : p.makeRpcCall rpcType server rpcMsg = some p') : p'.Sound := by
  obtain ⟨encoded, ⟨hnone, rfl⟩ | ⟨k, hk, rfl⟩⟩ := call_cases hs
  · refine ⟨?_, ?_, ?_⟩
    · intro peer k hget
      obtain ⟨hpeer, hsocket⟩ := h.entries hget
      have hne := Nat.ne_of_lt (lt_of_peer? hpeer)
      simp [peer?_make, socket?_make, hne, hpeer, hsocket]
    · intro call hcall
      rcases List.mem_cons.mp hcall with rfl | hcall
      · simp [peer?_make]
      · have hpeer := h.callee call hcall
        simp [peer?_make, Nat.ne_of_lt (lt_of_peer? hpeer), hpeer]
    · intro k hk
      by_cases hlast : k = p.connections.length
      · exact ⟨⟨server, p.connections.length⟩, by simp [hand], hlast.symm⟩
      · obtain ⟨call, hcall, hconn⟩ := h.caller (k := k) (by simpa [Connecting, socket?_make, hlast] using hk)
        exact ⟨call, by simp [hand, make, hcall], hconn⟩
  · refine ⟨fun hget => by simpa using h.entries hget, ?_, ?_⟩
    · intro call hcall
      rcases List.mem_cons.mp hcall with rfl | hcall
      · simp [(h.entries hk).1]
      · simpa using h.callee call hcall
    · intro j hj
      obtain ⟨call, hcall, hconn⟩ := h.caller (k := j) (by simpa [Connecting] using hj)
      exact ⟨call, by simp [hand, deliver, update, hcall], hconn⟩

theorem Sound.connected (h : p.Sound) {ok : Bool} (hs : p.connected k ok = some p') : p'.Sound := by
  obtain ⟨peer, msg, hpeer, hsocket, ⟨-, rfl⟩ | ⟨-, rfl⟩⟩ := connected_cases hs
  · refine ⟨?_, fun call hcall => by simpa using h.callee call hcall, ?_⟩
    · intro x j hget
      simp only [get_deliver, get_insert, get_readHeader, get_setSocket] at hget
      split at hget
      · rename_i hx
        obtain rfl := Option.some.inj hget
        simp [socket?_setSocket, hpeer, hsocket, hx]
      · obtain ⟨hp, hj⟩ := h.entries hget
        simp [socket?_setSocket, hp, hj]
    · intro j ⟨m, hj⟩
      simp only [socket?_deliver, socket?_insert, socket?_readHeader, socket?_setSocket] at hj
      split at hj
      · simp at hj
      · exact h.caller ⟨m, hj⟩
  · refine ⟨?_, fun call hcall => by simpa using h.callee call hcall, ?_⟩
    · intro x j hget
      obtain ⟨hp, hj⟩ := h.entries hget
      have hne : k ≠ j := by
        intro hkj
        simp [hkj, hj] at hsocket
      simp [socket?_setSocket, hp, hj, hne]
    · intro j ⟨m, hj⟩
      rw [socket?_setSocket] at hj
      split at hj
      · simp at hj
      · exact h.caller ⟨m, hj⟩

theorem Sound.accept (h : p.Sound) (peer : Addr) : (p.accept (some peer)).Sound := by
  refine ⟨?_, ?_, ?_⟩
  · intro x k hget
    simp only [Pool.accept, get_readHeader, get_insert, get_make] at hget
    split at hget
    · rename_i hx
      obtain rfl := Option.some.inj hget
      simp [Pool.accept, peer?_make, socket?_make, hx]
    · obtain ⟨hp, hk⟩ := h.entries hget
      simp [Pool.accept, peer?_make, socket?_make, Nat.ne_of_lt (lt_of_peer? hp), hp, hk]
  · intro call hcall
    have hp := h.callee call hcall
    simp [Pool.accept, peer?_make, Nat.ne_of_lt (lt_of_peer? hp), hp]
  · intro k ⟨m, hk⟩
    simp only [Pool.accept, socket?_readHeader, socket?_insert, socket?_make] at hk
    split at hk
    · cases hk
    · exact h.caller ⟨m, hk⟩

theorem Sound.closed (h : p.Sound) (hs : p.step e = some p') (hk : e.closes = some k) : p'.Sound := by
  obtain ⟨peer, hc⟩ := closes_cases hs hk
  refine ⟨?_, ?_, ?_⟩
  · intro x j hget
    rw [hc.entry] at hget
    split at hget
    · cases hget
    · rename_i hx
      obtain ⟨hp, hj⟩ := h.entries hget
      have hne : k ≠ j := by
        intro hkj
        rw [← hkj, hc.remote] at hp
        exact hx (Option.some.inj hp).symm
      rw [hc.peers, hc.sockets, if_neg hne]
      exact ⟨hp, hj⟩
  · intro call hcall
    rw [hc.peers]
    exact h.callee call (hc.calls ▸ hcall)
  · intro j ⟨m, hj⟩
    rw [hc.sockets] at hj
    split at hj
    · simp at hj
    · rw [hc.calls]
      exact h.caller ⟨m, hj⟩

theorem Sound.written (h : p.Sound) (hs : p.written k true = some p') : p'.Sound := by
  obtain ⟨hget', hpeer', hsocket', hcalls⟩ := written_cases hs
  refine ⟨?_, ?_, ?_⟩
  · intro x j hget
    rw [hpeer', hsocket']
    exact h.entries (hget' x ▸ hget)
  · intro call hcall
    rw [hpeer']
    exact h.callee call (hcalls ▸ hcall)
  · intro j ⟨m, hj⟩
    rw [hcalls]
    exact h.caller ⟨m, hsocket' j ▸ hj⟩

/-- **A harmless event keeps the invariant.** -/
theorem Sound.step (h : p.Sound) (he : p.Harmless e) (hs : p.step e = some p') : p'.Sound := by
  cases e with
  | call => exact h.call hs
  | connected => exact h.connected hs
  | accept remote =>
    cases remote with
    | none => simp [Harmless] at he
    | some peer =>
      obtain rfl := Option.some.inj hs
      exact h.accept peer
  | written k ok =>
    cases ok with
    | true => exact h.written hs
    | false => exact h.closed hs rfl
  | readFailed => exact h.closed hs rfl

/-- A call made while another to the peer waits for its connect goes elsewhere: to
the connection of the entry, which is open, or to a new one. -/
theorem Sound.call_iff (h : p.Sound) {rpcType : RpcType} {server : Addr} {rpcMsg : Bytes}
    (hs : p.makeRpcCall rpcType server rpcMsg = some p') :
    (∀ {call}, p'.calls = call :: p.calls → ∀ first ∈ p.calls, first.peer = call.peer →
    p.Connecting first.connection →
      call.connection = first.connection) ↔ ∀ k, p.peer? k = some server → ¬ p.Connecting k := by
  obtain ⟨j, hcalls, helse⟩ : ∃ j, p'.calls = ⟨server, j⟩ :: p.calls ∧
      ∀ k, p.peer? k = some server → p.Connecting k → j ≠ k := by
    obtain ⟨encoded, ⟨-, rfl⟩ | ⟨j, hj, rfl⟩⟩ := call_cases hs
    · exact ⟨_, rfl, fun k hk _ => Nat.ne_of_gt (lt_of_peer? hk)⟩
    · refine ⟨j, rfl, ?_⟩
      intro k _ ⟨msg, hk⟩ hjk
      rw [← hjk, (h.entries hj).2] at hk
      cases hk
  constructor
  · intro hcall k hpeer hk
    obtain ⟨first, hfirst, rfl⟩ := h.caller hk
    have hsame : first.peer = server := by
      have := h.callee first hfirst
      rw [hpeer] at this
      exact (Option.some.inj this).symm
    exact helse _ hpeer hk (hcall hcalls first hfirst hsame hk)
  · intro hno call hcall first hfirst hsame hk
    obtain rfl : (⟨server, j⟩ : Call) = call := (List.cons_eq_cons.mp (hcalls ▸ hcall)).1
    have hpeer := h.callee first hfirst
    rw [hsame] at hpeer
    exact absurd hk (hno _ hpeer)

/-- Closing a connection erases the entry of an open one exactly when the peer's entry is another connection. -/
theorem Sound.closes_iff (h : p.Sound) (hs : p.step e = some p') (hk : e.closes = some k) :
    (∀ {peer j}, p.get peer = some j → j ≠ k → p.socket? j = some .opened → p'.get peer = some j) ↔
      ∀ {peer}, p.peer? k = some peer → ∀ {j}, p.get peer = some j → j = k := by
  obtain ⟨peer, hc⟩ := closes_cases hs hk
  constructor
  · intro hkeep x hx j hj
    obtain rfl : peer = x := Option.some.inj (hc.remote.symm.trans hx)
    by_contra hne
    have hlost := hkeep hj hne (h.entries hj).2
    simp [hc.entry] at hlost
  · intro hown x j hj hne _
    have hx : x ≠ peer := by
      intro hx
      exact hne (hown hc.remote (hx ▸ hj))
    rw [hc.entry, if_neg hx, hj]

theorem calls_eq (hs : p.step e = some p') (he : ∀ rpcType server rpcMsg, e ≠ .call rpcType server rpcMsg) :
    p'.calls = p.calls := by
  cases e with
  | call => exact absurd rfl (he _ _ _)
  | connected k ok => obtain ⟨peer, msg, -, -, ⟨-, rfl⟩ | ⟨-, rfl⟩⟩ := connected_cases hs <;> rfl
  | accept remote =>
    obtain rfl := Option.some.inj hs
    rfl
  | written k ok =>
    cases ok with
    | true => exact (written_cases hs).2.2.2
    | false =>
      obtain ⟨peer, hc⟩ := closes_cases hs rfl
      exact hc.calls
  | readFailed k =>
    obtain ⟨peer, hc⟩ := closes_cases hs rfl
    exact hc.calls

/-- **From a pool that was consistent so far, the consistent steps are the harmless ones.** -/
theorem Sound.consistent_iff (h : p.Sound) (hs : p.step e = some p') : Consistent p e p' ↔ p.Harmless e := by
  constructor
  · intro hc
    cases e with
    | call => exact (h.call_iff hs).mp hc.calls
    | connected => trivial
    | accept remote =>
      cases remote with
      | some peer => rfl
      | none =>
        -- the entry is a connection that was never open
        obtain rfl := Option.some.inj hs
        have hentry : (p.accept none).get ⟨"", 0⟩ = some p.connections.length := by simp [Pool.accept, get_insert]
        have hclosed := (hc.entries hentry).2
        simp [Pool.accept, socket?_make] at hclosed
    | written k ok =>
      cases ok with
      | true => trivial
      | false => exact (h.closes_iff hs rfl).mp (hc.closes rfl)
    | readFailed k => exact (h.closes_iff hs rfl).mp (hc.closes rfl)
  · intro he
    refine ⟨(h.step he hs).entries, ?_, ?_⟩
    · intro k hk
      refine (h.closes_iff hs hk).mpr ?_
      cases e with
      | written j ok =>
        cases ok with
        | true => cases hk
        | false =>
          obtain rfl : j = k := Option.some.inj hk
          exact he
      | readFailed j =>
        obtain rfl : j = k := Option.some.inj hk
        exact he
      | call | connected | accept => cases hk
    · intro call hcall
      cases e with
      | call => exact (h.call_iff hs).mpr he hcall
      | connected | accept | written | readFailed =>
        rw [calls_eq hs (by simp)] at hcall
        exact absurd hcall (List.ne_cons_self)

end Pool

/-- **The connection pool** is consistent in a run exactly when its events are harmless: no call to a peer while a
connect to it is pending, no peer that is gone when it is accepted, and no connection closed while another is
in its peer's entry. -/
theorem pool_consistent_iff (events : List Pool.Event) :
    Always Pool.step Pool.Consistent .empty events ↔ Always Pool.step (fun p e _ => p.Harmless e) .empty events :=
  always_congr (fun h hs hc => h.step ((h.consistent_iff hs).mp hc) hs)
  (fun h hs => h.consistent_iff hs) Pool.sound_empty

/-- Two calls to a peer, the second before the first one's connect has completed. -/
def twoConnects : List Pool.Event :=
  [.call .requestVote ⟨"127.0.0.1", 8000⟩ [], .call .requestVote ⟨"127.0.0.1", 8000⟩ [], .connected 0 true,
    .connected 1 true]

/-- Each call makes a connection, and the one that fails first takes the entry of the other. -/
theorem twoConnects_inconsistent : ¬ ∀ events, Always Pool.step Pool.Consistent .empty events := by
  intro hall
  obtain ⟨p, hrun, hp⟩ := (Option.any_eq_true _ _).mp (show (twoConnects.foldlM Pool.step .empty).any (fun p =>
    p.get ⟨"127.0.0.1", 8000⟩ == some 1 && p.socket? 1 == some .opened && (p.step (.readFailed 0)).any fun p' =>
      p'.get ⟨"127.0.0.1", 8000⟩ == none) = true by decide +kernel)
  simp only [Bool.and_eq_true, beq_iff_eq, Option.any_eq_true] at hp
  obtain ⟨⟨hentry, hopened⟩, p', hstep, hlost⟩ := hp
  have hc := (hall (twoConnects ++ [.readFailed 0])).at hrun hstep
  rw [hc.closes rfl hentry (by decide) hopened] at hlost
  cases hlost

end MyRaft
