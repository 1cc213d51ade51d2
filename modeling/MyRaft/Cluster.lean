/-
A cluster of processes that run `RaftServer`, the network between them and
their clients.

A process is one thread that runs handlers to completion (`ioContext.run`), one
worker that applies entries, and the readers. A call of the state machine is one
step here; nothing in the source keeps the worker and the readers apart. The
network delivers a packet at most once and in any order; a packet that is lost
is one that stays in flight. A handler that throws ends its process, so a run of
the cluster is crash-free exactly when every handler in it returns.

Timers fire when they please. The reactor moves the waits whose deadline has
passed to the ready queue in one batch and asio queues the reactor behind that
batch, so the next batch forms only when the queue is empty; between the
handlers of a batch, messages are handled, and a wait that sits in the queue is
out of the reach of `expires_at`, `expires_from_now` and `cancel`.

`trace`, and `call` and `sender` of a packet, record the run; no handler reads
them.
-/
import MyRaft.Server
import Mathlib.Logic.Function.Basic
import Mathlib.Tactic.Simps.Basic

namespace MyRaft

open StdLib (StdMap)

/-- The virtual functions of `StateMachine` a server calls. `get` may change the
state: nothing in the interface forbids it. -/
class StateMachine (SM : Type) where
  initial : SM
  apply : SM → String → SM × String
  get : SM → String → SM × String

/-- The configuration file every server reads; its servers are distinct. -/
structure Cluster where
  configuration : List Addr
  nodup : configuration.Nodup

structure Packet where
  src : Addr
  dst : Addr
  rpc : Rpc
  /-- The message whose handler sent this one. -/
  call : Option Rpc
  /-- The sender when that handler returned. -/
  sender : RaftServer

/-- What a worker posts back to the event loop. -/
inductive Callback where
  | writeRespApplyCall (entryIndex : Int) (res : String)
  | writeRespQueryCall (client : Addr) (res : String)

inductive TimerId where
  | candidate
  | retry (server : Addr)

/-- One thing a process does. -/
inductive Input where
  | message (packet : Packet)
  | clientApply (client : Addr) (body : String)
  | clientQuery (client : Addr) (body : String)
  /-- The reactor finds the deadlines of these timers passed. -/
  | poll (timers : List TimerId)
  | timer (handler : TimerHandler)
  /-- The write worker runs the task of an entry. -/
  | work (index : Int) (msg : String)
  | read (body : String) (client : Addr)
  | callback (cb : Callback)

/-- The message an input is, if it is one. -/
def Input.call : Input → Option Rpc
  | .message packet => some packet.rpc
  | _ => none

/-- The packet an input is, if it is one. -/
def Input.packet? : Input → Option Packet
  | .message packet => some packet
  | _ => none

theorem Input.mem_packet? {input : Input} {p : Packet} : p ∈ input.packet? ↔ input = .message p := by
  cases input <;> simp [Input.packet?]

/-- The RV an input is, if it is one. -/
def Input.requestVote? (input : Input) : Option RequestVoteRpc :=
  match input.call with
  | some (.requestVote rpc) => some rpc
  | _ => none

/-- The `RESP_APPEND` an input is, if it is one. -/
def Input.respAppend? (input : Input) : Option RespAppendEntryRpc :=
  match input.call with
  | some (.respAppend rpc) => some rpc
  | _ => none

theorem Input.mem_respAppend? {input : Input} {resp : RespAppendEntryRpc} :
    resp ∈ input.respAppend? ↔ ∃ p, input = .message p ∧ p.rpc = .respAppend resp := by
  unfold Input.respAppend? Input.call
  cases input with
  | message p =>
    cases hp : p.rpc <;> simp [hp]
  | _ => simp

namespace RaftServer

/-- The waits a timer has when its deadline passes, and the server without them. -/
def expire (id : TimerId) (s : RaftServer) : List TimerHandler × RaftServer :=
  match id with
  | .candidate => (s.candidateTimer.waits, { s with candidateTimer := { s.candidateTimer with waits := [] } })
  | .retry server =>
    match s.retryTimers.find? server with
    | some timer => (timer.waits, { s with retryTimers := s.retryTimers.set server { timer with waits := [] } })
    | none => ([], s)

def poll : List TimerId → RaftServer → List TimerHandler × RaftServer
  | [], s => ([], s)
  | id :: ids, s =>
    let (expired, s) := s.expire id
    let (rest, s) := s.poll ids
    (expired ++ rest, s)

/-- The server once its effects are taken away. -/
@[simps] def taken (s : RaftServer) : RaftServer := { s with effects := [] }

/-- What an input does to the server. -/
def handle (input : Input) (s : RaftServer) : Except Exn RaftServer :=
  match input with
  | .message packet => s.reactToIncomingMsg packet.rpc packet.src
  | .clientApply client body => s.reactToIncomingMsg (.clientApply body) client
  | .clientQuery client body => s.reactToIncomingMsg (.clientQuery body) client
  | .poll timers => .ok (s.poll timers).2
  | .timer handler => s.onExpire handler
  | .work _ _ | .read _ _ => .ok s
  | .callback (.writeRespApplyCall entryIndex res) => .ok (s.writeRespApplyCall entryIndex res)
  | .callback (.writeRespQueryCall client res) => .ok (s.writeRespQueryCall client res)

end RaftServer

/-- An input handled: the server before, and when the handler returned. -/
structure Event where
  server : Addr
  input : Input
  before : RaftServer
  after : RaftServer

/-- What the handler of an event asked for. -/
def Event.effects (e : Event) : List Effect := e.after.effects

def Effect.packet? (e : Event) : Effect → Option Packet
  | .rpc dst m => some ⟨e.server, dst, m, e.input.call, e.after⟩
  | _ => none

/-- The packets an event puts on the network. -/
def Event.packets (e : Event) : List Packet := e.effects.filterMap (Effect.packet? e)

/-- A process: the server, the ready queue of its timers, the queues of the two
thread pools, the callbacks they posted, and the state machine. -/
structure Node (SM : Type) where
  raft : RaftServer
  ready : List TimerHandler
  writePool : List (Int × String)
  readPool : List (String × Addr)
  posted : List Callback
  stateMachine : SM

def Effect.task? : Effect → Option (Int × String)
  | .apply index msg => some (index, msg)
  | _ => none

def Effect.query? : Effect → Option (String × Addr)
  | .query body client => some (body, client)
  | _ => none

section System

variable {SM : Type} [StateMachine SM]

/-- The queues after an input, before what its handler asked for is added; the worker's `apply_call` and a
reader's `get_call` are atomic. -/
def Node.take (n : Node SM) : Input → Node SM
  | .poll timers => { n with ready := n.ready ++ (n.raft.poll timers).1 }
  | .timer _ => { n with ready := n.ready.tail }
  | .work index msg =>
    let (stateMachine, res) := StateMachine.apply n.stateMachine msg
    { n with
      writePool := n.writePool.tail
      stateMachine := stateMachine
      posted := n.posted ++ [.writeRespApplyCall index res] }
  | .read body client =>
    let (stateMachine, res) := StateMachine.get n.stateMachine body
    { n with
      readPool := n.readPool.erase (body, client)
      stateMachine := stateMachine
      posted := n.posted ++ [.writeRespQueryCall client res] }
  | .callback _ => { n with posted := n.posted.tail }
  | .message _ | .clientApply _ _ | .clientQuery _ _ => n

def Node.next (n : Node SM) (e : Event) : Node SM :=
  let n := n.take e.input
  { n with
    raft := e.after.taken
    writePool := n.writePool ++ e.effects.filterMap Effect.task?
    readPool := n.readPool ++ e.effects.filterMap Effect.query? }

structure System (SM : Type) where
  nodes : Addr → Node SM
  inflight : List Packet
  /-- The events so far, newest first. -/
  trace : List Event

namespace System

def raft (σ : System SM) (s : Addr) : RaftServer := (σ.nodes s).raft

def start (c : Cluster) : System SM where
  nodes s := ⟨RaftServer.start s c.configuration, [], [], [], [], StateMachine.initial⟩
  inflight := []
  trace := []

/-- The inputs a server can take next, each with the packets it leaves in flight. -/
inductive Offers (σ : System SM) (s : Addr) : Input → List Packet → Prop
  | message {pre packet post} : σ.inflight = pre ++ packet :: post → packet.dst = s →
      Offers σ s (.message packet) (pre ++ post)
  | clientApply (client body) : Offers σ s (.clientApply client body) σ.inflight
  | clientQuery (client body) : Offers σ s (.clientQuery client body) σ.inflight
  | poll (timers) : (σ.nodes s).ready = [] → Offers σ s (.poll timers) σ.inflight
  | timer {handler rest} : (σ.nodes s).ready = handler :: rest → Offers σ s (.timer handler) σ.inflight
  | work {index msg rest} : (σ.nodes s).writePool = (index, msg) :: rest →
      Offers σ s (.work index msg) σ.inflight
  | read {body client} : (body, client) ∈ (σ.nodes s).readPool → Offers σ s (.read body client) σ.inflight
  | callback {cb rest} : (σ.nodes s).posted = cb :: rest → Offers σ s (.callback cb) σ.inflight

/-- The event of a handler that returned `r`. -/
def event (σ : System SM) (s : Addr) (input : Input) (r : RaftServer) : Event := ⟨s, input, σ.raft s, r⟩

/-- The system after an event that left `rest` in flight. -/
def next (σ : System SM) (e : Event) (rest : List Packet) : System SM where
  nodes := Function.update σ.nodes e.server ((σ.nodes e.server).next e)
  inflight := rest ++ e.packets
  trace := e :: σ.trace

end System

/-- The states of the crash-free runs of a cluster. -/
inductive Reachable (c : Cluster) : System SM → Prop
  | start : Reachable c (System.start c)
  | step {σ : System SM} {s input rest r} : Reachable c σ → s ∈ c.configuration →
      σ.Offers s input rest → (σ.raft s).handle input = .ok r →
      Reachable c (σ.next (σ.event s input r) rest)

/-! ## Running a schedule -/

/-- A choice of what happens next; packets in flight are named by position. -/
inductive Action where
  | deliver (i : Nat)
  | clientApply (s client : Addr) (body : String)
  | clientQuery (s client : Addr) (body : String)
  | poll (s : Addr) (timers : List TimerId)
  | timer (s : Addr)
  | work (s : Addr)
  | read (s : Addr)
  | callback (s : Addr)

namespace System

/-- The server, the input and the packets left by an action, if it is possible. -/
def offer (σ : System SM) : Action → Option (Addr × Input × List Packet)
  | .deliver i =>
    (σ.inflight[i]?).map fun packet =>
      (packet.dst, .message packet, σ.inflight.take i ++ σ.inflight.drop (i + 1))
  | .clientApply s client body => some (s, .clientApply client body, σ.inflight)
  | .clientQuery s client body => some (s, .clientQuery client body, σ.inflight)
  | .poll s timers => if (σ.nodes s).ready.isEmpty then some (s, .poll timers, σ.inflight) else none
  | .timer s => (σ.nodes s).ready.head?.map fun handler => (s, .timer handler, σ.inflight)
  | .work s => (σ.nodes s).writePool.head?.map fun task => (s, .work task.1 task.2, σ.inflight)
  | .read s => (σ.nodes s).readPool.head?.map fun task => (s, .read task.1 task.2, σ.inflight)
  | .callback s => (σ.nodes s).posted.head?.map fun cb => (s, .callback cb, σ.inflight)

/-- The system after an action, if the action is possible and its handler returns. -/
def act (c : Cluster) (σ : System SM) (a : Action) : Option (System SM) :=
  match σ.offer a with
  | none => none
  | some (s, input, rest) =>
    if s ∈ c.configuration then
      match (σ.raft s).handle input with
      | .ok r => some (σ.next (σ.event s input r) rest)
      | .error _ => none
    else none

def run (c : Cluster) (σ : System SM) : List Action → Option (System SM)
  | [] => some σ
  | a :: as => (σ.act c a).bind fun σ' => σ'.run c as

omit [StateMachine SM] in
theorem offer_offers {σ : System SM} {a : Action} {s input rest} (h : σ.offer a = some (s, input, rest)) :
    σ.Offers s input rest := by
  cases a with
  | deliver i =>
    simp only [offer, Option.map_eq_some_iff, Prod.mk.injEq] at h
    obtain ⟨packet, hp, rfl, rfl, rfl⟩ := h
    obtain ⟨hi, rfl⟩ := List.getElem?_eq_some_iff.mp hp
    refine .message ?_ rfl
    rw [← List.drop_eq_getElem_cons hi, List.take_append_drop]
  | clientApply s client body => cases h; exact .clientApply client body
  | clientQuery s client body => cases h; exact .clientQuery client body
  | poll s timers =>
    simp only [offer] at h
    split at h
    · rename_i hr
      cases h
      exact .poll timers (List.isEmpty_iff.mp hr)
    · cases h
  | timer s =>
    simp only [offer, Option.map_eq_some_iff, Prod.mk.injEq] at h
    obtain ⟨handler, hh, rfl, rfl, rfl⟩ := h
    obtain ⟨rest, hr⟩ := List.head?_eq_some_iff.mp hh
    exact .timer hr
  | work s =>
    simp only [offer, Option.map_eq_some_iff, Prod.mk.injEq] at h
    obtain ⟨task, hh, rfl, rfl, rfl⟩ := h
    obtain ⟨rest, hr⟩ := List.head?_eq_some_iff.mp hh
    exact .work hr
  | read s =>
    simp only [offer, Option.map_eq_some_iff, Prod.mk.injEq] at h
    obtain ⟨task, hh, rfl, rfl, rfl⟩ := h
    obtain ⟨rest, hr⟩ := List.head?_eq_some_iff.mp hh
    exact .read (by rw [hr]; simp)
  | callback s =>
    simp only [offer, Option.map_eq_some_iff, Prod.mk.injEq] at h
    obtain ⟨cb, hh, rfl, rfl, rfl⟩ := h
    obtain ⟨rest, hr⟩ := List.head?_eq_some_iff.mp hh
    exact .callback hr

theorem act_eq_some {c : Cluster} {σ σ' : System SM} {a : Action} (h : σ.act c a = some σ') :
    ∃ s input rest r, s ∈ c.configuration ∧ σ.Offers s input rest ∧ (σ.raft s).handle input = .ok r ∧
      σ' = σ.next (σ.event s input r) rest := by
  unfold act at h
  split at h
  · cases h
  · rename_i s input rest ho
    split at h
    · rename_i hs
      split at h
      · rename_i r hh
        cases h
        exact ⟨s, input, rest, r, hs, offer_offers ho, hh, rfl⟩
      · cases h
    · cases h

/-- What each action keeps, a schedule keeps. -/
theorem run_invariant {c : Cluster} {I : System SM → Prop} {as : List Action}
    (hact : ∀ {σ σ' : System SM} {a : Action}, I σ → σ.act c a = some σ' → I σ') :
    ∀ {σ σ' : System SM}, I σ → σ.run c as = some σ' → I σ' := by
  induction as with
  | nil => intro σ σ' hI h; cases h; exact hI
  | cons a as ih =>
    intro σ σ' hI h
    simp only [run, Option.bind_eq_some_iff] at h
    obtain ⟨σ₁, h₁, h₂⟩ := h
    exact ih (hact hI h₁) h₂

theorem run_reachable {c : Cluster} {as : List Action} {σ σ' : System SM} (hr : Reachable c σ)
    (h : σ.run c as = some σ') : Reachable c σ' := by
  refine run_invariant (fun hr hact => ?_) hr h
  obtain ⟨s, input, rest, r, hs, ho, hh, rfl⟩ := act_eq_some hact
  exact .step hr hs ho hh

/-- A property of the state a schedule leads to is one of a reachable state. -/
theorem exists_reachable (c : Cluster) (as : List Action) {P : System SM → Prop} [DecidablePred P]
    (h : ((start c : System SM).run c as).any (fun σ => decide (P σ)) = true) : ∃ σ : System SM,
    Reachable c σ ∧ P σ := by
  obtain ⟨σ, hrun, hP⟩ := (Option.any_eq_true _ _).mp h
  exact ⟨σ, run_reachable .start hrun, of_decide_eq_true hP⟩

end System

end System

/-! ## A cluster of three -/

/-- A state machine that answers nothing. -/
instance : StateMachine Unit := ⟨(), fun _ _ => ((), ""), fun _ _ => ((), "")⟩

def serverA : Addr := ⟨"127.0.0.1", 7777⟩
def serverB : Addr := ⟨"127.0.0.1", 8888⟩
def serverC : Addr := ⟨"127.0.0.1", 9999⟩
def client : Addr := ⟨"127.0.0.1", 5000⟩

def threeServers : Cluster := ⟨[serverA, serverB, serverC], by decide⟩

/-- The candidate timer of a server runs out. -/
def campaign (s : Addr) : List Action := [.poll s [.candidate], .timer s]

/-- A is elected in term 1 with the vote of B; its RV to C is left in flight. -/
def electA : List Action := campaign serverA ++ [.deliver 0, .deliver 1]

/-- Then B gets a copy of its first entry. -/
def copyX : List Action := electA ++ [.clientApply serverA client "x", .deliver 1, .deliver 2, .deliver 2]

/-- And A commits it. -/
def commitX : List Action := copyX ++ [.deliver 2]

end MyRaft
