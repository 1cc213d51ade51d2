/-
Replicas. Whatever becomes of its log and its role, a server has its entries
applied in the order of their indexes, each once and with no gap. Where the
committed logs agree, the servers thus run the commands of one history.
-/
import MyRaft.Safety
import MyRaft.Clients
import MyRaft.Lib.Machines

namespace MyRaft

open History Lineage
open StdLib (StdMap)
open Except (bind_eq_ok pure_eq_ok)

/-! ## Handing over, a handler at a time -/

namespace RaftServer

variable {s t x y : RaftServer}

/-- The tasks a handler asked the write pool for. -/
def tasks (s : RaftServer) : List (Int × String) := s.effects.filterMap Effect.task?

/-- The tasks of `y` go on where those of `x` end, with the next indexes. -/
structure Hands (x y : RaftServer) : Prop where
  next : ∃ (rounds : Nat) (tasks : List (Int × String)), y.tasks = x.tasks ++ tasks ∧
    tasks.map Prod.fst = ((List.range rounds).map fun k : Nat => x.smc.appliedIndex + 1 + k) ∧
    y.smc.appliedIndex = x.smc.appliedIndex + rounds

theorem Hands.none (hs : y.smc.appliedIndex = x.smc.appliedIndex) (ht : y.tasks = x.tasks) : Hands x y :=
  ⟨0, [], by simpa using ht, rfl, by simpa using hs⟩

theorem Hands.trans (h : Hands x y) (h' : Hands y t) : Hands x t := by
  obtain ⟨n, tasks, ht, hi, ha⟩ := h.next
  obtain ⟨n', tasks', ht', hi', ha'⟩ := h'.next
  refine ⟨n + n', tasks ++ tasks', by rw [ht', ht, List.append_assoc], ?_, by omega⟩
  rw [List.map_append, hi, hi', List.range_add, List.map_append, List.map_map]
  exact congrArg _ (List.map_congr_left fun k _ => by simp only [Function.comp_apply]; omega)

/-- What a handler does to other fields first is no matter. -/
theorem Hands.of_frame (h : Hands t y) (hs : t.smc = x.smc) (he : t.effects = x.effects) : Hands x y :=
  Hands.trans (.none (by rw [hs]) (by rw [tasks, he, tasks])) h

theorem Hands.respond (h : Hands x y) (ok : Bool) (a : Addr) (lsn : Int) (isEmptyAe : Bool) :
    Hands x (y.makeRespAe ok a lsn isEmptyAe) :=
  h.trans (.none rfl (by simp [makeRespAe, tasks, makeRpcCall, Effect.task?]))

theorem AE_hands {a : Addr} (h : s.AE a = .ok y) : Hands s y := by
  obtain ⟨n, rpc, -, -, -, rfl⟩ := AE_ok h
  exact .none rfl (by simp [tasks, called, Effect.task?])

theorem updateCommitIndexAndApply_hands {newIndex : Int} (h : s.updateCommitIndexAndApply newIndex = .ok y) :
    Hands s y := by
  obtain ⟨tasks, hnext, rfl⟩ := applyLoop_next _ h
  refine ⟨_, tasks, ?_, hnext.indexes, rfl⟩
  have htasks : (tasks.map taskOf).filterMap Effect.task? = tasks := by
    rw [List.filterMap_map]
    exact List.filterMap_some
  simp [RaftServer.tasks, htasks]

theorem primaryUpdateCommitIndex_hands {a : Addr} {index : Int} (h : s.primaryUpdateCommitIndex a index = .ok y) :
    Hands s y := by
  unfold primaryUpdateCommitIndex at h
  dsimp only at h
  split at h
  · cases h
  · refine Hands.trans ?_ (updateCommitIndexAndApply_hands h)
    exact .none rfl (by simp [tasks, Effect.task?])

theorem followerUpdateCommitIndex_hands {index : Int} (h : s.followerUpdateCommitIndex index = .ok y) :
    Hands s y := by
  simp only [followerUpdateCommitIndex, cappedIndex_eq] at h
  split at h
  · cases h
  · split at h
    · exact (updateCommitIndexAndApply_hands h).of_frame rfl rfl
    · cases h
      exact .none rfl rfl

theorem react2ae_hands {ae : AppendEntryRpc} (h : s.react2ae ae = .ok y) : Hands s y := by
  have hsame : Hands s s := .none rfl rfl
  have hfollower : Hands s (s.becomeFollower ae.term) := .none rfl rfl
  have hfollowing : Hands s (s.following ae) := .none rfl rfl
  unfold react2ae at h
  split at h
  · cases h
  split at h
  · cases h
    exact hsame.respond false ae.server ae.lsn ae.isEmptyAe
  split at h
  · cases h
  rw [bind_eq_ok] at h
  obtain ⟨f, hf, h⟩ := h
  obtain ⟨-, rfl⟩ := trans2F_ok hf
  by_cases hlsn : ae.lsn ≤ (s.becomeFollower ae.term).followerRpcLsn.get ae.server
  · simp only [shouldIgnoreRemoteRpc_eq, hlsn, if_true, pure_eq_ok] at h
    exact h ▸ hfollower
  simp only [shouldIgnoreRemoteRpc_eq, hlsn, if_false, Bool.false_eq_true, bind_eq_ok] at h
  obtain ⟨matched, -, h⟩ := h
  cases matched with
  | false =>
    simp only [Bool.not_false, if_true, pure_eq_ok] at h
    exact h ▸ hfollowing.respond false ae.server ae.lsn ae.isEmptyAe
  | true =>
    simp only [Bool.not_true, Bool.false_eq_true, if_false] at h
    split at h
    · split at h
      · cases h
      · simp only [bind_eq_ok, pure_eq_ok] at h
        obtain ⟨t, ht, rfl⟩ := h
        have hcommits : Hands s t := (followerUpdateCommitIndex_hands ht).of_frame rfl rfl
        exact hcommits.respond true ae.server ae.lsn ae.isEmptyAe
    · split at h
      · cases h
      · simp only [bind_eq_ok, pure_eq_ok] at h
        obtain ⟨es, -, t, ht, rfl⟩ := h
        have hcommits : Hands s t := (followerUpdateCommitIndex_hands ht).of_frame rfl rfl
        exact hcommits.respond true ae.server ae.lsn ae.isEmptyAe

theorem react2respAe_hands {resp : RespAppendEntryRpc} (h : s.react2respAe resp = .ok y) : Hands s y := by
  unfold react2respAe at h
  split at h
  · obtain ⟨-, rfl⟩ := trans2F_ok h
    exact .none rfl rfl
  split at h
  · cases h
    exact .none rfl rfl
  split at h
  swap
  · cases h
  rcases primaryDealRespAeWithSameTerm_ok h with ⟨-, rfl⟩
    | ⟨-, ⟨-, -, h⟩ | ⟨-, -, t, timer, ht, -, h⟩ | ⟨-, -, timer, -, h⟩⟩
  · exact .none rfl rfl
  · exact primaryUpdateCommitIndex_hands h
  · have hupdated : Hands s t := by
      split at ht
      · exact primaryUpdateCommitIndex_hands ht
      · exact (primaryUpdateCommitIndex_hands ht).of_frame rfl rfl
    exact hupdated.trans ((AE_hands h).of_frame rfl rfl)
  · exact (AE_hands h).of_frame rfl rfl

/-- **A handler hands over the next indexes, in order.** -/
theorem handle_hands (hn : x.configuration.Nodup) {input : Input}
    (hreq : ∀ p, input = .message p → p.rpc.ofServer = true) (hx : x.effects = [])
    (h : x.handle input = .ok y) : Hands x y := by
  have hquiet : y.smc = x.smc → (∀ f ∈ y.effects, (∀ a m, f ≠ .rpc a m) → f ∈ x.effects ∨ ∃ b a, f = .query b a) →
      Hands x y := fun hs heff => by
    refine .none (by rw [hs]) ?_
    rw [tasks, tasks, hx, List.filterMap_nil, List.filterMap_eq_nil_iff]
    intro f hf
    cases f with
    | apply i msg =>
      rcases heff _ hf (by simp) with h | ⟨_, _, h⟩
      · simp [hx] at h
      · cases h
    | _ => rfl
  cases handle_outcome hn hreq h with
  | query => exact hquiet rfl (by simp [hx])
  | won hp hterm hstate hlsn hok hm hy | nacked hp hterm hstate hlsn hok hnext hw hy | aeRetried hmin hy =>
    have heff := fun f (hf : f ∈ y.effects) hne => hy.effects (f := f) hf hne
    obtain ⟨_, _, _, rfl⟩ := hy.eq
    exact hquiet rfl fun f hf hne => .inl (heff f hf hne)
  | campaigned hh hy | rvRetried hmin hy =>
    have heff := fun f (hf : f ∈ y.effects) hne => CalledAll.effects (f := f) hy hf hne
    obtain ⟨_, _, _, rfl⟩ := CalledAll.eq hy
    exact hquiet rfl fun f hf hne => .inl (heff f hf hne)
  | aeAccepted hp =>
    simp only [handle, reactToIncomingMsg, hp] at h
    exact react2ae_hands h
  | acked hp =>
    simp only [handle, reactToIncomingMsg, hp] at h
    exact react2respAe_hands h
  | _ => exact hquiet (by simp) (by simp [hx])

end RaftServer

/-- A query is asked of the readers for the client that sent it. -/
theorem RaftServer.Outcome.queried {x y : RaftServer} {input : Input} (hx : x.effects = [])
    (h : RaftServer.Outcome x input y) {body : String} {client : Addr} (hq : .query body client ∈ y.effects) :
    input = .clientQuery client body := by
  cases h with
  | query => simpa [hx, eq_comm, and_comm] using hq
  | won hp hterm hstate hlsn hok hm hy | nacked hp hterm hstate hlsn hok hnext hw hy | aeRetried hmin hy =>
    simpa [hx] using hy.effects hq (by simp)
  | campaigned hh hy | rvRetried hmin hy => simpa [hx] using RaftServer.CalledAll.effects hy hq (by simp)
  | aeAccepted hp hle hnp hlsn hpre ht hlog hc htasks =>
    subst ht
    obtain ⟨_, _, hf, -⟩ := htasks _ (by simpa [hx] using hq)
    cases hf
  | @acked p resp _ _ _ _ hp hterm hstate hlsn hok ht hw hxs =>
    obtain ⟨nextIndex, tasks, -, htasks, rfl⟩ := ht.frame
    have hm : (.query body client : Effect) ∈ tasks := by
      rcases hxs with ⟨-, -, rfl⟩ | ⟨-, hy⟩
      · simpa [hx] using hq
      · simpa [hx] using hy.effects hq (by simp)
    obtain ⟨_, _, hf, -⟩ := htasks _ hm
    cases hf
  | _ => simp [hx] at hq

/-- And the answer that a callback brings is sent to the client it names. -/
theorem RaftServer.Outcome.answers {x y : RaftServer} {input : Input} (hx : x.effects = [])
    (h : RaftServer.Outcome x input y) {dst : Addr} {res : String}
    (hm : .rpc dst (.respClientQuery res) ∈ y.effects) :
    input = .callback (.writeRespQueryCall dst res) := by
  cases h with
  | answered client res' =>
    obtain ⟨rfl, h⟩ := RaftServer.mem_makeRpcCall (by simp [hx]) hm
    cases h
    rfl
  | idle | polled | query | appended | steppedDown | rvIgnored | aeIgnored | counted => simp [hx] at hm
  | told | rvStale | rvDenied | rvGranted | aeStale | aeRejected =>
    obtain ⟨-, h⟩ := RaftServer.mem_makeRpcCall (by simp [hx]) hm
    cases h
  | aeAccepted hp hle hnp hlsn hprelog ht hlog hcommit htasks =>
    obtain ⟨-, h⟩ := RaftServer.mem_makeRpcCall (by simp [hx, ht, htasks.not_rpc]) hm
    cases h
  | won hp hterm hstate hlsn hok hmajority hy | nacked hp hterm hstate hlsn hok hnext hw hy | aeRetried hmin hy =>
    rcases hy.sends hm with hm | ⟨-, _, _, h, -⟩
    · simp [hx] at hm
    · cases h
  | acked hp hterm hstate hlsn hok ht hw hxs =>
    rcases hxs with ⟨-, -, rfl⟩ | ⟨-, hy⟩
    · exact absurd hm (ht.no_rpc hx)
    · rcases hy.sends hm with hm | ⟨-, _, _, h, -⟩
      · exact (ht.no_rpc hx hm).elim
      · cases h
  | campaigned hh hy | rvRetried hmin hy =>
    rcases RaftServer.CalledAll.sends hy hm with hm | ⟨-, h, -⟩
    · simp [hx] at hm
    · cases h

/-! ## What a server hands over, runs and answers -/

/-- The tasks an event gives to the write pool of `s`. -/
def Event.hands (s : Addr) (e : Event) : List (Int × String) := if e.server = s then e.after.tasks else []

/-- The task the write worker of `s` runs, if the event is that. -/
def Event.runs (s : Addr) (e : Event) : List (Int × String) :=
  match e.input with
  | .work index msg => if e.server = s then [(index, msg)] else []
  | _ => []

/-- The call of the state machine of `s`, if the event is one. -/
def Event.calls (s : Addr) (e : Event) : List (Machines.Call String String) :=
  match e.input with
  | .work _ msg => if e.server = s then [.command msg] else []
  | .read body _ => if e.server = s then [.query body] else []
  | _ => []

/-- The callback the event loop of `s` runs, if the event is that. -/
def Event.callbacks (s : Addr) (e : Event) : List Callback :=
  match e.input with
  | .callback cb => if e.server = s then [cb] else []
  | _ => []

/-- The tasks the write pool of `s` was given, oldest first. -/
def handedTo (trace : List Event) (s : Addr) : List (Int × String) := gather (Event.hands s) trace

/-- The tasks its worker has run. -/
def runBy (trace : List Event) (s : Addr) : List (Int × String) := gather (Event.runs s) trace

/-- The calls its state machine has had. -/
def callsOf (trace : List Event) (s : Addr) : List (Machines.Call String String) := gather (Event.calls s) trace

/-- The callbacks its event loop has run. -/
def calledBack (trace : List Event) (s : Addr) : List Callback := gather (Event.callbacks s) trace

section Runs

variable {SM : Type} [StateMachine SM] {c : Cluster} {σ : System SM} {e : Event} {rest : List Packet}
  {trace : List Event}
  {s : Addr}

/-- The state machine of a server. -/
def machine (SM : Type) [StateMachine SM] : Machines.Machine SM String String String :=
  ⟨StateMachine.initial, StateMachine.apply, StateMachine.get⟩

/-- The state machine of `s` after a history. -/
def machineAt (SM : Type) [StateMachine SM] (trace : List Event) (s : Addr) : SM :=
  (machine SM).run (callsOf trace s)

/-- What an event of `s` posts to the event loop, from that state of the machine. -/
def Event.posts (sm : SM) (s : Addr) (e : Event) : List Callback :=
  match e.input with
  | .work index msg => if e.server = s then [.writeRespApplyCall index (StateMachine.apply sm msg).2] else []
  | .read body client => if e.server = s then [.writeRespQueryCall client (StateMachine.get sm body).2] else []
  | _ => []

/-- The callbacks posted to the event loop of `s`, oldest first. -/
def postedTo (SM : Type) [StateMachine SM] (s : Addr) : List Event → List Callback
  | [] => []
  | e :: past => postedTo SM s past ++ e.posts (machineAt SM past s) s

/-- How the queues and the state machine of a process come from its history. -/
structure Served (trace : List Event) (s : Addr) (n : Node SM) : Prop where
  writePool : handedTo trace s = runBy trace s ++ n.writePool
  indexes : (handedTo trace s).map Prod.fst = (List.range (n.raft.smc.appliedIndex + 1).toNat).map
    fun i : Nat => (i : Int)
  stateMachine : n.stateMachine = machineAt SM trace s
  posted : postedTo SM s trace = calledBack trace s ++ n.posted
  readPool : ∀ task ∈ n.readPool, ∃ q ∈ trace, q.server = s ∧ q.input = .clientQuery task.2 task.1

theorem Step.hands (hr : Reachable c σ) (h : Step c σ e rest) : RaftServer.Hands e.before e.after := by
  have hh := h.handled
  rw [← h.before] at hh
  refine RaftServer.handle_hands ?_ (fun p hp => ?_) (h.idle hr) hh
  · rw [(h.known_before hr).configuration]
    exact c.nodup
  · exact hr.wired.ofServer p (h.delivered hr hp).1

/-- The other servers keep what they have. -/
theorem Served.other {n : Node SM} (h : Served trace s n) (hs : e.server ≠ s) : Served (e :: trace) s n := by
  have hhands : e.hands s = [] := if_neg hs
  have hruns : e.runs s = [] := by unfold Event.runs; split <;> simp [hs]
  have hcalls : e.calls s = [] := by unfold Event.calls; split <;> simp [hs]
  have hcallbacks : e.callbacks s = [] := by unfold Event.callbacks; split <;> simp [hs]
  have hposts : ∀ sm : SM, e.posts sm s = [] := fun sm => by unfold Event.posts; split <;> simp [hs]
  refine ⟨?_, ?_, ?_, ?_, fun task ht => ?_⟩
  · simpa [handedTo, runBy, gather, hhands, hruns] using h.writePool
  · simpa [handedTo, gather, hhands] using h.indexes
  · simpa [machineAt, callsOf, gather, hcalls] using h.stateMachine
  · simpa [postedTo, calledBack, gather, hposts, hcallbacks] using h.posted
  · obtain ⟨q, hq, h⟩ := h.readPool task ht
    exact ⟨q, List.mem_cons_of_mem _ hq, h⟩

omit [StateMachine SM] in
/-- What a step of `s` takes from the front of the write pool, and of the callbacks. -/
theorem Step.takes (h : Step c σ e rest) :
    (σ.nodes e.server).writePool =
      e.runs e.server ++ ((σ.nodes e.server).writePool.drop (e.runs e.server).length) ∧
    (σ.nodes e.server).posted =
      e.callbacks e.server ++ ((σ.nodes e.server).posted.drop (e.callbacks e.server).length) := by
  have ho := h.offers
  unfold Event.runs Event.callbacks
  cases hi : e.input with
  | work index msg =>
    rw [hi] at ho
    cases ho with
    | work hw => simp [hw]
  | callback cb =>
    rw [hi] at ho
    cases ho with
    | callback hcb => simp [hcb]
  | _ => simp

theorem Node.next_writePool (n : Node SM) (e : Event) :
    (n.next e).writePool = n.writePool.drop (e.runs e.server).length ++ e.after.tasks := by
  unfold Node.next Event.runs
  cases e.input <;> simp [Node.take, RaftServer.tasks, Event.effects]

theorem Node.next_stateMachine (n : Node SM) (e : Event) :
    (n.next e).stateMachine = (e.calls e.server).foldl
      (fun sm call => ((machine SM).step sm call).1) n.stateMachine := by
  unfold Node.next Event.calls
  cases e.input <;> simp [Node.take, machine, Machines.Machine.step]

theorem Node.next_posted (n : Node SM) (e : Event) :
    (n.next e).posted = n.posted.drop (e.callbacks e.server).length ++ e.posts n.stateMachine e.server := by
  unfold Node.next Event.callbacks Event.posts
  cases e.input <;> simp [Node.take]

theorem Step.served (hr : Reachable c σ) (h : Step c σ e rest) (hx : Served σ.trace e.server (σ.nodes e.server)) :
    Served (e :: σ.trace) e.server ((σ.nodes e.server).next e) := by
  obtain ⟨hwork, hcallback⟩ := h.takes
  have hhands : e.hands e.server = e.after.tasks := if_pos rfl
  refine ⟨?_, ?_, ?_, ?_, fun task ht => ?_⟩
  · rw [handedTo, runBy, gather, gather, hhands, Node.next_writePool, ← handedTo, ← runBy, hx.writePool]
    conv_lhs => rw [hwork]
    simp only [List.append_assoc]
  · have happlied := (hr.ranges e.server).applied
    obtain ⟨rounds, tasks, htasks, hindexes, hafter⟩ := (h.hands hr).next
    have hbefore : e.before.tasks = [] := by simp [RaftServer.tasks, h.idle hr]
    rw [hbefore, List.nil_append] at htasks
    rw [handedTo, gather, hhands, List.map_append, ← handedTo, hx.indexes, htasks, hindexes]
    have hrange : (((σ.nodes e.server).next e).raft.smc.appliedIndex + 1).toNat =
        ((σ.nodes e.server).raft.smc.appliedIndex + 1).toNat + rounds := by
      have hraft : ((σ.nodes e.server).next e).raft.smc.appliedIndex = e.after.smc.appliedIndex := rfl
      rw [hraft, hafter, h.before]
      simp only [System.raft] at happlied ⊢
      omega
    rw [hrange, List.range_add, List.map_append, List.map_map, h.before]
    simp only [System.raft] at happlied ⊢
    exact congrArg _ (List.map_congr_left fun k _ => by simp only [Function.comp_apply]; omega)
  · rw [Node.next_stateMachine, hx.stateMachine, machineAt, machineAt, Machines.Machine.run, Machines.Machine.run,
      ← List.foldl_append]
    rfl
  · rw [postedTo, calledBack, gather, Node.next_posted, ← calledBack, hx.posted, ← hx.stateMachine]
    conv_lhs => rw [hcallback]
    simp only [List.append_assoc]
  · have hold : task ∈ (σ.nodes e.server).readPool → ∃ q ∈ e :: σ.trace, q.server = e.server ∧
        q.input = .clientQuery task.2 task.1 := fun ht => by
      obtain ⟨q, hq, h⟩ := hx.readPool task ht
      exact ⟨q, List.mem_cons_of_mem _ hq, h⟩
    rcases List.mem_append.mp ht with ht | ht
    · refine hold ?_
      cases hi : e.input with
      | read body client => rw [hi] at ht; exact List.mem_of_mem_erase ht
      | _ => rw [hi] at ht; exact ht
    · obtain ⟨f, hf, htask⟩ := List.mem_filterMap.mp ht
      cases f with
      | query body client =>
        cases htask
        exact ⟨e, List.mem_cons_self, rfl, (h.outcome hr).queried (h.idle hr) hf⟩
      | _ => cases htask

/-- **The queues and the state machine of a process come from its history.** -/
theorem Reachable.served (hr : Reachable c σ) (s : Addr) : Served σ.trace s (σ.nodes s) := by
  refine hr.invariant (I := fun σ => ∀ s, Served σ.trace s (σ.nodes s)) (fun s => ?_) (fun hr h ih s => ?_) s
  · exact ⟨rfl, rfl, rfl, rfl, nofun⟩
  · rw [System.trace_next, System.nodes_next]
    split
    · rename_i hs
      subst hs
      exact h.served hr (ih _)
    · rename_i hs
      exact (ih s).other (Ne.symm hs)

/-! ## One history -/

omit [StateMachine SM] in
theorem mem_handedTo {task : Int × String} :
    task ∈ handedTo trace s ↔ ∃ e ∈ trace, e.server = s ∧ .apply task.1 task.2 ∈ e.effects := by
  have htask : ∀ (e : Event), task ∈ e.after.tasks ↔ .apply task.1 task.2 ∈ e.effects := fun e => by
    rw [RaftServer.tasks, List.mem_filterMap]
    constructor
    · rintro ⟨f, hf, h⟩
      cases f with
      | apply i msg => cases h; exact hf
      | _ => cases h
    · exact fun h => ⟨_, h, rfl⟩
  rw [handedTo, mem_gather]
  refine exists_congr fun e => and_congr_right fun _ => ?_
  unfold Event.hands
  split
  · rename_i hs
    simp [htask, hs]
  · rename_i hs
    simp [hs]

/-- The tasks of a log: each index, with the command of its entry. -/
def tasksOf (log : List RpcEntry) : List (Int × String) := log.mapIdx fun i entry => ((i : Int), entry.msg)

/-- The commands of a log. -/
def commandsOf (log : List RpcEntry) : List String := log.map RpcEntry.msg

omit [StateMachine SM] in
/-- Tasks that are a log's first are of its first commands. -/
theorem commandsOf_take {log : List RpcEntry} {tasks : List (Int × String)} (h : tasks <+: tasksOf log) :
    tasks.map Prod.snd = commandsOf (log.take tasks.length) := by
  have hsnd : (tasksOf log).map Prod.snd = commandsOf log := List.ext_getElem? fun i => by
    simp [tasksOf, commandsOf, Function.comp_def]
  rw [List.prefix_iff_eq_take.mp h, List.map_take, hsnd, List.length_take]
  simp [commandsOf, List.map_take, tasksOf]

/-- What the cluster has committed, in order; the servers have applied prefixes of it. -/
structure Ordered (trace : List Event) (history : List RpcEntry) : Prop where
  committed : ∀ e ∈ trace, e.after.committedLog <+: history
  reached : history = [] ∨ ∃ e ∈ trace, e.after.committedLog = history
  handed : ∀ s, handedTo trace s <+: tasksOf history
  made : ∀ entry ∈ history, ∃ d ∈ trace, d.creates? = some entry

/-- The place of a task is its index. -/
theorem Reachable.handed_index (hr : Reachable c σ) {i : Nat} {task : Int × String}
    (hget : (handedTo σ.trace s)[i]? = some task) : task.1 = i := by
  have hindex : ((handedTo σ.trace s).map Prod.fst)[i]? = some task.1 := by rw [List.getElem?_map, hget]; rfl
  rw [(hr.served s).indexes, List.getElem?_map, Option.map_eq_some_iff] at hindex
  obtain ⟨k, hk, hki⟩ := hindex
  obtain ⟨hlt, hk⟩ := List.getElem?_eq_some_iff.mp hk
  rw [List.getElem_range] at hk
  rw [← hki, hk]

theorem Reachable.ordered (hr : Reachable c σ) (ha : Along Disciplined σ.trace) :
    ∃ history, Ordered σ.trace history := by
  have hagree : ∀ l ∈ [] :: σ.trace.map (·.after.committedLog), ∀ l' ∈ [] :: σ.trace.map (·.after.committedLog),
      ∀ (i : Nat) a b, l[i]? = some a → l'[i]? = some b → a = b := by
    simp only [List.mem_cons, List.mem_map]
    rintro l (rfl | ⟨e, he, rfl⟩) l' (rfl | ⟨e', he', rfl⟩) i a b hget hget'
    · cases hget
    · cases hget
    · cases hget'
    · have hbacked := (hr.backed ha).2
      exact (hbacked e he).agree hr ha (hbacked e' he') hget hget'
  obtain ⟨history, hm, hall⟩ := exists_longest (by simp) hagree
  have hcommitted : ∀ e ∈ σ.trace, e.after.committedLog <+: history :=
    fun e he => hall _ (List.mem_cons_of_mem _ (List.mem_map_of_mem he))
  have hreached : history = [] ∨ ∃ e ∈ σ.trace, e.after.committedLog = history := by simpa using hm
  refine ⟨history, hcommitted, hreached, fun s => prefix_of_getElem? fun i task hget => ?_, fun entry hentry => ?_⟩
  · obtain ⟨e, he, hs, heff⟩ := mem_handedTo.mp (List.mem_of_getElem? hget)
    obtain ⟨n, entry, hn, hcommit, hmsg⟩ := hr.apply_committed he heff
    have hindex := hr.handed_index hget
    obtain rfl : n = i := by omega
    rw [tasksOf, List.getElem?_mapIdx, getElem?_extend (hcommitted e he) hcommit, Option.map_some, hmsg, ← hn]
  · rcases hreached with rfl | ⟨e, he, rfl⟩
    · cases hentry
    · exact hr.entry_created e he entry (List.mem_of_mem_take hentry)

/-- The history of an earlier state is a beginning of the later one. -/
theorem Ordered.grows {past : List Event} {history history' : List RpcEntry} (h : Ordered past history)
    (h' : Ordered trace history') (hs : past <:+ trace) : history <+: history' := by
  rcases h.reached with rfl | ⟨e, he, rfl⟩
  · exact List.nil_prefix
  · exact h'.committed e (hs.subset he)

theorem Reachable.run_prefix (hr : Reachable c σ) (s : Addr) : runBy σ.trace s <+: handedTo σ.trace s := by
  rw [(hr.served s).writePool]
  exact List.prefix_append _ _

/-- **The servers run the commands of one history**, each from the first on, once and with
no gap, in the runs whose steps are disciplined. -/
theorem total_order (hr : Reachable c σ) (ha : Along Disciplined σ.trace) : ∃ history,
    Ordered σ.trace history ∧
      (∀ s, runBy σ.trace s <+: tasksOf history ∧ runBy σ.trace s <+: handedTo σ.trace s) ∧
      ∀ past earlier, past <:+ σ.trace → Ordered past earlier → earlier <+: history := by
  obtain ⟨history, h⟩ := hr.ordered ha
  exact ⟨history, h, fun s => ⟨(hr.run_prefix s).trans (h.handed s), hr.run_prefix s⟩,
    fun past earlier hs hp => hp.grows h hs⟩

end Runs

/-- A has committed and applied x, and B has heard of it. -/
def appliedX : List Action := commitX ++ [.deliver 2, .work serverA, .work serverB]

theorem appliedX_ordered : ∃ (σ : System Unit) (history : List RpcEntry), Ordered σ.trace history ∧
    runBy σ.trace serverA = [(0, "x")] ∧ runBy σ.trace serverB = [(0, "x")] ∧
    runBy σ.trace serverB <+: tasksOf history := by
  obtain ⟨σ, hr, ha, hA, hB⟩ := System.exists_reachable threeServers appliedX
    (P := fun σ : System Unit => Along Disciplined σ.trace ∧ runBy σ.trace serverA = [(0, "x")] ∧
      runBy σ.trace serverB = [(0, "x")]) (by decide +kernel)
  obtain ⟨history, ho, hrun, -⟩ := total_order hr ha
  exact ⟨σ, history, ho, hA, hB, (hrun serverB).1⟩

end MyRaft
