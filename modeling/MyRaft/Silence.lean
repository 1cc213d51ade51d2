/-
A cluster that falls silent. Handlers answer messages with messages, but each
exchange ends: an RV gets one reply, an AE one, and a primary that takes a reply
goes back in the log until its follower accepts, and then forward to the end.
With no timer running out and no client calling, a cluster without a second
primary in a term takes finitely many steps.

Five counters fall, each while those before it stay: how far the servers are
from the highest term, messages of terms that are over, how far the followers
are behind, messages still to be answered, and tasks.
-/
import MyRaft.Steady
import MyRaft.Growth
import MyRaft.Lib.Descent
import Mathlib.Algebra.GroupWithZero.Nat

namespace MyRaft

open History Descent
open Relation (ReflTransGen)
open StdLib (StdMap)
open RaftServer (Outcome Leads SentAes Tasks Acked BuiltAe)

/-! ## What a handler sends -/

def Effect.message? : Effect → Option (Addr × Rpc)
  | .rpc dst m => some (dst, m)
  | _ => none

namespace RaftServer

variable {x y t : RaftServer} {p : Packet} {a dst : Addr} {m : Rpc} {resp : RespAppendEntryRpc}

/-- The messages a handler has asked for. -/
def messages (s : RaftServer) : List (Addr × Rpc) := s.effects.filterMap Effect.message?

theorem messages_eq_nil (h : ∀ dst m, Effect.rpc dst m ∉ x.effects) : x.messages = [] := by
  refine List.filterMap_eq_nil_iff.mpr fun f hf => ?_
  cases f with
  | rpc dst m => exact absurd hf (h dst m)
  | _ => rfl

theorem Tasks.messages_nil {last : Int} {tasks : List Effect} (h : Tasks x last tasks) :
    tasks.filterMap Effect.message? = [] := by
  refine List.filterMap_eq_nil_iff.mpr fun f hf => ?_
  obtain ⟨n, entry, rfl, -⟩ := h f hf
  rfl

/-- One AE, built from the state that is left. -/
theorem SentAes.messages_eq (h : SentAes t [a] y) (ht : t.messages = []) :
    ∃ ae n, BuiltAe y a n ae ∧ y.messages = [(a, .appendEntry ae)] := by
  have hsends := fun m (hm : Effect.rpc a m ∈ y.effects) => h.sends hm
  obtain ⟨ae, -, hc⟩ := h
  obtain ⟨_, _, hy⟩ := hc.frame
  have heffects : y.effects = t.effects ++ [.rpc a (.appendEntry (ae a))] := by rw [hy]; rfl
  have hmem : Effect.rpc a (.appendEntry (ae a)) ∉ t.effects := fun hm => by
    have : (a, Rpc.appendEntry (ae a)) ∈ t.messages := List.mem_filterMap.mpr ⟨_, hm, rfl⟩
    rw [ht] at this
    cases this
  rcases hsends (.appendEntry (ae a)) (by simp [heffects]) with hm | ⟨-, ae', n, he, hb, -⟩
  · exact absurd hm hmem
  · cases he
    refine ⟨ae a, n, hb, ?_⟩
    rw [messages, heffects, List.filterMap_append, show t.effects.filterMap Effect.message? = [] from ht]
    rfl

/-- What a server that keeps its role sends back, where the message is not a reply it waits for. -/
inductive Posts (p : Packet) (y : RaftServer) : Prop
  | none (h : y.messages = [])
  | voted {rv resp} (hp : p.rpc = .requestVote rv) (h : y.messages = [(rv.server, .respVote resp)])
  | answered {ae resp} (hp : p.rpc = .appendEntry ae) (hempty : resp.isEmptyAe = ae.isEmptyAe)
      (h : y.messages = [(ae.server, .respAppend resp)])

theorem Outcome.posts (hx : x.effects = []) (h : Outcome x (.message p) y) (hstate : y.state = x.state)
    (hnot : ∀ resp, p.rpc = .respAppend resp → ¬ TakesReply x resp) : Posts p y := by
  cases h with
  | idle | steppedDown | rvIgnored | aeIgnored | counted => exact .none (by simp [messages, hx])
  | rvStale hp | rvDenied hp | rvGranted hp => exact .voted hp (by simp [messages, hx, Effect.message?]; rfl)
  | aeStale hp | aeRejected hp => exact .answered hp rfl (by simp [messages, hx, Effect.message?]; rfl)
  | aeAccepted hp hle hnp hlsn hprelog ht hlog hcommit htasks =>
    subst ht
    exact .answered hp rfl (by simp [messages, hx, htasks.messages_nil, Effect.message?]; rfl)
  | won _ _ hcand _ _ _ hy =>
    obtain ⟨_, _, _, rfl⟩ := hy.eq
    rw [hcand] at hstate
    cases hstate
  | acked hp hterm hprimary hlsn => exact absurd ⟨hprimary, hterm, hlsn⟩ (hnot _ hp)
  | nacked hp hterm hprimary hlsn => exact absurd ⟨hprimary, hterm, hlsn⟩ (hnot _ hp)

theorem react2respAe_messages (hx : x.effects = []) (ht : TakesReply x resp) (h : x.react2respAe resp = .ok y) :
    y.messages = [] ∧ resp.ok = true ∨ ∃ ae n, BuiltAe y resp.server n ae ∧
    y.messages = [(resp.server, .appendEntry ae)] ∧
      (resp.ok = true → x.nextIndex.get resp.server < x.entries.log.length) := by
  have hterm := ht.term
  rcases react2respAe_ok h with ⟨hlt, -⟩ | ⟨hlt, -⟩ | ⟨-, -, h⟩
  · omega
  · omega
  rcases h with ⟨hlsn, -⟩ | ⟨-, ⟨hok, t, hacked, h⟩ | ⟨hok, -, timer, -, hy⟩⟩
  · exact absurd ht.lsn hlsn
  · have hnone : t.messages = [] := messages_eq_nil fun dst m => hacked.no_rpc hx
    rcases h with ⟨-, rfl⟩ | ⟨hlt, timer, -, hy⟩
    · exact .inl ⟨hnone, hok⟩
    · obtain ⟨ae, n, hb, hm⟩ := hy.messages_eq hnone
      exact .inr ⟨ae, n, hb, hm, fun _ => by rw [Entries.size_eq] at hlt; exact hlt⟩
  · obtain ⟨ae, n, hb, hm⟩ := hy.messages_eq (by simp [messages, hx])
    exact .inr ⟨ae, n, hb, hm, fun h => by rw [hok] at h; cases h⟩

end RaftServer

theorem Event.packets_eq (e : Event) :
    e.packets = e.after.messages.map fun m => ⟨e.server, m.1, m.2, e.input.call, e.after⟩ := by
  rw [RaftServer.messages, List.map_filterMap]
  refine List.filterMap_congr fun f _ => ?_
  cases f <;> rfl

/-! ## Counters -/

instance (F : Addr) (x : RaftServer) : Decidable (Level F x) :=
  inferInstanceAs (Decidable (x.followerSavedIndex.get F + 1 = x.nextIndex.get F))

/-- A candidate may yet win, and a primary only steps down. -/
def State.rank : State → Nat
  | .follower => 0
  | .primary => 1
  | .candidate => 2

namespace RaftServer

/-- How far a server is from following in term `T`. -/
def standing (T : Int) (x : RaftServer) : Nat := 3 * (T - x.term).toNat + x.state.rank

/-- How far a primary has to go with `F`: to the end of its log once it has the
place, and to the start first where it has not. -/
def lag (x : RaftServer) (F : Addr) : Nat :=
  if Level F x then (x.entries.log.length - x.nextIndex.get F).toNat
  else (x.entries.log.length + x.nextIndex.get F + 1).toNat

def behind (c : Cluster) (x : RaftServer) : Nat :=
  if x.state = .primary then ∑ F ∈ c.configuration.toFinset, x.lag F else 0

end RaftServer

/-- What is still to be sent for a message, and for the reply to it: an empty AE
that is accepted may be followed by one with an entry. -/
def Rpc.weight : Rpc → Nat
  | .requestVote _ => 2
  | .respVote _ => 1
  | .appendEntry ae => if ae.isEmptyAe then 4 else 2
  | .respAppend resp => if resp.isEmptyAe then 3 else 1
  | .clientApply _ | .clientQuery _ | .respClientApply _ | .respClientQuery _ => 0

/-- A message no server answers. -/
def Rpc.toClient : Rpc → Nat
  | .respClientApply _ | .respClientQuery _ => 1
  | _ => 0

section Counters

variable {SM : Type}

/-- Tasks, and what their results have yet to do. -/
def Node.chores (n : Node SM) : Nat := 3 * n.writePool.length + 3 * n.readPool.length + 2 * n.posted.length

namespace System

variable (σ : System SM)

/-- The sum over the packets in flight. -/
def load (w : Packet → Nat) : Nat := (σ.inflight.map w).sum

/-- An AE of a term that its primary has left, or a reply to one. -/
def late (p : Packet) : Nat :=
  match p.rpc, p.call with
  | .appendEntry ae, _ => if ae.term < (σ.raft p.src).term then 1 else 0
  | .respAppend _, some (.appendEntry ae) => if ae.term < (σ.raft p.dst).term then 1 else 0
  | _, _ => 0

end System

/-- What falls while terms and roles stay, by rank. -/
def steadyCounters (c : Cluster) : List (System SM → Nat) :=
  [fun σ => σ.load σ.late,
   fun σ => ∑ s ∈ c.configuration.toFinset, (σ.raft s).behind c,
   fun σ => σ.load fun p => p.rpc.weight,
   fun σ => ∑ s ∈ c.configuration.toFinset, (σ.nodes s).chores + σ.load fun p => p.rpc.toClient]

/-- What falls, by rank. -/
def counters (c : Cluster) (T : Int) : List (System SM → Nat) :=
  (fun σ => ∑ s ∈ c.configuration.toFinset, (σ.raft s).standing T) :: steadyCounters c

end Counters

/-- An input that no timer and no client brings. -/
def Input.unprompted : Input → Bool
  | .message _ | .work _ _ | .read _ _ | .callback _ => true
  | .clientApply _ _ | .clientQuery _ _ | .poll _ | .timer _ => false

/-! ## One handler -/

namespace RaftServer

variable {x y : RaftServer} {input : Input} {p : Packet} {resp : RespAppendEntryRpc} {F : Addr} {T : Int}
  {c : Cluster}

/-- Up to term `T`, a server that changes its term or its role is closer to following. -/
theorem Outcome.standing (h : Outcome x input y) (hle : y.term ≤ T) :
    y.term = x.term ∧ y.state = x.state ∨ y.standing T < x.standing T := by
  unfold RaftServer.standing
  cases h.role with
  | same hterm hstate => exact .inl ⟨hterm, hstate⟩
  | followed hterm hstate hnp =>
    rw [hstate]
    by_cases hsame : x.term = y.term
    · have := hnp hsame
      cases hx : x.state with
      | follower => exact .inl ⟨hsame.symm, rfl⟩
      | candidate => exact .inr (by simp only [State.rank]; omega)
      | primary => exact absurd hx this
    · exact .inr (by simp only [State.rank]; omega)
  | campaigned hterm hstate =>
    rw [hstate]
    exact .inr (by simp only [State.rank]; omega)
  | won hterm hx hstate =>
    rw [hstate, hx]
    exact .inr (by simp only [State.rank]; omega)

/-- What a primary does with the reply it waits for. -/
structure Took (x : RaftServer) (resp : RespAppendEntryRpc) (y : RaftServer) : Prop where
  log : y.entries.log = x.entries.log
  others : ∀ F, F ≠ resp.server →
    y.nextIndex.get F = x.nextIndex.get F ∧ y.followerSavedIndex.get F = x.followerSavedIndex.get F
  acked : resp.ok = true → y.nextIndex.get resp.server = x.ackedIndex resp.server resp + 1 ∧
    y.followerSavedIndex.get resp.server = x.ackedIndex resp.server resp
  nacked : resp.ok = false → x.nextIndex.get resp.server ≠ 0 ∧
    y.nextIndex.get resp.server = x.nextIndex.get resp.server - 1

theorem Acked.took {t : RaftServer} {timer : Timer} {xs : List Addr} (hok : resp.ok = true)
    (h : Acked x resp.server resp t) (hxs : x.nextIndex.get resp.server = x.entries.size ∧ xs = [] ∧ y = t ∨
      xs = [resp.server] ∧ SentAes (t.retryTimer resp.server timer) xs y) : Took x resp y := by
  obtain ⟨_, _, _, nextIndex, hn, rfl⟩ := h.eq hxs
  refine ⟨rfl, fun F hF => ⟨?_, StdMap.get_set_ne _ _ hF⟩, fun _ => ⟨?_, by simp⟩, fun h => ?_⟩
  · show nextIndex.get F = x.nextIndex.get F
    rw [hn, if_neg hF]
  · show nextIndex.get resp.server = x.ackedIndex resp.server resp + 1
    rw [hn, if_pos rfl]
  · rw [hok] at h
    cases h

theorem react2respAe_took (ht : TakesReply x resp) (h : x.react2respAe resp = .ok y) : Took x resp y := by
  have hterm := ht.term
  rcases react2respAe_ok h with ⟨hlt, -⟩ | ⟨hlt, -⟩ | ⟨-, -, h⟩
  · omega
  · omega
  rcases h with ⟨hlsn, -⟩ | ⟨-, ⟨hok, t, hacked, h⟩ | ⟨hok, hpos, timer, -, hy⟩⟩
  · exact absurd ht.lsn hlsn
  · rcases h with ⟨hlast, rfl⟩ | ⟨-, timer, -, hy⟩
    · have timer : Timer := default
      exact @Acked.took _ _ _ _ timer _ hok hacked (.inl ⟨hlast, rfl, rfl⟩)
    · exact hacked.took hok (.inr ⟨rfl, hy⟩)
  · obtain ⟨_, _, _, rfl⟩ := hy.eq
    refine ⟨rfl, fun F hF => ⟨StdMap.get_set_ne _ _ hF, rfl⟩, fun h => ?_, fun _ => ⟨hpos, ?_⟩⟩
    · rw [hok] at h
      cases h
    · exact (StdMap.get_set _ _ _ _).trans (if_pos rfl)

/-- Where the place stays, the reply weighs more than what is sent: it was to an
empty AE, and the next one has an entry. -/
theorem react2respAe_lighter (hx : x.effects = []) (ht : TakesReply x resp) (h : x.react2respAe resp = .ok y)
    (hok : resp.ok = true)
    (hsame : y.nextIndex.get resp.server = x.nextIndex.get resp.server)
    (hempty : x.nextIndex.get resp.server = x.entries.log.length ∨ resp.isEmptyAe = true) :
    (y.messages.map fun m => m.2.weight).sum < (Rpc.respAppend resp).weight := by
  rcases react2respAe_messages hx ht h with ⟨hnone, -⟩ | ⟨ae, n, hb, hae, hroom⟩
  · rw [hnone]
    simp only [List.map_nil, List.sum_nil, Rpc.weight]
    split <;> decide
  · have hlt := hroom hok
    have hfull : ae.isEmptyAe = false := by
      have := hb.next
      rw [AppendEntryRpc.isEmptyAe, hb.entry, (react2respAe_took ht h).log, List.getElem?_eq_getElem (by omega)]
      rfl
    rw [hae]
    simp [Rpc.weight, hfull, hempty.resolve_left (by omega)]

/-- An accepted AE moves the place forward, unless it was sent with no entry. -/
theorem lag_acked (hlo : 0 ≤ x.nextIndex.get F) (hhi : x.nextIndex.get F ≤ x.entries.log.length)
    (hnext : y.nextIndex.get F = x.ackedIndex F resp + 1)
    (hsaved : y.followerSavedIndex.get F = x.ackedIndex F resp) (hlog : y.entries.log = x.entries.log) :
    y.lag F < x.lag F ∨ y.lag F = x.lag F ∧ y.nextIndex.get F = x.nextIndex.get F ∧
      (x.nextIndex.get F = x.entries.log.length ∨ resp.isEmptyAe = true) := by
  have hlevel : Level F y := by
    unfold Level
    omega
  unfold RaftServer.lag
  rw [if_pos hlevel, hnext, hlog]
  unfold ackedIndex
  rw [Entries.size_eq]
  by_cases hstays : x.nextIndex.get F = x.entries.log.length ∨ resp.isEmptyAe = true
  · rw [if_pos hstays]
    split
    · exact .inr ⟨by omega, by omega, hstays⟩
    · exact .inl (by omega)
  · rw [if_neg hstays]
    rw [not_or] at hstays
    split <;> exact .inl (by omega)

theorem lag_nacked (hlo : 0 < x.nextIndex.get F) (hhi : x.nextIndex.get F ≤ x.entries.log.length)
    (hnext : y.nextIndex.get F = x.nextIndex.get F - 1) (hlog : y.entries.log = x.entries.log)
    (hnot : ¬ Level F x) :
    y.lag F < x.lag F := by
  unfold RaftServer.lag
  rw [if_neg hnot, hnext, hlog]
  split <;> omega

theorem lag_kept (hnext : y.nextIndex.get F = x.nextIndex.get F)
    (hsaved : y.followerSavedIndex.get F = x.followerSavedIndex.get F) (hlog : y.entries.log = x.entries.log) :
    y.lag F = x.lag F := by
  have hlevel : Level F y ↔ Level F x := by
    unfold Level
    rw [hnext, hsaved]
  simp only [RaftServer.lag, hlevel, hnext, hlog]

theorem behind_le (hstate : y.state = x.state) (hlag : x.state = .primary →
    ∀ F ∈ c.configuration, y.lag F ≤ x.lag F) :
    y.behind c ≤ x.behind c := by
  unfold behind
  rw [hstate]
  split
  · rename_i hx
    exact Finset.sum_le_sum fun F hF => hlag hx F (List.mem_toFinset.mp hF)
  · exact Nat.le_refl _

/-- Only one follower is elsewhere. -/
theorem behind_lt (hx : x.state = .primary) (hstate : y.state = x.state) (hne : ∀ F', F' ≠ F → y.lag F' = x.lag F')
    (hF : F ∈ c.configuration) (hlt : y.lag F < x.lag F) : y.behind c < x.behind c := by
  unfold behind
  rw [hstate, if_pos hx, if_pos hx]
  exact sum_lt_of_ne hne (List.mem_toFinset.mpr hF) hlt

theorem handle_callback (hx : x.effects = []) {cb : Callback} (h : x.handle (.callback cb) = .ok y) :
    y = x ∨ ∃ dst m, m.weight = 0 ∧ m.toClient = 1 ∧ y = { x with effects := [.rpc dst m] } := by
  cases cb with
  | writeRespApplyCall entryIndex res =>
    cases h
    unfold writeRespApplyCall
    split
    · split
      · rename_i client _
        exact .inr ⟨client, .respClientApply res, rfl, rfl, by simp [makeRpcCall, hx]⟩
      · exact .inl rfl
    · exact .inl rfl
  | writeRespQueryCall client res =>
    cases h
    exact .inr ⟨client, .respClientQuery res, rfl, rfl, by simp [writeRespQueryCall, makeRpcCall, hx]⟩

end RaftServer

/-- A message that weighs nothing is for a client. -/
theorem Rpc.weight_pos {m : Rpc} (h : m.ofServer = true) : 0 < m.weight ∨ m.weight = 0 ∧ m.toClient = 1 := by
  cases m with
  | clientApply | clientQuery => cases h
  | respClientApply | respClientQuery => exact .inr ⟨rfl, rfl⟩
  | requestVote | respVote => exact .inl (by simp [Rpc.weight])
  | appendEntry | respAppend =>
    left
    simp only [Rpc.weight]
    split <;> decide

/-! ## One step -/

/-- The server of an event keeps its term and its role. -/
structure Event.Stays (e : Event) : Prop where
  term : e.after.term = e.before.term
  state : e.after.state = e.before.state

/-- A step that no timer and no client brings, and that makes no second primary of a term. -/
inductive Drains {SM : Type} [StateMachine SM] (c : Cluster) (σ : System SM) : System SM → Prop
  | mk {e rest} (h : Step c σ e rest) (hi : e.input.unprompted = true) (hone : OnePrimary (e :: σ.trace)) :
      Drains c σ (σ.next e rest)

section Steps

variable {SM : Type} [StateMachine SM] {c : Cluster} {σ : System SM} {e : Event} {rest : List Packet} {p : Packet}
  {resp : RespAppendEntryRpc} {T : Int} {w : Packet → Nat}

theorem Step.nodup_before (hr : Reachable c σ) (h : Step c σ e rest) : e.before.configuration.Nodup := by
  rw [(h.known_before hr).configuration]
  exact c.nodup

omit [StateMachine SM] in
theorem Step.reacts (h : Step c σ e rest) (hi : e.input = .message p) :
    e.before.reactToIncomingMsg p.rpc p.src = .ok e.after := by
  have hh := h.handled
  rw [← h.before, hi] at hh
  exact hh

theorem Reachable.sent_term_le (hr : Reachable c σ) (hp : Sent σ.trace p) : p.rpc.term ≤ (σ.raft p.src).term := by
  obtain ⟨σ₀, d, rest₀, hr₀, -, hst, hpd⟩ := hr.sent hp
  have hsends := (hst.sends hr₀ hpd).term
  rw [← (Event.mem_packets.mp hpd).2.2.2] at hsends
  have hsince := (hr.since_sent hp).term
  have := (hr.within.1 p.src).term_lo
  omega

theorem Step.load_message (h : Step c σ e rest) (hi : e.input = .message p) :
    (σ.next e rest).load w + w p = σ.load w + (e.packets.map w).sum := by
  have ho := h.offers
  rw [hi] at ho
  cases ho with
  | message hin =>
    simp only [System.load, System.inflight_next, hin, List.map_append, List.map_cons, List.sum_append,
      List.sum_cons]
    omega

theorem Step.load_other (h : Step c σ e rest) (hi : ∀ p, e.input ≠ .message p) :
    (σ.next e rest).load w = σ.load w + (e.packets.map w).sum := by
  have hrest : rest = σ.inflight := by
    have ho := h.offers
    generalize e.input = input at ho hi
    cases ho with
    | message => exact absurd rfl (hi _)
    | _ => rfl
  simp [System.load, hrest]

theorem Event.Stays.term_next (h : e.Stays) (hst : Step c σ e rest) (s : Addr) :
    ((σ.next e rest).raft s).term = (σ.raft s).term := by
  rw [System.raft_next]
  split
  · rename_i hs
    rw [RaftServer.taken_term, h.term, hst.before, hs]
  · rfl

theorem Event.Stays.late_next (h : e.Stays) (hst : Step c σ e rest) : (σ.next e rest).late = σ.late := by
  funext p
  simp only [System.late, h.term_next hst]

/-- What one server does changes the sum over the servers by as much. -/
theorem Step.sum_le (h : Step c σ e rest) {f : RaftServer → Nat} (htaken : f e.after.taken = f e.after)
    (hle : f e.after ≤ f e.before) :
    ∑ s ∈ c.configuration.toFinset, f ((σ.next e rest).raft s) ≤ ∑ s ∈ c.configuration.toFinset, f (σ.raft s) :=
  sum_le_of_ne (fun s hs => by rw [System.raft_next_ne hs])
    (by rw [System.raft_next_self, htaken, ← h.before]; exact hle)

theorem Step.sum_lt (h : Step c σ e rest) {f : RaftServer → Nat} (htaken : f e.after.taken = f e.after)
    (hlt : f e.after < f e.before) :
    ∑ s ∈ c.configuration.toFinset, f ((σ.next e rest).raft s) < ∑ s ∈ c.configuration.toFinset, f (σ.raft s) :=
  sum_lt_of_ne (fun s hs => by rw [System.raft_next_ne hs]) (List.mem_toFinset.mpr h.member)
    (by rw [System.raft_next_self, htaken, ← h.before]; exact hlt)

theorem Node.chores_next (n : Node SM) (heffects : ∀ f ∈ e.effects, ∃ dst m, f = .rpc dst m) :
    (n.next e).chores = (n.take e.input).chores := by
  have htasks : e.effects.filterMap Effect.task? = [] := List.filterMap_eq_nil_iff.mpr fun f hf => by
    obtain ⟨dst, m, rfl⟩ := heffects f hf
    rfl
  have hqueries : e.effects.filterMap Effect.query? = [] := List.filterMap_eq_nil_iff.mpr fun f hf => by
    obtain ⟨dst, m, rfl⟩ := heffects f hf
    rfl
  simp [Node.next, Node.chores, htasks, hqueries]

/-- A handler that asks for no task changes the tasks by its input only. -/
theorem Step.chores_next (h : Step c σ e rest) (heffects : ∀ f ∈ e.effects, ∃ dst m, f = .rpc dst m) :
    ∑ s ∈ c.configuration.toFinset, ((σ.next e rest).nodes s).chores + (σ.nodes e.server).chores =
      ∑ s ∈ c.configuration.toFinset, (σ.nodes s).chores + ((σ.nodes e.server).take e.input).chores := by
  rw [← Node.chores_next (σ.nodes e.server) heffects]
  have := sum_change (t := c.configuration.toFinset) (a := e.server) (f := fun s => (σ.nodes s).chores)
    (g := fun s => ((σ.next e rest).nodes s).chores) (fun s hs => by rw [System.nodes_next, if_neg hs])
    (List.mem_toFinset.mpr h.member)
  rwa [System.nodes_next, if_pos rfl] at this

/-- An AE is of the term of its sender, and so is never sent late. -/
theorem Step.late_ae (hr : Reachable c σ) (h : Step c σ e rest) (hs : e.Stays) (hp : p ∈ e.packets)
    {ae : AppendEntryRpc} (hae : p.rpc = .appendEntry ae) : σ.late p = 0 := by
  obtain ⟨n, hn⟩ := h.ae_sent hr hp hae
  obtain ⟨-, hsrc, -, hsender⟩ := Event.mem_packets.mp hp
  have hterm := hn.built.term
  rw [hsender, hs.term, h.before] at hterm
  unfold System.late
  rw [hae, hsrc]
  exact if_neg (by omega)

/-- A reply is late as its AE is. -/
theorem Step.late_reply (hr : Reachable c σ) (h : Step c σ e rest) {q : Packet} {ae : AppendEntryRpc}
    (hi : e.input = .message q) (hq : q.rpc = .appendEntry ae) (hp : p ∈ e.packets)
    (hresp : p.rpc = .respAppend resp) :
    σ.late p = σ.late q := by
  obtain ⟨q', ae', hreply, hi'⟩ := h.ae_reply hr hp hresp
  obtain rfl : q = q' := by simpa [hi] using hi'
  obtain rfl : ae = ae' := by simpa [hreply.rpc] using hq.symm
  unfold System.late
  rw [hq, hresp, hreply.call, hreply.src]

/-- A reply of a newer term than its AE is late for the primary of its term. -/
theorem Reachable.late_stale (hr : Reachable c σ) (hp : Sent σ.trace p) (hresp : p.rpc = .respAppend resp)
    (hstale : answersTerm p resp ≠ true) (hterm : resp.term = (σ.raft p.dst).term) : 0 < σ.late p := by
  obtain ⟨q, ae, x, h⟩ := hr.ae_reply hp hresp
  have hne : ae.term ≠ resp.term := by simpa [answersTerm, h.call] using hstale
  have hlt : ae.term < resp.term := by
    have ha := h.answers
    have hsender := h.term
    generalize resp.ok = ok at ha
    cases ha with
    | stale hlt ht => omega
    | rejected hrej => exact absurd (hrej.term.symm.trans hsender.symm) hne
    | accepted hacc => exact absurd (hacc.term.symm.trans hsender.symm) hne
  unfold System.late
  rw [hresp, h.call]
  dsimp only
  rw [if_pos (by omega)]
  exact Nat.one_pos

omit [StateMachine SM] in
theorem Step.reacts_respAe (h : Step c σ e rest) (hi : e.input = .message p) (hp : p.rpc = .respAppend resp) :
    e.before.react2respAe resp = .ok e.after := by
  have hh := h.reacts hi
  rw [hp] at hh
  exact hh

theorem Step.takes_late (hr : Reachable c σ) (h : Step c σ e rest) (hs : e.Stays) (hi : e.input = .message p)
    (hp : p.rpc = .respAppend resp) (ht : TakesReply e.before resp) : (e.packets.map σ.late).sum = 0 := by
  refine List.sum_eq_zero fun v hv => ?_
  obtain ⟨q, hq, rfl⟩ := List.mem_map.mp hv
  have hmem := hq
  rw [e.packets_eq] at hmem
  obtain ⟨m, hm, rfl⟩ := List.mem_map.mp hmem
  rcases RaftServer.react2respAe_messages (h.idle hr) ht
    (h.reacts_respAe hi hp) with ⟨hnone, -⟩ | ⟨ae, n, -, hae, -⟩
  · rw [hnone] at hm
    cases hm
  · rw [hae, List.mem_singleton] at hm
    exact h.late_ae hr hs hq (by rw [hm])

/-- A primary takes the reply it waits for: it is closer to the follower, or
the reply weighed more than the next AE. -/
theorem Step.takes_lowers (hr : Reachable c σ) (h : Step c σ e rest) (ho : Orderly σ.trace) (hs : e.Stays)
    (hi : e.input = .message p) (hp : p.rpc = .respAppend resp) (ht : TakesReply e.before resp) :
    Lowers (steadyCounters c) σ (σ.next e rest) := by
  obtain ⟨hsent, hdst, -⟩ := h.delivered hr hi
  obtain ⟨_, _, _, hreply⟩ := hr.ae_reply hsent hp
  have hF : resp.server ∈ c.configuration := hreply.server ▸ hr.src_mem hsent
  have hh := h.reacts_respAe hi hp
  have htook := RaftServer.react2respAe_took ht hh
  have hnext := (h.ranges_before hr).next ht.state resp.server hF
  have hlate := h.takes_late hr hs hi hp ht
  have hlater := h.load_message (w := σ.late) hi
  by_cases hfresh : answersTerm p resp = true
  · refine .stays (by rw [hs.late_next h]; omega) ?_
    have hothers : ∀ F, F ≠ resp.server → e.after.lag F = e.before.lag F := fun F hne =>
      RaftServer.lag_kept (htook.others F hne).1 (htook.others F hne).2 htook.log
    cases hok : resp.ok with
    | false =>
      obtain ⟨hpos, hback⟩ := htook.nacked hok
      have hnot := hr.not_level ho p resp ⟨hsent, hp, hfresh, by rw [hdst, ← h.before]; exact ht⟩ hok
      rw [hdst, ← h.before, ← hreply.server] at hnot
      have hlt := RaftServer.lag_nacked (by omega) hnext.2 hback htook.log hnot
      exact .falls (h.sum_lt rfl (RaftServer.behind_lt ht.state hs.state hothers hF hlt))
    | true =>
      obtain ⟨hon, hsaved⟩ := htook.acked hok
      rcases RaftServer.lag_acked hnext.1 hnext.2 hon hsaved htook.log with hlt | ⟨heq, hsame, hempty⟩
      · exact .falls (h.sum_lt rfl (RaftServer.behind_lt ht.state hs.state hothers hF hlt))
      refine .stays (h.sum_le rfl (RaftServer.behind_le hs.state fun _ F _ => ?_)) (.falls ?_)
      · by_cases hne : F = resp.server
        · rw [hne, heq]
        · exact Nat.le_of_eq (hothers F hne)
      have hlighter := RaftServer.react2respAe_lighter (h.idle hr) ht hh hok hsame hempty
      have hweight := h.load_message (w := fun p => p.rpc.weight) hi
      have hsum : (e.packets.map fun p => p.rpc.weight) = e.after.messages.map fun m => m.2.weight := by
        rw [e.packets_eq, List.map_map]
        rfl
      rw [hsum, hp] at hweight
      omega
  · have := hr.late_stale hsent hp hfresh (by rw [hdst, ← h.before]; exact ht.term)
    exact .falls (by rw [hs.late_next h]; omega)

/-- Another message is followed by nothing, or by one that weighs less. -/
theorem Step.message_lowers (hr : Reachable c σ) (h : Step c σ e rest) (hs : e.Stays) (hi : e.input = .message p)
    (hnot : ∀ resp, p.rpc = .respAppend resp → ¬ TakesReply e.before resp) :
    Lowers (steadyCounters c) σ (σ.next e rest) := by
  have hout := h.outcome hr
  rw [hi] at hout
  have hposts := hout.posts (h.idle hr) hs.state hnot
  have hserver := hr.wired.ofServer p (h.delivered hr hi).1
  -- the tables stay
  have hbehind : e.after.behind c ≤ e.before.behind c := RaftServer.behind_le hs.state fun hx F _ => by
    cases hout.leads (hs.state.trans hx) with
    | same _ _ hlog hnext hsaved => exact Nat.le_of_eq (RaftServer.lag_kept (by rw [hnext]) (by rw [hsaved]) hlog)
    | appended hi => cases hi
    | won _ _ hc => rw [hx] at hc; cases hc
    | acked hi hp hx hterm hlsn | nacked hi hp hx hterm hlsn =>
      cases hi
      exact absurd ⟨hx, hterm, hlsn⟩ (hnot _ hp)
  have hlater := h.load_message (w := σ.late) hi
  have hweight := h.load_message (w := fun p => p.rpc.weight) hi
  cases hposts with
  | none hnone =>
    rw [e.packets_eq, hnone] at hlater hweight
    simp only [List.map_nil, List.sum_nil] at hlater hweight
    refine .stays (by rw [hs.late_next h]; omega) (.stays (h.sum_le rfl hbehind) ?_)
    rcases Rpc.weight_pos hserver with hpos | ⟨hzero, hclient⟩
    · exact .falls (by omega)
    · refine .stays (by omega) (.falls ?_)
      have hsame : e.after = e.before := by
        have hh := h.reacts hi
        cases hm : p.rpc with
        | respClientApply | respClientQuery =>
          rw [hm] at hh
          exact (Except.ok.inj hh).symm
        | _ => rw [hm] at hclient; cases hclient
      have hchores := h.chores_next (by simp [Event.effects, hsame, h.idle hr])
      have hload := h.load_message (w := fun p => p.rpc.toClient) hi
      rw [hi] at hchores
      rw [e.packets_eq, hnone] at hload
      simp only [List.map_nil, List.sum_nil] at hload
      have htake : (σ.nodes e.server).take (.message p) = σ.nodes e.server := rfl
      rw [htake] at hchores
      omega
  | @voted rv resp hp hsent =>
    rw [e.packets_eq, hsent] at hlater hweight
    have hlate : ∀ dst call sender, σ.late ⟨e.server, dst, .respVote resp, call, sender⟩ = 0 := fun _ _ _ => rfl
    have hrv : p.rpc.weight = 2 := by rw [hp]; rfl
    have hresp : (Rpc.respVote resp).weight = 1 := rfl
    simp only [List.map_cons, List.map_nil, List.sum_cons, List.sum_nil, hlate, hresp] at hlater hweight
    exact .stays (by rw [hs.late_next h]; omega) (.stays (h.sum_le rfl hbehind) (.falls (by omega)))
  | @answered ae resp hp hempty hsent =>
    have hlate := h.late_reply hr (p := ⟨e.server, ae.server, .respAppend resp, e.input.call, e.after⟩) hi hp
      (by rw [e.packets_eq, hsent]; simp) rfl
    have hless : (Rpc.respAppend resp).weight + 1 = p.rpc.weight := by
      rw [hp]
      simp only [Rpc.weight, hempty]
      split <;> rfl
    rw [e.packets_eq, hsent] at hlater hweight
    simp only [List.map_cons, List.map_nil, List.sum_cons, List.sum_nil, hlate] at hlater hweight
    exact .stays (by rw [hs.late_next h]; omega) (.stays (h.sum_le rfl hbehind) (.falls (by omega)))

/-- A task or a result leaves the server as it is, and a result may send a message to a client. -/
structure Chore (σ : System SM) (e : Event) : Prop where
  same : ∃ effects, e.after = { e.before with effects := effects }
  calls : ∀ f ∈ e.effects, ∃ dst m, f = .rpc dst m
  light : ∀ q ∈ e.packets, q.rpc.weight = 0
  chores : ((σ.nodes e.server).take e.input).chores + (e.packets.map fun q => q.rpc.toClient).sum + 1 ≤
    (σ.nodes e.server).chores

theorem Chore.idle (hr : Reachable c σ) (h : Step c σ e rest) (hsame : e.after = e.before)
    (hless : ((σ.nodes e.server).take e.input).chores + 1 ≤ (σ.nodes e.server).chores) : Chore σ e := by
  have heffects : e.effects = [] := by rw [Event.effects, hsame, h.idle hr]
  have hpackets : e.packets = [] := by rw [Event.packets, heffects]; rfl
  exact ⟨⟨_, hsame⟩, by simp [heffects], by simp [hpackets], by simpa [hpackets] using hless⟩

theorem Step.chore (hr : Reachable c σ) (h : Step c σ e rest) (hi : e.input.unprompted = true)
    (hnot : ∀ p, e.input ≠ .message p) : Chore σ e := by
  have ho := h.offers
  have hh := h.handled
  rw [← h.before] at hh
  cases hinput : e.input with
  | message p => exact absurd hinput (hnot p)
  | work index msg =>
    rw [hinput] at ho hh
    cases ho with
    | work hpool =>
      refine .idle hr h (Except.ok.inj hh).symm ?_
      rw [hinput]
      simp only [Node.take, Node.chores, hpool, List.tail_cons, List.length_cons, List.length_append,
        List.length_nil]
      omega
  | read body client =>
    rw [hinput] at ho hh
    cases ho with
    | read hpool =>
      refine .idle hr h (Except.ok.inj hh).symm ?_
      rw [hinput]
      have hpos := List.length_pos_of_mem hpool
      simp only [Node.take, Node.chores, List.length_erase_of_mem hpool, List.length_append, List.length_singleton]
      omega
  | callback cb =>
    rw [hinput] at ho hh
    cases ho with
    | callback hposted =>
      have hless : ((σ.nodes e.server).take (.callback cb)).chores + 2 = (σ.nodes e.server).chores := by
        simp only [Node.take, Node.chores, hposted, List.tail_cons, List.length_cons]
        omega
      rcases RaftServer.handle_callback (h.idle hr) hh with hsame | ⟨dst, m, hweight, hclient, hsame⟩
      · exact .idle hr h hsame (by rw [hinput]; omega)
      · have heffects : e.effects = [.rpc dst m] := by rw [Event.effects, hsame]
        have hpackets : e.packets = [⟨e.server, dst, m, e.input.call, e.after⟩] := by
          rw [Event.packets, heffects]
          rfl
        refine ⟨⟨_, hsame⟩, by simp [heffects], by simpa [hpackets] using hweight, ?_⟩
        simp only [hpackets, hinput, List.map_cons, List.map_nil, List.sum_cons, List.sum_nil, hclient]
        omega
  | _ => rw [hinput] at hi; cases hi

omit [StateMachine SM] in
theorem System.late_eq_zero {q : Packet} (h : q.rpc.weight = 0) : σ.late q = 0 := by
  obtain ⟨src, dst, m, call, sender⟩ := q
  cases m with
  | appendEntry | respAppend =>
    simp only [Rpc.weight] at h
    split at h <;> cases h
  | _ => rfl

theorem Step.chore_lowers (hr : Reachable c σ) (h : Step c σ e rest) (hi : e.input.unprompted = true)
    (hnot : ∀ p, e.input ≠ .message p) : Lowers (counters c T) σ (σ.next e rest) := by
  obtain ⟨⟨effects, hsame⟩, hcalls, hlight, hless⟩ := h.chore hr hi hnot
  have hs : e.Stays := ⟨by rw [hsame], by rw [hsame]⟩
  have hkept : ∀ w : Packet → Nat, (∀ q, q.rpc.weight = 0 → w q = 0) → (σ.next e rest).load w = σ.load w :=
      fun w hw => by
    have hsum : (e.packets.map w).sum = 0 := List.sum_eq_zero fun v hv => by
      obtain ⟨q, hq, rfl⟩ := List.mem_map.mp hv
      exact hw q (hlight q hq)
    rw [h.load_other hnot, hsum, Nat.add_zero]
  have hload := h.load_other (w := fun p => p.rpc.toClient) hnot
  have hchores := h.chores_next hcalls
  refine .stays (h.sum_le rfl (by rw [hsame]; exact Nat.le_refl _)) (.stays ?_
    (.stays (h.sum_le rfl (by rw [hsame]; exact Nat.le_refl _))
    (.stays (Nat.le_of_eq (hkept _ fun _ hq => hq)) (.falls ?_))))
  · rw [hs.late_next h, hkept _ fun _ => System.late_eq_zero]
  · omega

/-- **Each step lowers a counter.** -/
theorem Step.lowers (hr : Reachable c σ) (h : Step c σ e rest) (ho : Orderly σ.trace)
    (hi : e.input.unprompted = true) (hle : e.after.term ≤ T) : Lowers (counters c T) σ (σ.next e rest) := by
  cases hinput : e.input with
  | message p =>
    rcases (h.outcome hr).standing hle with ⟨hterm, hstate⟩ | hlt
    · have hs : e.Stays := ⟨hterm, hstate⟩
      refine .stays (h.sum_le rfl (Nat.le_of_eq (by simp [RaftServer.standing, hterm, hstate]))) ?_
      by_cases ht : ∃ resp, p.rpc = .respAppend resp ∧ TakesReply e.before resp
      · obtain ⟨resp, hp, ht⟩ := ht
        exact h.takes_lowers hr ho hs hinput hp ht
      · exact h.message_lowers hr hs hinput fun resp hp htakes => ht ⟨resp, hp, htakes⟩
    · exact .falls (h.sum_lt rfl hlt)
  | work | read | callback => exact h.chore_lowers hr hi fun p hp => by rw [hp] at hinput; cases hinput
  | _ => rw [hinput] at hi; cases hi

/-! ## Runs -/

/-- What a draining cluster keeps: the terms that can still be entered are those there are. -/
structure Settling (c : Cluster) (T : Int) (σ : System SM) : Prop where
  reachable : Reachable c σ
  orderly : Orderly σ.trace
  term : ∀ s, (σ.raft s).term ≤ T

/-- A step that no timer and no client brings enters no new term. -/
theorem Settling.term_le (h : Settling c T σ) (hst : Step c σ e rest) (hi : e.input.unprompted = true) :
    e.after.term ≤ T := by
  have hold := h.term e.server
  rw [← hst.before] at hold
  cases hinput : e.input with
  | message p =>
    obtain ⟨hsent, -⟩ := hst.delivered h.reachable hinput
    have hsender := h.reachable.sent_term_le hsent
    have := h.term p.src
    rcases RaftServer.message_term (hst.nodup_before h.reachable) (h.reachable.wired.ofServer p hsent)
      (hst.reacts hinput) with heq | heq <;> omega
  | work | read | callback =>
    obtain ⟨_, hsame⟩ := (hst.chore h.reachable hi fun p hp => by rw [hp] at hinput; cases hinput).same
    rw [hsame]
    exact hold
  | _ => rw [hinput] at hi; cases hi

theorem Settling.drains (h : Settling c T σ) {σ' : System SM} (hd : Drains c σ σ') :
    Settling c T σ' ∧ Lowers (counters c T) σ σ' := by
  cases hd with
  | @mk e rest hst hi hone =>
    have hle := h.term_le hst hi
    refine ⟨⟨hst.reachable h.reachable, ⟨hone, fun happly => ?_, h.orderly.applies⟩, fun s => ?_⟩,
      hst.lowers h.reachable h.orderly hi hle⟩
    · cases hinput : e.input <;> simp [hinput, Input.unprompted, Input.isClientApply] at hi happly
    · rw [System.raft_next]
      split
      · exact hle
      · exact h.term s

/-- **From every state of an orderly run, messages and tasks come to an end.** With no timer running out
and no client calling, no run without a second primary of a term goes on for ever, and one that goes on
while it can comes to a state from which it cannot. -/
theorem falls_silent (hr : Reachable c σ) (ho : Orderly σ.trace) :
    (¬ ∃ run : Nat → System SM, run 0 = σ ∧ ∀ n, Drains c (run n) (run (n + 1))) ∧
    ∃ σ', ReflTransGen (Drains c) σ σ' ∧ ∀ σ'', ¬ Drains c σ' σ'' := by
  have hacc : Acc (fun σ' σ => Drains c σ σ') σ :=
    acc_of_lowers (fun h hd => h.drains hd) (⟨hr, ho, fun s => (hr.within.1 s).term⟩ : Settling c σ.trace.length σ)
  exact ⟨no_chain hacc, exists_end hacc⟩

end Steps

/-- The messages of an election, once B has answered its first AE. -/
theorem copyX_silent : ∃ σ : System Unit, 0 < σ.inflight.length ∧
    (¬ ∃ run : Nat → System Unit, run 0 = σ ∧ ∀ n, Drains threeServers (run n) (run (n + 1))) ∧
    ∃ σ', ReflTransGen (Drains threeServers) σ σ' ∧ ∀ σ'', ¬ Drains threeServers σ' σ'' := by
  obtain ⟨σ, hr, ho, hpending⟩ := System.exists_reachable threeServers copyX
    (P := fun σ : System Unit => (OnePrimary σ.trace ∧ Along ApplyAtPrimary σ.trace) ∧ 0 < σ.inflight.length)
    (by decide +kernel)
  exact ⟨σ, hpending, falls_silent hr ⟨ho.1, ho.2⟩⟩

end MyRaft
