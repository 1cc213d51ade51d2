/-
Runs of a cluster: the induction rules, and what holds of every server and
every packet whatever the protocol does.

A theorem about a run is stated of its trace. `Reachable.at` goes back to the
state in which an event of the trace happened.
-/
import MyRaft.Moves
import MyRaft.Lib.History

namespace MyRaft

open History
open StdLib (StdMap)

variable {SM : Type} [StateMachine SM] {c : Cluster} {σ : System SM} {e : Event} {rest : List Packet}

/-- A handler that runs in `σ` and returns: its event, and what it leaves in flight. -/
structure Step (c : Cluster) (σ : System SM) (e : Event) (rest : List Packet) : Prop where
  member : e.server ∈ c.configuration
  offers : σ.Offers e.server e.input rest
  before : e.before = σ.raft e.server
  handled : (σ.raft e.server).handle e.input = .ok e.after

/-! ## Induction -/

/-- **What holds at the start and is kept by each step holds in every reachable state.** -/
theorem Reachable.invariant {I : System SM → Prop} (hr : Reachable c σ) (start : I (System.start c))
    (step : ∀ {σ : System SM} {e rest}, Reachable c σ → Step c σ e rest → I σ → I (σ.next e rest)) : I σ := by
  induction hr with
  | start => exact start
  | step hr hs ho hh ih => exact step hr ⟨hs, ho, rfl, hh⟩ ih

theorem Step.reachable (hr : Reachable c σ) (h : Step c σ e rest) : Reachable c (σ.next e rest) := by
  have he : e = σ.event e.server e.input e.after := by
    obtain ⟨s, input, before, after⟩ := e
    obtain rfl : before = σ.raft s := h.before
    rfl
  rw [he]
  exact .step hr h.member h.offers h.handled

/-- The same, for the runs whose steps meet a condition. -/
theorem Reachable.invariantAlong {P : List Event → Event → Prop} {I : System SM → Prop} (hr : Reachable c σ)
    (ha : Along P σ.trace) (start : I (System.start c))
    (step : ∀ {σ : System SM} {e rest}, Reachable c σ → Along P σ.trace → Step c σ e rest → P σ.trace e → I σ →
      I (σ.next e rest)) : I σ :=
  hr.invariant (I := fun σ => Along P σ.trace → I σ) (fun _ => start)
    (fun hr hs ih ha => step hr ha.2 hs ha.1 (ih ha.2)) ha

/-- The state in which an event happened. -/
theorem Reachable.at {past : List Event} (hr : Reachable c σ) (hs : e :: past <:+ σ.trace) :
    ∃ (σ₀ : System SM) (rest : List Packet), Reachable c σ₀ ∧ σ₀.trace = past ∧ Step c σ₀ e rest := by
  induction hr with
  | start => exact absurd (List.suffix_nil.mp hs) (by simp)
  | @step σ s input rest r hr hm ho hh ih =>
    rcases List.suffix_cons_iff.mp hs with he | hs
    · obtain ⟨rfl, rfl⟩ := List.cons_eq_cons.mp he
      exact ⟨σ, rest, hr, rfl, hm, ho, rfl, hh⟩
    · exact ih hs

/-! ## The next state -/

namespace System

theorem raft_next (s : Addr) :
    (σ.next e rest).raft s = if s = e.server then e.after.taken else σ.raft s := by
  unfold next raft
  by_cases hs : s = e.server
  · subst hs
    simp [Node.next]
  · simp [hs]

@[simp] theorem raft_next_self : (σ.next e rest).raft e.server = e.after.taken := by
  simp [raft_next]

theorem raft_next_ne {s : Addr} (hs : s ≠ e.server) : (σ.next e rest).raft s = σ.raft s := by
  simp [raft_next, hs]

theorem nodes_next (s : Addr) :
    (σ.next e rest).nodes s = if s = e.server then (σ.nodes e.server).next e else σ.nodes s := by
  unfold next
  by_cases hs : s = e.server
  · subst hs
    simp
  · simp [hs]

@[simp] theorem trace_next : (σ.next e rest).trace = e :: σ.trace := rfl

@[simp] theorem inflight_next : (σ.next e rest).inflight = rest ++ e.packets := rfl

end System

theorem Event.mem_packets {p : Packet} :
    p ∈ e.packets ↔ Effect.rpc p.dst p.rpc ∈ e.effects ∧ p.src = e.server ∧ p.call = e.input.call ∧
    p.sender = e.after := by
  unfold Event.packets
  rw [List.mem_filterMap]
  constructor
  · rintro ⟨f, hf, he⟩
    cases f with
    | rpc dst m =>
      simp only [Effect.packet?, Option.some.injEq] at he
      subst he
      exact ⟨hf, rfl, rfl, rfl⟩
    | _ => cases he
  · rintro ⟨hf, hs, hc, ha⟩
    refine ⟨_, hf, ?_⟩
    obtain ⟨src, dst, m, call, sender⟩ := p
    simp only at hs hc ha
    simp [Effect.packet?, hs, hc, ha]

/-- A packet some event of the trace put on the network. -/
def Sent (trace : List Event) (p : Packet) : Prop := ∃ e ∈ trace, p ∈ e.packets

theorem Sent.cons {trace : List Event} {p : Packet} : Sent (e :: trace) p ↔ p ∈ e.packets ∨ Sent trace p := by
  simp [Sent]

theorem Sent.mono {past trace : List Event} {p : Packet} (h : Sent past p) (hs : past <:+ trace) :
    Sent trace p := by
  obtain ⟨e, he, hp⟩ := h
  exact ⟨e, hs.subset he, hp⟩

/-! ## Identity of servers and packets -/

/-- What a server never changes. -/
structure Known (c : Cluster) (s : Addr) (x : RaftServer) : Prop where
  server : x.server = s
  configuration : x.configuration = c.configuration
  majority : x.majority = (c.configuration.length / 2 + 1 : Nat)

theorem RaftServer.Outcome.known {c : Cluster} {s : Addr} {x y : RaftServer} {input : Input}
    (h : Outcome x input y) (hk : Known c s x) : Known c s y := by
  obtain ⟨h1, h2, h3⟩ := h.static
  exact ⟨h1.trans hk.server, h2.trans hk.configuration, h3.trans hk.majority⟩

/-- The servers know who they are, and the network holds their messages only. -/
structure Wired (c : Cluster) (σ : System SM) : Prop where
  known : ∀ s, Known c s (σ.raft s)
  idle : ∀ s, (σ.raft s).effects = []
  sent : ∀ p ∈ σ.inflight, Sent σ.trace p
  ofServer : ∀ p, Sent σ.trace p → p.rpc.ofServer = true

omit [StateMachine SM] in
/-- What an input leaves in flight was in flight. -/
theorem System.Offers.sublist {s : Addr} {input : Input} (h : σ.Offers s input rest) :
    rest.Sublist σ.inflight := by
  cases h with
  | message hin hdst =>
    rw [hin]
    exact (List.Sublist.refl _).append (List.sublist_cons_self _ _)
  | _ => exact List.Sublist.refl _

omit [StateMachine SM] in
theorem System.Offers.mem_of_left {s : Addr} {input : Input} (h : σ.Offers s input rest) :
    ∀ p ∈ rest, p ∈ σ.inflight := fun _ hp => h.sublist.subset hp

omit [StateMachine SM] in
theorem System.Offers.delivered {s : Addr} {p : Packet} (h : σ.Offers s (.message p) rest) :
    p ∈ σ.inflight ∧ p.dst = s := by
  cases h with
  | message hin hdst => exact ⟨by rw [hin]; simp, hdst⟩

omit [StateMachine SM] in
theorem Wired.known_before (h : Wired c σ) (hs : Step c σ e rest) : Known c e.server e.before := by
  rw [hs.before]
  exact h.known e.server

omit [StateMachine SM] in
/-- A delivered packet was sent to the server that handles it. -/
theorem Wired.delivered (h : Wired c σ) (hs : Step c σ e rest) {p : Packet} (hi : e.input = .message p) :
    Sent σ.trace p ∧ p.dst = e.server ∧ p ∈ σ.inflight := by
  have ho := hs.offers
  rw [hi] at ho
  obtain ⟨hflying, hdst⟩ := ho.delivered
  exact ⟨h.sent p hflying, hdst, hflying⟩

omit [StateMachine SM] in
theorem Wired.outcome (h : Wired c σ) (hs : Step c σ e rest) : RaftServer.Outcome e.before e.input e.after := by
  rw [hs.before]
  refine RaftServer.handle_outcome ?_ (fun p hp => ?_) hs.handled
  · rw [(h.known e.server).configuration]
    exact c.nodup
  · exact h.ofServer p (h.delivered hs hp).1

omit [StateMachine SM] in
theorem Wired.idle_before (h : Wired c σ) (hs : Step c σ e rest) : e.before.effects = [] := by
  rw [hs.before]
  exact h.idle e.server

omit [StateMachine SM] in
/-- A packet an event sends, with what its handler knew. -/
theorem Wired.sends (h : Wired c σ) (hs : Step c σ e rest) {p : Packet} (hp : p ∈ e.packets) :
    RaftServer.Sends e.before e.input e.after p.dst p.rpc :=
  (h.outcome hs).sends (h.idle_before hs) (Event.mem_packets.mp hp).1

theorem RaftServer.Sends.ofServer {x y : RaftServer} {input : Input} {dst : Addr} {m : Rpc}
    (h : RaftServer.Sends x input y dst m) : m.ofServer = true := by
  cases h <;> rfl

theorem Wired.start : Wired c (System.start c : System SM) :=
  ⟨fun s => ⟨rfl, rfl, rfl⟩, fun s => rfl, by simp [System.start], by simp [Sent, System.start]⟩

theorem Wired.step (h : Wired c σ) (hs : Step c σ e rest) : Wired c (σ.next e rest) := by
  have ho := h.outcome hs
  refine ⟨fun s => ?_, fun s => ?_, fun p hp => ?_, fun p hp => ?_⟩
  · rw [System.raft_next]
    split
    · rename_i he
      have hk := ho.known (h.known_before hs)
      exact ⟨by rw [he]; exact hk.server, hk.configuration, hk.majority⟩
    · exact h.known s
  · rw [System.raft_next]
    split
    · rfl
    · exact h.idle s
  · rw [System.trace_next, Sent.cons]
    rcases List.mem_append.mp hp with hp | hp
    · exact .inr (h.sent p (hs.offers.mem_of_left p hp))
    · exact .inl hp
  · rcases Sent.cons.mp hp with hp | hp
    · exact (h.sends hs hp).ofServer
    · exact h.ofServer p hp

theorem Reachable.wired (hr : Reachable c σ) : Wired c σ :=
  hr.invariant .start fun _ hs h => h.step hs

section Step

variable (hr : Reachable c σ) (h : Step c σ e rest)
include hr h

theorem Step.outcome : RaftServer.Outcome e.before e.input e.after := hr.wired.outcome h

theorem Step.idle : e.before.effects = [] := hr.wired.idle_before h

theorem Step.known_before : Known c e.server e.before := hr.wired.known_before h

theorem Step.known : Known c e.server e.after := (h.outcome hr).known (h.known_before hr)

theorem Step.sends {p : Packet} (hp : p ∈ e.packets) : RaftServer.Sends e.before e.input e.after p.dst p.rpc :=
  hr.wired.sends h hp

theorem Step.delivered {p : Packet} (hi : e.input = .message p) :
    Sent σ.trace p ∧ p.dst = e.server ∧ p ∈ σ.inflight := hr.wired.delivered h hi

end Step

/-- The trace of a step leads to the state before it. -/
theorem Reachable.step_of_mem (hr : Reachable c σ) (he : e ∈ σ.trace) :
    ∃ (σ₀ : System SM) (rest : List Packet), Reachable c σ₀ ∧ e :: σ₀.trace <:+ σ.trace ∧ Step c σ₀ e rest := by
  obtain ⟨past, hs⟩ := exists_past he
  obtain ⟨σ₀, rest, hr₀, rfl, hst⟩ := hr.at hs
  exact ⟨σ₀, rest, hr₀, hs, hst⟩

/-- A packet of the trace, with the step that sent it. -/
theorem Reachable.sent (hr : Reachable c σ) {p : Packet} (hp : Sent σ.trace p) :
    ∃ (σ₀ : System SM) (e : Event) (rest : List Packet), Reachable c σ₀ ∧ e :: σ₀.trace <:+ σ.trace ∧
    Step c σ₀ e rest ∧
      p ∈ e.packets := by
  obtain ⟨e, he, hp⟩ := hp
  obtain ⟨σ₀, rest, hr₀, hs, hst⟩ := hr.step_of_mem he
  exact ⟨σ₀, e, rest, hr₀, hs, hst, hp⟩

theorem Reachable.src_mem (hr : Reachable c σ) {p : Packet} (hp : Sent σ.trace p) : p.src ∈ c.configuration := by
  obtain ⟨σ₀, e, rest, -, -, hst, hpe⟩ := hr.sent hp
  rw [(Event.mem_packets.mp hpe).2.1]
  exact hst.member

end MyRaft
