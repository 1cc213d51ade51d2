/-
The states of a server in the order they follow each other: the term never
falls, and within a term a follower stays a follower, a primary stays a primary
whose log only grows, and the lsn tables only grow.
-/
import MyRaft.Timers

namespace MyRaft

open History
open RaftServer (Outcome)

/-- `y` is a later state of the server in state `x`. -/
structure Since (x y : RaftServer) : Prop where
  term : x.term ≤ y.term
  primary : x.term = y.term → x.state = .primary → y.state = .primary
  follower : x.term = y.term → x.state = .follower → y.state = .follower
  log : x.term = y.term → x.state = .primary → x.entries.log <+: y.entries.log
  heard : x.term = y.term → ∀ z, x.followerRpcLsn.get z ≤ y.followerRpcLsn.get z
  lsn : x.term = y.term → ∀ z, x.currentRpcLsn.get z ≤ y.currentRpcLsn.get z

theorem Since.refl (x : RaftServer) : Since x x where
  term := Int.le_refl _
  primary := fun _ h => h
  follower := fun _ h => h
  log := fun _ _ => List.prefix_refl _
  heard := fun _ _ => Int.le_refl _
  lsn := fun _ _ => Int.le_refl _

theorem Since.trans {x y z : RaftServer} (h : Since x y) (h' : Since y z) : Since x z := by
  -- equal terms at the ends are equal terms in the middle
  have hmid : x.term = z.term → x.term = y.term ∧ y.term = z.term := fun he => by
    have := h.term
    have := h'.term
    omega
  refine ⟨Int.le_trans h.term h'.term, ?_, ?_, ?_, ?_, ?_⟩
  · exact fun he hx => h'.primary (hmid he).2 (h.primary (hmid he).1 hx)
  · exact fun he hx => h'.follower (hmid he).2 (h.follower (hmid he).1 hx)
  · exact fun he hx => (h.log (hmid he).1 hx).trans (h'.log (hmid he).2 (h.primary (hmid he).1 hx))
  · exact fun he a => Int.le_trans (h.heard (hmid he).1 a) (h'.heard (hmid he).2 a)
  · exact fun he a => Int.le_trans (h.lsn (hmid he).1 a) (h'.lsn (hmid he).2 a)

theorem RaftServer.Outcome.since {x y : RaftServer} {input : Input} (h : Outcome x input y) : Since x y where
  term := h.term_le
  primary := fun he hx => h.primary hx he
  follower := fun he hx => h.follower hx he
  log := fun he hx => by
    cases h.log with
    | same hlog => rw [hlog]
    | appended _ _ _ hlog => rw [hlog]; exact List.prefix_append _ _
    | accepted _ _ ha => exact absurd ⟨hx, he.trans ha.term⟩ ha.not_primary
  heard := fun he => h.heard_le he.symm
  lsn := fun he => h.lsn_le he.symm

variable {SM : Type} [StateMachine SM] {c : Cluster} {σ : System SM} {e e' : Event} {rest : List Packet}

theorem Step.since (hr : Reachable c σ) (h : Step c σ e rest) : Since e.before e.after := (h.outcome hr).since

/-- A step moves each server on. -/
theorem Wired.since_next (hw : Wired c σ) (h : Step c σ e rest) (s : Addr) :
    Since (σ.raft s) ((σ.next e rest).raft s) := by
  rw [System.raft_next]
  split
  · rename_i hs
    subst hs
    rw [← h.before]
    obtain ⟨h1, h2, h3, h4, h5, h6⟩ := (hw.outcome h).since
    exact ⟨h1, h2, h3, h4, h5, h6⟩
  · exact .refl _

theorem Step.since_next (hr : Reachable c σ) (h : Step c σ e rest) (s : Addr) :
    Since (σ.raft s) ((σ.next e rest).raft s) := hr.wired.since_next h s

theorem Wired.since_trace (hw : Wired c σ) (h : Step c σ e rest)
    (ih : ∀ d ∈ σ.trace, Since d.after (σ.raft d.server)) :
    ∀ d ∈ (σ.next e rest).trace, Since d.after ((σ.next e rest).raft d.server) := by
  intro d hd
  rcases List.mem_cons.mp hd with rfl | hd
  · rw [System.raft_next_self]
    obtain ⟨h1, h2, h3, h4, h5, h6⟩ := Since.refl d.after
    exact ⟨h1, h2, h3, h4, h5, h6⟩
  · exact (ih d hd).trans (hw.since_next h d.server)

/-- **The server of an event has only moved on since.** -/
theorem Reachable.since (hr : Reachable c σ) (he : e ∈ σ.trace) : Since e.after (σ.raft e.server) :=
  hr.invariant (I := fun σ => ∀ e ∈ σ.trace, Since e.after (σ.raft e.server)) (fun e he => by cases he)
    (fun hr h ih => hr.wired.since_trace h ih) e he

theorem Reachable.since_sent (hr : Reachable c σ) {p : Packet} (hp : Sent σ.trace p) :
    Since p.sender (σ.raft p.src) := by
  obtain ⟨e, he, hp⟩ := hp
  obtain ⟨-, hsrc, -, hsender⟩ := Event.mem_packets.mp hp
  rw [hsrc, hsender]
  exact hr.since he

/-- Of two events of a server one came first. -/
theorem Reachable.since_total (hr : Reachable c σ) (he : e ∈ σ.trace) (he' : e' ∈ σ.trace)
    (hs : e.server = e'.server) : Since e.after e'.after ∨ Since e'.after e.after := by
  refine hr.invariant (I := fun σ => ∀ e ∈ σ.trace, ∀ e' ∈ σ.trace, e.server = e'.server →
    Since e.after e'.after ∨ Since e'.after e.after) (fun e he => by cases he) ?_ e he e' he' hs
  intro σ d rest hr h ih e he e' he' hs
  -- an earlier event of the server comes before the state this one starts from
  have hlast : ∀ f ∈ σ.trace, f.server = d.server → Since f.after d.after := fun f hf hfs => by
    have := hr.since hf
    rw [hfs, ← h.before] at this
    exact this.trans (h.since hr)
  rcases List.mem_cons.mp he with rfl | hm <;> rcases List.mem_cons.mp he' with rfl | hm'
  · exact .inl (.refl _)
  · exact .inr (hlast e' hm' hs.symm)
  · exact .inl (hlast e hm hs)
  · exact ih e hm e' hm' hs

/-- At most one server is primary in each term. -/
def OnePrimary (trace : List Event) : Prop :=
  ∀ e ∈ trace, ∀ e' ∈ trace, e.after.state = .primary → e'.after.state = .primary → e.after.term = e'.after.term →
    e.server = e'.server

instance (trace : List Event) : Decidable (OnePrimary trace) :=
  inferInstanceAs (Decidable (∀ e ∈ trace, ∀ e' ∈ trace, e.after.state = .primary → e'.after.state = .primary →
    e.after.term = e'.after.term → e.server = e'.server))

end MyRaft
