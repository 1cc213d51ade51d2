/-
Vote requests sent again. `already_voted_` is a flag and does not say to whom
the vote went, so a candidate that asks again because the first reply is late
or lost is denied like any other. `RaftServer.h` means it so: the candidate gets
its votes in the next term.

The flag is also cleared by an AE of the same term; what follows here is of the
steps up to such an AE.
-/
import MyRaft.Restart

namespace MyRaft

open History
open StdLib (StdMap)

variable {SM : Type} [StateMachine SM] {c : Cluster} {σ : System SM} {e g : Event} {rest : List Packet}
  {past between : List Event} {q : Packet} {s : Addr} {resp : RespRequestVoteRpc}

/-- None of the events is an AE of a term to a server. -/
def NoAe (events : List Event) (s : Addr) (term : Int) : Prop :=
  ∀ d ∈ events, d.server = s → ∀ ae ∈ d.input.appendEntry?, ae.term ≠ term

instance (events : List Event) (s : Addr) (term : Int) : Decidable (NoAe events s term) :=
  inferInstanceAs (Decidable (∀ d ∈ events, d.server = s → ∀ ae ∈ d.input.appendEntry?, ae.term ≠ term))

theorem Input.mem_requestVote? {input : Input} {rv : RequestVoteRpc} :
    rv ∈ input.requestVote? ↔ ∃ p, input = .message p ∧ p.rpc = .requestVote rv := by
  unfold Input.requestVote? Input.call
  cases input with
  | message p => cases hp : p.rpc <;> simp [hp]
  | _ => simp

theorem Reachable.vote_le (hr : Reachable c σ) (hg : g ∈ σ.trace) (hq : q ∈ g.packets) (hgrant : Grant q s resp) :
    resp.term ≤ (σ.raft g.server).term ∧ (resp.term = (σ.raft g.server).term →
    (σ.raft g.server).state = .follower) := by
  have h := hr.voter_follows ⟨g, hg, hq⟩ hgrant
  rwa [(Event.mem_packets.mp hq).2.1] at h

/-- **A server that voted stays so in its term, as long as no AE of the term comes.** -/
theorem Reachable.still_voted (hr : Reachable c σ) :
    ∀ {between past : List Event} {g : Event} {q : Packet} {s : Addr}
    {resp : RespRequestVoteRpc}, σ.trace = between ++ g :: past → q ∈ g.packets → Grant q s resp →
    resp.term = (σ.raft g.server).term → NoAe between g.server resp.term →
    (σ.raft g.server).alreadyVoted = true := by
  refine hr.invariant (I := fun σ => ∀ {between past : List Event} {g : Event} {q : Packet} {s : Addr}
    {resp : RespRequestVoteRpc}, σ.trace = between ++ g :: past → q ∈ g.packets → Grant q s resp →
    resp.term = (σ.raft g.server).term → NoAe between g.server resp.term →
    (σ.raft g.server).alreadyVoted = true) ?_ ?_
  · intro between past g q s resp htrace
    simp [System.start] at htrace
  intro σ e rest hr h ih between past g q s resp htrace hq hgrant hterm hno
  cases between with
  | nil =>
    -- the vote is given in this step
    obtain ⟨rfl, -⟩ := List.cons_eq_cons.mp htrace
    have hm := (Event.mem_packets.mp hq).1
    rw [hgrant.rpc] at hm
    rw [System.raft_next_self, RaftServer.taken_alreadyVoted]
    exact (h.outcome hr).grant_voted (h.idle hr) hm hgrant.ok
  | cons d between =>
    obtain ⟨rfl, hpast⟩ := List.cons_eq_cons.mp htrace
    have hmem : g ∈ σ.trace := by simp [hpast]
    have hbefore : NoAe between g.server resp.term := fun d hd => hno d (by simp [hd])
    by_cases hserver : g.server = e.server
    · have hle := (hr.vote_le hmem hq hgrant).1
      rw [hserver, System.raft_next_self, RaftServer.taken_term] at hterm
      have hgrown := (h.outcome hr).term_le
      rw [hserver, ← h.before] at hle
      have hsame : e.before.term = resp.term := by omega
      have hvoted := ih hpast hq hgrant (by rw [hserver, ← h.before, hsame]) hbefore
      have hstate := (hr.vote_le hmem hq hgrant).2 (by rw [hserver, ← h.before, hsame])
      rw [hserver, ← h.before] at hvoted hstate
      rw [hserver, System.raft_next_self]
      rcases (h.outcome hr).keeps_vote hstate (by omega) hvoted with hkept | ⟨ae, hae, haeterm⟩
      · exact hkept
      · exact absurd (haeterm.trans hsame) (hno e (by simp) hserver.symm ae hae)
    · rw [System.raft_next_ne hserver] at hterm ⊢
      exact ih hpast hq hgrant hterm hbefore

/-- The voter denies the RV `rv` in this event: that is all it sends. -/
def Denies (e : Event) (rv : RequestVoteRpc) : Prop :=
  ∃ q resp, e.packets = [q] ∧ q.rpc = .respVote resp ∧ q.dst = rv.server ∧ resp.lsn = rv.lsn ∧
  resp.term = rv.term ∧
    resp.ok = false

/-- **A server that granted a vote denies the later RVs of the term, whoever sends them**, until an AE of the
term comes. -/
theorem retries_denied (hr : Reachable c σ) {e g : Event} {between past : List Event}
    (hs : e :: (between ++ g :: past) <:+ σ.trace) {q : Packet} {s : Addr} {resp : RespRequestVoteRpc}
    (hq : q ∈ g.packets) (hgrant : Grant q s resp) (hserver : e.server = g.server)
    (hterm : e.before.term = resp.term) (hno : NoAe between g.server resp.term) {rv : RequestVoteRpc}
    (hrv : rv ∈ e.input.requestVote?) (hsame : rv.term = resp.term)
    (hlsn : e.before.followerRpcLsn.get rv.server < rv.lsn) : Denies e rv := by
  obtain ⟨σ₀, rest, hr₀, htrace, hst⟩ := hr.at hs
  have hvoted := hr₀.still_voted htrace hq hgrant (by rw [← hserver, ← hst.before, hterm]) hno
  rw [← hserver, ← hst.before] at hvoted
  have hheard : e.before.heard rv.term = e.before := RaftServer.heard_same (by omega)
  obtain ⟨p, hi, hp⟩ := Input.mem_requestVote?.mp hrv
  have hh := hst.handled
  rw [← hst.before, hi] at hh
  change e.before.reactToIncomingMsg p.rpc p.src = _ at hh
  rw [hp] at hh
  -- of the ways through `react2rv` only a denial is left
  have hafter : e.after = (e.before.recordLsn rv.server rv.lsn).makeRespRv false rv.server rv.lsn := by
    rcases RaftServer.react2rv_ok hh with ⟨hlt, -⟩ | ⟨-, ⟨hle, -⟩ | ⟨-, hdenied | ⟨-, hfree, -⟩⟩⟩
    · omega
    · rw [hheard] at hle
      omega
    · rwa [hheard] at hdenied
    · rw [hheard, hvoted] at hfree
      cases hfree
  refine ⟨⟨e.server, rv.server, .respVote ⟨false, e.before.term, rv.lsn, e.before.server.ip, e.before.server.port⟩,
    e.input.call, e.after⟩, _, ?_, rfl, rfl, rfl, by simp only; omega, rfl⟩
  have heffects : e.effects = [.rpc rv.server (.respVote ⟨false, e.before.term, rv.lsn, e.before.server.ip,
      e.before.server.port⟩)] := by
    rw [Event.effects, hafter]
    simp [RaftServer.makeRespRv, RaftServer.makeRpcCall, hst.idle hr₀]
  rw [Event.packets, heffects]
  rfl

/-- A sends B a second RV while the vote of B is on its way. -/
def retriedRv : List Action :=
  campaign serverA ++ [.deliver 0, .poll serverA [.retry serverB], .timer serverA, .deliver 2]

/-- The event, and the one in which the vote was given, two others between them. -/
theorem exists_split {α : Type} {l : List α} {a b : α} (ha : l.head? = some a) (hb : l.tail[2]? = some b) :
    l = a :: (l.tail.take 2 ++ b :: l.tail.drop 3) := by
  obtain ⟨tail, rfl⟩ := List.head?_eq_some_iff.mp ha
  obtain ⟨hlt, hget⟩ := List.getElem?_eq_some_iff.mp hb
  simp only [List.tail_cons] at hlt hget ⊢
  rw [← hget, ← List.drop_eq_getElem_cons hlt, List.take_append_drop]

theorem retriedRv_denied :
    ∃ (σ : System Unit) (e : Event) (rv : RequestVoteRpc), Reachable threeServers σ ∧ e ∈ σ.trace ∧
    rv ∈ e.input.requestVote? ∧ Denies e rv := by
  obtain ⟨σ, hr, e, he, g, hg, rv, hrv, q, hq, hvote, hserver, hterm, hno, hlsn⟩ :=
    System.exists_reachable threeServers
    retriedRv (P := fun σ : System Unit => ∃ e ∈ σ.trace.head?, ∃ g ∈ σ.trace.tail[2]?,
    ∃ rv ∈ e.input.requestVote?,
      ∃ q ∈ g.packets, q.vote? rv.term = some serverA ∧ e.server = g.server ∧ e.before.term = rv.term ∧
        NoAe (σ.trace.tail.take 2) g.server rv.term ∧ e.before.followerRpcLsn.get rv.server < rv.lsn) (by
          decide +kernel)
  obtain ⟨resp, hgrant, hresp⟩ := Packet.vote?_eq_some.mp hvote
  have hs : e :: (σ.trace.tail.take 2 ++ g :: σ.trace.tail.drop 3) <:+ σ.trace := by
    rw [← exists_split he hg]
  exact ⟨σ, e, rv, hr, List.mem_of_mem_head? he, hrv, retries_denied hr hs hq hgrant hserver
    (hterm.trans hresp.symm) (hresp.symm ▸ hno) hrv hresp.symm hlsn⟩

/-- The candidate that has the vote is denied when it asks again. -/
theorem retriedRv_not_granted :
    ¬ ∀ (σ : System Unit) (e g : Event) (past : List Event), Reachable threeServers σ →
    e :: past <:+ σ.trace → g ∈ past →
      ∀ (q : Packet) (s : Addr) (resp : RespRequestVoteRpc), q ∈ g.packets → Grant q s resp → e.server = g.server →
        e.before.term = resp.term → ∀ rv ∈ e.input.requestVote?, rv.term = resp.term → rv.server = s →
          e.before.followerRpcLsn.get rv.server < rv.lsn → ∃ q' ∈ e.packets, ∃ resp', Grant q' s resp' := by
  intro hall
  obtain ⟨σ, hr, e, he, g, hg, rv, hrv, q, hq, hvote, hserver, hterm, hs, hlsn, hdenied⟩ := System.exists_reachable
    threeServers retriedRv (P := fun σ : System Unit => ∃ e ∈ σ.trace.head?, ∃ g ∈ σ.trace.tail[2]?,
    ∃ rv ∈ e.input.requestVote?,
      ∃ q ∈ g.packets, q.vote? rv.term = some serverA ∧ e.server = g.server ∧ e.before.term = rv.term ∧
        rv.server = serverA ∧ e.before.followerRpcLsn.get rv.server < rv.lsn ∧
        e.packets.any Packet.accepts = false) (by decide +kernel)
  obtain ⟨resp, hgrant, hresp⟩ := Packet.vote?_eq_some.mp hvote
  obtain ⟨tail, htail⟩ := List.head?_eq_some_iff.mp he
  rw [htail, List.tail_cons] at hg
  obtain ⟨q', hq', resp', hgrant'⟩ :=
    hall σ e g tail hr (htail ▸ List.suffix_refl _) (List.mem_of_getElem? hg) q serverA
    resp hq hgrant hserver (hterm.trans hresp.symm) rv hrv hresp.symm hs hlsn
  have haccepts := List.any_eq_false.mp hdenied q' hq'
  simp [Packet.accepts, hgrant'.rpc, hgrant'.ok] at haccepts

end MyRaft
