/-
Elections. Behind a primary stands a majority of servers that granted it their
vote for its term: a vote that was counted silences the retry timer of its
voter, so the lsn it was matched with stays the last one and no other grant of
that voter is counted.

What the code does not give is that a server votes once in a term. `trans2F`
clears `already_voted_`, and `react2ae` calls it for an AE of the server's own
term as well.
-/
import MyRaft.Messages
import MyRaft.Lib.Rank

namespace MyRaft

open History Rank
open StdLib (StdMap)
open RaftServer (Outcome Ballot Leads Grants)

/-! ## Votes -/

/-- `p` grants `s` the vote of its sender for the term of `resp`. -/
structure Grant (p : Packet) (s : Addr) (resp : RespRequestVoteRpc) : Prop where
  rpc : p.rpc = .respVote resp
  ok : resp.ok = true
  dst : p.dst = s

/-- `v` has granted `s` its vote for a term. -/
def Granted (trace : List Event) (v s : Addr) (term : Int) : Prop :=
  ∃ p resp, Sent trace p ∧ p.src = v ∧ Grant p s resp ∧ resp.term = term

theorem Granted.mono {past trace : List Event} {v s : Addr} {term : Int} (h : Granted past v s term)
    (hs : past <:+ trace) : Granted trace v s term := by
  obtain ⟨p, resp, hp, h⟩ := h
  exact ⟨p, resp, hp.mono hs, h⟩

/-- A majority of the servers, `s` among them, that granted `s` their vote. -/
def Elected (c : Cluster) (trace : List Event) (s : Addr) (term : Int) : Prop :=
  ∃ Q, Quorum c.configuration Q ∧ ∀ v ∈ Q, v ≠ s → Granted trace v s term

theorem Elected.mono {c : Cluster} {past trace : List Event} {s : Addr} {term : Int} (h : Elected c past s term)
    (hs : past <:+ trace) : Elected c trace s term := by
  obtain ⟨Q, hQ, hv⟩ := h
  exact ⟨Q, hQ, fun v hm hne => (hv v hm hne).mono hs⟩

section Runs

variable {SM : Type} [StateMachine SM] {c : Cluster} {σ : System SM} {e : Event} {rest : List Packet} {p : Packet}
  {s : Addr} {resp : RespRequestVoteRpc}

/-- The voter when it granted its vote. -/
structure Voter (p : Packet) (resp : RespRequestVoteRpc) : Prop where
  term : p.sender.term = resp.term
  state : p.sender.state = .follower
  recorded : p.sender.followerRpcLsn.get p.dst = resp.lsn
  server : resp.server = p.src

theorem VoteReply.voter {trace : List Event} {q : Packet} {rv : RequestVoteRpc} {x : RaftServer}
    (h : VoteReply trace p resp q rv x) (hserver : rv.server = q.src) (hok : resp.ok = true) : Voter p resp where
  term := h.term.symm
  state := (h.grants hok).state
  recorded := by rw [← h.src, ← hserver, (h.grants hok).recorded, h.lsn]
  server := h.server

theorem Reachable.voter (hr : Reachable c σ) (hp : Sent σ.trace p) (hg : Grant p s resp) : Voter p resp := by
  obtain ⟨q, rv, x, h⟩ := hr.vote_reply hp hg.rpc
  exact h.voter (hr.rv_sent h.sent h.rpc).server hg.ok

/-- A server that granted a vote in its present term is a follower. -/
theorem Reachable.voter_follows (hr : Reachable c σ) (hp : Sent σ.trace p) (hg : Grant p s resp) :
    resp.term ≤ (σ.raft p.src).term ∧ (resp.term = (σ.raft p.src).term → (σ.raft p.src).state = .follower) := by
  have hv := hr.voter hp hg
  have hs := hr.since_sent hp
  exact ⟨hv.term ▸ hs.term, fun he => hs.follower (hv.term.trans he) hv.state⟩

/-- In a term a server grants its votes on growing lsn. -/
theorem Step.grant_lt (hr : Reachable c σ) (h : Step c σ e rest) (hp : p ∈ e.packets) (hg : Grant p s resp)
    {p' : Packet} {resp' : RespRequestVoteRpc} (hp' : Sent σ.trace p') (hg' : Grant p' s resp')
    (hsrc : p'.src = p.src) (hterm : resp'.term = resp.term) : resp'.lsn < resp.lsn := by
  obtain ⟨q, rv, hv, -⟩ := h.vote_reply hr hp hg.rpc
  obtain ⟨-, hpsrc, -, hsender⟩ := Event.mem_packets.mp hp
  have hgr := hv.grants hg.ok
  have hvoter' := hr.voter hp' hg'
  have hsince := hr.since_sent hp'
  rw [hsrc, hpsrc, ← h.before] at hsince
  have hrv : rv.term = resp.term := by rw [← hgr.term, hv.term]
  have hsame : rv.term = e.before.term := by
    have := hgr.term_le
    have := hsince.term
    have := hvoter'.term
    omega
  have hlt := hgr.lsn
  rw [RaftServer.heard_same hsame, (hr.rv_sent hv.sent hv.rpc).server, hv.src, hg.dst] at hlt
  have hle := hsince.heard (by have := hvoter'.term; omega) s
  have hrec := hvoter'.recorded
  rw [hg'.dst] at hrec
  have := hv.lsn
  omega

/-! ## Each grant is delivered once -/

def SameGrant (p q : Packet) : Prop :=
  p.src = q.src ∧ ∃ s resp resp', Grant p s resp ∧ Grant q s resp' ∧ resp.term = resp'.term ∧ resp.lsn = resp'.lsn

theorem RaftServer.Outcome.single_vote {x y : RaftServer} {input : Input} {dst : Addr} (hx : x.effects = [])
    (h : Outcome x input y) (hm : Effect.rpc dst (.respVote resp) ∈ y.effects) :
    y.effects = [.rpc dst (.respVote resp)] := by
  have hs := h.sends hx hm
  cases hs with
  | respVote hi hq =>
    subst hi
    cases h with
    | idle | steppedDown => simp [hx] at hm
    | rvIgnored => simp [hx] at hm
    | rvStale | rvDenied | rvGranted =>
      simp only [RaftServer.voted, RaftServer.makeRespRv, RaftServer.makeRpcCall, RaftServer.recordLsn_effects,
        RaftServer.heard_effects, hx, List.nil_append, List.mem_singleton] at hm ⊢
      rw [hm]
    | aeStale hp | aeIgnored hp | aeRejected hp | aeAccepted hp | counted hp | won hp | acked hp | nacked hp =>
      rw [hq] at hp
      cases hp

omit [StateMachine SM] in
theorem Wired.packets_of_grant (hw : Wired c σ) (h : Step c σ e rest) (hp : p ∈ e.packets) (hg : Grant p s resp) :
    e.packets = [p] := by
  have hm := (Event.mem_packets.mp hp).1
  rw [hg.rpc] at hm
  have heff : e.effects = [.rpc p.dst (.respVote resp)] := (hw.outcome h).single_vote (hw.idle_before h) hm
  have hone : e.packets.length ≤ 1 := by
    unfold Event.packets
    rw [heff]
    exact List.length_filterMap_le _ _
  obtain ⟨q, hq⟩ : ∃ q, e.packets = [q] := List.length_eq_one_iff.mp (by
    have := List.length_pos_of_mem hp
    omega)
  rw [hq] at hp ⊢
  rw [List.mem_singleton.mp hp]

/-- No grant is in flight twice. -/
theorem Reachable.grants_distinct (hr : Reachable c σ) : σ.inflight.Pairwise fun p q => ¬ SameGrant p q := by
  refine hr.invariant (I := fun σ => σ.inflight.Pairwise fun p q => ¬ SameGrant p q) .nil ?_
  intro σ e rest hr h ih
  rw [System.inflight_next, List.pairwise_append]
  refine ⟨ih.sublist h.offers.sublist, ?_, ?_⟩
  · -- an event grants at most once
    by_cases hex : ∃ p ∈ e.packets, ∃ s resp, Grant p s resp
    · obtain ⟨p, hp, s, resp, hg⟩ := hex
      rw [hr.wired.packets_of_grant h hp hg]
      exact List.pairwise_singleton _ _
    · exact List.pairwise_of_forall_mem_list fun p hp q _ hpq => by
        obtain ⟨-, s, resp, -, hg, -⟩ := hpq
        exact hex ⟨p, hp, s, resp, hg⟩
  · rintro p' hp' p hp ⟨hsrc, s, resp', resp, hg', hg, hterm, hlsn⟩
    have hlt := h.grant_lt hr hp hg (hr.wired.sent p' (h.offers.mem_of_left p' hp')) hg' hsrc hterm
    omega

/-! ## The votes of a candidate -/

/-- The voters behind the votes a candidate has counted. -/
structure Ballots (σ : System SM) (s : Addr) (voters : Finset Addr) : Prop where
  votes : (σ.raft s).winnedVotes = voters.card + 1
  voted : ∀ v ∈ voters, ∃ p resp, Sent σ.trace p ∧ p.src = v ∧ Grant p s resp ∧ resp.term = (σ.raft s).term ∧
    (σ.raft s).currentRpcLsn.get v = resp.lsn + 1
  expired : ∀ v ∈ voters, ((σ.raft s).retryTimers.get v).minDateTime = true
  /-- No vote of theirs is left to count. -/
  spent : ∀ v ∈ voters, ∀ p ∈ σ.inflight, ∀ resp, p.src = v → Grant p s resp → resp.term = (σ.raft s).term →
    (σ.raft s).currentRpcLsn.get v ≠ resp.lsn + 1

theorem SameGrant.symm {p q : Packet} (h : SameGrant p q) : SameGrant q p := by
  obtain ⟨hsrc, s, resp, resp', hp, hq, hterm, hlsn⟩ := h
  exact ⟨hsrc.symm, s, resp', resp, hq, hp, hterm.symm, hlsn.symm⟩

theorem Step.delivered_once (hr : Reachable c σ) (h : Step c σ e rest) (hi : e.input = .message p) :
    ∀ q ∈ rest, ¬ SameGrant p q := by
  have ho := h.offers
  have hd := hr.grants_distinct
  rw [hi] at ho
  cases ho with
  | message hin _ =>
    rw [hin, List.pairwise_append, List.pairwise_cons] at hd
    obtain ⟨-, ⟨hpost, -⟩, hpre⟩ := hd
    intro q hq hs
    rcases List.mem_append.mp hq with hq | hq
    · exact hpre q hq p (by simp) hs.symm
    · exact hpost q hq hs

/-- A candidate has not granted a vote in its term. -/
theorem Reachable.candidate_not_voter (hr : Reachable c σ) (hp : Sent σ.trace p) (hg : Grant p s resp)
    (hst : (σ.raft p.src).state ≠ .follower) : resp.term ≠ (σ.raft p.src).term := fun he =>
  hst ((hr.voter_follows hp hg).2 he)

theorem Ballots.not_self (hr : Reachable c σ) {voters : Finset Addr} (h : Ballots σ s voters)
    (hst : (σ.raft s).state = .candidate) : s ∉ voters := fun hs => by
  obtain ⟨p, resp, hp, hsrc, hg, hterm, -⟩ := h.voted s hs
  refine hr.candidate_not_voter hp hg ?_ ?_
  · rw [hsrc, hst]
    nofun
  · rw [hsrc]
    exact hterm

/-- The vote a candidate counts next is of a server it has not counted. -/
theorem Ballots.fresh (hr : Reachable c σ) (h : Step c σ e rest) {voters : Finset Addr}
    (hb : Ballots σ e.server voters) (hi : e.input = .message p) (hg : Grant p e.server resp)
    (hterm : resp.term = e.before.term) (hlsn : e.before.currentRpcLsn.get resp.server = resp.lsn + 1) :
    p.src = resp.server ∧ p.src ∉ voters := by
  obtain ⟨hsent, -, hin⟩ := h.delivered hr hi
  have hserver := (hr.voter hsent hg).server
  refine ⟨hserver.symm, fun hv => hb.spent p.src hv p hin resp rfl hg ?_ ?_⟩
  · rw [hterm, h.before]
  · rw [← h.before, ← hserver, hlsn]

/-- A step of another server. -/
theorem Ballots.other (hr : Reachable c σ) (h : Step c σ e rest) (hs : s ≠ e.server) {voters : Finset Addr}
    (hb : Ballots σ s voters) : Ballots (σ.next e rest) s voters := by
  have hraft : (σ.next e rest).raft s = σ.raft s := System.raft_next_ne hs
  obtain ⟨h1, h2, h3, h4⟩ := hb
  refine ⟨?_, fun v hv => ?_, ?_, fun v hv p hp resp hsrc hg ht => ?_⟩
  · rw [hraft]; exact h1
  · rw [hraft]
    obtain ⟨p, resp, hp, h5⟩ := h2 v hv
    exact ⟨p, resp, Sent.cons.mpr (.inr hp), h5⟩
  · rw [hraft]; exact h3
  · rw [hraft] at ht ⊢
    rcases List.mem_append.mp hp with hp | hp
    · exact h4 v hv p (h.offers.mem_of_left p hp) resp hsrc hg ht
    · -- a new grant of a voter that was counted has a newer lsn
      obtain ⟨p', resp', hp', hsrc', hg', ht', hl'⟩ := h2 v hv
      have := h.grant_lt hr hp hg hp' hg' (hsrc'.trans hsrc.symm) (ht'.trans ht.symm)
      omega

/-- A step of the candidate that counts no vote. -/
theorem Ballots.keep (hr : Reachable c σ) (h : Step c σ e rest) {voters : Finset Addr}
    (hb : Ballots σ e.server voters) (hx : e.before.state = .candidate) (hterm : e.after.term = e.before.term)
    (hvotes : e.after.winnedVotes = e.before.winnedVotes)
    (hkeep : ∀ z, (e.before.retryTimers.get z).minDateTime = true →
      (e.after.retryTimers.get z).minDateTime = true ∧
      e.after.currentRpcLsn.get z = e.before.currentRpcLsn.get z) :
    Ballots (σ.next e rest) e.server voters := by
  have hraft : (σ.next e rest).raft e.server = e.after.taken := System.raft_next_self
  have hnot := hb.not_self hr (by rw [← h.before]; exact hx)
  obtain ⟨h1, h2, h3, h4⟩ := hb
  rw [← h.before] at h1 h2 h3 h4
  refine ⟨?_, fun v hv => ?_, fun v hv => ?_, fun v hv p hp resp hsrc hg ht => ?_⟩
  · rw [hraft, RaftServer.taken_winnedVotes, hvotes, h1]
  · obtain ⟨p, resp, hp, hsrc, hg, ht, hl⟩ := h2 v hv
    refine ⟨p, resp, Sent.cons.mpr (.inr hp), hsrc, hg, ?_, ?_⟩
    · rw [hraft, RaftServer.taken_term, hterm, ht]
    · rw [hraft, RaftServer.taken_currentRpcLsn, (hkeep v (h3 v hv)).2, hl]
  · rw [hraft]
    exact (hkeep v (h3 v hv)).1
  · rw [hraft, RaftServer.taken_currentRpcLsn, (hkeep v (h3 v hv)).2]
    rw [hraft, RaftServer.taken_term, hterm] at ht
    rcases List.mem_append.mp hp with hp | hp
    · exact h4 v hv p (h.offers.mem_of_left p hp) resp hsrc hg ht
    · rw [← hsrc, (Event.mem_packets.mp hp).2.1] at hv
      exact absurd hv hnot

/-- A vote counted. -/
theorem Ballots.count (hr : Reachable c σ) (h : Step c σ e rest) {voters : Finset Addr}
    (hb : Ballots σ e.server voters) (hi : e.input = .message p) (hp : p.rpc = .respVote resp)
    (hx : e.before.state = .candidate) (hresp : resp.term = e.before.term)
    (hlsn : e.before.currentRpcLsn.get resp.server = resp.lsn + 1) (hok : resp.ok = true)
    (hterm : e.after.term = e.before.term) (hvotes : e.after.winnedVotes = e.before.winnedVotes + 1)
    (hretry : e.after.retryTimers = e.before.retryTimers.set resp.server ⟨true, []⟩)
    (hcur : e.after.currentRpcLsn = e.before.currentRpcLsn) :
    Ballots (σ.next e rest) e.server (insert p.src voters) := by
  have hraft : (σ.next e rest).raft e.server = e.after.taken := System.raft_next_self
  have hnot := hb.not_self hr (by rw [← h.before]; exact hx)
  obtain ⟨hsent, hdst, hin⟩ := h.delivered hr hi
  have hg : Grant p e.server resp := ⟨hp, hok, hdst⟩
  obtain ⟨hsrc, hfresh⟩ := hb.fresh hr h hi hg hresp hlsn
  have hne : p.src ≠ e.server := fun he => by
    refine hr.candidate_not_voter hsent hg ?_ ?_
    · rw [he, ← h.before, hx]; nofun
    · rw [he, ← h.before, hresp]
  obtain ⟨h1, h2, h3, h4⟩ := hb
  rw [← h.before] at h1 h2 h3 h4
  refine ⟨?_, fun v hv => ?_, fun v hv => ?_, fun v hv p' hp' resp' hsrc' hg' ht' => ?_⟩
  · rw [hraft, RaftServer.taken_winnedVotes, hvotes, h1, Finset.card_insert_of_notMem hfresh]
    push_cast
    rfl
  · rw [hraft, RaftServer.taken_term, RaftServer.taken_currentRpcLsn, hterm, hcur]
    rcases Finset.mem_insert.mp hv with rfl | hv
    · exact ⟨p, resp, Sent.cons.mpr (.inr hsent), rfl, hg, hresp, by rw [hsrc, hlsn]⟩
    · obtain ⟨p', resp', hp', h5⟩ := h2 v hv
      exact ⟨p', resp', Sent.cons.mpr (.inr hp'), h5⟩
  · rw [hraft, RaftServer.taken_retryTimers, hretry, StdMap.get_set]
    split
    · rfl
    · rename_i hvr
      exact h3 v ((Finset.mem_insert.mp hv).resolve_left fun he => hvr (he.trans hsrc))
  · rw [hraft, RaftServer.taken_currentRpcLsn, hcur]
    rw [hraft, RaftServer.taken_term, hterm] at ht'
    rcases List.mem_append.mp hp' with hp' | hp'
    · rcases Finset.mem_insert.mp hv with rfl | hv
      · -- the counted vote was in flight once
        intro hl
        refine h.delivered_once hr hi p' hp' ⟨hsrc'.symm, e.server, resp, resp', hg, hg', ?_, ?_⟩
        · rw [hresp, ht']
        · rw [hsrc, hlsn] at hl
          omega
      · exact h4 v hv p' (h.offers.mem_of_left p' hp') resp' hsrc' hg' ht'
    · rw [(Event.mem_packets.mp hp').2.1] at hsrc'
      rcases Finset.mem_insert.mp hv with rfl | hv
      · exact absurd hsrc'.symm hne
      · exact absurd (hsrc' ▸ hv) hnot

/-- **A candidate's votes are of different servers.** -/
theorem Reachable.ballots (hr : Reachable c σ) :
    ∀ s, (σ.raft s).state = .candidate → ∃ voters, Ballots σ s voters := by
  refine hr.invariant (I := fun σ => ∀ s, (σ.raft s).state = .candidate → ∃ voters, Ballots σ s voters)
    (fun s hs => by cases hs) ?_
  intro σ e rest hr h ih s hs
  by_cases hse : s = e.server
  · subst hse
    rw [System.raft_next_self] at hs
    have hold : e.before.state = .candidate → ∃ voters, Ballots σ e.server voters := fun hx =>
      ih e.server (by rw [← h.before]; exact hx)
    cases (h.outcome hr).ballot hs with
    | campaigned hterm hvotes =>
      refine ⟨∅, ?_, by simp, by simp, by simp⟩
      rw [System.raft_next_self]
      simpa using hvotes
    | same hx hterm hvotes hkeep =>
      obtain ⟨voters, hb⟩ := hold hx
      exact ⟨voters, hb.keep hr h hx hterm hvotes hkeep⟩
    | counted hi hp hx hresp hlsn hok hterm hvotes hretry hcur =>
      obtain ⟨voters, hb⟩ := hold hx
      exact ⟨_, hb.count hr h hi hp hx hresp hlsn hok hterm hvotes hretry hcur⟩
  · rw [System.raft_next_ne hse] at hs
    obtain ⟨voters, hb⟩ := ih s hs
    exact ⟨voters, hb.other hr h hse⟩

/-- The servers whose votes a candidate has counted when it counts one more. -/
theorem Step.voters (hr : Reachable c σ) (h : Step c σ e rest) (hi : e.input = .message p)
    (hp : p.rpc = .respVote resp) (hx : e.before.state = .candidate) (hterm : resp.term = e.before.term)
    (hlsn : e.before.currentRpcLsn.get resp.server = resp.lsn + 1) (hok : resp.ok = true) :
    ∃ voters : Finset Addr, e.server ∉ voters ∧
      (∀ v ∈ voters, v ∈ c.configuration ∧ Granted σ.trace v e.server e.before.term) ∧
      e.before.winnedVotes + 1 = voters.card + 1 := by
  have hst : (σ.raft e.server).state = .candidate := by rw [← h.before]; exact hx
  obtain ⟨voters, hb⟩ := hr.ballots e.server hst
  obtain ⟨hsent, hdst, hin⟩ := h.delivered hr hi
  have hg : Grant p e.server resp := ⟨hp, hok, hdst⟩
  obtain ⟨hsrc, hfresh⟩ := hb.fresh hr h hi hg hterm hlsn
  refine ⟨insert p.src voters, ?_, fun v hv => ?_, ?_⟩
  · rw [Finset.mem_insert, not_or]
    refine ⟨fun he => hr.candidate_not_voter hsent hg ?_ ?_, hb.not_self hr hst⟩
    · rw [← he, hst]; nofun
    · rw [← he, ← h.before, hterm]
  · rcases Finset.mem_insert.mp hv with rfl | hv
    · exact ⟨hr.src_mem hsent, p, resp, hsent, rfl, hg, hterm⟩
    · obtain ⟨p', resp', hp', rfl, hg', ht', -⟩ := hb.voted v hv
      exact ⟨hr.src_mem hp', p', resp', hp', rfl, hg', by rw [ht', h.before]⟩
  · have h1 := hb.votes
    rw [← h.before] at h1
    rw [h1, Finset.card_insert_of_notMem hfresh]
    push_cast
    rfl

/-- The vote that makes a primary completes a majority. -/
theorem Step.elected (hr : Reachable c σ) (h : Step c σ e rest) (hi : e.input = .message p)
    (hp : p.rpc = .respVote resp) (hx : e.before.state = .candidate) (hterm : resp.term = e.before.term)
    (hlsn : e.before.currentRpcLsn.get resp.server = resp.lsn + 1) (hok : resp.ok = true)
    (hmajority : e.before.majority ≤ e.before.winnedVotes + 1) : Elected c σ.trace e.server e.before.term := by
  obtain ⟨voters, hnot, hall, hcard⟩ := h.voters hr hi hp hx hterm hlsn hok
  refine ⟨insert e.server voters, ⟨fun v hv => ?_, ?_⟩, fun v hv hne => ?_⟩
  · rw [List.mem_toFinset]
    rcases Finset.mem_insert.mp hv with rfl | hv
    · exact h.member
    · exact (hall v hv).1
  · have hm := (h.known_before hr).majority
    rw [Finset.card_insert_of_notMem hnot]
    omega
  · exact (hall v ((Finset.mem_insert.mp hv).resolve_left hne)).2

/-- **Behind a candidate that becomes primary stands a majority**: each vote it
counted beyond its own was granted by another server, in that term. -/
theorem primary_has_quorum (hr : Reachable c σ) {past : List Event} (hs : e :: past <:+ σ.trace)
    (hx : e.before.state = .candidate) (hy : e.after.state = .primary) :
    ∃ voters : Finset Addr, e.server ∉ voters ∧
      (∀ v ∈ voters, v ∈ c.configuration ∧ Granted past v e.server e.after.term) ∧
      e.after.winnedVotes = voters.card + 1 ∧ e.after.majority ≤ voters.card + 1 := by
  obtain ⟨σ₀, rest, hr₀, rfl, h⟩ := hr.at hs
  obtain ⟨p, resp, hi, hw⟩ := (h.outcome hr₀).wins hx hy
  obtain ⟨voters, hnot, hall, hcard⟩ := h.voters hr₀ hi hw.rpc hx hw.term hw.lsn hw.ok
  have hvotes := hw.votes
  have hmajority := hw.majority
  have hstatic := (h.outcome hr₀).static.2.2
  rw [hw.term_eq]
  exact ⟨voters, hnot, hall, by omega, by omega⟩

/-- **A primary has the votes of a majority.** -/
theorem Reachable.elected (hr : Reachable c σ) : ∀ s, (σ.raft s).state = .primary →
    Elected c σ.trace s (σ.raft s).term := by
  refine hr.invariant (I := fun σ => ∀ s, (σ.raft s).state = .primary → Elected c σ.trace s (σ.raft s).term)
    (fun s hs => by cases hs) ?_
  intro σ e rest hr h ih s hs
  have hold : e.before.state = .primary → Elected c (e :: σ.trace) e.server e.before.term := fun hx => by
    have := ih e.server (by rw [← h.before]; exact hx)
    rw [← h.before] at this
    exact this.mono (List.suffix_cons _ _)
  by_cases hse : s = e.server
  · subst hse
    rw [System.raft_next_self] at hs ⊢
    rw [System.trace_next, RaftServer.taken_term]
    cases (h.outcome hr).leads hs with
    | same hx hterm | appended _ hx hterm | acked _ _ hx _ _ _ hterm | nacked _ _ hx _ _ _ hterm =>
      rw [hterm]
      exact hold hx
    | won hi hp hx hresp hlsn hok hmajority hterm =>
      rw [hterm]
      exact (h.elected hr hi hp hx hresp hlsn hok hmajority).mono (List.suffix_cons _ _)
  · rw [System.raft_next_ne hse] at hs ⊢
    exact (ih s hs).mono (List.suffix_cons _ _)

theorem Reachable.elected_of_mem (hr : Reachable c σ) (he : e ∈ σ.trace) (hp : e.after.state = .primary) :
    Elected c σ.trace e.server e.after.term := by
  obtain ⟨σ₀, rest, hr₀, hs, hst⟩ := hr.step_of_mem he
  have := (hst.reachable hr₀).elected e.server (by rw [System.raft_next_self]; exact hp)
  rw [System.raft_next_self] at this
  exact this.mono hs

end Runs

/-! ## One vote in a term -/

/-- The candidate a packet grants a vote for a term. -/
def Packet.vote? (term : Int) (p : Packet) : Option Addr :=
  match p.rpc with
  | .respVote resp => if resp.ok = true ∧ resp.term = term then some p.dst else none
  | _ => none

/-- The candidates a server has granted its vote for a term. -/
def votesOf (trace : List Event) (v : Addr) (term : Int) : List Addr :=
  trace.flatMap fun e => if e.server = v then e.packets.filterMap (Packet.vote? term) else []

/-- A grant of this event for the term its server was in goes to no other
candidate than the grants before it: an RV of the server's own term that passes
the checks of `react2rv` does not find `already_voted_` cleared. -/
def VoteOnce (past : List Event) (e : Event) : Prop :=
  ∀ rv ∈ e.input.requestVote?, rv.term = e.before.term → e.before.followerRpcLsn.get rv.server < rv.lsn →
    e.before.state = .follower → e.before.alreadyVoted = false →
    e.before.shouldVote rv.term rv.latestIndex = .ok true → ∀ v ∈ votesOf past e.server rv.term, v = rv.server

instance (past : List Event) (e : Event) : Decidable (VoteOnce past e) :=
  inferInstanceAs (Decidable (∀ rv ∈ e.input.requestVote?, rv.term = e.before.term →
    e.before.followerRpcLsn.get rv.server < rv.lsn → e.before.state = .follower → e.before.alreadyVoted = false →
    e.before.shouldVote rv.term rv.latestIndex = .ok true → ∀ v ∈ votesOf past e.server rv.term, v = rv.server))

theorem Packet.vote?_eq_some {term : Int} {p : Packet} {s : Addr} :
    p.vote? term = some s ↔ ∃ resp, Grant p s resp ∧ resp.term = term := by
  unfold Packet.vote?
  split
  · rename_i resp hresp
    simp only [Option.ite_none_right_eq_some, Option.some.injEq]
    constructor
    · rintro ⟨⟨hok, hterm⟩, hdst⟩
      exact ⟨resp, ⟨hresp, hok, hdst⟩, hterm⟩
    · rintro ⟨resp', ⟨hrpc, hok, hdst⟩, hterm⟩
      obtain rfl : resp = resp' := by simpa [hresp] using hrpc
      exact ⟨⟨hok, hterm⟩, hdst⟩
  · rename_i hne
    simp only [reduceCtorEq, false_iff, not_exists, not_and]
    exact fun resp hg => absurd hg.rpc (hne resp)

theorem mem_votesOf {trace : List Event} {v s : Addr} {term : Int} :
    s ∈ votesOf trace v term ↔
      ∃ e ∈ trace, e.server = v ∧ ∃ p ∈ e.packets, ∃ resp, Grant p s resp ∧ resp.term = term := by
  unfold votesOf
  rw [List.mem_flatMap]
  constructor
  · rintro ⟨e, he, hs⟩
    split at hs
    · rename_i hev
      obtain ⟨p, hp, hv⟩ := List.mem_filterMap.mp hs
      exact ⟨e, he, hev, p, hp, Packet.vote?_eq_some.mp hv⟩
    · cases hs
  · rintro ⟨e, he, hev, p, hp, hg⟩
    refine ⟨e, he, ?_⟩
    rw [if_pos hev]
    exact List.mem_filterMap.mpr ⟨p, hp, Packet.vote?_eq_some.mpr hg⟩

section Runs

variable {SM : Type} [StateMachine SM] {c : Cluster} {σ : System SM} {e : Event} {rest : List Packet} {p : Packet}
  {s : Addr} {resp : RespRequestVoteRpc}

omit [StateMachine SM] in
theorem Granted.mem_votesOf {v : Addr} {term : Int} (h : Granted σ.trace v s term) :
    s ∈ votesOf σ.trace v term := by
  obtain ⟨p, resp, ⟨e, he, hp⟩, hsrc, hg⟩ := h
  exact MyRaft.mem_votesOf.mpr ⟨e, he, (Event.mem_packets.mp hp).2.1.symm.trans hsrc, p, hp, resp, hg⟩

/-- A new grant goes where the old grants of its term went. -/
theorem Step.vote_once (hr : Reachable c σ) (h : Step c σ e rest) (hv : VoteOnce σ.trace e) (hp : p ∈ e.packets)
    (hg : Grant p s resp) {b : Addr} (hb : b ∈ votesOf σ.trace e.server resp.term) : b = s := by
  obtain ⟨q, rv, hvr, hi⟩ := h.vote_reply hr hp hg.rpc
  have hgr := hvr.grants hg.ok
  have hrv := hr.rv_sent hvr.sent hvr.rpc
  have hterm : rv.term = resp.term := by rw [← hgr.term, hvr.term]
  have hs : rv.server = s := by rw [hrv.server, hvr.src, hg.dst]
  -- the server was in that term already, for it had voted in it
  have hsame : rv.term = e.before.term := by
    obtain ⟨d, hd, hds, p', hp', resp', hg', ht'⟩ := mem_votesOf.mp hb
    have hle := (hr.voter_follows ⟨d, hd, hp'⟩ hg').1
    rw [(Event.mem_packets.mp hp').2.1, hds, ← h.before] at hle
    have := hgr.term_le
    omega
  have h1 := hgr.lsn
  have h2 := hgr.was_follower
  have h3 := hgr.not_voted
  rw [RaftServer.heard_same hsame] at h1 h2 h3
  have hcall : rv ∈ e.input.requestVote? := by
    rw [hi]
    simp [Input.requestVote?, Input.call, hvr.rpc]
  rw [← hs]
  exact hv rv hcall hsame h1 h2 h3 hgr.shouldVote b (hterm ▸ hb)

theorem votes_unique (hr : Reachable c σ) (ha : Along VoteOnce σ.trace) :
    ∀ v term, ∀ a ∈ votesOf σ.trace v term, ∀ b ∈ votesOf σ.trace v term, a = b := by
  refine hr.invariantAlong (I := fun σ => ∀ v term, ∀ a ∈ votesOf σ.trace v term,
    ∀ b ∈ votesOf σ.trace v term, a = b)
    ha (fun v term a ha => by cases ha) ?_
  intro σ e rest hr _ h hv ih v term a ha b hb
  obtain ⟨d, hd, hds, p, hp, resp, hg, rfl⟩ := mem_votesOf.mp ha
  obtain ⟨d', hd', hds', p', hp', resp', hg', ht'⟩ := mem_votesOf.mp hb
  rcases List.mem_cons.mp hd with rfl | hm <;> rcases List.mem_cons.mp hd' with rfl | hm'
  · rw [hr.wired.packets_of_grant h hp hg, List.mem_singleton] at hp'
    subst hp'
    exact hg.dst.symm.trans hg'.dst
  · refine (h.vote_once hr hv hp hg ?_).symm
    rw [hds]
    exact mem_votesOf.mpr ⟨d', hm', hds', p', hp', resp', hg', ht'⟩
  · refine h.vote_once hr hv hp' hg' ?_
    rw [hds', ht']
    exact mem_votesOf.mpr ⟨d, hm, hds, p, hp, resp, hg, rfl⟩
  · exact ih v resp.term a (mem_votesOf.mpr ⟨d, hm, hds, p, hp, resp, hg, rfl⟩) b
      (mem_votesOf.mpr ⟨d', hm', hds', p', hp', resp', hg', ht'⟩)

/-- A primary has not granted a vote in its term. -/
theorem Reachable.primary_not_voter (hr : Reachable c σ) (he : e ∈ σ.trace) (hp : e.after.state = .primary) :
    ¬ Granted σ.trace e.server s e.after.term := by
  rintro ⟨p, resp, hsent, hsrc, hg, hterm⟩
  obtain ⟨d, hd, hpd⟩ := hsent
  have hv := hr.voter ⟨d, hd, hpd⟩ hg
  obtain ⟨-, hds, -, hsender⟩ := Event.mem_packets.mp hpd
  have h1 := hv.state
  have h2 := hv.term
  rw [hsender] at h1 h2
  rcases hr.since_total he hd (hsrc.symm.trans hds) with hs | hs
  · rw [hs.primary (by omega) hp] at h1
    cases h1
  · rw [hs.follower (by omega) h1] at hp
    cases hp

/-- When each grant that falls in a term its server was already in repeats an
earlier one, a term has one primary: two majorities share a voter. -/
theorem Reachable.one_primary (hr : Reachable c σ) (ha : Along VoteOnce σ.trace) {e' : Event} (he : e ∈ σ.trace)
    (he' : e' ∈ σ.trace) (hp : e.after.state = .primary) (hp' : e'.after.state = .primary)
    (hterm : e.after.term = e'.after.term) : e.server = e'.server := by
  obtain ⟨Q, hQ, hv⟩ := hr.elected_of_mem he hp
  obtain ⟨Q', hQ', hv'⟩ := hr.elected_of_mem he' hp'
  obtain ⟨v, hvQ, hvQ'⟩ := hQ.meet hQ'
  by_cases h1 : v = e.server
  · by_cases h2 : v = e'.server
    · exact h1.symm.trans h2
    · have hg := hv' v hvQ' h2
      rw [h1, ← hterm] at hg
      exact absurd hg (hr.primary_not_voter he hp)
  · by_cases h2 : v = e'.server
    · have hg := hv v hvQ h1
      rw [h2, hterm] at hg
      exact absurd hg (hr.primary_not_voter he' hp')
    · have hg := (hv v hvQ h1).mem_votesOf
      have hg' := (hv' v hvQ' h2).mem_votesOf
      rw [← hterm] at hg'
      exact votes_unique hr ha v _ _ hg _ hg'

/-- **Election safety**, in the runs where no server votes for two candidates in a term. -/
theorem election_safety (hr : Reachable c σ) (ha : Along VoteOnce σ.trace) : OnePrimary σ.trace :=
  fun _ he _ he' hp hp' hterm => hr.one_primary ha he he' hp hp' hterm

end Runs

/-- A and B campaign in term 1; C votes for A, and for B once the first AE of A
has cleared its vote. -/
def secondVote : List Action :=
  campaign serverA ++ campaign serverB ++ [.deliver 1, .deliver 3, .deliver 4, .deliver 2, .deliver 4]

theorem two_primaries : ¬ ∀ σ : System Unit, Reachable threeServers σ → OnePrimary σ.trace := by
  intro hall
  obtain ⟨σ, hr, hn⟩ := System.exists_reachable threeServers secondVote
    (P := fun σ : System Unit => ¬ OnePrimary σ.trace) (by decide +kernel)
  exact hn (hall σ hr)

theorem electA_safe : ∃ σ : System Unit, (σ.raft serverA).state = .primary ∧ OnePrimary σ.trace := by
  obtain ⟨σ, hr, hp, ha⟩ := System.exists_reachable threeServers electA
    (P := fun σ : System Unit => (σ.raft serverA).state = .primary ∧ Along VoteOnce σ.trace) (by decide +kernel)
  exact ⟨σ, hp, election_safety hr ha⟩

theorem electA_quorum : ∃ (σ : System Unit) (e : Event) (past : List Event), e :: past <:+ σ.trace ∧
    e.server = serverA ∧ ∃ voters : Finset Addr, e.server ∉ voters ∧
      (∀ v ∈ voters, v ∈ threeServers.configuration ∧ Granted past v e.server e.after.term) ∧
      e.after.winnedVotes = voters.card + 1 ∧ e.after.majority ≤ voters.card + 1 := by
  obtain ⟨σ, hr, e, he, hA, hx, hy⟩ := System.exists_reachable threeServers electA
    (P := fun σ : System Unit => ∃ e ∈ σ.trace, e.server = serverA ∧ e.before.state = .candidate ∧
      e.after.state = .primary) (by decide +kernel)
  obtain ⟨past, hs⟩ := exists_past he
  exact ⟨σ, e, past, hs, hA, primary_has_quorum hr hs hx hy⟩

end MyRaft
