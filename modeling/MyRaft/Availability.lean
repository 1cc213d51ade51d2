/-
Elections that can be won. Whatever has happened to a cluster, a server whose
candidate timer is pending has a run ahead in which it becomes primary, and all
that run needs is a majority: it campaigns until its term is past those of the
others, and then whoever hears of the term votes for it. The logs do not
matter, so a server that has lost entries is elected like any other.
-/
import MyRaft.Alarms
import MyRaft.Exceptions
import MyRaft.LogMatching
import Mathlib.Data.Finset.Order

namespace MyRaft

open StdLib (StdMap)
open RaftServer (CalledAll BuiltAe)

/-! ## Runs of some of the servers -/

section Reaches

variable {SM : Type} [StateMachine SM]

/-- A run from `σ` in which only the servers of `up` take steps. -/
inductive Reaches (c : Cluster) (up : List Addr) (σ : System SM) : System SM → Prop
  | refl : Reaches c up σ σ
  | step {σ' : System SM} {e rest} : Reaches c up σ σ' → e.server ∈ up → Step c σ' e rest →
      Reaches c up σ (σ'.next e rest)

variable {c : Cluster} {up up' : List Addr} {σ σ₁ σ₂ : System SM}

theorem Reaches.reachable (h : Reaches c up σ σ₁) (hr : Reachable c σ) : Reachable c σ₁ := by
  induction h with
  | refl => exact hr
  | step _ _ hst ih => exact hst.reachable ih

theorem Reaches.trans (h₁ : Reaches c up σ σ₁) (h₂ : Reaches c up σ₁ σ₂) : Reaches c up σ σ₂ := by
  induction h₂ with
  | refl => exact h₁
  | step _ hup hst ih => exact ih.step hup hst

theorem Reaches.mono (h : Reaches c up σ σ₁) (hsub : ∀ a ∈ up, a ∈ up') : Reaches c up' σ σ₁ := by
  induction h with
  | refl => exact .refl
  | step _ hup hst ih => exact ih.step (hsub _ hup) hst

omit [StateMachine SM] in
theorem System.raft_eq {σ σ' : System SM} {s : Addr} (h : σ'.nodes s = σ.nodes s) : σ'.raft s = σ.raft s :=
  congrArg Node.raft h

theorem System.ready_message {e : Event} {rest : List Packet} {p : Packet} (hi : e.input = .message p) :
    ((σ.next e rest).nodes e.server).ready = (σ.nodes e.server).ready := by
  simp [System.nodes_next, Node.next, Node.take, hi]

theorem Reaches.trace_suffix (h : Reaches c up σ σ₁) : σ.trace <:+ σ₁.trace := by
  induction h with
  | refl => exact List.suffix_refl _
  | step _ _ _ ih => exact ih.trans (List.suffix_cons _ _)

theorem Reaches.term_le (h : Reaches c up σ σ₁) (hr : Reachable c σ) (s : Addr) :
    (σ.raft s).term ≤ (σ₁.raft s).term := by
  induction h with
  | refl => exact Int.le_refl _
  | @step σ' e rest h _ hst ih =>
    refine ih.trans ?_
    rw [System.raft_next]
    split
    · rename_i hs
      have hle := (hst.outcome (h.reachable hr)).term_le
      rw [hst.before] at hle
      exact hs ▸ hle
    · exact Int.le_refl _

theorem Step.reaches {e : Event} {rest : List Packet} (hst : Step c σ e rest) :
    Reaches c [e.server] σ (σ.next e rest) :=
  Reaches.refl.step (by simp) hst

omit [StateMachine SM] in
theorem System.Offers.step {s : Addr} {input : Input} {rest : List Packet} {r : RaftServer}
    (ho : σ.Offers s input rest) (hs : s ∈ c.configuration) (hh : (σ.raft s).handle input = .ok r) :
    ∃ e, Step c σ e rest ∧ e.server = s ∧ e.input = input ∧ e.after = r :=
  ⟨σ.event s input r, ⟨hs, ho, rfl, hh⟩, rfl, rfl, rfl⟩

omit [StateMachine SM] in
/-- A packet in flight whose handler returns; the others stay in flight. -/
theorem exists_delivery {p : Packet} {r : RaftServer} (hp : p ∈ σ.inflight) (hdst : p.dst ∈ c.configuration)
    (hh : (σ.raft p.dst).reactToIncomingMsg p.rpc p.src = .ok r) :
    ∃ e rest, Step c σ e rest ∧ e.server = p.dst ∧ e.input = .message p ∧ e.after = r ∧
      ∀ q ∈ σ.inflight, q ≠ p → q ∈ rest := by
  obtain ⟨pre, post, hin⟩ := List.append_of_mem hp
  obtain ⟨e, hst, hserver, hi, hafter⟩ := (System.Offers.message hin rfl).step hdst hh
  refine ⟨e, _, hst, hserver, hi, hafter, fun q hq hne => ?_⟩
  rw [hin] at hq
  simp only [List.mem_append, List.mem_cons] at hq ⊢
  tauto

end Reaches

/-! ## Becoming primary -/

namespace RaftServer

variable {x : RaftServer} {a : Addr}

theorem AE_total (h : x.Sendable a) (htimer : x.retryTimers.find? a ≠ none)
    (hwaits : (x.retryTimers.get a).waits = []) : ∃ y, x.AE a = .ok y := by
  cases hy : x.AE a with
  | ok y => exact ⟨y, rfl⟩
  | error exn => exact absurd hy (AE_in h (fun _ => htimer) fun _ => hwaits)

theorem foldlM_AE_total : ∀ {xs : List Addr}, xs.Nodup → ∀ {x : RaftServer},
    (∀ a ∈ xs, x.Sendable a ∧ x.retryTimers.find? a ≠ none ∧ (x.retryTimers.get a).waits = []) →
    ∃ y, xs.foldlM (fun s a => if a.port ≠ s.server.port then s.AE a else pure s) x = .ok y
  | [], _, x, _ => ⟨x, rfl⟩
  | a :: xs, hn, x, h => by
    obtain ⟨hnot, hn⟩ := List.nodup_cons.mp hn
    rw [List.foldlM_cons]
    split
    · obtain ⟨hsend, htimer, hwaits⟩ := h a (by simp)
      obtain ⟨y, hy⟩ := AE_total hsend htimer hwaits
      obtain ⟨_, _, -, -, -, rfl⟩ := AE_ok hy
      rw [hy]
      refine foldlM_AE_total hn fun b hb => ?_
      have hne : b ≠ a := fun he => hnot (he ▸ hb)
      obtain ⟨hsend, htimer, hwaits⟩ := h b (by simp [hb])
      refine ⟨hsend, ?_, ?_⟩
      · rw [called_retryTimers]
        exact bound_set _ htimer
      · rw [called_retryTimers, StdMap.get_set_ne _ _ hne]
        exact hwaits
    · exact foldlM_AE_total hn fun b hb => h b (by simp [hb])

/-- Every timer is cancelled before the first AE: `trans2P` throws nothing. -/
theorem trans2P_total (hn : x.configuration.Nodup)
    (htimers : ∀ a ∈ x.configuration, x.retryTimers.find? a ≠ none) :
    ∃ y, x.trans2P = .ok y := by
  refine foldlM_AE_total (x := x.becomePrimary) hn fun a ha =>
    ⟨?_, bound_expiresAtMin (htimers a ha), (get_expiresAtMin x.retryTimers a).1⟩
  have hsize := Entries.size_eq x.entries
  unfold Sendable
  rw [becomePrimary_nextIndex, becomePrimary_entries, StdMap.get_setAll, if_pos ha]
  omega

/-- A candidate counts a vote. -/
theorem react2respRv_counted {resp : RespRequestVoteRpc} (hterm : resp.term = x.term)
    (hstate : x.state = .candidate) (hlsn : x.currentRpcLsn.get resp.server = resp.lsn + 1) (hok : resp.ok = true)
    (htimer : x.retryTimers.find? resp.server ≠ none) :
    x.react2respRv resp =
      if x.majority ≤ x.winnedVotes + 1 then { x with winnedVotes := x.winnedVotes + 1 }.trans2P
      else .ok ({ x with winnedVotes := x.winnedVotes + 1 }.retryTimer resp.server ⟨true, []⟩) := by
  have htimer' : { x with winnedVotes := x.winnedVotes + 1 }.timerTo resp.server = .ok
      (x.retryTimers.get resp.server) :=
    timerTo_eq_ok htimer
  unfold react2respRv candidateDealRespRvWithSameTerm
  rw [if_neg (by omega), if_neg (by omega), if_pos hstate, if_neg (by simp [hlsn]), if_pos hok]
  dsimp only
  rw [htimer']
  rfl

/-- An election handler that finds its timer set to a time. -/
theorem onExpire_campaigns {h : TimerHandler} (hc : h.Campaigns) (hmin : x.candidateTimer.minDateTime = false)
    (hn : x.configuration.Nodup) (htimers : ∀ a ∈ x.configuration, x.retryTimers.find? a ≠ none) :
    ∃ y, x.onExpire h = .ok y ∧
      CalledAll x.becomeCandidate x.others (fun a => .requestVote (x.becomeCandidate.rvTo a)) .RV y := by
  have hh : x.onExpire h = x.trans2C := by rcases hc with rfl | rfl | rfl <;> simp [onExpire, hmin]
  obtain ⟨y, hy⟩ := exists_trans2C htimers
  exact ⟨y, hh.trans hy, trans2C_ok hn hy⟩

end RaftServer

/-! ## Campaigning -/

/-- The next election of `s` is pending, and its reactor has nothing else to run. -/
structure Pending {SM : Type} (σ : System SM) (s : Addr) : Prop where
  ready : (σ.nodes s).ready = []
  waits : (σ.raft s).candidateTimer.waits ≠ []

/-- `s` has asked the servers of `voters` for their votes in term `T`, which is
ahead of theirs; it has `n` votes, and has asked none of them twice. -/
structure Canvasses {SM : Type} (σ : System SM) (s : Addr) (T n : Int) (voters : List Addr) : Prop where
  state : (σ.raft s).state = .candidate
  term : (σ.raft s).term = T
  votes : (σ.raft s).winnedVotes = n
  lsn : ∀ v ∈ voters, (σ.raft s).currentRpcLsn.get v = 1
  asked : ∀ v ∈ voters, ∃ p ∈ σ.inflight, p.dst = v ∧
    ∃ rv, p.rpc = .requestVote rv ∧ rv.term = T ∧ rv.server = s ∧ rv.lsn = 0
  behind : ∀ v ∈ voters, (σ.raft v).term < T
  ready : (σ.nodes s).ready = []

/-- The step in which `s` becomes primary in term `T`; its ready queue is empty after it. -/
structure TakesOver {SM : Type} [StateMachine SM] (c : Cluster) (σ : System SM) (e : Event)
    (rest : List Packet) (s : Addr) (T : Int) :
    Prop where
  step : Step c σ e rest
  server : e.server = s
  term : (σ.raft s).term = T
  won : ∃ votes, { σ.raft s with winnedVotes := votes }.trans2P = .ok e.after
  ready : ((σ.next e rest).nodes s).ready = []

/-- `s` is primary in term `T`, and has an AE on the way to each server it calls. -/
structure Leading {SM : Type} (c : Cluster) (σ : System SM) (s : Addr) (T : Int) : Prop where
  state : (σ.raft s).state = .primary
  term : (σ.raft s).term = T
  told : ∀ a ∈ c.configuration, a.port ≠ s.port → ∃ p ∈ σ.inflight, p.dst = a ∧
    ∃ ae, p.rpc = .appendEntry ae ∧ ae.term = T

/-- The entries are the same, and so are the indexes of what is committed and applied. -/
structure SameLog (x y : RaftServer) : Prop where
  entries : y.entries = x.entries
  commit : y.commitIndex = x.commitIndex
  smc : y.smc = x.smc

theorem SameLog.refl (x : RaftServer) : SameLog x x := ⟨rfl, rfl, rfl⟩

theorem SameLog.trans {x y z : RaftServer} (h₁ : SameLog x y) (h₂ : SameLog y z) : SameLog x z :=
  ⟨h₂.entries.trans h₁.entries, h₂.commit.trans h₁.commit, h₂.smc.trans h₁.smc⟩

/-- From `σ` to `σ'`, `a` has done nothing, or nothing but follow in term `T`. -/
structure OnlyFollows {SM : Type} (σ σ' : System SM) (T : Int) (a : Addr) : Prop where
  log : SameLog (σ.raft a) (σ'.raft a)
  vote : σ'.raft a = σ.raft a ∨ (σ'.raft a).term = T ∧ (σ'.raft a).state = .follower

section Runs

variable {SM : Type} [StateMachine SM] {c : Cluster} {σ : System SM} {s v : Addr} {T n : Int} {voters : List Addr}

/-- The reactor finds the deadline of the candidate timer passed. -/
theorem Pending.poll (h : Pending σ s) (hr : Reachable c σ) (hs : s ∈ c.configuration) :
    ∃ (σ' : System SM) (k : TimerHandler), Reaches c [s] σ σ' ∧ (∀ a, a ≠ s → σ'.nodes a = σ.nodes a) ∧
      σ'.raft s = { σ.raft s with candidateTimer := ⟨false, []⟩ } ∧ (σ'.nodes s).ready = [k] ∧ k.Campaigns := by
  obtain ⟨k, -, htimer⟩ := ((hr.batch s).timers .candidate).resolve_left h.waits
  have hcand : (σ.raft s).candidateTimer = ⟨false, [k]⟩ := htimer
  have hpoll : (σ.raft s).poll [.candidate] = ([k], { σ.raft s with candidateTimer := ⟨false, []⟩ }) := by
    simp [RaftServer.poll, RaftServer.expire, hcand]
  obtain ⟨e, hst, rfl, hi, hafter⟩ := (System.Offers.poll [.candidate] h.ready).step hs rfl
  rw [hpoll] at hafter
  have hready : ((σ.next e σ.inflight).nodes e.server).ready = [k] := by
    simp [System.nodes_next, Node.next, Node.take, hi, h.ready,
      show (σ.nodes e.server).raft = σ.raft e.server from rfl, hpoll]
  refine ⟨_, k, hst.reaches, fun a ha => ?_, ?_, hready, (hr.timers e.server).candidate k (by rw [hcand]; simp)⟩
  · rw [System.nodes_next, if_neg ha]
  · rw [System.raft_next_self, hafter]
    simp only [RaftServer.taken, ← hr.wired.idle e.server]

/-- The candidate timer of `s` runs out, and its handler sends the RVs. -/
theorem Pending.campaign (h : Pending σ s) (voters : List Addr) (hr : Reachable c σ) (hs : s ∈ c.configuration) :
    ∃ σ' : System SM, Reaches c [s] σ σ' ∧ Pending σ' s ∧ (∀ a, a ≠ s → σ'.nodes a = σ.nodes a) ∧
      SameLog (σ.raft s) (σ'.raft s) ∧ (σ'.raft s).term = (σ.raft s).term + 1 ∧
      ((∀ a ∈ voters, a ∈ c.configuration ∧ a.port ≠ s.port ∧ (σ.raft a).term < (σ.raft s).term + 1) →
        Canvasses σ' s ((σ.raft s).term + 1) 1 voters) := by
  obtain ⟨σ₁, k, hreach, hothers, hraft, hready, hc⟩ := h.poll hr hs
  have hk := (hreach.reachable hr).wired.known s
  have hn : (σ₁.raft s).configuration.Nodup := by rw [hk.configuration]; exact c.nodup
  have htimers : ∀ a ∈ (σ₁.raft s).configuration, (σ₁.raft s).retryTimers.find? a ≠ none := fun a ha =>
    (hreach.reachable hr).has_timer s (hk.configuration ▸ ha)
  obtain ⟨y, hy, hcalled⟩ := RaftServer.onExpire_campaigns hc (by rw [hraft]) hn htimers
  obtain ⟨e, hst, rfl, hi, rfl⟩ := (System.Offers.timer hready).step hs hy
  obtain ⟨_, _, hframe⟩ := hcalled.frame
  have hlsn := hcalled.lsn
  refine ⟨_, hreach.trans hst.reaches, ⟨?_, ?_⟩, fun a ha => ?_, ⟨?_, ?_, ?_⟩, ?_, fun hvoters => ?_⟩
  · simp [System.nodes_next, Node.next, Node.take, hi, hready]
  · rw [System.raft_next_self, hframe]
    simp
  · rw [System.nodes_next, if_neg ha, hothers a ha]
  · rw [System.raft_next_self, hframe]
    simp [hraft]
  · rw [System.raft_next_self, hframe]
    simp [hraft]
  · rw [System.raft_next_self, hframe]
    simp [hraft]
  · rw [System.raft_next_self, hframe]
    simp [hraft]
  have hmem : ∀ v ∈ voters, v ∈ (σ₁.raft e.server).others := fun v hv => by
    obtain ⟨hm, hport, -⟩ := hvoters v hv
    exact List.mem_filter.mpr ⟨by rw [hk.configuration]; exact hm, by rw [hk.server]; exact decide_eq_true hport⟩
  have hzero : ∀ v ∈ voters, (σ₁.raft e.server).becomeCandidate.currentRpcLsn.get v = 0 := fun v hv => by
    rw [RaftServer.becomeCandidate_currentRpcLsn, StdMap.get_setAll, if_pos (List.mem_filter.mp (hmem v hv)).1]
  refine ⟨?_, ?_, ?_, ?_, ?_, ?_, ?_⟩
  · rw [System.raft_next_self, hframe]
    simp
  · rw [System.raft_next_self, hframe]
    simp [hraft]
  · rw [System.raft_next_self, hframe]
    simp
  · intro v hv
    rw [System.raft_next_self, RaftServer.taken_currentRpcLsn, hlsn, if_pos (hmem v hv), hzero v hv]
    rfl
  · intro v hv
    refine ⟨⟨e.server, v, .requestVote ((σ₁.raft e.server).becomeCandidate.rvTo v), e.input.call, e.after⟩,
      List.mem_append_right _ (Event.mem_packets.mpr ⟨?_, rfl, rfl, rfl⟩), rfl, _, rfl, ?_, hk.server, hzero v hv⟩
    · rw [Event.effects, hframe]
      exact List.mem_append_right _ (List.mem_map.mpr ⟨v, hmem v hv, rfl⟩)
    · show (σ₁.raft e.server).term + 1 = _
      rw [hraft]
  · intro v hv
    obtain ⟨-, hport, hbehind⟩ := hvoters v hv
    have hne : v ≠ e.server := fun he => hport (by rw [he])
    rw [System.raft_next_ne hne, System.raft_eq (hothers v hne)]
    exact hbehind
  · simp [System.nodes_next, Node.next, Node.take, hi, hready]

theorem Pending.campaigns (h : Pending σ s) (hr : Reachable c σ) (hs : s ∈ c.configuration) : ∀ k : Nat,
    ∃ σ' : System SM, Reaches c [s] σ σ' ∧ Pending σ' s ∧ (∀ a, a ≠ s → σ'.nodes a = σ.nodes a) ∧
      SameLog (σ.raft s) (σ'.raft s) ∧ (σ'.raft s).term = (σ.raft s).term + k
  | 0 => ⟨σ, .refl, h, fun _ _ => rfl, .refl _, by simp⟩
  | k + 1 => by
    obtain ⟨σ₁, hreach₁, hpending₁, hothers₁, hlog₁, hterm₁⟩ := h.campaigns hr hs k
    obtain ⟨σ₂, hreach₂, hpending₂, hothers₂, hlog₂, hterm₂, -⟩ :=
      hpending₁.campaign [] (hreach₁.reachable hr) hs
    refine ⟨σ₂, hreach₁.trans hreach₂, hpending₂, fun a ha => (hothers₂ a ha).trans (hothers₁ a ha),
      hlog₁.trans hlog₂, ?_⟩
    rw [hterm₂, hterm₁]
    push_cast
    omega

/-! ## Votes -/

/-- The RV reaches a server that is behind: it has a vote left, and no entry of its log speaks against. -/
theorem Canvasses.grant (h : Canvasses σ s T n (v :: voters)) (hr : Reachable c σ) (hs : s ∈ c.configuration)
    (hv : v ∈ c.configuration) :
    ∃ σ' : System SM, Reaches c [v] σ σ' ∧ (∀ a, a ≠ v → σ'.nodes a = σ.nodes a) ∧ OnlyFollows σ σ' T v ∧
      (∀ q ∈ σ.inflight, q.dst ≠ v → q ∈ σ'.inflight) ∧
      ∃ p ∈ σ'.inflight, p.dst = s ∧ p.rpc = .respVote ⟨true, T, 0, v.ip, v.port⟩ := by
  obtain ⟨p, hp, hdst, rv, hrpc, rfl, rfl, hlsn⟩ := h.asked v (by simp)
  have hlt := h.behind v (by simp)
  have hk := hr.wired.known v
  have hheard : (σ.raft v).heard rv.term = (σ.raft v).becomeFollower rv.term := if_pos hlt
  have hgrant : (σ.raft v).react2rv rv = .ok (((σ.raft v).becomeFollower rv.term).voted rv) := by
    rw [← hheard]
    refine RaftServer.react2rv_granted (Int.le_of_lt hlt) ?_ ?_ ?_ ?_
    · rw [hheard, RaftServer.becomeFollower_followerRpcLsn, if_pos hlt, StdMap.get_setAll, hk.configuration,
        if_pos hs, hlsn]
      decide
    · rw [hheard]
      rfl
    · rw [hheard]
      rfl
    · rw [RaftServer.shouldVote_eq]
      refine congrArg Except.ok (decide_eq_true fun last hlast => .inl ?_)
      have := (hr.dated.1 v).le last (List.mem_of_getLast? hlast)
      omega
  obtain ⟨e, rest, hst, hserver, -, hafter, hrest⟩ :=
    exists_delivery hp (hdst ▸ hv) (by rw [hdst, hrpc]; exact hgrant)
  obtain rfl : e.server = v := hserver.trans hdst
  refine ⟨_, hst.reaches, fun a ha => by rw [System.nodes_next, if_neg ha], ⟨?_, .inr ?_⟩, fun q hq hne => ?_,
    ⟨e.server, rv.server, _, e.input.call, e.after⟩,
    List.mem_append_right _ (Event.mem_packets.mpr ⟨?_, rfl, rfl, rfl⟩), rfl, rfl⟩
  · rw [System.raft_next_self, hafter]
    exact ⟨rfl, rfl, rfl⟩
  · rw [System.raft_next_self, hafter]
    exact ⟨rfl, rfl⟩
  · exact List.mem_append_left _ (hrest q hq fun he => hne (by rw [he, hdst]))
  · rw [Event.effects, hafter]
    refine List.mem_append_right _ (List.mem_singleton.mpr ?_)
    simp [hk.server, hlsn]

/-- The vote reaches the candidate, which asked for it once: it is counted. -/
theorem Canvasses.count (h : Canvasses σ s T n voters) (hr : Reachable c σ) (hs : s ∈ c.configuration)
    (hv : v ∈ c.configuration) (hself : s ∉ voters) (hlsn : (σ.raft s).currentRpcLsn.get v = 1) {p : Packet}
    (hp : p ∈ σ.inflight) (hdst : p.dst = s) (hrpc : p.rpc = .respVote ⟨true, T, 0, v.ip, v.port⟩) :
    ∃ e rest, Step c σ e rest ∧ e.server = s ∧ ((σ.raft s).majority ≤ n + 1 ∧ TakesOver c σ e rest s T ∨
      n + 1 < (σ.raft s).majority ∧ Canvasses (σ.next e rest) s T (n + 1) voters ∧
      SameLog (σ.raft s) e.after) := by
  have hconfig := (hr.wired.known s).configuration
  have hn : (σ.raft s).configuration.Nodup := by rw [hconfig]; exact c.nodup
  have htimers : ∀ a ∈ (σ.raft s).configuration, (σ.raft s).retryTimers.find? a ≠ none := fun a ha =>
    hr.has_timer s (hconfig ▸ ha)
  have hhandle : (σ.raft s).reactToIncomingMsg p.rpc p.src =
      if (σ.raft s).majority ≤ n + 1 then { σ.raft s with winnedVotes := n + 1 }.trans2P
      else .ok ({ σ.raft s with winnedVotes := n + 1 }.retryTimer v ⟨true, []⟩) := by
    have hcounted := @RaftServer.react2respRv_counted _ ⟨true, T, 0, v.ip, v.port⟩ h.term.symm h.state hlsn rfl
      (hr.has_timer s hv)
    rw [h.votes] at hcounted
    rw [hrpc]
    exact hcounted
  by_cases hmajority : (σ.raft s).majority ≤ n + 1
  · obtain ⟨y, hy⟩ := @RaftServer.trans2P_total { σ.raft s with winnedVotes := n + 1 } hn htimers
    obtain ⟨e, rest, hst, hserver, hi, rfl, -⟩ :=
      exists_delivery hp (hdst ▸ hs) (by rw [hdst, hhandle, if_pos hmajority, hy])
    obtain rfl : e.server = s := hserver.trans hdst
    exact ⟨e, rest, hst, rfl, .inl ⟨hmajority, hst, rfl, h.term, ⟨_, hy⟩, (System.ready_message hi).trans h.ready⟩⟩
  · obtain ⟨e, rest, hst, hserver, hi, hafter, hrest⟩ :=
      exists_delivery hp (hdst ▸ hs) (by rw [hdst, hhandle, if_neg hmajority])
    obtain rfl : e.server = s := hserver.trans hdst
    refine ⟨e, rest, hst, rfl, .inr ⟨by omega, ⟨?_, ?_, ?_, fun u hu => ?_, fun u hu => ?_, fun u hu => ?_, ?_⟩,
      ?_, ?_, ?_⟩⟩
    · rw [System.raft_next_self, hafter]
      exact h.state
    · rw [System.raft_next_self, hafter]
      exact h.term
    · rw [System.raft_next_self, hafter]
      rfl
    · rw [System.raft_next_self, hafter]
      exact h.lsn u hu
    · obtain ⟨q, hq, rfl, rv, hrv⟩ := h.asked u hu
      refine ⟨q, List.mem_append_left _ (hrest q hq fun he => ?_), rfl, rv, hrv⟩
      rw [he, hrpc] at hrv
      cases hrv.1
    · rw [System.raft_next_ne fun he => hself (he ▸ hu)]
      exact h.behind u hu
    · exact (System.ready_message hi).trans h.ready
    · rw [hafter]
      rfl
    · rw [hafter]
      rfl
    · rw [hafter]
      rfl

omit [StateMachine SM] in
theorem OnlyFollows.refl (σ : System SM) (T : Int) (a : Addr) : OnlyFollows σ σ T a := ⟨.refl _, .inl rfl⟩

omit [StateMachine SM] in
theorem OnlyFollows.trans {σ₁ σ₂ : System SM} {a : Addr} (h₁ : OnlyFollows σ σ₁ T a) (h₂ : OnlyFollows σ₁ σ₂ T a) :
    OnlyFollows σ σ₂ T a := by
  refine ⟨h₁.log.trans h₂.log, ?_⟩
  rcases h₂.vote with he | hv
  · rw [he]
    exact h₁.vote
  · exact .inr hv

/-- **The votes of a majority**, one by one: each voter is asked, and its vote is counted. -/
theorem Canvasses.wins :
    ∀ {voters : List Addr} {σ : System SM} {n : Int}, Canvasses σ s T n voters → Reachable c σ →
    s ∈ c.configuration → (∀ v ∈ voters, v ∈ c.configuration) → (s :: voters).Nodup → n < (σ.raft s).majority →
    (σ.raft s).majority ≤ n + voters.length →
    ∃ (σ' : System SM) (e : Event) (rest : List Packet), Reaches c (s :: voters) σ σ' ∧ TakesOver c σ' e rest s T ∧
      SameLog (σ.raft s) (σ'.raft s) ∧ ∀ a, a ≠ s → OnlyFollows σ σ' T a
  | [], _, n, _, _, _, _, _, hlt, hmajority => by
    simp only [List.length_nil] at hmajority
    omega
  | v :: voters, σ, n, h, hr, hs, hv, hn, hlt, hmajority => by
    have hn' := hn
    simp only [List.nodup_cons, List.mem_cons, not_or] at hn'
    obtain ⟨⟨hsv, hself⟩, hnot, -⟩ := hn'
    obtain ⟨σ₁, hreach₁, hnodes₁, hvote₁, hflying₁, p, hp, hdst, hrpc⟩ := h.grant hr hs (hv v (by simp))
    have hr₁ := hreach₁.reachable hr
    have hothers₁ : ∀ a, a ≠ v → σ₁.raft a = σ.raft a := fun a ha => System.raft_eq (hnodes₁ a ha)
    have honly₁ : ∀ a, OnlyFollows σ σ₁ T a := fun a => by
      by_cases ha : a = v
      · exact ha ▸ hvote₁
      · exact ⟨hothers₁ a ha ▸ .refl _, .inl (hothers₁ a ha)⟩
    have hne : ∀ u ∈ voters, u ≠ v := fun u hu he => hnot (he ▸ hu)
    have h₁ : Canvasses σ₁ s T n voters := by
      refine ⟨?_, ?_, ?_, fun u hu => ?_, fun u hu => ?_, fun u hu => ?_, by rw [hnodes₁ s hsv]; exact h.ready⟩
      · rw [hothers₁ s hsv]
        exact h.state
      · rw [hothers₁ s hsv]
        exact h.term
      · rw [hothers₁ s hsv]
        exact h.votes
      · rw [hothers₁ s hsv]
        exact h.lsn u (by simp [hu])
      · obtain ⟨q, hq, hdst, hrv⟩ := h.asked u (by simp [hu])
        exact ⟨q, hflying₁ q hq (hdst ▸ hne u hu), hdst, hrv⟩
      · rw [hothers₁ u (hne u hu)]
        exact h.behind u (by simp [hu])
    obtain ⟨e, rest, hst, hserver, hcount⟩ :=
      h₁.count hr₁ hs (hv v (by simp)) hself (by rw [hothers₁ s hsv]; exact h.lsn v (by simp)) hp hdst hrpc
    rcases hcount with ⟨-, hover⟩ | ⟨hlt₁, h₂, hlog⟩
    · exact ⟨σ₁, e, rest, hreach₁.mono (by simp), hover, (honly₁ s).log, fun a _ => honly₁ a⟩
    · have hr₂ := hst.reachable hr₁
      have hlog₂ : SameLog (σ.raft s) ((σ₁.next e rest).raft s) := by
        rw [← hserver, System.raft_next_self, hserver]
        exact (honly₁ s).log.trans ⟨hlog.entries, hlog.commit, hlog.smc⟩
      have hsame : ((σ₁.next e rest).raft s).majority = (σ.raft s).majority :=
        (hr₂.wired.known s).majority.trans (hr.wired.known s).majority.symm
      rw [hothers₁ s hsv] at hlt₁
      rw [List.length_cons] at hmajority
      push_cast at hmajority
      obtain ⟨σ₃, e', rest', hreach₃, hover, hlog₃, honly₃⟩ :=
        h₂.wins hr₂ hs (fun u hu => hv u (by simp [hu])) (hn.sublist (by simp)) (by omega) (by omega)
      have hstep : Reaches c (s :: v :: voters) σ (σ₁.next e rest) :=
        (hreach₁.mono (by simp)).step (by simp [hserver]) hst
      refine ⟨σ₃, e', rest', hstep.trans (hreach₃.mono ?_), hover, hlog₂.trans hlog₃, fun a ha => ?_⟩
      · intro a ha
        rcases List.mem_cons.mp ha with rfl | ha <;> simp [*]
      · have hsame₂ : (σ₁.next e rest).raft a = σ₁.raft a := System.raft_next_ne (hserver ▸ ha)
        exact ((honly₁ a).trans ⟨hsame₂ ▸ .refl _, .inl hsame₂⟩).trans (honly₃ a ha)

theorem TakesOver.leading {e : Event} {rest : List Packet} (h : TakesOver c σ e rest s T) (hr : Reachable c σ) :
    Leading c (σ.next e rest) s T ∧ SameLog (σ.raft s) ((σ.next e rest).raft s) := by
  obtain ⟨hst, rfl, hterm, ⟨votes, hy⟩, -⟩ := h
  have hk := hr.wired.known e.server
  have hn : (σ.raft e.server).configuration.Nodup := by rw [hk.configuration]; exact c.nodup
  obtain ⟨ae, hae, hcalled⟩ := @RaftServer.trans2P_ok { σ.raft e.server with winnedVotes := votes } _ hn hy
  obtain ⟨_, _, hframe⟩ := hcalled.frame
  refine ⟨⟨?_, ?_, fun a ha hport => ?_⟩, ?_, ?_, ?_⟩
  · rw [System.raft_next_self, hframe]
    simp
  · rw [System.raft_next_self, hframe]
    simp [hterm]
  · have hmem : a ∈ (σ.raft e.server).others :=
      List.mem_filter.mpr ⟨by rw [hk.configuration]; exact ha, by rw [hk.server]; exact decide_eq_true hport⟩
    obtain ⟨-, m, hbuilt⟩ := hae a hmem
    refine ⟨⟨e.server, a, .appendEntry (ae a), e.input.call, e.after⟩,
      List.mem_append_right _ (Event.mem_packets.mpr ⟨?_, rfl, rfl, rfl⟩), rfl, _, rfl, hbuilt.term.trans hterm⟩
    rw [Event.effects, hframe]
    exact List.mem_append_right _ (List.mem_map.mpr ⟨a, hmem, rfl⟩)
  · rw [System.raft_next_self, hframe]
    simp
  · rw [System.raft_next_self, hframe]
    simp
  · rw [System.raft_next_self, hframe]
    simp

/-- The run to the step in which a server whose election is pending becomes primary. -/
theorem Pending.wins (h : Pending σ s) (hr : Reachable c σ) (hs : s ∈ c.configuration) (hvoters : voters.Nodup)
    (hcalled : ∀ v ∈ voters, v ∈ c.configuration ∧ v.port ≠ s.port) (hne : voters ≠ [])
    (hmajority : c.configuration.length / 2 ≤ voters.length) :
    ∃ (σ' : System SM) (e : Event) (rest : List Packet) (T : Int),
      Reaches c (s :: voters) σ σ' ∧ TakesOver c σ' e rest s T ∧
      (∀ a ∈ s :: voters, (σ.raft a).term < T) ∧ SameLog (σ.raft s) (σ'.raft s) ∧
      ∀ a, a ≠ s → OnlyFollows σ σ' T a := by
  obtain ⟨M, hM⟩ := Finset.exists_le (voters.map fun v => (σ.raft v).term).toFinset
  simp only [List.mem_toFinset, List.mem_map, forall_exists_index, and_imp, forall_apply_eq_imp_iff₂] at hM
  -- campaigns that bring the term of `s` to those of the voters, and one more that is heard
  obtain ⟨σ₁, hreach₁, hpending₁, hothers₁, hlog₁, hterm₁⟩ := h.campaigns hr hs (M - (σ.raft s).term).toNat
  obtain ⟨σ₂, hreach₂, -, hothers₂, hlog₂, -, hcanvass⟩ := hpending₁.campaign voters (hreach₁.reachable hr) hs
  have hraft₁ : ∀ a, a ≠ s → σ₁.raft a = σ.raft a := fun a ha => System.raft_eq (hothers₁ a ha)
  have hraft₂ : ∀ a, a ≠ s → σ₂.raft a = σ.raft a :=
    fun a ha => System.raft_eq ((hothers₂ a ha).trans (hothers₁ a ha))
  have hself : ∀ v ∈ voters, v ≠ s := fun v hv he => (hcalled v hv).2 (by rw [he])
  have hbehind : ∀ a ∈ s :: voters, (σ.raft a).term < (σ₁.raft s).term + 1 := fun a ha => by
    rcases List.mem_cons.mp ha with rfl | hv
    · omega
    · have := hM a hv
      omega
  have hcanvass := hcanvass fun v hv =>
    ⟨(hcalled v hv).1, (hcalled v hv).2, by rw [hraft₁ v (hself v hv)]; exact hbehind v (by simp [hv])⟩
  have hr₂ := hreach₂.reachable (hreach₁.reachable hr)
  have hm := (hr₂.wired.known s).majority
  have hn : (s :: voters).Nodup := List.nodup_cons.mpr ⟨fun hs => hself s hs rfl, hvoters⟩
  have hle := (List.subperm_of_subset hn (List.cons_subset.mpr ⟨hs, fun v hv => (hcalled v hv).1⟩)).length_le
  have hpos := List.length_pos_of_ne_nil hne
  rw [List.length_cons] at hle
  obtain ⟨σ₃, e, rest, hreach₃, hover, hlog₃, honly⟩ :=
    hcanvass.wins hr₂ hs (fun v hv => (hcalled v hv).1) hn (by omega) (by omega)
  refine ⟨σ₃, e, rest, _, ((hreach₁.trans hreach₂).mono (by simp)).trans hreach₃, hover, hbehind,
    (hlog₁.trans hlog₂).trans hlog₃, fun a ha => ?_⟩
  exact OnlyFollows.trans ⟨hraft₂ a ha ▸ .refl _, .inl (hraft₂ a ha)⟩ (honly a ha)

/-- **A majority can always elect a primary**, of two servers or more: any of its
servers whose next election is pending, with nothing else queued in its reactor,
whatever its log, and whatever happened before. -/
theorem majority_elects (hr : Reachable c σ) (hs : s ∈ c.configuration) (h : Pending σ s) (hvoters : voters.Nodup)
    (hcalled : ∀ v ∈ voters, v ∈ c.configuration ∧ v.port ≠ s.port) (hne : voters ≠ [])
    (hmajority : c.configuration.length / 2 ≤ voters.length) :
    ∃ (σ' : System SM) (T : Int), Reaches c (s :: voters) σ σ' ∧ Leading c σ' s T ∧
      (∀ v ∈ voters, (σ.raft v).term < T) ∧ (σ'.raft s).entries = (σ.raft s).entries := by
  obtain ⟨σ', e, rest, T, hreach, hover, hbehind, hlog, -⟩ := h.wins hr hs hvoters hcalled hne hmajority
  obtain ⟨hleading, hsame⟩ := hover.leading (hreach.reachable hr)
  exact ⟨_, T, hreach.step (by simp [hover.server]) hover.step, hleading, fun v hv => hbehind v (by simp [hv]),
    (hlog.trans hsame).entries⟩

end Runs

/-- A has committed its entry; C, whose log is empty, and B are enough to elect C. -/
theorem commitX_succeeded : ∃ σ : System Unit, (σ.raft serverA).commitIndex = 0 ∧ ∃ (σ' : System Unit) (T : Int),
    Reaches threeServers [serverC, serverB] σ σ' ∧ Leading threeServers σ' serverC T ∧
    (σ'.raft serverC).entries.log = [] := by
  obtain ⟨σ, hr, hcommit, hlog, hready, hwaits⟩ := System.exists_reachable threeServers commitX
    (P := fun σ : System Unit => (σ.raft serverA).commitIndex = 0 ∧ (σ.raft serverC).entries.log = [] ∧
      (σ.nodes serverC).ready = [] ∧ (σ.raft serverC).candidateTimer.waits ≠ []) (by decide +kernel)
  obtain ⟨σ', T, hreach, hover, -, hentries⟩ := majority_elects hr (by decide) ⟨hready, hwaits⟩
    (show [serverB].Nodup by decide) (by decide) (by decide) (by decide)
  exact ⟨σ, hcommit, σ', T, hreach, hover, by rw [hentries, hlog]⟩

/-! ## A cluster of one -/

/-- **A cluster of one never has a primary**: a candidate looks at its votes
when a reply comes, and nobody replies. -/
theorem lone_server_never_leads {SM : Type} [StateMachine SM] {c : Cluster} {σ : System SM}
    (hr : Reachable c σ) {a : Addr} (hlone : c.configuration = [a]) (s : Addr) : (σ.raft s).state ≠ .primary := by
  refine hr.invariant (I := fun σ => ∀ s, (σ.raft s).state ≠ .primary) (fun s => nofun) ?_ s
  intro σ e rest hr hst ih s
  rw [System.raft_next]
  split
  swap
  · exact ih s
  intro hy
  have hx : e.before.state ≠ .primary := by
    rw [hst.before]
    exact ih e.server
  cases (hst.outcome hr).leads hy with
  | same hx' | appended _ hx' | acked _ _ hx' | nacked _ _ hx' => exact hx hx'
  | @won p resp hi hp hcand hterm hlsn hok =>
    obtain ⟨hsent, hdst, -⟩ := hst.delivered hr hi
    have hg : Grant p e.server resp := ⟨hp, hok, hdst⟩
    have hsrc := hr.src_mem hsent
    have hself := hst.member
    rw [hlone, List.mem_singleton] at hsrc hself
    have heq : p.src = e.server := hsrc.trans hself.symm
    refine hr.candidate_not_voter hsent hg ?_ ?_
    · rw [heq, ← hst.before, hcand]
      nofun
    · rw [heq, ← hst.before, hterm]

def loneServer : Cluster := ⟨[serverA], by decide⟩

/-- It campaigns, and its own vote is a majority. -/
theorem campaignAlone_waits : ∃ σ : System Unit, (σ.raft serverA).majority ≤ (σ.raft serverA).winnedVotes ∧
    (σ.raft serverA).state ≠ .primary := by
  obtain ⟨σ, hr, hmajority⟩ := System.exists_reachable loneServer (campaign serverA)
    (P := fun σ : System Unit => (σ.raft serverA).majority ≤ (σ.raft serverA).winnedVotes) (by decide +kernel)
  exact ⟨σ, hmajority, lone_server_never_leads hr rfl serverA⟩

end MyRaft
