/-
Leader completeness. An entry of the primary's own term that a majority holds
stays in the logs of that majority, each later primary has the vote of one of
them, and a vote for a log that is as up to date as the voter's passes the entry
on: by induction on the term every later primary has it.

The code does not compare logs so: `react2rv` sets the voter's last term against
the term of the RV. Nor does it commit entries of its own term only.
-/
import MyRaft.Election
import MyRaft.Pace

namespace MyRaft

open History Lineage Rank
open StdLib (StdMap)
open RaftServer (Leads Accepts Grants)

/-! ## Disciplined runs -/

/-- The RV a packet carries. -/
def Packet.requestVote? (p : Packet) : Option RequestVoteRpc :=
  match p.rpc with
  | .requestVote rv => some rv
  | _ => none

theorem Packet.mem_requestVote? {p : Packet} {rv : RequestVoteRpc} :
    rv ∈ p.requestVote? ↔ p.rpc = .requestVote rv := by
  unfold Packet.requestVote?
  split
  · rename_i r hr
    simp [hr, eq_comm]
  · rename_i hne
    simp only [Option.mem_def, reduceCtorEq, false_iff]
    exact hne rv

/-- An RV that passes the checks of `react2rv`. -/
structure PassesVote (x : RaftServer) (rv : RequestVoteRpc) : Prop where
  term_le : x.term ≤ rv.term
  lsn : (x.heard rv.term).followerRpcLsn.get rv.server < rv.lsn
  state : (x.heard rv.term).state = .follower
  not_voted : (x.heard rv.term).alreadyVoted = false
  shouldVote : x.shouldVote rv.term rv.latestIndex = .ok true

instance (x : RaftServer) (rv : RequestVoteRpc) : Decidable (PassesVote x rv) :=
  decidable_of_iff (x.term ≤ rv.term ∧ (x.heard rv.term).followerRpcLsn.get rv.server < rv.lsn ∧
    (x.heard rv.term).state = .follower ∧ (x.heard rv.term).alreadyVoted = false ∧
    x.shouldVote rv.term rv.latestIndex = .ok true)
    ⟨fun h => ⟨h.1, h.2.1, h.2.2.1, h.2.2.2.1, h.2.2.2.2⟩,
      fun h => ⟨h.term_le, h.lsn, h.state, h.not_voted, h.shouldVote⟩⟩

/-- The candidate's log was as up to date, when it sent the RV, as the voter's is. -/
def VoteUpToDate (_ : List Event) (e : Event) : Prop :=
  ∀ p ∈ e.input.packet?, ∀ rv ∈ p.requestVote?, PassesVote e.before rv →
    UpToDate RpcEntry.term p.sender.entries.log e.before.entries.log

instance (past : List Event) (e : Event) : Decidable (VoteUpToDate past e) :=
  inferInstanceAs (Decidable (∀ p ∈ e.input.packet?, ∀ rv ∈ p.requestVote?, PassesVote e.before rv →
    UpToDate RpcEntry.term p.sender.entries.log e.before.entries.log))

/-- A majority holds an entry of the server's term at `i` or behind it. -/
def RaftServer.OwnTermHeld (i : Nat) (s : RaftServer) : Prop :=
  ∃ j < s.entries.log.length, i ≤ j ∧ s.MajorityHolds j ∧ ∃ entry ∈ s.entries.log[j]?, entry.term = s.term

instance (i : Nat) (s : RaftServer) : Decidable (s.OwnTermHeld i) :=
  inferInstanceAs (Decidable (∃ j < s.entries.log.length, i ≤ j ∧ s.MajorityHolds j ∧
    ∃ entry ∈ s.entries.log[j]?, entry.term = s.term))

/-- A reply that makes a majority hold entries past the commit index makes it hold
one of the primary's own term behind them. -/
def CommitsOwnTerm (_ : List Event) (e : Event) : Prop :=
  ∀ resp ∈ e.input.respAppend?, TakesReply e.before resp → resp.ok = true →
    ∀ i < e.before.entries.log.length, e.before.commitIndex < i →
      (e.before.counting resp.server resp).MajorityHolds i → (e.before.counting resp.server resp).OwnTermHeld i

instance (past : List Event) (e : Event) : Decidable (CommitsOwnTerm past e) :=
  inferInstanceAs (Decidable (∀ resp ∈ e.input.respAppend?, TakesReply e.before resp → resp.ok = true →
    ∀ i < e.before.entries.log.length, e.before.commitIndex < i →
      (e.before.counting resp.server resp).MajorityHolds i → (e.before.counting resp.server resp).OwnTermHeld i))

/-- A step that meets what the code leaves to chance. -/
structure Disciplined (past : List Event) (e : Event) : Prop where
  voteOnce : VoteOnce past e
  voteUpToDate : VoteUpToDate past e
  applies : ApplyAtPrimary past e
  fresh : FreshReply past e
  ownTerm : CommitsOwnTerm past e

instance (past : List Event) (e : Event) : Decidable (Disciplined past e) :=
  decidable_of_iff (VoteOnce past e ∧ VoteUpToDate past e ∧ ApplyAtPrimary past e ∧ FreshReply past e ∧
  CommitsOwnTerm past e)
    ⟨fun h => ⟨h.1, h.2.1, h.2.2.1, h.2.2.2.1, h.2.2.2.2⟩,
      fun h => ⟨h.voteOnce, h.voteUpToDate, h.applies, h.fresh, h.ownTerm⟩⟩

section Runs

variable {SM : Type} [StateMachine SM] {c : Cluster} {σ : System SM} {e : Event} {rest : List Packet} {p : Packet}
  {l : List RpcEntry} {k : Nat}

theorem Reachable.orderly (hr : Reachable c σ) (ha : Along Disciplined σ.trace) : Orderly σ.trace where
  one := fun _ he _ he' hp hp' hterm => hr.one_primary (ha.imp fun _ _ h => h.voteOnce) he he' hp hp' hterm
  applies := ha.imp fun _ _ h => h.applies

/-! ## What a follower holds it keeps -/

theorem Step.accept_keeps (hr : Reachable c σ) (h : Step c σ e rest) (ho : Orderly σ.trace) (hpaced : Paced c σ)
    {ae : AppendEntryRpc} (hi : e.input = .message p) (hp : p.rpc = .appendEntry ae)
    (ha : Accepts e.before ae e.after) (hl : l <+: e.before.entries.log) (hL : l <+: primaryLog σ.trace ae.term) :
    l <+: e.after.entries.log := by
  obtain ⟨n, hn, hcopies⟩ := h.copies hr ho hi hp ha
  have hcur := h.accepted_cursor hr hi hp ha hn
  have hshared : Shared (primaryLog σ.trace ae.term) (σ.raft e.server).entries.log l.length := by
    refine ⟨hL.length_le, ?_⟩
    rw [← List.prefix_iff_eq_take.mp hL, ← h.before]
    exact hl
  have hle : l.length ≤ n + 1 := by
    have hterm := ha.term_le
    rw [h.before] at hterm
    rcases Int.lt_or_eq_of_le hterm with hlt | heq
    · have := hpaced.before_term hr h.member hcur hlt hshared
      omega
    · exact hpaced.near _ _ h.member n hcur heq _ hshared
  rcases hcopies.log with ⟨-, hlog⟩ | ⟨hlt, hlog⟩
  · rwa [hlog]
  · have htake : p.sender.entries.log.take (n + 1) <+: p.sender.entries.log := List.take_prefix _ _
    have hpre := htake.trans (hr.sender_log ho.one (h.delivered hr hi).1 hn)
    rw [hlog]
    exact List.prefix_of_prefix_length_le hL hpre (by rw [List.length_take_of_le hlt]; exact hle)

/-- **What a server had in a term that its primary had too it keeps**, as long as
the later primaries it may hear of have it. -/
theorem Reachable.keeps (hr : Reachable c σ) (ho : Orderly σ.trace) (hfresh : Along FreshReply σ.trace) :
    ∀ a past, a :: past <:+ σ.trace → l <+: a.after.entries.log → l <+: primaryLog (a :: past) a.after.term →
      (∀ d ∈ σ.trace, d.after.state = .primary → a.after.term < d.after.term →
        d.after.term ≤ (σ.raft a.server).term → l <+: d.after.entries.log) →
      l <+: (σ.raft a.server).entries.log := by
  refine hr.invariantAlong (P := FreshReply) (I := fun σ => Orderly σ.trace → ∀ a past, a :: past <:+ σ.trace →
    l <+: a.after.entries.log → l <+: primaryLog (a :: past) a.after.term →
    (∀ d ∈ σ.trace, d.after.state = .primary → a.after.term < d.after.term →
      d.after.term ≤ (σ.raft a.server).term → l <+: d.after.entries.log) →
    l <+: (σ.raft a.server).entries.log) hfresh ?_ ?_ ho
  · intro _ a past hs
    exact absurd (List.suffix_nil.mp hs) (by simp)
  intro σ e rest hr hfresh h _ ih ho a past hs hl hown hlater
  have ho' := ho.suffix (List.suffix_cons e σ.trace)
  rcases List.suffix_cons_iff.mp hs with heq | hs'
  · obtain ⟨rfl, rfl⟩ := List.cons_eq_cons.mp heq
    rw [System.raft_next_self]
    exact hl
  have hmove := (h.since_next hr a.server).term
  have hold := ih ho' a past hs' hl hown fun d hd hp hlt hle =>
    hlater d (List.mem_cons_of_mem _ hd) hp hlt (by omega)
  by_cases hae : a.server = e.server
  · have hsince := (hr.since (mem_of_suffix hs')).term
    rw [hae] at hold hsince hlater hmove ⊢
    rw [System.raft_next_self] at hlater hmove ⊢
    rw [RaftServer.taken_entries]
    rw [RaftServer.taken_term] at hlater hmove
    rw [← h.before] at hold hsince hmove
    cases (h.outcome hr).log with
    | same hlog => rwa [hlog]
    | appended _ _ _ hlog =>
      rw [hlog]
      exact hold.trans (List.prefix_append _ _)
    | @accepted p ae hi hp ha =>
      refine h.accept_keeps hr ho' (hr.paced ho' hfresh) hi hp ha hold ?_
      rcases Int.lt_or_eq_of_le (Int.le_trans hsince hmove) with hlt | heq
      · obtain ⟨n, hn⟩ := hr.ae_sent (h.delivered hr hi).1 hp
        rcases primaryLog_cases ae.term σ.trace with ⟨-, hnone⟩ | ⟨d, _, hds, hdp, hdt, hlog⟩
        · obtain ⟨f, hf, hpf⟩ := (h.delivered hr hi).1
          have hstate := hn.primary
          have hterm := hn.built.term
          rw [(Event.mem_packets.mp hpf).2.2.2] at hstate hterm
          exact absurd hterm.symm (hnone f hf hstate)
        · have hterm := ha.term
          rw [hlog]
          exact hlater d (List.mem_cons_of_mem _ (mem_of_suffix hds)) hdp (by omega) (by omega)
      · rw [← ha.term, ← heq]
        exact hown.trans (hr.primaryLog_mono ho'.one hs' _)
  · rwa [System.raft_next_ne hae]

/-! ## Direct commits -/

/-- The event commits an entry of its primary's own term. -/
structure Direct (e : Event) (k : Nat) : Prop where
  committed : .committed (k : Int) ∈ e.effects
  own : ∃ entry, e.after.entries.log[k]? = some entry ∧ entry.term = e.after.term

theorem take_getElem? {l l' : List RpcEntry} {entry : RpcEntry} (h : l.take (k + 1) = l'.take (k + 1))
    (hget : l'[k]? = some entry) : l[k]? = some entry := by
  rw [← List.getElem?_take_of_lt (Nat.lt_succ_self k), h, List.getElem?_take_of_lt (Nat.lt_succ_self k)]
  exact hget

/-- A server that held the entry in the term of its primary has the prefix up to it from there. -/
theorem Reachable.keeps_direct (hr : Reachable c σ) (ho : Orderly σ.trace) (hfresh : Along FreshReply σ.trace)
    {a : Event} (ha : a ∈ σ.trace) {entry : RpcEntry} (hget : a.after.entries.log[k]? = some entry)
    (hterm : entry.term = a.after.term) (hlater : ∀ d ∈ σ.trace, d.after.state = .primary →
    a.after.term < d.after.term →
      d.after.term ≤ (σ.raft a.server).term → a.after.entries.log.take (k + 1) <+: d.after.entries.log) :
    a.after.entries.log.take (k + 1) <+: (σ.raft a.server).entries.log := by
  obtain ⟨past, hs⟩ := exists_past ha
  obtain ⟨σ₀, rest, hr₀, rfl, hst⟩ := hr.at hs
  have hlines := (hst.reachable hr₀).lines_of_mem (ho.suffix hs) a List.mem_cons_self k entry hget
  rw [hterm] at hlines
  refine hr.keeps ho hfresh a σ₀.trace hs ?_ hlines hlater
  exact List.take_prefix _ _

theorem Step.holder_event (hr : Reachable c σ) (h : Step c σ e rest) (ho : Orderly (e :: σ.trace))
    (hk : .committed (k : Int) ∈ e.effects) {v : Addr} (hv : v ∈ holders c e k) :
    ∃ a ∈ e :: σ.trace, a.server = v ∧ a.after.term = e.after.term ∧
      a.after.entries.log.take (k + 1) = e.after.entries.log.take (k + 1) := by
  by_cases hve : v = e.server
  · exact ⟨e, List.mem_cons_self, hve.symm, rfl, rfl⟩
  · obtain ⟨p, resp, hsent, hsrc, -, hresp, -, hterm, -, hlog⟩ := h.holder_held hr ho hk hv hve
    obtain ⟨q, ae, x, hreply⟩ := hr.ae_reply hsent hresp
    have hsender := hreply.term.symm.trans hterm
    obtain ⟨a, ha, hpa⟩ := hsent
    obtain ⟨-, hs, -, he⟩ := Event.mem_packets.mp hpa
    rw [he] at hsender hlog
    exact ⟨a, List.mem_cons_of_mem _ ha, hs.symm.trans hsrc, hsender, hlog⟩

theorem Reachable.earlier (hr : Reachable c σ) {a g : Event} {past : List Event} (ha : a ∈ σ.trace)
    (hg : g :: past <:+ σ.trace) (hs : a.server = g.server) (hlt : a.after.term < g.after.term) : a ∈ past := by
  rcases before_or_after hg ha with h | rfl | ⟨past', hs', hm⟩
  · exact h
  · omega
  · obtain ⟨σ₀, rest, hr₀, rfl, hst⟩ := hr.at hs'
    have h1 := (hr₀.since hm).term
    have h2 := (hst.since hr₀).term
    rw [← hs, ← hst.before] at h1
    omega

/-! ## Elections -/

/-- A candidate's log does not change before its term has a primary. -/
theorem Reachable.candidate_log (hr : Reachable c σ) (happly : Along ApplyAtPrimary σ.trace) :
    ∀ q, Sent σ.trace q →
    ∀ rv, q.rpc = .requestVote rv → rv.term = (σ.raft q.src).term →
    (∀ d ∈ σ.trace, d.after.state = .primary → d.after.term ≠ rv.term) →
    (σ.raft q.src).entries.log = q.sender.entries.log := by
  refine hr.invariantAlong (P := ApplyAtPrimary) (I := fun σ => ∀ q, Sent σ.trace q →
    ∀ rv, q.rpc = .requestVote rv → rv.term = (σ.raft q.src).term →
    (∀ d ∈ σ.trace, d.after.state = .primary → d.after.term ≠ rv.term) →
    (σ.raft q.src).entries.log = q.sender.entries.log) happly ?_ ?_
  · rintro q ⟨d, hd, -⟩
    cases hd
  intro σ e rest hr _ h happly ih q hq rv hrv hterm hnone
  have hnone' : ∀ d ∈ σ.trace, d.after.state = .primary → d.after.term ≠ rv.term :=
    fun d hd => hnone d (List.mem_cons_of_mem _ hd)
  rcases Sent.cons.mp hq with hq | hq
  · obtain ⟨-, hsrc, -, hsender⟩ := Event.mem_packets.mp hq
    rw [hsrc, hsender, System.raft_next_self]
    rfl
  by_cases hqe : q.src = e.server
  · have hsince := (hr.since_sent hq).term
    have hsent := (hr.rv_sent hq hrv).term
    rw [hqe, System.raft_next_self, RaftServer.taken_term] at hterm
    rw [hqe, ← h.before] at hsince
    have hmove := (h.since hr).term
    have hold := ih q hq rv hrv (by rw [hqe, ← h.before]; omega) hnone'
    rw [hqe, ← h.before] at hold
    rw [hqe, System.raft_next_self, RaftServer.taken_entries]
    cases (h.outcome hr).log with
    | same hlog => rw [hlog, hold]
    | appended hi _ hstate =>
      have hx := happly (by rw [hi]; rfl)
      exact absurd hterm.symm (hnone e List.mem_cons_self (hstate.trans hx))
    | accepted hi hp ha =>
      obtain ⟨hsent', -, -⟩ := h.delivered hr hi
      obtain ⟨n, hn⟩ := hr.ae_sent hsent' hp
      have hstate := hn.primary
      have hbuilt := hn.built.term
      have hae := ha.term
      obtain ⟨f, hf, hpf⟩ := hsent'
      rw [(Event.mem_packets.mp hpf).2.2.2] at hstate hbuilt
      exact absurd (by omega) (hnone' f hf hstate)
  · rw [System.raft_next_ne hqe] at hterm ⊢
    exact ih q hq rv hrv hterm hnone'

theorem Step.elected_first (hr : Reachable c σ) (h : Step c σ e rest) (hy : e.after.state = .primary)
    (hfirst : ∀ d ∈ σ.trace, d.after.state = .primary → d.after.term ≠ e.after.term) :
    Elected c σ.trace e.server e.after.term ∧ e.after.term = e.before.term ∧
      e.after.entries.log = e.before.entries.log := by
  have hnot : e.after.term = e.before.term → e.before.state ≠ .primary := fun hterm hx => by
    rw [h.before] at hx hterm
    obtain ⟨d, hd, -, hp, ht⟩ := hr.primary_event hx
    exact hfirst d hd hp (ht.trans hterm.symm)
  cases (h.outcome hr).leads hy with
  | same hx hterm | appended _ hx hterm | acked _ _ hx _ _ _ hterm | nacked _ _ hx _ _ _ hterm =>
    exact absurd hx (hnot hterm)
  | won hi hp hx hresp hlsn hok hmajority hterm hlog =>
    rw [hterm]
    exact ⟨h.elected hr hi hp hx hresp hlsn hok hmajority, rfl, hlog⟩

/-! ## Later primaries -/

theorem Dated.last {x : RaftServer} {entry : RpcEntry} (h : Dated x) (hget : x.entries.log[k]? = some entry) :
    ∃ a ∈ x.entries.log.getLast?, entry.term ≤ a.term := by
  obtain ⟨hk, rfl⟩ := List.getElem?_eq_some_iff.mp hget
  refine ⟨x.entries.log[x.entries.log.length - 1], ?_, ?_⟩
  · rw [List.getLast?_eq_getElem?]
    exact List.getElem?_eq_getElem _
  · rcases Nat.lt_or_eq_of_le (show k ≤ x.entries.log.length - 1 by omega) with hlt | heq
    · exact List.pairwise_iff_getElem.mp h.sorted k _ _ _ hlt
    · simp [← heq]

theorem RaftServer.Grants.passes {x y : RaftServer} {rv : RequestVoteRpc} (h : Grants x rv y) : PassesVote x rv :=
  ⟨h.term_le, h.lsn, h.was_follower, h.not_voted, h.shouldVote⟩

/-- A server that held an entry in its term keeps it up to a term with no primary yet. -/
theorem Reachable.holder_keeps (hr : Reachable c σ) (ho : Orderly σ.trace) (hfresh : Along FreshReply σ.trace)
    {a : Event} (ha : a ∈ σ.trace) (haterm : a.after.term = e.after.term)
    (htake : a.after.entries.log.take (k + 1) = e.after.entries.log.take (k + 1)) (hd : Direct e k) {term : Int}
    (hle : (σ.raft a.server).term ≤ term) (hnone : ∀ d ∈ σ.trace, d.after.state = .primary → d.after.term ≠ term)
    (ih : ∀ d ∈ σ.trace, d.after.state = .primary → e.after.term < d.after.term → d.after.term < term →
      e.after.entries.log.take (k + 1) <+: d.after.entries.log) :
    e.after.entries.log.take (k + 1) <+: (σ.raft a.server).entries.log := by
  obtain ⟨entry, hget, hown⟩ := hd.own
  rw [← htake]
  refine hr.keeps_direct ho hfresh ha (take_getElem? htake hget) (by rw [hown, haterm]) ?_
  intro d hdm hdp hdlt hdle
  have hne := hnone d hdm hdp
  rw [htake]
  exact ih d hdm hdp (by omega) (by omega)

/-- A vote granted passes the entries of the voter on to the candidate, if the
primaries between their terms have them. -/
theorem Reachable.grant_passes (hr : Reachable c σ) (ha : Along Disciplined σ.trace) {v s : Addr}
    (hg : Granted σ.trace v s (σ.raft s).term)
    (hnone : ∀ d ∈ σ.trace, d.after.state = .primary → d.after.term ≠ (σ.raft s).term) {log : List RpcEntry}
    {entry : RpcEntry} (hget : log[k]? = some entry) (hdates : ∀ b ∈ log.take (k + 1), b.term ≤ entry.term)
    (hheld : ∀ (σ₀ : System SM) (g : Event) (rest : List Packet), Reachable c σ₀ → g :: σ₀.trace <:+ σ.trace →
      Step c σ₀ g rest → g.server = v → g.before.term ≤ g.after.term → g.after.term = (σ.raft s).term →
      log.take (k + 1) <+: g.before.entries.log)
    (ih : ∀ d ∈ σ.trace, d.after.state = .primary → entry.term < d.after.term → d.after.term < (σ.raft s).term →
      log.take (k + 1) <+: d.after.entries.log) : log.take (k + 1) <+: (σ.raft s).entries.log := by
  have ho := hr.orderly ha
  obtain ⟨pv, resp, hsent, hsrc, hg, hrterm⟩ := hg
  obtain ⟨σg, g, restg, hrg, hgs, hstg, hpv⟩ := hr.sent hsent
  obtain ⟨q, rv, hvr, hi⟩ := hstg.vote_reply hrg hpv hg.rpc
  obtain ⟨-, hgsrc, -, hgsender⟩ := Event.mem_packets.mp hpv
  have hgr := hvr.grants hg.ok
  have hrv : rv.term = (σ.raft s).term := by rw [← hgr.term, ← hvr.term, hrterm]
  have hgterm : g.after.term = (σ.raft s).term := by rw [← hgsender, hgr.term, hrv]
  have hheld := hheld σg g restg hrg hgs hstg (hgsrc.symm.trans hsrc) ((hstg.since hrg).term) hgterm
  have hup := (ha.at hgs).voteUpToDate q (by rw [hi]; rfl) rv (Packet.mem_requestVote?.mpr hvr.rpc) hgr.passes
  have hqsrc : q.src = s := hvr.src.trans hg.dst
  have hcand := hr.candidate_log ho.applies q (hvr.sent.mono (past_suffix hgs)) rv hvr.rpc (by rw [hqsrc, hrv])
    (by rw [hrv]; exact hnone)
  rw [← hcand, hqsrc, hstg.before] at hup
  rw [hstg.before] at hheld
  have hog := ho.suffix (past_suffix hgs)
  have hgget : (σg.raft g.server).entries.log[k]? = some entry := by
    obtain ⟨tail, htail⟩ := hheld
    have hk := (List.getElem?_eq_some_iff.mp hget).1
    rw [← htail, List.getElem?_append_left (by rw [List.length_take]; omega),
      List.getElem?_take_of_lt (Nat.lt_succ_self k), hget]
  refine (hr.lines ho s).carries
    ((hrg.lines hog g.server).mono fun term => hr.primaryLog_mono ho.one (past_suffix hgs) term)
    hup hheld ((hrg.dated.1 g.server).last hgget) hdates (fun b hb hlater => ?_)
  have hble := (hr.dated.1 s).le b (List.mem_of_getLast? hb)
  rcases primaryLog_cases b.term σ.trace with ⟨hnil, -⟩ | ⟨d, _, hds, hdp, hdt, hdlog⟩
  · have hlast := (hr.lines ho s).last hb
    rw [hnil, List.prefix_nil] at hlast
    rw [hlast] at hb
    cases hb
  · have hdm := mem_of_suffix hds
    have hne := hnone d hdm hdp
    rw [hdlog]
    exact ih d hdm hdp (by omega) (by omega)

/-- Of the majority that held an entry of the primary's term, one elected the first
primary of a later term, and that primary has the entry if those between have it. -/
theorem Reachable.first_primary_holds (hr : Reachable c σ) (ha : Along Disciplined σ.trace) {past : List Event}
    (hs : e :: past <:+ σ.trace) (hd : Direct e k) {w : Event} {pastw : List Event} (hw : w :: pastw <:+ σ.trace)
    (hy : w.after.state = .primary) (hlt : e.after.term < w.after.term)
    (hfirst : ∀ d ∈ pastw, d.after.state = .primary → d.after.term ≠ w.after.term)
    (ih : ∀ d ∈ σ.trace, d.after.state = .primary → e.after.term < d.after.term → d.after.term < w.after.term →
      e.after.entries.log.take (k + 1) <+: d.after.entries.log) :
    e.after.entries.log.take (k + 1) <+: w.after.entries.log := by
  have ho := hr.orderly ha
  have hfresh : Along FreshReply σ.trace := ha.imp fun _ _ h => h.fresh
  obtain ⟨entry, hget, hown⟩ := hd.own
  obtain ⟨σe, reste, hre, rfl, hste⟩ := hr.at hs
  obtain ⟨σw, restw, hrw, rfl, hstw⟩ := hr.at hw
  obtain ⟨⟨Q, hQ, hvotes⟩, hterm, hlog⟩ := hstw.elected_first hrw hy hfirst
  obtain ⟨v, hve, hvw⟩ := (hste.holders_quorum hre hd.committed).meet hQ
  obtain ⟨a, hmem, rfl, haterm, htake⟩ := hste.holder_event hre (ho.suffix hs) hd.committed hve
  have ham : a ∈ σ.trace := hs.subset hmem
  -- the voter of both majorities keeps the entry until the election
  have hkeep : ∀ σ₀ : System SM, Reachable c σ₀ → σ₀.trace <:+ σw.trace → a ∈ σ₀.trace →
      (σ₀.raft a.server).term ≤ w.after.term →
      e.after.entries.log.take (k + 1) <+: (σ₀.raft a.server).entries.log := by
    intro σ₀ hr₀ hs₀ ha₀ hle
    have hs₁ := hs₀.trans (past_suffix hw)
    exact hr₀.holder_keeps (ho.suffix hs₁) (hfresh.suffix hs₁) ha₀ haterm htake hd hle
      (fun d hdm => hfirst d (hs₀.subset hdm)) fun d hdm => ih d (hs₁.subset hdm)
  have hwterm : (σw.raft w.server).term = w.after.term := by rw [← hstw.before, hterm]
  rw [hlog, hstw.before]
  by_cases hv : a.server = w.server
  · rw [← hv]
    exact hkeep σw hrw (List.suffix_refl _) (hr.earlier ham hw hv (by omega)) (by rw [hv]; omega)
  · -- and its vote passes the entry on
    refine hrw.grant_passes (ha.suffix (past_suffix hw)) (by rw [hwterm]; exact hvotes a.server hvw hv)
      (by rw [hwterm]; exact hfirst) hget ?_ ?_ ?_
    · rw [hown]
      exact fun b hb => (hr.dated.2 e (mem_of_suffix hs)).le b (List.mem_of_mem_take hb)
    · intro σg g restg hrg hgs hstg hgv hgle hgterm
      have hag : a ∈ σg.trace := hr.earlier ham (hgs.trans (past_suffix hw)) hgv.symm (by omega)
      have hbefore : g.before = σg.raft a.server := by rw [← hgv, hstg.before]
      rw [hbefore] at hgle ⊢
      exact hkeep σg hrg (past_suffix hgs) hag (by omega)
    · intro d hdm hdp hdlt hdle
      exact ih d ((past_suffix hw).subset hdm) hdp (by omega) (by omega)

theorem Reachable.log_after_first (hr : Reachable c σ) (hone : OnePrimary σ.trace) {w d : Event}
    {pastw : List Event} (hw : w :: pastw <:+ σ.trace) (hwp : w.after.state = .primary)
    (hfirst : ∀ d ∈ pastw, d.after.state = .primary → d.after.term ≠ w.after.term) (hd : d ∈ σ.trace)
    (hdp : d.after.state = .primary) (hterm : d.after.term = w.after.term) :
    w.after.entries.log <+: d.after.entries.log := by
  rcases before_or_after hw hd with hm | rfl | ⟨past, hs, hm⟩
  · exact absurd hterm (hfirst d hm hdp)
  · exact List.prefix_refl _
  · obtain ⟨σ₀, rest, hr₀, rfl, hst⟩ := hr.at hs
    have hsince := hr₀.since hm
    rw [hone w (mem_of_suffix hw) d hd hwp hdp hterm.symm, ← hst.before] at hsince
    exact (hsince.trans (hst.since hr₀)).log hterm.symm hwp

/-- **What a primary commits in its own term every later primary has.** -/
theorem Reachable.complete (hr : Reachable c σ) (ha : Along Disciplined σ.trace) {past : List Event}
    (hs : e :: past <:+ σ.trace) (hd : Direct e k) : ∀ (gap : Nat) (d : Event), d ∈ σ.trace →
      d.after.state = .primary → e.after.term < d.after.term → d.after.term ≤ e.after.term + gap →
      e.after.entries.log.take (k + 1) <+: d.after.entries.log := by
  intro gap
  induction gap with
  | zero => intro d _ _ hlt hle; omega
  | succ gap ih =>
    intro d hdm hdp hlt hle
    obtain ⟨w, pastw, hw, ⟨hwp, hwt⟩, hfirst⟩ :=
      exists_first (K := fun f => f.after.state = .primary ∧ f.after.term = d.after.term) ⟨d, hdm, hdp, rfl⟩
    have hfirst' : ∀ f ∈ pastw, f.after.state = .primary → f.after.term ≠ w.after.term :=
      fun f hf hp ht => hfirst f hf ⟨hp, ht.trans hwt⟩
    refine (hr.first_primary_holds ha hs hd hw hwp (by omega) hfirst' ?_).trans
      (hr.log_after_first (hr.orderly ha).one hw hwp hfirst' hdm hdp hwt.symm)
    exact fun f hf hp hflt hfgt => ih f hf hp hflt (by omega)

end Runs

end MyRaft
