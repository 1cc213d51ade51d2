/-
What a cluster has come to when nothing is in flight between its servers. A
term is on the way to whoever has not entered it, so at the end there is one;
and the last AE of a primary is in flight, or its reply is, or it was accepted:
at the end the follower has all that the primary thinks it has.
-/
import MyRaft.Silence

namespace MyRaft

open History
open StdLib (StdMap)
open RaftServer (Outcome CalledAll)

/-! ## Terms -/

theorem RaftServer.message_term_le {x y : RaftServer} (hn : x.configuration.Nodup) (hlo : 0 ≤ x.term) {p : Packet}
    (hserver : p.rpc.ofServer = true) (h : x.handle (.message p) = .ok y) : p.rpc.term ≤ y.term := by
  have hle : ∀ {input}, Outcome x input y → x.term ≤ y.term := fun hout => hout.term_le
  obtain ⟨src, dst, m, call, sender⟩ := p
  cases m with
  | requestVote rv =>
    rcases react2rv_ok h with ⟨hlt, rfl⟩ | ⟨hge, ⟨-, rfl⟩ | ⟨-, rfl | ⟨-, -, -, rfl⟩⟩⟩
    · exact Int.le_of_lt hlt
    all_goals exact Int.le_of_eq (heard_term _ hge).symm
  | appendEntry ae =>
    rcases react2ae_ok h with ⟨hlt, rfl⟩ | ⟨-, -, ⟨-, rfl⟩
      | ⟨-, ⟨-, rfl⟩ | ⟨-, es, smc, tasks, t, rfl, -, -, -, -, rfl⟩⟩⟩
    · exact Int.le_of_lt hlt
    all_goals exact Int.le_refl _
  | respVote resp =>
    have hy := hle (handle_outcome hn (fun q hq => by cases hq; exact hserver) h)
    change x.react2respRv resp = .ok y at h
    unfold react2respRv at h
    split at h
    · obtain ⟨-, rfl⟩ := trans2F_ok h
      exact Int.le_refl _
    · show resp.term ≤ y.term
      omega
  | respAppend resp =>
    have hy := hle (handle_outcome hn (fun q hq => by cases hq; exact hserver) h)
    rcases react2respAe_ok h with ⟨-, rfl⟩ | ⟨hlt, rfl⟩ | ⟨heq, -⟩
    · exact Int.le_refl _
    · exact Int.le_of_lt hlt
    · show resp.term ≤ y.term
      omega
  | clientApply | clientQuery => cases hserver
  | respClientApply | respClientQuery =>
    cases h
    exact hlo

namespace RaftServer

variable {x y : RaftServer} {input : Input} {a b : Addr} {rv : RequestVoteRpc} {ae : AppendEntryRpc}

theorem Outcome.one_kind (hx : x.effects = []) (h : Outcome x input y)
    (hrv : Effect.rpc a (.requestVote rv) ∈ y.effects) :
    Effect.rpc b (.appendEntry ae) ∉ y.effects := fun hae => by
  cases h with
  | campaigned hh hy | rvRetried hmin hy =>
    rcases CalledAll.sends hy hae with hm | ⟨-, he, -⟩
    · simp [hx] at hm
    · cases he
  | won hp hterm hstate hlsn hok hmajority hy | nacked hp hterm hstate hlsn hok hnext hw hy | aeRetried hmin hy =>
    exact hy.no_requestVote (by simp [hx]) hrv
  | acked hp hterm hstate hlsn hok ht hw hxs =>
    rcases hxs with ⟨-, -, rfl⟩ | ⟨-, hy⟩
    · exact ht.no_rpc hx hrv
    · exact hy.no_requestVote (fun hm => ht.no_rpc hx hm) hrv
  | aeAccepted hp hle hnp hlsn hpre ht hlog hcommit htasks => simp [hx, ht, htasks.not_rpc] at hrv
  | _ => simp [hx] at hrv

theorem react2ae_replies (h : x.react2ae ae = .ok y) (hle : x.term ≤ ae.term)
    (hlsn : (x.becomeFollower ae.term).followerRpcLsn.get ae.server < ae.lsn) :
    ∃ resp, Effect.rpc ae.server (.respAppend resp) ∈ y.effects ∧ resp.term = ae.term ∧ resp.lsn = ae.lsn ∧
      resp.server = x.server := by
  rcases react2ae_ok h with ⟨hlt, -⟩ | ⟨-, -, ⟨hignored, -⟩
    | ⟨-, ⟨-, rfl⟩ | ⟨-, es, smc, tasks, t, rfl, -, -, -, -, rfl⟩⟩⟩
  · omega
  · omega
  all_goals exact ⟨_, List.mem_append_right _ (List.mem_singleton.mpr rfl), rfl, rfl, rfl⟩

end RaftServer

/-- `s` is in the term or past it, or a message of it is on the way. -/
def Told {SM : Type} (σ : System SM) (t : Int) (s : Addr) : Prop :=
  t ≤ (σ.raft s).term ∨ ∃ p ∈ σ.inflight, p.dst = s ∧ t ≤ p.rpc.term

theorem Told.mono {SM : Type} {σ : System SM} {t t' : Int} {s : Addr} (h : Told σ t' s) (hle : t ≤ t') :
    Told σ t s := by
  rcases h with h | ⟨p, hp, hdst, h⟩
  · exact .inl (hle.trans h)
  · exact .inr ⟨p, hp, hdst, hle.trans h⟩

section Runs

variable {SM : Type} [StateMachine SM] {c : Cluster} {σ : System SM} {e : Event} {rest : List Packet}
  {p q : Packet}
  {resp : RespAppendEntryRpc} {ae : AppendEntryRpc} {P F s s' : Addr} {t t' : Int}

theorem Step.delivered_or_stays (h : Step c σ e rest) (hp : p ∈ σ.inflight) :
    e.input = .message p ∨ p ∈ (σ.next e rest).inflight := by
  have ho := h.offers
  generalize hi : e.input = input at ho
  cases ho with
  | message hin =>
    rw [hin, List.mem_append, List.mem_cons] at hp
    rcases hp with hp | rfl | hp
    · exact .inr (List.mem_append_left _ (List.mem_append_left _ hp))
    · exact .inl rfl
    · exact .inr (List.mem_append_left _ (List.mem_append_right _ hp))
  | _ => exact .inr (List.mem_append_left _ hp)

theorem Step.stays_of_ne (h : Step c σ e rest) (hp : p ∈ σ.inflight) (hne : p.dst ≠ e.server) :
    p ∈ (σ.next e rest).inflight := by
  refine (h.delivered_or_stays hp).resolve_left fun hi => hne ?_
  have ho := h.offers
  rw [hi] at ho
  exact ho.delivered.2

theorem Told.next (h : Told σ t s) (hr : Reachable c σ) (hst : Step c σ e rest) : Told (σ.next e rest) t s := by
  rcases h with h | ⟨p, hp, rfl, h⟩
  · exact .inl (h.trans (hst.since_next hr s).term)
  rcases hst.delivered_or_stays hp with hi | hstays
  · obtain ⟨hsent, hdst, -⟩ := hst.delivered hr hi
    have hlo := (hr.within.1 e.server).term_lo
    rw [← hst.before] at hlo
    have := RaftServer.message_term_le (hst.nodup_before hr) hlo (hr.wired.ofServer p hsent) (hst.reacts hi)
    left
    rw [hdst, System.raft_next_self]
    exact h.trans this
  · exact .inr ⟨p, hstays, rfl, h⟩

/-- The server of a step enters a term with an RV to the others, or by a message of the term. -/
theorem Step.enters (hr : Reachable c σ) (h : Step c σ e rest) : e.after.term = e.before.term ∨
    (∃ p, Sent σ.trace p ∧ e.after.term = p.rpc.term) ∨
    ∀ s ∈ c.configuration, s.port ≠ e.server.port → ∃ p ∈ e.packets, p.dst = s ∧ p.rpc.term = e.after.term := by
  have hout := h.outcome hr
  cases hi : e.input with
  | message p =>
    obtain ⟨hsent, -⟩ := h.delivered hr hi
    exact (RaftServer.message_term (h.nodup_before hr) (hr.wired.ofServer p hsent) (h.reacts hi)).imp_right
      fun hterm => .inl ⟨p, hsent, hterm⟩
  | timer handler =>
    rw [hi] at hout
    generalize hy : e.after = y at hout
    cases hout with
    | idle => exact .inl rfl
    | rvRetried hmin hrv =>
      obtain ⟨_, _, _, rfl⟩ := CalledAll.eq hrv
      exact .inl rfl
    | aeRetried hmin hae =>
      obtain ⟨_, _, _, rfl⟩ := hae.eq
      exact .inl rfl
    | campaigned hh hrvs =>
      obtain ⟨_, _, rfl⟩ := CalledAll.frame hrvs
      refine .inr (.inr fun s hs hport => ?_)
      have hk := h.known_before hr
      have hother : s ∈ e.before.others :=
        List.mem_filter.mpr ⟨by rw [hk.configuration]; exact hs, by rw [hk.server]; exact decide_eq_true hport⟩
      refine ⟨⟨e.server, s, .requestVote (e.before.becomeCandidate.rvTo s), e.input.call, e.after⟩,
        Event.mem_packets.mpr ⟨?_, rfl, rfl, rfl⟩, rfl, rfl⟩
      rw [Event.effects, hy]
      exact List.mem_append_right _ (List.mem_map.mpr ⟨s, hother, rfl⟩)
  | _ =>
    rw [hi] at hout
    generalize e.after = y at hout
    cases hout <;> exact .inl rfl

/-- **The term of a server has been entered by the others, or is on the way to them.** -/
theorem Reachable.told (hr : Reachable c σ) (hports : ∀ s ∈ c.configuration, ∀ s' ∈ c.configuration,
    s.port = s'.port → s = s') :
    ∀ s ∈ c.configuration, ∀ s' ∈ c.configuration, Told σ (σ.raft s).term s' := by
  refine hr.invariant (I := fun σ => ∀ s ∈ c.configuration, ∀ s' ∈ c.configuration, Told σ (σ.raft s).term s')
    (fun _ _ _ _ => .inl (Int.le_refl _)) ?_
  intro σ e rest hr h ih s hs s' hs'
  by_cases hse : s = e.server
  · subst hse
    rw [System.raft_next_self, RaftServer.taken_term]
    rcases h.enters hr with hterm | ⟨p, hsent, hterm⟩ | hrvs
    · rw [hterm, h.before]
      exact (ih e.server hs s' hs').next hr h
    · -- whoever sent the message has told the others
      exact ((ih p.src (hr.src_mem hsent) s' hs').mono (hterm ▸ hr.sent_term_le hsent)).next hr h
    · by_cases hne : s' = e.server
      · subst hne
        left
        rw [System.raft_next_self]
        exact Int.le_refl _
      · obtain ⟨p, hp, hdst, hterm⟩ := hrvs s' hs' fun hport => hne (hports s' hs' e.server hs hport)
        exact .inr ⟨p, List.mem_append_right _ hp, hdst, Int.le_of_eq hterm.symm⟩
  · rw [System.raft_next_ne hse]
    exact (ih s hs s' hs').next hr h

/-! ## The last AE -/

theorem Reachable.request_event (hr : Reachable c σ) {req : Request} (hp : Sent σ.trace p) (hq : Sent σ.trace q)
    (hreq : p.rpc.request? = some req) (hreq' : q.rpc.request? = some req) (hdst : q.dst = p.dst)
    (hmem : p.dst ∈ c.configuration) : ∃ d ∈ σ.trace, p ∈ d.packets ∧ q ∈ d.packets := by
  obtain ⟨d, hd, hpd⟩ := hp
  obtain ⟨d', hd', hqd⟩ := hq
  obtain ⟨past, hs⟩ := exists_past hd
  have hlsn := hr.duplicating.lsn_counts hs hpd hreq hmem
  rcases before_or_after hs hd' with hbefore | rfl | ⟨past', hs', hafter⟩
  · obtain ⟨past', hs'⟩ := exists_past hbefore
    have := (hr.duplicating.lsn_counts (hs'.trans (past_suffix hs)) hqd hreq' (hdst ▸ hmem)).2
    rw [hdst] at this
    have := callsIn_mono hs' req.server p.dst req.term
    omega
  · exact ⟨d', hd, hpd, hqd⟩
  · obtain ⟨pastd, hsd⟩ := exists_past hafter
    have := (hr.duplicating.lsn_counts (hsd.trans (past_suffix hs')) hpd hreq hmem).2
    have := (hr.duplicating.lsn_counts hs' hqd hreq' (hdst ▸ hmem)).1
    rw [hdst] at this
    have := callsIn_mono hsd req.server p.dst req.term
    omega

theorem Reachable.not_requestVote (hr : Reachable c σ) {req : Request} {rv : RequestVoteRpc} (hp : Sent σ.trace p)
    (hq : Sent σ.trace q) (hae : p.rpc = .appendEntry ae) (hreq : p.rpc.request? = some req)
    (hreq' : q.rpc.request? = some req) (hdst : q.dst = p.dst) (hmem : p.dst ∈ c.configuration) :
    q.rpc ≠ .requestVote rv := fun hrv => by
  obtain ⟨d, hd, hpd, hqd⟩ := hr.request_event hp hq hreq hreq' hdst hmem
  obtain ⟨σ₀, rest, hr₀, -, hst⟩ := hr.step_of_mem hd
  obtain ⟨hpe, -⟩ := Event.mem_packets.mp hpd
  obtain ⟨hqe, -⟩ := Event.mem_packets.mp hqd
  rw [hae] at hpe
  rw [hrv] at hqe
  exact (hst.outcome hr₀).one_kind (hst.idle hr₀) hqe hpe

/-- `q` is the last request of a primary to a server, and an AE. -/
structure LastAsked (σ : System SM) (q : Packet) (ae : AppendEntryRpc) : Prop where
  sent : Sent σ.trace q
  rpc : q.rpc = .appendEntry ae
  primary : (σ.raft q.src).state = .primary
  term : ae.term = (σ.raft q.src).term
  lsn : (σ.raft q.src).currentRpcLsn.get q.dst = ae.lsn + 1

/-- Where that AE is. -/
inductive Due (σ : System SM) (q : Packet) (ae : AppendEntryRpc) : Prop
  | passed (h : ae.term < (σ.raft q.dst).term)
  | asked (hq : q ∈ σ.inflight)
      (hlive : (σ.raft q.dst).term = ae.term → (σ.raft q.dst).followerRpcLsn.get q.src < ae.lsn)
  | replied {r reply} (hr : r ∈ σ.inflight) (ho : Outstanding σ r reply) (hsrc : r.src = q.dst)
    (hdst : r.dst = q.src)
  | settled (hterm : ae.term ≤ (σ.raft q.dst).term)
      (hstate : (σ.raft q.dst).term = ae.term → (σ.raft q.dst).state = .follower)
      (hlevel : Level q.dst (σ.raft q.src))

theorem LastAsked.before (hnow : LastAsked (σ.next e rest) q ae) (hr : Reachable c σ) (h : Step c σ e rest)
    (hq : Sent σ.trace q) : LastAsked σ q ae := by
  obtain ⟨n, hn⟩ := hr.ae_sent hq hnow.rpc
  have hsince := hr.since_sent hq
  have hstep := h.since_next hr q.src
  have hbuilt := hn.built.term
  have hterm := hnow.term
  have h1 := hsince.term
  have h2 := hstep.term
  have hl1 := hsince.lsn (by omega) q.dst
  have hl2 := hstep.lsn (by omega) q.dst
  have hlsn := hn.lsn
  have hlast := hnow.lsn
  exact ⟨hq, hnow.rpc, hsince.primary (by omega) hn.primary, by omega, by omega⟩

/-- It is sent: the receiver has heard nothing past it. -/
theorem LastAsked.due_now (hnow : LastAsked (σ.next e rest) q ae) (hr : Reachable c σ) (h : Step c σ e rest)
    (hq : q ∈ e.packets) (hmem : q.dst ∈ c.configuration) (hne : q.dst ≠ q.src) : Due (σ.next e rest) q ae := by
  obtain ⟨heffect, hsrc, -, hsender⟩ := Event.mem_packets.mp hq
  refine .asked (List.mem_append_right _ hq) fun hterm => ?_
  have hprimary := hnow.primary
  have hat := hnow.term
  have hlast := hnow.lsn
  rw [hsrc] at hne
  rw [hsrc, System.raft_next_self] at hprimary hat hlast
  rw [System.raft_next_ne hne] at hterm
  rw [System.raft_next_ne hne, hsrc]
  have hsame : e.after.term = e.before.term := by
    cases (h.outcome hr).leads hprimary with
    | same _ hterm | appended _ _ hterm | won _ _ _ _ _ _ _ hterm | acked _ _ _ _ _ _ hterm | nacked _ _ _ _ _ _ hterm =>
      exact hterm
  have hsends := h.sends hr hq
  rw [hnow.rpc] at hsends
  cases hsends with
  | appendEntry hb hlsn =>
    have hheard := hr.duplicating.heard_lt h.member q.dst hmem
    have hcounts := hr.duplicating.counts hmem e.server
    have := hlsn hsame
    have hte : (σ.raft q.dst).term = (σ.raft e.server).term := by
      rw [hterm, hat, RaftServer.taken_term, hsame, h.before]
    rw [hte] at hheard
    rw [← h.before] at hcounts hheard
    omega

/-- A reply that is still to be taken stays so while the primary calls nobody at that address. -/
theorem Outstanding.next (h : Outstanding σ p resp)
    (hsame : ((σ.next e rest).raft p.dst).state = (σ.raft p.dst).state)
    (hterm : ((σ.next e rest).raft p.dst).term = (σ.raft p.dst).term)
    (hlsn : ((σ.next e rest).raft p.dst).currentRpcLsn.get resp.server =
      (σ.raft p.dst).currentRpcLsn.get resp.server) :
    Outstanding (σ.next e rest) p resp :=
  ⟨Sent.cons.mpr (.inr h.sent), h.rpc, h.fresh, hsame.trans h.takes.state, h.takes.term.trans hterm.symm,
    hlsn.trans h.takes.lsn⟩

/-- The receiver handles it: the reply is on its way. -/
theorem LastAsked.due_replied (hl : LastAsked σ q ae) (hr : Reachable c σ) (hst : Step c σ e rest)
    (hF : q.dst = e.server) (hne : q.src ≠ q.dst) {ae' : AppendEntryRpc} (hi : e.input = .message p)
    (hp : p.rpc = .appendEntry ae') (hsrc : p.src = q.src) (hterm : ae'.term = ae.term)
    (hlsn : ae'.lsn = ae.lsn) (hle : (σ.raft q.dst).term ≤ ae.term)
    (hlive : (σ.raft q.dst).term = ae.term → (σ.raft q.dst).followerRpcLsn.get q.src < ae.lsn) :
    Due (σ.next e rest) q ae := by
  obtain ⟨hsent, -⟩ := hst.delivered hr hi
  obtain ⟨k, hk⟩ := hr.ae_sent hsent hp
  have hserver : ae'.server = q.src := hk.server.trans hsrc
  have hk := hst.known_before hr
  rw [hF, ← hst.before] at hle hlive
  have hreq : p.rpc.request? = some ⟨ae'.server, ae'.term, ae'.lsn⟩ := by rw [hp]; rfl
  have hfresh : (e.before.becomeFollower ae'.term).followerRpcLsn.get ae'.server < ae'.lsn := by
    by_cases hsame : e.before.term = ae.term
    · rw [RaftServer.followerRpcLsn_same (hterm.trans hsame.symm), hserver, hlsn]
      exact hlive hsame
    · have hpos : 0 ≤ ae'.lsn := (hr.duplicating.delivered hst hi hreq).2.2.1
      have hconf : q.src ∈ e.before.configuration := by
        rw [hk.configuration]
        exact hr.src_mem hl.sent
      rw [RaftServer.becomeFollower_followerRpcLsn, if_pos (by omega), StdMap.get_setAll, hserver, if_pos hconf]
      omega
  have hreact := hst.reacts hi
  rw [hp] at hreact
  change e.before.react2ae ae' = .ok e.after at hreact
  obtain ⟨reply, heffect, hrterm, hrlsn, hrserver⟩ := RaftServer.react2ae_replies hreact (by omega) hfresh
  have hmem : ⟨e.server, q.src, .respAppend reply, e.input.call, e.after⟩ ∈ e.packets :=
    Event.mem_packets.mpr ⟨hserver ▸ heffect, rfl, rfl, rfl⟩
  have hkept : (σ.next e rest).raft q.src = σ.raft q.src := System.raft_next_ne (hF ▸ hne)
  refine .replied (List.mem_append_right _ hmem) ⟨Sent.cons.mpr (.inl hmem), rfl, ?_, ?_, ?_, ?_⟩ hF.symm rfl
  · simp [answersTerm, hi, Input.call, hp, hrterm]
  · exact hkept ▸ hl.primary
  · show reply.term = ((σ.next e rest).raft q.src).term
    rw [hkept, hrterm, hterm, hl.term]
  · show ((σ.next e rest).raft q.src).currentRpcLsn.get reply.server = reply.lsn + 1
    rw [hkept, hrserver, hk.server, ← hF, hl.lsn, hrlsn, hlsn]

/-- A step of the receiver, which answers the AE if it is the one it handles. -/
theorem Due.next_follower (h : Due σ q ae) (hl : LastAsked σ q ae) (hr : Reachable c σ) (hst : Step c σ e rest)
    (hF : q.dst = e.server) (hne : q.src ≠ q.dst) : Due (σ.next e rest) q ae := by
  have hP : q.src ≠ e.server := hF ▸ hne
  have hPkept : (σ.next e rest).raft q.src = σ.raft q.src := System.raft_next_ne hP
  have hsince := hst.since_next hr q.dst
  have hle := hsince.term
  cases h with
  | passed h => exact .passed (by omega)
  | settled hterm hstate hlevel =>
    refine .settled (by omega) (fun hsame => ?_) (by rwa [hPkept])
    exact hsince.follower (by omega) (hstate (by omega))
  | @replied r reply hin ho hsrc hdst =>
    rw [← hdst] at hP hPkept
    exact .replied (hst.stays_of_ne hin hP) (ho.next (by rw [hPkept]) (by rw [hPkept]) (by rw [hPkept])) hsrc hdst
  | asked hq hlive =>
    by_cases hlt : ae.term < ((σ.next e rest).raft q.dst).term
    · exact .passed hlt
    obtain ⟨n, hn⟩ := hr.ae_sent hl.sent hl.rpc
    have hserver := hn.server
    have hreq : q.rpc.request? = some ⟨q.src, ae.term, ae.lsn⟩ := by rw [hl.rpc, ← hserver]; rfl
    by_cases hdel : ∃ p ae', e.input = .message p ∧ p.rpc = .appendEntry ae' ∧ p.src = q.src ∧ ae'.term = ae.term ∧
        ae'.lsn = ae.lsn
    · obtain ⟨p, ae', hi, hp, hsrc, hterm, hlsn⟩ := hdel
      exact hl.due_replied hr hst hF hne hi hp hsrc hterm hlsn (by omega) hlive
    · refine .asked ((hst.delivered_or_stays hq).resolve_left fun hi => hdel ⟨q, ae, hi, hl.rpc, rfl, rfl, rfl⟩)
        fun hsame => ?_
      rw [hF] at hlive
      rw [hF, System.raft_next_self, RaftServer.taken_term] at hsame
      rw [hF, System.raft_next_self, RaftServer.taken_followerRpcLsn]
      have hconf : q.src ∈ e.before.configuration := by
        rw [(hst.known_before hr).configuration]
        exact hr.src_mem hl.sent
      rcases (hst.outcome hr).heard hconf with hheard | ⟨p, req, hi, hreq', hfrom, hterm, hheard⟩
      · rw [hheard]
        split
        · rw [hst.before]
          exact hlive (by rw [← hst.before]; omega)
        · obtain ⟨d, hd, hqd⟩ := hl.sent
          obtain ⟨past, hs⟩ := exists_past hd
          have hlo : _ ≤ ae.lsn := (hr.duplicating.lsn_counts hs hqd hreq (hF ▸ hst.member)).1
          omega
      · -- a request of the primary, sent before the AE
        obtain ⟨-, ⟨d, hd, hpd, hfrom'⟩, -, hcount⟩ := hr.duplicating.delivered hst hi hreq'
        have hsrc : p.src = q.src := by rw [(Event.mem_packets.mp hpd).2.1, ← hfrom', hfrom]
        have hcounts := hr.duplicating.counts hst.member q.src
        have hlast := hl.lsn
        rw [hF, hcounts] at hlast
        rw [hfrom, hterm, hsame, hl.term] at hcount
        rw [hheard]
        by_contra hge
        have hsame' : (⟨q.src, ae.term, ae.lsn⟩ : Request) = req := by
          obtain ⟨reqServer, reqTerm, reqLsn⟩ := req
          simp only [Request.mk.injEq]
          exact ⟨hfrom.symm, (hterm.trans hsame).symm, by simp only at hge hcount; omega⟩
        subst hsame'
        obtain ⟨hsent, hdst, -⟩ := hst.delivered hr hi
        cases hp : p.rpc with
        | requestVote rv =>
          exact hr.not_requestVote hl.sent hsent hl.rpc hreq hreq' (hdst.trans hF.symm) (hF ▸ hst.member) hp
        | appendEntry ae' =>
          rw [hp] at hreq'
          simp only [Rpc.request?, Option.some.injEq, Request.mk.injEq] at hreq'
          exact hdel ⟨p, ae', hi, hp, hsrc, hreq'.2.1, hreq'.2.2⟩
        | _ => rw [hp] at hreq'; cases hreq'

/-- The primary takes the reply and sends nothing more: the follower accepted where the table ends. -/
theorem LastAsked.due_settled (hnow : LastAsked (σ.next e rest) q ae) (hl : LastAsked σ q ae) (hr : Reachable c σ)
    (hst : Step c σ e rest) (hP : q.src = e.server) (hne : q.dst ≠ e.server) (ho : Outstanding σ p resp)
    (hsrc : p.src = q.dst) (hdst : p.dst = q.src) (hi : e.input = .message p) : Due (σ.next e rest) q ae := by
  obtain ⟨_, _, _, hreply⟩ := hr.ae_reply ho.sent ho.rpc
  have hserver : resp.server = q.dst := hreply.server.trans hsrc
  have ht := ho.takes
  rw [hdst, hP, ← hst.before] at ht
  have hreact := hst.reacts_respAe hi ho.rpc
  have hlast := hl.lsn
  have hlast' := hnow.lsn
  have hterm := hl.term
  rw [hP, ← hst.before] at hlast hterm
  rw [hP, System.raft_next_self, RaftServer.taken_currentRpcLsn] at hlast'
  have hrterm := ht.term
  rcases RaftServer.react2respAe_messages (hst.idle hr) ht hreact with ⟨-, hok⟩ | ⟨ae', n, -, hsent, -⟩
  · obtain ⟨hnext, hsaved⟩ := (RaftServer.react2respAe_took ht hreact).acked hok
    obtain ⟨hle, -⟩ := hr.reply_recorded ho.sent ho.rpc ho.fresh
    obtain ⟨_, _, _, _, -, -, -, hfollower, hsender, -⟩ := ho.answered hr
    have hsince := hr.since_sent ho.sent
    rw [hsrc] at hle hsince
    rw [hserver] at hnext hsaved
    refine .settled ?_ (fun hsame => ?_) ?_
    · rw [System.raft_next_ne hne]
      omega
    · rw [System.raft_next_ne hne] at hsame ⊢
      exact hsince.follower (by omega) hfollower
    · rw [hP, System.raft_next_self]
      show e.after.followerSavedIndex.get q.dst + 1 = e.after.nextIndex.get q.dst
      rw [hnext, hsaved]
  · -- the AE would have the next lsn
    exfalso
    have hmem : ⟨e.server, q.dst, .appendEntry ae', e.input.call, e.after⟩ ∈ e.packets := by
      rw [e.packets_eq, hsent, ← hserver]
      exact List.mem_singleton.mpr rfl
    have hsends := hst.sends hr hmem
    have hsame : e.after.term = e.before.term := by
      have := hnow.term
      rw [hP, System.raft_next_self, RaftServer.taken_term] at this
      omega
    cases hsends with
    | appendEntry hb hlsn hcur =>
      have := hlsn hsame
      dsimp only at this hcur
      omega

/-- A primary that calls nobody at that address leaves its tables, or counts the reply of the follower. -/
theorem Step.level_next (hr : Reachable c σ) (h : Step c σ e rest) (hx : e.before.state = .primary)
    (hy : e.after.state = .primary) (hne : F ≠ e.server)
    (hlsn : e.after.currentRpcLsn.get F = e.before.currentRpcLsn.get F)
    (hlevel : Level F e.before) : Level F e.after := by
  have hkept : e.after.nextIndex.get F = e.before.nextIndex.get F →
      e.after.followerSavedIndex.get F = e.before.followerSavedIndex.get F → Level F e.after :=
      fun hnext hsaved => by
    unfold Level at hlevel ⊢
    rw [hnext, hsaved, hlevel]
  cases (h.outcome hr).leads hy with
  | same _ _ _ hnext hsaved => exact hkept (by rw [hnext]) (by rw [hsaved])
  | appended _ _ _ _ hnext hsaved =>
    refine hkept (by rw [hnext]) ?_
    rw [hsaved, (h.known_before hr).server, StdMap.get_set_ne _ _ hne]
  | won _ _ hc =>
    rw [hx] at hc
    cases hc
  | @acked p resp _ _ _ _ _ _ _ _ _ hnext _ hsaved =>
    have hnextF := hnext F
    have hsavedF := congrArg (·.get F) hsaved
    rw [RaftServer.counting, RaftServer.saved_followerSavedIndex, StdMap.get_set] at hsavedF
    by_cases hF : F = resp.server
    · rw [if_pos hF] at hnextF hsavedF
      unfold Level
      rw [hnextF, hsavedF, hF]
    · rw [if_neg hF] at hnextF hsavedF
      exact hkept hnextF hsavedF
  | @nacked p resp _ _ _ _ _ _ _ _ _ hnext hsent hsaved =>
    have hnextF := hnext F
    by_cases hF : F = resp.server
    · rw [← hF] at hsent
      omega
    · rw [if_neg hF] at hnextF
      exact hkept hnextF (by rw [hsaved])

theorem Due.next_primary (h : Due σ q ae) (hnow : LastAsked (σ.next e rest) q ae) (hl : LastAsked σ q ae)
    (hr : Reachable c σ) (hst : Step c σ e rest) (hP : q.src = e.server) (hne : q.dst ≠ e.server) :
    Due (σ.next e rest) q ae := by
  have hkept : (σ.next e rest).raft q.dst = σ.raft q.dst := System.raft_next_ne hne
  cases h with
  | passed h => exact .passed (hkept ▸ h)
  | asked hq hlive => exact .asked (hst.stays_of_ne hq hne) (by rwa [hkept])
  | @replied r reply hin ho hsrc hdst =>
    rcases hst.delivered_or_stays hin with hi | hstays
    · exact hnow.due_settled hl hr hst hP hne ho hsrc hdst hi
    · obtain ⟨_, _, _, hreply⟩ := hr.ae_reply ho.sent ho.rpc
      refine .replied hstays (ho.next ?_ ?_ ?_) hsrc hdst
      · rw [hdst, hnow.primary, hl.primary]
      · rw [hdst, ← hnow.term, ← hl.term]
      · rw [hdst, hreply.server, hsrc, hnow.lsn, hl.lsn]
  | settled hterm hstate hlevel =>
    refine .settled (by rwa [hkept]) (by rwa [hkept]) ?_
    have hx := hl.primary
    have hy := hnow.primary
    have hlsn := hnow.lsn.trans hl.lsn.symm
    rw [hP, ← hst.before] at hx hlevel hlsn
    rw [hP, System.raft_next_self] at hy ⊢
    rw [System.raft_next_self] at hlsn
    exact hst.level_next hr hx hy hne hlsn hlevel

theorem Due.next_other (h : Due σ q ae) (hst : Step c σ e rest) (hP : q.src ≠ e.server) (hne : q.dst ≠ e.server) :
    Due (σ.next e rest) q ae := by
  have hPkept : (σ.next e rest).raft q.src = σ.raft q.src := System.raft_next_ne hP
  have hkept : (σ.next e rest).raft q.dst = σ.raft q.dst := System.raft_next_ne hne
  cases h with
  | passed h => exact .passed (hkept ▸ h)
  | asked hq hlive => exact .asked (hst.stays_of_ne hq hne) (by rwa [hkept])
  | @replied r reply hin ho hsrc hdst =>
    rw [← hdst] at hP hPkept
    exact .replied (hst.stays_of_ne hin hP) (ho.next (by rw [hPkept]) (by rw [hPkept]) (by rw [hPkept])) hsrc hdst
  | settled hterm hstate hlevel => exact .settled (by rwa [hkept]) (by rwa [hkept]) (by rwa [hPkept])

/-- **The last AE of a primary is in flight, or its reply is, or it was
accepted, or its receiver has moved on.** -/
theorem Reachable.due (hr : Reachable c σ) : ∀ q ae, LastAsked σ q ae → q.dst ∈ c.configuration → q.dst ≠ q.src →
    Due σ q ae := by
  refine hr.invariant (I := fun σ => ∀ q ae, LastAsked σ q ae → q.dst ∈ c.configuration → q.dst ≠ q.src →
    Due σ q ae)
    (fun q ae h => ?_) ?_
  · obtain ⟨d, hd, -⟩ := h.sent
    cases hd
  intro σ e rest hr h ih q ae hnow hmem hne
  rcases Sent.cons.mp hnow.sent with hq | hq
  · exact hnow.due_now hr h hq hmem hne
  have hl := hnow.before hr h hq
  have hdue := ih q ae hl hmem hne
  by_cases hP : q.src = e.server
  · exact hdue.next_primary hnow hl hr h hP (hP ▸ hne)
  by_cases hF : q.dst = e.server
  · exact hdue.next_follower hl hr h hF (Ne.symm hne)
  · exact hdue.next_other h hP hF

/-! ## Commit indexes -/

theorem Reachable.own_saved (hr : Reachable c σ) : ∀ P ∈ c.configuration, (σ.raft P).state = .primary →
    (σ.raft P).followerSavedIndex.get P = ((σ.raft P).entries.log.length : Int) - 1 := by
  refine hr.invariant (I := fun σ => ∀ P ∈ c.configuration, (σ.raft P).state = .primary →
    (σ.raft P).followerSavedIndex.get P = ((σ.raft P).entries.log.length : Int) - 1) (fun P _ hP => by cases hP) ?_
  intro σ e rest hr h ih P hmem hP
  by_cases hPe : P = e.server
  · subst hPe
    rw [System.raft_next_self] at hP ⊢
    have ih := ih e.server hmem
    rw [← h.before] at ih
    have hk := h.known_before hr
    show e.after.followerSavedIndex.get e.server = (e.after.entries.log.length : Int) - 1
    cases (h.outcome hr).leads hP with
    | same hx _ hlog _ hsaved | nacked _ _ hx _ _ _ _ hlog _ _ _ hsaved => rw [hsaved, hlog, ih hx]
    | appended _ _ _ hlog _ hsaved =>
      rw [hsaved, hlog, hk.server, StdMap.get_set_self, List.length_append, List.length_singleton]
      omega
    | won _ _ _ _ _ _ _ _ hlog _ hsaved => rw [hsaved _ (by rwa [hk.configuration]), hk.server, if_pos rfl, hlog]
    | @acked p resp hi hp hx hterm hlsn hok _ hlog _ _ _ hsaved =>
      -- no primary replies to itself
      obtain ⟨hsent, -⟩ := h.delivered hr hi
      obtain ⟨hout, hdst, hsrc⟩ := h.takes_outstanding hr hi hp ⟨hx, hterm, hlsn⟩ (hr.ok_fresh hsent hp hok)
      have hne : e.server ≠ resp.server := fun he => hout.ne hr (by rw [hsrc, hdst, he])
      rw [hsaved, hlog, RaftServer.counting, RaftServer.saved_followerSavedIndex, StdMap.get_set_ne _ _ hne, ih hx]
  · rw [System.raft_next_ne hPe] at hP ⊢
    exact ih P hmem hP

theorem RaftServer.not_majorityHolds {x : RaftServer} {k : Int} (hk : Known c P x)
    (hlen : 2 ≤ c.configuration.length) (h : ∀ z ∈ c.configuration, z ≠ P → x.followerSavedIndex.get z < k) :
    ¬ x.MajorityHolds k := fun hholds => by
  unfold RaftServer.MajorityHolds at hholds
  rw [hk.majority, hk.configuration] at hholds
  have hone : (c.configuration.countP fun z => decide (k ≤ x.followerSavedIndex.get z)) ≤
      c.configuration.count P :=
    List.countP_mono_left fun z hz hle => by
      rw [beq_iff_eq]
      by_contra hne
      have := h z hz hne
      have := of_decide_eq_true hle
      omega
  have := List.nodup_iff_count_le_one.mp c.nodup P
  omega

/-- **A primary has committed what a majority has on record.** -/
theorem Reachable.held_committed (hr : Reachable c σ) (hlen : 2 ≤ c.configuration.length) :
    ∀ P ∈ c.configuration, (σ.raft P).state = .primary → ∀ k, (σ.raft P).MajorityHolds k →
    k ≤ (σ.raft P).commitIndex := by
  refine hr.invariant (I := fun σ => ∀ P ∈ c.configuration, (σ.raft P).state = .primary → ∀ k,
    (σ.raft P).MajorityHolds k → k ≤ (σ.raft P).commitIndex) (fun P _ hP => by cases hP) ?_
  intro σ e rest hr h ih P hmem hP k hholds
  by_cases hPe : P = e.server
  · subst hPe
    rw [System.raft_next_self] at hP hholds ⊢
    change e.after.MajorityHolds k at hholds
    show k ≤ e.after.commitIndex
    have hk := h.known_before hr
    have hafter := h.known hr
    have hranges := h.ranges_before hr
    have hown := hr.own_saved e.server hmem
    have ih := ih e.server hmem
    rw [← h.before] at ih hown
    have hsame : ∀ hx : e.before.state = .primary, e.after.followerSavedIndex = e.before.followerSavedIndex →
        e.after.commitIndex = e.before.commitIndex → k ≤ e.after.commitIndex := fun hx hsaved hcommit => by
      rw [hcommit]
      refine ih hx k ?_
      unfold RaftServer.MajorityHolds at hholds ⊢
      rwa [hafter.majority, hafter.configuration, hsaved, ← hk.majority, ← hk.configuration] at hholds
    cases (h.outcome hr).leads hP with
    | same hx _ _ _ hsaved hcommit | nacked _ _ hx _ _ _ _ _ _ _ _ hsaved hcommit => exact hsame hx hsaved hcommit
    | appended _ hx _ hlog _ hsaved hcommit =>
      by_cases hlt : k < e.before.entries.log.length
      · -- the primary counted for it before
        rw [hcommit]
        refine ih hx k ?_
        unfold RaftServer.MajorityHolds at hholds ⊢
        rw [hafter.majority, hafter.configuration] at hholds
        rw [hk.majority, hk.configuration]
        refine hholds.trans (Int.ofNat_le.mpr (List.countP_mono_left fun z _ hz => decide_eq_true ?_))
        have hz := of_decide_eq_true hz
        rw [hsaved, hk.server, StdMap.get_set] at hz
        split at hz
        · rename_i heq
          rw [heq, hown hx]
          omega
        · exact hz
      · refine absurd hholds (RaftServer.not_majorityHolds hafter hlen fun z hz hne => ?_)
        rw [hsaved, hk.server, StdMap.get_set_ne _ _ hne]
        have := (hranges.saved hx z hz).2
        omega
    | won _ _ _ _ _ _ _ _ _ _ hsaved hcommit =>
      by_cases hlt : k < 0
      · have := hranges.commit_lo
        omega
      · refine absurd hholds (RaftServer.not_majorityHolds hafter hlen fun z hz hne => ?_)
        rw [hsaved z (by rwa [hk.configuration]), hk.server, if_neg hne]
        omega
    | @acked p resp _ _ _ _ _ _ _ _ _ _ _ hsaved hcommit =>
      -- the index is that of the table it leaves
      have hcounting : Known c e.server (e.before.counting resp.server resp) :=
        ⟨hk.server, hk.configuration, hk.majority⟩
      have hkeys := (h.ranges hr hranges).keys
      rw [hsaved] at hkeys
      rw [hcommit, hcounting.le_majorityIndex_iff hmem hkeys]
      unfold RaftServer.MajorityHolds at hholds ⊢
      rwa [hafter.majority, hafter.configuration, hsaved, ← hcounting.majority, ← hcounting.configuration]
        at hholds
  · rw [System.raft_next_ne hPe] at hP hholds ⊢
    exact ih P hmem hP k hholds

/-! ## Silence -/

/-- Nothing is in flight between the servers; a message that was lost would be. -/
def Silent (σ : System SM) : Prop := ∀ p ∈ σ.inflight, p.rpc.toClient = 1

theorem Silent.term_le (hquiet : Silent σ) (hr : Reachable c σ) (h : Told σ t s) : t ≤ (σ.raft s).term := by
  rcases h with h | ⟨p, hp, -, h⟩
  · exact h
  · -- a message to a client brings no term
    have hzero : p.rpc.term = 0 := by
      have := hquiet p hp
      cases hm : p.rpc with
      | respClientApply | respClientQuery => rfl
      | _ => rw [hm] at this; cases this
    have := (hr.within.1 s).term_lo
    omega

omit [StateMachine SM] in
/-- In its term, the receiver of an AE has accepted it once neither it nor its reply is in flight. -/
theorem Silent.settled (hquiet : Silent σ) (hl : LastAsked σ q ae) (h : Due σ q ae)
    (hsame : (σ.raft q.dst).term = ae.term) :
    (σ.raft q.dst).state = .follower ∧ Level q.dst (σ.raft q.src) := by
  cases h with
  | passed h => omega
  | asked hq =>
    have := hquiet q hq
    rw [hl.rpc] at this
    cases this
  | replied hin ho =>
    have := hquiet _ hin
    rw [ho.rpc] at this
    cases this
  | settled _ hstate hlevel => exact ⟨hstate hsame, hlevel⟩

/-- **In silence all servers are in one term, and a follower has what its primary thinks it has.** Of each server
that a primary called last with an AE: it follows, it has the log of the primary up to `nextIndex_`, and that is
where what is on record for it ends. What a majority has on record is committed. -/
theorem silent_settled (hr : Reachable c σ) (hone : OnePrimary σ.trace) (happly : Along ApplyAtPrimary σ.trace)
    (hports : ∀ s ∈ c.configuration, ∀ s' ∈ c.configuration, s.port = s'.port → s = s')
    (hlen : 2 ≤ c.configuration.length) (hquiet : Silent σ) :
    (∀ s ∈ c.configuration, ∀ s' ∈ c.configuration, (σ.raft s).term = (σ.raft s').term) ∧
    (∀ P ∈ c.configuration, (σ.raft P).state = .primary → ∀ k, (σ.raft P).MajorityHolds k →
    k ≤ (σ.raft P).commitIndex) ∧
    ∀ q ae, LastAsked σ q ae → q.dst ∈ c.configuration → q.dst ≠ q.src →
      (σ.raft q.dst).state = .follower ∧
      (σ.raft q.src).followerSavedIndex.get q.dst + 1 = (σ.raft q.src).nextIndex.get q.dst ∧
      (σ.raft q.src).entries.log.take ((σ.raft q.src).nextIndex.get q.dst).toNat <+:
      (σ.raft q.dst).entries.log := by
  have hle : ∀ s ∈ c.configuration, ∀ s' ∈ c.configuration, (σ.raft s).term ≤ (σ.raft s').term :=
      fun s hs s' hs' =>
    hquiet.term_le hr (hr.told hports s hs s' hs')
  have hterms : ∀ s ∈ c.configuration, ∀ s' ∈ c.configuration, (σ.raft s).term = (σ.raft s').term :=
      fun s hs s' hs' =>
    Int.le_antisymm (hle s hs s' hs') (hle s' hs' s hs)
  refine ⟨hterms, hr.held_committed hlen, fun q ae hl hmem hne => ?_⟩
  have hsame := hterms q.dst hmem q.src (hr.src_mem hl.sent)
  obtain ⟨hstate, hlevel⟩ := hquiet.settled hl (hr.due q ae hl hmem hne) (hsame.trans hl.term.symm)
  refine ⟨hstate, hlevel, ?_⟩
  have hnext := (hr.ranges q.src).next hl.primary q.dst hmem
  cases hn : ((σ.raft q.src).nextIndex.get q.dst).toNat with
  | zero => simp
  | succ v =>
    have hv : (σ.raft q.src).followerSavedIndex.get q.dst = v := by
      unfold Level at hlevel
      omega
    exact ((hr.recorded ⟨hone, happly⟩ q.src hl.primary q.dst hmem hne v hv).2 (by omega)).held hsame

end Runs

/-- B and C have the entry of A, and have said so. -/
def settleX : List Action := copyX ++ List.replicate 11 (.deliver 0)

theorem settleX_settled : ∃ σ : System Unit, (σ.raft serverA).entries.log.length = 1 ∧
    (σ.raft serverA).term = (σ.raft serverC).term ∧ 0 ≤ (σ.raft serverA).commitIndex ∧
    (σ.raft serverC).state = .follower ∧ (σ.raft serverA).entries.log.take 1 <+: (σ.raft serverC).entries.log := by
  obtain ⟨σ, hr, ho, hquiet, hlength, hstate, hholds, hnext, e, he, q, hq, ae, hae, hsrc, hdst, hterm, hlsn⟩ :=
    System.exists_reachable threeServers settleX
      (P := fun σ : System Unit => (OnePrimary σ.trace ∧ Along ApplyAtPrimary σ.trace) ∧
        (∀ p ∈ σ.inflight, p.rpc.toClient = 1) ∧ (σ.raft serverA).entries.log.length = 1 ∧
        (σ.raft serverA).state = .primary ∧ (σ.raft serverA).MajorityHolds 0 ∧
        (σ.raft serverA).nextIndex.get serverC = 1 ∧
        ∃ e ∈ σ.trace, ∃ q ∈ e.packets, ∃ ae ∈ q.appendEntry?, q.src = serverA ∧ q.dst = serverC ∧
          ae.term = (σ.raft serverA).term ∧ (σ.raft serverA).currentRpcLsn.get serverC = ae.lsn + 1)
    (by decide +kernel)
  have hl : LastAsked σ q ae :=
    ⟨⟨e, he, hq⟩, Packet.mem_appendEntry?.mp hae, by rw [hsrc]; exact hstate, by rw [hsrc]; exact hterm,
      by rw [hsrc, hdst]; exact hlsn⟩
  obtain ⟨hterms, hcommit, hlast⟩ := silent_settled hr ho.1 ho.2 (by decide) (by decide) hquiet
  obtain ⟨hfollower, -, hlog⟩ := hlast q ae hl (by rw [hdst]; decide) (by rw [hsrc, hdst]; decide)
  rw [hsrc, hdst, hnext] at hlog
  rw [hdst] at hfollower
  exact ⟨σ, hlength, hterms _ (by decide) _ (by decide), hcommit _ (by decide) hstate 0 hholds, hfollower, hlog⟩

end MyRaft
