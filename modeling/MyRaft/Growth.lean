/-
How far the numbers of a run can get. A handler moves a counter up by one at
most, or to what a message brings, and the message was sent by a server of the
run: after n events no term, index or lsn is past n, and none is below -1.

`rpc.proto` has an `int32` for each, so the numbers of a run of fewer than 2^31
events are what is read back from the network.
-/
import MyRaft.Origins
import MyRaft.Indexes
import MyRaft.Duplicates

namespace MyRaft

open History
open StdLib (StdMap)
open RaftServer (Outcome LogMove CalledAll SentAes SentRvs AcceptedLog BuiltAe Sends)

/-- `v` is a number of a run of `n` events. -/
def Counted (n : Nat) (v : Int) : Prop := -1 ≤ v ∧ v ≤ n

theorem Counted.mono {n m : Nat} {v : Int} (h : Counted n v) (hle : n ≤ m) : Counted m v := by
  unfold Counted at h ⊢
  omega

/-- The term, the length of the log and the lsns of a server are those of a run of `n` events. -/
structure Within (n : Nat) (x : RaftServer) : Prop where
  term_lo : 0 ≤ x.term
  term : x.term ≤ n
  log : x.entries.log.length ≤ n
  lsn_lo : ∀ z, 0 ≤ x.currentRpcLsn.get z
  lsn : ∀ z, x.currentRpcLsn.get z ≤ n

theorem Within.mono {n m : Nat} {x : RaftServer} (h : Within n x) (hle : n ≤ m) : Within m x where
  term_lo := h.term_lo
  term := by have := h.term; omega
  log := Nat.le_trans h.log hle
  lsn_lo := h.lsn_lo
  lsn := fun z => by have := h.lsn z; omega

theorem Within.taken {n : Nat} {x : RaftServer} (h : Within n x) : Within n x.taken :=
  ⟨h.term_lo, h.term, h.log, h.lsn_lo, h.lsn⟩

/-- The term a message of a server speaks of. -/
def Rpc.term : Rpc → Int
  | .requestVote rv => rv.term
  | .appendEntry ae => ae.term
  | .respVote resp => resp.term
  | .respAppend resp => resp.term
  | .clientApply _ | .clientQuery _ | .respClientApply _ | .respClientQuery _ => 0

/-! ## One handler -/

namespace RaftServer

variable {x y : RaftServer} {input : Input}

theorem react2respRv_term (hn : x.configuration.Nodup) {resp : RespRequestVoteRpc}
    (h : x.react2respRv resp = .ok y) :
    y.term = x.term ∨ y.term = resp.term := by
  unfold react2respRv at h
  split at h
  · obtain ⟨-, rfl⟩ := trans2F_ok h
    exact .inr rfl
  · split at h
    · cases h
      exact .inl rfl
    · split at h
      · rcases candidateDealRespRvWithSameTerm_ok h with rfl | ⟨-, -, ⟨-, h⟩ | ⟨-, rfl⟩⟩
        · exact .inl rfl
        · obtain ⟨_, -, hcalled⟩ := trans2P_ok (s := { x with winnedVotes := x.winnedVotes + 1 }) hn h
          obtain ⟨_, _, _, rfl⟩ := hcalled.eq
          exact .inl rfl
        · exact .inl rfl
      · cases h
        exact .inl rfl

theorem react2respAe_term {resp : RespAppendEntryRpc} (h : x.react2respAe resp = .ok y) :
    y.term = x.term ∨ y.term = resp.term := by
  rcases react2respAe_ok h with ⟨-, rfl⟩ | ⟨-, rfl⟩ | ⟨-, -, h⟩
  · exact .inr rfl
  · exact .inl rfl
  · rcases h with ⟨-, rfl⟩ | ⟨-, ⟨-, t, ht, hsent⟩ | ⟨-, -, timer, -, hsent⟩⟩
    · exact .inl rfl
    · obtain ⟨_, tasks, -, -, rfl⟩ := ht.frame
      rcases hsent with ⟨-, rfl⟩ | ⟨-, timer, -, hsent⟩
      · exact .inl rfl
      · obtain ⟨_, _, _, rfl⟩ := hsent.eq
        exact .inl rfl
    · obtain ⟨_, _, _, rfl⟩ := hsent.eq
      exact .inl rfl

theorem react2rv_term {rv : RequestVoteRpc} (h : x.react2rv rv = .ok y) : y.term = x.term ∨ y.term = rv.term := by
  rcases react2rv_ok h with ⟨-, rfl⟩ | ⟨hle, ⟨-, rfl⟩ | ⟨-, rfl | ⟨-, -, -, rfl⟩⟩⟩
  · exact .inl rfl
  all_goals exact .inr (heard_term _ hle)

theorem react2ae_term {ae : AppendEntryRpc} (h : x.react2ae ae = .ok y) : y.term = x.term ∨ y.term = ae.term := by
  rcases react2ae_ok h with ⟨-, rfl⟩ | ⟨-, -, ⟨-, rfl⟩
    | ⟨-, ⟨-, rfl⟩ | ⟨-, es, smc, tasks, t, ht, -, -, -, -, rfl⟩⟩⟩
  · exact .inl rfl
  · exact .inr rfl
  · exact .inr rfl
  · exact .inr (by simp [ht])

/-- A message leaves the term or brings its own. -/
theorem message_term (hn : x.configuration.Nodup) {p : Packet} (hserver : p.rpc.ofServer = true)
    (h : x.handle (.message p) = .ok y) : y.term = x.term ∨ y.term = p.rpc.term := by
  obtain ⟨src, dst, m, call, sender⟩ := p
  cases m with
  | requestVote rv => exact react2rv_term h
  | appendEntry ae => exact react2ae_term h
  | respVote resp => exact react2respRv_term hn h
  | respAppend resp => exact react2respAe_term h
  | clientApply | clientQuery => exact absurd hserver (by simp [Rpc.ofServer])
  | respClientApply | respClientQuery =>
    cases h
    exact .inl rfl

/-- **A term is kept, or the next one, or that of a message.** -/
theorem handle_term (hn : x.configuration.Nodup) (hserver : ∀ p, input = .message p → p.rpc.ofServer = true)
    (h : x.handle input = .ok y) :
    y.term = x.term ∨ y.term = x.term + 1 ∨ ∃ p, input = .message p ∧ y.term = p.rpc.term := by
  have hout := handle_outcome hn hserver h
  cases input with
  | message p => exact (message_term hn (hserver p rfl) h).imp_right fun hterm => .inr ⟨p, rfl, hterm⟩
  | timer handler =>
    cases hout with
    | idle => exact .inl rfl
    | campaigned hh hy =>
      obtain ⟨_, _, _, rfl⟩ := CalledAll.eq hy
      exact .inr (.inl rfl)
    | rvRetried hmin hy =>
      obtain ⟨_, _, _, rfl⟩ := CalledAll.eq hy
      exact .inl rfl
    | aeRetried hmin hy =>
      obtain ⟨_, _, _, rfl⟩ := hy.eq
      exact .inl rfl
  | _ => cases hout <;> exact .inl rfl

/-- The lsns of calls go up by one. -/
theorem CalledAll.lsn_succ {t : RaftServer} {xs : List Addr} {rpc : Addr → Rpc} {kind : Addr → TimerHandler}
    (h : CalledAll t xs rpc kind y) {z : Addr}
    (ht : 0 ≤ t.currentRpcLsn.get z ∧ t.currentRpcLsn.get z ≤ x.currentRpcLsn.get z) :
    0 ≤ y.currentRpcLsn.get z ∧ y.currentRpcLsn.get z ≤ x.currentRpcLsn.get z + 1 := by
  rw [h.lsn z]
  split <;> omega

theorem SentAes.lsn_succ {t : RaftServer} {xs : List Addr} (h : SentAes t xs y) {z : Addr}
    (ht : 0 ≤ t.currentRpcLsn.get z ∧ t.currentRpcLsn.get z ≤ x.currentRpcLsn.get z) :
    0 ≤ y.currentRpcLsn.get z ∧ y.currentRpcLsn.get z ≤ x.currentRpcLsn.get z + 1 := by
  obtain ⟨_, -, hc⟩ := h
  exact hc.lsn_succ ht

/-- Tables that start again are at zero. -/
theorem reset_le {m : StdMap Addr Int} {xs : List Addr} {z : Addr} (hz : 0 ≤ m.get z) :
    0 ≤ (m.setAll xs 0).get z ∧ (m.setAll xs 0).get z ≤ m.get z := by
  rw [StdMap.get_setAll]
  split <;> omega

theorem becomeFollower_lsn_le {term : Int} {z : Addr} (hz : 0 ≤ x.currentRpcLsn.get z) :
    0 ≤ (x.becomeFollower term).currentRpcLsn.get z ∧
      (x.becomeFollower term).currentRpcLsn.get z ≤ x.currentRpcLsn.get z := by
  rw [becomeFollower_currentRpcLsn]
  split
  · exact reset_le hz
  · omega

theorem heard_lsn_le {term : Int} {z : Addr} (hz : 0 ≤ x.currentRpcLsn.get z) :
    0 ≤ (x.heard term).currentRpcLsn.get z ∧ (x.heard term).currentRpcLsn.get z ≤ x.currentRpcLsn.get z := by
  unfold heard
  split
  · exact becomeFollower_lsn_le hz
  · omega

/-- **An lsn starts again at zero or goes up by one at most.** -/
theorem Outcome.lsn_succ (h : Outcome x input y) {z : Addr} (hz : 0 ≤ x.currentRpcLsn.get z) :
    0 ≤ y.currentRpcLsn.get z ∧ y.currentRpcLsn.get z ≤ x.currentRpcLsn.get z + 1 := by
  have hsame : 0 ≤ x.currentRpcLsn.get z ∧ x.currentRpcLsn.get z ≤ x.currentRpcLsn.get z := ⟨hz, Int.le_refl _⟩
  have hkept : ∀ {v : Int}, 0 ≤ v ∧ v ≤ x.currentRpcLsn.get z → 0 ≤ v ∧ v ≤ x.currentRpcLsn.get z + 1 := by omega
  cases h with
  | idle | polled | query | told | answered | appended | rvStale | aeStale | counted => exact hkept hsame
  | steppedDown | aeIgnored | aeRejected => exact hkept (becomeFollower_lsn_le hz)
  | rvIgnored | rvDenied | rvGranted => exact hkept (heard_lsn_le hz)
  | aeAccepted hp hle hnp hlsn hpre ht =>
    subst ht
    exact hkept (becomeFollower_lsn_le hz)
  | won hp hterm hstate hlsn hok hm hy | nacked hp hterm hstate hlsn hok hnext hw hy | aeRetried hmin hy =>
    exact hy.lsn_succ hsame
  | acked hp hterm hstate hlsn hok ht hw hxs =>
    obtain ⟨_, tasks, -, -, rfl⟩ := ht.frame
    rcases hxs with ⟨-, -, rfl⟩ | ⟨-, hy⟩
    · exact hkept hsame
    · exact hy.lsn_succ hsame
  | campaigned hh hy => exact CalledAll.lsn_succ hy (reset_le hz)
  | rvRetried hmin hy => exact CalledAll.lsn_succ hy hsame

/-- A log grows by one entry at most. -/
theorem Outcome.log_succ (h : Outcome x input y) : y.entries.log.length ≤ x.entries.log.length + 1 := by
  cases h.log with
  | same hlog =>
    rw [hlog]
    exact Nat.le_succ _
  | appended _ _ _ hlog => simp [hlog]
  | accepted _ _ ha =>
    have hlog := ha.log
    unfold AcceptedLog at hlog
    split at hlog
    · rw [hlog.2]
      exact Nat.le_succ _
    · obtain ⟨m, -, -, -, hlog⟩ := hlog
      rw [hlog]
      simp

/-- The servers of this model send RVs without `latest_term`. -/
theorem SentRvs.latestTerm {t : RaftServer} {xs : List Addr} {dst : Addr} {rv : RequestVoteRpc}
    (h : SentRvs t xs y) (ht : Effect.rpc dst (.requestVote rv) ∉ t.effects)
    (hm : Effect.rpc dst (.requestVote rv) ∈ y.effects) :
    rv.latestTerm = 0 := by
  rcases CalledAll.sends h hm with hm | ⟨-, he, -⟩
  · exact absurd hm ht
  · cases he
    rfl

theorem SentAes.no_requestVote {t : RaftServer} {xs : List Addr} {dst : Addr} {rv : RequestVoteRpc}
    (h : SentAes t xs y) (ht : Effect.rpc dst (.requestVote rv) ∉ t.effects) : Effect.rpc dst
    (.requestVote rv) ∉ y.effects := fun hm => by
  rcases h.sends hm with hm | ⟨-, ae, n, he, -⟩
  · exact ht hm
  · cases he

theorem Outcome.latestTerm (hx : x.effects = []) (h : Outcome x input y) {dst : Addr} {rv : RequestVoteRpc}
    (hm : Effect.rpc dst (.requestVote rv) ∈ y.effects) : rv.latestTerm = 0 := by
  have hsends := h.sends hx hm
  cases h with
  | campaigned hh hy | rvRetried hmin hy => exact SentRvs.latestTerm hy (by simp [hx]) hm
  | won hp hterm hstate hlsn hok hmajority hy | nacked hp hterm hstate hlsn hok hnext hw hy | aeRetried hmin hy =>
    exact absurd hm (hy.no_requestVote (by simp [hx]))
  | acked hp hterm hstate hlsn hok ht hw hxs =>
    rcases hxs with ⟨-, -, rfl⟩ | ⟨-, hy⟩
    · exact absurd hm (ht.no_rpc hx)
    · exact absurd hm (hy.no_requestVote fun hm => ht.no_rpc hx hm)
  | aeAccepted hp hle hnp hlsn hpre ht hlog hcommit htasks => simp [hx, ht, htasks.not_rpc] at hm
  | _ => simp [hx] at hm

end RaftServer

/-! ## Runs -/

/-- A client submitted `msg`. -/
def Submitted (trace : List Event) (msg : String) : Prop :=
  ∃ e ∈ trace, ∃ client, e.input = .clientApply client msg

/-- The numbers in a message, each an `int32` of `rpc.proto`; a port is not counted. -/
def Rpc.numbers : Rpc → List Int
  | .requestVote rv => [rv.term, rv.latestIndex, rv.latestTerm, rv.lsn]
  | .appendEntry ae => [ae.term, ae.prelogTerm, ae.commitIndex, ae.lsn, ae.prelogIndex] ++
      ae.entry.flatMap fun entry => [entry.term, entry.index]
  | .respVote resp => [resp.term, resp.lsn]
  | .respAppend resp => [resp.term, resp.lsn]
  | .clientApply _ | .clientQuery _ | .respClientApply _ | .respClientQuery _ => []

section Runs

variable {SM : Type} [StateMachine SM] {c : Cluster} {σ : System SM} {e : Event} {rest : List Packet} {p : Packet}

/-- A message is of the term of its sender. -/
theorem RaftServer.Sends.term {x y : RaftServer} {input : Input} {dst : Addr} {m : Rpc}
    (h : Sends x input y dst m) :
    m.term = y.term ∨ m.term = 0 := by
  cases h with
  | requestVote hterm => exact .inl hterm
  | appendEntry hb => exact .inl hb.term
  | respVote _ _ _ hterm => exact .inl hterm
  | respAppend _ _ _ hterm => exact .inl hterm
  | respClientApply | respClientQuery => exact .inr rfl

theorem Within.start (s : Addr) (configuration : List Addr) : Within 0 (RaftServer.start s configuration) where
  term_lo := Int.le_refl _
  term := Int.le_refl _
  log := Nat.le_refl _
  lsn_lo := fun z => by
    simp only [RaftServer.start, StdMap.get_setAll]
    split <;> exact Int.le_refl _
  lsn := fun z => by
    simp only [RaftServer.start, StdMap.get_setAll]
    split <;> exact Int.le_refl _

/-- What one handler adds to the numbers of its server. -/
theorem Step.within (hr : Reachable c σ) (h : Step c σ e rest) {n : Nat} (hbefore : Within n e.before)
    (hsent : ∀ p, Sent σ.trace p → Within n p.sender) : Within (n + 1) e.after := by
  have hout := h.outcome hr
  have hterm : 0 ≤ e.after.term ∧ e.after.term ≤ n + 1 := by
    have hlo := hbefore.term_lo
    have hhi := hbefore.term
    have hn : e.before.configuration.Nodup := by
      rw [(h.known_before hr).configuration]
      exact c.nodup
    have hh := h.handled
    rw [← h.before] at hh
    rcases RaftServer.handle_term hn (fun p hp => hr.wired.ofServer p (h.delivered hr hp).1) hh with
      heq | heq | ⟨p, hp, heq⟩
    · omega
    · omega
    · have hsp := (h.delivered hr hp).1
      obtain ⟨σ₀, d, rest₀, hr₀, -, hst, hpd⟩ := hr.sent hsp
      have hw := hsent p hsp
      have hwlo := hw.term_lo
      have hwhi := hw.term
      have hsends := (hst.sends hr₀ hpd).term
      rw [← (Event.mem_packets.mp hpd).2.2.2] at hsends
      omega
  have hlog := hout.log_succ
  have hlength := hbefore.log
  refine ⟨hterm.1, by omega, by omega, fun z => (hout.lsn_succ (hbefore.lsn_lo z)).1, fun z => ?_⟩
  have hstep := (hout.lsn_succ (hbefore.lsn_lo z)).2
  have hlsn := hbefore.lsn z
  omega

/-- **The numbers of a server are those of a run of as many events.** -/
theorem Reachable.within (hr : Reachable c σ) :
    (∀ s, Within σ.trace.length (σ.raft s)) ∧ ∀ e ∈ σ.trace, Within σ.trace.length e.after := by
  refine hr.invariant (I := fun σ => (∀ s, Within σ.trace.length (σ.raft s)) ∧
    ∀ e ∈ σ.trace, Within σ.trace.length e.after)
    ⟨fun s => .start s _, by simp [System.start]⟩ ?_
  intro σ e rest hr h ih
  obtain ⟨hraft, hevents⟩ := ih
  have hsent : ∀ p, Sent σ.trace p → Within σ.trace.length p.sender := fun p hp => by
    obtain ⟨d, hd, hpd⟩ := hp
    rw [(Event.mem_packets.mp hpd).2.2.2]
    exact hevents d hd
  have hafter : Within (σ.trace.length + 1) e.after := h.within hr (h.before ▸ hraft e.server) hsent
  rw [System.trace_next, List.length_cons]
  refine ⟨fun s => ?_, fun d hd => ?_⟩
  · rw [System.raft_next]
    split
    · exact hafter.taken
    · exact (hraft s).mono (Nat.le_succ _)
  · rcases List.mem_cons.mp hd with rfl | hd
    · exact hafter
    · exact (hevents d hd).mono (Nat.le_succ _)

theorem Reachable.within_sent (hr : Reachable c σ) (hp : Sent σ.trace p) : Within σ.trace.length p.sender := by
  obtain ⟨e, he, hpe⟩ := hp
  rw [(Event.mem_packets.mp hpe).2.2.2]
  exact hr.within.2 e he

/-- An entry has the term and the position it was made with, and the message of a client. -/
theorem Reachable.entry_counted (hr : Reachable c σ) (he : e ∈ σ.trace) {entry : RpcEntry}
    (hm : entry ∈ e.after.entries.log) :
    Counted σ.trace.length entry.term ∧ Counted σ.trace.length entry.index ∧ Submitted σ.trace entry.msg := by
  obtain ⟨d, hd, hcreates⟩ := hr.entry_created e he entry hm
  obtain ⟨past, hs⟩ := exists_past hd
  obtain ⟨σ₀, rest, hr₀, rfl, hst⟩ := hr.at hs
  have hbefore := hr₀.within.1 d.server
  rw [← hst.before] at hbefore
  have hw := hbefore.mono (List.IsSuffix.length_le ((List.suffix_cons d σ₀.trace).trans hs))
  have hlo := hw.term_lo
  have hterm := hw.term
  have hlog := hw.log
  unfold Event.creates? at hcreates
  split at hcreates
  · rename_i client body hi
    cases hcreates
    rw [Entries.size_eq]
    have hcounted : Counted σ.trace.length d.before.term ∧ Counted σ.trace.length d.before.entries.log.length :=
      ⟨⟨by omega, hterm⟩, by omega, by omega⟩
    exact ⟨hcounted.1, hcounted.2, d, hd, client, hi⟩
  · cases hcreates

/-- The numbers of an RV. -/
theorem Reachable.requestVote_counted (hr : Reachable c σ) (hp : Sent σ.trace p) {rv : RequestVoteRpc}
    (hrv : p.rpc = .requestVote rv) : ∀ v ∈ (Rpc.requestVote rv).numbers, Counted σ.trace.length v := by
  have hw := hr.within_sent hp
  have hsent := hr.rv_sent hp hrv
  obtain ⟨σ₀, d, rest, hr₀, -, hst, hpd⟩ := hr.sent hp
  obtain ⟨heffect, -, -, -⟩ := Event.mem_packets.mp hpd
  rw [hrv] at heffect
  have hlatest := (hst.outcome hr₀).latestTerm (hst.idle hr₀) heffect
  have hlo := hw.term_lo
  have hterm := hw.term
  have hlog := hw.log
  have hlsn_lo := hw.lsn_lo p.dst
  have hlsn := hw.lsn p.dst
  have hsterm := hsent.term
  have hindex := hsent.index
  have hslsn := hsent.lsn
  intro v hv
  simp only [Rpc.numbers, List.mem_cons, List.not_mem_nil, or_false] at hv
  rcases hv with rfl | rfl | rfl | rfl <;> exact ⟨by omega, by omega⟩

/-- The numbers of an AE, and of the entry it carries. -/
theorem Reachable.appendEntry_counted (hr : Reachable c σ) (hp : Sent σ.trace p) {ae : AppendEntryRpc}
    (hae : p.rpc = .appendEntry ae) : ∀ v ∈ (Rpc.appendEntry ae).numbers, Counted σ.trace.length v := by
  have hw := hr.within_sent hp
  have hranges := hr.ranges_sent hp
  obtain ⟨n, hsent⟩ := hr.ae_sent hp hae
  obtain ⟨d, hd, hpd⟩ := hp
  have hsender : p.sender = d.after := (Event.mem_packets.mp hpd).2.2.2
  have hentry : ∀ (i : Nat) entry, p.sender.entries.log[i]? = some entry →
      Counted σ.trace.length entry.term ∧ Counted σ.trace.length entry.index := fun i entry hget => by
    rw [hsender] at hget
    obtain ⟨ht, hi, -⟩ := hr.entry_counted hd (List.mem_of_getElem? hget)
    exact ⟨ht, hi⟩
  have hlo := hw.term_lo
  have hterm := hw.term
  have hlog := hw.log
  have hlsn_lo := hw.lsn_lo p.dst
  have hlsn := hw.lsn p.dst
  have hslsn := hsent.lsn
  have hle := hsent.built.le
  have hcommit_lo := hranges.commit_lo
  have hcommit_hi := hranges.commit_hi
  intro v hv
  simp only [Rpc.numbers, List.mem_append, List.mem_cons, List.not_mem_nil, or_false, List.mem_flatMap] at hv
  rcases hv with (rfl | rfl | rfl | rfl | rfl) | ⟨entry, hm, hv⟩
  · rw [hsent.built.term]
    exact ⟨by omega, hterm⟩
  · rw [hsent.built.prelogTerm]
    split
    · exact ⟨by omega, by omega⟩
    · cases hget : p.sender.entries.log[n - 1]? with
      | none => exact ⟨by simp, by simp⟩
      | some entry => exact (hentry _ _ hget).1
  · rw [hsent.built.commitIndex]
    exact ⟨hcommit_lo, by omega⟩
  · exact ⟨by omega, by omega⟩
  · rw [hsent.built.prelogIndex]
    exact ⟨by omega, by omega⟩
  · rw [hsent.built.entry, Option.mem_toList] at hm
    obtain ⟨ht, hi⟩ := hentry _ _ hm
    rcases hv with rfl | rfl
    · exact ht
    · exact hi

/-- **No number of a message is past the events of the run.** -/
theorem numbers_counted (hr : Reachable c σ) (hp : Sent σ.trace p) :
    ∀ v ∈ p.rpc.numbers, Counted σ.trace.length v := by
  have hw := hr.within_sent hp
  have hlo := hw.term_lo
  have hterm := hw.term
  cases hm : p.rpc with
  | requestVote rv => exact hr.requestVote_counted hp hm
  | appendEntry ae => exact hr.appendEntry_counted hp hm
  | respVote resp =>
    -- the lsn is that of the RV
    obtain ⟨q, rv, x, hreply⟩ := hr.vote_reply hp hm
    have hlsn := hr.requestVote_counted hreply.sent hreply.rpc rv.lsn (by simp [Rpc.numbers])
    intro v hv
    simp only [Rpc.numbers, List.mem_cons, List.not_mem_nil, or_false] at hv
    rcases hv with rfl | rfl
    · rw [hreply.term]
      exact ⟨by omega, hterm⟩
    · rw [hreply.lsn]
      exact hlsn
  | respAppend resp =>
    obtain ⟨q, ae, x, hreply⟩ := hr.ae_reply hp hm
    have hlsn := hr.appendEntry_counted hreply.sent hreply.rpc ae.lsn (by simp [Rpc.numbers])
    intro v hv
    simp only [Rpc.numbers, List.mem_cons, List.not_mem_nil, or_false] at hv
    rcases hv with rfl | rfl
    · rw [hreply.term]
      exact ⟨by omega, hterm⟩
    · rw [hreply.lsn]
      exact hlsn
  | _ => simp [Rpc.numbers]

/-- The entry of an AE carries the message of a client. -/
theorem Reachable.ae_submitted (hr : Reachable c σ) (hp : Sent σ.trace p) {ae : AppendEntryRpc}
    (hae : p.rpc = .appendEntry ae) : ∀ entry ∈ ae.entry, Submitted σ.trace entry.msg := by
  obtain ⟨n, hsent⟩ := hr.ae_sent hp hae
  obtain ⟨d, hd, hpd⟩ := hp
  intro entry hm
  rw [hsent.built.entry, Option.mem_toList, (Event.mem_packets.mp hpd).2.2.2] at hm
  exact (hr.entry_counted hd (List.mem_of_getElem? hm)).2.2

end Runs

/-- The AE that brings B its first entry. -/
theorem copyX_counted : ∃ (σ : System Unit) (p : Packet), p.rpc.numbers.length = 7 ∧
    ∀ v ∈ p.rpc.numbers, Counted σ.trace.length v := by
  obtain ⟨σ, hr, e, he, p, hp, hlength⟩ := System.exists_reachable threeServers copyX
    (P := fun σ : System Unit => ∃ e ∈ σ.trace, ∃ p ∈ e.packets, p.rpc.numbers.length = 7) (by decide +kernel)
  exact ⟨σ, p, hlength, numbers_counted hr ⟨e, he, hp⟩⟩

end MyRaft
