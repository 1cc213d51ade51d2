/-
One input, handled: the ways a handler can return, one constructor each.

`Outcome x input y` has the branch of the source the handler took, with the
checks it passed and the state it leaves. Every invariant of the protocol is
proved from `handle_outcome`, which says that a handler that returns took one of
these branches.
-/
import MyRaft.ServerFacts

namespace MyRaft

open StdLib (StdMap)

namespace RaftServer

/-- `y` is `t` after an AE to each of `xs`, built from `t`. -/
def SentAes (t : RaftServer) (xs : List Addr) (y : RaftServer) : Prop :=
  ∃ ae : Addr → AppendEntryRpc,
    (∀ x ∈ xs, (ae x).lsn = t.currentRpcLsn.get x ∧ ∃ n, BuiltAe t x n (ae x)) ∧
    CalledAll t xs (fun x => .appendEntry (ae x)) .AE y

/-- `y` is `t` after an RV to each of `xs`, built from `t`. -/
def SentRvs (t : RaftServer) (xs : List Addr) (y : RaftServer) : Prop :=
  CalledAll t xs (fun x => .requestVote (t.rvTo x)) .RV y

theorem AE_sent {s s' : RaftServer} {x : Addr} (h : s.AE x = .ok s') : SentAes s [x] s' := by
  obtain ⟨n, rpc, hb, hl, hw, rfl⟩ := AE_ok h
  have hc : CalledAll s [x] (fun _ => .appendEntry rpc) .AE (s.called x (.appendEntry rpc) ⟨false, [.AE x]⟩) :=
    .one (by simp [rearmed, hw])
  refine ⟨fun _ => rpc, fun y hy => ?_, hc⟩
  obtain rfl := List.mem_singleton.mp hy
  exact ⟨hl, n, hb⟩

theorem RV_sent {s s' : RaftServer} {x : Addr} (h : s.RV x = .ok s') : SentRvs s [x] s' := by
  obtain ⟨-, rfl⟩ := RV_ok h
  exact .one rfl

/-- The entry an `ok` reply of `x` acknowledges: the one sent last, or the one
before it when none was sent. -/
def ackedIndex (x : Addr) (resp : RespAppendEntryRpc) (s : RaftServer) : Int :=
  if s.nextIndex.get x = s.entries.size ∨ resp.isEmptyAe = true then s.nextIndex.get x - 1 else s.nextIndex.get x

/-- The log length and commit rule of a primary that counts an `ok` reply of `x`. -/
def counting (x : Addr) (resp : RespAppendEntryRpc) (s : RaftServer) : RaftServer :=
  s.saved x (s.ackedIndex x resp)

/-- The primary's state after an `ok` reply of `x`, before it sends the next entry. -/
structure Acked (s : RaftServer) (x : Addr) (resp : RespAppendEntryRpc) (t : RaftServer) : Prop where
  next_le : s.nextIndex.get x ≤ s.entries.size
  frame : ∃ nextIndex tasks,
    (∀ y, nextIndex.get y = if y = x then s.ackedIndex x resp + 1 else s.nextIndex.get y) ∧
    Tasks s (s.counting x resp).majorityIndex tasks ∧
    t = { (s.counting x resp) with nextIndex := nextIndex }.committedTo (s.counting x resp).majorityIndex
      ⟨max s.smc.appliedIndex (s.counting x resp).majorityIndex, (s.counting x resp).majorityIndex⟩
      (.committed (s.counting x resp).majorityIndex :: tasks)

/-- The ways an input is handled. -/
inductive Outcome (x : RaftServer) : Input → RaftServer → Prop
  | idle {input} : Outcome x input x
  | polled (timers) {candidateTimer retryTimers}
      (hpoll : (x.poll timers).2 = { x with candidateTimer := candidateTimer, retryTimers := retryTimers }) :
      Outcome x (.poll timers) { x with candidateTimer := candidateTimer, retryTimers := retryTimers }
  | query (client body) :
      Outcome x (.clientQuery client body) { x with effects := x.effects ++ [.query body client] }
  | told {entryIndex res client} (hstate : x.state = .primary)
      (hmap : x.entryIndexToSocketAddrMap.find? entryIndex = some client) :
      Outcome x (.callback (.writeRespApplyCall entryIndex res))
        (x.makeRpcCall client (.respClientApply res))
  | answered (client res) :
      Outcome x (.callback (.writeRespQueryCall client res)) (x.makeRpcCall client (.respClientQuery res))
  | appended (client body) (es : Entries)
      (hlog : es.log = x.entries.log ++ [⟨x.term, x.entries.log.length, body⟩]) :
      Outcome x (.clientApply client body)
        { x with
          entries := es
          entryIndexToSocketAddrMap := x.entryIndexToSocketAddrMap.set x.entries.log.length client
          followerSavedIndex := x.followerSavedIndex.set x.server x.entries.log.length }
  /-- A reply of a newer term. -/
  | steppedDown {p : Packet} {term : Int} (hlt : x.term < term) :
      Outcome x (.message p) (x.becomeFollower term)
  | rvStale {p rv} (hp : p.rpc = .requestVote rv) (hlt : rv.term < x.term) :
      Outcome x (.message p) (x.makeRespRv false rv.server rv.lsn)
  | rvIgnored {p rv} (hp : p.rpc = .requestVote rv) (hle : x.term ≤ rv.term)
      (hlsn : rv.lsn ≤ (x.heard rv.term).followerRpcLsn.get rv.server) :
      Outcome x (.message p) (x.heard rv.term)
  | rvDenied {p rv} (hp : p.rpc = .requestVote rv) (hle : x.term ≤ rv.term)
      (hlsn : (x.heard rv.term).followerRpcLsn.get rv.server < rv.lsn) :
      Outcome x (.message p) (((x.heard rv.term).recordLsn rv.server rv.lsn).makeRespRv false rv.server rv.lsn)
  | rvGranted {p rv} (hp : p.rpc = .requestVote rv) (hle : x.term ≤ rv.term)
      (hlsn : (x.heard rv.term).followerRpcLsn.get rv.server < rv.lsn)
      (hstate : (x.heard rv.term).state = .follower) (hvoted : (x.heard rv.term).alreadyVoted = false)
      (hlog : x.shouldVote rv.term rv.latestIndex = .ok true) :
      Outcome x (.message p) ((x.heard rv.term).voted rv)
  | aeStale {p ae} (hp : p.rpc = .appendEntry ae) (hlt : ae.term < x.term) :
      Outcome x (.message p) (x.respondAe false ae)
  | aeIgnored {p ae} (hp : p.rpc = .appendEntry ae) (hle : x.term ≤ ae.term)
      (hnp : ¬ (x.state = .primary ∧ x.term = ae.term))
      (hlsn : ae.lsn ≤ (x.becomeFollower ae.term).followerRpcLsn.get ae.server) :
      Outcome x (.message p) (x.becomeFollower ae.term)
  | aeRejected {p ae} (hp : p.rpc = .appendEntry ae) (hle : x.term ≤ ae.term)
      (hnp : ¬ (x.state = .primary ∧ x.term = ae.term))
      (hlsn : (x.becomeFollower ae.term).followerRpcLsn.get ae.server < ae.lsn)
      (hprelog : ¬ PrelogOk x ae.prelogIndex ae.prelogTerm) :
      Outcome x (.message p) ((x.following ae).respondAe false ae)
  | aeAccepted {p ae} {es smc tasks t} (hp : p.rpc = .appendEntry ae) (hle : x.term ≤ ae.term)
      (hnp : ¬ (x.state = .primary ∧ x.term = ae.term))
      (hlsn : (x.becomeFollower ae.term).followerRpcLsn.get ae.server < ae.lsn)
      (hprelog : PrelogOk x ae.prelogIndex ae.prelogTerm)
      (ht : t = { x.following ae with entries := es }) (hlog : AcceptedLog x ae es.log)
      (hcommit : x.commitIndex ≤ t.cappedIndex ae.commitIndex)
      (htasks : Tasks t (t.cappedIndex ae.commitIndex) tasks)
      (hsmc : smc = x.smc ∧ t.cappedIndex ae.commitIndex = x.commitIndex ∧ tasks = [] ∨
        smc = ⟨max x.smc.appliedIndex (t.cappedIndex ae.commitIndex), t.cappedIndex ae.commitIndex⟩) :
      Outcome x (.message p) ((t.committedTo (t.cappedIndex ae.commitIndex) smc tasks).respondAe true ae)
  | counted {p resp} (hp : p.rpc = .respVote resp) (hterm : resp.term = x.term)
      (hstate : x.state = .candidate) (hlsn : x.currentRpcLsn.get resp.server = resp.lsn + 1)
      (hok : resp.ok = true) :
      Outcome x (.message p) ({ x with winnedVotes := x.winnedVotes + 1 }.retryTimer resp.server ⟨true, []⟩)
  | won {p resp y} (hp : p.rpc = .respVote resp) (hterm : resp.term = x.term)
      (hstate : x.state = .candidate) (hlsn : x.currentRpcLsn.get resp.server = resp.lsn + 1)
      (hok : resp.ok = true)
      (hmajority : x.majority ≤ x.winnedVotes + 1)
      (hy : SentAes { x with winnedVotes := x.winnedVotes + 1 }.becomePrimary x.others y) :
      Outcome x (.message p) y
  | acked {p resp t timer y xs} (hp : p.rpc = .respAppend resp) (hterm : resp.term = x.term)
      (hstate : x.state = .primary) (hlsn : x.currentRpcLsn.get resp.server = resp.lsn + 1)
      (hok : resp.ok = true) (ht : Acked x resp.server resp t) (hwaits : timer.waits = [])
      (hxs : x.nextIndex.get resp.server = x.entries.size ∧ xs = [] ∧ y = t ∨
        xs = [resp.server] ∧ SentAes (t.retryTimer resp.server timer) xs y) :
      Outcome x (.message p) y
  | nacked {p resp timer y} (hp : p.rpc = .respAppend resp) (hterm : resp.term = x.term)
      (hstate : x.state = .primary) (hlsn : x.currentRpcLsn.get resp.server = resp.lsn + 1)
      (hok : resp.ok = false) (hnext : x.nextIndex.get resp.server ≠ 0) (hwaits : timer.waits = [])
      (hy : SentAes ((x.sendNext resp.server (x.nextIndex.get resp.server - 1)).retryTimer resp.server timer)
        [resp.server] y) :
      Outcome x (.message p) y
  | campaigned {h y} (hh : h = .run ∨ h = .trans2F ∨ h = .trans2C) (hy : SentRvs x.becomeCandidate x.others y) :
      Outcome x (.timer h) y
  | rvRetried {dst y} (hmin : (x.retryTimers.get dst).minDateTime = false) (hy : SentRvs x [dst] y) :
      Outcome x (.timer (.RV dst)) y
  | aeRetried {dst y} (hmin : (x.retryTimers.get dst).minDateTime = false) (hy : SentAes x [dst] y) :
      Outcome x (.timer (.AE dst)) y

variable {x y : RaftServer}

theorem poll_frame (timers : List TimerId) : ∀ x : RaftServer, ∃ candidateTimer retryTimers,
    (x.poll timers).2 = { x with candidateTimer := candidateTimer, retryTimers := retryTimers } := by
  induction timers with
  | nil => exact fun x => ⟨x.candidateTimer, x.retryTimers, rfl⟩
  | cons id timers ih =>
    intro x
    obtain ⟨ct, rt, he⟩ := ih (x.expire id).2
    refine ⟨ct, rt, ?_⟩
    have hp : (x.poll (id :: timers)).2 = ((x.expire id).2.poll timers).2 := rfl
    rw [hp, he]
    cases id with
    | candidate => rfl
    | retry a =>
      unfold expire
      dsimp only
      split <;> rfl

/-- The primary's update when the log has more to send. -/
theorem acked_of_update {a : Addr} {resp : RespAppendEntryRpc} {t : RaftServer}
    (hlt : x.nextIndex.get a < x.entries.size)
    (h : (if resp.isEmptyAe then x.primaryUpdateCommitIndex a (x.nextIndex.get a - 1)
      else (x.sendNext a (x.nextIndex.get a + 1)).primaryUpdateCommitIndex a (x.nextIndex.get a)) = .ok t) :
    Acked x a resp t := by
  have hne : x.nextIndex.get a ≠ x.entries.size := by omega
  refine ⟨by omega, ?_⟩
  unfold counting ackedIndex
  split at h
  · rename_i he
    obtain ⟨tasks, ht, rfl⟩ := primaryUpdateCommitIndex_ok h
    simp only [he, or_true, if_true]
    exact ⟨x.nextIndex, tasks, fun y => by split <;> simp_all, ht, rfl⟩
  · rename_i he
    obtain ⟨tasks, ht, rfl⟩ := primaryUpdateCommitIndex_ok h
    simp only [hne, he, or_self, Bool.false_eq_true, if_false]
    exact ⟨x.nextIndex.set a (x.nextIndex.get a + 1), tasks, fun y => StdMap.get_set _ _ _ _, ht, rfl⟩

/-- The primary's update when everything is sent. -/
theorem acked_of_last {a : Addr} {resp : RespAppendEntryRpc} {t : RaftServer}
    (he : x.nextIndex.get a = x.entries.size)
    (h : x.primaryUpdateCommitIndex a (x.nextIndex.get a - 1) = .ok t) : Acked x a resp t := by
  refine ⟨by omega, ?_⟩
  unfold counting ackedIndex
  obtain ⟨tasks, ht, rfl⟩ := primaryUpdateCommitIndex_ok h
  simp only [he, true_or, if_true] at ht ⊢
  exact ⟨x.nextIndex, tasks, fun y => by split <;> simp_all, ht, rfl⟩

/-- A primary takes the reply to its last call to the follower. -/
theorem react2respAe_ok {resp : RespAppendEntryRpc} (h : x.react2respAe resp = .ok y) :
    x.term < resp.term ∧ y = x.becomeFollower resp.term ∨
    resp.term < x.term ∧ y = x ∨
    resp.term = x.term ∧ x.state = .primary ∧
      (x.currentRpcLsn.get resp.server ≠ resp.lsn + 1 ∧ y = x ∨
      x.currentRpcLsn.get resp.server = resp.lsn + 1 ∧
        (resp.ok = true ∧ (∃ t, Acked x resp.server resp t ∧
          (x.nextIndex.get resp.server = x.entries.size ∧ y = t ∨
          x.nextIndex.get resp.server < x.entries.size ∧
            ∃ timer, timer.waits = [] ∧ SentAes (t.retryTimer resp.server timer) [resp.server] y)) ∨
        resp.ok = false ∧ x.nextIndex.get resp.server ≠ 0 ∧ ∃ timer, timer.waits = [] ∧
          SentAes ((x.sendNext resp.server (x.nextIndex.get resp.server - 1)).retryTimer resp.server timer)
            [resp.server] y)) := by
  unfold react2respAe at h
  split at h
  · rename_i hlt
    exact .inl ⟨hlt, (trans2F_ok h).2⟩
  rename_i hge
  split at h
  · rename_i hlt
    cases h
    exact .inr (.inl ⟨hlt, rfl⟩)
  rename_i hle
  split at h
  · rename_i hstate
    refine .inr (.inr ⟨by omega, hstate, ?_⟩)
    rcases primaryDealRespAeWithSameTerm_ok h with ⟨hlsn, rfl⟩ | ⟨hlsn, h⟩
    · exact .inl ⟨hlsn, rfl⟩
    refine .inr ⟨hlsn, ?_⟩
    rcases h with ⟨hok, hnext, h⟩ | ⟨hok, hnext, t, timer, ht, hw, h⟩ | ⟨hok, hnext, timer, hw, h⟩
    · exact .inl ⟨hok, y, acked_of_last hnext h, .inl ⟨hnext, rfl⟩⟩
    · exact .inl ⟨hok, t, acked_of_update hnext ht, .inr ⟨hnext, timer, hw, AE_sent h⟩⟩
    · exact .inr ⟨hok, hnext, timer, hw, AE_sent h⟩
  · cases h

theorem react2respAe_outcome {p : Packet} {resp : RespAppendEntryRpc} (hp : p.rpc = .respAppend resp)
    (h : x.react2respAe resp = .ok y) : Outcome x (.message p) y := by
  rcases react2respAe_ok h with ⟨hlt, rfl⟩ | ⟨-, rfl⟩ | ⟨hterm, hstate, h⟩
  · exact .steppedDown hlt
  · exact .idle
  rcases h with ⟨-, rfl⟩ | ⟨hlsn, ⟨hok, t, ht, h⟩ | ⟨hok, hnext, timer, hw, h⟩⟩
  · exact .idle
  · rcases h with ⟨hnext, rfl⟩ | ⟨-, timer, hw, h⟩
    · have hw : (default : Timer).waits = [] := rfl
      exact .acked hp hterm hstate hlsn hok ht hw (.inl ⟨hnext, rfl, rfl⟩)
    · exact .acked hp hterm hstate hlsn hok ht hw (.inr ⟨rfl, h⟩)
  · exact .nacked hp hterm hstate hlsn hok hnext hw h

theorem react2respRv_outcome (hn : x.configuration.Nodup) {p : Packet} {resp : RespRequestVoteRpc}
    (hp : p.rpc = .respVote resp) (h : x.react2respRv resp = .ok y) : Outcome x (.message p) y := by
  unfold react2respRv at h
  split at h
  · rename_i hlt
    obtain ⟨-, rfl⟩ := trans2F_ok h
    exact .steppedDown hlt
  rename_i hge
  split at h
  · cases h
    exact .idle
  rename_i hle
  have hterm : resp.term = x.term := by omega
  split at h
  · rename_i hstate
    rcases candidateDealRespRvWithSameTerm_ok h with rfl | ⟨hlsn, hok, ⟨hm, h⟩ | ⟨-, rfl⟩⟩
    · exact .idle
    · exact .won hp hterm hstate hlsn hok hm (trans2P_ok (s := { x with winnedVotes := x.winnedVotes + 1 }) hn h)
    · exact .counted hp hterm hstate hlsn hok
  · cases h
    exact .idle

theorem react2rv_outcome {p : Packet} {rv : RequestVoteRpc} (hp : p.rpc = .requestVote rv)
    (h : x.react2rv rv = .ok y) : Outcome x (.message p) y := by
  rcases react2rv_ok h with ⟨hlt, rfl⟩ | ⟨hle, h⟩
  · exact .rvStale hp hlt
  rcases h with ⟨hlsn, rfl⟩ | ⟨hlsn, rfl | ⟨hst, hv, hlog, rfl⟩⟩
  · exact .rvIgnored hp hle hlsn
  · exact .rvDenied hp hle hlsn
  · exact .rvGranted hp hle hlsn hst hv hlog

theorem react2ae_outcome {p : Packet} {ae : AppendEntryRpc} (hp : p.rpc = .appendEntry ae)
    (h : x.react2ae ae = .ok y) : Outcome x (.message p) y := by
  rcases react2ae_ok h with ⟨hlt, rfl⟩ | ⟨hle, hnp, h⟩
  · exact .aeStale hp hlt
  rcases h with ⟨hlsn, rfl⟩ | ⟨hlsn, ⟨hpre, rfl⟩ | ⟨hpre, es, smc, tasks, t, ht, hlog, hc, htk, hsmc, rfl⟩⟩
  · exact .aeIgnored hp hle hnp hlsn
  · exact .aeRejected hp hle hnp hlsn hpre
  · exact .aeAccepted hp hle hnp hlsn hpre ht hlog hc htk hsmc

theorem onExpire_outcome (hn : x.configuration.Nodup) {h : TimerHandler} (he : x.onExpire h = .ok y) :
    Outcome x (.timer h) y := by
  have hcamp : ∀ h : TimerHandler, h = .run ∨ h = .trans2F ∨ h = .trans2C → x.trans2C = .ok y →
      Outcome x (.timer h) y := fun h hh ht => .campaigned hh (trans2C_ok hn ht)
  cases h with
  | run =>
    simp only [onExpire] at he
    split at he
    · cases he
      exact .idle
    · exact hcamp _ (.inl rfl) he
  | trans2F =>
    simp only [onExpire] at he
    split at he
    · cases he
    · exact hcamp _ (.inr (.inl rfl)) he
  | trans2C =>
    simp only [onExpire] at he
    split at he
    · cases he
    · exact hcamp _ (.inr (.inr rfl)) he
  | RV dst =>
    simp only [onExpire] at he
    split at he
    · cases he
    · rename_i hm
      exact .rvRetried (by simpa using hm) (RV_sent he)
  | AE dst =>
    simp only [onExpire] at he
    split at he
    · cases he
      exact .idle
    · rename_i hm
      exact .aeRetried (by simpa using hm) (AE_sent he)

/-- **A handler that returns took one of the branches.** -/
theorem handle_outcome (hn : x.configuration.Nodup) {input : Input}
    (hreq : ∀ p, input = .message p → p.rpc.ofServer = true) (h : x.handle input = .ok y) :
    Outcome x input y := by
  cases input with
  | message p =>
    have hr : x.reactToIncomingMsg p.rpc p.src = .ok y := h
    cases hp : p.rpc with
    | requestVote rv => rw [hp] at hr; exact react2rv_outcome hp hr
    | appendEntry ae => rw [hp] at hr; exact react2ae_outcome hp hr
    | respVote resp => rw [hp] at hr; exact react2respRv_outcome hn hp hr
    | respAppend resp => rw [hp] at hr; exact react2respAe_outcome hp hr
    | clientApply | clientQuery =>
      have := hreq p rfl
      rw [hp] at this
      cases this
    | respClientApply _ | respClientQuery _ =>
      rw [hp] at hr
      cases hr
      exact .idle
  | clientApply client body =>
    obtain ⟨es, hlog, rfl⟩ := appendClientApplyToEntries_ok h
    exact .appended client body es hlog
  | clientQuery client body =>
    cases h
    exact .query client body
  | poll timers =>
    obtain ⟨ct, rt, he⟩ := poll_frame timers x
    cases h
    rw [he]
    exact .polled timers he
  | timer handler => exact onExpire_outcome hn h
  | work | read =>
    cases h
    exact .idle
  | callback cb =>
    cases cb with
    | writeRespApplyCall entryIndex res =>
      cases h
      unfold writeRespApplyCall
      split
      · rename_i hst
        split
        · rename_i client hf
          exact .told hst hf
        · exact .idle
      · exact .idle
    | writeRespQueryCall client res =>
      cases h
      exact .answered client res

end RaftServer

end MyRaft
