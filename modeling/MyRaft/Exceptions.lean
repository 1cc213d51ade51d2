/-
Exceptions that no run meets. The indexes a server keeps are in range, so
nothing reads or writes its log out of range; and what a follower checks of an
AE, its sender has made so.
-/
import MyRaft.Commit

namespace MyRaft

open StdLib (StdMap)
open Except (bind_ne_error)
open RaftServer (BuiltAe)

/-- The exceptions of `Entries::get` and `Entries::insert`, and that of `last_send_index`. -/
def Exn.ofRange : Exn → Bool
  | .entriesGet _ _ | .entriesInsert _ _ | .negativeIndex | .lastSendIndex => true
  | _ => false

/-- What `react2ae` throws on an AE that no primary sends. -/
def Exn.ofHonesty : Exn → Bool
  | .entrySize | .prelogTerm | .entryIndex | .emptyAeCommit => true
  | _ => false

theorem Entries.get_in {es : Entries} {index : Int} (hlo : 0 ≤ index) (hhi : index < es.size) :
    ∃ entry, es.get index = .ok entry := by
  obtain ⟨i, rfl⟩ : ∃ i : Nat, index = i := ⟨index.toNat, by omega⟩
  rw [size_eq] at hhi
  exact ⟨_, get_eq_ok (List.getElem?_eq_getElem (by omega))⟩

theorem Entries.insert_in {es : Entries} {index : Int} (entry : RpcEntry) (hlo : 0 ≤ index)
    (hhi : index ≤ es.size) :
    ∃ es', es.insert index entry = .ok es' := by
  obtain ⟨i, rfl⟩ : ∃ i : Nat, index = i := ⟨index.toNat, by omega⟩
  rw [size_eq] at hhi
  obtain ⟨es', he, -⟩ := insert_eq_ok entry (show i ≤ es.log.length by omega)
  exact ⟨es', he⟩

theorem ne_error_of_ok {α : Type} {x : Except Exn α} {exn : Exn} (h : ∃ a, x = .ok a) : x ≠ .error exn := by
  obtain ⟨a, rfl⟩ := h
  nofun

namespace RaftServer

variable {x y : RaftServer} {input : Input} {exn : Exn} {a : Addr}

/-! ## Sending -/

/-- `nextIndex_` is in the log or at its end. -/
def Sendable (a : Addr) (x : RaftServer) : Prop := 0 ≤ x.nextIndex.get a ∧ x.nextIndex.get a ≤ x.entries.size

theorem buildRpcAeString_in (h : x.Sendable a) : x.buildRpcAeString a ≠ .error exn := by
  obtain ⟨hlo, hhi⟩ := h
  refine bind_ne_error ?_ fun _ _ => bind_ne_error ?_ fun _ _ => nofun
  · split
    · exact bind_ne_error (ne_error_of_ok (Entries.get_in (by omega) (by dsimp only at hhi ⊢; omega)))
        fun _ _ => nofun
    · nofun
  · split
    · nofun
    · rename_i hne
      have hne' : x.nextIndex.get a ≠ x.entries.size := hne
      exact bind_ne_error (ne_error_of_ok (Entries.get_in hlo (by dsimp only at hhi ⊢; omega))) fun _ _ => nofun

theorem timerTo_in (htimer : exn = .nullTimer → x.retryTimers.find? a ≠ none) : x.timerTo a ≠ .error exn := by
  by_cases hexn : exn = .nullTimer
  · rw [timerTo_eq_ok (htimer hexn)]
    nofun
  · exact timerTo_ne_error hexn

theorem AE_in (h : x.Sendable a) (htimer : exn = .nullTimer → x.retryTimers.find? a ≠ none)
    (hwaits : exn = .aeWaiting → (x.retryTimers.get a).waits = []) : x.AE a ≠ .error exn := by
  refine bind_ne_error (buildRpcAeString_in h) fun r hr => ?_
  obtain ⟨rpc, y⟩ := r
  obtain ⟨-, -, rfl⟩ := buildRpcAeString_ok hr
  refine bind_ne_error (timerTo_in htimer) fun timer ht => ?_
  obtain ⟨-, rfl⟩ := timerTo_ok ht
  dsimp only
  split
  · rename_i hne
    rintro ⟨⟩
    exact hne (congrArg List.length (hwaits rfl))
  · nofun

theorem foldlM_AE_in (he : exn.ofRange = true) (xs : List Addr) : ∀ x : RaftServer, (∀ a ∈ xs, x.Sendable a) →
    xs.foldlM (fun s a => if a.port ≠ s.server.port then s.AE a else pure s) x ≠ .error exn := by
  induction xs with
  | nil => exact fun _ _ => nofun
  | cons a xs ih =>
    intro x h
    rw [List.foldlM_cons]
    refine bind_ne_error ?_ fun y hy => ih y fun b hb => ?_
    · split
      · exact AE_in (h a (by simp)) (by rintro rfl; cases he) (by rintro rfl; cases he)
      · nofun
    · split at hy
      · obtain ⟨_, _, -, -, -, rfl⟩ := AE_ok hy
        exact h b (by simp [hb])
      · cases hy
        exact h b (by simp [hb])

/-- A new primary has each follower at the end of its log. -/
theorem trans2P_in (he : exn.ofRange = true) : x.trans2P ≠ .error exn := by
  refine foldlM_AE_in he x.configuration x.becomePrimary fun a ha => ?_
  have hsize := Entries.size_eq x.entries
  unfold Sendable
  rw [becomePrimary_nextIndex, becomePrimary_entries, StdMap.get_setAll, if_pos ha]
  omega

/-! ## Applying -/

theorem applyLoop_in : ∀ (rounds : Nat) {x : RaftServer}, -1 ≤ x.smc.appliedIndex →
    x.smc.appliedIndex + rounds < x.entries.size → ∃ y, x.applyLoop rounds = .ok y
  | 0, x, _, _ => ⟨x, rfl⟩
  | rounds + 1, x, hlo, hhi => by
    obtain ⟨entry, he⟩ := @Entries.get_in x.entries (x.smc.appliedIndex + 1) (by omega) (by omega)
    simp only [applyLoop, applyEntry, he, bind, Except.bind, pure, Except.pure]
    exact applyLoop_in rounds (by dsimp only; omega) (by dsimp only; omega)

theorem updateCommitIndexAndApply_in {newIndex : Int} (hlo : -1 ≤ x.smc.appliedIndex)
    (hhi : newIndex < x.entries.size) :
    ∃ y, x.updateCommitIndexAndApply newIndex = .ok y := by
  have hsize := Entries.size_eq x.entries
  by_cases hle : newIndex ≤ x.smc.appliedIndex
  · refine ⟨{ x with smc := { x.smc with commitIndex := newIndex } }, ?_⟩
    unfold updateCommitIndexAndApply
    dsimp only
    rw [Int.toNat_of_nonpos (by omega)]
    rfl
  · refine applyLoop_in _ hlo ?_
    dsimp only
    omega

/-- `temp_sort` has a place for each key of `Follower_saved_index`, and one of them is `a`. -/
structure Room (a : Addr) (x : RaftServer) : Prop where
  mem : a ∈ x.followerSavedIndex.keys
  le : x.followerSavedIndex.keys.length ≤ x.configuration.length

theorem Room.values_le {index : Int} (h : x.Room a) :
    (x.followerSavedIndex.set a index).values.length ≤ x.configuration.length := by
  rw [StdMap.values_eq, List.length_map, StdMap.keys_set_of_mem _ h.mem]
  exact h.le

theorem primaryUpdateCommitIndex_in {index : Int} (hroom : x.Room a) (hlo : -1 ≤ x.smc.appliedIndex)
    (hhi : (x.saved a index).majorityIndex < x.entries.size) : ∃ y,
    x.primaryUpdateCommitIndex a index = .ok y := by
  unfold primaryUpdateCommitIndex
  dsimp only
  rw [if_neg (Nat.not_lt.mpr hroom.values_le)]
  exact updateCommitIndexAndApply_in hlo hhi

theorem followerUpdateCommitIndex_in {remoteCommitIndex : Int} (hlo : -1 ≤ x.smc.appliedIndex)
    (h : x.followerUpdateCommitIndex remoteCommitIndex = .error exn) : exn = .commitDecreases := by
  have hcap : x.cappedIndex remoteCommitIndex < x.entries.size := by
    unfold cappedIndex
    omega
  simp only [followerUpdateCommitIndex, cappedIndex_eq] at h
  split at h
  · exact (Except.error.inj h).symm
  · split at h
    · exact absurd h (ne_error_of_ok (updateCommitIndexAndApply_in hlo hcap))
    · cases h

/-! ## Requests -/

/-- Where `react2ae` throws, if not for the last checks of an AE that passes the others. -/
theorem react2ae_error {ae : AppendEntryRpc} (h : x.react2ae ae = .error exn) :
    exn = .entrySize ∧ 1 < ae.entry.length ∨ exn = .twoPrimaries ∧ (x.state = .primary ∧ x.term = ae.term) ∨
      x.prelogMatches ae.prelogIndex ae.prelogTerm = .error exn ∨ ae.entry.length ≤ 1 ∧ PassesChecks x ae := by
  unfold react2ae at h
  split at h
  · rename_i hlen
    exact .inl ⟨(Except.error.inj h).symm, hlen⟩
  rename_i hlen
  split at h
  · cases h
  rename_i hle
  split at h
  · rename_i hp
    exact .inr (.inl ⟨(Except.error.inj h).symm, hp⟩)
  rename_i hnp
  refine .inr (.inr ?_)
  rw [trans2F_eq_ok _ (by omega)] at h
  simp only [bind, Except.bind, shouldIgnoreRemoteRpc_eq] at h
  by_cases hlsn : ae.lsn ≤ (x.becomeFollower ae.term).followerRpcLsn.get ae.server
  · simp only [hlsn, if_true] at h
    cases h
  simp only [hlsn, if_false, Bool.false_eq_true] at h
  have hpre : ((x.becomeFollower ae.term).recordLsn ae.server ae.lsn).prelogMatches ae.prelogIndex ae.prelogTerm =
      x.prelogMatches ae.prelogIndex ae.prelogTerm := rfl
  rw [hpre] at h
  cases hm : x.prelogMatches ae.prelogIndex ae.prelogTerm with
  | error e =>
    simp only [hm] at h
    exact .inl (congrArg Except.error (Except.error.inj h))
  | ok b =>
    cases b with
    | false =>
      simp only [hm, Bool.not_false, if_true] at h
      cases h
    | true => exact .inr ⟨by omega, by omega, hnp, by omega, hm⟩

/-- An AE from the log of a primary, against a log that passes its checks. -/
theorem react2ae_honest {ae : AppendEntryRpc} {n : Nat} (hx : -1 ≤ x.smc.appliedIndex) (hn : BuiltAe y a n ae)
    (hcommit : y.commitIndex < y.entries.log.length)
    (hindex : ∀ entry, y.entries.log[n]? = some entry → entry.index = n) (h : x.react2ae ae = .error exn) :
    exn = .twoPrimaries ∧ (x.state = .primary ∧ x.term = ae.term) ∨ exn = .commitDecreases := by
  have hpre := hn.prelogIndex
  have hlen : ae.entry.length ≤ 1 := by
    rw [hn.entry]
    cases y.entries.log[n]? <;> simp
  have hterm : ae.prelogIndex = -1 → ae.prelogTerm = -1 := fun hm => by
    rw [hn.prelogTerm, if_pos (by omega)]
  rcases react2ae_error h with ⟨-, hlt⟩ | he | hm | ⟨-, hc⟩
  · omega
  · exact .inl he
  · obtain ⟨b, hb⟩ := prelogMatches_eq_ok (s := x) (show -1 ≤ ae.prelogIndex by omega) hterm
    rw [hb] at hm
    cases hm
  · refine .inr ?_
    rw [react2ae_eq hlen hc] at h
    have hsize : n ≤ x.entries.log.length := by
      rcases (prelogMatches_ok hc.prelog).mp rfl with hm | ⟨i, entry, hi, hget, -⟩
      · omega
      · have := (List.getElem?_eq_some_iff.mp hget).1
        omega
    have hsize' := Entries.size_eq x.entries
    cases hget : y.entries.log[n]? with
    | none =>
      -- the sender is at the end of its log, past its commit index
      rw [hn.entry, hget, Option.toList_none] at h
      have hge := List.getElem?_eq_none_iff.mp hget
      have := hn.commitIndex
      dsimp only at h
      rw [if_neg (by omega), bind_return_error] at h
      exact @followerUpdateCommitIndex_in (x.following ae) _ _ hx h
    | some entry =>
      rw [hn.entry, hget, Option.toList_some] at h
      have := hindex entry hget
      obtain ⟨es, hes⟩ := @Entries.insert_in x.entries (ae.prelogIndex + 1) entry (by omega) (by omega)
      dsimp only at h
      rw [if_neg (by omega), hes] at h
      have hupdate := (bind_return_error
        (x := { x.following ae with entries := es }.followerUpdateCommitIndex ae.commitIndex)).mp h
      exact @followerUpdateCommitIndex_in { x.following ae with entries := es } _ _ hx hupdate

/-! ## Replies -/

/-- The call that follows finds the retry timer without waits. -/
theorem primaryDealRespAe_in {resp : RespAppendEntryRpc}
    (hexn : exn = .nextIndexZero → resp.ok = true ∨ x.nextIndex.get a ≠ 0)
    (htimer : exn = .nullTimer → x.retryTimers.find? a ≠ none) (hroom : x.Room a) (hx : -1 ≤ x.smc.appliedIndex)
    (hnext : x.Sendable a) (hmajority : (x.counting a resp).majorityIndex < x.entries.size) :
    x.primaryDealRespAeWithSameTerm a resp ≠ .error exn := by
  obtain ⟨hlo, hhi⟩ := hnext
  have hidle : ∀ t : Timer, (t.expiresAtMin).waits = [] ∧ (t.cancel).waits = [] := fun t => ⟨rfl, rfl⟩
  have hset : ∀ t : Timer, (x.retryTimers.set a t).find? a ≠ none := fun t => by simp [StdMap.find?_set]
  unfold primaryDealRespAeWithSameTerm
  split
  · intro h
    cases h
  dsimp only
  split
  · rw [if_neg (by omega)]
    unfold counting ackedIndex at hmajority
    split
    · rename_i hlast
      rw [if_pos (.inl hlast)] at hmajority
      exact ne_error_of_ok (primaryUpdateCommitIndex_in hroom hx hmajority)
    · rename_i hlast
      split
      · rename_i hempty
        rw [if_pos (.inr hempty)] at hmajority
        refine bind_ne_error (ne_error_of_ok (primaryUpdateCommitIndex_in hroom hx hmajority)) fun y hy => ?_
        obtain ⟨_, -, rfl⟩ := primaryUpdateCommitIndex_ok hy
        exact bind_ne_error (timerTo_in htimer) fun _ _ => AE_in ⟨hlo, hhi⟩ (fun _ => hset _) fun _ => by
          simp [hidle]
      · rename_i hempty
        rw [if_neg (by simp [hlast, hempty])] at hmajority
        have hroom' : ({ x with nextIndex := x.nextIndex.set a (x.nextIndex.get a + 1) } : RaftServer).Room a :=
          ⟨hroom.mem, hroom.le⟩
        refine bind_ne_error (ne_error_of_ok (primaryUpdateCommitIndex_in hroom' hx hmajority)) fun y hy => ?_
        obtain ⟨_, -, rfl⟩ := primaryUpdateCommitIndex_ok hy
        refine bind_ne_error (timerTo_in htimer) fun _ _ => AE_in ?_ (fun _ => hset _) fun _ => by simp [hidle]
        constructor <;> simp only [committedTo_nextIndex, committedTo_entries, saved_nextIndex, saved_entries,
          StdMap.get_set_self] <;> omega
  · rename_i hok
    split
    · rename_i hzero
      rintro ⟨⟩
      exact (hexn rfl).elim hok fun hne => hne hzero
    · refine bind_ne_error (timerTo_in htimer) fun _ _ => AE_in ?_ (fun _ => hset _) fun _ => by simp [hidle]
      constructor <;> simp only [StdMap.get_set_self] <;> omega

theorem react2respAe_in {resp : RespAppendEntryRpc} (he : exn.ofRange = true) (hx : -1 ≤ x.smc.appliedIndex)
    (hroom : x.state = .primary → x.Room resp.server) (hnext : x.state = .primary → x.Sendable resp.server)
    (hmajority : x.state = .primary → (x.counting resp.server resp).majorityIndex < x.entries.size) :
    x.react2respAe resp ≠ .error exn := by
  unfold react2respAe
  split
  · rw [trans2F_eq_ok _ (by omega)]
    nofun
  split
  · nofun
  split
  · rename_i hstate
    exact primaryDealRespAe_in (by rintro rfl; cases he) (by rintro rfl; cases he) (hroom hstate) hx (hnext hstate)
      (hmajority hstate)
  · rintro ⟨⟩
    cases he

theorem appendClientApplyToEntries_in {client : Addr} {body : String} :
    x.appendClientApplyToEntries client body ≠ .error exn := by
  have hsize := Entries.size_eq x.entries
  exact bind_ne_error (ne_error_of_ok (Entries.insert_in _ (by omega) (Int.le_refl _))) fun _ _ => nofun

/-- `nextIndex_` is written for the servers of the configuration and for those that reply. -/
theorem Outcome.nextIndex_other {z : Addr} (h : Outcome x input y) (hz : z ∉ x.configuration)
    (hreply : ∀ p resp, input = .message p → p.rpc = .respAppend resp → z ≠ resp.server) :
    y.nextIndex.get z = x.nextIndex.get z := by
  cases h with
  | acked hp hterm hstate hlsn hok ht hw hxs =>
    obtain ⟨_, _, _, nextIndex, hn, rfl⟩ := ht.eq hxs
    exact (hn z).trans (if_neg (hreply _ _ rfl hp))
  | won hp hterm hstate hlsn hok hm hy =>
    obtain ⟨_, _, _, rfl⟩ := hy.eq
    exact (StdMap.get_setAll _ _ _ _).trans (if_neg hz)
  | nacked hp hterm hstate hlsn hok hnext hw hy =>
    obtain ⟨_, _, _, rfl⟩ := hy.eq
    exact StdMap.get_set_ne _ _ (hreply _ _ rfl hp)
  | aeRetried hmin hy =>
    obtain ⟨_, _, _, rfl⟩ := hy.eq
    rfl
  | campaigned hh hy | rvRetried hmin hy =>
    obtain ⟨_, _, _, rfl⟩ := CalledAll.eq hy
    rfl
  | aeAccepted hp hle hnp hlsn hpre ht => simp [ht]
  | _ => simp

end RaftServer

section Runs

variable {SM : Type} [StateMachine SM] {c : Cluster} {σ : System SM} {p : Packet} {rest : List Packet} {s : Addr}
  {x : RaftServer} {input : Input} {exn : Exn}

theorem Ranges.sendable (h : Ranges c x) (hx : x.state = .primary) {a : Addr} (ha : a ∈ c.configuration) :
    x.Sendable a := by
  have := h.next hx a ha
  have hsize := Entries.size_eq x.entries
  exact ⟨by omega, by omega⟩

/-- `Follower_saved_index` has a key for each server of the configuration, and no other. -/
theorem Ranges.room (h : Ranges c x) (hk : Known c s x) {a : Addr} (ha : a ∈ c.configuration) : x.Room a :=
  ⟨by rwa [h.keys], by rw [h.keys, hk.configuration]⟩

/-- The index that the next reply makes a primary commit is in its log. -/
theorem Ranges.counting_lt (h : Ranges c x) (hk : Known c s x) (hs : s ∈ c.configuration) (hx : x.state = .primary)
    {resp : RespAppendEntryRpc} (hserver : resp.server ∈ c.configuration) :
    (x.counting resp.server resp).majorityIndex < x.entries.size := by
  have hsize := Entries.size_eq x.entries
  have hkeys : (x.counting resp.server resp).followerSavedIndex.keys = c.configuration := by
    rw [RaftServer.counting, RaftServer.saved_followerSavedIndex, StdMap.keys_set_of_mem _ (by rwa [h.keys]),
      h.keys]
  have hk' : Known c s (x.counting resp.server resp) := ⟨hk.server, hk.configuration, hk.majority⟩
  have hrange := @Known.majorityIndex_range c s _ x.entries.log.length hk' hs hkeys fun z hz => by
    have hacked := h.ackedIndex_range hx hserver (h.next hx _ hserver).2
    have hsaved := h.saved hx z hz
    rw [RaftServer.counting, RaftServer.saved_followerSavedIndex, StdMap.get_set]
    split
    · exact hacked
    · exact hsaved
  omega

theorem Reachable.nextIndex_other (hr : Reachable c σ) {z : Addr} (hz : z ∉ c.configuration) (s : Addr) :
    (σ.raft s).nextIndex.get z = 0 := by
  refine hr.invariant (I := fun σ => ∀ s, (σ.raft s).nextIndex.get z = 0) (fun s => ?_) ?_ s
  · exact (StdMap.get_setAll _ _ _ _).trans (if_neg hz)
  · intro σ e rest hr h ih s
    rw [System.raft_next]
    split
    · rw [RaftServer.taken_nextIndex, (h.outcome hr).nextIndex_other, h.before, ih e.server]
      · rwa [(h.known_before hr).configuration]
      · rintro p resp hi hp rfl
        exact hz (h.respAppend_server hr hi hp)
    · exact ih s

theorem Reachable.sendable (hr : Reachable c σ) (hx : (σ.raft s).state = .primary) (a : Addr) :
    (σ.raft s).Sendable a := by
  by_cases ha : a ∈ c.configuration
  · exact (hr.ranges s).sendable hx ha
  · have hsize := Entries.size_eq (σ.raft s).entries
    have hzero := hr.nextIndex_other ha s
    exact ⟨by omega, by omega⟩

theorem Reachable.message_in (hr : Reachable c σ) (hs : s ∈ c.configuration) (hp : p ∈ σ.inflight)
    (he : exn.ofRange = true) : (σ.raft s).handle (.message p) ≠ .error exn := by
  have hsent := hr.wired.sent p hp
  have hranges := hr.ranges s
  change (σ.raft s).reactToIncomingMsg p.rpc p.src ≠ _
  cases hrpc : p.rpc with
  | requestVote rv => exact RaftServer.react2rv_ne_error
  | appendEntry ae =>
    intro h
    obtain ⟨n, hn⟩ := hr.ae_sent hsent hrpc
    have hsender := hr.ranges_sent hsent
    rcases RaftServer.react2ae_honest hranges.applied hn.built hsender.commit_hi (hsender.indexed n) h with
      ⟨rfl, -⟩ | rfl
    · cases he
    · cases he
  | respVote resp => exact RaftServer.react2respRv_ne_error (by rintro rfl; cases he) fun _ =>
    RaftServer.trans2P_in he
  | respAppend resp =>
    obtain ⟨q, ae, y, hreply⟩ := hr.ae_reply hsent hrpc
    have hserver : resp.server ∈ c.configuration := hreply.server ▸ hr.src_mem hsent
    exact RaftServer.react2respAe_in he hranges.applied (fun _ => hranges.room (hr.wired.known s) hserver)
      (fun hx => hr.sendable hx resp.server) fun hx => hranges.counting_lt (hr.wired.known s) hs hx hserver
  | clientApply body => exact RaftServer.appendClientApplyToEntries_in
  | clientQuery | respClientApply | respClientQuery => nofun

theorem Reachable.timer_in (hr : Reachable c σ) {h : TimerHandler} {ready : List TimerHandler}
    (hready : (σ.nodes s).ready = h :: ready) (he : exn.ofRange = true) :
    (σ.raft s).onExpire h ≠ .error exn := by
  have hcancelled : (.error .handlerCancelled : Except Exn RaftServer) ≠ .error exn := by
    rintro ⟨⟩
    cases he
  cases h with
  | run =>
    unfold RaftServer.onExpire
    dsimp only
    split
    · nofun
    · exact RaftServer.trans2C_ne_error (by rintro rfl; cases he)
  | trans2F | trans2C =>
    unfold RaftServer.onExpire
    dsimp only
    split
    · exact hcancelled
    · exact RaftServer.trans2C_ne_error (by rintro rfl; cases he)
  | RV a =>
    unfold RaftServer.onExpire
    dsimp only
    split
    · exact hcancelled
    · exact RaftServer.RV_ne_error (by rintro rfl; cases he)
  | AE a =>
    unfold RaftServer.onExpire
    dsimp only
    split
    · nofun
    · rename_i hmin
      by_cases hx : (σ.raft s).state = .primary
      · exact RaftServer.AE_in (hr.sendable hx a) (by rintro rfl; cases he) (by rintro rfl; cases he)
      · exact absurd ((hr.timers s).expired a (by rw [hready]; simp) hx) hmin

/-- **The indexes of a server are in range**, and none of its handlers runs
into an exception for one that is not. -/
theorem indexes_in_range (hr : Reachable c σ) (hs : s ∈ c.configuration) :
    (-1 ≤ (σ.raft s).commitIndex ∧ (σ.raft s).commitIndex < (σ.raft s).entries.size) ∧
    ((σ.raft s).state = .primary → ∀ z ∈ c.configuration,
      (0 ≤ (σ.raft s).nextIndex.get z ∧ (σ.raft s).nextIndex.get z ≤ (σ.raft s).entries.size) ∧
      (-1 ≤ (σ.raft s).followerSavedIndex.get z ∧ (σ.raft s).followerSavedIndex.get z < (σ.raft s).entries.size)) ∧
    ∀ input rest, σ.Offers s input rest → ∀ exn : Exn, exn.ofRange = true →
    (σ.raft s).handle input ≠ .error exn := by
  have hranges := hr.ranges s
  have hsize := Entries.size_eq (σ.raft s).entries
  refine ⟨⟨hranges.commit_lo, by rw [hsize]; exact hranges.commit_hi⟩, fun hx z hz => ?_,
    fun input rest ho exn he => ?_⟩
  · exact ⟨hranges.sendable hx hz, by rw [hsize]; exact hranges.saved hx z hz⟩
  · cases ho with
    | message hin hdst => exact hr.message_in hs (by rw [hin]; simp) he
    | clientApply => exact RaftServer.appendClientApplyToEntries_in
    | timer hready => exact hr.timer_in hready he
    | callback => rename_i cb _ _; cases cb <;> nofun
    | _ => nofun

/-- **No AE of a run trips the consistency checks of `react2ae`**, whoever is
primary and whatever clients ask of whom. -/
theorem honest_ae_accepted (hr : Reachable c σ) (hp : p ∈ σ.inflight) {ae : AppendEntryRpc}
    (hae : p.rpc = .appendEntry ae) (he : exn.ofHonesty = true) : (σ.raft p.dst).react2ae ae ≠ .error exn := by
  intro h
  have hsent := hr.wired.sent p hp
  obtain ⟨n, hn⟩ := hr.ae_sent hsent hae
  have hsender := hr.ranges_sent hsent
  rcases RaftServer.react2ae_honest (hr.ranges p.dst).applied hn.built hsender.commit_hi (hsender.indexed n) h with
    ⟨rfl, -⟩ | rfl <;> cases he

end Runs

theorem commitX_in_range :
    ∃ σ : System Unit, (σ.raft serverA).state = .primary ∧ (σ.raft serverA).commitIndex = 0 ∧
    (σ.raft serverA).commitIndex < (σ.raft serverA).entries.size := by
  obtain ⟨σ, hr, hx, hc⟩ := System.exists_reachable threeServers commitX
    (P := fun σ : System Unit => (σ.raft serverA).state = .primary ∧ (σ.raft serverA).commitIndex = 0)
    (by decide +kernel)
  exact ⟨σ, hx, hc, (indexes_in_range hr (show serverA ∈ threeServers.configuration by decide)).1.2⟩

theorem sendY_honest : ∃ (σ : System Unit) (p : Packet) (ae : AppendEntryRpc), p ∈ σ.inflight ∧
    p.rpc = .appendEntry ae ∧ ae.entry = [⟨1, 1, "y"⟩] ∧ ae.commitIndex = 0 ∧
    (σ.raft p.dst).react2ae ae ≠ .error .entryIndex := by
  obtain ⟨σ, hr, p, hp, ae, hae, hent, hcommit⟩ := System.exists_reachable threeServers sendY
    (P := fun σ : System Unit => ∃ p ∈ σ.inflight, ∃ ae ∈ p.appendEntry?, ae.entry = [⟨1, 1, "y"⟩] ∧
      ae.commitIndex = 0) (by decide +kernel)
  rw [Packet.mem_appendEntry?] at hae
  exact ⟨σ, p, ae, hp, hae, hent, hcommit, honest_ae_accepted hr hp hae rfl⟩

end MyRaft
