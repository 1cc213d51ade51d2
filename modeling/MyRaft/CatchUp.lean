/-
The majority behind a new primary. Its AEs are on the way when it takes over,
and the exchange of `MyRaft.Exchange` can go on with one follower after the
other: each ends with the log of the primary copied, or with an exception in
the follower for its commit index. Where all of a majority have the log, the
primary has committed it to its end; and where nothing was committed before,
no follower throws.
-/
import MyRaft.Availability
import MyRaft.Exchange
import MyRaft.Replicas

namespace MyRaft

open History
open StdLib (StdMap)
open RaftServer (Acked SentAes)
open Repair (Matching)
open Exchange (Talks Phase Answered Asked Opens Repaired)

/-! ## The commit index after a reply -/

namespace RaftServer

variable {x y t : RaftServer} {resp : RespAppendEntryRpc} {c : Cluster}

/-- The commit index of a primary is what a majority has saved. -/
def Recounted (x : RaftServer) : Prop := x.commitIndex = x.majorityIndex

/-- The commit index is not past what a majority has saved. -/
def Supported (x : RaftServer) : Prop := x.commitIndex = -1 ∨ x.commitIndex ≤ x.majorityIndex

theorem Recounted.supported (h : x.Recounted) : x.Supported := .inr (Int.le_of_eq h)

/-- The commit index is the same, and so is all it is computed from. -/
structure SameCount (x y : RaftServer) : Prop where
  commit : y.commitIndex = x.commitIndex
  saved : y.followerSavedIndex = x.followerSavedIndex
  configuration : y.configuration = x.configuration
  majority : y.majority = x.majority

theorem SameCount.majorityIndex (h : SameCount x y) : y.majorityIndex = x.majorityIndex := by
  unfold RaftServer.majorityIndex tempSort
  rw [h.saved, h.configuration, h.majority]

theorem SameCount.recounted (h : SameCount x y) (hx : x.Recounted) : y.Recounted :=
  h.commit.trans (hx.trans h.majorityIndex.symm)

theorem SameCount.supported (h : SameCount x y) (hx : x.Supported) : y.Supported := by
  unfold Supported at *
  rw [h.commit, h.majorityIndex]
  exact hx

theorem Acked.recounted {a : Addr} (h : Acked x a resp t) : t.Recounted := by
  obtain ⟨_, _, -, -, rfl⟩ := h.frame
  rfl

theorem react2respAe_recounts (h : x.react2respAe resp = .ok y) (hle : resp.term ≤ x.term) :
    ¬ (TakesReply x resp ∧ resp.ok = true) ∧ SameCount x y ∨
      (TakesReply x resp ∧ resp.ok = true) ∧ ∃ t, Acked x resp.server resp t ∧ SameCount t y := by
  rcases react2respAe_ok h with ⟨hlt, -⟩ | ⟨hlt, rfl⟩ | ⟨hterm, hstate, h⟩
  · omega
  · exact .inl ⟨fun hc => by have := hc.1.term; omega, rfl, rfl, rfl, rfl⟩
  rcases h with ⟨hne, rfl⟩ | ⟨hlsn, ⟨hok, t, ht, ⟨-, rfl⟩ | ⟨-, timer, -, hy⟩⟩ | ⟨hok, -, timer, -, hy⟩⟩
  · exact .inl ⟨fun hc => hne hc.1.lsn, rfl, rfl, rfl, rfl⟩
  · exact .inr ⟨⟨⟨hstate, hterm, hlsn⟩, hok⟩, _, ht, rfl, rfl, rfl, rfl⟩
  · obtain ⟨_, _, _, rfl⟩ := hy.eq
    exact .inr ⟨⟨⟨hstate, hterm, hlsn⟩, hok⟩, t, ht, rfl, rfl, rfl, rfl⟩
  · obtain ⟨_, _, _, rfl⟩ := hy.eq
    exact .inl ⟨by simp [hok], rfl, rfl, rfl, rfl⟩

/-- What a majority has saved is not lowered where nothing is forgotten. -/
theorem le_majorityIndex_saved {a : Addr} {i k : Int} (hk : Known c x.server x)
    (hkeys : x.followerSavedIndex.keys = c.configuration) (hmem : a ∈ c.configuration)
    (hle : x.followerSavedIndex.get a ≤ i) (h : k ≤ x.majorityIndex) : k ≤ (x.saved a i).majorityIndex := by
  have hne : x.configuration ≠ [] := by
    rw [hk.configuration]
    exact List.ne_nil_of_mem hmem
  have hmajority : x.majority = (x.configuration.length / 2 + 1 : Nat) := by rw [hk.majority, hk.configuration]
  have hkeys' : (x.saved a i).followerSavedIndex.keys = c.configuration := by
    rw [saved_followerSavedIndex, StdMap.keys_set_of_mem _ (by rwa [hkeys]), hkeys]
  have hold : x.MajorityHolds k :=
    (le_majorityIndex_iff (.of_eq (by rw [hkeys, hk.configuration])) hmajority hne).mp h
  refine (le_majorityIndex_iff (.of_eq (hkeys'.trans hk.configuration.symm)) hmajority hne).mpr (hold.trans ?_)
  refine Int.ofNat_le.mpr (List.countP_mono_left fun z _ hz => decide_eq_true ?_)
  have hz := of_decide_eq_true hz
  rw [saved_followerSavedIndex, StdMap.get_set]
  split
  · rename_i heq
    rw [heq] at hz
    omega
  · exact hz

theorem react2respAe_supported (h : x.react2respAe resp = .ok y) (hle : resp.term ≤ x.term) (hx : x.Supported) :
    y.Supported := by
  rcases react2respAe_recounts h hle with ⟨-, hsame⟩ | ⟨-, t, ht, hsame⟩
  · exact hsame.supported hx
  · exact (hsame.recounted ht.recounted).supported

/-- The timer for the next AE to `z` is running. -/
def Armed (z : Addr) (x : RaftServer) : Prop := x.retryTimers.get z = ⟨false, [.AE z]⟩

theorem SentAes.armed {a z : Addr} {timer : Timer} (h : SentAes (t.retryTimer a timer) [a] y)
    (hw : timer.waits = []) (hz : z = a ∨ t.Armed z) : y.Armed z := by
  have hr := h.rearmed
  unfold Armed at *
  by_cases hza : z = a
  · subst hza
    rw [hr.armed z (by simp), retryTimer_retryTimers, StdMap.get_set_self, RaftServer.rearmed, if_pos hw]
  · rw [hr.others z (by simpa using hza), retryTimer_retryTimers, StdMap.get_set_ne _ _ hza]
    exact hz.resolve_left hza

/-- A primary never stops the timer of a follower. -/
theorem react2respAe_armed {z : Addr} (h : x.react2respAe resp = .ok y) (hle : resp.term ≤ x.term)
    (hz : x.Armed z) :
    y.Armed z := by
  rcases react2respAe_ok h with ⟨hlt, -⟩ | ⟨-, rfl⟩ | ⟨-, -, h⟩
  · omega
  · exact hz
  rcases h with ⟨-, rfl⟩ | ⟨-, ⟨-, t, ht, ⟨-, rfl⟩ | ⟨-, timer, hw, hy⟩⟩ | ⟨-, -, timer, hw, hy⟩⟩
  · exact hz
  · obtain ⟨_, _, -, -, rfl⟩ := ht.frame
    exact hz
  · obtain ⟨_, _, -, -, rfl⟩ := ht.frame
    exact SentAes.armed hy hw (.inr hz)
  · exact SentAes.armed (t := x.sendNext resp.server _) hy hw (.inr hz)

end RaftServer

/-! ## A follower that has committed less -/

namespace Exchange

variable {c : Cluster} {log log₀ : List RpcEntry} {k n : Nat} {x : Exchange} {ae : AppendEntryRpc}
  {resp : RespAppendEntryRpc} {p f : RaftServer}

/-- The index of the entry that is on the way, or the end of the log. -/
def next (x : Exchange) : Int := x.primary.nextIndex.get x.follower.server

/-- What the primary has on record for the follower. -/
def saved (x : Exchange) : Int := x.primary.followerSavedIndex.get x.follower.server

/-- The follower has the entry at `j`. -/
def HoldsAt (log : List RpcEntry) (x : Exchange) (j : Int) : Prop :=
  ∀ i : Nat, j = i → i < log.length → x.follower.entries.log[i]? = log[i]?

/-- The follower has committed nothing past the primary, nor past what it has acknowledged. -/
structure Careful (log : List RpcEntry) (x : Exchange) : Prop where
  supported : x.primary.Supported
  asked : ∀ ae, x.inflight = [.appendEntry ae] → x.saved < x.next ∧ HoldsAt log x x.saved ∧
    x.follower.commitIndex ≤ x.saved ∧ x.follower.commitIndex ≤ ae.commitIndex ∧
    ae.commitIndex ≤ x.primary.commitIndex
  accepted : ∀ resp, x.inflight = [.respAppend resp] → resp.ok = true → x.saved < x.next ∧ HoldsAt log x x.next ∧
    x.follower.commitIndex ≤ x.next ∧ x.follower.commitIndex ≤ x.primary.commitIndex
  rejected : ∀ resp, x.inflight = [.respAppend resp] → resp.ok = false →
    x.saved + 1 < x.next ∧ HoldsAt log x x.saved ∧
    x.follower.commitIndex ≤ x.saved ∧ x.follower.commitIndex ≤ x.primary.commitIndex

/-- A probe past what is on record is refused only if it is not right behind it. -/
theorem HoldsAt.refused {j : Int} (h : HoldsAt log x j) (hn : n ≤ log.length) (hj : j < n)
    (hnot : ¬ Repair.Accepts RpcEntry.term log x.follower.entries.log n) : j + 1 < n := by
  refine lt_of_le_of_ne (by omega) fun heq => hnot ?_
  cases n with
  | zero => exact .inl rfl
  | succ m =>
    have hget := List.getElem?_eq_getElem (show m < log.length by omega)
    exact .inr ⟨_, hget, _, (h m (by omega) (by omega)).trans hget, rfl⟩

/-- The follower never finds its commit index ahead of the AE. -/
theorem Careful.covers (h : Careful log x) (ht : Talks c log x) (hf : Ranges c x.follower)
    (ha : Asked log x n ae) :
    x.follower.react2ae ae ≠ .error .commitDecreases := by
  intro he
  obtain ⟨hsaved, -, hcommit, hae, -⟩ := h.asked ae ha.inflight
  have hnext : x.next = n := ha.next
  obtain ⟨y, hb, hlog, -⟩ := ha.built
  have hpre := hb.prelogIndex
  have hindex : ∀ entry ∈ ae.entry, entry.index = ae.prelogIndex + 1 := fun entry hm => by
    rw [hb.entry, Option.mem_toList, hlog, ← ht.unchanged] at hm
    rw [ht.ranges.indexed n entry hm]
    omega
  have hterm : ae.prelogIndex = -1 → ae.prelogTerm = -1 := fun hm => by
    rw [hb.prelogTerm, if_pos (by omega)]
  rcases RaftServer.react2ae_error he with ⟨hexn, -⟩ | ⟨hexn, -⟩ | hm | ⟨hlen, hc⟩
  · cases hexn
  · cases hexn
  · obtain ⟨b, hb'⟩ := RaftServer.prelogMatches_eq_ok (s := x.follower) (show -1 ≤ ae.prelogIndex by omega) hterm
    rw [hb'] at hm
    cases hm
  · exact (RaftServer.react2ae_commitDecreases hf hlen (by omega) hindex hc).mp he ⟨hae, fun _ => by omega⟩

theorem Careful.ask (h : Careful log x) (ht : Talks c log x) (ha : Asked log x n ae)
    (hf : x.follower.react2ae ae = .ok f) :
    Careful log (x.followerReturned f []) := by
  obtain ⟨hsaved, hholds, hcommit, hae, hprimary⟩ := h.asked ae ha.inflight
  obtain ⟨y, hb, hlog, hlt⟩ := ha.built
  have hle := hb.le
  have hindex := hb.commitIndex
  have hnext : x.next = n := ha.next
  have hserver := (@Talks.followerReturned _ _ _ _ _ [] ht hf).1
  have hsame : (x.followerReturned f []).saved = x.saved := congrArg x.primary.followerSavedIndex.get hserver
  have hsame_next : (x.followerReturned f []).next = x.next := congrArg x.primary.nextIndex.get hserver
  obtain ⟨resp, hans, -, hcases⟩ := ha.deliver ht hf
  obtain ⟨resp', hposts, -, -, -, -, hanswers⟩ := RaftServer.react2ae_answers ht.follower_idle ha.term_le ha.new hf
  rw [ha.server] at hposts
  obtain rfl : resp' = resp := by simpa using hposts.symm.trans hans.inflight
  rw [hlog] at hle
  refine ⟨h.supported, fun ae' hae' => ?_, fun resp hresp hok => ?_, fun resp hresp hno => ?_⟩
  · simp [hans.inflight] at hae'
  · obtain rfl : resp' = resp := by simpa [hans.inflight] using hresp
    obtain ⟨haccepts, hcopied⟩ := (hcases.resolve_left fun hc => by simp [hok] at hc).2.2
    have hmin := (hanswers.resolve_left fun hc => by simp [hok] at hc).2.commit
    rw [hsame, hsame_next]
    refine ⟨hnext ▸ hsaved, fun i hi hlen => ?_, ?_, ?_⟩
    · obtain rfl : i = n := by omega
      rcases hcopied with ⟨heq, -⟩ | ⟨entry, hget, hinsert⟩
      · omega
      · refine (congrArg (·[i]?) hinsert).trans ?_
        rw [Truncating.getElem?_insert haccepts.le_length, if_neg (Nat.lt_irrefl _), if_pos rfl, hget]
    · show f.commitIndex ≤ x.next
      rcases hcopied with ⟨heq, -⟩ | ⟨entry, -, hinsert⟩
      · omega
      · have hlength := congrArg List.length hinsert
        rw [Truncating.length_insert haccepts.le_length] at hlength
        omega
    · show f.commitIndex ≤ x.primary.commitIndex
      omega
  · obtain rfl : resp' = resp := by simpa [hans.inflight] using hresp
    obtain ⟨-, hnot, hkept⟩ := (hcases.resolve_right fun hc => by simp [hno] at hc).2
    have hsame_commit := (hanswers.resolve_right fun hc => by simp [hno] at hc).2.commit
    rw [hsame, hsame_next]
    refine ⟨?_, fun i hi hlen => (congrArg (·[i]?) hkept).trans (hholds i hi hlen), ?_, ?_⟩
    · rw [hnext]
      exact hholds.refused hle (hnext ▸ hsaved) hnot
    · exact hsame_commit ▸ hcommit
    · exact hsame_commit ▸ hae.trans hprimary

theorem saved_le_acked (h : x.saved < x.next) : x.saved ≤ x.primary.ackedIndex x.follower.server resp := by
  unfold RaftServer.ackedIndex
  unfold Exchange.saved Exchange.next at *
  split <;> omega

theorem Careful.grows (h : Careful log x) (ht : Talks c log x) (ha : Answered log x n resp)
    (hp : x.primary.react2respAe resp = .ok p) : x.primary.commitIndex ≤ p.commitIndex := by
  have hnext : x.next = n := ha.next
  have hmem : resp.server ∈ c.configuration := ha.server ▸ ht.follower
  have hle := Int.le_of_eq ha.term
  rcases RaftServer.react2respAe_recounts hp hle with ⟨-, hsame⟩ | ⟨⟨-, hok⟩, t, hacked, hsame⟩
  · exact Int.le_of_eq hsame.commit.symm
  rcases h.supported with hnone | hle_majority
  · rw [hnone]
    exact (@Talks.primaryReturned _ _ _ _ _ [] ht hmem hle hp).ranges.commit_lo
  · obtain ⟨hsaved, -⟩ := h.accepted resp ha.inflight hok
    obtain ⟨_, _, -, -, rfl⟩ := hacked.frame
    rw [hsame.commit]
    refine RaftServer.le_majorityIndex_saved ht.known ht.ranges.keys hmem ?_ hle_majority
    rw [ha.server]
    exact saved_le_acked hsaved

theorem Careful.answer (h : Careful log x) (ht : Talks c log x) (ha : Answered log x n resp)
    (hp : x.primary.react2respAe resp = .ok p) : Careful log (x.primaryReturned p []) := by
  have hnext : x.next = n := ha.next
  have hle := Int.le_of_eq ha.term
  have hgrows := h.grows ht ha hp
  have hsupported := RaftServer.react2respAe_supported hp hle h.supported
  have hsize := Entries.size_eq x.primary.entries
  rw [ht.unchanged] at hsize
  have hacks : x.primary.nextIndex.get resp.server = x.next := by rw [ha.server]; rfl
  have hrecounts := RaftServer.react2respAe_recounts hp hle
  have hflies : ∀ {rpcs}, p.posts resp.server = rpcs → (x.primaryReturned p []).inflight = rpcs := fun hposts =>
    (congrArg p.posts ha.server.symm).trans hposts
  cases RaftServer.react2respAe_takes ht.idle ha.term (ha.server.symm ▸ ha.lsn) hp with
  | last hok hlast hn hsaved hposts =>
    have hquiet := hflies hposts
    exact ⟨hsupported, fun ae hae => by simp [hquiet] at hae, fun resp hresp => by simp [hquiet] at hresp,
      fun resp hresp => by simp [hquiet] at hresp⟩
  | @next m ae hok hlt hm hposts hae =>
    obtain ⟨hsaved, hholds, hcommit, hprimary⟩ := h.accepted resp ha.inflight hok
    obtain ⟨-, t, hacked, hsame⟩ :=
      hrecounts.resolve_left fun hc => hc.1 ⟨⟨ht.primary, ha.term, ha.server.symm ▸ ha.lsn⟩, hok⟩
    have hindex : x.primary.ackedIndex resp.server resp = x.next := by
      refine (if_neg ?_).trans hacks
      rw [ha.empty]
      omega
    have hquiet := hflies hposts
    have hnext' : (x.primaryReturned p []).next = m := by
      rw [ha.server] at hae
      exact hae.built.next
    have hsaved' : (x.primaryReturned p []).saved = x.next := by
      obtain ⟨_, _, -, -, rfl⟩ := hacked.frame
      refine (congrArg (·.get x.follower.server) hsame.saved).trans ?_
      rw [← hindex, ← ha.server]
      exact StdMap.get_set_self _ _ _
    refine ⟨hsupported, fun ae' hae' => ?_, fun resp hresp => by simp [hquiet] at hresp,
      fun resp hresp => by simp [hquiet] at hresp⟩
    obtain rfl : ae' = ae := by simpa [hquiet] using hae'.symm
    rw [hsaved', hnext']
    exact ⟨by omega, hholds, hcommit, hae.built.commitIndex ▸ hprimary.trans hgrows,
      Int.le_of_eq hae.built.commitIndex⟩
  | @back m ae hok hm hposts hae =>
    obtain ⟨hsaved, hholds, hcommit, hprimary⟩ := h.rejected resp ha.inflight hok
    obtain ⟨-, hsame⟩ := hrecounts.resolve_right fun hc => by simp [hok] at hc
    have hquiet := hflies hposts
    have hnext' : (x.primaryReturned p []).next = m := by
      rw [ha.server] at hae
      exact hae.built.next
    have hsaved' : (x.primaryReturned p []).saved = x.saved := congrArg (·.get x.follower.server) hsame.saved
    refine ⟨hsupported, fun ae' hae' => ?_, fun resp hresp => by simp [hquiet] at hresp,
      fun resp hresp => by simp [hquiet] at hresp⟩
    obtain rfl : ae' = ae := by simpa [hquiet] using hae'.symm
    rw [hsaved', hnext']
    exact ⟨by omega, hholds, hcommit, hae.built.commitIndex ▸ hprimary.trans hgrows,
      Int.le_of_eq hae.built.commitIndex⟩

theorem Careful.other (h : Careful log x) (ht : Talks c log x) (hne : resp.server ≠ x.follower.server)
    (hle : resp.term ≤ x.primary.term) (hp : x.primary.react2respAe resp = .ok p)
    (hgrows : x.primary.commitIndex ≤ p.commitIndex) : Careful log (x.primaryReturned p x.inflight) := by
  obtain ⟨hnext, hsaved, -, hposts⟩ := RaftServer.react2respAe_elsewhere ht.idle hle hp hne.symm
  have hflies : (x.primaryReturned p x.inflight).inflight = x.inflight :=
    (congrArg (x.inflight ++ ·) hposts).trans (List.append_nil _)
  have hsame : (x.primaryReturned p x.inflight).saved = x.saved := hsaved
  have hsame_next : (x.primaryReturned p x.inflight).next = x.next := hnext
  have hsupported := RaftServer.react2respAe_supported hp hle h.supported
  refine ⟨hsupported, fun ae hae => ?_, fun resp hresp hok => ?_, fun resp hresp hno => ?_⟩
  · obtain ⟨hlt, hholds, hcommit, hcovers, hprimary⟩ := h.asked ae (hflies ▸ hae)
    rw [hsame, hsame_next]
    exact ⟨hlt, hholds, hcommit, hcovers, hprimary.trans hgrows⟩
  · obtain ⟨hlt, hholds, hcommit, hprimary⟩ := h.accepted resp (hflies ▸ hresp) hok
    rw [hsame, hsame_next]
    exact ⟨hlt, hholds, hcommit, hprimary.trans hgrows⟩
  · obtain ⟨hlt, hholds, hcommit, hprimary⟩ := h.rejected resp (hflies ▸ hresp) hno
    rw [hsame, hsame_next]
    exact ⟨hlt, hholds, hcommit, hprimary.trans hgrows⟩

/-- A new primary and its follower, before anything is committed. -/
theorem Opens.careful {s : RaftServer} (h : Opens c s f) (hp : s.trans2P = .ok p) (hs : s.commitIndex = -1)
    (hf : f.commitIndex = -1) : Careful s.entries.log (opened p f) := by
  have hnodup : s.configuration.Nodup := h.known.configuration ▸ c.nodup
  have hsent : SentAes s.becomePrimary s.others p := RaftServer.trans2P_ok hnodup hp
  obtain ⟨n, ae, hposts, hae, -⟩ :=
    hsent.posts (hnodup.filter _) (RaftServer.posts_idle h.idle) h.follower
  obtain ⟨hmem, hport⟩ := List.mem_filter.mp h.follower
  have hne : f.server ≠ s.server := fun he => of_decide_eq_true hport (by rw [he])
  have hindex := hae.built.commitIndex
  have hsize := Entries.size_eq s.entries
  have hflies : (opened p f).inflight = [.appendEntry ae] := hposts
  obtain ⟨cur, timers, effects, hframe⟩ := hsent.eq
  have hcommit : p.commitIndex = -1 := by
    rw [hframe]
    exact hs
  have hsaved : (opened p f).saved = -1 := by
    show p.followerSavedIndex.get f.server = -1
    rw [hframe, RaftServer.becomePrimary_followerSavedIndex, StdMap.get_set_ne _ _ hne, StdMap.get_setAll,
      if_pos hmem]
  have hnext : (opened p f).next = s.entries.size := by
    show p.nextIndex.get f.server = s.entries.size
    rw [hframe, RaftServer.becomePrimary_nextIndex, StdMap.get_setAll, if_pos hmem]
  refine ⟨.inl hcommit, fun ae' hae' => ?_, fun resp hresp => by simp [hflies] at hresp,
    fun resp hresp => by simp [hflies] at hresp⟩
  obtain rfl : ae' = ae := by simpa [hflies] using hae'.symm
  refine ⟨by omega, fun i hi => by omega, ?_, ?_, Int.le_of_eq hindex⟩
  · rw [hsaved]
    exact Int.le_of_eq hf
  · rw [hindex, hcommit]
    exact Int.le_of_eq hf

/-! ## A follower that has heard the primary -/

/-- What the AEs of the primary make of the follower, and that more will come. -/
structure Heard (log : List RpcEntry) (x : Exchange) : Prop where
  armed : x.primary.Armed x.follower.server
  /-- Entries of the primary's own term are the primary's. -/
  entries : ∀ entry ∈ x.follower.entries.log, entry ∈ log ∨ entry.term < x.primary.term
  accepted : ∀ resp, x.inflight = [.respAppend resp] → resp.ok = true → x.follower.commitIndex < log.length
  quiet : x.inflight = [] → x.follower.term = x.primary.term ∧ x.follower.state = .follower ∧
    x.follower.commitIndex < log.length

theorem Heard.ask (h : Heard log x) (ht : Talks c log x) (ha : Asked log x n ae)
    (hf : x.follower.react2ae ae = .ok f) :
    Heard log (x.followerReturned f []) := by
  have hserver := (@Talks.followerReturned _ _ _ _ _ [] ht hf).1
  obtain ⟨y, hb, -, hlt⟩ := ha.built
  have hindex := hb.commitIndex
  obtain ⟨resp, hans, -, hcases⟩ := ha.deliver ht hf
  obtain ⟨resp', hposts, -, -, -, -, hanswers⟩ := RaftServer.react2ae_answers ht.follower_idle ha.term_le ha.new hf
  rw [ha.server] at hposts
  obtain rfl : resp' = resp := by simpa using hposts.symm.trans hans.inflight
  refine ⟨?_, fun entry hmem => ?_, fun resp hresp hok => ?_, fun hquiet => ?_⟩
  · exact hserver.symm ▸ h.armed
  · change entry ∈ f.entries.log at hmem
    rcases hcases with ⟨-, -, -, hkept⟩ | ⟨-, -, -, ⟨-, hkept⟩ | ⟨new, hnew, hinsert⟩⟩
    · exact h.entries entry (hkept ▸ hmem)
    · exact h.entries entry (hkept ▸ hmem)
    · rw [hinsert, Truncating.insert, List.mem_append, List.mem_singleton] at hmem
      rcases hmem with hmem | rfl
      · exact h.entries entry (List.mem_of_mem_take hmem)
      · exact .inl (List.mem_of_getElem? hnew)
  · obtain rfl : resp' = resp := by simpa [hans.inflight] using hresp
    have hmin := (hanswers.resolve_left fun hc => by simp [hok] at hc).2.commit
    show f.commitIndex < log.length
    omega
  · simp [hans.inflight] at hquiet

theorem Heard.answer (h : Heard log x) (ht : Talks c log x) (ha : Answered log x n resp)
    (hp : x.primary.react2respAe resp = .ok p) : Heard log (x.primaryReturned p []) := by
  have hle := Int.le_of_eq ha.term
  obtain ⟨-, hterm, -, -⟩ := RaftServer.react2respAe_stays ht.primary hle hp
  have hentries : ∀ entry ∈ x.follower.entries.log, entry ∈ log ∨ entry.term < p.term := hterm ▸ h.entries
  have harmed : p.Armed x.follower.server := RaftServer.react2respAe_armed hp hle h.armed
  rcases (ha.deliver ht hp).2 with ⟨hok, -, hquiet, -⟩ | ⟨m, ae, hasked, -⟩
  · refine ⟨harmed, hentries, fun resp hresp => by simp [hquiet] at hresp, fun _ => ⟨?_, ha.follower_state, ?_⟩⟩
    · exact ha.follower_term.trans (ha.term.trans hterm.symm)
    · exact h.accepted resp ha.inflight hok
  · have hflies := hasked.inflight
    exact ⟨harmed, hentries, fun resp hresp => by simp [hflies] at hresp, fun hquiet => by simp [hflies] at hquiet⟩

theorem Heard.other (h : Heard log x) (ht : Talks c log x) (hne : resp.server ≠ x.follower.server)
    (hle : resp.term ≤ x.primary.term) (hp : x.primary.react2respAe resp = .ok p) :
    Heard log (x.primaryReturned p x.inflight) := by
  obtain ⟨-, -, -, hposts⟩ := RaftServer.react2respAe_elsewhere ht.idle hle hp hne.symm
  obtain ⟨-, hterm, -, -⟩ := RaftServer.react2respAe_stays ht.primary hle hp
  have hflies : (x.primaryReturned p x.inflight).inflight = x.inflight :=
    (congrArg (x.inflight ++ ·) hposts).trans (List.append_nil _)
  have hentries : ∀ entry ∈ x.follower.entries.log, entry ∈ log ∨ entry.term < p.term := hterm ▸ h.entries
  have harmed : p.Armed x.follower.server := RaftServer.react2respAe_armed hp hle h.armed
  refine ⟨harmed, hentries, fun resp hresp => ?_, fun hquiet => ?_⟩
  · exact h.accepted resp (hflies ▸ hresp)
  · obtain ⟨hfollows, hstate, hcommit⟩ := h.quiet (hflies ▸ hquiet)
    exact ⟨hfollows.trans hterm.symm, hstate, hcommit⟩

end Exchange

/-! ## An exchange in the cluster -/

/-- The exchange of `s` and `f` is one of the cluster: what is on the way in it is in flight. -/
structure Plays {SM : Type} (σ : System SM) (s f : Addr) (x : Exchange) : Prop where
  primary : x.primary = σ.raft s
  follower : x.follower = σ.raft f
  asked : ∀ ae, .appendEntry ae ∈ x.inflight → ∃ p ∈ σ.inflight, p.dst = f ∧ p.rpc = .appendEntry ae
  answered : ∀ resp, .respAppend resp ∈ x.inflight → ∃ p ∈ σ.inflight, p.dst = s ∧ p.rpc = .respAppend resp

/-- The log of `s` is being copied to `f`, and `k` messages of it have arrived.
Where neither had committed anything before (`blank`), `f` has committed no more
than it has acknowledged. -/
structure Copying {SM : Type} (c : Cluster) (blank : Prop) (log : List RpcEntry) (σ : System SM) (s f : Addr)
    (k : Nat) (x : Exchange) : Prop where
  plays : Plays σ s f x
  talks : Talks c log x
  phase : ∃ log₀, Matching RpcEntry.term log log₀ ∧ Phase log log₀ k x
  careful : blank → Exchange.Careful log x
  heard : Exchange.Heard log x

theorem RaftServer.mem_posts {x : RaftServer} {z : Addr} {m : Rpc} :
    m ∈ x.posts z ↔ Effect.rpc z m ∈ x.effects := by
  unfold RaftServer.posts
  rw [List.mem_filterMap]
  constructor
  · rintro ⟨f, hf, he⟩
    cases f with
    | rpc dst m' =>
      simp only [Effect.rpcTo?] at he
      split at he
      · rename_i hdst
        cases he
        rwa [hdst] at hf
      · cases he
    | _ => cases he
  · exact fun hm => ⟨_, hm, if_pos rfl⟩

theorem Event.exists_packet {e : Event} {z : Addr} {m : Rpc} (h : m ∈ e.after.posts z) :
    ∃ p ∈ e.packets, p.dst = z ∧ p.rpc = m :=
  ⟨⟨e.server, z, m, e.input.call, e.after⟩, Event.mem_packets.mpr ⟨RaftServer.mem_posts.mp h, rfl, rfl, rfl⟩,
    rfl, rfl⟩

/-! ## Where an exchange is -/

namespace Exchange

variable {c : Cluster} {log log₀ : List RpcEntry} {k : Nat} {x : Exchange}

theorem Phase.inflight_cases (h : Phase log log₀ k x) :
    (∃ n ae, x.inflight = [.appendEntry ae] ∧ Asked log x n ae) ∨
    (∃ n resp, x.inflight = [.respAppend resp] ∧ Answered log x n resp ∧ (resp.ok = false → 0 < n)) ∨
    x.inflight = [] ∧ Repaired log x := by
  cases h with
  | asked h => exact .inl ⟨_, _, h.inflight, h⟩
  | going h hm =>
    refine .inr (.inl ⟨_, _, h.inflight, h, fun hok => ?_⟩)
    simp only [hok, Bool.false_eq_true, false_and, false_or] at hm
    omega
  | last h hok => exact .inr (.inl ⟨_, _, h.inflight, h, fun hno => by rw [hok] at hno; cases hno⟩)
  | done h hquiet => exact .inr (.inr ⟨hquiet, h⟩)

theorem Phase.reply_server {resp : RespAppendEntryRpc} (h : Phase log log₀ k x)
    (hin : .respAppend resp ∈ x.inflight) :
    resp.server = x.follower.server := by
  rcases h.inflight_cases with ⟨_, ae, hflies, -⟩ | ⟨_, resp', hflies, ha, -⟩ | ⟨hquiet, -⟩
  · simp [hflies] at hin
  · simp only [hflies, List.mem_singleton, Rpc.respAppend.injEq] at hin
    rw [hin]
    exact ha.server
  · simp [hquiet] at hin

/-- The exchange is over in time. -/
theorem Phase.lt (h : Phase log log₀ k x) (hbusy : x.inflight ≠ []) : k < 4 * log.length + 4 := by
  have haes := h.aes_le
  cases h with
  | done _ hquiet => exact absurd hquiet hbusy
  | _ => omega

end Exchange

section Runs

variable {SM : Type} [StateMachine SM] {c : Cluster} {blank : Prop} {log : List RpcEntry} {σ : System SM}
  {s f u : Addr} {k j : Nat}
  {x z : Exchange}

omit [StateMachine SM] in
theorem Copying.frame {σ' : System SM} (h : Copying c blank log σ s f k x) (hs : σ'.raft s = σ.raft s)
    (hf : σ'.raft f = σ.raft f) (hstays : ∀ p ∈ σ.inflight, p.dst = f ∨ p.dst = s → p ∈ σ'.inflight) :
    Copying c blank log σ' s f k x := by
  refine ⟨⟨h.plays.primary.trans hs.symm, h.plays.follower.trans hf.symm, fun ae hae => ?_, fun resp hresp => ?_⟩,
    h.talks, h.phase, h.careful, h.heard⟩
  · obtain ⟨p, hp, hdst, hrpc⟩ := h.plays.asked ae hae
    exact ⟨p, hstays p hp (.inl hdst), hdst, hrpc⟩
  · obtain ⟨p, hp, hdst, hrpc⟩ := h.plays.answered resp hresp
    exact ⟨p, hstays p hp (.inr hdst), hdst, hrpc⟩

/-- From `σ` to `σ'`, `s` has taken nothing but messages of servers, and applied nothing but entries of `log`. -/
structure Attends (log : List RpcEntry) (s : Addr) (σ σ' : System SM) : Prop where
  ready : (σ'.nodes s).ready = (σ.nodes s).ready
  ran : runBy σ'.trace s = runBy σ.trace s
  clients : (σ'.raft s).entryIndexToSocketAddrMap = (σ.raft s).entryIndexToSocketAddrMap
  handed : ∀ task ∈ handedTo σ'.trace s, task ∈ handedTo σ.trace s ∨
    ∃ (n : Nat) (entry : RpcEntry), task = ((n : Int), entry.msg) ∧ log[n]? = some entry

omit [StateMachine SM] in
theorem Attends.refl (log : List RpcEntry) (s : Addr) (σ : System SM) : Attends log s σ σ :=
  ⟨rfl, rfl, rfl, fun _ h => .inl h⟩

omit [StateMachine SM] in
theorem Attends.trans {σ₁ σ₂ : System SM} (h₁ : Attends log s σ σ₁) (h₂ : Attends log s σ₁ σ₂) :
    Attends log s σ σ₂ := by
  refine ⟨h₂.ready.trans h₁.ready, h₂.ran.trans h₁.ran, h₂.clients.trans h₁.clients, fun task ht => ?_⟩
  rcases h₂.handed task ht with ht | hlog
  · exact h₁.handed task ht
  · exact .inr hlog

theorem Reachable.exists_handed (hr : Reachable c σ) {n : Nat} (h : n ≤ (σ.raft s).smc.appliedIndex) :
    ∃ task, (handedTo σ.trace s)[n]? = some task := by
  have hlength := congrArg List.length (hr.served s).indexes
  rw [List.length_map, List.length_map, List.length_range] at hlength
  refine ⟨_, List.getElem?_eq_getElem ?_⟩
  unfold System.raft at h
  omega

theorem Reachable.handed_le (hr : Reachable c σ) {task : Int × String} (h : task ∈ handedTo σ.trace s) :
    task.1 ≤ (σ.raft s).smc.appliedIndex := by
  have hmem := List.mem_map_of_mem (f := Prod.fst) h
  rw [(hr.served s).indexes] at hmem
  obtain ⟨i, hi, heq⟩ := List.mem_map.mp hmem
  have := List.mem_range.mp hi
  unfold System.raft
  omega

theorem Attends.other {e : Event} {rest : List Packet} (hs : s ≠ e.server) : Attends log s σ (σ.next e rest) := by
  have hhands : e.hands s = [] := if_neg (Ne.symm hs)
  have hruns : e.runs s = [] := by unfold Event.runs; split <;> simp [Ne.symm hs]
  have hnodes : (σ.next e rest).nodes s = σ.nodes s := by rw [System.nodes_next, if_neg hs]
  refine ⟨by rw [hnodes], ?_, by rw [System.raft_eq hnodes], fun task ht => .inl ?_⟩
  · simp [runBy, gather, hruns]
  · simpa [handedTo, gather, hhands] using ht

/-- A message that leaves the log of `s` what it is. -/
theorem Step.attends {e : Event} {rest : List Packet} {p : Packet} (h : Step c σ e rest) (hr : Reachable c σ)
    (hi : e.input = .message p) (hlog : e.after.entries.log = log) : Attends log e.server σ (σ.next e rest) := by
  have hruns : e.runs e.server = [] := by simp [Event.runs, hi]
  refine ⟨System.ready_message hi, ?_, ?_, fun task ht => ?_⟩
  · simp [runBy, gather, hruns]
  · rw [System.raft_next_self, RaftServer.taken_entryIndexToSocketAddrMap]
    rcases (h.outcome hr).map with hmap | ⟨_, _, hclient, -⟩
    · rw [hmap, h.before]
    · rw [hi] at hclient
      cases hclient
  · rw [mem_handedTo] at ht ⊢
    obtain ⟨d, hd, hserver, happly⟩ := ht
    rcases List.mem_cons.mp hd with rfl | hd
    · obtain ⟨n, entry, hn, hget, hmsg, -⟩ := ((h.outcome hr).applied (h.idle hr)).tasks happly
      exact .inr ⟨n, entry, Prod.ext hn hmsg.symm, hlog ▸ hget⟩
    · exact .inl ⟨d, hd, hserver, happly⟩

theorem Attends.applied {σ' : System SM} (h : Attends log s σ σ') (hr : Reachable c σ) (hr' : Reachable c σ')
    (hlt : (σ.raft s).smc.appliedIndex < log.length) : (σ'.raft s).smc.appliedIndex < log.length := by
  by_contra hge
  obtain ⟨task, hget⟩ := hr'.exists_handed (s := s) (n := log.length) (by omega)
  have hindex := hr'.handed_index hget
  rcases h.handed task (List.mem_of_getElem? hget) with ht | ⟨n, entry, rfl, hlog⟩
  · have := hr.handed_le ht
    omega
  · have := (List.getElem?_eq_some_iff.mp hlog).1
    simp only at hindex
    omega

/-- What the exchanges with the servers of `fs` leave alone. -/
structure Spares (c : Cluster) (blank : Prop) (log : List RpcEntry) (s : Addr) (fs : List Addr)
    (σ σ' : System SM) :
    Prop where
  saved : (σ'.raft s).followerSavedIndex.get s = (σ.raft s).followerSavedIndex.get s
  recounted : (σ.raft s).Recounted → (σ'.raft s).Recounted
  attends : Attends log s σ σ'
  others : ∀ u, u ≠ s → u ∉ fs → ∀ j z, Copying c blank log σ s u j z →
    ∃ z', Copying c blank log σ' s u j z' ∧ z'.inflight = z.inflight

omit [StateMachine SM] in
theorem Spares.refl (fs : List Addr) (σ : System SM) : Spares c blank log s fs σ σ :=
  ⟨rfl, id, .refl _ _ _, fun _ _ _ _ z hz => ⟨z, hz, rfl⟩⟩

omit [StateMachine SM] in
theorem Spares.trans {fs : List Addr} {σ₁ σ₂ : System SM} (h₁ : Spares c blank log s fs σ σ₁)
    (h₂ : Spares c blank log s fs σ₁ σ₂) : Spares c blank log s fs σ σ₂ := by
  refine ⟨h₂.saved.trans h₁.saved, h₂.recounted ∘ h₁.recounted, h₁.attends.trans h₂.attends,
    fun u hne hu j z hz => ?_⟩
  obtain ⟨z₁, hz₁, hsame₁⟩ := h₁.others u hne hu j z hz
  obtain ⟨z₂, hz₂, hsame₂⟩ := h₂.others u hne hu j z₁ hz₁
  exact ⟨z₂, hz₂, hsame₂.trans hsame₁⟩

omit [StateMachine SM] in
theorem Spares.mono {fs gs : List Addr} {σ' : System SM} (h : Spares c blank log s fs σ σ')
    (hsub : ∀ a ∈ fs, a ∈ gs) :
    Spares c blank log s gs σ σ' :=
  ⟨h.saved, h.recounted, h.attends, fun u hne hu => h.others u hne fun hin => hu (hsub u hin)⟩

theorem Copying.ask (h : Copying c blank log σ s f k x) (hr : Reachable c σ) (hf : f ∈ c.configuration)
    (hne : f ≠ s) {n : Nat} {ae : AppendEntryRpc} (ha : Asked log x n ae) {y : RaftServer}
    (hy : (σ.raft f).react2ae ae = .ok y) :
    ∃ (σ' : System SM) (x' : Exchange), Reaches c [f] σ σ' ∧ Copying c blank log σ' s f (k + 1) x' ∧
      (x'.inflight = [] → (σ'.raft s).Recounted) ∧ Spares c blank log s [f] σ σ' := by
  obtain ⟨hplays, ht, ⟨log₀, hm, hphase⟩, hcareful, hheard⟩ := h
  obtain ⟨p, hp, hdst, hrpc⟩ := hplays.asked ae (by simp [ha.inflight])
  obtain ⟨e, rest, hst, hserver, -, rfl, hrest⟩ :=
    exists_delivery hp (hdst ▸ hf) (r := y) (by rw [hdst, hrpc]; exact hy)
  obtain rfl : e.server = f := hserver.trans hdst
  have hs : (σ.next e rest).raft s = σ.raft s := System.raft_next_ne hne.symm
  have hprimary : x.primary.server = s := by rw [hplays.primary, (hr.wired.known s).server]
  rw [← hplays.follower] at hy
  obtain ⟨resp, hans, -⟩ := ha.deliver ht hy
  have hdeliver : x.deliver = .ok (x.followerReturned e.after []) := by
    simp [Exchange.deliver, ha.inflight, hy, bind, Except.bind, pure, Except.pure]
  obtain ⟨ht', hphase'⟩ := hphase.deliver ht hm hdeliver
  refine ⟨_, x.followerReturned e.after [], hst.reaches,
    ⟨⟨hplays.primary.trans hs.symm, System.raft_next_self.symm,
    fun ae' hae => ?_, fun resp' hresp => ?_⟩, ht', ⟨log₀, hm, hphase'⟩, fun hb => (hcareful hb).ask ht ha hy,
    hheard.ask ht ha hy⟩, fun hquiet => ?_,
    ⟨by rw [hs], by rw [hs]; exact id, .other hne.symm, fun u _ hu j z hz => ⟨z, ?_, rfl⟩⟩⟩
  · simp [hans.inflight] at hae
  · obtain ⟨q, hq, hq_dst, hq_rpc⟩ := Event.exists_packet (e := e) (z := s) (m := .respAppend resp') (by
      rw [← hprimary]
      exact hresp)
    exact ⟨q, List.mem_append_right _ hq, hq_dst, hq_rpc⟩
  · simp [hans.inflight] at hquiet
  · rw [List.mem_singleton] at hu
    refine hz.frame hs (System.raft_next_ne hu) fun q hq hq_dst => List.mem_append_left _ (hrest q hq ?_)
    rintro rfl
    rcases hq_dst with hq_dst | hq_dst
    · exact hu (hq_dst.symm.trans hdst)
    · exact hne (hdst.symm.trans hq_dst)

theorem Copying.beside {e : Event} {rest : List Packet} {resp : RespAppendEntryRpc} {p : Packet}
    (h : Copying c blank log σ e.server f k x) (hne : f ≠ e.server) (hk : Known c f (σ.raft f))
    (hy : x.primary.react2respAe resp = .ok e.after) (hfrom : resp.server ∈ c.configuration)
    (hother : resp.server ≠ f) (hle : resp.term ≤ x.primary.term) (hdst : p.dst = e.server)
    (hrpc : p.rpc = .respAppend resp) (hgrows : blank → x.primary.commitIndex ≤ e.after.commitIndex)
    (hrest : ∀ q ∈ σ.inflight, q ≠ p → q ∈ rest) :
    ∃ x', Copying c blank log (σ.next e rest) e.server f k x' ∧ x'.inflight = x.inflight := by
  obtain ⟨hplays, ht, ⟨log₀, hm, hphase⟩, hcareful, hheard⟩ := h
  have hfollower : x.follower.server = f := by rw [hplays.follower, hk.server]
  obtain ⟨ht', hphase'⟩ := hphase.other ht (ht.known.configuration ▸ hfrom) (hfollower ▸ hother) hle hy
  have hposts := (RaftServer.react2respAe_elsewhere ht.idle hle hy hother.symm).posts
  have hflies : (x.primaryReturned e.after x.inflight).inflight = x.inflight := by
    show x.inflight ++ e.after.posts x.follower.server = x.inflight
    rw [hfollower, hposts, List.append_nil]
  refine ⟨x.primaryReturned e.after x.inflight, ⟨⟨System.raft_next_self.symm,
    hplays.follower.trans (System.raft_next_ne hne).symm, fun ae hae => ?_, fun resp' hresp => ?_⟩, ht',
    ⟨log₀, hm, hphase'⟩, fun hb => (hcareful hb).other ht (hfollower ▸ hother) hle hy (hgrows hb),
    hheard.other ht (hfollower ▸ hother) hle hy⟩, hflies⟩
  · rw [hflies] at hae
    obtain ⟨q, hq, hq_dst, hq_rpc⟩ := hplays.asked ae hae
    refine ⟨q, List.mem_append_left _ (hrest q hq fun he => ?_), hq_dst, hq_rpc⟩
    exact hne (by rw [← hq_dst, he, hdst])
  · rw [hflies] at hresp
    obtain ⟨q, hq, hq_dst, hq_rpc⟩ := hplays.answered resp' hresp
    refine ⟨q, List.mem_append_left _ (hrest q hq fun he => ?_), hq_dst, hq_rpc⟩
    -- what is on the way from `f` is not the reply that is taken
    rw [he, hrpc] at hq_rpc
    cases hq_rpc
    exact hother ((hphase.reply_server hresp).trans hfollower)

theorem Copying.answer (h : Copying c blank log σ s f k x) (hr : Reachable c σ) (hs : s ∈ c.configuration)
    (hne : f ≠ s) {n : Nat} {resp : RespAppendEntryRpc} (ha : Answered log x n resp)
    (hpos : resp.ok = false → 0 < n) :
    ∃ (σ' : System SM) (x' : Exchange), Reaches c [s] σ σ' ∧ Copying c blank log σ' s f (k + 1) x' ∧
      (x'.inflight = [] → (σ'.raft s).Recounted) ∧ Spares c blank log s [f] σ σ' := by
  obtain ⟨hplays, ht, ⟨log₀, hm, hphase⟩, hcareful, hheard⟩ := h
  obtain ⟨y, hy⟩ := ha.returns ht hpos
  have hprimary : x.primary.server = s := by rw [hplays.primary, (hr.wired.known s).server]
  have hfollower : x.follower.server = f := by rw [hplays.follower, (hr.wired.known f).server]
  have hfrom : resp.server = f := ha.server.trans hfollower
  have hdeliver : x.deliver = .ok (x.primaryReturned y []) := by
    simp [Exchange.deliver, ha.inflight, hy, bind, Except.bind, pure, Except.pure]
  obtain ⟨ht', hphase'⟩ := hphase.deliver ht hm hdeliver
  have hterm := ha.term
  have hlsn := ha.lsn
  -- either the exchange is over, or the next AE is on its way
  have hcases : (x.primaryReturned y []).inflight = [] ∧ resp.ok = true ∨
      ∃ ae, (x.primaryReturned y []).inflight = [.appendEntry ae] := by
    rcases (ha.deliver ht hy).2 with ⟨hok, -, hquiet, -⟩ | ⟨_, ae, hasked, -⟩
    · exact .inl ⟨hquiet, hok⟩
    · exact .inr ⟨ae, hasked.inflight⟩
  have hrecounts := RaftServer.react2respAe_recounts hy (Int.le_of_eq hterm)
  have hown := RaftServer.react2respAe_elsewhere (z := s) ht.idle (Int.le_of_eq hterm) hy (hfrom ▸ hne.symm)
  obtain ⟨p, hp, hdst, hrpc⟩ := hplays.answered resp (by simp [ha.inflight])
  obtain ⟨e, rest, hst, hserver, hi, rfl, hrest⟩ := exists_delivery hp (hdst ▸ hs) (r := y) (by
    rw [hdst, hrpc, ← hplays.primary]
    exact hy)
  obtain rfl : e.server = s := hserver.trans hdst
  have hafter : (σ.next e rest).raft e.server = e.after.taken := System.raft_next_self
  refine ⟨_, x.primaryReturned e.after [], hst.reaches, ⟨⟨hafter.symm, ?_, fun ae hae => ?_,
    fun resp' hresp => ?_⟩, ht', ⟨log₀, hm, hphase'⟩, fun hb => (hcareful hb).answer ht ha hy,
      hheard.answer ht ha hy⟩,
    fun hquiet => ?_, ⟨?_, fun hrec => ?_, hst.attends hr hi ht'.unchanged, fun u hu hnot j z hz => ?_⟩⟩
  · exact hplays.follower.trans (System.raft_next_ne hne).symm
  · obtain ⟨q, hq, hq_dst, hq_rpc⟩ := Event.exists_packet (e := e) (z := f) (m := .appendEntry ae) (by
      rw [← hfollower]
      exact hae)
    exact ⟨q, List.mem_append_right _ hq, hq_dst, hq_rpc⟩
  · rcases hcases with ⟨hquiet, -⟩ | ⟨ae, hflies⟩
    · simp [hquiet] at hresp
    · simp [hflies] at hresp
  · rw [hafter]
    rcases hcases with ⟨-, hok⟩ | ⟨ae, hflies⟩
    · rcases hrecounts with ⟨hnot, -⟩ | ⟨-, t, ht, hsame⟩
      · exact absurd ⟨⟨ht.primary, hterm, ha.server.symm ▸ hlsn⟩, hok⟩ hnot
      · exact hsame.recounted ht.recounted
    · simp [hflies] at hquiet
  · rw [hafter, ← hplays.primary]
    exact hown.saved
  · rw [hafter]
    rw [← hplays.primary] at hrec
    rcases hrecounts with ⟨-, hsame⟩ | ⟨-, t, ht, hsame⟩
    · exact hsame.recounted hrec
    · exact hsame.recounted ht.recounted
  · have hmem : resp.server ∈ c.configuration := ha.server ▸ ht.follower
    refine hz.beside hu (hr.wired.known u) ?_ hmem ?_ ?_ hdst hrpc ?_ hrest
    · rw [hz.plays.primary, ← hplays.primary]
      exact hy
    · rw [hfrom]
      exact fun he => hnot (by simp [he])
    · rw [hz.plays.primary, ← hplays.primary]
      exact Int.le_of_eq hterm
    · rw [hz.plays.primary, ← hplays.primary]
      exact fun hb => (hcareful hb).grows ht ha hy

/-- A message on the way ends `f`: its handler throws because the commit index would decrease. -/
def Crashes (σ : System SM) (f : Addr) : Prop :=
  ∃ p ∈ σ.inflight, p.dst = f ∧ (σ.raft f).handle (.message p) = .error .commitDecreases

/-- The message on the way arrives. -/
theorem Copying.advance (h : Copying c blank log σ s f k x) (hr : Reachable c σ) (hs : s ∈ c.configuration)
    (hf : f ∈ c.configuration) (hne : f ≠ s) (hbusy : x.inflight ≠ []) :
    (¬ blank ∧ Crashes σ f) ∨
    ∃ (σ' : System SM) (x' : Exchange), Reaches c [s, f] σ σ' ∧ Copying c blank log σ' s f (k + 1) x' ∧
      (x'.inflight = [] → (σ'.raft s).Recounted) ∧ Spares c blank log s [f] σ σ' := by
  obtain ⟨log₀, -, hphase⟩ := h.phase
  rcases hphase.inflight_cases with ⟨n, ae, hflies, ha⟩ | ⟨n, resp, -, ha, hpos⟩ | ⟨hquiet, -⟩
  · cases hy : (σ.raft f).react2ae ae with
    | error exn =>
      have hy' : x.follower.react2ae ae = .error exn := by
        rw [h.plays.follower]
        exact hy
      obtain rfl := ha.throws h.talks hy'
      obtain ⟨p, hp, hdst, hrpc⟩ := h.plays.asked ae (by simp [hflies])
      refine .inl ⟨fun hb => (h.careful hb).covers h.talks ?_ ha hy', p, hp, hdst, ?_⟩
      · rw [h.plays.follower]
        exact hr.ranges f
      · rw [RaftServer.handle_appendEntry hrpc, hy]
    | ok y =>
      obtain ⟨σ', x', hreach, h', hrec, hspares⟩ := h.ask hr hf hne ha hy
      exact .inr ⟨σ', x', hreach.mono (by simp), h', hrec, hspares⟩
  · obtain ⟨σ', x', hreach, h', hrec, hspares⟩ := h.answer hr hs hne ha hpos
    exact .inr ⟨σ', x', hreach.mono (by simp), h', hrec, hspares⟩
  · exact absurd hquiet hbusy

/-- **An exchange in the cluster can be brought to its end.** -/
theorem Copying.finish {k : Nat} {x : Exchange} {σ : System SM} (h : Copying c blank log σ s f k x)
    (hr : Reachable c σ) (hs : s ∈ c.configuration) (hf : f ∈ c.configuration) (hne : f ≠ s)
    (hrec : x.inflight = [] → (σ.raft s).Recounted) :
    ∃ σ' : System SM, Reaches c [s, f] σ σ' ∧ ((¬ blank ∧ Crashes σ' f) ∨
      (∃ k' x', Copying c blank log σ' s f k' x' ∧ x'.inflight = []) ∧ (σ'.raft s).Recounted ∧
        Spares c blank log s [f] σ σ') := by
  by_cases hquiet : x.inflight = []
  · exact ⟨σ, .refl, .inr ⟨⟨k, x, h, hquiet⟩, hrec hquiet, .refl _ σ⟩⟩
  obtain ⟨_, -, hphase⟩ := h.phase
  have hlt := hphase.lt hquiet
  rcases h.advance hr hs hf hne hquiet with hcrash | ⟨σ₁, x₁, hreach₁, h₁, hrec₁, hspares₁⟩
  · exact ⟨σ, .refl, .inl hcrash⟩
  · obtain ⟨σ₂, hreach₂, hcrash | ⟨hend, hrec₂, hspares₂⟩⟩ := h₁.finish (hreach₁.reachable hr) hs hf hne hrec₁
    · exact ⟨σ₂, hreach₁.trans hreach₂, .inl hcrash⟩
    · exact ⟨σ₂, hreach₁.trans hreach₂, .inr ⟨hend, hrec₂, hspares₁.trans hspares₂⟩⟩
termination_by 4 * log.length + 4 - k

/-- One exchange after the other. -/
theorem Copying.finish_all :
    ∀ {fs : List Addr} {σ : System SM}, (s :: fs).Nodup → Reachable c σ → s ∈ c.configuration →
    (∀ f ∈ fs, f ∈ c.configuration ∧ ∃ k x, Copying c blank log σ s f k x ∧ x.inflight ≠ []) →
    ∃ σ' : System SM, Reaches c (s :: fs) σ σ' ∧ ((¬ blank ∧ ∃ f ∈ fs, Crashes σ' f) ∨
      (∀ f ∈ fs, ∃ k x, Copying c blank log σ' s f k x ∧ x.inflight = []) ∧ (fs ≠ [] → (σ'.raft s).Recounted) ∧
        Spares c blank log s fs σ σ')
  | [], σ, _, _, _, _ => ⟨σ, .refl, .inr ⟨nofun, fun h => absurd rfl h, .refl _ σ⟩⟩
  | f :: fs, σ, hn, hr, hs, h => by
    simp only [List.nodup_cons, List.mem_cons, not_or] at hn
    obtain ⟨⟨hsf, hself⟩, hnot, hn⟩ := hn
    obtain ⟨hf, k, x, hx, hbusy⟩ := h f (by simp)
    obtain ⟨σ₁, hreach₁, ⟨hb, hcrash⟩ | ⟨⟨k₁, x₁, hx₁, hquiet₁⟩, hrec₁, hspares₁⟩⟩ :=
      hx.finish hr hs hf (Ne.symm hsf) fun hquiet => absurd hquiet hbusy
    · exact ⟨σ₁, hreach₁.mono (by simp), .inl ⟨hb, f, by simp, hcrash⟩⟩
    have hrest : ∀ g ∈ fs, g ∈ c.configuration ∧ ∃ k x, Copying c blank log σ₁ s g k x ∧ x.inflight ≠ [] :=
        fun g hg => by
      obtain ⟨hg_mem, j, z, hz, hz_busy⟩ := h g (by simp [hg])
      have hgf : g ∉ [f] := fun he => hnot (List.mem_singleton.mp he ▸ hg)
      obtain ⟨z', hz', hsame⟩ := hspares₁.others g (fun he => hself (he ▸ hg)) hgf j z hz
      exact ⟨hg_mem, j, z', hz', hsame ▸ hz_busy⟩
    obtain ⟨σ₂, hreach₂, hend⟩ :=
      Copying.finish_all (List.nodup_cons.mpr ⟨hself, hn⟩) (hreach₁.reachable hr) hs hrest
    refine ⟨σ₂, (hreach₁.mono (by simp)).trans (hreach₂.mono ?_), ?_⟩
    · intro a ha
      rcases List.mem_cons.mp ha with rfl | ha <;> simp [*]
    rcases hend with ⟨hb, g, hg, hcrash⟩ | ⟨hdone₂, -, hspares₂⟩
    · exact .inl ⟨hb, g, by simp [hg], hcrash⟩
    · refine .inr ⟨fun g hg => ?_, fun _ => hspares₂.recounted hrec₁,
        (hspares₁.mono (by simp)).trans (hspares₂.mono fun a ha => by simp [ha])⟩
      rcases List.mem_cons.mp hg with rfl | hg
      · obtain ⟨x₂, hx₂, hsame⟩ := hspares₂.others g (Ne.symm hsf) hnot k₁ x₁ hx₁
        exact ⟨k₁, x₂, hx₂, hsame.trans hquiet₁⟩
      · exact hdone₂ g hg

/-! ## The new primary -/

variable {v : Addr} {T : Int} {voters : List Addr} {e : Event} {rest : List Packet}

/-- Its first AE begins an exchange with each server it calls. -/
theorem TakesOver.copying (h : TakesOver c σ e rest s T) (hr : Reachable c σ) (hv : v ∈ c.configuration)
    (hport : v.port ≠ s.port) (hle : (σ.raft v).term ≤ T)
    (hnot : ¬ ((σ.raft v).state = .primary ∧ (σ.raft v).term = T))
    (hm : Matching RpcEntry.term (σ.raft s).entries.log (σ.raft v).entries.log)
    (hblank : blank → (σ.raft s).commitIndex = -1 ∧ (σ.raft v).commitIndex = -1)
    (hold : ∀ entry ∈ (σ.raft v).entries.log, entry.term < T) :
    ∃ k x, Copying c blank (σ.raft s).entries.log (σ.next e rest) s v k x ∧ x.inflight ≠ [] := by
  obtain ⟨hst, rfl, rfl, ⟨votes, hy⟩, -⟩ := h
  have hk := hr.wired.known e.server
  have hkv := hr.wired.known v
  have hne : v ≠ e.server := fun he => hport (by rw [he])
  have hother : v ∈ (σ.raft e.server).others :=
    List.mem_filter.mpr ⟨by rw [hk.configuration]; exact hv, by rw [hk.server]; exact decide_eq_true hport⟩
  have hopens := Exchange.opens_of_reachable hr hst.member hother hle hnot votes
  obtain ⟨ht, hphase⟩ := hopens.phase hy
  have hnodup : (σ.raft e.server).configuration.Nodup := by rw [hk.configuration]; exact c.nodup
  have hsent : SentAes ({ σ.raft e.server with winnedVotes := votes } : RaftServer).becomePrimary
    (σ.raft e.server).others e.after :=
    @RaftServer.trans2P_ok { σ.raft e.server with winnedVotes := votes } _ hnodup hy
  obtain ⟨n, ae, hposts, -, -⟩ := hsent.posts (hnodup.filter _) (RaftServer.posts_idle hopens.idle) hother
  have hflies : (Exchange.opened e.after (σ.raft v)).inflight = [.appendEntry ae] := by
    show e.after.posts (σ.raft v).server = _
    rw [hkv.server, hposts]
  have harmed : e.after.Armed v := by
    unfold RaftServer.Armed
    rw [hsent.rearmed.armed v hother, RaftServer.becomePrimary_retryTimers, RaftServer.rearmed,
      if_pos (RaftServer.get_expiresAtMin _ v).1]
  have hterm : e.after.term = (σ.raft e.server).term := by
    obtain ⟨_, _, _, hframe⟩ := hsent.eq
    rw [hframe]
    rfl
  refine ⟨0, _, ⟨⟨System.raft_next_self.symm, (System.raft_next_ne hne).symm, fun ae' hae => ?_,
    fun resp hresp => ?_⟩, ht,
    ⟨_, hm, hphase⟩, fun hb => ?_, ⟨?_, fun entry hmem => .inr ?_, ?_, ?_⟩⟩, by simp [hflies]⟩
  · obtain ⟨q, hq, hdst, hrpc⟩ := Event.exists_packet (e := e) (z := v) (m := .appendEntry ae) (by simp [hposts])
    simp only [hflies, List.mem_singleton] at hae
    exact ⟨q, List.mem_append_right _ hq, hdst, hrpc.trans hae.symm⟩
  · simp [hflies] at hresp
  · exact hopens.careful hy (hblank hb).1 (hblank hb).2
  · exact hkv.server.symm ▸ harmed
  · exact lt_of_lt_of_eq (hold entry hmem) hterm.symm
  · simp [hflies]
  · simp [hflies]

/-- Its own index is the last of its log. -/
theorem TakesOver.saved (h : TakesOver c σ e rest s T) (hr : Reachable c σ) :
    ((σ.next e rest).raft s).followerSavedIndex.get s = ((σ.raft s).entries.log.length : Int) - 1 := by
  obtain ⟨-, rfl, -, ⟨votes, hy⟩, -⟩ := h
  have hk := hr.wired.known e.server
  have hnodup : (σ.raft e.server).configuration.Nodup := by rw [hk.configuration]; exact c.nodup
  obtain ⟨_, -, hcalled⟩ := @RaftServer.trans2P_ok { σ.raft e.server with winnedVotes := votes } _ hnodup hy
  obtain ⟨_, _, hframe⟩ := hcalled.frame
  have hsize := Entries.size_eq (σ.raft e.server).entries
  rw [System.raft_next_self, hframe]
  simp [RaftServer.becomePrimary_followerSavedIndex, hk.server, hsize]

/-- What a majority has saved is committed. -/
theorem Reachable.recounted (hr : Reachable c σ) (hrec : (σ.raft s).Recounted) (hs : s ∈ c.configuration)
    (hvoters : (s :: voters).Nodup) (hmem : ∀ v ∈ voters, v ∈ c.configuration)
    (hmajority : c.configuration.length / 2 ≤ voters.length) {n : Int}
    (hsaved : ∀ a ∈ s :: voters, n ≤ (σ.raft s).followerSavedIndex.get a) : n ≤ (σ.raft s).commitIndex := by
  have hk := hr.wired.known s
  have hkeys := (hr.ranges s).keys
  rw [hrec, RaftServer.le_majorityIndex_iff (by rw [hkeys, hk.configuration])
    (by rw [hk.majority, hk.configuration]) (by rw [hk.configuration]; exact List.ne_nil_of_mem hs)]
  unfold RaftServer.MajorityHolds
  rw [hk.majority, hk.configuration, List.countP_eq_length_filter]
  have hsub : s :: voters ⊆ c.configuration.filter fun z => decide (n ≤ (σ.raft s).followerSavedIndex.get z) :=
    fun a ha => List.mem_filter.mpr ⟨by
      rcases List.mem_cons.mp ha with rfl | ha
      · exact hs
      · exact hmem a ha, decide_eq_true (hsaved a ha)⟩
  have hle := (List.subperm_of_subset hvoters hsub).length_le
  rw [List.length_cons] at hle
  omega

/-- `f` follows `s`, and holds `log` as `s` knows. -/
structure UpTo (σ : System SM) (s f : Addr) (log : List RpcEntry) : Prop where
  term : (σ.raft f).term = (σ.raft s).term
  state : (σ.raft f).state = .follower
  copied : log <+: (σ.raft f).entries.log
  entries : ∀ entry ∈ (σ.raft f).entries.log, entry ∈ log ∨ entry.term < (σ.raft s).term
  commit : (σ.raft f).commitIndex < log.length
  next : (σ.raft s).nextIndex.get f = log.length
  saved : (σ.raft s).followerSavedIndex.get f = (log.length : Int) - 1
  armed : (σ.raft s).Armed f

/-- The followers of an exchange that is over hold the log, and the primary knows. -/
theorem Copying.upTo (h : Copying c blank log σ s f k x) (hr : Reachable c σ) (hquiet : x.inflight = []) :
    UpTo σ s f log := by
  obtain ⟨hplays, ht, ⟨log₀, hm, hphase⟩, -, hheard⟩ := h
  have hserver : x.follower.server = f := by rw [hplays.follower, (hr.wired.known f).server]
  rcases hphase.inflight_cases with ⟨_, ae, hflies, -⟩ | ⟨_, resp, hflies, -, -⟩ | ⟨-, hrepaired⟩
  · simp [hflies] at hquiet
  · simp [hflies] at hquiet
  · obtain ⟨hterm, hstate, hcommit⟩ := hheard.quiet hquiet
    have hcopied := hrepaired.copied
    have hnext := hrepaired.next
    have hsaved := hrepaired.saved
    have hentries := hheard.entries
    have harmed := hheard.armed
    rw [hserver, hplays.primary] at hnext hsaved harmed
    rw [hplays.follower, hplays.primary] at hterm
    rw [hplays.follower] at hstate hcommit hcopied
    rw [hplays.follower, hplays.primary] at hentries
    exact ⟨hterm, hstate, hcopied, hentries, hcommit, hnext, hsaved, harmed⟩

/-- `s` leads with `log`, all of it committed, and the servers of `voters` hold it. -/
structure Agreed (σ : System SM) (s : Addr) (voters : List Addr) (log : List RpcEntry) : Prop where
  state : (σ.raft s).state = .primary
  unchanged : (σ.raft s).entries.log = log
  recounted : (σ.raft s).Recounted
  own : (σ.raft s).followerSavedIndex.get s = (log.length : Int) - 1
  commit : (σ.raft s).commitIndex = (log.length : Int) - 1
  voters : ∀ v ∈ voters, UpTo σ s v log

theorem Reachable.agreed (hr : Reachable c σ) (hs : s ∈ c.configuration) (hvoters : (s :: voters).Nodup)
    (hmem : ∀ v ∈ voters, v ∈ c.configuration) (hne : voters ≠ [])
    (hmajority : c.configuration.length / 2 ≤ voters.length)
    (hdone : ∀ v ∈ voters, ∃ k x, Copying c blank log σ s v k x ∧ x.inflight = []) (hrec : (σ.raft s).Recounted)
    (hown : (σ.raft s).followerSavedIndex.get s = (log.length : Int) - 1) : Agreed σ s voters log := by
  have hall : ∀ v ∈ voters, UpTo σ s v log := fun v hv => by
    obtain ⟨k, x, hx, hquiet⟩ := hdone v hv
    exact hx.upTo hr hquiet
  obtain ⟨v, hv⟩ := List.exists_mem_of_ne_nil voters hne
  obtain ⟨k, x, hx, -⟩ := hdone v hv
  have hprimary : (σ.raft s).state = .primary := hx.plays.primary ▸ hx.talks.primary
  have hlog : (σ.raft s).entries.log = log := hx.plays.primary ▸ hx.talks.unchanged
  have hhi := (hr.ranges s).commit_hi
  rw [hlog] at hhi
  have hlo := hr.recounted hrec hs hvoters hmem hmajority (n := (log.length : Int) - 1) fun a ha => by
    rcases List.mem_cons.mp ha with rfl | ha
    · exact Int.le_of_eq hown.symm
    · exact Int.le_of_eq (hall a ha).saved.symm
  exact ⟨hprimary, hlog, hrec, hown, by omega, hall⟩

/-- The entries of `log` are older than the term of `s`, and `s` has applied
none past it; its ready queue is empty. -/
structure Idles (σ : System SM) (s : Addr) (log : List RpcEntry) : Prop where
  older : ∀ entry ∈ log, entry.term < (σ.raft s).term
  applied : (σ.raft s).smc.appliedIndex < log.length
  ready : (σ.nodes s).ready = []

/-- The run of `majority_catches_up`. -/
theorem Pending.agrees (h : Pending σ s) (hr : Reachable c σ) (ho : Orderly σ.trace) (hs : s ∈ c.configuration)
    (hvoters : voters.Nodup) (hcalled : ∀ v ∈ voters, v ∈ c.configuration ∧ v.port ≠ s.port) (hne : voters ≠ [])
    (hmajority : c.configuration.length / 2 ≤ voters.length) :
    ∃ σ' : System SM, Reaches c (s :: voters) σ σ' ∧
      ((∃ a ∈ s :: voters, (σ.raft a).commitIndex ≠ -1) ∧ (∃ v ∈ voters, Crashes σ' v) ∨
      Agreed σ' s voters (σ.raft s).entries.log ∧
        ((σ.raft s).smc.appliedIndex < (σ.raft s).entries.log.length → Idles σ' s (σ.raft s).entries.log)) := by
  obtain ⟨σ₁, e, rest, T, hreach₁, hover, hbehind, hsame₁, honly⟩ := h.wins hr hs hvoters hcalled hne hmajority
  have hentries := hsame₁.entries
  have hr₁ := hreach₁.reachable hr
  have hself : ∀ v ∈ voters, v ≠ s := fun v hv he => (hcalled v hv).2 (by rw [he])
  have hnodup : (s :: voters).Nodup := List.nodup_cons.mpr ⟨fun hs => hself s hs rfl, hvoters⟩
  have hold : ∀ a ∈ s :: voters, ∀ entry ∈ (σ.raft a).entries.log, entry.term < T := fun a ha entry hmem =>
    Int.lt_of_le_of_lt ((hr.dated.1 a).le entry hmem) (hbehind a ha)
  let blank : Prop := ∀ a ∈ s :: voters, (σ.raft a).commitIndex = -1
  have hstart : ∀ v ∈ voters, v ∈ c.configuration ∧
      ∃ k x, Copying c blank (σ.raft s).entries.log (σ₁.next e rest) s v k x ∧ x.inflight ≠ [] := fun v hv => by
    obtain ⟨hsame, hvote⟩ := honly v (hself v hv)
    have hlt := hbehind v (by simp [hv])
    refine ⟨(hcalled v hv).1,
      hentries ▸ hover.copying hr₁ (hcalled v hv).1 (hcalled v hv).2 ?_ ?_ ?_ (fun hb => ?_) fun entry hmem => ?_⟩
    · rcases hvote with he | ⟨hterm, -⟩
      · exact he ▸ Int.le_of_lt hlt
      · exact Int.le_of_eq hterm
    · rintro ⟨hstate, hterm⟩
      rcases hvote with he | ⟨-, hfollower⟩
      · rw [he] at hterm
        omega
      · rw [hfollower] at hstate
        cases hstate
    · rw [hentries, hsame.entries]
      exact Exchange.matching_of_reachable hr ho s v
    · exact ⟨hsame₁.commit.trans (hb s (by simp)), hsame.commit.trans (hb v (by simp [hv]))⟩
    · rw [hsame.entries] at hmem
      exact hold v (by simp [hv]) entry hmem
  have hr₂ := hover.step.reachable hr₁
  obtain ⟨σ₂, hreach₂, hend⟩ := Copying.finish_all hnodup hr₂ hs hstart
  refine ⟨σ₂, (hreach₁.step (by simp [hover.server]) hover.step).trans hreach₂, hend.imp (.imp_left ?_) ?_⟩
  · intro hb
    simpa only [blank, not_forall, exists_prop] using hb
  rintro ⟨hdone, hrec, hspares⟩
  have hr₃ := hreach₂.reachable hr₂
  have hown : (σ₂.raft s).followerSavedIndex.get s = ((σ.raft s).entries.log.length : Int) - 1 := by
    rw [hspares.saved, hover.saved hr₁, hentries]
  refine ⟨hr₃.agreed hs hnodup (fun v hv => (hcalled v hv).1) hne hmajority hdone (hrec hne) hown, fun happlied =>
    ⟨fun entry hmem => ?_, ?_, hspares.attends.ready.trans hover.ready⟩⟩
  · obtain ⟨hleading, -⟩ := hover.leading hr₁
    exact Int.lt_of_lt_of_le (hold s (by simp) entry hmem) (hleading.term ▸ hreach₂.term_le hr₂ s)
  · refine hspares.attends.applied hr₂ hr₃ ?_
    rw [(hover.leading hr₁).2.smc, hsame₁.smc]
    exact happlied

/-- **A majority can always bring its logs together**, of two servers or more: any
of its servers whose election is pending, with nothing else queued in its
reactor, has a run ahead, of the majority alone, in which it becomes primary, the others come to hold its
log, and all of the log is committed. Only where one of them has committed something before can it end
otherwise, with a follower that throws because its commit index is ahead of the one it is told. -/
theorem majority_catches_up (hr : Reachable c σ) (ho : Orderly σ.trace) (hs : s ∈ c.configuration)
    (h : Pending σ s) (hvoters : voters.Nodup) (hcalled : ∀ v ∈ voters, v ∈ c.configuration ∧ v.port ≠ s.port)
    (hne : voters ≠ []) (hmajority : c.configuration.length / 2 ≤ voters.length) :
    ∃ σ' : System SM, Reaches c (s :: voters) σ σ' ∧
      ((∃ a ∈ s :: voters, (σ.raft a).commitIndex ≠ -1) ∧ (∃ v ∈ voters, Crashes σ' v) ∨
      (σ'.raft s).state = .primary ∧ (σ'.raft s).entries.log = (σ.raft s).entries.log ∧
      (∀ v ∈ voters, (σ.raft s).entries.log <+: (σ'.raft v).entries.log) ∧
      (σ'.raft s).commitIndex = ((σ.raft s).entries.log.length : Int) - 1) := by
  obtain ⟨σ', hreach, hend⟩ := h.agrees hr ho hs hvoters hcalled hne hmajority
  refine ⟨σ', hreach, hend.imp_right ?_⟩
  rintro ⟨hagreed, -⟩
  exact ⟨hagreed.state, hagreed.unchanged, fun v hv => (hagreed.voters v hv).copied, hagreed.commit⟩

end Runs

/-- B has the entry of A; it and C, whose log is empty, commit it. -/
theorem copyX_caught_up : ∃ σ : System Unit, (σ.raft serverB).entries.log.length = 1 ∧
    (σ.raft serverC).entries.log = [] ∧ ∃ σ' : System Unit, Reaches threeServers [serverB, serverC] σ σ' ∧
      (σ.raft serverB).entries.log <+: (σ'.raft serverC).entries.log ∧ (σ'.raft serverB).commitIndex = 0 := by
  obtain ⟨σ, hr, ho, hlog, hempty, hcommit, hready, hwaits⟩ := System.exists_reachable threeServers copyX
    (P := fun σ : System Unit => (OnePrimary σ.trace ∧ Along ApplyAtPrimary σ.trace) ∧
      (σ.raft serverB).entries.log.length = 1 ∧ (σ.raft serverC).entries.log = [] ∧
      (∀ a ∈ [serverB, serverC], (σ.raft a).commitIndex = -1) ∧
      (σ.nodes serverB).ready = [] ∧ (σ.raft serverB).candidateTimer.waits ≠ []) (by decide +kernel)
  obtain ⟨σ', hreach, hend⟩ := majority_catches_up hr ⟨ho.1, ho.2⟩ (by decide) ⟨hready, hwaits⟩
    (show [serverC].Nodup by decide) (by decide) (by decide) (by decide)
  rcases hend with ⟨⟨a, ha, hne⟩, -⟩ | ⟨-, -, hcopied, hindex⟩
  · exact absurd (hcommit a ha) hne
  · exact ⟨σ, hlog, hempty, σ', hreach, hcopied serverC (by simp), by rw [hindex, hlog]; rfl⟩

end MyRaft
