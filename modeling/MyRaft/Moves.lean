/-
What one input may change in a server, aspect by aspect: its role, its log, the
messages it sends and their lsn, the tables of a primary, the commit index.

Each theorem here is read off `Outcome`; the invariants of the protocol are
proved from these theorems and look at no handler again.
-/
import MyRaft.Outcome

namespace MyRaft

open StdLib (StdMap)

namespace RaftServer

variable {x y : RaftServer} {input : Input} {dst : Addr}

attribute [simp] makeRpcCall makeRespRv makeRespAe respondAe voted following counting

section Heard

variable (term : Int)

theorem heard_term (h : x.term ≤ term) : (x.heard term).term = term := by
  unfold heard
  split
  · rfl
  · omega

@[simp] theorem heard_server : (x.heard term).server = x.server := by unfold heard; split <;> rfl
@[simp] theorem heard_configuration : (x.heard term).configuration = x.configuration := by
  unfold heard; split <;> rfl
@[simp] theorem heard_majority : (x.heard term).majority = x.majority := by unfold heard; split <;> rfl
@[simp] theorem heard_entries : (x.heard term).entries = x.entries := by unfold heard; split <;> rfl
@[simp] theorem heard_commitIndex : (x.heard term).commitIndex = x.commitIndex := by unfold heard; split <;> rfl
@[simp] theorem heard_smc : (x.heard term).smc = x.smc := by unfold heard; split <;> rfl
@[simp] theorem heard_nextIndex : (x.heard term).nextIndex = x.nextIndex := by unfold heard; split <;> rfl
@[simp] theorem heard_saved : (x.heard term).followerSavedIndex = x.followerSavedIndex := by
  unfold heard; split <;> rfl
@[simp] theorem heard_map : (x.heard term).entryIndexToSocketAddrMap = x.entryIndexToSocketAddrMap := by
  unfold heard; split <;> rfl
@[simp] theorem heard_effects : (x.heard term).effects = x.effects := by unfold heard; split <;> rfl

theorem heard_state : (x.heard term).state = if x.term < term then .follower else x.state := by
  unfold heard
  split <;> rfl

end Heard

/-- Calls touch the lsn, the retry timers and the effects only. -/
theorem CalledAll.eq {t : RaftServer} {xs : List Addr} {rpc : Addr → Rpc} {kind : Addr → TimerHandler}
    (h : CalledAll t xs rpc kind y) :
    ∃ cur timers effects, y = { t with currentRpcLsn := cur, retryTimers := timers, effects := effects } := by
  obtain ⟨cur, timers, rfl⟩ := h.frame
  exact ⟨_, _, _, rfl⟩

theorem SentAes.eq {t : RaftServer} {xs : List Addr} (h : SentAes t xs y) :
    ∃ cur timers effects, y = { t with currentRpcLsn := cur, retryTimers := timers, effects := effects } := by
  obtain ⟨ae, -, hc⟩ := h
  exact hc.eq

/-- An acknowledged primary, up to the calls it makes next. -/
theorem Acked.eq {x t : RaftServer} {a : Addr} {resp : RespAppendEntryRpc} {timer : Timer} {xs : List Addr}
    (h : Acked x a resp t)
    (hxs : x.nextIndex.get a = x.entries.size ∧ xs = [] ∧ y = t ∨ xs = [a] ∧ SentAes (t.retryTimer a timer) xs y) :
    ∃ cur timers effects nextIndex,
      (∀ z, nextIndex.get z = if z = a then x.ackedIndex a resp + 1 else x.nextIndex.get z) ∧
      y = { x with
        currentRpcLsn := cur
        retryTimers := timers
        effects := effects
        nextIndex := nextIndex
        followerSavedIndex := x.followerSavedIndex.set a (x.ackedIndex a resp)
        commitIndex := (x.counting a resp).majorityIndex
        smc := ⟨max x.smc.appliedIndex (x.counting a resp).majorityIndex, (x.counting a resp).majorityIndex⟩
        } := by
  obtain ⟨nextIndex, tasks, hn, -, rfl⟩ := h.frame
  rcases hxs with ⟨-, -, rfl⟩ | ⟨-, hy⟩
  · exact ⟨_, _, _, nextIndex, hn, rfl⟩
  · obtain ⟨cur, timers, effects, rfl⟩ := hy.eq
    exact ⟨_, _, _, nextIndex, hn, rfl⟩

/-! ## Identity and role -/

theorem Outcome.static (h : Outcome x input y) :
    y.server = x.server ∧ y.configuration = x.configuration ∧ y.majority = x.majority := by
  cases h with
  | acked hp hterm hstate hlsn hok ht hw hxs =>
    obtain ⟨_, _, _, _, -, rfl⟩ := ht.eq hxs
    simp
  | won hp hterm hstate hlsn hok hm hy | nacked hp hterm hstate hlsn hok hnext hw hy | aeRetried hmin hy =>
    obtain ⟨_, _, _, rfl⟩ := hy.eq
    simp
  | campaigned hh hy | rvRetried hmin hy =>
    obtain ⟨_, _, _, rfl⟩ := CalledAll.eq hy
    simp
  | aeAccepted hp hle hnp hlsn hpre ht => simp [ht]
  | _ => simp

/-- Roles change four ways. -/
inductive Role (x y : RaftServer) : Prop
  | same (hterm : y.term = x.term) (hstate : y.state = x.state)
  | followed (hle : x.term ≤ y.term) (hstate : y.state = .follower) (hnp : x.term = y.term → x.state ≠ .primary)
  | campaigned (hterm : y.term = x.term + 1) (hstate : y.state = .candidate)
  | won (hterm : y.term = x.term) (hx : x.state = .candidate) (hstate : y.state = .primary)

theorem Outcome.role (h : Outcome x input y) : Role x y := by
  cases h with
  | acked hp hterm hstate hlsn hok ht hw hxs =>
    obtain ⟨_, _, _, _, -, rfl⟩ := ht.eq hxs
    exact .same rfl rfl
  | won hp hterm hstate hlsn hok hm hy =>
    obtain ⟨_, _, _, rfl⟩ := hy.eq
    exact .won rfl hstate rfl
  | nacked hp hterm hstate hlsn hok hnext hw hy | aeRetried hmin hy =>
    obtain ⟨_, _, _, rfl⟩ := hy.eq
    exact .same rfl rfl
  | campaigned hh hy =>
    obtain ⟨_, _, _, rfl⟩ := CalledAll.eq hy
    exact .campaigned rfl rfl
  | rvRetried hmin hy =>
    obtain ⟨_, _, _, rfl⟩ := CalledAll.eq hy
    exact .same rfl rfl
  | steppedDown hlt => exact .followed (Int.le_of_lt hlt) rfl fun he => absurd hlt (by simp [he])
  | @rvIgnored p rv hp hle | @rvDenied p rv hp hle | @rvGranted p rv hp hle =>
    by_cases hlt : x.term < rv.term
    · exact .followed (by simpa [heard_term _ hle] using hle) (by simp [heard_state, hlt])
        fun he => by simp [heard_term _ hle] at he; omega
    · exact .same (by simp [heard_term _ hle]; omega) (by simp [heard_state, hlt])
  | aeIgnored hp hle hnp | aeRejected hp hle hnp =>
    exact .followed hle rfl fun he hs => hnp ⟨hs, he⟩
  | aeAccepted hp hle hnp hlsn hpre ht =>
    exact .followed (by simpa [ht] using hle) (by simp [ht]) fun he hs => hnp ⟨hs, by simpa [ht] using he⟩
  | _ => exact .same rfl rfl

theorem Outcome.term_le (h : Outcome x input y) : x.term ≤ y.term := by
  cases h.role with
  | same | campaigned | won => omega
  | followed hle => exact hle

/-- A primary stays one until its term grows. -/
theorem Outcome.primary (h : Outcome x input y) (hx : x.state = .primary) (hterm : x.term = y.term) :
    y.state = .primary := by
  cases h.role with
  | same _ hs => rw [hs, hx]
  | followed _ _ hnp => exact absurd hx (hnp hterm)
  | campaigned ht => omega
  | won _ _ hs => exact hs

/-- A follower stays one until its term grows. -/
theorem Outcome.follower (h : Outcome x input y) (hx : x.state = .follower) (hterm : x.term = y.term) :
    y.state = .follower := by
  cases h.role with
  | same _ hs => rw [hs, hx]
  | followed _ hs => exact hs
  | campaigned ht => omega
  | won _ hc => rw [hx] at hc; cases hc

/-! ## Requests that pass the checks -/

/-- A vote granted. -/
structure Grants (x : RaftServer) (rv : RequestVoteRpc) (y : RaftServer) : Prop where
  term_le : x.term ≤ rv.term
  lsn : (x.heard rv.term).followerRpcLsn.get rv.server < rv.lsn
  was_follower : (x.heard rv.term).state = .follower
  not_voted : (x.heard rv.term).alreadyVoted = false
  shouldVote : x.shouldVote rv.term rv.latestIndex = .ok true
  term : y.term = rv.term
  state : y.state = .follower
  recorded : y.followerRpcLsn.get rv.server = rv.lsn
  entries : y.entries = x.entries

/-- An AE that passed the checks of term and lsn. -/
structure Follows (x : RaftServer) (ae : AppendEntryRpc) (y : RaftServer) : Prop where
  term_le : x.term ≤ ae.term
  not_primary : ¬ (x.state = .primary ∧ x.term = ae.term)
  lsn : (x.becomeFollower ae.term).followerRpcLsn.get ae.server < ae.lsn
  term : y.term = ae.term
  state : y.state = .follower
  recorded : y.followerRpcLsn.get ae.server = ae.lsn

structure Rejects (x : RaftServer) (ae : AppendEntryRpc) (y : RaftServer) : Prop extends Follows x ae y where
  prelog : ¬ PrelogOk x ae.prelogIndex ae.prelogTerm
  entries : y.entries = x.entries
  commit : y.commitIndex = x.commitIndex

structure Accepts (x : RaftServer) (ae : AppendEntryRpc) (y : RaftServer) : Prop extends Follows x ae y where
  prelog : PrelogOk x ae.prelogIndex ae.prelogTerm
  log : AcceptedLog x ae y.entries.log
  commit_le : x.commitIndex ≤ y.commitIndex
  commit : y.commitIndex = min ((y.entries.log.length : Int) - 1) ae.commitIndex

/-- The replies to an AE, by their `ok`. -/
inductive Answers (x : RaftServer) (ae : AppendEntryRpc) (y : RaftServer) : Bool → Prop
  | stale (hlt : ae.term < x.term) (hterm : y.term = x.term)
    (hentries : y.entries = x.entries) : Answers x ae y false
  | rejected (h : Rejects x ae y) : Answers x ae y false
  | accepted (h : Accepts x ae y) : Answers x ae y true

/-! ## The log -/

inductive LogMove (x : RaftServer) (input : Input) (y : RaftServer) : Prop
  | same (hlog : y.entries.log = x.entries.log)
  | appended {client body} (hi : input = .clientApply client body) (hterm : y.term = x.term)
      (hstate : y.state = x.state) (hlog : y.entries.log = x.entries.log ++ [⟨x.term, x.entries.log.length, body⟩])
  | accepted {p ae} (hi : input = .message p) (hp : p.rpc = .appendEntry ae) (h : Accepts x ae y)

theorem accepts_of {ae : AppendEntryRpc} {es : Entries} {smc : StateMachineControler}
    {tasks : List Effect} {t : RaftServer} (hle : x.term ≤ ae.term)
    (hnp : ¬ (x.state = .primary ∧ x.term = ae.term))
    (hlsn : (x.becomeFollower ae.term).followerRpcLsn.get ae.server < ae.lsn)
    (hprelog : PrelogOk x ae.prelogIndex ae.prelogTerm) (ht : t = { x.following ae with entries := es })
    (hlog : AcceptedLog x ae es.log) (hcommit : x.commitIndex ≤ t.cappedIndex ae.commitIndex) :
    Accepts x ae ((t.committedTo (t.cappedIndex ae.commitIndex) smc tasks).respondAe true ae) where
  term_le := hle
  not_primary := hnp
  lsn := hlsn
  term := by simp [ht]
  state := by simp [ht]
  recorded := by simp [ht]
  prelog := hprelog
  log := by simpa [ht] using hlog
  commit_le := by simpa using hcommit
  commit := by simp [ht, cappedIndex, Entries.size_eq]

theorem Outcome.log (h : Outcome x input y) : LogMove x input y := by
  cases h with
  | acked hp hterm hstate hlsn hok ht hw hxs =>
    obtain ⟨_, _, _, _, -, rfl⟩ := ht.eq hxs
    exact .same rfl
  | won hp hterm hstate hlsn hok hm hy | nacked hp hterm hstate hlsn hok hnext hw hy | aeRetried hmin hy =>
    obtain ⟨_, _, _, rfl⟩ := hy.eq
    exact .same rfl
  | campaigned hh hy | rvRetried hmin hy =>
    obtain ⟨_, _, _, rfl⟩ := CalledAll.eq hy
    exact .same rfl
  | appended client body es hlog => exact .appended rfl rfl rfl hlog
  | aeAccepted hp hle hnp hlsn hpre ht hlog hc =>
    exact .accepted rfl hp (accepts_of hle hnp hlsn hpre ht hlog hc)
  | _ => exact .same (by simp)

/-! ## Messages -/

/-- A message sent, with what its handler knew. -/
inductive Sends (x : RaftServer) (input : Input) (y : RaftServer) (dst : Addr) : Rpc → Prop
  | requestVote {rv} (hterm : rv.term = y.term) (hserver : rv.server = y.server)
      (hindex : rv.latestIndex = (y.entries.log.length : Int) - 1)
      (hlsn : y.term = x.term → rv.lsn = x.currentRpcLsn.get dst)
      (hcur : y.currentRpcLsn.get dst = rv.lsn + 1) (hlog : y.entries = x.entries) :
      Sends x input y dst (.requestVote rv)
  | appendEntry {ae n} (hb : BuiltAe y dst n ae) (hlsn : y.term = x.term → ae.lsn = x.currentRpcLsn.get dst)
      (hcur : y.currentRpcLsn.get dst = ae.lsn + 1)
      (hstate : y.state = .primary ∨
        input = .timer (.AE dst) ∧ y.state = x.state ∧ (x.retryTimers.get dst).minDateTime = false) :
      Sends x input y dst (.appendEntry ae)
  | respVote {p rv resp} (hi : input = .message p) (hp : p.rpc = .requestVote rv) (hdst : rv.server = dst)
      (hterm : resp.term = y.term) (hserver : resp.server = y.server) (hlsn : resp.lsn = rv.lsn)
      (hok : resp.ok = true → Grants x rv y) : Sends x input y dst (.respVote resp)
  | respAppend {p ae resp} (hi : input = .message p) (hp : p.rpc = .appendEntry ae) (hdst : ae.server = dst)
      (hterm : resp.term = y.term) (hserver : resp.server = y.server) (hlsn : resp.lsn = ae.lsn)
      (hempty : resp.isEmptyAe = ae.isEmptyAe) (ha : Answers x ae y resp.ok) :
      Sends x input y dst (.respAppend resp)
  | respClientApply {index res} (hi : input = .callback (.writeRespApplyCall index res))
      (hstate : x.state = .primary) (hmap : x.entryIndexToSocketAddrMap.find? index = some dst) :
      Sends x input y dst (.respClientApply res)
  | respClientQuery {res} : Sends x input y dst (.respClientQuery res)

theorem CalledAll.sends {t : RaftServer} {xs : List Addr} {rpc : Addr → Rpc} {kind : Addr → TimerHandler} {m : Rpc}
    (h : CalledAll t xs rpc kind y) (hm : Effect.rpc dst m ∈ y.effects) :
    Effect.rpc dst m ∈ t.effects ∨
      dst ∈ xs ∧ m = rpc dst ∧ y.currentRpcLsn.get dst = t.currentRpcLsn.get dst + 1 := by
  have hlsn := h.lsn dst
  obtain ⟨cur, timers, rfl⟩ := h.frame
  simp only [List.mem_append, List.mem_map, Effect.rpc.injEq] at hm
  rcases hm with hm | ⟨a, ha, rfl, rfl⟩
  · exact .inl hm
  · exact .inr ⟨ha, rfl, by simpa [ha] using hlsn⟩

theorem SentAes.sends {t : RaftServer} {xs : List Addr} {m : Rpc} (h : SentAes t xs y)
    (hm : Effect.rpc dst m ∈ y.effects) :
    Effect.rpc dst m ∈ t.effects ∨ dst ∈ xs ∧ ∃ ae n, m = .appendEntry ae ∧ BuiltAe y dst n ae ∧
      ae.lsn = t.currentRpcLsn.get dst ∧ y.currentRpcLsn.get dst = ae.lsn + 1 := by
  obtain ⟨ae, hae, hc⟩ := h
  rcases hc.sends hm with hm | ⟨hx, rfl, hcur⟩
  · exact .inl hm
  · obtain ⟨hl, n, hb⟩ := hae dst hx
    obtain ⟨_, _, _, rfl⟩ := hc.eq
    exact .inr ⟨hx, ae dst, n, rfl,
      ⟨hb.next, hb.le, hb.term, hb.commitIndex, hb.server, hb.prelogIndex, hb.prelogTerm, hb.entry⟩, hl,
      by rw [hl]; exact hcur⟩

theorem Tasks.not_rpc {last : Int} {tasks : List Effect} {m : Rpc} (h : Tasks x last tasks) :
    Effect.rpc dst m ∉ tasks := fun hm => by
  obtain ⟨_, _, he, -⟩ := h _ hm
  cases he

theorem mem_makeRpcCall {s : RaftServer} {a : Addr} {m m' : Rpc} (hs : Effect.rpc dst m ∉ s.effects)
    (hm : Effect.rpc dst m ∈ (s.makeRpcCall a m').effects) : dst = a ∧ m = m' := by
  simpa [hs] using hm

theorem Acked.no_rpc {t : RaftServer} {a : Addr} {resp : RespAppendEntryRpc} {m : Rpc} (hx : x.effects = [])
    (h : Acked x a resp t) : Effect.rpc dst m ∉ t.effects := by
  obtain ⟨_, tasks, -, ht, rfl⟩ := h.frame
  simp [hx, ht.not_rpc]

/-- **What a handler puts on the network.** -/
theorem Outcome.sends (hx : x.effects = []) (h : Outcome x input y) {m : Rpc}
    (hm : Effect.rpc dst m ∈ y.effects) : Sends x input y dst m := by
  cases h with
  | idle | polled | query | appended | steppedDown | rvIgnored | aeIgnored | counted => simp [hx] at hm
  | told hstate hmap =>
    obtain ⟨rfl, rfl⟩ := mem_makeRpcCall (by simp [hx]) hm
    exact .respClientApply rfl hstate hmap
  | answered =>
    obtain ⟨rfl, rfl⟩ := mem_makeRpcCall (by simp [hx]) hm
    exact .respClientQuery
  | rvStale hp hlt =>
    obtain ⟨rfl, rfl⟩ := mem_makeRpcCall (by simp [hx]) hm
    exact .respVote rfl hp rfl rfl rfl rfl (by simp)
  | rvDenied hp hle hlsn =>
    obtain ⟨rfl, rfl⟩ := mem_makeRpcCall (by simp [hx]) hm
    exact .respVote rfl hp rfl rfl rfl rfl (by simp)
  | rvGranted hp hle hlsn hstate hvoted hlog =>
    obtain ⟨rfl, rfl⟩ := mem_makeRpcCall (by simp [hx]) hm
    exact .respVote rfl hp rfl rfl rfl rfl fun _ =>
      ⟨hle, hlsn, hstate, hvoted, hlog, by simp [heard_term _ hle], by simpa using hstate, by simp, by simp⟩
  | aeStale hp hlt =>
    obtain ⟨rfl, rfl⟩ := mem_makeRpcCall (by simp [hx]) hm
    exact .respAppend rfl hp rfl rfl rfl rfl rfl (.stale hlt rfl rfl)
  | aeRejected hp hle hnp hlsn hprelog =>
    obtain ⟨rfl, rfl⟩ := mem_makeRpcCall (by simp [hx]) hm
    exact .respAppend rfl hp rfl rfl rfl rfl rfl
      (.rejected ⟨⟨hle, hnp, hlsn, rfl, rfl, by simp⟩, hprelog, rfl, rfl⟩)
  | aeAccepted hp hle hnp hlsn hprelog ht hlog hcommit htasks =>
    obtain ⟨rfl, rfl⟩ := mem_makeRpcCall (by simp [hx, ht, htasks.not_rpc]) hm
    exact .respAppend rfl hp rfl (by simp [ht]) (by simp [ht, RespAppendEntryRpc.server]) rfl rfl
      (.accepted (accepts_of hle hnp hlsn hprelog ht hlog hcommit))
  | won hp hterm hstate hlsn hok hmajority hy =>
    rcases hy.sends hm with hm | ⟨-, ae, n, rfl, hb, hl, hc⟩
    · simp [hx] at hm
    · obtain ⟨_, _, _, rfl⟩ := hy.eq
      exact .appendEntry hb (fun _ => hl) hc (.inl rfl)
  | acked hp hterm hstate hlsn hok ht hw hxs =>
    rcases hxs with ⟨-, -, rfl⟩ | ⟨rfl, hy⟩
    · exact absurd hm (ht.no_rpc hx)
    rcases hy.sends hm with hm | ⟨-, ae, n, rfl, hb, hl, hc⟩
    · exact (ht.no_rpc hx hm).elim
    · obtain ⟨_, _, _, rfl⟩ := hy.eq
      obtain ⟨_, tasks, -, -, rfl⟩ := ht.frame
      exact .appendEntry hb (fun _ => hl) hc (.inl hstate)
  | nacked hp hterm hstate hlsn hok hnext hw hy =>
    rcases hy.sends hm with hm | ⟨-, ae, n, rfl, hb, hl, hc⟩
    · simp [hx] at hm
    · obtain ⟨_, _, _, rfl⟩ := hy.eq
      exact .appendEntry hb (fun _ => hl) hc (.inl hstate)
  | campaigned hh hy =>
    rcases CalledAll.sends hy hm with hm | ⟨hd, rfl, hc⟩
    · simp [hx] at hm
    · obtain ⟨_, _, _, rfl⟩ := CalledAll.eq hy
      refine .requestVote rfl rfl (by simp [rvTo, buildRpcRvString, Entries.size_eq]) (fun he => ?_) hc rfl
      have hterm : x.term + 1 = x.term := he
      omega
  | rvRetried hmin hy =>
    rcases CalledAll.sends hy hm with hm | ⟨hd, rfl, hc⟩
    · simp [hx] at hm
    · obtain ⟨_, _, _, rfl⟩ := CalledAll.eq hy
      exact .requestVote rfl rfl (by simp [rvTo, buildRpcRvString, Entries.size_eq]) (fun _ => rfl) hc rfl
  | aeRetried hmin hy =>
    rcases hy.sends hm with hm | ⟨hd, ae, n, rfl, hb, hl, hc⟩
    · simp [hx] at hm
    · obtain rfl := List.mem_singleton.mp hd
      obtain ⟨_, _, _, rfl⟩ := hy.eq
      exact .appendEntry hb (fun _ => hl) hc (.inr ⟨rfl, rfl, hmin⟩)

/-! ## The lsn tables -/

theorem heard_same {term : Int} (h : term = x.term) : x.heard term = x := by simp [heard, h]

theorem followerRpcLsn_same {term : Int} (h : term = x.term) :
    (x.becomeFollower term).followerRpcLsn = x.followerRpcLsn := by simp [h]

/-- Recording a newer lsn keeps the others. -/
theorem le_get_set {m : StdMap Addr Int} {k : Addr} {lsn : Int} (hlsn : m.get k < lsn) (z : Addr) :
    m.get z ≤ (m.set k lsn).get z := by
  rw [StdMap.get_set]
  split
  · rename_i h
    subst h
    omega
  · exact Int.le_refl _

/-- In a term the lsn heard from a server only grow. -/
theorem Outcome.heard_le (h : Outcome x input y) (hterm : y.term = x.term) (z : Addr) :
    x.followerRpcLsn.get z ≤ y.followerRpcLsn.get z := by
  cases h with
  | acked hp hresp hstate hlsn hok ht hw hxs =>
    obtain ⟨_, _, _, _, -, rfl⟩ := ht.eq hxs
    exact Int.le_refl _
  | won hp hresp hstate hlsn hok hm hy | nacked hp hresp hstate hlsn hok hnext hw hy | aeRetried hmin hy =>
    obtain ⟨_, _, _, rfl⟩ := hy.eq
    exact Int.le_refl _
  | rvRetried hmin hy =>
    obtain ⟨_, _, _, rfl⟩ := CalledAll.eq hy
    exact Int.le_refl _
  | campaigned hh hy =>
    obtain ⟨_, _, _, rfl⟩ := CalledAll.eq hy
    exact absurd hterm (by simp only [becomeCandidate_term]; omega)
  | steppedDown hlt => exact absurd hterm (by simp only [becomeFollower_term]; omega)
  | @rvIgnored p rv hp hle =>
    have he : rv.term = x.term := by simpa [heard_term _ hle] using hterm
    rw [heard_same he]
  | @rvDenied p rv hp hle hlsn | @rvGranted p rv hp hle hlsn =>
    have he : rv.term = x.term := by simpa [heard_term _ hle] using hterm
    rw [heard_same he] at hlsn ⊢
    exact le_get_set hlsn z
  | @aeIgnored p ae =>
    have he : ae.term = x.term := hterm
    rw [followerRpcLsn_same he]
  | @aeRejected p ae hp hle hnp hlsn =>
    have he : ae.term = x.term := hterm
    rw [followerRpcLsn_same he] at hlsn
    simp only [respondAe, makeRespAe, makeRpcCall, following, recordLsn_followerRpcLsn, followerRpcLsn_same he]
    exact le_get_set hlsn z
  | @aeAccepted p ae _ _ _ _ hp hle hnp hlsn hprelog ht =>
    subst ht
    have he : ae.term = x.term := hterm
    rw [followerRpcLsn_same he] at hlsn
    simp only [respondAe, makeRespAe, makeRpcCall, following, committedTo_followerRpcLsn, recordLsn_followerRpcLsn,
      followerRpcLsn_same he]
    exact le_get_set hlsn z
  | _ => exact Int.le_refl _

theorem CalledAll.lsn_le {t : RaftServer} {xs : List Addr} {rpc : Addr → Rpc} {kind : Addr → TimerHandler}
    (h : CalledAll t xs rpc kind y) (z : Addr) : t.currentRpcLsn.get z ≤ y.currentRpcLsn.get z := by
  rw [h.lsn z]
  split <;> omega

theorem SentAes.lsn_le {t : RaftServer} {xs : List Addr} (h : SentAes t xs y) (z : Addr) :
    t.currentRpcLsn.get z ≤ y.currentRpcLsn.get z := by
  obtain ⟨_, -, hc⟩ := h
  exact hc.lsn_le z

/-- In a term the lsn of the calls to a server only grow. -/
theorem Outcome.lsn_le (h : Outcome x input y) (hterm : y.term = x.term) (z : Addr) :
    x.currentRpcLsn.get z ≤ y.currentRpcLsn.get z := by
  cases h with
  | acked hp hresp hstate hlsn hok ht hw hxs =>
    obtain ⟨_, tasks, -, -, rfl⟩ := ht.frame
    rcases hxs with ⟨-, -, rfl⟩ | ⟨-, hy⟩
    · exact Int.le_refl _
    · exact hy.lsn_le z
  | won hp hresp hstate hlsn hok hm hy | nacked hp hresp hstate hlsn hok hnext hw hy | aeRetried hmin hy =>
    exact hy.lsn_le z
  | rvRetried hmin hy => exact CalledAll.lsn_le hy z
  | campaigned hh hy =>
    obtain ⟨_, _, _, rfl⟩ := CalledAll.eq hy
    exact absurd hterm (by simp only [becomeCandidate_term]; omega)
  | steppedDown hlt => exact absurd hterm (by simp only [becomeFollower_term]; omega)
  | @rvIgnored p rv hp hle | @rvDenied p rv hp hle | @rvGranted p rv hp hle =>
    have he : rv.term = x.term := by simpa [heard_term _ hle] using hterm
    simp only [heard_same he]
    exact Int.le_refl _
  | @aeIgnored p ae | @aeRejected p ae =>
    have he : ae.term = x.term := hterm
    exact Int.le_of_eq (by simp [he])
  | @aeAccepted p ae _ _ _ _ hp hle hnp hlsn hprelog ht =>
    subst ht
    have he : ae.term = x.term := hterm
    exact Int.le_of_eq (by simp [he])
  | _ => exact Int.le_refl _

/-! ## The tables of a primary -/

/-- How the tables of a server that ends as primary came to be. -/
inductive Leads (x : RaftServer) (input : Input) (y : RaftServer) : Prop
  | same (hx : x.state = .primary) (hterm : y.term = x.term) (hlog : y.entries.log = x.entries.log)
      (hnext : y.nextIndex = x.nextIndex) (hsaved : y.followerSavedIndex = x.followerSavedIndex)
      (hcommit : y.commitIndex = x.commitIndex)
  | appended {client body} (hi : input = .clientApply client body) (hx : x.state = .primary)
    (hterm : y.term = x.term)
      (hlog : y.entries.log = x.entries.log ++ [⟨x.term, x.entries.log.length, body⟩])
      (hnext : y.nextIndex = x.nextIndex)
      (hsaved : y.followerSavedIndex = x.followerSavedIndex.set x.server x.entries.log.length)
      (hcommit : y.commitIndex = x.commitIndex)
  | won {p resp} (hi : input = .message p) (hp : p.rpc = .respVote resp) (hx : x.state = .candidate)
      (hresp : resp.term = x.term) (hlsn : x.currentRpcLsn.get resp.server = resp.lsn + 1) (hok : resp.ok = true)
      (hmajority : x.majority ≤ x.winnedVotes + 1) (hterm : y.term = x.term) (hlog : y.entries.log = x.entries.log)
      (hnext : ∀ z ∈ x.configuration, y.nextIndex.get z = x.entries.log.length)
      (hsaved : ∀ z ∈ x.configuration,
        y.followerSavedIndex.get z = if z = x.server then (x.entries.log.length : Int) - 1 else -1)
      (hcommit : y.commitIndex = x.commitIndex)
  | acked {p resp} (hi : input = .message p) (hp : p.rpc = .respAppend resp) (hx : x.state = .primary)
      (hresp : resp.term = x.term) (hlsn : x.currentRpcLsn.get resp.server = resp.lsn + 1) (hok : resp.ok = true)
      (hterm : y.term = x.term) (hlog : y.entries.log = x.entries.log)
      (hle : x.nextIndex.get resp.server ≤ x.entries.log.length)
      (hnext : ∀ z, y.nextIndex.get z = if z = resp.server then x.ackedIndex z resp + 1 else x.nextIndex.get z)
      (hsent : y.nextIndex.get resp.server = x.nextIndex.get resp.server ∨
        y.currentRpcLsn.get resp.server = x.currentRpcLsn.get resp.server + 1)
      (hsaved : y.followerSavedIndex = (x.counting resp.server resp).followerSavedIndex)
      (hcommit : y.commitIndex = (x.counting resp.server resp).majorityIndex)
  | nacked {p resp} (hi : input = .message p) (hp : p.rpc = .respAppend resp) (hx : x.state = .primary)
      (hresp : resp.term = x.term) (hlsn : x.currentRpcLsn.get resp.server = resp.lsn + 1) (hok : resp.ok = false)
      (hterm : y.term = x.term) (hlog : y.entries.log = x.entries.log) (hpos : x.nextIndex.get resp.server ≠ 0)
      (hnext : ∀ z, y.nextIndex.get z = if z = resp.server then x.nextIndex.get z - 1 else x.nextIndex.get z)
      (hsent : y.currentRpcLsn.get resp.server = x.currentRpcLsn.get resp.server + 1)
      (hsaved : y.followerSavedIndex = x.followerSavedIndex) (hcommit : y.commitIndex = x.commitIndex)

theorem Acked.leads {t : RaftServer} {p : Packet} {resp : RespAppendEntryRpc} {timer : Timer} {xs : List Addr}
    (hp : p.rpc = .respAppend resp) (hterm : resp.term = x.term) (hstate : x.state = .primary)
    (hlsn : x.currentRpcLsn.get resp.server = resp.lsn + 1) (hok : resp.ok = true)
    (ht : Acked x resp.server resp t) (hxs : x.nextIndex.get resp.server = x.entries.size ∧ xs = [] ∧ y = t ∨
      xs = [resp.server] ∧ SentAes (t.retryTimer resp.server timer) xs y) : Leads x (.message p) y := by
  have hle := ht.next_le
  rw [Entries.size_eq] at hle
  have hsent : y.nextIndex.get resp.server = x.nextIndex.get resp.server ∨
      y.currentRpcLsn.get resp.server = x.currentRpcLsn.get resp.server + 1 := by
    obtain ⟨_, _, _, nextIndex, hn, he⟩ := ht.eq hxs
    obtain ⟨_, tasks, -, -, rfl⟩ := ht.frame
    rcases hxs with ⟨hlast, -, -⟩ | ⟨rfl, hy⟩
    · left
      rw [he]
      simp [hn, ackedIndex, hlast]
    · right
      obtain ⟨_, -, hc⟩ := hy
      simpa using hc.lsn resp.server
  obtain ⟨_, _, _, nextIndex, hn, rfl⟩ := ht.eq hxs
  exact .acked rfl hp hstate hterm hlsn hok rfl rfl hle
    (fun z => by simp only [hn z]; split <;> simp_all) hsent rfl rfl

/-- **The tables of a primary change five ways.** -/
theorem Outcome.leads (h : Outcome x input y) (hy : y.state = .primary) : Leads x input y := by
  cases h with
  | idle | polled | query | told | answered => exact .same hy rfl rfl rfl rfl rfl
  | appended client body es hlog => exact .appended rfl hy rfl hlog rfl rfl rfl
  | steppedDown | aeIgnored | aeRejected => cases hy
  | rvStale | aeStale => exact .same hy rfl rfl rfl rfl rfl
  | @rvIgnored p rv hp hle | @rvDenied p rv hp hle =>
    have hst : (x.heard rv.term).state = .primary := hy
    rw [heard_state] at hst
    split at hst
    · cases hst
    · exact .same hst (by simp [heard_term _ hle]; omega) (by simp) (by simp) (by simp) (by simp)
  | rvGranted hp hle hlsn hstate =>
    have hst := hy
    simp only [voted, makeRespRv, makeRpcCall, recordLsn_state, hstate] at hst
    cases hst
  | aeAccepted hp hle hnp hlsn hprelog ht =>
    subst ht
    cases hy
  | counted hp hterm hstate =>
    have hst : x.state = .primary := hy
    rw [hst] at hstate
    cases hstate
  | won hp hterm hstate hlsn hok hm hy' =>
    obtain ⟨_, _, _, rfl⟩ := hy'.eq
    refine .won rfl hp hstate hterm hlsn hok hm rfl rfl (fun z hz => ?_) (fun z hz => ?_) rfl
    · simp [StdMap.get_setAll, hz, Entries.size_eq]
    · simp [StdMap.get_set, StdMap.get_setAll, hz, Entries.size_eq]
  | acked hp hterm hstate hlsn hok ht hw hxs => exact ht.leads hp hterm hstate hlsn hok hxs
  | @nacked p resp _ _ hp hterm hstate hlsn hok hnext hw hy' =>
    have hcur := hy'
    obtain ⟨_, -, hc⟩ := hcur
    have hsent := hc.lsn
    obtain ⟨_, _, _, rfl⟩ := hy'.eq
    refine .nacked rfl hp hstate hterm hlsn hok rfl rfl hnext (fun z => ?_)
      (by simpa using hsent resp.server) rfl rfl
    simp only [retryTimer_nextIndex, sendNext_nextIndex, StdMap.get_set]
    split <;> simp_all
  | campaigned hh hy' =>
    obtain ⟨_, _, _, rfl⟩ := CalledAll.eq hy'
    cases hy
  | rvRetried hmin hy' =>
    obtain ⟨_, _, _, rfl⟩ := CalledAll.eq hy'
    exact .same hy rfl rfl rfl rfl rfl
  | aeRetried hmin hy' =>
    obtain ⟨_, _, _, rfl⟩ := hy'.eq
    exact .same hy rfl rfl rfl rfl rfl

/-- A candidate becomes primary on the vote that completes its majority. -/
structure Wins (x : RaftServer) (p : Packet) (resp : RespRequestVoteRpc) (y : RaftServer) : Prop where
  rpc : p.rpc = .respVote resp
  term : resp.term = x.term
  lsn : x.currentRpcLsn.get resp.server = resp.lsn + 1
  ok : resp.ok = true
  majority : x.majority ≤ x.winnedVotes + 1
  term_eq : y.term = x.term
  votes : y.winnedVotes = x.winnedVotes + 1

theorem Outcome.wins (h : Outcome x input y) (hx : x.state = .candidate) (hy : y.state = .primary) :
    ∃ p resp, input = .message p ∧ Wins x p resp y := by
  cases h with
  | won hp hterm hstate hlsn hok hm hy' =>
    obtain ⟨_, _, _, rfl⟩ := hy'.eq
    exact ⟨_, _, rfl, hp, hterm, hlsn, hok, hm, rfl, rfl⟩
  | idle | polled | query | told | answered | appended | rvStale | aeStale | counted =>
    rw [show x.state = .primary from hy] at hx
    cases hx
  | steppedDown | aeIgnored | aeRejected => cases hy
  | @rvIgnored p rv | @rvDenied p rv | @rvGranted p rv =>
    have hst : (x.heard rv.term).state = .primary := hy
    rw [heard_state, hx] at hst
    split at hst <;> cases hst
  | aeAccepted hp hle hnp hlsn hprelog ht =>
    subst ht
    cases hy
  | acked hp hterm hstate | nacked hp hterm hstate =>
    rw [hstate] at hx
    cases hx
  | campaigned hh hy' =>
    obtain ⟨_, _, _, rfl⟩ := CalledAll.eq hy'
    cases hy
  | rvRetried hmin hy' =>
    obtain ⟨_, _, _, rfl⟩ := CalledAll.eq hy'
    rw [show x.state = .primary from hy] at hx
    cases hx
  | aeRetried hmin hy' =>
    obtain ⟨_, _, _, rfl⟩ := hy'.eq
    rw [show x.state = .primary from hy] at hx
    cases hx

/-! ## Commit indexes and what is applied -/

/-- A primary that counts an `ok` reply. -/
inductive Counts (x : RaftServer) (input : Input) (y : RaftServer) : Prop
  | mk {p resp} (hi : input = .message p) (hp : p.rpc = .respAppend resp) (hx : x.state = .primary)
      (hresp : resp.term = x.term) (hlsn : x.currentRpcLsn.get resp.server = resp.lsn + 1) (hok : resp.ok = true)
      (hy : y.state = .primary) (hcommit : y.commitIndex = (x.counting resp.server resp).majorityIndex)
      (hown : y.commitIndex = y.majorityIndex)

/-- How the commit index of a server came to be. -/
inductive CommitMove (x : RaftServer) (input : Input) (y : RaftServer) : Prop
  | same (hcommit : y.commitIndex = x.commitIndex)
  | accepted {p ae} (hi : input = .message p) (hp : p.rpc = .appendEntry ae) (h : Accepts x ae y)
  | counted (h : Counts x input y)

/-- What `update_commit_index_and_apply` leaves of the indexes it keeps. -/
structure Applied (x : RaftServer) (input : Input) (y : RaftServer) : Prop where
  smc : y.smc = x.smc ∧ y.commitIndex = x.commitIndex ∨
    y.smc = ⟨max x.smc.appliedIndex y.commitIndex, y.commitIndex⟩
  tasks : ∀ {i msg}, Effect.apply i msg ∈ y.effects → ∃ (n : Nat) (entry : RpcEntry), i = n ∧
    y.entries.log[n]? = some entry ∧ entry.msg = msg ∧ (n : Int) ≤ y.commitIndex ∧ (n : Int) ≤ y.smc.appliedIndex
  committed : ∀ {k}, Effect.committed k ∈ y.effects → k = y.commitIndex ∧ Counts x input y

theorem CalledAll.effects {t : RaftServer} {xs : List Addr} {rpc : Addr → Rpc} {kind : Addr → TimerHandler}
    {f : Effect} (h : CalledAll t xs rpc kind y) (hf : f ∈ y.effects)
    (hne : ∀ a m, f ≠ .rpc a m) : f ∈ t.effects := by
  obtain ⟨_, _, rfl⟩ := h.frame
  rcases List.mem_append.mp hf with hf | hf
  · exact hf
  · obtain ⟨a, -, rfl⟩ := List.mem_map.mp hf
    exact absurd rfl (hne a _)

theorem SentAes.effects {t : RaftServer} {xs : List Addr} {f : Effect} (h : SentAes t xs y) (hf : f ∈ y.effects)
    (hne : ∀ a m, f ≠ .rpc a m) : f ∈ t.effects := by
  obtain ⟨_, -, hc⟩ := h
  exact hc.effects hf hne

/-- A handler that leaves the commit index alone applies nothing. -/
theorem Applied.of_same (hsmc : y.smc = x.smc) (hcommit : y.commitIndex = x.commitIndex)
    (heff : ∀ f ∈ y.effects, (∀ a m, f ≠ .rpc a m) → f ∈ x.effects ∨ ∃ b a, f = .query b a) (hx : x.effects = []) :
    Applied x input y where
  smc := .inl ⟨hsmc, hcommit⟩
  tasks := fun hm => by
    rcases heff _ hm (by simp) with h | ⟨_, _, h⟩
    · simp [hx] at h
    · cases h
  committed := fun hm => by
    rcases heff _ hm (by simp) with h | ⟨_, _, h⟩
    · simp [hx] at h
    · cases h

theorem Outcome.applied (hx : x.effects = []) (h : Outcome x input y) : Applied x input y := by
  cases h with
  | query => exact .of_same rfl rfl (by simp [hx]) hx
  | won hp hterm hstate hlsn hok hm hy | nacked hp hterm hstate hlsn hok hnext hw hy | aeRetried hmin hy =>
    have heff := fun f (hf : f ∈ y.effects) hne => hy.effects (f := f) hf hne
    obtain ⟨_, _, _, rfl⟩ := hy.eq
    exact .of_same rfl rfl (fun f hf hne => .inl (heff f hf hne)) hx
  | campaigned hh hy | rvRetried hmin hy =>
    have heff := fun f (hf : f ∈ y.effects) hne => CalledAll.effects (f := f) hy hf hne
    obtain ⟨_, _, _, rfl⟩ := CalledAll.eq hy
    exact .of_same rfl rfl (fun f hf hne => .inl (heff f hf hne)) hx
  | @aeAccepted _ _ _ _ tasks _ hp hle hnp hlsn hprelog ht hlog hcommit htasks hsmc =>
    subst ht
    refine ⟨?_, @fun i msg hm => ?_, fun hm => ?_⟩
    · rcases hsmc with ⟨rfl, hc, -⟩ | rfl
      · exact .inl ⟨rfl, hc⟩
      · exact .inr rfl
    · have htask : Effect.apply i msg ∈ tasks := by simpa [hx] using hm
      rcases hsmc with ⟨-, -, rfl⟩ | rfl
      · cases htask
      · obtain ⟨n, entry, he, hl, -, hhi⟩ := htasks _ htask
        cases he
        exact ⟨n, entry, rfl, hl, rfl, hhi, Int.le_trans hhi (Int.le_max_right _ _)⟩
    · obtain ⟨n, entry, he, -⟩ := htasks _ (by simpa [hx] using hm)
      cases he
  | @acked p resp _ _ _ _ hp hterm hstate hlsn hok ht hw hxs =>
    obtain ⟨nextIndex, tasks, -, htasks, rfl⟩ := ht.frame
    have heff : ∀ f ∈ y.effects, (∀ a m, f ≠ .rpc a m) →
        f = .committed (x.counting resp.server resp).majorityIndex ∨ f ∈ tasks := fun f hf hne => by
      rcases hxs with ⟨-, -, rfl⟩ | ⟨-, hy⟩
      · simpa [hx] using hf
      · simpa [hx] using hy.effects hf hne
    obtain ⟨_, _, _, _, -, rfl⟩ := ht.eq hxs
    refine ⟨.inr rfl, fun hm => ?_, fun hm => ?_⟩
    · rcases heff _ hm (by simp) with he | hm
      · cases he
      · obtain ⟨n, entry, he, hl, -, hhi⟩ := htasks _ hm
        cases he
        exact ⟨n, entry, rfl, hl, rfl, hhi, Int.le_trans hhi (Int.le_max_right _ _)⟩
    · rcases heff _ hm (by simp) with he | hm
      · cases he
        exact ⟨rfl, rfl, hp, hstate, hterm, hlsn, hok, hstate, rfl, rfl⟩
      · obtain ⟨n, entry, he, -⟩ := htasks _ hm
        cases he
  | _ => exact .of_same (by simp) (by simp) (by simp [hx]) hx

theorem Outcome.commit (h : Outcome x input y) : CommitMove x input y := by
  cases h with
  | acked hp hterm hstate hlsn hok ht hw hxs =>
    obtain ⟨_, _, _, _, -, rfl⟩ := ht.eq hxs
    exact .counted ⟨rfl, hp, hstate, hterm, hlsn, hok, hstate, rfl, rfl⟩
  | won hp hterm hstate hlsn hok hm hy | nacked hp hterm hstate hlsn hok hnext hw hy | aeRetried hmin hy =>
    obtain ⟨_, _, _, rfl⟩ := hy.eq
    exact .same rfl
  | campaigned hh hy | rvRetried hmin hy =>
    obtain ⟨_, _, _, rfl⟩ := CalledAll.eq hy
    exact .same rfl
  | aeAccepted hp hle hnp hlsn hpre ht hlog hc =>
    exact .accepted rfl hp (accepts_of hle hnp hlsn hpre ht hlog hc)
  | _ => exact .same (by simp)

/-! ## The clients of entries -/

theorem Outcome.map (h : Outcome x input y) :
    y.entryIndexToSocketAddrMap = x.entryIndexToSocketAddrMap ∨
      ∃ client body, input = .clientApply client body ∧
        y.entryIndexToSocketAddrMap = x.entryIndexToSocketAddrMap.set x.entries.log.length client := by
  cases h with
  | acked hp hterm hstate hlsn hok ht hw hxs =>
    obtain ⟨_, _, _, _, -, rfl⟩ := ht.eq hxs
    exact .inl rfl
  | won hp hterm hstate hlsn hok hm hy | nacked hp hterm hstate hlsn hok hnext hw hy | aeRetried hmin hy =>
    obtain ⟨_, _, _, rfl⟩ := hy.eq
    exact .inl rfl
  | campaigned hh hy | rvRetried hmin hy =>
    obtain ⟨_, _, _, rfl⟩ := CalledAll.eq hy
    exact .inl rfl
  | appended client body => exact .inr ⟨client, body, rfl, rfl⟩
  | aeAccepted hp hle hnp hlsn hpre ht => exact .inl (by simp [ht])
  | _ => exact .inl (by simp)

/-! ## Timers -/

/-- Retry timers some of which, those of `xs`, were armed again with `kind`. -/
structure Rearmed (xs : List Addr) (kind : Addr → TimerHandler) (m m' : StdMap Addr Timer) : Prop where
  waits : ∀ z, ∀ h ∈ (m'.get z).waits, h = kind z ∨ h ∈ (m.get z).waits
  others : ∀ z, z ∉ xs → m'.get z = m.get z
  armed : ∀ z ∈ xs, m'.get z = rearmed (kind z) (m.get z)
  bound : ∀ z, m.find? z ≠ none → m'.find? z ≠ none

theorem CalledAll.rearmed {t : RaftServer} {xs : List Addr} {rpc : Addr → Rpc} {kind : Addr → TimerHandler}
    (h : CalledAll t xs rpc kind y) : Rearmed xs kind t.retryTimers y.retryTimers :=
  ⟨h.waits, h.timers, h.armed, h.bound⟩

theorem SentAes.rearmed {t : RaftServer} {xs : List Addr} (h : SentAes t xs y) :
    Rearmed xs .AE t.retryTimers y.retryTimers := by
  obtain ⟨_, -, hc⟩ := h
  exact hc.rearmed

/-- How the timers of a server and its role change together. -/
inductive TimerMove (x : RaftServer) (input : Input) (y : RaftServer) : Prop
  | same (hterm : y.term = x.term) (hstate : y.state = x.state) (hcand : y.candidateTimer = x.candidateTimer)
      (hretry : y.retryTimers = x.retryTimers)
  | polled {timers} (hi : input = .poll timers) (hy : y = (x.poll timers).2)
  | followed (hstate : y.state = .follower) (hcand : y.candidateTimer = ⟨false, [.trans2F]⟩)
      (hretry : y.retryTimers = x.retryTimers.mapValues Timer.expiresAtMin)
  | counted {p resp} (hi : input = .message p) (hp : p.rpc = .respVote resp) (hresp : resp.term = x.term)
      (hok : resp.ok = true) (hx : x.state = .candidate) (hstate : y.state = .candidate) (hterm : y.term = x.term)
      (hcand : y.candidateTimer = x.candidateTimer)
      (hretry : y.retryTimers = x.retryTimers.set resp.server ⟨true, []⟩)
  | won (hstate : y.state = .primary) (hcand : y.candidateTimer = ⟨true, []⟩)
      (hretry : Rearmed x.others .AE (x.retryTimers.mapValues Timer.expiresAtMin) y.retryTimers)
  | replied {a} {timer : Timer} (hx : x.state = .primary) (hstate : y.state = .primary)
      (hcand : y.candidateTimer = x.candidateTimer) (hwaits : timer.waits = [])
      (hretry : y.retryTimers = x.retryTimers ∨ Rearmed [a] .AE (x.retryTimers.set a timer) y.retryTimers)
  | campaigned {h} (hi : input = .timer h) (hh : h = .run ∨ h = .trans2F ∨ h = .trans2C)
      (hstate : y.state = .candidate) (hcand : y.candidateTimer = ⟨false, [.trans2C]⟩)
      (hretry : Rearmed x.others .RV (x.retryTimers.mapValues Timer.expiresAtMin) y.retryTimers)
  | rvRetried {a} (hi : input = .timer (.RV a)) (hmin : (x.retryTimers.get a).minDateTime = false)
      (hterm : y.term = x.term) (hstate : y.state = x.state) (hcand : y.candidateTimer = x.candidateTimer)
      (hretry : Rearmed [a] .RV x.retryTimers y.retryTimers)
  | aeRetried {a} (hi : input = .timer (.AE a)) (hmin : (x.retryTimers.get a).minDateTime = false)
      (hstate : y.state = x.state) (hcand : y.candidateTimer = x.candidateTimer)
      (hretry : Rearmed [a] .AE x.retryTimers y.retryTimers)

theorem Outcome.timers (h : Outcome x input y) : TimerMove x input y := by
  cases h with
  | polled timers hpoll => exact .polled rfl hpoll.symm
  | steppedDown | aeIgnored | aeRejected => exact .followed rfl rfl rfl
  | aeAccepted hp hle hnp hlsn hprelog ht =>
    subst ht
    exact .followed rfl rfl rfl
  | @rvIgnored p rv | @rvDenied p rv | @rvGranted p rv =>
    by_cases hlt : x.term < rv.term
    · have hh : x.heard rv.term = x.becomeFollower rv.term := by simp [heard, hlt]
      rw [hh]
      exact .followed rfl rfl rfl
    · have hh : x.heard rv.term = x := by simp [heard, hlt]
      rw [hh]
      exact .same rfl rfl rfl rfl
  | counted hp hterm hstate hlsn hok => exact .counted rfl hp hterm hok hstate hstate rfl rfl rfl
  | won hp hterm hstate hlsn hok hm hy =>
    have hr := hy.rearmed
    obtain ⟨_, _, _, rfl⟩ := hy.eq
    exact .won rfl rfl hr
  | @acked p resp t timer _ xs hp hterm hstate hlsn hok ht hw hxs =>
    obtain ⟨_, tasks, -, -, rfl⟩ := ht.frame
    rcases hxs with ⟨-, -, rfl⟩ | ⟨rfl, hy⟩
    · exact @TimerMove.replied _ _ _ resp.server timer hstate hstate rfl hw (.inl rfl)
    · have hr := hy.rearmed
      obtain ⟨_, _, _, rfl⟩ := hy.eq
      exact .replied hstate hstate rfl hw (.inr hr)
  | nacked hp hterm hstate hlsn hok hnext hw hy =>
    have hr := hy.rearmed
    obtain ⟨_, _, _, rfl⟩ := hy.eq
    exact .replied hstate hstate rfl hw (.inr hr)
  | campaigned hh hy =>
    have hr := CalledAll.rearmed hy
    obtain ⟨_, _, _, rfl⟩ := CalledAll.eq hy
    exact .campaigned rfl hh rfl rfl hr
  | rvRetried hmin hy =>
    have hr := CalledAll.rearmed hy
    obtain ⟨_, _, _, rfl⟩ := CalledAll.eq hy
    exact .rvRetried rfl hmin rfl rfl rfl hr
  | aeRetried hmin hy =>
    have hr := hy.rearmed
    obtain ⟨_, _, _, rfl⟩ := hy.eq
    exact .aeRetried rfl hmin rfl rfl hr
  | _ => exact .same rfl rfl rfl rfl

end RaftServer

end MyRaft
