/-
Who sends AEs. A retry handler may sit in the ready queue while its server
loses its role; it finds the timer at `min_date_time` then and does nothing,
unless a candidate has armed the timer again. That would take a second expiry
of the candidate timer in the same batch, and the candidate timer of a primary
is not armed.
-/
import MyRaft.Run

namespace MyRaft

open StdLib (StdMap)
open RaftServer (TimerMove Rearmed)

/-- A handler that starts an election. -/
def TimerHandler.Campaigns (h : TimerHandler) : Prop := h = .run ∨ h = .trans2F ∨ h = .trans2C

/-- The timers of a server, with the handlers in its ready queue. -/
structure TimersOk (x : RaftServer) (ready : List TimerHandler) : Prop where
  candidate : ∀ h ∈ x.candidateTimer.waits, h.Campaigns
  retry : ∀ z, ∀ h ∈ (x.retryTimers.get z).waits, h = .RV z ∨ h = .AE z
  /-- Only a primary waits to send an AE. -/
  waiting : x.state ≠ .primary → ∀ a z, .AE a ∉ (x.retryTimers.get z).waits
  primary : x.state = .primary → x.candidateTimer.waits = []
  bound : ∀ a, .AE a ∈ ready → x.retryTimers.find? a ≠ none
  batch : ∀ a, .AE a ∈ ready → ∀ h ∈ ready, ¬ h.Campaigns
  expired : ∀ a, .AE a ∈ ready → x.state ≠ .primary → (x.retryTimers.get a).minDateTime = true

theorem not_campaigns_RV {z : Addr} : ¬ (TimerHandler.RV z).Campaigns := by simp [TimerHandler.Campaigns]

theorem not_campaigns_AE {z : Addr} : ¬ (TimerHandler.AE z).Campaigns := by simp [TimerHandler.Campaigns]

/-! ## Expiry -/

namespace RaftServer

theorem waits_of_get {m : StdMap Addr Timer} {z : Addr} {h : TimerHandler} (hh : h ∈ (m.get z).waits) :
    m.find? z ≠ none := fun hn => by
  rw [StdMap.get_eq_default hn] at hh
  cases hh

theorem get_expiresAtMin (m : StdMap Addr Timer) (z : Addr) :
    ((m.mapValues Timer.expiresAtMin).get z).waits = [] ∧
      (m.find? z ≠ none → ((m.mapValues Timer.expiresAtMin).get z).minDateTime = true) := by
  unfold StdMap.get
  rw [StdMap.find?_mapValues]
  cases m.find? z with
  | none => exact ⟨rfl, fun h => absurd rfl h⟩
  | some t => exact ⟨rfl, fun _ => rfl⟩

theorem bound_expiresAtMin {m : StdMap Addr Timer} {z : Addr} (h : m.find? z ≠ none) :
    (m.mapValues Timer.expiresAtMin).find? z ≠ none := by
  rw [StdMap.find?_mapValues]
  simpa using h

theorem bound_set {m : StdMap Addr Timer} {a z : Addr} (timer : Timer) (h : m.find? z ≠ none) :
    (m.set a timer).find? z ≠ none := by
  rw [StdMap.find?_set]
  split
  · simp
  · exact h

/-- A retry timer whose deadline passes keeps its expiry. -/
theorem expire_retry (x : RaftServer) (a : Addr) : ∃ m,
    x.expire (.retry a) = ((x.retryTimers.get a).waits, { x with retryTimers := m }) ∧
    (∀ z, m.get z = if z = a then { x.retryTimers.get a with waits := [] } else x.retryTimers.get z) ∧
    ∀ z, x.retryTimers.find? z ≠ none → m.find? z ≠ none := by
  by_cases hfind : x.retryTimers.find? a = none
  · have hget := StdMap.get_eq_default hfind
    refine ⟨x.retryTimers, ?_, fun z => ?_, fun z hz => hz⟩
    · simp [expire, hfind, hget]
      rfl
    · split
      · rename_i hz
        rw [hz, hget]
        rfl
      · rfl
  · refine ⟨x.retryTimers.set a { x.retryTimers.get a with waits := [] }, ?_, fun z => ?_, fun z => bound_set _⟩
    · simp [expire, StdMap.find?_eq_get hfind]
    · rw [StdMap.get_set]

/-- What a poll takes out of the timers and what it leaves. -/
theorem poll_ok (timers : List TimerId) : ∀ x : RaftServer,
    (x.poll timers).2.state = x.state ∧
    (∀ h ∈ (x.poll timers).2.candidateTimer.waits, h ∈ x.candidateTimer.waits) ∧
    (∀ z, ∀ h ∈ ((x.poll timers).2.retryTimers.get z).waits, h ∈ (x.retryTimers.get z).waits) ∧
    (∀ z, ((x.poll timers).2.retryTimers.get z).minDateTime = (x.retryTimers.get z).minDateTime) ∧
    (∀ z, x.retryTimers.find? z ≠ none → (x.poll timers).2.retryTimers.find? z ≠ none) ∧
    ∀ h ∈ (x.poll timers).1, h ∈ x.candidateTimer.waits ∨ ∃ z, h ∈ (x.retryTimers.get z).waits := by
  induction timers with
  | nil => exact fun x => ⟨rfl, fun _ h => h, fun _ _ h => h, fun _ => rfl, fun _ h => h, by simp [poll]⟩
  | cons id timers ih =>
    intro x
    obtain ⟨h1, h2, h3, h4, h5, h6⟩ := ih (x.expire id).2
    have hfst : (x.poll (id :: timers)).1 = (x.expire id).1 ++ ((x.expire id).2.poll timers).1 := rfl
    have hsnd : (x.poll (id :: timers)).2 = ((x.expire id).2.poll timers).2 := rfl
    rw [hfst, hsnd]
    cases id with
    | candidate =>
      refine ⟨h1, fun h hm => ?_, h3, h4, h5, fun h hm => ?_⟩
      · exact absurd (h2 h hm) (by simp [expire])
      · rcases List.mem_append.mp hm with hm | hm
        · exact .inl hm
        · rcases h6 h hm with hm | hm
          · exact absurd hm (by simp [expire])
          · exact .inr hm
    | retry a =>
      obtain ⟨m, hexpire, hget, hbound⟩ := expire_retry x a
      rw [hexpire] at h1 h2 h3 h4 h5 h6 ⊢
      have hsub : ∀ z, ∀ h ∈ (m.get z).waits, h ∈ (x.retryTimers.get z).waits := by
        intro z h hm
        rw [hget] at hm
        split at hm
        · cases hm
        · exact hm
      refine ⟨h1, h2, fun z h hm => hsub z h (h3 z h hm), fun z => ?_, fun z hz => h5 z (hbound z hz),
        fun h hm => ?_⟩
      · rw [h4, hget]
        split
        · rename_i he
          rw [he]
        · rfl
      · rcases List.mem_append.mp hm with hm | hm
        · exact .inr ⟨a, hm⟩
        · rcases h6 h hm with hm | ⟨z, hm⟩
          · exact .inl hm
          · exact .inr ⟨z, hsub z h hm⟩

end RaftServer

/-! ## The votes of a candidate -/

namespace RaftServer

variable {x y : RaftServer} {input : Input}

/-- How the votes of a server that ends as candidate came to be. A timer at
`min_date_time` stays there, and nothing is sent to its server. -/
inductive Ballot (x : RaftServer) (input : Input) (y : RaftServer) : Prop
  | campaigned (hterm : y.term = x.term + 1) (hvotes : y.winnedVotes = 1)
  | same (hx : x.state = .candidate) (hterm : y.term = x.term) (hvotes : y.winnedVotes = x.winnedVotes)
      (hkeep : ∀ z, (x.retryTimers.get z).minDateTime = true →
        (y.retryTimers.get z).minDateTime = true ∧ y.currentRpcLsn.get z = x.currentRpcLsn.get z)
  | counted {p resp} (hi : input = .message p) (hp : p.rpc = .respVote resp) (hx : x.state = .candidate)
      (hresp : resp.term = x.term) (hlsn : x.currentRpcLsn.get resp.server = resp.lsn + 1) (hok : resp.ok = true)
      (hterm : y.term = x.term) (hvotes : y.winnedVotes = x.winnedVotes + 1)
      (hretry : y.retryTimers = x.retryTimers.set resp.server ⟨true, []⟩)
      (hcur : y.currentRpcLsn = x.currentRpcLsn)

/-- A call to a server whose timer is not at `min_date_time` leaves the others as they are. -/
theorem CalledAll.keep {a : Addr} {rpc : Addr → Rpc} {kind : Addr → TimerHandler} (h : CalledAll x [a] rpc kind y)
    (hmin : (x.retryTimers.get a).minDateTime = false) {z : Addr} (hz : (x.retryTimers.get z).minDateTime = true) :
    (y.retryTimers.get z).minDateTime = true ∧ y.currentRpcLsn.get z = x.currentRpcLsn.get z := by
  have hza : z ∉ [a] := fun hm => by
    obtain rfl := List.mem_singleton.mp hm
    rw [hz] at hmin
    cases hmin
  rw [h.timers z hza, h.lsn z, if_neg hza]
  exact ⟨hz, Int.add_zero _⟩

theorem Outcome.ballot (h : Outcome x input y) (hy : y.state = .candidate) : Ballot x input y := by
  cases h with
  | idle | query | told | answered | appended => exact .same hy rfl rfl fun _ h => ⟨h, rfl⟩
  | polled timers hpoll =>
    refine .same hy rfl rfl fun z hz => ⟨?_, rfl⟩
    obtain ⟨-, -, -, hmin, -⟩ := poll_ok timers x
    have := hmin z
    rw [hpoll] at this
    exact this.trans hz
  | rvStale | aeStale => exact .same hy rfl rfl fun _ h => ⟨h, rfl⟩
  | @rvIgnored p rv hp hle | @rvDenied p rv hp hle =>
    have hst : (x.heard rv.term).state = .candidate := hy
    rw [heard_state] at hst
    split at hst
    · cases hst
    · have hsame : x.heard rv.term = x := heard_same (by omega)
      simp only [hsame]
      exact .same hst rfl rfl fun _ h => ⟨h, rfl⟩
  | rvGranted hp hle hlsn hstate =>
    have hst := hy
    simp only [voted, makeRespRv, makeRpcCall, recordLsn_state, hstate] at hst
    cases hst
  | steppedDown | aeIgnored | aeRejected => cases hy
  | aeAccepted hp hle hnp hlsn hprelog ht =>
    subst ht
    cases hy
  | counted hp hresp hstate hlsn hok => exact .counted rfl hp hstate hresp hlsn hok rfl rfl rfl rfl
  | won hp hresp hstate hlsn hok hm hy' =>
    obtain ⟨_, _, _, rfl⟩ := hy'.eq
    cases hy
  | acked hp hresp hstate hlsn hok ht hw hxs =>
    obtain ⟨_, _, _, _, -, rfl⟩ := ht.eq hxs
    have hst : x.state = .candidate := hy
    rw [hst] at hstate
    cases hstate
  | nacked hp hresp hstate hlsn hok hnext hw hy' =>
    obtain ⟨_, _, _, rfl⟩ := hy'.eq
    have hst : x.state = .candidate := hy
    rw [hst] at hstate
    cases hstate
  | campaigned hh hy' =>
    obtain ⟨_, _, _, rfl⟩ := CalledAll.eq hy'
    exact .campaigned rfl rfl
  | rvRetried hmin hy' =>
    have hkeep := fun z hz => CalledAll.keep (z := z) hy' hmin hz
    obtain ⟨_, _, _, rfl⟩ := CalledAll.eq hy'
    exact .same hy rfl rfl hkeep
  | aeRetried hmin hy' =>
    obtain ⟨_, -, hc⟩ := hy'
    have hkeep := fun z hz => hc.keep (z := z) hmin hz
    obtain ⟨_, _, _, rfl⟩ := hc.eq
    exact .same hy rfl rfl hkeep

end RaftServer

/-! ## The invariant -/

/-- What an input other than a poll does to the ready queue of its server. -/
def Queued (input : Input) (ready ready' : List TimerHandler) : Prop :=
  match input with
  | .timer h => ready = h :: ready'
  | _ => ready' = ready

theorem Queued.mem {input : Input} {ready ready' : List TimerHandler} (hq : Queued input ready ready') :
    ∀ h ∈ ready', h ∈ ready := by
  cases input with
  | timer h =>
    obtain rfl : ready = h :: ready' := hq
    exact fun a ha => List.mem_cons_of_mem _ ha
  | _ =>
    obtain rfl : ready' = ready := hq
    exact fun a ha => ha

theorem TimersOk.polled {x : RaftServer} (h : TimersOk x []) (timers : List TimerId) :
    TimersOk (x.poll timers).2 (x.poll timers).1 := by
  obtain ⟨hst, hc, hr, hmin, hb, hex⟩ := RaftServer.poll_ok timers x
  -- a batch with an AE in it was taken from a primary
  have hprimary : ∀ a, .AE a ∈ (x.poll timers).1 → x.state = .primary ∧ x.retryTimers.find? a ≠ none := by
    intro a ha
    rcases hex _ ha with ha | ⟨z, ha⟩
    · exact absurd (h.candidate _ ha) not_campaigns_AE
    · refine ⟨by_contra fun hn => h.waiting hn a z ha, ?_⟩
      rcases h.retry z _ ha with he | he
      · cases he
      · cases he
        exact RaftServer.waits_of_get ha
  refine ⟨fun k hk => h.candidate k (hc k hk), fun z k hk => h.retry z k (hr z k hk), ?_, ?_, ?_, ?_, ?_⟩
  · exact fun hn a z ha => h.waiting (hst ▸ hn) a z (hr z _ ha)
  · intro hp
    exact List.eq_nil_iff_forall_not_mem.mpr fun k hk => by
      have := hc k hk
      rw [h.primary (hst ▸ hp)] at this
      cases this
  · exact fun a ha => hb a (hprimary a ha).2
  · intro a ha k hk hcamp
    rcases hex k hk with hk | ⟨z, hk⟩
    · rw [h.primary (hprimary a ha).1] at hk
      cases hk
    · rcases h.retry z k hk with rfl | rfl
      · exact not_campaigns_RV hcamp
      · exact not_campaigns_AE hcamp
  · exact fun a ha hn => absurd (hst.trans (hprimary a ha).1) hn

/-- A handler that leaves AEs in the ready queue only if they find their timer expired. -/
theorem TimersOk.of_ready {x y : RaftServer} {ready ready' : List TimerHandler} (h : TimersOk x ready)
    (hsub : ∀ k ∈ ready', k ∈ ready) (hcand : ∀ k ∈ y.candidateTimer.waits, k.Campaigns)
    (hretry : ∀ z, ∀ k ∈ (y.retryTimers.get z).waits, k = .RV z ∨ k = .AE z)
    (hwaiting : y.state ≠ .primary → ∀ a z, .AE a ∉ (y.retryTimers.get z).waits)
    (hprimary : y.state = .primary → y.candidateTimer.waits = [])
    (hbound : ∀ a, x.retryTimers.find? a ≠ none → y.retryTimers.find? a ≠ none)
    (hexpired : ∀ a, .AE a ∈ ready' → y.state ≠ .primary → (y.retryTimers.get a).minDateTime = true) :
    TimersOk y ready' :=
  ⟨hcand, hretry, hwaiting, hprimary, fun a ha => hbound a (h.bound a (hsub _ ha)),
    fun a ha k hk => h.batch a (hsub _ ha) k (hsub _ hk), hexpired⟩

/-- A primary has no election to start, and its AEs may find their timers as they like. -/
theorem TimersOk.of_primary {x y : RaftServer} {ready ready' : List TimerHandler} (h : TimersOk x ready)
    (hsub : ∀ k ∈ ready', k ∈ ready) (hy : y.state = .primary) (hcand : y.candidateTimer.waits = [])
    (hretry : ∀ z, ∀ k ∈ (y.retryTimers.get z).waits, k = .RV z ∨ k = .AE z)
    (hbound : ∀ a, x.retryTimers.find? a ≠ none → y.retryTimers.find? a ≠ none) : TimersOk y ready' := by
  refine h.of_ready hsub ?_ hretry (fun hn => absurd hy hn) (fun _ => hcand) hbound fun _ _ hn => absurd hy hn
  rw [hcand]
  simp

theorem RaftServer.Rearmed.kinds {xs : List Addr} {kind : Addr → TimerHandler} {m m' : StdMap Addr Timer}
    (h : Rearmed xs kind m m') (hkind : ∀ z, kind z = .RV z ∨ kind z = .AE z)
    (hm : ∀ z, ∀ k ∈ (m.get z).waits, k = .RV z ∨ k = .AE z) :
    ∀ z, ∀ k ∈ (m'.get z).waits, k = .RV z ∨ k = .AE z := by
  intro z k hk
  rcases h.waits z k hk with rfl | hk
  · exact hkind z
  · exact hm z k hk

theorem TimersOk.move {x y : RaftServer} {input : Input} {ready ready' : List TimerHandler} (h : TimersOk x ready)
    (hq : Queued input ready ready') (hpoll : ∀ timers, input ≠ .poll timers) (hm : TimerMove x input y) :
    TimersOk y ready' := by
  have hempty := fun z => (RaftServer.get_expiresAtMin x.retryTimers z).1
  have hnone : ∀ z, ∀ k ∈ ((x.retryTimers.mapValues Timer.expiresAtMin).get z).waits, k = .RV z ∨ k = .AE z := by
    intro z k hk
    rw [hempty] at hk
    cases hk
  have hsub := hq.mem
  cases hm with
  | polled hi => exact absurd hi (hpoll _)
  | same hterm hstate hcand hretry =>
    refine h.of_ready hsub ?_ ?_ ?_ ?_ ?_ ?_
    · rw [hcand]; exact h.candidate
    · rw [hretry]; exact h.retry
    · rw [hstate, hretry]; exact h.waiting
    · rw [hstate, hcand]; exact h.primary
    · rw [hretry]; exact fun a ha => ha
    · rw [hstate, hretry]; exact fun a ha => h.expired a (hsub _ ha)
  | followed hstate hcand hretry =>
    refine h.of_ready hsub ?_ ?_ ?_ ?_ ?_ ?_
    · rw [hcand]; simp [TimerHandler.Campaigns]
    · rw [hretry]; exact hnone
    · rw [hretry]; intro _ a z; simp [hempty]
    · rw [hstate]; simp
    · rw [hretry]; exact fun a => RaftServer.bound_expiresAtMin
    · rw [hretry]
      exact fun a ha _ => (RaftServer.get_expiresAtMin _ a).2 (h.bound a (hsub _ ha))
  | @counted _ resp hi hp hresp hok hx hstate hterm hcand hretry =>
    have hget : ∀ z, y.retryTimers.get z = if z = resp.server then ⟨true, []⟩ else x.retryTimers.get z :=
        fun z => by
      rw [hretry, StdMap.get_set]
    refine h.of_ready hsub ?_ ?_ ?_ ?_ ?_ ?_
    · rw [hcand]; exact h.candidate
    · intro z k hk
      rw [hget] at hk
      split at hk
      · cases hk
      · exact h.retry z k hk
    · intro _ b z hb
      rw [hget] at hb
      split at hb
      · cases hb
      · exact h.waiting (by simp [hx]) b z hb
    · rw [hstate]; simp
    · rw [hretry]; exact fun _ => RaftServer.bound_set _
    · intro b hb _
      rw [hget]
      split
      · rfl
      · exact h.expired b (hsub _ hb) (by simp [hx])
  | won hstate hcand hretry =>
    refine h.of_primary hsub hstate (by rw [hcand]) (hretry.kinds (fun _ => .inr rfl) hnone) ?_
    exact fun a ha => hretry.bound a (RaftServer.bound_expiresAtMin ha)
  | @replied a timer hx hstate hcand hwaits hretry =>
    have hkinds : ∀ z, ∀ k ∈ ((x.retryTimers.set a timer).get z).waits, k = .RV z ∨ k = .AE z := by
      intro z k hk
      rw [StdMap.get_set] at hk
      split at hk
      · rw [hwaits] at hk
        cases hk
      · exact h.retry z k hk
    refine h.of_primary hsub hstate (by rw [hcand]; exact h.primary hx) ?_ ?_
    · rcases hretry with he | hr
      · rw [he]; exact h.retry
      · exact hr.kinds (fun _ => .inr rfl) hkinds
    · rcases hretry with he | hr
      · rw [he]; exact fun a ha => ha
      · exact fun b hb => hr.bound b (RaftServer.bound_set _ hb)
  | @campaigned k hi hk hstate hcand hretry =>
    -- no AE is behind a handler that starts an election
    have hno : ∀ a, .AE a ∉ ready' := by
      subst hi
      obtain rfl : ready = k :: ready' := hq
      exact fun a ha => h.batch a (List.mem_cons_of_mem _ ha) k List.mem_cons_self hk
    refine h.of_ready hsub ?_ (hretry.kinds (fun _ => .inl rfl) hnone) ?_ ?_ ?_ ?_
    · rw [hcand]; simp [TimerHandler.Campaigns]
    · intro _ b z hb
      rcases hretry.waits z _ hb with he | hb
      · cases he
      · rw [hempty] at hb
        cases hb
    · rw [hstate]; simp
    · exact fun a ha => hretry.bound a (RaftServer.bound_expiresAtMin ha)
    · exact fun a ha => absurd ha (hno a)
  | @rvRetried a hi hmin hterm hstate hcand hretry =>
    refine h.of_ready hsub ?_ (hretry.kinds (fun _ => .inl rfl) h.retry) ?_ ?_ hretry.bound ?_
    · rw [hcand]; exact h.candidate
    · intro hn b z hb
      rcases hretry.waits z _ hb with he | hb
      · cases he
      · exact h.waiting (hstate ▸ hn) b z hb
    · rw [hstate, hcand]; exact h.primary
    · intro b hb hn
      rw [hstate] at hn
      by_cases hba : b = a
      · subst hba
        rw [h.expired b (hsub _ hb) hn] at hmin
        cases hmin
      · rw [hretry.others b (by simpa using hba)]
        exact h.expired b (hsub _ hb) hn
  | @aeRetried a hi hmin hstate hcand hretry =>
    -- a server that is not primary finds the timer expired
    have hx : x.state = .primary := by_contra fun hn => by
      subst hi
      obtain rfl : ready = .AE a :: ready' := hq
      rw [h.expired a List.mem_cons_self hn] at hmin
      cases hmin
    exact h.of_primary hsub (hstate.trans hx) (by rw [hcand]; exact h.primary hx)
      (hretry.kinds (fun _ => .inr rfl) h.retry) hretry.bound

section Runs

variable {SM : Type} [StateMachine SM] {c : Cluster} {σ : System SM} {e : Event} {rest : List Packet}

theorem Step.ready (h : Step c σ e rest) :
    (∃ timers, e.input = .poll timers ∧ (σ.nodes e.server).ready = [] ∧
      ((σ.nodes e.server).next e).ready = ((σ.raft e.server).poll timers).1) ∨
    (∀ timers, e.input ≠ .poll timers) ∧
      Queued e.input (σ.nodes e.server).ready ((σ.nodes e.server).next e).ready := by
  have ho := h.offers
  unfold Node.next
  cases hi : e.input with
  | poll timers =>
    rw [hi] at ho
    cases ho with
    | poll _ hready => exact .inl ⟨timers, rfl, hready, by simp [Node.take, hready, System.raft]⟩
  | timer k =>
    rw [hi] at ho
    cases ho with
    | timer hready => exact .inr ⟨by simp, by simp [Node.take, Queued, hready]⟩
  | _ => exact .inr ⟨by simp, rfl⟩

theorem TimersOk.forget {x : RaftServer} {ready : List TimerHandler} (h : TimersOk x ready) :
    TimersOk x.taken ready :=
  ⟨h.candidate, h.retry, h.waiting, h.primary, h.bound, h.batch, h.expired⟩

theorem Reachable.timers (hr : Reachable c σ) (s : Addr) : TimersOk (σ.raft s) (σ.nodes s).ready := by
  refine hr.invariant (I := fun σ => ∀ s, TimersOk (σ.raft s) (σ.nodes s).ready) ?_ ?_ s
  · have hget : ∀ z, ((System.start c : System SM).raft s).retryTimers.get z = default := fun z => by
      show (StdMap.empty.setAll c.configuration default).get z = default
      rw [StdMap.get_setAll]
      split <;> rfl
    intro s
    refine ⟨?_, ?_, ?_, ?_, ?_, ?_, ?_⟩
    · intro k hk
      exact .inl (by simpa [System.start, System.raft, RaftServer.start, Timer.expiresFromNow, Timer.asyncWait] using hk)
    · intro z k hk
      rw [show ((System.start c : System SM).raft s).retryTimers.get z = default from hget z] at hk
      cases hk
    · intro _ a z ha
      rw [show ((System.start c : System SM).raft s).retryTimers.get z = default from hget z] at ha
      cases ha
    · intro h; cases h
    · intro a ha; cases ha
    · intro a ha; cases ha
    · intro a ha; cases ha
  · intro σ e rest hr h ih s
    by_cases hs : s = e.server
    · subst hs
      have hnode : ((σ.next e rest).nodes e.server).ready = ((σ.nodes e.server).next e).ready := by
        simp [System.next]
      rw [System.raft_next_self, hnode]
      have hx := ih e.server
      rcases h.ready with ⟨timers, hi, hnil, hready⟩ | ⟨hpoll, hq⟩
      · have hy : e.after = ((σ.raft e.server).poll timers).2 := by
          have hh := h.handled
          rw [hi] at hh
          exact (Except.ok.inj hh).symm
        rw [hnil] at hx
        rw [hready, hy]
        exact (hx.polled timers).forget
      · have hm := (h.outcome hr).timers
        rw [h.before] at hm
        exact (hx.move hq hpoll hm).forget
    · rw [System.raft_next_ne hs, show (σ.next e rest).nodes s = σ.nodes s by simp [System.next, hs]]
      exact ih s

/-- No retry timer is taken away. -/
theorem RaftServer.TimerMove.bound {x y : RaftServer} {input : Input} (h : TimerMove x input y) {a : Addr}
    (ha : x.retryTimers.find? a ≠ none) : y.retryTimers.find? a ≠ none := by
  cases h with
  | same _ _ _ hretry => rwa [hretry]
  | @polled timers _ hy =>
    obtain ⟨-, -, -, -, hkeep, -⟩ := RaftServer.poll_ok timers x
    rw [hy]
    exact hkeep a ha
  | followed _ _ hretry =>
    rw [hretry]
    exact RaftServer.bound_expiresAtMin ha
  | counted _ _ _ _ _ _ _ _ hretry =>
    rw [hretry]
    exact RaftServer.bound_set _ ha
  | won _ _ hretry => exact hretry.bound a (RaftServer.bound_expiresAtMin ha)
  | replied _ _ _ _ hretry =>
    rcases hretry with he | hr
    · rwa [he]
    · exact hr.bound a (RaftServer.bound_set _ ha)
  | campaigned _ _ _ _ hretry => exact hretry.bound a (RaftServer.bound_expiresAtMin ha)
  | rvRetried _ _ _ _ _ hretry => exact hretry.bound a ha
  | aeRetried _ _ _ _ hretry => exact hretry.bound a ha

/-- The constructor makes a retry timer for each server, and none goes. -/
theorem Reachable.has_timer (hr : Reachable c σ) (s : Addr) {a : Addr} (ha : a ∈ c.configuration) :
    (σ.raft s).retryTimers.find? a ≠ none := by
  refine hr.invariant (I := fun σ => ∀ s, (σ.raft s).retryTimers.find? a ≠ none) ?_ ?_ s
  · intro s
    show (StdMap.empty.setAll c.configuration default).find? a ≠ none
    rw [StdMap.find?_setAll, if_pos ha]
    nofun
  · intro σ e rest hr h ih s
    by_cases hs : s = e.server
    · subst hs
      have hm := (h.outcome hr).timers
      rw [h.before] at hm
      rw [System.raft_next_self]
      exact hm.bound (ih e.server)
    · rw [System.raft_next_ne hs]
      exact ih s

/-- **Only primaries send AEs.** -/
theorem Step.ae_primary (hr : Reachable c σ) (h : Step c σ e rest) {p : Packet} {ae : AppendEntryRpc}
    (hp : p ∈ e.packets) (hae : p.rpc = .appendEntry ae) : e.after.state = .primary := by
  have hs := h.sends hr hp
  rw [hae] at hs
  cases hs with
  | appendEntry hb hlsn hcur hstate =>
    rcases hstate with hst | ⟨hi, hst, hmin⟩
    · exact hst
    · have ho := h.offers
      rw [hi] at ho
      rw [hst]
      cases ho with
      | timer hready =>
        by_contra hn
        rw [h.before] at hn hmin
        rw [(hr.timers e.server).expired p.dst (by rw [hready]; simp) hn] at hmin
        cases hmin

end Runs

end MyRaft
