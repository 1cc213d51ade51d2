/-
Handlers that were cancelled, and handlers that should be pending. A handler
whose deadline has passed waits in the ready queue, out of the reach of the
timer it was registered on. The code cancels it by setting the expiry of the
timer to `min_date_time`; but most callers arm the same timer again at once,
and then the handler that was cancelled finds an expiry like any other. An RV
handler that runs so drops the wait of the handler registered since, and
registers none.
-/
import MyRaft.Election

namespace MyRaft

open History
open StdLib (StdMap)
open RaftServer (TimerMove Rearmed rearmed)

/-! ## Timers and their handlers -/

/-- The timer a handler is registered on. -/
def TimerHandler.timer : TimerHandler → TimerId
  | .run | .trans2F | .trans2C => .candidate
  | .RV server | .AE server => .retry server

/-- The handler returns where it finds its timer at `min_date_time`; the others throw there. -/
def TimerHandler.returns : TimerHandler → Bool
  | .run | .AE _ => true
  | _ => false

def RaftServer.timerOf (x : RaftServer) : TimerId → Timer
  | .candidate => x.candidateTimer
  | .retry server => x.retryTimers.get server

def Input.isPoll : Input → Bool
  | .poll _ => true
  | _ => false

/-- The handler of the event set the expiry of a timer: no poll, it left the timer changed. -/
def Event.sets (e : Event) (id : TimerId) : Bool :=
  !e.input.isPoll && decide (e.after.timerOf id ≠ e.before.timerOf id)

/-- The events of `s` since its reactor polled last. -/
def sincePoll : List Event → Addr → List Event
  | [], _ => []
  | e :: past, s =>
    if e.server = s then if e.input.isPoll then [] else e :: sincePoll past s
    else sincePoll past s

/-- A timer was set since the handlers in the ready queue were taken from it: they were cancelled. -/
def Reset (trace : List Event) (s : Addr) (id : TimerId) : Prop := ∃ e ∈ sincePoll trace s, e.sets id = true

instance (trace : List Event) (s : Addr) (id : TimerId) : Decidable (Reset trace s id) :=
  inferInstanceAs (Decidable (∃ e ∈ sincePoll trace s, e.sets id = true))

/-- The ready queue of `s`, as its events leave it. -/
def readyOf : List Event → Addr → List TimerHandler
  | [], _ => []
  | e :: past, s =>
    if e.server = s then
      match e.input with
      | .poll timers => (e.before.poll timers).1
      | .timer _ => (readyOf past s).tail
      | _ => readyOf past s
    else readyOf past s

theorem TimerHandler.Campaigns.timer_eq {h : TimerHandler} (hc : h.Campaigns) : h.timer = .candidate := by
  rcases hc with rfl | rfl | rfl <;> rfl

theorem Event.sets_iff {e : Event} {id : TimerId} (hp : e.input.isPoll = false) :
    e.sets id = true ↔ e.after.timerOf id ≠ e.before.timerOf id := by
  simp [Event.sets, hp]

theorem Input.isPoll_eq_false {input : Input} : input.isPoll = false ↔ ∀ timers, input ≠ .poll timers := by
  cases input <;> simp [Input.isPoll]

section Reset

variable {e : Event} {trace : List Event} {s : Addr} {id : TimerId}

theorem reset_other (hs : s ≠ e.server) : Reset (e :: trace) s id ↔ Reset trace s id := by
  unfold Reset
  rw [sincePoll, if_neg (Ne.symm hs)]

theorem reset_poll (hp : e.input.isPoll = true) : ¬ Reset (e :: trace) e.server id := by
  unfold Reset
  rw [sincePoll, if_pos rfl, if_pos hp]
  simp

theorem reset_cons (hp : e.input.isPoll = false) :
    Reset (e :: trace) e.server id ↔ e.sets id = true ∨ Reset trace e.server id := by
  unfold Reset
  rw [sincePoll, if_pos rfl, if_neg (by simp [hp])]
  simp

end Reset

/-! ## A poll -/

namespace RaftServer

variable {x y : RaftServer}

theorem expire_timerOf (x : RaftServer) (id id' : TimerId) :
    (id' = id ∧ (x.expire id).2.timerOf id' = { x.timerOf id with waits := [] }) ∨
    (id' ≠ id ∧ (x.expire id).2.timerOf id' = x.timerOf id') := by
  cases id with
  | candidate =>
    cases id' with
    | candidate => exact .inl ⟨rfl, rfl⟩
    | retry b => exact .inr ⟨nofun, rfl⟩
  | retry a =>
    obtain ⟨m, hexpire, hget, -⟩ := expire_retry x a
    rw [hexpire]
    cases id' with
    | candidate => exact .inr ⟨nofun, rfl⟩
    | retry b =>
      by_cases hb : b = a
      · subst hb
        exact .inl ⟨rfl, (hget _).trans (if_pos rfl)⟩
      · exact .inr ⟨fun h => hb (TimerId.retry.inj h), (hget _).trans (if_neg hb)⟩

theorem expire_fst (x : RaftServer) (id : TimerId) : (x.expire id).1 = (x.timerOf id).waits := by
  cases id with
  | candidate => rfl
  | retry a =>
    obtain ⟨_, hexpire, -⟩ := expire_retry x a
    rw [hexpire]
    rfl

/-- A poll takes the waits of its timers, and leaves their expiry. -/
theorem poll_timerOf (timers : List TimerId) : ∀ (x : RaftServer) (id : TimerId),
    (id ∈ timers ∧ (x.poll timers).2.timerOf id = { x.timerOf id with waits := [] }) ∨
    (id ∉ timers ∧ (x.poll timers).2.timerOf id = x.timerOf id) := by
  induction timers with
  | nil => exact fun x id => .inr ⟨by simp, rfl⟩
  | cons a timers ih =>
    intro x id
    have hsnd : (x.poll (a :: timers)).2 = ((x.expire a).2.poll timers).2 := rfl
    rw [hsnd]
    rcases ih (x.expire a).2 id with ⟨hm, h⟩ | ⟨hm, h⟩ <;> rcases expire_timerOf x a id with ⟨rfl, h'⟩ | ⟨hne, h'⟩
    · exact .inl ⟨by simp, by rw [h, h']⟩
    · exact .inl ⟨by simp [hm], by rw [h, h']⟩
    · exact .inl ⟨by simp, by rw [h, h']⟩
    · exact .inr ⟨by simp [hm, hne], by rw [h, h']⟩

/-- What a poll makes ready. -/
theorem mem_poll {h : TimerHandler} (timers : List TimerId) : ∀ x : RaftServer,
    h ∈ (x.poll timers).1 ↔ ∃ id ∈ timers, h ∈ (x.timerOf id).waits := by
  induction timers with
  | nil => simp [poll]
  | cons a timers ih =>
    intro x
    have hfst : (x.poll (a :: timers)).1 = (x.expire a).1 ++ ((x.expire a).2.poll timers).1 := rfl
    rw [hfst, List.mem_append, ih, expire_fst]
    constructor
    · rintro (hm | ⟨id, hid, hm⟩)
      · exact ⟨a, by simp, hm⟩
      · rcases expire_timerOf x a id with ⟨rfl, he⟩ | ⟨-, he⟩
        · rw [he] at hm
          cases hm
        · exact ⟨id, by simp [hid], by rwa [he] at hm⟩
    · rintro ⟨id, hid, hm⟩
      rcases expire_timerOf x a id with ⟨rfl, -⟩ | ⟨hne, he⟩
      · exact .inl hm
      · refine .inr ⟨id, (List.mem_cons.mp hid).resolve_left hne, ?_⟩
        rw [he]
        exact hm

/-! ## The timers after a handler -/

/-- A timer has at most one wait, of a handler of its own, and only when it is set to a time. -/
def OneWait (id : TimerId) (timer : Timer) : Prop := timer.waits = [] ∨ ∃ h, h.timer = id ∧ timer = ⟨false, [h]⟩

theorem oneWait_rearmed {h : TimerHandler} {id : TimerId} (hid : h.timer = id) (timer : Timer) :
    OneWait id (rearmed h timer) := by
  unfold rearmed
  split
  · exact .inr ⟨h, hid, rfl⟩
  · exact .inl rfl

theorem Rearmed.oneWait {xs : List Addr} {kind : Addr → TimerHandler} {m m' : StdMap Addr Timer}
    (h : Rearmed xs kind m m') (hkind : ∀ z, (kind z).timer = .retry z) {a : Addr}
    (ha : m.get a = x.retryTimers.get a ∨ (m.get a).waits = []) :
    m'.get a = x.retryTimers.get a ∨ OneWait (.retry a) (m'.get a) := by
  by_cases hm : a ∈ xs
  · rw [h.armed a hm]
    exact .inr (oneWait_rearmed (hkind a) _)
  · rw [h.others a hm]
    exact ha.imp_right .inl

/-- A handler leaves a timer as it was, or sets it. -/
theorem TimerMove.set_cases {input : Input} (h : TimerMove x input y) (hp : input.isPoll = false) (id : TimerId) :
    y.timerOf id = x.timerOf id ∨ OneWait id (y.timerOf id) := by
  have hmin : ∀ a, ((x.retryTimers.mapValues Timer.expiresAtMin).get a).waits = [] :=
    fun a => (get_expiresAtMin x.retryTimers a).1
  cases h with
  | polled hi =>
    rw [hi] at hp
    cases hp
  | same hterm hstate hcand hretry =>
    left
    cases id with
    | candidate => exact hcand
    | retry a => show y.retryTimers.get a = _; rw [hretry]; rfl
  | followed hstate hcand hretry =>
    right
    cases id with
    | candidate => exact .inr ⟨.trans2F, rfl, hcand⟩
    | retry a => show OneWait _ (y.retryTimers.get a); rw [hretry]; exact .inl (hmin a)
  | counted hi hpk hresp hok hx hstate hterm hcand hretry =>
    cases id with
    | candidate => exact .inl hcand
    | retry a =>
      show y.retryTimers.get a = x.retryTimers.get a ∨ OneWait _ (y.retryTimers.get a)
      rw [hretry, StdMap.get_set]
      split
      · exact .inr (.inl rfl)
      · exact .inl rfl
  | won hstate hcand hretry =>
    cases id with
    | candidate => exact .inr (.inl (by show y.candidateTimer.waits = []; rw [hcand]))
    | retry a => exact hretry.oneWait (fun _ => rfl) (.inr (hmin a))
  | @replied a timer hx hstate hcand hwaits hretry =>
    cases id with
    | candidate => exact .inl hcand
    | retry b =>
      show y.retryTimers.get b = x.retryTimers.get b ∨ OneWait _ (y.retryTimers.get b)
      rcases hretry with hr | hr
      · rw [hr]
        exact .inl rfl
      · refine hr.oneWait (fun _ => rfl) ?_
        rw [StdMap.get_set]
        split
        · exact .inr hwaits
        · exact .inl rfl
  | campaigned hi hh hstate hcand hretry =>
    cases id with
    | candidate => exact .inr (.inr ⟨.trans2C, rfl, hcand⟩)
    | retry a => exact hretry.oneWait (fun _ => rfl) (.inr (hmin a))
  | rvRetried hi hm hterm hstate hcand hretry =>
    cases id with
    | candidate => exact .inl hcand
    | retry a => exact hretry.oneWait (fun _ => rfl) (.inl rfl)
  | aeRetried hi hm hstate hcand hretry =>
    cases id with
    | candidate => exact .inl hcand
    | retry a => exact hretry.oneWait (fun _ => rfl) (.inl rfl)

/-- A handler that finds its timer set to a time and without waits arms it again. -/
theorem onExpire_armed (hn : x.configuration.Nodup) {h : TimerHandler} (hrec : x.timerOf h.timer = ⟨false, []⟩)
    (hy : x.onExpire h = .ok y) : ∃ h', h'.timer = h.timer ∧ y.timerOf h.timer = ⟨false, [h']⟩ := by
  cases h with
  | run | trans2F | trans2C =>
    have hmin : x.candidateTimer = ⟨false, []⟩ := hrec
    simp only [onExpire, hmin, Bool.false_eq_true, if_false] at hy
    obtain ⟨_, _, _, rfl⟩ := (trans2C_ok hn hy).eq
    exact ⟨.trans2C, rfl, rfl⟩
  | RV a =>
    have hmin : x.retryTimers.get a = ⟨false, []⟩ := hrec
    simp only [onExpire, hmin, Bool.false_eq_true, if_false] at hy
    obtain ⟨-, rfl⟩ := RV_ok hy
    exact ⟨.RV a, rfl, by simp [timerOf, TimerHandler.timer, rearmed, hmin]⟩
  | AE a =>
    have hmin : x.retryTimers.get a = ⟨false, []⟩ := hrec
    simp only [onExpire, hmin, Bool.false_eq_true, if_false] at hy
    obtain ⟨n, rpc, -, -, -, rfl⟩ := AE_ok hy
    exact ⟨.AE a, rfl, by simp [timerOf, TimerHandler.timer]⟩

/-- A handler does nothing where it finds its timer at `min_date_time` and returns there, and only there. -/
theorem onExpire_eq_self (hn : x.configuration.Nodup) {h : TimerHandler} :
    x.onExpire h = .ok x ↔ h.returns = true ∧ (x.timerOf h.timer).minDateTime = true := by
  have hcalled : ∀ a m timer, x.called a m timer ≠ x := fun a m timer he => by
    have heffects : x.effects ++ [.rpc a m] = x.effects := congrArg (·.effects) he
    simp at heffects
  have hcandidate : x.trans2C ≠ .ok x := fun ht => by
    obtain ⟨_, _, _, he⟩ := (trans2C_ok hn ht).eq
    have hterm : x.term = x.term + 1 := congrArg (·.term) he
    omega
  cases h with
  | run => cases hmin : x.candidateTimer.minDateTime <;> simp [onExpire, TimerHandler.returns, timerOf,
      TimerHandler.timer, hmin, hcandidate]
  | trans2F | trans2C =>
    cases hmin : x.candidateTimer.minDateTime <;> simp [onExpire, TimerHandler.returns, hmin, hcandidate]
  | RV a =>
    have hRV : x.RV a ≠ .ok x := fun h => hcalled _ _ _ (RV_ok h).2.symm
    cases hmin : (x.retryTimers.get a).minDateTime <;> simp [onExpire, TimerHandler.returns, hmin, hRV]
  | AE a =>
    have hAE : x.AE a ≠ .ok x := fun h => by
      obtain ⟨_, _, -, -, -, he⟩ := AE_ok h
      exact hcalled _ _ _ he.symm
    cases hmin : (x.retryTimers.get a).minDateTime <;> simp [onExpire, TimerHandler.returns, timerOf,
      TimerHandler.timer, hmin, hAE]

end RaftServer

/-! ## The ready queue -/

/-- The timers of `s` and the handlers in its ready queue. -/
structure Batch {SM : Type} (σ : System SM) (s : Addr) : Prop where
  timers : ∀ id, RaftServer.OneWait id ((σ.raft s).timerOf id)
  one : ∀ h ∈ (σ.nodes s).ready, ∀ k ∈ (σ.nodes s).ready, h.timer = k.timer → h = k
  /-- The timer of a handler that was not cancelled is as the poll left it. -/
  fresh : ∀ h ∈ (σ.nodes s).ready, ¬ Reset σ.trace s h.timer → (σ.raft s).timerOf h.timer = ⟨false, []⟩

theorem RaftServer.taken_timerOf (x : RaftServer) (id : TimerId) : x.taken.timerOf id = x.timerOf id := by
  cases id <;> rfl

section Runs

variable {SM : Type} [StateMachine SM] {c : Cluster} {σ : System SM} {e : Event} {rest : List Packet} {s : Addr}
  {h : TimerHandler}

/-- The ready queue after a poll, and after any other input. -/
theorem Step.ready_next (hst : Step c σ e rest) :
    (e.input.isPoll = true ∧ ∃ timers, e.input = .poll timers ∧ e.after = ((σ.raft e.server).poll timers).2 ∧
      ((σ.next e rest).nodes e.server).ready = ((σ.raft e.server).poll timers).1) ∨
    (e.input.isPoll = false ∧ Queued e.input (σ.nodes e.server).ready ((σ.next e rest).nodes e.server).ready) := by
  rw [System.nodes_next, if_pos rfl]
  rcases hst.ready with ⟨timers, hi, -, hready⟩ | ⟨hpoll, hq⟩
  · refine .inl ⟨by rw [hi]; rfl, timers, hi, ?_, hready⟩
    have hh := hst.handled
    rw [hi] at hh
    exact (Except.ok.inj hh).symm
  · exact .inr ⟨Input.isPoll_eq_false.mpr hpoll, hq⟩

/-- A step of another server. -/
theorem Batch.other (hb : Batch σ s) (hs : s ≠ e.server) : Batch (σ.next e rest) s := by
  have hraft : (σ.next e rest).raft s = σ.raft s := System.raft_next_ne hs
  have hready : ((σ.next e rest).nodes s).ready = (σ.nodes s).ready := by rw [System.nodes_next, if_neg hs]
  refine ⟨by rw [hraft]; exact hb.timers, by rw [hready]; exact hb.one, fun h hh hn => ?_⟩
  rw [hready] at hh
  rw [System.trace_next, reset_other hs] at hn
  rw [hraft]
  exact hb.fresh h hh hn

omit [StateMachine SM] in
/-- The waits a poll takes. -/
theorem Batch.taken (hb : Batch σ s) {timers : List TimerId} (hh : h ∈ ((σ.raft s).poll timers).1) :
    h.timer ∈ timers ∧ (σ.raft s).timerOf h.timer = ⟨false, [h]⟩ := by
  obtain ⟨id, hid, hw⟩ := (RaftServer.mem_poll timers _).mp hh
  rcases hb.timers id with he | ⟨k, rfl, he⟩
  · rw [he] at hw
    cases hw
  · rw [he] at hw
    obtain rfl := List.mem_singleton.mp hw
    exact ⟨hid, he⟩

theorem Reachable.batch (hr : Reachable c σ) (s : Addr) : Batch σ s := by
  refine hr.invariant (I := fun σ => ∀ s, Batch σ s) (fun s => ?_) ?_ s
  · refine ⟨fun id => ?_, nofun, nofun⟩
    cases id with
    | candidate => exact .inr ⟨.run, rfl, rfl⟩
    | retry a =>
      refine .inl ?_
      show ((StdMap.empty.setAll c.configuration (default : Timer)).get a).waits = []
      rw [StdMap.get_setAll]
      split <;> rfl
  · intro σ e rest hr hst ih s
    by_cases hs : s = e.server
    swap
    · exact (ih s).other hs
    subst hs
    have hb := ih e.server
    have hraft : ∀ id, ((σ.next e rest).raft e.server).timerOf id = e.after.timerOf id := fun id => by
      rw [System.raft_next_self, RaftServer.taken_timerOf]
    rcases hst.ready_next with ⟨-, timers, -, hy, hready⟩ | ⟨hp, hq⟩
    · refine ⟨fun id => ?_, fun h hh k hk heq => ?_, fun h hh _ => ?_⟩
      · rw [hraft, hy]
        rcases RaftServer.poll_timerOf timers (σ.raft e.server) id with ⟨-, he⟩ | ⟨-, he⟩ <;> rw [he]
        · exact .inl rfl
        · exact hb.timers id
      · rw [hready] at hh hk
        have hw := (hb.taken hh).2
        rw [heq, (hb.taken hk).2] at hw
        exact (List.singleton_inj.mp (Timer.mk.inj hw).2).symm
      · rw [hready] at hh
        obtain ⟨hm, hw⟩ := hb.taken hh
        rw [hraft, hy]
        rcases RaftServer.poll_timerOf timers (σ.raft e.server) h.timer with ⟨-, he⟩ | ⟨hn, -⟩
        · rw [he, hw]
        · exact absurd hm hn
    · have hm := (hst.outcome hr).timers
      refine ⟨fun id => ?_, fun h hh k hk => hb.one h (hq.mem h hh) k (hq.mem k hk), fun h hh hn => ?_⟩
      · rw [hraft]
        rcases hm.set_cases hp id with he | hw
        · rw [he, hst.before]
          exact hb.timers id
        · exact hw
      · rw [System.trace_next, reset_cons hp, Event.sets_iff hp, not_or, not_not] at hn
        rw [hraft, hn.1, hst.before]
        exact hb.fresh h (hq.mem h hh) hn.2

theorem Reachable.ready_eq (hr : Reachable c σ) (s : Addr) : (σ.nodes s).ready = readyOf σ.trace s := by
  refine hr.invariant (I := fun σ => ∀ s, (σ.nodes s).ready = readyOf σ.trace s) (fun _ => rfl) ?_ s
  intro σ e rest hr hst ih s
  rw [System.trace_next, readyOf]
  by_cases hs : s = e.server
  · subst hs
    rw [if_pos rfl]
    rcases hst.ready_next with ⟨-, timers, hi, -, hready⟩ | ⟨hp, hq⟩
    · rw [hi, hready, hst.before]
    · cases hi : e.input with
      | poll timers => rw [hi] at hp; cases hp
      | timer h =>
        rw [hi] at hq
        show _ = (readyOf σ.trace e.server).tail
        rw [← ih e.server, show (σ.nodes e.server).ready = h :: _ from hq, List.tail_cons]
      | _ =>
        rw [hi] at hq
        exact (show _ = (σ.nodes e.server).ready from hq).trans (ih e.server)
  · rw [if_neg (Ne.symm hs), System.nodes_next, if_neg hs]
    exact ih s

/-! ## Cancelled handlers -/

/-- A cancelled handler that is still in the ready queue of a server would do
nothing: no election, no RPC, no exception. -/
def CancelledIdle (σ : System SM) (s : Addr) : Prop :=
  ∀ h ∈ (σ.nodes s).ready, Reset σ.trace s h.timer → (σ.raft s).handle (.timer h) = .ok (σ.raft s)

/-- No handler sets the expiry of a timer while a handler of that timer is in
the ready queue, unless it leaves the timer at `min_date_time` and the queued
handler is one of those that return there. -/
def QuietlySet (past : List Event) (e : Event) : Prop :=
  ∀ h ∈ readyOf (e :: past) e.server, e.sets h.timer = true →
    h.returns = true ∧ (e.after.timerOf h.timer).minDateTime = true

instance (past : List Event) (e : Event) : Decidable (QuietlySet past e) :=
  inferInstanceAs (Decidable (∀ h ∈ readyOf (e :: past) e.server, e.sets h.timer = true →
    h.returns = true ∧ (e.after.timerOf h.timer).minDateTime = true))

theorem Reachable.cancelledIdle_iff (hr : Reachable c σ) (s : Addr) :
    CancelledIdle σ s ↔ ∀ h ∈ (σ.nodes s).ready, Reset σ.trace s h.timer →
      h.returns = true ∧ ((σ.raft s).timerOf h.timer).minDateTime = true := by
  have hn : (σ.raft s).configuration.Nodup := by rw [(hr.wired.known s).configuration]; exact c.nodup
  unfold CancelledIdle
  refine forall_congr' fun h => forall_congr' fun _ => forall_congr' fun _ => ?_
  exact RaftServer.onExpire_eq_self hn

/-- One step: the handlers cancelled before it are as they were, those it cancels meet the condition. -/
theorem Step.cancelledIdle (hr : Reachable c σ) (hst : Step c σ e rest) (hq : QuietlySet σ.trace e)
    (ih : ∀ s, CancelledIdle σ s) (s : Addr) : CancelledIdle (σ.next e rest) s := by
  rw [(hst.reachable hr).cancelledIdle_iff]
  intro h hh hreset
  by_cases hs : s = e.server
  · subst hs
    rw [System.raft_next_self, RaftServer.taken_timerOf]
    by_cases hset : e.sets h.timer = true
    · rw [(hst.reachable hr).ready_eq] at hh
      exact hq h hh hset
    · rcases hst.ready_next with ⟨hp, -⟩ | ⟨hp, hqueue⟩
      · exact absurd hreset (reset_poll hp)
      · rw [System.trace_next, reset_cons hp] at hreset
        rw [Event.sets_iff hp, not_not] at hset
        rw [hset, hst.before]
        exact (hr.cancelledIdle_iff e.server).mp (ih e.server) h (hqueue.mem h hh) (hreset.resolve_left (by
          rw [Event.sets_iff hp, hset]
          exact fun hne => hne rfl))
  · rw [System.nodes_next, if_neg hs] at hh
    rw [System.trace_next, reset_other hs] at hreset
    rw [System.raft_next_ne hs]
    exact (hr.cancelledIdle_iff s).mp (ih s) h hh hreset

/-- **Cancelled handlers do nothing throughout a run exactly when each of its
steps sets timers quietly.** -/
theorem cancelled_handlers_idle_iff (hr : Reachable c σ) :
    (∀ σ₀ : System SM, Reachable c σ₀ → σ₀.trace <:+ σ.trace → ∀ s, CancelledIdle σ₀ s) ↔
    Along QuietlySet σ.trace := by
  constructor
  · intro hall
    refine along_of_forall fun e past hs h hh hset => ?_
    obtain ⟨σ₀, rest, hr₀, rfl, hst⟩ := hr.at hs
    have hr₁ := hst.reachable hr₀
    rw [show readyOf (e :: σ₀.trace) e.server = _ from (hr₁.ready_eq e.server).symm] at hh
    have hp : e.input.isPoll = false := by
      by_contra hp
      simp [Event.sets, hp] at hset
    have hidle :=
      (hr₁.cancelledIdle_iff e.server).mp (hall _ hr₁ hs e.server) h hh ((reset_cons hp).mpr (.inl hset))
    rwa [System.raft_next_self, RaftServer.taken_timerOf] at hidle
  · intro ha σ₀ hr₀ hs
    exact hr₀.invariantAlong (I := fun σ => ∀ s, CancelledIdle σ s) (ha.suffix hs) (fun _ => nofun)
      fun hr _ hst hq ih => hst.cancelledIdle hr hq ih

end Runs

/-- An AE handler of A is in the ready queue when the RV of B arrives and A steps down. -/
theorem cancelledAe_idle : ∃ σ : System Unit, Reachable threeServers σ ∧ (σ.nodes serverA).ready = [.AE serverC] ∧
    Reset σ.trace serverA (.retry serverC) ∧ ∀ s, CancelledIdle σ s := by
  obtain ⟨σ, hr, hready, hreset, ha⟩ := @System.exists_reachable Unit _ threeServers
    (electA ++ [.poll serverA [.retry serverC]] ++ campaign serverB ++ [.deliver 3])
    (fun σ => (σ.nodes serverA).ready = [.AE serverC] ∧ Reset σ.trace serverA (.retry serverC) ∧
      Along QuietlySet σ.trace) _
    (by decide +kernel)
  exact ⟨σ, hr, hready, hreset, (cancelled_handlers_idle_iff hr).mpr ha σ hr (List.suffix_refl _)⟩

/-- The election handler of A is in the ready queue when the RV of B arrives. -/
def cancelledRun : List Action := [.poll serverA [.candidate]] ++ campaign serverB ++ [.deliver 0]

/-- A follows B and sets its timer anew; the handler it cancelled starts an election. -/
theorem cancelledRun_campaigns :
    ¬ ∀ σ : System Unit, Reachable threeServers σ → ∀ s, CancelledIdle σ s := by
  intro hall
  obtain ⟨σ, hr, hready, hreset, hterm⟩ := @System.exists_reachable Unit _ threeServers cancelledRun
    (fun σ => (σ.nodes serverA).ready = [.run] ∧ Reset σ.trace serverA .candidate ∧
      ((σ.raft serverA).handle (.timer .run)).toOption.map (·.term) = some ((σ.raft serverA).term + 1)) _
    (by decide +kernel)
  rw [hall σ hr serverA .run (by simp [hready]) hreset] at hterm
  have heq : (σ.raft serverA).term = (σ.raft serverA).term + 1 := Option.some.inj hterm
  omega

/-! ## Handlers that should be pending -/

/-- A handler is pending on its timer, or in the ready queue and was not cancelled there. -/
def Live {SM : Type} (σ : System SM) (s : Addr) (h : TimerHandler) : Prop :=
  (((σ.raft s).timerOf h.timer).minDateTime = false ∧ h ∈ ((σ.raft s).timerOf h.timer).waits) ∨
  (h ∈ (σ.nodes s).ready ∧ ¬ Reset σ.trace s h.timer)

/-- What a server waits for in each of its roles. -/
structure Armed {SM : Type} (c : Cluster) (σ : System SM) (s : Addr) : Prop where
  election : (σ.raft s).state ≠ .primary → ∃ h : TimerHandler, h.Campaigns ∧ Live σ s h
  votes : (σ.raft s).state = .candidate → ∀ a ∈ c.configuration, a ≠ s →
    ¬ Granted σ.trace a s (σ.raft s).term → Live σ s (.RV a)
  heartbeats : (σ.raft s).state = .primary → ∀ a ∈ c.configuration, a ≠ s → Live σ s (.AE a)

/-- `RV` tells the servers of a configuration apart by their port. -/
def Cluster.DistinctPorts (c : Cluster) : Prop := (c.configuration.map Addr.port).Nodup

/-- The handler of an RV finds no other wait on its timer, so that its `RV` registers a new one. -/
def RetriesAlone (_past : List Event) (e : Event) : Prop :=
  ∀ a, e.input = .timer (.RV a) → (e.before.retryTimers.get a).waits = []

instance (past : List Event) (e : Event) : Decidable (RetriesAlone past e) :=
  match h : e.input with
  | .timer (.RV a) => decidable_of_iff ((e.before.retryTimers.get a).waits = []) (by simp [RetriesAlone, h])
  | .timer .run | .timer .trans2F | .timer .trans2C | .timer
    (.AE _) | .message _ | .clientApply _ _ | .clientQuery _ _
  | .poll _ | .work _ _ | .read _ _ | .callback _ => .isTrue (by simp [RetriesAlone, h])

section Runs

variable {SM : Type} [StateMachine SM] {c : Cluster} {σ : System SM} {e : Event} {rest : List Packet} {s : Addr}
  {h : TimerHandler}

omit [StateMachine SM] in
/-- A pending handler on a timer a handler has just armed. -/
theorem Live.of_armed (ht : (σ.raft s).timerOf h.timer = ⟨false, [h]⟩) : Live σ s h := by
  left
  rw [ht]
  simp

/-- A step of another server. -/
theorem Live.other (hl : Live σ s h) (hs : s ≠ e.server) : Live (σ.next e rest) s h := by
  unfold Live
  rw [System.raft_next_ne hs, System.nodes_next, if_neg hs, System.trace_next, reset_other hs]
  exact hl

/-- A poll takes a pending handler to the ready queue, or leaves it where it is. -/
theorem Step.live_poll (hst : Step c σ e rest) {timers : List TimerId} (hi : e.input = .poll timers)
    (hl : Live σ e.server h) : Live (σ.next e rest) e.server h := by
  rcases hst.ready with ⟨timers', hi', hnil, hready⟩ | ⟨hp, -⟩
  swap
  · exact absurd hi (hp _)
  rcases hl with ⟨hmin, hw⟩ | ⟨hr, -⟩
  swap
  · rw [hnil] at hr
    cases hr
  have hy : e.after = ((σ.raft e.server).poll timers').2 := by
    have hh := hst.handled
    rw [hi'] at hh
    exact (Except.ok.inj hh).symm
  unfold Live
  rw [System.raft_next_self, RaftServer.taken_timerOf, System.nodes_next, if_pos rfl, hready, hy]
  rcases RaftServer.poll_timerOf timers' (σ.raft e.server) h.timer with ⟨hm, -⟩ | ⟨-, he⟩
  · exact .inr ⟨(RaftServer.mem_poll _ _).mpr ⟨_, hm, hw⟩, reset_poll (by rw [hi]; rfl)⟩
  · rw [he]
    exact .inl ⟨hmin, hw⟩

/-- A handler stays pending while its timer is not set: when it runs, it arms the timer itself. -/
theorem Step.live_keep (hr : Reachable c σ) (hst : Step c σ e rest) (hp : e.input.isPoll = false)
    (hl : Live σ e.server h) (hsame : e.after.timerOf h.timer = e.before.timerOf h.timer) :
    Live (σ.next e rest) e.server h := by
  rcases hl with ⟨hmin, hw⟩ | ⟨hready, hreset⟩
  · left
    rw [System.raft_next_self, RaftServer.taken_timerOf, hsame, hst.before]
    exact ⟨hmin, hw⟩
  · have hrec := (hr.batch e.server).fresh h hready hreset
    right
    rw [System.trace_next, reset_cons hp, Event.sets_iff hp, not_or, not_not]
    refine ⟨?_, hsame, hreset⟩
    rcases hst.ready_next with ⟨hp', -⟩ | ⟨-, hq⟩
    · rw [hp] at hp'
      cases hp'
    by_cases hi : e.input = .timer h
    · -- it was the handler that ran
      have hn : (σ.raft e.server).configuration.Nodup := by
        rw [(hr.wired.known e.server).configuration]
        exact c.nodup
      have hy := hst.handled
      rw [hi] at hy
      obtain ⟨k, -, harmed⟩ := RaftServer.onExpire_armed hn hrec hy
      rw [harmed, hst.before, hrec] at hsame
      cases hsame
    · cases hinput : e.input with
      | timer k =>
        rw [hinput] at hq
        rw [show (σ.nodes e.server).ready = k :: _ from hq] at hready
        refine (List.mem_cons.mp hready).resolve_left fun hk => hi ?_
        rw [hinput, hk]
      | _ =>
        rw [hinput] at hq
        rw [show _ = (σ.nodes e.server).ready from hq]
        exact hready

theorem mem_others (hr : Reachable c σ) (hports : c.DistinctPorts) {a : Addr} (hs : s ∈ c.configuration)
    (ha : a ∈ c.configuration) (hne : a ≠ s) : a ∈ (σ.raft s).others := by
  have hk := hr.wired.known s
  refine List.mem_filter.mpr ⟨by rw [hk.configuration]; exact ha, ?_⟩
  rw [decide_eq_true_eq, hk.server]
  exact fun he => hne (List.inj_on_of_nodup_map hports ha hs he)

omit [StateMachine SM] in
/-- A retry timer that had no waits when a call armed it. -/
theorem Live.of_rearmed {xs : List Addr} {kind : Addr → TimerHandler} {m : StdMap Addr Timer} {a : Addr}
    (hre : Rearmed xs kind m (σ.raft s).retryTimers) (ha : a ∈ xs) (hm : (m.get a).waits = [])
    (hkind : (kind a).timer = .retry a) : Live σ s (kind a) := by
  refine Live.of_armed ?_
  rw [hkind]
  show (σ.raft s).retryTimers.get a = _
  rw [hre.armed a ha, rearmed, if_pos hm]

/-- A step that keeps the role and the term, and sets no timer but that of `a`. -/
theorem Armed.keep (hr : Reachable c σ) (hst : Step c σ e rest) (hp : e.input.isPoll = false)
    (ih : Armed c σ e.server) (hstate : e.after.state = e.before.state)
    (hterm : e.before.state = .candidate → e.after.term = e.before.term)
    (hcand : e.after.candidateTimer = e.before.candidateTimer) {a : Addr}
    (hothers : ∀ b, b ≠ a → e.after.retryTimers.get b = e.before.retryTimers.get b)
    (hvotes : e.before.state = .candidate → ¬ Granted (e :: σ.trace) a e.server e.before.term →
      a ∈ c.configuration → a ≠ e.server → Live (σ.next e rest) e.server (.RV a))
    (hbeats : e.before.state = .primary → a ∈ c.configuration → a ≠ e.server →
      Live (σ.next e rest) e.server (.AE a)) : Armed c (σ.next e rest) e.server := by
  have hx := hst.before
  refine ⟨fun hs => ?_, fun hs b hb hne hng => ?_, fun hs b hb hne => ?_⟩
  · rw [System.raft_next_self, RaftServer.taken_state, hstate, hx] at hs
    obtain ⟨h, hc, hl⟩ := ih.election hs
    refine ⟨h, hc, hst.live_keep hr hp hl ?_⟩
    rw [hc.timer_eq]
    exact hcand
  · rw [System.raft_next_self, RaftServer.taken_state, hstate] at hs
    rw [System.raft_next_self, RaftServer.taken_term, hterm hs] at hng
    by_cases hba : b = a
    · subst hba
      exact hvotes hs hng hb hne
    · refine hst.live_keep hr hp (ih.votes (by rw [← hx]; exact hs) b hb hne fun hg => hng ?_) (hothers b hba)
      rw [hx]
      exact hg.mono (List.suffix_cons e _)
  · rw [System.raft_next_self, RaftServer.taken_state, hstate] at hs
    by_cases hba : b = a
    · subst hba
      exact hbeats hs hb hne
    · exact hst.live_keep hr hp (ih.heartbeats (by rw [← hx]; exact hs) b hb hne) (hothers b hba)

/-- A poll changes neither role nor term. -/
theorem Armed.poll (ih : Armed c σ e.server) (hst : Step c σ e rest) {timers : List TimerId}
    (hi : e.input = .poll timers) : Armed c (σ.next e rest) e.server := by
  have hraft : (σ.next e rest).raft e.server = e.after.taken := System.raft_next_self
  have hy : e.after = ((σ.raft e.server).poll timers).2 := by
    have hh := hst.handled
    rw [hi] at hh
    exact (Except.ok.inj hh).symm
  obtain ⟨_, _, he⟩ := RaftServer.poll_frame timers (σ.raft e.server)
  have hstate : e.after.state = (σ.raft e.server).state := by rw [hy, he]
  have hterm : e.after.term = (σ.raft e.server).term := by rw [hy, he]
  refine ⟨fun hs => ?_, fun hs a ha hne hng => ?_, fun hs a ha hne => ?_⟩
  · rw [hraft, RaftServer.taken_state, hstate] at hs
    obtain ⟨h, hc, hl⟩ := ih.election hs
    exact ⟨h, hc, hst.live_poll hi hl⟩
  · rw [hraft, RaftServer.taken_state, hstate] at hs
    rw [hraft, RaftServer.taken_term, hterm] at hng
    exact hst.live_poll hi (ih.votes hs a ha hne fun hg => hng (hg.mono (List.suffix_cons e _)))
  · rw [hraft, RaftServer.taken_state, hstate] at hs
    exact hst.live_poll hi (ih.heartbeats hs a ha hne)

omit [StateMachine SM] in
theorem Step.ready_timer (hst : Step c σ e rest) (hi : e.input = .timer h) : h ∈ (σ.nodes e.server).ready := by
  have ho := hst.offers
  rw [hi] at ho
  cases ho with
  | timer hready =>
    rw [hready]
    exact List.mem_cons_self

/-- The timer of a primary has no RV in the ready queue beside its AE. -/
theorem Armed.not_rv (ih : Armed c σ e.server) (hr : Reachable c σ) (hst : Step c σ e rest) {a : Addr}
    (hi : e.input = .timer (.RV a)) (hwaits : (e.before.retryTimers.get a).waits = []) (ha : a ∈ c.configuration)
    (hne : a ≠ e.server) : e.before.state ≠ .primary := fun hs => by
  have hx := hst.before
  rcases ih.heartbeats (by rw [← hx]; exact hs) a ha hne with ⟨-, hw⟩ | ⟨hready, -⟩
  · rw [← hx, show (e.before.timerOf (TimerHandler.AE a).timer).waits = [] from hwaits] at hw
    cases hw
  · cases (hr.batch e.server).one _ (hst.ready_timer hi) _ hready rfl

/-- Only a primary finds the timer of an AE set, and it is the only wait. -/
theorem Step.ae_alone (hr : Reachable c σ) (hst : Step c σ e rest) {a : Addr} (hi : e.input = .timer (.AE a))
    (hmin : (e.before.retryTimers.get a).minDateTime = false) :
    e.before.state = .primary ∧ (e.before.retryTimers.get a).waits = [] := by
  have hx := hst.before
  constructor
  · by_contra hn
    have hexp := (hr.timers e.server).expired a (hst.ready_timer hi) (by rw [← hx]; exact hn)
    rw [← hx, hmin] at hexp
    cases hexp
  · have hy := hst.handled
    rw [← hx, hi, RaftServer.handle, RaftServer.onExpire, hmin] at hy
    obtain ⟨_, _, -, -, hw, -⟩ := RaftServer.AE_ok hy
    exact hw

theorem Step.armed (hr : Reachable c σ) (hports : c.DistinctPorts) (hst : Step c σ e rest)
    (hq : RetriesAlone σ.trace e) (ih : Armed c σ e.server) : Armed c (σ.next e rest) e.server := by
  have hx := hst.before
  have hraft : (σ.next e rest).raft e.server = e.after.taken := System.raft_next_self
  have hothers : ∀ {a}, a ∈ c.configuration → a ≠ e.server → a ∈ e.before.others := fun {a} ha hne => by
    rw [hx]
    exact mem_others hr hports hst.member ha hne
  have hempty := fun a => (RaftServer.get_expiresAtMin e.before.retryTimers a).1
  by_cases hpoll : ∃ timers, e.input = .poll timers
  · obtain ⟨timers, hi⟩ := hpoll
    exact ih.poll hst hi
  have hp : e.input.isPoll = false := Input.isPoll_eq_false.mpr fun timers hi => hpoll ⟨timers, hi⟩
  cases (hst.outcome hr).timers with
  | polled hi =>
    rw [hi] at hp
    cases hp
  | same hterm hstate hcand hretry =>
    -- no timer is set, so any server will do for the one that may be
    refine ih.keep hr hst hp hstate (fun _ => hterm) hcand (a := e.server) (fun b _ => by rw [hretry]) ?_ ?_
    · exact fun _ _ _ hne => absurd rfl hne
    · exact fun _ _ hne => absurd rfl hne
  | followed hstate hcand hretry =>
    refine ⟨fun _ => ⟨.trans2F, .inr (.inl rfl), Live.of_armed ?_⟩, fun hs => ?_, fun hs => ?_⟩
    · rw [hraft]
      exact hcand
    · rw [hraft, RaftServer.taken_state, hstate] at hs
      cases hs
    · rw [hraft, RaftServer.taken_state, hstate] at hs
      cases hs
  | @counted p resp hi hpk hresp hok hstx hstate hterm hcand hretry =>
    refine ih.keep hr hst hp (hstate.trans hstx.symm) (fun _ => hterm) hcand (a := resp.server)
      (fun b hb => ?_) ?_ ?_
    · rw [hretry, StdMap.get_set_ne _ _ hb]
    · -- the vote that was counted is a grant
      intro _ hng
      obtain ⟨hsent, hdst, -⟩ := hst.delivered hr hi
      have hg : Grant p e.server resp := ⟨hpk, hok, hdst⟩
      exact absurd ⟨p, resp, Sent.mono hsent (List.suffix_cons e _), (hr.voter hsent hg).server.symm, hg,
        hresp⟩ hng
    · rw [hstx]
      nofun
  | won hstate hcand hretry =>
    have hst' : ((σ.next e rest).raft e.server).state = .primary := by
      rw [hraft, RaftServer.taken_state, hstate]
    refine ⟨fun hs => absurd hst' hs, fun hs => ?_, fun _ a ha hne => ?_⟩
    · rw [hst'] at hs
      cases hs
    · exact Live.of_rearmed (by rw [hraft]; exact hretry) (hothers ha hne) (hempty a) rfl
  | @replied a timer hstx hstate hcand hwaits hretry =>
    have hnc : e.before.state ≠ .candidate := by
      rw [hstx]
      nofun
    refine ih.keep hr hst hp (hstate.trans hstx.symm) (fun h => absurd h hnc) hcand (a := a) (fun b hb => ?_)
      (fun h => absurd h hnc) ?_
    · rcases hretry with hretry | hretry
      · rw [hretry]
      · rw [hretry.others b (by simpa using hb), StdMap.get_set_ne _ _ hb]
    · intro _ ha hne
      rcases hretry with hretry | hretry
      · refine hst.live_keep hr hp (ih.heartbeats (by rw [← hx]; exact hstx) a ha hne) ?_
        show e.after.retryTimers.get a = e.before.retryTimers.get a
        rw [hretry]
      · exact Live.of_rearmed (by rw [hraft]; exact hretry) (by simp) (by rw [StdMap.get_set_self, hwaits]) rfl
  | campaigned hi hh hstate hcand hretry =>
    have hst' : ((σ.next e rest).raft e.server).state = .candidate := by
      rw [hraft, RaftServer.taken_state, hstate]
    refine ⟨fun _ => ⟨.trans2C, .inr (.inr rfl), Live.of_armed ?_⟩, fun _ a ha hne _ => ?_, fun hs => ?_⟩
    · rw [hraft]
      exact hcand
    · exact Live.of_rearmed (by rw [hraft]; exact hretry) (hothers ha hne) (hempty a) rfl
    · rw [hst'] at hs
      cases hs
  | @rvRetried a hi hmin hterm hstate hcand hretry =>
    have hwaits := hq a hi
    refine ih.keep hr hst hp hstate (fun _ => hterm) hcand (a := a)
      (fun b hb => hretry.others b (by simpa using hb)) ?_ ?_
    · intro _ _ _ _
      exact Live.of_rearmed (by rw [hraft]; exact hretry) (by simp) hwaits rfl
    · exact fun hs ha hne => absurd hs (ih.not_rv hr hst hi hwaits ha hne)
  | @aeRetried a hi hmin hstate hcand hretry =>
    obtain ⟨hstx, hwaits⟩ := hst.ae_alone hr hi hmin
    have hnc : e.before.state ≠ .candidate := by
      rw [hstx]
      nofun
    refine ih.keep hr hst hp hstate (fun h => absurd h hnc) hcand (a := a)
      (fun b hb => hretry.others b (by simpa using hb)) (fun h => absurd h hnc) ?_
    intro _ _ _
    exact Live.of_rearmed (by rw [hraft]; exact hretry) (by simp) hwaits rfl

theorem Armed.other (ih : Armed c σ s) (hs : s ≠ e.server) : Armed c (σ.next e rest) s := by
  have hraft : (σ.next e rest).raft s = σ.raft s := System.raft_next_ne hs
  refine ⟨fun h => ?_, fun h a ha hne hng => ?_, fun h a ha hne => ?_⟩
  · rw [hraft] at h
    obtain ⟨k, hc, hl⟩ := ih.election h
    exact ⟨k, hc, hl.other hs⟩
  · rw [hraft] at h hng
    exact (ih.votes h a ha hne fun hg => hng (hg.mono (List.suffix_cons e _))).other hs
  · rw [hraft] at h
    exact (ih.heartbeats h a ha hne).other hs

/-- **Elections, votes and heartbeats stay armed** in the runs of a cluster
with distinct ports where no handler of an RV cancels another. -/
theorem stays_armed (hports : c.DistinctPorts) (hr : Reachable c σ) (ha : Along RetriesAlone σ.trace) :
    ∀ s, Armed c σ s := by
  refine hr.invariantAlong ha (I := fun σ => ∀ s, Armed c σ s) (fun s => ?_) ?_
  · exact ⟨fun _ => ⟨.run, .inl rfl, Live.of_armed rfl⟩, nofun, nofun⟩
  · intro σ e rest hr _ hst hq ih s
    by_cases hs : s = e.server
    · subst hs
      exact hst.armed hr hports hq (ih _)
    · exact (ih s).other hs

end Runs

/-- A sends its RV to C again and is elected with the vote of B. -/
theorem retriedRv_armed : ∃ σ : System Unit, Reachable threeServers σ ∧ (σ.raft serverA).state = .primary ∧
    ∀ s, Armed threeServers σ s := by
  obtain ⟨σ, hr, hp, ha⟩ := System.exists_reachable threeServers
    (campaign serverA ++ [.poll serverA [.retry serverC], .timer serverA, .deliver 0, .deliver 2])
    (P := fun σ : System Unit => (σ.raft serverA).state = .primary ∧ Along RetriesAlone σ.trace)
    (by decide +kernel)
  exact ⟨σ, hr, hp, stays_armed (by unfold Cluster.DistinctPorts; decide) hr ha⟩

/-- The RV to C is due when A is elected; its handler runs after the AE to C was armed. -/
def disarmedAe : List Action :=
  campaign serverA ++ [.poll serverA [.retry serverC], .deliver 0, .deliver 1, .timer serverA]

/-- A is primary and will never send to C again. -/
theorem disarmedAe_not_armed :
    ¬ ∀ σ : System Unit, Reachable threeServers σ → ∀ s ∈ threeServers.configuration, Armed threeServers σ s := by
  intro hall
  obtain ⟨σ, hr, hp, hready, hwaits⟩ := System.exists_reachable threeServers disarmedAe
    (P := fun σ : System Unit => (σ.raft serverA).state = .primary ∧ (σ.nodes serverA).ready = [] ∧
      ((σ.raft serverA).retryTimers.get serverC).waits = []) (by decide +kernel)
  rcases (hall σ hr serverA (by decide)).heartbeats hp serverC (by decide) (by decide) with ⟨-, hw⟩ | ⟨hr, -⟩
  · rw [show ((σ.raft serverA).timerOf (TimerHandler.AE serverC).timer).waits = [] from hwaits] at hw
    cases hw
  · rw [hready] at hr
    cases hr

end MyRaft
