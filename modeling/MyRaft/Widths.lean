/-
The lsns of `MyRaft.Server` are integers. While no server sends another more
than 2^31 RVs and AEs in a term they are the `int`s of `MyRaft.Lsn`: each server
on the network, which may lose, delay, reorder and duplicate packets, does to
its lsns what its tables do, given only requests that were sent to it.
-/
import MyRaft.Lsn

namespace MyRaft

open History
open RaftServer (Outcome CalledAll SentAes SentRvs Tasks)
open StdLib (StdMap)

/-- The tables are those of a server, modulo 2^32. -/
structure Wraps (t : LsnTables) (x : RaftServer) : Prop where
  known : t.configuration = x.configuration
  term : t.term = x.term
  current : ∀ z, t.currentRpcLsn.get z = Int32.ofInt (x.currentRpcLsn.get z)
  follower : ∀ z, t.followerRpcLsn.get z = Int32.ofInt (x.followerRpcLsn.get z)

/-- An lsn that is compared as an `int` as it is as an integer. -/
def InRange (lsn : Int) : Prop := -2 ^ 31 ≤ lsn ∧ lsn < 2 ^ 31

namespace Wraps

variable {t : LsnTables} {x : RaftServer} {a : Addr} {term lsn : Int}

theorem start (s : Addr) (configuration : List Addr) : Wraps (.start configuration) (.start s configuration) := by
  refine ⟨rfl, rfl, fun z => ?_, fun z => ?_⟩
  · simp only [LsnTables.start, RaftServer.start, StdMap.get_setAll]
    split <;> rfl
  · simp only [LsnTables.start, RaftServer.start, StdMap.get_setAll]
    split <;> rfl

theorem becomeFollower (h : Wraps t x) (hle : x.term ≤ term) :
    ∃ t', t.updateTerm term = .ok t' ∧ Wraps t' (x.becomeFollower term) := by
  have hterm := h.term
  by_cases hlt : x.term < term
  · refine ⟨{ t.resetBothRpcLsn with term := term }, by simp [LsnTables.updateTerm, hterm, hlt], h.known, rfl,
      fun z => ?_,
      fun z => ?_⟩
    · have hcur := h.current z
      simp only [LsnTables.resetBothRpcLsn, RaftServer.becomeFollower, if_pos hlt, StdMap.get_setAll, h.known]
      split
      · rfl
      · exact hcur
    · have hfollower := h.follower z
      simp only [LsnTables.resetBothRpcLsn, RaftServer.becomeFollower, if_pos hlt, StdMap.get_setAll, h.known]
      split
      · rfl
      · exact hfollower
  · obtain rfl : t.term = term := by omega
    refine ⟨t, LsnTables.updateTerm_self t, h.known, rfl, ?_, ?_⟩
    · simpa [RaftServer.becomeFollower, hlt] using h.current
    · simpa [RaftServer.becomeFollower, hlt] using h.follower

theorem heard (h : Wraps t x) (hle : x.term ≤ term) :
    ∃ t', t.updateTerm term = .ok t' ∧ Wraps t' (x.heard term) := by
  unfold RaftServer.heard
  split
  · exact h.becomeFollower hle
  · obtain rfl : t.term = term := by have := h.term; omega
    exact ⟨t, LsnTables.updateTerm_self t, h⟩

/-- A request is dropped on both sides, or its lsn is recorded on both. -/
theorem react (h : Wraps t x) {req : Request} (hle : x.term ≤ req.term) (hlsn : InRange req.lsn)
    (hrecord : InRange ((x.heard req.term).followerRpcLsn.get req.server)) :
    ∃ t', t.react req.server req.term (Int32.ofInt req.lsn) = .ok (x.ignores req, t') ∧
      Wraps t' (if x.ignores req then x.heard req.term else (x.heard req.term).recordLsn req.server req.lsn) := by
  obtain ⟨t₁, ht₁, hw⟩ := h.heard hle
  rw [LsnTables.react_eq (by rw [h.term]; exact hle) ht₁, LsnTables.shouldIgnoreRemoteRpc]
  have hcompare : Int32.ofInt req.lsn ≤ t₁.followerRpcLsn.get req.server ↔ x.ignores req = true := by
    rw [hw.follower, Counter.ofInt_le_ofInt_iff hlsn hrecord, RaftServer.ignores_iff]
  by_cases hignored : x.ignores req = true
  · rw [if_pos (hcompare.mpr hignored), if_pos hignored, hignored]
    exact ⟨t₁, rfl, hw⟩
  · rw [if_neg (mt hcompare.mp hignored), if_neg hignored, show x.ignores req = false by simpa using hignored]
    refine ⟨_, rfl, hw.known, hw.term, hw.current, fun z => ?_⟩
    simp only [RaftServer.recordLsn, StdMap.get_set]
    split
    · rfl
    · exact hw.follower z

theorem congr {y : RaftServer} (h : Wraps t x) (hknown : y.configuration = x.configuration)
    (hterm : y.term = x.term) (hcurrent : y.currentRpcLsn = x.currentRpcLsn)
    (hfollower : y.followerRpcLsn = x.followerRpcLsn) : Wraps t y :=
  ⟨h.known.trans hknown.symm, h.term.trans hterm.symm, hcurrent ▸ h.current, hfollower ▸ h.follower⟩

/-- `trans2F` starts the tables again where the term grows, whoever called it. -/
theorem followed (h : Wraps t (x.heard term)) (hle : x.term ≤ term) : Wraps t (x.becomeFollower term) := by
  unfold RaftServer.heard at h
  split at h
  · exact h
  · obtain rfl : x.term = term := by omega
    exact h.congr rfl rfl (if_neg (Int.lt_irrefl _)) (if_neg (Int.lt_irrefl _))

theorem following (h : Wraps t ((x.heard term).recordLsn a lsn)) (hle : x.term ≤ term) :
    Wraps t ((x.becomeFollower term).recordLsn a lsn) := by
  unfold RaftServer.heard at h
  split at h
  · exact h
  · obtain rfl : x.term = term := by omega
    exact h.congr rfl rfl (if_neg (Int.lt_irrefl _)) (by simp [RaftServer.recordLsn])

/-- `trans2C` starts them again. -/
theorem becomeCandidate (h : Wraps t x) :
    ∃ t', t.updateTerm (x.term + 1) = .ok t' ∧ Wraps t' x.becomeCandidate := by
  obtain ⟨t', ht', hw⟩ := h.becomeFollower (Int.le_of_lt (Int.lt_succ x.term))
  refine ⟨t', ht', hw.congr rfl rfl ?_ ?_⟩
  · exact (if_pos (Int.lt_succ x.term)).symm
  · exact (if_pos (Int.lt_succ x.term)).symm

end Wraps

/-! ## Handlers -/

/-- An RPC among the effects of a handler. -/
def Effect.lsnCall? : Effect → Option LsnCall
  | .rpc dst m => m.request?.map fun req => ⟨dst, req.term, Int32.ofInt req.lsn⟩
  | _ => none

@[simp] theorem Effect.lsnCall?_rpc (dst : Addr) (m : Rpc) :
    (Effect.rpc dst m).lsnCall? = m.request?.map fun req => ⟨dst, req.term, Int32.ofInt req.lsn⟩ := rfl

@[simp] theorem Effect.lsnCall?_apply (index : Int) (msg : String) :
    (Effect.apply index msg).lsnCall? = none := rfl

@[simp] theorem Effect.lsnCall?_query (body : String) (client : Addr) :
    (Effect.query body client).lsnCall? = none := rfl

@[simp] theorem Effect.lsnCall?_committed (index : Int) : (Effect.committed index).lsnCall? = none := rfl

/-- The RPCs a handler has built, the last one first. -/
def RaftServer.lsnCalls (y : RaftServer) : List LsnCall := (y.effects.filterMap Effect.lsnCall?).reverse

/-- What a handler does to the tables: it builds the same RPCs, and takes none but that of its packet. -/
def Mirrors (s : LsnServer) (input : Input) (y : RaftServer) : Prop :=
  ∃ (events : List LsnEvent) (s' : LsnServer), events.foldlM LsnServer.step s = .ok s' ∧ Wraps s'.tables y ∧
    s'.calls = y.lsnCalls ++ s.calls ∧
    ∀ remote term lsn, .receive remote term lsn ∈ events →
      ∃ p req, input = .message p ∧ p.rpc.request? = some req ∧ remote = req.server ∧ term = req.term ∧
        lsn = Int32.ofInt req.lsn

namespace LsnServer

/-- One RPC to each of some servers. -/
theorem foldlM_callEach {xs : List Addr} (hxs : xs.Nodup) (s : LsnServer) :
    ∃ s', (xs.map LsnEvent.call).foldlM step s = .ok s' ∧ s'.tables.configuration = s.tables.configuration ∧
      s'.tables.term = s.tables.term ∧ s'.tables.followerRpcLsn = s.tables.followerRpcLsn ∧
      (∀ z, s'.tables.currentRpcLsn.get z = s.tables.currentRpcLsn.get z + if z ∈ xs then 1 else 0) ∧
      s'.calls = (xs.map fun dst => ⟨dst, s.tables.term, s.tables.currentRpcLsn.get dst⟩).reverse ++ s.calls := by
  induction xs generalizing s with
  | nil => exact ⟨s, rfl, by simp⟩
  | cons a xs ih =>
    obtain ⟨ha, hxs⟩ := List.nodup_cons.mp hxs
    obtain ⟨s', hrun, hknown, hterm, hfollower, hcurrent, hcalls⟩ := ih hxs (s.call a)
    refine ⟨s', hrun, hknown, hterm, hfollower, fun z => ?_, ?_⟩
    · rw [hcurrent z, currentRpcLsn_call]
      by_cases hz : z = a
      · subst hz
        simp [ha]
      · simp [hz]
    · have hsame : ∀ dst ∈ xs, (⟨dst, (s.call a).tables.term, (s.call a).tables.currentRpcLsn.get dst⟩ : LsnCall) =
          ⟨dst, s.tables.term, s.tables.currentRpcLsn.get dst⟩ := fun dst hdst => by
        have hne : dst ≠ a := by
          rintro rfl
          exact ha hdst
        rw [currentRpcLsn_call, if_neg hne]
        rfl
      rw [hcalls, List.map_congr_left hsame, List.map_cons, List.reverse_cons, List.append_assoc]
      rfl

end LsnServer

namespace RaftServer

variable {s : LsnServer} {x y : RaftServer} {input : Input}

theorem mirrors_same (h : Wraps s.tables y) (hnone : y.lsnCalls = []) : Mirrors s input y :=
  ⟨[], s, rfl, h, by simp [hnone], by simp⟩

theorem mirrors_updateTerm {t : LsnTables} {term : Int} (ht : s.tables.updateTerm term = .ok t)
    (h : Mirrors ⟨t, s.calls⟩ input y) : Mirrors s input y := by
  obtain ⟨events, s', hrun, hw, hcalls, hreceived⟩ := h
  refine ⟨.updateTerm term :: events, s', ?_, hw, hcalls, fun remote term lsn hm => hreceived remote term lsn ?_⟩
  · rw [List.foldlM_cons, LsnServer.step, ht]
    exact hrun
  · simpa using hm

/-- A step down to a term. -/
theorem mirrors_becomeFollower {term : Int} (h : Wraps s.tables x) (hle : x.term ≤ term)
    (hnone : x.lsnCalls = []) : Mirrors s input (x.becomeFollower term) := by
  obtain ⟨t, ht, hw⟩ := h.becomeFollower hle
  exact mirrors_updateTerm ht (mirrors_same hw hnone)

theorem CalledAll.mirrors {t : RaftServer} {xs : List Addr} {rpc : Addr → Rpc} {kind : Addr → TimerHandler}
    (h : CalledAll t xs rpc kind y) (hxs : xs.Nodup) (hw : Wraps s.tables t) (hnone : t.lsnCalls = [])
    (hrpc : ∀ a ∈ xs, ∃ server, (rpc a).request? = some ⟨server, t.term, t.currentRpcLsn.get a⟩) : Mirrors s
    input y := by
  obtain ⟨s', hrun, hknown, hterm, hfollower, hcurrent, hcalls⟩ := s.foldlM_callEach hxs
  have hlsn := h.lsn
  obtain ⟨cur, timers, rfl⟩ := h.frame
  refine ⟨xs.map .call, s', hrun, ⟨hknown.trans hw.known, hterm.trans hw.term, fun z => ?_,
    fun z => by rw [hfollower]; exact hw.follower z⟩, ?_, by simp⟩
  · rw [hlsn z, hcurrent z, hw.current z, Int32.ofInt_add]
    split <;> rfl
  · have hbuilt : ∀ a ∈ xs, (Effect.rpc a (rpc a)).lsnCall? = some
        ⟨a, s.tables.term, s.tables.currentRpcLsn.get a⟩ :=
      fun a ha => by
        obtain ⟨server, hreq⟩ := hrpc a ha
        simp [hreq, hw.term, hw.current a]
    have hlist : xs.filterMap (fun a => (Effect.rpc a (rpc a)).lsnCall?) =
        xs.map fun a => ⟨a, s.tables.term, s.tables.currentRpcLsn.get a⟩ := by
      rw [← List.filterMap_eq_map]
      exact List.filterMap_congr hbuilt
    unfold lsnCalls at hnone ⊢
    rw [hcalls, List.filterMap_append, List.reverse_append, hnone, List.append_nil, List.filterMap_map]
    exact congrArg (fun calls => calls.reverse ++ s.calls) hlist.symm

theorem SentAes.mirrors {t : RaftServer} {xs : List Addr} (h : SentAes t xs y) (hxs : xs.Nodup)
    (hw : Wraps s.tables t) (hnone : t.lsnCalls = []) : Mirrors s input y := by
  obtain ⟨ae, hae, hc⟩ := h
  refine hc.mirrors hxs hw hnone fun a ha => ⟨(ae a).server, ?_⟩
  obtain ⟨hlsn, n, hb⟩ := hae a ha
  simp [Rpc.request?, hb.term, hlsn]

theorem SentRvs.mirrors {t : RaftServer} {xs : List Addr} (h : SentRvs t xs y) (hxs : xs.Nodup)
    (hw : Wraps s.tables t) (hnone : t.lsnCalls = []) : Mirrors s input y :=
  CalledAll.mirrors h hxs hw hnone fun a _ => ⟨(t.rvTo a).server, rfl⟩

/-- A request of a term that is not over. -/
theorem mirrors_received {p : Packet} {req : Request} (h : Wraps s.tables x) (hreq : p.rpc.request? = some req)
    (hle : x.term ≤ req.term)
    (hrange : InRange req.lsn ∧ InRange ((x.heard req.term).followerRpcLsn.get req.server))
    (hnone : y.lsnCalls = []) (hsame : ∀ t, Wraps t
    (if x.ignores req then x.heard req.term else (x.heard req.term).recordLsn req.server req.lsn) →
      Wraps t y) : Mirrors s (.message p) y := by
  obtain ⟨t, ht, hw⟩ := h.react hle hrange.1 hrange.2
  refine ⟨[.receive req.server req.term (Int32.ofInt req.lsn)], ⟨t, s.calls⟩, ?_, hsame t hw, by simp [hnone],
    fun remote term lsn hm => ?_⟩
  · rw [List.foldlM_cons, LsnServer.step, ht]
    rfl
  · obtain ⟨rfl, rfl, rfl⟩ := LsnEvent.receive.inj (List.mem_singleton.mp hm)
    exact ⟨p, req, rfl, hreq, rfl, rfl, rfl⟩

theorem mirrors_dropped {p : Packet} {req : Request} (h : Wraps s.tables x) (hreq : p.rpc.request? = some req)
    (hle : x.term ≤ req.term) (hlsn : req.lsn ≤ (x.heard req.term).followerRpcLsn.get req.server)
    (hrange : InRange req.lsn ∧ InRange ((x.heard req.term).followerRpcLsn.get req.server))
    (hnone : y.lsnCalls = []) (hsame : ∀ t, Wraps t (x.heard req.term) → Wraps t y) : Mirrors s (.message p) y :=
  mirrors_received h hreq hle hrange hnone fun t ht => hsame t (by rwa [if_pos (ignores_iff.mpr hlsn)] at ht)

theorem mirrors_recorded {p : Packet} {req : Request} (h : Wraps s.tables x) (hreq : p.rpc.request? = some req)
    (hle : x.term ≤ req.term) (hlsn : (x.heard req.term).followerRpcLsn.get req.server < req.lsn)
    (hrange : InRange req.lsn ∧ InRange ((x.heard req.term).followerRpcLsn.get req.server))
    (hnone : y.lsnCalls = []) (hsame : ∀ t, Wraps t ((x.heard req.term).recordLsn req.server req.lsn) →
    Wraps t y) : Mirrors s (.message p) y :=
  mirrors_received h hreq hle hrange hnone fun t ht =>
    hsame t (by rwa [if_neg (mt ignores_iff.mp (Int.not_le.mpr hlsn))] at ht)

theorem Tasks.lsnCall?_eq {last : Int} {tasks : List Effect} (h : Tasks x last tasks) :
    ∀ f ∈ tasks, f.lsnCall? = none := by
  intro f hf
  obtain ⟨_, _, rfl, -⟩ := h f hf
  rfl

/-- **A handler treats the lsns as their tables do**, while they are in range. -/
theorem Outcome.mirrors (hx : x.effects = []) (hnodup : x.configuration.Nodup) (h : Outcome x input y)
    (hw : Wraps s.tables x) (hrange : ∀ p req, input = .message p → p.rpc.request? = some req →
      InRange req.lsn ∧ InRange ((x.heard req.term).followerRpcLsn.get req.server)) : Mirrors s input y := by
  have hothers : x.others.Nodup := hnodup.filter _
  have hnone : x.lsnCalls = [] := by simp [RaftServer.lsnCalls, hx]
  cases h with
  | idle | polled | appended => exact mirrors_same (hw.congr rfl rfl rfl rfl) hnone
  | query | told | answered | rvStale | aeStale =>
    exact mirrors_same (hw.congr rfl rfl rfl rfl) (by simp [RaftServer.lsnCalls, Rpc.request?, hx])
  | counted => exact mirrors_same (hw.congr rfl rfl rfl rfl) hnone
  | steppedDown hlt => exact mirrors_becomeFollower hw (Int.le_of_lt hlt) hnone
  | @rvIgnored p rv hp hle hlsn =>
    have hreq : p.rpc.request? = some ⟨rv.server, rv.term, rv.lsn⟩ := by rw [hp]; rfl
    exact mirrors_dropped hw hreq hle hlsn (hrange p _ rfl hreq) (by simp [RaftServer.lsnCalls, hx]) fun _ ht => ht
  | @rvDenied p rv hp hle hlsn | @rvGranted p rv hp hle hlsn =>
    have hreq : p.rpc.request? = some ⟨rv.server, rv.term, rv.lsn⟩ := by rw [hp]; rfl
    exact mirrors_recorded hw hreq hle hlsn (hrange p _ rfl hreq) (by simp [RaftServer.lsnCalls, Rpc.request?, hx])
      fun _ ht => ht.congr rfl rfl rfl rfl
  | @aeIgnored p ae hp hle hnp hlsn =>
    have hreq : p.rpc.request? = some ⟨ae.server, ae.term, ae.lsn⟩ := by rw [hp]; rfl
    rw [becomeFollower_heard hle] at hlsn
    exact mirrors_dropped hw hreq hle hlsn (hrange p _ rfl hreq) (by simp [RaftServer.lsnCalls, hx])
      fun _ ht => ht.followed hle
  | @aeRejected p ae hp hle hnp hlsn =>
    have hreq : p.rpc.request? = some ⟨ae.server, ae.term, ae.lsn⟩ := by rw [hp]; rfl
    rw [becomeFollower_heard hle] at hlsn
    exact mirrors_recorded hw hreq hle hlsn (hrange p _ rfl hreq) (by simp [RaftServer.lsnCalls, Rpc.request?, hx])
      fun _ ht => (ht.following hle).congr rfl rfl rfl rfl
  | @aeAccepted p ae _ _ _ _ hp hle _ hlsn _ hy _ _ htasks =>
    subst hy
    have hreq : p.rpc.request? = some ⟨ae.server, ae.term, ae.lsn⟩ := by rw [hp]; rfl
    rw [becomeFollower_heard hle] at hlsn
    exact mirrors_recorded hw hreq hle hlsn (hrange p _ rfl hreq)
      (by simpa [RaftServer.lsnCalls, Rpc.request?, hx] using htasks.lsnCall?_eq)
      fun _ ht => (ht.following hle).congr rfl rfl rfl rfl
  | won hp hterm hstate hlsn hok hm hy =>
    exact hy.mirrors hothers (hw.congr rfl rfl rfl rfl) hnone
  | acked hp hterm hstate hlsn hok ht hwaits hxs =>
    obtain ⟨nextIndex, tasks, -, htasks, rfl⟩ := ht.frame
    rcases hxs with ⟨-, -, rfl⟩ | ⟨rfl, hy⟩
    · exact mirrors_same (hw.congr rfl rfl rfl rfl) (by simpa [RaftServer.lsnCalls, hx] using htasks.lsnCall?_eq)
    · exact hy.mirrors (List.nodup_singleton _) (hw.congr rfl rfl rfl rfl)
        (by simpa [RaftServer.lsnCalls, hx] using htasks.lsnCall?_eq)
  | campaigned hh hy =>
    obtain ⟨t, ht, hw⟩ := hw.becomeCandidate
    exact mirrors_updateTerm ht (SentRvs.mirrors hy hothers hw hnone)
  | rvRetried hmin hy => exact SentRvs.mirrors hy (List.nodup_singleton _) hw hnone
  | aeRetried hmin hy => exact hy.mirrors (List.nodup_singleton _) hw hnone
  | nacked hp hterm hstate hlsn hok hnext hwaits hy =>
    exact hy.mirrors (List.nodup_singleton _) (hw.congr rfl rfl rfl rfl) hnone

end RaftServer

/-! ## Runs -/

section Runs

variable {SM : Type} [StateMachine SM] {c : Cluster} {σ : System SM} {e : Event} {rest : List Packet} {p : Packet}
  {req : Request}

/-- The RPCs of a server, the last one first. -/
def lsnCallsOf (trace : List Event) (s : Addr) : List LsnCall :=
  (trace.filter fun e => e.server = s).flatMap fun e => e.after.lsnCalls

theorem lsnCallsOf_cons (e : Event) (past : List Event) (s : Addr) :
    lsnCallsOf (e :: past) s = if e.server = s then e.after.lsnCalls ++ lsnCallsOf past s else lsnCallsOf past
    s := by
  unfold lsnCallsOf
  split <;> simp [*]

theorem lsnCallsOf_mono {past : List Event} {s : Addr} {call : LsnCall} (h : call ∈ lsnCallsOf past s)
    (e : Event) :
    call ∈ lsnCallsOf (e :: past) s := by
  rw [lsnCallsOf_cons]
  split
  · exact List.mem_append_right _ h
  · exact h

/-- A request that was sent is among its server's RPCs. -/
theorem mem_lsnCallsOf {trace : List Event} (he : e ∈ trace) (hp : p ∈ e.packets)
    (hreq : p.rpc.request? = some req) :
    ⟨p.dst, req.term, Int32.ofInt req.lsn⟩ ∈ lsnCallsOf trace e.server := by
  refine List.mem_flatMap.mpr ⟨e, by simp [he], ?_⟩
  have hcall : (Effect.rpc p.dst p.rpc).lsnCall? = some ⟨p.dst, req.term, Int32.ofInt req.lsn⟩ := by simp [hreq]
  exact List.mem_reverse.mpr (List.mem_filterMap.mpr ⟨_, (Event.mem_packets.mp hp).1, hcall⟩)

/-- A record is `-1` or that of a request. -/
theorem Duplicating.heard_ge (hr : Duplicating c σ) {z : Addr} (hz : z ∈ c.configuration) :
    ∀ s, -1 ≤ (σ.raft s).followerRpcLsn.get z := by
  induction hr with
  | start =>
    intro s
    change -1 ≤ (StdMap.empty.setAll c.configuration (-1)).get z
    rw [StdMap.get_setAll, if_pos hz]
  | copy _ _ ih => exact ih
  | @step σ e rest hr hst ih =>
    intro s
    by_cases hs : s = e.server
    · subst hs
      have hconf : e.before.configuration = c.configuration := (hr.wired.known_before hst).configuration
      have hih := ih e.server
      rw [← hst.before] at hih
      rw [System.raft_next_self, RaftServer.taken_followerRpcLsn]
      rcases (hr.wired.outcome hst).heard (hconf ▸ hz) with hheard | ⟨p, req, hi, hreq, rfl, -, hheard⟩
      · rw [hheard]
        split <;> omega
      · obtain ⟨-, -, hnonneg, -⟩ := hr.delivered hst hi hreq
        omega
    · rw [System.raft_next_ne hs]
      exact ih s

theorem Duplicating.member (hr : Duplicating c σ) (he : e ∈ σ.trace) : e.server ∈ c.configuration := by
  obtain ⟨past, hs⟩ := exists_past he
  obtain ⟨_, _, -, -, hst⟩ := hr.at hs
  exact hst.member

/-- No server has sent another more than 2^31 requests in a term. -/
def InWidth (c : Cluster) (trace : List Event) : Prop :=
  ∀ s ∈ c.configuration, ∀ dst ∈ c.configuration, ∀ term, callsIn trace s dst term ≤ 2 ^ 31

theorem Duplicating.inRange (hr : Duplicating c σ) (hst : Step c σ e rest) (hcount : InWidth c σ.trace)
    (hi : e.input = .message p) (hreq : p.rpc.request? = some req) :
    InRange req.lsn ∧ InRange ((e.before.heard req.term).followerRpcLsn.get req.server) := by
  obtain ⟨-, ⟨d, hd, -, hserver⟩, hnonneg, hlt⟩ := hr.delivered hst hi hreq
  have hremote : req.server ∈ c.configuration := hserver ▸ hr.member hd
  have hconf : e.before.configuration = c.configuration := (hr.wired.known_before hst).configuration
  have hsent := hcount _ hremote _ hst.member req.term
  refine ⟨⟨by omega, by omega⟩, ?_⟩
  by_cases hterm : e.before.term < req.term
  · rw [RaftServer.heard_recorded (hconf ▸ hremote) (Int.le_of_lt hterm), if_neg (Int.ne_of_gt hterm)]
    exact ⟨by omega, by omega⟩
  · have hge := hr.heard_ge hremote e.server
    have hlt := hr.heard_lt hremote e.server hst.member
    have hsent := hcount _ hremote _ hst.member (σ.raft e.server).term
    rw [RaftServer.heard, if_neg hterm, hst.before]
    exact ⟨by omega, by omega⟩

/-- **A server on the network is one of the tables**, that is given only RPCs sent to it. -/
theorem Duplicating.lsn_run (hr : Duplicating c σ) (hcount : InWidth c σ.trace) (a : Addr) :
    ∃ events s, LsnServer.run c.configuration events = .ok s ∧ Wraps s.tables (σ.raft a) ∧
      s.calls = lsnCallsOf σ.trace a ∧
      ∀ caller term lsn, .receive caller term lsn ∈ events → ⟨a, term, lsn⟩ ∈ lsnCallsOf σ.trace caller := by
  induction hr with
  | start => exact ⟨[], _, rfl, .start a c.configuration, rfl, by simp⟩
  | copy _ _ ih => exact ih hcount
  | @step σ e rest hr hst ih =>
    have hcount₀ : InWidth c σ.trace := fun s hs dst hdst term =>
      Nat.le_trans (callsIn_mono (List.suffix_cons e σ.trace) s dst term) (hcount s hs dst hdst term)
    obtain ⟨events, s, hrun, hw, hcalls, hreceived⟩ := ih hcount₀
    have hreceived' : ∀ caller term lsn, .receive caller term lsn ∈ events →
        ⟨a, term, lsn⟩ ∈ lsnCallsOf (e :: σ.trace) caller := fun caller term lsn hm =>
      lsnCallsOf_mono (hreceived caller term lsn hm) e
    by_cases ha : a = e.server
    · subst ha
      have hconf : e.before.configuration = c.configuration := (hr.wired.known_before hst).configuration
      obtain ⟨handled, s', hrun', hw', hcalls', hpacket⟩ :=
        (hr.wired.outcome hst).mirrors (hr.wired.idle_before hst)
        (hconf ▸ c.nodup) (hst.before ▸ hw) fun p req hi hreq => hr.inRange hst hcount₀ hi hreq
      refine ⟨events ++ handled, s', ?_, ?_, ?_, fun caller term lsn hm => ?_⟩
      · rw [LsnServer.run] at hrun ⊢
        rw [List.foldlM_append, hrun]
        exact hrun'
      · rw [System.raft_next_self]
        exact hw'.congr rfl rfl rfl rfl
      · rw [hcalls', hcalls, System.trace_next, lsnCallsOf_cons, if_pos rfl]
      · rcases List.mem_append.mp hm with hm | hm
        · exact hreceived' caller term lsn hm
        · obtain ⟨p, req, hi, hreq, rfl, rfl, rfl⟩ := hpacket _ _ _ hm
          obtain ⟨hdst, ⟨d, hd, hpd, hserver⟩, -⟩ := hr.delivered hst hi hreq
          rw [hserver, ← hdst]
          exact mem_lsnCallsOf (List.mem_cons_of_mem _ hd) hpd hreq
    · refine ⟨events, s, hrun, ?_, ?_, hreceived'⟩
      · rw [System.raft_next_ne ha]
        exact hw
      · rw [System.trace_next, lsnCallsOf_cons, if_neg (Ne.symm ha)]
        exact hcalls

/-- An event's requests, as RPCs of its server. -/
theorem Event.countP_calls (e : Event) (s dst : Addr) (term : Int) : e.packets.countP (Packet.isCall s dst term) =
    if e.server = s then e.after.lsnCalls.countP (fun call => call.dst = dst ∧ call.term = term) else 0 := by
  split
  · rename_i hs
    unfold Event.packets RaftServer.lsnCalls
    rw [List.countP_reverse, List.countP_filterMap, List.countP_filterMap]
    refine List.countP_congr fun f _ => ?_
    cases f with
    | rpc a m => cases hreq : m.request? <;> simp [Effect.packet?, Packet.isCall, hreq, hs]
    | _ => simp [Effect.packet?]
  · rename_i hs
    refine List.countP_eq_zero.mpr fun p hp hcall => ?_
    simp only [Packet.isCall, decide_eq_true_eq] at hcall
    exact hs ((Event.mem_packets.mp hp).2.1.symm.trans hcall.1)

theorem countP_lsnCallsOf (trace : List Event) (s dst : Addr) (term : Int) :
    (lsnCallsOf trace s).countP (fun call => call.dst = dst ∧ call.term = term) = callsIn trace s dst term := by
  induction trace with
  | nil => rfl
  | cons e past ih =>
    rw [lsnCallsOf_cons, callsIn_cons, Event.countP_calls, ← ih]
    split
    · exact List.countP_append
    · exact (Nat.zero_add _).symm

/-- **The next request of a server is fresh** for a server that has fewer than 2^31 of the term. -/
theorem Duplicating.next_fresh (hr : Duplicating c σ) (hcount : InWidth c σ.trace) {caller server : Addr}
    (hcaller : caller ∈ c.configuration) (hserver : server ∈ c.configuration)
    (hlt : callsIn σ.trace caller server (σ.raft caller).term < 2 ^ 31) :
    ∃ s t, Wraps s.tables (σ.raft caller) ∧ Wraps t.tables (σ.raft server) ∧
      LsnServer.ReceivesFrom c.configuration caller server s t ∧
      LsnServer.Fresh c.configuration caller server s := by
  obtain ⟨_, s, hrun, hw, hcalls, -⟩ := hr.lsn_run hcount caller
  obtain ⟨events, t, hrun', hw', -, hreceived⟩ := hr.lsn_run hcount server
  refine ⟨s, t, hw, hw', ⟨events, hrun', fun term lsn hm => hcalls ▸ hreceived caller term lsn hm⟩, ?_⟩
  refine (LsnServer.Numbered.run hrun).fresh hcaller hserver ?_
  rw [LsnServer.callsTo, hcalls, hw.term, ← List.countP_eq_length_filter, countP_lsnCallsOf]
  exact hlt

end Runs

end MyRaft
