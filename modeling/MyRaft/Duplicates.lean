/-
A network that also duplicates packets. The RVs and AEs of a server to another
are numbered through the term, by one counter, and the receiver takes only those
with a higher number than it has taken in the term. Both counters start again
with every new term, each on its own server; what the receiver has of a term is
compared with requests of that term only, for its own term is that of the request
by then.

`lsn` is an `int`. It counts the requests of a server to another in a term, so
none that is reached in a term of fewer than 2^31 of them is out of range (`MyRaft.Widths`).
-/
import MyRaft.Terms

namespace MyRaft

open History
open RaftServer (Outcome CalledAll SentAes SentRvs Tasks Sends)
open StdLib (StdMap)

/-- What an RV or an AE tells of its sender. -/
structure Request where
  server : Addr
  term : Int
  lsn : Int
deriving DecidableEq

def Rpc.request? : Rpc → Option Request
  | .requestVote rpc => some ⟨rpc.server, rpc.term, rpc.lsn⟩
  | .appendEntry rpc => some ⟨rpc.server, rpc.term, rpc.lsn⟩
  | _ => none

/-- The requests of `s` to `dst` in a term. -/
def Packet.isCall (s dst : Addr) (term : Int) (p : Packet) : Bool :=
  p.src = s ∧ p.dst = dst ∧ ∃ req ∈ p.rpc.request?, req.term = term

/-- Their number so far. -/
def callsIn (trace : List Event) (s dst : Addr) (term : Int) : Nat :=
  (trace.flatMap Event.packets).countP (Packet.isCall s dst term)

theorem callsIn_cons (e : Event) (past : List Event) (s dst : Addr) (term : Int) :
    callsIn (e :: past) s dst term = e.packets.countP (Packet.isCall s dst term) + callsIn past s dst term := by
  unfold callsIn
  rw [List.flatMap_cons, List.countP_append]

theorem callsIn_mono {past trace : List Event} (hs : past <:+ trace) (s dst : Addr) (term : Int) :
    callsIn past s dst term ≤ callsIn trace s dst term := by
  obtain ⟨newer, rfl⟩ := hs
  unfold callsIn
  rw [List.flatMap_append, List.countP_append]
  omega

namespace RaftServer

variable {x y : RaftServer} {input : Input} {z : Addr}

/-- The answer of `should_ignore_remote_rpc` on a request, in the request's term. -/
def ignores (req : Request) (x : RaftServer) : Bool :=
  ((x.heard req.term).shouldIgnoreRemoteRpc req.server req.lsn).1

theorem ignores_iff {req : Request} :
    x.ignores req = true ↔ req.lsn ≤ (x.heard req.term).followerRpcLsn.get req.server := by
  unfold ignores
  rw [shouldIgnoreRemoteRpc_eq]
  split <;> simp [*]

theorem becomeFollower_heard {term : Int} (hle : x.term ≤ term) :
    (x.becomeFollower term).followerRpcLsn = (x.heard term).followerRpcLsn := by
  unfold heard
  split
  · rfl
  · exact followerRpcLsn_same (by omega)

/-- A new term starts both tables again. -/
theorem becomeFollower_lsn {term : Int} (hz : z ∈ x.configuration) (hle : x.term ≤ term) :
    (x.becomeFollower term).currentRpcLsn.get z = if term = x.term then x.currentRpcLsn.get z else 0 := by
  rw [becomeFollower_currentRpcLsn]
  split
  · rw [if_neg (by omega), StdMap.get_setAll, if_pos hz]
  · rw [if_pos (by omega)]

theorem becomeFollower_recorded {term : Int} (hz : z ∈ x.configuration) (hle : x.term ≤ term) :
    (x.becomeFollower term).followerRpcLsn.get z = if term = x.term then x.followerRpcLsn.get z else -1 := by
  rw [becomeFollower_followerRpcLsn]
  split
  · rw [if_neg (by omega), StdMap.get_setAll, if_pos hz]
  · rw [if_pos (by omega)]

theorem heard_lsn {term : Int} (hz : z ∈ x.configuration) (hle : x.term ≤ term) :
    (x.heard term).currentRpcLsn.get z = if term = x.term then x.currentRpcLsn.get z else 0 := by
  unfold heard
  split
  · exact becomeFollower_lsn hz hle
  · rw [if_pos (by omega)]

theorem heard_recorded {term : Int} (hz : z ∈ x.configuration) (hle : x.term ≤ term) :
    (x.heard term).followerRpcLsn.get z = if term = x.term then x.followerRpcLsn.get z else -1 := by
  rw [← becomeFollower_heard hle]
  exact becomeFollower_recorded hz hle

/-! ## Taking a request -/

/-- A request in the receiver's term: dropped without a trace but for the term, or recorded. -/
inductive Taken (x : RaftServer) (req : Request) (y : RaftServer) : Prop
  | dropped (hignored : x.ignores req = true) (hterm : y.term = req.term) (hentries : y.entries = x.entries)
      (hcommit : y.commitIndex = x.commitIndex) (heffects : y.effects = x.effects)
  | recorded (hlsn : (x.heard req.term).followerRpcLsn.get req.server < req.lsn) (hterm : y.term = req.term)
      (hheard : y.followerRpcLsn.get req.server = req.lsn)

theorem react2rv_taken {rv : RequestVoteRpc} (h : x.react2rv rv = .ok y) (hle : x.term ≤ rv.term) :
    Taken x ⟨rv.server, rv.term, rv.lsn⟩ y := by
  rcases react2rv_ok h with ⟨hlt, -⟩ | ⟨-, ⟨hlsn, rfl⟩ | ⟨hlsn, rfl | ⟨-, -, -, rfl⟩⟩⟩
  · omega
  · exact .dropped (ignores_iff.mpr hlsn) (heard_term _ hle) (heard_entries _) (heard_commitIndex _)
      (heard_effects _)
  · exact .recorded hlsn (heard_term _ hle) (by simp)
  · exact .recorded hlsn (heard_term _ hle) (by simp)

theorem react2ae_taken {ae : AppendEntryRpc} (h : x.react2ae ae = .ok y) (hle : x.term ≤ ae.term) :
    Taken x ⟨ae.server, ae.term, ae.lsn⟩ y := by
  have hheard := becomeFollower_heard hle
  rcases react2ae_ok h with ⟨hlt, -⟩ | ⟨-, -, ⟨hlsn, rfl⟩
    | ⟨hlsn, ⟨-, rfl⟩ | ⟨-, es, smc, tasks, t, rfl, -, -, -, -, rfl⟩⟩⟩
  · omega
  · exact .dropped (ignores_iff.mpr (by rw [← hheard]; exact hlsn)) rfl rfl rfl rfl
  · exact .recorded (by rw [← hheard]; exact hlsn) rfl (by simp)
  · exact .recorded (by rw [← hheard]; exact hlsn) rfl (by simp)

/-! ## Numbering requests -/

/-- A request to `z` among the effects of a handler. -/
def isCallTo (z : Addr) : Effect → Bool
  | .rpc dst m => dst = z ∧ m.request?.isSome
  | _ => false

theorem CalledAll.calls {t : RaftServer} {xs : List Addr} {rpc : Addr → Rpc} {kind : Addr → TimerHandler}
    (h : CalledAll t xs rpc kind y) (hxs : xs.Nodup) (hrpc : ∀ a, (rpc a).request?.isSome)
    (ht : t.effects.countP (isCallTo z) = 0) :
    y.currentRpcLsn.get z = t.currentRpcLsn.get z + y.effects.countP (isCallTo z) := by
  have hlsn := h.lsn z
  obtain ⟨cur, timers, rfl⟩ := h.frame
  have hcount : (xs.map fun a => Effect.rpc a (rpc a)).countP (isCallTo z) = xs.count z := by
    rw [List.countP_map, List.count]
    exact List.countP_congr fun a _ => by simp [isCallTo, hrpc]
  rw [hlsn, List.countP_append, hcount, hxs.count, ht]
  split <;> simp

theorem SentAes.calls {t : RaftServer} {xs : List Addr} (h : SentAes t xs y) (hxs : xs.Nodup)
    (ht : t.effects.countP (isCallTo z) = 0) :
    y.currentRpcLsn.get z = t.currentRpcLsn.get z + y.effects.countP (isCallTo z) := by
  obtain ⟨ae, -, hc⟩ := h
  exact hc.calls hxs (fun _ => rfl) ht

theorem Tasks.no_calls {last : Int} {tasks : List Effect} (h : Tasks x last tasks) :
    tasks.countP (isCallTo z) = 0 :=
  List.countP_eq_zero.mpr fun f hf => by
    obtain ⟨_, _, rfl, -⟩ := h f hf
    simp [isCallTo]

/-- In a term a counter counts the requests, from nothing when the term is new. -/
theorem Outcome.calls (hx : x.effects = []) (hnodup : x.configuration.Nodup) (h : Outcome x input y)
    (hz : z ∈ x.configuration) :
    y.currentRpcLsn.get z =
      (if y.term = x.term then x.currentRpcLsn.get z else 0) + y.effects.countP (isCallTo z) := by
  have hothers : x.others.Nodup := hnodup.filter _
  cases h with
  | idle | polled | appended => simp [hx]
  | query => simp [hx, isCallTo]
  | told | answered | rvStale => simp [hx, isCallTo, Rpc.request?]
  | aeStale => simp [hx, isCallTo, Rpc.request?]
  | steppedDown hlt => simpa [hx] using becomeFollower_lsn hz (Int.le_of_lt hlt)
  | rvIgnored hp hle => simpa [hx, heard_term _ hle] using heard_lsn hz hle
  | rvDenied hp hle | rvGranted hp hle =>
    simpa [hx, heard_term _ hle, isCallTo, Rpc.request?] using heard_lsn hz hle
  | aeIgnored hp hle => simpa [hx] using becomeFollower_lsn hz hle
  | aeRejected hp hle => simpa [hx, isCallTo, Rpc.request?] using becomeFollower_lsn hz hle
  | aeAccepted hp hle _ _ _ ht _ _ htasks =>
    subst ht
    simpa [hx, isCallTo, Rpc.request?, htasks.no_calls] using becomeFollower_lsn hz hle
  | counted => simp [hx]
  | won hp hterm hstate hlsn hok hm hy =>
    have hcalls := hy.calls (z := z) hothers (by simp [hx])
    obtain ⟨_, _, _, rfl⟩ := hy.eq
    simpa using hcalls
  | acked hp hterm hstate hlsn hok ht hw hxs =>
    obtain ⟨nextIndex, tasks, -, htasks, rfl⟩ := ht.frame
    rcases hxs with ⟨-, -, rfl⟩ | ⟨rfl, hy⟩
    · simp [hx, htasks.no_calls, isCallTo]
    · have hcalls := hy.calls (z := z) (List.nodup_singleton _) (by simp [hx, htasks.no_calls, isCallTo])
      obtain ⟨_, _, _, rfl⟩ := hy.eq
      simpa using hcalls
  | campaigned hh hy =>
    have hcalls := CalledAll.calls (z := z) hy hothers (fun _ => rfl) (by simp [hx])
    rw [becomeCandidate_currentRpcLsn, StdMap.get_setAll, if_pos hz] at hcalls
    obtain ⟨_, _, _, rfl⟩ := CalledAll.eq hy
    simpa [show x.term + 1 ≠ x.term by omega] using hcalls
  | rvRetried hmin hy =>
    have hcalls := CalledAll.calls (z := z) hy (List.nodup_singleton _) (fun _ => rfl) (by simp [hx])
    obtain ⟨_, _, _, rfl⟩ := CalledAll.eq hy
    simpa using hcalls
  | nacked hp hterm hstate hlsn hok hnext hw hy | aeRetried hmin hy =>
    have hcalls := hy.calls (z := z) (List.nodup_singleton _) (by simp [hx])
    obtain ⟨_, _, _, rfl⟩ := hy.eq
    simpa using hcalls

/-- Who sent a request, in what term, and what its counter was after. -/
theorem Sends.request {dst : Addr} {m : Rpc} {req : Request} (h : Sends x input y dst m)
    (hreq : m.request? = some req) :
    req.server = y.server ∧ req.term = y.term ∧ y.currentRpcLsn.get dst = req.lsn + 1 := by
  cases h with
  | requestVote hterm hserver hindex hlsn hcur =>
    cases hreq
    exact ⟨hserver, hterm, hcur⟩
  | appendEntry hb hlsn hcur =>
    cases hreq
    exact ⟨hb.server, hb.term, hcur⟩
  | _ => cases hreq

/-- A server's record of another's lsn is that of a request of the term, or starts again with it. -/
theorem Outcome.heard (h : Outcome x input y) (hz : z ∈ x.configuration) :
    y.followerRpcLsn.get z = (if y.term = x.term then x.followerRpcLsn.get z else -1) ∨
    ∃ p req, input = .message p ∧ p.rpc.request? = some req ∧ req.server = z ∧ req.term = y.term ∧
      y.followerRpcLsn.get z = req.lsn := by
  -- a record is written for the sender only
  have hrecord : ∀ (s : RaftServer) (p : Packet) (req : Request), input = .message p → p.rpc.request? = some req →
      req.term = y.term → y.followerRpcLsn = s.followerRpcLsn.set req.server req.lsn →
      s.followerRpcLsn.get z = (if y.term = x.term then x.followerRpcLsn.get z else -1) →
      y.followerRpcLsn.get z = (if y.term = x.term then x.followerRpcLsn.get z else -1) ∨
      ∃ p req, input = .message p ∧ p.rpc.request? = some req ∧ req.server = z ∧ req.term = y.term ∧
        y.followerRpcLsn.get z = req.lsn := by
    intro s p req hi hreq hterm hset hs
    rw [hset]
    by_cases ha : z = req.server
    · exact .inr ⟨p, req, hi, hreq, ha.symm, hterm, by rw [ha, StdMap.get_set_self]⟩
    · exact .inl ((StdMap.get_set_ne _ _ ha).trans hs)
  cases h with
  | idle | polled | query | told | answered | appended | rvStale | aeStale | counted =>
    exact .inl (if_pos rfl).symm
  | steppedDown hlt => exact .inl (becomeFollower_recorded hz (Int.le_of_lt hlt))
  | @rvIgnored p rv hp hle => exact .inl (by rw [heard_term _ hle]; exact heard_recorded hz hle)
  | @rvDenied p rv hp hle | @rvGranted p rv hp hle =>
    have hterm : rv.term = (x.heard rv.term).term := (heard_term _ hle).symm
    refine hrecord (x.heard rv.term) p ⟨rv.server, rv.term, rv.lsn⟩ rfl (by rw [hp]; rfl) hterm rfl ?_
    change _ = if (x.heard rv.term).term = x.term then _ else _
    rw [← hterm]
    exact heard_recorded hz hle
  | @aeIgnored p ae hp hle => exact .inl (becomeFollower_recorded hz hle)
  | @aeRejected p ae hp hle =>
    exact hrecord (x.becomeFollower ae.term) p ⟨ae.server, ae.term, ae.lsn⟩ rfl (by rw [hp]; rfl) rfl rfl
      (becomeFollower_recorded hz hle)
  | @aeAccepted p ae _ _ _ _ hp hle _ _ _ ht =>
    subst ht
    exact hrecord (x.becomeFollower ae.term) p ⟨ae.server, ae.term, ae.lsn⟩ rfl (by rw [hp]; rfl) rfl rfl
      (becomeFollower_recorded hz hle)
  | won hp hterm hstate hlsn hok hm hy | nacked hp hterm hstate hlsn hok hnext hw hy | aeRetried hmin hy =>
    obtain ⟨_, _, _, rfl⟩ := hy.eq
    exact .inl (if_pos rfl).symm
  | acked hp hterm hstate hlsn hok ht hw hxs =>
    obtain ⟨_, _, _, _, -, rfl⟩ := ht.eq hxs
    exact .inl (if_pos rfl).symm
  | rvRetried hmin hy =>
    obtain ⟨_, _, _, rfl⟩ := CalledAll.eq hy
    exact .inl (if_pos rfl).symm
  | campaigned hh hy =>
    obtain ⟨_, _, _, rfl⟩ := CalledAll.eq hy
    refine .inl ?_
    have hne : ¬ x.becomeCandidate.term = x.term := by rw [becomeCandidate_term]; omega
    simp only [hne, if_false, becomeCandidate_followerRpcLsn, StdMap.get_setAll, hz, if_true]

end RaftServer

/-! ## Runs with duplicates -/

section Runs

variable {SM : Type} [StateMachine SM] {c : Cluster} {σ : System SM} {e : Event} {rest : List Packet} {p : Packet}
  {req : Request}

/-- The network has a packet in flight once more. -/
def System.copy (σ : System SM) (p : Packet) : System SM := { σ with inflight := σ.inflight ++ [p] }

/-- The states of the crash-free runs on a network that loses, delays, reorders
and duplicates packets. A packet that is lost is one never delivered. -/
inductive Duplicating (c : Cluster) : System SM → Prop
  | start : Duplicating c (System.start c)
  | step {σ : System SM} {e rest} : Duplicating c σ → Step c σ e rest → Duplicating c (σ.next e rest)
  | copy {σ : System SM} {p} : Duplicating c σ → p ∈ σ.inflight → Duplicating c (σ.copy p)

theorem Reachable.duplicating (hr : Reachable c σ) : Duplicating c σ := by
  induction hr with
  | start => exact .start
  | step hr hs ho hh ih => exact .step ih ⟨hs, ho, rfl, hh⟩

theorem Duplicating.wired (hr : Duplicating c σ) : Wired c σ := by
  induction hr with
  | start => exact .start
  | step _ hst ih => exact ih.step hst
  | copy _ hp ih =>
    refine ⟨ih.known, ih.idle, fun q hq => ?_, ih.ofServer⟩
    rcases List.mem_append.mp hq with hq | hq
    · exact ih.sent q hq
    · rw [List.mem_singleton.mp hq]
      exact ih.sent _ hp

theorem Duplicating.at {past : List Event} (hr : Duplicating c σ) (hs : e :: past <:+ σ.trace) :
    ∃ (σ₀ : System SM) (rest : List Packet), Duplicating c σ₀ ∧ σ₀.trace = past ∧ Step c σ₀ e rest := by
  induction hr with
  | start => exact absurd (List.suffix_nil.mp hs) (by simp)
  | @step σ d rest hr hst ih =>
    rcases List.suffix_cons_iff.mp hs with he | hs
    · obtain ⟨rfl, rfl⟩ := List.cons_eq_cons.mp he
      exact ⟨σ, rest, hr, rfl, hst⟩
    · exact ih hs
  | copy _ _ ih => exact ih hs

theorem Duplicating.since (hr : Duplicating c σ) : ∀ e ∈ σ.trace, Since e.after (σ.raft e.server) := by
  induction hr with
  | start => exact fun e he => by cases he
  | step hr hst ih => exact hr.wired.since_trace hst ih
  | copy _ _ ih => exact ih

/-- A request sent, with what its sender knew. -/
theorem Duplicating.request (hr : Duplicating c σ) {past : List Event} (hs : e :: past <:+ σ.trace)
    (hp : p ∈ e.packets) (hreq : p.rpc.request? = some req) :
    req.server = e.server ∧ req.term = e.after.term ∧ e.after.currentRpcLsn.get p.dst = req.lsn + 1 := by
  obtain ⟨σ₀, rest, hr₀, rfl, hst⟩ := hr.at hs
  obtain ⟨hserver, hterm, hlsn⟩ := (hr₀.wired.sends hst hp).request hreq
  obtain ⟨hstatic, -, -⟩ := (hr₀.wired.outcome hst).static
  refine ⟨?_, hterm, hlsn⟩
  rw [hserver, hstatic, (hr₀.wired.known_before hst).server]

omit [StateMachine SM] in
/-- The requests an event puts on the network, all of its server's term. -/
theorem Wired.calls (hw : Wired c σ) (hst : Step c σ e rest) (dst : Addr) :
    e.packets.countP (Packet.isCall e.server dst e.after.term) = e.effects.countP (RaftServer.isCallTo dst) := by
  unfold Event.packets
  rw [List.countP_filterMap]
  refine List.countP_congr fun f hf => ?_
  cases f with
  | rpc a m =>
    have hsends := (hw.outcome hst).sends (hw.idle_before hst) hf
    cases hreq : m.request? with
    | none => simp [Effect.packet?, Packet.isCall, RaftServer.isCallTo, hreq]
    | some req =>
      obtain ⟨-, hterm, -⟩ := hsends.request hreq
      simp [Effect.packet?, Packet.isCall, RaftServer.isCallTo, hreq, hterm]
  | _ => simp [Effect.packet?, RaftServer.isCallTo]

/-- **A counter is the number of the requests of the term.** -/
theorem Duplicating.counts (hr : Duplicating c σ) {dst : Addr} (hdst : dst ∈ c.configuration) :
    ∀ s, (σ.raft s).currentRpcLsn.get dst = callsIn σ.trace s dst (σ.raft s).term := by
  induction hr with
  | start =>
    intro s
    show (StdMap.empty.setAll c.configuration 0).get dst = _
    rw [StdMap.get_setAll, if_pos hdst]
    rfl
  | copy _ _ ih => exact ih
  | @step σ e rest hr hst ih =>
    intro s
    rw [System.trace_next, callsIn_cons]
    by_cases hs : s = e.server
    · subst hs
      have hout := hr.wired.outcome hst
      have hconf : e.before.configuration = c.configuration := (hr.wired.known_before hst).configuration
      have hcalls := hout.calls (hr.wired.idle_before hst) (by rw [hconf]; exact c.nodup) (z := dst)
        (by rw [hconf]; exact hdst)
      have hbefore : (if e.after.term = e.before.term then e.before.currentRpcLsn.get dst else 0) =
          callsIn σ.trace e.server dst e.after.term := by
        rw [hst.before]
        split
        · rename_i hterm
          rw [hterm]
          exact ih e.server
        · -- the term is new: nothing was sent in it
          rename_i hterm
          have hle := hout.term_le
          rw [hst.before] at hle
          refine (Int.natCast_eq_zero.mpr (List.countP_eq_zero.mpr fun p hp hcall => ?_)).symm
          obtain ⟨d, hd, hp⟩ := List.mem_flatMap.mp hp
          obtain ⟨past, hs⟩ := exists_past hd
          simp only [Packet.isCall, decide_eq_true_eq] at hcall
          obtain ⟨hsrc, -, req, hreq, hrterm⟩ := hcall
          have hdterm := (hr.request hs hp hreq).2.1
          have hds : d.server = e.server := (Event.mem_packets.mp hp).2.1.symm.trans hsrc
          have := (hr.since d hd).term
          rw [hds] at this
          omega
      rw [System.raft_next_self]
      show e.after.currentRpcLsn.get dst = ((_ + callsIn σ.trace e.server dst e.after.term : Nat) : Int)
      rw [hcalls, hbefore, Int.natCast_add, Int.add_comm]
      exact congrArg (fun n : Nat => (n : Int) + _) (hr.wired.calls hst dst).symm
    · have hnone : e.packets.countP (Packet.isCall s dst ((σ.next e rest).raft s).term) = 0 :=
        List.countP_eq_zero.mpr fun p hp hcall => by
          simp only [Packet.isCall, decide_eq_true_eq] at hcall
          exact hs (hcall.1.symm.trans (Event.mem_packets.mp hp).2.1)
      rw [hnone, System.raft_next_ne hs, Nat.zero_add]
      exact ih s

/-- The lsn of a request lies between the numbers of the requests before it and with it. -/
theorem Duplicating.lsn_counts (hr : Duplicating c σ) {past : List Event} (hs : e :: past <:+ σ.trace)
    (hp : p ∈ e.packets) (hreq : p.rpc.request? = some req) (hdst : p.dst ∈ c.configuration) :
    callsIn past req.server p.dst req.term ≤ req.lsn ∧
    req.lsn < callsIn (e :: past) req.server p.dst req.term := by
  obtain ⟨hserver, hterm, hlsn⟩ := hr.request hs hp hreq
  obtain ⟨σ₀, rest, hr₀, rfl, hst⟩ := hr.at hs
  have hcounts := (hr₀.step hst).counts hdst e.server
  rw [System.raft_next_self] at hcounts
  change e.after.currentRpcLsn.get p.dst = callsIn (e :: σ₀.trace) e.server p.dst e.after.term at hcounts
  have hone : 0 < e.packets.countP (Packet.isCall e.server p.dst e.after.term) :=
    List.countP_pos_iff.mpr ⟨p, hp, by simp [Packet.isCall, (Event.mem_packets.mp hp).2.1, hreq, hterm]⟩
  rw [hserver, hterm, callsIn_cons]
  rw [callsIn_cons] at hcounts
  constructor
  · omega
  · omega

/-- A request that is delivered was sent, and is one of those counted. -/
theorem Duplicating.delivered (hr : Duplicating c σ) (hst : Step c σ e rest) (hi : e.input = .message p)
    (hreq : p.rpc.request? = some req) :
    p.dst = e.server ∧ (∃ d ∈ σ.trace, p ∈ d.packets ∧ req.server = d.server) ∧ 0 ≤ req.lsn ∧
      req.lsn < callsIn σ.trace req.server e.server req.term := by
  obtain ⟨⟨d, hd, hpd⟩, hdst, -⟩ := hr.wired.delivered hst hi
  obtain ⟨past, hs⟩ := exists_past hd
  obtain ⟨hlo, hhi⟩ := hr.lsn_counts hs hpd hreq (hdst ▸ hst.member)
  have hmono := callsIn_mono hs req.server p.dst req.term
  refine ⟨hdst, ⟨d, hd, hpd, (hr.request hs hpd hreq).1⟩, by omega, ?_⟩
  rw [← hdst]
  omega

/-- **What a server has heard from another was sent**: its record is below the counter. -/
theorem Duplicating.heard_lt (hr : Duplicating c σ) {z : Addr} (hz : z ∈ c.configuration) :
    ∀ s ∈ c.configuration, (σ.raft s).followerRpcLsn.get z < callsIn σ.trace z s (σ.raft s).term := by
  induction hr with
  | start =>
    intro s _
    change (StdMap.empty.setAll c.configuration (-1)).get z < _
    rw [StdMap.get_setAll, if_pos hz]
    omega
  | copy _ _ ih => exact ih
  | @step σ e rest hr hst ih =>
    intro s hs
    have hmono := callsIn_mono (List.suffix_cons e σ.trace) z s
    rw [System.trace_next]
    by_cases hse : s = e.server
    · subst hse
      have hconf : e.before.configuration = c.configuration := (hr.wired.known_before hst).configuration
      rw [System.raft_next_self, RaftServer.taken_followerRpcLsn, RaftServer.taken_term]
      rcases (hr.wired.outcome hst).heard (hconf ▸ hz) with hheard | ⟨p, req, hi, hreq, rfl, hterm, hheard⟩
      · have hih := ih e.server hs
        rw [← hst.before] at hih
        rw [hheard]
        split
        · rename_i hterm
          have := hmono e.before.term
          rw [hterm]
          omega
        · omega
      · obtain ⟨-, -, -, hcounts⟩ := hr.delivered hst hi hreq
        have := hmono req.term
        rw [hheard, ← hterm]
        omega
    · have hih := ih s hs
      have := hmono (σ.raft s).term
      rw [System.raft_next_ne hse]
      omega

/-- A request that `should_ignore_remote_rpc` is asked about: its term is not below the receiver's. -/
structure Asks (e : Event) (p : Packet) (req : Request) : Prop where
  input : e.input = .message p
  request : p.rpc.request? = some req
  term_le : e.before.term ≤ req.term

/-- `q` was put on the network before `p`. -/
def SentBefore (trace : List Event) (q p : Packet) : Prop :=
  ∃ d past, d :: past <:+ trace ∧ p ∈ d.packets ∧ Sent past q

omit [StateMachine SM] in
theorem Asks.taken (h : Asks e p req) (hst : Step c σ e rest) : RaftServer.Taken e.before req e.after := by
  have hh := hst.handled
  rw [← hst.before, h.input] at hh
  change e.before.reactToIncomingMsg p.rpc p.src = .ok e.after at hh
  have hreq := h.request
  have hle := h.term_le
  cases hp : p.rpc with
  | requestVote rv =>
    rw [hp] at hh hreq
    cases hreq
    exact RaftServer.react2rv_taken hh hle
  | appendEntry ae =>
    rw [hp] at hh hreq
    cases hreq
    exact RaftServer.react2ae_taken hh hle
  | _ =>
    rw [hp] at hreq
    cases hreq

/-- Of two requests of a server to another in a term the one with the lower lsn was sent first. -/
theorem Duplicating.sent_before (hr : Duplicating c σ) {q : Packet} {req' : Request} (hp : Sent σ.trace p)
    (hq : Sent σ.trace q) (hreq : p.rpc.request? = some req) (hreq' : q.rpc.request? = some req')
    (hdst : q.dst = p.dst) (hp' : p.dst ∈ c.configuration) (hserver : req'.server = req.server)
    (hterm : req'.term = req.term) (hlt : req'.lsn < req.lsn) : SentBefore σ.trace q p := by
  obtain ⟨d, hd, hpd⟩ := hp
  obtain ⟨d', hd', hqd⟩ := hq
  obtain ⟨past, hs⟩ := exists_past hd
  rcases before_or_after hs hd' with hbefore | rfl | ⟨past', hs', hafter⟩
  · exact ⟨d, past, hs, hpd, d', hbefore, hqd⟩
  · -- an event sends a server one request at most
    have h := (hr.request hs hpd hreq).2.2
    have h' := (hr.request hs hqd hreq').2.2
    rw [hdst] at h'
    omega
  · obtain ⟨pastd, hsd⟩ := exists_past hafter
    have h := (hr.lsn_counts (hsd.trans (past_suffix hs')) hpd hreq hp').2
    have h' := (hr.lsn_counts hs' hqd hreq' (hdst ▸ hp')).1
    rw [hdst, hserver, hterm] at h'
    have := callsIn_mono hsd req.server p.dst req.term
    omega

/-- **A request is executed at most once, and in the order of sending.** -/
theorem executed_in_order (hr : Duplicating c σ) {past : List Event} (hs : e :: past <:+ σ.trace)
    (h : Asks e p req) :
    e.after.term = req.term ∧ 0 ≤ req.lsn ∧ req.lsn < callsIn past req.server e.server req.term ∧
      (e.before.ignores req = false →
        ∀ d ∈ past, ∀ q req', Asks d q req' → d.before.ignores req' = false → d.server = e.server →
          req'.server = req.server → req'.term = req.term → req'.lsn < req.lsn ∧ SentBefore past q p) ∧
      (e.before.ignores req = true →
        e.after.entries = e.before.entries ∧ e.after.commitIndex = e.before.commitIndex ∧ e.packets = []) := by
  obtain ⟨σ₀, rest, hr₀, rfl, hst⟩ := hr.at hs
  have hw := hr₀.wired
  obtain ⟨hdst, ⟨d, hd, hpd, -⟩, hcount⟩ := hr₀.delivered hst h.input h.request
  have hsent : Sent σ₀.trace p := ⟨d, hd, hpd⟩
  have hmember : p.dst ∈ c.configuration := hdst ▸ hst.member
  have hterm : e.after.term = req.term := by
    cases h.taken hst with
    | dropped _ hterm => exact hterm
    | recorded _ hterm => exact hterm
  refine ⟨hterm, hcount.1, hcount.2, ?_, ?_⟩
  · intro hnot d hd q req' h' hnot' hds hserver hterm'
    obtain ⟨pastd, hsd⟩ := exists_past hd
    obtain ⟨σ₁, rest', hr₁, rfl, hst'⟩ := hr₀.at hsd
    have hlt : req'.lsn < req.lsn := by
      cases h'.taken hst' with
      | dropped hignored => rw [hnot'] at hignored; cases hignored
      | recorded _ htermd hheard =>
        cases h.taken hst with
        | dropped hignored => rw [hnot] at hignored; cases hignored
        | recorded hlsn =>
          -- the receiver was in the term already, and its record of the sender has only grown
          have hsince := hr₀.since d hd
          rw [hds, ← hst.before] at hsince
          have hle := hsince.term
          have hterm₀ := h.term_le
          have hgrown := hsince.heard (by omega) req.server
          rw [RaftServer.heard_same (by omega)] at hlsn
          rw [hserver] at hheard
          omega
    obtain ⟨hdst', ⟨d', hd', hqd', -⟩, -⟩ := hr₁.delivered hst' h'.input h'.request
    have hsent' : Sent σ₁.trace q := ⟨d', hd', hqd'⟩
    exact ⟨hlt, hr₀.sent_before hsent (hsent'.mono (past_suffix hsd)) h.request h'.request
      (by rw [hdst', hds, hdst])
      hmember hserver hterm' hlt⟩
  · intro hignored
    cases h.taken hst with
    | dropped _ _ hentries hcommit heffects =>
      refine ⟨hentries, hcommit, ?_⟩
      unfold Event.packets Event.effects
      rw [heffects, hw.idle_before hst]
      rfl
    | recorded hlsn =>
      rw [RaftServer.ignores_iff] at hignored
      omega

/-- The run of two schedules, with the `i`th packet in flight between them copied. -/
def System.runCopying (c : Cluster) (as : List Action) (i : Nat) (as' : List Action) : Option (System SM) := do
  let σ ← (System.start c).run c as
  let p ← σ.inflight[i]?
  (σ.copy p).run c as'

theorem Duplicating.run {as : List Action} {σ σ' : System SM} (hr : Duplicating c σ) (h : σ.run c as = some σ') :
    Duplicating c σ' := by
  refine System.run_invariant (fun hr hact => ?_) hr h
  obtain ⟨s, input, rest, r, hs, ho, hh, rfl⟩ := System.act_eq_some hact
  exact .step hr ⟨hs, ho, rfl, hh⟩

theorem Duplicating.exists_run (c : Cluster) (as : List Action) (i : Nat) (as' : List Action)
    {P : System SM → Prop} [DecidablePred P] (h : (System.runCopying c as i as').any
    (fun σ => decide (P σ)) = true) :
    ∃ σ : System SM, Duplicating c σ ∧ P σ := by
  obtain ⟨σ, hrun, hP⟩ := (Option.any_eq_true _ _).mp h
  unfold System.runCopying at hrun
  simp only [bind, Option.bind_eq_some_iff] at hrun
  obtain ⟨σ₁, h₁, p, hp, h₂⟩ := hrun
  have hr₁ : Duplicating c σ₁ := .run .start h₁
  exact ⟨σ, (hr₁.copy (List.mem_of_getElem? hp)).run h₂, of_decide_eq_true hP⟩

end Runs

/-- A's RV to B comes twice, and then A's first AE: B drops the second RV and takes the AE. -/
theorem copiedVote_dropped : ∃ (σ : System Unit) (d e : Event) (p q : Packet) (req req' : Request), d ∈ σ.trace ∧
    e ∈ σ.trace ∧ Asks d q req' ∧ Asks e p req ∧ d.packets = [] ∧ e.before.ignores req = false ∧
    e.after.term = req.term := by
  obtain ⟨σ, hr, d, hd, q, hq, req', hreq', hle', hignored, e, he, p, hp, req, hreq, hle, hnot⟩ :=
    Duplicating.exists_run threeServers (campaign serverA) 0 [.deliver 0, .deliver 1, .deliver 1, .deliver 1]
      (P := fun σ : System Unit => ∃ d ∈ σ.trace, ∃ q ∈ d.input.packet?, ∃ req' ∈ q.rpc.request?,
        d.before.term ≤ req'.term ∧ d.before.ignores req' = true ∧ ∃ e ∈ σ.trace, ∃ p ∈ e.input.packet?,
          ∃ req ∈ p.rpc.request?, e.before.term ≤ req.term ∧ e.before.ignores req = false) (by decide +kernel)
  have hasks : Asks d q req' := ⟨Input.mem_packet?.mp hq, hreq', hle'⟩
  have hasks' : Asks e p req := ⟨Input.mem_packet?.mp hp, hreq, hle⟩
  obtain ⟨pastd, hsd⟩ := exists_past hd
  obtain ⟨paste, hse⟩ := exists_past he
  obtain ⟨-, -, -, -, hdropped⟩ := executed_in_order hr hsd hasks
  obtain ⟨hterm, -⟩ := executed_in_order hr hse hasks'
  exact ⟨σ, d, e, p, q, req, req', hd, he, hasks, hasks', (hdropped hignored).2.2, hnot, hterm⟩

end MyRaft
