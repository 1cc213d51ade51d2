/-
Log repair. A new primary sends a follower the AE at the end of its own log; each
rejection makes it try the entry before, each acceptance the entry after. The
exchange of the two, without losses and without a timer that fires, ends with the
primary's log copied.
-/
import MyRaft.Exceptions
import MyRaft.LogMatching
import MyRaft.Duplicates
import MyRaft.Lib.Repair

namespace MyRaft

open StdLib (StdMap)
open RaftServer (BuiltAe SentAes CalledAll Tasks PrelogOk AcceptedLog Acked)
open Repair (Matching Accepts Stage)

/-! ## What a handler posts -/

def Effect.rpcTo? (z : Addr) : Effect → Option Rpc
  | .rpc dst m => if dst = z then some m else none
  | _ => none

namespace RaftServer

variable {x y t : RaftServer} {z : Addr} {xs : List Addr}

/-- The calls to `z` among the effects of a handler. -/
def posts (z : Addr) (x : RaftServer) : List Rpc := x.effects.filterMap (Effect.rpcTo? z)

theorem filterMap_rpcTo? (rpc : Addr → Rpc) : ∀ {xs : List Addr}, xs.Nodup →
    (xs.map fun a => Effect.rpc a (rpc a)).filterMap (Effect.rpcTo? z) = if z ∈ xs then [rpc z] else []
  | [], _ => rfl
  | a :: xs, hxs => by
    obtain ⟨ha, hxs⟩ := List.nodup_cons.mp hxs
    rw [List.map_cons, List.filterMap_cons, filterMap_rpcTo? rpc hxs]
    by_cases haz : a = z
    · subst haz
      simp [Effect.rpcTo?, ha]
    · simp [Effect.rpcTo?, haz, Ne.symm haz]

theorem CalledAll.posts {rpc : Addr → Rpc} {kind : Addr → TimerHandler} (h : CalledAll t xs rpc kind y)
    (hxs : xs.Nodup) : y.posts z = t.posts z ++ if z ∈ xs then [rpc z] else [] := by
  obtain ⟨cur, timers, rfl⟩ := h.frame
  unfold RaftServer.posts
  rw [List.filterMap_append, filterMap_rpcTo? rpc hxs]

theorem posts_idle (h : x.effects = []) : x.posts z = [] := by
  rw [posts, h, List.filterMap_nil]

/-- Tasks for the thread pools are no calls. -/
theorem Tasks.posts {last : Int} {tasks : List Effect} (h : Tasks x last tasks) :
    tasks.filterMap (Effect.rpcTo? z) = [] :=
  List.filterMap_eq_nil_iff.mpr fun f hf => by
    obtain ⟨_, _, rfl, -⟩ := h f hf
    rfl

/-- An AE that `x` is sending to `z`. -/
structure Sending (x : RaftServer) (z : Addr) (n : Nat) (ae : AppendEntryRpc) : Prop where
  built : BuiltAe x z n ae
  lsn : x.currentRpcLsn.get z = ae.lsn + 1

/-- AEs built from `t` go to each of `xs`. -/
theorem SentAes.posts (h : SentAes t xs y) (hxs : xs.Nodup) (ht : t.posts z = []) (hz : z ∈ xs) :
    ∃ n ae, y.posts z = [.appendEntry ae] ∧ Sending y z n ae ∧ ae.lsn = t.currentRpcLsn.get z := by
  obtain ⟨ae, hae, hc⟩ := h
  obtain ⟨hlsn, n, hb⟩ := hae z hz
  have hposts := @CalledAll.posts y t z xs _ _ hc hxs
  have hcur := hc.lsn z
  rw [if_pos hz] at hcur
  obtain ⟨_, _, _, rfl⟩ := hc.eq
  refine ⟨n, ae z, by rw [hposts, ht, if_pos hz, List.nil_append], ⟨?_, by rw [hcur, hlsn]⟩, hlsn⟩
  exact ⟨hb.next, hb.le, hb.term, hb.commitIndex, hb.server, hb.prelogIndex, hb.prelogTerm, hb.entry⟩

/-! ## A primary that takes a reply -/

section Replies

variable {resp : RespAppendEntryRpc}

theorem react2respAe_stays (hx : x.state = .primary) (hle : resp.term ≤ x.term) (h : x.react2respAe resp = .ok y) :
    y.state = .primary ∧ y.term = x.term ∧ y.server = x.server ∧ y.entries = x.entries := by
  rcases react2respAe_ok h with ⟨hlt, -⟩ | ⟨-, rfl⟩ | ⟨-, -, h⟩
  · omega
  · exact ⟨hx, rfl, rfl, rfl⟩
  rcases h with ⟨-, rfl⟩ | ⟨-, ⟨-, t, ht, ⟨-, rfl⟩ | ⟨-, timer, -, hy⟩⟩ | ⟨-, -, timer, -, hy⟩⟩
  · exact ⟨hx, rfl, rfl, rfl⟩
  · obtain ⟨_, _, -, -, rfl⟩ := ht.frame
    exact ⟨hx, rfl, rfl, rfl⟩
  · obtain ⟨_, _, -, -, rfl⟩ := ht.frame
    obtain ⟨_, _, _, rfl⟩ := hy.eq
    exact ⟨hx, rfl, rfl, rfl⟩
  · obtain ⟨_, _, _, rfl⟩ := hy.eq
    exact ⟨hx, rfl, rfl, rfl⟩

/-- What is known of `z` does not change, and nothing is sent to it. -/
structure LeavesAlone (x : RaftServer) (z : Addr) (y : RaftServer) : Prop where
  nextIndex : y.nextIndex.get z = x.nextIndex.get z
  saved : y.followerSavedIndex.get z = x.followerSavedIndex.get z
  lsn : y.currentRpcLsn.get z = x.currentRpcLsn.get z
  posts : y.posts z = []

theorem LeavesAlone.refl (h : x.effects = []) : LeavesAlone x z x := ⟨rfl, rfl, rfl, posts_idle h⟩

theorem LeavesAlone.trans (h : LeavesAlone x z t) (h' : LeavesAlone t z y) : LeavesAlone x z y :=
  ⟨h'.nextIndex.trans h.nextIndex, h'.saved.trans h.saved, h'.lsn.trans h.lsn, h'.posts⟩

theorem LeavesAlone.sent (h : SentAes t xs y) (hxs : xs.Nodup) (ht : t.posts z = []) (hz : z ∉ xs) :
    LeavesAlone t z y := by
  obtain ⟨ae, -, hc⟩ := h
  have hposts := CalledAll.posts (z := z) hc hxs
  have hlsn := hc.lsn z
  rw [if_neg hz, Int.add_zero] at hlsn
  rw [if_neg hz, List.append_nil, ht] at hposts
  obtain ⟨_, _, _, rfl⟩ := hc.eq
  exact ⟨rfl, rfl, hlsn, hposts⟩

/-- Counting a reply sends nothing. -/
theorem Acked.posts {a : Addr} (h : Acked x a resp t) (hidle : x.effects = []) : t.posts z = [] := by
  obtain ⟨_, tasks, -, htasks, rfl⟩ := h.frame
  change (x.effects ++ Effect.committed _ :: tasks).filterMap (Effect.rpcTo? z) = []
  rw [hidle, List.nil_append, List.filterMap_cons]
  exact Tasks.posts htasks

theorem Acked.leavesAlone {a : Addr} (h : Acked x a resp t) (hidle : x.effects = []) (hz : z ≠ a) :
    LeavesAlone x z t := by
  have hposts := Acked.posts (z := z) h hidle
  obtain ⟨nextIndex, tasks, hnext, -, rfl⟩ := h.frame
  exact ⟨(hnext z).trans (if_neg hz), StdMap.get_set_ne _ _ hz, rfl, hposts⟩

/-- A reply is about the follower it comes from. -/
theorem react2respAe_elsewhere (hidle : x.effects = []) (hle : resp.term ≤ x.term)
    (h : x.react2respAe resp = .ok y) (hz : z ≠ resp.server) : LeavesAlone x z y := by
  have hne : z ∉ [resp.server] := by simpa using hz
  rcases react2respAe_ok h with ⟨hlt, -⟩ | ⟨-, rfl⟩ | ⟨-, -, h⟩
  · omega
  · exact .refl hidle
  rcases h with ⟨-, rfl⟩ | ⟨-, ⟨-, t, ht, ⟨-, rfl⟩ | ⟨-, timer, -, hy⟩⟩ | ⟨-, -, timer, -, hy⟩⟩
  · exact .refl hidle
  · exact Acked.leavesAlone ht hidle hz
  · have hacked := Acked.leavesAlone ht hidle hz
    have htimer : LeavesAlone x z (t.retryTimer resp.server timer) :=
      ⟨hacked.nextIndex, hacked.saved, hacked.lsn, hacked.posts⟩
    exact htimer.trans (.sent hy (List.nodup_singleton _) htimer.posts hne)
  · have htimer : LeavesAlone x z
        ((x.sendNext resp.server (x.nextIndex.get resp.server - 1)).retryTimer resp.server timer) :=
      ⟨StdMap.get_set_ne _ _ hz, rfl, rfl, posts_idle hidle⟩
    exact htimer.trans (.sent hy (List.nodup_singleton _) htimer.posts hne)

/-- What a primary makes of the reply to its last call. -/
inductive Takes (x : RaftServer) (resp : RespAppendEntryRpc) (y : RaftServer) : Prop
  | last (hok : resp.ok = true) (hlast : x.nextIndex.get resp.server = x.entries.size)
      (hnext : y.nextIndex.get resp.server = x.nextIndex.get resp.server)
      (hsaved : y.followerSavedIndex.get resp.server = x.nextIndex.get resp.server - 1)
      (hposts : y.posts resp.server = [])
  | next {n : Nat} {ae} (hok : resp.ok = true) (hlt : x.nextIndex.get resp.server < x.entries.size)
      (hn : (n : Int) = x.ackedIndex resp.server resp + 1) (hposts : y.posts resp.server = [.appendEntry ae])
      (hae : Sending y resp.server n ae) (hlsn : ae.lsn = x.currentRpcLsn.get resp.server)
  | back {n : Nat} {ae} (hok : resp.ok = false) (hn : (n : Int) = x.nextIndex.get resp.server - 1)
      (hposts : y.posts resp.server = [.appendEntry ae]) (hae : Sending y resp.server n ae)
      (hlsn : ae.lsn = x.currentRpcLsn.get resp.server)

theorem react2respAe_takes (hidle : x.effects = []) (hterm : resp.term = x.term)
    (hlsn : x.currentRpcLsn.get resp.server = resp.lsn + 1)
    (h : x.react2respAe resp = .ok y) : Takes x resp y := by
  have hself : resp.server ∈ [resp.server] := List.mem_singleton_self _
  rcases react2respAe_ok h with ⟨hlt, -⟩ | ⟨hlt, -⟩ | ⟨-, -, h⟩
  · omega
  · omega
  rcases h with ⟨hne, -⟩ | ⟨-, ⟨hok, t, ht, ⟨hlast, rfl⟩ | ⟨hlt, timer, -, hy⟩⟩ | ⟨hok, -, timer, -, hy⟩⟩
  · exact absurd hlsn hne
  · have hposts := Acked.posts (z := resp.server) ht hidle
    have hacked : x.ackedIndex resp.server resp = x.nextIndex.get resp.server - 1 := if_pos (.inl hlast)
    obtain ⟨nextIndex, tasks, hnext, -, rfl⟩ := ht.frame
    refine .last hok hlast ?_ ?_ hposts
    · refine (hnext resp.server).trans ((if_pos rfl).trans ?_)
      omega
    · exact (StdMap.get_set_self _ _ _).trans hacked
  · obtain ⟨n, ae, hposts, hae, hcur⟩ :=
      SentAes.posts hy (List.nodup_singleton _) (Acked.posts (t := t) ht hidle) hself
    have hn := hae.built.next
    obtain ⟨_, _, _, rfl⟩ := hy.eq
    obtain ⟨nextIndex, tasks, hnext, -, rfl⟩ := ht.frame
    exact .next hok hlt (hn.symm.trans ((hnext resp.server).trans (if_pos rfl))) hposts hae hcur
  · obtain ⟨n, ae, hposts, hae, hcur⟩ :=
      SentAes.posts (z := resp.server) hy (List.nodup_singleton _) (posts_idle hidle) hself
    have hn := hae.built.next
    obtain ⟨_, _, _, rfl⟩ := hy.eq
    exact .back hok (hn.symm.trans (StdMap.get_set_self _ _ _)) hposts hae hcur

end Replies

/-! ## A follower that takes an AE -/

/-- A new AE is rejected or accepted, with a reply to its sender. -/
theorem react2ae_answers {ae : AppendEntryRpc} (hidle : x.effects = []) (hle : x.term ≤ ae.term)
    (hlsn : (x.becomeFollower ae.term).followerRpcLsn.get ae.server < ae.lsn) (h : x.react2ae ae = .ok y) :
    ∃ resp, y.posts ae.server = [.respAppend resp] ∧ resp.server = x.server ∧ resp.term = ae.term ∧
      resp.lsn = ae.lsn ∧ resp.isEmptyAe = ae.isEmptyAe ∧
      (resp.ok = false ∧ Rejects x ae y ∨ resp.ok = true ∧ Accepts x ae y) := by
  rcases react2ae_ok h with ⟨hlt, -⟩ | ⟨-, hnp, h⟩
  · omega
  rcases h with ⟨hold, -⟩ | ⟨-, ⟨hpre, rfl⟩ | ⟨hpre, es, smc, tasks, t, ht, hlog, hc, htk, -, rfl⟩⟩
  · omega
  · refine ⟨⟨false, ae.term, ae.lsn, x.server.ip, x.server.port, ae.isEmptyAe⟩, ?_, rfl, rfl, rfl, rfl,
      .inl ⟨rfl, ?_⟩⟩
    · change (x.effects ++ [_]).filterMap (Effect.rpcTo? ae.server) = _
      rw [hidle]
      exact List.filterMap_cons_some (if_pos rfl)
    · exact ⟨⟨hle, hnp, hlsn, rfl, rfl, by simp⟩, hpre, rfl, rfl⟩
  · refine ⟨⟨true, ae.term, ae.lsn, x.server.ip, x.server.port, ae.isEmptyAe⟩, ?_, rfl, rfl, rfl, rfl,
      .inr ⟨rfl, ?_⟩⟩
    · subst ht
      change ((x.effects ++ tasks) ++ [_]).filterMap (Effect.rpcTo? ae.server) = _
      rw [hidle, List.nil_append, List.filterMap_append, Tasks.posts htk]
      exact List.filterMap_cons_some (if_pos rfl)
    · exact accepts_of hle hnp hlsn hpre ht hlog hc

/-- The check of the prelog is that of a probe at the position of the entry. -/
theorem BuiltAe.accepts_iff {n : Nat} {ae : AppendEntryRpc} {log : List RpcEntry} (h : BuiltAe y z n ae)
    (hlog : y.entries.log = log) :
    PrelogOk x ae.prelogIndex ae.prelogTerm ↔ Repair.Accepts RpcEntry.term log x.entries.log n := by
  have hpre := h.prelogIndex
  have hterm := h.prelogTerm
  have hle := h.le
  rw [hlog] at hterm hle
  cases n with
  | zero => exact ⟨fun _ => .inl rfl, fun _ => .inl (by omega)⟩
  | succ n =>
    have hget := List.getElem?_eq_getElem (show n < log.length by omega)
    rw [if_neg (by omega), Nat.add_sub_cancel, hget] at hterm
    constructor
    · rintro (hneg | ⟨i, entry, hi, hentry, heq⟩)
      · omega
      · obtain rfl : i = n := by omega
        exact .inr ⟨_, hget, entry, hentry, (heq.trans hterm).symm⟩
    · rintro (hz | ⟨a, ha, b, hb, heq⟩)
      · omega
      · rw [Nat.add_sub_cancel] at ha hb
        obtain rfl : log[n] = a := by simpa [hget] using ha
        exact .inr ⟨n, b, by omega, hb, heq.symm.trans hterm.symm⟩

/-- What an accepted AE makes of the log. -/
theorem BuiltAe.accepted_log {n : Nat} {ae : AppendEntryRpc} {log log' : List RpcEntry} (h : BuiltAe y z n ae)
    (hlog : y.entries.log = log) (ha : AcceptedLog x ae log') :
    n = log.length ∧ log' = x.entries.log ∨
      ∃ entry, log[n]? = some entry ∧ log' = Truncating.insert x.entries.log n entry := by
  have hpre := h.prelogIndex
  have hle := h.le
  have hentry := h.entry
  rw [hlog] at hentry hle
  unfold AcceptedLog at ha
  cases hget : log[n]? with
  | none =>
    rw [hget, Option.toList_none] at hentry
    rw [hentry] at ha
    have := List.getElem?_eq_none_iff.mp hget
    exact .inl ⟨by omega, ha.2⟩
  | some entry =>
    rw [hget, Option.toList_some] at hentry
    rw [hentry] at ha
    obtain ⟨m, hm, -, -, hlog'⟩ := ha
    obtain rfl : m = n := by omega
    exact .inr ⟨entry, rfl, hlog'⟩

end RaftServer

/-! ## The exchange -/

/-- A primary, one of its followers, and what is on the way between them. -/
structure Exchange where
  primary : RaftServer
  follower : RaftServer
  inflight : List Rpc
  /-- All that the two have sent each other, oldest first. -/
  history : List Rpc

def Rpc.isAe : Rpc → Bool
  | .appendEntry _ => true
  | _ => false

def Rpc.isRejection : Rpc → Bool
  | .respAppend resp => !resp.ok
  | _ => false

namespace Exchange

/-- The AEs sent so far. -/
def aes (x : Exchange) : Nat := x.history.countP Rpc.isAe

/-- Whether an AE has been rejected. -/
def rejected (x : Exchange) : Bool := x.history.any Rpc.isRejection

def post (rpcs : List Rpc) (x : Exchange) : Exchange :=
  { x with inflight := x.inflight ++ rpcs, history := x.history ++ rpcs }

/-- A handler of the primary returned `p`, with `rest` on the way. -/
def primaryReturned (p : RaftServer) (rest : List Rpc) (x : Exchange) : Exchange :=
  { x with primary := p.taken, inflight := rest }.post (p.posts x.follower.server)

/-- A handler of the follower returned `f`, with `rest` on the way. -/
def followerReturned (f : RaftServer) (rest : List Rpc) (x : Exchange) : Exchange :=
  { x with follower := f.taken, inflight := rest }.post (f.posts x.primary.server)

/-- A server that became primary, and a follower. -/
def opened (p f : RaftServer) : Exchange := (⟨p, f, [], []⟩ : Exchange).primaryReturned p []

/-- The first message on the way arrives. -/
def deliver (x : Exchange) : Except Exn Exchange :=
  match x.inflight with
  | .appendEntry ae :: rest => do return x.followerReturned (← x.follower.react2ae ae) rest
  | .respAppend resp :: rest => do return x.primaryReturned (← x.primary.react2respAe resp) rest
  | _ => .ok x

/-- `n` messages arrive. Meanwhile the primary may take replies of other followers. -/
inductive Run (x₀ : Exchange) : Nat → Exchange → Prop
  | start : Run x₀ 0 x₀
  | deliver {n x y} : Run x₀ n x → x.deliver = .ok y → Run x₀ (n + 1) y
  | other {n x p} (resp : RespAppendEntryRpc) : Run x₀ n x → resp.server ∈ x.primary.configuration →
      resp.server ≠ x.follower.server → resp.term ≤ x.primary.term → x.primary.react2respAe resp = .ok p →
      Run x₀ n (x.primaryReturned p x.inflight)

/-- The log of the primary is copied. -/
structure Repaired (log : List RpcEntry) (x : Exchange) : Prop where
  unchanged : x.primary.entries.log = log
  copied : log <+: x.follower.entries.log
  next : x.primary.nextIndex.get x.follower.server = log.length
  saved : x.primary.followerSavedIndex.get x.follower.server = (log.length : Int) - 1
  equal : x.rejected = true → x.follower.entries.log = log

theorem aes_primaryReturned (p : RaftServer) (rest : List Rpc) (x : Exchange) :
    (x.primaryReturned p rest).aes = x.aes + (p.posts x.follower.server).countP Rpc.isAe := List.countP_append

theorem rejected_primaryReturned (p : RaftServer) (rest : List Rpc) (x : Exchange) :
    (x.primaryReturned p rest).rejected = (x.rejected || (p.posts x.follower.server).any Rpc.isRejection) :=
  List.any_append

theorem aes_followerReturned (f : RaftServer) (rest : List Rpc) (x : Exchange) :
    (x.followerReturned f rest).aes = x.aes + (f.posts x.primary.server).countP Rpc.isAe := List.countP_append

theorem rejected_followerReturned (f : RaftServer) (rest : List Rpc) (x : Exchange) :
    (x.followerReturned f rest).rejected = (x.rejected || (f.posts x.primary.server).any Rpc.isRejection) :=
  List.any_append

/-! ## What is on the way -/

section Steps

variable {c : Cluster} {log log₀ : List RpcEntry} {x y : Exchange} {p f : RaftServer} {n k : Nat}
  {ae : AppendEntryRpc}
  {resp : RespAppendEntryRpc} {rest : List Rpc}

/-- What holds of the two servers throughout. -/
structure Talks (c : Cluster) (log : List RpcEntry) (x : Exchange) : Prop where
  known : Known c x.primary.server x.primary
  member : x.primary.server ∈ c.configuration
  follower : x.follower.server ∈ c.configuration
  ranges : Ranges c x.primary
  primary : x.primary.state = .primary
  unchanged : x.primary.entries.log = log
  idle : x.primary.effects = []
  follower_idle : x.follower.effects = []
  applied : -1 ≤ x.follower.smc.appliedIndex
  timer : x.primary.retryTimers.find? x.follower.server ≠ none

/-- An AE for the entry at `n` is on the way. -/
structure Asked (log : List RpcEntry) (x : Exchange) (n : Nat) (ae : AppendEntryRpc) : Prop where
  inflight : x.inflight = [.appendEntry ae]
  built : ∃ y : RaftServer, BuiltAe y x.follower.server n ae ∧ y.entries.log = log ∧ y.commitIndex < log.length
  term : ae.term = x.primary.term
  server : ae.server = x.primary.server
  lsn : x.primary.currentRpcLsn.get x.follower.server = ae.lsn + 1
  next : x.primary.nextIndex.get x.follower.server = n
  term_le : x.follower.term ≤ ae.term
  not_primary : ¬ (x.follower.state = .primary ∧ x.follower.term = ae.term)
  new : (x.follower.becomeFollower ae.term).followerRpcLsn.get ae.server < ae.lsn

/-- A reply to the AE for the entry at `n` is on the way. -/
structure Answered (log : List RpcEntry) (x : Exchange) (n : Nat) (resp : RespAppendEntryRpc) : Prop where
  inflight : x.inflight = [.respAppend resp]
  server : resp.server = x.follower.server
  term : resp.term = x.primary.term
  lsn : x.primary.currentRpcLsn.get x.follower.server = resp.lsn + 1
  next : x.primary.nextIndex.get x.follower.server = n
  empty : resp.isEmptyAe = true ↔ n = log.length
  follower_term : x.follower.term = resp.term
  follower_state : x.follower.state = .follower
  follower_lsn : x.follower.followerRpcLsn.get x.primary.server = resp.lsn

/-- The primary takes a reply of a server of the cluster. -/
theorem Talks.primaryReturned (h : Talks c log x) (hmem : resp.server ∈ c.configuration)
    (hle : resp.term ≤ x.primary.term) (hp : x.primary.react2respAe resp = .ok p) :
    Talks c log (x.primaryReturned p rest) := by
  let packet : Packet := ⟨resp.server, x.primary.server, .respAppend resp, none, x.primary⟩
  have hout := RaftServer.react2respAe_outcome (p := packet) rfl hp
  obtain ⟨hstate, -, hserver, hentries⟩ := RaftServer.react2respAe_stays h.primary hle hp
  have hknown := hout.known h.known
  have hfrom : ∀ r ∈ Input.respAppend? (.message packet), r.server ∈ c.configuration := by
    simpa [Input.respAppend?, Input.call, packet] using hmem
  have hranges := hout.ranges h.known h.member hfrom h.idle h.ranges
  exact ⟨⟨rfl, hknown.configuration, hknown.majority⟩, (hserver ▸ h.member : p.server ∈ c.configuration),
    h.follower,
    hranges.taken, hstate, (congrArg Entries.log hentries).trans h.unchanged, rfl, h.follower_idle, h.applied,
    hout.timers.bound h.timer⟩

/-- The primary takes the reply without an exception. -/
theorem Answered.returns (h : Answered log x n resp) (ht : Talks c log x) (hpos : resp.ok = false → 0 < n) :
    ∃ p, x.primary.react2respAe resp = .ok p := by
  have hserver : resp.server ∈ c.configuration := h.server ▸ ht.follower
  have hdeal : x.primary.react2respAe resp = x.primary.primaryDealRespAeWithSameTerm resp.server resp := by
    have hterm := h.term
    unfold RaftServer.react2respAe
    rw [if_neg (by omega), if_neg (by omega), if_pos ht.primary]
  cases hp : x.primary.primaryDealRespAeWithSameTerm resp.server resp with
  | ok p => exact ⟨p, hdeal.trans hp⟩
  | error exn =>
    refine absurd hp (RaftServer.primaryDealRespAe_in (fun _ => ?_) (fun _ => h.server ▸ ht.timer)
      (ht.ranges.room ht.known hserver) ht.ranges.applied (ht.ranges.sendable ht.primary hserver)
      (ht.ranges.counting_lt ht.known ht.member ht.primary hserver))
    rw [h.server, h.next]
    cases hok : resp.ok with
    | true => exact .inl rfl
    | false =>
      have := hpos hok
      exact .inr (by omega)

/-- An AE the primary has sent just now. -/
theorem Talks.asked (ht : Talks c log (x.primaryReturned p []))
    (hposts : p.posts x.follower.server = [.appendEntry ae]) (hae : p.Sending x.follower.server n ae)
    (hle : x.follower.term ≤ p.term) (hnot : ¬ (x.follower.state = .primary ∧ x.follower.term = p.term))
    (hnew : (x.follower.becomeFollower p.term).followerRpcLsn.get p.server < ae.lsn) :
    Asked log (x.primaryReturned p []) n ae := by
  have hterm := hae.built.term
  have hcommit := ht.ranges.commit_hi
  refine ⟨hposts, ⟨p, hae.built, ht.unchanged, ?_⟩, hterm, hae.built.server, hae.lsn, hae.built.next, ?_, ?_, ?_⟩
  · rw [← ht.unchanged]
    exact hcommit
  · rw [hterm]
    exact hle
  · rw [hterm]
    exact hnot
  · rw [hterm, hae.built.server]
    exact hnew

/-- The primary goes on, or is done. -/
theorem Answered.deliver (h : Answered log x n resp) (ht : Talks c log x)
    (hp : x.primary.react2respAe resp = .ok p) :
    (x.primaryReturned p []).rejected = x.rejected ∧
      (resp.ok = true ∧ n = log.length ∧ (x.primaryReturned p []).inflight = [] ∧
        (x.primaryReturned p []).aes = x.aes ∧ p.nextIndex.get x.follower.server = log.length ∧
        p.followerSavedIndex.get x.follower.server = (log.length : Int) - 1 ∨
      ∃ m ae, Asked log (x.primaryReturned p []) m ae ∧ (x.primaryReturned p []).aes = x.aes + 1 ∧
        (resp.ok = true ∧ n < log.length ∧ m = n + 1 ∨ resp.ok = false ∧ m + 1 = n)) := by
  have hserver : resp.server ∈ c.configuration := h.server ▸ ht.follower
  have hle := Int.le_of_eq h.term
  have ht' : Talks c log (x.primaryReturned p []) := ht.primaryReturned hserver hle hp
  obtain ⟨-, hterm, hp_server, -⟩ := RaftServer.react2respAe_stays ht.primary hle hp
  have hsize := Entries.size_eq x.primary.entries
  have hnext := h.next
  have hlsn := h.lsn
  rw [ht.unchanged] at hsize
  rw [← h.server] at hnext hlsn
  have hfollower : x.follower.term = p.term := h.follower_term.trans (h.term.trans hterm.symm)
  -- the next AE is new to the follower
  have hasked : ∀ {m ae}, p.posts resp.server = [.appendEntry ae] → p.Sending resp.server m ae →
      ae.lsn = x.primary.currentRpcLsn.get resp.server → Asked log (x.primaryReturned p []) m ae := by
    intro m ae hposts hae hcur
    rw [h.server] at hposts hae
    refine ht'.asked hposts hae (Int.le_of_eq hfollower) (by simp [h.follower_state]) ?_
    rw [RaftServer.followerRpcLsn_same hfollower.symm, hp_server, h.follower_lsn]
    omega
  rw [aes_primaryReturned, rejected_primaryReturned, ← h.server]
  cases RaftServer.react2respAe_takes ht.idle h.term hlsn hp with
  | last hok hlast hn hsaved hposts =>
    rw [hposts]
    refine ⟨Bool.or_false _, .inl ⟨hok, by omega, ?_, rfl, by omega, by omega⟩⟩
    exact (congrArg p.posts h.server.symm).trans hposts
  | next hok hlt hm hposts hae hcur =>
    have hacked : x.primary.ackedIndex resp.server resp = n := by
      refine (if_neg ?_).trans hnext
      rw [h.empty]
      omega
    rw [hposts]
    exact ⟨Bool.or_false _, .inr ⟨_, _, hasked hposts hae hcur, rfl, .inl ⟨hok, by omega, by omega⟩⟩⟩
  | back hok hm hposts hae hcur =>
    rw [hposts]
    exact ⟨Bool.or_false _, .inr ⟨_, _, hasked hposts hae hcur, rfl, .inr ⟨hok, by omega⟩⟩⟩

/-- The follower throws for its commit index only. -/
theorem Asked.throws {exn : Exn} (h : Asked log x n ae) (ht : Talks c log x)
    (he : x.follower.react2ae ae = .error exn) :
    exn = .commitDecreases := by
  obtain ⟨y, hb, hlog, hcommit⟩ := h.built
  have hindex : ∀ entry, y.entries.log[n]? = some entry → entry.index = n := by
    rw [hlog, ← ht.unchanged]
    exact ht.ranges.indexed n
  rcases RaftServer.react2ae_honest ht.applied hb (by rw [hlog]; exact hcommit) hindex he with ⟨-, hnot⟩ | he
  · exact absurd hnot h.not_primary
  · exact he

theorem Talks.followerReturned (ht : Talks c log x) (hf : x.follower.react2ae ae = .ok f) :
    f.server = x.follower.server ∧ Talks c log (x.followerReturned f rest) := by
  let packet : Packet := ⟨x.primary.server, x.follower.server, .appendEntry ae, none, x.primary⟩
  have hout := RaftServer.react2ae_outcome (p := packet) rfl hf
  have hserver := hout.static.1
  refine ⟨hserver, ht.known, ht.member, (hserver ▸ ht.follower : f.server ∈ c.configuration), ht.ranges,
    ht.primary,
    ht.unchanged, ht.idle, rfl, ?_, (congrArg x.primary.retryTimers.find? hserver).trans_ne ht.timer⟩
  have happlied := ht.applied
  change -1 ≤ f.smc.appliedIndex
  rcases (hout.applied ht.follower_idle).smc with ⟨hs, -⟩ | hs
  · rwa [hs]
  · rw [hs]
    dsimp only
    omega

/-- The follower answers, and accepts the AE where the logs agree before its entry. -/
theorem Asked.deliver (h : Asked log x n ae) (ht : Talks c log x) (hf : x.follower.react2ae ae = .ok f) :
    ∃ resp, Answered log (x.followerReturned f []) n resp ∧ (x.followerReturned f []).aes = x.aes ∧
      (resp.ok = false ∧ (x.followerReturned f []).rejected = true ∧
        ¬ Repair.Accepts RpcEntry.term log x.follower.entries.log n ∧ f.entries.log = x.follower.entries.log ∨
      resp.ok = true ∧ (x.followerReturned f []).rejected = x.rejected ∧
        Repair.Accepts RpcEntry.term log x.follower.entries.log n ∧
        (n = log.length ∧ f.entries.log = x.follower.entries.log ∨
          ∃ entry, log[n]? = some entry ∧ f.entries.log = Truncating.insert x.follower.entries.log n entry)) := by
  obtain ⟨y, hb, hlog, hcommit⟩ := h.built
  have hserver := (@Talks.followerReturned _ _ _ _ _ [] ht hf).1
  obtain ⟨resp, hposts, hresp, hterm, hlsn, hempty, hans⟩ :=
    RaftServer.react2ae_answers ht.follower_idle h.term_le h.new hf
  rw [h.server] at hposts
  have hfollows : f.term = ae.term ∧ f.state = .follower ∧ f.followerRpcLsn.get ae.server = ae.lsn := by
    rcases hans with ⟨-, hr⟩ | ⟨-, ha⟩
    · exact ⟨hr.term, hr.state, hr.recorded⟩
    · exact ⟨ha.term, ha.state, ha.recorded⟩
  obtain ⟨hfterm, hfstate, hflsn⟩ := hfollows
  refine ⟨resp, ?_, ?_, ?_⟩
  · have hle := hb.le
    rw [hlog] at hle
    refine ⟨hposts, hresp.trans hserver.symm, hterm.trans h.term, ?_, ?_, ?_, hfterm.trans hterm.symm, hfstate, ?_⟩
    · rw [hlsn]
      exact (congrArg x.primary.currentRpcLsn.get hserver).trans h.lsn
    · exact (congrArg x.primary.nextIndex.get hserver).trans h.next
    · rw [hempty, AppendEntryRpc.isEmptyAe, hb.entry, hlog]
      cases hget : log[n]? with
      | none =>
        have := List.getElem?_eq_none_iff.mp hget
        simp
        omega
      | some entry =>
        have := (List.getElem?_eq_some_iff.mp hget).1
        simp
        omega
    · rw [hlsn, ← hflsn, h.server]
      rfl
  · rw [aes_followerReturned, hposts]
    rfl
  · rw [rejected_followerReturned, hposts, ← hb.accepts_iff hlog]
    rcases hans with ⟨hok, hr⟩ | ⟨hok, ha⟩
    · exact .inl ⟨hok, by simp [Rpc.isRejection, hok], hr.prelog, congrArg Entries.log hr.entries⟩
    · exact .inr ⟨hok, by simp [Rpc.isRejection, hok], ha.prelog, hb.accepted_log hlog ha.log⟩

/-! ## Where the exchange is -/

/-- The exchange after `k` deliveries: `log` is repaired over `log₀`. -/
inductive Phase (log log₀ : List RpcEntry) (k : Nat) (x : Exchange) : Prop
  | asked {n : Nat} {ae : AppendEntryRpc} (h : Asked log x n ae)
      (hs : Stage log log₀ n x.follower.entries.log x.aes x.rejected) (hk : k + 2 = 2 * x.aes)
  | going {n m : Nat} {resp : RespAppendEntryRpc} (h : Answered log x n resp)
      (hm : resp.ok = true ∧ n < log.length ∧ m = n + 1 ∨ resp.ok = false ∧ m + 1 = n)
      (hs : Stage log log₀ m x.follower.entries.log (x.aes + 1) x.rejected) (hk : k + 1 = 2 * x.aes)
  | last {resp : RespAppendEntryRpc} (h : Answered log x log.length resp) (hok : resp.ok = true)
      (hcopied : log <+: x.follower.entries.log ∧ (x.rejected = true → x.follower.entries.log = log))
      (haes : x.aes ≤ 2 * log.length + 1) (hk : k + 1 = 2 * x.aes)
  | done (h : Repaired log x) (hquiet : x.inflight = []) (haes : x.aes ≤ 2 * log.length + 1)

theorem Phase.aes_le (h : Phase log log₀ k x) : x.aes ≤ 2 * log.length + 1 := by
  cases h with
  | asked _ hs => exact hs.probes_le
  | going _ _ hs =>
    have := hs.probes_le
    omega
  | last _ _ _ haes => exact haes
  | done _ _ haes => exact haes

/-- The message on the way is taken, unless the follower throws for its commit index. -/
theorem Phase.throws {exn : Exn} (h : Phase log log₀ k x) (ht : Talks c log x) (he : x.deliver = .error exn) :
    exn = .commitDecreases := by
  unfold Exchange.deliver at he
  cases h with
  | asked h =>
    rw [h.inflight] at he
    exact h.throws ht (RaftServer.bind_return_error.mp he)
  | going h hm =>
    obtain ⟨p, hp⟩ := h.returns ht fun hok => by simp [hok] at hm; omega
    rw [h.inflight] at he
    exact absurd hp (by rw [RaftServer.bind_return_error.mp he]; nofun)
  | last h hok =>
    obtain ⟨p, hp⟩ := h.returns ht fun hno => by simp [hok] at hno
    rw [h.inflight] at he
    exact absurd hp (by rw [RaftServer.bind_return_error.mp he]; nofun)
  | done _ hquiet =>
    rw [hquiet] at he
    cases he

/-- **A delivery brings the exchange on.** -/
theorem Phase.deliver (h : Phase log log₀ k x) (ht : Talks c log x) (hm : Matching RpcEntry.term log log₀)
    (hy : x.deliver = .ok y) : Talks c log y ∧ Phase log log₀ (k + 1) y := by
  unfold Exchange.deliver at hy
  cases h with
  | @asked n ae h hs hk =>
    rw [h.inflight, Except.bind_eq_ok] at hy
    obtain ⟨f, hf, hy⟩ := hy
    cases hy
    refine ⟨(ht.followerReturned hf).2, ?_⟩
    obtain ⟨resp, hans, haes, hcases⟩ := h.deliver ht hf
    rcases hcases with ⟨hok, hrej, hnot, hlog⟩ | ⟨hok, hrej, ha, hlog⟩
    · obtain ⟨hpos, hs⟩ := hs.refuse hnot
      refine .going hans (.inr ⟨hok, Nat.sub_add_cancel hpos⟩) ?_ (by omega)
      rw [haes, hrej]
      exact hlog ▸ hs
    · rcases hlog with ⟨rfl, hlog⟩ | ⟨entry, hget, hlog⟩
      · refine .last hans hok ?_ (haes ▸ hs.probes_le) (by omega)
        rw [hrej]
        exact hlog ▸ hs.finish hm ha
      · refine .going hans (.inl ⟨hok, (List.getElem?_eq_some_iff.mp hget).1, rfl⟩) ?_ (by omega)
        rw [haes, hrej]
        exact hlog ▸ hs.accept hm ha hget
  | @going n m resp h hmove hs hk =>
    rw [h.inflight, Except.bind_eq_ok] at hy
    obtain ⟨p, hp, hy⟩ := hy
    cases hy
    refine ⟨ht.primaryReturned (h.server ▸ ht.follower) (Int.le_of_eq h.term) hp, ?_⟩
    obtain ⟨hrej, ⟨hok, hn, -⟩ | ⟨m', ae, hasked, haes, hmove'⟩⟩ := h.deliver ht hp
    · simp only [hok, hn, true_and, reduceCtorEq, false_and, or_false] at hmove
      omega
    · have hmm : m' = m := by
        rcases hmove with ⟨hok, -, hm₁⟩ | ⟨hok, hm₁⟩ <;> rcases hmove' with ⟨hok', -, hm₂⟩ | ⟨hok', hm₂⟩
        · omega
        · simp [hok] at hok'
        · simp [hok] at hok'
        · omega
      subst hmm
      refine .asked hasked ?_ (by omega)
      rw [haes, hrej]
      exact hs
  | @last resp h hok hcopied haes hk =>
    rw [h.inflight, Except.bind_eq_ok] at hy
    obtain ⟨p, hp, hy⟩ := hy
    cases hy
    have ht' : Talks c log (x.primaryReturned p []) :=
      ht.primaryReturned (h.server ▸ ht.follower) (Int.le_of_eq h.term) hp
    refine ⟨ht', ?_⟩
    obtain ⟨hrej, ⟨-, -, hquiet, haes', hnext, hsaved⟩ | ⟨m, ae, -, -, ⟨-, hlt, -⟩ | ⟨hno, -⟩⟩⟩ := h.deliver ht hp
    · refine .done ⟨ht'.unchanged, hcopied.1, hnext, hsaved, ?_⟩ hquiet (haes' ▸ haes)
      rw [hrej]
      exact hcopied.2
    · omega
    · simp [hok] at hno
  | done h hquiet haes =>
    rw [hquiet] at hy
    cases hy
    exact ⟨ht, .done h hquiet haes⟩

/-- Other followers do not disturb it. -/
theorem Phase.other (h : Phase log log₀ k x) (ht : Talks c log x) (hmem : resp.server ∈ x.primary.configuration)
    (hne : resp.server ≠ x.follower.server) (hle : resp.term ≤ x.primary.term)
    (hp : x.primary.react2respAe resp = .ok p) :
    Talks c log (x.primaryReturned p x.inflight) ∧ Phase log log₀ k (x.primaryReturned p x.inflight) := by
  have ht' : Talks c log (x.primaryReturned p x.inflight) :=
    ht.primaryReturned (ht.known.configuration ▸ hmem) hle hp
  obtain ⟨hnext, hsaved, hlsn, hposts⟩ := RaftServer.react2respAe_elsewhere ht.idle hle hp (Ne.symm hne)
  obtain ⟨-, hterm, hserver, -⟩ := RaftServer.react2respAe_stays ht.primary hle hp
  have hinflight : (x.primaryReturned p x.inflight).inflight = x.inflight :=
    (congrArg (x.inflight ++ ·) hposts).trans (List.append_nil _)
  have haes' : (x.primaryReturned p x.inflight).aes = x.aes := by
    rw [aes_primaryReturned, hposts]
    rfl
  have hrejected : (x.primaryReturned p x.inflight).rejected = x.rejected := by
    rw [rejected_primaryReturned, hposts]
    exact Bool.or_false _
  have hanswered : ∀ {n resp}, Answered log x n resp → Answered log (x.primaryReturned p x.inflight) n resp :=
      fun h =>
    ⟨hinflight.trans h.inflight, h.server, h.term.trans hterm.symm, hlsn.trans h.lsn, hnext.trans h.next, h.empty,
      h.follower_term, h.follower_state, (congrArg x.follower.followerRpcLsn.get hserver).trans h.follower_lsn⟩
  refine ⟨ht', ?_⟩
  cases h with
  | asked h hs hk =>
    refine .asked ⟨hinflight.trans h.inflight, h.built, h.term.trans hterm.symm, h.server.trans hserver.symm,
      hlsn.trans h.lsn, hnext.trans h.next, h.term_le, h.not_primary, h.new⟩ ?_ (by rwa [haes'])
    rw [haes', hrejected]
    exact hs
  | going h hm hs hk =>
    refine .going (hanswered h) hm ?_ (by rwa [haes'])
    rw [haes', hrejected]
    exact hs
  | last h hok hcopied haes hk =>
    refine .last (hanswered h) hok ?_ (by rwa [haes']) (by rwa [haes'])
    rw [hrejected]
    exact hcopied
  | done h hquiet haes =>
    refine .done ⟨ht'.unchanged, h.copied, hnext.trans h.next, hsaved.trans h.saved, ?_⟩ (hinflight.trans hquiet)
      (by rwa [haes'])
    rw [hrejected]
    exact h.equal

end Steps

/-! ## The start -/

/-- A candidate `s`, and a follower `f` that has not heard of a later term, nor
of another primary of this one, nor of the next lsn of `s`. -/
structure Opens (c : Cluster) (s f : RaftServer) : Prop where
  known : Known c s.server s
  member : s.server ∈ c.configuration
  follower : f.server ∈ s.others
  ranges : Ranges c s
  idle : s.effects = []
  follower_idle : f.effects = []
  applied : -1 ≤ f.smc.appliedIndex
  term_le : f.term ≤ s.term
  not_primary : ¬ (f.state = .primary ∧ f.term = s.term)
  new : (f.becomeFollower s.term).followerRpcLsn.get s.server < s.currentRpcLsn.get f.server

section Runs

variable {SM : Type} [StateMachine SM] {c : Cluster} {σ : System SM} {s f : Addr}

/-- **The servers of every run are such**, whatever votes the candidate has counted. -/
theorem opens_of_reachable (hr : Reachable c σ) (hs : s ∈ c.configuration) (hf : f ∈ (σ.raft s).others)
    (hle : (σ.raft f).term ≤ (σ.raft s).term)
    (hnot : ¬ ((σ.raft f).state = .primary ∧ (σ.raft f).term = (σ.raft s).term)) (votes : Int) :
    Opens c { σ.raft s with winnedVotes := votes } (σ.raft f) := by
  have hk := hr.wired.known s
  have hkf := hr.wired.known f
  obtain ⟨hindexed, hlo, hhi, happlied, hsmc, hkeys, hnext, hsaved⟩ := hr.ranges s
  have hmem : f ∈ c.configuration := hk.configuration ▸ List.mem_of_mem_filter hf
  refine ⟨⟨rfl, hk.configuration, hk.majority⟩, hk.server.symm ▸ hs, hkf.server.symm ▸ hf,
    ⟨hindexed, hlo, hhi, happlied, hsmc, hkeys, hnext, hsaved⟩, hr.wired.idle s, hr.wired.idle f,
      (hr.ranges f).applied,
    hle, hnot, ?_⟩
  have hcounts := hr.duplicating.counts hmem s
  change ((σ.raft f).becomeFollower (σ.raft s).term).followerRpcLsn.get (σ.raft s).server <
    (σ.raft s).currentRpcLsn.get (σ.raft f).server
  rw [hk.server, hkf.server, hcounts, RaftServer.becomeFollower_recorded (hkf.configuration ▸ hs) hle]
  split
  · rename_i heq
    rw [heq]
    exact hr.duplicating.heard_lt hs f hmem
  · omega

theorem matching_of_reachable (hr : Reachable c σ) (ho : Orderly σ.trace) (s f : Addr) :
    Matching RpcEntry.term (σ.raft s).entries.log (σ.raft f).entries.log :=
  fun _ _ ha _ hb hterm => (hr.lines ho s).agree (hr.lines ho f) ha hb hterm

end Runs

section Start

variable {c : Cluster} {s p f : RaftServer}

/-- The tables of a new primary are in range. -/
theorem ranges_becomePrimary (hk : Known c s.server s) (hs : s.server ∈ c.configuration) (h : Ranges c s) :
    Ranges c s.becomePrimary := by
  have hsize := Entries.size_eq s.entries
  have hkeys : (s.followerSavedIndex.setAll s.configuration (-1)).keys = c.configuration := by
    rw [StdMap.keys_setAll_of_mem _ (by rw [h.keys, hk.configuration]; exact fun _ h => h), h.keys]
  refine ⟨h.indexed, h.commit_lo, h.commit_hi, h.applied, h.smc, ?_, fun _ z hz => ?_, fun _ z hz => ?_⟩
  · rw [RaftServer.becomePrimary_followerSavedIndex, StdMap.keys_set_of_mem _ (by rwa [hkeys]), hkeys]
  · rw [RaftServer.becomePrimary_nextIndex, StdMap.get_setAll, if_pos (by rwa [hk.configuration])]
    simp only [RaftServer.becomePrimary_entries]
    omega
  · rw [RaftServer.becomePrimary_followerSavedIndex, StdMap.get_set, StdMap.get_setAll,
      if_pos (show z ∈ s.configuration by rwa [hk.configuration])]
    simp only [RaftServer.becomePrimary_entries]
    split <;> omega

theorem Opens.phase (h : Opens c s f) (hp : s.trans2P = .ok p) :
    Talks c s.entries.log (opened p f) ∧ Phase s.entries.log f.entries.log 0 (opened p f) := by
  have hnodup : s.configuration.Nodup := h.known.configuration ▸ c.nodup
  have hsent : SentAes s.becomePrimary s.others p := RaftServer.trans2P_ok hnodup hp
  obtain ⟨n, ae, hposts, hae, hlsn⟩ :=
    RaftServer.SentAes.posts hsent (hnodup.filter _) (RaftServer.posts_idle h.idle) h.follower
  obtain ⟨hf, -⟩ := List.mem_filter.mp h.follower
  have hn : n = s.entries.log.length := by
    have hnext := hae.built.next
    have hsize := Entries.size_eq s.entries
    obtain ⟨_, _, _, rfl⟩ := hsent.eq
    change s.becomePrimary.nextIndex.get f.server = n at hnext
    rw [RaftServer.becomePrimary_nextIndex, StdMap.get_setAll, if_pos hf] at hnext
    omega
  obtain ⟨hindexed, hlo, hhi, happlied, hsmc, hkeys, hnext, hsaved⟩ :=
    ranges_becomePrimary h.known h.member h.ranges
  have htimer : p.retryTimers.find? f.server ≠ none := RaftServer.waits_of_get (h := .AE f.server) <| by
    rw [hsent.rearmed.armed f.server h.follower]
    simp [RaftServer.rearmed, RaftServer.get_expiresAtMin]
  obtain ⟨cur, timers, effects, rfl⟩ := hsent.eq
  let p : RaftServer := { s.becomePrimary with currentRpcLsn := cur, retryTimers := timers, effects := effects }
  have ht : Talks c s.entries.log (opened p f) :=
    ⟨⟨rfl, h.known.configuration, h.known.majority⟩, h.member, h.known.configuration ▸ hf,
      ⟨hindexed, hlo, hhi, happlied, hsmc, hkeys, hnext, hsaved⟩, rfl, rfl, rfl, h.follower_idle, h.applied,
      htimer⟩
  subst hn
  refine ⟨ht, .asked (ht.asked hposts hae h.term_le h.not_primary (hlsn ▸ h.new)) ?_ ?_⟩
  · rw [opened, aes_primaryReturned, rejected_primaryReturned, hposts]
    exact .start
  · rw [opened, aes_primaryReturned, hposts]
    rfl

/-- A run never leaves the phases. -/
theorem Run.phase {x₀ x : Exchange} {log log₀ : List RpcEntry} {k : Nat} (hrun : Run x₀ k x) (ht : Talks c log x₀)
    (hm : Matching RpcEntry.term log log₀) (h : Phase log log₀ 0 x₀) : Talks c log x ∧ Phase log log₀ k x := by
  induction hrun with
  | start => exact ⟨ht, h⟩
  | deliver _ hy ih => exact ih.2.deliver ih.1 hm hy
  | other resp _ hmem hne hle hp ih => exact ih.2.other ih.1 hmem hne hle hp

/-- **Log repair terminates and converges.** -/
theorem log_repaired (h : Opens c s f) (hm : Matching RpcEntry.term s.entries.log f.entries.log)
    (hp : s.trans2P = .ok p) {k : Nat} {x : Exchange} (hrun : Run (opened p f) k x) :
    x.aes ≤ 2 * s.entries.log.length + 2 ∧ (∀ exn, x.deliver = .error exn → exn = .commitDecreases) ∧
      (4 * s.entries.log.length + 4 ≤ k → x.inflight = []) ∧ (x.inflight = [] → Repaired s.entries.log x) := by
  obtain ⟨ht, hphase⟩ := h.phase hp
  obtain ⟨ht, hphase⟩ := hrun.phase ht hm hphase
  have haes := hphase.aes_le
  refine ⟨by omega, fun exn => hphase.throws ht, fun hk => ?_, fun hquiet => ?_⟩
  · cases hphase with
    | done _ hquiet => exact hquiet
    | _ => omega
  · cases hphase with
    | done h => exact h
    | asked h => exact absurd (h.inflight.symm.trans hquiet) (List.cons_ne_nil _ _)
    | going h | last h => exact absurd (h.inflight.symm.trans hquiet) (List.cons_ne_nil _ _)

end Start

/-! ## A run of it -/

/-- `k` deliveries. -/
def deliverAll : Nat → Exchange → Except Exn Exchange
  | 0, x => .ok x
  | k + 1, x => do deliverAll k (← x.deliver)

theorem Run.deliverAll {x₀ : Exchange} : ∀ {k n : Nat} {x y : Exchange}, Run x₀ n x → deliverAll k x = .ok y →
    Run x₀ (n + k) y
  | 0, n, x, y, hrun, h => by
    cases h
    exact hrun
  | k + 1, n, x, y, hrun, h => by
    rw [Exchange.deliverAll, Except.bind_eq_ok] at h
    obtain ⟨x', hx', h⟩ := h
    have := Run.deliverAll (.deliver hrun hx') h
    rwa [Nat.add_assoc, Nat.add_comm 1 k] at this

theorem exists_run (x₀ : Exchange) (k : Nat) {P : Exchange → Prop} [DecidablePred P]
    (h : (deliverAll k x₀).toOption.any (fun x => decide (P x)) = true) : ∃ x, Run x₀ k x ∧ P x := by
  obtain ⟨x, hx, hP⟩ := (Option.any_eq_true _ _).mp h
  have hdeliver : deliverAll k x₀ = .ok x := by
    cases hd : deliverAll k x₀ with
    | error e => rw [hd] at hx; cases hx
    | ok y => rw [hd] at hx; cases hx; rfl
  exact ⟨x, by simpa using Run.deliverAll .start hdeliver, of_decide_eq_true hP⟩

/-- A holds an entry of term 2 where B holds one of term 1. -/
def candidateA : RaftServer :=
  { RaftServer.start serverA threeServers.configuration with
    term := 3
    state := .candidate
    winnedVotes := 2
    entries := .reloaded [⟨1, 0, "x"⟩, ⟨2, 1, "y"⟩]
    currentRpcLsn := StdMap.empty.setAll threeServers.configuration 1 }

/-- B has voted for A. -/
def followerB : RaftServer :=
  { RaftServer.start serverB threeServers.configuration with
    term := 3
    alreadyVoted := true
    entries := .reloaded [⟨1, 0, "x"⟩, ⟨1, 1, "z"⟩, ⟨1, 2, "w"⟩]
    followerRpcLsn := (StdMap.empty.setAll threeServers.configuration (-1)).set serverA 0 }

def primaryA : RaftServer := candidateA.trans2P.toOption.getD candidateA

theorem opens_candidateA : Opens threeServers candidateA followerB where
  known := ⟨rfl, rfl, rfl⟩
  member := by decide
  follower := by decide
  ranges :=
    { indexed := fun i entry h => by
        match i, h with
        | 0, h | 1, h => cases h; rfl
        | i + 2, h => cases h
      commit_lo := by decide
      commit_hi := by decide
      applied := by decide
      smc := rfl
      keys := StdMap.keys_setAll_empty _ threeServers.nodup
      next := fun h => by cases h
      saved := fun h => by cases h }
  idle := rfl
  follower_idle := rfl
  applied := by decide
  term_le := by decide
  not_primary := by decide
  new := by decide

/-- Below the end of B's log the two agree where their terms do. -/
theorem matching_candidateA : Matching RpcEntry.term candidateA.entries.log followerB.entries.log := by
  intro i a ha b hb hterm
  match i, ha, hb with
  | 0, _, _ => rfl
  | 1, ha, hb => cases ha; cases hb; cases hterm
  | i + 2, ha, _ => cases ha

theorem staleTail_repaired : ∃ x, Run (opened primaryA followerB) 12 x ∧ x.aes = 3 ∧ x.rejected = true ∧
    Repaired candidateA.entries.log x := by
  obtain ⟨x, hrun, haes, hrejected⟩ := exists_run (opened primaryA followerB) 12
    (P := fun x => x.aes = 3 ∧ x.rejected = true) (by decide +kernel)
  obtain ⟨-, -, hquiet, hrepaired⟩ := log_repaired opens_candidateA matching_candidateA rfl hrun
  exact ⟨x, hrun, haes, hrejected, hrepaired (hquiet (by decide))⟩

end Exchange

end MyRaft
