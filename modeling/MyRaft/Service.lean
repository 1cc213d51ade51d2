/-
A client that is served. Where a majority has brought its logs together, its
primary takes a command; the timers of the followers run out one after the
other and bring them the entry, and when the replies are back the primary has
committed it. Its worker runs the command, and the event loop tells the client
the result. No server outside the majority takes a step.
-/
import MyRaft.CatchUp

namespace MyRaft

open History
open StdLib (StdMap)
open Repair (Matching Stage)
open Exchange (Talks Phase Asked Answered Careful Heard)

/-! ## A call to another follower -/

namespace Exchange

variable {c : Cluster} {log log₀ : List RpcEntry} {k : Nat} {x : Exchange} {cur : StdMap Addr Int}
  {timers : StdMap Addr Timer}

/-- The primary has made calls to others. -/
def calling (cur : StdMap Addr Int) (timers : StdMap Addr Timer) (x : Exchange) : Exchange :=
  { x with primary := { x.primary with currentRpcLsn := cur, retryTimers := timers } }

theorem Talks.calling (h : Talks c log x) (htimer : timers.find? x.follower.server ≠ none) :
    Talks c log (x.calling cur timers) := by
  obtain ⟨hindexed, hlo, hhi, happlied, hsmc, hkeys, hnext, hsaved⟩ := h.ranges
  exact ⟨⟨h.known.server, h.known.configuration, h.known.majority⟩, h.member, h.follower,
    ⟨hindexed, hlo, hhi, happlied, hsmc, hkeys, hnext, hsaved⟩, h.primary, h.unchanged, h.idle,
      h.follower_idle, h.applied,
    htimer⟩

theorem Phase.calling (h : Phase log log₀ k x)
    (hcur : cur.get x.follower.server = x.primary.currentRpcLsn.get x.follower.server) :
    Phase log log₀ k (x.calling cur timers) := by
  have hanswered : ∀ {n resp}, Answered log x n resp → Answered log (x.calling cur timers) n resp := fun h =>
    ⟨h.inflight, h.server, h.term, hcur.trans h.lsn, h.next, h.empty, h.follower_term, h.follower_state,
      h.follower_lsn⟩
  cases h with
  | asked h hs hk =>
    exact .asked ⟨h.inflight, h.built, h.term, h.server, hcur.trans h.lsn, h.next, h.term_le, h.not_primary,
      h.new⟩ hs hk
  | going h hm hs hk => exact .going (hanswered h) hm hs hk
  | last h hok hcopied haes hk => exact .last (hanswered h) hok hcopied haes hk
  | done h hquiet haes => exact .done ⟨h.unchanged, h.copied, h.next, h.saved, h.equal⟩ hquiet haes

theorem Careful.calling (h : Careful log x) : Careful log (x.calling cur timers) :=
  ⟨h.supported, h.asked, h.accepted, h.rejected⟩

theorem Heard.calling (h : Heard log x)
    (htimers : timers.get x.follower.server = x.primary.retryTimers.get x.follower.server) :
    Heard log (x.calling cur timers) :=
  ⟨htimers.trans h.armed, h.entries, h.accepted, h.quiet⟩

/-! ## The last entry only -/

variable {p f : RaftServer} {ae : AppendEntryRpc} {entry : RpcEntry}

/-- A primary that has sent `f` the entry before the end of its log. The exchange
goes on from there as one does whose first AE was refused. -/
def resumed (p f : RaftServer) (ae : AppendEntryRpc) : Exchange :=
  (⟨p, f, [], [.appendEntry ae, .respAppend ⟨false, 0, 0, "", 0, false⟩]⟩ : Exchange).primaryReturned p []

theorem resumed_inflight (h : p.posts f.server = [.appendEntry ae]) :
    (resumed p f ae).inflight = [.appendEntry ae] := h

theorem resumed_phase (h : p.posts f.server = [.appendEntry ae])
    (hasked : Asked (log ++ [entry]) (resumed p f ae) log.length ae) :
    Phase (log ++ [entry]) f.entries.log 2 (resumed p f ae) := by
  have haes : (resumed p f ae).aes = 2 := by
    rw [resumed, aes_primaryReturned, h]
    rfl
  have hrejected : (resumed p f ae).rejected = true := by
    rw [resumed, rejected_primaryReturned]
    rfl
  refine .asked hasked ?_ (by rw [haes])
  rw [haes, hrejected]
  exact .down (by simp) (by simp; omega) (by simp)

/-- The follower has what is before the entry, has committed no more, and the primary knows. -/
theorem resumed_careful (h : p.posts f.server = [.appendEntry ae])
    (hasked : Asked (log ++ [entry]) (resumed p f ae) log.length ae) (hsupported : p.Supported)
    (hcommit : p.commitIndex = (log.length : Int) - 1) (hindex : ae.commitIndex = p.commitIndex)
    (hsaved : p.followerSavedIndex.get f.server = (log.length : Int) - 1) (hcopied : log <+: f.entries.log)
    (hbehind : f.commitIndex < log.length) : Careful (log ++ [entry]) (resumed p f ae) := by
  have hflies := resumed_inflight h
  have hnext : (resumed p f ae).next = log.length := hasked.next
  have hsaved : (resumed p f ae).saved = (log.length : Int) - 1 := hsaved
  refine ⟨hsupported, fun ae' hae => ?_, fun resp hresp => by simp [hflies] at hresp,
    fun resp hresp => by simp [hflies] at hresp⟩
  obtain rfl : ae' = ae := by simpa [hflies] using hae.symm
  have hle : f.commitIndex ≤ (log.length : Int) - 1 := by omega
  rw [hsaved, hnext]
  refine ⟨by omega, fun i hi hlt => ?_, hle, by rw [hindex, hcommit]; exact hle, Int.le_of_eq hindex⟩
  obtain ⟨tail, htail⟩ := hcopied
  show f.entries.log[i]? = _
  rw [← htail, List.getElem?_append_left (by omega), List.getElem?_append_left (by omega)]

end Exchange

theorem RaftServer.called_twice (x : RaftServer) (f : Addr) (m : Rpc) (timer timer' : Timer)
    (hidle : x.effects = []) :
    ({ x with retryTimers := x.retryTimers.set f timer }.called f m timer').taken =
      { x with
        currentRpcLsn := x.currentRpcLsn.set f (x.currentRpcLsn.get f + 1)
        retryTimers := (x.retryTimers.set f timer).set f timer' } := by
  simp only [called, taken, ← hidle]

section Runs

variable {SM : Type} [StateMachine SM] {c : Cluster} {log : List RpcEntry} {entry : RpcEntry} {σ σ' : System SM}
  {s f u client : Addr} {voters : List Addr}

/-- From `σ` to `σ'`, `s` has called `f`. -/
structure Calls (σ σ' : System SM) (s f : Addr) : Prop where
  raft : ∃ cur timers, σ'.raft s = { σ.raft s with currentRpcLsn := cur, retryTimers := timers } ∧
    ∀ u, u ≠ f → cur.get u = (σ.raft s).currentRpcLsn.get u ∧ timers.get u = (σ.raft s).retryTimers.get u
  nodes : ∀ u, u ≠ s → σ'.nodes u = σ.nodes u
  ready : (σ'.nodes s).ready = []
  stays : ∀ p ∈ σ.inflight, p ∈ σ'.inflight

/-- The exchanges with the others go on. -/
theorem Calls.copying {blank : Prop} {k : Nat} {x : Exchange} (h : Calls σ σ' s f)
    (hx : Copying c blank log σ s u k x) (hr : Reachable c σ') (hu : u ≠ s) (hne : u ≠ f)
    (hserver : (σ.raft u).server = u) :
    ∃ x', Copying c blank log σ' s u k x' ∧ x'.inflight = x.inflight := by
  obtain ⟨cur, timers, hraft, hothers⟩ := h.raft
  obtain ⟨hcur, htimers⟩ := hothers u hne
  obtain ⟨hplays, ht, ⟨log₀, hm, hphase⟩, hcareful, hheard⟩ := hx
  have hfollower : x.follower.server = u := by rw [hplays.follower, hserver]
  have hbound : timers.find? u ≠ none := by
    have htimer := hr.has_timer s (hfollower ▸ ht.follower : u ∈ c.configuration)
    rwa [hraft] at htimer
  rw [← hplays.primary] at hcur htimers hraft
  rw [← hfollower] at hcur htimers hbound
  refine ⟨x.calling cur timers, ⟨⟨hraft.symm, hplays.follower.trans (System.raft_eq (h.nodes u hu)).symm,
    fun ae hae => ?_, fun resp hresp => ?_⟩, ht.calling hbound, ⟨log₀, hm, hphase.calling hcur⟩,
      fun hb => (hcareful hb).calling,
    hheard.calling htimers⟩, rfl⟩
  · obtain ⟨p, hp, hdst⟩ := hplays.asked ae hae
    exact ⟨p, h.stays p hp, hdst⟩
  · obtain ⟨p, hp, hdst⟩ := hplays.answered resp hresp
    exact ⟨p, h.stays p hp, hdst⟩

omit [StateMachine SM] in
theorem Calls.upTo (h : Calls σ σ' s f) (hup : UpTo σ s u log) (hu : u ≠ s) (hne : u ≠ f) : UpTo σ' s u log := by
  obtain ⟨cur, timers, hraft, hothers⟩ := h.raft
  have hsame := System.raft_eq (h.nodes u hu)
  refine ⟨?_, ?_, ?_, ?_, ?_, ?_, ?_, ?_⟩
  · rw [hsame, hraft]
    exact hup.term
  · rw [hsame]
    exact hup.state
  · rw [hsame]
    exact hup.copied
  · rw [hsame, hraft]
    exact hup.entries
  · rw [hsame]
    exact hup.commit
  · rw [hraft]
    exact hup.next
  · rw [hraft]
    exact hup.saved
  · rw [hraft]
    exact (hothers u hne).2.trans hup.armed

/-! ## A command -/

/-- `s` leads, and has taken `entry` of `client` behind the entries of `log`, which are committed. -/
structure Appended (σ : System SM) (s : Addr) (log : List RpcEntry) (entry : RpcEntry) (client : Addr) : Prop where
  state : (σ.raft s).state = .primary
  unchanged : (σ.raft s).entries.log = log ++ [entry]
  made : entry.term = (σ.raft s).term
  client : (σ.raft s).entryIndexToSocketAddrMap.find? log.length = some client
  supported : (σ.raft s).Supported
  own : (σ.raft s).followerSavedIndex.get s = log.length
  commit : (σ.raft s).commitIndex = (log.length : Int) - 1
  idles : Idles σ s log

omit [StateMachine SM] in
theorem Calls.appended (h : Calls σ σ' s f) (hsub : Appended σ s log entry client) :
    Appended σ' s log entry client := by
  obtain ⟨cur, timers, hraft, -⟩ := h.raft
  obtain ⟨hstate, hlog, hmade, hclient, hsupported, hown, hcommit, hidles⟩ := hsub
  refine ⟨?_, ?_, ?_, ?_, ?_, ?_, ?_, ⟨?_, ?_, h.ready⟩⟩
  · rwa [hraft]
  · rwa [hraft]
  · rwa [hraft]
  · rwa [hraft]
  · rw [hraft]
    exact hsupported
  · rwa [hraft]
  · rwa [hraft]
  · rw [hraft]
    exact hidles.older
  · rw [hraft]
    exact hidles.applied

theorem Agreed.submit (h : Agreed σ s voters log) (hidles : Idles σ s log) (hr : Reachable c σ)
    (hs : s ∈ c.configuration) (hself : ∀ v ∈ voters, v ≠ s) (client : Addr) (body : String) :
    ∃ (f : Event) (rest : List Packet) (entry : RpcEntry), Reaches c [s] σ (σ.next f rest) ∧
      (f.server = s ∧ f.before.state = .primary ∧ f.input = .clientApply client body ∧ f.creates? = some entry) ∧
      entry.msg = body ∧ Appended (σ.next f rest) s log entry client ∧
      ∀ v ∈ voters, UpTo (σ.next f rest) s v log := by
  have hk := hr.wired.known s
  have hranges := hr.ranges s
  obtain ⟨y, hy⟩ : ∃ y, (σ.raft s).appendClientApplyToEntries client body = .ok y := by
    cases hy : (σ.raft s).appendClientApplyToEntries client body with
    | ok y => exact ⟨y, rfl⟩
    | error exn => exact absurd hy RaftServer.appendClientApplyToEntries_in
  obtain ⟨e, hst, rfl, hi, rfl⟩ := (System.Offers.clientApply (σ := σ) (s := s) client body).step hs hy
  obtain ⟨es, hes, hafter⟩ := RaftServer.appendClientApplyToEntries_ok hy
  have hraft : (σ.next e σ.inflight).raft e.server = e.after.taken := System.raft_next_self
  have hidle := hr.wired.idle e.server
  have hcreates : e.creates? = some ⟨(σ.raft e.server).term, log.length, body⟩ := by
    unfold Event.creates?
    rw [hi, Entries.size_eq, hst.before, h.unchanged]
  rw [h.unchanged] at hes hafter
  refine ⟨e, _, ⟨(σ.raft e.server).term, log.length, body⟩, hst.reaches,
    ⟨rfl, hst.before ▸ h.state, hi, hcreates⟩, rfl,
    ⟨?_, ?_, ?_, ?_, ?_, ?_, ?_, ⟨?_, ?_, ?_⟩⟩, fun v hv => ?_⟩
  · rw [hraft, hafter]
    exact h.state
  · rw [hraft, hafter]
    exact hes
  · rw [hraft, hafter]
    rfl
  · rw [hraft, hafter]
    simp [StdMap.find?_set]
  · rw [hraft, hafter]
    refine .inr ?_
    have hown := h.own
    exact RaftServer.le_majorityIndex_saved (a := (σ.raft e.server).server) ⟨rfl, hk.configuration, hk.majority⟩
      hranges.keys (hk.server.symm ▸ hs) (by rw [hk.server]; omega) (Int.le_of_eq h.recounted)
  · rw [hraft, hafter]
    simp [hk.server]
  · rw [hraft, hafter]
    exact h.commit
  · rw [hraft, hafter]
    exact hidles.older
  · rw [hraft, hafter]
    exact hidles.applied
  · simpa [System.nodes_next, Node.next, Node.take, hi] using hidles.ready
  · have hup := h.voters v hv
    have hne := hself v hv
    have hsame : (σ.next e σ.inflight).raft v = σ.raft v := System.raft_next_ne hne
    refine ⟨?_, ?_, ?_, ?_, ?_, ?_, ?_, ?_⟩
    · rw [hsame, hraft, hafter]
      exact hup.term
    · rw [hsame]
      exact hup.state
    · rw [hsame]
      exact hup.copied
    · rw [hsame, hraft, hafter]
      exact hup.entries
    · rw [hsame]
      exact hup.commit
    · rw [hraft, hafter]
      exact hup.next
    · rw [hraft, hafter]
      exact (StdMap.get_set_ne _ _ (hk.server.symm ▸ hne)).trans hup.saved
    · rw [hraft, hafter]
      exact hup.armed

/-! ## The entry on its way -/

/-- The reactor finds the deadline of the timer of `f` passed. -/
theorem UpTo.poll (h : UpTo σ s f log) (hr : Reachable c σ) (hs : s ∈ c.configuration)
    (hready : (σ.nodes s).ready = []) :
    ∃ σ' : System SM, Reaches c [s] σ σ' ∧
      σ'.raft s = { σ.raft s with retryTimers := (σ.raft s).retryTimers.set f ⟨false, []⟩ } ∧
      (σ'.nodes s).ready = [.AE f] ∧ (∀ u, u ≠ s → σ'.nodes u = σ.nodes u) ∧
      ∀ p ∈ σ.inflight, p ∈ σ'.inflight := by
  have htimer : (σ.raft s).retryTimers.get f = ⟨false, [.AE f]⟩ := h.armed
  have hfind : (σ.raft s).retryTimers.find? f = some ⟨false, [.AE f]⟩ := by
    rw [StdMap.find?_eq_get (RaftServer.waits_of_get (h := .AE f) (by rw [htimer]; simp)), htimer]
  have hpoll : (σ.raft s).poll [.retry f] =
      ([.AE f], { σ.raft s with retryTimers := (σ.raft s).retryTimers.set f ⟨false, []⟩ }) := by
    simp [RaftServer.poll, RaftServer.expire, hfind]
  obtain ⟨e, hst, rfl, hi, hafter⟩ := (System.Offers.poll [.retry f] hready).step hs rfl
  rw [hpoll] at hafter
  refine ⟨_, hst.reaches, ?_, ?_, fun u hu => ?_, fun p hp => List.mem_append_left _ hp⟩
  · rw [System.raft_next_self, hafter]
    simp only [RaftServer.taken, ← hr.wired.idle e.server]
  · simp [System.nodes_next, Node.next, Node.take, hi, hready,
      show (σ.nodes e.server).raft = σ.raft e.server from rfl, hpoll]
  · rw [System.nodes_next, if_neg hu]

/-- Its handler sends the next AE. -/
theorem UpTo.retry (h : UpTo σ s f log) (hr : Reachable c σ) (hs : s ∈ c.configuration)
    (hstate : (σ.raft s).state = .primary) (hready : (σ.nodes s).ready = []) :
    ∃ (σ' : System SM) (y : RaftServer) (ae : AppendEntryRpc), Reaches c [s] σ σ' ∧ Calls σ σ' s f ∧
    σ'.raft s = y.taken ∧
      y.posts f = [.appendEntry ae] ∧ y.Sending f log.length ae ∧ y.Armed f ∧
      ae.lsn = (σ.raft s).currentRpcLsn.get f ∧
      ∃ p ∈ σ'.inflight, p.dst = f ∧ p.rpc = .appendEntry ae := by
  obtain ⟨σ₁, hreach₁, hraft₁, hready₁, hnodes₁, hstays₁⟩ := h.poll hr hs hready
  have hr₁ := hreach₁.reachable hr
  have hidle := hr.wired.idle s
  have hget₁ : (σ₁.raft s).retryTimers.get f = ⟨false, []⟩ := by
    rw [hraft₁]
    exact StdMap.get_set_self _ _ _
  have hbound₁ : (σ₁.raft s).retryTimers.find? f ≠ none := by
    rw [hraft₁]
    simp [StdMap.find?_set]
  obtain ⟨y, hy⟩ := RaftServer.AE_total (hr₁.sendable (by rw [hraft₁]; exact hstate) f) hbound₁ (by rw [hget₁])
  have hhandle : (σ₁.raft s).handle (.timer (.AE f)) = .ok y := by
    simp [RaftServer.handle, RaftServer.onExpire, hget₁, hy]
  obtain ⟨e, hst, rfl, hi, rfl⟩ := (System.Offers.timer hready₁).step hs hhandle
  obtain ⟨n, ae, hb, hlsn, -, hafter⟩ := RaftServer.AE_ok hy
  have hraft : (σ₁.next e σ₁.inflight).raft e.server = e.after.taken := System.raft_next_self
  have hn : n = log.length := by
    have hnext := hb.next
    rw [hraft₁] at hnext
    exact Int.ofNat_inj.mp (hnext.symm.trans h.next)
  subst hn
  have heffects : e.after.effects = [.rpc f (.appendEntry ae)] := by
    rw [hafter, RaftServer.called_effects, hr₁.wired.idle, List.nil_append]
  have hcalls : Calls σ (σ₁.next e σ₁.inflight) e.server f := by
    refine ⟨⟨(σ.raft e.server).currentRpcLsn.set f ((σ.raft e.server).currentRpcLsn.get f + 1),
      ((σ.raft e.server).retryTimers.set f ⟨false, []⟩).set f ⟨false, [.AE f]⟩, ?_, fun u hu => ⟨?_, ?_⟩⟩,
      fun u hu => ?_, ?_,
      fun p hp => List.mem_append_left _ (hstays₁ p hp)⟩
    · rw [hraft, hafter, hraft₁]
      exact RaftServer.called_twice _ _ _ _ _ hidle
    · exact StdMap.get_set_ne _ _ hu
    · rw [StdMap.get_set_ne _ _ hu, StdMap.get_set_ne _ _ hu]
    · rw [System.nodes_next, if_neg hu, hnodes₁ u hu]
    · simp [System.nodes_next, Node.next, Node.take, hi, hready₁]
  refine ⟨_, e.after, ae, hreach₁.trans hst.reaches, hcalls, hraft, ?_, ⟨?_, ?_⟩, ?_, ?_, ?_⟩
  · simp [RaftServer.posts, heffects, Effect.rpcTo?]
  · rw [hafter]
    exact ⟨hb.next, hb.le, hb.term, hb.commitIndex, hb.server, hb.prelogIndex, hb.prelogTerm, hb.entry⟩
  · rw [hafter, RaftServer.called_currentRpcLsn, StdMap.get_set_self, hlsn]
  · rw [RaftServer.Armed, hafter, RaftServer.called_retryTimers, StdMap.get_set_self]
  · rw [hlsn, hraft₁]
  · exact ⟨⟨e.server, f, .appendEntry ae, e.input.call, e.after⟩,
      List.mem_append_right _ (Event.mem_packets.mpr ⟨by simp [Event.effects, heffects], rfl, rfl, rfl⟩), rfl, rfl⟩

omit [StateMachine SM] in
/-- Its log is the follower's up to the entry it has made in its own term. -/
theorem Appended.matching (h : Appended σ s log entry client) (hup : UpTo σ s f log) :
    Matching RpcEntry.term (log ++ [entry]) (σ.raft f).entries.log := by
  intro i a ha b hb hterm
  have hlength := hup.copied.length_le
  by_cases hi : i < log.length
  · obtain ⟨tail, htail⟩ := hup.copied
    rw [← htail, List.take_append_of_le_length hi, List.take_append_of_le_length hi]
  · -- the follower has no entry of the term
    rw [List.getElem?_append_right (by omega)] at ha
    obtain rfl : a = entry := List.mem_singleton.mp (List.mem_of_getElem? ha)
    have hmade := h.made
    rcases hup.entries b (List.mem_of_getElem? hb) with hold | hlt
    · have := h.idles.older b hold
      omega
    · omega

/-- The entry is on its way to `f`: the exchange goes on as one does after a
refusal, from the entry before the end. -/
theorem Appended.call (h : Appended σ s log entry client) (hup : UpTo σ s f log) (hr : Reachable c σ)
    (hs : s ∈ c.configuration) (hf : f ∈ c.configuration) (hport : f.port ≠ s.port) :
    ∃ σ' : System SM, Reaches c [s] σ σ' ∧ Calls σ σ' s f ∧
      ∃ k x, Copying c True (log ++ [entry]) σ' s f k x ∧ x.inflight ≠ [] := by
  obtain ⟨σ', y, ae, hreach, hcalls, hraft, hposts, hsending, harmed, hlsn, hpacket⟩ :=
    hup.retry hr hs h.state h.idles.ready
  have hr' := hreach.reachable hr
  have hne : f ≠ s := fun he => hport (by rw [he])
  have hsub := hcalls.appended h
  have hk := hr'.wired.known s
  have hkf := (hr.wired.known f).server
  have hranges := hr'.ranges s
  have hstate := hsub.state
  have hlog := hsub.unchanged
  have hsupported := hsub.supported
  have hcommit := hsub.commit
  have htimer := hr'.has_timer s hf
  rw [hraft] at hk hranges hstate hlog hsupported hcommit htimer
  obtain ⟨_, _, hframe, -⟩ := hcalls.raft
  rw [hraft] at hframe
  have hterm : y.term = (σ.raft s).term := congrArg (·.term) hframe
  have hserver : y.server = (σ.raft s).server := congrArg (·.server) hframe
  have hsaved : y.followerSavedIndex = (σ.raft s).followerSavedIndex := congrArg (·.followerSavedIndex) hframe
  have hother : f ∈ (σ.raft s).others := List.mem_filter.mpr ⟨by rw [(hr.wired.known s).configuration]; exact hf,
    by rw [(hr.wired.known s).server]; exact decide_eq_true hport⟩
  have hopens := Exchange.opens_of_reachable hr hs hother (Int.le_of_eq hup.term) (by simp [hup.state]) 0
  have hnew : ((σ.raft f).becomeFollower (σ.raft s).term).followerRpcLsn.get (σ.raft s).server <
      (σ.raft s).currentRpcLsn.get (σ.raft f).server := hopens.new
  rw [hkf, ← hlsn, ← hterm, ← hserver] at hnew
  have hsent : y.posts (σ.raft f).server = [.appendEntry ae] := hkf.symm ▸ hposts
  have hflies := Exchange.resumed_inflight hsent
  have ht : Talks c (log ++ [entry]) (Exchange.resumed y (σ.raft f) ae) :=
    ⟨⟨rfl, hk.configuration, hk.majority⟩, hk.server.symm ▸ hs, hkf.symm ▸ hf, hranges, hstate, hlog, rfl,
      hr.wired.idle f, (hr.ranges f).applied, hkf.symm ▸ htimer⟩
  have hasked : Asked (log ++ [entry]) (Exchange.resumed y (σ.raft f) ae) log.length ae :=
    ht.asked hflies (hkf.symm ▸ hsending) (Int.le_of_eq (hup.term.trans hterm.symm)) (by simp [hup.state]) hnew
  refine ⟨σ', hreach, hcalls, 2, Exchange.resumed y (σ.raft f) ae, ⟨⟨hraft.symm,
    (System.raft_eq (hcalls.nodes f hne)).symm, fun ae' hae => ?_, fun resp hresp => ?_⟩, ht,
    ⟨_, h.matching hup, Exchange.resumed_phase hsent hasked⟩, fun _ => ?_, ⟨?_, fun entry' hmem => ?_, ?_, ?_⟩⟩,
    by simp [hflies]⟩
  · simp only [hflies, List.mem_singleton, Rpc.appendEntry.injEq] at hae
    exact hae ▸ hpacket
  · simp [hflies] at hresp
  · refine Exchange.resumed_careful hsent hasked hsupported hcommit hsending.built.commitIndex ?_ hup.copied
      hup.commit
    rw [hkf, hsaved, hup.saved]
  · show y.Armed (σ.raft f).server
    rwa [hkf]
  · rcases hup.entries entry' hmem with hold | hlt
    · exact .inl (List.mem_append_left _ hold)
    · exact .inr (lt_of_lt_of_eq hlt hterm.symm)
  · simp [hflies]
  · simp [hflies]

/-- The entry is on its way to all. -/
theorem Appended.call_all : ∀ {fs : List Addr} {σ : System SM}, Appended σ s log entry client → Reachable c σ →
    s ∈ c.configuration → fs.Nodup → (∀ f ∈ fs, (f ∈ c.configuration ∧ f.port ≠ s.port) ∧ UpTo σ s f log) →
    ∃ σ' : System SM, Reaches c [s] σ σ' ∧ Appended σ' s log entry client ∧
      (∀ f ∈ fs, ∃ k x, Copying c True (log ++ [entry]) σ' s f k x ∧ x.inflight ≠ []) ∧
      ∀ u, u ≠ s → u ∉ fs → ∀ j z, Copying c True (log ++ [entry]) σ s u j z →
        ∃ z', Copying c True (log ++ [entry]) σ' s u j z' ∧ z'.inflight = z.inflight
  | [], σ, h, _, _, _, _ => ⟨σ, .refl, h, nofun, fun _ _ _ _ z hz => ⟨z, hz, rfl⟩⟩
  | f :: fs, σ, h, hr, hs, hn, hfs => by
    obtain ⟨hnot, hn⟩ := List.nodup_cons.mp hn
    obtain ⟨⟨hf, hport⟩, hup⟩ := hfs f (by simp)
    have hne : f ≠ s := fun he => hport (by rw [he])
    obtain ⟨σ₁, hreach₁, hcalls, k, x, hx, hbusy⟩ := h.call hup hr hs hf hport
    have hr₁ := hreach₁.reachable hr
    have hrest : ∀ g ∈ fs, (g ∈ c.configuration ∧ g.port ≠ s.port) ∧ UpTo σ₁ s g log := fun g hg => by
      obtain ⟨hg_called, hg_up⟩ := hfs g (by simp [hg])
      exact ⟨hg_called, hcalls.upTo hg_up (fun he => hg_called.2 (by rw [he])) fun he => hnot (he ▸ hg)⟩
    obtain ⟨σ₂, hreach₂, hsub, hcopying, hothers⟩ := (hcalls.appended h).call_all hr₁ hs hn hrest
    refine ⟨σ₂, hreach₁.trans hreach₂, hsub, fun g hg => ?_, fun u hu hunot j z hz => ?_⟩
    · rcases List.mem_cons.mp hg with rfl | hg
      · obtain ⟨x', hx', hsame⟩ := hothers g hne hnot k x hx
        exact ⟨k, x', hx', hsame ▸ hbusy⟩
      · exact hcopying g hg
    · simp only [List.mem_cons, not_or] at hunot
      obtain ⟨z₁, hz₁, hsame₁⟩ := hcalls.copying hz hr₁ hu hunot.1 (hr.wired.known u).server
      obtain ⟨z₂, hz₂, hsame₂⟩ := hothers u hu hunot.2 j z₁ hz₁
      exact ⟨z₂, hz₂, hsame₂.trans hsame₁⟩

/-! ## The result -/

theorem Reachable.raft_next_same {e : Event} {rest : List Packet} (hr : Reachable c σ)
    (h : e.after.taken = (σ.raft e.server).taken) (u : Addr) : (σ.next e rest).raft u = σ.raft u := by
  rw [System.raft_next]
  split
  · rename_i hu
    rw [hu, h]
    simp only [RaftServer.taken, ← hr.wired.idle e.server]
  · rfl

theorem Reachable.work (hr : Reachable c σ) (hs : s ∈ c.configuration) {i : Int} {msg : String}
    {tasks : List (Int × String)} (hpool : (σ.nodes s).writePool = (i, msg) :: tasks) :
    ∃ (d : Event) (rest : List Packet), Reaches c [s] σ (σ.next d rest) ∧ d.server = s ∧ d.input = .work i msg ∧
      (∀ u, (σ.next d rest).raft u = σ.raft u) ∧ ((σ.next d rest).nodes s).writePool = tasks ∧
      .writeRespApplyCall i (StateMachine.apply (σ.nodes s).stateMachine msg).2 ∈
      ((σ.next d rest).nodes s).posted := by
  obtain ⟨e, hst, rfl, hi, hafter⟩ := (System.Offers.work hpool).step hs rfl
  have hidle : e.after.effects = [] := hafter ▸ hr.wired.idle e.server
  refine ⟨e, _, hst.reaches, rfl, hi, hr.raft_next_same (congrArg _ hafter), ?_, ?_⟩
  · simp [System.nodes_next, Node.next, Node.take, hi, hpool, Event.effects, hidle]
  · simp [System.nodes_next, Node.next, Node.take, hi]

/-- It gets to every task, when it has run those of the indexes before. -/
theorem Reachable.work_off (hr : Reachable c σ) (hs : s ∈ c.configuration) {n : Nat} {msg : String}
    (hmem : ((n : Int), msg) ∈ (σ.nodes s).writePool) :
    ∃ (σ' : System SM) (d : Event) (past : List Event), Reaches c [s] σ σ' ∧ (∀ u, σ'.raft u = σ.raft u) ∧
      σ.trace <:+ past ∧ d :: past <:+ σ'.trace ∧ d.server = s ∧ d.input = .work n msg ∧
      (runBy past s).length = n ∧
      .writeRespApplyCall n (StateMachine.apply (machineAt SM past s) msg).2 ∈ (σ'.nodes s).posted := by
  obtain ⟨pre, post, hpool⟩ := List.append_of_mem hmem
  clear hmem
  induction pre generalizing σ with
  | nil =>
    obtain ⟨d, rest, hreach, hserver, hi, hraft, -, hposted⟩ := hr.work hs hpool
    have hserved := hr.served s
    have hhanded : handedTo σ.trace s = runBy σ.trace s ++ ((n : Int), msg) :: post := by
      rw [hserved.writePool, hpool, List.nil_append]
    have hget : (handedTo σ.trace s)[(runBy σ.trace s).length]? = some ((n : Int), msg) := by simp [hhanded]
    have hn : (n : Int) = (runBy σ.trace s).length := hr.handed_index hget
    exact ⟨_, d, σ.trace, hreach, hraft, List.suffix_refl _, List.suffix_refl _, hserver, hi,
      (Int.ofNat_inj.mp hn).symm,
      hserved.stateMachine ▸ hposted⟩
  | cons task pre ih =>
    obtain ⟨d₁, rest, hreach₁, -, -, hraft₁, hpool₁, -⟩ := hr.work hs hpool
    obtain ⟨σ₂, d, past, hreach₂, hraft₂, hpast, hd⟩ := ih (hreach₁.reachable hr) hpool₁
    exact ⟨σ₂, d, past, hreach₁.trans hreach₂, fun u => (hraft₂ u).trans (hraft₁ u),
      hreach₁.trace_suffix.trans hpast, hd⟩

theorem Reachable.call_back (hr : Reachable c σ) (hs : s ∈ c.configuration) {cb : Callback} {cbs : List Callback}
    (hposted : (σ.nodes s).posted = cb :: cbs) :
    ∃ (e : Event) (rest : List Packet), Reaches c [s] σ (σ.next e rest) ∧ e.server = s ∧ e.input = .callback cb ∧
      (∀ u, (σ.next e rest).raft u = σ.raft u) ∧ ((σ.next e rest).nodes s).posted = cbs ∧
      (σ.raft s).handle (.callback cb) = .ok e.after := by
  obtain ⟨y, hy, hsame⟩ : ∃ y, (σ.raft s).handle (.callback cb) = .ok y ∧ y.taken = (σ.raft s).taken := by
    cases cb with
    | writeRespApplyCall i res =>
      refine ⟨_, rfl, ?_⟩
      unfold RaftServer.writeRespApplyCall
      split
      · split <;> rfl
      · rfl
    | writeRespQueryCall client res => exact ⟨_, rfl, rfl⟩
  obtain ⟨e, hst, rfl, hi, rfl⟩ := (System.Offers.callback hposted).step hs hy
  refine ⟨e, _, hst.reaches, rfl, hi, hr.raft_next_same hsame, ?_, hy⟩
  simp [System.nodes_next, Node.next, Node.take, hi, hposted]

theorem Reachable.tell (hr : Reachable c σ) (hs : s ∈ c.configuration) {i : Int} {res : String}
    (hmem : .writeRespApplyCall i res ∈ (σ.nodes s).posted) (hstate : (σ.raft s).state = .primary)
    (hclient : (σ.raft s).entryIndexToSocketAddrMap.find? i = some client) :
    ∃ (σ' : System SM) (e : Event) (past : List Event), Reaches c [s] σ σ' ∧ (∀ u, σ'.raft u = σ.raft u) ∧
      σ.trace <:+ past ∧ e :: past <:+ σ'.trace ∧ e.server = s ∧ e.input = .callback (.writeRespApplyCall i res) ∧
      ∃ p ∈ e.packets, p ∈ σ'.inflight ∧ p.dst = client ∧ p.rpc = .respClientApply res := by
  obtain ⟨pre, post, hposted⟩ := List.append_of_mem hmem
  clear hmem
  induction pre generalizing σ with
  | nil =>
    obtain ⟨e, rest, hreach, hserver, hi, hraft, -, hy⟩ := hr.call_back hs hposted
    have hsent : .rpc client (.respClientApply res) ∈ e.effects := by
      rw [Event.effects, ← Except.ok.inj hy]
      simp [RaftServer.writeRespApplyCall, hstate, hclient, RaftServer.makeRpcCall]
    have hp : (⟨e.server, client, .respClientApply res, e.input.call, e.after⟩ : Packet) ∈ e.packets :=
      Event.mem_packets.mpr ⟨hsent, rfl, rfl, rfl⟩
    exact ⟨_, e, σ.trace, hreach, hraft, List.suffix_refl _, List.suffix_refl _, hserver, hi, _, hp,
      List.mem_append_right _ hp, rfl, rfl⟩
  | cons cb pre ih =>
    obtain ⟨e₁, rest, hreach₁, -, -, hraft₁, hposted₁, -⟩ := hr.call_back hs hposted
    obtain ⟨σ₂, e, past, hreach₂, hraft₂, hpast, he⟩ :=
      ih (hreach₁.reachable hr) (by rwa [hraft₁]) (by rwa [hraft₁]) hposted₁
    exact ⟨σ₂, e, past, hreach₁.trans hreach₂, fun u => (hraft₂ u).trans (hraft₁ u),
      hreach₁.trace_suffix.trans hpast, he⟩

theorem Reachable.commit_applied (hr : Reachable c σ) (s : Addr) :
    (σ.raft s).commitIndex ≤ (σ.raft s).smc.appliedIndex := by
  refine hr.invariant (I := fun σ => ∀ s, (σ.raft s).commitIndex ≤ (σ.raft s).smc.appliedIndex)
    (fun s => Int.le_refl _) ?_ s
  intro σ e rest hr hst ih s
  rw [System.raft_next]
  split
  · have hx := ih e.server
    rw [← hst.before] at hx
    rcases ((hst.outcome hr).applied (hst.idle hr)).smc with ⟨hsmc, hcommit⟩ | hsmc
    · simpa [hsmc, hcommit] using hx
    · simp [hsmc]
  · exact ih s

/-- The command that was taken is committed, and waits for the worker of `s`. -/
theorem Appended.commits (h : Appended σ s log entry client) (hr : Reachable c σ) (hs : s ∈ c.configuration)
    (hvoters : voters.Nodup) (hcalled : ∀ v ∈ voters, v ∈ c.configuration ∧ v.port ≠ s.port) (hne : voters ≠ [])
    (hmajority : c.configuration.length / 2 ≤ voters.length) (hup : ∀ v ∈ voters, UpTo σ s v log) :
    ∃ σ' : System SM, Reaches c (s :: voters) σ σ' ∧ Agreed σ' s voters (log ++ [entry]) ∧
      ((log.length : Int), entry.msg) ∈ (σ'.nodes s).writePool ∧
      (σ'.raft s).entryIndexToSocketAddrMap.find? log.length = some client := by
  have hnodup : (s :: voters).Nodup := List.nodup_cons.mpr ⟨fun hin => (hcalled s hin).2 rfl, hvoters⟩
  obtain ⟨σ₁, hreach₁, hsub, hcopying, -⟩ := h.call_all hr hs hvoters fun v hv => ⟨hcalled v hv, hup v hv⟩
  have hr₁ := hreach₁.reachable hr
  obtain ⟨σ₂, hreach₂, ⟨hfalse, -⟩ | ⟨hdone, hrec, hspares⟩⟩ :=
    Copying.finish_all hnodup hr₁ hs fun v hv => ⟨(hcalled v hv).1, hcopying v hv⟩
  · exact absurd trivial hfalse
  have hr₂ := hreach₂.reachable hr₁
  have hattends := hspares.attends
  have hagreed : Agreed σ₂ s voters (log ++ [entry]) := by
    refine hr₂.agreed hs hnodup (fun v hv => (hcalled v hv).1) hne hmajority hdone (hrec hne) ?_
    rw [hspares.saved, hsub.own]
    simp
  -- the task of the new index was handed over since, for the entry
  have hcommit := hagreed.commit
  have happlied := hr₂.commit_applied s
  rw [List.length_append, List.length_singleton] at hcommit
  obtain ⟨task, hget⟩ := hr₂.exists_handed (s := s) (n := log.length) (by omega)
  have hindex := hr₂.handed_index hget
  have hnew : task ∉ handedTo σ₁.trace s := fun hold => by
    have := hr₁.handed_le hold
    have := hsub.idles.applied
    omega
  obtain ⟨n, entry', rfl, hentry⟩ := (hattends.handed task (List.mem_of_getElem? hget)).resolve_left hnew
  obtain rfl : n = log.length := Int.ofNat_inj.mp hindex
  obtain rfl : entry = entry' := by simpa using hentry
  have hmem := List.mem_of_getElem? hget
  rw [(hr₂.served s).writePool, hattends.ran] at hmem
  refine ⟨σ₂, (hreach₁.mono (by simp)).trans hreach₂, hagreed, ?_, by rw [hattends.clients, hsub.client]⟩
  refine (List.mem_append.mp hmem).resolve_left fun hran => hnew ?_
  rw [(hr₁.served s).writePool]
  exact List.mem_append_left _ hran

/-- From `σ` to `σ'`, `s` becomes primary and serves a client: `f` takes the command and makes `entry` of it, the
servers of `voters` come to hold the log of `s` with it, and it is committed; `d` runs the command, after as many
others as there are entries before it, and `e` sends the client the result. -/
structure Serves (σ σ' : System SM) (s : Addr) (voters : List Addr) (client : Addr) (body : String) : Prop where
  state : (σ'.raft s).state = .primary
  served : ∃ (f d e : Event) (past ran told : List Event) (entry : RpcEntry),
    (σ.trace <:+ past ∧ f :: past <:+ ran ∧ d :: ran <:+ told ∧ e :: told <:+ σ'.trace) ∧
    (f.server = s ∧ f.before.state = .primary ∧ f.input = .clientApply client body ∧ f.creates? = some entry) ∧
    (σ'.raft s).entries.log = (σ.raft s).entries.log ++ [entry] ∧
    (∀ v ∈ voters, (σ.raft s).entries.log ++ [entry] <+: (σ'.raft v).entries.log) ∧
    (σ'.raft s).commitIndex = entry.index ∧
    (d.server = s ∧ d.input = .work entry.index body ∧ (runBy ran s).length = (σ.raft s).entries.log.length) ∧
    e.server = s ∧
    e.input = .callback (.writeRespApplyCall entry.index (StateMachine.apply (machineAt SM ran s) body).2) ∧
    ∃ p ∈ e.packets, p ∈ σ'.inflight ∧ p.dst = client ∧
      p.rpc = .respClientApply (StateMachine.apply (machineAt SM ran s) body).2

/-- **A majority can always serve a client**, of two servers or more: any of its
servers whose election is pending, with nothing else queued in its reactor, and
which has applied nothing past its log, has a run ahead, of the majority alone,
in which it becomes primary, takes the command, sees it in the logs of the
majority behind its own entries, commits it, runs it when it has run the tasks
before and sends the client the result. It can end otherwise only as in
`majority_catches_up`. -/
theorem client_served (hr : Reachable c σ) (ho : Orderly σ.trace) (hs : s ∈ c.configuration) (h : Pending σ s)
    (hvoters : voters.Nodup) (hcalled : ∀ v ∈ voters, v ∈ c.configuration ∧ v.port ≠ s.port) (hne : voters ≠ [])
    (hmajority : c.configuration.length / 2 ≤ voters.length)
    (happlied : (σ.raft s).smc.appliedIndex < (σ.raft s).entries.log.length) (client : Addr) (body : String) :
    ∃ σ' : System SM, Reaches c (s :: voters) σ σ' ∧
      ((∃ a ∈ s :: voters, (σ.raft a).commitIndex ≠ -1) ∧ (∃ v ∈ voters, Crashes σ' v) ∨
      Serves σ σ' s voters client body) := by
  obtain ⟨σ₁, hreach₁, hcrash | ⟨hagreed, hidles⟩⟩ := h.agrees hr ho hs hvoters hcalled hne hmajority
  · exact ⟨σ₁, hreach₁, .inl hcrash⟩
  have hr₁ := hreach₁.reachable hr
  have hself : ∀ v ∈ voters, v ≠ s := fun v hv he => (hcalled v hv).2 (by rw [he])
  obtain ⟨f, rest, entry, hreach₂, htaken, hbody, hsub, hup⟩ :=
    hagreed.submit (hidles happlied) hr₁ hs hself client body
  have hr₂ := hreach₂.reachable hr₁
  obtain ⟨σ₃, hreach₃, hdone, htask, hclient⟩ := hsub.commits hr₂ hs hvoters hcalled hne hmajority hup
  have hr₃ := hreach₃.reachable hr₂
  obtain ⟨σ₄, d, ran, hreach₄, hraft₄, hran, hd, hdserver, hdinput, hlength, hposted⟩ := hr₃.work_off hs htask
  have hr₄ := hreach₄.reachable hr₃
  obtain ⟨σ₅, e, told, hreach₅, hraft₅, htold, he, heserver, heinput, hsent⟩ :=
    hr₄.tell hs hposted (by rw [hraft₄]; exact hdone.state) (by rw [hraft₄]; exact hclient)
  have hraft : ∀ u, σ₅.raft u = σ₃.raft u := fun u => (hraft₅ u).trans (hraft₄ u)
  have hreach : Reaches c (s :: voters) σ σ₅ :=
    (hreach₁.trans (hreach₂.mono (by simp))).trans (hreach₃.trans ((hreach₄.trans hreach₅).mono (by simp)))
  have hindex : entry.index = (σ.raft s).entries.log.length :=
    (hr₂.ranges s).indexed _ entry (by rw [hsub.unchanged, List.getElem?_concat_length])
  rw [hbody] at hdinput hsent heinput
  rw [← hindex] at hdinput heinput
  refine ⟨σ₅, hreach, .inr ⟨?_, f, d, e, σ₁.trace, ran, told, entry,
    ⟨hreach₁.trace_suffix, hreach₃.trace_suffix.trans hran, hd.trans htold, he⟩, htaken, ?_, fun v hv => ?_, ?_,
    ⟨hdserver, hdinput, hlength⟩, heserver, heinput, hsent⟩⟩
  · rw [hraft]
    exact hdone.state
  · rw [hraft]
    exact hdone.unchanged
  · rw [hraft]
    exact (hdone.voters v hv).copied
  · rw [hraft, hdone.commit, hindex]
    simp

end Runs

/-- The client asks B for "y" behind the entry of A, which B has and C gets. -/
theorem copyX_served : ∃ σ : System Unit, (σ.raft serverB).entries.log.length = 1 ∧
    (σ.raft serverC).entries.log = [] ∧ ∃ σ' : System Unit, Reaches threeServers [serverB, serverC] σ σ' ∧
      2 ≤ (σ'.raft serverC).entries.log.length ∧ Serves σ σ' serverB [serverC] client "y" := by
  obtain ⟨σ, hr, ho, hlog, hempty, hcommit, hready, hwaits, happlied⟩ := System.exists_reachable threeServers copyX
    (P := fun σ : System Unit => (OnePrimary σ.trace ∧ Along ApplyAtPrimary σ.trace) ∧
      (σ.raft serverB).entries.log.length = 1 ∧ (σ.raft serverC).entries.log = [] ∧
      (∀ a ∈ [serverB, serverC], (σ.raft a).commitIndex = -1) ∧
      (σ.nodes serverB).ready = [] ∧ (σ.raft serverB).candidateTimer.waits ≠ [] ∧
      (σ.raft serverB).smc.appliedIndex = -1) (by decide +kernel)
  obtain ⟨σ', hreach, hend⟩ := client_served hr ⟨ho.1, ho.2⟩ (by decide) ⟨hready, hwaits⟩
    (show [serverC].Nodup by decide) (by decide) (by decide) (by decide) (by omega) client "y"
  rcases hend with ⟨⟨a, ha, hne⟩, -⟩ | hserves
  · exact absurd (hcommit a ha) hne
  · obtain ⟨f, d, e, past, ran, told, entry, -, -, -, hcopied, -⟩ := hserves.served
    have hlength := (hcopied serverC (by simp)).length_le
    rw [List.length_append, List.length_singleton] at hlength
    exact ⟨σ, hlog, hempty, σ', hreach, by omega, hserves⟩

end MyRaft
