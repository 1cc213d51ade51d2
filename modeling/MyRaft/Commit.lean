/-
Commit indexes. A primary computes its commit index anew from
`Follower_saved_index`, and `trans2P` has forgotten what the followers hold: the
index falls when too few of them have answered since. A follower takes the
commit index of any primary of its term, and a new primary may know of less
than the follower does.
-/
import MyRaft.Indexes

namespace MyRaft

open History
open StdLib (StdMap)
open RaftServer (Outcome PrelogOk AcceptedLog)

/-! ## The primary -/

namespace RaftServer

variable {x y : RaftServer}

/-- A counted reply announces the index that the majority holds. -/
theorem react2respAe_counts {resp : RespAppendEntryRpc} (ht : TakesReply x resp) (hok : resp.ok = true)
    (h : x.react2respAe resp = .ok y) :
    .committed (x.counting resp.server resp).majorityIndex ∈ y.effects := by
  have hterm := ht.term
  unfold react2respAe at h
  rw [if_neg (by omega), if_neg (by omega), if_pos ht.state] at h
  rcases primaryDealRespAeWithSameTerm_ok h with ⟨hlsn, -⟩
    | ⟨-, ⟨-, hnext, h⟩ | ⟨-, hnext, t, timer, hu, -, h⟩ | ⟨hnok, -⟩⟩
  · exact absurd ht.lsn hlsn
  · have ha : Acked x resp.server resp _ := acked_of_last hnext h
    obtain ⟨_, tasks, -, -, rfl⟩ := ha.frame
    simp
  · obtain ⟨_, tasks, -, -, rfl⟩ := (acked_of_update hnext hu).frame
    obtain ⟨_, -, hc⟩ := AE_sent h
    obtain ⟨_, _, rfl⟩ := hc.frame
    simp
  · rw [hok] at hnok
    cases hnok

end RaftServer

/-- An `ok` reply is counted only where a majority holds the commit index. -/
def MajorityCovers (_ : List Event) (e : Event) : Prop :=
  ∀ resp ∈ e.input.respAppend?, TakesReply e.before resp → resp.ok = true →
    (e.before.counting resp.server resp).MajorityHolds e.before.commitIndex

instance (past : List Event) (e : Event) : Decidable (MajorityCovers past e) :=
  inferInstanceAs (Decidable (∀ resp ∈ e.input.respAppend?, TakesReply e.before resp → resp.ok = true →
    (e.before.counting resp.server resp).MajorityHolds e.before.commitIndex))

/-- No primary lowers its commit index, and no server has applied more than it has committed. -/
def CommitGrows (trace : List Event) : Prop :=
  ∀ e ∈ trace, (∀ k, .committed k ∈ e.effects → e.before.commitIndex ≤ k) ∧
    e.after.smc.appliedIndex ≤ e.after.smc.commitIndex

section Runs

variable {SM : Type} [StateMachine SM] {c : Cluster} {σ : System SM} {e : Event} {rest : List Packet} {p : Packet}
  {resp : RespAppendEntryRpc}

theorem Step.le_counting_iff (hr : Reachable c σ) (h : Step c σ e rest) (hs : resp.server ∈ c.configuration)
    {k : Int} :
    k ≤ (e.before.counting resp.server resp).majorityIndex ↔
      (e.before.counting resp.server resp).MajorityHolds k := by
  have hk := h.known_before hr
  have hkeys := (h.ranges_before hr).keys
  refine RaftServer.le_majorityIndex_iff ?_ ?_ ?_
  · rw [RaftServer.counting, RaftServer.saved_followerSavedIndex, StdMap.keys_set_of_mem _ (by rwa [hkeys]), hkeys]
    exact .of_eq hk.configuration.symm
  · rw [RaftServer.counting, RaftServer.saved_majority, RaftServer.saved_configuration, hk.majority,
      hk.configuration]
  · rw [RaftServer.counting, RaftServer.saved_configuration, hk.configuration]
    exact List.ne_nil_of_mem hs

/-- What a primary commits it commits for a reply. -/
theorem Step.committed (hr : Reachable c σ) (h : Step c σ e rest) {k : Int} (hk : .committed k ∈ e.effects) :
    k = e.after.commitIndex ∧ ∃ resp ∈ e.input.respAppend?, resp.server ∈ c.configuration ∧
      TakesReply e.before resp ∧ resp.ok = true ∧ k = (e.before.counting resp.server resp).majorityIndex := by
  obtain ⟨hcommit, hi, hp, hx, hresp, hlsn, hok, -, hm, -⟩ := ((h.outcome hr).applied (h.idle hr)).committed hk
  exact ⟨hcommit, _, Input.mem_respAppend?.mpr ⟨_, hi, hp⟩, h.respAppend_server hr hi hp, ⟨hx, hresp, hlsn⟩, hok,
    hcommit.trans hm⟩

omit [StateMachine SM] in
theorem Step.commits (h : Step c σ e rest) (hresp : resp ∈ e.input.respAppend?) (ht : TakesReply e.before resp)
    (hok : resp.ok = true) : .committed (e.before.counting resp.server resp).majorityIndex ∈ e.effects := by
  obtain ⟨p, hi, hp⟩ := Input.mem_respAppend?.mp hresp
  have hh := h.handled
  rw [hi, RaftServer.handle_respAppend hp, ← h.before] at hh
  exact RaftServer.react2respAe_counts ht hok hh

/-- The commit index of a primary stays where a majority covers it. -/
theorem Step.covers_iff (hr : Reachable c σ) (h : Step c σ e rest) :
    MajorityCovers σ.trace e ↔ ∀ k, .committed k ∈ e.effects → e.before.commitIndex ≤ k := by
  constructor
  · intro hc k hk
    obtain ⟨-, resp, hresp, hs, ht, hok, rfl⟩ := h.committed hr hk
    exact (h.le_counting_iff hr hs).mpr (hc resp hresp ht hok)
  · intro hall resp hresp ht hok
    obtain ⟨p, hi, hp⟩ := Input.mem_respAppend?.mp hresp
    exact (h.le_counting_iff hr (h.respAppend_server hr hi hp)).mp (hall _ (h.commits hresp ht hok))

/-- A commit index that does not fall keeps above what is applied. -/
theorem Step.applied_le (hr : Reachable c σ) (h : Step c σ e rest)
    (hgrows : ∀ k, .committed k ∈ e.effects → e.before.commitIndex ≤ k)
    (hx : e.before.smc.appliedIndex ≤ e.before.smc.commitIndex) :
    e.after.smc.appliedIndex ≤ e.after.smc.commitIndex := by
  have hsmc := (h.ranges_before hr).smc
  have hle : e.before.commitIndex ≤ e.after.commitIndex := by
    cases (h.outcome hr).commit with
    | same hc => rw [hc]
    | accepted _ _ ha => exact ha.commit_le
    | counted hc =>
      obtain ⟨hi, hp, hs, hresp, hlsn, hok, -, hm, -⟩ := hc
      rw [hm]
      exact hgrows _ (h.commits (Input.mem_respAppend?.mpr ⟨_, hi, hp⟩) ⟨hs, hresp, hlsn⟩ hok)
  rcases ((h.outcome hr).applied (h.idle hr)).smc with ⟨hs, -⟩ | hs
  · rwa [hs]
  · rw [hs]
    dsimp only
    omega

/-- **The commit indexes of a run grow exactly when a majority covers them at
each reply a primary counts.** -/
theorem commit_grows_iff (hr : Reachable c σ) : CommitGrows σ.trace ↔ Along MajorityCovers σ.trace := by
  have key : (CommitGrows σ.trace ↔ Along MajorityCovers σ.trace) ∧
      (Along MajorityCovers σ.trace → ∀ s, (σ.raft s).smc.appliedIndex ≤ (σ.raft s).smc.commitIndex) := by
    refine hr.invariant (I := fun σ => (CommitGrows σ.trace ↔ Along MajorityCovers σ.trace) ∧
      (Along MajorityCovers σ.trace → ∀ s, (σ.raft s).smc.appliedIndex ≤ (σ.raft s).smc.commitIndex)) ?_ ?_
    · exact ⟨⟨fun _ => trivial, fun _ e he => by cases he⟩, fun _ s => Int.le_refl _⟩
    intro σ e rest hr h ⟨ih, happlied⟩
    have hafter : Along MajorityCovers σ.trace → MajorityCovers σ.trace e →
        e.after.smc.appliedIndex ≤ e.after.smc.commitIndex := fun ha hc =>
      h.applied_le hr ((h.covers_iff hr).mp hc) (by rw [h.before]; exact happlied ha e.server)
    refine ⟨⟨fun hg => ?_, fun ha d hd => ?_⟩, fun ha s => ?_⟩
    · exact ⟨(h.covers_iff hr).mpr (hg e List.mem_cons_self).1,
        ih.mp fun d hd => hg d (List.mem_cons_of_mem _ hd)⟩
    · rcases List.mem_cons.mp hd with rfl | hd
      · exact ⟨(h.covers_iff hr).mp ha.1, hafter ha.2 ha.1⟩
      · exact ih.mpr ha.2 d hd
    · rw [System.raft_next]
      split
      · exact hafter ha.2 ha.1
      · exact happlied ha.2 s
  exact key.1

end Runs

/-- A commits two entries of which C has none. B, elected after it, counts its own
two and the first of C. -/
def forgottenAcks : List Action :=
  electA ++ [.clientApply serverA client "x", .clientApply serverA client "y", .deliver 1] ++
  List.replicate 6 (.deliver 2) ++ campaign serverB ++ [.deliver 3, .deliver 4] ++ List.replicate 6 (.deliver 5)

theorem commit_falls : ¬ ∀ σ : System Unit, Reachable threeServers σ → CommitGrows σ.trace := by
  intro hall
  obtain ⟨σ, hr, e, he, hk, hlt⟩ := System.exists_reachable threeServers forgottenAcks
    (P := fun σ : System Unit => ∃ e ∈ σ.trace, .committed 0 ∈ e.effects ∧ 0 < e.before.commitIndex)
    (by decide +kernel)
  have := (hall σ hr e he).1 0 hk
  omega

theorem commitX_grows : ∃ σ : System Unit, (σ.raft serverA).commitIndex = 0 ∧ CommitGrows σ.trace := by
  obtain ⟨σ, hr, hc, ha⟩ := System.exists_reachable threeServers commitX
    (P := fun σ : System Unit => (σ.raft serverA).commitIndex = 0 ∧ Along MajorityCovers σ.trace)
    (by decide +kernel)
  exact ⟨σ, hc, (commit_grows_iff hr).mpr ha⟩

/-! ## A follower -/

/-- An AE that passes the checks of term, lsn and prelog. -/
structure PassesChecks (x : RaftServer) (ae : AppendEntryRpc) : Prop where
  term_le : x.term ≤ ae.term
  not_primary : ¬ (x.state = .primary ∧ x.term = ae.term)
  lsn : (x.becomeFollower ae.term).followerRpcLsn.get ae.server < ae.lsn
  prelog : x.prelogMatches ae.prelogIndex ae.prelogTerm = .ok true

instance (x : RaftServer) (ae : AppendEntryRpc) : Decidable (PassesChecks x ae) :=
  decidable_of_iff (x.term ≤ ae.term ∧ ¬ (x.state = .primary ∧ x.term = ae.term) ∧
    (x.becomeFollower ae.term).followerRpcLsn.get ae.server < ae.lsn ∧
    x.prelogMatches ae.prelogIndex ae.prelogTerm = .ok true)
    ⟨fun h => ⟨h.1, h.2.1, h.2.2.1, h.2.2.2⟩, fun h => ⟨h.term_le, h.not_primary, h.lsn, h.prelog⟩⟩

/-- The AE knows of the commit index of its receiver, and leaves the log long enough for it. -/
def CoversCommit (x : RaftServer) (ae : AppendEntryRpc) : Prop :=
  x.commitIndex ≤ ae.commitIndex ∧ (ae.entry ≠ [] → x.commitIndex ≤ ae.prelogIndex + 1)

namespace RaftServer

variable {x y : RaftServer} {ae : AppendEntryRpc}

theorem followerUpdateCommitIndex_error {remoteCommitIndex : Int} :
    x.followerUpdateCommitIndex remoteCommitIndex = .error .commitDecreases ↔
      x.cappedIndex remoteCommitIndex < x.commitIndex := by
  simp only [followerUpdateCommitIndex, cappedIndex_eq]
  split
  · rename_i hlt
    simp [hlt]
  · rename_i hge
    simp only [hge, iff_false]
    split
    · exact applyLoop_ne_error rfl _
    · simp

/-- The end of `react2ae`, where the checks are passed. -/
theorem react2ae_eq (hlen : ae.entry.length ≤ 1) (hc : PassesChecks x ae) :
    x.react2ae ae = match ae.entry with
      | [] =>
        if x.entries.size < ae.commitIndex then .error .emptyAeCommit
        else do return (← (x.following ae).followerUpdateCommitIndex ae.commitIndex).respondAe true ae
      | entry :: _ =>
        if entry.index ≠ ae.prelogIndex + 1 then .error .entryIndex
        else do
          let entries ← x.entries.insert (ae.prelogIndex + 1) entry
          return (← { x.following ae with entries := entries }.followerUpdateCommitIndex ae.commitIndex).respondAe
            true ae := by
  have hpre : ((x.becomeFollower ae.term).recordLsn ae.server ae.lsn).prelogMatches ae.prelogIndex ae.prelogTerm =
      .ok true := hc.prelog
  have hterm := hc.term_le
  unfold react2ae
  rw [if_neg (by omega), if_neg (by omega), if_neg hc.not_primary, trans2F_eq_ok _ hterm]
  simp only [bind, Except.bind, shouldIgnoreRemoteRpc_eq, Int.not_le.mpr hc.lsn, if_false, Bool.false_eq_true,
    hpre,
    Bool.not_true]
  rfl

theorem bind_return_error {α β : Type} {x : Except Exn α} {f : α → β} {exn : Exn} :
    (do return f (← x)) = Except.error exn ↔ x = .error exn := by
  cases x with
  | error e => simp [bind, Except.bind]
  | ok a => simp [bind, Except.bind, pure, Except.pure]

/-- The commit index would decrease exactly where the AE does not cover it. -/
theorem react2ae_commitDecreases {c : Cluster} (hx : Ranges c x) (hlen : ae.entry.length ≤ 1)
    (hlo : -1 ≤ ae.prelogIndex) (hindex : ∀ entry ∈ ae.entry, entry.index = ae.prelogIndex + 1)
    (hc : PassesChecks x ae) :
    x.react2ae ae = .error .commitDecreases ↔ ¬ CoversCommit x ae := by
  have hhi := hx.commit_hi
  have hsize := Entries.size_eq x.entries
  rw [react2ae_eq hlen hc]
  unfold CoversCommit
  split
  · rename_i hent
    simp only [hent, ne_eq, not_true_eq_false, false_implies, and_true]
    split
    · simp only [Except.error.injEq, reduceCtorEq, false_iff, not_not]
      omega
    · rw [bind_return_error, followerUpdateCommitIndex_error]
      change min (x.entries.size - 1) ae.commitIndex < x.commitIndex ↔ _
      omega
  · rename_i entry tail hent
    rw [if_neg (by simp [hindex entry (by rw [hent]; simp)])]
    obtain ⟨n, hn⟩ : ∃ n : Nat, ae.prelogIndex + 1 = n := ⟨(ae.prelogIndex + 1).toNat, by omega⟩
    have hle : n ≤ x.entries.log.length := by
      rcases (prelogMatches_ok hc.prelog).mp rfl with hm | ⟨i, entry, hi, hget, -⟩
      · omega
      · have := (List.getElem?_eq_some_iff.mp hget).1
        omega
    obtain ⟨es, hes, hlog⟩ := Entries.insert_eq_ok entry hle
    have hlength : es.log.length = n + 1 := by
      rw [hlog, List.length_append, List.length_take_of_le hle]
      rfl
    have hes' := Entries.size_eq es
    rw [hn, hes]
    refine (bind_return_error (x := { x.following ae with entries := es }.followerUpdateCommitIndex
      ae.commitIndex)).trans ?_
    rw [followerUpdateCommitIndex_error]
    change min (es.size - 1) ae.commitIndex < x.commitIndex ↔ _
    simp only [hent, ne_eq, reduceCtorEq, not_false_eq_true, true_implies]
    omega

end RaftServer

section Runs

variable {SM : Type} [StateMachine SM] {c : Cluster} {σ : System SM} {p : Packet} {ae : AppendEntryRpc}

/-- The receiver of an AE neither raises the exception nor rolls its commit index back. -/
def KeepsCommit (x : RaftServer) (p : Packet) : Prop :=
  x.handle (.message p) ≠ .error .commitDecreases ∧ ∀ y, x.handle (.message p) = .ok y →
  x.commitIndex ≤ y.commitIndex

theorem RaftServer.handle_appendEntry {x : RaftServer} (hp : p.rpc = .appendEntry ae) :
    x.handle (.message p) = x.react2ae ae := by
  simp [RaftServer.handle, RaftServer.reactToIncomingMsg, hp]

theorem Reachable.ae_entry (hr : Reachable c σ) (hp : Sent σ.trace p) (hae : p.rpc = .appendEntry ae) :
    ae.entry.length ≤ 1 ∧ -1 ≤ ae.prelogIndex ∧ ∀ entry ∈ ae.entry, entry.index = ae.prelogIndex + 1 := by
  obtain ⟨n, hn⟩ := hr.ae_sent hp hae
  have hpre := hn.built.prelogIndex
  have hent := hn.built.entry
  obtain ⟨σ₀, e, rest, hr₀, -, hst, hpe⟩ := hr.sent hp
  have hranges := hst.ranges hr₀ (hst.ranges_before hr₀)
  rw [← (Event.mem_packets.mp hpe).2.2.2] at hranges
  refine ⟨?_, by omega, fun entry hm => ?_⟩
  · rw [hent]
    cases p.sender.entries.log[n]? <;> simp
  · rw [hent, Option.mem_toList] at hm
    rw [hranges.indexed n entry hm]
    omega

/-- **A follower that accepts an AE keeps its commit index exactly when the AE
covers it.** -/
theorem follower_keeps_commit_iff (hr : Reachable c σ) (hp : p ∈ σ.inflight) (hae : p.rpc = .appendEntry ae)
    (hc : PassesChecks (σ.raft p.dst) ae) : KeepsCommit (σ.raft p.dst) p ↔ CoversCommit (σ.raft p.dst) ae := by
  have hx := hr.ranges p.dst
  obtain ⟨hlen, hlo, hindex⟩ := hr.ae_entry (hr.wired.sent p hp) hae
  have hiff := RaftServer.react2ae_commitDecreases hx hlen hlo hindex hc
  unfold KeepsCommit
  rw [RaftServer.handle_appendEntry hae, ne_eq, hiff, not_not, and_iff_left_iff_imp]
  intro _ y hy
  rcases RaftServer.react2ae_ok hy with ⟨_, rfl⟩ | ⟨-, -,
    ⟨-, rfl⟩ | ⟨-, ⟨-, rfl⟩ | ⟨-, es, smc, tasks, t, -, -, hcap, -, -, rfl⟩⟩⟩
  · exact Int.le_refl _
  · exact Int.le_refl _
  · exact Int.le_refl _
  · exact hcap

end Runs

/-- The AE a packet carries. -/
def Packet.appendEntry? (p : Packet) : Option AppendEntryRpc :=
  match p.rpc with
  | .appendEntry ae => some ae
  | _ => none

theorem Packet.mem_appendEntry? {p : Packet} {ae : AppendEntryRpc} :
    ae ∈ p.appendEntry? ↔ p.rpc = .appendEntry ae := by
  unfold Packet.appendEntry?
  split
  · rename_i r hr
    simp [hr, eq_comm]
  · rename_i hne
    simp only [Option.mem_def, reduceCtorEq, false_iff]
    exact hne ae

/-- A has told B of the entry it committed, and C, which holds it too, is elected
before it hears of that. -/
def newPrimary : List Action :=
  electA ++ [.clientApply serverA client "x"] ++ List.replicate 3 (.deliver 2) ++ [.deliver 1] ++
  List.replicate 4 (.deliver 2) ++ campaign serverC ++ [.deliver 4, .deliver 4]

theorem handle_error {x : RaftServer} {input : Input} {exn : Exn}
    (h : (x.handle input).map (fun _ => ()) = .error exn) : x.handle input = .error exn := by
  cases hx : x.handle input with
  | error e => simpa [hx, Except.map] using h
  | ok y => simp [hx, Except.map] at h

theorem newPrimary_commit_decreases :
    ¬ ∀ (σ : System Unit) (p : Packet) (ae : AppendEntryRpc), Reachable threeServers σ → p ∈ σ.inflight →
      p.rpc = .appendEntry ae → PassesChecks (σ.raft p.dst) ae → KeepsCommit (σ.raft p.dst) p := by
  intro hall
  obtain ⟨σ, hr, p, hp, ae, hae, hc, herr⟩ := System.exists_reachable threeServers newPrimary
    (P := fun σ : System Unit => ∃ p ∈ σ.inflight, ∃ ae ∈ p.appendEntry?, PassesChecks (σ.raft p.dst) ae ∧
      ((σ.raft p.dst).handle (.message p)).map (fun _ => ()) = .error .commitDecreases) (by decide +kernel)
  exact (hall σ p ae hr hp (Packet.mem_appendEntry?.mp hae) hc).1 (handle_error herr)

/-- B knows that x is committed, and is sent the y behind it. -/
def sendY : List Action := commitX ++ [.clientApply serverA client "y", .deliver 2, .deliver 2]

theorem sendY_keeps_commit : ∃ (σ : System Unit) (p : Packet) (ae : AppendEntryRpc), p ∈ σ.inflight ∧
    ae ∈ p.appendEntry? ∧ ae.entry = [⟨1, 1, "y"⟩] ∧ ae.commitIndex = 0 ∧ (σ.raft p.dst).commitIndex = 0 ∧
    KeepsCommit (σ.raft p.dst) p := by
  obtain ⟨σ, hr, p, hp, ae, hae, hc, hent, hcommit, hdst, hcovers⟩ := System.exists_reachable threeServers sendY
    (P := fun σ : System Unit => ∃ p ∈ σ.inflight, ∃ ae ∈ p.appendEntry?, PassesChecks (σ.raft p.dst) ae ∧
      ae.entry = [⟨1, 1, "y"⟩] ∧ ae.commitIndex = 0 ∧ (σ.raft p.dst).commitIndex = 0 ∧
      (σ.raft p.dst).commitIndex ≤ ae.prelogIndex + 1) (by decide +kernel)
  exact ⟨σ, p, ae, hp, hae, hent, hcommit, hdst,
    (follower_keeps_commit_iff hr hp (Packet.mem_appendEntry?.mp hae) hc).mpr ⟨by omega, fun _ => hcovers⟩⟩

end MyRaft
