/-
Messages that do not parse. `reactToIncomingMsg` does not look at what
`ParseFromString` returns: the handlers run on the fields that were parsed, and
on defaults for the others.

Which of these messages change nothing is said of the message that was parsed,
for every state of the server. What C++ leaves undefined, a null retry timer or a
write past `temp_sort`, is a failure of the handler.
-/
import MyRaft.Proto
import MyRaft.Wire
import MyRaft.Exceptions

namespace MyRaft

open Bytes (text)
open Proto3
open StdLib (StdMap)
open Except (bind_eq_ok pure_eq_ok)

/-! ## Parsing -/

/-- What `reactToIncomingMsg` parses of a body, and whether it parses. The client's messages are not parsed. -/
def parseRpc (pb : Protobuf) : RpcType → Bytes → Bool × Option Rpc
  | .requestVote, msg => (pb.parseFromString RequestVoteRpc.proto msg).map id fun rv => some (.requestVote rv)
  | .appendEntry, msg => (pb.parseFromString (AppendEntryRpc.proto pb) msg).map id fun ae => some (.appendEntry ae)
  | .respVote, msg => (pb.parseFromString RespRequestVoteRpc.proto msg).map id fun resp => some (.respVote resp)
  | .respAppend, msg => (pb.parseFromString RespAppendEntryRpc.proto msg).map id fun resp =>
    some (.respAppend resp)
  | .clientApply, msg => (true, some (.clientApply (text msg)))
  | .clientQuery, msg => (true, some (.clientQuery (text msg)))
  | .respClientApply, _ | .respClientQuery, _ | .error, _ => (true, none)

/-- `reactToIncomingMsg`, on the bytes behind the type; an unknown type is only logged. -/
def RaftServer.reactToIncomingBytes (pb : Protobuf) (type : RpcType) (msg : Bytes) (peer : Addr) (s : RaftServer) :
    Except Exn RaftServer :=
  match (parseRpc pb type msg).2 with
  | some rpc => s.reactToIncomingMsg rpc peer
  | none => .ok s

/-- The call of `make_rpc_call` that an effect is. -/
def Effect.call? : Effect → Option (Addr × Rpc)
  | .rpc dst msg => some (dst, msg)
  | _ => none

/-- `s'` has the term, the role, the vote, the log, the commit index and the
lsn tables of `s`, and nothing was sent. -/
structure Untouched (s s' : RaftServer) : Prop where
  term : s'.term = s.term
  state : s'.state = s.state
  alreadyVoted : s'.alreadyVoted = s.alreadyVoted
  log : s'.entries.log = s.entries.log
  commitIndex : s'.commitIndex = s.commitIndex
  currentRpcLsn : ∀ x, s'.currentRpcLsn.get x = s.currentRpcLsn.get x
  followerRpcLsn : ∀ x, s'.followerRpcLsn.get x = s.followerRpcLsn.get x
  sent : s'.effects.filterMap Effect.call? = s.effects.filterMap Effect.call?

/-- The handler returns, and nothing came of the message. -/
def Rejected (s : RaftServer) (result : Except Exn RaftServer) : Prop := ∃ s', result = .ok s' ∧ Untouched s s'

theorem Untouched.refl (s : RaftServer) : Untouched s s :=
  ⟨rfl, rfl, rfl, rfl, rfl, fun _ => rfl, fun _ => rfl, rfl⟩

namespace RaftServer

variable {s s' : RaftServer}

theorem not_untouched_of_sent {effects : List Effect} {dst : Addr} {rpc : Rpc}
    (he : s'.effects = effects ++ [.rpc dst rpc]) (hs : effects.filterMap Effect.call? =
    s.effects.filterMap Effect.call?) : ¬ Untouched s s' := by
  intro h
  have hsent := h.sent
  rw [he, List.filterMap_append, hs] at hsent
  simp [Effect.call?] at hsent

/-- Tasks of the write pool are no calls. -/
theorem Tasks.filterMap_call {last : Int} {tasks : List Effect} (h : Tasks s last tasks) :
    tasks.filterMap Effect.call? = [] := by
  rw [List.filterMap_eq_nil_iff]
  intro task htask
  obtain ⟨i, entry, rfl, -⟩ := h task htask
  rfl

/-! ## Requests -/

/-- A server that stays in its term has not heard of another. -/
theorem heard_eq_self {term : Int} (h : (s.heard term).term = s.term) : ¬ s.term < term ∧ s.heard term = s := by
  unfold heard at h ⊢
  split
  · rename_i hlt
    rw [if_pos hlt, becomeFollower_term] at h
    omega
  · exact ⟨by assumption, rfl⟩

/-- An RV does nothing when it is of the own term and its lsn is not new. -/
theorem rejected_rv_iff (rv : RequestVoteRpc) :
    Rejected s (s.react2rv rv) ↔ s.term = rv.term ∧ rv.lsn ≤ s.followerRpcLsn.get rv.server := by
  constructor
  · intro h
    obtain ⟨s', h, hu⟩ := h
    rcases react2rv_ok h with ⟨-, rfl⟩ | ⟨hle, ⟨hlsn, rfl⟩ | ⟨hlsn, rfl | ⟨-, -, -, rfl⟩⟩⟩
    · exact absurd hu (not_untouched_of_sent rfl rfl)
    · obtain ⟨hnlt, hself⟩ := heard_eq_self hu.term
      rw [hself] at hlsn
      exact ⟨by omega, hlsn⟩
    · obtain ⟨-, hself⟩ := heard_eq_self hu.term
      rw [hself] at hu
      exact absurd hu (not_untouched_of_sent rfl rfl)
    · obtain ⟨-, hself⟩ := heard_eq_self hu.term
      rw [hself] at hu
      exact absurd hu (not_untouched_of_sent rfl rfl)
  · intro h
    obtain ⟨hterm, hlsn⟩ := h
    refine ⟨s, ?_, .refl s⟩
    unfold react2rv
    rw [if_neg (by omega), if_neg (by omega)]
    simp [shouldIgnoreRemoteRpc_eq, hlsn, pure, Except.pure, bind, Except.bind]

/-- Nor does an AE, when the server is besides a follower that has not voted: `trans2F` would make it one. -/
theorem rejected_ae_iff (ae : AppendEntryRpc) :
    Rejected s (s.react2ae ae) ↔ ae.entry.length ≤ 1 ∧ s.term = ae.term ∧ s.state = .follower ∧
    s.alreadyVoted = false ∧
      ae.lsn ≤ s.followerRpcLsn.get ae.server := by
  constructor
  · intro h
    obtain ⟨s', h, hu⟩ := h
    have hentry : ae.entry.length ≤ 1 := by
      refine Nat.not_lt.mp fun hlt => ?_
      rw [react2ae, if_pos hlt] at h
      cases h
    rcases react2ae_ok h with ⟨-, rfl⟩ | ⟨hle, -, ⟨hlsn, rfl⟩
      | ⟨-, ⟨-, rfl⟩ | ⟨-, es, smc, tasks, t, rfl, -, -, ht, -, rfl⟩⟩⟩
    · exact absurd hu (not_untouched_of_sent rfl rfl)
    · have hterm : ae.term = s.term := hu.term
      refine ⟨hentry, hterm.symm, hu.state.symm, hu.alreadyVoted.symm, ?_⟩
      rwa [hterm, becomeFollower_followerRpcLsn, if_neg (Int.lt_irrefl _)] at hlsn
    · exact absurd hu (not_untouched_of_sent rfl rfl)
    · refine absurd hu (not_untouched_of_sent rfl ?_)
      rw [committedTo_effects, List.filterMap_append, ht.filterMap_call, List.append_nil]
      rfl
  · intro h
    obtain ⟨hentry, hterm, hstate, hvoted, hlsn⟩ := h
    have hnlt : ¬ s.term < s.term := Int.lt_irrefl _
    refine ⟨s.becomeFollower ae.term, ?_, ?_⟩
    · unfold react2ae
      rw [if_neg (by omega), if_neg (by omega), if_neg (by simp [hstate]), trans2F_eq_ok _ (by omega)]
      simp [shouldIgnoreRemoteRpc_eq, ← hterm, hlsn, pure, Except.pure, bind, Except.bind]
    · rw [← hterm]
      exact ⟨rfl, hstate.symm, hvoted.symm, rfl, rfl, fun x => by simp, fun x => by simp, rfl⟩

/-! ## Replies -/

theorem foldlM_AE_state (xs : List Addr) : ∀ {s s' : RaftServer},
    xs.foldlM (fun s x => if x.port ≠ s.server.port then s.AE x else pure s) s = .ok s' → s'.state = s.state := by
  induction xs with
  | nil =>
    intro s s' h
    rw [List.foldlM_nil, pure_eq_ok] at h
    rw [h]
  | cons x xs ih =>
    intro s s' h
    rw [List.foldlM_cons, bind_eq_ok] at h
    obtain ⟨t, ht, h⟩ := h
    rw [ih h]
    split at ht
    · obtain ⟨n, rpc, -, -, -, rfl⟩ := AE_ok ht
      rfl
    · rw [pure_eq_ok] at ht
      rw [ht]

theorem trans2P_state (h : s.trans2P = .ok s') : s'.state = .primary := foldlM_AE_state s.configuration h

/-- The reply brings the candidate a vote. -/
def CountsVote (resp : RespRequestVoteRpc) (s : RaftServer) : Prop :=
  s.state = .candidate ∧ s.currentRpcLsn.get resp.server = resp.lsn + 1 ∧ resp.ok = true

/-- One more vote makes no primary, and there is a retry timer to stop. -/
def OnlyCounts (server : Addr) (s : RaftServer) : Prop :=
  s.winnedVotes + 1 < s.majority ∧ s.retryTimers.find? server ≠ none

theorem rejected_respRv_iff (resp : RespRequestVoteRpc) :
    Rejected s (s.react2respRv resp) ↔
      resp.term < s.term ∨ resp.term = s.term ∧ (s.CountsVote resp → s.OnlyCounts resp.server) := by
  constructor
  · intro h
    obtain ⟨s', h, hu⟩ := h
    unfold react2respRv at h
    split at h
    · obtain ⟨-, rfl⟩ := trans2F_ok h
      have hterm : resp.term = s.term := hu.term
      omega
    split at h
    · exact .inl (by omega)
    refine .inr ⟨by omega, fun hcounts => ?_⟩
    obtain ⟨hstate, hlsn, hok⟩ := hcounts
    rw [if_pos hstate, candidateDealRespRvWithSameTerm, if_neg (by simpa using hlsn), if_pos hok] at h
    dsimp only at h
    split at h
    · have hprimary := hu.state.symm.trans (trans2P_state h)
      rw [hstate] at hprimary
      cases hprimary
    · rename_i hmajority
      obtain ⟨timer, htimer, -⟩ := bind_eq_ok.mp h
      exact ⟨by omega, (timerTo_ok htimer).1⟩
  · intro h
    rcases h with hlt | ⟨hterm, honly⟩
    · refine ⟨s, ?_, .refl s⟩
      rw [react2respRv, if_neg (by omega), if_pos (by omega)]
    · rw [react2respRv, if_neg (by omega), if_neg (by omega)]
      split
      · rename_i hstate
        unfold candidateDealRespRvWithSameTerm
        split
        · exact ⟨s, rfl, .refl s⟩
        rename_i hlsn
        split
        · rename_i hok
          obtain ⟨hvotes, htimer⟩ := honly ⟨hstate, by simpa using hlsn, hok⟩
          have htimer' : { s with winnedVotes := s.winnedVotes + 1 }.timerTo resp.server =
              .ok (s.retryTimers.get resp.server) := timerTo_eq_ok htimer
          dsimp only
          rw [if_neg (by omega), htimer']
          exact ⟨_, rfl, ⟨rfl, rfl, rfl, rfl, rfl, fun _ => rfl, fun _ => rfl, rfl⟩⟩
        · exact ⟨s, rfl, .refl s⟩
      · exact ⟨s, rfl, .refl s⟩

/-- What is to be applied up to an index is in the log. -/
def Appliable (index : Int) (s : RaftServer) : Prop :=
  index ≤ s.smc.appliedIndex ∨ -1 ≤ s.smc.appliedIndex ∧ index < s.entries.size

theorem updateCommitIndexAndApply_iff (index : Int) :
    (∃ t, s.updateCommitIndexAndApply index = .ok t) ↔ s.Appliable index := by
  constructor
  · intro h
    obtain ⟨t, h⟩ := h
    refine or_iff_not_imp_left.mpr fun hlt => ?_
    obtain ⟨tasks, hnext, -⟩ := applyLoop_next _ h
    -- the first and the last round read the log
    have hread : ∀ k : Nat, k < (index - s.smc.appliedIndex).toNat →
        0 ≤ s.smc.appliedIndex + 1 + k ∧ s.smc.appliedIndex + 1 + k < s.entries.size := by
      intro k hk
      have hmem : s.smc.appliedIndex + 1 + k ∈ tasks.map Prod.fst := by
        rw [hnext.indexes]
        exact List.mem_map.mpr ⟨k, List.mem_range.mpr hk, rfl⟩
      obtain ⟨task, htask, hindex⟩ := List.mem_map.mp hmem
      obtain ⟨entry, hget, -⟩ := hnext.msgs task htask
      obtain ⟨i, hi, hentry⟩ := Entries.get_ok hget
      have hlt : i < s.entries.log.length := (List.getElem?_eq_some_iff.mp hentry).1
      have hsize := Entries.size_eq s.entries
      omega
    have hfirst := hread 0 (by omega)
    have hlast := hread ((index - s.smc.appliedIndex).toNat - 1) (by omega)
    omega
  · intro h
    rcases h with hle | ⟨hlo, hhi⟩
    · refine ⟨{ s with smc := { s.smc with commitIndex := index } }, ?_⟩
      unfold updateCommitIndexAndApply
      dsimp only
      rw [Int.toNat_of_nonpos (by omega)]
      rfl
    · exact updateCommitIndexAndApply_in hlo hhi

/-- `temp_sort` has room for `Follower_saved_index` with `server` among its keys. -/
def FitsTempSort (server : Addr) (s : RaftServer) : Prop :=
  (s.followerSavedIndex.set server (s.entries.size - 1)).values.length ≤ s.configuration.length

theorem primaryUpdateCommitIndex_iff (server : Addr) :
    (∃ t, s.primaryUpdateCommitIndex server (s.entries.size - 1) = .ok t) ↔
      s.FitsTempSort server ∧ s.Appliable (s.saved server (s.entries.size - 1)).majorityIndex := by
  unfold primaryUpdateCommitIndex FitsTempSort
  dsimp only
  split
  · rename_i hlt
    exact iff_of_false (fun ⟨t, ht⟩ => by cases ht) fun h => by omega
  · rename_i hle
    rw [and_iff_right (Nat.not_lt.mp hle)]
    exact updateCommitIndexAndApply_iff _

/-- The reply acknowledges the end of the log and moves the commit index to where it is. -/
def Acknowledges (resp : RespAppendEntryRpc) (s : RaftServer) : Prop :=
  resp.ok = true ∧ s.nextIndex.get resp.server = s.entries.size ∧ s.FitsTempSort resp.server ∧
    (s.saved resp.server (s.entries.size - 1)).majorityIndex = s.commitIndex ∧ s.Appliable s.commitIndex

/-- An AE changes the lsn table of its sender. -/
theorem not_untouched_of_AE {t : RaftServer} {x : Addr} (h : t.AE x = .ok s')
    (ht : t.currentRpcLsn = s.currentRpcLsn) :
    ¬ Untouched s s' := by
  intro hu
  obtain ⟨n, rpc, -, -, -, rfl⟩ := AE_ok h
  have hlsn : s.currentRpcLsn.get x + 1 = s.currentRpcLsn.get x := by simpa [ht] using hu.currentRpcLsn x
  omega

theorem rejected_respAe_iff (resp : RespAppendEntryRpc) :
    Rejected s (s.react2respAe resp) ↔ resp.term < s.term ∨ resp.term = s.term ∧ s.state = .primary ∧
      (s.currentRpcLsn.get resp.server ≠ resp.lsn + 1 ∨ s.Acknowledges resp) := by
  constructor
  · intro h
    obtain ⟨s', h, hu⟩ := h
    unfold react2respAe at h
    split at h
    · obtain ⟨-, rfl⟩ := trans2F_ok h
      have hterm : resp.term = s.term := hu.term
      omega
    split at h
    · exact .inl (by omega)
    split at h
    · rename_i hstate
      refine .inr ⟨by omega, hstate, ?_⟩
      rcases primaryDealRespAeWithSameTerm_ok h with
        ⟨hlsn, -⟩ | ⟨-, ⟨hok, hnext, hcommit⟩ | ⟨-, -, t, timer, hcommit, -, hae⟩ | ⟨-, -, timer, -, hae⟩⟩
      · exact .inl hlsn
      · rw [hnext] at hcommit
        obtain ⟨hfits, happliable⟩ := (primaryUpdateCommitIndex_iff _).mp ⟨s', hcommit⟩
        obtain ⟨tasks, -, rfl⟩ := primaryUpdateCommitIndex_ok hcommit
        have hindex : (s.saved resp.server (s.entries.size - 1)).majorityIndex = s.commitIndex := hu.commitIndex
        exact .inr ⟨hok, hnext, hfits, hindex, hindex ▸ happliable⟩
      · refine absurd hu (not_untouched_of_AE hae ?_)
        split at hcommit
        · obtain ⟨tasks, -, rfl⟩ := primaryUpdateCommitIndex_ok hcommit
          rfl
        · obtain ⟨tasks, -, rfl⟩ := primaryUpdateCommitIndex_ok hcommit
          rfl
      · exact absurd hu (not_untouched_of_AE hae rfl)
    · cases h
  · intro h
    rcases h with hlt | ⟨hterm, hstate, h⟩
    · refine ⟨s, ?_, .refl s⟩
      rw [react2respAe, if_neg (by omega), if_pos (by omega)]
    rw [react2respAe, if_neg (by omega), if_neg (by omega), if_pos hstate, primaryDealRespAeWithSameTerm]
    by_cases hlsn : s.currentRpcLsn.get resp.server = resp.lsn + 1
    · obtain ⟨hok, hnext, hfits, hindex, happliable⟩ := h.resolve_left (by simpa using hlsn)
      obtain ⟨t, ht⟩ : ∃ t, s.primaryUpdateCommitIndex resp.server (s.entries.size - 1) = .ok t :=
        (primaryUpdateCommitIndex_iff _).mpr ⟨hfits, hindex.symm ▸ happliable⟩
      refine ⟨t, by simp [hlsn, hok, hnext, ht], ?_⟩
      obtain ⟨tasks, htasks, rfl⟩ := primaryUpdateCommitIndex_ok ht
      refine ⟨rfl, rfl, rfl, rfl, hindex, fun _ => rfl, fun _ => rfl, ?_⟩
      rw [committedTo_effects, List.filterMap_append, List.filterMap_cons, htasks.filterMap_call]
      simp [Effect.call?]
    · rw [if_pos hlsn]
      exact ⟨s, rfl, .refl s⟩

/-- Nothing comes of the message in this state. -/
def Harmless (s : RaftServer) : Rpc → Prop
  | .requestVote rv => s.term = rv.term ∧ rv.lsn ≤ s.followerRpcLsn.get rv.server
  | .appendEntry ae => ae.entry.length ≤ 1 ∧ s.term = ae.term ∧ s.state = .follower ∧ s.alreadyVoted = false ∧
      ae.lsn ≤ s.followerRpcLsn.get ae.server
  | .respVote resp => resp.term < s.term ∨ resp.term = s.term ∧ (s.CountsVote resp → s.OnlyCounts resp.server)
  | .respAppend resp => resp.term < s.term ∨ resp.term = s.term ∧ s.state = .primary ∧
      (s.currentRpcLsn.get resp.server ≠ resp.lsn + 1 ∨ s.Acknowledges resp)
  | _ => False

theorem rejected_bytes_iff {pb : Protobuf} {type : RpcType} {msg : Bytes} {peer : Addr} {rpc : Rpc}
    (hparse : (parseRpc pb type msg).2 = some rpc)
    (h : Rejected s (s.reactToIncomingMsg rpc peer) ↔ s.Harmless rpc) :
    Rejected s (s.reactToIncomingBytes pb type msg peer) ↔
    ∃ rpc, (parseRpc pb type msg).2 = some rpc ∧ s.Harmless rpc := by
  simp [reactToIncomingBytes, hparse, h]

end RaftServer

/-- In a run, a reply that names a server of the cluster finds its retry timer
and its key of `Follower_saved_index`. -/
theorem Reachable.server_named {SM : Type} [StateMachine SM] {c : Cluster} {σ : System SM}
    (hr : Reachable c σ) (s : Addr) {server : Addr} (hserver : server ∈ c.configuration) :
    ((σ.raft s).OnlyCounts server ↔ (σ.raft s).winnedVotes + 1 < (σ.raft s).majority) ∧
      (σ.raft s).FitsTempSort server :=
  ⟨and_iff_left (hr.has_timer s hserver), ((hr.ranges s).room (hr.wired.known s) hserver).values_le⟩

/-- **A message that does not parse is rejected exactly when the fields that were parsed, and the defaults of the
others, happen to be harmless.** -/
theorem malformed_rejected_iff (pb : Protobuf) (type : RpcType) (msg : Bytes) (peer : Addr) (s : RaftServer)
    (hmalformed : (parseRpc pb type msg).1 = false) :
    Rejected s (s.reactToIncomingBytes pb type msg peer) ↔
    ∃ rpc, (parseRpc pb type msg).2 = some rpc ∧ s.Harmless rpc := by
  cases type with
  | requestVote => exact RaftServer.rejected_bytes_iff rfl (RaftServer.rejected_rv_iff _)
  | appendEntry => exact RaftServer.rejected_bytes_iff rfl (RaftServer.rejected_ae_iff _)
  | respVote => exact RaftServer.rejected_bytes_iff rfl (RaftServer.rejected_respRv_iff _)
  | respAppend => exact RaftServer.rejected_bytes_iff rfl (RaftServer.rejected_respAe_iff _)
  | clientApply | clientQuery | respClientApply | respClientQuery | error => cases hmalformed

/-- The tag of a term, and no term: at the start this reads as an RV of the
own term with an lsn that is not new. -/
theorem tagOnly_rejected : Rejected (RaftServer.start serverA threeServers.configuration)
    ((RaftServer.start serverA threeServers.configuration).reactToIncomingBytes protobuf .requestVote [0x08]
    client) :=
  (malformed_rejected_iff protobuf .requestVote [0x08] client (RaftServer.start serverA threeServers.configuration)
    (by decide)).mpr ⟨.requestVote ⟨0, 0, 0, 0, "", 0⟩, by decide, by decide, by decide⟩

/-- Term 5, and the tag of the lsn without one: the server goes to term 5 and votes. -/
def truncatedRv : Bytes := [0x08, 0x05, 0x20]

theorem truncatedRv_not_rejected :
    ¬ ∀ (pb : Protobuf) (type : RpcType) (msg : Bytes) (peer : Addr) (s : RaftServer),
    (parseRpc pb type msg).1 = false → Rejected s (s.reactToIncomingBytes pb type msg peer) := by
  intro hall
  have hrejected :=
    hall protobuf .requestVote truncatedRv client (RaftServer.start serverA threeServers.configuration)
    (by decide)
  have hparse : (parseRpc protobuf .requestVote truncatedRv).2 = some (.requestVote ⟨5, 0, 0, 0, "", 0⟩) := by
    decide
  rw [RaftServer.reactToIncomingBytes, hparse] at hrejected
  exact absurd ((RaftServer.rejected_rv_iff _).mp hrejected).1 (by decide)

end MyRaft
