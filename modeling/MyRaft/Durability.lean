/-
What an AE leaves on disk when `react2ae` throws. `Entries::insert` writes the
files before it returns, and `follower_update_commit_index` checks the commit
index after it: an AE that passes all other checks, but does not cover the
commit index of its receiver, throws with its entry written and the log behind
it cut. After a restart the server goes on from there.
-/
import MyRaft.Exceptions
import MyRaft.LogStore

namespace MyRaft

open LogStore (smallCodec)
open StdLib (StdMap)
open RaftServer (react2ae_eq)

/-- A server with its log on disk. -/
structure Durable (codec : Codec) where
  raft : RaftServer
  store : LogStore
  entries : raft.entries = store.entries
  holds : LogStore.Holds codec store raft.entries.log
  applied : -1 ≤ raft.smc.appliedIndex

namespace Durable

variable {codec : Codec}

/-- `react2ae`: what it returns or throws, and the log store it leaves either way.
Nothing but `entries_.insert` writes to the store, and that throws before it
writes. -/
def react2ae (rpc : AppendEntryRpc) (x : Durable codec) : Except StoreExn RaftServer × LogStore :=
  let finish (s : RaftServer) : Except StoreExn RaftServer :=
    ((s.followerUpdateCommitIndex rpc.commitIndex).map
      (·.makeRespAe true rpc.server rpc.lsn rpc.isEmptyAe)).mapError .entries
  if rpc.entry.length > 1 then (.error (.entries .entrySize), x.store)
  else if x.raft.term > rpc.term then (.ok (x.raft.makeRespAe false rpc.server rpc.lsn rpc.isEmptyAe), x.store)
  else if x.raft.state = .primary ∧ x.raft.term = rpc.term then (.error (.entries .twoPrimaries), x.store)
  else match x.raft.trans2F rpc.term with
  | .error exn => (.error (.entries exn), x.store)
  | .ok s =>
    let (ignore, s) := s.shouldIgnoreRemoteRpc rpc.server rpc.lsn
    if ignore then (.ok s, x.store)
    else match s.prelogMatches rpc.prelogIndex rpc.prelogTerm with
    | .error exn => (.error (.entries exn), x.store)
    | .ok false => (.ok (s.makeRespAe false rpc.server rpc.lsn rpc.isEmptyAe), x.store)
    | .ok true =>
      match rpc.entry with
      | [] =>
        if s.entries.size < rpc.commitIndex then (.error (.entries .emptyAeCommit), x.store)
        else (finish s, x.store)
      | entry :: _ =>
        if entry.index ≠ rpc.prelogIndex + 1 then (.error (.entries .entryIndex), x.store)
        else match x.store.insert codec (rpc.prelogIndex + 1).toNat entry with
        | .error exn => (.error exn, x.store)
        | .ok (_, store) => (finish { s with entries := store.entries }, store)

/-- The AE brings an entry and passes the checks before `entries_.insert`. -/
def Brings (x : Durable codec) (ae : AppendEntryRpc) (entry : RpcEntry) : Prop :=
  PassesChecks x.raft ae ∧ ae.entry = [entry] ∧ entry.index = ae.prelogIndex + 1

variable {x : Durable codec} {ae : AppendEntryRpc}

theorem react2ae_unchecked (h : ¬ (ae.entry.length ≤ 1 ∧ PassesChecks x.raft ae)) :
    x.react2ae ae = ((x.raft.react2ae ae).mapError .entries, x.store) := by
  unfold react2ae RaftServer.react2ae
  split
  · rfl
  rename_i hlen
  split
  · rfl
  rename_i hle
  split
  · rfl
  rename_i hnp
  rw [RaftServer.trans2F_eq_ok _ (by omega)]
  simp only [bind, Except.bind, RaftServer.shouldIgnoreRemoteRpc_eq]
  by_cases hlsn : ae.lsn ≤ (x.raft.becomeFollower ae.term).followerRpcLsn.get ae.server
  · simp only [hlsn, if_true]
    rfl
  simp only [hlsn, if_false, Bool.false_eq_true]
  cases hpre : ((x.raft.becomeFollower ae.term).recordLsn ae.server ae.lsn).prelogMatches ae.prelogIndex
    ae.prelogTerm with
  | error exn => rfl
  | ok matched =>
    cases matched with
    | false => rfl
    | true => exact absurd ⟨by omega, by omega, hnp, by omega, hpre⟩ h

theorem react2ae_checked (hlen : ae.entry.length ≤ 1) (hc : PassesChecks x.raft ae) :
    let finish (s : RaftServer) : Except StoreExn RaftServer :=
      ((s.followerUpdateCommitIndex ae.commitIndex).map (·.respondAe true ae)).mapError .entries
    x.react2ae ae = match ae.entry with
      | [] =>
        if x.raft.entries.size < ae.commitIndex then (.error (.entries .emptyAeCommit), x.store)
        else (finish (x.raft.following ae), x.store)
      | entry :: _ =>
        if entry.index ≠ ae.prelogIndex + 1 then (.error (.entries .entryIndex), x.store)
        else match x.store.insert codec (ae.prelogIndex + 1).toNat entry with
        | .error exn => (.error exn, x.store)
        | .ok (_, store) => (finish { x.raft.following ae with entries := store.entries }, store) := by
  have hpre : ((x.raft.becomeFollower ae.term).recordLsn ae.server ae.lsn).prelogMatches ae.prelogIndex
    ae.prelogTerm =
      .ok true := hc.prelog
  have hterm := hc.term_le
  unfold react2ae
  rw [if_neg (by omega), if_neg (by omega), if_neg hc.not_primary, RaftServer.trans2F_eq_ok _ hterm]
  simp only [RaftServer.shouldIgnoreRemoteRpc_eq, Int.not_le.mpr hc.lsn, if_false, Bool.false_eq_true, hpre]
  rfl

/-- The place of an entry that passes the checks is in the log, or behind its end. -/
theorem insert_checked (hc : PassesChecks x.raft ae) (entry : RpcEntry) :
    ∃ ops store, x.store.insert codec (ae.prelogIndex + 1).toNat entry = .ok (ops, store) ∧
      x.raft.entries.insert (ae.prelogIndex + 1) entry = .ok store.entries ∧
      (ae.prelogIndex + 1).toNat ≤ x.raft.entries.log.length ∧
      store.entries.log = Truncating.insert x.raft.entries.log (ae.prelogIndex + 1).toNat entry := by
  obtain ⟨n, hn, hle⟩ : ∃ n : Nat, ae.prelogIndex + 1 = n ∧ n ≤ x.raft.entries.log.length := by
    rcases (RaftServer.prelogMatches_ok hc.prelog).mp rfl with hm | ⟨i, entry, hi, hget, -⟩
    · exact ⟨0, by omega, Nat.zero_le _⟩
    · exact ⟨i + 1, by omega, (List.getElem?_eq_some_iff.mp hget).1⟩
  obtain ⟨o, offset, entries, -, -, -, hentries, hlog, hinsert⟩ :=
    LogStore.insert_within x.holds.offset (congrArg List.length x.holds.log) hle entry
  rw [x.holds.log] at hlog
  rw [hn, Int.toNat_natCast]
  exact ⟨_, _, hinsert, by rw [x.entries]; exact hentries, hle, hlog⟩

/-- **The server answers or throws as `react2ae` says.** -/
theorem react2ae_fst (x : Durable codec) (ae : AppendEntryRpc) :
    (x.react2ae ae).1 = (x.raft.react2ae ae).mapError .entries := by
  by_cases h : ae.entry.length ≤ 1 ∧ PassesChecks x.raft ae
  · rw [react2ae_checked h.1 h.2, react2ae_eq h.1 h.2]
    cases ae.entry with
    | nil =>
      dsimp only
      split
      · rfl
      · cases (x.raft.following ae).followerUpdateCommitIndex ae.commitIndex <;> rfl
    | cons entry tail =>
      dsimp only
      split
      · rfl
      · obtain ⟨ops, store, hinsert, hentries, -⟩ := insert_checked h.2 entry
        rw [hinsert, hentries]
        dsimp only [bind, Except.bind]
        cases RaftServer.followerUpdateCommitIndex ae.commitIndex
          { x.raft.following ae with entries := store.entries } <;> rfl
  · rw [react2ae_unchecked h]

theorem react2ae_none (h : ∀ entry, ¬ x.Brings ae entry) : (x.react2ae ae).2 = x.store := by
  by_cases hchecks : ae.entry.length ≤ 1 ∧ PassesChecks x.raft ae
  · obtain ⟨hlen, hc⟩ := hchecks
    rw [react2ae_checked hlen hc]
    cases hent : ae.entry with
    | nil =>
      dsimp only
      split <;> rfl
    | cons entry tail =>
      obtain rfl : tail = [] := by
        rw [hent, List.length_cons] at hlen
        exact List.eq_nil_of_length_eq_zero (by omega)
      have hindex : entry.index ≠ ae.prelogIndex + 1 := fun hi => h entry ⟨hc, hent, hi⟩
      dsimp only
      rw [if_pos hindex]
  · rw [react2ae_unchecked hchecks]

/-- The rounds that apply entries stay within the log, so the check of the commit index alone throws. -/
theorem update_throws {s : RaftServer} (happlied : -1 ≤ s.smc.appliedIndex) (remoteCommitIndex : Int)
    (f : RaftServer → RaftServer) :
    (∃ exn, ((s.followerUpdateCommitIndex remoteCommitIndex).map f).mapError StoreExn.entries = .error exn) ↔
      s.cappedIndex remoteCommitIndex < s.commitIndex := by
  rw [← RaftServer.followerUpdateCommitIndex_error]
  cases hupdate : s.followerUpdateCommitIndex remoteCommitIndex with
  | ok s => simp [Except.map, Except.mapError]
  | error exn =>
    obtain rfl := RaftServer.followerUpdateCommitIndex_in happlied hupdate
    simp [Except.map, Except.mapError]

theorem react2ae_brings {entry : RpcEntry} (h : x.Brings ae entry) :
    ∃ ops store, x.store.insert codec (ae.prelogIndex + 1).toNat entry = .ok (ops, store) ∧
    (x.react2ae ae).2 = store ∧
      store.entries.log = Truncating.insert x.raft.entries.log (ae.prelogIndex + 1).toNat entry ∧
      ((∃ exn, (x.react2ae ae).1 = .error exn) ↔ ¬ CoversCommit x.raft ae) := by
  obtain ⟨hc, hent, hindex⟩ := h
  have hlen : ae.entry.length ≤ 1 := by rw [hent]; exact Nat.le_refl 1
  obtain ⟨ops, store, hinsert, hentries, hle, hlog⟩ := insert_checked hc entry
  have hlo : 0 ≤ ae.prelogIndex + 1 := by
    obtain ⟨i, hi, -⟩ := Entries.insert_ok hentries
    omega
  rw [react2ae_checked hlen hc, hent]
  dsimp only
  rw [if_neg (not_not.mpr hindex), hinsert]
  refine ⟨ops, store, rfl, rfl, hlog, ?_⟩
  refine (update_throws (s := { x.raft.following ae with entries := store.entries }) x.applied _ _).trans ?_
  have hsize := store.entries.size_eq
  rw [hlog, Truncating.length_insert hle] at hsize
  change min (store.entries.size - 1) ae.commitIndex < x.raft.commitIndex ↔ _
  unfold CoversCommit
  simp only [hent, ne_eq, reduceCtorEq, not_false_eq_true, true_implies, hsize]
  omega

/-- What is left on disk, thrown or not, is again a log that a restart reads back. -/
theorem react2ae_holds (hparsed : ∀ entry ∈ ae.entry,
    codec.parseFromString (codec.serializeToString entry) = entry)
    (hsmall : ∀ entry ∈ ae.entry,
      (LogStore.content codec (Truncating.insert x.raft.entries.log (ae.prelogIndex + 1).toNat entry)).length
      < 2 ^ 31) :
    LogStore.Holds codec (x.react2ae ae).2 (x.react2ae ae).2.entries.log := by
  by_cases h : ∃ entry, x.Brings ae entry
  · obtain ⟨entry, hbrings⟩ := h
    obtain ⟨-, -, -, -, hle, -⟩ := insert_checked hbrings.1 entry
    obtain ⟨ops, store, hinsert, hstore, hlog, -⟩ := react2ae_brings hbrings
    have hmem : entry ∈ ae.entry := by
      rw [hbrings.2.1]
      exact List.mem_singleton_self entry
    obtain ⟨ops', store', hinsert', hholds⟩ := x.holds.insert hle (hsmall entry hmem) (hparsed entry hmem)
    obtain ⟨-, rfl⟩ := Prod.mk.inj (Except.ok.inj (hinsert.symm.trans hinsert'))
    rw [hstore, hlog]
    exact hholds
  · rw [react2ae_none (not_exists.mp h), ← x.entries]
    exact x.holds

/-! ## A newly elected primary -/

end Durable

end MyRaft
