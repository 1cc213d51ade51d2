/-
The logs of a cluster on disk. Two functions call `entries_.insert`, `react2ae`
and `append_client_apply_to_entries`, and each call writes the files before the
handler goes on; the constructor reads them back when a process starts.

`MyRaft.Cluster` has the logs in memory, and a server that restarts in
`MyRaft.Restart` comes back with the log that it had. Here each server has its
log store as well, and every run of theirs is one in which the stores do what
the handlers ask of them.
-/
import MyRaft.Durability
import MyRaft.Restart

namespace MyRaft

open LogStore (smallCodec)
open StdLib (StdMap)
open RaftServer (Outcome)

/-! ## Handlers on disk -/

namespace Durable

variable {codec : Codec}

/-- `append_client_apply_to_entries`, and the log store it leaves. -/
def appendClientApplyToEntries (client : Addr) (body : String) (x : Durable codec) :
    Except StoreExn RaftServer × LogStore :=
  let index := x.raft.entries.size
  let s := { x.raft with entryIndexToSocketAddrMap := x.raft.entryIndexToSocketAddrMap.set index client }
  match x.store.insert codec index.toNat { term := s.term, index := index, msg := body } with
  | .error exn => (.error exn, x.store)
  | .ok (_, store) =>
    (.ok { s with entries := store.entries, followerSavedIndex := s.followerSavedIndex.set s.server index }, store)

/-- `reactToIncomingMsg`; the other handlers leave the store alone. -/
def reactToIncomingMsg (m : Rpc) (peer : Addr) (x : Durable codec) : Except StoreExn RaftServer × LogStore :=
  match m with
  | .appendEntry ae => x.react2ae ae
  | .clientApply body => x.appendClientApplyToEntries peer body
  | m => ((x.raft.reactToIncomingMsg m peer).mapError .entries, x.store)

/-- What an input does to the server and to its log store. -/
def handle (input : Input) (x : Durable codec) : Except StoreExn RaftServer × LogStore :=
  match input with
  | .message packet => x.reactToIncomingMsg packet.rpc packet.src
  | .clientApply client body => x.reactToIncomingMsg (.clientApply body) client
  | .clientQuery client body => x.reactToIncomingMsg (.clientQuery body) client
  | input => ((x.raft.handle input).mapError .entries, x.store)

variable {x : Durable codec} {ae : AppendEntryRpc} {input : Input} {r : RaftServer}

theorem append_within (x : Durable codec) (entry : RpcEntry) :
    ∃ ops store, x.store.insert codec x.raft.entries.size.toNat entry = .ok (ops, store) ∧
      x.raft.entries.insert x.raft.entries.size entry = .ok store.entries := by
  obtain ⟨o, offset, entries, -, -, -, hentries, -, hinsert⟩ :=
    LogStore.insert_within x.holds.offset (congrArg List.length x.holds.log) (Nat.le_refl _) entry
  rw [Entries.size_eq, Int.toNat_natCast]
  exact ⟨_, _, hinsert, by rw [x.entries] at hentries ⊢; exact hentries⟩

theorem append_fst (client : Addr) (body : String) (x : Durable codec) :
    (x.appendClientApplyToEntries client body).1 =
      (x.raft.appendClientApplyToEntries client body).mapError .entries := by
  obtain ⟨ops, store, hinsert, hentries⟩ := x.append_within ⟨x.raft.term, x.raft.entries.size, body⟩
  unfold appendClientApplyToEntries RaftServer.appendClientApplyToEntries
  simp only [hinsert, hentries, bind, Except.bind, pure, Except.pure]
  rfl

theorem reactToIncomingMsg_fst (m : Rpc) (peer : Addr) (x : Durable codec) :
    (x.reactToIncomingMsg m peer).1 = (x.raft.reactToIncomingMsg m peer).mapError .entries := by
  cases m with
  | appendEntry ae => exact x.react2ae_fst ae
  | clientApply body => exact x.append_fst peer body
  | _ => rfl

/-- **The files change nothing about what a handler returns or throws.** -/
theorem handle_fst (input : Input) (x : Durable codec) :
    (x.handle input).1 = (x.raft.handle input).mapError .entries := by
  cases input with
  | message packet => exact x.reactToIncomingMsg_fst _ _
  | clientApply client body => exact x.reactToIncomingMsg_fst _ _
  | clientQuery client body => exact x.reactToIncomingMsg_fst _ _
  | _ => rfl

/-! ## What a handler leaves on disk -/

/-- A store that was not written, for a handler that left the entries alone. -/
theorem keeps_same (hentries : r.entries = x.raft.entries) :
    r.entries = x.store.entries ∧ LogStore.Holds codec x.store r.entries.log := by
  rw [hentries]
  exact ⟨x.entries, x.holds⟩

/-- The store after an entry was written at the end or in the middle of the log. -/
theorem keeps_insert {index : Nat} {entry : RpcEntry} {ops : List FileOp} {store : LogStore}
    (hinsert : x.store.insert codec index entry = .ok (ops, store)) (hle : index ≤ x.raft.entries.log.length)
    (hlog : store.entries.log = Truncating.insert x.raft.entries.log index entry)
    (hsmall : (LogStore.content codec store.entries.log).length < 2 ^ 31)
    (hparsed : ∀ entry ∈ store.entries.log, codec.parseFromString (codec.serializeToString entry) = entry) :
    LogStore.Holds codec store store.entries.log := by
  have hmem : entry ∈ store.entries.log := by
    rw [hlog]
    exact List.mem_append_right _ List.mem_cons_self
  obtain ⟨ops', store', hinsert', hholds⟩ := x.holds.insert hle (by rw [← hlog]; exact hsmall) (hparsed entry hmem)
  obtain ⟨-, rfl⟩ := Prod.mk.inj (Except.ok.inj (hinsert.symm.trans hinsert'))
  rw [hlog]
  exact hholds

theorem append_entries {client : Addr} {body : String} (hr : (x.appendClientApplyToEntries client body).1 = .ok r)
    (hsmall : (LogStore.content codec r.entries.log).length < 2 ^ 31)
    (hparsed : ∀ entry ∈ r.entries.log, codec.parseFromString (codec.serializeToString entry) = entry) :
    r.entries = (x.appendClientApplyToEntries client body).2.entries ∧
      LogStore.Holds codec (x.appendClientApplyToEntries client body).2 r.entries.log := by
  obtain ⟨ops, store, hinsert, hentries⟩ := x.append_within ⟨x.raft.term, x.raft.entries.size, body⟩
  unfold appendClientApplyToEntries at hr ⊢
  simp only [hinsert] at hr ⊢
  cases hr
  obtain ⟨i, hi, hle, hlog⟩ := Entries.insert_ok hentries
  refine ⟨rfl, keeps_insert hinsert ?_ ?_ hsmall hparsed⟩
  · omega
  · rw [hlog, hi]
    rfl

theorem unchecked_entries {s : RaftServer} (hno : ¬ (ae.entry.length ≤ 1 ∧ PassesChecks s ae))
    (hr : s.react2ae ae = .ok r) :
    r.entries = s.entries := by
  unfold RaftServer.react2ae at hr
  split at hr
  · cases hr
  rename_i hlen
  split at hr
  · cases hr
    rfl
  rename_i hle
  split at hr
  · cases hr
  rename_i hnp
  rw [RaftServer.trans2F_eq_ok _ (by omega)] at hr
  simp only [bind, Except.bind, RaftServer.shouldIgnoreRemoteRpc_eq] at hr
  by_cases hlsn : ae.lsn ≤ (s.becomeFollower ae.term).followerRpcLsn.get ae.server
  · simp only [hlsn, if_true] at hr
    cases hr
    rfl
  simp only [hlsn, if_false, Bool.false_eq_true] at hr
  cases hpre : ((s.becomeFollower ae.term).recordLsn ae.server ae.lsn).prelogMatches ae.prelogIndex
    ae.prelogTerm with
  | error exn =>
    rw [hpre] at hr
    cases hr
  | ok matched =>
    cases matched with
    | false =>
      rw [hpre] at hr
      cases hr
      rfl
    | true => exact absurd ⟨by omega, by omega, hnp, by omega, hpre⟩ hno

theorem react2ae_entries (hr : (x.react2ae ae).1 = .ok r) : r.entries = (x.react2ae ae).2.entries := by
  by_cases h : ae.entry.length ≤ 1 ∧ PassesChecks x.raft ae
  · rw [react2ae_checked h.1 h.2] at hr ⊢
    have hfinish : ∀ {s : RaftServer} {r : RaftServer},
        ((s.followerUpdateCommitIndex ae.commitIndex).map (·.respondAe true ae)).mapError StoreExn.entries =
        .ok r →
        r.entries = s.entries := fun {s r} hr => by
      cases hupdate : s.followerUpdateCommitIndex ae.commitIndex with
      | error exn =>
        rw [hupdate] at hr
        cases hr
      | ok t =>
        obtain ⟨-, smc, tasks, -, -, rfl⟩ := RaftServer.followerUpdateCommitIndex_ok hupdate
        rw [hupdate] at hr
        cases hr
        rfl
    cases hent : ae.entry with
    | nil =>
      rw [hent] at hr
      dsimp only at hr ⊢
      split at hr
      · cases hr
      · rename_i hlt
        rw [if_neg hlt]
        exact (hfinish hr).trans x.entries
    | cons entry tail =>
      rw [hent] at hr
      dsimp only at hr ⊢
      split at hr
      · cases hr
      · rename_i hindex
        obtain ⟨ops, store, hinsert, -⟩ := insert_checked h.2 entry
        rw [if_neg hindex, hinsert]
        rw [hinsert] at hr
        exact hfinish hr
  · rw [react2ae_unchecked h] at hr ⊢
    cases hmemory : x.raft.react2ae ae with
    | error exn =>
      rw [hmemory] at hr
      cases hr
    | ok s =>
      rw [hmemory] at hr
      cases hr
      exact (unchecked_entries h hmemory).trans x.entries

theorem react2ae_keeps (hr : (x.react2ae ae).1 = .ok r)
    (hsmall : (LogStore.content codec r.entries.log).length < 2 ^ 31)
    (hparsed : ∀ entry ∈ r.entries.log, codec.parseFromString (codec.serializeToString entry) = entry) :
    r.entries = (x.react2ae ae).2.entries ∧ LogStore.Holds codec (x.react2ae ae).2 r.entries.log := by
  have hentries := react2ae_entries hr
  refine ⟨hentries, ?_⟩
  rw [hentries] at hsmall hparsed ⊢
  by_cases h : ∃ entry, x.Brings ae entry
  · obtain ⟨entry, hbrings⟩ := h
    obtain ⟨-, -, -, -, hle, -⟩ := insert_checked hbrings.1 entry
    obtain ⟨ops, store, hinsert, hstore, hlog, -⟩ := react2ae_brings hbrings
    rw [hstore] at hsmall hparsed ⊢
    exact keeps_insert hinsert hle hlog hsmall hparsed
  · rw [react2ae_none (not_exists.mp h), ← x.entries]
    exact x.holds

/-- The handlers that do not call `entries_.insert`. -/
theorem entries_kept {s : RaftServer} (h : Outcome s input r)
    (hclient : ∀ client body, input ≠ .clientApply client body)
    (hae : ∀ p ae, input = .message p → p.rpc ≠ .appendEntry ae) : r.entries = s.entries := by
  cases h with
  | appended client body => exact absurd rfl (hclient client body)
  | aeAccepted hp => exact absurd hp (hae _ _ rfl)
  | acked hp hterm hstate hlsn hok ht hw hxs =>
    obtain ⟨_, _, _, _, -, rfl⟩ := ht.eq hxs
    rfl
  | won hp hterm hstate hlsn hok hm hy | nacked hp hterm hstate hlsn hok hnext hw hy | aeRetried hmin hy =>
    obtain ⟨_, _, _, rfl⟩ := hy.eq
    rfl
  | campaigned hh hy | rvRetried hmin hy =>
    obtain ⟨_, _, _, rfl⟩ := RaftServer.CalledAll.eq hy
    rfl
  | _ => simp

/-- **The files hold the log of a server whose handler returned.** -/
theorem handle_keeps (hout : Outcome x.raft input r) (hserver : ∀ p, input = .message p → p.rpc.ofServer = true)
    (hr : (x.handle input).1 = .ok r) (hsmall : (LogStore.content codec r.entries.log).length < 2 ^ 31)
    (hparsed : ∀ entry ∈ r.entries.log, codec.parseFromString (codec.serializeToString entry) = entry) :
    r.entries = (x.handle input).2.entries ∧ LogStore.Holds codec (x.handle input).2 r.entries.log := by
  cases input with
  | message p =>
    obtain ⟨src, dst, m, call, sender⟩ := p
    cases m with
    | appendEntry ae => exact react2ae_keeps hr hsmall hparsed
    | clientApply | clientQuery => exact absurd (hserver _ rfl) (by simp [Rpc.ofServer])
    | _ =>
      refine keeps_same (entries_kept hout (by simp) fun p ae hp hm => ?_)
      obtain rfl := Input.message.inj hp
      cases hm
  | clientApply client body => exact append_entries hr hsmall hparsed
  | _ => exact keeps_same (entries_kept hout (by simp) (by simp))

end Durable

/-! ## Runs with disks -/

section Runs

variable {SM : Type} [StateMachine SM] {c : Cluster} {P : System SM → Addr → Prop} {codec : Codec} {σ : System SM}
  {e : Event} {rest : List Packet} {disks : Addr → Durable codec} {s : Addr}

/-- The runs of a cluster, with the log store of each server: it is loaded from the files when the process starts,
and written by the handlers. -/
inductive DiskRun (c : Cluster) (codec : Codec) : System SM → (Addr → Durable codec) → Prop
  | start {disks : Addr → Durable codec}
      (hload : ∀ s, LogStore.load codec ⟨none, none⟩ = .ok (disks s).store)
      (hraft : ∀ s, (disks s).raft = { RaftServer.start s c.configuration with entries :=
      (disks s).store.entries }) :
      DiskRun c codec (System.start c) disks
  | step {σ : System SM} {disks e rest} {x : Durable codec} (hrun : DiskRun c codec σ disks)
    (hst : Step c σ e rest)
      (hhandle : (disks e.server).handle e.input = (.ok e.after, x.store)) (hraft : x.raft = e.after.taken) :
      DiskRun c codec (σ.next e rest) (Function.update disks e.server x)
  | restart {σ : System SM} {disks s} {x : Durable codec} (hrun : DiskRun c codec σ disks)
    (hs : s ∈ c.configuration)
      (hload : LogStore.load codec (disks s).store.files = .ok x.store)
      (hraft : x.raft = { RaftServer.start s c.configuration with entries := x.store.entries }) :
      DiskRun c codec (σ.restart s) (Function.update disks s x)

/-- What is needed of the protobuf library and of the archive, and how large the files get. -/
structure Storable (codec : Codec) (trace : List Event) : Prop where
  archive : ∀ offset, codec.iarchive (codec.oarchive offset) = some offset
  small : ∀ e ∈ trace, (LogStore.content codec e.after.entries.log).length < 2 ^ 31
  parsed : ∀ e ∈ trace, ∀ entry ∈ e.after.entries.log,
    codec.parseFromString (codec.serializeToString entry) = entry

omit [StateMachine SM] in
/-- A process that starts without files. -/
theorem exists_fresh (codec : Codec) (s : Addr) (configuration : List Addr) : ∃ x : Durable codec,
    LogStore.load codec ⟨none, none⟩ = .ok x.store ∧ x.raft = RaftServer.start s configuration ∧
      x.raft.entries = x.store.entries := by
  obtain ⟨store, hload, hholds⟩ := @LogStore.start_ok codec
  have hentries : (RaftServer.start s configuration).entries = store.entries := by
    cases hload
    rfl
  exact ⟨⟨RaftServer.start s configuration, store, hentries, hholds, Int.le_refl _⟩, hload, rfl, hentries⟩

omit [StateMachine SM] in
/-- **A handler that returns leaves its server and its files in step.** -/
theorem Durable.exists_step (hw : Wired c σ) (hst : Step c σ e rest) (x : Durable codec)
    (hx : x.raft = σ.raft e.server) (h : Storable codec (e :: σ.trace)) :
    ∃ x' : Durable codec, x.handle e.input = (.ok e.after, x'.store) ∧ x'.raft = e.after.taken := by
  have hbefore : e.before = x.raft := hst.before.trans hx.symm
  have hout := hw.outcome hst
  have hidle := hw.idle_before hst
  rw [hbefore] at hout hidle
  have hr : (x.handle e.input).1 = .ok e.after := by
    rw [x.handle_fst, hx, hst.handled]
    rfl
  have happlied := x.applied
  have hafter : -1 ≤ e.after.smc.appliedIndex := by
    rcases (hout.applied hidle).smc with ⟨hsmc, -⟩ | hsmc
    · rwa [hsmc]
    · rw [hsmc]
      exact Int.le_trans happlied (Int.le_max_left _ _)
  obtain ⟨hentries, hholds⟩ := Durable.handle_keeps hout (fun p hi => hw.ofServer p (hw.delivered hst hi).1) hr
    (h.small e List.mem_cons_self) (h.parsed e List.mem_cons_self)
  exact ⟨⟨e.after.taken, (x.handle e.input).2, hentries, hholds, hafter⟩, Prod.ext hr rfl, rfl⟩

/-- The constructor reads the log back from the files. -/
theorem Durable.exists_restart (x : Durable codec) (s : Addr) (configuration : List Addr)
    (harchive : ∀ offset, codec.iarchive (codec.oarchive offset) = some offset) : ∃ x' : Durable codec,
    LogStore.load codec x.store.files = .ok x'.store ∧
      x'.raft = { RaftServer.start s configuration with entries := .reloaded x.raft.entries.log } ∧
      x'.raft.entries = x'.store.entries := by
  obtain ⟨store, hload, hentries, hholds⟩ := x.holds.restart (harchive _)
  refine ⟨⟨{ RaftServer.start s configuration with entries := .reloaded x.raft.entries.log }, store,
    hentries.symm, ?_,
    Int.le_refl _⟩, hload, rfl, hentries.symm⟩
  rw [Entries.reloaded_log]
  exact hholds

/-- **The files of each server hold its log**, in every run with restarts: the handlers write what they have
in memory, and the constructor loads the log that the process had. -/
theorem files_hold_logs (hr : Survives c P σ) (h : Storable codec σ.trace) :
    ∃ disks : Addr → Durable codec, DiskRun c codec σ disks ∧ ∀ s, (disks s).raft = σ.raft s ∧
      LogStore.Agrees codec (disks s).store (σ.raft s).entries.log ∧
      ∃ store, LogStore.load codec (disks s).store.files = .ok store ∧
      store.entries.log = (σ.raft s).entries.log := by
  suffices hrun : ∃ disks : Addr → Durable codec, DiskRun c codec σ disks ∧ ∀ s, (disks s).raft = σ.raft s by
    obtain ⟨disks, hrun, hraft⟩ := hrun
    refine ⟨disks, hrun, fun s => ⟨hraft s, hraft s ▸ (disks s).holds.agrees, ?_⟩⟩
    obtain ⟨store, hload, hentries, -⟩ := (disks s).holds.restart (h.archive _)
    exact ⟨store, hload, by rw [hentries, Entries.reloaded_log, hraft s]⟩
  induction hr with
  | start =>
    choose disks hload hraft hentries using fun s => exists_fresh codec s c.configuration
    exact ⟨disks, .start hload fun s => by rw [← hentries, hraft], hraft⟩
  | @step σ e rest hr hst ih =>
    obtain ⟨disks, hrun, hraft⟩ := ih ⟨h.archive, fun e he => h.small e (List.mem_cons_of_mem _ he),
      fun e he => h.parsed e (List.mem_cons_of_mem _ he)⟩
    obtain ⟨x, hhandle, hx⟩ := Durable.exists_step hr.wired hst (disks e.server) (hraft _) h
    refine ⟨_, .step hrun hst hhandle hx, fun s => ?_⟩
    rw [System.raft_next]
    split
    · rename_i hs
      subst hs
      rw [Function.update_self, hx]
    · rename_i hs
      rw [Function.update_of_ne hs, hraft]
  | @restart σ s hr hs hP ih =>
    obtain ⟨disks, hrun, hraft⟩ := ih h
    obtain ⟨x, hload, hx, hentries⟩ := Durable.exists_restart (disks s) s c.configuration h.archive
    refine ⟨_, .restart hrun hs hload ?_, fun s' => ?_⟩
    · rw [← hentries, hx]
    · have hknown := hr.wired.known s
      rw [System.raft_restart]
      split
      · rename_i hs'
        subst hs'
        rw [Function.update_self, hx, RaftServer.restarted, hknown.server, hknown.configuration, hraft]
      · rename_i hs'
        rw [Function.update_of_ne hs', hraft]

end Runs

/-- B has a copy of x when it restarts. -/
def restartB : List Choice := copyX.map .act ++ [.restart serverB]

theorem restartB_reloads :
    ∃ (σ : System Unit) (disks : Addr → Durable smallCodec), DiskRun threeServers smallCodec σ disks ∧
    (σ.raft serverB).term = 0 ∧ ∃ store, LogStore.load smallCodec (disks serverB).store.files = .ok store ∧
      store.entries.log = [⟨1, 0, "x"⟩] := by
  obtain ⟨σ, hr, hterm, hlog, hstorable⟩ := exists_survives threeServers (fun _ _ => True) restartB
    (Q := fun σ : System Unit => (σ.raft serverB).term = 0 ∧ (σ.raft serverB).entries.log = [⟨1, 0, "x"⟩] ∧
      ∀ e ∈ σ.trace, (LogStore.content smallCodec e.after.entries.log).length < 2 ^ 31 ∧
        ∀ entry ∈ e.after.entries.log, smallCodec.parseFromString (smallCodec.serializeToString entry) = entry)
    (by decide +kernel)
  obtain ⟨disks, hrun, hdisks⟩ := files_hold_logs hr
    ⟨LogStore.smallCodec_archive, fun e he => (hstorable e he).1, fun e he => (hstorable e he).2⟩
  obtain ⟨-, -, store, hload, hentries⟩ := hdisks serverB
  exact ⟨σ, disks, hrun, hterm, store, hload, hentries.trans hlog⟩

end MyRaft
