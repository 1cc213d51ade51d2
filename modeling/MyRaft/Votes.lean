/-
The up-to-date rule. `react2rv` compares the last entry of the voter with the
term of the RV; the term of the candidate's own last entry, for which the RV has
a field, is neither sent nor compared. No entry is newer than its server's term,
so the voter denies a candidate only where its last entry is of the RV's very
term and at a higher index. It is right, then, only where the RV's term stands
for the term of the candidate's last entry.
-/
import MyRaft.Safety

namespace MyRaft

open History Lineage

/-- An RV that passes the checks of `react2rv` up to that of the log. -/
structure AsksVote (x : RaftServer) (rv : RequestVoteRpc) : Prop where
  term_le : x.term ≤ rv.term
  lsn : (x.heard rv.term).followerRpcLsn.get rv.server < rv.lsn
  state : (x.heard rv.term).state = .follower
  not_voted : (x.heard rv.term).alreadyVoted = false

instance (x : RaftServer) (rv : RequestVoteRpc) : Decidable (AsksVote x rv) :=
  decidable_of_iff (x.term ≤ rv.term ∧ (x.heard rv.term).followerRpcLsn.get rv.server < rv.lsn ∧
    (x.heard rv.term).state = .follower ∧ (x.heard rv.term).alreadyVoted = false)
    ⟨fun h => ⟨h.1, h.2.1, h.2.2.1, h.2.2.2⟩, fun h => ⟨h.term_le, h.lsn, h.state, h.not_voted⟩⟩

/-- The term of the RV misleads a voter with the last entry `last`. Either it is
newer than that entry, but the last entry of the candidate is older, or of the
same term and before it; or it is the term of that entry, which is not behind
the candidate's last index, but no longer the term of the candidate's last entry. -/
def Misleads (last : RpcEntry) (rv : RequestVoteRpc) (log : List RpcEntry) : Prop :=
  last.term < rv.term ∧
      (∀ own ∈ log.getLast?, own.term < last.term ∨ own.term = last.term ∧ rv.latestIndex < last.index) ∨
    last.term = rv.term ∧ last.index ≤ rv.latestIndex ∧ ∀ own ∈ log.getLast?, own.term < rv.term

instance (last : RpcEntry) (rv : RequestVoteRpc) (log : List RpcEntry) : Decidable (Misleads last rv log) :=
  inferInstanceAs (Decidable (_ ∨ _))

theorem passesVote_iff {x : RaftServer} {rv : RequestVoteRpc} :
    PassesVote x rv ↔ AsksVote x rv ∧ ∀ last ∈ x.entries.log.getLast?,
      last.term < rv.term ∨ last.term = rv.term ∧ last.index ≤ rv.latestIndex := by
  have hvote : x.shouldVote rv.term rv.latestIndex = .ok true ↔ ∀ last ∈ x.entries.log.getLast?,
      last.term < rv.term ∨ last.term = rv.term ∧ last.index ≤ rv.latestIndex := by
    rw [RaftServer.shouldVote_eq, Except.ok.injEq, decide_eq_true_iff]
  constructor
  · exact fun h => ⟨⟨h.term_le, h.lsn, h.state, h.not_voted⟩, hvote.mp h.shouldVote⟩
  · exact fun ⟨h, hlast⟩ => ⟨h.term_le, h.lsn, h.state, h.not_voted, hvote.mpr hlast⟩

section Runs

variable {SM : Type} [StateMachine SM] {c : Cluster} {σ : System SM} {e : Event} {rest : List Packet} {p : Packet}
  {rv : RequestVoteRpc}

theorem Ranges.last_index {x : RaftServer} (h : Ranges c x) {last : RpcEntry}
    (hl : x.entries.log.getLast? = some last) :
    last.index = (x.entries.log.length : Int) - 1 := by
  have hpos := List.length_pos_of_mem (List.mem_of_getLast? hl)
  rw [List.getLast?_eq_getElem?] at hl
  have := h.indexed _ _ hl
  omega

/-- A server grants the RVs that pass the checks, and no others. -/
theorem Step.grants_iff (hr : Reachable c σ) (h : Step c σ e rest) (hi : e.input = .message p)
    (hp : p.rpc = .requestVote rv) :
    (∃ q ∈ e.packets, ∃ resp, Grant q p.src resp) ↔ PassesVote e.before rv := by
  have hrv := hr.rv_sent (h.delivered hr hi).1 hp
  constructor
  · rintro ⟨q, hq, resp, hg⟩
    obtain ⟨p', rv', hvr, hi'⟩ := h.vote_reply hr hq hg.rpc
    rw [hi] at hi'
    cases hi'
    obtain rfl : rv = rv' := by simpa [hp] using hvr.rpc
    exact (hvr.grants hg.ok).passes
  · intro hpass
    have hh := h.handled
    rw [← h.before, hi] at hh
    change e.before.reactToIncomingMsg p.rpc p.src = _ at hh
    rw [hp] at hh
    have hafter := Except.ok.inj (hh.symm.trans
      (RaftServer.react2rv_granted hpass.term_le hpass.lsn hpass.state hpass.not_voted hpass.shouldVote))
    have hrpc : Effect.rpc p.src (.respVote ⟨true, (e.before.heard rv.term).term, rv.lsn, e.before.server.ip,
        e.before.server.port⟩) ∈ e.effects := by
      unfold Event.effects
      rw [hafter, ← hrv.server]
      simp [RaftServer.voted, RaftServer.makeRespRv, RaftServer.makeRpcCall]
    exact ⟨⟨e.server, p.src, _, e.input.call, e.after⟩, Event.mem_packets.mpr ⟨hrpc, rfl, rfl, rfl⟩, _, rfl,
      rfl, rfl⟩

/-- **A vote goes to a log as up to date as the voter's exactly where the term of
the RV does not mislead the voter.** -/
theorem vote_up_to_date_iff (hr : Reachable c σ) (he : e ∈ σ.trace) (hi : e.input = .message p)
    (hp : p.rpc = .requestVote rv) :
    ((∃ q ∈ e.packets, ∃ resp, Grant q p.src resp) →
        UpToDate RpcEntry.term p.sender.entries.log e.before.entries.log) ↔
      (AsksVote e.before rv → ∀ last ∈ e.before.entries.log.getLast?,
      ¬ Misleads last rv p.sender.entries.log) := by
  obtain ⟨σ₀, rest, hr₀, -, hst⟩ := hr.step_of_mem he
  have hsent := (hst.delivered hr₀ hi).1
  have hrv := hr₀.rv_sent hsent hp
  have hranges := hst.ranges_before hr₀
  rw [hst.grants_iff hr₀ hi hp, passesVote_iff, and_imp]
  refine imp_congr_right fun hasks => ?_
  unfold UpToDate
  cases hlast : e.before.entries.log.getLast? with
  | none => simp
  | some last =>
    have hindex := hranges.last_index hlast
    simp only [Option.mem_some_iff, forall_eq']
    unfold Misleads
    cases hown : p.sender.entries.log.getLast? with
    | none => simp
    | some own =>
      have hle := (hr₀.dated_sent hsent).le own (List.mem_of_getLast? hown)
      rw [← hrv.term] at hle
      have hlen := hrv.index
      simp only [Option.mem_some_iff, forall_eq', exists_eq_left']
      omega

end Runs

/-- B, whose last entry is x, votes for C, whose log is empty. -/
theorem emptyPrimary_misled :
    ¬ ∀ (σ : System Unit) (e : Event) (p : Packet) (rv : RequestVoteRpc), Reachable threeServers σ → e ∈ σ.trace →
      e.input = .message p → p.rpc = .requestVote rv → (∃ q ∈ e.packets, ∃ resp, Grant q p.src resp) →
      UpToDate RpcEntry.term p.sender.entries.log e.before.entries.log := by
  intro hall
  obtain ⟨σ, hr, e, he, p, hi, rv, hrv, ⟨q, hq, hvote⟩, hnot⟩ := System.exists_reachable threeServers emptyPrimary
    (P := fun σ : System Unit => ∃ e ∈ σ.trace, ∃ p ∈ e.input.packet?, ∃ rv ∈ p.requestVote?,
      (∃ q ∈ e.packets, q.vote? rv.term = some p.src) ∧
        ¬ UpToDate RpcEntry.term p.sender.entries.log e.before.entries.log) (by decide +kernel)
  obtain ⟨resp, hg, -⟩ := Packet.vote?_eq_some.mp hvote
  exact hnot (hall σ e p rv hr he (Input.mem_packet?.mp hi) (Packet.mem_requestVote?.mp hrv) ⟨q, hq, resp, hg⟩)

theorem secondPrimary_granted : ∃ (e : Event) (p : Packet) (rv : RequestVoteRpc), e.input = .message p ∧
    p.rpc = .requestVote rv ∧ AsksVote e.before rv ∧ (∃ last, e.before.entries.log.getLast? = some last) ∧
    ((∃ q ∈ e.packets, ∃ resp, Grant q p.src resp) →
      UpToDate RpcEntry.term p.sender.entries.log e.before.entries.log) := by
  obtain ⟨σ, hr, e, he, p, hi, rv, hrv, hasks, ⟨last, hlast, -⟩, hleads⟩ :=
    System.exists_reachable threeServers secondPrimary
    (P := fun σ : System Unit => ∃ e ∈ σ.trace, ∃ p ∈ e.input.packet?, ∃ rv ∈ p.requestVote?,
    AsksVote e.before rv ∧
      (∃ last ∈ e.before.entries.log.getLast?, last.term = 1) ∧
      ∀ last ∈ e.before.entries.log.getLast?, ¬ Misleads last rv p.sender.entries.log) (by decide +kernel)
  have hi := Input.mem_packet?.mp hi
  have hrv := Packet.mem_requestVote?.mp hrv
  exact ⟨e, p, rv, hi, hrv, hasks, ⟨last, hlast⟩, (vote_up_to_date_iff hr he hi hrv).mpr fun _ => hleads⟩

end MyRaft
