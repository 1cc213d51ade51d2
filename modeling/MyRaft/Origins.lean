/-
Where entries come from. A server makes an entry when a client submits one to
it; all other entries of its log came in an AE, and so from a log. But
`append_client_apply_to_entries` looks at no role: a follower that a client
submits to makes an entry of its own in the term of the primary it follows.
-/
import MyRaft.LogMatching
import MyRaft.Lib.Truncating

namespace MyRaft

open History
open RaftServer (LogMove Accepts AcceptedLog)

/-- The entry an event makes for a client. -/
def Event.creates? (e : Event) : Option RpcEntry :=
  match e.input with
  | .clientApply _ body => some ⟨e.before.term, e.before.entries.size, body⟩
  | _ => none

/-- `entry` was first made by a primary of its term. -/
def FirstOfPrimary (trace : List Event) (entry : RpcEntry) : Prop :=
  ∃ e past, e :: past <:+ trace ∧ e.creates? = some entry ∧ (∀ d ∈ past, d.creates? ≠ some entry) ∧
    e.before.state = .primary ∧ e.before.term = entry.term

/-- A primary of the entry's term makes it. -/
def MadeAsPrimary (e : Event) (entry : RpcEntry) : Prop :=
  e.creates? = some entry ∧ e.before.state = .primary ∧ e.before.term = entry.term

/-- The entry is the one of an AE that a primary sent out of its log. -/
def SentByPrimary (past : List Event) (e : Event) (entry : RpcEntry) : Prop :=
  ∃ p ae, e.input = .message p ∧ p.rpc = .appendEntry ae ∧ ae.entry = [entry] ∧ Sent past p ∧
    p.sender.state = .primary ∧ p.sender.term = ae.term ∧ entry ∈ p.sender.entries.log

/-- What an event adds to its server's log, the server makes as a primary or gets from one. -/
def AddsFromPrimary (past : List Event) (e : Event) : Prop :=
  ∀ (n : Nat) (entry : RpcEntry), e.after.entries.log[n]? = some entry → e.before.entries.log[n]? ≠ some entry →
    MadeAsPrimary e entry ∨ SentByPrimary past e entry

/-- The entries of all logs come from primaries. -/
structure EntriesOfPrimaries (trace : List Event) : Prop where
  /-- They were first made by primaries. -/
  first : ∀ e ∈ trace, ∀ entry ∈ e.after.entries.log, FirstOfPrimary trace entry
  /-- Each copy was made by a primary, or brought by its AE. -/
  added : Along AddsFromPrimary trace

theorem Event.creates?_term {e : Event} {entry : RpcEntry} (h : e.creates? = some entry) :
    e.before.term = entry.term := by
  unfold Event.creates? at h
  split at h
  · cases h
    rfl
  · cases h

theorem Event.isClientApply_of_creates? {e : Event} {entry : RpcEntry} (h : e.creates? = some entry) :
    e.input.isClientApply = true := by
  unfold Event.creates? at h
  split at h
  · rename_i hi
    rw [hi]
    rfl
  · cases h

section Runs

variable {SM : Type} [StateMachine SM] {c : Cluster} {σ : System SM} {e : Event} {rest : List Packet} {p : Packet}

theorem Input.eq_clientApply {input : Input} (h : input.isClientApply = true) :
    ∃ client body, input = .clientApply client body := by
  unfold Input.isClientApply at h
  split at h
  · exact ⟨_, _, rfl⟩
  · cases h

omit [StateMachine SM] in
/-- A client's entry goes to the end of the log. -/
theorem Step.clientApply (h : Step c σ e rest) {client : Addr} {body : String}
    (hi : e.input = .clientApply client body) :
    ∃ es : Entries, es.log = e.before.entries.log ++ [⟨e.before.term, e.before.entries.log.length, body⟩] ∧
      e.after = { e.before with
        entries := es
        entryIndexToSocketAddrMap := e.before.entryIndexToSocketAddrMap.set e.before.entries.log.length client
        followerSavedIndex := e.before.followerSavedIndex.set e.before.server e.before.entries.log.length } := by
  have hh := h.handled
  rw [← h.before, hi] at hh
  exact RaftServer.appendClientApplyToEntries_ok hh

omit [StateMachine SM] in
/-- The entry an event makes ends up in the log of its server. -/
theorem Step.created (h : Step c σ e rest) {entry : RpcEntry} (hc : e.creates? = some entry) :
    entry ∈ e.after.entries.log := by
  unfold Event.creates? at hc
  split at hc
  · rename_i client body hi
    obtain ⟨es, hlog, hafter⟩ := h.clientApply hi
    cases hc
    rw [hafter, Entries.size_eq]
    dsimp only
    rw [hlog]
    exact List.mem_append_right _ List.mem_cons_self
  · cases hc

/-- An entry that is new in its place was made by the step, or its packet brought it. -/
theorem Step.added (hr : Reachable c σ) (h : Step c σ e rest) {n : Nat} {entry : RpcEntry}
    (hget : e.after.entries.log[n]? = some entry) (hnew : e.before.entries.log[n]? ≠ some entry) :
    e.creates? = some entry ∨ SentByPrimary σ.trace e entry := by
  cases (h.outcome hr).log with
  | same hlog =>
    rw [hlog] at hget
    exact absurd hget hnew
  | @appended client body hi hterm hstate hlog =>
    rw [hlog, ← Truncating.insert_length] at hget
    rcases Truncating.getElem?_insert_cases (Nat.le_refl _) hget with ⟨-, hget⟩ | ⟨-, rfl⟩
    · exact absurd hget hnew
    · left
      unfold Event.creates?
      rw [hi, Entries.size_eq]
  | @accepted p ae hi hp haccepts =>
    have hlog := haccepts.log
    unfold AcceptedLog at hlog
    split at hlog
    · rw [hlog.2] at hget
      exact absurd hget hnew
    · rename_i new tail hent
      obtain ⟨m, -, -, hle, hlog⟩ := hlog
      rw [hlog] at hget
      rcases Truncating.getElem?_insert_cases hle hget with ⟨-, hget⟩ | ⟨-, rfl⟩
      · exact absurd hget hnew
      · have hsent := (h.delivered hr hi).1
        obtain ⟨k, hk⟩ := hr.ae_sent hsent hp
        have hentry := hk.built.entry
        have hmem : new ∈ p.sender.entries.log[k]? :=
          Option.mem_toList.mp (by rw [← hentry, hent]; exact List.mem_cons_self)
        rw [Option.mem_def.mp hmem, Option.toList_some] at hentry
        exact .inr ⟨p, ae, hi, hp, hentry, hsent, hk.primary, hk.built.term.symm, List.mem_of_getElem? hmem⟩

/-- **Every entry was made for a client.** -/
theorem Reachable.entry_created (hr : Reachable c σ) :
    ∀ e ∈ σ.trace, ∀ entry ∈ e.after.entries.log, ∃ d ∈ σ.trace, d.creates? = some entry := by
  refine hr.invariant (I := fun σ => ∀ e ∈ σ.trace, ∀ entry ∈ e.after.entries.log, ∃ d ∈ σ.trace,
    d.creates? = some entry) (fun e he => by cases he) ?_
  intro σ e rest hr h ih d hd entry hm
  have hold : (∃ d ∈ σ.trace, d.creates? = some entry) → ∃ d ∈ e :: σ.trace, d.creates? = some entry :=
    fun ⟨f, hf, hc⟩ => ⟨f, List.mem_cons_of_mem _ hf, hc⟩
  rcases List.mem_cons.mp hd with rfl | hd
  · obtain ⟨n, hget⟩ := List.mem_iff_getElem?.mp hm
    by_cases hkept : d.before.entries.log[n]? = some entry
    · have hm := List.mem_of_getElem? hkept
      rw [h.before] at hm
      rcases hr.last_event d.server with hs | ⟨f, hf, -, he⟩
      · rw [hs] at hm
        cases hm
      · rw [he] at hm
        exact hold (ih f hf entry hm)
    · rcases h.added hr hget hkept with hc | ⟨p, ae, -, -, -, ⟨f, hf, hp⟩, -, -, hm⟩
      · exact ⟨d, List.mem_cons_self, hc⟩
      · rw [(Event.mem_packets.mp hp).2.2.2] at hm
        exact hold (ih f hf entry hm)
  · exact hold (ih d hd entry hm)

/-- What a step adds while only primaries handle `CLIENT_APPLY`. -/
theorem Step.addsFromPrimary (hr : Reachable c σ) (h : Step c σ e rest) (ha : ApplyAtPrimary σ.trace e) :
    AddsFromPrimary σ.trace e := by
  intro n entry hget hnew
  rcases h.added hr hget hnew with hc | hbrought
  · exact .inl ⟨hc, ha (Event.isClientApply_of_creates? hc), Event.creates?_term hc⟩
  · exact .inr hbrought

/-- **The entries of a run come from primaries exactly when only primaries handle
`CLIENT_APPLY`.** -/
theorem entries_of_primaries_iff (hr : Reachable c σ) :
    EntriesOfPrimaries σ.trace ↔ Along ApplyAtPrimary σ.trace := by
  constructor
  · intro hall
    refine along_of_forall fun e past hs hc => ?_
    obtain ⟨client, body, hi⟩ := Input.eq_clientApply hc
    obtain ⟨σ₀, rest, -, rfl, h⟩ := hr.at hs
    obtain ⟨es, hlog, hafter⟩ := h.clientApply hi
    -- the entry is new at the end of the log
    have hget : e.after.entries.log[e.before.entries.log.length]? =
        some ⟨e.before.term, e.before.entries.log.length, body⟩ := by
      rw [hafter]
      dsimp only
      rw [hlog, List.getElem?_concat_length]
    rcases hall.added.at hs _ _ hget (by simp) with hmade | ⟨p, ae, hp, -⟩
    · exact hmade.2.1
    · rw [hi] at hp
      cases hp
  · intro ha
    refine ⟨fun e he entry hm => ?_, along_of_forall fun e past hs => ?_⟩
    · obtain ⟨f, past, hs, hf, hfirst⟩ := exists_first (hr.entry_created e he entry hm)
      exact ⟨f, past, hs, hf, hfirst, ha.at hs (Event.isClientApply_of_creates? hf), Event.creates?_term hf⟩
    · obtain ⟨σ₀, rest, hr₀, rfl, h⟩ := hr.at hs
      exact h.addsFromPrimary hr₀ (ha.at hs)

end Runs

/-- B follows A when a client submits x to it. -/
def followerX : List Action := electA ++ [.deliver 1, .clientApply serverB client "x"]

theorem followerX_of_none : ¬ ∀ σ : System Unit, Reachable threeServers σ → EntriesOfPrimaries σ.trace := by
  intro hall
  obtain ⟨σ, hr, e, he, entry, hm, hno⟩ := System.exists_reachable threeServers followerX
    (P := fun σ : System Unit => ∃ e ∈ σ.trace, ∃ entry ∈ e.after.entries.log, ∀ d ∈ σ.trace,
      d.creates? = some entry → d.before.state ≠ .primary) (by decide +kernel)
  obtain ⟨d, past, hs, hc, -, hp, -⟩ := (hall σ hr).first e he entry hm
  exact hno d (mem_of_suffix hs) hc hp

theorem copyX_of_primary : ∃ σ : System Unit, (σ.raft serverB).entries.log ≠ [] ∧ EntriesOfPrimaries σ.trace := by
  obtain ⟨σ, hr, hl, ha⟩ := System.exists_reachable threeServers copyX
    (P := fun σ : System Unit => (σ.raft serverB).entries.log ≠ [] ∧ Along ApplyAtPrimary σ.trace)
    (by decide +kernel)
  exact ⟨σ, hl, (entries_of_primaries_iff hr).mpr ha⟩

end MyRaft
