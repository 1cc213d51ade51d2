/-
The clients of entries. `entryIndex_to_socketAddr_map_` names the client that
submitted the entry of an index, and no client is ever taken out of it: where
`react2ae` puts another entry in the place of a client's, the client stays, and
is told of the other entry when the server is primary again and applies it.
-/
import MyRaft.Origins
import MyRaft.Pace
import MyRaft.Lib.Truncating

namespace MyRaft

open History
open StdLib (StdMap)
open RaftServer (Accepts AcceptedLog LogMove)

/-! ## What clients submit and what is applied -/

/-- The client that submits a command, if the input is that. -/
def Input.submitter? : Input → Option Addr
  | .clientApply client _ => some client
  | _ => none

/-- A client submits to `s` the entry of an index. -/
def Event.Submits (s : Addr) (index : Int) (e : Event) : Prop :=
  e.input.isClientApply = true ∧ e.server = s ∧ e.before.entries.size = index

instance (s : Addr) (index : Int) (e : Event) : Decidable (e.Submits s index) :=
  inferInstanceAs (Decidable (e.input.isClientApply = true ∧ e.server = s ∧ e.before.entries.size = index))

/-- The last event in which a client submitted the entry of an index to `s`, and its past. -/
def submission : List Event → Addr → Int → Option (Event × List Event)
  | [], _, _ => none
  | e :: past, s, index => if e.Submits s index then some (e, past) else submission past s index

/-- An event writes the entry of an index, and cuts the log of its server behind it. -/
def Event.Writes (e : Event) (index : Int) : Prop :=
  e.input.isClientApply = true ∧ index = e.before.entries.size ∨
    ∃ p ae, e.input = .message p ∧ p.rpc = .appendEntry ae ∧ Accepts e.before ae e.after ∧ ae.entry ≠ [] ∧
      index = ae.prelogIndex + 1

/-- After the events of a list, the entry of an index in the log of a server is the one that
the event `d` made: `d` wrote it there, or it came in an AE from a log where it was that one. An
entry that another event made with the same term, index and text is another one. -/
inductive MadeBy (d : Event) (before : List Event) : List Event → Addr → Int → Prop
  | made : d.input.isClientApply = true → MadeBy d before (d :: before) d.server d.before.entries.size
  | other {past e s index} : MadeBy d before past s index → s ≠ e.server → MadeBy d before (e :: past) s index
  | kept {past} {e : Event} {index} : MadeBy d before past e.server index → (∀ i, e.Writes i → index < i) →
      MadeBy d before (e :: past) e.server index
  | copied {past} {e f : Event} {older p ae} : e.input = .message p → p.rpc = .appendEntry ae →
      Accepts e.before ae e.after → ae.entry ≠ [] → f :: older <:+ past → p ∈ f.packets →
      MadeBy d before (f :: older) f.server (ae.prelogIndex + 1) →
      MadeBy d before (e :: past) e.server (ae.prelogIndex + 1)

/-- The command the state machine of `s` applies for an index, if the event is that. -/
def Event.works? (s : Addr) (index : Int) (e : Event) : Option String :=
  match e.input with
  | .work i msg => if e.server = s ∧ i = index then some msg else none
  | _ => none

/-- The commands the state machine of `s` applied for an index. -/
def appliedAt (trace : List Event) (s : Addr) (index : Int) : List String :=
  trace.filterMap (Event.works? s index)

/-- The call of `write_resp_apply_call` an input is, if it is one. -/
def Input.respApplyCall? : Input → Option (Int × String)
  | .callback (.writeRespApplyCall entryIndex res) => some (entryIndex, res)
  | _ => none

/-- The `RESP_CLIENT_APPLY` a packet carries. -/
def Packet.respClientApply? (p : Packet) : Option String :=
  match p.rpc with
  | .respClientApply res => some res
  | _ => none

theorem Packet.mem_respClientApply? {p : Packet} {res : String} :
    res ∈ p.respClientApply? ↔ p.rpc = .respClientApply res := by
  unfold Packet.respClientApply?
  split
  · rename_i r hr
    simp [hr, eq_comm]
  · rename_i hne
    simp only [Option.mem_def, reduceCtorEq, false_iff]
    exact hne res

/-- What `s` has had applied for an index is the entry that the submission made: the entry was that one
when a handler gave it to the state machine, which ran its command and no other. -/
structure AppliedFor (past : List Event) (s : Addr) (index : Int) (sub : Event × List Event) : Prop where
  entry : ∀ f older, f :: older <:+ past → f.server = s → ∀ msg, .apply index msg ∈ f.effects →
    MadeBy sub.1 sub.2 (f :: older) s index
  command : ∃ entry, sub.1.creates? = some entry ∧ entry.msg ∈ appliedAt past s index ∧
    ∀ msg ∈ appliedAt past s index, msg = entry.msg

/-- A client that is told of an index made, in the last submission for it, the entry that was applied there. -/
def TrueAck (past : List Event) (e : Event) : Prop :=
  ∀ p ∈ e.packets, ∀ res ∈ p.respClientApply?, ∃ call ∈ e.input.respApplyCall?, call.2 = res ∧
    ∃ sub ∈ submission past e.server call.1, sub.1.input.submitter? = some p.dst ∧
    AppliedFor past e.server call.1 sub

/-! ## When the clients stay with their entries -/

/-- The packet was sent when the entry of the index was, in the log of its sender, the one the submission made. -/
def Brings (past : List Event) (p : Packet) (index : Int) (sub : Event × List Event) : Prop :=
  ∃ f older, f :: older <:+ past ∧ p ∈ f.packets ∧ MadeBy sub.1 sub.2 (f :: older) f.server index

/-- An AE puts no other entry in the place of a client's. -/
def ReplacesNone (past : List Event) (e : Event) : Prop :=
  ∀ p ∈ e.input.packet?, ∀ ae ∈ p.appendEntry?, PassesChecks e.before ae → ae.entry ≠ [] →
    ∀ sub ∈ submission past e.server (ae.prelogIndex + 1), Brings past p (ae.prelogIndex + 1) sub

/-- A client's entry goes to an index that the server has not applied. -/
def AppendsUnapplied (_ : List Event) (e : Event) : Prop :=
  e.input.isClientApply = true → e.before.smc.appliedIndex < e.before.entries.size

instance (past : List Event) (e : Event) : Decidable (AppendsUnapplied past e) :=
  inferInstanceAs (Decidable (e.input.isClientApply = true → e.before.smc.appliedIndex < e.before.entries.size))

structure KeepsClients (past : List Event) (e : Event) : Prop where
  replaces : ReplacesNone past e
  appends : AppendsUnapplied past e

/-- No client has submitted a command for the index of an AE's entry. -/
def Unclaimed (past : List Event) (e : Event) : Prop :=
  ∀ p ∈ e.input.packet?, ∀ ae ∈ p.appendEntry?, (submission past e.server (ae.prelogIndex + 1)).isNone = true

instance (past : List Event) (e : Event) : Decidable (Unclaimed past e) :=
  inferInstanceAs (Decidable (∀ p ∈ e.input.packet?, ∀ ae ∈ p.appendEntry?,
    (submission past e.server (ae.prelogIndex + 1)).isNone = true))

theorem Unclaimed.replacesNone {past : List Event} {e : Event} (h : Unclaimed past e) : ReplacesNone past e := by
  intro p hp ae hae _ _ sub hsub
  rw [Option.isNone_iff_eq_none.mp (h p hp ae hae)] at hsub
  cases hsub

section Runs

variable {SM : Type} [StateMachine SM] {c : Cluster} {σ : System SM} {e : Event} {rest : List Packet} {p : Packet}
  {trace : List Event} {s : Addr} {index : Int}

/-! ## Submissions -/

omit [StateMachine SM] in
theorem submission_of_not_clientApply (hi : e.input.isClientApply = false) :
    submission (e :: trace) s index = submission trace s index := by
  rw [submission, if_neg]
  rintro ⟨hc, -⟩
  rw [hi] at hc
  cases hc

omit [StateMachine SM] in
theorem submission_of_ne (hs : s ≠ e.server) : submission (e :: trace) s index = submission trace s index := by
  rw [submission, if_neg]
  rintro ⟨-, he, -⟩
  exact hs he.symm

omit [StateMachine SM] in
/-- A submission is an event of the server, with its past. -/
theorem submission_suffix {sub : Event × List Event} (h : sub ∈ submission trace s index) :
    sub.1 :: sub.2 <:+ trace ∧ sub.1.Submits s index := by
  induction trace with
  | nil => cases h
  | cons e past ih =>
    rw [submission] at h
    split at h
    · cases h
      exact ⟨List.suffix_refl _, ‹_›⟩
    · exact ⟨(ih h).1.trans (List.suffix_cons _ _), (ih h).2⟩

/-- The map names the last client of each index. -/
theorem Reachable.map_submission (hr : Reachable c σ) (s : Addr) (index : Int) :
    (σ.raft s).entryIndexToSocketAddrMap.find? index =
      (submission σ.trace s index).bind fun sub => sub.1.input.submitter? := by
  refine hr.invariant (I := fun σ => ∀ s index, (σ.raft s).entryIndexToSocketAddrMap.find? index =
    (submission σ.trace s index).bind fun sub => sub.1.input.submitter?) (fun s index => rfl) ?_ s index
  intro σ e rest hr h ih s index
  rw [System.raft_next, System.trace_next]
  by_cases hs : s = e.server
  · subst hs
    rw [if_pos rfl, RaftServer.taken_entryIndexToSocketAddrMap]
    by_cases hc : e.input.isClientApply = true
    · obtain ⟨client, body, hi⟩ := Input.eq_clientApply hc
      obtain ⟨es, -, hafter⟩ := h.clientApply hi
      rw [hafter, submission]
      simp only [StdMap.find?_set]
      by_cases hn : index = e.before.entries.log.length
      · rw [if_pos hn, if_pos ⟨hc, rfl, by rw [Entries.size_eq, hn]⟩]
        simp [hi, Input.submitter?]
      · rw [if_neg hn, if_neg fun hsub => hn (by rw [← Entries.size_eq, hsub.2.2]), h.before]
        exact ih e.server index
    · rw [submission_of_not_clientApply (by simpa using hc), ← ih e.server index]
      rcases (h.outcome hr).map with hm | ⟨client, body, hi, -⟩
      · rw [hm, h.before]
      · rw [hi] at hc
        exact absurd rfl hc
  · rw [if_neg hs, submission_of_ne hs]
    exact ih s index

/-! ## Whose entry it is -/

/-- An event that writes nothing leaves the log. -/
theorem Step.not_writes (hr : Reachable c σ) (h : Step c σ e rest) (hno : ∀ i, ¬ e.Writes i) :
    e.after.entries.log = e.before.entries.log := by
  cases (h.outcome hr).log with
  | same hlog => exact hlog
  | appended hi => exact absurd (.inl ⟨by rw [hi]; rfl, rfl⟩) (hno _)
  | @accepted p ae hi hp ha =>
    by_cases hentry : ae.entry = []
    · have hlog := ha.log
      rw [AcceptedLog, hentry] at hlog
      exact hlog.2
    · exact absurd (.inr ⟨p, ae, hi, hp, ha, hentry, rfl⟩) (hno _)

omit [StateMachine SM] in
/-- What an event writes stands at the end of the log. -/
theorem Step.writes (h : Step c σ e rest) (hw : e.Writes index) : ∃ (n : Nat) (entry : RpcEntry), index = n ∧
    n ≤ e.before.entries.log.length ∧ e.after.entries.log = Truncating.insert e.before.entries.log n entry := by
  rcases hw with ⟨hc, rfl⟩ | ⟨p, ae, hi, hp, ha, hentry, rfl⟩
  · obtain ⟨client, body, hi⟩ := Input.eq_clientApply hc
    obtain ⟨es, hlog, hafter⟩ := h.clientApply hi
    refine ⟨e.before.entries.log.length, ⟨e.before.term, e.before.entries.log.length, body⟩, Entries.size_eq _,
      Nat.le_refl _, ?_⟩
    rw [hafter, Truncating.insert_length]
    exact hlog
  · have hlog := ha.log
    unfold AcceptedLog at hlog
    split at hlog
    · rename_i hnil
      exact absurd hnil hentry
    · obtain ⟨m, hindex, -, hle, hlog⟩ := hlog
      exact ⟨m, _, hindex, hle, hlog⟩

/-- The log has at an index the entry that `d` makes. -/
def EntryOf (d : Event) (log : List RpcEntry) (index : Int) : Prop :=
  ∃ (n : Nat) (entry : RpcEntry), index = n ∧ d.creates? = some entry ∧ log[n]? = some entry

/-- What an event does not write, the log keeps. -/
theorem EntryOf.kept {d : Event} (hr : Reachable c σ) (h : Step c σ e rest)
    (hx : EntryOf d e.before.entries.log index) (hw : ∀ i, e.Writes i → index < i) : EntryOf d
    e.after.entries.log index := by
  obtain ⟨n, entry, rfl, hd, hget⟩ := hx
  refine ⟨n, entry, rfl, hd, ?_⟩
  by_cases hwrites : ∃ i, e.Writes i
  · obtain ⟨i, hi⟩ := hwrites
    have hlt := hw i hi
    obtain ⟨m, new, rfl, hle, hlog⟩ := h.writes hi
    rw [hlog, Truncating.getElem?_insert hle, if_pos (by omega)]
    exact hget
  · rw [h.not_writes hr (not_exists.mp hwrites)]
    exact hget

/-- **The entry that is the one `d` made is the entry `d` made**, in each log and when a packet was sent. -/
theorem Reachable.madeBy {d : Event} {before : List Event} (hr : Reachable c σ) :
    (∀ s index, MadeBy d before σ.trace s index → EntryOf d (σ.raft s).entries.log index) ∧
    ∀ f older, f :: older <:+ σ.trace → ∀ index, MadeBy d before (f :: older) f.server index →
      EntryOf d f.after.entries.log index := by
  refine hr.invariant (I := fun σ => (∀ s index, MadeBy d before σ.trace s index →
    EntryOf d (σ.raft s).entries.log index) ∧ ∀ f older, f :: older <:+ σ.trace → ∀ index,
      MadeBy d before (f :: older) f.server index → EntryOf d f.after.entries.log index) ?_ ?_
  · exact ⟨nofun, fun f older hs => by simp [System.start] at hs⟩
  intro σ e rest hr h ih
  obtain ⟨ihnow, ihthen⟩ := ih
  have hself : ∀ index, MadeBy d before (e :: σ.trace) e.server index → EntryOf d e.after.entries.log index := by
    intro index hh
    generalize htrace : e :: σ.trace = trace at hh
    generalize hserver : e.server = s at hh
    cases hh with
    | made hc =>
      obtain ⟨rfl, rfl⟩ := List.cons_eq_cons.mp htrace
      obtain ⟨client, body, hi⟩ := Input.eq_clientApply hc
      obtain ⟨es, hlog, hafter⟩ := h.clientApply hi
      refine ⟨e.before.entries.log.length, ⟨e.before.term, e.before.entries.log.length, body⟩,
        Entries.size_eq _, ?_, ?_⟩
      · unfold Event.creates?
        rw [hi, Entries.size_eq]
      · rw [hafter]
        dsimp only
        rw [hlog, List.getElem?_concat_length]
    | other hh hs =>
      obtain ⟨rfl, rfl⟩ := List.cons_eq_cons.mp htrace
      exact absurd hserver.symm hs
    | kept hh hw =>
      obtain ⟨rfl, rfl⟩ := List.cons_eq_cons.mp htrace
      exact EntryOf.kept hr h (by rw [h.before]; exact ihnow _ _ hh) hw
    | @copied _ _ f older p ae hi hp ha hentry hs hf hh =>
      obtain ⟨rfl, rfl⟩ := List.cons_eq_cons.mp htrace
      obtain ⟨n, entry, hn, hd, hget⟩ := ihthen f older hs _ hh
      -- the AE carries the entry of its sender's log
      obtain ⟨k, hk⟩ := hr.ae_sent ⟨f, mem_of_suffix hs, hf⟩ hp
      have hprelog := hk.built.prelogIndex
      obtain rfl : k = n := by omega
      have hbuilt := hk.built.entry
      rw [(Event.mem_packets.mp hf).2.2.2, hget, Option.toList_some] at hbuilt
      have hlog := ha.log
      rw [AcceptedLog, hbuilt] at hlog
      obtain ⟨m, hm, -, hle, hlog⟩ := hlog
      obtain rfl : m = k := by omega
      refine ⟨m, entry, hn, hd, ?_⟩
      rw [hlog, ← Truncating.insert, Truncating.getElem?_insert hle, if_neg (Nat.lt_irrefl m), if_pos rfl]
  rw [System.trace_next]
  refine ⟨fun s index hh => ?_, fun f older hs index hh => ?_⟩
  · rw [System.raft_next]
    by_cases hs : s = e.server
    · subst hs
      rw [if_pos rfl]
      exact hself index hh
    · rw [if_neg hs]
      cases hh with
      | made | kept | copied => exact absurd rfl hs
      | other hh => exact ihnow s index hh
  · rcases List.suffix_cons_iff.mp hs with heq | hs
    · obtain ⟨rfl, rfl⟩ := List.cons_eq_cons.mp heq
      exact hself index hh
    · exact ihthen f older hs index hh

/-! ## From the log to the client -/

omit [StateMachine SM] in
theorem mem_appliedAt {msg : String} :
    msg ∈ appliedAt trace s index ↔ ∃ e ∈ trace, e.server = s ∧ e.input = .work index msg := by
  unfold appliedAt
  rw [List.mem_filterMap]
  refine exists_congr fun e => and_congr_right fun _ => ?_
  unfold Event.works?
  split
  · rename_i i body hi
    simp [hi, and_assoc]
  · rename_i hne
    simp only [reduceCtorEq, false_iff, not_and]
    exact fun _ hi => hne index msg hi

/-- A handler of `s` had the entry of an index applied. -/
def Handed (trace : List Event) (s : Addr) (index : Int) (msg : String) : Prop :=
  ∃ e ∈ trace, e.server = s ∧ .apply index msg ∈ e.effects

theorem Handed.mono {past : List Event} {msg : String} (h : Handed past s index msg) (hs : past <:+ trace) :
    Handed trace s index msg := by
  obtain ⟨e, he, h⟩ := h
  exact ⟨e, hs.subset he, h⟩

/-- Where the tasks and the callbacks of a process come from. -/
structure Accounted (trace : List Event) (s : Addr) (n : Node SM) : Prop where
  pooled : ∀ task ∈ n.writePool, Handed trace s task.1 task.2
  worked : ∀ index, ∀ msg ∈ appliedAt trace s index, Handed trace s index msg
  posted : ∀ index res, .writeRespApplyCall index res ∈ n.posted → ∃ msg, msg ∈ appliedAt trace s index

theorem Node.writePool_take {n : Node SM} {input : Input} {task : Int × String}
    (h : task ∈ (n.take input).writePool) : task ∈ n.writePool := by
  cases input with
  | work index msg => exact List.mem_of_mem_tail h
  | _ => exact h

theorem Node.posted_take {n : Node SM} {input : Input} {res : String}
    (h : .writeRespApplyCall index res ∈ (n.take input).posted) :
    .writeRespApplyCall index res ∈ n.posted ∨ ∃ msg, input = .work index msg := by
  cases input with
  | work i msg =>
    rcases List.mem_append.mp h with h | h
    · exact .inl h
    · simp only [List.mem_singleton, Callback.writeRespApplyCall.injEq] at h
      exact .inr ⟨msg, by rw [h.1]⟩
  | read body client =>
    rcases List.mem_append.mp h with h | h
    · exact .inl h
    · simp at h
  | callback cb => exact .inl (List.mem_of_mem_tail h)
  | _ => exact .inl h

omit [StateMachine SM] in
theorem Step.handed (h : Step c σ e rest) (hq : Accounted σ.trace e.server (σ.nodes e.server)) {msg : String}
    (hi : e.input = .work index msg) : Handed σ.trace e.server index msg := by
  have ho := h.offers
  rw [hi] at ho
  cases ho with
  | work hw => exact hq.pooled (index, msg) (by rw [hw]; simp)

theorem Reachable.accounted (hr : Reachable c σ) (s : Addr) : Accounted σ.trace s (σ.nodes s) := by
  refine hr.invariant (I := fun σ => ∀ s, Accounted σ.trace s (σ.nodes s)) (fun s => ?_) ?_ s
  · constructor <;> simp [System.start, appliedAt]
  intro σ e rest hr h ih s
  have hsuffix : σ.trace <:+ e :: σ.trace := List.suffix_cons e σ.trace
  have hold : ∀ {msg : String} {index : Int}, msg ∈ appliedAt σ.trace s index →
      msg ∈ appliedAt (e :: σ.trace) s index :=
    fun hm => by
      obtain ⟨d, hd, hw⟩ := mem_appliedAt.mp hm
      exact mem_appliedAt.mpr ⟨d, List.mem_cons_of_mem _ hd, hw⟩
  have hworked : ∀ index, ∀ msg ∈ appliedAt (e :: σ.trace) s index, Handed (e :: σ.trace) s index msg := by
    intro index msg hm
    obtain ⟨d, hd, hds, hi⟩ := mem_appliedAt.mp hm
    rcases List.mem_cons.mp hd with rfl | hd
    · subst hds
      exact (h.handed (ih d.server) hi).mono hsuffix
    · exact ((ih s).worked index msg (mem_appliedAt.mpr ⟨d, hd, hds, hi⟩)).mono hsuffix
  rw [System.trace_next, System.nodes_next]
  by_cases hs : s = e.server
  · rw [if_pos hs]
    subst hs
    refine ⟨fun task hm => ?_, hworked, fun index res hm => ?_⟩
    · rcases List.mem_append.mp hm with hm | hm
      · exact ((ih e.server).pooled task (Node.writePool_take hm)).mono hsuffix
      · obtain ⟨f, hf, ht⟩ := List.mem_filterMap.mp hm
        cases f with
        | apply i msg =>
          cases ht
          exact ⟨e, List.mem_cons_self, rfl, hf⟩
        | _ => cases ht
    · rcases Node.posted_take hm with hm | ⟨msg, hi⟩
      · obtain ⟨msg, hm⟩ := (ih e.server).posted index res hm
        exact ⟨msg, hold hm⟩
      · exact ⟨msg, mem_appliedAt.mpr ⟨e, List.mem_cons_self, rfl, hi⟩⟩
  · rw [if_neg hs]
    refine ⟨fun task hm => ((ih s).pooled task hm).mono hsuffix, hworked, fun index res hm => ?_⟩
    obtain ⟨msg, hm⟩ := (ih s).posted index res hm
    exact ⟨msg, hold hm⟩

/-! ## The clients stay with their entries -/

/-- The entries of the log of `s` for which clients have submitted commands are those they made. -/
def Labelled (trace : List Event) (s : Addr) (log : List RpcEntry) : Prop :=
  ∀ n : Nat, n < log.length → ∀ sub ∈ submission trace s n, MadeBy sub.1 sub.2 trace s n

/-- What the clients of each server know agrees with its log and with what it had applied. -/
structure Settled (σ : System SM) : Prop where
  log : ∀ s, Labelled σ.trace s (σ.raft s).entries.log
  applied : ∀ f older, f :: older <:+ σ.trace → ∀ {i msg}, .apply i msg ∈ f.effects →
    i ≤ (σ.raft f.server).smc.appliedIndex ∧
      ∀ sub ∈ submission σ.trace f.server i, MadeBy sub.1 sub.2 (f :: older) f.server i

theorem Step.passes (hr : Reachable c σ) (h : Step c σ e rest) {ae : AppendEntryRpc} (hi : e.input = .message p)
    (hp : p.rpc = .appendEntry ae) (ha : Accepts e.before ae e.after) : PassesChecks e.before ae := by
  obtain ⟨n, hn⟩ := hr.ae_sent (h.delivered hr hi).1 hp
  have hpre := hn.built.prelogIndex
  obtain ⟨b, hb⟩ : ∃ b, e.before.prelogMatches ae.prelogIndex ae.prelogTerm = .ok b :=
    RaftServer.prelogMatches_eq_ok (by omega) fun hneg => by rw [hn.built.prelogTerm, if_pos (by omega)]
  have htrue : b = true := (RaftServer.prelogMatches_ok hb).mpr ha.prelog
  rw [htrue] at hb
  exact ⟨ha.term_le, ha.not_primary, ha.lsn, hb⟩

theorem Step.labelled (hr : Reachable c σ) (h : Step c σ e rest) (hk : ReplacesNone σ.trace e)
    (hx : Labelled σ.trace e.server e.before.entries.log) :
    Labelled (e :: σ.trace) e.server e.after.entries.log := by
  intro n hn sub hsub
  by_cases hwrites : ∃ i, e.Writes i
  · obtain ⟨i, hi⟩ := hwrites
    obtain ⟨m, new, rfl, hle, hlog⟩ := h.writes hi
    rw [hlog, Truncating.length_insert hle] at hn
    rcases hi with ⟨hc, hm⟩ | ⟨p, ae, hinput, hp, ha, hentry, hm⟩
    · rw [submission] at hsub
      split at hsub
      · rename_i hsubmits
        cases hsub
        rw [← hsubmits.2.2]
        exact .made hc
      · rename_i hsubmits
        have hlt : n < m := by
          have hne : ¬ e.before.entries.size = n := fun hn => hsubmits ⟨hc, rfl, hn⟩
          omega
        refine .kept (hx n (by omega) sub hsub) ?_
        rintro i (⟨-, rfl⟩ | ⟨p, ae, hinput, -⟩)
        · omega
        · rw [hinput] at hc
          cases hc
    · rw [submission_of_not_clientApply (by rw [hinput]; rfl)] at hsub
      have honly : ∀ i, e.Writes i → i = m := by
        rintro i (⟨hc, -⟩ | ⟨q, ae', hinput', hq, -, -, rfl⟩)
        · rw [hinput] at hc
          cases hc
        · rw [hinput] at hinput'
          cases hinput'
          rw [hp] at hq
          cases hq
          exact hm.symm
      by_cases hlt : n < m
      · exact .kept (hx n (by omega) sub hsub) fun i hi => by rw [honly i hi]; omega
      · -- the entry of the AE is the client's
        obtain rfl : n = m := by omega
        rw [hm] at hsub ⊢
        obtain ⟨f, older, hs, hf, hmade⟩ := hk p (by rw [hinput]; rfl) ae (Packet.mem_appendEntry?.mpr hp)
          (h.passes hr hinput hp ha) hentry sub hsub
        exact .copied hinput hp ha hentry hs hf hmade
  · have hno := not_exists.mp hwrites
    rw [h.not_writes hr hno] at hn
    have hc : e.input.isClientApply = false := by
      rw [Bool.eq_false_iff]
      exact fun hc => hno _ (.inl ⟨hc, rfl⟩)
    rw [submission_of_not_clientApply hc] at hsub
    exact .kept (hx n hn sub hsub) fun i hi => absurd hi (hno i)

theorem Step.appliedIndex_le (hr : Reachable c σ) (h : Step c σ e rest) :
    e.before.smc.appliedIndex ≤ e.after.smc.appliedIndex := by
  rcases ((h.outcome hr).applied (h.idle hr)).smc with ⟨hs, -⟩ | hs
  · rw [hs]
  · rw [hs]
    exact Int.le_max_left _ _

theorem Reachable.settled (hr : Reachable c σ) (ha : Along KeepsClients σ.trace) : Settled σ := by
  refine hr.invariantAlong (I := Settled) ha ?_ ?_
  · exact ⟨fun s n hn sub hsub => by simp [submission, System.start] at hsub,
      fun f older hs => by simp [System.start] at hs⟩
  intro σ e rest hr _ h hk ih
  have hlabelled : Labelled (e :: σ.trace) e.server e.after.entries.log :=
    h.labelled hr hk.replaces (by rw [h.before]; exact ih.log e.server)
  constructor
  · intro s
    rw [System.trace_next, System.raft_next]
    by_cases hs : s = e.server
    · rw [if_pos hs, hs]
      exact hlabelled
    · rw [if_neg hs]
      intro n hn sub hsub
      rw [submission_of_ne hs] at hsub
      exact .other (ih.log s n hn sub hsub) hs
  · intro f older hsuffix i msg hmsg
    rw [System.trace_next] at hsuffix ⊢
    rw [System.raft_next]
    rcases List.suffix_cons_iff.mp hsuffix with heq | hsuffix
    · obtain ⟨rfl, rfl⟩ := List.cons_eq_cons.mp heq
      obtain ⟨n, entry, rfl, hget, rfl, -, hle⟩ := ((h.outcome hr).applied (h.idle hr)).tasks hmsg
      rw [if_pos rfl]
      exact ⟨hle, fun sub hsub => hlabelled n (List.getElem?_eq_some_iff.mp hget).1 sub hsub⟩
    · obtain ⟨hle, hsub⟩ := ih.applied f older hsuffix hmsg
      refine ⟨?_, fun sub hs => hsub sub ?_⟩
      · split
        · rename_i hs
          have := h.appliedIndex_le hr
          rw [h.before, ← hs] at this
          exact Int.le_trans hle this
        · exact hle
      · rw [submission] at hs
        split at hs
        · rename_i hsubmits
          -- the index was applied before, so no client's entry goes there
          have hahead := hk.appends hsubmits.1
          rw [h.before, hsubmits.2.1] at hahead
          rw [← hsubmits.2.2, h.before, hsubmits.2.1] at hle
          omega
        · exact hs

/-- What was handed to the state machine of a server for an index is its client's entry. -/
theorem Reachable.appliedFor (hr : Reachable c σ) (hk : Along KeepsClients σ.trace) {sub : Event × List Event}
    (hsub : sub ∈ submission σ.trace s index) {f : Event} {msg : String} (hf : f ∈ σ.trace) (hs : f.server = s)
    (hmsg : .apply index msg ∈ f.effects) :
    ∃ (n : Nat) (entry : RpcEntry), index = n ∧ sub.1.creates? = some entry ∧
    f.after.entries.log[n]? = some entry ∧
      msg = entry.msg := by
  obtain ⟨older, hsuffix⟩ := exists_past hf
  subst hs
  obtain ⟨n, entry, rfl, hcreates, hget⟩ :=
    hr.madeBy.2 f older hsuffix index (((hr.settled hk).applied f older hsuffix hmsg).2 sub hsub)
  obtain ⟨σ₀, rest, hr₀, rfl, h⟩ := hr.at hsuffix
  obtain ⟨m, entry', hm, hget', rfl, -⟩ := ((h.outcome hr₀).applied (h.idle hr₀)).tasks hmsg
  obtain rfl : m = n := by omega
  rw [hget] at hget'
  cases hget'
  exact ⟨m, entry, rfl, hcreates, hget, rfl⟩

/-- **No false acknowledgement**, in the runs whose steps keep the clients with
their entries. -/
theorem no_false_ack (hr : Reachable c σ) (ha : Along KeepsClients σ.trace) : Along TrueAck σ.trace := by
  refine hr.invariantAlong (I := fun σ => Along TrueAck σ.trace) ha trivial ?_
  intro σ e rest hr ha h hk ih
  refine ⟨?_, ih⟩
  intro p hp res hres
  have hs := h.sends hr hp
  rw [show p.rpc = .respClientApply res from Packet.mem_respClientApply?.mp hres] at hs
  cases hs with
  | @respClientApply index _ hi hstate hmap =>
    refine ⟨(index, res), by rw [hi]; rfl, rfl, ?_⟩
    rw [h.before, hr.map_submission, Option.bind_eq_some_iff] at hmap
    obtain ⟨sub, hsub, hdst⟩ := hmap
    have haccounted := hr.accounted e.server
    have ho := h.offers
    rw [hi] at ho
    cases ho with
    | callback hposted =>
      obtain ⟨msg, hm⟩ := haccounted.posted index res (by rw [hposted]; simp)
      obtain ⟨d, hd, hds, happly⟩ := haccounted.worked index msg hm
      obtain ⟨n, entry, -, hcreates, -, rfl⟩ := hr.appliedFor ha hsub hd hds happly
      refine ⟨sub, hsub, hdst, fun f older hsuffix hfs msg hmsg => ?_, entry, hcreates, hm, fun msg hm => ?_⟩
      · rw [← hfs] at hsub ⊢
        exact ((hr.settled ha).applied f older hsuffix hmsg).2 sub hsub
      · obtain ⟨d, hd, hds, happly⟩ := haccounted.worked index msg hm
        obtain ⟨m, entry', -, hcreates', -, rfl⟩ := hr.appliedFor ha hsub hd hds happly
        rw [hcreates] at hcreates'
        cases hcreates'
        rfl

end Runs

def client2 : Addr := ⟨"127.0.0.1", 5001⟩

/-- B commits y in the place of x, and A, primary again, learns of it. -/
def replacedX : List Action :=
  electA ++ [.clientApply serverA client "x"] ++ campaign serverB ++
  [.deliver 4, .deliver 4, .clientApply serverB client2 "y", .deliver 4, .deliver 5, .deliver 5] ++
  campaign serverA ++ [.deliver 6, .deliver 7, .deliver 7, .deliver 8, .work serverA, .callback serverA]

theorem replacedX_false_ack :
    ¬ ∀ σ : System Unit, Reachable threeServers σ → Along TrueAck σ.trace := by
  intro hall
  obtain ⟨σ, hr, hf⟩ := System.exists_reachable threeServers replacedX
    (P := fun σ : System Unit => ¬ Along (fun past e => ∀ p ∈ e.packets, ∀ res ∈ p.respClientApply?,
      ∃ call ∈ e.input.respApplyCall?, ∃ sub ∈ submission past e.server call.1, ∃ entry ∈ sub.1.creates?,
        entry.msg ∈ appliedAt past e.server call.1) σ.trace) (by decide +kernel)
  refine hf ((hall σ hr).imp fun past e hack p hp res hres => ?_)
  obtain ⟨call, hcall, -, sub, hsub, -, -, entry, hcreates, happlied, -⟩ := hack p hp res hres
  exact ⟨call, hcall, sub, hsub, entry, hcreates, happlied⟩

theorem commitX_true_ack : ∃ σ : System Unit,
    (∃ e ∈ σ.trace, ∃ p ∈ e.packets, p.dst = client) ∧ Along TrueAck σ.trace := by
  obtain ⟨σ, hr, hp, ha⟩ := System.exists_reachable threeServers (commitX ++ [.work serverA, .callback serverA])
    (P := fun σ : System Unit => (∃ e ∈ σ.trace, ∃ p ∈ e.packets, p.dst = client) ∧
      Along (fun past e => Unclaimed past e ∧ AppendsUnapplied past e) σ.trace) (by decide +kernel)
  exact ⟨σ, hp, no_false_ack hr (ha.imp fun past e h => ⟨h.1.replacesNone, h.2⟩)⟩

end MyRaft
