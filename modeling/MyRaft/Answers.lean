/-
The answers of a cluster. What its clients are told is what one abstract machine
returns that has run a beginning of the history: whichever server answers, and
although `get` of `EasyStateMachine` writes to its map. A call of the machine is
one step, as if its map had a lock.
-/
import MyRaft.Replicas
import MyRaft.Queries

namespace MyRaft

open History Lineage
open Bytes (ofText text)
open Proto3
open StdLib (StdMap)

section Runs

variable {SM : Type} [StateMachine SM] {c : Cluster} {σ : System SM} {e : Event} {rest : List Packet}
  {trace : List Event}
  {s : Addr}

/-! ## One machine -/

omit [StateMachine SM] in
theorem commands_callsOf (trace : List Event) (s : Addr) :
    Machines.commands (callsOf trace s) = (runBy trace s).map Prod.snd := by
  induction trace with
  | nil => rfl
  | cons e past ih =>
    have he : Machines.commands (e.calls s) = (e.runs s).map Prod.snd := by
      unfold Event.calls Event.runs
      by_cases hs : e.server = s
      · cases e.input <;> simp [hs]
      · cases e.input <;> simp [hs]
    rw [callsOf, runBy] at ih ⊢
    rw [gather, gather, Machines.commands_append, List.map_append, he, ih]

theorem mem_postedTo {cb : Callback} (h : cb ∈ postedTo SM s trace) :
    ∃ e past, e :: past <:+ trace ∧ cb ∈ e.posts (machineAt SM past s) s := by
  induction trace with
  | nil => cases h
  | cons e past ih =>
    rcases List.mem_append.mp h with h | h
    · obtain ⟨d, past', hs, hd⟩ := ih h
      exact ⟨d, past', hs.trans (List.suffix_cons e past), hd⟩
    · exact ⟨e, past, List.suffix_refl _, h⟩

/-- A callback that the event loop runs was posted before. -/
theorem Step.posted (hr : Reachable c σ) (h : Step c σ e rest) {cb : Callback} (hi : e.input = .callback cb) :
    ∃ d past, d :: past <:+ σ.trace ∧ cb ∈ d.posts (machineAt SM past e.server) e.server := by
  refine mem_postedTo ?_
  have ho := h.offers
  rw [hi] at ho
  cases ho with
  | callback hcb =>
    rw [(hr.served e.server).posted, hcb]
    exact List.mem_append_right _ List.mem_cons_self

omit [StateMachine SM] in
theorem Ordered.commands {history : List RpcEntry} {past : List Event} (h : Ordered trace history)
    (hrun : runBy past s <+: handedTo trace s) :
    Machines.commands (callsOf past s) = commandsOf (history.take (runBy past s).length) := by
  rw [commands_callsOf, commandsOf_take (hrun.trans (h.handed s))]

/-- A reply to a client is what the abstract machine returns on a beginning of the history: to the
command there, or to a query of that client that the server read after it had run so far. -/
def FromHistory {ν : Type} (spec : Machines.Spec ν String String String) (history : List RpcEntry)
    (past : List Event) (e : Event) (p : Packet) : Prop :=
  match p.rpc with
  | .respClientApply res => ∃ (n : Nat) (entry : RpcEntry), e.input = .callback (.writeRespApplyCall n res) ∧
      n < (runBy past e.server).length ∧ history[n]? = some entry ∧
      e.before.entryIndexToSocketAddrMap.find? n = some p.dst ∧
      res = spec.output (commandsOf (history.take n)) (.command entry.msg)
  | .respClientQuery res =>
    ∃ d before body, d :: before <:+ past ∧ d.server = e.server ∧ d.input = .read body p.dst ∧
      (∃ q ∈ before, q.server = e.server ∧ q.input = .clientQuery p.dst body) ∧
      res = spec.output (commandsOf (history.take (runBy before e.server).length)) (.query body)
  | _ => True

section Abstract

variable {ν : Type} {spec : Machines.Spec ν String String String} {view : SM → ν} {history : List RpcEntry}
  {p : Packet}

/-- The result of a task is that of its command on what was run before it. -/
theorem Step.told (him : Machines.Implements (machine SM) spec view) (hr : Reachable c σ)
    (ho : Ordered trace history) (hs : e :: σ.trace <:+ trace) (h : Step c σ e rest)
    (hp : p ∈ e.packets) {res : String} (hres : p.rpc = .respClientApply res) : FromHistory spec history
    σ.trace e p := by
  have hsends := h.sends hr hp
  rw [hres] at hsends
  cases hsends with
  | @respClientApply index _ hi hstate hmap =>
    obtain ⟨d, before, hd, hposts⟩ := h.posted hr hi
    unfold Event.posts at hposts
    split at hposts
    · rename_i index' msg hdi
      split at hposts
      swap
      · cases hposts
      rename_i hds
      simp only [List.mem_singleton, Callback.writeRespApplyCall.injEq] at hposts
      obtain ⟨rfl, rfl⟩ := hposts
      have hruns : runBy (d :: before) e.server = runBy before e.server ++ [(index, msg)] := by
        simp [runBy, gather, Event.runs, hdi, hds]
      have hle : runBy (d :: before) e.server <+: handedTo trace e.server :=
        ((gather_mono hd).trans (hr.run_prefix e.server)).trans (gather_mono (past_suffix hs))
      have htask : (tasksOf history)[(runBy before e.server).length]? = some (index, msg) := by
        refine getElem?_extend (hle.trans (ho.handed e.server)) ?_
        rw [hruns]
        exact List.getElem?_concat_length
      rw [tasksOf, List.getElem?_mapIdx, Option.map_eq_some_iff] at htask
      obtain ⟨entry, hget, htask⟩ := htask
      cases htask
      have hcommands := ho.commands ((gather_mono (List.suffix_cons d before)).trans hle)
      unfold FromHistory
      rw [hres]
      refine ⟨_, entry, hi, ?_, hget, hmap, ?_⟩
      · have hlen := (gather_mono (f := Event.runs e.server) hd).length_le
        have hlen' := congrArg List.length hruns
        simp only [runBy, List.length_append, List.length_singleton] at hlen' hlen ⊢
        omega
      · rw [← hcommands]
        exact him.output (callsOf before e.server) (.command entry.msg)
    · split at hposts
      · simp at hposts
      · cases hposts
    · cases hposts

/-- The answer to a query is that on what its reader's server had run. -/
theorem Step.answered (him : Machines.Implements (machine SM) spec view) (hr : Reachable c σ)
    (ho : Ordered trace history) (hs : e :: σ.trace <:+ trace) (h : Step c σ e rest)
    (hp : p ∈ e.packets) {res : String} (hres : p.rpc = .respClientQuery res) : FromHistory spec history
    σ.trace e p := by
  have heff := (Event.mem_packets.mp hp).1
  rw [hres] at heff
  obtain ⟨d, before, hd, hposts⟩ := h.posted hr ((h.outcome hr).answers (h.idle hr) heff)
  unfold Event.posts at hposts
  split at hposts
  · split at hposts
    · simp at hposts
    · cases hposts
  · rename_i body client hdi
    split at hposts
    swap
    · cases hposts
    rename_i hds
    simp only [List.mem_singleton, Callback.writeRespQueryCall.injEq] at hposts
    obtain ⟨rfl, rfl⟩ := hposts
    obtain ⟨σd, restd, hrd, rfl, hstd⟩ := hr.at hd
    have hread : ∃ q ∈ σd.trace, q.server = e.server ∧ q.input = .clientQuery p.dst body := by
      have hoffers := hstd.offers
      rw [hdi, hds] at hoffers
      cases hoffers with
      | read hm => exact (hrd.served e.server).readPool _ hm
    unfold FromHistory
    rw [hres]
    refine ⟨d, σd.trace, body, hd, hds, hdi, hread, ?_⟩
    have hle : runBy σd.trace e.server <+: handedTo trace e.server :=
      (hrd.run_prefix e.server).trans (gather_mono ((past_suffix hd).trans (past_suffix hs)))
    rw [← ho.commands hle]
    exact him.output (callsOf σd.trace e.server) (.query body)
  · cases hposts

/-- **The cluster answers as one machine that has run a beginning of the history**, in the
runs whose steps are disciplined. -/
theorem answers_of_one_machine (him : Machines.Implements (machine SM) spec view) (hr : Reachable c σ)
    (ha : Along Disciplined σ.trace) : ∃ history, Ordered σ.trace history ∧
      (∀ s, view (σ.nodes s).stateMachine = spec.run (commandsOf (history.take (runBy σ.trace s).length))) ∧
      Along (fun past e => ∀ p ∈ e.packets, FromHistory spec history past e p) σ.trace := by
  obtain ⟨history, ho⟩ := hr.ordered ha
  refine ⟨history, ho, fun s => ?_, along_of_forall fun e past hs p hp => ?_⟩
  · rw [(hr.served s).stateMachine, machineAt, him.run, ho.commands (hr.run_prefix s)]
  · obtain ⟨σ₀, rest, hr₀, rfl, h⟩ := hr.at hs
    cases hrpc : p.rpc with
    | respClientApply res => exact h.told him hr₀ ho hs hp hrpc
    | respClientQuery res => exact h.answered him hr₀ ho hs hp hrpc
    | _ => simp only [FromHistory, hrpc]

end Abstract

end Runs

/-! ## `EasyStateMachine` -/

namespace EasyStateMachine

variable (pb : Protobuf)

/-- The state machine that `main` gives a server. -/
abbrev instStateMachine : StateMachine EasyStateMachine where
  initial := .initial
  apply sm msg := sm.apply (.of pb) msg
  get sm body := sm.get pb body

/-- A table of the values of all keys, 0 at first. -/
def table : Machines.Spec (String → Int) String String String where
  initial _ := 0
  apply values msg :=
    let call := (EasyCodec.of pb).parseApplyCall msg
    (Function.update values call.key call.v, (EasyCodec.of pb).serializeRespApply true)
  answer values body :=
    let call := (pb.parseFromString QueryCall.proto (ofText body)).2
    text (pb.serializeToString RespQuery.proto ⟨true, values call.key⟩)

/-- **`EasyStateMachine` is such a table**: a key that `get` binds reads as before. -/
theorem implements_table : Machines.Implements (@machine EasyStateMachine (instStateMachine pb)) (table pb)
    fun sm => sm.mockStateMachine.get where
  initial := rfl
  apply sm msg := by
    refine ⟨funext fun key => ?_, rfl⟩
    change (sm.apply (.of pb) msg).1.mockStateMachine.get key = _
    simp [apply, table, StdMap.get_set, Function.update_apply]
  get sm body := by
    refine ⟨funext fun key => ?_, ?_⟩
    · change (sm.get pb body).1.mockStateMachine.get key = _
      simp [get, StdMap.get_index]
    · change (sm.get pb body).2 = _
      simp [get, table, StdMap.index_fst]

/-- The value of a key after some commands: that of the last one for it, or 0. -/
def valueOf (msgs : List String) (key : String) : Int := ((lastCall (.of pb) msgs key).map ApplyCall.v).getD 0

theorem run_table (msgs : List String) (key : String) : (table pb).run msgs key = valueOf pb msgs key := by
  induction msgs using List.reverseRecOn with
  | nil => rfl
  | append_singleton msgs msg ih =>
    rw [Machines.Spec.run_concat]
    by_cases hkey : ((EasyCodec.of pb).parseApplyCall msg).key = key
    · subst hkey
      simp [table, valueOf, lastCall]
    · have hne : ¬ key = ((EasyCodec.of pb).parseApplyCall msg).key := fun he => hkey he.symm
      simp [table, valueOf, lastCall, hkey, hne] at ih ⊢
      exact ih

variable {c : Cluster} {σ : System EasyStateMachine}

/-- **A query is answered with the value of its key after a beginning of the history**, whichever
server it was sent to, in the runs whose steps are disciplined. -/
theorem query_answered (hr : @Reachable EasyStateMachine (instStateMachine pb) c σ)
    (ha : Along Disciplined σ.trace) :
    ∃ history, Ordered σ.trace history ∧
      (∀ s key, (σ.nodes s).stateMachine.mockStateMachine.get key =
        valueOf pb (commandsOf (history.take (runBy σ.trace s).length)) key) ∧
      Along (fun past e => ∀ p ∈ e.packets, ∀ res, p.rpc = .respClientQuery res → ∃ d before body,
        d :: before <:+ past ∧ d.server = e.server ∧ d.input = .read body p.dst ∧
        (∃ q ∈ before, q.server = e.server ∧ q.input = .clientQuery p.dst body) ∧
        res = text (pb.serializeToString RespQuery.proto ⟨true,
          valueOf pb (commandsOf (history.take (runBy before e.server).length))
            (pb.parseFromString QueryCall.proto (ofText body)).2.key⟩)) σ.trace := by
  let _ := instStateMachine pb
  obtain ⟨history, ho, hviews, hanswers⟩ := answers_of_one_machine (implements_table pb) hr ha
  refine ⟨history, ho, fun s key => ?_, hanswers.imp fun past e h p hp res hres => ?_⟩
  · rw [← run_table, ← hviews s]
  · have hfrom := h p hp
    unfold FromHistory at hfrom
    rw [hres] at hfrom
    obtain ⟨d, before, body, hd, hds, hdi, hq, rfl⟩ := hfrom
    exact ⟨d, before, body, hd, hds, hdi, hq, by rw [← run_table]; rfl⟩

/-- A commits that k is 5, and tells the client so twice: when it has applied it, and when it is asked. -/
def setAndAskK : List Action :=
  electA ++ [.clientApply serverA client "\n\x01k\x10\x05", .deliver 1, .deliver 2, .deliver 2, .deliver 2,
    .work serverA, .callback serverA, .clientQuery serverA client "\n\x01k", .read serverA, .callback serverA]

theorem setAndAskK_ok : ∃ σ : System EasyStateMachine, @Reachable _ (instStateMachine protobuf) threeServers σ ∧
    Along Disciplined σ.trace ∧ ∃ e ∈ σ.trace, ∃ p ∈ e.packets, p.rpc = .respClientQuery "\x08\x01\x10\x05" :=
  let _ := instStateMachine protobuf
  System.exists_reachable threeServers setAndAskK (by decide +kernel)

theorem setAndAskK_answered : ∃ (σ : System EasyStateMachine) (history : List RpcEntry), Ordered σ.trace history ∧
    (∃ e ∈ σ.trace, ∃ p ∈ e.packets, p.rpc = .respClientQuery "\x08\x01\x10\x05") ∧
    Along (fun past e => ∀ p ∈ e.packets, FromHistory (table protobuf) history past e p) σ.trace := by
  let _ := instStateMachine protobuf
  obtain ⟨σ, hr, ha, htold⟩ := setAndAskK_ok
  obtain ⟨history, ho, -, hanswers⟩ := answers_of_one_machine (implements_table protobuf) hr ha
  exact ⟨σ, history, ho, htold, hanswers⟩

theorem setAndAskK_values : ∃ (σ : System EasyStateMachine) (history : List RpcEntry), Ordered σ.trace history ∧
    (∃ e ∈ σ.trace, ∃ p ∈ e.packets, p.rpc = .respClientQuery "\x08\x01\x10\x05") ∧
    ∀ s key, (σ.nodes s).stateMachine.mockStateMachine.get key =
      valueOf protobuf (commandsOf (history.take (runBy σ.trace s).length)) key := by
  obtain ⟨σ, hr, ha, htold⟩ := setAndAskK_ok
  obtain ⟨history, ho, hvalues, -⟩ := query_answered protobuf hr ha
  exact ⟨σ, history, ho, htold, hvalues⟩

end EasyStateMachine

end MyRaft
