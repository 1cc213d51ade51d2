/-
Linearizability of commands. A server tells a client of its command once it has
run it, and the command then has its place in the history: what is submitted
later comes behind it, to whichever server.

Queries are not ordered so: any server answers them from what it has run. But a
server that has told of a command answers what it is asked later with it run.
-/
import MyRaft.Answers

namespace MyRaft

open History Lineage
open StdLib (StdMap)

/-- The event tells a client the result of the command of an index. -/
def Acks (e : Event) (n : Nat) (client : Addr) : Prop :=
  ∃ p ∈ e.packets, ∃ res, e.input = .callback (.writeRespApplyCall n res) ∧ p.rpc = .respClientApply res ∧
  p.dst = client

section Runs

variable {SM : Type} [StateMachine SM] {c : Cluster} {σ : System SM} {e : Event} {rest : List Packet}
  {trace past : List Event}
  {history : List RpcEntry} {entry entry' : RpcEntry} {b g : Event} {n m : Nat} {client : Addr}

/-! ## Places in the history -/

omit [StateMachine SM] in
theorem Step.creates (h : Step c σ e rest) (hc : e.creates? = some entry) :
    entry.term = e.before.term ∧ entry.index = e.before.entries.log.length ∧ e.input.isClientApply = true ∧
      e.after.term = e.before.term ∧ e.after.state = e.before.state ∧
      e.after.entries.log = e.before.entries.log ++ [entry] := by
  unfold Event.creates? at hc
  split at hc
  · rename_i client body hi
    obtain ⟨es, hlog, hafter⟩ := h.clientApply hi
    cases hc
    rw [hafter, Entries.size_eq, hi]
    exact ⟨rfl, rfl, rfl, rfl, rfl, hlog⟩
  · cases hc

theorem Reachable.creates_lt (hr : Reachable c σ) (ho : Orderly σ.trace) (hb : b :: past <:+ σ.trace)
    (hg : g ∈ past) (hcb : b.creates? = some entry) (hcg : g.creates? = some entry')
    (hterm : entry'.term = entry.term) :
    entry'.index < entry.index := by
  obtain ⟨σb, restb, hrb, rfl, hstb⟩ := hr.at hb
  obtain ⟨σg, restg, hrg, hgs, hstg⟩ := hrb.step_of_mem hg
  obtain ⟨hbterm, hbindex, hbi, hbsame, hbstate, -⟩ := hstb.creates hcb
  obtain ⟨hgterm, hgindex, hgi, hgsame, hgstate, hglog⟩ := hstg.creates hcg
  have hbprimary : b.after.state = .primary := hbstate.trans ((ho.applies.at hb) hbi)
  have hgprimary : g.after.state = .primary := hgstate.trans ((ho.applies.at (hgs.trans (past_suffix hb))) hgi)
  have hserver := ho.one g ((past_suffix hb).subset hg) b (mem_of_suffix hb) hgprimary hbprimary (by omega)
  -- the primary has kept the entry it made first
  have hsince := (hrb.since hg).log
  rw [hserver, ← hstb.before] at hsince
  have hlen := (hsince (by omega) hgprimary).length_le
  rw [hglog, List.length_append, List.length_singleton] at hlen
  omega

theorem Reachable.creates_once (hr : Reachable c σ) (ho : Orderly σ.trace) (hb : b :: past <:+ σ.trace)
    {past' : List Event} (hg : g :: past' <:+ σ.trace) (hcb : b.creates? = some entry)
    (hcg : g.creates? = some entry) :
    b :: past = g :: past' := by
  rcases suffix_cases hb hg with hbefore | hafter | ⟨rfl, rfl⟩
  · exact absurd (hr.creates_lt ho hg (mem_of_suffix hbefore) hcg hcb rfl) (by omega)
  · exact absurd (hr.creates_lt ho hb (mem_of_suffix hafter) hcb hcg rfl) (by omega)
  · rfl

theorem Ordered.indexed (h : Ordered σ.trace history) (hr : Reachable c σ) (hm : history[m]? = some entry) :
    entry.index = m := by
  rcases h.reached with rfl | ⟨d, hd, rfl⟩
  · cases hm
  · obtain ⟨σ₀, rest, hr₀, -, hst⟩ := hr.step_of_mem hd
    exact (hst.ranges hr₀ (hst.ranges_before hr₀)).indexed m entry (getElem?_extend (List.take_prefix _ _) hm)

/-- **What is submitted once an index is committed comes behind it.** -/
theorem Ordered.behind (h : Ordered σ.trace history) (hr : Reachable c σ) (ho : Orderly σ.trace)
    (hb : b :: past <:+ σ.trace) (hcb : b.creates? = some entry) (hm : history[m]? = some entry) {f : Event}
    (hf : f ∈ past) (hn : n < f.after.committedLog.length) : n < m := by
  by_contra hle
  have hfm : f ∈ σ.trace := (past_suffix hb).subset hf
  have hget : f.after.committedLog[m]? = some entry := by
    rw [← hm]
    obtain ⟨tail, htail⟩ := h.committed f hfm
    rw [← htail, List.getElem?_append_left (by omega)]
  -- the entry was in a log before, so it was made before
  obtain ⟨σb, restb, hrb, rfl, hstb⟩ := hr.at hb
  obtain ⟨g, hg, hcg⟩ := hrb.entry_created f hf entry (List.mem_of_mem_take (List.mem_of_getElem? hget))
  exact absurd (hr.creates_lt ho hb hg hcb hcg rfl) (by omega)

/-! ## Acknowledgements -/

theorem Step.acks (hr : Reachable c σ) (h : Step c σ e rest) (ha : Acks e n client) :
    n < (runBy σ.trace e.server).length ∧ e.before.entryIndexToSocketAddrMap.find? n = some client ∧
      ∃ f ∈ σ.trace, n < f.after.committedLog.length := by
  obtain ⟨p, hp, res, hi, hres, rfl⟩ := ha
  have hsends := h.sends hr hp
  rw [hres] at hsends
  cases hsends with
  | @respClientApply index _ hi' hstate hmap =>
    rw [hi] at hi'
    cases hi'
    obtain ⟨d, before, hd, hposts⟩ := h.posted hr hi
    have hwork : ∃ msg, (↑n, msg) ∈ d.runs e.server := by
      unfold Event.posts at hposts
      unfold Event.runs
      split at hposts
      · rename_i index msg hdi
        split at hposts
        · rename_i hds
          simp only [List.mem_singleton, Callback.writeRespApplyCall.injEq] at hposts
          exact ⟨msg, by simp [hdi, hds, hposts.1]⟩
        · cases hposts
      · split at hposts
        · simp at hposts
        · cases hposts
      · cases hposts
    obtain ⟨msg, hmsg⟩ := hwork
    have hrun : (↑n, msg) ∈ runBy σ.trace e.server := mem_gather.mpr ⟨d, mem_of_suffix hd, hmsg⟩
    obtain ⟨f, hf, -, heff⟩ := mem_handedTo.mp ((hr.run_prefix e.server).subset hrun)
    obtain ⟨k, entry, hk, hget, -⟩ := hr.apply_committed hf heff
    obtain rfl : k = n := by omega
    refine ⟨?_, hmap, f, hf, (List.getElem?_eq_some_iff.mp hget).1⟩
    obtain ⟨i, hi', hrun⟩ := List.getElem_of_mem hrun
    have hindex :=
      hr.handed_index (getElem?_extend (hr.run_prefix e.server) (List.getElem?_eq_some_iff.mpr ⟨hi', hrun⟩))
    dsimp only at hindex
    omega

/-- Its client made, with its last submission to that server for that index,
the entry that the history has there. -/
theorem Step.acks_own (hr : Reachable c σ) (h : Step c σ e rest) (hk : Along KeepsClients σ.trace)
    (ha : Acks e n client) (ho : Ordered trace history) (hs : σ.trace <:+ trace) (hm : history[n]? = some entry) :
    ∃ d before, d :: before <:+ σ.trace ∧ d.server = e.server ∧ d.creates? = some entry ∧
      d.input.submitter? = some client := by
  obtain ⟨hn, hmap, -⟩ := h.acks hr ha
  rw [h.before, hr.map_submission, Option.bind_eq_some_iff] at hmap
  obtain ⟨sub, hsub, hclient⟩ := hmap
  obtain ⟨hsuffix, hsubmits⟩ := submission_suffix hsub
  refine ⟨sub.1, sub.2, hsuffix, hsubmits.2.1, ?_, hclient⟩
  have hget := List.getElem?_eq_getElem hn
  have hhanded := getElem?_extend (hr.run_prefix e.server) hget
  have hindex := hr.handed_index hhanded
  -- the entry that was handed over is of the committed log, and so of the history
  obtain ⟨f, hf, hfs, heff⟩ := mem_handedTo.mp (List.mem_of_getElem? hhanded)
  rw [hindex] at heff
  obtain ⟨k, entry', hk', hcreates, hlog, -⟩ := hr.appliedFor hk hsub hf hfs heff
  obtain ⟨j, entry'', hj, hcommitted, -⟩ := hr.apply_committed hf heff
  obtain rfl : k = n := by omega
  obtain rfl : j = k := by omega
  have hhistory := getElem?_extend (ho.committed f (hs.subset hf)) hcommitted
  rw [hm] at hhistory
  cases hhistory
  have hown := getElem?_extend (List.take_prefix _ _) hcommitted
  rw [hlog] at hown
  cases hown
  exact hcreates

/-! ## One order -/

variable {ν : Type} {spec : Machines.Spec ν String String String} {view : SM → ν}

/-- The history is an order of the commands in which each has its effect at once. -/
structure Linearizes (spec : Machines.Spec ν String String String) (trace : List Event)
    (history : List RpcEntry) : Prop where
  ordered : Ordered trace history
  /-- Each entry was made by one event. -/
  once : ∀ entry ∈ history, ∃ d before, d :: before <:+ trace ∧ d.creates? = some entry ∧
    ∀ d' before', d' :: before' <:+ trace → d'.creates? = some entry → d' :: before' = d :: before
  answers : Along (fun past e => ∀ p ∈ e.packets, FromHistory spec history past e p) trace
  /-- A result is told to the client whose submission to that server made the entry. -/
  own : Along (fun past e => ∀ n client, Acks e n client → ∃ entry, history[n]? = some entry ∧
    ∃ d before, d :: before <:+ past ∧ d.server = e.server ∧ d.creates? = some entry ∧
      d.input.submitter? = some client) trace
  /-- What is submitted after a result was told comes behind it. -/
  realTime : Along (fun past b => ∀ entry ∈ b.creates?, ∀ m : Nat, history[m]? = some entry →
    ∀ a ∈ past, ∀ n client, Acks a n client → n < m) trace
  /-- What a server reads after it told a result is read with that command run. -/
  reads : Along (fun past d => ∀ body client, d.input = .read body client →
    ∀ a ∈ past, a.server = d.server → ∀ n client, Acks a n client → n < (runBy past d.server).length) trace

/-- An acknowledgement of the past, with the state before it. -/
theorem Reachable.acked (hr : Reachable c σ) (hs : past <:+ σ.trace) {a : Event} (ha : a ∈ past)
    (hack : Acks a n client) :
    n < (runBy past a.server).length ∧ ∃ f ∈ past, n < f.after.committedLog.length := by
  obtain ⟨past', hpast⟩ := exists_past ha
  obtain ⟨σa, resta, hra, rfl, hsta⟩ := hr.at (hpast.trans hs)
  obtain ⟨hrun, -, f, hf, hn⟩ := hsta.acks hra hack
  have hle := (gather_mono (f := Event.runs a.server) (past_suffix hpast)).length_le
  simp only [runBy] at hrun ⊢
  exact ⟨by omega, f, (past_suffix hpast).subset hf, hn⟩

/-- **Commands are linearizable**, in the runs whose steps are disciplined and keep the
clients with their entries. -/
theorem commands_linearizable (him : Machines.Implements (machine SM) spec view) (hr : Reachable c σ)
    (ha : Along Disciplined σ.trace) (hk : Along KeepsClients σ.trace) : ∃ history,
    Linearizes spec σ.trace history := by
  obtain ⟨history, ho, -, hanswers⟩ := answers_of_one_machine him hr ha
  have horderly := hr.orderly ha
  refine ⟨history, ho, fun entry hentry => ?_, hanswers, along_of_forall fun e past hs n client hack => ?_,
    along_of_forall fun b past hs entry hc m hm a ham n client hack => ?_,
    along_of_forall fun d past hs body client hi a ham hds n client' hack => ?_⟩
  · obtain ⟨d, hd, hc⟩ := ho.made entry hentry
    obtain ⟨before, hs⟩ := exists_past hd
    exact ⟨d, before, hs, hc, fun d' before' hs' hc' => hr.creates_once horderly hs' hs hc' hc⟩
  · obtain ⟨p, hp, res, hi, hres, hdst⟩ := hack
    have hfrom := hanswers.at hs p hp
    unfold FromHistory at hfrom
    rw [hres] at hfrom
    obtain ⟨k, entry, hi', -, hget, -⟩ := hfrom
    rw [hi] at hi'
    obtain rfl : n = k := by simp at hi'; omega
    obtain ⟨σ₀, rest, hr₀, rfl, hst⟩ := hr.at hs
    exact ⟨entry, hget, hst.acks_own hr₀ (hk.suffix (past_suffix hs)) ⟨p, hp, res, hi, hres, hdst⟩ ho
      (past_suffix hs) hget⟩
  · obtain ⟨-, f, hf, hn⟩ := hr.acked (past_suffix hs) ham hack
    exact ho.behind hr horderly hs hc hm hf hn
  · rw [← hds]
    exact (hr.acked (past_suffix hs) ham hack).1

end Runs

/-- The results of a machine that answers nothing. -/
def silent : Machines.Spec Unit String String String := ⟨(), fun _ _ => ((), ""), fun _ _ => ""⟩

theorem implements_silent : Machines.Implements (machine Unit) silent id :=
  ⟨rfl, fun _ _ => ⟨rfl, rfl⟩, fun _ _ => ⟨rfl, rfl⟩⟩

/-- A tells the client of x, and then the client submits y. -/
def xThenY : List Action :=
  commitX ++ [.work serverA, .callback serverA, .clientApply serverA client "y"]

theorem xThenY_linearizable : ∃ (σ : System Unit) (history : List RpcEntry), Linearizes silent σ.trace history ∧
    (∃ a ∈ σ.trace, ∃ p ∈ a.packets, p.rpc = .respClientApply "" ∧ p.dst = client) ∧
    ∃ b ∈ σ.trace, b.creates? = some ⟨1, 1, "y"⟩ := by
  obtain ⟨σ, hr, ha, hk, htold, hmade⟩ := System.exists_reachable threeServers xThenY
    (P := fun σ : System Unit => Along Disciplined σ.trace ∧
      Along (fun past e => Unclaimed past e ∧ AppendsUnapplied past e) σ.trace ∧
      (∃ a ∈ σ.trace, ∃ p ∈ a.packets, p.rpc = .respClientApply "" ∧ p.dst = client) ∧
      ∃ b ∈ σ.trace, b.creates? = some ⟨1, 1, "y"⟩) (by decide +kernel)
  obtain ⟨history, h⟩ := commands_linearizable implements_silent hr ha
    (hk.imp fun past e h => ⟨h.1.replacesNone, h.2⟩)
  exact ⟨σ, history, h, htold, hmade⟩

/-- And then it asks C, which has heard of no entry. -/
def xThenAskC : List Action :=
  commitX ++ [.work serverA, .callback serverA, .clientQuery serverC client "", .read serverC]

/-- Queries are not: C answers without a command that A has told its client of. -/
theorem xThenAskC_stale :
    ¬ ∀ (σ : System Unit) (d a : Event) (past : List Event) (n : Nat), Reachable threeServers σ →
    Along Disciplined σ.trace → d :: past <:+ σ.trace → d.calls d.server = [.query ""] → a ∈ past →
    Acks a n client →
    n < (runBy past d.server).length := by
  intro hall
  obtain ⟨σ, hr, ha, d, hd, hds, hcall, hrun, a, ham, hai, p, hp, hres, hdst⟩ :=
    System.exists_reachable threeServers xThenAskC (P := fun σ : System Unit => Along Disciplined σ.trace ∧
      ∃ d ∈ σ.trace.head?, d.server = serverC ∧ d.calls serverC = [.query ""] ∧ runBy σ.trace.tail serverC = [] ∧
      ∃ a ∈ σ.trace.tail, a.input.respApplyCall? = some (0, "") ∧
        ∃ p ∈ a.packets, p.rpc = .respClientApply "" ∧ p.dst = client) (by decide +kernel)
  obtain ⟨past, htrace⟩ := List.head?_eq_some_iff.mp hd
  rw [htrace, List.tail_cons] at hrun ham
  have hacks : Acks a 0 client := by
    refine ⟨p, hp, "", ?_, hres, hdst⟩
    unfold Input.respApplyCall? at hai
    split at hai
    · rename_i hi
      cases hai
      exact hi
    · cases hai
  have hlt := hall σ d a past 0 hr ha (htrace ▸ List.suffix_refl _) (hds ▸ hcall) ham hacks
  rw [hds, hrun] at hlt
  cases hlt

end MyRaft
