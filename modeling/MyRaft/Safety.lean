/-
State machine safety. What a server has committed is a prefix of what some
primary committed in its own term, so later primaries have it, and two servers
that apply an entry at one index apply the same one.
-/
import MyRaft.Completeness

namespace MyRaft

open History Lineage
open StdLib (StdMap)
open RaftServer (Accepts)

namespace RaftServer

/-- The entries up to the commit index. -/
def committedLog (s : RaftServer) : List RpcEntry := s.entries.log.take (s.commitIndex + 1).toNat

end RaftServer

/-- Entries that a primary of a term up to `term` has committed in its own term. -/
def Backed (trace : List Event) (term : Int) (l : List RpcEntry) : Prop :=
  l = [] ∨ ∃ d ∈ trace, ∃ k, Direct d k ∧ d.after.state = .primary ∧ d.after.term ≤ term ∧
    l <+: d.after.entries.log.take (k + 1)

theorem Backed.mono {past trace : List Event} {term term' : Int} {l : List RpcEntry} (h : Backed past term l)
    (hs : past <:+ trace) (hle : term ≤ term') : Backed trace term' l := by
  rcases h with rfl | ⟨d, hd, k, hk, hp, ht, hl⟩
  · exact .inl rfl
  · exact .inr ⟨d, hs.subset hd, k, hk, hp, by omega, hl⟩

theorem Backed.shorter {trace : List Event} {term : Int} {l l' : List RpcEntry} (h : Backed trace term l)
    (hp : l' <+: l) : Backed trace term l' := by
  rcases h with rfl | ⟨d, hd, k, hk, hdp, ht, hl⟩
  · exact .inl (List.prefix_nil.mp hp)
  · exact .inr ⟨d, hd, k, hk, hdp, ht, hp.trans hl⟩

section Runs

variable {SM : Type} [StateMachine SM] {c : Cluster} {σ : System SM} {e : Event} {rest : List Packet} {p : Packet}

/-- A primary that counts a reply keeps its term and log. -/
theorem Step.counting_keeps (hr : Reachable c σ) (h : Step c σ e rest)
    (hc : RaftServer.Counts e.before e.input e.after) :
    e.after.term = e.before.term ∧ e.after.entries.log = e.before.entries.log := by
  obtain ⟨hi, -, hx, -, -, -, hy, -, -⟩ := hc
  cases (h.outcome hr).leads hy with
  | same _ hterm hlog | acked _ _ _ _ _ _ hterm hlog | nacked _ _ _ _ _ _ hterm hlog => exact ⟨hterm, hlog⟩
  | appended hi' => rw [hi] at hi'; cases hi'
  | won _ _ hx' => rw [hx] at hx'; cases hx'

/-- A commit index that a majority makes grow is that of an entry of the primary's own term. -/
theorem Step.direct (hr : Reachable c σ) (h : Step c σ e rest) (hown : CommitsOwnTerm σ.trace e) {k : Nat}
    (hk : .committed (k : Int) ∈ e.effects) (hlt : e.before.commitIndex < k) : Direct e k := by
  obtain ⟨hcommit, resp, hresp, hs, ht, hok, hm⟩ := h.committed hr hk
  obtain ⟨hterm, hlog⟩ := h.counting_keeps hr (((h.outcome hr).applied (h.idle hr)).committed hk).2
  have hrange := (h.commit_range hr (h.ranges_before hr)).2
  rw [← hcommit, hlog] at hrange
  obtain ⟨j, hj, hle, hholds, entry, hget, hentry⟩ := hown resp hresp ht hok k (by omega) hlt
    ((h.le_counting_iff hr hs).mp (by omega))
  -- nothing past the new commit index is held by a majority
  have hjk := (h.le_counting_iff hr hs).mpr hholds
  obtain rfl : j = k := by omega
  exact ⟨hk, entry, by rw [hlog]; exact hget, by rw [hterm]; exact hentry⟩

/-- What a follower commits on an AE, the sender of the AE had committed. -/
theorem Step.accepted_committed (hr : Reachable c σ) (h : Step c σ e rest) (ho : Orderly σ.trace)
    {ae : AppendEntryRpc} (hi : e.input = .message p) (hp : p.rpc = .appendEntry ae)
    (ha : Accepts e.before ae e.after) :
    e.after.term = p.sender.term ∧ e.after.committedLog <+: p.sender.committedLog := by
  obtain ⟨n, hn, hcopies⟩ := h.copies hr ho hi hp ha
  have hranges := hr.ranges_sent (h.delivered hr hi).1
  have hhi := hranges.commit_hi
  have hcommit := ha.commit
  rw [hn.built.commitIndex] at hcommit
  refine ⟨by rw [ha.term, hn.built.term], ?_⟩
  have hm : (e.after.commitIndex + 1).toNat ≤ (p.sender.commitIndex + 1).toNat := by omega
  have htake : e.after.entries.log.take (e.after.commitIndex + 1).toNat =
      p.sender.entries.log.take (e.after.commitIndex + 1).toNat := by
    rcases hcopies.log with ⟨hat, hlog⟩ | ⟨hlt, hlog⟩
    · have := congrArg (List.take (e.after.commitIndex + 1).toNat) hcopies.base
      rw [List.take_take, List.take_take, Nat.min_eq_left (by omega)] at this
      rw [hlog, this]
    · rw [hlog, List.length_take_of_le hlt] at hcommit
      rw [hlog, List.take_take, Nat.min_eq_left (by omega)]
  unfold RaftServer.committedLog
  rw [htake, ← Nat.min_eq_left hm, ← List.take_take]
  exact List.take_prefix _ _

theorem Step.backed (hr : Reachable c σ) (h : Step c σ e rest) (ho : Orderly σ.trace)
    (hown : CommitsOwnTerm σ.trace e) (hx : Backed σ.trace e.before.term e.before.committedLog)
    (hsent : ∀ p, Sent σ.trace p → Backed σ.trace p.sender.term p.sender.committedLog) :
    Backed (e :: σ.trace) e.after.term e.after.committedLog := by
  have hs : σ.trace <:+ e :: σ.trace := List.suffix_cons _ _
  have hranges := h.ranges_before hr
  have hlo := hranges.commit_lo
  have hhi := hranges.commit_hi
  have haccept : ∀ {p ae}, e.input = .message p → p.rpc = .appendEntry ae → Accepts e.before ae e.after →
      Backed (e :: σ.trace) e.after.term e.after.committedLog := fun hi hp ha => by
    obtain ⟨hterm, hpre⟩ := h.accepted_committed hr ho hi hp ha
    exact ((hsent _ (h.delivered hr hi).1).mono hs (Int.le_of_eq hterm.symm)).shorter hpre
  have hkeep : e.after.commitIndex ≤ e.before.commitIndex → e.before.entries.log <+: e.after.entries.log →
      Backed (e :: σ.trace) e.after.term e.after.committedLog := fun hle ⟨tail, hlog⟩ => by
    refine (hx.mono hs (h.since hr).term).shorter ?_
    have hm : (e.after.commitIndex + 1).toNat ≤ (e.before.commitIndex + 1).toNat := by omega
    unfold RaftServer.committedLog
    rw [← hlog, List.take_append_of_le_length (by omega), ← Nat.min_eq_left hm, ← List.take_take]
    exact List.take_prefix _ _
  cases (h.outcome hr).commit with
  | same hcommit =>
    cases (h.outcome hr).log with
    | same hlog => exact hkeep (by omega) (by rw [hlog])
    | appended _ _ _ hlog => exact hkeep (by omega) (by rw [hlog]; exact List.prefix_append _ _)
    | accepted hi hp ha => exact haccept hi hp ha
  | accepted hi hp ha => exact haccept hi hp ha
  | counted hc =>
    obtain ⟨-, hlog⟩ := h.counting_keeps hr hc
    obtain ⟨hi, hp, hst, hresp, hlsn, hok, hy, hm, -⟩ := hc
    by_cases hlt : e.before.commitIndex < e.after.commitIndex
    · obtain ⟨k, hk⟩ : ∃ k : Nat, e.after.commitIndex = k := ⟨e.after.commitIndex.toNat, by omega⟩
      have hcommitted : .committed (k : Int) ∈ e.effects := by
        rw [← hk, hm]
        exact h.commits (Input.mem_respAppend?.mpr ⟨_, hi, hp⟩) ⟨hst, hresp, hlsn⟩ hok
      refine .inr ⟨e, List.mem_cons_self, k, h.direct hr hown hcommitted (by omega), hy, Int.le_refl _, ?_⟩
      unfold RaftServer.committedLog
      rw [hk]
      exact List.prefix_refl _
    · exact hkeep (by omega) (by rw [hlog])

/-- **What a server has committed a primary committed in its own term.** -/
theorem Reachable.backed (hr : Reachable c σ) (ha : Along Disciplined σ.trace) :
    (∀ s, Backed σ.trace (σ.raft s).term (σ.raft s).committedLog) ∧
      ∀ e ∈ σ.trace, Backed σ.trace e.after.term e.after.committedLog := by
  refine hr.invariantAlong (P := Disciplined) (I := fun σ =>
    (∀ s, Backed σ.trace (σ.raft s).term (σ.raft s).committedLog) ∧
    ∀ e ∈ σ.trace, Backed σ.trace e.after.term e.after.committedLog) ha ?_ ?_
  · exact ⟨fun s => .inl rfl, fun e he => by cases he⟩
  intro σ e rest hr ha h hd ⟨hservers, hevents⟩
  have hs : σ.trace <:+ e :: σ.trace := List.suffix_cons _ _
  have hy : Backed (e :: σ.trace) e.after.term e.after.committedLog := by
    refine h.backed hr (hr.orderly ha) hd.ownTerm (by rw [h.before]; exact hservers e.server) ?_
    rintro p ⟨f, hf, hpf⟩
    rw [(Event.mem_packets.mp hpf).2.2.2]
    exact hevents f hf
  refine ⟨fun s => ?_, fun d hdm => ?_⟩
  · rw [System.raft_next]
    split
    · exact hy
    · exact (hservers s).mono hs (Int.le_refl _)
  · rcases List.mem_cons.mp hdm with rfl | hdm
    · exact hy
    · exact (hevents d hdm).mono hs (Int.le_refl _)

/-- The own commits of primaries agree where both reach. -/
theorem Reachable.direct_agree (hr : Reachable c σ) (ha : Along Disciplined σ.trace) {d d' : Event} {k k' i : Nat}
    {entry entry' : RpcEntry} (hd : d ∈ σ.trace) (hd' : d' ∈ σ.trace) (hk : Direct d k)
    (hp : d.after.state = .primary) (hp' : d'.after.state = .primary) (hle : d.after.term ≤ d'.after.term)
    (hget : (d.after.entries.log.take (k + 1))[i]? = some entry)
    (hget' : (d'.after.entries.log.take (k' + 1))[i]? = some entry') : entry = entry' := by
  have htake : d.after.entries.log.take (k + 1) <+: d.after.entries.log := List.take_prefix _ _
  have htake' : d'.after.entries.log.take (k' + 1) <+: d'.after.entries.log := List.take_prefix _ _
  have hlog' := getElem?_extend htake' hget'
  rcases Int.lt_or_eq_of_le hle with hlt | heq
  · obtain ⟨past, hs⟩ := exists_past hd
    have hpre := hr.complete ha hs hk (d'.after.term - d.after.term).toNat d' hd' hp' hlt (by omega)
    exact Option.some.inj ((getElem?_extend hpre hget).symm.trans hlog')
  · have hone := (hr.orderly ha).one
    have h1 := getElem?_extend (htake.trans (hr.log_le_primaryLog hone hd hp)) hget
    have h2 := getElem?_extend (hr.log_le_primaryLog hone hd' hp') hlog'
    rw [heq] at h1
    exact Option.some.inj (h1.symm.trans h2)

theorem Backed.agree (hr : Reachable c σ) (ha : Along Disciplined σ.trace) {l l' : List RpcEntry}
    {term term' : Int} {i : Nat} {entry entry' : RpcEntry} (h : Backed σ.trace term l)
    (h' : Backed σ.trace term' l') (hget : l[i]? = some entry)
    (hget' : l'[i]? = some entry') : entry = entry' := by
  rcases h with rfl | ⟨d, hd, k, hk, hp, -, hl⟩
  · cases hget
  rcases h' with rfl | ⟨d', hd', k', hk', hp', -, hl'⟩
  · cases hget'
  have hdget := getElem?_extend hl hget
  have hdget' := getElem?_extend hl' hget'
  rcases Int.le_total d.after.term d'.after.term with hle | hle
  · exact hr.direct_agree ha hd hd' hk hp hp' hle hdget hdget'
  · exact (hr.direct_agree ha hd' hd hk' hp' hp hle hdget' hdget).symm

/-- What is handed to the state machine is committed. -/
theorem Reachable.apply_committed (hr : Reachable c σ) (he : e ∈ σ.trace) {i : Int} {msg : String}
    (hmsg : .apply i msg ∈ e.effects) :
    ∃ (n : Nat) (entry : RpcEntry), i = n ∧ e.after.committedLog[n]? = some entry ∧ entry.msg = msg := by
  obtain ⟨σ₀, rest, hr₀, -, hst⟩ := hr.step_of_mem he
  obtain ⟨n, entry, hi, hget, hentry, hle, -⟩ := ((hst.outcome hr₀).applied (hst.idle hr₀)).tasks hmsg
  refine ⟨n, entry, hi, ?_, hentry⟩
  unfold RaftServer.committedLog
  rw [List.getElem?_take_of_lt (by omega)]
  exact hget

/-- **Leader completeness**, in the runs whose steps are disciplined. -/
theorem leader_completeness (hr : Reachable c σ) (ha : Along Disciplined σ.trace) {e d : Event} (he : e ∈ σ.trace)
    {k : Nat} (hk : .committed (k : Int) ∈ e.effects) (hd : d ∈ σ.trace) (hp : d.after.state = .primary)
    (hterm : e.after.term < d.after.term) :
    k < e.after.entries.log.length ∧ d.after.entries.log.take (k + 1) = e.after.entries.log.take (k + 1) := by
  obtain ⟨σ₀, rest, hr₀, -, hst⟩ := hr.step_of_mem he
  have hcommit := (hst.committed hr₀ hk).1
  have hhi := (hst.commit_range hr₀ (hst.ranges_before hr₀)).2
  have hlt : k < e.after.entries.log.length := by omega
  have hcl : e.after.committedLog = e.after.entries.log.take (k + 1) := by
    unfold RaftServer.committedLog
    rw [← hcommit]
    rfl
  have hlen : (e.after.entries.log.take (k + 1)).length = k + 1 := List.length_take_of_le hlt
  refine ⟨hlt, ?_⟩
  rcases (hr.backed ha).2 e he with hnil | ⟨f, hf, k', hk', hfp, hfterm, hl⟩
  · rw [hcl] at hnil
    rw [hnil] at hlen
    cases hlen
  · obtain ⟨past, hs⟩ := exists_past hf
    have hpre := hr.complete ha hs hk' (d.after.term - f.after.term).toNat d hd hp (by omega) (by omega)
    rw [hcl] at hl
    have := List.prefix_iff_eq_take.mp (hl.trans hpre)
    rw [hlen] at this
    exact this.symm

/-- **State machine safety**, in the runs whose steps are disciplined. -/
theorem state_machine_safety (hr : Reachable c σ) (ha : Along Disciplined σ.trace) {e e' : Event}
    (he : e ∈ σ.trace) (he' : e' ∈ σ.trace) {i : Int} {msg msg' : String} (hmsg : .apply i msg ∈ e.effects)
    (hmsg' : .apply i msg' ∈ e'.effects) : msg = msg' := by
  obtain ⟨n, entry, hn, hget, rfl⟩ := hr.apply_committed he hmsg
  obtain ⟨n', entry', hn', hget', rfl⟩ := hr.apply_committed he' hmsg'
  obtain rfl : n = n' := by omega
  have hbacked := (hr.backed ha).2
  rw [(hbacked e he).agree hr ha (hbacked e' he') hget hget']

end Runs

/-- A has committed x with B, and B votes for C, whose log is empty. -/
def emptyPrimary : List Action :=
  commitX ++ campaign serverC ++ campaign serverC ++ [.deliver 6, .deliver 6]

theorem emptyPrimary_incomplete :
    ¬ ∀ (σ : System Unit) (e d : Event) (k : Nat), Reachable threeServers σ → e ∈ σ.trace →
      .committed (k : Int) ∈ e.effects → d ∈ σ.trace → d.after.state = .primary → e.after.term < d.after.term →
      k < e.after.entries.log.length ∧ d.after.entries.log.take (k + 1) = e.after.entries.log.take (k + 1) := by
  intro hall
  obtain ⟨σ, hr, e, he, d, hd, hk, hp, hterm, hlog⟩ := System.exists_reachable threeServers emptyPrimary
    (P := fun σ : System Unit => ∃ e ∈ σ.trace, ∃ d ∈ σ.trace, .committed 0 ∈ e.effects ∧
    d.after.state = .primary ∧
      e.after.term < d.after.term ∧ d.after.entries.log = []) (by decide +kernel)
  obtain ⟨hlt, heq⟩ := hall σ e d 0 hr he hk hd hp hterm
  rw [hlog] at heq
  have := congrArg List.length heq
  rw [List.length_take_of_le hlt] at this
  cases this

/-- C commits y in the place of x. -/
def overwrittenX : List Action :=
  emptyPrimary ++ [.clientApply serverC client "y"] ++ List.replicate 4 (.deliver 7)

theorem overwrittenX_diverges :
    ¬ ∀ (σ : System Unit) (e e' : Event) (i : Int) (msg msg' : String), Reachable threeServers σ → e ∈ σ.trace →
      e' ∈ σ.trace → e.server ≠ e'.server → .apply i msg ∈ e.effects → .apply i msg' ∈ e'.effects →
      msg = msg' := by
  intro hall
  obtain ⟨σ, hr, e, he, e', he', hne, hx, hy⟩ := System.exists_reachable threeServers overwrittenX
    (P := fun σ : System Unit => ∃ e ∈ σ.trace, ∃ e' ∈ σ.trace, e.server ≠ e'.server ∧ .apply 0 "x" ∈ e.effects ∧
      .apply 0 "y" ∈ e'.effects) (by decide +kernel)
  exact absurd (hall σ e e' 0 "x" "y" hr he he' hne hx hy) (by decide)

/-- B, which applied x, is elected with the vote of A. -/
def secondPrimary : List Action := commitX ++ [.deliver 2] ++ campaign serverB ++ [.deliver 3, .deliver 4]

theorem secondPrimary_complete : ∃ (σ : System Unit) (e d : Event), e ∈ σ.trace ∧ d ∈ σ.trace ∧
    .committed 0 ∈ e.effects ∧ e.after.term < d.after.term ∧
    0 < e.after.entries.log.length ∧ d.after.entries.log.take 1 = e.after.entries.log.take 1 := by
  obtain ⟨σ, hr, ha, e, he, d, hd, hk, hp, hterm⟩ := System.exists_reachable threeServers secondPrimary
    (P := fun σ : System Unit => Along Disciplined σ.trace ∧
    ∃ e ∈ σ.trace, ∃ d ∈ σ.trace, .committed 0 ∈ e.effects ∧
      d.after.state = .primary ∧ e.after.term < d.after.term) (by decide +kernel)
  exact ⟨σ, e, d, he, hd, hk, hterm, leader_completeness hr ha he (k := 0) hk hd hp hterm⟩

theorem secondPrimary_safe : ∃ (σ : System Unit) (e e' : Event) (msg msg' : String), e ∈ σ.trace ∧ e' ∈ σ.trace ∧
    e.server ≠ e'.server ∧ .apply 0 msg ∈ e.effects ∧ .apply 0 msg' ∈ e'.effects ∧ msg = msg' := by
  obtain ⟨σ, hr, ha, e, he, e', he', hne, hx, hx'⟩ := System.exists_reachable threeServers secondPrimary
    (P := fun σ : System Unit => Along Disciplined σ.trace ∧ ∃ e ∈ σ.trace, ∃ e' ∈ σ.trace, e.server ≠ e'.server ∧
      .apply 0 "x" ∈ e.effects ∧ .apply 0 "x" ∈ e'.effects) (by decide +kernel)
  exact ⟨σ, e, e', "x", "x", he, he', hne, hx, hx', state_machine_safety hr ha he he' hx hx'⟩

end MyRaft
