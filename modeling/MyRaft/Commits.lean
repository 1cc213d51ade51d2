/-
What a commit index covers when it grows. A primary commits what a majority
holds, of whatever term: `primary_update_commit_index` looks at no entry, and a
new primary commits what it was elected with on the replies to its first empty
AEs. A follower caps the index of its primary at the end of its own log, which
is behind nothing the AE has not checked.
-/
import MyRaft.Safety

namespace MyRaft

open History
open RaftServer (Accepts)

section Runs

variable {SM : Type} [StateMachine SM] {c : Cluster} {σ : System SM} {e : Event} {rest : List Packet} {p : Packet}

/-! ## The primary -/

/-- Of a log in order, an entry is of the last term where any before it is. -/
theorem Dated.own_iff {x : RaftServer} {k : Nat} {entry : RpcEntry} (hx : Dated x)
    (hget : x.entries.log[k]? = some entry) :
    entry.term = x.term ↔ ∃ j ≤ k, ∃ own, x.entries.log[j]? = some own ∧ own.term = x.term := by
  constructor
  · exact fun hterm => ⟨k, Nat.le_refl _, entry, hget, hterm⟩
  · rintro ⟨j, hj, own, hown, hterm⟩
    have hle := hx.le entry (List.mem_of_getElem? hget)
    rcases Nat.lt_or_eq_of_le hj with hlt | rfl
    · obtain ⟨hk, rfl⟩ := List.getElem?_eq_some_iff.mp hget
      obtain ⟨hj', rfl⟩ := List.getElem?_eq_some_iff.mp hown
      have := List.pairwise_iff_getElem.mp hx.sorted j k hj' hk hlt
      omega
    · obtain rfl : own = entry := Option.some.inj (hown.symm.trans hget)
      exact hterm

/-- The index that a primary commits is the last one a majority holds. -/
theorem Step.committed_last (hr : Reachable c σ) (h : Step c σ e rest) {k : Int}
    (hk : .committed k ∈ e.effects) (j : Int) :
    j ≤ k ↔ e.after.MajorityHolds j := by
  obtain ⟨hcommit, -, -, -, -, -, -, -, -, hown⟩ := ((h.outcome hr).applied (h.idle hr)).committed hk
  have hranges := h.ranges hr (h.ranges_before hr)
  rw [hcommit, hown]
  exact (h.known hr).le_majorityIndex_iff h.member hranges.keys

/-- **What a primary commits anew is held by a majority, and of its own term only
from its own first entry on.** -/
theorem counted_entry (hr : Reachable c σ) (he : e ∈ σ.trace) {k : Int} (hk : .committed k ∈ e.effects)
    (hlt : e.before.commitIndex < k) :
    (∀ j, j ≤ k ↔ e.after.MajorityHolds j) ∧ ∃ entry, e.after.entries.get k = .ok entry ∧
    entry.term ≤ e.after.term ∧
      (entry.term = e.after.term ↔
        ∃ j : Nat, (j : Int) ≤ k ∧ ∃ own, e.after.entries.get j = .ok own ∧ own.term = e.after.term) := by
  obtain ⟨σ₀, rest, hr₀, -, hst⟩ := hr.step_of_mem he
  have hbefore := hst.ranges_before hr₀
  have hlo := hbefore.commit_lo
  have hhi := (hst.commit_range hr₀ hbefore).2
  rw [← (hst.committed hr₀ hk).1] at hhi
  obtain ⟨n, rfl⟩ : ∃ n : Nat, k = n := ⟨k.toNat, by omega⟩
  have hn : n < e.after.entries.log.length := by omega
  have hget := List.getElem?_eq_getElem hn
  have hdated := hr.dated.2 e he
  refine ⟨hst.committed_last hr₀ hk, _, Entries.get_eq_ok hget, hdated.le _ (List.getElem_mem hn), ?_⟩
  rw [hdated.own_iff hget]
  constructor
  · rintro ⟨j, hj, own, hown, hterm⟩
    exact ⟨j, by omega, own, Entries.get_eq_ok hown, hterm⟩
  · rintro ⟨j, hj, own, hown, hterm⟩
    obtain ⟨i, hi, hlog⟩ := Entries.get_ok hown
    obtain rfl : j = i := by omega
    exact ⟨j, by omega, own, hlog, hterm⟩

/-! ## The follower -/

/-- A commit index that an AE makes grow grows because the AE is accepted. -/
theorem Step.raised_by_ae (hr : Reachable c σ) (h : Step c σ e rest) {ae : AppendEntryRpc}
    (hi : e.input = .message p) (hp : p.rpc = .appendEntry ae)
    (hlt : e.before.commitIndex < e.after.commitIndex) : Accepts e.before ae e.after := by
  cases (h.outcome hr).commit with
  | same hcommit => omega
  | @accepted q ae' hi' hq ha =>
    rw [hi] at hi'
    cases hi'
    rw [hp] at hq
    cases hq
    exact ha
  | counted hc =>
    obtain ⟨hi', hq, -⟩ := hc
    rw [hi] at hi'
    cases hi'
    rw [hp] at hq
    cases hq

theorem RaftServer.getElem?_of_committedLog {x y : RaftServer} (hx : -1 ≤ x.commitIndex)
    (hlen : x.commitIndex < x.entries.log.length) (hy : x.committedLog <+: y.committedLog) {i : Nat}
    (hi : (i : Int) ≤ x.commitIndex) :
    ∃ entry, x.entries.log[i]? = some entry ∧ y.entries.log[i]? = some entry := by
  have hlt : i < x.entries.log.length := by omega
  have hget := List.getElem?_eq_getElem hlt
  refine ⟨_, hget, Lineage.getElem?_extend ?_ (Lineage.getElem?_extend hy ?_)⟩
  · exact List.take_prefix _ _
  · rw [committedLog, List.getElem?_take_of_lt (by omega), hget]

/-- **What a follower commits on an AE the sender had committed**, and their logs agree up to there. -/
theorem follower_commit_sound (hr : Reachable c σ) (hone : OnePrimary σ.trace)
    (happly : Along ApplyAtPrimary σ.trace) {past : List Event}
    (hs : e :: past <:+ σ.trace) {ae : AppendEntryRpc} (hi : e.input = .message p)
    (hp : p.rpc = .appendEntry ae) (hlt : e.before.commitIndex < e.after.commitIndex) :
    ∃ d ∈ past, p ∈ d.packets ∧ d.server = p.src ∧ d.after.state = .primary ∧
      e.after.commitIndex ≤ d.after.commitIndex ∧
      ∀ i : Nat, (i : Int) ≤ e.after.commitIndex →
        ∃ entry, e.after.entries.log[i]? = some entry ∧ d.after.entries.log[i]? = some entry := by
  obtain ⟨σ₀, rest, hr₀, rfl, hst⟩ := hr.at hs
  have ho := (Orderly.mk hone happly).suffix (past_suffix hs)
  have ha := hst.raised_by_ae hr₀ hi hp hlt
  obtain ⟨hsent, -, -⟩ := hst.delivered hr₀ hi
  obtain ⟨n, hn⟩ := hr₀.ae_sent hsent hp
  obtain ⟨hlo, hhi⟩ := hst.commit_range hr₀ (hst.ranges_before hr₀)
  have hpre := (hst.accepted_committed hr₀ ho hi hp ha).2
  have hcommit := ha.commit
  have hindex := hn.built.commitIndex
  have hprimary := hn.primary
  obtain ⟨d, hd, hpd⟩ := hsent
  obtain ⟨-, hsrc, -, hsender⟩ := Event.mem_packets.mp hpd
  rw [hsender] at hpre hindex hprimary
  exact ⟨d, hd, hpd, hsrc.symm, hprimary, by omega,
    fun i hi => RaftServer.getElem?_of_committedLog hlo hhi hpre hi⟩

end Runs

/-- B, which has a copy of x, is elected after A and commits it when A answers its first AE. -/
def inheritedX : List Action := copyX ++ campaign serverB ++ [.deliver 3, .deliver 4, .deliver 4, .deliver 5]

theorem inheritedX_counted :
    ¬ ∀ (σ : System Unit) (e : Event) (k : Int), Reachable threeServers σ → e ∈ σ.trace →
    .committed k ∈ e.effects →
      e.before.commitIndex < k → ∃ entry, e.after.entries.get k = .ok entry ∧ entry.term = e.after.term := by
  intro hall
  obtain ⟨σ, hr, e, he, hk, hlt, entry, hget, hterm⟩ := System.exists_reachable threeServers inheritedX
    (P := fun σ : System Unit => ∃ e ∈ σ.trace, .committed 0 ∈ e.effects ∧ e.before.commitIndex < 0 ∧
      ∃ entry ∈ e.after.entries.log[0]?, entry.term < e.after.term) (by decide +kernel)
  obtain ⟨entry', hget', hterm'⟩ := hall σ e 0 hr he hk hlt
  have := (Entries.get_eq_ok (i := 0) hget).symm.trans hget'
  cases this
  omega

theorem inheritedX_entry : ∃ (σ : System Unit) (e : Event), e ∈ σ.trace ∧ .committed 0 ∈ e.effects ∧
    (∀ j, j ≤ 0 ↔ e.after.MajorityHolds j) ∧ ∃ entry, e.after.entries.get 0 = .ok entry ∧
    entry.term ≤ e.after.term ∧
      (entry.term = e.after.term ↔
        ∃ j : Nat, (j : Int) ≤ 0 ∧ ∃ own, e.after.entries.get j = .ok own ∧ own.term = e.after.term) := by
  obtain ⟨σ, hr, e, he, hk, hlt⟩ := System.exists_reachable threeServers inheritedX
    (P := fun σ : System Unit => ∃ e ∈ σ.trace, .committed 0 ∈ e.effects ∧ e.before.commitIndex < 0)
    (by decide +kernel)
  exact ⟨σ, e, he, hk, counted_entry hr he hk hlt⟩

theorem secondPrimary_raised : ∃ (e d : Event) (p : Packet), p ∈ d.packets ∧ e.after.commitIndex = 0 ∧
    e.after.commitIndex ≤ d.after.commitIndex ∧
    ∃ entry, e.after.entries.log[0]? = some entry ∧ d.after.entries.log[0]? = some entry := by
  obtain ⟨σ, hr, hone, happly, e, he, p, hi, ae, hp, hlt, hc⟩ := System.exists_reachable threeServers secondPrimary
    (P := fun σ : System Unit => OnePrimary σ.trace ∧ Along ApplyAtPrimary σ.trace ∧ ∃ e ∈ σ.trace,
      ∃ p ∈ e.input.packet?, ∃ ae ∈ p.appendEntry?, e.before.commitIndex < e.after.commitIndex ∧
        e.after.commitIndex = 0) (by decide +kernel)
  obtain ⟨past, hs⟩ := exists_past he
  obtain ⟨d, -, hpd, -, -, hle, hall⟩ :=
    follower_commit_sound hr hone happly hs (Input.mem_packet?.mp hi) (Packet.mem_appendEntry?.mp hp) hlt
  exact ⟨e, d, p, hpd, hc, hle, hall 0 (by omega)⟩

end MyRaft
