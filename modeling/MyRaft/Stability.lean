/-
Match indexes. What `Follower_saved_index` says of a follower stays true while
the term lasts: the follower had that part of the log when it answered, and an
AE that it accepts later cuts off nothing the two logs share. That last part
takes fresh replies. A late rejection of an AE of an earlier term moves
`nextIndex_` back, and two of them are enough to make the primary send an entry
that the follower has long acknowledged, behind which `Entries::insert` cuts.
-/
import MyRaft.Completeness

namespace MyRaft

open History
open StdLib (StdMap)

/-- `F` has had, in the term, the log of the primary up to `v`, which the primary had by then. -/
def HadAt (trace : List Event) (F : Addr) (term : Int) (log : List RpcEntry) (v : Nat) : Prop :=
  v < log.length ∧ ∃ a past, a :: past <:+ trace ∧ a.server = F ∧ a.after.term = term ∧
    log.take (v + 1) <+: a.after.entries.log ∧ log.take (v + 1) <+: primaryLog (a :: past) term

theorem HadAt.mono {past trace : List Event} {F : Addr} {term : Int} {log log' : List RpcEntry} {v : Nat}
    (h : HadAt past F term log v) (hs : past <:+ trace) (hp : log <+: log') : HadAt trace F term log' v := by
  obtain ⟨hlt, a, pasta, ha, h⟩ := h
  obtain ⟨tail, rfl⟩ := hp
  refine ⟨by rw [List.length_append]; omega, a, pasta, ha.trans hs, ?_⟩
  rwa [List.take_append_of_le_length hlt]

section Runs

variable {SM : Type} [StateMachine SM] {c : Cluster} {σ : System SM} {e : Event} {p : Packet}
  {resp : RespAppendEntryRpc} {F : Addr} {v : Nat}

theorem Reachable.acked_had (hr : Reachable c σ) (ho : Orderly σ.trace) (hp : Sent σ.trace p)
    (hresp : p.rpc = .respAppend resp) (hok : resp.ok = true) (ht : TakesReply (σ.raft p.dst) resp)
    (hv : (σ.raft p.dst).ackedIndex resp.server resp = v) :
    HadAt σ.trace p.src (σ.raft p.dst).term (σ.raft p.dst).entries.log v := by
  obtain ⟨a, past, q, ae, n, hs, hpa, h, hae, hn, hterm, hsender⟩ := hr.acked_at ho hp hresp hok ht hv
  obtain ⟨-, hsrc, -, hafter⟩ := Event.mem_packets.mp hpa
  rw [hafter] at hsender
  refine ⟨Nat.lt_of_lt_of_le h.lt h.prefix_log.length_le, a, past, hs, hsrc.symm, hsender.trans ht.term, ?_, ?_⟩
  · rw [← hafter, ← h.take_eq, ← h.same]
    exact List.take_prefix _ _
  · -- the AE was sent before its reply
    obtain ⟨σ₀, rest, hr₀, rfl, hst⟩ := hr.at hs
    have ho₁ := ho.suffix hs
    have hone := (ho₁.suffix (List.suffix_cons a σ₀.trace)).one
    rw [← h.take_eq, ← ht.term, ← hterm]
    exact (List.take_prefix _ _).trans
      ((hr₀.sender_log hone h.sent hn).trans (hst.primaryLog_mono hr₀ ho₁.one ae.term))

/-- What a server has had of the log of the primary of its term it has. -/
theorem HadAt.now {log : List RpcEntry} (h : HadAt σ.trace F (σ.raft F).term log v) (hr : Reachable c σ)
    (ho : Orderly σ.trace) (hfresh : Along FreshReply σ.trace) : log.take (v + 1) <+: (σ.raft F).entries.log := by
  obtain ⟨-, a, past, hs, rfl, hterm, hhad, hown⟩ := h
  rw [← hterm] at hown
  refine hr.keeps ho hfresh a past hs hhad hown fun d _ _ hlt hle => ?_
  omega

/-- **A match index stays true**, in the runs where primaries take fresh replies only. -/
theorem match_index_stable (hr : Reachable c σ) (hone : OnePrimary σ.trace) (happly : Along ApplyAtPrimary σ.trace)
    (hfresh : Along FreshReply σ.trace) (he : e ∈ σ.trace) (hp : e.after.state = .primary)
    (hF : F ∈ c.configuration) {k : Nat} (hk : e.after.followerSavedIndex.get F = k)
    (hterm : (σ.raft e.server).term = e.after.term) (hterm' : (σ.raft F).term = e.after.term) :
    ∀ i ≤ k, ∃ entry, (σ.raft F).entries.log[i]? = some entry ∧ (σ.raft e.server).entries.log[i]? = some entry ∧
      e.after.entries.log[i]? = some entry := by
  have ho := Orderly.mk hone happly
  obtain ⟨past, hs⟩ := exists_past he
  obtain ⟨σ₀, rest, hr₀, rfl, hst⟩ := hr.at hs
  have hlog := (hr.since he).log hterm.symm hp
  have hkept : k < e.after.entries.log.length ∧ e.after.entries.log.take (k + 1) <+: (σ.raft F).entries.log := by
    by_cases hFe : F = e.server
    · have hsaved := ((hst.ranges hr₀ (hst.ranges_before hr₀)).saved hp F hF).2
      rw [hFe]
      exact ⟨by omega, (List.take_prefix _ _).trans hlog⟩
    · have hhad := (hst.reachable hr₀).saved_backed (B := fun trace F _ term log v => HadAt trace F term log v)
        HadAt.mono (fun hr ho hp hresp hok ht hv => hr.acked_had ho hp hresp hok ht hv) (ho.suffix hs) e.server
        (by rw [System.raft_next_self]; exact hp) F hF hFe k (by rw [System.raft_next_self]; exact hk)
      rw [System.raft_next_self] at hhad
      have hnow := hhad.mono hs (List.prefix_refl _)
      exact ⟨hnow.1, HadAt.now (by rw [hterm']; exact hnow) hr ho hfresh⟩
  intro i hi
  obtain ⟨hlt, hpre⟩ := hkept
  have hget : e.after.entries.log[i]? = some e.after.entries.log[i] := List.getElem?_eq_getElem (by omega)
  refine ⟨_, Lineage.getElem?_extend hpre ?_, Lineage.getElem?_extend hlog hget, hget⟩
  rwa [List.getElem?_take_of_lt (by omega)]

end Runs

/-- A, primary of term 1, has two AEs to B delayed; B has a copy of x and y. Both AEs
arrive when A is primary again, of term 3, and B has acknowledged y. -/
def cutOffY : List Action :=
  electA ++ [.poll serverA [.retry serverB], .timer serverA, .clientApply serverA client "x",
    .clientApply serverA client "y", .poll serverA [.retry serverB], .timer serverA, .deliver 4, .deliver 4,
    .deliver 4] ++
  campaign serverB ++ [.deliver 5] ++ campaign serverA ++
  [.deliver 7, .deliver 8, .deliver 8, .deliver 9, .deliver 1, .deliver 8, .deliver 2, .deliver 8, .deliver 8]

theorem cutOffY_unstable :
    ¬ ∀ (σ : System Unit) (e : Event) (F : Addr) (k : Nat), Reachable threeServers σ → OnePrimary σ.trace →
      Along ApplyAtPrimary σ.trace → e ∈ σ.trace → e.after.state = .primary → F ∈ threeServers.configuration →
      e.after.followerSavedIndex.get F = k → (σ.raft e.server).state = .primary →
      (σ.raft e.server).term = e.after.term → (σ.raft F).term = e.after.term →
      ∀ i ≤ k, ∃ entry, (σ.raft F).entries.log[i]? = some entry ∧
      (σ.raft e.server).entries.log[i]? = some entry := by
  intro hall
  obtain ⟨σ, hr, hone, happly, e, he, hp, hk, hP, ht, ht', hnone⟩ := System.exists_reachable threeServers cutOffY
    (P := fun σ : System Unit => OnePrimary σ.trace ∧ Along ApplyAtPrimary σ.trace ∧ ∃ e ∈ σ.trace,
      e.after.state = .primary ∧ e.after.followerSavedIndex.get serverB = (1 : Nat) ∧
      (σ.raft e.server).state = .primary ∧ (σ.raft e.server).term = e.after.term ∧
      (σ.raft serverB).term = e.after.term ∧ (σ.raft serverB).entries.log[1]? = none) (by decide +kernel)
  obtain ⟨entry, hget, -⟩ := hall σ e serverB 1 hr hone happly he hp (by decide) hk hP ht ht' 1 (Nat.le_refl 1)
  rw [hnone] at hget
  cases hget

theorem commitX_stable :
    ∃ (σ : System Unit) (e : Event), e ∈ σ.trace ∧ e.after.followerSavedIndex.get serverB = (0 : Nat) ∧
    ∃ entry, (σ.raft serverB).entries.log[0]? = some entry ∧ (σ.raft e.server).entries.log[0]? = some entry ∧
      e.after.entries.log[0]? = some entry := by
  obtain ⟨σ, hr, hone, happly, hfresh, e, he, hp, hk, ht, ht'⟩ := System.exists_reachable threeServers commitX
    (P := fun σ : System Unit => OnePrimary σ.trace ∧ Along ApplyAtPrimary σ.trace ∧ Along FreshReply σ.trace ∧
      ∃ e ∈ σ.trace, e.after.state = .primary ∧ e.after.followerSavedIndex.get serverB = (0 : Nat) ∧
        (σ.raft e.server).term = e.after.term ∧ (σ.raft serverB).term = e.after.term) (by decide +kernel)
  exact ⟨σ, e, he, hk, match_index_stable hr hone happly hfresh he hp (by decide) hk ht ht' 0 (Nat.le_refl 0)⟩

end MyRaft
