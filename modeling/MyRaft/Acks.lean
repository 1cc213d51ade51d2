/-
What a primary knows of its followers. An `ok` reply that it takes answers the
last AE it sent, and `nextIndex_` is still the position of that AE: with
`is_empty_ae` it tells how much of the primary's log the follower held when it
answered. What `Follower_saved_index` says of another server is backed by such a
reply, and so is what the primary commits.
-/
import MyRaft.LogMatching
import MyRaft.Commit

namespace MyRaft

open History Lineage Rank
open StdLib (StdMap)
open RaftServer (Outcome Leads Accepts Answers)

/-- `F` told `P`, primary of the term, that it held the log of `P` up to `v`. -/
def HeldAt (trace : List Event) (F P : Addr) (term : Int) (log : List RpcEntry) (v : Nat) : Prop :=
  ∃ p resp, Sent trace p ∧ p.src = F ∧ p.dst = P ∧ p.rpc = .respAppend resp ∧ resp.ok = true ∧ resp.term = term ∧
    v < p.sender.entries.log.length ∧ p.sender.entries.log.take (v + 1) = log.take (v + 1)

theorem HeldAt.le {trace : List Event} {F P : Addr} {term : Int} {log : List RpcEntry} {v w : Nat}
    (h : HeldAt trace F P term log v) (hle : w ≤ v) : HeldAt trace F P term log w := by
  obtain ⟨p, resp, hsent, hsrc, hdst, hrpc, hok, hterm, hlt, heq⟩ := h
  refine ⟨p, resp, hsent, hsrc, hdst, hrpc, hok, hterm, by omega, ?_⟩
  have := congrArg (List.take (w + 1)) heq
  rwa [List.take_take, List.take_take, Nat.min_eq_left (by omega)] at this

/-- The log grows behind what was held. -/
theorem HeldAt.mono {past trace : List Event} {F P : Addr} {term : Int} {log log' : List RpcEntry} {v : Nat}
    (h : HeldAt past F P term log v) (hs : past <:+ trace) (hp : log <+: log') : HeldAt trace F P term log' v := by
  obtain ⟨p, resp, hsent, hsrc, hdst, hrpc, hok, hterm, hlt, heq⟩ := h
  have hlen : v < log.length := by
    have := congrArg List.length heq
    rw [List.length_take_of_le hlt, List.length_take] at this
    omega
  obtain ⟨tail, rfl⟩ := hp
  refine ⟨p, resp, hsent.mono hs, hsrc, hdst, hrpc, hok, hterm, hlt, ?_⟩
  rw [heq, List.take_append_of_le_length hlen]

section Runs

variable {SM : Type} [StateMachine SM] {c : Cluster} {σ : System SM} {e : Event} {rest : List Packet} {p : Packet}
  {resp : RespAppendEntryRpc}

/-- An accepted AE: its packet, its position, and what it made of the log of its receiver. -/
theorem Reachable.reply_copies (hr : Reachable c σ) (ho : Orderly σ.trace) (hp : Sent σ.trace p)
    (hresp : p.rpc = .respAppend resp) (hok : resp.ok = true) :
    ∃ a past q ae n x, a :: past <:+ σ.trace ∧ p ∈ a.packets ∧ AeReply past p resp q ae x ∧ ae.term = resp.term ∧
      AeSent q n ae ∧ Copies q.sender.entries.log n x.entries.log p.sender.entries.log := by
  obtain ⟨σ₀, e, rest, hr₀, hs, hst, hpe⟩ := hr.sent hp
  obtain ⟨q, ae, h, hi⟩ := hst.ae_reply hr₀ hpe hresp
  have ho₀ := ho.suffix (past_suffix hs)
  obtain ⟨-, -, -, hsender⟩ := Event.mem_packets.mp hpe
  have ha := h.answers
  rw [hok] at ha
  cases ha with
  | accepted ha =>
    rw [hsender] at ha
    obtain ⟨n, hn, hcopies⟩ := hst.copies hr₀ ho₀ hi h.rpc ha
    rw [← hsender] at hcopies
    exact ⟨e, σ₀.trace, q, ae, n, e.before, hs, hpe, h, by rw [h.term, hsender, ha.term], hn, hcopies⟩

/-- What the primary has on record for an `ok` reply that it takes was in the log of
its AE, and in the log of the follower that accepted it. -/
structure AckedAt (past : List Event) (p q : Packet) (log : List RpcEntry) (v : Nat) : Prop where
  sent : Sent past q
  src : q.src = p.dst
  prefix_log : q.sender.entries.log <+: log
  lt : v < q.sender.entries.log.length
  held : v < p.sender.entries.log.length
  same : p.sender.entries.log.take (v + 1) = q.sender.entries.log.take (v + 1)

theorem Reachable.acked_at (hr : Reachable c σ) (ho : Orderly σ.trace) (hp : Sent σ.trace p)
    (hresp : p.rpc = .respAppend resp) (hok : resp.ok = true) (ht : TakesReply (σ.raft p.dst) resp) {v : Nat}
    (hv : (σ.raft p.dst).ackedIndex resp.server resp = v) :
    ∃ a past q ae n, a :: past <:+ σ.trace ∧ p ∈ a.packets ∧ AckedAt past p q (σ.raft p.dst).entries.log v ∧
      q.rpc = .appendEntry ae ∧ AeSent q n ae ∧ ae.term = resp.term ∧ p.sender.term = resp.term := by
  obtain ⟨a, past, q, ae, n, x, hs, hpa, h, hae, hn, hcopies⟩ := hr.reply_copies ho hp hresp hok
  have hqsent := h.sent.mono (past_suffix hs)
  have hlast := hr.isLast q hqsent ae h.rpc (by rw [h.src, hae, ht.term])
    (by rw [h.src, h.dst, ← h.server, ht.lsn, h.lsn])
  rw [h.src, h.dst] at hlast
  have hnext := hlast.next ht.state
  rw [hn.built.prelogIndex] at hnext
  -- the sender of the AE is the receiver of the reply, which has only appended since
  have hsince := hr.since_sent hqsent
  rw [h.src] at hsince
  have hlog := hsince.log (by rw [← hn.built.term, hae, ht.term]) hn.primary
  have hempty : resp.isEmptyAe = true ↔ n = q.sender.entries.log.length := by
    rw [h.empty, AppendEntryRpc.isEmptyAe, hn.built.entry]
    have hle := hn.built.le
    rcases Nat.lt_or_eq_of_le hle with hlt | heq
    · simp [List.getElem?_eq_getElem hlt]
      omega
    · simp [heq]
  have hlen := hlog.length_le
  unfold RaftServer.ackedIndex at hv
  rw [h.server, hnext, Entries.size_eq] at hv
  have hheld : v < q.sender.entries.log.length ∧ v < p.sender.entries.log.length ∧
      p.sender.entries.log.take (v + 1) = q.sender.entries.log.take (v + 1) := by
    obtain ⟨hbase, hle, hleL, ⟨hat, hy⟩ | ⟨hlt, hy⟩⟩ := hcopies
    · rw [if_pos (.inr (hempty.mpr hat))] at hv
      obtain rfl : n = v + 1 := by omega
      rw [hy]
      exact ⟨hleL, hle, hbase⟩
    · rw [if_neg (by rw [hempty]; omega)] at hv
      obtain rfl : n = v := by omega
      rw [hy, List.take_take, Nat.min_self, List.length_take]
      exact ⟨hlt, by omega, rfl⟩
  obtain ⟨hlt, hheld, hsame⟩ := hheld
  exact ⟨a, past, q, ae, n, hs, hpa, ⟨h.sent, h.src, hlog, hlt, hheld, hsame⟩, h.rpc, hn, hae, h.term.symm⟩

theorem AckedAt.take_eq {past : List Event} {q : Packet} {log : List RpcEntry} {v : Nat}
    (h : AckedAt past p q log v) :
    q.sender.entries.log.take (v + 1) = log.take (v + 1) := by
  obtain ⟨tail, rfl⟩ := h.prefix_log
  rw [List.take_append_of_le_length h.lt]

/-- **An `ok` reply that a primary takes says what the follower held.** -/
theorem Reachable.acked_held (hr : Reachable c σ) (ho : Orderly σ.trace) (hp : Sent σ.trace p)
    (hresp : p.rpc = .respAppend resp) (hok : resp.ok = true) (ht : TakesReply (σ.raft p.dst) resp) {v : Nat}
    (hv : (σ.raft p.dst).ackedIndex resp.server resp = v) :
    HeldAt σ.trace p.src p.dst (σ.raft p.dst).term (σ.raft p.dst).entries.log v := by
  obtain ⟨_, _, q, _, _, -, -, h, -⟩ := hr.acked_at ho hp hresp hok ht hv
  exact ⟨p, resp, hp, rfl, rfl, hresp, hok, ht.term, h.held, h.same.trans h.take_eq⟩

/-- What holds of each `ok` reply that a primary takes holds of all that the primary
has on record for other servers. -/
theorem Reachable.saved_backed {B : List Event → Addr → Addr → Int → List RpcEntry → Nat → Prop}
    (mono : ∀ {past trace F P term log log' v}, B past F P term log v → past <:+ trace → log <+: log' →
      B trace F P term log' v)
    (acked : ∀ {σ : System SM} {p resp} {v : Nat}, Reachable c σ → Orderly σ.trace → Sent σ.trace p →
      p.rpc = .respAppend resp → resp.ok = true → TakesReply (σ.raft p.dst) resp →
      (σ.raft p.dst).ackedIndex resp.server resp = v →
      B σ.trace p.src p.dst (σ.raft p.dst).term (σ.raft p.dst).entries.log v)
    (hr : Reachable c σ) (ho : Orderly σ.trace) :
    ∀ P, (σ.raft P).state = .primary → ∀ F ∈ c.configuration, F ≠ P → ∀ v : Nat,
      (σ.raft P).followerSavedIndex.get F = v → B σ.trace F P (σ.raft P).term (σ.raft P).entries.log v := by
  refine hr.invariant (I := fun σ => Orderly σ.trace → ∀ P, (σ.raft P).state = .primary → ∀ F ∈ c.configuration,
    F ≠ P → ∀ v : Nat, (σ.raft P).followerSavedIndex.get F = v →
    B σ.trace F P (σ.raft P).term (σ.raft P).entries.log v) (fun _ P hP => by cases hP) ?_ ho
  intro σ e rest hr h ih ho P hP F hF hne v hv
  have hs : σ.trace <:+ e :: σ.trace := List.suffix_cons _ _
  have ho' := ho.suffix hs
  by_cases hPe : P = e.server
  · subst hPe
    rw [System.raft_next_self, RaftServer.taken_state] at hP
    rw [System.raft_next_self] at hv ⊢
    rw [System.trace_next, RaftServer.taken_term, RaftServer.taken_entries]
    rw [RaftServer.taken_followerSavedIndex] at hv
    have hk := h.known_before hr
    have hold : e.before.state = .primary → ∀ v : Nat, e.before.followerSavedIndex.get F = v →
        B σ.trace F e.server e.before.term e.before.entries.log v := fun hx v hv => by
      rw [h.before] at hx hv ⊢
      exact ih ho' e.server hx F hF hne v hv
    cases (h.outcome hr).leads hP with
    | same hx hterm hlog _ hsaved =>
      rw [hsaved] at hv
      rw [hterm, hlog]
      exact mono (hold hx v hv) hs (List.prefix_refl _)
    | appended _ hx hterm hlog _ hsaved =>
      rw [hsaved, hk.server, StdMap.get_set_ne _ _ hne] at hv
      rw [hterm, hlog]
      exact mono (hold hx v hv) hs (List.prefix_append _ _)
    | won _ _ _ _ _ _ _ _ _ _ hsaved =>
      rw [hsaved F (by rwa [hk.configuration]), hk.server, if_neg hne] at hv
      omega
    | @acked p resp hi hp hx hresp hlsn hok hterm hlog _ _ _ hsaved =>
      obtain ⟨hsent, hdst, -⟩ := h.delivered hr hi
      rw [hsaved, RaftServer.counting, RaftServer.saved_followerSavedIndex, StdMap.get_set] at hv
      rw [hterm, hlog]
      split at hv
      · rename_i hFr
        have ht : TakesReply (σ.raft p.dst) resp := by
          rw [hdst, ← h.before]
          exact ⟨hx, hresp, hlsn⟩
        have hheld := acked (v := v) hr ho' hsent hp hok ht (by rw [hdst, ← h.before]; exact hv)
        obtain ⟨q, ae, x, hreply⟩ := hr.ae_reply hsent hp
        rw [← hreply.server, ← hFr, hdst, ← h.before] at hheld
        exact mono hheld hs (List.prefix_refl _)
      · exact mono (hold hx v hv) hs (List.prefix_refl _)
    | nacked _ _ hx _ _ _ hterm hlog _ _ _ hsaved =>
      rw [hsaved] at hv
      rw [hterm, hlog]
      exact mono (hold hx v hv) hs (List.prefix_refl _)
  · rw [System.raft_next_ne hPe] at hP hv ⊢
    exact mono (ih ho' P hP F hF hne v hv) hs (List.prefix_refl _)

/-- **What a primary has on record for another server, that server told it.** -/
theorem Reachable.saved_held (hr : Reachable c σ) (ho : Orderly σ.trace) :
    ∀ P, (σ.raft P).state = .primary → ∀ F ∈ c.configuration, F ≠ P → ∀ v : Nat,
      (σ.raft P).followerSavedIndex.get F = v →
      HeldAt σ.trace F P (σ.raft P).term (σ.raft P).entries.log v :=
  hr.saved_backed HeldAt.mono (fun hr ho hp hresp hok ht hv => hr.acked_held ho hp hresp hok ht hv) ho

theorem HeldAt.before {F P : Addr} {term : Int} {log : List RpcEntry} {v : Nat} {past : List Event}
    (h : HeldAt (e :: past) F P term log v) (hne : F ≠ e.server) : HeldAt past F P term log v := by
  obtain ⟨p, resp, hsent, hsrc, h⟩ := h
  rcases Sent.cons.mp hsent with hp | hp
  · exact absurd (hsrc.symm.trans (Event.mem_packets.mp hp).2.1) hne
  · exact ⟨p, resp, hp, hsrc, h⟩

theorem Step.committed_holds (hr : Reachable c σ) (h : Step c σ e rest) {k : Int} (hk : .committed k ∈ e.effects) :
    e.after.state = .primary ∧ e.after.MajorityHolds k := by
  obtain ⟨hcommit, -, -, -, -, -, -, hy, -, hown⟩ := ((h.outcome hr).applied (h.idle hr)).committed hk
  have hranges := h.ranges hr (h.ranges_before hr)
  refine ⟨hy, ((h.known hr).le_majorityIndex_iff h.member hranges.keys).mp ?_⟩
  rw [hcommit, hown]

/-- The servers that a primary knows to hold an index, itself among them. -/
def holders (c : Cluster) (e : Event) (k : Int) : Finset Addr :=
  insert e.server (c.configuration.toFinset.filter fun z => decide (k ≤ e.after.followerSavedIndex.get z))

theorem Step.holders_quorum (hr : Reachable c σ) (h : Step c σ e rest) {k : Int} (hk : .committed k ∈ e.effects) :
    Quorum c.configuration (holders c e k) := by
  have hholds := (h.committed_holds hr hk).2
  have hkn := h.known hr
  unfold RaftServer.MajorityHolds at hholds
  rw [hkn.configuration, hkn.majority, ← card_filter_eq_countP c.nodup] at hholds
  refine ⟨fun z hz => ?_, ?_⟩
  · rcases Finset.mem_insert.mp hz with rfl | hz
    · exact List.mem_toFinset.mpr h.member
    · exact (Finset.mem_filter.mp hz).1
  · have := Finset.card_le_card (Finset.subset_insert e.server
      (c.configuration.toFinset.filter fun z => decide (k ≤ e.after.followerSavedIndex.get z)))
    unfold holders
    omega

/-- And each of them has told the primary. -/
theorem Step.holder_held (hr : Reachable c σ) (h : Step c σ e rest) (ho : Orderly (e :: σ.trace)) {k : Nat}
    (hk : .committed (k : Int) ∈ e.effects) {F : Addr} (hF : F ∈ holders c e k) (hne : F ≠ e.server) :
    HeldAt σ.trace F e.server e.after.term e.after.entries.log k := by
  obtain ⟨hmem, hle⟩ := Finset.mem_filter.mp ((Finset.mem_insert.mp hF).resolve_left hne)
  have hle : (k : Int) ≤ e.after.followerSavedIndex.get F := of_decide_eq_true hle
  obtain ⟨v, hv⟩ : ∃ v : Nat, e.after.followerSavedIndex.get F = v :=
    ⟨(e.after.followerSavedIndex.get F).toNat, by omega⟩
  have hheld := (h.reachable hr).saved_held ho e.server
    (by rw [System.raft_next_self]; exact (h.committed_holds hr hk).1) F (List.mem_toFinset.mp hmem) hne v
    (by rw [System.raft_next_self]; exact hv)
  rw [System.raft_next_self] at hheld
  exact (hheld.le (by omega)).before hne

/-- **What a primary commits, a majority has told it that it held.** -/
theorem commit_held (hr : Reachable c σ) (hone : OnePrimary σ.trace) (happly : Along ApplyAtPrimary σ.trace)
    {past : List Event} (hs : e :: past <:+ σ.trace) {k : Nat} (hk : .committed (k : Int) ∈ e.effects) :
    ∃ Q, Quorum c.configuration Q ∧ e.server ∈ Q ∧
      ∀ F ∈ Q, F ≠ e.server → HeldAt past F e.server e.after.term e.after.entries.log k := by
  obtain ⟨σ₀, rest, hr₀, rfl, hst⟩ := hr.at hs
  have ho : Orderly (e :: σ₀.trace) := (Orderly.mk hone happly).suffix hs
  exact ⟨holders c e k, hst.holders_quorum hr₀ hk, Finset.mem_insert_self _ _,
    fun F hF hne => hst.holder_held hr₀ ho hk hF hne⟩

end Runs

theorem commitX_held : ∃ (σ : System Unit) (e : Event) (past : List Event) (Q : Finset Addr),
    e :: past <:+ σ.trace ∧ .committed 0 ∈ e.effects ∧ Quorum threeServers.configuration Q ∧
      ∀ F ∈ Q, F ≠ e.server → HeldAt past F e.server e.after.term e.after.entries.log 0 := by
  obtain ⟨σ, hr, hone, happly, e, he, hk⟩ := System.exists_reachable threeServers commitX
    (P := fun σ : System Unit => OnePrimary σ.trace ∧ Along ApplyAtPrimary σ.trace ∧
      ∃ e ∈ σ.trace, .committed 0 ∈ e.effects) (by decide +kernel)
  obtain ⟨past, hs⟩ := exists_past he
  obtain ⟨Q, hQ, -, hheld⟩ := commit_held hr hone happly hs (k := 0) hk
  exact ⟨σ, e, past, Q, hs, hk, hQ, hheld⟩

end MyRaft
