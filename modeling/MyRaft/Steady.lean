/-
A follower that has accepted an AE of a term rejects none of the term after. What
a primary has on record for a follower, while no reply has sent it back since, is
where its next AE to the follower goes on; the follower has that part of the
log, and the AEs of the term it can still accept go on there or behind. This
needs no fresh replies: a late rejection moves `nextIndex_` back, away from what
is on record.
-/
import MyRaft.Pace

namespace MyRaft

open History
open StdLib (StdMap)
open RaftServer (Leads Accepts Answers PrelogOk)

/-- `F` is in the term of `P` or past it. In the term it has the log of `P` up to
`n`, and accepts no AE of `P` from before `n`. -/
structure Holds {SM : Type} (σ : System SM) (P F : Addr) (n : Nat) : Prop where
  entered : (σ.raft P).term ≤ (σ.raft F).term
  held : (σ.raft F).term = (σ.raft P).term → (σ.raft P).entries.log.take n <+: (σ.raft F).entries.log
  live : (σ.raft F).term = (σ.raft P).term → ∀ q ae, Sent σ.trace q → q.rpc = .appendEntry ae → q.src = P →
    q.dst = F →
    ae.term = (σ.raft P).term → (σ.raft F).followerRpcLsn.get P < ae.lsn → (n : Int) ≤ ae.prelogIndex + 1

/-- The next AE of `P` to `F` goes on where what `P` has on record for `F` ends. -/
def Level (F : Addr) (x : RaftServer) : Prop := x.followerSavedIndex.get F + 1 = x.nextIndex.get F

section Runs

variable {SM : Type} [StateMachine SM] {c : Cluster} {σ : System SM} {e : Event} {rest : List Packet} {p : Packet}
  {resp : RespAppendEntryRpc} {P F : Addr} {n : Nat}

/-! ## Replies still to be taken -/

theorem Reachable.ok_fresh (hr : Reachable c σ) (hp : Sent σ.trace p) (hresp : p.rpc = .respAppend resp)
    (hok : resp.ok = true) : answersTerm p resp = true := by
  obtain ⟨q, ae, x, h⟩ := hr.ae_reply hp hresp
  have ha := h.answers
  rw [hok] at ha
  cases ha with
  | accepted hacc => simp [answersTerm, h.call, h.term, hacc.term]

/-- A primary that takes a reply which is not one has a new one. -/
theorem Step.takes_outstanding (hr : Reachable c σ) (h : Step c σ e rest) (hi : e.input = .message p)
    (hp : p.rpc = .respAppend resp) (ht : TakesReply e.before resp) (hfresh : answersTerm p resp = true) :
    Outstanding σ p resp ∧ p.dst = e.server ∧ p.src = resp.server := by
  obtain ⟨hsent, hdst, -⟩ := h.delivered hr hi
  obtain ⟨q, ae, x, hreply⟩ := hr.ae_reply hsent hp
  exact ⟨⟨hsent, hp, hfresh, by rwa [hdst, ← h.before]⟩, hdst, hreply.server.symm⟩

theorem Reachable.unmoved (hr : Reachable c σ) (ho : Orderly σ.trace) : ∀ p resp, Outstanding σ p resp →
    (σ.raft p.src).term = resp.term → (σ.raft p.src).entries.log = p.sender.entries.log := by
  refine hr.invariant (I := fun σ => Orderly σ.trace → ∀ p resp, Outstanding σ p resp →
    (σ.raft p.src).term = resp.term → (σ.raft p.src).entries.log = p.sender.entries.log)
    (fun _ p resp h => ?_) ?_ ho
  · obtain ⟨d, hd, -⟩ := h.sent
    cases hd
  intro σ e rest hr h ih ho p resp hnow hterm
  rcases Sent.cons.mp hnow.sent with hp | hp
  · obtain ⟨-, hsrc, -, hsender⟩ := Event.mem_packets.mp hp
    rw [hsrc, System.raft_next_self, hsender, RaftServer.taken_entries]
  · obtain ⟨hold, -⟩ := hnow.sent_before hr h hp
    obtain ⟨q, ae, n, x, -, -, -, -, hsender, -⟩ := hold.answered hr
    have hterm' : (σ.raft p.src).term = resp.term := by
      have h1 := (hr.since_sent hp).term
      have h2 := (h.since_next hr p.src).term
      omega
    rw [hnow.log_kept hr h ho hold hterm hterm']
    exact ih (ho.suffix (List.suffix_cons e σ.trace)) p resp hold hterm'

omit [StateMachine SM] in
theorem RaftServer.Answers.unique {x y : RaftServer} {ae : AppendEntryRpc} {ok ok' : Bool} (h : Answers x ae y ok)
    (h' : Answers x ae y ok') : ok = ok' := by
  cases h with
  | stale hlt =>
    cases h' with
    | stale | rejected => rfl
    | accepted h' => have := h'.term_le; omega
  | rejected h =>
    cases h' with
    | stale | rejected => rfl
    | accepted h' => exact absurd h'.prelog h.prelog
  | accepted h =>
    cases h' with
    | stale hlt => have := h.term_le; omega
    | rejected h' => exact absurd h.prelog h'.prelog
    | accepted => rfl

theorem Outstanding.sent_now (hr : Reachable c σ) (h : Step c σ e rest) {p' : Packet} {resp' : RespAppendEntryRpc}
    (hnow : Outstanding (σ.next e rest) p resp) (hnow' : Outstanding (σ.next e rest) p' resp') (hp : p ∈ e.packets)
    (hsrc : p.src = p'.src) (hdst : p.dst = p'.dst) : resp.ok = resp'.ok := by
  obtain ⟨q, ae, hreply, hi⟩ := h.ae_reply hr hp hnow.rpc
  rcases Sent.cons.mp hnow'.sent with hp' | hp'
  · obtain ⟨q', ae', hreply', hi'⟩ := h.ae_reply hr hp' hnow'.rpc
    obtain rfl : q = q' := by simpa [hi] using hi'
    obtain rfl : ae = ae' := by simpa [hreply.rpc] using hreply'.rpc
    have ha := hreply'.answers
    rw [(Event.mem_packets.mp hp').2.2.2, ← (Event.mem_packets.mp hp).2.2.2] at ha
    exact hreply.answers.unique ha
  · -- the follower has recorded the lsn
    exfalso
    obtain ⟨hold, -⟩ := hnow'.sent_before hr h hp'
    have hae : ae.term = resp.term := by simpa [answersTerm, hreply.call] using hnow.fresh
    have hfollows := hreply.follows hae
    obtain ⟨hle, hrec⟩ := hr.reply_recorded hp' hold.rpc hold.fresh
    obtain ⟨k, hk⟩ := hr.ae_sent hreply.sent hreply.rpc
    have hterms : resp.term = resp'.term := by rw [hnow.takes.term, hnow'.takes.term, hdst]
    have hstart := hfollows.term_le
    have hserver : p.src = e.server := (Event.mem_packets.mp hp).2.1
    rw [← hsrc, hserver, ← h.before] at hle hrec
    have hlsn := hfollows.lsn
    rw [RaftServer.followerRpcLsn_same (by omega), hk.server, hreply.src, hdst] at hlsn
    have hseen := hrec (by omega)
    obtain ⟨_, _, _, hreply'⟩ := hr.ae_reply hp' hold.rpc
    have htakes := hnow.takes.lsn
    have htakes' := hnow'.takes.lsn
    rw [hreply.server, hsrc, hdst] at htakes
    rw [hreply'.server] at htakes'
    have := hreply.lsn
    omega

theorem Reachable.answers_once (hr : Reachable c σ) :
    ∀ p resp p' resp', Outstanding σ p resp → Outstanding σ p' resp' →
    p.src = p'.src → p.dst = p'.dst → resp.ok = resp'.ok := by
  refine hr.invariant (I := fun σ => ∀ p resp p' resp', Outstanding σ p resp → Outstanding σ p' resp' →
    p.src = p'.src → p.dst = p'.dst → resp.ok = resp'.ok) (fun p resp p' resp' h => ?_) ?_
  · obtain ⟨d, hd, -⟩ := h.sent
    cases hd
  intro σ e rest hr h ih p resp p' resp' hnow hnow' hsrc hdst
  rcases Sent.cons.mp hnow.sent with hp | hp
  · exact hnow.sent_now hr h hnow' hp hsrc hdst
  rcases Sent.cons.mp hnow'.sent with hp' | hp'
  · exact (hnow'.sent_now hr h hnow hp' hsrc.symm hdst.symm).symm
  · exact ih p resp p' resp' (hnow.sent_before hr h hp).1 (hnow'.sent_before hr h hp').1 hsrc hdst

/-! ## What a follower holds -/

/-- What an `ok` reply to the last AE says its follower has. -/
theorem Outstanding.holds (h : Outstanding σ p resp) (hr : Reachable c σ) (ho : Orderly σ.trace)
    (hok : resp.ok = true) (hn : (σ.raft p.dst).ackedIndex p.src resp + 1 = n) : Holds σ p.dst p.src n := by
  obtain ⟨hle, hrec⟩ := hr.reply_recorded h.sent h.rpc h.fresh
  obtain ⟨_, _, _, hreply⟩ := hr.ae_reply h.sent h.rpc
  have hterm := h.takes.term
  refine ⟨by omega, fun hsame => ?_, fun hsame q ae hq hae hsrc hdst hqterm hlsn => ?_⟩
  · cases n with
    | zero => simp
    | succ v =>
      have hv : (σ.raft p.dst).ackedIndex resp.server resp = v := by
        rw [hreply.server]
        omega
      obtain ⟨_, _, _, _, _, -, -, hacked, -⟩ := hr.acked_at ho h.sent h.rpc hok h.takes hv
      rw [hr.unmoved ho p resp h (by omega), ← hacked.take_eq, ← hacked.same]
      exact List.take_prefix _ _
  · -- the primary has sent no AE after the one that is answered
    exfalso
    obtain ⟨k, hk⟩ := hr.ae_sent hq hae
    have hsince := hr.since_sent hq
    rw [hsrc] at hsince
    have hcur := hsince.lsn (by rw [← hk.built.term, hqterm]) p.src
    have hsent := hk.lsn
    rw [hdst] at hsent
    have htakes := h.takes.lsn
    rw [hreply.server] at htakes
    have := hrec (by omega)
    omega

theorem Holds.next_other (h : Holds σ P F n) (hP : P ≠ e.server) (hF : F ≠ e.server) :
    Holds (σ.next e rest) P F n := by
  obtain ⟨hentered, hheld, hlive⟩ := h
  have hPkept : (σ.next e rest).raft P = σ.raft P := System.raft_next_ne hP
  have hFkept : (σ.next e rest).raft F = σ.raft F := System.raft_next_ne hF
  rw [← hPkept, ← hFkept] at hentered hheld hlive
  refine ⟨hentered, hheld, fun hsame q ae hq hae hsrc => ?_⟩
  rcases Sent.cons.mp hq with hq | hq
  · exact absurd (hsrc.symm.trans (Event.mem_packets.mp hq).2.1) hP
  · exact hlive hsame q ae hq hae hsrc

/-- A step of the primary, which sends nothing from before `n`. -/
theorem Holds.next_primary (h : Holds σ e.server F n) (hr : Reachable c σ) (hst : Step c σ e rest)
    (hne : F ≠ e.server) (hterm : e.after.term = e.before.term) (hlen : n ≤ e.before.entries.log.length)
    (hlog : e.before.entries.log <+: e.after.entries.log) (hnext : n ≤ e.after.nextIndex.get F) :
    Holds (σ.next e rest) e.server F n := by
  obtain ⟨hentered, hheld, hlive⟩ := h
  rw [← hst.before] at hentered hheld hlive
  refine ⟨?_, fun hsame => ?_, fun hsame q ae hq hae hsrc hdst hqterm hlsn => ?_⟩
  · rwa [System.raft_next_self, System.raft_next_ne hne, RaftServer.taken_term, hterm]
  · rw [System.raft_next_self, System.raft_next_ne hne, RaftServer.taken_term, hterm] at hsame
    rw [System.raft_next_self, System.raft_next_ne hne, RaftServer.taken_entries]
    obtain ⟨tail, htail⟩ := hlog
    rw [← htail, List.take_append_of_le_length hlen]
    exact hheld hsame
  · rw [System.raft_next_self, System.raft_next_ne hne, RaftServer.taken_term, hterm] at hsame
    rw [System.raft_next_self, RaftServer.taken_term, hterm] at hqterm
    rw [System.raft_next_ne hne] at hlsn
    rcases Sent.cons.mp hq with hq | hq
    · obtain ⟨k, hk⟩ := hst.ae_sent hr hq hae
      have hindex := hk.built.prelogIndex
      have := (hst.ae_next hr hq hae (n := k) (by omega)).2.2
      rw [hdst] at this
      omega
    · exact hlive hsame q ae hq hae hsrc hdst hqterm hlsn

/-- A step of the follower. -/
theorem Holds.next_follower (h : Holds σ P e.server n) (hr : Reachable c σ) (hst : Step c σ e rest)
    (ho : Orderly (e :: σ.trace)) (hP : (σ.raft P).state = .primary) (hne : P ≠ e.server) :
    Holds (σ.next e rest) P e.server n := by
  have ho' := ho.suffix (List.suffix_cons e σ.trace)
  obtain ⟨hentered, hheld, hlive⟩ := h
  have hsince := hst.since hr
  rw [← hst.before] at hentered hheld hlive
  obtain ⟨d, hd, hds, hdp, hdt⟩ := hr.primary_event hP
  refine ⟨?_, fun hsame => ?_, fun hsame q ae hq hae hsrc hdst hqterm hlsn => ?_⟩
  · rw [System.raft_next_self, System.raft_next_ne hne]
    exact Int.le_trans hentered hsince.term
  · rw [System.raft_next_self, System.raft_next_ne hne, RaftServer.taken_term] at hsame
    rw [System.raft_next_self, System.raft_next_ne hne, RaftServer.taken_entries]
    have hsame' : e.before.term = (σ.raft P).term := by
      have := hsince.term
      omega
    cases (hst.outcome hr).log with
    | same hlog =>
      rw [hlog]
      exact hheld hsame'
    | appended hi _ hstate =>
      -- then it would be the primary
      have hy := hstate.trans (ho.applies.1 (by rw [hi]; rfl))
      have := ho.one d (List.mem_cons_of_mem _ hd) e List.mem_cons_self hdp hy (hdt.trans hsame.symm)
      exact absurd (hds.symm.trans this) hne
    | @accepted q ae hi hq ha =>
      obtain ⟨hsent, hdst, -⟩ := hst.delivered hr hi
      obtain ⟨k, hk, hcopies⟩ := hst.copies hr ho' hi hq ha
      have hsrc : q.src = P := by
        obtain ⟨f, hf, hqf⟩ := hsent
        obtain ⟨-, hfs, -, hsender⟩ := Event.mem_packets.mp hqf
        have hstate := hk.primary
        have hbuilt := hk.built.term
        rw [hsender] at hstate hbuilt
        rw [hfs, ho'.one f hf d hd hstate hdp (by rw [← hbuilt, ← ha.term, hsame, hdt]), hds]
      have hae : ae.term = (σ.raft P).term := by rw [← ha.term, hsame]
      have hlsn := ha.lsn
      rw [RaftServer.followerRpcLsn_same (hae.trans hsame'.symm), hk.server, hsrc] at hlsn
      have hle := hlive hsame' q ae hsent hq hsrc hdst hae hlsn
      have hindex := hk.built.prelogIndex
      -- the AE was sent from the log of the primary
      have hprefix := hr.since_sent hsent
      rw [hsrc] at hprefix
      have hown := hprefix.log (by rw [← hk.built.term, hae]) hk.primary
      rcases hcopies.log with ⟨-, hlog⟩ | ⟨hlt, hlog⟩
      · rw [hlog]
        exact hheld hsame'
      · obtain ⟨tail, htail⟩ := hown
        rw [hlog, ← htail, List.take_append_of_le_length (by omega)]
        exact List.take_prefix_take_left (by omega)
  · rw [System.raft_next_self, System.raft_next_ne hne, RaftServer.taken_term] at hsame
    rw [System.raft_next_ne hne] at hqterm
    rw [System.raft_next_self, RaftServer.taken_followerRpcLsn] at hlsn
    have hsame' : e.before.term = (σ.raft P).term := by
      have := hsince.term
      omega
    rcases Sent.cons.mp hq with hq | hq
    · exact absurd (hsrc.symm.trans (Event.mem_packets.mp hq).2.1) hne
    · have := hsince.heard (by omega) P
      exact hlive hsame' q ae hq hae hsrc hdst hqterm (by omega)

/-! ## What is on record -/

/-- The next AE goes on no further than where the record ends; where it goes on there, the follower has it all. -/
def Recorded (c : Cluster) (σ : System SM) : Prop :=
  ∀ P, (σ.raft P).state = .primary → ∀ F ∈ c.configuration, F ≠ P → ∀ v : Nat,
    (σ.raft P).followerSavedIndex.get F = v →
    (σ.raft P).nextIndex.get F ≤ v + 1 ∧ ((σ.raft P).nextIndex.get F = v + 1 → Holds σ P F (v + 1))

theorem Step.recorded_self (hr : Reachable c σ) (h : Step c σ e rest) (ho : Orderly (e :: σ.trace))
    (ih : Recorded c σ) (hy : e.after.state = .primary) (hF : F ∈ c.configuration) (hne : F ≠ e.server) {v : Nat}
    (hv : e.after.followerSavedIndex.get F = v) :
    e.after.nextIndex.get F ≤ v + 1 ∧ (e.after.nextIndex.get F = v + 1 →
    Holds (σ.next e rest) e.server F (v + 1)) := by
  have ho' := ho.suffix (List.suffix_cons e σ.trace)
  have hk := h.known_before hr
  have hranges := h.ranges_before hr
  -- a step that leaves the tables alone
  have hkept : e.before.state = .primary → e.after.term = e.before.term →
      e.before.entries.log <+: e.after.entries.log →
      e.after.followerSavedIndex.get F = e.before.followerSavedIndex.get F →
      e.after.nextIndex.get F = e.before.nextIndex.get F →
      e.after.nextIndex.get F ≤ v + 1 ∧ (e.after.nextIndex.get F = v + 1 →
      Holds (σ.next e rest) e.server F (v + 1)) := by
    intro hx hterm hlog hsaved hnext
    have hold := ih e.server (by rw [← h.before]; exact hx) F hF hne v (by rw [← h.before, ← hsaved, hv])
    rw [← h.before, ← hnext] at hold
    have := (hranges.saved hx F hF).2
    exact ⟨hold.1, fun he => (hold.2 he).next_primary hr h hne hterm (by omega) hlog (by omega)⟩
  cases (h.outcome hr).leads hy with
  | same hx hterm hlog hnext hsaved => exact hkept hx hterm (by rw [hlog]) (by rw [hsaved]) (by rw [hnext])
  | appended _ hx hterm hlog hnext hsaved =>
    refine hkept hx hterm (by rw [hlog]; exact List.prefix_append _ _) ?_ (by rw [hnext])
    rw [hsaved, hk.server, StdMap.get_set_ne _ _ hne]
  | won _ _ _ _ _ _ _ _ _ _ hsaved =>
    rw [hsaved F (by rwa [hk.configuration]), hk.server, if_neg hne] at hv
    omega
  | @acked p resp hi hp hx hresp hlsn hok hterm hlog _ hnext _ hsaved =>
    have hsavedF := congrArg (·.get F) hsaved
    rw [RaftServer.counting, RaftServer.saved_followerSavedIndex, StdMap.get_set] at hsavedF
    have hnextF := hnext F
    by_cases hFr : F = resp.server
    · rw [if_pos hFr] at hsavedF hnextF
      rw [← hFr] at hsavedF
      have ht : TakesReply e.before resp := ⟨hx, hresp, hlsn⟩
      obtain ⟨hsent, -⟩ := h.delivered hr hi
      obtain ⟨hout, hdst, hsrc⟩ := h.takes_outstanding hr hi hp ht (hr.ok_fresh hsent hp hok)
      have hholds := hout.holds (n := v + 1) hr ho' hok (by rw [hdst, hsrc, ← hFr, ← h.before]; omega)
      rw [hdst, hsrc, ← hFr] at hholds
      have hle := (h.ranges hr hranges).next hy F hF
      have hlen := ((h.ranges hr hranges).saved hy F hF).2
      rw [hlog] at hlen
      exact ⟨by omega, fun he => hholds.next_primary hr h hne hterm (by omega) (by rw [hlog]) (by omega)⟩
    · rw [if_neg hFr] at hsavedF hnextF
      exact hkept hx hterm (by rw [hlog]) hsavedF hnextF
  | @nacked p resp _ _ hx _ _ _ hterm hlog _ hnext _ hsaved =>
    have hnextF := hnext F
    by_cases hFr : F = resp.server
    · -- the table goes back, the record stays
      rw [if_pos hFr] at hnextF
      have hold := (ih e.server (by rw [← h.before]; exact hx) F hF hne v (by rw [← h.before, ← hsaved, hv])).1
      rw [← h.before] at hold
      exact ⟨by omega, fun he => by omega⟩
    · rw [if_neg hFr] at hnextF
      exact hkept hx hterm (by rw [hlog]) (by rw [hsaved]) hnextF

theorem Reachable.recorded (hr : Reachable c σ) (ho : Orderly σ.trace) : Recorded c σ := by
  refine hr.invariant (I := fun σ => Orderly σ.trace → Recorded c σ) (fun _ P hP => by cases hP) ?_ ho
  intro σ e rest hr h ih ho P hP F hF hne v hv
  have ih := ih (ho.suffix (List.suffix_cons e σ.trace))
  by_cases hPe : P = e.server
  · subst hPe
    rw [System.raft_next_self] at hP hv ⊢
    exact h.recorded_self hr ho ih hP hF hne hv
  · have hP' := hP
    rw [System.raft_next_ne hPe] at hP' hv ⊢
    obtain ⟨hle, hholds⟩ := ih P hP' F hF hne v hv
    refine ⟨hle, fun he => ?_⟩
    by_cases hFe : F = e.server
    · subst hFe
      exact (hholds he).next_follower hr h ho hP' hPe
    · exact (hholds he).next_other hPe hFe

/-! ## Rejections -/

/-- A rejection that is sent now is not of an AE that goes on where the record ends. -/
theorem Outstanding.not_level_now (hnow : Outstanding (σ.next e rest) p resp) (hr : Reachable c σ)
    (h : Step c σ e rest) (ho : Orderly (e :: σ.trace)) (hp : p ∈ e.packets) (hok : resp.ok = false) :
    ¬ Level p.src ((σ.next e rest).raft p.dst) := by
  intro hlevel
  have hr' := h.reachable hr
  have hne := hnow.ne hr'
  obtain ⟨q, ae, n, x, hreply, hae, hn, -, hterm, hnext⟩ := hnow.answered hr'
  obtain ⟨q', ae', hreply', -⟩ := h.ae_reply hr hp hnow.rpc
  obtain rfl : ae' = ae := by simpa using hreply'.call.symm.trans hreply.call
  obtain ⟨-, hsrc, -, hsender⟩ := Event.mem_packets.mp hp
  have hrej := hreply'.rejects hae hok
  have hindex := hn.built.prelogIndex
  cases n with
  | zero => exact hrej.prelog (.inl (by omega))
  | succ v =>
    -- the follower has the entry before
    have hsaved : ((σ.next e rest).raft p.dst).followerSavedIndex.get p.src = v := by
      unfold Level at hlevel
      omega
    have hholds := (hr'.recorded ho p.dst hnow.takes.state p.src (hr'.src_mem hnow.sent) hne v hsaved).2 hnext
    have hheld :=
      hholds.held (by rw [hsrc, System.raft_next_self, RaftServer.taken_term, ← hsender, hterm, hnow.takes.term])
    rw [hsrc, System.raft_next_self, RaftServer.taken_entries, ← hsender, hrej.entries] at hheld
    have hown := hr'.since_sent hreply.sent
    rw [hreply.src] at hown
    obtain ⟨tail, htail⟩ := hown.log (by rw [← hn.built.term, hae, hnow.takes.term]) hn.primary
    have hlt : v < q.sender.entries.log.length := hn.built.le
    rw [← htail, List.take_append_of_le_length (by omega)] at hheld
    obtain ⟨tail', htail'⟩ := hheld
    have hget : e.before.entries.log[v]? = some q.sender.entries.log[v] := by
      rw [← htail', List.getElem?_append_left (by rw [List.length_take_of_le (by omega)]; omega),
        List.getElem?_take_of_lt (by omega), List.getElem?_eq_getElem hlt]
    have hpterm := hn.built.prelogTerm
    rw [if_neg (Nat.succ_ne_zero v), Nat.add_sub_cancel, List.getElem?_eq_getElem hlt, Option.map_some,
      Option.getD_some] at hpterm
    exact hrej.prelog (.inr ⟨v, _, by omega, hget, hpterm.symm⟩)

/-- **Where the next AE of a primary goes on where its record of a follower ends,
no rejection of the term is on the way from there.** -/
theorem Reachable.not_level (hr : Reachable c σ) (ho : Orderly σ.trace) : ∀ p resp, Outstanding σ p resp →
    resp.ok = false → ¬ Level p.src (σ.raft p.dst) := by
  refine hr.invariant (I := fun σ => Orderly σ.trace → ∀ p resp, Outstanding σ p resp → resp.ok = false →
    ¬ Level p.src (σ.raft p.dst)) (fun _ p resp h => ?_) ?_ ho
  · obtain ⟨d, hd, -⟩ := h.sent
    cases hd
  intro σ e rest hr h ih ho p resp hnow hok
  rcases Sent.cons.mp hnow.sent with hp | hp
  · exact hnow.not_level_now hr h ho hp hok
  obtain ⟨hold, hnext⟩ := hnow.sent_before hr h hp
  have ih := ih (ho.suffix (List.suffix_cons e σ.trace)) p resp hold hok
  suffices hsaved : ((σ.next e rest).raft p.dst).followerSavedIndex.get p.src =
      (σ.raft p.dst).followerSavedIndex.get p.src by
    unfold Level
    rwa [hsaved, hnext]
  by_cases hP : p.dst = e.server
  · have hy := hnow.takes.state
    have hk := h.known_before hr
    have hx := hold.takes.state
    rw [hP, System.raft_next_self] at hy ⊢
    rw [hP] at hx
    rw [← h.before] at hx ⊢
    rw [RaftServer.taken_followerSavedIndex]
    cases (h.outcome hr).leads hy with
    | same _ _ _ _ hsaved | nacked _ _ _ _ _ _ _ _ _ _ _ hsaved => rw [hsaved]
    | appended _ _ _ _ _ hsaved => rw [hsaved, hk.server, StdMap.get_set_ne _ _ (hP ▸ hold.ne hr)]
    | won _ _ hc => rw [hx] at hc; cases hc
    | @acked p' resp' hi hp' hx hresp' hlsn' hok' _ _ _ _ _ hsaved =>
      rw [hsaved, RaftServer.counting, RaftServer.saved_followerSavedIndex]
      refine StdMap.get_set_ne _ _ fun hs => ?_
      -- the follower has accepted the AE that it rejects
      obtain ⟨hsent', -⟩ := h.delivered hr hi
      obtain ⟨hout, hdst, hsrc⟩ := h.takes_outstanding hr hi hp' ⟨hx, hresp', hlsn'⟩ (hr.ok_fresh hsent' hp' hok')
      have := hr.answers_once p resp p' resp' hold hout (by rw [hsrc, hs]) (by rw [hP, hdst])
      rw [hok, hok'] at this
      cases this
  · rw [System.raft_next_ne hP]

end Runs

end MyRaft
