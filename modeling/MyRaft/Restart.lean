/-
Servers that stop between two handlers and come back. The constructor of
`RaftServer` reads the log back from the files of `Entries`; `term_` and
`already_voted_` are in no file and start again at 0 and false, so a server
that comes back has forgotten what it told the others.

A packet that was in flight to a server that stopped may still arrive.
-/
import MyRaft.Election
import MyRaft.LogStore

namespace MyRaft

open History
open StdLib (StdMap)
open RaftServer (Outcome Grants)

/-! ## Restarts -/

/-- The constructor, with the files of `x` to load. -/
def RaftServer.restarted (x : RaftServer) : RaftServer :=
  { RaftServer.start x.server x.configuration with entries := .reloaded x.entries.log }

/-- Its log is what a log store that holds the log of `x` loads from its files. -/
theorem RaftServer.restarted_loaded {codec : Codec} {store : LogStore} {x : RaftServer}
    (h : LogStore.Holds codec store x.entries.log)
    (harchive : codec.iarchive (codec.oarchive store.offset) = some store.offset) :
    ∃ store', LogStore.load codec store.files = .ok store' ∧ store'.entries = x.restarted.entries := by
  obtain ⟨store', hload, hentries, -⟩ := h.restart harchive
  exact ⟨store', hload, hentries⟩

/-- After a restart the first RV of any term is granted, whatever the server had promised. -/
theorem RaftServer.restarted_grants {x : RaftServer} {rv : RequestVoteRpc} (hterm : 0 < rv.term)
    (hlsn : 0 ≤ rv.lsn) (hserver : rv.server ∈ x.configuration)
    (hlog : x.restarted.shouldVote rv.term rv.latestIndex = .ok true) :
    x.restarted.react2rv rv = .ok ((x.restarted.becomeFollower rv.term).voted rv) := by
  have hnew : x.restarted.term = 0 := rfl
  have hheard : x.restarted.heard rv.term = x.restarted.becomeFollower rv.term := if_pos (by omega)
  have hknown : rv.server ∈ x.restarted.configuration := hserver
  have hrecorded : (x.restarted.becomeFollower rv.term).followerRpcLsn.get rv.server = -1 := by
    rw [becomeFollower_followerRpcLsn, if_pos (by omega), StdMap.get_setAll, if_pos hknown]
  rw [react2rv_granted (by omega) (by rw [hheard]; omega) (by rw [hheard]; rfl) (by rw [hheard]; rfl) hlog, hheard]

section Runs

variable {SM : Type} [StateMachine SM] {c : Cluster} {P : System SM → Addr → Prop} {σ σ' : System SM} {e : Event}
  {rest : List Packet} {s : Addr}

/-- A process stops between two handlers and starts again. -/
def System.restart (σ : System SM) (s : Addr) : System SM :=
  { σ with nodes := Function.update σ.nodes s ⟨(σ.raft s).restarted, [], [], [], [], StateMachine.initial⟩ }

/-- The states of the runs in which a server may restart where `P` allows it. -/
inductive Survives (c : Cluster) (P : System SM → Addr → Prop) : System SM → Prop
  | start : Survives c P (System.start c)
  | step {σ : System SM} {e rest} : Survives c P σ → Step c σ e rest → Survives c P (σ.next e rest)
  | restart {σ : System SM} {s} : Survives c P σ → s ∈ c.configuration → P σ s → Survives c P (σ.restart s)

theorem System.raft_restart (s' : Addr) :
    (σ.restart s).raft s' = if s' = s then (σ.raft s).restarted else σ.raft s' := by
  unfold restart raft
  by_cases hs : s' = s
  · subst hs
    simp
  · simp [hs]

@[simp] theorem System.trace_restart : (σ.restart s).trace = σ.trace := rfl

theorem Wired.restart (h : Wired c σ) : Wired c (σ.restart s) := by
  have hk := h.known s
  refine ⟨fun s' => ?_, fun s' => ?_, h.sent, h.ofServer⟩
  · rw [System.raft_restart]
    split
    · rename_i he
      exact ⟨by rw [he]; exact hk.server, hk.configuration, by rw [← hk.configuration]; rfl⟩
    · exact h.known s'
  · rw [System.raft_restart]
    split
    · rfl
    · exact h.idle s'

theorem Survives.wired (h : Survives c P σ) : Wired c σ := by
  induction h with
  | start => exact .start
  | step _ hst ih => exact ih.step hst
  | restart _ _ _ ih => exact ih.restart

end Runs

/-! ## Promises -/

/-- The term a reply tells. -/
def Packet.replyTerm? (p : Packet) : Option Int :=
  match p.rpc with
  | .respVote resp => some resp.term
  | .respAppend resp => some resp.term
  | _ => none

/-- A reply with `ok`. -/
def Packet.accepts (p : Packet) : Bool :=
  match p.rpc with
  | .respVote resp => resp.ok
  | .respAppend resp => resp.ok
  | _ => false

/-- The term of an RPC that asks for a reply. -/
def Rpc.askedTerm? : Rpc → Option Int
  | .requestVote rpc => some rpc.term
  | .appendEntry rpc => some rpc.term
  | _ => none

/-- What the servers of a run have promised by their replies is kept. -/
structure KeepsPromises (trace : List Event) : Prop where
  /-- The votes of a server in a term go to one candidate. -/
  votes : ∀ v term, ∀ a ∈ votesOf trace v term, ∀ b ∈ votesOf trace v term, a = b
  /-- No RPC is accepted of a term below one the server has acknowledged. -/
  terms : ∀ {e past}, e :: past <:+ trace → ∀ p ∈ e.packets, p.accepts = true →
    ∀ asked ∈ e.input.call, ∀ term ∈ asked.askedTerm?,
      ∀ d ∈ past, d.server = e.server → ∀ q ∈ d.packets, ∀ acknowledged ∈ q.replyTerm?, acknowledged ≤ term

/-- The server has answered nobody yet. -/
def Unpromised {SM : Type} (σ : System SM) (s : Addr) : Prop :=
  ∀ d ∈ σ.trace, d.server = s → ∀ p ∈ d.packets, p.replyTerm? = none

instance {SM : Type} (σ : System SM) (s : Addr) : Decidable (Unpromised σ s) :=
  inferInstanceAs (Decidable (∀ d ∈ σ.trace, d.server = s → ∀ p ∈ d.packets, p.replyTerm? = none))

/-- The AE an input is, if it is one. -/
def Input.appendEntry? (input : Input) : Option AppendEntryRpc :=
  match input.call with
  | some (.appendEntry rpc) => some rpc
  | _ => none

/-- An AE of a term met the server in that term with its vote given, and `trans2F` cleared `already_voted_`. -/
def VoteCleared (past : List Event) (s : Addr) (term : Int) : Prop :=
  ∃ d ∈ past, d.server = s ∧ d.before.term = term ∧ d.before.alreadyVoted = true ∧
    ∃ ae ∈ d.input.appendEntry?, ae.term = term

instance (past : List Event) (s : Addr) (term : Int) : Decidable (VoteCleared past s term) :=
  inferInstanceAs (Decidable (∃ d ∈ past, d.server = s ∧ d.before.term = term ∧ d.before.alreadyVoted = true ∧
    ∃ ae ∈ d.input.appendEntry?, ae.term = term))

/-- Where an AE has cleared `already_voted_` in the present term, no vote is granted to another candidate. -/
def NotForgotten (past : List Event) (e : Event) : Prop :=
  VoteCleared past e.server e.before.term → VoteOnce past e

instance (past : List Event) (e : Event) : Decidable (NotForgotten past e) :=
  inferInstanceAs (Decidable (VoteCleared past e.server e.before.term → VoteOnce past e))

namespace RaftServer

variable {x y : RaftServer} {input : Input} {dst : Addr}

/-- A follower keeps its vote for as long as its term, but for the AEs of that term. -/
theorem Outcome.keeps_vote (h : Outcome x input y) (hx : x.state = .follower) (hterm : x.term = y.term)
    (hvoted : x.alreadyVoted = true) :
    y.alreadyVoted = true ∨ ∃ ae ∈ input.appendEntry?, ae.term = x.term := by
  have hae : ∀ {p ae}, p.rpc = .appendEntry ae → Input.appendEntry? (.message p) = some ae := fun hp => by
    unfold Input.appendEntry? Input.call
    simp only [hp]
  cases h with
  | acked hp hresp hstate | nacked hp hresp hstate | won hp hresp hstate | counted hp hresp hstate =>
    rw [hx] at hstate
    cases hstate
  | campaigned hh hy =>
    obtain ⟨_, _, _, rfl⟩ := CalledAll.eq hy
    have hgrown : x.term = x.term + 1 := hterm
    omega
  | rvRetried hmin hy =>
    obtain ⟨_, _, _, rfl⟩ := CalledAll.eq hy
    exact .inl hvoted
  | aeRetried hmin hy =>
    obtain ⟨_, _, _, rfl⟩ := hy.eq
    exact .inl hvoted
  | steppedDown hlt =>
    have hsame := hterm
    rw [becomeFollower_term] at hsame
    omega
  | rvIgnored hp hle | rvDenied hp hle =>
    have hsame : x.term = (x.heard _).term := hterm
    rw [heard_term _ hle] at hsame
    rw [heard_same hsame.symm]
    exact .inl hvoted
  | rvGranted => exact .inl rfl
  | aeIgnored hp | aeRejected hp => exact .inr ⟨_, hae hp, hterm.symm⟩
  | aeAccepted hp hle hnp hlsn hpre ht =>
    refine .inr ⟨_, hae hp, ?_⟩
    subst ht
    exact hterm.symm
  | _ => exact .inl hvoted

/-- A server that grants a vote has voted. -/
theorem Outcome.grant_voted (hx : x.effects = []) (h : Outcome x input y) {resp : RespRequestVoteRpc}
    (hm : Effect.rpc dst (.respVote resp) ∈ y.effects) (hok : resp.ok = true) : y.alreadyVoted = true := by
  have hs := h.sends hx hm
  cases hs with
  | respVote hi hq =>
    subst hi
    cases h with
    | rvGranted => rfl
    | idle | steppedDown | rvIgnored => simp [hx] at hm
    | rvStale | rvDenied =>
      obtain ⟨-, hresp⟩ := mem_makeRpcCall (by simp [hx]) hm
      cases hresp
      cases hok
    | aeStale hp | aeIgnored hp | aeRejected hp | aeAccepted hp | counted hp | won hp | acked hp | nacked hp =>
      rw [hq] at hp
      cases hp

/-- A reply tells the term of its server. -/
theorem Sends.reply_term {p : Packet} (h : Sends x input y p.dst p.rpc) {term : Int}
    (ht : p.replyTerm? = some term) :
    term = y.term := by
  unfold Packet.replyTerm? at ht
  generalize p.rpc = m at h ht
  cases h with
  | respVote hi hp hdst hterm | respAppend hi hp hdst hterm =>
    cases ht
    exact hterm
  | _ => cases ht

/-- What is accepted is not of an old term. -/
theorem Sends.accepted {p : Packet} (h : Sends x input y p.dst p.rpc) (hacc : p.accepts = true) {asked : Rpc}
    (hasked : input.call = some asked) {term : Int} (ht : asked.askedTerm? = some term) : x.term ≤ term := by
  unfold Packet.accepts at hacc
  generalize p.rpc = m at h hacc
  cases h with
  | respVote hi hp hdst hterm hserver hlsn hok =>
    subst hi
    rw [Input.call, hp] at hasked
    cases hasked
    cases ht
    exact (hok hacc).term_le
  | respAppend hi hp hdst hterm hserver hlsn hempty ha =>
    subst hi
    rw [Input.call, hp] at hasked
    cases hasked
    cases ht
    simp only at hacc
    rw [hacc] at ha
    cases ha with
    | accepted ha => exact ha.term_le
  | _ => cases hacc

end RaftServer

section Runs

variable {SM : Type} [StateMachine SM] {c : Cluster} {P : System SM → Addr → Prop} {σ σ' : System SM} {e : Event}
  {rest : List Packet} {p : Packet} {s : Addr} {resp : RespRequestVoteRpc}

omit [StateMachine SM] in
/-- A grant, with the RV it answers. -/
theorem Wired.grants (hw : Wired c σ) (h : Step c σ e rest) (hp : p ∈ e.packets) (hg : Grant p s resp) :
    ∃ rv ∈ e.input.requestVote?, rv.server = s ∧ resp.term = e.after.term ∧ Grants e.before rv e.after := by
  have hs := hw.sends h hp
  rw [hg.rpc] at hs
  cases hs with
  | respVote hi hq hdst hterm hserver hlsn hok =>
    refine ⟨_, ?_, hdst.trans hg.dst, hterm, hok hg.ok⟩
    rw [hi]
    simp [Input.requestVote?, Input.call, hq]

/-- A grant is a reply. -/
theorem Grant.replyTerm? (hg : Grant p s resp) : p.replyTerm? = some resp.term := by
  unfold Packet.replyTerm?
  rw [hg.rpc]

/-- What the state of a server still shows of its promises. -/
structure Promises (σ : System SM) (s : Addr) : Prop where
  replied : ∀ d ∈ σ.trace, d.server = s → ∀ p ∈ d.packets, ∀ term ∈ p.replyTerm?, term ≤ (σ.raft s).term
  voted : ∀ a ∈ votesOf σ.trace s (σ.raft s).term, (σ.raft s).state = .follower ∧
    ((σ.raft s).alreadyVoted = true ∨ VoteCleared σ.trace s (σ.raft s).term)

omit [StateMachine SM] in
theorem Promises.votes_le (h : Promises σ s) {a : Addr} {term : Int} (ha : a ∈ votesOf σ.trace s term) :
    term ≤ (σ.raft s).term := by
  obtain ⟨d, hd, hds, p, hp, resp, hg, rfl⟩ := mem_votesOf.mp ha
  exact h.replied d hd hds p hp resp.term hg.replyTerm?

theorem VoteCleared.cons {past : List Event} {term : Int} (h : VoteCleared past s term) :
    VoteCleared (e :: past) s term := by
  obtain ⟨d, hd, h⟩ := h
  exact ⟨d, List.mem_cons_of_mem _ hd, h⟩

theorem mem_votesOf_cons {a v : Addr} {past : List Event} {term : Int} :
    a ∈ votesOf (e :: past) v term ↔
      e.server = v ∧ (∃ p ∈ e.packets, ∃ resp, Grant p a resp ∧ resp.term = term) ∨ a ∈ votesOf past v term := by
  simp only [mem_votesOf, List.mem_cons, or_and_right, exists_or, exists_eq_left]

/-- A step of another server. -/
theorem Promises.other (ih : Promises σ s) (hse : s ≠ e.server) : Promises (σ.next e rest) s := by
  constructor
  · intro d hd hds
    rw [System.raft_next_ne hse]
    rcases List.mem_cons.mp hd with rfl | hd
    · exact absurd hds.symm hse
    · exact ih.replied d hd hds
  · intro a ha
    rw [System.raft_next_ne hse] at ha ⊢
    rcases mem_votesOf_cons.mp ha with ⟨he, -⟩ | ha
    · exact absurd he.symm hse
    · obtain ⟨hfollower, hkept⟩ := ih.voted a ha
      exact ⟨hfollower, hkept.imp_right VoteCleared.cons⟩

theorem Step.promises (hw : Wired c σ) (h : Step c σ e rest) (ih : Promises σ e.server) :
    Promises (σ.next e rest) e.server := by
  have ho := hw.outcome h
  have hle := ho.term_le
  obtain ⟨hreplied, hvoted⟩ := ih
  rw [← h.before] at hreplied hvoted
  constructor
  · intro d hd hds p hp term hterm
    rw [System.raft_next_self, RaftServer.taken_term]
    rcases List.mem_cons.mp hd with rfl | hd
    · exact Int.le_of_eq ((hw.sends h hp).reply_term hterm)
    · exact Int.le_trans (hreplied d hd hds p hp term hterm) hle
  · intro a ha
    rw [System.raft_next_self] at ha ⊢
    rw [System.trace_next, RaftServer.taken_term] at ha ⊢
    rcases mem_votesOf_cons.mp ha with ⟨-, p, hp, resp, hg, -⟩ | ha
    · -- it votes now
      obtain ⟨rv, -, -, -, hgr⟩ := hw.grants h hp hg
      have hm := (Event.mem_packets.mp hp).1
      rw [hg.rpc] at hm
      have hv : e.after.alreadyVoted = true := ho.grant_voted (hw.idle_before h) hm hg.ok
      exact ⟨hgr.state, .inl hv⟩
    · -- it voted before, in the term it is still in
      have hsame : e.before.term = e.after.term := by
        obtain ⟨d, hd, hds, p, hp, resp, hg, hterm⟩ := mem_votesOf.mp ha
        have := hreplied d hd hds p hp resp.term hg.replyTerm?
        omega
      obtain ⟨hfollower, hkept⟩ := hvoted a (by rw [hsame]; exact ha)
      refine ⟨ho.follower hfollower hsame, ?_⟩
      rcases hkept with hkept | hcleared
      · rcases ho.keeps_vote hfollower hsame hkept with hv | ⟨ae, hae, hterm⟩
        · exact .inl hv
        · exact .inr ⟨e, List.mem_cons_self, rfl, hsame, hkept, ae, hae, hterm.trans hsame⟩
      · rw [hsame] at hcleared
        exact .inr hcleared.cons

/-- A server that has promised nothing keeps its promises in a restart. -/
theorem Promises.restart {s' : Addr} (ih : Promises σ s) (hu : Unpromised σ s') : Promises (σ.restart s') s := by
  by_cases hs : s = s'
  · subst hs
    have hnone : ∀ term, votesOf σ.trace s term = [] :=
        fun term => List.eq_nil_iff_forall_not_mem.mpr fun a ha => by
      obtain ⟨d, hd, hds, p, hp, resp, hg, -⟩ := mem_votesOf.mp ha
      have := hu d hd hds p hp
      rw [hg.replyTerm?] at this
      cases this
    constructor
    · intro d hd hds p hp term hterm
      rw [hu d hd hds p hp] at hterm
      cases hterm
    · intro a ha
      rw [System.trace_restart, hnone] at ha
      cases ha
  · obtain ⟨hreplied, hvoted⟩ := ih
    constructor
    · rw [System.raft_restart, if_neg hs]
      exact hreplied
    · rw [System.raft_restart, if_neg hs]
      exact hvoted

theorem Survives.promises (hr : Survives c Unpromised σ) (s : Addr) : Promises σ s := by
  induction hr with
  | start =>
    constructor
    · intro d hd
      cases hd
    · intro a ha
      cases ha
  | @step σ e rest hr hst ih =>
    by_cases hs : s = e.server
    · subst hs
      exact hst.promises hr.wired ih
    · exact ih.other hs
  | restart _ _ hu ih => exact ih.restart hu

omit [StateMachine SM] in
/-- A new vote goes where the old votes of its term went. -/
theorem Step.same_vote (hw : Wired c σ) (h : Step c σ e rest) (hpr : Promises σ e.server)
    (hn : NotForgotten σ.trace e) (hp : p ∈ e.packets) (hg : Grant p s resp) {b : Addr}
    (hb : b ∈ votesOf σ.trace e.server resp.term) : b = s := by
  obtain ⟨rv, hrv, hserver, hterm, hgr⟩ := hw.grants h hp hg
  have hvterm : rv.term = resp.term := hgr.term.symm.trans hterm.symm
  have hsame : rv.term = e.before.term := by
    have hle := hpr.votes_le hb
    rw [← h.before] at hle
    have := hgr.term_le
    omega
  have h1 := hgr.lsn
  have h2 := hgr.was_follower
  have h3 := hgr.not_voted
  rw [RaftServer.heard_same hsame] at h1 h2 h3
  obtain ⟨-, hkept⟩ := hpr.voted b (by rw [← h.before, ← hsame, hvterm]; exact hb)
  rw [← h.before, h3] at hkept
  rcases hkept with hkept | hcleared
  · cases hkept
  · rw [← hserver]
    exact hn hcleared rv hrv hsame h1 h2 h3 hgr.shouldVote b (by rw [hvterm]; exact hb)

/-- **A run keeps the promises of its terms** when only servers that have promised nothing restart, and no AE
makes a server forget a vote. -/
theorem keeps_promises (hr : Survives c Unpromised σ) (ha : Along NotForgotten σ.trace) :
    KeepsPromises σ.trace := by
  induction hr with
  | start =>
    constructor
    · intro v term a ha
      cases ha
    · intro e past hs
      cases List.suffix_nil.mp hs
  | @step σ e rest hr h ih =>
    obtain ⟨hvotes, hterms⟩ := ih ha.2
    have hw := hr.wired
    have hpr := hr.promises e.server
    constructor
    · intro v term a hva b hvb
      rcases mem_votesOf_cons.mp hva with ⟨hv, p, hp, resp, hg, rfl⟩ | hold
      · subst hv
        rcases mem_votesOf_cons.mp hvb with ⟨-, p', hp', resp', hg', -⟩ | hold'
        · -- one event grants one vote
          rw [hw.packets_of_grant h hp hg, List.mem_singleton] at hp'
          subst hp'
          exact hg.dst.symm.trans hg'.dst
        · exact (h.same_vote hw hpr ha.1 hp hg hold').symm
      · rcases mem_votesOf_cons.mp hvb with ⟨hv, p', hp', resp', hg', rfl⟩ | hold'
        · subst hv
          exact h.same_vote hw hpr ha.1 hp' hg' hold
        · exact hvotes v term a hold b hold'
    · intro d past hs p hp hacc asked hasked term hterm d' hd' hserver q hq acknowledged hack
      rcases List.suffix_cons_iff.mp hs with he | hs
      · obtain ⟨rfl, rfl⟩ := List.cons_eq_cons.mp he
        have hle := hpr.replied d' hd' hserver q hq acknowledged hack
        rw [← h.before] at hle
        exact Int.le_trans hle ((hw.sends h hp).accepted hacc hasked hterm)
      · exact hterms hs p hp hacc asked hasked term hterm d' hd' hserver q hq acknowledged hack
  | restart _ _ _ ih => exact ih ha

/-! ## Schedules with restarts -/

/-- A choice of what happens next, or of a server that restarts. -/
inductive Choice where
  | act (a : Action)
  | restart (s : Addr)

/-- `run`, with restarts where `P` allows them. -/
def System.survive (c : Cluster) (P : System SM → Addr → Prop) [∀ σ s, Decidable (P σ s)] (σ : System SM) :
    List Choice → Option (System SM)
  | [] => some σ
  | .act a :: choices => (σ.act c a).bind fun σ' => σ'.survive c P choices
  | .restart s :: choices => if s ∈ c.configuration ∧ P σ s then (σ.restart s).survive c P choices else none

theorem System.act_step {a : Action} (h : σ.act c a = some σ') :
    ∃ e rest, Step c σ e rest ∧ σ' = σ.next e rest := by
  unfold act at h
  split at h
  · cases h
  · rename_i s input rest ho
    split at h
    · rename_i hs
      split at h
      · rename_i r hh
        cases h
        exact ⟨σ.event s input r, rest, ⟨hs, offer_offers ho, rfl, hh⟩, rfl⟩
      · cases h
    · cases h

theorem Survives.survive [∀ σ s, Decidable (P σ s)] {choices : List Choice} :
    ∀ {σ σ' : System SM}, Survives c P σ →
    σ.survive c P choices = some σ' → Survives c P σ' := by
  induction choices with
  | nil =>
    intro σ σ' hr h
    cases h
    exact hr
  | cons choice choices ih =>
    intro σ σ' hr h
    cases choice with
    | act a =>
      simp only [System.survive, Option.bind_eq_some_iff] at h
      obtain ⟨σ₁, h₁, h₂⟩ := h
      obtain ⟨e, rest, hst, rfl⟩ := System.act_step h₁
      exact ih (hr.step hst) h₂
    | restart s =>
      simp only [System.survive] at h
      split at h
      · rename_i hs
        exact ih (hr.restart hs.1 hs.2) h
      · cases h

theorem exists_survives (c : Cluster) (P : System SM → Addr → Prop) [∀ σ s, Decidable (P σ s)]
    (choices : List Choice) {Q : System SM → Prop} [DecidablePred Q]
    (h : ((System.start c : System SM).survive c P choices).any (fun σ => decide (Q σ)) = true) :
    ∃ σ : System SM, Survives c P σ ∧ Q σ := by
  obtain ⟨σ, hrun, hQ⟩ := (Option.any_eq_true _ _).mp h
  exact ⟨σ, Survives.start.survive hrun, of_decide_eq_true hQ⟩

end Runs

/-- B votes for A, restarts, and votes for C in the same term. -/
def voteTwice : List Choice :=
  (campaign serverA ++ [Action.deliver 0]).map .act ++ [.restart serverB] ++
    (campaign serverC ++ [Action.deliver 3]).map .act

theorem voteTwice_breaks_promise : ¬ ∀ σ : System Unit, Survives threeServers (fun _ _ => True) σ →
    KeepsPromises σ.trace := by
  intro hall
  obtain ⟨σ, hr, hA, hC⟩ := exists_survives threeServers (fun _ _ => True) voteTwice
    (Q := fun σ : System Unit => serverA ∈ votesOf σ.trace serverB 1 ∧ serverC ∈ votesOf σ.trace serverB 1)
    (by decide +kernel)
  exact absurd ((hall σ hr).votes serverB 1 serverA hA serverC hC) (by decide)

/-- C restarts before the RV of A comes. -/
def restartC : List Choice := electA.map .act ++ [.restart serverC, .act (.deliver 0)]

theorem restartC_keeps_promises : ∃ σ : System Unit, Survives threeServers Unpromised σ ∧
    votesOf σ.trace serverC 1 = [serverA] ∧ KeepsPromises σ.trace := by
  obtain ⟨σ, hr, hv, ha⟩ := exists_survives threeServers Unpromised restartC
    (Q := fun σ : System Unit => votesOf σ.trace serverC 1 = [serverA] ∧ Along NotForgotten σ.trace)
    (by decide +kernel)
  exact ⟨σ, hr, hv, keeps_promises hr ha⟩

end MyRaft
