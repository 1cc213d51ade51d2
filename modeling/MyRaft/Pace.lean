/-
Where a primary is with each follower. `nextIndex_` and the AEs that a follower
can still accept all point at one position of the primary's log, and the log of
the follower agrees with the primary's no further than one past it. So an AE
that is accepted never cuts off an entry the two logs share.

This takes replies that answer AEs of their own term: a stale rejection moves
`nextIndex_` back below what the follower has acknowledged.
-/
import MyRaft.Acks

namespace MyRaft

open History Lineage
open StdLib (StdMap)
open RaftServer (Leads Accepts Answers)

/-- A reply that a primary takes answers an AE of its own term. -/
def FreshReply (_ : List Event) (e : Event) : Prop :=
  ∀ p ∈ e.input.packet?, ∀ resp ∈ p.respAppend?, TakesReply e.before resp → answersTerm p resp = true

instance (past : List Event) (e : Event) : Decidable (FreshReply past e) :=
  inferInstanceAs (Decidable (∀ p ∈ e.input.packet?, ∀ resp ∈ p.respAppend?, TakesReply e.before resp →
    answersTerm p resp = true))

/-- The logs agree on the first `m` entries. -/
structure Shared (L l : List RpcEntry) (m : Nat) : Prop where
  le : m ≤ L.length
  take : L.take m <+: l

theorem Shared.length_le {L l : List RpcEntry} {m : Nat} (h : Shared L l m) : m ≤ l.length := by
  have := h.take.length_le
  rwa [List.length_take_of_le h.le] at this

theorem Shared.get {L l : List RpcEntry} {m i : Nat} (h : Shared L l m) (hi : i < m) : L[i]? = l[i]? := by
  have hlt : i < (L.take m).length := by
    rw [List.length_take_of_le h.le]
    exact hi
  rw [← List.getElem?_take_of_lt hi, List.getElem?_eq_getElem hlt, h.take.getElem hlt]
  exact (List.getElem?_eq_getElem _).symm

/-- Where the primary of a term is with `F`: an entry of its table for `F`, or
the position of an AE that `F` can still accept. -/
inductive Cursor {SM : Type} (σ : System SM) (term : Int) (F : Addr) (n : Nat) : Prop
  | table {P} (hP : (σ.raft P).state = .primary) (hterm : (σ.raft P).term = term) (hne : P ≠ F)
      (hnext : (σ.raft P).nextIndex.get F = n)
  | flying {p ae} (hp : Sent σ.trace p) (hae : p.rpc = .appendEntry ae) (hdst : p.dst = F) (hne : p.src ≠ F)
      (hterm : ae.term = term) (hindex : ae.prelogIndex + 1 = n)
      (hlive : (σ.raft F).term < term ∨
        (σ.raft F).term = term ∧ (σ.raft F).followerRpcLsn.get p.src < ae.lsn)

/-- How the server of an event came to be elsewhere with `F`. -/
inductive Moved (e : Event) (F : Addr) (n : Nat) : Prop
  | won (hx : e.before.state = .candidate) (hterm : e.after.term = e.before.term)
    (hn : n = e.after.entries.log.length)
  | acked {p resp} (hi : e.input = .message p) (hp : p.rpc = .respAppend resp) (ht : TakesReply e.before resp)
      (hok : resp.ok = true) (hF : resp.server = F) (hterm : e.after.term = e.before.term)
      (hlog : e.after.entries.log = e.before.entries.log) (hn : (n : Int) = e.before.ackedIndex F resp + 1)
  | nacked {p resp} (hi : e.input = .message p) (hp : p.rpc = .respAppend resp) (ht : TakesReply e.before resp)
      (hok : resp.ok = false) (hF : resp.server = F) (hterm : e.after.term = e.before.term)
      (hlog : e.after.entries.log = e.before.entries.log) (hn : (n : Int) = e.before.nextIndex.get F - 1)

section Runs

variable {SM : Type} [StateMachine SM] {c : Cluster} {σ : System SM} {e : Event} {rest : List Packet} {p : Packet}
  {resp : RespAppendEntryRpc} {term : Int} {F : Addr} {n n' m : Nat}

/-! ## The primary of a term -/

theorem Reachable.primary_event (hr : Reachable c σ) {P : Addr} (hP : (σ.raft P).state = .primary) :
    ∃ d ∈ σ.trace, d.server = P ∧ d.after.state = .primary ∧ d.after.term = (σ.raft P).term := by
  rcases hr.last_event P with hs | ⟨d, hd, hds, he⟩
  · rw [hs] at hP
    cases hP
  · rw [he] at hP ⊢
    exact ⟨d, hd, hds, hP, rfl⟩

theorem Reachable.primaryLog_eq (hr : Reachable c σ) (hone : OnePrimary σ.trace) {P : Addr}
    (hP : (σ.raft P).state = .primary) : primaryLog σ.trace (σ.raft P).term = (σ.raft P).entries.log := by
  rcases hr.last_event P with hs | ⟨d, hd, hds, he⟩
  · rw [hs] at hP
    cases hP
  have hP' : d.after.state = .primary := by
    rw [he] at hP
    exact hP
  rcases primaryLog_cases (σ.raft P).term σ.trace with ⟨-, hnone⟩ | ⟨f, past, hs, hf, hterm, hlog⟩
  · exact absurd (by rw [he]; rfl) (hnone d hd hP')
  · have hfm := mem_of_suffix hs
    have hserver : f.server = P := (hone f hfm d hd hf hP' (by rw [hterm, he]; rfl)).trans hds
    have hsince := hr.since hfm
    rw [hserver] at hsince
    have hle : primaryLog σ.trace (σ.raft P).term <+: (σ.raft P).entries.log := by
      rw [hlog]
      exact hsince.log hterm hf
    have hge := hr.log_le_primaryLog hone hd hP'
    rw [show d.after.term = (σ.raft P).term by rw [he]; rfl,
      show d.after.entries.log = (σ.raft P).entries.log by rw [he]; rfl] at hge
    exact hle.eq_of_length (Nat.le_antisymm hle.length_le hge.length_le)

/-- A cursor has the primary of its term behind it. -/
theorem Cursor.primary_event (hr : Reachable c σ) (h : Cursor σ term F n) :
    ∃ d ∈ σ.trace, d.after.state = .primary ∧ d.after.term = term ∧ d.server ≠ F := by
  cases h with
  | table hP hterm hne hnext =>
    obtain ⟨d, hd, hds, hp, ht⟩ := hr.primary_event hP
    exact ⟨d, hd, hp, ht.trans hterm, hds ▸ hne⟩
  | flying hp hae hdst hne hterm hindex hlive =>
    obtain ⟨k, hk⟩ := hr.ae_sent hp hae
    obtain ⟨d, hd, hpd⟩ := hp
    obtain ⟨-, hsrc, -, hsender⟩ := Event.mem_packets.mp hpd
    have hstate := hk.primary
    have hbuilt := hk.built.term
    rw [hsender] at hstate hbuilt
    exact ⟨d, hd, hstate, by rw [← hbuilt, hterm], hsrc ▸ hne⟩

theorem Step.won_first (hr : Reachable c σ) (h : Step c σ e rest) (hone : OnePrimary (e :: σ.trace))
    (hx : e.before.state = .candidate) (hterm : e.after.term = e.before.term) (hy : e.after.state = .primary) :
    ∀ d ∈ σ.trace, d.after.state = .primary → d.after.term ≠ e.after.term := by
  intro d hd hp ht
  have hserver := hone d (List.mem_cons_of_mem _ hd) e List.mem_cons_self hp hy ht
  have hsince := hr.since hd
  rw [hserver, ← h.before] at hsince
  rw [hsince.primary (ht.trans hterm) hp] at hx
  cases hx

/-- The log of the primary of a term changes when it wins and by one entry at a time. -/
theorem Step.primaryLog_next (hr : Reachable c σ) (h : Step c σ e rest) (ho : Orderly (e :: σ.trace))
    (term : Int) :
    primaryLog (e :: σ.trace) term = primaryLog σ.trace term ∨
    e.after.state = .primary ∧ e.after.term = term ∧
      (e.before.state = .candidate ∧ e.after.term = e.before.term ∨
        ∃ entry, entry.term = term ∧ primaryLog (e :: σ.trace) term = primaryLog σ.trace term ++ [entry]) := by
  by_cases hp : e.after.state = .primary ∧ e.after.term = term
  · obtain ⟨hy, rfl⟩ := hp
    have hone := (ho.suffix (List.suffix_cons e σ.trace)).one
    rw [primaryLog_self hy]
    have hold : e.before.state = .primary → e.after.term = e.before.term →
        primaryLog σ.trace e.after.term = e.before.entries.log := fun hx hterm => by
      rw [hterm, h.before]
      exact hr.primaryLog_eq hone (by rw [← h.before]; exact hx)
    cases (h.outcome hr).leads hy with
    | same hx hterm hlog | acked _ _ hx _ _ _ hterm hlog | nacked _ _ hx _ _ _ hterm hlog =>
      exact .inl (by rw [hlog, hold hx hterm])
    | appended _ hx hterm hlog =>
      exact .inr ⟨hy, rfl, .inr ⟨_, hterm.symm, by rw [hlog, hold hx hterm]⟩⟩
    | won _ _ hx _ _ _ _ hterm => exact .inr ⟨hy, rfl, .inl ⟨hx, hterm⟩⟩
  · exact .inl (by rw [primaryLog, if_neg hp])

/-- What a log shares with the next log of a primary it shared with the log before. -/
theorem Shared.of_append {L l : List RpcEntry} {entry : RpcEntry} {author : Int → List RpcEntry}
    (h : Shared (L ++ [entry]) l m) (hl : Follows RpcEntry.term author l)
    (hL : author entry.term = L) : Shared L l m := by
  have hle : m ≤ L.length := by
    by_contra hgt
    have hm := h.le
    rw [List.length_append, List.length_singleton] at hm
    have hget := h.get (i := L.length) (by omega)
    rw [List.getElem?_concat_length] at hget
    have hpre := (hl L.length entry hget.symm).length_le
    rw [hL, List.length_take_of_le (by have := h.length_le; omega)] at hpre
    omega
  refine ⟨hle, ?_⟩
  have := h.take
  rwa [List.take_append_of_le_length hle] at this

/-! ## Cursors move with the primary -/

theorem Step.table_cases (hr : Reachable c σ) (h : Step c σ e rest) (hF : F ∈ c.configuration)
    (hy : e.after.state = .primary) (hne : e.server ≠ F) (hnext : e.after.nextIndex.get F = n) :
    Cursor σ e.after.term F n ∨ Moved e F n := by
  have hk := h.known_before hr
  have hold : e.before.state = .primary → e.after.term = e.before.term → e.before.nextIndex.get F = n →
      Cursor σ e.after.term F n := fun hx hterm hn => by
    rw [h.before] at hx hterm hn
    exact .table hx hterm.symm hne hn
  cases (h.outcome hr).leads hy with
  | same hx hterm _ hn | appended _ hx hterm _ hn => exact .inl (hold hx hterm (by rw [← hn, hnext]))
  | won _ _ hx _ _ _ _ hterm hlog hn =>
    have := hn F (by rwa [hk.configuration])
    exact .inr (.won hx hterm (by rw [hlog]; omega))
  | @acked p resp hi hp hx hresp hlsn hok hterm hlog _ hn =>
    have := hn F
    split at this
    · rename_i hF
      exact .inr (.acked hi hp ⟨hx, hresp, hlsn⟩ hok hF.symm hterm hlog (by omega))
    · exact .inl (hold hx hterm (by omega))
  | @nacked p resp hi hp hx hresp hlsn hok hterm hlog _ hn =>
    have := hn F
    split at this
    · rename_i hF
      exact .inr (.nacked hi hp ⟨hx, hresp, hlsn⟩ hok hF.symm hterm hlog (by omega))
    · exact .inl (hold hx hterm (by omega))

theorem Step.ae_next (hr : Reachable c σ) (h : Step c σ e rest) (hp : p ∈ e.packets) {ae : AppendEntryRpc}
    (hae : p.rpc = .appendEntry ae) (hindex : ae.prelogIndex + 1 = n) :
    e.after.state = .primary ∧ e.after.term = ae.term ∧ e.after.nextIndex.get p.dst = n := by
  obtain ⟨k, hk⟩ := h.ae_sent hr hp hae
  obtain ⟨-, -, -, hsender⟩ := Event.mem_packets.mp hp
  have hb := hk.built
  have hstate := hk.primary
  have hpre := hb.prelogIndex
  rw [hsender] at hb hstate
  exact ⟨hstate, hb.term.symm, by rw [hb.next]; omega⟩

theorem Cursor.next_cases (hr : Reachable c σ) (h : Step c σ e rest) (hF : F ∈ c.configuration)
    (hc : Cursor (σ.next e rest) term F n) :
    Cursor σ term F n ∨
      e.after.state = .primary ∧ e.after.term = term ∧ e.server ≠ F ∧ e.after.nextIndex.get F = n ∧
      Moved e F n := by
  have hself : e.after.state = .primary → e.after.term = term → e.server ≠ F → e.after.nextIndex.get F = n →
      Cursor σ term F n ∨ e.after.state = .primary ∧ e.after.term = term ∧ e.server ≠ F ∧
        e.after.nextIndex.get F = n ∧ Moved e F n := fun hy hterm hne hnext => by
    rcases h.table_cases hr hF hy hne hnext with hold | hm
    · exact .inl (hterm ▸ hold)
    · exact .inr ⟨hy, hterm, hne, hnext, hm⟩
  cases hc with
  | @table P hP hterm hne hnext =>
    by_cases hPe : P = e.server
    · subst hPe
      rw [System.raft_next_self] at hP hterm hnext
      exact hself hP hterm hne hnext
    · rw [System.raft_next_ne hPe] at hP hterm hnext
      exact .inl (.table hP hterm hne hnext)
  | @flying p ae hp hae hdst hne hterm hindex hlive =>
    rcases Sent.cons.mp hp with hp | hp
    · obtain ⟨hy, ht, hnext⟩ := h.ae_next hr hp hae hindex
      obtain ⟨-, hsrc, -⟩ := Event.mem_packets.mp hp
      exact hself hy (ht.trans hterm) (hsrc ▸ hne) (hdst ▸ hnext)
    · have hsince := h.since_next hr F
      have hle := hsince.term
      refine .inl (.flying hp hae hdst hne hterm hindex ?_)
      rcases hlive with hlt | ⟨heq, hlt⟩
      · exact .inl (by omega)
      · by_cases hsame : (σ.raft F).term = term
        · have := hsince.heard (by omega) p.src
          exact .inr ⟨hsame, by omega⟩
        · exact .inl (by omega)

/-- A follower that answers in the term of the AE has passed the checks of term and lsn. -/
theorem AeReply.follows {trace : List Event} {q : Packet} {ae : AppendEntryRpc} {x : RaftServer}
    (h : AeReply trace p resp q ae x) (hterm : ae.term = resp.term) : RaftServer.Follows x ae p.sender := by
  have hsender := h.term
  have ha := h.answers
  generalize resp.ok = ok at ha
  cases ha with
  | stale hlt ht => omega
  | rejected hrej => exact hrej.toFollows
  | accepted hacc => exact hacc.toFollows

theorem Reachable.reply_recorded (hr : Reachable c σ) (hp : Sent σ.trace p) (hresp : p.rpc = .respAppend resp)
    (hfresh : answersTerm p resp = true) : resp.term ≤ (σ.raft p.src).term ∧
      ((σ.raft p.src).term = resp.term → resp.lsn ≤ (σ.raft p.src).followerRpcLsn.get p.dst) := by
  obtain ⟨q, ae, x, h⟩ := hr.ae_reply hp hresp
  have hae : ae.term = resp.term := by simpa [answersTerm, h.call] using hfresh
  obtain ⟨n, hn⟩ := hr.ae_sent h.sent h.rpc
  have hsince := hr.since_sent hp
  have hterm := h.term
  have hrec := (h.follows hae).recorded
  rw [hn.server, h.src] at hrec
  refine ⟨by rw [hterm]; exact hsince.term, fun he => ?_⟩
  have := hsince.heard (by omega) p.dst
  have := h.lsn
  omega

/-- A primary that takes the reply to its last AE leaves no other AE to accept. -/
theorem Step.none_flying (hr : Reachable c σ) (h : Step c σ e rest) (hone : OnePrimary (e :: σ.trace))
    (hfresh : FreshReply σ.trace e) {q : Packet} {ae : AppendEntryRpc} (hq : Sent σ.trace q)
    (hae : q.rpc = .appendEntry ae) (hi : e.input = .message p) (hp : p.rpc = .respAppend resp)
    (ht : TakesReply e.before resp) (hF : resp.server = q.dst) (hterm : ae.term = e.before.term)
    (hy : e.after.state = .primary) (hsame : e.after.term = e.before.term) :
    e.before.term ≤ (σ.raft q.dst).term ∧
      ((σ.raft q.dst).term = e.before.term → ae.lsn ≤ (σ.raft q.dst).followerRpcLsn.get q.src) := by
  obtain ⟨hsent, hdst, -⟩ := h.delivered hr hi
  obtain ⟨q', ae', x, hreply⟩ := hr.ae_reply hsent hp
  have hfr := hfresh p (by rw [hi]; rfl) resp (Packet.mem_respAppend?.mpr hp) ht
  obtain ⟨hle, hrec⟩ := hr.reply_recorded hsent hp hfr
  obtain ⟨n, hn⟩ := hr.ae_sent hq hae
  -- the sender of the AE is this server
  have hstate := hn.primary
  have hbuilt := hn.built.term
  have hlsn := hn.lsn
  have hsince := hr.since_sent hq
  obtain ⟨d, hd, hqd⟩ := hq
  obtain ⟨-, hsrc, -, hsender⟩ := Event.mem_packets.mp hqd
  have hserver : q.src = e.server := by
    rw [hsrc]
    refine hone d (List.mem_cons_of_mem _ hd) e List.mem_cons_self ?_ hy ?_
    · rw [← hsender]; exact hstate
    · rw [← hsender, ← hbuilt, hterm, hsame]
  rw [hserver, ← h.before] at hsince
  have hcur := hsince.lsn (by omega) q.dst
  rw [← hreply.server, hF, ht.term] at hle hrec
  rw [hdst] at hrec
  rw [hserver]
  have := ht.lsn
  rw [hF] at this
  exact ⟨hle, fun he => by have := hrec he; omega⟩

/-- Where the primary has just gone, every cursor is. -/
theorem Moved.only (hr : Reachable c σ) (h : Step c σ e rest) (hone : OnePrimary (e :: σ.trace))
    (hfresh : FreshReply σ.trace e) (hm : Moved e F n) (hy : e.after.state = .primary) (hne : e.server ≠ F)
    (hnext : e.after.nextIndex.get F = n) (hc : Cursor (σ.next e rest) e.after.term F n') : n' = n := by
  cases hc with
  | @table P hP hterm _ hn =>
    obtain ⟨d, hd, hds, hp, ht⟩ := (h.reachable hr).primary_event hP
    have hPe : P = e.server := hds.symm.trans (hone d hd e List.mem_cons_self hp hy (ht.trans hterm))
    rw [hPe, System.raft_next_self, RaftServer.taken_nextIndex] at hn
    omega
  | @flying q ae hq hae hdst hqne hterm hindex hlive =>
    rcases Sent.cons.mp hq with hq | hq
    · have := (h.ae_next hr hq hae hindex).2.2
      rw [hdst] at this
      omega
    · exfalso
      rw [System.raft_next_ne (Ne.symm hne)] at hlive
      cases hm with
      | won hx ht =>
        obtain ⟨k, hk⟩ := hr.ae_sent hq hae
        have hstate := hk.primary
        have hbuilt := hk.built.term
        obtain ⟨d, hd, hqd⟩ := hq
        rw [(Event.mem_packets.mp hqd).2.2.2] at hstate hbuilt
        exact h.won_first hr hone hx ht hy d hd hstate (by rw [← hbuilt, hterm])
      | acked hi hp ht _ hF hsame | nacked hi hp ht _ hF hsame =>
        obtain ⟨hle, hrec⟩ :=
          h.none_flying hr hone hfresh hq hae hi hp ht (by rw [hF, hdst]) (by rw [hterm, hsame]) hy hsame
        rw [hdst] at hle hrec
        rcases hlive with hlt | ⟨heq, hlt⟩
        · omega
        · have := hrec (by omega)
          omega

/-! ## The invariant -/

/-- A reply of a follower in the term of the AE, to the last AE of the primary in the term. -/
structure Outstanding (σ : System SM) (p : Packet) (resp : RespAppendEntryRpc) : Prop where
  sent : Sent σ.trace p
  rpc : p.rpc = .respAppend resp
  fresh : answersTerm p resp = true
  takes : TakesReply (σ.raft p.dst) resp

/-- A rejection that the primary is to take next. -/
structure Refusal (σ : System SM) (p : Packet) (resp : RespAppendEntryRpc) : Prop where
  sent : Sent σ.trace p
  rpc : p.rpc = .respAppend resp
  ok : resp.ok = false
  fresh : answersTerm p resp = true
  takes : TakesReply (σ.raft p.dst) resp
  term : (σ.raft p.src).term = resp.term

/-- The primary of a term keeps pace with its followers. -/
structure Paced (c : Cluster) (σ : System SM) : Prop where
  same : ∀ term, ∀ F ∈ c.configuration, ∀ n n', Cursor σ term F n → Cursor σ term F n' → n = n'
  /-- From a follower that has yet to enter the term, the primary is no further back than its own entries. -/
  ahead : ∀ term, ∀ F ∈ c.configuration, ∀ n, Cursor σ term F n → (σ.raft F).term < term →
    ∀ i entry, n ≤ i → (primaryLog σ.trace term)[i]? = some entry → entry.term = term
  near : ∀ term, ∀ F ∈ c.configuration, ∀ n, Cursor σ term F n → (σ.raft F).term = term →
    ∀ m, Shared (primaryLog σ.trace term) (σ.raft F).entries.log m → m ≤ n + 1
  refused : ∀ p resp, Refusal σ p resp → ∀ m, Shared (primaryLog σ.trace resp.term) (σ.raft p.src).entries.log m →
    (m : Int) < (σ.raft p.dst).nextIndex.get p.src

/-- A follower that has yet to enter the term shares nothing past the cursor. -/
theorem Paced.before_term (h : Paced c σ) (hr : Reachable c σ) (hF : F ∈ c.configuration)
    (hc : Cursor σ term F n) (hlt : (σ.raft F).term < term)
    (hm : Shared (primaryLog σ.trace term) (σ.raft F).entries.log m) : m ≤ n := by
  by_contra hgt
  have hle := hm.le
  have hget := hm.get (i := n) (by omega)
  rw [List.getElem?_eq_getElem (by omega : n < _)] at hget
  have hterm := h.ahead term F hF n hc hlt n _ (Nat.le_refl _) (List.getElem?_eq_getElem (by omega))
  have := (hr.dated.1 F).le _ (List.mem_of_getElem? hget.symm)
  omega

theorem Step.same_next (hr : Reachable c σ) (h : Step c σ e rest) (hone : OnePrimary (e :: σ.trace))
    (hfresh : FreshReply σ.trace e) (ih : Paced c σ) (hF : F ∈ c.configuration)
    (hc : Cursor (σ.next e rest) term F n) (hc' : Cursor (σ.next e rest) term F n') : n = n' := by
  rcases hc.next_cases hr h hF with hold | ⟨hy, rfl, hne, hnext, hm⟩
  · rcases hc'.next_cases hr h hF with hold' | ⟨hy, rfl, hne, hnext, hm⟩
    · exact ih.same term F hF n n' hold hold'
    · exact hm.only hr h hone hfresh hy hne hnext hc
  · exact (hm.only hr h hone hfresh hy hne hnext hc').symm

theorem Cursor.not_won (hr : Reachable c σ) (h : Step c σ e rest) (hone : OnePrimary (e :: σ.trace))
    (hc : Cursor σ e.after.term F n) (hy : e.after.state = .primary) (hterm : e.after.term = e.before.term) :
    e.before.state ≠ .candidate := fun hx => by
  obtain ⟨d, hd, hp, ht, -⟩ := hc.primary_event hr
  exact h.won_first hr hone hx hterm hy d hd hp ht

theorem Step.ahead_next (hr : Reachable c σ) (h : Step c σ e rest) (ho : Orderly (e :: σ.trace))
    (hfresh : FreshReply σ.trace e) (ih : Paced c σ) (hF : F ∈ c.configuration)
    (hc : Cursor (σ.next e rest) term F n) (hlt : ((σ.next e rest).raft F).term < term) :
    ∀ i entry, n ≤ i → (primaryLog (e :: σ.trace) term)[i]? = some entry → entry.term = term := by
  intro i entry hi hget
  have hF' := (h.since_next hr F).term
  rcases hc.next_cases hr h hF with hold | ⟨hy, rfl, hne, hnext, hm⟩
  · have hold' := ih.ahead term F hF n hold (by omega) i entry hi
    rcases h.primaryLog_next hr ho term with hlog | ⟨hy, rfl, ⟨hx, ht⟩ | ⟨new, hnew, hlog⟩⟩
    · exact hold' (hlog ▸ hget)
    · exact absurd hx (hold.not_won hr h ho.one hy ht)
    · rw [hlog] at hget
      rcases Nat.lt_or_ge i (primaryLog σ.trace e.after.term).length with hin | hout
      · rw [List.getElem?_append_left hin] at hget
        exact hold' hget
      · rw [List.getElem?_append_right hout] at hget
        rw [← hnew, List.mem_singleton.mp (List.mem_of_getElem? hget)]
  · cases hm with
    | won hx ht hn =>
      rw [primaryLog_self hy] at hget
      have := (List.getElem?_eq_some_iff.mp hget).1
      omega
    | acked hi hp ht _ hF hsame | nacked hi hp ht _ hF hsame =>
      -- the follower has replied in the term
      obtain ⟨hsent, hdst, -⟩ := h.delivered hr hi
      have hfr := hfresh _ (by rw [hi]; rfl) _ (Packet.mem_respAppend?.mpr hp) ht
      have hle := (hr.reply_recorded hsent hp hfr).1
      obtain ⟨q, ae, x, hreply⟩ := hr.ae_reply hsent hp
      rw [← hreply.server, hF, ht.term] at hle
      omega

/-- An AE of a term that a server accepts was one of its cursors. -/
theorem Step.accepted_cursor (hr : Reachable c σ) (h : Step c σ e rest) {ae : AppendEntryRpc}
    (hi : e.input = .message p) (hp : p.rpc = .appendEntry ae) (ha : Accepts e.before ae e.after)
    (hn : AeSent p n ae) :
    Cursor σ ae.term e.server n := by
  obtain ⟨hsent, hdst, -⟩ := h.delivered hr hi
  have hlsn := ha.lsn
  have hle := ha.term_le
  have hne : p.src ≠ e.server := fun he => by
    -- the sender was primary in that term and would be still
    have hsince := hr.since_sent hsent
    rw [he, ← h.before] at hsince
    have hterm := hn.built.term
    have := hsince.term
    exact ha.not_primary ⟨hsince.primary (by omega) hn.primary, by omega⟩
  have hindex := hn.built.prelogIndex
  refine .flying hsent hp hdst hne rfl (by omega) ?_
  rw [← h.before, ← hn.server]
  rcases Int.lt_or_eq_of_le hle with hlt | heq
  · exact .inl hlt
  · rw [RaftServer.followerRpcLsn_same heq.symm] at hlsn
    exact .inr ⟨heq, hlsn⟩

/-- The step of a follower keeps what it shares near the cursor. -/
theorem Step.near_self (hr : Reachable c σ) (h : Step c σ e rest) (ho : Orderly (e :: σ.trace)) (ih : Paced c σ)
    (hc : Cursor σ e.after.term e.server n) (hm : Shared
    (primaryLog (e :: σ.trace) e.after.term) e.after.entries.log m) :
    m ≤ n + 1 := by
  have ho' := ho.suffix (List.suffix_cons e σ.trace)
  have hnp : e.after.state ≠ .primary := fun hy => by
    obtain ⟨d, hd, hp, ht, hne⟩ := hc.primary_event hr
    exact hne (ho.one d (List.mem_cons_of_mem _ hd) e List.mem_cons_self hp hy ht)
  rw [primaryLog, if_neg fun hp => hnp hp.1] at hm
  have hsame : e.after.entries.log = e.before.entries.log → m ≤ n + 1 := fun hlog => by
    rw [hlog, h.before] at hm
    have hle := (h.since hr).term
    rw [h.before] at hle
    rcases Int.lt_or_eq_of_le hle with hlt | heq
    · have := ih.before_term hr h.member hc hlt hm
      omega
    · exact ih.near _ _ h.member n hc heq m hm
  cases (h.outcome hr).log with
  | same hlog => exact hsame hlog
  | appended hi _ hstate => exact absurd (hstate.trans (ho.applies.1 (by rw [hi]; rfl))) hnp
  | @accepted p ae hi hp ha =>
    obtain ⟨k, hk, hcopies⟩ := h.copies hr ho' hi hp ha
    have hcur := h.accepted_cursor hr hi hp ha hk
    rw [← ha.term] at hcur
    obtain rfl := ih.same _ _ h.member k n hcur hc
    rcases hcopies.log with ⟨-, hlog⟩ | ⟨hlt, hlog⟩
    · exact hsame hlog
    · have := hm.length_le
      rw [hlog, List.length_take_of_le hlt] at this
      exact this

theorem Step.near_next (hr : Reachable c σ) (h : Step c σ e rest) (ho : Orderly (e :: σ.trace))
    (hfresh : FreshReply σ.trace e) (ih : Paced c σ) (hF : F ∈ c.configuration)
    (hc : Cursor (σ.next e rest) term F n) (hterm : ((σ.next e rest).raft F).term = term)
    (hm : Shared (primaryLog (e :: σ.trace) term) ((σ.next e rest).raft F).entries.log m) : m ≤ n + 1 := by
  have ho' := ho.suffix (List.suffix_cons e σ.trace)
  rcases hc.next_cases hr h hF with hold | ⟨hy, rfl, hne, hnext, hmv⟩
  · by_cases hFe : F = e.server
    · subst hFe
      rw [System.raft_next_self] at hterm hm
      rw [← hterm, RaftServer.taken_term] at hold hm
      exact h.near_self hr ho ih hold hm
    · rw [System.raft_next_ne hFe] at hterm hm
      refine ih.near term F hF n hold hterm m ?_
      rcases h.primaryLog_next hr ho term with hlog | ⟨hy, rfl, ⟨hx, ht⟩ | ⟨new, hnew, hlog⟩⟩
      · exact hlog ▸ hm
      · exact absurd hx (hold.not_won hr h ho.one hy ht)
      · rw [hlog] at hm
        exact hm.of_append (hr.lines ho' F) (by rw [hnew])
  · rw [System.raft_next_ne (Ne.symm hne)] at hterm hm
    have hlog : ∀ hx : e.before.state = .primary, e.after.term = e.before.term →
        e.after.entries.log = e.before.entries.log →
        primaryLog (e :: σ.trace) e.after.term = primaryLog σ.trace e.after.term := fun hx ht hl => by
      rw [primaryLog_self hy, hl, ht, h.before]
      exact (hr.primaryLog_eq ho'.one (by rw [← h.before]; exact hx)).symm
    cases hmv with
    | won hx ht hn =>
      have := hm.le
      rw [primaryLog_self hy] at this
      omega
    | @acked p resp hi hp ht _ hF' hsame hl hn =>
      rw [hlog ht.state hsame hl] at hm
      obtain ⟨k, hk⟩ : ∃ k : Nat, e.before.nextIndex.get F = k :=
        ⟨(e.before.nextIndex.get F).toNat, by have := ((h.ranges_before hr).next ht.state F hF).1; omega⟩
      have hcur : Cursor σ e.after.term F k := by
        have hx := ht.state
        rw [h.before] at hx hk hsame
        exact .table hx hsame.symm hne hk
      have := ih.near _ F hF k hcur hterm m hm
      unfold RaftServer.ackedIndex at hn
      split at hn <;> omega
    | @nacked p resp hi hp ht hok hF' hsame hl hn =>
      rw [hlog ht.state hsame hl] at hm
      obtain ⟨hsent, hdst, -⟩ := h.delivered hr hi
      have hfr := hfresh p (by rw [hi]; rfl) resp (Packet.mem_respAppend?.mpr hp) ht
      obtain ⟨q, ae, x, hreply⟩ := hr.ae_reply hsent hp
      have hsrc : p.src = F := hreply.server.symm.trans hF'
      have hrt := ht.term
      have := ih.refused p resp ⟨hsent, hp, hok, hfr, by rw [hdst, ← h.before]; exact ht, by rw [hsrc]; omega⟩ m
        (by rw [hsrc, hrt, ← hsame]; exact hm)
      rw [hdst, ← h.before, hsrc] at this
      omega

/-- The AE that a reply answers, and where the table of the primary is. -/
theorem Outstanding.answered (h : Outstanding σ p resp) (hr : Reachable c σ) :
    ∃ q ae n x, AeReply σ.trace p resp q ae x ∧ ae.term = resp.term ∧ AeSent q n ae ∧ p.sender.state = .follower ∧
      p.sender.term = resp.term ∧ (σ.raft p.dst).nextIndex.get p.src = n := by
  obtain ⟨q, ae, x, hreply, hae, hlast⟩ := hr.answersLast h.sent h.rpc h.takes.term h.takes.lsn h.fresh
  obtain ⟨n, hn⟩ := hr.ae_sent hreply.sent hreply.rpc
  have hnext := hlast.next h.takes.state
  rw [hn.built.prelogIndex] at hnext
  exact ⟨q, ae, n, x, hreply, hae, hn, (hreply.follows hae).state, hreply.term.symm, by omega⟩

theorem Outstanding.ne (h : Outstanding σ p resp) (hr : Reachable c σ) : p.src ≠ p.dst := fun he => by
  obtain ⟨q, ae, n, x, -, -, -, hstate, hterm, -⟩ := h.answered hr
  have hprimary := h.takes.state
  rw [← he, (hr.since_sent h.sent).follower (by rw [hterm, he, h.takes.term]) hstate] at hprimary
  cases hprimary

omit [StateMachine SM] in
theorem Refusal.outstanding (h : Refusal σ p resp) : Outstanding σ p resp := ⟨h.sent, h.rpc, h.fresh, h.takes⟩

/-- A new rejection is of a log that differs before the cursor. -/
theorem Refusal.sent_now (hr : Reachable c σ) (h : Step c σ e rest) (ho : Orderly (e :: σ.trace))
    (href : Refusal (σ.next e rest) p resp) (hp : p ∈ e.packets)
    (hm : Shared (primaryLog (e :: σ.trace) resp.term) e.after.entries.log m) :
    (m : Int) < ((σ.next e rest).raft p.dst).nextIndex.get p.src := by
  have hr' := h.reachable hr
  obtain ⟨-, hsrc, -, hsender⟩ := Event.mem_packets.mp hp
  obtain ⟨q, ae, n, x, hreply, hae, hn, hstate, hterm, hnext⟩ := href.outstanding.answered hr'
  obtain ⟨q', ae', hreply', -⟩ := h.ae_reply hr hp href.rpc
  have hsame : ae' = ae := by
    have := hreply'.call.symm.trans hreply.call
    simpa using this
  subst hsame
  have hrej := hreply'.rejects hae href.ok
  rw [hnext]
  by_contra hge
  -- then the entry that the AE names is there
  have hlog : primaryLog (e :: σ.trace) resp.term = ((σ.next e rest).raft p.dst).entries.log := by
    rw [href.takes.term]
    exact hr'.primaryLog_eq ho.one href.takes.state
  have hsince := hr'.since_sent hreply.sent
  rw [hreply.src] at hsince
  have hpre := hsince.log (by rw [← hn.built.term, hae, href.takes.term]) hn.primary
  have hindex := hn.built.prelogIndex
  refine hrej.prelog ?_
  cases n with
  | zero => exact .inl (by omega)
  | succ i =>
    have hi : i < q.sender.entries.log.length := hn.built.le
    have hget := hm.get (i := i) (by omega)
    obtain ⟨tail, htail⟩ := hpre
    rw [hlog, ← htail, List.getElem?_append_left hi, List.getElem?_eq_getElem hi] at hget
    have hpterm := hn.built.prelogTerm
    rw [if_neg (Nat.succ_ne_zero i), Nat.add_sub_cancel, List.getElem?_eq_getElem hi, Option.map_some,
      Option.getD_some] at hpterm
    have hentries := hrej.entries
    rw [hsender] at hentries
    exact .inr ⟨i, _, by omega, by rw [← hentries]; exact hget.symm, hpterm.symm⟩

/-- A reply that is still to be taken was so before, and the table has not moved. -/
theorem Outstanding.sent_before (hr : Reachable c σ) (h : Step c σ e rest)
    (hnow : Outstanding (σ.next e rest) p resp) (hp : Sent σ.trace p) : Outstanding σ p resp ∧
      ((σ.next e rest).raft p.dst).nextIndex.get p.src = (σ.raft p.dst).nextIndex.get p.src := by
  obtain ⟨q, ae, x, hreply⟩ := hr.ae_reply hp hnow.rpc
  have hae : ae.term = resp.term := by simpa [answersTerm, hreply.call] using hnow.fresh
  obtain ⟨n, hn⟩ := hr.ae_sent hreply.sent hreply.rpc
  -- the primary was primary when it sent the AE and has called nobody at that address since
  have hold := hr.since_sent hreply.sent
  rw [hreply.src] at hold
  have hnew := h.since_next hr p.dst
  have hbuilt := hn.built.term
  have ht := hnow.takes.term
  have h1 := hold.term
  have h2 := hnew.term
  have hstate := hold.primary (by omega) hn.primary
  have hl1 := hold.lsn (by omega) p.src
  have hl2 := hnew.lsn (by omega) p.src
  have hl := hnow.takes.lsn
  have hlsn := hn.lsn
  rw [hreply.dst] at hlsn
  rw [hreply.server] at hl
  have hrl := hreply.lsn
  refine ⟨⟨hp, hnow.rpc, hnow.fresh, ⟨hstate, by omega, by rw [hreply.server]; omega⟩⟩, ?_⟩
  by_cases hP : p.dst = e.server
  · have hy := hnow.takes.state
    rw [hP, System.raft_next_self] at hy hl hl2 ⊢
    rw [hP, ← h.before] at hl1 hstate
    rw [← h.before] at hl2 ⊢
    rw [RaftServer.taken_currentRpcLsn] at hl hl2
    rw [RaftServer.taken_nextIndex]
    cases (h.outcome hr).leads hy with
    | same _ _ _ hnext | appended _ _ _ _ hnext => rw [hnext]
    | won _ _ hx => rw [hstate] at hx; cases hx
    | @acked _ resp' _ _ _ _ _ _ _ _ _ hnext hsent =>
      by_cases hs : p.src = resp'.server
      · rcases hsent with hsent | hsent
        · rw [hs]
          exact hsent
        · rw [← hs] at hsent
          omega
      · rw [hnext, if_neg hs]
    | @nacked _ resp' _ _ _ _ _ _ _ _ _ hnext hsent =>
      by_cases hs : p.src = resp'.server
      · rw [← hs] at hsent
        omega
      · rw [hnext, if_neg hs]
  · rw [System.raft_next_ne hP]

/-- A follower that has answered the last AE changes its log no more in the term. -/
theorem Outstanding.log_kept (hr : Reachable c σ) (h : Step c σ e rest) (ho : Orderly (e :: σ.trace))
    (hnow : Outstanding (σ.next e rest) p resp) (hold : Outstanding σ p resp)
    (hterm : ((σ.next e rest).raft p.src).term = resp.term) (hterm' : (σ.raft p.src).term = resp.term) :
    ((σ.next e rest).raft p.src).entries.log = (σ.raft p.src).entries.log := by
  by_cases hF : p.src = e.server
  · rw [hF, System.raft_next_self, RaftServer.taken_term] at hterm
    rw [hF, System.raft_next_self, RaftServer.taken_entries]
    have hheld := hterm'
    rw [hF] at hterm'
    obtain ⟨d, hd, hds, hdp, hdt⟩ := (h.reachable hr).primary_event hnow.takes.state
    have hdt := hdt.trans hnow.takes.term.symm
    rw [← h.before] at hterm' ⊢
    cases (h.outcome hr).log with
    | same hlog => exact hlog
    | appended hi _ hstate =>
      -- then it would be the primary
      have hy := hstate.trans (ho.applies.1 (by rw [hi]; rfl))
      have := ho.one d hd e List.mem_cons_self hdp hy (hdt.trans hterm.symm)
      exact absurd (hF.trans (this.symm.trans hds)) (hnow.ne (h.reachable hr))
    | @accepted q ae hi hq ha =>
      -- then the AE is the last one, which it has recorded
      obtain ⟨hsent, hdst, -⟩ := h.delivered hr hi
      obtain ⟨n, hn⟩ := hr.ae_sent hsent hq
      have hsrc : q.src = p.dst := by
        have hstate := hn.primary
        have hbuilt := hn.built.term
        obtain ⟨f, hf, hqf⟩ := hsent
        obtain ⟨-, hfs, -, hsender⟩ := Event.mem_packets.mp hqf
        rw [hsender] at hstate hbuilt
        have := ho.one f (List.mem_cons_of_mem _ hf) d hd hstate hdp (by rw [← hbuilt, ← ha.term, hterm, hdt])
        rw [hfs, this, hds]
      have hsince := hr.since_sent hsent
      rw [hsrc] at hsince
      have hle := hsince.lsn (by rw [← hn.built.term, ← ha.term, hterm, hold.takes.term]) q.dst
      have hrec := (hr.reply_recorded hold.sent hold.rpc hold.fresh).2 hheld
      have hlsn := ha.lsn
      have hcur := hold.takes.lsn
      obtain ⟨_, _, _, hreply⟩ := hr.ae_reply hold.sent hold.rpc
      rw [hreply.server, hF] at hcur
      rw [hF, ← h.before] at hrec
      rw [RaftServer.followerRpcLsn_same (by rw [← ha.term, hterm, hterm']), hn.server, hsrc] at hlsn
      have := hn.lsn
      rw [hdst] at this hle
      omega
  · rw [System.raft_next_ne hF]

/-- A rejection that is still to be taken was so before, and the table has not moved. -/
theorem Refusal.sent_before (hr : Reachable c σ) (h : Step c σ e rest) (href : Refusal (σ.next e rest) p resp)
    (hp : Sent σ.trace p) : Refusal σ p resp ∧
      ((σ.next e rest).raft p.dst).nextIndex.get p.src = (σ.raft p.dst).nextIndex.get p.src := by
  obtain ⟨hold, hnext⟩ := href.outstanding.sent_before hr h hp
  obtain ⟨q, ae, n, x, -, -, -, -, hsender, -⟩ := hold.answered hr
  have hterm : (σ.raft p.src).term = resp.term := by
    have h1 := (hr.since_sent hp).term
    have h2 := (h.since_next hr p.src).term
    have h3 := href.term
    omega
  exact ⟨⟨hp, href.rpc, href.ok, href.fresh, hold.takes, hterm⟩, hnext⟩

theorem Step.refused_next (hr : Reachable c σ) (h : Step c σ e rest) (ho : Orderly (e :: σ.trace)) (ih : Paced c σ)
    (href : Refusal (σ.next e rest) p resp)
    (hm : Shared (primaryLog (e :: σ.trace) resp.term) ((σ.next e rest).raft p.src).entries.log m) :
    (m : Int) < ((σ.next e rest).raft p.dst).nextIndex.get p.src := by
  have ho' := ho.suffix (List.suffix_cons e σ.trace)
  rcases Sent.cons.mp href.sent with hp | hp
  · rw [(Event.mem_packets.mp hp).2.1, System.raft_next_self] at hm
    exact href.sent_now hr h ho hp hm
  · obtain ⟨hold, hnext⟩ := href.sent_before hr h hp
    rw [href.outstanding.log_kept hr h ho hold.outstanding href.term hold.term] at hm
    rw [hnext]
    refine ih.refused p resp hold m ?_
    rcases h.primaryLog_next hr ho resp.term with hlog | ⟨hy, hterm, ⟨hx, ht⟩ | ⟨new, hnew, hlog⟩⟩
    · exact hlog ▸ hm
    · obtain ⟨d, hd, -, hdp, hdt⟩ := hr.primary_event hold.takes.state
      exact absurd (hdt.trans (hold.takes.term.symm.trans hterm.symm)) (h.won_first hr ho.one hx ht hy d hd hdp)
    · rw [hlog] at hm
      exact hm.of_append (hr.lines ho' p.src) (by rw [hnew])

/-- **A primary keeps pace with its followers**, in the runs where it takes fresh replies only. -/
theorem Reachable.paced (hr : Reachable c σ) (ho : Orderly σ.trace) (hfresh : Along FreshReply σ.trace) :
    Paced c σ := by
  refine hr.invariantAlong (P := FreshReply) (I := fun σ => Orderly σ.trace → Paced c σ) hfresh (fun _ => ?_) ?_ ho
  · have hno : ∀ term F n, ¬ Cursor (System.start c : System SM) term F n := fun term F n hc => by
      cases hc with
      | table hP => cases hP
      | flying hp =>
        obtain ⟨d, hd, -⟩ := hp
        cases hd
    refine ⟨fun term F _ n n' hc => absurd hc (hno _ _ _), fun term F _ n hc => absurd hc (hno _ _ _),
      fun term F _ n hc => absurd hc (hno _ _ _), fun p resp href => ?_⟩
    obtain ⟨d, hd, -⟩ := href.sent
    cases hd
  · intro σ e rest hr _ h hf ih ho
    have ih := ih (ho.suffix (List.suffix_cons e σ.trace))
    exact {
      same := fun term F hF n n' hc hc' => h.same_next hr ho.one hf ih hF hc hc'
      ahead := fun term F hF n hc hlt => h.ahead_next hr ho hf ih hF hc hlt
      near := fun term F hF n hc hterm m hm => h.near_next hr ho hf ih hF hc hterm hm
      refused := fun p resp href m hm => h.refused_next hr ho ih href hm }

end Runs

end MyRaft
