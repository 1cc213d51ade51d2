/-
Replies to AEs. The lsn of a reply that a primary takes is the lsn of its last
call to that follower in its term. When the follower answered in the term of
the AE, the reply answers that last AE; a follower that has moved on answers an
older AE with its new term, and such a reply can meet a counter that has
started again at 0.
-/
import MyRaft.Messages

namespace MyRaft

open History
open Except (bind_ne_error)
open StdLib (StdMap)
open RaftServer (Leads Answers)

/-! ## The last AE -/

/-- The AE of a packet, if it is one from `P` to `F` in a term. -/
def Packet.ae? (P F : Addr) (term : Int) (p : Packet) : Option AppendEntryRpc :=
  match p.rpc with
  | .appendEntry ae => if p.src = P ∧ p.dst = F ∧ ae.term = term then some ae else none
  | _ => none

/-- The AE that `P` sent to `F` last in a term. -/
def lastAe (P F : Addr) (term : Int) : List Event → Option AppendEntryRpc
  | [] => none
  | e :: past => ((e.packets.filterMap (Packet.ae? P F term)).getLast?).or (lastAe P F term past)

theorem Packet.ae?_eq_some {P F : Addr} {term : Int} {p : Packet} {ae : AppendEntryRpc} :
    p.ae? P F term = some ae ↔ p.rpc = .appendEntry ae ∧ p.src = P ∧ p.dst = F ∧ ae.term = term := by
  unfold Packet.ae?
  split
  · rename_i a ha
    rw [ha]
    simp only [Option.ite_none_right_eq_some, Option.some.injEq, Rpc.appendEntry.injEq]
    constructor
    · rintro ⟨h, rfl⟩; exact ⟨rfl, h⟩
    · rintro ⟨rfl, h⟩; exact ⟨h, rfl⟩
  · rename_i hne
    simp only [reduceCtorEq, false_iff, not_and]
    exact fun h => absurd h (hne ae)

theorem lastAe_term {P F : Addr} {term : Int} {ae : AppendEntryRpc} :
    ∀ {trace : List Event}, lastAe P F term trace = some ae → ae.term = term
  | [], h => by cases h
  | e :: past, h => by
    rw [lastAe, Option.or_eq_some_iff] at h
    rcases h with h | ⟨-, h⟩
    · obtain ⟨p, -, hp⟩ := List.mem_filterMap.mp (List.mem_of_getLast? h)
      exact (Packet.ae?_eq_some.mp hp).2.2.2
    · exact lastAe_term h

/-- A list whose elements are all the same ends with it. -/
theorem getLast?_of_forall {α : Type} {a : α} : ∀ {l : List α}, a ∈ l → (∀ b ∈ l, b = a) → l.getLast? = some a
  | [], h, _ => by cases h
  | b :: l, _, hall => by
    rw [List.getLast?_eq_some_getLast (by simp)]
    exact congrArg some (hall _ (List.getLast_mem _))

section Runs

variable {SM : Type} [StateMachine SM] {c : Cluster} {σ : System SM} {e : Event} {rest : List Packet}
  {p q : Packet}

/-- What is known of an AE that `P` sent to `F` in its present term, if nothing was sent since. -/
structure IsLast (σ : System SM) (P F : Addr) (ae : AppendEntryRpc) : Prop where
  last : lastAe P F (σ.raft P).term σ.trace = some ae
  next : (σ.raft P).state = .primary → (σ.raft P).nextIndex.get F = ae.prelogIndex + 1

theorem lastAe_of_mem (hr : Reachable c σ) (h : Step c σ e rest) (hp : p ∈ e.packets) {ae : AppendEntryRpc}
    (hae : p.rpc = .appendEntry ae) : lastAe e.server p.dst ae.term (e :: σ.trace) = some ae := by
  obtain ⟨-, hsrc, -, hsender⟩ := Event.mem_packets.mp hp
  obtain ⟨n, hn⟩ := h.ae_sent hr hp hae
  have hmem : ae ∈ e.packets.filterMap (Packet.ae? e.server p.dst ae.term) :=
    List.mem_filterMap.mpr ⟨p, hp, Packet.ae?_eq_some.mpr ⟨hae, hsrc, rfl, rfl⟩⟩
  have hall : ∀ b ∈ e.packets.filterMap (Packet.ae? e.server p.dst ae.term), b = ae := by
    intro b hb
    obtain ⟨q, hq, hqb⟩ := List.mem_filterMap.mp hb
    obtain ⟨hbrpc, -, hdst, -⟩ := Packet.ae?_eq_some.mp hqb
    obtain ⟨m, hm⟩ := h.ae_sent hr hq hbrpc
    have hsame : q.sender = p.sender := by rw [(Event.mem_packets.mp hq).2.2.2, hsender]
    have hb' := hm.built
    have hlsn := hm.lsn
    rw [hsame, hdst] at hb' hlsn
    exact hb'.unique hn.built (by have := hn.lsn; omega)
  unfold lastAe
  rw [getLast?_of_forall hmem hall]
  rfl

theorem lastAe_of_not_mem {P F : Addr} {term : Int} {past : List Event}
    (h : ∀ p ∈ e.packets, ∀ ae, p.rpc = .appendEntry ae → ¬ (p.src = P ∧ p.dst = F)) :
    lastAe P F term (e :: past) = lastAe P F term past := by
  have hnil : e.packets.filterMap (Packet.ae? P F term) = [] := by
    rw [List.filterMap_eq_nil_iff]
    intro p hp
    rw [Option.eq_none_iff_forall_ne_some]
    intro ae hae
    obtain ⟨hrpc, hsrc, hdst, -⟩ := Packet.ae?_eq_some.mp hae
    exact h p hp ae hrpc ⟨hsrc, hdst⟩
  rw [lastAe, hnil]
  rfl

/-- An AE that is sent now. -/
theorem Step.isLast_sent (hr : Reachable c σ) (h : Step c σ e rest) (hq : q ∈ e.packets) {ae : AppendEntryRpc}
    (hae : q.rpc = .appendEntry ae) : IsLast (σ.next e rest) e.server q.dst ae := by
  obtain ⟨-, -, -, hsender⟩ := Event.mem_packets.mp hq
  obtain ⟨n, hn⟩ := h.ae_sent hr hq hae
  have hbuilt := hn.built
  rw [hsender] at hbuilt
  refine ⟨?_, fun _ => ?_⟩
  · rw [System.raft_next_self, RaftServer.taken_term, ← hbuilt.term]
    exact lastAe_of_mem hr h hq hae
  · rw [System.raft_next_self, RaftServer.taken_nextIndex]
    have hnext := hbuilt.next
    have hpre := hbuilt.prelogIndex
    omega

/-- An AE sent earlier in the term, when the lsn of its follower has not moved since. -/
theorem Step.isLast_keep (hr : Reachable c σ) (h : Step c σ e rest) (hq : Sent σ.trace q) {ae : AppendEntryRpc}
    (hae : q.rpc = .appendEntry ae) (hsrc : q.src = e.server) (hold : IsLast σ q.src q.dst ae)
    (hterm : ae.term = e.before.term) (hsame : e.before.term = e.after.term)
    (hbefore : e.before.currentRpcLsn.get q.dst = ae.lsn + 1)
    (hafter : e.after.currentRpcLsn.get q.dst = ae.lsn + 1) :
    IsLast (σ.next e rest) q.src q.dst ae := by
  obtain ⟨n, hn⟩ := hr.ae_sent hq hae
  have hat : ae.term = q.sender.term := hn.built.term
  have hsince := hr.since_sent hq
  obtain ⟨hlast, hnext⟩ := hold
  rw [hsrc, ← h.before] at hsince hlast hnext
  have hquiet : ∀ p ∈ e.packets, ∀ ae', p.rpc = .appendEntry ae' → ¬ (p.src = q.src ∧ p.dst = q.dst) := by
    rintro p hp ae' hae' ⟨-, hdst⟩
    have hs := h.sends hr hp
    rw [hae', hdst] at hs
    cases hs with
    | appendEntry hb hl hc =>
      have := hl hsame.symm
      omega
  refine ⟨?_, fun hy => ?_⟩
  · rw [System.trace_next, lastAe_of_not_mem hquiet, hsrc, System.raft_next_self, RaftServer.taken_term, ← hsame]
    exact hlast
  · rw [hsrc, System.raft_next_self] at hy ⊢
    rw [RaftServer.taken_nextIndex]
    have hprimary : e.before.state = .primary := hsince.primary (by omega) hn.primary
    have hnext := hnext hprimary
    cases (h.outcome hr).leads hy with
    | same _ _ _ hn => rw [hn]; exact hnext
    | appended _ _ _ _ hn => rw [hn]; exact hnext
    | won _ _ hc => rw [hprimary] at hc; cases hc
    | @acked p resp _ _ _ _ _ _ _ _ _ hn hsent =>
      by_cases hd : q.dst = resp.server
      · rw [hd] at hnext hbefore hafter ⊢
        rcases hsent with hs | hs
        · omega
        · omega
      · rw [hn, if_neg hd]
        exact hnext
    | @nacked p resp _ _ _ _ _ _ _ _ _ hn hsent =>
      by_cases hd : q.dst = resp.server
      · rw [hd] at hbefore hafter
        omega
      · rw [hn, if_neg hd]
        exact hnext

/-- An event of another server. -/
theorem IsLast.other {ae : AppendEntryRpc} (hold : IsLast σ q.src q.dst ae) (hsrc : q.src ≠ e.server) :
    IsLast (σ.next e rest) q.src q.dst ae := by
  have hother : ∀ p ∈ e.packets, ∀ ae, p.rpc = .appendEntry ae → ¬ (p.src = q.src ∧ p.dst = q.dst) := by
    rintro p hp ae - ⟨hs, -⟩
    exact hsrc (hs.symm.trans (Event.mem_packets.mp hp).2.1)
  obtain ⟨hlast, hnext⟩ := hold
  refine ⟨?_, ?_⟩
  · rw [System.trace_next, System.raft_next_ne hsrc, lastAe_of_not_mem hother]
    exact hlast
  · rw [System.raft_next_ne hsrc]
    exact hnext

/-- **An AE with the lsn before the next one is the last that was sent.** -/
theorem Reachable.isLast (hr : Reachable c σ) : ∀ q, Sent σ.trace q → ∀ ae, q.rpc = .appendEntry ae →
    ae.term = (σ.raft q.src).term → (σ.raft q.src).currentRpcLsn.get q.dst = ae.lsn + 1 →
    IsLast σ q.src q.dst ae := by
  refine hr.invariant (I := fun σ => ∀ q, Sent σ.trace q → ∀ ae, q.rpc = .appendEntry ae →
    ae.term = (σ.raft q.src).term → (σ.raft q.src).currentRpcLsn.get q.dst = ae.lsn + 1 →
    IsLast σ q.src q.dst ae) ?_ ?_
  · intro q hq
    obtain ⟨e, he, -⟩ := hq
    cases he
  intro σ e rest hr h ih q hq ae hae hterm hlsn
  rcases Sent.cons.mp hq with hq | hq
  · rw [(Event.mem_packets.mp hq).2.1]
    exact h.isLast_sent hr hq hae
  by_cases hsrc : q.src = e.server
  · -- it sent nothing to that follower now, for the lsn would have moved past the one of the AE
    obtain ⟨n, hn⟩ := hr.ae_sent hq hae
    have hsince := hr.since_sent hq
    have hmove := h.since hr
    rw [hsrc, System.raft_next_self] at hterm hlsn
    rw [RaftServer.taken_term] at hterm
    rw [RaftServer.taken_currentRpcLsn] at hlsn
    rw [hsrc, ← h.before] at hsince
    have hat : ae.term = q.sender.term := hn.built.term
    have hx : e.before.term = e.after.term := by
      have := hsince.term
      have := hmove.term
      omega
    have hcur : e.before.currentRpcLsn.get q.dst = ae.lsn + 1 := by
      have h1 := hsince.lsn (by omega) q.dst
      have h2 := hmove.lsn hx q.dst
      have h3 := hn.lsn
      omega
    refine h.isLast_keep hr hq hae hsrc (ih q hq ae hae ?_ ?_) (hterm.trans hx.symm) hx hcur hlsn
    · rw [hsrc, ← h.before, hterm, hx]
    · rw [hsrc, ← h.before, hcur]
  · rw [System.raft_next_ne hsrc] at hterm hlsn
    exact (ih q hq ae hae hterm hlsn).other hsrc

/-! ## Replies a primary takes -/

/-- The primary checks the term and the lsn of a reply. -/
structure TakesReply (x : RaftServer) (resp : RespAppendEntryRpc) : Prop where
  state : x.state = .primary
  term : resp.term = x.term
  lsn : x.currentRpcLsn.get resp.server = resp.lsn + 1

instance (x : RaftServer) (resp : RespAppendEntryRpc) : Decidable (TakesReply x resp) :=
  decidable_of_iff (x.state = .primary ∧ resp.term = x.term ∧ x.currentRpcLsn.get resp.server = resp.lsn + 1)
    ⟨fun h => ⟨h.1, h.2.1, h.2.2⟩, fun h => ⟨h.state, h.term, h.lsn⟩⟩

/-- The reply was sent by that follower to the last AE of its receiver's present term. -/
def AnswersLastAe (σ : System SM) (p : Packet) (resp : RespAppendEntryRpc) : Prop :=
  p.src = resp.server ∧ ∃ ae, p.call = some (.appendEntry ae) ∧
    lastAe p.dst p.src (σ.raft p.dst).term σ.trace = some ae

/-- Whether a reply answers an AE of its own term: the follower had not moved on. -/
def answersTerm (p : Packet) (resp : RespAppendEntryRpc) : Bool :=
  match p.call with
  | some (.appendEntry ae) => ae.term = resp.term
  | _ => false

omit [StateMachine SM] in
theorem AnswersLastAe.answersTerm {resp : RespAppendEntryRpc} (h : AnswersLastAe σ p resp)
    (hterm : resp.term = (σ.raft p.dst).term) : answersTerm p resp = true := by
  obtain ⟨-, ae, hcall, hlast⟩ := h
  simp [MyRaft.answersTerm, hcall, lastAe_term hlast, hterm]

theorem Reachable.answersLast (hr : Reachable c σ) (hp : Sent σ.trace p) {resp : RespAppendEntryRpc}
    (hresp : p.rpc = .respAppend resp) (hterm : resp.term = (σ.raft p.dst).term)
    (hlsn : (σ.raft p.dst).currentRpcLsn.get resp.server = resp.lsn + 1) (hfresh : answersTerm p resp = true) :
    ∃ q ae x, AeReply σ.trace p resp q ae x ∧ ae.term = resp.term ∧ IsLast σ p.dst p.src ae := by
  obtain ⟨q, ae, x, h⟩ := hr.ae_reply hp hresp
  have hae : ae.term = resp.term := by simpa [answersTerm, h.call] using hfresh
  have hlast := hr.isLast q h.sent ae h.rpc (by rw [h.src, hae, hterm])
    (by rw [h.src, h.dst, ← h.server, hlsn, h.lsn])
  rw [h.src, h.dst] at hlast
  exact ⟨q, ae, x, h, hae, hlast⟩

/-- A rejection by a follower in the term of the AE is one of its log. -/
theorem AeReply.rejects {resp : RespAppendEntryRpc} {ae : AppendEntryRpc} {x : RaftServer} {trace : List Event}
    (h : AeReply trace p resp q ae x) (hterm : ae.term = resp.term) (hok : resp.ok = false) :
    RaftServer.Rejects x ae p.sender := by
  have ha := h.answers
  rw [hok] at ha
  cases ha with
  | stale hlt ht => have := h.term; omega
  | rejected hr => exact hr

end Runs

/-! ## Exceptions -/

/-- The exceptions of reading the log and of sending an AE. -/
def Exn.ofSend : Exn → Bool
  | .entriesGet _ _ | .negativeIndex | .aeWaiting | .nullTimer | .tempSortEnd => true
  | _ => false

namespace RaftServer

variable {s : RaftServer} {exn : Exn}

theorem get_ne_error {es : Entries} {i : Int} (h : exn.ofSend = false) : es.get i ≠ .error exn := by
  unfold Entries.get
  split
  · rintro ⟨⟩
    cases h
  · split
    · nofun
    · rintro ⟨⟩
      cases h

theorem timer_ne_error {x : Addr} (h : exn.ofSend = false) : s.timerTo x ≠ .error exn :=
  timerTo_ne_error fun he => by
    rw [he] at h
    cases h

theorem AE_ne_error {x : Addr} (h : exn.ofSend = false) : s.AE x ≠ .error exn := by
  refine bind_ne_error (bind_ne_error ?_ fun _ _ => bind_ne_error ?_ fun _ _ => ?_) fun _ _ => ?_
  · split
    · exact bind_ne_error (get_ne_error h) fun _ _ => nofun
    · nofun
  · split
    · nofun
    · exact bind_ne_error (get_ne_error h) fun _ _ => nofun
  · nofun
  · refine bind_ne_error (timer_ne_error h) fun _ _ => ?_
    dsimp only
    split
    · rintro ⟨⟩
      cases h
    · nofun

theorem applyLoop_ne_error (h : exn.ofSend = false) :
    ∀ (rounds : Nat) {s : RaftServer}, s.applyLoop rounds ≠ .error exn
  | 0, _ => nofun
  | rounds + 1, _ =>
    bind_ne_error (bind_ne_error (get_ne_error h) fun _ _ => nofun) fun _ _ => applyLoop_ne_error h rounds

theorem primaryUpdateCommitIndex_ne_error {x : Addr} {index : Int} (h : exn.ofSend = false) :
    s.primaryUpdateCommitIndex x index ≠ .error exn := by
  unfold primaryUpdateCommitIndex
  dsimp only
  split
  · rintro ⟨⟩
    cases h
  · exact applyLoop_ne_error h _

/-- Where a reply in the primary's term ends in one of the other exceptions. -/
theorem primaryDealRespAe_error {x : Addr} {resp : RespAppendEntryRpc} (he : exn.ofSend = false)
    (h : s.primaryDealRespAeWithSameTerm x resp = .error exn) :
    exn = .lastSendIndex ∨ exn = .nextIndexZero ∧ resp.ok = false ∧ s.nextIndex.get x = 0 := by
  unfold primaryDealRespAeWithSameTerm at h
  split at h
  · cases h
  dsimp only at h
  split at h
  · split at h
    · cases h
      exact .inl rfl
    split at h
    · exact absurd h (primaryUpdateCommitIndex_ne_error he)
    refine absurd h (bind_ne_error ?_ fun _ _ => bind_ne_error (timer_ne_error he) fun _ _ => AE_ne_error he)
    split
    · exact primaryUpdateCommitIndex_ne_error he
    · exact primaryUpdateCommitIndex_ne_error he
  · rename_i hok
    split at h
    · rename_i hz
      cases h
      exact .inr ⟨rfl, by simpa using hok, hz⟩
    · exact absurd h (bind_ne_error (timer_ne_error he) fun _ _ => AE_ne_error he)

/-- And a reply of any term. -/
theorem react2respAe_error {resp : RespAppendEntryRpc} (he : exn.ofSend = false)
    (h : s.react2respAe resp = .error exn) :
    exn = .respAeNotPrimary ∧ s.state ≠ .primary ∨
    exn = .lastSendIndex ∨ exn = .nextIndexZero ∧ resp.ok = false ∧ s.nextIndex.get resp.server = 0 := by
  unfold react2respAe at h
  split at h
  · rename_i hlt
    rw [trans2F_eq_ok _ (by omega)] at h
    cases h
  split at h
  · cases h
  split at h
  · exact .inr (primaryDealRespAe_error he h)
  · rename_i hst
    cases h
    exact .inl ⟨rfl, hst⟩

theorem handle_respAppend {p : Packet} {resp : RespAppendEntryRpc} (hresp : p.rpc = .respAppend resp) :
    s.handle (.message p) = s.react2respAe resp := by
  simp [handle, reactToIncomingMsg, hresp]

end RaftServer

/-! ## Correlation -/

section Claims

variable {SM : Type} [StateMachine SM] {c : Cluster} {σ : System SM} {p : Packet} {resp : RespAppendEntryRpc}

/-- Each reply a primary takes answers the last AE it sent to that follower in
its term, and does not run into the exception for `nextIndex_` 0. -/
def Correlated (σ : System SM) (p : Packet) (resp : RespAppendEntryRpc) : Prop :=
  AnswersLastAe σ p resp ∧ (σ.raft p.dst).handle (.message p) ≠ .error .nextIndexZero

/-- **A reply that a primary takes is correlated exactly when the follower
answered in the term of the AE.** -/
theorem correlated_iff (hr : Reachable c σ) (hp : p ∈ σ.inflight) (hresp : p.rpc = .respAppend resp)
    (ht : TakesReply (σ.raft p.dst) resp) : Correlated σ p resp ↔ answersTerm p resp = true := by
  have hsent := hr.wired.sent p hp
  constructor
  · exact fun h => h.1.answersTerm ht.term
  · intro hfresh
    obtain ⟨q, ae, x, h, hae, hlast⟩ := hr.answersLast hsent hresp ht.term ht.lsn hfresh
    refine ⟨⟨h.server.symm, ae, h.call, hlast.last⟩, fun herr => ?_⟩
    rw [RaftServer.handle_respAppend hresp] at herr
    obtain ⟨he, -⟩ | he | ⟨-, hok, hzero⟩ := RaftServer.react2respAe_error rfl herr
    · cases he
    · cases he
    -- an AE with `prelog_index` -1 is never rejected for its log
    have hnext := hlast.next ht.state
    rw [← h.server, hzero] at hnext
    exact (h.rejects hae hok).prelog (.inl (by omega))

/-- **A reply to an AE of the receiver's present term finds the receiver primary.** -/
theorem respAe_meets_primary (hr : Reachable c σ) (hp : p ∈ σ.inflight) (hresp : p.rpc = .respAppend resp)
    (hterm : resp.term = (σ.raft p.dst).term) (hfresh : answersTerm p resp = true) :
    (σ.raft p.dst).state = .primary ∧ (σ.raft p.dst).handle (.message p) ≠ .error .respAeNotPrimary := by
  obtain ⟨q, ae, x, h⟩ := hr.ae_reply (hr.wired.sent p hp) hresp
  have hae : ae.term = resp.term := by simpa [answersTerm, h.call] using hfresh
  obtain ⟨n, hn⟩ := hr.ae_sent h.sent h.rpc
  -- the sender of that AE was primary in this term, and is still in it
  have hsince := hr.since_sent h.sent
  rw [h.src] at hsince
  have hst := hsince.primary (by rw [← hn.built.term, hae, hterm]) hn.primary
  refine ⟨hst, fun herr => ?_⟩
  rw [RaftServer.handle_respAppend hresp] at herr
  obtain ⟨-, hns⟩ | he | ⟨he, -⟩ := RaftServer.react2respAe_error rfl herr
  · exact hns hst
  · cases he
  · cases he

end Claims

/-- The `RESP_APPEND` a packet carries. -/
def Packet.respAppend? (p : Packet) : Option RespAppendEntryRpc :=
  match p.rpc with
  | .respAppend resp => some resp
  | _ => none

theorem Packet.mem_respAppend? {p : Packet} {resp : RespAppendEntryRpc} :
    resp ∈ p.respAppend? ↔ p.rpc = .respAppend resp := by
  unfold Packet.respAppend?
  split
  · rename_i r hr
    simp [hr, eq_comm]
  · rename_i hne
    simp only [Option.mem_def, reduceCtorEq, false_iff]
    exact hne resp

/-- A, elected again in term 3 with the vote of C, has yet to hear of the AE that
it sent to C in term 1: C answers it in term 3. -/
def staleRejection : List Action :=
  electA ++ campaign serverB ++ [.deliver 3] ++ campaign serverA ++ [.deliver 6, .deliver 2, .deliver 5]

theorem replies_not_correlated :
    ¬ ∀ (σ : System Unit) (p : Packet) (resp : RespAppendEntryRpc), Reachable threeServers σ → p ∈ σ.inflight →
      p.rpc = .respAppend resp → TakesReply (σ.raft p.dst) resp → Correlated σ p resp := by
  intro hall
  obtain ⟨σ, hr, p, hp, resp, hresp, ht, hstale⟩ := System.exists_reachable threeServers staleRejection
    (P := fun σ : System Unit => ∃ p ∈ σ.inflight, ∃ resp ∈ p.respAppend?, TakesReply (σ.raft p.dst) resp ∧
      answersTerm p resp = false) (by decide +kernel)
  have hc := (hall σ p resp hr hp (Packet.mem_respAppend?.mp hresp) ht).1.answersTerm ht.term
  rw [hstale] at hc
  cases hc

/-- A has granted B its vote for term 2, and so has C, which then hears of the AE
that A sent it in term 1. -/
def oldAeAnswered : List Action := electA ++ campaign serverB ++ [.deliver 3, .deliver 3, .deliver 2]

theorem respAe_meets_follower :
    ¬ ∀ (σ : System Unit) (p : Packet) (resp : RespAppendEntryRpc), Reachable threeServers σ → OnePrimary σ.trace →
      p ∈ σ.inflight → p.rpc = .respAppend resp → resp.term = (σ.raft p.dst).term →
      (σ.raft p.dst).state = .primary ∧ (σ.raft p.dst).handle (.message p) ≠ .error .respAeNotPrimary := by
  intro hall
  obtain ⟨σ, hr, hone, p, hp, resp, hresp, ht, hst⟩ := System.exists_reachable threeServers oldAeAnswered
    (P := fun σ : System Unit => OnePrimary σ.trace ∧ ∃ p ∈ σ.inflight, ∃ resp ∈ p.respAppend?,
      resp.term = (σ.raft p.dst).term ∧ (σ.raft p.dst).state = .follower) (by decide +kernel)
  have hp := (hall σ p resp hr hone hp (Packet.mem_respAppend?.mp hresp) ht).1
  rw [hst] at hp
  cases hp

/-- B answers the first AE of A. -/
def firstReply : List Action := electA ++ [.deliver 1]

theorem firstReply_ok : ∃ σ : System Unit, Reachable threeServers σ ∧ ∃ p ∈ σ.inflight, ∃ resp ∈ p.respAppend?,
    TakesReply (σ.raft p.dst) resp ∧ answersTerm p resp = true :=
  System.exists_reachable threeServers firstReply (by decide +kernel)

theorem firstReply_correlated : ∃ (σ : System Unit) (p : Packet) (resp : RespAppendEntryRpc),
    p ∈ σ.inflight ∧ p.rpc = .respAppend resp ∧ Correlated σ p resp := by
  obtain ⟨σ, hr, p, hp, resp, hresp, ht, hfresh⟩ := firstReply_ok
  rw [Packet.mem_respAppend?] at hresp
  exact ⟨σ, p, resp, hp, hresp, (correlated_iff hr hp hresp ht).mpr hfresh⟩

theorem firstReply_meets_primary : ∃ (σ : System Unit) (p : Packet) (resp : RespAppendEntryRpc),
    p ∈ σ.inflight ∧ p.rpc = .respAppend resp ∧ (σ.raft p.dst).state = .primary ∧
      (σ.raft p.dst).handle (.message p) ≠ .error .respAeNotPrimary := by
  obtain ⟨σ, hr, p, hp, resp, hresp, ht, hfresh⟩ := firstReply_ok
  rw [Packet.mem_respAppend?] at hresp
  exact ⟨σ, p, resp, hp, hresp, respAe_meets_primary hr hp hresp ht.term hfresh⟩

end MyRaft
