/-
What a packet says about its sender, and a reply about the request it answers.
-/
import MyRaft.Terms

namespace MyRaft

open History
open StdLib (StdMap)
open RaftServer (Sends Answers Grants BuiltAe)

variable {SM : Type} [StateMachine SM] {c : Cluster} {σ : System SM} {e : Event} {rest : List Packet} {p : Packet}

/-! ## Requests -/

/-- `ae` as a primary sends it: its entry is at position `n` of the sender's log. -/
structure AeSent (p : Packet) (n : Nat) (ae : AppendEntryRpc) : Prop where
  built : BuiltAe p.sender p.dst n ae
  primary : p.sender.state = .primary
  lsn : p.sender.currentRpcLsn.get p.dst = ae.lsn + 1
  server : ae.server = p.src

theorem Step.ae_sent (hr : Reachable c σ) (h : Step c σ e rest) (hp : p ∈ e.packets) {ae : AppendEntryRpc}
    (hae : p.rpc = .appendEntry ae) : ∃ n, AeSent p n ae := by
  obtain ⟨-, hsrc, -, hsender⟩ := Event.mem_packets.mp hp
  have hs := h.sends hr hp
  rw [hae] at hs
  cases hs with
  | appendEntry hb hlsn hcur =>
    refine ⟨_, by rw [hsender]; exact hb, by rw [hsender]; exact h.ae_primary hr hp hae,
      by rw [hsender]; exact hcur, ?_⟩
    rw [hb.server, (h.known hr).server, hsrc]

theorem Reachable.ae_sent (hr : Reachable c σ) (hp : Sent σ.trace p) {ae : AppendEntryRpc}
    (hae : p.rpc = .appendEntry ae) : ∃ n, AeSent p n ae := by
  obtain ⟨σ₀, e, rest, hr₀, -, hst, hpe⟩ := hr.sent hp
  exact hst.ae_sent hr₀ hpe hae

/-- The fields of an AE all come from the state it was built from. -/
theorem RaftServer.BuiltAe.unique {s : RaftServer} {x : Addr} {n n' : Nat} {ae ae' : AppendEntryRpc}
    (h : BuiltAe s x n ae) (h' : BuiltAe s x n' ae') (hlsn : ae.lsn = ae'.lsn) : ae = ae' := by
  have hn : n = n' := Int.ofNat_inj.mp (h.next.symm.trans h'.next)
  subst hn
  have hserver : ae.server = ae'.server := h.server.trans h'.server.symm
  obtain ⟨t, pt, ci, l, ip, port, en, pi⟩ := ae
  obtain ⟨t', pt', ci', l', ip', port', en', pi'⟩ := ae'
  simp only [AppendEntryRpc.server, Addr.mk.injEq] at hserver
  simp only [AppendEntryRpc.mk.injEq]
  exact ⟨h.term.trans h'.term.symm, h.prelogTerm.trans h'.prelogTerm.symm, h.commitIndex.trans h'.commitIndex.symm,
    hlsn, hserver.1, hserver.2, h.entry.trans h'.entry.symm, h.prelogIndex.trans h'.prelogIndex.symm⟩

/-- An RV as it is sent. -/
structure RvSent (p : Packet) (rv : RequestVoteRpc) : Prop where
  term : rv.term = p.sender.term
  server : rv.server = p.src
  lsn : p.sender.currentRpcLsn.get p.dst = rv.lsn + 1
  index : rv.latestIndex = (p.sender.entries.log.length : Int) - 1

theorem Reachable.rv_sent (hr : Reachable c σ) (hp : Sent σ.trace p) {rv : RequestVoteRpc}
    (hrv : p.rpc = .requestVote rv) : RvSent p rv := by
  obtain ⟨σ₀, e, rest, hr₀, -, hst, hpe⟩ := hr.sent hp
  obtain ⟨-, hsrc, -, hsender⟩ := Event.mem_packets.mp hpe
  have hs := hst.sends hr₀ hpe
  rw [hrv] at hs
  cases hs with
  | requestVote hterm hserver hindex hlsn hcur =>
    refine ⟨by rw [hsender]; exact hterm, ?_, by rw [hsender]; exact hcur, by rw [hsender]; exact hindex⟩
    rw [hserver, (hst.known hr₀).server, hsrc]

/-! ## Replies -/

/-- `p` replies `resp` to the AE `ae` of packet `q`; `x` is the follower before it handled the AE. -/
structure AeReply (trace : List Event) (p : Packet) (resp : RespAppendEntryRpc) (q : Packet) (ae : AppendEntryRpc)
    (x : RaftServer) : Prop where
  sent : Sent trace q
  rpc : q.rpc = .appendEntry ae
  src : q.src = p.dst
  dst : q.dst = p.src
  call : p.call = some (.appendEntry ae)
  term : resp.term = p.sender.term
  server : resp.server = p.src
  lsn : resp.lsn = ae.lsn
  empty : resp.isEmptyAe = ae.isEmptyAe
  answers : Answers x ae p.sender resp.ok
  since : Since x p.sender

theorem Step.ae_reply (hr : Reachable c σ) (h : Step c σ e rest) (hp : p ∈ e.packets) {resp : RespAppendEntryRpc}
    (hresp : p.rpc = .respAppend resp) :
    ∃ q ae, AeReply σ.trace p resp q ae e.before ∧ e.input = .message q := by
  obtain ⟨-, hsrc, hcall, hsender⟩ := Event.mem_packets.mp hp
  have hs := h.sends hr hp
  rw [hresp] at hs
  cases hs with
  | @respAppend q ae _ hi hq hdst hterm hserver hlsn hempty ha =>
    obtain ⟨hqs, hqd, -⟩ := h.delivered hr hi
    obtain ⟨n, hae⟩ := hr.ae_sent hqs hq
    refine ⟨q, ae, ⟨hqs, hq, by rw [← hae.server, hdst], by rw [hqd, hsrc], ?_, ?_, ?_, hlsn, hempty, ?_, ?_⟩, hi⟩
    · rw [hcall, hi]
      simp [Input.call, hq]
    · rw [hterm, hsender]
    · rw [hserver, (h.known hr).server, hsrc]
    · rw [hsender]
      exact ha
    · rw [hsender]
      exact h.since hr

theorem Reachable.ae_reply (hr : Reachable c σ) (hp : Sent σ.trace p) {resp : RespAppendEntryRpc}
    (hresp : p.rpc = .respAppend resp) : ∃ q ae x, AeReply σ.trace p resp q ae x := by
  obtain ⟨σ₀, e, rest, hr₀, hs, hst, hpe⟩ := hr.sent hp
  obtain ⟨q, ae, h, -⟩ := hst.ae_reply hr₀ hpe hresp
  exact ⟨q, ae, e.before, { h with sent := h.sent.mono (past_suffix hs) }⟩

/-- `p` grants the RV `rv` of packet `q`; `x` is the voter before. -/
structure VoteReply (trace : List Event) (p : Packet) (resp : RespRequestVoteRpc) (q : Packet)
    (rv : RequestVoteRpc) (x : RaftServer) : Prop where
  sent : Sent trace q
  rpc : q.rpc = .requestVote rv
  src : q.src = p.dst
  dst : q.dst = p.src
  term : resp.term = p.sender.term
  server : resp.server = p.src
  lsn : resp.lsn = rv.lsn
  grants : resp.ok = true → Grants x rv p.sender

theorem Step.vote_reply (hr : Reachable c σ) (h : Step c σ e rest) (hp : p ∈ e.packets) {resp : RespRequestVoteRpc}
    (hresp : p.rpc = .respVote resp) :
    ∃ q rv, VoteReply σ.trace p resp q rv e.before ∧ e.input = .message q := by
  obtain ⟨-, hsrc, hcall, hsender⟩ := Event.mem_packets.mp hp
  have hs := h.sends hr hp
  rw [hresp] at hs
  cases hs with
  | @respVote q rv _ hi hq hdst hterm hserver hlsn hok =>
    obtain ⟨hqs, hqd, -⟩ := h.delivered hr hi
    have hrv := hr.rv_sent hqs hq
    refine ⟨q, rv, ⟨hqs, hq, by rw [← hrv.server, hdst], by rw [hqd, hsrc], ?_, ?_, hlsn, ?_⟩, hi⟩
    · rw [hterm, hsender]
    · rw [hserver, (h.known hr).server, hsrc]
    · rw [hsender]
      exact hok

theorem Reachable.vote_reply (hr : Reachable c σ) (hp : Sent σ.trace p) {resp : RespRequestVoteRpc}
    (hresp : p.rpc = .respVote resp) : ∃ q rv x, VoteReply σ.trace p resp q rv x := by
  obtain ⟨σ₀, e, rest, hr₀, hs, hst, hpe⟩ := hr.sent hp
  obtain ⟨q, rv, h, -⟩ := hst.vote_reply hr₀ hpe hresp
  exact ⟨q, rv, e.before, { h with sent := h.sent.mono (past_suffix hs) }⟩

end MyRaft
