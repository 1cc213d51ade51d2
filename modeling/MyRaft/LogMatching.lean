/-
Log matching. The log of the primary of a term only grows, and every log follows
the primaries that made its entries: up to an entry of a term it is what the
primary of that term had. An AE carries one position of its sender's log, and
the check of `prelog_index` and `prelog_term` makes the prefix before it the
sender's.
-/
import MyRaft.Messages
import MyRaft.Lib.Lineage

namespace MyRaft

open History Lineage
open RaftServer (LogMove Accepts AcceptedLog PrelogOk BuiltAe)

/-! ## Orderly runs -/

def Input.isClientApply : Input → Bool
  | .clientApply _ _ => true
  | _ => false

/-- Only a primary handles `CLIENT_APPLY`. -/
def ApplyAtPrimary (_ : List Event) (e : Event) : Prop :=
  e.input.isClientApply = true → e.before.state = .primary

instance (past : List Event) (e : Event) : Decidable (ApplyAtPrimary past e) :=
  inferInstanceAs (Decidable (e.input.isClientApply = true → e.before.state = .primary))

/-- The runs without two primaries in one term or an entry of a server that is not primary. -/
structure Orderly (trace : List Event) : Prop where
  one : OnePrimary trace
  applies : Along ApplyAtPrimary trace

theorem Orderly.suffix {past trace : List Event} (h : Orderly trace) (hs : past <:+ trace) : Orderly past where
  one := fun e he e' he' => h.one e (hs.subset he) e' (hs.subset he')
  applies := h.applies.suffix hs

/-! ## The log of the primary of a term -/

/-- The log of the primary of a term, as of its last event. -/
def primaryLog : List Event → Int → List RpcEntry
  | [], _ => []
  | e :: past, term =>
    if e.after.state = .primary ∧ e.after.term = term then e.after.entries.log else primaryLog past term

/-- The term of an entry names its author. -/
abbrev Lines (trace : List Event) (log : List RpcEntry) : Prop := Follows RpcEntry.term (primaryLog trace) log

theorem primaryLog_cases (term : Int) : ∀ trace : List Event,
    (primaryLog trace term = [] ∧ ∀ e ∈ trace, e.after.state = .primary → e.after.term ≠ term) ∨
    ∃ e past, e :: past <:+ trace ∧ e.after.state = .primary ∧ e.after.term = term ∧
      primaryLog trace term = e.after.entries.log
  | [] => .inl ⟨rfl, by simp⟩
  | e :: past => by
    by_cases he : e.after.state = .primary ∧ e.after.term = term
    · exact .inr ⟨e, past, List.suffix_refl _, he.1, he.2, by rw [primaryLog, if_pos he]⟩
    · rw [primaryLog, if_neg he]
      rcases primaryLog_cases term past with ⟨h1, h2⟩ | ⟨d, p, hs, h⟩
      · refine .inl ⟨h1, fun d hd hp ht => ?_⟩
        rcases List.mem_cons.mp hd with rfl | hd
        · exact he ⟨hp, ht⟩
        · exact h2 d hd hp ht
      · exact .inr ⟨d, p, hs.trans (List.suffix_cons _ _), h⟩

section Runs

variable {SM : Type} [StateMachine SM] {c : Cluster} {σ : System SM} {e : Event} {rest : List Packet} {p : Packet}
  {dst : Addr}

theorem Step.primaryLog_mono (hr : Reachable c σ) (h : Step c σ e rest) (ho : OnePrimary (e :: σ.trace))
    (term : Int) :
    primaryLog σ.trace term <+: primaryLog (e :: σ.trace) term := by
  rw [primaryLog]
  split
  · rename_i he
    rcases primaryLog_cases term σ.trace with ⟨hnil, -⟩ | ⟨d, past, hs, hp, ht, hlog⟩
    · rw [hnil]
      exact List.nil_prefix
    · -- the earlier primary of the term is this server
      have hd := mem_of_suffix hs
      have hserver := ho d (List.mem_cons_of_mem _ hd) e List.mem_cons_self hp he.1 (ht.trans he.2.symm)
      have hsince := hr.since hd
      rw [hserver, ← h.before] at hsince
      rw [hlog]
      exact (hsince.trans (h.since hr)).log (ht.trans he.2.symm) hp
  · exact List.prefix_refl _

theorem Reachable.primaryLog_mono (hr : Reachable c σ) (ho : OnePrimary σ.trace) {past : List Event}
    (hs : past <:+ σ.trace) (term : Int) : primaryLog past term <+: primaryLog σ.trace term := by
  refine hr.invariant (I := fun σ => OnePrimary σ.trace → ∀ past, past <:+ σ.trace →
    primaryLog past term <+: primaryLog σ.trace term) (fun _ past hs => ?_) ?_ ho past hs
  · obtain rfl := List.suffix_nil.mp hs
    exact List.prefix_refl _
  · intro σ e rest hr h ih ho past hs
    rcases List.suffix_cons_iff.mp hs with rfl | hs
    · exact List.prefix_refl _
    · exact (ih (fun a ha b hb => ho a (List.mem_cons_of_mem _ ha) b (List.mem_cons_of_mem _ hb)) past hs).trans
        (h.primaryLog_mono hr ho term)

theorem primaryLog_self (hp : e.after.state = .primary) {past : List Event} :
    primaryLog (e :: past) e.after.term = e.after.entries.log := by
  rw [primaryLog, if_pos ⟨hp, rfl⟩]

/-- What a primary has had, the primary of its term has. -/
theorem Reachable.log_le_primaryLog (hr : Reachable c σ) (ho : OnePrimary σ.trace) (he : e ∈ σ.trace)
    (hp : e.after.state = .primary) : e.after.entries.log <+: primaryLog σ.trace e.after.term := by
  obtain ⟨past, hs⟩ := exists_past he
  have := hr.primaryLog_mono ho hs e.after.term
  rwa [primaryLog_self hp] at this

theorem Reachable.sender_log (hr : Reachable c σ) (hone : OnePrimary σ.trace) (hp : Sent σ.trace p) {n : Nat}
    {ae : AppendEntryRpc} (hn : AeSent p n ae) : p.sender.entries.log <+: primaryLog σ.trace ae.term := by
  have hstate := hn.primary
  have hterm := hn.built.term
  obtain ⟨d, hd, hpd⟩ := hp
  rw [(Event.mem_packets.mp hpd).2.2.2] at hstate hterm ⊢
  rw [hterm]
  exact hr.log_le_primaryLog hone hd hstate

/-! ## Accepted AEs -/

/-- The log `y` that an AE for position `n` of the log `L` makes of `x`. -/
structure Copies (L : List RpcEntry) (n : Nat) (x y : List RpcEntry) : Prop where
  base : x.take n = L.take n
  le : n ≤ x.length
  le_sender : n ≤ L.length
  log : n = L.length ∧ y = x ∨ n < L.length ∧ y = L.take (n + 1)

/-- The check of `prelog_index` and `prelog_term` makes the prefix the sender's. -/
theorem AeSent.base {n : Nat} {ae : AppendEntryRpc} (hs : AeSent p n ae) {x : RaftServer}
    {author : Int → List RpcEntry} (hx : Follows RpcEntry.term author x.entries.log)
    (hL : Follows RpcEntry.term author p.sender.entries.log) (hok : PrelogOk x ae.prelogIndex ae.prelogTerm) :
    n ≤ x.entries.log.length ∧ x.entries.log.take n = p.sender.entries.log.take n := by
  have hb := hs.built
  cases n with
  | zero => simp
  | succ i =>
    have hi : i < p.sender.entries.log.length := hb.le
    have hterm := hb.prelogTerm
    have hindex := hb.prelogIndex
    rw [if_neg (Nat.succ_ne_zero i), Nat.add_sub_cancel, List.getElem?_eq_getElem hi, Option.map_some,
      Option.getD_some] at hterm
    rcases hok with hm | ⟨j, entry, hj, he, ht⟩
    · omega
    · obtain rfl : j = i := by omega
      have hlt := (List.getElem?_eq_some_iff.mp he).1
      exact ⟨hlt, hx.agree hL he (List.getElem?_eq_getElem hi) (by rw [ht, hterm])⟩

theorem AeSent.copies {n : Nat} {ae : AppendEntryRpc} (hs : AeSent p n ae) {x y : RaftServer}
    {author : Int → List RpcEntry} (hx : Follows RpcEntry.term author x.entries.log)
    (hL : Follows RpcEntry.term author p.sender.entries.log) (ha : Accepts x ae y) :
    Copies p.sender.entries.log n x.entries.log y.entries.log := by
  have hb := hs.built
  obtain ⟨hle, hbase⟩ := hs.base hx hL ha.prelog
  refine ⟨hbase, hle, hb.le, ?_⟩
  have hlog := ha.log
  have hentry := hb.entry
  unfold AcceptedLog at hlog
  by_cases hn : n < p.sender.entries.log.length
  · rw [List.getElem?_eq_getElem hn, Option.toList_some] at hentry
    rw [hentry] at hlog
    obtain ⟨m, hm, -, -, hlog⟩ := hlog
    have hindex := hb.prelogIndex
    obtain rfl : m = n := by omega
    exact .inr ⟨hn, by rw [hlog, hbase, take_add_one_of_getElem? (List.getElem?_eq_getElem hn)]⟩
  · have hnone : p.sender.entries.log[n]? = none := List.getElem?_eq_none (by omega)
    rw [hnone, Option.toList_none] at hentry
    rw [hentry] at hlog
    exact .inl ⟨by have := hb.le; omega, hlog.2⟩

theorem Copies.follows {L x y : List RpcEntry} {n : Nat} {author : Int → List RpcEntry} (h : Copies L n x y)
    (hx : Follows RpcEntry.term author x) (hL : Follows RpcEntry.term author L) : Follows RpcEntry.term author
    y := by
  rcases h.log with ⟨-, rfl⟩ | ⟨-, rfl⟩
  · exact hx
  · refine hL.shorter ?_
    exact List.take_prefix _ _

/-! ## The invariant -/

/-- The server's state is the one its last event left, or the first. -/
theorem Reachable.last_event (hr : Reachable c σ) (s : Addr) :
    σ.raft s = (System.start c : System SM).raft s ∨ ∃ e ∈ σ.trace, e.server = s ∧ σ.raft s = e.after.taken := by
  refine hr.invariant (I := fun σ => σ.raft s = (System.start c : System SM).raft s ∨
    ∃ e ∈ σ.trace, e.server = s ∧ σ.raft s = e.after.taken) (.inl rfl) ?_
  intro σ e rest _ _ ih
  by_cases hs : s = e.server
  · subst hs
    exact .inr ⟨e, List.mem_cons_self, rfl, System.raft_next_self⟩
  · rw [System.raft_next_ne hs]
    rcases ih with ih | ⟨d, hd, h⟩
    · exact .inl ih
    · exact .inr ⟨d, List.mem_cons_of_mem _ hd, h⟩

theorem lines_of_events (hr : Reachable c σ) (h : ∀ e ∈ σ.trace, Lines σ.trace e.after.entries.log) (s : Addr) :
    Lines σ.trace (σ.raft s).entries.log := by
  rcases hr.last_event s with he | ⟨e, he, -, hs⟩
  · rw [he]
    exact .nil
  · rw [hs]
    exact h e he

/-- **Every log follows the primaries that made its entries.** -/
theorem Reachable.lines_of_mem (hr : Reachable c σ) (ho : Orderly σ.trace) :
    ∀ e ∈ σ.trace, Lines σ.trace e.after.entries.log := by
  refine hr.invariant (I := fun σ => Orderly σ.trace → ∀ e ∈ σ.trace, Lines σ.trace e.after.entries.log)
    (fun _ e he => by cases he) ?_ ho
  intro σ e rest hr h ih ho d hd
  have ho' := ho.suffix (List.suffix_cons e σ.trace)
  have hmono := fun term => h.primaryLog_mono hr ho.one term
  have ih := ih ho'
  have hbefore : Lines σ.trace e.before.entries.log := by
    rw [h.before]
    exact lines_of_events hr ih e.server
  rcases List.mem_cons.mp hd with rfl | hd
  · cases (h.outcome hr).log with
    | same hlog =>
      rw [hlog]
      exact hbefore.mono hmono
    | @appended client body hi hterm hstate hlog =>
      -- the primary's own log is the author's
      have hx : d.before.state = .primary := ho.applies.1 (by rw [hi]; rfl)
      have hself := @primaryLog_self _ (hstate.trans hx) σ.trace
      rw [hlog, hterm] at hself
      rw [hlog]
      exact (hbefore.mono hmono).concat (show _ <+: primaryLog (d :: σ.trace) d.before.term by rw [hself])
    | @accepted p ae hi hp ha =>
      obtain ⟨hsent, -, -⟩ := h.delivered hr hi
      obtain ⟨n, hn⟩ := hr.ae_sent hsent hp
      obtain ⟨f, hf, hpf⟩ := hsent
      have hL : Lines σ.trace p.sender.entries.log := by
        rw [(Event.mem_packets.mp hpf).2.2.2]
        exact ih f hf
      exact ((hn.copies hbefore hL ha).follows hbefore hL).mono hmono
  · exact (ih d hd).mono hmono

theorem Reachable.lines (hr : Reachable c σ) (ho : Orderly σ.trace) (s : Addr) :
    Lines σ.trace (σ.raft s).entries.log := lines_of_events hr (hr.lines_of_mem ho) s

theorem Reachable.lines_of_sent (hr : Reachable c σ) (ho : Orderly σ.trace) (hp : Sent σ.trace p) :
    Lines σ.trace p.sender.entries.log := by
  obtain ⟨f, hf, hpf⟩ := hp
  rw [(Event.mem_packets.mp hpf).2.2.2]
  exact hr.lines_of_mem ho f hf

/-- An accepted AE copies a position of its sender's log. -/
theorem Step.copies (hr : Reachable c σ) (h : Step c σ e rest) (ho : Orderly σ.trace) {ae : AppendEntryRpc}
    (hi : e.input = .message p) (hp : p.rpc = .appendEntry ae) (ha : Accepts e.before ae e.after) :
    ∃ n, AeSent p n ae ∧ Copies p.sender.entries.log n e.before.entries.log e.after.entries.log := by
  obtain ⟨hsent, -, -⟩ := h.delivered hr hi
  obtain ⟨n, hn⟩ := hr.ae_sent hsent hp
  refine ⟨n, hn, hn.copies ?_ (hr.lines_of_sent ho hsent) ha⟩
  rw [h.before]
  exact hr.lines ho e.server

/-- The terms of the entries of a log do not fall, and none is past its server's. -/
structure Dated (x : RaftServer) : Prop where
  sorted : x.entries.log.Pairwise fun a b => a.term ≤ b.term
  le : ∀ entry ∈ x.entries.log, entry.term ≤ x.term

/-- The entries that an AE goes on from are no later than the one it carries. -/
theorem Dated.prelog_le {x y : RaftServer} {n : Nat} {ae : AppendEntryRpc} {new : RpcEntry} (hx : Dated x)
    (hy : Dated y) (hb : BuiltAe y dst n ae) (hok : PrelogOk x ae.prelogIndex ae.prelogTerm)
    (hnew : y.entries.log[n]? = some new) :
    ∀ a ∈ x.entries.log.take n, a.term ≤ new.term := by
  intro a ha
  obtain ⟨i, hi, hget⟩ := List.mem_take_iff_getElem.mp ha
  have hindex := hb.prelogIndex
  have hterm := hb.prelogTerm
  obtain ⟨hn, rfl⟩ := List.getElem?_eq_some_iff.mp hnew
  rw [if_neg (by omega), List.getElem?_eq_getElem (by omega), Option.map_some, Option.getD_some] at hterm
  rcases hok with hm | ⟨j, entry, hj, he, ht⟩
  · omega
  obtain rfl : j = n - 1 := by omega
  obtain ⟨hlt, rfl⟩ := List.getElem?_eq_some_iff.mp he
  have hlast : a.term ≤ x.entries.log[n - 1].term := by
    rcases Nat.lt_or_eq_of_le (show i ≤ n - 1 by omega) with hlt' | rfl
    · rw [← hget]
      exact List.pairwise_iff_getElem.mp hx.sorted i (n - 1) _ _ hlt'
    · rw [← hget]
  have hnext := List.pairwise_iff_getElem.mp hy.sorted (n - 1) n (by omega) hn (by omega)
  omega

theorem Step.dated (hr : Reachable c σ) (h : Step c σ e rest) (hx : Dated e.before)
    (hsent : ∀ p, Sent σ.trace p → Dated p.sender) : Dated e.after := by
  have hterm := (h.since hr).term
  have hkeep : e.after.entries.log = e.before.entries.log → Dated e.after := fun hlog => by
    refine ⟨by rw [hlog]; exact hx.sorted, fun entry hm => ?_⟩
    rw [hlog] at hm
    exact Int.le_trans (hx.le entry hm) hterm
  have hextend : ∀ (n : Nat) (new : RpcEntry), e.after.entries.log = e.before.entries.log.take n ++ [new] →
      new.term ≤ e.after.term → (∀ a ∈ e.before.entries.log.take n, a.term ≤ new.term) → Dated e.after := by
    intro n new hlog hle hnew
    refine ⟨?_, fun entry hm => ?_⟩
    · rw [hlog, List.pairwise_append]
      refine ⟨hx.sorted.sublist (List.take_sublist _ _), List.pairwise_singleton _ _, fun a hm b hb => ?_⟩
      rw [List.mem_singleton.mp hb]
      exact hnew a hm
    · rw [hlog] at hm
      rcases List.mem_append.mp hm with hm | hm
      · exact Int.le_trans (hx.le entry (List.mem_of_mem_take hm)) hterm
      · rwa [List.mem_singleton.mp hm]
  cases (h.outcome hr).log with
  | same hlog => exact hkeep hlog
  | appended _ ht _ hlog =>
    refine hextend e.before.entries.log.length _ (by rw [hlog, List.take_length]) (by rw [ht]) fun a ha => ?_
    exact hx.le a (List.mem_of_mem_take ha)
  | @accepted p ae hi hp ha =>
    obtain ⟨hdelivered, -, -⟩ := h.delivered hr hi
    obtain ⟨n, hn⟩ := hr.ae_sent hdelivered hp
    have hL := hsent p hdelivered
    have hlog := ha.log
    unfold AcceptedLog at hlog
    split at hlog
    · exact hkeep hlog.2
    · rename_i new tail hent
      obtain ⟨m, hm, -, -, hlog⟩ := hlog
      have hindex := hn.built.prelogIndex
      obtain rfl : m = n := by omega
      have hnew : p.sender.entries.log[m]? = some new := by
        have hentry := hn.built.entry
        rw [hent] at hentry
        cases hget : p.sender.entries.log[m]? with
        | none => rw [hget] at hentry; cases hentry
        | some a => rw [hget] at hentry; cases hentry; rfl
      refine hextend m new hlog ?_ (hx.prelog_le hL hn.built ha.prelog hnew)
      rw [ha.term, hn.built.term]
      exact hL.le new (List.mem_of_getElem? hnew)

/-- **The terms of a log do not fall**, in any run. -/
theorem Reachable.dated (hr : Reachable c σ) : (∀ s, Dated (σ.raft s)) ∧ ∀ e ∈ σ.trace, Dated e.after := by
  refine hr.invariant (I := fun σ => (∀ s, Dated (σ.raft s)) ∧ ∀ e ∈ σ.trace, Dated e.after)
    ⟨fun s => ⟨.nil, fun entry h => by cases h⟩, fun e he => by cases he⟩ ?_
  intro σ e rest hr h ⟨hservers, hevents⟩
  have hy : Dated e.after := by
    refine h.dated hr (by rw [h.before]; exact hservers e.server) ?_
    rintro p ⟨f, hf, hpf⟩
    rw [(Event.mem_packets.mp hpf).2.2.2]
    exact hevents f hf
  refine ⟨fun s => ?_, fun d hd => ?_⟩
  · rw [System.raft_next]
    split
    · exact ⟨hy.sorted, hy.le⟩
    · exact hservers s
  · rcases List.mem_cons.mp hd with rfl | hd
    · exact hy
    · exact hevents d hd

theorem Reachable.dated_sent (hr : Reachable c σ) (hp : Sent σ.trace p) : Dated p.sender := by
  obtain ⟨f, hf, hpf⟩ := hp
  rw [(Event.mem_packets.mp hpf).2.2.2]
  exact hr.dated.2 f hf

/-- **Log matching.** -/
theorem log_matching (hr : Reachable c σ) (hone : OnePrimary σ.trace) (happly : Along ApplyAtPrimary σ.trace)
    {s s' : Addr} {i : Nat} {entry entry' : RpcEntry} (hs : (σ.raft s).entries.log[i]? = some entry)
    (hs' : (σ.raft s').entries.log[i]? = some entry') (hterm : entry.term = entry'.term) :
    (σ.raft s).entries.log.take (i + 1) = (σ.raft s').entries.log.take (i + 1) :=
  (hr.lines ⟨hone, happly⟩ s).agree (hr.lines ⟨hone, happly⟩ s') hs hs' hterm

end Runs

theorem copyX_matches : ∃ σ : System Unit, (∃ entry, (σ.raft serverB).entries.log[0]? = some entry) ∧
    (σ.raft serverA).entries.log.take 1 = (σ.raft serverB).entries.log.take 1 := by
  obtain ⟨σ, hr, hone, happly, entry, he, entry', he', hterm⟩ := System.exists_reachable threeServers copyX
    (P := fun σ : System Unit => OnePrimary σ.trace ∧ Along ApplyAtPrimary σ.trace ∧
      ∃ entry ∈ (σ.raft serverA).entries.log[0]?, ∃ entry' ∈ (σ.raft serverB).entries.log[0]?,
        entry.term = entry'.term) (by decide +kernel)
  exact ⟨σ, ⟨entry', he'⟩, log_matching hr hone happly he he' hterm⟩

end MyRaft
