/-
The lsns of the RPCs at the width of an `int`. `current_rpc_lsn_` counts the RVs
and AEs to a server in a term, heartbeats among them, and starts again only when
the term grows; the receiver keeps the last lsn it took in `follower_rpc_lsn_`,
and drops an RPC whose lsn is not above it.

Here is what the functions of `RaftServer` do to the two tables, with lsns
modulo 2^32 that are compared as signed numbers. The network may lose, delay,
reorder and duplicate RPCs: a receiver is given any of those that were sent, in any order.
-/
import MyRaft.Duplicates
import MyRaft.Lib.Counter
import MyRaft.Lib.Except

namespace MyRaft

open StdLib (StdMap)
open Counter (Counted)

/-- The term of a `RaftServer` and its lsns. -/
structure LsnTables where
  configuration : List Addr
  term : Int
  currentRpcLsn : StdMap Addr Int32
  followerRpcLsn : StdMap Addr Int32

namespace LsnTables

/-- The constructor. -/
def start (configuration : List Addr) : LsnTables where
  configuration := configuration
  term := 0
  currentRpcLsn := StdMap.empty.setAll configuration 0
  followerRpcLsn := StdMap.empty.setAll configuration (-1)

def resetBothRpcLsn (t : LsnTables) : LsnTables :=
  { t with
    currentRpcLsn := t.currentRpcLsn.setAll t.configuration 0
    followerRpcLsn := t.followerRpcLsn.setAll t.configuration (-1) }

def updateTerm (term : Int) (t : LsnTables) : Except Exn LsnTables :=
  if t.term < term then .ok { t.resetBothRpcLsn with term := term }
  else if t.term = term then .ok t
  else .error .termDecreases

/-- `build_rpc_ae_string` and `build_rpc_rv_string`, as far as the lsn goes. -/
def buildRpcString (server : Addr) (t : LsnTables) : Int32 × LsnTables :=
  let serverCurrentRpcLsn := t.currentRpcLsn.get server
  (serverCurrentRpcLsn, { t with currentRpcLsn := t.currentRpcLsn.set server (serverCurrentRpcLsn + 1) })

def shouldIgnoreRemoteRpc (remote : Addr) (newLsn : Int32) (t : LsnTables) : Bool × LsnTables :=
  if t.followerRpcLsn.get remote ≥ newLsn then (true, t)
  else (false, { t with followerRpcLsn := t.followerRpcLsn.set remote newLsn })

/-- `react2ae` and `react2rv` up to the check of the lsn: whether the RPC is dropped there. -/
def react (remote : Addr) (remoteTerm : Int) (rpcLsn : Int32) (t : LsnTables) : Except Exn (Bool × LsnTables) :=
  if t.term > remoteTerm then .ok (false, t)
  else do
    let t ← t.updateTerm remoteTerm
    return t.shouldIgnoreRemoteRpc remote rpcLsn

/-- The check of `primary_deal_resp_ae_with_same_term` and `candidate_deal_resp_rv_with_same_term`. -/
def dealsResp (server : Addr) (respLsn : Int32) (t : LsnTables) : Bool :=
  t.currentRpcLsn.get server = respLsn + 1

end LsnTables

/-- An RPC that was built. -/
structure LsnCall where
  dst : Addr
  term : Int
  lsn : Int32
deriving DecidableEq

/-- A server's tables, and the RPCs it has built, the last one first. -/
structure LsnServer where
  tables : LsnTables
  calls : List LsnCall

inductive LsnEvent where
  /-- `update_term`, of `trans2F` or `trans2C`. -/
  | updateTerm (term : Int)
  /-- An RV or an AE, or one again. -/
  | call (server : Addr)
  | receive (remote : Addr) (remoteTerm : Int) (rpcLsn : Int32)

namespace LsnServer

/-- `AE` and `RV`, as far as the lsn goes. -/
def call (server : Addr) (s : LsnServer) : LsnServer :=
  let (lsn, tables) := s.tables.buildRpcString server
  ⟨tables, ⟨server, s.tables.term, lsn⟩ :: s.calls⟩

def step (s : LsnServer) : LsnEvent → Except Exn LsnServer
  | .updateTerm term => do return { s with tables := ← s.tables.updateTerm term }
  | .call server => .ok (s.call server)
  | .receive remote remoteTerm rpcLsn => do
    let (_, tables) ← s.tables.react remote remoteTerm rpcLsn
    return { s with tables := tables }

def run (configuration : List Addr) (events : List LsnEvent) : Except Exn LsnServer :=
  events.foldlM step ⟨.start configuration, []⟩

/-- The RPCs to a server in the term, the last one first. -/
def callsTo (server : Addr) (s : LsnServer) : List LsnCall :=
  s.calls.filter fun call => call.dst = server ∧ call.term = s.tables.term

/-- A run of `server` in which it gets from `caller` only RPCs of `s`. -/
def ReceivesFrom (configuration : List Addr) (caller server : Addr) (s t : LsnServer) : Prop :=
  ∃ events, run configuration events = .ok t ∧
    ∀ term lsn, .receive caller term lsn ∈ events → ⟨server, term, lsn⟩ ∈ s.calls

/-- What the lsn of the next RPC of `caller` to `server` is for. -/
structure Fresh (configuration : List Addr) (caller server : Addr) (s : LsnServer) : Prop where
  /-- It is above those of the term. -/
  larger : ∀ call ∈ s.callsTo server, call.lsn < (s.tables.buildRpcString server).1
  /-- The RPC is not dropped by the server, whatever it was given of those before. -/
  taken : ∀ t, ReceivesFrom configuration caller server s t → ∀ ignored tables,
    t.tables.react caller s.tables.term (s.tables.buildRpcString server).1 = .ok (ignored, tables) →
    ignored = false
  /-- A reply to it is dealt with, and no reply to one of the term before it. -/
  answered : (s.tables.buildRpcString server).2.dealsResp server (s.tables.buildRpcString server).1 = true
  stale : ∀ call ∈ s.callsTo server, (s.tables.buildRpcString server).2.dealsResp server call.lsn = false

/-! ## Numbers -/

variable {configuration : List Addr} {caller server : Addr} {s s' t t' : LsnServer} {e : LsnEvent}

/-- The lsns of the RPCs to a server count them. -/
structure Numbered (configuration : List Addr) (s : LsnServer) : Prop where
  known : s.tables.configuration = configuration
  nonneg : 0 ≤ s.tables.term
  term_le : ∀ call ∈ s.calls, call.term ≤ s.tables.term
  counted : ∀ server ∈ configuration, Counted ((s.callsTo server).map LsnCall.lsn)
  current : ∀ server ∈ configuration, s.tables.currentRpcLsn.get server = Int32.ofNat (s.callsTo server).length

end LsnServer

namespace LsnTables

variable {configuration : List Addr} {server : Addr} {t t' : LsnTables} {term : Int}

/-- The term stays, or it grows and both tables start again. -/
theorem updateTerm_ok (h : t.updateTerm term = .ok t') :
    t.term = term ∧ t' = t ∨ t.term < term ∧ t' = { t.resetBothRpcLsn with term := term } := by
  unfold updateTerm at h
  split at h
  · exact .inr ⟨‹_›, (Except.ok.inj h).symm⟩
  · split at h
    · exact .inl ⟨‹_›, (Except.ok.inj h).symm⟩
    · cases h

theorem updateTerm_term (h : t.updateTerm term = .ok t') : t'.term = term := by
  rcases updateTerm_ok h with ⟨hterm, rfl⟩ | ⟨-, rfl⟩
  · exact hterm
  · rfl

/-- An RPC of a term that is over is not looked at; another one is compared, in its term. -/
theorem react_ok {remote : Addr} {remoteTerm : Int} {rpcLsn : Int32} {ignored : Bool}
    (h : t.react remote remoteTerm rpcLsn = .ok (ignored, t')) :
    remoteTerm < t.term ∧ ignored = false ∧ t' = t ∨
    ∃ t₁, t.updateTerm remoteTerm = .ok t₁ ∧
      (rpcLsn ≤ t₁.followerRpcLsn.get remote ∧ ignored = true ∧ t' = t₁ ∨
        t₁.followerRpcLsn.get remote < rpcLsn ∧ ignored = false ∧
          t' = { t₁ with followerRpcLsn := t₁.followerRpcLsn.set remote rpcLsn }) := by
  unfold react at h
  split at h
  · simp only [Except.ok.injEq, Prod.mk.injEq] at h
    exact .inl ⟨‹_›, h.1.symm, h.2.symm⟩
  · obtain ⟨t₁, ht₁, h⟩ := Except.bind_eq_ok.mp h
    have h := Except.pure_eq_ok.mp h
    refine .inr ⟨t₁, ht₁, ?_⟩
    unfold shouldIgnoreRemoteRpc at h
    split at h
    · simp only [Prod.mk.injEq] at h
      exact .inl ⟨‹_›, h.1.symm, h.2.symm⟩
    · simp only [Prod.mk.injEq] at h
      exact .inr ⟨Int32.not_le.mp ‹_›, h.1.symm, h.2.symm⟩

theorem updateTerm_self (t : LsnTables) : t.updateTerm t.term = .ok t := by
  simp [updateTerm]

theorem updateTerm_eq_ok (hle : t.term ≤ term) : ∃ t', t.updateTerm term = .ok t' ∧ t'.term = term := by
  unfold updateTerm
  split
  · exact ⟨_, rfl, rfl⟩
  · exact ⟨t, if_pos (by omega), by omega⟩

theorem react_eq {remote : Addr} {rpcLsn : Int32} (hle : t.term ≤ term) (ht : t.updateTerm term = .ok t') :
    t.react remote term rpcLsn = .ok (t'.shouldIgnoreRemoteRpc remote rpcLsn) := by
  simp only [react, Int.not_lt.mpr hle, if_false, ht]
  rfl

theorem react_taken {t₁ : LsnTables} {remote : Addr} {rpcLsn : Int32} (hle : t.term ≤ term)
    (ht : t.updateTerm term = .ok t₁) (hlt : t₁.followerRpcLsn.get remote < rpcLsn) :
    ∃ t', t.react remote term rpcLsn = .ok (false, t') ∧ t'.term = t₁.term ∧
    t'.followerRpcLsn.get remote = rpcLsn := by
  rw [react_eq hle ht, shouldIgnoreRemoteRpc, if_neg (Int32.not_le.mpr hlt)]
  exact ⟨_, rfl, rfl, StdMap.get_set_self _ _ _⟩

theorem react_dropped {remote : Addr} {rpcLsn : Int32} (hle : rpcLsn ≤ t.followerRpcLsn.get remote) :
    t.react remote t.term rpcLsn = .ok (true, t) := by
  rw [react_eq (Int.le_refl _) (updateTerm_self t), shouldIgnoreRemoteRpc, if_pos hle]

/-- The RPCs built are counted on, or counted anew in a new term. -/
def Continues (t t' : LsnTables) : Prop :=
  t'.configuration = t.configuration ∧
    (t'.term = t.term ∧ t'.currentRpcLsn = t.currentRpcLsn ∨
      t.term < t'.term ∧ t'.currentRpcLsn = t.currentRpcLsn.setAll t.configuration 0)

theorem updateTerm_continues (h : t.updateTerm term = .ok t') : t.Continues t' := by
  rcases updateTerm_ok h with ⟨-, rfl⟩ | ⟨hlt, rfl⟩
  · exact ⟨rfl, .inl ⟨rfl, rfl⟩⟩
  · exact ⟨rfl, .inr ⟨hlt, rfl⟩⟩

theorem react_continues {remote : Addr} {remoteTerm : Int} {rpcLsn : Int32} {ignored : Bool}
    (h : t.react remote remoteTerm rpcLsn = .ok (ignored, t')) : t.Continues t' := by
  rcases react_ok h with ⟨-, -, rfl⟩ | ⟨t₁, ht₁, ⟨-, -, rfl⟩ | ⟨-, -, rfl⟩⟩
  · exact ⟨rfl, .inl ⟨rfl, rfl⟩⟩
  · exact updateTerm_continues ht₁
  · have h := updateTerm_continues ht₁
    exact h

end LsnTables

namespace LsnServer

variable {configuration : List Addr} {caller server : Addr} {s s' t t' : LsnServer} {e : LsnEvent}

/-- An event builds one RPC or none. -/
theorem step_calls (h : step s e = .ok s') :
    s'.calls = s.calls ∧ s.tables.Continues s'.tables ∨
    ∃ server, s' = s.call server := by
  cases e with
  | updateTerm term =>
    obtain ⟨t, ht, h⟩ := Except.bind_eq_ok.mp h
    obtain rfl := Except.pure_eq_ok.mp h
    exact .inl ⟨rfl, LsnTables.updateTerm_continues ht⟩
  | call server => exact .inr ⟨server, (Except.ok.inj h).symm⟩
  | receive remote remoteTerm rpcLsn =>
    obtain ⟨⟨ignored, t⟩, ht, h⟩ := Except.bind_eq_ok.mp h
    obtain rfl := Except.pure_eq_ok.mp h
    exact .inl ⟨rfl, LsnTables.react_continues ht⟩

theorem callsTo_call (dst server : Addr) : (s.call dst).callsTo server =
    if dst = server then ⟨dst, s.tables.term, s.tables.currentRpcLsn.get dst⟩ :: s.callsTo server
    else s.callsTo server := by
  by_cases hdst : dst = server
  · rw [if_pos hdst]
    exact List.filter_cons_of_pos (by simp [hdst, call, LsnTables.buildRpcString])
  · rw [if_neg hdst]
    exact List.filter_cons_of_neg (by simp [hdst])

theorem currentRpcLsn_call (dst server : Addr) : (s.call dst).tables.currentRpcLsn.get server =
    if server = dst then s.tables.currentRpcLsn.get dst + 1 else s.tables.currentRpcLsn.get server :=
  StdMap.get_set _ _ _ _

theorem Numbered.start (configuration : List Addr) : Numbered configuration ⟨.start configuration, []⟩ where
  known := rfl
  nonneg := Int.le_refl 0
  term_le := nofun
  counted _ _ := .nil
  current server hserver := by
    show (StdMap.empty.setAll configuration 0).get server = _
    rw [StdMap.get_setAll, if_pos hserver]
    rfl

theorem Numbered.step (h : Numbered configuration s) (hstep : step s e = .ok s') : Numbered configuration s' := by
  rcases step_calls hstep with ⟨hcalls, hconf, ⟨hterm, hcur⟩ | ⟨hlt, hcur⟩⟩ | ⟨dst, rfl⟩
  · have hto : ∀ server, s'.callsTo server = s.callsTo server := fun server => by rw [callsTo, hcalls, hterm]; rfl
    exact ⟨hconf.trans h.known, by rw [hterm]; exact h.nonneg, by rw [hcalls, hterm]; exact h.term_le,
      by simpa only [hto] using h.counted, by simpa only [hto, hcur] using h.current⟩
  · -- no RPC is of the new term
    have hto : ∀ server, s'.callsTo server = [] := fun server => by
      rw [callsTo, hcalls, List.filter_eq_nil_iff]
      intro call hcall
      have := h.term_le call hcall
      simp only [decide_eq_true_eq, not_and]
      omega
    have hnonneg := h.nonneg
    refine ⟨hconf.trans h.known, by omega, fun call hcall => ?_, fun server _ => by rw [hto]; exact .nil,
      fun server hserver => ?_⟩
    · have := h.term_le call (hcalls ▸ hcall)
      omega
    · rw [hto, hcur, StdMap.get_setAll, h.known, if_pos hserver]
      rfl
  · refine ⟨h.known, h.nonneg, fun call hcall => ?_, fun server hserver => ?_, fun server hserver => ?_⟩
    · rcases List.mem_cons.mp hcall with rfl | hcall
      · exact Int.le_refl _
      · exact h.term_le call hcall
    · have hcounted := h.counted server hserver
      rw [callsTo_call]
      split
      · rename_i hdst
        subst hdst
        have hnext := hcounted.cons
        rw [List.length_map, ← h.current dst hserver] at hnext
        exact hnext
      · exact hcounted
    · rw [callsTo_call, currentRpcLsn_call]
      by_cases hdst : dst = server
      · subst hdst
        simp [h.current dst hserver]
      · simp [hdst, Ne.symm hdst, h.current server hserver]

theorem run_concat (events : List LsnEvent) (e : LsnEvent) :
    run configuration (events ++ [e]) = (run configuration events).bind (step · e) := by
  simp only [run, List.foldlM_append, List.foldlM_cons, List.foldlM_nil, bind_pure]
  rfl

theorem Numbered.run {events : List LsnEvent} (hrun : run configuration events = .ok s) :
    Numbered configuration s := by
  induction events using List.reverseRecOn generalizing s with
  | nil =>
    obtain rfl := Except.ok.inj hrun
    exact .start configuration
  | append_singleton events e ih =>
    rw [run_concat] at hrun
    obtain ⟨s₀, hrun₀, hstep⟩ := Except.bind_eq_ok.mp hrun
    exact (ih hrun₀).step hstep

/-- A server has taken nothing of another in the term, or an RPC that was sent to it. -/
def Heard (calls : List LsnCall) (caller server : Addr) (t : LsnTables) : Prop :=
  t.followerRpcLsn.get caller = -1 ∨ ⟨server, t.term, t.followerRpcLsn.get caller⟩ ∈ calls

theorem Heard.updateTerm {calls : List LsnCall} {t t' : LsnTables} {term : Int} (h : Heard calls caller server t)
    (hcaller : caller ∈ t.configuration) (ht : t.updateTerm term = .ok t') : Heard calls caller server t' := by
  rcases LsnTables.updateTerm_ok ht with ⟨-, rfl⟩ | ⟨-, rfl⟩
  · exact h
  · refine .inl ?_
    show (t.followerRpcLsn.setAll t.configuration (-1)).get caller = -1
    rw [StdMap.get_setAll, if_pos hcaller]

theorem Heard.react {calls : List LsnCall} {t t' : LsnTables} {remote : Addr} {remoteTerm : Int} {rpcLsn : Int32}
    {ignored : Bool} (h : Heard calls caller server t) (hcaller : caller ∈ t.configuration)
    (hsent : remote = caller → ⟨server, remoteTerm, rpcLsn⟩ ∈ calls)
    (ht : t.react remote remoteTerm rpcLsn = .ok (ignored, t')) : Heard calls caller server t' := by
  rcases LsnTables.react_ok ht with ⟨-, -, rfl⟩ | ⟨t₁, ht₁, ⟨-, -, rfl⟩ | ⟨-, -, rfl⟩⟩
  · exact h
  · exact h.updateTerm hcaller ht₁
  · have h₁ := h.updateTerm hcaller ht₁
    have hterm := LsnTables.updateTerm_term ht₁
    unfold Heard
    dsimp only
    by_cases hremote : caller = remote
    · subst hremote
      rw [StdMap.get_set_self, hterm]
      exact .inr (hsent rfl)
    · rw [StdMap.get_set_ne _ _ hremote]
      exact h₁

theorem heard_start (calls : List LsnCall) (hcaller : caller ∈ configuration) :
    Heard calls caller server (.start configuration) := by
  refine .inl ?_
  show (StdMap.empty.setAll configuration (-1)).get caller = -1
  rw [StdMap.get_setAll, if_pos hcaller]

theorem ReceivesFrom.heard (h : ReceivesFrom configuration caller server s t) (hcaller : caller ∈ configuration) :
    Numbered configuration t ∧ Heard s.calls caller server t.tables := by
  obtain ⟨events, hrun, hsent⟩ := h
  refine ⟨.run hrun, ?_⟩
  induction events using List.reverseRecOn generalizing t with
  | nil =>
    obtain rfl := Except.ok.inj hrun
    exact heard_start s.calls hcaller
  | append_singleton events e ih =>
    rw [run_concat] at hrun
    obtain ⟨t₀, hrun₀, hstep⟩ := Except.bind_eq_ok.mp hrun
    have h := ih hrun₀ fun term lsn he => hsent term lsn (List.mem_append_left _ he)
    have hcaller₀ : caller ∈ t₀.tables.configuration := (Numbered.run hrun₀).known ▸ hcaller
    cases e with
    | updateTerm term =>
      obtain ⟨t₁, ht₁, hstep⟩ := Except.bind_eq_ok.mp hstep
      obtain rfl := Except.pure_eq_ok.mp hstep
      exact h.updateTerm hcaller₀ ht₁
    | call dst =>
      obtain rfl := Except.ok.inj hstep
      exact h
    | receive remote remoteTerm rpcLsn =>
      obtain ⟨⟨ignored, t₁⟩, ht₁, hstep⟩ := Except.bind_eq_ok.mp hstep
      obtain rfl := Except.pure_eq_ok.mp hstep
      refine h.react hcaller₀ (fun hremote => hsent remoteTerm rpcLsn ?_) ht₁
      simp [hremote]

/-! ## The next RPC -/

theorem Numbered.lt_next_iff (h : Numbered configuration s) (hserver : server ∈ configuration) :
    (∀ call ∈ s.callsTo server, call.lsn < s.tables.currentRpcLsn.get server) ↔
    (s.callsTo server).length < 2 ^ 31 := by
  have hiff := (h.counted server hserver).lt_next_iff
  rw [List.length_map, ← h.current server hserver, List.forall_mem_map] at hiff
  exact hiff

/-- Below the counter's end the next RPC is above what the server has of the term. -/
theorem Numbered.above_heard (h : Numbered configuration s) (hserver : server ∈ configuration)
    (hcount : (s.callsTo server).length < 2 ^ 31) {t : LsnTables} (ht : Heard s.calls caller server t)
    (hterm : t.term = s.tables.term) : t.followerRpcLsn.get caller < s.tables.currentRpcLsn.get server := by
  rcases ht with hnone | hsent
  · rw [hnone, h.current server hserver]
    exact Counter.neg_one_lt_ofNat hcount
  · rw [hterm] at hsent
    have hlt := (h.lt_next_iff hserver).mpr hcount _ (List.mem_filter.mpr ⟨hsent, by simp⟩)
    exact hlt

theorem Numbered.fresh (h : Numbered configuration s) (hcaller : caller ∈ configuration)
    (hserver : server ∈ configuration) (hcount : (s.callsTo server).length < 2 ^ 31) : Fresh configuration
    caller server s := by
  have hlt := (h.lt_next_iff hserver).mpr hcount
  refine ⟨hlt, fun t ht ignored tables hreact => ?_, ?_, fun call hcall => ?_⟩
  · obtain ⟨hnumbered, hheard⟩ := ht.heard hcaller
    rcases LsnTables.react_ok hreact with ⟨-, rfl, -⟩ | ⟨t₁, ht₁, ⟨hle, -, -⟩ | ⟨-, rfl, -⟩⟩
    · rfl
    · have hterm := LsnTables.updateTerm_term ht₁
      have habove := h.above_heard hserver hcount (hheard.updateTerm (hnumbered.known ▸ hcaller) ht₁) hterm
      exact absurd hle (Int32.not_le.mpr habove)
    · rfl
  · simp [LsnTables.dealsResp, LsnTables.buildRpcString]
  · have hne := Int32.ne_of_lt (hlt call hcall)
    simp [LsnTables.dealsResp, LsnTables.buildRpcString, Ne.symm hne]

/-- **The lsn of the next RPC serves its purpose for the first 2^31 RPCs of a term, and no longer.** -/
theorem lsn_fresh_iff {events : List LsnEvent} (hrun : run configuration events = .ok s)
    (hcaller : caller ∈ configuration) (hserver : server ∈ configuration) : Fresh configuration caller server
    s ↔ (s.callsTo server).length < 2 ^ 31 :=
  ⟨fun h => ((Numbered.run hrun).lt_next_iff hserver).mp h.larger, (Numbered.run hrun).fresh hcaller hserver⟩

/-- Of the RPCs of `threeServers`' first server to its second, the third of the term. -/
theorem thirdRpc_fresh : ∃ s,
    run threeServers.configuration [.updateTerm 1, .call serverB, .call serverC, .call serverB] = .ok s ∧
    (s.callsTo serverB).length = 2 ∧ Fresh threeServers.configuration serverA serverB s :=
  ⟨_, rfl, by decide, (lsn_fresh_iff (rfl : run threeServers.configuration
    [.updateTerm 1, .call serverB, .call serverC, .call serverB] = _) (by decide) (by decide)).mpr (by decide)⟩

/-! ## After the counter wraps -/

/-- A server that has taken the last RPC before the counter wraps drops the next one. -/
theorem Numbered.wrapped_dropped (h : Numbered configuration s) (hcaller : caller ∈ configuration)
    (hserver : server ∈ configuration) (hcount : 2 ^ 31 ≤ (s.callsTo server).length) :
    ∃ t, ReceivesFrom configuration caller server s t ∧
      ∃ tables, t.tables.react caller s.tables.term (s.tables.buildRpcString server).1 = .ok (true, tables) := by
  obtain ⟨last, hlast, hlsn⟩ : ∃ call ∈ s.callsTo server, call.lsn = Int32.ofNat (2 ^ 31 - 1) :=
    List.mem_map.mp ((h.counted server hserver).mem_iff.mpr ⟨2 ^ 31 - 1, by rw [List.length_map]; omega, rfl⟩)
  -- a server that is given this RPC first
  obtain ⟨t₁, ht₁, hterm⟩ := @LsnTables.updateTerm_eq_ok (.start configuration) s.tables.term h.nonneg
  have hheard : Heard [] caller server t₁ := (heard_start [] hcaller).updateTerm hcaller ht₁
  have hnone : t₁.followerRpcLsn.get caller = -1 := by simpa [Heard] using hheard
  obtain ⟨t, htaken, hterm', hget⟩ := @LsnTables.react_taken _ _ t₁ caller last.lsn h.nonneg ht₁
    (by rw [hnone, hlsn]; exact Counter.neg_one_lt_ofNat (by omega))
  refine ⟨⟨t, []⟩, ⟨[.receive caller s.tables.term last.lsn], ?_, fun term lsn hm => ?_⟩, t, ?_⟩
  · simp only [LsnServer.run, List.foldlM_cons, List.foldlM_nil, LsnServer.step, htaken]
    rfl
  · obtain ⟨-, rfl, rfl⟩ := LsnEvent.receive.inj (List.mem_singleton.mp hm)
    have hcall := List.mem_filter.mp hlast
    simp only [decide_eq_true_eq] at hcall
    obtain ⟨hcalls, rfl, hof⟩ := hcall
    rw [← hof]
    exact hcalls
  · rw [← hterm, ← hterm']
    exact LsnTables.react_dropped (by rw [hget, hlsn]; exact Int32.not_lt.mp (Counter.not_maxValue_lt _))

theorem foldlM_calls (server : Addr) : ∀ (n : Nat) (s : LsnServer), ∃ s',
    (List.replicate n (.call server)).foldlM step s = .ok s' ∧
      (s'.callsTo server).length = (s.callsTo server).length + n := by
  intro n
  induction n with
  | zero => exact fun s => ⟨s, rfl, rfl⟩
  | succ n ih =>
    intro s
    obtain ⟨s', hrun, hlen⟩ := ih (s.call server)
    rw [callsTo_call, if_pos rfl, List.length_cons] at hlen
    exact ⟨s', by rw [List.replicate_succ, List.foldlM_cons]; exact hrun, by omega⟩

theorem run_calls (configuration : List Addr) (server : Addr) (n : Nat) : ∃ s,
    run configuration (.updateTerm 1 :: List.replicate n (.call server)) = .ok s ∧
    (s.callsTo server).length = n := by
  obtain ⟨s, hrun, hlen⟩ :=
    foldlM_calls server n ⟨{ (LsnTables.start configuration).resetBothRpcLsn with term := 1 }, []⟩
  refine ⟨s, ?_, hlen.trans (Nat.zero_add n)⟩
  rw [run, List.foldlM_cons]
  exact hrun

/-- 2^31 RPCs to a server in a term: one that has taken the last of them drops the next. -/
theorem longTerm_not_fresh :
    ¬ ∀ (events : List LsnEvent) (s : LsnServer), run threeServers.configuration events = .ok s →
    Fresh threeServers.configuration serverA serverB s := by
  intro hall
  obtain ⟨s, hrun, hlen⟩ := run_calls threeServers.configuration serverB (2 ^ 31)
  have hA : serverA ∈ threeServers.configuration := by decide
  have hB : serverB ∈ threeServers.configuration := by decide
  obtain ⟨t, ht, tables, hdropped⟩ := (Numbered.run hrun).wrapped_dropped hA hB (Nat.le_of_eq hlen.symm)
  cases (hall _ s hrun).taken t ht true tables hdropped

end LsnServer

end MyRaft
