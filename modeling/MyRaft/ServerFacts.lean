/-
What each handler of `RaftServer` does when it returns: the state it leaves in
closed form, with the checks it passed.

The closed forms name the few moves the handlers are made of (`becomeFollower`,
`recordLsn`, `sent`, ..); the theorems about the reacting functions are
disjunctions, one case per way through the source.
-/
import MyRaft.Cluster
import MyRaft.Lib.Except

namespace MyRaft

open StdLib (StdMap)
open Except (bind_eq_ok bind_ne_error map_eq_ok map_ne_error pure_eq_ok)

namespace RaftServer

variable {s s' : RaftServer}

/-! ## Becoming a follower -/

/-- What `trans2F` leaves. -/
@[simps] def becomeFollower (term : Int) (s : RaftServer) : RaftServer :=
  { s with
    term := term
    state := .follower
    alreadyVoted := false
    winnedVotes := 0
    currentRpcLsn := if s.term < term then s.currentRpcLsn.setAll s.configuration 0 else s.currentRpcLsn
    followerRpcLsn := if s.term < term then s.followerRpcLsn.setAll s.configuration (-1) else s.followerRpcLsn
    candidateTimer := ⟨false, [.trans2F]⟩
    retryTimers := s.retryTimers.mapValues Timer.expiresAtMin }

theorem trans2F_eq_ok (term : Int) (h : s.term ≤ term) : s.trans2F term = .ok (s.becomeFollower term) := by
  unfold trans2F updateTerm
  by_cases hlt : s.term < term
  · simp [cancelAllTimers, resetBothRpcLsn, hlt, becomeFollower, bind, Except.bind, pure, Except.pure,
      Timer.expiresFromNow, Timer.expiresAtMin, Timer.asyncWait]
  · have he : s.term = term := by omega
    subst he
    simp [cancelAllTimers, becomeFollower, bind, Except.bind, pure, Except.pure,
      Timer.expiresFromNow, Timer.expiresAtMin, Timer.asyncWait]

theorem trans2F_ok {term : Int} (h : s.trans2F term = .ok s') : s.term ≤ term ∧ s' = s.becomeFollower term := by
  by_cases hle : s.term ≤ term
  · rw [trans2F_eq_ok term hle] at h
    exact ⟨hle, (Except.ok.inj h).symm⟩
  · exfalso
    unfold trans2F updateTerm at h
    simp [cancelAllTimers, show ¬ s.term < term by omega, show ¬ s.term = term by omega,
      bind, Except.bind] at h

/-! ## Sending RVs and AEs -/

/-- The server after a call to `x` whose retry timer is now `timer`. -/
@[simps] def called (x : Addr) (rpc : Rpc) (timer : Timer) (s : RaftServer) : RaftServer :=
  { s with
    currentRpcLsn := s.currentRpcLsn.set x (s.currentRpcLsn.get x + 1)
    effects := s.effects ++ [.rpc x rpc]
    retryTimers := s.retryTimers.set x timer }

/-- The RV a server sends to `x`. -/
def rvTo (x : Addr) (s : RaftServer) : RequestVoteRpc := (s.buildRpcRvString x).1

/-- A timer after `expires_from_now`, and `async_wait` where that cancelled nothing. -/
def rearmed (h : TimerHandler) (timer : Timer) : Timer := ⟨false, if timer.waits = [] then [h] else []⟩

theorem mem_rearmed {h k : TimerHandler} {timer : Timer} (hk : k ∈ (rearmed h timer).waits) : k = h := by
  simp only [rearmed] at hk
  split at hk
  · exact List.mem_singleton.mp hk
  · cases hk

theorem timerTo_ok {x : Addr} {timer : Timer} (h : s.timerTo x = .ok timer) :
    s.retryTimers.find? x ≠ none ∧ timer = s.retryTimers.get x := by
  unfold timerTo at h
  unfold StdMap.get
  split at h
  · rename_i hfind
    cases h
    simp [hfind]
  · cases h

theorem timerTo_eq_ok {x : Addr} (h : s.retryTimers.find? x ≠ none) : s.timerTo x = .ok (s.retryTimers.get x) := by
  simp [timerTo, StdMap.find?_eq_get h]

theorem timerTo_ne_error {x : Addr} {exn : Exn} (h : exn ≠ .nullTimer) : s.timerTo x ≠ .error exn := by
  unfold timerTo
  split
  · nofun
  · rintro ⟨⟩
    exact h rfl

theorem RV_eq (x : Addr) : s.RV x =
    (fun timer => s.called x (.requestVote (s.rvTo x)) (rearmed (.RV x) timer)) <$> s.timerTo x := by
  unfold RV timerTo
  cases hfind : s.retryTimers.find? x with
  | none => simp [buildRpcRvString, makeRpcCall, hfind, bind, Except.bind]
  | some timer =>
    by_cases hw : timer.waits = []
    · simp [buildRpcRvString, makeRpcCall, Timer.expiresFromNow, Timer.asyncWait, hfind, hw, called, rvTo, rearmed,
        bind, Except.bind, pure, Except.pure]
    · simp [buildRpcRvString, makeRpcCall, Timer.expiresFromNow, hfind, hw, called, rvTo, rearmed, bind,
        Except.bind,
        pure, Except.pure]

theorem RV_ok {x : Addr} (h : s.RV x = .ok s') : s.retryTimers.find? x ≠ none ∧
    s' = s.called x (.requestVote (s.rvTo x)) (rearmed (.RV x) (s.retryTimers.get x)) := by
  rw [RV_eq, map_eq_ok] at h
  obtain ⟨timer, htimer, rfl⟩ := h
  obtain ⟨hfind, rfl⟩ := timerTo_ok htimer
  exact ⟨hfind, rfl⟩

theorem RV_eq_ok {x : Addr} (h : s.retryTimers.find? x ≠ none) :
    s.RV x = .ok (s.called x (.requestVote (s.rvTo x)) (rearmed (.RV x) (s.retryTimers.get x))) := by
  rw [RV_eq, timerTo_eq_ok h]
  rfl

theorem RV_ne_error {x : Addr} {exn : Exn} (h : exn ≠ .nullTimer) : s.RV x ≠ .error exn := by
  rw [RV_eq]
  exact map_ne_error (timerTo_ne_error h)

/-- `rpc` is an AE built from the state `s` for the entry at position `n`. -/
structure BuiltAe (s : RaftServer) (x : Addr) (n : Nat) (rpc : AppendEntryRpc) : Prop where
  next : s.nextIndex.get x = n
  le : n ≤ s.entries.log.length
  term : rpc.term = s.term
  commitIndex : rpc.commitIndex = s.commitIndex
  server : rpc.server = s.server
  prelogIndex : rpc.prelogIndex = n - 1
  prelogTerm : rpc.prelogTerm = if n = 0 then -1 else (s.entries.log[n - 1]?.map (·.term)).getD 0
  entry : rpc.entry = s.entries.log[n]?.toList

theorem buildRpcAeString_ok {x : Addr} {rpc : AppendEntryRpc} (h : s.buildRpcAeString x = .ok (rpc, s')) :
    (∃ n, BuiltAe s x n rpc) ∧ rpc.lsn = s.currentRpcLsn.get x ∧
      s' = { s with currentRpcLsn := s.currentRpcLsn.set x (s.currentRpcLsn.get x + 1) } := by
  simp only [buildRpcAeString, bind_eq_ok, pure_eq_ok, Prod.mk.injEq] at h
  obtain ⟨prelogTerm, hpt, entry, hen, rfl, rfl⟩ := h
  refine ⟨?_, rfl, rfl⟩
  rw [Entries.size_eq] at hen
  -- the position is a natural number not past the end: the log was read there
  have hpos : ∃ n : Nat, s.nextIndex.get x = n ∧ n ≤ s.entries.log.length ∧ entry = s.entries.log[n]?.toList := by
    split at hen
    · rename_i he
      rw [pure_eq_ok] at hen
      exact ⟨_, he, Nat.le_refl _, by simp [← hen]⟩
    · rw [map_eq_ok] at hen
      obtain ⟨e, hg, rfl⟩ := hen
      obtain ⟨n, hn, hl⟩ := Entries.get_ok hg
      exact ⟨n, hn, (List.getElem?_eq_some_iff.mp hl).1.le, by simp [hl]⟩
  obtain ⟨n, hn, hle, hent⟩ := hpos
  refine ⟨n, hn, hle, rfl, rfl, rfl, by simp [hn], ?_, hent⟩
  rw [hn] at hpt
  split at hpt
  · rename_i hp
    rw [map_eq_ok] at hpt
    obtain ⟨e, hg, rfl⟩ := hpt
    obtain ⟨m, hm, hl⟩ := Entries.get_ok hg
    have hm' : n - 1 = m := by omega
    have hn0 : n ≠ 0 := by omega
    simp [hn0, hm', hl]
  · rename_i hp
    have hn0 : n = 0 := by omega
    rw [pure_eq_ok] at hpt
    simp [hn0, hpt]

theorem AE_ok {x : Addr} (h : s.AE x = .ok s') :
    ∃ n rpc, BuiltAe s x n rpc ∧ rpc.lsn = s.currentRpcLsn.get x ∧ (s.retryTimers.get x).waits = [] ∧
      s' = s.called x (.appendEntry rpc) ⟨false, [.AE x]⟩ := by
  simp only [AE, bind_eq_ok] at h
  obtain ⟨⟨rpc, s₁⟩, hb, timer, htimer, h⟩ := h
  obtain ⟨⟨n, hn⟩, hl, rfl⟩ := buildRpcAeString_ok hb
  obtain ⟨-, rfl⟩ := timerTo_ok htimer
  by_cases hw : (s.retryTimers.get x).waits = []
  · simp only [makeRpcCall, Timer.expiresFromNow, hw, List.length_nil, ne_eq, not_true, if_false, pure_eq_ok] at h
    exact ⟨n, rpc, hn, hl, hw, h.symm⟩
  · simp [makeRpcCall, Timer.expiresFromNow, hw, throw, throwThe, MonadExceptOf.throw] at h

/-! ## Calling every other server -/

/-- The servers a server calls: the others, told apart by their port. -/
def others (s : RaftServer) : List Addr := s.configuration.filter fun x => x.port ≠ s.server.port

/-- `t` is `s` after one call to each of `xs`, with its lsn and message. -/
structure CalledAll (s : RaftServer) (xs : List Addr) (rpc : Addr → Rpc) (kind : Addr → TimerHandler)
    (t : RaftServer) : Prop where
  frame : ∃ cur timers, t = { s with
    currentRpcLsn := cur
    retryTimers := timers
    effects := s.effects ++ xs.map fun x => .rpc x (rpc x) }
  lsn : ∀ x, t.currentRpcLsn.get x = s.currentRpcLsn.get x + if x ∈ xs then 1 else 0
  waits : ∀ x, ∀ h ∈ (t.retryTimers.get x).waits, h = kind x ∨ h ∈ (s.retryTimers.get x).waits
  timers : ∀ x, x ∉ xs → t.retryTimers.get x = s.retryTimers.get x
  armed : ∀ x ∈ xs, t.retryTimers.get x = rearmed (kind x) (s.retryTimers.get x)
  bound : ∀ x, s.retryTimers.find? x ≠ none → t.retryTimers.find? x ≠ none

theorem CalledAll.nil (rpc : Addr → Rpc) (kind : Addr → TimerHandler) : CalledAll s [] rpc kind s where
  frame := ⟨s.currentRpcLsn, s.retryTimers, by simp⟩
  lsn := by simp
  waits := fun _ _ h => .inr h
  timers := fun _ _ => rfl
  armed := by simp
  bound := fun _ h => h

/-- One call before the others. -/
theorem CalledAll.cons {xs : List Addr} {rpc : Addr → Rpc} {kind : Addr → TimerHandler} {x : Addr}
    {timer : Timer} {t : RaftServer} (hx : x ∉ xs) (htimer : timer = rearmed (kind x) (s.retryTimers.get x))
    (h : CalledAll (s.called x (rpc x) timer) xs rpc kind t) : CalledAll s (x :: xs) rpc kind t where
  frame := by
    obtain ⟨cur, timers, he⟩ := h.frame
    exact ⟨cur, timers, by rw [he]; simp [called]⟩
  lsn := fun y => by
    rw [h.lsn y]
    simp only [called, StdMap.get_set, List.mem_cons]
    by_cases hy : y = x
    · subst hy; simp [hx]
    · simp [hy]
  waits := fun y hd hm => by
    rcases h.waits y hd hm with hk | hm
    · exact .inl hk
    · simp only [called, StdMap.get_set] at hm
      split at hm
      · rename_i hy
        subst hy
        rw [htimer] at hm
        exact .inl (mem_rearmed hm)
      · exact .inr hm
  timers := fun y hy => by
    simp only [List.mem_cons, not_or] at hy
    rw [h.timers y hy.2]
    simp [called, StdMap.get_set_ne _ _ hy.1]
  armed := fun y hy => by
    rcases List.mem_cons.mp hy with rfl | hy
    · rw [h.timers y hx]
      simp [called, htimer]
    · have hne : y ≠ x := fun he => hx (he ▸ hy)
      rw [h.armed y hy]
      simp [called, StdMap.get_set_ne _ _ hne]
  bound := fun y hy => h.bound y (by
    simp only [called, StdMap.find?_set]
    split
    · simp
    · exact hy)

/-- A single call. -/
theorem CalledAll.one {rpc : Addr → Rpc} {kind : Addr → TimerHandler} {x : Addr} {timer : Timer}
    (htimer : timer = rearmed (kind x) (s.retryTimers.get x)) :
    CalledAll s [x] rpc kind (s.called x (rpc x) timer) :=
  .cons (by simp) htimer (.nil _ _)

theorem rvTo_called {x y : Addr} (hxy : x ≠ y) (rpc : Rpc) (timer : Timer) :
    (s.called x rpc timer).rvTo y = s.rvTo y := by
  simp [rvTo, buildRpcRvString, called, StdMap.get_set_ne _ _ (Ne.symm hxy)]

/-- The loop of `trans2C`. -/
theorem foldlM_RV (xs : List Addr) (hn : xs.Nodup) :
    ∀ {s t : RaftServer} (rv : Addr → RequestVoteRpc), (∀ x ∈ xs, s.rvTo x = rv x) →
      xs.foldlM (fun s x => if x.port ≠ s.server.port then s.RV x else pure s) s = .ok t →
      CalledAll s (xs.filter fun x => x.port ≠ s.server.port) (fun x => .requestVote (rv x)) .RV t := by
  induction xs with
  | nil =>
    intro s t rv _ h
    rw [List.foldlM_nil, pure_eq_ok] at h
    exact h ▸ .nil _ _
  | cons x xs ih =>
    intro s t rv hrv h
    rw [List.nodup_cons] at hn
    simp only [List.foldlM_cons, bind_eq_ok] at h
    obtain ⟨s₁, h₁, h⟩ := h
    by_cases hp : x.port = s.server.port
    · simp only [hp, ne_eq, not_true, if_false, pure_eq_ok] at h₁
      subst h₁
      simpa [hp] using ih hn.2 rv (fun y hy => hrv y (by simp [hy])) h
    · simp only [hp, ne_eq, not_false_eq_true, if_true] at h₁
      obtain ⟨-, rfl⟩ := RV_ok h₁
      rw [hrv x (by simp)] at h
      have hih := ih hn.2 rv (fun y hy => by
        have hxy : x ≠ y := fun he => hn.1 (he ▸ hy)
        rw [rvTo_called hxy, hrv y (by simp [hy])]) h
      simp only [ne_eq, hp, not_false_eq_true, decide_true, List.filter_cons_of_pos]
      exact .cons (by simp [hn.1]) rfl hih

/-- It ends when the servers that are called have timers. -/
theorem exists_foldlM_RV (xs : List Addr) : ∀ {s : RaftServer}, (∀ x ∈ xs, s.retryTimers.find? x ≠ none) →
    ∃ t, xs.foldlM (fun s x => if x.port ≠ s.server.port then s.RV x else pure s) s = .ok t := by
  induction xs with
  | nil => exact fun _ => ⟨_, rfl⟩
  | cons x xs ih =>
    intro s hs
    rw [List.foldlM_cons]
    split
    · rw [RV_eq_ok (hs x (by simp))]
      refine ih fun y hy => ?_
      rw [called_retryTimers, StdMap.find?_set]
      split
      · simp
      · exact hs y (by simp [hy])
    · exact ih fun y hy => hs y (by simp [hy])

theorem BuiltAe.of_called {x y : Addr} {rpc : Rpc} {timer : Timer} {n : Nat} {ae : AppendEntryRpc}
    (h : BuiltAe (s.called x rpc timer) y n ae) : BuiltAe s y n ae :=
  ⟨h.next, h.le, h.term, h.commitIndex, h.server, h.prelogIndex, h.prelogTerm, h.entry⟩

/-- The loop of `trans2P`. -/
theorem foldlM_AE (xs : List Addr) (hn : xs.Nodup) :
    ∀ {s t : RaftServer},
      xs.foldlM (fun s x => if x.port ≠ s.server.port then s.AE x else pure s) s = .ok t →
      ∃ ae : Addr → AppendEntryRpc,
        (∀ x ∈ xs, x.port ≠ s.server.port → (ae x).lsn = s.currentRpcLsn.get x ∧ ∃ n, BuiltAe s x n (ae x)) ∧
        CalledAll s (xs.filter fun x => x.port ≠ s.server.port) (fun x => .appendEntry (ae x)) .AE t := by
  induction xs with
  | nil =>
    intro s t h
    simp only [List.foldlM_nil, pure_eq_ok] at h
    subst h
    exact ⟨fun _ => ⟨0, 0, 0, 0, "", 0, [], 0⟩, by simp, .nil _ _⟩
  | cons x xs ih =>
    intro s t h
    rw [List.nodup_cons] at hn
    simp only [List.foldlM_cons, bind_eq_ok] at h
    obtain ⟨s₁, h₁, h⟩ := h
    by_cases hp : x.port = s.server.port
    · simp only [hp, ne_eq, not_true, if_false, pure_eq_ok] at h₁
      subst h₁
      obtain ⟨ae, hae, hall⟩ := ih hn.2 h
      refine ⟨ae, fun y hy hyp => ?_, by simpa [hp] using hall⟩
      rcases List.mem_cons.mp hy with rfl | hy
      · exact absurd hp hyp
      · exact hae y hy hyp
    · simp only [hp, ne_eq, not_false_eq_true, if_true] at h₁
      obtain ⟨n, rpc, hb, hl, hw, rfl⟩ := AE_ok h₁
      obtain ⟨ae, hae, hall⟩ := ih hn.2 h
      have hne : ∀ y ∈ xs, y ≠ x := fun y hy he => hn.1 (he ▸ hy)
      refine ⟨Function.update ae x rpc, fun y hy hyp => ?_, ?_⟩
      · rcases List.mem_cons.mp hy with rfl | hy
        · simpa using ⟨hl, n, hb⟩
        · obtain ⟨hly, m, hm⟩ := hae y hy hyp
          simp only [called, StdMap.get_set_ne _ _ (hne y hy)] at hly
          simpa [Function.update_of_ne (hne y hy)] using ⟨hly, m, hm.of_called⟩
      · simp only [ne_eq, hp, not_false_eq_true, decide_true, List.filter_cons_of_pos]
        refine @CalledAll.cons _ _ _ _ _ ⟨false, [.AE x]⟩ _ (by simp [hn.1]) (by simp [rearmed, hw]) ?_
        have hfun : ∀ y ∈ xs.filter (fun y => y.port ≠ s.server.port),
            Effect.rpc y (.appendEntry (Function.update ae x rpc y)) = .rpc y (.appendEntry (ae y)) :=
            fun y hy => by
          rw [Function.update_of_ne (hne y (List.mem_of_mem_filter hy))]
        have hfr := hall.frame
        refine ⟨?_, hall.lsn, hall.waits, hall.timers, hall.armed, hall.bound⟩
        rw [Function.update_self, List.map_congr_left hfun]
        exact hfr

/-! ## Candidates and primaries -/

/-- What `trans2C` leaves, before the RVs. -/
@[simps] def becomeCandidate (s : RaftServer) : RaftServer :=
  { s with
    term := s.term + 1
    state := .candidate
    winnedVotes := 1
    currentRpcLsn := s.currentRpcLsn.setAll s.configuration 0
    followerRpcLsn := s.followerRpcLsn.setAll s.configuration (-1)
    candidateTimer := ⟨false, [.trans2C]⟩
    retryTimers := s.retryTimers.mapValues Timer.expiresAtMin }

theorem trans2C_eq : s.trans2C = s.configuration.foldlM
    (fun s x => if x.port ≠ s.server.port then s.RV x else pure s) s.becomeCandidate := by
  simp only [trans2C, updateTerm, cancelAllTimers, resetBothRpcLsn, Int.lt_succ, if_true, bind, Except.bind,
    Timer.expiresAtMin, Timer.expiresFromNow, List.length_nil, ne_eq, not_true, if_false, Timer.asyncWait,
    List.nil_append]
  rfl

theorem trans2C_ok (hn : s.configuration.Nodup) (h : s.trans2C = .ok s') :
    CalledAll s.becomeCandidate s.others (fun x => .requestVote (s.becomeCandidate.rvTo x)) .RV s' := by
  rw [trans2C_eq] at h
  exact foldlM_RV s.configuration hn _ (fun _ _ => rfl) h

theorem find?_becomeCandidate {x : Addr} (h : s.retryTimers.find? x ≠ none) :
    s.becomeCandidate.retryTimers.find? x ≠ none := by
  rw [becomeCandidate_retryTimers, StdMap.find?_mapValues]
  simpa using h

/-- The timer is cancelled first and the term grows: `trans2C` throws nothing. -/
theorem exists_trans2C (h : ∀ x ∈ s.configuration, s.retryTimers.find? x ≠ none) : ∃ s', s.trans2C = .ok s' := by
  rw [trans2C_eq]
  exact exists_foldlM_RV s.configuration fun x hx => find?_becomeCandidate (h x hx)

theorem trans2C_ne_error {exn : Exn} (h : exn ≠ .nullTimer) : s.trans2C ≠ .error exn := by
  rw [trans2C_eq]
  generalize s.becomeCandidate = t
  induction s.configuration generalizing t with
  | nil => nofun
  | cons x xs ih =>
    rw [List.foldlM_cons]
    refine bind_ne_error ?_ fun _ _ => ih _
    split
    · exact RV_ne_error h
    · nofun

/-- What `trans2P` leaves, before the AEs. -/
@[simps] def becomePrimary (s : RaftServer) : RaftServer :=
  { s with
    state := .primary
    nextIndex := s.nextIndex.setAll s.configuration s.entries.size
    followerSavedIndex := (s.followerSavedIndex.setAll s.configuration (-1)).set s.server (s.entries.size - 1)
    candidateTimer := ⟨true, []⟩
    retryTimers := s.retryTimers.mapValues Timer.expiresAtMin }

theorem trans2P_ok (hn : s.configuration.Nodup) (h : s.trans2P = .ok s') :
    ∃ ae : Addr → AppendEntryRpc,
      (∀ x ∈ s.others, (ae x).lsn = s.currentRpcLsn.get x ∧ ∃ n, BuiltAe s.becomePrimary x n (ae x)) ∧
      CalledAll s.becomePrimary s.others (fun x => .appendEntry (ae x)) .AE s' := by
  obtain ⟨ae, hae, hall⟩ := foldlM_AE s.configuration hn h
  refine ⟨ae, fun x hx => ?_, hall⟩
  obtain ⟨hm, hp⟩ := List.mem_filter.mp hx
  exact hae x hm (of_decide_eq_true hp)

/-! ## Commit indexes -/

/-- A task of the write pool: an index, and the message its entry had. -/
def taskOf (task : Int × String) : Effect := .apply task.1 task.2

/-- The tasks of the next `rounds` indexes behind `first`, with the messages of the log. -/
structure Next (entries : Entries) (first : Int) (rounds : Nat) (tasks : List (Int × String)) : Prop where
  indexes : tasks.map Prod.fst = (List.range rounds).map fun k : Nat => first + k
  msgs : ∀ task ∈ tasks, ∃ entry, entries.get task.1 = .ok entry ∧ entry.msg = task.2

theorem applyLoop_next : ∀ (rounds : Nat) {s s' : RaftServer}, s.applyLoop rounds = .ok s' →
    ∃ tasks, Next s.entries (s.smc.appliedIndex + 1) rounds tasks ∧
      s' = { s with
        smc := { s.smc with appliedIndex := s.smc.appliedIndex + rounds }
        effects := s.effects ++ tasks.map taskOf }
  | 0, s, s', h => by
    cases h
    exact ⟨[], ⟨rfl, nofun⟩, by simp⟩
  | rounds + 1, s, s', h => by
    simp only [applyLoop, applyEntry, bind_eq_ok, pure_eq_ok] at h
    obtain ⟨_, ⟨entry, hget, rfl⟩, h⟩ := h
    obtain ⟨tasks, ⟨hindexes, hmsgs⟩, rfl⟩ := applyLoop_next rounds h
    refine ⟨(s.smc.appliedIndex + 1, entry.msg) :: tasks, ⟨?_, ?_⟩, by simp [taskOf]; omega⟩
    · rw [List.map_cons, hindexes, List.range_succ_eq_map, List.map_cons, List.map_map]
      simp only [Function.comp_def]
      congr 1
      · omega
      · exact List.map_congr_left fun k _ => by omega
    · intro task ht
      rcases List.mem_cons.mp ht with rfl | ht
      · exact ⟨entry, hget, rfl⟩
      · exact hmsgs task ht

/-- Tasks for entries of the log of `s` past the applied index and up to `last`. -/
def Tasks (s : RaftServer) (last : Int) (tasks : List Effect) : Prop :=
  ∀ task ∈ tasks, ∃ (i : Nat) (entry : RpcEntry), task = .apply i entry.msg ∧
    s.entries.log[i]? = some entry ∧ s.smc.appliedIndex < i ∧ i ≤ last

theorem Next.tasks {rounds : Nat} {tasks : List (Int × String)}
    (h : Next s.entries (s.smc.appliedIndex + 1) rounds tasks) :
    Tasks s (s.smc.appliedIndex + rounds) (tasks.map taskOf) := by
  intro f hf
  obtain ⟨task, ht, rfl⟩ := List.mem_map.mp hf
  obtain ⟨entry, hget, hmsg⟩ := h.msgs task ht
  obtain ⟨i, hi, hentry⟩ := Entries.get_ok hget
  have hindex : task.1 ∈ tasks.map Prod.fst := List.mem_map_of_mem ht
  rw [h.indexes] at hindex
  obtain ⟨k, hk, hk'⟩ := List.mem_map.mp hindex
  have := List.mem_range.mp hk
  exact ⟨i, entry, by rw [taskOf, hi, hmsg], hentry, by omega, by omega⟩

theorem applyLoop_ok {rounds : Nat} (h : s.applyLoop rounds = .ok s') :
    ∃ tasks, Tasks s (s.smc.appliedIndex + rounds) tasks ∧
      s' = { s with
        smc := { s.smc with appliedIndex := s.smc.appliedIndex + rounds }
        effects := s.effects ++ tasks } := by
  obtain ⟨tasks, hnext, rfl⟩ := applyLoop_next rounds h
  exact ⟨_, hnext.tasks, rfl⟩

theorem updateCommitIndexAndApply_ok {newIndex : Int} (h : s.updateCommitIndexAndApply newIndex = .ok s') :
    ∃ tasks, Tasks s newIndex tasks ∧
      s' = { s with
        smc := ⟨max s.smc.appliedIndex newIndex, newIndex⟩
        effects := s.effects ++ tasks } := by
  obtain ⟨tasks, ht, rfl⟩ := applyLoop_ok h
  simp only at ht
  have hmax : s.smc.appliedIndex + ((newIndex - s.smc.appliedIndex).toNat : Int) =
      max s.smc.appliedIndex newIndex := by omega
  refine ⟨tasks, fun task hm => ?_, by simp only [hmax]⟩
  obtain ⟨i, entry, h1, h2, h3, h4⟩ := ht task hm
  simp only at h3
  exact ⟨i, entry, h1, h2, h3, by omega⟩

/-- The index a primary commits: the one `majority_ - 1` others of the sorted
vector are not below. -/
def majorityIndex (s : RaftServer) : Int := s.tempSort.getD (s.majority - 1).toNat 0

/-- The server with the index a follower has acknowledged on record. -/
@[simps] def saved (x : Addr) (index : Int) (s : RaftServer) : RaftServer :=
  { s with followerSavedIndex := s.followerSavedIndex.set x index }

/-- What a new commit index leaves: the entries up to it are handed over. -/
@[simps] def committedTo (index : Int) (smc : StateMachineControler) (tasks : List Effect) (s : RaftServer) :
    RaftServer :=
  { s with commitIndex := index, smc := smc, effects := s.effects ++ tasks }

theorem primaryUpdateCommitIndex_ok {x : Addr} {index : Int}
    (h : s.primaryUpdateCommitIndex x index = .ok s') :
    ∃ tasks, Tasks s (s.saved x index).majorityIndex tasks ∧
      s' = (s.saved x index).committedTo (s.saved x index).majorityIndex
        ⟨max s.smc.appliedIndex (s.saved x index).majorityIndex, (s.saved x index).majorityIndex⟩
        (.committed (s.saved x index).majorityIndex :: tasks) := by
  unfold primaryUpdateCommitIndex at h
  dsimp only at h
  split at h
  · cases h
  · obtain ⟨tasks, ht, rfl⟩ := updateCommitIndexAndApply_ok h
    exact ⟨tasks, ht, by simp [saved, committedTo, majorityIndex, tempSort]⟩

/-- The index a follower commits on an AE with `remoteCommitIndex`. -/
def cappedIndex (remoteCommitIndex : Int) (s : RaftServer) : Int :=
  min (s.entries.size - 1) remoteCommitIndex

theorem cappedIndex_eq (remoteCommitIndex : Int) :
    (if s.entries.size - 1 < remoteCommitIndex then s.entries.size - 1 else remoteCommitIndex) =
      s.cappedIndex remoteCommitIndex := by
  unfold cappedIndex
  split <;> omega

theorem followerUpdateCommitIndex_ok {remoteCommitIndex : Int}
    (h : s.followerUpdateCommitIndex remoteCommitIndex = .ok s') :
    s.commitIndex ≤ s.cappedIndex remoteCommitIndex ∧
    ∃ smc tasks, Tasks s (s.cappedIndex remoteCommitIndex) tasks ∧
      (smc = s.smc ∧ s.cappedIndex remoteCommitIndex = s.commitIndex ∧ tasks = [] ∨
        smc = ⟨max s.smc.appliedIndex (s.cappedIndex remoteCommitIndex), s.cappedIndex remoteCommitIndex⟩) ∧
      s' = s.committedTo (s.cappedIndex remoteCommitIndex) smc tasks := by
  simp only [followerUpdateCommitIndex, cappedIndex_eq] at h
  split at h
  · cases h
  · rename_i hge
    split at h
    · obtain ⟨tasks, ht, rfl⟩ := updateCommitIndexAndApply_ok h
      exact ⟨by omega, _, tasks, ht, .inr rfl, rfl⟩
    · rename_i hle
      have he : s.cappedIndex remoteCommitIndex = s.commitIndex := by omega
      rw [he] at h ⊢
      cases h
      exact ⟨by omega, s.smc, [], by simp [Tasks], .inl ⟨rfl, rfl, rfl⟩, by simp [committedTo]⟩

/-! ## Requests -/

/-- A server that has seen the term of a request. -/
def heard (term : Int) (s : RaftServer) : RaftServer := if s.term < term then s.becomeFollower term else s

/-- The lsn of a request is recorded once it is not ignored. -/
@[simps] def recordLsn (x : Addr) (lsn : Int) (s : RaftServer) : RaftServer :=
  { s with followerRpcLsn := s.followerRpcLsn.set x lsn }

theorem shouldIgnoreRemoteRpc_eq (x : Addr) (lsn : Int) :
    s.shouldIgnoreRemoteRpc x lsn =
      if lsn ≤ s.followerRpcLsn.get x then (true, s) else (false, s.recordLsn x lsn) := rfl

/-- A server that has granted its vote. -/
def voted (rv : RequestVoteRpc) (s : RaftServer) : RaftServer :=
  { (s.recordLsn rv.server rv.lsn).makeRespRv true rv.server rv.lsn with alreadyVoted := true }

/-- The check of the log compares the last entry with the term and the index of the RV. -/
theorem shouldVote_eq (s : RaftServer) (remoteTerm remoteLatestIndex : Int) :
    s.shouldVote remoteTerm remoteLatestIndex = .ok (decide (∀ last ∈ s.entries.log.getLast?,
      last.term < remoteTerm ∨ last.term = remoteTerm ∧ last.index ≤ remoteLatestIndex)) := by
  have hsize := s.entries.size_eq
  unfold shouldVote
  rcases List.eq_nil_or_concat s.entries.log with hlog | ⟨init, last, hlog⟩
  · rw [if_pos (by rw [hsize, hlog]; rfl), hlog]
    rfl
  · rw [hlog, List.concat_eq_append, List.length_append, List.length_singleton] at hsize
    have hget : s.entries.get (s.entries.size - 1) = .ok last := by
      rw [hsize, show ((init.length + 1 : Nat) : Int) - 1 = (init.length : Nat) by omega]
      exact Entries.get_eq_ok (by simp [hlog])
    rw [if_neg (by omega), hget, hlog, List.concat_eq_append, List.getLast?_append]
    simp only [bind, Except.bind, pure, Except.pure, Except.ok.injEq]
    grind

theorem heard_eq_ok {term : Int} (hle : s.term ≤ term) :
    (if s.term < term then s.trans2F term else pure s) = .ok (s.heard term) := by
  unfold heard
  split
  · exact trans2F_eq_ok _ hle
  · rfl

theorem shouldVote_recordLsn {rv : RequestVoteRpc} :
    ((s.heard rv.term).recordLsn rv.server rv.lsn).shouldVote rv.term rv.latestIndex =
      s.shouldVote rv.term rv.latestIndex := by
  unfold heard
  split <;> rfl

theorem react2rv_ok {rv : RequestVoteRpc} (h : s.react2rv rv = .ok s') :
    rv.term < s.term ∧ s' = s.makeRespRv false rv.server rv.lsn ∨
    s.term ≤ rv.term ∧
      (rv.lsn ≤ (s.heard rv.term).followerRpcLsn.get rv.server ∧ s' = s.heard rv.term ∨
      (s.heard rv.term).followerRpcLsn.get rv.server < rv.lsn ∧
        (s' = ((s.heard rv.term).recordLsn rv.server rv.lsn).makeRespRv false rv.server rv.lsn ∨
        (s.heard rv.term).state = .follower ∧ (s.heard rv.term).alreadyVoted = false ∧
          s.shouldVote rv.term rv.latestIndex = .ok true ∧ s' = (s.heard rv.term).voted rv)) := by
  unfold react2rv at h
  split at h
  · rename_i hgt
    cases h
    exact .inl ⟨hgt, rfl⟩
  rename_i hle
  have hle : s.term ≤ rv.term := by omega
  refine .inr ⟨hle, ?_⟩
  rw [heard_eq_ok hle, bind_eq_ok] at h
  obtain ⟨_, hs, h⟩ := h
  cases hs
  by_cases hlsn : rv.lsn ≤ (s.heard rv.term).followerRpcLsn.get rv.server
  · simp only [shouldIgnoreRemoteRpc_eq, hlsn, if_true, pure_eq_ok] at h
    exact .inl ⟨hlsn, h.symm⟩
  simp only [shouldIgnoreRemoteRpc_eq, hlsn, if_false, Bool.false_eq_true] at h
  refine .inr ⟨by omega, ?_⟩
  split at h
  · rw [pure_eq_ok] at h
    exact .inl h.symm
  rename_i hst
  have hfol : (s.heard rv.term).state = .follower := by
    have hrec : ((s.heard rv.term).recordLsn rv.server rv.lsn).state = (s.heard rv.term).state := rfl
    rw [hrec] at hst
    cases hq : (s.heard rv.term).state <;> simp_all
  split at h
  · rename_i hv
    rw [shouldVote_recordLsn, bind_eq_ok] at h
    obtain ⟨b, hb, h⟩ := h
    cases b with
    | true =>
      simp only [if_true, pure_eq_ok] at h
      exact .inr ⟨hfol, by simpa [recordLsn] using hv, hb, h.symm⟩
    | false =>
      simp only [Bool.false_eq_true, if_false, pure_eq_ok] at h
      exact .inl h.symm
  · rw [pure_eq_ok] at h
    exact .inl h.symm

/-- An RV that passes all checks has the vote. -/
theorem react2rv_granted {rv : RequestVoteRpc} (hle : s.term ≤ rv.term)
    (hlsn : (s.heard rv.term).followerRpcLsn.get rv.server < rv.lsn) (hstate : (s.heard rv.term).state = .follower)
    (hvoted : (s.heard rv.term).alreadyVoted = false) (hlog : s.shouldVote rv.term rv.latestIndex = .ok true) :
    s.react2rv rv = .ok ((s.heard rv.term).voted rv) := by
  have hignore : ¬ rv.lsn ≤ (s.heard rv.term).followerRpcLsn.get rv.server := by omega
  have hfollower : ¬ (((s.heard rv.term).recordLsn rv.server rv.lsn).state = .candidate ∨
      ((s.heard rv.term).recordLsn rv.server rv.lsn).state = .primary) := by
    rw [recordLsn_state, hstate]
    rintro (h | h) <;> cases h
  unfold react2rv
  rw [if_neg (by omega), heard_eq_ok hle]
  simp only [bind, Except.bind, shouldIgnoreRemoteRpc_eq, if_neg hignore, Bool.false_eq_true, if_false]
  rw [if_neg hfollower, if_pos (by simp [recordLsn, hvoted]), shouldVote_recordLsn, hlog]
  rfl

/-- `react2rv` throws nothing. -/
theorem react2rv_ne_error {rv : RequestVoteRpc} {exn : Exn} : s.react2rv rv ≠ .error exn := by
  unfold react2rv
  split
  · nofun
  refine bind_ne_error ?_ fun y _ => ?_
  · rw [heard_eq_ok (by omega)]
    nofun
  · dsimp only
    split
    · nofun
    split
    · nofun
    split
    · rw [shouldVote_eq]
      refine bind_ne_error (by nofun) fun b _ => ?_
      split <;> nofun
    · nofun

/-- The log has an entry of that term at that index; nothing is asked at `-1`. -/
def PrelogOk (s : RaftServer) (prelogIndex prelogTerm : Int) : Prop :=
  prelogIndex = -1 ∨ ∃ (i : Nat) (entry : RpcEntry), prelogIndex = i ∧ s.entries.log[i]? = some entry ∧
    entry.term = prelogTerm

theorem prelogMatches_ok {prelogIndex prelogTerm : Int} {b : Bool}
    (h : s.prelogMatches prelogIndex prelogTerm = .ok b) : b = true ↔ PrelogOk s prelogIndex prelogTerm := by
  unfold prelogMatches at h
  rw [Entries.size_eq] at h
  split at h
  · rename_i hi
    split at h
    · cases h
    · cases h
      simp [PrelogOk, hi]
  · rename_i hi
    split at h
    · rename_i hge
      cases h
      simp only [Bool.false_eq_true, false_iff]
      rintro (hm | ⟨i, entry, he, hl, -⟩)
      · exact hi hm
      · have := (List.getElem?_eq_some_iff.mp hl).1
        omega
    · rw [bind_eq_ok] at h
      obtain ⟨entry, hg, h⟩ := h
      obtain ⟨i, rfl, hl⟩ := Entries.get_ok hg
      rw [pure_eq_ok] at h
      subst h
      simp only [decide_eq_true_eq]
      constructor
      · intro ht
        exact .inr ⟨i, entry, rfl, hl, ht.symm⟩
      · rintro (hm | ⟨j, entry', he, hl', ht⟩)
        · exact absurd hm hi
        · obtain rfl : i = j := by omega
          rw [hl] at hl'
          cases hl'
          exact ht.symm

theorem prelogMatches_eq_ok {prelogIndex prelogTerm : Int} (hlo : -1 ≤ prelogIndex)
    (hterm : prelogIndex = -1 → prelogTerm = -1) : ∃ b, s.prelogMatches prelogIndex prelogTerm = .ok b := by
  unfold prelogMatches
  rw [Entries.size_eq]
  split
  · rename_i hi
    rw [if_neg (by simp [hterm hi])]
    exact ⟨true, rfl⟩
  · split
    · exact ⟨false, rfl⟩
    · rename_i hi hlt
      obtain ⟨i, rfl⟩ : ∃ i : Nat, prelogIndex = i := ⟨prelogIndex.toNat, by omega⟩
      have hi' : i < s.entries.log.length := by omega
      rw [Entries.get_eq_ok (List.getElem?_eq_getElem hi')]
      exact ⟨_, rfl⟩

/-- The log an accepted AE leaves behind: cut and extended by its entry, or as it was. -/
def AcceptedLog (s : RaftServer) (ae : AppendEntryRpc) (log : List RpcEntry) : Prop :=
  match ae.entry with
  | [] => ae.commitIndex ≤ s.entries.log.length ∧ log = s.entries.log
  | entry :: _ => ∃ n : Nat, ae.prelogIndex + 1 = n ∧ entry.index = n ∧ n ≤ s.entries.log.length ∧
      log = s.entries.log.take n ++ [entry]

/-- A follower that answers an AE, after the checks of term and lsn. -/
def following (ae : AppendEntryRpc) (s : RaftServer) : RaftServer :=
  (s.becomeFollower ae.term).recordLsn ae.server ae.lsn

/-- The reply to an AE. -/
def respondAe (ok : Bool) (ae : AppendEntryRpc) (s : RaftServer) : RaftServer :=
  s.makeRespAe ok ae.server ae.lsn ae.isEmptyAe

theorem react2ae_ok {ae : AppendEntryRpc} (h : s.react2ae ae = .ok s') :
    ae.term < s.term ∧ s' = s.respondAe false ae ∨
    s.term ≤ ae.term ∧ ¬ (s.state = .primary ∧ s.term = ae.term) ∧
      (ae.lsn ≤ (s.becomeFollower ae.term).followerRpcLsn.get ae.server ∧ s' = s.becomeFollower ae.term ∨
      (s.becomeFollower ae.term).followerRpcLsn.get ae.server < ae.lsn ∧
        (¬ PrelogOk s ae.prelogIndex ae.prelogTerm ∧ s' = (s.following ae).respondAe false ae ∨
        PrelogOk s ae.prelogIndex ae.prelogTerm ∧ ∃ (es : Entries) (smc : StateMachineControler)
          (tasks : List Effect) (t : RaftServer), t = { s.following ae with entries := es } ∧
          AcceptedLog s ae es.log ∧ s.commitIndex ≤ t.cappedIndex ae.commitIndex ∧
          Tasks t (t.cappedIndex ae.commitIndex) tasks ∧
          (smc = s.smc ∧ t.cappedIndex ae.commitIndex = s.commitIndex ∧ tasks = [] ∨
            smc = ⟨max s.smc.appliedIndex (t.cappedIndex ae.commitIndex), t.cappedIndex ae.commitIndex⟩) ∧
          s' = (t.committedTo (t.cappedIndex ae.commitIndex) smc tasks).respondAe true ae)) := by
  unfold react2ae at h
  split at h
  · cases h
  split at h
  · rename_i hgt
    cases h
    exact .inl ⟨hgt, rfl⟩
  rename_i hle
  split at h
  · cases h
  rename_i hnp
  refine .inr ⟨by omega, hnp, ?_⟩
  rw [trans2F_eq_ok _ (by omega), bind_eq_ok] at h
  obtain ⟨_, hs, h⟩ := h
  cases hs
  by_cases hlsn : ae.lsn ≤ (s.becomeFollower ae.term).followerRpcLsn.get ae.server
  · simp only [shouldIgnoreRemoteRpc_eq, hlsn, if_true, pure_eq_ok] at h
    exact .inl ⟨hlsn, h.symm⟩
  simp only [shouldIgnoreRemoteRpc_eq, hlsn, if_false, Bool.false_eq_true] at h
  refine .inr ⟨by omega, ?_⟩
  rw [bind_eq_ok] at h
  obtain ⟨b, hb, h⟩ := h
  have hb' : b = true ↔ PrelogOk s ae.prelogIndex ae.prelogTerm := prelogMatches_ok hb
  cases b with
  | false =>
    simp only [Bool.not_false, if_true, pure_eq_ok] at h
    exact .inl ⟨by simpa using hb', h.symm⟩
  | true =>
    simp only [Bool.not_true, Bool.false_eq_true, if_false] at h
    refine .inr ⟨hb'.mp rfl, ?_⟩
    split at h
    · rename_i hent
      split at h
      · cases h
      · rename_i hsz
        rw [bind_eq_ok] at h
        obtain ⟨t', ht', h⟩ := h
        rw [pure_eq_ok] at h
        obtain ⟨hc, smc, tasks, htk, hsmc, rfl⟩ := followerUpdateCommitIndex_ok ht'
        refine ⟨s.entries, smc, tasks, s.following ae, rfl, ?_, hc, htk, hsmc, h.symm⟩
        have hsz' : ¬ s.entries.size < ae.commitIndex := hsz
        rw [Entries.size_eq] at hsz'
        simp only [AcceptedLog, hent]
        exact ⟨by omega, trivial⟩
    · rename_i entry tail hent
      split at h
      · cases h
      · rename_i hidx
        rw [bind_eq_ok] at h
        obtain ⟨es, hes, h⟩ := h
        rw [bind_eq_ok] at h
        obtain ⟨t', ht', h⟩ := h
        rw [pure_eq_ok] at h
        obtain ⟨hc, smc, tasks, htk, hsmc, rfl⟩ := followerUpdateCommitIndex_ok ht'
        obtain ⟨n, hn, hle', hlog⟩ := Entries.insert_ok hes
        refine ⟨es, smc, tasks, { s.following ae with entries := es }, rfl, ?_, hc, htk, hsmc, h.symm⟩
        simp only [AcceptedLog, hent]
        exact ⟨n, hn, by simp only [ne_eq, not_not] at hidx; omega, hle', hlog⟩

/-! ## Replies -/

/-- The server with a retry timer set to `timer`. -/
@[simps] def retryTimer (x : Addr) (timer : Timer) (s : RaftServer) : RaftServer :=
  { s with retryTimers := s.retryTimers.set x timer }

/-- The server with another entry to send next. -/
@[simps] def sendNext (x : Addr) (index : Int) (s : RaftServer) : RaftServer :=
  { s with nextIndex := s.nextIndex.set x index }

theorem primaryDealRespAeWithSameTerm_ok {x : Addr} {resp : RespAppendEntryRpc}
    (h : s.primaryDealRespAeWithSameTerm x resp = .ok s') :
    s.currentRpcLsn.get x ≠ resp.lsn + 1 ∧ s' = s ∨
    s.currentRpcLsn.get x = resp.lsn + 1 ∧
      (resp.ok = true ∧ s.nextIndex.get x = s.entries.size ∧
        s.primaryUpdateCommitIndex x (s.nextIndex.get x - 1) = .ok s' ∨
      resp.ok = true ∧ s.nextIndex.get x < s.entries.size ∧
        (∃ t timer, (if resp.isEmptyAe then s.primaryUpdateCommitIndex x (s.nextIndex.get x - 1)
            else (s.sendNext x (s.nextIndex.get x + 1)).primaryUpdateCommitIndex x (s.nextIndex.get x)) = .ok t ∧
          timer.waits = [] ∧ (t.retryTimer x timer).AE x = .ok s') ∨
      resp.ok = false ∧ s.nextIndex.get x ≠ 0 ∧
        ∃ timer, timer.waits = [] ∧
          ((s.sendNext x (s.nextIndex.get x - 1)).retryTimer x timer).AE x = .ok s') := by
  unfold primaryDealRespAeWithSameTerm at h
  split at h
  · rename_i hl
    cases h
    exact .inl ⟨hl, rfl⟩
  rename_i hl
  refine .inr ⟨by simpa using hl, ?_⟩
  dsimp only at h
  split at h
  · rename_i hok
    split at h
    · cases h
    · rename_i hle
      split at h
      · rename_i he
        exact .inl ⟨hok, he, h⟩
      · rename_i hne
        rw [bind_eq_ok] at h
        obtain ⟨t, ht, h⟩ := h
        rw [bind_eq_ok] at h
        obtain ⟨timer, -, h⟩ := h
        exact .inr (.inl ⟨hok, by omega, t, timer.expiresAtMin, ht, rfl, h⟩)
  · rename_i hok
    split at h
    · cases h
    · rename_i hne
      rw [bind_eq_ok] at h
      obtain ⟨timer, -, h⟩ := h
      exact .inr (.inr ⟨by simpa using hok, hne, timer.cancel, rfl, h⟩)

theorem candidateDealRespRvWithSameTerm_ok {x : Addr} {resp : RespRequestVoteRpc}
    (h : s.candidateDealRespRvWithSameTerm x resp = .ok s') :
    s' = s ∨
    s.currentRpcLsn.get x = resp.lsn + 1 ∧ resp.ok = true ∧
      (s.majority ≤ s.winnedVotes + 1 ∧ { s with winnedVotes := s.winnedVotes + 1 }.trans2P = .ok s' ∨
      s.winnedVotes + 1 < s.majority ∧
        s' = { s with winnedVotes := s.winnedVotes + 1 }.retryTimer x (s.retryTimers.get x).expiresAtMin) := by
  unfold candidateDealRespRvWithSameTerm at h
  split at h
  · cases h
    exact .inl rfl
  rename_i hl
  split at h
  · rename_i hok
    refine .inr ⟨by simpa using hl, hok, ?_⟩
    dsimp only at h
    split at h
    · rename_i hm
      exact .inl ⟨hm, h⟩
    · rename_i hm
      rw [bind_eq_ok] at h
      obtain ⟨timer, htimer, h⟩ := h
      obtain ⟨-, rfl⟩ := timerTo_ok htimer
      rw [pure_eq_ok] at h
      exact .inr ⟨by omega, h.symm⟩
  · cases h
    exact .inl rfl

/-- A vote throws only where it makes a primary. -/
theorem react2respRv_ne_error {resp : RespRequestVoteRpc} {exn : Exn} (hnull : exn ≠ .nullTimer)
    (h : ∀ t : RaftServer, t.trans2P ≠ .error exn) :
    s.react2respRv resp ≠ .error exn := by
  unfold react2respRv
  split
  · rw [trans2F_eq_ok _ (by omega)]
    intro h
    cases h
  split
  · intro h
    cases h
  split
  · unfold candidateDealRespRvWithSameTerm
    split
    · intro h
      cases h
    split
    · dsimp only
      split
      · exact h _
      · exact bind_ne_error (timerTo_ne_error hnull) fun _ _ h => by cases h
    · intro h
      cases h
  · intro h
    cases h

theorem appendClientApplyToEntries_ok {client : Addr} {body : String}
    (h : s.appendClientApplyToEntries client body = .ok s') :
    ∃ es : Entries, es.log = s.entries.log ++ [⟨s.term, s.entries.log.length, body⟩] ∧
      s' = { s with
        entries := es
        entryIndexToSocketAddrMap := s.entryIndexToSocketAddrMap.set s.entries.log.length client
        followerSavedIndex := s.followerSavedIndex.set s.server s.entries.log.length } := by
  simp only [appendClientApplyToEntries, Entries.size_eq, bind_eq_ok, pure_eq_ok] at h
  obtain ⟨es, hes, rfl⟩ := h
  obtain ⟨n, hn, -, hlog⟩ := Entries.insert_ok hes
  refine ⟨es, ?_, rfl⟩
  rw [hlog, ← Int.ofNat_inj.mp hn, List.take_length]

end RaftServer

end MyRaft
