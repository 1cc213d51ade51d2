/-
The roles of one server, whatever reaches it and whenever its timers fire: the
messages of a run need not be those of other servers, nor its handlers those
it registered. A term holds at most one candidacy of the server, a follower of
a term is not its primary, and a primary of a term only adds to its log.
-/
import MyRaft.Replies
import Mathlib.Logic.Relation

namespace MyRaft

open Relation
open Except (bind_ne_error)
open RaftServer (Outcome LogMove Role)

namespace RaftServer

variable {x y : RaftServer} {exn : Exn}

/-! ## The exception of `update_term` -/

theorem insert_ne_error {es : Entries} {index : Int} {entry : RpcEntry}
    (h : ∀ size i, exn ≠ .entriesInsert size i) :
    es.insert index entry ≠ .error exn := by
  unfold Entries.insert
  split
  · rintro ⟨⟩
    exact h _ _ rfl
  · split <;> simp

theorem foldlM_AE_ne_error (h : exn.ofSend = false) : ∀ (xs : List Addr) {s : RaftServer},
    xs.foldlM (fun s server => if server.port ≠ s.server.port then s.AE server else pure s) s ≠ .error exn
  | [], _ => nofun
  | a :: xs, s => by
    rw [List.foldlM_cons]
    refine bind_ne_error ?_ fun _ _ => foldlM_AE_ne_error h xs
    split
    · exact AE_ne_error h
    · nofun

theorem followerUpdateCommitIndex_ne_error {remoteCommitIndex : Int} (h : exn.ofSend = false)
    (hne : exn ≠ .commitDecreases) : x.followerUpdateCommitIndex remoteCommitIndex ≠ .error exn := by
  simp only [followerUpdateCommitIndex, cappedIndex_eq]
  split
  · rintro ⟨⟩
    exact hne rfl
  · split
    · exact applyLoop_ne_error h _
    · simp

theorem react2ae_ne_termDecreases {ae : AppendEntryRpc} : x.react2ae ae ≠ .error .termDecreases := by
  unfold react2ae
  split
  · nofun
  split
  · nofun
  split
  · nofun
  refine bind_ne_error ?_ fun _ _ => ?_
  · rw [trans2F_eq_ok _ (by omega)]
    nofun
  dsimp only
  split
  · nofun
  refine bind_ne_error ?_ fun _ _ => ?_
  · unfold prelogMatches
    split
    · split <;> nofun
    · split
      · nofun
      · exact bind_ne_error (get_ne_error rfl) fun _ _ => nofun
  split
  · nofun
  split
  · split
    · nofun
    · exact bind_ne_error (followerUpdateCommitIndex_ne_error rfl nofun) fun _ _ => nofun
  · split
    · nofun
    · exact bind_ne_error (insert_ne_error nofun) fun _ _ =>
        bind_ne_error (followerUpdateCommitIndex_ne_error rfl nofun) fun _ _ => nofun

theorem react2respAe_ne_termDecreases {resp : RespAppendEntryRpc} : x.react2respAe resp ≠ .error .termDecreases :=
  fun h => by
    rcases react2respAe_error rfl h with ⟨he, -⟩ | he | ⟨he, -⟩
    · cases he
    · cases he
    · cases he

theorem onExpire_ne_termDecreases (handler : TimerHandler) : x.onExpire handler ≠ .error .termDecreases := by
  unfold onExpire
  cases handler with
  | run | trans2F | trans2C =>
    dsimp only
    split
    · nofun
    · exact trans2C_ne_error nofun
  | RV server =>
    dsimp only
    split
    · nofun
    · exact RV_ne_error nofun
  | AE server =>
    dsimp only
    split
    · nofun
    · exact AE_ne_error rfl

theorem reactToIncomingMsg_ne_termDecreases (rpc : Rpc) (peer : Addr) :
    x.reactToIncomingMsg rpc peer ≠ .error .termDecreases := by
  unfold reactToIncomingMsg
  cases rpc with
  | requestVote rv => exact react2rv_ne_error
  | appendEntry ae => exact react2ae_ne_termDecreases
  | respVote resp => exact react2respRv_ne_error nofun fun _ => foldlM_AE_ne_error rfl _
  | respAppend resp => exact react2respAe_ne_termDecreases
  | clientApply body => exact bind_ne_error (insert_ne_error nofun) fun _ _ => nofun
  | clientQuery | respClientApply | respClientQuery => nofun

/-- No handler lets the term of a server fall. -/
theorem handle_ne_termDecreases (input : Input) : x.handle input ≠ .error .termDecreases := by
  cases input with
  | message p => exact reactToIncomingMsg_ne_termDecreases _ _
  | clientApply client body => exact reactToIncomingMsg_ne_termDecreases (.clientApply body) client
  | timer handler => exact onExpire_ne_termDecreases handler
  | callback cb => cases cb <;> nofun
  | _ => nofun

end RaftServer

/-! ## Runs of one server -/

/-- A handler of the server runs and returns. -/
def Handles (x y : RaftServer) : Prop := ∃ input z, x.handle input = .ok z ∧ y = z.taken

/-- The server as the constructor leaves it, with the entries it has read from its files. -/
def RaftServer.startWith (s : Addr) (configuration : List Addr) (es : Entries) : RaftServer :=
  { RaftServer.start s configuration with entries := es }

/-- A handler runs `trans2C`, whatever the role of the server is. -/
def RunsTrans2C (x : RaftServer) (input : Input) : Prop :=
  x.candidateTimer.minDateTime = false ∧
    (input = .timer .run ∨ input = .timer .trans2F ∨ input = .timer .trans2C)

/-- The server enters candidate: a handler runs `trans2C`, also when the server
is a candidate already, or leaves a server of another role a candidate. -/
def EntersCandidate (x y : RaftServer) : Prop :=
  ∃ input z, x.handle input = .ok z ∧ y = z.taken ∧
    (RunsTrans2C x input ∨ x.state ≠ .candidate ∧ z.state = .candidate)

/-- An input as `reactToIncomingMsg` tells it apart. -/
def Input.plain : Input → Input
  | .message packet =>
    match packet.rpc with
    | .clientApply body => .clientApply packet.src body
    | .clientQuery body => .clientQuery packet.src body
    | _ => .message packet
  | input => input

theorem RaftServer.handle_plain {x : RaftServer} (input : Input) : x.handle input.plain = x.handle input := by
  unfold Input.plain
  cases input with
  | message p =>
    dsimp only
    split
    · rename_i body hb
      simp [RaftServer.handle, hb]
    · rename_i body hb
      simp [RaftServer.handle, hb]
    · rfl
  | _ => rfl

theorem Input.plain_ofServer {input : Input} {p : Packet} (h : input.plain = .message p) :
    p.rpc.ofServer = true := by
  unfold Input.plain at h
  cases input with
  | message q =>
    dsimp only at h
    split at h
    · cases h
    · cases h
    · rename_i h1 h2
      cases h
      cases hp : p.rpc with
      | clientApply body => exact absurd hp (h1 body)
      | clientQuery body => exact absurd hp (h2 body)
      | _ => rfl
  | _ => cases h

theorem Handles.outcome {x y : RaftServer} (hn : x.configuration.Nodup) (h : Handles x y) :
    ∃ input z, Outcome x input z ∧ y = z.taken := by
  obtain ⟨input, z, hz, rfl⟩ := h
  rw [← RaftServer.handle_plain] at hz
  exact ⟨input.plain, z, RaftServer.handle_outcome hn (fun _ => Input.plain_ofServer) hz, rfl⟩

/-- `y` follows `x`, and what a primary has added to its log is of its term. -/
structure After (x y : RaftServer) : Prop extends Since x y where
  configuration : y.configuration = x.configuration
  own : x.term = y.term → x.state = .primary →
    ∃ tail, y.entries.log = x.entries.log ++ tail ∧ ∀ entry ∈ tail, entry.term = x.term

theorem After.refl (x : RaftServer) : After x x :=
  ⟨Since.refl x, rfl, fun _ _ => ⟨[], (List.append_nil _).symm, by simp⟩⟩

theorem After.trans {x y z : RaftServer} (h : After x y) (h' : After y z) : After x z := by
  refine ⟨h.toSince.trans h'.toSince, h'.configuration.trans h.configuration, fun he hx => ?_⟩
  have h1 := h.term
  have h2 := h'.term
  have hxy : x.term = y.term := by omega
  obtain ⟨tail, hlog, hown⟩ := h.own hxy hx
  obtain ⟨tail', hlog', hown'⟩ := h'.own (by omega) (h.primary hxy hx)
  refine ⟨tail ++ tail', by rw [hlog', hlog, List.append_assoc], fun entry hm => ?_⟩
  rcases List.mem_append.mp hm with hm | hm
  · exact hown entry hm
  · rw [hown' entry hm, hxy]

theorem Handles.after {x y : RaftServer} (hn : x.configuration.Nodup) (h : Handles x y) : After x y := by
  obtain ⟨input, z, ho, rfl⟩ := h.outcome hn
  have hs := ho.since
  refine ⟨⟨hs.term, hs.primary, hs.follower, hs.log, hs.heard, hs.lsn⟩, ho.static.2.1, fun he hx => ?_⟩
  cases ho.log with
  | same hlog => exact ⟨[], by simpa using hlog, by simp⟩
  | appended _ _ _ hlog => exact ⟨_, hlog, by simp⟩
  | accepted _ _ ha => exact absurd ⟨hx, he.trans ha.term⟩ ha.not_primary

theorem after_of_run {x y : RaftServer} (hn : x.configuration.Nodup) (h : ReflTransGen Handles x y) :
    After x y := by
  induction h with
  | refl => exact .refl x
  | tail _ hs ih => exact ih.trans (hs.after (by rw [ih.configuration]; exact hn))

theorem RunsTrans2C.handle {x : RaftServer} {input : Input} (h : RunsTrans2C x input) :
    x.handle input = x.trans2C := by
  obtain ⟨htimer, rfl | rfl | rfl⟩ := h <;> simp [RaftServer.handle, RaftServer.onExpire, htimer]

/-- `trans2C` goes to the next term. -/
theorem RunsTrans2C.term {x z : RaftServer} {input : Input} (h : RunsTrans2C x input)
    (hz : x.handle input = .ok z) (hn : x.configuration.Nodup) : z.term = x.term + 1 := by
  rw [h.handle] at hz
  obtain ⟨cur, timers, rfl⟩ := (RaftServer.trans2C_ok hn hz).frame
  rfl

/-- A candidacy is in a new term. -/
theorem EntersCandidate.term_lt {x y : RaftServer} (hn : x.configuration.Nodup) (h : EntersCandidate x y) :
    x.term < y.term := by
  obtain ⟨input, z, hz, rfl, hruns | ⟨hx, hcandidate⟩⟩ := h
  · have hterm := hruns.term hz hn
    show x.term < z.term
    omega
  · -- only `trans2C` leaves a candidate where there was none
    obtain ⟨input', z', ho, heq⟩ := Handles.outcome hn ⟨input, z, hz, rfl⟩
    have hz' : z'.state = .candidate :=
      (congrArg RaftServer.state heq : z.taken.state = z'.taken.state).symm.trans hcandidate
    cases ho.role with
    | same _ hstate => exact absurd (hstate.symm.trans hz') hx
    | followed _ hstate =>
      rw [hz'] at hstate
      cases hstate
    | campaigned hterm =>
      have hsame : z.term = z'.term := (congrArg RaftServer.term heq : z.taken.term = z'.taken.term)
      show x.term < z.term
      omega
    | won _ _ hstate =>
      rw [hz'] at hstate
      cases hstate

/-- **Roles and log within a term.** -/
theorem roles_within_term {c : Cluster} {s : Addr} {es : Entries} {x y : RaftServer}
    (hx : ReflTransGen Handles (RaftServer.startWith s c.configuration es) x) (hy : ReflTransGen Handles x y) :
    (x.term ≤ y.term ∧ ∀ input, y.handle input ≠ .error .termDecreases) ∧
    (∀ w z, EntersCandidate w x → EntersCandidate y z → x.term ≠ z.term) ∧
    (x.term = y.term → x.state = .primary → y.state = .primary ∧
      ∃ tail, y.entries.log = x.entries.log ++ tail ∧ ∀ entry ∈ tail, entry.term = x.term) ∧
    (x.term = y.term → x.state = .follower → y.state ≠ .primary) := by
  have hn : x.configuration.Nodup := by
    rw [(after_of_run c.nodup hx).configuration]
    exact c.nodup
  have hxy := after_of_run hn hy
  refine ⟨⟨hxy.term, RaftServer.handle_ne_termDecreases⟩, fun w z _ hz => ?_, fun he hp => ?_, fun he hf => ?_⟩
  · have hlt := hz.term_lt (by rw [hxy.configuration]; exact hn)
    have := hxy.term
    omega
  · exact ⟨hxy.primary he hp, hxy.own he hp⟩
  · rw [hxy.follower he hf]
    nofun

/-- The server after some inputs, one after the other. -/
def RaftServer.handleAll (x : RaftServer) : List Input → Option RaftServer
  | [] => some x
  | input :: inputs => (x.handle input).toOption.bind fun z => z.taken.handleAll inputs

theorem RaftServer.handleAll_run {y : RaftServer} : ∀ {inputs : List Input} {x : RaftServer},
    x.handleAll inputs = some y → ReflTransGen Handles x y
  | [], _, h => by
    cases h
    exact .refl
  | input :: inputs, x, h => by
    obtain ⟨z, hz, h⟩ := Option.bind_eq_some_iff.mp h
    have hok : x.handle input = .ok z := by
      cases hh : x.handle input with
      | error exn => rw [hh] at hz; cases hz
      | ok w => rw [hh] at hz; cases hz; rfl
    exact .head ⟨input, z, hok, rfl⟩ (handleAll_run h)

theorem RaftServer.exists_handleAll (x : RaftServer) (inputs : List Input) {P : RaftServer → Prop}
    [DecidablePred P] (h : (x.handleAll inputs).any (fun y => decide (P y)) = true) : ∃ y,
    ReflTransGen Handles x y ∧ P y := by
  obtain ⟨y, hy, hP⟩ := (Option.any_eq_true _ _).mp h
  exact ⟨y, handleAll_run hy, of_decide_eq_true hP⟩

/-- `trans2C` throws nothing where each server has its retry timer. -/
theorem RunsTrans2C.enters {x : RaftServer} {input : Input} (h : RunsTrans2C x input)
    (htimers : ∀ a ∈ x.configuration, x.retryTimers.find? a ≠ none) :
    ∃ y, EntersCandidate x y ∧ y = (x.trans2C.toOption.getD x).taken := by
  obtain ⟨z, hz⟩ := RaftServer.exists_trans2C htimers
  rw [hz]
  exact ⟨z.taken, ⟨input, z, h.handle.trans hz, rfl, .inl h⟩, rfl⟩

/-- B votes for A in term 1. -/
def voteB : Input :=
  .message ⟨serverB, serverA, .respVote ⟨true, 1, 0, serverB.ip, serverB.port⟩, none, .start serverB []⟩

/-- C is primary of term 2. -/
def heartbeatC : Input :=
  .message ⟨serverC, serverA, .appendEntry ⟨2, -1, -1, 0, serverC.ip, serverC.port, [], -1⟩, none,
  .start serverC []⟩

/-- A as the constructor leaves it. -/
def startA : RaftServer := .startWith serverA threeServers.configuration .fresh

/-- A is candidate of term 1. -/
def candidateA : RaftServer := (startA.trans2C.toOption.getD startA).taken

/-- A campaigns, leads term 1 and adds an entry, follows C in term 2, and campaigns again. -/
theorem leadX_roles : ∃ x y y' v z : RaftServer,
    EntersCandidate startA x ∧ EntersCandidate v z ∧ x.term ≤ v.term ∧ x.term ≠ z.term ∧
    y.state = .primary ∧ y'.state = .primary ∧ y'.entries.log.length = y.entries.log.length + 1 ∧
    ∃ tail, y'.entries.log = y.entries.log ++ tail ∧ ∀ entry ∈ tail, entry.term = y.term := by
  obtain ⟨_, hx, rfl⟩ : ∃ x, EntersCandidate startA x ∧ x = candidateA :=
    (show RunsTrans2C startA (.timer .run) from ⟨by decide, .inl rfl⟩).enters (by decide)
  have hrun : ReflTransGen Handles (.startWith serverA threeServers.configuration .fresh) candidateA := by
    obtain ⟨input, z, hz, hxz, -⟩ := hx
    exact .single ⟨input, z, hz, hxz⟩
  obtain ⟨y, hy, hstate, hrest⟩ := RaftServer.exists_handleAll candidateA [voteB]
    (P := fun y => y.state = .primary ∧ (y.handleAll [.clientApply client "x"]).any (fun y' =>
      decide (y'.term = y.term ∧ y'.entries.log.length = y.entries.log.length + 1 ∧
        (y'.handleAll [heartbeatC]).any (fun v => decide (v.candidateTimer.minDateTime = false ∧
          ∀ a ∈ v.configuration, v.retryTimers.find? a ≠ none)) = true)) = true)
    (by decide +kernel)
  obtain ⟨y', hy', hterm, hlen, hrest⟩ := RaftServer.exists_handleAll y [.clientApply client "x"] hrest
  obtain ⟨v, hv, htimer, htimers⟩ := RaftServer.exists_handleAll y' [heartbeatC] hrest
  obtain ⟨z, hz, -⟩ := (show RunsTrans2C v (.timer .trans2F) from ⟨htimer, .inr (.inl rfl)⟩).enters htimers
  have hcandidacies := roles_within_term (c := threeServers) hrun (hy.trans (hy'.trans hv))
  have hprimary := (roles_within_term (c := threeServers) (hrun.trans hy) hy').2.2.1 hterm.symm hstate
  exact ⟨_, y, y', v, z, hx, hz, hcandidacies.1.1, hcandidacies.2.1 _ _ hx hz, hstate, hprimary.1, hlen,
    hprimary.2⟩

end MyRaft
