/-
`RaftServer` (`RaftServer.h`, `RaftServer.cpp`) and the part of
`StateMachineControler` its handlers run, each function from the state before
it to the state after it or to the exception it throws.

What a handler hands to the rest of the process is `effects`, oldest first: the
calls of `make_rpc_call`, the tasks for the two thread pools, and the debug
line that announces a commit of the primary. `MyRaft.Cluster` takes the effects
away when the handler returns.

A `deadline_timer` is the waits registered on it and whether its expiry is
`min_date_time`, which is all the handlers ask of it. Setting an expiry or
cancelling completes the waits with `operation_aborted`; every handler returns
at once on that code, so an aborted wait is a dropped one.
-/
import MyRaft.Entries
import MyRaft.Lib.StdMap
import Mathlib.Data.List.Sort

namespace MyRaft

open StdLib (StdMap)

/-! ## Timers -/

/-- A lambda given to `async_wait`, by the function that registers it. -/
inductive TimerHandler where
  | run
  | trans2F
  | trans2C
  | RV (server : Addr)
  | AE (server : Addr)
deriving DecidableEq, Repr

structure Timer where
  minDateTime : Bool
  waits : List TimerHandler
deriving DecidableEq, Repr

namespace Timer

instance : Inhabited Timer := ⟨⟨false, []⟩⟩

/-- `expires_at(boost::posix_time::min_date_time)`. -/
def expiresAtMin (_ : Timer) : Timer := ⟨true, []⟩

/-- `expires_from_now`, with the number of waits it cancels. -/
def expiresFromNow (t : Timer) : Nat × Timer := (t.waits.length, ⟨false, []⟩)

def cancel (t : Timer) : Timer := { t with waits := [] }

def asyncWait (t : Timer) (h : TimerHandler) : Timer := { t with waits := t.waits ++ [h] }

end Timer

/-! ## The state -/

inductive State where
  | follower
  | candidate
  | primary
deriving DecidableEq, Repr

/-- The indexes of `StateMachineControler`. -/
structure StateMachineControler where
  appliedIndex : Int
  commitIndex : Int
deriving DecidableEq, Repr

inductive Effect where
  /-- `network_.make_rpc_call`. -/
  | rpc (dst : Addr) (rpc : Rpc)
  /-- `write_thread_pool_.enqueue`, for the entry of that index. -/
  | apply (index : Int) (msg : String)
  /-- `read_thread_pool.enqueue`. -/
  | query (body : String) (client : Addr)
  /-- The line `set committed index to` of `primary_update_commit_index`. -/
  | committed (index : Int)
deriving DecidableEq, Repr

/-- `RaftServer`; `server` is `ip_`, `port_` and `server_`. -/
structure RaftServer where
  server : Addr
  configuration : List Addr
  majority : Int
  term : Int
  state : State
  alreadyVoted : Bool
  winnedVotes : Int
  currentRpcLsn : StdMap Addr Int
  followerRpcLsn : StdMap Addr Int
  candidateTimer : Timer
  retryTimers : StdMap Addr Timer
  commitIndex : Int
  entries : Entries
  nextIndex : StdMap Addr Int
  followerSavedIndex : StdMap Addr Int
  smc : StateMachineControler
  entryIndexToSocketAddrMap : StdMap Int Addr
  effects : List Effect

namespace RaftServer

/-- The constructor, for the servers of the configuration file, then the part
of `run` before the event loop. -/
def start (server : Addr) (configuration : List Addr) : RaftServer where
  server := server
  configuration := configuration
  majority := (configuration.length / 2 + 1 : Nat)
  term := 0
  state := .follower
  alreadyVoted := false
  winnedVotes := 0
  currentRpcLsn := StdMap.empty.setAll configuration 0
  followerRpcLsn := StdMap.empty.setAll configuration (-1)
  candidateTimer := (default : Timer).expiresFromNow.2.asyncWait .run
  retryTimers := StdMap.empty.setAll configuration default
  commitIndex := -1
  entries := .fresh
  nextIndex := StdMap.empty.setAll configuration 0
  followerSavedIndex := StdMap.empty.setAll configuration (-1)
  smc := ⟨-1, -1⟩
  entryIndexToSocketAddrMap := StdMap.empty
  effects := []

/-- `network_.make_rpc_call`. -/
def makeRpcCall (dst : Addr) (rpc : Rpc) (s : RaftServer) : RaftServer :=
  { s with effects := s.effects ++ [.rpc dst rpc] }

/-! ## Roles and terms -/

def cancelAllTimers (s : RaftServer) : RaftServer :=
  { s with
    candidateTimer := s.candidateTimer.expiresAtMin
    retryTimers := s.retryTimers.mapValues Timer.expiresAtMin }

def resetBothRpcLsn (s : RaftServer) : RaftServer :=
  { s with
    currentRpcLsn := s.currentRpcLsn.setAll s.configuration 0
    followerRpcLsn := s.followerRpcLsn.setAll s.configuration (-1) }

def updateTerm (term : Int) (s : RaftServer) : Except Exn RaftServer :=
  if s.term < term then .ok { s.resetBothRpcLsn with term := term }
  else if s.term = term then .ok s
  else .error .termDecreases

def trans2F (term : Int) (s : RaftServer) : Except Exn RaftServer := do
  let s := s.cancelAllTimers
  let s := { s with winnedVotes := 0 }
  let s ← s.updateTerm term
  let s := { s with alreadyVoted := false, state := .follower }
  let (waitingCount, timer) := s.candidateTimer.expiresFromNow
  if waitingCount ≠ 0 then throw .trans2FWaiting
  else return { s with candidateTimer := timer.asyncWait .trans2F }

/-- `latest_term` is never set and stays at its default. -/
def buildRpcRvString (server : Addr) (s : RaftServer) : RequestVoteRpc × RaftServer :=
  let lsn := s.currentRpcLsn.get server
  let s := { s with currentRpcLsn := s.currentRpcLsn.set server (lsn + 1) }
  ({ term := s.term, latestIndex := s.entries.size - 1, latestTerm := 0, lsn := lsn,
     ip := s.server.ip, port := s.server.port }, s)

/-- What `retry_timers_[server]` points to; for a server without a timer it is null. -/
def timerTo (server : Addr) (s : RaftServer) : Except Exn Timer :=
  match s.retryTimers.find? server with
  | some timer => .ok timer
  | none => .error .nullTimer

def RV (server : Addr) (s : RaftServer) : Except Exn RaftServer := do
  let (rpc, s) := s.buildRpcRvString server
  let s := s.makeRpcCall server (.requestVote rpc)
  let (waitingCounts, timer) := (← s.timerTo server).expiresFromNow
  if waitingCounts ≠ 0 then
    return { s with retryTimers := s.retryTimers.set server timer }
  else
    return { s with retryTimers := s.retryTimers.set server (timer.asyncWait (.RV server)) }

def trans2C (s : RaftServer) : Except Exn RaftServer := do
  let s := s.cancelAllTimers
  let s ← s.updateTerm (s.term + 1)
  let s := { s with state := .candidate, winnedVotes := 1 }
  let (waitingCount, timer) := s.candidateTimer.expiresFromNow
  if waitingCount ≠ 0 then throw .trans2CWaiting
  else
    let s := { s with candidateTimer := timer.asyncWait .trans2C }
    s.configuration.foldlM (fun s server => if server.port ≠ s.server.port then s.RV server else pure s) s

def buildRpcAeString (server : Addr) (s : RaftServer) : Except Exn (AppendEntryRpc × RaftServer) := do
  let lsn := s.currentRpcLsn.get server
  let s := { s with currentRpcLsn := s.currentRpcLsn.set server (lsn + 1) }
  let indexToSend := s.nextIndex.get server
  let prelogTerm ←
    (if 0 < indexToSend then (·.term) <$> s.entries.get (indexToSend - 1) else pure (-1))
  -- at the end of the log the AE is empty, a heartbeat
  let entry ←
    (if indexToSend = s.entries.size then pure [] else (fun e => [e]) <$> s.entries.get indexToSend)
  return ({ term := s.term, prelogTerm := prelogTerm, commitIndex := s.commitIndex, lsn := lsn,
            ip := s.server.ip, port := s.server.port, entry := entry,
            prelogIndex := indexToSend - 1 }, s)

def AE (server : Addr) (s : RaftServer) : Except Exn RaftServer := do
  let (rpc, s) ← s.buildRpcAeString server
  let s := s.makeRpcCall server (.appendEntry rpc)
  let (waitingCounts, timer) := (← s.timerTo server).expiresFromNow
  if waitingCounts ≠ 0 then throw .aeWaiting
  else return { s with retryTimers := s.retryTimers.set server (timer.asyncWait (.AE server)) }

def trans2P (s : RaftServer) : Except Exn RaftServer := do
  let s := s.cancelAllTimers
  let s := { s with state := .primary }
  let entrySize := s.entries.size
  let s := { s with
    nextIndex := s.nextIndex.setAll s.configuration entrySize
    followerSavedIndex := (s.followerSavedIndex.setAll s.configuration (-1)).set s.server (entrySize - 1) }
  s.configuration.foldlM (fun s server => if server.port ≠ s.server.port then s.AE server else pure s) s

/-! ## The commit index and the state machine -/

/-- `StateMachineControler::apply_to_state_machine`. -/
def applyEntry (indexToApply : Int) (s : RaftServer) : Except Exn RaftServer := do
  let entry ← s.entries.get indexToApply
  return { s with
    smc := { s.smc with appliedIndex := indexToApply }
    effects := s.effects ++ [.apply indexToApply entry.msg] }

/-- The rounds of the loop of `update_commit_index_and_apply`. Each round moves
`applied_index_` up by one, so their number is known when the loop is entered. -/
def applyLoop : Nat → RaftServer → Except Exn RaftServer
  | 0, s => .ok s
  | rounds + 1, s => do applyLoop rounds (← s.applyEntry (s.smc.appliedIndex + 1))

/-- `StateMachineControler::update_commit_index_and_apply`. -/
def updateCommitIndexAndApply (newIndex : Int) (s : RaftServer) : Except Exn RaftServer :=
  let s := { s with smc := { s.smc with commitIndex := newIndex } }
  applyLoop (s.smc.commitIndex - s.smc.appliedIndex).toNat s

def applyToStateMachine (newCommitIndex : Int) (s : RaftServer) : Except Exn RaftServer :=
  s.updateCommitIndexAndApply newCommitIndex

/-- The vector `temp_sort`, of `configuration_.size()` zeros that the values of
the map are written over, sorted with `greater`. -/
def tempSort (s : RaftServer) : List Int :=
  (s.followerSavedIndex.values ++
    List.replicate (s.configuration.length - s.followerSavedIndex.values.length) 0).insertionSort (· ≥ ·)

def primaryUpdateCommitIndex (server : Addr) (index : Int) (s : RaftServer) : Except Exn RaftServer :=
  let s := { s with followerSavedIndex := s.followerSavedIndex.set server index }
  if s.configuration.length < s.followerSavedIndex.values.length then .error .tempSortEnd
  else
    let s := { s with commitIndex := s.tempSort.getD (s.majority - 1).toNat 0 }
    let s := { s with effects := s.effects ++ [Effect.committed s.commitIndex] }
    s.applyToStateMachine s.commitIndex

def followerUpdateCommitIndex (remoteCommitIndex : Int) (s : RaftServer) : Except Exn RaftServer :=
  let prevCommitIndex := s.commitIndex
  let latestIndex := s.entries.size - 1
  let s := { s with
    commitIndex := if latestIndex < remoteCommitIndex then latestIndex else remoteCommitIndex }
  if s.commitIndex < prevCommitIndex then .error .commitDecreases
  else if s.commitIndex > prevCommitIndex then s.applyToStateMachine s.commitIndex
  else .ok s

/-! ## Requests of other servers -/

def makeRespRv (vote : Bool) (server : Addr) (lsn : Int) (s : RaftServer) : RaftServer :=
  s.makeRpcCall server
    (.respVote { ok := vote, term := s.term, lsn := lsn, ip := s.server.ip, port := s.server.port })

def makeRespAe (ok : Bool) (server : Addr) (lsn : Int) (isEmptyAe : Bool) (s : RaftServer) : RaftServer :=
  s.makeRpcCall server
    (.respAppend { ok := ok, term := s.term, lsn := lsn, ip := s.server.ip, port := s.server.port,
                   isEmptyAe := isEmptyAe })

/-- Whether to ignore the call; when not, the lsn is recorded. -/
def shouldIgnoreRemoteRpc (remote : Addr) (newLsn : Int) (s : RaftServer) : Bool × RaftServer :=
  if s.followerRpcLsn.get remote ≥ newLsn then (true, s)
  else (false, { s with followerRpcLsn := s.followerRpcLsn.set remote newLsn })

/-- The check of the log in `react2rv`; `remote_latest_term` is read there and
not used. -/
def shouldVote (s : RaftServer) (remoteTerm remoteLatestIndex : Int) : Except Exn Bool :=
  if s.entries.size = 0 then .ok true
  else do
    let lastEntry ← s.entries.get (s.entries.size - 1)
    return if lastEntry.term > remoteTerm then false
      else if lastEntry.term < remoteTerm then true
      else if lastEntry.index > remoteLatestIndex then false
      else true

def react2rv (rpc : RequestVoteRpc) (s : RaftServer) : Except Exn RaftServer :=
  if s.term > rpc.term then .ok (s.makeRespRv false rpc.server rpc.lsn)
  else do
    let s ← (if s.term < rpc.term then s.trans2F rpc.term else pure s)
    let (ignore, s) := s.shouldIgnoreRemoteRpc rpc.server rpc.lsn
    if ignore then return s
    else if s.state = .candidate ∨ s.state = .primary then return s.makeRespRv false rpc.server rpc.lsn
    else if !s.alreadyVoted then
      if ← s.shouldVote rpc.term rpc.latestIndex then
        let s := s.makeRespRv true rpc.server rpc.lsn
        return { s with alreadyVoted := true }
      else return s.makeRespRv false rpc.server rpc.lsn
    else return s.makeRespRv false rpc.server rpc.lsn

/-- The comparison of `prelog_index` and `prelog_term` with the log. -/
def prelogMatches (prelogIndex prelogTerm : Int) (s : RaftServer) : Except Exn Bool :=
  if prelogIndex = -1 then
    if prelogTerm ≠ -1 then .error .prelogTerm else .ok true
  else if prelogIndex ≥ s.entries.size then .ok false
  else do
    let prevEntry ← s.entries.get prelogIndex
    return prelogTerm = prevEntry.term

def react2ae (rpc : AppendEntryRpc) (s : RaftServer) : Except Exn RaftServer :=
  if rpc.entry.length > 1 then .error .entrySize
  else if s.term > rpc.term then .ok (s.makeRespAe false rpc.server rpc.lsn rpc.isEmptyAe)
  else if s.state = .primary ∧ s.term = rpc.term then .error .twoPrimaries
  else do
    let s ← s.trans2F rpc.term
    let (ignore, s) := s.shouldIgnoreRemoteRpc rpc.server rpc.lsn
    if ignore then return s
    else if !(← s.prelogMatches rpc.prelogIndex rpc.prelogTerm) then
      return s.makeRespAe false rpc.server rpc.lsn rpc.isEmptyAe
    else match rpc.entry with
    | [] =>
      if s.entries.size < rpc.commitIndex then throw .emptyAeCommit
      else
        let s ← s.followerUpdateCommitIndex rpc.commitIndex
        return s.makeRespAe true rpc.server rpc.lsn rpc.isEmptyAe
    | entry :: _ =>
      if entry.index ≠ rpc.prelogIndex + 1 then throw .entryIndex
      else
        -- the commit index moves only after the stale entries are gone
        let entries ← s.entries.insert (rpc.prelogIndex + 1) entry
        let s := { s with entries := entries }
        let s ← s.followerUpdateCommitIndex rpc.commitIndex
        return s.makeRespAe true rpc.server rpc.lsn rpc.isEmptyAe

/-! ## Replies of other servers -/

def primaryDealRespAeWithSameTerm (server : Addr) (resp : RespAppendEntryRpc) (s : RaftServer) :
    Except Exn RaftServer :=
  if s.currentRpcLsn.get server ≠ resp.lsn + 1 then .ok s
  else do
    let lastSendIndex := s.nextIndex.get server
    if resp.ok then
      if lastSendIndex > s.entries.size then throw .lastSendIndex
      else if lastSendIndex = s.entries.size then
        s.primaryUpdateCommitIndex server (lastSendIndex - 1)
      else
        -- an empty AE acknowledges only what is before `nextIndex_`
        let s ←
          (if resp.isEmptyAe then s.primaryUpdateCommitIndex server (lastSendIndex - 1)
          else
            let s := { s with nextIndex := s.nextIndex.set server (lastSendIndex + 1) }
            s.primaryUpdateCommitIndex server lastSendIndex)
        let s := { s with retryTimers := s.retryTimers.set server (← s.timerTo server).expiresAtMin }
        s.AE server
    else if lastSendIndex = 0 then throw .nextIndexZero
    else
      let s := { s with nextIndex := s.nextIndex.set server (lastSendIndex - 1) }
      let s := { s with retryTimers := s.retryTimers.set server (← s.timerTo server).cancel }
      s.AE server

def react2respAe (resp : RespAppendEntryRpc) (s : RaftServer) : Except Exn RaftServer :=
  if s.term < resp.term then s.trans2F resp.term
  else if s.term > resp.term then .ok s
  else if s.state = .primary then s.primaryDealRespAeWithSameTerm resp.server resp
  else .error .respAeNotPrimary

def candidateDealRespRvWithSameTerm (server : Addr) (resp : RespRequestVoteRpc) (s : RaftServer) :
    Except Exn RaftServer :=
  if s.currentRpcLsn.get server ≠ resp.lsn + 1 then .ok s
  else if resp.ok then
    let s := { s with winnedVotes := s.winnedVotes + 1 }
    if s.winnedVotes ≥ s.majority then s.trans2P
    else do
      return { s with retryTimers := s.retryTimers.set server (← s.timerTo server).expiresAtMin }
  else .ok s

def react2respRv (resp : RespRequestVoteRpc) (s : RaftServer) : Except Exn RaftServer :=
  if s.term < resp.term then s.trans2F resp.term
  else if s.term > resp.term then .ok s
  else if s.state = .candidate then s.candidateDealRespRvWithSameTerm resp.server resp
  else .ok s

/-! ## Clients -/

def getFromStateMachine (client : Addr) (body : String) (s : RaftServer) : RaftServer :=
  { s with effects := s.effects ++ [.query body client] }

/-- The role is not looked at. -/
def appendClientApplyToEntries (client : Addr) (body : String) (s : RaftServer) : Except Exn RaftServer := do
  let index := s.entries.size
  let s := { s with entryIndexToSocketAddrMap := s.entryIndexToSocketAddrMap.set index client }
  let entries ← s.entries.insert index { term := s.term, index := index, msg := body }
  return { s with
    entries := entries
    followerSavedIndex := s.followerSavedIndex.set s.server index }

def writeRespApplyCall (entryIndex : Int) (res : String) (s : RaftServer) : RaftServer :=
  if s.state = .primary then
    match s.entryIndexToSocketAddrMap.find? entryIndex with
    | some client => s.makeRpcCall client (.respClientApply res)
    | none => s
  else s

def writeRespQueryCall (client : Addr) (res : String) (s : RaftServer) : RaftServer :=
  s.makeRpcCall client (.respClientQuery res)

/-! ## Dispatch -/

def reactToIncomingMsg (rpc : Rpc) (peer : Addr) (s : RaftServer) : Except Exn RaftServer :=
  match rpc with
  | .requestVote rv => s.react2rv rv
  | .appendEntry ae => s.react2ae ae
  | .respVote resp => s.react2respRv resp
  | .respAppend resp => s.react2respAe resp
  | .clientApply body => s.appendClientApplyToEntries peer body
  | .clientQuery body => .ok (s.getFromStateMachine peer body)
  | .respClientApply _ | .respClientQuery _ => .ok s

/-- A wait that completed without an error. The handlers look only at the
expiry of their timer, which may have been set again since; those of `RV` and
`AE` hold on to it. -/
def onExpire (h : TimerHandler) (s : RaftServer) : Except Exn RaftServer :=
  match h with
  | .run => if s.candidateTimer.minDateTime then .ok s else s.trans2C
  | .trans2F | .trans2C => if s.candidateTimer.minDateTime then .error .handlerCancelled else s.trans2C
  | .RV server =>
    if (s.retryTimers.get server).minDateTime then .error .handlerCancelled else s.RV server
  | .AE server => if (s.retryTimers.get server).minDateTime then .ok s else s.AE server

end RaftServer

end MyRaft
