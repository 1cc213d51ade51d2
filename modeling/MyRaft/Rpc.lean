/-
The messages of `rpc.proto`, the RPC types of `rpc/rpc_type.h`, and the
exceptions `throw_line` raises.

Messages are their decoded fields (`SerializeToString` and `ParseFromString`
are the protobuf library's). An `int32` is an `Int`: no counter here is taken
modulo its width. `MyRaft.Lsn` has the lsns at theirs.
-/
namespace MyRaft

/-- `std::tuple<string, int>`: the ip and port that name a server or a client. -/
structure Addr where
  ip : String
  port : Int
deriving DecidableEq, Repr, Inhabited

/-- `rpc_Entry`. -/
structure RpcEntry where
  term : Int
  index : Int
  msg : String
deriving DecidableEq, Repr, Inhabited

structure AppendEntryRpc where
  term : Int
  prelogTerm : Int
  commitIndex : Int
  lsn : Int
  ip : String
  port : Int
  entry : List RpcEntry
  prelogIndex : Int
deriving DecidableEq, Repr

structure RespAppendEntryRpc where
  ok : Bool
  term : Int
  lsn : Int
  ip : String
  port : Int
  isEmptyAe : Bool
deriving DecidableEq, Repr

structure RequestVoteRpc where
  term : Int
  latestIndex : Int
  latestTerm : Int
  lsn : Int
  ip : String
  port : Int
deriving DecidableEq, Repr

structure RespRequestVoteRpc where
  ok : Bool
  term : Int
  lsn : Int
  ip : String
  port : Int
deriving DecidableEq, Repr

/-- A message with its `RPC_TYPE`; the bodies of the client messages are the
state machine's own encoding. -/
inductive Rpc where
  | requestVote (rpc : RequestVoteRpc)
  | appendEntry (rpc : AppendEntryRpc)
  | respVote (rpc : RespRequestVoteRpc)
  | respAppend (rpc : RespAppendEntryRpc)
  | clientApply (body : String)
  | clientQuery (body : String)
  | respClientApply (body : String)
  | respClientQuery (body : String)
deriving DecidableEq, Repr

/-- A message servers send; the two requests come from clients. -/
def Rpc.ofServer : Rpc → Bool
  | .clientApply _ | .clientQuery _ => false
  | _ => true

/-- `std::make_tuple(rpc.ip(), rpc.port())`, in each of the four server messages. -/
def RequestVoteRpc.server (rpc : RequestVoteRpc) : Addr := ⟨rpc.ip, rpc.port⟩
def AppendEntryRpc.server (rpc : AppendEntryRpc) : Addr := ⟨rpc.ip, rpc.port⟩
def RespRequestVoteRpc.server (rpc : RespRequestVoteRpc) : Addr := ⟨rpc.ip, rpc.port⟩
def RespAppendEntryRpc.server (rpc : RespAppendEntryRpc) : Addr := ⟨rpc.ip, rpc.port⟩

/-- `rpc_ae.entry_size() == 0`. -/
def AppendEntryRpc.isEmptyAe (rpc : AppendEntryRpc) : Bool := rpc.entry.isEmpty

/-- `my_exception`, by the place that throws it. -/
inductive Exn where
  | entriesGet (size index : Int)
  | entriesInsert (size index : Int)
  /-- `entries_[index]` at a negative index, which `Entries::get` lets through. -/
  | negativeIndex
  | trans2FWaiting
  | trans2CWaiting
  | aeWaiting
  /-- A handler of `trans2F`, `trans2C` or `RV` finds its timer at `min_date_time`. -/
  | handlerCancelled
  | termDecreases
  | entrySize
  | twoPrimaries
  | prelogTerm
  | emptyAeCommit
  | entryIndex
  | respAeNotPrimary
  | lastSendIndex
  | nextIndexZero
  | commitDecreases
  /-- No exception, but undefined: a null `shared_ptr` of `retry_timers_` is followed. -/
  | nullTimer
  /-- No exception, but undefined: `temp_sort` is written past its end. -/
  | tempSortEnd
deriving DecidableEq, Repr

/-- `my_exception::what`, less the file and line that `throw_line` puts before it. -/
def Exn.what : Exn → String
  | .entriesGet size index =>
    "the etries's size is " ++ toString size ++ ", the get index is " ++ toString index ++ ", which is bigger"
  | .entriesInsert size index =>
    "the etries's size is " ++ toString size ++ ", the insert index is " ++ toString index ++ ", which is bigger"
  | .negativeIndex | .nullTimer | .tempSortEnd => ""
  | .trans2FWaiting => "trans2F在一开始已经执行了cancel_all_timers函数，所以这里不应该有waiting_count=0"
  | .trans2CWaiting =>
    "trans2C只能是timer_candidate_expire自然到期触发，所以不可能有waiting_count不为0的情况，否则就是未考虑的情况"
  | .aeWaiting =>
    "should be zero, a timer can't be interrupt by network, but when AE is called, there should be no hooks on the timer"
  | .handlerCancelled =>
    "逻辑错误，这里是不可能出现的，因为这个情景（trans2C未能即使取消h1，（然后RV->hook h2）h1运行)" ++
      "被waiting_counts != 0 完全覆盖了，如果抛出这个异常，说明出现了新的bug"
  | .termDecreases => "term_ can't never decreases"
  | .entrySize => "entry_size 不能大于1"
  | .twoPrimaries => "error, one term has two primaries"
  | .prelogTerm => "prelog_index为-1，那么prelog_term也应该是-1"
  | .emptyAeCommit =>
    "local commit_index should >= rpc_commit_index in this scene, see comment for explanation"
  | .entryIndex => "entry's index should == prelog_index + 1"
  | .respAeNotPrimary =>
    "不可能的情况，主ae，收到resp_ae的remote_term与term_相等，但是state不为主，说明一个term出现了两个主，错误"
  | .lastSendIndex => "last_send_index 不可能大于entry_size"
  | .nextIndexZero => "P sends F a AE with index 0 (maybe with index 0 or emtry), F returns not ok, impossible"
  | .commitDecreases => "commit index can only grow, never decrease"

end MyRaft
