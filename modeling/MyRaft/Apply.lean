/-
Applying the log: `StateMachineControler` (`state_machine/StateMachineControler.cpp`),
the write pool (`state_machine/ThreadPool.h`) and `EasyStateMachine`
(`state_machine/EasyStateMachine.cpp`).

`applied_index_` only moves up, one index a task, whatever `commit_index_` and
the log do in the meantime. So the tasks are of the indexes in order, each with
the message its entry had when the task was made, and the one worker of the
write pool runs them in that order.

The messages of the state machine are protobuf's, and their parser a parameter.
-/
import MyRaft.Exceptions
import Mathlib.Data.List.Induction

namespace MyRaft

open StdLib (StdMap)

/-- `ThreadPool`, of one worker: the queue `tasks`. -/
structure ThreadPool (α : Type) where
  tasks : List α

namespace ThreadPool

variable {α : Type}

def enqueue (pool : ThreadPool α) (task : α) : ThreadPool α := ⟨pool.tasks ++ [task]⟩

/-- The task the worker takes next, if it need not wait. -/
def take? (pool : ThreadPool α) : Option (α × ThreadPool α) :=
  match pool.tasks with
  | [] => none
  | task :: tasks => some (task, ⟨tasks⟩)

theorem foldl_enqueue (tasks : List α) :
    ∀ pool : ThreadPool α, tasks.foldl enqueue pool = ⟨pool.tasks ++ tasks⟩ := by
  induction tasks with
  | nil => intro pool; simp
  | cons task tasks ih => intro pool; rw [List.foldl_cons, ih]; simp [enqueue]

end ThreadPool

/-- `apply_call` of `easy_state_machine.proto`. -/
structure ApplyCall where
  key : String
  v : Int

/-- The messages of `easy_state_machine.proto` that `apply` parses and serializes. -/
structure EasyCodec where
  parseApplyCall : String → ApplyCall
  serializeRespApply : Bool → String

structure EasyStateMachine where
  mockStateMachine : StdMap String Int

namespace EasyStateMachine

def initial : EasyStateMachine := ⟨.empty⟩

/-- `EasyStateMachine::apply`, and the string it returns. -/
def apply (codec : EasyCodec) (encodedApplyStr : String) (sm : EasyStateMachine) : EasyStateMachine × String :=
  let call := codec.parseApplyCall encodedApplyStr
  (⟨sm.mockStateMachine.set call.key call.v⟩, codec.serializeRespApply true)

/-- The state machine after some commands. -/
def applyAll (codec : EasyCodec) (msgs : List String) (sm : EasyStateMachine) : EasyStateMachine :=
  msgs.foldl (fun sm msg => (sm.apply codec msg).1) sm

/-- The last command for a key. -/
def lastCall (codec : EasyCodec) (msgs : List String) (key : String) : Option ApplyCall :=
  (msgs.map codec.parseApplyCall).reverse.find? fun call => call.key = key

/-- **A key has the value of the last command for it.** -/
theorem find?_applyAll (codec : EasyCodec) (msgs : List String) (key : String) :
    (initial.applyAll codec msgs).mockStateMachine.find? key = (lastCall codec msgs key).map ApplyCall.v := by
  have hfold : ∀ (msgs : List String) (sm : EasyStateMachine), (sm.applyAll codec msgs).mockStateMachine =
      ((msgs.map codec.parseApplyCall).map fun call => (call.key, call.v)).foldl (fun m e => m.set e.1 e.2)
        sm.mockStateMachine := by
    intro msgs
    induction msgs with
    | nil => intro sm; rfl
    | cons msg msgs ih => intro sm; exact ih (sm.apply codec msg).1
  rw [hfold, StdMap.find?_foldl_set, ← List.map_reverse, List.find?_map, Option.map_map]
  exact Option.or_none

end EasyStateMachine

/-! ## Handing entries over -/

namespace RaftServer

variable {s s' : RaftServer}

/-- A call hands over what is past the applied index and not past its argument. -/
theorem updateCommitIndexAndApply_next {newIndex : Int} (hlo : -1 ≤ s.smc.appliedIndex)
    (hhi : newIndex < s.entries.size) :
    ∃ tasks, Next s.entries (s.smc.appliedIndex + 1) (newIndex - s.smc.appliedIndex).toNat tasks ∧
      s.updateCommitIndexAndApply newIndex = .ok { s with
        smc := ⟨max s.smc.appliedIndex newIndex, newIndex⟩
        effects := s.effects ++ tasks.map taskOf } := by
  obtain ⟨s', h⟩ := updateCommitIndexAndApply_in hlo hhi
  obtain ⟨tasks, hnext, rfl⟩ := applyLoop_next _ h
  refine ⟨tasks, hnext, h.trans ?_⟩
  simp only [Except.ok.injEq, RaftServer.mk.injEq, StateMachineControler.mk.injEq, true_and, and_true]
  omega

end RaftServer

/-! ## Calls and changes of the log -/

/-- What happens to the state machine of a server. -/
inductive ApplyOp where
  | updateCommitIndexAndApply (newIndex : Int)
  /-- The log becomes another. -/
  | change (entries : Entries)
  /-- The worker of the write pool runs the task at the front of the queue. -/
  | work

/-- The entries after some operations on `entries`. -/
def entriesAfter (entries : Entries) (ops : List ApplyOp) : Entries :=
  ops.foldl (fun entries op => match op with
    | .change entries' => entries'
    | _ => entries) entries

/-- The highest index of the calls, -1 without any. -/
def highest (ops : List ApplyOp) : Int :=
  ops.foldl (fun index op => match op with
    | .updateCommitIndexAndApply newIndex => max index newIndex
    | _ => index) (-1)

/-- Each call is for an index of the log it meets. -/
def CallsInRange : Entries → List ApplyOp → Prop
  | _, [] => True
  | entries, .updateCommitIndexAndApply newIndex :: ops => newIndex < entries.size ∧ CallsInRange entries ops
  | _, .change entries :: ops => CallsInRange entries ops
  | entries, .work :: ops => CallsInRange entries ops

/-- The part of a server that applies its log; `handed` is all that the write pool was ever given. -/
structure Applier where
  raft : RaftServer
  writeThreadPool : ThreadPool (Int × String)
  stateMachine : EasyStateMachine
  handed : List (Int × String)

namespace Applier

variable (codec : EasyCodec)

/-- The constructor of `StateMachineControler`, with the entries there are. -/
def start (s : RaftServer) : Applier := ⟨{ s with smc := ⟨-1, -1⟩, effects := [] }, ⟨[]⟩, .initial, []⟩

def step (x : Applier) : ApplyOp → Except Exn Applier
  | .updateCommitIndexAndApply newIndex => do
    let raft ← x.raft.updateCommitIndexAndApply newIndex
    let tasks := raft.effects.filterMap Effect.task?
    return { x with
      raft := raft.taken
      writeThreadPool := tasks.foldl .enqueue x.writeThreadPool
      handed := x.handed ++ tasks }
  | .change entries => return { x with raft := { x.raft with entries := entries } }
  | .work =>
    match x.writeThreadPool.take? with
    | none => return x
    | some (task, pool) =>
      return { x with writeThreadPool := pool, stateMachine := (x.stateMachine.apply codec task.2).1 }

def run (s : RaftServer) (ops : List ApplyOp) : Except Exn Applier := ops.foldlM (step codec) (start s)

/-- The state machine when the worker has run all that is in the queue. -/
def drained (x : Applier) : EasyStateMachine :=
  x.stateMachine.applyAll codec (x.writeThreadPool.tasks.map Prod.snd)

end Applier

theorem entriesAfter_concat (entries : Entries) (ops : List ApplyOp) (op : ApplyOp) :
    entriesAfter entries (ops ++ [op]) = match op with
      | .change entries' => entries'
      | _ => entriesAfter entries ops := by
  unfold entriesAfter
  rw [List.foldl_append]
  rfl

theorem highest_concat (ops : List ApplyOp) (op : ApplyOp) :
    highest (ops ++ [op]) = match op with
      | .updateCommitIndexAndApply newIndex => max (highest ops) newIndex
      | _ => highest ops := by
  unfold highest
  rw [List.foldl_append]
  rfl

theorem callsInRange_concat {op : ApplyOp} : ∀ {ops : List ApplyOp} {entries : Entries},
    CallsInRange entries (ops ++ [op]) ↔ CallsInRange entries ops ∧
      ∀ newIndex, op = .updateCommitIndexAndApply newIndex → newIndex < (entriesAfter entries ops).size
  | [], entries => by cases op <;> simp [CallsInRange, entriesAfter]
  | first :: ops, entries => by
    cases first with
    | updateCommitIndexAndApply newIndex =>
      simp only [List.cons_append, CallsInRange, and_assoc]
      exact and_congr_right fun _ => @callsInRange_concat op ops entries
    | change entries' => exact @callsInRange_concat op ops entries'
    | work => exact @callsInRange_concat op ops entries

theorem highest_ge (ops : List ApplyOp) : -1 ≤ highest ops := by
  induction ops using List.reverseRecOn with
  | nil => exact Int.le_refl _
  | append_singleton ops op ih =>
    rw [highest_concat]
    split <;> omega

/-- The task was handed over by the first call that reached its index, with the
message its entry had then. -/
def HandedOver (entries : Entries) (ops : List ApplyOp) (task : Int × String) : Prop :=
  ∃ past newIndex, past ++ [.updateCommitIndexAndApply newIndex] <+: ops ∧ highest past < task.1 ∧
  task.1 ≤ newIndex ∧
    ∃ entry, (entriesAfter entries past).get task.1 = .ok entry ∧ entry.msg = task.2

theorem HandedOver.mono {entries : Entries} {ops ops' : List ApplyOp} {task : Int × String}
    (h : HandedOver entries ops task) (hp : ops <+: ops') : HandedOver entries ops' task := by
  obtain ⟨past, newIndex, hle, h⟩ := h
  exact ⟨past, newIndex, hle.trans hp, h⟩

namespace Applier

variable {codec : EasyCodec} {s : RaftServer} {ops : List ApplyOp} {x : Applier}

/-- What holds after some operations. -/
structure Applies (codec : EasyCodec) (s : RaftServer) (ops : List ApplyOp) (x : Applier) : Prop where
  entries : x.raft.entries = entriesAfter s.entries ops
  applied : x.raft.smc.appliedIndex = highest ops
  effects : x.raft.effects = []
  indexes : x.handed.map Prod.fst = (List.range (highest ops + 1).toNat).map fun i : Nat => (i : Int)
  handedOver : ∀ task ∈ x.handed, HandedOver s.entries ops task
  worked : ∃ done, x.handed = done ++ x.writeThreadPool.tasks ∧
    x.stateMachine = EasyStateMachine.initial.applyAll codec (done.map Prod.snd)

theorem Applies.start : Applies codec s [] (start s) where
  entries := rfl
  applied := rfl
  effects := rfl
  indexes := rfl
  handedOver := nofun
  worked := ⟨[], rfl, rfl⟩

/-- The server and the queue after a call. -/
structure Called (x : Applier) (newIndex : Int) (tasks : List (Int × String)) (y : Applier) : Prop where
  entries : y.raft.entries = x.raft.entries
  applied : y.raft.smc.appliedIndex = max x.raft.smc.appliedIndex newIndex
  effects : y.raft.effects = []
  handed : y.handed = x.handed ++ tasks
  queue : y.writeThreadPool.tasks = x.writeThreadPool.tasks ++ tasks
  stateMachine : y.stateMachine = x.stateMachine

theorem step_call {newIndex : Int} (hlo : -1 ≤ x.raft.smc.appliedIndex) (hhi : newIndex < x.raft.entries.size)
    (heffects : x.raft.effects = []) :
    ∃ tasks y, RaftServer.Next x.raft.entries (x.raft.smc.appliedIndex + 1)
    (newIndex - x.raft.smc.appliedIndex).toNat tasks ∧
      x.step codec (.updateCommitIndexAndApply newIndex) = .ok y ∧ Called x newIndex tasks y := by
  obtain ⟨tasks, hnext, hcall⟩ := RaftServer.updateCommitIndexAndApply_next hlo hhi
  have htasks : (x.raft.effects ++ tasks.map RaftServer.taskOf).filterMap Effect.task? = tasks := by
    rw [heffects, List.nil_append, List.filterMap_map]
    exact List.filterMap_some
  simp only [step, hcall, htasks, ThreadPool.foldl_enqueue, bind, Except.bind, pure, Except.pure]
  exact ⟨tasks, _, hnext, rfl, rfl, rfl, rfl, rfl, rfl, rfl⟩

/-- A call hands the next indexes over. -/
theorem Applies.call (h : Applies codec s ops x) {newIndex : Int}
    (hin : newIndex < (entriesAfter s.entries ops).size) :
    ∃ y, x.step codec (.updateCommitIndexAndApply newIndex) = .ok y ∧
      Applies codec s (ops ++ [.updateCommitIndexAndApply newIndex]) y := by
  have hlo := highest_ge ops
  have happlied := h.applied
  have hhi : newIndex < x.raft.entries.size := by
    rw [h.entries]
    exact hin
  have hlo' : -1 ≤ x.raft.smc.appliedIndex := by omega
  obtain ⟨tasks, y, hnext, hstep, hy⟩ := step_call hlo' hhi h.effects
  rw [happlied] at hnext
  refine ⟨y, hstep, ?_, ?_, hy.effects, ?_, ?_, ?_⟩
  · rw [hy.entries, h.entries, entriesAfter_concat]
  · rw [hy.applied, happlied, highest_concat]
  · have hrange : (max (highest ops) newIndex + 1).toNat =
        (highest ops + 1).toNat + (newIndex - highest ops).toNat := by
      omega
    rw [hy.handed, List.map_append, h.indexes, hnext.indexes, highest_concat, hrange, List.range_add,
      List.map_append,
      List.map_map]
    exact congrArg _ (List.map_congr_left fun k _ => by simp only [Function.comp_apply]; omega)
  · intro task ht
    rw [hy.handed] at ht
    rcases List.mem_append.mp ht with ht | ht
    · exact (h.handedOver task ht).mono (List.prefix_append _ _)
    · obtain ⟨entry, hget, hmsg⟩ := hnext.msgs task ht
      have hindex : task.1 ∈ (List.range (newIndex - highest ops).toNat).map fun k : Nat =>
          highest ops + 1 + k := by
        rw [← hnext.indexes]
        exact List.mem_map_of_mem ht
      obtain ⟨k, hk, hkt⟩ := List.mem_map.mp hindex
      rw [List.mem_range] at hk
      exact ⟨ops, newIndex, List.prefix_refl _, by omega, by omega, entry, by rw [← h.entries]; exact hget, hmsg⟩
  · obtain ⟨done, hdone, hsm⟩ := h.worked
    exact ⟨done, by rw [hy.handed, hy.queue, hdone, List.append_assoc], by rw [hy.stateMachine]; exact hsm⟩

theorem Applies.change (h : Applies codec s ops x) (entries : Entries) :
    Applies codec s (ops ++ [.change entries]) { x with raft := { x.raft with entries := entries } } where
  entries := by rw [entriesAfter_concat]
  applied := by rw [highest_concat]; exact h.applied
  effects := h.effects
  indexes := by rw [highest_concat]; exact h.indexes
  handedOver := fun task ht => (h.handedOver task ht).mono (List.prefix_append _ _)
  worked := h.worked

/-- The worker runs the task at the front. -/
theorem Applies.work (h : Applies codec s ops x) :
    ∃ y, x.step codec .work = .ok y ∧ Applies codec s (ops ++ [.work]) y := by
  obtain ⟨done, hdone, hsm⟩ := h.worked
  have hentries : x.raft.entries = entriesAfter s.entries (ops ++ [.work]) := by
    rw [entriesAfter_concat]
    exact h.entries
  have happlied : x.raft.smc.appliedIndex = highest (ops ++ [.work]) := by
    rw [highest_concat]
    exact h.applied
  have hindexes : x.handed.map Prod.fst = (List.range (highest (ops ++ [.work]) + 1).toNat).map fun i : Nat =>
      (i : Int) := by
    rw [highest_concat]
    exact h.indexes
  have hhanded : ∀ task ∈ x.handed, HandedOver s.entries (ops ++ [.work]) task :=
    fun task ht => (h.handedOver task ht).mono (List.prefix_append _ _)
  cases hq : x.writeThreadPool.tasks with
  | nil =>
    have hwait : x.writeThreadPool.take? = none := by rw [ThreadPool.take?, hq]
    exact ⟨x, by simp only [step, hwait]; rfl, hentries, happlied, h.effects, hindexes, hhanded, done, hdone, hsm⟩
  | cons task tasks =>
    have htake : x.writeThreadPool.take? = some (task, ⟨tasks⟩) := by rw [ThreadPool.take?, hq]
    refine ⟨{ x with writeThreadPool := ⟨tasks⟩, stateMachine := (x.stateMachine.apply codec task.2).1 },
      by simp only [step, htake]; rfl, hentries, happlied, h.effects, hindexes, hhanded, done ++ [task], ?_, ?_⟩
    · rw [hdone, hq, List.append_assoc]
      rfl
    · rw [hsm, EasyStateMachine.applyAll, EasyStateMachine.applyAll, List.map_append, List.foldl_append]
      rfl

/-- **Operations keep what holds.** -/
theorem Applies.step (h : Applies codec s ops x) (op : ApplyOp)
    (hin : ∀ newIndex, op = .updateCommitIndexAndApply newIndex → newIndex < (entriesAfter s.entries ops).size) :
    ∃ y, x.step codec op = .ok y ∧ Applies codec s (ops ++ [op]) y := by
  cases op with
  | updateCommitIndexAndApply newIndex => exact h.call (hin newIndex rfl)
  | change entries => exact ⟨_, rfl, h.change entries⟩
  | work => exact h.work

theorem run_concat (ops : List ApplyOp) (op : ApplyOp) :
    run codec s (ops ++ [op]) = (run codec s ops).bind (Applier.step codec · op) := by
  simp only [run, List.foldlM_append, List.foldlM_cons, List.foldlM_nil, bind_pure]
  rfl

theorem run_applies (hin : CallsInRange s.entries ops) : ∃ x, run codec s ops = .ok x ∧ Applies codec s ops x := by
  induction ops using List.reverseRecOn with
  | nil => exact ⟨_, rfl, .start⟩
  | append_singleton ops op ih =>
    obtain ⟨hops, hop⟩ := callsInRange_concat.mp hin
    obtain ⟨x, hrun, hx⟩ := ih hops
    obtain ⟨y, hstep, hy⟩ := hx.step op hop
    refine ⟨y, ?_, hy⟩
    rw [run_concat, hrun]
    exact hstep

/-- **The entries are applied once, in order and with no gap.** -/
theorem applied_in_order (codec : EasyCodec) (s : RaftServer) (ops : List ApplyOp)
    (hin : CallsInRange s.entries ops) :
    ∃ x, run codec s ops = .ok x ∧
      x.handed.map Prod.fst = (List.range (highest ops + 1).toNat).map (fun i : Nat => (i : Int)) ∧
      (∀ task ∈ x.handed, HandedOver s.entries ops task) ∧
      x.drained codec = EasyStateMachine.initial.applyAll codec (x.handed.map Prod.snd) ∧
      ∀ key, (x.drained codec).mockStateMachine.find? key =
        (EasyStateMachine.lastCall codec (x.handed.map Prod.snd) key).map ApplyCall.v := by
  obtain ⟨x, hrun, hx⟩ := run_applies hin
  obtain ⟨done, hdone, hsm⟩ := hx.worked
  have hdrained : x.drained codec = EasyStateMachine.initial.applyAll codec (x.handed.map Prod.snd) := by
    rw [drained, hsm, hdone, List.map_append]
    exact (List.foldl_append ..).symm
  exact ⟨x, hrun, hx.indexes, hx.handedOver, hdrained, fun key => by
    rw [hdrained, EasyStateMachine.find?_applyAll]⟩

/-- What protobuf makes of a call with a key of one character and a small value. -/
def smallCalls : EasyCodec where
  parseApplyCall encoded :=
    match encoded.toList with
    | [_, _, key, _, v] => ⟨String.ofList [key], v.toNat⟩
    | _ => ⟨"", 0⟩
  serializeRespApply _ := "\x08\x01"

/-- k is set to 1, l to 2, and k to 3 by the entry that takes the place of another; the second call is for less. -/
def recommitted : List ApplyOp :=
  [.change (.reloaded [⟨1, 0, "\n\x01k\x10\x01"⟩, ⟨1, 1, "\n\x01l\x10\x02"⟩, ⟨1, 2, "\n\x01l\x10\x09"⟩]),
    .updateCommitIndexAndApply 1, .work, .updateCommitIndexAndApply 0,
    .change (.reloaded [⟨1, 0, "\n\x01k\x10\x01"⟩, ⟨1, 1, "\n\x01l\x10\x02"⟩, ⟨2, 2, "\n\x01k\x10\x03"⟩]),
    .updateCommitIndexAndApply 2]

theorem recommitted_applied :
    ∃ x, run smallCalls (RaftServer.start serverA threeServers.configuration) recommitted = .ok x ∧
    x.handed.map Prod.fst = [0, 1, 2] ∧ (x.drained smallCalls).mockStateMachine.find? "k" = some 3 := by
  obtain ⟨x, hrun, hindexes, -, -, hkey⟩ :=
    applied_in_order smallCalls (RaftServer.start serverA threeServers.configuration)
    recommitted (by simp [recommitted, CallsInRange, Entries.size, Entries.reloaded])
  have hmsgs : (run smallCalls (RaftServer.start serverA threeServers.configuration) recommitted).toOption.any
      (fun x =>
      x.handed.map Prod.snd = ["\n\x01k\x10\x01", "\n\x01l\x10\x02", "\n\x01k\x10\x03"]) = true :=
      by decide +kernel
  simp only [hrun, Except.toOption, Option.any_some, decide_eq_true_eq] at hmsgs
  refine ⟨x, hrun, hindexes, (hkey "k").trans ?_⟩
  rw [hmsgs]
  decide +kernel

end Applier

end MyRaft
