/-
`ThreadPool` (`state_machine/ThreadPool.h`) with all its workers: the mutex
`queue_mutex`, the condition variable, the queue, and the destructor.

A critical section is one step, and so is a wait from the release of the mutex
to the wake-up: the predicate of a wait is evaluated under the mutex. A call of
`enqueue` notifies after it has released the mutex, and so does the destructor.
`notify_one` wakes any worker that waits; a worker may also wake without it. A
worker that was woken looks at the queue again. A task ends, for an exception in
it goes to its future.

`enqueued`, `started` and `finished` record the run; no step reads them.
-/
import MyRaft.Apply
import MyRaft.Lib.Runs

namespace MyRaft

/-- Where a worker is in its loop. -/
inductive Worker (α : Type) where
  /-- Before it takes the mutex and looks at the queue. -/
  | ready
  | waiting
  | running (task : α)
  | returned
deriving DecidableEq, Repr

namespace Worker

variable {α : Type}

def task? : Worker α → Option α
  | running task => some task
  | _ => none

/-- It will look at the queue again. -/
def isActive : Worker α → Bool
  | ready | running _ => true
  | waiting | returned => false

/-- The steps it takes till it waits or returns. -/
def load : Worker α → Nat
  | ready => 1
  | running _ => 2
  | waiting | returned => 0

def isWaiting : Worker α → Bool
  | waiting => true
  | _ => false

def isReturned : Worker α → Bool
  | returned => true
  | _ => false

/-- After a notification. -/
def notified : Worker α → Worker α
  | waiting => ready
  | w => w

end Worker

structure Workers (α : Type) where
  workers : List (Worker α)
  tasks : List α
  stop : Bool
  /-- The calls of `enqueue` that have still to notify a worker. -/
  enqueuing : Nat
  /-- The destructor has still to notify all workers. -/
  destructing : Bool
  /-- The destructor has joined all workers. -/
  destroyed : Bool
  enqueued : List α
  started : List α
  finished : List α
deriving DecidableEq, Repr

namespace Workers

variable {α : Type}

/-- The constructor. -/
def start (threads : Nat) : Workers α := ⟨List.replicate threads .ready, [], false, 0, false, false, [], [], []⟩

/-- The critical section of `enqueue`, which throws on a stopped pool. -/
def enqueue (task : α) (p : Workers α) : Option (Workers α) :=
  if p.stop then none
  else some { p with tasks := p.tasks ++ [task], enqueuing := p.enqueuing + 1, enqueued := p.enqueued ++ [task] }

/-- `condition.notify_one`: one of the workers that wait is woken, if there is any. -/
def notifyOne (woken : Option Nat) (p : Workers α) : Option (Workers α) :=
  if p.enqueuing = 0 then none
  else match woken with
    | none =>
      if p.workers.any Worker.isWaiting then none
      else some { p with enqueuing := p.enqueuing - 1 }
    | some i =>
      match p.workers[i]? with
      | some .waiting => some { p with enqueuing := p.enqueuing - 1, workers := p.workers.set i .ready }
      | _ => none

/-- The critical section of a worker. -/
def look (i : Nat) (p : Workers α) : Option (Workers α) :=
  match p.workers[i]? with
  | some .ready =>
    match p.tasks with
    | [] =>
      if p.stop then some { p with workers := p.workers.set i .returned }
      else some { p with workers := p.workers.set i .waiting }
    | task :: tasks =>
      some { p with workers := p.workers.set i (.running task), tasks := tasks, started := p.started ++ [task] }
  | _ => none

/-- The end of a task. -/
def finish (i : Nat) (p : Workers α) : Option (Workers α) :=
  match p.workers[i]? with
  | some (.running task) => some { p with workers := p.workers.set i .ready, finished := p.finished ++ [task] }
  | _ => none

/-- A worker wakes for no reason. -/
def wake (i : Nat) (p : Workers α) : Option (Workers α) :=
  match p.workers[i]? with
  | some .waiting => some { p with workers := p.workers.set i .ready }
  | _ => none

/-- The critical section of the destructor. -/
def setStop (p : Workers α) : Option (Workers α) :=
  if p.stop then none else some { p with stop := true, destructing := true }

/-- `condition.notify_all`. -/
def notifyAll (p : Workers α) : Option (Workers α) :=
  if p.destructing then some { p with workers := p.workers.map Worker.notified, destructing := false } else none

/-- The destructor has joined the last worker. -/
def join (p : Workers α) : Option (Workers α) :=
  if p.stop && !p.destructing && !p.destroyed && p.workers.all Worker.isReturned then some
    { p with destroyed := true }
  else none

inductive Event (α : Type) where
  | enqueue (task : α)
  | notifyOne (woken : Option Nat)
  | look (i : Nat)
  | finish (i : Nat)
  | wake (i : Nat)
  | setStop
  | notifyAll
  | join

def step (p : Workers α) : Event α → Option (Workers α)
  | .enqueue task => p.enqueue task
  | .notifyOne woken => p.notifyOne woken
  | .look i => p.look i
  | .finish i => p.finish i
  | .wake i => p.wake i
  | .setStop => p.setStop
  | .notifyAll => p.notifyAll
  | .join => p.join

/-- The state after some events of a pool of `threads` workers, if they are possible. -/
def run (threads : Nat) (events : List (Event α)) : Option (Workers α) := events.foldlM step (start threads)

/-- What the pool does by itself, and must do. -/
def Event.own : Event α → Bool
  | .notifyOne _ | .look _ | .finish _ | .notifyAll | .join => true
  | .enqueue _ | .wake _ | .setStop => false

/-- The tasks that are run now. -/
def running (p : Workers α) : List α := p.workers.filterMap Worker.task?

def active (p : Workers α) : Nat := p.workers.countP Worker.isActive

variable {p p' : Workers α} {threads : Nat} {w : Worker α} {task : α}

/-! ## The invariant -/

/-- One worker goes from `w` to `w'`. -/
structure Turns (w w' : Worker α) (ws ws' : List (Worker α)) : Prop where
  others : ∃ others, ws.Perm (w :: others) ∧ ws'.Perm (w' :: others)

theorem turns_set {ws : List (Worker α)} {i : Nat} (h : ws[i]? = some w) (w' : Worker α) :
    Turns w w' ws (ws.set i w') := by
  obtain ⟨hi, rfl⟩ := List.getElem?_eq_some_iff.mp h
  refine ⟨ws.eraseIdx i, (List.getElem_cons_eraseIdx_perm hi).symm, ?_⟩
  have hset := List.getElem_cons_eraseIdx_perm (l := ws.set i w') (n := i) (by simpa using hi)
  rw [List.getElem_set_self, List.eraseIdx_set_eq] at hset
  exact hset.symm

namespace Turns

variable {w' x : Worker α} {ws ws' : List (Worker α)} (h : Turns w w' ws ws')
include h

theorem length : ws'.length = ws.length := by
  obtain ⟨others, hws, hws'⟩ := h.others
  rw [hws.length_eq, hws'.length_eq]
  rfl

theorem mem_old : w ∈ ws := by
  obtain ⟨others, hws, -⟩ := h.others
  exact hws.mem_iff.mpr List.mem_cons_self

theorem mem_new (hx : x ∈ ws') : x = w' ∨ x ∈ ws := by
  obtain ⟨others, hws, hws'⟩ := h.others
  rcases List.mem_cons.mp (hws'.mem_iff.mp hx) with hx | hx
  · exact .inl hx
  · exact .inr (hws.mem_iff.mpr (List.mem_cons_of_mem _ hx))

theorem countP (q : Worker α → Bool) :
    ws'.countP q + (if q w then 1 else 0) = ws.countP q + (if q w' then 1 else 0) := by
  obtain ⟨others, hws, hws'⟩ := h.others
  rw [hws.countP_eq, hws'.countP_eq, List.countP_cons, List.countP_cons]
  omega

theorem tasks :
    (w.task?.toList ++ ws'.filterMap Worker.task?).Perm (w'.task?.toList ++ ws.filterMap Worker.task?) := by
  have hcons : ∀ (w : Worker α) (others : List (Worker α)),
      (w :: others).filterMap Worker.task? = w.task?.toList ++ others.filterMap Worker.task? := fun w others => by
    rw [List.filterMap_cons]
    cases w.task? <;> rfl
  obtain ⟨others, hws, hws'⟩ := h.others
  have hold := (hws.filterMap Worker.task?).append_left w'.task?.toList
  have hnew := (hws'.filterMap Worker.task?).append_left w.task?.toList
  rw [hcons] at hold hnew
  refine hnew.trans (List.Perm.trans ?_ hold.symm)
  rw [← List.append_assoc, ← List.append_assoc]
  exact List.perm_append_comm.append_right _

end Turns

/-- What holds of a pool of `threads` workers. -/
structure Sound (threads : Nat) (p : Workers α) : Prop where
  length : p.workers.length = threads
  queue : p.enqueued = p.started ++ p.tasks
  started : p.started.Perm (p.finished ++ p.running)
  /-- A worker waits only where the tasks are others' to take. -/
  awake : .waiting ∈ p.workers → p.tasks.length ≤ p.enqueuing + p.active
  stopped : p.stop = true → p.destructing = false → .waiting ∉ p.workers
  returned : .returned ∈ p.workers → p.stop = true ∧ p.tasks = []
  destructing : p.destructing = true → p.stop = true ∧ p.destroyed = false
  destroyed : p.destroyed = true → p.stop = true ∧ ∀ w ∈ p.workers, w = .returned

theorem sound_start : Sound threads (start threads : Workers α) where
  length := by simp [start]
  queue := rfl
  started := by simp [start, running, Worker.task?]
  awake := by simp [start]
  stopped := by simp [start]
  returned := by simp [start]
  destructing := by simp [start]
  destroyed := by simp [start]

theorem Sound.enqueue (h : Sound threads p) (hs : p.enqueue task = some p') : Sound threads p' := by
  unfold Workers.enqueue at hs
  split at hs
  · cases hs
  rename_i hstop
  cases hs
  refine ⟨h.length, by simp [h.queue], h.started, fun hw => ?_, h.stopped, fun hw => ?_, h.destructing,
    h.destroyed⟩
  · have := h.awake hw
    simp only [active, List.length_append, List.length_singleton] at this ⊢
    omega
  · exact absurd (h.returned hw).1 hstop

/-- A worker that waited looks at the queue again. -/
theorem Sound.woken (h : Sound threads p) {ws : List (Worker α)} (ht : Turns .waiting .ready p.workers ws)
    {enqueuing : Nat} (hn : p.enqueuing ≤ enqueuing + 1) : Sound threads
    { p with workers := ws, enqueuing := enqueuing } where
  length := ht.length.trans h.length
  queue := h.queue
  started := h.started.trans (ht.tasks.symm.append_left _)
  awake _ := by
    have hawake := h.awake ht.mem_old
    have hcount := ht.countP Worker.isActive
    simp only [active, Worker.isActive, if_true, Bool.false_eq_true, if_false] at hawake hcount ⊢
    omega
  stopped hstop hd := absurd ht.mem_old (h.stopped hstop hd)
  returned hw := h.returned (by simpa using ht.mem_new hw)
  destructing := h.destructing
  destroyed hd := absurd ((h.destroyed hd).2 _ ht.mem_old) (by simp)

theorem Sound.notifyOne (h : Sound threads p) {woken : Option Nat} (hs : p.notifyOne woken = some p') :
    Sound threads p' := by
  unfold Workers.notifyOne at hs
  split at hs
  · cases hs
  rename_i hpos
  split at hs
  · split at hs
    · cases hs
    rename_i hnone
    cases hs
    have hno : .waiting ∉ p.workers := fun hw => hnone (List.any_eq_true.mpr ⟨_, hw, rfl⟩)
    exact ⟨h.length, h.queue, h.started, fun hw => absurd hw hno, h.stopped, h.returned, h.destructing,
      h.destroyed⟩
  · split at hs
    · rename_i hi
      cases hs
      exact h.woken (turns_set hi .ready) (by omega)
    · cases hs

theorem Sound.wake (h : Sound threads p) {i : Nat} (hs : p.wake i = some p') : Sound threads p' := by
  unfold Workers.wake at hs
  split at hs
  · rename_i hi
    cases hs
    exact h.woken (turns_set hi .ready) (Nat.le_succ _)
  · cases hs

theorem Sound.finish (h : Sound threads p) {i : Nat} (hs : p.finish i = some p') : Sound threads p' := by
  unfold Workers.finish at hs
  split at hs
  swap
  · cases hs
  rename_i task hi
  cases hs
  have ht := turns_set hi .ready
  refine ⟨ht.length.trans h.length, h.queue, ?_, fun hw => ?_, fun hstop hd hw => ?_, fun hw => ?_, h.destructing,
    fun hd => absurd ((h.destroyed hd).2 _ ht.mem_old) (by simp)⟩
  · have htasks : (task :: (p.workers.set i .ready).filterMap Worker.task?).Perm p.running := ht.tasks
    refine h.started.trans ((htasks.symm.append_left _).trans ?_)
    simp [running]
  · have hawake := h.awake (by simpa using ht.mem_new hw)
    have hcount := ht.countP Worker.isActive
    simp only [active, Worker.isActive, if_true] at hawake hcount ⊢
    omega
  · exact h.stopped hstop hd (by simpa using ht.mem_new hw)
  · exact h.returned (by simpa using ht.mem_new hw)

theorem Sound.look (h : Sound threads p) {i : Nat} (hs : p.look i = some p') : Sound threads p' := by
  unfold Workers.look at hs
  split at hs
  swap
  · cases hs
  rename_i hi
  have hdestroyed : p.destroyed ≠ true :=
    fun hd => absurd ((h.destroyed hd).2 _ (List.mem_of_getElem? hi)) (by simp)
  split at hs
  · rename_i hempty
    split at hs
    · rename_i hstop
      cases hs
      have ht := turns_set hi .returned
      refine ⟨ht.length.trans h.length, h.queue, h.started.trans (ht.tasks.symm.append_left _),
        fun _ => by simp [hempty],
        fun hstop hd hw => h.stopped hstop hd (by simpa using ht.mem_new hw), fun _ =>
          ⟨hstop, hempty⟩, h.destructing,
        fun hd => absurd hd hdestroyed⟩
    · rename_i hstop
      cases hs
      have ht := turns_set hi .waiting
      exact ⟨ht.length.trans h.length, h.queue, h.started.trans (ht.tasks.symm.append_left _),
        fun _ => by simp [hempty],
        fun hs => absurd hs hstop, fun hw => h.returned (by simpa using ht.mem_new hw), h.destructing,
        fun hd => absurd hd hdestroyed⟩
  · rename_i task tasks htasks
    cases hs
    have ht := turns_set hi (.running task)
    refine ⟨ht.length.trans h.length, by simp [h.queue, htasks], ?_, fun hw => ?_, fun hstop hd hw => ?_,
      fun hw => ?_,
      h.destructing, fun hd => absurd hd hdestroyed⟩
    · have hrun : ((p.workers.set i (.running task)).filterMap Worker.task?).Perm (task :: p.running) := ht.tasks
      refine ((h.started.append_right [task]).trans ?_).trans (hrun.symm.append_left p.finished)
      rw [List.append_assoc]
      exact (List.perm_append_singleton task p.running).append_left _
    · have hawake := h.awake (by simpa using ht.mem_new hw)
      have hcount := ht.countP Worker.isActive
      simp only [active, Worker.isActive, if_true, htasks, List.length_cons] at hawake hcount ⊢
      omega
    · exact h.stopped hstop hd (by simpa using ht.mem_new hw)
    · have hempty := (h.returned (by simpa using ht.mem_new hw)).2
      rw [htasks] at hempty
      cases hempty

theorem Sound.setStop (h : Sound threads p) (hs : p.setStop = some p') : Sound threads p' := by
  unfold Workers.setStop at hs
  split at hs
  · cases hs
  rename_i hstop
  cases hs
  exact ⟨h.length, h.queue, h.started, h.awake, fun _ hd => absurd hd (by simp),
    fun hw => absurd (h.returned hw).1 hstop,
    fun _ => ⟨rfl, by simpa using fun hd => hstop (h.destroyed hd).1⟩, fun hd => absurd (h.destroyed hd).1 hstop⟩

theorem Sound.notifyAll (h : Sound threads p) (hs : p.notifyAll = some p') : Sound threads p' := by
  unfold Workers.notifyAll at hs
  split at hs
  swap
  · cases hs
  rename_i hd
  cases hs
  have hno : (.waiting : Worker α) ∉ p.workers.map Worker.notified := by
    simp only [List.mem_map, not_exists, not_and]
    rintro (_ | _ | _ | _) - hw <;> cases hw
  have hsame : (p.workers.map Worker.notified).filterMap Worker.task? = p.workers.filterMap Worker.task? := by
    rw [List.filterMap_map]
    exact List.filterMap_congr fun w _ => by cases w <;> rfl
  refine ⟨by simp [h.length], h.queue, by simpa [running, hsame] using h.started, fun hw => absurd hw hno,
    fun _ _ => hno,
    fun hw => ?_, fun hd => absurd hd (by simp), fun hdes => ?_⟩
  · obtain ⟨w, hw, hn⟩ := List.mem_map.mp hw
    cases w <;> cases hn
    exact h.returned hw
  · exact absurd hdes (by simp [(h.destructing hd).2])

theorem Sound.join (h : Sound threads p) (hs : p.join = some p') : Sound threads p' := by
  unfold Workers.join at hs
  split at hs
  swap
  · cases hs
  rename_i hall
  cases hs
  simp only [Bool.and_eq_true, Bool.not_eq_true', List.all_eq_true] at hall
  obtain ⟨⟨⟨hstop, hd⟩, -⟩, hall⟩ := hall
  refine ⟨h.length, h.queue, h.started, h.awake, h.stopped, h.returned, fun h => by simp [hd] at h,
    fun _ => ⟨hstop, fun w hw => ?_⟩⟩
  have := hall w hw
  cases w <;> simp [Worker.isReturned] at this ⊢

/-- **Each step keeps the pool sound.** -/
theorem Sound.step (h : Sound threads p) {e : Event α} (hs : p.step e = some p') : Sound threads p' := by
  cases e with
  | enqueue task => exact h.enqueue hs
  | notifyOne woken => exact h.notifyOne hs
  | look i => exact h.look hs
  | finish i => exact h.finish hs
  | wake i => exact h.wake hs
  | setStop => exact h.setStop hs
  | notifyAll => exact h.notifyAll hs
  | join => exact h.join hs

/-! ## The work ahead -/

def load (ws : List (Worker α)) : Nat := (ws.map Worker.load).sum

/-- A bound on the steps that the pool takes by itself. -/
def potential (p : Workers α) : Nat :=
  2 * p.tasks.length + 2 * p.enqueuing + load p.workers + (if p.destructing then p.workers.length + 1 else 0) +
    (if p.destroyed then 0 else 1)

/-- What an event adds to it. -/
def Event.income (threads : Nat) : Event α → Nat
  | .enqueue _ => 4
  | .wake _ => 1
  | .setStop => threads + 1
  | _ => 0

/-- 1 for a step of the pool itself. -/
def Event.cost (e : Event α) : Nat := if e.own then 1 else 0

theorem Turns.load {w' : Worker α} {ws ws' : List (Worker α)} (h : Turns w w' ws ws') :
    Workers.load ws' + w.load = Workers.load ws + w'.load := by
  obtain ⟨others, hws, hws'⟩ := h.others
  simp only [Workers.load, (hws.map Worker.load).sum_nat, (hws'.map Worker.load).sum_nat, List.map_cons,
    List.sum_cons]
  omega

theorem load_notified (ws : List (Worker α)) : load (ws.map Worker.notified) ≤ load ws + ws.length := by
  induction ws with
  | nil => exact Nat.le_refl _
  | cons w ws ih =>
    have hw : w.notified.load ≤ w.load + 1 := by cases w <;> simp [Worker.notified, Worker.load]
    simp only [load, List.map_cons, List.sum_cons, List.length_cons] at ih ⊢
    omega

/-- **A step of the pool itself takes from the work ahead.** -/
theorem Sound.pays (h : Sound threads p) {e : Event α} (hs : p.step e = some p') :
    p'.potential + e.cost ≤ p.potential + e.income threads := by
  -- a worker that turns, and what its step does to the rest
  have hturn : ∀ {w : Worker α} {i : Nat} (w' : Worker α), p.workers[i]? = some w →
      load (p.workers.set i w') + w.load = load p.workers + w'.load ∧
      (p.workers.set i w').length = p.workers.length :=
    fun w' hi => ⟨(turns_set hi w').load, List.length_set⟩
  cases e with
  | enqueue task =>
    simp only [Workers.step, Workers.enqueue] at hs
    split at hs
    · cases hs
    · cases hs
      simp only [potential, Event.cost, Event.own, Event.income, List.length_append, List.length_singleton,
        Bool.false_eq_true,
        if_false]
      omega
  | notifyOne woken =>
    simp only [Workers.step, Workers.notifyOne] at hs
    split at hs
    · cases hs
    rename_i hpos
    split at hs
    · split at hs
      · cases hs
      · cases hs
        simp only [potential, Event.cost, Event.own, Event.income, if_true]
        omega
    · split at hs
      · rename_i hi
        cases hs
        obtain ⟨hload, hlen⟩ := hturn .ready hi
        simp only [potential, Event.cost, Event.own, Event.income, if_true, hlen, Worker.load] at hload ⊢
        omega
      · cases hs
  | look i =>
    simp only [Workers.step, Workers.look] at hs
    split at hs
    swap
    · cases hs
    rename_i hi
    split at hs
    · split at hs
      · cases hs
        obtain ⟨hload, hlen⟩ := hturn .returned hi
        simp only [potential, Event.cost, Event.own, Event.income, if_true, hlen, Worker.load] at hload ⊢
        omega
      · cases hs
        obtain ⟨hload, hlen⟩ := hturn .waiting hi
        simp only [potential, Event.cost, Event.own, Event.income, if_true, hlen, Worker.load] at hload ⊢
        omega
    · rename_i task tasks htasks
      cases hs
      obtain ⟨hload, hlen⟩ := hturn (.running task) hi
      simp only [potential, Event.cost, Event.own, Event.income, if_true, hlen, Worker.load, htasks,
        List.length_cons] at hload ⊢
      omega
  | finish i =>
    simp only [Workers.step, Workers.finish] at hs
    split at hs
    · rename_i task hi
      cases hs
      obtain ⟨hload, hlen⟩ := hturn .ready hi
      simp only [potential, Event.cost, Event.own, Event.income, if_true, hlen, Worker.load] at hload ⊢
      omega
    · cases hs
  | wake i =>
    simp only [Workers.step, Workers.wake] at hs
    split at hs
    · rename_i hi
      cases hs
      obtain ⟨hload, hlen⟩ := hturn .ready hi
      simp only [potential, Event.cost, Event.own, Event.income, Bool.false_eq_true, if_false, hlen,
        Worker.load] at hload ⊢
      omega
    · cases hs
  | setStop =>
    simp only [Workers.step, Workers.setStop] at hs
    split at hs
    · cases hs
    · cases hs
      have hlen := h.length
      simp only [potential, Event.cost, Event.own, Event.income, Bool.false_eq_true, if_false, if_true]
      omega
  | notifyAll =>
    simp only [Workers.step, Workers.notifyAll] at hs
    split at hs
    · rename_i hd
      cases hs
      have hload := load_notified p.workers
      simp only [potential, Event.cost, Event.own, Event.income, Bool.false_eq_true, if_false, if_true, hd]
      omega
    · cases hs
  | join =>
    simp only [Workers.step, Workers.join] at hs
    split at hs
    · rename_i hall
      cases hs
      simp only [Bool.and_eq_true, Bool.not_eq_true'] at hall
      simp only [potential, Event.cost, Event.own, Event.income, if_true, hall.1.2, Bool.false_eq_true, if_false]
      omega
    · cases hs

theorem Sound.run (h : Sound threads p) {events : List (Event α)} (hrun : events.foldlM Workers.step p = some p') :
    Sound threads p' ∧
      p'.potential + (events.map Event.cost).sum ≤ p.potential + (events.map (Event.income threads)).sum := by
  refine ⟨Runs.run_keeps (I := Sound threads) ?_ h hrun, Runs.run_pays (I := Sound threads) ?_ ?_ h hrun⟩
  · exact fun h hs => h.step hs
  · exact fun h hs => h.step hs
  · exact fun h hs => h.pays hs

theorem sound_of_run {events : List (Event α)} (hrun : run threads events = some p) : Sound threads p :=
  (sound_start.run hrun).1

/-- The pool can do no more by itself. -/
def Quiet (p : Workers α) : Prop := ∀ e : Event α, e.own = true → p.step e = none

/-- Nothing is left to do; a stopped pool is destroyed. -/
structure Done (p : Workers α) : Prop where
  tasks : p.tasks = []
  finished : p.finished.Perm p.enqueued
  destroyed : p.stop = true → p.destroyed = true

/-- Without a worker that runs a task or will look at the queue, none can have been left in it. -/
theorem Sound.done_of_quiet (h : Sound threads p) (hpos : 0 < threads) (hq : p.Quiet) : p.Done := by
  have hready : .ready ∉ p.workers := fun hw => by
    obtain ⟨i, hi⟩ := List.mem_iff_getElem?.mp hw
    have := hq (.look i) rfl
    simp only [Workers.step, Workers.look, hi] at this
    split at this
    · split at this <;> cases this
    · cases this
  have hrunning : ∀ task, .running task ∉ p.workers := fun task hw => by
    obtain ⟨i, hi⟩ := List.mem_iff_getElem?.mp hw
    have := hq (.finish i) rfl
    simp only [Workers.step, Workers.finish, hi] at this
    cases this
  have henqueuing : p.enqueuing = 0 := by
    by_contra hne
    by_cases hw : .waiting ∈ p.workers
    · obtain ⟨i, hi⟩ := List.mem_iff_getElem?.mp hw
      have := hq (.notifyOne (some i)) rfl
      simp [Workers.step, Workers.notifyOne, hi, hne] at this
    · have hnone : p.workers.any Worker.isWaiting = false := by
        rw [List.any_eq_false]
        intro w hm
        cases w with
        | waiting => exact absurd hm hw
        | _ => simp [Worker.isWaiting]
      have := hq (.notifyOne none) rfl
      simp [Workers.step, Workers.notifyOne, hnone, hne] at this
  have hdestructing : p.destructing = false := by
    by_contra hd
    have := hq .notifyAll rfl
    simp [Workers.step, Workers.notifyAll, hd] at this
  obtain ⟨w, hw⟩ : ∃ w, w ∈ p.workers := List.exists_mem_of_length_pos (by rw [h.length]; exact hpos)
  have hidle : ∀ w ∈ p.workers, w = .waiting ∨ w = .returned := fun w hw => by
    cases w with
    | ready => exact absurd hw hready
    | running task => exact absurd hw (hrunning task)
    | _ => simp
  have hactive : p.active = 0 := List.countP_eq_zero.mpr fun w hw => by
    rcases hidle w hw with rfl | rfl <;> simp [Worker.isActive]
  have htasks : p.tasks = [] := by
    rcases hidle w hw with rfl | rfl
    · have := h.awake hw
      exact List.length_eq_zero_iff.mp (by omega)
    · exact (h.returned hw).2
  have hnone : p.running = [] := List.filterMap_eq_nil_iff.mpr fun w hw => by
    rcases hidle w hw with rfl | rfl <;> rfl
  refine ⟨htasks, ?_, fun hstop => ?_⟩
  · have hstarted := h.started
    rw [hnone, List.append_nil] at hstarted
    rw [h.queue, htasks, List.append_nil]
    exact hstarted.symm
  · by_contra hd
    have hall : p.workers.all Worker.isReturned = true := List.all_eq_true.mpr fun w hw => by
      rcases hidle w hw with rfl | rfl
      · exact absurd hw (h.stopped hstop hdestructing)
      · rfl
    have := hq .join rfl
    simp [Workers.step, Workers.join, hstop, hdestructing, hd, hall] at this

/-- **Tasks are started in the order of `enqueue`, each once, and the destructor leaves none behind.** -/
theorem tasks_once {events : List (Event α)} (hrun : run threads events = some p) :
    p.started <+: p.enqueued ∧ p.enqueued = p.started ++ p.tasks ∧ p.started.Perm (p.finished ++ p.running) ∧
      (p.destroyed = true → 0 < threads → p.tasks = [] ∧ p.finished.Perm p.enqueued) := by
  have h := sound_of_run hrun
  refine ⟨h.queue ▸ List.prefix_append _ _, h.queue, h.started, fun hd hpos => ?_⟩
  obtain ⟨-, hall⟩ := h.destroyed hd
  obtain ⟨w, hw⟩ : ∃ w, w ∈ p.workers := List.exists_mem_of_length_pos (by rw [h.length]; exact hpos)
  have htasks := (h.returned (hall w hw ▸ hw)).2
  have hnone : p.running = [] := List.filterMap_eq_nil_iff.mpr fun w hw => by rw [hall w hw]; rfl
  have hstarted := h.started
  rw [hnone, List.append_nil] at hstarted
  rw [h.queue, htasks, List.append_nil]
  exact ⟨rfl, hstarted.symm⟩

theorem potential_start : (start threads : Workers α).potential = threads + 1 := by
  simp [potential, start, load, Worker.load]

/-- **No wake-up is lost** in a pool of one worker or more: however the workers are scheduled, the pool
takes a bounded number of steps, and where it can take no more all tasks are done and a stopped pool is
destroyed. -/
theorem pool_drains {events : List (Event α)} (hrun : run threads events = some p) (hpos : 0 < threads) :
    p.potential + (events.map Event.cost).sum ≤ threads + 1 + (events.map (Event.income threads)).sum ∧
      ∀ (own : List (Event α)) (p' : Workers α), (∀ e ∈ own, e.own = true) → own.foldlM step p = some p' →
        own.length ≤ p.potential ∧ (p'.Quiet → p'.Done) := by
  have h := sound_of_run hrun
  refine ⟨?_, fun own p' hown hrun' => ⟨?_, fun hq => ?_⟩⟩
  · have hstart : (start threads : Workers α).potential = threads + 1 := potential_start
    rw [← hstart]
    exact (sound_start.run hrun).2
  · have hpays := (h.run hrun').2
    have hcost : own.map Event.cost = own.map fun _ => 1 := List.map_congr_left fun e he => if_pos (hown e he)
    have hincome : own.map (Event.income threads) = own.map fun _ => 0 := List.map_congr_left fun e he => by
      have howned := hown e he
      cases e <;> simp [Event.own, Event.income] at howned ⊢
    rw [hcost, hincome] at hpays
    simp only [List.map_const', List.sum_replicate_nat, Nat.mul_one, Nat.mul_zero, Nat.add_zero] at hpays
    omega
  · exact (h.run hrun').1.done_of_quiet hpos hq

/-! ## One worker -/

/-- The queue of a pool, with the task that is run at its front. -/
def queue (p : Workers α) : ThreadPool α := ⟨p.running ++ p.tasks⟩

/-- What an event is to the queue and to the tasks that were taken from it. -/
def follow (q : ThreadPool α × List α) : Event α → Option (ThreadPool α × List α)
  | .enqueue task => some (q.1.enqueue task, q.2)
  | .finish _ => q.1.take?.map fun taken => (taken.2, q.2 ++ [taken.1])
  | _ => some q

@[simp] theorem tasks_one (w : Worker α) : [w].filterMap Worker.task? = w.task?.toList := by
  cases w <;> rfl

theorem Sound.one (h : Sound 1 p) {i : Nat} (hi : p.workers[i]? = some w) : i = 0 ∧ p.workers = [w] := by
  have hlt := (List.getElem?_eq_some_iff.mp hi).1
  rw [h.length] at hlt
  obtain rfl : i = 0 := by omega
  obtain ⟨v, hv⟩ := List.length_eq_one_iff.mp h.length
  rw [hv] at hi ⊢
  exact ⟨rfl, by simpa using hi⟩

/-- A step of the only worker is one of the queue, or none. -/
theorem Sound.follows (h : Sound 1 p) {e : Event α} (hs : p.step e = some p') :
    follow (p.queue, p.finished) e = some (p'.queue, p'.finished) := by
  cases e with
  | enqueue task =>
    simp only [Workers.step, Workers.enqueue] at hs
    split at hs
    · cases hs
    · cases hs
      simp [follow, Workers.queue, ThreadPool.enqueue, running]
  | notifyOne woken =>
    simp only [Workers.step, Workers.notifyOne] at hs
    split at hs
    · cases hs
    split at hs
    · split at hs
      · cases hs
      · cases hs
        rfl
    · split at hs
      · rename_i hi
        obtain ⟨rfl, hws⟩ := h.one hi
        cases hs
        simp [follow, Workers.queue, running, hws, Worker.task?]
      · cases hs
  | look i =>
    simp only [Workers.step, Workers.look] at hs
    split at hs
    swap
    · cases hs
    rename_i hi
    obtain ⟨rfl, hws⟩ := h.one hi
    split at hs
    · rename_i hempty
      split at hs
      · cases hs
        simp [follow, Workers.queue, running, hws, Worker.task?]
      · cases hs
        simp [follow, Workers.queue, running, hws, Worker.task?]
    · rename_i task tasks htasks
      cases hs
      simp [follow, Workers.queue, running, hws, htasks, Worker.task?]
  | finish i =>
    simp only [Workers.step, Workers.finish] at hs
    split at hs
    · rename_i task hi
      obtain ⟨rfl, hws⟩ := h.one hi
      cases hs
      simp [follow, Workers.queue, running, hws, Worker.task?, ThreadPool.take?]
    · cases hs
  | wake i =>
    simp only [Workers.step, Workers.wake] at hs
    split at hs
    · rename_i hi
      obtain ⟨rfl, hws⟩ := h.one hi
      cases hs
      simp [follow, Workers.queue, running, hws, Worker.task?]
    · cases hs
  | setStop =>
    simp only [Workers.step, Workers.setStop] at hs
    split at hs
    · cases hs
    · cases hs
      rfl
  | notifyAll =>
    simp only [Workers.step, Workers.notifyAll] at hs
    split at hs
    · cases hs
      have hsame : (p.workers.map Worker.notified).filterMap Worker.task? = p.workers.filterMap Worker.task? := by
        rw [List.filterMap_map]
        exact List.filterMap_congr fun w _ => by cases w <;> rfl
      simp [follow, Workers.queue, running, hsame]
    · cases hs
  | join =>
    simp only [Workers.step, Workers.join] at hs
    split at hs
    · cases hs
      rfl
    · cases hs

/-- The tasks that an event enqueues. -/
def Event.tasks : Event α → List α
  | .enqueue task => [task]
  | _ => []

theorem step_enqueued {e : Event α} (hs : p.step e = some p') : p'.enqueued = p.enqueued ++ e.tasks := by
  cases e <;> simp only [Workers.step, Workers.enqueue, Workers.notifyOne, Workers.look, Workers.finish,
    Workers.wake,
    Workers.setStop, Workers.notifyAll, Workers.join] at hs <;> grind [Event.tasks]

/-- The tasks taken from the queue and those left in it are those put there. -/
theorem follow_tasks {q q' : ThreadPool α × List α} {e : Event α} (h : follow q e = some q') :
    q'.2 ++ q'.1.tasks = q.2 ++ q.1.tasks ++ e.tasks := by
  cases e with
  | enqueue task =>
    cases h
    simp [ThreadPool.enqueue, Event.tasks]
  | finish i =>
    obtain ⟨⟨task, rest⟩, htake, rfl⟩ := Option.map_eq_some_iff.mp h
    unfold ThreadPool.take? at htake
    split at htake
    · cases htake
    · rename_i htasks
      cases htake
      simp [htasks, Event.tasks]
  | _ =>
    cases h
    simp [Event.tasks]

/-- **A pool of one worker is a queue**: it ends the tasks one after the other, in the order of `enqueue`. -/
theorem one_worker_queue {events : List (Event α)} (hrun : run 1 events = some p) :
    events.foldlM follow (⟨[]⟩, []) = some (p.queue, p.finished) ∧ p.finished ++ p.queue.tasks = p.enqueued := by
  constructor
  · refine Runs.run_simulates (I := Sound 1) (f := fun p => (p.queue, p.finished)) ?_ ?_ sound_start hrun
    · exact fun h hs => h.step hs
    · exact fun h hs => h.follows hs
  · refine (Runs.run_keeps (I := fun p => Sound 1 p ∧ p.finished ++ p.queue.tasks = p.enqueued) ?_
      ⟨sound_start, rfl⟩ hrun).2
    rintro p e p' ⟨h, horder⟩ hs
    exact ⟨h.step hs, by rw [follow_tasks (h.follows hs), horder, step_enqueued hs]⟩

/-- Two workers and two tasks; the second task waits for no notification. -/
def twoTasks : List (Event Nat) :=
  [.look 0, .enqueue 1, .enqueue 2, .look 1, .notifyOne (some 0), .look 0, .notifyOne none, .finish 0,
  .look 0, .finish 1]

theorem twoTasks_started : ∃ p, run 2 twoTasks = some p ∧ p.finished = [2, 1] ∧ p.started <+: p.enqueued := by
  obtain ⟨p, hrun, hfinished⟩ : ∃ p, run 2 twoTasks = some p ∧ p.finished = [2, 1] := ⟨_, rfl, rfl⟩
  exact ⟨p, hrun, hfinished, (tasks_once hrun).1⟩

theorem twoTasks_drained : ∃ p, run 2 (twoTasks.take 5) = some p ∧ p.finished = [] ∧
    ∀ (own : List (Event Nat)) (p' : Workers Nat), (∀ e ∈ own, e.own = true) → own.foldlM step p = some p' →
      own.length ≤ p.potential ∧ (p'.Quiet → p'.Done) := by
  obtain ⟨p, hrun, hfinished⟩ : ∃ p, run 2 (twoTasks.take 5) = some p ∧ p.finished = [] := ⟨_, rfl, rfl⟩
  exact ⟨p, hrun, hfinished, (pool_drains hrun (by decide)).2⟩

/-- One worker, and tasks that come while it runs. -/
def oneByOne : List (Event Nat) :=
  [.look 0, .enqueue 1, .notifyOne (some 0), .look 0, .enqueue 2, .enqueue 3, .finish 0, .look 0]

theorem oneByOne_queue : ∃ p, run 1 oneByOne = some p ∧ p.finished = [1] ∧ p.queue.tasks = [2, 3] ∧
    p.finished ++ p.queue.tasks = p.enqueued := by
  obtain ⟨p, hrun, hfinished, htasks⟩ : ∃ p, run 1 oneByOne = some p ∧ p.finished = [1] ∧ p.queue.tasks = [2, 3] :=
    ⟨_, rfl, rfl, rfl⟩
  exact ⟨p, hrun, hfinished, htasks, (one_worker_queue hrun).2⟩

end Workers

end MyRaft
