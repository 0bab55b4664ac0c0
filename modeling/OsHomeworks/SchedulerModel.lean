import OsHomeworks.StableQueue
import Mathlib.Logic.Function.Basic
import Mathlib.Data.UInt

/-! The thread scheduler: its records and the functions of `so_scheduler.c`, `priority_queue.c` and
`utils.c`. A call is executed as one transition on the queue, `running_thread` and the thread
records; the semaphore operations it performs are returned in program order. No function of the
source changes the scheduler after a `sem_wait`, so the state it leaves does not depend on when the
caller is let through. -/

namespace OsHomeworks.ThreadScheduler

/-- Address of a `thread_t`; the pthread id `t` stored in the record is identified with it. -/
abbrev ThreadPtr := ℕ

/-- Address of a `so_handler`. -/
abbrev HandlerPtr := ℕ

inductive ThreadState where
  | new
  | ready
  | running
  | waiting
  | terminated
  deriving DecidableEq

/-- `thread_t` without its semaphore, whose value is kept by the interleaving model. -/
structure Thread where
  func : HandlerPtr
  priority : UInt8
  state : ThreadState
  timeQuantum : UInt32
  event : UInt32
  deriving DecidableEq

/-- `scheduler_t`: `q` are the cells `pq->q[0..size)`, `threads` the cells `threads[0..n)` and
`thread` the records the pointers lead to. -/
structure Scheduler where
  q : List ThreadPtr
  threads : List ThreadPtr
  runningThread : Option ThreadPtr
  timeQuantum : UInt32
  io : UInt32
  thread : ThreadPtr → Thread

def soMaxPrio : UInt32 := 5

def soMaxNumEvents : UInt32 := 256

/-- The unsigned value of `-1`, an `event` that is no device. -/
def noEvent : UInt32 := 0xFFFFFFFF

/-- A semaphore operation of a call. Every assignment of `running_thread` to a thread is followed
by the `sem_post` that lets the thread run. -/
inductive SemOp where
  | post (thread : ThreadPtr)
  | wait (thread : ThreadPtr)
  deriving DecidableEq

namespace Scheduler

/-- Update of one record. -/
def modify (s : Scheduler) (t : ThreadPtr) (f : Thread → Thread) : Scheduler :=
  { s with thread := Function.update s.thread t (f (s.thread t)) }

/-- The priority after promotion to `int`. -/
def prio (s : Scheduler) (t : ThreadPtr) : ℕ := (s.thread t).priority.toNat

/-- `NOT_WAITING_THREAD`. -/
def notWaiting (s : Scheduler) (t : ThreadPtr) : Bool := (s.thread t).state != .waiting

def enqueue (s : Scheduler) (t : ThreadPtr) : Scheduler :=
  { s with q := StableQueue.insert s.prio t s.q }

def front (s : Scheduler) : Option ThreadPtr := s.q.find? s.notWaiting

def dequeue (s : Scheduler) : Option ThreadPtr × Scheduler :=
  (s.front, { s with q := s.q.eraseP s.notWaiting })

/-- The part common to both dispatching branches of `check_preempt`: `running_thread` is set, the
queue loses its front and the thread becomes `RUNNING`. The `sem_post` follows. -/
def dispatch (s : Scheduler) (thread : ThreadPtr) : Scheduler :=
  ({ s with runningThread := some thread }.dequeue.2).modify thread
    fun record => { record with state := .running }

/-- The part of `schedule_thread` before `check_preempt`. -/
def requeue (s : Scheduler) (t : ThreadPtr) : Scheduler :=
  let s := s.enqueue t
  if (s.thread t).state ≠ .waiting then s.modify t fun record => { record with state := .ready }
  else s

/-- `running_thread->time_quantum--`. -/
def charge (s : Scheduler) (r : ThreadPtr) : Scheduler :=
  s.modify r fun record => { record with timeQuantum := record.timeQuantum - 1 }

/-- The running thread used its last time unit: it gets a new quantum and gives up the CPU. -/
def expire (s : Scheduler) (r : ThreadPtr) : Scheduler :=
  { s.modify r fun record => { record with timeQuantum := s.timeQuantum, state := .ready } with
    runningThread := none }

/-- How many more preemptions the running thread leaves room for. -/
def rank (s : Scheduler) : ℕ :=
  match s.runningThread with
  | none => 0
  | some r => 256 - s.prio r

theorem modify_thread (s : Scheduler) (t : ThreadPtr) (f : Thread → Thread) (u : ThreadPtr) :
    (s.modify t f).thread u = if u = t then f (s.thread u) else s.thread u := by
  unfold modify
  by_cases h : u = t
  · subst u
    simp
  · simp [h]

theorem modify_prio (s : Scheduler) (t : ThreadPtr) (f : Thread → Thread)
    (hf : ∀ record, (f record).priority = record.priority) : (s.modify t f).prio = s.prio := by
  funext u
  simp only [prio, modify_thread]
  split_ifs
  · rw [hf]
  · rfl

@[simp] theorem dispatch_runningThread (s : Scheduler) (t : ThreadPtr) :
    (s.dispatch t).runningThread = some t := rfl

@[simp] theorem dispatch_prio (s : Scheduler) (t : ThreadPtr) : (s.dispatch t).prio = s.prio :=
  modify_prio _ _ _ fun _ => rfl

@[simp] theorem requeue_runningThread (s : Scheduler) (t : ThreadPtr) :
    (s.requeue t).runningThread = s.runningThread := by
  unfold requeue
  dsimp only
  split_ifs <;> rfl

@[simp] theorem requeue_prio (s : Scheduler) (t : ThreadPtr) : (s.requeue t).prio = s.prio := by
  unfold requeue
  dsimp only
  split_ifs
  · exact modify_prio _ _ _ fun _ => rfl
  · rfl

@[simp] theorem charge_runningThread (s : Scheduler) (t : ThreadPtr) :
    (s.charge t).runningThread = s.runningThread := rfl

theorem prio_lt (s : Scheduler) (t : ThreadPtr) : s.prio t < 256 := (s.thread t).priority.toNat_lt

theorem rank_of_running {s : Scheduler} {r : ThreadPtr} (h : s.runningThread = some r) :
    s.rank = 256 - s.prio r := by
  unfold rank
  rw [h]

theorem rank_of_idle {s : Scheduler} (h : s.runningThread = none) : s.rank = 0 := by
  unfold rank
  rw [h]

@[simp] theorem requeue_rank (s : Scheduler) (t : ThreadPtr) : (s.requeue t).rank = s.rank := by
  unfold rank
  rw [requeue_runningThread, requeue_prio]

/-- A preemption raises the priority of the running thread. -/
theorem dispatch_rank_lt {s : Scheduler} {r t : ThreadPtr} (h : s.runningThread = some r)
    (hlt : s.prio r < s.prio t) : (s.dispatch t).rank < s.rank := by
  have ht := s.prio_lt t
  rw [rank_of_running h, rank_of_running (dispatch_runningThread s t), dispatch_prio]
  omega

theorem expire_rank_lt {s : Scheduler} {r : ThreadPtr} (h : s.runningThread = some r) :
    ((s.charge r).expire r).rank < s.rank := by
  have hr := s.prio_lt r
  rw [rank_of_running h, rank_of_idle rfl]
  omega

mutual

/-- Also returns the semaphore operations of the call, in order. -/
def checkPreempt (s : Scheduler) (thread : Option ThreadPtr) : Scheduler × List SemOp :=
  match thread with
  | none => (s, [])
  | some thread =>
      match hrun : s.runningThread with
      | none => (s.dispatch thread, [.post thread])
      | some preempted =>
          if hlt : s.prio preempted < s.prio thread then
            let result := scheduleThread (s.dispatch thread) preempted
            (result.1, .post thread :: result.2 ++ [.wait preempted])
          else soExec s
  termination_by 3 * s.rank + 1
  decreasing_by
    · have := dispatch_rank_lt hrun hlt
      omega
    · omega

def scheduleThread (s : Scheduler) (t : ThreadPtr) : Scheduler × List SemOp :=
  checkPreempt (s.requeue t) (s.requeue t).front
  termination_by 3 * s.rank + 2
  decreasing_by
    rw [requeue_rank]
    omega

def soExec (s : Scheduler) : Scheduler × List SemOp :=
  match hrun : s.runningThread with
  | none => (s, [])
  | some r =>
      if ((s.charge r).thread r).timeQuantum = 0 then
        let result := scheduleThread ((s.charge r).expire r) r
        (result.1, result.2 ++ [.wait r])
      else (s.charge r, [])
  termination_by 3 * s.rank
  decreasing_by
    have := expire_rank_lt hrun
    omega

end

/-! The branches of the recursion. -/

theorem checkPreempt_none (s : Scheduler) : s.checkPreempt none = (s, []) := by
  rw [checkPreempt]

theorem checkPreempt_idle {s : Scheduler} (h : s.runningThread = none) (f : ThreadPtr) :
    s.checkPreempt (some f) = (s.dispatch f, [.post f]) := by
  rw [checkPreempt]
  split
  · rfl
  · simp_all

theorem checkPreempt_preempt {s : Scheduler} {r f : ThreadPtr} (h : s.runningThread = some r)
    (hlt : s.prio r < s.prio f) :
    s.checkPreempt (some f) = (((s.dispatch f).scheduleThread r).1,
      .post f :: ((s.dispatch f).scheduleThread r).2 ++ [.wait r]) := by
  rw [checkPreempt]
  split
  · simp_all
  · next preempted hrun =>
      obtain rfl : preempted = r := Option.some.inj (hrun.symm.trans h)
      rw [dif_pos hlt]

theorem checkPreempt_exec {s : Scheduler} {r f : ThreadPtr} (h : s.runningThread = some r)
    (hle : s.prio f ≤ s.prio r) : s.checkPreempt (some f) = s.soExec := by
  rw [checkPreempt]
  split
  · simp_all
  · next preempted hrun =>
      obtain rfl : preempted = r := Option.some.inj (hrun.symm.trans h)
      rw [dif_neg (not_lt.mpr hle)]

theorem scheduleThread_eq (s : Scheduler) (t : ThreadPtr) :
    s.scheduleThread t = (s.requeue t).checkPreempt (s.requeue t).front := by
  rw [scheduleThread]

theorem soExec_idle {s : Scheduler} (h : s.runningThread = none) : s.soExec = (s, []) := by
  rw [soExec]
  split
  · rfl
  · simp_all

theorem soExec_charge {s : Scheduler} {r : ThreadPtr} (h : s.runningThread = some r)
    (hleft : ((s.charge r).thread r).timeQuantum ≠ 0) : s.soExec = (s.charge r, []) := by
  rw [soExec]
  split
  · simp_all
  · next r' hrun =>
      obtain rfl : r' = r := Option.some.inj (hrun.symm.trans h)
      rw [if_neg hleft]

theorem soExec_expire {s : Scheduler} {r : ThreadPtr} (h : s.runningThread = some r)
    (hleft : ((s.charge r).thread r).timeQuantum = 0) :
    s.soExec = ((((s.charge r).expire r).scheduleThread r).1,
      (((s.charge r).expire r).scheduleThread r).2 ++ [.wait r]) := by
  rw [soExec]
  split
  · simp_all
  · next r' hrun =>
      obtain rfl : r' = r := Option.some.inj (hrun.symm.trans h)
      rw [if_pos hleft]

end Scheduler

/-! ### The interface -/

/-- What a call returns: the pthread id of `so_fork` (`INVALID_TID` is `none`), the `int` of
`so_wait` and `so_signal`, nothing for `so_exec` and the end of a handler. -/
inductive Ret where
  | tid (thread : Option ThreadPtr)
  | int (value : ℤ)
  | unit
  deriving DecidableEq

/-- The result of a call: what it returns, the scheduler it leaves and its semaphore operations. -/
structure Outcome where
  ret : Ret
  next : Scheduler
  ops : List SemOp

namespace Scheduler

/-- `malloc` returns an address that no thread has: threads are numbered in the order of their
creation. -/
def createThread (s : Scheduler) (func : HandlerPtr) (priority : UInt32) : ThreadPtr × Scheduler :=
  let thread := s.threads.length
  (thread, s.modify thread fun _ => ⟨func, priority.toUInt8, .new, s.timeQuantum, noEvent⟩)

def addThread (s : Scheduler) (thread : ThreadPtr) : Scheduler :=
  { s with threads := s.threads ++ [thread] }

def soFork (s : Scheduler) (func : Option HandlerPtr) (priority : UInt32) : Outcome :=
  match func with
  | none => ⟨.tid none, s, []⟩
  | some func =>
      if priority > soMaxPrio then ⟨.tid none, s, []⟩
      else
        let (thread, s) := s.createThread func priority
        let result := (s.addThread thread).scheduleThread thread
        ⟨.tid (some thread), result.1, result.2⟩

/-- The running thread becomes a waiter for `io` and gives up the CPU. -/
def block (s : Scheduler) (r : ThreadPtr) (io : UInt32) : Scheduler :=
  { s.modify r fun record => { record with state := .waiting, event := io } with
    runningThread := none }

def soWait (s : Scheduler) (io : UInt32) : Outcome :=
  match s.runningThread with
  | none => ⟨.int (-1), s, []⟩
  | some preempted =>
      if io ≥ s.io ∨ s.q.length = 0 ∨ s.front = none then ⟨.int (-1), s, []⟩
      else
        let result := (s.block preempted io).scheduleThread preempted
        ⟨.int 0, result.1, result.2 ++ [.wait preempted]⟩

/-- One turn of the loop of `so_signal`. -/
def wake (io : UInt32) (acc : ℕ × Scheduler) (t : ThreadPtr) : ℕ × Scheduler :=
  if (acc.2.thread t).event = io then
    (acc.1 + 1, acc.2.modify t fun record => { record with state := .ready, event := noEvent })
  else acc

/-- The loop of `so_signal` over the cells of the queue. -/
def wakeAll (s : Scheduler) (io : UInt32) : ℕ × Scheduler := s.q.foldl (wake io) (0, s)

def soSignal (s : Scheduler) (io : UInt32) : Outcome :=
  match s.runningThread with
  | none => ⟨.int (-1), s, []⟩
  | some preempted =>
      if io ≥ s.io then ⟨.int (-1), s, []⟩
      else
        let (unlocked, s) := s.wakeAll io
        let result := { s with runningThread := none }.scheduleThread preempted
        ⟨.int unlocked, result.1, result.2 ++ [.wait preempted]⟩

/-- The end of `thread_task`, after the handler has returned. -/
def threadTask (s : Scheduler) (thread : ThreadPtr) : Outcome :=
  let s := { s.modify thread fun record => { record with state := .terminated } with
    runningThread := none }
  let result := s.checkPreempt s.front
  ⟨.unit, result.1, result.2⟩

end Scheduler

/-- The scheduler that `so_init` allocates. -/
def Scheduler.start (timeQuantum io : UInt32) : Scheduler :=
  ⟨[], [], none, timeQuantum, io, fun _ => ⟨0, 0, .new, 0, 0⟩⟩

/-- `so_init` on the global `scheduler`, `none` for a null pointer. -/
def soInit (scheduler : Option Scheduler) (timeQuantum io : UInt32) : ℤ × Option Scheduler :=
  if timeQuantum > 0 ∧ io ≤ soMaxNumEvents ∧ scheduler = none then
    (0, some (Scheduler.start timeQuantum io))
  else (-1, scheduler)

/-- A transition: a call of the interface or the return of the running task's handler. -/
inductive Op where
  | fork (func : Option HandlerPtr) (priority : UInt32)
  | wait (io : UInt32)
  | signal (io : UInt32)
  | exec
  | ret
  deriving DecidableEq

/-- The transition of an operation; only a running handler can return. -/
def Scheduler.call (s : Scheduler) : Op → Option Outcome
  | .fork func priority => some (s.soFork func priority)
  | .wait io => some (s.soWait io)
  | .signal io => some (s.soSignal io)
  | .exec => some ⟨.unit, s.soExec.1, s.soExec.2⟩
  | .ret => s.runningThread.map s.threadTask

/-- A step of the scheduler, labelled with the operation and its result. -/
def Step (s : Scheduler) (label : Op × Outcome) (s' : Scheduler) : Prop :=
  s.call label.1 = some label.2 ∧ label.2.next = s'

end OsHomeworks.ThreadScheduler
