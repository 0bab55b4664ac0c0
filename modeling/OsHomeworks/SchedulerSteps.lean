import OsHomeworks.SchedulerModel

/-! The scheduler under interleaving. The code of a call is cut after each `sem_post` and at each
`sem_wait`: a `Segment` is the code up to the next cut and what is left of the call then. Every
pthread, the main program included, runs its own call, and the steps of different pthreads come in
any order. The transitions of the scheduler are the calls whose segments follow each other without
a step of another pthread in between. -/

namespace OsHomeworks.ThreadScheduler

/-- What is left of a call: a call of `schedule_thread` or a wait on the semaphore of a thread. -/
inductive Pending where
  | schedule (thread : ThreadPtr)
  | semWait (thread : ThreadPtr)
  deriving DecidableEq

/-- The code up to and including the next `sem_post`, or to the next `sem_wait` if that comes first:
the scheduler it leaves, the thread it posts and the rest of the call. -/
structure Segment where
  sched : Scheduler
  post : Option ThreadPtr
  rest : List Pending

namespace Segment

/-- The caller continues with more code behind the rest of the call. -/
def followedBy (segment : Segment) (pending : List Pending) : Segment :=
  { segment with rest := segment.rest ++ pending }

/-- One if the segment posts the thread. -/
def posts (segment : Segment) (v : ThreadPtr) : ℕ := if segment.post = some v then 1 else 0

@[simp] theorem followedBy_rest (segment : Segment) (pending : List Pending) :
    (segment.followedBy pending).rest = segment.rest ++ pending := rfl

end Segment

namespace Scheduler

mutual

def checkPreemptSegment (s : Scheduler) (thread : Option ThreadPtr) : Segment :=
  match thread with
  | none => ⟨s, none, []⟩
  | some thread =>
      match s.runningThread with
      | none => ⟨s.dispatch thread, some thread, []⟩
      | some preempted =>
          if s.prio preempted < s.prio thread then
            ⟨s.dispatch thread, some thread, [.schedule preempted, .semWait preempted]⟩
          else soExecSegment s
  termination_by 3 * s.rank + 1

def scheduleThreadSegment (s : Scheduler) (t : ThreadPtr) : Segment :=
  checkPreemptSegment (s.requeue t) (s.requeue t).front
  termination_by 3 * s.rank + 2
  decreasing_by
    rw [requeue_rank]
    omega

def soExecSegment (s : Scheduler) : Segment :=
  match _hrun : s.runningThread with
  | none => ⟨s, none, []⟩
  | some r =>
      if ((s.charge r).thread r).timeQuantum = 0 then
        (scheduleThreadSegment ((s.charge r).expire r) r).followedBy [.semWait r]
      else ⟨s.charge r, none, []⟩
  termination_by 3 * s.rank
  decreasing_by
    have := expire_rank_lt _hrun
    omega

end

/-! The branches of the recursion. -/

theorem checkPreemptSegment_none (s : Scheduler) : s.checkPreemptSegment none = ⟨s, none, []⟩ := by
  rw [checkPreemptSegment]

theorem checkPreemptSegment_idle {s : Scheduler} (h : s.runningThread = none) (f : ThreadPtr) :
    s.checkPreemptSegment (some f) = ⟨s.dispatch f, some f, []⟩ := by
  rw [checkPreemptSegment, h]

theorem checkPreemptSegment_preempt {s : Scheduler} {r f : ThreadPtr}
    (h : s.runningThread = some r) (hlt : s.prio r < s.prio f) :
    s.checkPreemptSegment (some f) = ⟨s.dispatch f, some f, [.schedule r, .semWait r]⟩ := by
  rw [checkPreemptSegment, h]
  exact if_pos hlt

theorem checkPreemptSegment_exec {s : Scheduler} {r f : ThreadPtr} (h : s.runningThread = some r)
    (hle : s.prio f ≤ s.prio r) : s.checkPreemptSegment (some f) = s.soExecSegment := by
  rw [checkPreemptSegment, h]
  exact if_neg (not_lt.mpr hle)

theorem scheduleThreadSegment_eq (s : Scheduler) (t : ThreadPtr) :
    s.scheduleThreadSegment t = (s.requeue t).checkPreemptSegment (s.requeue t).front := by
  rw [scheduleThreadSegment]

theorem soExecSegment_idle {s : Scheduler} (h : s.runningThread = none) :
    s.soExecSegment = ⟨s, none, []⟩ := by
  rw [soExecSegment]
  split
  · rfl
  · simp_all

theorem soExecSegment_charge {s : Scheduler} {r : ThreadPtr} (h : s.runningThread = some r)
    (hleft : ((s.charge r).thread r).timeQuantum ≠ 0) :
    s.soExecSegment = ⟨s.charge r, none, []⟩ := by
  rw [soExecSegment]
  split
  · simp_all
  · next r' hrun =>
      obtain rfl : r' = r := Option.some.inj (hrun.symm.trans h)
      rw [if_neg hleft]

theorem soExecSegment_expire {s : Scheduler} {r : ThreadPtr} (h : s.runningThread = some r)
    (hleft : ((s.charge r).thread r).timeQuantum = 0) :
    s.soExecSegment =
      (((s.charge r).expire r).scheduleThreadSegment r).followedBy [.semWait r] := by
  rw [soExecSegment]
  split
  · simp_all
  · next r' hrun =>
      obtain rfl : r' = r := Option.some.inj (hrun.symm.trans h)
      rw [if_pos hleft]

def soForkSegment (s : Scheduler) (func : Option HandlerPtr) (priority : UInt32) : Ret × Segment :=
  match func with
  | none => (.tid none, ⟨s, none, []⟩)
  | some func =>
      if priority > soMaxPrio then (.tid none, ⟨s, none, []⟩)
      else
        let (thread, s) := s.createThread func priority
        (.tid (some thread), (s.addThread thread).scheduleThreadSegment thread)

def soWaitSegment (s : Scheduler) (io : UInt32) : Ret × Segment :=
  match s.runningThread with
  | none => (.int (-1), ⟨s, none, []⟩)
  | some preempted =>
      if io ≥ s.io ∨ s.q.length = 0 ∨ s.front = none then (.int (-1), ⟨s, none, []⟩)
      else
        (.int 0, ((s.block preempted io).scheduleThreadSegment preempted).followedBy
          [.semWait preempted])

def soSignalSegment (s : Scheduler) (io : UInt32) : Ret × Segment :=
  match s.runningThread with
  | none => (.int (-1), ⟨s, none, []⟩)
  | some preempted =>
      if io ≥ s.io then (.int (-1), ⟨s, none, []⟩)
      else
        let (unlocked, s) := s.wakeAll io
        (.int unlocked, ({ s with runningThread := none }.scheduleThreadSegment preempted).followedBy
          [.semWait preempted])

def threadTaskSegment (s : Scheduler) (thread : ThreadPtr) : Ret × Segment :=
  let s := { s.modify thread fun record => { record with state := .terminated } with
    runningThread := none }
  (.unit, s.checkPreemptSegment s.front)

end Scheduler

/-! ### Pthreads -/

/-- The main program, or the pthread of a thread. -/
inductive Pthread where
  | main
  | task (thread : ThreadPtr)
  deriving DecidableEq

/-- What an operation returns and its first segment. Each function acts on `running_thread`, whoever
calls it; only the end of `thread_task` names its own thread. -/
def Scheduler.enter (s : Scheduler) (p : Pthread) : Op → Option (Ret × Segment)
  | .fork func priority => some (s.soForkSegment func priority)
  | .wait io => some (s.soWaitSegment io)
  | .signal io => some (s.soSignalSegment io)
  | .exec => some (.unit, s.soExecSegment)
  | .ret =>
      match p with
      | .main => none
      | .task thread => some (s.threadTaskSegment thread)

/-- The whole system: the scheduler, the semaphore of each thread and the code left to each pthread.
With an empty list it is in handler code (the main program in its own), with `none` it does not
exist: not created yet, or finished. -/
@[ext] structure Machine where
  sched : Scheduler
  sem : ThreadPtr → ℕ
  code : Pthread → Option (List Pending)

namespace Machine

/-- The system after `so_init`. -/
def boot (s : Scheduler) : Machine :=
  ⟨s, fun _ => 0, fun p => if p = .main then some [] else none⟩

/-- The pthread of a forked thread starts in `thread_task` with a wait on its new semaphore. -/
def spawn (m : Machine) : Ret → Machine
  | .tid (some t) =>
      { m with
        sem := Function.update m.sem t 0
        code := Function.update m.code (.task t) (some [.semWait t]) }
  | _ => m

theorem spawn_cases (m : Machine) (ret : Ret) :
    (∃ t, ret = .tid (some t)) ∨ (∀ t, ret ≠ .tid (some t)) ∧ m.spawn ret = m := by
  cases ret with
  | int v => exact Or.inr ⟨nofun, rfl⟩
  | unit => exact Or.inr ⟨nofun, rfl⟩
  | tid thread =>
      cases thread with
      | none => exact Or.inr ⟨nofun, rfl⟩
      | some t => exact Or.inl ⟨t, rfl⟩

theorem spawn_code_task (m : Machine) (ret : Ret) (t : ThreadPtr) :
    (m.spawn ret).code (.task t) =
      if ret = .tid (some t) then some [.semWait t] else m.code (.task t) := by
  rcases m.spawn_cases ret with ⟨n, rfl⟩ | ⟨hnot, heq⟩
  · by_cases hn : t = n
    · subst t
      simp [spawn]
    · have hn' : n ≠ t := fun heq => hn heq.symm
      simp [spawn, hn, hn']
  · rw [heq, if_neg (hnot t)]

@[simp] theorem spawn_code_main (m : Machine) (ret : Ret) :
    (m.spawn ret).code .main = m.code .main := by
  unfold spawn
  split <;> rfl

theorem spawn_sem (m : Machine) (ret : Ret) (t : ThreadPtr) :
    (m.spawn ret).sem t = if ret = .tid (some t) then 0 else m.sem t := by
  rcases m.spawn_cases ret with ⟨n, rfl⟩ | ⟨hnot, heq⟩
  · by_cases hn : t = n
    · subst t
      simp [spawn]
    · have hn' : n ≠ t := fun heq => hn heq.symm
      simp [spawn, hn, hn']
  · rw [heq, if_neg (hnot t)]

/-- The effect of a segment executed by a pthread that has `code` left then. -/
def execute (m : Machine) (p : Pthread) (segment : Segment) (code : Option (List Pending)) :
    Machine where
  sched := segment.sched
  sem := match segment.post with
    | none => m.sem
    | some t => Function.update m.sem t (m.sem t + 1)
  code := Function.update m.code p code

theorem execute_sem (m : Machine) (p : Pthread) (segment : Segment) (code : Option (List Pending))
    (v : ThreadPtr) : (m.execute p segment code).sem v = m.sem v + segment.posts v := by
  unfold execute Segment.posts
  cases segment.post with
  | none => rfl
  | some t =>
      by_cases hvt : v = t
      · subst v
        simp
      · have htv : t ≠ v := fun heq => hvt heq.symm
        simp [hvt, htv]

@[simp] theorem execute_code_self (m : Machine) (p : Pthread) (segment : Segment)
    (code : Option (List Pending)) : (m.execute p segment code).code p = code :=
  Function.update_self _ _ _

theorem execute_code_of_ne (m : Machine) {p q : Pthread} (hne : q ≠ p) (segment : Segment)
    (code : Option (List Pending)) : (m.execute p segment code).code q = m.code q :=
  Function.update_of_ne hne _ _

/-- The start of a call, made in handler code. The pthread of a handler that has returned is gone
after its segment. -/
def call (m : Machine) (p : Pthread) (op : Op) : Option (Ret × Machine) :=
  match m.code p, m.sched.enter p op with
  | some [], some (ret, segment) =>
      some (ret, (m.spawn ret).execute p segment (if op = .ret then none else some segment.rest))
  | _, _ => none

/-- The next segment of the call a pthread is in. A `sem_wait` needs a positive value. -/
def resume (m : Machine) (p : Pthread) : Option Machine :=
  match m.code p with
  | some (.schedule t :: rest) =>
      let segment := m.sched.scheduleThreadSegment t
      some (m.execute p segment (some (segment.rest ++ rest)))
  | some (.semWait t :: rest) =>
      if 0 < m.sem t then
        some { m with
          sem := Function.update m.sem t (m.sem t - 1)
          code := Function.update m.code p (some rest) }
      else none
  | _ => none

theorem resume_schedule {m : Machine} {p : Pthread} {t : ThreadPtr} {rest : List Pending}
    (h : m.code p = some (.schedule t :: rest)) :
    m.resume p = some (m.execute p (m.sched.scheduleThreadSegment t)
      (some ((m.sched.scheduleThreadSegment t).rest ++ rest))) := by
  rw [resume, h]

theorem resume_wait {m : Machine} {p : Pthread} {t : ThreadPtr} {rest : List Pending}
    (h : m.code p = some (.semWait t :: rest)) (hpos : 0 < m.sem t) :
    m.resume p = some { m with
      sem := Function.update m.sem t (m.sem t - 1)
      code := Function.update m.code p (some rest) } := by
  rw [resume, h]
  exact if_pos hpos

theorem resume_blocked {m : Machine} {p : Pthread} {t : ThreadPtr} {rest : List Pending}
    (h : m.code p = some (.semWait t :: rest)) (hzero : m.sem t = 0) : m.resume p = none := by
  rw [resume, h]
  exact if_neg hzero.not_gt

theorem resume_done {m : Machine} {p : Pthread} (h : m.code p = some [] ∨ m.code p = none) :
    m.resume p = none := by
  rcases h with h | h <;> rw [resume, h]

/-- The pthread runs alone until it is blocked in a `sem_wait`, outside every call, or gone. -/
inductive Settles (p : Pthread) : Machine → Machine → Prop where
  | stop {m : Machine} : m.resume p = none → Settles p m m
  | step {m m' m'' : Machine} : m.resume p = some m' → Settles p m' m'' → Settles p m m''

theorem Settles.unique {p : Pthread} {m m₁ m₂ : Machine} (h₁ : Settles p m m₁)
    (h₂ : Settles p m m₂) : m₁ = m₂ := by
  induction h₁ with
  | stop hstop =>
      cases h₂ with
      | stop => rfl
      | step hstep => cases hstop.symm.trans hstep
  | step hstep _ ih =>
      cases h₂ with
      | stop hstop => cases hstop.symm.trans hstep
      | step hstep' hrest =>
          obtain rfl := Option.some.inj (hstep.symm.trans hstep')
          exact ih hrest

theorem Settles.quiet {p : Pthread} {m m' : Machine} (h : Settles p m m') : m'.resume p = none := by
  induction h with
  | stop hstop => exact hstop
  | step _ _ ih => exact ih

/-- The pthread of a thread is outside every scheduler function. -/
def InHandler (m : Machine) (t : ThreadPtr) : Prop := m.code (.task t) = some []

end Machine

/-- One step of one pthread. -/
inductive Action where
  | call (p : Pthread) (op : Op)
  | resume (p : Pthread)
  deriving DecidableEq

def Machine.act (m : Machine) : Action → Option Machine
  | .call p op => (m.call p op).map Prod.snd
  | .resume p => m.resume p

/-- A step with a main program that makes only the first `so_fork`. -/
def Machine.interleave (m : Machine) : Action → Option Machine
  | .call .main (.fork func priority) =>
      if m.sched.threads = [] then m.act (.call .main (.fork func priority)) else none
  | .call .main _ => none
  | a => m.act a

def Interleaved (m : Machine) (a : Action) (m' : Machine) : Prop := m.interleave a = some m'

theorem interleave_eq {m m' : Machine} {a : Action} (h : Interleaved m a m') :
    (∀ op, a = .call .main op → m.sched.threads = []) ∧ m.act a = some m' := by
  unfold Interleaved Machine.interleave at h
  split at h
  · split_ifs at h with hempty
    exact ⟨fun _ _ => hempty, h⟩
  · cases h
  · next hne =>
      refine ⟨?_, h⟩
      rintro op rfl
      exact absurd rfl (hne op)

/-- The rest of a call, with no step of another pthread in between. -/
def finish (result : Scheduler × List SemOp) : Pending → Scheduler × List SemOp
  | .schedule t =>
      ((result.1.scheduleThread t).1, result.2 ++ (result.1.scheduleThread t).2)
  | .semWait t => (result.1, result.2 ++ [.wait t])

def Segment.complete (segment : Segment) : Scheduler × List SemOp :=
  segment.rest.foldl finish (segment.sched, segment.post.toList.map .post)

theorem Segment.complete_followedBy_semWait (segment : Segment) (t : ThreadPtr) :
    (segment.followedBy [.semWait t]).complete =
      (segment.complete.1, segment.complete.2 ++ [.wait t]) := by
  unfold complete
  rw [followedBy_rest, List.foldl_append]
  rfl

namespace Scheduler

theorem checkPreemptSegment_idle_complete {s : Scheduler} (h : s.runningThread = none)
    (thread : Option ThreadPtr) :
    (s.checkPreemptSegment thread).complete = s.checkPreempt thread := by
  cases thread with
  | none =>
      rw [checkPreemptSegment_none, checkPreempt_none]
      rfl
  | some f =>
      rw [checkPreemptSegment_idle h, checkPreempt_idle h]
      rfl

theorem soExecSegment_complete (s : Scheduler) : s.soExecSegment.complete = s.soExec := by
  cases hrun : s.runningThread with
  | none =>
      rw [soExecSegment_idle hrun, soExec_idle hrun]
      rfl
  | some r =>
      by_cases hleft : ((s.charge r).thread r).timeQuantum = 0
      · have hidle : (((s.charge r).expire r).requeue r).runningThread = none :=
          requeue_runningThread _ _
        rw [soExecSegment_expire hrun hleft, soExec_expire hrun hleft,
          Segment.complete_followedBy_semWait, scheduleThreadSegment_eq, scheduleThread_eq,
          checkPreemptSegment_idle_complete hidle]
      · rw [soExecSegment_charge hrun hleft, soExec_charge hrun hleft]
        rfl

theorem checkPreemptSegment_complete (s : Scheduler) (thread : Option ThreadPtr) :
    (s.checkPreemptSegment thread).complete = s.checkPreempt thread := by
  cases hrun : s.runningThread with
  | none => exact checkPreemptSegment_idle_complete hrun thread
  | some r =>
      cases thread with
      | none =>
          rw [checkPreemptSegment_none, checkPreempt_none]
          rfl
      | some f =>
          rcases lt_or_ge (s.prio r) (s.prio f) with hlt | hle
          · rw [checkPreemptSegment_preempt hrun hlt, checkPreempt_preempt hrun hlt]
            rfl
          · rw [checkPreemptSegment_exec hrun hle, checkPreempt_exec hrun hle]
            exact soExecSegment_complete s

theorem scheduleThreadSegment_complete (s : Scheduler) (t : ThreadPtr) :
    (s.scheduleThreadSegment t).complete = s.scheduleThread t := by
  rw [scheduleThreadSegment_eq, scheduleThread_eq, checkPreemptSegment_complete]

/-- The outcome of a call whose segments are executed in a row. -/
def outcome (start : Ret × Segment) : Outcome := ⟨start.1, start.2.complete.1, start.2.complete.2⟩

theorem soFork_eq_outcome (s : Scheduler) (func : Option HandlerPtr) (priority : UInt32) :
    s.soFork func priority = outcome (s.soForkSegment func priority) := by
  unfold soFork soForkSegment outcome
  cases func with
  | none => rfl
  | some func =>
      dsimp only
      split_ifs
      · rfl
      · rw [scheduleThreadSegment_complete]

theorem soWait_eq_outcome (s : Scheduler) (io : UInt32) :
    s.soWait io = outcome (s.soWaitSegment io) := by
  unfold soWait soWaitSegment outcome
  cases s.runningThread with
  | none => rfl
  | some preempted =>
      dsimp only
      split_ifs
      · rfl
      · rw [Segment.complete_followedBy_semWait, scheduleThreadSegment_complete]

theorem soSignal_eq_outcome (s : Scheduler) (io : UInt32) :
    s.soSignal io = outcome (s.soSignalSegment io) := by
  unfold soSignal soSignalSegment outcome
  cases s.runningThread with
  | none => rfl
  | some preempted =>
      dsimp only
      split_ifs
      · rfl
      · rw [Segment.complete_followedBy_semWait, scheduleThreadSegment_complete]

theorem threadTask_eq_outcome (s : Scheduler) (thread : ThreadPtr) :
    s.threadTask thread = outcome (s.threadTaskSegment thread) := by
  unfold threadTask threadTaskSegment outcome
  dsimp only
  rw [checkPreemptSegment_complete]

/-- A transition is a call of the running task, executed without a step of another pthread. -/
theorem call_eq_outcome {s : Scheduler} {r : ThreadPtr} (hr : s.runningThread = some r) {op : Op}
    {start : Ret × Segment} (henter : s.enter (.task r) op = some start) :
    s.call op = some (outcome start) := by
  cases op <;> obtain rfl := Option.some.inj henter
  case fork func priority => exact congrArg some (s.soFork_eq_outcome func priority)
  case wait io => exact congrArg some (s.soWait_eq_outcome io)
  case signal io => exact congrArg some (s.soSignal_eq_outcome io)
  case exec =>
    change some (Outcome.mk .unit s.soExec.1 s.soExec.2) = _
    rw [← soExecSegment_complete]
    rfl
  case ret =>
    change s.runningThread.map s.threadTask = _
    rw [hr]
    exact congrArg some (s.threadTask_eq_outcome r)

end Scheduler
end OsHomeworks.ThreadScheduler
