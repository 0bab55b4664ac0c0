import OsHomeworks.SchedulerCharging

/-! Whose semaphore a call waits on. Every `sem_wait` names the thread that the function took off the
CPU; it is executed by the pthread of the caller, which is that thread unless the main program makes
the call, or a thread that has just preempted the caller uses up its quantum in the same call. -/

namespace OsHomeworks.ThreadScheduler

open StableQueue Runs Scheduler

variable {s : Scheduler} {r t : ThreadPtr}

/-- The pthread that makes a call: that of the running task, or of the main program, `none`, which
only forks. -/
def MadeBy (s : Scheduler) (op : Op) : Option ThreadPtr → Prop
  | some r => s.runningThread = some r ∧ op ≠ .ret
  | none => ∃ func priority, op = .fork func priority

/-- All calls but `so_fork` are made by the running task. -/
theorem MadeBy.task {op : Op} {caller : Option ThreadPtr} (h : MadeBy s op caller)
    (hop : ∀ func priority, op ≠ .fork func priority) :
    ∃ r, caller = some r ∧ s.runningThread = some r ∧ op ≠ .ret := by
  cases caller with
  | none =>
      obtain ⟨func, priority, hfork⟩ := h
      exact absurd hfork (hop func priority)
  | some r => exact ⟨r, rfl, h⟩

/-- Every wait of the call is on the caller's own semaphore, and a task that loses the CPU in the
call is the caller and waits. -/
structure OwnWaits (s : Scheduler) (caller : Option ThreadPtr) (o : Outcome) : Prop where
  own : ∀ t, .wait t ∈ o.ops → caller = some t
  blocks : ∀ r, s.runningThread = some r → o.next.runningThread ≠ some r →
    caller = some r ∧ .wait r ∈ o.ops

/-- A `so_fork` that does not preempt the task that makes it, or only with a quantum of more than
one unit; made by the main program, one that neither preempts the running task nor uses up its
quantum. -/
def ForksSafely (s : Scheduler) (priority : UInt32) : Option ThreadPtr → Prop
  | some r => priority.toNat ≤ s.prio r ∨ s.timeQuantum ≠ 1
  | none => ∀ r, s.runningThread = some r → priority.toNat ≤ s.prio r ∧ s.quantum r ≠ 1

theorem OwnWaits.of_unchanged {caller : Option ThreadPtr} {ret : Ret} : OwnWaits s caller ⟨ret, s, []⟩ :=
  ⟨fun _ ht => absurd ht List.not_mem_nil, fun _ hr hne => absurd hr hne⟩

/-- A call in which the caller gives up the CPU. -/
theorem OwnWaits.of_reschedule (hr : s.runningThread = some r) {ret : Ret} {s' : Scheduler}
    {f : ThreadPtr} : OwnWaits s (some r) ⟨ret, s', [.post f, .wait r]⟩ := by
  refine ⟨fun t ht => ?_, fun r' hr' _ => ?_⟩
  · obtain rfl : t = r := by simpa using ht
    rfl
  · obtain rfl : r = r' := Option.some.inj (hr.symm.trans hr')
    exact ⟨rfl, by simp⟩

/-- A call that waits on the caller's semaphore exactly if it had one unit left, and leaves it the CPU
otherwise. -/
theorem OwnWaits.of_charge (hr : s.runningThread = some r) {o : Outcome}
    (hwaits : ∀ t, .wait t ∈ o.ops ↔ t = r ∧ s.quantum r = 1)
    (hkeeps : s.quantum r ≠ 1 → o.next.runningThread = some r) : OwnWaits s (some r) o := by
  refine ⟨fun t ht => ?_, fun r' hr' hne => ?_⟩
  · rw [((hwaits t).mp ht).1]
  · obtain rfl : r = r' := Option.some.inj (hr.symm.trans hr')
    refine ⟨rfl, (hwaits r).mpr ⟨rfl, ?_⟩⟩
    by_contra hone
    exact hne (hkeeps hone)

/-- `so_exec` waits on the running thread's semaphore at the end of its quantum, and otherwise leaves
it the CPU. -/
theorem soExec_waits (hr : s.runningThread = some r) :
    (∀ t, .wait t ∈ s.soExec.2 ↔ t = r ∧ s.quantum r = 1) ∧
      (s.quantum r ≠ 1 → s.soExec.1.runningThread = some r) := by
  have hleft := charge_timeQuantum_self s r
  rcases soExec_cases hr with ⟨hne, heq⟩ | ⟨f, hzero, -, heq⟩ <;> rw [heq]
  · rw [hleft] at hne
    have hone : s.quantum r ≠ 1 := by grind
    exact ⟨fun t => by simp [hone], fun _ => hr⟩
  · rw [hleft] at hzero
    have hone : s.quantum r = 1 := by grind
    exact ⟨fun t => by simp [hone], fun hne => absurd hone hne⟩

theorem exec_ownWaits (hr : s.runningThread = some r) :
    OwnWaits s (some r) ⟨.unit, s.soExec.1, s.soExec.2⟩ := by
  obtain ⟨hwaits, hkeeps⟩ := soExec_waits hr
  exact .of_charge hr hwaits hkeeps

/-- A new thread that is queued behind the running one: the call waits on the running thread's
semaphore if that was its last unit. -/
theorem Inv.fork_behind_waits (hinv : Inv s) (hr : s.runningThread = some r) (func : HandlerPtr)
    {priority : UInt32} (hp : ¬priority > soMaxPrio)
    (hle : (s.forked func priority).prio s.threads.length ≤ (s.forked func priority).prio r) :
    (∀ t, .wait t ∈ ((s.forked func priority).scheduleThread s.threads.length).2 ↔
      t = r ∧ s.quantum r = 1) ∧
    (s.quantum r ≠ 1 →
      ((s.forked func priority).scheduleThread s.threads.length).1.runningThread = some r) := by
  have hnew : r ≠ s.threads.length := hinv.fresh (hinv.running r hr).1
  obtain ⟨-, heq⟩ := (hinv.toCore.fork func hp).arrive_behind (hinv.forked func priority)
    (notWaiting_forked s func priority) hr hle
  have hold : ((s.forked func priority).requeue s.threads.length).quantum r = s.quantum r := by
    rw [requeue_quantum, forked_quantum, Function.update_of_ne hnew]
  have hwaits := soExec_waits (s := (s.forked func priority).requeue s.threads.length)
    ((requeue_runningThread _ _).trans hr)
  rw [hold] at hwaits
  rw [heq]
  exact hwaits

/-- A new thread that preempts the running one: the call waits on the semaphore of the preempted
thread, and on that of the new one if its quantum is one unit. -/
theorem Inv.fork_preempting_waits (hinv : Inv s) (hr : s.runningThread = some r)
    (func : HandlerPtr) {priority : UInt32} (hp : ¬priority > soMaxPrio)
    (hlt : (s.forked func priority).prio r < (s.forked func priority).prio s.threads.length) :
    ∀ t, .wait t ∈ ((s.forked func priority).scheduleThread s.threads.length).2 ↔
      t = r ∨ t = s.threads.length ∧ s.timeQuantum = 1 := by
  obtain ⟨-, -, heq⟩ := (hinv.toCore.fork func hp).arrive_preempts (hinv.forked func priority)
    (notWaiting_forked s func priority) hr hlt
  have hfull : ((((s.forked func priority).requeue s.threads.length).dispatch
      s.threads.length).requeue r).quantum s.threads.length = s.timeQuantum := by
    simp only [requeue_quantum, dispatch_quantum, forked_quantum, Function.update_self]
  have hwaits := (soExec_waits (s := (((s.forked func priority).requeue s.threads.length).dispatch
    s.threads.length).requeue r) (requeue_runningThread _ _)).1
  rw [hfull] at hwaits
  intro t
  rw [heq]
  simp only [List.cons_append, List.mem_cons, List.mem_append, hwaits t, reduceCtorEq, false_or,
    SemOp.wait.injEq, List.not_mem_nil, or_false]
  exact or_comm

theorem Inv.fork_idle_waits (hinv : Inv s) (hidle : s.runningThread = none) (func : HandlerPtr)
    (priority : UInt32) (t : ThreadPtr) :
    .wait t ∉ ((s.forked func priority).scheduleThread s.threads.length).2 := by
  obtain ⟨-, heq⟩ := (hinv.forked func priority).arrive_idle
    (notWaiting_forked s func priority) hidle
  rw [heq]
  simp

/-- A successful `so_fork` made by the running task. -/
theorem Inv.task_fork_iff (hinv : Inv s) (hr : s.runningThread = some r) (func : HandlerPtr)
    {priority : UInt32} (hp : ¬priority > soMaxPrio) (ret : Ret) :
    OwnWaits s (some r) ⟨ret, ((s.forked func priority).scheduleThread s.threads.length).1,
      ((s.forked func priority).scheduleThread s.threads.length).2⟩ ↔
      ForksSafely s priority (some r) := by
  have hnew := forked_prio_new s func hp
  have hold : (s.forked func priority).prio r = s.prio r :=
    (forked_frame hinv func priority).prio r (hinv.running r hr).1
  unfold ForksSafely
  dsimp only
  rcases le_or_gt priority.toNat (s.prio r) with hle | hlt
  · obtain ⟨hwaits, hkeeps⟩ := hinv.fork_behind_waits hr func hp (by rw [hnew, hold]; exact hle)
    exact iff_of_true (.of_charge hr hwaits hkeeps) (Or.inl hle)
  · have hwaits := hinv.fork_preempting_waits hr func hp (by rw [hnew, hold]; exact hlt)
    rw [or_iff_right (not_le.mpr hlt)]
    constructor
    · intro h hone
      -- the new thread's semaphore is waited on, and the new thread is not the caller
      have hcaller := Option.some.inj (h.own _ ((hwaits _).mpr (Or.inr ⟨rfl, hone⟩)))
      exact hinv.fresh (hinv.running r hr).1 hcaller
    · intro hone
      refine ⟨fun t ht => ?_, fun r' hr' _ => ?_⟩
      · rcases (hwaits t).mp ht with rfl | ⟨-, h⟩
        · rfl
        · exact absurd h hone
      · obtain rfl : r = r' := Option.some.inj (hr.symm.trans hr')
        exact ⟨rfl, (hwaits r).mpr (Or.inl rfl)⟩

/-- A successful `so_fork` made by the main program. -/
theorem Inv.main_fork_iff (hinv : Inv s) (func : HandlerPtr) {priority : UInt32}
    (hp : ¬priority > soMaxPrio) (ret : Ret) :
    OwnWaits s none ⟨ret, ((s.forked func priority).scheduleThread s.threads.length).1,
      ((s.forked func priority).scheduleThread s.threads.length).2⟩ ↔
      ForksSafely s priority none := by
  unfold ForksSafely
  cases hrun : s.runningThread with
  | none =>
      have hwaits := hinv.fork_idle_waits hrun func priority
      refine iff_of_true ⟨fun t ht => absurd ht (hwaits t), fun r hr => ?_⟩ fun r hr => by cases hr
      rw [hrun] at hr
      cases hr
  | some r =>
      have hnew := forked_prio_new s func hp
      have hold : (s.forked func priority).prio r = s.prio r :=
        (forked_frame hinv func priority).prio r (hinv.running r hrun).1
      have hcond : (∀ r', some r = some r' → priority.toNat ≤ s.prio r' ∧ s.quantum r' ≠ 1) ↔
          priority.toNat ≤ s.prio r ∧ s.quantum r ≠ 1 :=
        ⟨fun h => h r rfl, fun h r' hr' => Option.some.inj hr' ▸ h⟩
      rw [hcond]
      rcases le_or_gt priority.toNat (s.prio r) with hle | hlt
      · obtain ⟨hwaits, hkeeps⟩ := hinv.fork_behind_waits hrun func hp (by rw [hnew, hold]; exact hle)
        rw [and_iff_right hle]
        constructor
        · intro h hone
          cases h.own _ ((hwaits r).mpr ⟨rfl, hone⟩)
        · intro hone
          refine ⟨fun t ht => absurd ((hwaits t).mp ht).2 hone, fun r' hr' hne => ?_⟩
          obtain rfl : r = r' := Option.some.inj (hrun.symm.trans hr')
          exact absurd (hkeeps hone) hne
      · have hwaits := hinv.fork_preempting_waits hrun func hp (by rw [hnew, hold]; exact hlt)
        refine iff_of_false (fun h => ?_) fun h => absurd h.1 (not_le.mpr hlt)
        cases h.own _ ((hwaits r).mpr (Or.inl rfl))

/-- In every reachable state a call waits on no semaphore but its caller's, and takes the CPU from no
task but its caller, if and only if it is not a successful `so_fork` or one that forks safely. -/
theorem semaphore_ownership_iff {timeQuantum io : UInt32} {s₀ s : Scheduler}
    {history : List (Op × Outcome)} {op : Op} {o : Outcome} {caller : Option ThreadPtr}
    (hinit : soInit none timeQuantum io = (0, some s₀)) (hrun : Run Step s₀ history s)
    (hcaller : MadeBy s op caller) (hcall : s.call op = some o) :
    OwnWaits s caller o ↔
      ∀ func priority, op = .fork (some func) priority → ¬priority > soMaxPrio →
        ForksSafely s priority caller := by
  have hinv := (inv_soInit hinit).run hrun
  cases op with
  | fork func priority =>
      obtain rfl := Option.some.inj hcall
      cases func with
      | none => exact iff_of_true .of_unchanged fun func priority' h => by cases h
      | some func =>
          have hcond : (∀ func' priority', Op.fork (some func) priority = .fork (some func') priority' →
              ¬priority' > soMaxPrio → ForksSafely s priority' caller) ↔
              (¬priority > soMaxPrio → ForksSafely s priority caller) := by
            refine ⟨fun h => h _ _ rfl, fun h func' priority' hop => ?_⟩
            obtain ⟨-, rfl⟩ := Op.fork.inj hop
            exact h
          rw [hcond]
          rcases soFork_cases s (some func) priority with heq | ⟨func', hfunc, hp, heq⟩ <;> rw [heq]
          · refine iff_of_true .of_unchanged fun hp => ?_
            simp [soFork, if_neg hp] at heq
          · obtain rfl := Option.some.inj hfunc
            rw [forall_prop_of_true hp]
            cases caller with
            | none => exact hinv.main_fork_iff func hp _
            | some r => exact hinv.task_fork_iff hcaller.1 func hp _
  | wait io =>
      obtain rfl := Option.some.inj hcall
      obtain ⟨r, rfl, hr, -⟩ := hcaller.task nofun
      refine iff_of_true ?_ nofun
      rcases soWait_cases hinv.toCore io with heq | ⟨r', f, hr', -, -, heq⟩ <;> rw [heq]
      · exact .of_unchanged
      · obtain rfl : r = r' := Option.some.inj (hr.symm.trans hr')
        exact .of_reschedule hr
  | signal io =>
      obtain rfl := Option.some.inj hcall
      obtain ⟨r, rfl, hr, -⟩ := hcaller.task nofun
      refine iff_of_true ?_ nofun
      rcases soSignal_cases hinv.toCore io with heq | ⟨r', f, hr', -, -, heq⟩ <;> rw [heq]
      · exact .of_unchanged
      · obtain rfl : r = r' := Option.some.inj (hr.symm.trans hr')
        exact .of_reschedule hr
  | exec =>
      obtain rfl := Option.some.inj hcall
      obtain ⟨r, rfl, hr, -⟩ := hcaller.task nofun
      exact iff_of_true (exec_ownWaits hr) nofun
  | ret =>
      obtain ⟨r, -, -, hret⟩ := hcaller.task nofun
      exact absurd rfl hret

/-- A task with two units left forks a thread that preempts it, and waits on its own semaphore. -/
theorem semaphore_ownership_preempting :
    (oneRunning.soFork (some 7) 5).ops = [.post 1, .wait 0] ∧
      OwnWaits oneRunning (some 0) (oneRunning.soFork (some 7) 5) := by
  have hcaller : MadeBy oneRunning (.fork (some 7) 5) (some 0) := by
    refine ⟨?_, ?_⟩ <;> decide +kernel
  refine ⟨by decide +kernel, (semaphore_ownership_iff soInit_two_one run_oneRunning hcaller rfl).mpr ?_⟩
  intro func priority _ _
  exact Or.inr (by decide +kernel)

/-- The main program forks a thread that preempts the running task, and waits on the semaphore of
the task. -/
theorem main_waits_on_task :
    oneRunning.runningThread = some 0 ∧
      (oneRunning.soFork (some 7) 5).ops = [.post 1, .wait 0] ∧
      ¬OwnWaits oneRunning none (oneRunning.soFork (some 7) 5) := by
  have hwait : SemOp.wait 0 ∈ (oneRunning.soFork (some 7) 5).ops := by decide +kernel
  refine ⟨by decide +kernel, by decide +kernel, fun h => ?_⟩
  cases h.own 0 hwait

end OsHomeworks.ThreadScheduler
