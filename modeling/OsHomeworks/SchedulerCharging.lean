import OsHomeworks.SchedulerRoundRobin

/-! Who is charged. `so_exec` charges the running thread; `so_fork` reaches it at the bottom of the
scheduling recursion, where the running thread is the caller unless the new thread has just
preempted it. -/

namespace OsHomeworks.ThreadScheduler

open StableQueue Runs Scheduler

namespace Scheduler

/-- The remaining `time_quantum` of a thread. -/
def quantum (s : Scheduler) (t : ThreadPtr) : UInt32 := (s.thread t).timeQuantum

/-- What one more unit leaves: after the last one a new quantum. -/
def nextQuantum (s : Scheduler) (r : ThreadPtr) : UInt32 :=
  if s.quantum r - 1 = 0 then s.timeQuantum else s.quantum r - 1

@[simp] theorem dispatch_quantum (s : Scheduler) (t : ThreadPtr) :
    (s.dispatch t).quantum = s.quantum := by
  funext u
  unfold quantum
  rw [dispatch_thread]
  split_ifs <;> rfl

@[simp] theorem requeue_quantum (s : Scheduler) (t : ThreadPtr) :
    (s.requeue t).quantum = s.quantum := by
  funext u
  unfold quantum
  rw [requeue_thread]
  split_ifs <;> rfl

theorem modify_quantum (s : Scheduler) (r : ThreadPtr) (f : Thread → Thread) :
    (s.modify r f).quantum = Function.update s.quantum r (f (s.thread r)).timeQuantum := by
  funext u
  unfold quantum
  rw [modify_thread]
  by_cases hu : u = r
  · subst u
    simp
  · simp [hu]

theorem charge_quantum (s : Scheduler) (r : ThreadPtr) :
    (s.charge r).quantum = Function.update s.quantum r (s.quantum r - 1) := modify_quantum s r _

theorem charge_timeQuantum_self (s : Scheduler) (r : ThreadPtr) :
    ((s.charge r).thread r).timeQuantum = s.quantum r - 1 := by
  have hcharge := congrFun (charge_quantum s r) r
  rwa [Function.update_self] at hcharge

theorem expire_quantum (s : Scheduler) (r : ThreadPtr) :
    ((s.charge r).expire r).quantum = Function.update s.quantum r s.timeQuantum := by
  rw [expire_charge]
  exact modify_quantum { s with runningThread := none } r _

theorem forked_quantum (s : Scheduler) (func : HandlerPtr) (priority : UInt32) :
    (s.forked func priority).quantum = Function.update s.quantum s.threads.length s.timeQuantum := by
  funext u
  unfold quantum
  rw [forked_thread]
  by_cases hu : u = s.threads.length
  · simp [hu]
  · simp [hu]

@[simp] theorem forked_timeQuantum (s : Scheduler) (func : HandlerPtr) (priority : UInt32) :
    (s.forked func priority).timeQuantum = s.timeQuantum := rfl

theorem nextQuantum_congr {s s' : Scheduler} {r : ThreadPtr} (hquantum : s'.quantum r = s.quantum r)
    (htime : s'.timeQuantum = s.timeQuantum) : s'.nextQuantum r = s.nextQuantum r := by
  unfold nextQuantum
  rw [hquantum, htime]

end Scheduler

variable {s : Scheduler} {r t : ThreadPtr}

/-- A thread that gave up the CPU: it stands in the queue, or every ready thread was below it and it
was chosen again. -/
def Requeued (r : ThreadPtr) (s : Scheduler) : Prop :=
  r ∈ s.q ∨ s.runningThread = some r ∧ ∀ t ∈ s.q, s.notWaiting t = true → s.prio t < s.prio r

/-- A call that leaves `s'` charged the caller `r`, and nobody else, one unit; after the last unit the
caller got a new quantum and gave up the CPU. The thread it forked, if any, starts with a full
quantum. -/
structure ChargesCaller (s : Scheduler) (r : ThreadPtr) (s' : Scheduler)
    (forked : Option ThreadPtr) : Prop where
  unit : s.quantum r - 1 ≠ 0 → s'.quantum r = s.quantum r - 1
  last : s.quantum r - 1 = 0 → s'.quantum r = s.timeQuantum ∧ Requeued r s'
  others : ∀ t ∈ s.threads, t ≠ r → s'.quantum t = s.quantum t
  fresh : ∀ t, forked = some t → s'.quantum t = s.timeQuantum

/-- `start` are the quanta before the charge. -/
theorem ChargesCaller.of_update {s' : Scheduler} {forked : Option ThreadPtr}
    {start : ThreadPtr → UInt32} (hquantum : s'.quantum = Function.update start r (s.nextQuantum r))
    (hlast : s.quantum r - 1 = 0 → Requeued r s')
    (hothers : ∀ t ∈ s.threads, start t = s.quantum t)
    (hfresh : ∀ t, forked = some t → t ≠ r ∧ start t = s.timeQuantum) :
    ChargesCaller s r s' forked := by
  refine ⟨fun hne => ?_, fun hzero => ⟨?_, hlast hzero⟩, fun t ht hne => ?_, fun t ht => ?_⟩
  · rw [hquantum, Function.update_self]
    exact if_neg hne
  · rw [hquantum, Function.update_self]
    exact if_pos hzero
  · rw [hquantum, Function.update_of_ne hne]
    exact hothers t ht
  · obtain ⟨hne, hstart⟩ := hfresh t ht
    rw [hquantum, Function.update_of_ne hne]
    exact hstart

theorem soExec_quantum (hr : s.runningThread = some r) :
    s.soExec.1.quantum = Function.update s.quantum r (s.nextQuantum r) := by
  have hleft := charge_timeQuantum_self s r
  unfold nextQuantum
  rcases soExec_cases hr with ⟨hne, heq⟩ | ⟨f, hzero, -, heq⟩ <;> rw [heq]
  · rw [if_neg (hleft ▸ hne)]
    exact charge_quantum s r
  · rw [if_pos (hleft ▸ hzero), dispatch_quantum, requeue_quantum, expire_quantum]

/-- At the end of its quantum a thread gives up the CPU. -/
theorem Inv.soExec_requeued (hinv : Inv s) (hr : s.runningThread = some r)
    (hzero : s.quantum r - 1 = 0) : Requeued r s.soExec.1 := by
  have hcore := hinv.toCore.expire hr
  rcases soExec_cases hr with ⟨hne, -⟩ | ⟨f, -, hf, heq⟩
  · exact absurd ((charge_timeQuantum_self s r).trans hzero) hne
  · rw [heq]
    by_cases hfr : f = r
    · subst f
      refine Or.inr ⟨rfl, fun t ht hw => ?_⟩
      have hbelow := (front_requeue_self hcore notWaiting_expire).mp hf
      obtain ⟨htq, hne⟩ := (hcore.requeue.mem_dispatch_q hf).mp ht
      rw [notWaiting_dispatch_of_ne hne, notWaiting_requeue] at hw
      simp only [dispatch_prio, requeue_prio]
      exact hbelow t ((mem_requeue_q.mp htq).resolve_left hne) hw
    · exact Or.inl ((hcore.requeue.mem_dispatch_q hf).mpr ⟨mem_requeue_q.mpr (Or.inl rfl), Ne.symm hfr⟩)

theorem Inv.exec_charges (hinv : Inv s) (hr : s.runningThread = some r) :
    ChargesCaller s r s.soExec.1 none :=
  .of_update (soExec_quantum hr) (hinv.soExec_requeued hr) (fun _ _ => rfl) fun _ ht => by cases ht

/-- A new thread that does not preempt the caller leaves the charge to it. -/
theorem Inv.fork_behind_charges (hinv : Inv s) (hr : s.runningThread = some r) (func : HandlerPtr)
    {priority : UInt32} (hp : ¬priority > soMaxPrio)
    (hle : (s.forked func priority).prio s.threads.length ≤ (s.forked func priority).prio r) :
    ChargesCaller s r ((s.forked func priority).scheduleThread s.threads.length).1
      (some s.threads.length) := by
  have hnew : r ≠ s.threads.length := hinv.fresh (hinv.running r hr).1
  obtain ⟨hinv', heq⟩ := (hinv.toCore.fork func hp).arrive_behind (hinv.forked func priority)
    (notWaiting_forked s func priority) hr hle
  have hr' : ((s.forked func priority).requeue s.threads.length).runningThread = some r :=
    (requeue_runningThread _ _).trans hr
  have hold : ((s.forked func priority).requeue s.threads.length).quantum r = s.quantum r := by
    rw [requeue_quantum, forked_quantum, Function.update_of_ne hnew]
  have hnext : ((s.forked func priority).requeue s.threads.length).nextQuantum r = s.nextQuantum r :=
    nextQuantum_congr hold (by simp)
  have hquantum := soExec_quantum hr'
  rw [hnext, requeue_quantum, forked_quantum] at hquantum
  rw [heq]
  refine .of_update hquantum (fun hzero => hinv'.soExec_requeued hr' (hold ▸ hzero))
    (fun t ht => Function.update_of_ne (hinv.fresh ht) _ _) fun t ht => ?_
  obtain rfl := Option.some.inj ht
  exact ⟨hnew.symm, Function.update_self _ _ _⟩

/-- A new thread that preempts the caller is charged in its place. -/
theorem Inv.fork_preempting_quantum (hinv : Inv s) (hr : s.runningThread = some r)
    (func : HandlerPtr) {priority : UInt32} (hp : ¬priority > soMaxPrio)
    (hlt : (s.forked func priority).prio r < (s.forked func priority).prio s.threads.length) :
    ((s.forked func priority).scheduleThread s.threads.length).1.quantum =
      Function.update s.quantum s.threads.length
        (if s.timeQuantum - 1 = 0 then s.timeQuantum else s.timeQuantum - 1) := by
  have hcore := hinv.toCore.fork func hp
  have hset := hinv.forked func priority
  have hw := notWaiting_forked s func priority
  obtain ⟨-, -, heq⟩ := hcore.arrive_preempts hset hw hr hlt
  rw [heq]
  dsimp only
  rw [soExec_quantum (requeue_runningThread _ _)]
  unfold nextQuantum
  simp only [requeue_quantum, dispatch_quantum, forked_quantum, Function.update_self,
    Function.update_idem, requeue_timeQuantum, dispatch_timeQuantum, forked_timeQuantum]

/-- Whatever becomes of the new thread, the caller it preempted stays in the queue. -/
theorem Inv.fork_preempting_queued (hinv : Inv s) (hr : s.runningThread = some r)
    (func : HandlerPtr) {priority : UInt32} (hp : ¬priority > soMaxPrio)
    (hlt : (s.forked func priority).prio r < (s.forked func priority).prio s.threads.length) :
    r ∈ ((s.forked func priority).scheduleThread s.threads.length).1.q := by
  obtain ⟨-, hinv', heq⟩ := (hinv.toCore.fork func hp).arrive_preempts (hinv.forked func priority)
    (notWaiting_forked s func priority) hr hlt
  rw [heq]
  have hrq : r ∈ ((((s.forked func priority).requeue s.threads.length).dispatch
      s.threads.length).requeue r).q := mem_requeue_q.mpr (Or.inl rfl)
  have hnew : ((((s.forked func priority).requeue s.threads.length).dispatch
      s.threads.length).requeue r).runningThread = some s.threads.length :=
    requeue_runningThread _ _
  rcases soExec_cases hnew with ⟨-, heq'⟩ | ⟨f, -, hf, heq'⟩ <;> rw [heq']
  · exact hrq
  · have hcore := (hinv'.toCore.expire hnew).requeue
    refine (hcore.mem_dispatch_q hf).mpr ⟨mem_requeue_q.mpr (Or.inr hrq), ?_⟩
    -- the front is not below the new thread, which is ready again
    have hle := hcore.le_front hf (mem_requeue_q.mpr (Or.inl rfl))
      (by rw [notWaiting_requeue, notWaiting_expire])
    simp only [requeue_prio, expire_prio, dispatch_prio] at hle
    rintro rfl
    omega

theorem Inv.fork_preempting_charges_iff (hinv : Inv s) (hr : s.runningThread = some r)
    (func : HandlerPtr) {priority : UInt32} (hp : ¬priority > soMaxPrio)
    (hlt : (s.forked func priority).prio r < (s.forked func priority).prio s.threads.length) :
    ChargesCaller s r ((s.forked func priority).scheduleThread s.threads.length).1
      (some s.threads.length) ↔ s.timeQuantum = 1 := by
  have hquantum := hinv.fork_preempting_quantum hr func hp hlt
  obtain ⟨hmem, -, hstate⟩ := hinv.running r hr
  have hnew : r ≠ s.threads.length := hinv.fresh hmem
  constructor
  · intro h
    have hfresh := h.fresh _ rfl
    rw [hquantum, Function.update_self] at hfresh
    by_contra hne
    have hleft : s.timeQuantum - 1 ≠ 0 := by grind
    rw [if_neg hleft] at hfresh
    grind
  · intro hone
    have hbound := (hinv.sound r hmem).quantum (by simp [hstate])
    have hlast : s.quantum r = 1 := by
      apply UInt32.toNat_inj.mp
      have : (1 : UInt32).toNat = 1 := rfl
      rw [hone] at hbound
      unfold quantum
      omega
    rw [hone, if_pos (by decide)] at hquantum
    refine ⟨fun hne => ?_, fun _ => ⟨?_, Or.inl (hinv.fork_preempting_queued hr func hp hlt)⟩,
      fun t ht _ => ?_, fun t ht => ?_⟩
    · rw [hlast] at hne
      exact absurd (by decide) hne
    · rw [hquantum, Function.update_of_ne hnew, hlast, hone]
    · rw [hquantum, Function.update_of_ne (hinv.fresh ht)]
    · obtain rfl := Option.some.inj ht
      rw [hquantum, Function.update_self, hone]

theorem Inv.soWait_forked (hinv : Inv s) (io : UInt32) : (s.soWait io).forked = none := by
  rcases soWait_cases hinv.toCore io with heq | ⟨_, _, _, _, _, heq⟩ <;> rw [heq] <;> rfl

theorem Inv.soSignal_forked (hinv : Inv s) (io : UInt32) : (s.soSignal io).forked = none := by
  rcases soSignal_cases hinv.toCore io with heq | ⟨_, _, _, _, _, heq⟩ <;> rw [heq] <;> rfl

/-- The priority of a new thread is the one asked for. -/
theorem forked_prio_new (s : Scheduler) (func : HandlerPtr) {priority : UInt32}
    (hp : ¬priority > soMaxPrio) :
    (s.forked func priority).prio s.threads.length = priority.toNat := by
  have h5 : priority.toNat ≤ soMaxPrio.toNat := UInt32.le_iff_toNat_le.mp (UInt32.not_lt.mp hp)
  have hmax : soMaxPrio.toNat = 5 := rfl
  unfold Scheduler.prio
  rw [forked_thread, if_pos rfl]
  dsimp only
  rw [UInt32.toNat_toUInt8]
  omega

/-- In every reachable state a `so_exec` or a successful `so_fork` of the running task charges it
alone, and starts a new thread with a full quantum, if and only if it is not a `so_fork` with a
priority above the caller's, or the quantum is one unit. -/
theorem time_charged_to_caller_iff {timeQuantum io : UInt32} {s₀ s : Scheduler}
    {history : List (Op × Outcome)} {r : ThreadPtr} {op : Op} {o : Outcome}
    (hinit : soInit none timeQuantum io = (0, some s₀)) (hrun : Run Step s₀ history s)
    (hr : s.runningThread = some r) (hcall : s.call op = some o)
    (hop : op = .exec ∨ o.forked ≠ none) :
    ChargesCaller s r o.next o.forked ↔
      ∀ func priority, op = .fork func priority →
        priority.toNat ≤ s.prio r ∨ s.timeQuantum = 1 := by
  have hinv := (inv_soInit hinit).run hrun
  cases op with
  | exec =>
      obtain rfl := Option.some.inj hcall
      refine iff_of_true (hinv.exec_charges hr) fun func priority h => ?_
      cases h
  | fork func priority =>
      obtain rfl := Option.some.inj hcall
      have hsucceeds : (s.soFork func priority).forked ≠ none := by
        refine hop.resolve_left fun h => ?_
        cases h
      rcases soFork_cases s func priority with heq | ⟨func', rfl, hp, heq⟩ <;>
        rw [heq] at hsucceeds ⊢
      · exact absurd rfl hsucceeds
      · have hnew := forked_prio_new s func' hp
        have hold : (s.forked func' priority).prio r = s.prio r :=
          (forked_frame hinv func' priority).prio r (hinv.running r hr).1
        have hcond : (∀ func priority', Op.fork (some func') priority = .fork func priority' →
            priority'.toNat ≤ s.prio r ∨ s.timeQuantum = 1) ↔
            priority.toNat ≤ s.prio r ∨ s.timeQuantum = 1 := by
          refine ⟨fun h => h _ _ rfl, fun h func priority' hop' => ?_⟩
          obtain ⟨-, rfl⟩ := Op.fork.inj hop'
          exact h
        rw [hcond]
        rcases le_or_gt priority.toNat (s.prio r) with hle | hlt
        · exact iff_of_true (hinv.fork_behind_charges hr func' hp (by rw [hnew, hold]; exact hle))
            (Or.inl hle)
        · rw [or_iff_right (not_le.mpr hlt)]
          exact hinv.fork_preempting_charges_iff hr func' hp (by rw [hnew, hold]; exact hlt)
  | wait io =>
      obtain rfl := Option.some.inj hcall
      exact absurd (hinv.soWait_forked io) (hop.resolve_left fun h => by cases h)
  | signal io =>
      obtain rfl := Option.some.inj hcall
      exact absurd (hinv.soSignal_forked io) (hop.resolve_left fun h => by cases h)
  | ret =>
      obtain ⟨r', hr', rfl⟩ := Option.map_eq_some_iff.mp hcall
      exact absurd rfl (hop.resolve_left fun h => by cases h)

theorem time_charged_to_caller_oneRunning :
    ChargesCaller oneRunning 0 (oneRunning.soFork (some 7) 1).next
      (oneRunning.soFork (some 7) 1).forked ↔
      ∀ func priority, Op.fork (some 7) 1 = .fork func priority →
        priority.toNat ≤ oneRunning.prio 0 ∨ oneRunning.timeQuantum = 1 :=
  time_charged_to_caller_iff soInit_two_one run_oneRunning (by decide +kernel)
    (rfl : oneRunning.call (.fork (some 7) 1) = _) (Or.inr (by decide +kernel))

/-- A `so_fork` that preempts its caller: the caller keeps its two units and the new thread starts
with one. -/
theorem preempting_fork_charges_newThread :
    oneRunning.runningThread = some 0 ∧ oneRunning.quantum 0 = 2 ∧
      (oneRunning.soFork (some 7) 5).ret = .tid (some 1) ∧
      (oneRunning.soFork (some 7) 5).next.quantum 0 = 2 ∧
      (oneRunning.soFork (some 7) 5).next.quantum 1 = 1 ∧
      ¬ChargesCaller oneRunning 0 (oneRunning.soFork (some 7) 5).next
        (oneRunning.soFork (some 7) 5).forked := by
  have hfresh : (oneRunning.soFork (some 7) 5).next.quantum 1 ≠ oneRunning.timeQuantum := by
    decide +kernel
  refine ⟨by decide +kernel, by decide +kernel, by decide +kernel, by decide +kernel,
    by decide +kernel, fun h => hfresh (h.fresh 1 ?_)⟩
  decide +kernel

end OsHomeworks.ThreadScheduler
