import OsHomeworks.SchedulerUniprocessor

/-! Wake-ups are balanced when calls are not interleaved: a call that its caller makes as the running
task, and that goes on until the caller blocks or returns, leaves one post for the running thread
if that thread is not the caller itself, and none for anybody else. -/

namespace OsHomeworks.ThreadScheduler

open StableQueue Runs Scheduler

section Segments

variable {s : Scheduler} {r t f : ThreadPtr}

/-- The threads that have not ended: queued, or on the CPU. -/
def Scheduler.Live (s : Scheduler) (t : ThreadPtr) : Prop := t ∈ s.q ∨ s.runningThread = some t

/-- A state between two calls, with the live threads of an earlier one and the thread that the call
created. -/
structure Successor (s : Scheduler) (ret : Ret) (s' : Scheduler) : Prop where
  inv : Inv s'
  fresh : ∀ t, ret = .tid (some t) → ¬s.Live t
  live : ∀ t, s'.Live t ↔ s.Live t ∨ ret = .tid (some t)

theorem scheduleThreadSegment_idle (hidle : s.runningThread = none)
    (hf : (s.requeue t).front = some f) :
    s.scheduleThreadSegment t = ⟨(s.requeue t).dispatch f, some f, []⟩ := by
  rw [scheduleThreadSegment_eq, hf, checkPreemptSegment_idle ((requeue_runningThread s t).trans hidle)]

theorem soExecSegment_cases (hr : s.runningThread = some r) :
    s.soExecSegment = ⟨s.charge r, none, []⟩ ∨
      ∃ f, (((s.charge r).expire r).requeue r).front = some f ∧
        s.soExecSegment =
          ⟨(((s.charge r).expire r).requeue r).dispatch f, some f, [.semWait r]⟩ := by
  by_cases hleft : ((s.charge r).thread r).timeQuantum = 0
  · obtain ⟨f, hf⟩ := exists_front_requeue (notWaiting_expire (s := s) (r := r))
    refine Or.inr ⟨f, hf, ?_⟩
    rw [soExecSegment_expire hr hleft, scheduleThreadSegment_idle rfl hf]
    rfl
  · exact Or.inl (soExecSegment_charge hr hleft)

/-- The running thread stays ahead of a thread that is put back. -/
theorem Inv.scheduleThreadSegment_exec (h : Inv (s.requeue t)) (hr : s.runningThread = some r)
    (hw : s.notWaiting t = true) : s.scheduleThreadSegment t = (s.requeue t).soExecSegment := by
  obtain ⟨f, hf⟩ := exists_front_requeue hw
  have hr' : (s.requeue t).runningThread = some r := (requeue_runningThread s t).trans hr
  have hle := h.top r hr' f (front_mem hf) (front_notWaiting hf)
  rw [scheduleThreadSegment_eq, hf, checkPreemptSegment_exec hr' hle]

/-- The threads alive when the caller's thread is put back and the queue is served. -/
theorem Core.live_reschedule (h : Core s (some t)) (hf : (s.requeue t).front = some f)
    (u : ThreadPtr) : ((s.requeue t).dispatch f).Live u ↔ u = t ∨ u ∈ s.q := by
  have hfq := mem_requeue_q.mp (front_mem hf)
  unfold Live
  rw [h.requeue.mem_dispatch_q hf, mem_requeue_q, dispatch_runningThread]
  constructor
  · rintro (⟨hu, -⟩ | hu)
    · exact hu
    · obtain rfl := Option.some.inj hu
      exact hfq
  · intro hu
    by_cases huf : u = f
    · exact Or.inr (congrArg some huf.symm)
    · exact Or.inl ⟨hu, huf⟩

/-- The live threads are the queue and the one that was taken off the CPU. -/
theorem live_detached (hr : s.runningThread = some r) (u : ThreadPtr) :
    u = r ∨ u ∈ s.q ↔ s.Live u := by
  unfold Live
  rw [hr, or_comm]
  exact or_congr Iff.rfl ⟨fun heq => congrArg some heq.symm, fun heq => (Option.some.inj heq).symm⟩

theorem live_charge (s : Scheduler) (r u : ThreadPtr) : (s.charge r).Live u ↔ s.Live u := Iff.rfl

/-- The threads alive after the running thread has been charged. -/
theorem Core.live_soExec (h : Core s none) (hr : s.runningThread = some r) (u : ThreadPtr) :
    s.soExecSegment.sched.Live u ↔ s.Live u := by
  rcases soExecSegment_cases hr with heq | ⟨f, hf, heq⟩ <;> rw [heq]
  · exact live_charge s r u
  · rw [(h.expire hr).live_reschedule hf]
    exact live_detached hr u

theorem live_requeue (s : Scheduler) (t u : ThreadPtr) :
    (s.requeue t).Live u ↔ u = t ∨ s.Live u := by
  unfold Live
  rw [mem_requeue_q, requeue_runningThread, or_assoc]

theorem Inv.not_live_new (h : Inv s) : ¬s.Live s.threads.length := by
  rintro (hq | hr)
  · exact h.fresh (h.queued _ hq).1 rfl
  · exact h.fresh (h.running _ hr).1 rfl

/-- The first segment of a preempting `so_fork` of `r`, and the state the whole call leaves: the new
thread `t` has been posted, and the rest of the call charges it for its first time unit. -/
structure Window (r t : ThreadPtr) (segment : Segment) (s' : Scheduler) : Prop where
  running : segment.sched.runningThread = some t
  segment_eq : segment = ⟨segment.sched, some t, [.schedule r, .semWait r]⟩
  rest : segment.sched.scheduleThreadSegment r = ⟨s', none, []⟩ ∨
    segment.sched.scheduleThreadSegment r = ⟨s', some t, [.semWait t]⟩
  running' : s'.runningThread = some t

/-- What a call of the running thread starts with: it keeps the CPU, or it gives the CPU to a
posted thread and waits, or it is a preempting `so_fork`. -/
inductive Starts (r : ThreadPtr) (ret : Ret) (s' : Scheduler) : Segment → Prop where
  | keeps : s'.runningThread = some r → Starts r ret s' ⟨s', none, []⟩
  | gives (f : ThreadPtr) : s'.runningThread = some f → Starts r ret s' ⟨s', some f, [.semWait r]⟩
  | preempted (t : ThreadPtr) (segment : Segment) :
      ret = .tid (some t) → Window r t segment s' → Starts r ret s' segment

/-- The scheduler that the first segment and the rest of the call lead to. -/
theorem Starts.complete {ret : Ret} {s' : Scheduler} {segment : Segment}
    (h : Starts r ret s' segment) : segment.complete.1 = s' := by
  cases h with
  | keeps => rfl
  | gives f => rfl
  | preempted t segment hret hwindow =>
      rw [hwindow.segment_eq]
      change (segment.sched.scheduleThread r).1 = s'
      rw [← scheduleThreadSegment_complete]
      rcases hwindow.rest with heq | heq <;> rw [heq] <;> rfl

theorem Inv.successor (h : Inv s) (hr : s.runningThread = some r) {op : Op} {ret : Ret}
    {segment : Segment} {s' : Scheduler} (henter : s.enter (.task r) op = some (ret, segment))
    (hstarts : Starts r ret s' segment)
    (hlive : ∀ u, s'.Live u ↔ s.Live u ∨ ret = .tid (some u)) : Successor s ret s' := by
  have hkept := h.call (call_eq_outcome hr henter)
  refine ⟨?_, fun t ht => ?_, hlive⟩
  · rw [← hstarts.complete]
    exact hkept.inv
  · have hforked : (outcome (ret, segment)).forked = some t := by
      rw [ht]
      rfl
    rw [hkept.fresh t hforked]
    exact h.not_live_new

/-- The running thread is charged for the call it makes. -/
theorem Inv.charge_starts (h : Inv s) (hr : s.runningThread = some r) (ret : Ret) :
    ∃ s', Starts r ret s' s.soExecSegment ∧ ∀ u, s'.Live u ↔ s.Live u := by
  have hlive := h.toCore.live_soExec hr
  rcases soExecSegment_cases hr with heq | ⟨f, -, heq⟩ <;> rw [heq] at hlive ⊢
  · exact ⟨_, .keeps hr, hlive⟩
  · exact ⟨_, .gives f rfl, hlive⟩

/-- A new thread that preempts the running one is charged at once. -/
theorem Core.preempt_window (h : Core s (some t)) (hset : Settled s)
    (hr : s.runningThread = some r) (hlt : s.prio r < s.prio t)
    (hf : (s.requeue t).front = some t) (hinv : Inv (((s.requeue t).dispatch t).requeue r)) :
    ∃ s', Window r t (s.scheduleThreadSegment t) s' ∧ ∀ u, s'.Live u ↔ u = t ∨ s.Live u := by
  have hr' : (s.requeue t).runningThread = some r := (requeue_runningThread s t).trans hr
  have hlt' : (s.requeue t).prio r < (s.requeue t).prio t := by
    rw [requeue_prio]
    exact hlt
  have hne : r ≠ t := fun heq => by
    subst r
    exact lt_irrefl _ hlt
  have hseg : s.scheduleThreadSegment t =
      ⟨(s.requeue t).dispatch t, some t, [.schedule r, .semWait r]⟩ := by
    rw [scheduleThreadSegment_eq, hf, checkPreemptSegment_preempt hr' hlt']
  have hrw : ((s.requeue t).dispatch t).notWaiting r = true := by
    rw [notWaiting_dispatch_of_ne hne, notWaiting_requeue]
    exact h.not_waiting_of_running hr
  have hrest := hinv.scheduleThreadSegment_exec (dispatch_runningThread _ t) hrw
  have hz : (((s.requeue t).dispatch t).requeue r).runningThread = some t := requeue_runningThread _ _
  have hlive : ∀ u, (((s.requeue t).dispatch t).requeue r).soExecSegment.sched.Live u ↔
      u = t ∨ s.Live u := by
    intro u
    rw [hinv.toCore.live_soExec hz, live_requeue]
    unfold Live
    rw [h.requeue.mem_dispatch_q hf, mem_requeue_q, dispatch_runningThread, hr]
    by_cases hut : u = t
    · simp [hut]
    · have htu : t ≠ u := fun heq => hut heq.symm
      simp [hut, htu, eq_comm (a := u), or_comm]
  rw [hseg]
  rcases soExecSegment_cases hz with heq | ⟨f, hff, heq⟩
  · rw [heq] at hlive hrest
    exact ⟨_, ⟨rfl, rfl, Or.inl hrest, hz⟩, hlive⟩
  · -- The new thread has the greatest priority, so the queue serves it again.
    have hft : f = t := by
      have hmax := @front_requeue_expire (((s.requeue t).dispatch t).requeue r) t
        fun u hu huw hut => by
          rw [requeue_prio, dispatch_prio, requeue_prio]
          rcases mem_requeue_q.mp hu with rfl | hu
          · exact hlt
          · obtain ⟨hu, -⟩ := (h.requeue.mem_dispatch_q hf).mp hu
            rw [notWaiting_requeue, notWaiting_dispatch_of_ne hut, notWaiting_requeue] at huw
            exact (hset.top r hr u ((mem_requeue_q.mp hu).resolve_left hut) huw).trans_lt hlt
      exact Option.some.inj (hff.symm.trans hmax)
    subst f
    rw [heq] at hlive hrest
    exact ⟨_, ⟨rfl, rfl, Or.inr hrest, rfl⟩, hlive⟩

theorem soWaitSegment_cases (h : Core s none) (hr : s.runningThread = some r) (io : UInt32) :
    s.soWaitSegment io = (.int (-1), ⟨s, none, []⟩) ∨
      ∃ f, io < s.io ∧ ((s.block r io).requeue r).front = some f ∧
        s.soWaitSegment io =
          (.int 0, ⟨((s.block r io).requeue r).dispatch f, some f, [.semWait r]⟩) := by
  have hout := s.soWait_eq_outcome io
  rcases soWait_cases h io with heq | ⟨r', f, hr', hio, hf, heq⟩
  all_goals
    rw [heq] at hout
    unfold soWaitSegment at hout ⊢
    rw [hr] at hout ⊢
    dsimp only at hout ⊢
    split_ifs at hout ⊢
  · exact Or.inl rfl
  · cases congrArg Outcome.ret hout
  · cases congrArg Outcome.ret hout
  · obtain rfl : r = r' := Option.some.inj (hr.symm.trans hr')
    refine Or.inr ⟨f, hio, hf, ?_⟩
    rw [scheduleThreadSegment_idle rfl hf]
    rfl

theorem soSignalSegment_cases (h : Core s none) (hr : s.runningThread = some r) (io : UInt32) :
    s.soSignalSegment io = (.int (-1), ⟨s, none, []⟩) ∨
      ∃ f, io < s.io ∧ ({ s.woken io with runningThread := none }.requeue r).front = some f ∧
        s.soSignalSegment io = (.int (s.q.countP fun t => (s.thread t).event = io),
          ⟨({ s.woken io with runningThread := none }.requeue r).dispatch f, some f,
            [.semWait r]⟩) := by
  have hw : { s.woken io with runningThread := none }.notWaiting r = true :=
    notWaiting_woken (h.not_waiting_of_running hr)
  obtain ⟨f, hf⟩ := exists_front_requeue hw
  unfold soSignalSegment
  rw [wakeAll_eq h.nodup, hr]
  dsimp only
  split_ifs with hfail
  · exact Or.inl rfl
  · refine Or.inr ⟨f, UInt32.not_le.mp hfail, hf, ?_⟩
    rw [scheduleThreadSegment_idle rfl hf]
    rfl

/-- The first segment of a call of the running thread, and the state the whole call leaves. -/
theorem Inv.enter_starts (h : Inv s) (hr : s.runningThread = some r) {op : Op} {ret : Ret}
    {segment : Segment} (henter : s.enter (.task r) op = some (ret, segment)) (hop : op ≠ .ret) :
    ∃ s', Starts r ret s' segment ∧ Successor s ret s' := by
  have hstarts : ∃ s', Starts r ret s' segment ∧ ∀ u, s'.Live u ↔ s.Live u ∨ ret = .tid (some u) := by
    cases op with
    | ret => exact absurd rfl hop
    | exec =>
        obtain ⟨rfl, rfl⟩ := Prod.mk.inj (Option.some.inj henter)
        obtain ⟨s', hs', hlive⟩ := h.charge_starts hr .unit
        exact ⟨s', hs', fun u => by simp [hlive u]⟩
    | wait io =>
        rcases soWaitSegment_cases h.toCore hr io with heq | ⟨f, hio, hf, heq⟩ <;>
          obtain ⟨rfl, rfl⟩ := Prod.mk.inj (heq.symm.trans (Option.some.inj henter))
        · exact ⟨s, .keeps hr, fun u => by simp⟩
        · refine ⟨_, .gives f rfl, fun u => ?_⟩
          refine (((h.toCore.block hr hio).live_reschedule hf u).trans (live_detached hr u)).trans ?_
          simp
    | signal io =>
        rcases soSignalSegment_cases h.toCore hr io with heq | ⟨f, -, hf, heq⟩ <;>
          obtain ⟨rfl, rfl⟩ := Prod.mk.inj (heq.symm.trans (Option.some.inj henter))
        · exact ⟨s, .keeps hr, fun u => by simp⟩
        · refine ⟨_, .gives f rfl, fun u => ?_⟩
          have hcore := (h.toCore.woken io).detach hr
          refine ((hcore.live_reschedule hf u).trans (live_detached hr u)).trans ?_
          simp
    | fork func priority =>
        rcases soForkSegment_cases s func priority with heq | ⟨func', -, hp, heq⟩ <;>
          obtain ⟨rfl, rfl⟩ := Prod.mk.inj (heq.symm.trans (Option.some.inj henter))
        · exact ⟨s, .keeps hr, fun u => by simp⟩
        · have hcore := h.toCore.fork func' hp
          have hset := h.forked func' priority
          have hw := notWaiting_forked s func' priority
          rcases hcore.arrive_cases hset hw with ⟨hnone, -, -⟩ | ⟨r', hr', -, hinv, -⟩ |
            ⟨r', hr', hlt, hf, hinv, -⟩
          · cases hr.symm.trans hnone
          · obtain ⟨s', hs', hlive⟩ := hinv.charge_starts
              ((requeue_runningThread _ _).trans hr) (.tid (some s.threads.length))
            rw [hinv.scheduleThreadSegment_exec hr hw]
            refine ⟨s', hs', fun u => ?_⟩
            rw [hlive u, live_requeue, or_comm]
            simp [eq_comm]
            rfl
          · obtain rfl : r = r' := Option.some.inj (hr.symm.trans hr')
            obtain ⟨s', hwindow, hlive⟩ := hcore.preempt_window hset hr hlt hf hinv
            refine ⟨s', .preempted _ _ rfl hwindow, fun u => ?_⟩
            rw [hlive u, or_comm]
            simp [eq_comm]
            rfl
  obtain ⟨s', hs', hlive⟩ := hstarts
  exact ⟨s', hs', h.successor hr henter hs' hlive⟩

/-- A `so_fork` of the main program on an idle CPU posts the new thread, if there is one. -/
theorem Inv.enter_main (h : Inv s) (hidle : s.runningThread = none) {func : Option HandlerPtr}
    {priority : UInt32} {ret : Ret} {segment : Segment}
    (henter : s.enter .main (.fork func priority) = some (ret, segment)) :
    ∃ s', segment = ⟨s', s'.runningThread, []⟩ ∧ Successor s ret s' := by
  rcases soForkSegment_cases s func priority with heq | ⟨func', rfl, hp, heq⟩ <;>
    obtain ⟨rfl, rfl⟩ := Prod.mk.inj (heq.symm.trans (Option.some.inj henter))
  · refine ⟨s, ?_, h, fun t ht => (by cases ht), fun u => by simp⟩
    rw [hidle]
  · have hcore := h.toCore.fork func' hp
    have hw := notWaiting_forked s func' priority
    rcases hcore.arrive_cases (h.forked func' priority) hw with ⟨-, hf, -⟩ | ⟨r', hr', -⟩ |
      ⟨r', hr', -⟩
    · have hidle' : (s.forked func' priority).runningThread = none := hidle
      rw [scheduleThreadSegment_idle hidle' hf]
      refine ⟨_, rfl, hcore.reschedule hidle hf, fun t ht => ?_, fun u => ?_⟩
      · obtain rfl := Option.some.inj (Ret.tid.inj ht)
        exact h.not_live_new
      · rw [hcore.live_reschedule hf, or_comm]
        unfold Live
        rw [hidle]
        simp [eq_comm]
        rfl
    · cases hidle.symm.trans hr'
    · cases hidle.symm.trans hr'

/-- The end of a handler posts the next thread, if there is one. -/
theorem Inv.enter_ret (h : Inv s) (hr : s.runningThread = some r) :
    ∃ s', (s.threadTaskSegment r).2 = ⟨s', s'.runningThread, []⟩ ∧ Inv s' ∧
      ∀ u, s'.Live u ↔ s.Live u ∧ u ≠ r := by
  have hcore := h.toCore.ended hr
  have hlive : ∀ u, u ∈ s.q ↔ s.Live u ∧ u ≠ r := by
    intro u
    rw [← live_detached hr]
    constructor
    · intro hu
      exact ⟨Or.inr hu, fun heq => (h.running r hr).2.1 (heq ▸ hu)⟩
    · rintro ⟨hu | hu, hne⟩
      · exact absurd hu hne
      · exact hu
  have heq : (s.threadTaskSegment r).2 = (s.ended r).checkPreemptSegment (s.ended r).front := rfl
  rw [heq]
  cases hf : (s.ended r).front with
  | none =>
      rw [checkPreemptSegment_none]
      refine ⟨_, rfl, hcore.settle_none rfl hf, fun u => ?_⟩
      rw [← hlive]
      exact or_iff_left nofun
  | some f =>
      rw [checkPreemptSegment_idle rfl]
      refine ⟨_, rfl, hcore.settle_dispatch rfl hf, fun u => ?_⟩
      have hfq : f ∈ (s.ended r).q := front_mem hf
      rw [← hlive]
      unfold Live
      rw [hcore.mem_dispatch_q hf, dispatch_runningThread]
      by_cases huf : u = f
      · subst u
        exact iff_of_true (Or.inr rfl) hfq
      · have hfu : some f ≠ some u := fun heq => huf (Option.some.inj heq).symm
        simp only [hfu, or_false, huf, not_false_eq_true, and_true, ne_eq]
        rfl

end Segments

/-- Between two calls: a queued thread waits on its own semaphore without a post, the running one is
in handler code or has the one post that lets it go on, and ended threads are gone. -/
structure Balanced (m : Machine) : Prop where
  inv : Inv m.sched
  main : m.code .main = some []
  gone : ∀ t, ¬m.sched.Live t → m.code (.task t) = none
  off : ∀ t ∈ m.sched.q, m.code (.task t) = some [.semWait t]
  on : ∀ r, m.sched.runningThread = some r →
    m.code (.task r) = some [] ∧ m.sem r = 0 ∨ m.code (.task r) = some [.semWait r] ∧ m.sem r = 1
  zero : ∀ t, m.sched.runningThread ≠ some t → m.sem t = 0

/-- The system after a whole call that leaves `code` to its caller: the running thread of `s'` has
been posted once. -/
def Machine.handOver (m : Machine) (ret : Ret) (p : Pthread) (s' : Scheduler)
    (code : Option (List Pending)) : Machine :=
  (m.spawn ret).execute p ⟨s', s'.runningThread, []⟩ code

namespace Balanced

variable {m m' : Machine} {p : Pthread} {ret : Ret} {s' : Scheduler}

theorem handOver_sem {code : Option (List Pending)} (hzero : ∀ t, (m.spawn ret).sem t = 0)
    (t : ThreadPtr) :
    (m.handOver ret p s' code).sem t = if s'.runningThread = some t then 1 else 0 := by
  rw [Machine.handOver, Machine.execute_sem, hzero, Nat.zero_add]
  rfl

theorem of_handOver {code : Option (List Pending)} (hinv : Inv s')
    (hmain : (m.handOver ret p s' code).code .main = some [])
    (hgone : ∀ t, ¬s'.Live t → (m.handOver ret p s' code).code (.task t) = none)
    (hlive : ∀ t, s'.Live t → (m.handOver ret p s' code).code (.task t) = some [.semWait t])
    (hzero : ∀ t, (m.spawn ret).sem t = 0) : Balanced (m.handOver ret p s' code) := by
  refine ⟨hinv, hmain, hgone, fun t ht => hlive t (Or.inl ht), fun r hr => Or.inr ?_, fun t ht => ?_⟩
  · rw [handOver_sem hzero]
    exact ⟨hlive r (Or.inr hr), if_pos hr⟩
  · rw [handOver_sem hzero]
    exact if_neg ht

theorem ne_running {r t : ThreadPtr} (hr : m.sched.runningThread = some r) (ht : t ≠ r) :
    m.sched.runningThread ≠ some t := by
  intro heq
  exact ht (Option.some.inj (hr.symm.trans heq)).symm

theorem execute_code_task (m : Machine) {t r : ThreadPtr} (ht : t ≠ r) (segment : Segment)
    (code : Option (List Pending)) :
    (m.execute (.task r) segment code).code (.task t) = m.code (.task t) :=
  Machine.execute_code_of_ne m (fun heq => ht (Pthread.task.inj heq)) segment code

theorem execute_code_main (h : Balanced m) (ret : Ret) (r : ThreadPtr) (segment : Segment)
    (code : Option (List Pending)) :
    ((m.spawn ret).execute (.task r) segment code).code .main = some [] := by
  have hne : Pthread.main ≠ .task r := nofun
  rw [Machine.execute_code_of_ne _ hne, Machine.spawn_code_main, h.main]

/-- When a call starts, no semaphore has a post. -/
theorem spawn_zero (h : Balanced m)
    (hquiet : ∀ r, m.sched.runningThread = some r → m.code (.task r) = some []) (ret : Ret)
    (t : ThreadPtr) : (m.spawn ret).sem t = 0 := by
  rw [Machine.spawn_sem]
  split_ifs with hnew
  · rfl
  · by_cases hr : m.sched.runningThread = some t
    · rcases h.on t hr with ⟨-, hsem⟩ | ⟨hcode, -⟩
      · exact hsem
      · cases (hquiet t hr).symm.trans hcode
    · exact h.zero t hr

theorem quiet {r : ThreadPtr} (hr : m.sched.runningThread = some r)
    (hcode : m.code (.task r) = some []) :
    ∀ r', m.sched.runningThread = some r' → m.code (.task r') = some [] := by
  intro r' hr'
  obtain rfl : r = r' := Option.some.inj (hr.symm.trans hr')
  exact hcode

/-- The other threads when a call starts: those that are live after it wait, a new one included. -/
theorem spawn_code (h : Balanced m) (hsucc : Successor m.sched ret s') {t : ThreadPtr}
    (ht : m.sched.runningThread ≠ some t) :
    (s'.Live t → (m.spawn ret).code (.task t) = some [.semWait t]) ∧
      (¬s'.Live t → (m.spawn ret).code (.task t) = none) := by
  rw [Machine.spawn_code_task, hsucc.live]
  by_cases hnew : ret = .tid (some t)
  · rw [if_pos hnew]
    exact ⟨fun _ => rfl, fun hnot => absurd (Or.inr hnew) hnot⟩
  · rw [if_neg hnew]
    refine ⟨fun hlive => ?_, fun hnot => h.gone t fun hlive => hnot (Or.inl hlive)⟩
    rcases hlive with (hq | hr) | hret
    · exact h.off t hq
    · exact absurd hr ht
    · exact absurd hret hnew

/-- The running thread takes the post it was given. -/
theorem wake (h : Balanced m) {r : ThreadPtr} (hr : m.sched.runningThread = some r)
    (hcode : m.code (.task r) = some [.semWait r]) :
    ∃ m', m.resume (.task r) = some m' ∧ m'.sched = m.sched ∧ m'.code (.task r) = some [] ∧
      Balanced m' := by
  have hsem : m.sem r = 1 := by
    rcases h.on r hr with ⟨hempty, -⟩ | ⟨-, hsem⟩
    · cases hcode.symm.trans hempty
    · exact hsem
  have hother : ∀ t, t ≠ r → Function.update m.code (.task r) (some []) (.task t) = m.code (.task t) :=
    fun t ht => Function.update_of_ne (fun heq => ht (Pthread.task.inj heq)) _ _
  refine ⟨_, Machine.resume_wait hcode (by omega), rfl, Function.update_self _ _ _, h.inv, ?_, ?_, ?_,
    ?_, ?_⟩
  · have hne : Pthread.main ≠ .task r := nofun
    exact (Function.update_of_ne hne (some []) m.code).trans h.main
  · intro t ht
    have hne : t ≠ r := by
      rintro rfl
      exact ht (Or.inr hr)
    exact (hother t hne).trans (h.gone t ht)
  · intro t ht
    have hne : t ≠ r := fun heq => (h.inv.running r hr).2.1 (heq ▸ ht)
    exact (hother t hne).trans (h.off t ht)
  · intro r' hr'
    obtain rfl : r = r' := Option.some.inj (hr.symm.trans hr')
    refine Or.inl ⟨Function.update_self _ _ _, ?_⟩
    change Function.update m.sem r (m.sem r - 1) r = 0
    rw [Function.update_self, hsem]
  · intro t ht
    have hne : t ≠ r := by
      rintro rfl
      exact ht hr
    exact (Function.update_of_ne hne _ _).trans (h.zero t ht)

/-- A task's call that gives the CPU away. -/
theorem handOver_task (h : Balanced m) {r : ThreadPtr} (hr : m.sched.runningThread = some r)
    (hcode : m.code (.task r) = some []) (hsucc : Successor m.sched ret s') :
    Balanced (m.handOver ret (.task r) s' (some [.semWait r])) := by
  refine of_handOver hsucc.inv (h.execute_code_main ret r _ _) (fun t ht => ?_) (fun t ht => ?_)
    (h.spawn_zero (quiet hr hcode) ret)
  · have hne : t ≠ r := by
      rintro rfl
      exact ht ((hsucc.live t).mpr (Or.inl (Or.inr hr)))
    rw [Machine.handOver, execute_code_task _ hne]
    exact (h.spawn_code hsucc (ne_running hr hne)).2 ht
  · by_cases hne : t = r
    · subst t
      exact Machine.execute_code_self _ _ _ _
    · rw [Machine.handOver, execute_code_task _ hne]
      exact (h.spawn_code hsucc (ne_running hr hne)).1 ht

/-- A task's call that keeps the CPU. -/
theorem keep_task (h : Balanced m) {r : ThreadPtr} (hr : m.sched.runningThread = some r)
    (hcode : m.code (.task r) = some []) (hsucc : Successor m.sched ret s')
    (hr' : s'.runningThread = some r) :
    Balanced ((m.spawn ret).execute (.task r) ⟨s', none, []⟩ (some [])) := by
  have hzero := h.spawn_zero (quiet hr hcode) ret
  refine ⟨hsucc.inv, h.execute_code_main ret r _ _, fun t ht => ?_, fun t ht => ?_, fun u hu => ?_,
    fun t _ => hzero t⟩
  · have hne : t ≠ r := by
      rintro rfl
      exact ht (Or.inr hr')
    rw [execute_code_task _ hne]
    exact (h.spawn_code hsucc (ne_running hr hne)).2 ht
  · have hne : t ≠ r := fun heq => (hsucc.inv.running r hr').2.1 (heq ▸ ht)
    rw [execute_code_task _ hne]
    exact (h.spawn_code hsucc (ne_running hr hne)).1 (Or.inl ht)
  · obtain rfl : r = u := Option.some.inj (hr'.symm.trans hu)
    exact Or.inl ⟨Machine.execute_code_self _ _ _ _, hzero r⟩

/-- A call of the main program. -/
theorem handOver_main (h : Balanced m) (hidle : m.sched.runningThread = none)
    (hsucc : Successor m.sched ret s') : Balanced (m.handOver ret .main s' (some [])) := by
  have hcpu : ∀ t, m.sched.runningThread ≠ some t := by
    rw [hidle]
    nofun
  have hother : ∀ t, (m.handOver ret .main s' (some [])).code (.task t) =
      (m.spawn ret).code (.task t) := by
    intro t
    have hne : Pthread.task t ≠ .main := nofun
    exact Machine.execute_code_of_ne _ hne _ _
  refine of_handOver hsucc.inv (Machine.execute_code_self _ _ _ _) (fun t ht => ?_) (fun t ht => ?_)
    (h.spawn_zero (fun r hr => absurd hr (hcpu r)) ret)
  · rw [hother]
    exact (h.spawn_code hsucc (hcpu t)).2 ht
  · rw [hother]
    exact (h.spawn_code hsucc (hcpu t)).1 ht

/-- The end of a handler. -/
theorem handOver_ret (h : Balanced m) {r : ThreadPtr} (hr : m.sched.runningThread = some r)
    (hcode : m.code (.task r) = some []) (hinv : Inv s')
    (hlive : ∀ u, s'.Live u ↔ m.sched.Live u ∧ u ≠ r) :
    Balanced (m.handOver .unit (.task r) s' none) := by
  refine of_handOver hinv (h.execute_code_main .unit r _ _) (fun t ht => ?_) (fun t ht => ?_)
    (h.spawn_zero (quiet hr hcode) .unit)
  · by_cases hne : t = r
    · subst t
      exact Machine.execute_code_self _ _ _ _
    · rw [Machine.handOver, execute_code_task _ hne]
      exact h.gone t fun hl => ht ((hlive t).mpr ⟨hl, hne⟩)
  · obtain ⟨hl, hne⟩ := (hlive t).mp ht
    rw [Machine.handOver, execute_code_task _ hne]
    rcases hl with hq | hr'
    · exact h.off t hq
    · exact absurd (Option.some.inj (hr.symm.trans hr')).symm hne

end Balanced

/-! ### Calls that are not interleaved -/

/-- A call by the running task, or a `so_fork` of the main program while nothing runs. -/
def Rightful (m : Machine) (a : Action) : Prop :=
  ∀ p op, a = .call p op →
    (∃ r, p = .task r ∧ m.sched.runningThread = some r) ∨
      p = .main ∧ m.sched.runningThread = none ∧ ∃ func priority, op = .fork func priority

def Action.pthread : Action → Pthread
  | .call p _ => p
  | .resume p => p

/-- A call, or the continuation of a call after its `sem_wait`, that goes on until its pthread blocks
or is outside every call. -/
def Undivided (m : Machine) (a : Action) (m' : Machine) : Prop :=
  Rightful m a ∧ ∃ m₁, m.act a = some m₁ ∧ Machine.Settles a.pthread m₁ m'

/-- How a call can end: the caller goes on as the running thread and no semaphore has a post; or the
caller is blocked on its own semaphore, has ended, or is the main program and has returned, and only
the running thread has a post, exactly one. -/
def CallEnds (p : Pthread) (op : Op) (m : Machine) : Prop :=
  (∃ r, p = .task r ∧ m.sched.runningThread = some r ∧ m.code p = some [] ∧ ∀ t, m.sem t = 0) ∨
    (p = .main ∧ m.code .main = some [] ∨
      ∃ r, p = .task r ∧
        (m.code p = some [.semWait r] ∧ m.sem r = 0 ∨ op = .ret ∧ m.code p = none)) ∧
      (∀ r, m.sched.runningThread = some r → m.sem r = 1) ∧
      ∀ t, m.sched.runningThread ≠ some t → m.sem t = 0

/-- The first machine comes to the second by steps of one pthread, and none of them takes the post
of another thread that waits for it. -/
inductive Machine.Behind (p : Pthread) : Machine → Machine → Prop where
  | refl (m : Machine) : Behind p m m
  | step {m m₁ m' : Machine} : m.resume p = some m₁ →
      (∀ v, Pthread.task v ≠ p → m.code (.task v) = some [.semWait v] → 0 < m.sem v → 0 < m₁.sem v) →
      Behind p m₁ m' → Behind p m m'

theorem Machine.Behind.settles {p : Pthread} {m m' : Machine} (h : Machine.Behind p m m')
    (hquiet : m'.resume p = none) : Machine.Settles p m m' := by
  induction h with
  | refl m => exact .stop hquiet
  | step hstep _ _ ih => exact .step hstep (ih hquiet)

namespace Balanced

variable {m : Machine} {p : Pthread} {op : Op} {ret : Ret} {s' : Scheduler} {r t : ThreadPtr}

theorem call_some {segment : Segment} (hcode : m.code p = some [])
    (henter : m.sched.enter p op = some (ret, segment)) :
    m.call p op = some (ret, (m.spawn ret).execute p segment
      (if op = .ret then none else some segment.rest)) := by
  rw [Machine.call, hcode, henter]

/-- A call that gives the CPU away ends: the caller blocks, unless it was itself served again. -/
theorem handOver_settles (h : Balanced m) (op : Op) (hr : m.sched.runningThread = some r)
    (hcode : m.code (.task r) = some []) (hsucc : Successor m.sched ret s') :
    ∃ m', Machine.Behind (.task r) (m.handOver ret (.task r) s' (some [.semWait r])) m' ∧
      m'.resume (.task r) = none ∧ Balanced m' ∧ CallEnds (.task r) op m' := by
  have hbal := h.handOver_task hr hcode hsucc
  have hown : (m.handOver ret (.task r) s' (some [.semWait r])).code (.task r) = some [.semWait r] :=
    Machine.execute_code_self _ _ _ _
  by_cases hself : s'.runningThread = some r
  · obtain ⟨m', hresume, hsched, hcode', hbal'⟩ := hbal.wake hself hown
    have hcpu : m'.sched.runningThread = some r := by
      rw [hsched]
      exact hself
    refine ⟨m', .step hresume (fun v hv _ hpos => ?_) (.refl m'), Machine.resume_done (Or.inl hcode'),
      hbal', Or.inl ⟨r, rfl, hcpu, hcode', fun t => ?_⟩⟩
    · have hne : v ≠ r := fun heq => hv (congrArg Pthread.task heq)
      have hzero := hbal.zero v (ne_running hself hne)
      omega
    · by_cases ht : t = r
      · subst t
        rcases hbal'.on r hcpu with ⟨-, hsem⟩ | ⟨hwait, -⟩
        · exact hsem
        · cases hcode'.symm.trans hwait
      · exact hbal'.zero t (ne_running hcpu ht)
  · have hzero := hbal.zero r hself
    refine ⟨_, .refl _, Machine.resume_blocked hown hzero, hbal,
      Or.inr ⟨Or.inr ⟨r, rfl, Or.inl ⟨hown, hzero⟩⟩, fun f hf => ?_, hbal.zero⟩⟩
    rw [handOver_sem (h.spawn_zero (quiet hr hcode) ret)]
    exact if_pos hf

/-- A preempting `so_fork` goes on to the same end as a call that gives the CPU to the new thread. -/
theorem window_behind (h : Balanced m) (hr : m.sched.runningThread = some r)
    (hcode : m.code (.task r) = some []) {segment : Segment} (hwindow : Window r t segment s')
    {m' : Machine}
    (hbehind : Machine.Behind (.task r) (m.handOver ret (.task r) s' (some [.semWait r])) m') :
    Machine.Behind (.task r) ((m.spawn ret).execute (.task r) segment (some segment.rest)) m' := by
  have hzero := h.spawn_zero (quiet hr hcode) ret
  have hrest : segment.rest = [.schedule r, .semWait r] := congrArg Segment.rest hwindow.segment_eq
  have hposts : ∀ v, segment.posts v = if s'.runningThread = some v then 1 else 0 := by
    intro v
    rw [hwindow.running', Segment.posts, congrArg Segment.post hwindow.segment_eq]
  set w := (m.spawn ret).execute (.task r) segment (some segment.rest) with hw
  have hsem : ∀ v, w.sem v = if s'.runningThread = some v then 1 else 0 := by
    intro v
    rw [hw, Machine.execute_sem, hzero, hposts, Nat.zero_add]
  have hstep : w.code (.task r) = some [.schedule r, .semWait r] := by
    rw [hw, Machine.execute_code_self, hrest]
  have hresume := Machine.resume_schedule hstep
  have hgrows : ∀ segment' code v, 0 < w.sem v → 0 < (w.execute (.task r) segment' code).sem v := by
    intro segment' code v hpos
    rw [Machine.execute_sem]
    omega
  have hsched : w.sched = segment.sched := rfl
  rw [hsched] at hresume
  rcases hwindow.rest with heq | heq <;> rw [heq] at hresume
  · have hend : w.execute (.task r) ⟨s', none, []⟩ (some ([] ++ [.semWait r])) =
        m.handOver ret (.task r) s' (some [.semWait r]) := by
      ext v : 2
      · rfl
      · rw [Machine.execute_sem, hsem, handOver_sem hzero]
        rfl
      · exact congrFun (Function.update_idem _ _ _) v
    rw [hend] at hresume
    exact .step hresume (fun v _ _ hpos => hend ▸ hgrows _ _ v hpos) hbehind
  · -- The new thread was posted twice; the caller takes one post back.
    set w₁ := w.execute (.task r) ⟨s', some t, [.semWait t]⟩ (some ([.semWait t] ++ [.semWait r]))
      with hw₁
    have hsem₁ : ∀ v, w₁.sem v = if s'.runningThread = some v then 2 else 0 := by
      intro v
      rw [hw₁, Machine.execute_sem, hsem, hwindow.running', Segment.posts]
      split_ifs <;> rfl
    have htwo : w₁.sem t = 2 := by
      rw [hsem₁, hwindow.running']
      exact if_pos rfl
    have hstep₁ : w₁.code (.task r) = some (.semWait t :: [.semWait r]) :=
      Machine.execute_code_self _ _ _ _
    have hresume₁ := Machine.resume_wait hstep₁ (by omega)
    have hend : { w₁ with
          sem := Function.update w₁.sem t (w₁.sem t - 1)
          code := Function.update w₁.code (.task r) (some [.semWait r]) : Machine } =
        m.handOver ret (.task r) s' (some [.semWait r]) := by
      ext v : 2
      · rfl
      · change Function.update w₁.sem t (w₁.sem t - 1) v = _
        rw [handOver_sem hzero, hwindow.running']
        by_cases hv : v = t
        · subst v
          rw [Function.update_self, htwo]
          exact (if_pos rfl).symm
        · have htv : some t ≠ some v := fun heq => hv (Option.some.inj heq).symm
          rw [Function.update_of_ne hv, hsem₁, hwindow.running', if_neg htv, if_neg htv]
      · change Function.update (Function.update w.code _ _) _ _ v = _
        rw [Function.update_idem]
        exact congrFun (Function.update_idem _ _ _) v
    rw [hend] at hresume₁
    refine .step hresume (fun v _ _ hpos => hgrows _ _ v hpos) (.step hresume₁ (fun v _ _ hpos => ?_)
      hbehind)
    rw [handOver_sem hzero]
    rw [hsem₁] at hpos
    split_ifs at hpos ⊢ <;> omega

/-- A call of a running task from a balanced state. -/
theorem call_task (h : Balanced m) (hr : m.sched.runningThread = some r)
    (hcode : m.code (.task r) = some []) (op : Op) :
    ∃ ret m₁ m', m.call (.task r) op = some (ret, m₁) ∧ Machine.Behind (.task r) m₁ m' ∧
      m'.resume (.task r) = none ∧ Balanced m' ∧ CallEnds (.task r) op m' := by
  by_cases hop : op = .ret
  · subst op
    obtain ⟨s', hseg, hinv, hlive⟩ := h.inv.enter_ret hr
    have hcall := call_some hcode (show m.sched.enter (.task r) .ret =
      some (.unit, (m.sched.threadTaskSegment r).2) from rfl)
    have hbal := h.handOver_ret hr hcode hinv hlive
    have hgone : (m.handOver .unit (.task r) s' none).code (.task r) = none :=
      Machine.execute_code_self _ _ _ _
    rw [if_pos rfl, hseg] at hcall
    refine ⟨_, _, _, hcall, .refl _, Machine.resume_done (Or.inr hgone), hbal,
      Or.inr ⟨Or.inr ⟨r, rfl, Or.inr ⟨rfl, hgone⟩⟩, fun f hf => ?_, hbal.zero⟩⟩
    change s'.runningThread = some f at hf
    refine (handOver_sem (h.spawn_zero (quiet hr hcode) .unit) f).trans ?_
    exact if_pos hf
  · obtain ⟨⟨ret, segment⟩, henter⟩ : ∃ start, m.sched.enter (.task r) op = some start := by
      cases op <;> exact ⟨_, rfl⟩
    have hcall := call_some hcode henter
    rw [if_neg hop] at hcall
    obtain ⟨s', hstarts, hsucc⟩ := h.inv.enter_starts hr henter hop
    refine ⟨ret, (m.spawn ret).execute (.task r) segment (some segment.rest), ?_⟩
    cases hstarts with
    | keeps hkeep =>
        have hbal := h.keep_task hr hcode hsucc hkeep
        have hown : ((m.spawn ret).execute (.task r) ⟨s', none, []⟩ (some [])).code (.task r) =
            some [] := Machine.execute_code_self _ _ _ _
        exact ⟨_, hcall, .refl _, Machine.resume_done (Or.inl hown), hbal,
          Or.inl ⟨r, rfl, hkeep, hown, h.spawn_zero (quiet hr hcode) ret⟩⟩
    | gives f hf =>
        obtain ⟨m', hbehind, hquiet, hbal, hends⟩ :=
          h.handOver_settles op hr hcode hsucc
        refine ⟨m', hcall, ?_, hquiet, hbal, hends⟩
        rw [Machine.handOver, hf] at hbehind
        exact hbehind
    | preempted t segment hret hwindow =>
        obtain ⟨m', hbehind, hquiet, hbal, hends⟩ :=
          h.handOver_settles op hr hcode hsucc
        exact ⟨m', hcall, h.window_behind hr hcode hwindow hbehind, hquiet, hbal, hends⟩

/-- A `so_fork` of the main program while nothing runs. -/
theorem call_main (h : Balanced m) (hidle : m.sched.runningThread = none)
    (func : Option HandlerPtr) (priority : UInt32) :
    ∃ ret m', m.call .main (.fork func priority) = some (ret, m') ∧ m'.resume .main = none ∧
      Balanced m' ∧ CallEnds .main (.fork func priority) m' := by
  have henter : m.sched.enter .main (.fork func priority) =
      some (m.sched.soForkSegment func priority) := rfl
  obtain ⟨s', hseg, hsucc⟩ := h.inv.enter_main hidle henter
  have hcall := call_some h.main henter
  have hbal := h.handOver_main hidle hsucc
  have hzero : ∀ t, (m.spawn (m.sched.soForkSegment func priority).1).sem t = 0 :=
    h.spawn_zero (fun r hr => by rw [hidle] at hr; cases hr) _
  rw [hseg] at hcall
  refine ⟨_, _, hcall, Machine.resume_done (Or.inl hbal.main), hbal,
    Or.inr ⟨Or.inl ⟨rfl, hbal.main⟩, fun f hf => ?_, hbal.zero⟩⟩
  change s'.runningThread = some f at hf
  exact (handOver_sem hzero f).trans (if_pos hf)

/-- Only the running thread can go on, with the post it was given. -/
theorem act_resume (h : Balanced m) {m' : Machine} (hresume : m.resume p = some m') :
    ∃ r, p = .task r ∧ m.sched.runningThread = some r ∧ m.code (.task r) = some [.semWait r] ∧
      m'.resume p = none ∧ Balanced m' := by
  cases p with
  | main => cases (Machine.resume_done (Or.inl h.main)).symm.trans hresume
  | task u =>
      by_cases hr : m.sched.runningThread = some u
      · rcases h.on u hr with ⟨hcode, -⟩ | ⟨hcode, -⟩
        · cases (Machine.resume_done (Or.inl hcode)).symm.trans hresume
        · obtain ⟨m'', hresume', -, hcode', hbal⟩ := h.wake hr hcode
          obtain rfl := Option.some.inj (hresume'.symm.trans hresume)
          exact ⟨u, rfl, hr, hcode, Machine.resume_done (Or.inl hcode'), hbal⟩
      · have hnone : m.resume (.task u) = none := by
          by_cases hq : u ∈ m.sched.q
          · exact Machine.resume_blocked (h.off u hq) (h.zero u hr)
          · exact Machine.resume_done (Or.inr (h.gone u fun hl => hl.elim hq hr))
        cases hnone.symm.trans hresume

/-- Every step of a run of undivided calls keeps the balance. -/
theorem step (h : Balanced m) {a : Action} {m' : Machine} (hstep : Undivided m a m') :
    Balanced m' := by
  obtain ⟨hright, m₁, hact, hsettles⟩ := hstep
  cases a with
  | call p op =>
      obtain ⟨⟨ret, m₂⟩, hcall, rfl⟩ := Option.map_eq_some_iff.mp hact
      rcases hright p op rfl with ⟨r, rfl, hr⟩ | ⟨rfl, hidle, func, priority, rfl⟩
      · obtain ⟨ret', m₃, m₄, hcall', hbehind, hquiet, hbal, -⟩ :=
          h.call_task hr (Machine.call_eq hcall).1 op
        obtain ⟨-, rfl⟩ := Prod.mk.inj (Option.some.inj (hcall'.symm.trans hcall))
        rw [hsettles.unique (hbehind.settles hquiet)]
        exact hbal
      · obtain ⟨ret', m₃, hcall', hquiet, hbal, -⟩ := h.call_main hidle func priority
        obtain ⟨-, rfl⟩ := Prod.mk.inj (Option.some.inj (hcall'.symm.trans hcall))
        rw [hsettles.unique (.stop hquiet)]
        exact hbal
  | resume p =>
      obtain ⟨r, -, -, -, hquiet, hbal⟩ := h.act_resume hact
      rw [hsettles.unique (.stop hquiet)]
      exact hbal

theorem boot (timeQuantum io : UInt32) (hinv : Inv (Scheduler.start timeQuantum io)) :
    Balanced (Machine.boot (Scheduler.start timeQuantum io)) := by
  refine ⟨hinv, rfl, fun t _ => rfl, fun t ht => ?_, fun r hr => ?_, fun t _ => rfl⟩
  · cases ht
  · cases hr

end Balanced

/-- In every run of undivided calls, each call made by the running task's handler, or by the main
program while nothing runs, comes to an end, and all its ends are balanced. -/
theorem wake_up_balance {timeQuantum io : UInt32} {s₀ : Scheduler} {m : Machine} {as : List Action}
    (hinit : soInit none timeQuantum io = (0, some s₀))
    (hrun : Run Undivided (Machine.boot s₀) as m) {p : Pthread} {op : Op}
    (hright : Rightful m (.call p op)) (hcode : m.code p = some []) :
    (∃ m', Undivided m (.call p op) m') ∧ ∀ m', Undivided m (.call p op) m' → CallEnds p op m' := by
  obtain ⟨-, -, rfl⟩ := soInit_eq hinit
  have h : Balanced m := hrun.invariant (fun _ _ _ hm hstep => hm.step hstep)
    (.boot timeQuantum io (inv_soInit hinit))
  obtain ⟨m', hundivided, hends⟩ : ∃ m', Undivided m (.call p op) m' ∧ CallEnds p op m' := by
    rcases hright p op rfl with ⟨r, rfl, hr⟩ | ⟨rfl, hidle, func, priority, rfl⟩
    · obtain ⟨ret, m₁, m', hcall, hbehind, hquiet, -, hends⟩ := h.call_task hr hcode op
      exact ⟨m', ⟨hright, m₁, congrArg (Option.map Prod.snd) hcall, hbehind.settles hquiet⟩, hends⟩
    · obtain ⟨ret, m', hcall, hquiet, -, hends⟩ := h.call_main hidle func priority
      exact ⟨m', ⟨hright, m', congrArg (Option.map Prod.snd) hcall, .stop hquiet⟩, hends⟩
  refine ⟨⟨m', hundivided⟩, fun m'' hm'' => ?_⟩
  obtain ⟨-, m₁, hact, hsettles⟩ := hundivided
  obtain ⟨-, m₂, hact', hsettles'⟩ := hm''
  obtain rfl := Option.some.inj (hact.symm.trans hact')
  rw [hsettles'.unique hsettles]
  exact hends

/-! A preempting `so_fork` with a quantum of one: the new thread is posted twice, and the caller takes
one post back. -/

def quantumOneForked : Machine :=
  ((Machine.boot (Scheduler.start 1 1)).act (.call .main (.fork (some 1) 1))).get (by decide +kernel)

def quantumOneStarted : Machine := (quantumOneForked.act (.resume (.task 0))).get (by decide +kernel)

def quantumOneWindow : Machine :=
  (quantumOneStarted.act (.call (.task 0) (.fork (some 2) 2))).get (by decide +kernel)

def quantumOneExpired : Machine := (quantumOneWindow.resume (.task 0)).get (by decide +kernel)

def quantumOneEnd : Machine := (quantumOneExpired.resume (.task 0)).get (by decide +kernel)

theorem run_quantumOne : Run Undivided (Machine.boot (Scheduler.start 1 1))
    [.call .main (.fork (some 1) 1), .resume (.task 0)] quantumOneStarted := by
  refine .cons ⟨fun p op heq => ?_, quantumOneForked, (Option.some_get _).symm, .stop ?_⟩
    (.single ⟨nofun, quantumOneStarted, (Option.some_get _).symm, .stop ?_⟩)
  · obtain ⟨rfl, rfl⟩ := Action.call.inj heq
    exact Or.inr ⟨rfl, rfl, _, _, rfl⟩
  · exact Option.isNone_iff_eq_none.mp (by decide +kernel)
  · exact Option.isNone_iff_eq_none.mp (by decide +kernel)

theorem rightful_quantumOne : Rightful quantumOneStarted (.call (.task 0) (.fork (some 2) 2)) := by
  intro p op heq
  obtain ⟨rfl, rfl⟩ := Action.call.inj heq
  exact Or.inl ⟨0, rfl, by decide +kernel⟩

theorem undivided_quantumOne :
    Undivided quantumOneStarted (.call (.task 0) (.fork (some 2) 2)) quantumOneEnd := by
  refine ⟨rightful_quantumOne, quantumOneWindow, (Option.some_get _).symm, .step
    (Option.some_get _).symm (.step (Option.some_get _).symm (.stop ?_))⟩
  exact Option.isNone_iff_eq_none.mp (by decide +kernel)

theorem wake_up_balance_quantumOne : CallEnds (.task 0) (.fork (some 2) 2) quantumOneEnd :=
  (@wake_up_balance 1 1 _ _ _ rfl run_quantumOne _ _ rightful_quantumOne (by decide +kernel)).2
    quantumOneEnd undivided_quantumOne

end OsHomeworks.ThreadScheduler
