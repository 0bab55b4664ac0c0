import OsHomeworks.SchedulerInvariant

/-! What one call can do from a state between two calls, branch by branch, and that it ends in such
a state again. -/

namespace OsHomeworks.ThreadScheduler

open StableQueue Runs Scheduler

variable {s : Scheduler} {r t : ThreadPtr}

theorem Core.settle_dispatch {f : ThreadPtr} (h : Core s none) (hidle : s.runningThread = none)
    (hf : s.front = some f) : Inv (s.dispatch f) := by
  have hcore : Core (s.dispatch f) none := by simpa [hidle] using h.dispatch hf (Or.inl hidle)
  refine ⟨hcore, ⟨?_, ?_⟩⟩
  · intro r hr u hu hw
    obtain rfl : f = r := Option.some.inj hr
    obtain ⟨hu, hne⟩ := (h.mem_dispatch_q hf).mp hu
    rw [notWaiting_dispatch_of_ne hne] at hw
    rw [dispatch_prio]
    exact h.le_front hf hu hw
  · intro hnone
    cases hnone

theorem Core.settle_none (h : Core s none) (hidle : s.runningThread = none)
    (hf : s.front = none) : Inv s := by
  refine ⟨h, ⟨fun r hr => ?_, fun _ _ hu => front_none hf hu⟩⟩
  rw [hidle] at hr
  cases hr

theorem scheduleThread_idle (hidle : s.runningThread = none) {f : ThreadPtr}
    (hf : (s.requeue t).front = some f) :
    s.scheduleThread t = ((s.requeue t).dispatch f, [.post f]) := by
  rw [scheduleThread_eq, hf, checkPreempt_idle ((requeue_runningThread s t).trans hidle)]

/-- The caller's thread is put back and the queue is served. -/
theorem Core.reschedule (h : Core s (some t)) (hidle : s.runningThread = none) {f : ThreadPtr}
    (hf : (s.requeue t).front = some f) : Inv ((s.requeue t).dispatch f) :=
  h.requeue.settle_dispatch ((requeue_runningThread s t).trans hidle) hf

theorem charge_timeQuantum (h : Core s none) (hr : s.runningThread = some r) :
    ((s.charge r).thread r).timeQuantum.toNat = (s.thread r).timeQuantum.toNat - 1 := by
  obtain ⟨hmem, -, hstate⟩ := h.running r hr
  have hpos := ((h.sound r hmem).quantum (by simp [hstate])).1
  have hone : (1 : UInt32).toNat = 1 := rfl
  unfold charge
  rw [modify_thread, if_pos rfl]
  exact UInt32.toNat_sub_of_le _ _ (UInt32.le_iff_toNat_le.mpr (by omega))

theorem notWaiting_charge : (s.charge r).notWaiting = s.notWaiting := by
  funext u
  unfold notWaiting charge
  rw [modify_thread]
  split_ifs <;> rfl

theorem charge_prio : (s.charge r).prio = s.prio := modify_prio _ _ _ fun _ => rfl

/-- The running thread keeps the CPU for another unit. -/
theorem Inv.charge (h : Inv s) (hr : s.runningThread = some r)
    (hleft : ((s.charge r).thread r).timeQuantum ≠ 0) : Inv (s.charge r) := by
  obtain ⟨hmem, hq, hstate⟩ := h.running r hr
  have hs := h.sound r hmem
  have hquantum := charge_timeQuantum h.toCore hr
  have hbound := hs.quantum (by simp [hstate])
  have hsound : Sound s.timeQuantum s.io
      { s.thread r with timeQuantum := (s.thread r).timeQuantum - 1 } := by
    refine ⟨hs.event, fun _ => ?_, hs.priority⟩
    have hne : ((s.charge r).thread r).timeQuantum.toNat ≠ 0 :=
      fun h0 => hleft (UInt32.toNat_inj.mp h0)
    unfold Scheduler.charge at hquantum hne
    rw [modify_thread, if_pos rfl] at hquantum hne
    dsimp only at hquantum hne ⊢
    omega
  refine ⟨h.toCore.modify hq rfl (fun _ => hstate) (fun hd => by cases hd) (fun hd => hd) hsound,
    ⟨?_, ?_⟩⟩
  · intro r' hr' u hu hw
    rw [notWaiting_charge] at hw
    rw [charge_prio]
    exact h.top r' hr' u hu hw
  · intro hnone
    rw [charge_runningThread, hr] at hnone
    cases hnone

/-- The end of a quantum leaves the thread, with a new one, in the hands of the caller. -/
theorem Core.expire (h : Core s none) (hr : s.runningThread = some r) :
    Core ((s.charge r).expire r) (some r) := by
  obtain ⟨hmem, hq, hstate⟩ := h.running r hr
  have hs := h.sound r hmem
  have hevent : (s.thread r).event = noEvent := by
    rcases hs.event with he | he
    · rw [hstate] at he
      cases he.1
    · exact he.2
  rw [expire_charge]
  refine (h.detach hr).modify hq rfl (fun hrun => by cases hrun) (fun _ => by simp)
    (fun hdead => ?_) ⟨Or.inr ⟨by simp, hevent⟩, fun _ => ⟨h.quantum_pos, le_rfl⟩, hs.priority⟩
  change (s.thread r).state = .terminated at hdead
  rw [hstate] at hdead
  cases hdead

theorem notWaiting_expire : ((s.charge r).expire r).notWaiting r = true := by
  rw [expire_charge, notWaiting_iff, modify_thread, if_pos rfl]
  simp

/-- The branches of `so_exec` for a running thread: it keeps the CPU, or its quantum is over and
the front of the queue, with the thread put back, gets the CPU. -/
theorem soExec_cases (hr : s.runningThread = some r) :
    ((s.charge r).thread r).timeQuantum ≠ 0 ∧ s.soExec = (s.charge r, []) ∨
      ∃ f, ((s.charge r).thread r).timeQuantum = 0 ∧
        (((s.charge r).expire r).requeue r).front = some f ∧
        s.soExec = ((((s.charge r).expire r).requeue r).dispatch f, [.post f, .wait r]) := by
  by_cases hleft : ((s.charge r).thread r).timeQuantum = 0
  · obtain ⟨f, hf⟩ := exists_front_requeue (notWaiting_expire (s := s) (r := r))
    refine Or.inr ⟨f, hleft, hf, ?_⟩
    rw [soExec_expire hr hleft, scheduleThread_idle rfl hf]
    rfl
  · exact Or.inl ⟨hleft, soExec_charge hr hleft⟩

theorem Inv.soExec (h : Inv s) (hr : s.runningThread = some r) :
    Inv s.soExec.1 ∧ ∃ r', s.soExec.1.runningThread = some r' := by
  rcases soExec_cases hr with ⟨hleft, heq⟩ | ⟨f, -, hf, heq⟩
  · rw [heq]
    exact ⟨h.charge hr hleft, r, hr⟩
  · rw [heq]
    exact ⟨(h.toCore.expire hr).reschedule rfl hf, f, rfl⟩

/-- With a ready thread that arrives there is a front: the thread itself, or a ready one of the
queue. -/
theorem exists_front_arrival (hw : s.notWaiting t = true) :
    ∃ f, (s.requeue t).front = some f ∧ s.notWaiting f = true ∧ (f = t ∨ f ∈ s.q) := by
  obtain ⟨f, hf⟩ := exists_front_requeue hw
  have hfw := front_notWaiting hf
  rw [notWaiting_requeue] at hfw
  exact ⟨f, hf, hfw, mem_requeue_q.mp (front_mem hf)⟩

/-- A thread that arrives while the CPU is idle gets it. -/
theorem Settled.arrive_idle (hset : Settled s) (hw : s.notWaiting t = true)
    (hrun : s.runningThread = none) :
    (s.requeue t).front = some t ∧
      s.scheduleThread t = ((s.requeue t).dispatch t, [.post t]) := by
  obtain ⟨f, hf, hfw, hmem⟩ := exists_front_arrival hw
  have hft : f = t := by
    rcases hmem with heq | hq
    · exact heq
    · rw [hset.idle hrun f hq] at hfw
      cases hfw
  subst f
  exact ⟨hf, scheduleThread_idle hrun hf⟩

/-- A thread that arrives beside a running one of at least its priority is queued, and the running
thread is charged. -/
theorem Core.arrive_behind (h : Core s (some t)) (hset : Settled s) (hw : s.notWaiting t = true)
    (hrun : s.runningThread = some r) (hle : s.prio t ≤ s.prio r) :
    Inv (s.requeue t) ∧ s.scheduleThread t = (s.requeue t).soExec := by
  have hrun' : (s.requeue t).runningThread = some r := (requeue_runningThread s t).trans hrun
  obtain ⟨f, hf, hfw, -⟩ := exists_front_arrival hw
  have hall : ∀ u ∈ (s.requeue t).q, s.notWaiting u = true → s.prio u ≤ s.prio r := by
    intro u hu huw
    rcases mem_requeue_q.mp hu with rfl | hu
    · exact hle
    · exact hset.top r hrun u hu huw
  refine ⟨⟨h.requeue, ⟨fun r' hr' u hu huw => ?_, fun hnone => ?_⟩⟩, ?_⟩
  · obtain rfl : r = r' := Option.some.inj (hrun'.symm.trans hr')
    rw [notWaiting_requeue] at huw
    rw [requeue_prio]
    exact hall u hu huw
  · rw [hrun'] at hnone
    cases hnone
  · have hfle : (s.requeue t).prio f ≤ (s.requeue t).prio r := by
      rw [requeue_prio]
      exact hall f (front_mem hf) hfw
    rw [scheduleThread_eq, hf, checkPreempt_exec hrun' hfle]

/-- A thread that arrives beside a running one of smaller priority preempts it, and is charged while
the other one is put back. -/
theorem Core.arrive_preempts (h : Core s (some t)) (hset : Settled s) (hw : s.notWaiting t = true)
    (hrun : s.runningThread = some r) (hlt : s.prio r < s.prio t) :
    (s.requeue t).front = some t ∧ Inv (((s.requeue t).dispatch t).requeue r) ∧
      s.scheduleThread t = ((((s.requeue t).dispatch t).requeue r).soExec.1,
        .post t :: (((s.requeue t).dispatch t).requeue r).soExec.2 ++ [.wait r]) := by
  have hreq := h.requeue
  have hrun' : (s.requeue t).runningThread = some r := (requeue_runningThread s t).trans hrun
  obtain ⟨f, hf, hfw, hmem⟩ := exists_front_arrival hw
  have hft : f = t := by
    rcases hmem with heq | hq
    · exact heq
    · have h1 := hset.top r hrun f hq hfw
      have h2 := hreq.le_front hf (mem_requeue_q.mpr (Or.inl rfl))
        (by rw [notWaiting_requeue, hw])
      rw [requeue_prio] at h2
      omega
  subst f
  have hdis : Core ((s.requeue t).dispatch t) (some r) := by
    have := hreq.dispatch hf (Or.inr rfl)
    rwa [hrun', Option.some_or] at this
  have hrw : ((s.requeue t).dispatch t).notWaiting r = true := by
    have hne : r ≠ t := fun heq => by subst r; omega
    rw [notWaiting_dispatch_of_ne hne, notWaiting_requeue]
    exact h.not_waiting_of_running hrun
  have hall : ∀ u ∈ (((s.requeue t).dispatch t).requeue r).q,
      (((s.requeue t).dispatch t).requeue r).notWaiting u = true → s.prio u ≤ s.prio r := by
    intro u hu huw
    rcases mem_requeue_q.mp hu with rfl | hu
    · exact le_rfl
    · obtain ⟨hu, hne⟩ := (hreq.mem_dispatch_q hf).mp hu
      rw [notWaiting_requeue, notWaiting_dispatch_of_ne hne, notWaiting_requeue] at huw
      exact hset.top r hrun u ((mem_requeue_q.mp hu).resolve_left hne) huw
  refine ⟨hf, ⟨hdis.requeue, ⟨fun r' hr' u hu huw => ?_, fun hnone => ?_⟩⟩, ?_⟩
  · obtain rfl : t = r' := Option.some.inj ((requeue_runningThread _ _).symm.trans hr')
    have := hall u hu huw
    simp only [requeue_prio, dispatch_prio]
    omega
  · rw [requeue_runningThread] at hnone
    cases hnone
  · obtain ⟨g, hg⟩ := exists_front_requeue hrw
    have hgle : (((s.requeue t).dispatch t).requeue r).prio g ≤
        (((s.requeue t).dispatch t).requeue r).prio t := by
      have := hall g (front_mem hg) (front_notWaiting hg)
      simp only [requeue_prio, dispatch_prio]
      omega
    have hlt' : (s.requeue t).prio r < (s.requeue t).prio t := by
      rw [requeue_prio]
      exact hlt
    rw [scheduleThread_eq, hf, checkPreempt_preempt hrun' hlt', scheduleThread_eq, hg,
      checkPreempt_exec (requeue_runningThread _ _) hgle]

/-- The branches of `schedule_thread` for a thread that has just arrived: the CPU was idle, or the
running thread is charged, or it is preempted and the new thread is charged. -/
theorem Core.arrive_cases (h : Core s (some t)) (hset : Settled s) (hw : s.notWaiting t = true) :
    s.runningThread = none ∧ (s.requeue t).front = some t ∧
        s.scheduleThread t = ((s.requeue t).dispatch t, [.post t]) ∨
      (∃ r, s.runningThread = some r ∧ s.prio t ≤ s.prio r ∧ Inv (s.requeue t) ∧
        s.scheduleThread t = (s.requeue t).soExec) ∨
      ∃ r, s.runningThread = some r ∧ s.prio r < s.prio t ∧ (s.requeue t).front = some t ∧
        Inv (((s.requeue t).dispatch t).requeue r) ∧
        s.scheduleThread t = ((((s.requeue t).dispatch t).requeue r).soExec.1,
          .post t :: (((s.requeue t).dispatch t).requeue r).soExec.2 ++ [.wait r]) := by
  cases hrun : s.runningThread with
  | none => exact Or.inl ⟨rfl, hset.arrive_idle hw hrun⟩
  | some r =>
      rcases le_or_gt (s.prio t) (s.prio r) with hle | hlt
      · exact Or.inr (Or.inl ⟨r, rfl, hle, h.arrive_behind hset hw hrun hle⟩)
      · exact Or.inr (Or.inr ⟨r, rfl, hlt, h.arrive_preempts hset hw hrun hlt⟩)

theorem Core.arrive (h : Core s (some t)) (hset : Settled s) (hw : s.notWaiting t = true) :
    Inv (s.scheduleThread t).1 ∧ ∃ r', (s.scheduleThread t).1.runningThread = some r' := by
  rcases h.arrive_cases hset hw with ⟨hrun, hf, heq⟩ | ⟨r, hrun, -, hinv, heq⟩ |
    ⟨r, hrun, -, -, hinv, heq⟩
  · rw [heq]
    exact ⟨h.reschedule hrun hf, t, rfl⟩
  · rw [heq]
    exact hinv.soExec ((requeue_runningThread s t).trans hrun)
  · rw [heq]
    exact hinv.soExec (requeue_runningThread _ _)

theorem notWaiting_forked (s : Scheduler) (func : HandlerPtr) (priority : UInt32) :
    (s.forked func priority).notWaiting s.threads.length = true := by
  rw [notWaiting_iff, forked_thread, if_pos rfl]
  simp

theorem Inv.forked (h : Inv s) (func : HandlerPtr) (priority : UInt32) :
    Settled (s.forked func priority) := by
  have hsame : ∀ u ∈ s.threads, (s.forked func priority).thread u = s.thread u :=
    fun u hu => h.forked_thread_of_mem hu func priority
  refine ⟨fun r hr u hu hw => ?_, fun hnone u hu => ?_⟩
  · have hur := hsame u (h.queued u hu).1
    have hrr := hsame r (h.running r hr).1
    unfold notWaiting at hw
    unfold prio
    rw [hur] at hw ⊢
    rw [hrr]
    exact h.top r hr u hu hw
  · have hur := hsame u (h.queued u hu).1
    unfold notWaiting
    rw [hur]
    exact h.idle hnone u hu

/-- A call of `so_fork` is rejected, or a new thread arrives. -/
theorem soFork_cases (s : Scheduler) (func : Option HandlerPtr) (priority : UInt32) :
    s.soFork func priority = ⟨.tid none, s, []⟩ ∨
      ∃ func', func = some func' ∧ ¬priority > soMaxPrio ∧
        s.soFork func priority = ⟨.tid (some s.threads.length),
          ((s.forked func' priority).scheduleThread s.threads.length).1,
          ((s.forked func' priority).scheduleThread s.threads.length).2⟩ := by
  cases func with
  | none => exact Or.inl rfl
  | some func' =>
      by_cases hp : priority > soMaxPrio
      · exact Or.inl (if_pos hp)
      · exact Or.inr ⟨func', rfl, hp, if_neg hp⟩

theorem Core.block (h : Core s none) (hr : s.runningThread = some r) {io : UInt32}
    (hio : io < s.io) : Core (s.block r io) (some r) := by
  obtain ⟨hmem, hq, hstate⟩ := h.running r hr
  have hs := h.sound r hmem
  have hsound : Sound s.timeQuantum s.io { s.thread r with state := .waiting, event := io } :=
    ⟨Or.inl ⟨rfl, hio⟩, fun _ => hs.quantum (by simp [hstate]), hs.priority⟩
  refine (h.detach hr).modify (f := fun record => { record with state := .waiting, event := io })
    hq rfl (fun hrun => by cases hrun) (fun _ => by simp) (fun hdead => ?_) hsound
  change (s.thread r).state = .terminated at hdead
  rw [hstate] at hdead
  cases hdead

theorem notWaiting_block_of_ne {io : UInt32} {u : ThreadPtr} (h : u ≠ r) :
    (s.block r io).notWaiting u = s.notWaiting u := by
  have hthread : (s.block r io).thread u = s.thread u := by
    refine (modify_thread s r (fun record => { record with state := .waiting, event := io }) u).trans ?_
    rw [if_neg h]
  unfold notWaiting
  rw [hthread]

/-- A call of `so_wait` fails, or the running thread waits and another one gets the CPU. -/
theorem soWait_cases (h : Core s none) (io : UInt32) :
    s.soWait io = ⟨.int (-1), s, []⟩ ∨
      ∃ r f, s.runningThread = some r ∧ io < s.io ∧
        ((s.block r io).requeue r).front = some f ∧
        s.soWait io = ⟨.int 0, ((s.block r io).requeue r).dispatch f, [.post f, .wait r]⟩ := by
  unfold soWait
  cases hrun : s.runningThread with
  | none => exact Or.inl rfl
  | some r =>
      dsimp only
      split_ifs with hfail
      · exact Or.inl rfl
      · push Not at hfail
        obtain ⟨hio, -, hfront⟩ := hfail
        have hlt : io < s.io := UInt32.not_le.mp hio
        obtain ⟨g, hg⟩ := Option.ne_none_iff_exists'.mp hfront
        have hne : g ≠ r := fun heq => (h.running r hrun).2.1 (heq ▸ front_mem hg)
        have hgq : g ∈ s.q := front_mem hg
        obtain ⟨f, hf⟩ := exists_front (s := (s.block r io).requeue r) (t := g)
          (mem_requeue_q.mpr (Or.inr hgq))
          (by rw [notWaiting_requeue, notWaiting_block_of_ne hne, front_notWaiting hg])
        refine Or.inr ⟨r, f, rfl, hlt, hf, ?_⟩
        rw [scheduleThread_idle rfl hf]
        rfl

theorem notWaiting_woken {io : UInt32} {u : ThreadPtr} (h : s.notWaiting u = true) :
    (s.woken io).notWaiting u = true := by
  rw [notWaiting_iff] at h ⊢
  unfold Scheduler.woken
  dsimp only
  split_ifs
  · simp
  · exact h

/-- A call of `so_signal` fails, or the waiters are made ready, the caller is put back and the
queue is served. -/
theorem soSignal_cases (h : Core s none) (io : UInt32) :
    s.soSignal io = ⟨.int (-1), s, []⟩ ∨
      ∃ r f, s.runningThread = some r ∧ io < s.io ∧
        ({ s.woken io with runningThread := none }.requeue r).front = some f ∧
        s.soSignal io = ⟨.int (s.q.countP fun t => (s.thread t).event = io),
          ({ s.woken io with runningThread := none }.requeue r).dispatch f,
          [.post f, .wait r]⟩ := by
  unfold soSignal
  rw [wakeAll_eq h.nodup]
  cases hrun : s.runningThread with
  | none => exact Or.inl rfl
  | some r =>
      dsimp only
      split_ifs with hfail
      · exact Or.inl rfl
      · have hw : { s.woken io with runningThread := none }.notWaiting r = true :=
          notWaiting_woken (h.not_waiting_of_running hrun)
        obtain ⟨f, hf⟩ := exists_front_requeue hw
        refine Or.inr ⟨r, f, rfl, UInt32.not_le.mp hfail, hf, ?_⟩
        rw [scheduleThread_idle rfl hf]
        rfl

/-- The scheduler after the handler of `r` has returned, before the queue is served. -/
def Scheduler.ended (s : Scheduler) (r : ThreadPtr) : Scheduler :=
  { s.modify r fun record => { record with state := .terminated } with runningThread := none }

theorem Core.ended (h : Core s none) (hr : s.runningThread = some r) : Core (s.ended r) none :=
  (h.detach hr).terminate (h.not_waiting_of_running hr)

/-- The end of a handler: the queue is served, or nothing is left to run. -/
theorem threadTask_cases (s : Scheduler) (r : ThreadPtr) :
    (s.ended r).front = none ∧ s.threadTask r = ⟨.unit, s.ended r, []⟩ ∨
      ∃ f, (s.ended r).front = some f ∧
        s.threadTask r = ⟨.unit, (s.ended r).dispatch f, [.post f]⟩ := by
  have heq : s.threadTask r = ⟨.unit, ((s.ended r).checkPreempt (s.ended r).front).1,
      ((s.ended r).checkPreempt (s.ended r).front).2⟩ := rfl
  rw [heq]
  cases hf : (s.ended r).front with
  | none =>
      rw [checkPreempt_none]
      exact Or.inl ⟨rfl, rfl⟩
  | some f =>
      rw [checkPreempt_idle rfl]
      exact Or.inr ⟨f, rfl, rfl⟩

end OsHomeworks.ThreadScheduler
