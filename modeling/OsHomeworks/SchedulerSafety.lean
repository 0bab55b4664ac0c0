import OsHomeworks.SchedulerCalls

/-! Every transition of the scheduler keeps the invariant, so after every finite sequence of
transitions the running thread is the best choice and no thread is lost or duplicated. -/

namespace OsHomeworks.ThreadScheduler

open StableQueue Runs Scheduler

/-- What no transition changes: the parameters of the scheduler and the priorities of the threads it
already has. -/
structure Frame (s s' : Scheduler) : Prop where
  timeQuantum : s'.timeQuantum = s.timeQuantum
  io : s'.io = s.io
  prio : ∀ u ∈ s.threads, s'.prio u = s.prio u

namespace Frame

variable {s s' s'' : Scheduler}

theorem refl (s : Scheduler) : Frame s s := ⟨rfl, rfl, fun _ _ => rfl⟩

theorem of_prio (hquantum : s'.timeQuantum = s.timeQuantum) (hio : s'.io = s.io)
    (hprio : s'.prio = s.prio) : Frame s s' := ⟨hquantum, hio, fun u _ => congrFun hprio u⟩

theorem trans (h : Frame s s') (h' : Frame s' s'') (hthreads : ∀ u ∈ s.threads, u ∈ s'.threads) :
    Frame s s'' :=
  ⟨h'.timeQuantum.trans h.timeQuantum, h'.io.trans h.io,
    fun u hu => (h'.prio u (hthreads u hu)).trans (h.prio u hu)⟩

end Frame

variable {s : Scheduler} {r t : ThreadPtr}

theorem expire_prio : ((s.charge r).expire r).prio = s.prio := by
  rw [expire_charge]
  exact modify_prio _ _ _ fun _ => rfl

theorem woken_prio (io : UInt32) : (s.woken io).prio = s.prio := by
  funext u
  unfold Scheduler.prio Scheduler.woken
  dsimp only
  split_ifs <;> rfl

theorem block_prio (io : UInt32) : (s.block r io).prio = s.prio :=
  modify_prio s r (fun record => { record with state := .waiting, event := io }) fun _ => rfl

theorem ended_prio : (s.ended r).prio = s.prio :=
  modify_prio s r (fun record => { record with state := .terminated }) fun _ => rfl

theorem soExec_frame (hr : s.runningThread = some r) :
    s.soExec.1.threads = s.threads ∧ Frame s s.soExec.1 := by
  rcases soExec_cases hr with ⟨-, heq⟩ | ⟨f, -, -, heq⟩ <;> rw [heq]
  · exact ⟨rfl, .of_prio rfl rfl charge_prio⟩
  · simp only [dispatch_threads, requeue_threads]
    exact ⟨rfl, .of_prio (by simp; rfl) (by simp; rfl) (by simp [expire_prio])⟩

theorem forked_frame (h : Inv s) (func : HandlerPtr) (priority : UInt32) :
    Frame s (s.forked func priority) := by
  refine ⟨rfl, rfl, fun u hu => ?_⟩
  unfold Scheduler.prio
  rw [h.forked_thread_of_mem hu]

theorem Core.arrive_frame (h : Core s (some t)) (hset : Settled s) (hw : s.notWaiting t = true) :
    (s.scheduleThread t).1.threads = s.threads ∧ Frame s (s.scheduleThread t).1 := by
  rcases h.arrive_cases hset hw with ⟨-, -, heq⟩ | ⟨r, hrun, -, -, heq⟩ | ⟨r, hrun, -, -, -, heq⟩ <;>
    rw [heq]
  · exact ⟨by simp, .of_prio (by simp) (by simp) (by simp)⟩
  · obtain ⟨hthreads, hframe⟩ := soExec_frame ((requeue_runningThread s t).trans hrun)
    have hstart : Frame s (s.requeue t) := .of_prio (by simp) (by simp) (by simp)
    exact ⟨hthreads.trans (requeue_threads s t), hstart.trans hframe fun u hu => by simpa using hu⟩
  · obtain ⟨hthreads, hframe⟩ :=
      soExec_frame (s := ((s.requeue t).dispatch t).requeue r) (requeue_runningThread _ _)
    have hstart : Frame s (((s.requeue t).dispatch t).requeue r) :=
      .of_prio (by simp) (by simp) (by simp)
    exact ⟨hthreads.trans (by simp), hstart.trans hframe fun u hu => by simpa using hu⟩

/-- The thread a transition created, if it is a successful `so_fork`. -/
def Outcome.forked (o : Outcome) : Option ThreadPtr :=
  match o.ret with
  | .tid t => t
  | _ => none

/-- What one transition from a state between two calls guarantees. -/
structure Kept (s : Scheduler) (o : Outcome) : Prop where
  inv : Inv o.next
  threads : o.next.threads = s.threads ++ o.forked.toList
  fresh : ∀ t, o.forked = some t → t = s.threads.length
  frame : Frame s o.next

theorem Kept.of_failed (h : Inv s) {ret : Ret} (hret : (Outcome.mk ret s []).forked = none) :
    Kept s ⟨ret, s, []⟩ := by
  refine ⟨h, by simp [hret], fun t ht => ?_, .refl s⟩
  rw [hret] at ht
  cases ht

theorem Inv.soFork (h : Inv s) (func : Option HandlerPtr) (priority : UInt32) :
    Kept s (s.soFork func priority) ∧ ((s.soFork func priority).forked ≠ none →
      (s.soFork func priority).next.runningThread ≠ none) := by
  rcases soFork_cases s func priority with heq | ⟨func', -, hp, heq⟩ <;> rw [heq]
  · exact ⟨.of_failed h rfl, fun hne => absurd rfl hne⟩
  · have hcore := h.toCore.fork func' hp
    have hset := h.forked func' priority
    have hw := notWaiting_forked s func' priority
    obtain ⟨hinv, r', hr'⟩ := hcore.arrive hset hw
    change ((s.forked func' priority).scheduleThread s.threads.length).1.runningThread = _ at hr'
    obtain ⟨hthreads, hframe⟩ := hcore.arrive_frame hset hw
    refine ⟨⟨hinv, hthreads, fun t ht => (Option.some.inj ht).symm, ?_⟩, fun _ => ?_⟩
    · exact (forked_frame h func' priority).trans hframe fun u hu => List.mem_append_left _ hu
    · dsimp only
      rw [hr']
      simp

theorem Inv.soWait (h : Inv s) (io : UInt32) :
    Kept s (s.soWait io) ∧ (s.runningThread ≠ none → (s.soWait io).next.runningThread ≠ none) := by
  rcases soWait_cases h.toCore io with heq | ⟨r, f, hr, hio, hf, heq⟩ <;> rw [heq]
  · exact ⟨.of_failed h rfl, id⟩
  · refine ⟨⟨(h.toCore.block hr hio).reschedule rfl hf, ?_, fun t ht => (by cases ht), ?_⟩, by simp⟩
    · rw [dispatch_threads, requeue_threads]
      exact (List.append_nil _).symm
    · refine .of_prio ?_ ?_ ?_
      · rw [dispatch_timeQuantum, requeue_timeQuantum]
        rfl
      · rw [dispatch_io, requeue_io]
        rfl
      · rw [dispatch_prio, requeue_prio, block_prio]

theorem Inv.soSignal (h : Inv s) (io : UInt32) :
    Kept s (s.soSignal io) ∧
      (s.runningThread ≠ none → (s.soSignal io).next.runningThread ≠ none) := by
  rcases soSignal_cases h.toCore io with heq | ⟨r, f, hr, hio, hf, heq⟩ <;> rw [heq]
  · exact ⟨.of_failed h rfl, id⟩
  · have hcore := (h.toCore.woken io).detach hr
    refine ⟨⟨hcore.reschedule rfl hf, ?_, fun t ht => (by cases ht), ?_⟩, by simp⟩
    · rw [dispatch_threads, requeue_threads]
      exact (List.append_nil _).symm
    · refine .of_prio ?_ ?_ ?_
      · rw [dispatch_timeQuantum, requeue_timeQuantum]
        rfl
      · rw [dispatch_io, requeue_io]
        rfl
      · rw [dispatch_prio, requeue_prio]
        exact woken_prio io

theorem Inv.soExec_kept (h : Inv s) :
    Kept s ⟨.unit, s.soExec.1, s.soExec.2⟩ ∧
      (s.runningThread ≠ none → s.soExec.1.runningThread ≠ none) := by
  cases hrun : s.runningThread with
  | none =>
      rw [soExec_idle hrun]
      exact ⟨.of_failed h rfl, fun hne => absurd rfl hne⟩
  | some r =>
      obtain ⟨hinv, r', hr'⟩ := h.soExec hrun
      obtain ⟨hthreads, hframe⟩ := soExec_frame hrun
      refine ⟨⟨hinv, ?_, fun t ht => (by cases ht), hframe⟩, fun _ => ?_⟩
      · exact hthreads.trans (List.append_nil _).symm
      · rw [hr']
        simp

theorem Inv.threadTask (h : Inv s) (hr : s.runningThread = some r) : Kept s (s.threadTask r) := by
  have hcore := h.toCore.ended hr
  rcases threadTask_cases s r with ⟨hf, heq⟩ | ⟨f, hf, heq⟩ <;> rw [heq]
  · exact ⟨hcore.settle_none rfl hf, (List.append_nil _).symm, fun t ht => (by cases ht),
      .of_prio rfl rfl ended_prio⟩
  · refine ⟨hcore.settle_dispatch rfl hf, (List.append_nil _).symm, fun t ht => (by cases ht),
      .of_prio rfl rfl ?_⟩
    rw [dispatch_prio, ended_prio]

theorem Inv.call (h : Inv s) {op : Op} {o : Outcome} (hcall : s.call op = some o) : Kept s o := by
  cases op with
  | fork func priority =>
      obtain rfl := Option.some.inj hcall
      exact (h.soFork func priority).1
  | wait io =>
      obtain rfl := Option.some.inj hcall
      exact (h.soWait io).1
  | signal io =>
      obtain rfl := Option.some.inj hcall
      exact (h.soSignal io).1
  | exec =>
      obtain rfl := Option.some.inj hcall
      exact h.soExec_kept.1
  | ret =>
      obtain ⟨r, hr, rfl⟩ := Option.map_eq_some_iff.mp hcall
      exact h.threadTask hr

theorem Inv.step (h : Inv s) {label : Op × Outcome} {s' : Scheduler} (hstep : Step s label s') :
    Inv s' := hstep.2 ▸ (h.call hstep.1).inv

/-- A successful `so_init` has checked its parameters. -/
theorem soInit_eq {timeQuantum io : UInt32} {s₀ : Scheduler}
    (hinit : soInit none timeQuantum io = (0, some s₀)) :
    timeQuantum > 0 ∧ io ≤ soMaxNumEvents ∧ s₀ = Scheduler.start timeQuantum io := by
  unfold soInit at hinit
  split_ifs at hinit with hok
  · obtain ⟨-, hinit⟩ := Prod.mk.inj hinit
    exact ⟨hok.1, hok.2.1, (Option.some.inj hinit).symm⟩
  · simp at hinit

theorem inv_soInit {timeQuantum io : UInt32} {s₀ : Scheduler}
    (hinit : soInit none timeQuantum io = (0, some s₀)) : Inv s₀ := by
  obtain ⟨hquantum, hevents, rfl⟩ := soInit_eq hinit
  have hpos : 0 < timeQuantum.toNat := UInt32.lt_iff_toNat_lt.mp hquantum
  have hio : io.toNat ≤ 256 := UInt32.le_iff_toNat_le.mp hevents
  refine ⟨⟨hpos, hio, rfl, List.nodup_nil, List.Pairwise.nil, ?_, ?_, ?_, ?_, ?_⟩, ⟨?_, ?_⟩⟩ <;>
    simp [Scheduler.start]

theorem threads_soInit {timeQuantum io : UInt32} {s₀ : Scheduler}
    (hinit : soInit none timeQuantum io = (0, some s₀)) : s₀.threads = [] := by
  rw [(soInit_eq hinit).2.2]
  rfl

theorem Inv.run (h : Inv s) {history : List (Op × Outcome)} {s' : Scheduler}
    (hrun : Run Step s history s') : Inv s' :=
  hrun.invariant (fun _ _ _ hinv hstep => hinv.step hstep) h

/-- The threads forked in a history, in order. -/
def forkedIn (history : List (Op × Outcome)) : List ThreadPtr :=
  history.filterMap fun label => label.2.forked

theorem Inv.run_threads (h : Inv s) {history : List (Op × Outcome)} {s' : Scheduler}
    (hrun : Run Step s history s') : s'.threads = s.threads ++ forkedIn history := by
  induction hrun with
  | nil s => exact (List.append_nil _).symm
  | @cons s₁ s₂ s₃ label history hstep hrest ih =>
      obtain ⟨hcall, rfl⟩ := hstep
      have hkept := h.call hcall
      rw [ih hkept.inv, hkept.threads, List.append_assoc]
      cases hforked : label.2.forked <;> simp [forkedIn, hforked]

/-- After every finite sequence of transitions no ready thread has a priority above the running
one's, only waiting threads are left when nothing runs, and no call made while a thread runs, nor a
successful `so_fork`, leaves the CPU idle. -/
theorem scheduling_choice {timeQuantum io : UInt32} {s₀ s : Scheduler}
    {history : List (Op × Outcome)} (hinit : soInit none timeQuantum io = (0, some s₀))
    (hrun : Run Step s₀ history s) :
    (∀ r, s.runningThread = some r → ∀ t ∈ s.q, (s.thread t).state ≠ .waiting →
      ¬s.prio r < s.prio t) ∧
    (s.runningThread = none → ∀ t ∈ s.q, (s.thread t).state = .waiting) ∧
    (∀ op o, s.call op = some o → op ≠ .ret →
      s.runningThread ≠ none ∧ (∀ func priority, op ≠ .fork func priority) ∨ o.forked ≠ none →
      o.next.runningThread ≠ none) := by
  have h := (inv_soInit hinit).run hrun
  refine ⟨fun r hr t ht hw => not_lt.mpr (h.top r hr t ht (notWaiting_iff.mpr hw)),
    fun hnone t ht => ?_, ?_⟩
  · have hw := h.idle hnone t ht
    by_contra hne
    rw [notWaiting_iff.mpr hne] at hw
    cases hw
  · intro op o hcall hret hcond
    cases op with
    | fork func priority =>
        obtain rfl := Option.some.inj hcall
        rcases hcond with ⟨-, hne⟩ | hne
        · exact absurd rfl (hne func priority)
        · exact (h.soFork func priority).2 hne
    | wait io =>
        obtain rfl := Option.some.inj hcall
        have hforked : (s.soWait io).forked = none := by
          rcases soWait_cases h.toCore io with heq | ⟨_, _, _, _, _, heq⟩ <;> rw [heq] <;> rfl
        exact (h.soWait io).2 (hcond.resolve_right fun hne => hne hforked).1
    | signal io =>
        obtain rfl := Option.some.inj hcall
        have hforked : (s.soSignal io).forked = none := by
          rcases soSignal_cases h.toCore io with heq | ⟨_, _, _, _, _, heq⟩ <;> rw [heq] <;> rfl
        exact (h.soSignal io).2 (hcond.resolve_right fun hne => hne hforked).1
    | exec =>
        obtain rfl := Option.some.inj hcall
        exact h.soExec_kept.2 (hcond.resolve_right fun hne => hne rfl).1
    | ret => exact absurd rfl hret

theorem soInit_two_one : soInit none 2 1 = (0, some (Scheduler.start 2 1)) := rfl

/-- The main program forks a thread of priority 3. -/
def forkedOnce : Scheduler := ((Scheduler.start 2 1).soFork (some 7) 3).next

/-- The running thread forks one of priority 2 behind it. -/
def forkedTwice : Scheduler := (forkedOnce.soFork (some 7) 2).next

def forkedThrice : Scheduler := (forkedTwice.soFork (some 7) 1).next

/-- The first thread waits for the device: the second runs and the third is ready. -/
def firstWaits : Scheduler := (forkedThrice.soWait 0).next

def firstWaitsHistory : List (Op × Outcome) :=
  [(.fork (some 7) 3, (Scheduler.start 2 1).soFork (some 7) 3),
    (.fork (some 7) 2, forkedOnce.soFork (some 7) 2),
    (.fork (some 7) 1, forkedTwice.soFork (some 7) 1), (.wait 0, forkedThrice.soWait 0)]

theorem run_firstWaits : Run Step (Scheduler.start 2 1) firstWaitsHistory firstWaits :=
  .cons ⟨rfl, rfl⟩ (.cons ⟨rfl, rfl⟩ (.cons ⟨rfl, rfl⟩ (.single ⟨rfl, rfl⟩)))

/-- The waiting thread is above the running one, the ready one is not. -/
theorem scheduling_choice_firstWaits :
    firstWaits.runningThread = some 1 ∧ firstWaits.q = [0, 2] ∧ firstWaits.prio 1 < firstWaits.prio 0 ∧
      ¬firstWaits.prio 1 < firstWaits.prio 2 ∧ (firstWaits.soSignal 0).next.runningThread ≠ none := by
  have hrunning : firstWaits.runningThread = some 1 := by decide +kernel
  have hq : firstWaits.q = [0, 2] := by decide +kernel
  have hthird : 2 ∈ firstWaits.q ∧ (firstWaits.thread 2).state ≠ .waiting := by decide +kernel
  obtain ⟨hchoice, -, hbusy⟩ := scheduling_choice soInit_two_one run_firstWaits
  refine ⟨hrunning, hq, by decide +kernel, hchoice 1 hrunning 2 hthird.1 hthird.2, ?_⟩
  refine hbusy (.signal 0) _ rfl (by simp) (Or.inl ⟨?_, by simp⟩)
  rw [hrunning]
  simp

/-- Where a forked thread can be. -/
inductive Place where
  | onCpu
  | queued
  | ended
  deriving DecidableEq

/-- A thread is in a place, with the state that belongs there. -/
def Place.Holds (s : Scheduler) (t : ThreadPtr) : Place → Prop
  | .onCpu => s.runningThread = some t ∧ (s.thread t).state = .running ∧ t ∉ s.q
  | .queued => s.q.count t = 1 ∧ s.runningThread ≠ some t ∧
      ((s.thread t).state = .ready ∨ (s.thread t).state = .waiting)
  | .ended => (s.thread t).state = .terminated ∧ s.runningThread ≠ some t ∧ t ∉ s.q

theorem Place.Holds.unique {p p' : Place} (h : p.Holds s t) (h' : p'.Holds s t) : p = p' := by
  cases p <;> cases p' <;> simp_all [Place.Holds]

theorem Inv.exists_place (h : Inv s) (ht : t ∈ s.threads) : ∃ p : Place, p.Holds s t := by
  by_cases hrun : s.runningThread = some t
  · obtain ⟨-, hq, hstate⟩ := h.running t hrun
    exact ⟨.onCpu, hrun, hstate, hq⟩
  by_cases hq : t ∈ s.q
  · exact ⟨.queued, List.count_eq_one_of_mem h.nodup hq, hrun, (h.queued t hq).2⟩
  · rcases h.placed t ht with hp | hp | hp | hp
    · exact absurd hp hq
    · exact absurd hp hrun
    · cases hp
    · exact ⟨.ended, hp, hrun, hq⟩

/-- No device has the number of `noEvent`. -/
theorem Core.io_lt_noEvent {d : Option ThreadPtr} (h : Core s d) : ¬noEvent < s.io := by
  rw [UInt32.lt_iff_toNat_lt]
  have hio := h.io_le
  have hno : noEvent.toNat = 4294967295 := rfl
  omega

/-- After every finite sequence of transitions each thread ever forked is recorded once, has exactly
one place, waits exactly when its event is a device, and has time left as long as it lives. -/
theorem threads_accounted {timeQuantum io : UInt32} {s₀ s : Scheduler}
    {history : List (Op × Outcome)} (hinit : soInit none timeQuantum io = (0, some s₀))
    (hrun : Run Step s₀ history s) :
    s.threads = forkedIn history ∧ (∀ t ∈ s.q, t ∈ s.threads) ∧
    (∀ t, s.runningThread = some t → t ∈ s.threads) ∧
    ∀ t ∈ s.threads, s.threads.count t = 1 ∧ (∃! p : Place, p.Holds s t) ∧
      ((s.thread t).state = .waiting ↔ (s.thread t).event < s.io) ∧
      (¬(s.thread t).event < s.io → (s.thread t).event = noEvent) ∧
      ((s.thread t).state ≠ .terminated → 1 ≤ (s.thread t).timeQuantum.toNat ∧
        (s.thread t).timeQuantum.toNat ≤ s.timeQuantum.toNat) := by
  have h₀ := inv_soInit hinit
  have h := h₀.run hrun
  have hthreads := h₀.run_threads hrun
  rw [threads_soInit hinit, List.nil_append] at hthreads
  refine ⟨hthreads, fun t ht => (h.queued t ht).1, fun t ht => (h.running t ht).1, ?_⟩
  intro t ht
  have hs := h.sound t ht
  obtain ⟨p, hp⟩ := h.exists_place ht
  refine ⟨List.count_eq_one_of_mem h.threads_nodup ht, ⟨p, hp, fun p' hp' => hp'.unique hp⟩, ?_⟩
  rcases hs.event with ⟨hstate, hevent⟩ | ⟨hstate, hevent⟩
  · exact ⟨⟨fun _ => hevent, fun _ => hstate⟩, fun hne => absurd hevent hne, hs.quantum⟩
  · have hlt : ¬(s.thread t).event < s.io := hevent ▸ h.io_lt_noEvent
    exact ⟨⟨fun hw => absurd hw hstate, fun he => absurd he hlt⟩, fun _ => hevent, hs.quantum⟩

/-- The threads forked one after the other are recorded, the first waits in the queue and the second is
on the CPU. -/
theorem threads_accounted_firstWaits :
    firstWaits.threads = [0, 1, 2] ∧
      (Place.queued.Holds firstWaits 0 ∧ ∀ p : Place, p.Holds firstWaits 0 → p = .queued) ∧
      (firstWaits.thread 0).state = .waiting ∧ (firstWaits.thread 0).event = 0 ∧
      (Place.onCpu.Holds firstWaits 1 ∧ ∀ p : Place, p.Holds firstWaits 1 → p = .onCpu) := by
  obtain ⟨hthreads, -, -, hplaced⟩ := threads_accounted soInit_two_one run_firstWaits
  have hforked : forkedIn firstWaitsHistory = [0, 1, 2] := by decide +kernel
  rw [hforked] at hthreads
  have hmem : ∀ t ∈ [0, 1, 2], t ∈ firstWaits.threads := fun t ht => by rwa [hthreads]
  have hqueued : Place.queued.Holds firstWaits 0 := by
    refine ⟨?_, ?_, ?_⟩ <;> decide +kernel
  have hrunning : Place.onCpu.Holds firstWaits 1 := by
    refine ⟨?_, ?_, ?_⟩ <;> decide +kernel
  obtain ⟨-, hfirst, hwaits, -⟩ := hplaced 0 (hmem 0 (by simp))
  obtain ⟨-, hsecond, -⟩ := hplaced 1 (hmem 1 (by simp))
  refine ⟨hthreads, ⟨hqueued, fun p hp => hfirst.unique hp hqueued⟩, hwaits.mpr (by decide +kernel),
    by decide +kernel, hrunning, fun p hp => hsecond.unique hp hrunning⟩

end OsHomeworks.ThreadScheduler
