import OsHomeworks.SchedulerRoundRobin
import Mathlib.Data.Set.Card

/-! Events. The waiters for a device are found through the `event` fields alone; along every run the
threads whose field names a device are exactly those whose `so_wait` for it no successful `so_signal`
has followed. A waiter is never served, and a signal wakes all waiters of its device and no others. -/

namespace OsHomeworks.ThreadScheduler

open StableQueue Runs Scheduler

namespace Scheduler

def event (s : Scheduler) (t : ThreadPtr) : UInt32 := (s.thread t).event

theorem modify_event (s : Scheduler) (t : ThreadPtr) (f : Thread → Thread)
    (hf : ∀ record, (f record).event = record.event) : (s.modify t f).event = s.event := by
  funext u
  simp only [event, modify_thread]
  split_ifs
  · rw [hf]
  · rfl

@[simp] theorem dispatch_event (s : Scheduler) (t : ThreadPtr) : (s.dispatch t).event = s.event :=
  modify_event _ _ _ fun _ => rfl

@[simp] theorem requeue_event (s : Scheduler) (t : ThreadPtr) : (s.requeue t).event = s.event := by
  funext u
  unfold event
  rw [requeue_thread]
  split_ifs <;> rfl

@[simp] theorem charge_event (s : Scheduler) (r : ThreadPtr) : (s.charge r).event = s.event :=
  modify_event _ _ _ fun _ => rfl

@[simp] theorem expire_event (s : Scheduler) (r : ThreadPtr) : (s.expire r).event = s.event :=
  modify_event s r (fun record => { record with timeQuantum := s.timeQuantum, state := .ready })
    fun _ => rfl

theorem ended_event (s : Scheduler) (r : ThreadPtr) : (s.ended r).event = s.event :=
  modify_event s r (fun record => { record with state := .terminated }) fun _ => rfl

theorem block_event (s : Scheduler) (r : ThreadPtr) (io : UInt32) (t : ThreadPtr) :
    (s.block r io).event t = if t = r then io else s.event t := by
  have hthread : (s.block r io).thread t =
      if t = r then { s.thread t with state := .waiting, event := io } else s.thread t :=
    modify_thread s r (fun record => { record with state := .waiting, event := io }) t
  unfold event
  rw [hthread]
  split_ifs <;> rfl

theorem woken_event (s : Scheduler) (io : UInt32) (t : ThreadPtr) :
    (s.woken io).event t = if t ∈ s.q ∧ s.event t = io then noEvent else s.event t := by
  unfold event woken
  dsimp only
  split_ifs <;> rfl

theorem forked_event (s : Scheduler) (func : HandlerPtr) (priority : UInt32) (t : ThreadPtr) :
    (s.forked func priority).event t = if t = s.threads.length then noEvent else s.event t := by
  unfold event
  rw [forked_thread]
  split_ifs <;> rfl

end Scheduler

variable {s s' : Scheduler} {r t f : ThreadPtr} {io : UInt32}

/-- The `event` field of a thread names a device. -/
def Waits (s : Scheduler) (io : UInt32) (t : ThreadPtr) : Prop := t ∈ s.threads ∧ s.event t = io

theorem Core.ne_noEvent {d : Option ThreadPtr} (h : Core s d) (hio : io < s.io) : io ≠ noEvent :=
  fun heq => h.io_lt_noEvent (heq ▸ hio)

/-- A thread that does not wait names no device. -/
theorem Core.event_of_notWaiting {d : Option ThreadPtr} (h : Core s d) (ht : t ∈ s.threads)
    (hw : s.notWaiting t = true) : s.event t = noEvent := by
  rcases (h.sound t ht).event with ⟨hstate, -⟩ | ⟨-, hevent⟩
  · exact absurd hstate (notWaiting_iff.mp hw)
  · exact hevent

theorem Core.front_event {d : Option ThreadPtr} (h : Core s d) (hf : s.front = some f) :
    s.event f = noEvent :=
  h.event_of_notWaiting (h.queued f (front_mem hf)).1 (front_notWaiting hf)

/-- Between two calls the waiters for a device are waiting threads of the queue. -/
theorem Inv.waiter_queued (hinv : Inv s) (hio : io < s.io) (h : Waits s io t) :
    t ∈ s.q ∧ (s.thread t).state = .waiting := by
  obtain ⟨ht, hevent⟩ := h
  have hwait : (s.thread t).state = .waiting := by
    rcases (hinv.sound t ht).event with ⟨hstate, -⟩ | ⟨-, hnone⟩
    · exact hstate
    · exact absurd (hevent.symm.trans hnone) (hinv.toCore.ne_noEvent hio)
  refine ⟨?_, hwait⟩
  rcases hinv.placed t ht with hp | hp | hp | hp
  · exact hp
  · have hrunning := (hinv.running t hp).2.2
    rw [hwait] at hrunning
    cases hrunning
  · cases hp
  · rw [hwait] at hp
    cases hp

theorem soExec_event (s : Scheduler) : s.soExec.1.event = s.event := by
  cases hrun : s.runningThread with
  | none => rw [soExec_idle hrun]
  | some r =>
      rcases soExec_cases hrun with ⟨-, heq⟩ | ⟨f, -, -, heq⟩ <;> rw [heq]
      · exact charge_event s r
      · simp

theorem Core.arrive_event (h : Core s (some t)) (hset : Settled s) (hw : s.notWaiting t = true) :
    (s.scheduleThread t).1.event = s.event := by
  rcases h.arrive_cases hset hw with ⟨-, -, heq⟩ | ⟨r, -, -, -, heq⟩ | ⟨r, -, -, -, -, heq⟩ <;> rw [heq]
  · simp
  · simp [soExec_event]
  · simp [soExec_event]

/-- A successful `so_signal` or `so_wait` for a device. -/
def Signals (io : UInt32) (label : Op × Outcome) : Prop :=
  label.1 = .signal io ∧ label.2.ret ≠ .int (-1)

def Awaits (io : UInt32) (label : Op × Outcome) : Prop := label.1 = .wait io ∧ label.2.ret = .int 0

/-- A new thread waits for nothing. -/
theorem Inv.waits_soFork (hinv : Inv s) (func : Option HandlerPtr) (priority : UInt32)
    (hio : io < s.io) : Waits (s.soFork func priority).next io t ↔ Waits s io t := by
  have hthreads := (hinv.soFork func priority).1.threads
  have hne := hinv.toCore.ne_noEvent hio
  rcases soFork_cases s func priority with heq | ⟨func', -, hp, heq⟩
  · rw [heq]
  · have hevent : (s.soFork func priority).next.event t =
        if t = s.threads.length then noEvent else s.event t := by
      rw [heq, ← forked_event]
      exact congrFun ((hinv.toCore.fork func' hp).arrive_event (hinv.forked func' priority)
        (notWaiting_forked s func' priority)) t
    have hforked : (s.soFork func priority).forked = some s.threads.length := by
      rw [heq]
      rfl
    unfold Waits
    rw [hthreads, hforked, hevent, List.mem_append]
    constructor
    · rintro ⟨ht, hev⟩
      split_ifs at hev with hnew
      · exact absurd hev.symm hne
      · exact ⟨ht.resolve_right fun hmem => hnew (by simpa using hmem), hev⟩
    · rintro ⟨ht, hev⟩
      rw [if_neg (hinv.fresh ht)]
      exact ⟨Or.inl ht, hev⟩

/-- A successful `so_wait` adds its caller to the waiters for its device. -/
theorem Inv.waits_soWait (hinv : Inv s) (io' : UInt32) (hio : io < s.io) :
    Waits (s.soWait io').next io t ↔
      Awaits io (.wait io', s.soWait io') ∧ s.runningThread = some t ∨ Waits s io t := by
  have hne := hinv.toCore.ne_noEvent hio
  rcases soWait_cases hinv.toCore io' with heq | ⟨r, f, hr, hio', hf, heq⟩
  · have hother : ¬Awaits io (.wait io', s.soWait io') := by
      rintro ⟨-, hret⟩
      rw [heq] at hret
      cases hret
    simp only [hother, false_and, false_or]
    rw [heq]
  · have hrt := (hinv.running r hr).1
    have hrevent : s.event r = noEvent :=
      hinv.toCore.event_of_notWaiting hrt (hinv.toCore.not_waiting_of_running hr)
    have hok : Awaits io (.wait io', s.soWait io') ↔ io' = io := by
      unfold Awaits
      rw [heq]
      simp
    have hsame : (s.soWait io').next.threads = s.threads := by
      rw [heq]
      simp only [dispatch_threads, requeue_threads]
      rfl
    have hevent : (s.soWait io').next.event t = if t = r then io' else s.event t := by
      rw [heq, ← block_event]
      simp only [dispatch_event, requeue_event]
    unfold Waits
    rw [hok, hsame, hevent, hr]
    by_cases htr : t = r
    · subst t
      simp [hrt, hrevent, hne.symm]
    · simp [htr, Ne.symm htr]

/-- A successful `so_signal` removes all waiters for its device. -/
theorem Inv.waits_soSignal (hinv : Inv s) (io' : UInt32) (hio : io < s.io) :
    Waits (s.soSignal io').next io t ↔
      Waits s io t ∧ ¬Signals io (.signal io', s.soSignal io') := by
  have hne := hinv.toCore.ne_noEvent hio
  rcases soSignal_cases hinv.toCore io' with heq | ⟨r, f, hr, hio', hf, heq⟩
  · have hnosignal : ¬Signals io (.signal io', s.soSignal io') := by
      rintro ⟨-, hret⟩
      rw [heq] at hret
      exact hret rfl
    simp only [hnosignal, not_false_eq_true, and_true]
    rw [heq]
  · have hok : Signals io (.signal io', s.soSignal io') ↔ io' = io := by
      have hret : (Ret.int (s.q.countP fun t => (s.thread t).event = io')) ≠ .int (-1) := by
        intro h
        have := Ret.int.inj h
        omega
      unfold Signals
      rw [heq]
      simp only [Op.signal.injEq]
      exact ⟨fun h => h.1, fun h => ⟨h, hret⟩⟩
    have hsame : (s.soSignal io').next.threads = s.threads := by
      rw [heq]
      simp only [dispatch_threads, requeue_threads]
      rfl
    have hevent : (s.soSignal io').next.event t =
        if t ∈ s.q ∧ s.event t = io' then noEvent else s.event t := by
      rw [heq, ← woken_event]
      simp only [dispatch_event, requeue_event]
      rfl
    rw [hok]
    constructor
    · rintro ⟨ht, hev⟩
      rw [hsame] at ht
      rw [hevent] at hev
      split_ifs at hev with hwoken
      · exact absurd hev.symm hne
      · refine ⟨⟨ht, hev⟩, fun heq' => hwoken ⟨?_, hev.trans heq'.symm⟩⟩
        exact (hinv.waiter_queued hio ⟨ht, hev⟩).1
    · rintro ⟨⟨ht, hev⟩, hdiff⟩
      refine ⟨hsame.symm ▸ ht, ?_⟩
      rw [hevent, if_neg fun h => hdiff (h.2.symm.trans hev)]
      exact hev

theorem threadTask_event (s : Scheduler) (r : ThreadPtr) :
    (s.threadTask r).next.threads = s.threads ∧ (s.threadTask r).next.event = s.event := by
  rcases threadTask_cases s r with ⟨-, heq⟩ | ⟨f, -, heq⟩ <;> rw [heq]
  · exact ⟨rfl, ended_event s r⟩
  · exact ⟨rfl, (dispatch_event _ f).trans (ended_event s r)⟩

/-- A successful `so_wait` adds the running thread to the waiters for its device, a successful
`so_signal` removes all of them, and nothing else changes the waiters. -/
theorem Inv.waits_call (hinv : Inv s) {op : Op} {o : Outcome} (hcall : s.call op = some o)
    (hio : io < s.io) :
    Waits o.next io t ↔ Awaits io (op, o) ∧ s.runningThread = some t ∨
      Waits s io t ∧ ¬Signals io (op, o) := by
  cases op with
  | fork func priority =>
      obtain rfl := Option.some.inj hcall
      simp [Awaits, Signals, hinv.waits_soFork func priority hio]
  | wait io' =>
      obtain rfl := Option.some.inj hcall
      have hnosignal : ¬Signals io (.wait io', s.soWait io') := fun h => by cases h.1
      simp only [hnosignal, not_false_eq_true, and_true]
      exact hinv.waits_soWait io' hio
  | signal io' =>
      obtain rfl := Option.some.inj hcall
      have hother : ¬Awaits io (.signal io', s.soSignal io') := fun h => by cases h.1
      simp only [hother, false_and, false_or]
      exact hinv.waits_soSignal io' hio
  | exec =>
      obtain rfl := Option.some.inj hcall
      have hsame : s.soExec.1.threads = s.threads :=
        hinv.soExec_kept.1.threads.trans (List.append_nil _)
      simp [Awaits, Signals, Waits, hsame, soExec_event]
  | ret =>
      obtain ⟨r, hr, rfl⟩ := Option.map_eq_some_iff.mp hcall
      obtain ⟨hsame, hevent⟩ := threadTask_event s r
      simp [Awaits, Signals, Waits, hsame, hevent]

/-- A thread has a successful `so_wait` in the history that no successful `so_signal` for the device
follows. -/
def Unanswered (s : Scheduler) (history : List (Op × Outcome)) (io : UInt32) (t : ThreadPtr) : Prop :=
  ∃ before s₁ o after, history = before ++ (.wait io, o) :: after ∧ Run Step s before s₁ ∧
    s₁.runningThread = some t ∧ o.ret = .int 0 ∧ ∀ label ∈ after, ¬Signals io label

theorem unanswered_cons {label : Op × Outcome} {history : List (Op × Outcome)}
    (hstep : Step s label s') :
    Unanswered s (label :: history) io t ↔
      (Awaits io label ∧ s.runningThread = some t ∧ ∀ label ∈ history, ¬Signals io label) ∨
        Unanswered s' history io t := by
  constructor
  · rintro ⟨before, s₁, o, after, hsplit, hrun, hr, hret, hafter⟩
    cases hrun with
    | nil =>
        obtain ⟨rfl, rfl⟩ := List.cons.inj hsplit
        exact Or.inl ⟨⟨rfl, hret⟩, hr, hafter⟩
    | @cons _ s₂ _ label' before hstep' hrun =>
        obtain ⟨rfl, rfl⟩ := List.cons.inj hsplit
        obtain rfl : s' = s₂ := hstep.2.symm.trans hstep'.2
        exact Or.inr ⟨before, s₁, o, after, rfl, hrun, hr, hret, hafter⟩
  · rintro (⟨⟨hop, hret⟩, hr, hafter⟩ | ⟨before, s₁, o, after, rfl, hrun, hr, hret, hafter⟩)
    · obtain ⟨op, o⟩ := label
      obtain rfl : op = .wait io := hop
      exact ⟨[], s, o, history, rfl, .nil s, hr, hret, hafter⟩
    · exact ⟨label :: before, s₁, o, after, rfl, .cons hstep hrun, hr, hret, hafter⟩

/-- The waiters after a run: those of the history, and those from before that no signal has woken. -/
theorem Inv.waits_run (hinv : Inv s) {history : List (Op × Outcome)} (hrun : Run Step s history s')
    (hio : io < s.io) :
    Waits s' io t ↔ Unanswered s history io t ∨ Waits s io t ∧ ∀ label ∈ history, ¬Signals io label := by
  induction hrun with
  | nil s =>
      have hnone : ¬Unanswered s [] io t := by
        rintro ⟨before, _, o, after, hsplit, -⟩
        simp at hsplit
      simp [hnone]
  | @cons s s₁ s' label history hstep hrest ih =>
      obtain ⟨hcall, rfl⟩ := hstep
      have hkept := hinv.call hcall
      have hio' : io < label.2.next.io := by
        rw [hkept.frame.io]
        exact hio
      rw [ih hkept.inv hio', hinv.waits_call hcall hio, unanswered_cons ⟨hcall, rfl⟩]
      simp only [List.forall_mem_cons]
      tauto

theorem Inv.soExec_dispatched (hinv : Inv s) (hf : f ∈ dispatches s.soExec.2) :
    s.event f = noEvent := by
  cases hrun : s.runningThread with
  | none =>
      rw [soExec_idle hrun] at hf
      exact absurd hf List.not_mem_nil
  | some r =>
      rcases soExec_cases hrun with ⟨-, heq⟩ | ⟨g, -, hg, heq⟩
      · rw [heq] at hf
        exact absurd hf List.not_mem_nil
      · rw [heq] at hf
        obtain rfl : f = g := by simpa [dispatches] using hf
        simpa using (hinv.toCore.expire hrun).requeue.front_event hg

theorem Core.arrive_dispatched (h : Core s (some t)) (hset : Settled s)
    (hw : s.notWaiting t = true) (hf : f ∈ dispatches (s.scheduleThread t).2) :
    s.event f = noEvent := by
  have ht : s.event t = noEvent := h.event_of_notWaiting (h.apart t rfl).1 hw
  rcases h.arrive_cases hset hw with ⟨-, -, heq⟩ | ⟨r, -, -, hinv, heq⟩ | ⟨r, -, -, -, hinv, heq⟩ <;>
    rw [heq] at hf
  · obtain rfl : f = t := by simpa [dispatches] using hf
    exact ht
  · simpa using hinv.soExec_dispatched hf
  · have hcut : dispatches (.post t :: (((s.requeue t).dispatch t).requeue r).soExec.2 ++ [.wait r])
        = t :: dispatches (((s.requeue t).dispatch t).requeue r).soExec.2 := by
      rw [dispatches_append]
      simp [dispatches]
    rw [hcut] at hf
    rcases List.mem_cons.mp hf with rfl | hf
    · exact ht
    · simpa using hinv.soExec_dispatched hf

/-- What a call makes `running_thread` names no device after it. -/
theorem Inv.dispatched_event (hinv : Inv s) {op : Op} {o : Outcome} (hcall : s.call op = some o)
    (hf : f ∈ dispatches o.ops) : o.next.event f = noEvent := by
  cases op with
  | fork func priority =>
      obtain rfl := Option.some.inj hcall
      rcases soFork_cases s func priority with heq | ⟨func', -, hp, heq⟩
      · rw [heq] at hf
        exact absurd hf List.not_mem_nil
      · rw [heq] at hf ⊢
        have hcore := hinv.toCore.fork func' hp
        have hset := hinv.forked func' priority
        have hw := notWaiting_forked s func' priority
        have hsame : ((s.forked func' priority).scheduleThread s.threads.length).1.event f
            = (s.forked func' priority).event f := congrFun (hcore.arrive_event hset hw) f
        rw [hsame]
        exact hcore.arrive_dispatched hset hw hf
  | wait io =>
      obtain rfl := Option.some.inj hcall
      rcases soWait_cases hinv.toCore io with heq | ⟨r, g, hr, hio, hg, heq⟩ <;> rw [heq] at hf ⊢
      · exact absurd hf List.not_mem_nil
      · obtain rfl : f = g := by simpa [dispatches] using hf
        simpa using (hinv.toCore.block hr hio).requeue.front_event hg
  | signal io =>
      obtain rfl := Option.some.inj hcall
      rcases soSignal_cases hinv.toCore io with heq | ⟨r, g, hr, hio, hg, heq⟩ <;> rw [heq] at hf ⊢
      · exact absurd hf List.not_mem_nil
      · obtain rfl : f = g := by simpa [dispatches] using hf
        simpa using ((hinv.toCore.woken io).detach hr).requeue.front_event hg
  | exec =>
      obtain rfl := Option.some.inj hcall
      have hsame : s.soExec.1.event f = s.event f := congrFun (soExec_event s) f
      exact hsame.trans (hinv.soExec_dispatched hf)
  | ret =>
      obtain ⟨r, hr, rfl⟩ := Option.map_eq_some_iff.mp hcall
      rcases threadTask_cases s r with ⟨-, heq⟩ | ⟨g, hg, heq⟩ <;> rw [heq] at hf ⊢
      · exact absurd hf List.not_mem_nil
      · obtain rfl : f = g := by simpa [dispatches] using hf
        simpa using (hinv.toCore.ended hr).front_event hg

/-- A waiter whom no signal wakes is not dispatched. -/
theorem Inv.waiter_not_dispatched (hinv : Inv s) {op : Op} {o : Outcome}
    (hcall : s.call op = some o) (hio : io < s.io) (h : Waits o.next io t) :
    t ∉ dispatches o.ops := by
  intro hmem
  have hnone := hinv.dispatched_event hcall hmem
  exact hinv.toCore.ne_noEvent hio (h.2.symm.trans hnone)

theorem Inv.waiter_run (hinv : Inv s) {during : List (Op × Outcome)} (hrun : Run Step s during s')
    (hio : io < s.io) (h : Waits s io t) (hnone : ∀ label ∈ during, ¬Signals io label) :
    t ∉ dispatchedIn during ∧ Waits s' io t := by
  induction hrun with
  | nil s => exact ⟨List.not_mem_nil, h⟩
  | @cons s s₁ s' label during hstep hrest ih =>
      obtain ⟨hcall, rfl⟩ := hstep
      obtain ⟨hlabel, hnone⟩ := List.forall_mem_cons.mp hnone
      have hkept := hinv.call hcall
      have hio' : io < label.2.next.io := by
        rw [hkept.frame.io]
        exact hio
      have hstill : Waits label.2.next io t := (hinv.waits_call hcall hio).mpr (Or.inr ⟨h, hlabel⟩)
      obtain ⟨hrest, hend⟩ := ih hkept.inv hio' hstill hnone
      refine ⟨?_, hend⟩
      unfold dispatchedIn at hrest ⊢
      rw [List.flatMap_cons, List.mem_append]
      exact not_or.mpr ⟨hinv.waiter_not_dispatched hcall hio hstill, hrest⟩

/-! ### Delivery -/

/-- The number that `so_signal` counts in the cells of the queue. -/
theorem Inv.ncard_waits (hinv : Inv s) (hio : io < s.io) :
    {t | Waits s io t}.ncard = s.q.countP fun t => (s.thread t).event = io := by
  have hset : {t | Waits s io t} =
      ((s.q.filter fun t => (s.thread t).event = io).toFinset : Set ThreadPtr) := by
    ext t
    simp only [Set.mem_ofPred_eq, List.coe_toFinset, List.mem_filter, decide_eq_true_eq]
    exact ⟨fun h => ⟨(hinv.waiter_queued hio h).1, h.2⟩, fun h => ⟨(hinv.queued t h.1).1, h.2⟩⟩
  rw [hset, Set.ncard_coe_finset, List.toFinset_card_of_nodup (hinv.nodup.filter _),
    List.countP_eq_length_filter]

/-- A thread that waits names a device. -/
theorem Inv.event_lt_of_waiting (hinv : Inv s) (ht : t ∈ s.threads)
    (hw : (s.thread t).state = .waiting) : s.event t < s.io := by
  rcases (hinv.sound t ht).event with ⟨-, hlt⟩ | ⟨hne, -⟩
  · exact hlt
  · exact absurd hw hne

/-- Other waiters are left alone by a signal, in the queue and in their records. -/
theorem Inv.soSignal_others (hinv : Inv s) (io : UInt32) (ht : t ∈ s.threads)
    (hw : (s.thread t).state = .waiting) (hevent : (s.thread t).event ≠ io) :
    (s.soSignal io).next.thread t = s.thread t ∧ t ∈ (s.soSignal io).next.q := by
  have hq : t ∈ s.q := (hinv.waiter_queued (hinv.event_lt_of_waiting ht hw) ⟨ht, rfl⟩).1
  rcases soSignal_cases hinv.toCore io with heq | ⟨r, f, hr, -, hf, heq⟩ <;> rw [heq]
  · exact ⟨rfl, hq⟩
  · have hcore := (hinv.toCore.woken io).detach hr
    have hsame : (s.woken io).thread t = s.thread t := if_neg fun h => hevent h.2
    have htr : t ≠ r := fun h => (hinv.running r hr).2.1 (h ▸ hq)
    have htf : t ≠ f := by
      rintro rfl
      have hready := notWaiting_iff.mp (front_notWaiting hf)
      rw [requeue_thread_of_ne htr] at hready
      exact hready ((congrArg Thread.state hsame).trans hw)
    refine ⟨?_, (hcore.requeue.mem_dispatch_q hf).mpr ⟨mem_requeue_q.mpr (Or.inr hq), htf⟩⟩
    dsimp only
    rw [dispatch_thread, if_neg htf, requeue_thread_of_ne htr]
    exact hsame

/-- After a successful signal nobody who waited for the device still waits. -/
theorem Inv.soSignal_wakes (hinv : Inv s) (hok : (s.soSignal io).ret ≠ .int (-1))
    (hw : Waits s io t) :
    ((s.soSignal io).next.thread t).state ≠ .waiting := by
  have hcall : s.call (.signal io) = some (s.soSignal io) := rfl
  have hkept := hinv.call hcall
  intro hwait
  have ht : t ∈ (s.soSignal io).next.threads := by
    rw [hkept.threads]
    exact List.mem_append_left _ hw.1
  -- a thread that still waits names a device, and it named the same one before
  have hlt : (s.soSignal io).next.event t < s.io := by
    rw [← hkept.frame.io]
    exact hkept.inv.event_lt_of_waiting ht hwait
  rcases (hinv.waits_call hcall hlt).mp ⟨ht, rfl⟩ with ⟨hawaits, -⟩ | ⟨hbefore, hother⟩
  · cases hawaits.1
  · have hsame : (s.soSignal io).next.event t = io := hbefore.2.symm.trans hw.2
    rw [hsame] at hother
    exact hother ⟨rfl, hok⟩

/-- A task that waits for a device does not run before the device is signalled. -/
theorem Inv.wait_undisturbed (hinv : Inv s) {o : Outcome} (hr : s.runningThread = some t)
    (hcall : s.call (.wait io) = some o) (hok : o.ret = .int 0)
    {during : List (Op × Outcome)} (hrest : Run Step o.next during s')
    (hnone : ∀ label ∈ during, ¬Signals io label) :
    t ∉ dispatches o.ops ∧ t ∉ dispatchedIn during ∧ s'.runningThread ≠ some t := by
  have hkept := hinv.call hcall
  have hio : io < s.io := by
    obtain rfl := Option.some.inj hcall
    rcases soWait_cases hinv.toCore io with heq | ⟨r, f, -, hio, -, -⟩
    · rw [heq] at hok
      cases hok
    · exact hio
  have hio' : io < o.next.io := by
    rw [hkept.frame.io]
    exact hio
  have hio'' : io < s'.io := by
    rw [(hkept.inv.run_frame hrest).1.io]
    exact hio'
  have hw : Waits o.next io t := (hinv.waits_call hcall hio).mpr (Or.inl ⟨⟨rfl, hok⟩, hr⟩)
  obtain ⟨hnot, hend⟩ := hkept.inv.waiter_run hrest hio' hw hnone
  refine ⟨hinv.waiter_not_dispatched hcall hio hw, hnot, fun hr' => ?_⟩
  have hinv' := hkept.inv.run hrest
  exact (hinv'.running t hr').2.1 (hinv'.waiter_queued hio'' hend).1

/-- In every run `so_signal` returns the number of the threads whose `so_wait` for the device is
still unanswered, makes them all ready and leaves the other waiters alone; a thread that waits is
not made `running_thread` before a `so_signal` for its device. -/
theorem event_delivery {timeQuantum io₀ : UInt32} {s₀ s : Scheduler}
    {history : List (Op × Outcome)} (hinit : soInit none timeQuantum io₀ = (0, some s₀))
    (hrun : Run Step s₀ history s) :
    (∀ io o, s.call (.signal io) = some o → o.ret ≠ .int (-1) →
      o.ret = .int {t | Unanswered s₀ history io t}.ncard ∧
      (∀ t, Unanswered s₀ history io t → (o.next.thread t).state ≠ .waiting) ∧
      ∀ t ∈ s.threads, (s.thread t).state = .waiting → (s.thread t).event ≠ io →
        o.next.thread t = s.thread t ∧ t ∈ o.next.q) ∧
    ∀ io o t during s', s.runningThread = some t → s.call (.wait io) = some o → o.ret = .int 0 →
      Run Step o.next during s' → (∀ label ∈ during, ¬Signals io label) →
      t ∉ dispatches o.ops ∧ t ∉ dispatchedIn during ∧ s'.runningThread ≠ some t := by
  have h₀ := inv_soInit hinit
  have hinv := h₀.run hrun
  have hfresh : ∀ io t, ¬Waits s₀ io t := by
    intro io t h
    have ht := h.1
    rw [threads_soInit hinit] at ht
    exact List.not_mem_nil ht
  have hio₀ : s.io = s₀.io := (h₀.run_frame hrun).1.io
  have hwaiters : ∀ io t, io < s.io → (Waits s io t ↔ Unanswered s₀ history io t) := by
    intro io t hio
    rw [h₀.waits_run hrun (hio₀ ▸ hio)]
    exact or_iff_left fun h => hfresh io t h.1
  refine ⟨fun io o hcall hok => ?_, fun io o t during s' hr hcall hok hrest hnone =>
    hinv.wait_undisturbed hr hcall hok hrest hnone⟩
  obtain rfl := Option.some.inj hcall
  rcases soSignal_cases hinv.toCore io with heq | ⟨r, f, -, hio, -, heq⟩
  · rw [heq] at hok
    exact absurd rfl hok
  refine ⟨?_, fun t ht => hinv.soSignal_wakes hok ((hwaiters io t hio).mpr ht),
    fun t ht hw hevent => hinv.soSignal_others io ht hw hevent⟩
  have hset : {t | Unanswered s₀ history io t} = {t | Waits s io t} := by
    ext t
    exact (hwaiters io t hio).symm
  rw [hset, hinv.ncard_waits hio, heq]

/-- Two threads, of which the first waits for device 0. -/
def oneWaiter : Scheduler := ((oneRunning.soFork (some 7) 1).next.soWait 0).next

def oneWaiterHistory : List (Op × Outcome) :=
  [(.fork (some 7) 3, (Scheduler.start 2 1).soFork (some 7) 3),
    (.fork (some 7) 1, oneRunning.soFork (some 7) 1),
    (.wait 0, (oneRunning.soFork (some 7) 1).next.soWait 0)]

theorem run_oneWaiter : Run Step (Scheduler.start 2 1) oneWaiterHistory oneWaiter :=
  .cons ⟨rfl, rfl⟩ (.cons ⟨rfl, rfl⟩ (.single ⟨rfl, rfl⟩))

theorem event_delivery_oneWaiter :
    (oneWaiter.soSignal 0).ret = .int 1 ∧ (oneWaiter.soSignal 0).ret =
      .int {t | Unanswered (Scheduler.start 2 1) oneWaiterHistory 0 t}.ncard :=
  ⟨by decide +kernel, ((event_delivery soInit_two_one run_oneWaiter).1 0 (oneWaiter.soSignal 0) rfl
    (by decide +kernel)).1⟩

/-- A thread of the queue is ready after the wake-ups exactly if it was or waited for the device. -/
theorem notWaiting_woken_iff (ht : t ∈ s.q) :
    (s.woken io).notWaiting t = true ↔ (s.thread t).state ≠ .waiting ∨ (s.thread t).event = io := by
  rw [notWaiting_iff]
  unfold Scheduler.woken
  dsimp only
  split_ifs with hwoken
  · simp [hwoken.2]
  · have hne : (s.thread t).event ≠ io := fun heq => hwoken ⟨ht, heq⟩
    simp [hne]

/-- The caller keeps the CPU exactly where every thread that is ready after the wake-ups is below
it. -/
theorem Inv.signal_keeps (hinv : Inv s) (hr : s.runningThread = some r) (hio : io < s.io) :
    (s.soSignal io).next.runningThread = some r ↔
      ∀ t ∈ s.q, (s.woken io).notWaiting t = true → s.prio t < s.prio r := by
  have hcore := (hinv.toCore.woken io).detach hr
  have hw : { s.woken io with runningThread := none }.notWaiting r = true :=
    notWaiting_woken (hinv.toCore.not_waiting_of_running hr)
  have hself := front_requeue_self hcore hw
  have hprio : { s.woken io with runningThread := none }.prio = s.prio := woken_prio io
  rw [hprio] at hself
  rcases soSignal_cases hinv.toCore io with heq | ⟨r', f, hr', -, hf, heq⟩
  · unfold Scheduler.soSignal at heq
    rw [hr] at heq
    dsimp only at heq
    rw [if_neg (UInt32.not_le.mpr hio), wakeAll_eq hinv.nodup] at heq
    have hret := Ret.int.inj (congrArg Outcome.ret heq)
    dsimp only at hret
    omega
  · obtain rfl : r = r' := Option.some.inj (hr.symm.trans hr')
    rw [heq, dispatch_runningThread, ← hf]
    exact hself

/-- A task that signals keeps the CPU, or a thread above it is ready after the wake-ups, if and only
if no thread of its own priority is ready after them or a thread above it waited for the device. -/
theorem signal_preempts_higher_iff {timeQuantum io₀ : UInt32} {s₀ s : Scheduler}
    {history : List (Op × Outcome)} {r : ThreadPtr} {io : UInt32}
    (hinit : soInit none timeQuantum io₀ = (0, some s₀)) (hrun : Run Step s₀ history s)
    (hr : s.runningThread = some r) (hio : io < s.io) :
    ((s.soSignal io).next.runningThread = some r ∨
        ∃ t ∈ s.q, ((s.wakeAll io).2.thread t).state ≠ .waiting ∧ s.prio r < s.prio t) ↔
      (∀ t ∈ s.q, (s.thread t).state ≠ .waiting ∨ (s.thread t).event = io → s.prio t ≠ s.prio r) ∨
        ∃ t ∈ s.q, (s.thread t).event = io ∧ s.prio r < s.prio t := by
  have hinv := (inv_soInit hinit).run hrun
  have hready : ∀ t ∈ s.q, (((s.wakeAll io).2.thread t).state ≠ .waiting ↔
      (s.thread t).state ≠ .waiting ∨ (s.thread t).event = io) := by
    intro t ht
    rw [wakeAll_eq hinv.nodup, ← notWaiting_iff]
    exact notWaiting_woken_iff ht
  rw [hinv.signal_keeps hr hio]
  constructor
  · rintro (hbelow | ⟨t, ht, hw, hlt⟩)
    · refine Or.inl fun t ht hcond => (hbelow t ht ?_).ne
      exact (notWaiting_woken_iff ht).mpr hcond
    · refine Or.inr ⟨t, ht, ?_, hlt⟩
      rcases (hready t ht).mp hw with hstate | hevent
      · exact absurd (hinv.top r hr t ht (notWaiting_iff.mpr hstate)) (not_le.mpr hlt)
      · exact hevent
  · rintro (hdiff | ⟨t, ht, hevent, hlt⟩)
    · by_cases hhigher : ∃ t ∈ s.q, ((s.wakeAll io).2.thread t).state ≠ .waiting ∧
          s.prio r < s.prio t
      · exact Or.inr hhigher
      · push Not at hhigher
        refine Or.inl fun t ht hw => ?_
        have hcond := (notWaiting_woken_iff ht).mp hw
        exact lt_of_le_of_ne (hhigher t ht ((hready t ht).mpr hcond)) (hdiff t ht hcond)
    · exact Or.inr ⟨t, ht, (hready t ht).mpr (Or.inr hevent), hlt⟩

/-- The caller wakes a thread above it, which is ready after the wake-up and gets the CPU. -/
theorem signal_preempts_higher_firstWaits :
    firstWaits.runningThread = some 1 ∧ (firstWaits.soSignal 0).next.runningThread = some 0 ∧
      ((firstWaits.soSignal 0).next.runningThread = some 1 ∨
        ∃ t ∈ firstWaits.q, ((firstWaits.wakeAll 0).2.thread t).state ≠ .waiting ∧
          firstWaits.prio 1 < firstWaits.prio t) := by
  have hwoken : 0 ∈ firstWaits.q ∧ (firstWaits.thread 0).event = 0 ∧
      firstWaits.prio 1 < firstWaits.prio 0 := by decide +kernel
  refine ⟨by decide +kernel, by decide +kernel, ?_⟩
  exact (signal_preempts_higher_iff soInit_two_one run_firstWaits (by decide +kernel)
    (by decide +kernel)).mpr (Or.inr ⟨0, hwoken⟩)

/-- With a thread of its own priority ready the caller loses the CPU, although no thread has a greater
one and nobody waits. -/
theorem signal_yields_to_equal :
    twoEqual.runningThread = some 0 ∧ (0 : UInt32) < twoEqual.io ∧
      (twoEqual.soSignal 0).next.runningThread = some 1 ∧
      ¬∃ t ∈ twoEqual.q, ((twoEqual.wakeAll 0).2.thread t).state ≠ .waiting ∧
        twoEqual.prio 0 < twoEqual.prio t := by
  decide +kernel

end OsHomeworks.ThreadScheduler
