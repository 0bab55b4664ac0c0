import OsHomeworks.SchedulerModel
import OsHomeworks.Runs
import Mathlib.Data.List.Range

/-! What the calls of the scheduler preserve. Between two statements of a call a thread may be in
the hands of the caller, neither running nor queued: `Core` carries the place of every thread with
at most one such detached thread. Between two calls nothing is detached and the running thread is
the one the queue would serve. -/

namespace OsHomeworks.ThreadScheduler

open StableQueue Runs

/-- A record as every statement of the scheduler leaves it: a waiter names a device, every other
thread names none, and a live thread has time left. -/
structure Sound (timeQuantum io : UInt32) (record : Thread) : Prop where
  event : record.state = .waiting ∧ record.event < io ∨
    record.state ≠ .waiting ∧ record.event = noEvent
  quantum : record.state ≠ .terminated →
    0 < record.timeQuantum.toNat ∧ record.timeQuantum.toNat ≤ timeQuantum.toNat
  priority : record.priority.toNat ≤ 5

/-- Every thread has one place; `detached` is the thread in the hands of the caller. -/
structure Core (s : Scheduler) (detached : Option ThreadPtr) : Prop where
  quantum_pos : 0 < s.timeQuantum.toNat
  io_le : s.io.toNat ≤ 256
  threads_eq : s.threads = List.range s.threads.length
  nodup : s.q.Nodup
  sorted : Sorted s.prio s.q
  queued : ∀ t ∈ s.q, t ∈ s.threads ∧
    ((s.thread t).state = .ready ∨ (s.thread t).state = .waiting)
  running : ∀ r, s.runningThread = some r →
    r ∈ s.threads ∧ r ∉ s.q ∧ (s.thread r).state = .running
  apart : ∀ t, detached = some t → t ∈ s.threads ∧ t ∉ s.q ∧ s.runningThread ≠ some t ∧
    (s.thread t).state ≠ .terminated
  placed : ∀ t ∈ s.threads, t ∈ s.q ∨ s.runningThread = some t ∨ detached = some t ∨
    (s.thread t).state = .terminated
  sound : ∀ t ∈ s.threads, Sound s.timeQuantum s.io (s.thread t)

/-- The running thread is the best choice; if there is none, there was nothing to choose. -/
structure Settled (s : Scheduler) : Prop where
  top : ∀ r, s.runningThread = some r → ∀ t ∈ s.q, s.notWaiting t = true → s.prio t ≤ s.prio r
  idle : s.runningThread = none → ∀ t ∈ s.q, s.notWaiting t = false

/-- The states between two calls. -/
structure Inv (s : Scheduler) : Prop extends Core s none, Settled s

namespace Scheduler

theorem notWaiting_iff {s : Scheduler} {t : ThreadPtr} :
    s.notWaiting t = true ↔ (s.thread t).state ≠ .waiting := by
  simp [notWaiting]

theorem dispatch_q (s : Scheduler) (t : ThreadPtr) :
    (s.dispatch t).q = s.q.eraseP s.notWaiting := rfl

@[simp] theorem dispatch_threads (s : Scheduler) (t : ThreadPtr) :
    (s.dispatch t).threads = s.threads := rfl

@[simp] theorem dispatch_timeQuantum (s : Scheduler) (t : ThreadPtr) :
    (s.dispatch t).timeQuantum = s.timeQuantum := rfl

@[simp] theorem dispatch_io (s : Scheduler) (t : ThreadPtr) : (s.dispatch t).io = s.io := rfl

theorem dispatch_thread (s : Scheduler) (t u : ThreadPtr) :
    (s.dispatch t).thread u =
      if u = t then { s.thread u with state := .running } else s.thread u :=
  modify_thread _ _ _ _

theorem requeue_q (s : Scheduler) (t : ThreadPtr) : (s.requeue t).q = insert s.prio t s.q := by
  unfold requeue
  dsimp only
  split_ifs <;> rfl

@[simp] theorem requeue_threads (s : Scheduler) (t : ThreadPtr) :
    (s.requeue t).threads = s.threads := by
  unfold requeue
  dsimp only
  split_ifs <;> rfl

@[simp] theorem requeue_timeQuantum (s : Scheduler) (t : ThreadPtr) :
    (s.requeue t).timeQuantum = s.timeQuantum := by
  unfold requeue
  dsimp only
  split_ifs <;> rfl

@[simp] theorem requeue_io (s : Scheduler) (t : ThreadPtr) : (s.requeue t).io = s.io := by
  unfold requeue
  dsimp only
  split_ifs <;> rfl

theorem requeue_thread (s : Scheduler) (t u : ThreadPtr) :
    (s.requeue t).thread u =
      if u = t ∧ (s.thread t).state ≠ .waiting then { s.thread u with state := .ready }
      else s.thread u := by
  unfold requeue
  dsimp only
  split_ifs with hwait hu hu
  · rw [modify_thread, if_pos hu.1]
    rfl
  · have hne : u ≠ t := fun h => hu ⟨h, hwait⟩
    rw [modify_thread, if_neg hne]
    rfl
  · exact absurd hu.2 hwait
  · rfl

theorem requeue_thread_of_ne {s : Scheduler} {t u : ThreadPtr} (h : u ≠ t) :
    (s.requeue t).thread u = s.thread u := by
  rw [requeue_thread, if_neg fun heq => h heq.1]

theorem mem_requeue_q {s : Scheduler} {t u : ThreadPtr} : u ∈ (s.requeue t).q ↔ u = t ∨ u ∈ s.q := by
  rw [requeue_q]
  exact mem_insert _

/-- Giving the CPU up at the end of a quantum. -/
theorem expire_charge (s : Scheduler) (r : ThreadPtr) :
    (s.charge r).expire r = { s with runningThread := none }.modify r
      fun record => { record with timeQuantum := s.timeQuantum, state := .ready } := by
  simp [charge, expire, modify]

theorem notWaiting_requeue_of_ne {s : Scheduler} {t u : ThreadPtr} (h : u ≠ t) :
    (s.requeue t).notWaiting u = s.notWaiting u := by
  unfold notWaiting
  rw [requeue_thread_of_ne h]

theorem notWaiting_requeue_self {s : Scheduler} {t : ThreadPtr} :
    (s.requeue t).notWaiting t = s.notWaiting t := by
  unfold notWaiting
  rw [requeue_thread]
  split_ifs with h
  · have hw : ((s.thread t).state != .waiting) = true := by simpa using h.2
    rw [hw]
    rfl
  · rfl

theorem notWaiting_requeue (s : Scheduler) (t : ThreadPtr) :
    (s.requeue t).notWaiting = s.notWaiting := by
  funext u
  by_cases h : u = t
  · subst u
    exact notWaiting_requeue_self
  · exact notWaiting_requeue_of_ne h

theorem notWaiting_dispatch_of_ne {s : Scheduler} {t u : ThreadPtr} (h : u ≠ t) :
    (s.dispatch t).notWaiting u = s.notWaiting u := by
  unfold notWaiting
  rw [dispatch_thread, if_neg h]

theorem front_mem {s : Scheduler} {f : ThreadPtr} (h : s.front = some f) : f ∈ s.q :=
  List.mem_of_find?_eq_some h

theorem front_notWaiting {s : Scheduler} {f : ThreadPtr} (h : s.front = some f) :
    s.notWaiting f = true := List.find?_some h

theorem exists_front {s : Scheduler} {t : ThreadPtr} (ht : t ∈ s.q) (hw : s.notWaiting t = true) :
    ∃ f, s.front = some f := exists_find _ ht hw

theorem front_none {s : Scheduler} (h : s.front = none) {t : ThreadPtr} (ht : t ∈ s.q) :
    s.notWaiting t = false := by
  by_contra hw
  obtain ⟨f, hf⟩ := exists_front ht (by simpa using hw)
  rw [h] at hf
  cases hf

/-- A thread that is put back and does not wait leaves a thread to serve. -/
theorem exists_front_requeue {s : Scheduler} {t : ThreadPtr} (hw : s.notWaiting t = true) :
    ∃ f, (s.requeue t).front = some f :=
  exists_front (mem_requeue_q.mpr (Or.inl rfl)) (by rw [notWaiting_requeue, hw])

/-- The scheduler in which `so_fork` schedules the new thread. -/
def forked (s : Scheduler) (func : HandlerPtr) (priority : UInt32) : Scheduler :=
  (s.createThread func priority).2.addThread s.threads.length

theorem forked_thread (s : Scheduler) (func : HandlerPtr) (priority : UInt32) (u : ThreadPtr) :
    (s.forked func priority).thread u =
      if u = s.threads.length then ⟨func, priority.toUInt8, .new, s.timeQuantum, noEvent⟩
      else s.thread u :=
  modify_thread s s.threads.length
    (fun _ => ⟨func, priority.toUInt8, .new, s.timeQuantum, noEvent⟩) u

end Scheduler

open Scheduler

namespace Core

variable {s : Scheduler} {d : Option ThreadPtr} {t r f : ThreadPtr}

theorem mem_dispatch_q (h : Core s d) (hf : s.front = some f) {u : ThreadPtr} :
    u ∈ (s.dispatch f).q ↔ u ∈ s.q ∧ u ≠ f := by
  rw [dispatch_q]
  exact mem_eraseP_find h.nodup hf

theorem le_front (h : Core s d) (hf : s.front = some f) (ht : t ∈ s.q)
    (hw : s.notWaiting t = true) : s.prio t ≤ s.prio f := key_le_find _ h.sorted hf ht hw

theorem threads_nodup (h : Core s d) : s.threads.Nodup := by
  rw [h.threads_eq]
  exact List.nodup_range

/-- The number of the next thread is not in use. -/
theorem fresh (h : Core s d) (ht : t ∈ s.threads) : t ≠ s.threads.length := by
  rw [h.threads_eq] at ht
  exact (List.mem_range.mp ht).ne

theorem forked_thread_of_mem (h : Core s d) (ht : t ∈ s.threads) (func : HandlerPtr)
    (priority : UInt32) : (s.forked func priority).thread t = s.thread t := by
  rw [forked_thread, if_neg (h.fresh ht)]

theorem not_waiting_of_running (h : Core s d) (hr : s.runningThread = some r) :
    s.notWaiting r = true := by
  rw [notWaiting_iff, (h.running r hr).2.2]
  decide

theorem requeue (h : Core s (some t)) : Core (s.requeue t) none := by
  obtain ⟨hmem, hq, hrun, hlive⟩ := h.apart t rfl
  have hstate : ∀ u, ((s.requeue t).thread u).state = .terminated → (s.thread u).state = .terminated := by
    intro u hu
    rw [requeue_thread] at hu
    split_ifs at hu
    exact hu
  refine ⟨?_, ?_, ?_, ?_, ?_, ?_, ?_, ?_, ?_, ?_⟩
  · simpa using h.quantum_pos
  · simpa using h.io_le
  · simpa using h.threads_eq
  · rw [requeue_q]
    exact nodup_insert _ hq h.nodup
  · rw [requeue_prio, requeue_q]
    exact sorted_insert _ _ h.sorted
  · intro u hu
    rw [requeue_threads]
    rcases mem_requeue_q.mp hu with rfl | hu
    · refine ⟨hmem, ?_⟩
      rw [requeue_thread]
      by_cases hw : (s.thread u).state = .waiting <;> simp [hw]
    · have hne : u ≠ t := fun heq => hq (heq ▸ hu)
      rw [requeue_thread_of_ne hne]
      exact h.queued u hu
  · intro r hr
    rw [requeue_runningThread] at hr
    have hne : r ≠ t := fun heq => hrun (heq ▸ hr)
    rw [requeue_threads, mem_requeue_q, requeue_thread_of_ne hne]
    obtain ⟨hr1, hr2, hr3⟩ := h.running r hr
    exact ⟨hr1, not_or.mpr ⟨hne, hr2⟩, hr3⟩
  · intro u hu
    cases hu
  · intro u hu
    rw [requeue_threads] at hu
    rw [mem_requeue_q, requeue_runningThread]
    by_cases hut : u = t
    · exact Or.inl (Or.inl hut)
    · rw [requeue_thread_of_ne hut]
      rcases h.placed u hu with hp | hp | hp | hp
      · exact Or.inl (Or.inr hp)
      · exact Or.inr (Or.inl hp)
      · exact absurd (Option.some.inj hp).symm hut
      · exact Or.inr (Or.inr (Or.inr hp))
  · intro u hu
    rw [requeue_threads] at hu
    rw [requeue_timeQuantum, requeue_io, requeue_thread]
    have hs := h.sound u hu
    split_ifs with hut
    · obtain ⟨rfl, hw⟩ := hut
      refine ⟨Or.inr ⟨by simp, ?_⟩, fun _ => hs.quantum hlive, hs.priority⟩
      rcases hs.event with he | he
      · exact absurd he.1 hw
      · exact he.2
    · exact hs

/-- A dispatch takes the CPU from the thread that had it, if any. -/
theorem dispatch (h : Core s d) (hf : s.front = some f) (hd : s.runningThread = none ∨ d = none) :
    Core (s.dispatch f) (s.runningThread.or d) := by
  have hfq := front_mem hf
  obtain ⟨hfmem, hfstate⟩ := h.queued f hfq
  have hfready : (s.thread f).state = .ready :=
    hfstate.resolve_right (notWaiting_iff.mp (front_notWaiting hf))
  refine ⟨h.quantum_pos, h.io_le, h.threads_eq, ?_, ?_, ?_, ?_, ?_, ?_, ?_⟩
  · rw [dispatch_q]
    exact h.nodup.sublist List.eraseP_sublist
  · rw [dispatch_prio, dispatch_q]
    exact List.Pairwise.sublist List.eraseP_sublist h.sorted
  · intro u hu
    obtain ⟨hu, hne⟩ := (h.mem_dispatch_q hf).mp hu
    rw [dispatch_thread, if_neg hne]
    exact h.queued u hu
  · intro r hr
    obtain rfl : f = r := Option.some.inj hr
    rw [h.mem_dispatch_q hf, dispatch_thread, if_pos rfl]
    exact ⟨hfmem, fun hmem => hmem.2 rfl, rfl⟩
  · intro u hu
    rw [h.mem_dispatch_q hf, dispatch_threads, dispatch_thread, dispatch_runningThread]
    have hplace : u ∈ s.threads ∧ u ∉ s.q ∧ (s.thread u).state ≠ .terminated := by
      cases hrun : s.runningThread with
      | none =>
          rw [hrun, Option.none_or] at hu
          obtain ⟨h1, h2, -, h4⟩ := h.apart u hu
          exact ⟨h1, h2, h4⟩
      | some r =>
          rw [hrun, Option.some_or] at hu
          obtain rfl := Option.some.inj hu
          obtain ⟨h1, h2, h3⟩ := h.running r hrun
          exact ⟨h1, h2, by simp [h3]⟩
    have hne : u ≠ f := fun heq => hplace.2.1 (heq ▸ hfq)
    rw [if_neg hne]
    exact ⟨hplace.1, fun hmem => hplace.2.1 hmem.1, fun heq => hne (Option.some.inj heq).symm,
      hplace.2.2⟩
  · intro u hu
    rw [h.mem_dispatch_q hf, dispatch_runningThread, dispatch_thread]
    by_cases hne : u = f
    · exact Or.inr (Or.inl (congrArg some hne.symm))
    · rw [if_neg hne]
      rcases h.placed u hu with hp | hp | hp | hp
      · exact Or.inl ⟨hp, hne⟩
      · exact Or.inr (Or.inr (Or.inl (by rw [hp, Option.some_or])))
      · refine Or.inr (Or.inr (Or.inl ?_))
        rcases hd with hd | hd
        · rw [hd, Option.none_or, hp]
        · rw [hd] at hp
          cases hp
      · exact Or.inr (Or.inr (Or.inr hp))
  · intro u hu
    have hs := h.sound u hu
    rw [dispatch_timeQuantum, dispatch_io, dispatch_thread]
    split_ifs with heq
    · subst u
      refine ⟨Or.inr ⟨by simp, ?_⟩, fun _ => hs.quantum (by simp [hfready]), hs.priority⟩
      rcases hs.event with he | he
      · rw [hfready] at he
        cases he.1
      · exact he.2
    · exact hs

/-- The caller clears `running_thread` and keeps the thread in hand. -/
theorem detach (h : Core s none) (hr : s.runningThread = some r) :
    Core { s with runningThread := none } (some r) := by
  obtain ⟨hmem, hq, hstate⟩ := h.running r hr
  refine ⟨h.quantum_pos, h.io_le, h.threads_eq, h.nodup, h.sorted, h.queued, ?_, ?_, ?_, h.sound⟩
  · intro u hu
    cases hu
  · rintro u hu
    obtain rfl := Option.some.inj hu
    exact ⟨hmem, hq, by simp, by simp [hstate]⟩
  · intro u hu
    rcases h.placed u hu with hp | hp | hp | hp
    · exact Or.inl hp
    · exact Or.inr (Or.inr (Or.inl (hr.symm.trans hp)))
    · cases hp
    · exact Or.inr (Or.inr (Or.inr hp))

/-- A change of the record of a thread outside the queue. -/
theorem modify (h : Core s d) {f : Thread → Thread} (hq : t ∉ s.q)
    (hprio : (f (s.thread t)).priority = (s.thread t).priority)
    (hrun : s.runningThread = some t → (f (s.thread t)).state = .running)
    (hlive : d = some t → (f (s.thread t)).state ≠ .terminated)
    (hdead : (s.thread t).state = .terminated → (f (s.thread t)).state = .terminated)
    (hsound : Sound s.timeQuantum s.io (f (s.thread t))) : Core (s.modify t f) d := by
  have hp : (s.modify t f).prio = s.prio := by
    funext u
    unfold Scheduler.prio
    rw [modify_thread]
    split_ifs with hu
    · rw [hu, hprio]
    · rfl
  refine ⟨h.quantum_pos, h.io_le, h.threads_eq, h.nodup, ?_, ?_, ?_, ?_, ?_, ?_⟩
  · rw [hp]
    exact h.sorted
  · intro u hu
    have hne : u ≠ t := fun heq => hq (heq ▸ hu)
    rw [modify_thread, if_neg hne]
    exact h.queued u hu
  · intro r hr
    obtain ⟨h1, h2, h3⟩ := h.running r hr
    refine ⟨h1, h2, ?_⟩
    rw [modify_thread]
    split_ifs with heq
    · subst r
      exact hrun hr
    · exact h3
  · intro u hu
    obtain ⟨h1, h2, h3, h4⟩ := h.apart u hu
    refine ⟨h1, h2, h3, ?_⟩
    rw [modify_thread]
    split_ifs with heq
    · subst u
      exact hlive hu
    · exact h4
  · intro u hu
    rw [modify_thread]
    rcases h.placed u hu with hp | hp | hp | hp
    · exact Or.inl hp
    · exact Or.inr (Or.inl hp)
    · exact Or.inr (Or.inr (Or.inl hp))
    · refine Or.inr (Or.inr (Or.inr ?_))
      split_ifs with heq
      · subst u
        exact hdead hp
      · exact hp
  · intro u hu
    rw [modify_thread]
    split_ifs with heq
    · subst u
      exact hsound
    · exact h.sound u hu

/-- The detached thread ends. -/
theorem terminate (h : Core s (some t)) (hw : s.notWaiting t = true) :
    Core (s.modify t fun record => { record with state := .terminated }) none := by
  obtain ⟨hmem, hq, hrun, -⟩ := h.apart t rfl
  have hs := h.sound t hmem
  have hevent : (s.thread t).event = noEvent := by
    rcases hs.event with he | he
    · exact absurd he.1 (notWaiting_iff.mp hw)
    · exact he.2
  have hprio : (s.modify t fun record => { record with state := .terminated }).prio = s.prio :=
    modify_prio _ _ _ fun _ => rfl
  refine ⟨h.quantum_pos, h.io_le, h.threads_eq, h.nodup, ?_, ?_, ?_, ?_, ?_, ?_⟩
  · rw [hprio]
    exact h.sorted
  · intro u hu
    have hne : u ≠ t := fun heq => hq (heq ▸ hu)
    rw [modify_thread, if_neg hne]
    exact h.queued u hu
  · intro r hr
    have hne : r ≠ t := fun heq => hrun (heq ▸ hr)
    rw [modify_thread, if_neg hne]
    exact h.running r hr
  · intro u hu
    cases hu
  · intro u hu
    rw [modify_thread]
    by_cases heq : u = t
    · exact Or.inr (Or.inr (Or.inr (by simp [heq])))
    · rw [if_neg heq]
      rcases h.placed u hu with hp | hp | hp | hp
      · exact Or.inl hp
      · exact Or.inr (Or.inl hp)
      · exact absurd (Option.some.inj hp).symm heq
      · exact Or.inr (Or.inr (Or.inr hp))
  · intro u hu
    rw [modify_thread]
    split_ifs with heq
    · subst u
      exact ⟨Or.inr ⟨by simp, hevent⟩, fun hne => absurd rfl hne, hs.priority⟩
    · exact h.sound u hu

/-- A new thread enters in the hands of `so_fork`. -/
theorem fork (h : Core s none) (func : HandlerPtr) {priority : UInt32} (hp : ¬priority > soMaxPrio) :
    Core (s.forked func priority) (some s.threads.length) := by
  have hnew : s.threads.length ∉ s.threads := fun hmem => h.fresh hmem rfl
  have hold : ∀ u ∈ s.threads, (s.forked func priority).thread u = s.thread u :=
    fun u hu => h.forked_thread_of_mem hu func priority
  have hq : s.threads.length ∉ s.q := fun hmem => hnew (h.queued _ hmem).1
  have hrun : s.runningThread ≠ some s.threads.length := fun heq => hnew (h.running _ heq).1
  have hpriority : priority.toUInt8.toNat ≤ 5 := by
    have h5 : priority.toNat ≤ soMaxPrio.toNat := UInt32.le_iff_toNat_le.mp (UInt32.not_lt.mp hp)
    have hmax : soMaxPrio.toNat = 5 := rfl
    rw [UInt32.toNat_toUInt8]
    omega
  refine ⟨h.quantum_pos, h.io_le, ?_, h.nodup, ?_, ?_, ?_, ?_, ?_, ?_⟩
  · change s.threads ++ [s.threads.length] = List.range (s.threads ++ [s.threads.length]).length
    rw [List.length_append, List.length_singleton, List.range_succ, ← h.threads_eq]
  · refine List.Pairwise.imp_of_mem ?_ h.sorted
    intro a b ha hb hab
    unfold Scheduler.prio
    rw [hold a (h.queued a ha).1, hold b (h.queued b hb).1]
    exact hab
  · intro u hu
    rw [hold u (h.queued u hu).1]
    exact ⟨List.mem_append_left _ (h.queued u hu).1, (h.queued u hu).2⟩
  · intro r hr
    obtain ⟨h1, h2, h3⟩ := h.running r hr
    rw [hold r h1]
    exact ⟨List.mem_append_left _ h1, h2, h3⟩
  · rintro u hu
    obtain rfl := Option.some.inj hu
    refine ⟨List.mem_append_right _ (List.mem_singleton.mpr rfl), hq, hrun, ?_⟩
    rw [forked_thread, if_pos rfl]
    simp
  · intro u hu
    rcases List.mem_append.mp hu with hu | hu
    · rw [hold u hu]
      rcases h.placed u hu with hp | hp | hp | hp
      · exact Or.inl hp
      · exact Or.inr (Or.inl hp)
      · cases hp
      · exact Or.inr (Or.inr (Or.inr hp))
    · exact Or.inr (Or.inr (Or.inl (congrArg some (List.mem_singleton.mp hu).symm)))
  · intro u hu
    rcases List.mem_append.mp hu with hu | hu
    · rw [hold u hu]
      exact h.sound u hu
    · rw [forked_thread, if_pos (List.mem_singleton.mp hu)]
      exact ⟨Or.inr ⟨by simp, rfl⟩, fun _ => ⟨h.quantum_pos, le_rfl⟩, hpriority⟩

end Core

/-- The scheduler after the waiters for `io` have been made ready. -/
def Scheduler.woken (s : Scheduler) (io : UInt32) : Scheduler :=
  { s with thread := fun u =>
      if u ∈ s.q ∧ (s.thread u).event = io then
        { s.thread u with state := .ready, event := noEvent }
      else s.thread u }

theorem foldl_wake (io : UInt32) {l : List ThreadPtr} (hl : l.Nodup) (n : ℕ) (s : Scheduler) :
    l.foldl (wake io) (n, s) = (n + l.countP fun t => (s.thread t).event = io,
      { s with thread := fun u =>
          if u ∈ l ∧ (s.thread u).event = io then
            { s.thread u with state := .ready, event := noEvent }
          else s.thread u }) := by
  induction l generalizing n s with
  | nil => simp
  | cons t l ih =>
      obtain ⟨ht, hl⟩ := List.nodup_cons.mp hl
      rw [List.foldl_cons, List.countP_cons]
      by_cases hio : (s.thread t).event = io
      · have hstep : wake io (n, s) t = (n + 1, s.modify t fun record =>
            { record with state := .ready, event := noEvent }) := if_pos hio
        rw [hstep, ih hl]
        have hrest : ∀ u ∈ l, ((s.modify t fun record =>
            { record with state := .ready, event := noEvent }).thread u) = s.thread u := by
          intro u hu
          have hne : u ≠ t := fun heq => ht (heq ▸ hu)
          rw [modify_thread, if_neg hne]
        refine Prod.ext ?_ ?_
        · have hcount := List.countP_congr (l := l)
            (p := fun u => decide (((s.modify t fun record =>
              { record with state := .ready, event := noEvent }).thread u).event = io))
            (q := fun u => decide ((s.thread u).event = io))
            (fun u hu => by rw [hrest u hu])
          simp only [hcount, hio, decide_true, if_true]
          omega
        · simp only [Scheduler.modify, Scheduler.mk.injEq, true_and]
          funext u
          by_cases hut : u = t
          · subst u
            simp [ht, hio]
          · simp [hut]
      · have hstep : wake io (n, s) t = (n, s) := if_neg hio
        rw [hstep, ih hl]
        refine Prod.ext ?_ ?_
        · simp [hio]
        · simp only [Scheduler.mk.injEq, true_and]
          funext u
          by_cases hut : u = t
          · subst u
            simp [hio]
          · simp [hut]

theorem wakeAll_eq {s : Scheduler} (h : s.q.Nodup) (io : UInt32) :
    s.wakeAll io = (s.q.countP fun t => (s.thread t).event = io, s.woken io) := by
  unfold Scheduler.wakeAll
  rw [foldl_wake io h, Nat.zero_add]
  rfl

namespace Core

variable {s : Scheduler} {d : Option ThreadPtr}

theorem woken (h : Core s none) (io : UInt32) : Core (s.woken io) none := by
  have hprio : (s.woken io).prio = s.prio := by
    funext u
    unfold Scheduler.prio Scheduler.woken
    dsimp only
    split_ifs <;> rfl
  have hout : ∀ u, u ∉ s.q → (s.woken io).thread u = s.thread u :=
    fun u hu => if_neg fun heq => hu heq.1
  refine ⟨h.quantum_pos, h.io_le, h.threads_eq, h.nodup, ?_, ?_, ?_, ?_, ?_, ?_⟩
  · rw [hprio]
    exact h.sorted
  · intro u hu
    refine ⟨(h.queued u hu).1, ?_⟩
    unfold Scheduler.woken
    dsimp only
    split_ifs
    · exact Or.inl rfl
    · exact (h.queued u hu).2
  · intro r hr
    obtain ⟨h1, h2, h3⟩ := h.running r hr
    refine ⟨h1, h2, ?_⟩
    rw [hout r h2]
    exact h3
  · intro u hu
    cases hu
  · intro u hu
    by_cases hq : u ∈ s.q
    · exact Or.inl hq
    · rw [hout u hq]
      exact h.placed u hu
  · intro u hu
    have hs := h.sound u hu
    unfold Scheduler.woken
    dsimp only
    split_ifs with hut
    · refine ⟨Or.inr ⟨by simp, rfl⟩, fun _ => hs.quantum ?_, hs.priority⟩
      rcases (h.queued u hut.1).2 with hstate | hstate <;> simp [hstate]
    · exact hs

end Core
end OsHomeworks.ThreadScheduler
