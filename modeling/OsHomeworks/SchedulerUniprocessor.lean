import OsHomeworks.SchedulerSteps
import OsHomeworks.SchedulerSafety
import Mathlib.Algebra.BigOperators.Group.Finset.Basic

/-! One task at a time. Along every interleaving the value of a live thread's semaphore is tied to
the waits on it that pthreads still have before them: value plus one is the number of those waits,
plus one more if the thread is `running_thread`. A task in handler code has no wait of its own before
it, so it is `running_thread` unless another pthread's step takes the CPU from it, or it takes a
post that another pthread is about to take back. -/

namespace OsHomeworks.ThreadScheduler

open StableQueue Runs Scheduler

def Pending.thread : Pending → ThreadPtr
  | .schedule t => t
  | .semWait t => t

namespace Scheduler

/-- One if the thread is `running_thread`. -/
def on (s : Scheduler) (v : ThreadPtr) : ℕ := if s.runningThread = some v then 1 else 0

/-- The queue and `running_thread` name threads below `n`. -/
structure Within (n : ℕ) (s : Scheduler) : Prop where
  q : ∀ t ∈ s.q, t < n
  running : ∀ r, s.runningThread = some r → r < n

theorem on_idle {s : Scheduler} (h : s.runningThread = none) (v : ThreadPtr) : s.on v = 0 := by
  rw [on, h]
  exact if_neg nofun

theorem on_running {s : Scheduler} {r : ThreadPtr} (h : s.runningThread = some r) : s.on r = 1 :=
  if_pos h

end Scheduler

/-- A segment keeps the books: every post pays for a new running thread or for a wait put before
the caller, and a caller with waits before it ends with the wait of the thread that ran. -/
structure Segment.Law (n : ℕ) (s : Scheduler) (segment : Segment) : Prop where
  threads : segment.sched.threads = s.threads
  within : segment.sched.Within n
  rest : ∀ x ∈ segment.rest, x.thread < n
  token : ∀ v, s.on v + segment.posts v = segment.sched.on v + segment.rest.count (.semWait v)
  last : segment.rest = [] ∨
    ∃ r, s.runningThread = some r ∧ segment.rest.getLast? = some (.semWait r)

section Laws

variable {n : ℕ} {s s' : Scheduler} {r t f : ThreadPtr}

theorem Scheduler.Within.requeue (h : s.Within n) (ht : t < n) : (s.requeue t).Within n := by
  refine ⟨fun u hu => ?_, fun r hr => h.running r (by rwa [requeue_runningThread] at hr)⟩
  rcases mem_requeue_q.mp hu with rfl | hu
  · exact ht
  · exact h.q u hu

theorem Scheduler.Within.dispatch (h : s.Within n) (hf : s.front = some f) : (s.dispatch f).Within n := by
  refine ⟨fun u hu => h.q u (List.eraseP_sublist.subset hu), fun r hr => ?_⟩
  obtain rfl : f = r := Option.some.inj hr
  exact h.q f (front_mem hf)

theorem Segment.Law.of_same (hthreads : s'.threads = s.threads) (hwithin : s'.Within n)
    (hrun : s'.runningThread = s.runningThread) : Segment.Law n s ⟨s', none, []⟩ := by
  refine ⟨hthreads, hwithin, fun x hx => (by cases hx), fun v => ?_, Or.inl rfl⟩
  change s.on v + 0 = s'.on v + 0
  rw [on, on, hrun]

/-- The caller takes its thread off the CPU, schedules it and waits. -/
theorem Segment.Law.descheduled {segment : Segment} (h : segment.Law n s')
    (hidle : s'.runningThread = none) (hthreads : s'.threads = s.threads)
    (hr : s.runningThread = some r) (hlt : r < n) :
    (segment.followedBy [.semWait r]).Law n s := by
  have hrest : segment.rest = [] := by
    rcases h.last with hrest | ⟨u, hu, -⟩
    · exact hrest
    · rw [hidle] at hu
      cases hu
  refine ⟨h.threads.trans hthreads, h.within, fun x hx => ?_, fun v => ?_, Or.inr ⟨r, hr, ?_⟩⟩
  · rw [followedBy_rest, hrest, List.nil_append, List.mem_singleton] at hx
    rw [hx]
    exact hlt
  · have htoken := h.token v
    rw [on_idle hidle, hrest, List.count_nil] at htoken
    rw [followedBy_rest, hrest, List.nil_append, List.count_singleton]
    have hon : s.on v = if Pending.semWait r == Pending.semWait v then 1 else 0 := by
      rw [on, hr]
      simp
    change s.on v + segment.posts v = segment.sched.on v + _
    omega
  · rw [followedBy_rest, hrest]
    rfl

theorem checkPreemptSegment_idle_law (h : s.Within n) (hidle : s.runningThread = none) :
    (s.checkPreemptSegment s.front).Law n s := by
  cases hf : s.front with
  | none =>
      rw [checkPreemptSegment_none]
      exact .of_same rfl h rfl
  | some f =>
      rw [checkPreemptSegment_idle hidle]
      refine ⟨rfl, h.dispatch hf, fun x hx => (by cases hx), fun v => ?_, Or.inl rfl⟩
      rw [on_idle hidle, Nat.zero_add]
      rfl

theorem soExecSegment_law (h : s.Within n) : s.soExecSegment.Law n s := by
  cases hrun : s.runningThread with
  | none =>
      rw [soExecSegment_idle hrun]
      exact .of_same rfl h rfl
  | some r =>
      have hlt := h.running r hrun
      by_cases hleft : ((s.charge r).thread r).timeQuantum = 0
      · rw [soExecSegment_expire hrun hleft, scheduleThreadSegment_eq]
        have hwithin : ((s.charge r).expire r).Within n := ⟨h.q, fun u hu => by cases hu⟩
        refine (checkPreemptSegment_idle_law (hwithin.requeue hlt) ?_).descheduled ?_ ?_ hrun hlt
        · exact requeue_runningThread _ _
        · exact requeue_runningThread _ _
        · exact requeue_threads _ _
      · rw [soExecSegment_charge hrun hleft]
        exact .of_same rfl ⟨h.q, h.running⟩ rfl

theorem checkPreemptSegment_law (h : s.Within n) : (s.checkPreemptSegment s.front).Law n s := by
  cases hrun : s.runningThread with
  | none => exact checkPreemptSegment_idle_law h hrun
  | some r =>
      cases hf : s.front with
      | none =>
          rw [checkPreemptSegment_none]
          exact .of_same rfl h rfl
      | some f =>
          rcases lt_or_ge (s.prio r) (s.prio f) with hlt | hle
          · rw [checkPreemptSegment_preempt hrun hlt]
            refine ⟨rfl, h.dispatch hf, fun x hx => ?_, fun v => ?_, Or.inr ⟨r, hrun, rfl⟩⟩
            · have hr := h.running r hrun
              rcases List.mem_pair.mp hx with rfl | rfl <;> exact hr
            · have hon : s.on v =
                  List.count (Pending.semWait v) [.schedule r, .semWait r] := by
                rw [on, hrun, List.count_cons, List.count_singleton]
                simp
              rw [hon, Nat.add_comm]
              rfl
          · rw [checkPreemptSegment_exec hrun hle]
            exact soExecSegment_law h

theorem scheduleThreadSegment_law (h : s.Within n) (ht : t < n) :
    (s.scheduleThreadSegment t).Law n s := by
  have hlaw := checkPreemptSegment_law (h.requeue ht)
  rw [← scheduleThreadSegment_eq] at hlaw
  obtain ⟨hthreads, hwithin, hrest, htoken, hlast⟩ := hlaw
  rw [requeue_runningThread] at hlast
  refine ⟨hthreads.trans (requeue_threads s t), hwithin, hrest, fun v => ?_, hlast⟩
  have hv := htoken v
  rw [on, requeue_runningThread] at hv
  exact hv

theorem foldl_wake_same (io : UInt32) (l : List ThreadPtr) (acc : ℕ × Scheduler) :
    (l.foldl (wake io) acc).2.q = acc.2.q ∧ (l.foldl (wake io) acc).2.threads = acc.2.threads ∧
      (l.foldl (wake io) acc).2.runningThread = acc.2.runningThread := by
  induction l generalizing acc with
  | nil => exact ⟨rfl, rfl, rfl⟩
  | cons t l ih =>
      have hstep : (wake io acc t).2.q = acc.2.q ∧ (wake io acc t).2.threads = acc.2.threads ∧
          (wake io acc t).2.runningThread = acc.2.runningThread := by
        unfold wake
        split_ifs <;> exact ⟨rfl, rfl, rfl⟩
      obtain ⟨hq, hthreads, hrun⟩ := ih (wake io acc t)
      exact ⟨hq.trans hstep.1, hthreads.trans hstep.2.1, hrun.trans hstep.2.2⟩

theorem soWaitSegment_law (h : s.Within n) (io : UInt32) : (s.soWaitSegment io).2.Law n s := by
  unfold soWaitSegment
  cases hrun : s.runningThread with
  | none => exact .of_same rfl h rfl
  | some r =>
      have hlt := h.running r hrun
      dsimp only
      split_ifs
      · exact .of_same rfl h rfl
      · have hwithin : (s.block r io).Within n := ⟨h.q, fun u hu => by cases hu⟩
        exact (scheduleThreadSegment_law hwithin hlt).descheduled rfl rfl hrun hlt

theorem soSignalSegment_law (h : s.Within n) (io : UInt32) : (s.soSignalSegment io).2.Law n s := by
  unfold soSignalSegment
  cases hrun : s.runningThread with
  | none => exact .of_same rfl h rfl
  | some r =>
      have hlt := h.running r hrun
      dsimp only
      split_ifs
      · exact .of_same rfl h rfl
      · obtain ⟨hq, hthreads, -⟩ := foldl_wake_same io s.q (0, s)
        have hwithin : { (s.wakeAll io).2 with runningThread := none }.Within n := by
          refine ⟨fun u hu => h.q u ?_, fun u hu => by cases hu⟩
          change u ∈ (s.wakeAll io).2.q at hu
          rwa [wakeAll, hq] at hu
        exact (scheduleThreadSegment_law hwithin hlt).descheduled rfl hthreads hrun hlt

theorem soWaitSegment_ret (s : Scheduler) (io : UInt32) : ∃ v, (s.soWaitSegment io).1 = .int v := by
  unfold soWaitSegment
  cases s.runningThread with
  | none => exact ⟨_, rfl⟩
  | some r =>
      dsimp only
      split_ifs <;> exact ⟨_, rfl⟩

theorem soSignalSegment_ret (s : Scheduler) (io : UInt32) :
    ∃ v, (s.soSignalSegment io).1 = .int v := by
  unfold soSignalSegment
  cases s.runningThread with
  | none => exact ⟨_, rfl⟩
  | some r =>
      dsimp only
      split_ifs <;> exact ⟨_, rfl⟩

/-- A call of `so_fork` is rejected, or a new thread is scheduled. -/
theorem soForkSegment_cases (s : Scheduler) (func : Option HandlerPtr) (priority : UInt32) :
    s.soForkSegment func priority = (.tid none, ⟨s, none, []⟩) ∨
      ∃ func', func = some func' ∧ ¬priority > soMaxPrio ∧
        s.soForkSegment func priority = (.tid (some s.threads.length),
          (s.forked func' priority).scheduleThreadSegment s.threads.length) := by
  cases func with
  | none => exact Or.inl rfl
  | some func' =>
      by_cases hp : priority > soMaxPrio
      · exact Or.inl (if_pos hp)
      · exact Or.inr ⟨func', rfl, hp, if_neg hp⟩

/-- The end of a handler takes its thread off the CPU and waits for nothing. -/
theorem threadTaskSegment_law (h : s.Within n) (t : ThreadPtr) :
    (s.threadTaskSegment t).2.Law n (s.ended t) := by
  have hwithin : (s.ended t).Within n := ⟨h.q, fun u hu => by cases hu⟩
  exact checkPreemptSegment_idle_law hwithin rfl

end Laws

/-! ### The books of the system -/

/-- The pthreads there can be when `n` threads have been forked. -/
def pthreads (n : ℕ) : Finset Pthread := insert .main ((Finset.range n).image .task)

theorem task_mem_pthreads {n : ℕ} {t : ThreadPtr} : Pthread.task t ∈ pthreads n ↔ t < n := by
  simp [pthreads]

theorem main_mem_pthreads (n : ℕ) : Pthread.main ∈ pthreads n := Finset.mem_insert_self _ _

theorem pthreads_succ (n : ℕ) : pthreads (n + 1) = insert (.task n) (pthreads n) := by
  rw [pthreads, pthreads, Finset.range_add_one, Finset.image_insert, Finset.insert_comm]

/-- The waits on the semaphore of `v` in the code left to a pthread. -/
def waitsOn (v : ThreadPtr) (code : Option (List Pending)) : ℕ := (code.getD []).count (.semWait v)

/-- The waits on the semaphore of `v` that all pthreads have before them. -/
def Machine.waits (m : Machine) (v : ThreadPtr) : ℕ :=
  ∑ p ∈ pthreads m.sched.threads.length, waitsOn v (m.code p)

theorem sum_waitsOn_update {ps : Finset Pthread} {p : Pthread} (hp : p ∈ ps) (v : ThreadPtr)
    (code : Pthread → Option (List Pending)) (c : Option (List Pending)) :
    ∑ q ∈ ps, waitsOn v (Function.update code p c q) + waitsOn v (code p) =
      ∑ q ∈ ps, waitsOn v (code q) + waitsOn v c := by
  have hrest : ∑ q ∈ ps.erase p, waitsOn v (Function.update code p c q) =
      ∑ q ∈ ps.erase p, waitsOn v (code q) := by
    apply Finset.sum_congr rfl
    intro q hq
    rw [Function.update_of_ne (Finset.ne_of_mem_erase hq)]
  rw [← Finset.add_sum_erase ps _ hp, ← Finset.add_sum_erase ps (fun q => waitsOn v (code q)) hp,
    hrest, Function.update_self]
  omega

/-- Only threads that exist are named, and the semaphore of a live thread holds what the waits on it
and the CPU leave. -/
structure Machine.Books (m : Machine) : Prop where
  within : m.sched.Within m.sched.threads.length
  absent : ∀ t, m.sched.threads.length ≤ t → m.code (.task t) = none
  pending : ∀ p code, m.code p = some code → ∀ x ∈ code, x.thread < m.sched.threads.length
  token : ∀ v, m.code (.task v) ≠ none → m.sem v + 1 = m.waits v + m.sched.on v

namespace Machine.Books

variable {m : Machine} {p : Pthread} {old : List Pending}

theorem mem_pthreads (h : m.Books) (hcode : m.code p = some old) :
    p ∈ pthreads m.sched.threads.length := by
  cases p with
  | main => exact main_mem_pthreads _
  | task t =>
      apply task_mem_pthreads.mpr
      by_contra hlt
      rw [h.absent t (not_lt.mp hlt)] at hcode
      cases hcode

/-- A segment that keeps the books, executed by a pthread that keeps its other waits. -/
theorem execute (h : m.Books) (hcode : m.code p = some old) {segment : Segment}
    (hlaw : segment.Law m.sched.threads.length m.sched) {code : List Pending}
    (hnamed : ∀ x ∈ code, x.thread < m.sched.threads.length)
    (hcount : ∀ v, code.count (.semWait v) =
      segment.rest.count (.semWait v) + old.count (.semWait v)) :
    (m.execute p segment (some code)).Books := by
  have hlength : (m.execute p segment (some code)).sched.threads.length =
      m.sched.threads.length := congrArg List.length hlaw.threads
  have hne : ∀ t, m.sched.threads.length ≤ t → Pthread.task t ≠ p := by
    rintro t ht rfl
    rw [h.absent t ht] at hcode
    cases hcode
  refine ⟨?_, fun t ht => ?_, fun q c hq => ?_, fun v hv => ?_⟩
  · rw [hlength]
    exact hlaw.within
  · rw [hlength] at ht
    rw [Machine.execute_code_of_ne m (hne t ht)]
    exact h.absent t ht
  · rw [hlength]
    by_cases hqp : q = p
    · subst q
      rw [Machine.execute_code_self] at hq
      rw [← Option.some.inj hq]
      exact hnamed
    · rw [Machine.execute_code_of_ne m hqp] at hq
      exact h.pending q c hq
  · have hlive : m.code (.task v) ≠ none := by
      by_cases hvp : Pthread.task v = p
      · rw [hvp, hcode]
        nofun
      · intro hnone
        rw [Machine.execute_code_of_ne m hvp] at hv
        exact hv hnone
    have htoken := h.token v hlive
    have hsegment := hlaw.token v
    have hsum := sum_waitsOn_update (h.mem_pthreads hcode) v m.code (some code)
    have hwaits : (m.execute p segment (some code)).waits v =
        ∑ q ∈ pthreads m.sched.threads.length, waitsOn v (Function.update m.code p (some code) q) := by
      rw [Machine.waits, hlength]
      rfl
    have hold : waitsOn v (m.code p) = old.count (.semWait v) := by
      rw [hcode]
      rfl
    have hnew : waitsOn v (some code) = code.count (.semWait v) := rfl
    have hc := hcount v
    rw [Machine.execute_sem, hwaits]
    change m.sem v + segment.posts v + 1 = _ + segment.sched.on v
    unfold Machine.waits at htoken
    omega

/-- A pthread is let through a `sem_wait`. -/
theorem wait (h : m.Books) {t : ThreadPtr} (hcode : m.code p = some (.semWait t :: old))
    (hpos : 0 < m.sem t) :
    { m with
      sem := Function.update m.sem t (m.sem t - 1)
      code := Function.update m.code p (some old) : Machine }.Books := by
  refine ⟨h.within, fun u hu => ?_, fun q c hq => ?_, fun v hv => ?_⟩
  · have hne : Pthread.task u ≠ p := by
      rintro rfl
      rw [h.absent u hu] at hcode
      cases hcode
    exact (Function.update_of_ne hne _ _).trans (h.absent u hu)
  · by_cases hqp : q = p
    · subst q
      have hc : some old = some c := (Function.update_self p (some old) m.code).symm.trans hq
      obtain rfl := Option.some.inj hc
      exact fun x hx => h.pending p _ hcode x (List.mem_cons_of_mem _ hx)
    · exact h.pending q c ((Function.update_of_ne hqp (some old) m.code).symm.trans hq)
  · have hlive : m.code (.task v) ≠ none := by
      by_cases hvp : Pthread.task v = p
      · rw [hvp, hcode]
        nofun
      · intro hnone
        exact hv ((Function.update_of_ne hvp (some old) m.code).trans hnone)
    have htoken := h.token v hlive
    have hsum := sum_waitsOn_update (h.mem_pthreads hcode) v m.code (some old)
    rw [hcode] at hsum
    change Function.update m.sem t (m.sem t - 1) v + 1 =
      ∑ q ∈ pthreads m.sched.threads.length, waitsOn v (Function.update m.code p (some old) q) +
        m.sched.on v
    unfold Machine.waits at htoken
    by_cases hvt : v = t
    · subst v
      have hhead : waitsOn t (some (.semWait t :: old)) = waitsOn t (some old) + 1 :=
        List.count_cons_self
      rw [Function.update_self]
      omega
    · have hhead : waitsOn v (some (.semWait t :: old)) = waitsOn v (some old) := by
        apply List.count_cons_of_ne
        intro heq
        exact hvt (Pending.semWait.inj heq).symm
      rw [Function.update_of_ne hvt]
      omega

/-- Nobody waits on the semaphore of a thread that does not exist. -/
theorem waits_absent (h : m.Books) {v : ThreadPtr} (hv : m.sched.threads.length ≤ v) :
    m.waits v = 0 := by
  apply Finset.sum_eq_zero
  intro q hq
  apply List.count_eq_zero.mpr
  intro hx
  cases hcode : m.code q with
  | none =>
      rw [hcode] at hx
      cases hx
  | some c =>
      rw [hcode] at hx
      exact absurd hv (Nat.not_le.mpr (h.pending q c hcode _ hx))

/-- A new thread adds its own wait. -/
theorem waits_spawn (m : Machine) (func : HandlerPtr) (priority : UInt32) (v : ThreadPtr) :
    { m.spawn (.tid (some m.sched.threads.length)) with
      sched := m.sched.forked func priority : Machine }.waits v =
      [Pending.semWait m.sched.threads.length].count (.semWait v) + m.waits v := by
  have hlength : (m.sched.forked func priority).threads.length = m.sched.threads.length + 1 :=
    List.length_append
  have hmem : Pthread.task m.sched.threads.length ∉ pthreads m.sched.threads.length :=
    fun hmem => lt_irrefl _ (task_mem_pthreads.mp hmem)
  have hrest : ∑ q ∈ pthreads m.sched.threads.length, waitsOn v
      (Function.update m.code (.task m.sched.threads.length)
        (some [.semWait m.sched.threads.length]) q) = m.waits v := by
    apply Finset.sum_congr rfl
    intro q hq
    have hne : q ≠ .task m.sched.threads.length := by
      rintro rfl
      exact hmem hq
    rw [Function.update_of_ne hne]
  unfold Machine.waits
  dsimp only
  rw [hlength, pthreads_succ, Finset.sum_insert hmem]
  refine congrArg₂ _ ?_ hrest
  exact congrArg (waitsOn v) (Function.update_self _ _ m.code)

/-- A thread enters with a wait on its own semaphore. -/
theorem spawn (h : m.Books) (func : HandlerPtr) (priority : UInt32) :
    { m.spawn (.tid (some m.sched.threads.length)) with
      sched := m.sched.forked func priority : Machine }.Books := by
  have hlength : (m.sched.forked func priority).threads.length = m.sched.threads.length + 1 :=
    List.length_append
  refine ⟨?_, fun t ht => ?_, fun q c hq => ?_, fun v hv => ?_⟩
  · dsimp only
    rw [hlength]
    exact ⟨fun t ht => (h.within.q t ht).trans (Nat.lt_succ_self _),
      fun r hr => (h.within.running r hr).trans (Nat.lt_succ_self _)⟩
  · dsimp only at ht
    rw [hlength] at ht
    have hne : Pthread.task t ≠ .task m.sched.threads.length := by
      intro heq
      exact (Nat.lt_of_succ_le ht).ne' (Pthread.task.inj heq)
    exact (Function.update_of_ne hne _ _).trans (h.absent t (by omega))
  · dsimp only
    rw [hlength]
    change Function.update m.code _ _ q = some c at hq
    by_cases hqn : q = .task m.sched.threads.length
    · subst q
      rw [Function.update_self] at hq
      obtain rfl := Option.some.inj hq
      intro x hx
      rw [List.mem_singleton.mp hx]
      exact Nat.lt_succ_self _
    · rw [Function.update_of_ne hqn] at hq
      exact fun x hx => (h.pending q c hq x hx).trans (Nat.lt_succ_self _)
  · rw [waits_spawn]
    change Function.update m.sem m.sched.threads.length 0 v + 1 = _ + m.sched.on v
    by_cases hvn : v = m.sched.threads.length
    · have hon : m.sched.on v = 0 := by
        apply if_neg
        intro hr
        exact (h.within.running v hr).ne hvn
      rw [hon, h.waits_absent hvn.ge, hvn, Function.update_self, List.count_singleton]
      simp
    · have hlive : m.code (.task v) ≠ none := by
        change Function.update m.code _ _ _ ≠ none at hv
        rwa [Function.update_of_ne fun heq => hvn (Pthread.task.inj heq)] at hv
      have htoken := h.token v hlive
      have hcount : [Pending.semWait m.sched.threads.length].count (.semWait v) = 0 := by
        apply List.count_eq_zero.mpr
        intro hx
        exact hvn (Pending.semWait.inj (List.mem_singleton.mp hx))
      rw [Function.update_of_ne hvn, hcount]
      omega

/-- The running task's handler has returned, and its pthread ends. -/
theorem ended (h : m.Books) {t : ThreadPtr} (hcode : m.code (.task t) = some [])
    (hr : m.sched.runningThread = some t) :
    (m.execute (.task t) (m.sched.threadTaskSegment t).2 none).Books := by
  have hlaw := threadTaskSegment_law h.within t
  have hlength : (m.execute (.task t) (m.sched.threadTaskSegment t).2 none).sched.threads.length =
      m.sched.threads.length := congrArg List.length hlaw.threads
  refine ⟨?_, fun u hu => ?_, fun q c hq => ?_, fun v hv => ?_⟩
  · rw [hlength]
    exact hlaw.within
  · rw [hlength] at hu
    by_cases hut : Pthread.task u = .task t
    · rw [hut, Machine.execute_code_self]
    · rw [Machine.execute_code_of_ne m hut]
      exact h.absent u hu
  · rw [hlength]
    by_cases hqt : q = .task t
    · rw [hqt, Machine.execute_code_self] at hq
      cases hq
    · rw [Machine.execute_code_of_ne m hqt] at hq
      exact h.pending q c hq
  · have hvt : Pthread.task v ≠ .task t := by
      intro heq
      rw [heq, Machine.execute_code_self] at hv
      exact hv rfl
    rw [Machine.execute_code_of_ne m hvt] at hv
    have htoken := h.token v hv
    have hon : m.sched.on v = 0 := by
      apply if_neg
      rw [hr]
      intro heq
      exact hvt (congrArg Pthread.task (Option.some.inj heq).symm)
    have hsegment := hlaw.token v
    have hrest : (m.sched.threadTaskSegment t).2.rest = [] := by
      rcases hlaw.last with hrest | ⟨r, hr', -⟩
      · exact hrest
      · cases hr'
    rw [on_idle rfl, hrest, List.count_nil] at hsegment
    have hsum := sum_waitsOn_update (h.mem_pthreads hcode) v m.code none
    rw [hcode] at hsum
    have hempty : waitsOn v (some []) = waitsOn v none := rfl
    have hwaits : (m.execute (.task t) (m.sched.threadTaskSegment t).2 none).waits v =
        ∑ q ∈ pthreads m.sched.threads.length, waitsOn v (Function.update m.code (.task t) none q) := by
      rw [Machine.waits, hlength]
      rfl
    rw [Machine.execute_sem, hwaits]
    change _ = _ + (m.sched.threadTaskSegment t).2.sched.on v
    unfold Machine.waits at htoken
    omega

end Machine.Books

/-- No ready thread, the one that is put back included, takes the CPU from `v`: none has a greater
priority, nor the same one when `v` has its last time unit. -/
def Scheduler.Unpreempted (s : Scheduler) (t v : ThreadPtr) : Prop :=
  ∀ u, u ∈ s.q ∨ u = t → (s.thread u).state ≠ .waiting →
    s.prio u ≤ s.prio v ∧ ((s.thread v).timeQuantum = 1 → s.prio u < s.prio v)

/-- A pthread that goes on with `schedule_thread` finds no running task in handler code that the
queue would take off the CPU, and a task that leaves its last `sem_wait` leaves enough posts for
every other pthread that waits on the same semaphore. -/
def Undisturbed (m : Machine) (a : Action) : Prop :=
  ∀ p, a = .resume p →
    (∀ t rest v, m.code p = some (.schedule t :: rest) → m.sched.runningThread = some v →
      m.InHandler v → m.sched.Unpreempted t v) ∧
    ∀ v, p = .task v → m.code p = some [.semWait v] → m.waits v ≤ m.sem v

/-- Every task in handler code is `running_thread`, and every other live task has its own
`sem_wait` as the end of the call it is in. -/
structure Machine.OneTask (m : Machine) : Prop where
  books : m.Books
  returning : ∀ t code, m.code (.task t) = some code →
    code = [] ∨ code.getLast? = some (.semWait t)
  handler : ∀ t, m.InHandler t → m.sched.runningThread = some t

theorem Segment.Law.still {n : ℕ} {s : Scheduler} {segment : Segment} (h : segment.Law n s)
    (hrest : segment.rest = []) {r : ThreadPtr} (hr : s.runningThread = some r) :
    segment.sched.runningThread = some r := by
  have htoken := h.token r
  rw [hrest, List.count_nil, on_running hr] at htoken
  by_contra hne
  have hon : segment.sched.on r = 0 := if_neg hne
  omega

/-- A thread whose quantum is over is served again if its priority is above that of every other
ready thread. -/
theorem front_requeue_expire {s : Scheduler} {v : ThreadPtr}
    (hmax : ∀ u ∈ s.q, s.notWaiting u = true → u ≠ v → s.prio u < s.prio v) :
    (((s.charge v).expire v).requeue v).front = some v := by
  rw [front, requeue_q, notWaiting_requeue]
  apply find_insert_of_lt _ notWaiting_expire
  intro u hu hw huv
  rw [expire_prio]
  refine hmax u hu ?_ huv
  rw [expire_charge] at hw
  unfold notWaiting at hw ⊢
  rwa [modify_thread, if_neg huv] at hw

/-- The CPU stays with a running task that the queue does not want to replace. -/
theorem scheduleThreadSegment_keeps {s : Scheduler} {t v : ThreadPtr}
    (hr : s.runningThread = some v) (hkeep : s.Unpreempted t v) :
    (s.scheduleThreadSegment t).sched.runningThread = some v := by
  have hr' : (s.requeue t).runningThread = some v := (requeue_runningThread s t).trans hr
  have hready : ∀ u ∈ (s.requeue t).q, (s.requeue t).notWaiting u = true →
      s.prio u ≤ s.prio v ∧ ((s.thread v).timeQuantum = 1 → s.prio u < s.prio v) := by
    intro u hu hw
    rw [notWaiting_requeue, notWaiting_iff] at hw
    exact hkeep u (mem_requeue_q.mp hu).symm hw
  rw [scheduleThreadSegment_eq]
  cases hf : (s.requeue t).front with
  | none =>
      rw [checkPreemptSegment_none]
      exact hr'
  | some f =>
      have hle : (s.requeue t).prio f ≤ (s.requeue t).prio v := by
        rw [requeue_prio]
        exact (hready f (front_mem hf) (front_notWaiting hf)).1
      rw [checkPreemptSegment_exec hr' hle]
      by_cases hleft : (((s.requeue t).charge v).thread v).timeQuantum = 0
      · have hone : (s.thread v).timeQuantum = 1 := by
          unfold charge at hleft
          rw [modify_thread, if_pos rfl, requeue_thread] at hleft
          split_ifs at hleft <;> exact sub_eq_zero.mp hleft
        have hfront := @front_requeue_expire (s.requeue t) v fun u hu hw _ => by
          rw [requeue_prio]
          exact (hready u hu hw).2 hone
        rw [soExecSegment_expire hr' hleft, scheduleThreadSegment_eq, hfront,
          checkPreemptSegment_idle (requeue_runningThread _ _)]
        rfl
      · rw [soExecSegment_charge hr' hleft]
        exact hr'

/-- A running caller's call ends with its own `sem_wait`, or the caller keeps the CPU. -/
theorem Segment.Law.of_running {n : ℕ} {s : Scheduler} {segment : Segment} (h : segment.Law n s)
    {t : ThreadPtr} (hr : s.runningThread = some t) :
    segment.rest = [] ∨ segment.rest.getLast? = some (.semWait t) := by
  rcases h.last with hrest | ⟨r, hr', hlast⟩
  · exact Or.inl hrest
  · rw [hr] at hr'
    obtain rfl := Option.some.inj hr'
    exact Or.inr hlast

namespace Machine

variable {m m' : Machine} {p : Pthread} {op : Op} {ret : Ret}

theorem call_eq (h : m.call p op = some (ret, m')) :
    m.code p = some [] ∧ ∃ segment, m.sched.enter p op = some (ret, segment) ∧
      m' = (m.spawn ret).execute p segment (if op = .ret then none else some segment.rest) := by
  unfold call at h
  split at h
  · next ret' segment hcode henter =>
      obtain ⟨rfl, rfl⟩ := Prod.mk.inj (Option.some.inj h)
      exact ⟨hcode, segment, henter, rfl⟩
  · cases h

theorem resume_cases (h : m.resume p = some m') :
    (∃ t rest, m.code p = some (.schedule t :: rest) ∧
      m' = m.execute p (m.sched.scheduleThreadSegment t)
        (some ((m.sched.scheduleThreadSegment t).rest ++ rest))) ∨
    ∃ t rest, m.code p = some (.semWait t :: rest) ∧ 0 < m.sem t ∧
      m' = { m with
        sem := Function.update m.sem t (m.sem t - 1)
        code := Function.update m.code p (some rest) } := by
  unfold resume at h
  split at h
  · next t rest hcode => exact Or.inl ⟨t, rest, hcode, (Option.some.inj h).symm⟩
  · next t rest hcode =>
      split_ifs at h with hpos
      exact Or.inr ⟨t, rest, hcode, hpos, (Option.some.inj h).symm⟩
  · cases h

namespace OneTask

theorem books_running (h : m.OneTask) {r : ThreadPtr} (hr : m.sched.runningThread = some r) :
    m.sched.threads ≠ [] := by
  intro hempty
  have hlt := h.books.within.running r hr
  rw [hempty] at hlt
  exact absurd hlt (Nat.not_lt_zero r)

/-- A new thread is not in handler code. -/
theorem spawn (h : m.OneTask) (func : HandlerPtr) (priority : UInt32) :
    { m.spawn (.tid (some m.sched.threads.length)) with
      sched := m.sched.forked func priority : Machine }.OneTask := by
  refine ⟨h.books.spawn func priority, fun t code hcode => ?_, fun t ht => ?_⟩
  · change Function.update m.code _ _ _ = _ at hcode
    by_cases hnew : Pthread.task t = .task m.sched.threads.length
    · obtain rfl := Pthread.task.inj hnew
      rw [Function.update_self] at hcode
      obtain rfl := Option.some.inj hcode
      exact Or.inr rfl
    · rw [Function.update_of_ne hnew] at hcode
      exact h.returning t code hcode
  · change Function.update m.code _ _ _ = _ at ht
    by_cases hnew : Pthread.task t = .task m.sched.threads.length
    · rw [hnew, Function.update_self] at ht
      cases ht
    · rw [Function.update_of_ne hnew] at ht
      exact h.handler t ht

/-- The first segment of a call other than the end of a handler, seen from the system in which a
thread that `so_fork` creates already exists. -/
theorem enter_cases (h : m.OneTask) (hcode : m.code p = some []) {segment : Segment}
    (henter : m.sched.enter p op = some (ret, segment)) (hop : op ≠ .ret) :
    ∃ m₁ : Machine, m₁.OneTask ∧ m₁.code p = some [] ∧
      m₁.sched.runningThread = m.sched.runningThread ∧
      (∀ t, m₁.InHandler t → m.InHandler t) ∧
      segment.Law m₁.sched.threads.length m₁.sched ∧
      ∀ code, (m.spawn ret).execute p segment code = m₁.execute p segment code := by
  have hwithin := h.books.within
  have hint : ∀ v, ret = .int v → m.spawn ret = m := by
    rintro v rfl
    rfl
  cases op with
  | ret => exact absurd rfl hop
  | wait io =>
      have hlaw := soWaitSegment_law hwithin io
      obtain ⟨v, hv⟩ := soWaitSegment_ret m.sched io
      obtain ⟨hret, rfl⟩ := Prod.mk.inj (Option.some.inj henter)
      refine ⟨m, h, hcode, rfl, fun _ => id, hlaw, fun code => ?_⟩
      rw [hint v (hret.symm.trans hv)]
  | signal io =>
      have hlaw := soSignalSegment_law hwithin io
      obtain ⟨v, hv⟩ := soSignalSegment_ret m.sched io
      obtain ⟨hret, rfl⟩ := Prod.mk.inj (Option.some.inj henter)
      refine ⟨m, h, hcode, rfl, fun _ => id, hlaw, fun code => ?_⟩
      rw [hint v (hret.symm.trans hv)]
  | exec =>
      obtain ⟨rfl, rfl⟩ := Prod.mk.inj (Option.some.inj henter)
      exact ⟨m, h, hcode, rfl, fun _ => id, soExecSegment_law hwithin, fun _ => rfl⟩
  | fork func priority =>
      rcases soForkSegment_cases m.sched func priority with heq | ⟨func', -, -, heq⟩
      · obtain ⟨rfl, rfl⟩ := Prod.mk.inj (heq.symm.trans (Option.some.inj henter))
        exact ⟨m, h, hcode, rfl, fun _ => id, .of_same rfl hwithin rfl, fun _ => rfl⟩
      · obtain ⟨rfl, rfl⟩ := Prod.mk.inj (heq.symm.trans (Option.some.inj henter))
        have hspawn := h.spawn func' priority
        have hne : p ≠ .task m.sched.threads.length := by
          rintro rfl
          rw [h.books.absent _ le_rfl] at hcode
          cases hcode
        refine ⟨_, hspawn, (Function.update_of_ne hne _ _).trans hcode, rfl, fun t ht => ?_,
          scheduleThreadSegment_law hspawn.books.within ?_, fun _ => rfl⟩
        · change Function.update m.code _ _ _ = _ at ht
          by_cases hnew : Pthread.task t = .task m.sched.threads.length
          · rw [hnew, Function.update_self] at ht
            cases ht
          · rwa [Function.update_of_ne hnew] at ht
        · have hlength : (m.sched.forked func' priority).threads.length =
              m.sched.threads.length + 1 := List.length_append
          exact hlength ▸ Nat.lt_succ_self _

theorem call (h : m.OneTask) (hcall : m.call p op = some (ret, m'))
    (hmain : p = .main → m.sched.threads = []) : m'.OneTask := by
  obtain ⟨hcode, segment, henter, rfl⟩ := call_eq hcall
  -- Nobody else is in handler code when a call starts.
  have halone : ∀ t, m.InHandler t → Pthread.task t = p := by
    intro t ht
    have hr := h.handler t ht
    cases p with
    | main => exact absurd (hmain rfl) (h.books_running hr)
    | task u =>
        rw [h.handler u hcode] at hr
        exact congrArg Pthread.task (Option.some.inj hr).symm
  by_cases hop : op = .ret
  · subst op
    cases p with
    | main => cases henter
    | task t =>
        have hbooks := h.books.ended hcode (h.handler t hcode)
        obtain ⟨rfl, rfl⟩ := Prod.mk.inj (Option.some.inj henter)
        rw [if_pos rfl]
        refine ⟨hbooks, fun u code hu => ?_, fun u hu => ?_⟩
        · by_cases hut : Pthread.task u = .task t
          · rw [hut] at hu
            cases (execute_code_self _ _ _ _).symm.trans hu
          · exact h.returning u code ((execute_code_of_ne _ hut _ _).symm.trans hu)
        · by_cases hut : Pthread.task u = .task t
          · unfold InHandler at hu
            rw [hut] at hu
            cases (execute_code_self _ _ _ _).symm.trans hu
          · exact absurd (halone u ((execute_code_of_ne _ hut _ _).symm.trans hu)) hut
  · rw [if_neg hop]
    obtain ⟨m₁, h₁, hcode₁, hrun, hsame, hlaw, hexecute⟩ := h.enter_cases hcode henter hop
    rw [hexecute]
    refine ⟨h₁.books.execute hcode₁ hlaw hlaw.rest fun v => rfl, fun u code hu => ?_, fun u hu => ?_⟩
    · by_cases hup : Pthread.task u = p
      · subst p
        rw [execute_code_self] at hu
        rw [← Option.some.inj hu]
        exact hlaw.of_running (hrun.trans (h.handler u hcode))
      · exact h₁.returning u code ((execute_code_of_ne _ hup _ _).symm.trans hu)
    · by_cases hup : Pthread.task u = p
      · subst p
        unfold InHandler at hu
        rw [execute_code_self] at hu
        exact hlaw.still (Option.some.inj hu) (hrun.trans (h.handler u hcode))
      · have hu₁ := (execute_code_of_ne _ hup _ _).symm.trans hu
        exact absurd (halone u (hsame u hu₁)) hup

/-- A task that goes on with `schedule_thread` still has its own wait before it. -/
theorem wait_last (h : m.OneTask) {u t : ThreadPtr} {rest : List Pending}
    (hcode : m.code (.task u) = some (.schedule t :: rest)) :
    rest.getLast? = some (.semWait u) := by
  rcases h.returning u _ hcode with hnil | hlast
  · cases hnil
  · rw [List.getLast?_cons] at hlast
    cases hrest : rest.getLast? with
    | none =>
        rw [hrest] at hlast
        cases hlast
    | some x =>
        rw [hrest] at hlast
        exact hlast

/-- A pthread goes on with `schedule_thread`. -/
theorem schedules (h : m.OneTask) {t : ThreadPtr} {rest : List Pending}
    (hcode : m.code p = some (.schedule t :: rest))
    (hkeep : ∀ u, m.sched.runningThread = some u → m.InHandler u →
      (m.sched.scheduleThreadSegment t).sched.runningThread = some u) :
    (m.execute p (m.sched.scheduleThreadSegment t)
      (some ((m.sched.scheduleThreadSegment t).rest ++ rest))).OneTask := by
  have hlt : t < m.sched.threads.length := h.books.pending p _ hcode _ List.mem_cons_self
  have hlaw := scheduleThreadSegment_law h.books.within hlt
  have hnamed : ∀ x ∈ (m.sched.scheduleThreadSegment t).rest ++ rest,
      x.thread < m.sched.threads.length := by
    intro x hx
    rcases List.mem_append.mp hx with hx | hx
    · exact hlaw.rest x hx
    · exact h.books.pending p _ hcode x (List.mem_cons_of_mem _ hx)
  have hcount : ∀ v, ((m.sched.scheduleThreadSegment t).rest ++ rest).count (.semWait v) =
      (m.sched.scheduleThreadSegment t).rest.count (.semWait v) +
        (Pending.schedule t :: rest).count (.semWait v) := by
    intro v
    have hhead : (Pending.schedule t :: rest).count (.semWait v) = rest.count (.semWait v) :=
      List.count_cons_of_ne (by simp)
    rw [List.count_append, hhead]
  refine ⟨h.books.execute hcode hlaw hnamed hcount, fun u code hu => ?_, fun u hu => ?_⟩
  · by_cases hup : Pthread.task u = p
    · subst p
      rw [execute_code_self] at hu
      rw [← Option.some.inj hu, List.getLast?_append, h.wait_last hcode]
      exact Or.inr rfl
    · exact h.returning u code ((execute_code_of_ne _ hup _ _).symm.trans hu)
  · by_cases hup : Pthread.task u = p
    · subst p
      have hlast := h.wait_last hcode
      unfold InHandler at hu
      rw [execute_code_self] at hu
      rw [(List.append_eq_nil_iff.mp (Option.some.inj hu)).2] at hlast
      cases hlast
    · have hu' := (execute_code_of_ne _ hup _ _).symm.trans hu
      exact hkeep u (h.handler u hu') hu'

/-- A pthread passes a `sem_wait`. -/
theorem leaves_wait (h : m.OneTask) {t : ThreadPtr} {rest : List Pending}
    (hcode : m.code p = some (.semWait t :: rest)) (hpos : 0 < m.sem t)
    (hleave : ∀ u, p = .task u → m.code p = some [.semWait u] → m.waits u ≤ m.sem u) :
    ({ m with
      sem := Function.update m.sem t (m.sem t - 1)
      code := Function.update m.code p (some rest) } : Machine).OneTask := by
  refine ⟨h.books.wait hcode hpos, fun u code hu => ?_, fun u hu => ?_⟩
  · change Function.update m.code _ _ _ = _ at hu
    by_cases hup : Pthread.task u = p
    · rw [hup, Function.update_self] at hu
      obtain rfl := Option.some.inj hu
      rw [← hup] at hcode
      rcases h.returning u _ hcode with hnil | hlast
      · cases hnil
      · cases rest with
        | nil => exact Or.inl rfl
        | cons x rest => exact Or.inr hlast
    · rw [Function.update_of_ne hup] at hu
      exact h.returning u code hu
  · change Function.update m.code _ _ _ = _ at hu
    by_cases hup : Pthread.task u = p
    · rw [hup, Function.update_self] at hu
      obtain rfl := Option.some.inj hu
      rw [← hup] at hcode
      obtain rfl : t = u := by
        rcases h.returning u _ hcode with hnil | hlast
        · cases hnil
        · exact Pending.semWait.inj (Option.some.inj hlast)
      have henough := hleave t hup.symm (hup ▸ hcode)
      have htoken := h.books.token t (by
        rw [hcode]
        nofun)
      change m.sched.runningThread = some t
      by_contra hne
      have hon : m.sched.on t = 0 := if_neg hne
      omega
    · rw [Function.update_of_ne hup] at hu
      exact h.handler u hu

theorem resume (h : m.OneTask) (hresume : m.resume p = some m') (hok : Undisturbed m (.resume p)) :
    m'.OneTask := by
  obtain ⟨hkeep, hleave⟩ := hok p rfl
  rcases resume_cases hresume with ⟨t, rest, hcode, rfl⟩ | ⟨t, rest, hcode, hpos, rfl⟩
  · exact h.schedules hcode fun u hr hu =>
      scheduleThreadSegment_keeps hr (hkeep t rest u hcode hr hu)
  · exact h.leaves_wait hcode hpos hleave

theorem step (h : m.OneTask) {a : Action} (hstep : Interleaved m a m') (hok : Undisturbed m a) :
    m'.OneTask := by
  obtain ⟨hmain, hact⟩ := interleave_eq hstep
  cases a with
  | call p op =>
      obtain ⟨⟨ret, m''⟩, hcall, rfl⟩ := Option.map_eq_some_iff.mp hact
      apply h.call hcall
      rintro rfl
      exact hmain op rfl
  | resume p => exact h.resume hact hok

theorem boot (timeQuantum io : UInt32) : (boot (Scheduler.start timeQuantum io)).OneTask := by
  have htask : ∀ t, (Machine.boot (Scheduler.start timeQuantum io)).code (.task t) = none :=
    fun t => rfl
  refine ⟨⟨⟨nofun, nofun⟩, fun t _ => htask t, fun p code hcode => ?_, fun v hv => ?_⟩,
    fun t code hcode => ?_, fun t ht => ?_⟩
  · change (if p = .main then some [] else none) = some code at hcode
    split_ifs at hcode
    obtain rfl := Option.some.inj hcode
    nofun
  · exact absurd (htask v) hv
  · rw [htask t] at hcode
    cases hcode
  · cases (htask t).symm.trans ht

end OneTask
end Machine

/-- In every interleaving whose steps are undisturbed a task in handler code is `running_thread`,
so at most one task is in handler code. -/
theorem uniprocessor {timeQuantum io : UInt32} {s₀ : Scheduler} {m : Machine} {as : List Action}
    (hinit : soInit none timeQuantum io = (0, some s₀))
    (hrun : Run (Guarded Undisturbed Interleaved) (Machine.boot s₀) as m) :
    (∀ t, m.InHandler t → m.sched.runningThread = some t) ∧
      ∀ t u, m.InHandler t → m.InHandler u → t = u := by
  obtain ⟨-, -, rfl⟩ := soInit_eq hinit
  have h : m.OneTask := hrun.invariant (fun _ _ _ hm hstep => hm.step hstep.2 hstep.1)
    (Machine.OneTask.boot timeQuantum io)
  refine ⟨h.handler, fun t u ht hu => ?_⟩
  have heq := (h.handler t ht).symm.trans (h.handler u hu)
  exact Option.some.inj heq

theorem undisturbed_wait {m : Machine} {v : ThreadPtr} (hcode : m.code (.task v) = some [.semWait v])
    (henough : m.waits v ≤ m.sem v) : Undisturbed m (.resume (.task v)) := by
  rintro p hp
  obtain rfl := Action.resume.inj hp
  refine ⟨fun t rest u hschedule => ?_, fun u hu _ => ?_⟩
  · cases hcode.symm.trans hschedule
  · obtain rfl := Pthread.task.inj hu
    exact henough

theorem undisturbed_schedule {m : Machine} {p : Pthread} {t r : ThreadPtr} {rest : List Pending}
    (hcode : m.code p = some (.schedule t :: rest)) (hr : m.sched.runningThread = some r)
    (hkeep : m.sched.Unpreempted t r) : Undisturbed m (.resume p) := by
  rintro p' hp
  obtain rfl := Action.resume.inj hp
  refine ⟨fun t' rest' u hschedule hu _ => ?_, fun u _ hwait => ?_⟩
  · obtain ⟨hfirst, -⟩ := List.cons.inj (Option.some.inj (hcode.symm.trans hschedule))
    obtain rfl := Pending.schedule.inj hfirst
    obtain rfl := Option.some.inj (hr.symm.trans hu)
    exact hkeep
  · cases hcode.symm.trans hwait

/-- The handler of thread 0 forks thread 1 of higher priority, which starts before thread 0 is put
back into the queue. -/
def firstForked : Machine :=
  ((Machine.boot (Scheduler.start 5 1)).interleave (.call .main (.fork (some 1) 1))).get
    (by decide +kernel)

def firstStarted : Machine := (firstForked.interleave (.resume (.task 0))).get (by decide +kernel)

def secondForked : Machine :=
  (firstStarted.interleave (.call (.task 0) (.fork (some 2) 2))).get (by decide +kernel)

def secondStarted : Machine := (secondForked.interleave (.resume (.task 1))).get (by decide +kernel)

def firstQueued : Machine := (secondStarted.interleave (.resume (.task 0))).get (by decide +kernel)

theorem run_firstQueued : Run (Guarded Undisturbed Interleaved)
    (Machine.boot (Scheduler.start 5 1))
    [.call .main (.fork (some 1) 1), .resume (.task 0), .call (.task 0) (.fork (some 2) 2),
      .resume (.task 1), .resume (.task 0)] firstQueued := by
  have hkeep : secondStarted.sched.Unpreempted 0 1 := by
    rintro u (hu | rfl) -
    · have hq : secondStarted.sched.q = [] := by decide +kernel
      rw [hq] at hu
      cases hu
    · decide +kernel
  exact
    .cons ⟨nofun, (Option.some_get _).symm⟩ <|
    .cons ⟨undisturbed_wait (by decide +kernel) (by decide +kernel), (Option.some_get _).symm⟩ <|
    .cons ⟨nofun, (Option.some_get _).symm⟩ <|
    .cons ⟨undisturbed_wait (by decide +kernel) (by decide +kernel), (Option.some_get _).symm⟩ <|
    .single ⟨@undisturbed_schedule _ _ _ _ [.semWait 0] (by decide +kernel) (by decide +kernel) hkeep,
      (Option.some_get _).symm⟩

/-- The preempted thread is back in the queue and the new one in handler code. -/
theorem uniprocessor_firstQueued :
    secondStarted.code (.task 0) = some [.schedule 0, .semWait 0] ∧ firstQueued.sched.q = [0] ∧
      firstQueued.InHandler 1 ∧ firstQueued.sched.runningThread = some 1 ∧
      ∀ t, firstQueued.InHandler t → t = 1 := by
  have hhandler : firstQueued.InHandler 1 := by
    change firstQueued.code (.task 1) = some []
    decide +kernel
  obtain ⟨hcpu, hone⟩ := @uniprocessor 5 1 _ _ _ rfl run_firstQueued
  exact ⟨by decide +kernel, by decide +kernel, hhandler, hcpu 1 hhandler,
    fun t ht => hone t 1 ht hhandler⟩

/-- Thread 0 forks thread 1, then thread 2 of higher priority, whose pthread waits for a device and
so starts thread 1 before thread 0 has been put back into the queue. -/
def windowActions : List Action :=
  [.call .main (.fork (some 1) 1), .resume (.task 0), .call (.task 0) (.fork (some 2) 0),
    .call (.task 0) (.fork (some 3) 2), .resume (.task 2), .call (.task 2) (.wait 0),
    .resume (.task 1), .resume (.task 0)]

def windowMachine : Machine :=
  (windowActions.foldlM Machine.interleave (Machine.boot (Scheduler.start 5 1))).get
    (by decide +kernel)

/-- Thread 1 is in handler code while `running_thread` is thread 0. -/
theorem uniprocessor_disturbed : ¬∀ (timeQuantum io : UInt32) (s₀ : Scheduler) (m : Machine)
    (as : List Action), soInit none timeQuantum io = (0, some s₀) →
      Run Interleaved (Machine.boot s₀) as m →
      (∀ t, m.InHandler t → m.sched.runningThread = some t) ∧
        ∀ t u, m.InHandler t → m.InHandler u → t = u := by
  intro h
  have hrun : Run Interleaved (Machine.boot (Scheduler.start 5 1)) windowActions windowMachine :=
    .of_foldlM (Option.some_get _).symm
  have hhandler : windowMachine.code (.task 1) = some [] := by decide +kernel
  have hcpu : windowMachine.sched.runningThread = some 0 := by decide +kernel
  have hfalse := (h 5 1 _ _ _ rfl hrun).1 1 hhandler
  rw [hcpu] at hfalse
  cases hfalse

end OsHomeworks.ThreadScheduler
