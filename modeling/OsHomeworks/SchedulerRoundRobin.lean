import OsHomeworks.SchedulerSafety

/-! Bounded bypass. While a thread stays ready in the queue, every dispatch uses up the place that
the dispatched thread had ahead of it, and a thread that is put back goes behind those of its
priority: no thread of the same priority passes it twice. A thread that keeps the CPU meanwhile is
charged by every instruction it executes. -/

namespace OsHomeworks.ThreadScheduler

open StableQueue Runs Scheduler

/-- The threads made `running_thread` by a call, in order. -/
def dispatches (ops : List SemOp) : List ThreadPtr :=
  ops.filterMap fun
    | .post t => some t
    | .wait _ => none

/-- The threads made `running_thread` in a history, in order. -/
def dispatchedIn (history : List (Op × Outcome)) : List ThreadPtr :=
  history.flatMap fun label => dispatches label.2.ops

/-- A ready thread in the queue. -/
def Stays (t : ThreadPtr) (s : Scheduler) : Prop := t ∈ s.q ∧ s.notWaiting t = true

instance (t : ThreadPtr) (s : Scheduler) : Decidable (Stays t s) :=
  inferInstanceAs (Decidable (_ ∧ _))

instance (l : List ThreadPtr) (u t : ThreadPtr) : Decidable (Precedes l u t) :=
  inferInstanceAs (Decidable (List.Sublist _ _))

/-- How often `u` may still be dispatched before `t` moves. -/
def passes (s : Scheduler) (u t : ThreadPtr) : ℕ := if Precedes s.q u t then 1 else 0

/-- What the dispatches `ds` between two states did to a thread `t` that stayed ready; `prio` are
the priorities of all threads. -/
structure Bypass (prio : ThreadPtr → ℕ) (t : ThreadPtr) (s s' : Scheduler)
    (ds : List ThreadPtr) : Prop where
  above : ∀ f ∈ ds, prio t ≤ prio f
  once : ∀ u, u ≠ t → prio u = prio t → ds.count u + passes s' u t ≤ passes s u t

variable {prio : ThreadPtr → ℕ} {s s' s'' : Scheduler} {r t u f : ThreadPtr}

theorem passes_le_one : passes s u t ≤ 1 := by
  unfold passes
  split_ifs <;> omega

theorem passes_mono (h : Precedes s'.q u t → Precedes s.q u t) : passes s' u t ≤ passes s u t := by
  unfold passes
  split_ifs with h1 h2
  · exact le_rfl
  · exact absurd (h h1) h2
  · exact Nat.zero_le _
  · exact le_rfl

theorem Bypass.of_q_eq (h : s'.q = s.q) : Bypass prio t s s' [] :=
  ⟨fun f hf => absurd hf List.not_mem_nil, fun u _ _ => by simp [passes, h]⟩

theorem Bypass.trans {ds ds' : List ThreadPtr} (h : Bypass prio t s s' ds)
    (h' : Bypass prio t s' s'' ds') : Bypass prio t s s'' (ds ++ ds') := by
  refine ⟨fun f hf => ?_, fun u hu hprio => ?_⟩
  · rcases List.mem_append.mp hf with hf | hf
    · exact h.above f hf
    · exact h'.above f hf
  · have h1 := h.once u hu hprio
    have h2 := h'.once u hu hprio
    rw [List.count_append]
    omega

theorem Stays.requeue (h : Stays t s) : Stays t (s.requeue r) :=
  ⟨mem_requeue_q.mpr (Or.inr h.1), by rw [notWaiting_requeue, h.2]⟩

theorem Stays.dispatch {d : Option ThreadPtr} (hcore : Core s d) (hf : s.front = some f)
    (h : Stays t s) (hne : t ≠ f) : Stays t (s.dispatch f) :=
  ⟨(hcore.mem_dispatch_q hf).mpr ⟨h.1, hne⟩, by rw [notWaiting_dispatch_of_ne hne, h.2]⟩

/-- A thread that is put back goes behind those of its priority. -/
theorem Bypass.requeue (hcore : Core s (some r)) (hprio : ∀ u ∈ s.threads, s.prio u = prio u)
    (ht : t ∈ s.q) : Bypass prio t s (s.requeue r) [] := by
  obtain ⟨hr, hrq, -, -⟩ := hcore.apart r rfl
  have htr : t ≠ r := fun heq => hrq (heq ▸ ht)
  refine ⟨fun f hf => absurd hf List.not_mem_nil, fun u hut hu => ?_⟩
  rw [List.count_nil, Nat.zero_add]
  refine passes_mono fun hpre => ?_
  rw [requeue_q] at hpre
  by_cases hur : u = r
  · subst u
    have hle : s.prio r ≤ s.prio t := by
      rw [hprio r hr, hprio t (hcore.queued t ht).1, hu]
    have hnew := precedes_insert_new s.prio hcore.sorted ht hle
    exact absurd hpre (hnew.asymm (nodup_insert _ hrq hcore.nodup))
  · exact (precedes_insert_iff s.prio hrq hur htr).mp hpre

/-- A dispatch uses up the place of the dispatched thread ahead of a ready one. -/
theorem Bypass.dispatch {d : Option ThreadPtr} (hcore : Core s d)
    (hprio : ∀ u ∈ s.threads, s.prio u = prio u) (hf : s.front = some f) (h : Stays t s)
    (hne : t ≠ f) : Bypass prio t s (s.dispatch f) [f] := by
  have hpre : Precedes s.q f t := find_precedes hf h.1 h.2 hne
  refine ⟨fun g hg => ?_, fun u _ _ => ?_⟩
  · obtain rfl := List.mem_singleton.mp hg
    rw [← hprio t (hcore.queued t h.1).1, ← hprio g (hcore.queued g (front_mem hf)).1]
    exact hcore.le_front hf h.1 h.2
  · have hmono : passes (s.dispatch f) u t ≤ passes s u t :=
      passes_mono (Precedes.mono (List.eraseP_sublist (l := s.q)))
    by_cases huf : u = f
    · subst u
      have hgone : passes (s.dispatch f) f t = 0 :=
        if_neg fun hpre' => ((hcore.mem_dispatch_q hf).mp hpre'.mem_left).2 rfl
      have hhere : passes s f t = 1 := if_pos hpre
      rw [hgone, hhere, List.count_singleton_self]
    · rw [List.count_singleton, if_neg (by simpa using Ne.symm huf)]
      omega

/-- The caller's thread is put back and the queue is served. -/
theorem Bypass.reschedule (hcore : Core s (some r)) (hprio : ∀ u ∈ s.threads, s.prio u = prio u)
    (hf : (s.requeue r).front = some f) (h : Stays t s) (hne : t ≠ f) :
    Bypass prio t s ((s.requeue r).dispatch f) [f] := by
  have hprio' : ∀ u ∈ (s.requeue r).threads, (s.requeue r).prio u = prio u := by simpa using hprio
  exact (Bypass.requeue hcore hprio h.1).trans
    (Bypass.dispatch hcore.requeue hprio' hf h.requeue hne)

theorem ne_of_mem_dispatch {d : Option ThreadPtr} (hcore : Core s d) (hf : s.front = some f)
    (h : t ∈ (s.dispatch f).q) : t ≠ f := ((hcore.mem_dispatch_q hf).mp h).2

theorem Bypass.soExec (hinv : Inv s) (hr : s.runningThread = some r)
    (hprio : ∀ u ∈ s.threads, s.prio u = prio u) (h : Stays t s) (hend : t ∈ s.soExec.1.q) :
    Bypass prio t s s.soExec.1 (dispatches s.soExec.2) := by
  rcases soExec_cases hr with ⟨-, heq⟩ | ⟨f, -, hf, heq⟩
  · rw [heq]
    exact .of_q_eq rfl
  · rw [heq] at hend ⊢
    have hcore := hinv.toCore.expire hr
    have hprio' : ∀ u ∈ ((s.charge r).expire r).threads,
        ((s.charge r).expire r).prio u = prio u := by
      intro u hu
      rw [expire_prio]
      exact hprio u hu
    have hstay : Stays t ((s.charge r).expire r) := by
      refine ⟨h.1, ?_⟩
      have hne : t ≠ r := fun heq => (hinv.running r hr).2.1 (heq ▸ h.1)
      rw [expire_charge]
      unfold notWaiting
      rw [modify_thread, if_neg hne]
      exact h.2
    have hkeep : Bypass prio t s ((s.charge r).expire r) [] := .of_q_eq rfl
    exact hkeep.trans (Bypass.reschedule hcore hprio' hf hstay (ne_of_mem_dispatch hcore.requeue hf hend))

theorem dispatches_append (ops ops' : List SemOp) :
    dispatches (ops ++ ops') = dispatches ops ++ dispatches ops' := List.filterMap_append

theorem Bypass.arrive (hcore : Core s (some u)) (hset : Settled s) (hw : s.notWaiting u = true)
    (hprio : ∀ u ∈ s.threads, s.prio u = prio u) (h : Stays t s)
    (hend : t ∈ (s.scheduleThread u).1.q) :
    Bypass prio t s (s.scheduleThread u).1 (dispatches (s.scheduleThread u).2) := by
  have htu : t ≠ u := fun heq => (hcore.apart u rfl).2.1 (heq ▸ h.1)
  have hreq : Bypass prio t s (s.requeue u) [] := Bypass.requeue hcore hprio h.1
  have hprio' : ∀ v ∈ (s.requeue u).threads, (s.requeue u).prio v = prio v := by simpa using hprio
  rcases hcore.arrive_cases hset hw with ⟨-, hf, heq⟩ | ⟨r, hrun, -, hinv, heq⟩ |
    ⟨r, hrun, -, hf, hinv, heq⟩
  · rw [heq]
    exact Bypass.reschedule hcore hprio hf h htu
  · rw [heq] at hend ⊢
    exact hreq.trans
      (Bypass.soExec hinv ((requeue_runningThread s u).trans hrun) hprio' h.requeue hend)
  · rw [heq] at hend ⊢
    have hdis : Core ((s.requeue u).dispatch u) (some r) := by
      have := hcore.requeue.dispatch hf (Or.inr rfl)
      rwa [requeue_runningThread, hrun, Option.some_or] at this
    have hstay : Stays t ((s.requeue u).dispatch u) := h.requeue.dispatch hcore.requeue hf htu
    have hprio₁ : ∀ v ∈ ((s.requeue u).dispatch u).threads,
        ((s.requeue u).dispatch u).prio v = prio v := by simpa using hprio
    have hprio₂ : ∀ v ∈ (((s.requeue u).dispatch u).requeue r).threads,
        (((s.requeue u).dispatch u).requeue r).prio v = prio v := by simpa using hprio
    have hpreempt : Bypass prio t s ((s.requeue u).dispatch u) [u] :=
      Bypass.reschedule hcore hprio hf h htu
    have hback := hpreempt.trans (Bypass.requeue hdis hprio₁ hstay.1)
    have hexec := Bypass.soExec hinv (requeue_runningThread _ _) hprio₂ hstay.requeue hend
    have hall := hback.trans hexec
    have hops : dispatches (.post u :: (((s.requeue u).dispatch u).requeue r).soExec.2 ++ [.wait r])
        = [u] ++ [] ++ dispatches (((s.requeue u).dispatch u).requeue r).soExec.2 := by
      rw [dispatches_append]
      simp [dispatches]
    rw [hops]
    exact hall

theorem Stays.forked (h : Stays t s) (hinv : Inv s) (func : HandlerPtr) (priority : UInt32) :
    Stays t (s.forked func priority) := by
  refine ⟨h.1, ?_⟩
  unfold notWaiting
  rw [hinv.forked_thread_of_mem (hinv.queued t h.1).1]
  exact h.2

theorem Stays.block (h : Stays t s) (hne : t ≠ r) (io : UInt32) : Stays t (s.block r io) :=
  ⟨h.1, by rw [notWaiting_block_of_ne hne, h.2]⟩

theorem Stays.woken (h : Stays t s) (io : UInt32) :
    Stays t { s.woken io with runningThread := none } := ⟨h.1, notWaiting_woken h.2⟩

theorem Stays.ended (h : Stays t s) (hne : t ≠ r) : Stays t (s.ended r) := by
  refine ⟨h.1, ?_⟩
  have hthread : (s.ended r).thread t = s.thread t :=
    (modify_thread s r (fun record => { record with state := .terminated }) t).trans (if_neg hne)
  unfold notWaiting
  rw [hthread]
  exact h.2

theorem Stays.ne_running (h : Stays t s) (hinv : Inv s) (hr : s.runningThread = some r) : t ≠ r :=
  fun heq => (hinv.running r hr).2.1 (heq ▸ h.1)

/-- A `so_fork`, with the priorities that all threads have after it. -/
theorem Bypass.fork (hinv : Inv s) (func : Option HandlerPtr) (priority : UInt32)
    (hprio : ∀ u ∈ (s.soFork func priority).next.threads,
      (s.soFork func priority).next.prio u = prio u)
    (h : Stays t s) (hend : Stays t (s.soFork func priority).next) :
    Bypass prio t s (s.soFork func priority).next (dispatches (s.soFork func priority).ops) := by
  rcases soFork_cases s func priority with heq | ⟨func', -, hp, heq⟩
  · rw [heq]
    exact .of_q_eq rfl
  · rw [heq] at hprio hend ⊢
    have hcore := hinv.toCore.fork func' hp
    have hset := hinv.forked func' priority
    have hw := notWaiting_forked s func' priority
    obtain ⟨hthreads, hframe⟩ := hcore.arrive_frame hset hw
    have hprio₁ : ∀ u ∈ (s.forked func' priority).threads,
        (s.forked func' priority).prio u = prio u := by
      intro u hu
      rw [← hframe.prio u hu]
      exact hprio u (hthreads.symm ▸ hu)
    have hkeep : Bypass prio t s (s.forked func' priority) [] := .of_q_eq rfl
    exact hkeep.trans
      (Bypass.arrive hcore hset hw hprio₁ (h.forked hinv func' priority) hend.1)

/-- One transition, between two states in which the thread is ready in the queue. -/
theorem Bypass.call (hinv : Inv s) {op : Op} {o : Outcome} (hcall : s.call op = some o)
    (hprio : ∀ u ∈ o.next.threads, o.next.prio u = prio u) (h : Stays t s) (hend : Stays t o.next) :
    Bypass prio t s o.next (dispatches o.ops) := by
  have hkept := hinv.call hcall
  have hprio₀ : ∀ u ∈ s.threads, s.prio u = prio u := by
    intro u hu
    rw [← hkept.frame.prio u hu]
    exact hprio u (by rw [hkept.threads]; exact List.mem_append_left _ hu)
  cases op with
  | fork func priority =>
      obtain rfl := Option.some.inj hcall
      exact Bypass.fork hinv func priority hprio h hend
  | wait io =>
      obtain rfl := Option.some.inj hcall
      rcases soWait_cases hinv.toCore io with heq | ⟨r, f, hr, hio, hf, heq⟩
      · rw [heq]
        exact .of_q_eq rfl
      · rw [heq] at hend ⊢
        have hcore := hinv.toCore.block hr hio
        have hprio₁ : ∀ u ∈ (s.block r io).threads, (s.block r io).prio u = prio u :=
          fun u hu => (congrFun (block_prio io) u).trans (hprio₀ u hu)
        have hkeep : Bypass prio t s (s.block r io) [] := .of_q_eq rfl
        exact hkeep.trans (Bypass.reschedule hcore hprio₁ hf (h.block (h.ne_running hinv hr) io)
          (ne_of_mem_dispatch hcore.requeue hf hend.1))
  | signal io =>
      obtain rfl := Option.some.inj hcall
      rcases soSignal_cases hinv.toCore io with heq | ⟨r, f, hr, hio, hf, heq⟩
      · rw [heq]
        exact .of_q_eq rfl
      · rw [heq] at hend ⊢
        have hcore := (hinv.toCore.woken io).detach hr
        have hprio₁ : ∀ u ∈ (s.woken io).threads, (s.woken io).prio u = prio u :=
          fun u hu => (congrFun (woken_prio io) u).trans (hprio₀ u hu)
        have hkeep : Bypass prio t s { s.woken io with runningThread := none } [] := .of_q_eq rfl
        exact hkeep.trans (Bypass.reschedule hcore hprio₁ hf (h.woken io)
          (ne_of_mem_dispatch hcore.requeue hf hend.1))
  | exec =>
      obtain rfl := Option.some.inj hcall
      cases hrun : s.runningThread with
      | none =>
          rw [soExec_idle hrun]
          exact .of_q_eq rfl
      | some r => exact Bypass.soExec hinv hrun hprio₀ h hend.1
  | ret =>
      obtain ⟨r, hr, rfl⟩ := Option.map_eq_some_iff.mp hcall
      have hcore := hinv.toCore.ended hr
      have hprio₁ : ∀ u ∈ (s.ended r).threads, (s.ended r).prio u = prio u :=
        fun u hu => (congrFun ended_prio u).trans (hprio₀ u hu)
      have hkeep : Bypass prio t s (s.ended r) [] := .of_q_eq rfl
      rcases threadTask_cases s r with ⟨-, heq⟩ | ⟨f, hf, heq⟩
      · rw [heq]
        exact hkeep
      · rw [heq] at hend ⊢
        exact hkeep.trans (Bypass.dispatch hcore hprio₁ hf (h.ended (h.ne_running hinv hr))
          (ne_of_mem_dispatch hcore hf hend.1))

/-- The transitions that charge the running thread: `so_exec` and a successful `so_fork`. -/
def charged (label : Op × Outcome) : Bool := label.1 = .exec ∨ label.2.forked ≠ none

/-- A thread that is put back behind a ready thread of its priority does not get the CPU. -/
theorem front_ne_of_stays (hcore : Core s (some r)) (hprio : s.prio r = s.prio t) (h : Stays t s)
    (hf : (s.requeue r).front = some f) : f ≠ r := by
  intro heq
  subst f
  have hrq := (hcore.apart r rfl).2.1
  have htr : t ≠ r := fun heq => hrq (heq ▸ h.1)
  have honce := (Bypass.reschedule hcore (fun _ _ => rfl) hf h htr).once r htr.symm hprio
  have hzero : passes s r t = 0 := if_neg fun hpre => hrq hpre.mem_left
  rw [hzero, List.count_singleton_self] at honce
  omega

/-- A thread that is put back gets the CPU exactly where every other ready thread is below it. -/
theorem front_requeue_self (hcore : Core s (some r)) (hw : s.notWaiting r = true) :
    (s.requeue r).front = some r ↔ ∀ t ∈ s.q, s.notWaiting t = true → s.prio t < s.prio r := by
  constructor
  · intro hf t ht htw
    have hle := hcore.requeue.le_front hf (mem_requeue_q.mpr (Or.inr ht))
      (by rw [notWaiting_requeue, htw])
    simp only [requeue_prio] at hle
    refine lt_of_le_of_ne hle fun heq => ?_
    exact front_ne_of_stays hcore heq.symm ⟨ht, htw⟩ hf rfl
  · intro hbelow
    show (s.requeue r).q.find? (s.requeue r).notWaiting = some r
    rw [requeue_q, notWaiting_requeue]
    exact find_insert_of_lt _ hw fun t ht htw _ => hbelow t ht htw

theorem soExec_slice (hinv : Inv s) (hr : s.runningThread = some r) (hprio : s.prio r = s.prio t)
    (h : Stays t s) (hstill : s.soExec.1.runningThread = some r) :
    (s.soExec.1.thread r).timeQuantum.toNat + 1 ≤ (s.thread r).timeQuantum.toNat := by
  rcases soExec_cases hr with ⟨-, heq⟩ | ⟨f, -, hf, heq⟩
  · rw [heq]
    obtain ⟨hmem, -, hstate⟩ := hinv.running r hr
    have hpos := ((hinv.sound r hmem).quantum (by simp [hstate])).1
    have := charge_timeQuantum hinv.toCore hr
    dsimp only
    omega
  · rw [heq] at hstill
    obtain rfl : f = r := Option.some.inj hstill
    have hne : t ≠ f := fun heq => (hinv.running f hr).2.1 (heq ▸ h.1)
    have hstay : Stays t ((s.charge f).expire f) := by
      refine ⟨h.1, ?_⟩
      rw [expire_charge]
      unfold notWaiting
      rw [modify_thread, if_neg hne]
      exact h.2
    exact absurd rfl (front_ne_of_stays (hinv.toCore.expire hr) (by rw [expire_prio, hprio]) hstay hf)

/-- The running thread that keeps the CPU after it has forked a thread has lost a unit. -/
theorem Inv.slice_forked (hinv : Inv s) (hr : s.runningThread = some r)
    (hprio : s.prio r = s.prio t) (h : Stays t s) (func : HandlerPtr) {priority : UInt32}
    (hp : ¬soMaxPrio < priority)
    (hstill : ((s.forked func priority).scheduleThread s.threads.length).1.runningThread =
      some r) :
    (((s.forked func priority).scheduleThread s.threads.length).1.thread r).timeQuantum.toNat + 1 ≤
      (s.thread r).timeQuantum.toNat := by
  have hold : ∀ v ∈ s.threads, (s.forked func priority).thread v = s.thread v :=
    fun v hv => hinv.forked_thread_of_mem hv func priority
  have hrmem := (hinv.running r hr).1
  have hrnew := hinv.fresh hrmem
  have hprio' : (s.forked func priority).prio r = (s.forked func priority).prio t := by
    unfold Scheduler.prio at hprio ⊢
    rw [hold r hrmem, hold t (hinv.queued t h.1).1, hprio]
  rcases (hinv.toCore.fork func hp).arrive_cases (hinv.forked func priority)
    (notWaiting_forked s func priority) with ⟨hrun, -, -⟩ | ⟨r', hrun, -, hinv', heq'⟩ |
    ⟨r', hrun, hlt, hf, hinv', heq'⟩
  · rw [show (s.forked func priority).runningThread = s.runningThread from rfl, hr] at hrun
    cases hrun
  · obtain rfl : r = r' := Option.some.inj (hr.symm.trans hrun)
    rw [heq'] at hstill ⊢
    have hslice := soExec_slice hinv' ((requeue_runningThread _ _).trans hrun)
      (by rw [requeue_prio, hprio']) (h.forked hinv func priority).requeue hstill
    rwa [requeue_thread_of_ne hrnew, hold r hrmem] at hslice
  · -- the new thread took the CPU, and only it can have it after the charge
    obtain rfl : r = r' := Option.some.inj (hr.symm.trans hrun)
    rw [heq'] at hstill
    rcases soExec_cases (s := (((s.forked func priority).requeue s.threads.length).dispatch
      s.threads.length).requeue r) (requeue_runningThread _ _) with ⟨-, heq⟩ | ⟨g, -, hg, heq⟩
    · rw [heq] at hstill
      rw [charge_runningThread, requeue_runningThread] at hstill
      exact absurd (Option.some.inj hstill).symm hrnew
    · rw [heq] at hstill
      obtain rfl : g = r := Option.some.inj hstill
      have hexp := hinv'.toCore.expire (requeue_runningThread _ _)
      have hle := hexp.requeue.le_front hg (mem_requeue_q.mpr (Or.inl rfl))
        (by rw [notWaiting_requeue]; exact notWaiting_expire)
      rw [requeue_prio, expire_prio, requeue_prio, dispatch_prio, requeue_prio] at hle
      omega

/-- A thread that keeps the CPU beside a ready thread of its priority loses a unit with every
charged call. -/
theorem Inv.slice (hinv : Inv s) (hr : s.runningThread = some r) (hprio : s.prio r = s.prio t)
    (h : Stays t s) {op : Op} {o : Outcome} (hcall : s.call op = some o)
    (hstill : o.next.runningThread = some r) :
    (o.next.thread r).timeQuantum.toNat + (if charged (op, o) then 1 else 0) ≤
      (s.thread r).timeQuantum.toNat := by
  have htr : t ≠ r := h.ne_running hinv hr
  cases op with
  | fork func priority =>
      obtain rfl := Option.some.inj hcall
      rcases soFork_cases s func priority with heq | ⟨func', -, hp, heq⟩
      · rw [heq]
        simp [charged, Outcome.forked]
      · rw [heq] at hstill ⊢
        have hcharged : charged (Op.fork func priority, Outcome.mk (.tid (some s.threads.length))
            ((s.forked func' priority).scheduleThread s.threads.length).1
            ((s.forked func' priority).scheduleThread s.threads.length).2) = true := by
          simp [charged, Outcome.forked]
        rw [if_pos hcharged]
        exact hinv.slice_forked hr hprio h func' hp hstill
  | wait io =>
      obtain rfl := Option.some.inj hcall
      rcases soWait_cases hinv.toCore io with heq | ⟨r', f, hr', hio, hf, heq⟩
      · rw [heq]
        simp [charged, Outcome.forked]
      · rw [heq] at hstill
        obtain rfl : r = r' := Option.some.inj (hr.symm.trans hr')
        obtain rfl : f = r := Option.some.inj hstill
        exact absurd rfl (front_ne_of_stays (hinv.toCore.block hr hio)
          (by rw [block_prio, hprio]) (h.block htr io) hf)
  | signal io =>
      obtain rfl := Option.some.inj hcall
      rcases soSignal_cases hinv.toCore io with heq | ⟨r', f, hr', hio, hf, heq⟩
      · rw [heq]
        simp [charged, Outcome.forked]
      · rw [heq] at hstill
        obtain rfl : r = r' := Option.some.inj (hr.symm.trans hr')
        obtain rfl : f = r := Option.some.inj hstill
        have hwoken : (s.woken io).prio f = (s.woken io).prio t := by rw [woken_prio, hprio]
        exact absurd rfl (front_ne_of_stays ((hinv.toCore.woken io).detach hr) hwoken
          (h.woken io) hf)
  | exec =>
      obtain rfl := Option.some.inj hcall
      have hcharged : charged (Op.exec, Outcome.mk .unit s.soExec.1 s.soExec.2) = true := by
        simp [charged]
      rw [if_pos hcharged]
      exact soExec_slice hinv hr hprio h hstill
  | ret =>
      obtain ⟨r', hr', rfl⟩ := Option.map_eq_some_iff.mp hcall
      obtain rfl : r = r' := Option.some.inj (hr.symm.trans hr')
      rcases threadTask_cases s r with ⟨-, heq⟩ | ⟨f, hf, heq⟩ <;> rw [heq] at hstill
      · cases hstill
      · obtain rfl : f = r := Option.some.inj hstill
        exact absurd (front_mem hf) (hinv.running f hr).2.1

/-- The steps taken while `u` has the CPU beside the ready thread `t`. -/
def Slice (u t : ThreadPtr) : Scheduler → Op × Outcome → Scheduler → Prop :=
  Guarded (fun s _ => Stays t s ∧ s.runningThread = some u) Step

theorem slice_bound (hinv : Inv s) (hprio : s.prio u = s.prio t) {part : List (Op × Outcome)}
    (hrun : Run (Slice u t) s part s') : part.countP charged ≤ s.timeQuantum.toNat ∧
      (part ≠ [] → part.countP charged ≤ (s.thread u).timeQuantum.toNat) := by
  suffices hlive : part ≠ [] → part.countP charged ≤ (s.thread u).timeQuantum.toNat ∧
      (s.thread u).timeQuantum.toNat ≤ s.timeQuantum.toNat by
    refine ⟨?_, fun hne => (hlive hne).1⟩
    by_cases hne : part = []
    · simp [hne]
    · exact (hlive hne).1.trans (hlive hne).2
  induction hrun with
  | nil s => exact fun hne => absurd rfl hne
  | @cons s s₁ s₂ label rest hstep hrest ih =>
      intro _
      obtain ⟨⟨hstay, hu⟩, hcall, rfl⟩ := hstep
      obtain ⟨humem, -, hustate⟩ := hinv.running u hu
      have hquantum := (hinv.sound u humem).quantum (by simp [hustate])
      have hkept := hinv.call hcall
      refine ⟨?_, hquantum.2⟩
      rw [List.countP_cons]
      cases hrest with
      | nil =>
          simp only [List.countP_nil]
          split_ifs <;> omega
      | cons hnext hmore =>
          have hslice : _ + (if charged label then 1 else 0) ≤ _ :=
            hinv.slice hu hprio hstay hcall hnext.1.2
          have hprio' : label.2.next.prio u = label.2.next.prio t := by
            rw [hkept.frame.prio u humem, hkept.frame.prio t (hinv.queued t hstay.1).1, hprio]
          have hrec := (ih hkept.inv hprio' (by simp)).1
          omega

/-! ### Whole runs -/

theorem Inv.run_frame (hinv : Inv s) {history : List (Op × Outcome)} (hrun : Run Step s history s') :
    Frame s s' ∧ ∀ u ∈ s.threads, u ∈ s'.threads := by
  induction hrun with
  | nil s => exact ⟨.refl s, fun _ hu => hu⟩
  | @cons s s₁ s₂ label rest hstep hrest ih =>
      obtain ⟨hcall, rfl⟩ := hstep
      have hkept := hinv.call hcall
      obtain ⟨hframe, hthreads⟩ := ih hkept.inv
      have hsub : ∀ u ∈ s.threads, u ∈ label.2.next.threads := fun u hu => by
        rw [hkept.threads]
        exact List.mem_append_left _ hu
      exact ⟨hkept.frame.trans hframe hsub, fun u hu => hthreads u (hsub u hu)⟩

/-- The steps before which the thread is ready in the queue. -/
def Staying (t : ThreadPtr) : Scheduler → Op × Outcome → Scheduler → Prop :=
  Guarded (fun s _ => Stays t s) Step

theorem Bypass.run (hinv : Inv s) {during : List (Op × Outcome)} (hrun : Run (Staying t) s during s')
    (hend : Stays t s') : Bypass s'.prio t s s' (dispatchedIn during) := by
  induction hrun with
  | nil s => exact .of_q_eq rfl
  | @cons s s₁ s₂ label rest hstep hrest ih =>
      obtain ⟨hstay, hcall, rfl⟩ := hstep
      have hkept := hinv.call hcall
      have hrest' : Run Step label.2.next rest s₂ := hrest.mono fun _ _ _ h => h.2
      have hframe := (hkept.inv.run_frame hrest').1
      have hnext : Stays t label.2.next := by
        cases hrest with
        | nil => exact hend
        | cons hstep _ => exact hstep.1
      have hfirst : Bypass s₂.prio t s label.2.next (dispatches label.2.ops) :=
        Bypass.call hinv hcall (fun u hu => (hframe.prio u hu).symm) hstay hnext
      exact hfirst.trans (ih hkept.inv hend)

/-- While a thread stays ready in the queue, no thread of lower priority and no other thread of its
priority twice is made the running one, and a thread of its priority that has the CPU meanwhile
makes at most `timeQuantum` charged calls. -/
theorem bounded_bypass {timeQuantum io : UInt32} {s₀ : Scheduler} {before : List (Op × Outcome)}
    (hinit : soInit none timeQuantum io = (0, some s₀)) (hrun : Run Step s₀ before s)
    (t : ThreadPtr) :
    (∀ during s', Run (Staying t) s during s' → Stays t s' →
      (∀ f ∈ dispatchedIn during, ¬s'.prio f < s'.prio t) ∧
      ∀ u, u ≠ t → s'.prio u = s'.prio t → (dispatchedIn during).count u ≤ 1) ∧
    ∀ u part s', s.prio u = s.prio t → Run (Slice u t) s part s' →
      part.countP charged ≤ s.timeQuantum.toNat := by
  have hinv := (inv_soInit hinit).run hrun
  refine ⟨fun during s' hduring hend => ?_, fun u part s' hprio hpart => (slice_bound hinv hprio hpart).1⟩
  have hbypass := Bypass.run hinv hduring hend
  refine ⟨fun f hf => not_lt.mpr (hbypass.above f hf), fun u hu hprio => ?_⟩
  have honce := hbypass.once u hu hprio
  have hone : passes s u t ≤ 1 := passes_le_one
  omega

/-- One thread of priority 3, running with its full quantum of two units. -/
def oneRunning : Scheduler := ((Scheduler.start 2 1).soFork (some 7) 3).next

theorem run_oneRunning : Run Step (Scheduler.start 2 1)
    [(.fork (some 7) 3, (Scheduler.start 2 1).soFork (some 7) 3)] oneRunning := .single ⟨rfl, rfl⟩

/-- Two threads of one priority, the first running and the second ready. -/
def twoEqual : Scheduler := (((Scheduler.start 2 1).soFork (some 7) 1).next.soFork (some 7) 1).next

theorem run_twoEqual : Run Step (Scheduler.start 2 1)
    [(.fork (some 7) 1, (Scheduler.start 2 1).soFork (some 7) 1),
      (.fork (some 7) 1, ((Scheduler.start 2 1).soFork (some 7) 1).next.soFork (some 7) 1)]
    twoEqual := .cons ⟨rfl, rfl⟩ (.single ⟨rfl, rfl⟩)

theorem bounded_bypass_twoEqual :
    [(Op.exec, Outcome.mk .unit twoEqual.soExec.1 twoEqual.soExec.2)].countP charged ≤
      twoEqual.timeQuantum.toNat :=
  (bounded_bypass soInit_two_one run_twoEqual 1).2 0 _ _ (by decide +kernel)
    (.single ⟨⟨by decide +kernel, by decide +kernel⟩, rfl, rfl⟩)

/-- A call of `so_exec` or `so_fork`, successful or not. -/
def execOrFork (label : Op × Outcome) : Bool :=
  match label.1 with
  | .exec => true
  | .fork _ _ => true
  | _ => false

theorem run_rejected (n : ℕ) : Run (Slice 0 1) twoEqual
    (List.replicate n (.fork none 0, ⟨.tid none, twoEqual, []⟩)) twoEqual := by
  induction n with
  | zero => exact .nil _
  | succ n ih =>
      refine .cons ⟨⟨?_, ?_⟩, rfl, rfl⟩ ih
      · decide +kernel
      · decide +kernel

/-- With every call of `so_fork` counted there is no such bound: a call with no handler returns at
once and charges nobody. -/
theorem rejected_forks_unbounded :
    ¬∀ (timeQuantum io : UInt32) (s₀ s : Scheduler) (before : List (Op × Outcome))
      (u t : ThreadPtr) (part : List (Op × Outcome)) (s' : Scheduler),
      soInit none timeQuantum io = (0, some s₀) → Run Step s₀ before s → s.prio u = s.prio t →
      Run (Slice u t) s part s' → part.countP execOrFork ≤ s.timeQuantum.toNat := by
  intro hbound
  have h := hbound 2 1 (Scheduler.start 2 1) twoEqual _ 0 1 _ twoEqual rfl run_twoEqual
    (by decide +kernel) (run_rejected 3)
  revert h
  decide +kernel

end OsHomeworks.ThreadScheduler
