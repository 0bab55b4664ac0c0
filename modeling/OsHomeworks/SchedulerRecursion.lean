import OsHomeworks.SchedulerSafety

/-! The recursion of `check_preempt`, `schedule_thread` and `so_exec`. Every activation makes at most
one call of the three functions, so what a call of the interface unfolds is a chain. A preemption
raises the priority of the running thread and an expiry clears it, which bounds the length of every
chain, from any state; between two calls of the interface the running thread is the best choice, and
a chain has at most one preemption and at most one expiry. -/

namespace OsHomeworks.ThreadScheduler

open Runs Scheduler

/-- A call of one of the three functions, with the scheduler it is made in. -/
inductive Activation where
  | checkPreempt (s : Scheduler) (thread : Option ThreadPtr)
  | scheduleThread (s : Scheduler) (t : ThreadPtr)
  | soExec (s : Scheduler)

/-- Where a call is made: at the end of `schedule_thread`, in the preempting and in the last branch
of `check_preempt`, at the end of a quantum in `so_exec`. -/
inductive Branch where
  | schedule
  | preempt
  | exec
  | expire
  deriving DecidableEq

namespace Activation

/-- The call an activation makes, if any. -/
def next : Activation → Option (Branch × Activation)
  | .checkPreempt _ none => none
  | .checkPreempt s (some thread) =>
      match s.runningThread with
      | none => none
      | some preempted =>
          if s.prio preempted < s.prio thread then
            some (.preempt, .scheduleThread (s.dispatch thread) preempted)
          else some (.exec, .soExec s)
  | .scheduleThread s t => some (.schedule, .checkPreempt (s.requeue t) (s.requeue t).front)
  | .soExec s =>
      match s.runningThread with
      | none => none
      | some r =>
          if ((s.charge r).thread r).timeQuantum = 0 then
            some (.expire, .scheduleThread ((s.charge r).expire r) r)
          else none

def result : Activation → Scheduler × List SemOp
  | .checkPreempt s thread => s.checkPreempt thread
  | .scheduleThread s t => s.scheduleThread t
  | .soExec s => s.soExec

/-- What bounds the calls still to come. -/
def measure : Activation → ℕ
  | .checkPreempt s _ => 3 * s.rank + 1
  | .scheduleThread s _ => 3 * s.rank + 2
  | .soExec s => 3 * s.rank

end Activation

/-- One call of the recursion. -/
def Enters (a : Activation) (branch : Branch) (b : Activation) : Prop := a.next = some (branch, b)

variable {s : Scheduler} {a b : Activation} {branch : Branch} {branches : List Branch}

/-- The calls out of `check_preempt`. -/
theorem enters_checkPreempt {thread : Option ThreadPtr}
    (h : Enters (.checkPreempt s thread) branch b) :
    ∃ r f, s.runningThread = some r ∧ thread = some f ∧
      (s.prio r < s.prio f ∧ branch = .preempt ∧ b = .scheduleThread (s.dispatch f) r ∨
        s.prio f ≤ s.prio r ∧ branch = .exec ∧ b = .soExec s) := by
  unfold Enters at h
  cases thread with
  | none => cases h
  | some f =>
      simp only [Activation.next] at h
      split at h
      · cases h
      · next r hr =>
          refine ⟨r, f, hr, rfl, ?_⟩
          split_ifs at h with hlt <;> obtain ⟨rfl, rfl⟩ := Prod.mk.inj (Option.some.inj h)
          · exact Or.inl ⟨hlt, rfl, rfl⟩
          · exact Or.inr ⟨not_lt.mp hlt, rfl, rfl⟩

theorem enters_scheduleThread {t : ThreadPtr} (h : Enters (.scheduleThread s t) branch b) :
    branch = .schedule ∧ b = .checkPreempt (s.requeue t) (s.requeue t).front := by
  obtain ⟨rfl, rfl⟩ := Prod.mk.inj (Option.some.inj h)
  exact ⟨rfl, rfl⟩

/-- The call out of `so_exec`. -/
theorem enters_soExec (h : Enters (.soExec s) branch b) :
    ∃ r, s.runningThread = some r ∧ ((s.charge r).thread r).timeQuantum = 0 ∧
      branch = .expire ∧ b = .scheduleThread ((s.charge r).expire r) r := by
  unfold Enters at h
  simp only [Activation.next] at h
  split at h
  · cases h
  · next r hr =>
      split_ifs at h with hleft
      obtain ⟨rfl, rfl⟩ := Prod.mk.inj (Option.some.inj h)
      exact ⟨r, hr, hleft, rfl, rfl⟩

/-- The scheduler that an activation leaves is the one its call leaves, and the semaphore operations
of the call are among its own. -/
theorem Enters.result (h : Enters a branch b) :
    a.result.1 = b.result.1 ∧ b.result.2 <:+: a.result.2 := by
  cases a with
  | checkPreempt s thread =>
      obtain ⟨r, f, hr, rfl, ⟨hlt, -, rfl⟩ | ⟨hle, -, rfl⟩⟩ := enters_checkPreempt h
      · simp only [Activation.result, checkPreempt_preempt hr hlt]
        exact ⟨trivial, [.post f], [.wait r], rfl⟩
      · simp only [Activation.result, checkPreempt_exec hr hle]
        exact ⟨trivial, List.infix_rfl⟩
  | scheduleThread s t =>
      obtain ⟨-, rfl⟩ := enters_scheduleThread h
      simp only [Activation.result, scheduleThread_eq]
      exact ⟨trivial, List.infix_rfl⟩
  | soExec s =>
      obtain ⟨r, hr, hleft, -, rfl⟩ := enters_soExec h
      simp only [Activation.result, soExec_expire hr hleft]
      exact ⟨trivial, [], [.wait r], rfl⟩

theorem Enters.measure_lt (h : Enters a branch b) : b.measure < a.measure := by
  cases a with
  | checkPreempt s thread =>
      obtain ⟨r, f, hr, -, ⟨hlt, -, rfl⟩ | ⟨-, -, rfl⟩⟩ := enters_checkPreempt h
      · have := dispatch_rank_lt hr hlt
        simp only [Activation.measure]
        omega
      · simp [Activation.measure]
  | scheduleThread s t =>
      obtain ⟨-, rfl⟩ := enters_scheduleThread h
      simp [Activation.measure]
  | soExec s =>
      obtain ⟨r, hr, -, -, rfl⟩ := enters_soExec h
      have := expire_rank_lt hr
      simp only [Activation.measure]
      omega

theorem chain_length_le (h : Run Enters a branches b) :
    branches.length + b.measure ≤ a.measure := by
  induction h with
  | nil a => simp
  | cons hstep _ ih =>
      have hlt := hstep.measure_lt
      rw [List.length_cons]
      omega

theorem Activation.measure_le (a : Activation) : a.measure ≤ 770 := by
  have hrank : ∀ s : Scheduler, s.rank ≤ 256 := by
    intro s
    unfold rank
    split <;> omega
  cases a with
  | checkPreempt s thread =>
      have := hrank s
      simp only [Activation.measure]
      omega
  | scheduleThread s t =>
      have := hrank s
      simp only [Activation.measure]
      omega
  | soExec s =>
      have := hrank s
      simp only [Activation.measure]
      omega

/-- From any state, reachable or not, the recursion unfolds at most 770 calls. -/
theorem recursion_bounded (h : Run Enters a branches b) : branches.length ≤ 770 := by
  have hlength := chain_length_le h
  have hbound := a.measure_le
  omega

/-- At most `p` preemptions and `e` expiries. -/
def AtMost (p e : ℕ) (branches : List Branch) : Prop :=
  branches.count .preempt ≤ p ∧ branches.count .expire ≤ e

theorem AtMost.nil (p e : ℕ) : AtMost p e [] := ⟨Nat.zero_le _, Nat.zero_le _⟩

theorem AtMost.cons {p e : ℕ} (h : AtMost p e branches) (branch : Branch) :
    AtMost (p + [branch].count .preempt) (e + [branch].count .expire) (branch :: branches) := by
  obtain ⟨hp, he⟩ := h
  constructor
  · rw [← List.singleton_append, List.count_append]
    omega
  · rw [← List.singleton_append, List.count_append]
    omega

theorem AtMost.mono {p e p' e' : ℕ} (h : AtMost p e branches) (hp : p ≤ p') (he : e ≤ e') :
    AtMost p' e' branches := ⟨h.1.trans hp, h.2.trans he⟩

/-- A dispatch calls nothing. -/
theorem chain_checkPreempt_idle {thread : Option ThreadPtr} (hidle : s.runningThread = none)
    (h : Run Enters (.checkPreempt s thread) branches b) : AtMost 0 0 branches := by
  cases h with
  | nil => exact .nil 0 0
  | cons hstep _ =>
      obtain ⟨r, -, hr, -⟩ := enters_checkPreempt hstep
      rw [hidle] at hr
      cases hr

/-- A thread that is put back while the CPU is idle is followed by a dispatch. -/
theorem chain_idle {t : ThreadPtr} (hidle : s.runningThread = none)
    (h : Run Enters (.scheduleThread s t) branches b) : AtMost 0 0 branches := by
  cases h with
  | nil => exact .nil 0 0
  | cons hstep hrest =>
      obtain ⟨rfl, rfl⟩ := enters_scheduleThread hstep
      exact (chain_checkPreempt_idle ((requeue_runningThread s t).trans hidle) hrest).cons .schedule

/-- An expiry clears `running_thread`, so nothing is preempted after it. -/
theorem chain_soExec (h : Run Enters (.soExec s) branches b) : AtMost 0 1 branches := by
  cases h with
  | nil => exact .nil 0 1
  | cons hstep hrest =>
      obtain ⟨r, -, -, rfl, rfl⟩ := enters_soExec hstep
      exact (chain_idle rfl hrest).cons .expire

/-- Where no ready thread has a priority above the running one's, `check_preempt` preempts nothing. -/
theorem chain_settled (hset : Settled s)
    (h : Run Enters (.checkPreempt s s.front) branches b) : AtMost 0 1 branches := by
  cases h with
  | nil => exact .nil 0 1
  | cons hstep hrest =>
      obtain ⟨r, f, hr, hf, ⟨hlt, -, -⟩ | ⟨-, rfl, rfl⟩⟩ := enters_checkPreempt hstep
      · have hle := hset.top r hr f (front_mem hf) (front_notWaiting hf)
        exact absurd hlt (not_lt.mpr hle)
      · exact (chain_soExec hrest).cons .exec

/-- A new thread preempts at most once: the one it preempts is put back below it. -/
theorem chain_arrive {t : ThreadPtr} (hcore : Core s (some t)) (hset : Settled s)
    (hw : s.notWaiting t = true) (h : Run Enters (.scheduleThread s t) branches b) :
    AtMost 1 1 branches := by
  cases h with
  | nil => exact .nil 1 1
  | cons hstep hrest =>
      obtain ⟨rfl, rfl⟩ := enters_scheduleThread hstep
      rcases hcore.arrive_cases hset hw with ⟨hrun, -, -⟩ | ⟨r, -, -, hinv, -⟩ |
        ⟨r, hrun, hlt, hf, hinv, -⟩
      · have hidle := chain_checkPreempt_idle ((requeue_runningThread s t).trans hrun) hrest
        exact (hidle.cons .schedule).mono (Nat.zero_le 1) (Nat.zero_le 1)
      · exact ((chain_settled hinv.toSettled hrest).cons .schedule).mono (Nat.zero_le 1) le_rfl
      · have hrun' : (s.requeue t).runningThread = some r := (requeue_runningThread s t).trans hrun
        cases hrest with
        | nil => exact ((AtMost.nil 0 0).cons .schedule).mono (Nat.zero_le 1) (Nat.zero_le 1)
        | cons hstep hrest =>
            obtain ⟨r', f, hr', hf', hbranch⟩ := enters_checkPreempt hstep
            obtain rfl : t = f := Option.some.inj (hf.symm.trans hf')
            obtain rfl : r = r' := Option.some.inj (hrun'.symm.trans hr')
            rcases hbranch with ⟨-, rfl, rfl⟩ | ⟨hle, -, -⟩
            · cases hrest with
              | nil => exact (((AtMost.nil 0 0).cons .preempt).cons .schedule).mono le_rfl (Nat.zero_le 1)
              | cons hstep hrest =>
                  obtain ⟨rfl, rfl⟩ := enters_scheduleThread hstep
                  have hback := (chain_settled hinv.toSettled hrest).cons .schedule
                  exact (hback.cons .preempt).cons .schedule
            · rw [requeue_prio] at hle
              omega

/-- The call of the recursion that an operation makes, if it gets that far. -/
def Scheduler.activation (s : Scheduler) : Op → Option Activation
  | .fork none _ => none
  | .fork (some func) priority =>
      if priority > soMaxPrio then none
      else some (.scheduleThread (s.forked func priority) s.threads.length)
  | .wait io =>
      match s.runningThread with
      | none => none
      | some r =>
          if io ≥ s.io ∨ s.q.length = 0 ∨ s.front = none then none
          else some (.scheduleThread (s.block r io) r)
  | .signal io =>
      match s.runningThread with
      | none => none
      | some r =>
          if io ≥ s.io then none
          else some (.scheduleThread { (s.wakeAll io).2 with runningThread := none } r)
  | .exec => some (.soExec s)
  | .ret => s.runningThread.map fun r => .checkPreempt (s.ended r) (s.ended r).front

/-- The scheduler an operation leaves is the one its call of the recursion leaves. -/
theorem call_activation {op : Op} {o : Outcome} (hcall : s.call op = some o) :
    (s.activation op).elim s (fun a => a.result.1) = o.next := by
  cases op with
  | fork func priority =>
      obtain rfl := Option.some.inj hcall
      cases func with
      | none => rfl
      | some func =>
          simp only [activation, soFork]
          split_ifs <;> rfl
  | wait io =>
      obtain rfl := Option.some.inj hcall
      simp only [activation, soWait]
      cases s.runningThread with
      | none => rfl
      | some r =>
          dsimp only
          split_ifs <;> rfl
  | signal io =>
      obtain rfl := Option.some.inj hcall
      simp only [activation, soSignal]
      cases s.runningThread with
      | none => rfl
      | some r =>
          dsimp only
          split_ifs <;> rfl
  | exec =>
      obtain rfl := Option.some.inj hcall
      rfl
  | ret =>
      obtain ⟨r, hr, rfl⟩ := Option.map_eq_some_iff.mp hcall
      simp only [activation, hr]
      rfl

theorem Inv.chain (hinv : Inv s) {op : Op} (ha : s.activation op = some a)
    (h : Run Enters a branches b) : AtMost 1 1 branches := by
  cases op with
  | fork func priority =>
      cases func with
      | none => cases ha
      | some func =>
          simp only [activation] at ha
          split_ifs at ha with hp
          obtain rfl := Option.some.inj ha
          exact chain_arrive (hinv.toCore.fork func hp) (hinv.forked func priority)
            (notWaiting_forked s func priority) h
  | wait io =>
      simp only [activation] at ha
      split at ha
      · cases ha
      · split_ifs at ha
        obtain rfl := Option.some.inj ha
        exact (chain_idle rfl h).mono (Nat.zero_le 1) (Nat.zero_le 1)
  | signal io =>
      simp only [activation] at ha
      split at ha
      · cases ha
      · split_ifs at ha
        obtain rfl := Option.some.inj ha
        exact (chain_idle rfl h).mono (Nat.zero_le 1) (Nat.zero_le 1)
  | exec =>
      obtain rfl := Option.some.inj ha
      exact (chain_soExec h).mono (Nat.zero_le 1) le_rfl
  | ret =>
      obtain ⟨r, hr, rfl⟩ := Option.map_eq_some_iff.mp ha
      exact (chain_checkPreempt_idle rfl h).mono (Nat.zero_le 1) (Nat.zero_le 1)

/-- From any state the recursion unfolds at most 770 calls; what an operation unfolds from a reachable
state contains at most one preemption and at most one expiry. -/
theorem recursion_terminates {timeQuantum io : UInt32} {s₀ s : Scheduler}
    {history : List (Op × Outcome)} (hinit : soInit none timeQuantum io = (0, some s₀))
    (hrun : Run Step s₀ history s) :
    (∀ a branches b, Run Enters a branches b → branches.length ≤ 770) ∧
    ∀ op a branches b, s.activation op = some a → Run Enters a branches b →
      branches.count .preempt ≤ 1 ∧ branches.count .expire ≤ 1 :=
  ⟨fun _ _ _ h => recursion_bounded h, fun _ _ _ _ ha h => ((inv_soInit hinit).run hrun).chain ha h⟩

theorem soInit_one_one : soInit none 1 1 = (0, some (Scheduler.start 1 1)) := rfl

/-- The call an activation makes, provided it is made in this branch. -/
def Activation.follow (a : Activation) (branch : Branch) : Option Activation :=
  match a.next with
  | some (taken, b) => if taken = branch then some b else none
  | none => none

theorem enters_of_follow (h : a.follow branch = some b) : Enters a branch b := by
  unfold Activation.follow at h
  split at h
  · next taken b' hnext =>
      split_ifs at h with htaken
      rw [Enters, hnext, htaken, Option.some.inj h]
  · cases h

/-- A thread runs with a quantum of one. -/
def lastUnit : Scheduler := ((Scheduler.start 1 1).soFork (some 7) 3).next

/-- What it calls when it forks a thread of higher priority. -/
def preemptingFork : Activation :=
  .scheduleThread (lastUnit.forked 7 5) lastUnit.threads.length

/-- It is preempted, its return to the queue charges the new thread, whose quantum ends with it. -/
def preemptingBranches : List Branch := [.schedule, .preempt, .schedule, .exec, .expire, .schedule]

def preemptingEnd : Activation :=
  (preemptingBranches.foldlM Activation.follow preemptingFork).get (by decide +kernel)

theorem run_preemptingFork : Run Enters preemptingFork preemptingBranches preemptingEnd := by
  have hfollow : preemptingBranches.foldlM Activation.follow preemptingFork = some preemptingEnd :=
    (Option.some_get _).symm
  exact (Run.of_foldlM hfollow).mono fun _ _ _ h => enters_of_follow h

theorem recursion_terminates_preemptingFork :
    lastUnit.activation (.fork (some 7) 5) = some preemptingFork ∧ preemptingEnd.next.isNone ∧
      preemptingBranches.length ≤ 770 ∧ preemptingBranches.count .preempt ≤ 1 ∧
      preemptingBranches.count .expire ≤ 1 := by
  have hrun : Run Step (Scheduler.start 1 1)
      [(.fork (some 7) 3, (Scheduler.start 1 1).soFork (some 7) 3)] lastUnit := .single ⟨rfl, rfl⟩
  obtain ⟨hbounded, honce⟩ := recursion_terminates soInit_one_one hrun
  exact ⟨rfl, by decide +kernel, hbounded _ _ _ run_preemptingFork,
    honce (.fork (some 7) 5) _ _ _ rfl run_preemptingFork⟩

end OsHomeworks.ThreadScheduler
