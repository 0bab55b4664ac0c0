import OsHomeworks.SchedulerBalance

/-! Calls are atomic for their callers as long as no call starts inside another one. After its
`sem_post` a preempting `so_fork` has code left that the posted thread can overtake. If it only
overtakes it with its own way into handler code, the two orders lead to the same state, so every
such run returns the values of the run in which each call goes on to its caller's blocking point. -/

namespace OsHomeworks.ThreadScheduler

open StableQueue Runs Scheduler

namespace Machine

variable {m m' m₁ m₂ d : Machine} {p q : Pthread} {t v : ThreadPtr}

theorem resume_code_of_ne (h : m.resume p = some m') (hne : q ≠ p) : m'.code q = m.code q := by
  rcases resume_cases h with ⟨t, rest, -, rfl⟩ | ⟨t, rest, -, -, rfl⟩
  · exact execute_code_of_ne m hne _ _
  · exact Function.update_of_ne hne _ _

/-- A thread that leaves its `sem_wait` does not disturb the next segment of another pthread, which
leaves it its post. -/
theorem resume_comm (hne : Pthread.task v ≠ p) (hcode : m.code (.task v) = some [.semWait v])
    (hp : m.resume p = some m₁) (hv : m.resume (.task v) = some m₂) (hpos : 0 < m₁.sem v) :
    ∃ m₃, m₁.resume (.task v) = some m₃ ∧ m₂.resume p = some m₃ := by
  have hcode₁ : m₁.code (.task v) = some (.semWait v :: []) :=
    (resume_code_of_ne hp hne).trans hcode
  refine ⟨_, resume_wait hcode₁ hpos, ?_⟩
  have hcode₂ := resume_code_of_ne hv hne.symm
  have hposv : 0 < m.sem v := by
    by_contra hzero
    cases (resume_blocked hcode (by omega)).symm.trans hv
  obtain rfl := Option.some.inj ((resume_wait hcode hposv).symm.trans hv)
  rcases resume_cases hp with ⟨t, rest, hcodep, rfl⟩ | ⟨t, rest, hcodep, hpost, rfl⟩
  · rw [resume_schedule (hcode₂.trans hcodep)]
    apply congrArg some
    ext u : 2
    · rfl
    · change (execute _ _ _ _).sem u = Function.update (execute _ _ _ _).sem v _ u
      rw [execute_sem]
      change Function.update m.sem v (m.sem v - 1) u + (m.sched.scheduleThreadSegment t).posts u = _
      by_cases hu : u = v
      · subst u
        rw [Function.update_self, Function.update_self, execute_sem]
        omega
      · rw [Function.update_of_ne hu, Function.update_of_ne hu, execute_sem]
    · exact congrFun (Function.update_comm hne _ _ m.code) u
  · have hpost₂ : 0 < Function.update m.sem v (m.sem v - 1) t := by
      by_cases htv : t = v
      · subst t
        rw [Function.update_self]
        change 0 < Function.update m.sem v (m.sem v - 1) v at hpos
        rwa [Function.update_self] at hpos
      · rwa [Function.update_of_ne htv]
    rw [resume_wait (hcode₂.trans hcodep) hpost₂]
    apply congrArg some
    ext u : 2
    · rfl
    · change Function.update (Function.update m.sem v (m.sem v - 1)) t
        (Function.update m.sem v (m.sem v - 1) t - 1) u =
          Function.update (Function.update m.sem t (m.sem t - 1)) v
            (Function.update m.sem t (m.sem t - 1) v - 1) u
      by_cases htv : t = v
      · subst t
        simp only [Function.update_self, Function.update_idem]
      · have hvt : v ≠ t := fun heq => htv heq.symm
        rw [Function.update_of_ne htv, Function.update_of_ne hvt]
        exact congrFun (Function.update_comm hvt _ _ m.sem) u
    · exact congrFun (Function.update_comm hne _ _ m.code) u

namespace Behind

theorem code_of_ne (h : Behind p m d) (hne : q ≠ p) : m.code q = d.code q := by
  induction h with
  | refl m => rfl
  | step hstep _ _ ih => exact (resume_code_of_ne hstep hne).symm.trans ih

/-- A thread that waits for its post overtakes a pthread that is behind. -/
theorem overtake (h : Behind p m d) (hne : Pthread.task v ≠ p)
    (hcode : m.code (.task v) = some [.semWait v]) (hv : m.resume (.task v) = some m₂) :
    ∃ d₂, d.resume (.task v) = some d₂ ∧ Behind p m₂ d₂ := by
  induction h generalizing m₂ with
  | refl m => exact ⟨m₂, hv, .refl m₂⟩
  | @step m m₁ d hstep hside hrest ih =>
      have hpos : 0 < m.sem v := by
        by_contra hzero
        cases (resume_blocked hcode (by omega)).symm.trans hv
      have hpos₁ := hside v hne hcode hpos
      obtain ⟨m₃, hv₁, hp₂⟩ := resume_comm hne hcode hstep hv hpos₁
      obtain ⟨d₂, hd₂, hbehind⟩ := ih ((resume_code_of_ne hstep hne).trans hcode) hv₁
      refine ⟨d₂, hd₂, .step hp₂ (fun u hu hcodeu hposu => ?_) hbehind⟩
      obtain rfl := Option.some.inj ((resume_wait hcode hpos).symm.trans hv)
      obtain rfl := Option.some.inj
        ((resume_wait ((resume_code_of_ne hstep hne).trans hcode) hpos₁).symm.trans hv₁)
      by_cases huv : u = v
      · subst u
        cases (Function.update_self _ _ _).symm.trans hcodeu
      · have hcodeu' : m.code (.task u) = some [.semWait u] := by
          have hne' : Pthread.task u ≠ .task v := fun heq => huv (Pthread.task.inj heq)
          exact (Function.update_of_ne hne' (some []) m.code).symm.trans hcodeu
        change 0 < Function.update m.sem v (m.sem v - 1) u at hposu
        change 0 < Function.update m₁.sem v (m₁.sem v - 1) u
        rw [Function.update_of_ne huv] at hposu ⊢
        exact hside u hu hcodeu' hposu

end Behind

end Machine

/-! ### Programs -/

/-- What the main program forks first, and the next operation of a task's handler, from the values
its calls have returned. -/
structure Programs where
  main : Option HandlerPtr × UInt32
  task : HandlerPtr → UInt8 → List Ret → Op

/-- The system, and the values of the calls each task has made. The first segment of a call fixes its
value, so a value is recorded when the call starts. -/
structure Config where
  machine : Machine
  returned : ThreadPtr → List Ret

namespace Config

def init (s : Scheduler) : Config := ⟨.boot s, fun _ => []⟩

/-- The operation that the program of a pthread makes next. -/
def operation (c : Config) (programs : Programs) : Pthread → Op
  | .main => .fork programs.main.1 programs.main.2
  | .task t =>
      programs.task (c.machine.sched.thread t).func (c.machine.sched.thread t).priority
        (c.returned t)

/-- The values recorded after an action. -/
def record (c : Config) : Action → ThreadPtr → List Ret
  | .call (.task t) op =>
      match c.machine.call (.task t) op with
      | some (ret, _) => Function.update c.returned t (c.returned t ++ [ret])
      | none => c.returned
  | _ => c.returned

end Config

/-- A step of the system in which the calls are those of the programs. -/
structure Follows (programs : Programs) (step : Machine → Action → Machine → Prop) (c : Config)
    (a : Action) (c' : Config) : Prop where
  step : step c.machine a c'.machine
  operation : ∀ p op, a = .call p op → op = c.operation programs p
  returned : c'.returned = c.record a

/-- A step of the run in which each call goes on to its caller's blocking point. -/
def Atomic (m : Machine) (a : Action) (m' : Machine) : Prop :=
  (∀ op, a = .call .main op → m.sched.threads = []) ∧ Undivided m a m'

/-- A pthread that is outside every call, or at the last `sem_wait` of one. -/
def Machine.AtRest (m : Machine) (q : Pthread) : Prop :=
  m.code q = none ∨ m.code q = some [] ∨ ∃ t, q = .task t ∧ m.code q = some [.semWait t]

/-- No call starts, and no handler returns, while another pthread is in the middle of a call. -/
def Unhurried (c : Config) (a : Action) : Prop :=
  ∀ p op, a = .call p op → ∀ q, q ≠ p → c.machine.AtRest q

/-- The system is behind a balanced state of an atomic run that has returned the same values. -/
def Shadowed (programs : Programs) (c₀ c : Config) : Prop :=
  ∃ p d, Machine.Behind p c.machine d.machine ∧ Balanced d.machine ∧ d.returned = c.returned ∧
    ∃ as, Run (Follows programs Atomic) c₀ as d

section Simulation

variable {programs : Programs} {c₀ c c' d : Config} {p q : Pthread} {t : ThreadPtr}

theorem Balanced.running_of_handler {m : Machine} (h : Balanced m) (ht : m.InHandler t) :
    m.sched.runningThread = some t := by
  by_contra hr
  by_cases hq : t ∈ m.sched.q
  · cases (h.off t hq).symm.trans ht
  · cases (h.gone t fun hl => hl.elim hq hr).symm.trans ht

theorem Balanced.idle_of_empty {m : Machine} (h : Balanced m) (hempty : m.sched.threads = []) :
    m.sched.runningThread = none := by
  cases hr : m.sched.runningThread with
  | none => rfl
  | some r =>
      have hmem := (h.inv.running r hr).1
      rw [hempty] at hmem
      cases hmem

theorem Balanced.atRest {m : Machine} (h : Balanced m) (q : Pthread) : m.AtRest q := by
  cases q with
  | main => exact Or.inr (Or.inl h.main)
  | task t =>
      by_cases hr : m.sched.runningThread = some t
      · rcases h.on t hr with ⟨hcode, -⟩ | ⟨hcode, -⟩
        · exact Or.inr (Or.inl hcode)
        · exact Or.inr (Or.inr ⟨t, rfl, hcode⟩)
      · by_cases hq : t ∈ m.sched.q
        · exact Or.inr (Or.inr ⟨t, rfl, h.off t hq⟩)
        · exact Or.inl (h.gone t fun hl => hl.elim hq hr)

/-- When a call starts and every other pthread is at rest, nothing is left to catch up. -/
theorem Machine.Behind.eq_of_call {m d : Machine} (h : Machine.Behind p m d) (hbal : Balanced d)
    (hq : m.code q = some []) (hrest : ∀ p', p' ≠ q → m.AtRest p')
    (hmain : q = .main → m.sched.threads = []) : m = d := by
  cases h with
  | refl m => rfl
  | @step _ m₁ _ hstep _ hbehind =>
      exfalso
      have hne : p ≠ q := by
        rintro rfl
        cases (Machine.resume_done (Or.inl hq)).symm.trans hstep
      rcases hrest p hne with hnone | hempty | ⟨u, rfl, hown⟩
      · cases (Machine.resume_done (Or.inr hnone)).symm.trans hstep
      · cases (Machine.resume_done (Or.inl hempty)).symm.trans hstep
      · -- Its own `sem_wait` lets it into handler code, where only the running task is.
        have hpos : 0 < m.sem u := by
          by_contra hzero
          cases (Machine.resume_blocked hown (by omega)).symm.trans hstep
        obtain rfl := Option.some.inj ((Machine.resume_wait hown hpos).symm.trans hstep)
        have hhandler : Function.update m.code (.task u) (some []) (.task u) = some [] :=
          Function.update_self _ _ _
        cases hbehind with
        | step hstep' _ _ => cases (Machine.resume_done (Or.inl hhandler)).symm.trans hstep'
        | refl =>
            have hr := hbal.running_of_handler hhandler
            cases q with
            | main =>
                have hidle := hbal.idle_of_empty (hmain rfl)
                cases hidle.symm.trans hr
            | task v =>
                have hv : Function.update m.code (.task u) (some []) (.task v) = some [] :=
                  (Function.update_of_ne hne.symm _ _).trans hq
                have hr' := hbal.running_of_handler hv
                exact hne (congrArg Pthread.task (Option.some.inj (hr.symm.trans hr')))

theorem Shadowed.resume (h : Shadowed programs c₀ c)
    (hstep : c.machine.resume q = some c'.machine) (hreturned : c'.returned = c.returned) :
    Shadowed programs c₀ c' := by
  obtain ⟨p, ⟨d, returned⟩, hbehind, hbal, hsame, as, hrun⟩ := h
  obtain ⟨m, returned'⟩ := c
  have hcatch : ∀ q' d', d.resume q' = some d' → d'.resume q' = none →
      Run (Follows programs Atomic) c₀ (as ++ [.resume q']) ⟨d', returned⟩ :=
    fun q' d' hd hquiet => hrun.snoc ⟨⟨nofun, nofun, d', hd, .stop hquiet⟩, nofun, rfl⟩
  cases hbehind with
  | refl =>
      obtain ⟨r, -, -, -, hquiet, hbal'⟩ := hbal.act_resume hstep
      exact ⟨q, ⟨c'.machine, returned⟩, .refl _, hbal', hsame.trans hreturned.symm, _,
        hcatch q _ hstep hquiet⟩
  | @step _ m₁ _ hp hside hrest =>
      by_cases hqp : q = p
      · -- The pthread that is behind catches up.
        subst q
        obtain rfl := Option.some.inj (hp.symm.trans hstep)
        exact ⟨p, _, hrest, hbal, hsame.trans hreturned.symm, as, hrun⟩
      · -- Another pthread can only leave its own `sem_wait`, and does so in the atomic run as well.
        have hbehind : Machine.Behind p m d := .step hp hside hrest
        have hcode := hbehind.code_of_ne hqp
        obtain ⟨v, rfl, hown⟩ : ∃ v, q = .task v ∧ m.code (.task v) = some [.semWait v] := by
          rcases hbal.atRest q with hnone | hempty | ⟨v, rfl, hwait⟩
          · cases (Machine.resume_done (Or.inr (hcode.trans hnone))).symm.trans hstep
          · cases (Machine.resume_done (Or.inl (hcode.trans hempty))).symm.trans hstep
          · exact ⟨v, rfl, hcode.trans hwait⟩
        obtain ⟨d', hd, hbehind'⟩ := hbehind.overtake hqp hown hstep
        obtain ⟨r, -, -, -, hquiet, hbal'⟩ := hbal.act_resume hd
        exact ⟨p, ⟨d', returned⟩, hbehind', hbal', hsame.trans hreturned.symm, _,
          hcatch _ _ hd hquiet⟩

theorem Shadowed.eq_of_call (h : Shadowed programs c₀ c) (hq : c.machine.code q = some [])
    (hrest : ∀ p', p' ≠ q → c.machine.AtRest p') (hmain : q = .main → c.machine.sched.threads = []) :
    Balanced c.machine ∧ ∃ as, Run (Follows programs Atomic) c₀ as c := by
  obtain ⟨p, ⟨d, returned⟩, hbehind, hbal, hsame, as, hrun⟩ := h
  obtain ⟨m, returned'⟩ := c
  obtain rfl : m = d := hbehind.eq_of_call hbal hq hrest hmain
  obtain rfl : returned = returned' := hsame
  exact ⟨hbal, as, hrun⟩

/-- An unhurried step is matched by the atomic run. -/
theorem Shadowed.step (h : Shadowed programs c₀ c) {a : Action}
    (hstep : Follows programs Interleaved c a c') (hok : Unhurried c a) :
    Shadowed programs c₀ c' := by
  obtain ⟨hmain, hact⟩ := interleave_eq hstep.step
  cases a with
  | resume q => exact h.resume hact hstep.returned
  | call q op =>
      obtain ⟨⟨ret, m₁⟩, hcall, hm₁⟩ := Option.map_eq_some_iff.mp hact
      have hq := (Machine.call_eq hcall).1
      have hempty : q = .main → c.machine.sched.threads = [] := by
        rintro rfl
        exact hmain op rfl
      obtain ⟨hbal, as, hrun⟩ := h.eq_of_call hq (hok q op rfl) hempty
      have hend : ∀ m', Undivided c.machine (.call q op) m' →
          Run (Follows programs Atomic) c₀ (as ++ [.call q op]) ⟨m', c'.returned⟩ :=
        fun m' hm' => hrun.snoc ⟨⟨hmain, hm'⟩, hstep.operation, hstep.returned⟩
      cases q with
      | task r =>
          have hr := hbal.running_of_handler hq
          obtain ⟨ret', m₂, m', hcall', hbehind, hquiet, hbal', -⟩ := hbal.call_task hr hq op
          obtain ⟨rfl, rfl⟩ := Prod.mk.inj (Option.some.inj (hcall'.symm.trans hcall))
          have hright : Rightful c.machine (.call (.task r) op) := by
            intro p op' heq
            obtain ⟨rfl, rfl⟩ := Action.call.inj heq
            exact Or.inl ⟨r, rfl, hr⟩
          change m₂ = c'.machine at hm₁
          subst m₂
          exact ⟨_, ⟨m', c'.returned⟩, hbehind, hbal', rfl, _,
            hend m' ⟨hright, c'.machine, hact, hbehind.settles hquiet⟩⟩
      | main =>
          obtain rfl := hstep.operation .main op rfl
          have hidle := hbal.idle_of_empty (hempty rfl)
          obtain ⟨ret', m', hcall', hquiet, hbal', -⟩ :=
            hbal.call_main hidle programs.main.1 programs.main.2
          obtain ⟨rfl, rfl⟩ := Prod.mk.inj (Option.some.inj (hcall'.symm.trans hcall))
          have hright : Rightful c.machine
              (.call .main (.fork programs.main.1 programs.main.2)) := by
            intro p op' heq
            obtain ⟨rfl, rfl⟩ := Action.call.inj heq
            exact Or.inr ⟨rfl, hidle, _, _, rfl⟩
          change m' = c'.machine at hm₁
          subst m'
          exact ⟨.main, ⟨c'.machine, c'.returned⟩, .refl _, hbal', rfl, _,
            hend _ ⟨hright, c'.machine, hact, .stop hquiet⟩⟩

end Simulation

theorem Config.init_balanced {timeQuantum io : UInt32} {s₀ : Scheduler}
    (hinit : soInit none timeQuantum io = (0, some s₀)) : Balanced (Config.init s₀).machine := by
  obtain ⟨-, -, rfl⟩ := soInit_eq hinit
  exact .boot timeQuantum io (inv_soInit hinit)

section Determinism

variable {programs : Programs} {c c₁ c₂ : Config} {a b : Action}

/-- The steps from a balanced state: the running task makes its next call or leaves its `sem_wait`,
or nothing runs and the main program makes its call. -/
theorem Balanced.action_cases (h : Balanced c.machine) (ha : Follows programs Atomic c a c₁) :
    (∃ r, c.machine.sched.runningThread = some r ∧ c.machine.code (.task r) = some [] ∧
      a = .call (.task r) (c.operation programs (.task r))) ∨
    (∃ r, c.machine.sched.runningThread = some r ∧ c.machine.code (.task r) = some [.semWait r] ∧
      a = .resume (.task r)) ∨
    c.machine.sched.runningThread = none ∧ a = .call .main (c.operation programs .main) := by
  obtain ⟨-, hright, m₁, hact, -⟩ := ha.step
  cases a with
  | call p op =>
      have hop := ha.operation p op rfl
      obtain ⟨⟨ret, m₂⟩, hcall, -⟩ := Option.map_eq_some_iff.mp hact
      have hcode := (Machine.call_eq hcall).1
      rcases hright p op rfl with ⟨r, rfl, hr⟩ | ⟨rfl, hidle, -⟩
      · exact Or.inl ⟨r, hr, hcode, congrArg _ hop⟩
      · exact Or.inr (Or.inr ⟨hidle, congrArg _ hop⟩)
  | resume p =>
      obtain ⟨r, rfl, hr, hcode, -⟩ := h.act_resume hact
      exact Or.inr (Or.inl ⟨r, hr, hcode, rfl⟩)

theorem Balanced.action_unique (h : Balanced c.machine)
    (ha : Follows programs Atomic c a c₁) (hb : Follows programs Atomic c b c₂) : a = b := by
  rcases h.action_cases ha with ⟨r, hr, hcode, rfl⟩ | ⟨r, hr, hcode, rfl⟩ | ⟨hidle, rfl⟩ <;>
    rcases h.action_cases hb with ⟨r', hr', hcode', rfl⟩ | ⟨r', hr', hcode', rfl⟩ | ⟨hidle', rfl⟩
  · rw [Option.some.inj (hr.symm.trans hr')]
  · obtain rfl := Option.some.inj (hr.symm.trans hr')
    cases hcode.symm.trans hcode'
  · cases hr.symm.trans hidle'
  · obtain rfl := Option.some.inj (hr.symm.trans hr')
    cases hcode.symm.trans hcode'
  · rw [Option.some.inj (hr.symm.trans hr')]
  · cases hr.symm.trans hidle'
  · cases hidle.symm.trans hr'
  · cases hidle.symm.trans hr'
  · rfl

theorem Balanced.atomic_unique (h : Balanced c.machine)
    (ha : Follows programs Atomic c a c₁) (hb : Follows programs Atomic c b c₂) :
    a = b ∧ c₁ = c₂ := by
  obtain rfl := h.action_unique ha hb
  obtain ⟨-, -, m₁, hact₁, hsettles₁⟩ := ha.step
  obtain ⟨-, -, m₂, hact₂, hsettles₂⟩ := hb.step
  obtain rfl := Option.some.inj (hact₁.symm.trans hact₂)
  obtain ⟨m, returned⟩ := c₁
  obtain ⟨m', returned'⟩ := c₂
  obtain rfl : m = m' := hsettles₁.unique hsettles₂
  obtain rfl : returned = returned' := ha.returned.trans hb.returned.symm
  exact ⟨rfl, rfl⟩

theorem Balanced.atomic_step (h : Balanced c.machine) (ha : Follows programs Atomic c a c₁) :
    Balanced c₁.machine := h.step ha.step.2

theorem Balanced.atomic_run {as : List Action} (h : Balanced c.machine)
    (hrun : Run (Follows programs Atomic) c as c₁) : Balanced c₁.machine :=
  hrun.invariant (P := fun c => Balanced c.machine) (fun _ _ _ hc hstep => hc.atomic_step hstep) h

theorem Config.record_call (c : Config) (u : ThreadPtr) (op : Op) :
    c.record (.call (.task u) op) = c.returned ∨
      ∃ ret, c.record (.call (.task u) op) =
        Function.update c.returned u (c.returned u ++ [ret]) := by
  cases hcall : c.machine.call (.task u) op with
  | none => exact Or.inl (by simp only [Config.record, hcall])
  | some result => exact Or.inr ⟨result.1, by simp only [Config.record, hcall]⟩

/-- Values are only added. -/
theorem Follows.returned_grows {step : Machine → Action → Machine → Prop}
    (h : Follows programs step c a c₁) (t : ThreadPtr) : c.returned t <+: c₁.returned t := by
  rw [h.returned]
  cases a with
  | resume p => exact List.prefix_rfl
  | call p op =>
      cases p with
      | main => exact List.prefix_rfl
      | task u =>
          rcases c.record_call u op with heq | ⟨ret, heq⟩ <;> rw [heq]
          by_cases htu : t = u
          · subst u
            rw [Function.update_self]
            exact List.prefix_append _ _
          · rw [Function.update_of_ne htu]

theorem returned_grows {as : List Action} (h : Run (Follows programs Atomic) c as c₁)
    (t : ThreadPtr) : c.returned t <+: c₁.returned t := by
  induction h with
  | nil c => exact List.prefix_rfl
  | cons hstep _ ih => exact (hstep.returned_grows t).trans ih

/-- Any two atomic runs of the same programs agree: one is the beginning of the other. -/
theorem atomic_runs_agree {as bs : List Action} (h : Balanced c.machine)
    (ha : Run (Follows programs Atomic) c as c₁) (hb : Run (Follows programs Atomic) c bs c₂)
    (t : ThreadPtr) : c₁.returned t <+: c₂.returned t ∨ c₂.returned t <+: c₁.returned t := by
  have hinv : ∀ d a d', Balanced d.machine → Follows programs Atomic d a d' → Balanced d'.machine :=
    fun _ _ _ hd hstep => hd.atomic_step hstep
  have hdet : ∀ d a d₁ b d₂, Balanced d.machine → Follows programs Atomic d a d₁ →
      Follows programs Atomic d b d₂ → a = b ∧ d₁ = d₂ :=
    fun _ _ _ _ _ hd hstep hstep' => hd.atomic_unique hstep hstep'
  rcases ha.comparable (fun d => Balanced d.machine) hinv hdet hb h with ⟨cs, hrest⟩ | ⟨cs, hrest⟩
  · exact Or.inl (returned_grows hrest t)
  · exact Or.inr (returned_grows hrest t)

end Determinism

/-- In every interleaving in which no call starts while another pthread is in the middle of one,
every call returns the value it returns in the run of the same programs in which each call goes on to
its caller's blocking point. A `so_wait` of the running task fails only if all others wait. -/
theorem calls_atomic {timeQuantum io : UInt32} {s₀ : Scheduler} {programs : Programs} {c : Config}
    {as : List Action} (hinit : soInit none timeQuantum io = (0, some s₀))
    (hrun : Run (Guarded Unhurried (Follows programs Interleaved)) (.init s₀) as c) :
    (∃ bs d, Run (Follows programs Atomic) (.init s₀) bs d ∧ d.returned = c.returned) ∧
    (∀ bs d, Run (Follows programs Atomic) (.init s₀) bs d →
      ∀ t, c.returned t <+: d.returned t ∨ d.returned t <+: c.returned t) ∧
    ∀ r io', c.machine.sched.runningThread = some r → c.machine.code (.task r) = some [] →
      Unhurried c (.call (.task r) (.wait io')) → io' < c.machine.sched.io →
      (c.machine.sched.soWaitSegment io').1 = .int (-1) →
      ∀ t ∈ c.machine.sched.threads, t ≠ r → (c.machine.sched.thread t).state ≠ .terminated →
        (c.machine.sched.thread t).state = .waiting := by
  have hbal₀ := Config.init_balanced hinit
  have hshadow : Shadowed programs (.init s₀) c := by
    refine hrun.invariant (fun c₁ a c₂ hc₁ hstep => hc₁.step hstep.2 hstep.1) ?_
    exact ⟨.main, _, .refl _, hbal₀, rfl, _, .nil _⟩
  refine ⟨?_, fun bs d hd t => ?_, fun r io' hr hcode hok hio hfail t ht hne hlive => ?_⟩
  · obtain ⟨-, d, -, -, hsame, bs, hd⟩ := hshadow
    exact ⟨bs, d, hd, hsame⟩
  · obtain ⟨-, d', -, -, hsame, bs', hd'⟩ := hshadow
    rw [← hsame]
    exact atomic_runs_agree hbal₀ hd' hd t
  · have hbal := (hshadow.eq_of_call hcode (hok _ _ rfl) nofun).1
    have hq : t ∈ c.machine.sched.q := by
      rcases hbal.inv.placed t ht with hq | hcpu | hnone | hdead
      · exact hq
      · exact absurd (Option.some.inj (hr.symm.trans hcpu)).symm hne
      · cases hnone
      · exact absurd hdead hlive
    unfold soWaitSegment at hfail
    rw [hr] at hfail
    dsimp only at hfail
    split_ifs at hfail with hcond
    · rcases hcond with hbig | hlength | hfront
      · exact absurd hio (UInt32.not_lt.mpr hbig)
      · rw [List.length_eq_zero_iff.mp hlength] at hq
        cases hq
      · by_contra hw
        cases (front_none hfront hq).symm.trans (notWaiting_iff.mpr hw)
    · cases hfail

/-- The first thread forks one of higher priority, which waits for a device. -/
def overtaking : Programs where
  main := (some 1, 0)
  task handler _ returned :=
    if handler = 1 then if returned = [] then .fork (some 2) 1 else .exec else .wait 0

/-- The step to a given machine. -/
def Config.after (c : Config) (a : Action) (m : Machine) : Config := ⟨m, c.record a⟩

theorem Config.follows_call {programs : Programs} {step : Machine → Action → Machine → Prop}
    {c : Config} {p : Pthread} {op : Op} {m : Machine} (hop : op = c.operation programs p)
    (hstep : step c.machine (.call p op) m) :
    Follows programs step c (.call p op) (c.after (.call p op) m) := by
  refine ⟨hstep, fun p' op' heq => ?_, rfl⟩
  obtain ⟨rfl, rfl⟩ := Action.call.inj heq
  exact hop

theorem Config.follows_resume {programs : Programs} {step : Machine → Action → Machine → Prop}
    {c : Config} {p : Pthread} {m : Machine} (hstep : step c.machine (.resume p) m) :
    Follows programs step c (.resume p) (c.after (.resume p) m) := ⟨hstep, nofun, rfl⟩

def overtakingFirst : Machine :=
  ((Machine.boot (Scheduler.start 5 1)).act (.call .main (.fork (some 1) 0))).get (by decide +kernel)

def overtakingForked : Config :=
  (Config.init (Scheduler.start 5 1)).after (.call .main (.fork (some 1) 0)) overtakingFirst

def overtakingStarted : Config :=
  overtakingForked.after (.resume (.task 0))
    ((overtakingForked.machine.act (.resume (.task 0))).get (by decide +kernel))

/-- The preempting `so_fork` has posted the new thread. -/
def overtakingWindow : Config :=
  overtakingStarted.after (.call (.task 0) (.fork (some 2) 1))
    ((overtakingStarted.machine.act (.call (.task 0) (.fork (some 2) 1))).get (by decide +kernel))

/-- The new thread overtakes the rest of the `so_fork`. -/
def overtakingAhead : Config :=
  overtakingWindow.after (.resume (.task 1))
    ((overtakingWindow.machine.act (.resume (.task 1))).get (by decide +kernel))

def overtakingFailed : Config :=
  overtakingAhead.after (.call (.task 1) (.wait 0))
    ((overtakingAhead.machine.act (.call (.task 1) (.wait 0))).get (by decide +kernel))

theorem run_overtakingFailed : Run (Follows overtaking Interleaved)
    (.init (Scheduler.start 5 1))
    [.call .main (.fork (some 1) 0), .resume (.task 0), .call (.task 0) (.fork (some 2) 1),
      .resume (.task 1), .call (.task 1) (.wait 0)] overtakingFailed :=
  .cons (Config.follows_call rfl (Option.some_get _).symm) <|
  .cons (Config.follows_resume (Option.some_get _).symm) <|
  .cons (Config.follows_call (by decide +kernel) (Option.some_get _).symm) <|
  .cons (Config.follows_resume (Option.some_get _).symm) <|
  .single (Config.follows_call (by decide +kernel) (Option.some_get _).symm)

/-- The rest of the `so_fork` before the new thread goes on. -/
def overtakingForkEnd : Config :=
  overtakingStarted.after (.call (.task 0) (.fork (some 2) 1))
    ((overtakingWindow.machine.act (.resume (.task 0))).get (by decide +kernel))

def overtakingInTurn : Config :=
  overtakingForkEnd.after (.resume (.task 1))
    ((overtakingForkEnd.machine.act (.resume (.task 1))).get (by decide +kernel))

def overtakingWaits : Config :=
  overtakingInTurn.after (.call (.task 1) (.wait 0))
    ((overtakingInTurn.machine.act (.call (.task 1) (.wait 0))).get (by decide +kernel))

theorem rightful_of_running {m : Machine} {r : ThreadPtr} (op : Op)
    (hr : m.sched.runningThread = some r) : Rightful m (.call (.task r) op) := by
  intro p op' heq
  obtain ⟨rfl, rfl⟩ := Action.call.inj heq
  exact Or.inl ⟨r, rfl, hr⟩

theorem run_overtakingStarted : Run (Follows overtaking Atomic) (.init (Scheduler.start 5 1))
    [.call .main (.fork (some 1) 0), .resume (.task 0)] overtakingStarted := by
  have hforked : Atomic (Machine.boot (Scheduler.start 5 1)) (.call .main (.fork (some 1) 0))
      overtakingForked.machine := by
    have hact : (Machine.boot (Scheduler.start 5 1)).act (.call .main (.fork (some 1) 0)) =
        some overtakingFirst := (Option.some_get _).symm
    refine ⟨fun _ _ => rfl, fun p op heq => ?_, overtakingForked.machine, hact,
      .stop (Option.isNone_iff_eq_none.mp (by decide +kernel))⟩
    obtain ⟨rfl, rfl⟩ := Action.call.inj heq
    exact Or.inr ⟨rfl, rfl, _, _, rfl⟩
  have hstarted : Atomic overtakingForked.machine (.resume (.task 0)) overtakingStarted.machine :=
    ⟨nofun, nofun, _, (Option.some_get _).symm,
      .stop (Option.isNone_iff_eq_none.mp (by decide +kernel))⟩
  exact .cons (Config.follows_call rfl hforked) (.single (Config.follows_resume hstarted))

theorem run_overtakingInTurn : Run (Follows overtaking Atomic) (.init (Scheduler.start 5 1))
    ([.call .main (.fork (some 1) 0), .resume (.task 0)] ++ [.call (.task 0) (.fork (some 2) 1)] ++
      [.resume (.task 1)]) overtakingInTurn := by
  have hfork : Atomic overtakingStarted.machine (.call (.task 0) (.fork (some 2) 1))
      overtakingForkEnd.machine :=
    ⟨nofun, rightful_of_running _ (by decide +kernel), overtakingWindow.machine,
      (Option.some_get _).symm, .step (Option.some_get _).symm
        (.stop (Option.isNone_iff_eq_none.mp (by decide +kernel)))⟩
  have hturn : Atomic overtakingForkEnd.machine (.resume (.task 1)) overtakingInTurn.machine :=
    ⟨nofun, nofun, _, (Option.some_get _).symm,
      .stop (Option.isNone_iff_eq_none.mp (by decide +kernel))⟩
  exact (run_overtakingStarted.snoc (Config.follows_call (by decide +kernel) hfork)).snoc
    (Config.follows_resume hturn)

theorem run_overtakingWaits : Run (Follows overtaking Atomic) (.init (Scheduler.start 5 1))
    ([.call .main (.fork (some 1) 0), .resume (.task 0)] ++ [.call (.task 0) (.fork (some 2) 1)] ++
      [.resume (.task 1)] ++ [.call (.task 1) (.wait 0)]) overtakingWaits := by
  have hwait : Atomic overtakingInTurn.machine (.call (.task 1) (.wait 0)) overtakingWaits.machine :=
    ⟨nofun, rightful_of_running _ (by decide +kernel), _, (Option.some_get _).symm,
      .stop (Option.isNone_iff_eq_none.mp (by decide +kernel))⟩
  exact run_overtakingInTurn.snoc (Config.follows_call (by decide +kernel) hwait)

/-- The `so_wait` of the overtaking thread fails in the middle of the `so_fork`, where it would succeed
after it. -/
theorem overtaken_call_fails : ¬∀ (timeQuantum io : UInt32) (s₀ : Scheduler) (programs : Programs)
    (c : Config) (as : List Action), soInit none timeQuantum io = (0, some s₀) →
      Run (Follows programs Interleaved) (.init s₀) as c →
      (∃ bs d, Run (Follows programs Atomic) (.init s₀) bs d ∧ d.returned = c.returned) ∧
      ∀ r io', c.machine.sched.runningThread = some r → c.machine.code (.task r) = some [] →
        io' < c.machine.sched.io → (c.machine.sched.soWaitSegment io').1 = .int (-1) →
        ∀ t ∈ c.machine.sched.threads, t ≠ r → (c.machine.sched.thread t).state ≠ .terminated →
          (c.machine.sched.thread t).state = .waiting := by
  intro h
  obtain ⟨bs, d, hd, hsame⟩ := (h 5 1 _ _ _ _ rfl run_overtakingFailed).1
  have hinit : soInit none 5 1 = (0, some (Scheduler.start 5 1)) := rfl
  have hagree := atomic_runs_agree (Config.init_balanced hinit) hd run_overtakingWaits 1
  have hfailed : overtakingFailed.returned 1 = [.int (-1)] := by decide +kernel
  have hvalue : overtakingWaits.returned 1 = [.int 0] := by decide +kernel
  rw [hsame, hfailed, hvalue] at hagree
  revert hagree
  decide

/-- Where the `so_fork` comes to its caller's `sem_wait` first, no call of the run starts inside another,
and the `so_wait` succeeds. -/
theorem calls_atomic_inTurn :
    overtakingWaits.returned 0 = [.tid (some 1)] ∧ overtakingWaits.returned 1 = [.int 0] ∧
      (∃ bs d, Run (Follows overtaking Atomic) (.init (Scheduler.start 5 1)) bs d ∧
        d.returned = overtakingWaits.returned) ∧
      ∀ bs d, Run (Follows overtaking Atomic) (.init (Scheduler.start 5 1)) bs d →
        ∀ t, overtakingWaits.returned t <+: d.returned t ∨
          d.returned t <+: overtakingWaits.returned t := by
  have hinit : soInit none 5 1 = (0, some (Scheduler.start 5 1)) := rfl
  have hstarted : ∀ q, overtakingStarted.machine.AtRest q :=
    ((Config.init_balanced hinit).atomic_run run_overtakingStarted).atRest
  have hturn : ∀ q, overtakingInTurn.machine.AtRest q :=
    ((Config.init_balanced hinit).atomic_run run_overtakingInTurn).atRest
  have hrun : Run (Guarded Unhurried (Follows overtaking Interleaved)) (.init (Scheduler.start 5 1))
      [.call .main (.fork (some 1) 0), .resume (.task 0), .call (.task 0) (.fork (some 2) 1),
        .resume (.task 0), .resume (.task 1), .call (.task 1) (.wait 0)] overtakingWaits :=
    .cons ⟨fun _ _ _ q _ => (Config.init_balanced hinit).atRest q,
      Config.follows_call rfl (Option.some_get _).symm⟩ <|
    .cons ⟨nofun, Config.follows_resume (Option.some_get _).symm⟩ <|
    .cons ⟨fun _ _ _ q _ => hstarted q,
      Config.follows_call (by decide +kernel) (Option.some_get _).symm⟩ <|
    .cons ⟨nofun, Config.follows_resume (Option.some_get _).symm⟩ <|
    .cons ⟨nofun, Config.follows_resume (Option.some_get _).symm⟩ <|
    .single ⟨fun _ _ _ q _ => hturn q,
      Config.follows_call (by decide +kernel) (Option.some_get _).symm⟩
  have hatomic := @calls_atomic 5 1 _ _ _ _ hinit hrun
  exact ⟨by decide +kernel, by decide +kernel, hatomic.1, hatomic.2.1⟩

end OsHomeworks.ThreadScheduler
