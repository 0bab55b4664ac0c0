import OsHomeworks.SchedulerSteps
import OsHomeworks.Runs
import Mathlib.Data.Finset.Insert

/-! `so_end`. The main program joins the recorded threads one after the other while the tasks that
are left fork further ones, so the bound of its loop grows as it runs, and a thread exists before
`add_thread` records it. Which thread the scheduler dispatches is left open: every thread of the
queue may be. A thread that is not recorded yet has a forker that is recorded and has not terminated,
so the loop cannot have passed it. -/

namespace OsHomeworks.ThreadScheduler

open Runs

/-- What is done of a `so_fork`. -/
inductive Forking where
  | created (thread : ThreadPtr)
  | added (thread : ThreadPtr)
  | scheduled
  deriving DecidableEq

/-- Where the main program is: before `so_end`, at the comparison of `i` with `n`, in `pthread_join`
of `threads[i]`, or behind the loop. -/
inductive MainProgram where
  | working
  | compare (i : ℕ)
  | join (i : ℕ)
  | left
  deriving DecidableEq

/-- The threads from the first `so_fork` on. `threads` are the cells `threads[0..n)`, `fork` the
`so_fork` a pthread is in; the threads are numbered in the order of their creation. -/
structure Session where
  created : ℕ
  threads : List ThreadPtr
  fork : Pthread → Option Forking
  queued : Finset ThreadPtr
  dispatched : Finset ThreadPtr
  terminated : Finset ThreadPtr
  program : MainProgram
  joined : List ThreadPtr

namespace Session

def start : Session := ⟨0, [], fun _ => none, ∅, ∅, ∅, .working, []⟩

/-- The pthreads that may call `so_fork`: the main program before `so_end`, and a task in its
handler. -/
def MayFork (s : Session) : Pthread → Prop
  | .main => s.program = .working ∧ s.fork .main = none
  | .task t => t ∈ s.dispatched ∧ t ∉ s.terminated ∧ s.fork (.task t) = none

/-- A step of a pthread. -/
inductive Advance : Session → Pthread → Session → Prop where
  | create {s p} : s.MayFork p → Advance s p { s with
      created := s.created + 1
      fork := Function.update s.fork p (some (.created s.created)) }
  | addThread {s p u} : s.fork p = some (.created u) → Advance s p { s with
      threads := s.threads ++ [u]
      fork := Function.update s.fork p (some (.added u)) }
  | schedule {s p u} : s.fork p = some (.added u) → Advance s p { s with
      queued := insert u s.queued
      fork := Function.update s.fork p (some .scheduled) }
  | forked {s p} : s.fork p = some .scheduled → Advance s p { s with
      fork := Function.update s.fork p none }
  | dispatch {s t} : t ∈ s.queued → t ∉ s.dispatched → Advance s (.task t) { s with
      dispatched := insert t s.dispatched }
  | terminate {s t} : t ∈ s.dispatched → t ∉ s.terminated → s.fork (.task t) = none →
      Advance s (.task t) { s with terminated := insert t s.terminated }
  | soEnd {s} : s.program = .working → s.fork .main = none →
      Advance s .main { s with program := .compare 0 }
  | more {s i} : s.program = .compare i → i < s.threads.length →
      Advance s .main { s with program := .join i }
  | done {s i} : s.program = .compare i → s.threads.length ≤ i →
      Advance s .main { s with program := .left }
  | join {s i t} : s.program = .join i → s.threads[i]? = some t → t ∈ s.terminated →
      Advance s .main { s with program := .compare (i + 1), joined := s.joined ++ [t] }

/-- How far the loop has come. -/
def Progress (s : Session) : Prop :=
  match s.program with
  | .working => s.joined = []
  | .compare i => i ≤ s.threads.length ∧ s.joined = s.threads.take i
  | .join i => i < s.threads.length ∧ s.joined = s.threads.take i
  | .left => s.joined = s.threads

/-- Every thread is recorded or in the hands of its forker; a forker, other than the main program
before `so_end`, is a recorded task that has not terminated; what is joined has terminated. -/
structure Inv (s : Session) : Prop where
  nodup : s.threads.Nodup
  recorded : ∀ u ∈ s.threads, u < s.created
  placed : ∀ u < s.created, u ∈ s.threads ∨ ∃ p, s.fork p = some (.created u)
  unrecorded : ∀ p u, s.fork p = some (.created u) → u < s.created ∧ u ∉ s.threads
  forkers : ∀ p q u, s.fork p = some (.created u) → s.fork q = some (.created u) → p = q
  added : ∀ p u, s.fork p = some (.added u) → u ∈ s.threads
  queued : ∀ t ∈ s.queued, t ∈ s.threads
  dispatched : s.dispatched ⊆ s.queued
  terminated : s.terminated ⊆ s.dispatched
  live : ∀ t, s.fork (.task t) ≠ none → t ∈ s.dispatched ∧ t ∉ s.terminated
  main : s.fork .main ≠ none → s.program = .working
  joined : ∀ t ∈ s.joined, t ∈ s.terminated
  progress : s.Progress

variable {s s' : Session} {p q : Pthread} {t u : ThreadPtr}

theorem inv_start : start.Inv :=
  ⟨List.nodup_nil, by simp [start], by simp [start], by simp [start], by simp [start],
    by simp [start], by simp [start], by simp [start], by simp [start], by simp [start],
    by simp [start], by simp [start], rfl⟩

/-- A pthread in `so_fork` is the main program before `so_end`, or a recorded task that has not
terminated. -/
theorem Inv.forker (h : s.Inv) (hp : s.fork p ≠ none) :
    p = .main ∧ s.program = .working ∨ ∃ t, p = .task t ∧ t ∈ s.threads ∧ t ∉ s.terminated := by
  cases p with
  | main => exact Or.inl ⟨rfl, h.main hp⟩
  | task t =>
      obtain ⟨hdispatched, hlive⟩ := h.live t hp
      exact Or.inr ⟨t, rfl, h.queued t (h.dispatched hdispatched), hlive⟩

theorem Inv.joined_eq (h : s.Inv) (hleft : s.program = .left) : s.joined = s.threads := by
  have hprogress := h.progress
  unfold Progress at hprogress
  rw [hleft] at hprogress
  exact hprogress

/-- Behind the loop every recorded thread has terminated and nobody forks. -/
theorem Inv.left (h : s.Inv) (hleft : s.program = .left) :
    (∀ t ∈ s.threads, t ∈ s.terminated) ∧ ∀ p, s.fork p = none := by
  have hjoined := h.joined_eq hleft
  have hall : ∀ t ∈ s.threads, t ∈ s.terminated := fun t ht => h.joined t (hjoined ▸ ht)
  refine ⟨hall, fun p => ?_⟩
  by_contra hp
  rcases h.forker hp with ⟨-, hworking⟩ | ⟨t, -, ht, hlive⟩
  · rw [hleft] at hworking
    cases hworking
  · exact hlive (hall t ht)

theorem MayFork.none (hp : s.MayFork p) : s.fork p = none := by
  cases p with
  | main => exact hp.2
  | task t => exact hp.2.2

theorem Inv.create (h : s.Inv) (hp : s.MayFork p) : Inv { s with
    created := s.created + 1
    fork := Function.update s.fork p (some (.created s.created)) } := by
  have hnone := hp.none
  refine { h with
    recorded := fun u hu => Nat.lt_succ_of_lt (h.recorded u hu)
    placed := fun u hu => ?_
    unrecorded := fun q u hq => ?_
    forkers := fun q q' u hq hq' => ?_
    added := fun q u hq => ?_
    live := fun t ht => ?_
    main := fun hm => ?_ }
  · rcases Nat.lt_succ_iff_lt_or_eq.mp hu with hlt | rfl
    · refine (h.placed u hlt).imp_right fun ⟨q, hq⟩ => ⟨q, ?_⟩
      have hne : q ≠ p := fun heq => by simp [heq, hnone] at hq
      simp [Function.update_of_ne hne, hq]
    · exact Or.inr ⟨p, by simp⟩
  · show u < s.created + 1 ∧ u ∉ s.threads
    by_cases hqp : q = p
    · obtain rfl : s.created = u := by simpa [hqp] using hq
      exact ⟨Nat.lt_succ_self _, fun hu => lt_irrefl _ (h.recorded _ hu)⟩
    · obtain ⟨hlt, hmem⟩ := h.unrecorded q u (by simpa [hqp] using hq)
      exact ⟨Nat.lt_succ_of_lt hlt, hmem⟩
  · -- the number of the new thread is above those of all others
    have hnew : ∀ q, q ≠ p → s.fork q ≠ some (.created s.created) :=
      fun q _ hq => lt_irrefl _ (h.unrecorded q _ hq).1
    by_cases hqp : q = p <;> by_cases hqp' : q' = p
    · rw [hqp, hqp']
    · obtain rfl : s.created = u := by simpa [hqp] using hq
      exact absurd (by simpa [hqp'] using hq') (hnew q' hqp')
    · obtain rfl : s.created = u := by simpa [hqp'] using hq'
      exact absurd (by simpa [hqp] using hq) (hnew q hqp)
    · exact h.forkers q q' u (by simpa [hqp] using hq) (by simpa [hqp'] using hq')
  · by_cases hqp : q = p
    · simp [hqp] at hq
    · exact h.added q u (by simpa [hqp] using hq)
  · by_cases htp : .task t = p
    · subst p
      exact ⟨hp.1, hp.2.1⟩
    · exact h.live t (by simpa [htp] using ht)
  · by_cases hmp : .main = p
    · subst p
      exact hp.1
    · exact h.main (by simpa [hmp] using hm)

/-- A thread appended at the end does not change what the loop has passed. -/
theorem Progress.append (h : s.Progress) (hleft : s.program ≠ .left) (u : ThreadPtr)
    (fork : Pthread → Option Forking) :
    Progress { s with threads := s.threads ++ [u], fork := fork } := by
  unfold Progress at h ⊢
  dsimp only
  cases hprogram : s.program with
  | working => simpa [hprogram] using h
  | compare i =>
      simp only [hprogram] at h ⊢
      obtain ⟨hle, hjoined⟩ := h
      rw [List.take_append_of_le_length hle, List.length_append]
      exact ⟨by omega, hjoined⟩
  | join i =>
      simp only [hprogram] at h ⊢
      obtain ⟨hlt, hjoined⟩ := h
      rw [List.take_append_of_le_length hlt.le, List.length_append]
      exact ⟨by omega, hjoined⟩
  | left => exact absurd hprogram hleft

theorem Inv.addThread (h : s.Inv) (hp : s.fork p = some (.created u)) : Inv { s with
    threads := s.threads ++ [u]
    fork := Function.update s.fork p (some (.added u)) } := by
  obtain ⟨hlt, hnew⟩ := h.unrecorded p u hp
  have hkeep : ∀ v ∈ s.threads, v ∈ s.threads ++ [u] := fun v hv => List.mem_append_left _ hv
  refine { h with
    nodup := ?_
    recorded := fun v hv => ?_
    placed := fun v hv => ?_
    unrecorded := fun q v hq => ?_
    forkers := fun q q' v hq hq' => ?_
    added := fun q v hq => ?_
    queued := fun t ht => hkeep t (h.queued t ht)
    live := fun t ht => ?_
    main := fun hm => ?_
    progress := h.progress.append (fun hleft => ?_) u _ }
  · refine List.nodup_append.mpr ⟨h.nodup, List.nodup_singleton u, fun a ha b hb => ?_⟩
    rintro rfl
    exact hnew (List.mem_singleton.mp hb ▸ ha)
  · rcases List.mem_append.mp hv with hv | hv
    · exact h.recorded v hv
    · rw [List.mem_singleton.mp hv]
      exact hlt
  · rcases h.placed v hv with hmem | ⟨q, hq⟩
    · exact Or.inl (hkeep v hmem)
    · by_cases hqp : q = p
      · obtain rfl : u = v := by simpa [hqp, hp] using hq
        exact Or.inl (by simp)
      · exact Or.inr ⟨q, by simp [Function.update_of_ne hqp, hq]⟩
  · by_cases hqp : q = p
    · simp [hqp] at hq
    · have hq' : s.fork q = some (.created v) := by simpa [hqp] using hq
      obtain ⟨hvlt, hvmem⟩ := h.unrecorded q v hq'
      refine ⟨hvlt, fun hmem => ?_⟩
      rcases List.mem_append.mp hmem with hmem | hmem
      · exact hvmem hmem
      · obtain rfl := List.mem_singleton.mp hmem
        exact hqp (h.forkers q p v hq' hp)
  · by_cases hqp : q = p
    · simp [hqp] at hq
    · by_cases hqp' : q' = p
      · simp [hqp'] at hq'
      · exact h.forkers q q' v (by simpa [hqp] using hq) (by simpa [hqp'] using hq')
  · by_cases hqp : q = p
    · obtain rfl : u = v := by simpa [hqp] using hq
      simp
    · exact hkeep v (h.added q v (by simpa [hqp] using hq))
  · by_cases htp : .task t = p
    · exact h.live t (by simp [htp, hp])
    · exact h.live t (by simpa [htp] using ht)
  · by_cases hmp : .main = p
    · exact h.main (by simp [hmp, hp])
    · exact h.main (by simpa [hmp] using hm)
  · rw [(h.left hleft).2 p] at hp
    cases hp

/-- A `so_fork` whose thread is recorded goes on. -/
theorem Inv.setFork (h : s.Inv) {old : Forking} (hp : s.fork p = some old)
    (hold : ∀ u, old ≠ .created u) {new : Option Forking}
    (hnew : ∀ u, new ≠ some (.created u) ∧ new ≠ some (.added u)) :
    Inv { s with fork := Function.update s.fork p new } := by
  have hother : ∀ q u, Function.update s.fork p new q = some (.created u) →
      s.fork q = some (.created u) := by
    intro q u hq
    by_cases hqp : q = p
    · exact absurd (by simpa [hqp] using hq) (hnew u).1
    · simpa [hqp] using hq
  have hbusy : ∀ q, Function.update s.fork p new q ≠ none → s.fork q ≠ none := by
    intro q hq
    by_cases hqp : q = p
    · simp [hqp, hp]
    · simpa [hqp] using hq
  refine { h with
    placed := fun u hu => (h.placed u hu).imp_right fun ⟨q, hq⟩ => ⟨q, ?_⟩
    unrecorded := fun q u hq => h.unrecorded q u (hother q u hq)
    forkers := fun q q' u hq hq' => h.forkers q q' u (hother q u hq) (hother q' u hq')
    added := fun q u hq => ?_
    live := fun t ht => h.live t (hbusy _ ht)
    main := fun hm => h.main (hbusy _ hm) }
  · by_cases hqp : q = p
    · exact absurd (by simpa [hqp] using hq) (hnew u).2
    · exact h.added q u (by simpa [hqp] using hq)
  · have hne : q ≠ p := fun heq => by
      rw [heq, hp] at hq
      exact hold u (Option.some.inj hq)
    simp [Function.update_of_ne hne, hq]

theorem Inv.enqueue (h : s.Inv) (hu : u ∈ s.threads) :
    Inv { s with queued := insert u s.queued } := by
  refine { h with
    queued := fun t ht => ?_
    dispatched := h.dispatched.trans (Finset.subset_insert u s.queued) }
  rcases Finset.mem_insert.mp ht with rfl | ht
  · exact hu
  · exact h.queued t ht

theorem Inv.dispatch (h : s.Inv) (ht : t ∈ s.queued) :
    Inv { s with dispatched := insert t s.dispatched } :=
  { h with
    dispatched := Finset.insert_subset ht h.dispatched
    terminated := h.terminated.trans (Finset.subset_insert t s.dispatched)
    live := fun u hu => ⟨Finset.mem_insert_of_mem (h.live u hu).1, (h.live u hu).2⟩ }

theorem Inv.terminate (h : s.Inv) (ht : t ∈ s.dispatched) (hfork : s.fork (.task t) = none) :
    Inv { s with terminated := insert t s.terminated } := by
  refine { h with
    terminated := Finset.insert_subset ht h.terminated
    live := fun u hu => ⟨(h.live u hu).1, fun hmem => ?_⟩
    joined := fun u hu => Finset.mem_insert_of_mem (h.joined u hu) }
  rcases Finset.mem_insert.mp hmem with rfl | hmem
  · exact hu hfork
  · exact (h.live u hu).2 hmem

/-- The main program makes a step of its own in `so_end`. -/
theorem Inv.setProgram (h : s.Inv) {program : MainProgram} {joined : List ThreadPtr}
    (hfork : s.fork .main = none) (hjoined : ∀ t ∈ joined, t ∈ s.terminated)
    (hprogress : Progress { s with program := program, joined := joined }) :
    Inv { s with program := program, joined := joined } :=
  { h with
    main := fun hm => absurd hfork hm
    joined := hjoined
    progress := hprogress }

/-- In `so_end` the main program does not fork. -/
theorem Inv.main_idle (h : s.Inv) (hprogram : s.program ≠ .working) : s.fork .main = none := by
  by_contra hm
  exact hprogram (h.main hm)

theorem Inv.step (h : s.Inv) (hstep : Advance s p s') : s'.Inv := by
  have hprogress := h.progress
  unfold Progress at hprogress
  cases hstep with
  | create hp => exact h.create hp
  | addThread hp => exact h.addThread hp
  | schedule hp =>
      have hset : Inv { s with fork := Function.update s.fork p (some .scheduled) } :=
        h.setFork hp (fun u => by simp) fun u => by simp
      exact hset.enqueue (h.added p _ hp)
  | forked hp => exact h.setFork hp (fun u => by simp) fun u => by simp
  | dispatch ht _ => exact h.dispatch ht
  | terminate ht _ hfork => exact h.terminate ht hfork
  | soEnd hworking hfork =>
      rw [hworking] at hprogress
      exact h.setProgram hfork h.joined ⟨Nat.zero_le _, by simpa using hprogress⟩
  | more hcompare hlt =>
      rw [hcompare] at hprogress
      exact h.setProgram (h.main_idle (by simp [hcompare])) h.joined ⟨hlt, hprogress.2⟩
  | done hcompare hle =>
      rw [hcompare] at hprogress
      refine h.setProgram (h.main_idle (by simp [hcompare])) h.joined ?_
      exact hprogress.2.trans (List.take_of_length_le hle)
  | @join i t hjoin hget hterminated =>
      rw [hjoin] at hprogress
      obtain ⟨hlt, hjoined⟩ := hprogress
      refine h.setProgram (h.main_idle (by simp [hjoin])) (fun u hu => ?_) ⟨hlt, ?_⟩
      · rcases List.mem_append.mp hu with hu | hu
        · exact h.joined u hu
        · rw [List.mem_singleton.mp hu]
          exact hterminated
      · rw [hjoined, List.take_add_one, hget, Option.toList_some]

/-- Behind the loop there is no step left to take. -/
theorem Inv.no_step (h : s.Inv) (hleft : s.program = .left) : ¬Advance s p s' := by
  obtain ⟨hall, hnone⟩ := h.left hleft
  have hended : ∀ t ∈ s.queued, t ∈ s.terminated := fun t ht => hall t (h.queued t ht)
  intro hstep
  cases hstep with
  | create hp =>
      cases p with
      | main => simp [MayFork, hleft] at hp
      | task t => exact hp.2.1 (hended t (h.dispatched hp.1))
  | addThread hp => simp [hnone] at hp
  | schedule hp => simp [hnone] at hp
  | forked hp => simp [hnone] at hp
  | dispatch ht hnot => exact hnot (h.terminated (hended _ ht))
  | terminate ht hlive _ => exact hlive (hended _ (h.dispatched ht))
  | soEnd hworking _ => simp [hleft] at hworking
  | more hcompare _ => simp [hleft] at hcompare
  | done hcompare _ => simp [hleft] at hcompare
  | join hjoin _ _ => simp [hleft] at hjoin

end Session

/-- In every interleaving, when the loop of `so_end` is left every thread ever created is recorded,
has terminated and was joined once, no `so_fork` is in progress, and nobody takes a further step. -/
theorem so_end_joins_everybody {s : Session} {moves : List Pthread}
    (hrun : Run Session.Advance Session.start moves s) (hleft : s.program = .left) :
    (∀ u < s.created, u ∈ s.threads ∧ u ∈ s.terminated ∧ s.joined.count u = 1) ∧
    (∀ u ∈ s.joined, u < s.created) ∧ (∀ p, s.fork p = none) ∧
    ∀ p s', ¬Session.Advance s p s' := by
  have h : s.Inv := hrun.invariant (fun _ _ _ h hstep => h.step hstep) Session.inv_start
  obtain ⟨hall, hnone⟩ := h.left hleft
  have hjoined := h.joined_eq hleft
  refine ⟨fun u hu => ?_, fun u hu => h.recorded u (hjoined ▸ hu), hnone, fun p s' => h.no_step hleft⟩
  have hmem : u ∈ s.threads := by
    refine (h.placed u hu).resolve_right ?_
    rintro ⟨p, hp⟩
    simp [hnone p] at hp
  refine ⟨hmem, hall u hmem, ?_⟩
  rw [hjoined]
  exact List.count_eq_one_of_mem h.nodup hmem

/-- The main program forks thread 0 and calls `so_end`; thread 0 forks thread 1 while it is joined. -/
def lateFork : List Pthread :=
  [.main, .main, .main, .main, .task 0, .main, .main, .task 0, .task 0, .task 0, .task 0, .task 0,
    .task 1, .main, .main, .task 1, .main, .main]

open Session Advance in
theorem run_lateFork : ∃ s, Run Advance start lateFork s ∧ s.program = .left ∧ s.created = 2 :=
  ⟨_, .cons (create ⟨rfl, rfl⟩) <| .cons (addThread rfl) <| .cons (schedule rfl) <|
    .cons (forked rfl) <| .cons (dispatch (by decide) (by decide)) <| .cons (soEnd rfl rfl) <|
    .cons (more rfl (by decide)) <| .cons (create ⟨by decide, by decide, rfl⟩) <|
    .cons (addThread rfl) <| .cons (schedule rfl) <| .cons (forked rfl) <|
    .cons (terminate (by decide) (by decide) rfl) <| .cons (dispatch (by decide) (by decide)) <|
    .cons (join rfl rfl (by decide)) <| .cons (more rfl (by decide)) <|
    .cons (terminate (by decide) (by decide) rfl) <| .cons (join rfl rfl (by decide)) <|
    .single (done rfl (by decide)), rfl, rfl⟩

theorem so_end_joins_everybody_lateFork : ∃ s : Session,
    Run Session.Advance Session.start lateFork s ∧ s.program = .left ∧ s.created = 2 ∧
      ∀ u < s.created, u ∈ s.threads ∧ u ∈ s.terminated ∧ s.joined.count u = 1 := by
  obtain ⟨s, hrun, hleft, hcreated⟩ := run_lateFork
  exact ⟨s, hrun, hleft, hcreated, (so_end_joins_everybody hrun hleft).1⟩

end OsHomeworks.ThreadScheduler
