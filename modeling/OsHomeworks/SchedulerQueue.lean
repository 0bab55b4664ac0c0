import OsHomeworks.SchedulerModel
import OsHomeworks.CellArray
import OsHomeworks.Runs

/-! The array behind the scheduler's queue: the functions of `priority_queue.c` with their loops, on
cells that are allocated and shifted in place. After every sequence of calls the cells
`q[0..size)` are the list on which the scheduler's model works, and every call that does not run out
of memory returns. -/

namespace OsHomeworks.ThreadScheduler

open StableQueue CellArray Runs

/-- `pq_t`. The pointer `q` is null as long as nothing is allocated; the fields of type `int` are
numbers, they stay below `INT_MAX` as long as fewer than `2 ^ 30` threads are queued. -/
structure Pq where
  q : Cells ThreadPtr
  size : ℕ
  capacity : ℕ

/-- `pq_create`; `memory` has no meaning, no cell is allocated. -/
def pqCreate (memory : ℕ → ThreadPtr) : Pq := ⟨⟨memory, 0⟩, 0, 1⟩

namespace Pq

/-- `alloc_memory_for_pq`: the first allocation is for one cell whatever the capacity. A failed
allocation ends the program. -/
def allocMemory (pq : Pq) (memory : Option (ℕ → ThreadPtr)) : Except Failure Pq := do
  let capacity := pq.capacity * 2
  if pq.q.allocated ≠ 0 then
    let q ← pq.q.resize capacity memory
    return { pq with q, capacity }
  else
    let q ← pq.q.resize 1 memory
    return { pq with q, capacity }

/-- The outer loop of `enqueue` from `i` on, with `n` turns left: `t` is in the last cell
`q[i + n]`. -/
def insertFrom (prio : ThreadPtr → ℕ) (t : ThreadPtr) (i : ℕ) :
    ℕ → Cells ThreadPtr → Except Failure (Cells ThreadPtr)
  | 0, q => .ok q
  | n + 1, q => do
      let u ← q.read i
      if prio t > prio u then
        let q ← q.shiftUp i (i + (n + 1))
        q.write i t
      else insertFrom prio t (i + 1) n q

/-- The statements of `enqueue` before the first write. -/
def grow (pq : Pq) (memory : Option (ℕ → ThreadPtr)) : Except Failure Pq :=
  let pq := { pq with size := pq.size + 1 }
  if pq.size = pq.capacity then pq.allocMemory memory else .ok pq

def enqueue (pq : Pq) (prio : ThreadPtr → ℕ) (t : ThreadPtr) (memory : Option (ℕ → ThreadPtr)) :
    Except Failure Pq := do
  let pq ← pq.grow memory
  let q ← pq.q.write (pq.size - 1) t
  let q ← insertFrom prio t 0 (pq.size - 1) q
  return { pq with q }

/-- The loop of `front` from `i` on, with `n` turns left. -/
def frontFrom (q : Cells ThreadPtr) (notWaiting : ThreadPtr → Bool) (i : ℕ) :
    ℕ → Except Failure (Option ThreadPtr)
  | 0 => .ok none
  | n + 1 => do
      let t ← q.read i
      if notWaiting t then return some t
      else frontFrom q notWaiting (i + 1) n

def front (pq : Pq) (notWaiting : ThreadPtr → Bool) : Except Failure (Option ThreadPtr) :=
  frontFrom pq.q notWaiting 0 pq.size

/-- The loop of `dequeue` from `i` on, with `n` turns left. -/
def dequeueFrom (pq : Pq) (notWaiting : ThreadPtr → Bool) (i : ℕ) :
    ℕ → Except Failure (Option ThreadPtr × Pq)
  | 0 => .ok (none, pq)
  | n + 1 => do
      let t ← pq.q.read i
      if notWaiting t then
        let q ← pq.q.shiftDown i (pq.size - 1 - i)
        return (some t, { pq with q, size := pq.size - 1 })
      else dequeueFrom pq notWaiting (i + 1) n

def dequeue (pq : Pq) (notWaiting : ThreadPtr → Bool) : Except Failure (Option ThreadPtr × Pq) :=
  dequeueFrom pq notWaiting 0 pq.size

/-- The cells `q[0..size)`. -/
def queued (pq : Pq) : List ThreadPtr := pq.q.segment 0 pq.size

variable (prio : ThreadPtr → ℕ) (notWaiting : ThreadPtr → Bool) {t : ThreadPtr}

/-- The rest of the list from `i` on receives `t`. -/
theorem insertFrom_eq {n i : ℕ} {q : Cells ThreadPtr} (halloc : i + n < q.allocated)
    (ht : q.cell (i + n) = t) :
    ∃ q', insertFrom prio t i n q = .ok q' ∧ q'.allocated = q.allocated ∧
      (∀ k < i, q'.cell k = q.cell k) ∧
      q'.segment i (n + 1) = StableQueue.insert prio t (q.segment i n) := by
  induction n generalizing i with
  | zero => exact ⟨q, rfl, rfl, fun _ _ => rfl, by simpa [Cells.segment] using ht⟩
  | succ n ih =>
      have hread : q.read i = .ok (q.cell i) := Cells.read_eq (by omega)
      by_cases hprio : prio t > prio (q.cell i)
      · -- `t` goes here: the rest of the segment moves up by one cell
        let shifted : Cells ThreadPtr :=
          ⟨fun k => if i < k ∧ k ≤ i + (n + 1) then q.cell (k - 1) else q.cell k, q.allocated⟩
        have hshift : q.shiftUp i (i + (n + 1)) = .ok shifted := Cells.shiftUp_eq halloc
        have hwrite : shifted.write i t = .ok ⟨Function.update shifted.cell i t, q.allocated⟩ :=
          Cells.write_eq (a := shifted) (show i < q.allocated by omega) t
        refine ⟨⟨Function.update shifted.cell i t, q.allocated⟩, ?_, rfl, fun k hk => ?_, ?_⟩
        · simp only [insertFrom, hread, bind, Except.bind, if_pos hprio, hshift, hwrite]
        · have hlow : ¬(i < k ∧ k ≤ i + (n + 1)) := by omega
          simp only [shifted, Function.update_of_ne hk.ne, if_neg hlow]
        · have hmoved : Cells.segment ⟨Function.update shifted.cell i t, q.allocated⟩ (i + 1) (n + 1)
              = q.segment i (n + 1) := by
            apply Cells.segment_eq_of
            intro k hk
            have hin : i < i + 1 + k ∧ i + 1 + k ≤ i + (n + 1) := by omega
            have hne : i + 1 + k ≠ i := by omega
            have hback : i + 1 + k - 1 = i + k := by omega
            simp only [shifted, Function.update_of_ne hne, if_pos hin, hback]
          rw [Cells.segment, hmoved, Cells.segment, insert_cons, if_pos hprio]
          simp
      · obtain ⟨q', heq, halloc', hlow, hseg⟩ := ih (i := i + 1) (by omega)
          (by rw [← ht]; congr 1; omega)
        refine ⟨q', ?_, halloc', fun k hk => hlow k (by omega), ?_⟩
        · simp only [insertFrom, hread, bind, Except.bind, if_neg hprio, heq]
        · rw [Cells.segment, hseg, hlow i (by omega), Cells.segment, insert_cons, if_neg hprio]

theorem frontFrom_eq {n i : ℕ} {q : Cells ThreadPtr} (halloc : i + n ≤ q.allocated) :
    frontFrom q notWaiting i n = .ok ((q.segment i n).find? notWaiting) := by
  induction n generalizing i with
  | zero => rfl
  | succ n ih =>
      have hread : q.read i = .ok (q.cell i) := Cells.read_eq (by omega)
      simp only [frontFrom, hread, bind, Except.bind, Cells.segment]
      cases hw : notWaiting (q.cell i) with
      | true =>
          rw [List.find?_cons_of_pos hw]
          rfl
      | false =>
          rw [List.find?_cons_of_neg (by simp [hw])]
          exact ih (by omega)

/-- The thread found leaves the rest of the list from `i` on. -/
theorem dequeueFrom_eq {n i : ℕ} {pq : Pq} (halloc : pq.size ≤ pq.q.allocated)
    (hsize : i + n = pq.size) (hlow : ∀ u ∈ pq.q.segment 0 i, notWaiting u = false) :
    ∃ pq', dequeueFrom pq notWaiting i n = .ok (pq.queued.find? notWaiting, pq') ∧
      pq'.q.allocated = pq.q.allocated ∧ pq'.capacity = pq.capacity ∧ pq'.size ≤ pq.size ∧
      pq'.queued = pq.queued.eraseP notWaiting := by
  have hsplit : pq.queued = pq.q.segment 0 i ++ pq.q.segment i n := by
    unfold queued
    rw [← hsize, Cells.segment_add, Nat.zero_add]
  induction n generalizing i with
  | zero =>
      have hall : ∀ u ∈ pq.queued, notWaiting u = false := by
        intro u hu
        rw [hsplit, Cells.segment, List.append_nil] at hu
        exact hlow u hu
      refine ⟨pq, ?_, rfl, rfl, le_rfl, ?_⟩
      · rw [List.find?_eq_none.mpr fun u hu => by simp [hall u hu]]
        rfl
      · rw [List.eraseP_of_forall_not fun u hu => by simp [hall u hu]]
  | succ n ih =>
      have hread : pq.q.read i = .ok (pq.q.cell i) := Cells.read_eq (by omega)
      simp only [dequeueFrom, hread, bind, Except.bind]
      cases hw : notWaiting (pq.q.cell i) with
      | true =>
          have hleft : pq.size - 1 - i = n := by omega
          have hnew : pq.size - 1 = i + n := by omega
          obtain ⟨shifted, hshift, halloc', hsegment⟩ :=
            Cells.shiftDown_segment (a := pq.q) (i := i) (n := n) (by omega)
          refine ⟨{ pq with q := shifted, size := pq.size - 1 }, ?_, halloc', rfl, Nat.sub_le _ _, ?_⟩
          · have hfind : pq.queued.find? notWaiting = some (pq.q.cell i) := by
              rw [hsplit, List.find?_append, List.find?_eq_none.mpr fun u hu => by simp [hlow u hu],
                Option.none_or, Cells.segment, List.find?_cons_of_pos hw]
            rw [hfind]
            simp [hleft, hshift]
            rfl
          · show shifted.segment 0 (pq.size - 1) = _
            rw [hnew, hsegment, hsplit,
              List.eraseP_append_right _ fun u hu => by simp [hlow u hu], Cells.segment,
              List.eraseP_cons_of_pos hw]
      | false =>
          have hlow' : ∀ u ∈ pq.q.segment 0 (i + 1), notWaiting u = false := by
            intro u hu
            rw [Cells.segment_add, Nat.zero_add] at hu
            rcases List.mem_append.mp hu with hu | hu
            · exact hlow u hu
            · rw [Cells.segment, Cells.segment, List.mem_singleton] at hu
              rw [hu, hw]
          have hsplit' : pq.queued = pq.q.segment 0 (i + 1) ++ pq.q.segment (i + 1) n := by
            rw [hsplit, Cells.segment_add _ 0 i 1, Nat.zero_add, List.append_assoc]
            rfl
          exact ih (by omega) hlow' hsplit'

/-- The storage of a queue: after the first allocation `capacity` is twice what was allocated, from
the second one on they agree, and the size stays below the capacity. -/
structure Stored (pq : Pq) : Prop where
  size_lt : pq.size < pq.capacity
  allocated : pq.q.allocated = 0 ∧ pq.capacity = 1 ∨ pq.q.allocated = 1 ∧ pq.capacity = 2 ∨
    pq.q.allocated = pq.capacity

variable {pq : Pq}

theorem Stored.size_le (h : pq.Stored) : pq.size ≤ pq.q.allocated := by
  have hlt := h.size_lt
  rcases h.allocated with ⟨_, _⟩ | ⟨_, _⟩ | _ <;> omega

theorem stored_pqCreate (memory : ℕ → ThreadPtr) : (pqCreate memory).Stored :=
  ⟨Nat.one_pos, Or.inl ⟨rfl, rfl⟩⟩

/-- The queue to which `enqueue` appends: one cell more, with room for it. -/
theorem Stored.grow (h : pq.Stored) (memory : ℕ → ThreadPtr) :
    ∃ pq', pq.grow (some memory) = .ok pq' ∧ pq'.Stored ∧ pq'.size = pq.size + 1 ∧ pq'.q.segment 0 pq.size = pq.queued ∧
      (pq'.capacity = pq.capacity ∨ pq'.capacity = 2 * pq'.size) := by
  have hlt := h.size_lt
  by_cases hfull : pq.size + 1 = pq.capacity
  · have hkeep : ∀ n, Cells.segment ⟨fun i => if i < pq.q.allocated then pq.q.cell i else memory i, n⟩
        0 pq.size = pq.queued := by
      intro n
      apply Cells.segment_eq_of
      intro k hk
      have hin : 0 + k < pq.q.allocated := by
        have := h.size_le
        omega
      exact if_pos hin
    have hgrow : pq.grow (some memory) =
        allocMemory { pq with size := pq.size + 1 } (some memory) := if_pos hfull
    rw [hgrow]
    by_cases hfirst : pq.q.allocated ≠ 0
    · refine ⟨⟨⟨fun i => if i < pq.q.allocated then pq.q.cell i else memory i, pq.capacity * 2⟩,
        pq.size + 1, pq.capacity * 2⟩, ?_, ⟨?_, Or.inr (Or.inr rfl)⟩, rfl, hkeep _, Or.inr ?_⟩
      · simp [allocMemory, hfirst, Cells.resize]
      · show pq.size + 1 < pq.capacity * 2
        omega
      · show pq.capacity * 2 = 2 * (pq.size + 1)
        omega
    · have hcap : pq.capacity = 1 := by
        rcases h.allocated with ⟨_, _⟩ | ⟨_, _⟩ | _ <;> omega
      refine ⟨⟨⟨fun i => if i < pq.q.allocated then pq.q.cell i else memory i, 1⟩,
        pq.size + 1, pq.capacity * 2⟩, ?_, ⟨?_, Or.inr (Or.inl ⟨rfl, ?_⟩)⟩, rfl, hkeep _, Or.inr ?_⟩
      · simp [allocMemory, hfirst, Cells.resize]
      · show pq.size + 1 < pq.capacity * 2
        omega
      · show pq.capacity * 2 = 2
        omega
      · show pq.capacity * 2 = 2 * (pq.size + 1)
        omega
  · refine ⟨_, if_neg hfull, ⟨?_, h.allocated⟩, rfl, rfl, Or.inl rfl⟩
    show pq.size + 1 < pq.capacity
    omega

theorem enqueue_eq (h : pq.Stored) (t : ThreadPtr) (memory : ℕ → ThreadPtr) :
    ∃ pq', pq.enqueue prio t (some memory) = .ok pq' ∧ pq'.Stored ∧
      (pq'.capacity = pq.capacity ∨ pq'.capacity = 2 * pq'.size) ∧
      pq'.queued = StableQueue.insert prio t pq.queued := by
  obtain ⟨grown, hgrow, hstored, hsize, hkeep, hcap⟩ := h.grow memory
  have halloc : pq.size < grown.q.allocated := by
    have := hstored.size_le
    omega
  have hlast : grown.size - 1 = pq.size := by omega
  have hwrite := Cells.write_eq halloc t
  obtain ⟨q', hinsert, halloc', -, hseg⟩ := insertFrom_eq prio (t := t) (i := 0)
    (n := pq.size) (q := ⟨Function.update grown.q.cell pq.size t, grown.q.allocated⟩)
    (by simpa using halloc) (by simp)
  refine ⟨{ grown with q := q' }, ?_, ⟨hstored.size_lt, ?_⟩, hcap, ?_⟩
  · unfold enqueue
    simp only [hgrow, bind, Except.bind, hlast, hwrite, hinsert]
    rfl
  · show q'.allocated = 0 ∧ grown.capacity = 1 ∨ q'.allocated = 1 ∧ grown.capacity = 2 ∨
      q'.allocated = grown.capacity
    rw [halloc']
    exact hstored.allocated
  · have hold : Cells.segment ⟨Function.update grown.q.cell pq.size t, grown.q.allocated⟩ 0 pq.size
        = pq.queued := by
      rw [← hkeep]
      apply Cells.segment_eq_of
      intro k hk
      exact Function.update_of_ne (by omega) _ _
    change q'.segment 0 grown.size = _
    rw [hsize, hseg, hold]

/-- Where an allocation would fail, `enqueue` fails before the first write or needs none. -/
theorem grow_none (pq : Pq) (memory : ℕ → ThreadPtr) :
    pq.grow none = .error .noMemory ∨ pq.grow none = pq.grow (some memory) := by
  unfold grow
  by_cases hfull : pq.size + 1 = pq.capacity
  · left
    rw [if_pos hfull]
    by_cases hfirst : pq.q.allocated = 0 <;> simp [allocMemory, hfirst, Cells.resize]
  · right
    rw [if_neg hfull, if_neg hfull]

/-- A call that returns where an allocation would fail did not need any. -/
theorem enqueue_getD {pq' : Pq} {memory : Option (ℕ → ThreadPtr)}
    (h : pq.enqueue prio t memory = .ok pq') :
    pq.enqueue prio t (some (memory.getD id)) = .ok pq' := by
  cases memory with
  | some memory => exact h
  | none =>
      unfold enqueue at h ⊢
      rcases pq.grow_none id with hnone | hnone
      · rw [hnone] at h
        cases h
      · rwa [hnone] at h

theorem front_eq (h : pq.Stored) : pq.front notWaiting = .ok (pq.queued.find? notWaiting) := by
  apply frontFrom_eq
  have := h.size_le
  omega

theorem dequeue_eq (h : pq.Stored) :
    ∃ pq', pq.dequeue notWaiting = .ok (pq.queued.find? notWaiting, pq') ∧ pq'.Stored ∧
      pq'.capacity = pq.capacity ∧ pq'.queued = pq.queued.eraseP notWaiting := by
  obtain ⟨pq', heq, halloc, hcap, hsize, hqueued⟩ := dequeueFrom_eq notWaiting
    (i := 0) (n := pq.size) h.size_le (Nat.zero_add _) (fun u hu => absurd hu List.not_mem_nil)
  refine ⟨pq', heq, ⟨?_, ?_⟩, hcap, hqueued⟩
  · rw [hcap]
    exact hsize.trans_lt h.size_lt
  · rw [halloc, hcap]
    exact h.allocated

end Pq

/-- The queue and the records its pointers lead to. -/
structure QueueState where
  pq : Pq
  thread : ThreadPtr → Thread

/-- A call of the queue, or a change of the `state` field of a record between two calls. `memory` is
what the cells hold that an allocation of the call adds, `none` where it fails. -/
inductive QueueOp where
  | enqueue (t : ThreadPtr) (memory : Option (ℕ → ThreadPtr))
  | dequeue
  | setState (t : ThreadPtr) (state : ThreadState)

namespace QueueState

def prio (w : QueueState) (t : ThreadPtr) : ℕ := (w.thread t).priority.toNat

def notWaiting (w : QueueState) (t : ThreadPtr) : Bool := (w.thread t).state != .waiting

/-- What a call returns, `none` for a null pointer and where nothing is returned, and what it
leaves. -/
def apply (w : QueueState) : QueueOp → Except Failure (Option ThreadPtr × QueueState)
  | .enqueue t memory => do
      let pq ← w.pq.enqueue w.prio t memory
      return (none, { w with pq })
  | .dequeue => do
      let (t, pq) ← w.pq.dequeue w.notWaiting
      return (t, { w with pq })
  | .setState t state =>
      .ok (none, { w with
        thread := Function.update w.thread t { w.thread t with state := state } })

def create (memory : ℕ → ThreadPtr) (thread : ThreadPtr → Thread) : QueueState :=
  ⟨pqCreate memory, thread⟩

/-- The queue that a returning `enqueue` leaves. -/
theorem apply_enqueue {w w' : QueueState} {t : ThreadPtr} {memory : Option (ℕ → ThreadPtr)}
    {ret : Option ThreadPtr} (h : w.apply (.enqueue t memory) = .ok (ret, w')) :
    ∃ pq, w.pq.enqueue w.prio t (some (memory.getD id)) = .ok pq ∧ w' = { w with pq } := by
  simp only [apply, bind, Except.bind] at h
  cases hcall : w.pq.enqueue w.prio t memory with
  | error e =>
      rw [hcall] at h
      cases h
  | ok pq =>
      rw [hcall] at h
      obtain ⟨-, rfl⟩ := Prod.mk.inj (Except.ok.inj h)
      exact ⟨pq, Pq.enqueue_getD _ hcall, rfl⟩

end QueueState

def QueueStep (w : QueueState) (label : QueueOp × Option ThreadPtr) (w' : QueueState) : Prop :=
  w.apply label.1 = .ok (label.2, w')

/-- The same operation on the list of the scheduler's model. -/
def Scheduler.queueOp (s : Scheduler) : QueueOp → Option ThreadPtr × Scheduler
  | .enqueue t _ => (none, s.enqueue t)
  | .dequeue => s.dequeue
  | .setState t state => (none, s.modify t fun record => { record with state := state })

/-- The array holds the list of the model, over the same records. -/
structure Refines (w : QueueState) (s : Scheduler) : Prop where
  stored : w.pq.Stored
  queued : w.pq.queued = s.q
  thread : w.thread = s.thread

namespace Refines

variable {w w' : QueueState} {s : Scheduler}

theorem prio_eq (h : Refines w s) : w.prio = s.prio := by
  funext t
  unfold QueueState.prio Scheduler.prio
  rw [h.thread]

theorem notWaiting_eq (h : Refines w s) : w.notWaiting = s.notWaiting := by
  funext t
  unfold QueueState.notWaiting Scheduler.notWaiting
  rw [h.thread]

theorem enqueue (h : Refines w s) (t : ThreadPtr) (memory : ℕ → ThreadPtr) :
    ∃ w', w.apply (.enqueue t (some memory)) = .ok (none, w') ∧ Refines w' (s.enqueue t) := by
  obtain ⟨pq', heq, hstored, -, hqueued⟩ := Pq.enqueue_eq w.prio h.stored t memory
  refine ⟨{ w with pq := pq' }, ?_, ⟨hstored, ?_, h.thread⟩⟩
  · simp only [QueueState.apply, heq, bind, Except.bind]
    rfl
  · show pq'.queued = StableQueue.insert s.prio t s.q
    rw [hqueued, h.prio_eq, h.queued]

theorem dequeue (h : Refines w s) :
    ∃ w', w.apply .dequeue = .ok (s.dequeue.1, w') ∧ Refines w' s.dequeue.2 ∧
      w.pq.front w.notWaiting = .ok s.dequeue.1 := by
  have hfront : w.pq.front w.notWaiting = .ok s.dequeue.1 := by
    rw [Pq.front_eq _ h.stored, h.notWaiting_eq, h.queued]
    rfl
  obtain ⟨pq', heq, hstored, -, hqueued⟩ := Pq.dequeue_eq w.notWaiting h.stored
  rw [h.notWaiting_eq, h.queued] at heq hqueued
  refine ⟨{ w with pq := pq' }, ?_, ⟨hstored, hqueued, h.thread⟩, hfront⟩
  simp only [QueueState.apply, h.notWaiting_eq, heq, bind, Except.bind]
  rfl

theorem setState (h : Refines w s) (t : ThreadPtr) (state : ThreadState) :
    ∃ w', w.apply (.setState t state) = .ok (none, w') ∧
      Refines w' (s.modify t fun record => { record with state := state }) := by
  refine ⟨_, rfl, ⟨h.stored, h.queued, ?_⟩⟩
  simp only [Scheduler.modify, h.thread]

theorem create (memory : ℕ → ThreadPtr) {thread : ThreadPtr → Thread} (hq : s.q = [])
    (hthread : s.thread = thread) : Refines (QueueState.create memory thread) s :=
  ⟨Pq.stored_pqCreate memory, hq.symm, hthread.symm⟩

theorem step (h : Refines w s) {label : QueueOp × Option ThreadPtr} (hstep : QueueStep w label w') :
    Refines w' (s.queueOp label.1).2 := by
  obtain ⟨op, ret⟩ := label
  unfold QueueStep at hstep
  cases op with
  | enqueue t memory =>
      obtain ⟨pq, hcall, rfl⟩ := QueueState.apply_enqueue hstep
      obtain ⟨w'', heq, href⟩ := h.enqueue t (memory.getD id)
      simp only [QueueState.apply, hcall, bind, Except.bind] at heq
      obtain ⟨-, rfl⟩ := Prod.mk.inj (Except.ok.inj heq)
      exact href
  | dequeue =>
      obtain ⟨w'', heq, href, -⟩ := h.dequeue
      obtain ⟨-, rfl⟩ := Prod.mk.inj (Except.ok.inj (heq.symm.trans hstep))
      exact href
  | setState t state =>
      obtain ⟨w'', heq, href⟩ := h.setState t state
      obtain ⟨-, rfl⟩ := Prod.mk.inj (Except.ok.inj (heq.symm.trans hstep))
      exact href

/-- The list after a sequence of operations on the model. -/
theorem run (h : Refines w s) {history : List (QueueOp × Option ThreadPtr)}
    (hrun : Run QueueStep w history w') :
    Refines w' (history.foldl (fun s label => (s.queueOp label.1).2) s) := by
  induction hrun generalizing s with
  | nil w => exact h
  | cons hstep _ ih => exact ih (h.step hstep)

end Refines

theorem sorted_queueOp {s : Scheduler} (h : Sorted s.prio s.q) (op : QueueOp) :
    Sorted (s.queueOp op).2.prio (s.queueOp op).2.q := by
  cases op with
  | enqueue t memory => exact sorted_insert s.prio t h
  | dequeue => exact List.Pairwise.sublist List.eraseP_sublist h
  | setState t state =>
      have hprio : (s.modify t fun record => { record with state := state }).prio = s.prio :=
        Scheduler.modify_prio s t _ fun _ => rfl
      show Sorted (s.modify t fun record => { record with state := state }).prio s.q
      rw [hprio]
      exact h

theorem sorted_replay {s : Scheduler} (h : Sorted s.prio s.q)
    (history : List (QueueOp × Option ThreadPtr)) :
    Sorted (history.foldl (fun s label => (s.queueOp label.1).2) s).prio
      (history.foldl (fun s label => (s.queueOp label.1).2) s).q := by
  induction history generalizing s with
  | nil => exact h
  | cons label history ih => exact ih (sorted_queueOp h label.1)

/-- After every sequence of calls and changes of states the cells are the list of the model: sorted
by priority, with every new thread behind those of its priority and above; every further call
returns, and `dequeue` takes out the first thread that does not wait, the one `front` returns. -/
theorem array_queue_refines {memory : ℕ → ThreadPtr} {thread : ThreadPtr → Thread}
    {history : List (QueueOp × Option ThreadPtr)} {w : QueueState}
    (hrun : Run QueueStep (QueueState.create memory thread) history w) :
    (∀ s : Scheduler, s.q = [] → s.thread = thread →
      w.pq.queued = (history.foldl (fun s label => (s.queueOp label.1).2) s).q) ∧
    Sorted w.prio w.pq.queued ∧
    (∀ t memory, ∃ w' higher lower, w.apply (.enqueue t (some memory)) = .ok (none, w') ∧
      w.pq.queued = higher ++ lower ∧ w'.pq.queued = higher ++ t :: lower ∧
      (∀ u ∈ higher, w.prio t ≤ w.prio u) ∧ ∀ u ∈ lower, w.prio u < w.prio t) ∧
    ∃ ret w', w.apply .dequeue = .ok (ret, w') ∧ w.pq.front w.notWaiting = .ok ret ∧
      (ret = none ∧ (∀ u ∈ w.pq.queued, (w.thread u).state = .waiting) ∧
          w'.pq.queued = w.pq.queued ∨
        ∃ f before after, ret = some f ∧ w.pq.queued = before ++ f :: after ∧
          w'.pq.queued = before ++ after ∧ (w.thread f).state ≠ .waiting ∧
          ∀ u ∈ before, (w.thread u).state = .waiting) := by
  have hall : ∀ s : Scheduler, s.q = [] → s.thread = thread →
      Refines w (history.foldl (fun s label => (s.queueOp label.1).2) s) :=
    fun s hq hthread => (Refines.create memory hq hthread).run hrun
  let s₀ : Scheduler := ⟨[], [], none, 0, 0, thread⟩
  have href := hall s₀ rfl rfl
  have hsorted := sorted_replay (s := s₀) List.Pairwise.nil history
  rw [← href.prio_eq, ← href.queued] at hsorted
  have hwait : ∀ u, w.notWaiting u = false → (w.thread u).state = .waiting := by
    intro u hu
    simpa [QueueState.notWaiting] using hu
  refine ⟨fun s hq hthread => (hall s hq hthread).queued, hsorted, fun t memory => ?_, ?_⟩
  · obtain ⟨w', heq, href'⟩ := href.enqueue t memory
    obtain ⟨higher, lower, hsplit, hinsert, hhigher, hlower⟩ := insert_split w.prio t hsorted
    refine ⟨w', higher, lower, heq, hsplit, ?_, hhigher, hlower⟩
    rw [href'.queued, ← hinsert, href.queued, href.prio_eq]
    rfl
  · obtain ⟨w', heq, href', hfront⟩ := href.dequeue
    refine ⟨_, w', heq, hfront, ?_⟩
    have hret : ∀ r, (history.foldl (fun s label => (s.queueOp label.1).2) s₀).dequeue.1 = r →
        w.pq.queued.find? w.notWaiting = r := by
      rintro r rfl
      rw [href.queued, href.notWaiting_eq]
      rfl
    have hleft : w'.pq.queued = w.pq.queued.eraseP w.notWaiting := by
      rw [href'.queued, href.queued, href.notWaiting_eq]
      rfl
    cases hcase : (history.foldl (fun s label => (s.queueOp label.1).2) s₀).dequeue.1 with
    | none =>
        have hnone := List.find?_eq_none.mp (hret _ hcase)
        refine Or.inl ⟨rfl, fun u hu => hwait u (by simpa using hnone u hu), ?_⟩
        rw [hleft, List.eraseP_of_forall_not hnone]
    | some f =>
        obtain ⟨before, after, hsplit, herase, hf, hbefore⟩ := find_split _ (hret _ hcase)
        refine Or.inr ⟨f, before, after, rfl, hsplit, hleft.trans herase, ?_,
          fun u hu => hwait u (hbefore u hu)⟩
        simpa [QueueState.notWaiting] using hf

/-- Two calls of `enqueue`, the second with the greater priority. -/
theorem run_twoQueued : ∃ w, Run QueueStep
    (QueueState.create id fun t => ⟨0, t.toUInt8, .ready, 1, noEvent⟩)
    [(.enqueue 1 (some id), none), (.enqueue 2 (some id), none)] w ∧ w.pq.queued = [2, 1] :=
  ⟨_, .cons rfl (.cons rfl (.nil _)), by decide⟩

theorem array_queue_refines_twoQueued :
    ∃ w : QueueState, w.pq.queued = [2, 1] ∧ Sorted w.prio w.pq.queued :=
  let ⟨w, hrun, hqueued⟩ := run_twoQueued
  ⟨w, hqueued, (array_queue_refines hrun).2.1⟩

/-- As long as fewer than `2 ^ 30` threads are queued, the fields of type `int` do not overflow. -/
theorem capacity_lt {memory : ℕ → ThreadPtr} {thread : ThreadPtr → Thread}
    {history : List (QueueOp × Option ThreadPtr)} {w : QueueState}
    (hrun : Run (Guarded (fun w _ => w.pq.size + 1 < 2 ^ 30) QueueStep)
      (QueueState.create memory thread) history w) :
    w.pq.size < w.pq.capacity ∧ w.pq.capacity < 2 ^ 31 := by
  have h : w.pq.Stored ∧ w.pq.capacity < 2 ^ 31 := by
    refine hrun.invariant (P := fun w => w.pq.Stored ∧ w.pq.capacity < 2 ^ 31) ?_
      ⟨Pq.stored_pqCreate memory, show 1 < 2 ^ 31 by decide⟩
    rintro w ⟨op, ret⟩ w' ⟨hstored, hcap⟩ ⟨hsize, hstep⟩
    unfold QueueStep at hstep
    cases op with
    | enqueue t memory =>
        obtain ⟨pq, hcall, rfl⟩ := QueueState.apply_enqueue hstep
        obtain ⟨pq', heq, hstored', hgrown, hqueued⟩ :=
          Pq.enqueue_eq w.prio hstored t (memory.getD id)
        obtain rfl := Except.ok.inj (hcall.symm.trans heq)
        have hlength : pq.size = w.pq.size + 1 := by
          have hperm := (perm_insert w.prio t w.pq.queued).length_eq
          rw [← hqueued] at hperm
          simpa [Pq.queued] using hperm
        refine ⟨hstored', ?_⟩
        dsimp only
        rcases hgrown with hgrown | hgrown <;> omega
    | dequeue =>
        obtain ⟨pq', heq, hstored', hcap', -⟩ := Pq.dequeue_eq w.notWaiting hstored
        simp only [QueueState.apply, heq, bind, Except.bind] at hstep
        obtain ⟨-, rfl⟩ := Prod.mk.inj (Except.ok.inj hstep)
        exact ⟨hstored', hcap' ▸ hcap⟩
    | setState t state =>
        obtain ⟨-, rfl⟩ := Prod.mk.inj (Except.ok.inj hstep)
        exact ⟨hstored, hcap⟩
  exact ⟨h.1.size_lt, h.2⟩

end OsHomeworks.ThreadScheduler
