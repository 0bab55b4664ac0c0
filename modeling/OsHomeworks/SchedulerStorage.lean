import OsHomeworks.SchedulerQueue
import OsHomeworks.AccessTrace

/-! The storage of the scheduler's queue. The functions of `priority_queue.c` run once more, with the
`int` fields of `pq_t` and on cells whose accesses are recorded and not checked; they follow the checked
functions as long as fewer than `2 ^ 30` threads are queued, so every index is in the allocated cells. -/

namespace OsHomeworks.ThreadScheduler

open CellArray Runs CallLog CallLog.Logged AccessTrace

/-- What an `int` keeps of a result. -/
def int (x : Int) : Int := x.bmod (2 ^ 32)

/-- `pq_t` with its fields of type `int`. -/
structure IntPq where
  q : Cells ThreadPtr
  size : Int
  capacity : Int

namespace IntPq

/-- `pq_create` -/
def create (memory : ℕ → ThreadPtr) : IntPq := ⟨⟨memory, 0⟩, 0, 1⟩

/-- `capacity * sizeof(thread_t *)`, a product of the type `size_t`. -/
def reallocBytes (capacity : Int) : ℕ := (capacity % 2 ^ 64 * 8 % 2 ^ 64).toNat

/-- `alloc_memory_for_pq` -/
def allocMemory (pq : IntPq) (memory : Option (ℕ → ThreadPtr)) : Traced IntPq := do
  let capacity := int (pq.capacity * 2)
  if pq.q.allocated ≠ 0 then
    let q ← resize pq.q (reallocBytes capacity / 8) memory
    return { pq with q, capacity }
  else
    let q ← resize pq.q 1 memory
    return { pq with q, capacity }

/-- The outer loop of `enqueue` from `i` on, with `n` turns left. -/
def insertFrom (prio : ThreadPtr → ℕ) (t : ThreadPtr) (i : ℕ) :
    ℕ → Cells ThreadPtr → Traced (Cells ThreadPtr)
  | 0, q => return q
  | n + 1, q => do
      let u ← read q i
      if prio t > prio u then
        let q ← shiftUp i (i + (n + 1)) q
        write q i t
      else insertFrom prio t (i + 1) n q

/-- The statements of `enqueue` before the first write. -/
def grow (pq : IntPq) (memory : Option (ℕ → ThreadPtr)) : Traced IntPq :=
  let pq := { pq with size := int (pq.size + 1) }
  if pq.size = pq.capacity then pq.allocMemory memory else return pq

def enqueue (pq : IntPq) (prio : ThreadPtr → ℕ) (t : ThreadPtr)
    (memory : Option (ℕ → ThreadPtr)) : Traced IntPq := do
  let pq ← pq.grow memory
  let q ← write pq.q (int (pq.size - 1)) t
  let q ← insertFrom prio t 0 (int (pq.size - 1)).toNat q
  return { pq with q }

/-- The loop of `front` from `i` on: the cell found is read again. -/
def frontFrom (q : Cells ThreadPtr) (notWaiting : ThreadPtr → Bool) (i : ℕ) :
    ℕ → Traced (Option ThreadPtr)
  | 0 => return none
  | n + 1 => do
      let t ← read q i
      if notWaiting t then
        let ret ← read q i
        return some ret
      else frontFrom q notWaiting (i + 1) n

def front (pq : IntPq) (notWaiting : ThreadPtr → Bool) : Traced (Option ThreadPtr) :=
  frontFrom pq.q notWaiting 0 pq.size.toNat

/-- The loop of `dequeue` from `i` on: the cell found is read again. -/
def dequeueFrom (pq : IntPq) (notWaiting : ThreadPtr → Bool) (i : ℕ) :
    ℕ → Traced (Option ThreadPtr × IntPq)
  | 0 => return (none, pq)
  | n + 1 => do
      let t ← read pq.q i
      if notWaiting t then
        let ret ← read pq.q i
        let q ← shiftDown i (int (pq.size - 1) - i).toNat pq.q
        return (some ret, { pq with q, size := int (pq.size - 1) })
      else dequeueFrom pq notWaiting (i + 1) n

def dequeue (pq : IntPq) (notWaiting : ThreadPtr → Bool) : Traced (Option ThreadPtr × IntPq) :=
  dequeueFrom pq notWaiting 0 pq.size.toNat

end IntPq

/-- A result that is small enough is kept. -/
theorem int_eq {x : Int} {n : ℕ} (hx : x = n) (h : n < 2 ^ 31) : int x = n := by
  rw [hx]
  apply Int.bmod_eq_of_le <;> omega

/-- The fields of type `int` hold the numbers of the checked queue. -/
structure Represents (pq : Pq) (ipq : IntPq) : Prop where
  q : ipq.q = pq.q
  size : ipq.size = pq.size
  capacity : ipq.capacity = pq.capacity

namespace Represents

variable {pq : Pq} {ipq : IntPq} (prio : ThreadPtr → ℕ) (notWaiting : ThreadPtr → Bool)

theorem create (memory : ℕ → ThreadPtr) : Represents (pqCreate memory) (IntPq.create memory) :=
  ⟨rfl, rfl, rfl⟩

/-- One thread less. -/
theorem pred_size (h : Represents pq ipq) (hpos : 0 < pq.size) (hsize : pq.size < 2 ^ 30) :
    int (ipq.size - 1) = (pq.size - 1 : ℕ) := by
  apply int_eq
  · rw [h.size]
    omega
  · omega

/-- One thread more. -/
theorem succ_size (h : Represents pq ipq) (hsize : pq.size + 1 < 2 ^ 30) :
    int (ipq.size + 1) = (pq.size + 1 : ℕ) := by
  apply int_eq
  · rw [h.size]
    omega
  · omega

theorem double_capacity (h : Represents pq ipq) (hcap : pq.capacity < 2 ^ 30) :
    int (ipq.capacity * 2) = (pq.capacity * 2 : ℕ) := by
  apply int_eq
  · rw [h.capacity]
    omega
  · omega

theorem reallocBytes_eq {n : ℕ} (h : n < 2 ^ 31) : IntPq.reallocBytes n / 8 = n := by
  unfold IntPq.reallocBytes
  omega

theorem allocMemory (h : Represents pq ipq) (hcap : pq.capacity < 2 ^ 30)
    (memory : Option (ℕ → ThreadPtr)) :
    Follows (fun pq' ipq' => Represents pq' ipq' ∧ pq'.size = pq.size) (pq.allocMemory memory)
      (ipq.allocMemory memory) := by
  unfold Pq.allocMemory IntPq.allocMemory
  rw [h.double_capacity hcap]
  dsimp only
  rw [reallocBytes_eq (by omega), h.q]
  split_ifs
  · apply (follows_resize pq.q (pq.capacity * 2) memory).bind
    rintro q _ rfl -
    exact follows_pure ⟨⟨rfl, h.size, rfl⟩, rfl⟩
  · apply (follows_resize pq.q 1 memory).bind
    rintro q _ rfl -
    exact follows_pure ⟨⟨rfl, h.size, rfl⟩, rfl⟩

/-- Where memory is asked for, the capacity is the new size. -/
theorem grow (h : Represents pq ipq) (hsize : pq.size + 1 < 2 ^ 30)
    (memory : Option (ℕ → ThreadPtr)) :
    Follows (fun pq' ipq' => Represents pq' ipq' ∧ pq'.size = pq.size + 1) (pq.grow memory)
      (ipq.grow memory) := by
  have hnext : Represents { pq with size := pq.size + 1 } { ipq with size := int (ipq.size + 1) } :=
    ⟨h.q, h.succ_size hsize, h.capacity⟩
  unfold Pq.grow IntPq.grow
  by_cases hfull : pq.size + 1 = pq.capacity
  · have hfull' : int (ipq.size + 1) = ipq.capacity := by
      rw [h.succ_size hsize, h.capacity, hfull]
    rw [if_pos hfull, if_pos hfull']
    exact hnext.allocMemory (show pq.capacity < 2 ^ 30 by omega) memory
  · have hfull' : int (ipq.size + 1) ≠ ipq.capacity := by
      rw [h.succ_size hsize, h.capacity]
      exact fun heq => hfull (Int.ofNat_inj.mp heq)
    rw [if_neg hfull, if_neg hfull']
    exact follows_pure ⟨hnext, rfl⟩

theorem insertFrom (t : ThreadPtr) (i n : ℕ) (q : Cells ThreadPtr) :
    Follows Eq (Pq.insertFrom prio t i n q) (IntPq.insertFrom prio t i n q) := by
  induction n generalizing i with
  | zero => exact follows_pure rfl
  | succ n ih =>
      unfold Pq.insertFrom IntPq.insertFrom
      apply (follows_read q i).bind
      rintro u _ rfl -
      split_ifs
      · apply (follows_shiftUp i (i + (n + 1)) q).bind
        rintro q' _ rfl -
        exact follows_write q' i t
      · exact ih (i + 1)

theorem enqueue (h : Represents pq ipq) (hsize : pq.size + 1 < 2 ^ 30) (t : ThreadPtr)
    (memory : Option (ℕ → ThreadPtr)) :
    Follows Represents (pq.enqueue prio t memory) (ipq.enqueue prio t memory) := by
  apply (h.grow hsize memory).bind
  rintro pq' ipq' ⟨hrep, hnew⟩ -
  rw [hrep.pred_size (by omega) (by omega), hrep.q]
  apply (follows_write pq'.q (pq'.size - 1) t).bind
  rintro q _ rfl -
  apply (insertFrom prio t 0 (pq'.size - 1) q).bind
  rintro q' _ rfl -
  exact follows_pure ⟨rfl, hrep.size, hrep.capacity⟩

theorem frontFrom (i n : ℕ) (q : Cells ThreadPtr) :
    Follows Eq (Pq.frontFrom q notWaiting i n) (IntPq.frontFrom q notWaiting i n) := by
  induction n generalizing i with
  | zero => exact follows_pure rfl
  | succ n ih =>
      unfold Pq.frontFrom IntPq.frontFrom
      apply (follows_read q i).bind
      rintro t _ rfl hread
      split_ifs
      · exact Follows.reread hread (follows_pure rfl)
      · exact ih (i + 1)

theorem front (h : Represents pq ipq) :
    Follows Eq (pq.front notWaiting) (ipq.front notWaiting) := by
  unfold Pq.front IntPq.front
  rw [h.size, h.q, Int.toNat_natCast]
  exact frontFrom notWaiting 0 pq.size pq.q

/-- What `dequeue` returns and leaves. -/
def Left (ret : Option ThreadPtr × Pq) (iret : Option ThreadPtr × IntPq) : Prop :=
  iret.1 = ret.1 ∧ Represents ret.2 iret.2

theorem dequeueFrom (h : Represents pq ipq) (hsize : pq.size < 2 ^ 30) {i n : ℕ}
    (hturns : i + n = pq.size) :
    Follows Left (pq.dequeueFrom notWaiting i n) (ipq.dequeueFrom notWaiting i n) := by
  induction n generalizing i with
  | zero => exact follows_pure ⟨rfl, h⟩
  | succ n ih =>
      have hpred := h.pred_size (by omega) hsize
      have hleft : (((pq.size - 1 : ℕ) : Int) - i).toNat = pq.size - 1 - i := by omega
      unfold Pq.dequeueFrom IntPq.dequeueFrom
      rw [hpred, hleft, h.q]
      apply (follows_read pq.q i).bind
      rintro t _ rfl hread
      split_ifs
      · apply Follows.reread hread
        apply (follows_shiftDown i (pq.size - 1 - i) pq.q).bind
        rintro q _ rfl -
        exact follows_pure ⟨rfl, rfl, rfl, h.capacity⟩
      · exact ih (by omega)

theorem dequeue (h : Represents pq ipq) (hsize : pq.size < 2 ^ 30) :
    Follows Left (pq.dequeue notWaiting) (ipq.dequeue notWaiting) := by
  unfold Pq.dequeue IntPq.dequeue
  rw [h.size, Int.toNat_natCast]
  exact h.dequeueFrom notWaiting hsize (Nat.zero_add _)

end Represents

theorem inside_of_ok {α : Type} {x : Except Failure α} {a : α} (h : x = .ok a) (i : ℕ) :
    x ≠ .error (.outOfBounds i) := by
  intro herror
  cases h.symm.trans herror

namespace Pq

variable {pq : Pq} (prio : ThreadPtr → ℕ) (notWaiting : ThreadPtr → Bool)

theorem Stored.enqueue_inside (h : pq.Stored) (t : ThreadPtr) (memory : Option (ℕ → ThreadPtr))
    (i : ℕ) : pq.enqueue prio t memory ≠ .error (.outOfBounds i) := by
  cases memory with
  | some memory =>
      obtain ⟨pq', heq, -⟩ := enqueue_eq prio h t memory
      exact inside_of_ok heq i
  | none =>
      obtain ⟨pq', heq, -⟩ := enqueue_eq prio h t id
      unfold enqueue at heq ⊢
      rcases pq.grow_none id with hnone | hnone
      · rw [hnone]
        intro houtside
        cases houtside
      · rw [hnone]
        exact inside_of_ok heq i

theorem Stored.front_inside (h : pq.Stored) (i : ℕ) :
    pq.front notWaiting ≠ .error (.outOfBounds i) :=
  inside_of_ok (front_eq notWaiting h) i

theorem Stored.dequeue_inside (h : pq.Stored) (i : ℕ) :
    pq.dequeue notWaiting ≠ .error (.outOfBounds i) := by
  obtain ⟨pq', heq, -⟩ := dequeue_eq notWaiting h
  exact inside_of_ok heq i

end Pq

/-- The queue and the records its pointers lead to. -/
structure IntQueueState where
  pq : IntPq
  thread : ThreadPtr → Thread

namespace IntQueueState

def prio (w : IntQueueState) (t : ThreadPtr) : ℕ := (w.thread t).priority.toNat

def notWaiting (w : IntQueueState) (t : ThreadPtr) : Bool := (w.thread t).state != .waiting

/-- What a call returns and what it leaves, with its accesses. -/
def apply (w : IntQueueState) : QueueOp → Traced (Option ThreadPtr × IntQueueState)
  | .enqueue t memory => do
      let pq ← w.pq.enqueue w.prio t memory
      return (none, { w with pq })
  | .dequeue => do
      let (t, pq) ← w.pq.dequeue w.notWaiting
      return (t, { w with pq })
  | .setState t state =>
      return (none, { w with
        thread := Function.update w.thread t { w.thread t with state := state } })

def create (memory : ℕ → ThreadPtr) (thread : ThreadPtr → Thread) : IntQueueState :=
  ⟨IntPq.create memory, thread⟩

/-- Fewer than `2 ^ 30` threads are queued, also after the call. -/
def Few (w : IntQueueState) : QueueOp → Prop
  | .enqueue _ _ => w.pq.size + 1 < 2 ^ 30
  | _ => w.pq.size < 2 ^ 30

instance (w : IntQueueState) (op : QueueOp) : Decidable (w.Few op) :=
  match op with
  | .enqueue _ _ => inferInstanceAs (Decidable (_ < _))
  | .dequeue => inferInstanceAs (Decidable (_ < _))
  | .setState _ _ => inferInstanceAs (Decidable (_ < _))

/-- The state of the checked queue that this one stands for. -/
structure Mirrors (w₀ : QueueState) (w : IntQueueState) : Prop where
  pq : Represents w₀.pq w.pq
  thread : w.thread = w₀.thread

/-- A call of the checked queue and one of this queue leave the same. -/
def Ends (ret₀ : Option ThreadPtr × QueueState) (ret : Option ThreadPtr × IntQueueState) : Prop :=
  ret.1 = ret₀.1 ∧ Mirrors ret₀.2 ret.2

namespace Mirrors

variable {w₀ : QueueState} {w : IntQueueState}

theorem prio_eq (h : Mirrors w₀ w) : w.prio = w₀.prio := by
  funext t
  unfold IntQueueState.prio QueueState.prio
  rw [h.thread]

theorem notWaiting_eq (h : Mirrors w₀ w) : w.notWaiting = w₀.notWaiting := by
  funext t
  unfold IntQueueState.notWaiting QueueState.notWaiting
  rw [h.thread]

theorem apply (h : Mirrors w₀ w) {op : QueueOp} (hfew : w.Few op) :
    Follows Ends (w₀.apply op) (w.apply op) := by
  cases op with
  | enqueue t memory =>
      have hsize : w₀.pq.size + 1 < 2 ^ 30 := by
        have hint : w.pq.size + 1 < 2 ^ 30 := hfew
        rw [h.pq.size] at hint
        omega
      unfold QueueState.apply IntQueueState.apply
      rw [h.prio_eq]
      apply (h.pq.enqueue w₀.prio hsize t memory).bind
      intro pq ipq hrep _
      exact follows_pure ⟨rfl, hrep, h.thread⟩
  | dequeue =>
      have hsize : w₀.pq.size < 2 ^ 30 := by
        have hint : w.pq.size < 2 ^ 30 := hfew
        rw [h.pq.size] at hint
        omega
      unfold QueueState.apply IntQueueState.apply
      rw [h.notWaiting_eq]
      apply (h.pq.dequeue w₀.notWaiting hsize).bind
      rintro ⟨t, pq⟩ ⟨_, ipq⟩ ⟨rfl, hrep⟩ -
      exact follows_pure ⟨rfl, hrep, h.thread⟩
  | setState t state =>
      apply follows_pure
      refine ⟨rfl, h.pq, ?_⟩
      show Function.update w.thread t _ = Function.update w₀.thread t _
      rw [h.thread]

end Mirrors

end IntQueueState

theorem QueueState.apply_inside {w : QueueState} (h : w.pq.Stored) (op : QueueOp) (i : ℕ) :
    w.apply op ≠ .error (.outOfBounds i) := by
  have hbind : ∀ {α β : Type} {x : Except Failure α} {f : α → β},
      x ≠ .error (.outOfBounds i) → (x >>= fun a => .ok (f a)) ≠ .error (.outOfBounds i) := by
    intro α β x f hx
    cases x with
    | ok a => exact inside_of_ok rfl i
    | error e => exact fun heq => hx (congrArg _ (Except.error.inj heq))
  cases op with
  | enqueue t memory => exact hbind (h.enqueue_inside w.prio t memory i)
  | dequeue => exact hbind (h.dequeue_inside w.notWaiting i)
  | setState t state => exact inside_of_ok rfl i

theorem QueueStep.stored {w w' : QueueState} (h : w.pq.Stored)
    {label : QueueOp × Option ThreadPtr} (hstep : QueueStep w label w') : w'.pq.Stored :=
  (Refines.step (s := ⟨w.pq.queued, [], none, 0, 0, w.thread⟩) ⟨h, rfl, rfl⟩ hstep).stored

def IntQueueStep (w : IntQueueState) (label : QueueOp × Option ThreadPtr) (w' : IntQueueState) :
    Prop :=
  (w.apply label.1).result = .ok (label.2, w')

/-- As long as the queue is not too long, every run is one of the checked queue. -/
theorem IntQueueState.Mirrors.run {w₀ : QueueState} {w w' : IntQueueState} (h : Mirrors w₀ w)
    (hstored : w₀.pq.Stored) {history : List (QueueOp × Option ThreadPtr)}
    (hrun : Run (Guarded (fun w label => w.Few label.1) IntQueueStep) w history w') :
    ∃ w₀', Run QueueStep w₀ history w₀' ∧ Mirrors w₀' w' ∧ w₀'.pq.Stored := by
  induction hrun generalizing w₀ with
  | nil w => exact ⟨w₀, .nil w₀, h, hstored⟩
  | @cons w w₁ w' label history hstep _ ih =>
      obtain ⟨hfew, hresult⟩ := hstep
      obtain ⟨⟨ret, w₀₁⟩, hcall, hret, hmirrors⟩ :=
        (h.apply hfew).value (QueueState.apply_inside hstored label.1) hresult
      have hstep₀ : QueueStep w₀ label w₀₁ := by
        obtain rfl : label.2 = ret := hret
        exact hcall
      obtain ⟨w₀', hrun₀, hend⟩ := ih hmirrors (hstep₀.stored hstored)
      exact ⟨w₀', .cons hstep₀ hrun₀, hend⟩

/-- Every cell that `enqueue`, `front` and `dequeue` read or write after any sequence of calls is one
of those that are allocated at that moment, as long as fewer than `2 ^ 30` threads are queued. -/
theorem accesses_inside {memory : ℕ → ThreadPtr} {thread : ThreadPtr → Thread}
    {history : List (QueueOp × Option ThreadPtr)} {w : IntQueueState}
    (hrun : Run (Guarded (fun w label => w.Few label.1) IntQueueStep)
      (IntQueueState.create memory thread) history w) :
    (∀ op, w.Few op → ∀ access ∈ (w.apply op).calls, access.Inside) ∧
      ∀ access ∈ (w.pq.front w.notWaiting).calls, access.Inside := by
  have hstart : IntQueueState.Mirrors (QueueState.create memory thread)
      (IntQueueState.create memory thread) := ⟨Represents.create memory, rfl⟩
  obtain ⟨w₀, -, hmirrors, hstored⟩ := hstart.run (Pq.stored_pqCreate memory) hrun
  constructor
  · intro op hfew
    exact (hmirrors.apply hfew).inside (QueueState.apply_inside hstored op)
  · rw [hmirrors.notWaiting_eq]
    exact (hmirrors.pq.front w₀.notWaiting).inside (hstored.front_inside w₀.notWaiting)

theorem run_twoStored : ∃ w, Run (Guarded (fun w label => w.Few label.1) IntQueueStep)
    (IntQueueState.create id fun t => ⟨0, t.toUInt8, .ready, 1, noEvent⟩)
    [(.enqueue 1 (some id), none), (.enqueue 2 (some id), none)] w ∧
      w.pq.q.allocated = 4 ∧ w.Few (.enqueue 3 (some id)) :=
  ⟨_, .cons ⟨by decide, rfl⟩ (.cons ⟨by decide, rfl⟩ (.nil _)), by decide, by decide⟩

/-- With two threads in four cells a third one fits. -/
theorem accesses_inside_twoStored : ∃ w : IntQueueState, w.pq.q.allocated = 4 ∧
    ∀ access ∈ (w.apply (.enqueue 3 (some id))).calls, access.Inside :=
  let ⟨w, hrun, halloc, hfew⟩ := run_twoStored
  ⟨w, halloc, (accesses_inside hrun).1 _ hfew⟩

end OsHomeworks.ThreadScheduler
