import OsHomeworks.CallLog
import OsHomeworks.CellArray

/-! Arrays whose accesses are recorded instead of checked. A computation on them follows one that checks
its accesses: where the checked one comes to its end, so does the other, with the same value and with
every access in the allocated cells. -/

namespace OsHomeworks.AccessTrace

open CallLog CallLog.Logged CellArray

/-- An index that is read or written, and the number of cells that are allocated at that moment. -/
structure Access where
  index : Int
  allocated : ℕ
  deriving DecidableEq

/-- The cell is there. -/
def Access.Inside (access : Access) : Prop := 0 ≤ access.index ∧ access.index < access.allocated

instance (access : Access) : Decidable access.Inside := inferInstanceAs (Decidable (_ ∧ _))

/-- A computation that records its accesses; only a failed allocation cuts it short. -/
abbrev Traced := Logged Access Unit

variable {α β γ δ : Type}

/-- What is read outside has no meaning. -/
def read (a : Cells α) (i : Int) : Traced α := do
  perform ⟨i, a.allocated⟩
  return a.cell i.toNat

/-- What is written outside is lost. -/
def write (a : Cells α) (i : Int) (x : α) : Traced (Cells α) := do
  perform ⟨i, a.allocated⟩
  return if 0 ≤ i then { a with cell := Function.update a.cell i.toNat x } else a

/-- An allocation of `n` cells that keeps the old ones. -/
def resize (a : Cells α) (n : ℕ) (memory : Option (ℕ → α)) : Traced (Cells α) :=
  match memory with
  | none => abort ()
  | some memory => return ⟨fun i => if i < a.allocated then a.cell i else memory i, n⟩

/-- `for (; j > i; j--) a[j] = a[j - 1]` -/
def shiftUp (i : ℕ) : ℕ → Cells α → Traced (Cells α)
  | 0, a => return a
  | j + 1, a =>
      if j + 1 > i then do
        let x ← read a j
        let a ← write a (j + 1 : ℕ) x
        shiftUp i j a
      else return a

/-- `n` turns of `a[j] = a[j + 1]; j++` -/
def shiftDown (j : ℕ) : ℕ → Cells α → Traced (Cells α)
  | 0, a => return a
  | n + 1, a => do
      let x ← read a (j + 1 : ℕ)
      let a ← write a j x
      shiftDown (j + 1) n a

/-- The traced computation does what the checked one does, as far as that stays in bounds; their values
are related by `R`. -/
def Follows (R : α → β → Prop) (x : Except Failure α) (y : Traced β) : Prop :=
  match x with
  | .ok a => (∀ access ∈ y.calls, access.Inside) ∧ ∃ b, y.result = .ok b ∧ R a b
  | .error .noMemory => (∀ access ∈ y.calls, access.Inside) ∧ y.result = .error ()
  | .error (.outOfBounds _) => True

variable {R : α → β → Prop} {S : γ → δ → Prop} {x : Except Failure α} {y : Traced β}

theorem Follows.inside (h : Follows R x y) (hx : ∀ i, x ≠ .error (.outOfBounds i)) :
    ∀ access ∈ y.calls, access.Inside := by
  cases x with
  | ok a => exact h.1
  | error e =>
      cases e with
      | outOfBounds i => exact absurd rfl (hx i)
      | noMemory => exact h.1

/-- The value of the traced computation is that of the checked one. -/
theorem Follows.value (h : Follows R x y) (hx : ∀ i, x ≠ .error (.outOfBounds i)) {b : β}
    (hb : y.result = .ok b) : ∃ a, x = .ok a ∧ R a b := by
  cases x with
  | ok a =>
      obtain ⟨-, b', hb', hrel⟩ := h
      obtain rfl : b' = b := Except.ok.inj (hb'.symm.trans hb)
      exact ⟨a, rfl, hrel⟩
  | error e =>
      cases e with
      | outOfBounds i => exact absurd rfl (hx i)
      | noMemory => cases h.2.symm.trans hb

theorem follows_pure {a : α} {b : β} (h : R a b) : Follows R (.ok a) (pure b) :=
  ⟨nofun, b, rfl, h⟩

/-- The rests of the computations only need to follow each other from the values they get. -/
theorem Follows.bind {f : α → Except Failure γ} {g : β → Traced δ} (h : Follows R x y)
    (hf : ∀ a b, R a b → x = .ok a → Follows S (f a) (g b)) : Follows S (x >>= f) (y >>= g) := by
  cases x with
  | ok a =>
      obtain ⟨hinside, b, hb, hrel⟩ := h
      have hstep := hf a b hrel rfl
      rw [bind_of_ok hb]
      show Follows S (f a) _
      have happend : (∀ access ∈ (g b).calls, access.Inside) →
          ∀ access ∈ y.calls ++ (g b).calls, access.Inside :=
        fun hrest access hmem => (List.mem_append.mp hmem).elim (hinside access) (hrest access)
      cases hfa : f a with
      | ok c =>
          rw [hfa] at hstep
          exact ⟨happend hstep.1, hstep.2⟩
      | error e =>
          rw [hfa] at hstep
          cases e with
          | outOfBounds i => trivial
          | noMemory => exact ⟨happend hstep.1, hstep.2⟩
  | error e =>
      cases e with
      | outOfBounds i => trivial
      | noMemory =>
          rw [bind_of_error h.2]
          exact ⟨h.1, rfl⟩

variable {a : Cells α} {i j n : ℕ}

theorem inside_of_lt (h : i < a.allocated) : Access.Inside ⟨i, a.allocated⟩ := by
  constructor
  · exact Int.natCast_nonneg i
  · exact Int.ofNat_lt.mpr h

theorem follows_read (a : Cells α) (i : ℕ) : Follows Eq (a.read i) (read a i) := by
  by_cases h : i < a.allocated
  · rw [Cells.read_eq h]
    refine ⟨fun access hmem => ?_, _, rfl, rfl⟩
    rw [List.mem_singleton.mp hmem]
    exact inside_of_lt h
  · rw [Cells.read, if_neg h]
    trivial

theorem follows_write (a : Cells α) (i : ℕ) (x : α) :
    Follows Eq (a.write i x) (write a i x) := by
  by_cases h : i < a.allocated
  · rw [Cells.write_eq h]
    refine ⟨fun access hmem => ?_, _, rfl, ?_⟩
    · rw [List.mem_singleton.mp hmem]
      exact inside_of_lt h
    · rw [if_pos (Int.natCast_nonneg i), Int.toNat_natCast]
  · rw [Cells.write, if_neg h]
    trivial

/-- A cell that was read is read again. -/
theorem Follows.reread {t : α} {g : α → Traced δ} {z : Except Failure γ} (hread : a.read i = .ok t)
    (h : Follows S z (g t)) : Follows S z (read a i >>= g) := by
  have hbind : Follows S (a.read i >>= fun _ => z) (read a i >>= g) := by
    apply (follows_read a i).bind
    rintro u _ rfl hu
    obtain rfl : t = u := Except.ok.inj (hread.symm.trans hu)
    exact h
  rwa [hread] at hbind

theorem follows_resize (a : Cells α) (n : ℕ) (memory : Option (ℕ → α)) :
    Follows Eq (a.resize n memory) (resize a n memory) := by
  cases memory with
  | none => exact ⟨nofun, rfl⟩
  | some memory => exact follows_pure rfl

theorem follows_shiftUp (i j : ℕ) (a : Cells α) :
    Follows Eq (Cells.shiftUp i j a) (shiftUp i j a) := by
  induction j generalizing a with
  | zero => exact follows_pure rfl
  | succ j ih =>
      unfold Cells.shiftUp shiftUp
      split_ifs
      · apply (follows_read a j).bind
        rintro x _ rfl -
        apply (follows_write a (j + 1) x).bind
        rintro a _ rfl -
        exact ih a
      · exact follows_pure rfl

theorem follows_shiftDown (j n : ℕ) (a : Cells α) :
    Follows Eq (Cells.shiftDown j n a) (shiftDown j n a) := by
  induction n generalizing j a with
  | zero => exact follows_pure rfl
  | succ n ih =>
      unfold Cells.shiftDown shiftDown
      apply (follows_read a (j + 1)).bind
      rintro x _ rfl -
      apply (follows_write a j x).bind
      rintro a _ rfl -
      exact ih (j + 1) a

end OsHomeworks.AccessTrace
