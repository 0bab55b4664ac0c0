import Mathlib.Logic.Function.Basic
import Mathlib.Data.List.Range

/-! Arrays in allocated memory. Cells are numbered from 0 and only the allocated ones may be read or
written; an array grows by an allocation that may fail. The two loops that shift cells in place, to
make room for an element and to close the gap of one, are described cell by cell and then on the
list of the first cells. -/

namespace OsHomeworks.CellArray

inductive Failure where
  | outOfBounds (index : ℕ)
  | noMemory
  deriving DecidableEq

/-- `cell` beyond `allocated` has no meaning. -/
structure Cells (α : Type*) where
  cell : ℕ → α
  allocated : ℕ

variable {α : Type*}

namespace Cells

def read (a : Cells α) (i : ℕ) : Except Failure α :=
  if i < a.allocated then .ok (a.cell i) else .error (.outOfBounds i)

def write (a : Cells α) (i : ℕ) (x : α) : Except Failure (Cells α) :=
  if i < a.allocated then .ok { a with cell := Function.update a.cell i x }
  else .error (.outOfBounds i)

/-- An allocation of `n` cells that keeps the old ones; `memory` is what the new cells hold, `none`
where the allocation fails. -/
def resize (a : Cells α) (n : ℕ) (memory : Option (ℕ → α)) : Except Failure (Cells α) :=
  match memory with
  | none => .error .noMemory
  | some memory => .ok ⟨fun i => if i < a.allocated then a.cell i else memory i, n⟩

/-- `for (; j > i; j--) a[j] = a[j - 1]` -/
def shiftUp (i : ℕ) : ℕ → Cells α → Except Failure (Cells α)
  | 0, a => .ok a
  | j + 1, a =>
      if j + 1 > i then do
        let x ← a.read j
        let a ← a.write (j + 1) x
        shiftUp i j a
      else .ok a

/-- `n` turns of `a[j] = a[j + 1]; j++` -/
def shiftDown (j : ℕ) : ℕ → Cells α → Except Failure (Cells α)
  | 0, a => .ok a
  | n + 1, a => do
      let x ← a.read (j + 1)
      let a ← a.write j x
      shiftDown (j + 1) n a

/-- The `n` cells from `i` on. -/
def segment (a : Cells α) (i : ℕ) : ℕ → List α
  | 0 => []
  | n + 1 => a.cell i :: a.segment (i + 1) n

variable {a : Cells α} {i j n : ℕ}

theorem read_eq (h : i < a.allocated) : a.read i = .ok (a.cell i) := if_pos h

theorem write_eq (h : i < a.allocated) (x : α) :
    a.write i x = .ok ⟨Function.update a.cell i x, a.allocated⟩ := if_pos h

/-- Every cell above `i` up to `j` gets the value of the cell below it. -/
theorem shiftUp_eq (h : j < a.allocated) :
    shiftUp i j a = .ok ⟨fun k => if i < k ∧ k ≤ j then a.cell (k - 1) else a.cell k,
      a.allocated⟩ := by
  induction j generalizing a with
  | zero =>
      have hnone : ∀ k, ¬(i < k ∧ k ≤ 0) := fun k => by omega
      simp only [shiftUp, hnone, if_false]
  | succ j ih =>
      unfold shiftUp
      split_ifs with hij
      · have hread : a.read j = .ok (a.cell j) := read_eq (by omega)
        have hrest := ih (a := ⟨Function.update a.cell (j + 1) (a.cell j), a.allocated⟩)
          (show j < a.allocated by omega)
        simp only [hread, write_eq h, bind, Except.bind, hrest]
        congr 2
        funext k
        by_cases hk : k = j + 1
        · subst k
          have hne : ¬(i < j + 1 ∧ j + 1 ≤ j) := by omega
          rw [if_neg hne, if_pos ⟨hij, le_rfl⟩, Function.update_self, Nat.add_sub_cancel]
        · have hiff : (i < k ∧ k ≤ j + 1) ↔ (i < k ∧ k ≤ j) := by omega
          simp only [hiff]
          split_ifs with hin
          · rw [Function.update_of_ne (by omega)]
          · rw [Function.update_of_ne hk]
      · have hnone : ∀ k, ¬(i < k ∧ k ≤ j + 1) := fun k => by omega
        simp [hnone]

/-- `n` cells from `j` on get the value of the cell above them. -/
theorem shiftDown_eq (h : j + n < a.allocated) :
    shiftDown j n a = .ok ⟨fun k => if j ≤ k ∧ k < j + n then a.cell (k + 1) else a.cell k,
      a.allocated⟩ := by
  induction n generalizing j a with
  | zero =>
      have hnone : ∀ k, ¬(j ≤ k ∧ k < j + 0) := fun k => by omega
      simp only [shiftDown, hnone, if_false]
  | succ n ih =>
      have hread : a.read (j + 1) = .ok (a.cell (j + 1)) := read_eq (by omega)
      have hwrite := write_eq (a := a) (show j < a.allocated by omega) (a.cell (j + 1))
      have hrest := ih (j := j + 1) (a := ⟨Function.update a.cell j (a.cell (j + 1)), a.allocated⟩)
        (show j + 1 + n < a.allocated by omega)
      simp only [shiftDown, hread, hwrite, bind, Except.bind, hrest]
      congr 2
      funext k
      by_cases hk : k = j
      · subst k
        have hne : ¬(j + 1 ≤ j ∧ j < j + 1 + n) := by omega
        have hin : j ≤ j ∧ j < j + (n + 1) := by omega
        rw [if_neg hne, if_pos hin, Function.update_self]
      · have hiff : (j + 1 ≤ k ∧ k < j + 1 + n) ↔ (j ≤ k ∧ k < j + (n + 1)) := by omega
        simp only [hiff]
        split_ifs with hin
        · rw [Function.update_of_ne (by omega)]
        · rw [Function.update_of_ne hk]

@[simp] theorem length_segment (a : Cells α) (i n : ℕ) : (a.segment i n).length = n := by
  induction n generalizing i with
  | zero => rfl
  | succ n ih => simp [segment, ih]

/-- Two segments with the same cells, possibly in other places. -/
theorem segment_eq_of {b : Cells α} (h : ∀ k < n, b.cell (j + k) = a.cell (i + k)) :
    b.segment j n = a.segment i n := by
  induction n generalizing i j with
  | zero => rfl
  | succ n ih =>
      have hhead : b.cell j = a.cell i := h 0 (Nat.succ_pos n)
      have htail : b.segment (j + 1) n = a.segment (i + 1) n := by
        apply ih
        intro k hk
        have hnext := h (k + 1) (by omega)
        rwa [← Nat.add_assoc, ← Nat.add_assoc, Nat.add_right_comm j, Nat.add_right_comm i] at hnext
      simp only [segment, hhead, htail]

theorem segment_add (a : Cells α) (i m n : ℕ) :
    a.segment i (m + n) = a.segment i m ++ a.segment (i + m) n := by
  induction m generalizing i with
  | zero => simp [segment]
  | succ m ih =>
      have hlen : m + 1 + n = m + n + 1 := by omega
      have hpos : i + (m + 1) = i + 1 + m := by omega
      rw [hlen, segment, ih, segment, hpos, List.cons_append]

/-- Moved down, the cells behind `i` take the place of the cell `i`. -/
theorem shiftDown_segment (h : i + n < a.allocated) :
    ∃ b, shiftDown i n a = .ok b ∧ b.allocated = a.allocated ∧
      b.segment 0 (i + n) = a.segment 0 i ++ a.segment (i + 1) n := by
  refine ⟨_, shiftDown_eq h, rfl, ?_⟩
  rw [segment_add, Nat.zero_add]
  refine congrArg₂ (· ++ ·) (segment_eq_of fun k hk => ?_) (segment_eq_of fun k hk => ?_)
  · have hout : ¬(i ≤ 0 + k ∧ 0 + k < i + n) := by omega
    simp only [if_neg hout]
  · have hin : i ≤ i + k ∧ i + k < i + n := by omega
    have hup : i + k + 1 = i + 1 + k := by omega
    simp only [if_pos hin, hup]

end Cells

end OsHomeworks.CellArray
