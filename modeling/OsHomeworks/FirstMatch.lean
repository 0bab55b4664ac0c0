import Mathlib.Data.List.Basic

/-! A scan that serves the first element that passes a test, measured against a wanted property that
at most one element has. The scan serves exactly the wanted element when that element passes and
every other one that passes stands behind it. -/

namespace OsHomeworks.FirstMatch

variable {α : Type*} {test : α → Bool} {wanted : α → Prop} {l : List α}

/-- The scan serves an element exactly when it is wanted. -/
def Exact (test : α → Bool) (wanted : α → Prop) (l : List α) : Prop :=
  ∀ i (hi : i < l.length), l.findIdx? test = some i ↔ wanted l[i]

/-- No two elements are wanted. -/
def AtMostOne (wanted : α → Prop) (l : List α) : Prop :=
  ∀ i j (hi : i < l.length) (hj : j < l.length), wanted l[i] → wanted l[j] → i = j

theorem exists_findIdx {i : ℕ} (hi : i < l.length) (htest : test l[i] = true) :
    ∃ j, ∃ hj : j < l.length, l.findIdx? test = some j ∧ test l[j] = true ∧ j ≤ i := by
  cases hfind : l.findIdx? test with
  | none =>
      have hfalse := List.findIdx?_eq_none_iff.mp hfind l[i] (List.getElem_mem hi)
      rw [htest] at hfalse
      cases hfalse
  | some j =>
      obtain ⟨hj, hpass, hfirst⟩ := List.findIdx?_eq_some_iff_getElem.mp hfind
      refine ⟨j, hj, rfl, hpass, ?_⟩
      by_contra hlt
      exact hfirst i (Nat.lt_of_not_le hlt) htest

theorem exact_iff (hone : AtMostOne wanted l) :
    Exact test wanted l ↔
      (∀ k (hk : k < l.length), wanted l[k] → test l[k] = true) ∧
      ∀ i (hi : i < l.length), test l[i] = true → ¬wanted l[i] →
        ∃ k, ∃ hk : k < l.length, wanted l[k] ∧ k < i := by
  constructor
  · intro hexact
    refine ⟨fun k hk hw => ?_, fun i hi htest hnot => ?_⟩
    · obtain ⟨_, hpass, -⟩ := List.findIdx?_eq_some_iff_getElem.mp ((hexact k hk).mpr hw)
      exact hpass
    · obtain ⟨j, hj, hfind, -, hle⟩ := exists_findIdx hi htest
      have hw := (hexact j hj).mp hfind
      refine ⟨j, hj, hw, Nat.lt_of_le_of_ne hle ?_⟩
      rintro rfl
      exact hnot hw
  · rintro ⟨hpass, hbehind⟩
    have hserved : ∀ i (hi : i < l.length), l.findIdx? test = some i → wanted l[i] := by
      intro i hi hfind
      obtain ⟨_, htest, hfirst⟩ := List.findIdx?_eq_some_iff_getElem.mp hfind
      by_contra hnot
      obtain ⟨k, hk, hw, hlt⟩ := hbehind i hi htest hnot
      exact hfirst k hlt (hpass k hk hw)
    refine fun i hi => ⟨hserved i hi, fun hw => ?_⟩
    obtain ⟨j, hj, hfind, -, -⟩ := exists_findIdx hi (hpass i hi hw)
    rw [hfind, hone j i hj hi (hserved j hj hfind) hw]

theorem findIdx_none (hexact : Exact test wanted l)
    (hnone : ∀ i (hi : i < l.length), ¬wanted l[i]) : l.findIdx? test = none := by
  cases hfind : l.findIdx? test with
  | none => rfl
  | some i =>
      obtain ⟨hi, -⟩ := List.findIdx?_eq_some_iff_getElem.mp hfind
      exact absurd ((hexact i hi).mp hfind) (hnone i hi)

end OsHomeworks.FirstMatch
