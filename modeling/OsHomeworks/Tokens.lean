import Mathlib.Data.List.TakeWhile

/-! The first token of a list: what stands between separators at its front. A longer list and more
separators keep the token if it has no new separator and still ends where it did. -/

namespace OsHomeworks.Tokens

variable {α : Type*} (sep : α → Prop)

/-- `w` stands at the front of the list, behind separators only and with a separator or the end behind
it. -/
def Delimited (w l : List α) : Prop :=
  ∃ pre post, l = pre ++ (w ++ post) ∧ (∀ c ∈ pre, sep c) ∧ (∀ c ∈ w, ¬sep c) ∧
    ∀ c ∈ post.head?, sep c

/-- The first token. -/
def token [DecidablePred sep] (l : List α) : List α :=
  (l.dropWhile (sep ·)).takeWhile (¬sep ·)

variable {sep} {w l : List α}

section

variable [DecidablePred sep]

theorem takeWhile_not_eq_nil_iff : l.takeWhile (¬sep ·) = [] ↔ ∀ c ∈ l.head?, sep c := by
  cases l with
  | nil => simp
  | cons c l => simp

/-- A token in front of a list that goes on with `rest`. -/
theorem token_append {pre rest : List α} (hw : w ≠ []) (hpre : ∀ c ∈ pre, sep c)
    (hfree : ∀ c ∈ w, ¬sep c) :
    token sep (pre ++ (w ++ rest)) = w ++ rest.takeWhile (¬sep ·) := by
  obtain ⟨c, w', rfl⟩ := List.exists_cons_of_ne_nil hw
  have hc : ¬sep c := hfree c (List.mem_cons_self ..)
  calc token sep (pre ++ (c :: w' ++ rest))
      = ((c :: w' ++ rest).dropWhile (sep ·)).takeWhile (¬sep ·) := by
        rw [token, List.dropWhile_append_of_pos (by simpa using hpre)]
    _ = (c :: w' ++ rest).takeWhile (¬sep ·) := by
        rw [List.cons_append, List.dropWhile_cons_of_neg (by simpa using hc)]
    _ = c :: w' ++ rest.takeWhile (¬sep ·) :=
        List.takeWhile_append_of_pos (by simpa using hfree)

theorem token_eq_iff (hw : w ≠ []) : token sep l = w ↔ Delimited sep w l := by
  constructor
  · rintro rfl
    refine ⟨l.takeWhile (sep ·), (l.dropWhile (sep ·)).dropWhile (¬sep ·), ?_, ?_, ?_, ?_⟩
    · rw [token, List.takeWhile_append_dropWhile, List.takeWhile_append_dropWhile]
    · intro c hc
      simpa using List.mem_takeWhile_imp hc
    · intro c hc
      simpa using List.mem_takeWhile_imp hc
    · intro c hc
      have hhead := List.head?_dropWhile_not (fun c => decide (¬sep c)) (l.dropWhile (sep ·))
      rw [hc] at hhead
      simpa using hhead
  · rintro ⟨pre, post, rfl, hpre, hfree, hpost⟩
    rw [token_append hw hpre hfree, takeWhile_not_eq_nil_iff.mpr hpost, List.append_nil]

/-- A token that starts before the end of `w` starts with an element of `w`. -/
theorem token_head_mem {pre rest : List α} (hpre : ∀ c ∈ pre, sep c) (hfree : ∃ c ∈ w, ¬sep c) :
    ∀ d ∈ (token sep (pre ++ (w ++ rest))).head?, d ∈ w := by
  have hne : w.dropWhile (sep ·) ≠ [] := by
    obtain ⟨c, hc, hnot⟩ := hfree
    intro hnil
    have hall := List.dropWhile_eq_nil_iff.mp hnil c hc
    exact hnot (by simpa using hall)
  obtain ⟨d, w', hw'⟩ := List.exists_cons_of_ne_nil hne
  have hd : ¬sep d := by
    have hhead := List.head?_dropWhile_not (fun c => decide (sep c)) w
    rw [hw'] at hhead
    simpa using hhead
  have hmem : d ∈ w := (List.dropWhile_sublist _).mem (hw' ▸ List.mem_cons_self)
  have htoken : token sep (pre ++ (w ++ rest)) = d :: (w' ++ rest).takeWhile (¬sep ·) := by
    rw [token, List.dropWhile_append_of_pos (by simpa using hpre), List.dropWhile_append, hw']
    simp [hd]
  rw [htoken]
  intro e he
  obtain rfl : d = e := Option.some.inj he
  exact hmem

end

/-- What is left of a token when more is put behind the list and there are more separators. -/
theorem delimited_append_iff {sep' : α → Prop} [DecidablePred sep'] {pre post more : List α}
    (hw : w ≠ []) (hsub : ∀ c, sep c → sep' c) (hpre : ∀ c ∈ pre, sep c)
    (hpost : ∀ c ∈ post.head?, sep c) :
    Delimited sep' w (pre ++ (w ++ post) ++ more) ↔
      (∀ c ∈ w, ¬sep' c) ∧ (post = [] → ∀ c ∈ more.head?, sep' c) := by
  have hlist : pre ++ (w ++ post) ++ more = pre ++ (w ++ (post ++ more)) := by
    rw [List.append_assoc, List.append_assoc]
  constructor
  · intro h
    have hfree : ∀ c ∈ w, ¬sep' c := by
      obtain ⟨-, -, -, -, hfree, -⟩ := h
      exact hfree
    refine ⟨hfree, ?_⟩
    rintro rfl
    have htoken := (token_eq_iff hw).mpr h
    rw [hlist, token_append hw (fun c hc => hsub c (hpre c hc)) hfree] at htoken
    exact takeWhile_not_eq_nil_iff.mp (List.append_right_eq_self.mp htoken)
  · rintro ⟨hfree, hend⟩
    refine ⟨pre, post ++ more, hlist, fun c hc => hsub c (hpre c hc), hfree, ?_⟩
    cases post with
    | nil => exact hend rfl
    | cons b post => exact fun c hc => hsub c (hpost c hc)

end OsHomeworks.Tokens
