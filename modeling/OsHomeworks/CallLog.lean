import Mathlib.Algebra.GroupWithZero.Nat
import Mathlib.Data.List.Basic

/-! Computations that log the calls they make to their surroundings and can be cut short, with rules
for what holds of all their calls and of their value. -/

namespace OsHomeworks.CallLog

/-- The calls that a piece of code has made, and its value unless it was cut short. -/
structure Logged (κ ε α : Type) where
  calls : List κ
  result : Except ε α

namespace Logged

variable {κ ε α β : Type}

instance : Monad (Logged κ ε) where
  pure a := ⟨[], .ok a⟩
  bind x f :=
    match x.result with
    | .ok a => ⟨x.calls ++ (f a).calls, (f a).result⟩
    | .error e => ⟨x.calls, .error e⟩

def perform (call : κ) : Logged κ ε Unit := ⟨[call], .ok ()⟩

def abort (e : ε) : Logged κ ε α := ⟨[], .error e⟩

@[simp] theorem pure_calls (a : α) : (pure a : Logged κ ε α).calls = [] := rfl

@[simp] theorem pure_result (a : α) : (pure a : Logged κ ε α).result = .ok a := rfl

@[simp] theorem perform_result (call : κ) : (perform call : Logged κ ε Unit).result = .ok () := rfl

@[simp] theorem abort_calls (e : ε) : (abort e : Logged κ ε α).calls = [] := rfl

@[simp] theorem abort_result (e : ε) : (abort e : Logged κ ε α).result = .error e := rfl

variable {x : Logged κ ε α} {f : α → Logged κ ε β}

theorem bind_of_ok {a : α} (h : x.result = .ok a) :
    x >>= f = ⟨x.calls ++ (f a).calls, (f a).result⟩ := by
  obtain ⟨calls, result⟩ := x
  obtain rfl : result = .ok a := h
  rfl

theorem bind_of_error {e : ε} (h : x.result = .error e) : x >>= f = ⟨x.calls, .error e⟩ := by
  obtain ⟨calls, result⟩ := x
  obtain rfl : result = .error e := h
  rfl

@[simp] theorem ok_bind (a : α) : (pure a : Logged κ ε α) >>= f = f a :=
  bind_of_ok (pure_result a)

@[simp] theorem perform_bind (call : κ) (g : Unit → Logged κ ε β) :
    perform call >>= g = ⟨call :: (g ()).calls, (g ()).result⟩ := bind_of_ok (perform_result call)

@[simp] theorem abort_bind (e : ε) : (abort e : Logged κ ε α) >>= f = abort e :=
  bind_of_error (abort_result e)

/-- A sequence returns exactly where both parts do. -/
theorem bind_result_eq_ok {b : β} :
    (x >>= f).result = .ok b ↔ ∃ a, x.result = .ok a ∧ (f a).result = .ok b := by
  cases h : x.result with
  | ok a =>
      rw [bind_of_ok h]
      exact ⟨fun hb => ⟨a, rfl, hb⟩, fun ⟨a', ha', hb⟩ => by cases ha'; exact hb⟩
  | error e =>
      rw [bind_of_error h]
      exact ⟨nofun, fun ⟨a, ha, _⟩ => nomatch ha⟩

/-- A loop whose turns are never cut short and make their calls whatever the state. -/
theorem foldlM_eq {σ : Type} {f : σ → α → Logged κ ε σ} {g : σ → α → σ} {c : α → List κ}
    (h : ∀ s a, f s a = ⟨c a, .ok (g s a)⟩) (l : List α) (s : σ) :
    l.foldlM f s = ⟨l.flatMap c, .ok (l.foldl g s)⟩ := by
  induction l generalizing s with
  | nil => rfl
  | cons a l ih =>
      rw [List.foldlM_cons, h, bind_of_ok rfl, ih]
      rfl

/-- Every call satisfies `P`, and so does the value `Q`, if there is one. -/
structure Ensures (P : κ → Prop) (Q : α → Prop) (x : Logged κ ε α) : Prop where
  call : ∀ c ∈ x.calls, P c
  value : ∀ a, x.result = .ok a → Q a

variable {P : κ → Prop} {Q : α → Prop} {R : β → Prop}

theorem ensures_pure {a : α} (h : Q a) : Ensures P Q (pure a : Logged κ ε α) :=
  ⟨nofun, fun _ ha => Except.ok.inj ha ▸ h⟩

theorem ensures_perform {c : κ} {Q : Unit → Prop} (hc : P c) (hq : Q ()) :
    Ensures P Q (perform c : Logged κ ε Unit) :=
  ⟨fun d hd => by rwa [List.mem_singleton.mp hd], fun _ _ => hq⟩

theorem ensures_abort {e : ε} : Ensures P Q (abort e : Logged κ ε α) := ⟨nofun, nofun⟩

theorem Ensures.bind (hx : Ensures P Q x) (hf : ∀ a, Q a → Ensures P R (f a)) :
    Ensures P R (x >>= f) := by
  cases h : x.result with
  | ok a =>
      have hfa := hf a (hx.value a h)
      rw [bind_of_ok h]
      exact ⟨fun c hc => (List.mem_append.mp hc).elim (hx.call c) (hfa.call c), hfa.value⟩
  | error e =>
      rw [bind_of_error h]
      exact ⟨hx.call, nofun⟩

theorem Ensures.mono {P' : κ → Prop} {Q' : α → Prop} (hx : Ensures P Q x)
    (hcall : ∀ c, P c → P' c) (hvalue : ∀ a, Q a → Q' a) : Ensures P' Q' x :=
  ⟨fun c hc => hcall c (hx.call c hc), fun a ha => hvalue a (hx.value a ha)⟩

/-- All calls together weigh `k` at most. -/
def Weighs (weight : κ → ℕ) (k : ℕ) (x : Logged κ ε α) : Prop := (x.calls.map weight).sum ≤ k

variable {weight : κ → ℕ} {k : ℕ}

theorem weighs_pure (a : α) : Weighs weight k (pure a : Logged κ ε α) := Nat.zero_le k

theorem weighs_abort (e : ε) : Weighs weight k (abort e : Logged κ ε α) := Nat.zero_le k

theorem weighs_of_ensures (hx : Ensures (weight · = 0) Q x) : Weighs weight 0 x := by
  have hall := hx.call
  unfold Weighs
  generalize x.calls = calls at hall
  induction calls with
  | nil => exact Nat.le_refl 0
  | cons c calls ih =>
      rw [List.map_cons, List.sum_cons, hall c List.mem_cons_self, Nat.zero_add]
      exact ih fun c' hc' => hall c' (List.mem_cons_of_mem c hc')

theorem Weighs.bind {j : ℕ} (hx : Weighs weight j x)
    (hf : ∀ a, x.result = .ok a → Weighs weight k (f a)) : Weighs weight (j + k) (x >>= f) := by
  unfold Weighs at hx hf ⊢
  cases h : x.result with
  | ok a =>
      have hfa := hf a h
      rw [bind_of_ok h, List.map_append, List.sum_append]
      exact Nat.add_le_add hx hfa
  | error e =>
      rw [bind_of_error h]
      exact Nat.le_trans hx (Nat.le_add_right j k)

/-- What weighs nothing can come first. -/
theorem Weighs.of_silent (hx : Ensures (weight · = 0) Q x) (hf : ∀ a, Weighs weight k (f a)) :
    Weighs weight k (x >>= f) :=
  Nat.zero_add k ▸ (weighs_of_ensures hx).bind fun a _ => hf a

/-- It is not cut short in one of these ways. -/
def Avoids (bad : ε → Prop) (x : Logged κ ε α) : Prop := ∀ e, x.result = .error e → ¬bad e

variable {bad : ε → Prop}

theorem avoids_pure (a : α) : Avoids bad (pure a : Logged κ ε α) := nofun

theorem avoids_perform (c : κ) : Avoids bad (perform c : Logged κ ε Unit) := nofun

theorem avoids_abort {e : ε} (h : ¬bad e) : Avoids bad (abort e : Logged κ ε α) :=
  fun _ he => Except.error.inj he ▸ h

theorem Avoids.bind (hx : Avoids bad x) (hf : ∀ a, x.result = .ok a → Avoids bad (f a)) :
    Avoids bad (x >>= f) := by
  cases h : x.result with
  | ok a =>
      rw [bind_of_ok h]
      exact hf a h
  | error e =>
      rw [bind_of_error h]
      exact fun e' he' => Except.error.inj he' ▸ hx e h

end Logged

end OsHomeworks.CallLog
