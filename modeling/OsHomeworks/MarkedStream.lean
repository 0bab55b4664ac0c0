import OsHomeworks.CallLog
import Mathlib.Logic.Function.Basic

/-! Parsers that are given a stream piece by piece and hand out parts of each piece. While a piece is
read, a mark says where an open part begins; at the end of the piece what is open is handed out as far
as it goes, and with the next piece it goes on. Against such a parser stands what one byte after the
other contributes; that does not depend on how the stream is cut. -/

namespace OsHomeworks.MarkedStream

open CallLog CallLog.Logged

/-- What a turn does with the parts, in the order of its statements: the part `k` begins with the byte
that is read, ends before it, or consists of the `n` bytes from it on. -/
inductive Action (κ ν : Type) where
  | mark (k : κ)
  | callback (k : κ)
  | notify (n : ν)
  | report (k : κ) (n : ℕ)
  deriving DecidableEq

/-- What the user is handed. -/
inductive Event (κ ν : Type) where
  | notify (n : ν)
  | data (k : κ) (bytes : List UInt8)
  deriving DecidableEq

/-- One turn of the loop; `advance` is how many bytes it reads. -/
structure Turn (σ κ ν ε : Type) where
  actions : List (Action κ ν)
  next : Except ε σ
  advance : ℕ

/-- A turn depends on the state, on how many bytes are left of the piece, and on the first of them. -/
abbrev Machine (σ κ ν ε : Type) := σ → ℕ → UInt8 → Turn σ κ ν ε

abbrev Marks (κ : Type) := κ → Option ℕ

variable {σ κ ν ε α : Type}

/-- The bytes from `m` up to `p`. -/
def slice (data : List UInt8) (m p : ℕ) : List UInt8 := (data.drop m).take (p - m)

/-- The actions of a turn at the byte `p`. -/
def acts [DecidableEq κ] (data : List UInt8) (p : ℕ) :
    Marks κ → List (Action κ ν) → List (Event κ ν) × Marks κ
  | marks, [] => ([], marks)
  | marks, .mark k :: rest => acts data p (Function.update marks k (some p)) rest
  | marks, .callback k :: rest =>
      let (events, marks') := acts data p (Function.update marks k none) rest
      (((marks k).map fun m => .data k (slice data m p)).toList ++ events, marks')
  | marks, .notify n :: rest =>
      let (events, marks') := acts data p marks rest
      (.notify n :: events, marks')
  | marks, .report k n :: rest =>
      let (events, marks') := acts data p marks rest
      (.data k (slice data p (p + n)) :: events, marks')

def emit (events : List α) : Logged α ε Unit := ⟨events, .ok ()⟩

/-- The loop over a piece from the byte `p` on; it stops with the position of the byte. -/
def loop [DecidableEq κ] (M : Machine σ κ ν ε) (data : List UInt8) :
    ℕ → ℕ → Marks κ → σ → Logged (Event κ ν) (ℕ × ε) (Marks κ × σ)
  | 0, _, marks, s => return (marks, s)
  | turns + 1, p, marks, s =>
      match data[p]? with
      | none => return (marks, s)
      | some b => do
          let t := M s (data.length - p) b
          emit (acts data p marks t.actions).1
          match t.next with
          | .error e => abort (p, e)
          | .ok s => loop M data turns (p + t.advance) (acts data p marks t.actions).2 s

/-- The parts that are open at the end of a piece. -/
def flush (order : List κ) (data : List UInt8) (marks : Marks κ) : List (Event κ ν) :=
  order.filterMap fun k => (marks k).map fun m => .data k (data.drop m)

/-- A whole piece; `opens` are the parts that a state has open. -/
def read [DecidableEq κ] (M : Machine σ κ ν ε) (opens : σ → κ → Bool) (order : List κ) (data : List UInt8) (s : σ) :
    Logged (Event κ ν) (ℕ × ε) σ := do
  let (marks, s) ← loop M data data.length 0 (fun k => if opens s k then some 0 else none) s
  emit (flush order data marks)
  return s

/-- A byte of a part, or a notification. -/
inductive Token (κ ν : Type) where
  | notify (n : ν)
  | byte (k : κ) (b : UInt8)
  deriving DecidableEq

/-- The parts one looks at, of which at most one is open in a state. -/
structure View (σ κ : Type) where
  see : κ → Bool
  track : σ → Option κ
  track_see : ∀ s k, track s = some k → see k = true

def Event.tokens (see : κ → Bool) : Event κ ν → List (Token κ ν)
  | .notify n => [.notify n]
  | .data k bytes => if see k then bytes.map (.byte k) else []

/-- What the actions of a turn contribute by themselves. -/
def notes (see : κ → Bool) (bytes : List UInt8) : List (Action κ ν) → List (Token κ ν)
  | [] => []
  | .notify n :: rest => .notify n :: notes see bytes rest
  | .report k n :: rest =>
      (if see k then (bytes.take n).map (.byte k) else []) ++ notes see bytes rest
  | .mark _ :: rest => notes see bytes rest
  | .callback _ :: rest => notes see bytes rest

/-- What a byte contributes after which the part `o` is open. -/
def here (o : Option κ) (b : UInt8) : List (Token κ ν) :=
  match o with
  | some k => [.byte k b]
  | none => []

/-- What a stream contributes whose first byte is at `p`, read one byte at a time. -/
def content (M : Machine σ κ ν ε) (V : View σ κ) :
    ℕ → σ → List UInt8 → Logged (Token κ ν) (ℕ × ε) σ
  | _, s, [] => return s
  | p, s, b :: bytes => do
      emit (notes V.see [b] (M s 1 b).actions)
      match (M s 1 b).next with
      | .error e => abort (p, e)
      | .ok s => do
          emit (here (V.track s) b)
          content M V (p + 1) s bytes

/-- The open part after the actions of a turn; none of them may get in the way of another part. -/
def follow [DecidableEq κ] (see : κ → Bool) : Option κ → List (Action κ ν) → Option (Option κ)
  | o, [] => some o
  | o, .mark k :: rest =>
      if see k then if o = none then follow see (some k) rest else none else follow see o rest
  | o, .callback k :: rest =>
      if see k then if o = some k then follow see none rest else none else follow see o rest
  | o, .notify _ :: rest => if o = none then follow see none rest else none
  | o, .report _ _ :: rest => if o = none then follow see none rest else none

/-- The turns open and end the parts of the view as its states say. -/
structure Tracks [DecidableEq κ] (M : Machine σ κ ν ε) (V : View σ κ) : Prop where
  ok : ∀ s b s', (M s 1 b).next = .ok s' →
    follow V.see (V.track s) (M s 1 b).actions = some (V.track s')
  stop : ∀ s b e, (M s 1 b).next = .error e →
    ∃ o, follow V.see (V.track s) (M s 1 b).actions = some o

/-- Actions that only notify. -/
def Quiet (actions : List (Action κ ν)) : Prop := ∀ a ∈ actions, ∃ n, a = .notify n

/-- A turn that reads several bytes does what as many turns on one byte each do. -/
structure SplitsAt (M : Machine σ κ ν ε) (s : σ) : Prop where
  pos : ∀ n b, 0 < (M s (n + 1) b).advance
  short : ∀ b k n, .report k n ∈ (M s 1 b).actions → n ≤ 1
  one : ∀ n b, (M s (n + 1) b).advance = 1 → M s (n + 1) b = M s 1 b
  many : ∀ n b m, (M s (n + 1) b).advance = m + 2 → m < n ∧ ∃ k tail s₁ s', Quiet tail ∧
    M s (n + 1) b = ⟨.report k (m + 2) :: tail, .ok s', m + 2⟩ ∧
    M s 1 b = ⟨[.report k 1], .ok s₁, 1⟩ ∧ ∀ b', M s₁ n b' = ⟨.report k (m + 1) :: tail, .ok s', m + 1⟩

def Splits (M : Machine σ κ ν ε) : Prop := ∀ s, SplitsAt M s

theorem slice_self (data : List UInt8) (p : ℕ) : slice data p p = [] := by
  simp [slice]

theorem slice_add (data : List UInt8) (p n : ℕ) : slice data p (p + n) = (data.drop p).take n := by
  rw [slice, Nat.add_sub_cancel_left]

theorem slice_length (data : List UInt8) (m : ℕ) : slice data m data.length = data.drop m := by
  rw [slice, ← List.length_drop, List.take_length]

theorem slice_succ {data : List UInt8} {m p : ℕ} {b : UInt8} (hm : m ≤ p)
    (hb : data[p]? = some b) : slice data m (p + 1) = slice data m p ++ [b] := by
  have hlast : (data.drop m)[p - m]? = some b := by
    rw [List.getElem?_drop, Nat.add_sub_cancel' hm, hb]
  rw [slice, slice, Nat.succ_sub hm, List.take_add_one, hlast]
  rfl

variable {see : κ → Bool} {o o' : Option κ} {marks : Marks κ} {data : List UInt8} {p : ℕ}

def tokens (see : κ → Bool) (events : List (Event κ ν)) : List (Token κ ν) :=
  events.flatMap (Event.tokens see)

theorem tokens_cons (event : Event κ ν) (events : List (Event κ ν)) :
    tokens see (event :: events) = event.tokens see ++ tokens see events := List.flatMap_cons

theorem tokens_append (events events' : List (Event κ ν)) :
    tokens see (events ++ events') = tokens see events ++ tokens see events' :=
  List.flatMap_append

/-- What the open part has so far. -/
def pending (o : Option κ) (data : List UInt8) (p : ℕ) (marks : Marks κ) : List (Token κ ν) :=
  match o with
  | none => []
  | some k =>
      match marks k with
      | none => []
      | some m => (slice data m p).map (.byte k)

/-- Of the parts in view only `o` has a mark. -/
structure Open (see : κ → Bool) (o : Option κ) (marks : Marks κ) (p : ℕ) : Prop where
  seen : ∀ k, o = some k → see k = true
  marked : ∀ k, o = some k → ∃ m ≤ p, marks k = some m
  clear : ∀ k, see k = true → o ≠ some k → marks k = none

theorem Open.pending_eq {k : κ} (h : Open see (some k) marks p) (data : List UInt8) :
    ∃ m ≤ p, marks k = some m ∧
      pending (some k) data p marks = (slice data m p).map (Token.byte (ν := ν) k) := by
  obtain ⟨m, hm, hmark⟩ := h.marked k rfl
  refine ⟨m, hm, hmark, ?_⟩
  simp only [pending, hmark]

/-- An action on a part that is not in view. -/
theorem Open.update [DecidableEq κ] (h : Open see o marks p) {k : κ} (hk : see k = false) (m : Option ℕ) :
    Open see o (Function.update marks k m) p ∧
      pending (ν := ν) o data p (Function.update marks k m) = pending o data p marks := by
  have hne : ∀ j, see j = true → j ≠ k := by
    rintro j hj rfl
    rw [hk] at hj
    cases hj
  refine ⟨⟨h.seen, fun j hj => ?_, fun j hj ho => ?_⟩, ?_⟩
  · rw [Function.update_of_ne (hne j (h.seen j hj))]
    exact h.marked j hj
  · rw [Function.update_of_ne (hne j hj)]
    exact h.clear j hj ho
  · cases o with
    | none => rfl
    | some j => simp only [pending, Function.update_of_ne (hne j (h.seen j rfl))]

theorem Open.mark [DecidableEq κ] (h : Open see none marks p) {k : κ} (hk : see k = true) :
    Open see (some k) (Function.update marks k (some p)) p := by
  refine ⟨?_, ?_, fun j hj hne => ?_⟩
  · rintro _ ⟨⟩
    exact hk
  · rintro _ ⟨⟩
    exact ⟨p, Nat.le_refl p, Function.update_self ..⟩
  · have hjk : j ≠ k := fun heq => hne (congrArg some heq.symm)
    rw [Function.update_of_ne hjk]
    exact h.clear j hj nofun

theorem Open.callback [DecidableEq κ] {k : κ} (h : Open see (some k) marks p) :
    Open see none (Function.update marks k none) p := by
  refine ⟨nofun, nofun, fun j hj _ => ?_⟩
  by_cases hjk : j = k
  · rw [hjk, Function.update_self]
  · rw [Function.update_of_ne hjk]
    exact h.clear j hj fun heq => hjk (Option.some.inj heq).symm

/-- What is handed out and what is then open are what was open and what the turn contributes. -/
theorem acts_spec [DecidableEq κ] (data : List UInt8) (h : Open see o marks p) {actions : List (Action κ ν)}
    (hfollow : follow see o actions = some o') :
    Open see o' (acts data p marks actions).2 p ∧
      tokens see (acts data p marks actions).1 ++ pending o' data p (acts data p marks actions).2 =
        pending o data p marks ++ notes see (data.drop p) actions := by
  induction actions generalizing o marks with
  | nil =>
      obtain rfl : o = o' := Option.some.inj hfollow
      refine ⟨h, ?_⟩
      rw [notes, List.append_nil]
      rfl
  | cons action actions ih =>
      cases action with
      | mark k =>
          rw [follow] at hfollow
          split_ifs at hfollow with hsee hnone
          · subst hnone
            obtain ⟨hopen, htokens⟩ := ih (h.mark hsee) hfollow
            refine ⟨hopen, htokens.trans ?_⟩
            simp [pending, slice_self, notes]
          · obtain ⟨hopen', hsame⟩ := h.update (ν := ν) (Bool.eq_false_iff.mpr hsee) (some p)
            obtain ⟨hopen, htokens⟩ := ih hopen' hfollow
            refine ⟨hopen, htokens.trans ?_⟩
            rw [hsame, notes]
      | callback k =>
          rw [follow] at hfollow
          split_ifs at hfollow with hsee hk
          · subst hk
            obtain ⟨m, hm, hmark, hpending⟩ := h.pending_eq (ν := ν) data
            obtain ⟨hopen, htokens⟩ := ih h.callback hfollow
            refine ⟨hopen, ?_⟩
            have hevent : tokens see ((marks k).map fun m =>
                (.data k (slice data m p) : Event κ ν)).toList = (slice data m p).map (.byte k) := by
              simp [hmark, tokens, Event.tokens, hsee]
            rw [acts, hpending, notes, tokens_append, List.append_assoc, htokens, hevent]
            rfl
          · have hunseen : see k = false := Bool.eq_false_iff.mpr hsee
            obtain ⟨hopen', hsame⟩ := h.update (ν := ν) hunseen none
            obtain ⟨hopen, htokens⟩ := ih hopen' hfollow
            refine ⟨hopen, ?_⟩
            have hevent : tokens see ((marks k).map fun m =>
                (.data k (slice data m p) : Event κ ν)).toList = [] := by
              cases hmark : marks k <;> simp [tokens, Event.tokens, hunseen]
            rw [acts, notes, tokens_append, List.append_assoc, htokens, hevent, hsame]
            rfl
      | notify n =>
          rw [follow] at hfollow
          split_ifs at hfollow with hnone
          subst hnone
          obtain ⟨hopen, htokens⟩ := ih h hfollow
          refine ⟨hopen, ?_⟩
          rw [acts, notes, tokens_cons, List.append_assoc, htokens]
          rfl
      | report k n =>
          rw [follow] at hfollow
          split_ifs at hfollow with hnone
          subst hnone
          obtain ⟨hopen, htokens⟩ := ih h hfollow
          refine ⟨hopen, ?_⟩
          rw [acts, notes, tokens_cons, List.append_assoc, htokens, slice_add]
          rfl

variable {M : Machine σ κ ν ε} {V : View σ κ} {b : UInt8}

theorem emit_bind (events : List α) {β : Type} (f : Unit → Logged α ε β) :
    emit events >>= f = ⟨events ++ (f ()).calls, (f ()).result⟩ := bind_of_ok rfl

theorem emit_append (events events' : List α) {β : Type} (f : Unit → Logged α ε β) :
    (emit (events ++ events') >>= f) = emit events >>= fun _ => emit events' >>= f := by
  simp only [emit_bind, List.append_assoc]

theorem emit_assoc (events : List α) {β γ : Type} (x : Logged α ε β) (f : β → Logged α ε γ) :
    ((emit events >>= fun _ => x) >>= f) = emit events >>= fun _ => x >>= f := by
  obtain ⟨calls, result⟩ := x
  cases result with
  | ok b =>
      show Logged.mk (events ++ calls ++ (f b).calls) (f b).result =
        ⟨events ++ (calls ++ (f b).calls), (f b).result⟩
      rw [List.append_assoc]
  | error e => rfl

theorem Open.mono (h : Open see o marks p) {q : ℕ} (hpq : p ≤ q) : Open see o marks q :=
  ⟨h.seen, fun k hk => (h.marked k hk).imp fun _ hm => ⟨Nat.le_trans hm.1 hpq, hm.2⟩, h.clear⟩

/-- The byte that was read belongs to the open part. -/
theorem Open.pending_succ (h : Open see o marks p) (hb : data[p]? = some b) :
    pending (ν := ν) o data (p + 1) marks = pending o data p marks ++ here o b := by
  cases o with
  | none => rfl
  | some k =>
      obtain ⟨m, hm, hmark, hpending⟩ := h.pending_eq (ν := ν) data
      rw [hpending]
      simp only [pending, hmark, slice_succ hm hb, List.map_append]
      rfl

theorem notes_quiet {tail : List (Action κ ν)} (h : Quiet tail) (bytes bytes' : List UInt8) :
    notes see bytes tail = notes see bytes' tail := by
  induction tail with
  | nil => rfl
  | cons a tail ih =>
      obtain ⟨n, rfl⟩ := h a List.mem_cons_self
      rw [notes, notes, ih fun a ha => h a (List.mem_cons_of_mem _ ha)]

theorem notes_short {actions : List (Action κ ν)} (h : ∀ k n, .report k n ∈ actions → n ≤ 1)
    (bytes : List UInt8) : notes see (b :: bytes) actions = notes see [b] actions := by
  induction actions with
  | nil => rfl
  | cons a actions ih =>
      have hrest := ih fun k n hmem => h k n (List.mem_cons_of_mem _ hmem)
      cases a with
      | report k n =>
          have htake : (b :: bytes).take n = [b].take n := by
            obtain rfl | rfl : n = 0 ∨ n = 1 := by
              have := h k n List.mem_cons_self
              omega
            · rfl
            · rfl
          rw [notes, notes, hrest, htake]
      | mark k => exact hrest
      | callback k => exact hrest
      | notify n => rw [notes, notes, hrest]

theorem follow_quiet_eq [DecidableEq κ] {tail : List (Action κ ν)} (h : Quiet tail) :
    follow see none tail = some none := by
  induction tail with
  | nil => rfl
  | cons a tail ih =>
      obtain ⟨n, rfl⟩ := h a List.mem_cons_self
      rw [follow, if_pos rfl]
      exact ih fun a ha => h a (List.mem_cons_of_mem _ ha)

/-- Where a turn hands out the bytes from the current one on, nothing is open before and after it. -/
theorem follow_report [DecidableEq κ] {tail : List (Action κ ν)} {k : κ} {n : ℕ} (h : Quiet tail)
    (hf : follow see o (.report k n :: tail) = some o') : o = none ∧ o' = none := by
  rw [follow] at hf
  split_ifs at hf with hnone
  rw [follow_quiet_eq h] at hf
  exact ⟨hnone, (Option.some.inj hf).symm⟩

theorem content_cons_ok {s s' : σ} (h : (M s 1 b).next = .ok s') (p : ℕ) (bytes : List UInt8) :
    content M V p s (b :: bytes) =
      emit (notes V.see [b] (M s 1 b).actions ++ here (V.track s') b) >>= fun _ =>
        content M V (p + 1) s' bytes := by
  rw [content, h, emit_append]

theorem content_cons_error {s : σ} {e : ε} (h : (M s 1 b).next = .error e) (p : ℕ)
    (bytes : List UInt8) :
    content M V p s (b :: bytes) =
      emit (notes V.see [b] (M s 1 b).actions) >>= fun _ => abort (p, e) := by
  rw [content, h]

/-- The bytes that one turn hands out, byte by byte. -/
theorem content_report [DecidableEq κ] (hT : Tracks M V) (hS : Splits M) {m n : ℕ} {s s' : σ} {k : κ}
    {tail : List (Action κ ν)} (hquiet : Quiet tail) {bytes : List UInt8} (hlength : bytes.length = n)
    (hm : m ≤ n) (hturn : M s (n + 1) b = ⟨.report k (m + 1) :: tail, .ok s', m + 1⟩) (p : ℕ) :
    V.track s = none ∧ V.track s' = none ∧ content M V p s (b :: bytes) =
      emit (notes V.see (b :: bytes) (.report k (m + 1) :: tail)) >>= fun _ =>
        content M V (p + (m + 1)) s' ((b :: bytes).drop (m + 1)) := by
  induction m generalizing n s b bytes p with
  | zero =>
      have hone : M s 1 b = ⟨.report k 1 :: tail, .ok s', 1⟩ :=
        ((hS s).one n b (by rw [hturn])).symm.trans hturn
      have hfollow := hT.ok s b s' (by rw [hone])
      rw [hone] at hfollow
      obtain ⟨hbefore, hafter⟩ := follow_report hquiet hfollow
      refine ⟨hbefore, hafter, ?_⟩
      have hnotes : notes (ν := ν) V.see [b] (.report k 1 :: tail) =
          notes V.see (b :: bytes) (.report k 1 :: tail) := by
        rw [notes, notes, notes_quiet hquiet [b] (b :: bytes)]
        rfl
      rw [content_cons_ok (by rw [hone]), hone, hafter]
      show emit (notes V.see [b] (.report k 1 :: tail) ++ []) >>= _ = _
      rw [List.append_nil, hnotes]
      rfl
  | succ m ih =>
      obtain ⟨hmn, k', tail', s₁, s'', -, hturn', hone, hrest⟩ := (hS s).many n b m (by rw [hturn])
      rw [hturn] at hturn'
      injection hturn' with hactions hnext
      obtain ⟨haction, rfl⟩ := List.cons.inj hactions
      obtain ⟨rfl, -⟩ : k = k' ∧ _ := Action.report.inj haction
      obtain rfl : s' = s'' := Except.ok.inj hnext
      obtain ⟨b', bytes, rfl⟩ := List.exists_cons_of_length_pos (hlength ▸ Nat.zero_lt_of_lt hmn)
      obtain ⟨n, rfl⟩ : ∃ n', n = n' + 1 := ⟨bytes.length, hlength.symm⟩
      have hfollow := hT.ok s b s₁ (by rw [hone])
      rw [hone] at hfollow
      obtain ⟨hbefore, hmiddle⟩ := follow_report (nofun : Quiet []) hfollow
      obtain ⟨-, hafter, hcontent⟩ := ih (Nat.succ.inj hlength) (Nat.le_of_lt_succ hmn) (hrest b') (p + 1)
      refine ⟨hbefore, hafter, ?_⟩
      have hnotes : notes V.see [b] [.report k 1] ++ notes V.see (b' :: bytes) (.report k (m + 1) :: tail) =
          notes V.see (b :: b' :: bytes) (.report k (m + 1 + 1) :: tail) := by
        simp only [notes, List.append_nil]
        rw [notes_quiet hquiet (b' :: bytes) (b :: b' :: bytes), ← List.append_assoc]
        split_ifs <;> rfl
      have hplace : p + 1 + (m + 1) = p + (m + 1 + 1) := by omega
      calc content M V p s (b :: b' :: bytes)
          = emit (notes V.see [b] [.report k 1] ++ []) >>= fun _ =>
              emit (notes V.see (b' :: bytes) (.report k (m + 1) :: tail)) >>= fun _ =>
                content M V (p + (m + 1 + 1)) s' (bytes.drop m) := by
            rw [content_cons_ok (by rw [hone]), hone, hmiddle, hcontent, hplace]
            rfl
        _ = emit (notes V.see [b] [.report k 1] ++
              notes V.see (b' :: bytes) (.report k (m + 1) :: tail)) >>= fun _ =>
                content M V (p + (m + 1 + 1)) s' (bytes.drop m) := by
            rw [List.append_nil, emit_append]
        _ = _ := by
            rw [hnotes]
            rfl

/-- Tokens of which none is a notification. -/
def Bytes (rest : List (Token κ ν)) : Prop := ∀ n, .notify n ∉ rest

theorem bytes_pending (o : Option κ) (data : List UInt8) (p : ℕ) (marks : Marks κ) :
    Bytes (ν := ν) (pending o data p marks) := by
  intro n
  cases o with
  | none => exact List.not_mem_nil
  | some k => cases hmark : marks k <;> simp [pending, hmark]

/-- A run over a piece hands out what it contributes, as far as nothing is open at its end. -/
def Accords (V : View σ κ) (data : List UInt8) (before : List (Token κ ν))
    (run : Logged (Event κ ν) (ℕ × ε) (Marks κ × σ)) (whole : Logged (Token κ ν) (ℕ × ε) σ) : Prop :=
  match run.result with
  | .ok (marks, s) => whole.result = .ok s ∧ Open V.see (V.track s) marks data.length ∧
      tokens V.see run.calls ++ pending (V.track s) data data.length marks = before ++ whole.calls
  | .error e => whole.result = .error e ∧
      ∃ rest, Bytes rest ∧ tokens V.see run.calls ++ rest = before ++ whole.calls

theorem Accords.emit {before before' notes : List (Token κ ν)} {events : List (Event κ ν)}
    {run : Logged (Event κ ν) (ℕ × ε) (Marks κ × σ)} {whole : Logged (Token κ ν) (ℕ × ε) σ}
    (h : Accords V data before' run whole) (hevents : tokens V.see events ++ before' = before ++ notes) :
    Accords V data before (MarkedStream.emit events >>= fun _ => run)
      (MarkedStream.emit notes >>= fun _ => whole) := by
  rw [emit_bind, emit_bind]
  unfold Accords at h ⊢
  cases hrun : run.result with
  | ok r =>
      simp only [hrun] at h ⊢
      obtain ⟨hresult, hopen, htokens⟩ := h
      refine ⟨hresult, hopen, ?_⟩
      rw [tokens_append, List.append_assoc, htokens, ← List.append_assoc, hevents, List.append_assoc]
  | error e =>
      simp only [hrun] at h ⊢
      obtain ⟨hresult, rest, hbytes, htokens⟩ := h
      refine ⟨hresult, rest, hbytes, ?_⟩
      rw [tokens_append, List.append_assoc, htokens, ← List.append_assoc, hevents, List.append_assoc]

theorem loop_accords [DecidableEq κ] (hT : Tracks M V) (hS : Splits M) (data : List UInt8) {turns : ℕ} {s : σ}
    (hopen : Open V.see (V.track s) marks p) (hturns : data.length ≤ p + turns)
    (hp : p ≤ data.length) :
    Accords V data (pending (V.track s) data p marks) (loop M data turns p marks s)
      (content M V p s (data.drop p)) := by
  induction turns generalizing p marks s with
  | zero =>
      obtain rfl : p = data.length := by omega
      rw [List.drop_length]
      exact ⟨rfl, hopen, (List.append_nil _).symm⟩
  | succ turns ih =>
      rw [loop]
      cases hb : data[p]? with
      | none =>
          obtain rfl : p = data.length := by
            have := List.getElem?_eq_none_iff.mp hb
            omega
          rw [List.drop_length]
          exact ⟨rfl, hopen, (List.append_nil _).symm⟩
      | some b =>
          obtain ⟨hlt, hget⟩ := List.getElem?_eq_some_iff.mp hb
          have hdrop : data.drop p = b :: data.drop (p + 1) := by
            rw [← hget, List.drop_eq_getElem_cons hlt]
          obtain ⟨n, hn⟩ : ∃ n, data.length - p = n + 1 := ⟨data.length - p - 1, by omega⟩
          have hrest : (data.drop (p + 1)).length = n := by
            rw [List.length_drop]
            omega
          dsimp only
          rw [hn, hdrop]
          obtain hone | ⟨m, hmany⟩ : (M s (n + 1) b).advance = 1 ∨ ∃ m, (M s (n + 1) b).advance = m + 2 := by
            have hpos := (hS s).pos n b
            rcases Nat.lt_or_ge 1 (M s (n + 1) b).advance with h | h
            · exact Or.inr ⟨_, (Nat.sub_add_cancel h).symm⟩
            · exact Or.inl (by omega)
          · have hturn := (hS s).one n b hone
            have hnotes : notes V.see (b :: data.drop (p + 1)) (M s 1 b).actions =
                notes V.see [b] (M s 1 b).actions := notes_short ((hS s).short b) _
            rw [hone, hturn]
            cases hnext : (M s 1 b).next with
            | error e =>
                obtain ⟨o, hfollow⟩ := hT.stop s b e hnext
                obtain ⟨-, htokens⟩ := acts_spec data hopen hfollow
                rw [hdrop, hnotes] at htokens
                rw [content_cons_error hnext]
                apply Accords.emit _ htokens
                exact ⟨rfl, _, bytes_pending _ _ _ _, (List.append_nil _).symm⟩
            | ok s' =>
                obtain ⟨hopen', htokens⟩ := acts_spec data hopen (hT.ok s b s' hnext)
                rw [hdrop, hnotes] at htokens
                rw [content_cons_ok hnext]
                apply (ih (hopen'.mono (Nat.le_succ p)) (by omega) hlt).emit
                rw [hopen'.pending_succ hb, ← List.append_assoc, htokens, List.append_assoc]
          · obtain ⟨hmn, k, tail, s₁, s', hquiet, hturn, -, -⟩ := (hS s).many n b m hmany
            obtain ⟨hbefore, hafter, hcontent⟩ := content_report hT hS hquiet hrest hmn hturn p
            have hfollow : follow V.see (V.track s) (.report k (m + 1 + 1) :: tail) = some (V.track s') := by
              rw [hbefore, hafter, follow, if_pos rfl, follow_quiet_eq hquiet]
            obtain ⟨hopen', htokens⟩ := acts_spec data hopen hfollow
            rw [hturn, hcontent]
            have hmore : (b :: data.drop (p + 1)).drop (m + 1 + 1) = data.drop (p + (m + 1 + 1)) := by
              rw [← hdrop, List.drop_drop]
            rw [hmore]
            have hend : p + (m + 1 + 1) ≤ data.length := by omega
            have henough : data.length ≤ p + (m + 1 + 1) + turns := by omega
            apply (ih (hopen'.mono (Nat.le_add_right p _)) henough hend).emit
            rw [hafter] at htokens ⊢
            rw [hdrop] at htokens
            exact htokens

/-! ### A stream in pieces -/

/-- The parts that a state has open are, as far as they are in view, the one that is tracked. -/
def Shows (opens : σ → κ → Bool) (V : View σ κ) : Prop :=
  ∀ s k, V.see k = true → (opens s k = true ↔ V.track s = some k)

variable {opens : σ → κ → Bool} {order : List κ}

theorem open_start (h : Shows opens V) (s : σ) :
    Open V.see (V.track s) (fun k => if opens s k then some 0 else none) 0 := by
  refine ⟨V.track_see s, fun k hk => ⟨0, Nat.le_refl 0, ?_⟩, fun k hk hne => ?_⟩
  · exact if_pos ((h s k (V.track_see s k hk)).mpr hk)
  · exact if_neg fun hopens => hne ((h s k hk).mp hopens)

/-- At the end of a piece exactly the open part is handed out. -/
theorem tokens_flush (h : Open see o marks data.length) (hnodup : order.Nodup)
    (hmem : ∀ k, o = some k → k ∈ order) :
    tokens (ν := ν) see (flush order data marks) = pending o data data.length marks := by
  have hother : ∀ l : List κ, (∀ k, o = some k → k ∉ l) →
      tokens (ν := ν) see (flush l data marks) = [] := by
    intro l hl
    induction l with
    | nil => rfl
    | cons k l ih =>
        have hrest := ih fun j hj hmem => hl j hj (List.mem_cons_of_mem _ hmem)
        cases hmark : marks k with
        | none =>
            rw [flush, List.filterMap_cons_none (by rw [hmark]; rfl)]
            exact hrest
        | some m =>
            have hsee : see k = false := by
              by_contra hsee
              have hne : o ≠ some k := fun heq => hl k heq List.mem_cons_self
              rw [h.clear k (by simpa using hsee) hne] at hmark
              cases hmark
            rw [flush, List.filterMap_cons_some (by rw [hmark]; rfl), tokens_cons, Event.tokens, hsee]
            exact hrest
  cases o with
  | none => exact hother order nofun
  | some k =>
      obtain ⟨before, after, hsplit⟩ := List.append_of_mem (hmem k rfl)
      rw [hsplit, List.nodup_append] at hnodup
      obtain ⟨-, hafter, hbefore⟩ := hnodup
      obtain ⟨m, -, hmark, hpending⟩ := h.pending_eq (ν := ν) data
      have hfront : tokens (ν := ν) see (flush before data marks) = [] := by
        apply hother
        rintro _ ⟨⟩ hk
        exact hbefore k hk k List.mem_cons_self rfl
      have hback : tokens (ν := ν) see (flush after data marks) = [] := by
        apply hother
        rintro _ ⟨⟩ hk
        exact (List.nodup_cons.mp hafter).1 hk
      have hflush : flush (ν := ν) order data marks =
          flush before data marks ++ .data k (data.drop m) :: flush after data marks := by
        rw [hsplit, flush, List.filterMap_append, List.filterMap_cons_some (by rw [hmark]; rfl)]
        rfl
      rw [hflush, tokens_append, tokens_cons, hfront, hback, hpending, slice_length, Event.tokens,
        h.seen k rfl]
      simp

/-- A piece hands out what its bytes contribute; where it is stopped, an open part stays behind. -/
theorem read_spec [DecidableEq κ] (hT : Tracks M V) (hS : Splits M) (hshows : Shows opens V) (hnodup : order.Nodup)
    (hmem : ∀ s k, V.track s = some k → k ∈ order) (data : List UInt8) (s : σ) :
    (read M opens order data s).result = (content M V 0 s data).result ∧
      ∃ rest, Bytes rest ∧
        tokens V.see (read M opens order data s).calls ++ rest = (content M V 0 s data).calls ∧
        ∀ s', (read M opens order data s).result = .ok s' → rest = [] := by
  have hopen := open_start hshows s
  have hbefore : pending (ν := ν) (V.track s) data 0 (fun k => if opens s k then some 0 else none) = [] := by
    cases htrack : V.track s with
    | none => rfl
    | some k =>
        rw [htrack] at hopen
        obtain ⟨m, hm, -, hpending⟩ := hopen.pending_eq (ν := ν) data
        rw [hpending, Nat.le_zero.mp hm, slice_self]
        rfl
  have haccords := loop_accords hT hS data hopen (Nat.le_of_eq (Nat.zero_add _).symm) (Nat.zero_le _)
  rw [hbefore, List.drop_zero] at haccords
  unfold Accords at haccords
  unfold read
  cases hloop : (loop M data data.length 0 (fun k => if opens s k then some 0 else none) s).result with
  | ok r =>
      obtain ⟨marks, s'⟩ := r
      simp only [hloop] at haccords
      obtain ⟨hresult, hopen', htokens⟩ := haccords
      have hflush := tokens_flush (ν := ν) hopen' hnodup fun k hk => hmem s' k hk
      rw [bind_of_ok hloop]
      refine ⟨hresult.symm, [], fun _ => List.not_mem_nil, ?_, fun _ _ => rfl⟩
      simp only [emit_bind, pure_calls, List.append_nil]
      rw [tokens_append, hflush, htokens]
      rfl
  | error e =>
      simp only [hloop] at haccords
      obtain ⟨hresult, rest, hbytes, htokens⟩ := haccords
      rw [bind_of_error hloop]
      exact ⟨hresult.symm, rest, hbytes, htokens, nofun⟩

/-- Two machines that do the same as long as `I` holds, of the number of bytes left and the state. -/
theorem read_congr [DecidableEq κ] {M' : Machine σ κ ν ε} {I : ℕ → σ → Prop}
    (hsame : ∀ s n b, I (n + 1) s → M s (n + 1) b = M' s (n + 1) b)
    (hkeep : ∀ s n b s', I (n + 1) s → (M' s (n + 1) b).next = .ok s' →
      I (n + 1 - (M' s (n + 1) b).advance) s')
    {data : List UInt8} {s : σ} (hI : I data.length s) :
    read M opens order data s = read M' opens order data s := by
  have hloop : ∀ turns p marks s, I (data.length - p) s →
      loop M data turns p marks s = loop M' data turns p marks s := by
    intro turns
    induction turns with
    | zero => exact fun _ _ _ _ => rfl
    | succ turns ih =>
        intro p marks s hI
        cases hb : data[p]? with
        | none => simp only [loop, hb]
        | some b =>
            obtain ⟨n, hn⟩ : ∃ n, data.length - p = n + 1 := by
              have := (List.getElem?_eq_some_iff.mp hb).1
              exact ⟨data.length - p - 1, by omega⟩
            rw [hn] at hI
            simp only [loop, hb, hn, hsame s n b hI]
            cases hnext : (M' s (n + 1) b).next with
            | error e => rfl
            | ok s' =>
                have hleft := hkeep s n b s' hI hnext
                have hplace : n + 1 - (M' s (n + 1) b).advance =
                    data.length - (p + (M' s (n + 1) b).advance) := by omega
                rw [hplace] at hleft
                simp only [ih _ _ _ hleft]
  unfold read
  rw [hloop _ _ _ _ hI]

/-- The same with positions counted from `p` bytes before. -/
def shift (p : ℕ) (x : Logged α (ℕ × ε) σ) : Logged α (ℕ × ε) σ :=
  ⟨x.calls, x.result.mapError fun e => (p + e.1, e.2)⟩

/-- A stream in pieces; what a piece leaves is saved for the next one. -/
def feed [DecidableEq κ] (M : Machine σ κ ν ε) (opens : σ → κ → Bool) (order : List κ) (save : σ → σ) :
    ℕ → σ → List (List UInt8) → Logged (Event κ ν) (ℕ × ε) σ
  | _, s, [] => return s
  | p, s, data :: pieces => do
      let s ← shift p (read M opens order data s)
      feed M opens order save (p + data.length) (save s) pieces

/-- What every byte keeps true holds behind all of them, and of what stops the run. -/
theorem content_invariant {I : σ → Prop} {J : ε → Prop}
    (hok : ∀ s b s', I s → (M s 1 b).next = .ok s' → I s')
    (herror : ∀ s b e, I s → (M s 1 b).next = .error e → J e) {s : σ} (hI : I s) (p : ℕ)
    (bytes : List UInt8) :
    (∀ s', (content M V p s bytes).result = .ok s' → I s') ∧
      ∀ e, (content M V p s bytes).result = .error e → J e.2 := by
  induction bytes generalizing p s with
  | nil =>
      refine ⟨?_, nofun⟩
      rintro _ ⟨⟩
      exact hI
  | cons b bytes ih =>
      cases hnext : (M s 1 b).next with
      | ok s' =>
          rw [content_cons_ok hnext, emit_bind]
          exact ih (hok s b s' hI hnext) (p + 1)
      | error e =>
          rw [content_cons_error hnext, emit_bind]
          refine ⟨nofun, ?_⟩
          rintro _ ⟨⟩
          exact herror s b e hI hnext

theorem content_append (p : ℕ) (s : σ) (bytes bytes' : List UInt8) :
    content M V p s (bytes ++ bytes') =
      content M V p s bytes >>= fun s' => content M V (p + bytes.length) s' bytes' := by
  induction bytes generalizing p s with
  | nil => rw [content, ok_bind]; rfl
  | cons b bytes ih =>
      have hplace : p + 1 + bytes.length = p + (b :: bytes).length := by
        rw [List.length_cons]
        omega
      rw [List.cons_append]
      cases hnext : (M s 1 b).next with
      | ok s' =>
          rw [content_cons_ok hnext, content_cons_ok hnext, ih, hplace, emit_assoc]
      | error e =>
          rw [content_cons_error hnext, content_cons_error hnext]
          rfl

theorem content_shift (p q : ℕ) (s : σ) (bytes : List UInt8) :
    content M V (p + q) s bytes = shift p (content M V q s bytes) := by
  induction bytes generalizing q s with
  | nil => rfl
  | cons b bytes ih =>
      cases hnext : (M s 1 b).next with
      | ok s' =>
          rw [content_cons_ok hnext, content_cons_ok hnext, Nat.add_assoc, ih, emit_bind, emit_bind]
          rfl
      | error e =>
          rw [content_cons_error hnext, content_cons_error hnext]
          rfl

/-- Results of which either both are values, related by `R`, or both errors, related by `E`. -/
inductive Alike {τ δ δ' : Type} (R : σ → τ → Prop) (E : δ → δ' → Prop) :
    Except δ σ → Except δ' τ → Prop where
  | ok {s : σ} {c : τ} : R s c → Alike R E (.ok s) (.ok c)
  | error {e : δ} {e' : δ'} : E e e' → Alike R E (.error e) (.error e')

section Bisimulation

variable {τ ε' : Type}

/-- Two machines in states that cannot be told apart. -/
structure Bisimulation (M : Machine σ κ ν ε) (V : View σ κ) (N : Machine τ κ ν ε') (W : View τ κ)
    (R : σ → τ → Prop) (E : ε → ε' → Prop) : Prop where
  see : V.see = W.see
  track : ∀ s c, R s c → V.track s = W.track c
  actions : ∀ s c b, R s c → (M s 1 b).actions = (N c 1 b).actions
  next : ∀ s c b, R s c → Alike R E (M s 1 b).next (N c 1 b).next

def AtSame (E : ε → ε' → Prop) (x : ℕ × ε) (y : ℕ × ε') : Prop := x.1 = y.1 ∧ E x.2 y.2

variable {N : Machine τ κ ν ε'} {W : View τ κ} {R : σ → τ → Prop} {E : ε → ε' → Prop} {s : σ} {c : τ}

theorem content_alike (h : Bisimulation M V N W R E) (hR : R s c) (p : ℕ) (bytes : List UInt8) :
    (content M V p s bytes).calls = (content N W p c bytes).calls ∧
      Alike R (AtSame E) (content M V p s bytes).result (content N W p c bytes).result := by
  induction bytes generalizing p s c with
  | nil => exact ⟨rfl, .ok hR⟩
  | cons b bytes ih =>
      have hactions := h.actions s c b hR
      have hnext := h.next s c b hR
      cases hs : (M s 1 b).next with
      | ok s' =>
          cases hc : (N c 1 b).next with
          | ok c' =>
              rw [hs, hc] at hnext
              cases hnext with
              | ok hR' =>
                  obtain ⟨hcalls, hresult⟩ := ih hR' (p + 1)
                  rw [content_cons_ok hs, content_cons_ok hc, emit_bind, emit_bind, h.see, hactions,
                    h.track s' c' hR', hcalls]
                  exact ⟨rfl, hresult⟩
          | error e =>
              rw [hs, hc] at hnext
              cases hnext
      | error e =>
          cases hc : (N c 1 b).next with
          | ok c' =>
              rw [hs, hc] at hnext
              cases hnext
          | error e' =>
              rw [hs, hc] at hnext
              cases hnext with
              | error hE =>
                  rw [content_cons_error hs, content_cons_error hc, h.see, hactions]
                  exact ⟨rfl, .error ⟨rfl, hE⟩⟩

theorem shift_calls (p : ℕ) (x : Logged α (ℕ × ε) σ) : (shift p x).calls = x.calls := rfl

/-- However a stream is cut, its pieces hand out what its bytes contribute. -/
theorem feed_spec [DecidableEq κ] (hT : Tracks M V) (hS : Splits M) (hshows : Shows opens V) (hnodup : order.Nodup)
    (hmem : ∀ s k, V.track s = some k → k ∈ order) (hB : Bisimulation M V N W R E) {save : σ → σ}
    (hsave : ∀ s c, R s c → R (save s) c) (hR : R s c) (p : ℕ) (pieces : List (List UInt8)) :
    Alike R (AtSame E) (feed M opens order save p s pieces).result
        (content N W p c pieces.flatten).result ∧
      ∃ rest, Bytes rest ∧ tokens V.see (feed M opens order save p s pieces).calls ++ rest =
          (content N W p c pieces.flatten).calls ∧
        ∀ s', (feed M opens order save p s pieces).result = .ok s' → rest = [] := by
  induction pieces generalizing p s c with
  | nil => exact ⟨.ok hR, [], fun _ => List.not_mem_nil, rfl, fun _ _ => rfl⟩
  | cons data pieces ih =>
      obtain ⟨hread, rest, hbytes, htokens, hrest⟩ := read_spec hT hS hshows hnodup hmem data s
      obtain ⟨hcalls, hresult⟩ := content_alike hB hR p data
      have hshift : content M V p s data = shift p (content M V 0 s data) := content_shift p 0 s data
      rw [hshift] at hcalls hresult
      rw [shift_calls, ← htokens] at hcalls
      rw [List.flatten_cons, content_append, feed]
      cases hs : (read M opens order data s).result with
      | ok s' =>
          have hpiece : (shift p (read M opens order data s)).result = .ok s' := by
            rw [shift, hs]
            rfl
          have hwhole : (shift p (content M V 0 s data)).result = .ok s' := by
            rw [shift, ← hread, hs]
            rfl
          rw [hwhole] at hresult
          cases hc : (content N W p c data).result with
          | ok c' =>
              rw [hc] at hresult
              cases hresult with
              | ok hR' =>
                  obtain ⟨hnext, more, hbytes', hmore, hend⟩ := ih (hsave s' c' hR') (p + data.length)
                  rw [bind_of_ok hpiece, bind_of_ok hc]
                  refine ⟨hnext, more, hbytes', ?_, hend⟩
                  rw [shift_calls, tokens_append, List.append_assoc, hmore, ← hcalls, hrest s' hs,
                    List.append_nil]
          | error e =>
              rw [hc] at hresult
              cases hresult
      | error e =>
          have hpiece : (shift p (read M opens order data s)).result = .error (p + e.1, e.2) := by
            rw [shift, hs]
            rfl
          have hwhole : (shift p (content M V 0 s data)).result = .error (p + e.1, e.2) := by
            rw [shift, ← hread, hs]
            rfl
          rw [hwhole] at hresult
          cases hc : (content N W p c data).result with
          | ok c' =>
              rw [hc] at hresult
              cases hresult
          | error e' =>
              rw [hc] at hresult
              cases hresult with
              | error hE =>
                  rw [bind_of_error hpiece, bind_of_error hc]
                  exact ⟨.error hE, rest, hbytes, hcalls, nofun⟩

end Bisimulation

/-- From the state `s` the bytes are read through, contribute `ts` and lead to `s'`. -/
def Reads (M : Machine σ κ ν ε) (V : View σ κ) (s : σ) (bytes : List UInt8) (ts : List (Token κ ν))
    (s' : σ) : Prop := ∀ p, content M V p s bytes = ⟨ts, .ok s'⟩

theorem reads_nil (s : σ) : Reads M V s [] [] s := fun _ => rfl

theorem Reads.append {s r s' : σ} {bytes bytes' : List UInt8} {ts ts' : List (Token κ ν)}
    (h : Reads M V s bytes ts r) (h' : Reads M V r bytes' ts' s') :
    Reads M V s (bytes ++ bytes') (ts ++ ts') s' := by
  intro p
  rw [content_append, h p, bind_of_ok rfl]
  simp only [h' _]

theorem reads_one {s s' : σ} (h : (M s 1 b).next = .ok s') :
    Reads M V s [b] (notes V.see [b] (M s 1 b).actions ++ here (V.track s') b) s' := by
  intro p
  rw [content_cons_ok h, emit_bind, content]
  simp

/-- What is read through in front of the byte at which a stream is stopped. -/
theorem Reads.stopped {s r : σ} {bytes : List UInt8} {ts : List (Token κ ν)} (h : Reads M V s bytes ts r)
    {e : ε} (hstop : (M r 1 b).next = .error e) (p : ℕ) (rest : List UInt8) :
    content M V p s (bytes ++ b :: rest) =
      ⟨ts ++ notes V.see [b] (M r 1 b).actions, .error (p + bytes.length, e)⟩ := by
  rw [content_append, h p, bind_of_ok rfl, content_cons_error hstop, emit_bind]
  simp

/-- Bytes that do not change the state. -/
theorem reads_stay {s : σ} {bytes : List UInt8} (h : ∀ b ∈ bytes, (M s 1 b).actions = [] ∧
    (M s 1 b).next = .ok s) : Reads M V s bytes (bytes.flatMap (here (V.track s))) s := by
  induction bytes with
  | nil => exact reads_nil s
  | cons b bytes ih =>
      obtain ⟨hb, hbytes⟩ := List.forall_mem_cons.mp h
      have hone := reads_one (V := V) hb.2
      rw [hb.1] at hone
      rw [List.flatMap_cons]
      exact hone.append (ih hbytes)

/-! ### How often a part is handed out -/

section Paid

variable [DecidableEq κ] {k : κ}

def Event.isData (k : κ) : Event κ ν → Bool
  | .data j _ => j = k
  | .notify _ => false

/-- The action after which a part is to be handed out. -/
def Action.begins (k : κ) : Action κ ν → Bool
  | .mark j => j = k
  | .report j _ => j = k
  | _ => false

/-- One if the part is open. -/
def held (k : κ) (marks : Marks κ) : ℕ := if (marks k).isSome then 1 else 0

theorem held_update (marks : Marks κ) (j : κ) (m : Option ℕ) :
    held k (Function.update marks j m) = if j = k then if m.isSome then 1 else 0 else held k marks := by
  unfold held
  by_cases hjk : j = k
  · rw [hjk, Function.update_self, if_pos rfl]
  · rw [Function.update_of_ne (Ne.symm hjk), if_neg hjk]

/-- What a turn hands out of a part was open or begins with the turn. -/
theorem acts_handed (data : List UInt8) (p : ℕ) (marks : Marks κ) (actions : List (Action κ ν)) :
    (acts data p marks actions).1.countP (Event.isData k) + held k (acts data p marks actions).2 ≤
      held k marks + actions.countP (Action.begins k) := by
  induction actions generalizing marks with
  | nil => simp [acts]
  | cons action actions ih =>
      cases action with
      | mark j =>
          have hrest := ih (Function.update marks j (some p))
          rw [held_update] at hrest
          rw [acts, List.countP_cons]
          by_cases hjk : j = k
          · simp only [hjk, Action.begins, if_true, Option.isSome_some, decide_true] at hrest ⊢
            omega
          · simp only [hjk, Action.begins, if_false, decide_false, Bool.false_eq_true] at hrest ⊢
            omega
      | callback j =>
          have hrest := ih (Function.update marks j none)
          rw [held_update] at hrest
          have hevent : (((marks j).map fun m =>
              (.data j (slice data m p) : Event κ ν)).toList).countP (Event.isData k) =
                if j = k then held k marks else 0 := by
            by_cases hjk : j = k
            · subst hjk
              cases hmark : marks j <;> simp [held, hmark, Event.isData]
            · cases hmark : marks j <;> simp [hjk, Event.isData]
          rw [acts, List.countP_cons, List.countP_append, hevent]
          by_cases hjk : j = k
          · simp only [hjk, Action.begins, if_true, Option.isSome_none, Bool.false_eq_true,
              if_false] at hrest ⊢
            omega
          · simp only [hjk, Action.begins, if_false, Bool.false_eq_true] at hrest ⊢
            omega
      | notify n =>
          have hrest := ih marks
          rw [acts, List.countP_cons, List.countP_cons]
          simp only [Event.isData, Action.begins, Bool.false_eq_true, if_false]
          omega
      | report j n =>
          have hrest := ih marks
          rw [acts, List.countP_cons, List.countP_cons]
          simp only [Event.isData, Action.begins, decide_eq_true_eq]
          omega

theorem acts_notices [DecidableEq ν] (data : List UInt8) (p : ℕ) (marks : Marks κ)
    (actions : List (Action κ ν)) (n : ν) :
    (acts data p marks actions).1.count (.notify n) = actions.count (.notify n) := by
  induction actions generalizing marks with
  | nil => rfl
  | cons action actions ih =>
      cases action with
      | mark j =>
          rw [acts, ih, List.count_cons]
          simp
      | callback j =>
          rw [acts, List.count_append, ih, List.count_cons]
          cases hmark : marks j <;> simp
      | notify m =>
          rw [acts, List.count_cons, List.count_cons, ih]
          by_cases hm : m = n <;> simp [hm]
      | report j m =>
          rw [acts, List.count_cons, List.count_cons, ih]
          simp

theorem flush_handed {order : List κ} (hnodup : order.Nodup) (data : List UInt8) (marks : Marks κ) :
    (flush (ν := ν) order data marks).countP (Event.isData k) ≤ held k marks := by
  have hother : ∀ l : List κ, k ∉ l → (flush (ν := ν) l data marks).countP (Event.isData k) = 0 := by
    intro l hl
    refine List.countP_eq_zero.mpr fun event hevent hdata => ?_
    obtain ⟨j, hj, hmark⟩ := List.mem_filterMap.mp hevent
    obtain ⟨m, -, rfl⟩ := Option.map_eq_some_iff.mp hmark
    obtain rfl : j = k := of_decide_eq_true hdata
    exact hl hj
  by_cases hk : k ∈ order
  · obtain ⟨before, after, rfl⟩ := List.append_of_mem hk
    rw [List.nodup_append] at hnodup
    obtain ⟨-, hafter, hbefore⟩ := hnodup
    have hfront := hother before fun hmem => hbefore k hmem k List.mem_cons_self rfl
    have hback := hother after (List.nodup_cons.mp hafter).1
    unfold flush at hfront hback ⊢
    unfold held
    rw [List.filterMap_append, List.countP_append, hfront]
    cases hmark : marks k with
    | none =>
        rw [List.filterMap_cons_none (by rw [hmark]; rfl), hback]
        exact Nat.zero_le _
    | some m =>
        rw [List.filterMap_cons_some (by rw [hmark]; rfl), List.countP_cons, hback]
        split_ifs <;> simp_all
  · rw [hother order hk]
    exact Nat.zero_le _

/-- The pieces of a part, as they are handed out. -/
def pieces (k : κ) (events : List (Event κ ν)) : List (List UInt8) :=
  events.filterMap fun
    | .data j bytes => if j = k then some bytes else none
    | .notify _ => none

theorem length_pieces (events : List (Event κ ν)) :
    (pieces k events).length = events.countP (Event.isData k) := by
  induction events with
  | nil => rfl
  | cons event events ih =>
      unfold pieces at ih ⊢
      cases event with
      | notify n => simpa [Event.isData] using ih
      | data j bytes => by_cases hjk : j = k <;> simp [hjk, Event.isData, ih]

def Token.payload : Token κ ν → Option UInt8
  | .byte _ b => some b
  | .notify _ => none

theorem flatten_pieces (events : List (Event κ ν)) :
    (pieces k events).flatten = (tokens (fun j => decide (j = k)) events).filterMap Token.payload := by
  have hbytes : ∀ bytes : List UInt8,
      (bytes.map (Token.byte (ν := ν) k)).filterMap Token.payload = bytes := fun bytes => by
    rw [List.filterMap_map]
    exact List.filterMap_some
  induction events with
  | nil => rfl
  | cons event events ih =>
      rw [tokens_cons, List.filterMap_append, ← ih]
      unfold pieces
      cases event with
      | notify n => rfl
      | data j bytes =>
          by_cases hjk : j = k
          · subst hjk
            simp [Event.tokens, hbytes]
          · simp [Event.tokens, hjk]

variable [DecidableEq ν] {n : ν} {due : σ → ℕ}

theorem count_tokens (see : κ → Bool) (events : List (Event κ ν)) :
    (tokens see events).count (.notify n) = events.count (.notify n) := by
  induction events with
  | nil => rfl
  | cons event events ih =>
      rw [tokens_cons, List.count_append, ih, List.count_cons]
      cases event with
      | notify m => by_cases hm : m = n <;> simp [Event.tokens, hm, Nat.add_comm]
      | data j bytes =>
          have hnone : (Event.tokens see (.data j bytes : Event κ ν)).count (.notify n) = 0 := by
            refine List.count_eq_zero_of_not_mem ?_
            cases hj : see j <;> simp [Event.tokens, hj]
          rw [hnone]
          simp

/-- Every turn on one byte that begins the part `k` is paid for: by a notification `n`, its own or an
earlier one, for which the part is then due. -/
structure Pays (M : Machine σ κ ν ε) (k : κ) (n : ν) (due : σ → ℕ) : Prop where
  ok : ∀ s b s', (M s 1 b).next = .ok s' →
    (M s 1 b).actions.countP (Action.begins k) + due s' ≤ (M s 1 b).actions.count (.notify n) + due s
  stop : ∀ s b e, (M s 1 b).next = .error e →
    (M s 1 b).actions.countP (Action.begins k) ≤ (M s 1 b).actions.count (.notify n) + due s

/-- So is every turn on several bytes. -/
theorem Pays.long (hP : Pays M k n due) (hS : Splits M) {m r : ℕ} {s s' : σ}
    {actions : List (Action κ ν)} (hturn : M s (r + 1) b = ⟨actions, .ok s', m + 1⟩) :
    actions.countP (Action.begins k) + due s' ≤ actions.count (.notify n) + due s := by
  induction m generalizing r s b actions with
  | zero =>
      have hone : M s 1 b = ⟨actions, .ok s', 1⟩ :=
        ((hS s).one r b (by rw [hturn])).symm.trans hturn
      have hok := hP.ok s b s' (by rw [hone])
      rwa [hone] at hok
  | succ m ih =>
      obtain ⟨hmr, j, tail, s₁, s'', -, hturn', hone, hrest⟩ := (hS s).many r b m (by rw [hturn])
      rw [hturn] at hturn'
      obtain ⟨rfl, hnext, -⟩ := Turn.mk.inj hturn'
      obtain rfl : s' = s'' := Except.ok.inj hnext
      obtain ⟨r, rfl⟩ : ∃ r', r = r' + 1 := ⟨r - 1, by omega⟩
      have hfirst := hP.ok s b s₁ (by rw [hone])
      have hmore := ih (hrest b)
      rw [hone] at hfirst
      simp only [List.countP_cons, List.count_cons, Action.begins, List.countP_nil, List.count_nil]
        at hfirst hmore ⊢
      simp only [beq_iff_eq, reduceCtorEq, if_false, decide_eq_true_eq] at hfirst hmore ⊢
      omega

theorem Pays.turn (hP : Pays M k n due) (hS : Splits M) (s : σ) (r : ℕ) (b : UInt8) :
    match (M s (r + 1) b).next with
    | .ok s' => (M s (r + 1) b).actions.countP (Action.begins k) + due s' ≤
        (M s (r + 1) b).actions.count (.notify n) + due s
    | .error _ => (M s (r + 1) b).actions.countP (Action.begins k) ≤
        (M s (r + 1) b).actions.count (.notify n) + due s := by
  obtain ⟨m, hm⟩ : ∃ m, (M s (r + 1) b).advance = m + 1 :=
    ⟨_, (Nat.sub_add_cancel ((hS s).pos r b)).symm⟩
  cases hnext : (M s (r + 1) b).next with
  | ok s' =>
      refine hP.long hS (r := r) (b := b) (m := m) ?_
      rw [← hnext, ← hm]
  | error e =>
      obtain rfl | ⟨m, rfl⟩ : m = 0 ∨ ∃ m', m = m' + 1 := by
        cases m with
        | zero => exact Or.inl rfl
        | succ m => exact Or.inr ⟨m, rfl⟩
      · rw [(hS s).one r b hm] at hnext ⊢
        exact hP.stop s b e hnext
      · obtain ⟨-, j, tail, s₁, s', -, hturn, -⟩ := (hS s).many r b m hm
        rw [hturn] at hnext
        cases hnext

/-- What is open behind the loop. -/
def heldBehind (k : κ) : Except (ℕ × ε) (Marks κ × σ) → ℕ
  | .ok (marks, _) => held k marks
  | .error _ => 0

/-- A part is handed out, or open behind the loop, as often as it is paid for. -/
theorem loop_paid (hP : Pays M k n due) (hS : Splits M) (data : List UInt8) (turns p : ℕ)
    (marks : Marks κ) (s : σ) :
    (loop M data turns p marks s).calls.countP (Event.isData k) +
        heldBehind k (loop M data turns p marks s).result ≤
      (loop M data turns p marks s).calls.count (.notify n) + held k marks + due s := by
  induction turns generalizing p marks s with
  | zero =>
      show 0 + held k marks ≤ 0 + held k marks + due s
      exact Nat.le_add_right _ _
  | succ turns ih =>
      rw [loop]
      cases hb : data[p]? with
      | none =>
          show 0 + held k marks ≤ 0 + held k marks + due s
          exact Nat.le_add_right _ _
      | some b =>
          obtain ⟨r, hr⟩ : ∃ r, data.length - p = r + 1 := by
            have hlt := (List.getElem?_eq_some_iff.mp hb).1
            exact ⟨data.length - p - 1, by omega⟩
          have hturn := hP.turn hS s r b
          have hacts := acts_handed (k := k) data p marks (M s (r + 1) b).actions
          have hnotices := acts_notices data p marks (M s (r + 1) b).actions n
          dsimp only
          rw [hr]
          cases hnext : (M s (r + 1) b).next with
          | error e =>
              rw [hnext] at hturn
              dsimp only at hturn ⊢
              rw [emit_bind, abort_calls, List.append_nil, hnotices]
              show (acts data p marks (M s (r + 1) b).actions).1.countP (Event.isData k) + 0 ≤ _
              omega
          | ok s' =>
              rw [hnext] at hturn
              dsimp only at hturn ⊢
              have hrest := ih (p + (M s (r + 1) b).advance)
                (acts data p marks (M s (r + 1) b).actions).2 s'
              rw [emit_bind]
              dsimp only
              rw [List.countP_append, List.count_append, hnotices]
              omega

/-- In a piece a part is handed out once for each notification that pays for it, and once more if it
is due or open when the piece begins. -/
theorem read_paid (hP : Pays M k n due) (hS : Splits M) (hnodup : order.Nodup) (data : List UInt8)
    (s : σ) :
    (read M opens order data s).calls.countP (Event.isData k) ≤
      (read M opens order data s).calls.count (.notify n) + (if opens s k then 1 else 0) + due s := by
  have hloop := loop_paid hP hS data data.length 0 (fun k => if opens s k then some 0 else none) s
  have hheld : held k (fun k => if opens s k then some 0 else none) = if opens s k then 1 else 0 := by
    unfold held
    split_ifs <;> simp_all
  rw [hheld] at hloop
  unfold read
  cases hresult : (loop M data data.length 0 (fun k => if opens s k then some 0 else none) s).result with
  | ok r =>
      obtain ⟨marks, s'⟩ := r
      have hflush := flush_handed (ν := ν) (k := k) hnodup data marks
      rw [hresult] at hloop
      rw [bind_of_ok hresult]
      simp only [emit_bind, pure_calls, List.append_nil, List.countP_append, List.count_append]
      simp only [heldBehind] at hloop
      omega
  | error e =>
      rw [hresult] at hloop
      rw [bind_of_error hresult]
      exact Nat.le_of_add_right_le hloop

end Paid

section Order

variable {φ : Type} {δ : φ → Token κ ν → Option φ} {q q' : φ}

/-- What an automaton reads up to the end it reads up to anywhere. -/
theorem accepted_append {ts ts' : List (Token κ ν)} (h : (ts ++ ts').foldlM δ q = some q') :
    ∃ r, ts.foldlM δ q = some r ∧ ts'.foldlM δ r = some q' := by
  rw [List.foldlM_append] at h
  exact Option.bind_eq_some_iff.mp h

/-- An automaton that reads what every byte contributes, in step with the states, reads the stream. -/
theorem content_accepted {R : σ → φ → Prop}
    (hok : ∀ s b s' q, R s q → (M s 1 b).next = .ok s' →
      ∃ q', (notes V.see [b] (M s 1 b).actions ++ here (V.track s') b).foldlM δ q = some q' ∧ R s' q')
    (herror : ∀ s b e q, R s q → (M s 1 b).next = .error e →
      ∃ q', (notes V.see [b] (M s 1 b).actions).foldlM δ q = some q')
    {s : σ} (hR : R s q) (p : ℕ) (bytes : List UInt8) :
    ∃ q', (content M V p s bytes).calls.foldlM δ q = some q' ∧
      ∀ s', (content M V p s bytes).result = .ok s' → R s' q' := by
  induction bytes generalizing p s q with
  | nil =>
      refine ⟨q, rfl, ?_⟩
      rintro _ ⟨⟩
      exact hR
  | cons b bytes ih =>
      cases hnext : (M s 1 b).next with
      | ok s' =>
          obtain ⟨r, hr, hR'⟩ := hok s b s' q hR hnext
          obtain ⟨q', hq', hend⟩ := ih hR' (p + 1)
          rw [content_cons_ok hnext, emit_bind]
          refine ⟨q', ?_, hend⟩
          rw [List.foldlM_append, hr]
          exact hq'
      | error e =>
          obtain ⟨q', hq'⟩ := herror s b e q hR hnext
          rw [content_cons_error hnext, emit_bind]
          refine ⟨q', ?_, nofun⟩
          rw [abort_calls, List.append_nil]
          exact hq'

end Order

end OsHomeworks.MarkedStream
