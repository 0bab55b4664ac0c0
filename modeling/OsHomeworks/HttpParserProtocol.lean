import OsHomeworks.HttpParserRuns

/-! The order in which the HTTP parser makes its callbacks. -/

namespace OsHomeworks.WebServer.HttpParser

open CallLog CallLog.Logged MarkedStream

variable {settings : HttpParser → Int} {c d : Counted} {ch : UInt8}

/-- Where the user is in a message: before it, at its beginning, in its headers, in its body, in the
headers behind its body. -/
inductive Phase where
  | idle | begun | head | body | trailer
  deriving DecidableEq

/-- A callback, or a byte of one. -/
abbrev Kind := Notice ⊕ DataKind

def kind : Token DataKind Notice → Kind
  | .notify n => .inl n
  | .byte k _ => .inr k

/-- The order of the callbacks. A response may begin with empty lines, of which each counts as its
beginning. -/
def Phase.next : Phase → Kind → Option Phase
  | .idle, .inl .messageBegin => some .begun
  | .begun, .inl .messageBegin => some .begun
  | .begun, .inl .headersComplete => some .body
  | .head, .inl .headersComplete => some .body
  | .body, .inl .messageComplete => some .idle
  | .trailer, .inl .messageComplete => some .idle
  | .begun, .inr .body => none
  | .head, .inr .body => none
  | .begun, .inr _ => some .head
  | .head, .inr _ => some .head
  | .body, .inr .body => some .body
  | .body, .inr .headerField => some .trailer
  | .body, .inr .headerValue => some .trailer
  | .trailer, .inr .headerField => some .trailer
  | .trailer, .inr .headerValue => some .trailer
  | _, _ => none

def Phase.read (φ : Phase) (token : Token DataKind Notice) : Option Phase := φ.next (kind token)

/-- The phases in which a state occurs. -/
def State.phases (s : State) (trailing : Bool) : List Phase :=
  match s with
  | .dead => [.idle, .begun, .head, .body, .trailer]
  | .startReqOrRes | .startReq => [.idle]
  | .startRes => [.idle, .begun]
  | .headerFieldStart | .headerField | .headerValueStart | .headerValue | .headerAlmostDone
  | .headersAlmostDone => if trailing then [.body, .trailer] else [.begun, .head]
  | .chunkSizeStart | .chunkSize | .chunkParameters | .chunkSizeAlmostDone | .chunkData
  | .chunkDataAlmostDone | .chunkDataDone | .bodyIdentity | .bodyIdentityEof => [.body]
  | _ => if trailing then [] else [.begun, .head]

/-- The parser and the user are in step. -/
def InStep (c : Counted) (φ : Phase) : Prop := φ ∈ c.state.phases c.flags.trailing

/-- What a turn contributes does not depend on the byte, but for the byte itself. -/
theorem notes_kind (b : UInt8) (actions : List (Action DataKind Notice)) :
    (notes parts.see [b] actions).map kind = (notes parts.see [0] actions).map kind := by
  have htake : ∀ k n, (([b].take n).map (Token.byte (ν := Notice) k)).map kind =
      (([0].take n).map (Token.byte (ν := Notice) k)).map kind := by
    intro k n
    cases n with
    | zero => rfl
    | succ n => rw [List.take_of_length_le (Nat.le_add_left 1 n), List.take_of_length_le (Nat.le_add_left 1 n)]; rfl
  induction actions with
  | nil => rfl
  | cons a actions ih =>
      cases a with
      | mark k => exact ih
      | callback k => exact ih
      | notify n => exact congrArg (_ :: ·) ih
      | report k n =>
          rw [notes, notes, List.map_append, List.map_append, ih]
          split_ifs
          · rw [htake]
          · rfl

/-- The kinds that an edge contributes. -/
def edgeKinds (e : List (Action DataKind Notice) × State) : List Kind :=
  (notes parts.see [0] e.1).map kind ++ (here e.2.part 0).map kind

/-- What is known of `F_TRAILING` around an edge. -/
def Fits (s : State) (trailing : Bool) (actions : List (Action DataKind Notice)) : Prop :=
  s = .headerFieldStart ∨ s = .headersAlmostDone →
    (trailing = true → .notify .headersComplete ∉ actions) ∧
      (trailing = false → actions ≠ [.notify .messageComplete])

def Turns (s : State) (trailing : Bool) (s' : State) (trailing' : Bool) : Prop :=
  (s.begins = false → s ≠ .chunkSizeAlmostDone → trailing' = trailing) ∧
    (s.begins = true → s' ≠ s → trailing' = false) ∧
    (s = .chunkSizeAlmostDone → s' = .headerFieldStart → trailing' = true)

instance (s : State) (trailing : Bool) (actions : List (Action DataKind Notice)) :
    Decidable (Fits s trailing actions) :=
  inferInstanceAs (Decidable (_ ∨ _ → _ ∧ _))

instance (s : State) (trailing : Bool) (s' : State) (trailing' : Bool) :
    Decidable (Turns s trailing s' trailing') :=
  inferInstanceAs (Decidable (_ ∧ _ ∧ _))

theorem edges_inStep (s : State) (trailing trailing' : Bool) :
    ∀ e ∈ edges s, Fits s trailing e.1 → Turns s trailing e.2 trailing' → ∀ φ ∈ s.phases trailing,
      ((edgeKinds e).foldlM Phase.next φ).any (· ∈ e.2.phases trailing') = true := by
  cases s <;> cases trailing <;> cases trailing' <;> decide

theorem halts_inStep (s : State) (trailing : Bool) :
    ∀ actions ∈ halts s, Fits s trailing actions → ∀ φ ∈ s.phases trailing,
      (((notes parts.see [0] actions).map kind).foldlM Phase.next φ).isSome = true := by
  cases s <;> cases trailing <;> decide

theorem headersDone_actions (p : HttpParser) :
    (headersDone p).actions = [.notify .headersComplete] ∨
      (headersDone p).actions = [.notify .headersComplete, .notify .messageComplete] := by
  unfold headersDone
  split_ifs <;> first | exact Or.inl rfl | exact Or.inr rfl

theorem headersComplete_actions (settings : HttpParser → Int) (p : HttpParser) :
    (headersComplete settings p).actions = [.notify .headersComplete] ∨
      (headersComplete settings p).actions = [.notify .headersComplete, .notify .messageComplete] := by
  unfold headersComplete
  dsimp only
  split_ifs
  any_goals exact headersDone_actions _
  all_goals exact Or.inl rfl

theorem headersAlmostDone_fits (settings : HttpParser → Int) (p : HttpParser) (nread : ℕ) (ch : UInt8) :
    (p.flags.trailing = true →
        .notify .headersComplete ∉ (headersAlmostDone settings p nread ch).actions) ∧
      (p.flags.trailing = false →
        (headersAlmostDone settings p nread ch).actions ≠ [.notify .messageComplete]) := by
  unfold headersAlmostDone
  split_ifs with hlf htrailing
  · exact ⟨fun _ => List.not_mem_nil, fun _ => List.cons_ne_nil _ _ |>.symm⟩
  · refine ⟨fun _ hmem => ?_, fun hnone => ?_⟩
    · cases List.mem_singleton.mp hmem
    · rw [htrailing] at hnone
      cases hnone
  · refine ⟨fun hsome => absurd hsome htrailing, fun _ => ?_⟩
    show (headersComplete settings p).actions ≠ _
    rcases headersComplete_actions settings p with hactions | hactions
    · rw [hactions]
      decide
    · rw [hactions]
      decide

theorem switch_fits (settings : HttpParser → Int) (p : HttpParser) (nread : ℕ) (ch : UInt8) :
    Fits p.state p.flags.trailing (switch settings p nread 1 ch).actions := by
  have hactions : ∀ t : ParserTurn, t.actions = [] ∨ t.actions = [.mark .headerField] →
      (p.flags.trailing = true → .notify .headersComplete ∉ (keep nread t).actions) ∧
        (p.flags.trailing = false → (keep nread t).actions ≠ [.notify .messageComplete]) := by
    intro t ht
    show (_ → _ ∉ t.actions) ∧ (_ → t.actions ≠ _)
    rcases ht with ht | ht <;> rw [ht] <;> exact ⟨fun _ => by decide, fun _ => by decide⟩
  unfold switch
  rintro (h | h) <;> simp only [h]
  · unfold headerFieldStart
    split_ifs
    · exact headersAlmostDone_fits settings { p with state := .headersAlmostDone } nread ch
    · exact hactions _ (Or.inl rfl)
    · exact hactions _ (Or.inl rfl)
    · exact hactions _ (Or.inr rfl)
  · exact headersAlmostDone_fits settings p nread ch

theorem foldlM_kind (ts : List (Token DataKind Notice)) (φ : Phase) :
    ts.foldlM Phase.read φ = (ts.map kind).foldlM Phase.next φ := by
  rw [List.foldlM_map]
  rfl

theorem here_kind (o : Option DataKind) (b : UInt8) :
    (here (ν := Notice) o b).map kind = (here o 0).map kind := by
  cases o <;> rfl

variable {φ : Phase}

/-- Every turn keeps the parser and the user in step. -/
theorem inStep_ok (h : InStep c φ) (hnext : (unlimited settings c 1 ch).next = .ok d) :
    ∃ ψ, (notes parts.see [ch] (unlimited settings c 1 ch).actions ++
      here (parts.track d.toHttpParser) ch).foldlM Phase.read φ = some ψ ∧ InStep d ψ := by
  obtain ⟨hmem, htrails⟩ := unlimited_edge hnext
  have hfits : Fits c.state c.flags.trailing (unlimited settings c 1 ch).actions :=
    switch_fits settings c.toHttpParser c.count ch
  have hturns : Turns c.state c.flags.trailing d.state d.flags.trailing :=
    ⟨htrails.kept, htrails.begun, htrails.ended⟩
  have hany := edges_inStep _ _ _ _ hmem hfits hturns φ h
  have hkinds : (notes parts.see [ch] (unlimited settings c 1 ch).actions ++
      here (parts.track d.toHttpParser) ch).map kind =
        edgeKinds ((unlimited settings c 1 ch).actions, d.state) := by
    rw [List.map_append, notes_kind, here_kind]
    rfl
  cases hread : (edgeKinds ((unlimited settings c 1 ch).actions, d.state)).foldlM Phase.next φ with
  | none =>
      rw [hread] at hany
      cases hany
  | some ψ =>
      rw [hread] at hany
      have hphase : ψ ∈ d.state.phases d.flags.trailing := of_decide_eq_true hany
      refine ⟨ψ, ?_, hphase⟩
      rw [foldlM_kind]
      exact (congrArg (List.foldlM Phase.next φ) hkinds).trans hread

theorem inStep_error {stop : Stop} (h : InStep c φ)
    (hnext : (unlimited settings c 1 ch).next = .error stop) :
    ∃ ψ, (notes parts.see [ch] (unlimited settings c 1 ch).actions).foldlM Phase.read φ = some ψ := by
  rcases unlimited_halt hnext with hhalt | hnone
  · have hsome := halts_inStep _ _ _ hhalt (switch_fits settings c.toHttpParser c.count ch) φ h
    rw [foldlM_kind, notes_kind]
    exact Option.isSome_iff_exists.mp hsome
  · rw [hnone]
    exact ⟨φ, rfl⟩

theorem turn_ok (h : InStep c φ) (hnext : (turn settings c 1 ch).next = .ok d) :
    ∃ ψ, (notes parts.see [ch] (turn settings c 1 ch).actions ++
      here (parts.track d.toHttpParser) ch).foldlM Phase.read φ = some ψ ∧ InStep d ψ := by
  rcases turn_cases settings c with heq | heq
  · rw [heq] at hnext ⊢
    exact inStep_ok h hnext
  · rw [heq] at hnext
    cases hnext

theorem turn_error {stop : Stop} (h : InStep c φ)
    (hnext : (turn settings c 1 ch).next = .error stop) :
    ∃ ψ, (notes parts.see [ch] (turn settings c 1 ch).actions).foldlM Phase.read φ = some ψ := by
  rcases turn_cases settings c with heq | heq
  · rw [heq] at hnext ⊢
    exact inStep_error h hnext
  · rw [heq]
    exact ⟨φ, rfl⟩

/-- The callbacks of a piece of any length. -/
theorem read_inStep (settings : HttpParser → Int) (h : InStep c φ) (data : List UInt8) :
    ∃ ψ, (tokens parts.see (read (turn settings) opens callbackOrder data c).calls).foldlM
        Phase.read φ = some ψ ∧
      ∀ d, (read (turn settings) opens callbackOrder data c).result = .ok d → InStep d ψ := by
  have hparts : Viewed parts := .inl rfl
  obtain ⟨hresult, rest, -, htokens, hrest⟩ := read_spec (turn_tracks hparts settings)
    (turn_splits settings) hparts.shows callbackOrder_nodup hparts.mem data c
  obtain ⟨χ, hχ, hend⟩ := content_accepted (M := turn settings) (V := counted parts)
    (fun c ch d ψ => turn_ok) (fun c ch stop ψ => turn_error) h 0 data
  rw [← htokens] at hχ
  obtain ⟨ψ, hψ, hmore⟩ := accepted_append hχ
  refine ⟨ψ, hψ, fun d hd => ?_⟩
  rw [hrest d hd] at hmore
  obtain rfl : ψ = χ := Option.some.inj hmore
  exact hend d (hresult ▸ hd)

/-- The callback at the end of the input. -/
theorem end_inStep (settings : HttpParser → Int) (h : InStep c φ) :
    ∃ ψ, (tokens parts.see (execute settings c []).events).foldlM Phase.read φ = some ψ := by
  unfold InStep at h
  unfold execute
  rw [if_pos rfl]
  cases hs : c.state <;> rw [hs] at h
  case bodyIdentityEof =>
      obtain rfl := List.mem_singleton.mp h
      exact ⟨.idle, rfl⟩
  all_goals exact ⟨φ, rfl⟩

/-- The callbacks of one piece after the other. -/
theorem executeAll_inStep (settings : HttpParser → Int) (h : InStep c φ) (p : ℕ) (pieces : List (List UInt8))
    (hne : ∀ data ∈ pieces, data ≠ []) :
    ∃ ψ, (tokens parts.see (executeAll settings p c pieces).events).foldlM Phase.read φ = some ψ ∧
      ((executeAll settings p c pieces).stop = none → InStep (executeAll settings p c pieces).parser ψ) := by
  induction pieces generalizing p c φ with
  | nil => exact ⟨φ, rfl, fun _ => h⟩
  | cons data pieces ih =>
      obtain ⟨hdata, hrest⟩ := List.forall_mem_cons.mp hne
      obtain ⟨ψ, hψ, hend⟩ := read_inStep settings h data
      rw [executeAll]
      cases hresult : (read (turn settings) opens callbackOrder data c).result with
      | error e =>
          rw [execute_error hdata hresult]
          exact ⟨ψ, hψ, fun hnone => by cases hnone⟩
      | ok d =>
          rw [execute_ok hdata hresult]
          obtain ⟨χ, hχ, hstep⟩ := ih (c := save d) (hend d hresult) (p + data.length) hrest
          refine ⟨χ, ?_, hstep⟩
          rw [tokens_append, List.foldlM_append, hψ]
          exact hχ

end OsHomeworks.WebServer.HttpParser
