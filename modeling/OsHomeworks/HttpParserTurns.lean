import OsHomeworks.HttpParser

/-! What a turn of the HTTP parser can do: to which states it leads, with which actions, and what it
keeps true of the parser. -/

namespace OsHomeworks.WebServer.HttpParser

open MarkedStream

/-- The turns from a state that reads one byte, each with its actions and the next state. -/
def edges : State → List (List (Action DataKind Notice) × State)
  | .dead => []
  | .startReqOrRes => [([], .startReqOrRes), ([.notify .messageBegin], .resOrRespH),
      ([.notify .messageBegin], .reqMethod)]
  | .resOrRespH => [([], .resHT), ([], .reqMethod)]
  | .startRes => [([.notify .messageBegin], .resH), ([.notify .messageBegin], .startRes)]
  | .resH => [([], .resHT)]
  | .resHT => [([], .resHTT)]
  | .resHTT => [([], .resHTTP)]
  | .resHTTP => [([], .resFirstHttpMajor)]
  | .resFirstHttpMajor => [([], .resHttpMajor)]
  | .resHttpMajor => [([], .resHttpMajor), ([], .resFirstHttpMinor)]
  | .resFirstHttpMinor => [([], .resHttpMinor)]
  | .resHttpMinor => [([], .resHttpMinor), ([], .resFirstStatusCode)]
  | .resFirstStatusCode => [([], .resFirstStatusCode), ([], .resStatusCode)]
  | .resStatusCode => [([], .resStatusCode), ([], .resStatus), ([], .resLineAlmostDone),
      ([], .headerFieldStart)]
  | .resStatus => [([], .resStatus), ([], .resLineAlmostDone), ([], .headerFieldStart)]
  | .resLineAlmostDone => [([], .headerFieldStart)]
  | .startReq => [([], .startReq), ([.notify .messageBegin], .reqMethod)]
  | .reqMethod => [([], .reqMethod), ([], .reqSpacesBeforeUrl)]
  | .reqSpacesBeforeUrl => [([], .reqSpacesBeforeUrl), ([.mark .url, .mark .path], .reqPath),
      ([.mark .url], .reqSchema)]
  | .reqSchema => [([], .reqSchema), ([], .reqSchemaSlash), ([], .reqHost)]
  | .reqSchemaSlash => [([], .reqSchemaSlashSlash)]
  | .reqSchemaSlashSlash => [([], .reqHost)]
  | .reqHost => [([], .reqHost), ([], .reqPort), ([.mark .path], .reqPath),
      ([.callback .url], .reqHttpStart)]
  | .reqPort => [([], .reqPort), ([.mark .path], .reqPath), ([.callback .url], .reqHttpStart)]
  | .reqPath => [([], .reqPath), ([.callback .path], .reqQueryStringStart),
      ([.callback .path], .reqFragmentStart)] ++ lineEdges [.callback .url, .callback .path]
  | .reqQueryStringStart => [([.mark .queryString], .reqQueryString), ([], .reqQueryStringStart),
      ([], .reqFragmentStart)] ++ lineEdges [.callback .url]
  | .reqQueryString => [([], .reqQueryString), ([.callback .queryString], .reqFragmentStart)] ++
      lineEdges [.callback .url, .callback .queryString]
  | .reqFragmentStart => [([.mark .fragment], .reqFragment), ([], .reqFragmentStart)] ++
      lineEdges [.callback .url]
  | .reqFragment => ([], .reqFragment) :: lineEdges [.callback .url, .callback .fragment]
  | .reqHttpStart => [([], .reqHttpStart), ([], .reqHttpH)]
  | .reqHttpH => [([], .reqHttpHT)]
  | .reqHttpHT => [([], .reqHttpHTT)]
  | .reqHttpHTT => [([], .reqHttpHTTP)]
  | .reqHttpHTTP => [([], .reqFirstHttpMajor)]
  | .reqFirstHttpMajor => [([], .reqHttpMajor)]
  | .reqHttpMajor => [([], .reqHttpMajor), ([], .reqFirstHttpMinor)]
  | .reqFirstHttpMinor => [([], .reqHttpMinor)]
  | .reqHttpMinor => [([], .reqHttpMinor), ([], .reqLineAlmostDone), ([], .headerFieldStart)]
  | .reqLineAlmostDone => [([], .headerFieldStart)]
  | .headerFieldStart => [([], .headersAlmostDone), ([.mark .headerField], .headerField)] ++ doneEdges
  | .headerField => [([], .headerField), ([.callback .headerField], .headerValueStart),
      ([.callback .headerField], .headerAlmostDone), ([.callback .headerField], .headerFieldStart)]
  | .headerValueStart => [([], .headerValueStart), ([.mark .headerValue], .headerValue),
      ([.mark .headerValue, .callback .headerValue], .headerAlmostDone),
      ([.mark .headerValue, .callback .headerValue], .headerFieldStart)]
  | .headerValue => [([], .headerValue), ([.callback .headerValue], .headerAlmostDone),
      ([.callback .headerValue], .headerFieldStart)]
  | .headerAlmostDone => [([], .headerFieldStart)]
  | .headersAlmostDone => doneEdges
  | .chunkSizeStart => [([], .chunkSize)]
  | .chunkSize => [([], .chunkSize), ([], .chunkSizeAlmostDone), ([], .chunkParameters)]
  | .chunkParameters => [([], .chunkParameters), ([], .chunkSizeAlmostDone)]
  | .chunkSizeAlmostDone => [([], .headerFieldStart), ([], .chunkData)]
  | .chunkData => [([], .chunkDataAlmostDone), ([.report .body 1], .chunkData),
      ([.report .body 1], .chunkDataAlmostDone)]
  | .chunkDataAlmostDone => [([], .chunkDataDone)]
  | .chunkDataDone => [([], .chunkSizeStart)]
  | .bodyIdentity => [([], .bodyIdentity), ([.report .body 1], .bodyIdentity)] ++
      newEdges [.report .body 1, .notify .messageComplete]
  | .bodyIdentityEof => [([.report .body 1], .bodyIdentityEof)]
where
  /-- After a URL. -/
  lineEdges (actions : List (Action DataKind Notice)) : List (List (Action DataKind Notice) × State) :=
    [(actions, .reqHttpStart), (actions, .reqLineAlmostDone), (actions, .headerFieldStart)]
  /-- After a message. -/
  newEdges (actions : List (Action DataKind Notice)) : List (List (Action DataKind Notice) × State) :=
    [(actions, .startReq), (actions, .startRes), (actions, .dead)]
  /-- After the headers, of a message or behind a chunked body. -/
  doneEdges : List (List (Action DataKind Notice) × State) :=
    [([.notify .headersComplete], .chunkSizeStart), ([.notify .headersComplete], .bodyIdentity),
      ([.notify .headersComplete], .bodyIdentityEof)] ++ newEdges [.notify .messageComplete] ++
      newEdges [.notify .headersComplete, .notify .messageComplete]

/-- The actions with which the parser stops. -/
def halts : State → List (List (Action DataKind Notice))
  | .startReqOrRes | .startRes | .startReq => [[.notify .messageBegin]]
  | .headerValueStart => [[.mark .headerValue]]
  | .headerFieldStart | .headersAlmostDone =>
      [[], [.notify .headersComplete], [.notify .headersComplete, .notify .messageComplete]]
  | _ => [[]]

/-- The states while a name is read. -/
def naming : List HeaderState :=
  [.general, .C, .CO, .CON, .matchingConnection, .matchingProxyConnection, .matchingContentLength,
    .matchingTransferEncoding, .matchingUpgrade, .connection, .contentLength, .transferEncoding, .upgrade]

/-- The states while a value is read. -/
def valuing : List HeaderState :=
  [.general, .contentLength, .matchingTransferEncodingChunked, .matchingConnectionKeepAlive,
    .matchingConnectionClose, .transferEncodingChunked, .connectionKeepAlive, .connectionClose]

/-- The index is below this while the header state is as given. -/
def HeaderState.bound : HeaderState → ℕ
  | .C => 1
  | .CO => 2
  | .CON => 3
  | .matchingConnection => 9
  | .matchingProxyConnection => 15
  | .matchingContentLength => 13
  | .matchingTransferEncoding => 16
  | .matchingUpgrade => 6
  | .matchingTransferEncodingChunked => 6
  | .matchingConnectionKeepAlive => 9
  | .matchingConnectionClose => 4
  | _ => 256

/-- The methods of which any character is taken that does not match. -/
def lax (m : HttpMethod) : Prop := m = .connect ∨ m = .mkcol

/-- What holds of the parser in some of its states. -/
def Settled (p : HttpParser) : Prop :=
  match p.state with
  | .reqMethod => p.index ≤ p.method.string.length ∨ lax p.method ∧ p.index = p.method.string.length + 1
  | .headerField => p.headerState ∈ naming ∧ p.index < p.headerState.bound
  | .headerValueStart => p.headerState ∈ naming
  | .headerValue => p.headerState ∈ valuing ∧ p.index < p.headerState.bound
  | .chunkSizeStart | .chunkSize | .chunkParameters | .chunkSizeAlmostDone | .chunkDataAlmostDone
  | .chunkDataDone => p.flags.chunked = true
  | .chunkData => p.flags.chunked = true ∧ 0 < p.contentLength
  | .bodyIdentity => 0 < p.contentLength
  | _ => True

structure Sound (p : HttpParser) : Prop where
  index : p.index < 256
  length : p.contentLength < 2 ^ 64
  settled : p.Settled

/-- Where the behaviour of the parser is undefined: behind the end of a method's string, and in a chunk
whose size is negative as an `int64_t`. -/
def Undefined (p : HttpParser) : Prop :=
  (p.state = .reqMethod ∧ lax p.method ∧ p.index = p.method.string.length + 1) ∨
    (p.state = .chunkData ∧ p.flags.chunked = true ∧ 2 ^ 63 ≤ p.contentLength)

/-- The states in which a message begins. -/
def State.begins : State → Bool
  | .startReqOrRes | .startReq | .startRes => true
  | _ => false

/-- The headers of a message are told from the ones behind its chunks by `F_TRAILING`. -/
structure Trails (p q : HttpParser) : Prop where
  kept : p.state.begins = false → p.state ≠ .chunkSizeAlmostDone → q.flags.trailing = p.flags.trailing
  begun : p.state.begins = true → q.state ≠ p.state → q.flags.trailing = false
  ended : p.state = .chunkSizeAlmostDone → q.state = .headerFieldStart → q.flags.trailing = true

/-- What is said of a turn on one byte. -/
structure Leads (p : HttpParser) (t : ParserTurn) : Prop where
  advance : t.advance = 1
  next : match t.next with
    | .ok q => (t.actions, q.state) ∈ edges p.state ∧ (p.Sound → q.Sound) ∧ Trails p q
    | .error stop => t.actions ∈ halts p.state ∧
        (p.Sound → stop.kind ≠ .assertion ∧ (stop.kind = .undefined → stop.parser.Undefined))

variable {p q : HttpParser} {ch : UInt8} {actions : List (Action DataKind Notice)}

/-- The states of which nothing particular holds. -/
def State.plain : State → Bool
  | .reqMethod | .headerField | .headerValueStart | .headerValue | .chunkSizeStart | .chunkSize
  | .chunkParameters | .chunkSizeAlmostDone | .chunkDataAlmostDone | .chunkDataDone | .chunkData
  | .bodyIdentity => false
  | _ => true

theorem settled_of_plain (h : p.state.plain = true) : p.Settled := by
  unfold Settled
  cases hs : p.state <;> first | trivial | (rw [hs] at h; cases h)

theorem Sound.move (h : p.Sound) (hindex : q.index = p.index)
    (hlength : q.contentLength = p.contentLength) (hplain : q.state.plain = true) : q.Sound :=
  ⟨hindex ▸ h.index, hlength ▸ h.length, settled_of_plain hplain⟩

/-- The states that have nothing to do with `F_TRAILING`. -/
def State.Regular (s : State) : Prop := s.begins = false ∧ s ≠ .chunkSizeAlmostDone

def Keeps (s : State) (p q : HttpParser) : Prop := q.flags.trailing = p.flags.trailing ∧ s.Regular

theorem Keeps.trails {s : State} (h : Keeps s p q) (hp : p.state = s) : Trails p q := by
  subst hp
  obtain ⟨hsame, hbegins, hsize⟩ := h
  refine ⟨fun _ _ => hsame, fun hbegun => ?_, fun hended => absurd hended hsize⟩
  rw [hbegins] at hbegun
  cases hbegun

theorem leads_go {s : State} (hp : p.state = s) (hedge : (actions, q.state) ∈ edges s)
    (hkeeps : Keeps s p q) (hsound : p.Sound → q.Sound) : Leads p (go actions q) :=
  ⟨rfl, hp ▸ hedge, hsound, hkeeps.trails hp⟩

theorem leads_stay {s : State} (hp : p.state = s) (hedge : ([], s) ∈ edges s) : Leads p (go [] p) := by
  refine ⟨rfl, ?_, id, ⟨fun _ _ => rfl, fun _ hne => absurd rfl hne, fun hended hfield => ?_⟩⟩
  · show ([], p.state) ∈ edges p.state
    rw [hp]
    exact hedge
  · rw [hended] at hfield
    cases hfield

theorem leads_move {s : State} (hp : p.state = s) (hedge : (actions, q.state) ∈ edges s)
    (hkeeps : Keeps s p q) (hindex : q.index = p.index) (hlength : q.contentLength = p.contentLength)
    (hplain : q.state.plain = true) : Leads p (go actions q) :=
  leads_go hp hedge hkeeps fun h => h.move hindex hlength hplain

/-- A message begins. -/
theorem leads_begin {s : State} (hp : p.state = s) (hbegins : s.begins = true)
    (hedge : (actions, q.state) ∈ edges s) (htrailing : q.flags.trailing = false)
    (hsound : p.Sound → q.Sound) : Leads p (go actions q) := by
  subst hp
  refine ⟨rfl, hedge, hsound, ⟨fun hregular => ?_, fun _ _ => htrailing, fun hended => ?_⟩⟩
  · rw [hbegins] at hregular
    cases hregular
  · rw [hended] at hbegins
    cases hbegins

/-- The size of a chunk ends. -/
theorem leads_size (hp : p.state = .chunkSizeAlmostDone)
    (hedge : (actions, q.state) ∈ edges .chunkSizeAlmostDone)
    (hended : q.state = .headerFieldStart → q.flags.trailing = true)
    (hsound : p.Sound → q.Sound) : Leads p (go actions q) := by
  refine ⟨rfl, hp ▸ hedge, hsound, ⟨fun _ hne => absurd hp hne, fun hbegun => ?_, fun _ => hended⟩⟩
  rw [hp] at hbegun
  cases hbegun

theorem leads_error {s : State} (hp : p.state = s) (hhalt : actions ∈ halts s) :
    Leads p (halt actions .error q) := ⟨rfl, hp ▸ hhalt, fun _ => ⟨nofun, nofun⟩⟩

theorem leads_assertion {s : State} (hp : p.state = s) (hhalt : actions ∈ halts s)
    (h : p.Sound → False) : Leads p (halt actions .assertion q) :=
  ⟨rfl, hp ▸ hhalt, fun hsound => (h hsound).elim⟩

theorem leads_undefined {s : State} (hp : p.state = s) (hhalt : actions ∈ halts s)
    (hundefined : p.Sound → q.Undefined) : Leads p (halt actions .undefined q) :=
  ⟨rfl, hp ▸ hhalt, fun h => ⟨nofun, fun _ => hundefined h⟩⟩

theorem string_pos (m : HttpMethod) : 0 < m.string.length := by
  cases m <;> decide

theorem string_short (m : HttpMethod) : m.string.length ≤ 11 := by
  cases m <;> decide

theorem startReqMethodAssign_leads {s : State} (hp : p.state = s) (hs : s.begins = true) (r : HttpParser)
    (htrailing : r.flags.trailing = false) (hlength : r.contentLength < 2 ^ 64) (hedge : ([.notify .messageBegin], .reqMethod) ∈ edges s)
    (hhalt : [.notify .messageBegin] ∈ halts s) : Leads p (startReqMethodAssign r ch) := by
  unfold startReqMethodAssign
  cases firstMethod ch with
  | none => exact leads_error hp hhalt
  | some m =>
      refine leads_begin hp hs hedge htrailing fun _ => ?_
      exact ⟨Nat.lt_of_sub_eq_succ rfl, hlength, Or.inl (string_pos m)⟩

theorem beginMessage_length (p : HttpParser) : p.beginMessage.contentLength < 2 ^ 64 :=
  show noContentLength < 2 ^ 64 by decide

theorem Sound.begin (h : p.Sound) {s : State} (hplain : s.plain = true) :
    { p.beginMessage with state := s }.Sound :=
  ⟨h.index, p.beginMessage_length, settled_of_plain hplain⟩

theorem startReqOrRes_leads (h : p.state = .startReqOrRes) : Leads p (startReqOrRes p ch) := by
  unfold startReqOrRes
  split_ifs
  · exact leads_stay h (by decide)
  · exact leads_begin h rfl (by dsimp only; decide) rfl fun hp => hp.begin rfl
  · exact startReqMethodAssign_leads h rfl _ rfl p.beginMessage_length (by decide) (by decide)

theorem startReq_leads (h : p.state = .startReq) : Leads p (startReq p ch) := by
  unfold startReq
  split_ifs
  · exact leads_stay h (by decide)
  · exact leads_error h (by decide)
  · exact startReqMethodAssign_leads h rfl _ rfl p.beginMessage_length (by decide) (by decide)

theorem startRes_leads (h : p.state = .startRes) : Leads p (startRes p ch) := by
  unfold startRes
  split_ifs
  · exact leads_begin h rfl (by dsimp only; decide) rfl fun hp => hp.begin rfl
  · exact leads_begin h rfl (by show ([_], p.state) ∈ _; rw [h]; decide) rfl fun hp =>
      ⟨hp.index, p.beginMessage_length, settled_of_plain (by show p.state.plain = _; rw [h]; rfl)⟩
  · exact leads_error h (by decide)

theorem resOrRespH_leads (h : p.state = .resOrRespH) : Leads p (resOrRespH p ch) := by
  unfold resOrRespH
  split_ifs
  · exact leads_move h (by dsimp only; decide) ⟨rfl, rfl, nofun⟩ rfl rfl rfl
  · exact leads_error h (by decide)
  · exact leads_go h (by dsimp only; decide) ⟨rfl, rfl, nofun⟩ fun hp => ⟨by show 2 < 256; decide, hp.length, Or.inl (by show 2 ≤ 4; decide)⟩

/-- Another method is one of which the character is, or the lax one stays. -/
theorem otherMethod_cases {m : HttpMethod} (h : otherMethod p ch = some m) :
    p.index + 1 ≤ m.string.length ∨ m = p.method ∧ lax m := by
  have hleft : ∀ {n : ℕ} {c : Prop}, p.index = n ∧ c → n + 1 ≤ m.string.length →
      p.index + 1 ≤ m.string.length ∨ m = p.method ∧ lax m := fun hn hle => Or.inl (hn.1 ▸ hle)
  unfold otherMethod at h
  split_ifs at h <;> cases h
  any_goals exact hleft ‹_› (by decide)
  · exact Or.inr ⟨rfl, Or.inl ‹_›⟩
  · exact Or.inr ⟨rfl, Or.inr ‹_›⟩

theorem reqMethod_leads (h : p.state = .reqMethod) : Leads p (reqMethod p ch) := by
  unfold reqMethod
  split_ifs with hzero
  · exact leads_error h (by decide)
  cases hc : (p.method.string ++ [0])[p.index]? with
  | none =>
      have hbeyond : p.method.string.length + 1 ≤ p.index := by
        simpa using List.getElem?_eq_none_iff.mp hc
      refine leads_undefined h (by decide) fun hp => Or.inl ⟨h, ?_⟩
      have hsettled := hp.settled
      simp only [Settled, h] at hsettled
      exact hsettled.resolve_left (by omega)
  | some c =>
      have hwithin : p.index ≤ p.method.string.length := by
        have hlt := (List.getElem?_eq_some_iff.mp hc).1
        rw [List.length_append] at hlt
        exact Nat.le_of_lt_succ hlt
      have hindex : p.index + 1 < 256 := by
        have := string_short p.method
        omega
      dsimp only
      split_ifs with hend hsame
      · exact leads_go h (by dsimp only; decide) ⟨rfl, rfl, nofun⟩ fun hp => ⟨hindex, hp.length, trivial⟩
      · have hlt : p.index < p.method.string.length := by
          rcases Nat.lt_or_eq_of_le hwithin with hlt | heq
          · exact hlt
          · rw [heq, List.getElem?_concat_length] at hc
            exact absurd (hsame.trans (Option.some.inj hc).symm) hzero
        refine leads_go h (by show ([], p.state) ∈ _; rw [h]; decide) ⟨rfl, rfl, nofun⟩ ?_
        intro hp
        refine ⟨hindex, hp.length, ?_⟩
        simp only [Settled, h]
        exact Or.inl hlt
      · cases hother : otherMethod p ch with
        | none => exact leads_error h (by decide)
        | some m =>
            refine leads_go h (by show ([], p.state) ∈ _; rw [h]; decide) ⟨rfl, rfl, nofun⟩ ?_
            intro hp
            refine ⟨hindex, hp.length, ?_⟩
            simp only [Settled, h]
            rcases otherMethod_cases hother with hle | ⟨rfl, hlax⟩
            · exact Or.inl hle
            · rcases Nat.lt_or_eq_of_le hwithin with hlt | heq
              · exact Or.inl hlt
              · exact Or.inr ⟨hlax, congrArg Nat.succ heq⟩

section Lines

variable {s s' : State}

theorem expect_leads {want : UInt8} (hp : p.state = s) (hs : s.Regular) (hedge : ([], s') ∈ edges s)
    (hplain : s'.plain = true) (hhalt : [] ∈ halts s) : Leads p (expect want s' p ch) := by
  unfold expect
  split_ifs
  · exact leads_error hp hhalt
  · exact leads_move hp hedge ⟨rfl, hs⟩ rfl rfl hplain

theorem firstHttpMajor_leads (hp : p.state = s) (hs : s.Regular) (hedge : ([], s') ∈ edges s)
    (hplain : s'.plain = true) (hhalt : [] ∈ halts s) : Leads p (firstHttpMajor s' p ch) := by
  unfold firstHttpMajor
  split_ifs
  · exact leads_error hp hhalt
  · exact leads_move hp hedge ⟨rfl, hs⟩ rfl rfl hplain

/-- A turn that changes the parser but for its state, index and length. -/
theorem leads_same (hp : p.state = s) (hs : s.Regular) (hstate : q.state = p.state)
    (hedge : ([], s) ∈ edges s) (htrailing : q.flags.trailing = p.flags.trailing)
    (hindex : q.index = p.index) (hlength : q.contentLength = p.contentLength)
    (hplain : s.plain = true) : Leads p (go [] q) := by
  refine leads_move hp ?_ ⟨htrailing, hs⟩ hindex hlength ?_
  · rw [hstate, hp]
    exact hedge
  · rw [hstate, hp]
    exact hplain

theorem httpMajorOrDot_leads (hp : p.state = s) (hs : s.Regular) (hedge : ([], s') ∈ edges s)
    (hplain : s'.plain = true) (hstay : ([], s) ∈ edges s) (hplain' : s.plain = true)
    (hhalt : [] ∈ halts s) : Leads p (httpMajorOrDot s' p ch) := by
  unfold httpMajorOrDot
  split_ifs
  · exact leads_move hp hedge ⟨rfl, hs⟩ rfl rfl hplain
  · cases digit ch with
    | none => exact leads_error hp hhalt
    | some d =>
        dsimp only
        split_ifs
        · exact leads_error hp hhalt
        · exact leads_same hp hs rfl hstay rfl rfl rfl hplain'

theorem firstHttpMinor_leads (hp : p.state = s) (hs : s.Regular) (hedge : ([], s') ∈ edges s)
    (hplain : s'.plain = true) (hhalt : [] ∈ halts s) : Leads p (firstHttpMinor s' p ch) := by
  unfold firstHttpMinor
  cases digit ch with
  | none => exact leads_error hp hhalt
  | some d => exact leads_move hp hedge ⟨rfl, hs⟩ rfl rfl hplain

theorem httpMinorDigit_leads (hp : p.state = s) (hs : s.Regular) (hstay : ([], s) ∈ edges s)
    (hplain : s.plain = true) (hhalt : [] ∈ halts s) : Leads p (httpMinorDigit p ch) := by
  unfold httpMinorDigit
  cases digit ch with
  | none => exact leads_error hp hhalt
  | some d =>
      dsimp only
      split_ifs
      · exact leads_error hp hhalt
      · exact leads_same hp hs rfl hstay rfl rfl rfl hplain

theorem resHttpMinor_leads (h : p.state = .resHttpMinor) : Leads p (resHttpMinor p ch) := by
  unfold resHttpMinor
  split_ifs
  · exact leads_move h (by dsimp only; decide) ⟨rfl, rfl, nofun⟩ rfl rfl rfl
  · exact httpMinorDigit_leads h ⟨rfl, nofun⟩ (by decide) rfl (by decide)

theorem resFirstStatusCode_leads (h : p.state = .resFirstStatusCode) :
    Leads p (resFirstStatusCode p ch) := by
  unfold resFirstStatusCode
  cases digit ch with
  | none =>
      dsimp only
      split_ifs
      · exact leads_stay h (by decide)
      · exact leads_error h (by decide)
  | some d => exact leads_move h (by dsimp only; decide) ⟨rfl, rfl, nofun⟩ rfl rfl rfl

theorem resStatusCode_leads (h : p.state = .resStatusCode) : Leads p (resStatusCode p ch) := by
  unfold resStatusCode
  cases digit ch with
  | none =>
      dsimp only
      split_ifs
      · exact leads_move h (by dsimp only; decide) ⟨rfl, rfl, nofun⟩ rfl rfl rfl
      · exact leads_move h (by dsimp only; decide) ⟨rfl, rfl, nofun⟩ rfl rfl rfl
      · exact leads_move h (by dsimp only; decide) ⟨rfl, rfl, nofun⟩ rfl rfl rfl
      · exact leads_error h (by decide)
  | some d =>
      dsimp only
      split_ifs
      · exact leads_error h (by decide)
      · exact leads_same h ⟨rfl, nofun⟩ rfl (by decide) rfl rfl rfl rfl

theorem resStatus_leads (h : p.state = .resStatus) : Leads p (resStatus p ch) := by
  unfold resStatus
  split_ifs
  · exact leads_move h (by dsimp only; decide) ⟨rfl, rfl, nofun⟩ rfl rfl rfl
  · exact leads_move h (by dsimp only; decide) ⟨rfl, rfl, nofun⟩ rfl rfl rfl
  · exact leads_stay h (by decide)

theorem reqHttpStart_leads (h : p.state = .reqHttpStart) : Leads p (reqHttpStart p ch) := by
  unfold reqHttpStart
  split_ifs
  · exact leads_move h (by dsimp only; decide) ⟨rfl, rfl, nofun⟩ rfl rfl rfl
  · exact leads_stay h (by decide)
  · exact leads_error h (by decide)

theorem reqHttpMinor_leads (h : p.state = .reqHttpMinor) : Leads p (reqHttpMinor p ch) := by
  unfold reqHttpMinor
  split_ifs
  · exact leads_move h (by dsimp only; decide) ⟨rfl, rfl, nofun⟩ rfl rfl rfl
  · exact leads_move h (by dsimp only; decide) ⟨rfl, rfl, nofun⟩ rfl rfl rfl
  · exact httpMinorDigit_leads h ⟨rfl, nofun⟩ (by decide) rfl (by decide)

end Lines

section Urls

theorem reqSpacesBeforeUrl_leads (h : p.state = .reqSpacesBeforeUrl) :
    Leads p (reqSpacesBeforeUrl p ch) := by
  unfold reqSpacesBeforeUrl
  split_ifs
  · exact leads_stay h (by decide)
  · exact leads_move h (by dsimp only; decide) ⟨rfl, rfl, nofun⟩ rfl rfl rfl
  · exact leads_move h (by dsimp only; decide) ⟨rfl, rfl, nofun⟩ rfl rfl rfl
  · exact leads_error h (by decide)

theorem reqSchema_leads (h : p.state = .reqSchema) : Leads p (reqSchema p ch) := by
  unfold reqSchema
  split_ifs
  · exact leads_stay h (by decide)
  · exact leads_move h (by dsimp only; decide) ⟨rfl, rfl, nofun⟩ rfl rfl rfl
  · exact leads_move h (by dsimp only; decide) ⟨rfl, rfl, nofun⟩ rfl rfl rfl
  · exact leads_move h (by dsimp only; decide) ⟨rfl, rfl, nofun⟩ rfl rfl rfl
  · exact leads_error h (by decide)

theorem hostEnd_leads {s : State} (hp : p.state = s) (hs : s.Regular) (hpath : ([.mark .path], .reqPath) ∈ edges s)
    (hhttp : ([.callback .url], .reqHttpStart) ∈ edges s) (hhalt : [] ∈ halts s) :
    Leads p (hostEnd p ch) := by
  unfold hostEnd
  split_ifs
  · exact leads_move hp hpath ⟨rfl, hs⟩ rfl rfl rfl
  · exact leads_move hp hhttp ⟨rfl, hs⟩ rfl rfl rfl
  · exact leads_error hp hhalt

theorem reqHost_leads (h : p.state = .reqHost) : Leads p (reqHost p ch) := by
  unfold reqHost
  split_ifs
  · exact leads_stay h (by decide)
  · exact leads_stay h (by decide)
  · exact leads_move h (by dsimp only; decide) ⟨rfl, rfl, nofun⟩ rfl rfl rfl
  · exact hostEnd_leads h ⟨rfl, nofun⟩ (by decide) (by decide) (by decide)

theorem reqPort_leads (h : p.state = .reqPort) : Leads p (reqPort p ch) := by
  unfold reqPort
  split_ifs
  · exact leads_stay h (by decide)
  · exact hostEnd_leads h ⟨rfl, nofun⟩ (by decide) (by decide) (by decide)

theorem urlEnd_leads {s : State} {parts : List DataKind} (hp : p.state = s) (hs : s.Regular)
    (hline : edges.lineEdges (parts.map .callback) ⊆ edges s) (hhalt : [] ∈ halts s) :
    Leads p (urlEnd parts p ch) := by
  unfold urlEnd
  split_ifs
  · exact leads_move hp (hline (by dsimp only; simp [edges.lineEdges])) ⟨rfl, hs⟩ rfl rfl rfl
  · exact leads_move hp (hline (by dsimp only; simp [edges.lineEdges])) ⟨rfl, hs⟩ rfl rfl rfl
  · exact leads_move hp (hline (by dsimp only; simp [edges.lineEdges])) ⟨rfl, hs⟩ rfl rfl rfl
  · exact leads_error hp hhalt

theorem reqPath_leads (h : p.state = .reqPath) : Leads p (reqPath p ch) := by
  unfold reqPath
  split_ifs
  · exact leads_stay h (by decide)
  · exact leads_move h (by dsimp only; decide) ⟨rfl, rfl, nofun⟩ rfl rfl rfl
  · exact leads_move h (by dsimp only; decide) ⟨rfl, rfl, nofun⟩ rfl rfl rfl
  · exact urlEnd_leads h ⟨rfl, nofun⟩ (by decide) (by decide)

theorem reqQueryStringStart_leads (h : p.state = .reqQueryStringStart) :
    Leads p (reqQueryStringStart p ch) := by
  unfold reqQueryStringStart
  split_ifs
  · exact leads_move h (by dsimp only; decide) ⟨rfl, rfl, nofun⟩ rfl rfl rfl
  · exact leads_stay h (by decide)
  · exact leads_move h (by dsimp only; decide) ⟨rfl, rfl, nofun⟩ rfl rfl rfl
  · exact urlEnd_leads h ⟨rfl, nofun⟩ (by decide) (by decide)

theorem reqQueryString_leads (h : p.state = .reqQueryString) : Leads p (reqQueryString p ch) := by
  unfold reqQueryString
  split_ifs
  · exact leads_stay h (by decide)
  · exact leads_stay h (by decide)
  · exact leads_move h (by dsimp only; decide) ⟨rfl, rfl, nofun⟩ rfl rfl rfl
  · exact urlEnd_leads h ⟨rfl, nofun⟩ (by decide) (by decide)

theorem reqFragmentStart_leads (h : p.state = .reqFragmentStart) :
    Leads p (reqFragmentStart p ch) := by
  unfold reqFragmentStart
  split_ifs
  · exact leads_move h (by dsimp only; decide) ⟨rfl, rfl, nofun⟩ rfl rfl rfl
  · exact leads_move h (by dsimp only; decide) ⟨rfl, rfl, nofun⟩ rfl rfl rfl
  · exact leads_stay h (by decide)
  · exact urlEnd_leads h ⟨rfl, nofun⟩ (by decide) (by decide)

theorem reqFragment_leads (h : p.state = .reqFragment) : Leads p (reqFragment p ch) := by
  unfold reqFragment
  split_ifs
  · exact leads_stay h (by decide)
  · exact leads_stay h (by decide)
  · exact urlEnd_leads h ⟨rfl, nofun⟩ (by decide) (by decide)

end Urls

section Headers

variable {literal : List UInt8} {found : HeaderState} {c : UInt8}

theorem HeaderState.bound_le (h : HeaderState) : h.bound ≤ 256 := by
  cases h <;> decide

/-- The states that do not compare, and after which none does. -/
theorem matching_cases (literal : List UInt8) (found : HeaderState) (p : HttpParser) (c : UInt8) :
    ∃ h, matching literal found p c = { p with index := p.index + 1, headerState := h } ∧
      (h = .general ∨ h = found ∧ p.index + 1 = literal.length - 1 ∨
        h = p.headerState ∧ p.index + 1 ≠ literal.length - 1) := by
  unfold matching
  dsimp only
  split_ifs with hother hlast
  · exact ⟨_, rfl, Or.inl rfl⟩
  · exact ⟨_, rfl, Or.inr (Or.inl ⟨rfl, hlast⟩)⟩
  · exact ⟨_, rfl, Or.inr (Or.inr ⟨rfl, hlast⟩)⟩

/-- The fields that a comparison leaves alone, and the ones it keeps within bounds. -/
structure Compares (states : List HeaderState) (p q : HttpParser) : Prop where
  state : q.state = p.state
  length : q.contentLength = p.contentLength
  mem : q.headerState ∈ states
  bound : q.index < q.headerState.bound

theorem compares_matching {states : List HeaderState} (hmem : p.headerState ∈ states)
    (hindex : p.index < p.headerState.bound) (hbound : p.headerState.bound = literal.length - 1)
    (hfound : found.bound = 256) (hshort : literal.length ≤ 17)
    (hstates : HeaderState.general ∈ states ∧ found ∈ states) :
    Compares states p (matching literal found p c) := by
  obtain ⟨h, heq, hcases⟩ := matching_cases literal found p c
  rw [hbound] at hindex
  rw [heq]
  rcases hcases with rfl | ⟨rfl, hlast⟩ | ⟨rfl, hmore⟩
  · exact ⟨rfl, rfl, hstates.1, show p.index + 1 < 256 by omega⟩
  · exact ⟨rfl, rfl, hstates.2, hfound ▸ show p.index + 1 < 256 by omega⟩
  · exact ⟨rfl, rfl, hmem, hbound ▸ show p.index + 1 < literal.length - 1 by omega⟩

theorem matchName_compares (ch c : UInt8) (hmem : p.headerState ∈ naming) (hindex : p.index < p.headerState.bound) :
    ∃ q, matchName p ch c = some q ∧ Compares naming p q := by
  unfold matchName
  cases h : p.headerState <;> rw [h] at hmem hindex
  case general => exact ⟨p, rfl, rfl, rfl, h ▸ hmem, h ▸ hindex⟩
  case C =>
      have hzero : p.index + 1 < 2 := Nat.succ_lt_succ hindex
      refine ⟨_, rfl, rfl, rfl, ?_, ?_⟩ <;> dsimp only <;> split_ifs
      · decide
      · decide
      · exact hzero
      · exact Nat.lt_trans hzero (by decide)
  case CO =>
      have hone : p.index + 1 < 3 := Nat.succ_lt_succ hindex
      refine ⟨_, rfl, rfl, rfl, ?_, ?_⟩ <;> dsimp only <;> split_ifs
      · decide
      · decide
      · exact hone
      · exact Nat.lt_trans hone (by decide)
  case CON =>
      have htwo : p.index + 1 < 4 := Nat.succ_lt_succ hindex
      refine ⟨_, rfl, rfl, rfl, ?_, ?_⟩ <;> dsimp only <;> split_ifs
      · decide
      · decide
      · decide
      · exact Nat.lt_trans htwo (by decide)
      · exact Nat.lt_trans htwo (by decide)
      · exact Nat.lt_trans htwo (by decide)
  case connection | contentLength | transferEncoding | upgrade =>
      by_cases hspace : ch ≠ chr ' '
      · exact ⟨_, congrArg some (if_pos hspace), rfl, rfl, List.mem_cons_self, hindex⟩
      · exact ⟨_, congrArg some (if_neg hspace), rfl, rfl, h ▸ hmem, h ▸ hindex⟩
  case matchingConnection | matchingProxyConnection | matchingContentLength
      | matchingTransferEncoding | matchingUpgrade =>
      exact ⟨_, rfl, compares_matching (h ▸ hmem) (h ▸ hindex) (h ▸ by decide) rfl (by decide) (by decide)⟩
  all_goals exact absurd hmem (by decide)

/-- A comparison changes two fields. -/
theorem matchName_eq (h : matchName p ch c = some q) :
    ∃ i hs, q = { p with index := i, headerState := hs } := by
  unfold matchName at h
  cases hstate : p.headerState <;> rw [hstate] at h
  case connection | contentLength | transferEncoding | upgrade =>
      obtain rfl := Option.some.inj h
      split_ifs
      · exact ⟨_, _, rfl⟩
      · exact ⟨_, _, rfl⟩
  case matchingConnection | matchingProxyConnection | matchingContentLength
      | matchingTransferEncoding | matchingUpgrade =>
      obtain rfl := Option.some.inj h
      obtain ⟨hs, heq, -⟩ := matching_cases _ _ p c
      exact ⟨_, hs, heq⟩
  case general | C | CO | CON =>
      obtain rfl := Option.some.inj h
      exact ⟨_, _, rfl⟩
  all_goals cases h

theorem Sound.naming (hp : p.Sound) (h : p.state = .headerField) :
    p.headerState ∈ HttpParser.naming ∧ p.index < p.headerState.bound := by
  have hsettled := hp.settled
  rw [Settled, h] at hsettled
  exact hsettled

theorem headerField_leads (h : p.state = .headerField) : Leads p (headerField p ch) := by
  unfold headerField
  split_ifs with htoken
  · cases hname : matchName p ch (token ch) with
    | none =>
        apply leads_assertion h (by decide)
        intro hp
        obtain ⟨q, hq, -⟩ := matchName_compares ch (token ch) (hp.naming h).1 (hp.naming h).2
        rw [hname] at hq
        cases hq
    | some q =>
        obtain ⟨i, hs, rfl⟩ := matchName_eq hname
        refine leads_go h (by show ([], p.state) ∈ _; rw [h]; decide) ⟨rfl, rfl, nofun⟩ ?_
        intro hp
        obtain ⟨q, hq, hcompares⟩ :=
          matchName_compares ch (token ch) (hp.naming h).1 (hp.naming h).2
        obtain rfl := Option.some.inj (hname.symm.trans hq)
        have hbound := hcompares.bound
        refine ⟨Nat.lt_of_lt_of_le hbound hs.bound_le, hp.length, ?_⟩
        simp only [Settled, h]
        exact ⟨hcompares.mem, hbound⟩
  · exact leads_go h (by dsimp only; decide) ⟨rfl, rfl, nofun⟩ fun hp => ⟨hp.index, hp.length, (hp.naming h).1⟩
  · exact leads_move h (by dsimp only; decide) ⟨rfl, rfl, nofun⟩ rfl rfl rfl
  · exact leads_move h (by dsimp only; decide) ⟨rfl, rfl, nofun⟩ rfl rfl rfl
  · exact leads_error h (by decide)

theorem digit_le {d : ℕ} (h : digit ch = some d) : d ≤ 9 := by
  unfold digit at h
  split_ifs at h with hdigit
  obtain rfl := Option.some.inj h
  have hle : ch.toNat ≤ 57 := UInt8.le_iff_toNat_le.mp hdigit.2
  rw [UInt8.toNat_sub_of_le _ _ hdigit.1]
  exact Nat.sub_le_sub_right hle 48

/-- The first character of a value changes four fields. -/
theorem startValue_eq (h : startValue p ch = some q) :
    ∃ hs ∈ valuing, ∃ flags, ∃ n, q = { p with headerState := hs, flags := flags, contentLength := n } ∧
      (n = p.contentLength ∨ n ≤ 9) ∧ flags.trailing = p.flags.trailing := by
  unfold startValue at h
  cases hstate : p.headerState <;> simp only [hstate] at h
  case contentLength =>
      cases hdigit : digit ch with
      | none => rw [hdigit] at h; cases h
      | some d =>
          rw [hdigit] at h
          obtain rfl := Option.some.inj h
          exact ⟨_, by decide, _, d, rfl, Or.inr (digit_le hdigit), rfl⟩
  case transferEncoding | connection =>
      obtain rfl := Option.some.inj h
      refine ⟨_, ?_, _, _, rfl, Or.inl rfl, rfl⟩
      split_ifs <;> decide
  all_goals
    obtain rfl := Option.some.inj h
    exact ⟨_, List.mem_cons_self, _, _, rfl, Or.inl rfl, rfl⟩

theorem HeaderState.bound_pos (h : HeaderState) : 0 < h.bound := by
  cases h <;> decide

theorem headerValueStart_leads (h : p.state = .headerValueStart) : Leads p (headerValueStart p ch) := by
  unfold headerValueStart
  split_ifs
  · exact leads_stay h (by decide)
  · exact leads_go h (by dsimp only; decide) ⟨rfl, rfl, nofun⟩ fun hp => ⟨by show 0 < 256; decide, hp.length, trivial⟩
  · exact leads_go h (by dsimp only; decide) ⟨rfl, rfl, nofun⟩ fun hp => ⟨by show 0 < 256; decide, hp.length, trivial⟩
  · dsimp only
    cases hq : startValue { p with state := .headerValue, index := 0 } ch with
    | none => exact leads_error h (by decide)
    | some q =>
        obtain ⟨hs, hmem, flags, n, rfl, hn, htrailing⟩ := startValue_eq hq
        refine leads_go h (by dsimp only; decide) ⟨htrailing, rfl, nofun⟩ ?_
        intro hp
        have hlength : n < 2 ^ 64 := by
          rcases hn with rfl | hn
          · exact hp.length
          · exact Nat.lt_of_le_of_lt hn (by decide)
        exact ⟨by show 0 < 256; decide, hlength, hmem, hs.bound_pos⟩

theorem headerAlmostDone_leads {s : State} (h : p.state = s) (hs : s.Regular)
    (hedge : (actions, .headerFieldStart) ∈ edges s) (hhalt : ch = lf ∨ actions ∈ halts s) :
    Leads p (headerAlmostDone actions p ch) := by
  unfold headerAlmostDone
  split_ifs with hlf
  · exact leads_error h (hhalt.resolve_left hlf)
  · cases hstate : p.headerState <;> exact leads_move h hedge ⟨rfl, hs⟩ rfl rfl rfl

theorem Sound.valuing (hp : p.Sound) (h : p.state = .headerValue) :
    p.headerState ∈ HttpParser.valuing ∧ p.index < p.headerState.bound := by
  have hsettled := hp.settled
  rw [Settled, h] at hsettled
  exact hsettled

theorem matchValue_leads (h : p.state = .headerValue) : Leads p (matchValue p ch) := by
  have hchange : ∀ hs i n, (p.Sound → hs ∈ HttpParser.valuing ∧ i < hs.bound ∧ n < 2 ^ 64) →
      Leads p (go [] { p with index := i, headerState := hs, contentLength := n }) := by
    intro hs i n hafter
    refine leads_go h (by show ([], p.state) ∈ _; rw [h]; decide) ⟨rfl, rfl, nofun⟩ ?_
    intro hp
    obtain ⟨hmem, hbound, hlength⟩ := hafter hp
    refine ⟨Nat.lt_of_lt_of_le hbound hs.bound_le, hlength, ?_⟩
    simp only [Settled, h]
    exact ⟨hmem, hbound⟩
  have hmatching : ∀ literal found, p.headerState.bound = literal.length - 1 → found.bound = 256 →
      literal.length ≤ 17 → HeaderState.general ∈ HttpParser.valuing ∧ found ∈ HttpParser.valuing →
      Leads p (go [] (matching literal found p (lower ch))) := by
    intro literal found hbound hfound hshort hstates
    obtain ⟨hs, heq, -⟩ := matching_cases literal found p (lower ch)
    rw [heq]
    apply hchange
    intro hp
    obtain ⟨hmem, hindex⟩ := hp.valuing h
    have hcompares := compares_matching (c := lower ch) hmem hindex hbound hfound hshort hstates
    rw [heq] at hcompares
    exact ⟨hcompares.mem, hcompares.bound, hp.length⟩
  have hgeneral : Leads p (go [] { p with headerState := .general }) :=
    hchange _ _ _ fun hp => ⟨List.mem_cons_self, hp.index, hp.length⟩
  unfold matchValue
  cases hstate : p.headerState
  case general => exact leads_stay h (by decide)
  case connection | transferEncoding =>
      apply leads_assertion h (by decide)
      intro hp
      have hmem := (hp.valuing h).1
      rw [hstate] at hmem
      exact absurd hmem (by decide)
  case contentLength =>
      dsimp only
      split_ifs
      · exact leads_stay h (by decide)
      · cases digit ch with
        | none => exact leads_error h (by decide)
        | some d =>
            rw [← hstate]
            exact hchange _ _ _ fun hp =>
              ⟨(hp.valuing h).1, (hp.valuing h).2, Nat.mod_lt _ (Nat.two_pow_pos 64)⟩
  case matchingTransferEncodingChunked => exact hmatching _ _ (hstate ▸ rfl) rfl (by decide) (by decide)
  case matchingConnectionKeepAlive => exact hmatching _ _ (hstate ▸ rfl) rfl (by decide) (by decide)
  case matchingConnectionClose => exact hmatching _ _ (hstate ▸ rfl) rfl (by decide) (by decide)
  case transferEncodingChunked | connectionKeepAlive | connectionClose =>
      dsimp only
      split_ifs
      · exact hgeneral
      · exact leads_stay h (by decide)
  all_goals exact hgeneral

theorem headerValue_leads (h : p.state = .headerValue) : Leads p (headerValue p ch) := by
  unfold headerValue
  split_ifs with hcr hlf
  · exact leads_move h (by dsimp only; decide) ⟨rfl, rfl, nofun⟩ rfl rfl rfl
  · exact headerAlmostDone_leads h ⟨rfl, nofun⟩ (by decide) (Or.inl hlf)
  · exact matchValue_leads h

end Headers

section Bodies

theorem newMessage_mem (p : HttpParser) (actions : List (Action DataKind Notice)) :
    (actions, p.newMessage) ∈ edges.newEdges actions := by
  unfold newMessage startState
  split_ifs <;> simp [edges.newEdges]

theorem newMessage_plain (p : HttpParser) : p.newMessage.plain = true := by
  unfold newMessage startState
  split_ifs <;> rfl

theorem headersDone_leads {s : State} (hp : p.state = s) (hs : s.Regular) (r : HttpParser)
    (htrailing : r.flags.trailing = p.flags.trailing) (hindex : r.index = p.index)
    (hlength : r.contentLength = p.contentLength) (hedges : edges.doneEdges ⊆ edges s)
    (hhalt : [.notify .headersComplete, .notify .messageComplete] ∈ halts s) :
    Leads p (headersDone r) := by
  have hnew : Leads p (go [.notify .headersComplete, .notify .messageComplete]
      { r with state := r.newMessage }) :=
    leads_move hp (hedges (List.mem_append_right _ (newMessage_mem r _))) ⟨htrailing, hs⟩ hindex hlength
      r.newMessage_plain
  unfold headersDone
  split_ifs with hupgrade hskip hchunked hnone hlong
  · exact ⟨rfl, hp ▸ hhalt, fun _ => ⟨nofun, nofun⟩⟩
  · exact hnew
  · refine leads_go hp (hedges (by dsimp only; decide)) ⟨htrailing, hs⟩ fun h => ?_
    exact ⟨hindex ▸ h.index, hlength ▸ h.length, hchunked⟩
  · exact hnew
  · refine leads_go hp (hedges (by dsimp only; decide)) ⟨htrailing, hs⟩ fun h => ?_
    exact ⟨hindex ▸ h.index, hlength ▸ h.length, hlong⟩
  · exact hnew
  · exact leads_move hp (hedges (by dsimp only; decide)) ⟨htrailing, hs⟩ hindex hlength rfl

theorem headersComplete_leads {settings : HttpParser → Int} {r : HttpParser} {s : State}
    (hp : p.state = s) (hs : s.Regular) (htrailing : r.flags.trailing = p.flags.trailing)
    (hindex : r.index = p.index) (hlength : r.contentLength = p.contentLength) (hedges : edges.doneEdges ⊆ edges s) (hhalt : [.notify .headersComplete] ∈ halts s ∧
      [.notify .headersComplete, .notify .messageComplete] ∈ halts s) :
    Leads p (headersComplete settings r) := by
  have hanswer : ∀ r' : HttpParser, r'.flags.trailing = p.flags.trailing → r'.index = p.index →
      r'.contentLength = p.contentLength →
      Leads p (if settings r' = 0 then headersDone r'
        else if settings r' = 1 then headersDone { r' with flags := { r'.flags with skipbody := true } }
        else halt [.notify .headersComplete] .headersComplete r') := by
    intro r' htrailing hindex hlength
    split_ifs
    · exact headersDone_leads hp hs _ htrailing hindex hlength hedges hhalt.2
    · exact headersDone_leads hp hs _ htrailing hindex hlength hedges hhalt.2
    · exact ⟨rfl, hp ▸ hhalt.1, fun _ => ⟨nofun, nofun⟩⟩
  unfold headersComplete
  by_cases hupgrade : r.flags.upgrade = true ∨ r.method = .connect
  · rw [if_pos hupgrade]
    exact hanswer _ htrailing hindex hlength
  · rw [if_neg hupgrade]
    exact hanswer _ htrailing hindex hlength

theorem Sound.chunked (hp : p.Sound) (h : p.state ∈ [State.chunkSizeStart, .chunkSize,
    .chunkParameters, .chunkSizeAlmostDone, .chunkDataAlmostDone, .chunkDataDone, .chunkData]) :
    p.flags.chunked = true := by
  have hsettled := hp.settled
  unfold Settled at hsettled
  simp only [List.mem_cons, List.not_mem_nil, or_false] at h
  rcases h with h | h | h | h | h | h | h <;> rw [h] at hsettled
  any_goals exact hsettled
  exact hsettled.1

theorem inChunked_leads {s : State} {t : ParserTurn} (hp : p.state = s)
    (hs : s ∈ [State.chunkSizeStart, .chunkSize, .chunkParameters, .chunkSizeAlmostDone,
      .chunkDataAlmostDone, .chunkDataDone, .chunkData])
    (hhalt : [] ∈ halts s) (ht : p.flags.chunked = true → Leads p t) : Leads p (inChunked p t) := by
  unfold inChunked
  split_ifs with hchunked
  · exact ht hchunked
  · exact leads_assertion hp hhalt fun h => hchunked (h.chunked (hp ▸ hs))

theorem unhex_small {c : ℕ} (h : unhex ch = some c) : c < 2 ^ 64 := by
  have hbyte : ∀ b : UInt8, b.toNat < 2 ^ 64 := fun b => Nat.lt_trans b.toNat_lt (by decide)
  unfold unhex at h
  split_ifs at h <;> cases h
  · exact hbyte _
  · exact hbyte _
  · exact hbyte _
  · decide

theorem chunkSizeStart_leads (h : p.state = .chunkSizeStart) : Leads p (chunkSizeStart p 1 ch) := by
  unfold chunkSizeStart
  apply inChunked_leads h (by decide) (by decide)
  intro hchunked
  cases hhex : unhex ch with
  | none => exact leads_error h (by decide)
  | some c =>
      refine leads_go h (by dsimp only; decide) ⟨rfl, rfl, nofun⟩ ?_
      exact fun hp => ⟨hp.index, unhex_small hhex, hchunked⟩

theorem chunkSize_leads (h : p.state = .chunkSize) : Leads p (chunkSize p ch) := by
  unfold chunkSize
  apply inChunked_leads h (by decide) (by decide)
  intro hchunked
  by_cases hcr : ch = cr
  · rw [if_pos hcr]
    exact leads_go h (by dsimp only; decide) ⟨rfl, rfl, nofun⟩ fun hp => ⟨hp.index, hp.length, hchunked⟩
  rw [if_neg hcr]
  cases unhex ch with
  | none =>
      dsimp only
      split_ifs
      · exact leads_go h (by dsimp only; decide) ⟨rfl, rfl, nofun⟩ fun hp => ⟨hp.index, hp.length, hchunked⟩
      · exact leads_error h (by decide)
  | some c =>
      refine leads_go h (by show ([], p.state) ∈ _; rw [h]; decide) ⟨rfl, rfl, nofun⟩ ?_
      intro hp
      refine ⟨hp.index, Nat.mod_lt _ (Nat.two_pow_pos 64), ?_⟩
      simp only [Settled, h]
      exact hchunked

theorem chunkParameters_leads (h : p.state = .chunkParameters) : Leads p (chunkParameters p ch) := by
  unfold chunkParameters
  apply inChunked_leads h (by decide) (by decide)
  intro hchunked
  split_ifs
  · exact leads_go h (by dsimp only; decide) ⟨rfl, rfl, nofun⟩ fun hp => ⟨hp.index, hp.length, hchunked⟩
  · exact leads_stay h (by decide)

theorem chunkSizeAlmostDone_leads (h : p.state = .chunkSizeAlmostDone) :
    Leads p (chunkSizeAlmostDone p ch) := by
  unfold chunkSizeAlmostDone
  apply inChunked_leads h (by decide) (by decide)
  intro hchunked
  split_ifs with hlf hnone
  · exact leads_error h (by decide)
  · exact leads_size h (by dsimp only; decide) (fun _ => rfl) fun hp => hp.move rfl rfl rfl
  · refine leads_size h (by dsimp only; decide) nofun fun hp => ?_
    exact ⟨hp.index, hp.length, hchunked, Nat.pos_of_ne_zero hnone⟩

theorem chunkEnd_leads {s s' : State} {want : UInt8} (h : p.state = s)
    (hs : s ∈ [State.chunkDataAlmostDone, .chunkDataDone]) (hedge : ([], s') ∈ edges s)
    (hs' : s' = .chunkDataDone ∨ s' = .chunkSizeStart) : Leads p (inChunked p (expect want s' p ch)) := by
  have hhalt : [] ∈ halts s := by
    revert hs
    cases s <;> decide
  apply inChunked_leads h (List.mem_of_mem_dropLast (by revert hs; cases s <;> decide)) hhalt
  intro hchunked
  unfold expect
  split_ifs
  · exact leads_error h hhalt
  · have hregular : s.Regular := by
      simp only [List.mem_cons, List.not_mem_nil, or_false] at hs
      rcases hs with rfl | rfl <;> exact ⟨rfl, nofun⟩
    refine leads_go h hedge ⟨rfl, hregular⟩ fun hp => ⟨hp.index, hp.length, ?_⟩
    rcases hs' with rfl | rfl
    · exact hchunked
    · exact hchunked

/-- One byte of a body whose length is known. -/
theorem bodyIdentity_one (h : 0 < p.contentLength) : bodyIdentity p 1 =
    if p.contentLength = 1 then
      ⟨[.report .body 1, .notify .messageComplete],
        .ok { p with contentLength := 0, state := p.newMessage }, 1⟩
    else ⟨[.report .body 1], .ok { p with contentLength := p.contentLength - 1 }, 1⟩ := by
  have hone : min 1 p.contentLength = 1 := Nat.min_eq_left h
  unfold bodyIdentity
  dsimp only
  rw [hone, if_pos Nat.one_pos]
  by_cases hlast : p.contentLength = 1
  · have hend : p.contentLength - 1 = 0 := by omega
    rw [if_pos hlast, hend]
    rfl
  · have hmore : p.contentLength - 1 ≠ 0 := by omega
    rw [if_neg hlast, if_neg hmore]

theorem bodyIdentity_leads (h : p.state = .bodyIdentity) : Leads p (bodyIdentity p 1) := by
  rcases Nat.eq_zero_or_pos p.contentLength with hnone | hsome
  · have hstay : bodyIdentity p 1 = go [] p := by
      unfold bodyIdentity
      rw [hnone]
      rfl
    rw [hstay]
    exact leads_stay h (by decide)
  rw [bodyIdentity_one hsome]
  split_ifs with hlast
  · refine ⟨rfl, ?_, fun hp => ⟨hp.index, Nat.two_pow_pos 64, settled_of_plain p.newMessage_plain⟩,
      Keeps.trails (s := .bodyIdentity) ⟨rfl, rfl, nofun⟩ h⟩
    rw [h]
    exact List.mem_append_right _ (newMessage_mem p _)
  · refine ⟨rfl, ?_, ?_, Keeps.trails (s := .bodyIdentity) ⟨rfl, rfl, nofun⟩ h⟩
    · show ([_], p.state) ∈ edges p.state
      rw [h]
      decide
    · intro hp
      refine ⟨hp.index, Nat.lt_of_le_of_lt (Nat.sub_le _ 1) hp.length, ?_⟩
      simp only [Settled, h]
      omega

/-- One byte of a chunk. -/
theorem chunkData_one (hchunked : p.flags.chunked = true) (h : 0 < p.contentLength)
    (hsmall : p.contentLength < 2 ^ 63) : chunkData p 1 =
    ⟨[.report .body 1], .ok { p with
      state := if p.contentLength = 1 then .chunkDataAlmostDone else p.state
      contentLength := p.contentLength - 1 }, 1⟩ := by
  have hone : min 1 p.contentLength = 1 := Nat.min_eq_left h
  unfold chunkData inChunked
  dsimp only
  rw [if_pos hchunked, if_neg (Nat.not_le.mpr hsmall), hone, if_pos Nat.one_pos]
  simp only [eq_comm]

theorem chunkData_leads (h : p.state = .chunkData) : Leads p (chunkData p 1) := by
  by_cases hchunked : p.flags.chunked = true
  · by_cases hlarge : 2 ^ 63 ≤ p.contentLength
    · have hhalt : chunkData p 1 = halt [] .undefined p := by
        unfold chunkData inChunked
        rw [if_pos hchunked, if_pos hlarge]
      rw [hhalt]
      exact leads_undefined h (by decide) fun _ => Or.inr ⟨h, hchunked, hlarge⟩
    rcases Nat.eq_zero_or_pos p.contentLength with hnone | hsome
    · have hskip : chunkData p 1 = go [] { p with state := .chunkDataAlmostDone } := by
        unfold chunkData inChunked
        rw [if_pos hchunked, if_neg hlarge, hnone]
        rfl
      rw [hskip]
      exact leads_go h (by dsimp only; decide) ⟨rfl, rfl, nofun⟩ fun hp => ⟨hp.index, hp.length, hchunked⟩
    rw [chunkData_one hchunked hsome (Nat.not_le.mp hlarge)]
    split_ifs with hlast
    · refine ⟨rfl, ?_, fun hp => ⟨hp.index, ?_, hchunked⟩,
        Keeps.trails (s := .chunkData) ⟨rfl, rfl, nofun⟩ h⟩
      · rw [h]
        dsimp only
        decide
      · exact Nat.lt_of_le_of_lt (Nat.sub_le _ 1) hp.length
    · refine ⟨rfl, ?_, ?_, Keeps.trails (s := .chunkData) ⟨rfl, rfl, nofun⟩ h⟩
      · show ([_], p.state) ∈ edges p.state
        rw [h]
        decide
      · intro hp
        refine ⟨hp.index, Nat.lt_of_le_of_lt (Nat.sub_le _ 1) hp.length, ?_⟩
        simp only [Settled, h]
        exact ⟨hchunked, by omega⟩
  · have hhalt : chunkData p 1 = halt [] .assertion p := if_neg hchunked
    rw [hhalt]
    exact leads_assertion h (by decide) fun hp => hchunked (hp.chunked (by rw [h]; decide))

end Bodies

/-- A turn on one byte, whatever it does to `nread`. -/
theorem plainCase_leads (p : HttpParser) (ch : UInt8) (hplain : p.state ∉ [State.headerFieldStart,
    .headersAlmostDone, .chunkSizeStart, .chunkSizeAlmostDone]) : Leads p (plainCase p 1 ch) := by
  unfold plainCase
  cases h : p.state
  case dead => exact leads_error h (by decide)
  case startReqOrRes => exact startReqOrRes_leads h
  case resOrRespH => exact resOrRespH_leads h
  case startRes => exact startRes_leads h
  case resH | resHT | resHTT | resHTTP | resLineAlmostDone | reqSchemaSlash | reqSchemaSlashSlash
      | reqHttpH | reqHttpHT | reqHttpHTT | reqHttpHTTP | reqLineAlmostDone =>
      exact expect_leads h ⟨rfl, nofun⟩ (by decide) rfl (by decide)
  case resFirstHttpMajor | reqFirstHttpMajor => exact firstHttpMajor_leads h ⟨rfl, nofun⟩ (by decide) rfl (by decide)
  case resHttpMajor | reqHttpMajor =>
      exact httpMajorOrDot_leads h ⟨rfl, nofun⟩ (by decide) rfl (by decide) rfl (by decide)
  case resFirstHttpMinor | reqFirstHttpMinor => exact firstHttpMinor_leads h ⟨rfl, nofun⟩ (by decide) rfl (by decide)
  case resHttpMinor => exact resHttpMinor_leads h
  case resFirstStatusCode => exact resFirstStatusCode_leads h
  case resStatusCode => exact resStatusCode_leads h
  case resStatus => exact resStatus_leads h
  case startReq => exact startReq_leads h
  case reqMethod => exact reqMethod_leads h
  case reqSpacesBeforeUrl => exact reqSpacesBeforeUrl_leads h
  case reqSchema => exact reqSchema_leads h
  case reqHost => exact reqHost_leads h
  case reqPort => exact reqPort_leads h
  case reqPath => exact reqPath_leads h
  case reqQueryStringStart => exact reqQueryStringStart_leads h
  case reqQueryString => exact reqQueryString_leads h
  case reqFragmentStart => exact reqFragmentStart_leads h
  case reqFragment => exact reqFragment_leads h
  case reqHttpStart => exact reqHttpStart_leads h
  case reqHttpMinor => exact reqHttpMinor_leads h
  case headerField => exact headerField_leads h
  case headerValueStart => exact headerValueStart_leads h
  case headerValue => exact headerValue_leads h
  case headerAlmostDone => exact headerAlmostDone_leads h ⟨rfl, nofun⟩ (by decide) (Or.inr (by decide))
  case bodyIdentity => exact bodyIdentity_leads h
  case bodyIdentityEof =>
      exact ⟨rfl, by show ([_], p.state) ∈ _; rw [h]; decide, id,
        Keeps.trails (s := .bodyIdentityEof) ⟨rfl, rfl, nofun⟩ h⟩
  case chunkSize => exact chunkSize_leads h
  case chunkParameters => exact chunkParameters_leads h
  case chunkData => exact chunkData_leads h
  case chunkDataAlmostDone => exact chunkEnd_leads h (by decide) (by decide) (Or.inl rfl)
  case chunkDataDone => exact chunkEnd_leads h (by decide) (by decide) (Or.inr rfl)
  all_goals exact absurd (by rw [h]; decide) hplain

/-- The states in which `nread` is 0. -/
def State.uncounted : State → Bool
  | .chunkSizeStart | .chunkData | .chunkDataAlmostDone | .chunkDataDone => true
  | _ => false

/-- Whether a turn sets `nread` to 0. -/
def resets (p : HttpParser) (ch : UInt8) : Bool :=
  match p.state with
  | .headerFieldStart | .headersAlmostDone => ch = lf ∧ p.flags.trailing = false
  | .chunkSizeAlmostDone => true
  | _ => false

/-- A turn is the same whatever `nread` is, and what it does to `nread` is known. -/
structure Counts (p : HttpParser) (ch : UInt8) (turn : ℕ → CountedTurn) (t : ParserTurn) : Prop where
  eq : ∀ nread, (p.state = .chunkSizeStart → nread = 1) →
    turn nread = keep (if resets p ch then 0 else nread) t
  uncounted : ∀ q, t.next = .ok q → q.state.uncounted = true →
    resets p ch = true ∨ p.state.uncounted = true ∧ p.state.parsingHeader = false

theorem halt_next {kind : StopKind} {r : HttpParser} : (halt actions kind r).next ≠ .ok q := nofun

theorem newMessage_counted (p : HttpParser) : p.newMessage.uncounted = false := by
  unfold newMessage startState
  split_ifs <;> rfl

theorem headersAlmostDone_counts {settings : HttpParser → Int} {r : HttpParser} {s : State}
    (hp : p.state = s) (hs : s = .headerFieldStart ∨ s = .headersAlmostDone)
    (hindex : r.index = p.index) (hlength : r.contentLength = p.contentLength)
    (hflags : r.flags = p.flags) :
    ∃ t, Leads p t ∧ Counts p ch (fun nread => headersAlmostDone settings r nread ch) t := by
  have hresets : resets p ch = decide (ch = lf ∧ p.flags.trailing = false) := by
    unfold resets
    rcases hs with rfl | rfl <;> rw [hp]
  have hregular : s.Regular := by
    rcases hs with rfl | rfl <;> exact ⟨rfl, nofun⟩
  have hhalt : [] ∈ halts s ∧ [.notify .headersComplete] ∈ halts s ∧
      [.notify .headersComplete, .notify .messageComplete] ∈ halts s := by
    rcases hs with rfl | rfl <;> decide
  have hedges : edges.doneEdges ⊆ edges s := by
    rcases hs with rfl | rfl
    · exact List.subset_append_right _ _
    · exact List.Subset.refl _
  unfold headersAlmostDone
  by_cases hlf : ch = lf
  swap
  · refine ⟨halt [] .error r, leads_error hp hhalt.1, fun nread _ => ?_, fun q hq => ?_⟩
    · rw [if_pos hlf]
      rfl
    · exact absurd hq halt_next
  by_cases htrailing : p.flags.trailing = true
  · refine ⟨go [.notify .messageComplete] { r with state := r.newMessage }, ?_, ?_, ?_⟩
    · refine leads_move hp (hedges ?_) ⟨congrArg Flags.trailing hflags, hregular⟩ hindex hlength
        r.newMessage_plain
      exact List.mem_append_left _ (List.mem_append_right _ (newMessage_mem r _))
    · intro nread _
      have hcount : resets p ch = false := by rw [hresets, htrailing]; simp
      rw [if_neg (not_not.mpr hlf), hflags, if_pos htrailing, hcount]
      rfl
    · rintro q ⟨⟩ hq
      exact absurd (r.newMessage_counted.symm.trans hq) Bool.false_ne_true
  · have hcount : resets p ch = true := by
      rw [hresets]
      exact decide_eq_true ⟨hlf, Bool.eq_false_iff.mpr htrailing⟩
    refine ⟨headersComplete settings r, ?_, fun nread _ => ?_, fun _ _ _ => Or.inl hcount⟩
    · exact headersComplete_leads hp hregular (congrArg Flags.trailing hflags) hindex hlength hedges hhalt.2
    · rw [if_neg (not_not.mpr hlf), hflags, if_neg htrailing, hcount]
      rfl

theorem headerFieldStart_counts {settings : HttpParser → Int} (h : p.state = .headerFieldStart) :
    ∃ t, Leads p t ∧ Counts p ch (fun nread => headerFieldStart settings p nread ch) t := by
  unfold headerFieldStart
  by_cases hlf : ch = lf
  · simp only [if_pos hlf]
    exact headersAlmostDone_counts h (Or.inl rfl) rfl rfl rfl
  simp only [if_neg hlf]
  have hcount : resets p ch = false := by
    unfold resets
    rw [h]
    exact decide_eq_false fun hresets => hlf hresets.1
  refine ⟨_, ?_, fun nread _ => by rw [hcount]; rfl, ?_⟩
  · split_ifs
    · exact leads_move h (by dsimp only; decide) ⟨rfl, rfl, nofun⟩ rfl rfl rfl
    · exact leads_error h (by decide)
    · refine leads_go h (by dsimp only; decide) ⟨rfl, rfl, nofun⟩ ?_
      intro hp
      refine ⟨by show 0 < 256; decide, hp.length, ?_, HeaderState.bound_pos _⟩
      dsimp only
      unfold headerStateOf
      split_ifs <;> decide
  · intro q hq huncounted
    split_ifs at hq
    · obtain rfl := Except.ok.inj hq
      cases huncounted
    · exact absurd hq halt_next
    · obtain rfl := Except.ok.inj hq
      cases huncounted

/-- Elsewhere a state in which `nread` is 0 is reached from another one. -/
theorem edges_uncounted {s : State} (hs : s ∉ [State.headerFieldStart, .headersAlmostDone,
    .chunkSizeStart, .chunkSizeAlmostDone]) :
    ∀ e ∈ edges s, e.2.uncounted = true → s.uncounted = true ∧ s.parsingHeader = false := by
  revert hs
  cases s <;> decide

theorem switch_plain (settings : HttpParser → Int) (nread left : ℕ) (ch : UInt8) (hplain : p.state ∉
    [State.headerFieldStart, .headersAlmostDone, .chunkSizeStart, .chunkSizeAlmostDone]) :
    switch settings p nread left ch = keep nread (plainCase p left ch) ∧ resets p ch = false := by
  unfold switch resets
  cases h : p.state <;> first | exact ⟨rfl, rfl⟩ | exact absurd (by rw [h]; decide) hplain

/-- What the switch does on one byte. -/
theorem switch_counts (settings : HttpParser → Int) (p : HttpParser) (ch : UInt8) :
    ∃ t, Leads p t ∧ Counts p ch (fun nread => switch settings p nread 1 ch) t := by
  by_cases hplain : p.state ∉ [State.headerFieldStart, .headersAlmostDone, .chunkSizeStart,
    .chunkSizeAlmostDone]
  · have hleads := plainCase_leads p ch hplain
    refine ⟨plainCase p 1 ch, hleads, fun nread _ => ?_, fun q hq hstate => Or.inr ?_⟩
    · obtain ⟨hswitch, hcount⟩ := switch_plain settings nread 1 ch hplain
      rw [hswitch, hcount]
      rfl
    · have hedge := hleads.next
      rw [hq] at hedge
      exact edges_uncounted hplain _ hedge.1 hstate
  simp only [List.mem_cons, List.not_mem_nil, or_false, not_not] at hplain
  unfold switch
  rcases hplain with h | h | h | h <;> simp only [h]
  · exact headerFieldStart_counts h
  · exact headersAlmostDone_counts h (Or.inr rfl) rfl rfl rfl
  · have hleads : Leads p (chunkSizeStart p 1 ch) := chunkSizeStart_leads h
    refine ⟨chunkSizeStart p 1 ch, hleads, fun nread hone => ?_, fun q hq hstate => ?_⟩
    · have hcount : resets p ch = false := by
        unfold resets
        rw [h]
      rw [hone h, hcount]
      rfl
    · have hedge := hleads.next
      rw [hq, h] at hedge
      have hnext : q.state = .chunkSize := congrArg Prod.snd (List.mem_singleton.mp hedge.1)
      rw [hnext] at hstate
      cases hstate
  · have hcount : resets p ch = true := by
      unfold resets
      rw [h]
    refine ⟨chunkSizeAlmostDone p ch, chunkSizeAlmostDone_leads h, fun nread _ => ?_, fun _ _ _ => Or.inl hcount⟩
    rw [hcount]
    rfl

end OsHomeworks.WebServer.HttpParser
