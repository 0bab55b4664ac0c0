import OsHomeworks.HttpParserTurns

/-! Runs of the HTTP parser over a stream that comes in pieces: what holds between two pieces, and that
it does not matter where the stream is cut. -/

namespace OsHomeworks.WebServer.HttpParser

open CallLog CallLog.Logged MarkedStream

variable {settings : HttpParser → Int} {c d : Counted} {ch : UInt8}

/-- `nread` in a turn. -/
def Counted.count (c : Counted) : ℕ := if c.state.parsingHeader then c.nread + 1 else c.nread

/-- The body of the loop without the limit on the size of the headers. -/
def unlimited (settings : HttpParser → Int) : Machine Counted DataKind Notice Stop :=
  fun c left ch => switch settings c.toHttpParser c.count left ch

/-- A turn without what it does to `nread`. -/
def forget (t : CountedTurn) : ParserTurn := ⟨t.actions, t.next.map Counted.toHttpParser, t.advance⟩

/-- The body of the loop, without `nread`. -/
def bare (settings : HttpParser → Int) : Machine HttpParser DataKind Notice Stop :=
  fun p left ch => forget (switch settings p 1 left ch)

theorem forget_keep (n : ℕ) (t : ParserTurn) : forget (keep n t) = t := by
  obtain ⟨actions, next, advance⟩ := t
  cases next <;> rfl

/-- What holds of the parser whenever it is called. -/
structure Steady (c : Counted) : Prop where
  sound : c.toHttpParser.Sound
  nread : c.state.uncounted = true → c.nread = 0

/-- What a turn on one byte is; only the assertion on `nread` depends on the count. -/
theorem unlimited_cases (settings : HttpParser → Int) (c : Counted) (ch : UInt8) :
    (∃ t, Leads c.toHttpParser t ∧ ∃ n, unlimited settings c 1 ch = keep n t) ∨
      unlimited settings c 1 ch = keep c.count (halt [] .assertion c.toHttpParser) := by
  by_cases hcount : c.state = .chunkSizeStart → c.count = 1
  · obtain ⟨t, hleads, hcounts⟩ := switch_counts settings c.toHttpParser ch
    exact Or.inl ⟨t, hleads, _, hcounts.eq c.count hcount⟩
  · obtain ⟨hstate, hne⟩ := Classical.not_imp.mp hcount
    apply Or.inr
    unfold unlimited switch chunkSizeStart
    simp only [hstate, if_pos hne]

/-- What a turn on one byte does from a state between two turns. -/
theorem Steady.counts (h : Steady c) (settings : HttpParser → Int) (ch : UInt8) :
    ∃ t, Leads c.toHttpParser t ∧ unlimited settings c 1 ch =
      keep (if resets c.toHttpParser ch then 0 else c.count) t ∧
        (∀ q, t.next = .ok q → q.state.uncounted = true →
          resets c.toHttpParser ch = true ∨ c.count = 0) ∧
        bare settings c.toHttpParser 1 ch = t := by
  have hone : c.state = .chunkSizeStart → c.count = 1 := by
    intro hstate
    have hzero := h.nread (by rw [hstate]; rfl)
    unfold Counted.count
    rw [hstate, hzero]
    rfl
  obtain ⟨t, hleads, hcounts⟩ := switch_counts settings c.toHttpParser ch
  refine ⟨t, hleads, hcounts.eq c.count hone, fun q hq hstate => ?_, ?_⟩
  · apply (hcounts.uncounted q hq hstate).imp_right
    rintro ⟨huncounted, hheader⟩
    unfold Counted.count
    rw [hheader, h.nread huncounted]
    rfl
  · exact (congrArg forget (hcounts.eq 1 fun _ => rfl)).trans (forget_keep _ t)

/-- A turn from a state between two turns leads to another one, or the parser stops. -/
theorem Steady.turn (h : Steady c) (settings : HttpParser → Int) (ch : UInt8) :
    match (unlimited settings c 1 ch).next with
    | .ok d => Steady d
    | .error stop => stop.kind ≠ .assertion ∧ (stop.kind = .undefined → stop.parser.Undefined) := by
  obtain ⟨t, hleads, heq, huncounted, -⟩ := h.counts settings ch
  rw [heq]
  have hnext := hleads.next
  unfold keep
  cases ht : t.next with
  | error stop =>
      rw [ht] at hnext
      exact hnext.2 h.sound
  | ok q =>
      rw [ht] at hnext
      refine ⟨hnext.2.1 h.sound, fun hstate => ?_⟩
      show (if resets c.toHttpParser ch = true then 0 else c.count) = 0
      rcases huncounted q ht hstate with hreset | hzero
      · exact if_pos hreset
      · rw [hzero, ite_self]

/-- The part of a request or a header that is open in a state. -/
def State.part : State → Option DataKind
  | .headerField => some .headerField
  | .headerValue => some .headerValue
  | .reqPath => some .path
  | .reqQueryString => some .queryString
  | .reqFragment => some .fragment
  | _ => none

/-- The URL is open in a state. -/
def State.url (s : State) : Option DataKind := if s ∈ inUrl then some .url else none

/-- The parts that do not overlap. -/
def parts : View HttpParser DataKind where
  see k := k ≠ .url
  track p := p.state.part
  track_see p k h := by
    cases hs : p.state <;> rw [hs] at h <;> cases h <;> rfl

/-- The URL, which other parts are parts of. -/
def urls : View HttpParser DataKind where
  see k := k = .url
  track p := p.state.url
  track_see p k h := by
    unfold State.url at h
    split_ifs at h
    cases h
    rfl

/-- A view of the parser while it counts. -/
def counted (V : View HttpParser DataKind) : View Counted DataKind where
  see := V.see
  track c := V.track c.toHttpParser
  track_see c := V.track_see c.toHttpParser

/-- A turn on one byte takes one of the edges out of its state. -/
theorem unlimited_edge (h : (unlimited settings c 1 ch).next = .ok d) :
    ((unlimited settings c 1 ch).actions, d.state) ∈ edges c.state ∧
      Trails c.toHttpParser d.toHttpParser := by
  rcases unlimited_cases settings c ch with ⟨t, hleads, n, heq⟩ | heq
  · rw [heq] at h ⊢
    have hedge := hleads.next
    unfold keep at h
    cases ht : t.next with
    | error stop =>
        rw [ht] at h
        cases h
    | ok q =>
        rw [ht] at h hedge
        obtain rfl := Except.ok.inj h
        exact ⟨hedge.1, hedge.2.2⟩
  · rw [heq] at h
    cases h

theorem unlimited_halt {stop : Stop} (h : (unlimited settings c 1 ch).next = .error stop) :
    (unlimited settings c 1 ch).actions ∈ halts c.state ∨
      (unlimited settings c 1 ch).actions = [] := by
  rcases unlimited_cases settings c ch with ⟨t, hleads, n, heq⟩ | heq
  · rw [heq] at h ⊢
    have hedge := hleads.next
    unfold keep at h
    cases ht : t.next with
    | error stop' =>
        rw [ht] at hedge
        exact Or.inl hedge.1
    | ok q =>
        rw [ht] at h
        cases h
  · exact Or.inr (congrArg Turn.actions heq)

/-- The turns fit a view if the edges do. -/
theorem tracks_of_edges {V : View HttpParser DataKind} (track : State → Option DataKind)
    (htrack : ∀ p, V.track p = track p.state)
    (hedges : ∀ s, ∀ e ∈ edges s, follow V.see (track s) e.1 = some (track e.2))
    (hhalts : ∀ s, ∀ actions ∈ halts s, (follow V.see (track s) actions).isSome = true)
    (settings : HttpParser → Int) : Tracks (unlimited settings) (counted V) := by
  have hcounted : ∀ c, (counted V).track c = track c.state := fun c => htrack c.toHttpParser
  constructor
  · intro c ch d hnext
    rw [hcounted, hcounted]
    exact hedges _ _ (unlimited_edge hnext).1
  · intro c ch stop hnext
    rw [hcounted]
    rcases unlimited_halt hnext with hhalt | hnone
    · exact Option.isSome_iff_exists.mp (hhalts _ _ hhalt)
    · rw [hnone]
      exact ⟨_, rfl⟩

theorem parts_tracks (settings : HttpParser → Int) : Tracks (unlimited settings) (counted parts) := by
  apply tracks_of_edges State.part (fun _ => rfl)
  · intro s
    cases s <;> decide
  · intro s
    cases s <;> decide

theorem urls_tracks (settings : HttpParser → Int) : Tracks (unlimited settings) (counted urls) := by
  apply tracks_of_edges State.url (fun _ => rfl)
  · intro s
    cases s <;> decide
  · intro s
    cases s <;> decide

theorem parts_shows : Shows opens (counted parts) := by
  intro c k hk
  have hpart : k ≠ .url := of_decide_eq_true hk
  show opens c k = true ↔ c.state.part = some k
  unfold opens
  generalize c.state = s
  cases k
  case url => exact absurd rfl hpart
  all_goals cases s <;> decide

theorem urls_shows : Shows opens (counted urls) := by
  intro c k hk
  obtain rfl : k = .url := of_decide_eq_true hk
  show decide (c.state ∈ inUrl) = true ↔ c.state.url = some .url
  unfold State.url
  split_ifs with h
  · exact iff_of_true (decide_eq_true h) rfl
  · exact iff_of_false (by simpa using h) nofun

/-- Elsewhere a turn reads one byte. -/
theorem switch_left (settings : HttpParser → Int) {p : HttpParser} (nread left : ℕ) (ch : UInt8)
    (h : p.state ∉ [State.bodyIdentity, .bodyIdentityEof, .chunkData]) :
    switch settings p nread left ch = switch settings p nread 1 ch := by
  unfold switch plainCase
  cases hs : p.state <;> first | rfl | exact absurd (by rw [hs]; decide) h

/-- How many bytes a turn on one byte may hand out. -/
def State.most (s : State) : ℕ := if s.parsingHeader then 0 else 1

def within (m : ℕ) (a : Action DataKind Notice) : Bool :=
  match a with
  | .report _ n => n ≤ m
  | _ => true

theorem edges_within (s : State) : ∀ e ∈ edges s, e.1.all (within s.most) = true := by
  cases s <;> decide

theorem halts_within (s : State) : ∀ actions ∈ halts s, actions.all (within s.most) = true := by
  cases s <;> decide

theorem unlimited_most {k : DataKind} {n : ℕ}
    (h : .report k n ∈ (unlimited settings c 1 ch).actions) : n ≤ c.state.most := by
  have hall : (unlimited settings c 1 ch).actions.all (within c.state.most) = true := by
    cases hnext : (unlimited settings c 1 ch).next with
    | ok d => exact edges_within _ _ (unlimited_edge hnext).1
    | error stop =>
        rcases unlimited_halt hnext with hhalt | hnone
        · exact halts_within _ _ hhalt
        · rw [hnone]
          rfl
  exact of_decide_eq_true (List.all_eq_true.mp hall _ h)

theorem unlimited_short {k : DataKind} {n : ℕ}
    (h : .report k n ∈ (unlimited settings c 1 ch).actions) : n ≤ 1 := by
  apply Nat.le_trans (unlimited_most h)
  unfold State.most
  split_ifs <;> decide

theorem advance_one (settings : HttpParser → Int) (c : Counted) (ch : UInt8) :
    (unlimited settings c 1 ch).advance = 1 := by
  rcases unlimited_cases settings c ch with ⟨t, hleads, n, heq⟩ | heq
  · rw [heq]
    exact hleads.advance
  · rw [heq]
    rfl

/-- Several bytes of a body whose length is known. -/
theorem bodyIdentity_some {p : HttpParser} {left r : ℕ} (hr : min left p.contentLength = r) (hpos : 0 < r) :
    bodyIdentity p left =
      ⟨.report .body r :: if p.contentLength = r then [.notify .messageComplete] else [],
        .ok { p with
          contentLength := p.contentLength - r
          state := if p.contentLength = r then p.newMessage else p.state }, r⟩ := by
  unfold bodyIdentity
  dsimp only
  rw [hr, if_pos hpos]
  by_cases hlast : p.contentLength = r
  · have hzero : p.contentLength - r = 0 := by omega
    rw [if_pos hzero, if_pos hlast, if_pos hlast]
    rfl
  · have hmore : p.contentLength - r ≠ 0 := by omega
    rw [if_neg hmore, if_neg hlast, if_neg hlast]

/-- Several bytes of a chunk. -/
theorem chunkData_some {p : HttpParser} {left r : ℕ} (hchunked : p.flags.chunked = true)
    (hsmall : p.contentLength < 2 ^ 63) (hr : min left p.contentLength = r) (hpos : 0 < r) :
    chunkData p left =
      ⟨[.report .body r],
        .ok { p with
          contentLength := p.contentLength - r
          state := if p.contentLength = r then .chunkDataAlmostDone else p.state }, r⟩ := by
  unfold chunkData inChunked
  dsimp only
  rw [if_pos hchunked, if_neg (Nat.not_le.mpr hsmall), hr, if_pos hpos]
  simp only [eq_comm]

theorem unlimited_body (settings : HttpParser → Int) (c : Counted) (left : ℕ) (ch : UInt8) :
    (c.state = .bodyIdentity → unlimited settings c left ch = keep c.nread (bodyIdentity c.toHttpParser left)) ∧
      (c.state = .chunkData → unlimited settings c left ch = keep c.nread (chunkData c.toHttpParser left)) ∧
      (c.state = .bodyIdentityEof → unlimited settings c left ch =
        keep c.nread ⟨[.report .body left], .ok c.toHttpParser, left⟩) := by
  have hcount : c.state.parsingHeader = false → c.count = c.nread := by
    intro h
    unfold Counted.count
    rw [h]
    rfl
  unfold unlimited switch plainCase
  refine ⟨fun h => ?_, fun h => ?_, fun h => ?_⟩
  · rw [hcount (by rw [h]; rfl), h]
  · rw [hcount (by rw [h]; rfl), h]
  · rw [hcount (by rw [h]; rfl), h]

theorem bodyIdentity_splits (h : c.state = .bodyIdentity) : SplitsAt (unlimited settings) c := by
  have hturn := fun left ch => (unlimited_body settings c left ch).1 h
  rcases Nat.eq_zero_or_pos c.contentLength with hnone | hsome
  · have hstay : ∀ left, bodyIdentity c.toHttpParser left = go [] c.toHttpParser := by
      intro left
      unfold bodyIdentity
      rw [hnone, Nat.min_zero]
      rfl
    refine ⟨fun n ch => ?_, fun ch k n => unlimited_short, fun n ch _ => ?_, fun n ch m hm => ?_⟩
    · rw [hturn, hstay]
      exact Nat.one_pos
    · rw [hturn, hturn, hstay, hstay]
    · rw [hturn, hstay] at hm
      cases hm
  have hpos : ∀ n, 0 < min (n + 1) c.contentLength := fun n => Nat.lt_min.mpr ⟨n.succ_pos, hsome⟩
  refine ⟨fun n ch => ?_, fun ch k n => unlimited_short, fun n ch hone => ?_, fun n ch m hm => ?_⟩
  · rw [hturn, bodyIdentity_some rfl (hpos n)]
    exact hpos n
  · rw [hturn, bodyIdentity_some rfl (hpos n)] at hone
    have hone' : min 1 c.contentLength = 1 := Nat.min_eq_left hsome
    rw [hturn, hturn, bodyIdentity_some hone Nat.one_pos, bodyIdentity_some hone' Nat.one_pos]
  · rw [hturn, bodyIdentity_some rfl (hpos n)] at hm
    have hmin : min (n + 1) c.contentLength = m + 2 := hm
    have hless : m < n ∧ m + 2 ≤ c.contentLength := by omega
    have hone : min 1 c.contentLength = 1 := Nat.min_eq_left hsome
    have hne : c.contentLength ≠ 1 := by omega
    have hrest : min n (c.contentLength - 1) = m + 1 := by omega
    refine ⟨hless.1, .body, if c.contentLength = m + 2 then [.notify .messageComplete] else [],
      { c with contentLength := c.contentLength - 1 },
      { c with
        contentLength := c.contentLength - (m + 2)
        state := if c.contentLength = m + 2 then c.newMessage else c.state },
      fun a ha => ?_, ?_, ?_, fun ch' => ?_⟩
    · split_ifs at ha
      · exact ⟨_, List.mem_singleton.mp ha⟩
      · cases ha
    · rw [hturn, bodyIdentity_some hmin (Nat.succ_pos _)]
      rfl
    · rw [hturn, bodyIdentity_some hone Nat.one_pos, if_neg hne, if_neg hne]
      rfl
    · rw [(unlimited_body settings { c with contentLength := c.contentLength - 1 } n ch').1 h,
        bodyIdentity_some hrest (Nat.succ_pos _)]
      have hsame : c.contentLength - 1 = m + 1 ↔ c.contentLength = m + 2 := by omega
      have hleft : c.contentLength - 1 - (m + 1) = c.contentLength - (m + 2) := by omega
      simp only [hsame, hleft]
      rfl

theorem chunkData_splits (h : c.state = .chunkData) : SplitsAt (unlimited settings) c := by
  have hturn := fun left ch => (unlimited_body settings c left ch).2.1 h
  have hone_turn : (∃ t : ParserTurn, t.advance = 1 ∧ ∀ left, 0 < left → chunkData c.toHttpParser left = t) →
      SplitsAt (unlimited settings) c := by
    rintro ⟨t, ht, hsame⟩
    refine ⟨fun n ch => ?_, fun ch k n => unlimited_short, fun n ch _ => ?_, fun n ch m hm => ?_⟩
    · rw [hturn, hsame _ n.succ_pos]
      exact ht ▸ Nat.one_pos
    · rw [hturn, hturn, hsame _ n.succ_pos, hsame _ Nat.one_pos]
    · rw [hturn, hsame _ n.succ_pos] at hm
      cases ht.symm.trans hm
  by_cases hchunked : c.flags.chunked = true
  swap
  · exact hone_turn ⟨halt [] .assertion c.toHttpParser, rfl, fun _ _ => if_neg hchunked⟩
  by_cases hlarge : 2 ^ 63 ≤ c.contentLength
  · refine hone_turn ⟨halt [] .undefined c.toHttpParser, rfl, fun left _ => ?_⟩
    unfold chunkData inChunked
    rw [if_pos hchunked, if_pos hlarge]
  rcases Nat.eq_zero_or_pos c.contentLength with hnone | hsome
  · refine hone_turn ⟨go [] { c.toHttpParser with contentLength := 0, state := .chunkDataAlmostDone }, rfl,
      fun left _ => ?_⟩
    unfold chunkData inChunked
    rw [if_pos hchunked, if_neg hlarge, hnone, Nat.min_zero]
    rfl
  have hsmall : c.contentLength < 2 ^ 63 := Nat.not_le.mp hlarge
  have hpos : ∀ n, 0 < min (n + 1) c.contentLength := fun n => Nat.lt_min.mpr ⟨n.succ_pos, hsome⟩
  have hone : min 1 c.contentLength = 1 := Nat.min_eq_left hsome
  refine ⟨fun n ch => ?_, fun ch k n => unlimited_short, fun n ch hadvance => ?_, fun n ch m hm => ?_⟩
  · rw [hturn, chunkData_some hchunked hsmall rfl (hpos n)]
    exact hpos n
  · rw [hturn, chunkData_some hchunked hsmall rfl (hpos n)] at hadvance
    rw [hturn, hturn, chunkData_some hchunked hsmall hadvance Nat.one_pos,
      chunkData_some hchunked hsmall hone Nat.one_pos]
  · rw [hturn, chunkData_some hchunked hsmall rfl (hpos n)] at hm
    have hmin : min (n + 1) c.contentLength = m + 2 := hm
    have hless : m < n ∧ m + 2 ≤ c.contentLength := by omega
    have hne : c.contentLength ≠ 1 := by omega
    have hrest : min n (c.contentLength - 1) = m + 1 := by omega
    have hsmall' : c.contentLength - 1 < 2 ^ 63 := Nat.lt_of_le_of_lt (Nat.sub_le _ 1) hsmall
    refine ⟨hless.1, .body, [], { c with contentLength := c.contentLength - 1 },
      { c with
        contentLength := c.contentLength - (m + 2)
        state := if c.contentLength = m + 2 then .chunkDataAlmostDone else c.state },
      nofun, ?_, ?_, fun ch' => ?_⟩
    · rw [hturn, chunkData_some hchunked hsmall hmin (Nat.succ_pos _)]
      rfl
    · rw [hturn, chunkData_some hchunked hsmall hone Nat.one_pos, if_neg hne]
      rfl
    · rw [(unlimited_body settings { c with contentLength := c.contentLength - 1 } n ch').2.1 h,
        chunkData_some (p := { c.toHttpParser with contentLength := c.contentLength - 1 })
          hchunked hsmall' hrest (Nat.succ_pos _)]
      have hsame : c.contentLength - 1 = m + 1 ↔ c.contentLength = m + 2 := by omega
      have hleft : c.contentLength - 1 - (m + 1) = c.contentLength - (m + 2) := by omega
      simp only [hsame, hleft]
      rfl

theorem bodyIdentityEof_splits (h : c.state = .bodyIdentityEof) : SplitsAt (unlimited settings) c := by
  have hturn := fun left ch => (unlimited_body settings c left ch).2.2 h
  refine ⟨fun n ch => ?_, fun ch k n => unlimited_short, fun n ch hadvance => ?_, fun n ch m hm => ?_⟩
  · rw [hturn]
    exact n.succ_pos
  · rw [hturn] at hadvance
    rw [show n + 1 = 1 from hadvance]
  · rw [hturn] at hm
    obtain rfl : n = m + 1 := Nat.succ.inj hm
    refine ⟨m.lt_succ_self, _, [], c, c, nofun, hturn _ _, hturn _ _, fun ch' => hturn _ _⟩

theorem unlimited_splits (settings : HttpParser → Int) : Splits (unlimited settings) := by
  intro c
  by_cases hbody : c.state ∉ [State.bodyIdentity, .bodyIdentityEof, .chunkData]
  · have hsame : ∀ n ch, unlimited settings c (n + 1) ch = unlimited settings c 1 ch :=
      fun n ch => switch_left settings _ _ _ hbody
    refine ⟨fun n ch => ?_, fun ch k n => unlimited_short, fun n ch _ => hsame n ch, fun n ch m hm => ?_⟩
    · rw [hsame, advance_one]
      exact Nat.one_pos
    · rw [hsame, advance_one] at hm
      cases hm
  simp only [List.mem_cons, List.not_mem_nil, or_false, not_not] at hbody
  rcases hbody with h | h | h
  · exact bodyIdentity_splits h
  · exact bodyIdentityEof_splits h
  · exact chunkData_splits h

/-- The parser between two turns, without `nread`. -/
structure Same (c : Counted) (p : HttpParser) : Prop where
  parser : c.toHttpParser = p
  steady : Steady c

theorem same_bisimulation (V : View HttpParser DataKind) (settings : HttpParser → Int) :
    Bisimulation (unlimited settings) (counted V) (bare settings) V Same Eq where
  see := rfl
  track c p h := congrArg V.track h.parser
  actions c p ch h := by
    obtain ⟨t, -, heq, -, hbare⟩ := h.steady.counts settings ch
    rw [heq, ← h.parser, hbare]
    rfl
  next c p ch h := by
    obtain ⟨t, -, heq, -, hbare⟩ := h.steady.counts settings ch
    have hturn := h.steady.turn settings ch
    rw [heq] at hturn ⊢
    rw [← h.parser, hbare]
    unfold keep at hturn ⊢
    cases ht : t.next with
    | error stop => exact .error rfl
    | ok q =>
        rw [ht] at hturn
        exact .ok ⟨rfl, hturn⟩

/-- What is saved behind a piece is the parser itself, but for `nread`. -/
theorem Steady.save (h : Steady c) : Steady (save c) ∧ (HttpParser.save c).toHttpParser = c.toHttpParser := by
  have hindex : c.index % 256 = c.index := Nat.mod_eq_of_lt h.sound.index
  have hsame : (HttpParser.save c).toHttpParser = c.toHttpParser := by
    unfold HttpParser.save
    rw [hindex]
  refine ⟨⟨hsame ▸ h.sound, fun hstate => ?_⟩, hsame⟩
  have hzero := h.nread hstate
  show c.nread % 256 = 0
  rw [hzero]

theorem steady_init (memory : Counted) (type : HttpParserType) (hindex : memory.index < 256)
    (hlength : memory.contentLength < 2 ^ 64) : Steady (init memory type) := by
  refine ⟨⟨hindex, hlength, settled_of_plain ?_⟩, fun _ => rfl⟩
  cases type <;> rfl

/-! ### Pieces -/

theorem execute_nil (settings : HttpParser → Int) (c : Counted) :
    ∃ events returned, execute settings c [] = ⟨events, returned, c, none⟩ := by
  unfold execute
  cases c.state <;> exact ⟨_, _, rfl⟩

theorem execute_ok {data : List UInt8} (hne : data ≠ [])
    (h : (read (turn settings) opens callbackOrder data c).result = .ok d) :
    execute settings c data =
      ⟨(read (turn settings) opens callbackOrder data c).calls, data.length, save d, none⟩ := by
  unfold execute
  rw [if_neg hne]
  simp only [h]

theorem execute_error {data : List UInt8} {e : ℕ × Stop} (hne : data ≠ [])
    (h : (read (turn settings) opens callbackOrder data c).result = .error e) :
    execute settings c data =
      ⟨(read (turn settings) opens callbackOrder data c).calls, e.1, e.2.saved c, some e.2.kind⟩ := by
  unfold execute
  rw [if_neg hne]
  simp only [h]

/-- One piece after the other is given to `http_parser_execute`, until a call returns early; `p` bytes
were given to it before. -/
def executeAll (settings : HttpParser → Int) : ℕ → Counted → List (List UInt8) → Execution
  | p, c, [] => ⟨[], p, c, none⟩
  | p, c, data :: pieces =>
      let call := execute settings c data
      match call.stop with
      | some kind => ⟨call.events, p + call.returned, call.parser, some kind⟩
      | none =>
          let rest := executeAll settings (p + data.length) call.parser pieces
          ⟨call.events ++ rest.events, rest.returned, rest.parser, rest.stop⟩

/-- The pieces are not empty, and with what `nread` may be behind another piece none of them goes beyond
the limit on the size of the headers. -/
def Pieces (pieces : List (List UInt8)) : Prop :=
  ∀ data ∈ pieces, data ≠ [] ∧ data.length + 255 ≤ httpMaxHeaderSize

instance (pieces : List (List UInt8)) : Decidable (Pieces pieces) :=
  inferInstanceAs (Decidable (∀ data ∈ pieces, _))

theorem Counted.count_le (c : Counted) : c.count ≤ c.nread + 1 := by
  unfold Counted.count
  split_ifs
  · exact Nat.le_refl _
  · exact Nat.le_succ _

/-- A turn does not count further. -/
theorem unlimited_nread {left : ℕ} (h : (unlimited settings c left ch).next = .ok d) :
    d.nread ≤ c.count := by
  have hkeep : ∀ n t, (keep n t).next = .ok d → d.nread = n := by
    intro n t ht
    unfold keep at ht
    cases hnext : t.next with
    | error stop =>
        rw [hnext] at ht
        cases ht
    | ok q =>
        rw [hnext] at ht
        exact (Except.ok.inj ht) ▸ rfl
  have hdone : ∀ r, (headersAlmostDone settings r c.count ch).next = .ok d → d.nread ≤ c.count := by
    intro r hr
    unfold headersAlmostDone at hr
    split_ifs at hr
    · exact Nat.le_of_eq (hkeep _ _ hr)
    · exact Nat.le_of_eq (hkeep _ _ hr)
    · exact hkeep _ _ hr ▸ Nat.zero_le _
  unfold unlimited switch at h
  cases hs : c.state <;> simp only [hs] at h
  case headerFieldStart =>
      unfold headerFieldStart at h
      by_cases hlf : ch = lf
      · rw [if_pos hlf] at h
        exact hdone _ h
      · rw [if_neg hlf] at h
        exact Nat.le_of_eq (hkeep _ _ h)
  case headersAlmostDone => exact hdone _ h
  case chunkSizeAlmostDone => exact hkeep _ _ h ▸ Nat.zero_le _
  all_goals exact Nat.le_of_eq (hkeep _ _ h)

/-- A piece of this length does not reach the limit. -/
theorem read_unlimited {data : List UInt8} (h : c.nread + data.length ≤ httpMaxHeaderSize) :
    read (turn settings) opens callbackOrder data c =
      read (unlimited settings) opens callbackOrder data c := by
  apply read_congr (I := fun left c => c.nread + left ≤ httpMaxHeaderSize) _ _ h
  · intro c n ch hI
    have hle := c.count_le
    unfold turn unlimited
    apply if_neg
    rintro ⟨-, hgt⟩
    have : c.count ≤ httpMaxHeaderSize := by omega
    exact absurd hgt (Nat.not_lt.mpr this)
  · intro c n ch d hI hnext
    have hle := unlimited_nread hnext
    have hcount := c.count_le
    have hpos := (unlimited_splits settings c).pos n ch
    omega

theorem callbackOrder_nodup : callbackOrder.Nodup := by decide

/-- The fields that are not local variables while the parser runs. -/
def fields (p : HttpParser) : HttpParser :=
  { p with state := .dead, headerState := .general, index := 0 }

/-- What is left by a run over pieces, and what its bytes lead to. -/
def Ends (p : ℕ) (length : ℕ) (e : Execution) (result : Except (ℕ × Stop) HttpParser) : Prop :=
  match result with
  | .ok q => e.stop = none ∧ e.returned = p + length ∧ e.parser.toHttpParser = q
  | .error (i, stop) => e.stop = some stop.kind ∧ e.returned = i ∧
      e.parser.toHttpParser.fields = stop.parser.fields

theorem executeAll_feed (settings : HttpParser → Int) (hnread : c.nread < 256) {pieces : List (List UInt8)} (h : Pieces pieces) (p : ℕ) :
    (executeAll settings p c pieces).events =
        (feed (unlimited settings) opens callbackOrder save p c pieces).calls ∧
      Ends p pieces.flatten.length (executeAll settings p c pieces)
        ((feed (unlimited settings) opens callbackOrder save p c pieces).result.map
          Counted.toHttpParser) := by
  induction pieces generalizing p c with
  | nil => exact ⟨rfl, rfl, rfl, rfl⟩
  | cons data pieces ih =>
      obtain ⟨⟨hne, hlength⟩, hrest⟩ := List.forall_mem_cons.mp h
      have hread : read (turn settings) opens callbackOrder data c =
          read (unlimited settings) opens callbackOrder data c := read_unlimited (by omega)
      cases hresult : (read (unlimited settings) opens callbackOrder data c).result with
      | error e =>
          have hpiece : (shift p (read (unlimited settings) opens callbackOrder data c)).result =
              .error (p + e.1, e.2) := by
            rw [shift, hresult]
            rfl
          rw [executeAll, feed, bind_of_error hpiece, execute_error hne (hread ▸ hresult), hread]
          exact ⟨rfl, rfl, rfl, rfl⟩
      | ok d =>
          have hpiece : (shift p (read (unlimited settings) opens callbackOrder data c)).result = .ok d := by
            rw [shift, hresult]
            rfl
          obtain ⟨hevents, hends⟩ := ih (c := save d) (Nat.mod_lt _ (by decide)) hrest (p + data.length)
          rw [executeAll, feed, bind_of_ok hpiece, execute_ok hne (hread ▸ hresult), hread]
          refine ⟨congrArg ((read (unlimited settings) opens callbackOrder data c).calls ++ ·) hevents, ?_⟩
          rw [List.flatten_cons, List.length_append]
          unfold Ends at hends ⊢
          cases hfeed : (feed (unlimited settings) opens callbackOrder save (p + data.length) (save d)
              pieces).result with
          | error e =>
              rw [hfeed] at hends
              exact hends
          | ok d' =>
              rw [hfeed] at hends
              exact ⟨hends.1, hends.2.1.trans (Nat.add_assoc ..), hends.2.2⟩

/-- What a stream contributes to a view, whose first byte is at `p` and finds the parser `q`. -/
def stream (settings : HttpParser → Int) (V : View HttpParser DataKind) (p : ℕ) (q : HttpParser)
    (bytes : List UInt8) : Logged (Token DataKind Notice) (ℕ × Stop) HttpParser :=
  content (bare settings) V p q bytes

/-- The views that are looked at. -/
def Viewed (V : View HttpParser DataKind) : Prop := V = parts ∨ V = urls

theorem Viewed.tracks {V : View HttpParser DataKind} (h : Viewed V) (settings : HttpParser → Int) :
    Tracks (unlimited settings) (counted V) := by
  rcases h with rfl | rfl
  · exact parts_tracks settings
  · exact urls_tracks settings

theorem Viewed.shows {V : View HttpParser DataKind} (h : Viewed V) : Shows opens (counted V) := by
  rcases h with rfl | rfl
  · exact parts_shows
  · exact urls_shows

theorem Viewed.mem {V : View HttpParser DataKind} (h : Viewed V) (c : Counted) (k : DataKind)
    (hk : (counted V).track c = some k) : k ∈ callbackOrder := by
  rcases h with rfl | rfl
  · replace hk : c.state.part = some k := hk
    cases hs : c.state <;> rw [hs] at hk <;> cases hk <;> decide
  · replace hk : c.state.url = some k := hk
    unfold State.url at hk
    split_ifs at hk
    cases hk
    decide

/-- Pieces hand out what their bytes contribute. -/
theorem executeAll_stream (settings : HttpParser → Int) {V : View HttpParser DataKind} (hV : Viewed V) (hc : Steady c)
    (hnread : c.nread < 256) {pieces : List (List UInt8)} (h : Pieces pieces) (p : ℕ) :
    Ends p pieces.flatten.length (executeAll settings p c pieces)
        (stream settings V p c.toHttpParser pieces.flatten).result ∧
      ∃ rest, Bytes rest ∧ tokens V.see (executeAll settings p c pieces).events ++ rest =
          (stream settings V p c.toHttpParser pieces.flatten).calls ∧
        ((executeAll settings p c pieces).stop = none → rest = []) := by
  obtain ⟨hevents, hends⟩ := executeAll_feed settings hnread h p
  obtain ⟨halike, rest, hbytes, htokens, hrest⟩ :=
    feed_spec (hV.tracks settings) (unlimited_splits settings) hV.shows callbackOrder_nodup hV.mem
      (same_bisimulation V settings) (fun c q h => ⟨h.steady.save.2.trans h.parser, h.steady.save.1⟩)
      ⟨rfl, hc⟩ p pieces
  rw [← hevents] at htokens
  unfold Ends at hends ⊢
  rw [← stream] at halike htokens
  cases hfeed : (feed (unlimited settings) opens callbackOrder save p c pieces).result with
  | ok d =>
      rw [hfeed] at hends halike
      cases hstream : (stream settings V p c.toHttpParser pieces.flatten).result with
      | ok q =>
          rw [hstream] at halike
          cases halike with
          | ok hsame =>
              exact ⟨⟨hends.1, hends.2.1, hends.2.2.trans hsame.parser⟩, rest, hbytes, htokens,
                fun _ => hrest d hfeed⟩
      | error e =>
          rw [hstream] at halike
          cases halike
  | error e =>
      rw [hfeed] at hends halike
      cases hstream : (stream settings V p c.toHttpParser pieces.flatten).result with
      | ok q =>
          rw [hstream] at halike
          cases halike
      | error e' =>
          rw [hstream] at halike
          cases halike with
          | error hsame =>
              obtain ⟨hposition, hstop⟩ := hsame
              obtain ⟨hend, hreturned, hfields⟩ := hends
              refine ⟨⟨?_, hreturned.trans hposition, ?_⟩, rest, hbytes, htokens, ?_⟩
              · rw [← hstop]
                exact hend
              · rw [← hstop]
                exact hfields
              · intro hnone
                rw [hend] at hnone
                cases hnone

/-- The callbacks without data that were made. -/
def notices (events : List (Event DataKind Notice)) : List Notice :=
  events.filterMap fun
    | .notify n => some n
    | .data _ _ => none

def Token.notice : Token DataKind Notice → Option Notice
  | .notify n => some n
  | .byte _ _ => none

theorem notices_tokens (see : DataKind → Bool) (events : List (Event DataKind Notice)) :
    (tokens see events).filterMap Token.notice = notices events := by
  induction events with
  | nil => rfl
  | cons event events ih =>
      rw [tokens_cons, List.filterMap_append, ih]
      cases event with
      | notify n => rfl
      | data k bytes =>
          have hnone : (Event.tokens see (.data k bytes : Event DataKind Notice)).filterMap Token.notice =
              [] := by
            show (if see k = true then bytes.map (Token.byte k) else []).filterMap Token.notice = []
            split_ifs
            · rw [List.filterMap_map]
              exact List.filterMap_eq_nil_iff.mpr fun _ _ => rfl
            · rfl
          rw [hnone]
          rfl

theorem notices_bytes {rest : List (Token DataKind Notice)} (h : Bytes rest) :
    rest.filterMap Token.notice = [] := by
  apply List.filterMap_eq_nil_iff.mpr
  intro token hmem
  cases token with
  | notify n => exact absurd hmem (h n)
  | byte k b => rfl

/-- Two runs that end with the same result end alike. -/
theorem Ends.same {p length : ℕ} {e e' : Execution} {result : Except (ℕ × Stop) HttpParser}
    (h : Ends p length e result) (h' : Ends p length e' result) :
    e.stop = e'.stop ∧ e.returned = e'.returned ∧
      e.parser.toHttpParser.fields = e'.parser.toHttpParser.fields ∧
      (e.stop = none → e.parser.toHttpParser = e'.parser.toHttpParser) := by
  unfold Ends at h h'
  cases result with
  | ok q =>
      obtain ⟨hstop, hreturned, hparser⟩ := h
      obtain ⟨hstop', hreturned', hparser'⟩ := h'
      have hsame := hparser.trans hparser'.symm
      exact ⟨hstop.trans hstop'.symm, hreturned.trans hreturned'.symm, congrArg fields hsame, fun _ => hsame⟩
  | error e =>
      obtain ⟨hstop, hreturned, hparser⟩ := h
      obtain ⟨hstop', hreturned', hparser'⟩ := h'
      refine ⟨hstop.trans hstop'.symm, hreturned.trans hreturned'.symm, hparser.trans hparser'.symm, ?_⟩
      intro hnone
      rw [hstop] at hnone
      cases hnone

/-- Memory in which a parser may be initialised. -/
def someMemory : Counted :=
  ⟨⟨.both, .none, .dead, .general, 0, 0, 0, 0, 0, .delete, false⟩, 0⟩

/-- Where a stream is cut does not matter: two runs over it stop for the same reason behind the same
byte with the same parser, make the same callbacks, and hand out the same bytes of every part, of which
at most the bytes of the part stay behind that was open when a run was stopped. -/
theorem cuts_agree (settings : HttpParser → Int) (memory : Counted) (type : HttpParserType)
    (hindex : memory.index < 256) (hlength : memory.contentLength < 2 ^ 64)
    (pieces pieces' : List (List UInt8)) (h : Pieces pieces) (h' : Pieces pieces')
    (hflatten : pieces.flatten = pieces'.flatten) :
    let e := executeAll settings 0 (init memory type) pieces
    let e' := executeAll settings 0 (init memory type) pieces'
    e.stop = e'.stop ∧ e.returned = e'.returned ∧
      e.parser.toHttpParser.fields = e'.parser.toHttpParser.fields ∧
      (e.stop = none → e.parser.toHttpParser = e'.parser.toHttpParser) ∧
      notices e.events = notices e'.events ∧
      ∀ V, Viewed V → ∃ rest rest', Bytes rest ∧ Bytes rest' ∧
        tokens V.see e.events ++ rest = tokens V.see e'.events ++ rest' ∧
        (e.stop = none → rest = [] ∧ rest' = []) := by
  intro e e'
  have hsteady := steady_init memory type hindex hlength
  have hnread : (init memory type).nread < 256 := by
    show 0 < 256
    decide
  have hends := (executeAll_stream settings (.inl rfl) hsteady hnread h 0).1
  have hends' := (executeAll_stream settings (.inl rfl) hsteady hnread h' 0).1
  rw [← hflatten] at hends'
  obtain ⟨hstop, hreturned, hfields, hparser⟩ := hends.same hends'
  have hview : ∀ V, Viewed V → ∃ rest rest', Bytes rest ∧ Bytes rest' ∧
      tokens V.see e.events ++ rest = tokens V.see e'.events ++ rest' ∧
      (e.stop = none → rest = [] ∧ rest' = []) := by
    intro V hV
    obtain ⟨-, rest, hbytes, htokens, hrest⟩ := executeAll_stream settings hV hsteady hnread h 0
    obtain ⟨-, rest', hbytes', htokens', hrest'⟩ := executeAll_stream settings hV hsteady hnread h' 0
    rw [← hflatten] at htokens'
    refine ⟨rest, rest', hbytes, hbytes', htokens.trans htokens'.symm, fun hnone => ?_⟩
    exact ⟨hrest hnone, hrest' (hstop ▸ hnone)⟩
  refine ⟨hstop, hreturned, hfields, hparser, ?_, hview⟩
  obtain ⟨rest, rest', hbytes, hbytes', htokens, -⟩ := hview parts (.inl rfl)
  have hnotices := congrArg (List.filterMap Token.notice) htokens
  rw [List.filterMap_append, List.filterMap_append, notices_tokens, notices_tokens,
    notices_bytes hbytes, notices_bytes hbytes', List.append_nil, List.append_nil] at hnotices
  exact hnotices

/-- A response, whole and byte by byte. -/
theorem cuts_agree_response :
    let settings := fun _ => 1
    let response := bytes "HTTP/1.1 200 OK\r\nConnection: close\r\n\r\nabc"
    let e := executeAll settings 0 (init someMemory .response) [response]
    let e' := executeAll settings 0 (init someMemory .response) (response.map fun b => [b])
    e.stop = e'.stop ∧ e.returned = e'.returned ∧
      e.parser.toHttpParser.fields = e'.parser.toHttpParser.fields ∧
      (e.stop = none → e.parser.toHttpParser = e'.parser.toHttpParser) ∧
      notices e.events = notices e'.events ∧
      ∀ V, Viewed V → ∃ rest rest', Bytes rest ∧ Bytes rest' ∧
        tokens V.see e.events ++ rest = tokens V.see e'.events ++ rest' ∧
        (e.stop = none → rest = [] ∧ rest' = []) :=
  cuts_agree (fun _ => 1) someMemory .response (by decide) (by decide) _ _ (by decide) (by decide) (by decide)

/-- The check for the limit either does nothing or stops the parser. -/
theorem turn_cases (settings : HttpParser → Int) (c : Counted) :
    (∀ left ch, turn settings c left ch = unlimited settings c left ch) ∨
      ∀ left ch, turn settings c left ch = keep c.count (halt [] .error c.toHttpParser) := by
  by_cases h : c.state.parsingHeader = true ∧ c.count > httpMaxHeaderSize
  · exact Or.inr fun left ch => if_pos h
  · exact Or.inl fun left ch => if_neg h

theorem turn_tracks {V : View HttpParser DataKind} (hV : Viewed V) (settings : HttpParser → Int) :
    Tracks (turn settings) (counted V) := by
  have htracks := hV.tracks settings
  constructor
  · intro c ch d hnext
    rcases turn_cases settings c with heq | heq
    · rw [heq] at hnext ⊢
      exact htracks.ok c ch d hnext
    · rw [heq] at hnext
      cases hnext
  · intro c ch stop hnext
    rcases turn_cases settings c with heq | heq
    · rw [heq] at hnext ⊢
      exact htracks.stop c ch stop hnext
    · rw [heq]
      exact ⟨_, rfl⟩

/-- The check for the limit does nothing in the states in which data are handed out. -/
theorem turn_header (settings : HttpParser → Int) (c : Counted) :
    (∀ left ch, turn settings c left ch = unlimited settings c left ch) ∨
      c.state.parsingHeader = true := by
  by_cases h : c.state.parsingHeader = true
  · exact Or.inr h
  · exact Or.inl fun left ch => if_neg fun hlimit => h hlimit.1

theorem unlimited_header (h : c.state.parsingHeader = true) (left : ℕ) (ch : UInt8) (k : DataKind) (n : ℕ) :
    .report k (n + 1) ∉ (unlimited settings c left ch).actions := by
  have hbody : c.state ∉ [State.bodyIdentity, .bodyIdentityEof, .chunkData] := by
    revert h
    cases c.state <;> decide
  intro hmem
  rw [unlimited, switch_left settings _ _ _ hbody] at hmem
  have hle := unlimited_most hmem
  rw [State.most, if_pos h] at hle
  cases hle

theorem turn_splits (settings : HttpParser → Int) : Splits (turn settings) := by
  intro c
  have hsplits := unlimited_splits settings c
  rcases turn_cases settings c with heq | heq
  · refine ⟨fun n ch => ?_, fun ch k n h => ?_, fun n ch h => ?_, fun n ch m h => ?_⟩
    · rw [heq]
      exact hsplits.pos n ch
    · rw [heq] at h
      exact hsplits.short ch k n h
    · rw [heq] at h ⊢
      rw [heq]
      exact hsplits.one n ch h
    · rw [heq] at h
      obtain ⟨hless, k, tail, s₁, s', hquiet, hturn, hone, hrest⟩ := hsplits.many n ch m h
      refine ⟨hless, k, tail, s₁, s', hquiet, (heq _ _).trans hturn, (heq _ _).trans hone, fun ch' => ?_⟩
      rcases turn_header settings s₁ with heq' | hheader
      · rw [heq', hrest ch']
      · have hnone : .report k (m + 1) ∉ (unlimited settings s₁ n ch').actions :=
          unlimited_header hheader n ch' k m
        rw [hrest ch'] at hnone
        exact absurd List.mem_cons_self hnone
  · refine ⟨fun n ch => ?_, fun ch k n h => ?_, fun n ch _ => ?_, fun n ch m h => ?_⟩
    · rw [heq]
      exact Nat.one_pos
    · rw [heq] at h
      cases h
    · rw [heq, heq]
    · rw [heq] at h
      cases h

/-- What a stop may be about. -/
def Stop.Regular (stop : Stop) : Prop :=
  stop.kind ≠ .assertion ∧ (stop.kind = .undefined → stop.parser.Undefined)

theorem steady_limited (h : Steady c) :
    (∀ d, (turn settings c 1 ch).next = .ok d → Steady d) ∧
      ∀ stop, (turn settings c 1 ch).next = .error stop → stop.Regular := by
  rcases turn_cases settings c with heq | heq
  · have hturn := h.turn settings ch
    rw [heq]
    constructor
    · intro d hnext
      rw [hnext] at hturn
      exact hturn
    · intro stop hnext
      rw [hnext] at hturn
      exact hturn
  · have hnext : (turn settings c 1 ch).next = .error ⟨.error, c.toHttpParser⟩ := by
      rw [heq]
      rfl
    rw [hnext]
    refine ⟨fun d hd => ?_, fun stop hstop => ?_⟩
    · cases hd
    rw [← Except.error.inj hstop]
    exact ⟨StopKind.noConfusion, StopKind.noConfusion⟩

/-- A piece of any length. -/
theorem steady_read (settings : HttpParser → Int) (h : Steady c) (data : List UInt8) :
    (∀ d, (MarkedStream.read (turn settings) opens callbackOrder data c).result = .ok d → Steady d) ∧
      ∀ e, (MarkedStream.read (turn settings) opens callbackOrder data c).result = .error e → e.2.Regular := by
  have hparts : Viewed parts := .inl rfl
  rw [(read_spec (turn_tracks hparts settings) (turn_splits settings) hparts.shows callbackOrder_nodup
    hparts.mem data c).1]
  exact content_invariant (fun c ch d hc => (steady_limited hc).1 d)
    (fun c ch stop hc => (steady_limited hc).2 stop) h 0 data

/-- What a run over pieces of any length may stop for. -/
theorem executeAll_regular (settings : HttpParser → Int) (h : Steady c) (p : ℕ) (pieces : List (List UInt8)) :
    let e := executeAll settings p c pieces
    e.stop ≠ some .assertion ∧
      (e.stop = some .undefined → lax e.parser.method ∨
        e.parser.flags.chunked = true ∧ 2 ^ 63 ≤ e.parser.contentLength) ∧
      (e.stop = none → Steady e.parser) := by
  induction pieces generalizing p c with
  | nil => exact ⟨nofun, nofun, fun _ => h⟩
  | cons data pieces ih =>
      intro e
      have hcall : (∃ events returned d, execute settings c data = ⟨events, returned, d, none⟩ ∧ Steady d) ∨
          ∃ events returned before, ∃ stop : Stop, execute settings c data =
            ⟨events, returned, stop.saved before, some stop.kind⟩ ∧ stop.Regular := by
        by_cases hne : data = []
        · obtain ⟨events, returned, hcall⟩ := execute_nil settings c
          exact Or.inl ⟨events, returned, c, hne ▸ hcall, h⟩
        · obtain ⟨hok, herror⟩ := steady_read settings h data
          cases hresult : (MarkedStream.read (turn settings) opens callbackOrder data c).result with
          | ok d => exact Or.inl ⟨_, _, _, execute_ok hne hresult, (hok d hresult).save.1⟩
          | error e => exact Or.inr ⟨_, _, _, _, execute_error hne hresult, herror e hresult⟩
      rcases hcall with ⟨events, returned, d, hcall, hd⟩ | ⟨events, returned, before, stop, hcall, hstop⟩
      · have he : e = ⟨events ++ (executeAll settings (p + data.length) d pieces).events,
            (executeAll settings (p + data.length) d pieces).returned,
            (executeAll settings (p + data.length) d pieces).parser,
            (executeAll settings (p + data.length) d pieces).stop⟩ := by
          show executeAll settings p c (data :: pieces) = _
          rw [executeAll, hcall]
        rw [he]
        exact ih hd (p + data.length)
      · have he : e = ⟨events, p + returned, stop.saved before, some stop.kind⟩ := by
          show executeAll settings p c (data :: pieces) = _
          rw [executeAll, hcall]
        rw [he]
        refine ⟨fun hkind => hstop.1 (Option.some.inj hkind), fun hkind => ?_, nofun⟩
        rcases hstop.2 (Option.some.inj hkind) with ⟨-, hlax, -⟩ | ⟨-, hlarge⟩
        · exact Or.inl hlax
        · exact Or.inr hlarge

/-- In no run over pieces of any length does an assertion fail, and it leaves what C defines only in a
method that begins like `CONNECT` or `MKCOL` and goes on beyond its last character, and in a chunk of
`2 ^ 63` bytes or more. -/
theorem asserts_hold (settings : HttpParser → Int) (memory : Counted) (type : HttpParserType)
    (hindex : memory.index < 256) (hlength : memory.contentLength < 2 ^ 64) (pieces : List (List UInt8)) :
    let e := executeAll settings 0 (init memory type) pieces
    e.stop ≠ some .assertion ∧
      (e.stop = some .undefined → lax e.parser.method ∨
        e.parser.flags.chunked = true ∧ 2 ^ 63 ≤ e.parser.contentLength) :=
  have hregular := executeAll_regular settings (steady_init memory type hindex hlength) 0 pieces
  ⟨hregular.1, hregular.2.1⟩

/-- A method that is longer than `CONNECT`. -/
theorem asserts_hold_connect :
    let e := executeAll (fun _ => 0) 0 (init someMemory .request) [bytes "CONNECT", bytes "ION "]
    e.stop ≠ some .assertion ∧
      (e.stop = some .undefined → lax e.parser.method ∨
        e.parser.flags.chunked = true ∧ 2 ^ 63 ≤ e.parser.contentLength) :=
  asserts_hold (fun _ => 0) someMemory .request (by decide) (by decide) _

end OsHomeworks.WebServer.HttpParser
