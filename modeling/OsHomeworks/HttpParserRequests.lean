import OsHomeworks.HttpParserHeaders

/-! The first line and the headers of a request in the form that a client sends them, and how the HTTP
parser reads them. -/

namespace OsHomeworks.WebServer.HttpParser

open CallLog CallLog.Logged MarkedStream

variable {settings : HttpParser → Int} {V : View HttpParser DataKind} {p q : HttpParser} {ch : UInt8}

/-- The parser in front of a request. -/
structure Ready (p : HttpParser) : Prop where
  state : p.state = .startReq
  type : p.type = .request
  upgrade : p.upgrade = false

/-- Every method is known. -/
theorem method_reads (settings : HttpParser → Int) (hV : Viewed V) (hp : Ready p) (m : HttpMethod) :
    Reads (bare settings) V p (m.string ++ [chr ' ']) [.notify .messageBegin]
      { p.beginMessage with
        method := m, index := m.string.length + 1, state := .reqSpacesBeforeUrl } := by
  obtain ⟨type, flags, state, hs, index, contentLength, major, minor, status, method, upgrade⟩ := p
  obtain ⟨rfl, rfl, rfl⟩ := hp
  intro i
  rcases hV with rfl | rfl <;> cases m <;> rfl

/-- What is handed out of a part of a URL. -/
def shown (V : View HttpParser DataKind) (o : Option DataKind) (w : List UInt8) :
    List (Token DataKind Notice) :=
  (match o with
    | some k => part V k w
    | none => []) ++ part V .url w

theorem shown_nil (V : View HttpParser DataKind) (o : Option DataKind) : shown V o [] = [] := by
  cases o with
  | none => exact part_nil .url
  | some k => exact congrArg₂ (· ++ ·) (part_nil k) (part_nil .url)

theorem shown_append (hV : Viewed V) {o : Option DataKind} (ho : o ≠ some .url) (w w' : List UInt8) :
    shown V o (w ++ w') = shown V o w ++ shown V o w' := by
  rcases hV with rfl | rfl
  · have hurl : ∀ w, part parts .url w = [] := fun _ => rfl
    simp only [shown, hurl, List.append_nil]
    cases o with
    | none => rfl
    | some k => exact part_append k w w'
  · have hnone : ∀ w, (match o with
        | some k => part urls k w
        | none => []) = [] := by
      intro w
      cases o with
      | none => rfl
      | some k => exact if_neg fun hk => ho (congrArg some (of_decide_eq_true hk))
    simp only [shown, hnone, List.nil_append]
    exact part_append .url w w'

/-- One byte of a URL. -/
theorem reads_shown {actions : List (Action DataKind Notice)} (hV : Viewed V)
    (h : bare settings p 1 ch = go actions q) (hnotes : ∀ bytes, notes V.see bytes actions = [])
    (hurl : q.state ∈ inUrl) : Reads (bare settings) V p [ch] (shown V q.state.part [ch]) q := by
  have hgo := reads_go (V := V) h
  rw [hnotes, hV.here, if_pos hurl] at hgo
  exact hgo

/-- Bytes of a part of a URL. -/
theorem reads_inside (hV : Viewed V) {w : List UInt8} (hurl : p.state ∈ inUrl)
    (h : ∀ b ∈ w, bare settings p 1 b = go [] p) :
    Reads (bare settings) V p w (shown V p.state.part w) p := by
  have hpart : p.state.part ≠ some .url := by
    cases p.state <;> decide
  induction w with
  | nil =>
      rw [shown_nil]
      exact reads_nil p
  | cons b w ih =>
      obtain ⟨hb, hw⟩ := List.forall_mem_cons.mp h
      have hboth := (reads_shown (V := V) hV hb (fun _ => rfl) hurl).append (ih hw)
      rw [← shown_append hV hpart] at hboth
      exact hboth

/-- What a request asks for: a path, behind it what begins with `?`, and what begins with `#`. -/
structure Target where
  path : List UInt8
  query : Option (List UInt8)
  fragment : Option (List UInt8)
  path_start : path.head? = some (chr '/') ∨ path.head? = some (chr '*')
  path_url : ∀ b ∈ path, normalUrlChar b = true
  query_url : ∀ w ∈ query, ∀ b ∈ w, normalUrlChar b = true ∨ b = chr '?'
  fragment_url : ∀ w ∈ fragment, ∀ b ∈ w, normalUrlChar b = true ∨ b = chr '?' ∨ b = chr '#'

/-- What is behind the path, with the character in front of it. -/
def marked (c : UInt8) : Option (List UInt8) → List UInt8
  | none => []
  | some w => c :: w

def Target.url (t : Target) : List UInt8 :=
  t.path ++ marked (chr '?') t.query ++ marked (chr '#') t.fragment

/-- A part of a URL, which begins behind the last of the characters in front of it. -/
def unmarked (c : UInt8) : Option (List UInt8) → List UInt8
  | none => []
  | some w => w.dropWhile (· = c)

/-- What is handed out of a target. -/
def Target.tokens (V : View HttpParser DataKind) (t : Target) : List (Token DataKind Notice) :=
  part V .url t.url ++ part V .path t.path ++ part V .queryString (unmarked (chr '?') t.query) ++
    part V .fragment (unmarked (chr '#') t.fragment)

theorem path_reads (settings : HttpParser → Int) (hV : Viewed V) (hstate : p.state = .reqSpacesBeforeUrl)
    (t : Target) :
    Reads (bare settings) V p t.path (shown V (some .path) t.path) { p with state := .reqPath } := by
  obtain ⟨c, rest, hpath⟩ : ∃ c rest, t.path = c :: rest := by
    cases hpath : t.path with
    | nil => exact t.path_start.elim (fun h => by rw [hpath] at h; cases h) fun h => by rw [hpath] at h; cases h
    | cons c rest => exact ⟨c, rest, rfl⟩
  have hstart := t.path_start
  have hchars := t.path_url
  rw [hpath, List.head?_cons, Option.some_inj, Option.some_inj] at hstart
  rw [hpath] at hchars ⊢
  have hc : bare settings p 1 c = go [.mark .url, .mark .path] { p with state := .reqPath } := by
    have hblank : c ≠ chr ' ' := by
      rcases hstart with rfl | rfl <;> decide
    rw [bare_plain (by rw [hstate]; decide), plainCase, hstate]
    simp only [reqSpacesBeforeUrl, if_neg hblank, if_pos hstart]
  have hfirst := reads_shown (V := V) hV hc (fun _ => rfl) (by dsimp only; decide)
  have hrest : ∀ b ∈ rest, bare settings { p with state := .reqPath } 1 b =
      go [] { p with state := .reqPath } := by
    intro b hb
    have hnormal := hchars b (List.mem_cons_of_mem c hb)
    rw [bare_plain (by dsimp only; decide)]
    show reqPath { p with state := .reqPath } b = _
    rw [reqPath, if_pos hnormal]
  have hboth := hfirst.append (reads_inside hV (by dsimp only; decide) hrest)
  rw [← shown_append hV (by dsimp only; decide)] at hboth
  exact hboth

/-- What is handed out of a part of a URL that begins behind the last of the characters in front of it. -/
def shownMarked (V : View HttpParser DataKind) (c : UInt8) (k : DataKind) (o : Option (List UInt8)) :
    List (Token DataKind Notice) :=
  match o with
  | none => []
  | some w => shown V none (c :: w.takeWhile (· = c)) ++ shown V (some k) (w.dropWhile (· = c))

/-- A part that begins behind the character `c`: `start` is the state until its first character, `inside`
the one from there on. -/
theorem marked_reads (settings : HttpParser → Int) (hV : Viewed V) {c : UInt8} {k : DataKind}
    (start inside : State) (hk : k ≠ .url) (hstart : start.part = none ∧ start ∈ inUrl)
    (hinside : inside.part = some k ∧ inside ∈ inUrl) {w : List UInt8}
    {actions : List (Action DataKind Notice)}
    (hc : bare settings p 1 c = go actions { p with state := start })
    (hactions : ∀ bytes, notes V.see bytes actions = [])
    (hstay : bare settings { p with state := start } 1 c = go [] { p with state := start })
    (hfirst : ∀ b ∈ w, b ≠ c → bare settings { p with state := start } 1 b =
      go [.mark k] { p with state := inside })
    (hmore : ∀ b ∈ w, bare settings { p with state := inside } 1 b = go [] { p with state := inside }) :
    ∃ s, (s = start ∨ s = inside) ∧ Reads (bare settings) V p (c :: w) (shownMarked V c k (some w))
      { p with state := s } := by
  have hsplit : c :: w = (c :: w.takeWhile (· = c)) ++ w.dropWhile (· = c) := by
    rw [List.cons_append, List.takeWhile_append_dropWhile]
  have hlead : Reads (bare settings) V p (c :: w.takeWhile (· = c))
      (shown V none (c :: w.takeWhile (· = c))) { p with state := start } := by
    have hone := reads_shown (V := V) hV hc hactions hstart.2
    have hmany : Reads (bare settings) V { p with state := start } (w.takeWhile (· = c))
        (shown V start.part (w.takeWhile (· = c))) { p with state := start } :=
      reads_inside hV hstart.2 fun b hb => by
        have htake := List.mem_takeWhile_imp hb
        rw [of_decide_eq_true htake]
        exact hstay
    have hboth := hone.append hmany
    rw [hstart.1, ← shown_append hV (by decide)] at hboth
    exact hboth
  rw [hsplit, shownMarked]
  cases hdrop : w.dropWhile (· = c) with
  | nil =>
      refine ⟨start, Or.inl rfl, ?_⟩
      rw [shown_nil, List.append_nil, List.append_nil]
      exact hlead
  | cons b rest =>
      have hmem : ∀ a ∈ b :: rest, a ∈ w := fun a ha => (List.dropWhile_suffix _).subset (hdrop ▸ ha)
      have hb : b ≠ c := by
        have hhead := List.head?_dropWhile_not (· = c) w
        rw [hdrop] at hhead
        simpa using hhead
      refine ⟨inside, Or.inr rfl, hlead.append ?_⟩
      have hone := reads_shown (V := V) hV (hfirst b (hmem b List.mem_cons_self) hb) (fun _ => rfl) hinside.2
      have hrest := reads_inside (V := V) hV hinside.2 fun a ha => hmore a (hmem a (List.mem_cons_of_mem b ha))
      have hboth := hone.append hrest
      rw [hinside.1, ← shown_append hV fun h => hk (Option.some.inj h)] at hboth
      exact hboth

/-- What is handed out of a target in the order of its bytes. -/
theorem target_tokens (hV : Viewed V) (t : Target) :
    shown V (some .path) t.path ++ shownMarked V (chr '?') .queryString t.query ++
      shownMarked V (chr '#') .fragment t.fragment = t.tokens V := by
  have hmarked : ∀ (c : UInt8) (k : DataKind) (o : Option (List UInt8)), k ≠ .url →
      (V = parts → shownMarked V c k o = part V k (unmarked c o)) ∧
        (V = urls → shownMarked V c k o = part V .url (marked c o)) := by
    intro c k o hk
    constructor
    · rintro rfl
      cases o with
      | none => exact (part_nil k).symm
      | some w => exact List.append_nil _
    · rintro rfl
      have hpart : ∀ w, part urls k w = [] := fun w => if_neg fun h => hk (of_decide_eq_true h)
      cases o with
      | none => rfl
      | some w =>
          show part urls .url (c :: w.takeWhile (· = c)) ++ (part urls k _ ++ part urls .url _) = part urls .url (c :: w)
          rw [hpart, List.nil_append, ← part_append, List.cons_append, List.takeWhile_append_dropWhile]
  have hquery := hmarked (chr '?') .queryString t.query nofun
  have hfragment := hmarked (chr '#') .fragment t.fragment nofun
  unfold Target.tokens Target.url
  rcases hV with rfl | rfl
  · rw [hquery.1 rfl, hfragment.1 rfl]
    exact congrArg (· ++ _ ++ _) (List.append_nil _)
  · have hpath : ∀ w, part urls .path w = [] := fun _ => rfl
    have hquery' : ∀ w, part urls .queryString w = [] := fun _ => rfl
    have hfragment' : ∀ w, part urls .fragment w = [] := fun _ => rfl
    rw [hquery.2 rfl, hfragment.2 rfl, part_append, part_append, hquery', hfragment', shown, hpath]
    simp only [List.append_nil, List.nil_append]

/-- The states behind a target. -/
def behindTarget : List State :=
  [.reqPath, .reqQueryStringStart, .reqQueryString, .reqFragmentStart, .reqFragment]

theorem target_plain (settings : HttpParser → Int) (p : HttpParser) (ch : UInt8) :
    ∀ s ∈ behindTarget, bare settings { p with state := s } 1 ch = plainCase { p with state := s } 1 ch := by
  intro s hs
  apply bare_plain
  dsimp only
  revert s
  decide

theorem query_reads (settings : HttpParser → Int) (hV : Viewed V) (hstate : p.state = .reqPath) (t : Target) :
    ∃ s ∈ [State.reqPath, .reqQueryStringStart, .reqQueryString],
      Reads (bare settings) V p (marked (chr '?') t.query) (shownMarked V (chr '?') .queryString t.query)
        { p with state := s } := by
  have hchars := t.query_url
  cases hquery : t.query with
  | none =>
      refine ⟨.reqPath, by decide, ?_⟩
      rw [← hstate]
      exact reads_nil p
  | some w =>
      replace hchars := hchars w hquery
      have hc : bare settings p 1 (chr '?') = go [.callback .path] { p with state := .reqQueryStringStart } := by
        rw [bare_plain (by rw [hstate]; decide), plainCase, hstate]
        rfl
      obtain ⟨s, hs, hreads⟩ := marked_reads (k := .queryString) (w := w) settings hV
        .reqQueryStringStart .reqQueryString (by decide) ⟨rfl, by decide⟩ ⟨rfl, by decide⟩ hc
        (fun _ => rfl) (target_plain settings p _ _ (by decide))
        (fun b hb hne => by
          rw [target_plain settings p b _ (by decide)]
          show reqQueryStringStart { p with state := .reqQueryStringStart } b = _
          rw [reqQueryStringStart, if_pos ((hchars b hb).resolve_right hne)])
        (fun b hb => by
          rw [target_plain settings p b _ (by decide)]
          show reqQueryString { p with state := .reqQueryString } b = _
          unfold reqQueryString
          rcases hchars b hb with hnormal | hmark
          · rw [if_pos hnormal]
          · rw [hmark]
            rfl)
      exact ⟨s, by rcases hs with rfl | rfl <;> decide, hreads⟩

theorem fragment_reads (settings : HttpParser → Int) (hV : Viewed V) {s : State}
    (hs : s ∈ [State.reqPath, .reqQueryStringStart, .reqQueryString]) (hstate : p.state = s) (t : Target) :
    ∃ s ∈ behindTarget,
      Reads (bare settings) V p (marked (chr '#') t.fragment) (shownMarked V (chr '#') .fragment t.fragment)
        { p with state := s } := by
  have hchars := t.fragment_url
  have hbehind : ∀ s ∈ [State.reqPath, .reqQueryStringStart, .reqQueryString], s ∈ behindTarget ∧
      s ∉ [State.headerFieldStart, .headersAlmostDone, .chunkSizeStart, .chunkSizeAlmostDone] := by
    decide
  cases hfragment : t.fragment with
  | none =>
      refine ⟨s, (hbehind s hs).1, ?_⟩
      rw [← hstate]
      exact reads_nil p
  | some w =>
      replace hchars := hchars w hfragment
      obtain ⟨actions, hc, hactions⟩ : ∃ actions : List (Action DataKind Notice),
          bare settings p 1 (chr '#') = go actions { p with state := .reqFragmentStart } ∧
            ∀ bytes, notes V.see bytes actions = [] := by
        rw [bare_plain (by rw [hstate]; exact (hbehind s hs).2), plainCase, hstate]
        simp only [List.mem_cons, List.not_mem_nil, or_false] at hs
        rcases hs with rfl | rfl | rfl
        · exact ⟨_, rfl, fun _ => rfl⟩
        · exact ⟨_, rfl, fun _ => rfl⟩
        · exact ⟨_, rfl, fun _ => rfl⟩
      obtain ⟨s', hs', hreads⟩ := marked_reads (k := .fragment) (w := w) settings hV
        .reqFragmentStart .reqFragment (by decide) ⟨rfl, by decide⟩ ⟨rfl, by decide⟩ hc
        hactions (target_plain settings p _ _ (by decide))
        (fun b hb hne => by
          rw [target_plain settings p b _ (by decide)]
          show reqFragmentStart { p with state := .reqFragmentStart } b = _
          unfold reqFragmentStart
          rcases hchars b hb with hnormal | hmark | hmark
          · rw [if_pos hnormal]
          · rw [hmark]
            rfl
          · exact absurd hmark hne)
        (fun b hb => by
          rw [target_plain settings p b _ (by decide)]
          show reqFragment { p with state := .reqFragment } b = _
          unfold reqFragment
          rcases hchars b hb with hnormal | hmark | hmark
          · rw [if_pos hnormal]
          · rw [hmark]
            rfl
          · rw [hmark]
            rfl)
      exact ⟨s', by rcases hs' with rfl | rfl <;> decide, hreads⟩

/-- A target and the blank behind it. -/
theorem target_reads (settings : HttpParser → Int) (hV : Viewed V) (hstate : p.state = .reqSpacesBeforeUrl)
    (t : Target) :
    Reads (bare settings) V p (t.url ++ [chr ' ']) (t.tokens V) { p with state := .reqHttpStart } := by
  have hpath := path_reads settings hV hstate t
  obtain ⟨s, hs, hquery⟩ := query_reads (V := V) (p := { p with state := .reqPath }) settings hV rfl t
  obtain ⟨s', hs', hfragment⟩ := fragment_reads (V := V) (p := { p with state := s }) settings hV hs rfl t
  have hblank : Reads (bare settings) V { p with state := s' } [chr ' '] [] { p with state := .reqHttpStart } := by
    have hturn : ∃ actions : List (Action DataKind Notice),
        bare settings { p with state := s' } 1 (chr ' ') = go actions { p with state := .reqHttpStart } ∧
          ∀ bytes, notes V.see bytes actions = [] := by
      rw [target_plain settings p _ s' hs']
      simp only [behindTarget, List.mem_cons, List.not_mem_nil, or_false] at hs'
      rcases hs' with rfl | rfl | rfl | rfl | rfl <;> exact ⟨_, rfl, fun _ => rfl⟩
    obtain ⟨actions, hturn, hnotes⟩ := hturn
    exact reads_silent hV hturn hnotes rfl (by dsimp only; decide)
  have hall := ((hpath.append hquery).append hfragment).append hblank
  rw [List.append_nil, target_tokens hV] at hall
  exact hall

/-- The major and the minor number of a version, in one digit each. -/
structure Version where
  major : UInt8
  minor : UInt8
  major_digit : chr '1' ≤ major ∧ major ≤ chr '9'
  minor_digit : chr '0' ≤ minor ∧ minor ≤ chr '9'

/-- What is written behind a target. -/
def Version.line (v : Version) : List UInt8 :=
  bytes "HTTP/" ++ [v.major, chr '.', v.minor, cr, lf]

theorem version_reads (settings : HttpParser → Int) (hV : Viewed V) (hstate : p.state = .reqHttpStart)
    (v : Version) :
    Reads (bare settings) V p v.line [] { p with
      state := .headerFieldStart
      httpMajor := (v.major - chr '0').toNat
      httpMinor := (v.minor - chr '0').toNat } := by
  let p₁ : HttpParser := { p with state := .reqFirstHttpMajor }
  let p₂ : HttpParser := { p with state := .reqHttpMajor, httpMajor := (v.major - chr '0').toNat }
  let p₃ : HttpParser := { p₂ with state := .reqFirstHttpMinor }
  let p₄ : HttpParser := { p₂ with state := .reqHttpMinor, httpMinor := (v.minor - chr '0').toNat }
  have hname : Reads (bare settings) V p (bytes "HTTP/") [] p₁ := by
    obtain ⟨type, flags, state, hs, index, contentLength, major, minor, status, method, upgrade⟩ := p
    obtain rfl := hstate
    intro i
    rcases hV with rfl | rfl <;> rfl
  have hmajor : bare settings p₁ 1 v.major = go [] p₂ := by
    rw [bare_plain (by dsimp only [p₁]; decide)]
    have hdigit : ¬(v.major < chr '1' ∨ v.major > chr '9') :=
      not_or.mpr ⟨UInt8.not_lt.mpr v.major_digit.1, UInt8.not_lt.mpr v.major_digit.2⟩
    exact if_neg hdigit
  have hdot : bare settings p₂ 1 (chr '.') = go [] p₃ := by
    rw [bare_plain (by dsimp only [p₂]; decide)]
    rfl
  have hminor : bare settings p₃ 1 v.minor = go [] p₄ := by
    rw [bare_plain (by dsimp only [p₃]; decide)]
    show firstHttpMinor .reqHttpMinor p₃ v.minor = _
    rw [firstHttpMinor, digit, if_pos v.minor_digit]
  have hend : Reads (bare settings) V p₄ [cr, lf] [] { p₄ with state := .headerFieldStart } := by
    intro i
    rcases hV with rfl | rfl <;> rfl
  have hnumbers := (reads_silent (V := V) hV hmajor (fun _ => rfl) rfl (by dsimp only [p₂]; decide)).append
    ((reads_silent hV hdot (fun _ => rfl) rfl (by dsimp only [p₃]; decide)).append
      ((reads_silent hV hminor (fun _ => rfl) rfl (by dsimp only [p₄]; decide)).append hend))
  exact hname.append hnumbers

/-- What the headers say. -/
def meanings (headers : List Header) : List Meaning := headers.filterMap Header.meaning

/-- The length that counts: the last one. -/
def lengthOf : List Meaning → Option ℕ
  | [] => none
  | .length n :: rest => some ((lengthOf rest).getD n)
  | _ :: rest => lengthOf rest

/-- A request up to the empty line. -/
structure Head where
  method : HttpMethod
  target : Target
  version : Version
  headers : List Header
  taken : ∀ h ∈ headers, h.meaning ≠ none

def Head.meanings (h : Head) : List Meaning := HttpParser.meanings h.headers

/-- What is sent of it, without the empty line. -/
def Head.lines (h : Head) : List UInt8 :=
  h.method.string ++ [chr ' '] ++ (h.target.url ++ [chr ' ']) ++ h.version.line ++ h.headers.flatMap Header.line

/-- What is handed out of it. -/
def Head.tokens (V : View HttpParser DataKind) (h : Head) : List (Token DataKind Notice) :=
  .notify .messageBegin :: (h.target.tokens V ++ h.headers.flatMap (Header.tokens V))

/-- What the parser knows of a request whose headers said `ms`; `trailing` is set behind a chunked
body. -/
structure Knows (h : Head) (trailing : Bool) (ms : List Meaning) (p : HttpParser) : Prop where
  type : p.type = .request
  upgrade : p.upgrade = false
  method : p.method = h.method
  major : p.httpMajor = (h.version.major - chr '0').toNat
  minor : p.httpMinor = (h.version.minor - chr '0').toNat
  flags : p.flags = {
    chunked := .chunked ∈ ms
    connectionKeepAlive := .keepAlive ∈ ms
    connectionClose := .close ∈ ms
    trailing := trailing
    upgrade := .upgrade ∈ ms
    skipbody := false }

/-- The same between two of its headers. -/
structure Says (h : Head) (trailing : Bool) (ms : List Meaning) (p : HttpParser) : Prop
    extends Knows h trailing ms p where
  state : p.state = .headerFieldStart
  length : trailing = false → p.contentLength = (lengthOf ms).getD noContentLength

theorem lengthOf_append (ms : List Meaning) (m : Meaning) :
    lengthOf (ms ++ [m]) =
      match m with
      | .length n => some n
      | _ => lengthOf ms := by
  induction ms with
  | nil => cases m <;> rfl
  | cons a ms ih =>
      cases a with
      | length k =>
          rw [List.cons_append, lengthOf, ih]
          cases m <;> rfl
      | other | chunked | keepAlive | close | upgrade =>
          rw [List.cons_append, lengthOf, ih]
          · cases m <;> rfl
          · nofun

/-- One more header. -/
theorem Says.apply {h : Head} {trailing : Bool} {ms : List Meaning} (hp : Says h trailing ms p) (m : Meaning)
    (i : ℕ) (hs : HeaderState) :
    Says h trailing (ms ++ [m]) { m.apply p with index := i, headerState := hs } := by
  have hlength := lengthOf_append ms m
  have hflags := hp.flags
  cases m with
  | length n =>
      refine ⟨⟨hp.type, hp.upgrade, hp.method, hp.major, hp.minor, ?_⟩, hp.state, fun _ => ?_⟩
      · simpa [Meaning.apply] using hflags
      · rw [hlength]
        rfl
  | other | chunked | keepAlive | close | upgrade =>
      refine ⟨⟨hp.type, hp.upgrade, hp.method, hp.major, hp.minor, ?_⟩, hp.state, fun ht => ?_⟩
      · simp [Meaning.apply, hflags]
      · rw [hlength]
        exact hp.length ht

/-- The headers of a request, or those behind its body. -/
theorem headers_reads (settings : HttpParser → Int) (hV : Viewed V) {h : Head} {trailing : Bool}
    {ms : List Meaning} (hp : Says h trailing ms p) {headers : List Header}
    (htaken : ∀ h ∈ headers, h.meaning ≠ none) :
    ∃ q, Reads (bare settings) V p (headers.flatMap Header.line) (headers.flatMap (Header.tokens V)) q ∧
      Says h trailing (ms ++ meanings headers) q := by
  induction headers generalizing p ms with
  | nil =>
      refine ⟨p, reads_nil p, ?_⟩
      rw [meanings, List.filterMap_nil, List.append_nil]
      exact hp
  | cons a headers ih =>
      obtain ⟨ha, hrest⟩ := List.forall_mem_cons.mp htaken
      obtain ⟨m, hm⟩ := Option.ne_none_iff_exists'.mp ha
      obtain ⟨i, hs, hreads⟩ := header_reads settings hV a hp.state hm
      obtain ⟨q, hq, hsaid⟩ := ih (hp.apply m i hs) hrest
      refine ⟨q, ?_, ?_⟩
      · rw [List.flatMap_cons, List.flatMap_cons]
        exact hreads.append hq
      · rw [meanings, List.filterMap_cons_some hm, List.append_cons]
        exact hsaid

theorem head_reads (settings : HttpParser → Int) (hV : Viewed V) (hp : Ready p) (h : Head) :
    ∃ q, Reads (bare settings) V p h.lines (h.tokens V) q ∧ Says h false h.meanings q := by
  have hmethod := method_reads settings hV hp h.method
  have htarget := target_reads (V := V) (p := { p.beginMessage with
    method := h.method, index := h.method.string.length + 1, state := .reqSpacesBeforeUrl }) settings hV rfl
    h.target
  have hversion := version_reads (V := V) (p := { p.beginMessage with
    method := h.method, index := h.method.string.length + 1, state := .reqHttpStart }) settings hV rfl h.version
  have hstart : Says h false [] { p.beginMessage with
      method := h.method, index := h.method.string.length + 1, state := .headerFieldStart
      httpMajor := (h.version.major - chr '0').toNat, httpMinor := (h.version.minor - chr '0').toNat } :=
    ⟨⟨hp.type, hp.upgrade, rfl, rfl, rfl, rfl⟩, rfl, fun _ => rfl⟩
  obtain ⟨q, hheaders, hsaid⟩ := headers_reads (V := V) settings hV hstart h.taken
  refine ⟨q, ?_, hsaid⟩
  have hall := ((hmethod.append htarget).append hversion).append hheaders
  rw [List.append_nil] at hall
  exact hall

end OsHomeworks.WebServer.HttpParser
