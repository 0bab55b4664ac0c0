import OsHomeworks.HttpParserRequests

/-! The bodies of requests, and what the HTTP parser hands out of a stream of whole requests. -/

namespace OsHomeworks.WebServer.HttpParser

open CallLog CallLog.Logged MarkedStream

variable {settings : HttpParser → Int} {V : View HttpParser DataKind} {p q : HttpParser} {ch : UInt8}

/-- There is no `on_headers_complete`. -/
def noCallback : HttpParser → Int := fun _ => 0

/-- A request is followed by another one. -/
def Persists (v : Version) (ms : List Meaning) : Prop :=
  if v.minor = chr '0' then .keepAlive ∈ ms else .close ∉ ms

instance (v : Version) (ms : List Meaning) : Decidable (Persists v ms) :=
  inferInstanceAs (Decidable (if v.minor = chr '0' then _ else _))

/-- The parser behind a request. -/
structure Over (h : Head) (trailing : Bool) (ms : List Meaning) (p : HttpParser) : Prop
    extends Knows h trailing ms p where
  state : p.state = if Persists h.version ms then .startReq else .dead

theorem digit_pos {b : UInt8} (h : chr '0' ≤ b) : (b - chr '0').toNat > 0 ↔ b ≠ chr '0' := by
  have hlow : (chr '0').toNat ≤ b.toNat := h
  have hsub : (b - chr '0').toNat = b.toNat - (chr '0').toNat := UInt8.toNat_sub_of_le _ _ h
  rw [hsub, gt_iff_lt, Nat.sub_pos_iff_lt, ne_eq, ← UInt8.toNat_inj]
  omega

theorem Knows.newMessage {h : Head} {trailing : Bool} {ms : List Meaning} (hp : Knows h trailing ms p) :
    p.newMessage = if Persists h.version ms then .startReq else .dead := by
  have hmajor : p.httpMajor > 0 := by
    rw [hp.major, digit_pos (UInt8.le_trans (by decide) h.version.major_digit.1)]
    intro hzero
    exact absurd h.version.major_digit.1 (hzero ▸ by decide)
  have hminor : p.httpMinor > 0 ↔ h.version.minor ≠ chr '0' := by
    rw [hp.minor, digit_pos h.version.minor_digit.1]
  have hstart : p.startState = .startReq := if_pos hp.type
  have hkeep : p.shouldKeepAlive = true ↔ Persists h.version ms := by
    unfold shouldKeepAlive Persists
    by_cases hzero : h.version.minor = chr '0'
    · rw [if_pos hzero, if_neg fun hboth => hminor.mp hboth.2 hzero, hp.flags]
      exact decide_eq_true_iff
    · rw [if_neg hzero, if_pos ⟨hmajor, hminor.mpr hzero⟩, hp.flags]
      simp
  unfold HttpParser.newMessage
  rw [hstart]
  by_cases hpersists : Persists h.version ms
  · rw [if_pos (hkeep.mpr hpersists), if_pos hpersists]
  · rw [if_neg (mt hkeep.mp hpersists), if_neg hpersists]

/-- A turn in which nothing is open but notifications are made. -/
theorem reads_notes {actions : List (Action DataKind Notice)} (hV : Viewed V)
    (h : bare settings p 1 ch = go actions q) (hpart : q.state.part = none) (hurl : q.state ∉ inUrl) :
    Reads (bare settings) V p [ch] (notes V.see [ch] actions) q := by
  have hgo := reads_go (V := V) h
  rw [hV.here, hpart, if_neg hurl, List.append_nil, List.append_nil] at hgo
  exact hgo

theorem emptyLine_starts (settings : HttpParser → Int) (hstate : p.state = .headerFieldStart) :
    bare settings p 1 cr = go [] { p with state := .headersAlmostDone } := by
  unfold bare switch headerFieldStart
  simp only [hstate]
  rfl

/-- The empty line behind the headers. -/
theorem emptyLine_turns {h : Head} {ms : List Meaning} (hp : Says h false ms p) (hconnect : h.method ≠ .connect)
    (hupgrade : .upgrade ∉ ms) :
    bare noCallback p 1 cr = go [] { p with state := .headersAlmostDone } ∧
      bare noCallback { p with state := .headersAlmostDone } 1 lf =
        headersDone { p with state := .headersAlmostDone } := by
  have hflags := hp.flags
  constructor
  · exact emptyLine_starts noCallback hp.state
  · have htrailing : p.flags.trailing = false := by rw [hflags]
    have hnone : ¬(p.flags.upgrade = true ∨ p.method = .connect) := by
      rw [hflags, hp.method]
      exact not_or.mpr ⟨fun hmem => hupgrade (of_decide_eq_true hmem), hconnect⟩
    show forget (headersAlmostDone noCallback { p with state := .headersAlmostDone } 1 lf) = _
    rw [headersAlmostDone, if_neg (not_not.mpr rfl)]
    rw [if_neg (by dsimp only; rw [htrailing]; decide), forget_keep, headersComplete]
    rw [if_neg hnone]
    exact if_pos rfl

/-- The empty line and what the turn behind it does. -/
theorem emptyLine_reads {h : Head} {ms : List Meaning} (hV : Viewed V) (hp : Says h false ms p)
    (hconnect : h.method ≠ .connect) (hupgrade : .upgrade ∉ ms) {actions : List (Action DataKind Notice)}
    (hdone : headersDone { p with state := .headersAlmostDone } = go actions q) (hpart : q.state.part = none)
    (hurl : q.state ∉ inUrl) :
    Reads (bare noCallback) V p [cr, lf] (notes V.see [lf] actions) q := by
  obtain ⟨hcr, hlf⟩ := emptyLine_turns hp hconnect hupgrade
  exact (reads_silent hV hcr (fun _ => rfl) rfl (by dsimp only; decide)).append
    (reads_notes hV (hlf.trans hdone) hpart hurl)

theorem Knows.done {h : Head} {ms : List Meaning} (hp : Knows h false ms p) :
    headersDone p =
      if .chunked ∈ ms then go [.notify .headersComplete] { p with state := .chunkSizeStart }
      else if p.contentLength = 0 then
        go [.notify .headersComplete, .notify .messageComplete] { p with state := p.newMessage }
      else go [.notify .headersComplete] { p with state := .bodyIdentity } := by
  have hupgrade : ¬p.upgrade = true := by
    rw [hp.upgrade]
    decide
  have hskipbody : ¬p.flags.skipbody = true := by
    rw [hp.flags]
    exact Bool.false_ne_true
  have hchunked : p.flags.chunked = true ↔ .chunked ∈ ms := by
    rw [hp.flags]
    exact decide_eq_true_iff
  unfold headersDone
  rw [if_neg hupgrade, if_neg hskipbody]
  by_cases hmem : .chunked ∈ ms
  · rw [if_pos (hchunked.mpr hmem), if_pos hmem]
  · rw [if_neg (mt hchunked.mp hmem), if_neg hmem]
    by_cases hzero : p.contentLength = 0
    · rw [if_pos hzero, if_pos hzero]
    · rw [if_neg hzero, if_neg hzero, if_pos (Nat.pos_of_ne_zero hzero)]

theorem notes_report (n : ℕ) (tail : List (Action DataKind Notice)) (b : UInt8) :
    notes V.see [b] (.report .body (n + 1) :: tail) = part V .body [b] ++ notes V.see [b] tail := by
  rw [notes, List.take_of_length_le (Nat.le_add_left 1 n)]
  rfl

theorem identity_turn (settings : HttpParser → Int) (hstate : p.state = .bodyIdentity) (b : UInt8) :
    bare settings p 1 b = bodyIdentity p 1 := by
  have hcase : plainCase p 1 b = bodyIdentity p 1 := by
    unfold plainCase
    rw [hstate]
  rw [bare_plain (by rw [hstate]; decide), hcase]

/-- Bytes of a body before its last one: the parser counts them. -/
theorem countdown_reads (hV : Viewed V) {s : State} (hs : s.part = none ∧ s ∉ inUrl) {flags : Flags} {n : ℕ}
    (hturn : ∀ (q : HttpParser) (b : UInt8), q.state = s → q.flags = flags → q.contentLength ≤ n →
      1 < q.contentLength →
      bare settings q 1 b = go [.report .body 1] { q with contentLength := q.contentLength - 1 })
    {w : List UInt8} (hstate : p.state = s) (hflags : p.flags = flags) (hle : p.contentLength ≤ n)
    (hlength : w.length < p.contentLength) :
    Reads (bare settings) V p w (part V .body w) { p with contentLength := p.contentLength - w.length } := by
  induction w generalizing p with
  | nil =>
      rw [part_nil]
      exact reads_nil p
  | cons b w ih =>
      rw [List.length_cons] at hlength ⊢
      have hfirst := reads_notes (V := V) hV (hturn p b hstate hflags hle (by omega))
        (by dsimp only; rw [hstate]; exact hs.1) (by dsimp only; rw [hstate]; exact hs.2)
      rw [notes_report, notes, List.append_nil] at hfirst
      have hrest := ih (p := { p with contentLength := p.contentLength - 1 }) hstate hflags
        (by dsimp only; omega) (by dsimp only; omega)
      have hboth := hfirst.append hrest
      rw [← part_append, Nat.sub_sub, Nat.add_comm 1] at hboth
      exact hboth

theorem identity_reads (settings : HttpParser → Int) (hV : Viewed V) {w : List UInt8}
    (hstate : p.state = .bodyIdentity) (hlength : w.length < p.contentLength) :
    Reads (bare settings) V p w (part V .body w) { p with contentLength := p.contentLength - w.length } := by
  refine countdown_reads hV ⟨rfl, by decide⟩ (fun q b hq _ _ hmore => ?_) hstate rfl (Nat.le_refl _) hlength
  have hone : min 1 q.contentLength = 1 := by omega
  have hne : q.contentLength ≠ 1 := by omega
  rw [identity_turn settings hq, bodyIdentity_some hone Nat.one_pos, if_neg hne, if_neg hne]
  rfl

/-- A whole body. -/
theorem body_reads (settings : HttpParser → Int) (hV : Viewed V) {w : List UInt8}
    (hstate : p.state = .bodyIdentity) (hlength : p.contentLength = w.length) (hne : w ≠ []) :
    Reads (bare settings) V p w (part V .body w ++ [.notify .messageComplete])
      { p with contentLength := 0, state := p.newMessage } := by
  obtain ⟨w, b, rfl⟩ := List.eq_nil_or_concat' w |>.resolve_left hne
  rw [List.length_append, List.length_singleton] at hlength
  have hmany := identity_reads (V := V) (w := w) settings hV hstate (by omega)
  have hleft : p.contentLength - w.length = 1 := by omega
  rw [hleft] at hmany
  have hturn : bare settings { p with contentLength := 1 } 1 b =
      go [.report .body 1, .notify .messageComplete] { p with contentLength := 0, state := p.newMessage } := by
    have hone : min 1 ({ p with contentLength := 1 } : HttpParser).contentLength = 1 := rfl
    rw [identity_turn (p := { p with contentLength := 1 }) settings hstate, bodyIdentity_some hone Nat.one_pos,
      if_pos rfl, if_pos rfl]
    rfl
  have hlast := reads_notes (V := V) hV hturn
    (by unfold HttpParser.newMessage startState; dsimp only; split_ifs <;> rfl)
    (by unfold HttpParser.newMessage startState; dsimp only; split_ifs <;> decide)
  rw [notes_report] at hlast
  have hboth := hmany.append hlast
  rw [← List.append_assoc, ← part_append] at hboth
  exact hboth

/-- The number that hexadecimal digits make behind `n`. -/
def hexadecimal (n : ℕ) (digits : List UInt8) : ℕ :=
  digits.foldl (fun n b => n * 16 + (unhex b).getD 0) n

/-- The line in front of a chunk: its size, and parameters, which are skipped. -/
structure SizeLine where
  digits : List UInt8
  parameters : List UInt8
  digits_ne : digits ≠ []
  digits_hex : ∀ b ∈ digits, unhex b ≠ none
  parameters_start : ∀ b ∈ parameters.head?, b = chr ';' ∨ b = chr ' '
  parameters_line : ∀ b ∈ parameters, b ≠ cr

/-- The size as the parser keeps it. -/
def SizeLine.size (l : SizeLine) : ℕ := hexadecimal 0 l.digits % 2 ^ 64

def SizeLine.line (l : SizeLine) : List UInt8 := l.digits ++ l.parameters ++ [cr, lf]

theorem chunkSize_turn (settings : HttpParser → Int) (hstate : p.state = .chunkSize)
    (hchunked : p.flags.chunked = true) (b : UInt8) :
    bare settings p 1 b =
      if b = cr then go [] { p with state := .chunkSizeAlmostDone }
      else match unhex b with
        | none =>
            if b = chr ';' ∨ b = chr ' ' then go [] { p with state := .chunkParameters }
            else halt [] .error p
        | some c => go [] { p with contentLength := (p.contentLength * 16 + c) % 2 ^ 64 } := by
  have hcase : plainCase p 1 b = chunkSize p b := by
    unfold plainCase
    rw [hstate]
  rw [bare_plain (by rw [hstate]; decide), hcase]
  exact if_pos hchunked

/-- The digits of a size behind the first one. -/
theorem digits_reads (settings : HttpParser → Int) (hV : Viewed V) {digits : List UInt8} {n : ℕ}
    (hstate : p.state = .chunkSize) (hchunked : p.flags.chunked = true)
    (hlength : p.contentLength = n % 2 ^ 64) (hdigits : ∀ b ∈ digits, unhex b ≠ none) :
    Reads (bare settings) V p digits [] { p with contentLength := hexadecimal n digits % 2 ^ 64 } := by
  induction digits generalizing p n with
  | nil =>
      have hsame : { p with contentLength := hexadecimal n [] % 2 ^ 64 } = p := by
        rw [hexadecimal, List.foldl_nil, ← hlength]
      rw [hsame]
      exact reads_nil p
  | cons b digits ih =>
      obtain ⟨hb, hrest⟩ := List.forall_mem_cons.mp hdigits
      obtain ⟨c, hc⟩ := Option.ne_none_iff_exists'.mp hb
      have hcr : b ≠ cr := by
        rintro rfl
        exact absurd hb (by decide)
      have hturn : bare settings p 1 b = go [] { p with contentLength := hexadecimal n [b] % 2 ^ 64 } := by
        rw [chunkSize_turn settings hstate hchunked, if_neg hcr, hc, hexadecimal, List.foldl_cons, hc,
          List.foldl_nil, hlength]
        dsimp only
        rw [Option.getD_some, Nat.add_mod, Nat.mul_mod, Nat.mod_mod, ← Nat.mul_mod, ← Nat.add_mod]
      have hfirst := reads_silent (V := V) hV hturn (fun _ => rfl) (by dsimp only; rw [hstate]; rfl)
        (by dsimp only; rw [hstate]; decide)
      exact hfirst.append
        (ih (p := { p with contentLength := hexadecimal n [b] % 2 ^ 64 }) hstate hchunked rfl hrest)

/-- The parameters behind a size, and the end of the line. -/
theorem parameters_reads (settings : HttpParser → Int) (hV : Viewed V) {w : List UInt8}
    (hstate : p.state = .chunkSize) (hchunked : p.flags.chunked = true)
    (hstart : ∀ b ∈ w.head?, b = chr ';' ∨ b = chr ' ') (hline : ∀ b ∈ w, b ≠ cr) :
    Reads (bare settings) V p (w ++ [cr]) [] { p with state := .chunkSizeAlmostDone } := by
  cases w with
  | nil =>
      have hturn : bare settings p 1 cr = go [] { p with state := .chunkSizeAlmostDone } := by
        rw [chunkSize_turn settings hstate hchunked, if_pos rfl]
      exact reads_silent hV hturn (fun _ => rfl) rfl (by dsimp only; decide)
  | cons b w =>
      have hb := hstart b rfl
      obtain ⟨hcr, hrest⟩ := List.forall_mem_cons.mp hline
      have hparameters : ∀ c, bare settings { p with state := .chunkParameters } 1 c =
          if c = cr then go [] { p with state := .chunkSizeAlmostDone }
          else go [] { p with state := .chunkParameters } := by
        intro c
        rw [bare_plain (by dsimp only; decide)]
        exact if_pos hchunked
      have hturn : bare settings p 1 b = go [] { p with state := .chunkParameters } := by
        have hunhex : unhex b = none := by
          rcases hb with rfl | rfl <;> rfl
        rw [chunkSize_turn settings hstate hchunked, if_neg hcr, hunhex]
        exact if_pos hb
      have hfirst := reads_silent (V := V) hV hturn (fun _ => rfl) rfl (by dsimp only; decide)
      have hmany := reads_quiet (V := V) (p := { p with state := .chunkParameters }) settings hV
        rfl (by dsimp only; decide) (w := w) fun c hc => (hparameters c).trans (if_neg (hrest c hc))
      have hend := reads_silent (V := V) hV ((hparameters cr).trans (if_pos rfl)) (fun _ => rfl) rfl
        (by dsimp only; decide)
      exact hfirst.append (hmany.append hend)

/-- The state behind a size. -/
def afterSize (p : HttpParser) (n : ℕ) : HttpParser :=
  if n = 0 then
    { p with contentLength := n, flags := { p.flags with trailing := true }, state := .headerFieldStart }
  else { p with contentLength := n, state := .chunkData }

theorem size_reads (settings : HttpParser → Int) (hV : Viewed V) (hstate : p.state = .chunkSizeStart)
    (hchunked : p.flags.chunked = true) (l : SizeLine) :
    Reads (bare settings) V p l.line [] (afterSize p l.size) := by
  obtain ⟨b, digits, hdigits⟩ := List.exists_cons_of_ne_nil l.digits_ne
  have hhex := l.digits_hex
  rw [hdigits] at hhex
  obtain ⟨hb, hrest⟩ := List.forall_mem_cons.mp hhex
  obtain ⟨c, hc⟩ := Option.ne_none_iff_exists'.mp hb
  have hturn : bare settings p 1 b = go [] { p with contentLength := c, state := .chunkSize } := by
    have hcase : switch settings p 1 1 b = keep 1 (chunkSizeStart p 1 b) := by
      unfold switch
      rw [hstate]
    unfold bare
    rw [hcase, forget_keep, chunkSizeStart, if_neg (not_not.mpr rfl), inChunked, if_pos hchunked, hc]
  have hsmall : c = c % 2 ^ 64 := (Nat.mod_eq_of_lt (unhex_small hc)).symm
  have hsize : l.size = hexadecimal c digits % 2 ^ 64 := by
    rw [SizeLine.size, hdigits, hexadecimal, List.foldl_cons, hc, Nat.zero_mul, Nat.zero_add]
    rfl
  have hfirst := reads_silent (V := V) hV hturn (fun _ => rfl) rfl (by dsimp only; decide)
  have hmany := digits_reads (V := V) (p := { p with contentLength := c, state := .chunkSize }) settings hV rfl
    hchunked hsmall hrest
  have hline := parameters_reads (V := V) (p := { p with
    contentLength := hexadecimal c digits % 2 ^ 64, state := .chunkSize }) settings hV rfl hchunked
    l.parameters_start l.parameters_line
  have hlf : bare settings { p with
      contentLength := hexadecimal c digits % 2 ^ 64, state := .chunkSizeAlmostDone } 1 lf =
      go [] (afterSize p (hexadecimal c digits % 2 ^ 64)) := by
    unfold bare
    show forget (keep 0 (chunkSizeAlmostDone _ lf)) = _
    rw [forget_keep, chunkSizeAlmostDone, inChunked, if_pos hchunked, if_neg (not_not.mpr rfl)]
    unfold afterSize
    dsimp only
    split_ifs <;> rfl
  have hend := reads_silent (V := V) hV hlf (fun _ => rfl) (by unfold afterSize; split_ifs <;> rfl)
    (by unfold afterSize; split_ifs <;> dsimp only <;> decide)
  have hall := hfirst.append (hmany.append (hline.append hend))
  rw [hsize, SizeLine.line, hdigits]
  simpa using hall

/-- A chunk. -/
structure Chunk where
  size : SizeLine
  data : List UInt8
  size_eq : size.size = data.length
  data_ne : data ≠ []
  data_small : data.length < 2 ^ 63

def Chunk.sent (c : Chunk) : List UInt8 := c.size.line ++ c.data ++ [cr, lf]

theorem chunkData_turn (settings : HttpParser → Int) (hstate : p.state = .chunkData) (b : UInt8) :
    bare settings p 1 b = chunkData p 1 := by
  have hcase : plainCase p 1 b = chunkData p 1 := by
    unfold plainCase
    rw [hstate]
  rw [bare_plain (by rw [hstate]; decide), hcase]

theorem chunk_reads (settings : HttpParser → Int) (hV : Viewed V) {w : List UInt8} (hstate : p.state = .chunkData)
    (hchunked : p.flags.chunked = true) (hsmall : p.contentLength < 2 ^ 63) (hlength : w.length < p.contentLength) :
    Reads (bare settings) V p w (part V .body w) { p with contentLength := p.contentLength - w.length } := by
  refine countdown_reads hV ⟨rfl, by decide⟩ (fun q b hq hflags hle hmore => ?_) hstate rfl (Nat.le_refl _) hlength
  have hone : min 1 q.contentLength = 1 := by omega
  have hne : q.contentLength ≠ 1 := by omega
  rw [chunkData_turn settings hq, chunkData_some (by rw [hflags]; exact hchunked)
    (Nat.lt_of_le_of_lt hle hsmall) hone Nat.one_pos, if_neg hne]
  rfl

/-- A whole chunk. -/
theorem Chunk.reads (settings : HttpParser → Int) (hV : Viewed V) (hstate : p.state = .chunkSizeStart)
    (hchunked : p.flags.chunked = true) (c : Chunk) :
    Reads (bare settings) V p c.sent (part V .body c.data) { p with contentLength := 0 } := by
  obtain ⟨size, data, hsize, hne, hsmall⟩ := c
  obtain ⟨w, b, rfl⟩ := List.eq_nil_or_concat' data |>.resolve_left hne
  rw [List.length_append, List.length_singleton] at hsize hsmall
  have hline := size_reads (V := V) settings hV hstate hchunked size
  rw [afterSize, if_neg (by omega), hsize] at hline
  have hmany := chunk_reads (V := V) (p := { p with contentLength := w.length + 1, state := .chunkData }) (w := w)
    settings hV rfl hchunked hsmall (Nat.lt_succ_self _)
  have hleft : w.length + 1 - w.length = 1 := by omega
  dsimp only at hmany
  rw [hleft] at hmany
  have hturn : bare settings { p with contentLength := 1, state := .chunkData } 1 b =
      go [.report .body 1] { p with contentLength := 0, state := .chunkDataAlmostDone } := by
    have hone : min 1 ({ p with contentLength := 1, state := .chunkData } : HttpParser).contentLength = 1 := rfl
    rw [chunkData_turn (p := { p with contentLength := 1, state := .chunkData }) settings rfl,
      chunkData_some (p := { p with contentLength := 1, state := .chunkData }) hchunked
        (by dsimp only; decide) hone Nat.one_pos, if_pos rfl]
    rfl
  have hlast := reads_notes (V := V) hV hturn rfl (by dsimp only; decide)
  rw [notes_report, notes, List.append_nil] at hlast
  have hcr : bare settings { p with contentLength := 0, state := .chunkDataAlmostDone } 1 cr =
      go [] { p with contentLength := 0, state := .chunkDataDone } := by
    rw [bare_plain (by dsimp only; decide)]
    exact if_pos hchunked
  have hlf : bare settings { p with contentLength := 0, state := .chunkDataDone } 1 lf =
      go [] { p with contentLength := 0, state := .chunkSizeStart } := by
    rw [bare_plain (by dsimp only; decide)]
    exact if_pos hchunked
  have hend := (reads_silent (V := V) hV hcr (fun _ => rfl) rfl (by dsimp only; decide)).append
    (reads_silent hV hlf (fun _ => rfl) rfl (by dsimp only; decide))
  have hall := (hline.append (hmany.append hlast)).append hend
  simp only [← part_append, List.nil_append, List.append_nil] at hall
  rw [Chunk.sent, hstate]
  exact hall

/-! ### Requests -/

/-- A body: bytes, or chunks up to one of size 0 and the headers behind it. -/
inductive Body where
  | identity (w : List UInt8)
  | chunked (chunks : List Chunk) (last : SizeLine) (trailers : List Header)

/-- The headers have announced the body. -/
def Body.Fits (ms : List Meaning) : Body → Prop
  | .identity w => .chunked ∉ ms ∧ lengthOf ms = some w.length
  | .chunked _ last trailers => .chunked ∈ ms ∧ last.size = 0 ∧ ∀ h ∈ trailers, h.meaning ≠ none

def Body.sent : Body → List UInt8
  | .identity w => w
  | .chunked chunks last trailers =>
      chunks.flatMap Chunk.sent ++ last.line ++ trailers.flatMap Header.line ++ [cr, lf]

def Body.tokens (V : View HttpParser DataKind) : Body → List (Token DataKind Notice)
  | .identity w => part V .body w
  | .chunked chunks _ trailers =>
      chunks.flatMap (fun c => part V .body c.data) ++ trailers.flatMap (Header.tokens V)

/-- What the headers behind a body say. -/
def Body.meanings : Body → List Meaning
  | .identity _ => []
  | .chunked _ _ trailers => HttpParser.meanings trailers

/-- A request. -/
structure Request extends Head where
  body : Body
  method_ne : method ≠ .connect
  not_upgrade : .upgrade ∉ toHead.meanings
  fits : body.Fits toHead.meanings

/-- What is sent of it. -/
def Request.sent (r : Request) : List UInt8 := r.lines ++ [cr, lf] ++ r.body.sent

/-- What is handed out of it. -/
def Request.tokens (V : View HttpParser DataKind) (r : Request) : List (Token DataKind Notice) :=
  r.toHead.tokens V ++ [.notify .headersComplete] ++ r.body.tokens V ++ [.notify .messageComplete]

/-- It is followed by another one. -/
def Request.Persists (r : Request) : Prop :=
  HttpParser.Persists r.version (r.toHead.meanings ++ r.body.meanings)

instance (r : Request) : Decidable r.Persists :=
  inferInstanceAs (Decidable (HttpParser.Persists _ _))

theorem newMessage_closed (p : HttpParser) : p.newMessage.part = none ∧ p.newMessage ∉ inUrl := by
  unfold HttpParser.newMessage startState
  split_ifs <;> exact ⟨rfl, by decide⟩

theorem identity_request {h : Head} {ms : List Meaning} (hV : Viewed V) (hp : Says h false ms p)
    (hconnect : h.method ≠ .connect) (hupgrade : .upgrade ∉ ms) {w : List UInt8}
    (hfits : (Body.identity w).Fits ms) :
    ∃ q, Reads (bare noCallback) V p ([cr, lf] ++ w)
        ([.notify .headersComplete] ++ part V .body w ++ [.notify .messageComplete]) q ∧ Over h false ms q := by
  obtain ⟨hchunked, hlength⟩ := hfits
  have hcontent : p.contentLength = w.length := by
    rw [hp.length rfl, hlength]
    rfl
  have hknows : Knows h false ms { p with state := .headersAlmostDone } :=
    ⟨hp.type, hp.upgrade, hp.method, hp.major, hp.minor, hp.flags⟩
  have hdone := hknows.done
  rw [if_neg hchunked] at hdone
  have hplain := newMessage_closed { p with state := .headersAlmostDone }
  by_cases hnil : w = []
  · rw [hnil] at hcontent ⊢
    have hzero : ({ p with state := .headersAlmostDone } : HttpParser).contentLength = 0 := hcontent
    rw [if_pos hzero] at hdone
    refine ⟨{ p with state := HttpParser.newMessage { p with state := .headersAlmostDone } }, ?_,
      ⟨hp.type, hp.upgrade, hp.method, hp.major, hp.minor, hp.flags⟩, hknows.newMessage⟩
    have hreads := emptyLine_reads hV hp hconnect hupgrade hdone hplain.1 hplain.2
    rw [part_nil]
    exact hreads
  · have hpos : ¬({ p with state := .headersAlmostDone } : HttpParser).contentLength = 0 := by
      rw [hcontent]
      exact mt List.length_eq_zero_iff.mp hnil
    rw [if_neg hpos] at hdone
    refine ⟨{ p with contentLength := 0, state := HttpParser.newMessage { p with state := .bodyIdentity } }, ?_,
      ⟨hp.type, hp.upgrade, hp.method, hp.major, hp.minor, hp.flags⟩, hknows.newMessage⟩
    have hreads := emptyLine_reads (V := V) hV hp hconnect hupgrade hdone rfl (by dsimp only; decide)
    have hbody := body_reads (V := V) (p := { p with state := .bodyIdentity }) noCallback hV rfl hcontent hnil
    have hboth := hreads.append hbody
    rw [← List.append_assoc] at hboth
    exact hboth

theorem chunks_reads (settings : HttpParser → Int) (hV : Viewed V) (hstate : p.state = .chunkSizeStart)
    (hchunked : p.flags.chunked = true) (chunks : List Chunk) :
    ∃ n, Reads (bare settings) V p (chunks.flatMap Chunk.sent) (chunks.flatMap fun c => part V .body c.data)
      { p with contentLength := n } := by
  induction chunks generalizing p with
  | nil => exact ⟨p.contentLength, reads_nil p⟩
  | cons c chunks ih =>
      have hfirst := c.reads (V := V) settings hV hstate hchunked
      obtain ⟨n, hrest⟩ := ih (p := { p with contentLength := 0 }) hstate hchunked
      exact ⟨n, hfirst.append hrest⟩

theorem chunked_request {h : Head} {ms : List Meaning} (hV : Viewed V) (hp : Says h false ms p)
    (hconnect : h.method ≠ .connect) (hupgrade : .upgrade ∉ ms) {chunks : List Chunk} {last : SizeLine}
    {trailers : List Header} (hfits : (Body.chunked chunks last trailers).Fits ms) :
    ∃ q, Reads (bare noCallback) V p ([cr, lf] ++ (Body.chunked chunks last trailers).sent)
        ([.notify .headersComplete] ++ (Body.chunked chunks last trailers).tokens V ++
          [.notify .messageComplete]) q ∧
      Over h true (ms ++ meanings trailers) q := by
  obtain ⟨hchunked, hlast, htaken⟩ := hfits
  have hknows : Knows h false ms { p with state := .headersAlmostDone } :=
    ⟨hp.type, hp.upgrade, hp.method, hp.major, hp.minor, hp.flags⟩
  have hdone := hknows.done
  rw [if_pos hchunked] at hdone
  have hflag : p.flags.chunked = true := by
    rw [hp.flags]
    exact decide_eq_true hchunked
  have hempty := emptyLine_reads (V := V) hV hp hconnect hupgrade hdone rfl (by dsimp only; decide)
  obtain ⟨n, hchunks⟩ := chunks_reads (V := V) (p := { p with state := .chunkSizeStart }) noCallback hV rfl hflag
    chunks
  have hsize := size_reads (V := V) (p := { p with state := .chunkSizeStart, contentLength := n }) noCallback hV
    rfl hflag last
  rw [afterSize, if_pos hlast] at hsize
  have hsaid : Says h true ms { p with
      contentLength := last.size, flags := { p.flags with trailing := true }, state := .headerFieldStart } := by
    refine ⟨⟨hp.type, hp.upgrade, hp.method, hp.major, hp.minor, ?_⟩, rfl, nofun⟩
    dsimp only
    rw [hp.flags]
  obtain ⟨q, htrailers, hq⟩ := headers_reads (V := V) noCallback hV hsaid htaken
  have hcr := emptyLine_starts noCallback hq.state
  have hlf : bare noCallback { q with state := .headersAlmostDone } 1 lf =
      go [.notify .messageComplete] { q with state := q.newMessage } := by
    have htrailing : q.flags.trailing = true := by rw [hq.flags]
    show forget (headersAlmostDone noCallback { q with state := .headersAlmostDone } 1 lf) = _
    rw [headersAlmostDone, if_neg (not_not.mpr rfl), if_pos htrailing, forget_keep]
    rfl
  have hplain := newMessage_closed q
  refine ⟨{ q with state := q.newMessage }, ?_,
    ⟨hq.type, hq.upgrade, hq.method, hq.major, hq.minor, hq.flags⟩, hq.toKnows.newMessage⟩
  have hend := (reads_silent (V := V) hV hcr (fun _ => rfl) rfl (by dsimp only; decide)).append
    (reads_notes hV hlf hplain.1 hplain.2)
  have hall := hempty.append (((hchunks.append hsize).append htrailers).append hend)
  rw [List.append_nil] at hall
  simp only [Body.sent, Body.tokens]
  simpa [notes] using hall

/-- A request is read through. -/
theorem Request.reads (hV : Viewed V) (hp : Ready p) (r : Request) :
    ∃ q, Reads (bare noCallback) V p r.sent (r.tokens V) q ∧
      ∃ trailing, Over r.toHead trailing (r.toHead.meanings ++ r.body.meanings) q := by
  obtain ⟨q, hhead, hsaid⟩ := head_reads (V := V) noCallback hV hp r.toHead
  have hfits := r.fits
  have hbody : ∃ q', Reads (bare noCallback) V q ([cr, lf] ++ r.body.sent)
      ([.notify .headersComplete] ++ r.body.tokens V ++ [.notify .messageComplete]) q' ∧
      ∃ trailing, Over r.toHead trailing (r.toHead.meanings ++ r.body.meanings) q' := by
    cases hb : r.body with
    | identity w =>
        rw [hb] at hfits
        obtain ⟨q', hreads, hover⟩ := identity_request hV hsaid r.method_ne r.not_upgrade hfits
        rw [Body.meanings, List.append_nil]
        exact ⟨q', hreads, false, hover⟩
    | chunked chunks last trailers =>
        rw [hb] at hfits
        obtain ⟨q', hreads, hover⟩ := chunked_request hV hsaid r.method_ne r.not_upgrade hfits
        exact ⟨q', hreads, true, hover⟩
  obtain ⟨q', hreads, hover⟩ := hbody
  refine ⟨q', ?_, hover⟩
  have hall := hhead.append hreads
  simp only [← List.append_assoc] at hall
  exact hall

end OsHomeworks.WebServer.HttpParser
