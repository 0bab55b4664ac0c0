import OsHomeworks.HttpParserBodies

/-! What the HTTP parser hands out of a stream of requests, wherever the stream is cut. -/

namespace OsHomeworks.WebServer.HttpParser

open CallLog CallLog.Logged MarkedStream

variable {V : View HttpParser DataKind} {p q : HttpParser} {pieces : List (List UInt8)}

/-- A parser as `http_parser_init` leaves it. -/
theorem ready_init (memory : Counted) : Ready (init memory .request).toHttpParser := ⟨rfl, rfl, rfl⟩

theorem Over.ready {h : Head} {trailing : Bool} {ms : List Meaning} (hp : Over h trailing ms p)
    (hpersists : Persists h.version ms) : Ready p :=
  ⟨hp.state.trans (if_pos hpersists), hp.type, hp.upgrade⟩

/-- Requests that persist are read through one after the other. -/
theorem requests_read (hV : Viewed V) (hp : Ready p) {requests : List Request}
    (hpersist : ∀ r ∈ requests, r.Persists) :
    ∃ q, Reads (bare noCallback) V p (requests.flatMap Request.sent) (requests.flatMap (Request.tokens V)) q ∧
      Ready q := by
  induction requests generalizing p with
  | nil => exact ⟨p, reads_nil p, hp⟩
  | cons r requests ih =>
      obtain ⟨hr, hrest⟩ := List.forall_mem_cons.mp hpersist
      obtain ⟨q, hreads, trailing, hover⟩ := r.reads hV hp
      obtain ⟨q', hmore, hready⟩ := ih (hover.ready hr) hrest
      exact ⟨q', hreads.append hmore, hready⟩

/-- A run whose bytes are read through. -/
theorem executeAll_reads {settings : HttpParser → Int} {memory : Counted} (hindex : memory.index < 256)
    (hlength : memory.contentLength < 2 ^ 64) (hpieces : Pieces pieces) (hV : Viewed V)
    {ts : List (Token DataKind Notice)}
    (h : Reads (bare settings) V (init memory .request).toHttpParser pieces.flatten ts q) :
    let e := executeAll settings 0 (init memory .request) pieces
    e.stop = none ∧ e.returned = pieces.flatten.length ∧ e.parser.toHttpParser = q ∧
      tokens V.see e.events = ts := by
  intro e
  obtain ⟨hends, rest, -, htokens, hrest⟩ := executeAll_stream settings hV
    (steady_init memory .request hindex hlength) (by decide : 0 < 256) hpieces 0
  unfold stream at hends htokens
  rw [h 0] at hends htokens
  obtain ⟨hstop, hreturned, hparser⟩ := hends
  rw [hrest hstop, List.append_nil] at htokens
  exact ⟨hstop, hreturned.trans (Nat.zero_add _), hparser, htokens⟩

/-- However a stream of requests is cut, the parser reads all of it, and hands out of every request what it
says. -/
theorem requests_delivered (memory : Counted) (hindex : memory.index < 256)
    (hlength : memory.contentLength < 2 ^ 64) (requests : List Request)
    (hpersist : ∀ r ∈ requests, r.Persists) (pieces : List (List UInt8)) (hpieces : Pieces pieces)
    (hflatten : pieces.flatten = requests.flatMap Request.sent) :
    let e := executeAll noCallback 0 (init memory .request) pieces
    e.stop = none ∧ e.returned = pieces.flatten.length ∧ Ready e.parser.toHttpParser ∧
      ∀ V, Viewed V → tokens V.see e.events = requests.flatMap (Request.tokens V) := by
  intro e
  have hview : ∀ V, Viewed V → e.stop = none ∧ e.returned = pieces.flatten.length ∧
      Ready e.parser.toHttpParser ∧ tokens V.see e.events = requests.flatMap (Request.tokens V) := by
    intro V hV
    obtain ⟨q, hreads, hready⟩ := requests_read hV (ready_init memory) hpersist
    rw [← hflatten] at hreads
    obtain ⟨hstop, hreturned, hparser, htokens⟩ := executeAll_reads hindex hlength hpieces hV hreads
    exact ⟨hstop, hreturned, hparser ▸ hready, htokens⟩
  obtain ⟨hstop, hreturned, hready, -⟩ := hview parts (.inl rfl)
  exact ⟨hstop, hreturned, hready, fun V hV => (hview V hV).2.2.2⟩

/-- A request whose body has two bytes. -/
def post : Request where
  method := .post
  target := ⟨bytes "/a", some (bytes "b?c"), none, by decide, forall_mem_of_all (by decide),
    fun _ hw => by cases hw; exact forall_mem_of_all (by decide), nofun⟩
  version := ⟨chr '1', chr '1', by decide, by decide⟩
  headers := [headerOf (bytes "CONTENT-length ") 1 (bytes "02") (by decide)]
  taken := by decide
  body := .identity (bytes "hi")
  method_ne := by decide
  not_upgrade := by decide
  fits := ⟨by decide, by decide⟩

/-- The request in two pieces, and one more. -/
theorem requests_delivered_post :
    let pieces := [post.sent.take 20, post.sent.drop 20, post.sent]
    let e := executeAll noCallback 0 (init someMemory .request) pieces
    e.stop = none ∧ e.returned = pieces.flatten.length ∧ Ready e.parser.toHttpParser ∧
      ∀ V, Viewed V → tokens V.see e.events = [post, post].flatMap (Request.tokens V) :=
  requests_delivered someMemory (by decide) (by decide) [post, post] (by decide) _ (by decide) (by decide)

/-- Behind a notification no bytes stay behind. -/
theorem bytes_notify {xs ys rest : List (Token DataKind Notice)} {n : Notice} (hbytes : Bytes rest)
    (h : xs ++ rest = ys ++ [.notify n]) : rest = [] := by
  rcases List.eq_nil_or_concat' rest with hnil | ⟨init, t, rfl⟩
  · exact hnil
  · rw [← List.append_assoc] at h
    have hlast := (List.append_inj' h rfl).2
    have hmem : Token.notify n ∈ init ++ [t] := by
      rw [hlast]
      exact List.mem_append_right _ (List.mem_singleton.mpr rfl)
    exact absurd hmem (hbytes n)

/-- A run that is stopped behind a notification. -/
theorem executeAll_stopped {settings : HttpParser → Int} {memory : Counted} (hindex : memory.index < 256)
    (hlength : memory.contentLength < 2 ^ 64) (hpieces : Pieces pieces) (hV : Viewed V)
    {bytes rest : List UInt8} {b : UInt8} {ts ys : List (Token DataKind Notice)} {n : Notice} {stop : Stop}
    (h : Reads (bare settings) V (init memory .request).toHttpParser bytes ts q)
    (hflatten : pieces.flatten = bytes ++ b :: rest) (hstop : (bare settings q 1 b).next = .error stop)
    (hlast : ts ++ notes V.see [b] (bare settings q 1 b).actions = ys ++ [.notify n]) :
    let e := executeAll settings 0 (init memory .request) pieces
    e.stop = some stop.kind ∧ e.returned = bytes.length ∧
      e.parser.toHttpParser.fields = stop.parser.fields ∧ tokens V.see e.events = ys ++ [.notify n] := by
  intro e
  obtain ⟨hends, rest', hbytes, htokens, -⟩ := executeAll_stream settings hV
    (steady_init memory .request hindex hlength) (by decide : 0 < 256) hpieces 0
  unfold stream at hends htokens
  rw [hflatten, h.stopped hstop 0 rest] at hends htokens
  obtain ⟨hkind, hreturned, hfields⟩ := hends
  rw [hlast] at htokens
  rw [bytes_notify hbytes htokens, List.append_nil] at htokens
  exact ⟨hkind, hreturned.trans (Nat.zero_add _), hfields, htokens⟩

/-- A request that does not persist is read like the others, but the byte behind it is an error, and
nothing is handed out from there on. -/
theorem requests_closed (memory : Counted) (hindex : memory.index < 256)
    (hlength : memory.contentLength < 2 ^ 64) (requests : List Request)
    (hpersist : ∀ r ∈ requests, r.Persists) (last : Request) (hlast : ¬last.Persists) (b : UInt8)
    (rest : List UInt8) (pieces : List (List UInt8)) (hpieces : Pieces pieces)
    (hflatten : pieces.flatten = requests.flatMap Request.sent ++ last.sent ++ b :: rest) :
    let e := executeAll noCallback 0 (init memory .request) pieces
    e.stop = some .error ∧ e.returned = (requests.flatMap Request.sent ++ last.sent).length ∧
      ∀ V, Viewed V →
        tokens V.see e.events = requests.flatMap (Request.tokens V) ++ last.tokens V := by
  intro e
  have hview : ∀ V, Viewed V → e.stop = some .error ∧
      e.returned = (requests.flatMap Request.sent ++ last.sent).length ∧
      tokens V.see e.events = requests.flatMap (Request.tokens V) ++ last.tokens V := by
    intro V hV
    obtain ⟨q, hreads, hready⟩ := requests_read hV (ready_init memory) hpersist
    obtain ⟨q', hmore, trailing, hover⟩ := last.reads hV hready
    have hdead : bare noCallback q' 1 b = halt [] .error q' := by
      have hstate : q'.state = .dead := hover.state.trans (if_neg hlast)
      rw [bare_plain (by rw [hstate]; decide), plainCase, hstate]
    have hend : requests.flatMap (Request.tokens V) ++ last.tokens V ++
        notes V.see [b] (bare noCallback q' 1 b).actions =
          requests.flatMap (Request.tokens V) ++ (last.toHead.tokens V ++ [.notify .headersComplete] ++
            last.body.tokens V) ++ [.notify .messageComplete] := by
      rw [hdead, Request.tokens]
      simp [halt, notes]
    obtain ⟨hstop, hreturned, -, htokens⟩ := executeAll_stopped hindex hlength hpieces hV
      (hreads.append hmore) hflatten (congrArg Turn.next hdead) hend
    refine ⟨hstop, hreturned, htokens.trans ?_⟩
    rw [Request.tokens, List.append_assoc]
  obtain ⟨hstop, hreturned, -⟩ := hview parts (.inl rfl)
  exact ⟨hstop, hreturned, fun V hV => (hview V hV).2.2⟩

/-- A request behind which the connection is closed. -/
def lastPost : Request where
  method := .post
  target := ⟨bytes "*", none, some (bytes "#d"), by decide, forall_mem_of_all (by decide), nofun,
    fun _ hw => by cases hw; exact forall_mem_of_all (by decide)⟩
  version := ⟨chr '1', chr '1', by decide, by decide⟩
  headers :=
    [headerOf (bytes "Transfer-Encoding") 0 (bytes "Chunked") (by decide),
      headerOf (bytes "Connection") 1 (bytes "close") (by decide)]
  taken := by decide
  body := .chunked
    [⟨⟨bytes "2", bytes ";x", by decide, forall_mem_of_all (by decide), forall_head_of_all (by decide),
      forall_mem_of_all (by decide)⟩, bytes "hi", by decide, by decide, by decide⟩]
    ⟨bytes "0", [], by decide, forall_mem_of_all (by decide), nofun, nofun⟩
    [headerOf (bytes "Date") 1 [] (by decide)]
  method_ne := by decide
  not_upgrade := by decide
  fits := ⟨by decide, by decide, by decide⟩

theorem requests_closed_post :
    let pieces := [post.sent, lastPost.sent ++ bytes "GET"]
    let e := executeAll noCallback 0 (init someMemory .request) pieces
    e.stop = some .error ∧ e.returned = ([post].flatMap Request.sent ++ lastPost.sent).length ∧
      ∀ V, Viewed V → tokens V.see e.events = [post].flatMap (Request.tokens V) ++ lastPost.tokens V :=
  requests_closed someMemory (by decide) (by decide) [post] (by decide) lastPost (by decide) (chr 'G')
    (bytes "ET") _ (by decide) (by decide)

/-- The first lines of a request without a body. -/
def get : Head where
  method := .get
  target := ⟨bytes "/a", none, none, by decide, forall_mem_of_all (by decide), nofun, nofun⟩
  version := ⟨chr '1', chr '1', by decide, by decide⟩
  headers := [headerOf (bytes "Host") 1 (bytes "b") (by decide)]
  taken := by decide

end OsHomeworks.WebServer.HttpParser
