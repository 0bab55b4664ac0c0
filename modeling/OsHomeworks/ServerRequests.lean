import OsHomeworks.ServerSegmentation
import OsHomeworks.HttpParserStreams

/-! The server with its parser. A message that holds one request makes `http_parser_execute` call
`on_path_cb` once, with the whole URL: a URL is marked only behind a message that begins, and ends in
the first line of it. So the files that are opened are those that the URLs name. -/

namespace OsHomeworks.WebServer

namespace HttpParser

open CallLog CallLog.Logged MarkedStream

variable {memory : Counted} {message url : List UInt8}

/-- The states between the beginning of a message and its URL. -/
def State.beforeUrl (s : State) : ℕ := if s ∈ [.resOrRespH, .reqMethod, .reqSpacesBeforeUrl] then 1 else 0

/-- A URL begins once behind the beginning of a message. -/
theorem url_pays (settings : HttpParser → Int) :
    Pays (turn settings) .url .messageBegin fun c => c.state.beforeUrl := by
  have hedges : ∀ s, ∀ e ∈ edges s, e.1.countP (Action.begins .url) + e.2.beforeUrl ≤
      e.1.count (.notify .messageBegin) + s.beforeUrl := by
    intro s
    cases s <;> decide
  have hhalts : ∀ s, ∀ actions ∈ halts s, actions.countP (Action.begins .url) = 0 := by
    intro s
    cases s <;> decide
  constructor
  · intro c ch d hnext
    rcases turn_cases settings c with heq | heq
    · rw [heq] at hnext ⊢
      exact hedges _ _ (unlimited_edge hnext).1
    · rw [heq] at hnext
      cases hnext
  · intro c ch stop hnext
    rcases turn_cases settings c with heq | heq
    · rw [heq] at hnext ⊢
      rcases unlimited_halt hnext with hhalt | hnone
      · rw [hhalts _ _ hhalt]
        exact Nat.zero_le _
      · rw [hnone]
        exact Nat.zero_le _
    · rw [heq]
      exact Nat.zero_le _

/-- Of a request a fresh parser hands out at most one piece of a URL for each message it begins. -/
theorem url_handed (settings : HttpParser → Int) (memory : Counted) (hne : message ≠ []) :
    (execute settings (init memory .request) message).events.countP (Event.isData .url) ≤
      (execute settings (init memory .request) message).events.count (.notify .messageBegin) := by
  have hevents : (execute settings (init memory .request) message).events =
      (read (turn settings) opens callbackOrder message (init memory .request)).calls := by
    unfold execute
    rw [if_neg hne]
    dsimp only
    split <;> rfl
  rw [hevents]
  exact read_paid (url_pays settings) (turn_splits settings) callbackOrder_nodup message
    (init memory .request)

theorem headers_urls (headers : List Header) : headers.flatMap (Header.tokens urls) = [] :=
  List.flatMap_eq_nil_iff.mpr fun _ _ => rfl

theorem Head.tokens_urls (h : Head) :
    h.tokens urls = .notify .messageBegin :: part urls .url h.target.url := by
  have hparts : part urls .path h.target.path = [] ∧
      part urls .queryString (unmarked (chr '?') h.target.query) = [] ∧
      part urls .fragment (unmarked (chr '#') h.target.fragment) = [] := ⟨rfl, rfl, rfl⟩
  rw [Head.tokens, Target.tokens, hparts.1, hparts.2.1, hparts.2.2, headers_urls]
  simp only [List.append_nil]

theorem Body.tokens_urls (b : Body) : b.tokens urls = [] := by
  cases b with
  | identity w => rfl
  | chunked chunks last trailers =>
      have hchunks : chunks.flatMap (fun c => part urls .body c.data) = [] :=
        List.flatMap_eq_nil_iff.mpr fun _ _ => rfl
      rw [Body.tokens, hchunks, headers_urls]
      rfl

/-- What a turn does that ends the headers: it notifies, and opens no URL. -/
def EndsHeaders (t : ParserTurn) : Prop :=
  (t.actions = [.notify .headersComplete] ∨
      t.actions = [.notify .headersComplete, .notify .messageComplete]) ∧
    ∀ q, t.next = .ok q → q.state ∉ inUrl

theorem endsHeaders_go {actions : List (Action DataKind Notice)} {p : HttpParser}
    (hactions : actions = [.notify .headersComplete] ∨
      actions = [.notify .headersComplete, .notify .messageComplete]) (hp : p.state ∉ inUrl) :
    EndsHeaders (go actions p) := by
  refine ⟨hactions, ?_⟩
  rintro _ ⟨⟩
  exact hp

theorem headersDone_ends (p : HttpParser) : EndsHeaders (headersDone p) := by
  have hnew : p.newMessage ∉ inUrl := (newMessage_closed p).2
  have hplain : State.chunkSizeStart ∉ inUrl ∧ State.bodyIdentity ∉ inUrl ∧
      State.bodyIdentityEof ∉ inUrl := by decide
  unfold headersDone
  split_ifs
  · refine ⟨Or.inr rfl, fun q hnext => ?_⟩
    cases hnext
  · refine endsHeaders_go (Or.inr rfl) ?_
    exact hnew
  · refine endsHeaders_go (Or.inl rfl) ?_
    exact hplain.1
  · refine endsHeaders_go (Or.inr rfl) ?_
    exact hnew
  · refine endsHeaders_go (Or.inl rfl) ?_
    exact hplain.2.1
  · refine endsHeaders_go (Or.inr rfl) ?_
    exact hnew
  · refine endsHeaders_go (Or.inl rfl) ?_
    exact hplain.2.2

/-- The end of the empty line behind the headers. -/
theorem emptyLine_ends {p : HttpParser} (hstate : p.state = .headersAlmostDone)
    (htrailing : p.flags.trailing = false) : EndsHeaders (bare noCallback p 1 lf) := by
  have hturn : bare noCallback p 1 lf = headersComplete noCallback p := by
    unfold bare switch
    rw [hstate]
    show forget (headersAlmostDone noCallback p 1 lf) = _
    rw [headersAlmostDone, if_neg (not_not.mpr rfl), htrailing, if_neg Bool.false_ne_true, forget_keep]
  rw [hturn, headersComplete]
  exact headersDone_ends _

theorem emptyLine_content {p : HttpParser} (hstate : p.state = .headersAlmostDone)
    (htrailing : p.flags.trailing = false) (position : ℕ) :
    (content (bare noCallback) urls position p [lf]).calls = [.notify .headersComplete] ∨
      (content (bare noCallback) urls position p [lf]).calls =
        [.notify .headersComplete, .notify .messageComplete] := by
  obtain ⟨hactions, hclosed⟩ := emptyLine_ends hstate htrailing
  have hcalls : (content (bare noCallback) urls position p [lf]).calls =
      notes urls.see [lf] (bare noCallback p 1 lf).actions := by
    cases hnext : (bare noCallback p 1 lf).next with
    | ok q =>
        have hopen : urls.track q = none := if_neg (hclosed q hnext)
        rw [content_cons_ok hnext, emit_bind, hopen]
        simp [content, here]
    | error stop =>
        rw [content_cons_error hnext, emit_bind, abort_calls, List.append_nil]
  rw [hcalls]
  rcases hactions with h | h <;> rw [h]
  · exact Or.inl rfl
  · exact Or.inr rfl

/-- A call on one piece. -/
theorem executeAll_single (settings : HttpParser → Int) (c : Counted) (data : List UInt8) :
    (executeAll settings 0 c [data]).events = (execute settings c data).events := by
  rw [executeAll]
  dsimp only
  split
  · rfl
  · exact List.append_nil _

/-- A message whose bytes contribute one URL and then only notifications has it handed out whole. -/
theorem url_whole (hindex : memory.index < 256) (hlength : memory.contentLength < 2 ^ 64)
    (hne : message ≠ []) (hsize : message.length ≤ bufsiz) (hurl : url ≠ [])
    {ends : List (Token DataKind Notice)} (hends : ends = [.notify .headersComplete] ∨
      ends = [.notify .headersComplete, .notify .messageComplete])
    (hcalls : (content (bare noCallback) urls 0 (init memory .request).toHttpParser message).calls =
      .notify .messageBegin :: part urls .url url ++ ends) :
    pieces .url (execute noCallback (init memory .request) message).events = [url] := by
  have hpieces : Pieces [message] := by
    refine List.forall_mem_singleton.mpr ⟨hne, ?_⟩
    have hlimit : bufsiz + 255 ≤ httpMaxHeaderSize := by decide
    omega
  obtain ⟨-, rest, hbytes, htokens, -⟩ := executeAll_stream noCallback (.inr rfl : Viewed urls)
    (steady_init memory .request hindex hlength) (by decide : 0 < 256) hpieces 0
  rw [stream, List.flatten_singleton, executeAll_single, hcalls] at htokens
  have hrest : rest = [] := by
    rcases hends with rfl | rfl
    · exact bytes_notify hbytes htokens
    · have hsplit : .notify .messageBegin :: part urls .url url ++
          [.notify .headersComplete, .notify .messageComplete] =
            .notify .messageBegin :: part urls .url url ++ [.notify .headersComplete] ++
              [.notify .messageComplete] := by
        rw [List.append_assoc]
        rfl
      exact bytes_notify hbytes (htokens.trans hsplit)
  rw [hrest, List.append_nil] at htokens
  have hpart : part urls .url url = url.map (.byte .url) := rfl
  have hbegun : (execute noCallback (init memory .request) message).events.count
      (.notify .messageBegin) = 1 := by
    rw [← count_tokens urls.see, htokens, hpart]
    have hnone : (url.map (Token.byte (ν := Notice) DataKind.url)).count (.notify .messageBegin) = 0 :=
      List.count_eq_zero_of_not_mem (by simp)
    rcases hends with rfl | rfl <;> simp [hnone]
  have hflatten : (pieces .url (execute noCallback (init memory .request) message).events).flatten =
      url := by
    rw [flatten_pieces]
    show (tokens urls.see _).filterMap Token.payload = url
    rw [htokens, hpart]
    have hpayload : (url.map (Token.byte (ν := Notice) DataKind.url)).filterMap Token.payload = url := by
      rw [List.filterMap_map]
      exact List.filterMap_some
    rw [List.cons_append, List.filterMap_cons_none rfl, List.filterMap_append, hpayload]
    rcases hends with rfl | rfl <;> exact List.append_nil url
  have hone := url_handed noCallback memory hne
  rw [← length_pieces, hbegun] at hone
  cases hlist : pieces .url (execute noCallback (init memory .request) message).events with
  | nil =>
      rw [hlist] at hflatten
      exact absurd hflatten.symm hurl
  | cons piece more =>
      rw [hlist] at hone hflatten
      obtain rfl : more = [] := List.length_eq_zero_iff.mp (by simpa using hone)
      rw [List.flatten_singleton] at hflatten
      rw [hflatten]

/-- A message that holds one request: with its body, or without one up to the empty line. -/
inductive Whole : List UInt8 → List UInt8 → Prop where
  | request (r : Request) : Whole r.sent r.target.url
  | head (h : Head) : Whole (h.lines ++ [cr, lf]) h.target.url

theorem Target.url_ne (t : Target) : t.url ≠ [] := by
  intro hnil
  have hpath : t.path = [] := (List.append_eq_nil_iff.mp (List.append_eq_nil_iff.mp hnil).1).1
  have hstart := t.path_start
  rw [hpath] at hstart
  rcases hstart with h | h <;> cases h

theorem Target.url_nul (t : Target) : 0 ∉ t.url := by
  have hnot : ¬normalUrlChar 0 = true := by decide
  have hmarked : ∀ (c : UInt8) (o : Option (List UInt8)), c ≠ 0 → (∀ w ∈ o, 0 ∉ w) → 0 ∉ marked c o := by
    intro c o hc ho
    cases o with
    | none => exact List.not_mem_nil
    | some w => exact List.not_mem_cons_of_ne_of_not_mem (Ne.symm hc) (ho w rfl)
  intro hmem
  rcases List.mem_append.mp hmem with hmem | hmem
  · rcases List.mem_append.mp hmem with hmem | hmem
    · exact hnot (t.path_url 0 hmem)
    · refine hmarked _ _ (by decide) (fun w hw hzero => ?_) hmem
      exact (t.query_url w hw 0 hzero).elim hnot (by decide)
  · refine hmarked _ _ (by decide) (fun w hw hzero => ?_) hmem
    exact (t.fragment_url w hw 0 hzero).elim hnot (by decide)

/-- Of a message that holds one request the URL is handed out in one piece. -/
theorem Whole.pieces (h : Whole message url) (hindex : memory.index < 256)
    (hlength : memory.contentLength < 2 ^ 64) (hsize : message.length ≤ bufsiz) :
    MarkedStream.pieces .url (execute noCallback (init memory .request) message).events = [url] := by
  have hready := ready_init memory
  cases h with
  | request r =>
      obtain ⟨q, hreads, -⟩ := r.reads (V := urls) (.inr rfl) hready
      have hne : r.sent ≠ [] := by simp [Request.sent]
      refine url_whole hindex hlength hne hsize r.target.url_ne (Or.inr rfl) ?_
      rw [hreads 0, Request.tokens, Head.tokens_urls, Body.tokens_urls]
      simp only [List.append_assoc, List.nil_append, List.cons_append]
  | head h =>
      obtain ⟨q, hhead, hsaid⟩ := head_reads (V := urls) noCallback (.inr rfl) hready h
      have hcr := reads_silent (V := urls) (.inr rfl) (emptyLine_starts noCallback hsaid.state)
        (fun _ => rfl) rfl (by dsimp only; decide)
      have htrailing : q.flags.trailing = false := by rw [hsaid.flags]
      have hend := @emptyLine_content { q with state := .headersAlmostDone } rfl htrailing
        (0 + (h.lines ++ [cr]).length)
      have hsplit : h.lines ++ [cr, lf] = h.lines ++ [cr] ++ [lf] := by simp
      refine url_whole hindex hlength (by simp) hsize h.target.url_ne hend ?_
      rw [hsplit, content_append, (hhead.append hcr) 0, bind_of_ok rfl, List.append_nil,
        Head.tokens_urls]

end HttpParser

open CallLog CallLog.Logged HttpParser

/-- What `request_parser`, set up by `http_parser_init` on whatever is in its memory, hands to
`on_path_cb`, which stands in the slot of `on_url`. -/
def requestParser (memory : Counted) : Parser := fun message =>
  MarkedStream.pieces .url (execute noCallback (init memory .request) message).events

variable {memory : Counted}

/-- Messages of one request each deliver the URLs of the requests. -/
theorem delivers_whole (hindex : memory.index < 256) (hlength : memory.contentLength < 2 ^ 64)
    {messages urls : List (List UInt8)} (h : List.Forall₂ Whole messages urls)
    (hsize : ∀ message ∈ messages, message.length ≤ bufsiz) :
    Delivers (requestParser memory) urls messages ∧ ∀ url ∈ urls, url ≠ [] ∧ 0 ∉ url := by
  induction h with
  | nil => exact ⟨⟨nofun, rfl⟩, nofun⟩
  | @cons message url messages urls hwhole _ ih =>
      obtain ⟨hfirst, hsizes⟩ := List.forall_mem_cons.mp hsize
      obtain ⟨hdelivers, hurls⟩ := ih hsizes
      have hpiece : requestParser memory message = [url] := hwhole.pieces hindex hlength hfirst
      have hurl : url ≠ [] ∧ 0 ∉ url := by
        cases hwhole with
        | request r => exact ⟨r.target.url_ne, r.target.url_nul⟩
        | head h => exact ⟨h.target.url_ne, h.target.url_nul⟩
      refine ⟨⟨List.forall_mem_cons.mpr ⟨?_, hdelivers.alone⟩, ?_⟩, List.forall_mem_cons.mpr ⟨hurl, hurls⟩⟩
      · rw [hpiece]
        exact Nat.le_refl 1
      · rw [List.flatMap_cons, hpiece, hdelivers.whole]
        rfl

/-- Two requests, the first of them with a body, on one connection. -/
def twoRequests : List Activity := [arrival post.sent, arrival (get.lines ++ [cr, lf])]

theorem received_twoRequests :
    received (activities (requestParser someMemory) newConnection twoRequests) =
      [post.sent, get.lines ++ [cr, lf]] := by
  decide +kernel

end OsHomeworks.WebServer
