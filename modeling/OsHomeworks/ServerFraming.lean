import OsHomeworks.ServerCalls

/-! The framing of the answers on one connection. `header_is_written` is never cleared, so only the
first answer of a connection has a status header; the framing is right where the first answer ends
the connection. -/

namespace OsHomeworks.WebServer

open CallLog CallLog.Logged

/-- What a call writes to the socket out of `send_buffer`. -/
def Call.headerData : Call → List UInt8
  | .send data => data
  | _ => []

/-- What a call writes to the socket out of a file. -/
def Call.fileData : Call → List UInt8
  | .sendfile data => data
  | .pwrite data => data
  | _ => []

def Call.written (call : Call) : List UInt8 := call.headerData ++ call.fileData

/-- What is written is the status header, once, and then data of a file. -/
def Framed (status : List UInt8) (calls : List Call) : Prop :=
  calls.flatMap Call.headerData = status ∧
    calls.flatMap Call.written = status ++ calls.flatMap Call.fileData

instance (status : List UInt8) (calls : List Call) : Decidable (Framed status calls) :=
  inferInstanceAs (Decidable (_ ∧ _))

/-- A request and its answer. -/
structure Exchange where
  request : RequestAnswers
  reply : SendAnswers

namespace Exchange

variable (parser : Parser) (x : Exchange)

def path : List UInt8 := requestPath parser (x.request.recv.getD [])

/-- The file for the request is opened. -/
def Opened : Prop :=
  x.path parser ≠ [] ∧ x.request.openFile (connectionPath (x.path parser)) ≠ fileNotFound

instance : Decidable (x.Opened parser) := inferInstanceAs (Decidable (_ ∧ _))

/-- The status header that is due. -/
def status : List UInt8 := if x.Opened parser then httpOkMsg else httpNotFoundMsg

/-- The answer ends the connection: there is a file and its type is known. -/
def Closes : Prop :=
  x.Opened parser ∧ determineFileType x.request.stack (x.path parser) ≠ fileNotFound

/-- The request arrives in one `recv` and no call for it fails. No header takes more calls of `send`
than it has bytes. -/
structure Succeeds : Prop where
  requestPeer : 0 ≤ x.request.getPeerAddress
  received : (x.request.recv.getD []) ≠ []
  requestEpoll : 0 ≤ x.request.epollCtl
  replyPeer : 0 ≤ x.reply.getPeerAddress
  send : ∀ bytesSent ∈ x.reply.send, 0 < bytesSent
  sends : httpNotFoundMsg.length ≤ x.reply.send.length
  replyEpoll : 0 ≤ x.reply.epollCtl

end Exchange

/-- A request is handled, then its answer is sent. -/
def exchange (parser : Parser) (conn : Connection) (x : Exchange) :
    Outcome (Option Connection) := do
  match ← handleClientRequest parser conn x.request with
  | none => return none
  | some conn => sendMessage conn x.reply

/-- The requests that are answered on a connection, as long as it is open, each with the calls made
for it. -/
def serve (parser : Parser) : Connection → List Exchange → List (Exchange × List Call)
  | _, [] => []
  | conn, x :: xs =>
      (x, (exchange parser conn x).calls) ::
        match (exchange parser conn x).result with
        | .ok (some conn') => serve parser conn' xs
        | _ => []

/-- Every answer is framed. -/
def AllFramed (parser : Parser) (conn : Connection) (xs : List Exchange) : Prop :=
  ∀ p ∈ serve parser conn xs, Framed (p.1.status parser) p.2

instance (parser : Parser) (conn : Connection) (xs : List Exchange) :
    Decidable (AllFramed parser conn xs) := inferInstanceAs (Decidable (∀ p ∈ _, _))

/-- Where the framing is right: the first request names a file, or `conn->file` is -1 in new memory,
and there is no second request unless the first answer ends the connection. -/
def FramedWhen (parser : Parser) (memory : Connection) : List Exchange → Prop
  | [] => True
  | x :: xs =>
      (x.path parser = [] → memory.file = fileNotFound) ∧ (xs = [] ∨ x.Closes parser)

/-- A header and then calls without one. -/
theorem framed_append {header body : List Call} (hheader : ∀ c ∈ header, c.fileData = [])
    (hbody : ∀ c ∈ body, c.headerData = []) :
    Framed (header.flatMap Call.headerData) (header ++ body) := by
  have hfile : header.flatMap Call.fileData = [] := List.flatMap_eq_nil_iff.mpr hheader
  have hsend : body.flatMap Call.headerData = [] := List.flatMap_eq_nil_iff.mpr hbody
  have hheaderWritten : header.flatMap Call.written = header.flatMap Call.headerData := by
    refine List.flatMap_congr fun c hc => ?_
    rw [Call.written, hheader c hc, List.append_nil]
  have hbodyWritten : body.flatMap Call.written = body.flatMap Call.fileData := by
    refine List.flatMap_congr fun c hc => ?_
    rw [Call.written, hbody c hc, List.nil_append]
  constructor
  · rw [List.flatMap_append, hsend, List.append_nil]
  · rw [List.flatMap_append, List.flatMap_append, hfile, hheaderWritten, hbodyWritten,
      List.nil_append]

theorem Call.OfFile.headerData {c : Call} (h : c.OfFile) : c.headerData = [] := by
  cases c <;> trivial

theorem Call.OfEnd.headerData {c : Call} (h : c.OfEnd) : c.headerData = [] := by
  cases c <;> trivial

theorem Call.OfHeader.fileData {c : Call} (h : c.OfHeader) : c.fileData = [] := by
  cases c <;> trivial

/-- Nothing of `send_buffer` is sent after the header. -/
theorem sendBody_silent (conn : Connection) (answers : SendAnswers) :
    ∀ c ∈ (sendBody conn answers).calls, c.headerData = [] := fun c hc =>
  ((ensures_sendBody conn answers).call c hc).elim Call.OfFile.headerData Call.OfEnd.headerData

/-- The loop sends what is left of the header. -/
theorem sendHeader_sends (conn : Connection) {answers : List Int} (total : ℕ)
    (hpos : ∀ bytesSent ∈ answers, 0 < bytesSent) (hlen : conn.sendLen ≤ total + answers.length) :
    (sendHeader conn total answers).result = .ok true ∧
      (sendHeader conn total answers).calls.flatMap Call.headerData =
        (conn.sendBuffer.take conn.sendLen).drop total := by
  induction answers generalizing total with
  | nil =>
      have hle : (conn.sendBuffer.take conn.sendLen).length ≤ total :=
        Nat.le_trans (List.length_take_le _ _) (by simpa using hlen)
      unfold sendHeader
      rw [if_neg (by simpa using hlen)]
      exact ⟨rfl, (List.drop_eq_nil_of_le hle).symm⟩
  | cons bytesSent answers ih =>
      unfold sendHeader
      split_ifs with hmore hpipe hnone
      · have := hpos bytesSent List.mem_cons_self
        rw [epipe] at hpipe
        omega
      · have := hpos bytesSent List.mem_cons_self
        omega
      · have hpos' : ∀ bytesSent ∈ answers, 0 < bytesSent :=
          fun r hr => hpos r (List.mem_cons_of_mem _ hr)
        rw [List.length_cons] at hlen
        obtain ⟨hresult, hcalls⟩ := ih (total + bytesSent.toNat) hpos' (by omega)
        rw [perform_bind]
        refine ⟨hresult, ?_⟩
        rw [List.flatMap_cons, hcalls, ← List.drop_drop]
        exact List.take_append_drop _ _
      · have hle : (conn.sendBuffer.take conn.sendLen).length ≤ total :=
          Nat.le_trans (List.length_take_le _ _) (by omega)
        exact ⟨rfl, (List.drop_eq_nil_of_le hle).symm⟩

theorem ensures_handleClientRequest (parser : Parser) (conn : Connection)
    (answers : RequestAnswers) :
    Ensures (fun c => c.headerData = [])
      (fun r => ∀ conn', r = some conn' → conn'.headerIsWritten = conn.headerIsWritten)
      (handleClientRequest parser conn answers) := by
  have hopening : ∀ path, ∀ c ∈ opening answers path, c.headerData = [] := by
    intro path c hc
    obtain ⟨name, fd, rfl⟩ := mem_opening hc
    rfl
  by_cases hfails : answers.Fails
  · rw [handleClientRequest_fails parser hfails]
    exact (ensures_removeConnection conn answers.epollCtl).mono (fun _ => Call.OfEnd.headerData)
      fun r hr conn' hconn' => nomatch hr.symm.trans hconn'
  · obtain ⟨hpeer, message, hrecv, hne⟩ := RequestAnswers.received_of_not_fails hfails
    rcases Int.lt_or_le answers.epollCtl 0 with hneg | hok
    · rw [handleClientRequest_die hpeer hrecv hne parser conn hneg]
      exact ⟨hopening _, nofun⟩
    · rw [handleClientRequest_eq hpeer hrecv hne parser conn hok]
      refine ⟨fun c hc => ?_, fun r hr conn' hconn' => ?_⟩
      · rcases List.mem_append.mp hc with hc | hc
        · exact hopening _ c hc
        · rw [List.mem_singleton.mp hc]
          rfl
      · obtain rfl := Except.ok.inj hr
        obtain rfl := Option.some.inj hconn'
        exact prepared_headerIsWritten _ _ _

/-- On a connection that has had its header no other header is sent. -/
theorem sendMessage_silent {conn : Connection} (hwritten : conn.headerIsWritten = true)
    (answers : SendAnswers) :
    ∀ c ∈ (sendMessage conn answers).calls, c.headerData = [] := by
  intro c hc
  rcases (ensures_sendMessage conn answers).call c hc with ⟨-, hnot⟩ | hfile | hend
  · cases hwritten.symm.trans hnot
  · exact hfile.headerData
  · exact hend.headerData

theorem exchange_silent (parser : Parser) {conn : Connection}
    (hwritten : conn.headerIsWritten = true) (x : Exchange) :
    (exchange parser conn x).calls.flatMap Call.headerData = [] := by
  refine List.flatMap_eq_nil_iff.mpr (Ensures.call (Q := fun _ => True) ?_)
  refine (ensures_handleClientRequest parser conn x.request).bind fun r hr => ?_
  cases r with
  | none => exact ensures_pure trivial
  | some conn' =>
      exact ⟨sendMessage_silent ((hr conn' rfl).trans hwritten) x.reply, fun _ _ => trivial⟩

/-- The connection as `handle_client_request` leaves it. -/
def Exchange.prepared (parser : Parser) (x : Exchange) (conn : Connection) : Connection :=
  (conn.received (x.request.recv.getD [])).prepared x.request (x.path parser)

section

variable {x : Exchange} (h : x.Succeeds) (parser : Parser) (conn : Connection)

include h

theorem exchange_eq :
    exchange parser conn x =
      ⟨opening x.request (x.path parser) ++ [.epollUpdate conn.sockfd .inputOutput] ++
          (sendMessage (x.prepared parser conn) x.reply).calls,
        (sendMessage (x.prepared parser conn) x.reply).result⟩ := by
  obtain ⟨message, hrecv⟩ : ∃ message, x.request.recv = some message := by
    cases hrecv : x.request.recv with
    | none =>
        have hne := h.received
        rw [hrecv] at hne
        exact absurd rfl hne
    | some message => exact ⟨message, rfl⟩
  have hmessage : x.request.recv.getD [] = message := by rw [hrecv, Option.getD_some]
  have hne : message ≠ [] := hmessage ▸ h.received
  have hhandle := handleClientRequest_eq h.requestPeer hrecv hne parser conn h.requestEpoll
  unfold exchange Exchange.prepared Exchange.path
  rw [hmessage, hhandle]
  rfl

/-- The answer to the first request: a header, which follows `conn->file`, and then none. -/
theorem exchange_first (hwritten : conn.headerIsWritten = false) :
    Framed (if (x.prepared parser conn).file = fileNotFound then httpNotFoundMsg else httpOkMsg)
        (exchange parser conn x).calls ∧
      (exchange parser conn x).result = (sendBody (x.prepared parser conn) x.reply).result := by
  have hstate : (x.prepared parser conn).state = .dataReceived := prepared_state _ _ _
  have hopen : (x.prepared parser conn).headerIsWritten = false :=
    (prepared_headerIsWritten _ _ _).trans hwritten
  obtain ⟨hheader, hlen⟩ := prepared_header (conn.received (x.request.recv.getD [])) x.request
    (x.path parser)
  have hsend : writeHeader (x.prepared parser conn) x.reply =
      sendHeader (x.prepared parser conn) 0 x.reply.send := writeHeader_fresh hopen x.reply
  obtain ⟨hresult, hcalls⟩ := sendHeader_sends (x.prepared parser conn) 0 h.send
    (by rw [Nat.zero_add]; exact Nat.le_trans hlen h.sends)
  have hfile := (ensures_sendHeader (x.prepared parser conn) 0 x.reply.send).call
  rw [exchange_eq h parser conn, sendMessage_eq (by rw [hstate]; nofun) h.replyPeer
    (by rw [hsend]; exact hresult), hsend]
  refine ⟨?_, rfl⟩
  have hbefore : ∀ c ∈ opening x.request (x.path parser) ++
      [Call.epollUpdate conn.sockfd .inputOutput], c.headerData = [] ∧ c.fileData = [] := by
    intro c hc
    rcases List.mem_append.mp hc with hc | hc
    · obtain ⟨name, fd, rfl⟩ := mem_opening hc
      exact ⟨rfl, rfl⟩
    · rw [List.mem_singleton.mp hc]
      exact ⟨rfl, rfl⟩
  rw [← List.append_assoc]
  have hheaderCalls : ∀ c ∈ opening x.request (x.path parser) ++
      [Call.epollUpdate conn.sockfd .inputOutput] ++
      (sendHeader (x.prepared parser conn) 0 x.reply.send).calls, c.fileData = [] :=
    fun c hc => (List.mem_append.mp hc).elim (fun hc => (hbefore c hc).2)
      fun hc => (hfile c hc).fileData
  have hframed := framed_append hheaderCalls (sendBody_silent (x.prepared parser conn) x.reply)
  rwa [List.flatMap_append, List.flatMap_eq_nil_iff.mpr fun c hc => (hbefore c hc).1,
    List.nil_append, hcalls, List.drop_zero, show (x.prepared parser conn).sendBuffer.take
      (x.prepared parser conn).sendLen = _ from hheader] at hframed

end

theorem determineFileType_cases (stack : Stack) (path : List UInt8) :
    determineFileType stack path = static ∨ determineFileType stack path = dynamic ∨
      determineFileType stack path = fileNotFound := by
  unfold determineFileType
  dsimp only
  split
  · exact Or.inr (Or.inr rfl)
  · split_ifs
    · exact Or.inl rfl
    · exact Or.inr (Or.inl rfl)
    · exact Or.inr (Or.inr rfl)

/-- A file is sent exactly if the answer is to end the connection. -/
theorem prepared_sends_iff {parser : Parser} {x : Exchange} {conn : Connection}
    (hfirst : x.path parser = [] → conn.file = fileNotFound) :
    (x.prepared parser conn).Sends ↔ x.Closes parser := by
  have hfile : (x.prepared parser conn).file = _ := prepared_file _ _ _
  have htype : (x.prepared parser conn).fileType = _ := prepared_fileType _ _ _
  unfold Connection.Sends Connection.Typed Exchange.Closes Exchange.Opened
  rw [hfile, htype]
  by_cases hpath : x.path parser = []
  · rw [if_pos hpath]
    exact ⟨fun hsends => absurd (hfirst hpath) hsends.1, fun hcloses => absurd hpath hcloses.1.1⟩
  · rw [if_neg hpath, if_neg hpath]
    refine ⟨fun ⟨hopen, htyped⟩ => ⟨⟨hpath, hopen⟩, ?_⟩, fun ⟨hopened, hknown⟩ => ⟨hopened.2, ?_⟩⟩
    · rcases htyped with h | h <;> rw [h] <;> decide
    · rcases determineFileType_cases x.request.stack (x.path parser) with h | h | h
      · exact Or.inl h
      · exact Or.inr h
      · exact absurd h hknown

theorem sendBody_closes {conn : Connection} (hsends : conn.Sends) (answers : SendAnswers)
    (conn' : Connection) : (sendBody conn answers).result ≠ .ok (some conn') := by
  intro hresult
  obtain ⟨conn₁, hwrite, hfinish⟩ := bind_result_eq_ok.mp hresult
  have hstate : conn₁.state = .dataSent := by
    rcases (ensures_writeFile { conn with headerIsWritten := true } answers).value conn₁ hwrite
      with ⟨-, rfl⟩ | ⟨hnot, -⟩
    · rfl
    · exact absurd hsends hnot
  rw [finishMessage_removes hstate] at hfinish
  exact nomatch (ensures_removeConnection conn₁ answers.epollCtl).value _ hfinish

theorem sendBody_keeps {conn : Connection} (hnot : ¬conn.Sends) (hstate : conn.state ≠ .dataSent)
    {answers : SendAnswers} (hepoll : 0 ≤ answers.epollCtl) :
    ∃ conn', (sendBody conn answers).result = .ok (some conn') ∧ conn'.headerIsWritten = true := by
  have hnot' : ¬{ conn with headerIsWritten := true }.Sends := hnot
  have hstate' : { conn with headerIsWritten := true }.state ≠ .dataSent := hstate
  unfold sendBody
  rw [writeFile_eq hnot', ok_bind, finishMessage_keeps hstate' hepoll]
  exact ⟨_, rfl, rfl⟩

/-- The header that follows `conn->file` is the one that is due, unless a request that names no file
meets a file. -/
theorem status_eq_iff (parser : Parser) (x : Exchange) (conn : Connection) :
    (if (x.prepared parser conn).file = fileNotFound then httpNotFoundMsg else httpOkMsg) =
        x.status parser ↔
      (x.path parser = [] → conn.file = fileNotFound) := by
  have hne : httpOkMsg ≠ httpNotFoundMsg := by decide
  have hfile : (x.prepared parser conn).file = if x.path parser = [] then conn.file
      else x.request.openFile (connectionPath (x.path parser)) := prepared_file _ _ _
  unfold Exchange.status
  rw [hfile]
  by_cases hpath : x.path parser = []
  · have hnot : ¬x.Opened parser := fun hopened => hopened.1 hpath
    rw [if_pos hpath, if_neg hnot]
    by_cases hnone : conn.file = fileNotFound
    · rw [if_pos hnone]
      exact ⟨fun _ _ => hnone, fun _ => rfl⟩
    · rw [if_neg hnone]
      exact ⟨fun h => absurd h hne, fun h => absurd (h hpath) hnone⟩
  · rw [if_neg hpath]
    refine ⟨fun _ h => absurd h hpath, fun _ => ?_⟩
    by_cases hnone : x.request.openFile (connectionPath (x.path parser)) = fileNotFound
    · have hnot : ¬x.Opened parser := fun hopened => hopened.2 hnone
      rw [if_pos hnone, if_neg hnot]
    · have hopened : x.Opened parser := ⟨hpath, hnone⟩
      rw [if_neg hnone, if_pos hopened]

theorem Framed.unique {status status' : List UInt8} {calls : List Call} (h : Framed status calls)
    (h' : Framed status' calls) : status = status' := h.1.symm.trans h'.1

/-- The exchanges that follow one with the given result. -/
theorem serve_cons (parser : Parser) (conn : Connection) (x : Exchange) (xs : List Exchange) :
    (∀ conn', (exchange parser conn x).result = .ok (some conn') →
      serve parser conn (x :: xs) =
        (x, (exchange parser conn x).calls) :: serve parser conn' xs) ∧
    ((∀ conn', (exchange parser conn x).result ≠ .ok (some conn')) →
      serve parser conn (x :: xs) = [(x, (exchange parser conn x).calls)]) := by
  rw [serve]
  constructor
  · intro conn' hresult
    rw [hresult]
  · intro hresult
    split
    · exact absurd ‹_› (hresult _)
    · rfl

/-- The second answer on a connection is not framed. -/
theorem not_allFramed_of_written (parser : Parser) {conn : Connection}
    (hwritten : conn.headerIsWritten = true) (x : Exchange) (xs : List Exchange) :
    ¬AllFramed parser conn (x :: xs) := by
  intro hall
  have hmem : (x, (exchange parser conn x).calls) ∈ serve parser conn (x :: xs) := by
    rw [serve]
    exact List.mem_cons_self
  have hframed := (hall _ hmem).1
  rw [exchange_silent parser hwritten x] at hframed
  have hne : x.status parser ≠ [] := by
    unfold Exchange.status
    split_ifs <;> decide
  exact hne hframed.symm

theorem allFramed_iff (parser : Parser) {conn : Connection} (hwritten : conn.headerIsWritten = false)
    {xs : List Exchange} (hsucceeds : ∀ x ∈ xs, x.Succeeds) :
    AllFramed parser conn xs ↔ FramedWhen parser conn xs := by
  cases xs with
  | nil => exact ⟨fun _ => trivial, fun _ => nofun⟩
  | cons x xs =>
      have hx := hsucceeds x List.mem_cons_self
      obtain ⟨hframed, hresult⟩ := exchange_first hx parser conn hwritten
      obtain ⟨hgoesOn, hends⟩ := serve_cons parser conn x xs
      have hstatus := status_eq_iff parser x conn
      have hstate : (x.prepared parser conn).state = .dataReceived := prepared_state _ _ _
      by_cases hfirst : x.path parser = [] → conn.file = fileNotFound
      · rw [hstatus.mpr hfirst] at hframed
        by_cases hcloses : x.Closes parser
        · have hclosed : serve parser conn (x :: xs) = [(x, (exchange parser conn x).calls)] := by
            refine hends fun conn' h => ?_
            exact sendBody_closes ((prepared_sends_iff hfirst).mpr hcloses) _ conn'
              (hresult.symm.trans h)
          unfold AllFramed
          rw [hclosed, List.forall_mem_singleton]
          exact ⟨fun _ => ⟨hfirst, Or.inr hcloses⟩, fun _ => hframed⟩
        · obtain ⟨conn', hkept, hheader⟩ := sendBody_keeps
            (fun hsends => hcloses ((prepared_sends_iff hfirst).mp hsends))
            (by rw [hstate]; nofun) hx.replyEpoll
          have hopen := hgoesOn conn' (hresult.trans hkept)
          unfold AllFramed
          rw [hopen, List.forall_mem_cons]
          cases xs with
          | nil => exact ⟨fun _ => ⟨hfirst, Or.inl rfl⟩, fun _ => ⟨hframed, nofun⟩⟩
          | cons y ys =>
              refine ⟨fun h => absurd h.2 (not_allFramed_of_written parser hheader y ys), fun h => ?_⟩
              exact (h.2.elim nofun hcloses).elim
      · refine ⟨fun hall => absurd ?_ hfirst, fun h => absurd h.1 hfirst⟩
        have hmem : (x, (exchange parser conn x).calls) ∈ serve parser conn (x :: xs) := by
          rw [serve]
          exact List.mem_cons_self
        exact hstatus.mp (hframed.unique (hall _ hmem))

/-- Every answer on a connection is framed exactly if the first request names a file, or
`conn->file` is -1 in new memory, and no second request comes unless the first answer ends the
connection. -/
theorem response_framing (parser : Parser) (memory : Connection) (sockfd : Int)
    (xs : List Exchange) (hsucceeds : ∀ x ∈ xs, x.Succeeds) :
    AllFramed parser (connectionCreate memory sockfd) xs ↔ FramedWhen parser memory xs :=
  allFramed_iff parser rfl hsucceeds

/-- A request for a file that does not exist, and its answer. -/
def missingFile : Exchange :=
  ⟨⟨0, some (bytes "GET /static/a HTTP/1.0\r\n\r\n"), ⟨[], []⟩, fun _ => -1, fun _ => 0, 0⟩,
    ⟨0, 10 :: List.replicate 25 16, [], [], 7, fun _ => [], 0, [], 0⟩⟩

theorem missingFile_succeeds : missingFile.Succeeds :=
  ⟨by decide, by decide, by decide, by decide, by decide, by decide, by decide⟩

/-- A request for a file of one byte, and its answer. -/
def storedFile : Exchange :=
  ⟨⟨0, some (bytes "GET /static/a HTTP/1.0\r\n\r\n"), ⟨[], []⟩, fun _ => 7, fun _ => 1, 0⟩,
    ⟨0, 10 :: List.replicate 25 16, [65], [1], 7, fun _ => [], 0, [], 0⟩⟩

theorem storedFile_succeeds : storedFile.Succeeds :=
  ⟨by decide, by decide, by decide, by decide, by decide, by decide, by decide⟩

/-- The answer with the file ends the connection, and the second request is not received on it. -/
theorem response_framing_storedFile :
    (serve getParser (connectionCreate clearedMemory 5) [storedFile, missingFile]).length = 1 ∧
      AllFramed getParser (connectionCreate clearedMemory 5) [storedFile, missingFile] := by
  have hsucceeds : ∀ x ∈ [storedFile, missingFile], x.Succeeds := by
    simp [storedFile_succeeds, missingFile_succeeds]
  have hframed : FramedWhen getParser clearedMemory [storedFile, missingFile] :=
    ⟨by decide +kernel, Or.inr ⟨⟨by decide +kernel, by decide +kernel⟩, by decide +kernel⟩⟩
  exact ⟨by decide +kernel,
    (response_framing getParser clearedMemory 5 [storedFile, missingFile] hsucceeds).mpr hframed⟩

/-- The answer to a second request for a missing file has no header. -/
theorem second_answer_unframed :
    missingFile.Succeeds ∧
      ¬AllFramed getParser (connectionCreate clearedMemory 5) [missingFile, missingFile] :=
  ⟨missingFile_succeeds, by decide +kernel⟩

end OsHomeworks.WebServer
