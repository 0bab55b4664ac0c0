import OsHomeworks.ServerModel

/-! What each function of the server can do: the calls it makes and the connection it leaves. -/

namespace OsHomeworks.WebServer

open CallLog CallLog.Logged

/-- A call of the loop that sends the header. -/
def Call.OfHeader : Call → Prop
  | .send _ => True
  | _ => False

/-- A call that moves the data of a file, or gives back the memory for it. -/
def Call.OfTransfer : Call → Prop
  | .sendfile _ => True
  | .pwrite _ => True
  | .freeEntries _ => True
  | _ => False

/-- A call that `send_file_by_type` makes. -/
def Call.OfFile : Call → Prop
  | .sendfile _ => True
  | .eventfd _ => True
  | .pwrite _ => True
  | .freeEntries _ => True
  | _ => False

/-- A call at the end of a handler: for the entry in the epoll set, or to remove the connection. -/
def Call.OfEnd : Call → Prop
  | .epollUpdate _ _ => True
  | .epollRemove _ => True
  | .shutdown _ => True
  | .close _ => True
  | .free => True
  | _ => False

theorem Call.OfTransfer.ofFile {call : Call} (h : call.OfTransfer) : call.OfFile := by
  cases call <;> trivial

theorem ensures_dieIf {P : Call → Prop} {Q : Unit → Prop} {assertion : Bool} {text : String}
    (h : Q ()) : Ensures P Q (dieIf assertion text) := by
  unfold dieIf
  split_ifs
  · exact ensures_abort
  · exact ensures_pure h

theorem dieIf_neg {assertion : Prop} [Decidable assertion] (h : ¬assertion) (text : String) :
    dieIf assertion text = pure () := by
  unfold dieIf
  rw [if_neg (by rwa [decide_eq_true_iff])]

theorem dieIf_pos {assertion : Prop} [Decidable assertion] (h : assertion) (text : String) :
    dieIf assertion text = abort (.die text) := by
  unfold dieIf
  rw [if_pos (by rwa [decide_eq_true_iff])]

/-- The calls that remove a connection. -/
def removal (conn : Connection) : List Call :=
  [.epollRemove conn.sockfd, .shutdown conn.sockfd] ++
    (if conn.file ≠ -1 then [.close conn.file] else []) ++ [.free]

theorem removeConnection_eq (conn : Connection) {epollCtl : Int} (h : 0 ≤ epollCtl) :
    removeConnection conn epollCtl = ⟨removal conn, .ok none⟩ := by
  unfold removeConnection connectionRemove removal
  rw [dieIf_neg (Int.not_lt.mpr h), ok_bind]
  split_ifs <;> rfl

theorem removeConnection_die (conn : Connection) {epollCtl : Int} (h : epollCtl < 0) :
    removeConnection conn epollCtl = abort (.die "w_epoll_remove_ptr") := by
  unfold removeConnection
  rw [dieIf_pos h, abort_bind]

theorem ensures_removeConnection (conn : Connection) (epollCtl : Int) :
    Ensures Call.OfEnd (· = none) (removeConnection conn epollCtl) := by
  rcases Int.lt_or_le epollCtl 0 with hneg | hok
  · rw [removeConnection_die conn hneg]
    exact ensures_abort
  · rw [removeConnection_eq conn hok]
    refine ⟨fun c hc => ?_, fun r hr => (Except.ok.inj hr).symm⟩
    have hc' : c ∈ removal conn := hc
    unfold removal at hc'
    split_ifs at hc' <;> simp only [List.mem_append, List.mem_cons, List.not_mem_nil, or_false] at hc'
    · rcases hc' with ((rfl | rfl) | rfl) | rfl <;> trivial
    · rcases hc' with (rfl | rfl) | rfl <;> trivial

/-- `receive_message` comes to its label `remove_connection`. -/
def RequestAnswers.Fails (answers : RequestAnswers) : Prop :=
  answers.getPeerAddress < 0 ∨ answers.recv = none ∨ answers.recv = some []

instance (answers : RequestAnswers) : Decidable answers.Fails :=
  inferInstanceAs (Decidable (_ ∨ _))

namespace Connection

/-- A connection with a message in its buffer. -/
def received (conn : Connection) (message : List UInt8) : Connection :=
  { conn with
    recvBuffer := message ++ conn.recvBuffer.drop message.length
    recvLen := message.length
    state := .dataReceived }

/-- A connection with the path that was parsed and its file. -/
def located (conn : Connection) (answers : RequestAnswers) (path : List UInt8) : Connection :=
  if path = [] then conn
  else { conn with
    path := connectionPath path
    file := answers.openFile (connectionPath path)
    fileType := determineFileType answers.stack path }

/-- A connection with its path, its file and the header of its answer. -/
def prepared (conn : Connection) (answers : RequestAnswers) (path : List UInt8) : Connection :=
  setConnectionSendBuffer (conn.located answers path) answers
    ((conn.located answers path).file = fileNotFound)

end Connection

/-- The path of a message: what the parser leaves in the global `path`, up to its NUL. -/
def requestPath (parser : Parser) (message : List UInt8) : List UInt8 :=
  cString (parsePath parser message)

/-- The calls of `set_connection_path_and_file`. -/
def opening (answers : RequestAnswers) (path : List UInt8) : List Call :=
  if path = [] then []
  else if 0 ≤ answers.openFile (connectionPath path) then
    [.openFile (connectionPath path) (answers.openFile (connectionPath path))]
  else []

theorem mem_opening {answers : RequestAnswers} {path : List UInt8} {c : Call}
    (h : c ∈ opening answers path) : ∃ name fd, c = .openFile name fd := by
  unfold opening at h
  split_ifs at h
  · cases h
  · exact ⟨_, _, List.mem_singleton.mp h⟩
  · cases h

theorem receiveMessage_fails {answers : RequestAnswers} (h : answers.Fails) (conn : Connection) :
    receiveMessage conn answers = removeConnection conn answers.epollCtl := by
  unfold receiveMessage
  by_cases hpeer : answers.getPeerAddress < 0
  · rw [if_pos hpeer]
  · rw [if_neg hpeer]
    rcases h with h | h | h
    · exact absurd h hpeer
    · rw [h]
    · rw [h]

theorem receiveMessage_eq {answers : RequestAnswers} {message : List UInt8}
    (hpeer : 0 ≤ answers.getPeerAddress) (hrecv : answers.recv = some message)
    (hne : message ≠ []) (conn : Connection) :
    receiveMessage conn answers = pure (some (conn.received message)) := by
  have hnot : ¬answers.getPeerAddress < 0 := by omega
  unfold receiveMessage
  rw [if_neg hnot, hrecv]
  cases message with
  | nil => exact absurd rfl hne
  | cons b message => rfl

theorem RequestAnswers.received_of_not_fails {answers : RequestAnswers} (h : ¬answers.Fails) :
    0 ≤ answers.getPeerAddress ∧ ∃ message, answers.recv = some message ∧ message ≠ [] := by
  have hpeer : 0 ≤ answers.getPeerAddress := Int.not_lt.mp fun hlt => h (Or.inl hlt)
  have hnone : answers.recv ≠ none := fun hrecv => h (Or.inr (Or.inl hrecv))
  have hnil : answers.recv ≠ some [] := fun hrecv => h (Or.inr (Or.inr hrecv))
  cases hrecv : answers.recv with
  | none => exact absurd hrecv hnone
  | some message => exact ⟨hpeer, message, rfl, fun h => hnil (h ▸ hrecv)⟩

theorem setConnectionPathAndFile_eq (conn : Connection) (answers : RequestAnswers)
    (path : List UInt8) :
    setConnectionPathAndFile conn answers path =
      ⟨opening answers (cString path), .ok (conn.located answers (cString path))⟩ := by
  unfold setConnectionPathAndFile opening Connection.located
  dsimp only
  split_ifs with hpath hfile
  · rfl
  · rfl
  · rfl

/-- What the parser is given is the message. -/
theorem received_take (conn : Connection) (message : List UInt8) :
    (conn.received message).recvBuffer.take (conn.received message).recvLen = message :=
  List.take_left

theorem prepared_sockfd (conn : Connection) (answers : RequestAnswers) (path : List UInt8) :
    (conn.prepared answers path).sockfd = conn.sockfd := by
  unfold Connection.prepared setConnectionSendBuffer Connection.located
  split_ifs <;> rfl

theorem prepared_state (conn : Connection) (answers : RequestAnswers) (path : List UInt8) :
    (conn.prepared answers path).state = conn.state := by
  unfold Connection.prepared setConnectionSendBuffer Connection.located
  split_ifs <;> rfl

theorem prepared_file (conn : Connection) (answers : RequestAnswers) (path : List UInt8) :
    (conn.prepared answers path).file =
      if path = [] then conn.file else answers.openFile (connectionPath path) := by
  unfold Connection.prepared setConnectionSendBuffer Connection.located
  split_ifs <;> rfl

theorem prepared_fileType (conn : Connection) (answers : RequestAnswers) (path : List UInt8) :
    (conn.prepared answers path).fileType =
      if path = [] then conn.fileType else determineFileType answers.stack path := by
  unfold Connection.prepared setConnectionSendBuffer Connection.located
  split_ifs <;> rfl

/-- The header follows `conn->file`. -/
theorem prepared_header (conn : Connection) (answers : RequestAnswers) (path : List UInt8) :
    (conn.prepared answers path).sendBuffer.take (conn.prepared answers path).sendLen =
        (if (conn.prepared answers path).file = fileNotFound then httpNotFoundMsg else httpOkMsg) ∧
      (conn.prepared answers path).sendLen ≤ httpNotFoundMsg.length := by
  have hlen : httpOkMsg.length ≤ httpNotFoundMsg.length := by decide
  rw [prepared_file]
  unfold Connection.prepared setConnectionSendBuffer Connection.located
  split_ifs <;> simp_all

theorem prepared_headerIsWritten (conn : Connection) (answers : RequestAnswers)
    (path : List UInt8) :
    (conn.prepared answers path).headerIsWritten = conn.headerIsWritten := by
  unfold Connection.prepared setConnectionSendBuffer Connection.located
  split_ifs <;> rfl

theorem handleClientRequest_fails (parser : Parser) {answers : RequestAnswers}
    (h : answers.Fails) (conn : Connection) :
    handleClientRequest parser conn answers = removeConnection conn answers.epollCtl := by
  unfold handleClientRequest
  rw [receiveMessage_fails h]
  rcases Int.lt_or_le answers.epollCtl 0 with hneg | hok
  · rw [removeConnection_die conn hneg, abort_bind]
  · rw [removeConnection_eq conn hok, bind_of_ok rfl]
    rw [pure_calls, pure_result, List.append_nil]

section

variable {answers : RequestAnswers} {message : List UInt8} (hpeer : 0 ≤ answers.getPeerAddress)
  (hrecv : answers.recv = some message) (hne : message ≠ [])

include hpeer hrecv hne

theorem handleClientRequest_eq (parser : Parser) (conn : Connection)
    (hepoll : 0 ≤ answers.epollCtl) :
    handleClientRequest parser conn answers =
      ⟨opening answers (requestPath parser message) ++ [.epollUpdate conn.sockfd .inputOutput],
        .ok (some ((conn.received message).prepared answers (requestPath parser message)))⟩ := by
  have hsockfd : ((conn.received message).prepared answers (requestPath parser message)).sockfd =
      conn.sockfd := prepared_sockfd _ _ _
  unfold handleClientRequest
  rw [receiveMessage_eq hpeer hrecv hne, ok_bind]
  dsimp only
  rw [received_take, setConnectionPathAndFile_eq, bind_of_ok rfl,
    dieIf_neg (Int.not_lt.mpr hepoll), ok_bind, perform_bind]
  rw [← hsockfd]
  rfl

theorem handleClientRequest_die (parser : Parser) (conn : Connection)
    (hepoll : answers.epollCtl < 0) :
    handleClientRequest parser conn answers =
      ⟨opening answers (requestPath parser message), .error (.die "w_epoll_add_ptr_inout")⟩ := by
  unfold handleClientRequest
  rw [receiveMessage_eq hpeer hrecv hne, ok_bind]
  dsimp only
  rw [received_take, setConnectionPathAndFile_eq, bind_of_ok rfl, dieIf_pos hepoll, abort_bind,
    abort_calls, List.append_nil]
  rfl

end

theorem ensures_entry {β : Type} {P : Call → Prop} (array : List (Option β)) (i : ℕ) :
    Ensures P (fun _ => True) (entry array i) := by
  unfold entry
  split
  · exact ensures_abort
  · exact ensures_abort
  · exact ensures_pure trivial

theorem ensures_allocateEntries {β : Type} {P : Call → Prop} (memory : ℕ → β) (i n : ℕ)
    (array : List (Option β)) :
    Ensures P (fun _ => True) (allocateEntries memory i n array) := by
  induction n generalizing i array with
  | zero => exact ensures_pure trivial
  | succ n ih =>
      unfold allocateEntries
      split_ifs
      · exact ih (i + 1) _
      · exact ensures_abort

theorem ensures_asyncIOWait {P : Call → Prop} (answers : List Int) :
    Ensures P (fun _ => True) (asyncIOWait answers) := by
  induction answers with
  | nil => exact ensures_abort
  | cons noEventsRead answers ih =>
      unfold asyncIOWait
      split_ifs
      · exact ensures_abort
      · exact ih
      · exact ensures_pure trivial

theorem ensures_sendStaticLoop (conn : Connection) (content : List UInt8) (sentBytes : Int)
    (answers : List Int) :
    Ensures Call.OfTransfer (fun _ => True) (sendStaticLoop conn content sentBytes answers) := by
  induction answers generalizing sentBytes with
  | nil =>
      unfold sendStaticLoop
      split_ifs
      · exact ensures_abort
      · exact ensures_pure trivial
  | cons rc answers ih =>
      unfold sendStaticLoop
      split_ifs
      · exact ensures_abort
      · refine (ensures_dieIf (Q := fun _ => True) trivial).bind fun _ _ => ?_
        refine (ensures_perform (Q := fun _ => True) trivial trivial).bind fun _ _ => ?_
        exact ih (sentBytes + rc)
      · exact ensures_pure trivial

theorem iocbSetup_die (conn : Connection) {answers : SendAnswers} (h : answers.eventfd < 0) :
    iocbSetup conn answers = abort (.die "Invalid eventfd!\n") := by
  unfold iocbSetup
  rw [dieIf_pos h, abort_bind]

/-- The only call that `iocb_setup` logs is the one that creates the eventfd. -/
theorem iocbSetup_calls (conn : Connection) (answers : SendAnswers) :
    (iocbSetup conn answers).calls =
      if answers.eventfd < 0 then [] else [.eventfd answers.eventfd] := by
  have hdie : ∀ assertion text, Ensures (fun _ => False) (fun _ => True) (dieIf assertion text) :=
    fun _ _ => ensures_dieIf trivial
  have hsilent : ∀ {α : Type} {x : Outcome α}, Ensures (fun _ => False) (fun _ => True) x →
      x.calls = [] := fun hx => List.eq_nil_iff_forall_not_mem.mpr hx.call
  by_cases hfd : answers.eventfd < 0
  · rw [iocbSetup_die conn hfd, if_pos hfd, abort_calls]
  · unfold iocbSetup
    rw [if_neg hfd, dieIf_neg hfd, ok_bind, perform_bind]
    apply congrArg (List.cons _)
    dsimp only
    split_ifs
    · rw [abort_bind]
      rfl
    · apply hsilent
      refine (ensures_allocateEntries _ _ _ _).bind fun _ _ => ?_
      refine (ensures_allocateEntries _ _ _ _).bind fun _ _ => ?_
      refine (ensures_allocateEntries _ _ _ _).bind fun _ _ => ?_
      exact (hdie _ _).bind fun _ _ => ensures_pure trivial

theorem ensures_iocbSetup (conn : Connection) (answers : SendAnswers) :
    Ensures Call.OfFile (fun _ => True) (iocbSetup conn answers) := by
  refine ⟨fun call hcall => ?_, fun _ _ => trivial⟩
  rw [iocbSetup_calls] at hcall
  split_ifs at hcall
  · cases hcall
  · rw [List.mem_singleton.mp hcall]
    trivial

theorem ensures_sendDynamicLoop (conn : Connection) (content : List UInt8) (aio : Aio) (i : ℕ)
    (sentBytes : Int) (answers : List BlockAnswers) :
    Ensures Call.OfTransfer (fun _ => True)
      (sendDynamicLoop conn content aio i sentBytes answers) := by
  have hdie : ∀ assertion text, Ensures Call.OfTransfer (fun _ => True) (dieIf assertion text) :=
    fun _ _ => ensures_dieIf trivial
  induction answers generalizing aio i sentBytes with
  | nil =>
      unfold sendDynamicLoop
      split_ifs
      · exact ensures_abort
      · exact ensures_pure trivial
  | cons answer answers ih =>
      unfold sendDynamicLoop
      split_ifs
      · refine (ensures_entry _ _).bind fun _ _ => (ensures_entry _ _).bind fun block _ => ?_
        refine (hdie _ _).bind fun _ _ => (ensures_asyncIOWait _).bind fun _ _ => ?_
        refine (ensures_entry _ _).bind fun _ _ => (hdie _ _).bind fun _ _ => ?_
        refine (ensures_asyncIOWait _).bind fun _ _ => ?_
        exact (ensures_perform (Q := fun _ => True) trivial trivial).bind fun _ _ => ih _ _ _
      · exact ensures_pure trivial

theorem ensures_ioFree (aio : Aio) (i n : ℕ) :
    Ensures Call.OfTransfer (fun _ => True) (ioFree aio i n) := by
  induction n generalizing i with
  | zero => exact ensures_pure trivial
  | succ n ih =>
      unfold ioFree
      refine (ensures_entry _ _).bind fun _ _ => (ensures_entry _ _).bind fun _ _ => ?_
      refine (ensures_entry _ _).bind fun _ _ => ?_
      exact (ensures_perform (Q := fun _ => True) trivial trivial).bind fun _ _ => ih (i + 1)

/-- The type of the file is one of the two that are sent. -/
def Connection.Typed (conn : Connection) : Prop :=
  conn.fileType = static ∨ conn.fileType = dynamic

/-- Only the state changes, and only where the file is sent. -/
theorem ensures_sendFileByType (conn : Connection) (answers : SendAnswers) :
    Ensures Call.OfFile
      (fun conn' => conn.Typed ∧ conn' = { conn with state := .dataSent } ∨
        ¬conn.Typed ∧ conn' = conn)
      (sendFileByType conn answers) := by
  unfold sendFileByType
  split_ifs with hstatic hdynamic
  · unfold sendStaticFile
    refine ((ensures_sendStaticLoop conn answers.content 0 answers.sendfile).mono
      (fun _ => Call.OfTransfer.ofFile) fun _ h => h).bind fun _ _ => ?_
    exact ensures_pure (Or.inl ⟨Or.inl hstatic, rfl⟩)
  · unfold sendDynamicFile
    refine (ensures_iocbSetup conn answers).bind fun aio _ => ?_
    refine ((ensures_sendDynamicLoop conn answers.content aio 0 0 answers.blocks).mono
      (fun _ => Call.OfTransfer.ofFile) fun _ h => h).bind fun aio _ => ?_
    refine ((ensures_ioFree aio 0 (blockCount conn)).mono (fun _ => Call.OfTransfer.ofFile)
      fun _ h => h).bind fun _ _ => ?_
    exact ensures_pure (Or.inl ⟨Or.inr hdynamic, rfl⟩)
  · exact ensures_pure (Or.inr ⟨fun h => h.elim hstatic hdynamic, rfl⟩)

theorem ensures_sendHeader (conn : Connection) (total : ℕ) (answers : List Int) :
    Ensures Call.OfHeader (fun _ => True) (sendHeader conn total answers) := by
  induction answers generalizing total with
  | nil =>
      unfold sendHeader
      split_ifs
      · exact ensures_abort
      · exact ensures_pure trivial
  | cons bytesSent answers ih =>
      unfold sendHeader
      split_ifs
      · exact ensures_abort
      · exact ensures_pure trivial
      · exact (ensures_perform (Q := fun _ => True) trivial trivial).bind fun _ _ => ih _
      · exact ensures_pure trivial

/-- The file of the connection is sent with its answer. -/
def Connection.Sends (conn : Connection) : Prop := conn.file ≠ fileNotFound ∧ conn.Typed

/-- Only a file that is sent changes the state. -/
theorem ensures_writeFile (conn : Connection) (answers : SendAnswers) :
    Ensures Call.OfFile
      (fun conn' => conn.Sends ∧ conn' = { conn with state := .dataSent } ∨
        ¬conn.Sends ∧ conn' = conn)
      (writeFile conn answers) := by
  unfold writeFile
  split_ifs with hfile
  · refine (ensures_sendFileByType conn answers).mono (fun _ h => h) fun conn' h => ?_
    exact h.imp (fun h => ⟨⟨hfile, h.1⟩, h.2⟩) fun h => ⟨fun hsends => h.1 hsends.2, h.2⟩
  · exact ensures_pure (Or.inr ⟨fun hsends => hfile hsends.1, rfl⟩)

theorem writeFile_eq {conn : Connection} (h : ¬conn.Sends) (answers : SendAnswers) :
    writeFile conn answers = pure conn := by
  unfold writeFile
  split_ifs with hfile
  · unfold sendFileByType
    rw [if_neg fun hstatic => h ⟨hfile, Or.inl hstatic⟩,
      if_neg fun hdynamic => h ⟨hfile, Or.inr hdynamic⟩]
  · rfl

theorem finishMessage_removes {conn : Connection} (hstate : conn.state = .dataSent)
    (answers : SendAnswers) :
    finishMessage conn answers = removeConnection conn answers.epollCtl := by
  unfold finishMessage
  rw [if_pos hstate]

theorem finishMessage_keeps {conn : Connection} (hstate : conn.state ≠ .dataSent)
    {answers : SendAnswers} (hepoll : 0 ≤ answers.epollCtl) :
    finishMessage conn answers = ⟨[.epollUpdate conn.sockfd .input],
      .ok (some { conn with state := .dataSent })⟩ := by
  unfold finishMessage
  rw [if_neg hstate, dieIf_neg (Int.not_lt.mpr hepoll), ok_bind, perform_bind]
  rfl

theorem finishMessage_die {conn : Connection} (hstate : conn.state ≠ .dataSent)
    {answers : SendAnswers} (hepoll : answers.epollCtl < 0) :
    finishMessage conn answers = abort (.die "w_epoll_update_ptr_in") := by
  unfold finishMessage
  rw [if_neg hstate, dieIf_pos hepoll, abort_bind]

/-- What `send_message` does once the header is written. -/
def sendBody (conn : Connection) (answers : SendAnswers) : Outcome (Option Connection) :=
  writeFile { conn with headerIsWritten := true } answers >>= fun conn =>
    finishMessage conn answers

theorem sendMessage_eq {conn : Connection} (hstate : conn.state ≠ .connectionClosed)
    {answers : SendAnswers} (hpeer : 0 ≤ answers.getPeerAddress)
    (hheader : (writeHeader conn answers).result = .ok true) :
    sendMessage conn answers = ⟨(writeHeader conn answers).calls ++ (sendBody conn answers).calls,
      (sendBody conn answers).result⟩ := by
  have hnot : ¬answers.getPeerAddress < 0 := by omega
  unfold sendMessage
  rw [if_neg hstate, if_neg hnot, bind_of_ok hheader]
  rfl

theorem ensures_finishMessage (conn : Connection) (answers : SendAnswers) :
    Ensures Call.OfEnd (fun _ => True) (finishMessage conn answers) := by
  unfold finishMessage
  split_ifs
  · exact (ensures_removeConnection conn answers.epollCtl).mono (fun _ h => h) fun _ _ => trivial
  · refine Ensures.bind (Q := fun _ => True) (ensures_dieIf trivial) fun _ _ => ?_
    refine Ensures.bind (Q := fun _ => True) (ensures_perform trivial trivial) fun _ _ => ?_
    exact ensures_pure trivial

theorem writeHeader_fresh {conn : Connection} (hfresh : conn.headerIsWritten = false)
    (answers : SendAnswers) : writeHeader conn answers = sendHeader conn 0 answers.send := by
  rw [writeHeader, hfresh]
  rfl

/-- A header is sent only where none has been written. -/
theorem ensures_writeHeader (conn : Connection) (answers : SendAnswers) :
    Ensures (fun c => c.OfHeader ∧ conn.headerIsWritten = false) (fun _ => True)
      (writeHeader conn answers) := by
  unfold writeHeader
  split_ifs with hwritten
  · exact ensures_pure trivial
  · exact (ensures_sendHeader conn 0 answers.send).mono
      (fun _ h => ⟨h, Bool.not_eq_true _ ▸ hwritten⟩) fun _ h => h

theorem ensures_sendBody (conn : Connection) (answers : SendAnswers) :
    Ensures (fun c => c.OfFile ∨ c.OfEnd) (fun _ => True) (sendBody conn answers) := by
  refine Ensures.bind (Q := fun _ => True)
    ((ensures_writeFile _ answers).mono (fun _ => Or.inl) fun _ _ => trivial) fun conn' _ => ?_
  exact (ensures_finishMessage conn' answers).mono (fun _ => Or.inr) fun _ h => h

/-- The calls of `send_message`. -/
theorem ensures_sendMessage (conn : Connection) (answers : SendAnswers) :
    Ensures (fun c => (c.OfHeader ∧ conn.headerIsWritten = false) ∨ c.OfFile ∨ c.OfEnd)
      (fun _ => True) (sendMessage conn answers) := by
  have hremove := (ensures_removeConnection conn answers.epollCtl).mono
    (fun c h => (Or.inr (Or.inr h) :
      (c.OfHeader ∧ conn.headerIsWritten = false) ∨ c.OfFile ∨ c.OfEnd)) fun _ _ => trivial
  unfold sendMessage
  split_ifs
  · exact ensures_pure trivial
  · exact hremove
  · refine Ensures.bind ((ensures_writeHeader conn answers).mono (fun _ => Or.inl) fun _ h => h)
      fun written _ => ?_
    split_ifs
    · exact (ensures_sendBody conn answers).mono (fun _ => Or.inr) fun _ h => h
    · exact hremove

end OsHomeworks.WebServer
