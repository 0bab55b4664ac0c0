import OsHomeworks.ServerPaths

/-! The answer with a static file. `sendfile` is called without an offset, so what it sends follows the
position of the descriptor: that is at the start when the file has been opened, `get_file_sz` moves it
and puts it back, and every `sendfile` moves it on by as much as it sends. -/

namespace OsHomeworks.WebServer

open CallLog CallLog.Logged

/-- A file that has been opened, with the position of its descriptor. -/
structure OpenFile where
  content : List UInt8
  position : ℕ

inductive Whence where
  | set
  | cur
  | fromEnd

namespace OpenFile

/-- `lseek`. -/
def lseek (file : OpenFile) (offset : ℕ) (whence : Whence) : OpenFile × ℕ :=
  let position := match whence with
    | .set => offset
    | .cur => file.position + offset
    | .fromEnd => file.content.length + offset
  ({ file with position := position }, position)

/-- `get_file_sz` on a descriptor. -/
def getFileSz (file : OpenFile) : OpenFile × Int :=
  let (file, s) := file.lseek 0 .cur
  let (file, fileSize) := file.lseek 0 .fromEnd
  let (file, _) := file.lseek s .set
  (file, (fileSize : Int).bmod (2 ^ 32))

/-- `sendfile` without an offset, where it returns `rc`. -/
def sendfile (file : OpenFile) (rc : ℕ) : OpenFile × List UInt8 :=
  ({ file with position := file.position + rc }, (file.content.drop file.position).take rc)

/-- The loop of `send_static_file` on a descriptor. -/
def sendStatic (fileSz : Int) : OpenFile → Int → List Int → Outcome OpenFile
  | file, sentBytes, [] => if sentBytes < fileSz then abort .blocked else return file
  | file, sentBytes, rc :: answers =>
      if sentBytes < fileSz then
        if rc = -epipe then abort .sigpipe
        else do
          dieIf (rc < 0) "Error sendfile.\n"
          let (file, data) := file.sendfile rc.toNat
          perform (.sendfile data)
          sendStatic fileSz file (sentBytes + rc) answers
      else return file

/-- `get_file_sz` leaves the descriptor where it was. -/
theorem getFileSz_eq (file : OpenFile) :
    file.getFileSz = (file, (file.content.length : Int).bmod (2 ^ 32)) := rfl

/-- From a descriptor that is where the loop is, what is sent is what follows the bytes sent. -/
theorem sendStatic_calls (conn : Connection) {file : OpenFile} {sentBytes : Int}
    (hsent : 0 ≤ sentBytes) (hposition : file.position = sentBytes.toNat) (answers : List Int) :
    (file.sendStatic conn.fileSz sentBytes answers).calls =
      (sendStaticLoop conn file.content sentBytes answers).calls := by
  induction answers generalizing file sentBytes with
  | nil =>
      rw [sendStatic, sendStaticLoop]
      split_ifs <;> rfl
  | cons rc answers ih =>
      rw [sendStatic, sendStaticLoop]
      split_ifs
      · rfl
      · by_cases hneg : rc < 0
        · rw [dieIf_pos hneg, abort_bind, abort_bind]
          rfl
        · rw [dieIf_neg hneg, ok_bind, ok_bind]
          dsimp only
          rw [perform_bind, perform_bind, sendfile, hposition]
          apply congrArg (List.cons _)
          exact ih (by omega) (by show _ = _; simp; omega)
      · rfl

end OpenFile

/-- With positive counts the loop comes to its end, and has sent what was left of the file. -/
theorem sendStaticLoop_sends {conn : Connection} {content : List UInt8}
    (hsize : conn.fileSz = content.length) {answers : List Int} (hpos : ∀ rc ∈ answers, 0 < rc)
    {sentBytes : ℕ} (hlen : content.length ≤ sentBytes + answers.length) :
    (sendStaticLoop conn content sentBytes answers).result = .ok () ∧
      (sendStaticLoop conn content sentBytes answers).calls.flatMap Call.written =
        content.drop sentBytes := by
  induction answers generalizing sentBytes with
  | nil =>
      have hle : content.length ≤ sentBytes := by simpa using hlen
      rw [sendStaticLoop, if_neg (by omega)]
      exact ⟨rfl, (List.drop_eq_nil_of_le hle).symm⟩
  | cons rc answers ih =>
      rw [sendStaticLoop]
      split_ifs with hleft hpipe
      · have hrc := hpos rc List.mem_cons_self
        rw [epipe] at hpipe
        omega
      · have hrc := hpos rc List.mem_cons_self
        have hnext : (sentBytes : Int) + rc = ((sentBytes + rc.toNat : ℕ) : Int) := by omega
        rw [List.length_cons] at hlen
        obtain ⟨hresult, hdata⟩ := ih (fun r hr => hpos r (List.mem_cons_of_mem _ hr))
          (show content.length ≤ sentBytes + rc.toNat + answers.length by omega)
        rw [dieIf_neg (Int.not_lt.mpr (Int.le_of_lt hrc)), ok_bind, perform_bind, hnext]
        refine ⟨hresult, ?_⟩
        rw [List.flatMap_cons, hdata, ← List.drop_drop]
        exact List.take_append_drop _ _
      · have hle : content.length ≤ sentBytes := by omega
        exact ⟨rfl, (List.drop_eq_nil_of_le hle).symm⟩

/-- A connection whose file is open gets `HTTP_OK_MSG` and the size of the file. -/
theorem prepared_opened {conn : Connection} {answers : RequestAnswers} {path : List UInt8}
    (h : (conn.prepared answers path).file ≠ fileNotFound) :
    (conn.prepared answers path).sendBuffer = httpOkMsg ∧
      (conn.prepared answers path).sendLen = httpOkMsg.length ∧
      (conn.prepared answers path).fileSz =
        (answers.fileSize (conn.prepared answers path).file).bmod (2 ^ 32) := by
  have hlocated : (conn.prepared answers path).file = (conn.located answers path).file := by
    unfold Connection.prepared setConnectionSendBuffer
    split_ifs <;> rfl
  rw [hlocated] at h ⊢
  unfold Connection.prepared setConnectionSendBuffer
  rw [if_neg (by rwa [decide_eq_true_iff])]
  exact ⟨rfl, rfl, rfl⟩

/-- A size that an `int` can hold. -/
theorem bmod_eq {n : ℕ} (h : n < 2 ^ 31) : (n : Int).bmod (2 ^ 32) = n := by
  apply Int.bmod_eq_of_le <;> omega

theorem Call.OfHeader.written {c : Call} (h : c.OfHeader) : c.written = c.headerData := by
  rw [Call.written, h.fileData, List.append_nil]

/-- What follows the header: the file, and the removal of the connection. -/
theorem sendBody_static {conn : Connection} (hopened : conn.file ≠ fileNotFound)
    (hstatic : conn.fileType = static) {reply : SendAnswers}
    (hsize : conn.fileSz = reply.content.length) (hepoll : 0 ≤ reply.epollCtl)
    (hsendfile : ∀ rc ∈ reply.sendfile, 0 < rc)
    (hsendfiles : reply.content.length ≤ reply.sendfile.length) :
    ∃ transfer, sendBody conn reply = ⟨transfer ++ removal conn, .ok none⟩ ∧
      transfer.flatMap Call.written = reply.content := by
  have hsize' : ({ conn with headerIsWritten := true } : Connection).fileSz =
      reply.content.length := hsize
  obtain ⟨hsent, hdata⟩ := sendStaticLoop_sends hsize' hsendfile
    (show reply.content.length ≤ 0 + reply.sendfile.length by omega)
  have hfile : writeFile { conn with headerIsWritten := true } reply =
      sendStaticFile { conn with headerIsWritten := true } reply := by
    rw [writeFile, if_pos hopened, sendFileByType, if_pos hstatic]
  refine ⟨_, ?_, hdata⟩
  rw [sendBody, hfile, sendStaticFile]
  rw [show (0 : Int) = ((0 : ℕ) : Int) from rfl, bind_of_ok hsent, bind_of_ok rfl,
    finishMessage_removes rfl, removeConnection_eq _ hepoll]
  rw [pure_calls, List.append_nil]
  rfl

/-- For every fresh connection whose request opened a static file, and all positive counts that `send`
and `sendfile` return: the answer is the header and the file, once and in order, and then the connection
is removed. What the loop sends is what follows the position of the descriptor, which `get_file_sz` left
at the start. -/
theorem static_answer_exact {parser : Parser} {memory conn : Connection} {sockfd : Int}
    {request : RequestAnswers}
    (hhandled : (handleClientRequest parser (connectionCreate memory sockfd) request).result =
      .ok (some conn))
    (hopened : conn.file ≠ fileNotFound) (hstatic : conn.fileType = static) {reply : SendAnswers}
    (hsize : request.fileSize conn.file = reply.content.length)
    (hbound : reply.content.length < 2 ^ 31) (hpeer : 0 ≤ reply.getPeerAddress)
    (hepoll : 0 ≤ reply.epollCtl) (hsend : ∀ bytesSent ∈ reply.send, 0 < bytesSent)
    (hsends : httpOkMsg.length ≤ reply.send.length)
    (hsendfile : ∀ rc ∈ reply.sendfile, 0 < rc)
    (hsendfiles : reply.content.length ≤ reply.sendfile.length) :
    (sendMessage conn reply).result = .ok none ∧
      (∃ transfer, (sendMessage conn reply).calls = transfer ++ removal conn ∧
        transfer.flatMap Call.written = httpOkMsg ++ reply.content) ∧
      (OpenFile.mk reply.content 0).getFileSz = (OpenFile.mk reply.content 0, conn.fileSz) ∧
      ((OpenFile.mk reply.content 0).sendStatic conn.fileSz 0 reply.sendfile).calls =
        (sendStaticFile conn reply).calls := by
  have hstate : conn.state = .dataReceived := by
    rw [handled_eq hhandled]
    exact prepared_state _ _ _
  have hfresh : conn.headerIsWritten = false := by
    rw [handled_eq hhandled]
    exact prepared_headerIsWritten _ _ _
  obtain ⟨hbuffer, hlen, hfileSz⟩ : conn.sendBuffer = httpOkMsg ∧
      conn.sendLen = httpOkMsg.length ∧
      conn.fileSz = (request.fileSize conn.file).bmod (2 ^ 32) := by
    rw [handled_eq hhandled] at hopened ⊢
    exact prepared_opened hopened
  rw [hsize, bmod_eq hbound] at hfileSz
  -- the header
  obtain ⟨hwritten, hheader⟩ := sendHeader_sends conn 0 hsend (by rw [hlen]; omega)
  rw [hbuffer, hlen, List.take_length, List.drop_zero] at hheader
  have hwriteHeader : writeHeader conn reply = sendHeader conn 0 reply.send :=
    writeHeader_fresh hfresh reply
  have hheaderWritten : (sendHeader conn 0 reply.send).calls.flatMap Call.written = httpOkMsg := by
    rw [← hheader]
    exact List.flatMap_congr fun c hc => ((ensures_sendHeader conn 0 reply.send).call c hc).written
  obtain ⟨transfer, hbody, hdata⟩ :=
    sendBody_static hopened hstatic hfileSz hepoll hsendfile hsendfiles
  have hmessage := sendMessage_eq (by rw [hstate]; nofun) hpeer
    (show (writeHeader conn reply).result = .ok true by rw [hwriteHeader]; exact hwritten)
  rw [hbody, hwriteHeader] at hmessage
  rw [hmessage]
  refine ⟨rfl, ⟨(sendHeader conn 0 reply.send).calls ++ transfer, ?_, ?_⟩, ?_, ?_⟩
  · exact (List.append_assoc _ _ _).symm
  · rw [List.flatMap_append, hheaderWritten, hdata]
  · rw [OpenFile.getFileSz_eq, bmod_eq hbound, hfileSz]
  · rw [OpenFile.sendStatic_calls conn (Int.le_refl 0) rfl, sendStaticFile]
    cases hloop : (sendStaticLoop conn reply.content 0 reply.sendfile).result with
    | ok u =>
        rw [bind_of_ok hloop, pure_calls, List.append_nil]
    | error e => rw [bind_of_error hloop]

/-- The header goes out in bytes, the one byte of the file at once. -/
def oneByteReply : SendAnswers :=
  ⟨0, List.replicate 19 1, [65], [1], 0, fun _ => [], 0, [], 0⟩

/-- The connection that waits for the answer to its request for a static file. -/
def oneByteConnection : Connection :=
  ((connectionCreate clearedMemory 5).received (bytes "GET /static/a ")).prepared
    (oneFile (bytes "./static/a.dat") (bytes "GET /static/a "))
    (requestPath getParser (bytes "GET /static/a "))

theorem static_answer_exact_oneByte :
    (sendMessage oneByteConnection oneByteReply).result = .ok none ∧
      (∃ transfer, (sendMessage oneByteConnection oneByteReply).calls =
          transfer ++ removal oneByteConnection ∧
        transfer.flatMap Call.written = httpOkMsg ++ oneByteReply.content) ∧
      (OpenFile.mk oneByteReply.content 0).getFileSz =
        (OpenFile.mk oneByteReply.content 0, oneByteConnection.fileSz) ∧
      ((OpenFile.mk oneByteReply.content 0).sendStatic oneByteConnection.fileSz 0
          oneByteReply.sendfile).calls =
        (sendStaticFile oneByteConnection oneByteReply).calls :=
  static_answer_exact (oneFile_handled (bytes "./static/a.dat") (by decide)) (by decide +kernel)
    (by decide +kernel) rfl (by decide) (by decide) (by decide) (by decide) (by decide) (by decide)
    (by decide)

end OsHomeworks.WebServer
