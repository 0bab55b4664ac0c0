import OsHomeworks.ServerDynamic
import OsHomeworks.ServerStatic

/-! The status and the file of an answer. What `open` returns decides about the header that is prepared;
what is sent behind it is decided by the type that is found for the path, and by the size of the file. -/

namespace OsHomeworks.WebServer

open CallLog CallLog.Logged Tokens

/-- The name of the file that a path stands for. -/
def namedFile (path : List UInt8) : List UInt8 :=
  awsDocumentRoot ++ path.drop 1 ++ if bytes "." <:+: path then [] else bytes ".dat"

/-- The files by their names. What is opened is there; a file that is there may not be opened, for the
server wants to write to it as well. -/
def RequestAnswers.Opens (answers : RequestAnswers) (files : List UInt8 → Option (List UInt8)) :
    Prop :=
  ∀ name, answers.openFile name = -1 ∨ 0 ≤ answers.openFile name ∧
    ∃ content, files name = some content ∧
      answers.fileSize (answers.openFile name) = content.length

/-- No call of `send_message` for a file of `n` bytes fails. -/
structure SendAnswers.Succeeds (reply : SendAnswers) (n : ℕ) : Prop where
  peer : 0 ≤ reply.getPeerAddress
  send : ∀ bytesSent ∈ reply.send, 0 < bytesSent
  sends : httpNotFoundMsg.length ≤ reply.send.length
  sendfile : ∀ rc ∈ reply.sendfile, 0 < rc
  sendfiles : n ≤ reply.sendfile.length
  eventfd : 0 ≤ reply.eventfd
  ioSetup : 0 ≤ reply.ioSetup
  blocks : reply.Completes n
  epoll : 0 ≤ reply.epollCtl

/-- `HTTP_OK_MSG` is prepared, and with it the content of the named file is sent. -/
structure Serves (name content : List UInt8) (conn : Connection) : Prop where
  header : conn.sendBuffer.take conn.sendLen = httpOkMsg
  path : conn.path = name
  answer : ∀ reply : SendAnswers, reply.content = content → reply.Succeeds content.length →
    (∃ r, (sendMessage conn reply).result = .ok r) ∧
      (sendMessage conn reply).calls.flatMap Call.written = httpOkMsg ++ content

/-- `HTTP_NOT_FOUND_MSG` is prepared, and it is all that is sent. -/
structure Refuses (conn : Connection) : Prop where
  header : conn.sendBuffer.take conn.sendLen = httpNotFoundMsg
  answer : ∀ reply : SendAnswers, reply.Succeeds 0 →
    (∃ r, (sendMessage conn reply).result = .ok r) ∧
      (sendMessage conn reply).calls.flatMap Call.written = httpNotFoundMsg
  silent : ∀ reply : SendAnswers, (sendMessage conn reply).calls.flatMap Call.fileData = []

/-- The content with which a path is to be answered, if there is one. -/
def served (files : List UInt8 → Option (List UInt8)) (path : List UInt8) : Option (List UInt8) :=
  if Known (firstComponent path) then files (namedFile path) else none

/-- The status and the file of the answer are those for the named file. -/
def Matches (files : List UInt8 → Option (List UInt8)) (path : List UInt8) (conn : Connection) :
    Prop :=
  match served files path with
  | some content => Serves (namedFile path) content conn
  | none => Refuses conn

/-- A file of `n` bytes can be sent: an empty one unless it is taken for a dynamic one, and else one
whose type is found and whose size suits the function for it. -/
def Sendable (stack : Stack) (path : List UInt8) (n : ℕ) : Prop :=
  if n = 0 then
    ¬(firstComponent path = bytes "dynamic" ∧ Kept stack path (firstComponent path))
  else
    Kept stack path (firstComponent path) ∧
      if firstComponent path = bytes "static" then n < 2 ^ 31 else Fits n

/-- The condition on the path, what `open` returns, the stack and the size of the file. -/
def MatchesWhen (answers : RequestAnswers) (files : List UInt8 → Option (List UInt8))
    (path : List UInt8) : Prop :=
  match served files path with
  | some content => ¬bytes "." <:+: path ∧ 0 ≤ answers.openFile (namedFile path) ∧
      Sendable answers.stack path content.length
  | none => answers.openFile (connectionPath path) = -1

/-- The file that is opened is the named one, unless the path has a dot. -/
theorem connectionPath_eq (path : List UInt8) :
    connectionPath path = namedFile path ++ if bytes "." <:+: path then bytes "dat" else [] := by
  unfold connectionPath namedFile
  split_ifs
  · simp
  · have hdat : bytes ".dat" = bytes "." ++ bytes "dat" := by decide
    rw [hdat]
    simp

theorem connectionPath_eq_iff (path : List UInt8) :
    connectionPath path = namedFile path ↔ ¬bytes "." <:+: path := by
  rw [connectionPath_eq, List.append_right_eq_self]
  split_ifs with hdot
  · exact iff_of_false (by decide) (not_not_intro hdot)
  · exact iff_of_true rfl hdot

/-- What is found in place of a known component is not the other one: the two share an `a`, and neither
has the first letter of the other. -/
theorem eq_of_delimited {path : List UInt8} (hknown : Known (firstComponent path)) {stack : Stack}
    {w : List UInt8} (hw : Known w)
    (h : Delimited (· ∈ stack.delimiters) w (path.drop 1 ++ stack.behind path)) :
    w = firstComponent path := by
  obtain ⟨pre, post, hpath, hpre, -, -⟩ := firstComponent_split hknown.ne_nil
  have hshared : ∀ v, Known v → (97 : UInt8) ∈ v := by
    rintro v (rfl | rfl) <;> decide
  have hfree : (97 : UInt8) ∉ stack.delimiters := by
    obtain ⟨-, -, -, -, hfree, -⟩ := h
    exact hfree 97 (hshared w hw)
  have hlist : path.drop 1 ++ stack.behind path =
      pre ++ (firstComponent path ++ (post ++ stack.behind path)) := by
    rw [hpath, List.append_assoc, List.append_assoc]
  have htoken := (token_eq_iff hw.ne_nil).mpr h
  have hhead : ∀ d ∈ (token (· ∈ stack.delimiters)
      (pre ++ (firstComponent path ++ (post ++ stack.behind path)))).head?,
        d ∈ firstComponent path :=
    token_head_mem (fun c hc => slash_mem_delimiters stack (hpre c hc))
      ⟨97, hshared _ hknown, hfree⟩
  rw [← hlist, htoken] at hhead
  rcases hw with rfl | rfl <;> rcases hknown with hcomponent | hcomponent <;>
    rw [hcomponent] at hhead ⊢
  · exact absurd (hhead 115 rfl) (by decide)
  · exact absurd (hhead 100 rfl) (by decide)

/-- A file under a known directory is sent exactly if the component is kept. -/
theorem typed_iff {path : List UInt8} (hnul : 0 ∉ path) (hknown : Known (firstComponent path))
    (stack : Stack) :
    determineFileType stack path = static ∨ determineFileType stack path = dynamic ↔
      Kept stack path (firstComponent path) := by
  obtain ⟨hstatic, hdynamic⟩ := determineFileType_iff hnul stack
  rw [hstatic, hdynamic, ← delimited_firstComponent_iff hknown.ne_nil]
  constructor
  · rintro (h | h)
    · rwa [eq_of_delimited hknown (Or.inl rfl) h] at h
    · rwa [eq_of_delimited hknown (Or.inr rfl) h] at h
  · intro h
    rcases hknown with hcomponent | hcomponent <;> rw [hcomponent] at h
    · exact Or.inl h
    · exact Or.inr h

/-- The type that is found for a known component that is kept. -/
theorem type_of_kept {path : List UInt8} (hnul : 0 ∉ path) (hknown : Known (firstComponent path))
    {stack : Stack} (hkept : Kept stack path (firstComponent path)) :
    determineFileType stack path =
      if firstComponent path = bytes "static" then static else dynamic := by
  obtain ⟨hstatic, hdynamic⟩ := determineFileType_iff hnul stack
  rw [← delimited_firstComponent_iff hknown.ne_nil] at hkept
  split_ifs with hcomponent
  · rw [hcomponent] at hkept
    exact hstatic.mpr hkept
  · rw [hknown.resolve_left hcomponent] at hkept
    exact hdynamic.mpr hkept

theorem Call.OfEnd.written {c : Call} (h : c.OfEnd) : c.written = [] := by
  cases c <;> trivial

/-- Behind the header, what is written is the file. -/
theorem sendBody_written (conn : Connection) (reply : SendAnswers) :
    (sendBody conn reply).calls.flatMap Call.written =
      (writeFile { conn with headerIsWritten := true } reply).calls.flatMap Call.written := by
  unfold sendBody
  cases hfile : (writeFile { conn with headerIsWritten := true } reply).result with
  | error e => rw [bind_of_error hfile]
  | ok conn' =>
      have hend : (finishMessage conn' reply).calls.flatMap Call.written = [] :=
        List.flatMap_eq_nil_iff.mpr fun c hc =>
          ((ensures_finishMessage conn' reply).call c hc).written
      rw [bind_of_ok hfile, List.flatMap_append, hend, List.append_nil]

theorem finishMessage_returns (conn : Connection) {reply : SendAnswers}
    (hepoll : 0 ≤ reply.epollCtl) : ∃ r, (finishMessage conn reply).result = .ok r := by
  by_cases hstate : conn.state = .dataSent
  · rw [finishMessage_removes hstate, removeConnection_eq conn hepoll]
    exact ⟨_, rfl⟩
  · rw [finishMessage_keeps hstate hepoll]
    exact ⟨_, rfl⟩

theorem sendBody_returns_iff (conn : Connection) {reply : SendAnswers}
    (hepoll : 0 ≤ reply.epollCtl) :
    (∃ r, (sendBody conn reply).result = .ok r) ↔
      ∃ conn', (writeFile { conn with headerIsWritten := true } reply).result = .ok conn' := by
  unfold sendBody
  constructor
  · rintro ⟨r, hr⟩
    obtain ⟨conn', hfile, -⟩ := bind_result_eq_ok.mp hr
    exact ⟨conn', hfile⟩
  · rintro ⟨conn', hfile⟩
    obtain ⟨r, hr⟩ := finishMessage_returns conn' hepoll
    exact ⟨r, bind_result_eq_ok.mpr ⟨conn', hfile, hr⟩⟩

/-- A first answer is the header, and then what is sent of the file. -/
theorem sendMessage_first {conn : Connection} (hstate : conn.state ≠ .connectionClosed)
    (hfresh : conn.headerIsWritten = false) (hlen : conn.sendLen ≤ httpNotFoundMsg.length)
    {reply : SendAnswers} {n : ℕ} (hreply : reply.Succeeds n) :
    ((∃ r, (sendMessage conn reply).result = .ok r) ↔
        ∃ conn', (writeFile { conn with headerIsWritten := true } reply).result = .ok conn') ∧
      (sendMessage conn reply).calls.flatMap Call.written =
        conn.sendBuffer.take conn.sendLen ++
          (writeFile { conn with headerIsWritten := true } reply).calls.flatMap Call.written := by
  obtain ⟨hresult, hheader⟩ := sendHeader_sends conn 0 hreply.send
    (by rw [Nat.zero_add]; exact hlen.trans hreply.sends)
  have hwritten : (sendHeader conn 0 reply.send).calls.flatMap Call.written =
      conn.sendBuffer.take conn.sendLen := by
    rw [List.drop_zero] at hheader
    rw [← hheader]
    exact List.flatMap_congr fun c hc => ((ensures_sendHeader conn 0 reply.send).call c hc).written
  have hwrite : writeHeader conn reply = sendHeader conn 0 reply.send := writeHeader_fresh hfresh reply
  rw [sendMessage_eq hstate hreply.peer (by rw [hwrite]; exact hresult), hwrite]
  refine ⟨sendBody_returns_iff conn hreply.epoll, ?_⟩
  rw [List.flatMap_append, hwritten, sendBody_written]

/-- Everything about the answer with a file succeeds, a byte at a time where it is `send` or
`sendfile`. -/
def succeeding (content : List UInt8) : SendAnswers :=
  { completing content with
    send := List.replicate httpNotFoundMsg.length 1
    sendfile := List.replicate content.length 1 }

theorem succeeding_succeeds (content : List UInt8) :
    (succeeding content).Succeeds content.length where
  peer := Int.le_refl 0
  send := fun bytesSent h => by rw [List.eq_of_mem_replicate h]; decide
  sends := Nat.le_of_eq List.length_replicate.symm
  sendfile := fun rc h => by rw [List.eq_of_mem_replicate h]; decide
  sendfiles := Nat.le_of_eq List.length_replicate.symm
  eventfd := show (0 : Int) ≤ 5 by decide
  ioSetup := Int.le_refl 0
  blocks := completing_completes content
  epoll := Int.le_refl 0

/-- The file of a connection is sent, whatever the calls for it return if none fails. -/
def Transfers (conn : Connection) (content : List UInt8) : Prop :=
  ∀ reply : SendAnswers, reply.content = content → reply.Succeeds content.length →
    (∃ conn', (writeFile conn reply).result = .ok conn') ∧
      (writeFile conn reply).calls.flatMap Call.written = content

/-- How many bytes a call writes. -/
def Call.size (call : Call) : ℕ := call.written.length

theorem length_written (calls : List Call) :
    (calls.flatMap Call.written).length = (calls.map Call.size).sum := List.length_flatMap

theorem transfers_unsent_iff {conn : Connection} (hnot : ¬conn.Sends) (content : List UInt8) :
    Transfers conn content ↔ content = [] := by
  have hnone : ∀ reply, writeFile conn reply = pure conn := writeFile_eq hnot
  constructor
  · intro h
    have hwritten := (h (succeeding content) rfl (succeeding_succeeds content)).2
    rw [hnone] at hwritten
    exact hwritten.symm
  · rintro rfl reply - -
    rw [hnone]
    exact ⟨⟨conn, rfl⟩, rfl⟩

theorem bmod_lt (n : ℕ) : (n : Int).bmod (2 ^ 32) < 2 ^ 31 :=
  lt_of_lt_of_le (Int.bmod_lt (by decide)) (by decide)

/-- With one byte at a time, no more bytes are sent than are left of the size. -/
theorem weighs_sendStaticLoop (conn : Connection) (content : List UInt8) {answers : List Int}
    (hone : ∀ rc ∈ answers, rc = 1) (sentBytes : Int) :
    Weighs Call.size (conn.fileSz - sentBytes).toNat
      (sendStaticLoop conn content sentBytes answers) := by
  induction answers generalizing sentBytes with
  | nil =>
      unfold sendStaticLoop
      split_ifs
      · exact weighs_abort _
      · exact weighs_pure _
  | cons rc answers ih =>
      obtain rfl := hone rc List.mem_cons_self
      have hrest := ih (fun r hr => hone r (List.mem_cons_of_mem _ hr)) (sentBytes + 1)
      unfold sendStaticLoop
      split_ifs with hleft hpipe
      · exact weighs_abort _
      · rw [dieIf_neg (by decide), ok_bind, perform_bind]
        have hdata : (Call.sendfile ((content.drop sentBytes.toNat).take (1 : Int).toNat)).size ≤ 1 :=
          List.length_take_le 1 _
        unfold Weighs at hrest ⊢
        rw [List.map_cons, List.sum_cons]
        omega
      · exact weighs_pure _

theorem transfers_static_iff {conn : Connection} (hopened : conn.file ≠ fileNotFound)
    (hstatic : conn.fileType = static) {content : List UInt8}
    (hsize : conn.fileSz = (content.length : Int).bmod (2 ^ 32)) :
    Transfers conn content ↔ content.length < 2 ^ 31 := by
  have hfile : ∀ reply, writeFile conn reply = sendStaticFile conn reply := by
    intro reply
    rw [writeFile, if_pos hopened, sendFileByType, if_pos hstatic]
  constructor
  · intro h
    have hwritten := (h (succeeding content) rfl (succeeding_succeeds content)).2
    have hone : ∀ rc ∈ (succeeding content).sendfile, rc = 1 := fun rc => List.eq_of_mem_replicate
    have hweighs : Weighs Call.size ((conn.fileSz - 0).toNat + 0)
        (writeFile conn (succeeding content)) := by
      rw [hfile, sendStaticFile]
      exact (weighs_sendStaticLoop conn _ hone 0).bind fun _ _ => weighs_pure _
    unfold Weighs at hweighs
    rw [← length_written, hwritten] at hweighs
    have hlt := bmod_lt content.length
    omega
  · intro hbound reply hcontent hreply
    rw [bmod_eq hbound] at hsize
    subst hcontent
    obtain ⟨hsent, hdata⟩ := sendStaticLoop_sends hsize hreply.sendfile
      (show reply.content.length ≤ 0 + reply.sendfile.length by
        rw [Nat.zero_add]; exact hreply.sendfiles)
    rw [hfile, sendStaticFile]
    rw [show ((0 : ℕ) : Int) = 0 from rfl] at hsent hdata
    rw [bind_of_ok hsent, pure_calls, List.append_nil]
    exact ⟨⟨_, rfl⟩, hdata⟩

theorem weighs_ioFree (aio : Aio) (i n : ℕ) : Weighs Call.size 0 (ioFree aio i n) := by
  induction n generalizing i with
  | zero => exact weighs_pure _
  | succ n ih =>
      unfold ioFree
      refine .of_silent (Q := fun _ => True) (ensures_entry _ _) fun _ => ?_
      refine .of_silent (Q := fun _ => True) (ensures_entry _ _) fun _ => ?_
      refine .of_silent (Q := fun _ => True) (ensures_entry _ _) fun _ => ?_
      exact .of_silent (Q := fun _ => True) (ensures_perform rfl trivial) fun _ => ih (i + 1)

/-- No more blocks are written than are begun before the end of the size. -/
theorem weighs_sendDynamicLoop {conn : Connection} (hpos : 0 < readbSz conn) (content : List UInt8)
    (answers : List BlockAnswers) (aio : Aio) (i : ℕ) (sentBytes : Int) :
    Weighs Call.size (conn.fileSz - sentBytes + readbSz conn).toNat
      (sendDynamicLoop conn content aio i sentBytes answers) := by
  induction answers generalizing aio i sentBytes with
  | nil =>
      unfold sendDynamicLoop
      split_ifs
      · exact weighs_abort _
      · exact weighs_pure _
  | cons answer answers ih =>
      unfold sendDynamicLoop
      split_ifs with hleft
      · refine .of_silent (Q := fun _ => True) (ensures_entry _ _) fun _ => ?_
        refine .of_silent (Q := fun _ => True) (ensures_entry _ _) fun block => ?_
        refine .of_silent (Q := fun _ => True) (ensures_dieIf trivial) fun _ => ?_
        refine .of_silent (Q := fun _ => True) (ensures_asyncIOWait _) fun _ => ?_
        refine .of_silent (Q := fun _ => True) (ensures_entry _ _) fun _ => ?_
        refine .of_silent (Q := fun _ => True) (ensures_dieIf trivial) fun _ => ?_
        refine .of_silent (Q := fun _ => True) (ensures_asyncIOWait _) fun _ => ?_
        rw [perform_bind]
        generalize (((content.drop sentBytes.toNat).take (readbSz conn).toNat).take answer.read ++
          block.drop (((content.drop sentBytes.toNat).take (readbSz conn).toNat).take
            answer.read).length) = data
        have hdata : (Call.pwrite ((data.take (readbSz conn).toNat).take answer.write)).size ≤
            (readbSz conn).toNat := by
          show ((data.take (readbSz conn).toNat).take answer.write).length ≤ _
          rw [List.length_take, List.length_take]
          omega
        have hrest := ih { aio with dataBlocks := aio.dataBlocks.set i (some data) } (i + 1)
          (sentBytes + readbSz conn)
        unfold Weighs at hrest ⊢
        rw [List.map_cons, List.sum_cons]
        omega
      · exact weighs_pure _

theorem weighs_sendDynamicFile {conn : Connection} (hpos : 0 < readbSz conn)
    (answers : SendAnswers) :
    Weighs Call.size (conn.fileSz - 0 + readbSz conn).toNat (sendDynamicFile conn answers) := by
  have hsetup : Ensures (fun c => Call.size c = 0) (fun _ => True) (iocbSetup conn answers) := by
    refine ⟨fun c hc => ?_, fun _ _ => trivial⟩
    rw [iocbSetup_calls] at hc
    split_ifs at hc
    · cases hc
    · rw [List.mem_singleton.mp hc]
      rfl
  unfold sendDynamicFile
  refine .of_silent hsetup fun aio => ?_
  refine (weighs_sendDynamicLoop hpos answers.content answers.blocks aio 0 0).bind (k := 0)
    fun aio' _ => ?_
  exact (weighs_ioFree aio' 0 _).bind (k := 0) fun _ _ => weighs_pure _

/-- Without a positive size there is an error already in `iocb_setup`. -/
theorem fileSz_pos_of_returns {conn conn' : Connection} {answers : SendAnswers}
    (h : (sendDynamicFile conn answers).result = .ok conn') : 0 < conn.fileSz := by
  by_contra hnot
  have hsize : readbSz conn = conn.fileSz := by
    have hbufsiz : (bufsiz : Int) = 8192 := rfl
    rw [readbSz]
    omega
  unfold sendDynamicFile at h
  obtain ⟨aio, hsetup, -⟩ := bind_result_eq_ok.mp h
  unfold iocbSetup at hsetup
  obtain ⟨_, -, hsetup⟩ := bind_result_eq_ok.mp hsetup
  obtain ⟨_, -, hsetup⟩ := bind_result_eq_ok.mp hsetup
  dsimp only at hsetup
  split_ifs at hsetup with hzero
  · rw [abort_bind] at hsetup
    cases hsetup
  obtain ⟨_, hentries, -⟩ := bind_result_eq_ok.mp hsetup
  have hcount : blockCount conn = 1 := by
    rw [hsize] at hzero
    rw [blockCount, hsize, Int.tdiv_self hzero]
    rfl
  have hcells : (readbSz conn).toNat = 0 := by
    rw [hsize]
    omega
  rw [hcount, hcells] at hentries
  cases hentries

theorem transfers_dynamic_iff {conn : Connection} (hopened : conn.file ≠ fileNotFound)
    (hdynamic : conn.fileType = dynamic) {content : List UInt8}
    (hsize : conn.fileSz = (content.length : Int).bmod (2 ^ 32)) :
    Transfers conn content ↔ 1 ≤ content.length ∧ Fits content.length := by
  have hfile : ∀ reply, writeFile conn reply = sendDynamicFile conn reply := by
    intro reply
    rw [writeFile, if_pos hopened, sendFileByType, if_neg (by rw [hdynamic]; decide),
      if_pos hdynamic]
  constructor
  · intro h
    have hreply := succeeding_succeeds content
    obtain ⟨⟨conn', hreturns⟩, hwritten⟩ := h (succeeding content) rfl hreply
    rw [hfile] at hreturns hwritten
    have hpos := fileSz_pos_of_returns hreturns
    have hsmall : content.length < 2 ^ 31 := by
      by_contra hlarge
      have hbufsiz : (bufsiz : Int) = 8192 := rfl
      have hblock : 0 < readbSz conn ∧ readbSz conn ≤ 8192 := by
        rw [readbSz]
        omega
      have hweighs := weighs_sendDynamicFile hblock.1 (succeeding content)
      unfold Weighs at hweighs
      rw [← length_written, hwritten] at hweighs
      have hlt := bmod_lt content.length
      have hmod : conn.fileSz % 2 ^ 32 = (content.length : Int) % 2 ^ 32 := by
        rw [hsize]
        exact Int.bmod_emod
      omega
    rw [bmod_eq hsmall] at hsize
    have hlength : 1 ≤ content.length := by omega
    refine ⟨hlength, ?_⟩
    by_contra hnot
    obtain ⟨e, herror, -⟩ := sendDynamicFile_of_not_fits hsize hlength rfl hreply.blocks hnot
      hreply.eventfd hreply.ioSetup
    cases hreturns.symm.trans herror
  · rintro ⟨hlength, hfits⟩ reply rfl hreply
    have hsmall : reply.content.length < 2 ^ 31 := by
      rw [Fits, bufsiz] at hfits
      omega
    rw [bmod_eq hsmall] at hsize
    obtain ⟨hwhole, hfit⟩ := (fits_iff hlength).mp hfits
    have hcomplete := sendDynamicFile_complete hsize hlength rfl hreply.blocks hfit hreply.eventfd
      hreply.ioSetup
    rw [hfile]
    rwa [if_pos hwhole] at hcomplete

/-- A file of a known first component is sent exactly if it can be. -/
theorem transfers_iff {path : List UInt8} (hnul : 0 ∉ path) (hknown : Known (firstComponent path))
    {conn : Connection} (hopened : conn.file ≠ fileNotFound) {stack : Stack}
    (htype : conn.fileType = determineFileType stack path) {content : List UInt8}
    (hsize : conn.fileSz = (content.length : Int).bmod (2 ^ 32)) :
    Transfers conn content ↔ Sendable stack path content.length := by
  have hdiffer : bytes "static" ≠ bytes "dynamic" := by decide
  unfold Sendable
  by_cases hkept : Kept stack path (firstComponent path)
  · rw [type_of_kept hnul hknown hkept] at htype
    rcases hknown with hcomponent | hcomponent
    · have hnot : firstComponent path ≠ bytes "dynamic" := hcomponent ▸ hdiffer
      rw [if_pos hcomponent] at htype
      rw [transfers_static_iff hopened htype hsize, if_pos hcomponent, and_iff_right hkept]
      split_ifs with hempty
      · exact iff_of_true (by omega) fun h => hnot h.1
      · exact Iff.rfl
    · have hnot : firstComponent path ≠ bytes "static" := hcomponent ▸ hdiffer.symm
      rw [if_neg hnot] at htype
      rw [transfers_dynamic_iff hopened htype hsize, if_neg hnot, and_iff_right hkept]
      split_ifs with hempty
      · exact iff_of_false (by omega) fun h => h ⟨hcomponent, hkept⟩
      · exact and_iff_right (by omega)
  · have hunsent : ¬conn.Sends := fun hsends =>
      hkept ((typed_iff hnul hknown stack).mp (htype ▸ hsends.2))
    rw [transfers_unsent_iff hunsent, ← List.length_eq_zero_iff]
    by_cases hempty : content.length = 0
    · rw [if_pos hempty]
      exact iff_of_true hempty fun h => hkept h.2
    · rw [if_neg hempty]
      exact iff_of_false hempty fun h => hkept h.1

/-- The answer is that of a file exactly if the header is right and the file is sent. -/
theorem serves_iff {conn : Connection} (hstate : conn.state ≠ .connectionClosed)
    (hfresh : conn.headerIsWritten = false) (hlen : conn.sendLen ≤ httpNotFoundMsg.length)
    (name content : List UInt8) :
    Serves name content conn ↔ conn.sendBuffer.take conn.sendLen = httpOkMsg ∧ conn.path = name ∧
      Transfers { conn with headerIsWritten := true } content := by
  have hanswer : conn.sendBuffer.take conn.sendLen = httpOkMsg →
      ∀ reply : SendAnswers, reply.Succeeds content.length →
        (((∃ r, (sendMessage conn reply).result = .ok r) ∧
            (sendMessage conn reply).calls.flatMap Call.written = httpOkMsg ++ content) ↔
          (∃ conn', (writeFile { conn with headerIsWritten := true } reply).result = .ok conn') ∧
            (writeFile { conn with headerIsWritten := true } reply).calls.flatMap Call.written =
              content) := by
    intro hheader reply hreply
    obtain ⟨hreturns, hwritten⟩ := sendMessage_first hstate hfresh hlen hreply
    rw [hreturns, hwritten, hheader, List.append_cancel_left_eq]
  constructor
  · intro h
    exact ⟨h.header, h.path, fun reply hcontent hreply =>
      (hanswer h.header reply hreply).mp (h.answer reply hcontent hreply)⟩
  · rintro ⟨hheader, hpath, htransfers⟩
    exact ⟨hheader, hpath, fun reply hcontent hreply =>
      (hanswer hheader reply hreply).mpr (htransfers reply hcontent hreply)⟩

theorem Call.OfEnd.fileData {c : Call} (h : c.OfEnd) : c.fileData = [] := by
  cases c <;> trivial

/-- Where no file is sent, no call moves the data of one. -/
theorem sendMessage_fileless {conn : Connection} (hnot : ¬conn.Sends) (reply : SendAnswers) :
    (sendMessage conn reply).calls.flatMap Call.fileData = [] := by
  have hensures : Ensures (fun c => c.fileData = []) (fun _ => True) (sendMessage conn reply) := by
    have hremove := (ensures_removeConnection conn reply.epollCtl).mono
      (fun c h => Call.OfEnd.fileData h) fun _ _ => trivial
    have hnot' : ¬{ conn with headerIsWritten := true }.Sends := hnot
    unfold sendMessage
    split_ifs
    · exact ensures_pure trivial
    · exact hremove
    · refine Ensures.bind ((ensures_writeHeader conn reply).mono (fun _ h => h.1.fileData)
        fun _ h => h) fun written _ => ?_
      split_ifs
      · rw [writeFile_eq hnot', ok_bind]
        exact (ensures_finishMessage _ reply).mono (fun _ h => h.fileData) fun _ h => h
      · exact hremove
  exact List.flatMap_eq_nil_iff.mpr hensures.call

section

variable (conn : Connection) (answers : RequestAnswers) {path : List UInt8} (hne : path ≠ [])

include hne

theorem prepared_opens_iff :
    (conn.prepared answers path).sendBuffer.take (conn.prepared answers path).sendLen = httpOkMsg ↔
      answers.openFile (connectionPath path) ≠ fileNotFound := by
  have hdiffer : httpNotFoundMsg ≠ httpOkMsg := by decide
  rw [(prepared_header conn answers path).1, prepared_file, if_neg hne]
  split_ifs with hnone
  · exact iff_of_false hdiffer (not_not_intro hnone)
  · exact iff_of_true rfl hnone

variable (hstate : conn.state ≠ .connectionClosed) (hfresh : conn.headerIsWritten = false)

include hstate hfresh

/-- The answer is `HTTP_NOT_FOUND_MSG` exactly if the file was not opened. -/
theorem refuses_iff :
    Refuses (conn.prepared answers path) ↔
      answers.openFile (connectionPath path) = fileNotFound := by
  have hdiffer : httpOkMsg ≠ httpNotFoundMsg := by decide
  obtain ⟨hheader, hlen⟩ := prepared_header conn answers path
  have hfile := prepared_file conn answers path
  rw [if_neg hne] at hfile
  constructor
  · intro h
    by_contra hopened
    exact hdiffer (((prepared_opens_iff conn answers hne).mpr hopened).symm.trans h.header)
  · intro hnone
    rw [if_pos (hfile.trans hnone)] at hheader
    have hnot : ¬(conn.prepared answers path).Sends := fun hsends => hsends.1 (hfile.trans hnone)
    refine ⟨hheader, fun reply hreply => ?_, sendMessage_fileless hnot⟩
    obtain ⟨hreturns, hwritten⟩ := sendMessage_first
      (by rw [prepared_state]; exact hstate) ((prepared_headerIsWritten _ _ _).trans hfresh) hlen
      hreply
    have hnot' : ¬{ conn.prepared answers path with headerIsWritten := true }.Sends := hnot
    rw [hreturns, hwritten, hheader, writeFile_eq hnot']
    exact ⟨⟨_, rfl⟩, List.append_nil _⟩

/-- The answer with the file for a path whose first component is known. -/
theorem serves_prepared_iff (hnul : 0 ∉ path) (hknown : Known (firstComponent path))
    {content : List UInt8}
    (hopen : answers.openFile (namedFile path) = -1 ∨ 0 ≤ answers.openFile (namedFile path) ∧
      answers.fileSize (answers.openFile (namedFile path)) = content.length) :
    Serves (namedFile path) content (conn.prepared answers path) ↔
      ¬bytes "." <:+: path ∧ 0 ≤ answers.openFile (namedFile path) ∧
        Sendable answers.stack path content.length := by
  have hdotless : (conn.prepared answers path).path = namedFile path ↔ ¬bytes "." <:+: path := by
    rw [prepared_path _ _ hne, connectionPath_eq_iff]
  rw [serves_iff (by rw [prepared_state]; exact hstate)
    ((prepared_headerIsWritten _ _ _).trans hfresh) (prepared_header _ _ _).2,
    prepared_opens_iff _ _ hne, hdotless]
  by_cases hdot : bytes "." <:+: path
  · exact iff_of_false (fun h => h.2.1 hdot) fun h => h.1 hdot
  rw [(connectionPath_eq_iff path).mpr hdot]
  rcases hopen with hnone | ⟨hopened, hsize⟩
  · rw [hnone]
    exact iff_of_false (fun h => h.1 rfl) fun h => absurd h.2.1 (by decide)
  have hne' : answers.openFile (namedFile path) ≠ fileNotFound := by
    rw [fileNotFound]
    omega
  rw [and_iff_right hne', and_iff_right hopened, and_congr_right_iff]
  intro
  have hfile : (conn.prepared answers path).file = answers.openFile (namedFile path) := by
    rw [prepared_file, if_neg hne, (connectionPath_eq_iff path).mpr hdot]
  have htype : (conn.prepared answers path).fileType = determineFileType answers.stack path := by
    rw [prepared_fileType, if_neg hne]
  have hsome : (conn.prepared answers path).file ≠ fileNotFound := hfile ▸ hne'
  have hfileSz := (prepared_opened hsome).2.2
  rw [hfile, hsize] at hfileSz
  exact @transfers_iff _ hnul hknown { conn.prepared answers path with headerIsWritten := true }
    hsome _ htype _ hfileSz

end

/-- For every path of a request and all files: the status and the bytes of the answer are those for the
named file exactly if, where it is to be served, the path has no dot and the file is opened and can be
sent, and else nothing is opened. -/
theorem status_matches_iff {parser : Parser} {memory conn : Connection} {sockfd : Int}
    {answers : RequestAnswers}
    (hhandled : (handleClientRequest parser (connectionCreate memory sockfd) answers).result =
      .ok (some conn))
    {path : List UInt8} (hpath : requestPath parser (answers.recv.getD []) = path)
    (hslash : path.head? = some 47) {files : List UInt8 → Option (List UInt8)}
    (hopens : answers.Opens files) :
    Matches files path conn ↔ MatchesWhen answers files path := by
  have hne : path ≠ [] := by
    rintro rfl
    cases hslash
  have hnul : 0 ∉ path := by
    rw [← hpath]
    exact not_mem_cString _
  have hstate : ((connectionCreate memory sockfd).received (answers.recv.getD [])).state ≠
      .connectionClosed := nofun
  rw [handled_eq hhandled, hpath]
  unfold Matches MatchesWhen
  cases hserved : served files path with
  | none => exact refuses_iff _ _ hne hstate rfl
  | some content =>
      unfold served at hserved
      split_ifs at hserved with hknown
      refine serves_prepared_iff _ _ hne hstate rfl hnul hknown ?_
      refine (hopens (namedFile path)).imp_right fun ⟨hopened, content', hcontent, hsize⟩ => ?_
      obtain rfl := Option.some.inj (hserved.symm.trans hcontent)
      exact ⟨hopened, hsize⟩

theorem oneFile_opens (name message : List UInt8) :
    (oneFile name message).Opens fun n => if n = name then some [65] else none := by
  intro n
  by_cases hn : n = name
  · refine Or.inr ⟨?_, [65], if_pos hn, rfl⟩
    show (0 : Int) ≤ if n = name then 7 else -1
    rw [if_pos hn]
    decide
  · exact Or.inl (if_neg hn)

/-- The one byte of `./static/a.dat` is sent behind `HTTP_OK_MSG`. -/
theorem status_matches_iff_static :
    ∃ conn, (handleClientRequest getParser (connectionCreate clearedMemory 5)
        (oneFile (bytes "./static/a.dat") (bytes "GET /static/a "))).result = .ok (some conn) ∧
      served (fun n => if n = bytes "./static/a.dat" then some [65] else none) (bytes "/static/a") =
        some [65] ∧
      Matches (fun n => if n = bytes "./static/a.dat" then some [65] else none) (bytes "/static/a")
        conn := by
  have hpath : requestPath getParser (bytes "GET /static/a ") = bytes "/static/a" := by
    decide +kernel
  have hserved : served (fun n => if n = bytes "./static/a.dat" then some [65] else none)
      (bytes "/static/a") = some [65] := by decide +kernel
  refine ⟨_, oneFile_handled (bytes "./static/a.dat") (by decide), hserved, ?_⟩
  refine (status_matches_iff (oneFile_handled _ (by decide)) hpath rfl (oneFile_opens _ _)).mpr ?_
  unfold MatchesWhen
  rw [hserved]
  have hkept : Unseen ⟨[], []⟩ (bytes "/static/a") := unseen_of_ended rfl rfl
  have hknown : Known (firstComponent (bytes "/static/a")) := by decide +kernel
  rw [Unseen, if_pos hknown] at hkept
  exact ⟨by decide +kernel, by decide +kernel, hkept, by decide +kernel⟩

/-- A file in a directory that is not served is answered with `HTTP_OK_MSG`. -/
theorem unknown_directory_ok :
    ∃ conn, (handleClientRequest getParser (connectionCreate clearedMemory 5)
        (oneFile (bytes "./other/a.dat") (bytes "GET /other/a "))).result = .ok (some conn) ∧
      requestPath getParser (bytes "GET /other/a ") = bytes "/other/a" ∧
      (oneFile (bytes "./other/a.dat") (bytes "GET /other/a ")).Opens
        (fun n => if n = bytes "./other/a.dat" then some [65] else none) ∧
      served (fun n => if n = bytes "./other/a.dat" then some [65] else none) (bytes "/other/a") =
        none ∧
      ¬Matches (fun n => if n = bytes "./other/a.dat" then some [65] else none) (bytes "/other/a")
        conn := by
  have hpath : requestPath getParser (bytes "GET /other/a ") = bytes "/other/a" := by
    decide +kernel
  have hserved : served (fun n => if n = bytes "./other/a.dat" then some [65] else none)
      (bytes "/other/a") = none := by decide +kernel
  refine ⟨_, oneFile_handled _ (by decide), hpath, oneFile_opens _ _, hserved, ?_⟩
  have hstate : ((connectionCreate clearedMemory 5).received (bytes "GET /other/a ")).state ≠
      .connectionClosed := nofun
  unfold Matches
  rw [hserved, hpath]
  dsimp only
  rw [refuses_iff _ _ (by decide) hstate rfl]
  decide +kernel

end OsHomeworks.WebServer
