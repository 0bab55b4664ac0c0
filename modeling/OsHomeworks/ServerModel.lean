import OsHomeworks.CallLog
import Mathlib.Data.List.Infix
import Mathlib.Data.UInt

/-! The web server of `aws.c`: connections, the handling of a request and the sending of its answer.
What the operating system returns is an argument of every function; what is asked of it, as far as
it succeeds, is recorded in order. -/

namespace OsHomeworks.WebServer

open CallLog CallLog.Logged

/-- The characters of a string literal. -/
def bytes (text : String) : List UInt8 := text.toList.map fun c => c.toNat.toUInt8

/-- `BUFSIZ`. -/
def bufsiz : ℕ := 8192

/-- `FILE_NOT_FOUND`. -/
def fileNotFound : Int := -1

/-- `STATIC`. -/
def static : Int := 1

/-- `DYNAMIC`. -/
def dynamic : Int := 0

/-- `HTTP_OK_MSG`. -/
def httpOkMsg : List UInt8 := bytes "HTTP/1.0 200 OK\r\n\r\n"

/-- `HTTP_NOT_FOUND_MSG`. -/
def httpNotFoundMsg : List UInt8 := bytes "HTTP/1.0 404 Not Found\r\n\r\n"

/-- `EPIPE`. -/
def epipe : Int := 32

/-- `AWS_DOCUMENT_ROOT`. -/
def awsDocumentRoot : List UInt8 := bytes "./"

/-- `enum connection_state`. -/
inductive ConnectionState where
  | dataReceived
  | dataSent
  | connectionClosed
  deriving DecidableEq

/-- `struct connection`. A buffer that is cleared before it is filled is kept as its contents; what
`iocb_setup` allocates is in `Aio`. -/
structure Connection where
  sockfd : Int
  recvBuffer : List UInt8
  recvLen : ℕ
  sendBuffer : List UInt8
  sendLen : ℕ
  state : ConnectionState
  path : List UInt8
  file : Int
  fileSz : Int
  fileType : Int
  headerIsWritten : Bool
  deriving DecidableEq

/-- What a connection is registered for. -/
inductive Interest where
  | input
  | inputOutput
  deriving DecidableEq

/-- A call that has succeeded. -/
inductive Call where
  | openFile (path : List UInt8) (fd : Int)
  | send (data : List UInt8)
  | sendfile (data : List UInt8)
  | eventfd (fd : Int)
  | pwrite (data : List UInt8)
  | freeEntries (i : ℕ)
  | epollUpdate (sockfd : Int) (interest : Interest)
  | epollRemove (sockfd : Int)
  | shutdown (sockfd : Int)
  | close (fd : Int)
  | free
  deriving DecidableEq

/-- How the server can come to a stop: a failed `DIE`, undefined behaviour, the signal `SIGPIPE`, or a
call that does not return. -/
inductive Abort where
  | die (text : String)
  | divisionByZero
  | outOfBounds (i : ℕ)
  | uninitialised (i : ℕ)
  | sigpipe
  | blocked
  deriving DecidableEq

/-- The calls that a piece of code has made, and its value unless it stopped the server. -/
abbrev Outcome := Logged Call Abort

/-- `DIE`. -/
def dieIf (assertion : Bool) (text : String) : Outcome Unit :=
  if assertion then abort (.die text) else pure ()

/-- `connection_create`, in memory with the given contents. -/
def connectionCreate (memory : Connection) (sockfd : Int) : Connection :=
  { memory with
    sockfd := sockfd
    recvLen := 0
    headerIsWritten := false
    recvBuffer := List.replicate bufsiz 0
    sendBuffer := [] }

/-- New memory that is all zeros. -/
def clearedMemory : Connection := ⟨0, [], 0, [], 0, .dataReceived, [], 0, 0, 0, false⟩

/-- `connection_remove`. -/
def connectionRemove (conn : Connection) : Outcome Unit := do
  perform (.shutdown conn.sockfd)
  if conn.file ≠ -1 then perform (.close conn.file)
  perform .free

/-- The label `remove_connection`; `epollCtl` is what `epoll_ctl` returns. -/
def removeConnection (conn : Connection) (epollCtl : Int) : Outcome (Option Connection) := do
  dieIf (epollCtl < 0) "w_epoll_remove_ptr"
  perform (.epollRemove conn.sockfd)
  connectionRemove conn
  return none

/-! ### Handling a request -/

/-- What `determine_file_type` finds on its stack: the initial contents of `temp` with what follows
it, and the bytes behind `delim`. -/
structure Stack where
  temp : List UInt8
  afterDelim : List UInt8

/-- What the system calls of `handle_client_request` return; `recv` fills the buffer unless it
fails. -/
structure RequestAnswers where
  getPeerAddress : Int
  recv : Option (List UInt8)
  stack : Stack
  openFile : List UInt8 → Int
  fileSize : Int → Int
  epollCtl : Int

/-- The pieces that `http_parser_execute` hands to `on_path_cb`, with a parser fresh from
`http_parser_init`. -/
abbrev Parser := List UInt8 → List (List UInt8)

/-- The bytes of a C string. -/
def cString (array : List UInt8) : List UInt8 := array.takeWhile (· ≠ 0)

/-- `strtok` on a new string. -/
def strtok (str delim : List UInt8) : Option (List UInt8) :=
  match str.dropWhile (· ∈ delim) with
  | [] => none
  | c :: rest => some ((c :: rest).takeWhile (· ∉ delim))

/-- `on_path_cb`. -/
def onPathCb (path buf : List UInt8) : List UInt8 := buf ++ path.drop buf.length

/-- The global `path` after the parser has run on a cleared one. -/
def parsePath (parser : Parser) (message : List UInt8) : List UInt8 :=
  (parser message).foldl onPathCb (List.replicate bufsiz 0)

/-- What the parser reports of a message that is the beginning of one GET request, cut at any place;
a message that begins in the middle of a request is none. -/
def getParser : Parser := fun message =>
  if bytes "GET /" <+: message then [(message.drop 4).takeWhile (· ∉ bytes " ")] else []

/-- `receive_message`; no connection is left where it returns `STATE_CONNECTION_CLOSED`. -/
def receiveMessage (conn : Connection) (answers : RequestAnswers) : Outcome (Option Connection) :=
  if answers.getPeerAddress < 0 then removeConnection conn answers.epollCtl
  else match answers.recv with
    | none => removeConnection conn answers.epollCtl
    | some [] => removeConnection conn answers.epollCtl
    | some (b :: message) =>
        return some { conn with
          recvBuffer := b :: message ++ conn.recvBuffer.drop (message.length + 1)
          recvLen := message.length + 1
          state := .dataReceived }

/-- `get_file_sz`: the offset of the end of the file, kept in an `int`. -/
def getFileSz (conn : Connection) (answers : RequestAnswers) : Int :=
  (answers.fileSize conn.file).bmod (2 ^ 32)

/-- `determine_file_type`. `memmove` leaves the end of `temp` as it was, and nothing ends the string
of delimiters. -/
def determineFileType (stack : Stack) (path : List UInt8) : Int :=
  let temp := path.drop 1 ++ stack.temp.drop (path.length - 1)
  match strtok (cString temp) (bytes "/" ++ cString stack.afterDelim) with
  | none => fileNotFound
  | some p =>
      if p = bytes "static" then static
      else if p = bytes "dynamic" then dynamic
      else fileNotFound

/-- The file name that `set_connection_path_and_file` builds in `conn->path`. -/
def connectionPath (path : List UInt8) : List UInt8 :=
  awsDocumentRoot ++ path.drop 1 ++ (if bytes "." <:+: path then [] else bytes ".") ++ bytes "dat"

/-- `set_connection_path_and_file`. -/
def setConnectionPathAndFile (conn : Connection) (answers : RequestAnswers) (path : List UInt8) :
    Outcome Connection :=
  if cString path = [] then return conn
  else do
    let file := answers.openFile (connectionPath (cString path))
    if 0 ≤ file then perform (.openFile (connectionPath (cString path)) file)
    return { conn with
      path := connectionPath (cString path)
      file := file
      fileType := determineFileType answers.stack (cString path) }

/-- `set_connection_send_buffer`. -/
def setConnectionSendBuffer (conn : Connection) (answers : RequestAnswers) (notFound : Bool) :
    Connection :=
  if notFound then
    { conn with sendLen := httpNotFoundMsg.length, sendBuffer := httpNotFoundMsg, fileSz := 0 }
  else
    { conn with
      sendLen := httpOkMsg.length
      sendBuffer := httpOkMsg
      fileSz := getFileSz conn answers }

/-- `handle_client_request`; no connection is left if it was removed. -/
def handleClientRequest (parser : Parser) (conn : Connection) (answers : RequestAnswers) :
    Outcome (Option Connection) := do
  match ← receiveMessage conn answers with
  | none => return none
  | some conn =>
      let path := parsePath parser (conn.recvBuffer.take conn.recvLen)
      let conn ← setConnectionPathAndFile conn answers path
      let conn := setConnectionSendBuffer conn answers (conn.file = fileNotFound)
      dieIf (answers.epollCtl < 0) "w_epoll_add_ptr_inout"
      perform (.epollUpdate conn.sockfd .inputOutput)
      return some conn

/-! ### Sending the answer -/

/-- What the system calls for one block of a dynamic file return: those for reading the block, the
number of bytes read, those for writing it, and the number of bytes written. -/
structure BlockAnswers where
  submitRead : Int
  readEvents : List Int
  read : ℕ
  submitWrite : Int
  writeEvents : List Int
  write : ℕ

/-- What the system calls of `send_message` return, call by call, with the contents of the file and
of new memory. A `send` or `sendfile` that fails gives its `errno`, negated: `SIGPIPE`, which comes
with `EPIPE`, is neither ignored nor blocked. -/
structure SendAnswers where
  getPeerAddress : Int
  send : List Int
  content : List UInt8
  sendfile : List Int
  eventfd : Int
  memory : ℕ → List UInt8
  ioSetup : Int
  blocks : List BlockAnswers
  epollCtl : Int

/-- The loop of `send_static_file`. -/
def sendStaticLoop (conn : Connection) (content : List UInt8) : Int → List Int → Outcome Unit
  | sentBytes, [] => if sentBytes < conn.fileSz then abort .blocked else return ()
  | sentBytes, rc :: answers =>
      if sentBytes < conn.fileSz then
        if rc = -epipe then abort .sigpipe
        else do
          dieIf (rc < 0) "Error sendfile.\n"
          perform (.sendfile ((content.drop sentBytes.toNat).take rc.toNat))
          sendStaticLoop conn content (sentBytes + rc) answers
      else return ()

/-- `send_static_file`. -/
def sendStaticFile (conn : Connection) (answers : SendAnswers) : Outcome Connection := do
  sendStaticLoop conn answers.content 0 answers.sendfile
  return { conn with state := .dataSent }

/-- What `iocb_setup` allocates: three arrays of pointers; an entry points to nothing until the
memory for it has been allocated. -/
structure Aio where
  iocbR : List (Option Unit)
  iocbW : List (Option Unit)
  dataBlocks : List (Option (List UInt8))

/-- `readb_sz`. -/
def readbSz (conn : Connection) : Int := min conn.fileSz bufsiz

/-- `conn->file_sz / readb_sz`. -/
def blockCount (conn : Connection) : ℕ := (conn.fileSz.tdiv (readbSz conn)).toNat

/-- The entry with index `i` of an array of pointers. -/
def entry {β : Type} (array : List (Option β)) (i : ℕ) : Outcome β :=
  match array[i]? with
  | none => abort (.outOfBounds i)
  | some none => abort (.uninitialised i)
  | some (some b) => return b

/-- The loops of `iocb_setup`: memory for `n` entries from index `i` on. -/
def allocateEntries {β : Type} (memory : ℕ → β) :
    ℕ → ℕ → List (Option β) → Outcome (List (Option β))
  | _, 0, array => return array
  | i, n + 1, array =>
      if i < array.length then allocateEntries memory (i + 1) n (array.set i (some (memory i)))
      else abort (.outOfBounds i)

/-- `iocb_setup`. The number of blocks is first computed where the first loop starts. -/
def iocbSetup (conn : Connection) (answers : SendAnswers) : Outcome Aio := do
  dieIf (answers.eventfd < 0) "Invalid eventfd!\n"
  perform (.eventfd answers.eventfd)
  if readbSz conn = 0 then abort .divisionByZero
  let cells := (readbSz conn).toNat
  let iocbR ← allocateEntries (fun _ => ()) 0 (blockCount conn) (List.replicate cells none)
  let iocbW ← allocateEntries (fun _ => ()) 0 (blockCount conn) (List.replicate cells none)
  let dataBlocks ← allocateEntries answers.memory 0 (blockCount conn) (List.replicate cells none)
  dieIf (answers.ioSetup < 0) "Invalid io_setup.\n"
  return ⟨iocbR, iocbW, dataBlocks⟩

/-- `async_IO_wait`. -/
def asyncIOWait : List Int → Outcome Unit
  | [] => abort .blocked
  | noEventsRead :: answers =>
      if noEventsRead < 0 then abort (.die "Invalid io_getevents\n")
      else if noEventsRead < 1 then asyncIOWait answers
      else return ()

/-- The loop of `send_dynamic_file`. -/
def sendDynamicLoop (conn : Connection) (content : List UInt8) :
    Aio → ℕ → Int → List BlockAnswers → Outcome Aio
  | aio, _, sentBytes, [] => if sentBytes < conn.fileSz then abort .blocked else return aio
  | aio, i, sentBytes, answer :: answers =>
      if sentBytes < conn.fileSz then do
        let _ ← entry aio.iocbR i
        let block ← entry aio.dataBlocks i
        dieIf (answer.submitRead < 0) "Invalid io_submit.\n"
        asyncIOWait answer.readEvents
        let data := ((content.drop sentBytes.toNat).take (readbSz conn).toNat).take answer.read
        let block := data ++ block.drop data.length
        let _ ← entry aio.iocbW i
        dieIf (answer.submitWrite < 0) "Invalid io_submit.\n"
        asyncIOWait answer.writeEvents
        perform (.pwrite ((block.take (readbSz conn).toNat).take answer.write))
        sendDynamicLoop conn content { aio with dataBlocks := aio.dataBlocks.set i (some block) }
          (i + 1) (sentBytes + readbSz conn) answers
      else return aio

/-- The loop of `io_free`: `n` entries from index `i` on. -/
def ioFree (aio : Aio) : ℕ → ℕ → Outcome Unit
  | _, 0 => return ()
  | i, n + 1 => do
      let _ ← entry aio.iocbR i
      let _ ← entry aio.iocbW i
      let _ ← entry aio.dataBlocks i
      perform (.freeEntries i)
      ioFree aio (i + 1) n

/-- `send_dynamic_file`. -/
def sendDynamicFile (conn : Connection) (answers : SendAnswers) : Outcome Connection := do
  let aio ← iocbSetup conn answers
  let aio ← sendDynamicLoop conn answers.content aio 0 0 answers.blocks
  ioFree aio 0 (blockCount conn)
  return { conn with state := .dataSent }

/-- `send_file_by_type`. -/
def sendFileByType (conn : Connection) (answers : SendAnswers) : Outcome Connection :=
  if conn.fileType = static then sendStaticFile conn answers
  else if conn.fileType = dynamic then sendDynamicFile conn answers
  else return conn

/-- The loop of `send_message` that sends what is left of `send_buffer` after its first `total`
bytes; false where the connection is to be removed. -/
def sendHeader (conn : Connection) : ℕ → List Int → Outcome Bool
  | total, [] => if total < conn.sendLen then abort .blocked else return true
  | total, bytesSent :: answers =>
      if total < conn.sendLen then
        if bytesSent = -epipe then abort .sigpipe
        else if bytesSent ≤ 0 then return false
        else do
          perform (.send (((conn.sendBuffer.take conn.sendLen).drop total).take bytesSent.toNat))
          sendHeader conn (total + bytesSent.toNat) answers
      else return true

/-- The header, unless one has been written on this connection. -/
def writeHeader (conn : Connection) (answers : SendAnswers) : Outcome Bool :=
  if conn.headerIsWritten then return true else sendHeader conn 0 answers.send

/-- The file, if there is one. -/
def writeFile (conn : Connection) (answers : SendAnswers) : Outcome Connection :=
  if conn.file ≠ fileNotFound then sendFileByType conn answers else return conn

/-- What `send_message` does at its end. -/
def finishMessage (conn : Connection) (answers : SendAnswers) : Outcome (Option Connection) :=
  if conn.state = .dataSent then removeConnection conn answers.epollCtl
  else do
    dieIf (answers.epollCtl < 0) "w_epoll_update_ptr_in"
    perform (.epollUpdate conn.sockfd .input)
    return some { conn with state := .dataSent }

/-- `send_message`; no connection is left if it was removed. -/
def sendMessage (conn : Connection) (answers : SendAnswers) : Outcome (Option Connection) :=
  if conn.state = .connectionClosed then return some conn
  else if answers.getPeerAddress < 0 then removeConnection conn answers.epollCtl
  else do
    if ← writeHeader conn answers then
      let conn ← writeFile { conn with headerIsWritten := true } answers
      finishMessage conn answers
    else removeConnection conn answers.epollCtl

end OsHomeworks.WebServer
