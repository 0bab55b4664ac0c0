import OsHomeworks.ServerMainLoop
import OsHomeworks.ServerStatic

/-! A failed call for one connection, and the others. `recv`, `getpeername` and `send` lead to the
label `remove_connection`, unless `send` comes with `SIGPIPE`, and `sendfile` to a `DIE`. What is closed
with the connection is in `conn->file`, which is what `malloc` left there until a request names a file:
perhaps the descriptor of a file that is open for another connection. -/

namespace OsHomeworks.WebServer

open CallLog CallLog.Logged Runs

/-- The loop that is to send `left` bytes comes to a `send` that fails or sends nothing. -/
def Stops : ℕ → List Int → Prop
  | _, [] => False
  | left, bytesSent :: answers =>
      0 < left ∧ (bytesSent ≤ 0 ∨ Stops (left - bytesSent.toNat) answers)

/-- It comes to a `send` to a client that does not read any more. -/
def BreaksPipe : ℕ → List Int → Prop
  | _, [] => False
  | left, bytesSent :: answers =>
      0 < left ∧
        (bytesSent = -epipe ∨ 0 < bytesSent ∧ BreaksPipe (left - bytesSent.toNat) answers)

/-- The loop sends all of the `left` bytes. -/
def Written : ℕ → List Int → Prop
  | left, [] => left = 0
  | left, bytesSent :: answers =>
      left = 0 ∨ 0 < bytesSent ∧ Written (left - bytesSent.toNat) answers

/-- The loop that is to send `left` bytes of a file comes to a `sendfile` that fails. -/
def Breaks : Int → List Int → Prop
  | _, [] => False
  | left, rc :: answers => 0 < left ∧ (rc < 0 ∨ Breaks (left - rc) answers)

/-- What is done with the request, if there is one: nothing of it fails. -/
def RequestAnswers.Done (input : Bool) (request : RequestAnswers) : Prop :=
  input = true → ¬request.Fails ∧ 0 ≤ request.epollCtl

namespace Connection

/-- `get_peer_address` fails in `send_message`, or `send` fails. -/
def SendFails (conn : Connection) (reply : SendAnswers) : Prop :=
  conn.state ≠ .connectionClosed ∧
    (reply.getPeerAddress < 0 ∨ conn.headerIsWritten = false ∧ Stops conn.sendLen reply.send)

/-- `send_message` comes to a `send` that raises `SIGPIPE`. -/
def PipeBreaks (conn : Connection) (reply : SendAnswers) : Prop :=
  conn.state ≠ .connectionClosed ∧ 0 ≤ reply.getPeerAddress ∧ conn.headerIsWritten = false ∧
    BreaksPipe conn.sendLen reply.send

/-- `send_message` comes to a `sendfile` that fails. -/
def SendfileFails (conn : Connection) (reply : SendAnswers) : Prop :=
  conn.state ≠ .connectionClosed ∧ 0 ≤ reply.getPeerAddress ∧
    (conn.headerIsWritten = false → Written conn.sendLen reply.send) ∧
    conn.file ≠ fileNotFound ∧ conn.fileType = static ∧ Breaks conn.fileSz reply.sendfile

/-- The connection as `send_message` finds it: with the request that came with the event, if any. -/
def answering (parser : Parser) (conn : Connection) (input : Bool) (request : RequestAnswers) :
    Connection :=
  if input then (conn.received (request.recv.getD [])).prepared request
    (requestPath parser (request.recv.getD []))
  else conn

/-- A call fails that is made for the connection while its message is received or its answer sent. -/
def CallFails (parser : Parser) (conn : Connection) (input output : Bool) (request : RequestAnswers)
    (reply : SendAnswers) : Prop :=
  input = true ∧ request.Fails ∨
    output = true ∧ request.Done input ∧
      ((conn.answering parser input request).SendFails reply ∨
        (conn.answering parser input request).SendfileFails reply)

end Connection

namespace Server

/-- The calls of a handler. -/
def passCalls (server : Server) (conn : ℕ) (handler : Connection → Outcome (Option Connection)) :
    List Call :=
  match server.connections conn with
  | none => []
  | some c => (handler c).calls

/-- The calls of a turn of the loop for a connection. -/
def turnCalls (parser : Parser) (server : Server) (conn : ℕ) (input output : Bool)
    (request : RequestAnswers) (reply : SendAnswers) : List Call :=
  (if input then server.passCalls conn (handleClientRequest parser · request) else []) ++
    match server.onInput parser conn input request with
    | .error _ => []
    | .ok server₁ => if output then server₁.passCalls conn (sendMessage · reply) else []

end Server

/-- The server with the files that are open, each with the connection for which it was opened. -/
structure System where
  server : Server
  files : Int → Option ℕ

namespace System

/-- The effect of a call made on behalf of a connection on the open files. -/
def apply (conn : ℕ) (files : Int → Option ℕ) : Call → Int → Option ℕ
  | .openFile _ fd => Function.update files fd (some conn)
  | .close fd => Function.update files fd none
  | .free => fun fd => if files fd = some conn then none else files fd
  | _ => files

/-- The open files after a turn of the loop. -/
def filesAfter (parser : Parser) (system : System) : Event → Int → Option ℕ
  | .accept _ _ _ _ => system.files
  | .ready conn input output request reply =>
      (system.server.turnCalls parser conn input output request reply).foldl (apply conn) system.files

/-- What the kernel can report; `open` returns a descriptor at which no file is open. -/
def Possible (system : System) (event : Event) : Prop :=
  system.server.Possible event ∧
    match event with
    | .accept _ _ _ _ => True
    | .ready _ input _ request _ => input = true →
        ∀ name, 0 ≤ request.openFile name → system.files (request.openFile name) = none

/-- A turn of the loop that comes to its end. -/
def Turn (parser : Parser) (system : System) (event : Event) (system' : System) : Prop :=
  system.Possible event ∧ system.server.mainLoop parser event = .ok system'.server ∧
    system'.files = system.filesAfter parser event

def start : System := ⟨Server.start, fun _ => none⟩

/-- The connection has its file open at the descriptor. -/
def Open (system : System) (conn : ℕ) (fd : Int) : Prop :=
  system.files fd = some conn ∧
    ∃ c, system.server.connections conn = some c ∧ c.file = fd

/-- The records of the other connections, their entries in the epoll set and their open files are the
same. -/
structure SameElsewhere (conn : ℕ) (system system' : System) : Prop where
  connections : ∀ conn', conn' ≠ conn →
    system'.server.connections conn' = system.server.connections conn'
  epoll : ∀ sockfd registration, registration.conn ≠ conn →
    (system'.server.epoll sockfd = some registration ↔
      system.server.epoll sockfd = some registration)
  files : ∀ conn', conn' ≠ conn → ∀ fd, system'.Open conn' fd ↔ system.Open conn' fd

/-- The turn comes to its end, the loop goes on with its own descriptors, and the other connections are
as they were. -/
def Contained (parser : Parser) (listenfd epollfd : Int) (system : System) (conn : ℕ)
    (input output : Bool) (request : RequestAnswers) (reply : SendAnswers) : Prop :=
  ∃ server', system.server.mainLoop parser (.ready conn input output request reply) = .ok server' ∧
    SameElsewhere conn system
      ⟨server', system.filesAfter parser (.ready conn input output request reply)⟩ ∧
    .close listenfd ∉ system.server.turnCalls parser conn input output request reply ∧
    .close epollfd ∉ system.server.turnCalls parser conn input output request reply

/-- The descriptor can be closed without effect on the loop and on other connections. -/
structure Apart (listenfd epollfd : Int) (system : System) (conn : ℕ) (file : Int) : Prop where
  listenfd : file ≠ listenfd
  epollfd : file ≠ epollfd
  epoll : ∀ registration, system.server.epoll file = some registration → registration.conn = conn
  files : ∀ conn', conn' ≠ conn → ¬system.Open conn' file

/-- The condition on the event, the connection, the epoll set and the open files. A connection that
fails while its message is received must not be passed on, and its removal must succeed; one that fails
while its answer is sent must not do so in `sendfile`, nor in a `send` to a client that does not read
any more. What is closed must be its own. -/
def Confines (parser : Parser) (listenfd epollfd : Int) (system : System) (conn : ℕ)
    (c : Connection) (input output : Bool) (request : RequestAnswers) (reply : SendAnswers) : Prop :=
  if input = true ∧ request.Fails then
    0 ≤ request.epollCtl ∧ output = false ∧
      (c.file ≠ -1 → system.Apart listenfd epollfd conn c.file)
  else
    0 ≤ reply.epollCtl ∧ ¬(c.answering parser input request).SendfileFails reply ∧
      ¬(c.answering parser input request).PipeBreaks reply ∧
      ((c.answering parser input request).file ≠ -1 →
        system.Apart listenfd epollfd conn (c.answering parser input request).file)

end System

theorem sendHeader_stops (conn : Connection) {total : ℕ} {answers : List Int}
    (h : Stops (conn.sendLen - total) answers)
    (hpipe : ¬BreaksPipe (conn.sendLen - total) answers) :
    (sendHeader conn total answers).result = .ok false := by
  induction answers generalizing total with
  | nil => cases h
  | cons bytesSent answers ih =>
      obtain ⟨hleft, hstops⟩ := h
      have hsends : bytesSent ≠ -epipe := fun heq => hpipe ⟨hleft, Or.inl heq⟩
      unfold sendHeader
      rw [if_pos (by omega), if_neg hsends]
      split_ifs with hnone
      · rfl
      · have hrest : ¬BreaksPipe (conn.sendLen - (total + bytesSent.toNat)) answers := by
          rw [← Nat.sub_sub]
          exact fun hrest => hpipe ⟨hleft, Or.inr ⟨Int.not_le.mp hnone, hrest⟩⟩
        rw [Nat.sub_sub] at hstops
        exact ih (hstops.resolve_left hnone) hrest

theorem sendHeader_breaksPipe (conn : Connection) {total : ℕ} {answers : List Int}
    (h : BreaksPipe (conn.sendLen - total) answers) :
    (sendHeader conn total answers).result = .error .sigpipe := by
  induction answers generalizing total with
  | nil => cases h
  | cons bytesSent answers ih =>
      obtain ⟨hleft, hbreaks⟩ := h
      unfold sendHeader
      rw [if_pos (by omega)]
      split_ifs with hpipe hnone
      · rfl
      · have hpos := (hbreaks.resolve_left hpipe).1
        omega
      · have hrest := (hbreaks.resolve_left hpipe).2
        rw [Nat.sub_sub] at hrest
        exact ih hrest

theorem sendHeader_written (conn : Connection) {total : ℕ} {answers : List Int}
    (h : Written (conn.sendLen - total) answers) :
    (sendHeader conn total answers).result = .ok true := by
  induction answers generalizing total with
  | nil =>
      have hleft : conn.sendLen - total = 0 := h
      unfold sendHeader
      rw [if_neg (by omega)]
      rfl
  | cons bytesSent answers ih =>
      unfold sendHeader
      rcases h with hdone | ⟨hpos, hrest⟩
      · rw [if_neg (by omega)]
        rfl
      · split_ifs with hleft hpipe hnone
        · rw [epipe] at hpipe
          omega
        · omega
        · rw [Nat.sub_sub] at hrest
          exact ih hrest
        · rfl

theorem sendStaticLoop_breaks (conn : Connection) (content : List UInt8) {sentBytes : Int}
    {answers : List Int} (h : Breaks (conn.fileSz - sentBytes) answers) :
    ∃ e, (sendStaticLoop conn content sentBytes answers).result = .error e := by
  induction answers generalizing sentBytes with
  | nil => cases h
  | cons rc answers ih =>
      obtain ⟨hleft, hbreaks⟩ := h
      unfold sendStaticLoop
      rw [if_pos (by omega)]
      split_ifs with hpipe
      · exact ⟨_, rfl⟩
      by_cases hneg : rc < 0
      · rw [dieIf_pos hneg, abort_bind]
        exact ⟨_, rfl⟩
      · rw [dieIf_neg hneg, ok_bind, perform_bind]
        rw [Int.sub_sub] at hbreaks
        exact ih (hbreaks.resolve_left hneg)

/-- A failed `send` or `get_peer_address` leads to the label `remove_connection`. -/
theorem sendMessage_fails {c : Connection} {reply : SendAnswers} (h : c.SendFails reply)
    (hpipe : ¬c.PipeBreaks reply) :
    ∃ calls, (∀ call ∈ calls, call.OfHeader) ∧
      sendMessage c reply = ⟨calls ++ (removeConnection c reply.epollCtl).calls,
        (removeConnection c reply.epollCtl).result⟩ := by
  obtain ⟨hstate, hfails⟩ := h
  unfold sendMessage
  rw [if_neg hstate]
  by_cases hpeer : reply.getPeerAddress < 0
  · rw [if_pos hpeer]
    exact ⟨[], nofun, rfl⟩
  · obtain ⟨hfresh, hstops⟩ := hfails.resolve_left hpeer
    have hresult : (sendHeader c 0 reply.send).result = .ok false :=
      sendHeader_stops c hstops fun h => hpipe ⟨hstate, Int.not_lt.mp hpeer, hfresh, h⟩
    rw [if_neg hpeer, writeHeader_fresh hfresh, bind_of_ok hresult]
    refine ⟨(sendHeader c 0 reply.send).calls, fun call hcall => ?_, rfl⟩
    exact (ensures_sendHeader c 0 reply.send).call call hcall

/-- A `send` to a client that does not read any more stops the server. -/
theorem sendMessage_breaksPipe {c : Connection} {reply : SendAnswers} (h : c.PipeBreaks reply) :
    (sendMessage c reply).result = .error .sigpipe := by
  obtain ⟨hstate, hpeer, hfresh, hbreaks⟩ := h
  unfold sendMessage
  have hresult : (sendHeader c 0 reply.send).result = .error .sigpipe :=
    sendHeader_breaksPipe c hbreaks
  rw [if_neg hstate, if_neg (Int.not_lt.mpr hpeer), writeHeader_fresh hfresh, bind_of_error hresult]

/-- A failed `sendfile` stops the server. -/
theorem sendMessage_breaks {c : Connection} {reply : SendAnswers} (h : c.SendfileFails reply) :
    ∃ e, (sendMessage c reply).result = .error e := by
  obtain ⟨hstate, hpeer, hwritten, hfile, hstatic, hbreaks⟩ := h
  have hheader : (writeHeader c reply).result = .ok true := by
    unfold writeHeader
    split_ifs with hdone
    · rfl
    · exact sendHeader_written c (hwritten (Bool.not_eq_true _ ▸ hdone))
  obtain ⟨e, hloop⟩ : ∃ e, (sendStaticLoop { c with headerIsWritten := true } reply.content 0
      reply.sendfile).result = .error e := by
    apply sendStaticLoop_breaks
    rwa [Int.sub_zero]
  refine ⟨e, ?_⟩
  rw [sendMessage_eq hstate hpeer hheader]
  show (sendBody c reply).result = _
  rw [sendBody, writeFile, if_pos hfile, sendFileByType, if_pos hstatic, sendStaticFile,
    bind_of_error hloop, bind_of_error rfl]

theorem close_not_mem {calls : List Call} (h : ∀ call ∈ calls, call.Local) (fd : Int) :
    .close fd ∉ calls := fun hmem => h _ hmem

theorem close_mem_removal (c : Connection) (fd : Int) :
    .close fd ∈ removal c ↔ c.file ≠ -1 ∧ c.file = fd := by
  unfold removal
  split_ifs with hfile
  · simp [hfile, eq_comm]
  · simp [hfile]

/-- What `handle_client_request` closes if it does not remove the connection. -/
theorem close_not_mem_handle (parser : Parser) (c : Connection) {request : RequestAnswers}
    (hdone : request.Done true) (fd : Int) :
    .close fd ∉ (handleClientRequest parser c request).calls := by
  obtain ⟨hfails, hepoll⟩ := hdone rfl
  obtain ⟨hpeer, message, hrecv, hne⟩ := RequestAnswers.received_of_not_fails hfails
  rw [handleClientRequest_eq hpeer hrecv hne parser c hepoll]
  intro hmem
  rcases List.mem_append.mp hmem with hopening | hupdate
  · obtain ⟨name, fd', hcall⟩ := mem_opening hopening
    cases hcall
  · cases List.mem_singleton.mp hupdate

/-- The entry of the connection of a possible event. -/
theorem Server.Inv.own_entry {server : Server} {conn : ℕ} {c : Connection} {input output : Bool}
    {request : RequestAnswers} {reply : SendAnswers} (hinv : server.Inv)
    (hlive : server.connections conn = some c)
    (h : server.Possible (.ready conn input output request reply)) :
    ∃ interest, server.epoll c.sockfd = some ⟨interest, conn⟩ := by
  obtain ⟨-, sockfd, interest, hentry, -⟩ := h
  obtain ⟨c', hc', rfl⟩ := hinv sockfd _ hentry
  obtain rfl : c' = c := Option.some.inj (hc'.symm.trans hlive)
  exact ⟨interest, hentry⟩

theorem Server.passCalls_eq {server : Server} {conn : ℕ} {c : Connection}
    (hlive : server.connections conn = some c)
    (handler : Connection → Outcome (Option Connection)) :
    server.passCalls conn handler = (handler c).calls := by
  unfold passCalls
  rw [hlive]

theorem Server.pass_eq {server : Server} {conn : ℕ} {c : Connection}
    (hlive : server.connections conn = some c)
    {handler : Connection → Outcome (Option Connection)} {calls : List Call}
    (hlocal : ∀ call ∈ calls, call.Local)
    (h : handler c = ⟨calls ++ removal c, .ok none⟩) :
    server.pass conn handler = .ok ((removal c).foldl (apply conn) server) := by
  unfold pass
  rw [hlive]
  dsimp only
  rw [h]
  dsimp only
  rw [List.foldl_append, foldl_apply_of_local conn hlocal]

/-- The epoll set after a removal. -/
theorem Server.removal_epoll (conn : ℕ) (c : Connection) (server : Server) (fd : Int) :
    ((removal c).foldl (apply conn) server).epoll fd =
      if fd = c.sockfd ∨ c.file ≠ -1 ∧ fd = c.file then none else server.epoll fd := by
  unfold removal
  split_ifs with hfile hgone hgone
  · show Function.update (Function.update server.epoll c.sockfd none) c.file none fd = none
    simp only [Function.update_apply]
    split_ifs <;> tauto
  · show Function.update (Function.update server.epoll c.sockfd none) c.file none fd = _
    simp only [Function.update_apply]
    split_ifs <;> tauto
  · show Function.update server.epoll c.sockfd none fd = none
    simp only [Function.update_apply]
    split_ifs <;> tauto
  · show Function.update server.epoll c.sockfd none fd = _
    simp only [Function.update_apply]
    split_ifs <;> tauto

namespace System

variable {system system₁ system' : System} {conn conn' : ℕ} {c : Connection}

/-- The files of the other connections after a removal. -/
theorem removal_files (conn : ℕ) (c : Connection) (files : Int → Option ℕ) (hne : conn' ≠ conn)
    (fd : Int) :
    (removal c).foldl (apply conn) files fd = some conn' ↔
      ¬(c.file ≠ -1 ∧ fd = c.file) ∧ files fd = some conn' := by
  have hfreed : ∀ files : Int → Option ℕ,
      (if files fd = some conn then none else files fd) = some conn' ↔ files fd = some conn' := by
    intro files
    by_cases hown : files fd = some conn
    · rw [if_pos hown, hown]
      exact iff_of_false nofun fun h => hne (Option.some.inj h).symm
    · rw [if_neg hown]
  unfold removal
  split_ifs with hfile
  · refine (hfreed (Function.update files c.file none)).trans ?_
    by_cases hfd : fd = c.file
    · rw [hfd, Function.update_self]
      exact iff_of_false nofun fun h => h.1 ⟨hfile, rfl⟩
    · rw [Function.update_of_ne hfd]
      exact (and_iff_right fun h => hfd h.2).symm
  · exact (hfreed files).trans (and_iff_right fun h => hfile h.1).symm

/-- The calls that send the header leave the files alone. -/
theorem foldl_apply_of_header (conn : ℕ) {calls : List Call} (h : ∀ call ∈ calls, call.OfHeader)
    (files : Int → Option ℕ) : calls.foldl (apply conn) files = files := by
  induction calls with
  | nil => rfl
  | cons call calls ih =>
      have hcall : apply conn files call = files := by
        have hheader := h call List.mem_cons_self
        cases call <;> first | rfl | cases hheader
      rw [List.foldl_cons, hcall]
      exact ih fun call' hmem => h call' (List.mem_cons_of_mem call hmem)

namespace SameElsewhere

theorem refl (conn : ℕ) (system : System) : SameElsewhere conn system system :=
  ⟨fun _ _ => rfl, fun _ _ _ => Iff.rfl, fun _ _ _ => Iff.rfl⟩

theorem symm (h : SameElsewhere conn system system') : SameElsewhere conn system' system :=
  ⟨fun conn' hne => (h.connections conn' hne).symm,
    fun sockfd registration hne => (h.epoll sockfd registration hne).symm,
    fun conn' hne fd => (h.files conn' hne fd).symm⟩

theorem trans (h : SameElsewhere conn system system₁) (h' : SameElsewhere conn system₁ system') :
    SameElsewhere conn system system' :=
  ⟨fun conn' hne => (h'.connections conn' hne).trans (h.connections conn' hne),
    fun sockfd registration hne =>
      (h'.epoll sockfd registration hne).trans (h.epoll sockfd registration hne),
    fun conn' hne fd => (h'.files conn' hne fd).trans (h.files conn' hne fd)⟩

/-- Files that differ in those of the connection only. -/
theorem of_files {server server' : Server} {files files' : Int → Option ℕ}
    (hconnections : ∀ conn', conn' ≠ conn → server'.connections conn' = server.connections conn')
    (hepoll : ∀ sockfd registration, registration.conn ≠ conn →
      (server'.epoll sockfd = some registration ↔ server.epoll sockfd = some registration))
    (hfiles : ∀ conn', conn' ≠ conn → ∀ fd, files' fd = some conn' ↔ files fd = some conn') :
    SameElsewhere conn ⟨server, files⟩ ⟨server', files'⟩ := by
  refine ⟨hconnections, hepoll, fun conn' hne fd => ?_⟩
  unfold Open
  rw [hfiles conn' hne fd, hconnections conn' hne]

/-- A new record of the connection, a new entry for its socket, and perhaps a new file. -/
theorem update {server : Server} {files files' : Int → Option ℕ}
    (hown : ∃ interest, server.epoll c.sockfd = some ⟨interest, conn⟩)
    (r : Option Connection) (interest : Interest)
    (hfiles : ∀ conn', conn' ≠ conn → ∀ fd, files' fd = some conn' ↔ files fd = some conn') :
    SameElsewhere conn ⟨server, files⟩ ⟨⟨Function.update server.connections conn r,
      Function.update server.epoll c.sockfd (some ⟨interest, conn⟩)⟩, files'⟩ := by
  obtain ⟨interest', hentry⟩ := hown
  refine .of_files (fun conn' hne => Function.update_of_ne hne _ _)
    (fun sockfd registration hne => ?_) hfiles
  by_cases hsockfd : sockfd = c.sockfd
  · subst hsockfd
    dsimp only
    rw [Function.update_self, hentry]
    refine iff_of_false (fun h => ?_) fun h => ?_
    · exact hne (congrArg Registration.conn (Option.some.inj h)).symm
    · exact hne (congrArg Registration.conn (Option.some.inj h)).symm
  · dsimp only
    rw [Function.update_of_ne hsockfd]

end SameElsewhere

/-- What can be closed without effect on others. -/
theorem Apart.same {listenfd epollfd file : Int} (h : SameElsewhere conn system system₁) :
    system.Apart listenfd epollfd conn file ↔ system₁.Apart listenfd epollfd conn file := by
  have hentries : ∀ {s s' : System}, SameElsewhere conn s s' →
      s.Apart listenfd epollfd conn file → s'.Apart listenfd epollfd conn file := by
    intro s s' hsame hapart
    refine ⟨hapart.listenfd, hapart.epollfd, fun registration hentry => ?_, fun conn' hne hopen => ?_⟩
    · by_contra hne
      exact hne (hapart.epoll registration ((hsame.epoll file registration hne).mp hentry))
    · exact hapart.files conn' hne ((hsame.files conn' hne file).mp hopen)
  exact ⟨hentries h, hentries h.symm⟩

/-- The system when a connection has been removed. -/
def removed (conn : ℕ) (c : Connection) (system : System) : System :=
  ⟨(removal c).foldl (Server.apply conn) system.server, (removal c).foldl (apply conn) system.files⟩

/-- A removal leaves the others as they were, and closes none of the descriptors of the loop, exactly
if `conn->file` is apart. -/
theorem removal_contained_iff (listenfd epollfd : Int)
    (hown : ∃ interest, system.server.epoll c.sockfd = some ⟨interest, conn⟩) :
    (SameElsewhere conn system (system.removed conn c) ∧
        .close listenfd ∉ removal c ∧ .close epollfd ∉ removal c) ↔
      (c.file ≠ -1 → system.Apart listenfd epollfd conn c.file) := by
  obtain ⟨interest, hentry⟩ := hown
  rw [close_mem_removal, close_mem_removal]
  constructor
  · rintro ⟨hsame, hlistenfd, hepollfd⟩ hfile
    refine ⟨fun h => hlistenfd ⟨hfile, h⟩, fun h => hepollfd ⟨hfile, h⟩, fun registration h => ?_,
      fun conn' hne hopen => ?_⟩
    · by_contra hne
      have hleft := (hsame.epoll c.file registration hne).mpr h
      rw [removed, Server.removal_epoll, if_pos (Or.inr ⟨hfile, rfl⟩)] at hleft
      cases hleft
    · have hleft := ((hsame.files conn' hne c.file).mpr hopen).1
      exact ((removal_files conn c _ hne _).mp hleft).1 ⟨hfile, rfl⟩
  · intro hapart
    refine ⟨⟨fun conn' hne => ?_, fun sockfd registration hne => ?_, fun conn' hne fd => ?_⟩,
      fun h => ?_, fun h => ?_⟩
    · rw [removed, (Server.foldl_removal conn c system.server).1, Function.update_of_ne hne]
    · rw [removed, Server.removal_epoll]
      split_ifs with hgone
      · refine iff_of_false nofun fun h => ?_
        rcases hgone with rfl | ⟨hfile, rfl⟩
        · exact hne (congrArg Registration.conn (Option.some.inj (hentry.symm.trans h))).symm
        · exact hne ((hapart hfile).epoll registration h)
      · exact Iff.rfl
    · unfold Open
      rw [removed, removal_files conn c _ hne, (Server.foldl_removal conn c system.server).1,
        Function.update_of_ne hne]
      constructor
      · rintro ⟨⟨-, hfile⟩, hlive⟩
        exact ⟨hfile, hlive⟩
      · rintro ⟨hfile, hlive⟩
        refine ⟨⟨fun hclosed => ?_, hfile⟩, hlive⟩
        obtain ⟨hsome, rfl⟩ := hclosed
        exact (hapart hsome).files conn' hne ⟨hfile, hlive⟩
    · exact (hapart h.1).listenfd h.2
    · exact (hapart h.1).epollfd h.2

variable {parser : Parser} {listenfd epollfd : Int} {input output : Bool} {request : RequestAnswers}
  {reply : SendAnswers}

/-- The calls of the branch of `main` for `EPOLLIN`. -/
def inputCalls (parser : Parser) (system : System) (conn : ℕ) (input : Bool)
    (request : RequestAnswers) : List Call :=
  if input then system.server.passCalls conn (handleClientRequest parser · request) else []

/-- A file that is opened is a new one. -/
theorem opening_files (parser : Parser) {message : List UInt8} {files : Int → Option ℕ}
    (hnew : ∀ name, 0 ≤ request.openFile name → files (request.openFile name) = none)
    (sockfd : Int) (hne : conn' ≠ conn) (fd : Int) :
    (opening request (requestPath parser message) ++ [Call.epollUpdate sockfd .inputOutput]).foldl
        (apply conn) files fd = some conn' ↔ files fd = some conn' := by
  rw [List.foldl_append]
  show (opening request (requestPath parser message)).foldl (apply conn) files fd = some conn' ↔ _
  unfold opening
  split_ifs with hnone hopened
  · exact Iff.rfl
  · show Function.update files _ (some conn) fd = some conn' ↔ _
    by_cases hfd : fd = request.openFile (connectionPath (requestPath parser message))
    · rw [hfd, Function.update_self, hnew _ hopened]
      exact iff_of_false (fun h => hne (Option.some.inj h).symm) nofun
    · rw [Function.update_of_ne hfd]
  · exact Iff.rfl

/-- A request that is received changes the record, the entry and the files of its connection only. -/
theorem onInput_answering (parser : Parser) (hlive : system.server.connections conn = some c)
    (hown : ∃ interest, system.server.epoll c.sockfd = some ⟨interest, conn⟩)
    (hpossible : system.Possible (.ready conn input output request reply))
    (hdone : request.Done input) :
    ∃ server₁, system.server.onInput parser conn input request = .ok server₁ ∧
      server₁.connections conn = some (c.answering parser input request) ∧
      SameElsewhere conn system
        ⟨server₁, (system.inputCalls parser conn input request).foldl (apply conn) system.files⟩ ∧
      (∃ interest, server₁.epoll (c.answering parser input request).sockfd =
        some ⟨interest, conn⟩) ∧
      ∀ fd, .close fd ∉ system.inputCalls parser conn input request := by
  cases input with
  | false => exact ⟨system.server, rfl, hlive, .refl conn system, hown, fun _ => nofun⟩
  | true =>
      obtain ⟨hfails, hepoll⟩ := hdone rfl
      obtain ⟨hpeer, message, hrecv, hne⟩ := RequestAnswers.received_of_not_fails hfails
      have hsockfd : (c.answering parser true request).sockfd = c.sockfd := prepared_sockfd _ _ _
      have hcalls : system.inputCalls parser conn true request =
          opening request (requestPath parser message) ++ [.epollUpdate c.sockfd .inputOutput] := by
        rw [inputCalls, if_pos rfl, Server.passCalls_eq hlive,
          handleClientRequest_eq hpeer hrecv hne parser c hepoll]
      refine ⟨_, Server.onInput_received parser hlive hfails hepoll, Function.update_self _ _ _, ?_,
        ⟨.inputOutput, ?_⟩, fun fd => ?_⟩
      · rw [hcalls]
        exact .update hown _ .inputOutput fun conn' hother fd =>
          opening_files parser (hpossible.2 rfl) c.sockfd hother fd
      · rw [hsockfd]
        exact Function.update_self _ _ _
      · rw [inputCalls, if_pos rfl, Server.passCalls_eq hlive]
        exact close_not_mem_handle parser c hdone fd

theorem not_contained {stop : Stop}
    (h : system.server.mainLoop parser (.ready conn input output request reply) = .error stop) :
    ¬system.Contained parser listenfd epollfd conn input output request reply :=
  fun ⟨_, hok, _⟩ => nomatch h.symm.trans hok

theorem contained_iff {server' : Server}
    (h : system.server.mainLoop parser (.ready conn input output request reply) = .ok server')
    {calls : List Call}
    (hcalls : system.server.turnCalls parser conn input output request reply = calls) :
    system.Contained parser listenfd epollfd conn input output request reply ↔
      SameElsewhere conn system ⟨server', calls.foldl (apply conn) system.files⟩ ∧
        .close listenfd ∉ calls ∧ .close epollfd ∉ calls := by
  subst hcalls
  constructor
  · rintro ⟨server'', hok, hcontained⟩
    obtain rfl : server' = server'' := Except.ok.inj (h.symm.trans hok)
    exact hcontained
  · intro hcontained
    exact ⟨server', h, hcontained⟩

/-- A failure in `receive_message`. -/
theorem contained_receiving_iff (hlive : system.server.connections conn = some c)
    (hown : ∃ interest, system.server.epoll c.sockfd = some ⟨interest, conn⟩)
    (hfails : request.Fails) :
    system.Contained parser listenfd epollfd conn true output request reply ↔
      0 ≤ request.epollCtl ∧ output = false ∧
        (c.file ≠ -1 → system.Apart listenfd epollfd conn c.file) := by
  have hhandler := handleClientRequest_fails parser hfails c
  rcases Int.lt_or_le request.epollCtl 0 with hneg | hok
  · have hinput : system.server.onInput parser conn true request =
        .error (.abort (.die "w_epoll_remove_ptr")) := by
      apply Server.pass_of_error hlive
      rw [hhandler, removeConnection_die c hneg, abort_result]
    refine iff_of_false (not_contained (Server.mainLoop_of_error hinput)) fun h => ?_
    omega
  · rw [removeConnection_eq c hok] at hhandler
    have hinput : system.server.onInput parser conn true request =
        .ok ((removal c).foldl (Server.apply conn) system.server) :=
      Server.pass_eq hlive (List.forall_mem_nil Call.Local) hhandler
    rw [and_iff_right hok]
    cases output with
    | true =>
        have hstop : ((removal c).foldl (Server.apply conn) system.server).onOutput conn true
            reply = .error (.released conn) := by
          apply Server.pass_none
          rw [(Server.foldl_removal conn c system.server).1, Function.update_self]
        exact iff_of_false (not_contained ((Server.mainLoop_of_ok hinput).trans hstop))
          fun h => nomatch h.1
    | false =>
        have hcalls : system.server.turnCalls parser conn true false request reply = removal c := by
          unfold Server.turnCalls
          rw [hinput, if_pos rfl, Server.passCalls_eq hlive, hhandler]
          exact List.append_nil _
        rw [contained_iff (Server.mainLoop_of_ok hinput) hcalls, and_iff_right rfl]
        exact removal_contained_iff listenfd epollfd hown

/-- A failure in `send_message`. -/
theorem contained_sending_iff (hlive : system.server.connections conn = some c)
    (hown : ∃ interest, system.server.epoll c.sockfd = some ⟨interest, conn⟩)
    (hpossible : system.Possible (.ready conn input true request reply))
    (hdone : request.Done input)
    (hfails : (c.answering parser input request).SendFails reply ∨
      (c.answering parser input request).SendfileFails reply) :
    system.Contained parser listenfd epollfd conn input true request reply ↔
      0 ≤ reply.epollCtl ∧ ¬(c.answering parser input request).SendfileFails reply ∧
        ¬(c.answering parser input request).PipeBreaks reply ∧
        ((c.answering parser input request).file ≠ -1 →
          system.Apart listenfd epollfd conn (c.answering parser input request).file) := by
  obtain ⟨server₁, hinput, hlive₁, hsame, hown₁, hclose⟩ :=
    onInput_answering parser hlive hown hpossible hdone
  have hloop : system.server.mainLoop parser (.ready conn input true request reply) =
      server₁.onOutput conn true reply := Server.mainLoop_of_ok hinput
  by_cases hbreaks : (c.answering parser input request).SendfileFails reply
  · obtain ⟨e, herror⟩ := sendMessage_breaks hbreaks
    have hstop : server₁.onOutput conn true reply = .error (.abort e) :=
      Server.pass_of_error hlive₁ herror
    exact iff_of_false (not_contained (hloop.trans hstop)) fun h => h.2.1 hbreaks
  by_cases hpipe : (c.answering parser input request).PipeBreaks reply
  · have hstop : server₁.onOutput conn true reply = .error (.abort .sigpipe) :=
      Server.pass_of_error hlive₁ (sendMessage_breaksPipe hpipe)
    exact iff_of_false (not_contained (hloop.trans hstop)) fun h => h.2.2.1 hpipe
  obtain ⟨calls, hheader, hsend⟩ := sendMessage_fails (hfails.resolve_right hbreaks) hpipe
  have hlocal : ∀ call ∈ calls, call.Local := fun call hcall => (hheader call hcall).isLocal
  rcases Int.lt_or_le reply.epollCtl 0 with hneg | hok
  · have hstop : server₁.onOutput conn true reply =
        .error (.abort (.die "w_epoll_remove_ptr")) := by
      apply Server.pass_of_error hlive₁
      rw [hsend, removeConnection_die _ hneg, abort_result]
    refine iff_of_false (not_contained (hloop.trans hstop)) fun h => ?_
    omega
  rw [removeConnection_eq _ hok] at hsend
  have hpass : server₁.onOutput conn true reply =
      .ok ((removal (c.answering parser input request)).foldl (Server.apply conn) server₁) :=
    Server.pass_eq hlive₁ hlocal hsend
  have hcalls : system.server.turnCalls parser conn input true request reply =
      system.inputCalls parser conn input request ++
        (calls ++ removal (c.answering parser input request)) := by
    unfold Server.turnCalls
    rw [hinput]
    dsimp only
    rw [if_pos rfl, Server.passCalls_eq hlive₁, hsend, inputCalls]
  have hcloses : ∀ fd, .close fd ∈ system.inputCalls parser conn input request ++
      (calls ++ removal (c.answering parser input request)) ↔
        .close fd ∈ removal (c.answering parser input request) := by
    intro fd
    rw [List.mem_append, List.mem_append, or_iff_right (hclose fd),
      or_iff_right (close_not_mem hlocal fd)]
  have hfiles : (system.inputCalls parser conn input request ++
      (calls ++ removal (c.answering parser input request))).foldl (apply conn) system.files =
        (removal (c.answering parser input request)).foldl (apply conn)
          ((system.inputCalls parser conn input request).foldl (apply conn) system.files) := by
    rw [List.foldl_append, List.foldl_append, foldl_apply_of_header conn hheader]
  generalize c.answering parser input request = c₁ at *
  calc system.Contained parser listenfd epollfd conn input true request reply
      ↔ SameElsewhere conn system (removed conn c₁ ⟨server₁,
            (system.inputCalls parser conn input request).foldl (apply conn) system.files⟩) ∧
          .close listenfd ∉ removal c₁ ∧ .close epollfd ∉ removal c₁ := by
        rw [contained_iff (hloop.trans hpass) hcalls, hcloses, hcloses, hfiles, removed]
    _ ↔ SameElsewhere conn ⟨server₁,
            (system.inputCalls parser conn input request).foldl (apply conn) system.files⟩
          (removed conn c₁ ⟨server₁,
            (system.inputCalls parser conn input request).foldl (apply conn) system.files⟩) ∧
          .close listenfd ∉ removal c₁ ∧ .close epollfd ∉ removal c₁ :=
        and_congr_left fun _ => ⟨hsame.symm.trans, hsame.trans⟩
    _ ↔ (c₁.file ≠ -1 → Apart listenfd epollfd ⟨server₁,
            (system.inputCalls parser conn input request).foldl (apply conn) system.files⟩ conn
          c₁.file) :=
        removal_contained_iff listenfd epollfd hown₁
    _ ↔ _ := by
        rw [← Apart.same hsame, and_iff_right hok, and_iff_right hbreaks, and_iff_right hpipe]

/-- The server of a run with its files runs as it does without them. -/
theorem server_run {events : List Event} (h : Run (Turn parser) system events system') :
    Run (Server.Turn parser) system.server events system'.server := by
  induction h with
  | nil system => exact .nil _
  | cons hturn _ ih => exact .cons ⟨hturn.1.1, hturn.2.1⟩ ih

end System

/-- `recv` fails. -/
def reset : RequestAnswers := ⟨0, none, ⟨[], []⟩, fun _ => -1, fun _ => 0, 0⟩

/-- The header goes out, and then there is no room for the file: `sendfile` fails with `EAGAIN`. -/
def wouldBlock : SendAnswers := ⟨0, [19], [65], [-11], 0, fun _ => [], 0, [], 0⟩

/-- The request for the file. -/
def fileRequest : RequestAnswers := oneFile (bytes "./static/a.dat") (bytes "GET /static/a ")

/-- The calls for this request on a new connection. -/
theorem handle_fileRequest (sockfd : Int) :
    handleClientRequest getParser (connectionCreate clearedMemory sockfd) fileRequest =
      ⟨[.openFile (bytes "./static/a.dat") 7, .epollUpdate sockfd .inputOutput],
        .ok (some (((connectionCreate clearedMemory sockfd).received (bytes "GET /static/a ")).prepared
          fileRequest (requestPath getParser (bytes "GET /static/a "))))⟩ := by
  have hopening : opening fileRequest (requestPath getParser (bytes "GET /static/a ")) =
      [.openFile (bytes "./static/a.dat") 7] := by decide +kernel
  have hreceived : (bytes "GET /static/a ") ≠ [] := by decide
  rw [handleClientRequest_eq (Int.le_refl 0) rfl hreceived getParser _ (Int.le_refl 0), hopening]
  rfl

/-- A second client on descriptor 6. -/
def secondClient : Event := .accept 1 6 clearedMemory 0

def bothConnected : Server :=
  ⟨Function.update firstConnected.connections 1 (some (connectionCreate clearedMemory 6)),
    Function.update firstConnected.epoll 6 (some ⟨.input, 1⟩)⟩

/-- The connection of the second client, when its request has been received. -/
def secondAnswered : Connection :=
  ((connectionCreate clearedMemory 6).received (bytes "GET /static/a ")).prepared fileRequest
    (requestPath getParser (bytes "GET /static/a "))

/-- Two clients, of which the second has asked for a file. -/
def secondAsked : System where
  server :=
    ⟨Function.update bothConnected.connections 1 (some secondAnswered),
      Function.update bothConnected.epoll 6 (some ⟨.inputOutput, 1⟩)⟩
  files := Function.update (fun _ => none) 7 (some 1)

theorem run_secondAsked :
    Run (System.Turn getParser) System.start
      [firstClient, secondClient, .ready 1 true false fileRequest noReply] secondAsked := by
  have hfirst : System.Turn getParser System.start firstClient ⟨firstConnected, fun _ => none⟩ :=
    ⟨⟨⟨rfl, rfl⟩, trivial⟩, rfl, rfl⟩
  have hsecond : System.Turn getParser ⟨firstConnected, fun _ => none⟩ secondClient
      ⟨bothConnected, fun _ => none⟩ := ⟨⟨⟨rfl, rfl⟩, trivial⟩, rfl, rfl⟩
  have hlive : bothConnected.connections 1 = some (connectionCreate clearedMemory 6) := rfl
  have hfails : ¬fileRequest.Fails := by decide
  have hinput := Server.onInput_received getParser hlive hfails (by decide)
  have hcalls : bothConnected.turnCalls getParser 1 true false fileRequest noReply =
      [.openFile (bytes "./static/a.dat") 7, .epollUpdate 6 .inputOutput] := by
    unfold Server.turnCalls
    rw [hinput, if_pos rfl, Server.passCalls_eq hlive, handle_fileRequest]
    rfl
  refine .cons hfirst (.cons hsecond (.single ⟨⟨⟨Or.inl rfl, 6, .input, rfl, nofun⟩, ?_⟩, ?_, ?_⟩))
  · exact fun _ _ _ => rfl
  · exact (Server.mainLoop_of_ok hinput).trans rfl
  · unfold System.filesAfter
    dsimp only
    rw [hcalls]
    rfl

theorem oneByteConnection_breaks : oneByteConnection.SendfileFails wouldBlock := by
  have hopened : oneByteConnection.file ≠ fileNotFound := by decide +kernel
  obtain ⟨-, hlen, hsize⟩ := prepared_opened hopened
  have hstate : oneByteConnection.state = .dataReceived := prepared_state _ _ _
  refine ⟨by rw [hstate]; nofun, Int.le_refl 0, fun _ => ?_, hopened, by decide +kernel, ?_⟩
  · have hsends : Written oneByteConnection.sendLen [19] := by
      rw [oneByteConnection, hlen]
      exact Or.inr ⟨by decide, rfl⟩
    exact hsends
  · have hfails : Breaks oneByteConnection.fileSz [-11] := by
      rw [oneByteConnection, hsize]
      exact ⟨by decide, Or.inl (by decide)⟩
    exact hfails

end OsHomeworks.WebServer
