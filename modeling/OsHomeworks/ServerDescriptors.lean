import OsHomeworks.ServerMainLoop

/-! The descriptors obtained for a connection, and those that are closed when it is removed:
`connection_remove` shuts its socket down without closing it, and closes whatever is in `conn->file`. -/

namespace OsHomeworks.WebServer

open CallLog CallLog.Logged Runs

/-- The descriptor that a call obtains. -/
def Call.obtained : Call → Option Int
  | .openFile _ fd => some fd
  | .eventfd fd => some fd
  | _ => none

/-- The descriptor that a call closes; `shutdown` closes none. -/
def Call.closed : Call → Option Int
  | .close fd => some fd
  | _ => none

/-- The request is received and names a file. -/
def RequestAnswers.names (parser : Parser) (answers : RequestAnswers) : Bool :=
  ¬answers.Fails ∧ requestPath parser (answers.recv.getD []) ≠ []

/-- The header of the answer is written. -/
def SendAnswers.headerSent (conn : Connection) (answers : SendAnswers) : Bool :=
  match (writeHeader conn answers).result with
  | .ok written => written
  | .error _ => false

/-- `send_message` comes to `send_dynamic_file`. -/
def SendAnswers.sendsDynamic (conn : Connection) (answers : SendAnswers) : Bool :=
  conn.state ≠ .connectionClosed ∧ 0 ≤ answers.getPeerAddress ∧ answers.headerSent conn ∧
    conn.file ≠ fileNotFound ∧ conn.fileType = dynamic

/-- The books of one connection: what `malloc` gave it and its socket, the descriptors obtained and
closed for it, whether a request of it has named a file, and whether a dynamic file has been sent. -/
structure Account where
  memory : Connection
  sockfd : Int
  obtained : List Int
  closed : List Int
  named : Bool
  dynamicSent : Bool

namespace Account

/-- The account of a new connection. -/
def new (memory : Connection) (sockfd : Int) : Account := ⟨memory, sockfd, [sockfd], [], false, false⟩

def request (parser : Parser) (answers : RequestAnswers) (account : Account) : Account :=
  { account with named := account.named || answers.names parser }

def reply (answers : SendAnswers) (conn : Connection) (account : Account) : Account :=
  { account with dynamicSent := account.dynamicSent || answers.sendsDynamic conn }

def enter (account : Account) (calls : List Call) : Account :=
  { account with
    obtained := account.obtained ++ calls.filterMap Call.obtained
    closed := account.closed ++ calls.filterMap Call.closed }

/-- Every descriptor that was obtained has been closed once, and no other. -/
def Settled (account : Account) : Prop := account.obtained.Perm account.closed

/-- New memory happened to have the number of the socket in `conn->file`, and nothing else was obtained
for the connection: none of its requests named a file, and no dynamic file was sent. -/
def Accidental (account : Account) : Prop :=
  account.memory.file = account.sockfd ∧ account.named = false ∧ account.dynamicSent = false

end Account

/-- The accounts of the connections that are there, and of those that have been removed. -/
structure Books where
  live : ℕ → Option Account
  removed : List Account

namespace Books

/-- The calls of a handler are entered; `free` ends the account. -/
def enter (books : Books) (conn : ℕ) (note : Account → Account) (calls : List Call) : Books :=
  match books.live conn with
  | none => books
  | some account =>
      if .free ∈ calls then
        { live := Function.update books.live conn none
          removed := books.removed ++ [(note account).enter calls] }
      else { books with live := Function.update books.live conn (some ((note account).enter calls)) }

/-- A connection is passed to one of its handlers. -/
def pass (books : Books) (server : Server) (conn : ℕ)
    (handler : Connection → Outcome (Option Connection)) (note : Connection → Account → Account) :
    Books :=
  match server.connections conn with
  | none => books
  | some c => books.enter conn (note c) (handler c).calls

def onInput (parser : Parser) (books : Books) (server : Server) (conn : ℕ) (input : Bool)
    (request : RequestAnswers) : Books :=
  if input then
    books.pass server conn (handleClientRequest parser · request) fun _ => .request parser request
  else books

def onOutput (books : Books) (server : Server) (conn : ℕ) (output : Bool) (reply : SendAnswers) :
    Books :=
  if output then books.pass server conn (sendMessage · reply) (.reply reply) else books

/-- One turn of the loop. -/
def turn (parser : Parser) (books : Books) (server : Server) : Event → Books
  | .accept conn sockfd memory _ =>
      { books with live := Function.update books.live conn (some (.new memory sockfd)) }
  | .ready conn input output request reply =>
      match server.onInput parser conn input request with
      | .error _ => books
      | .ok server' =>
          (books.onInput parser server conn input request).onOutput server' conn output reply

end Books

/-- The server with its books. -/
structure Audit where
  server : Server
  books : Books

namespace Audit

/-- A turn of the loop that comes to its end, and is entered in the books. -/
def Turn (parser : Parser) (audit : Audit) (event : Event) (audit' : Audit) : Prop :=
  Server.Turn parser audit.server event audit'.server ∧
    audit'.books = audit.books.turn parser audit.server event

def start : Audit := ⟨Server.start, ⟨fun _ => none, []⟩⟩

end Audit

/-- The calls obtain certain descriptors, close none and free no connection. -/
structure Obtains (fds : List Int) (calls : List Call) : Prop where
  obtained : calls.filterMap Call.obtained = fds
  closed : calls.filterMap Call.closed = []
  free : .free ∉ calls

namespace Obtains

theorem nil : Obtains [] [] := ⟨rfl, rfl, nofun⟩

theorem append {fds fds' : List Int} {calls calls' : List Call} (h : Obtains fds calls)
    (h' : Obtains fds' calls') : Obtains (fds ++ fds') (calls ++ calls') := by
  refine ⟨?_, ?_, fun hfree => (List.mem_append.mp hfree).elim h.free h'.free⟩
  · rw [List.filterMap_append, h.obtained, h'.obtained]
  · rw [List.filterMap_append, h.closed, h'.closed]
    rfl

/-- A call that the books do not see. -/
def Quiet (call : Call) : Prop := call.obtained = none ∧ call.closed = none ∧ call ≠ .free

theorem of_quiet {calls : List Call} (h : ∀ call ∈ calls, Quiet call) : Obtains [] calls := by
  refine ⟨?_, ?_, fun hfree => (h _ hfree).2.2 rfl⟩
  · exact List.filterMap_eq_nil_iff.mpr fun call hcall => (h call hcall).1
  · exact List.filterMap_eq_nil_iff.mpr fun call hcall => (h call hcall).2.1

theorem quiet_of_header {call : Call} (h : call.OfHeader) : Quiet call := by
  cases call with
  | send data => exact ⟨rfl, rfl, nofun⟩
  | _ => cases h

theorem quiet_of_transfer {call : Call} (h : call.OfTransfer) : Quiet call := by
  cases call with
  | sendfile data => exact ⟨rfl, rfl, nofun⟩
  | pwrite data => exact ⟨rfl, rfl, nofun⟩
  | freeEntries i => exact ⟨rfl, rfl, nofun⟩
  | _ => cases h

theorem bind {α β : Type} {x : Outcome α} {f : α → Outcome β} {a : α} {fds fds' : List Int}
    (hresult : x.result = .ok a) (hx : Obtains fds x.calls) (hf : Obtains fds' (f a).calls) :
    Obtains (fds ++ fds') (x >>= f).calls := by
  rw [bind_of_ok hresult]
  exact hx.append hf

/-- Sending a file obtains an eventfd if it is a dynamic one. -/
theorem sendFileByType {conn conn' : Connection} {answers : SendAnswers}
    (h : (sendFileByType conn answers).result = .ok conn') :
    Obtains (if conn.fileType = dynamic then [answers.eventfd] else [])
      (WebServer.sendFileByType conn answers).calls := by
  have htransfer : ∀ {α : Type} {x : Outcome α}, Ensures Call.OfTransfer (fun _ => True) x →
      Obtains [] x.calls := fun hx => of_quiet fun call hcall => quiet_of_transfer (hx.call call hcall)
  unfold WebServer.sendFileByType at h ⊢
  by_cases hstatic : conn.fileType = static
  · have hnot : conn.fileType ≠ dynamic := by
      rw [hstatic]
      decide
    rw [if_pos hstatic] at h ⊢
    rw [if_neg hnot]
    unfold sendStaticFile at h ⊢
    obtain ⟨_, hloop, -⟩ := bind_result_eq_ok.mp h
    exact bind hloop (htransfer (ensures_sendStaticLoop _ _ _ _)) nil
  rw [if_neg hstatic] at h ⊢
  by_cases hdynamic : conn.fileType = dynamic
  · rw [if_pos hdynamic] at h ⊢
    rw [if_pos hdynamic]
    unfold sendDynamicFile at h ⊢
    obtain ⟨aio, hsetup, h⟩ := bind_result_eq_ok.mp h
    obtain ⟨aio', hloop, h⟩ := bind_result_eq_ok.mp h
    obtain ⟨_, hfree, -⟩ := bind_result_eq_ok.mp h
    have heventfd : ¬answers.eventfd < 0 := by
      intro hneg
      rw [iocbSetup_die conn hneg] at hsetup
      cases hsetup
    have hcreated : Obtains [answers.eventfd] (iocbSetup conn answers).calls := by
      rw [iocbSetup_calls, if_neg heventfd]
      exact ⟨rfl, rfl, by simp⟩
    exact bind hsetup hcreated (bind hloop (htransfer (ensures_sendDynamicLoop _ _ _ _ _ _))
      (bind hfree (htransfer (ensures_ioFree _ _ _)) nil))
  · rw [if_neg hdynamic] at h ⊢
    rw [if_neg hdynamic]
    exact nil

theorem writeFile {conn conn' : Connection} {answers : SendAnswers}
    (h : (writeFile conn answers).result = .ok conn') :
    Obtains (if conn.file ≠ fileNotFound ∧ conn.fileType = dynamic then [answers.eventfd] else [])
      (WebServer.writeFile conn answers).calls := by
  unfold WebServer.writeFile at h ⊢
  by_cases hfile : conn.file ≠ fileNotFound
  · rw [if_pos hfile] at h ⊢
    rw [if_congr (and_iff_right hfile) rfl rfl]
    exact sendFileByType h
  · rw [if_neg hfile] at h ⊢
    rw [if_neg fun hboth => hfile hboth.1]
    exact nil

end Obtains

/-- A handler obtains certain descriptors, and closes `conn->file` if it removes the connection. -/
inductive Acquires (sockfd : Int) (fds : List Int) (file : Int) :
    Outcome (Option Connection) → Prop where
  | stopped (calls : List Call) (e : Abort) : Acquires sockfd fds file ⟨calls, .error e⟩
  | removed (calls : List Call) (c₁ : Connection) (hobtains : Obtains fds calls)
      (hfile : c₁.file = file) : Acquires sockfd fds file ⟨calls ++ removal c₁, .ok none⟩
  | kept (calls : List Call) (c' : Connection) (hobtains : Obtains fds calls)
      (hsockfd : c'.sockfd = sockfd) (hfile : c'.file = file) :
      Acquires sockfd fds file ⟨calls, .ok (some c')⟩

namespace Acquires

variable {sockfd file : Int} {fds fds' : List Int} {c : Connection}

/-- Other calls can come first. -/
theorem prepend {calls : List Call} {outcome : Outcome (Option Connection)}
    (hcalls : Obtains fds calls) (h : Acquires sockfd fds' file outcome) :
    Acquires sockfd (fds ++ fds') file ⟨calls ++ outcome.calls, outcome.result⟩ := by
  cases h with
  | stopped calls' e => exact .stopped _ e
  | removed calls' c₁ hobtains hfile =>
      rw [← List.append_assoc]
      exact .removed _ c₁ (hcalls.append hobtains) hfile
  | kept calls' c' hobtains hsockfd hfile => exact .kept _ c' (hcalls.append hobtains) hsockfd hfile

theorem removeConnection (hfile : c.file = file) (epollCtl : Int) :
    Acquires sockfd [] file (WebServer.removeConnection c epollCtl) := by
  rcases Int.lt_or_le epollCtl 0 with hneg | hok
  · rw [removeConnection_die c hneg]
    exact .stopped [] _
  · rw [removeConnection_eq c hok]
    exact .removed [] c .nil hfile

theorem finishMessage (hsockfd : c.sockfd = sockfd) (hfile : c.file = file)
    (answers : SendAnswers) : Acquires sockfd [] file (WebServer.finishMessage c answers) := by
  by_cases hstate : c.state = .dataSent
  · rw [finishMessage_removes hstate]
    exact removeConnection hfile _
  · rcases Int.lt_or_le answers.epollCtl 0 with hneg | hok
    · rw [finishMessage_die hstate hneg]
      exact .stopped [] _
    · rw [finishMessage_keeps hstate hok]
      exact .kept _ _ (.of_quiet fun call hcall => by
        rw [List.mem_singleton.mp hcall]
        exact ⟨rfl, rfl, nofun⟩) hsockfd hfile

/-- A request that names no file leaves `conn->file` alone. -/
theorem handleClientRequest_unnamed (parser : Parser) (c : Connection) {answers : RequestAnswers}
    (hnot : answers.names parser = false) :
    Acquires c.sockfd [] c.file (handleClientRequest parser c answers) := by
  by_cases hfails : answers.Fails
  · rw [handleClientRequest_fails parser hfails]
    exact removeConnection rfl _
  · obtain ⟨hpeer, message, hrecv, hne⟩ := RequestAnswers.received_of_not_fails hfails
    have hpath : requestPath parser message = [] := by
      by_contra hpath
      have hnames : answers.names parser = true :=
        decide_eq_true ⟨hfails, by rwa [hrecv, Option.getD_some]⟩
      rw [hnot] at hnames
      cases hnames
    rcases Int.lt_or_le answers.epollCtl 0 with hneg | hok
    · rw [handleClientRequest_die hpeer hrecv hne parser c hneg]
      exact .stopped _ _
    · rw [handleClientRequest_eq hpeer hrecv hne parser c hok, hpath]
      refine .kept _ _ (.of_quiet fun call hcall => ?_) (prepared_sockfd _ _ _) (prepared_file _ _ _)
      rw [List.mem_singleton.mp hcall]
      exact ⟨rfl, rfl, nofun⟩

/-- A request that names a file obtains it, if it can be opened. -/
theorem handleClientRequest_named (parser : Parser) (c : Connection) {answers : RequestAnswers}
    (hnames : answers.names parser = true) :
    ∃ fds file, Acquires c.sockfd fds file (handleClientRequest parser c answers) ∧
      (0 ≤ file → fds ≠ []) := by
  obtain ⟨hfails, hpath⟩ := of_decide_eq_true hnames
  obtain ⟨hpeer, message, hrecv, hne⟩ := RequestAnswers.received_of_not_fails hfails
  rw [hrecv, Option.getD_some] at hpath
  have hupdate : Obtains [] [.epollUpdate c.sockfd .inputOutput] := ⟨rfl, rfl, by simp⟩
  have hopening : ∃ fds, Obtains fds (opening answers (requestPath parser message)) ∧
      (0 ≤ answers.openFile (connectionPath (requestPath parser message)) → fds ≠ []) := by
    unfold opening
    rw [if_neg hpath]
    split_ifs with hopen
    · exact ⟨_, ⟨rfl, rfl, by simp⟩, fun _ => by simp [Call.obtained]⟩
    · exact ⟨_, .nil, fun h => absurd h hopen⟩
  obtain ⟨fds, hobtains, hfds⟩ := hopening
  refine ⟨fds, answers.openFile (connectionPath (requestPath parser message)), ?_, hfds⟩
  rcases Int.lt_or_le answers.epollCtl 0 with hneg | hok
  · rw [handleClientRequest_die hpeer hrecv hne parser c hneg]
    exact .stopped _ _
  · rw [handleClientRequest_eq hpeer hrecv hne parser c hok]
    have hcalls := hobtains.append hupdate
    rw [List.append_nil] at hcalls
    exact .kept _ _ hcalls (prepared_sockfd _ _ _) ((prepared_file _ _ _).trans (if_neg hpath))

/-- Once the header is written, an eventfd is obtained if the file is a dynamic one. -/
theorem sendBody (c : Connection) (answers : SendAnswers) :
    Acquires c.sockfd
      (if c.file ≠ fileNotFound ∧ c.fileType = dynamic then [answers.eventfd] else []) c.file
      (WebServer.sendBody c answers) := by
  unfold WebServer.sendBody
  cases hfile : (writeFile { c with headerIsWritten := true } answers).result with
  | error e =>
      rw [bind_of_error hfile]
      exact .stopped _ e
  | ok c' =>
      have hkept : c'.sockfd = c.sockfd ∧ c'.file = c.file := by
        rcases (ensures_writeFile _ answers).value c' hfile with ⟨-, rfl⟩ | ⟨-, rfl⟩ <;>
          exact ⟨rfl, rfl⟩
      have hfinish := prepend (Obtains.writeFile hfile) (finishMessage hkept.1 hkept.2 answers)
      rw [List.append_nil] at hfinish
      rw [bind_of_ok hfile]
      exact hfinish

/-- An answer obtains an eventfd if it comes to sending a dynamic file. -/
theorem sendMessage (c : Connection) (answers : SendAnswers) :
    Acquires c.sockfd (if answers.sendsDynamic c then [answers.eventfd] else []) c.file
      (WebServer.sendMessage c answers) := by
  have hheader : ∀ call ∈ (writeHeader c answers).calls, Obtains.Quiet call :=
    fun call hcall => Obtains.quiet_of_header ((ensures_writeHeader c answers).call call hcall).1
  by_cases hstate : c.state = .connectionClosed
  · have hnot : answers.sendsDynamic c = false := decide_eq_false fun h => h.1 hstate
    rw [hnot]
    unfold WebServer.sendMessage
    rw [if_pos hstate]
    exact .kept [] c .nil rfl rfl
  by_cases hpeer : answers.getPeerAddress < 0
  · have hnot : answers.sendsDynamic c = false := decide_eq_false fun h => absurd h.2.1 (by omega)
    rw [hnot]
    unfold WebServer.sendMessage
    rw [if_neg hstate, if_pos hpeer]
    exact removeConnection rfl _
  cases hwritten : (writeHeader c answers).result with
  | error e =>
      unfold WebServer.sendMessage
      rw [if_neg hstate, if_neg hpeer, bind_of_error hwritten]
      exact .stopped _ e
  | ok written =>
      have hsent : answers.headerSent c = written := by
        unfold SendAnswers.headerSent
        rw [hwritten]
      cases written with
      | false =>
          have hnot : answers.sendsDynamic c = false := decide_eq_false fun h => by
            rw [hsent] at h
            exact Bool.false_ne_true h.2.2.1
          rw [hnot]
          unfold WebServer.sendMessage
          rw [if_neg hstate, if_neg hpeer, bind_of_ok hwritten]
          exact prepend (.of_quiet hheader) (removeConnection rfl _)
      | true =>
          have hdynamic : answers.sendsDynamic c = true ↔
              c.file ≠ fileNotFound ∧ c.fileType = dynamic := by
            unfold SendAnswers.sendsDynamic
            rw [decide_eq_true_iff, hsent]
            exact ⟨fun h => h.2.2.2, fun h => ⟨hstate, by omega, rfl, h⟩⟩
          rw [if_congr hdynamic rfl rfl, sendMessage_eq hstate (by omega) hwritten]
          exact prepend (.of_quiet hheader) (sendBody c answers)

end Acquires

/-! ### The books of a run -/

namespace Account

variable {account : Account} {sockfd file : Int} {fds : List Int} {c : Connection}

/-- What is true of the account of a connection that is there. -/
structure Tracks (account : Account) (sockfd file : Int) : Prop where
  socket : account.sockfd = sockfd
  nonneg : 0 ≤ sockfd
  closed : account.closed = []
  obtained : ∃ fds, account.obtained = sockfd :: fds ∧
    (account.named = true → 0 ≤ file → fds ≠ []) ∧
    (account.named = false → (fds = [] ↔ account.dynamicSent = false))
  file : account.named = false → file = account.memory.file

theorem tracks_new (memory : Connection) {sockfd : Int} (h : 0 ≤ sockfd) :
    (new memory sockfd).Tracks sockfd memory.file :=
  ⟨rfl, h, rfl, ⟨[], rfl, nofun, fun _ => ⟨fun _ => rfl, fun _ => rfl⟩⟩, fun _ => rfl⟩

/-- One descriptor at most is closed, so that it has to be the only one, the socket. -/
theorem Tracks.settled_iff (h : account.Tracks sockfd file) (hfile : c.file = file) :
    (account.enter (removal c)).Settled ↔ (account.enter (removal c)).Accidental := by
  obtain ⟨fds, hobtained, hnamed, hunnamed⟩ := h.obtained
  have hnone : (removal c).filterMap Call.obtained = [] := by
    unfold removal
    split_ifs <;> rfl
  have hclose : (removal c).filterMap Call.closed = if file ≠ -1 then [file] else [] := by
    unfold removal
    rw [hfile]
    split_ifs
    · rw [← hfile]
      rfl
    · rfl
  have hsettled : (account.enter (removal c)).Settled ↔ fds = [] ∧ file = sockfd := by
    show (account.obtained ++ _).Perm (account.closed ++ _) ↔ _
    rw [hnone, hclose, hobtained, h.closed, List.append_nil, List.nil_append]
    split_ifs with hsome
    · rw [List.perm_singleton, List.cons.injEq]
      exact ⟨fun h => ⟨h.2, h.1.symm⟩, fun h => ⟨h.2.symm, h.1⟩⟩
    · have hnonneg := h.nonneg
      exact ⟨fun hperm => absurd hperm.length_eq (by simp), fun h => absurd h.2 (by omega)⟩
  rw [hsettled]
  show _ ↔ account.memory.file = account.sockfd ∧ account.named = false ∧
    account.dynamicSent = false
  rw [h.socket]
  constructor
  · rintro ⟨hnil, hown⟩
    have hfalse : account.named = false := by
      by_contra htrue
      exact hnamed (by simpa using htrue) (hown ▸ h.nonneg) hnil
    exact ⟨(h.file hfalse).symm.trans hown, hfalse, (hunnamed hfalse).mp hnil⟩
  · rintro ⟨hmemory, hfalse, hdynamic⟩
    exact ⟨(hunnamed hfalse).mpr hdynamic, (h.file hfalse).trans hmemory⟩

/-- An account is right after the calls of a handler: the connection is gone, or is still there. -/
def Follows (account : Account) (outcome : Outcome (Option Connection)) : Prop :=
  match outcome.result with
  | .error _ => True
  | .ok none => .free ∈ outcome.calls ∧
      ((account.enter outcome.calls).Settled ↔ (account.enter outcome.calls).Accidental)
  | .ok (some c') => .free ∉ outcome.calls ∧
      (account.enter outcome.calls).Tracks c'.sockfd c'.file

theorem enter_of_obtains {calls : List Call} (h : Obtains fds calls) (account : Account) :
    account.enter calls = { account with obtained := account.obtained ++ fds } := by
  unfold enter
  rw [h.obtained, h.closed, List.append_nil]

theorem enter_append (account : Account) (calls calls' : List Call) :
    account.enter (calls ++ calls') = (account.enter calls).enter calls' := by
  simp [enter]

theorem follows {outcome : Outcome (Option Connection)} (h : Acquires sockfd fds file outcome)
    (htracks : Tracks { account with obtained := account.obtained ++ fds } sockfd file) :
    account.Follows outcome := by
  cases h with
  | stopped calls e => trivial
  | removed calls c₁ hobtains hfile =>
      refine ⟨List.mem_append_right _ (List.mem_append_right _ (List.mem_singleton.mpr rfl)), ?_⟩
      dsimp only
      rw [enter_append, enter_of_obtains hobtains]
      exact htracks.settled_iff hfile
  | kept calls c' hobtains hsockfd hfile =>
      refine ⟨hobtains.free, ?_⟩
      dsimp only
      rw [enter_of_obtains hobtains, hsockfd, hfile]
      exact htracks

theorem Tracks.follows_request (h : account.Tracks c.sockfd c.file) (parser : Parser)
    (answers : RequestAnswers) :
    (account.request parser answers).Follows (handleClientRequest parser c answers) := by
  obtain ⟨fds, hobtained, hnamed, hunnamed⟩ := h.obtained
  cases hnames : answers.names parser with
  | false =>
      apply follows (Acquires.handleClientRequest_unnamed parser c hnames)
      have hsame : account.request parser answers = account := by
        unfold request
        rw [hnames, Bool.or_false]
      rw [hsame, List.append_nil]
      exact h
  | true =>
      obtain ⟨fds', file, hacquires, hfds⟩ := Acquires.handleClientRequest_named parser c hnames
      apply follows hacquires
      have htrue : (account.request parser answers).named = true := by
        unfold request
        rw [hnames, Bool.or_true]
      refine ⟨h.socket, h.nonneg, h.closed, ⟨fds ++ fds', ?_, fun _ hfile => ?_, fun hfalse => ?_⟩,
        fun hfalse => ?_⟩
      · show account.obtained ++ fds' = _
        rw [hobtained]
        rfl
      · exact List.append_ne_nil_of_right_ne_nil _ (hfds hfile)
      · cases htrue.symm.trans hfalse
      · cases htrue.symm.trans hfalse

theorem Tracks.follows_reply (h : account.Tracks c.sockfd c.file) (answers : SendAnswers) :
    (account.reply answers c).Follows (sendMessage c answers) := by
  obtain ⟨fds, hobtained, hnamed, hunnamed⟩ := h.obtained
  apply follows (Acquires.sendMessage c answers)
  refine ⟨h.socket, h.nonneg, h.closed,
    ⟨fds ++ if answers.sendsDynamic c then [answers.eventfd] else [], ?_, fun hnames hfile => ?_,
      fun hfalse => ?_⟩, h.file⟩
  · show account.obtained ++ _ = _
    rw [hobtained]
    rfl
  · exact List.append_ne_nil_of_left_ne_nil (hnamed hnames hfile) _
  · show _ ↔ (account.dynamicSent || answers.sendsDynamic c) = false
    rw [List.append_eq_nil_iff, hunnamed hfalse, Bool.or_eq_false_iff]
    apply and_congr_right
    intro _
    cases answers.sendsDynamic c <;> simp

end Account

namespace Audit

/-- The accounts are right. -/
structure Kept (audit : Audit) : Prop where
  tracks : ∀ conn c, audit.server.connections conn = some c →
    ∃ account, audit.books.live conn = some account ∧ account.Tracks c.sockfd c.file
  removed : ∀ account ∈ audit.books.removed, account.Settled ↔ account.Accidental

variable {server server' : Server} {books : Books} {conn : ℕ} {c : Connection} {parser : Parser}

/-- A connection and its account change together. -/
theorem Kept.update (h : Kept ⟨server, books⟩) (conn : ℕ) {r : Option Connection}
    {entry : Option Account}
    (hentry : ∀ c, r = some c → ∃ account, entry = some account ∧ account.Tracks c.sockfd c.file) :
    ∀ conn' c', Function.update server.connections conn r conn' = some c' →
      ∃ account, Function.update books.live conn entry conn' = some account ∧
        account.Tracks c'.sockfd c'.file := by
  intro conn' c' hc'
  by_cases hconn : conn' = conn
  · rw [hconn, Function.update_self] at hc' ⊢
    exact hentry c' hc'
  · rw [Function.update_of_ne hconn] at hc' ⊢
    exact h.tracks conn' c' hc'

theorem Kept.pass {handler : Connection → Outcome (Option Connection)}
    {note : Connection → Account → Account} (h : Kept ⟨server, books⟩)
    (hlive : server.connections conn = some c) (hsettled : Settled c (handler c))
    (hfollows : ∀ account : Account, account.Tracks c.sockfd c.file →
      (note c account).Follows (handler c))
    (hpass : server.pass conn handler = .ok server') :
    Kept ⟨server', books.pass server conn handler note⟩ := by
  obtain ⟨account, haccount, htracks⟩ := h.tracks conn c hlive
  obtain ⟨r, hresult, hconnections⟩ := Server.pass_connections hlive hsettled hpass
  have hright := hfollows account htracks
  unfold Account.Follows at hright
  rw [hresult] at hright
  unfold Books.pass Books.enter
  rw [hlive, haccount]
  dsimp only
  cases r with
  | none =>
      obtain ⟨hfree, hiff⟩ := hright
      rw [if_pos hfree]
      refine ⟨hconnections ▸ h.update conn nofun, fun account' hmem => ?_⟩
      rcases List.mem_append.mp hmem with hold | hnew
      · exact h.removed account' hold
      · rw [List.mem_singleton.mp hnew]
        exact hiff
  | some c₁ =>
      obtain ⟨hfree, hkept⟩ := hright
      rw [if_neg hfree]
      refine ⟨hconnections ▸ h.update conn fun c' hc' => ?_, h.removed⟩
      obtain rfl := Option.some.inj hc'
      exact ⟨_, rfl, hkept⟩

theorem Kept.onInput (h : Kept ⟨server, books⟩) (hlive : server.connections conn = some c)
    {input : Bool} {request : RequestAnswers}
    (hinput : server.onInput parser conn input request = .ok server') :
    Kept ⟨server', books.onInput parser server conn input request⟩ := by
  unfold Server.onInput at hinput
  unfold Books.onInput
  split_ifs at hinput ⊢
  · exact h.pass hlive (Settled.handleClientRequest parser c request)
      (fun account htracks => htracks.follows_request parser request) hinput
  · exact Except.ok.inj hinput ▸ h

theorem Kept.onOutput (h : Kept ⟨server, books⟩) {output : Bool} {reply : SendAnswers}
    (houtput : server.onOutput conn output reply = .ok server') :
    Kept ⟨server', books.onOutput server conn output reply⟩ := by
  unfold Server.onOutput at houtput
  unfold Books.onOutput
  split_ifs at houtput ⊢
  · cases hc : server.connections conn with
    | none =>
        rw [Server.pass_none hc] at houtput
        cases houtput
    | some c =>
        exact h.pass hc (Settled.sendMessage c reply)
          (fun account htracks => htracks.follows_reply reply) houtput
  · exact Except.ok.inj houtput ▸ h

/-- One turn of the loop. -/
theorem Kept.turn {audit audit' : Audit} {event : Event} (hinv : audit.server.Inv)
    (h : audit.Kept) (hturn : Turn parser audit event audit') : audit'.Kept := by
  obtain ⟨server, books⟩ := audit
  obtain ⟨server', books'⟩ := audit'
  obtain ⟨⟨hpossible, hloop⟩, hbooks⟩ := hturn
  dsimp only at hpossible hloop hbooks hinv
  rw [hbooks]
  cases event with
  | accept conn sockfd memory epollCtl =>
      have hnew : server.handleNewConnection conn sockfd memory epollCtl = .ok server' := hloop
      unfold Server.handleNewConnection at hnew
      split_ifs at hnew with hsockfd hepoll
      obtain rfl := Except.ok.inj hnew
      refine ⟨h.update conn fun c' hc' => ?_, h.removed⟩
      obtain rfl := Option.some.inj hc'
      exact ⟨_, rfl, Account.tracks_new memory (Int.not_lt.mp hsockfd)⟩
  | ready conn input output request reply =>
      obtain ⟨c, hlive⟩ := hinv.live hpossible
      cases hinput : server.onInput parser conn input request with
      | error stop =>
          rw [Server.mainLoop_of_error hinput] at hloop
          cases hloop
      | ok server₁ =>
          rw [Server.mainLoop_of_ok hinput] at hloop
          simp only [Books.turn, hinput]
          exact (h.onInput hlive hinput).onOutput hloop

theorem kept_start : start.Kept :=
  ⟨nofun, fun _ hmem => absurd hmem List.not_mem_nil⟩

theorem Kept.run {audit : Audit} {events : List Event}
    (h : Run (Turn parser) start events audit) : audit.Kept := by
  have hinvariant : audit.server.Inv ∧ audit.Kept :=
    h.invariant (P := fun audit => audit.server.Inv ∧ audit.Kept)
      (fun _ _ _ hs hturn => ⟨hs.1.turn hturn.1, hs.2.turn hs.1 hturn⟩)
      ⟨Server.inv_start, kept_start⟩
  exact hinvariant.2

end Audit

/-- In every run, the descriptors of all removed connections have been closed, once and no others,
exactly if all of them were closed by accident. -/
theorem descriptors_closed_iff (parser : Parser) (events : List Event) (audit : Audit)
    (hrun : Run (Audit.Turn parser) Audit.start events audit) :
    (∀ account ∈ audit.books.removed, account.Settled) ↔
      ∀ account ∈ audit.books.removed, account.Accidental := by
  have hkept := Audit.Kept.run hrun
  apply forall_congr'
  intro account
  apply imp_congr_right
  exact hkept.removed account

/-- The server with a client on descriptor 5. -/
def oneClient (memory : Connection) : Audit where
  server :=
    ⟨Function.update Server.start.connections 0 (some (connectionCreate memory 5)),
      Function.update Server.start.epoll 5 (some ⟨.input, 0⟩)⟩
  books := ⟨Function.update Audit.start.books.live 0 (some (.new memory 5)), []⟩

theorem run_hangUp (memory : Connection) (hfile : memory.file ≠ -1) :
    ∃ audit, Run (Audit.Turn getParser) Audit.start
        [.accept 0 5 memory 0, .ready 0 true false hangUp noReply] audit ∧
      audit.books.removed = [⟨memory, 5, [5], [memory.file], false, false⟩] := by
  have hremoval : removal (connectionCreate memory 5) =
      [.epollRemove 5, .shutdown 5, .close memory.file, .free] := by
    unfold removal
    rw [if_pos (show (connectionCreate memory 5).file ≠ -1 from hfile)]
    rfl
  have hfirst : Audit.Turn getParser Audit.start (.accept 0 5 memory 0) (oneClient memory) :=
    ⟨⟨⟨rfl, rfl⟩, rfl⟩, rfl⟩
  have hhandler : handleClientRequest getParser (connectionCreate memory 5) hangUp =
      ⟨removal (connectionCreate memory 5), .ok none⟩ := by
    rw [handleClientRequest_fails getParser (by decide), removeConnection_eq _ (by decide)]
  have hlive : (oneClient memory).server.connections 0 = some (connectionCreate memory 5) := rfl
  obtain ⟨server, hinput⟩ : ∃ server,
      (oneClient memory).server.pass 0 (handleClientRequest getParser · hangUp) = .ok server :=
    Server.pass_of_ok hlive (by rw [hhandler])
  have hturn : (oneClient memory).server.onInput getParser 0 true hangUp = .ok server := hinput
  have hbooks : ((oneClient memory).books.onInput getParser (oneClient memory).server 0 true
      hangUp).removed = [⟨memory, 5, [5], [memory.file], false, false⟩] := by
    show ((oneClient memory).books.enter 0 (.request getParser hangUp)
      (handleClientRequest getParser (connectionCreate memory 5) hangUp).calls).removed = _
    rw [hhandler, hremoval]
    rfl
  have hpossible : (oneClient memory).server.Possible (.ready 0 true false hangUp noReply) :=
    ⟨Or.inl rfl, 5, .input, rfl, nofun⟩
  have hsecond : Audit.Turn getParser (oneClient memory) (.ready 0 true false hangUp noReply)
      ⟨server, (oneClient memory).books.onInput getParser (oneClient memory).server 0 true hangUp⟩ := by
    refine ⟨⟨hpossible, (Server.mainLoop_of_ok hturn).trans rfl⟩, ?_⟩
    simp only [Books.turn, hturn]
    rfl
  exact ⟨_, .cons hfirst (.single hsecond), hbooks⟩

/-- By accident the socket of the client is closed. -/
theorem descriptors_closed_iff_accident :
    ∃ audit, Run (Audit.Turn getParser) Audit.start
        [.accept 0 5 { clearedMemory with file := 5 } 0, .ready 0 true false hangUp noReply]
        audit ∧
      audit.books.removed ≠ [] ∧ ∀ account ∈ audit.books.removed, account.Settled := by
  obtain ⟨audit, hrun, hremoved⟩ := run_hangUp { clearedMemory with file := 5 } (by decide)
  refine ⟨audit, hrun, by simp [hremoved], (descriptors_closed_iff _ _ audit hrun).mpr ?_⟩
  intro account hmem
  rw [hremoved] at hmem
  rw [List.mem_singleton.mp hmem]
  exact ⟨rfl, rfl, rfl⟩

/-- The client connects and closes its connection: its socket stays open, and descriptor 0, which is in
the memory for the connection, is closed in its place. -/
theorem socket_stays_open :
    ∃ audit, Run (Audit.Turn getParser) Audit.start
        [firstClient, .ready 0 true false hangUp noReply] audit ∧
      ∃ account ∈ audit.books.removed,
        account.obtained = [5] ∧ account.closed = [0] ∧ ¬account.Settled := by
  obtain ⟨audit, hrun, hremoved⟩ := run_hangUp clearedMemory (by decide)
  refine ⟨audit, hrun, _, by rw [hremoved]; exact List.mem_singleton.mpr rfl, rfl, rfl, ?_⟩
  show ¬List.Perm [5] [0]
  decide

end OsHomeworks.WebServer
