import OsHomeworks.Runs
import OsHomeworks.ServerCalls
import Mathlib.Logic.Function.Basic

/-! The main loop. One event can report both that a connection is readable and that it is writable;
`main` then calls `send_message` after `handle_client_request` without asking whether the connection
is still there. -/

namespace OsHomeworks.WebServer

open CallLog CallLog.Logged Runs

/-- An entry of the epoll set. -/
structure Registration where
  interest : Interest
  conn : ℕ
  deriving DecidableEq

/-- The connections by their address, and the epoll set by descriptor. -/
structure Server where
  connections : ℕ → Option Connection
  epoll : Int → Option Registration

/-- What `epoll_wait` reports, with what the system calls return while it is handled: a client on the
listening socket, or what a connection is ready for. -/
inductive Event where
  | accept (conn : ℕ) (sockfd : Int) (memory : Connection) (epollCtl : Int)
  | ready (conn : ℕ) (input output : Bool) (request : RequestAnswers) (reply : SendAnswers)

/-- How the main loop can come to a stop: inside a call, or by passing on a connection that has been
removed. -/
inductive Stop where
  | abort (e : Abort)
  | released (conn : ℕ)
  deriving DecidableEq

namespace Server

/-- The effect of a call made on behalf of a connection. A descriptor that is closed leaves the epoll
set. -/
def apply (conn : ℕ) (server : Server) : Call → Server
  | .epollUpdate sockfd interest =>
      { server with epoll := Function.update server.epoll sockfd (some ⟨interest, conn⟩) }
  | .epollRemove sockfd => { server with epoll := Function.update server.epoll sockfd none }
  | .close fd => { server with epoll := Function.update server.epoll fd none }
  | .free => { server with connections := Function.update server.connections conn none }
  | _ => server

/-- A connection is passed to one of its handlers. -/
def pass (server : Server) (conn : ℕ) (handler : Connection → Outcome (Option Connection)) :
    Except Stop Server :=
  match server.connections conn with
  | none => .error (.released conn)
  | some c =>
      match (handler c).result with
      | .error e => .error (.abort e)
      | .ok none => .ok ((handler c).calls.foldl (apply conn) server)
      | .ok (some c') =>
          let server := (handler c).calls.foldl (apply conn) server
          .ok { server with connections := Function.update server.connections conn (some c') }

/-- `handle_new_connection`. -/
def handleNewConnection (server : Server) (conn : ℕ) (sockfd : Int) (memory : Connection)
    (epollCtl : Int) : Except Stop Server :=
  if sockfd < 0 then .error (.abort (.die "accept"))
  else if epollCtl < 0 then .error (.abort (.die "w_epoll_add_in"))
  else .ok {
    connections :=
      Function.update server.connections conn (some (connectionCreate memory sockfd))
    epoll := Function.update server.epoll sockfd (some ⟨.input, conn⟩) }

/-- The branch of `main` for `EPOLLIN`. -/
def onInput (parser : Parser) (server : Server) (conn : ℕ) (input : Bool)
    (request : RequestAnswers) : Except Stop Server :=
  if input then server.pass conn (handleClientRequest parser · request) else .ok server

/-- The branch of `main` for `EPOLLOUT`. -/
def onOutput (server : Server) (conn : ℕ) (output : Bool) (reply : SendAnswers) :
    Except Stop Server :=
  if output then server.pass conn (sendMessage · reply) else .ok server

/-- One turn of the loop of `main`. -/
def mainLoop (parser : Parser) (server : Server) : Event → Except Stop Server
  | .accept conn sockfd memory epollCtl => server.handleNewConnection conn sockfd memory epollCtl
  | .ready conn input output request reply =>
      match server.onInput parser conn input request with
      | .error stop => .error stop
      | .ok server => server.onOutput conn output reply

/-- What the kernel can report: `malloc` and `accept` return what is not in use, and an event belongs
to an entry of the epoll set and reports what it asks for. -/
def Possible (server : Server) : Event → Prop
  | .accept conn sockfd _ _ => server.connections conn = none ∧ server.epoll sockfd = none
  | .ready conn input output _ _ =>
      (input = true ∨ output = true) ∧
        ∃ sockfd interest, server.epoll sockfd = some ⟨interest, conn⟩ ∧
          (output = true → interest = .inputOutput)

/-- A turn of the loop that comes to its end. -/
def Turn (parser : Parser) (server : Server) (event : Event) (server' : Server) : Prop :=
  server.Possible event ∧ server.mainLoop parser event = .ok server'

/-- The server before its first event. -/
def start : Server := ⟨fun _ => none, fun _ => none⟩

/-- Every entry of the epoll set is that of the socket of a connection which is there. -/
def Inv (server : Server) : Prop :=
  ∀ sockfd registration, server.epoll sockfd = some registration →
    ∃ c, server.connections registration.conn = some c ∧ c.sockfd = sockfd

end Server

/-- The request removes its connection. -/
def RequestAnswers.Removes (answers : RequestAnswers) : Prop :=
  answers.Fails ∧ 0 ≤ answers.epollCtl

/-- The event reports both directions, and its request removes the connection. -/
def Event.Misdirected : Event → Prop
  | .accept _ _ _ _ => False
  | .ready _ input output request _ => input = true ∧ output = true ∧ request.Removes

/-- A call that does not concern the epoll set or the memory of a connection. -/
def Call.Local : Call → Prop
  | .epollUpdate _ _ => False
  | .epollRemove _ => False
  | .close _ => False
  | .free => False
  | _ => True

/-- The server has stopped, the connection has been removed, or it is still there, perhaps with a new
entry in the epoll set. -/
inductive Settled (c : Connection) : Outcome (Option Connection) → Prop where
  | stopped (calls : List Call) (e : Abort) : Settled c ⟨calls, .error e⟩
  | removed (calls : List Call) (c₁ : Connection) (hlocal : ∀ call ∈ calls, call.Local)
      (hsockfd : c₁.sockfd = c.sockfd) : Settled c ⟨calls ++ removal c₁, .ok none⟩
  | kept (calls : List Call) (c' : Connection) (hlocal : ∀ call ∈ calls, call.Local)
      (hsockfd : c'.sockfd = c.sockfd) : Settled c ⟨calls, .ok (some c')⟩
  | updated (calls : List Call) (interest : Interest) (c' : Connection)
      (hlocal : ∀ call ∈ calls, call.Local) (hsockfd : c'.sockfd = c.sockfd) :
      Settled c ⟨calls ++ [.epollUpdate c.sockfd interest], .ok (some c')⟩

theorem Call.OfFile.isLocal {call : Call} (h : call.OfFile) : call.Local := by
  cases call <;> trivial

theorem Call.OfHeader.isLocal {call : Call} (h : call.OfHeader) : call.Local := by
  cases call <;> trivial

theorem opening_local (answers : RequestAnswers) (path : List UInt8) :
    ∀ call ∈ opening answers path, call.Local := by
  intro call hcall
  obtain ⟨name, fd, rfl⟩ := mem_opening hcall
  trivial

namespace Settled

variable {c : Connection}

/-- Other calls can come first. -/
theorem prepend {calls : List Call} {outcome : Outcome (Option Connection)}
    (hlocal : ∀ call ∈ calls, call.Local) (h : Settled c outcome) :
    Settled c ⟨calls ++ outcome.calls, outcome.result⟩ := by
  have happend : ∀ calls', (∀ call ∈ calls', call.Local) → ∀ call ∈ calls ++ calls', call.Local :=
    fun calls' hlocal' call hcall =>
      (List.mem_append.mp hcall).elim (hlocal call) (hlocal' call)
  cases h with
  | stopped calls' e => exact .stopped _ e
  | removed calls' c₁ hlocal' hsockfd =>
      rw [← List.append_assoc]
      exact .removed _ c₁ (happend calls' hlocal') hsockfd
  | kept calls' c' hlocal' hsockfd => exact .kept _ c' (happend calls' hlocal') hsockfd
  | updated calls' interest c' hlocal' hsockfd =>
      rw [← List.append_assoc]
      exact .updated _ interest c' (happend calls' hlocal') hsockfd

/-- Code that makes local calls only can come first. -/
theorem bind {α : Type} {x : Outcome α} {f : α → Outcome (Option Connection)}
    {Q : α → Prop} (hx : Ensures Call.Local Q x) (hf : ∀ a, Q a → Settled c (f a)) :
    Settled c (x >>= f) := by
  cases hresult : x.result with
  | error e =>
      rw [bind_of_error hresult]
      exact .stopped _ e
  | ok a =>
      rw [bind_of_ok hresult]
      exact prepend hx.call (hf a (hx.value a hresult))

theorem removeConnection {c₁ : Connection} (hsockfd : c₁.sockfd = c.sockfd) (epollCtl : Int) :
    Settled c (WebServer.removeConnection c₁ epollCtl) := by
  rcases Int.lt_or_le epollCtl 0 with hneg | hok
  · rw [removeConnection_die c₁ hneg]
    exact .stopped [] _
  · rw [removeConnection_eq c₁ hok]
    exact .removed [] c₁ nofun hsockfd

theorem finishMessage {c₁ : Connection} (hsockfd : c₁.sockfd = c.sockfd) (answers : SendAnswers) :
    Settled c (WebServer.finishMessage c₁ answers) := by
  by_cases hstate : c₁.state = .dataSent
  · rw [finishMessage_removes hstate]
    exact removeConnection hsockfd _
  · rcases Int.lt_or_le answers.epollCtl 0 with hneg | hok
    · rw [finishMessage_die hstate hneg]
      exact .stopped [] _
    · rw [finishMessage_keeps hstate hok, hsockfd]
      exact .updated [] .input _ nofun rfl

theorem handleClientRequest (parser : Parser) (c : Connection) (answers : RequestAnswers) :
    Settled c (WebServer.handleClientRequest parser c answers) := by
  by_cases hfails : answers.Fails
  · rw [handleClientRequest_fails parser hfails]
    exact removeConnection rfl _
  · obtain ⟨hpeer, message, hrecv, hne⟩ := RequestAnswers.received_of_not_fails hfails
    rcases Int.lt_or_le answers.epollCtl 0 with hneg | hok
    · rw [handleClientRequest_die hpeer hrecv hne parser c hneg]
      exact .stopped _ _
    · rw [handleClientRequest_eq hpeer hrecv hne parser c hok]
      exact .updated _ .inputOutput _ (opening_local _ _) (prepared_sockfd _ _ _)

theorem sendMessage (c : Connection) (answers : SendAnswers) :
    Settled c (WebServer.sendMessage c answers) := by
  have hheader : Ensures Call.Local (fun _ => True) (writeHeader c answers) :=
    (ensures_writeHeader c answers).mono (fun _ h => h.1.isLocal) fun _ h => h
  have hfile : Ensures Call.Local (fun c' => c'.sockfd = c.sockfd)
      (writeFile { c with headerIsWritten := true } answers) := by
    refine (ensures_writeFile { c with headerIsWritten := true } answers).mono
      (fun _ => Call.OfFile.isLocal) fun c' hc' => ?_
    rcases hc' with ⟨-, rfl⟩ | ⟨-, rfl⟩ <;> rfl
  unfold WebServer.sendMessage
  split_ifs
  · exact .kept [] c nofun rfl
  · exact removeConnection rfl _
  · refine bind hheader fun written _ => ?_
    split_ifs
    · exact bind hfile fun c' hsockfd => finishMessage hsockfd answers
    · exact removeConnection rfl _

end Settled

namespace Server

variable {server server' : Server} {conn : ℕ} {c : Connection}
  {handler : Connection → Outcome (Option Connection)}

theorem foldl_apply_of_local (conn : ℕ) {calls : List Call} (h : ∀ call ∈ calls, call.Local)
    (server : Server) : calls.foldl (apply conn) server = server := by
  induction calls with
  | nil => rfl
  | cons call calls ih =>
      have hcall : apply conn server call = server := by
        have hlocal := h call List.mem_cons_self
        cases call <;> first | rfl | cases hlocal
      rw [List.foldl_cons, hcall]
      exact ih fun call' hmem => h call' (List.mem_cons_of_mem call hmem)

/-- A connection that is there is not passed on in vain. -/
theorem pass_ne_released (hlive : server.connections conn = some c) (conn' : ℕ) :
    server.pass conn handler ≠ .error (.released conn') := by
  unfold pass
  rw [hlive]
  dsimp only
  split <;> nofun

theorem pass_of_error (hlive : server.connections conn = some c) {e : Abort}
    (h : (handler c).result = .error e) : server.pass conn handler = .error (.abort e) := by
  simp only [pass, hlive, h]

theorem pass_of_ok (hlive : server.connections conn = some c) {r : Option Connection}
    (h : (handler c).result = .ok r) : ∃ server', server.pass conn handler = .ok server' := by
  unfold pass
  rw [hlive]
  dsimp only
  rw [h]
  cases r with
  | none => exact ⟨_, rfl⟩
  | some c' => exact ⟨_, rfl⟩

theorem pass_none (h : server.connections conn = none) :
    server.pass conn handler = .error (.released conn) := by
  unfold pass
  rw [h]

/-- An entry of a table with one place changed is the new one, or an old one of another place. -/
theorem update_eq_some {β : Type} {table : Int → Option β} {fd fd' : Int} {new : Option β} {b : β}
    (h : Function.update table fd new fd' = some b) :
    fd' = fd ∧ new = some b ∨ fd' ≠ fd ∧ table fd' = some b := by
  by_cases hown : fd' = fd
  · rw [hown, Function.update_self] at h
    exact Or.inl ⟨hown, h⟩
  · rw [Function.update_of_ne hown] at h
    exact Or.inr ⟨hown, h⟩

/-- The entries that are left when a connection is removed. -/
theorem foldl_removal (conn : ℕ) (c₁ : Connection) (server : Server) :
    (((removal c₁).foldl (apply conn) server).connections =
        Function.update server.connections conn none) ∧
      ∀ sockfd registration,
        ((removal c₁).foldl (apply conn) server).epoll sockfd = some registration →
          sockfd ≠ c₁.sockfd ∧ server.epoll sockfd = some registration := by
  have hremoved : ∀ sockfd registration,
      Function.update server.epoll c₁.sockfd none sockfd = some registration →
        sockfd ≠ c₁.sockfd ∧ server.epoll sockfd = some registration :=
    fun sockfd registration h => (update_eq_some h).resolve_left fun hnone => nomatch hnone.2
  unfold removal
  split_ifs with hfile
  · refine ⟨rfl, fun sockfd registration h => ?_⟩
    rcases update_eq_some h with ⟨-, hnone⟩ | ⟨-, hold⟩
    · cases hnone
    · exact hremoved sockfd registration hold
  · exact ⟨rfl, hremoved⟩

theorem Inv.update (hinv : server.Inv) (hlive : server.connections conn = some c)
    {c' : Connection} (hsockfd : c'.sockfd = c.sockfd) :
    Inv { server with connections := Function.update server.connections conn (some c') } := by
  intro sockfd registration h
  obtain ⟨c₁, hc₁, rfl⟩ := hinv sockfd registration h
  by_cases hconn : registration.conn = conn
  · refine ⟨c', ?_, ?_⟩
    · dsimp only
      rw [hconn, Function.update_self]
    · rw [hconn, hlive] at hc₁
      rw [hsockfd, Option.some.inj hc₁]
  · exact ⟨c₁, (Function.update_of_ne hconn _ _).trans hc₁, rfl⟩

theorem Inv.register (hinv : server.Inv) (hlive : server.connections conn = some c)
    (interest : Interest) :
    Inv { server with
      epoll := Function.update server.epoll c.sockfd (some ⟨interest, conn⟩) } := by
  intro sockfd registration h
  rcases update_eq_some h with ⟨hown, hnew⟩ | ⟨-, hold⟩
  · obtain rfl := Option.some.inj hnew
    exact ⟨c, hlive, hown.symm⟩
  · exact hinv sockfd registration hold

theorem Inv.removed (hinv : server.Inv) (hlive : server.connections conn = some c)
    {c₁ : Connection} (hsockfd : c₁.sockfd = c.sockfd) :
    Inv ((removal c₁).foldl (apply conn) server) := by
  obtain ⟨hconnections, hepoll⟩ := foldl_removal conn c₁ server
  intro sockfd registration h
  obtain ⟨hne, hold⟩ := hepoll sockfd registration h
  obtain ⟨c₂, hc₂, rfl⟩ := hinv sockfd registration hold
  refine ⟨c₂, ?_, rfl⟩
  rw [hconnections]
  refine (Function.update_of_ne ?_ _ _).trans hc₂
  intro hconn
  rw [hconn, hlive] at hc₂
  rw [hsockfd, Option.some.inj hc₂] at hne
  exact hne rfl

/-- What passing a connection to its handler can do: the connection is removed, or it is still there,
perhaps with a new entry in the epoll set. -/
theorem pass_settled (hlive : server.connections conn = some c)
    (hsettled : Settled c (handler c)) (hpass : server.pass conn handler = .ok server') :
    (∃ c₁, (handler c).result = .ok none ∧ c₁.sockfd = c.sockfd ∧
        server' = (removal c₁).foldl (apply conn) server) ∨
      ∃ c' epoll, (handler c).result = .ok (some c') ∧ c'.sockfd = c.sockfd ∧
        (epoll = server.epoll ∨ ∃ interest,
          epoll = Function.update server.epoll c.sockfd (some ⟨interest, conn⟩)) ∧
        server' = ⟨Function.update server.connections conn (some c'), epoll⟩ := by
  unfold pass at hpass
  rw [hlive] at hpass
  dsimp only at hpass
  generalize handler c = outcome at hsettled hpass
  cases hsettled with
  | stopped calls e => cases hpass
  | removed calls c₁ hlocal hsockfd =>
      obtain rfl := Except.ok.inj hpass
      rw [List.foldl_append, foldl_apply_of_local conn hlocal]
      exact Or.inl ⟨c₁, rfl, hsockfd, rfl⟩
  | kept calls c' hlocal hsockfd =>
      obtain rfl := Except.ok.inj hpass
      rw [foldl_apply_of_local conn hlocal]
      exact Or.inr ⟨c', server.epoll, rfl, hsockfd, Or.inl rfl, rfl⟩
  | updated calls interest c' hlocal hsockfd =>
      obtain rfl := Except.ok.inj hpass
      rw [List.foldl_append, foldl_apply_of_local conn hlocal]
      exact Or.inr ⟨c', _, rfl, hsockfd, Or.inr ⟨interest, rfl⟩, rfl⟩

/-- Passing a connection to its handler changes that connection only. -/
theorem pass_connections (hlive : server.connections conn = some c)
    (hsettled : Settled c (handler c)) (hpass : server.pass conn handler = .ok server') :
    ∃ r, (handler c).result = .ok r ∧
      server'.connections = Function.update server.connections conn r := by
  rcases pass_settled hlive hsettled hpass with ⟨c₁, hresult, -, rfl⟩ | ⟨c', _, hresult, -, -, rfl⟩
  · exact ⟨none, hresult, (foldl_removal conn c₁ server).1⟩
  · exact ⟨some c', hresult, rfl⟩

theorem Inv.pass (hinv : server.Inv) (hlive : server.connections conn = some c)
    (hsettled : Settled c (handler c)) (hpass : server.pass conn handler = .ok server') :
    server'.Inv := by
  rcases pass_settled hlive hsettled hpass with ⟨c₁, -, hsockfd, rfl⟩ |
    ⟨c', epoll, -, hsockfd, rfl | ⟨interest, rfl⟩, rfl⟩
  · exact hinv.removed hlive hsockfd
  · exact hinv.update hlive hsockfd
  · exact (hinv.register hlive interest).update hlive hsockfd

/-- What passing a connection to its handler leaves of it. -/
theorem pass_cases (hlive : server.connections conn = some c) (hsettled : Settled c (handler c))
    (hpass : server.pass conn handler = .ok server') :
    (handler c).result = .ok none ∧ server'.connections conn = none ∨
      ∃ c', (handler c).result = .ok (some c') ∧ server'.connections conn = some c' := by
  obtain ⟨r, hresult, hconnections⟩ := pass_connections hlive hsettled hpass
  rw [hconnections, Function.update_self]
  cases r with
  | none => exact Or.inl ⟨hresult, rfl⟩
  | some c' => exact Or.inr ⟨c', hresult, rfl⟩

theorem Inv.handleNewConnection (hinv : server.Inv) {sockfd : Int} {memory : Connection}
    {epollCtl : Int} (hnew : server.connections conn = none)
    (h : server.handleNewConnection conn sockfd memory epollCtl = .ok server') : server'.Inv := by
  unfold Server.handleNewConnection at h
  split_ifs at h
  obtain rfl := Except.ok.inj h
  intro fd registration hregistration
  rcases update_eq_some hregistration with ⟨hown, hentry⟩ | ⟨-, hold⟩
  · obtain rfl := Option.some.inj hentry
    exact ⟨connectionCreate memory sockfd, Function.update_self _ _ _, hown.symm⟩
  · obtain ⟨c, hc, rfl⟩ := hinv fd registration hold
    have hne : registration.conn ≠ conn := by
      intro hconn
      rw [hconn, hnew] at hc
      cases hc
    exact ⟨c, (Function.update_of_ne hne _ _).trans hc, rfl⟩

/-- The connection of a possible event is there. -/
theorem Inv.live (hinv : server.Inv) {input output : Bool} {request : RequestAnswers}
    {reply : SendAnswers} (h : server.Possible (.ready conn input output request reply)) :
    ∃ c, server.connections conn = some c := by
  obtain ⟨-, sockfd, interest, hregistration, -⟩ := h
  obtain ⟨c, hc, -⟩ := hinv sockfd _ hregistration
  exact ⟨c, hc⟩

variable {parser : Parser}

theorem Inv.onInput (hinv : server.Inv) (hlive : server.connections conn = some c) {input : Bool}
    {request : RequestAnswers} (h : server.onInput parser conn input request = .ok server') :
    server'.Inv := by
  unfold Server.onInput at h
  split_ifs at h
  · exact hinv.pass hlive (Settled.handleClientRequest parser c request) h
  · exact Except.ok.inj h ▸ hinv

theorem Inv.onOutput (hinv : server.Inv) {output : Bool} {reply : SendAnswers}
    (h : server.onOutput conn output reply = .ok server') : server'.Inv := by
  unfold Server.onOutput at h
  split_ifs at h
  · cases hc : server.connections conn with
    | none =>
        rw [pass_none hc] at h
        cases h
    | some c => exact hinv.pass hc (Settled.sendMessage c reply) h
  · exact Except.ok.inj h ▸ hinv

theorem mainLoop_of_error {input output : Bool} {request : RequestAnswers} {reply : SendAnswers}
    {stop : Stop} (h : server.onInput parser conn input request = .error stop) :
    server.mainLoop parser (.ready conn input output request reply) = .error stop := by
  simp only [mainLoop, h]

theorem mainLoop_of_ok {input output : Bool} {request : RequestAnswers} {reply : SendAnswers}
    (h : server.onInput parser conn input request = .ok server') :
    server.mainLoop parser (.ready conn input output request reply) =
      server'.onOutput conn output reply := by
  simp only [mainLoop, h]

/-- One turn of the loop. -/
theorem Inv.turn (hinv : server.Inv) {event : Event} (h : Turn parser server event server') :
    server'.Inv := by
  obtain ⟨hpossible, hturn⟩ := h
  cases event with
  | accept conn sockfd memory epollCtl => exact hinv.handleNewConnection hpossible.1 hturn
  | ready conn input output request reply =>
      obtain ⟨c, hlive⟩ := hinv.live hpossible
      cases hinput : server.onInput parser conn input request with
      | error stop =>
          rw [mainLoop_of_error hinput] at hturn
          cases hturn
      | ok server₁ =>
          rw [mainLoop_of_ok hinput] at hturn
          exact (hinv.onInput hlive hinput).onOutput hturn

theorem inv_start : start.Inv := nofun

/-- The whole run. -/
theorem Inv.run {events : List Event} (h : Run (Turn parser) start events server) : server.Inv :=
  h.invariant (fun _ _ _ hinv hturn => hinv.turn hturn) inv_start

/-- How `handle_client_request` ends. -/
theorem handleClientRequest_result (parser : Parser) (c : Connection) (answers : RequestAnswers) :
    (∃ e, (handleClientRequest parser c answers).result = .error e) ∧ ¬answers.Removes ∨
      (handleClientRequest parser c answers).result = .ok none ∧ answers.Removes ∨
      (∃ c', (handleClientRequest parser c answers).result = .ok (some c')) ∧
        ¬answers.Removes := by
  by_cases hfails : answers.Fails
  · rw [handleClientRequest_fails parser hfails]
    rcases Int.lt_or_le answers.epollCtl 0 with hneg | hok
    · rw [removeConnection_die c hneg]
      exact Or.inl ⟨⟨_, rfl⟩, fun h => absurd h.2 (by omega)⟩
    · rw [removeConnection_eq c hok]
      exact Or.inr (Or.inl ⟨rfl, hfails, hok⟩)
  · have hnot : ¬answers.Removes := fun h => hfails h.1
    obtain ⟨hpeer, message, hrecv, hne⟩ := RequestAnswers.received_of_not_fails hfails
    rcases Int.lt_or_le answers.epollCtl 0 with hneg | hok
    · rw [handleClientRequest_die hpeer hrecv hne parser c hneg]
      exact Or.inl ⟨⟨_, rfl⟩, hnot⟩
    · rw [handleClientRequest_eq hpeer hrecv hne parser c hok]
      exact Or.inr (Or.inr ⟨⟨_, rfl⟩, hnot⟩)

theorem onInput_true (parser : Parser) (server : Server) (conn : ℕ) (request : RequestAnswers) :
    server.onInput parser conn true request =
      server.pass conn (handleClientRequest parser · request) := rfl

/-- The branch for `EPOLLIN` stops the server or leaves the connection, unless it removes it. -/
theorem onInput_cases (hlive : server.connections conn = some c) (input : Bool)
    (request : RequestAnswers) :
    (∃ e, server.onInput parser conn input request = .error (.abort e)) ∧
        ¬(input = true ∧ request.Removes) ∨
      ∃ server', server.onInput parser conn input request = .ok server' ∧
        (server'.connections conn = none ↔ input = true ∧ request.Removes) := by
  cases input with
  | false =>
      refine Or.inr ⟨server, rfl, ?_⟩
      rw [hlive]
      exact ⟨nofun, fun h => nomatch h.1⟩
  | true =>
      have hsettled := Settled.handleClientRequest parser c request
      rw [onInput_true]
      rcases handleClientRequest_result parser c request with ⟨⟨e, hresult⟩, hnot⟩ |
        ⟨hresult, hremoves⟩ | ⟨⟨c', hresult⟩, hnot⟩
      · exact Or.inl ⟨⟨e, pass_of_error hlive hresult⟩, fun h => hnot h.2⟩
      · obtain ⟨server', hserver'⟩ : ∃ server',
            server.pass conn (handleClientRequest parser · request) = .ok server' :=
          pass_of_ok hlive hresult
        refine Or.inr ⟨server', hserver', fun _ => ⟨rfl, hremoves⟩, fun _ => ?_⟩
        rcases pass_cases hlive hsettled hserver' with ⟨-, hnone⟩ | ⟨c', hsome, -⟩
        · exact hnone
        · cases hresult.symm.trans hsome
      · obtain ⟨server', hserver'⟩ : ∃ server',
            server.pass conn (handleClientRequest parser · request) = .ok server' :=
          pass_of_ok hlive hresult
        refine Or.inr ⟨server', hserver', fun hgone => ?_, fun h => absurd h.2 hnot⟩
        rcases pass_cases hlive hsettled hserver' with ⟨hnone, -⟩ | ⟨c₁, -, hsome⟩
        · cases hresult.symm.trans hnone
        · cases hgone.symm.trans hsome

/-- A request that is received leaves its connection with the answer prepared, waiting for both
directions. -/
theorem onInput_received (parser : Parser) (hlive : server.connections conn = some c)
    {request : RequestAnswers} (hfails : ¬request.Fails) (hepoll : 0 ≤ request.epollCtl) :
    server.onInput parser conn true request = .ok
      ⟨Function.update server.connections conn (some
          ((c.received (request.recv.getD [])).prepared request
            (requestPath parser (request.recv.getD [])))),
        Function.update server.epoll c.sockfd (some ⟨.inputOutput, conn⟩)⟩ := by
  obtain ⟨hpeer, message, hrecv, hne⟩ := RequestAnswers.received_of_not_fails hfails
  rw [onInput_true]
  unfold pass
  rw [hlive]
  dsimp only
  rw [handleClientRequest_eq hpeer hrecv hne parser c hepoll, hrecv]
  dsimp only
  rw [List.foldl_append, foldl_apply_of_local conn (opening_local _ _)]
  rfl

theorem onInput_registers (parser : Parser) (hlive : server.connections conn = some c)
    {request : RequestAnswers} (hfails : ¬request.Fails) (hepoll : 0 ≤ request.epollCtl) :
    ∃ server', server.onInput parser conn true request = .ok server' ∧
      server'.connections conn = some ((c.received (request.recv.getD [])).prepared request
        (requestPath parser (request.recv.getD []))) ∧
      server'.epoll c.sockfd = some ⟨.inputOutput, conn⟩ :=
  ⟨_, onInput_received parser hlive hfails hepoll, Function.update_self _ _ _,
    Function.update_self _ _ _⟩

/-- The branch for `EPOLLOUT` passes on a removed connection if it is taken and there is none. -/
theorem onOutput_released_iff (server : Server) (conn : ℕ) (output : Bool) (reply : SendAnswers) :
    (∃ conn', server.onOutput conn output reply = .error (.released conn')) ↔
      output = true ∧ server.connections conn = none := by
  unfold onOutput
  cases output with
  | false => exact ⟨nofun, fun h => nomatch h.1⟩
  | true =>
      rw [if_pos rfl]
      cases hc : server.connections conn with
      | none => exact ⟨fun _ => ⟨rfl, rfl⟩, fun _ => ⟨conn, pass_none hc⟩⟩
      | some c =>
          exact ⟨fun ⟨conn', h⟩ => absurd h (pass_ne_released hc conn'), fun h => nomatch h.2⟩

end Server

/-- In every run, and whatever the next event is: `main` passes on a connection that has been removed
exactly if the event reports both directions and its request removes the connection. -/
theorem removed_connection_passed_iff (parser : Parser) (events : List Event) (server : Server)
    (hrun : Run (Server.Turn parser) Server.start events server) (event : Event)
    (hpossible : server.Possible event) :
    (∃ conn, server.mainLoop parser event = .error (.released conn)) ↔ event.Misdirected := by
  have hinv := Server.Inv.run hrun
  cases event with
  | accept conn sockfd memory epollCtl =>
      have hnew : server.mainLoop parser (.accept conn sockfd memory epollCtl) =
          server.handleNewConnection conn sockfd memory epollCtl := rfl
      rw [hnew]
      unfold Server.handleNewConnection
      split_ifs
      · exact ⟨nofun, False.elim⟩
      · exact ⟨nofun, False.elim⟩
      · exact ⟨nofun, False.elim⟩
  | ready conn input output request reply =>
      obtain ⟨c, hlive⟩ := hinv.live hpossible
      show _ ↔ input = true ∧ output = true ∧ request.Removes
      rcases Server.onInput_cases hlive input request with ⟨⟨e, hinput⟩, hnot⟩ |
        ⟨server', hinput, hgone⟩
      · rw [Server.mainLoop_of_error hinput]
        exact ⟨nofun, fun h => absurd ⟨h.1, h.2.2⟩ hnot⟩
      · rw [Server.mainLoop_of_ok hinput, Server.onOutput_released_iff, hgone]
        tauto

/-- A client on descriptor 5. -/
def firstClient : Event := .accept 0 5 clearedMemory 0

/-- Its request, for a file that does not exist. -/
def pendingRequest : RequestAnswers :=
  ⟨0, some (bytes "GET /static/a HTTP/1.0\r\n\r\n"), ⟨[], []⟩, fun _ => -1, fun _ => 0, 0⟩

/-- `recv` returns 0. -/
def hangUp : RequestAnswers := ⟨0, some [], ⟨[], []⟩, fun _ => -1, fun _ => 0, 0⟩

def noReply : SendAnswers := ⟨-1, [], [], [], 0, fun _ => [], 0, [], 0⟩

/-- The server with its first client. -/
def firstConnected : Server :=
  ⟨Function.update Server.start.connections 0 (some (connectionCreate clearedMemory 5)),
    Function.update Server.start.epoll 5 (some ⟨.input, 0⟩)⟩

theorem run_firstClient :
    Run (Server.Turn getParser) Server.start [firstClient] firstConnected :=
  .single ⟨⟨rfl, rfl⟩, rfl⟩

/-- The client is waited for in both directions once its request has been received. -/
theorem run_pendingRequest : ∃ server, Run (Server.Turn getParser) Server.start
    [firstClient, .ready 0 true false pendingRequest noReply] server ∧
      server.Possible (.ready 0 true true hangUp noReply) := by
  have hlive : firstConnected.connections 0 = some (connectionCreate clearedMemory 5) := rfl
  have hfails : ¬pendingRequest.Fails := by decide
  obtain ⟨server, hinput, -, hepoll⟩ :=
    Server.onInput_registers getParser hlive hfails (by decide)
  have hturn : Server.Turn getParser firstConnected
      (.ready 0 true false pendingRequest noReply) server := by
    refine ⟨⟨Or.inl rfl, 5, .input, rfl, nofun⟩, ?_⟩
    rw [Server.mainLoop_of_ok hinput]
    rfl
  exact ⟨server, run_firstClient.snoc hturn, Or.inl rfl, 5, .inputOutput, hepoll, fun _ => rfl⟩

theorem hangUp_misdirected : Event.Misdirected (.ready 0 true true hangUp noReply) :=
  ⟨rfl, rfl, Or.inr (Or.inr rfl), by decide⟩

/-- A client closes its connection before it is answered: the event with both directions passes on
the removed connection, the one for reading does not. -/
theorem removed_connection_passed_iff_hangUp :
    ∃ server, Run (Server.Turn getParser) Server.start
        [firstClient, .ready 0 true false pendingRequest noReply] server ∧
      (∃ conn, server.mainLoop getParser (.ready 0 true true hangUp noReply) =
        .error (.released conn)) ∧
      ¬∃ conn, server.mainLoop getParser (.ready 0 true false hangUp noReply) =
        .error (.released conn) := by
  obtain ⟨server, hrun, hready, fd, registered, hepoll, hout⟩ := run_pendingRequest
  refine ⟨server, hrun, ?_, fun hpassed => ?_⟩
  · exact (removed_connection_passed_iff getParser _ server hrun
      (.ready 0 true true hangUp noReply) ⟨hready, fd, registered, hepoll, hout⟩).mpr
      hangUp_misdirected
  · have hmisdirected := (removed_connection_passed_iff getParser _ server hrun
      (.ready 0 true false hangUp noReply) ⟨Or.inl rfl, fd, registered, hepoll, nofun⟩).mp hpassed
    cases hmisdirected.2.1

/-- A client that closes its connection after a request, which is then both readable and writable. -/
theorem removed_connection_passed :
    ∃ server, Run (Server.Turn getParser) Server.start
        [firstClient, .ready 0 true false pendingRequest noReply] server ∧
      server.Possible (.ready 0 true true hangUp noReply) ∧
      ∃ conn, server.mainLoop getParser (.ready 0 true true hangUp noReply) =
        .error (.released conn) := by
  obtain ⟨server, hrun, hpossible⟩ := run_pendingRequest
  obtain ⟨c, hc⟩ := (Server.Inv.run hrun).live hpossible
  have hremoves : hangUp.Removes := hangUp_misdirected.2.2
  refine ⟨server, hrun, hpossible, ?_⟩
  rcases Server.onInput_cases hc true hangUp with ⟨-, hnot⟩ | ⟨server', hinput', hgone⟩
  · exact absurd ⟨rfl, hremoves⟩ hnot
  · rw [Server.mainLoop_of_ok hinput', Server.onOutput_released_iff]
    exact ⟨rfl, hgone.mpr ⟨rfl, hremoves⟩⟩

end OsHomeworks.WebServer
