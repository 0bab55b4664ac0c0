import OsHomeworks.ServerCalls

/-! What the cutting of a byte stream into `recv` results does. The parser starts afresh on every
message and `on_path_cb` writes over what it has stored, so the files that are opened depend on what
a fresh parser reports of each message; they do not depend on the cuts where every path is reported
whole and alone. -/

namespace OsHomeworks.WebServer

open CallLog CallLog.Logged

/-- The two things that the main loop does with a connection. -/
inductive Activity where
  | request (answers : RequestAnswers)
  | reply (answers : SendAnswers)

def Activity.perform (parser : Parser) (conn : Connection) :
    Activity → Outcome (Option Connection)
  | .request answers => handleClientRequest parser conn answers
  | .reply answers => sendMessage conn answers

/-- What is done on a connection, as long as it is open, with the calls made for it. -/
def activities (parser : Parser) : Connection → List Activity → List (Activity × List Call)
  | _, [] => []
  | conn, a :: as =>
      (a, (a.perform parser conn).calls) ::
        match (a.perform parser conn).result with
        | .ok (some conn') => activities parser conn' as
        | _ => []

/-- The message that an activity receives. -/
def Activity.received : Activity → List (List UInt8)
  | .request answers => if answers.Fails then [] else answers.recv.toList
  | .reply _ => []

/-- The results of `recv`, in order. -/
def received (log : List (Activity × List Call)) : List (List UInt8) :=
  log.flatMap fun p => p.1.received

def Call.opened : Call → List (List UInt8)
  | .openFile path _ => [path]
  | _ => []

/-- The files that are opened, in order. -/
def opened (log : List (Activity × List Call)) : List (List UInt8) :=
  log.flatMap fun p => p.2.flatMap Call.opened

/-- All requests meet the same file system. -/
def SameFiles (files : List UInt8 → Bool) (as : List Activity) : Prop :=
  ∀ answers, Activity.request answers ∈ as →
    ∀ path, 0 ≤ answers.openFile path ↔ files path = true

/-- The file that a message makes the server open. -/
def opens (files : List UInt8 → Bool) (parser : Parser) (message : List UInt8) :
    List (List UInt8) :=
  if requestPath parser message = [] then []
  else [connectionPath (requestPath parser message)].filter files

/-- A way of cutting a stream in which the paths of its requests are reported whole, each by a message
of its own. -/
structure Delivers (parser : Parser) (paths cut : List (List UInt8)) : Prop where
  alone : ∀ message ∈ cut, (parser message).length ≤ 1
  whole : cut.flatMap parser = paths

theorem opening_opened (answers : RequestAnswers) (path : List UInt8) :
    (opening answers path).flatMap Call.opened =
      if path = [] then []
      else if 0 ≤ answers.openFile (connectionPath path) then [connectionPath path] else [] := by
  unfold opening
  split_ifs <;> rfl

theorem removeConnection_opened (conn : Connection) (epollCtl : Int) :
    (removeConnection conn epollCtl).calls.flatMap Call.opened = [] := by
  refine List.flatMap_eq_nil_iff.mpr fun c hc => ?_
  have hend := (ensures_removeConnection conn epollCtl).call c hc
  cases c <;> trivial

/-- Sending opens nothing. -/
theorem sendMessage_opened (conn : Connection) (answers : SendAnswers) :
    (sendMessage conn answers).calls.flatMap Call.opened = [] := by
  refine List.flatMap_eq_nil_iff.mpr fun c hc => ?_
  rcases (ensures_sendMessage conn answers).call c hc with ⟨hheader, -⟩ | hfile | hend
  · cases c <;> trivial
  · cases c <;> trivial
  · cases c <;> trivial

theorem handleClientRequest_opened {files : List UInt8 → Bool} (parser : Parser)
    (conn : Connection) {answers : RequestAnswers}
    (hfiles : ∀ path, 0 ≤ answers.openFile path ↔ files path = true) :
    (handleClientRequest parser conn answers).calls.flatMap Call.opened =
      (Activity.request answers).received.flatMap (opens files parser) := by
  unfold Activity.received
  by_cases hfails : answers.Fails
  · dsimp only
    rw [if_pos hfails, handleClientRequest_fails parser hfails, removeConnection_opened]
    rfl
  · obtain ⟨hpeer, message, hrecv, hne⟩ := RequestAnswers.received_of_not_fails hfails
    have hopens : (opening answers (requestPath parser message)).flatMap Call.opened =
        opens files parser message := by
      rw [opening_opened, opens]
      by_cases hpath : requestPath parser message = []
      · rw [if_pos hpath, if_pos hpath]
      · rw [if_neg hpath, if_neg hpath, List.filter_singleton]
        simp only [hfiles, Bool.cond_eq_ite]
    dsimp only
    rw [if_neg hfails, hrecv, Option.toList_some, List.flatMap_singleton, ← hopens]
    rcases Int.lt_or_le answers.epollCtl 0 with hneg | hok
    · rw [handleClientRequest_die hpeer hrecv hne parser conn hneg]
    · rw [handleClientRequest_eq hpeer hrecv hne parser conn hok]
      dsimp only
      rw [List.flatMap_append]
      exact List.append_nil _

/-- One activity opens the files of what it receives. -/
theorem Activity.perform_opened {files : List UInt8 → Bool} (parser : Parser) (conn : Connection)
    {a : Activity} {as : List Activity} (hfiles : SameFiles files (a :: as)) :
    (a.perform parser conn).calls.flatMap Call.opened =
      a.received.flatMap (opens files parser) := by
  cases a with
  | request answers =>
      exact handleClientRequest_opened parser conn (hfiles answers List.mem_cons_self)
  | reply answers => exact sendMessage_opened conn answers

/-- Whatever is done on a connection, it opens the files of the messages it receives. -/
theorem opened_eq {files : List UInt8 → Bool} (parser : Parser) (conn : Connection)
    {as : List Activity} (hfiles : SameFiles files as) :
    opened (activities parser conn as) =
      (received (activities parser conn as)).flatMap (opens files parser) := by
  induction as generalizing conn with
  | nil => rfl
  | cons a as ih =>
      have hstep := Activity.perform_opened parser conn hfiles
      have hrest : SameFiles files as :=
        fun answers hmem => hfiles answers (List.mem_cons_of_mem a hmem)
      unfold opened received at ih ⊢
      rw [activities, List.flatMap_cons, List.flatMap_cons, List.flatMap_append, hstep]
      congr 1
      split
      · exact ih _ hrest
      · rfl

theorem takeWhile_replicate_zero (n : ℕ) :
    (List.replicate n (0 : UInt8)).takeWhile (· ≠ 0) = [] := by
  cases n with
  | zero => rfl
  | succ n => rfl

theorem requestPath_of_none {parser : Parser} {message : List UInt8}
    (h : parser message = []) : requestPath parser message = [] := by
  unfold requestPath parsePath cString
  rw [h, List.foldl_nil, takeWhile_replicate_zero]

theorem requestPath_of_single {parser : Parser} {message path : List UInt8}
    (h : parser message = [path]) (hnul : 0 ∉ path) : requestPath parser message = path := by
  have hne : ∀ b ∈ path, decide (b ≠ 0) = true := fun b hb =>
    decide_eq_true fun hzero => hnul (hzero ▸ hb)
  unfold requestPath parsePath cString
  rw [h, List.foldl_cons, List.foldl_nil, onPathCb, List.drop_replicate,
    List.takeWhile_append_of_pos hne, takeWhile_replicate_zero, List.append_nil]

/-- A message that reports at most one path opens its file. -/
theorem opens_of_alone {files : List UInt8 → Bool} {parser : Parser} {message : List UInt8}
    (halone : (parser message).length ≤ 1)
    (hpaths : ∀ path ∈ parser message, path ≠ [] ∧ 0 ∉ path) :
    opens files parser message = ((parser message).map connectionPath).filter files := by
  unfold opens
  cases h : parser message with
  | nil => rw [if_pos (requestPath_of_none h)]; rfl
  | cons path rest =>
      rw [h] at halone hpaths
      obtain rfl : rest = [] := List.length_eq_zero_iff.mp (by simpa using halone)
      obtain ⟨hne, hnul⟩ := hpaths path List.mem_cons_self
      rw [requestPath_of_single h hnul, if_neg hne]
      rfl

/-- Where the paths are reported whole, each alone, the files that they name are opened in order. -/
theorem Delivers.opened {files : List UInt8 → Bool} {parser : Parser} {paths : List (List UInt8)}
    {conn : Connection} {as : List Activity} (hfiles : SameFiles files as)
    (hpaths : ∀ path ∈ paths, path ≠ [] ∧ 0 ∉ path)
    (h : Delivers parser paths (received (activities parser conn as))) :
    WebServer.opened (activities parser conn as) = (paths.map connectionPath).filter files := by
  rw [opened_eq parser conn hfiles]
  calc (received (activities parser conn as)).flatMap (opens files parser)
      = (received (activities parser conn as)).flatMap fun message =>
          ((parser message).map connectionPath).filter files := by
        refine List.flatMap_congr fun message hmem => ?_
        refine opens_of_alone (h.alone message hmem) fun path hpath => hpaths path ?_
        rw [← h.whole]
        exact List.mem_flatMap.mpr ⟨message, hmem, hpath⟩
    _ = (((received (activities parser conn as)).flatMap parser).map connectionPath).filter
          files := by
        rw [List.map_flatMap, List.filter_flatMap]
    _ = (paths.map connectionPath).filter files := by rw [h.whole]

/-- A message that arrives while every file exists. -/
def arrival (message : List UInt8) : Activity :=
  .request ⟨0, some message, ⟨[], []⟩, fun _ => 6, fun _ => 0, 0⟩

def newConnection : Connection := connectionCreate clearedMemory 5

def wholeRequest : List Activity := [arrival (bytes "GET /static/a HTTP/1.0\r\n\r\n")]

/-- The same request, cut behind its path. -/
def cutBehindPath : List Activity :=
  [arrival (bytes "GET /static/a HT"), arrival (bytes "TP/1.0\r\n\r\n")]

/-- The same request, cut in its path. -/
def cutInPath : List Activity :=
  [arrival (bytes "GET /stat"), arrival (bytes "ic/a HTTP/1.0\r\n\r\n")]

theorem sameFiles_arrival (messages : List (List UInt8)) :
    SameFiles (fun _ => true) (messages.map arrival) := by
  intro answers hmem path
  obtain ⟨message, -, h⟩ := List.mem_map.mp hmem
  obtain rfl := Activity.request.inj h
  have hopens : (0 : Int) ≤ 6 := by decide
  exact iff_of_true hopens rfl

end OsHomeworks.WebServer
