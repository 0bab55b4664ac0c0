import OsHomeworks.ServerPaths

/-! The two buffers of `BUFSIZ` bytes that a request's path goes through: the global `path`, which the
parser's callback fills, and `conn->path`, in which the name of the file is put together byte by byte.
What `recv` delivers bounds the path by its method and a space; the name has up to five bytes more than
the path, and its NUL. -/

namespace OsHomeworks.WebServer

/-- `memmove(memory + offset, source, n)`, where `source` has `n` bytes. -/
def overwrite (memory : List UInt8) (offset : ℕ) (source : List UInt8) : List UInt8 :=
  memory.take offset ++ (source ++ memory.drop (offset + source.length))

/-- `strcat`: the bytes of `source` and a NUL come where the string ends. -/
def strcat (memory source : List UInt8) : List UInt8 :=
  overwrite memory (cString memory).length (source ++ [0])

/-- The memory begins with this string. -/
def StringAt (memory text : List UInt8) : Prop := 0 ∉ text ∧ ∃ rest, memory = text ++ 0 :: rest

variable {memory text source : List UInt8}

theorem overwrite_append (front back source : List UInt8) :
    overwrite (front ++ back) front.length source =
      front ++ (source ++ back.drop source.length) := by
  rw [overwrite, List.take_left, ← List.drop_drop, List.drop_left]

/-- The string that follows `front` takes the place of zeros. -/
theorem overwrite_zeros (front source rest : List UInt8) (n : ℕ) :
    overwrite (front ++ (List.replicate (source.length + n) 0 ++ rest)) front.length source =
      front ++ source ++ (List.replicate n 0 ++ rest) := by
  rw [overwrite_append, List.replicate_add, List.append_assoc, List.append_assoc]
  congr 2
  exact List.drop_left' List.length_replicate

theorem StringAt.eq (h : StringAt memory text) : cString memory = text := by
  obtain ⟨hnul, rest, rfl⟩ := h
  rw [cString_append hnul]
  exact List.append_nil text

theorem StringAt.strcat (h : StringAt memory text) (hsource : 0 ∉ source) :
    StringAt (strcat memory source) (text ++ source) := by
  rw [WebServer.strcat, h.eq]
  obtain ⟨hnul, rest, rfl⟩ := h
  refine ⟨fun hmem => (List.mem_append.mp hmem).elim hnul hsource, rest.drop source.length, ?_⟩
  rw [overwrite_append]
  simp

/-- A string is no longer than what is in front of a NUL. -/
theorem length_cString_le (front back : List UInt8) :
    (cString (front ++ 0 :: back)).length ≤ front.length := by
  induction front with
  | nil => exact Nat.le_refl 0
  | cons c front ih =>
      by_cases hc : c = 0
      · subst c
        exact Nat.zero_le _
      · have hcons : cString (c :: front ++ 0 :: back) = c :: cString (front ++ 0 :: back) :=
          List.takeWhile_cons_of_pos (by simpa using hc)
        rw [hcons]
        exact Nat.succ_le_succ ih

/-- The statements of `set_connection_path_and_file` on `conn->path`; `memory` is what is there and
behind it. -/
def buildPath (memory path : List UInt8) : List UInt8 :=
  let memory := overwrite memory 0 (List.replicate bufsiz 0)
  let memory := overwrite memory 0 awsDocumentRoot
  let memory := overwrite memory awsDocumentRoot.length (path.drop 1)
  let memory := if bytes "." <:+: path then memory else strcat memory (bytes ".")
  strcat memory (bytes "dat")

/-- The directory and the path, among the zeros. -/
theorem stringAt_copied {path : List UInt8} (hnul : 0 ∉ path) (hlength : path.length + 1 < bufsiz)
    (memory : List UInt8) :
    StringAt (overwrite (overwrite (overwrite memory 0 (List.replicate bufsiz 0)) 0 awsDocumentRoot)
      awsDocumentRoot.length (path.drop 1)) (awsDocumentRoot ++ path.drop 1) := by
  have hroom : (path.drop 1).length < bufsiz - awsDocumentRoot.length := by
    have hbufsiz : bufsiz - awsDocumentRoot.length = 8190 := rfl
    rw [bufsiz] at hlength
    rw [hbufsiz, List.length_drop]
    omega
  obtain ⟨n, hn⟩ : ∃ n, bufsiz = awsDocumentRoot.length + ((path.drop 1).length + (n + 1)) := by
    obtain ⟨n, hn⟩ := Nat.exists_eq_add_of_lt hroom
    exact ⟨n, by omega⟩
  have hclear : overwrite memory 0 (List.replicate bufsiz 0) =
      [] ++ (List.replicate bufsiz 0 ++ memory.drop bufsiz) := by
    rw [overwrite, List.take_zero, List.length_replicate, Nat.zero_add]
  have hdirectory := overwrite_zeros [] awsDocumentRoot (memory.drop bufsiz)
    ((path.drop 1).length + (n + 1))
  have hcopy := overwrite_zeros awsDocumentRoot (path.drop 1) (memory.drop bufsiz) (n + 1)
  rw [← hn, ← hclear] at hdirectory
  refine ⟨fun hmem => ?_, List.replicate n 0 ++ memory.drop bufsiz, ?_⟩
  · rcases List.mem_append.mp hmem with hmem | hmem
    · exact absurd hmem (by decide)
    · exact hnul (List.mem_of_mem_drop hmem)
  · exact (congrArg (overwrite · _ _) hdirectory).trans hcopy

/-- The name that is put together is the one that is opened. -/
theorem cString_buildPath {path : List UInt8} (hnul : 0 ∉ path)
    (hlength : path.length + 1 < bufsiz) (memory : List UInt8) :
    cString (buildPath memory path) = connectionPath path := by
  have hcopied := stringAt_copied hnul hlength memory
  have hdat : 0 ∉ bytes "dat" := by decide
  unfold buildPath connectionPath
  dsimp only
  split_ifs
  · rw [List.append_nil]
    exact (hcopied.strcat hdat).eq
  · exact ((hcopied.strcat (by decide)).strcat hdat).eq

theorem length_connectionPath {path : List UInt8} (hne : path ≠ []) :
    (connectionPath path).length = path.length + if bytes "." <:+: path then 4 else 5 := by
  have hpos : 0 < path.length := List.length_pos_iff.mpr hne
  have hroot : awsDocumentRoot.length = 2 := rfl
  have hdot : (bytes ".").length = 1 := rfl
  have hdat : (bytes "dat").length = 3 := rfl
  unfold connectionPath
  split_ifs
  · simp only [List.length_append, List.length_drop, List.length_nil, hroot, hdat]
    omega
  · simp only [List.length_append, List.length_drop, hroot, hdot, hdat]
    omega

/-- `method_strings` -/
def methodStrings : List (List UInt8) :=
  ["DELETE", "GET", "HEAD", "POST", "PUT", "CONNECT", "OPTIONS", "TRACE", "COPY", "LOCK", "MKCOL",
    "MOVE", "PROPFIND", "PROPPATCH", "UNLOCK", "REPORT", "MKACTIVITY", "CHECKOUT", "MERGE",
    "M-SEARCH", "NOTIFY", "SUBSCRIBE", "UNSUBSCRIBE"].map bytes

/-- A piece of the message behind a method and a space, up to any place. The parser does not compare
all characters of a method, only its length is sure. -/
def Reported (message piece : List UInt8) : Prop :=
  ∃ method ∈ methodStrings, ∃ pre word gap post, word.length = method.length ∧
    message = pre ++ word ++ bytes " " ++ gap ++ piece ++ post

theorem length_method_ge : ∀ method ∈ methodStrings, 3 ≤ method.length := by
  decide +kernel

/-- Four bytes of the message are not in the path. -/
theorem Reported.length_le {message piece : List UInt8} (h : Reported message piece) :
    piece.length + 4 ≤ message.length := by
  obtain ⟨method, hmethod, pre, word, gap, post, hword, rfl⟩ := h
  have hthree := length_method_ge method hmethod
  have hspace : (bytes " ").length = 1 := rfl
  simp only [List.length_append, hspace]
  omega

/-- The global `path` while the callbacks are made: behind the first `m` bytes it is still clear. -/
def ClearFrom (m : ℕ) (path : List UInt8) : Prop :=
  path.length = bufsiz ∧ path.drop m = List.replicate (bufsiz - m) 0

theorem clearFrom_onPathCb {m : ℕ} {path piece : List UInt8} (hm : m ≤ bufsiz)
    (h : ClearFrom m path) (hpiece : piece.length ≤ m) : ClearFrom m (onPathCb path piece) := by
  obtain ⟨hlength, hclear⟩ := h
  refine ⟨?_, ?_⟩
  · simp only [onPathCb, List.length_append, List.length_drop, hlength]
    omega
  · obtain ⟨k, rfl⟩ := Nat.exists_eq_add_of_le hpiece
    rw [onPathCb, ← List.drop_drop, List.drop_left, List.drop_drop, hclear]

theorem clearFrom_parsePath {parser : Parser} {message : List UInt8} {m : ℕ} (hm : m ≤ bufsiz)
    (h : ∀ piece ∈ parser message, piece.length ≤ m) : ClearFrom m (parsePath parser message) := by
  have hfold : ∀ pieces : List (List UInt8), (∀ piece ∈ pieces, piece.length ≤ m) →
      ∀ path, ClearFrom m path → ClearFrom m (pieces.foldl onPathCb path) := by
    intro pieces
    induction pieces with
    | nil => exact fun _ _ hpath => hpath
    | cons piece pieces ih =>
        intro hpieces path hpath
        apply ih fun p hp => hpieces p (List.mem_cons_of_mem _ hp)
        exact clearFrom_onPathCb hm hpath (hpieces piece List.mem_cons_self)
  apply hfold _ h
  exact ⟨List.length_replicate, List.drop_replicate⟩

theorem ClearFrom.split {m : ℕ} {path : List UInt8} (h : ClearFrom m path) (hm : m < bufsiz) :
    ∃ back, path = path.take m ++ 0 :: back := by
  obtain ⟨k, hk⟩ : ∃ k, bufsiz - m = k + 1 := ⟨bufsiz - m - 1, by omega⟩
  refine ⟨List.replicate k 0, ?_⟩
  calc path = path.take m ++ path.drop m := (List.take_append_drop m path).symm
    _ = path.take m ++ 0 :: List.replicate k 0 := by rw [h.2, hk, List.replicate_succ]

/-- The global `path` has its size and a NUL, and the string in `conn->path`, where one is put
together, has its NUL within `BUFSIZ` bytes. -/
structure PathsFit (parser : Parser) (message memory : List UInt8) : Prop where
  path : (parsePath parser message).length = bufsiz ∧ 0 ∈ parsePath parser message
  connPath : requestPath parser message ≠ [] →
    (cString (buildPath memory (requestPath parser message))).length + 1 ≤ bufsiz

section

variable {parser : Parser} {message : List UInt8} (hmessage : message.length ≤ bufsiz)
  (hparser : ∀ piece ∈ parser message, Reported message piece)

include hmessage hparser

theorem clearFrom_received : ClearFrom (bufsiz - 4) (parsePath parser message) := by
  apply clearFrom_parsePath (Nat.sub_le _ _)
  intro piece hpiece
  have hlength := (hparser piece hpiece).length_le
  omega

theorem length_requestPath_le : (requestPath parser message).length ≤ bufsiz - 4 := by
  obtain ⟨back, hsplit⟩ := (clearFrom_received hmessage hparser).split (by decide)
  rw [requestPath, hsplit]
  exact (length_cString_le _ back).trans (List.length_take_le _ _)

theorem path_terminated : 0 ∈ parsePath parser message := by
  obtain ⟨back, hsplit⟩ := (clearFrom_received hmessage hparser).split (by decide)
  rw [hsplit]
  exact List.mem_append_right _ List.mem_cons_self

theorem cString_built (memory : List UInt8) :
    cString (buildPath memory (requestPath parser message)) =
      connectionPath (requestPath parser message) := by
  have hnul : 0 ∉ requestPath parser message := not_mem_cString _
  have hlength := length_requestPath_le hmessage hparser
  apply cString_buildPath hnul
  rw [bufsiz] at hlength ⊢
  omega

/-- The name that the handler of a request leaves is the string in `conn->path`. -/
theorem handled_connPath {conn conn' : Connection} {answers : RequestAnswers}
    (hrecv : answers.recv.getD [] = message)
    (h : (handleClientRequest parser conn answers).result = .ok (some conn'))
    (hne : requestPath parser message ≠ []) (memory : List UInt8) :
    conn'.path = cString (buildPath memory (requestPath parser message)) := by
  rw [handled_eq h, hrecv, prepared_path _ _ hne, cString_built hmessage hparser]

/-- For every message of one `recv` and every path of it: the paths fit exactly if the path has at most
8186 characters, or 8187 with a dot among them. -/
theorem pathsFit_iff (memory : List UInt8) :
    PathsFit parser message memory ↔
      (requestPath parser message).length ≤ 8186 ∨
        (requestPath parser message).length = 8187 ∧ bytes "." <:+: requestPath parser message := by
  have hglobal : (parsePath parser message).length = bufsiz ∧ 0 ∈ parsePath parser message :=
    ⟨(clearFrom_received hmessage hparser).1, path_terminated hmessage hparser⟩
  have hiff : PathsFit parser message memory ↔ (requestPath parser message ≠ [] →
      (connectionPath (requestPath parser message)).length + 1 ≤ bufsiz) := by
    rw [← cString_built hmessage hparser memory]
    exact ⟨PathsFit.connPath, PathsFit.mk hglobal⟩
  rw [hiff]
  by_cases hempty : requestPath parser message = []
  · rw [hempty]
    exact iff_of_true (fun hne => absurd rfl hne) (Or.inl (Nat.zero_le _))
  · rw [length_connectionPath hempty, bufsiz, imp_iff_right hempty]
    split_ifs with hdot
    · have hlengths : (requestPath parser message).length + 4 + 1 ≤ 8192 ↔
          (requestPath parser message).length ≤ 8187 := by omega
      rw [hlengths, and_iff_left hdot]
      omega
    · have hlengths : (requestPath parser message).length + 5 + 1 ≤ 8192 ↔
          (requestPath parser message).length ≤ 8186 := by omega
      rw [hlengths, or_iff_left fun h => hdot h.2]

end

/-- The piece of a GET request is behind its method. -/
theorem getParser_reported (message : List UInt8) :
    ∀ piece ∈ getParser message, Reported message piece := by
  intro piece hpiece
  unfold getParser at hpiece
  split_ifs at hpiece with hget
  · obtain ⟨rest, rfl⟩ := hget
    obtain rfl := List.mem_singleton.mp hpiece
    have hmethod : (bytes "GET /" ++ rest).take 4 = bytes "GET" ++ bytes " " := rfl
    refine ⟨bytes "GET", by decide +kernel, [], bytes "GET", [],
      ((bytes "GET /" ++ rest).drop 4).dropWhile (· ∉ bytes " "), rfl, ?_⟩
    rw [List.nil_append, List.append_nil, ← hmethod, List.append_assoc,
      List.takeWhile_append_dropWhile, List.take_append_drop]
  · cases hpiece

theorem pathsFit_iff_short :
    PathsFit getParser (bytes "GET /static/a ") [] ↔
      (requestPath getParser (bytes "GET /static/a ")).length ≤ 8186 ∨
        (requestPath getParser (bytes "GET /static/a ")).length = 8187 ∧
          bytes "." <:+: requestPath getParser (bytes "GET /static/a ") :=
  pathsFit_iff (by decide) (getParser_reported _) []

/-- A single piece without a NUL is the path. -/
theorem requestPath_eq {parser : Parser} {message piece : List UInt8}
    (h : parser message = [piece]) (hnul : 0 ∉ piece) : requestPath parser message = piece := by
  have hclear : ∀ n, cString (List.replicate n 0) = [] := by
    intro n
    cases n with
    | zero => rfl
    | succ n => rw [List.replicate_succ, cString, List.takeWhile_cons_of_neg (by decide)]
  have hpath : parsePath parser message = piece ++ (List.replicate bufsiz 0).drop piece.length := by
    rw [parsePath, h]
    rfl
  rw [requestPath, hpath, cString_append hnul, List.drop_replicate, hclear, List.append_nil]

/-- A slash and `n` letters. -/
def longPath (n : ℕ) : List UInt8 := bytes "/" ++ List.replicate n 97

/-- A GET request for a long path, as far as the space behind it. -/
def longRequest (n : ℕ) : List UInt8 := bytes "GET " ++ (longPath n ++ bytes " ")

theorem mem_longPath {n : ℕ} {c : UInt8} (h : c ∈ longPath n) : c = 47 ∨ c = 97 := by
  rcases List.mem_append.mp h with h | h
  · exact Or.inl (List.mem_singleton.mp h)
  · exact Or.inr (List.eq_of_mem_replicate h)

theorem length_longPath (n : ℕ) : (longPath n).length = n + 1 := by
  have hslash : (bytes "/").length = 1 := rfl
  rw [longPath, List.length_append, List.length_replicate, hslash, Nat.add_comm]

theorem getParser_longRequest (n : ℕ) : getParser (longRequest n) = [longPath n] := by
  have hget : bytes "GET /" <+: longRequest n := ⟨List.replicate n 97 ++ bytes " ", rfl⟩
  have hpath : (longRequest n).drop 4 = longPath n ++ bytes " " := rfl
  have hfree : ∀ c ∈ longPath n, decide (c ∉ bytes " ") = true := by
    intro c hc
    rcases mem_longPath hc with rfl | rfl <;> rfl
  have hspace : (bytes " ").takeWhile (· ∉ bytes " ") = [] := by decide
  rw [getParser, if_pos hget, hpath, List.takeWhile_append_of_pos hfree, hspace, List.append_nil]

/-- A message that fills the buffer, for a path without a dot. -/
theorem longRequest_overflows {n : ℕ} (hn : n + 6 = bufsiz) :
    (longRequest n).length = bufsiz ∧
      (∀ piece ∈ getParser (longRequest n), Reported (longRequest n) piece) ∧
      ∀ memory, ¬PathsFit getParser (longRequest n) memory := by
  have hlength : (longRequest n).length = bufsiz := by
    have hget : (bytes "GET ").length = 4 := rfl
    have hspace : (bytes " ").length = 1 := rfl
    rw [longRequest, List.length_append, List.length_append, length_longPath, hget, hspace]
    omega
  have hpath : requestPath getParser (longRequest n) = longPath n := by
    apply requestPath_eq (getParser_longRequest n)
    intro hmem
    rcases mem_longPath hmem with h | h <;> exact absurd h (by decide)
  have hne : longPath n ≠ [] := by
    apply List.ne_nil_of_length_pos
    rw [length_longPath]
    exact Nat.succ_pos n
  have hdot : ¬bytes "." <:+: longPath n := by
    intro hinfix
    have hmem : (46 : UInt8) ∈ longPath n := hinfix.subset (by decide)
    rcases mem_longPath hmem with h | h <;> exact absurd h (by decide)
  refine ⟨hlength, getParser_reported _, fun memory hfit => ?_⟩
  have hfits := hfit.connPath (by rwa [hpath])
  rw [cString_built hlength.le (getParser_reported _), hpath, length_connectionPath hne,
    length_longPath, if_neg hdot] at hfits
  omega

/-- The longest such path that one `recv` delivers up to its space. -/
theorem longest_path_overflows :
    (longRequest 8186).length = bufsiz ∧
      (∀ piece ∈ getParser (longRequest 8186), Reported (longRequest 8186) piece) ∧
      ∀ memory, ¬PathsFit getParser (longRequest 8186) memory :=
  longRequest_overflows rfl

end OsHomeworks.WebServer
