import OsHomeworks.ServerFraming
import OsHomeworks.Tokens

/-! The type of the file that a path names: the first token of a copy of the path that nothing ends, cut
by a string of delimiters that nothing ends either; so the bytes are named that follow the two on the
stack, and what they can do. -/

namespace OsHomeworks.WebServer

open CallLog CallLog.Logged Tokens

/-- The names of the directories that are served. -/
def Known (w : List UInt8) : Prop := w = bytes "static" ∨ w = bytes "dynamic"

instance (w : List UInt8) : Decidable (Known w) := inferInstanceAs (Decidable (_ ∨ _))

/-- The first component of a path, behind the slash that it starts with; one or more slashes separate
two components. -/
def firstComponent (path : List UInt8) : List UInt8 := token (· ∈ bytes "/") (path.drop 1)

namespace Stack

/-- The string that `strtok` takes for the delimiters. -/
def delimiters (stack : Stack) : List UInt8 := bytes "/" ++ cString stack.afterDelim

/-- What the copy of the path goes on with, up to the next NUL. -/
def behind (stack : Stack) (path : List UInt8) : List UInt8 :=
  cString (stack.temp.drop (path.length - 1))

end Stack

theorem strtok_eq_iff {w : List UInt8} (hw : w ≠ []) (str delim : List UInt8) :
    strtok str delim = some w ↔ Delimited (· ∈ delim) w str := by
  rw [← token_eq_iff hw, strtok, token]
  cases str.dropWhile (· ∈ delim) with
  | nil => exact iff_of_false (Option.some_ne_none w).symm hw.symm
  | cons c rest => exact Option.some_inj

theorem cString_append {text array : List UInt8} (h : 0 ∉ text) :
    cString (text ++ array) = text ++ cString array := by
  apply List.takeWhile_append_of_pos
  intro c hc
  simpa using fun hzero : c = 0 => h (hzero ▸ hc)

/-- The type is decided by the token of the copy. -/
theorem determineFileType_iff {path : List UInt8} (hnul : 0 ∉ path) (stack : Stack) :
    (determineFileType stack path = static ↔
      Delimited (· ∈ stack.delimiters) (bytes "static") (path.drop 1 ++ stack.behind path)) ∧
    (determineFileType stack path = dynamic ↔
      Delimited (· ∈ stack.delimiters) (bytes "dynamic") (path.drop 1 ++ stack.behind path)) := by
  have hdiffer : bytes "dynamic" ≠ bytes "static" := by decide
  have hcopy : cString (path.drop 1 ++ stack.temp.drop (path.length - 1)) =
      path.drop 1 ++ stack.behind path :=
    cString_append fun hmem => hnul (List.mem_of_mem_drop hmem)
  have hdelimiters : bytes "/" ++ cString stack.afterDelim = stack.delimiters := rfl
  rw [← strtok_eq_iff (by decide), ← strtok_eq_iff (by decide), determineFileType, hcopy,
    hdelimiters]
  cases strtok (path.drop 1 ++ stack.behind path) stack.delimiters with
  | none => exact ⟨by decide, by decide⟩
  | some p =>
      dsimp only
      rw [Option.some_inj, Option.some_inj]
      split_ifs with hstatic hdynamic
      · subst hstatic
        decide
      · subst hdynamic
        decide
      · exact ⟨iff_of_false (by decide) hstatic, iff_of_false (by decide) hdynamic⟩

/-- The type is the one that the path has. -/
structure Classified (stack : Stack) (path : List UInt8) : Prop where
  static : determineFileType stack path = static ↔ firstComponent path = bytes "static"
  dynamic : determineFileType stack path = dynamic ↔ firstComponent path = bytes "dynamic"

/-- A first component `w` is found as it is: none of its characters is taken for a delimiter, and where
the path ends with it, nothing is read on. -/
structure Kept (stack : Stack) (path w : List UInt8) : Prop where
  whole : ∀ c ∈ w, c ∉ stack.delimiters
  ended : (path.drop 1).dropWhile (· ∈ bytes "/") = w →
    ∀ c ∈ (stack.behind path).head?, c ∈ stack.delimiters

/-- The bytes of the stack do not show in the type: a known first component is kept, and else none is
made out of the path, what is behind it and the delimiters. -/
def Unseen (stack : Stack) (path : List UInt8) : Prop :=
  if Known (firstComponent path) then Kept stack path (firstComponent path)
  else ∀ w, Known w → ¬Delimited (· ∈ stack.delimiters) w (path.drop 1 ++ stack.behind path)

theorem Known.ne_nil {w : List UInt8} (h : Known w) : w ≠ [] := by
  rcases h with rfl | rfl <;> decide

/-- A path with its first component set apart. -/
theorem firstComponent_split {path : List UInt8} (hne : firstComponent path ≠ []) :
    ∃ pre post, path.drop 1 = pre ++ (firstComponent path ++ post) ∧
      (∀ c ∈ pre, c ∈ bytes "/") ∧ (∀ c ∈ post.head?, c ∈ bytes "/") ∧
      ((path.drop 1).dropWhile (· ∈ bytes "/") = firstComponent path ↔ post = []) := by
  obtain ⟨pre, post, hpath, hpre, hfree, hpost⟩ := (token_eq_iff hne).mp rfl
  refine ⟨pre, post, hpath, hpre, hpost, ?_⟩
  obtain ⟨c, w, hw⟩ : ∃ c w, firstComponent path = c :: w := List.exists_cons_of_ne_nil hne
  have hc : ¬c ∈ bytes "/" := hfree c (by rw [hw]; exact List.mem_cons_self)
  have hdrop : (path.drop 1).dropWhile (· ∈ bytes "/") = firstComponent path ++ post := by
    rw [hpath, List.dropWhile_append_of_pos (by simpa using hpre)]
    show (firstComponent path ++ post).dropWhile _ = firstComponent path ++ post
    rw [hw, List.cons_append, List.dropWhile_cons_of_neg (by simpa using hc)]
  rw [hdrop, List.append_right_eq_self]

theorem slash_mem_delimiters (stack : Stack) {c : UInt8} (h : c ∈ bytes "/") :
    c ∈ stack.delimiters := List.mem_append_left _ h

/-- A component is found exactly if it is kept. -/
theorem delimited_firstComponent_iff {path : List UInt8} (hne : firstComponent path ≠ [])
    (stack : Stack) :
    Delimited (· ∈ stack.delimiters) (firstComponent path) (path.drop 1 ++ stack.behind path) ↔
      Kept stack path (firstComponent path) := by
  obtain ⟨pre, post, hpath, hpre, hpost, hends⟩ := firstComponent_split hne
  have hiff : Delimited (· ∈ stack.delimiters) (firstComponent path)
      (pre ++ (firstComponent path ++ post) ++ stack.behind path) ↔ _ :=
    delimited_append_iff hne (fun c => slash_mem_delimiters stack) hpre hpost
  rw [← hpath, ← hends] at hiff
  exact hiff.trans ⟨fun h => ⟨h.1, h.2⟩, fun h => ⟨h.1, h.2⟩⟩

theorem delimited_unique {sep : UInt8 → Prop} [DecidablePred sep] {w w' l : List UInt8}
    (hw : w ≠ []) (hw' : w' ≠ []) (h : Delimited sep w l) (h' : Delimited sep w' l) : w = w' :=
  ((token_eq_iff hw).mpr h).symm.trans ((token_eq_iff hw').mpr h')

theorem classified_iff {path : List UInt8} (hnul : 0 ∉ path) (stack : Stack) :
    Classified stack path ↔ Unseen stack path := by
  obtain ⟨hstatic, hdynamic⟩ := determineFileType_iff hnul stack
  have hdiffer : bytes "static" ≠ bytes "dynamic" := by decide
  have hiff : Classified stack path ↔ ∀ w, Known w →
      (Delimited (· ∈ stack.delimiters) w (path.drop 1 ++ stack.behind path) ↔
        firstComponent path = w) := by
    constructor
    · rintro h w (rfl | rfl)
      · rw [← hstatic, h.static]
      · rw [← hdynamic, h.dynamic]
    · intro h
      refine ⟨?_, ?_⟩
      · rw [hstatic, h _ (Or.inl rfl)]
      · rw [hdynamic, h _ (Or.inr rfl)]
  rw [hiff, Unseen]
  split_ifs with hknown
  · rw [← delimited_firstComponent_iff hknown.ne_nil]
    refine ⟨fun h => (h _ hknown).mpr rfl, fun hfound w hw => ⟨fun h => ?_, ?_⟩⟩
    · exact delimited_unique hknown.ne_nil hw.ne_nil hfound h
    · rintro rfl
      exact hfound
  · refine forall₂_congr fun w hw => ?_
    have hother : firstComponent path ≠ w := by
      rintro rfl
      exact hknown hw
    exact ⟨fun h hfound => hother (h.mp hfound), fun h => iff_of_false h hother⟩

/-- For every path and any two contents of the stack: the types are the same and that of the path,
exactly if neither content shows. -/
theorem classification_iff {path : List UInt8} (hnul : 0 ∉ path) (stack₁ stack₂ : Stack) :
    determineFileType stack₁ path = determineFileType stack₂ path ∧ Classified stack₁ path ∧
        Classified stack₂ path ↔
      Unseen stack₁ path ∧ Unseen stack₂ path := by
  rw [classified_iff hnul, classified_iff hnul, and_iff_right_iff_imp]
  rintro ⟨h₁, h₂⟩
  have hclassified₁ := (classified_iff hnul stack₁).mpr h₁
  have hclassified₂ := (classified_iff hnul stack₂).mpr h₂
  rcases determineFileType_cases stack₁ path with h | h | h
  · rw [h, hclassified₂.static.mpr (hclassified₁.static.mp h)]
  · rw [h, hclassified₂.dynamic.mpr (hclassified₁.dynamic.mp h)]
  · rcases determineFileType_cases stack₂ path with h' | h' | h'
    · rw [h', hclassified₁.static.mpr (hclassified₂.static.mp h')]
    · rw [h', hclassified₁.dynamic.mpr (hclassified₂.dynamic.mp h')]
    · rw [h, h']

theorem classification_iff_static :
    determineFileType ⟨[], []⟩ (bytes "/static/a") =
          determineFileType ⟨List.replicate 16 120, bytes "x"⟩ (bytes "/static/a") ∧
        Classified ⟨[], []⟩ (bytes "/static/a") ∧
        Classified ⟨List.replicate 16 120, bytes "x"⟩ (bytes "/static/a") ↔
      Unseen ⟨[], []⟩ (bytes "/static/a") ∧
        Unseen ⟨List.replicate 16 120, bytes "x"⟩ (bytes "/static/a") :=
  classification_iff (by decide) _ _

/-- With a path that ends with its first component, the next byte of the stack decides. -/
theorem type_depends_on_stack :
    determineFileType ⟨List.replicate 8192 0, [0]⟩ (bytes "/static") = static ∧
      determineFileType ⟨List.replicate 8192 120, [0]⟩ (bytes "/static") = fileNotFound ∧
      firstComponent (bytes "/static") = bytes "static" := by
  decide +kernel

/-- Had the copy and the delimiter been ended, the type would be right. -/
theorem unseen_of_ended {stack : Stack} {path : List UInt8} (hbehind : stack.behind path = [])
    (hdelimiters : stack.delimiters = bytes "/") : Unseen stack path := by
  rw [Unseen, hdelimiters, hbehind, List.append_nil]
  split_ifs with hknown
  · obtain ⟨-, -, -, -, hfree, -⟩ := (token_eq_iff hknown.ne_nil).mp rfl
    refine ⟨fun c hc => ?_, fun _ c hc => ?_⟩
    · rw [hdelimiters]
      exact hfree c hc
    · rw [hbehind] at hc
      cases hc
  · intro w hw hdelimited
    obtain rfl : firstComponent path = w := (token_eq_iff hw.ne_nil).mpr hdelimited
    exact hknown hw

/-- The path of a request has no NUL. -/
theorem not_mem_cString (array : List UInt8) : 0 ∉ cString array := by
  intro hmem
  have hne := List.mem_takeWhile_imp hmem
  simp at hne

theorem handled_eq {parser : Parser} {conn conn' : Connection} {answers : RequestAnswers}
    (h : (handleClientRequest parser conn answers).result = .ok (some conn')) :
    conn' = (conn.received (answers.recv.getD [])).prepared answers
      (requestPath parser (answers.recv.getD [])) := by
  by_cases hfails : answers.Fails
  · rw [handleClientRequest_fails parser hfails] at h
    exact nomatch (ensures_removeConnection conn answers.epollCtl).value _ h
  · obtain ⟨hpeer, message, hrecv, hne⟩ := RequestAnswers.received_of_not_fails hfails
    rcases Int.lt_or_le answers.epollCtl 0 with hneg | hok
    · rw [handleClientRequest_die hpeer hrecv hne parser conn hneg] at h
      cases h
    · rw [handleClientRequest_eq hpeer hrecv hne parser conn hok] at h
      rw [hrecv]
      exact (Option.some.inj (Except.ok.inj h)).symm

theorem prepared_path (conn : Connection) (answers : RequestAnswers) {path : List UInt8}
    (hne : path ≠ []) : (conn.prepared answers path).path = connectionPath path := by
  rw [Connection.prepared, Connection.located, if_neg hne, setConnectionSendBuffer]
  split_ifs <;> rfl

/-- A request while there is one file of one byte. -/
def oneFile (name message : List UInt8) : RequestAnswers :=
  ⟨0, some message, ⟨[], []⟩, fun n => if n = name then 7 else -1, fun _ => 1, 0⟩

theorem oneFile_handled (name : List UInt8) {message : List UInt8} (hne : message ≠ []) :
    (handleClientRequest getParser (connectionCreate clearedMemory 5)
      (oneFile name message)).result = .ok (some
        (((connectionCreate clearedMemory 5).received message).prepared (oneFile name message)
          (requestPath getParser message))) :=
  congrArg Logged.result
    (handleClientRequest_eq (Int.le_refl 0) rfl hne getParser _ (Int.le_refl 0))

end OsHomeworks.WebServer
