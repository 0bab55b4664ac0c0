import OsHomeworks.HttpParserStreams

/-! Which words the HTTP parser takes for a method, and which lines for which headers. -/

namespace OsHomeworks.WebServer.HttpParser

open CallLog CallLog.Logged MarkedStream

variable {settings : HttpParser → Int} {V : View HttpParser DataKind} {p q : HttpParser} {ch : UInt8}

/-- The methods that are compared by way of `CONNECT` or `MKCOL`, of which other words are taken too. -/
def loose : List HttpMethod := [.connect, .mkcol, .copy, .mkactivity]

/-- The word so far is what the method begins with, its first character at least. -/
structure Spelling (m : HttpMethod) (w : List UInt8) : Prop where
  first : w.take 1 = m.string.take 1
  all : m ∉ loose → w = m.string.take w.length

theorem some_of_ite {α : Type} {c : Prop} [Decidable c] {a m : α} {o : Option α}
    (h : (if c then some a else o) = some m) : c ∧ a = m ∨ ¬c ∧ o = some m := by
  by_cases hc : c
  · rw [if_pos hc] at h
    exact Or.inl ⟨hc, Option.some.inj h⟩
  · rw [if_neg hc] at h
    exact Or.inr ⟨hc, h⟩

theorem firstMethod_spelling {m : HttpMethod} (h : firstMethod ch = some m) : Spelling m [ch] := by
  unfold firstMethod at h
  iterate 13
    rcases some_of_ite h with ⟨rfl, rfl⟩ | ⟨-, h⟩
    · exact ⟨rfl, fun _ => rfl⟩
  cases h

/-- Another method begins with the same characters. -/
theorem otherMethod_spelling {m : HttpMethod} {w : List UInt8} (h : otherMethod p ch = some m)
    (hw : Spelling p.method w) (hindex : p.index = w.length) (hne : w ≠ []) : Spelling m (w ++ [ch]) := by
  have hfirst : (w ++ [ch]).take 1 = p.method.string.take 1 := by
    rw [List.take_append_of_le_length (List.length_pos_of_ne_nil hne)]
    exact hw.first
  have hloose : m ∈ loose → m.string.take 1 = p.method.string.take 1 → Spelling m (w ++ [ch]) :=
    fun hmem hsame => ⟨hfirst.trans hsame.symm, fun hnot => absurd hmem hnot⟩
  -- the word so far where its length is known
  have hexact : ∀ n m', p.method = m' → p.index = n → n = 1 ∨ m' ∉ loose → w = m'.string.take n := by
    rintro n m' rfl hn (rfl | hnot)
    · rw [← hw.first, List.take_of_length_le (Nat.le_of_eq (hindex.symm.trans hn))]
    · rw [← hn, hindex]
      exact hw.all hnot
  have hother : ∀ n m', p.method = m' → p.index = n → (n = 1 ∨ m' ∉ loose) →
      m'.string.take n ++ [ch] = m.string.take (n + 1) → Spelling m (w ++ [ch]) := by
    intro n m' hm hn hcases hsame
    rw [hexact n m' hm hn hcases, hsame]
    refine ⟨?_, fun _ => ?_⟩
    · rw [List.take_take, Nat.min_eq_left (Nat.le_add_left 1 n)]
    · rw [List.length_take]
      exact List.take_eq_take_iff.mpr (by omega)
  unfold otherMethod at h
  split_ifs at h with hconnect hH hP hmkcol hO hE hdash hA hR hU hS hpatch <;> cases h
  · exact hother 1 _ hconnect hH.1 (by decide) (hH.2 ▸ by decide)
  · exact hloose (by decide) (hconnect ▸ by decide)
  · exact hloose (hconnect ▸ by decide) rfl
  · exact hother 1 _ hmkcol hO.1 (by decide) (hO.2 ▸ by decide)
  · exact hother 1 _ hmkcol hE.1 (by decide) (hE.2 ▸ by decide)
  · exact hother 1 _ hmkcol hdash.1 (by decide) (hdash.2 ▸ by decide)
  · exact hloose (by decide) (hmkcol ▸ by decide)
  · exact hloose (hmkcol ▸ by decide) rfl
  · exact hother 1 _ hR.2.1 hR.1 (by decide) (hR.2.2 ▸ by decide)
  · exact hother 1 _ hU.2.1 hU.1 (by decide) (hU.2.2 ▸ by decide)
  · exact hother 2 _ hS.2.1 hS.1 (by decide) (hS.2.2 ▸ by decide)
  · exact hother 4 _ hpatch.2.1 hpatch.1 (by decide) (hpatch.2.2 ▸ by decide)

/-- The character a word is compared with, or the NUL behind them. -/
theorem string_get {m : HttpMethod} {i : ℕ} {c : UInt8} (h : (m.string ++ [0])[i]? = some c) :
    c ≠ 0 ∧ m.string.take i ++ [c] = m.string.take (i + 1) ∨ c = 0 ∧ i = m.string.length := by
  rcases Nat.lt_or_ge i m.string.length with hlt | hge
  · rw [List.getElem?_append_left hlt, List.getElem?_eq_getElem hlt] at h
    obtain rfl := Option.some.inj h
    refine Or.inl ⟨fun hzero => ?_, (List.take_succ_eq_append_getElem hlt).symm⟩
    have hnul : (0 : UInt8) ∉ m.string := by
      cases m <;> decide
    exact hnul (hzero ▸ List.getElem_mem hlt)
  · obtain rfl : i = m.string.length := by
      have hlast := (List.getElem?_eq_some_iff.mp h).1
      rw [List.length_append] at hlast
      exact Nat.le_antisymm (Nat.le_of_lt_succ hlast) hge
    rw [List.getElem?_concat_length] at h
    exact Or.inr ⟨(Option.some.inj h).symm, rfl⟩

/-- One more character of a word. -/
theorem reqMethod_spelling {w : List UInt8} (hstate : p.state = .reqMethod) (hw : Spelling p.method w)
    (hindex : p.index = w.length) (hne : w ≠ []) (hnext : (reqMethod p ch).next = .ok q) :
    q.state = .reqSpacesBeforeUrl ∧ ch = chr ' ' ∧ (q.method ∉ loose → w = q.method.string) ∨
      q.state = .reqMethod ∧ Spelling q.method (w ++ [ch]) ∧ q.index = (w ++ [ch]).length := by
  have hlonger : p.index + 1 = (w ++ [ch]).length := by
    rw [List.length_append, hindex]
    rfl
  have hfirst : (w ++ [ch]).take 1 = p.method.string.take 1 := by
    rw [List.take_append_of_le_length (List.length_pos_of_ne_nil hne)]
    exact hw.first
  unfold reqMethod at hnext
  split_ifs at hnext with hzero
  · cases hnext
  cases hc : (p.method.string ++ [0])[p.index]? with
  | none =>
      rw [hc] at hnext
      cases hnext
  | some c =>
      rw [hc] at hnext
      dsimp only at hnext
      split_ifs at hnext with hend hsame
      · obtain rfl := Except.ok.inj hnext
        refine Or.inl ⟨rfl, hend.1, fun hnot => ?_⟩
        rcases string_get hc with ⟨hne', -⟩ | ⟨-, hlength⟩
        · exact absurd hend.2 hne'
        · have hall := hw.all hnot
          rw [← hindex, hlength, List.take_length] at hall
          exact hall
      · obtain rfl := Except.ok.inj hnext
        refine Or.inr ⟨hstate, ⟨hfirst, fun hnot => ?_⟩, hlonger⟩
        rcases string_get hc with ⟨-, hmore⟩ | ⟨hnul, -⟩
        · rw [← hlonger, ← hmore, hsame, hindex, ← hw.all hnot]
        · exact absurd (hsame.trans hnul) hzero
      · cases hother : otherMethod p ch with
        | none =>
            rw [hother] at hnext
            cases hnext
        | some m =>
            rw [hother] at hnext
            obtain rfl := Except.ok.inj hnext
            exact Or.inr ⟨hstate, otherMethod_spelling hother hw hindex hne, hlonger⟩

theorem reqMethod_turn (settings : HttpParser → Int) (hstate : p.state = .reqMethod) (b : UInt8) :
    bare settings p 1 b = reqMethod p b := by
  have hcase : plainCase p 1 b = reqMethod p b := by
    unfold plainCase
    rw [hstate]
  rw [bare_plain (by rw [hstate]; decide), hcase]

theorem startReq_turn (settings : HttpParser → Int) (hstate : p.state = .startReq) (b : UInt8) :
    bare settings p 1 b = startReq p b := by
  have hcase : plainCase p 1 b = startReq p b := by
    unfold plainCase
    rw [hstate]
  rw [bare_plain (by rw [hstate]; decide), hcase]

/-- A word that is taken for a method from its second character on. -/
theorem word_spelling (settings : HttpParser → Int) {w rest : List UInt8} (hstate : p.state = .reqMethod) (hw : Spelling p.method w)
    (hindex : p.index = w.length) (hne : w ≠ []) (hrest : chr ' ' ∉ rest) (i : ℕ)
    (hend : (content (bare settings) V i p (rest ++ [chr ' '])).result = .ok q)
    (hq : q.state = .reqSpacesBeforeUrl) (hnot : q.method ∉ loose) : w ++ rest = q.method.string := by
  induction rest generalizing p w i with
  | nil =>
      rw [List.append_nil]
      cases hnext : (reqMethod p (chr ' ')).next with
      | error stop =>
          rw [List.nil_append, content_cons_error (by rw [reqMethod_turn settings hstate]; exact hnext)] at hend
          cases hend
      | ok r =>
          rw [List.nil_append, content_cons_ok (by rw [reqMethod_turn settings hstate]; exact hnext)] at hend
          obtain rfl := Except.ok.inj hend
          rcases reqMethod_spelling hstate hw hindex hne hnext with ⟨-, -, hspelled⟩ | ⟨hr, -⟩
          · exact hspelled hnot
          · rw [hr] at hq
            cases hq
  | cons b rest ih =>
      obtain ⟨hb, hmore⟩ := not_or.mp (mt List.mem_cons.mpr hrest)
      cases hnext : (reqMethod p b).next with
      | error stop =>
          rw [List.cons_append, content_cons_error (by rw [reqMethod_turn settings hstate]; exact hnext)] at hend
          cases hend
      | ok r =>
          rw [List.cons_append, content_cons_ok (by rw [reqMethod_turn settings hstate]; exact hnext), emit_bind] at hend
          rcases reqMethod_spelling hstate hw hindex hne hnext with ⟨-, hblank, -⟩ | ⟨hr, hspelling, hlength⟩
          · exact absurd hblank.symm hb
          · rw [List.append_cons]
            exact ih hr hspelling hlength (by simp) hmore _ hend

/-- A word that is taken for a method, with the empty lines in front of it. -/
theorem method_spelling {w : List UInt8} (hp : Ready p) (hw : chr ' ' ∉ w) (i : ℕ)
    (hend : (content (bare settings) V i p (w ++ [chr ' '])).result = .ok q)
    (hq : q.state = .reqSpacesBeforeUrl) (hnot : q.method ∉ loose) :
    ∃ lines, (∀ b ∈ lines, b = cr ∨ b = lf) ∧ w = lines ++ q.method.string := by
  induction w generalizing i with
  | nil =>
      rw [List.nil_append, content_cons_error (e := ⟨.error, p.beginMessage⟩)
        (by rw [startReq_turn settings hp.state]; rfl)] at hend
      cases hend
  | cons b w ih =>
      obtain ⟨hb, hmore⟩ := not_or.mp (mt List.mem_cons.mpr hw)
      by_cases hline : b = cr ∨ b = lf
      · have hstay : (bare settings p 1 b).next = .ok p := by
          rw [startReq_turn settings hp.state, startReq, if_pos hline]
          rfl
        rw [List.cons_append, content_cons_ok hstay, emit_bind] at hend
        obtain ⟨lines, hlines, hword⟩ := ih hmore (i + 1) hend
        exact ⟨b :: lines, List.forall_mem_cons.mpr ⟨hline, hlines⟩, congrArg (b :: ·) hword⟩
      · cases hnext : (startReq p b).next with
        | error stop =>
            rw [List.cons_append, content_cons_error (by rw [startReq_turn settings hp.state]; exact hnext)] at hend
            cases hend
        | ok r =>
            rw [List.cons_append, content_cons_ok (by rw [startReq_turn settings hp.state]; exact hnext),
              emit_bind] at hend
            rw [startReq, if_neg hline] at hnext
            dsimp only at hnext
            split_ifs at hnext with hupper
            · cases hnext
            unfold startReqMethodAssign at hnext
            cases hfirst : firstMethod b with
            | none =>
                rw [hfirst] at hnext
                cases hnext
            | some m =>
                rw [hfirst] at hnext
                obtain rfl := Except.ok.inj hnext
                have hspelled := word_spelling settings (w := [b]) rfl (firstMethod_spelling hfirst)
                  rfl (List.cons_ne_nil _ _) hmore (i + 1) hend hq hnot
                exact ⟨[], nofun, hspelled⟩

/-- A method is taken if and only if it is one of the words, but for the methods that are compared by way
of `CONNECT` or `MKCOL`. -/
theorem method_words (settings : HttpParser → Int) (memory : Counted) (hindex : memory.index < 256)
    (hlength : memory.contentLength < 2 ^ 64) (m : HttpMethod) (hm : m ∉ loose) (w : List UInt8)
    (hw : chr ' ' ∉ w) (pieces : List (List UInt8)) (hpieces : Pieces pieces)
    (hflatten : pieces.flatten = w ++ [chr ' ']) :
    let e := executeAll settings 0 (init memory .request) pieces
    (e.stop = none ∧ e.parser.state = .reqSpacesBeforeUrl ∧ e.parser.method = m) ↔
      ∃ lines, (∀ b ∈ lines, b = cr ∨ b = lf) ∧ w = lines ++ m.string := by
  intro e
  have hparts : Viewed parts := .inl rfl
  have hready := ready_init memory
  constructor
  · rintro ⟨hstop, hstate, hmethod⟩
    have hends := (executeAll_stream settings hparts (steady_init memory .request hindex hlength)
      (by decide : 0 < 256) hpieces 0).1
    unfold Ends stream at hends
    rw [hflatten] at hends
    cases hend : (content (bare settings) parts 0 (init memory .request).toHttpParser (w ++ [chr ' '])).result with
    | error stop =>
        rw [hend] at hends
        have hnone := hstop.symm.trans hends.1
        cases hnone
    | ok q =>
        rw [hend] at hends
        obtain ⟨-, -, rfl⟩ := hends
        rw [← hmethod]
        exact method_spelling hready hw 0 hend hstate (hmethod ▸ hm)
  · rintro ⟨lines, hlines, rfl⟩
    have hempty := reads_quiet (V := parts) (p := (init memory .request).toHttpParser)
      (w := lines) settings hparts rfl (by rw [hready.state]; decide) fun b hb => by
        rw [startReq_turn settings hready.state, startReq, if_pos (hlines b hb)]
    have hreads := hempty.append (method_reads settings hparts hready m)
    rw [← List.append_assoc, ← hflatten] at hreads
    obtain ⟨hstop, -, hparser, -⟩ := executeAll_reads hindex hlength hpieces hparts hreads
    exact ⟨hstop, congrArg HttpParser.state hparser, congrArg HttpParser.method hparser⟩

theorem method_words_put :
    let e := executeAll (fun _ => 0) 0 (init someMemory .request) [[cr, lf], bytes "PU", bytes "T "]
    (e.stop = none ∧ e.parser.state = .reqSpacesBeforeUrl ∧ e.parser.method = .put) ↔
      ∃ lines, (∀ b ∈ lines, b = cr ∨ b = lf) ∧ [cr, lf] ++ bytes "PUT" = lines ++ HttpMethod.put.string :=
  method_words (fun _ => 0) someMemory (by decide) (by decide) .put (by decide) _ (by decide) _ (by decide)
    (by decide)

/-- The first character that does not belong to a number. -/
theorem not_numeric {v : List UInt8} (h : ¬Numeric v) :
    ∃ good b rest, v = good ++ b :: rest ∧ Numeric good ∧ b ≠ chr ' ' ∧ digit b = none := by
  induction v with
  | nil => exact absurd (fun _ hb => absurd hb List.not_mem_nil) h
  | cons b v ih =>
      by_cases hb : b = chr ' ' ∨ (digit b).isSome = true
      · have hv : ¬Numeric v := fun hv => h (List.forall_mem_cons.mpr ⟨hb, hv⟩)
        obtain ⟨good, a, rest, rfl, hgood, hbad⟩ := ih hv
        exact ⟨b :: good, a, rest, rfl, List.forall_mem_cons.mpr ⟨hb, hgood⟩, hbad⟩
      · obtain ⟨hblank, hdigit⟩ := not_or.mp hb
        exact ⟨[], b, v, rfl, fun _ hb => absurd hb List.not_mem_nil, hblank,
          Option.not_isSome_iff_eq_none.mp hdigit⟩

theorem number_eq_none {h : Header} (hnone : h.meaning = none) :
    trimmed (h.name.map token) ∈ known .contentLength ∧ h.value ≠ [] ∧ ¬Numeric h.value := by
  unfold Header.meaning number at hnone
  dsimp only at hnone
  split_ifs at hnone with hempty hlength hnumeric
  all_goals first | exact ⟨‹_›, ‹_›, ‹_›⟩ | cases hnone

/-- A header that the parser does not take stops it. -/
theorem header_stops (settings : HttpParser → Int) (hV : Viewed V) (h : Header)
    (hstate : p.state = .headerFieldStart) (hnone : h.meaning = none) :
    ∃ w b rest ts q, h.line = w ++ b :: rest ∧ Reads (bare settings) V p w ts q ∧
      ∃ stop : Stop, (bare settings q 1 b).next = .error stop ∧ stop.kind = .error := by
  obtain ⟨hlength, hne, hnumeric⟩ := number_eq_none hnone
  obtain ⟨i, hs, hfront, hknown⟩ := front_reads (V := V) settings hV h hstate
  obtain rfl := (hknown .contentLength (by decide)).mpr hlength
  obtain ⟨good, b, rest, hvalue, hgood, hblank, hdigit⟩ := not_numeric hnumeric
  have hplain : b ≠ cr ∧ b ≠ lf := h.value_line b (hvalue ▸ List.mem_append_right _ List.mem_cons_self)
  have hline : h.line = (h.front ++ good) ++ b :: (rest ++ [cr, lf]) := by
    rw [h.line_eq, hvalue]
    simp
  let r : HttpParser := { p with state := .headerValueStart, index := i, headerState := .contentLength }
  cases good with
  | nil =>
      have hturn : bare settings r 1 b = halt [.mark .headerValue] .error { r with state := .headerValue, index := 0 } := by
        have hstart : startValue { r with state := .headerValue, index := 0 } b = none := by
          simp only [startValue, r, hdigit]
        rw [bare_plain (by dsimp only [r]; decide)]
        show headerValueStart r b = _
        simp only [headerValueStart, if_neg hblank, if_neg hplain.1, if_neg hplain.2, hstart]
      rw [List.append_nil] at hline
      exact ⟨_, b, _, _, r, hline, hfront, _, congrArg Turn.next hturn, rfl⟩
  | cons a good =>
      have ha : a ≠ chr ' ' := h.value_start a (by rw [hvalue]; rfl)
      have hnumber := digits_read (V := V) (p := r) settings hV rfl rfl ha hgood
      have hturn : bare settings { r with
            state := .headerValue, index := 0, contentLength := numeral 0 (a :: good) % 2 ^ 64 } 1 b =
          halt [] .error { r with
            state := .headerValue, index := 0, contentLength := numeral 0 (a :: good) % 2 ^ 64 } := by
        rw [headerValue_turn settings rfl hplain.1 hplain.2]
        simp only [matchValue, r, if_neg hblank, hdigit]
      exact ⟨_, b, _, _, _, hline, hfront.append hnumber, _, congrArg Turn.next hturn, rfl⟩

/-- Between two calls `nread` fits in its field. -/
theorem executeAll_nread (settings : HttpParser → Int) {c : Counted} (hc : c.nread < 256) (p : ℕ)
    (pieces : List (List UInt8)) (hstop : (executeAll settings p c pieces).stop = none) :
    (executeAll settings p c pieces).parser.nread < 256 := by
  induction pieces generalizing p c with
  | nil => exact hc
  | cons data pieces ih =>
      rw [executeAll] at hstop ⊢
      by_cases hne : data = []
      · obtain ⟨events, returned, hcall⟩ := execute_nil settings c
        rw [hne, hcall] at hstop ⊢
        exact ih hc _ hstop
      · cases hresult : (MarkedStream.read (turn settings) opens callbackOrder data c).result with
        | error e =>
            rw [execute_error hne hresult] at hstop
            cases hstop
        | ok d =>
            rw [execute_ok hne hresult] at hstop ⊢
            exact ih (c := save d) (Nat.mod_lt _ (by decide)) _ hstop

/-- In every run, in front of a header, every line of a name and a value does to the parser what the header
means, wherever it is cut; the parser stops if it means nothing. -/
theorem header_lines (settings : HttpParser → Int) (memory : Counted) (type : HttpParserType)
    (hindex : memory.index < 256) (hlength : memory.contentLength < 2 ^ 64) (before : List (List UInt8))
    (hbefore : (executeAll settings 0 (init memory type) before).stop = none ∧
      (executeAll settings 0 (init memory type) before).parser.state = .headerFieldStart)
    (h : Header) (pieces : List (List UInt8)) (hpieces : Pieces pieces) (hflatten : pieces.flatten = h.line) :
    let e := executeAll settings 0 (init memory type) before
    let e' := executeAll settings e.returned e.parser pieces
    match h.meaning with
    | some m => e'.stop = none ∧ ∃ i hs, e'.parser.toHttpParser =
        { m.apply e.parser.toHttpParser with index := i, headerState := hs }
    | none => e'.stop = some .error := by
  intro e e'
  have hparts : Viewed parts := .inl rfl
  have hsteady := (executeAll_regular settings (steady_init memory type hindex hlength) 0 before).2.2
    hbefore.1
  have hnread := executeAll_nread settings (c := init memory type) (by decide : 0 < 256) 0 before hbefore.1
  have hends := (executeAll_stream settings hparts hsteady hnread hpieces e.returned).1
  unfold Ends stream at hends
  cases hm : h.meaning with
  | some m =>
      obtain ⟨i, hs, hreads⟩ := header_reads (V := parts) settings hparts h hbefore.2 hm
      rw [hflatten, hreads] at hends
      exact ⟨hends.1, i, hs, hends.2.2⟩
  | none =>
      obtain ⟨w, b, rest, ts, q, hline, hreads, stop, hstop, hkind⟩ :=
        header_stops (V := parts) settings hparts h hbefore.2 hm
      rw [hflatten, hline, hreads.stopped hstop] at hends
      exact hends.1.trans (congrArg some hkind)

/-- A length behind two blanks, in two pieces. -/
theorem header_lines_length :
    let h : Header :=
      headerOf (bytes "Content-Length ") 2 (bytes "1 2") (by decide)
    let e := executeAll (fun _ => 0) 0 (init someMemory .request) [bytes "PUT / HTTP/1.1\r\n"]
    let e' := executeAll (fun _ => 0) e.returned e.parser [h.line.take 10, h.line.drop 10]
    match h.meaning with
    | some m => e'.stop = none ∧ ∃ i hs, e'.parser.toHttpParser =
        { m.apply e.parser.toHttpParser with index := i, headerState := hs }
    | none => e'.stop = some .error :=
  header_lines (fun _ => 0) someMemory .request (by decide) (by decide) _ (by decide)
    (headerOf (bytes "Content-Length ") 2 (bytes "1 2") (by decide)) _ (by decide) (by decide)

end OsHomeworks.WebServer.HttpParser
