import OsHomeworks.HttpParserRuns
import Mathlib.Data.List.DropRight

/-! How the HTTP parser reads a header: which names it knows, and what it makes of their values. -/

namespace OsHomeworks.WebServer.HttpParser

open CallLog CallLog.Logged MarkedStream

variable {settings : HttpParser → Int} {V : View HttpParser DataKind} {p q : HttpParser} {ch : UInt8}

/-- The bytes of a part as far as it is in view. -/
def part (V : View HttpParser DataKind) (k : DataKind) (bytes : List UInt8) :
    List (Token DataKind Notice) := if V.see k then bytes.map (.byte k) else []

theorem part_append (k : DataKind) (bytes bytes' : List UInt8) :
    part V k (bytes ++ bytes') = part V k bytes ++ part V k bytes' := by
  unfold part
  split_ifs
  · exact List.map_append
  · rfl

theorem part_nil (k : DataKind) : part V k [] = [] := by
  unfold part
  split_ifs <;> rfl

/-- What is open in a state, of which one part may be in view. -/
theorem Viewed.here (hV : Viewed V) (b : UInt8) :
    MarkedStream.here (ν := Notice) (V.track p) b =
      (match p.state.part with
        | some k => part V k [b]
        | none => []) ++
      (if p.state ∈ inUrl then part V .url [b] else []) := by
  rcases hV with rfl | rfl
  · show MarkedStream.here p.state.part b = _
    cases hs : p.state <;> rfl
  · show MarkedStream.here p.state.url b = _
    cases hs : p.state <;> rfl

theorem bare_plain (hplain : p.state ∉ [State.headerFieldStart, .headersAlmostDone, .chunkSizeStart,
    .chunkSizeAlmostDone]) : bare settings p 1 ch = plainCase p 1 ch := by
  unfold bare
  rw [(switch_plain settings 1 1 ch hplain).1, forget_keep]

theorem reads_go {actions : List (Action DataKind Notice)} (h : bare settings p 1 ch = go actions q) :
    Reads (bare settings) V p [ch] (notes V.see [ch] actions ++ MarkedStream.here (V.track q) ch) q := by
  have hone := reads_one (M := bare settings) (V := V) (s := p) (b := ch) (congrArg Turn.next h)
  rw [h] at hone
  exact hone

/-- A text without the blanks behind it. -/
def trimmed (w : List UInt8) : List UInt8 := w.rdropWhile (· = chr ' ')

/-- A name that is followed by blanks at most. -/
def Spaced (literal w : List UInt8) : Prop := trimmed w = literal

instance (literal w : List UInt8) : Decidable (Spaced literal w) := inferInstanceAs (Decidable (_ = _))

/-- The names that the parser knows, in lower case. -/
def known : HeaderState → List (List UInt8)
  | .connection => [bytes "connection", bytes "proxy-connection"]
  | .contentLength => [bytes "content-length"]
  | .transferEncoding => [bytes "transfer-encoding"]
  | .upgrade => [bytes "upgrade"]
  | _ => []

/-- The literal with which the name is compared. -/
def HeaderState.literal : HeaderState → List UInt8
  | .matchingConnection => bytes "connection"
  | .matchingProxyConnection => bytes "proxy-connection"
  | .matchingContentLength => bytes "content-length"
  | .matchingTransferEncoding => bytes "transfer-encoding"
  | .matchingUpgrade => bytes "upgrade"
  | _ => []

/-- What the comparison says about the name so far, in lower case. -/
def Compared (w : List UInt8) (index : ℕ) : HeaderState → Prop
  | .general => True
  | .C => w = bytes "c" ∧ index = 0
  | .CO => w = bytes "co" ∧ index = 1
  | .CON => w = bytes "con" ∧ index = 2
  | .connection => ∃ literal ∈ known .connection, Spaced literal w
  | .contentLength => ∃ literal ∈ known .contentLength, Spaced literal w
  | .transferEncoding => ∃ literal ∈ known .transferEncoding, Spaced literal w
  | .upgrade => ∃ literal ∈ known .upgrade, Spaced literal w
  | hs => w = hs.literal.take (index + 1) ∧ index + 1 < hs.literal.length

theorem trimmed_blank (w : List UInt8) : trimmed (w ++ [chr ' ']) = trimmed w :=
  List.rdropWhile_concat_pos _ _ _ (decide_eq_true rfl)

theorem trimmed_other {ch : UInt8} (h : ch ≠ chr ' ') (w : List UInt8) : trimmed (w ++ [ch]) = w ++ [ch] :=
  List.rdropWhile_concat_neg _ _ _ fun hblank => h (of_decide_eq_true hblank)

theorem trimmed_append (w : List UInt8) : ∃ k, w = trimmed w ++ List.replicate k (chr ' ') := by
  induction w using List.reverseRecOn with
  | nil => exact ⟨0, rfl⟩
  | append_singleton w ch ih =>
      by_cases hblank : ch = chr ' '
      · obtain ⟨k, hk⟩ := ih
        refine ⟨k + 1, ?_⟩
        rw [hblank, trimmed_blank, List.replicate_succ', ← List.append_assoc, ← hk]
      · exact ⟨0, by rw [trimmed_other hblank, List.replicate_zero, List.append_nil]⟩

theorem Spaced.snoc {literal w : List UInt8} (h : Spaced literal w) : Spaced literal (w ++ [chr ' ']) :=
  (trimmed_blank w).trans h

theorem compared_start (c : UInt8) : Compared [c] 0 (headerStateOf c) := by
  unfold headerStateOf
  split_ifs with hc hp ht hu
  · exact ⟨congrArg (· :: []) hc, rfl⟩
  · exact ⟨congrArg (· :: []) hp, by decide⟩
  · exact ⟨congrArg (· :: []) ht, by decide⟩
  · exact ⟨congrArg (· :: []) hu, by decide⟩
  · trivial

theorem literal_get {literal : List UInt8} {i : ℕ} (h : i < literal.length) :
    (literal ++ [0]).getD i 0 = literal[i] := by
  rw [List.getD_eq_getElem?_getD, List.getElem?_append_left h, List.getElem?_eq_getElem h]
  rfl

/-- One more character of a literal: it does not fit, it is the last one, or there are more. -/
theorem matching_literal {literal w : List UInt8} (found : HeaderState) (c : UInt8)
    (hw : w = literal.take (p.index + 1)) (hindex : p.index + 1 < literal.length) :
    ∃ hs, matching literal found p c = { p with index := p.index + 1, headerState := hs } ∧
      (hs = .general ∧ w ++ [c] ≠ literal.take (p.index + 2) ∨ hs = found ∧ w ++ [c] = literal ∨
        hs = p.headerState ∧ w ++ [c] = literal.take (p.index + 2) ∧ p.index + 2 < literal.length) := by
  have htake : literal.take (p.index + 2) = w ++ [literal[p.index + 1]] := by
    rw [hw, List.take_succ_eq_append_getElem hindex]
  unfold matching
  dsimp only
  rw [literal_get hindex, htake]
  split_ifs with hother hlast
  · refine ⟨_, rfl, Or.inl ⟨rfl, fun hsame => ?_⟩⟩
    obtain hlong | hne := hother
    · omega
    · exact hne (List.cons.inj (List.append_cancel_left hsame)).1
  · refine ⟨_, rfl, Or.inr (Or.inl ⟨rfl, ?_⟩)⟩
    rw [not_not.mp (not_or.mp hother).2, ← htake, List.take_of_length_le (by omega)]
  · refine ⟨_, rfl, Or.inr (Or.inr ⟨rfl, ?_, by omega⟩)⟩
    rw [not_not.mp (not_or.mp hother).2]

theorem compared_known {hs : HeaderState} {literal : List UInt8} (h : literal ∈ known hs) (i : ℕ) :
    Compared literal i hs := by
  have hself : ∀ literal ∈ known hs, Spaced literal literal := by
    cases hs <;> decide
  cases hs
  case connection | contentLength | transferEncoding | upgrade => exact ⟨literal, h, hself literal h⟩
  all_goals cases h

/-- One more character of a name. -/
theorem compared_matchName {w : List UInt8} (h : Compared w p.index p.headerState)
    (hq : matchName p ch (token ch) = some q) :
    Compared (w ++ [token ch]) q.index q.headerState := by
  have hmatching : ∀ {literal : List UInt8} (found : HeaderState),
      w = literal.take (p.index + 1) ∧ p.index + 1 < literal.length →
      literal ∈ known found →
      (∀ i v, v = literal.take (i + 1) ∧ i + 1 < literal.length → Compared v i p.headerState) →
      Compared (w ++ [token ch]) (matching literal found p (token ch)).index
        (matching literal found p (token ch)).headerState := by
    rintro literal found ⟨hw, hindex⟩ hfound hmore
    obtain ⟨hs, heq, ⟨rfl, -⟩ | ⟨rfl, hlast⟩ | ⟨rfl, hnext⟩⟩ := matching_literal found (token ch) hw hindex
    · rw [heq]
      trivial
    · rw [heq, hlast]
      exact compared_known hfound _
    · rw [heq]
      exact hmore _ _ hnext
  have hspaced : ∀ {states : List (List UInt8)}, (∃ literal ∈ states, Spaced literal w) → ch = chr ' ' →
      ∃ literal ∈ states, Spaced literal (w ++ [token ch]) := by
    rintro states ⟨literal, hmem, hw⟩ rfl
    exact ⟨literal, hmem, hw.snoc⟩
  unfold matchName at hq
  cases hs : p.headerState <;> rw [hs] at h hq hmatching
  case general =>
      obtain rfl := Option.some.inj hq
      rw [hs]
      trivial
  case C =>
      obtain rfl := Option.some.inj hq
      dsimp only
      split_ifs with hc
      · rw [h.1, h.2, hc]
        exact ⟨by decide, rfl⟩
      · trivial
  case CO =>
      obtain rfl := Option.some.inj hq
      dsimp only
      split_ifs with hc
      · rw [h.1, h.2, hc]
        exact ⟨by decide, rfl⟩
      · trivial
  case CON =>
      obtain rfl := Option.some.inj hq
      dsimp only
      split_ifs with hn ht
      · rw [h.1, h.2, hn]
        exact ⟨by decide, by decide⟩
      · rw [h.1, h.2, ht]
        exact ⟨by decide, by decide⟩
      · trivial
  case connection | contentLength | transferEncoding | upgrade =>
      obtain rfl := Option.some.inj hq
      split_ifs with hspace
      · trivial
      · rw [hs]
        exact hspaced h (not_not.mp hspace)
  case matchingConnection | matchingProxyConnection | matchingContentLength
      | matchingTransferEncoding | matchingUpgrade =>
      obtain rfl := Option.some.inj hq
      exact hmatching _ h (by decide) fun _ _ hmore => hmore
  all_goals cases hq

/-- What a turn contributes that makes no callbacks and leads to a state with an open part. -/
theorem reads_part {actions : List (Action DataKind Notice)} {k : DataKind} (hV : Viewed V)
    (h : bare settings p 1 ch = go actions q) (hnotes : ∀ bytes, notes V.see bytes actions = [])
    (hpart : q.state.part = some k) (hurl : q.state ∉ inUrl) :
    Reads (bare settings) V p [ch] (part V k [ch]) q := by
  have hgo := reads_go (V := V) h
  rw [hnotes, hV.here, hpart, if_neg hurl, List.append_nil] at hgo
  exact hgo

/-- The same where nothing is open. -/
theorem reads_silent {actions : List (Action DataKind Notice)} (hV : Viewed V)
    (h : bare settings p 1 ch = go actions q) (hnotes : ∀ bytes, notes V.see bytes actions = [])
    (hpart : q.state.part = none) (hurl : q.state ∉ inUrl) :
    Reads (bare settings) V p [ch] [] q := by
  have hgo := reads_go (V := V) h
  rw [hnotes, hV.here, hpart, if_neg hurl] at hgo
  exact hgo

/-- The characters of a name are compared one after the other, in lower case. -/
def matchNames (p : HttpParser) (w : List UInt8) : Option HttpParser :=
  w.foldlM (fun p c => matchName p c c) p

theorem token_blank (ch : UInt8) : token ch = chr ' ' ↔ ch = chr ' ' := by
  constructor
  · intro h
    unfold token at h
    split_ifs at h with hupper
    · have hlow : (chr 'A').toNat ≤ ch.toNat := hupper.1
      have hhigh : ch.toNat ≤ (chr 'Z').toNat := hupper.2
      have hsum := congrArg UInt8.toNat h
      rw [UInt8.toNat_add] at hsum
      have hA : (chr 'A').toNat = 65 := rfl
      have hZ : (chr 'Z').toNat = 90 := rfl
      have hblank : (chr ' ').toNat = 32 := rfl
      have h32 : (32 : UInt8).toNat = 32 := rfl
      omega
    all_goals first | exact h | cases h
  · rintro rfl
    decide

/-- A character of a name counts in lower case only. -/
theorem matchName_token (p : HttpParser) (ch : UInt8) :
    matchName p ch (token ch) = matchName p (token ch) (token ch) := by
  unfold matchName
  simp only [ne_eq, token_blank]

/-- The name of a header, from its second character on. -/
theorem headerField_reads (settings : HttpParser → Int) (hV : Viewed V) {w name : List UInt8}
    (hstate : p.state = .headerField) (hsound : p.headerState ∈ naming ∧ p.index < p.headerState.bound)
    (hw : Compared w p.index p.headerState) (hname : ∀ b ∈ name, token b ≠ 0) :
    ∃ i hs, Reads (bare settings) V p name (part V .headerField name)
        { p with index := i, headerState := hs } ∧
      matchNames p (name.map token) = some { p with index := i, headerState := hs } ∧
      hs ∈ naming ∧ Compared (w ++ name.map token) i hs := by
  induction name generalizing p w with
  | nil =>
      refine ⟨p.index, p.headerState, ?_, rfl, hsound.1, ?_⟩
      · rw [part_nil]
        exact reads_nil p
      · rw [List.map_nil, List.append_nil]
        exact hw
  | cons b name ih =>
      obtain ⟨hb, hrest⟩ := List.forall_mem_cons.mp hname
      obtain ⟨q, hq, hcompares⟩ := matchName_compares b (token b) hsound.1 hsound.2
      have hturn : bare settings p 1 b = go [] q := by
        rw [bare_plain (by rw [hstate]; decide), plainCase, hstate]
        simp only [headerField, hb, hq, ne_eq, not_false_eq_true, if_true]
      have hnext := compared_matchName hw hq
      have hfirst : Reads (bare settings) V p [b] (part V .headerField [b]) q := by
        apply reads_part hV hturn (fun _ => rfl)
        · rw [hcompares.state, hstate]
          rfl
        · rw [hcompares.state, hstate]
          decide
      obtain ⟨i, hs, hreads, hnames, hmem, hend⟩ := ih (hcompares.state.trans hstate)
        ⟨hcompares.mem, hcompares.bound⟩ hnext hrest
      obtain ⟨_, _, rfl⟩ := matchName_eq hq
      refine ⟨i, hs, ?_, ?_, hmem, ?_⟩
      · have hboth := hfirst.append hreads
        rw [← part_append] at hboth
        exact hboth
      · rw [List.map_cons, matchNames, List.foldlM_cons, ← matchName_token, hq]
        exact hnames
      · rw [List.map_cons, List.append_cons]
        exact hend

/-- The parser behind the first character of a name. -/
def startName (p : HttpParser) (c : UInt8) : HttpParser :=
  { p with index := 0, state := .headerField, headerState := headerStateOf c }

/-- A name. -/
theorem name_reads (settings : HttpParser → Int) (hV : Viewed V) {b : UInt8} {rest : List UInt8}
    (hstate : p.state = .headerFieldStart) (hname : ∀ c ∈ b :: rest, token c ≠ 0) :
    ∃ i hs, Reads (bare settings) V p (b :: rest) (part V .headerField (b :: rest))
        { p with state := .headerField, index := i, headerState := hs } ∧
      matchNames (startName p (token b)) (rest.map token) =
        some { p with state := .headerField, index := i, headerState := hs } ∧
      hs ∈ naming ∧ Compared ((b :: rest).map token) i hs := by
  obtain ⟨hb, hrest⟩ := List.forall_mem_cons.mp hname
  have hturn : bare settings p 1 b = go [.mark .headerField] (startName p (token b)) := by
    have hlf : b ≠ lf := fun h => hb (h ▸ by decide)
    have hcr : b ≠ cr := fun h => hb (h ▸ by decide)
    unfold bare switch headerFieldStart
    simp only [hstate, if_neg hlf, if_neg hcr, if_neg hb, forget_keep]
    rfl
  have hfirst := reads_part (V := V) hV hturn (fun _ => rfl) rfl (by decide : State.headerField ∉ inUrl)
  have hmem : headerStateOf (token b) ∈ naming := by
    unfold headerStateOf
    split_ifs <;> decide
  obtain ⟨i, hs, hreads, hnames, hmem', hend⟩ := headerField_reads settings
    (p := startName p (token b)) hV rfl
    ⟨hmem, (headerStateOf (token b)).bound_pos⟩ (compared_start (token b)) hrest
  refine ⟨i, hs, ?_, hnames, hmem', hend⟩
  have hboth := hfirst.append hreads
  rw [← part_append] at hboth
  exact hboth

/-- Blanks behind a name that is known. -/
theorem matchNames_blanks {hs : HeaderState} (hs' : hs ∈
    [HeaderState.connection, .contentLength, .transferEncoding, .upgrade]) (hp : p.headerState = hs) (k : ℕ) :
    matchNames p (List.replicate k (chr ' ')) = some p := by
  induction k with
  | zero => rfl
  | succ k ih =>
      have hone : matchName p (chr ' ') (chr ' ') = some p := by
        unfold matchName
        simp only [List.mem_cons, List.not_mem_nil, or_false] at hs'
        rcases hs' with rfl | rfl | rfl | rfl <;> rw [hp] <;> rfl
      rw [List.replicate_succ, matchNames, List.foldlM_cons, hone]
      exact ih

theorem matchNames_cons {c : UInt8} (h : matchName p c c = some q) (w : List UInt8) :
    matchNames p (c :: w) = matchNames q w := by
  rw [matchNames, List.foldlM_cons, h]
  rfl

/-- The rest of a literal. -/
theorem matchNames_literal {literal : List UInt8} {found hs : HeaderState}
    (hmatching : ∀ p c, p.headerState = hs → matchName p c c = some (matching literal found p c))
    {rest : List UInt8} (hstate : p.headerState = hs) (hrest : literal.drop (p.index + 1) = rest)
    (hne : rest ≠ []) :
    ∃ i, matchNames p rest = some { p with index := i, headerState := found } := by
  induction rest generalizing p with
  | nil => exact absurd rfl hne
  | cons c rest ih =>
      have hindex : p.index + 1 < literal.length := by
        by_contra hlong
        rw [List.drop_of_length_le (Nat.not_lt.mp hlong)] at hrest
        cases hrest
      rw [List.drop_eq_getElem_cons hindex] at hrest
      obtain ⟨rfl, htail⟩ := List.cons.inj hrest
      obtain ⟨hs', heq, ⟨-, hother⟩ | ⟨rfl, hlast⟩ | ⟨rfl, -, hmore⟩⟩ :=
        matching_literal found literal[p.index + 1] rfl hindex
      · exact absurd (List.take_succ_eq_append_getElem hindex).symm hother
      · have hend : literal.length ≤ p.index + 2 := by
          have hlength := congrArg List.length hlast
          rw [List.length_append, List.length_take, List.length_singleton] at hlength
          omega
        have hnil : rest = [] := htail.symm.trans (List.drop_of_length_le hend)
        rw [matchNames_cons ((hmatching p _ hstate).trans (congrArg some heq)), hnil]
        exact ⟨_, rfl⟩
      · rw [matchNames_cons ((hmatching p _ hstate).trans (congrArg some heq))]
        refine ih (p := { p with index := p.index + 1 }) hstate htail ?_
        rintro rfl
        exact absurd (List.drop_eq_nil_iff.mp htail) (Nat.not_le.mpr hmore)

/-- The parser knows the names. -/
theorem known_matchNames {hs : HeaderState} {literal : List UInt8} (h : literal ∈ known hs) (p : HttpParser) :
    ∃ c rest i, literal = c :: rest ∧ matchNames (startName p c) rest =
      some { p with state := .headerField, index := i, headerState := hs } := by
  have hrest : ∀ {c : UInt8} {rest : List UInt8} (hs' : HeaderState) (i : ℕ), literal = c :: rest →
      (∀ p c, p.headerState = hs' → matchName p c c = some (matching literal hs p c)) →
      literal.drop (i + 1) ≠ [] →
      matchNames (startName p c) rest =
        matchNames { p with state := .headerField, index := i, headerState := hs' } (literal.drop (i + 1)) →
      ∃ c rest i, literal = c :: rest ∧ matchNames (startName p c) rest =
        some { p with state := .headerField, index := i, headerState := hs } := by
    intro c rest hs' i hliteral hmatching hne hsteps
    obtain ⟨j, hend⟩ := matchNames_literal
      (p := { p with state := .headerField, index := i, headerState := hs' }) hmatching rfl rfl hne
    exact ⟨c, rest, j, hliteral, hsteps.trans hend⟩
  have hfour : ∀ (d : UInt8) (w : List UInt8) (hs' : HeaderState),
      matchName { p with state := .headerField, index := 2, headerState := .CON } d d =
        some { p with state := .headerField, index := 3, headerState := hs' } →
      matchNames (startName p (chr 'c')) (chr 'o' :: chr 'n' :: d :: w) =
        matchNames { p with state := .headerField, index := 3, headerState := hs' } w := by
    intro d w hs' hd
    have ho : matchName (startName p (chr 'c')) (chr 'o') (chr 'o') =
        some { p with state := .headerField, index := 1, headerState := .CO } := rfl
    have hn : matchName { p with state := .headerField, index := 1, headerState := .CO } (chr 'n') (chr 'n') =
        some { p with state := .headerField, index := 2, headerState := .CON } := rfl
    rw [matchNames_cons ho, matchNames_cons hn, matchNames_cons hd]
  cases hs
  case connection =>
      rcases List.mem_cons.mp h with rfl | h
      · exact hrest .matchingConnection 3 rfl (fun p c h => by unfold matchName; rw [h])
          (by decide) (hfour (chr 'n') _ _ rfl)
      · obtain rfl := List.mem_singleton.mp h
        exact hrest .matchingProxyConnection 0 rfl (fun p c h => by unfold matchName; rw [h])
          (by decide) rfl
  case contentLength =>
      obtain rfl := List.mem_singleton.mp h
      exact hrest .matchingContentLength 3 rfl (fun p c h => by unfold matchName; rw [h])
        (by decide) (hfour (chr 't') _ _ rfl)
  case transferEncoding =>
      obtain rfl := List.mem_singleton.mp h
      exact hrest .matchingTransferEncoding 0 rfl (fun p c h => by unfold matchName; rw [h])
        (by decide) rfl
  case upgrade =>
      obtain rfl := List.mem_singleton.mp h
      exact hrest .matchingUpgrade 0 rfl (fun p c h => by unfold matchName; rw [h])
        (by decide) rfl
  all_goals cases h

/-- Which headers the parser knows: it takes a name for one that it knows if and only if it is this one
but for capitals and blanks behind it. -/
theorem name_known (settings : HttpParser → Int) (hV : Viewed V) {name : List UInt8}
    (hstate : p.state = .headerFieldStart) (hne : name ≠ []) (hname : ∀ c ∈ name, token c ≠ 0) :
    ∃ i hs, Reads (bare settings) V p name (part V .headerField name)
        { p with state := .headerField, index := i, headerState := hs } ∧ hs ∈ naming ∧
      ∀ hs', hs' ∈ [HeaderState.connection, .contentLength, .transferEncoding, .upgrade] →
        (hs = hs' ↔ ∃ literal ∈ known hs', Spaced literal (name.map token)) := by
  obtain ⟨b, rest, rfl⟩ := List.exists_cons_of_ne_nil hne
  obtain ⟨i, hs, hreads, hnames, hmem, hcompared⟩ := name_reads settings hV hstate hname
  refine ⟨i, hs, hreads, hmem, fun hs' hknown => ⟨?_, ?_⟩⟩
  · rintro rfl
    simp only [List.mem_cons, List.not_mem_nil, or_false] at hknown
    rcases hknown with rfl | rfl | rfl | rfl <;> exact hcompared
  · rintro ⟨literal, hliteral, htrimmed⟩
    obtain ⟨k, hspaced⟩ := trimmed_append ((b :: rest).map token)
    rw [htrimmed] at hspaced
    obtain ⟨c, tail, j, rfl, hfold⟩ := known_matchNames hliteral p
    rw [List.map_cons, List.cons_append] at hspaced
    obtain ⟨hc, htail⟩ := List.cons.inj hspaced
    rw [hc, htail, matchNames, List.foldlM_append] at hnames
    unfold matchNames at hfold
    rw [hfold] at hnames
    have hblanks : matchNames { p with state := .headerField, index := j, headerState := hs' }
        (List.replicate k (chr ' ')) = some _ := matchNames_blanks hknown rfl k
    have hsame := Option.some.inj (hblanks.symm.trans hnames)
    exact (congrArg HttpParser.headerState hsame).symm

/-! ### Values -/

/-- A value that is a literal but for capitals and blanks behind it. -/
def Spelled (literal v : List UInt8) : Prop := (trimmed v).map lower = literal

instance (literal v : List UInt8) : Decidable (Spelled literal v) := inferInstanceAs (Decidable (_ = _))

/-- A value so far that a literal begins with. -/
def Going (literal v : List UInt8) : Prop :=
  v.length < literal.length ∧ v.map lower = literal.take v.length

/-- A literal with which values are compared, and the states while and after it is met. -/
structure Comparison where
  literal : List UInt8
  going : HeaderState
  found : HeaderState
  deriving DecidableEq

def chunkedValue : Comparison :=
  ⟨bytes "chunked", .matchingTransferEncodingChunked, .transferEncodingChunked⟩

def keepAliveValue : Comparison :=
  ⟨bytes "keep-alive", .matchingConnectionKeepAlive, .connectionKeepAlive⟩

def closeValue : Comparison := ⟨bytes "close", .matchingConnectionClose, .connectionClose⟩

def comparisons : List Comparison := [chunkedValue, keepAliveValue, closeValue]

theorem forall_comparisons {P : Comparison → Prop} (hchunked : P chunkedValue)
    (hkeepAlive : P keepAliveValue) (hclose : P closeValue) : ∀ κ ∈ comparisons, P κ :=
  List.forall_mem_cons.mpr ⟨hchunked, List.forall_mem_cons.mpr ⟨hkeepAlive, List.forall_mem_singleton.mpr hclose⟩⟩

/-- The states while a value is compared. -/
def Comparing (hs : HeaderState) : Prop :=
  hs = .general ∨ ∃ κ ∈ comparisons, hs = κ.going ∨ hs = κ.found

/-- The state says how far a value is the literal. -/
structure Exact (κ : Comparison) (v : List UInt8) (p : HttpParser) : Prop where
  going : p.headerState = κ.going ↔ Going κ.literal v
  found : p.headerState = κ.found ↔ Spelled κ.literal v
  index : p.headerState = κ.going → p.index + 1 = v.length

/-- The value is not compared with the literal. -/
def Away (κ : Comparison) (p : HttpParser) : Prop := p.headerState ≠ κ.going ∧ p.headerState ≠ κ.found

/-- What one more character does to a comparison. -/
structure Step (κ : Comparison) (ch : UInt8) (p q : HttpParser) : Prop where
  going : p.headerState = κ.going → q = matching κ.literal κ.found p (lower ch)
  found : p.headerState = κ.found → q.headerState = if ch = chr ' ' then κ.found else .general
  away : Away κ p → Away κ q

theorem not_going {literal v : List UInt8} (h : ¬Going literal v) (ch : UInt8) : ¬Going literal (v ++ [ch]) := by
  rintro ⟨hlength, hmap⟩
  rw [List.length_append, List.length_singleton] at hlength hmap
  refine h ⟨Nat.lt_of_succ_lt hlength, ?_⟩
  rw [List.map_append, List.take_succ_eq_append_getElem (Nat.lt_of_succ_lt hlength)] at hmap
  exact (List.append_inj' hmap rfl).1

theorem spelled_snoc {literal v : List UInt8} {ch : UInt8} (h : Spelled literal (v ++ [ch])) :
    ch = chr ' ' ∧ Spelled literal v ∨ Going literal v ∧ (v ++ [ch]).map lower = literal := by
  by_cases hblank : ch = chr ' '
  · unfold Spelled at h
    rw [hblank, trimmed_blank] at h
    exact Or.inl ⟨hblank, h⟩
  · unfold Spelled at h
    rw [trimmed_other hblank] at h
    refine Or.inr ⟨⟨?_, ?_⟩, h⟩
    · rw [← h, List.length_map, List.length_append]
      exact Nat.lt_succ_self _
    · rw [← h, List.map_append, List.take_append_of_le_length (by rw [List.length_map])]
      rw [← List.length_map (f := lower), List.take_length]

theorem comparisons_plain : ∀ κ ∈ comparisons,
    chr ' ' ∉ κ.literal ∧ κ.going ≠ κ.found ∧ HeaderState.general ≠ κ.going ∧ HeaderState.general ≠ κ.found := by
  decide

/-- The state goes on saying it. -/
theorem Exact.step {κ : Comparison} (hκ : κ ∈ comparisons) {v : List UInt8} (h : Exact κ v p)
    (hstep : Step κ ch p q) : Exact κ (v ++ [ch]) q := by
  obtain ⟨hblanks, hne, hgeneral, hgeneral'⟩ := comparisons_plain κ hκ
  -- what holds where the value is not the literal so far, and does not become it
  have hoff : ¬Going κ.literal (v ++ [ch]) → ¬Spelled κ.literal (v ++ [ch]) → q.headerState ≠ κ.going →
      q.headerState ≠ κ.found → Exact κ (v ++ [ch]) q := fun hgoing hspelled hstate hstate' =>
    ⟨iff_of_false hstate hgoing, iff_of_false hstate' hspelled, fun hq => absurd hq hstate⟩
  by_cases hgoing : p.headerState = κ.going
  · obtain ⟨hlength, hmap⟩ := h.going.mp hgoing
    have hindex := h.index hgoing
    rw [← hindex] at hlength hmap
    have hnot : ¬Spelled κ.literal v := fun hspelled => hne (hgoing.symm.trans (h.found.mpr hspelled))
    have hsnoc : (v ++ [ch]).map lower = v.map lower ++ [lower ch] := List.map_append
    have hlonger : (v ++ [ch]).length = p.index + 2 := by
      rw [List.length_append, ← hindex]
      rfl
    have hspelled : Spelled κ.literal (v ++ [ch]) → (v ++ [ch]).map lower = κ.literal := fun hs =>
      ((spelled_snoc hs).resolve_left fun hblank => hnot hblank.2).2
    rw [hstep.going hgoing]
    obtain ⟨hs, heq, ⟨rfl, hother⟩ | ⟨rfl, hlast⟩ | ⟨rfl, hmore, hshort⟩⟩ :=
      matching_literal κ.found (lower ch) hmap hlength
    · rw [heq]
      refine ⟨iff_of_false hgeneral fun hg => ?_, iff_of_false hgeneral' fun hs => ?_, fun hq => absurd hq hgeneral⟩
      · rw [Going, hsnoc, hlonger] at hg
        exact hother hg.2
      · have hwhole := hspelled hs
        rw [hsnoc] at hwhole
        apply hother
        rw [hwhole, List.take_of_length_le]
        rw [← hwhole, List.length_append, List.length_map, ← hindex]
        exact Nat.le_refl _
    · rw [heq]
      have hwhole : (v ++ [ch]).map lower = κ.literal := hsnoc.trans hlast
      have hblank : ch ≠ chr ' ' := by
        rintro rfl
        apply hblanks
        rw [← hlast]
        exact List.mem_append_right _ (List.mem_singleton.mpr rfl)
      refine ⟨iff_of_false hne.symm fun hg => ?_, iff_of_true rfl ?_, fun hq => absurd hq hne.symm⟩
      · have hlong := hg.1
        rw [← hwhole, List.length_map] at hlong
        exact Nat.lt_irrefl _ hlong
      · rw [Spelled, trimmed_other hblank, hwhole]
    · rw [heq]
      refine ⟨iff_of_true hgoing ⟨?_, ?_⟩, iff_of_false (fun hq => hne (hgoing.symm.trans hq)) fun hs => ?_,
        fun _ => hlonger.symm⟩
      · rw [hlonger]
        exact hshort
      · rw [hlonger, hsnoc, hmore]
      · have hwhole := congrArg List.length (hspelled hs)
        rw [List.length_map, hlonger] at hwhole
        exact Nat.ne_of_lt hshort hwhole
  · have hnone : ¬Going κ.literal v := fun hg => hgoing (h.going.mpr hg)
    have hnext := not_going hnone ch
    by_cases hfound : p.headerState = κ.found
    · have hstate := hstep.found hfound
      by_cases hblank : ch = chr ' '
      · rw [if_pos hblank] at hstate
        refine ⟨iff_of_false (fun hq => hne (hq.symm.trans hstate)) hnext, iff_of_true hstate ?_,
          fun hq => absurd (hq.symm.trans hstate) hne⟩
        rw [hblank, Spelled, trimmed_blank]
        exact h.found.mp hfound
      · rw [if_neg hblank] at hstate
        refine hoff hnext (fun hs => ?_) (fun hq => hgeneral (hstate.symm.trans hq))
          fun hq => hgeneral' (hstate.symm.trans hq)
        rcases spelled_snoc hs with ⟨hch, -⟩ | ⟨hg, -⟩
        · exact hblank hch
        · exact hnone hg
    · obtain ⟨hstate, hstate'⟩ := hstep.away ⟨hgoing, hfound⟩
      refine hoff hnext (fun hs => ?_) hstate hstate'
      rcases spelled_snoc hs with ⟨-, hspelled⟩ | ⟨hg, -⟩
      · exact hfound (h.found.mpr hspelled)
      · exact hnone hg

theorem comparisons_apart : ∀ κ ∈ comparisons, ∀ κ' ∈ comparisons, κ' = κ ∨
    (κ.going ≠ κ'.going ∧ κ.going ≠ κ'.found) ∧ κ.found ≠ κ'.going ∧ κ.found ≠ κ'.found := by
  decide

theorem matching_eq (literal : List UInt8) (found : HeaderState) (p : HttpParser) (c : UInt8) :
    ∃ i hs, matching literal found p c = { p with index := i, headerState := hs } ∧
      (hs = .general ∨ hs = found ∨ hs = p.headerState) := by
  unfold matching
  dsimp only
  split_ifs
  · exact ⟨_, _, rfl, Or.inl rfl⟩
  · exact ⟨_, _, rfl, Or.inr (Or.inl rfl)⟩
  · exact ⟨_, _, rfl, Or.inr (Or.inr rfl)⟩

theorem matchValue_general (h : p.headerState = .general) (ch : UInt8) : matchValue p ch = go [] p := by
  unfold matchValue
  rw [h]

theorem matchValue_going (ch : UInt8) : ∀ κ ∈ comparisons, p.headerState = κ.going →
    matchValue p ch = go [] (matching κ.literal κ.found p (lower ch)) := by
  unfold matchValue
  apply forall_comparisons <;> intro h <;> rw [h] <;> rfl

theorem matchValue_found (ch : UInt8) : ∀ κ ∈ comparisons, p.headerState = κ.found →
    matchValue p ch = go [] (if ch ≠ chr ' ' then { p with headerState := .general } else p) := by
  unfold matchValue
  apply forall_comparisons <;> intro h <;> rw [h] <;> rfl

/-- One more character of a value that is compared. -/
theorem matchValue_compared (ch : UInt8) (h : Comparing p.headerState) :
    ∃ i hs, matchValue p ch = go [] { p with index := i, headerState := hs } ∧ Comparing hs ∧
      ∀ κ ∈ comparisons, Step κ ch p { p with index := i, headerState := hs } := by
  rcases h with hgeneral | ⟨κ, hκ, hgoing | hfound⟩
  · refine ⟨p.index, p.headerState, matchValue_general hgeneral ch, Or.inl hgeneral, fun κ' hκ' => ?_⟩
    obtain ⟨-, -, hne, hne'⟩ := comparisons_plain κ' hκ'
    exact ⟨fun hp => absurd (hgeneral.symm.trans hp) hne, fun hp => absurd (hgeneral.symm.trans hp) hne',
      fun hp => hp⟩
  · obtain ⟨i, hs, heq, hcases⟩ := matching_eq κ.literal κ.found p (lower ch)
    rw [hgoing] at hcases
    refine ⟨i, hs, (matchValue_going ch κ hκ hgoing).trans (congrArg (go []) heq), ?_, fun κ' hκ' => ?_⟩
    · rcases hcases with rfl | rfl | rfl
      · exact Or.inl rfl
      · exact Or.inr ⟨κ, hκ, Or.inr rfl⟩
      · exact Or.inr ⟨κ, hκ, Or.inl rfl⟩
    obtain ⟨-, hne, hgeneral, hgeneral'⟩ := comparisons_plain κ' hκ'
    rcases comparisons_apart κ hκ κ' hκ' with rfl | ⟨hapart, hapart'⟩
    · exact ⟨fun _ => heq.symm, fun hp => absurd (hgoing.symm.trans hp) hne, fun hp => absurd hgoing hp.1⟩
    · refine ⟨fun hp => absurd (hgoing.symm.trans hp) hapart.1,
        fun hp => absurd (hgoing.symm.trans hp) hapart.2, fun _ => ?_⟩
      rcases hcases with rfl | rfl | rfl
      · exact ⟨hgeneral, hgeneral'⟩
      · exact hapart'
      · exact hapart
  · refine ⟨p.index, if ch = chr ' ' then κ.found else .general, ?_, ?_, fun κ' hκ' => ?_⟩
    · rw [matchValue_found ch κ hκ hfound]
      by_cases hblank : ch = chr ' '
      · rw [if_neg (not_not.mpr hblank), if_pos hblank, ← hfound]
      · rw [if_pos hblank, if_neg hblank]
    · split_ifs
      · exact Or.inr ⟨κ, hκ, Or.inr rfl⟩
      · exact Or.inl rfl
    obtain ⟨-, hne, hgeneral, hgeneral'⟩ := comparisons_plain κ' hκ'
    rcases comparisons_apart κ hκ κ' hκ' with rfl | ⟨hapart, hapart'⟩
    · exact ⟨fun hp => absurd (hp.symm.trans hfound) hne, fun _ => rfl, fun hp => absurd hfound hp.2⟩
    · refine ⟨fun hp => absurd (hfound.symm.trans hp) hapart'.1,
        fun hp => absurd (hfound.symm.trans hp) hapart'.2, fun _ => ?_⟩
      unfold Away
      dsimp only
      split_ifs
      · exact hapart'
      · exact ⟨hgeneral, hgeneral'⟩

theorem headerValue_turn (settings : HttpParser → Int) (hstate : p.state = .headerValue) (hcr : ch ≠ cr)
    (hlf : ch ≠ lf) : bare settings p 1 ch = matchValue p ch := by
  rw [bare_plain (by rw [hstate]; decide), plainCase, hstate]
  simp only [headerValue, if_neg hcr, if_neg hlf]

/-- A value that is compared, from its second character on. -/
theorem compared_reads (settings : HttpParser → Int) (hV : Viewed V) {rest : List UInt8}
    (hstate : p.state = .headerValue) (h : Comparing p.headerState) (hrest : ∀ b ∈ rest, b ≠ cr ∧ b ≠ lf) :
    ∃ i hs, Reads (bare settings) V p rest (part V .headerValue rest)
        { p with index := i, headerState := hs } ∧ Comparing hs ∧
      ∀ κ ∈ comparisons,
        (∀ v, Exact κ v p → Exact κ (v ++ rest) { p with index := i, headerState := hs }) ∧
          (Away κ p → Away κ { p with index := i, headerState := hs }) := by
  induction rest generalizing p with
  | nil =>
      refine ⟨p.index, p.headerState, ?_, h, fun κ hκ => ⟨fun v hv => ?_, fun haway => haway⟩⟩
      · rw [part_nil]
        exact reads_nil p
      · rw [List.append_nil]
        exact hv
  | cons b rest ih =>
      obtain ⟨⟨hcr, hlf⟩, htail⟩ := List.forall_mem_cons.mp hrest
      obtain ⟨i, hs, hturn, hs', hsteps⟩ := matchValue_compared b h
      have hfirst : Reads (bare settings) V p [b] (part V .headerValue [b])
          { p with index := i, headerState := hs } := by
        apply reads_part hV ((headerValue_turn settings hstate hcr hlf).trans hturn) (fun _ => rfl)
        · rw [hstate]
          rfl
        · rw [hstate]
          decide
      obtain ⟨j, hs'', hreads, hmem, hexact⟩ := ih (p := { p with index := i, headerState := hs }) hstate hs' htail
      refine ⟨j, hs'', ?_, hmem, fun κ hκ => ⟨fun v hv => ?_, fun haway => ?_⟩⟩
      · have hboth := hfirst.append hreads
        rw [← part_append] at hboth
        exact hboth
      · rw [List.append_cons]
        exact (hexact κ hκ).1 _ (hv.step hκ (hsteps κ hκ))
      · exact (hexact κ hκ).2 ((hsteps κ hκ).away haway)

/-- The characters of a number, which may have blanks in it. -/
def Numeric (v : List UInt8) : Prop := ∀ b ∈ v, b = chr ' ' ∨ (digit b).isSome = true

instance (v : List UInt8) : Decidable (Numeric v) := List.decidableBAll _ v

/-- The number that digits make behind `n`. -/
def numeral (n : ℕ) (v : List UInt8) : ℕ :=
  v.foldl (fun n b => if b = chr ' ' then n else n * 10 + (b - chr '0').toNat) n

theorem digit_value {d : ℕ} (h : digit ch = some d) : ch ≠ chr ' ' ∧ d = (ch - chr '0').toNat := by
  unfold digit at h
  split_ifs at h with hdigit
  refine ⟨?_, (Option.some.inj h).symm⟩
  rintro rfl
  exact absurd hdigit (by decide)

/-- A number, from its second character on; the parser keeps it modulo `2 ^ 64`. -/
theorem number_reads (settings : HttpParser → Int) (hV : Viewed V) {rest : List UInt8} {n : ℕ}
    (hstate : p.state = .headerValue) (h : p.headerState = .contentLength)
    (hlength : p.contentLength = n % 2 ^ 64) (hrest : Numeric rest) :
    Reads (bare settings) V p rest (part V .headerValue rest)
      { p with contentLength := numeral n rest % 2 ^ 64 } := by
  induction rest generalizing p n with
  | nil =>
      rw [part_nil]
      have hsame : { p with contentLength := numeral n [] % 2 ^ 64 } = p := by
        rw [numeral, List.foldl_nil, ← hlength]
      rw [hsame]
      exact reads_nil p
  | cons b rest ih =>
      obtain ⟨hb, htail⟩ := List.forall_mem_cons.mp hrest
      have hcr : b ≠ cr := by
        rintro rfl
        exact absurd hb (by decide)
      have hlf : b ≠ lf := by
        rintro rfl
        exact absurd hb (by decide)
      have hturn : bare settings p 1 b = go [] { p with contentLength := numeral n [b] % 2 ^ 64 } := by
        rw [headerValue_turn settings hstate hcr hlf]
        by_cases hblank : b = chr ' '
        · have hvalue : matchValue p b = go [] p := by
            simp only [matchValue, h, if_pos hblank]
          rw [hvalue, numeral, List.foldl_cons, if_pos hblank, List.foldl_nil, ← hlength]
        · obtain ⟨d, hd⟩ := Option.isSome_iff_exists.mp (hb.resolve_left hblank)
          have hvalue : matchValue p b =
              go [] { p with contentLength := (p.contentLength * 10 + d) % 2 ^ 64 } := by
            simp only [matchValue, h, if_neg hblank, hd]
          rw [hvalue, numeral, List.foldl_cons, if_neg hblank, List.foldl_nil, ← (digit_value hd).2, hlength,
            Nat.add_mod, Nat.mul_mod, Nat.mod_mod, ← Nat.mul_mod, ← Nat.add_mod]
      have hfirst : Reads (bare settings) V p [b] (part V .headerValue [b])
          { p with contentLength := numeral n [b] % 2 ^ 64 } := by
        apply reads_part hV hturn (fun _ => rfl)
        · rw [hstate]
          rfl
        · rw [hstate]
          decide
      have hboth := hfirst.append (ih (p := { p with contentLength := numeral n [b] % 2 ^ 64 }) hstate h rfl htail)
      rw [← part_append] at hboth
      exact hboth

/-- What a header tells the parser. -/
inductive Meaning where
  | other
  | length (n : ℕ)
  | chunked | keepAlive | close | upgrade
  deriving DecidableEq

/-- What it does to the parser. -/
def Meaning.apply (m : Meaning) (p : HttpParser) : HttpParser :=
  match m with
  | .other => p
  | .length n => { p with contentLength := n }
  | .chunked => { p with flags := { p.flags with chunked := true } }
  | .keepAlive => { p with flags := { p.flags with connectionKeepAlive := true } }
  | .close => { p with flags := { p.flags with connectionClose := true } }
  | .upgrade => { p with flags := { p.flags with upgrade := true } }

/-- A header: its name, the blanks before its value, and its value. -/
structure Header where
  name : List UInt8
  blanks : ℕ
  value : List UInt8
  name_ne : name ≠ []
  name_token : ∀ b ∈ name, token b ≠ 0
  value_start : ∀ b ∈ value.head?, b ≠ chr ' '
  value_line : ∀ b ∈ value, b ≠ cr ∧ b ≠ lf

/-- The check of a text that is given. -/
theorem forall_mem_of_all {α : Type} {P : α → Prop} [DecidablePred P] {xs : List α}
    (h : xs.all (fun b => decide (P b)) = true) : ∀ b ∈ xs, P b :=
  fun b hb => of_decide_eq_true (List.all_eq_true.mp h b hb)

/-- The check of its first character. -/
theorem forall_head_of_all {α : Type} {P : α → Prop} [DecidablePred P] {xs : List α}
    (h : (xs.take 1).all (fun b => decide (P b)) = true) : ∀ b ∈ xs.head?, P b := by
  cases xs with
  | nil => nofun
  | cons a xs =>
      rintro _ ⟨⟩
      exact forall_mem_of_all h a List.mem_cons_self

/-- A header of texts that are given. -/
def headerOf (name : List UInt8) (blanks : ℕ) (value : List UInt8)
    (h : name ≠ [] ∧ name.all (fun b => decide (token b ≠ 0)) = true ∧
      (value.take 1).all (fun b => decide (b ≠ chr ' ')) = true ∧
      value.all (fun b => decide (b ≠ cr ∧ b ≠ lf)) = true) : Header :=
  ⟨name, blanks, value, h.1, forall_mem_of_all h.2.1, forall_head_of_all h.2.2.1, forall_mem_of_all h.2.2.2⟩

/-- Its line. -/
def Header.line (h : Header) : List UInt8 :=
  h.name ++ chr ':' :: (List.replicate h.blanks (chr ' ') ++ h.value ++ [cr, lf])

/-- The length that a value says. -/
def number (v : List UInt8) : Option ℕ := if Numeric v then some (numeral 0 v % 2 ^ 64) else none

/-- What a header says, `none` if the parser does not take it. -/
def Header.meaning (h : Header) : Option Meaning :=
  let name := trimmed (h.name.map token)
  if h.value = [] then some .other
  else if name ∈ known .contentLength then (number h.value).map .length
  else if name ∈ known .transferEncoding then
    some (if Spelled (bytes "chunked") h.value then .chunked else .other)
  else if name ∈ known .connection then
    some (if Spelled (bytes "keep-alive") h.value then .keepAlive
      else if Spelled (bytes "close") h.value then .close else .other)
  else if name ∈ known .upgrade then some .upgrade
  else some .other

/-- What the two views are handed of a header. -/
def Header.tokens (V : View HttpParser DataKind) (h : Header) : List (Token DataKind Notice) :=
  part V .headerField h.name ++ part V .headerValue h.value

/-- What the state behind a value says. -/
def HeaderState.meaning : HeaderState → Meaning
  | .transferEncodingChunked => .chunked
  | .connectionKeepAlive => .keepAlive
  | .connectionClose => .close
  | _ => .other

/-- The end of a line with a value. -/
theorem lineEnd_reads (settings : HttpParser → Int) (hV : Viewed V) (hstate : p.state = .headerValue) :
    Reads (bare settings) V p [cr, lf] []
      (p.headerState.meaning.apply { p with state := .headerFieldStart }) := by
  have hcr : bare settings p 1 cr = go [.callback .headerValue] { p with state := .headerAlmostDone } := by
    rw [bare_plain (by rw [hstate]; decide), plainCase, hstate]
    rfl
  have hlf : bare settings { p with state := .headerAlmostDone } 1 lf =
      go [] (p.headerState.meaning.apply { p with state := .headerFieldStart }) := by
    rw [bare_plain (by dsimp only; decide)]
    show headerAlmostDone [] { p with state := .headerAlmostDone } lf = _
    unfold headerAlmostDone
    cases p.headerState <;> rfl
  have hplain : (p.headerState.meaning.apply { p with state := .headerFieldStart }).state = .headerFieldStart := by
    cases p.headerState <;> rfl
  have hfirst := reads_silent (V := V) hV hcr (fun _ => rfl) rfl (by dsimp only; decide)
  exact hfirst.append (reads_silent hV hlf (fun _ => rfl) (by rw [hplain]; rfl) (by rw [hplain]; decide))

theorem exact_start {κ : Comparison} (hκ : κ ∈ comparisons) {b : UInt8} (hb : b ≠ chr ' ')
    (hgoing : p.headerState = κ.going ↔ [lower b] = κ.literal.take 1) (hfound : p.headerState ≠ κ.found)
    (hindex : p.index = 0) : Exact κ [b] p := by
  have hlong : 1 < κ.literal.length :=
    (by decide : ∀ κ ∈ comparisons, 1 < κ.literal.length) κ hκ
  refine ⟨?_, iff_of_false hfound fun hs => ?_, fun _ => by rw [hindex]; rfl⟩
  · rw [hgoing]
    exact ⟨fun h => ⟨hlong, h⟩, fun h => h.2⟩
  · rcases spelled_snoc (v := []) hs with ⟨hblank, -⟩ | ⟨-, hwhole⟩
    · exact hb hblank
    · rw [← hwhole] at hlong
      exact Nat.lt_irrefl _ hlong

theorem startValue_turn (settings : HttpParser → Int) {b : UInt8} (hstate : p.state = .headerValueStart)
    (hb : b ≠ chr ' ') (hcr : b ≠ cr) (hlf : b ≠ lf)
    (hq : startValue { p with state := .headerValue, index := 0 } b = some q) :
    bare settings p 1 b = go [.mark .headerValue] q := by
  rw [bare_plain (by rw [hstate]; decide), plainCase, hstate]
  simp only [headerValueStart, if_neg hb, if_neg hcr, if_neg hlf, hq]

/-- A value that is compared, or not looked at, and the end of its line. -/
theorem value_reads (settings : HttpParser → Int) (hV : Viewed V) {b : UInt8} {rest : List UInt8}
    (hstate : p.state = .headerValueStart) (hb : b ≠ chr ' ') (hv : ∀ c ∈ b :: rest, c ≠ cr ∧ c ≠ lf)
    (hq : startValue { p with state := .headerValue, index := 0 } b = some q) (hq' : q.state = .headerValue)
    (h : Comparing q.headerState) :
    ∃ i hs, Reads (bare settings) V p (b :: rest ++ [cr, lf]) (part V .headerValue (b :: rest))
        { hs.meaning.apply q with state := .headerFieldStart, index := i, headerState := hs } ∧
      ∀ κ ∈ comparisons,
        (Exact κ [b] q → (hs = κ.found ↔ Spelled κ.literal (b :: rest))) ∧ (Away κ q → hs ≠ κ.found) := by
  obtain ⟨⟨hcr, hlf⟩, hrest⟩ := List.forall_mem_cons.mp hv
  have hfirst := reads_part (V := V) hV (startValue_turn settings hstate hb hcr hlf hq) (fun _ => rfl)
    (by rw [hq']; rfl) (by rw [hq']; decide)
  obtain ⟨i, hs, hreads, -, hexact⟩ := compared_reads settings hV hq' h hrest
  have hend := lineEnd_reads (p := { q with index := i, headerState := hs }) settings hV hq'
  have hsame : hs.meaning.apply { q with index := i, headerState := hs, state := .headerFieldStart } =
      { hs.meaning.apply q with state := .headerFieldStart, index := i, headerState := hs } := by
    cases hs <;> rfl
  refine ⟨i, hs, ?_, fun κ hκ => ⟨fun hk => ((hexact κ hκ).1 _ hk).found, fun hk => ((hexact κ hκ).2 hk).2⟩⟩
  have hall := (hfirst.append hreads).append hend
  rw [← part_append, List.append_nil] at hall
  exact hsame ▸ hall

theorem meaning_other {hs : HeaderState} (hchunked : hs ≠ chunkedValue.found)
    (hkeepAlive : hs ≠ keepAliveValue.found) (hclose : hs ≠ closeValue.found) : hs.meaning = .other := by
  cases hs
  case transferEncodingChunked => exact absurd rfl hchunked
  case connectionKeepAlive => exact absurd rfl hkeepAlive
  case connectionClose => exact absurd rfl hclose
  all_goals rfl

/-- From the state behind a colon a value and the end of its line are read, and mean `m`. -/
def ReadsValue (settings : HttpParser → Int) (V : View HttpParser DataKind) (p : HttpParser) (v : List UInt8)
    (m : Meaning) : Prop :=
  ∃ i hs, Reads (bare settings) V p (v ++ [cr, lf]) (part V .headerValue v)
    { m.apply p with state := .headerFieldStart, index := i, headerState := hs }

variable {b : UInt8} {rest : List UInt8}

/-- A number as far as it goes. -/
theorem digits_read (settings : HttpParser → Int) (hV : Viewed V) (hstate : p.state = .headerValueStart)
    (hhs : p.headerState = .contentLength) (hb : b ≠ chr ' ') (hv : Numeric (b :: rest)) :
    Reads (bare settings) V p (b :: rest) (part V .headerValue (b :: rest)) { p with
      state := .headerValue, index := 0, contentLength := numeral 0 (b :: rest) % 2 ^ 64 } := by
  obtain ⟨hdigit, hrest⟩ := List.forall_mem_cons.mp hv
  obtain ⟨d, hd⟩ := Option.isSome_iff_exists.mp (hdigit.resolve_left hb)
  have hcr : b ≠ cr := by
    rintro rfl
    exact absurd hdigit (by decide)
  have hlf : b ≠ lf := by
    rintro rfl
    exact absurd hdigit (by decide)
  have hnumeral : numeral 0 (b :: rest) = numeral d rest := by
    rw [numeral, List.foldl_cons, if_neg hb, Nat.zero_mul, Nat.zero_add, ← (digit_value hd).2]
    rfl
  have hfirst := reads_part (V := V) (k := .headerValue)
    (q := { p with state := .headerValue, index := 0, contentLength := d }) hV
    (startValue_turn settings hstate hb hcr hlf (by simp only [startValue, hhs, hd])) (fun _ => rfl) rfl
    (by dsimp only; decide)
  have hsmall : d = d % 2 ^ 64 :=
    (Nat.mod_eq_of_lt (Nat.lt_of_lt_of_le (Nat.lt_succ_of_le (digit_le hd)) (by decide))).symm
  have hnumber := number_reads (p := { p with state := .headerValue, index := 0, contentLength := d })
    settings hV rfl hhs hsmall hrest
  have hboth := hfirst.append hnumber
  rw [← part_append] at hboth
  rw [hnumeral]
  exact hboth

theorem number_line (settings : HttpParser → Int) (hV : Viewed V) (hstate : p.state = .headerValueStart)
    (hhs : p.headerState = .contentLength) (hb : b ≠ chr ' ') (hv : Numeric (b :: rest)) :
    ReadsValue settings V p (b :: rest) (.length (numeral 0 (b :: rest) % 2 ^ 64)) := by
  have hdigits := digits_read (V := V) settings hV hstate hhs hb hv
  have hend := lineEnd_reads (V := V) (p := { p with
    state := .headerValue, index := 0, contentLength := numeral 0 (b :: rest) % 2 ^ 64 }) settings hV rfl
  have hall := hdigits.append hend
  rw [List.append_nil, hhs] at hall
  exact ⟨0, .contentLength, hall⟩

theorem upgrade_line (settings : HttpParser → Int) (hV : Viewed V) (hstate : p.state = .headerValueStart)
    (hhs : p.headerState = .upgrade) (hb : b ≠ chr ' ') (hv : ∀ c ∈ b :: rest, c ≠ cr ∧ c ≠ lf) :
    ReadsValue settings V p (b :: rest) .upgrade := by
  have hstart : startValue { p with state := .headerValue, index := 0 } b = some { p with
      state := .headerValue, index := 0, headerState := .general, flags := { p.flags with upgrade := true } } := by
    simp only [startValue, hhs]
  obtain ⟨i, hs, hreads, hfound⟩ := value_reads settings hV hstate hb hv hstart rfl (Or.inl rfl)
  have hother : ∀ κ ∈ comparisons, hs ≠ κ.found := fun κ hκ => (hfound κ hκ).2 (comparisons_plain κ hκ).2.2
  rw [meaning_other (hother _ (by decide)) (hother _ (by decide)) (hother _ (by decide))] at hreads
  exact ⟨i, hs, hreads⟩

theorem other_line (settings : HttpParser → Int) (hV : Viewed V) (hstate : p.state = .headerValueStart)
    (hhs : p.headerState ∉ [HeaderState.connection, .contentLength, .transferEncoding, .upgrade])
    (hb : b ≠ chr ' ') (hv : ∀ c ∈ b :: rest, c ≠ cr ∧ c ≠ lf) :
    ReadsValue settings V p (b :: rest) .other := by
  have hstart : startValue { p with state := .headerValue, index := 0 } b =
      some { p with state := .headerValue, index := 0, headerState := .general } := by
    unfold startValue
    cases hs : p.headerState <;> rw [hs] at hhs <;> first | rfl | exact absurd (by decide) hhs
  obtain ⟨i, hs, hreads, hfound⟩ := value_reads settings hV hstate hb hv hstart rfl (Or.inl rfl)
  have hother : ∀ κ ∈ comparisons, hs ≠ κ.found := fun κ hκ => (hfound κ hκ).2 (comparisons_plain κ hκ).2.2
  rw [meaning_other (hother _ (by decide)) (hother _ (by decide)) (hother _ (by decide))] at hreads
  exact ⟨i, hs, hreads⟩

theorem transferEncoding_line (settings : HttpParser → Int) (hV : Viewed V)
    (hstate : p.state = .headerValueStart) (hhs : p.headerState = .transferEncoding) (hb : b ≠ chr ' ')
    (hv : ∀ c ∈ b :: rest, c ≠ cr ∧ c ≠ lf) :
    ReadsValue settings V p (b :: rest)
      (if Spelled (bytes "chunked") (b :: rest) then .chunked else .other) := by
  let q : HttpParser := { p with
    state := .headerValue, index := 0,
    headerState := if lower b = chr 'c' then chunkedValue.going else .general }
  have hstart : startValue { p with state := .headerValue, index := 0 } b = some q := by
    simp only [startValue, hhs]
    rfl
  have hq : Comparing q.headerState ∧ (q.headerState = chunkedValue.going ↔ [lower b] = [chr 'c']) ∧
      q.headerState ≠ chunkedValue.found ∧ Away keepAliveValue q ∧ Away closeValue q := by
    unfold Away
    by_cases hc : lower b = chr 'c'
    · have hs : q.headerState = chunkedValue.going := if_pos hc
      rw [hs]
      refine ⟨Or.inr ⟨_, ?_, Or.inl rfl⟩, iff_of_true rfl (congrArg (· :: []) hc), ?_⟩ <;> decide
    · have hs : q.headerState = .general := if_neg hc
      rw [hs]
      refine ⟨Or.inl rfl, iff_of_false ?_ fun h => hc (List.cons.inj h).1, ?_⟩ <;> decide
  obtain ⟨hcomparing, hgoing, hnot, hkeepAlive, hclose⟩ := hq
  obtain ⟨i, hs, hreads, hfound⟩ := value_reads settings hV hstate hb hv hstart rfl hcomparing
  have hchunked := (hfound chunkedValue (by decide)).1 (exact_start (by decide) hb hgoing hnot rfl)
  by_cases hspelled : Spelled (bytes "chunked") (b :: rest)
  · rw [if_pos hspelled]
    obtain rfl := hchunked.mpr hspelled
    exact ⟨i, _, hreads⟩
  · rw [if_neg hspelled]
    rw [meaning_other (mt hchunked.mp hspelled) ((hfound _ (by decide)).2 hkeepAlive)
      ((hfound _ (by decide)).2 hclose)] at hreads
    exact ⟨i, hs, hreads⟩

theorem connection_line (settings : HttpParser → Int) (hV : Viewed V)
    (hstate : p.state = .headerValueStart) (hhs : p.headerState = .connection) (hb : b ≠ chr ' ')
    (hv : ∀ c ∈ b :: rest, c ≠ cr ∧ c ≠ lf) :
    ReadsValue settings V p (b :: rest)
      (if Spelled (bytes "keep-alive") (b :: rest) then .keepAlive
        else if Spelled (bytes "close") (b :: rest) then .close else .other) := by
  let q : HttpParser := { p with
    state := .headerValue, index := 0,
    headerState := if lower b = chr 'k' then keepAliveValue.going
      else if lower b = chr 'c' then closeValue.going else .general }
  have hstart : startValue { p with state := .headerValue, index := 0 } b = some q := by
    simp only [startValue, hhs]
    rfl
  have hq : Comparing q.headerState ∧ (q.headerState = keepAliveValue.going ↔ [lower b] = [chr 'k']) ∧
      (q.headerState = closeValue.going ↔ [lower b] = [chr 'c']) ∧
      q.headerState ≠ keepAliveValue.found ∧ q.headerState ≠ closeValue.found ∧ Away chunkedValue q := by
    unfold Away
    by_cases hk : lower b = chr 'k'
    · have hs : q.headerState = keepAliveValue.going := if_pos hk
      rw [hs, hk]
      refine ⟨Or.inr ⟨_, ?_, Or.inl rfl⟩, iff_of_true rfl rfl, ?_⟩ <;> decide
    have hnot : ¬[lower b] = [chr 'k'] := fun h => hk (List.cons.inj h).1
    by_cases hc : lower b = chr 'c'
    · have hs : q.headerState = closeValue.going := (if_neg hk).trans (if_pos hc)
      rw [hs]
      refine ⟨Or.inr ⟨_, ?_, Or.inl rfl⟩, iff_of_false ?_ hnot, iff_of_true rfl (congrArg (· :: []) hc), ?_⟩ <;>
        decide
    · have hs : q.headerState = .general := (if_neg hk).trans (if_neg hc)
      rw [hs]
      refine ⟨Or.inl rfl, iff_of_false ?_ hnot, iff_of_false ?_ fun h => hc (List.cons.inj h).1, ?_⟩ <;> decide
  obtain ⟨hcomparing, hgoing, hgoing', hnot, hnot', hchunked⟩ := hq
  obtain ⟨i, hs, hreads, hfound⟩ := value_reads settings hV hstate hb hv hstart rfl hcomparing
  have hkeepAlive := (hfound keepAliveValue (by decide)).1 (exact_start (by decide) hb hgoing hnot rfl)
  have hclose := (hfound closeValue (by decide)).1 (exact_start (by decide) hb hgoing' hnot' rfl)
  by_cases hspelled : Spelled (bytes "keep-alive") (b :: rest)
  · rw [if_pos hspelled]
    obtain rfl := hkeepAlive.mpr hspelled
    exact ⟨i, _, hreads⟩
  rw [if_neg hspelled]
  by_cases hspelled' : Spelled (bytes "close") (b :: rest)
  · rw [if_pos hspelled']
    obtain rfl := hclose.mpr hspelled'
    exact ⟨i, _, hreads⟩
  · rw [if_neg hspelled']
    rw [meaning_other ((hfound _ (by decide)).2 hchunked) (mt hkeepAlive.mp hspelled)
      (mt hclose.mp hspelled')] at hreads
    exact ⟨i, hs, hreads⟩

theorem spaced_known (hs : HeaderState) (w : List UInt8) :
    (∃ literal ∈ known hs, Spaced literal w) ↔ trimmed w ∈ known hs :=
  ⟨fun ⟨_, hmem, hspaced⟩ => hspaced ▸ hmem, fun hmem => ⟨_, hmem, rfl⟩⟩

/-- A line without a value. -/
theorem empty_line (settings : HttpParser → Int) (hV : Viewed V) (hstate : p.state = .headerValueStart) :
    ReadsValue settings V p [] .other := by
  have hcr : bare settings p 1 cr = go [.mark .headerValue, .callback .headerValue]
      { p with headerState := .general, state := .headerAlmostDone, index := 0 } := by
    rw [bare_plain (by rw [hstate]; decide), plainCase, hstate]
    rfl
  have hlf : bare settings { p with headerState := .general, state := .headerAlmostDone, index := 0 } 1 lf =
      go [] { p with headerState := .general, state := .headerFieldStart, index := 0 } := by
    rw [bare_plain (by dsimp only; decide)]
    rfl
  have hfirst := reads_silent (V := V) hV hcr (fun _ => rfl) rfl (by dsimp only; decide)
  have hend := reads_silent (V := V) hV hlf (fun _ => rfl) rfl (by dsimp only; decide)
  refine ⟨0, .general, ?_⟩
  rw [part_nil]
  exact hfirst.append hend

/-- Bytes that do not change a state in which nothing is open. -/
theorem reads_quiet (settings : HttpParser → Int) (hV : Viewed V) {w : List UInt8} (hpart : p.state.part = none) (hurl : p.state ∉ inUrl)
    (h : ∀ b ∈ w, bare settings p 1 b = go [] p) : Reads (bare settings) V p w [] p := by
  have hstay : Reads (bare settings) V p w (w.flatMap (MarkedStream.here (V.track p))) p :=
    reads_stay fun b hb => by rw [h b hb]; exact ⟨rfl, rfl⟩
  have hnone : w.flatMap (MarkedStream.here (ν := Notice) (V.track p)) = [] := by
    apply List.flatMap_eq_nil_iff.mpr
    intro b _
    rw [hV.here, hpart, if_neg hurl]
    rfl
  rw [hnone] at hstay
  exact hstay

/-- A value and the end of its line, behind a name whose state is known. -/
theorem value_means (settings : HttpParser → Int) (hV : Viewed V) (h : Header) {m : Meaning}
    (hstate : p.state = .headerValueStart)
    (hknown : ∀ hs, hs ∈ [HeaderState.connection, .contentLength, .transferEncoding, .upgrade] →
      (p.headerState = hs ↔ trimmed (h.name.map token) ∈ known hs)) (hm : h.meaning = some m) :
    ReadsValue settings V p h.value m := by
  unfold Header.meaning at hm
  dsimp only at hm
  have hcontentLength := hknown .contentLength (by decide)
  have htransferEncoding := hknown .transferEncoding (by decide)
  have hconnection := hknown .connection (by decide)
  have hupgrade := hknown .upgrade (by decide)
  have hline := h.value_line
  have hstart := h.value_start
  cases hvalue : h.value with
  | nil =>
      rw [hvalue, if_pos rfl] at hm
      obtain rfl := Option.some.inj hm
      exact empty_line settings hV hstate
  | cons b rest =>
      rw [hvalue] at hline hstart hm
      have hb : b ≠ chr ' ' := hstart b rfl
      rw [if_neg (List.cons_ne_nil b rest)] at hm
      by_cases h₁ : trimmed (h.name.map token) ∈ known .contentLength
      · rw [if_pos h₁, number] at hm
        split_ifs at hm with hnumeric
        · obtain rfl := Option.some.inj hm
          exact number_line settings hV hstate (hcontentLength.mpr h₁) hb hnumeric
        · cases hm
      rw [if_neg h₁] at hm
      by_cases h₂ : trimmed (h.name.map token) ∈ known .transferEncoding
      · rw [if_pos h₂] at hm
        exact Option.some.inj hm ▸
          transferEncoding_line settings hV hstate (htransferEncoding.mpr h₂) hb hline
      rw [if_neg h₂] at hm
      by_cases h₃ : trimmed (h.name.map token) ∈ known .connection
      · rw [if_pos h₃] at hm
        exact Option.some.inj hm ▸ connection_line settings hV hstate (hconnection.mpr h₃) hb hline
      rw [if_neg h₃] at hm
      by_cases h₄ : trimmed (h.name.map token) ∈ known .upgrade
      · rw [if_pos h₄] at hm
        exact Option.some.inj hm ▸ upgrade_line settings hV hstate (hupgrade.mpr h₄) hb hline
      rw [if_neg h₄] at hm
      obtain rfl := Option.some.inj hm
      have hnone : p.headerState ∉
          [HeaderState.connection, .contentLength, .transferEncoding, .upgrade] := by
        intro hmem
        simp only [List.mem_cons, List.not_mem_nil, or_false] at hmem
        rcases hmem with hs | hs | hs | hs
        · exact h₃ (hconnection.mp hs)
        · exact h₁ (hcontentLength.mp hs)
        · exact h₂ (htransferEncoding.mp hs)
        · exact h₄ (hupgrade.mp hs)
      exact other_line settings hV hstate hnone hb hline

/-- What is in front of a value. -/
def Header.front (h : Header) : List UInt8 := h.name ++ chr ':' :: List.replicate h.blanks (chr ' ')

theorem Header.line_eq (h : Header) : h.line = h.front ++ (h.value ++ [cr, lf]) := by
  unfold Header.line Header.front
  simp

/-- A header up to its value. -/
theorem front_reads (settings : HttpParser → Int) (hV : Viewed V) (h : Header)
    (hstate : p.state = .headerFieldStart) :
    ∃ i hs, Reads (bare settings) V p h.front (part V .headerField h.name)
        { p with state := .headerValueStart, index := i, headerState := hs } ∧
      ∀ hs', hs' ∈ [HeaderState.connection, .contentLength, .transferEncoding, .upgrade] →
        (hs = hs' ↔ trimmed (h.name.map token) ∈ known hs') := by
  obtain ⟨i, hs, hname, -, hknown⟩ := name_known settings hV hstate h.name_ne h.name_token
  simp only [spaced_known] at hknown
  refine ⟨i, hs, ?_, hknown⟩
  let r : HttpParser := { p with state := .headerValueStart, index := i, headerState := hs }
  have hcolon : Reads (bare settings) V { p with state := .headerField, index := i, headerState := hs }
      [chr ':'] [] r := by
    have hturn : bare settings { p with state := .headerField, index := i, headerState := hs } 1 (chr ':') =
        go [.callback .headerField] r := by
      rw [bare_plain (by dsimp only; decide)]
      rfl
    exact reads_silent hV hturn (fun _ => rfl) rfl (by dsimp only [r]; decide)
  have hblanks : Reads (bare settings) V r (List.replicate h.blanks (chr ' ')) [] r := by
    apply reads_quiet settings hV rfl (by dsimp only [r]; decide)
    intro b hb
    rw [List.eq_of_mem_replicate hb, bare_plain (by dsimp only [r]; decide)]
    rfl
  have hall := hname.append (hcolon.append hblanks)
  rw [List.append_nil, List.append_nil] at hall
  exact hall

/-- A header that the parser takes is read as it is meant. -/
theorem header_reads (settings : HttpParser → Int) (hV : Viewed V) (h : Header) {m : Meaning}
    (hstate : p.state = .headerFieldStart) (hm : h.meaning = some m) :
    ∃ i hs, Reads (bare settings) V p h.line (h.tokens V)
      { m.apply p with index := i, headerState := hs } := by
  obtain ⟨i, hs, hfront, hknown⟩ := front_reads settings hV h hstate
  let r : HttpParser := { p with state := .headerValueStart, index := i, headerState := hs }
  obtain ⟨j, hs', hvalue⟩ : ReadsValue settings V r h.value m := value_means settings hV h rfl hknown hm
  refine ⟨j, hs', ?_⟩
  have hend : { m.apply r with state := .headerFieldStart, index := j, headerState := hs' } =
      { m.apply p with index := j, headerState := hs' } := by
    cases m <;> simp only [Meaning.apply, r, ← hstate]
  rw [hend] at hvalue
  rw [h.line_eq, Header.tokens]
  exact hfront.append hvalue

end OsHomeworks.WebServer.HttpParser
