import OsHomeworks.LoaderMemory

/-! The table of mapped pages of a segment: how many entries it has against the page indices that are
looked up in it, and what the `data` pointer that the parser leaves as `malloc` gave it does to the
decisions of the handler. The pointer may lead anywhere: to memory that may not be accessed, to the
table of another segment, or to a page of the program. -/

namespace OsHomeworks.Loader

open Runs

namespace SoSeg

/-- The entries that `calloc` is asked for when the segment gets its table. A segment whose pointer
`malloc` left at something else than `NULL` never gets one. -/
def entries (segment : SoSeg) : ℕ := (segment.memSize / pagesz).toNat

theorem entries_of_layout {segment segment' : SoSeg} (h : segment'.layout = segment.layout) :
    segment'.entries = segment.entries := by
  show segment'.layout.entries = segment.layout.entries
  rw [h]

theorem entries_eq (segment : SoSeg) : segment.entries = segment.memSize.toNat / 4096 := by
  rw [entries, UInt32.toNat_div]
  rfl

end SoSeg

theorem pageIdx_toNat {segment : SoSeg} {a : UInt32} (ha : segment.vaddr ≤ a) :
    (pageIdx segment a).toNat = (a.toNat - segment.vaddr.toNat) / 4096 := by
  rw [pageIdx, UInt32.toNat_div, UInt32.toNat_sub_of_le _ _ ha]
  rfl

/-- In every run of an accepted executable, the entry of a served fault is in the table exactly if the
whole page of the fault lies in the segment. -/
theorem entry_in_table_iff {file : File} {stack : Memory} {uninitialised : ℕ → UInt32}
    {exec exec' : SoExec} (hparse : soParseExec file stack uninitialised = .ok exec)
    {as : List UInt32} (hrun : Run Fault exec as exec') {segment : SoSeg}
    (hsegment : segment ∈ exec'.segments) {a : UInt32} (haccepts : soPfInSegment segment a = true) :
    (pageIdx segment a).toNat < segment.entries ↔ (page a + 1) * 4096 ≤ segment.stop := by
  have hparsed := parsed_of_accepted hparse
  have haligned := ((SameLayout.of_run hparsed hrun).parsed hparsed).aligned segment hsegment
  have hstart := ((soPfInSegment_iff segment a).mp haccepts).1
  rw [pageIdx_toNat (UInt32.le_iff_toNat_le.mpr hstart), SoSeg.entries_eq, SoSeg.stop, page]
  omega

theorem entry_in_table_iff_abutting :
    (pageIdx ⟨0x8048000, 0x1000, 0x1000, 0, 5, 0⟩ 0x8048010).toNat <
        SoSeg.entries ⟨0x8048000, 0x1000, 0x1000, 0, 5, 0⟩ ↔
      (page 0x8048010 + 1) * 4096 ≤ SoSeg.stop ⟨0x8048000, 0x1000, 0x1000, 0, 5, 0⟩ :=
  entry_in_table_iff parse_abutting (.nil abutting) (List.mem_cons_self ..) (by decide +kernel)

/-- One segment of a page and a half. -/
def halfPageFile : List UInt8 :=
  [0x7f, 0x45, 0x4c, 0x46, 1, 1, 1, 0, 0, 0, 0, 0, 0, 0, 0, 0, 2, 0, 3, 0, 1, 0, 0, 0,
    0x00, 0x80, 0x04, 0x08, 52, 0, 0, 0, 0, 0, 0, 0, 0, 0, 0, 0, 52, 0, 32, 0, 1, 0, 0, 0,
    0, 0, 0, 0] ++
  [1, 0, 0, 0, 0, 0, 0, 0, 0x00, 0x80, 0x04, 0x08, 0, 0, 0, 0, 0, 0x18, 0, 0, 0, 0x18, 0, 0,
    5, 0, 0, 0, 0, 0x10, 0, 0]

/-- The table has one entry for the page and a half, and a fault on the half page uses the second. -/
theorem entry_behind_table :
    ∃ exec, soParseExec (.bytes halfPageFile) (fun _ => 0) (fun _ => 0) = .ok exec ∧
      ∃ segment ∈ exec.segments, 1 ≤ segment.memSize.toNat ∧
        segment.Contains (0x8049400 : UInt32).toNat ∧
        soPfInSegment segment 0x8049400 = true ∧
        ¬(pageIdx segment 0x8049400).toNat < segment.entries := by
  refine ⟨_, rfl, ⟨0x8048000, 0x1800, 0x1800, 0, 5, 0⟩, List.mem_singleton.mpr rfl, ?_⟩
  exact ⟨by decide, ⟨by decide, by decide⟩, by decide, by decide⟩

/-- The number of the segment for which a fault is served. -/
def serving (exec : SoExec) (a : UInt32) : Option ℕ :=
  exec.segments.findIdx? (soPfInSegment · a)

namespace SameLayout

variable {exec exec' : SoExec}

theorem serving_eq (h : SameLayout exec exec') (a : UInt32) : serving exec' a = serving exec a := by
  have hmap : ∀ l : List SoSeg, (l.map SoSeg.layout).findIdx? (soPfInSegment · a) =
      l.findIdx? (soPfInSegment · a) := fun l => List.findIdx?_map
  rw [serving, serving, ← hmap, h.segments, hmap]

theorem get? (h : SameLayout exec exec') {j : ℕ} {segment : SoSeg}
    (hsegment : exec.segments[j]? = some segment) :
    ∃ segment', exec'.segments[j]? = some segment' ∧ segment'.layout = segment.layout := by
  obtain ⟨hj, rfl⟩ := List.getElem?_eq_some_iff.mp hsegment
  have hj' : j < exec'.segments.length := by rwa [h.length]
  exact ⟨exec'.segments[j], List.getElem?_eq_getElem hj', h.get hj' hj⟩

end SameLayout

/-- What is accepted does not depend on what `malloc` returns, up to the tables. -/
theorem accepted_of_accepted {file : File} {stack : Memory} {uninitialised : ℕ → UInt32}
    {exec : SoExec} (h : soParseExec file stack uninitialised = .ok exec)
    (uninitialised' : ℕ → UInt32) : ∃ exec', soParseExec file stack uninitialised' = .ok exec' := by
  have hcheck : ∀ {p : Prop} [Decidable p] {text : String} {r r' : Except String SoExec},
      ((∃ e, r = .ok e) → ∃ e', r' = .ok e') → (∃ e, (if p then .error text else r) = .ok e) →
        ∃ e', (if p then .error text else r') = .ok e' := by
    intro p _ text r r' himp hok
    split_ifs at hok ⊢
    · obtain ⟨e, he⟩ := hok
      cases he
    · exact himp hok
  cases file with
  | missing => cases h
  | unreadable => cases h
  | bytes content =>
      replace h : ∃ e, soParseExec (.bytes content) stack uninitialised = .ok e := ⟨exec, h⟩
      revert h
      iterate 10 apply hcheck
      exact fun _ => ⟨_, rfl⟩

theorem foldl_convert_sameLayout (headers : ℕ → Phdr) (uninitialised uninitialised' : ℕ → UInt32)
    (l : List ℕ) {exec exec' : SoExec} (h : SameLayout exec exec') :
    SameLayout (l.foldl (convert headers uninitialised) exec)
      (l.foldl (convert headers uninitialised') exec') := by
  induction l generalizing exec exec' with
  | nil => exact h
  | cons i l ih =>
      rw [List.foldl_cons, List.foldl_cons]
      apply ih
      unfold convert
      split_ifs
      · refine ⟨h.segmentsNo, ?_⟩
        rw [List.map_append, List.map_append, h.segments]
        rfl
      · exact h

/-- The `data` field of a segment is what `malloc` left there. -/
theorem foldl_convert_data (headers : ℕ → Phdr) (uninitialised : ℕ → UInt32) (l : List ℕ)
    {exec : SoExec}
    (h : ∀ j segment, exec.segments[j]? = some segment → segment.data = uninitialised j) :
    ∀ j segment, (l.foldl (convert headers uninitialised) exec).segments[j]? = some segment →
      segment.data = uninitialised j := by
  induction l generalizing exec with
  | nil => exact h
  | cons i l ih =>
      rw [List.foldl_cons]
      apply ih
      intro j segment hsegment
      unfold convert at hsegment
      split_ifs at hsegment
      · rw [List.getElem?_append] at hsegment
        split_ifs at hsegment with hold
        · exact h j segment hsegment
        · obtain ⟨hlt, rfl⟩ := List.getElem?_eq_some_iff.mp hsegment
          rw [List.length_singleton] at hlt
          obtain rfl : j = exec.segments.length := by omega
          simp [soSeg]
      · exact h j segment hsegment

theorem sameLayout_of_accepted {file : File} {stack : Memory}
    {uninitialised uninitialised' : ℕ → UInt32} {exec exec' : SoExec}
    (h : soParseExec file stack uninitialised = .ok exec)
    (h' : soParseExec file stack uninitialised' = .ok exec') : SameLayout exec exec' := by
  obtain ⟨content, rfl, rfl⟩ := loadExec_of_accepted h
  obtain ⟨content', hcontent, rfl⟩ := loadExec_of_accepted h'
  obtain rfl := File.bytes.inj hcontent
  exact foldl_convert_sameLayout _ _ _ _ (.refl _)

theorem data_of_accepted {file : File} {stack : Memory} {uninitialised : ℕ → UInt32} {exec : SoExec}
    (h : soParseExec file stack uninitialised = .ok exec) {j : ℕ} {segment : SoSeg}
    (hsegment : exec.segments[j]? = some segment) : segment.data = uninitialised j := by
  obtain ⟨content, -, rfl⟩ := loadExec_of_accepted h
  exact foldl_convert_data _ _ _ (fun _ _ hnil => by cases hnil) j segment hsegment

/-- Where `calloc` returns memory, which is for the allocator to say from what it keeps in memory. -/
structure Allocator where
  addr : Process → UInt32 → UInt32
  ne_null : ∀ m n, addr m n ≠ 0

/-- The calls that are made, the process after them, and whether the handler returned: an access to a
table that is not permitted ends the process. -/
def perform (content : List UInt8) (m : Process) : List Call → List Call × Process × Bool
  | [] => ([], m, true)
  | call :: calls =>
      if call.permitted m then
        let rest := perform content (call.run content m) calls
        (call :: rest.1, rest.2)
      else ([], m, false)

/-- A loaded executable: its segments, the memory of the process, and whether the process is alive. -/
structure Loaded where
  exec : SoExec
  process : Process
  alive : Bool

/-- The program runs, whatever that does to its memory, and comes to a fault. -/
structure Turn where
  program : Process → Process
  pfAddr : UInt32

/-- The calls by which the handler looks after the table. -/
def Call.isTable : Call → Bool
  | .calloc _ _ => true
  | .load _ => true
  | .memset _ => true
  | _ => false

/-- What the loader decides about a fault: for which segment it is served, what it does about it, whether
it gets to the end of that, and what the page then is. -/
structure Decision where
  segment : Option ℕ
  calls : List Call
  returned : Bool
  page : UInt32 → Option (UInt8 × Option UInt32)

section

variable (malloc : Allocator) (content : List UInt8)

/-- Where a new table for the fault would be. -/
def freshTable (m : Process) (exec : SoExec) (pfAddr : UInt32) : UInt32 :=
  malloc.addr m (((servedSegment exec pfAddr).map (·.memSize / pagesz)).getD 0)

/-- One fault of the run. The default action ends the process when the handler returns. -/
def handle (s : Loaded) (turn : Turn) : Loaded × Option Decision :=
  if s.alive then
    let m := turn.program s.process
    let handled := segvHandler m.byte (freshTable malloc m s.exec turn.pfAddr) s.exec turn.pfAddr
    let made := perform content m handled.calls
    (⟨handled.exec, made.2.1, made.2.2 && !made.1.contains .raise⟩,
      some ⟨handled.segment, made.1.filter fun call => !call.isTable, made.2.2,
        fun b => if page b = page turn.pfAddr then some (made.2.1.byte b, made.2.1.prot b) else none⟩)
  else (s, none)

def handleAll (s : Loaded) (turns : List Turn) : Loaded :=
  turns.foldl (fun s turn => (handle malloc content s turn).1) s

/-- The faults of a sequence are decided alike. -/
def SameDecisions (s₁ s₂ : Loaded) (turns : List Turn) : Prop :=
  ∀ before turn after, turns = before ++ turn :: after →
    (handle malloc content (handleAll malloc content s₁ before) turn).2 =
      (handle malloc content (handleAll malloc content s₂ before) turn).2

/-- No entry of the table that a fault in the segment finds is marked, and all can be read. -/
def EmptyTable (m : Process) (segment : SoSeg) (fresh : UInt32) : Prop :=
  ∀ p < segment.entries,
    (runAll content m (segment.allocation fresh)).readable
        ((if segment.data = 0 then fresh else segment.data) + UInt32.ofNat p) = true ∧
      (runAll content m (segment.allocation fresh)).byte
        ((if segment.data = 0 then fresh else segment.data) + UInt32.ofNat p) ≠ 1

/-- The first fault that is served for a segment finds an empty table. -/
def StartsEmpty (s : Loaded) (turns : List Turn) : Prop :=
  ∀ before turn after j segment, turns = before ++ turn :: after →
    serving s.exec turn.pfAddr = some j → (∀ b ∈ before, serving s.exec b.pfAddr ≠ some j) →
    (handleAll malloc content s before).exec.segments[j]? = some segment →
    EmptyTable content (turn.program (handleAll malloc content s before).process) segment
      (freshTable malloc (turn.program (handleAll malloc content s before).process)
        (handleAll malloc content s before).exec turn.pfAddr)

end

/-- Whatever the memory of the process is, however the allocator works and whatever the program does, the
two executables decide every sequence of faults at these addresses alike, and start with empty tables. -/
def Independent (content : List UInt8) (exec₁ exec₂ : SoExec) (faults : Set UInt32) : Prop :=
  ∀ (malloc : Allocator) (m : Process) (turns : List Turn), (∀ turn ∈ turns, turn.pfAddr ∈ faults) →
    SameDecisions malloc content ⟨exec₁, m, true⟩ ⟨exec₂, m, true⟩ turns ∧
      StartsEmpty malloc content ⟨exec₁, m, true⟩ turns ∧
      StartsEmpty malloc content ⟨exec₂, m, true⟩ turns

/-- The handler that gets through does all that is in its list. -/
theorem perform_of_allPermitted {content : List UInt8} {m : Process} {calls : List Call}
    (h : allPermitted content m calls = true) :
    perform content m calls = (calls, runAll content m calls, true) := by
  induction calls generalizing m with
  | nil => rfl
  | cons call calls ih =>
      obtain ⟨hcall, hcalls⟩ := Bool.and_eq_true_iff.mp h
      rw [perform, if_pos hcall, ih hcalls]
      rfl

section

variable (malloc : Allocator) (content : List UInt8)

theorem segvHandler_of_none {exec : SoExec} (hparsed : exec.Parsed) (byte : UInt32 → UInt8)
    (fresh : UInt32) {a : UInt32} (h : serving exec a = none) :
    segvHandler byte fresh exec a = ⟨none, exec, soRunDefaultHandler a 0⟩ := by
  rcases segvHandler_cases hparsed byte fresh a with ⟨-, heq⟩ | ⟨i, hi, hfind, -⟩
  · exact heq
  · cases h.symm.trans hfind

theorem segvHandler_of_some {exec : SoExec} (hparsed : exec.Parsed) (byte : UInt32 → UInt8)
    (fresh : UInt32) {a : UInt32} {j : ℕ} {segment : SoSeg} (h : serving exec a = some j)
    (hsegment : exec.segments[j]? = some segment) :
    segvHandler byte fresh exec a = ⟨some j,
      { exec with segments := exec.segments.set j (soMapPageInMemory byte fresh segment a).1 },
      (soMapPageInMemory byte fresh segment a).2⟩ := by
  rcases segvHandler_cases hparsed byte fresh a with ⟨hfind, -⟩ | ⟨i, hi, hfind, heq⟩
  · cases h.symm.trans hfind
  · obtain rfl := Option.some.inj (h.symm.trans hfind)
    obtain ⟨-, rfl⟩ := List.getElem?_eq_some_iff.mp hsegment
    exact heq

/-- A fault leaves the layout alone. -/
theorem handle_sameLayout {s : Loaded} (hparsed : s.exec.Parsed) (turn : Turn) :
    SameLayout s.exec (handle malloc content s turn).1.exec := by
  unfold handle
  split_ifs
  · exact .of_fault hparsed ⟨_, _, rfl⟩
  · exact .refl _

/-- A fault that is not served for a segment leaves it as it is. -/
theorem handle_segment_of_ne {s : Loaded} (hparsed : s.exec.Parsed) {turn : Turn} {j : ℕ}
    (h : serving s.exec turn.pfAddr ≠ some j) :
    (handle malloc content s turn).1.exec.segments[j]? = s.exec.segments[j]? := by
  unfold handle
  split_ifs
  · dsimp only
    rcases segvHandler_cases hparsed (turn.program s.process).byte
      (freshTable malloc (turn.program s.process) s.exec turn.pfAddr) turn.pfAddr with
      ⟨-, heq⟩ | ⟨i, hi, hfind, heq⟩ <;> rw [heq]
    refine List.getElem?_set_ne fun hij => h ?_
    rw [serving, hfind, hij]
  · rfl

theorem handleAll_cons (s : Loaded) (turn : Turn) (turns : List Turn) :
    handleAll malloc content s (turn :: turns) =
      handleAll malloc content (handle malloc content s turn).1 turns := rfl

/-- A segment that has served no fault is as the parser left it. -/
theorem handleAll_segment {s : Loaded} (hparsed : s.exec.Parsed) (turns : List Turn) {j : ℕ}
    (h : ∀ turn ∈ turns, serving s.exec turn.pfAddr ≠ some j) :
    (handleAll malloc content s turns).exec.segments[j]? = s.exec.segments[j]? := by
  induction turns generalizing s with
  | nil => rfl
  | cons turn turns ih =>
      have hlayout := handle_sameLayout malloc content hparsed turn
      rw [handleAll_cons, ih (hlayout.parsed hparsed), handle_segment_of_ne malloc content hparsed]
      · exact h turn List.mem_cons_self
      · intro other hother
        rw [hlayout.serving_eq]
        exact h other (List.mem_cons_of_mem _ hother)

/-- A new table is empty. -/
theorem emptyTable_of_null (content : List UInt8) (m : Process) {segment : SoSeg} (fresh : UInt32)
    (hnull : segment.data = 0) : EmptyTable content m segment fresh := by
  intro p hp
  have hlt := (segment.memSize / pagesz).toNat_lt
  have hwithin : Within fresh (segment.memSize / pagesz).toNat (fresh + UInt32.ofNat p) :=
    (within_ofNat _ _ (hp.trans hlt)).mpr hp
  rw [SoSeg.allocation, if_pos hnull, if_pos hnull]
  refine ⟨?_, ?_⟩
  · unfold Process.readable
    rw [show (runAll content m [.calloc (segment.memSize / pagesz) fresh]).prot
      (fresh + UInt32.ofNat p) = some (permR ||| permW) from if_pos hwithin]
    decide
  · rw [show (runAll content m [.calloc (segment.memSize / pagesz) fresh]).byte
      (fresh + UInt32.ofNat p) = 0 from if_pos hwithin]
    decide

/-- Every segment with a whole page that is to serve a fault is left `NULL`. -/
theorem startsEmpty_of_null {s : Loaded} (hparsed : s.exec.Parsed) {turns : List Turn}
    (hnull : ∀ turn ∈ turns, ∀ j segment, serving s.exec turn.pfAddr = some j →
      s.exec.segments[j]? = some segment → 0 < segment.entries → segment.data = 0) :
    StartsEmpty malloc content s turns := by
  rintro before turn after j segment rfl hserving hfirst hsegment
  rw [handleAll_segment malloc content hparsed before hfirst] at hsegment
  by_cases hentries : 0 < segment.entries
  · exact emptyTable_of_null content _ _ (hnull turn (by simp) j segment hserving hsegment hentries)
  · intro p hp
    omega

/-- Two runs that differ at most in tables that no fault uses. -/
structure Alike (faults : Set UInt32) (s₁ s₂ : Loaded) : Prop where
  process : s₁.process = s₂.process
  alive : s₁.alive = s₂.alive
  layout : SameLayout s₁.exec s₂.exec
  used : ∀ a ∈ faults, ∀ j, serving s₁.exec a = some j →
    s₁.exec.segments[j]? = s₂.exec.segments[j]?

theorem servedSegment_eq_bind (exec : SoExec) (a : UInt32) :
    servedSegment exec a = (serving exec a).bind (exec.segments[·]?) := by
  cases hserving : serving exec a with
  | none =>
      exact List.find?_eq_none.mpr (by simpa using List.findIdx?_eq_none_iff.mp hserving)
  | some i =>
      obtain ⟨hi, htest, hfirst⟩ := List.findIdx?_eq_some_iff_getElem.mp hserving
      rw [Option.bind_some, List.getElem?_eq_getElem hi]
      exact List.find?_eq_some_iff_getElem.mpr
        ⟨htest, i, hi, rfl, fun j hj => by simpa using hfirst j hj⟩

theorem exists_of_serving {exec : SoExec} {a : UInt32} {j : ℕ} (h : serving exec a = some j) :
    ∃ segment, exec.segments[j]? = some segment := by
  obtain ⟨hj, -⟩ := List.findIdx?_eq_some_iff_getElem.mp h
  exact ⟨_, List.getElem?_eq_getElem hj⟩

/-- A fault of one of the addresses is handled the same in both runs, and they stay alike. -/
theorem Alike.handle {faults : Set UInt32} {s₁ s₂ : Loaded} (h : Alike faults s₁ s₂)
    (hparsed : s₁.exec.Parsed) {turn : Turn} (hfault : turn.pfAddr ∈ faults) :
    (handle malloc content s₁ turn).2 = (handle malloc content s₂ turn).2 ∧
      Alike faults (handle malloc content s₁ turn).1 (handle malloc content s₂ turn).1 := by
  obtain ⟨exec₁, m, alive⟩ := s₁
  obtain ⟨exec₂, m', alive'⟩ := s₂
  obtain ⟨hprocess, halive, hlayout, hused⟩ := h
  obtain rfl : m = m' := hprocess
  obtain rfl : alive = alive' := halive
  have hparsed₂ := hlayout.parsed hparsed
  have hlayout' := hlayout.serving_eq turn.pfAddr
  cases alive with
  | false => exact ⟨rfl, rfl, rfl, hlayout, hused⟩
  | true =>
      cases hserving : serving exec₁ turn.pfAddr with
      | none =>
          unfold Loader.handle
          rw [if_pos rfl, if_pos rfl]
          dsimp only
          rw [segvHandler_of_none hparsed _ _ hserving,
            segvHandler_of_none hparsed₂ _ _ (hlayout'.trans hserving)]
          exact ⟨rfl, rfl, rfl, hlayout, hused⟩
      | some j =>
          obtain ⟨segment, hsegment⟩ := exists_of_serving hserving
          have hsegment₂ := (hused _ hfault j hserving).symm.trans hsegment
          have hfresh : freshTable malloc (turn.program m) exec₁ turn.pfAddr =
              freshTable malloc (turn.program m) exec₂ turn.pfAddr := by
            rw [freshTable, freshTable, servedSegment_eq_bind, servedSegment_eq_bind, hserving,
              hlayout'.trans hserving, Option.bind_some, Option.bind_some, hsegment, hsegment₂]
          have hlayout₁ := handle_sameLayout malloc content
            (s := ⟨exec₁, m, true⟩) hparsed turn
          have hlayout₂ := handle_sameLayout malloc content
            (s := ⟨exec₂, m, true⟩) hparsed₂ turn
          unfold Loader.handle at hlayout₁ hlayout₂ ⊢
          rw [if_pos rfl] at hlayout₁ hlayout₂ ⊢
          rw [if_pos rfl]
          dsimp only at hlayout₁ hlayout₂ ⊢
          rw [← hfresh] at hlayout₂ ⊢
          rw [segvHandler_of_some hparsed _ _ hserving hsegment] at hlayout₁ ⊢
          rw [segvHandler_of_some hparsed₂ _ _ (hlayout'.trans hserving) hsegment₂] at hlayout₂ ⊢
          refine ⟨rfl, rfl, rfl, hlayout₁.symm.trans (hlayout.trans hlayout₂),
            fun a ha i hi => ?_⟩
          rw [hlayout₁.serving_eq] at hi
          have hold := hused a ha i hi
          dsimp only
          by_cases hij : j = i
          · subst hij
            rw [List.getElem?_set_self (List.getElem?_eq_some_iff.mp hsegment).1,
              List.getElem?_set_self (List.getElem?_eq_some_iff.mp hsegment₂).1]
          · rw [List.getElem?_set_ne hij, List.getElem?_set_ne hij, hold]

theorem Alike.handleAll {faults : Set UInt32} {s₁ s₂ : Loaded} (h : Alike faults s₁ s₂)
    (hparsed : s₁.exec.Parsed) {turns : List Turn} (hfaults : ∀ turn ∈ turns, turn.pfAddr ∈ faults) :
    Alike faults (handleAll malloc content s₁ turns) (handleAll malloc content s₂ turns) ∧
      (handleAll malloc content s₁ turns).exec.Parsed := by
  induction turns generalizing s₁ s₂ with
  | nil => exact ⟨h, hparsed⟩
  | cons turn turns ih =>
      have hnext := h.handle malloc content hparsed
        (hfaults turn List.mem_cons_self)
      exact ih hnext.2 ((handle_sameLayout malloc content hparsed turn).parsed hparsed)
        fun other hother => hfaults other (List.mem_cons_of_mem _ hother)

theorem Alike.sameDecisions {faults : Set UInt32} {s₁ s₂ : Loaded} (h : Alike faults s₁ s₂)
    (hparsed : s₁.exec.Parsed) {turns : List Turn} (hfaults : ∀ turn ∈ turns, turn.pfAddr ∈ faults) :
    SameDecisions malloc content s₁ s₂ turns := by
  rintro before turn after rfl
  obtain ⟨hbefore, hparsed'⟩ := h.handleAll malloc content hparsed
    fun other (hother : other ∈ before) => hfaults other (by simp [hother])
  exact (hbefore.handle malloc content hparsed' (hfaults turn (by simp))).1

theorem perform_cons_of_permitted {m : Process} {call : Call} (h : call.permitted m = true)
    (calls : List Call) :
    (perform content m (call :: calls)).1 = call :: (perform content (call.run content m) calls).1 := by
  rw [perform, if_pos h]

/-- Where the pointer leads to memory that may not be read, nothing is done about the fault. -/
theorem perform_of_unreadable {m : Process} {byte : UInt32 → UInt8} {fresh : UInt32}
    {segment : SoSeg} {a : UInt32} (hdata : segment.data ≠ 0)
    (hentry : m.readable (segment.data + pageIdx segment a) = false) :
    (perform content m (soMapPageInMemory byte fresh segment a).2).1 = [] := by
  obtain ⟨refusal, -, hcalls⟩ := soMapPageInMemory_calls byte fresh segment a
  have hload : (Call.load (segment.entry fresh a)).permitted m = false := by
    rw [SoSeg.entry, if_neg hdata]
    exact hentry
  rw [hcalls, SoSeg.allocation, if_neg hdata, List.nil_append, List.cons_append, perform, hload]
  rfl

/-- Where the entry can be read, something is done. -/
theorem perform_of_readable {m : Process} (byte : UInt32 → UInt8) {fresh : UInt32}
    {segment : SoSeg} {a : UInt32}
    (hentry : (runAll content m (segment.allocation fresh)).readable (segment.entry fresh a) = true) :
    ∃ call ∈ (perform content m (soMapPageInMemory byte fresh segment a).2).1,
      call.isTable = false := by
  obtain ⟨refusal, hrefusal, hcalls⟩ := soMapPageInMemory_calls byte fresh segment a
  obtain ⟨call, rest, hrest, hpermitted, htable⟩ : ∃ call rest,
      refusal ++ mapPage segment (pageIdx segment a) (segment.entry fresh a) = call :: rest ∧
        (∀ m : Process, call.permitted m = true) ∧ call.isTable = false := by
    rcases hrefusal with rfl | rfl
    · exact ⟨_, _, rfl, fun _ => rfl, rfl⟩
    · exact ⟨_, _, rfl, fun _ => rfl, rfl⟩
  have hmade : ∀ m' : Process, m'.readable (segment.entry fresh a) = true →
      call ∈ (perform content m' (.load (segment.entry fresh a) :: call :: rest)).1 := by
    intro m' hreads
    have hload : (Call.load (segment.entry fresh a)).permitted m' = true := hreads
    rw [perform_cons_of_permitted content hload, perform_cons_of_permitted content (hpermitted _)]
    exact List.mem_cons_of_mem _ List.mem_cons_self
  refine ⟨call, ?_, htable⟩
  rw [hcalls, List.append_assoc, List.cons_append, hrest]
  unfold SoSeg.allocation at hentry ⊢
  split_ifs at hentry ⊢
  · rw [List.singleton_append, perform_cons_of_permitted content rfl]
    exact List.mem_cons_of_mem _ (hmade _ hentry)
  · exact hmade _ hentry

/-- The calls of a first fault for which a segment is served. -/
theorem handle_calls {exec : SoExec} (hparsed : exec.Parsed) (m : Process) {a : UInt32} {j : ℕ}
    {segment : SoSeg} (h : serving exec a = some j) (hsegment : exec.segments[j]? = some segment) :
    (handle malloc content ⟨exec, m, true⟩ ⟨id, a⟩).2.map Decision.calls =
      some ((perform content m
        (soMapPageInMemory m.byte (freshTable malloc m exec a) segment a).2).1.filter
          fun call => !call.isTable) := by
  unfold handle
  rw [if_pos rfl]
  dsimp only [id]
  rw [segvHandler_of_some hparsed _ _ h hsegment]
  rfl

end

/-- Memory in which one address may not be accessed. -/
def memoryBut (x : UInt32) : Process :=
  ⟨fun _ => 0, fun b => if b = x then none else some (permR ||| permW), 0⟩

theorem memoryBut_readable {x b : UInt32} : (memoryBut x).readable b = true ↔ b ≠ x := by
  unfold Process.readable memoryBut
  by_cases h : b = x
  · simp [h]
  · simp [h, permR, permW]

/-- An allocator that returns one of two addresses, and not the one given. -/
def allocatorBut (x : UInt32) : Allocator where
  addr _ _ := if x = 0x9000000 then 0x9000010 else 0x9000000
  ne_null _ _ := by split_ifs <;> decide

theorem allocatorBut_ne (x : UInt32) (m : Process) (n : UInt32) : (allocatorBut x).addr m n ≠ x := by
  show (if x = 0x9000000 then 0x9000010 else 0x9000000) ≠ x
  split_ifs with h
  · rw [h]
    decide
  · exact fun heq => h heq.symm

/-- Memory that holds marks everywhere. -/
def markedMemory : Process := ⟨fun _ => 1, fun _ => some (permR ||| permW), 0⟩

/-- Two different pointers for a segment that serves a fault, of which one is not `NULL`: where that one
leads to memory that may not be accessed, the fault is decided in two ways. -/
theorem decisions_differ {content : List UInt8} {exec exec' : SoExec} (hparsed : exec.Parsed)
    (hlayout : SameLayout exec exec') {a : UInt32} {j : ℕ} {segment segment' : SoSeg}
    (hserving : serving exec a = some j) (hsegment : exec.segments[j]? = some segment)
    (hsegment' : exec'.segments[j]? = some segment') (hdata : segment.data ≠ 0)
    (hne : segment'.data ≠ segment.data) :
    (handle (allocatorBut segment.data) content
        ⟨exec, memoryBut (segment.data + pageIdx segment a), true⟩ ⟨id, a⟩).2 ≠
      (handle (allocatorBut segment.data) content
        ⟨exec', memoryBut (segment.data + pageIdx segment a), true⟩ ⟨id, a⟩).2 := by
  intro heq
  obtain ⟨other, hother, hsame⟩ := hlayout.get? hsegment
  obtain rfl := Option.some.inj (hother.symm.trans hsegment')
  have hcalls := congrArg (Option.map Decision.calls) heq
  rw [handle_calls _ content hparsed _ hserving hsegment, handle_calls _ content (hlayout.parsed hparsed) _
    ((hlayout.serving_eq a).trans hserving) hsegment', perform_of_unreadable content hdata] at hcalls
  · have hentry : ∀ fresh ≠ segment.data, other.entry fresh a ≠ segment.data + pageIdx segment a := by
      intro fresh hfresh hsum
      rw [SoSeg.entry, pageIdx_of_layout hsame, UInt32.add_left_inj] at hsum
      split_ifs at hsum
      · exact hfresh hsum
      · exact hne hsum
    have hreadable : ∀ fresh ≠ segment.data,
        (runAll content (memoryBut (segment.data + pageIdx segment a))
          (other.allocation fresh)).readable (other.entry fresh a) = true := by
      intro fresh hfresh
      have hold := memoryBut_readable.mpr (hentry fresh hfresh)
      unfold SoSeg.allocation
      split_ifs
      · by_cases hin : Within fresh (other.memSize / pagesz).toNat (other.entry fresh a)
        · unfold Process.readable
          rw [show (runAll content (memoryBut (segment.data + pageIdx segment a))
            [.calloc (other.memSize / pagesz) fresh]).prot (other.entry fresh a) =
              some (permR ||| permW) from if_pos hin]
          decide
        · unfold Process.readable at hold ⊢
          rw [show (runAll content (memoryBut (segment.data + pageIdx segment a))
            [.calloc (other.memSize / pagesz) fresh]).prot (other.entry fresh a) =
              (memoryBut (segment.data + pageIdx segment a)).prot (other.entry fresh a) from
                if_neg hin]
          exact hold
      · exact hold
    obtain ⟨call, hmem, htable⟩ := perform_of_readable content
      (memoryBut (segment.data + pageIdx segment a)).byte (hreadable _ (allocatorBut_ne segment.data
        (memoryBut (segment.data + pageIdx segment a)) _))
    have hnil := (Option.some.inj hcalls).symm
    have hfiltered := List.filter_eq_nil_iff.mp hnil call hmem
    rw [htable] at hfiltered
    exact hfiltered rfl
  · by_contra hreads
    rw [Bool.not_eq_false] at hreads
    exact memoryBut_readable.mp hreads rfl

/-- The faults up to 0x8049000 are served for the first segment. -/
theorem serving_abutting {a : UInt32} (ha : a ≤ 0x8049000) {j : ℕ} (h : serving abutting a = some j) :
    j = 0 := by
  obtain ⟨hj, htest, hfirst⟩ := List.findIdx?_eq_some_iff_getElem.mp h
  rcases Nat.lt_or_ge j 1 with hzero | hone
  · exact Nat.lt_one_iff.mp hzero
  obtain rfl : j = 1 := Nat.le_antisymm (Nat.le_of_lt_succ hj) hone
  have hle : (0x8049000 : UInt32) ≤ a :=
    UInt32.le_iff_toNat_le.mpr ((soPfInSegment_iff _ a).mp htest).1
  obtain rfl : a = 0x8049000 := UInt32.le_antisymm ha hle
  have haccepted : soPfInSegment ⟨0x8048000, 0x1000, 0x1000, 0, 5, 0⟩ 0x8049000 = true := rfl
  exact absurd haccepted (hfirst 0 Nat.one_pos)

/-- The two segments where `malloc` returned memory with one and the same pointer in it. -/
def shared : SoExec where
  baseAddr := 0x8048000
  entry := 0x8048000
  segmentsNo := 2
  segments := [⟨0x8048000, 0x1000, 0x1000, 0, 5, 0x9100000⟩,
    ⟨0x8049000, 0x1000, 0x1000, 0x1000, 3, 0x9100000⟩]

end OsHomeworks.Loader
