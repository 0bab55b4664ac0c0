import OsHomeworks.FirstMatch
import OsHomeworks.LoaderParser
import OsHomeworks.Runs
import Mathlib.Tactic.NormNum

/-! Demand paging: the fault handler of `loader.c`. A fault is served by the first segment whose test
passes. The test is made in 32-bit arithmetic and takes the address just behind the segment for an
address of the segment, so it is compared here with the exact one. -/

namespace OsHomeworks.Loader

open FirstMatch Runs

/-- What the handler does: system calls, library calls, a line on `stderr`, and how it reads and sets the
entry of a page in the table of a segment. `lseek` takes a signed offset, `read` a `size_t`. -/
inductive Call where
  | calloc (n addr : UInt32)
  | load (addr : UInt32)
  | signalDefault
  | stderr (text : String) (pfAddr : UInt32)
  | raise
  | mmap (addr length prot : UInt32)
  | memset (addr : UInt32)
  | lseek (offset : Int32)
  | read (addr count : UInt32)
  | mprotect (addr length prot : UInt32)
  deriving DecidableEq

/-- `min`. -/
def min (a b : Int32) : Int32 := if a > b then b else a

/-- `so_run_default_handler`. `SIGSEGV` is blocked while its handler runs, so `raise` returns and the
signal is delivered afterwards. -/
def soRunDefaultHandler (pfAddr : UInt32) (errCase : ℕ) : List Call :=
  [.signalDefault,
    if errCase = 0 then .stderr "[signal SIGSEGV: segmentation violation at addr %x].\n" pfAddr
    else .stderr "[signal SIGSEGV: invalid access permissions at %x].\n" pfAddr,
    .raise]

/-- `so_pf_in_segment`. -/
def soPfInSegment (segment : SoSeg) (pfAddr : UInt32) : Bool :=
  segment.vaddr + segment.memSize ≥ pfAddr && segment.vaddr ≤ pfAddr

/-- The address is one of the `n` from `addr` on. -/
def Within (addr : UInt32) (n : ℕ) (b : UInt32) : Prop := (b - addr).toNat < n

instance (addr : UInt32) (n : ℕ) (b : UInt32) : Decidable (Within addr n b) :=
  inferInstanceAs (Decidable ((b - addr).toNat < n))

/-- The bytes of memory after `calloc(n, 1)` has returned `addr`. -/
def calloc (n addr : UInt32) (byte : UInt32 → UInt8) : UInt32 → UInt8 :=
  fun b => if Within addr n.toNat b then 0 else byte b

def pageIdx (segment : SoSeg) (pfAddr : UInt32) : UInt32 := (pfAddr - segment.vaddr) / pagesz

/-- The calls of `so_map_page_in_memory` from `mmap` on; the entry of the page is at `entry`. -/
def mapPage (segment : SoSeg) (idx entry : UInt32) : List Call :=
  let pageOffset := idx * pagesz
  let mapStartAddr := segment.vaddr + pageOffset
  .mmap mapStartAddr pagesz permW :: .memset entry ::
    (if segment.fileSize > pageOffset then
      [.lseek (segment.offset + pageOffset).toInt32,
        .read mapStartAddr (min (segment.fileSize - pageOffset).toInt32 pagesz.toInt32).toUInt32]
    else []) ++
    [.mprotect mapStartAddr pagesz segment.perm]

/-- `so_map_page_in_memory`: the segment with its table of mapped pages, and the calls. Memory holds
`byte`, and `calloc` returns `fresh`. The calls are taken to succeed, and so are the accesses to the
table. -/
def soMapPageInMemory (byte : UInt32 → UInt8) (fresh : UInt32) (segment : SoSeg) (pfAddr : UInt32) :
    SoSeg × List Call :=
  let n := segment.memSize / pagesz
  let allocation := if segment.data = 0 then [.calloc n fresh] else []
  let byte := if segment.data = 0 then calloc n fresh byte else byte
  let data := if segment.data = 0 then fresh else segment.data
  let idx := pageIdx segment pfAddr
  let refusal := if byte (data + idx) = 1 then soRunDefaultHandler pfAddr 1 else []
  ({ segment with data := data },
    allocation ++ .load (data + idx) :: refusal ++ mapPage segment idx (data + idx))

/-- What the handler does: the segment on whose behalf it maps a page, the executable with that
segment's table, and the calls. -/
structure Handled where
  segment : Option ℕ
  exec : SoExec
  calls : List Call

/-- `segv_handler` for `SIGSEGV`. -/
def segvHandler (byte : UInt32 → UInt8) (fresh : UInt32) (exec : SoExec) (pfAddr : UInt32) :
    Handled :=
  match (exec.segments.take exec.segmentsNo).findIdx? (soPfInSegment · pfAddr) with
  | some segIdx =>
      match exec.segments[segIdx]? with
      | some segment =>
          let result := soMapPageInMemory byte fresh segment pfAddr
          ⟨some segIdx, { exec with segments := exec.segments.set segIdx result.1 }, result.2⟩
      | none => ⟨none, exec, []⟩
  | none => ⟨none, exec, soRunDefaultHandler pfAddr 0⟩

/-- One fault, at any address, whatever memory holds and wherever a new table is. -/
def Fault (exec : SoExec) (pfAddr : UInt32) (exec' : SoExec) : Prop :=
  ∃ byte fresh, (segvHandler byte fresh exec pfAddr).exec = exec'

namespace SoSeg

/-- The end of the segment, in exact arithmetic. -/
def stop (segment : SoSeg) : ℕ := segment.vaddr.toNat + segment.memSize.toNat

def Contains (segment : SoSeg) (addr : ℕ) : Prop :=
  segment.vaddr.toNat ≤ addr ∧ addr < segment.stop

/-- The segments have an address on one page in common. -/
def SharePage (segment segment' : SoSeg) : Prop :=
  ∃ a b, segment.Contains a ∧ segment'.Contains b ∧ a / 4096 = b / 4096

end SoSeg

/-- The segments occupy pairwise disjoint page ranges. -/
def SoExec.PageDisjoint (exec : SoExec) : Prop :=
  exec.segments.Pairwise fun segment segment' => ¬segment.SharePage segment'

/-- The test accepts the addresses of a segment that ends below 2^32 and the one behind them. -/
theorem soPfInSegment_iff (segment : SoSeg) (a : UInt32) :
    soPfInSegment segment a = true ↔
      segment.vaddr.toNat ≤ a.toNat ∧ a.toNat ≤ segment.stop ∧ segment.stop < 2 ^ 32 := by
  have hv := segment.vaddr.toNat_lt
  have hm := segment.memSize.toNat_lt
  have ha := a.toNat_lt
  unfold soPfInSegment SoSeg.stop
  rw [Bool.and_eq_true, decide_eq_true_iff, decide_eq_true_iff, ge_iff_le, UInt32.le_iff_toNat_le,
    UInt32.le_iff_toNat_le, UInt32.toNat_add]
  omega

/-- The test goes wrong at the address just behind a segment. -/
theorem boundary_iff (segment : SoSeg) (a : UInt32) :
    soPfInSegment segment a = true ∧ ¬segment.Contains a.toNat ↔ segment.stop = a.toNat := by
  have ha := a.toNat_lt
  have hv : segment.vaddr.toNat ≤ segment.stop := Nat.le_add_right _ _
  rw [soPfInSegment_iff, SoSeg.Contains]
  omega

/-- Where the scan has no occasion to go wrong: no segment that it comes to before the one that
contains the address, or no segment at all if none contains it, ends at the address, and the
segment that contains it ends below 2^32. -/
def Unambiguous (exec : SoExec) (a : UInt32) : Prop :=
  (∀ i (hi : i < exec.segments.length),
    (∀ k (hk : k < exec.segments.length), exec.segments[k].Contains a.toNat → i < k) →
      exec.segments[i].stop ≠ a.toNat) ∧
  ∀ k (hk : k < exec.segments.length), exec.segments[k].Contains a.toNat →
    exec.segments[k].stop < 2 ^ 32

/-- The handler maps a page on behalf of exactly the segment that contains the address; if there is
none it maps nothing and takes the default action. -/
def ResolvesExactly (byte : UInt32 → UInt8) (fresh : UInt32) (exec : SoExec) (a : UInt32) : Prop :=
  (∀ i (hi : i < exec.segments.length),
    (segvHandler byte fresh exec a).segment = some i ↔ exec.segments[i].Contains a.toNat) ∧
  ((∀ i (hi : i < exec.segments.length), ¬exec.segments[i].Contains a.toNat) →
    (segvHandler byte fresh exec a).segment = none ∧
      (segvHandler byte fresh exec a).calls = soRunDefaultHandler a 0)

/-- Pages are apart, so at most one segment contains an address. -/
theorem SoExec.PageDisjoint.atMostOne {exec : SoExec} (h : exec.PageDisjoint) (a : ℕ) :
    AtMostOne (fun segment : SoSeg => segment.Contains a) exec.segments := by
  have hlt : ∀ i j (hi : i < exec.segments.length) (hj : j < exec.segments.length),
      exec.segments[i].Contains a → exec.segments[j].Contains a → ¬i < j :=
    fun i j hi hj hci hcj hij => List.pairwise_iff_getElem.mp h i j hi hj hij ⟨a, a, hci, hcj, rfl⟩
  intro i j hi hj hci hcj
  have h1 := hlt i j hi hj hci hcj
  have h2 := hlt j i hj hi hcj hci
  omega

theorem exact_iff_unambiguous {exec : SoExec} (h : exec.PageDisjoint) (a : UInt32) :
    Exact (soPfInSegment · a) (fun segment => segment.Contains a.toNat) exec.segments ↔
      Unambiguous exec a := by
  rw [exact_iff (h.atMostOne a.toNat), Unambiguous, and_comm]
  refine and_congr ⟨fun hbehind i hi hfirst hstop => ?_, fun hapart i hi htest hnot => ?_⟩
    ⟨fun hpass k hk hc => ?_, fun hbelow k hk hc => ?_⟩
  · obtain ⟨htest, hnot⟩ := (boundary_iff _ a).mpr hstop
    obtain ⟨k, hk, hc, hlt⟩ := hbehind i hi htest hnot
    exact absurd (hfirst k hk hc) (by omega)
  · have hstop := (boundary_iff _ a).mp ⟨htest, hnot⟩
    by_contra hnone
    refine hapart i hi (fun k hk hc => ?_) hstop
    have hle : i ≤ k := by
      by_contra hlt
      exact hnone ⟨k, hk, hc, by omega⟩
    refine Nat.lt_of_le_of_ne hle ?_
    rintro rfl
    exact hnot hc
  · exact ((soPfInSegment_iff _ a).mp (hpass k hk hc)).2.2
  · exact (soPfInSegment_iff _ a).mpr ⟨hc.1, hc.2.le, hbelow k hk hc⟩

/-- The handler serves the first segment whose test passes. -/
theorem segvHandler_cases {exec : SoExec} (hparsed : exec.Parsed) (byte : UInt32 → UInt8)
    (fresh a : UInt32) :
    (exec.segments.findIdx? (soPfInSegment · a) = none ∧
      segvHandler byte fresh exec a = ⟨none, exec, soRunDefaultHandler a 0⟩) ∨
    ∃ i, ∃ hi : i < exec.segments.length,
      exec.segments.findIdx? (soPfInSegment · a) = some i ∧
      segvHandler byte fresh exec a = ⟨some i,
        { exec with
          segments := exec.segments.set i (soMapPageInMemory byte fresh exec.segments[i] a).1 },
        (soMapPageInMemory byte fresh exec.segments[i] a).2⟩ := by
  unfold segvHandler
  rw [hparsed.counted, List.take_length]
  cases hfind : exec.segments.findIdx? (soPfInSegment · a) with
  | none => exact Or.inl ⟨rfl, rfl⟩
  | some i =>
      obtain ⟨hi, -⟩ := List.findIdx?_eq_some_iff_getElem.mp hfind
      refine Or.inr ⟨i, hi, rfl, ?_⟩
      dsimp only
      rw [List.getElem?_eq_getElem hi]

theorem resolvesExactly_iff {exec : SoExec} (hparsed : exec.Parsed) (hdisjoint : exec.PageDisjoint)
    (byte : UInt32 → UInt8) (fresh a : UInt32) :
    ResolvesExactly byte fresh exec a ↔ Unambiguous exec a := by
  have hsegment : (segvHandler byte fresh exec a).segment =
      exec.segments.findIdx? (soPfInSegment · a) := by
    rcases segvHandler_cases hparsed byte fresh a with ⟨hfind, heq⟩ | ⟨i, hi, hfind, heq⟩ <;>
      rw [heq, hfind]
  rw [← exact_iff_unambiguous hdisjoint, ResolvesExactly, hsegment]
  refine ⟨fun h => h.1, fun hexact => ⟨hexact, fun hnone => ?_⟩⟩
  have hfind := findIdx_none hexact hnone
  rcases segvHandler_cases hparsed byte fresh a with ⟨-, heq⟩ | ⟨i, hi, hfind', -⟩
  · exact ⟨hfind, by rw [heq]⟩
  · cases hfind.symm.trans hfind'

/-- A segment without its table of mapped pages. -/
def SoSeg.layout (segment : SoSeg) : SoSeg := { segment with data := 0 }

/-- The page index does not depend on the table. -/
theorem pageIdx_of_layout {segment segment' : SoSeg} (h : segment'.layout = segment.layout)
    (a : UInt32) : pageIdx segment' a = pageIdx segment a := by
  show pageIdx segment'.layout a = pageIdx segment.layout a
  rw [h]

/-- Neither do the calls for a page, the mark in the table aside. -/
theorem mapPage_of_layout {segment segment' : SoSeg} (h : segment'.layout = segment.layout)
    (idx entry : UInt32) : mapPage segment' idx entry = mapPage segment idx entry := by
  show mapPage segment'.layout idx entry = mapPage segment.layout idx entry
  rw [h]

/-- The same segments, up to their tables. -/
structure SameLayout (exec exec' : SoExec) : Prop where
  segmentsNo : exec'.segmentsNo = exec.segmentsNo
  segments : exec'.segments.map SoSeg.layout = exec.segments.map SoSeg.layout

namespace SameLayout

variable {exec exec' exec'' : SoExec}

theorem refl (exec : SoExec) : SameLayout exec exec := ⟨rfl, rfl⟩

theorem trans (h : SameLayout exec exec') (h' : SameLayout exec' exec'') :
    SameLayout exec exec'' := ⟨h'.segmentsNo.trans h.segmentsNo, h'.segments.trans h.segments⟩

theorem symm (h : SameLayout exec exec') : SameLayout exec' exec :=
  ⟨h.segmentsNo.symm, h.segments.symm⟩

theorem length (h : SameLayout exec exec') : exec'.segments.length = exec.segments.length := by
  have hlength := congrArg List.length h.segments
  rwa [List.length_map, List.length_map] at hlength

theorem get (h : SameLayout exec exec') {i : ℕ} (hi : i < exec'.segments.length)
    (hi' : i < exec.segments.length) : exec'.segments[i].layout = exec.segments[i].layout := by
  have hget := List.getElem_of_eq h.segments (by rwa [List.length_map])
  rwa [List.getElem_map, List.getElem_map] at hget

theorem stop (h : SameLayout exec exec') {i : ℕ} (hi : i < exec'.segments.length)
    (hi' : i < exec.segments.length) : exec'.segments[i].stop = exec.segments[i].stop := by
  show exec'.segments[i].layout.stop = exec.segments[i].layout.stop
  rw [h.get hi hi']

theorem contains (h : SameLayout exec exec') {i : ℕ} (hi : i < exec'.segments.length)
    (hi' : i < exec.segments.length) (a : ℕ) :
    exec'.segments[i].Contains a ↔ exec.segments[i].Contains a := by
  show exec'.segments[i].layout.Contains a ↔ exec.segments[i].layout.Contains a
  rw [h.get hi hi']

theorem parsed (h : SameLayout exec exec') (hparsed : exec.Parsed) : exec'.Parsed := by
  refine ⟨fun segment hmem => ?_, ?_⟩
  · obtain ⟨i, hi, rfl⟩ := List.getElem_of_mem hmem
    have hi' : i < exec.segments.length := h.length ▸ hi
    show exec'.segments[i].layout.vaddr.toNat % 4096 = 0
    rw [h.get hi hi']
    exact hparsed.aligned exec.segments[i] (List.getElem_mem hi')
  · rw [h.segmentsNo, h.length]
    exact hparsed.counted

theorem pageDisjoint (h : SameLayout exec exec') (hdisjoint : exec.PageDisjoint) :
    exec'.PageDisjoint := by
  refine List.pairwise_iff_getElem.mpr fun i j hi hj hij => ?_
  have hi' : i < exec.segments.length := h.length ▸ hi
  have hj' : j < exec.segments.length := h.length ▸ hj
  rintro ⟨a, b, ha, hb, hpage⟩
  exact List.pairwise_iff_getElem.mp hdisjoint i j hi' hj' hij
    ⟨a, b, (h.contains hi hi' a).mp ha, (h.contains hj hj' b).mp hb, hpage⟩

theorem unambiguous (h : SameLayout exec exec') (a : UInt32) :
    Unambiguous exec' a ↔ Unambiguous exec a := by
  have hlength := h.length
  constructor
  · rintro ⟨hapart, hbelow⟩
    refine ⟨fun i hi hfirst => ?_, fun k hk hc => ?_⟩
    · have hi' : i < exec'.segments.length := hlength ▸ hi
      rw [← h.stop hi' hi]
      exact hapart i hi' fun k hk hc => hfirst k (hlength ▸ hk) ((h.contains hk _ _).mp hc)
    · have hk' : k < exec'.segments.length := hlength ▸ hk
      rw [← h.stop hk' hk]
      exact hbelow k hk' ((h.contains hk' hk _).mpr hc)
  · rintro ⟨hapart, hbelow⟩
    refine ⟨fun i hi hfirst => ?_, fun k hk hc => ?_⟩
    · have hi' : i < exec.segments.length := hlength ▸ hi
      rw [h.stop hi hi']
      exact hapart i hi' fun k hk hc => hfirst k (hlength ▸ hk) ((h.contains _ hk _).mpr hc)
    · have hk' : k < exec.segments.length := hlength ▸ hk
      rw [h.stop hk hk']
      exact hbelow k hk' ((h.contains hk hk' _).mp hc)

theorem of_fault (hparsed : exec.Parsed) {a : UInt32} (h : Fault exec a exec') :
    SameLayout exec exec' := by
  obtain ⟨byte, fresh, rfl⟩ := h
  rcases segvHandler_cases hparsed byte fresh a with ⟨-, heq⟩ | ⟨i, hi, -, heq⟩ <;> rw [heq]
  · exact .refl exec
  · refine ⟨rfl, ?_⟩
    dsimp only
    rw [List.map_set]
    have hi' : i < (exec.segments.map SoSeg.layout).length := by rwa [List.length_map]
    have hself : (soMapPageInMemory byte fresh exec.segments[i] a).1.layout =
        (exec.segments.map SoSeg.layout)[i] := by
      rw [List.getElem_map]
      rfl
    rw [hself, List.set_getElem_self]

theorem of_run (hparsed : exec.Parsed) {as : List UInt32} (h : Run Fault exec as exec') :
    SameLayout exec exec' := by
  induction h with
  | nil exec => exact .refl exec
  | cons hfault _ ih =>
      have hstep := of_fault hparsed hfault
      exact hstep.trans (ih (hstep.parsed hparsed))

end SameLayout

def Call.isSetup : Call → Bool
  | .mmap _ _ _ => true
  | .lseek _ => true
  | .read _ _ => true
  | .mprotect _ _ _ => true
  | _ => false

/-- The calls that give a page its content and its permissions. -/
def Handled.setup (handled : Handled) : List Call := handled.calls.filter Call.isSetup

/-- What a page is given does not depend on the table. -/
theorem soMapPageInMemory_setup (byte : UInt32 → UInt8) (fresh : UInt32) (segment : SoSeg)
    (a : UInt32) :
    (soMapPageInMemory byte fresh segment a).2.filter Call.isSetup =
      (mapPage segment (pageIdx segment a) 0).filter Call.isSetup := by
  unfold soMapPageInMemory soRunDefaultHandler
  dsimp only
  rw [List.filter_append, List.filter_append]
  split_ifs <;> rfl

/-- The index of a page does not depend on the address on it. -/
theorem pageIdx_eq {segment : SoSeg} (haligned : segment.vaddr.toNat % 4096 = 0) {a b : UInt32}
    (ha : segment.vaddr ≤ a) (hb : segment.vaddr ≤ b) (hpage : a.toNat / 4096 = b.toNat / 4096) :
    pageIdx segment a = pageIdx segment b := by
  have hsize : pagesz.toNat = 4096 := rfl
  apply UInt32.toNat_inj.mp
  rw [pageIdx, pageIdx, UInt32.toNat_div, UInt32.toNat_div, UInt32.toNat_sub_of_le _ _ ha,
    UInt32.toNat_sub_of_le _ _ hb, hsize]
  omega

/-- Faults on one page of a segment, in any two states of the run, give the page the same. -/
theorem setup_eq {exec exec₁ exec₂ : SoExec} (hparsed : exec.Parsed)
    (hdisjoint : exec.PageDisjoint) (h₁ : SameLayout exec exec₁) (h₂ : SameLayout exec exec₂)
    (byte₁ byte₂ : UInt32 → UInt8) (fresh₁ fresh₂ : UInt32) {a b : UInt32} {k : ℕ}
    (hk : k < exec.segments.length) (ha : exec.segments[k].Contains a.toNat)
    (hb : exec.segments[k].Contains b.toNat) (hpage : a.toNat / 4096 = b.toNat / 4096)
    (hok : Unambiguous exec a) (hok' : Unambiguous exec b) :
    (segvHandler byte₁ fresh₁ exec₁ a).setup = (segvHandler byte₂ fresh₂ exec₂ b).setup := by
  have hserved : ∀ (exec' : SoExec) (byte : UInt32 → UInt8) (fresh c : UInt32),
      SameLayout exec exec' → exec.segments[k].Contains c.toNat → Unambiguous exec c →
      (segvHandler byte fresh exec' c).setup =
        (mapPage exec.segments[k] (pageIdx exec.segments[k] c) 0).filter Call.isSetup := by
    intro exec' byte fresh c h hc hokc
    have hk' : k < exec'.segments.length := h.length ▸ hk
    have hresolves := (resolvesExactly_iff (h.parsed hparsed) (h.pageDisjoint hdisjoint) byte fresh
      c).mpr ((h.unambiguous c).mpr hokc)
    have hsegment := (hresolves.1 k hk').mpr ((h.contains hk' hk _).mpr hc)
    rcases segvHandler_cases (h.parsed hparsed) byte fresh c with ⟨-, heq⟩ | ⟨i, hi, -, heq⟩ <;>
      rw [heq] at hsegment ⊢
    · cases hsegment
    · obtain rfl := Option.some.inj hsegment
      calc (soMapPageInMemory byte fresh exec'.segments[i] c).2.filter Call.isSetup
          = (mapPage exec'.segments[i] (pageIdx exec'.segments[i] c) 0).filter Call.isSetup :=
            soMapPageInMemory_setup byte fresh _ c
        _ = (mapPage exec'.segments[i] (pageIdx exec.segments[i] c) 0).filter Call.isSetup := by
            rw [pageIdx_of_layout (h.get hi hk)]
        _ = (mapPage exec.segments[i] (pageIdx exec.segments[i] c) 0).filter Call.isSetup := by
            rw [mapPage_of_layout (h.get hi hk)]
  have hle : ∀ c : UInt32, exec.segments[k].Contains c.toNat → exec.segments[k].vaddr ≤ c :=
    fun c hc => UInt32.le_iff_toNat_le.mpr hc.1
  rw [hserved exec₁ byte₁ fresh₁ a h₁ ha hok, hserved exec₂ byte₂ fresh₂ b h₂ hb hok',
    pageIdx_eq (hparsed.aligned _ (List.getElem_mem hk)) (hle a ha) (hle b hb) hpage]

/-- For every accepted executable with page-disjoint segments and every fault in every run, the
handler resolves the fault exactly if and only if the scan has no occasion to go wrong; and then
what a page is given depends neither on the address of its first fault nor on the state. -/
theorem fault_resolution {file : File} {stack : Memory} {uninitialised : ℕ → UInt32} {exec : SoExec}
    (hparse : soParseExec file stack uninitialised = .ok exec) (hdisjoint : exec.PageDisjoint) :
    (∀ as exec' byte fresh a, Run Fault exec as exec' →
      (ResolvesExactly byte fresh exec' a ↔ Unambiguous exec a)) ∧
    ∀ as₁ as₂ exec₁ exec₂ byte₁ byte₂ fresh₁ fresh₂ a b k (hk : k < exec.segments.length),
      Run Fault exec as₁ exec₁ → Run Fault exec as₂ exec₂ →
      exec.segments[k].Contains a.toNat → exec.segments[k].Contains b.toNat →
      a.toNat / 4096 = b.toNat / 4096 → Unambiguous exec a → Unambiguous exec b →
      (segvHandler byte₁ fresh₁ exec₁ a).setup = (segvHandler byte₂ fresh₂ exec₂ b).setup := by
  have hparsed := parsed_of_accepted hparse
  refine ⟨fun as exec' byte fresh a hrun => ?_, ?_⟩
  · have h := SameLayout.of_run hparsed hrun
    rw [resolvesExactly_iff (h.parsed hparsed) (h.pageDisjoint hdisjoint), h.unambiguous]
  · intro as₁ as₂ exec₁ exec₂ byte₁ byte₂ fresh₁ fresh₂ a b k hk hrun₁ hrun₂ ha hb hpage hok hok'
    exact setup_eq hparsed hdisjoint (.of_run hparsed hrun₁) (.of_run hparsed hrun₂) byte₁ byte₂
      fresh₁ fresh₂ hk ha hb hpage hok hok'

/-- An executable with two segments of one page, at 0x8048000 and at 0x8049000. -/
def abuttingFile : List UInt8 :=
  [0x7f, 0x45, 0x4c, 0x46, 1, 1, 1, 0, 0, 0, 0, 0, 0, 0, 0, 0, 2, 0, 3, 0, 1, 0, 0, 0,
    0x00, 0x80, 0x04, 0x08, 52, 0, 0, 0, 0, 0, 0, 0, 0, 0, 0, 0, 52, 0, 32, 0, 2, 0, 0, 0, 0, 0, 0, 0] ++
  [1, 0, 0, 0, 0, 0, 0, 0, 0x00, 0x80, 0x04, 0x08, 0, 0, 0, 0, 0, 0x10, 0, 0, 0, 0x10, 0, 0,
    5, 0, 0, 0, 0, 0x10, 0, 0] ++
  [1, 0, 0, 0, 0, 0x10, 0, 0, 0x00, 0x90, 0x04, 0x08, 0, 0, 0, 0, 0, 0x10, 0, 0, 0, 0x10, 0, 0,
    6, 0, 0, 0, 0, 0x10, 0, 0]

def abutting : SoExec where
  baseAddr := 0x8048000
  entry := 0x8048000
  segmentsNo := 2
  segments := [⟨0x8048000, 0x1000, 0x1000, 0, 5, 0⟩, ⟨0x8049000, 0x1000, 0x1000, 0x1000, 3, 0⟩]

theorem parse_abutting :
    soParseExec (.bytes abuttingFile) (fun _ => 0) (fun _ => 0) = .ok abutting := by
  rfl

theorem abutting_pageDisjoint : abutting.PageDisjoint := by
  refine List.pairwise_pair.mpr ?_
  rintro ⟨a, b, ⟨-, ha⟩, ⟨hb, -⟩, hpage⟩
  have hstop : (SoSeg.mk 0x8048000 0x1000 0x1000 0 5 0).stop = 0x8049000 := rfl
  have hstart : (SoSeg.mk 0x8049000 0x1000 0x1000 0x1000 3 0).vaddr.toNat = 0x8049000 := rfl
  rw [hstop] at ha
  rw [hstart] at hb
  omega

theorem fault_resolution_abutting :
    ResolvesExactly (fun _ => 0) 0x9000000 abutting 0x8048ffc ↔ Unambiguous abutting 0x8048ffc :=
  (fault_resolution parse_abutting abutting_pageDisjoint).1 [] abutting _ _ _ (.nil abutting)

/-- The first address of the second segment is served for the first one. -/
theorem boundary_misresolved :
    soParseExec (.bytes abuttingFile) (fun _ => 0) (fun _ => 0) = .ok abutting ∧
      abutting.PageDisjoint ∧ ¬ResolvesExactly (fun _ => 0) 0x9000000 abutting 0x8049000 := by
  refine ⟨parse_abutting, abutting_pageDisjoint, fun h => ?_⟩
  have hserved := (h.1 1 (by decide)).mpr ⟨by decide, by decide⟩
  have hfirst : (segvHandler (fun _ => 0) 0x9000000 abutting 0x8049000).segment = some 0 := by decide +kernel
  rw [hfirst] at hserved
  cases hserved

end OsHomeworks.Loader
