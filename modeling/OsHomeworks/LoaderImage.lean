import OsHomeworks.LoaderMemory

/-! The page that a fault maps, against the program header of its segment. The parser moves the start
of a segment down to a page boundary and the file offset with it, the mapper works with the moved
values; put together they give the page the bytes and the permissions that the header asks for, as
long as the offset of the page is one that `lseek` takes. -/

namespace OsHomeworks.Loader

open Runs

/-- The calls give an address of the page its byte of the file, if the file has one for it there. Only
the entry of the table may hold something else. -/
theorem byte_mapPage (content : List UInt8) (m : Process) {segment : SoSeg} {idx entry b : UInt32}
    (hoffset : (idx * pagesz).toNat < segment.fileSize.toNat →
      (segment.offset + idx * pagesz).toNat < 2 ^ 31)
    (hb : Within (segment.vaddr + idx * pagesz) 4096 b) (hentry : b ≠ entry) :
    (runAll content m (mapPage segment idx entry)).byte b =
      if (idx * pagesz).toNat + (b - (segment.vaddr + idx * pagesz)).toNat < segment.fileSize.toNat
      then content.getD ((segment.offset + idx * pagesz).toNat +
        (b - (segment.vaddr + idx * pagesz)).toNat) 0
      else 0 := by
  have hk : (b - (segment.vaddr + idx * pagesz)).toNat < 4096 := hb
  by_cases hsize : idx * pagesz < segment.fileSize
  · have hlt := UInt32.lt_iff_toNat_lt.mp hsize
    have hread := lt_delivered_readState content m entry b hsize
    have hposition := readState_position content m segment idx entry
    have hzero : (readState content m segment idx entry).byte b = 0 := by
      show ((Call.lseek _).run content _).byte b = 0
      rw [lseek_run]
      exact (Function.update_of_ne hentry _ _).trans (if_pos hb)
    rw [soughtPosition, if_pos (hoffset hlt)] at hposition hread
    rw [mapPage_of_lt hsize]
    show (if (b - (segment.vaddr + idx * pagesz)).toNat < _ then
      content.getD ((readState content m segment idx entry).position + _) 0
      else (readState content m segment idx entry).byte b) = _
    rw [hzero, hposition]
    by_cases hin : (idx * pagesz).toNat + (b - (segment.vaddr + idx * pagesz)).toNat <
        segment.fileSize.toNat
    · rw [if_pos hin]
      split_ifs with hdelivered
      · rfl
      · -- nothing is delivered past the end of the file, where `getD` has nothing either
        refine (List.getD_eq_default _ _ ?_).symm
        by_contra hfull
        exact hdelivered (hread.mpr (Or.inl ⟨hk, hin, by omega⟩))
    · rw [if_neg hin]
      refine if_neg fun hdelivered => ?_
      rcases hread.mp hdelivered with ⟨-, hin', -⟩ | hover
      · exact hin hin'
      · have hasked := hover.asked
        omega
  · rw [mapPage_of_not_lt hsize]
    have hle := UInt32.le_iff_toNat_le.mp (UInt32.not_lt.mp hsize)
    rw [if_neg (by omega)]
    exact (Function.update_of_ne hentry _ _).trans (if_pos hb)

/-- They give the whole page the permissions of the segment. -/
theorem prot_mapPage (content : List UInt8) (m : Process) {segment : SoSeg} (idx entry : UInt32)
    {b : UInt32} (hb : Within (segment.vaddr + idx * pagesz) 4096 b) :
    (runAll content m (mapPage segment idx entry)).prot b = some segment.perm := by
  by_cases hsize : idx * pagesz < segment.fileSize
  · rw [mapPage_of_lt hsize]
    exact if_pos hb
  · rw [mapPage_of_not_lt hsize]
    exact if_pos hb

/-- The permissions are those of the flags, and no others; `PERM_R`, `PERM_W` and `PERM_X` have the
values of `PROT_READ`, `PROT_WRITE` and `PROT_EXEC`. -/
structure Grants (prot flags : UInt32) : Prop where
  read : prot &&& permR ≠ 0 ↔ flags &&& pfR ≠ 0
  write : prot &&& permW ≠ 0 ↔ flags &&& pfW ≠ 0
  execute : prot &&& permX ≠ 0 ↔ flags &&& pfX ≠ 0
  only : prot &&& ~~~(permR ||| permW ||| permX) = 0

/-- A header to load whose file offset is congruent to its address, and whose sizes are in order. -/
structure Loadable (header : Phdr) : Prop where
  load : header.type = ptLoad
  congruent : header.offset.toNat % 4096 = header.vaddr.toNat % 4096
  sizes : header.filesz ≤ header.memsz
  bounded : header.memsz.toNat + 4096 < 2 ^ 31

theorem soSeg_grants (header : Phdr) (data : UInt32) :
    Grants (soSeg header data).perm header.flags := by
  unfold soSeg
  dsimp only
  split_ifs <;> refine ⟨?_, ?_, ?_, by decide⟩
  all_goals
    first
    | exact iff_of_true (by decide) (by assumption)
    | exact iff_of_false (by decide) (by assumption)

theorem soSeg_vaddr (header : Phdr) (data : UInt32) :
    (soSeg header data).vaddr.toNat = header.vaddr.toNat / 4096 * 4096 := alignDown_toNat _

/-- How far the start of the segment is moved down. -/
theorem diff_toNat (v : UInt32) : (v - alignDown v pagesz).toNat = v.toNat % 4096 := by
  have halign := alignDown_toNat v
  rw [UInt32.toNat_sub_of_le _ _ (UInt32.le_iff_toNat_le.mpr (by omega)), halign]
  omega

namespace Loadable

variable {header : Phdr}

theorem fileSize (h : Loadable header) (data : UInt32) :
    (soSeg header data).fileSize.toNat = header.filesz.toNat + header.vaddr.toNat % 4096 := by
  have hsizes := UInt32.le_iff_toNat_le.mp h.sizes
  have hbounded := h.bounded
  show (header.filesz + (header.vaddr - alignDown header.vaddr pagesz)).toNat = _
  rw [UInt32.toNat_add, diff_toNat]
  omega

theorem offset (h : Loadable header) (data : UInt32) :
    (soSeg header data).offset.toNat = header.offset.toNat / 4096 * 4096 := by
  have hcongruent := h.congruent
  have hlt := header.offset.toNat_lt
  show (header.offset - (header.vaddr - alignDown header.vaddr pagesz)).toNat = _
  rw [UInt32.toNat_sub_of_le _ _ (UInt32.le_iff_toNat_le.mpr ?_), diff_toNat]
  · omega
  · rw [diff_toNat]
    omega

end Loadable

/-- What a page of a header's segment is to hold: the bytes of the file at the header's offset, as
far as the header's file size goes, and zeros behind them. A file has no bytes past its end. -/
def imageByte (content : List UInt8) (header : Phdr) (b : UInt32) : UInt8 :=
  if b.toNat < header.vaddr.toNat + header.filesz.toNat then
    content.getD (header.offset.toNat + b.toNat - header.vaddr.toNat) 0
  else 0

/-- The offset of a page in the file is one that `lseek` takes, or the page is all behind the bytes that
the header has in the file. -/
def Seekable (header : Phdr) (a : UInt32) : Prop :=
  header.offset.toNat + page a * 4096 < header.vaddr.toNat + 2 ^ 31 ∨
    header.vaddr.toNat + header.filesz.toNat ≤ page a * 4096

/-- The calls for a page of the segment give the page what its header asks for. -/
theorem mapPage_image {header : Phdr} (hload : Loadable header) (content : List UInt8) (m : Process)
    (data entry : UInt32) {a b : UInt32} (ha : (soSeg header data).vaddr ≤ a)
    (hseek : Seekable header a) (hpage : page b = page a) (hentry : b ≠ entry) :
    (runAll content m (mapPage (soSeg header data) (pageIdx (soSeg header data) a) entry)).byte b =
      imageByte content header b := by
  have hvaddr := soSeg_vaddr header data
  have hfile := hload.fileSize data
  have hoffset := hload.offset data
  generalize soSeg header data = segment at ha hvaddr hfile hoffset ⊢
  have hstart : (mapStart segment a).toNat = page a * 4096 := mapStart_toNat (by omega) ha
  have hpageOffset := pageOffset_toNat ha
  have hwithin := (within_page hstart b).mpr hpage
  have hdistance : (b - mapStart segment a).toNat = b.toNat - page a * 4096 := by
    rw [UInt32.toNat_sub_of_le _ _ (UInt32.le_iff_toNat_le.mpr ?_), hstart]
    rw [hstart, ← hpage, page]
    omega
  have hle := UInt32.le_iff_toNat_le.mp ha
  have hsizes := UInt32.le_iff_toNat_le.mp hload.sizes
  have hbounded := hload.bounded
  have hcongruent := hload.congruent
  have hoffsetLt := header.offset.toNat_lt
  have hb : page a * 4096 ≤ b.toNat ∧ b.toNat < page a * 4096 + 4096 := by
    rw [← hpage, page]
    omega
  -- where the file is read, its offset is below 2^31 and does not wrap
  have hposition : (pageIdx segment a * pagesz).toNat < segment.fileSize.toNat →
      (segment.offset + pageIdx segment a * pagesz).toNat =
        header.offset.toNat / 4096 * 4096 + (a.toNat - segment.vaddr.toNat) / 4096 * 4096 ∧
      (segment.offset + pageIdx segment a * pagesz).toNat < 2 ^ 31 := by
    rw [hpageOffset, hfile, UInt32.toNat_add, hpageOffset, hoffset]
    rw [Seekable, page] at hseek
    omega
  have hinFile : (pageIdx segment a * pagesz).toNat + (b - mapStart segment a).toNat <
      segment.fileSize.toNat ↔ b.toNat < header.vaddr.toNat + header.filesz.toNat := by
    rw [hpageOffset, hdistance, hfile]
    rw [page] at hb hstart ⊢
    omega
  rw [byte_mapPage content m (fun h => (hposition h).2) hwithin hentry, imageByte]
  by_cases hin : b.toNat < header.vaddr.toNat + header.filesz.toNat
  · rw [if_pos hin]
    obtain ⟨hsum, -⟩ := hposition (Nat.lt_of_le_of_lt (Nat.le_add_right _ _) (hinFile.mpr hin))
    refine (if_pos (hinFile.mpr hin)).trans (congrArg (fun k => content.getD k 0) ?_)
    show _ + (b - mapStart segment a).toNat = _
    rw [hsum, hdistance]
    rw [page] at hb hstart ⊢
    omega
  · rw [if_neg hin]
    exact if_neg fun h => hin (hinFile.mp h)

/-- Header `i` of a file, as the parser reads it. -/
def programHeader (content : List UInt8) (stack : Memory) (i : ℕ) : Phdr :=
  phdr (readHdr content stack) (ehdr (readHdr content stack)).phoff i

/-- The segment made from header `i`: there is one for each header to load before it. -/
def segmentOf (content : List UInt8) (stack : Memory) (i : ℕ) : ℕ :=
  (List.range i).countP fun k => (programHeader content stack k).type = ptLoad

/-- In every run the segment of a header has the fields that the parser gave it, up to its table. -/
theorem segment_of_run {content : List UInt8} {stack : Memory}
    {uninitialised : ℕ → UInt32} {exec exec' : SoExec}
    (hparse : soParseExec (.bytes content) stack uninitialised = .ok exec) {i : ℕ}
    (hi : i < (ehdr (readHdr content stack)).phnum.toNat)
    (hload : (programHeader content stack i).type = ptLoad) {as : List UInt32}
    (hrun : Run Fault exec as exec') (hj : segmentOf content stack i < exec'.segments.length) :
    ∃ data, exec'.segments[segmentOf content stack i].layout =
      (soSeg (programHeader content stack i) data).layout := by
  have hlayout := SameLayout.of_run (parsed_of_accepted hparse) hrun
  obtain ⟨content', hcontent, rfl⟩ := loadExec_of_accepted hparse
  obtain rfl := File.bytes.inj hcontent
  obtain ⟨data, hsegment⟩ := loadExec_segment (ehdr (readHdr content stack))
    (programHeader content stack) uninitialised hi hload
  obtain ⟨hj', hget⟩ := List.getElem?_eq_some_iff.mp hsegment
  refine ⟨data, ?_⟩
  rw [hlayout.get hj hj']
  exact congrArg SoSeg.layout hget

/-- In every run of an accepted executable, every fault that is served for the segment of a header, on
a page whose offset `lseek` takes, leaves the page with the bytes and the permissions that the header
asks for; only the entry of the segment's table may hold a mark, should it be on the page. -/
theorem loaded_page_eq_image {content : List UInt8} {stack : Memory} {uninitialised : ℕ → UInt32}
    {exec exec' : SoExec} (hparse : soParseExec (.bytes content) stack uninitialised = .ok exec)
    {i : ℕ} (hi : i < (ehdr (readHdr content stack)).phnum.toNat)
    (hload : Loadable (programHeader content stack i)) {as : List UInt32}
    (hrun : Run Fault exec as exec') {segment : SoSeg}
    (hsegment : exec'.segments[segmentOf content stack i]? = some segment) (m : Process)
    {fresh a : UInt32}
    (hserved : (segvHandler m.byte fresh exec' a).segment = some (segmentOf content stack i))
    (hseek : Seekable (programHeader content stack i) a) {b : UInt32} (hpage : page b = page a) :
    (b ≠ segment.entry fresh a →
      (runAll content m (segvHandler m.byte fresh exec' a).calls).byte b =
        imageByte content (programHeader content stack i) b) ∧
    ∃ prot, (runAll content m (segvHandler m.byte fresh exec' a).calls).prot b = some prot ∧
      Grants prot (programHeader content stack i).flags := by
  have hparsed := parsed_of_accepted hparse
  have hlayout := SameLayout.of_run hparsed hrun
  rcases segvHandler_cases (hlayout.parsed hparsed) m.byte fresh a with
    ⟨-, heq⟩ | ⟨j, hj, hfind, heq⟩ <;> rw [heq] at hserved ⊢
  · cases hserved
  · obtain rfl := Option.some.inj hserved
    obtain rfl : exec'.segments[segmentOf content stack i] = segment :=
      Option.some.inj ((List.getElem?_eq_getElem hj).symm.trans hsegment)
    obtain ⟨data, hsame⟩ := segment_of_run hparse hi hload.load hrun hj
    have haccepts := (List.findIdx?_eq_some_iff_getElem.mp hfind).2.1
    have hle := UInt32.le_iff_toNat_le.mpr ((soPfInSegment_iff _ a).mp haccepts).1
    have hstart := mapStart_toNat
      ((hlayout.parsed hparsed).aligned _ (List.getElem_mem hj)) hle
    have hwithin := (within_page hstart b).mpr hpage
    have hmap := mapPage_of_layout hsame
    have hperm : exec'.segments[segmentOf content stack i].perm =
        (soSeg (programHeader content stack i) data).perm := by
      show exec'.segments[segmentOf content stack i].layout.perm = _
      rw [hsame]
      rfl
    dsimp only
    rw [runAll_soMapPageInMemory]
    refine ⟨fun hentry => ?_, _, prot_mapPage content _ _ _ hwithin, ?_⟩
    · rw [hmap, pageIdx_of_layout hsame]
      refine mapPage_image hload content _ data _ ?_ hseek hpage hentry
      show (soSeg (programHeader content stack i) data).layout.vaddr ≤ a
      rw [← hsame]
      exact hle
    · rw [hperm]
      exact soSeg_grants _ _

theorem loaded_page_eq_image_abutting :
    ((0x8048001 : UInt32) ≠ SoSeg.entry ⟨0x8048000, 0x1000, 0x1000, 0, 5, 0⟩ 0x9000000 0x8048010 →
      (runAll abuttingFile ⟨fun _ => 0x55, fun _ => none, 0⟩
          (segvHandler (fun _ => 0x55) 0x9000000 abutting 0x8048010).calls).byte 0x8048001 =
        imageByte abuttingFile (programHeader abuttingFile (fun _ => 0) 0) 0x8048001) ∧
    ∃ prot, (runAll abuttingFile ⟨fun _ => 0x55, fun _ => none, 0⟩
        (segvHandler (fun _ => 0x55) 0x9000000 abutting 0x8048010).calls).prot 0x8048001 = some prot ∧
      Grants prot (programHeader abuttingFile (fun _ => 0) 0).flags :=
  loaded_page_eq_image parse_abutting (by decide +kernel)
    ⟨by decide +kernel, by decide +kernel, by decide +kernel, by decide +kernel⟩ (.nil abutting) rfl
    ⟨fun _ => 0x55, fun _ => none, 0⟩ (by decide +kernel) (Or.inl (by decide +kernel)) (by decide)

/-- One segment of one page whose file offset is 2^31. -/
def farOffsetFile : List UInt8 :=
  [0x7f, 0x45, 0x4c, 0x46, 1, 1, 1, 0, 0, 0, 0, 0, 0, 0, 0, 0, 2, 0, 3, 0, 1, 0, 0, 0,
    0x00, 0x80, 0x04, 0x08, 52, 0, 0, 0, 0, 0, 0, 0, 0, 0, 0, 0, 52, 0, 32, 0, 1, 0, 0, 0, 0, 0, 0, 0] ++
  [1, 0, 0, 0, 0, 0, 0, 0x80, 0x00, 0x80, 0x04, 0x08, 0, 0, 0, 0, 0, 0x10, 0, 0, 0, 0x10, 0, 0,
    5, 0, 0, 0, 0, 0x10, 0, 0]

def farOffset : SoExec where
  baseAddr := 0x8048000
  entry := 0x8048000
  segmentsNo := 1
  segments := [⟨0x8048000, 0x1000, 0x1000, 0x80000000, 5, 0⟩]

/-- The page of a fault holds at every address of the segment what the header asks for. -/
def PageIsImage (content : List UInt8) (header : Phdr) (m : Process) (a : UInt32) : Prop :=
  ∀ b, page b = page a → b.toNat < header.vaddr.toNat + header.memsz.toNat →
    m.byte b = imageByte content header b

/-- `lseek` fails on the offset 2^31, and the page gets the start of the file, where the descriptor
still is. And where `calloc` returns memory on the page itself, the page has a mark in it. -/
theorem offset_refused :
    (soParseExec (.bytes farOffsetFile) (fun _ => 0) (fun _ => 0) = .ok farOffset ∧
      Loadable (programHeader farOffsetFile (fun _ => 0) 0) ∧
      (segvHandler (fun _ => 0) 0x9000000 farOffset 0x8048010).segment =
        some (segmentOf farOffsetFile (fun _ => 0) 0) ∧
      allPermitted farOffsetFile ⟨fun _ => 0, fun _ => none, 0⟩
        (segvHandler (fun _ => 0) 0x9000000 farOffset 0x8048010).calls = true ∧
      ¬PageIsImage farOffsetFile (programHeader farOffsetFile (fun _ => 0) 0)
        (runAll farOffsetFile ⟨fun _ => 0, fun _ => none, 0⟩
          (segvHandler (fun _ => 0) 0x9000000 farOffset 0x8048010).calls) 0x8048010) ∧
    soParseExec (.bytes abuttingFile) (fun _ => 0) (fun _ => 0) = .ok abutting ∧
      Loadable (programHeader abuttingFile (fun _ => 0) 0) ∧
      (segvHandler (fun _ => 0) 0x8048f00 abutting 0x8048010).segment =
        some (segmentOf abuttingFile (fun _ => 0) 0) ∧
      allPermitted abuttingFile ⟨fun _ => 0, fun _ => none, 0⟩
        (segvHandler (fun _ => 0) 0x8048f00 abutting 0x8048010).calls = true ∧
      ¬PageIsImage abuttingFile (programHeader abuttingFile (fun _ => 0) 0)
        (runAll abuttingFile ⟨fun _ => 0, fun _ => none, 0⟩
          (segvHandler (fun _ => 0) 0x8048f00 abutting 0x8048010).calls) 0x8048010 := by
  refine ⟨⟨rfl, ⟨by decide +kernel, by decide +kernel, by decide +kernel, by decide +kernel⟩,
    by decide +kernel, by decide +kernel, fun h => ?_⟩, parse_abutting,
    ⟨by decide +kernel, by decide +kernel, by decide +kernel, by decide +kernel⟩, by decide +kernel,
    by decide +kernel, fun h => ?_⟩
  · exact absurd (h 0x8048000 rfl (by decide +kernel)) (by decide +kernel)
  · exact absurd (h 0x8048f00 rfl (by decide +kernel)) (by decide +kernel)

/-- What the segment of a header has in the file from a page on, in exact arithmetic. -/
def remainingBytes (header : Phdr) (idx : UInt32) : ℤ :=
  header.filesz.toNat + header.vaddr.toNat % 4096 - 4096 * idx.toNat

/-- A read that stays in its page and asks for what the file has for the page. -/
structure ExactRead (header : Phdr) (idx count : UInt32) : Prop where
  positive : 1 ≤ count.toNat
  page : count.toNat ≤ 4096
  exact : (count.toNat : ℤ) = Min.min 4096 (remainingBytes header idx)

theorem pageIdx_lt (segment : SoSeg) (a : UInt32) : (pageIdx segment a).toNat < 2 ^ 20 := by
  have hlt := (a - segment.vaddr).toNat_lt
  have hsize : pagesz.toNat = 4096 := rfl
  rw [pageIdx, UInt32.toNat_div, hsize]
  omega

/-- The one read among the calls of a fault. -/
theorem read_of_mem {byte : UInt32 → UInt8} {fresh : UInt32} {segment : SoSeg} {a addr count : UInt32}
    (h : Call.read addr count ∈ (soMapPageInMemory byte fresh segment a).2) :
    pageIdx segment a * pagesz < segment.fileSize ∧
      count =
        (min (segment.fileSize - pageIdx segment a * pagesz).toInt32 pagesz.toInt32).toUInt32 := by
  obtain ⟨refusal, hrefusal, hcalls⟩ := soMapPageInMemory_calls byte fresh segment a
  rw [hcalls] at h
  have hmap : Call.read addr count ∈
      mapPage segment (pageIdx segment a) (segment.entry fresh a) := by
    rcases List.mem_append.mp h with h | hmap
    · rcases List.mem_append.mp h with h | h
      · unfold SoSeg.allocation at h
        split_ifs at h <;> simp at h
      · rcases hrefusal with rfl | rfl
        · simp at h
        · simp [soRunDefaultHandler] at h
    · exact hmap
  by_cases hsize : pageIdx segment a * pagesz < segment.fileSize
  · rw [mapPage_of_lt hsize] at hmap
    simp at hmap
    exact ⟨hsize, hmap.2⟩
  · rw [mapPage_of_not_lt hsize] at hmap
    simp at hmap

theorem exactRead_iff {header : Phdr} {fileSize idx : UInt32} (hidx : idx.toNat < 2 ^ 20)
    (hfile : fileSize = header.filesz + (header.vaddr - alignDown header.vaddr pagesz))
    (hsize : idx * pagesz < fileSize) :
    ExactRead header idx (min (fileSize - idx * pagesz).toInt32 pagesz.toInt32).toUInt32 ↔
      remainingBytes header idx < 2 ^ 31 := by
  have hlt := header.filesz.toNat_lt
  have hle := UInt32.le_of_lt hsize
  have hoffset : (idx * pagesz).toNat = idx.toNat * 4096 := by
    have hpage : pagesz.toNat = 4096 := rfl
    rw [UInt32.toNat_mul, hpage]
    omega
  have hsize' := UInt32.lt_iff_toNat_lt.mp hsize
  have hleft := UInt32.toNat_sub_of_le _ _ hle
  have hsum := UInt32.toNat_add header.filesz (header.vaddr - alignDown header.vaddr pagesz)
  rw [diff_toNat, ← hfile] at hsum
  rw [hoffset] at hsize' hleft
  have hcount := count_toNat (fileSize - idx * pagesz)
  rw [hleft] at hcount
  have hremaining : remainingBytes header idx =
      ((header.filesz.toNat + header.vaddr.toNat % 4096 : ℕ) : ℤ) - 4096 * idx.toNat := by
    rw [remainingBytes]
    omega
  have hmod := Nat.mod_lt header.vaddr.toNat (show 0 < 4096 by omega)
  generalize header.vaddr.toNat % 4096 = diff at hsum hremaining hmod
  constructor
  · rintro ⟨hpos, hpage, hexact⟩
    rw [hcount] at hpos hpage hexact
    split_ifs at hpos hpage hexact with hsmall <;> omega
  · intro hbound
    have hsmall : fileSize.toNat - idx.toNat * 4096 < 2 ^ 31 := by omega
    rw [if_pos hsmall] at hcount
    refine ⟨?_, ?_, ?_⟩ <;> rw [hcount] <;> omega

/-- For every header to load of an accepted file and every fault in its segment, in every run: the read
of the fault is exact if and only if less than 2^31 bytes are left of the segment in the file. -/
theorem exact_read_iff {content : List UInt8} {stack : Memory}
    {uninitialised : ℕ → UInt32} {exec exec' : SoExec}
    (hparse : soParseExec (.bytes content) stack uninitialised = .ok exec) {i : ℕ}
    (hi : i < (ehdr (readHdr content stack)).phnum.toNat)
    (hload : (programHeader content stack i).type = ptLoad) {as : List UInt32}
    (hrun : Run Fault exec as exec') {segment : SoSeg}
    (hsegment : exec'.segments[segmentOf content stack i]? = some segment) {byte : UInt32 → UInt8}
    {fresh a addr count : UInt32}
    (hread : Call.read addr count ∈ (soMapPageInMemory byte fresh segment a).2) :
    ExactRead (programHeader content stack i) (pageIdx segment a) count ↔
      remainingBytes (programHeader content stack i) (pageIdx segment a) < 2 ^ 31 := by
  obtain ⟨hj, rfl⟩ := List.getElem?_eq_some_iff.mp hsegment
  obtain ⟨data, hsame⟩ := segment_of_run hparse hi hload hrun hj
  have hfile : exec'.segments[segmentOf content stack i].fileSize =
      (soSeg (programHeader content stack i) data).fileSize := by
    have hfileSize := congrArg SoSeg.fileSize hsame
    exact hfileSize
  obtain ⟨hsize, rfl⟩ := read_of_mem hread
  exact exactRead_iff (pageIdx_lt _ _) hfile hsize

theorem exact_read_iff_abutting :
    ExactRead (programHeader abuttingFile (fun _ => 0) 0)
        (pageIdx ⟨0x8048000, 0x1000, 0x1000, 0, 5, 0⟩ 0x8048010) 4096 ↔
      remainingBytes (programHeader abuttingFile (fun _ => 0) 0)
        (pageIdx ⟨0x8048000, 0x1000, 0x1000, 0, 5, 0⟩ 0x8048010) < 2 ^ 31 :=
  exact_read_iff parse_abutting (by decide +kernel) (by decide +kernel) (.nil abutting) rfl
    (show Call.read 0x8048000 4096 ∈ (soMapPageInMemory (fun _ => 0) 0x9000000
      ⟨0x8048000, 0x1000, 0x1000, 0, 5, 0⟩ 0x8048010).2 by decide +kernel)

/-- One segment with 2^31 bytes in the file. -/
def hugeFile : List UInt8 :=
  [0x7f, 0x45, 0x4c, 0x46, 1, 1, 1, 0, 0, 0, 0, 0, 0, 0, 0, 0, 2, 0, 3, 0, 1, 0, 0, 0,
    0x00, 0x10, 0x00, 0x00, 52, 0, 0, 0, 0, 0, 0, 0, 0, 0, 0, 0, 52, 0, 32, 0, 1, 0, 0, 0,
    0, 0, 0, 0] ++
  [1, 0, 0, 0, 0, 0x10, 0, 0, 0x00, 0x10, 0x00, 0x00, 0, 0, 0, 0, 0, 0, 0, 0x80, 0, 0, 0, 0x80,
    5, 0, 0, 0, 0, 0x10, 0, 0]

/-- The first page is read with a count of 2^31. -/
theorem read_past_page :
    ∃ exec, soParseExec (.bytes hugeFile) (fun _ => 0) (fun _ => 0) = .ok exec ∧
      0 < (ehdr (readHdr hugeFile fun _ => 0)).phnum.toNat ∧
      (programHeader hugeFile (fun _ => 0) 0).type = ptLoad ∧
      ∃ segment, exec.segments[segmentOf hugeFile (fun _ => 0) 0]? = some segment ∧
        soPfInSegment segment 0x1000 = true ∧
        ∃ count, Call.read 0x1000 count ∈
            (soMapPageInMemory (fun _ => 0) 0x9000000 segment 0x1000).2 ∧
          count.toNat = 2 ^ 31 ∧
          ¬ExactRead (programHeader hugeFile (fun _ => 0) 0) (pageIdx segment 0x1000) count := by
  refine ⟨_, rfl, by decide +kernel, by decide +kernel,
    ⟨0x1000, 0x80000000, 0x80000000, 0x1000, 5, 0⟩, rfl, by decide +kernel, 0x80000000,
    by decide +kernel, by decide +kernel, fun h => ?_⟩
  exact absurd h.page (by decide +kernel)

end OsHomeworks.Loader
