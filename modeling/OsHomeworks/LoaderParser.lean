import Mathlib.Data.List.Basic
import Mathlib.Data.UInt
import Mathlib.Data.Nat.Bitwise

/-! The executable parser: `exec_parser.c` on the bytes of a file, on a 32-bit machine with pages of
4096 bytes. The headers are read where the code reads them, at 32-bit addresses counted from the
start of `hdr`, whether the bytes there come from the file or not. -/

namespace OsHomeworks.Loader

/-- The bytes of memory, at their distance from the start of `hdr`. -/
abbrev Memory := UInt32 → UInt8

def bufsize : ℕ := 1024

/-- `getpagesize()`, and `sysconf(_SC_PAGESIZE)`. -/
def pagesz : UInt32 := 4096

def permR : UInt32 := 0x1

def permW : UInt32 := 0x2

def permX : UInt32 := 0x4

/-- `ALIGN_DOWN`. -/
def alignDown (v a : UInt32) : UInt32 := v &&& ~~~(a - 1)

/-- `so_seg_t`; `data` is a pointer, and 0 is `NULL`. -/
structure SoSeg where
  vaddr : UInt32
  fileSize : UInt32
  memSize : UInt32
  offset : UInt32
  perm : UInt32
  data : UInt32
  deriving DecidableEq

/-- `so_exec_t`. -/
structure SoExec where
  baseAddr : UInt32
  entry : UInt32
  segmentsNo : ℕ
  segments : List SoSeg

def read16 (m : Memory) (o : UInt32) : UInt16 := (m o).toUInt16 ||| (m (o + 1)).toUInt16 <<< 8

def read32 (m : Memory) (o : UInt32) : UInt32 :=
  (m o).toUInt32 ||| (m (o + 1)).toUInt32 <<< 8 ||| (m (o + 2)).toUInt32 <<< 16 |||
    (m (o + 3)).toUInt32 <<< 24

/-- The fields of `Elf32_Ehdr` that are used. -/
structure Ehdr where
  mag0 : UInt8
  mag1 : UInt8
  mag2 : UInt8
  mag3 : UInt8
  cls : UInt8
  data : UInt8
  identVersion : UInt8
  osabi : UInt8
  type : UInt16
  machine : UInt16
  version : UInt32
  entry : UInt32
  phoff : UInt32
  phentsize : UInt16
  phnum : UInt16

def sizeofEhdr : UInt32 := 52

def ehdr (m : Memory) : Ehdr where
  mag0 := m 0
  mag1 := m 1
  mag2 := m 2
  mag3 := m 3
  cls := m 4
  data := m 5
  identVersion := m 6
  osabi := m 7
  type := read16 m 16
  machine := read16 m 18
  version := read32 m 20
  entry := read32 m 24
  phoff := read32 m 28
  phentsize := read16 m 42
  phnum := read16 m 44

/-- The fields of `Elf32_Phdr` that are used. -/
structure Phdr where
  type : UInt32
  offset : UInt32
  vaddr : UInt32
  filesz : UInt32
  memsz : UInt32
  flags : UInt32

def sizeofPhdr : UInt32 := 32

/-- `phdr[i]`, the array starting at `phoff`. -/
def phdr (m : Memory) (phoff : UInt32) (i : ℕ) : Phdr :=
  let o := phoff + sizeofPhdr * UInt32.ofNat i
  ⟨read32 m o, read32 m (o + 4), read32 m (o + 8), read32 m (o + 16), read32 m (o + 20),
    read32 m (o + 24)⟩

def ptLoad : UInt32 := 1

def pfX : UInt32 := 1

def pfW : UInt32 := 2

def pfR : UInt32 := 4

/-- What `open` and `read` give for a path. -/
inductive File where
  | missing
  | unreadable
  | bytes (content : List UInt8)

/-- The memory after `read(fd, hdr, BUFSIZE)`. -/
def readHdr (content : List UInt8) (stack : Memory) : Memory :=
  fun o => if o.toNat < (content.take bufsize).length then content.getD o.toNat 0 else stack o

/-- A segment from its program header. `malloc` leaves `data` as it is. -/
def soSeg (header : Phdr) (data : UInt32) : SoSeg :=
  let vaddr := alignDown header.vaddr pagesz
  let diff := header.vaddr - vaddr
  let perm := if header.flags &&& pfX ≠ 0 then 0 ||| permX else 0
  let perm := if header.flags &&& pfR ≠ 0 then perm ||| permR else perm
  let perm := if header.flags &&& pfW ≠ 0 then perm ||| permW else perm
  ⟨vaddr, header.filesz + diff, header.memsz + diff, header.offset - diff, perm, data⟩

/-- One turn of the conversion loop; `uninitialised` are the `data` fields of the new array. -/
def convert (headers : ℕ → Phdr) (uninitialised : ℕ → UInt32) (exec : SoExec) (i : ℕ) :
    SoExec :=
  if (headers i).type = ptLoad then
    let seg := soSeg (headers i) (uninitialised exec.segments.length)
    { exec with
      segments := exec.segments ++ [seg]
      baseAddr := if seg.vaddr < exec.baseAddr then seg.vaddr else exec.baseAddr }
  else exec

def loadExec (e : Ehdr) (headers : ℕ → Phdr) (uninitialised : ℕ → UInt32) : SoExec :=
  let numLoadPhdr := (List.range e.phnum.toNat).countP fun i => (headers i).type = ptLoad
  (List.range e.phnum.toNat).foldl (convert headers uninitialised)
    ⟨0xffffffff, e.entry, numLoadPhdr, []⟩

/-- The errors are the texts printed, for a failed system call the name given to `perror`. -/
def soParseExec (file : File) (stack : Memory) (uninitialised : ℕ → UInt32) :
    Except String SoExec :=
  match file with
  | .missing => .error "open"
  | .unreadable => .error "read"
  | .bytes content =>
      let ret := UInt32.ofNat (content.take bufsize).length
      let hdr := readHdr content stack
      let e := ehdr hdr
      if ret < sizeofEhdr + sizeofPhdr then .error "file too small"
      else if e.mag0 ≠ 0x7f ∨ e.mag1 ≠ 0x45 ∨ e.mag2 ≠ 0x4c ∨ e.mag3 ≠ 0x46 then
        .error "not an ELF file: invalid magic"
      else if e.cls ≠ 1 then .error "not a 32-bit ELF file"
      else if e.data ≠ 1 then .error "not a LSB ELF file"
      else if e.identVersion ≠ 1 then .error "invalid EI_VERSION"
      else if e.osabi ≠ 3 ∧ e.osabi ≠ 0 then .error "invalid ABI"
      else if e.type ≠ 2 then .error "invalid executable type"
      else if e.machine ≠ 3 then .error "invalid machine"
      else if e.version ≠ 1 then .error "invalid version"
      else if ret < sizeofEhdr + e.phnum.toUInt32 * e.phentsize.toUInt32 then
        .error "too many program headers"
      else .ok (loadExec e (phdr hdr e.phoff) uninitialised)

theorem alignDown_toNat (v : UInt32) : (alignDown v pagesz).toNat = v.toNat / 4096 * 4096 := by
  have hmask : (~~~(pagesz - 1)).toNat = (2 ^ 20 - 1) * 2 ^ 12 := by decide
  have hlt := v.toNat_lt
  rw [alignDown, UInt32.toNat_and, hmask]
  show v.toNat &&& (2 ^ 20 - 1) * 2 ^ 12 = v.toNat / 2 ^ 12 * 2 ^ 12
  apply Nat.eq_of_testBit_eq
  intro k
  rw [Nat.testBit_and, Nat.testBit_mul_two_pow, Nat.testBit_mul_two_pow,
    Nat.testBit_two_pow_sub_one, Nat.testBit_div_two_pow]
  by_cases hk : 12 ≤ k
  · by_cases hk' : k < 32
    · simp [hk]
      omega
    · -- the address has 32 bits
      have hhigh : v.toNat.testBit k = false :=
        Nat.testBit_lt_two_pow (hlt.trans_le (Nat.pow_le_pow_right (by omega) (by omega)))
      simp [hk, hhigh]
  · simp [hk]

theorem alignDown_mod (v : UInt32) : (alignDown v pagesz).toNat % 4096 = 0 := by
  rw [alignDown_toNat]
  exact Nat.mul_mod_left _ _

/-- Every segment starts at a page boundary, and the array has as many segments as were counted. -/
theorem foldl_convert (headers : ℕ → Phdr) (uninitialised : ℕ → UInt32) (l : List ℕ)
    (exec : SoExec) (haligned : ∀ seg ∈ exec.segments, seg.vaddr.toNat % 4096 = 0) :
    (∀ seg ∈ (l.foldl (convert headers uninitialised) exec).segments, seg.vaddr.toNat % 4096 = 0) ∧
      (l.foldl (convert headers uninitialised) exec).segments.length =
        exec.segments.length + l.countP (fun i => (headers i).type = ptLoad) ∧
      (l.foldl (convert headers uninitialised) exec).segmentsNo = exec.segmentsNo := by
  induction l generalizing exec with
  | nil => exact ⟨haligned, rfl, rfl⟩
  | cons i l ih =>
      rw [List.foldl_cons, List.countP_cons]
      by_cases hload : (headers i).type = ptLoad
      · have hstep : convert headers uninitialised exec i = _ := if_pos hload
        obtain ⟨hmod, hlength, hno⟩ := ih (convert headers uninitialised exec i) (by
          rw [hstep]
          intro seg hseg
          rcases List.mem_append.mp hseg with hseg | hseg
          · exact haligned seg hseg
          · rw [List.mem_singleton.mp hseg]
            exact alignDown_mod _)
        refine ⟨hmod, ?_, ?_⟩
        · rw [hlength, hstep]
          simp [hload]
          omega
        · rw [hno, hstep]
      · have hstep : convert headers uninitialised exec i = exec := if_neg hload
        rw [hstep]
        obtain ⟨hmod, hlength, hno⟩ := ih exec haligned
        refine ⟨hmod, ?_, hno⟩
        rw [hlength]
        simp [hload]

/-- An executable as the parser accepts it. -/
structure SoExec.Parsed (exec : SoExec) : Prop where
  aligned : ∀ seg ∈ exec.segments, seg.vaddr.toNat % 4096 = 0
  counted : exec.segmentsNo = exec.segments.length

theorem loadExec_parsed (e : Ehdr) (headers : ℕ → Phdr) (uninitialised : ℕ → UInt32) :
    (loadExec e headers uninitialised).Parsed := by
  obtain ⟨hmod, hlength, hno⟩ := foldl_convert headers uninitialised (List.range e.phnum.toNat)
    ⟨0xffffffff, e.entry, (List.range e.phnum.toNat).countP fun i => (headers i).type = ptLoad, []⟩
    nofun
  refine ⟨hmod, hno.trans ?_⟩
  rw [List.length_nil, Nat.zero_add] at hlength
  exact hlength.symm

/-- A check is passed by whatever is accepted. -/
theorem ok_of_check {p : Prop} [Decidable p] {text : String} {result : Except String SoExec}
    {exec : SoExec} (h : (if p then .error text else result) = .ok exec) : result = .ok exec := by
  by_cases hp : p
  · rw [if_pos hp] at h
    cases h
  · rwa [if_neg hp] at h

/-- Accepted is a file that can be read, and it is converted from its headers. -/
theorem loadExec_of_accepted {file : File} {stack : Memory} {uninitialised : ℕ → UInt32}
    {exec : SoExec}
    (h : soParseExec file stack uninitialised = .ok exec) :
    ∃ content, file = .bytes content ∧
      exec = loadExec (ehdr (readHdr content stack))
        (phdr (readHdr content stack) (ehdr (readHdr content stack)).phoff) uninitialised := by
  unfold soParseExec at h
  cases file with
  | missing => cases h
  | unreadable => cases h
  | bytes content =>
      iterate 10 replace h := ok_of_check h
      exact ⟨content, rfl, (Except.ok.inj h).symm⟩

theorem parsed_of_accepted {file : File} {stack : Memory} {uninitialised : ℕ → UInt32}
    {exec : SoExec}
    (h : soParseExec file stack uninitialised = .ok exec) : exec.Parsed := by
  obtain ⟨content, -, rfl⟩ := loadExec_of_accepted h
  exact loadExec_parsed _ _ _

/-- The conversion only appends segments. -/
theorem foldl_convert_prefix (headers : ℕ → Phdr) (uninitialised : ℕ → UInt32)
    (l : List ℕ) (exec : SoExec) :
    exec.segments <+: (l.foldl (convert headers uninitialised) exec).segments := by
  induction l generalizing exec with
  | nil => exact List.prefix_refl _
  | cons i l ih =>
      rw [List.foldl_cons]
      refine List.IsPrefix.trans ?_ (ih _)
      unfold convert
      split_ifs
      · exact List.prefix_append _ _
      · exact List.prefix_refl _

/-- The segment of a header comes behind those of the headers before it. -/
theorem loadExec_segment (e : Ehdr) (headers : ℕ → Phdr) (uninitialised : ℕ → UInt32) {i : ℕ}
    (hi : i < e.phnum.toNat) (hload : (headers i).type = ptLoad) :
    ∃ data, (loadExec e headers uninitialised).segments[(List.range i).countP
      fun k => (headers k).type = ptLoad]? = some (soSeg (headers i) data) := by
  have hsplit : ∃ rest, List.range e.phnum.toNat = List.range i ++ i :: rest := by
    have hlt : i < (List.range e.phnum.toNat).length := by rwa [List.length_range]
    refine ⟨(List.range e.phnum.toNat).drop (i + 1), ?_⟩
    calc List.range e.phnum.toNat
        = (List.range e.phnum.toNat).take i ++ (List.range e.phnum.toNat).drop i :=
          (List.take_append_drop i _).symm
      _ = List.range i ++ (List.range e.phnum.toNat).drop i := by
          rw [List.take_range, Nat.min_eq_left hi.le]
      _ = List.range i ++ i :: (List.range e.phnum.toNat).drop (i + 1) := by
          rw [List.drop_eq_getElem_cons hlt, List.getElem_range]
  obtain ⟨rest, hrange⟩ := hsplit
  obtain ⟨no, hfold⟩ : ∃ no, loadExec e headers uninitialised =
      (i :: rest).foldl (convert headers uninitialised)
        ((List.range i).foldl (convert headers uninitialised) ⟨0xffffffff, e.entry, no, []⟩) := by
    refine ⟨(List.range e.phnum.toNat).countP fun k => (headers k).type = ptLoad, ?_⟩
    rw [← List.foldl_append, ← hrange]
    rfl
  rw [hfold, List.foldl_cons]
  obtain ⟨-, hlength, -⟩ := foldl_convert headers uninitialised (List.range i)
    ⟨0xffffffff, e.entry, no, []⟩ nofun
  generalize (List.range i).foldl (convert headers uninitialised) ⟨0xffffffff, e.entry, no, []⟩ =
    before at hlength ⊢
  obtain ⟨more, hmore⟩ := foldl_convert_prefix headers uninitialised rest
    (convert headers uninitialised before i)
  have hconvert : (convert headers uninitialised before i).segments =
      before.segments ++ [soSeg (headers i) (uninitialised before.segments.length)] := by
    unfold convert
    rw [if_pos hload]
  rw [List.length_nil, Nat.zero_add] at hlength
  refine ⟨uninitialised before.segments.length, ?_⟩
  rw [← hmore, hconvert, List.append_assoc, ← hlength]
  simp

end OsHomeworks.Loader
