import OsHomeworks.CallLog
import OsHomeworks.LoaderImage

/-! Where the parser reads the program headers: both loops once more, with the address of every field
that they read, against the bytes that `read` put into `hdr`. The checks on the ELF header bound the
number of headers, not their place. -/

namespace OsHomeworks.Loader

open CallLog CallLog.Logged

/-- Computations that read the memory behind the start of `hdr`; the calls are the addresses of the
fields of four bytes. -/
abbrev Reading := Logged UInt32 Empty

def readField (m : Memory) (o : UInt32) : Reading UInt32 := do
  perform o
  pure (read32 m o)

/-- The address of `phdr[i]`. -/
def phdrAddr (phoff : UInt32) (i : ℕ) : UInt32 := phoff + sizeofPhdr * UInt32.ofNat i

/-- A turn of the loop that counts the headers to load. -/
def countHeader (m : Memory) (phoff : UInt32) (numLoadPhdr i : ℕ) : Reading ℕ := do
  let type ← readField m (phdrAddr phoff i)
  pure (if type = ptLoad then numLoadPhdr + 1 else numLoadPhdr)

/-- A turn of the conversion loop; a field that is used again is read at the same address. -/
def convertHeader (m : Memory) (phoff : UInt32) (uninitialised : ℕ → UInt32)
    (exec : SoExec) (i : ℕ) : Reading SoExec := do
  let type ← readField m (phdrAddr phoff i)
  if type = ptLoad then
    let vaddr ← readField m (phdrAddr phoff i + 8)
    let offset ← readField m (phdrAddr phoff i + 4)
    let filesz ← readField m (phdrAddr phoff i + 16)
    let memsz ← readField m (phdrAddr phoff i + 20)
    let flags ← readField m (phdrAddr phoff i + 24)
    let seg := soSeg ⟨type, offset, vaddr, filesz, memsz, flags⟩
      (uninitialised exec.segments.length)
    pure
      { exec with
        segments := exec.segments ++ [seg]
        baseAddr := if seg.vaddr < exec.baseAddr then seg.vaddr else exec.baseAddr }
  else pure exec

/-- `so_parse_exec` behind its checks. -/
def readExec (m : Memory) (e : Ehdr) (uninitialised : ℕ → UInt32) : Reading SoExec := do
  let numLoadPhdr ← (List.range e.phnum.toNat).foldlM (countHeader m e.phoff) 0
  (List.range e.phnum.toNat).foldlM (convertHeader m e.phoff uninitialised)
    ⟨0xffffffff, e.entry, numLoadPhdr, []⟩

/-- The addresses of the fields that the conversion loop reads of a header. -/
def converted (m : Memory) (phoff : UInt32) (i : ℕ) : List UInt32 :=
  phdrAddr phoff i ::
    if (phdr m phoff i).type = ptLoad then
      [phdrAddr phoff i + 8, phdrAddr phoff i + 4, phdrAddr phoff i + 16, phdrAddr phoff i + 20,
        phdrAddr phoff i + 24]
    else []

theorem readField_bind {α : Type} (m : Memory) (o : UInt32) (f : UInt32 → Reading α) :
    readField m o >>= f = ⟨o :: (f (read32 m o)).calls, (f (read32 m o)).result⟩ := rfl

theorem convertHeader_eq (m : Memory) (phoff : UInt32) (uninitialised : ℕ → UInt32)
    (exec : SoExec) (i : ℕ) :
    convertHeader m phoff uninitialised exec i =
      ⟨converted m phoff i, .ok (convert (phdr m phoff) uninitialised exec i)⟩ := by
  have htype : (phdr m phoff i).type = read32 m (phdrAddr phoff i) := rfl
  rw [convertHeader, converted, convert, htype, readField_bind]
  split_ifs <;> rfl

theorem foldl_count {p : ℕ → Prop} [DecidablePred p] (l : List ℕ) (n : ℕ) :
    l.foldl (fun n i => if p i then n + 1 else n) n = n + l.countP fun i => p i := by
  induction l generalizing n with
  | nil => rfl
  | cons i l ih =>
      rw [List.foldl_cons, ih, List.countP_cons]
      by_cases hp : p i
      · simp [hp]
        omega
      · simp [hp]

/-- The loops read the type of every header and the other fields of those to load, and leave what the
conversion of the headers gives. -/
theorem readExec_eq (m : Memory) (e : Ehdr) (uninitialised : ℕ → UInt32) :
    readExec m e uninitialised =
      ⟨(List.range e.phnum.toNat).flatMap (fun i => [phdrAddr e.phoff i]) ++
          (List.range e.phnum.toNat).flatMap (converted m e.phoff),
        .ok (loadExec e (phdr m e.phoff) uninitialised)⟩ := by
  have hcount : ∀ n i, countHeader m e.phoff n i = ⟨[phdrAddr e.phoff i],
      .ok (if (phdr m e.phoff i).type = ptLoad then n + 1 else n)⟩ := fun n i => rfl
  rw [readExec, foldlM_eq hcount, bind_of_ok rfl,
    foldlM_eq (convertHeader_eq m e.phoff uninitialised), foldl_count, Nat.zero_add]
  rfl

/-- The four bytes of a field are among the first `ret` bytes of `hdr`. -/
def InBuffer (ret : ℕ) (o : UInt32) : Prop := ∀ k < 4, (o + UInt32.ofNat k).toNat < ret

/-- The end of what is read of a header, from its start. -/
def readEnd (header : Phdr) : ℕ := if header.type = ptLoad then 28 else 4

theorem inBuffer_iff {ret : ℕ} (hret : ret ≤ bufsize) (o : UInt32) :
    InBuffer ret o ↔ o.toNat + 4 ≤ ret := by
  have hadd : ∀ k < 4, (o + UInt32.ofNat k).toNat = (o.toNat + k) % 2 ^ 32 := fun k hk => by
    rw [UInt32.toNat_add, UInt32.toNat_ofNat_of_lt' (by simp [UInt32.size]; omega)]
  have hlt := o.toNat_lt
  rw [bufsize] at hret
  constructor
  · intro h
    have h0 := h 0 (by omega)
    have h3 := h 3 (by omega)
    rw [hadd 0 (by omega)] at h0
    rw [hadd 3 (by omega)] at h3
    omega
  · intro h k hk
    rw [hadd k hk]
    omega

theorem phdrAddr_toNat {phoff : UInt32} {i : ℕ} (hphoff : phoff.toNat < 2 ^ 31) (hi : i < 2 ^ 16) :
    (phdrAddr phoff i).toNat = phoff.toNat + 32 * i := by
  have hsize : sizeofPhdr.toNat = 32 := rfl
  rw [phdrAddr, UInt32.toNat_add, UInt32.toNat_mul, hsize,
    UInt32.toNat_ofNat_of_lt' (by simp [UInt32.size]; omega)]
  omega

theorem readEnd_le (header : Phdr) : 4 ≤ readEnd header ∧ readEnd header ≤ 28 := by
  unfold readEnd
  split_ifs <;> omega

/-- The reads of one header. -/
theorem converted_inBuffer_iff {ret : ℕ} (hret : ret ≤ bufsize) (m : Memory) {phoff : UInt32} {i : ℕ}
    (hphoff : phoff.toNat < 2 ^ 31) (hi : i < 2 ^ 16) :
    (∀ o ∈ converted m phoff i, InBuffer ret o) ↔
      phoff.toNat + 32 * i + readEnd (phdr m phoff i) ≤ ret := by
  have haddr := phdrAddr_toNat hphoff hi
  have hfield : ∀ o : UInt32, o.toNat ≤ 24 →
      (phdrAddr phoff i + o).toNat = phoff.toNat + 32 * i + o.toNat := fun o ho => by
    rw [UInt32.toNat_add, haddr]
    omega
  unfold converted readEnd
  split_ifs
  · simp only [List.forall_mem_cons, inBuffer_iff hret, haddr]
    rw [hfield 8 (by decide), hfield 4 (by decide), hfield 16 (by decide), hfield 20 (by decide),
      hfield 24 (by decide)]
    simp
    omega
  · simp only [List.forall_mem_singleton, inBuffer_iff hret, haddr]

/-- The reads of all headers are in the buffer if those of the last one are. -/
theorem reads_inBuffer_iff {ret : ℕ} (hret : ret ≤ bufsize) (m : Memory) (phoff : UInt32)
    {phnum : ℕ} (hphnum : phnum < 2 ^ 16) :
    (∀ o ∈ (List.range phnum).flatMap (fun i => [phdrAddr phoff i]) ++
        (List.range phnum).flatMap (converted m phoff), InBuffer ret o) ↔
      ∀ n, phnum = n + 1 → phoff.toNat + 32 * n + readEnd (phdr m phoff n) ≤ ret := by
  simp only [List.mem_append, List.mem_flatMap, List.mem_range, List.mem_singleton]
  constructor
  · rintro hread n rfl
    -- the first header keeps the pointer from wrapping around
    have hfirst := (inBuffer_iff hret _).mp (hread _ (Or.inl ⟨0, n.succ_pos, rfl⟩))
    have hzero : (phdrAddr phoff 0).toNat = phoff.toNat := by simp [phdrAddr]
    rw [bufsize] at hret
    apply (converted_inBuffer_iff hret m (by omega) (by omega)).mp
    intro o ho
    exact hread o (Or.inr ⟨n, n.lt_succ_self, ho⟩)
  · intro hend o ho
    obtain ⟨i, hi, hread⟩ : ∃ i < phnum, o ∈ converted m phoff i := by
      rcases ho with ⟨i, hi, rfl⟩ | hconverted
      · exact ⟨i, hi, List.mem_cons_self ..⟩
      · exact hconverted
    obtain ⟨n, rfl⟩ : ∃ n, phnum = n + 1 := ⟨phnum - 1, by omega⟩
    have hlast := hend n rfl
    have hlastEnd := readEnd_le (phdr m phoff n)
    have hiEnd := readEnd_le (phdr m phoff i)
    rw [bufsize] at hret
    refine (converted_inBuffer_iff (i := i) hret m (by omega) (by omega)).mpr ?_ o hread
    rcases Nat.lt_succ_iff_lt_or_eq.mp hi with hlt | rfl
    · omega
    · exact hlast

/-- For every accepted file, the program headers are read from the bytes that `read` delivered exactly
if the last header ends among them, up to the fields of it that are read. -/
theorem headers_in_buffer_iff {content : List UInt8} {stack : Memory}
    {uninitialised : ℕ → UInt32} {exec : SoExec}
    (hparse : soParseExec (.bytes content) stack uninitialised = .ok exec) :
    (readExec (readHdr content stack) (ehdr (readHdr content stack)) uninitialised).result = .ok exec ∧
      ((∀ o ∈ (readExec (readHdr content stack) (ehdr (readHdr content stack)) uninitialised).calls,
          InBuffer (content.take bufsize).length o) ↔
        ∀ n, (ehdr (readHdr content stack)).phnum.toNat = n + 1 →
          (ehdr (readHdr content stack)).phoff.toNat + 32 * n +
            readEnd (programHeader content stack n) ≤ (content.take bufsize).length) := by
  obtain ⟨content', hcontent, rfl⟩ := loadExec_of_accepted hparse
  obtain rfl := File.bytes.inj hcontent
  have hret : (content.take bufsize).length ≤ bufsize := List.length_take_le _ _
  rw [readExec_eq]
  exact ⟨rfl, reads_inBuffer_iff hret _ _ (ehdr (readHdr content stack)).phnum.toNat_lt⟩

theorem headers_in_buffer_iff_abutting :
    (readExec (readHdr abuttingFile fun _ => 0) (ehdr (readHdr abuttingFile fun _ => 0))
        fun _ => 0).result = .ok abutting ∧
      ((∀ o ∈ (readExec (readHdr abuttingFile fun _ => 0) (ehdr (readHdr abuttingFile fun _ => 0))
          fun _ => 0).calls, InBuffer (abuttingFile.take bufsize).length o) ↔
        ∀ n, (ehdr (readHdr abuttingFile fun _ => 0)).phnum.toNat = n + 1 →
          (ehdr (readHdr abuttingFile fun _ => 0)).phoff.toNat + 32 * n +
            readEnd (programHeader abuttingFile (fun _ => 0) n) ≤
              (abuttingFile.take bufsize).length) :=
  headers_in_buffer_iff parse_abutting

/-- A file of 84 bytes whose one program header is to be at offset 4096. -/
def farHeaderFile : List UInt8 :=
  [0x7f, 0x45, 0x4c, 0x46, 1, 1, 1, 0, 0, 0, 0, 0, 0, 0, 0, 0, 2, 0, 3, 0, 1, 0, 0, 0,
    0x00, 0x80, 0x04, 0x08, 0, 0x10, 0, 0, 0, 0, 0, 0, 0, 0, 0, 0, 52, 0, 32, 0, 1, 0, 0, 0,
    0, 0, 0, 0] ++
  List.replicate 32 0

theorem header_behind_buffer :
    ∃ exec, soParseExec (.bytes farHeaderFile) (fun _ => 0) (fun _ => 0) = .ok exec ∧
      ¬∀ o ∈ (readExec (readHdr farHeaderFile fun _ => 0) (ehdr (readHdr farHeaderFile fun _ => 0))
          fun _ => 0).calls, InBuffer (farHeaderFile.take bufsize).length o := by
  refine ⟨_, rfl, fun h => ?_⟩
  exact absurd (h 0x1000 (by decide +kernel) 0 (by decide)) (by decide +kernel)

end OsHomeworks.Loader
