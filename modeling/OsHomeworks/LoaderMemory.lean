import OsHomeworks.LoaderFault

/-! What the calls of the fault handler do to the address space of the loaded program. Every fault
that a segment accepts maps its page, mapped or not: the signal raised for a mapped page is blocked
until the handler returns, and the handler maps the page again before it does. A `read` that asks for
2^31 bytes or more goes on into the pages behind, as far as there is file and the pages may be
written. -/

namespace OsHomeworks.Loader

open Runs

/-- The bytes of the address space, the protection of the mapped addresses, and the position of the
descriptor of the executable. -/
structure Process where
  byte : UInt32 → UInt8
  prot : UInt32 → Option UInt32
  position : ℕ

namespace Process

/-- An address may be read if its page may be accessed at all. -/
def readable (m : Process) (b : UInt32) : Bool :=
  match m.prot b with
  | some prot => prot ≠ 0
  | none => false

def writable (m : Process) (b : UInt32) : Bool :=
  match m.prot b with
  | some prot => prot &&& permW ≠ 0
  | none => false

/-- How many bytes `read` delivers: at most `count`, nothing past the end of the file, and nothing from
the first address on that may not be written. -/
def delivered (content : List UInt8) (m : Process) (addr count : UInt32) : ℕ :=
  ((List.range (Nat.min count.toNat (content.length - m.position))).takeWhile
    fun k => m.writable (addr + UInt32.ofNat k)).length

end Process

theorem lt_length_takeWhile_iff {α : Type*} (p : α → Bool) (l : List α) (k : ℕ) :
    k < (l.takeWhile p).length ↔ ∀ i ≤ k, l[i]?.any p = true := by
  induction l generalizing k with
  | nil => exact iff_of_false (Nat.not_lt_zero k) fun h => by simpa using h k (le_refl k)
  | cons x l ih =>
      rw [List.takeWhile_cons]
      cases hx : p x with
      | false => exact iff_of_false (Nat.not_lt_zero k) fun h => by simpa [hx] using h 0 (Nat.zero_le k)
      | true =>
          rw [if_pos rfl, List.length_cons]
          cases k with
          | zero => simpa using hx
          | succ k =>
              rw [Nat.add_lt_add_iff_right, ih]
              refine ⟨fun h i hi => ?_, fun h i hi => h (i + 1) (by omega)⟩
              cases i with
              | zero => exact hx
              | succ i => exact h i (by omega)

/-- Byte `k` is delivered if it is asked for, the file has it, and all addresses as far as its own may
be written. -/
theorem Process.lt_delivered_iff (content : List UInt8) (m : Process) (addr count : UInt32) (k : ℕ) :
    k < m.delivered content addr count ↔ k < count.toNat ∧ m.position + k < content.length ∧
      ∀ i ≤ k, m.writable (addr + UInt32.ofNat i) = true := by
  have hlt : k < Nat.min count.toNat (content.length - m.position) ↔
      k < count.toNat ∧ m.position + k < content.length := by
    rw [Nat.lt_min]
    omega
  have hget : ∀ i n : ℕ, (List.range n)[i]?.any (fun k => m.writable (addr + UInt32.ofNat k)) = true ↔
      i < n ∧ m.writable (addr + UInt32.ofNat i) = true := by
    intro i n
    by_cases hi : i < n
    · simp [hi]
    · simp [hi]
  rw [Process.delivered, lt_length_takeWhile_iff, ← and_assoc, ← hlt]
  simp only [hget]
  exact ⟨fun h => ⟨(h k (le_refl k)).1, fun i hi => (h i hi).2⟩,
    fun h i hi => ⟨hi.trans_lt h.1, h.2 i hi⟩⟩

namespace Call

/-- What a call does. A new table and an anonymous mapping are zeroed; `lseek` fails on a negative
offset, and the position stays. -/
def run (content : List UInt8) (m : Process) : Call → Process
  | .calloc n addr =>
      { m with
        byte := Loader.calloc n addr m.byte
        prot := fun b => if Within addr n.toNat b then some (permR ||| permW) else m.prot b }
  | .mmap addr length prot =>
      { m with
        byte := fun b => if Within addr length.toNat b then 0 else m.byte b
        prot := fun b => if Within addr length.toNat b then some prot else m.prot b }
  | .memset addr => { m with byte := Function.update m.byte addr 1 }
  | .lseek offset => if offset < 0 then m else { m with position := offset.toInt.toNat }
  | .read addr count =>
      let n := m.delivered content addr count
      { m with
        byte := fun b =>
          if Within addr n b then content.getD (m.position + (b - addr).toNat) 0 else m.byte b
        position := m.position + n }
  | .mprotect addr length prot =>
      { m with prot := fun b => if Within addr length.toNat b then some prot else m.prot b }
  | .load _ => m
  | .signalDefault => m
  | .stderr _ _ => m
  | .raise => m

/-- The call writes to an address, or sets its protection. -/
def Touches (content : List UInt8) (m : Process) : Call → UInt32 → Prop
  | .calloc n addr, b => Within addr n.toNat b
  | .mmap addr length _, b => Within addr length.toNat b
  | .memset addr, b => b = addr
  | .read addr count, b => Within addr (m.delivered content addr count) b
  | .mprotect addr length _, b => Within addr length.toNat b
  | _, _ => False

/-- An access to a table that is not permitted ends the process. -/
def permitted (m : Process) : Call → Bool
  | .load addr => m.readable addr
  | .memset addr => m.writable addr
  | _ => true

theorem run_of_not_touches {call : Call} {content : List UInt8} {m : Process} {b : UInt32}
    (h : ¬call.Touches content m b) :
    (call.run content m).byte b = m.byte b ∧ (call.run content m).prot b = m.prot b := by
  cases call with
  | calloc n addr => exact ⟨if_neg h, if_neg h⟩
  | mmap addr length prot => exact ⟨if_neg h, if_neg h⟩
  | memset addr => exact ⟨Function.update_of_ne h _ _, rfl⟩
  | read addr count => exact ⟨if_neg h, rfl⟩
  | mprotect addr length prot => exact ⟨rfl, if_neg h⟩
  | lseek offset =>
      have hrun : (Call.lseek offset).run content m =
          if offset < 0 then m else { m with position := offset.toInt.toNat } := rfl
      rw [hrun]
      split_ifs <;> exact ⟨rfl, rfl⟩
  | load addr => exact ⟨rfl, rfl⟩
  | signalDefault => exact ⟨rfl, rfl⟩
  | stderr text pfAddr => exact ⟨rfl, rfl⟩
  | raise => exact ⟨rfl, rfl⟩

end Call

/-- The calls of a handler, one after the other. -/
def runAll (content : List UInt8) (m : Process) (calls : List Call) : Process :=
  calls.foldl (fun m call => call.run content m) m

/-- One of the calls writes to the address or sets its protection, in the state in which it is made. -/
def TouchesAny (content : List UInt8) (m : Process) : List Call → UInt32 → Prop
  | [], _ => False
  | call :: calls, b =>
      call.Touches content m b ∨ TouchesAny content (call.run content m) calls b

/-- The handler gets through its calls: every access to a table is permitted. -/
def allPermitted (content : List UInt8) (m : Process) : List Call → Bool
  | [] => true
  | call :: calls => call.permitted m && allPermitted content (call.run content m) calls

theorem runAll_append (content : List UInt8) (m : Process) (calls calls' : List Call) :
    runAll content m (calls ++ calls') = runAll content (runAll content m calls) calls' :=
  List.foldl_append

theorem touchesAny_append (content : List UInt8) (m : Process) (calls calls' : List Call)
    (b : UInt32) :
    TouchesAny content m (calls ++ calls') b ↔
      TouchesAny content m calls b ∨ TouchesAny content (runAll content m calls) calls' b := by
  induction calls generalizing m with
  | nil => exact (or_iff_right id).symm
  | cons call calls ih =>
      show _ ∨ TouchesAny content _ (calls ++ calls') b ↔ (_ ∨ _) ∨ _
      rw [ih, or_assoc]
      rfl

theorem runAll_of_not_touches {calls : List Call} {content : List UInt8} {m : Process} {b : UInt32}
    (h : ¬TouchesAny content m calls b) :
    (runAll content m calls).byte b = m.byte b ∧ (runAll content m calls).prot b = m.prot b := by
  induction calls generalizing m with
  | nil => exact ⟨rfl, rfl⟩
  | cons call calls ih =>
      obtain ⟨hbyte, hprot⟩ := Call.run_of_not_touches fun hcall => h (Or.inl hcall)
      obtain ⟨hbyte', hprot'⟩ := ih fun hcalls => h (Or.inr hcalls)
      exact ⟨hbyte'.trans hbyte, hprot'.trans hprot⟩

/-- The default handler leaves memory alone. -/
theorem soRunDefaultHandler_quiet (content : List UInt8) (m : Process) (a : UInt32) (errCase : ℕ) :
    runAll content m (soRunDefaultHandler a errCase) = m ∧
      ∀ b, ¬TouchesAny content m (soRunDefaultHandler a errCase) b := by
  unfold soRunDefaultHandler
  split_ifs <;> refine ⟨rfl, fun b htouches => ?_⟩ <;> rcases htouches with h | h | h | h <;> exact h

/-- The pages are numbered from address 0 on. -/
def page (a : UInt32) : ℕ := a.toNat / 4096

/-- Where `so_map_page_in_memory` maps: `map_start_addr`. -/
def mapStart (segment : SoSeg) (a : UInt32) : UInt32 := segment.vaddr + pageIdx segment a * pagesz

theorem pageOffset_toNat {segment : SoSeg} {a : UInt32} (ha : segment.vaddr ≤ a) :
    (pageIdx segment a * pagesz).toNat = (a.toNat - segment.vaddr.toNat) / 4096 * 4096 := by
  have hsize : pagesz.toNat = 4096 := rfl
  have hlt := a.toNat_lt
  rw [pageIdx, UInt32.toNat_mul, UInt32.toNat_div, UInt32.toNat_sub_of_le _ _ ha, hsize]
  omega

/-- The mapping starts where the page of the fault does. -/
theorem mapStart_toNat {segment : SoSeg} (haligned : segment.vaddr.toNat % 4096 = 0) {a : UInt32}
    (ha : segment.vaddr ≤ a) : (mapStart segment a).toNat = page a * 4096 := by
  have hle := UInt32.le_iff_toNat_le.mp ha
  have hlt := a.toNat_lt
  rw [mapStart, UInt32.toNat_add, pageOffset_toNat ha, page]
  omega

/-- From the start of a page, its addresses are the next 4096. -/
theorem within_page {start : UInt32} {p : ℕ} (hstart : start.toNat = p * 4096) (b : UInt32) :
    Within start 4096 b ↔ page b = p := by
  have hs := start.toNat_lt
  have hb := b.toNat_lt
  rw [Within, page, UInt32.toNat_sub]
  omega

theorem within_ofNat (start : UInt32) (n : ℕ) {i : ℕ} (hi : i < 2 ^ 32) :
    Within start n (start + UInt32.ofNat i) ↔ i < n := by
  have hsub : start + UInt32.ofNat i - start = UInt32.ofNat i := by
    rw [UInt32.add_comm, UInt32.add_sub_cancel]
  rw [Within, hsub, UInt32.toNat_ofNat_of_lt' hi]

/-- The comparison in `min` takes a size from 2^31 on for a negative number, and `read` takes it for a
size again. -/
theorem count_toNat (n : UInt32) :
    (min n.toInt32 pagesz.toInt32).toUInt32.toNat =
      if n.toNat < 2 ^ 31 then Min.min n.toNat 4096 else n.toNat := by
  have hint : n.toInt32.toInt = if 2 * n.toNat < 2 ^ 32 then (n.toNat : ℤ) else n.toNat - 2 ^ 32 :=
    BitVec.toInt_eq_toNat_cond n.toBitVec
  have hpage : pagesz.toInt32.toInt = 4096 := rfl
  have hlt := n.toNat_lt
  have hcmp : n.toInt32 > pagesz.toInt32 ↔ 4096 < n.toNat ∧ n.toNat < 2 ^ 31 := by
    rw [gt_iff_lt, Int32.lt_iff_toInt_lt, hint, hpage]
    split_ifs <;> omega
  rw [min]
  split_ifs with h hsmall hsmall
  · have hgt := (hcmp.mp h).1
    show 4096 = _
    omega
  · exact absurd (hcmp.mp h).2 hsmall
  · rw [UInt32.toUInt32_toInt32]
    rw [hcmp] at h
    omega
  · rw [UInt32.toUInt32_toInt32]

/-- The position after `lseek`, which takes an offset from 2^31 on for a negative one. -/
def soughtPosition (offset : UInt32) (m : Process) : ℕ :=
  if offset.toNat < 2 ^ 31 then offset.toNat else m.position

theorem lseek_run (content : List UInt8) (m : Process) (offset : UInt32) :
    (Call.lseek offset.toInt32).run content m = { m with position := soughtPosition offset m } := by
  have hint : offset.toInt32.toInt =
      if 2 * offset.toNat < 2 ^ 32 then (offset.toNat : ℤ) else offset.toNat - 2 ^ 32 :=
    BitVec.toInt_eq_toNat_cond offset.toBitVec
  have hlt := offset.toNat_lt
  have hneg : offset.toInt32 < 0 ↔ ¬offset.toNat < 2 ^ 31 := by
    rw [Int32.lt_iff_toInt_lt, hint, Int32.toInt_zero]
    split_ifs <;> omega
  have hrun : (Call.lseek offset.toInt32).run content m =
      if offset.toInt32 < 0 then m else { m with position := offset.toInt32.toInt.toNat } := rfl
  rw [hrun, soughtPosition, hint]
  by_cases h : offset.toNat < 2 ^ 31
  · rw [if_neg (fun hlow => hneg.mp hlow h), if_pos h, if_pos (by omega), Int.toNat_natCast]
  · rw [if_pos (hneg.mpr h), if_neg h]

/-- The calls that give the segment its table. -/
def SoSeg.allocation (segment : SoSeg) (fresh : UInt32) : List Call :=
  if segment.data = 0 then [.calloc (segment.memSize / pagesz) fresh] else []

/-- Where the entry of the page of a fault is. -/
def SoSeg.entry (segment : SoSeg) (fresh a : UInt32) : UInt32 :=
  (if segment.data = 0 then fresh else segment.data) + pageIdx segment a

theorem soMapPageInMemory_calls (byte : UInt32 → UInt8) (fresh : UInt32) (segment : SoSeg)
    (a : UInt32) : ∃ refusal, (refusal = [] ∨ refusal = soRunDefaultHandler a 1) ∧
      (soMapPageInMemory byte fresh segment a).2 =
        segment.allocation fresh ++ .load (segment.entry fresh a) :: refusal ++
          mapPage segment (pageIdx segment a) (segment.entry fresh a) := by
  refine ⟨_, ?_, rfl⟩
  split_ifs
  · exact Or.inr rfl
  · exact Or.inl rfl
  · exact Or.inr rfl
  · exact Or.inl rfl

/-- A read for the page asks for 2^31 bytes or more, and goes on as far as `b`: there is so much of the
file, and all pages between may be written. -/
structure Overreads (content : List UInt8) (m : Process) (segment : SoSeg) (idx b : UInt32) :
    Prop where
  large : 2 ^ 31 ≤ segment.fileSize.toNat - (idx * pagesz).toNat
  behind : 4096 ≤ (b - (segment.vaddr + idx * pagesz)).toNat
  asked : (b - (segment.vaddr + idx * pagesz)).toNat <
    segment.fileSize.toNat - (idx * pagesz).toNat
  inFile : soughtPosition (segment.offset + idx * pagesz) m +
    (b - (segment.vaddr + idx * pagesz)).toNat < content.length
  writable : ∀ i, 4096 ≤ i → i ≤ (b - (segment.vaddr + idx * pagesz)).toNat →
    m.writable (segment.vaddr + idx * pagesz + UInt32.ofNat i) = true

theorem mapPage_of_lt {segment : SoSeg} {idx : UInt32} (h : idx * pagesz < segment.fileSize)
    (entry : UInt32) :
    mapPage segment idx entry =
      [.mmap (segment.vaddr + idx * pagesz) pagesz permW, .memset entry,
        .lseek (segment.offset + idx * pagesz).toInt32,
        .read (segment.vaddr + idx * pagesz)
          (min (segment.fileSize - idx * pagesz).toInt32 pagesz.toInt32).toUInt32,
        .mprotect (segment.vaddr + idx * pagesz) pagesz segment.perm] := by
  have hsize : segment.fileSize > idx * pagesz := h
  simp [mapPage, hsize]

theorem mapPage_of_not_lt {segment : SoSeg} {idx : UInt32} (h : ¬idx * pagesz < segment.fileSize)
    (entry : UInt32) :
    mapPage segment idx entry =
      [.mmap (segment.vaddr + idx * pagesz) pagesz permW, .memset entry,
        .mprotect (segment.vaddr + idx * pagesz) pagesz segment.perm] := by
  have hsize : ¬segment.fileSize > idx * pagesz := h
  simp [mapPage, hsize]

/-- The state in which the file is read for a page. -/
def readState (content : List UInt8) (m : Process) (segment : SoSeg) (idx entry : UInt32) : Process :=
  runAll content m [.mmap (segment.vaddr + idx * pagesz) pagesz permW, .memset entry,
    .lseek (segment.offset + idx * pagesz).toInt32]

/-- The first 4096 addresses may be written then, and the others if they could be before. -/
theorem readState_writable (content : List UInt8) (m : Process) (segment : SoSeg) (idx entry : UInt32)
    {i : ℕ} (hi : i < 2 ^ 32) :
    (readState content m segment idx entry).writable
        (segment.vaddr + idx * pagesz + UInt32.ofNat i) = true ↔
      (4096 ≤ i → m.writable (segment.vaddr + idx * pagesz + UInt32.ofNat i) = true) := by
  have hprot : (readState content m segment idx entry).prot
      (segment.vaddr + idx * pagesz + UInt32.ofNat i) =
        if Within (segment.vaddr + idx * pagesz) 4096 (segment.vaddr + idx * pagesz + UInt32.ofNat i)
        then some permW else m.prot (segment.vaddr + idx * pagesz + UInt32.ofNat i) := by
    show ((Call.lseek _).run content _).prot _ = _
    rw [lseek_run]
    rfl
  unfold Process.writable
  rw [hprot]
  by_cases hpage : i < 4096
  · rw [if_pos ((within_ofNat _ _ hi).mpr hpage)]
    exact iff_of_true (by decide) fun h => absurd h (by omega)
  · rw [if_neg (fun h => hpage ((within_ofNat _ _ hi).mp h))]
    exact ⟨fun h _ => h, fun h => h (by omega)⟩

theorem readState_position (content : List UInt8) (m : Process) (segment : SoSeg)
    (idx entry : UInt32) : (readState content m segment idx entry).position =
      soughtPosition (segment.offset + idx * pagesz) m := by
  show ((Call.lseek _).run content _).position = _
  rw [lseek_run]
  rfl

/-- What a read for a page delivers, on the page and behind it. -/
theorem lt_delivered_readState (content : List UInt8) (m : Process) {segment : SoSeg}
    {idx : UInt32} (entry b : UInt32) (hsize : idx * pagesz < segment.fileSize) :
    (b - (segment.vaddr + idx * pagesz)).toNat <
        (readState content m segment idx entry).delivered content (segment.vaddr + idx * pagesz)
          (min (segment.fileSize - idx * pagesz).toInt32 pagesz.toInt32).toUInt32 ↔
      (b - (segment.vaddr + idx * pagesz)).toNat < 4096 ∧
          (idx * pagesz).toNat + (b - (segment.vaddr + idx * pagesz)).toNat <
            segment.fileSize.toNat ∧
          soughtPosition (segment.offset + idx * pagesz) m +
            (b - (segment.vaddr + idx * pagesz)).toNat < content.length ∨
        Overreads content m segment idx b := by
  have hlt := UInt32.lt_iff_toNat_lt.mp hsize
  have hleft : (segment.fileSize - idx * pagesz).toNat =
      segment.fileSize.toNat - (idx * pagesz).toNat :=
    UInt32.toNat_sub_of_le _ _ (UInt32.le_of_lt hsize)
  have hk := (b - (segment.vaddr + idx * pagesz)).toNat_lt
  rw [Process.lt_delivered_iff, readState_position, count_toNat, hleft]
  have hwritable : (∀ i ≤ (b - (segment.vaddr + idx * pagesz)).toNat,
      (readState content m segment idx entry).writable
        (segment.vaddr + idx * pagesz + UInt32.ofNat i) = true) ↔
      ∀ i, 4096 ≤ i → i ≤ (b - (segment.vaddr + idx * pagesz)).toNat →
        m.writable (segment.vaddr + idx * pagesz + UInt32.ofNat i) = true :=
    ⟨fun h i hi hle => (readState_writable content m segment idx entry (by omega)).mp (h i hle) hi,
      fun h i hle => (readState_writable content m segment idx entry (by omega)).mpr
        fun hi => h i hi hle⟩
  rw [hwritable]
  constructor
  · rintro ⟨hcount, hfile, hpages⟩
    by_cases hnear : (b - (segment.vaddr + idx * pagesz)).toNat < 4096
    · refine Or.inl ⟨hnear, ?_, hfile⟩
      split_ifs at hcount <;> omega
    · refine Or.inr ⟨?_, by omega, ?_, hfile, hpages⟩ <;> split_ifs at hcount <;> omega
  · rintro (⟨hnear, hsize', hfile⟩ | hover)
    · refine ⟨?_, hfile, fun i hi hle => absurd hle (by omega)⟩
      split_ifs <;> omega
    · have hlarge := hover.large
      have hasked := hover.asked
      refine ⟨?_, hover.inFile, hover.writable⟩
      rw [if_neg (by omega)]
      omega

/-- The calls for a page write to the page, to its entry, and wherever the read overreads. -/
theorem touchesAny_mapPage (content : List UInt8) (m : Process) (segment : SoSeg)
    (idx entry b : UInt32) :
    TouchesAny content m (mapPage segment idx entry) b ↔
      Within (segment.vaddr + idx * pagesz) 4096 b ∨ b = entry ∨ Overreads content m segment idx b := by
  by_cases hsize : idx * pagesz < segment.fileSize
  · rw [mapPage_of_lt hsize]
    have hread := lt_delivered_readState content m entry b hsize
    constructor
    · rintro (h | h | h | h | h | h)
      · exact Or.inl h
      · exact Or.inr (Or.inl h)
      · exact h.elim
      · rcases hread.mp h with ⟨hpage, -⟩ | hover
        · exact Or.inl hpage
        · exact Or.inr (Or.inr hover)
      · exact Or.inl h
      · exact h.elim
    · rintro (h | h | h)
      · exact Or.inl h
      · exact Or.inr (Or.inl h)
      · exact Or.inr (Or.inr (Or.inr (Or.inl (hread.mpr (Or.inr h)))))
  · rw [mapPage_of_not_lt hsize]
    constructor
    · rintro (h | h | h | h)
      · exact Or.inl h
      · exact Or.inr (Or.inl h)
      · exact Or.inl h
      · exact h.elim
    · rintro (h | h | h)
      · exact Or.inl h
      · exact Or.inr (Or.inl h)
      · have hle := UInt32.le_iff_toNat_le.mp (UInt32.not_lt.mp hsize)
        have hasked := h.asked
        omega

/-- The addresses that a fault writes for the table of its segment: a new table, and the entry. -/
def SoSeg.TableAt (segment : SoSeg) (fresh a b : UInt32) : Prop :=
  segment.data = 0 ∧ Within fresh (segment.memSize / pagesz).toNat b ∨ b = segment.entry fresh a

theorem touchesAny_allocation (content : List UInt8) (m : Process) (segment : SoSeg)
    (fresh b : UInt32) :
    TouchesAny content m (segment.allocation fresh) b ↔
      segment.data = 0 ∧ Within fresh (segment.memSize / pagesz).toNat b := by
  unfold SoSeg.allocation
  split_ifs with hnull
  · exact ⟨fun h => ⟨hnull, h.resolve_right id⟩, fun h => Or.inl h.2⟩
  · exact ⟨False.elim, fun h => hnull h.1⟩

/-- Before it maps the page, the handler changes memory by a new table only. -/
theorem runAll_soMapPageInMemory (content : List UInt8) (m : Process) (byte : UInt32 → UInt8)
    (fresh : UInt32) (segment : SoSeg) (a : UInt32) :
    runAll content m (soMapPageInMemory byte fresh segment a).2 =
      runAll content (runAll content m (segment.allocation fresh))
        (mapPage segment (pageIdx segment a) (segment.entry fresh a)) := by
  obtain ⟨refusal, hrefusal, hcalls⟩ := soMapPageInMemory_calls byte fresh segment a
  rw [hcalls, runAll_append, runAll_append]
  rcases hrefusal with rfl | rfl
  · rfl
  · exact congrArg (runAll content · _) (soRunDefaultHandler_quiet content _ a 1).1

theorem touchesAny_soMapPageInMemory (content : List UInt8) (m : Process) (byte : UInt32 → UInt8)
    (fresh : UInt32) {segment : SoSeg} (haligned : segment.vaddr.toNat % 4096 = 0) {a : UInt32}
    (ha : segment.vaddr ≤ a) (b : UInt32) :
    TouchesAny content m (soMapPageInMemory byte fresh segment a).2 b ↔
      page b = page a ∨ segment.TableAt fresh a b ∨
        Overreads content (runAll content m (segment.allocation fresh)) segment (pageIdx segment a)
          b := by
  obtain ⟨refusal, hrefusal, hcalls⟩ := soMapPageInMemory_calls byte fresh segment a
  have hquiet : ∀ m', ¬TouchesAny content m' (.load (segment.entry fresh a) :: refusal) b ∧
      runAll content m' (.load (segment.entry fresh a) :: refusal) = m' := by
    intro m'
    rcases hrefusal with rfl | rfl
    · exact ⟨fun h => h.elim id id, rfl⟩
    · obtain ⟨hrun, htouches⟩ := soRunDefaultHandler_quiet content m' a 1
      exact ⟨fun h => h.elim id (htouches b), hrun⟩
  have hpage := within_page (mapStart_toNat haligned ha) b
  rw [hcalls, touchesAny_append, touchesAny_append, runAll_append, (hquiet _).2,
    touchesAny_allocation, or_iff_left (hquiet _).1, touchesAny_mapPage, ← hpage, SoSeg.TableAt]
  show _ ∨ Within (mapStart segment a) 4096 b ∨ _ ∨ _ ↔ _
  tauto

/-- Some segment of the executable accepts the address. -/
def Accepted (exec : SoExec) (a : UInt32) : Prop := ∃ segment ∈ exec.segments, soPfInSegment segment a

/-- The segment for which a fault is served. -/
def servedSegment (exec : SoExec) (a : UInt32) : Option SoSeg :=
  exec.segments.find? (soPfInSegment · a)

theorem accepted_iff (exec : SoExec) (a : UInt32) :
    Accepted exec a ↔ ∃ segment, servedSegment exec a = some segment := by
  rw [← Option.isSome_iff_exists, servedSegment, List.find?_isSome]
  rfl

theorem segvHandler_calls {exec : SoExec} (hparsed : exec.Parsed) (byte : UInt32 → UInt8)
    (fresh a : UInt32) :
    (segvHandler byte fresh exec a).calls =
      match servedSegment exec a with
      | some segment => (soMapPageInMemory byte fresh segment a).2
      | none => soRunDefaultHandler a 0 := by
  rcases segvHandler_cases hparsed byte fresh a with ⟨hfind, heq⟩ | ⟨i, hi, hfind, heq⟩ <;> rw [heq]
  · have hnone : servedSegment exec a = none :=
      List.find?_eq_none.mpr (by simpa using List.findIdx?_eq_none_iff.mp hfind)
    rw [hnone]
  · obtain ⟨hlt, htest, hfirst⟩ := List.findIdx?_eq_some_iff_getElem.mp hfind
    have hsome : servedSegment exec a = some exec.segments[i] :=
      List.find?_eq_some_iff_getElem.mpr ⟨htest, i, hi, rfl, fun j hj => by simpa using hfirst j hj⟩
    rw [hsome]

/-- A served segment starts on a page, at or below the address. -/
theorem servedSegment_start {exec : SoExec} (hparsed : exec.Parsed) {a : UInt32} {segment : SoSeg}
    (h : servedSegment exec a = some segment) :
    segment.vaddr.toNat % 4096 = 0 ∧ segment.vaddr ≤ a := by
  have haccepts : soPfInSegment segment a = true := List.find?_some (p := (soPfInSegment · a)) h
  exact ⟨hparsed.aligned segment (List.mem_of_find?_eq_some h),
    UInt32.le_iff_toNat_le.mpr ((soPfInSegment_iff segment a).mp haccepts).1⟩

/-- The page is mapped by one of the calls. -/
def Maps (calls : List Call) (p : ℕ) : Prop :=
  ∃ start prot, Call.mmap start pagesz prot ∈ calls ∧ start.toNat = p * 4096

/-- A fault that is being handled: the executable and the process before it, where a new table would
be, and the address. -/
structure Served where
  exec : SoExec
  before : Process
  fresh : UInt32
  pfAddr : UInt32

namespace Served

def handled (served : Served) : Handled :=
  segvHandler served.before.byte served.fresh served.exec served.pfAddr

def calls (served : Served) : List Call := served.handled.calls

/-- A fault maps its page if a segment accepts it, and no page otherwise. -/
theorem maps_iff {served : Served} (hparsed : served.exec.Parsed) (p : ℕ) :
    Maps served.calls p ↔ Accepted served.exec served.pfAddr ∧ p = page served.pfAddr := by
  rw [calls, handled, segvHandler_calls hparsed, accepted_iff]
  cases hsegment : servedSegment served.exec served.pfAddr with
  | none =>
      refine iff_of_false ?_ (by simp)
      rintro ⟨start, prot, hmem, -⟩
      unfold soRunDefaultHandler at hmem
      split_ifs at hmem <;> simp at hmem
  | some segment =>
      obtain ⟨haligned, ha⟩ := servedSegment_start hparsed hsegment
      have hstart := mapStart_toNat haligned ha
      obtain ⟨refusal, hrefusal, hcalls⟩ :=
        soMapPageInMemory_calls served.before.byte served.fresh segment served.pfAddr
      dsimp only
      rw [hcalls]
      constructor
      · rintro ⟨start, prot, hmem, hp⟩
        have hmap : start = mapStart segment served.pfAddr := by
          rcases List.mem_append.mp hmem with hmem | hmem
          · rcases List.mem_append.mp hmem with hmem | hmem
            · unfold SoSeg.allocation at hmem
              split_ifs at hmem <;> simp at hmem
            · rcases hrefusal with rfl | rfl
              · simp at hmem
              · simp [soRunDefaultHandler] at hmem
          · by_cases hsize : pageIdx segment served.pfAddr * pagesz < segment.fileSize
            · rw [mapPage_of_lt hsize] at hmem
              simp at hmem
              exact hmem.1
            · rw [mapPage_of_not_lt hsize] at hmem
              simp at hmem
              exact hmem.1
        rw [hmap, hstart] at hp
        exact ⟨⟨segment, rfl⟩, by omega⟩
      · rintro ⟨-, rfl⟩
        exact ⟨mapStart segment served.pfAddr, permW,
          List.mem_append_right _ List.mem_cons_self, hstart⟩

/-- The fault has nothing to do with the page: it is on another one, its entry and a new table are not
on the page, and no read goes on as far as the page. -/
structure Spares (content : List UInt8) (served : Served) (p : ℕ) : Prop where
  other : page served.pfAddr ≠ p
  table : ∀ segment, servedSegment served.exec served.pfAddr = some segment →
    ∀ b, page b = p → ¬segment.TableAt served.fresh served.pfAddr b
  read : ∀ segment, servedSegment served.exec served.pfAddr = some segment →
    ∀ b, page b = p → ¬Overreads content
      (runAll content served.before (segment.allocation served.fresh)) segment
      (pageIdx segment served.pfAddr) b

end Served

/-- One fault, whatever the program has made of its memory before, whose handler gets through. -/
def Serve (content : List UInt8) (exec : SoExec) (served : Served) (exec' : SoExec) : Prop :=
  served.exec = exec ∧ allPermitted content served.before served.calls = true ∧
    served.handled.exec = exec'

/-- The handler leaves a page as the program has made it: nothing is written to its addresses, their
protection is not set, and so both stay whatever they are. -/
structure LeftAlone (content : List UInt8) (p : ℕ) (m : Process) (calls : List Call) : Prop where
  untouched : ∀ b, page b = p → ¬TouchesAny content m calls b
  kept : ∀ b, page b = p →
    (runAll content m calls).byte b = m.byte b ∧ (runAll content m calls).prot b = m.prot b

/-- Once a page has been mapped, every later fault leaves it alone. -/
def NeverRemapped (content : List UInt8) (history : List Served) : Prop :=
  history.Pairwise fun first later =>
    ∀ p, Maps first.calls p → LeftAlone content p later.before later.calls

theorem SameLayout.accepted {exec exec' : SoExec} (h : SameLayout exec exec') (a : UInt32) :
    Accepted exec' a ↔ Accepted exec a := by
  have hmap : ∀ exec : SoExec, Accepted exec a ↔
      ∃ segment ∈ exec.segments.map SoSeg.layout, soPfInSegment segment a := by
    intro exec
    simp only [List.mem_map, exists_exists_and_eq_and]
    rfl
  rw [hmap, hmap, h.segments]

/-- A fault leaves a page alone exactly if it spares the page, or no segment accepts it. -/
theorem leftAlone_iff {content : List UInt8} {served : Served} (hparsed : served.exec.Parsed)
    (p : ℕ) :
    LeftAlone content p served.before served.calls ↔
      (Accepted served.exec served.pfAddr → served.Spares content p) := by
  have huntouched : LeftAlone content p served.before served.calls ↔
      ∀ b, page b = p → ¬TouchesAny content served.before served.calls b :=
    ⟨LeftAlone.untouched, fun h => ⟨h, fun b hb => runAll_of_not_touches (h b hb)⟩⟩
  rw [huntouched, Served.calls, Served.handled, segvHandler_calls hparsed, accepted_iff]
  cases hsegment : servedSegment served.exec served.pfAddr with
  | none =>
      exact iff_of_true (fun b _ => (soRunDefaultHandler_quiet content _ _ 0).2 b) (by simp)
  | some segment =>
      obtain ⟨haligned, ha⟩ := servedSegment_start hparsed hsegment
      dsimp only
      simp only [touchesAny_soMapPageInMemory content _ _ _ haligned ha, not_or]
      constructor
      · rintro h -
        refine ⟨fun hpage => (h served.pfAddr hpage).1 rfl, fun segment' hserved b hb => ?_,
          fun segment' hserved b hb => ?_⟩ <;>
          obtain rfl := Option.some.inj (hsegment.symm.trans hserved)
        · exact (h b hb).2.1
        · exact (h b hb).2.2
      · intro h b hb
        have hspares := h ⟨segment, rfl⟩
        exact ⟨fun hpage => hspares.other (hpage.symm.trans hb), hspares.table segment hsegment b hb,
          hspares.read segment hsegment b hb⟩

/-- In a run the executable of every fault is the accepted one, up to the tables. -/
theorem sameLayout_of_serve {content : List UInt8} {exec exec' : SoExec} (hparsed : exec.Parsed)
    {history : List Served} (h : Run (Serve content) exec history exec') :
    ∀ served ∈ history, SameLayout exec served.exec := by
  induction h with
  | nil exec => exact nofun
  | @cons exec exec₁ exec₂ served history hstep _ ih =>
      obtain ⟨rfl, -, hexec⟩ := hstep
      have hlayout : SameLayout served.exec exec₁ := .of_fault hparsed ⟨_, _, hexec⟩
      intro other hmem
      rcases List.mem_cons.mp hmem with rfl | hmem
      · exact .refl _
      · exact hlayout.trans (ih (hlayout.parsed hparsed) other hmem)

/-- For every accepted executable and every sequence of faults, whatever the program does between them:
no page that has been mapped is written, mapped, read or protected again by the handler, exactly if
every later fault that is accepted spares the page of every earlier one. -/
theorem never_remapped_iff {content : List UInt8} {stack : Memory} {uninitialised : ℕ → UInt32}
    {exec exec' : SoExec} {history : List Served}
    (hparse : soParseExec (.bytes content) stack uninitialised = .ok exec)
    (hrun : Run (Serve content) exec history exec') :
    NeverRemapped content history ↔ history.Pairwise fun first later =>
      Accepted exec first.pfAddr → Accepted exec later.pfAddr →
        later.Spares content (page first.pfAddr) := by
  have hparsed := parsed_of_accepted hparse
  have hlayout := sameLayout_of_serve hparsed hrun
  refine List.Pairwise.iff_of_mem fun {first later} hfirst hlater => ?_
  have h₁ := hlayout first hfirst
  have h₂ := hlayout later hlater
  simp only [Served.maps_iff (h₁.parsed hparsed), leftAlone_iff (h₂.parsed hparsed), h₁.accepted,
    h₂.accepted]
  exact ⟨fun h haccepted haccepted' => h _ ⟨haccepted, rfl⟩ haccepted',
    fun h p hp haccepted' => hp.2 ▸ h hp.1 haccepted'⟩

/-- The first fault of a program of which nothing is in memory yet. -/
def firstFault (exec : SoExec) (fresh a : UInt32) : Served :=
  ⟨exec, ⟨fun _ => 0, fun _ => none, 0⟩, fresh, a⟩

/-- The fault after another one, when the program has stored a byte at an address in between. -/
def Served.next (content : List UInt8) (served : Served) (addr : UInt32) (value : UInt8)
    (fresh a : UInt32) : Served :=
  let m := runAll content served.before served.calls
  ⟨served.handled.exec, { m with byte := Function.update m.byte addr value }, fresh, a⟩

theorem run_twoFaults {content : List UInt8} {exec : SoExec} {first later : Served}
    (hexec : first.exec = exec) (hlater : later.exec = first.handled.exec)
    (hfirst : allPermitted content first.before first.calls = true)
    (hlater' : allPermitted content later.before later.calls = true) :
    Run (Serve content) exec [first, later] later.handled.exec :=
  .cons ⟨hexec, hfirst, rfl⟩ (.single ⟨hlater, hlater', rfl⟩)

/-- The program runs on its first page, stores into its second one, and the store faults. -/
theorem never_remapped_iff_twoPages :
    NeverRemapped abuttingFile [firstFault abutting 0x9000000 0x8048010,
      (firstFault abutting 0x9000000 0x8048010).next abuttingFile 0x8048020 0x55 0x9000010
        0x8049004] := by
  refine (never_remapped_iff parse_abutting (run_twoFaults rfl rfl (by decide +kernel)
    (by decide +kernel))).mpr (List.pairwise_pair.mpr fun _ _ => ?_)
  have hserved : ∀ segment, servedSegment (firstFault abutting 0x9000000 0x8048010).handled.exec
      0x8049004 = some segment → segment = ⟨0x8049000, 0x1000, 0x1000, 0x1000, 3, 0⟩ := by
    intro segment h
    have hsome : servedSegment (firstFault abutting 0x9000000 0x8048010).handled.exec 0x8049004 =
        some ⟨0x8049000, 0x1000, 0x1000, 0x1000, 3, 0⟩ := by decide +kernel
    exact Option.some.inj (h.symm.trans hsome)
  refine ⟨by decide, fun segment h b hb => ?_, fun segment h b _ hover => ?_⟩ <;>
    obtain rfl := hserved segment h
  · have hentry : SoSeg.entry ⟨0x8049000, 0x1000, 0x1000, 0x1000, 3, 0⟩ 0x9000010 0x8049004 =
        0x9000010 := by decide +kernel
    rintro (⟨-, hwithin⟩ | rfl)
    · have hsize : ((0x1000 : UInt32) / pagesz).toNat = 1 := by decide
      change (b - 0x9000010).toNat < ((0x1000 : UInt32) / pagesz).toNat at hwithin
      rw [hsize] at hwithin
      have hb' : b.toNat / 4096 = 0x8048 := hb
      have hlt := b.toNat_lt
      rw [UInt32.toNat_sub] at hwithin
      have hfresh : (0x9000010 : UInt32).toNat = 0x9000010 := rfl
      omega
    · change page (SoSeg.entry _ 0x9000010 0x8049004) = _ at hb
      rw [hentry] at hb
      exact absurd hb (by decide)
  · exact absurd hover.large (by decide)

/-- The program writes to its data page, and jumps into it: the second fault reports the access, and
then maps the page again, so that what was written is gone. -/
theorem permission_fault_remaps :
    soParseExec (.bytes abuttingFile) (fun _ => 0) (fun _ => 0) = .ok abutting ∧
      abutting.PageDisjoint ∧
      ∃ later, later =
          (firstFault abutting 0x9000000 0x8049004).next abuttingFile 0x8049004 0x55 0 0x8049010 ∧
        Run (Serve abuttingFile) abutting [firstFault abutting 0x9000000 0x8049004, later]
          later.handled.exec ∧
        later.before.byte 0x8049004 = 0x55 ∧
        (runAll abuttingFile later.before later.calls).byte 0x8049004 = 0 ∧
        ¬NeverRemapped abuttingFile [firstFault abutting 0x9000000 0x8049004, later] := by
  have hwritten : ((firstFault abutting 0x9000000 0x8049004).next abuttingFile 0x8049004 0x55 0
      0x8049010).before.byte 0x8049004 = 0x55 := by decide +kernel
  have hlost : (runAll abuttingFile ((firstFault abutting 0x9000000 0x8049004).next abuttingFile
      0x8049004 0x55 0 0x8049010).before ((firstFault abutting 0x9000000 0x8049004).next abuttingFile
        0x8049004 0x55 0 0x8049010).calls).byte 0x8049004 = 0 := by decide +kernel
  refine ⟨parse_abutting, abutting_pageDisjoint, _, rfl, run_twoFaults rfl rfl (by decide +kernel)
    (by decide +kernel), hwritten, hlost, fun hnever => ?_⟩
  have hmaps : Maps (firstFault abutting 0x9000000 0x8049004).calls 0x8049 :=
    ⟨0x8049000, permW, by decide +kernel, by decide⟩
  have hkept := (List.pairwise_pair.mp hnever 0x8049 hmaps).kept 0x8049004 (by decide)
  rw [hlost, hwritten] at hkept
  exact absurd hkept.1 (by decide)

end OsHomeworks.Loader
