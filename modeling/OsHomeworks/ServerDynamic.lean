import OsHomeworks.ServerFraming
import Mathlib.Data.List.Nodup

/-! The transfer of a dynamic file in blocks. The number of blocks is rounded down where the entries
for them are created and freed, the loop that sends the blocks goes on to the end of the file, and the
arrays have as many pointers as a block has bytes; so the sizes are found for which the three agree. -/

namespace OsHomeworks.WebServer

open CallLog CallLog.Logged

/-- A division by zero, or the use of a pointer that is not there. -/
def Abort.OfMemory : Abort → Prop
  | .divisionByZero => True
  | .outOfBounds _ => True
  | .uninitialised _ => True
  | _ => False

theorem avoids_dieIf (assertion : Bool) (text : String) :
    Avoids Abort.OfMemory (dieIf assertion text) := by
  unfold dieIf
  split_ifs
  · exact avoids_abort id
  · exact avoids_pure ()

/-- Entry `i` has been created. -/
def Has {β : Type} (array : List (Option β)) (i : ℕ) : Prop := ∃ b, array[i]? = some (some b)

theorem entry_of_has {β : Type} {array : List (Option β)} {i : ℕ} (h : Has array i) :
    ∃ b, array[i]? = some (some b) ∧ entry array i = pure b := by
  obtain ⟨b, hb⟩ := h
  refine ⟨b, hb, ?_⟩
  rw [entry, hb]

theorem entry_of_not_has {β : Type} {array : List (Option β)} {i : ℕ} (h : ¬Has array i) :
    ∃ e, entry array i = abort e ∧ e.OfMemory := by
  cases hget : array[i]? with
  | none => exact ⟨.outOfBounds i, by rw [entry, hget], trivial⟩
  | some cell =>
      cases cell with
      | none => exact ⟨.uninitialised i, by rw [entry, hget], trivial⟩
      | some b => exact absurd ⟨b, hget⟩ h

theorem has_set {β : Type} {array : List (Option β)} {i : ℕ} (hi : i < array.length) (b : β) (j : ℕ) :
    Has (array.set i (some b)) j ↔ j = i ∨ Has array j := by
  by_cases hij : j = i
  · subst hij
    exact iff_of_true ⟨b, List.getElem?_set_self hi⟩ (Or.inl rfl)
  · rw [Has, List.getElem?_set_ne (Ne.symm hij)]
    simp [hij, Has]

/-- The memory for `n` more entries fits in the array. -/
theorem allocateEntries_eq {β : Type} (memory : ℕ → β) {i n : ℕ} {array : List (Option β)}
    (h : i + n ≤ array.length) :
    ∃ array', allocateEntries memory i n array = pure array' ∧
      ∀ j, Has array' j ↔ i ≤ j ∧ j < i + n ∨ Has array j := by
  induction n generalizing i array with
  | zero =>
      refine ⟨array, rfl, fun j => ?_⟩
      have hnone : ¬(i ≤ j ∧ j < i + 0) := by omega
      rw [or_iff_right hnone]
  | succ n ih =>
      have hi : i < array.length := by omega
      have hnext : i + 1 + n ≤ (array.set i (some (memory i))).length := by
        rw [List.length_set]
        omega
      obtain ⟨array', heq, hhas⟩ := ih hnext
      refine ⟨array', ?_, fun j => ?_⟩
      · rw [allocateEntries, if_pos hi, heq]
      · rw [hhas, has_set hi]
        by_cases hj : Has array j
        · simp [hj]
        · simp only [hj, or_false]
          omega

/-- More entries than the array has pointers. -/
theorem allocateEntries_out {β : Type} (memory : ℕ → β) {i n : ℕ} {array : List (Option β)}
    (hi : i ≤ array.length) (h : array.length < i + n) :
    allocateEntries memory i n array = abort (.outOfBounds array.length) := by
  induction n generalizing i array with
  | zero => omega
  | succ n ih =>
      rw [allocateEntries]
      split_ifs with hlt
      · rw [ih (by rw [List.length_set]; omega) (by rw [List.length_set]; omega), List.length_set]
      · obtain rfl : i = array.length := by omega
        rfl

theorem not_has_replicate {β : Type} (cells j : ℕ) :
    ¬Has (List.replicate cells (none : Option β)) j := by
  rintro ⟨b, hb⟩
  have hmem := List.mem_of_getElem? hb
  rw [List.mem_replicate] at hmem
  cases hmem.2

/-- A new array with pointers enough. -/
theorem allocateEntries_new {β : Type} (memory : ℕ → β) {n cells : ℕ} (h : n ≤ cells) :
    ∃ array, allocateEntries memory 0 n (List.replicate cells none) = pure array ∧
      ∀ j, Has array j ↔ j < n := by
  obtain ⟨array, heq, hhas⟩ := allocateEntries_eq memory (i := 0) (n := n)
    (show 0 + n ≤ (List.replicate cells (none : Option β)).length by
      rw [List.length_replicate]
      omega)
  refine ⟨array, heq, fun j => ?_⟩
  rw [hhas, or_iff_left (not_has_replicate _ _)]
  omega

theorem allocateEntries_new_out {β : Type} (memory : ℕ → β) {n cells : ℕ} (h : cells < n) :
    allocateEntries memory 0 n (List.replicate cells none) = abort (.outOfBounds cells) := by
  have hout := allocateEntries_out memory (Nat.zero_le _)
    (show (List.replicate cells (none : Option β)).length < 0 + n by
      rw [List.length_replicate]
      omega)
  rwa [List.length_replicate] at hout

/-- Exactly the first `q` entries of the three arrays have been created. -/
structure Aio.Created (aio : Aio) (q : ℕ) : Prop where
  iocbR : ∀ i, Has aio.iocbR i ↔ i < q
  iocbW : ∀ i, Has aio.iocbW i ↔ i < q
  dataBlocks : ∀ i, Has aio.dataBlocks i ↔ i < q

/-- The size of a block of a file of `n` bytes. -/
def blockSize (n : ℕ) : ℕ := min n bufsiz

section

variable {conn : Connection} {n : ℕ} (hsize : conn.fileSz = n)

include hsize

theorem readbSz_eq : readbSz conn = blockSize n := by
  rw [readbSz, hsize, blockSize]
  omega

theorem blockCount_eq : blockCount conn = n / blockSize n := by
  rw [blockCount, readbSz_eq hsize, hsize]
  rfl

variable (hpos : 1 ≤ n)

include hpos

theorem readbSz_ne_zero : readbSz conn ≠ 0 := by
  rw [readbSz_eq hsize, blockSize, bufsiz]
  omega

/-- Where the arrays have pointers enough, `iocb_setup` creates the entries. -/
theorem iocbSetup_of_fits (hfit : n / blockSize n ≤ blockSize n) (answers : SendAnswers) :
    ∃ aio : Aio, aio.Created (n / blockSize n) ∧ iocbSetup conn answers = (do
      dieIf (answers.eventfd < 0) "Invalid eventfd!\n"
      perform (.eventfd answers.eventfd)
      dieIf (answers.ioSetup < 0) "Invalid io_setup.\n"
      return aio) := by
  obtain ⟨pointers, hpointers, hhas⟩ := allocateEntries_new (fun _ => ()) hfit
  obtain ⟨dataBlocks, hdataBlocks, hhasBlocks⟩ := allocateEntries_new answers.memory hfit
  refine ⟨⟨pointers, pointers, dataBlocks⟩, ⟨hhas, hhas, hhasBlocks⟩, ?_⟩
  have hcount : (readbSz conn).toNat = blockSize n := by rw [readbSz_eq hsize, Int.toNat_natCast]
  rw [iocbSetup, blockCount_eq hsize, if_neg (readbSz_ne_zero hsize hpos)]
  dsimp only
  rw [hcount, hpointers, hdataBlocks]
  rfl

theorem iocbSetup_of_not_fits (hfit : blockSize n < n / blockSize n) {answers : SendAnswers}
    (hfd : 0 ≤ answers.eventfd) :
    (iocbSetup conn answers).result = .error (.outOfBounds (blockSize n)) := by
  have hcount : (readbSz conn).toNat = blockSize n := by rw [readbSz_eq hsize, Int.toNat_natCast]
  rw [iocbSetup, dieIf_neg (Int.not_lt.mpr hfd), ok_bind, perform_bind, blockCount_eq hsize,
    if_neg (readbSz_ne_zero hsize hpos)]
  dsimp only
  rw [hcount, allocateEntries_new_out _ hfit]
  rfl

/-- Without an eventfd or an AIO context `send_dynamic_file` does not return. -/
theorem created_of_returns {answers : SendAnswers} {conn' : Connection}
    (h : (sendDynamicFile conn answers).result = .ok conn') :
    0 ≤ answers.eventfd ∧ 0 ≤ answers.ioSetup := by
  rw [sendDynamicFile] at h
  obtain ⟨aio, haio, -⟩ := bind_result_eq_ok.mp h
  have hfd : 0 ≤ answers.eventfd := by
    by_contra hneg
    rw [iocbSetup_die conn (Int.not_le.mp hneg)] at haio
    cases haio
  refine ⟨hfd, ?_⟩
  by_contra hneg
  rcases Nat.lt_or_ge (blockSize n) (n / blockSize n) with hout | hfit
  · rw [iocbSetup_of_not_fits hsize hpos hout hfd] at haio
    cases haio
  · obtain ⟨_, -, hsetup⟩ := iocbSetup_of_fits hsize hpos hfit answers
    rw [hsetup, dieIf_neg (Int.not_lt.mpr hfd), dieIf_pos (Int.not_le.mp hneg), ok_bind,
      perform_bind, abort_bind] at haio
    cases haio

end

theorem Aio.Created.set {aio : Aio} {q i : ℕ} (h : aio.Created q) (hi : i < q) (block : List UInt8) :
    ({ aio with dataBlocks := aio.dataBlocks.set i (some block) } : Aio).Created q := by
  refine ⟨h.iocbR, h.iocbW, fun j => ?_⟩
  obtain ⟨b, hb⟩ := (h.dataBlocks i).mpr hi
  obtain ⟨hlt, -⟩ := List.getElem?_eq_some_iff.mp hb
  show Has (aio.dataBlocks.set i (some block)) j ↔ j < q
  rw [has_set hlt, h.dataBlocks]
  omega

/-- What is written of a block: as much of its buffer as was asked for, after as much of the file as
was read has been put into it. -/
def written (conn : Connection) (content block : List UInt8) (sentBytes : Int)
    (answer : BlockAnswers) : List UInt8 × List UInt8 :=
  let data := ((content.drop sentBytes.toNat).take (readbSz conn).toNat).take answer.read
  let block := data ++ block.drop data.length
  (block, (block.take (readbSz conn).toNat).take answer.write)

/-- A turn of the loop for a block whose entries have been created. -/
theorem sendDynamicLoop_turn {conn : Connection} {aio : Aio} {q i : ℕ} (h : aio.Created q)
    (hi : i < q) {sentBytes : Int} (hleft : sentBytes < conn.fileSz) (content : List UInt8)
    (answer : BlockAnswers) (answers : List BlockAnswers) :
    ∃ block, sendDynamicLoop conn content aio i sentBytes (answer :: answers) = (do
      dieIf (answer.submitRead < 0) "Invalid io_submit.\n"
      asyncIOWait answer.readEvents
      dieIf (answer.submitWrite < 0) "Invalid io_submit.\n"
      asyncIOWait answer.writeEvents
      perform (.pwrite (written conn content block sentBytes answer).2)
      sendDynamicLoop conn content
        { aio with
          dataBlocks := aio.dataBlocks.set i
            (some (written conn content block sentBytes answer).1) }
        (i + 1) (sentBytes + readbSz conn) answers) := by
  obtain ⟨_, -, hiocbR⟩ := entry_of_has ((h.iocbR i).mpr hi)
  obtain ⟨_, -, hiocbW⟩ := entry_of_has ((h.iocbW i).mpr hi)
  obtain ⟨block, -, hblock⟩ := entry_of_has ((h.dataBlocks i).mpr hi)
  refine ⟨block, ?_⟩
  rw [sendDynamicLoop, if_pos hleft, hiocbR, ok_bind, hblock, ok_bind]
  dsimp only
  rw [hiocbW]
  rfl

/-- The loop comes to a block for which there are no entries. -/
theorem sendDynamicLoop_stuck {conn : Connection} {aio : Aio} {q : ℕ} (h : aio.Created q)
    {sentBytes : Int} (hleft : sentBytes < conn.fileSz) (content : List UInt8)
    (answer : BlockAnswers) (answers : List BlockAnswers) :
    ∃ e, sendDynamicLoop conn content aio q sentBytes (answer :: answers) = abort e ∧
      e.OfMemory := by
  obtain ⟨e, hentry, he⟩ := entry_of_not_has fun hhas => absurd ((h.iocbR q).mp hhas) (Nat.lt_irrefl q)
  refine ⟨e, ?_, he⟩
  rw [sendDynamicLoop, if_pos hleft, hentry, abort_bind]

theorem sendDynamicLoop_done {conn : Connection} {sentBytes : Int} (h : ¬sentBytes < conn.fileSz)
    (content : List UInt8) (aio : Aio) (i : ℕ) (answers : List BlockAnswers) :
    sendDynamicLoop conn content aio i sentBytes answers = pure aio := by
  cases answers with
  | nil => rw [sendDynamicLoop, if_neg h]
  | cons answer answers => rw [sendDynamicLoop, if_neg h]

theorem avoids_asyncIOWait (answers : List Int) : Avoids Abort.OfMemory (asyncIOWait answers) := by
  induction answers with
  | nil => exact avoids_abort id
  | cons noEventsRead answers ih =>
      rw [asyncIOWait]
      split_ifs
      · exact avoids_abort id
      · exact ih
      · exact avoids_pure ()

section

variable {conn : Connection} {n : ℕ} (hsize : conn.fileSz = n)

include hsize

/-- Where the blocks that have entries cover the file, the loop uses no other. -/
theorem sendDynamicLoop_avoids {q : ℕ} (hcover : n ≤ q * blockSize n) (content : List UInt8)
    (answers : List BlockAnswers) {aio : Aio} (h : aio.Created q) (i : ℕ) {sentBytes : Int}
    (hsent : sentBytes = (i * blockSize n : ℕ)) :
    Avoids Abort.OfMemory (sendDynamicLoop conn content aio i sentBytes answers) ∧
      Ensures (fun c => ∃ data, c = .pwrite data) (fun aio' : Aio => aio'.Created q)
        (sendDynamicLoop conn content aio i sentBytes answers) := by
  induction answers generalizing aio i sentBytes with
  | nil =>
      rw [sendDynamicLoop]
      split_ifs
      · exact ⟨avoids_abort id, ensures_abort⟩
      · exact ⟨avoids_pure _, ensures_pure h⟩
  | cons answer answers ih =>
      by_cases hleft : sentBytes < conn.fileSz
      · have hi : i < q := by
          rw [hsize, hsent] at hleft
          exact Nat.lt_of_mul_lt_mul_right (Nat.lt_of_lt_of_le (by omega) hcover)
        have hnext : sentBytes + readbSz conn = ((i + 1) * blockSize n : ℕ) := by
          rw [hsent, readbSz_eq hsize, Nat.add_mul, Nat.one_mul]
          push_cast
          rfl
        obtain ⟨block, hturn⟩ := sendDynamicLoop_turn h hi hleft content answer answers
        obtain ⟨havoids, hensures⟩ := ih (h.set hi _) (i + 1) hnext
        rw [hturn]
        constructor
        · refine (avoids_dieIf _ _).bind fun _ _ => (avoids_asyncIOWait _).bind fun _ _ => ?_
          refine (avoids_dieIf _ _).bind fun _ _ => (avoids_asyncIOWait _).bind fun _ _ => ?_
          exact (avoids_perform _).bind fun _ _ => havoids
        · refine Ensures.bind (Q := fun _ => True) (ensures_dieIf trivial) fun _ _ => ?_
          refine (ensures_asyncIOWait _).bind fun _ _ => ?_
          refine Ensures.bind (Q := fun _ => True) (ensures_dieIf trivial) fun _ _ => ?_
          refine (ensures_asyncIOWait _).bind fun _ _ => ?_
          exact Ensures.bind (Q := fun _ => True) (ensures_perform ⟨_, rfl⟩ trivial) fun _ _ =>
            hensures
      · rw [sendDynamicLoop_done hleft]
        exact ⟨avoids_pure _, ensures_pure h⟩

end

/-- `io_free` on entries that have been created. -/
theorem ioFree_eq {aio : Aio} {q : ℕ} (h : aio.Created q) {i n : ℕ} (hn : i + n ≤ q) :
    ioFree aio i n = ⟨(List.range' i n).map .freeEntries, .ok ()⟩ := by
  induction n generalizing i with
  | zero => rfl
  | succ n ih =>
      obtain ⟨_, -, hiocbR⟩ := entry_of_has ((h.iocbR i).mpr (by omega))
      obtain ⟨_, -, hiocbW⟩ := entry_of_has ((h.iocbW i).mpr (by omega))
      obtain ⟨block, -, hblock⟩ := entry_of_has ((h.dataBlocks i).mpr (by omega))
      rw [ioFree, hiocbR, ok_bind, hiocbW, ok_bind, hblock, ok_bind, perform_bind,
        ih (by omega)]
      rfl

/-- The file is one block, or whole blocks of which there are no more than a block has bytes. -/
def Fits (n : ℕ) : Prop := n ≤ bufsiz ∨ bufsiz ∣ n ∧ n ≤ bufsiz * bufsiz

instance (n : ℕ) : Decidable (Fits n) := inferInstanceAs (Decidable (_ ∨ _ ∧ _))

/-- The blocks that are counted cover the file, and there are pointers for them. -/
theorem fits_iff {n : ℕ} (hpos : 1 ≤ n) :
    Fits n ↔ n / blockSize n * blockSize n = n ∧ n / blockSize n ≤ blockSize n := by
  rcases Nat.lt_or_ge bufsiz n with hlarge | hsmall
  · have hsize : blockSize n = bufsiz := Nat.min_eq_right (Nat.le_of_lt hlarge)
    rw [hsize]
    constructor
    · rintro (hle | ⟨hdvd, hle⟩)
      · omega
      · exact ⟨Nat.div_mul_cancel hdvd, Nat.div_le_of_le_mul hle⟩
    · rintro ⟨hwhole, hle⟩
      refine Or.inr ⟨⟨n / bufsiz, by rw [Nat.mul_comm, hwhole]⟩, ?_⟩
      calc n = n / bufsiz * bufsiz := hwhole.symm
        _ ≤ bufsiz * bufsiz := Nat.mul_le_mul_right _ hle
  · have hsize : blockSize n = n := Nat.min_eq_left hsmall
    rw [hsize, Nat.div_self hpos]
    exact iff_of_true (Or.inl hsmall) ⟨Nat.one_mul n, hpos⟩

/-- No memory error happens, and what `iocb_setup` has created is freed exactly once. -/
structure Bookkept (conn : Connection) (answers : SendAnswers) : Prop where
  memory : Avoids Abort.OfMemory (sendDynamicFile conn answers)
  freed : ∀ aio conn', (iocbSetup conn answers).result = .ok aio →
    (sendDynamicFile conn answers).result = .ok conn' →
    ∀ i, (Has aio.iocbR i ∨ Has aio.iocbW i ∨ Has aio.dataBlocks i →
        (sendDynamicFile conn answers).calls.count (.freeEntries i) = 1) ∧
      (¬(Has aio.iocbR i ∨ Has aio.iocbW i ∨ Has aio.dataBlocks i) →
        (sendDynamicFile conn answers).calls.count (.freeEntries i) = 0)

theorem iocbSetup_avoids {conn : Connection} {n : ℕ} (hsize : conn.fileSz = n) (hpos : 1 ≤ n)
    (hfit : n / blockSize n ≤ blockSize n) (answers : SendAnswers) :
    Avoids Abort.OfMemory (iocbSetup conn answers) ∧
      Ensures (fun _ => True) (fun aio : Aio => aio.Created (n / blockSize n))
        (iocbSetup conn answers) := by
  obtain ⟨aio, hcreated, hsetup⟩ := iocbSetup_of_fits hsize hpos hfit answers
  rw [hsetup]
  constructor
  · refine (avoids_dieIf _ _).bind fun _ _ => (avoids_perform _).bind fun _ _ => ?_
    exact (avoids_dieIf _ _).bind fun _ _ => avoids_pure _
  · refine Ensures.bind (Q := fun _ => True) (ensures_dieIf trivial) fun _ _ => ?_
    refine Ensures.bind (Q := fun _ => True) (ensures_perform trivial trivial) fun _ _ => ?_
    exact Ensures.bind (Q := fun _ => True) (ensures_dieIf trivial) fun _ _ =>
      ensures_pure hcreated

theorem count_freeEntries (q i : ℕ) :
    ((List.range' 0 q).map Call.freeEntries).count (.freeEntries i) = if i < q then 1 else 0 := by
  have hnodup : ((List.range' 0 q).map Call.freeEntries).Nodup :=
    List.Nodup.map (fun _ _ h => Call.freeEntries.inj h) (List.nodup_range' 1)
  rw [hnodup.count]
  simp

theorem bookkept_of_fits {conn : Connection} {n : ℕ} (hsize : conn.fileSz = n) (hpos : 1 ≤ n)
    (hfits : Fits n) (answers : SendAnswers) : Bookkept conn answers := by
  obtain ⟨hcover, hfit⟩ := (fits_iff hpos).mp hfits
  obtain ⟨hsetupAvoids, hsetup⟩ := iocbSetup_avoids hsize hpos hfit answers
  have hloop := fun (aio : Aio) (h : aio.Created (n / blockSize n)) =>
    sendDynamicLoop_avoids hsize (Nat.le_of_eq hcover.symm) answers.content answers.blocks h 0
      (show (0 : Int) = (0 * blockSize n : ℕ) by rw [Nat.zero_mul]; rfl)
  have hfree := fun (aio : Aio) (h : aio.Created (n / blockSize n)) =>
    ioFree_eq h (Nat.le_of_eq (Nat.zero_add (n / blockSize n)))
  constructor
  · refine hsetupAvoids.bind fun aio haio => ?_
    obtain ⟨havoids, hensures⟩ := hloop aio (hsetup.value aio haio)
    refine havoids.bind fun aio' haio' => ?_
    rw [blockCount_eq hsize, hfree aio' (hensures.value aio' haio')]
    exact nofun
  · intro aio conn' haio hconn' i
    have hcreated := hsetup.value aio haio
    obtain ⟨-, hensures⟩ := hloop aio hcreated
    have hcalls : ∃ pwrites, (∀ c ∈ pwrites, ∃ data, c = Call.pwrite data) ∧
        (sendDynamicFile conn answers).calls = (iocbSetup conn answers).calls ++
          (pwrites ++ (List.range' 0 (n / blockSize n)).map .freeEntries) := by
      rw [sendDynamicFile, bind_of_ok haio] at hconn' ⊢
      obtain ⟨aio', haio', hrest⟩ := bind_result_eq_ok.mp hconn'
      refine ⟨_, hensures.call, ?_⟩
      rw [bind_of_ok haio', blockCount_eq hsize, hfree aio' (hensures.value aio' haio'),
        bind_of_ok rfl, pure_calls, List.append_nil]
    obtain ⟨pwrites, hpwrites, hcalls⟩ := hcalls
    have hsetupCalls : (iocbSetup conn answers).calls.count (.freeEntries i) = 0 := by
      rw [iocbSetup_calls, List.count_eq_zero]
      split_ifs <;> simp
    have hpwritesCount : pwrites.count (.freeEntries i) = 0 := by
      rw [List.count_eq_zero]
      intro hmem
      obtain ⟨data, hdata⟩ := hpwrites _ hmem
      cases hdata
    rw [hcalls, List.count_append, List.count_append, hsetupCalls, hpwritesCount, count_freeEntries,
      hcreated.iocbR, hcreated.iocbW, hcreated.dataBlocks]
    simp

/-- `io_getevents` reports the event after some calls without one. -/
def Waits (events : List Int) : Prop :=
  ∃ before e after, events = before ++ e :: after ∧ (∀ d ∈ before, d = 0) ∧ 1 ≤ e

theorem asyncIOWait_eq {events : List Int} (h : Waits events) : asyncIOWait events = pure () := by
  obtain ⟨before, e, after, rfl, hbefore, he⟩ := h
  induction before with
  | nil => rw [List.nil_append, asyncIOWait, if_neg (by omega), if_neg (by omega)]
  | cons d before ih =>
      have hd : d = 0 := hbefore d (List.mem_cons_self ..)
      rw [List.cons_append, asyncIOWait, if_neg (by omega), if_pos (by omega)]
      exact ih fun d' hd' => hbefore d' (List.mem_cons_of_mem _ hd')

/-- The requests for a block are submitted and complete in full: of what is available to be read, as
much as was asked for. -/
structure BlockAnswers.Full (answer : BlockAnswers) (requested available : ℕ) : Prop where
  submitRead : 0 ≤ answer.submitRead
  readEvents : Waits answer.readEvents
  read : answer.read = min requested available
  submitWrite : 0 ≤ answer.submitWrite
  writeEvents : Waits answer.writeEvents
  write : answer.write = requested

/-- Every request for a file of `n` bytes completes in full. -/
def SendAnswers.Completes (answers : SendAnswers) (n : ℕ) : Prop :=
  ∀ k, k * blockSize n < n → ∃ answer, answers.blocks[k]? = some answer ∧
    answer.Full (blockSize n) (n - k * blockSize n)

section

variable {conn : Connection} {n : ℕ} (hsize : conn.fileSz = n) (hpos : 1 ≤ n)
  {answers : SendAnswers} (hcontent : answers.content.length = n)
  (hcomplete : answers.Completes n)

include hsize hcontent

/-- A block that lies in the file is written as it is. -/
theorem written_eq {i : ℕ} (hblock : (i + 1) * blockSize n ≤ n) {answer : BlockAnswers}
    (hfull : answer.Full (blockSize n) (n - i * blockSize n)) (block : List UInt8) :
    (written conn answers.content block (i * blockSize n : ℕ) answer).2 =
      (answers.content.drop (i * blockSize n)).take (blockSize n) := by
  rw [Nat.add_mul, Nat.one_mul] at hblock
  have hread : answer.read = blockSize n := by
    rw [hfull.read]
    omega
  have hlength : ((answers.content.drop (i * blockSize n)).take (blockSize n)).length =
      blockSize n := by
    rw [List.length_take, List.length_drop, hcontent]
    omega
  have htake := List.take_of_length_le (Nat.le_of_eq hlength)
  rw [written, readbSz_eq hsize, Int.toNat_natCast, Int.toNat_natCast, hread, hfull.write]
  dsimp only
  rw [htake, List.take_left' hlength, htake]

include hpos hcomplete

/-- One turn of the loop, for a block that has an entry and lies in the file. -/
theorem sendDynamicLoop_block {q : ℕ} {aio : Aio} (h : aio.Created q) {i : ℕ} (hi : i < q)
    (hblock : (i + 1) * blockSize n ≤ n) :
    ∃ aio', Aio.Created aio' q ∧
      sendDynamicLoop conn answers.content aio i (i * blockSize n : ℕ) (answers.blocks.drop i) =
        ⟨.pwrite ((answers.content.drop (i * blockSize n)).take (blockSize n)) ::
            (sendDynamicLoop conn answers.content aio' (i + 1) ((i + 1) * blockSize n : ℕ)
              (answers.blocks.drop (i + 1))).calls,
          (sendDynamicLoop conn answers.content aio' (i + 1) ((i + 1) * blockSize n : ℕ)
            (answers.blocks.drop (i + 1))).result⟩ := by
  have hb : 1 ≤ blockSize n := by
    rw [blockSize, bufsiz]
    omega
  have hsucc : (i + 1) * blockSize n = i * blockSize n + blockSize n := by
    rw [Nat.add_mul, Nat.one_mul]
  have hleft : i * blockSize n < n := by omega
  obtain ⟨answer, hanswer, hfull⟩ := hcomplete i hleft
  have hdrop : answers.blocks.drop i = answer :: answers.blocks.drop (i + 1) := by
    obtain ⟨hlt, rfl⟩ := List.getElem?_eq_some_iff.mp hanswer
    exact List.drop_eq_getElem_cons hlt
  obtain ⟨block, hturn⟩ := sendDynamicLoop_turn h hi
    (show ((i * blockSize n : ℕ) : Int) < conn.fileSz by omega) answers.content answer
    (answers.blocks.drop (i + 1))
  have hnext : ((i * blockSize n : ℕ) : Int) + readbSz conn = ((i + 1) * blockSize n : ℕ) := by
    rw [readbSz_eq hsize, hsucc]
    push_cast
    rfl
  refine ⟨_, h.set hi (written conn answers.content block (i * blockSize n : ℕ) answer).1, ?_⟩
  rw [hdrop, hturn, dieIf_neg (Int.not_lt.mpr hfull.submitRead), ok_bind,
    asyncIOWait_eq hfull.readEvents, ok_bind, dieIf_neg (Int.not_lt.mpr hfull.submitWrite),
    ok_bind, asyncIOWait_eq hfull.writeEvents, ok_bind, perform_bind, hnext,
    written_eq hsize hcontent hblock hfull]

/-- The blocks that have entries are written one behind the other. -/
theorem sendDynamicLoop_complete {q : ℕ} (hblocks : q * blockSize n ≤ n) (d : ℕ) {aio : Aio}
    (h : aio.Created q) {i : ℕ} (hi : i + d = q) :
    ∃ aio' calls, Aio.Created aio' q ∧
      calls.flatMap Call.written =
        (answers.content.drop (i * blockSize n)).take (d * blockSize n) ∧
      sendDynamicLoop conn answers.content aio i (i * blockSize n : ℕ) (answers.blocks.drop i) =
        ⟨calls ++ (sendDynamicLoop conn answers.content aio' q (q * blockSize n : ℕ)
            (answers.blocks.drop q)).calls,
          (sendDynamicLoop conn answers.content aio' q (q * blockSize n : ℕ)
            (answers.blocks.drop q)).result⟩ := by
  induction d generalizing aio i with
  | zero =>
      obtain rfl : i = q := hi
      refine ⟨aio, [], h, ?_, rfl⟩
      rw [Nat.zero_mul]
      rfl
  | succ d ih =>
      have hblock : (i + 1) * blockSize n ≤ n :=
        Nat.le_trans (Nat.mul_le_mul_right _ (by omega)) hblocks
      obtain ⟨next, hnext, hturn⟩ :=
        sendDynamicLoop_block hsize hpos hcontent hcomplete h (by omega) hblock
      obtain ⟨aio', calls, hcreated, hdata, hloop⟩ := ih hnext (i := i + 1) (by omega)
      refine ⟨aio', .pwrite ((answers.content.drop (i * blockSize n)).take (blockSize n)) :: calls,
        hcreated, ?_, ?_⟩
      · calc ((answers.content.drop (i * blockSize n)).take (blockSize n) ++
              calls.flatMap Call.written)
            = (answers.content.drop (i * blockSize n)).take (blockSize n) ++
                ((answers.content.drop (i * blockSize n)).drop (blockSize n)).take
                  (d * blockSize n) := by rw [hdata, List.drop_drop, Nat.add_mul, Nat.one_mul]
          _ = (answers.content.drop (i * blockSize n)).take (blockSize n + d * blockSize n) :=
              List.take_add.symm
          _ = (answers.content.drop (i * blockSize n)).take ((d + 1) * blockSize n) := by
              rw [Nat.add_mul, Nat.one_mul, Nat.add_comm]
      · rw [hturn, hloop]
        rfl

/-- A transfer that completes writes the whole blocks of the file and, if there is nothing behind them,
returns; else it uses a block for which there are no entries. -/
theorem sendDynamicFile_complete (hfit : n / blockSize n ≤ blockSize n) (hfd : 0 ≤ answers.eventfd)
    (hio : 0 ≤ answers.ioSetup) :
    if n / blockSize n * blockSize n = n then
      (∃ conn', (sendDynamicFile conn answers).result = .ok conn') ∧
        (sendDynamicFile conn answers).calls.flatMap Call.written = answers.content
    else ∃ e, (sendDynamicFile conn answers).result = .error e ∧ e.OfMemory := by
  obtain ⟨aio, hcreated, hsetup⟩ := iocbSetup_of_fits hsize hpos hfit answers
  rw [dieIf_neg (Int.not_lt.mpr hfd), dieIf_neg (Int.not_lt.mpr hio), ok_bind, ok_bind,
    perform_bind] at hsetup
  have hle : n / blockSize n * blockSize n ≤ n := Nat.div_mul_le_self n _
  obtain ⟨aio', calls, hcreated', hdata, hloop⟩ := sendDynamicLoop_complete hsize hpos hcontent
    hcomplete hle (n / blockSize n) hcreated (Nat.zero_add _)
  have hstart : ((0 * blockSize n : ℕ) : Int) = 0 := by rw [Nat.zero_mul]; rfl
  rw [hstart, List.drop_zero] at hloop
  rw [Nat.zero_mul, List.drop_zero] at hdata
  rw [sendDynamicFile, hsetup, bind_of_ok rfl, hloop, blockCount_eq hsize]
  split_ifs with hwhole
  · rw [sendDynamicLoop_done (by rw [hsize, hwhole]; exact Int.lt_irrefl _), bind_of_ok rfl,
      ioFree_eq hcreated' (Nat.le_of_eq (Nat.zero_add _)), bind_of_ok rfl]
    refine ⟨⟨_, rfl⟩, ?_⟩
    have hfreed : ((List.range' 0 (n / blockSize n)).map Call.freeEntries).flatMap Call.written =
        [] := by
      refine List.flatMap_eq_nil_iff.mpr fun c hc => ?_
      obtain ⟨i, -, rfl⟩ := List.mem_map.mp hc
      rfl
    have hall : calls.flatMap Call.written = answers.content := by
      rw [hdata, hwhole, ← hcontent]
      exact List.take_length
    calc ([Call.eventfd answers.eventfd] ++ ((calls ++ []) ++
            ((List.range' 0 (n / blockSize n)).map Call.freeEntries ++ []))).flatMap Call.written
        = calls.flatMap Call.written ++
            ((List.range' 0 (n / blockSize n)).map Call.freeEntries).flatMap Call.written := by
          rw [List.append_nil, List.append_nil, List.flatMap_append, List.flatMap_append]
          rfl
      _ = answers.content := by rw [hall, hfreed, List.append_nil]
  · obtain ⟨answer, hanswer, -⟩ := hcomplete (n / blockSize n) (by omega)
    obtain ⟨hlt, rfl⟩ := List.getElem?_eq_some_iff.mp hanswer
    obtain ⟨e, hstuck, he⟩ := sendDynamicLoop_stuck hcreated'
      (show ((n / blockSize n * blockSize n : ℕ) : Int) < conn.fileSz by omega) answers.content
      answers.blocks[n / blockSize n] (answers.blocks.drop (n / blockSize n + 1))
    rw [List.drop_eq_getElem_cons hlt, hstuck]
    exact ⟨e, rfl, he⟩

/-- Where the bookkeeping does not agree, a transfer that completes comes to a memory error. -/
theorem sendDynamicFile_of_not_fits (hnot : ¬Fits n) (hfd : 0 ≤ answers.eventfd)
    (hio : 0 ≤ answers.ioSetup) :
    ∃ e, (sendDynamicFile conn answers).result = .error e ∧ e.OfMemory := by
  rcases Nat.lt_or_ge (blockSize n) (n / blockSize n) with hout | hfit
  · refine ⟨.outOfBounds (blockSize n), ?_, trivial⟩
    rw [sendDynamicFile, bind_of_error (iocbSetup_of_not_fits hsize hpos hout hfd)]
  · have hcomplete' := sendDynamicFile_complete hsize hpos hcontent hcomplete hfit hfd hio
    rwa [if_neg fun hwhole => hnot ((fits_iff hpos).mpr ⟨hwhole, hfit⟩)] at hcomplete'

end

/-- The file is written to the socket, byte for byte, and the transfer returns. -/
def SentExactly (conn : Connection) (answers : SendAnswers) : Prop :=
  (∃ conn', (sendDynamicFile conn answers).result = .ok conn') ∧
    (sendDynamicFile conn answers).calls.flatMap Call.written = answers.content

/-- For every file of `n` bytes all requests for which complete in full: it is sent exactly if there are
an eventfd and an AIO context, and it is one block or whole blocks, no more than a block has bytes. -/
theorem sent_exactly_iff {conn : Connection} {n : ℕ} (hsize : conn.fileSz = n) (hpos : 1 ≤ n)
    {answers : SendAnswers} (hcontent : answers.content.length = n)
    (hcomplete : answers.Completes n) :
    SentExactly conn answers ↔ 0 ≤ answers.eventfd ∧ 0 ≤ answers.ioSetup ∧ Fits n := by
  constructor
  · rintro ⟨⟨conn', hreturns⟩, -⟩
    obtain ⟨hfd, hio⟩ := created_of_returns hsize hpos hreturns
    refine ⟨hfd, hio, ?_⟩
    by_contra hnot
    obtain ⟨e, herror, -⟩ :=
      sendDynamicFile_of_not_fits hsize hpos hcontent hcomplete hnot hfd hio
    cases hreturns.symm.trans herror
  · rintro ⟨hfd, hio, hfits⟩
    obtain ⟨hwhole, hfit⟩ := (fits_iff hpos).mp hfits
    have hcomplete' := sendDynamicFile_complete hsize hpos hcontent hcomplete hfit hfd hio
    rwa [if_pos hwhole] at hcomplete'

/-- Everything about a file completes at once. -/
def completing (content : List UInt8) : SendAnswers where
  getPeerAddress := 0
  send := []
  content := content
  sendfile := []
  eventfd := 5
  memory := fun _ => []
  ioSetup := 0
  blocks := (List.range content.length).map fun k =>
    ⟨0, [1], min (blockSize content.length) (content.length - k * blockSize content.length), 0, [1],
      blockSize content.length⟩
  epollCtl := 0

theorem completing_completes (content : List UInt8) :
    (completing content).Completes content.length := by
  intro k hk
  have hb : 1 ≤ blockSize content.length := by
    rw [blockSize, bufsiz]
    omega
  have hlt : k < content.length :=
    Nat.lt_of_le_of_lt (Nat.le_mul_of_pos_right k hb) hk
  have hwaits : Waits [1] := ⟨[], 1, [], rfl, nofun, by decide⟩
  refine ⟨⟨0, [1], min (blockSize content.length) (content.length - k * blockSize content.length),
    0, [1], blockSize content.length⟩, ?_, Int.le_refl 0, hwaits, rfl, Int.le_refl 0, hwaits, rfl⟩
  rw [completing, List.getElem?_map, List.getElem?_range hlt]
  rfl

theorem sent_exactly_iff_threeBytes :
    SentExactly { clearedMemory with fileSz := 3 } (completing [1, 2, 3]) ↔
      0 ≤ (completing [1, 2, 3]).eventfd ∧ 0 ≤ (completing [1, 2, 3]).ioSetup ∧ Fits 3 :=
  sent_exactly_iff rfl (by decide) rfl (completing_completes [1, 2, 3])

/-- One byte more than a block. -/
theorem not_sent_exactly :
    (completing (List.replicate 8193 0)).Completes 8193 ∧
      ¬SentExactly { clearedMemory with fileSz := 8193 } (completing (List.replicate 8193 0)) := by
  have hlength : (List.replicate 8193 (0 : UInt8)).length = 8193 := List.length_replicate
  have hcomplete := completing_completes (List.replicate 8193 0)
  rw [hlength] at hcomplete
  have hsize : ({ clearedMemory with fileSz := 8193 } : Connection).fileSz = (8193 : ℕ) := rfl
  refine ⟨hcomplete, ?_⟩
  rintro ⟨⟨conn', hreturns⟩, -⟩
  obtain ⟨e, herror, -⟩ := sendDynamicFile_of_not_fits hsize (by decide) hlength hcomplete
    (by decide) (show (0 : Int) ≤ 5 by decide) (Int.le_refl 0)
  cases hreturns.symm.trans herror

/-- For every size of a file: no memory error happens and every entry is freed once, whatever the
system calls return, exactly if the file is not empty and is one block or whole blocks, no more than a
block has bytes. -/
theorem bookkept_iff (n : ℕ) :
    (∀ (conn : Connection) (answers : SendAnswers), conn.fileSz = n → Bookkept conn answers) ↔
      1 ≤ n ∧ Fits n := by
  constructor
  · intro h
    have hpos : 1 ≤ n := by
      by_contra hzero
      obtain rfl : n = 0 := by omega
      exact (h clearedMemory (completing []) rfl).memory .divisionByZero rfl trivial
    refine ⟨hpos, ?_⟩
    by_contra hnot
    have hlength : (List.replicate n (0 : UInt8)).length = n := List.length_replicate
    have hcomplete := completing_completes (List.replicate n 0)
    rw [hlength] at hcomplete
    have hsize : ({ clearedMemory with fileSz := n } : Connection).fileSz = n := rfl
    obtain ⟨e, herror, he⟩ := sendDynamicFile_of_not_fits hsize hpos hlength hcomplete hnot
      (show (0 : Int) ≤ 5 by decide) (Int.le_refl 0)
    exact (h _ _ hsize).memory e herror he
  · rintro ⟨hpos, hfits⟩ conn answers hsize
    exact bookkept_of_fits hsize hpos hfits answers

/-- The block size of an empty file is 0, and the number of its blocks is computed by division. -/
theorem not_bookkept_empty : ¬Bookkept clearedMemory (completing []) := fun h =>
  h.memory .divisionByZero rfl trivial

end OsHomeworks.WebServer
