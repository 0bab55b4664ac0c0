import Mathlib.Data.List.Sort
import Mathlib.Data.List.Nodup

/-! Priority lists with first-in first-out order among equal keys. A new element is inserted after
every element of greater or equal key and before the first one of strictly smaller key; the element
served is the first one that satisfies a readiness test, the others keep their relative order.
`Precedes` is the order of two elements of a duplicate-free list. -/

namespace OsHomeworks.StableQueue

variable {α : Type*} (key : α → ℕ)

/-- Insertion before the first element of strictly smaller key. -/
def insert (a : α) (l : List α) : List α := l.orderedInsert (fun x y => key y < key x) a

/-- Keys never increase along the list. -/
def Sorted (l : List α) : Prop := l.Pairwise fun a b => key b ≤ key a

@[simp] theorem insert_nil (a : α) : insert key a [] = [a] := rfl

theorem insert_cons (a b : α) (l : List α) : insert key a (b :: l) =
    if key b < key a then a :: b :: l else b :: insert key a l := List.orderedInsert_cons _ _ _ _

theorem mem_insert {a b : α} {l : List α} : b ∈ insert key a l ↔ b = a ∨ b ∈ l :=
  List.mem_orderedInsert _

theorem perm_insert (a : α) (l : List α) : (insert key a l).Perm (a :: l) :=
  List.perm_orderedInsert _ a l

theorem nodup_insert {a : α} {l : List α} (ha : a ∉ l) (hl : l.Nodup) : (insert key a l).Nodup :=
  (perm_insert key a l).nodup_iff.mpr (List.nodup_cons.mpr ⟨ha, hl⟩)

theorem sorted_insert (a : α) {l : List α} (hl : Sorted key l) : Sorted key (insert key a l) := by
  induction l with
  | nil => simp [insert, Sorted]
  | cons b l ih =>
      obtain ⟨hb, htail⟩ := List.pairwise_cons.mp hl
      simp only [insert, List.orderedInsert_cons]
      split_ifs with h
      · refine List.pairwise_cons.mpr ⟨fun c hc => ?_, hl⟩
        rcases List.mem_cons.mp hc with rfl | hc
        · exact h.le
        · exact (hb c hc).trans h.le
      · refine List.pairwise_cons.mpr ⟨fun c hc => ?_, ih htail⟩
        rcases (mem_insert key).mp hc with rfl | hc
        · exact not_lt.mp h
        · exact hb c hc

/-- A sorted list is cut where a new element goes. -/
theorem insert_split (a : α) {l : List α} (hl : Sorted key l) :
    ∃ higher lower, l = higher ++ lower ∧ insert key a l = higher ++ a :: lower ∧
      (∀ b ∈ higher, key a ≤ key b) ∧ ∀ b ∈ lower, key b < key a := by
  induction l with
  | nil => exact ⟨[], [], rfl, rfl, by simp, by simp⟩
  | cons b l ih =>
      obtain ⟨hb, htail⟩ := List.pairwise_cons.mp hl
      rw [insert_cons]
      split_ifs with hlt
      · refine ⟨[], b :: l, rfl, rfl, by simp, fun c hc => ?_⟩
        rcases List.mem_cons.mp hc with rfl | hc
        · exact hlt
        · exact (hb c hc).trans_lt hlt
      · obtain ⟨higher, lower, rfl, heq, hhigher, hlower⟩ := ih htail
        refine ⟨b :: higher, lower, rfl, by rw [heq]; rfl, fun c hc => ?_, hlower⟩
        rcases List.mem_cons.mp hc with rfl | hc
        · exact not_lt.mp hlt
        · exact hhigher c hc

/-- `a` stands before `b`. -/
def Precedes (l : List α) (a b : α) : Prop := [a, b].Sublist l

theorem Precedes.mem_left {l : List α} {a b : α} (h : Precedes l a b) : a ∈ l := h.subset (by simp)

theorem Precedes.mem_right {l : List α} {a b : α} (h : Precedes l a b) : b ∈ l := h.subset (by simp)

theorem Precedes.asymm {l : List α} (hl : l.Nodup) {a b : α} (h : Precedes l a b) :
    ¬Precedes l b a := by
  induction l with
  | nil => exact absurd h.mem_left List.not_mem_nil
  | cons c l ih =>
      obtain ⟨hc, htail⟩ := List.nodup_cons.mp hl
      intro h'
      unfold Precedes at h h'
      rw [List.sublist_cons_iff] at h h'
      rcases h with h | ⟨r, hr, h⟩ <;> rcases h' with h' | ⟨r', hr', h'⟩
      · exact ih htail h h'
      · obtain ⟨rfl, rfl⟩ := List.cons.inj hr'
        exact hc (Precedes.mem_right h)
      · obtain ⟨rfl, rfl⟩ := List.cons.inj hr
        exact hc (Precedes.mem_right h')
      · obtain ⟨rfl, rfl⟩ := List.cons.inj hr
        obtain ⟨rfl, rfl⟩ := List.cons.inj hr'
        exact hc (h'.subset (by simp))

theorem Precedes.mono {l l' : List α} {a b : α} (hsub : l.Sublist l') (h : Precedes l a b) :
    Precedes l' a b := h.trans hsub

/-- Inserting a third element leaves the order of the others alone. -/
theorem precedes_insert_iff [DecidableEq α] {x a b : α} {l : List α} (hx : x ∉ l) (ha : a ≠ x)
    (hb : b ≠ x) : Precedes (insert key x l) a b ↔ Precedes l a b := by
  constructor
  · intro h
    have herase := List.Sublist.erase x h
    rw [insert, List.erase_orderedInsert_of_notMem hx] at herase
    simpa [Precedes, List.erase_cons, ha, hb] using herase
  · exact Precedes.mono (List.sublist_orderedInsert x l)

/-- First in, first out: a newly inserted element stands behind those of equal or greater key. -/
theorem precedes_insert_new {x b : α} {l : List α} (hl : Sorted key l) (hb : b ∈ l)
    (hkey : key x ≤ key b) : Precedes (insert key x l) b x := by
  induction l with
  | nil => exact absurd hb List.not_mem_nil
  | cons c l ih =>
      obtain ⟨hc, htail⟩ := List.pairwise_cons.mp hl
      have hxc : ¬key c < key x := by
        rcases List.mem_cons.mp hb with rfl | hb
        · omega
        · have := hc b hb
          omega
      simp only [insert, List.orderedInsert_cons, if_neg hxc]
      rcases List.mem_cons.mp hb with rfl | hb
      · exact (List.singleton_sublist.mpr ((mem_insert key).mpr (Or.inl rfl))).cons_cons b
      · exact (ih htail hb).trans (List.sublist_cons_self _ _)

variable (ready : α → Bool)

/-- The list is cut at the element served: nothing before it is ready. -/
theorem find_split {l : List α} {f : α} (h : l.find? ready = some f) :
    ∃ before after, l = before ++ f :: after ∧ l.eraseP ready = before ++ after ∧
      ready f = true ∧ ∀ a ∈ before, ready a = false := by
  obtain ⟨hf, before, after, rfl, hbefore⟩ := List.find?_eq_some_iff_append.mp h
  refine ⟨before, after, rfl, ?_, hf, fun a ha => by simpa using hbefore a ha⟩
  rw [List.eraseP_append_right _ fun a ha => by simpa using hbefore a ha, List.eraseP_cons_of_pos hf]

theorem exists_find {l : List α} {a : α} (ha : a ∈ l) (hready : ready a = true) :
    ∃ f, l.find? ready = some f :=
  Option.isSome_iff_exists.mp (List.find?_isSome.mpr ⟨a, ha, hready⟩)

variable {ready}

/-- The element served has the greatest key of the ready ones. -/
theorem key_le_find {l : List α} (hl : Sorted key l) {f a : α} (h : l.find? ready = some f)
    (ha : a ∈ l) (hready : ready a = true) : key a ≤ key f := by
  obtain ⟨before, after, rfl, -, -, hbefore⟩ := find_split ready h
  obtain ⟨-, hafter, -⟩ := List.pairwise_append.mp hl
  rcases List.mem_append.mp ha with ha | ha
  · rw [hbefore a ha] at hready
    cases hready
  · rcases List.mem_cons.mp ha with rfl | ha
    · exact le_rfl
    · exact (List.pairwise_cons.mp hafter).1 a ha

/-- The element served stands before every other ready one. -/
theorem find_precedes {l : List α} {f a : α} (h : l.find? ready = some f) (ha : a ∈ l)
    (hready : ready a = true) (hne : a ≠ f) : Precedes l f a := by
  obtain ⟨before, after, rfl, -, -, hbefore⟩ := find_split ready h
  rcases List.mem_append.mp ha with ha | ha
  · rw [hbefore a ha] at hready
    cases hready
  · have hafter : a ∈ after := (List.mem_cons.mp ha).resolve_left hne
    exact ((List.singleton_sublist.mpr hafter).cons_cons f).trans
      (List.sublist_append_right before (f :: after))

/-- A ready element that is inserted with the greatest key of the ready ones is served. -/
theorem find_insert_of_lt {a : α} {l : List α} (ha : ready a = true)
    (hl : ∀ b ∈ l, ready b = true → b ≠ a → key b < key a) :
    (insert key a l).find? ready = some a := by
  induction l with
  | nil => exact List.find?_cons_of_pos ha
  | cons b l ih =>
      simp only [insert, List.orderedInsert_cons]
      split_ifs with hlt
      · exact List.find?_cons_of_pos ha
      · by_cases hb : ready b = true
        · have hba : b = a := by
            by_contra hne
            exact hlt (hl b List.mem_cons_self hb hne)
          subst b
          exact List.find?_cons_of_pos ha
        · rw [List.find?_cons_of_neg hb]
          exact ih fun c hc => hl c (List.mem_cons_of_mem _ hc)

theorem mem_eraseP_find {l : List α} (hl : l.Nodup) {f b : α} (h : l.find? ready = some f) :
    b ∈ l.eraseP ready ↔ b ∈ l ∧ b ≠ f := by
  obtain ⟨before, after, rfl, herase, -, -⟩ := find_split ready h
  obtain ⟨-, hf, hdisjoint⟩ := List.nodup_append.mp hl
  have hbefore : f ∉ before := fun hmem => hdisjoint f hmem f List.mem_cons_self rfl
  have hafter : f ∉ after := (List.nodup_cons.mp hf).1
  rw [herase, List.mem_append, List.mem_append, List.mem_cons]
  constructor
  · rintro (hb | hb)
    · exact ⟨Or.inl hb, fun heq => hbefore (heq ▸ hb)⟩
    · exact ⟨Or.inr (Or.inr hb), fun heq => hafter (heq ▸ hb)⟩
  · rintro ⟨hb | hb | hb, hne⟩
    · exact Or.inl hb
    · exact absurd hb hne
    · exact Or.inr hb

end OsHomeworks.StableQueue
