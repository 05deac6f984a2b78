import Mathlib.Data.List.Count

/-! Histories of heap objects that are stored in slots: which objects are live, and whether each
operation finds them as it must. A history lists the newest operation first. -/
namespace Ownership

/-- `drop` deletes an object that was never stored, `free` what is found in a slot, and `use` reads
what was found in one. Nothing found means a pointer that never was an object of the history. -/
inductive Op (A S : Type*)
  | alloc (a : A)
  | store (s : S) (a : A)
  | drop (a : A)
  | free (s : S) (c : Option A)
  | use (c : Option A)
  deriving DecidableEq

variable {A S : Type*} [DecidableEq A] {log : List (Op A S)} {a b : A} {s : S} {c : Option A}

def Op.deleted : Op A S → Option A
  | .drop a => some a
  | .free _ c => c
  | _ => none

/-- How often an object has been deleted. -/
def deletions (log : List (Op A S)) (a : A) : ℕ := log.countP fun o => decide (o.deleted = some a)

def Live (log : List (Op A S)) (a : A) : Prop := .alloc a ∈ log ∧ deletions log a = 0

/-- Objects are new when they are made and live when they are stored, deleted or used; a slot gives
up an object that has been stored there. -/
def Owned : List (Op A S) → Prop
  | [] => True
  | .alloc a :: log => .alloc a ∉ log ∧ Owned log
  | .store _ a :: log => Live log a ∧ Owned log
  | .drop a :: log => Live log a ∧ Owned log
  | .free s c :: log => (∃ a, c = some a ∧ .store s a ∈ log ∧ Live log a) ∧ Owned log
  | .use c :: log => (∃ a, c = some a ∧ Live log a) ∧ Owned log

@[simp] theorem deletions_nil : deletions ([] : List (Op A S)) a = 0 := rfl

@[simp] theorem deletions_alloc : deletions (.alloc b :: log) a = deletions log a := by
  simp [deletions, Op.deleted]

@[simp] theorem deletions_store : deletions (.store s b :: log) a = deletions log a := by
  simp [deletions, Op.deleted]

@[simp] theorem deletions_use : deletions (.use c :: log) a = deletions log a := by
  simp [deletions, Op.deleted]

@[simp] theorem deletions_drop :
    deletions (.drop b :: log) a = deletions log a + if b = a then 1 else 0 := by
  simp [deletions, Op.deleted, List.countP_cons]

@[simp] theorem deletions_free :
    deletions (.free s c :: log) a = deletions log a + if c = some a then 1 else 0 := by
  by_cases h : c = some a <;> simp [deletions, Op.deleted, h]

@[simp] theorem live_store : Live (.store s b :: log) a ↔ Live log a := by
  simp [Live]

@[simp] theorem live_use : Live (.use c :: log) a ↔ Live log a := by
  simp [Live]

@[simp] theorem live_drop : Live (.drop b :: log) a ↔ Live log a ∧ a ≠ b := by
  simp [Live, and_assoc, eq_comm]

@[simp] theorem live_free : Live (.free s (some b) :: log) a ↔ Live log a ∧ a ≠ b := by
  simp [Live, and_assoc, eq_comm]

/-- What has been deleted was made before. -/
theorem Owned.alloc_mem (h : Owned log) (hd : deletions log a ≠ 0) : .alloc a ∈ log := by
  induction log with
  | nil => exact (hd rfl).elim
  | cons o log ih =>
    cases o with
    | alloc b => exact List.mem_cons_of_mem _ (ih h.2 (by simpa using hd))
    | store s b => exact List.mem_cons_of_mem _ (ih h.2 (by simpa using hd))
    | use c => exact List.mem_cons_of_mem _ (ih h.2 (by simpa using hd))
    | drop b =>
      by_cases hb : b = a
      · exact List.mem_cons_of_mem _ (hb ▸ h.1.1)
      · exact List.mem_cons_of_mem _ (ih h.2 (by simpa [hb] using hd))
    | free s c =>
      obtain ⟨b, rfl, -, hlive⟩ := h.1
      by_cases hb : b = a
      · exact List.mem_cons_of_mem _ (hb ▸ hlive.1)
      · exact List.mem_cons_of_mem _ (ih h.2 (by simpa [hb] using hd))

theorem Owned.live_alloc (h : Owned log) (hb : .alloc b ∉ log) :
    Live (.alloc b :: log) a ↔ a = b ∨ Live log a := by
  have hzero : deletions log b = 0 := by
    by_contra hd
    exact hb (h.alloc_mem hd)
  constructor
  · rintro ⟨hmem, hd⟩
    rw [deletions_alloc] at hd
    rcases List.mem_cons.mp hmem with heq | hmem
    · exact Or.inl (Op.alloc.inj heq)
    · exact Or.inr ⟨hmem, hd⟩
  · rintro (rfl | ⟨hmem, hd⟩)
    · exact ⟨List.mem_cons_self, by rwa [deletions_alloc]⟩
    · exact ⟨List.mem_cons_of_mem _ hmem, by rwa [deletions_alloc]⟩

/-- No object is deleted twice. -/
theorem Owned.deletions_le_one (h : Owned log) : deletions log a ≤ 1 := by
  induction log with
  | nil => exact Nat.zero_le _
  | cons o log ih =>
    cases o with
    | alloc b => simpa using ih h.2
    | store s b => simpa using ih h.2
    | use c => simpa using ih h.2
    | drop b =>
      rw [deletions_drop]
      split
      · next hb =>
        subst hb
        have := h.1.2
        omega
      · exact ih h.2
    | free s c =>
      obtain ⟨b, rfl, -, hlive⟩ := h.1
      rw [deletions_free]
      split
      · next hb =>
        obtain rfl := Option.some.inj hb
        have := hlive.2
        omega
      · exact ih h.2

/-- What was made and is no longer live has been deleted exactly once. -/
theorem Owned.deletions_eq_one (h : Owned log) (ha : .alloc a ∈ log) (hn : ¬ Live log a) :
    deletions log a = 1 := by
  have hle := h.deletions_le_one (a := a)
  have hne : deletions log a ≠ 0 := fun hz => hn ⟨ha, hz⟩
  omega

/-- A run of uses changes nothing. -/
theorem live_uses {us : List (Option A)} : Live (us.map .use ++ log) a ↔ Live log a := by
  induction us with
  | nil => rfl
  | cons c us ih => simpa using ih

theorem owned_uses {us : List (Option A)} : Owned (us.map .use ++ log) ↔
    (∀ c ∈ us, ∃ a, c = some a ∧ Live log a) ∧ Owned log := by
  induction us with
  | nil => simp
  | cons c us ih =>
    simp only [List.map_cons, List.cons_append, Owned, live_uses, ih, List.forall_mem_cons,
      and_assoc]

end Ownership
