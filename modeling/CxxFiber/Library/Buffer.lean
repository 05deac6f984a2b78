import Mathlib.Data.List.Basic

/-! Arrays on the heap of a C program: an access outside of them fails, and what has not been
written is junk. -/
namespace Buffer

variable {α : Type*} {a b : List α} {i j k n : ℕ} {x u : α} {f : α → α}

/-- `malloc` of `n` cells; `u` is a cell with nothing in it. -/
def malloc (u : α) (n : ℕ) : List α := List.replicate n u

/-- `realloc` to `n` cells. -/
def realloc (u : α) (a : List α) (n : ℕ) : List α := a.take n ++ List.replicate (n - a.length) u

def load (a : List α) (i : ℕ) : Option α := a[i]?

def store (a : List α) (i : ℕ) (x : α) : Option (List α) :=
  if i < a.length then some (a.set i x) else none

/-- The loop `for (j = i; j < i + k; j++) a[j] = f(a[j])`. -/
def updateFrom (f : α → α) (a : List α) (i : ℕ) : ℕ → Option (List α)
  | 0 => some a
  | k + 1 => do
    let x ← load a i
    let a ← store a i (f x)
    updateFrom f a (i + 1) k

/-- The loop that reads `k` cells from `i` on. -/
def loadFrom (a : List α) (i : ℕ) : ℕ → Option (List α)
  | 0 => some []
  | k + 1 => do
    let x ← load a i
    let xs ← loadFrom a (i + 1) k
    some (x :: xs)

/-- The loop that writes the cells from `i` on. -/
def storeFrom (a : List α) (i : ℕ) : List α → Option (List α)
  | [] => some a
  | x :: xs => do
    let a ← store a i x
    storeFrom a (i + 1) xs

@[simp] theorem length_malloc : (malloc u n).length = n := List.length_replicate

@[simp] theorem length_realloc : (realloc u a n).length = n := by
  rw [realloc, List.length_append, List.length_take, List.length_replicate]
  omega

theorem load_malloc (h : i < n) : load (malloc u n) i = some u := by
  simp [load, malloc, h]

theorem load_realloc (hn : i < n) (ha : i < a.length) : load (realloc u a n) i = load a i := by
  rw [load, realloc, List.getElem?_append_left (by rw [List.length_take]; omega),
    List.getElem?_take_of_lt hn]
  rfl

/-- The cells that `realloc` adds. -/
theorem load_realloc_new (hn : i < n) (ha : a.length ≤ i) : load (realloc u a n) i = some u := by
  rw [load, realloc, List.getElem?_append_right (by rw [List.length_take]; omega),
    List.getElem?_replicate, if_pos (by rw [List.length_take]; omega)]

theorem load_isSome : (∃ x, load a i = some x) ↔ i < a.length := by
  constructor
  · rintro ⟨x, hx⟩
    exact (List.getElem?_eq_some_iff.mp hx).1
  · intro h
    exact ⟨a[i], List.getElem?_eq_getElem h⟩

theorem store_some (h : store a i x = some b) : i < a.length ∧ b = a.set i x := by
  unfold store at h
  split at h
  · next hi => exact ⟨hi, (Option.some.inj h).symm⟩
  · cases h

theorem store_of_lt (h : i < a.length) : store a i x = some (a.set i x) := if_pos h

theorem length_store (h : store a i x = some b) : b.length = a.length := by
  rw [(store_some h).2, List.length_set]

/-- A loop that goes through has stayed inside the array. -/
theorem storeFrom_le {xs : List α} (h : storeFrom a i xs = some b) :
    xs.length ≤ a.length - i := by
  induction xs generalizing a i with
  | nil => exact Nat.zero_le _
  | cons x xs ih =>
    rw [storeFrom, Option.bind_eq_bind, Option.bind_eq_some_iff] at h
    obtain ⟨c, hc, h⟩ := h
    have hrest := ih h
    have hi := (store_some hc).1
    rw [length_store hc] at hrest
    rw [List.length_cons]
    omega

theorem load_store (h : store a i x = some b) : load b j = if j = i then some x else load a j := by
  obtain ⟨hi, rfl⟩ := store_some h
  unfold load
  by_cases hj : j = i
  · subst j
    rw [if_pos rfl, List.getElem?_set_self hi]
  · rw [if_neg hj, List.getElem?_set_ne (Ne.symm hj)]

/-- The loop stays inside the array, and writes the cells from `i` on. -/
theorem updateFrom_of_le (h : i + k ≤ a.length) : ∃ b, updateFrom f a i k = some b ∧
    b.length = a.length ∧
      ∀ j, load b j = if i ≤ j ∧ j < i + k then (load a j).map f else load a j := by
  induction k generalizing a i with
  | zero =>
    refine ⟨a, rfl, rfl, fun j => ?_⟩
    rw [if_neg (by omega)]
  | succ k ih =>
    obtain ⟨x, hx⟩ := load_isSome.mpr (show i < a.length by omega)
    have hs : store a i (f x) = some (a.set i (f x)) := store_of_lt (by omega)
    obtain ⟨b, hb, hl, hload⟩ := ih (a := a.set i (f x)) (i := i + 1)
      (by rw [List.length_set]; omega)
    refine ⟨b, ?_, hl.trans (length_store hs), fun j => ?_⟩
    · unfold updateFrom
      rw [hx, Option.bind_eq_bind, Option.bind_some, hs, Option.bind_eq_bind, Option.bind_some, hb]
    · rw [hload j, load_store hs]
      by_cases hj : j = i
      · subst j
        rw [if_neg (by omega), if_pos rfl, if_pos (by omega), hx]
        rfl
      · rw [if_neg hj]
        by_cases hi : i + 1 ≤ j ∧ j < i + 1 + k
        · rw [if_pos hi, if_pos (by omega)]
        · rw [if_neg hi, if_neg (by omega)]

theorem storeFrom_of_le (xs : List α) (h : i + xs.length ≤ a.length) :
    ∃ b, storeFrom a i xs = some b ∧ b.length = a.length ∧
      (∀ j < i, load b j = load a j) ∧ loadFrom b i xs.length = some xs := by
  induction xs generalizing a i with
  | nil => exact ⟨a, rfl, rfl, fun _ _ => rfl, rfl⟩
  | cons x xs ih =>
    rw [List.length_cons] at h
    have hs : store a i x = some (a.set i x) := store_of_lt (by omega)
    obtain ⟨b, hb, hl, hlt, hload⟩ := ih (a := a.set i x) (i := i + 1)
      (by rw [List.length_set]; omega)
    refine ⟨b, ?_, hl.trans (length_store hs), fun j hj => ?_, ?_⟩
    · unfold storeFrom
      rw [hs, Option.bind_eq_bind, Option.bind_some, hb]
    · rw [hlt j (by omega), load_store hs, if_neg (by omega)]
    · have hi : load b i = some x := by rw [hlt i (by omega), load_store hs, if_pos rfl]
      rw [List.length_cons]
      unfold loadFrom
      rw [hi, Option.bind_eq_bind, Option.bind_some, hload]
      rfl

end Buffer
