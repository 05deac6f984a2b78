import Mathlib.Data.List.Basic
import Mathlib.Data.Int.Notation

/-! A vector of vectors, read and written at integers. -/
namespace Grid

variable {E : Type*} {g : List (List E)} {i j i' j' : ℤ} {x y : E} {n m : ℕ}

def create (n m : ℕ) (x : E) : List (List E) := List.replicate n (List.replicate m x)

/-- None where there is no such element. -/
def read (g : List (List E)) (i j : ℤ) : Option E :=
  if 0 ≤ i ∧ 0 ≤ j then g[i.toNat]?.bind fun row => row[j.toNat]? else none

/-- To an element that there is. -/
def write (g : List (List E)) (i j : ℤ) (x : E) : List (List E) :=
  g.modify i.toNat fun row => row.set j.toNat x

theorem read_create : read (create n m x) i j =
    if (0 ≤ i ∧ i < n) ∧ 0 ≤ j ∧ j < m then some x else none := by
  unfold read create
  by_cases h : 0 ≤ i ∧ 0 ≤ j
  · rw [if_pos h]
    by_cases hi : i < n
    · have hi' : i.toNat < n := by omega
      by_cases hj : j < m
      · have hj' : j.toNat < m := by omega
        simp [hi', hj', hi, hj, h]
      · have hj' : ¬ j.toNat < m := by omega
        simp [hi', hj', hj]
    · have hi' : ¬ i.toNat < n := by omega
      simp [hi', hi]
  · rw [if_neg h, if_neg fun h' => h ⟨h'.1.1, h'.2.1⟩]

@[simp] theorem read_nil : read ([] : List (List E)) i j = none := by
  simp [read]

theorem read_write_self (h : read g i j = some y) : read (write g i j x) i j = some x := by
  unfold read at h ⊢
  split at h
  · next hij =>
    obtain ⟨row, hrow, hy⟩ := Option.bind_eq_some_iff.mp h
    have hlt : j.toNat < row.length := (List.getElem?_eq_some_iff.mp hy).1
    rw [if_pos hij, write, List.getElem?_modify_eq, hrow]
    simp [hlt]
  · exact nomatch h

theorem read_write_of_ne (h : read g i j = some y) (hne : ¬ (i' = i ∧ j' = j)) :
    read (write g i j x) i' j' = read g i' j' := by
  have hij : 0 ≤ i ∧ 0 ≤ j := by
    by_contra hn
    rw [read, if_neg hn] at h
    exact nomatch h
  unfold read
  by_cases h' : 0 ≤ i' ∧ 0 ≤ j'
  · rw [if_pos h', if_pos h', write]
    by_cases hi : i = i'
    · subst hi
      have hj : j.toNat ≠ j'.toNat := by
        intro hj
        exact hne ⟨rfl, by omega⟩
      rw [List.getElem?_modify_eq]
      cases g[i.toNat]? with
      | none => rfl
      | some row => simp [List.getElem?_set_ne hj]
    · have hi' : i.toNat ≠ i'.toNat := by omega
      rw [List.getElem?_modify_ne _ _ hi']
  · rw [if_neg h', if_neg h']

/-- Writing leaves the shape alone. -/
theorem read_write_isSome (h : read g i j = some y) :
    (read (write g i j x) i' j').isSome = (read g i' j').isSome := by
  by_cases hij : i' = i ∧ j' = j
  · obtain ⟨rfl, rfl⟩ := hij
    rw [read_write_self h, h]
    rfl
  · rw [read_write_of_ne h hij]

end Grid
