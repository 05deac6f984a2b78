import Mathlib.Data.List.Basic
import Mathlib.Logic.Function.Basic

/-! File descriptors and the open file descriptions behind them: descriptors of one description
share its status. -/
namespace Descriptors

/-- `X` names the open file descriptions, `A` is their status. -/
structure Table (X A : Type) where
  file : ℕ → Option X
  status : X → A

namespace Table

variable {X A : Type} {t : Table X A} {fd fd' : ℕ} {x : X} {a b : A}

def read (t : Table X A) (fd : ℕ) : Option A := (t.file fd).map t.status

def close (t : Table X A) (fd : ℕ) : Table X A :=
  { t with file := Function.update t.file fd none }

/-- `new` becomes another descriptor of the description of `old`. -/
def dup (t : Table X A) (old new : ℕ) : Table X A :=
  { t with file := Function.update t.file new (t.file old) }

/-- No other descriptor has the description of `fd`. -/
def Alone (t : Table X A) (fd : ℕ) : Prop :=
  ∀ fd', fd' ≠ fd → t.file fd ≠ none → t.file fd' ≠ t.file fd

theorem read_eq_some : t.read fd = some a ↔ ∃ x, t.file fd = some x ∧ t.status x = a := by
  simp [read, Option.map_eq_some_iff]

theorem read_close_of_ne (h : fd' ≠ fd) : (t.close fd).read fd' = t.read fd' := by
  simp [read, close, h]

theorem read_dup_self {old new : ℕ} : (t.dup old new).read new = t.read old := by
  simp [read, dup]

theorem read_dup_of_ne {old new : ℕ} (h : fd ≠ new) : (t.dup old new).read fd = t.read fd := by
  simp [read, dup, h]

variable [DecidableEq X]

def write (t : Table X A) (fd : ℕ) (a : A) : Table X A :=
  match t.file fd with
  | some x => { t with status := Function.update t.status x a }
  | none => t

/-- `fd` becomes the first descriptor of the new description `x`. -/
def install (t : Table X A) (fd : ℕ) (x : X) (a : A) : Table X A where
  file := Function.update t.file fd (some x)
  status := Function.update t.status x a

@[simp] theorem file_write : (t.write fd a).file = t.file := by
  unfold write
  split <;> rfl

section

omit [DecidableEq X]

theorem read_of_file (h : t.file fd' = t.file fd) : t.read fd' = t.read fd := by simp [read, h]

end

/-- A write through one descriptor is seen through all others of the description and no more. -/
theorem read_write (h : t.read fd = some b) :
    (t.write fd a).read fd' = if t.file fd' = t.file fd then some a else t.read fd' := by
  obtain ⟨x, hx, _⟩ := read_eq_some.mp h
  unfold read
  rw [file_write]
  cases hf : t.file fd' with
  | none => simp [hx]
  | some y =>
    by_cases hy : y = x
    · simp [write, hx, hy]
    · simp [write, hx, hy]

theorem read_install_self : (t.install fd x a).read fd = some a := by simp [read, install]

theorem read_install_of_ne (hx : ∀ fd, t.file fd ≠ some x) (h : fd' ≠ fd) :
    (t.install fd x a).read fd' = t.read fd' := by
  cases hf : t.file fd' with
  | none => simp [read, install, h, hf]
  | some y =>
    have hy : y ≠ x := by
      rintro rfl
      exact hx fd' hf
    simp [read, install, h, hf, hy]

end Table

end Descriptors
