import Mathlib.Data.List.Basic
import Mathlib.Logic.Function.Basic

/-! The filters of one `kqueue`, as documented: a filter is added for a descriptor, and goes when
the descriptor is closed. -/
namespace Kqueue

/-- The open descriptors of the process and the filters of the queue. `K` names the filters. -/
structure Kernel (K : Type) where
  isOpen : ℕ → Bool
  knote : ℕ → K → Bool
  live : ∀ fd x, knote fd x = true → isOpen fd = true

/-- `EV_ADD` and `EV_DELETE`. -/
inductive Flag
  | add
  | delete
  deriving DecidableEq, Repr

/-- `other` stands for the reasons not to take a new filter: no memory, or a descriptor that it
does not apply to. -/
inductive Errno
  | ebadf
  | enoent
  | other
  deriving DecidableEq, Repr

namespace Kernel

variable {K : Type} [DecidableEq K]

def put (k : Kernel K) (fd : ℕ) (hopen : k.isOpen fd = true) (x : K) (b : Bool) : Kernel K where
  isOpen := k.isOpen
  knote fd' y := if fd' = fd ∧ y = x then b else k.knote fd' y
  live fd' y h := by
    split at h
    · next hfd => rw [hfd.1, hopen]
    · exact k.live fd' y h

/-- `kevent` with one change. Only a new filter may be `refused`. -/
def kevent (k : Kernel K) (refused : Bool) (fd : ℕ) (x : K) (f : Flag) : Except Errno (Kernel K) :=
  if h : k.isOpen fd = true then
    match f, k.knote fd x with
    | .add, false => if refused then .error .other else .ok (k.put fd h x true)
    | .add, true => .ok (k.put fd h x true)
    | .delete, true => .ok (k.put fd h x false)
    | .delete, false => .error .enoent
  else .error .ebadf

/-- `close`. -/
def close (k : Kernel K) (fd : ℕ) : Kernel K where
  isOpen := Function.update k.isOpen fd false
  knote fd' x := if fd' = fd then false else k.knote fd' x
  live fd' x h := by
    split at h
    · cases h
    · next hne =>
      rw [Function.update_of_ne hne]
      exact k.live fd' x h

/-- A descriptor that is returned by `open`, `socket`, `accept` or `dup`. -/
def install (k : Kernel K) (fd : ℕ) : Kernel K where
  isOpen := Function.update k.isOpen fd true
  knote := k.knote
  live fd' x h := by
    by_cases hf : fd' = fd
    · simp [hf]
    · rw [Function.update_of_ne hf]
      exact k.live fd' x h

/-- `kqueue`. -/
def create (k : Kernel K) : Kernel K :=
  ⟨k.isOpen, fun _ _ => false, fun _ _ h => absurd h Bool.false_ne_true⟩

variable {k : Kernel K} {fd : ℕ} {x : K} {refused : Bool}

omit [DecidableEq K] in
theorem not_knote (h : k.isOpen fd = false) : k.knote fd x = false := by
  by_contra hn
  simp [k.live fd x (by simpa using hn)] at h

theorem kevent_closed {f : Flag} (h : k.isOpen fd = false) :
    k.kevent refused fd x f = .error .ebadf := by
  simp [kevent, h]

theorem kevent_add (h : k.isOpen fd = true) : k.kevent refused fd x .add =
    if k.knote fd x = false ∧ refused = true then .error .other
    else .ok (k.put fd h x true) := by
  cases hx : k.knote fd x <;> simp [kevent, h, hx]

theorem kevent_delete (h : k.isOpen fd = true) : k.kevent refused fd x .delete =
    if k.knote fd x = true then .ok (k.put fd h x false) else .error .enoent := by
  cases hx : k.knote fd x <;> simp [kevent, h, hx]

omit [DecidableEq K] in
@[simp] theorem create_knote : k.create.knote fd x = false := rfl

end Kernel
end Kqueue
