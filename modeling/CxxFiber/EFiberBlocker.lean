import Mathlib.Data.List.Basic

/-! The lock-protected sections of `EFiberBlocker`, over any type of queue entries. -/
namespace CxxFiber

/-- The fields guarded by `sync_`; `waitQueue` holds the waiters in arrival order. -/
structure EFiberBlocker (E : Type) where
  wakeup : ℕ
  limit : ℕ
  waitQueue : List E
  deriving DecidableEq, Repr

/-- What the locked section of `wakeUp` found. -/
inductive Woken (E : Type)
  | refused
  | counted
  | waiter (e : E)
  deriving DecidableEq, Repr

namespace EFiberBlocker

variable {E : Type} {b c : EFiberBlocker E} {e : E}

/-- The default `limit = -1` of the constructor, an unsigned int. -/
def noLimit : ℕ := 4294967295

def create (capacity limit : ℕ) : EFiberBlocker E := ⟨capacity, limit, []⟩

/-- The locked section of `tryWait()`, and the first check of `wait` and `tryWait(time)`. -/
def tryWait (b : EFiberBlocker E) : EFiberBlocker E × Bool :=
  if 0 < b.wakeup then ({ b with wakeup := b.wakeup - 1 }, true) else (b, false)

/-- `swapOut` returns true when the fiber is hung in the queue, false when a permit was found. -/
def swapOut (b : EFiberBlocker E) (e : E) : EFiberBlocker E × Bool :=
  if 0 < b.wakeup then ({ b with wakeup := b.wakeup - 1 }, false)
  else ({ b with waitQueue := b.waitQueue ++ [e] }, true)

/-- The locked section of `wakeUp`: a queued waiter is dequeued, else a permit is counted. -/
def wakeUp (b : EFiberBlocker E) : EFiberBlocker E × Woken E :=
  match b.waitQueue with
  | [] =>
    if b.limit ≤ b.wakeup then (b, .refused) else ({ b with wakeup := b.wakeup + 1 }, .counted)
  | e :: q => ({ b with waitQueue := q }, .waiter e)

/-- `waitQueue.remove`, which reports whether the entry was still there. -/
def remove [DecidableEq E] (b : EFiberBlocker E) (e : E) : EFiberBlocker E × Bool :=
  ({ b with waitQueue := b.waitQueue.erase e }, decide (e ∈ b.waitQueue))

@[simp] theorem create_wakeup (m n : ℕ) : (create m n : EFiberBlocker E).wakeup = m := rfl

@[simp] theorem create_limit (m n : ℕ) : (create m n : EFiberBlocker E).limit = n := rfl

@[simp] theorem create_waitQueue (m n : ℕ) : (create m n : EFiberBlocker E).waitQueue = [] := rfl

theorem tryWait_true : b.tryWait = (c, true) ↔
    0 < b.wakeup ∧ c = { b with wakeup := b.wakeup - 1 } := by
  unfold tryWait
  split <;> simp_all [eq_comm]

theorem tryWait_false : b.tryWait = (c, false) ↔ b.wakeup = 0 ∧ c = b := by
  unfold tryWait
  split <;> simp_all [eq_comm]
  omega

theorem swapOut_hung : b.swapOut e = (c, true) ↔
    b.wakeup = 0 ∧ c = { b with waitQueue := b.waitQueue ++ [e] } := by
  unfold swapOut
  split <;> simp_all [eq_comm]
  omega

theorem swapOut_permit : b.swapOut e = (c, false) ↔
    0 < b.wakeup ∧ c = { b with wakeup := b.wakeup - 1 } := by
  unfold swapOut
  split <;> simp_all [eq_comm]

theorem wakeUp_refused : b.wakeUp = (c, .refused) ↔
    b.waitQueue = [] ∧ b.limit ≤ b.wakeup ∧ c = b := by
  unfold wakeUp
  cases hq : b.waitQueue with
  | nil =>
    by_cases hl : b.limit ≤ b.wakeup
    · simp [hl, eq_comm]
    · simp [hl]
  | cons e q => simp

theorem wakeUp_counted : b.wakeUp = (c, .counted) ↔
    b.waitQueue = [] ∧ b.wakeup < b.limit ∧ c = { b with wakeup := b.wakeup + 1 } := by
  unfold wakeUp
  cases hq : b.waitQueue with
  | nil =>
    by_cases hl : b.limit ≤ b.wakeup
    · simp [hl, Nat.not_lt.mpr hl]
    · simp [hl, Nat.lt_of_not_le hl, eq_comm]
  | cons e q => simp

theorem wakeUp_waiter : b.wakeUp = (c, .waiter e) ↔
    ∃ q, b.waitQueue = e :: q ∧ c = { b with waitQueue := q } := by
  unfold wakeUp
  split
  · split <;> simp_all
  · simp_all
    grind

end EFiberBlocker

end CxxFiber
