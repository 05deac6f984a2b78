import Mathlib.Data.List.Basic

/-! The fields of `EFiber` that the scheduler, the blockers and the io waiter share. -/
namespace CxxFiber

/-- `EFiber::State`. -/
inductive FiberState
  | new | runnable | blocked | waiting | terminated
  deriving DecidableEq, Repr

/-- The blocking entry points of `EFiberBlocker`; `tryWait` records whether a timer is armed. -/
inductive WaitKind
  | wait
  | tryWait (timer : Bool)
  deriving DecidableEq, Repr

/-- Where a fiber's own code stands. A suspended fiber stands inside `EFiber::yield`.
`granted` is the same place as `parked`, once the scheduler's `swapOut` has found a permit. -/
inductive FiberPc (B : Type)
  | user
  | checked (b : B) (k : WaitKind)
  | parked (b : B) (k : WaitKind)
  | granted (b : B) (k : WaitKind)
  | removing (b : B)
  | sleeping
  | polling (reads : Bool)
  | done
  deriving DecidableEq, Repr

/-- `timer` and `events` name the worker whose io waiter holds the fiber's armed timer and its
registered descriptors. `suspensions` counts the writes of BLOCKED and WAITING. -/
structure EFiber (B W : Type) where
  state : FiberState
  blocker : Option B
  isIoWaitTimeout : Bool
  boundQueue : Option W
  timer : Option W
  events : Option W
  pc : FiberPc B
  suspensions : ℕ
  deriving DecidableEq, Repr

namespace EFiber

variable {B W : Type} {r : EFiber B W} {w : W} {b : B} {k : WaitKind}

/-- The constructor of `EFiber`. -/
def create : EFiber B W := ⟨.new, none, false, none, none, none, .user, 0⟩

def schedule (r : EFiber B W) : EFiber B W := { r with state := .runnable }

/-- The test at the head of `swapIn`. -/
def suspended (r : EFiber B W) : Bool := decide (r.state = .waiting ∨ r.state = .blocked)

/-- What `swapIn` writes before `boundQueue->add`. -/
def swapIn (r : EFiber B W) : EFiber B W := { r with blocker := none, state := .runnable }

/-- The worker's writes before the context switch: a fiber is bound to its first queue. -/
def bind (w : W) (r : EFiber B W) : EFiber B W :=
  { r with boundQueue := some (r.boundQueue.getD w) }

/-- `setupTimer`: the timeout flag is cleared and the timer joins the io waiter of `w`. -/
def setupTimer (w : W) (r : EFiber B W) : EFiber B W :=
  { r with isIoWaitTimeout := false, timer := some w }

def cancelTimer (r : EFiber B W) : EFiber B W := { r with timer := none }

/-- The first line of `timeEventProc`; the event is spent, the callback returns NOMORE. -/
def timeEvent (r : EFiber B W) : EFiber B W :=
  { r with isIoWaitTimeout := true, timer := none }

/-- `isWaitTimeout` clears the flag it returns. -/
def isWaitTimeout (r : EFiber B W) : EFiber B W := { r with isIoWaitTimeout := false }

def setPc (p : FiberPc B) (r : EFiber B W) : EFiber B W := { r with pc := p }

/-- `wait` and `tryWait(time)` after a failed first check, up to the yield. -/
def block (w : W) (b : B) (k : WaitKind) (r : EFiber B W) : EFiber B W :=
  let r := if k = .tryWait true then r.setupTimer w else r
  { r with
    blocker := some b, state := .blocked, pc := .parked b k, suspensions := r.suspensions + 1 }

/-- `EFiber::sleep` up to the yield. -/
def sleep (w : W) (r : EFiber B W) : EFiber B W :=
  { r.setupTimer w with state := .waiting, pc := .sleeping, suspensions := r.suspensions + 1 }

/-- A hook that registers descriptors and maybe a timer, up to the yield. -/
def pollEvents (w : W) (timer reads : Bool) (r : EFiber B W) : EFiber B W :=
  let r := if timer then r.setupTimer w else r
  { r with
    events := some w, state := .waiting, pc := .polling reads, suspensions := r.suspensions + 1 }

/-- The end of such a hook; `connect` does not read the timeout flag. -/
def pollDone (reads : Bool) (r : EFiber B W) : EFiber B W :=
  let r := if reads then r.isWaitTimeout else r
  { r.cancelTimer with events := none, pc := .user }

/-- `fiber_worker` after `run` has returned. -/
def terminate (r : EFiber B W) : EFiber B W := { r with state := .terminated, pc := .done }

/-- Records that `swapOut` found a permit for the wait the fiber is parked in. -/
def grant (r : EFiber B W) : EFiber B W :=
  match r.pc with
  | .parked b k => r.setPc (.granted b k)
  | _ => r

end EFiber

end CxxFiber
