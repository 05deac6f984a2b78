import CxxFiber.EFiber
import CxxFiber.EFiberBlocker
import CxxFiber.Library.Runs
import Mathlib.Logic.Function.Basic

/-! Worker loops, fibers, blockers and outside threads, one lock-protected section or one stretch
between two of them at a time. -/
namespace CxxFiber.Scheduler

/-- A worker's place in the loop of `join` and `joinWithThreadBind`. -/
inductive WorkerPc (F B : Type)
  | head
  | idle
  | polled (f : F)
  | running (f : F)
  | switching (f : F)
  | swapOut (f : F) (b : B)
  | requeue (f : F)
  deriving DecidableEq, Repr

/-- Those who may be in the middle of a `swapIn`: a worker in a callback of its event loop, a
fiber or an outside thread in `wakeUp`. -/
inductive Agent (F W T : Type)
  | worker (w : W)
  | fiber (f : F)
  | thread (t : T)
  deriving DecidableEq, Repr

/-- `owed g n`: `g` was dequeued during its `n`-th suspension, its `swapIn` has not begun.
`tested g`: `swapIn` has found `g` suspended, its writes are outstanding. `adding g`: it has made
`g` runnable, `boundQueue->add` is outstanding. -/
inductive Resume (F : Type)
  | owed (g : F) (n : ℕ)
  | tested (g : F)
  | adding (g : F)
  deriving DecidableEq, Repr

variable {F W B T : Type}

/-- The fiber that a `swapIn` has found suspended and not yet queued. -/
def Resume.fiber? : Resume F → Option F
  | .owed _ _ => none
  | .tested f | .adding f => some f

/-- The fiber a worker has polled and not yet re-queued, parked or retired. -/
def WorkerPc.fiber? : WorkerPc F B → Option F
  | .head | .idle => none
  | .polled f | .running f | .switching f | .swapOut f _ | .requeue f => some f

/-- `held f b` is history: a wait of `f` on `b` has returned successfully, and `f` has not
called `wakeUp` on `b` since. -/
structure State (F W B T : Type) where
  fiber : F → EFiber B W
  blocker : B → EFiberBlocker F
  taskQueue : W → List F
  worker : W → WorkerPc F B
  resume : Agent F W T → Option (Resume F)
  held : F → B → Bool

def initial (capacity limit : B → ℕ) : State F W B T where
  fiber _ := .create
  blocker b := .create (capacity b) (limit b)
  taskQueue _ := []
  worker _ := .head
  resume _ := none
  held _ _ := false

namespace State

variable [DecidableEq F] [DecidableEq W] [DecidableEq B] [DecidableEq T]

@[simp] def modFiber (s : State F W B T) (f : F) (u : EFiber B W → EFiber B W) :
    State F W B T := { s with fiber := Function.update s.fiber f (u (s.fiber f)) }

@[simp] def setBlocker (s : State F W B T) (b : B) (c : EFiberBlocker F) : State F W B T :=
  { s with blocker := Function.update s.blocker b c }

@[simp] def setQueue (s : State F W B T) (w : W) (q : List F) : State F W B T :=
  { s with taskQueue := Function.update s.taskQueue w q }

@[simp] def setWorker (s : State F W B T) (w : W) (p : WorkerPc F B) : State F W B T :=
  { s with worker := Function.update s.worker w p }

@[simp] def setResume (s : State F W B T) (a : Agent F W T) (r : Option (Resume F)) :
    State F W B T := { s with resume := Function.update s.resume a r }

@[simp] def setHeld (s : State F W B T) (f : F) (b : B) (h : Bool) : State F W B T :=
  { s with held := Function.update s.held f (Function.update (s.held f) b h) }

/-- `EFiberConcurrentQueue::add`. -/
@[simp] def add (s : State F W B T) (w : W) (f : F) : State F W B T :=
  s.setQueue w (s.taskQueue w ++ [f])

/-- The test of `EFiber::swapIn` of `g`, run by `a`. Nothing locks the state of `g`. -/
def swapIn (s : State F W B T) (a : Agent F W T) (g : F) : State F W B T :=
  if (s.fiber g).suspended then s.setResume a (some (.tested g)) else s.setResume a none

/-- A fiber that calls `wakeUp` gives up what it held. -/
def release (s : State F W B T) (b : B) : Agent F W T → State F W B T
  | .fiber f => s.setHeld f b false
  | _ => s

/-- `f` runs on `w` and is not in the middle of a `wakeUp`. -/
def Active (s : State F W B T) (w : W) (f : F) : Prop :=
  s.worker w = .running f ∧ s.resume (.fiber f) = none

/-- `w` is inside `onceProcessEvents`, between two callbacks. -/
def InEvents (s : State F W B T) (w : W) : Prop :=
  (s.worker w = .idle ∨ ∃ g, s.worker w = .polled g) ∧ s.resume (.worker w) = none

/-- `a` can enter `wakeUp`. -/
def MayCall (s : State F W B T) : Agent F W T → Prop
  | .worker _ => False
  | .fiber f => (∃ w, s.Active w f) ∧ (s.fiber f).pc = .user
  | .thread t => s.resume (.thread t) = none

end State

/-- Step labels. -/
inductive Act (F W B T : Type)
  | schedule (f : F) (w : W)
  | poll (w : W)
  | pollEmpty (w : W)
  | endIdle (w : W)
  | timer (w : W) (f : F)
  | fileEvent (w : W) (f : F)
  | dispatch (w : W)
  | yield (f : F)
  | finish (f : F)
  | tryWait (f : F) (b : B)
  | threadTryWait (t : T) (b : B)
  | check (f : F) (b : B) (k : WaitKind)
  | block (f : F)
  | waitReturn (f : F) (b : B)
  | timedOut (f : F) (b : B)
  | remove (f : F) (b : B)
  | sleep (f : F)
  | sleepReturn (f : F)
  | pollEvents (f : F)
  | pollReturn (f : F)
  | switch (w : W)
  | swapOut (w : W)
  | requeue (w : W)
  | wakeUp (a : Agent F W T) (b : B)
  | swapIn (a : Agent F W T)
  | write (a : Agent F W T)
  | add (a : Agent F W T)
  deriving DecidableEq, Repr

section

variable [DecidableEq F] [DecidableEq W] [DecidableEq T] {s : State F W B T}
  {a x : Agent F W T} {g : F}

/-- The test of `swapIn` changes nothing but what its caller is about to do. -/
theorem swapIn_eq : s.swapIn a g =
    s.setResume a (if (s.fiber g).suspended then some (.tested g) else none) := by
  unfold State.swapIn
  split <;> rfl

@[simp] theorem swapIn_fiber : (s.swapIn a g).fiber = s.fiber := by
  rw [swapIn_eq]
  rfl

@[simp] theorem swapIn_blocker : (s.swapIn a g).blocker = s.blocker := by
  rw [swapIn_eq]
  rfl

@[simp] theorem swapIn_taskQueue : (s.swapIn a g).taskQueue = s.taskQueue := by
  rw [swapIn_eq]
  rfl

@[simp] theorem swapIn_worker : (s.swapIn a g).worker = s.worker := by
  rw [swapIn_eq]
  rfl

@[simp] theorem swapIn_held : (s.swapIn a g).held = s.held := by
  rw [swapIn_eq]
  rfl

/-- What `a` leaves of the outstanding `swapIn` of another. -/
theorem swapIn_resume (hx : x ≠ a) : (s.swapIn a g).resume x = s.resume x := by
  rw [swapIn_eq]
  exact Function.update_of_ne hx ..

theorem swapIn_resume_self :
    (s.swapIn a g).resume a = if (s.fiber g).suspended then some (.tested g) else none := by
  rw [swapIn_eq]
  exact Function.update_self ..

end

variable [DecidableEq F] [DecidableEq W] [DecidableEq B] [DecidableEq T]

open State in
inductive Step (s : State F W B T) : Act F W B T → State F W B T → Prop
  -- the worker loop, up to the context switch
  | schedule {f w} : (s.fiber f).state = .new →
      Step s (.schedule f w) ((s.modFiber f .schedule).add w f)
  | poll {w f q} : s.worker w = .head → s.taskQueue w = f :: q →
      Step s (.poll w) ((s.setQueue w q).setWorker w (.polled f))
  | pollEmpty {w} : s.worker w = .head → s.taskQueue w = [] →
      Step s (.pollEmpty w) (s.setWorker w .idle)
  | endIdle {w} : s.worker w = .idle → s.resume (.worker w) = none →
      Step s (.endIdle w) (s.setWorker w .head)
  | timer {w f} : s.InEvents w → (s.fiber f).timer = some w →
      Step s (.timer w f) ((s.modFiber f .timeEvent).swapIn (.worker w) f)
  | fileEvent {w f} : s.InEvents w → (s.fiber f).events = some w →
      Step s (.fileEvent w f) (s.swapIn (.worker w) f)
  | dispatch {w f} : s.worker w = .polled f → s.resume (.worker w) = none →
      Step s (.dispatch w) ((s.modFiber f (.bind w)).setWorker w (.running f))
  -- the running fiber
  | yield {w f} : s.Active w f → (s.fiber f).pc = .user →
      Step s (.yield f) (s.setWorker w (.switching f))
  | finish {w f} : s.Active w f → (s.fiber f).pc = .user →
      Step s (.finish f) ((s.modFiber f .terminate).setWorker w (.switching f))
  | tryWait {w f b c} : s.Active w f → (s.fiber f).pc = .user →
      (s.blocker b).tryWait = (c, true) →
      Step s (.tryWait f b) ((s.setBlocker b c).setHeld f b true)
  | tryWaitFail {w f b c} : s.Active w f → (s.fiber f).pc = .user →
      (s.blocker b).tryWait = (c, false) →
      Step s (.tryWait f b) (s.setBlocker b c)
  | check {w f b c k} : s.Active w f → (s.fiber f).pc = .user →
      (s.blocker b).tryWait = (c, false) →
      Step s (.check f b k) ((s.setBlocker b c).modFiber f (.setPc (.checked b k)))
  | block {w f b k} : s.Active w f → (s.fiber f).pc = .checked b k →
      Step s (.block f) ((s.modFiber f (.block w b k)).setWorker w (.switching f))
  | waitReturn {w f b} : s.Active w f →
      (s.fiber f).pc = .parked b .wait ∨ (s.fiber f).pc = .granted b .wait →
      Step s (.waitReturn f b) ((s.modFiber f (.setPc .user)).setHeld f b true)
  | tryWaitReturn {w f b timer} : s.Active w f →
      (s.fiber f).pc = .parked b (.tryWait timer) ∨
        (s.fiber f).pc = .granted b (.tryWait timer) →
      (s.fiber f).isIoWaitTimeout = false →
      Step s (.waitReturn f b)
        ((s.modFiber f fun r => (r.cancelTimer.isWaitTimeout).setPc .user).setHeld f b true)
  | timedOut {w f b timer} : s.Active w f →
      (s.fiber f).pc = .parked b (.tryWait timer) ∨
        (s.fiber f).pc = .granted b (.tryWait timer) →
      (s.fiber f).isIoWaitTimeout = true →
      Step s (.timedOut f b)
        (s.modFiber f fun r => (r.cancelTimer.isWaitTimeout).setPc (.removing b))
  | removeTrue {w f b c} : s.Active w f → (s.fiber f).pc = .removing b →
      (s.blocker b).remove f = (c, true) →
      Step s (.remove f b) ((s.setBlocker b c).modFiber f (.setPc .user))
  | removeFalse {w f b c} : s.Active w f → (s.fiber f).pc = .removing b →
      (s.blocker b).remove f = (c, false) →
      Step s (.remove f b) (((s.setBlocker b c).modFiber f (.setPc .user)).setHeld f b true)
  | sleep {w f} : s.Active w f → (s.fiber f).pc = .user →
      Step s (.sleep f) ((s.modFiber f (.sleep w)).setWorker w (.switching f))
  | sleepReturn {w f} : s.Active w f → (s.fiber f).pc = .sleeping →
      Step s (.sleepReturn f) (s.modFiber f fun r => r.cancelTimer.setPc .user)
  | pollEvents {w f timer reads} : s.Active w f → (s.fiber f).pc = .user →
      Step s (.pollEvents f) ((s.modFiber f (.pollEvents w timer reads)).setWorker w (.switching f))
  | pollReturn {w f reads} : s.Active w f → (s.fiber f).pc = .polling reads →
      Step s (.pollReturn f) (s.modFiber f (.pollDone reads))
  -- the state switch of the worker loop
  | switchRunnable {w f} : s.worker w = .switching f → (s.fiber f).state = .runnable →
      Step s (.switch w) (s.setWorker w (.requeue f))
  | switchBlocked {w f b} : s.worker w = .switching f → (s.fiber f).state = .blocked →
      (s.fiber f).blocker = some b →
      Step s (.switch w) (s.setWorker w (.swapOut f b))
  | switchOther {w f} : s.worker w = .switching f → (s.fiber f).state ≠ .runnable →
      (s.fiber f).state ≠ .blocked →
      Step s (.switch w) (s.setWorker w .head)
  | swapOutPermit {w f b c} : s.worker w = .swapOut f b → (s.blocker b).swapOut f = (c, false) →
      Step s (.swapOut w)
        (((s.setBlocker b c).modFiber f .grant).setWorker w (.requeue f))
  | swapOutHung {w f b c} : s.worker w = .swapOut f b → (s.blocker b).swapOut f = (c, true) →
      Step s (.swapOut w) ((s.setBlocker b c).setWorker w .head)
  | requeue {w f} : s.worker w = .requeue f →
      Step s (.requeue w) ((s.add w f).setWorker w .head)
  -- wakeUp: the locked section, then swapIn of the dequeued fiber: its test, its writes, its add
  | wakeUpRefused {a b c} : s.MayCall a → (s.blocker b).wakeUp = (c, .refused) →
      Step s (.wakeUp a b) ((s.setBlocker b c).release b a)
  | wakeUpCounted {a b c} : s.MayCall a → (s.blocker b).wakeUp = (c, .counted) →
      Step s (.wakeUp a b) ((s.setBlocker b c).release b a)
  | wakeUpWaiter {a b c g} : s.MayCall a → (s.blocker b).wakeUp = (c, .waiter g) →
      Step s (.wakeUp a b) (((s.setBlocker b c).release b a).setResume a
        (some (.owed g (s.fiber g).suspensions)))
  | swapIn {a g n} : s.resume a = some (.owed g n) → Step s (.swapIn a) (s.swapIn a g)
  | write {a g} : s.resume a = some (.tested g) →
      Step s (.write a) ((s.modFiber g EFiber.swapIn).setResume a (some (.adding g)))
  | add {a g v} : s.resume a = some (.adding g) → (s.fiber g).boundQueue = some v →
      Step s (.add a) ((s.add v g).setResume a none)
  | threadTryWait {t b c} : s.resume (.thread t) = none → (s.blocker b).tryWait = (c, true) →
      Step s (.threadTryWait t b) (s.setBlocker b c)

end CxxFiber.Scheduler
