import CxxFiber.Scheduler.Model
import Mathlib.Data.Int.Notation
import Mathlib.Data.List.FinRange

/-! `join(int)`: the calling thread, its pool and their loops, around the fibers they run. -/
namespace CxxFiber.Join

open Scheduler (Agent)

/-- A fiber is counted by its scheduling call until the TERMINATED case of a worker's loop. -/
inductive Life
  | fresh | live | retired
  deriving DecidableEq, Repr

/-- A worker's place in `joinWithThreadBind`. `counted` has read the counter; `empty` has found no
fiber and a positive count, `hanging` has set `hungIoWaiter`, `blocked` is in the multiplexer and
`events` runs the callbacks of what it returned; `busy` has a fiber, `retiring` has deleted its
own; `clean` has the listed workers still to signal, `check` is before the last test. A pool thread
is `done` when `Worker::run` has returned. -/
inductive Stage (n : ℕ) (F : Type)
  | off
  | loop
  | counted (total : ℤ)
  | empty
  | hanging
  | blocked
  | events (readable : Bool)
  | busy
  | retiring (f : F)
  | clean (rest : List (Fin (n + 1)))
  | check
  | left (threw : Bool)
  | done (threw : Bool)
  deriving DecidableEq, Repr

/-- Where a scheduling call stands. -/
inductive CallPc (n : ℕ) (F : Type)
  | idle
  | counted (f : F)
  | added (w : Fin (n + 1))
  | signalling (w : Fin (n + 1))
  deriving DecidableEq, Repr

/-- Where the caller of `join` stands; `starting i` and `joining i` count the pool threads. -/
inductive CallerPc
  | before
  | dispatching
  | starting (i : ℕ)
  | working
  | joining (i : ℕ)
  | returned
  | threw
  deriving DecidableEq, Repr

variable {n : ℕ} {F B T : Type}

/-- `n + 1` workers: the caller is worker 0, the others are the pool. With one worker the default
queue is the worker's own, and moving it over changes nothing. `pipe w` counts the unread bytes of
the io waiter of `w`. -/
structure State (n : ℕ) (F B T : Type) where
  sched : Scheduler.State F (Fin (n + 1)) B T
  totalFiberCounter : ℤ
  defaultTaskQueue : List F
  life : F → Life
  stage : Fin (n + 1) → Stage n F
  hungIoWaiter : Fin (n + 1) → Bool
  pipe : Fin (n + 1) → ℕ
  call : Agent F (Fin (n + 1)) T → CallPc n F
  interrupted : Bool
  hasError : Bool
  caller : CallerPc

def initial (capacity limit : B → ℕ) : State n F B T where
  sched := Scheduler.initial capacity limit
  totalFiberCounter := 0
  defaultTaskQueue := []
  life _ := .fresh
  stage _ := .off
  hungIoWaiter _ := false
  pipe _ := 0
  call _ := .idle
  interrupted := false
  hasError := false
  caller := .before

/-- `sched` is a step of a fiber, an outside thread or the switch of a worker's loop. -/
inductive Act (n : ℕ) (F B T : Type)
  | schedule (f : F)
  | callJoin
  | dispatch
  | start
  | interrupt
  | signal (w : Fin (n + 1))
  | interrupted (w : Fin (n + 1))
  | count (w : Fin (n + 1))
  | poll (w : Fin (n + 1))
  | setHung (w : Fin (n + 1))
  | block (w : Fin (n + 1))
  | wake (w : Fin (n + 1))
  | drain (w : Fin (n + 1))
  | clearHung (w : Fin (n + 1))
  | sched (act : Scheduler.Act F (Fin (n + 1)) B T)
  | retire (w : Fin (n + 1))
  | clean (w : Fin (n + 1))
  | leave (w : Fin (n + 1))
  | raise (w : Fin (n + 1))
  | caught (w : Fin (n + 1))
  | countCall (a : Agent F (Fin (n + 1)) T) (f : F)
  | addCall (a : Agent F (Fin (n + 1)) T)
  | readHung (a : Agent F (Fin (n + 1)) T)
  | signalCall (a : Agent F (Fin (n + 1)) T)
  | joinPool
  deriving DecidableEq, Repr

/-- The party that makes a step. -/
def party {W : Type} : Scheduler.Act F W B T → Agent F W T
  | .schedule _ w | .poll w | .pollEmpty w | .endIdle w | .timer w _ | .fileEvent w _
  | .dispatch w | .switch w | .swapOut w | .requeue w => .worker w
  | .yield f | .finish f | .tryWait f _ | .check f _ _ | .block f | .waitReturn f _
  | .timedOut f _ | .remove f _ | .sleep f | .sleepReturn f | .pollEvents f | .pollReturn f =>
    .fiber f
  | .threadTryWait t _ => .thread t
  | .wakeUp a _ | .swapIn a | .write a | .add a => a

/-- The steps of the loop that have a constructor of their own here. -/
def OfLoop {W : Type} : Scheduler.Act F W B T → Prop
  | .schedule _ _ | .poll _ | .pollEmpty _ | .endIdle _ => True
  | _ => False

/-- Running callbacks, or a fiber. -/
def Awake : Stage n F → Prop
  | .events _ | .busy => True
  | _ => False

/-- From which an exception leaves `joinWithThreadBind`. -/
def InLoop : Stage n F → Prop
  | .off | .left _ | .done _ => False
  | _ => True

variable [DecidableEq F] [DecidableEq B] [DecidableEq T]

namespace State

@[simp] def setStage (s : State n F B T) (w : Fin (n + 1)) (c : Stage n F) : State n F B T :=
  { s with stage := Function.update s.stage w c }

@[simp] def setHung (s : State n F B T) (w : Fin (n + 1)) (h : Bool) : State n F B T :=
  { s with hungIoWaiter := Function.update s.hungIoWaiter w h }

@[simp] def setPipe (s : State n F B T) (w : Fin (n + 1)) (m : ℕ) : State n F B T :=
  { s with pipe := Function.update s.pipe w m }

@[simp] def setCall (s : State n F B T) (a : Agent F (Fin (n + 1)) T) (c : CallPc n F) :
    State n F B T := { s with call := Function.update s.call a c }

/-- `totalFiberCounter++`, at the head of `scheduleIgnoreBalance`. -/
@[simp] def count (s : State n F B T) (f : F) : State n F B T :=
  { s with
    totalFiberCounter := s.totalFiberCounter + 1, life := Function.update s.life f .live }

/-- The TERMINATED case. -/
@[simp] def retire (s : State n F B T) (f : F) : State n F B T :=
  { s with
    totalFiberCounter := s.totalFiberCounter - 1, life := Function.update s.life f .retired }

/-- A party that is not inside a scheduling call, and a worker that is awake. -/
def MayStep (s : State n F B T) : Agent F (Fin (n + 1)) T → Prop
  | .worker w => Awake (s.stage w)
  | a => s.call a = .idle

/-- A running fiber or an outside thread can enter `schedule`. -/
def MaySchedule (s : State n F B T) : Agent F (Fin (n + 1)) T → Prop
  | .worker _ => False
  | .fiber f => (∃ w, s.sched.Active w f) ∧ (s.sched.fiber f).pc = .user
  | .thread t => s.sched.resume (.thread t) = none

end State

/-- The other workers of the group. -/
def others (w : Fin (n + 1)) : List (Fin (n + 1)) := (List.finRange (n + 1)).filter (· ≠ w)

/-- The worker is back at the head of its loop, still has its fiber, or has to retire it. -/
def settled (s u : Scheduler.State F (Fin (n + 1)) B T) (w : Fin (n + 1)) : Stage n F :=
  match u.worker w, s.worker w with
  | .head, .switching f => if (s.fiber f).state = .terminated then .retiring f else .loop
  | .head, _ => .loop
  | _, _ => .busy

/-- The stages after a step of the scheduler. -/
def stageAfter (s : State n F B T) (u : Scheduler.State F (Fin (n + 1)) B T) :
    Scheduler.Act F (Fin (n + 1)) B T → Fin (n + 1) → Stage n F
  | .switch w | .swapOut w | .requeue w => Function.update s.stage w (settled s.sched u w)
  | _ => s.stage

open State in
inductive Step (s : State n F B T) : Act n F B T → State n F B T → Prop
  -- the caller, up to its own loop
  | schedule {f} : s.caller = .before → s.life f = .fresh → Step s (.schedule f)
      { s.count f with defaultTaskQueue := s.defaultTaskQueue ++ [f] }
  | callJoin : s.caller = .before →
      Step s .callJoin { s with caller := .dispatching, hasError := false }
  | dispatch {f q w u} : s.caller = .dispatching → s.defaultTaskQueue = f :: q →
      Scheduler.Step s.sched (.schedule f w) u →
      Step s .dispatch { s with sched := u, defaultTaskQueue := q }
  | dispatched : s.caller = .dispatching → s.defaultTaskQueue = [] →
      Step s .dispatch { s with caller := .starting 0 }
  | start {i} (hi : i < n) : s.caller = .starting i →
      Step s .start { s.setStage (Fin.succ ⟨i, hi⟩) .loop with caller := .starting (i + 1) }
  | started : s.caller = .starting n → Step s .start { s.setStage 0 .loop with caller := .working }
  -- `interrupt` signals every io waiter, `swapIn` on another thread the one of its fiber
  | interrupt : Step s .interrupt { s with interrupted := true }
  | signal {w} : Step s (.signal w) (s.setPipe w (s.pipe w + 1))
  -- the loop
  | interrupted {w} : s.stage w = .loop → s.interrupted = true →
      Step s (.interrupted w) (s.setStage w (.clean (others w)))
  | count {w} : s.stage w = .loop → s.interrupted = false →
      Step s (.count w) (s.setStage w (.counted s.totalFiberCounter))
  | poll {w m u} : s.stage w = .counted m → Scheduler.Step s.sched (.poll w) u →
      Step s (.poll w) { s.setStage w .busy with sched := u }
  | pollEmpty {w m u} : s.stage w = .counted m → 0 < m → Scheduler.Step s.sched (.pollEmpty w) u →
      Step s (.poll w) { s.setStage w .empty with sched := u }
  | pollDone {w m} : s.stage w = .counted m → m ≤ 0 → s.sched.taskQueue w = [] →
      Step s (.poll w) (s.setStage w (.clean (others w)))
  | setHung {w} : s.stage w = .empty →
      Step s (.setHung w) ((s.setHung w true).setStage w .hanging)
  | block {w} : s.stage w = .hanging → Step s (.block w) (s.setStage w .blocked)
  -- by an event, a timer or the timeout; the pipe is reported if it has a byte
  | wake {w} : s.stage w = .blocked →
      Step s (.wake w) (s.setStage w (.events (decide (0 < s.pipe w))))
  -- `pipeEventProc` reads into a buffer of 32 bytes
  | drain {w} : s.stage w = .events true →
      Step s (.drain w) ((s.setPipe w (s.pipe w - 32)).setStage w (.events false))
  | drainBusy {w f} : s.stage w = .busy → s.sched.worker w = .polled f → 0 < s.pipe w →
      Step s (.drain w) (s.setPipe w (s.pipe w - 32))
  | clearHung {w u} : s.stage w = .events false → Scheduler.Step s.sched (.endIdle w) u →
      Step s (.clearHung w) { (s.setHung w false).setStage w .loop with sched := u }
  | sched {a u} : ¬ OfLoop a → s.MayStep (party a) → Scheduler.Step s.sched a u →
      Step s (.sched a) { s with sched := u, stage := stageAfter s u a }
  | retire {w f} : s.stage w = .retiring f → Step s (.retire w) ((s.retire f).setStage w .loop)
  | cleanSignal {w v r} : s.stage w = .clean (v :: r) →
      Step s (.clean w) ((s.setPipe v (s.pipe v + 1)).setStage w (.clean r))
  | cleaned {w} : s.stage w = .clean [] → Step s (.clean w) (s.setStage w .check)
  | leave {w} : s.stage w = .check → Step s (.leave w) (s.setStage w (.left s.interrupted))
  | raise {w} : InLoop (s.stage w) → (∀ f, s.sched.worker w ≠ .running f) →
      Step s (.raise w) (s.setStage w (.left true))
  | caught {w b} : w ≠ 0 → s.stage w = .left b →
      Step s (.caught w) { s.setStage w (.done b) with hasError := s.hasError || b }
  -- `scheduleIgnoreBalance` once the stubs exist
  | countCall {a f} : s.caller ≠ .before → s.MaySchedule a → s.call a = .idle →
      s.life f = .fresh → Step s (.countCall a f) ((s.count f).setCall a (.counted f))
  | addCall {a f w u} : s.call a = .counted f → Scheduler.Step s.sched (.schedule f w) u →
      Step s (.addCall a) { s.setCall a (.added w) with sched := u }
  | readHung {a w} : s.call a = .added w → s.hungIoWaiter w = true →
      Step s (.readHung a) (s.setCall a (.signalling w))
  | readNull {a w} : s.call a = .added w → s.hungIoWaiter w = false →
      Step s (.readHung a) (s.setCall a .idle)
  | signalCall {a w} : s.call a = .signalling w →
      Step s (.signalCall a) ((s.setPipe w (s.pipe w + 1)).setCall a .idle)
  -- the caller, after its own loop
  | work {b} : s.caller = .working → s.stage 0 = .left b →
      Step s .joinPool { s with caller := if b then .threw else .joining 0 }
  | joinPool {i b} (hi : i < n) : s.caller = .joining i → s.stage (Fin.succ ⟨i, hi⟩) = .done b →
      Step s .joinPool { s with caller := .joining (i + 1) }
  | joined : s.caller = .joining n →
      Step s .joinPool { s with caller := if s.hasError then .threw else .returned }

end CxxFiber.Join
