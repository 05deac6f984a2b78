import CxxFiber.Library.Runs
import Mathlib.Data.Int.Notation
import Mathlib.Logic.Function.Basic

/-! `scheduleIgnoreBalance` on other threads against the idle path of one `joinWithThreadBind`. -/
namespace CxxFiber.IdleWorker

open Transition

/-- The worker's place in its loop: `counted` has read the counter, `empty` has found no fiber and
a positive count, `hanging` has set `hungIoWaiter`, `blocked` is in the multiplexer and `events`
runs the callbacks of what it returned. -/
inductive WorkerPc (F : Type)
  | top
  | counted (total : ℤ)
  | empty
  | hanging
  | blocked
  | events (readable : Bool)
  | running (f : F)
  | left
  deriving DecidableEq, Repr

/-- Where a scheduling call stands: the fiber is counted, then added, then `hungIoWaiter` has been
read and was not null. -/
inductive CallPc (F : Type)
  | idle
  | counted (f : F)
  | added (f : F)
  | signalling
  deriving DecidableEq, Repr

variable {F P : Type}

/-- One stub, its worker, and the scheduling calls that have picked it. `pipe` counts the unread
bytes of its io waiter. -/
structure State (F P : Type) where
  totalFiberCounter : ℤ
  taskQueue : List F
  hungIoWaiter : Bool
  pipe : ℕ
  worker : WorkerPc F
  call : P → CallPc F

def initial (total : ℤ) (queue : List F) : State F P where
  totalFiberCounter := total
  taskQueue := queue
  hungIoWaiter := false
  pipe := 0
  worker := .top
  call _ := .idle

inductive Act (F P : Type)
  | interrupted
  | count
  | poll
  | setHung
  | enter
  | wake
  | drain
  | resume (f : F)
  | clearHung
  | scheduleLocal (f : F)
  | requeue
  | park
  | retire
  | elsewhere
  | schedule (p : P) (f : F)
  | add (p : P)
  | readHung (p : P)
  | signal (p : P)
  deriving DecidableEq, Repr

/-- Callbacks run in `onceProcessEvents`, idle or busy. -/
def InEvents : WorkerPc F → Prop
  | .events _ | .running _ => True
  | _ => False

variable [DecidableEq P]

namespace State

@[simp] def setCall (s : State F P) (p : P) (c : CallPc F) : State F P :=
  { s with call := Function.update s.call p c }

@[simp] def setWorker (s : State F P) (c : WorkerPc F) : State F P := { s with worker := c }

@[simp] def add (s : State F P) (f : F) : State F P := { s with taskQueue := s.taskQueue ++ [f] }

end State

inductive Step (s : State F P) : Act F P → State F P → Prop
  | interrupted : s.worker = .top → Step s .interrupted (s.setWorker .left)
  | count : s.worker = .top → Step s .count (s.setWorker (.counted s.totalFiberCounter))
  | poll {n f q} : s.worker = .counted n → s.taskQueue = f :: q →
      Step s .poll { s with taskQueue := q, worker := .running f }
  | pollEmpty {n} : s.worker = .counted n → s.taskQueue = [] → 0 < n →
      Step s .poll (s.setWorker .empty)
  | pollDone {n} : s.worker = .counted n → s.taskQueue = [] → n ≤ 0 →
      Step s .poll (s.setWorker .left)
  | setHung : s.worker = .empty →
      Step s .setHung { s with hungIoWaiter := true, worker := .hanging }
  | enter : s.worker = .hanging → Step s .enter (s.setWorker .blocked)
  -- by an event, a timer or the timeout; the pipe is reported if it has a byte
  | wake : s.worker = .blocked → Step s .wake (s.setWorker (.events (decide (0 < s.pipe))))
  -- `pipeEventProc` reads into a buffer of 32 bytes
  | drain : s.worker = .events true →
      Step s .drain { s with pipe := s.pipe - 32, worker := .events false }
  | drainBusy {f} : s.worker = .running f → 0 < s.pipe →
      Step s .drain { s with pipe := s.pipe - 32 }
  | resume {f} : InEvents s.worker → Step s (.resume f) (s.add f)
  | clearHung : s.worker = .events false →
      Step s .clearHung { s with hungIoWaiter := false, worker := .top }
  | scheduleLocal {f g} : s.worker = .running f → Step s (.scheduleLocal g)
      { s.add g with
        totalFiberCounter := s.totalFiberCounter + 1
        pipe := if s.hungIoWaiter then s.pipe + 1 else s.pipe }
  | requeue {f} : s.worker = .running f → Step s .requeue ((s.add f).setWorker .top)
  | park {f} : s.worker = .running f → Step s .park (s.setWorker .top)
  | retire {f} : s.worker = .running f →
      Step s .retire { s with totalFiberCounter := s.totalFiberCounter - 1, worker := .top }
  -- the other workers count their own fibers
  | elsewhere {n} : Step s .elsewhere { s with totalFiberCounter := n }
  | schedule {p f} : s.call p = .idle → Step s (.schedule p f)
      { s.setCall p (.counted f) with totalFiberCounter := s.totalFiberCounter + 1 }
  | add {p f} : s.call p = .counted f → Step s (.add p) ((s.add f).setCall p (.added f))
  | readHung {p f} : s.call p = .added f → s.hungIoWaiter = true →
      Step s (.readHung p) (s.setCall p .signalling)
  | readNull {p f} : s.call p = .added f → s.hungIoWaiter = false →
      Step s (.readHung p) (s.setCall p .idle)
  | signal {p} : s.call p = .signalling →
      Step s (.signal p) { s.setCall p .idle with pipe := s.pipe + 1 }

variable {s t : State F P} {p : P} {a : Act F P} {as : List (Act F P)} {n : ℤ} {q : List F}

/-- A scheduling call that has added its fiber and is still on its way to `signal`. -/
def OnItsWay (s : State F P) (p : P) : Prop :=
  (∃ f, s.call p = .added f ∧ s.hungIoWaiter = true) ∨ s.call p = .signalling

/-- The worker sleeps on a queue that holds a fiber, and nothing will wake it. -/
def LostWakeUp (s : State F P) : Prop :=
  s.worker = .blocked ∧ s.taskQueue ≠ [] ∧ s.pipe = 0 ∧ ∀ p, ¬ OnItsWay s p

/-- The condition on a step: a call does not read `hungIoWaiter` between the worker's empty poll
and its assignment while the fiber it has added is still in the queue. -/
def Timely (s : State F P) : Act F P → Prop
  | .readHung p => s.worker = .empty → ∀ f, s.call p = .added f → f ∉ s.taskQueue
  | _ => True

/-- Past the empty poll, on the way to the multiplexer or in it. -/
def Idle : WorkerPc F → Prop
  | .empty | .hanging | .blocked => True
  | _ => False

/-- What the flag and the pending calls say while the worker is idle. -/
structure Inv (s : State F P) : Prop where
  hung : s.worker = .hanging ∨ s.worker = .blocked → s.hungIoWaiter = true
  woken : Idle s.worker → ∀ f ∈ s.taskQueue,
    0 < s.pipe ∨ ∃ p, s.call p = .added f ∨ s.call p = .signalling

section

omit [DecidableEq P]

theorem inv_initial : Inv (initial n q : State F P) := by
  constructor <;> simp [initial, Idle]

/-- The worker is somewhere else afterwards. -/
theorem Inv.awake (h : ¬ Idle t.worker) : Inv t := by
  refine ⟨fun hw => (h ?_).elim, fun hw => (h hw).elim⟩
  rcases hw with hw | hw <;> rw [hw] <;> trivial

end

theorem Inv.added {f : F} (hi : Inv s) (hp : s.call p = .counted f) :
    Inv ((s.add f).setCall p (.added f)) := by
  refine ⟨hi.hung, fun hw g hg => ?_⟩
  rcases List.mem_append.mp hg with hg | hg
  · rcases hi.woken hw g hg with h | ⟨x, hx⟩
    · exact Or.inl h
    · have hne : x ≠ p := by
        rintro rfl
        simp [hp] at hx
      exact Or.inr ⟨x, by simpa [hne] using hx⟩
  · exact Or.inr ⟨p, Or.inl (by simp [List.mem_singleton.mp hg])⟩

/-- A call moves on before its fiber is added, or to and past its signal. -/
theorem Inv.move {c : CallPc F} (hi : Inv s) (hc : t.call = Function.update s.call p c)
    (hq : t.taskQueue = s.taskQueue) (hw : t.worker = s.worker)
    (hh : t.hungIoWaiter = s.hungIoWaiter) (hm : s.pipe ≤ t.pipe)
    (h : ∀ f ∈ s.taskQueue, Idle s.worker → s.call p = .added f ∨ s.call p = .signalling →
      0 < t.pipe ∨ c = .signalling) : Inv t := by
  refine ⟨fun h' => hh ▸ hi.hung (hw ▸ h'), fun hidle g hg => ?_⟩
  rw [hw] at hidle
  rw [hq] at hg
  rcases hi.woken hidle g hg with h0 | ⟨x, hx⟩
  · exact Or.inl (Nat.lt_of_lt_of_le h0 hm)
  · by_cases hxp : x = p
    · subst x
      rcases h g hg hidle hx with h0 | hs
      · exact Or.inl h0
      · exact Or.inr ⟨p, Or.inr (by simp [hc, hs])⟩
    · exact Or.inr ⟨x, by simpa [hc, hxp] using hx⟩

theorem inv_step (hst : Step s a t) (hg : Timely s a) (hi : Inv s) : Inv t := by
  cases hst with
  | interrupted hw | count hw | poll hw hq | pollDone hw hq hn | wake hw | drain hw
  | clearHung hw | requeue hw | park hw | retire hw => exact Inv.awake (by simp [Idle])
  | pollEmpty hw hq hn => exact ⟨by simp, fun _ f hf => by simp [hq] at hf⟩
  | setHung hw => exact ⟨fun _ => rfl, fun _ => hi.woken (by rw [hw]; trivial)⟩
  | enter hw =>
    exact ⟨fun _ => hi.hung (Or.inl hw), fun _ => hi.woken (by rw [hw]; trivial)⟩
  | drainBusy hw hp | scheduleLocal hw => exact Inv.awake (by simp [hw, Idle])
  | resume hw =>
    refine Inv.awake ?_
    cases hc : s.worker <;> simp_all [InEvents, Idle]
  | elsewhere => exact ⟨hi.hung, hi.woken⟩
  | schedule hp =>
    refine hi.move rfl rfl rfl rfl (Nat.le_refl _) fun f _ _ h => ?_
    rcases h with h | h <;> simp [hp] at h
  | add hp => exact hi.added hp
  | readHung hp hh => exact hi.move rfl rfl rfl rfl (Nat.le_refl _) fun _ _ _ _ => Or.inr rfl
  | readNull hp hh =>
    rename_i p f
    refine hi.move rfl rfl rfl rfl (Nat.le_refl _) fun g hgq hw h => ?_
    -- the worker can only be at `empty`, and there the condition forbids it
    have hempty : s.worker = .empty := by
      cases hc : s.worker <;> simp_all [Idle]
      · simp [hi.hung (Or.inl hc)] at hh
      · simp [hi.hung (Or.inr hc)] at hh
    rcases h with h | h
    · exact (hg hempty g h hgq).elim
    · simp [hp] at h
  | signal hp =>
    exact hi.move rfl rfl rfl rfl (Nat.le_succ _) fun _ _ _ _ => Or.inl (Nat.succ_pos _)

section

omit [DecidableEq P]

theorem Inv.not_lost (hi : Inv s) : ¬ LostWakeUp s := by
  rintro ⟨hw, hq, h0, hno⟩
  obtain ⟨f, hf⟩ := List.exists_mem_of_ne_nil _ hq
  rcases hi.woken (by rw [hw]; trivial) f hf with hp | ⟨p, hp | hp⟩
  · omega
  · exact hno p (Or.inl ⟨f, hp, hi.hung (Or.inr hw)⟩)
  · exact hno p (Or.inr hp)

end

theorem inv_run (h : Run (Guarded Timely Step) (initial n q) as s) : Inv s :=
  h.invariant (fun _ _ _ hi hst => inv_step hst.2 hst.1 hi) inv_initial

theorem no_lost_wakeUp (h : Run (Guarded Timely Step) (initial n q) as s) : ¬ LostWakeUp s :=
  (inv_run h).not_lost

/-- A call adds its fiber to the queue of a worker that sleeps, and signals it. -/
theorem no_lost_wakeUp_signalled : ∃ s : State ℕ Unit,
    s.worker = .blocked ∧ s.taskQueue = [7] ∧ s.pipe = 1 ∧ ¬ LostWakeUp s := by
  refine ⟨_, ?_, ?_, ?_, no_lost_wakeUp (n := 1) (q := []) <|
    .guard (.count rfl) trivial <| .guard (.pollEmpty rfl rfl (by decide)) trivial <|
    .guard (.setHung rfl) trivial <| .guard (.enter rfl) trivial <|
    .guard (.schedule (p := ()) (f := 7) rfl) trivial <|
    .guard (.add (p := ()) (f := 7) rfl) trivial <|
    .guard (.readHung (p := ()) (f := 7) rfl rfl) (by simp [Timely]) <|
    .guard (.signal (p := ()) rfl) trivial .refl⟩
  · rfl
  · rfl
  · rfl

/-- One fiber is alive and parked. A call adds its fiber after the empty poll and reads null before
the worker sets `hungIoWaiter`. -/
theorem lost_wakeUp : ∃ s : State ℕ Unit, Reachable Step (initial 1 []) s ∧ LostWakeUp s := by
  refine ⟨_, ⟨_, .step (.count rfl) <| .step (.pollEmpty rfl rfl (by decide)) <|
    .step (.schedule (p := ()) (f := 7) rfl) <| .step (.add (p := ()) (f := 7) rfl) <|
    .step (.readNull (p := ()) (f := 7) rfl rfl) <|
    .step (.setHung rfl) <| .step (.enter rfl) .refl⟩, rfl, ?_, rfl, ?_⟩
  · simp
  · simp [OnItsWay]

end CxxFiber.IdleWorker
