import CxxFiber.EFiber
import CxxFiber.EFiberBlocker
import CxxFiber.Library.Semaphore
import Mathlib.Logic.Function.Basic

/-! One blocker under every interleaving of its atomic sections: it is a counting semaphore. -/
namespace CxxFiber.Permits

open Transition

/-- Where a fiber stands in a call of `wait` or `tryWait(time)`. -/
inductive CallPc
  | idle
  | failed (k : WaitKind)
  | parked (k : WaitKind)
  | granted (k : WaitKind)
  | removing
  deriving DecidableEq, Repr

/-- `fired`, `dequeued`, `grants` and `result` are the history of the current or last call: its
timer has expired, a `wakeUp` has dequeued it, how often it was granted, what it returned. -/
structure Call where
  pc : CallPc
  isIoWaitTimeout : Bool
  timer : Bool
  fired : Bool
  dequeued : Bool
  grants : ℕ
  result : Option Bool
  deriving DecidableEq, Repr

namespace Call

def create : Call := ⟨.idle, false, false, false, false, 0, none⟩

/-- The call finds a permit at once. -/
def atOnce (c : Call) : Call :=
  { c with fired := false, dequeued := false, grants := 1, result := some true }

/-- The first check fails; only a positive timeout arms a timer, which clears the flag. -/
def fail (k : WaitKind) (c : Call) : Call :=
  { c with
    pc := .failed k
    isIoWaitTimeout := if k = .tryWait true then false else c.isIoWaitTimeout
    timer := decide (k = .tryWait true)
    fired := false, dequeued := false, grants := 0, result := none }

def grant (k : WaitKind) (c : Call) : Call := { c with pc := .granted k, grants := c.grants + 1 }

def park (k : WaitKind) (c : Call) : Call := { c with pc := .parked k }

def dequeue (c : Call) : Call := { c with dequeued := true, grants := c.grants + 1 }

/-- `timeEventProc`. -/
def expire (c : Call) : Call := { c with isIoWaitTimeout := true, timer := false, fired := true }

/-- Leaves the call; a timed one cancels its timer and `isWaitTimeout` clears the flag. -/
def finish (k : WaitKind) (c : Call) : Call :=
  { c with
    pc := .idle
    isIoWaitTimeout := if k = .wait then c.isIoWaitTimeout else false
    timer := false, result := some true }

def timeOut (c : Call) : Call :=
  { c with pc := .removing, isIoWaitTimeout := false, timer := false }

def remove (r : Bool) (c : Call) : Call := { c with pc := .idle, result := some r }

/-- A suspension elsewhere, between two calls, leaves the flag as it likes. -/
def setFlag (v : Bool) (c : Call) : Call := { c with isIoWaitTimeout := v }

/-- What makes the yield of the call return: a permit found by `swapOut`, the `swapIn` of the
`wakeUp` that has dequeued it, or that of its timer. -/
def Resumed (c : Call) (k : WaitKind) : Prop :=
  c.pc = .granted k ∨ c.pc = .parked k ∧ (c.dequeued = true ∨ c.fired = true)

end Call

structure State (F : Type) where
  blocker : EFiberBlocker F
  call : F → Call
  granted : ℕ
  woken : ℕ

variable {F : Type} [DecidableEq F]

def initial (capacity limit : ℕ) : State F := ⟨.create capacity limit, fun _ => .create, 0, 0⟩

def State.mod (s : State F) (f : F) (u : Call → Call) : State F :=
  { s with call := Function.update s.call f (u (s.call f)) }

inductive Act (F : Type)
  | tryWait
  | check (f : F) (k : WaitKind)
  | swapOut (f : F)
  | wakeUp
  | expire (f : F)
  | resume (f : F)
  | remove (f : F)
  | setFlag (f : F)
  deriving DecidableEq, Repr

inductive Step (s : State F) : Act F → State F → Prop
  | tryWait {b} : s.blocker.tryWait = (b, true) →
      Step s .tryWait { s with blocker := b, granted := s.granted + 1 }
  | tryWaitFail {b} : s.blocker.tryWait = (b, false) → Step s .tryWait { s with blocker := b }
  | check {f k b} : (s.call f).pc = .idle → s.blocker.tryWait = (b, true) →
      Step s (.check f k) { s.mod f .atOnce with blocker := b, granted := s.granted + 1 }
  | checkFail {f k b} : (s.call f).pc = .idle → s.blocker.tryWait = (b, false) →
      Step s (.check f k) { s.mod f (.fail k) with blocker := b }
  | swapOutPermit {f k b} : (s.call f).pc = .failed k → s.blocker.swapOut f = (b, false) →
      Step s (.swapOut f) { s.mod f (.grant k) with blocker := b, granted := s.granted + 1 }
  | swapOutHung {f k b} : (s.call f).pc = .failed k → s.blocker.swapOut f = (b, true) →
      Step s (.swapOut f) { s.mod f (.park k) with blocker := b }
  | wakeUpRefused {b} : s.blocker.wakeUp = (b, .refused) → Step s .wakeUp { s with blocker := b }
  | wakeUpCounted {b} : s.blocker.wakeUp = (b, .counted) →
      Step s .wakeUp { s with blocker := b, woken := s.woken + 1 }
  | wakeUpWaiter {b g} : s.blocker.wakeUp = (b, .waiter g) →
      Step s .wakeUp
        { s.mod g .dequeue with blocker := b, granted := s.granted + 1, woken := s.woken + 1 }
  | expire {f} : (s.call f).timer = true → Step s (.expire f) (s.mod f .expire)
  | finish {f k} : (s.call f).Resumed k → k = .wait ∨ (s.call f).isIoWaitTimeout = false →
      Step s (.resume f) (s.mod f (.finish k))
  | timeOut {f t} : (s.call f).Resumed (.tryWait t) →
      (s.call f).isIoWaitTimeout = true → Step s (.resume f) (s.mod f .timeOut)
  | removeTrue {f b} : (s.call f).pc = .removing → s.blocker.remove f = (b, true) →
      Step s (.remove f) { s.mod f (.remove false) with blocker := b }
  | removeFalse {f b} : (s.call f).pc = .removing → s.blocker.remove f = (b, false) →
      Step s (.remove f) { s.mod f (.remove true) with blocker := b }
  | setFlag {f v} : (s.call f).pc = .idle → Step s (.setFlag f) (s.mod f (.setFlag v))

variable {s t : State F} {f g : F} {act : Act F} {acts : List (Act F)} {capacity limit : ℕ}

/-- The laws of the permits: none is lost or doubled, a free permit means that nobody waits, and
a timed wait answers by whether it was granted. -/
structure PermitsKept (capacity : ℕ) (s : State F) : Prop where
  balance : s.granted + s.blocker.wakeup = capacity + s.woken
  idle : 0 < s.blocker.wakeup → s.blocker.waitQueue = []
  refused : ∀ f, (s.call f).result = some false →
    (s.call f).dequeued = false ∧ (s.call f).grants = 0 ∧ f ∉ s.blocker.waitQueue
  returned : ∀ f, (s.call f).result = some true →
    (s.call f).grants = 1 ∧ f ∉ s.blocker.waitQueue
  dequeued : ∀ f r, (s.call f).result = some r → (s.call f).dequeued = true → r = true

/-- A hung call has its entry, or was granted by the `wakeUp` that took the entry. -/
def Hung (c : Call) (entry : Prop) : Prop :=
  entry ∧ c.dequeued = false ∧ c.grants = 0 ∨ ¬ entry ∧ c.dequeued = true ∧ c.grants = 1

/-- What a call's place says about its entry in the wait queue, its grants and its timer. -/
def CallOk (c : Call) (entry : Prop) : Prop :=
  match c.pc with
  | .idle => ¬ entry ∧ c.timer = false ∧
      (c.result = some false → c.dequeued = false ∧ c.grants = 0) ∧
      (c.result = some true → c.grants = 1)
  | .failed _ => ¬ entry ∧ c.dequeued = false ∧ c.grants = 0 ∧ c.result = none
  | .parked _ => Hung c entry ∧ c.result = none
  | .granted _ => ¬ entry ∧ c.grants = 1 ∧ c.result = none
  | .removing => (entry ∧ c.dequeued = false ∧ c.grants = 0 ∨ ¬ entry ∧ c.grants = 1) ∧
      c.timer = false ∧ c.result = none

/-- Only a call with a positive timeout has a timer, and an expired one has left its flag. -/
def TimerOk (c : Call) : Prop :=
  match c.pc with
  | .failed k | .parked k | .granted k =>
    (c.timer = true → k = .tryWait true) ∧
      (c.fired = true → k = .tryWait true ∧ c.isIoWaitTimeout = true)
  | _ => True

structure Inv (s : State F) : Prop where
  call : ∀ f, CallOk (s.call f) (f ∈ s.blocker.waitQueue)
  timer : ∀ f, TimerOk (s.call f)
  nodup : s.blocker.waitQueue.Nodup
  idle : 0 < s.blocker.wakeup → s.blocker.waitQueue = []

section

omit [DecidableEq F]

theorem inv_initial : Inv (initial capacity limit : State F) := by
  constructor <;> simp [initial, Call.create, CallOk, TimerOk]

end

/-- Only the call of `f` changes, and only `f` may enter or leave the wait queue. -/
theorem Inv.mod {b : EFiberBlocker F} {u : Call → Call} {m n : ℕ} (hi : Inv s)
    (hq : ∀ g, g ≠ f → (g ∈ b.waitQueue ↔ g ∈ s.blocker.waitQueue)) (hn : b.waitQueue.Nodup)
    (hw : 0 < b.wakeup → b.waitQueue = []) (hc : CallOk (u (s.call f)) (f ∈ b.waitQueue))
    (ht : TimerOk (u (s.call f))) :
    Inv { s.mod f u with blocker := b, granted := m, woken := n } := by
  refine ⟨fun g => ?_, fun g => ?_, hn, hw⟩
  · by_cases hg : g = f
    · subst g
      simpa [State.mod] using hc
    · simpa [State.mod, hg, hq g hg] using hi.call g
  · by_cases hg : g = f
    · subst g
      simpa [State.mod] using ht
    · simpa [State.mod, hg] using hi.timer g

section

omit [DecidableEq F]

/-- The blocker's permits change, its wait queue does not. -/
theorem Inv.permits {b : EFiberBlocker F} {m n : ℕ} (hi : Inv s)
    (hq : b.waitQueue = s.blocker.waitQueue) (hw : 0 < b.wakeup → b.waitQueue = []) :
    Inv { s with blocker := b, granted := m, woken := n } := by
  refine ⟨fun f => ?_, hi.timer, ?_, hw⟩
  · simpa only [hq] using hi.call f
  · simpa only [hq] using hi.nodup

theorem Inv.resumed {k : WaitKind} (hi : Inv s) (h : (s.call f).Resumed k)
    (hk : k = .wait ∨ (s.call f).isIoWaitTimeout = false) :
    f ∉ s.blocker.waitQueue ∧ (s.call f).grants = 1 := by
  have hc := hi.call f
  have ht := hi.timer f
  rcases h with hp | ⟨hp, hd | hf⟩
  · simp only [CallOk, hp] at hc
    exact ⟨hc.1, hc.2.1⟩
  · simp only [CallOk, hp, Hung] at hc
    rcases hc.1 with ⟨-, hnd, -⟩ | ⟨hn, -, hg⟩
    · simp [hd] at hnd
    · exact ⟨hn, hg⟩
  · simp only [TimerOk, hp] at ht
    obtain ⟨rfl, hflag⟩ := ht.2 hf
    simp [hflag] at hk

theorem tryWait_cases {b c : EFiberBlocker F} {r : Bool} (h : b.tryWait = (c, r)) :
    c.waitQueue = b.waitQueue ∧ c.wakeup ≤ b.wakeup := by
  cases r with
  | true =>
    obtain ⟨-, rfl⟩ := EFiberBlocker.tryWait_true.mp h
    exact ⟨rfl, Nat.sub_le _ _⟩
  | false =>
    obtain ⟨-, rfl⟩ := EFiberBlocker.tryWait_false.mp h
    exact ⟨rfl, Nat.le_refl _⟩

end

/-- `waitQueue.remove` takes out the caller's own entry. -/
theorem Inv.remove {u : Call → Call} (hi : Inv s)
    (hc : CallOk (u (s.call f)) (f ∈ s.blocker.waitQueue.erase f))
    (ht : TimerOk (u (s.call f))) :
    Inv { s.mod f u with blocker := (s.blocker.remove f).1 } := by
  refine hi.mod (fun g hg => ?_) (hi.nodup.erase f) (fun hw => ?_) hc ht
  · simp [EFiberBlocker.remove, hg]
  · have := hi.idle hw
    simp [EFiberBlocker.remove, this]

theorem inv_step (h : Step s act t) (hi : Inv s) : Inv t := by
  cases h with
  | tryWait hb =>
    obtain ⟨hq, hw⟩ := tryWait_cases hb
    exact hi.permits hq fun hp => hq.trans (hi.idle (by omega))
  | tryWaitFail hb =>
    obtain ⟨hq, hw⟩ := tryWait_cases hb
    exact hi.permits hq fun hp => hq.trans (hi.idle (by omega))
  | @check f k b hp hb =>
    obtain ⟨hq, hw⟩ := tryWait_cases hb
    have hc := hi.call f
    simp only [CallOk, hp] at hc
    refine hi.mod (by simp [hq]) (hq ▸ hi.nodup) (fun hpos => hq.trans (hi.idle (by omega))) ?_ ?_
    · simp [CallOk, Call.atOnce, hp, hq, hc]
    · simp [TimerOk, Call.atOnce, hp]
  | @checkFail f k b hp hb =>
    obtain ⟨hq, hw⟩ := tryWait_cases hb
    have hc := hi.call f
    simp only [CallOk, hp] at hc
    refine hi.mod (by simp [hq]) (hq ▸ hi.nodup) (fun hpos => hq.trans (hi.idle (by omega))) ?_ ?_
    · simp [CallOk, Call.fail, hq, hc]
    · simp [TimerOk, Call.fail]
  | @swapOutPermit f k b hp hb =>
    obtain ⟨hpos, rfl⟩ := EFiberBlocker.swapOut_permit.mp hb
    have hc := hi.call f
    have ht := hi.timer f
    simp only [CallOk, TimerOk, hp] at hc ht
    refine hi.mod (by simp) hi.nodup (fun _ => hi.idle hpos) ?_ ?_
    · simp [CallOk, Call.grant, hc]
    · simpa [TimerOk, Call.grant] using ht
  | @swapOutHung f k b hp hb =>
    obtain ⟨hz, rfl⟩ := EFiberBlocker.swapOut_hung.mp hb
    have hc := hi.call f
    have ht := hi.timer f
    simp only [CallOk, TimerOk, hp] at hc ht
    refine hi.mod (fun g hg => by simp [hg]) ?_ (by simp [hz]) ?_ ?_
    · rw [List.nodup_append]
      refine ⟨hi.nodup, by simp, fun g hg g' hg' => ?_⟩
      rintro rfl
      exact hc.1 (List.mem_singleton.mp hg' ▸ hg)
    · simp [CallOk, Call.park, Hung, hc]
    · simpa [TimerOk, Call.park] using ht
  | wakeUpRefused hb =>
    obtain ⟨hq, -, rfl⟩ := EFiberBlocker.wakeUp_refused.mp hb
    exact hi.permits rfl fun _ => hq
  | wakeUpCounted hb =>
    obtain ⟨hq, -, rfl⟩ := EFiberBlocker.wakeUp_counted.mp hb
    exact hi.permits rfl fun _ => hq
  | @wakeUpWaiter b g hb =>
    obtain ⟨q, hq, rfl⟩ := EFiberBlocker.wakeUp_waiter.mp hb
    have hc := hi.call g
    have ht := hi.timer g
    have hn := hi.nodup
    rw [hq, List.nodup_cons] at hn
    have hm : g ∈ s.blocker.waitQueue := by simp [hq]
    refine hi.mod (fun f hf => by simp [hq, hf]) hn.2 (fun hpos => ?_) ?_ ?_
    · have := hi.idle hpos
      simp [hq] at this
    · cases hp : (s.call g).pc <;>
        simp_all [CallOk, Call.dequeue, Hung]
    · simpa [TimerOk, Call.dequeue] using ht
  | @expire f htm =>
    have hc := hi.call f
    have ht := hi.timer f
    refine hi.mod (by simp) hi.nodup hi.idle ?_ ?_
    · cases hp : (s.call f).pc <;> simp_all [CallOk, Call.expire, Hung]
    · cases hp : (s.call f).pc <;> simp_all [TimerOk, Call.expire]
  | @finish f k hr hk =>
    obtain ⟨hn, hg⟩ := hi.resumed hr hk
    refine hi.mod (by simp) hi.nodup hi.idle ?_ ?_
    · simp [CallOk, Call.finish, hn, hg]
    · simp [TimerOk, Call.finish]
  | @timeOut f _ hr _ =>
    have hc := hi.call f
    refine hi.mod (by simp) hi.nodup hi.idle ?_ ?_
    · rcases hr with hp | ⟨hp, -⟩
      · simp_all [CallOk, Call.timeOut]
      · simp only [CallOk, hp, Hung] at hc
        simp only [CallOk, Call.timeOut]
        grind
    · simp [TimerOk, Call.timeOut]
  | @removeTrue f b hp hb =>
    obtain ⟨rfl, hr⟩ := Prod.mk.inj hb
    have hm : f ∈ s.blocker.waitQueue := by simpa using hr
    have hc := hi.call f
    simp only [CallOk, hp, hm, true_and, not_true_eq_false, false_and, or_false] at hc
    exact hi.remove (by simp [CallOk, Call.remove, hi.nodup.not_mem_erase, hc])
      (by simp [TimerOk, Call.remove])
  | @removeFalse f b hp hb =>
    obtain ⟨rfl, hr⟩ := Prod.mk.inj hb
    have hm : f ∉ s.blocker.waitQueue := by simpa using hr
    have hc := hi.call f
    simp only [CallOk, hp, hm, false_and, not_false_eq_true, true_and, false_or] at hc
    exact hi.remove (by simp [CallOk, Call.remove, hi.nodup.not_mem_erase, hc])
      (by simp [TimerOk, Call.remove])
  | @setFlag f v hp =>
    have hc := hi.call f
    refine hi.mod (by simp) hi.nodup hi.idle ?_ ?_
    · simp_all [CallOk, Call.setFlag]
    · simp [TimerOk, Call.setFlag, hp]

/-- The semaphore that the blocker implements. -/
def semaphore (s : State F) : Semaphore.State := ⟨s.blocker.wakeup, s.granted, s.woken⟩

/-- Every section of the blocker is a step of the semaphore or leaves it alone. -/
theorem semaphore_step (h : Step s act t) (hi : Inv s) (hl : s.blocker.limit = limit) :
    t.blocker.limit = limit ∧
    ∃ as, Run (Semaphore.Step limit) (semaphore s) as (semaphore t) := by
  cases h with
  | tryWait hb =>
    obtain ⟨hpos, rfl⟩ := EFiberBlocker.tryWait_true.mp hb
    exact ⟨hl, _, .step (.take hpos) .refl⟩
  | tryWaitFail hb =>
    obtain ⟨-, rfl⟩ := EFiberBlocker.tryWait_false.mp hb
    exact ⟨hl, _, .refl⟩
  | check _ hb =>
    obtain ⟨hpos, rfl⟩ := EFiberBlocker.tryWait_true.mp hb
    exact ⟨hl, _, .step (.take hpos) .refl⟩
  | checkFail _ hb =>
    obtain ⟨-, rfl⟩ := EFiberBlocker.tryWait_false.mp hb
    exact ⟨hl, _, .refl⟩
  | swapOutPermit _ hb =>
    obtain ⟨hpos, rfl⟩ := EFiberBlocker.swapOut_permit.mp hb
    exact ⟨hl, _, .step (.take hpos) .refl⟩
  | swapOutHung _ hb =>
    obtain ⟨-, rfl⟩ := EFiberBlocker.swapOut_hung.mp hb
    exact ⟨hl, _, .refl⟩
  | wakeUpRefused hb =>
    obtain ⟨-, -, rfl⟩ := EFiberBlocker.wakeUp_refused.mp hb
    exact ⟨hl, _, .refl⟩
  | wakeUpCounted hb =>
    obtain ⟨-, hlt, rfl⟩ := EFiberBlocker.wakeUp_counted.mp hb
    exact ⟨hl, _, .step (.post (hl ▸ hlt)) .refl⟩
  | wakeUpWaiter hb =>
    obtain ⟨q, hq, rfl⟩ := EFiberBlocker.wakeUp_waiter.mp hb
    have hz : s.blocker.wakeup = 0 := by
      by_contra hn
      have := hi.idle (Nat.pos_of_ne_zero hn)
      simp [hq] at this
    exact ⟨hl, _, .step (.pass hz) .refl⟩
  | expire | finish | timeOut | setFlag => exact ⟨hl, _, .refl⟩
  | removeTrue _ hb =>
    obtain ⟨rfl, -⟩ := Prod.mk.inj hb
    exact ⟨hl, _, .refl⟩
  | removeFalse _ hb =>
    obtain ⟨rfl, -⟩ := Prod.mk.inj hb
    exact ⟨hl, _, .refl⟩

theorem inv_run (h : Run Step (initial capacity limit) acts s) : Inv s :=
  h.invariant (fun _ _ _ hi hs => inv_step hs hi) inv_initial

/-- A blocker refines the semaphore of its capacity and limit. -/
theorem semaphore_run (h : Run Step (initial capacity limit) acts s) :
    ∃ as, Run (Semaphore.Step limit) ⟨capacity, 0, 0⟩ as (semaphore s) := by
  refine h.simulate (I := fun s => Inv s ∧ s.blocker.limit = limit) (r := semaphore)
    (fun _ _ _ hi hs => ?_) (fun _ _ _ hi hs => ?_) ⟨inv_initial, rfl⟩
  · exact ⟨inv_step hs hi.1, (semaphore_step hs hi.1 hi.2).1⟩
  · exact (semaphore_step hs hi.1 hi.2).2

/-- With a limit, waits and wakeups that return true act as single takes and posts. -/
theorem semaphore_run_plain (hl : 0 < limit) (h : Run Step (initial capacity limit) acts s) :
    ∃ as, .pass ∉ as ∧ Run (Semaphore.Step limit) ⟨capacity, 0, 0⟩ as (semaphore s) := by
  obtain ⟨as, hs⟩ := semaphore_run h
  exact Semaphore.run_plain hl hs

/-- The unsigned counter never wraps. -/
theorem wakeup_le_max (h : Run Step (initial capacity limit) acts s) :
    s.blocker.wakeup ≤ max capacity limit := by
  obtain ⟨as, hs⟩ := semaphore_run h
  exact Semaphore.permits_le_max_run hs (Nat.le_max_left _ _)

theorem permits_kept (h : Run Step (initial capacity limit) acts s) : PermitsKept capacity s := by
  have hi := inv_run h
  have hidle : ∀ f r, (s.call f).result = some r → (s.call f).pc = .idle := by
    intro f r hr
    have hc := hi.call f
    cases hp : (s.call f).pc <;> simp_all [CallOk]
  refine ⟨?_, hi.idle, fun f hr => ?_, fun f hr => ?_, fun f r hr hd => ?_⟩
  · obtain ⟨as, hs⟩ := semaphore_run h
    exact Semaphore.conserved_run hs
  · have hc := hi.call f
    simp only [CallOk, hidle f _ hr] at hc
    exact ⟨(hc.2.2.1 hr).1, (hc.2.2.1 hr).2, hc.1⟩
  · have hc := hi.call f
    simp only [CallOk, hidle f _ hr] at hc
    exact ⟨hc.2.2.2 hr, hc.1⟩
  · have hc := hi.call f
    simp only [CallOk, hidle f _ hr] at hc
    cases r with
    | true => rfl
    | false => simp [hd, hr] at hc

/-- A hung waiter whose timer expires just before the `wakeUp` that dequeues it. -/
theorem permits_kept_expired : ∃ s : State Unit, (s.call ()).result = some true ∧
    (s.call ()).dequeued = true ∧ (s.call ()).fired = true ∧ PermitsKept 0 s := by
  refine ⟨_, ?_, ?_, ?_, permits_kept <|
    .step (.checkFail (s := initial 0 1) (f := ()) (k := .tryWait true) rfl rfl) <|
    .step (.swapOutHung (f := ()) rfl rfl) <|
    .step (.expire (f := ()) rfl) <|
    .step (.wakeUpWaiter (g := ()) rfl) <|
    .step (.timeOut (t := true) (f := ()) (Or.inr ⟨rfl, Or.inr rfl⟩) rfl) <|
    .step (.removeFalse (f := ()) rfl rfl) .refl⟩
  · rfl
  · rfl
  · rfl

end CxxFiber.Permits
