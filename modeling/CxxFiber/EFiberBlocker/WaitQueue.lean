import CxxFiber.Library.Fifo
import CxxFiber.Scheduler.Resumption

/-! The wait queue of a blocker on which fibers and threads wait. All threads add the same entry. -/
namespace CxxFiber.WaitQueue

open Scheduler Transition

/-- What a queue links: a fiber, or the `sync_` of the blocker. -/
inductive Entry (F : Type)
  | fiber (f : F)
  | sync
  deriving DecidableEq, Repr

/-- Who has added an entry. -/
inductive Waiter (F T : Type)
  | fiber (f : F)
  | thread (t : T)
  deriving DecidableEq, Repr

/-- A thread's place in `wait` or `tryWait(time, unit)`. `expired`: `await` has timed out, and the
lock is not yet taken again. -/
inductive ThreadPc (B : Type)
  | out
  | waiting (b : B) (timed : Bool)
  | notified (b : B)
  | expired (b : B)
  deriving DecidableEq, Repr

variable {F W B T : Type}

/-- The blocker of a call that no `notify` has reached. -/
def ThreadPc.call? : ThreadPc B → Option B
  | .waiting b _ | .expired b => some b
  | .out | .notified _ => none

def Waiter.entry : Waiter F T → Entry F
  | .fiber f => .fiber f
  | .thread _ => .sync

def Waiter.fiber? : Waiter F T → Option F
  | .fiber f => some f
  | .thread _ => none

@[simp] theorem Waiter.entry_fiber (f : F) : (.fiber f : Waiter F T).entry = .fiber f := rfl

@[simp] theorem Waiter.entry_thread (t : T) : (.thread t : Waiter F T).entry = .sync := rfl

@[simp] theorem Waiter.fiber?_fiber (f : F) : (.fiber f : Waiter F T).fiber? = some f := rfl

@[simp] theorem Waiter.fiber?_thread (t : T) : (.thread t : Waiter F T).fiber? = none := rfl

/-- `queue b` is the wait queue of `b`; which thread has added a `sync_` is history. The wait queues
of `sched` hold the fibers in it. -/
structure State (F W B T : Type) where
  sched : Scheduler.State F W B T
  queue : B → List (Waiter F T)
  thread : T → ThreadPc B

def initial (capacity limit : B → ℕ) : State F W B T :=
  ⟨Scheduler.initial capacity limit, fun _ => [], fun _ => .out⟩

section Steps

variable [DecidableEq F] [DecidableEq W] [DecidableEq B] [DecidableEq T]

namespace State

def setQueue (s : State F W B T) (b : B) (q : List (Waiter F T)) : State F W B T :=
  { s with queue := Function.update s.queue b q }

def setThread (s : State F W B T) (t : T) (p : ThreadPc B) : State F W B T :=
  { s with thread := Function.update s.thread t p }

def add (s : State F W B T) (b : B) (x : Waiter F T) : State F W B T :=
  s.setQueue b (s.queue b ++ [x])

/-- `waitQueue.remove`. -/
def remove (s : State F W B T) (b : B) (e : Entry F) : State F W B T :=
  s.setQueue b ((s.queue b).eraseP fun x => x.entry = e)

/-- `a` is not itself inside a wait. -/
def Free (s : State F W B T) : Agent F W T → Prop
  | .thread t => s.thread t = .out
  | _ => True

end State

/-- `back`: a notified thread has the lock again and returns. -/
inductive Act (F W B T : Type)
  | wait (t : T) (b : B) (timed : Bool)
  | expire (t : T)
  | remove (t : T)
  | back (t : T)
  | wakeUp (a : Agent F W T) (b : B)
  | sched (act : Scheduler.Act F W B T)

/-- The steps that leave all wait queues alone. -/
def Other (s : State F W B T) : Scheduler.Act F W B T → Prop
  | .wakeUp _ _ | .swapOut _ | .remove _ _ => False
  | .threadTryWait t _ => s.thread t = .out
  | _ => True

/-- `wait` and `tryWait(time, unit)` of a thread that finds no permit; one that finds a permit is
`threadTryWait`. `notify` wakes one of the threads that wait on `sync_`, if there are any. -/
inductive Step (s : State F W B T) : Act F W B T → State F W B T → Prop
  | wait {t b d} : s.thread t = .out → s.sched.resume (.thread t) = none →
      (s.sched.blocker b).wakeup = 0 →
      Step s (.wait t b d) ((s.add b (.thread t)).setThread t (.waiting b d))
  | expire {t b} : s.thread t = .waiting b true →
      Step s (.expire t) (s.setThread t (.expired b))
  | remove {t b} : s.thread t = .expired b →
      Step s (.remove t) ((s.remove b .sync).setThread t .out)
  | back {t b} : s.thread t = .notified b → Step s (.back t) (s.setThread t .out)
  | wakeUpNone {a b y} : s.Free a → s.queue b = [] → Scheduler.Step s.sched (.wakeUp a b) y →
      Step s (.wakeUp a b) { s with sched := y }
  | wakeUpFiber {a b f q y} : s.Free a → s.queue b = .fiber f :: q →
      Scheduler.Step s.sched (.wakeUp a b) y →
      Step s (.wakeUp a b) { s.setQueue b q with sched := y }
  | wakeUpThread {a b t u q timed} : s.Free a → s.sched.MayCall a → s.queue b = .thread t :: q →
      s.thread u = .waiting b timed →
      Step s (.wakeUp a b)
        { (s.setQueue b q).setThread u (.notified b) with sched := s.sched.release b a }
  | wakeUpLate {a b t q} : s.Free a → s.sched.MayCall a → s.queue b = .thread t :: q →
      (∀ u timed, s.thread u ≠ .waiting b timed) →
      Step s (.wakeUp a b) { s.setQueue b q with sched := s.sched.release b a }
  | permit {w f b y} : s.sched.worker w = .swapOut f b → 0 < (s.sched.blocker b).wakeup →
      Scheduler.Step s.sched (.swapOut w) y → Step s (.sched (.swapOut w)) { s with sched := y }
  | hung {w f b y} : s.sched.worker w = .swapOut f b → (s.sched.blocker b).wakeup = 0 →
      Scheduler.Step s.sched (.swapOut w) y →
      Step s (.sched (.swapOut w)) { s.add b (.fiber f) with sched := y }
  | removeFiber {f b y} : Scheduler.Step s.sched (.remove f b) y →
      Step s (.sched (.remove f b)) { s.remove b (.fiber f) with sched := y }
  | other {act y} : Scheduler.Step s.sched act y → Other s act →
      Step s (.sched act) { s with sched := y }

/-- The calls of `waitQueue.add`. -/
inductive Adds (s : State F W B T) : Act F W B T → B → Waiter F T → Prop
  | wait {t b timed} : Adds s (.wait t b timed) b (.thread t)
  | hung {w f b} : s.sched.worker w = .swapOut f b → (s.sched.blocker b).wakeup = 0 →
      Adds s (.sched (.swapOut w)) b (.fiber f)

/-- The entry that `x` adds to the queue of `b` is in a list. A fiber may wait on any blocker; each
blocker has a `sync_` of its own. -/
def Linked (s : State F W B T) (b : B) : Waiter F T → Prop
  | .fiber f => ∃ c, .fiber f ∈ s.queue c
  | .thread _ => ∃ t, .thread t ∈ s.queue b

/-- Waits on `b`, and neither a `wakeUp` nor its timer has reached it. -/
def Waiting (b : B) : Waiter F T → State F W B T → Prop
  | .fiber f, s => Hangs s.sched f b ∧ ¬ Owed s.sched f
  | .thread t, s => ∃ timed, s.thread t = .waiting b timed

def wakes (b : B) : Act F W B T → Bool
  | .wakeUp _ c => decide (c = b)
  | _ => false

/-- A thread begins to wait on a blocker only when no other is in a call there, and a fiber that is
resumed has been let go. -/
def Alone (s : State F W B T) : Act F W B T → Prop
  | .wait _ b _ => ∀ t, (s.thread t).call? ≠ some b
  | .sched act => Timely s.sched act
  | _ => True

/-- Each entry that a step adds is in no list. -/
def AddsUnlinked (s : State F W B T) (e : Act F W B T) (_ : State F W B T) : Prop :=
  ∀ b x, Adds s e b x → ¬ Linked s b x

/-- In a call that waits on `b`, or hung there by a plain yield in state BLOCKED. -/
def Calls (s : State F W B T) (b : B) : Waiter F T → Prop
  | .fiber f => (∃ k, (s.sched.fiber f).pc = .parked b k) ∨ (s.sched.fiber f).pc = .removing b ∨
      ((s.sched.fiber f).pc = .user ∧ (s.sched.fiber f).blocker = some b)
  | .thread t => (s.thread t).call? = some b

/-- The writes of the `swapIn` that `a` is in resume `f`. -/
def Writes (x : Scheduler.State F W B T) (a : Agent F W T) (f : F) : Prop :=
  ∃ y, Scheduler.Step x (.write a) y ∧ (y.fiber f).state = .runnable ∧
    y.resume a = some (.adding f)

/-- The `wakeUp` that has dequeued `f` goes on with its `swapIn`, or a `swapIn` that has found `f`
suspended goes on. -/
def Resuming (x : Scheduler.State F W B T) (f : F) : Prop :=
  ∃ a, Writes x a f ∨ ∃ y, Scheduler.Step x (.swapIn a) y ∧ Writes y a f

/-- Who waits is linked, once, or about to be resumed; nobody else is. -/
structure Queued (s : State F W B T) : Prop where
  once : ∀ b, ((s.queue b).map Waiter.entry).Nodup
  waiting : ∀ b x, Waiting b x s → x ∈ s.queue b
  hangs : ∀ b f, Hangs s.sched f b → .fiber f ∈ s.queue b ∨ Resuming s.sched f
  calls : ∀ b x, x ∈ s.queue b → Calls s b x

/-- `k` waiters are released by `k` calls of `wakeUp`: while one of them waits, there are fewer. -/
def Released (s : State F W B T) : Prop :=
  ∀ b x, Waiting b x s → ∀ acts t, Run (Guarded Alone (Keeping (Waiting b x) Step)) s acts t →
    acts.countP (wakes b) < (s.queue b).length

structure Inv (s : State F W B T) : Prop where
  sched : Scheduler.Inv s.sched
  kept : Kept s.sched
  fibers : ∀ b, (s.queue b).filterMap Waiter.fiber? = (s.sched.blocker b).waitQueue
  nodup : ∀ b, (s.queue b).Nodup
  owner : ∀ b t, .thread t ∈ s.queue b → (s.thread t).call? = some b
  linked : ∀ b t timed, s.thread t = .waiting b timed → .thread t ∈ s.queue b
  single : ∀ b t u, (s.thread t).call? = some b → (s.thread u).call? = some b → t = u

end Steps

variable {s s' : State F W B T} {x y : Scheduler.State F W B T} {act : Scheduler.Act F W B T}
  {f : F} {w : W} {b c : B} {t u : T} {a : Agent F W T} {q : List (Waiter F T)} {e : Act F W B T}

theorem inv_initial {capacity limit : B → ℕ} : Inv (initial capacity limit : State F W B T) where
  sched := Scheduler.inv_initial capacity limit
  kept := kept_initial
  fibers _ := rfl
  nodup _ := .nil
  owner _ _ := nofun
  linked _ _ _ := nofun
  single _ _ _ := nofun

theorem fiber_mem : Waiter.fiber f ∈ q ↔ f ∈ q.filterMap Waiter.fiber? := by
  rw [List.mem_filterMap]
  constructor
  · exact fun h => ⟨_, h, rfl⟩
  · rintro ⟨x, hx, hf⟩
    cases x with
    | fiber g => exact Option.some.inj hf ▸ hx
    | thread t => exact nomatch hf

/-- `sync_` is no fiber. -/
theorem fibers_remove_sync [DecidableEq F] :
    (q.eraseP fun x => x.entry = .sync).filterMap Waiter.fiber? =
    q.filterMap Waiter.fiber? := by
  induction q with
  | nil => rfl
  | cons x q ih =>
    cases x with
    | fiber g => simpa using ih
    | thread t => simp [List.filterMap_cons]

theorem fibers_remove [DecidableEq F] :
    (q.eraseP fun x => x.entry = .fiber f).filterMap Waiter.fiber? =
    (q.filterMap Waiter.fiber?).erase f := by
  induction q with
  | nil => rfl
  | cons x q ih =>
    cases x with
    | fiber g =>
      by_cases hg : g = f
      · subst hg
        simp
      · simpa [hg] using ih
    | thread t => simpa [List.filterMap_cons] using ih

theorem waitQueue_update [DecidableEq B] {d : EFiberBlocker F} {r : List F} (hd : d.waitQueue = r) :
    (Function.update x.blocker b d c).waitQueue = if c = b then r else (x.blocker c).waitQueue := by
  by_cases hc : c = b
  · subst c
    simpa using hd
  · simp [hc]

theorem waitQueue_setBlocker [DecidableEq B]
    {d : EFiberBlocker F} (hd : d.waitQueue = (x.blocker b).waitQueue) :
    (Function.update x.blocker b d c).waitQueue = (x.blocker c).waitQueue := by
  rw [waitQueue_update hd]
  split
  · next hc => rw [hc]
  · rfl

theorem waitQueue_other [DecidableEq F] [DecidableEq W] [DecidableEq B] [DecidableEq T]
    (hst : Scheduler.Step x act y) (ho : Other s act) :
    (y.blocker b).waitQueue = (x.blocker b).waitQueue := by
  cases hst with
  | tryWait _ _ hc | tryWaitFail _ _ hc | threadTryWait _ hc | check _ _ hc =>
    exact waitQueue_setBlocker (tryWait_waitQueue hc)
  | removeTrue | removeFalse | swapOutPermit | swapOutHung | wakeUpRefused | wakeUpCounted
  | wakeUpWaiter => exact ho.elim
  | timer =>
    rw [swapIn_blocker]
    rfl
  | fileEvent | swapIn => rw [swapIn_blocker]
  | _ => rfl

theorem release_waitQueue [DecidableEq F] [DecidableEq B] :
    ((x.release b a).blocker c).waitQueue = (x.blocker c).waitQueue := by
  cases a <;> rfl

theorem waitQueue_wakeUp [DecidableEq F] [DecidableEq W] [DecidableEq B] [DecidableEq T]
    (hst : Scheduler.Step x (.wakeUp a b) y) : (y.blocker c).waitQueue =
    if c = b then (x.blocker b).waitQueue.tail else (x.blocker c).waitQueue := by
  cases hst with
  | wakeUpRefused _ hc =>
    obtain ⟨hq, -, rfl⟩ := EFiberBlocker.wakeUp_refused.mp hc
    exact release_waitQueue.trans (waitQueue_update (by rw [hq]; rfl))
  | wakeUpCounted _ hc =>
    obtain ⟨hq, -, rfl⟩ := EFiberBlocker.wakeUp_counted.mp hc
    exact release_waitQueue.trans (waitQueue_update (by simp [hq]))
  | wakeUpWaiter _ hc =>
    obtain ⟨q, hq, rfl⟩ := EFiberBlocker.wakeUp_waiter.mp hc
    exact release_waitQueue.trans (waitQueue_update (by rw [hq]; rfl))

theorem waitQueue_hung [DecidableEq F] [DecidableEq W] [DecidableEq B] [DecidableEq T]
    (hst : Scheduler.Step x (.swapOut w) y) (hw : x.worker w = .swapOut f b)
    (h0 : (x.blocker b).wakeup = 0) : (y.blocker c).waitQueue =
      if c = b then (x.blocker b).waitQueue ++ [f] else (x.blocker c).waitQueue := by
  cases hst with
  | swapOutPermit hw' hc =>
    obtain ⟨rfl, rfl⟩ := WorkerPc.swapOut.inj (hw.symm.trans hw')
    have hp := (EFiberBlocker.swapOut_permit.mp hc).1
    omega
  | swapOutHung hw' hc =>
    obtain ⟨rfl, rfl⟩ := WorkerPc.swapOut.inj (hw.symm.trans hw')
    obtain ⟨-, rfl⟩ := EFiberBlocker.swapOut_hung.mp hc
    exact waitQueue_update rfl

theorem waitQueue_remove [DecidableEq F] [DecidableEq W] [DecidableEq B] [DecidableEq T]
    (hst : Scheduler.Step x (.remove f b) y) : (y.blocker c).waitQueue =
    if c = b then (x.blocker b).waitQueue.erase f else (x.blocker c).waitQueue := by
  cases hst with
  | removeTrue _ _ hc | removeFalse _ _ hc =>
    obtain rfl : ((x.blocker b).remove f).1 = _ := congrArg Prod.fst hc
    exact waitQueue_update rfl

theorem waitQueue_permit [DecidableEq F] [DecidableEq W] [DecidableEq B] [DecidableEq T]
    (hst : Scheduler.Step x (.swapOut w) y) (hw : x.worker w = .swapOut f c)
    (hp : 0 < (x.blocker c).wakeup) : (y.blocker b).waitQueue = (x.blocker b).waitQueue := by
  cases hst with
  | swapOutPermit hw' hc =>
    obtain ⟨-, rfl⟩ := EFiberBlocker.swapOut_permit.mp hc
    exact waitQueue_setBlocker rfl
  | swapOutHung hw' hc =>
    obtain ⟨rfl, rfl⟩ := WorkerPc.swapOut.inj (hw.symm.trans hw')
    have h0 := (EFiberBlocker.swapOut_hung.mp hc).1
    omega

/-- A step of the scheduler that changes no wait queue. -/
theorem Inv.sched_step [DecidableEq F] [DecidableEq W] [DecidableEq B] [DecidableEq T]
    (h : Inv s) (hst : Scheduler.Step s.sched act y)
    (hg : Timely s.sched act)
    (hq : ∀ b, (y.blocker b).waitQueue = (s.sched.blocker b).waitQueue) :
    Inv { s with sched := y } :=
  { h with
    sched := inv_timely hst hg h.sched
    kept := kept_step hst h.sched h.kept
    fibers := fun b => (h.fibers b).trans (hq b).symm }

/-- A step of the scheduler on the queue of `b`, which leaves the threads in it. -/
theorem Inv.queue_step [DecidableEq F] [DecidableEq W] [DecidableEq B] [DecidableEq T]
    (h : Inv s) (hst : Scheduler.Step s.sched act y) (hg : Timely s.sched act)
    (hb : ∀ c, (y.blocker c).waitQueue =
      if c = b then q.filterMap Waiter.fiber? else (s.sched.blocker c).waitQueue)
    (hn : q.Nodup) (ht : ∀ t, .thread t ∈ q ↔ .thread t ∈ s.queue b) :
    Inv { s.setQueue b q with sched := y } where
  sched := inv_timely hst hg h.sched
  kept := kept_step hst h.sched h.kept
  fibers c := by
    rw [hb]
    by_cases hc : c = b
    · subst c
      simp [State.setQueue]
    · simpa [State.setQueue, hc] using h.fibers c
  nodup c := by
    by_cases hc : c = b
    · subst c
      simpa [State.setQueue] using hn
    · simpa [State.setQueue, hc] using h.nodup c
  owner c t hm := by
    by_cases hc : c = b
    · subst c
      exact h.owner _ t ((ht t).mp (by simpa [State.setQueue] using hm))
    · exact h.owner c t (by simpa [State.setQueue, hc] using hm)
  linked c t timed hw := by
    have hm := h.linked c t timed hw
    by_cases hc : c = b
    · subst c
      simpa [State.setQueue] using (ht t).mpr hm
    · simpa [State.setQueue, hc] using hm
  single := h.single

theorem release_kept [DecidableEq F] [DecidableEq B] (h : Kept x) : Kept (x.release b a) := by
  cases a <;> exact h

theorem fibers_setQueue [DecidableEq B] (h : Inv s)
    (hb : ∀ c, (x.blocker c).waitQueue = (s.sched.blocker c).waitQueue)
    (hf : q.filterMap Waiter.fiber? = (s.queue b).filterMap Waiter.fiber?) (c : B) :
    (Function.update s.queue b q c).filterMap Waiter.fiber? = (x.blocker c).waitQueue := by
  rw [hb, ← h.fibers]
  by_cases hc : c = b
  · subst c
    simpa using hf
  · simp [hc]

theorem nodup_setQueue [DecidableEq B] (h : Inv s) (hn : q.Nodup) (c : B) :
    (Function.update s.queue b q c).Nodup := by
  by_cases hc : c = b
  · subst c
    simpa using hn
  · simpa [hc] using h.nodup c

/-- The thread in the call on `b` leaves it, and its entry the queue. -/
theorem Inv.leave [DecidableEq B] [DecidableEq T]
    {p : ThreadPc B} (h : Inv s) (hx : Scheduler.Inv x) (hk : Kept x)
    (hb : ∀ c, (x.blocker c).waitQueue = (s.sched.blocker c).waitQueue)
    (hf : q.filterMap Waiter.fiber? = (s.queue b).filterMap Waiter.fiber?)
    (hs : q.Sublist (s.queue b)) (hp : p.call? = none) (ht : (s.thread t).call? = some b)
    (hq : .thread t ∉ q) : Inv { (s.setQueue b q).setThread t p with sched := x } where
  sched := hx
  kept := hk
  fibers := fibers_setQueue h hb hf
  nodup := nodup_setQueue h ((h.nodup b).sublist hs)
  owner c v hm := by
    change .thread v ∈ Function.update s.queue b q c at hm
    change (Function.update s.thread t p v).call? = some c
    by_cases hc : c = b
    · subst c
      rw [Function.update_self] at hm
      obtain rfl := h.single b v t (h.owner b v (hs.subset hm)) ht
      exact (hq hm).elim
    · rw [Function.update_of_ne hc] at hm
      have hv := h.owner c v hm
      have hne : v ≠ t := by
        rintro rfl
        exact hc (Option.some.inj (hv.symm.trans ht))
      rwa [Function.update_of_ne hne]
  linked c v timed hv := by
    change Function.update s.thread t p v = _ at hv
    change .thread v ∈ Function.update s.queue b q c
    by_cases hne : v = t
    · subst v
      rw [Function.update_self] at hv
      rw [hv] at hp
      exact nomatch hp
    · rw [Function.update_of_ne hne] at hv
      have hc : c ≠ b := by
        rintro rfl
        exact hne (h.single c v t (by rw [hv]; rfl) ht)
      rw [Function.update_of_ne hc]
      exact h.linked c v timed hv
  single c v u hv hu := by
    change (Function.update s.thread t p v).call? = some c at hv
    change (Function.update s.thread t p u).call? = some c at hu
    have hne : ∀ {z}, (Function.update s.thread t p z).call? = some c → z ≠ t := by
      rintro z hz rfl
      rw [Function.update_self, hp] at hz
      exact nomatch hz
    have hvt := hne hv
    have hut := hne hu
    rw [Function.update_of_ne hvt] at hv
    rw [Function.update_of_ne hut] at hu
    exact h.single c v u hv hu

/-- An entry leaves the queue of `b`, on which no thread waits. -/
theorem Inv.drop [DecidableEq B] (h : Inv s) (hx : Scheduler.Inv x) (hk : Kept x)
    (hb : ∀ c, (x.blocker c).waitQueue = (s.sched.blocker c).waitQueue)
    (hf : q.filterMap Waiter.fiber? = (s.queue b).filterMap Waiter.fiber?)
    (hs : q.Sublist (s.queue b)) (ht : ∀ t timed, s.thread t ≠ .waiting b timed) :
    Inv { s.setQueue b q with sched := x } where
  sched := hx
  kept := hk
  fibers := fibers_setQueue h hb hf
  nodup := nodup_setQueue h ((h.nodup b).sublist hs)
  owner c v hm := by
    change .thread v ∈ Function.update s.queue b q c at hm
    refine h.owner c v ?_
    by_cases hc : c = b
    · subst c
      rw [Function.update_self] at hm
      exact hs.subset hm
    · rwa [Function.update_of_ne hc] at hm
  linked c v timed hv := by
    change .thread v ∈ Function.update s.queue b q c
    have hc : c ≠ b := by
      rintro rfl
      exact ht v timed hv
    rw [Function.update_of_ne hc]
    exact h.linked c v timed hv
  single := h.single

/-- A thread's place changes, but neither whether it is in a call nor the queues. -/
theorem Inv.stay [DecidableEq T] {p : ThreadPc B} (h : Inv s) (hp : p.call? = (s.thread t).call?)
    (hw : ∀ b timed, p ≠ .waiting b timed) : Inv (s.setThread t p) := by
  have hcall : ∀ v, (Function.update s.thread t p v).call? = (s.thread v).call? := by
    intro v
    by_cases hv : v = t
    · subst v
      rw [Function.update_self, hp]
    · rw [Function.update_of_ne hv]
  refine { h with owner := ?_, linked := ?_, single := ?_ }
  · exact fun b v hm => (hcall v).trans (h.owner b v hm)
  · intro b v timed hv
    change Function.update s.thread t p v = _ at hv
    by_cases hvt : v = t
    · subst v
      rw [Function.update_self] at hv
      exact (hw b timed hv).elim
    · rw [Function.update_of_ne hvt] at hv
      exact h.linked b v timed hv
  · exact fun b v u hv hu => h.single b v u ((hcall v).symm.trans hv) ((hcall u).symm.trans hu)

/-- A thread that is alone on `b` begins to wait there. -/
theorem Inv.wait [DecidableEq B] [DecidableEq T] {timed : Bool} (h : Inv s) (ht : s.thread t = .out)
    (hg : ∀ t, (s.thread t).call? ≠ some b) :
    Inv ((s.add b (.thread t)).setThread t (.waiting b timed)) := by
  have hnot : ∀ v, .thread v ∉ s.queue b := fun v hm => hg v (h.owner b v hm)
  constructor
  case sched => exact h.sched
  case kept => exact h.kept
  case fibers =>
    refine fibers_setQueue h (fun _ => rfl) ?_
    simp [List.filterMap_cons]
  case nodup =>
    refine nodup_setQueue h (List.nodup_append.mpr ⟨h.nodup b, List.nodup_singleton _, ?_⟩)
    rintro y hy z hz rfl
    rw [List.mem_singleton] at hz
    exact hnot t (hz ▸ hy)
  case owner =>
    intro c v hm
    change .thread v ∈ Function.update s.queue b _ c at hm
    change (Function.update s.thread t _ v).call? = some c
    by_cases hv : v = t
    · subst v
      by_cases hc : c = b
      · subst c
        rw [Function.update_self]
        rfl
      · rw [Function.update_of_ne hc] at hm
        have hcall := h.owner c t hm
        rw [ht] at hcall
        exact nomatch hcall
    · rw [Function.update_of_ne hv]
      by_cases hc : c = b
      · subst c
        rw [Function.update_self] at hm
        rcases List.mem_append.mp hm with hm | hm
        · exact (hnot v hm).elim
        · exact (hv (Waiter.thread.inj (List.mem_singleton.mp hm))).elim
      · rw [Function.update_of_ne hc] at hm
        exact h.owner c v hm
  case linked =>
    intro c v timed' hv
    change Function.update s.thread t _ v = _ at hv
    change .thread v ∈ Function.update s.queue b _ c
    by_cases hvt : v = t
    · subst v
      rw [Function.update_self] at hv
      obtain ⟨rfl, -⟩ := ThreadPc.waiting.inj hv
      simp
    · rw [Function.update_of_ne hvt] at hv
      have hm := h.linked c v timed' hv
      by_cases hc : c = b
      · subst c
        exact (hnot v hm).elim
      · rwa [Function.update_of_ne hc]
  case single =>
    intro c v u hv hu
    change (Function.update s.thread t _ v).call? = some c at hv
    change (Function.update s.thread t _ u).call? = some c at hu
    have hone : ∀ {z}, (Function.update s.thread t (.waiting b timed) z).call? = some c →
        (c = b ∧ z = t) ∨ (c ≠ b ∧ (s.thread z).call? = some c) := by
      intro z hz
      by_cases hzt : z = t
      · subst z
        rw [Function.update_self] at hz
        exact Or.inl ⟨(Option.some.inj hz).symm, rfl⟩
      · rw [Function.update_of_ne hzt] at hz
        refine Or.inr ⟨?_, hz⟩
        rintro rfl
        exact hg z hz
    rcases hone hv with ⟨hc, rfl⟩ | ⟨hc, hv⟩ <;> rcases hone hu with ⟨hc', rfl⟩ | ⟨hc', hu⟩
    · rfl
    · exact (hc' hc).elim
    · exact (hc hc').elim
    · exact h.single c v u hv hu

theorem waitQueue_eq (h : Inv s) {x : Waiter F T} (hq : s.queue b = x :: q) :
    (s.sched.blocker b).waitQueue = (x :: q).filterMap Waiter.fiber? := by
  rw [← hq, h.fibers]

/-- The only `sync_` in a queue is that of the thread in the call. -/
theorem not_mem_remove [DecidableEq F] (h : Inv s) (ht : (s.thread t).call? = some b) :
    .thread t ∉ (s.queue b).eraseP fun x => x.entry = .sync := by
  intro hm
  obtain ⟨x, l, r, hl, hx, hq, he⟩ := List.exists_of_eraseP
    (p := fun x : Waiter F T => x.entry = .sync) (List.mem_of_mem_eraseP hm) (by simp)
  have hn := h.nodup b
  rw [he] at hm
  cases x with
  | fiber g => exact nomatch of_decide_eq_true hx
  | thread v =>
    obtain rfl := h.single b v t (h.owner b v (by simp [hq])) ht
    rw [hq] at hn
    grind

theorem inv_step [DecidableEq F] [DecidableEq W] [DecidableEq B] [DecidableEq T]
    (hst : Step s e s') (h : Inv s) (hg : Alone s e) : Inv s' := by
  cases hst with
  | wait ht _ _ => exact h.wait ht hg
  | expire ht => exact h.stay (by rw [ht]; rfl) nofun
  | @remove t b ht =>
    have hcall : (s.thread t).call? = some b := by rw [ht]; rfl
    exact h.leave h.sched h.kept (fun _ => rfl) fibers_remove_sync List.eraseP_sublist rfl hcall
      (not_mem_remove h hcall)
  | back ht => exact h.stay (by rw [ht]; rfl) nofun
  | @wakeUpNone a b y _ hq hst =>
    refine h.sched_step hst trivial fun c => ?_
    have hnil : (s.sched.blocker b).waitQueue = [] := by rw [← h.fibers, hq]; rfl
    rw [waitQueue_wakeUp hst, hnil]
    split
    · next hc => rw [hc, hnil]; rfl
    · rfl
  | @wakeUpFiber a b f q y _ hq hst =>
    have hn := h.nodup b
    rw [hq] at hn
    refine h.queue_step hst trivial (fun c => ?_) hn.of_cons fun t => ?_
    · rw [waitQueue_wakeUp hst, waitQueue_eq h hq]
      rfl
    · simp [hq]
  | @wakeUpThread a b t u q timed _ _ hq hu =>
    have hn := h.nodup b
    rw [hq] at hn
    have hcall : (s.thread u).call? = some b := by rw [hu]; rfl
    obtain rfl := h.single b t u (h.owner b t (by simp [hq])) hcall
    refine h.leave (inv_release h.sched) (release_kept h.kept) (fun _ => release_waitQueue)
      ?_ ?_ rfl hcall (List.nodup_cons.mp hn).1
    · simp [hq, List.filterMap_cons]
    · simp [hq]
  | @wakeUpLate a b t q _ _ hq hnone =>
    refine h.drop (inv_release h.sched) (release_kept h.kept) (fun _ => release_waitQueue)
      ?_ ?_ hnone
    · simp [hq, List.filterMap_cons]
    · simp [hq]
  | permit hw hp hst => exact h.sched_step hst trivial fun _ => waitQueue_permit hst hw hp
  | @hung w f b y hw h0 hst =>
    have hnot : Waiter.fiber f ∉ s.queue b := by
      obtain ⟨loc, hl, hf⟩ := h.sched
      rw [fiber_mem, h.fibers]
      exact hf.unlinked hl hw b
    refine h.queue_step hst trivial (fun c => ?_)
      (List.nodup_append.mpr ⟨h.nodup b, List.nodup_singleton _, ?_⟩) fun t => ?_
    · rw [waitQueue_hung hst hw h0, List.filterMap_append, h.fibers]
      rfl
    · rintro y hy z hz rfl
      exact hnot (List.mem_singleton.mp hz ▸ hy)
    · simp
  | @removeFiber f b y hst =>
    refine h.queue_step hst trivial (fun c => ?_) ((h.nodup b).sublist List.eraseP_sublist)
      fun t => ?_
    · rw [waitQueue_remove hst, fibers_remove, h.fibers]
    · exact List.mem_eraseP_of_neg (by simp)
  | other hst ho => exact h.sched_step hst hg fun _ => waitQueue_other hst ho

theorem adds_unlinked (h : Inv s) (hg : Alone s e) : AddsUnlinked s e s' := by
  intro b x hadd
  cases hadd with
  | wait =>
    rintro ⟨t, hm⟩
    exact hg t (h.owner b t hm)
  | hung hw _ =>
    rintro ⟨c, hm⟩
    obtain ⟨loc, hl, hf⟩ := h.sched
    rw [fiber_mem, h.fibers] at hm
    exact hf.unlinked hl hw c hm

/-- Beside a thread that waits, no other may begin to. -/
theorem not_addsUnlinked {timed d : Bool} (h : Inv s) (ht : s.thread t = .waiting b timed) :
    ¬ AddsUnlinked s (.wait u b d) s' := fun ha =>
  ha b (.thread u) .wait ⟨t, h.linked b t timed ht⟩

theorem Inv.waiting (h : Inv s) {x : Waiter F T} (hx : Waiting b x s) : x ∈ s.queue b := by
  cases x with
  | fiber f =>
    rw [fiber_mem, h.fibers]
    exact (h.kept f b hx.1).resolve_right hx.2
  | thread t =>
    obtain ⟨timed, ht⟩ := hx
    exact h.linked b t timed ht

variable [DecidableEq F] [DecidableEq W] [DecidableEq B] [DecidableEq T]

theorem writes_of_tested (h : x.resume a = some (.tested f)) : Writes x a f :=
  ⟨_, .write h, by simp [EFiber.swapIn], by simp⟩

theorem resuming_of_owed (h : Hangs x f b) (ho : Owed x f) : Resuming x f := by
  obtain ⟨a, ha | ha⟩ := ho
  · refine ⟨a, Or.inr ⟨_, .swapIn ha, writes_of_tested ?_⟩⟩
    rw [swapIn_resume_self, if_pos h.suspended]
  · exact ⟨a, Or.inl (writes_of_tested ha)⟩

theorem Inv.queued (h : Inv s) : Queued s where
  once b := by
    refine (h.nodup b).map_on fun x hx y hy he => ?_
    cases x with
    | fiber f =>
      cases y with
      | fiber g => exact congrArg Waiter.fiber (Entry.fiber.inj he)
      | thread t => exact nomatch he
    | thread t =>
      cases y with
      | fiber g => exact nomatch he
      | thread u => exact congrArg Waiter.thread (h.single b t u (h.owner b t hx) (h.owner b u hy))
  waiting _ _ := h.waiting
  hangs b f hf := by
    rw [fiber_mem, h.fibers]
    exact (h.kept f b hf).imp_right (resuming_of_owed hf)
  calls b x hx := by
    cases x with
    | fiber f =>
      rw [fiber_mem, h.fibers] at hx
      obtain ⟨loc, hl, hf⟩ := h.sched
      rcases hf.entry b f hx with ⟨k, hk, _⟩ | ⟨hk, _⟩ | ⟨hk, _, hb, _⟩
      · exact Or.inl ⟨k, hk⟩
      · exact Or.inr (Or.inl hk)
      · exact Or.inr (Or.inr ⟨hk, hb⟩)
    | thread t => exact h.owner b t hx

section

omit [DecidableEq F] [DecidableEq W] [DecidableEq T]

theorem move_setQueue {p : Bool} (hb : c = b → Fifo.Move (s.queue b) p q)
    (hc : c ≠ b → p = false) : Fifo.Move (s.queue c) p (Function.update s.queue b q c) := by
  by_cases h : c = b
  · subst c
    rw [Function.update_self]
    exact hb rfl
  · rw [Function.update_of_ne h, hc h]
    exact .leave (List.Sublist.refl _)

theorem move_take {x : Waiter F T} (hq : s.queue b = x :: q) :
    Fifo.Move (s.queue c) (decide (b = c)) (Function.update s.queue b q c) := by
  refine move_setQueue (fun hc => ?_) fun hc => decide_eq_false (Ne.symm hc)
  rw [hq, decide_eq_true hc.symm]
  exact .take

end

/-- Every step moves each queue first in, first out. -/
theorem move_step (hst : Step s e s') (h : Inv s) (hg : Alone s e) :
    Fifo.Move (s.queue c) (wakes c e) (s'.queue c) := by
  cases hst with
  | @wait t b =>
    exact move_setQueue (fun _ => .push fun hm => hg t (h.owner b t hm)) fun _ => rfl
  | expire | back | permit | other => exact .leave (List.Sublist.refl _)
  | remove | removeFiber =>
    exact move_setQueue (fun _ => .leave List.eraseP_sublist) fun _ => rfl
  | @wakeUpNone a b y _ hq =>
    change Fifo.Move (s.queue c) (decide (b = c)) (s.queue c)
    by_cases hc : b = c
    · rw [decide_eq_true hc, ← hc, hq]
      exact .none
    · rw [decide_eq_false hc]
      exact .leave (List.Sublist.refl _)
  | wakeUpFiber _ hq | wakeUpThread _ _ hq | wakeUpLate _ _ hq => exact move_take hq
  | @hung w f b y hw _ =>
    refine move_setQueue (fun _ => .push fun hm => ?_) fun _ => rfl
    obtain ⟨loc, hl, hf⟩ := h.sched
    rw [fiber_mem, h.fibers] at hm
    exact hf.unlinked hl hw b hm

theorem released (h : Inv s) : Released s := by
  intro b x hx acts t hrun
  have hmoves : Run (Keeping (x ∈ ·) Fifo.Move) (s.queue b) (acts.map (wakes b)) (t.queue b) := by
    refine hrun.map (I := Inv) (r := fun s => s.queue b) ?_ ?_ h
    · exact fun _ _ _ hi hst => inv_step hst.2.1 hi hst.1
    · exact fun _ _ _ hi hst =>
        ⟨move_step hst.2.1 hi hst.1, (inv_step hst.2.1 hi hst.1).waiting hst.2.2⟩
  have hlt := Fifo.count_lt_length hmoves (h.nodup b) (h.waiting hx)
  simpa [List.count, List.countP_map, Function.comp_def] using hlt

theorem inv_run {capacity limit : B → ℕ} {acts : List (Act F W B T)}
    (h : Run (Guarded Alone Step) (initial capacity limit) acts s) : Inv s :=
  h.invariant (fun _ _ _ hi hst => inv_step hst.2 hi hst.1) inv_initial

/-- Wait queue entries are linked once in every run in which threads wait alone and resumed fibers
have been let go. -/
theorem linked_once {capacity limit : B → ℕ} {acts : List (Act F W B T)}
    (h : Run (Guarded Alone Step) (initial capacity limit) acts s) :
    Run (Showing AddsUnlinked Step) (initial capacity limit) acts s ∧ Queued s ∧ Released s := by
  have hi := inv_run h
  refine ⟨h.imp (I := Inv) (fun _ _ _ hi hst => ⟨hst.2, adds_unlinked hi hst.1⟩)
    (fun _ _ _ hi hst => inv_step hst.2 hi hst.1) inv_initial, hi.queued, released hi⟩

/-- A fiber and a thread wait on one blocker. -/
theorem linked_once_mixed : ∃ s : State Unit Unit Unit Bool,
    s.queue () = [.fiber (), .thread true] ∧ Queued s ∧ Released s := by
  have hrun := linked_once (F := Unit) (W := Unit) (B := Unit) (T := Bool) <|
    .guard (s := initial (fun _ => 0) fun _ => 1)
      (.other (.schedule (f := ()) (w := ()) rfl) trivial) trivial <|
    .guard (.other (.poll (w := ()) rfl rfl) trivial) trivial <|
    .guard (.other (.dispatch (w := ()) rfl rfl) trivial) trivial <|
    .guard (.other (.check (w := ()) (f := ()) (b := ()) (k := .wait) ⟨rfl, rfl⟩ rfl rfl) trivial)
      trivial <|
    .guard (.other (.block (w := ()) (f := ()) ⟨rfl, rfl⟩ rfl) trivial) trivial <|
    .guard (.other (.switchBlocked (w := ()) rfl rfl rfl) trivial) trivial <|
    .guard (.hung (w := ()) rfl rfl (.swapOutHung rfl rfl)) trivial <|
    .guard (.wait (t := true) (b := ()) (d := false) rfl rfl rfl) (fun _ => nofun) .refl
  exact ⟨_, rfl, hrun.2⟩

/-- A second thread waits beside a first. A fiber's timed wait ends between the `wakeUp` that has
dequeued it and its `swapIn`, which then resumes the fiber's next wait, whose entry stays. -/
theorem linked_twice :
    (∃ s t : State Unit Unit Unit Bool,
      Run Step (initial (fun _ => 0) fun _ => 1) [.wait false () false] s ∧
      Step s (.wait true () false) t ∧ ¬ AddsUnlinked s (.wait true () false) t) ∧
    ∃ s t : State Unit Unit Unit Unit, Reachable Step (initial (fun _ => 0) fun _ => 1) s ∧
      Step s (.sched (.swapOut ())) t ∧ ¬ AddsUnlinked s (.sched (.swapOut ())) t := by
  constructor
  · refine ⟨_, _, .step (.wait rfl rfl rfl) .refl, .wait rfl rfl rfl, fun h => ?_⟩
    exact h () (.thread true) .wait ⟨false, List.mem_singleton.mpr rfl⟩
  · refine ⟨_, _, ⟨_,
      .step (.other (.schedule (f := ()) (w := ()) rfl) trivial) <|
      .step (.other (.poll (w := ()) rfl rfl) trivial) <|
      .step (.other (.dispatch (w := ()) rfl rfl) trivial) <|
      .step (.other (.check (w := ()) (f := ()) (b := ()) (k := .tryWait true) ⟨rfl, rfl⟩ rfl rfl)
        trivial) <|
      .step (.other (.block (w := ()) (f := ()) ⟨rfl, rfl⟩ rfl) trivial) <|
      .step (.other (.switchBlocked (w := ()) rfl rfl rfl) trivial) <|
      .step (.hung (w := ()) rfl rfl (.swapOutHung rfl rfl)) <|
      .step (.wakeUpFiber (a := .thread ()) (b := ()) rfl rfl (.wakeUpWaiter rfl rfl)) <|
      .step (.other (.pollEmpty (w := ()) rfl rfl) trivial) <|
      .step (.other (.timer (w := ()) (f := ()) ⟨Or.inl rfl, rfl⟩ rfl) trivial) <|
      .step (.other (.write (a := .worker ()) rfl) trivial) <|
      .step (.other (.add (a := .worker ()) (v := ()) rfl rfl) trivial) <|
      .step (.other (.endIdle (w := ()) rfl rfl) trivial) <|
      .step (.other (.poll (w := ()) rfl rfl) trivial) <|
      .step (.other (.dispatch (w := ()) rfl rfl) trivial) <|
      .step (.other (.timedOut (w := ()) (f := ()) ⟨rfl, rfl⟩ (Or.inl rfl) rfl) trivial) <|
      .step (.removeFiber (.removeFalse (w := ()) (f := ()) ⟨rfl, rfl⟩ rfl rfl)) <|
      .step (.other (.check (w := ()) (f := ()) (b := ()) (k := .wait) ⟨rfl, rfl⟩ rfl rfl)
        trivial) <|
      .step (.other (.block (w := ()) (f := ()) ⟨rfl, rfl⟩ rfl) trivial) <|
      .step (.other (.switchBlocked (w := ()) rfl rfl rfl) trivial) <|
      .step (.hung (w := ()) rfl rfl (.swapOutHung rfl rfl)) <|
      .step (.other (.swapIn (a := .thread ()) rfl) trivial) <|
      .step (.other (.write (a := .thread ()) rfl) trivial) <|
      .step (.other (.add (a := .thread ()) (v := ()) rfl rfl) trivial) <|
      .step (.other (.poll (w := ()) rfl rfl) trivial) <|
      .step (.other (.dispatch (w := ()) rfl rfl) trivial) <|
      .step (.other (.waitReturn (w := ()) (f := ()) (b := ()) ⟨rfl, rfl⟩ (Or.inl rfl))
        trivial) <|
      .step (.other (.check (w := ()) (f := ()) (b := ()) (k := .wait) ⟨rfl, rfl⟩ rfl rfl)
        trivial) <|
      .step (.other (.block (w := ()) (f := ()) ⟨rfl, rfl⟩ rfl) trivial) <|
      .step (.other (.switchBlocked (w := ()) rfl rfl rfl) trivial) .refl⟩,
      .hung (w := ()) rfl rfl (.swapOutHung rfl rfl), fun h => ?_⟩
    exact h () (.fiber ()) (.hung rfl rfl) ⟨(), List.mem_singleton.mpr rfl⟩

end CxxFiber.WaitQueue
