import CxxFiber.Scheduler.Join

/-! A fiber runs on the worker whose task queue it was put into first. -/
namespace CxxFiber.Scheduler

variable {F W B T : Type}
  {s t : State F W B T} {home : F → Option W} {f g : F} {w : W} {b : B} {a : Agent F W T}
  {act : Act F W B T} {u : EFiber B W → EFiber B W} {p : WorkerPc F B} {c : EFiberBlocker F}

/-- Every queue, worker and binding that names a fiber is at its home. -/
structure Homed (s : State F W B T) (home : F → Option W) : Prop where
  queue : ∀ w f, f ∈ s.taskQueue w → home f = some w
  worker : ∀ w f, (s.worker w).fiber? = some f → home f = some w
  bound : ∀ f w, (s.fiber f).boundQueue = some w → home f = some w
  new : ∀ f, (s.fiber f).state = .new → home f = none

/-- A fiber gets its home when it is scheduled. -/
def homeAfter [DecidableEq F] (home : F → Option W) : Act F W B T → F → Option W
  | .schedule f w => Function.update home f (some w)
  | _ => home

theorem homed_initial {capacity limit : B → ℕ} :
    Homed (initial capacity limit : State F W B T) fun _ => none := by
  constructor <;> simp [initial, EFiber.create, WorkerPc.fiber?]

theorem Homed.setWorker [DecidableEq W]
    (h : Homed s home) (hp : ∀ f, p.fiber? = some f → home f = some w) :
    Homed (s.setWorker w p) home := by
  refine ⟨h.queue, fun v f hf => ?_, h.bound, h.new⟩
  by_cases hv : v = w
  · subst v
    exact hp f (by simpa using hf)
  · exact h.worker v f (by simpa [hv] using hf)

/-- A worker goes on with the fiber it has, or lets it go. -/
theorem Homed.stage [DecidableEq W] (h : Homed s home) (hw : (s.worker w).fiber? = some f)
    (hp : p.fiber? = some f ∨ p.fiber? = none) : Homed (s.setWorker w p) home := by
  refine h.setWorker fun g hg => ?_
  rcases hp with hp | hp
  · obtain rfl : f = g := Option.some.inj (hp.symm.trans hg)
    exact h.worker w f hw
  · exact (Option.some_ne_none g (hg.symm.trans hp)).elim

theorem Homed.modFiber [DecidableEq F] (h : Homed s home)
    (hb : ∀ w, (u (s.fiber f)).boundQueue = some w → home f = some w)
    (hn : (u (s.fiber f)).state = .new → (s.fiber f).state = .new) :
    Homed (s.modFiber f u) home := by
  refine ⟨h.queue, h.worker, fun g w hg => ?_, fun g hg => ?_⟩
  · by_cases he : g = f
    · subst g
      exact hb w (by simpa using hg)
    · exact h.bound g w (by simpa [he] using hg)
  · by_cases he : g = f
    · subst g
      exact h.new f (hn (by simpa using hg))
    · exact h.new g (by simpa [he] using hg)

/-- What a fiber does with its own record leaves the binding alone. -/
theorem Homed.keep [DecidableEq F] (h : Homed s home)
    (hb : (u (s.fiber f)).boundQueue = (s.fiber f).boundQueue)
    (hn : (u (s.fiber f)).state = .new → (s.fiber f).state = .new) :
    Homed (s.modFiber f u) home :=
  h.modFiber (fun w hw => h.bound f w (hb.symm.trans hw)) hn

theorem Homed.add [DecidableEq W]
    (h : Homed s home) (hf : home f = some w) : Homed (s.add w f) home := by
  refine ⟨fun v g hg => ?_, h.worker, h.bound, h.new⟩
  by_cases hv : v = w
  · subst v
    have hg : g ∈ s.taskQueue w ∨ g = f := by simpa using hg
    rcases hg with hg | rfl
    · exact h.queue w g hg
    · exact hf
  · exact h.queue v g (by simpa [hv] using hg)

theorem Homed.poll [DecidableEq W] {q : List F} (h : Homed s home) (hq : s.taskQueue w = f :: q) :
    Homed ((s.setQueue w q).setWorker w (.polled f)) home := by
  have hf : home f = some w := h.queue w f (by simp [hq])
  have hs : Homed (s.setQueue w q) home := by
    refine ⟨fun v g hg => ?_, h.worker, h.bound, h.new⟩
    by_cases hv : v = w
    · subst v
      exact h.queue w g (by simp [hq, show g ∈ q by simpa using hg])
    · exact h.queue v g (by simpa [hv] using hg)
  refine hs.setWorker fun g hg => ?_
  obtain rfl : f = g := by simpa [WorkerPc.fiber?] using hg
  exact hf

theorem Homed.swapIn [DecidableEq F] [DecidableEq W] [DecidableEq T]
    (h : Homed s home) : Homed (s.swapIn a g) home := by
  rw [swapIn_eq]
  exact ⟨h.queue, h.worker, h.bound, h.new⟩

theorem Homed.write [DecidableEq F] [DecidableEq W] [DecidableEq T]
    (h : Homed s home) {r : Option (Resume F)} :
    Homed ((s.modFiber g EFiber.swapIn).setResume a r) home := by
  have hm := h.keep (f := g) (u := EFiber.swapIn) rfl (by simp [EFiber.swapIn])
  exact ⟨hm.queue, hm.worker, hm.bound, hm.new⟩

theorem Homed.release [DecidableEq F] [DecidableEq B]
    (h : Homed s home) : Homed ((s.setBlocker b c).release b a) home := by
  cases a <;> exact ⟨h.queue, h.worker, h.bound, h.new⟩

theorem Homed.dispatch [DecidableEq F] [DecidableEq W]
    (h : Homed s home) (hw : s.worker w = .polled f) :
    Homed ((s.modFiber f (.bind w)).setWorker w (.running f)) home := by
  have hf : home f = some w := h.worker w f (by rw [hw]; rfl)
  have hm : Homed (s.modFiber f (.bind w)) home := by
    refine h.modFiber (fun v hv => ?_) fun hs => hs
    cases hb : (s.fiber f).boundQueue with
    | none =>
      obtain rfl : w = v := by simpa [EFiber.bind, hb] using hv
      exact hf
    | some v' =>
      obtain rfl : v' = v := by simpa [EFiber.bind, hb] using hv
      exact h.bound f v' hb
  exact hm.stage (f := f) (by simp [hw, WorkerPc.fiber?]) (Or.inl rfl)

theorem Homed.schedule [DecidableEq F] [DecidableEq W]
    (h : Homed s home) (hn : (s.fiber f).state = .new) :
    Homed ((s.modFiber f .schedule).add w f) (Function.update home f (some w)) := by
  -- a new fiber has no home, so nothing names it yet
  have hf := h.new f hn
  have hne : ∀ {g v}, home g = some v → Function.update home f (some w) g = some v := by
    intro g v hg
    have he : g ≠ f := by
      rintro rfl
      simp [hf] at hg
    simpa [he] using hg
  have hs : Homed (s.modFiber f .schedule) (Function.update home f (some w)) := by
    refine ⟨fun v g hg => hne (h.queue v g hg), fun v g hg => hne (h.worker v g hg),
      fun g v hg => ?_, fun g hg => ?_⟩
    · by_cases he : g = f
      · subst g
        exact hne (h.bound f v (by simpa [EFiber.schedule] using hg))
      · exact hne (h.bound g v (by simpa [he] using hg))
    · by_cases he : g = f
      · subst g
        simp [EFiber.schedule] at hg
      · rw [Function.update_of_ne he]
        exact h.new g (by simpa [he] using hg)
  exact hs.add (by simp)

theorem boundQueue_block {r : EFiber B W} {k : WaitKind} :
    (r.block w b k).boundQueue = r.boundQueue := by
  unfold EFiber.block
  split <;> rfl

theorem boundQueue_pollEvents {r : EFiber B W} {timer reads : Bool} :
    (r.pollEvents w timer reads).boundQueue = r.boundQueue := by
  cases timer <;> rfl

theorem boundQueue_pollDone {r : EFiber B W} {reads : Bool} :
    (r.pollDone reads).boundQueue = r.boundQueue ∧ (r.pollDone reads).state = r.state := by
  cases reads <;> exact ⟨rfl, rfl⟩

theorem boundQueue_grant {r : EFiber B W} :
    r.grant.boundQueue = r.boundQueue ∧ r.grant.state = r.state := by
  unfold EFiber.grant
  split <;> exact ⟨rfl, rfl⟩

variable [DecidableEq F] [DecidableEq W] [DecidableEq B] [DecidableEq T]

theorem homed_step (hst : Step s act t) (h : Homed s home) : Homed t (homeAfter home act) := by
  cases hst with
  | schedule hn => exact h.schedule hn
  | poll hw hq => exact h.poll hq
  | pollEmpty | endIdle => exact h.setWorker (by simp [WorkerPc.fiber?])
  | @timer w f => exact (h.keep (f := f) (u := .timeEvent) rfl id).swapIn
  | fileEvent | swapIn => exact h.swapIn
  | write => exact h.write
  | dispatch hw => exact h.dispatch hw
  | yield ha => exact h.stage (by rw [ha.1]; rfl) (Or.inl rfl)
  | @finish w f ha =>
    have hm := h.keep (f := f) (u := .terminate) rfl (by simp [EFiber.terminate])
    exact hm.stage (w := w) (f := f) (by simp [ha.1, WorkerPc.fiber?]) (Or.inl rfl)
  | @block w f b k ha =>
    have hm := h.keep (f := f) (u := .block w b k) boundQueue_block (by simp [EFiber.block])
    exact hm.stage (w := w) (f := f) (by simp [ha.1, WorkerPc.fiber?]) (Or.inl rfl)
  | @sleep w f ha =>
    have hm := h.keep (f := f) (u := .sleep w) rfl (by simp [EFiber.sleep])
    exact hm.stage (w := w) (f := f) (by simp [ha.1, WorkerPc.fiber?]) (Or.inl rfl)
  | @pollEvents w f timer reads ha =>
    have hm := h.keep (f := f) (u := .pollEvents w timer reads) boundQueue_pollEvents
      (by simp [EFiber.pollEvents])
    exact hm.stage (w := w) (f := f) (by simp [ha.1, WorkerPc.fiber?]) (Or.inl rfl)
  | tryWait | tryWaitFail | threadTryWait => exact ⟨h.queue, h.worker, h.bound, h.new⟩
  | @check w f b c k =>
    have hm := h.keep (f := f) (u := .setPc (.checked b k)) rfl id
    exact ⟨hm.queue, hm.worker, hm.bound, hm.new⟩
  | @waitReturn w f =>
    have hm := h.keep (f := f) (u := .setPc .user) rfl id
    exact ⟨hm.queue, hm.worker, hm.bound, hm.new⟩
  | @tryWaitReturn w f =>
    have hm := h.keep (f := f) (u := fun r => (r.cancelTimer.isWaitTimeout).setPc .user) rfl id
    exact ⟨hm.queue, hm.worker, hm.bound, hm.new⟩
  | timedOut | sleepReturn => exact h.keep rfl id
  | @removeTrue w f | @removeFalse w f =>
    have hm := h.keep (f := f) (u := .setPc .user) rfl id
    exact ⟨hm.queue, hm.worker, hm.bound, hm.new⟩
  | pollReturn =>
    exact h.keep boundQueue_pollDone.1 (by rw [boundQueue_pollDone.2]; exact id)
  | switchRunnable hw | switchBlocked hw => exact h.stage (by rw [hw]; rfl) (Or.inl rfl)
  | switchOther hw => exact h.stage (by rw [hw]; rfl) (Or.inr rfl)
  | @swapOutPermit w f b c hw =>
    have hm := h.keep (f := f) (u := .grant) boundQueue_grant.1
      (by rw [boundQueue_grant.2]; exact id)
    have hs := hm.stage (w := w) (f := f) (p := .requeue f) (by simp [hw, WorkerPc.fiber?])
      (Or.inl rfl)
    exact ⟨hs.queue, hs.worker, hs.bound, hs.new⟩
  | @swapOutHung w f b c hw =>
    have hs := h.stage (p := .head) (by rw [hw]; rfl) (Or.inr rfl)
    exact ⟨hs.queue, hs.worker, hs.bound, hs.new⟩
  | @requeue w f hw =>
    have hf := h.worker w f (by rw [hw]; rfl)
    exact (h.add hf).setWorker (by simp [WorkerPc.fiber?])
  | wakeUpRefused | wakeUpCounted => exact h.release
  | @wakeUpWaiter a b c =>
    have hr := h.release (b := b) (c := c) (a := a)
    exact ⟨hr.queue, hr.worker, hr.bound, hr.new⟩
  | @add a g v ha hb =>
    have hm := h.add (h.bound g v hb)
    exact ⟨hm.queue, hm.worker, hm.bound, hm.new⟩

theorem schedule_eq (hst : Step s (.schedule f w) t) :
    (s.fiber f).state = .new ∧ t = (s.modFiber f .schedule).add w f := by
  cases hst with
  | schedule hn => exact ⟨hn, rfl⟩

/-- Only the context switch makes a worker run a fiber. -/
theorem running_step (hst : Step s act t) (hr : t.worker w = .running f)
    (ha : act ≠ .dispatch w) : s.worker w = .running f := by
  have hset : ∀ {v p}, t.worker = Function.update s.worker v p → p ≠ .running f →
      s.worker w = .running f := by
    intro v p ht hp
    rw [ht] at hr
    by_cases hw : w = v
    · subst v
      exact (hp (by simpa using hr)).elim
    · rwa [Function.update_of_ne hw] at hr
  cases hst with
  | poll | pollEmpty | endIdle | yield | finish | block | sleep | pollEvents | switchRunnable
  | switchBlocked | switchOther | swapOutPermit | swapOutHung | requeue =>
    exact hset rfl (by simp)
  | @dispatch v g =>
    have hw : w ≠ v := by
      rintro rfl
      exact ha rfl
    simpa [hw] using hr
  | timer | fileEvent | swapIn =>
    rw [swapIn_worker] at hr
    exact hr
  | @wakeUpRefused a | @wakeUpCounted a | @wakeUpWaiter a => cases a <;> exact hr
  | _ => exact hr

end CxxFiber.Scheduler

namespace CxxFiber.Affinity

open Scheduler (Agent Homed homeAfter homed_step homed_initial)
open Transition

variable {n : ℕ} {F B T : Type}

/-- `join(int)` with what the worker loops write into a fiber beside its `boundQueue`, the argument
`ignoreBalance` of each scheduling call in progress, and the history of the task queues, of the
context switches and of the fibers scheduled by a fiber with `scheduleInheritThread`. -/
structure State (n : ℕ) (F B T : Type) where
  join : Join.State n F B T
  threadIndex : F → Fin (n + 1)
  boundThreadID : F → Option (Fin (n + 1))
  ioWaiter : F → Option (Fin (n + 1))
  ignoreBalance : Agent F (Fin (n + 1)) T → Bool
  puts : List (F × Fin (n + 1))
  runs : List (F × Fin (n + 1))
  inherited : List (F × F)

def initial (capacity limit : B → ℕ) : State n F B T where
  join := Join.initial capacity limit
  threadIndex _ := ⟨0, n.succ_pos⟩
  boundThreadID _ := none
  ioWaiter _ := none
  ignoreBalance _ := false
  puts := []
  runs := []
  inherited := []

/-- The first place in a history of puts. -/
def firstPut {W : Type} [DecidableEq F] (puts : List (F × W)) (f : F) : Option W :=
  (puts.find? fun p => p.1 = f).map Prod.snd

namespace State

variable [DecidableEq F]

/-- The worker whose task queue `f` was put into first. -/
def firstQueue (s : State n F B T) : F → Option (Fin (n + 1)) := firstPut s.puts

/-- `index` in `scheduleIgnoreBalance(fiber, true)`: only a worker that runs a fiber has an active
one. -/
def index (s : State n F B T) : Agent F (Fin (n + 1)) T → Fin (n + 1)
  | .fiber g => s.threadIndex g
  | _ => ⟨0, n.succ_pos⟩

/-- `scheduleIgnoreBalance` may choose `w`: any worker by `balanceCallback` or `balanceIndex`. -/
def MayPut (s : State n F B T) : Join.Act n F B T → Fin (n + 1) → Prop
  | .addCall a, w => s.ignoreBalance a = true → w = s.index a
  | _, _ => True

/-- The pair recorded when a scheduling call of a fiber puts `f` into a queue. -/
def inherits (s : State n F B T) : Join.Act n F B T → F → List (F × F)
  | .addCall (.fiber g), f => if s.ignoreBalance (.fiber g) then [(f, g)] else []
  | _, _ => []

/-- The worker's writes before the context switch. -/
@[simp] def bind (s : State n F B T) (w : Fin (n + 1)) (f : F) : State n F B T :=
  { s with
    threadIndex := Function.update s.threadIndex f w
    boundThreadID := Function.update s.boundThreadID f (some w)
    ioWaiter := Function.update s.ioWaiter f (some w) }

end State

/-- The step has put `f` at the end of the task queue of `w`. -/
def Puts (s u : Join.State n F B T) (f : F) (w : Fin (n + 1)) : Prop :=
  u.sched.taskQueue w = s.sched.taskQueue w ++ [f]

inductive Act (n : ℕ) (F B T : Type)
  | call (a : Agent F (Fin (n + 1)) T) (f : F) (ignoreBalance : Bool)
  | join (act : Join.Act n F B T)
  deriving DecidableEq, Repr

/-- The steps of `join` that write more than its own state. -/
def Writes : Join.Act n F B T → Prop
  | .countCall _ _ | .sched (.dispatch _) => True
  | _ => False

variable [DecidableEq F] [DecidableEq B] [DecidableEq T]

inductive Step (s : State n F B T) : Act n F B T → State n F B T → Prop
  | call {a f ignoreBalance u} : Join.Step s.join (.countCall a f) u →
      Step s (.call a f ignoreBalance)
        { s with
          join := u, ignoreBalance := Function.update s.ignoreBalance a ignoreBalance }
  | put {a f w u} : Join.Step s.join a u → Puts s.join u f w → s.MayPut a w →
      Step s (.join a)
        { s with
          join := u, puts := s.puts ++ [(f, w)], inherited := s.inherited ++ s.inherits a f }
  | run {w f u} : s.join.sched.worker w = .polled f →
      Join.Step s.join (.sched (.dispatch w)) u →
      Step s (.join (.sched (.dispatch w)))
        { s.bind w f with join := u, runs := s.runs ++ [(f, w)] }
  | other {a u} : ¬ Writes a → Join.Step s.join a u → (∀ f w, ¬ Puts s.join u f w) →
      Step s (.join a) { s with join := u }

/-- Every run of a fiber and every put of it is on the worker of its first queue, which the fields
written by that worker name, and a fiber scheduled with `scheduleInheritThread` by a fiber runs
where that one has run. -/
structure Affine (s : State n F B T) : Prop where
  put : ∀ f w, (f, w) ∈ s.puts → s.firstQueue f = some w
  run : ∀ f w, (f, w) ∈ s.runs → s.firstQueue f = some w
  bound : ∀ f w, s.boundThreadID f = some w →
    s.firstQueue f = some w ∧ s.ioWaiter f = some w ∧ s.threadIndex f = w
  inherited : ∀ f g, (f, g) ∈ s.inherited →
    ∃ v, (g, v) ∈ s.runs ∧ ∀ w, (f, w) ∈ s.runs → w = v

variable {s t : State n F B T} {x y : Join.State n F B T} {f g : F} {v w : Fin (n + 1)}
  {home : F → Option (Fin (n + 1))} {a : Act n F B T} {act : Join.Act n F B T}
  {as : List (Act n F B T)} {capacity limit : B → ℕ}

theorem firstPut_of_none {W : Type} {puts : List (F × W)} {v : W} (h : firstPut puts f = none) :
    firstPut (puts ++ [(f, v)]) = Function.update (firstPut puts) f (some v) := by
  funext g
  have hf : puts.find? (fun p => p.1 = f) = none := by simpa [firstPut] using h
  by_cases hg : g = f
  · subst g
    simp [firstPut, List.find?_append, hf]
  · simp [firstPut, List.find?_append, hg, Ne.symm hg]

theorem firstPut_of_some {W : Type} {puts : List (F × W)} {v : W} (h : firstPut puts f = some v) :
    firstPut (puts ++ [(f, v)]) = firstPut puts := by
  funext g
  by_cases hg : g = f
  · subst g
    obtain ⟨p, hp, _⟩ := Option.map_eq_some_iff.mp h
    simp [firstPut, List.find?_append, hp]
  · simp [firstPut, List.find?_append, Ne.symm hg]

theorem Puts.schedule (hst : Scheduler.Step x.sched (.schedule f w) y.sched)
    (hp : Puts x y g v) : g = f ∧ v = w := by
  have hy := (Scheduler.schedule_eq hst).2
  rw [Puts, hy] at hp
  by_cases hv : v = w
  · subst v
    exact ⟨by simpa [eq_comm] using hp, rfl⟩
  · simp [hv] at hp

theorem puts_schedule (hst : Scheduler.Step x.sched (.schedule f w) y.sched) : Puts x y f w := by
  rw [Puts, (Scheduler.schedule_eq hst).2]
  simp

/-- A step of `join` schedules a fiber that has no home yet, or leaves the homes as they are. -/
theorem homed_join (hst : Join.Step x act y) (h : Homed x.sched home) :
    (∃ f w, Scheduler.Step x.sched (.schedule f w) y.sched ∧ home f = none ∧
      Homed y.sched (Function.update home f (some w))) ∨ Homed y.sched home := by
  cases hst with
  | @dispatch f q w u _ _ hu | @addCall _ f w u _ hu =>
    exact Or.inl ⟨f, w, hu, h.new f (Scheduler.schedule_eq hu).1, homed_step hu h⟩
  | poll _ hu | pollEmpty _ _ hu | clearHung _ hu => exact Or.inr (homed_step hu h)
  | @sched act u ho hm hu =>
    have hy := homed_step hu h
    cases act with
    | schedule => exact (ho trivial).elim
    | _ => exact Or.inr hy
  | _ => exact Or.inr h

/-- What holds of the histories in every reachable state. -/
structure Inv (s : State n F B T) : Prop where
  homed : Homed s.join.sched s.firstQueue
  put : ∀ f w, (f, w) ∈ s.puts → s.firstQueue f = some w
  run : ∀ f w, (f, w) ∈ s.runs ↔ s.boundThreadID f = some w
  bound : ∀ f w, s.boundThreadID f = some w →
    s.firstQueue f = some w ∧ s.ioWaiter f = some w ∧ s.threadIndex f = w
  running : ∀ w f, s.join.sched.worker w = .running f → s.boundThreadID f = some w
  calling : ∀ g, s.join.call (.fiber g) ≠ .idle → ∃ v, s.boundThreadID g = some v
  inherited : ∀ f g, (f, g) ∈ s.inherited →
    ∃ v, s.boundThreadID g = some v ∧ s.firstQueue f = some v

section

omit [DecidableEq B] [DecidableEq T]

theorem inv_initial : Inv (initial capacity limit : State n F B T) where
  homed := homed_initial
  put := by simp [initial]
  run := by simp [initial]
  bound := by simp [initial]
  running := by simp [initial, Join.initial, Scheduler.initial]
  calling := by simp [initial, Join.initial]
  inherited := by simp [initial]

theorem Inv.affine (h : Inv s) : Affine s where
  put := h.put
  run f w hf := (h.bound f w ((h.run f w).mp hf)).1
  bound := h.bound
  inherited f g hf := by
    obtain ⟨v, hg, hq⟩ := h.inherited f g hf
    refine ⟨v, (h.run g v).mpr hg, fun w hw => ?_⟩
    have hw := (h.bound f w ((h.run f w).mp hw)).1
    exact Option.some.inj (hw.symm.trans hq)

end

/-- Only the context switch makes a worker run a fiber. -/
theorem running_step (hst : Join.Step x act y) (hr : y.sched.worker w = .running f)
    (ha : act ≠ .sched (.dispatch w)) : x.sched.worker w = .running f := by
  cases hst with
  | dispatch _ _ hu | addCall _ hu | poll _ hu | pollEmpty _ _ hu | clearHung _ hu =>
    exact Scheduler.running_step hu hr (by simp)
  | sched _ _ hu => exact Scheduler.running_step hu hr fun he => ha (congrArg _ he)
  | _ => exact hr

theorem calling_step (hst : Join.Step x act y) (hc : y.call (.fiber g) ≠ .idle) :
    x.call (.fiber g) ≠ .idle ∨ ∃ w, x.sched.worker w = .running g := by
  have hset : ∀ {b c}, y.call = Function.update x.call b c → x.call b ≠ .idle →
      x.call (.fiber g) ≠ .idle := by
    intro b c hy hb
    by_cases hg : .fiber g = b
    · subst b
      exact hb
    · rwa [hy, Function.update_of_ne hg] at hc
  cases hst with
  | @countCall b f _ hm hb =>
    by_cases hg : .fiber g = b
    · subst b
      obtain ⟨⟨w, hw⟩, _⟩ := hm
      exact Or.inr ⟨w, hw.1⟩
    · exact Or.inl (by simpa [hg] using hc)
  | addCall hb | readHung hb | readNull hb | signalCall hb =>
    exact Or.inl (hset rfl (by simp [hb]))
  | _ => exact Or.inl hc

/-- Whatever a step of `join` does, its writes to the fibers and the histories apart. -/
theorem Inv.join (h : Inv s) (hst : Join.Step s.join act y) (hy : Homed y.sched s.firstQueue)
    (ha : ∀ w, act ≠ .sched (.dispatch w)) : Inv { s with join := y } where
  homed := hy
  put := h.put
  run := h.run
  bound := h.bound
  running w f hw := h.running w f (running_step hst hw (ha w))
  calling g hg := by
    rcases calling_step hst hg with hg | ⟨w, hw⟩
    · exact h.calling g hg
    · exact ⟨w, h.running w g hw⟩
  inherited := h.inherited

theorem dispatch_eq (hst : Join.Step x (.sched (.dispatch w)) y)
    (hw : x.sched.worker w = .polled f) :
    y.call = x.call ∧
      y.sched = (x.sched.modFiber f (.bind w)).setWorker w (.running f) := by
  cases hst with
  | sched _ _ hu =>
    cases hu with
    | @dispatch v g hg =>
      obtain rfl : g = f := by simpa using hg.symm.trans hw
      exact ⟨rfl, rfl⟩

/-- A put is at the home of its fiber, which is new only if the fiber had none. -/
theorem Inv.putHome (h : Inv s) (hst : Join.Step s.join act y) (hp : Puts s.join y f w) :
    Homed y.sched (firstPut (s.puts ++ [(f, w)])) ∧ firstPut (s.puts ++ [(f, w)]) f = some w ∧
      ∀ g v, s.firstQueue g = some v → firstPut (s.puts ++ [(f, w)]) g = some v := by
  rcases homed_join hst h.homed with ⟨f', w', hs, hn, hh⟩ | hh
  · obtain ⟨rfl, rfl⟩ := hp.schedule hs
    rw [firstPut_of_none hn]
    refine ⟨hh, by simp, fun g v hg => ?_⟩
    have hgf : g ≠ f := by
      rintro rfl
      simp [hn] at hg
    rwa [Function.update_of_ne hgf]
  · have hf : firstPut s.puts f = some w := by
      refine hh.queue w f ?_
      rw [hp]
      simp
    rw [firstPut_of_some hf]
    exact ⟨hh, hf, fun _ _ hg => hg⟩

/-- A scheduling call of a fiber puts into the queue of the worker that runs the fiber. -/
theorem Inv.inherits (h : Inv s) (hst : Join.Step s.join act y) (hm : s.MayPut act w)
    (hf : (f, g) ∈ s.inherits act f) : s.boundThreadID g = some w := by
  cases hst with
  | @addCall a f' w' u hc =>
    cases a with
    | fiber g' =>
      cases hi : s.ignoreBalance (.fiber g') with
      | false => simp [State.inherits, hi] at hf
      | true =>
        obtain rfl : g = g' := by simpa [State.inherits, hi] using hf
        obtain ⟨v, hv⟩ := h.calling g (by simp [hc])
        have hw : w = s.threadIndex g := hm hi
        rw [hv, hw, (h.bound g v hv).2.2]
    | worker v | thread v => simp [State.inherits] at hf
  | _ => simp [State.inherits] at hf

theorem Inv.putStep (h : Inv s) (hst : Join.Step s.join act y) (hp : Puts s.join y f w)
    (hm : s.MayPut act w) :
    Inv { s with
      join := y, puts := s.puts ++ [(f, w)], inherited := s.inherited ++ s.inherits act f } := by
  obtain ⟨hh, hf, hkeep⟩ := h.putHome hst hp
  have ha : ∀ v, act ≠ .sched (.dispatch v) := by
    rintro v rfl
    cases hst with
    | sched _ _ hu =>
      cases hu
      simp [Puts] at hp
  constructor
  case homed => exact hh
  case put =>
    intro g v hg
    rcases List.mem_append.mp hg with hg | hg
    · exact hkeep g v (h.put g v hg)
    · obtain ⟨rfl, rfl⟩ : g = f ∧ v = w := by simpa using hg
      exact hf
  case run => exact h.run
  case bound =>
    intro g v hg
    obtain ⟨hq, hrest⟩ := h.bound g v hg
    exact ⟨hkeep g v hq, hrest⟩
  case running => exact fun v g hv => h.running v g (running_step hst hv (ha v))
  case calling =>
    intro g hg
    rcases calling_step hst hg with hg | ⟨v, hv⟩
    · exact h.calling g hg
    · exact ⟨v, h.running v g hv⟩
  case inherited =>
    intro g g' hg
    rcases List.mem_append.mp hg with hg | hg
    · obtain ⟨v, hb, hq⟩ := h.inherited g g' hg
      exact ⟨v, hb, hkeep g v hq⟩
    · have hgf : g = f := by
        unfold State.inherits at hg
        split at hg
        · split at hg <;> simp_all
        · simp at hg
      subst g
      exact ⟨w, h.inherits hst hm hg, hf⟩

theorem Inv.dispatch (h : Inv s) (hw : s.join.sched.worker w = .polled f)
    (hst : Join.Step s.join (.sched (.dispatch w)) y) :
    Inv { s.bind w f with join := y, runs := s.runs ++ [(f, w)] } := by
  obtain ⟨hc, hs⟩ := dispatch_eq hst hw
  have hf : s.firstQueue f = some w := h.homed.worker w f (by rw [hw]; rfl)
  -- a fiber that was bound before is bound to the same worker again
  have hsame : ∀ v, s.boundThreadID f = some v → v = w := by
    intro v hv
    exact Option.some.inj ((h.bound f v hv).1.symm.trans hf)
  have hkeep : ∀ {g v}, s.boundThreadID g = some v →
      Function.update s.boundThreadID f (some w) g = some v := by
    intro g v hg
    by_cases hgf : g = f
    · subst g
      simp [hsame v hg]
    · simpa [hgf] using hg
  constructor
  case homed => exact hs ▸ h.homed.dispatch hw
  case put => exact h.put
  case run =>
    intro g v
    by_cases hgf : g = f
    · subst g
      simp only [List.mem_append, h.run, List.mem_singleton, State.bind, Function.update_self]
      constructor
      · rintro (hv | hv)
        · rw [hsame v hv]
        · simp_all
      · rintro hv
        obtain rfl : w = v := by simpa using hv
        exact Or.inr rfl
    · simp [h.run, hgf]
  case bound =>
    intro g v hg
    by_cases hgf : g = f
    · subst g
      obtain rfl : w = v := by simpa using hg
      exact ⟨hf, by simp, by simp⟩
    · obtain ⟨hq, hi, ht⟩ := h.bound g v (by simpa [hgf] using hg)
      exact ⟨hq, by simpa [hgf] using hi, by simpa [hgf] using ht⟩
  case running =>
    intro v g hv
    by_cases hvw : v = w
    · subst v
      obtain rfl : f = g := by simpa [hs] using hv
      simp
    · exact hkeep (h.running v g (by simpa [hs, hvw] using hv))
  case calling =>
    intro g hg
    obtain ⟨v, hv⟩ := h.calling g (by simpa [hc] using hg)
    exact ⟨v, hkeep hv⟩
  case inherited =>
    intro g g' hg
    obtain ⟨v, hb, hq⟩ := h.inherited g g' hg
    exact ⟨v, hkeep hb, hq⟩

theorem inv_step (hst : Step s a t) (h : Inv s) : Inv t := by
  cases hst with
  | @call b f ignoreBalance u hu =>
    have hu' : Homed u.sched s.firstQueue := by
      cases hu
      exact h.homed
    have hi := h.join hu hu' (by simp)
    exact ⟨hi.homed, hi.put, hi.run, hi.bound, hi.running, hi.calling, hi.inherited⟩
  | put hu hp hm => exact h.putStep hu hp hm
  | run hw hu => exact h.dispatch hw hu
  | @other act u hn hu hp =>
    refine h.join hu ?_ ?_
    · rcases homed_join hu h.homed with ⟨f, w, hs, _⟩ | hh
      · exact (hp f w (puts_schedule hs)).elim
      · exact hh
    · rintro w rfl
      exact hn trivial

/-- The histories leave no step of `join` out, except that they hold `scheduleInheritThread` to its
queue. -/
theorem step_of_join (hst : Join.Step s.join act y)
    (hm : ∀ f w, Puts s.join y f w → s.MayPut act w) : ∃ a t, Step s a t ∧ t.join = y := by
  by_cases hp : ∃ f w, Puts s.join y f w
  · obtain ⟨f, w, hp⟩ := hp
    exact ⟨_, _, .put hst hp (hm f w hp), rfl⟩
  · by_cases hw : Writes act
    · cases hst with
      | @countCall a f hc hs hi hl =>
        exact ⟨.call a f false, _, .call (.countCall hc hs hi hl), rfl⟩
      | @sched b u ho hs hu =>
        cases hu with
        | dispatch hd hr => exact ⟨_, _, .run hd (.sched ho hs (.dispatch hd hr)), rfl⟩
        | _ => exact hw.elim
      | _ => exact hw.elim
    · exact ⟨_, _, .other hw hst fun f w h => hp ⟨f, w, h⟩, rfl⟩

theorem runs_on_first_worker (h : Run Step (initial capacity limit : State n F B T) as s) :
    Affine s :=
  (Run.invariant (fun _ _ _ hi hst => inv_step hst hi) h inv_initial).affine

/-- Two workers: fiber 0 runs on worker 1 and schedules fiber 1 with `scheduleInheritThread`. -/
theorem runs_on_first_worker_inherited : ∃ s : State 1 (Fin 2) Unit Unit,
    s.runs = [(0, 1)] ∧ s.puts = [(0, 1), (1, 1)] ∧ s.inherited = [(1, 0)] ∧ Affine s := by
  refine ⟨_, ?_, ?_, ?_, runs_on_first_worker <|
    .step (.other (s := initial (fun _ => 0) fun _ => 1) id (.schedule (f := 0) rfl rfl)
      (by simp [Puts])) <|
    .step (.other id (.callJoin rfl) (by simp [Puts])) <|
    .step (.put (f := 0) (w := 1) (.dispatch rfl rfl (.schedule (w := 1) rfl)) rfl trivial) <|
    .step (.other id (.dispatched rfl rfl) (by simp [Puts])) <|
    .step (.other id (.start (i := 0) (by decide) rfl) (by simp [Puts])) <|
    .step (.other id (.count (w := 1) rfl rfl) (by simp [Puts])) <|
    .step (.other id (.poll (w := 1) rfl (.poll (f := 0) rfl rfl)) (by simp [Puts])) <|
    .step (.run (w := 1) (f := 0) rfl (.sched id trivial (.dispatch rfl rfl))) <|
    .step (show Step _ (.call (.fiber 0) 1 true) _ from
      .call (.countCall (by simp) ⟨⟨1, rfl, rfl⟩, rfl⟩ rfl rfl)) <|
    .step (.put (f := 1) (w := 1) (.addCall (a := .fiber 0) rfl (.schedule (w := 1) rfl)) rfl
      fun _ => rfl) .refl⟩
  · rfl
  · rfl
  · rfl

end CxxFiber.Affinity
