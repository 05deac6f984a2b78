import CxxFiber.Scheduler.RunQueue

/-! A fiber that runs is RUNNABLE without a blocker, so a plain yield re-queues it. -/
namespace CxxFiber.Scheduler

open Transition

variable {F W B T : Type}
  {s t : State F W B T} {f g : F} {w v : W} {b : B} {a : Agent F W T} {p : WorkerPc F B}
  {u : EFiber B W → EFiber B W} {k : WaitKind} {r r' : EFiber B W}
  {capacity limit : B → ℕ} {act : Act F W B T} {acts : List (Act F W B T)}

/-- No `swapOut` finds a permit, no `swapIn` that follows a `wakeUp` comes late, and neither it nor
a timer tests a fiber that the other has tested and not yet made runnable. -/
def NoLatePermit (s : State F W B T) : Act F W B T → Prop
  | .swapOut w => ∀ f b, s.worker w = .swapOut f b → (s.blocker b).wakeup = 0
  | .timer _ f => Untested s f
  | .swapIn a => ∀ g n, s.resume a = some (.owed g n) → (s.fiber g).suspended = true →
      n = (s.fiber g).suspensions ∧ Untested s g
  | _ => True

def Ready (r : EFiber B W) : Prop := r.state = .runnable ∧ r.blocker = none

/-- Has given the context back to be parked or retired. -/
def Leaving (r : EFiber B W) : Prop := r.state ≠ .runnable ∧ r.pc ≠ .user

def StageOk (r : EFiber B W) : WorkerPc F B → Prop
  | .head | .idle => True
  | .polled _ | .running _ | .requeue _ => Ready r
  | .switching _ | .swapOut _ _ => Ready r ∨ Leaving r

structure Clean (s : State F W B T) : Prop where
  queued : ∀ w f, f ∈ s.taskQueue w → Ready (s.fiber f)
  adding : ∀ a f, s.resume a = some (.adding f) → Ready (s.fiber f)
  worker : ∀ w f, (s.worker w).fiber? = some f → StageOk (s.fiber f) (s.worker w)
  fresh : ∀ f, (s.fiber f).state = .new → (s.fiber f).blocker = none
  ungranted : ∀ f b k, (s.fiber f).pc ≠ .granted b k

/-- What a fiber's code may rely on, and what a plain yield of it leads to. -/
structure PlainYields [DecidableEq F] [DecidableEq W] [DecidableEq B] [DecidableEq T]
    (s : State F W B T) : Prop where
  running : ∀ w f, s.worker w = .running f → Ready (s.fiber f)
  yielded : ∀ w f, s.worker w = .switching f → (s.fiber f).pc = .user →
    ∀ t, Step s (.switch w) t ↔ t = s.setWorker w (.requeue f)
  parked : ∀ w f b, s.worker w = .swapOut f b → ∃ k, (s.fiber f).pc = .parked b k

theorem StageOk.ready (h : Ready r) : StageOk r p := by
  cases p with
  | head | idle => trivial
  | polled f | running f | requeue f => exact h
  | switching f | swapOut f b => exact Or.inl h

theorem StageOk.keep (h : StageOk r p) (hr : Ready r → Ready r')
    (hl : Leaving r → Ready r' ∨ Leaving r') : StageOk r' p := by
  cases p with
  | head | idle => trivial
  | polled f | running f | requeue f => exact hr h
  | switching f | swapOut f b =>
    rcases h with h | h
    · exact Or.inl (hr h)
    · exact hl h

theorem clean_initial : Clean (initial capacity limit : State F W B T) := by
  constructor <;> simp [initial, EFiber.create, WorkerPc.fiber?]

/-- Only `f` changes its fields, and what is new to a queue or to an `add` is ready. -/
theorem Clean.move [DecidableEq F] (h : Clean s) (hg : ∀ g, g ≠ f → t.fiber g = s.fiber g)
    (hr : Ready (s.fiber f) → Ready (t.fiber f))
    (hl : Leaving (s.fiber f) → Ready (t.fiber f) ∨ Leaving (t.fiber f))
    (hn : (t.fiber f).state = .new → (t.fiber f).blocker = none)
    (hu : ∀ b k, (t.fiber f).pc ≠ .granted b k)
    (hq : ∀ w g, g ∈ t.taskQueue w → g ∈ s.taskQueue w ∨ Ready (t.fiber g))
    (ha : ∀ a g, t.resume a = some (.adding g) →
      s.resume a = some (.adding g) ∨ Ready (t.fiber g))
    (hw : ∀ w g, (t.worker w).fiber? = some g →
      t.worker w = s.worker w ∨ StageOk (t.fiber g) (t.worker w)) : Clean t := by
  have hready : ∀ g, Ready (s.fiber g) → Ready (t.fiber g) := by
    intro g hs
    by_cases hgf : g = f
    · subst g
      exact hr hs
    · rwa [hg g hgf]
  refine ⟨fun w g hm => ?_, fun a g hm => ?_, fun w g hm => ?_, fun g => ?_, fun g => ?_⟩
  · rcases hq w g hm with hm | hm
    · exact hready g (h.queued w g hm)
    · exact hm
  · rcases ha a g hm with hm | hm
    · exact hready g (h.adding a g hm)
    · exact hm
  · rcases hw w g hm with he | hok
    · rw [he] at hm ⊢
      refine (h.worker w g hm).keep (hready g) fun hlv => ?_
      by_cases hgf : g = f
      · subst g
        exact hl hlv
      · exact Or.inr (by rwa [hg g hgf])
    · exact hok
  · by_cases hgf : g = f
    · subst g
      exact hn
    · simpa only [hg g hgf] using h.fresh g
  · by_cases hgf : g = f
    · subst g
      exact hu
    · simpa only [hg g hgf] using h.ungranted g

/-- Only blockers and history change. -/
theorem Clean.frame (h : Clean s) (hf : t.fiber = s.fiber) (hq : t.taskQueue = s.taskQueue)
    (hw : t.worker = s.worker) (hr : t.resume = s.resume) : Clean t := by
  refine ⟨?_, ?_, ?_, ?_, ?_⟩
  · simpa only [hf, hq] using h.queued
  · simpa only [hf, hr] using h.adding
  · simpa only [hf, hw] using h.worker
  · simpa only [hf] using h.fresh
  · simpa only [hf] using h.ungranted

/-- Only the stage of `w` changes. -/
theorem Clean.stage [DecidableEq W]
    (h : Clean s) (hp : ∀ f, p.fiber? = some f → StageOk (s.fiber f) p) :
    Clean (s.setWorker w p) := by
  refine ⟨h.queued, h.adding, fun v g hm => ?_, h.fresh, h.ungranted⟩
  by_cases hv : v = w
  · subst v
    simp only [State.setWorker, Function.update_self] at hm ⊢
    exact hp g hm
  · simp only [State.setWorker, Function.update_of_ne hv] at hm ⊢
    exact h.worker v g hm

/-- Steps of a running fiber that stays with its worker. -/
theorem Clean.local [DecidableEq F] (h : Clean s) (ha : s.Active w f)
    (hs : (u (s.fiber f)).state = (s.fiber f).state)
    (hb : (u (s.fiber f)).blocker = (s.fiber f).blocker)
    (hp : ∀ b k, (u (s.fiber f)).pc ≠ .granted b k) : Clean (s.modFiber f u) := by
  have hr : Ready (s.fiber f) := by
    have := h.worker w f (by rw [ha.1]; rfl)
    rwa [ha.1] at this
  have hr' : Ready (u (s.fiber f)) := ⟨hs.trans hr.1, hb.trans hr.2⟩
  refine h.move (f := f) (fun g hg => by simp [hg]) (fun _ => by simpa using hr')
    (fun _ => Or.inl (by simpa using hr')) (fun _ => by simpa using hr'.2) (by simpa using hp)
    (fun _ _ => Or.inl) (fun _ _ => Or.inl) (fun _ _ _ => Or.inl rfl)

/-- Steps of a running fiber that give the context back to be parked or retired. -/
theorem Clean.leave [DecidableEq F] [DecidableEq W]
    (h : Clean s) (hx : RunQueuesExclusive s) (ha : s.Active w f)
    (hl : Leaving (u (s.fiber f))) (hn : (u (s.fiber f)).state ≠ .new)
    (hp : ∀ b k, (u (s.fiber f)).pc ≠ .granted b k) :
    Clean ((s.modFiber f u).setWorker w (.switching f)) := by
  have hw : (s.worker w).fiber? = some f := by rw [ha.1]; rfl
  refine ⟨fun v g hm => ?_, fun a g hm => ?_, fun v g hm => ?_, fun g hg => ?_, fun g => ?_⟩
  · have hgf : g ≠ f := by
      rintro rfl
      exact hx.polled g w v hw hm
    simpa [hgf] using h.queued v g hm
  · have hgf : g ≠ f := by
      rintro rfl
      exact (hx.adding a g hm).2 w hw
    simpa [hgf] using h.adding a g hm
  · by_cases hv : v = w
    · subst v
      have hgf : f = g := by simpa [WorkerPc.fiber?] using hm
      subst g
      simpa [StageOk] using Or.inr hl
    · have hm' : (s.worker v).fiber? = some g := by simpa [hv] using hm
      have hgf : g ≠ f := by
        rintro rfl
        exact hv (hx.single g v w hm' hw)
      simpa [hv, hgf] using h.worker v g hm'
  · by_cases hgf : g = f
    · subst g
      exact absurd (by simpa using hg) hn
    · simpa [hgf] using h.fresh g (by simpa [hgf] using hg)
  · by_cases hgf : g = f
    · subst g
      simpa using hp
    · simpa [hgf] using h.ungranted g

/-- `swapIn` makes a fiber ready. -/
theorem Clean.write [DecidableEq F] [DecidableEq W] [DecidableEq T] (h : Clean s) :
    Clean ((s.modFiber g EFiber.swapIn).setResume a (some (.adding g))) := by
  have hr : Ready (s.fiber g).swapIn := ⟨rfl, rfl⟩
  refine h.move (f := g) (fun f hf => by simp [hf]) (fun _ => by simpa using hr)
    (fun _ => Or.inl (by simpa using hr)) (fun _ => by simp [EFiber.swapIn])
    (by simpa [EFiber.swapIn] using h.ungranted g) (fun _ _ => Or.inl) (fun a' f hm => ?_)
    (fun _ _ _ => Or.inl rfl)
  by_cases haa : a' = a
  · subst a'
    have hgf : g = f := by simpa using hm
    subst f
    exact Or.inr (by simpa using hr)
  · exact Or.inl (by simpa [haa] using hm)

theorem Clean.timeEvent [DecidableEq F] (h : Clean s) : Clean (s.modFiber f .timeEvent) := by
  refine h.move (f := f) (fun g hg => by simp [hg]) ?_ ?_ ?_ ?_
    (fun _ _ => Or.inl) (fun _ _ => Or.inl) (fun _ _ _ => Or.inl rfl) <;>
    simp only [State.modFiber, Function.update_self]
  · exact id
  · exact Or.inr
  · exact h.fresh f
  · exact h.ungranted f

/-- A ready fiber joins a run queue. -/
theorem Clean.add [DecidableEq F] [DecidableEq W]
    (h : Clean s) (hr : Ready (s.fiber f)) : Clean (s.add w f) := by
  refine h.move (f := f) (fun _ _ => rfl) id Or.inr (h.fresh f) (h.ungranted f)
    (fun v g hm => ?_) (fun _ _ => Or.inl) (fun _ _ _ => Or.inl rfl)
  by_cases hv : v = w
  · subst v
    simp only [State.add, State.setQueue, Function.update_self, List.mem_append,
      List.mem_singleton] at hm
    rcases hm with hm | rfl
    · exact Or.inl hm
    · exact Or.inr hr
  · exact Or.inl (by simpa [hv] using hm)

/-- An agent that adds nothing afterwards. -/
theorem Clean.quiet [DecidableEq F] [DecidableEq W] [DecidableEq T]
    (h : Clean s) {x : Option (Resume F)} (hx : ∀ g, x ≠ some (.adding g)) :
    Clean (s.setResume a x) := by
  refine ⟨h.queued, fun a' g hm => ?_, h.worker, h.fresh, h.ungranted⟩
  by_cases haa : a' = a
  · subst a'
    exact absurd (by simpa using hm) (hx g)
  · exact h.adding a' g (by simpa [haa] using hm)

theorem Clean.swapIn [DecidableEq F] [DecidableEq W] [DecidableEq T]
    (h : Clean s) : Clean (s.swapIn a g) := by
  rw [swapIn_eq]
  refine h.quiet fun f => ?_
  split <;> simp

theorem Clean.poll [DecidableEq W] {q : List F} (h : Clean s) (hq : s.taskQueue w = f :: q) :
    Clean ((s.setQueue w q).setWorker w (.polled f)) := by
  have hf : Ready (s.fiber f) := h.queued w f (by simp [hq])
  refine Clean.stage (s := s.setQueue w q) ⟨fun v g hm => ?_, h.adding, h.worker, h.fresh,
    h.ungranted⟩ fun g hg => ?_
  · by_cases hv : v = w
    · subst v
      exact h.queued w g (by simp_all)
    · exact h.queued v g (by simpa [hv] using hm)
  · obtain rfl : f = g := by simpa [WorkerPc.fiber?] using hg
    exact hf

theorem Clean.schedule [DecidableEq F] [DecidableEq W]
    (h : Clean s) (hn : (s.fiber f).state = .new) :
    Clean ((s.modFiber f .schedule).add w f) := by
  have hr : Ready (s.fiber f).schedule := ⟨rfl, h.fresh f hn⟩
  refine Clean.add (s := s.modFiber f .schedule) ?_ (by simpa using hr)
  refine h.move (f := f) (fun g hg => by simp [hg]) (fun _ => by simpa using hr)
    (fun _ => Or.inl (by simpa using hr)) (fun _ => by simpa using hr.2)
    (by simpa [EFiber.schedule] using h.ungranted f)
    (fun _ _ => Or.inl) (fun _ _ => Or.inl) (fun _ _ _ => Or.inl rfl)

theorem Clean.running (h : Clean s) (hw : s.worker w = .running f) : Ready (s.fiber f) := by
  have := h.worker w f (by rw [hw]; rfl)
  rwa [hw] at this

theorem Clean.release [DecidableEq F] [DecidableEq B] (h : Clean s) : Clean (s.release b a) := by
  obtain ⟨hf, -, hq, hw, hr⟩ := release_eq (s := s) (a := a) (b := b)
  exact h.frame hf hq hw hr

theorem clean_step [DecidableEq F] [DecidableEq W] [DecidableEq B] [DecidableEq T]
    (h : Step s act t) (hg : NoLatePermit s act) (hi : Inv s) (hc : Clean s) :
    Clean t := by
  have hx := hi.exclusive
  cases h with
  | schedule hn => exact hc.schedule hn
  | poll _ hq => exact hc.poll hq
  | pollEmpty | endIdle => exact hc.stage (by simp [WorkerPc.fiber?])
  | timer => exact hc.timeEvent.swapIn
  | fileEvent => exact hc.swapIn
  | @dispatch w f hw _ =>
    have hr : Ready (s.fiber f) := by
      have := hc.worker w f (by rw [hw]; rfl)
      rwa [hw] at this
    have hr' : Ready ((s.modFiber f (.bind w)).fiber f) := by
      simp only [State.modFiber, Function.update_self]
      exact hr
    refine Clean.stage (s := s.modFiber f (.bind w)) ?_ ?_
    · exact hc.move (f := f) (fun g hg => by simp [hg]) (fun _ => hr') (fun _ => Or.inl hr')
        (fun _ => hr'.2) (by simpa [EFiber.bind] using hc.ungranted f)
        (fun _ _ => Or.inl) (fun _ _ => Or.inl) (fun _ _ _ => Or.inl rfl)
    · intro g hgf
      obtain rfl := Option.some.inj hgf
      exact hr'
  | yield ha _ =>
    refine hc.stage fun g hgf => ?_
    obtain rfl := Option.some.inj hgf
    exact Or.inl (hc.running ha.1)
  | finish ha _ =>
    exact hc.leave hx ha (by simp [Leaving, EFiber.terminate]) (by simp [EFiber.terminate])
      (by simp [EFiber.terminate])
  | tryWait => exact hc.frame rfl rfl rfl rfl
  | tryWaitFail | threadTryWait => exact hc.frame rfl rfl rfl rfl
  | @check w f b c k ha _ _ =>
    exact Clean.local (s := s.setBlocker b c) (hc.frame rfl rfl rfl rfl) ha rfl rfl
      (by simp [EFiber.setPc])
  | @block w f b k ha _ =>
    by_cases hk : k = .tryWait true <;>
      exact hc.leave hx ha (by simp [Leaving, EFiber.block]) (by simp [EFiber.block])
        (by simp [EFiber.block])
  | @waitReturn w f b ha _ =>
    have := hc.local (u := .setPc .user) ha rfl rfl (by simp [EFiber.setPc])
    exact this.frame rfl rfl rfl rfl
  | @tryWaitReturn w f b timer ha _ _ =>
    have := hc.local (u := fun r => (r.cancelTimer.isWaitTimeout).setPc .user) ha rfl rfl
      (by simp [EFiber.setPc])
    exact this.frame rfl rfl rfl rfl
  | timedOut ha _ _ => exact hc.local ha rfl rfl (by simp [EFiber.setPc])
  | @removeTrue w f b c ha _ _ =>
    exact Clean.local (s := s.setBlocker b c) (hc.frame rfl rfl rfl rfl) ha rfl rfl
      (by simp [EFiber.setPc])
  | @removeFalse w f b c ha _ _ =>
    have := Clean.local (s := s.setBlocker b c) (u := .setPc .user) (hc.frame rfl rfl rfl rfl) ha
      rfl rfl (by simp [EFiber.setPc])
    exact this.frame rfl rfl rfl rfl
  | sleep ha _ =>
    exact hc.leave hx ha (by simp [Leaving, EFiber.sleep]) (by simp [EFiber.sleep])
      (by simp [EFiber.sleep])
  | sleepReturn ha _ => exact hc.local ha rfl rfl (by simp [EFiber.setPc])
  | pollEvents ha _ =>
    exact hc.leave hx ha (by simp [Leaving, EFiber.pollEvents]) (by simp [EFiber.pollEvents])
      (by simp [EFiber.pollEvents])
  | @pollReturn w f reads ha _ =>
    cases reads <;> exact hc.local ha rfl rfl (by simp [EFiber.pollDone])
  | @switchRunnable w f hw hs =>
    refine hc.stage fun g hgf => ?_
    obtain rfl := Option.some.inj hgf
    have hst := hc.worker w f (by rw [hw]; rfl)
    rw [hw] at hst
    rcases hst with hr | hl
    · exact hr
    · exact (hl.1 hs).elim
  | @switchBlocked w f b hw hs _ =>
    refine hc.stage fun g hgf => ?_
    obtain rfl := Option.some.inj hgf
    have hst := hc.worker w f (by rw [hw]; rfl)
    rwa [hw] at hst
  | switchOther => exact hc.stage (by simp [WorkerPc.fiber?])
  | swapOutPermit hw hb =>
    have := hg _ _ hw
    have := (EFiberBlocker.swapOut_permit.mp hb).1
    omega
  | @swapOutHung w f b c _ _ =>
    exact Clean.stage (s := s.setBlocker b c) (hc.frame rfl rfl rfl rfl) (by simp [WorkerPc.fiber?])
  | @requeue w f hw =>
    have hst := hc.worker w f (by rw [hw]; rfl)
    rw [hw] at hst
    exact (hc.add hst).stage (by simp [WorkerPc.fiber?])
  | @wakeUpRefused a b c _ _ =>
    exact Clean.release (s := s.setBlocker b c) (hc.frame rfl rfl rfl rfl)
  | @wakeUpCounted a b c _ _ =>
    exact Clean.release (s := s.setBlocker b c) (hc.frame rfl rfl rfl rfl)
  | @wakeUpWaiter a b c g _ _ =>
    exact (Clean.release (s := s.setBlocker b c) (hc.frame rfl rfl rfl rfl)).quiet (by simp)
  | swapIn => exact hc.swapIn
  | write => exact hc.write
  | @add a g v ha _ => exact (hc.add (hc.adding a g ha)).quiet (by simp)

/-- Without permits at `swapOut` no fiber is re-queued BLOCKED, so no timer comes late. -/
theorem onTime_of_clean (hg : NoLatePermit s act) (hc : Clean s) : OnTime s act := by
  cases act with
  | timer w f => exact ⟨hc.ungranted f, hg⟩
  | swapIn a => exact ⟨fun g n hr hs => (hg g n hr hs).1, fun g n hr hs => (hg g n hr hs).2⟩
  | _ => exact ⟨trivial, trivial⟩

variable [DecidableEq F] [DecidableEq W] [DecidableEq B] [DecidableEq T]

theorem Clean.plainYields (hc : Clean s) (hi : Inv s) : PlainYields s := by
  refine ⟨fun w f => hc.running, fun w f hw hp t => ?_, fun w f b hw => ?_⟩
  · have hr : Ready (s.fiber f) := by
      have := hc.worker w f (by rw [hw]; rfl)
      rw [hw] at this
      rcases this with hr | hl
      · exact hr
      · exact (hl.2 hp).elim
    refine ⟨fun h => ?_, ?_⟩
    · cases h with
      | switchRunnable hw' _ =>
        obtain rfl := WorkerPc.switching.inj (hw.symm.trans hw')
        rfl
      | switchBlocked hw' hs _ =>
        obtain rfl := WorkerPc.switching.inj (hw.symm.trans hw')
        exact nomatch hr.1.symm.trans hs
      | switchOther hw' hs _ =>
        obtain rfl := WorkerPc.switching.inj (hw.symm.trans hw')
        exact (hs hr.1).elim
    · rintro rfl
      exact .switchRunnable hw hr.1
  · obtain ⟨loc, hl, hf⟩ := hi
    have hp := hf.place f
    rw [(hl.held w f _).mpr ⟨hw, rfl⟩] at hp
    obtain ⟨-, hs, -, hu | hk⟩ := hp
    · have hst := hc.worker w f (by rw [hw]; rfl)
      rw [hw] at hst
      rcases hst with hr | hlv
      · exact nomatch hr.1.symm.trans hs
      · exact (hlv.2 hu).elim
    · exact hk

theorem plain_yields (h : Run (Guarded NoLatePermit Step) (initial capacity limit) acts s) :
    PlainYields s := by
  have hboth : Inv s ∧ Clean s := by
    refine h.invariant (I := fun s => Inv s ∧ Clean s) (fun _ _ _ hi hs => ?_)
      ⟨inv_initial capacity limit, clean_initial⟩
    exact ⟨inv_step hs.2 (onTime_of_clean hs.1 hi.2) hi.1, clean_step hs.2 hs.1 hi.1 hi.2⟩
  exact hboth.2.plainYields hboth.1

/-- A fiber that waits, is hung, and is woken by a thread before it yields. -/
theorem plain_yields_woken : ∃ s : State Unit Unit Unit Unit,
    s.worker () = .switching () ∧ (s.fiber ()).pc = .user ∧ PlainYields s := by
  refine ⟨_, ?_, ?_, plain_yields <|
    .guard (.schedule (s := initial (fun _ => 0) fun _ => 1) (f := ()) (w := ()) rfl) trivial <|
    .guard (.poll (w := ()) rfl rfl) trivial <|
    .guard (.dispatch (w := ()) rfl rfl) trivial <|
    .guard (.check (w := ()) (f := ()) (b := ()) (k := .wait) ⟨rfl, rfl⟩ rfl rfl) trivial <|
    .guard (.block (w := ()) (f := ()) ⟨rfl, rfl⟩ rfl) trivial <|
    .guard (.switchBlocked (w := ()) rfl rfl rfl) trivial <|
    .guard (.swapOutHung (w := ()) rfl rfl) (fun _ _ _ => rfl) <|
    .guard (.wakeUpWaiter (a := .thread ()) (b := ()) rfl rfl) trivial <|
    .guard (.swapIn (a := .thread ()) rfl) (fun _ _ h _ => by
      cases h
      exact ⟨rfl, nofun⟩) <|
    .guard (.write (a := .thread ()) rfl) trivial <|
    .guard (.add (a := .thread ()) (v := ()) rfl rfl) trivial <|
    .guard (.poll (w := ()) rfl rfl) trivial <|
    .guard (.dispatch (w := ()) rfl rfl) trivial <|
    .guard (.waitReturn (w := ()) (f := ()) (b := ()) ⟨rfl, rfl⟩ (Or.inl rfl)) trivial <|
    .guard (.yield (w := ()) (f := ()) ⟨rfl, rfl⟩ rfl) trivial .refl⟩
  · rfl
  · rfl

/-- A `wakeUp` lands between the check of a wait and its `swapOut`; when the wait has returned,
the fiber's state is still BLOCKED and its blocker still set. -/
theorem plain_yields_fails : ∃ s : State Unit Unit Unit Unit,
    Reachable Step (initial (fun _ => 0) fun _ => 1) s ∧
    s.worker () = .running () ∧ (s.fiber ()).pc = .user ∧ ¬ PlainYields s := by
  refine ⟨_, ⟨_,
    .step (.schedule (f := ()) (w := ()) rfl) <|
    .step (.poll (w := ()) rfl rfl) <|
    .step (.dispatch (w := ()) rfl rfl) <|
    .step (.check (w := ()) (f := ()) (b := ()) (k := .wait) ⟨rfl, rfl⟩ rfl rfl) <|
    .step (.wakeUpCounted (a := .thread ()) (b := ()) rfl rfl) <|
    .step (.block (w := ()) (f := ()) ⟨rfl, rfl⟩ rfl) <|
    .step (.switchBlocked (w := ()) rfl rfl rfl) <|
    .step (.swapOutPermit (w := ()) rfl rfl) <|
    .step (.requeue (w := ()) rfl) <|
    .step (.poll (w := ()) rfl rfl) <|
    .step (.dispatch (w := ()) rfl rfl) <|
    .step (.waitReturn (w := ()) (f := ()) (b := ()) ⟨rfl, rfl⟩ (Or.inr rfl)) .refl⟩,
    ?_, ?_, fun h => ?_⟩
  · rfl
  · rfl
  · exact nomatch (h.running () () rfl).1

end CxxFiber.Scheduler
