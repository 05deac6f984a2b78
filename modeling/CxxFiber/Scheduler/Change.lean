import CxxFiber.Scheduler.Model

/-! What one step can do to the record of a fiber, and how a worker lets a fiber go. -/
namespace CxxFiber.Scheduler

variable {F W B T : Type}

/-- The record of `x` after a step. -/
inductive Change (s : State F W B T) (x : F) : Act F W B T → EFiber B W → Prop
  | keep {act} : Change s x act (s.fiber x)
  | schedule {w} : (s.fiber x).state = .new → Change s x (.schedule x w) (s.fiber x).schedule
  | bind {w} : s.worker w = .polled x → Change s x (.dispatch w) ((s.fiber x).bind w)
  | timeEvent {w} : Change s x (.timer w x) (s.fiber x).timeEvent
  | write {a} : s.resume a = some (.tested x) → Change s x (.write a) (s.fiber x).swapIn
  | finish {w} : s.Active w x → (s.fiber x).pc = .user →
      Change s x (.finish x) (s.fiber x).terminate
  | check {w b k} : s.Active w x → (s.fiber x).pc = .user →
      Change s x (.check x b k) ((s.fiber x).setPc (.checked b k))
  | block {w b k} : s.Active w x → (s.fiber x).pc = .checked b k →
      Change s x (.block x) ((s.fiber x).block w b k)
  | waitReturn {w b} : s.Active w x →
      (s.fiber x).pc = .parked b .wait ∨ (s.fiber x).pc = .granted b .wait →
      Change s x (.waitReturn x b) ((s.fiber x).setPc .user)
  | tryWaitReturn {w b timer} : s.Active w x →
      (s.fiber x).pc = .parked b (.tryWait timer) ∨ (s.fiber x).pc = .granted b (.tryWait timer) →
      Change s x (.waitReturn x b) ((s.fiber x).cancelTimer.isWaitTimeout.setPc .user)
  | timedOut {w b timer} : s.Active w x →
      (s.fiber x).pc = .parked b (.tryWait timer) ∨ (s.fiber x).pc = .granted b (.tryWait timer) →
      Change s x (.timedOut x b) ((s.fiber x).cancelTimer.isWaitTimeout.setPc (.removing b))
  | remove {w b} : s.Active w x → (s.fiber x).pc = .removing b →
      Change s x (.remove x b) ((s.fiber x).setPc .user)
  | sleep {w} : s.Active w x → (s.fiber x).pc = .user → Change s x (.sleep x) ((s.fiber x).sleep w)
  | sleepReturn {w} : s.Active w x → (s.fiber x).pc = .sleeping →
      Change s x (.sleepReturn x) ((s.fiber x).cancelTimer.setPc .user)
  | pollEvents {w timer reads} : s.Active w x → (s.fiber x).pc = .user →
      Change s x (.pollEvents x) ((s.fiber x).pollEvents w timer reads)
  | pollReturn {w reads} : s.Active w x → (s.fiber x).pc = .polling reads →
      Change s x (.pollReturn x) ((s.fiber x).pollDone reads)
  | grant {w b} : s.worker w = .swapOut x b → 0 < (s.blocker b).wakeup →
      Change s x (.swapOut w) (s.fiber x).grant

/-- The place of the worker `w` after a step. -/
inductive Moves (s : State F W B T) (w : W) : Act F W B T → WorkerPc F B → Prop
  | keep {act} : Moves s w act (s.worker w)
  | poll {f q} : s.worker w = .head → s.taskQueue w = f :: q → Moves s w (.poll w) (.polled f)
  | pollEmpty : s.worker w = .head → Moves s w (.pollEmpty w) .idle
  | endIdle : s.worker w = .idle → Moves s w (.endIdle w) .head
  | dispatch {f} : s.worker w = .polled f → Moves s w (.dispatch w) (.running f)
  | yield {act f} : s.worker w = .running f → Moves s w act (.switching f)
  | switchRunnable {f} : s.worker w = .switching f → (s.fiber f).state = .runnable →
      Moves s w (.switch w) (.requeue f)
  | switchBlocked {f b} : s.worker w = .switching f → (s.fiber f).state = .blocked →
      Moves s w (.switch w) (.swapOut f b)
  | switchOther {f} : s.worker w = .switching f → (s.fiber f).state ≠ .blocked →
      Moves s w (.switch w) .head
  | swapOutPermit {f b} : s.worker w = .swapOut f b → 0 < (s.blocker b).wakeup →
      Moves s w (.swapOut w) (.requeue f)
  | swapOutHung {f b} : s.worker w = .swapOut f b → (s.blocker b).wakeup = 0 →
      Moves s w (.swapOut w) .head
  | requeue {f} : s.worker w = .requeue f → Moves s w (.requeue w) .head

variable {s t : State F W B T} {f g : F} {w : W} {a : Agent F W T} {act : Act F W B T}
  {r : EFiber B W} {p : WorkerPc F B}

theorem Change.update [DecidableEq F]
    (h : Change s f act r) (hf : t.fiber = Function.update s.fiber f r) (x : F) :
    Change s x act (t.fiber x) := by
  by_cases hx : x = f
  · subst x
    rw [hf, Function.update_self]
    exact h
  · rw [hf, Function.update_of_ne hx]
    exact .keep

theorem change_step [DecidableEq F] [DecidableEq W] [DecidableEq B] [DecidableEq T]
    (hst : Step s act t) (x : F) : Change s x act (t.fiber x) := by
  cases hst with
  | poll | pollEmpty | endIdle | yield | tryWait | tryWaitFail | switchRunnable | switchBlocked
  | switchOther | swapOutHung | requeue | add | threadTryWait => exact .keep
  | @wakeUpRefused a | @wakeUpCounted a | @wakeUpWaiter a => cases a <;> exact .keep
  | schedule hn => exact (Change.schedule hn).update rfl x
  | dispatch hw => exact (Change.bind hw).update rfl x
  | timer => exact Change.timeEvent.update (by simp) x
  | fileEvent | swapIn =>
    rw [swapIn_fiber]
    exact .keep
  | write ha => exact (Change.write ha).update rfl x
  | finish ha hp => exact (Change.finish ha hp).update rfl x
  | check ha hp => exact (Change.check ha hp).update rfl x
  | block ha hp => exact (Change.block ha hp).update rfl x
  | waitReturn ha hp => exact (Change.waitReturn ha hp).update rfl x
  | tryWaitReturn ha hp => exact (Change.tryWaitReturn ha hp).update rfl x
  | timedOut ha hp => exact (Change.timedOut ha hp).update rfl x
  | removeTrue ha hp | removeFalse ha hp => exact (Change.remove ha hp).update rfl x
  | sleep ha hp => exact (Change.sleep ha hp).update rfl x
  | sleepReturn ha hp => exact (Change.sleepReturn ha hp).update rfl x
  | pollEvents ha hp => exact (Change.pollEvents ha hp).update rfl x
  | pollReturn ha hp => exact (Change.pollReturn ha hp).update rfl x
  | swapOutPermit hw hc =>
    exact (Change.grant hw (EFiberBlocker.swapOut_permit.mp hc).1).update rfl x

/-- A fiber gets a timer only while it runs. -/
theorem timer_gain (hc : Change s f act r) (hr : r.timer = some w) :
    (s.fiber f).timer = some w ∨ ∃ v, s.Active v f := by
  cases hc with
  | keep | schedule | bind | write | finish | check | waitReturn | remove => exact Or.inl hr
  | timeEvent | tryWaitReturn | timedOut | sleepReturn => exact nomatch hr
  | block ha | sleep ha | pollEvents ha => exact Or.inr ⟨_, ha⟩
  | @pollReturn v reads => cases reads <;> exact nomatch hr
  | grant =>
    unfold EFiber.grant at hr
    split at hr <;> exact Or.inl hr

/-- Who tests a fiber: the worker of its timer, the worker of its event, or somebody in `wakeUp`. -/
theorem tested_gain [DecidableEq F] [DecidableEq W] [DecidableEq B] [DecidableEq T]
    (hst : Step s act t) (hr : t.resume a = some (.tested f)) :
    s.resume a = some (.tested f) ∨
      (∃ v, a = .worker v ∧ act = .timer v f ∧ (t.fiber f).timer = none) ∨
      (∃ v, a = .worker v ∧ (s.fiber f).events = some v ∧ t.fiber f = s.fiber f) ∨
      ∃ n, s.resume a = some (.owed f n) ∧ t.fiber f = s.fiber f := by
  have hset : ∀ {b x}, t.resume = Function.update s.resume b x → x ≠ some (.tested f) →
      s.resume a = some (.tested f) := by
    intro b x ht hx
    rw [ht] at hr
    by_cases ha : a = b
    · subst b
      rw [Function.update_self] at hr
      exact (hx hr).elim
    · rwa [Function.update_of_ne ha] at hr
  have hswap : ∀ {u : State F W B T} {b g}, u.resume = s.resume →
      (u.swapIn b g).resume a = some (.tested f) →
      s.resume a = some (.tested f) ∨ a = b ∧ g = f := by
    intro u b g hu hr
    by_cases ha : a = b
    · subst b
      rw [swapIn_resume_self] at hr
      split at hr
      · exact Or.inr ⟨rfl, Resume.tested.inj (Option.some.inj hr)⟩
      · exact nomatch hr
    · rw [swapIn_resume ha, hu] at hr
      exact Or.inl hr
  cases hst with
  | @timer v g =>
    rcases hswap (u := s.modFiber g .timeEvent) rfl hr with hs | ⟨rfl, rfl⟩
    · exact Or.inl hs
    · exact Or.inr (Or.inl ⟨v, rfl, rfl, by simp [EFiber.timeEvent]⟩)
  | @fileEvent v g _ he =>
    rcases hswap rfl hr with hs | ⟨rfl, rfl⟩
    · exact Or.inl hs
    · exact Or.inr (Or.inr (Or.inl ⟨v, rfl, he, by rw [swapIn_fiber]⟩))
  | @swapIn b g n ha =>
    rcases hswap rfl hr with hs | ⟨rfl, rfl⟩
    · exact Or.inl hs
    · exact Or.inr (Or.inr (Or.inr ⟨n, ha, by rw [swapIn_fiber]⟩))
  | write => exact Or.inl (hset rfl (by simp))
  | @wakeUpRefused b | @wakeUpCounted b => cases b <;> exact Or.inl hr
  | @wakeUpWaiter b => cases b <;> exact Or.inl (hset rfl (by simp))
  | add => exact Or.inl (hset rfl (by simp))
  | _ => exact Or.inl hr

/-- A fiber begins a wait in `block` only. -/
theorem parked_change {b : B} {k : WaitKind} (hc : Change s f act r) (hp : r.pc = .parked b k)
    (hs : r.state = .blocked) :
    ((s.fiber f).pc = .parked b k ∧ (s.fiber f).state = .blocked ∧
      r.suspensions = (s.fiber f).suspensions) ∨
      act = .block f ∧ ∃ w, s.Active w f := by
  cases hc with
  | keep | bind | timeEvent => exact Or.inl ⟨hp, hs, rfl⟩
  | schedule | write | finish => exact nomatch hs
  | check | waitReturn | tryWaitReturn | timedOut | remove | sleep | sleepReturn | pollEvents =>
    exact nomatch hp
  | block ha => exact Or.inr ⟨rfl, _, ha⟩
  | @pollReturn w reads => cases reads <;> exact nomatch hp
  | grant =>
    unfold EFiber.grant at hp
    split at hp
    · exact nomatch hp
    · next hn => exact (hn b k hp).elim

theorem Moves.update [DecidableEq W]
    (h : Moves s w act p) (hp : t.worker = Function.update s.worker w p) (v : W) :
    Moves s v act (t.worker v) := by
  by_cases hv : v = w
  · subst v
    rw [hp, Function.update_self]
    exact h
  · rw [hp, Function.update_of_ne hv]
    exact .keep

theorem moves_step [DecidableEq F] [DecidableEq W] [DecidableEq B] [DecidableEq T]
    (hst : Step s act t) (v : W) : Moves s v act (t.worker v) := by
  cases hst with
  | schedule | tryWait | tryWaitFail | check | waitReturn | tryWaitReturn | timedOut | removeTrue
  | removeFalse | sleepReturn | pollReturn | write | add | threadTryWait => exact .keep
  | @wakeUpRefused a | @wakeUpCounted a | @wakeUpWaiter a => cases a <;> exact .keep
  | timer | fileEvent | swapIn =>
    rw [swapIn_worker]
    exact .keep
  | poll hw hq => exact (Moves.poll hw hq).update rfl v
  | pollEmpty hw => exact (Moves.pollEmpty hw).update rfl v
  | endIdle hw => exact (Moves.endIdle hw).update rfl v
  | dispatch hw => exact (Moves.dispatch hw).update rfl v
  | yield ha | finish ha | block ha | sleep ha | pollEvents ha =>
    exact (Moves.yield ha.1).update rfl v
  | switchRunnable hw hs => exact (Moves.switchRunnable hw hs).update rfl v
  | switchBlocked hw hs => exact (Moves.switchBlocked hw hs).update rfl v
  | switchOther hw _ hs => exact (Moves.switchOther hw hs).update rfl v
  | swapOutPermit hw hc =>
    exact (Moves.swapOutPermit hw (EFiberBlocker.swapOut_permit.mp hc).1).update rfl v
  | swapOutHung hw hc =>
    exact (Moves.swapOutHung hw (EFiberBlocker.swapOut_hung.mp hc).1).update rfl v
  | requeue hw => exact (Moves.requeue hw).update rfl v

/-- A worker lets a fiber go when it retires or leaves it waiting for events, when `swapOut` has
hung it, or when it has queued it again. -/
theorem letGo (hm : Moves s w act p) (hf : (s.worker w).fiber? = some f)
    (hp : p.fiber? ≠ some f) : (act = .switch w ∧ (s.fiber f).state ≠ .blocked) ∨
    (∃ b, act = .swapOut w ∧ s.worker w = .swapOut f b ∧ (s.blocker b).wakeup = 0) ∨
    (act = .requeue w ∧ s.worker w = .requeue f) := by
  cases hm with
  | keep => exact (hp hf).elim
  | poll hw | pollEmpty hw | endIdle hw =>
    rw [hw] at hf
    exact nomatch hf
  | dispatch hw | yield hw | switchRunnable hw | switchBlocked hw | swapOutPermit hw =>
    rw [hw] at hf
    exact (hp hf).elim
  | switchOther hw hs =>
    rw [hw] at hf
    obtain rfl := Option.some.inj hf
    exact Or.inl ⟨rfl, hs⟩
  | swapOutHung hw hb =>
    rw [hw] at hf
    obtain rfl := Option.some.inj hf
    exact Or.inr (Or.inl ⟨_, rfl, hw, hb⟩)
  | requeue hw =>
    rw [hw] at hf
    obtain rfl := Option.some.inj hf
    exact Or.inr (Or.inr ⟨rfl, hw⟩)

variable [DecidableEq F] [DecidableEq W] [DecidableEq B] [DecidableEq T]

/-- A fiber becomes parked in a wait, let go by its worker, only when `swapOut` finds no permit. -/
theorem letGo_parked {b : B} {k : WaitKind} (hst : Step s act t)
    (hq : ∀ w, s.worker w = .requeue f → (s.fiber f).pc = .parked b k →
      (s.fiber f).state ≠ .blocked)
    (hp : (t.fiber f).pc = .parked b k) (hs : (t.fiber f).state = .blocked)
    (hfree : ∀ w, (t.worker w).fiber? ≠ some f) :
    ((s.fiber f).pc = .parked b k ∧ (s.fiber f).state = .blocked ∧
      (t.fiber f).suspensions = (s.fiber f).suspensions) ∧
    ((∀ w, (s.worker w).fiber? ≠ some f) ∨
      ∃ w b', act = .swapOut w ∧ s.worker w = .swapOut f b' ∧ (s.blocker b').wakeup = 0) := by
  rcases parked_change (change_step hst f) hp hs with hsame | ⟨rfl, w, ha⟩
  · refine ⟨hsame, ?_⟩
    by_cases hh : ∃ w, (s.worker w).fiber? = some f
    · obtain ⟨w, hh⟩ := hh
      rcases letGo (moves_step hst w) hh (hfree w) with ⟨_, hb⟩ | ⟨b', hb⟩ | ⟨_, hw⟩
      · exact (hb hsame.2.1).elim
      · exact Or.inr ⟨w, b', hb⟩
      · exact (hq w hw hsame.1 hsame.2.1).elim
    · exact Or.inl fun w hw => hh ⟨w, hw⟩
  · have hh : (s.worker w).fiber? = some f := by rw [ha.1]; rfl
    rcases letGo (moves_step hst w) hh (hfree w) with ⟨h, _⟩ | ⟨b, h, _⟩ | ⟨h, _⟩ <;> cases h

end CxxFiber.Scheduler
