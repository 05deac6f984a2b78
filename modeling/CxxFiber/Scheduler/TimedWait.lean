import CxxFiber.Scheduler.Affinity
import CxxFiber.Scheduler.Resumption

/-! `EFiberBlocker::tryWait(time, unit)` in a fiber, with the time that it is called with. -/
namespace CxxFiber.TimedWait

open Scheduler Transition

/-- `call f` is history: the arguments of the last `tryWait(time, unit)` of `f` that found no permit
at first. -/
structure State (F W B T U : Type) where
  sched : Scheduler.State F W B T
  call : F → Option (ℤ × U)

inductive Act (F W B T U : Type)
  | tryWait (f : F) (b : B) (time : ℤ) (unit : U)
  | sched (act : Scheduler.Act F W B T)

variable {F W B T U : Type}

def initial (capacity limit : B → ℕ) : State F W B T U :=
  ⟨Scheduler.initial capacity limit, fun _ => none⟩

/-- The steps of all other calls: a check that fails is that of `wait`. -/
def Other : Scheduler.Act F W B T → Prop
  | .check _ _ k => k = .wait
  | _ => True

section Steps

variable [DecidableEq F] [DecidableEq W] [DecidableEq B] [DecidableEq T]

/-- A timer is armed if the converted time is positive. -/
inductive Step (toMillis : U → ℤ → ℤ) (s : State F W B T U) :
    Act F W B T U → State F W B T U → Prop
  | tryWait {f b t u y} :
      Scheduler.Step s.sched (.check f b (.tryWait (decide (0 < toMillis u t)))) y →
      Step toMillis s (.tryWait f b t u) ⟨y, Function.update s.call f (some (t, u))⟩
  | sched {act y} : Scheduler.Step s.sched act y → Other act →
      Step toMillis s (.sched act) ⟨y, s.call⟩

/-- Suspended in `tryWait(time, unit)`; nobody has resumed it. -/
def Waits (r : EFiber B W) : Prop := (∃ b k, r.pc = .parked b (.tryWait k)) ∧ r.state = .blocked

/-- The worker has let the suspended fiber go. -/
def Parked (x : Scheduler.State F W B T) (f : F) : Prop :=
  Waits (x.fiber f) ∧ ∀ w, (x.worker w).fiber? ≠ some f

/-- The writes of the `swapIn` that `w` is in resume the fiber. -/
def Resumes (x : Scheduler.State F W B T) (w : W) (f : F) : Prop :=
  ∃ y, Scheduler.Step x (.write (.worker w)) y ∧ (y.fiber f).state = .runnable ∧
    y.resume (.worker w) = some (.adding f)

/-- A timer is armed, and the worker that has it will resume the fiber with it; or it has expired,
and a worker that has found the fiber suspended resumes it next. -/
def WillEnd (x : Scheduler.State F W B T) (f : F) : Prop :=
  ∃ w, ((x.fiber f).timer = some w ∧
      (x.InEvents w → ∃ y, Scheduler.Step x (.timer w f) y ∧ Resumes y w f)) ∨
    (Timed (x.fiber f).pc ∧ Resumes x w f)

def Bounded (s : State F W B T U) : Prop := ∀ f, Parked s.sched f → WillEnd s.sched f

/-- When `swapOut` finds no permit for a fiber in `tryWait(time, unit)` that nobody has resumed, its
time converts to more than zero. -/
def Positive (toMillis : U → ℤ → ℤ) (s : State F W B T U) : Act F W B T U → Prop
  | .sched (.swapOut w) => ∀ f b time unit, s.sched.worker w = .swapOut f b →
      (s.sched.blocker b).wakeup = 0 → Waits (s.sched.fiber f) → s.call f = some (time, unit) →
      0 < toMillis unit time
  | _ => True

/-- The timer is armed, or a worker is about to resume the fiber. -/
def Armed (x : Scheduler.State F W B T) (f : F) : Prop :=
  (x.fiber f).timer ≠ none ∨ ∃ w, x.resume (.worker w) = some (.tested f)

structure Inv (toMillis : U → ℤ → ℤ) (s : State F W B T U) : Prop where
  homed : ∃ home, Homed s.sched home
  timed : ∀ f, (s.sched.fiber f).timer ≠ none → Timed (s.sched.fiber f).pc
  armed : ∀ f b, (s.sched.fiber f).pc = .parked b (.tryWait true) →
    (s.sched.fiber f).state = .blocked → Armed s.sched f
  requeue : ∀ w f, s.sched.worker w = .requeue f → ¬ Waits (s.sched.fiber f)
  call : ∀ f b k, (s.sched.fiber f).pc = .checked b (.tryWait k) ∨
    (s.sched.fiber f).pc = .parked b (.tryWait k) →
    ∃ time unit, s.call f = some (time, unit) ∧ k = decide (0 < toMillis unit time)

end Steps

variable {toMillis : U → ℤ → ℤ} {s t : State F W B T U} {x y : Scheduler.State F W B T} {f g : F}
  {w v : W} {b : B} {k : Bool} {act : Scheduler.Act F W B T} {a : Act F W B T U} {r : EFiber B W}

theorem timed_change (hc : Change x f act r)
    (h : (x.fiber f).timer ≠ none → Timed (x.fiber f).pc) : r.timer ≠ none → Timed r.pc := by
  have hnone : ¬ Timed (x.fiber f).pc → (x.fiber f).timer = none := fun hn => by
    by_contra ht
    exact hn (h ht)
  cases hc with
  | keep | schedule | bind | write => exact h
  | timeEvent | tryWaitReturn | timedOut | sleepReturn =>
    exact fun ht => absurd rfl ht
  | finish _ hp | check _ hp | remove _ hp =>
    exact fun ht => absurd (hnone (by simp [Timed, hp])) ht
  | waitReturn _ hp =>
    refine fun ht => absurd (hnone ?_) ht
    rcases hp with hp | hp <;> simp [Timed, hp]
  | @block w b k _ hp =>
    intro ht
    by_cases hk : k = .tryWait true
    · exact hk
    · have hn := hnone (by simp [Timed, hp])
      simp [EFiber.block, hk, hn] at ht
  | sleep | pollEvents => exact fun _ => trivial
  | @pollReturn w reads =>
    intro ht
    cases reads <;> exact absurd rfl ht
  | grant =>
    unfold EFiber.grant
    split
    · next hp =>
      intro ht
      have hk := h ht
      rw [hp] at hk
      exact hk
    · exact h

/-- A fiber begins such a wait in `block` only. -/
theorem waits_change (hc : Change x f act r) (hr : Waits r) :
    (Waits (x.fiber f) ∧ r.pc = (x.fiber f).pc) ∨ act = .block f ∧ ∃ w, x.Active w f := by
  obtain ⟨⟨b, k, hp⟩, hs⟩ := hr
  rcases parked_change hc hp hs with ⟨hp', hs', _⟩ | hb
  · exact Or.inl ⟨⟨⟨b, k, hp'⟩, hs'⟩, hp.trans hp'.symm⟩
  · exact Or.inr hb

/-- In such a wait a timer is lost only by expiring. -/
theorem timer_change (hc : Change x f act r) (hr : Waits r) :
    r.timer = (x.fiber f).timer ∨ (∃ w, act = .timer w f) ∨ act = .block f := by
  obtain ⟨⟨b, k, hp⟩, hs⟩ := hr
  cases hc with
  | keep | bind => exact Or.inl rfl
  | timeEvent => exact Or.inr (Or.inl ⟨_, rfl⟩)
  | block => exact Or.inr (Or.inr rfl)
  | schedule | write | finish => exact nomatch hs
  | check | waitReturn | tryWaitReturn | timedOut | remove | sleep | sleepReturn | pollEvents =>
    exact nomatch hp
  | @pollReturn w reads => cases reads <;> exact nomatch hp
  | grant =>
    unfold EFiber.grant
    split <;> exact Or.inl rfl

theorem timer_block [DecidableEq F] [DecidableEq W] [DecidableEq B] [DecidableEq T]
    (hst : Scheduler.Step x (.block f) y)
    (hp : (y.fiber f).pc = .parked b (.tryWait true)) : (y.fiber f).timer ≠ none := by
  cases hst with
  | @block w _ b' k _ hp' =>
    obtain rfl : k = .tryWait true := by
      simpa [EFiber.block] using (FiberPc.parked.inj (by simpa [EFiber.block] using hp)).2
    simp [EFiber.block, EFiber.setupTimer]

/-- The worker that runs a timer finds the fiber suspended. -/
theorem tested_timer [DecidableEq F] [DecidableEq W] [DecidableEq B] [DecidableEq T]
    (hst : Scheduler.Step x (.timer w f) y) (hs : (y.fiber f).state = .blocked) :
    y.resume (.worker w) = some (.tested f) := by
  cases hst with
  | timer =>
    have hs : ((x.modFiber f .timeEvent).fiber f).suspended = true := by
      have hw : (x.fiber f).timeEvent.state = .blocked := by simpa using hs
      simp [EFiber.suspended, hw]
    rw [swapIn_resume_self, if_pos hs]

/-- A timer that expires is in the hands of its worker until the fiber is resumed. -/
theorem armed_step [DecidableEq F] [DecidableEq W] [DecidableEq B] [DecidableEq T]
    (hst : Scheduler.Step x act y) (hy : Waits (y.fiber f)) (ha : Armed x f)
    (hb : act ≠ .block f) : Armed y f := by
  rcases ha with ht | ⟨w, hr⟩
  · rcases timer_change (change_step hst f) hy with h | ⟨w, rfl⟩ | h
    · exact Or.inl (h ▸ ht)
    · exact Or.inr ⟨w, tested_timer hst hy.2⟩
    · exact (hb h).elim
  · rcases resume_next hst hr with h | ⟨_, _, _, h, _⟩ | ⟨_, rfl, _⟩ | ⟨_, _, h⟩
    · exact Or.inr ⟨w, h⟩
    · cases h
    · simpa [EFiber.suspended, hy.2] using write_suspended hst hr
    · cases h

/-- A fiber in such a wait becomes parked only when `swapOut` finds no permit. -/
theorem parked_step [DecidableEq F] [DecidableEq W] [DecidableEq B] [DecidableEq T]
    (hst : Scheduler.Step x act y)
    (hr : ∀ w, x.worker w = .requeue f → ¬ Waits (x.fiber f)) (hy : Parked y f) :
    Waits (x.fiber f) ∧ (y.fiber f).pc = (x.fiber f).pc ∧
      (Parked x f ∨ ∃ w b, act = .swapOut w ∧ x.worker w = .swapOut f b ∧
        (x.blocker b).wakeup = 0) := by
  obtain ⟨⟨⟨b, k, hp⟩, hs⟩, hfree⟩ := hy
  have hq : ∀ w, x.worker w = .requeue f → (x.fiber f).pc = .parked b (.tryWait k) →
      (x.fiber f).state ≠ .blocked := fun w hw hp hs => hr w hw ⟨⟨b, k, hp⟩, hs⟩
  obtain ⟨⟨hp', hs', _⟩, hgo⟩ := letGo_parked hst hq hp hs hfree
  have hx : Waits (x.fiber f) := ⟨⟨b, k, hp'⟩, hs'⟩
  exact ⟨hx, hp.trans hp'.symm, hgo.imp_left fun hf => ⟨hx, hf⟩⟩

theorem swapOut_eq [DecidableEq F] [DecidableEq W] [DecidableEq B] [DecidableEq T]
    (hst : Scheduler.Step x (.swapOut w) y) (hw : x.worker w = .swapOut f b) :
    (0 < (x.blocker b).wakeup ∧ y.fiber f = (x.fiber f).grant) ∨
      ((x.blocker b).wakeup = 0 ∧ y.fiber f = x.fiber f ∧
        y.worker = Function.update x.worker w .head) := by
  cases hst with
  | swapOutPermit hw' hc =>
    obtain ⟨rfl, rfl⟩ := WorkerPc.swapOut.inj (hw.symm.trans hw')
    exact Or.inl ⟨(EFiberBlocker.swapOut_permit.mp hc).1, by simp⟩
  | swapOutHung hw' hc =>
    obtain ⟨rfl, rfl⟩ := WorkerPc.swapOut.inj (hw.symm.trans hw')
    exact Or.inr ⟨(EFiberBlocker.swapOut_hung.mp hc).1, rfl, rfl⟩

theorem not_waits_grant : ¬ Waits r.grant := by
  rintro ⟨⟨b, k, hp⟩, _⟩
  unfold EFiber.grant at hp
  split at hp
  · exact nomatch hp
  · next hn => exact hn b _ hp

theorem requeue_step [DecidableEq F] [DecidableEq W] [DecidableEq B] [DecidableEq T]
    (hst : Scheduler.Step x act y) {home : F → Option W} (hh : Homed x home)
    (h : ∀ w f, x.worker w = .requeue f → ¬ Waits (x.fiber f)) (hy : y.worker w = .requeue f) :
    ¬ Waits (y.fiber f) := by
  intro hw
  have hm := moves_step hst w
  generalize hp : y.worker w = p at hm
  have hx := waits_change (change_step hst f) hw
  cases hm with
  | keep =>
    have hq : x.worker w = .requeue f := hp.symm.trans hy
    rcases hx with ⟨hx, _⟩ | ⟨rfl, v, ha⟩
    · exact h w f hq hx
    · -- the fiber is at home with one worker
      have hv := hh.worker v f (by rw [ha.1]; rfl)
      have hw' := hh.worker w f (by rw [hq]; rfl)
      obtain rfl := Option.some.inj (hv.symm.trans hw')
      exact nomatch ha.1.symm.trans hq
  | switchRunnable hq hs =>
    obtain rfl := WorkerPc.requeue.inj (hp.symm.trans hy)
    rcases hx with ⟨hx, _⟩ | ⟨h, _⟩
    · exact nomatch hs.symm.trans hx.2
    · exact nomatch h
  | swapOutPermit hq hb =>
    obtain rfl := WorkerPc.requeue.inj (hp.symm.trans hy)
    rcases swapOut_eq hst hq with ⟨_, hg⟩ | ⟨hz, _⟩
    · exact not_waits_grant (hg ▸ hw)
    · omega
  | _ => exact nomatch hp.symm.trans hy

/-- Between the first check of such a wait and its return. -/
def Calls (r : EFiber B W) (k : Bool) : Prop :=
  ∃ b, r.pc = .checked b (.tryWait k) ∨ r.pc = .parked b (.tryWait k)

theorem calls_change (hc : Change x f act r) (hr : Calls r k) :
    Calls (x.fiber f) k ∨ ∃ b, act = .check f b (.tryWait k) := by
  obtain ⟨b, hp⟩ := hr
  cases hc with
  | keep | schedule | bind | write | timeEvent => exact Or.inl ⟨b, hp⟩
  | finish | waitReturn | tryWaitReturn | timedOut | remove | sleep | sleepReturn | pollEvents =>
    rcases hp with hp | hp <;> exact nomatch hp
  | @check w b' k' _ _ =>
    rcases hp with hp | hp
    · obtain ⟨rfl, rfl⟩ := FiberPc.checked.inj hp
      exact Or.inr ⟨b', rfl⟩
    · exact nomatch hp
  | @block w b' k' _ hp' =>
    rcases hp with hp | hp
    · exact nomatch hp
    · obtain ⟨rfl, rfl⟩ := FiberPc.parked.inj hp
      exact Or.inl ⟨b', Or.inl hp'⟩
  | @pollReturn w reads => cases reads <;> rcases hp with hp | hp <;> exact nomatch hp
  | grant =>
    unfold EFiber.grant at hp
    split at hp
    · rcases hp with hp | hp <;> exact nomatch hp
    · exact Or.inl ⟨b, hp⟩

theorem check_pc [DecidableEq F] [DecidableEq W] [DecidableEq B] [DecidableEq T]
    {k : WaitKind} (hst : Scheduler.Step x (.check f b k) y) :
    (y.fiber f).pc = .checked b k := by
  cases hst
  simp [EFiber.setPc]

theorem inv_initial {capacity limit : B → ℕ} :
    Inv toMillis (initial capacity limit : State F W B T U) where
  homed := ⟨fun _ => none, homed_initial⟩
  timed f ht := absurd rfl ht
  armed f b hp := nomatch hp
  requeue w f hw := nomatch hw
  call f b k hp := by rcases hp with hp | hp <;> exact nomatch hp

/-- The facts that do not speak of the arguments. -/
theorem Inv.sched_step [DecidableEq F] [DecidableEq W] [DecidableEq B] [DecidableEq T]
    (h : Inv toMillis s) (hst : Scheduler.Step s.sched act y)
    {call : F → Option (ℤ × U)}
    (hcall : ∀ f k, Calls (y.fiber f) k →
      ∃ time unit, call f = some (time, unit) ∧ k = decide (0 < toMillis unit time)) :
    Inv toMillis ⟨y, call⟩ where
  homed := by
    obtain ⟨home, hh⟩ := h.homed
    exact ⟨_, homed_step hst hh⟩
  timed f := timed_change (change_step hst f) (h.timed f)
  armed f b hp hs := by
    have hy : Waits (y.fiber f) := ⟨⟨b, true, hp⟩, hs⟩
    rcases waits_change (change_step hst f) hy with ⟨hx, hpc⟩ | ⟨rfl, _⟩
    · refine armed_step hst hy (h.armed f b (hpc ▸ hp) hx.2) ?_
      rintro rfl
      cases hst with
      | block _ hp' => exact nomatch (hpc ▸ hp').symm.trans hp
    · exact Or.inl (timer_block hst hp)
  requeue w f hw := by
    obtain ⟨home, hh⟩ := h.homed
    exact requeue_step hst hh h.requeue hw
  call f b k hp := hcall f k ⟨b, hp⟩

theorem Inv.calls (h : Inv toMillis s) (hf : Calls (s.sched.fiber f) k) :
    ∃ time unit, s.call f = some (time, unit) ∧ k = decide (0 < toMillis unit time) := by
  obtain ⟨b, hp⟩ := hf
  exact h.call f b k hp

variable [DecidableEq F] [DecidableEq W] [DecidableEq B] [DecidableEq T]

theorem inv_step (hst : Step toMillis s a t) (h : Inv toMillis s) : Inv toMillis t := by
  cases hst with
  | @sched act y hst ho =>
    refine h.sched_step hst fun f k hf => ?_
    rcases calls_change (change_step hst f) hf with hf | ⟨b, rfl⟩
    · exact h.calls hf
    · exact nomatch (show WaitKind.tryWait k = .wait from ho)
  | @tryWait f b time unit y hst =>
    refine h.sched_step hst fun g k hg => ?_
    by_cases hgf : g = f
    · subst g
      refine ⟨time, unit, Function.update_self .., ?_⟩
      obtain ⟨b', hp⟩ := hg
      rw [check_pc hst] at hp
      rcases hp with hp | hp
      · exact (WaitKind.tryWait.inj (FiberPc.checked.inj hp).2).symm
      · exact nomatch hp
    · rw [Function.update_of_ne hgf]
      rcases calls_change (change_step hst g) hg with hg | ⟨b', he⟩
      · exact h.calls hg
      · exact (hgf (Scheduler.Act.check.inj he).1.symm).elim

theorem resumes_of_tested (h : x.resume (.worker w) = some (.tested f)) : Resumes x w f :=
  ⟨_, .write h, by simp [EFiber.swapIn], by simp⟩

theorem willEnd_of_armed (h : Waits (x.fiber f)) (hp : (x.fiber f).pc = .parked b (.tryWait true))
    (ha : Armed x f) : WillEnd x f := by
  rcases ha with ht | ⟨w, hr⟩
  · obtain ⟨w, hw⟩ := Option.ne_none_iff_exists'.mp ht
    refine ⟨w, Or.inl ⟨hw, fun he => ⟨_, .timer he hw, resumes_of_tested ?_⟩⟩⟩
    refine tested_timer (.timer he hw) ?_
    simpa [EFiber.timeEvent] using h.2
  · exact ⟨w, Or.inr ⟨by simp [hp, Timed], resumes_of_tested hr⟩⟩

/-- Every step is one of the scheduler, with the same place of `swapOut`. -/
theorem Step.sched_act (hst : Step toMillis s a t) : ∃ act, Scheduler.Step s.sched act t.sched ∧
    (∀ w, act = .swapOut w → a = .sched (.swapOut w)) := by
  cases hst with
  | tryWait hst => exact ⟨_, hst, nofun⟩
  | sched hst => exact ⟨_, hst, fun w hw => congrArg _ hw⟩

/-- A wait that will end has its timer. -/
theorem Inv.timed_of_willEnd (h : Inv toMillis s) (he : WillEnd s.sched f) :
    Timed (s.sched.fiber f).pc := by
  obtain ⟨w, ⟨ht, _⟩ | ⟨ht, _⟩⟩ := he
  · exact h.timed f (by rw [ht]; exact Option.some_ne_none w)
  · exact ht

theorem bounded_of_positive (h : Inv toMillis s) (hb : Bounded s) (hst : Step toMillis s a t)
    (hg : Positive toMillis s a) : Bounded t := by
  intro f hf
  have ht := inv_step hst h
  obtain ⟨act, hst, ha⟩ := hst.sched_act
  obtain ⟨hw, hpc, hcase⟩ := parked_step hst (fun w => h.requeue w f) hf
  obtain ⟨⟨b', k, hp⟩, hs⟩ := hw
  -- parked before the step, or hung by it, the fiber is in a wait that has armed a timer
  have hk : k = true := by
    rcases hcase with hx | ⟨w, b, rfl, hsw, hz⟩
    · have htimed := h.timed_of_willEnd (hb f hx)
      rw [hp] at htimed
      exact WaitKind.tryWait.inj htimed
    · obtain rfl := ha w rfl
      obtain ⟨time, unit, hcall, hk⟩ := h.calls ⟨b', Or.inr hp⟩
      rw [hk]
      exact decide_eq_true (hg f b time unit hsw hz ⟨⟨b', k, hp⟩, hs⟩ hcall)
  subst hk
  have hp := hpc.trans hp
  exact willEnd_of_armed hf.1 hp (ht.armed f b' hp hf.1.2)

theorem positive_of_bounded (h : Inv toMillis s) (hst : Step toMillis s a t) (hb : Bounded t) :
    Positive toMillis s a := by
  have ht := inv_step hst h
  cases hst with
  | tryWait => trivial
  | @sched act y hst ho =>
    cases act with
    | swapOut w =>
      intro f b time unit hsw hz hw hcall
      have hfiber : y.fiber f = s.sched.fiber f ∧
          y.worker = Function.update s.sched.worker w .head := by
        rcases swapOut_eq hst hsw with ⟨hp, _⟩ | ⟨_, hy⟩
        · omega
        · exact hy
      have hparked : Parked y f := by
        refine ⟨hfiber.1 ▸ hw, fun v hv => ?_⟩
        rw [hfiber.2] at hv
        by_cases hvw : v = w
        · subst v
          rw [Function.update_self] at hv
          exact nomatch hv
        · rw [Function.update_of_ne hvw] at hv
          obtain ⟨home, hh⟩ := h.homed
          have h1 := hh.worker v f hv
          have h2 := hh.worker w f (by rw [hsw]; rfl)
          exact hvw (Option.some.inj (h1.symm.trans h2))
      obtain ⟨⟨b', k, hp⟩, _⟩ := hw
      have htimed := ht.timed_of_willEnd (hb f hparked)
      rw [hfiber.1] at htimed
      obtain ⟨time', unit', hcall', hk⟩ := h.calls ⟨b', Or.inr hp⟩
      obtain ⟨rfl, rfl⟩ := Prod.mk.inj (Option.some.inj (hcall.symm.trans hcall'))
      rw [hp] at htimed
      have hk' : k = true := WaitKind.tryWait.inj htimed
      exact of_decide_eq_true (hk.symm.trans hk')
    | _ => trivial

/-- The timed waits of a run are bounded exactly when no fiber is hung in one whose time converts
to zero or less. -/
theorem timed_waits_bounded_iff {capacity limit : B → ℕ} {acts : List (Act F W B T U)} :
    Run (Guarded (Positive toMillis) (Step toMillis)) (initial capacity limit) acts s ↔
      Run (Keeping Bounded (Step toMillis)) (initial capacity limit) acts s :=
  Run.guarded_iff_keeping (fun _ _ _ h hst => inv_step hst h)
    (fun _ _ _ h hb hst => ⟨fun ht => positive_of_bounded h hst ht,
      fun hg => bounded_of_positive h hb hst hg⟩)
    inv_initial fun _ hf => nomatch hf.1.2

/-- `tryWait(0, MILLISECONDS)` on a blocker without permits: the fiber is parked without a timer. -/
theorem parked_without_timer : ∃ s : State Unit Unit Unit Unit Unit,
    Reachable (Step fun _ time => time) (initial (fun _ => 0) fun _ => 1) s ∧
      s.call () = some (0, ()) ∧ Parked s.sched () ∧ (s.sched.fiber ()).timer = none ∧
      ¬ Bounded s := by
  refine ⟨_, ⟨_,
    .step (.sched (.schedule (f := ()) (w := ()) rfl) trivial) <|
    .step (.sched (.poll (w := ()) rfl rfl) trivial) <|
    .step (.sched (.dispatch (w := ()) rfl rfl) trivial) <|
    .step (.tryWait (f := ()) (b := ()) (t := 0) (u := ())
      (.check (w := ()) ⟨rfl, rfl⟩ rfl rfl)) <|
    .step (.sched (.block (w := ()) (f := ()) ⟨rfl, rfl⟩ rfl) trivial) <|
    .step (.sched (.switchBlocked (w := ()) rfl rfl rfl) trivial) <|
    .step (.sched (.swapOutHung (w := ()) rfl rfl) trivial) .refl⟩,
    rfl, ⟨⟨⟨_, _, rfl⟩, rfl⟩, fun _ => nofun⟩, rfl, fun h => ?_⟩
  obtain ⟨w, ⟨hw, _⟩ | ⟨hw, _⟩⟩ := h () ⟨⟨⟨_, _, rfl⟩, rfl⟩, fun _ => nofun⟩
  · exact nomatch hw
  · exact nomatch WaitKind.tryWait.inj hw

end CxxFiber.TimedWait
