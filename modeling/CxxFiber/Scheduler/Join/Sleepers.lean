import CxxFiber.Scheduler.Affinity
import CxxFiber.Scheduler.Join.Exit

/-! What becomes of the fibers in `EFiber::sleep` when a fiber calls `interrupt`. -/
namespace CxxFiber.Scheduler

variable {F W B T : Type} [DecidableEq F]
  {x y : State F W B T} {act : Act F W B T} {f g : F} {v w : W} {q : List F} {a : Agent F W T}
  {u : EFiber B W → EFiber B W}

/-- Inside `EFiber::sleep`, suspended or about to return. -/
def Sleeps (x : State F W B T) (g : F) : Prop := (x.fiber g).pc = .sleeping

theorem Sleeps.modFiber (h : Sleeps x g) (hu : (u (x.fiber g)).pc = (x.fiber g).pc) :
    Sleeps (x.modFiber f u) g := by
  unfold Sleeps at h ⊢
  by_cases hg : g = f
  · subst f
    simpa [hu] using h
  · simpa [hg] using h

theorem Sleeps.other (h : Sleeps x g) (hf : (x.fiber f).pc ≠ .sleeping) :
    Sleeps (x.modFiber f u) g := by
  have hg : g ≠ f := by
    rintro rfl
    exact hf h
  simpa [Sleeps, hg] using h

theorem Sleeps.swapIn [DecidableEq W] [DecidableEq T]
    (h : Sleeps x g) : Sleeps (x.swapIn a f) g := by
  rw [swapIn_eq]
  exact h

variable [DecidableEq W] [DecidableEq B] [DecidableEq T]

/-- A fiber leaves `sleep` by returning from it only. -/
theorem sleeps_step (hst : Step x act y) (h : Sleeps x g) : act = .sleepReturn g ∨ Sleeps y g := by
  cases hst with
  | schedule => exact Or.inr (h.modFiber rfl)
  | @timer w f => exact Or.inr (h.modFiber (f := f) (u := .timeEvent) rfl).swapIn
  | fileEvent | swapIn => exact Or.inr h.swapIn
  | write => exact Or.inr (h.modFiber (u := .swapIn) rfl)
  | dispatch => exact Or.inr (h.modFiber rfl)
  | finish _ hp | block _ hp | sleep _ hp | pollEvents _ hp | check _ hp | pollReturn _ hp
  | removeTrue _ hp | removeFalse _ hp => exact Or.inr (h.other (by simp [hp]))
  | @waitReturn w f b _ hp =>
    have hf : Sleeps (x.modFiber f (.setPc .user)) g := by
      apply h.other
      rcases hp with hp | hp <;> simp [hp]
    exact Or.inr hf
  | @tryWaitReturn w f b timer _ hp =>
    have hf : Sleeps (x.modFiber f fun r => (r.cancelTimer.isWaitTimeout).setPc .user) g := by
      apply h.other
      rcases hp with hp | hp <;> simp [hp]
    exact Or.inr hf
  | timedOut _ hp =>
    apply Or.inr
    apply h.other
    rcases hp with hp | hp <;> simp [hp]
  | @sleepReturn w f =>
    by_cases hg : f = g
    · exact Or.inl (congrArg _ hg)
    · exact Or.inr (by simpa [Sleeps, Ne.symm hg] using h)
  | @swapOutPermit w f b c =>
    have hg : Sleeps (x.modFiber f .grant) g := by
      refine h.modFiber ?_
      have hp : (x.fiber g).pc = .sleeping := h
      simp [EFiber.grant, hp]
    exact Or.inr hg
  | @wakeUpRefused a | @wakeUpCounted a | @wakeUpWaiter a => cases a <;> exact Or.inr h
  | _ => exact Or.inr h

/-- A worker goes on with the sleeping fiber that it has polled, and runs one that it runs until
the fiber has returned. -/
theorem worker_sleeping (hst : Step x act y) (h : Sleeps x g)
    (hw : x.worker w = .polled g ∨ x.worker w = .running g) :
    y.worker w = .polled g ∨ y.worker w = .running g := by
  have hset : ∀ {v p}, y.worker = Function.update x.worker v p →
      (x.worker v ≠ .polled g ∧ x.worker v ≠ .running g) →
      y.worker w = .polled g ∨ y.worker w = .running g := by
    intro v p hy hv
    have hne : w ≠ v := by
      rintro rfl
      rcases hw with hw | hw
      · exact hv.1 hw
      · exact hv.2 hw
    rwa [hy, Function.update_of_ne hne]
  -- the worker of a fiber that is not in `sleep` is another one
  have hrun : ∀ {v f p r}, y.worker = Function.update x.worker v p → x.Active v f →
      (x.fiber f).pc = r → r ≠ .sleeping → y.worker w = .polled g ∨ y.worker w = .running g := by
    intro v f p r hy ha hf hr
    apply hset hy
    rw [ha.1]
    refine ⟨by simp, fun he => ?_⟩
    obtain rfl : f = g := by simpa using he
    exact hr (hf.symm.trans h)
  cases hst with
  | poll hv | pollEmpty hv | endIdle hv | switchRunnable hv | switchBlocked hv | switchOther hv
  | swapOutPermit hv | swapOutHung hv | requeue hv => exact hset rfl (by simp [hv])
  | yield ha hp | finish ha hp | block ha hp | sleep ha hp | pollEvents ha hp =>
    exact hrun rfl ha hp (by simp)
  | @dispatch v f hv =>
    by_cases hwv : w = v
    · subst v
      have hw : x.worker w = .polled g := hw.resolve_right (by simp [hv])
      obtain rfl : f = g := by simpa using hv.symm.trans hw
      exact Or.inr (by simp)
    · exact hw.imp (fun hw => by simpa [hwv] using hw) fun hw => by simpa [hwv] using hw
  | timer | fileEvent | swapIn =>
    rw [swapIn_worker]
    exact hw
  | @wakeUpRefused a | @wakeUpCounted a | @wakeUpWaiter a => cases a <;> exact hw
  | _ => exact hw

/-- The head of a queue stays until it is polled. -/
theorem queue_head (hst : Step x act y) (hq : x.taskQueue w = g :: q) (ha : act ≠ .poll w) :
    ∃ q', y.taskQueue w = g :: q' := by
  have hadd : ∀ {v f}, ∃ q', (x.add v f).taskQueue w = g :: q' := by
    intro v f
    by_cases hv : w = v
    · subst v
      exact ⟨q ++ [f], by simp [hq]⟩
    · exact ⟨q, by simp [hv, hq]⟩
  cases hst with
  | @schedule f v => exact hadd (v := v) (f := f)
  | @requeue v f => exact hadd (v := v) (f := f)
  | @add a f v => exact hadd (v := v) (f := f)
  | @poll v =>
    have hv : w ≠ v := by
      rintro rfl
      exact ha rfl
    exact ⟨q, by simp [hv, hq]⟩
  | timer | fileEvent | swapIn =>
    rw [swapIn_taskQueue]
    exact ⟨q, hq⟩
  | @wakeUpRefused a | @wakeUpCounted a | @wakeUpWaiter a => cases a <;> exact ⟨q, hq⟩
  | _ => exact ⟨q, hq⟩

end CxxFiber.Scheduler

namespace CxxFiber.Sleepers

open Transition
open Scheduler (Sleeps Homed)
open Join (Stage NotStarted notStarted_step sched_step)

variable {n : ℕ} {F B T : Type} [DecidableEq F] [DecidableEq B] [DecidableEq T]
  {x y : Join.State n F B T} {act : Join.Act n F B T} {g : F} {w : Fin (n + 1)}
  {capacity limit : B → ℕ}

instance (z : Scheduler.State F (Fin (n + 1)) B T) : Decidable (Sleeps z g) :=
  inferInstanceAs (Decidable (_ = _))

/-- `pending g` is history: a fiber has called `interrupt` while `g` was in `sleep`, and that call
of `sleep` has not raised yet. -/
structure State (n : ℕ) (F B T : Type) where
  join : Join.State n F B T
  pending : F → Bool

def initial (capacity limit : B → ℕ) : State n F B T where
  join := Join.initial capacity limit
  pending _ := false

/-- `interrupt f` is a call by the fiber `f`; the signals that it sends are steps of `join`, as are
the calls of `interrupt` by threads. -/
inductive Act (n : ℕ) (F B T : Type)
  | interrupt (f : F)
  | join (act : Join.Act n F B T)

namespace State

@[simp] def interrupt (s : State n F B T) (y : Join.State n F B T) : State n F B T where
  join := y
  pending g := s.pending g || decide (Sleeps s.join.sched g)

/-- `sleep` raises if it finds the scheduler interrupted when it has been resumed. -/
def after (s : State n F B T) : Join.Act n F B T → F → Bool
  | .sched (.sleepReturn g) =>
    if s.join.interrupted then Function.update s.pending g false else s.pending
  | _ => s.pending

end State

inductive Step (s : State n F B T) : Act n F B T → State n F B T → Prop
  | interrupt {w f u} : s.join.sched.Active w f → (s.join.sched.fiber f).pc = .user →
      s.join.call (.fiber f) = .idle → Join.Step s.join .interrupt u →
      Step s (.interrupt f) (s.interrupt u)
  | join {a u} : Join.Step s.join a u →
      Step s (.join a) { join := u, pending := s.after a }

/-- Out of its loop. -/
def Leaves : Stage n F → Prop
  | .clean _ | .check | .left _ | .done _ => True
  | _ => False

/-- No worker has left its loop before each of its sleeping fibers has raised. -/
def Delivered (s : State n F B T) : Prop :=
  ∀ w, Leaves (s.join.stage w) →
    ∀ g, s.pending g = true → (s.join.sched.fiber g).boundQueue ≠ some w

/-- `w` has polled or runs `g`, or has tested the flag and will poll `g`. -/
inductive Next (x : Join.State n F B T) (w : Fin (n + 1)) (g : F) : Prop
  | busy : x.stage w = .busy → x.sched.worker w = .polled g ∨ x.sched.worker w = .running g →
      Next x w g
  | counted (m : ℤ) (q : List F) : x.stage w = .counted m → x.sched.taskQueue w = g :: q →
      Next x w g

/-- The condition on a step: when a fiber calls `interrupt`, each sleeping fiber is the next one of
a worker, and no such worker's loop fails. -/
def InTime (s : State n F B T) : Act n F B T → Prop
  | .interrupt _ => ∀ g, Sleeps s.join.sched g → ∃ w, Next s.join w g
  | .join (.raise w) => ∀ g, s.pending g = true → ¬ Next s.join w g
  | .join _ => True

theorem sleeps_join (hst : Join.Step x act y) (h : Sleeps x.sched g) :
    act = .sched (.sleepReturn g) ∨ Sleeps y.sched g := by
  rcases sched_step hst with he | ⟨a, hu, ha⟩
  · exact Or.inr (he ▸ h)
  · refine (Scheduler.sleeps_step hu h).imp_left ?_
    rintro rfl
    rcases ha with ha | ⟨hl, _⟩
    · exact ha
    · exact hl.elim

/-- A busy worker stays busy until the context switch has brought it back to its loop. -/
theorem busy_step (hst : Join.Step x act y) (hn : NotStarted x) (hb : x.stage w = .busy)
    (hw : x.sched.worker w = .polled g ∨ x.sched.worker w = .running g) (hr : act ≠ .raise w) :
    y.stage w = .busy := by
  have hset : ∀ {v c}, y.stage = Function.update x.stage v c → v ≠ w → y.stage w = .busy := by
    intro v c hy hv
    rwa [hy, Function.update_of_ne hv.symm]
  have hne : ∀ {v c}, x.stage v = c → c ≠ .busy → v ≠ w := by
    rintro v c hv hc rfl
    exact hc (hv.symm.trans hb)
  cases hst with
  | start hi hc =>
    simp only [NotStarted, hc] at hn
    exact hset rfl (hne (hn.2 _ (by simp)) (by simp))
  | started hc =>
    simp only [NotStarted, hc] at hn
    exact hset rfl (hne hn.1 (by simp))
  | interrupted hs | count hs | poll hs | pollEmpty hs | pollDone hs | setHung hs | block hs
  | wake hs | drain hs | clearHung hs | retire hs | cleanSignal hs | cleaned hs | leave hs
  | caught _ hs => exact hset rfl (hne hs (by simp))
  | raise => exact hset rfl fun hv => hr (congrArg _ hv)
  | @sched act u ho hm hu =>
    -- the worker that switches is not one that has just polled its fiber, or runs it
    have hsw : ∀ {v p}, x.sched.worker v = p → p ≠ .polled g → p ≠ .running g → v ≠ w := by
      rintro v p hv hp hp' rfl
      rcases hw with hw | hw
      · exact hp (hv.symm.trans hw)
      · exact hp' (hv.symm.trans hw)
    cases hu with
    | switchRunnable hv | switchBlocked hv | switchOther hv | swapOutPermit hv | swapOutHung hv
    | requeue hv => exact hset rfl (hsw hv (by simp) (by simp))
    | _ => exact hb
  | _ => exact hb

/-- A worker that has tested the flag polls. -/
theorem counted_step {m : ℤ} (hst : Join.Step x act y) (hn : NotStarted x)
    (hc : x.stage w = .counted m) (hr : act ≠ .raise w) (hp : act ≠ .poll w) :
    y.stage w = .counted m := by
  have hset : ∀ {v c}, y.stage = Function.update x.stage v c → v ≠ w → y.stage w = .counted m := by
    intro v c hy hv
    rwa [hy, Function.update_of_ne hv.symm]
  have hne : ∀ {v c}, x.stage v = c → c ≠ .counted m → v ≠ w := by
    rintro v c hv hc' rfl
    exact hc' (hv.symm.trans hc)
  cases hst with
  | start hi hs =>
    simp only [NotStarted, hs] at hn
    exact hset rfl (hne (hn.2 _ (by simp)) (by simp))
  | started hs =>
    simp only [NotStarted, hs] at hn
    exact hset rfl (hne hn.1 (by simp))
  | interrupted hs | count hs | setHung hs | block hs | wake hs | drain hs | clearHung hs
  | retire hs | cleanSignal hs | cleaned hs | leave hs | caught _ hs =>
    exact hset rfl (hne hs (by simp))
  | raise => exact hset rfl fun hv => hr (congrArg _ hv)
  | poll | pollEmpty | pollDone => exact hset rfl fun hv => hp (congrArg _ hv)
  | @sched act u ho hm hu =>
    cases act with
    | switch v | swapOut v | requeue v =>
      refine hset rfl ?_
      rintro rfl
      have hm : Join.Awake (x.stage v) := hm
      simp [hc, Join.Awake] at hm
    | _ => exact hc
  | _ => exact hc

/-- A worker goes on to the sleeping fiber that is its next one. -/
theorem next_step (hst : Join.Step x act y) (hn : NotStarted x) (h : Next x w g)
    (hs : Sleeps x.sched g) (hr : act ≠ .raise w) : Next y w g := by
  cases h with
  | busy hb hw =>
    refine .busy (busy_step hst hn hb hw hr) ?_
    rcases sched_step hst with he | ⟨a, hu, _⟩
    · exact he ▸ hw
    · exact Scheduler.worker_sleeping hu hs hw
  | counted m q hc hq =>
    by_cases hp : act = .poll w
    · subst act
      cases hst with
      | poll hc' hu =>
        refine .busy (by simp) ?_
        cases hu with
        | @poll _ f q' _ hq' =>
          obtain ⟨rfl, rfl⟩ : g = f ∧ q = q' := by simpa [hq] using hq'
          exact Or.inl (by simp)
      | pollEmpty hc' hm hu =>
        cases hu with
        | pollEmpty _ he => simp [hq] at he
      | pollDone hc' hm he => simp [hq] at he
    · have hy := counted_step hst hn hc hr hp
      rcases sched_step hst with he | ⟨a, hu, ha⟩
      · exact .counted m q hy (he ▸ hq)
      · have hne : a ≠ .poll w := by
          rintro rfl
          rcases ha with rfl | ⟨_, ha⟩
          · cases hst with
            | sched ho => exact ho trivial
          · exact hp (ha w rfl)
        obtain ⟨q', hq'⟩ := Scheduler.queue_head hu hq hne
        exact .counted m q' hy hq'

/-- What holds of every state that the condition lets a run reach. -/
structure Inv (s : State n F B T) : Prop where
  started : NotStarted s.join
  homed : ∃ home, Homed s.join.sched home
  flag : ∀ g, s.pending g = true → s.join.interrupted = true
  sleeps : ∀ g, s.pending g = true → Sleeps s.join.sched g
  next : ∀ g, s.pending g = true → ∃ w, Next s.join w g

variable {s t : State n F B T} {a : Act n F B T} {as : List (Act n F B T)}

section

omit [DecidableEq F] [DecidableEq B] [DecidableEq T]

theorem inv_initial : Inv (initial capacity limit : State n F B T) where
  started _ := rfl
  homed := ⟨_, Scheduler.homed_initial⟩
  flag := by simp [initial]
  sleeps := by simp [initial]
  next := by simp [initial]

theorem Next.stage (h : Next x w g) : ¬ Leaves (x.stage w) := by
  cases h with
  | busy hb => simp [hb, Leaves]
  | counted m q hc => simp [hc, Leaves]

theorem Next.home {home : F → Option (Fin (n + 1))} (h : Next x w g) (hh : Homed x.sched home) :
    home g = some w := by
  cases h with
  | busy _ hw => exact hh.worker w g (by rcases hw with hw | hw <;> rw [hw] <;> rfl)
  | counted m q _ hq => exact hh.queue w g (by simp [hq])

theorem Inv.delivered (h : Inv s) : Delivered s := by
  intro w hl g hg hb
  obtain ⟨home, hh⟩ := h.homed
  obtain ⟨v, hv⟩ := h.next g hg
  have hvw : v = w := Option.some.inj ((hv.home hh).symm.trans (hh.bound g w hb))
  exact hv.stage (hvw ▸ hl)

end

theorem interrupted_step (hst : Join.Step x act y) (h : x.interrupted = true) :
    y.interrupted = true := by
  cases hst <;> first | exact h | rfl

section

omit [DecidableEq B] [DecidableEq T]

/-- Returning from `sleep`, a pending fiber raises. -/
theorem Inv.after (h : Inv s) (hg : s.after act g = true) :
    s.pending g = true ∧ act ≠ .sched (.sleepReturn g) := by
  unfold State.after at hg
  split at hg
  case h_1 f =>
    split at hg
    case isTrue hi =>
      by_cases he : g = f
      · simp [he] at hg
      · exact ⟨by simpa [he] using hg, by simp [Ne.symm he]⟩
    case isFalse hi => exact (hi (h.flag g hg)).elim
  case h_2 hne => exact ⟨hg, fun he => hne g he⟩

end

theorem inv_step (hst : Step s a t) (hg : InTime s a) (h : Inv s) : Inv t := by
  cases hst with
  | @interrupt w f y ha hp hc hu =>
    have hy : y = { s.join with interrupted := true } := by
      cases hu
      rfl
    have hin : ∀ g, s.pending g = true ∨ Sleeps s.join.sched g → Sleeps s.join.sched g := by
      intro g hg
      exact hg.elim (h.sleeps g) id
    have hpend : ∀ g, (s.interrupt y).pending g = true → Sleeps s.join.sched g := by
      intro g hg
      exact hin g (by simpa using hg)
    subst hy
    constructor
    case started => exact notStarted_step hu h.started
    case homed => exact h.homed
    case flag => exact fun _ _ => rfl
    case sleeps => exact hpend
    case next =>
      intro g hp
      obtain ⟨v, hv⟩ := hg g (hpend g hp)
      exact ⟨v, next_step hu h.started hv (hpend g hp) (by simp)⟩
  | @join act y hu =>
    constructor
    case started => exact notStarted_step hu h.started
    case homed =>
      obtain ⟨home, hh⟩ := h.homed
      rcases Affinity.homed_join hu hh with ⟨f, w, _, _, hy⟩ | hy
      · exact ⟨_, hy⟩
      · exact ⟨_, hy⟩
    case flag =>
      intro g hp
      exact interrupted_step hu (h.flag g (h.after hp).1)
    case sleeps =>
      intro g hp
      obtain ⟨hp, hne⟩ := h.after hp
      exact (sleeps_join hu (h.sleeps g hp)).resolve_left hne
    case next =>
      intro g hp
      have hp := (h.after hp).1
      obtain ⟨w, hw⟩ := h.next g hp
      refine ⟨w, next_step hu h.started hw (h.sleeps g hp) ?_⟩
      rintro rfl
      exact hg g hp hw

theorem sleepers_raise (h : Run (Guarded InTime Step) (initial capacity limit) as s) :
    Delivered s := by
  have hi : Inv s := h.invariant (fun _ _ _ hi hst => inv_step hst.2 hst.1 hi) inv_initial
  exact hi.delivered

/-- Two workers: worker 1 has put the sleeping fiber 1 back and tested the flag when fiber 0
interrupts; it polls and runs the fiber. -/
theorem sleepers_raise_polled : ∃ s : State 1 (Fin 2) Unit Unit,
    Delivered s ∧ s.pending 1 = true ∧ s.join.sched.worker 1 = .running 1 := by
  refine ⟨_, sleepers_raise <|
    .guard (s := initial (fun _ => 0) fun _ => 1) (.join (.schedule (f := 0) rfl rfl)) trivial <|
    .guard (.join (.schedule (f := 1) rfl rfl)) trivial <|
    .guard (.join (.callJoin rfl)) trivial <|
    .guard (.join (.dispatch (f := 0) (w := 0) rfl rfl (.schedule rfl))) trivial <|
    .guard (.join (.dispatch (f := 1) (w := 1) rfl rfl (.schedule rfl))) trivial <|
    .guard (.join (.dispatched rfl rfl)) trivial <|
    .guard (.join (.start (i := 0) (by decide) rfl)) trivial <|
    .guard (.join (.started rfl)) trivial <|
    .guard (.join (.count (w := 1) rfl rfl)) trivial <|
    .guard (.join (.poll (w := 1) rfl (.poll (f := 1) rfl rfl))) trivial <|
    .guard (.join (.sched (a := .dispatch 1) id trivial (.dispatch (f := 1) rfl rfl))) trivial <|
    .guard (.join (.sched (a := .sleep 1) id rfl (.sleep (w := 1) ⟨rfl, rfl⟩ rfl))) trivial <|
    .guard (.join (.sched (a := .switch 1) id trivial
      (.switchOther (f := 1) rfl (by decide) (by decide)))) trivial <|
    .guard (.join (.count (w := 1) rfl rfl)) trivial <|
    .guard (.join (.pollEmpty (w := 1) (m := 2) rfl (by decide) (.pollEmpty rfl rfl))) trivial <|
    .guard (.join (.setHung (w := 1) rfl)) trivial <|
    .guard (.join (.block (w := 1) rfl)) trivial <|
    .guard (.join (.wake (w := 1) rfl)) trivial <|
    .guard (.join (.sched (a := .timer 1 1) id trivial (.timer ⟨Or.inl rfl, rfl⟩ rfl))) trivial <|
    .guard (.join (.sched (a := .write (.worker 1)) id trivial (.write rfl))) trivial <|
    .guard (.join (.sched (a := .add (.worker 1)) id trivial (.add (g := 1) (v := 1) rfl rfl)))
      trivial <|
    .guard (.join (.clearHung (w := 1) rfl (.endIdle rfl rfl))) trivial <|
    .guard (.join (.count (w := 1) rfl rfl)) trivial <|
    .guard (.join (.count (w := 0) rfl rfl)) trivial <|
    .guard (.join (.poll (w := 0) rfl (.poll (f := 0) rfl rfl))) trivial <|
    .guard (.join (.sched (a := .dispatch 0) id trivial (.dispatch (f := 0) rfl rfl))) trivial <|
    .guard (.interrupt (w := 0) (f := 0) ⟨rfl, rfl⟩ rfl rfl .interrupt)
      (Fin.forall_fin_two.mpr ⟨fun hs => absurd (show FiberPc.user = .sleeping from hs) (by simp),
        fun _ => ⟨1, .counted 2 [] rfl rfl⟩⟩) <|
    .guard (.join (.poll (w := 1) rfl (.poll (f := 1) rfl rfl))) trivial <|
    .guard (.join (.sched (a := .dispatch 1) id trivial (.dispatch (f := 1) rfl rfl))) trivial
      .refl, rfl, rfl⟩

/-- One worker: fiber 0 sleeps, fiber 1 interrupts and ends, and the worker finds the flag at the
head of its loop. -/
theorem sleeper_left : ∃ s : State 0 (Fin 2) Unit Unit,
    Reachable Step (initial (fun _ => 0) fun _ => 1) s ∧ s.pending 0 = true ∧
      s.join.stage 0 = .clean [] ∧ ¬ Delivered s := by
  refine ⟨_, ⟨_,
    .step (.join (.schedule (f := 0) rfl rfl)) <|
    .step (.join (.schedule (f := 1) rfl rfl)) <|
    .step (.join (.callJoin rfl)) <|
    .step (.join (.dispatch (f := 0) (w := 0) rfl rfl (.schedule rfl))) <|
    .step (.join (.dispatch (f := 1) (w := 0) rfl rfl (.schedule rfl))) <|
    .step (.join (.dispatched rfl rfl)) <|
    .step (.join (.started rfl)) <|
    .step (.join (.count (w := 0) rfl rfl)) <|
    .step (.join (.poll (w := 0) rfl (.poll (f := 0) rfl rfl))) <|
    .step (.join (.sched (a := .dispatch 0) id trivial (.dispatch (f := 0) rfl rfl))) <|
    .step (.join (.sched (a := .sleep 0) id rfl (.sleep (w := 0) ⟨rfl, rfl⟩ rfl))) <|
    .step (.join (.sched (a := .switch 0) id trivial
      (.switchOther (f := 0) rfl (by decide) (by decide)))) <|
    .step (.join (.count (w := 0) rfl rfl)) <|
    .step (.join (.poll (w := 0) rfl (.poll (f := 1) rfl rfl))) <|
    .step (.join (.sched (a := .dispatch 0) id trivial (.dispatch (f := 1) rfl rfl))) <|
    .step (.interrupt (w := 0) (f := 1) ⟨rfl, rfl⟩ rfl rfl .interrupt) <|
    .step (.join (.signal (w := 0))) <|
    .step (.join (.sched (a := .finish 1) id rfl (.finish (w := 0) ⟨rfl, rfl⟩ rfl))) <|
    .step (.join (.sched (a := .switch 0) id trivial
      (.switchOther (f := 1) rfl (by decide) (by decide)))) <|
    .step (.join (.retire (w := 0) (f := 1) rfl)) <|
    .step (.join (.interrupted (w := 0) rfl rfl)) .refl⟩, rfl, rfl, fun h => ?_⟩
  exact h 0 trivial 0 rfl rfl

end CxxFiber.Sleepers
