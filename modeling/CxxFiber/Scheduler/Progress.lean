import CxxFiber.Scheduler.Change
import CxxFiber.Scheduler.Join
import CxxFiber.Scheduler.Preservation

/-! No party of the scheduler is ever stuck: no pointer that it follows is null, no assertion fails,
and no fiber that has ended is switched to. -/
namespace CxxFiber.Scheduler

open Join (party)
open Transition

variable {F W B T : Type}
  {s t : State F W B T} {f g : F} {w : W} {a : Agent F W T} {act : Act F W B T}
  {acts : List (Act F W B T)} {r : EFiber B W} {p : WorkerPc F B} {capacity limit : B → ℕ}

/-- The party has a step. -/
def CanGo [DecidableEq F] [DecidableEq W] [DecidableEq B] [DecidableEq T]
    (s : State F W B T) (a : Agent F W T) : Prop := ∃ act t, Step s act t ∧ party act = a

/-- A worker with a running fiber waits for it to switch back; everybody else can go on, and who is
inside `swapIn` can finish it. -/
structure Goes [DecidableEq F] [DecidableEq W] [DecidableEq B] [DecidableEq T]
    (s : State F W B T) : Prop where
  agent : ∀ a, s.resume a ≠ none → CanGo s a
  worker : ∀ w, (∀ f, s.worker w ≠ .running f) → CanGo s (.worker w)
  fiber : ∀ w f, s.worker w = .running f → CanGo s (.fiber f)

/-- The fields of a fiber, wherever it is. -/
structure Sane (r : EFiber B W) : Prop where
  blocked : r.state = .blocked → r.blocker ≠ none
  bound : r.suspended = true → r.boundQueue ≠ none
  done : r.pc = .done → r.state = .terminated

/-- A fiber that has ended is in no queue and with no worker but the one that retires it. -/
structure Alive (s : State F W B T) : Prop where
  sane : ∀ f, Sane (s.fiber f)
  queued : ∀ w f, f ∈ s.taskQueue w → (s.fiber f).state ≠ .terminated
  held : ∀ w f, (s.worker w).fiber? = some f → s.worker w ≠ .switching f →
    (s.fiber f).state ≠ .terminated
  resuming : ∀ a x f, s.resume a = some x → x.fiber? = some f →
    (s.fiber f).state ≠ .terminated ∧ (s.fiber f).boundQueue ≠ none

theorem alive_initial : Alive (initial capacity limit : State F W B T) := by
  constructor <;> simp [initial, EFiber.create, WorkerPc.fiber?]
  intro _
  constructor <;> simp [EFiber.suspended]

theorem terminated_change (hc : Change s f act r) (hr : r.state = .terminated) :
    (s.fiber f).state = .terminated ∨ act = .finish f := by
  cases hc with
  | finish => exact Or.inr rfl
  | schedule | write | block | sleep | pollEvents => cases hr
  | @pollReturn w reads => cases reads <;> exact Or.inl hr
  | grant =>
    unfold EFiber.grant at hr
    split at hr <;> exact Or.inl hr
  | _ => exact Or.inl hr

theorem bound_change (hc : Change s f act r) (hb : (s.fiber f).boundQueue ≠ none) :
    r.boundQueue ≠ none := by
  cases hc with
  | bind => simp [EFiber.bind]
  | @block w b k =>
    unfold EFiber.block
    split <;> exact hb
  | @pollEvents w timer reads => cases timer <;> exact hb
  | @pollReturn w reads => cases reads <;> exact hb
  | grant =>
    unfold EFiber.grant
    split <;> exact hb
  | _ => exact hb

theorem Sane.setPc {q : EFiber B W} (h : Sane r) (hs : q.state = r.state)
    (hb : q.blocker = r.blocker) (hq : q.boundQueue = r.boundQueue) (hp : q.pc ≠ .done) :
    Sane q := by
  refine ⟨fun h' => hb ▸ h.blocked (hs ▸ h'), fun h' => ?_, fun h' => (hp h').elim⟩
  rw [hq]
  refine h.bound ?_
  simpa [EFiber.suspended, hs] using h'

/-- A fiber that has been resumed is not suspended, and has not ended. -/
theorem Sane.runnable {q : EFiber B W} (hs : q.state = .runnable) (hp : q.pc ≠ .done) : Sane q :=
  ⟨by simp [hs], by simp [EFiber.suspended, hs], fun h => (hp h).elim⟩

/-- A fiber that begins a suspension. -/
theorem Sane.suspend {q : EFiber B W} (hs : q.state = .waiting ∨ q.blocker ≠ none)
    (hb : q.boundQueue ≠ none) (hp : q.pc ≠ .done) : Sane q := by
  refine ⟨fun h => ?_, fun _ => hb, fun h => (hp h).elim⟩
  rcases hs with hs | hs
  · simp [hs] at h
  · exact hs

theorem sane_change (hc : Change s f act r) (h : Sane (s.fiber f))
    (hb : ∀ w, s.Active w f → (s.fiber f).boundQueue ≠ none)
    (hr : ∀ a, s.resume a = some (.tested f) → (s.fiber f).state ≠ .terminated) : Sane r := by
  have hpc : (s.fiber f).state ≠ .terminated → (s.fiber f).pc ≠ .done := fun hs hp => hs (h.done hp)
  cases hc with
  | keep => exact h
  | schedule hn => exact .runnable rfl (hpc (by simp [hn]))
  | bind => exact ⟨h.blocked, fun _ => by simp [EFiber.bind], h.done⟩
  | write ha => exact .runnable rfl (hpc (hr _ ha))
  | timeEvent => exact ⟨h.blocked, h.bound, h.done⟩
  | finish =>
    exact ⟨by simp [EFiber.terminate], by simp [EFiber.terminate, EFiber.suspended], fun _ => rfl⟩
  | check | waitReturn | tryWaitReturn | timedOut | remove | sleepReturn =>
    exact h.setPc rfl rfl rfl (by simp [EFiber.setPc, EFiber.isWaitTimeout, EFiber.cancelTimer])
  | @block w b k ha =>
    refine .suspend (Or.inr (by simp [EFiber.block])) (bound_change (.block ha ‹_›) (hb w ha)) ?_
    simp [EFiber.block]
  | @sleep w ha => exact .suspend (Or.inl rfl) (hb w ha) (by simp [EFiber.sleep])
  | @pollEvents w timer reads ha hp =>
    have hq := bound_change (show Change s f _ ((s.fiber f).pollEvents w timer reads) from
      .pollEvents ha hp) (hb w ha)
    refine .suspend (Or.inl ?_) hq ?_
    · cases timer <;> rfl
    · simp [EFiber.pollEvents]
  | @pollReturn w reads =>
    refine h.setPc ?_ ?_ ?_ ?_ <;> cases reads <;> simp [EFiber.pollDone, EFiber.cancelTimer,
      EFiber.isWaitTimeout]
  | grant =>
    unfold EFiber.grant
    split
    · exact h.setPc rfl rfl rfl (by simp [EFiber.setPc])
    · exact h

/-- How a fiber comes into a queue. -/
theorem queue_gain [DecidableEq F] [DecidableEq W] [DecidableEq B] [DecidableEq T]
    (hst : Step s act t) (hm : f ∈ t.taskQueue w) : f ∈ s.taskQueue w ∨
    (s.fiber f).state = .new ∨ s.worker w = .requeue f ∨ ∃ a, s.resume a = some (.adding f) := by
  have hadd : ∀ {x : State F W B T} {v g}, x.taskQueue = s.taskQueue →
      f ∈ (x.add v g).taskQueue w → f ∈ s.taskQueue w ∨ w = v ∧ f = g := by
    intro x v g hx hm
    by_cases hv : w = v
    · subst v
      simp only [State.add, State.setQueue, Function.update_self, hx, List.mem_append,
        List.mem_singleton] at hm
      exact hm.imp_right fun he => ⟨rfl, he⟩
    · exact Or.inl (by simpa [hv, hx] using hm)
  cases hst with
  | schedule hn =>
    refine (hadd rfl hm).imp_right ?_
    rintro ⟨-, rfl⟩
    exact Or.inl hn
  | requeue hw =>
    refine (hadd rfl hm).imp_right ?_
    rintro ⟨rfl, rfl⟩
    exact Or.inr (Or.inl hw)
  | add ha hb =>
    refine (hadd rfl hm).imp_right ?_
    rintro ⟨-, rfl⟩
    exact Or.inr (Or.inr ⟨_, ha⟩)
  | @poll v g q hw hq =>
    by_cases hv : w = v
    · subst v
      exact Or.inl (by simpa [hq] using Or.inr (by simpa using hm))
    · exact Or.inl (by simpa [hv] using hm)
  | timer | fileEvent | swapIn =>
    rw [swapIn_taskQueue] at hm
    exact Or.inl hm
  | @wakeUpRefused a | @wakeUpCounted a | @wakeUpWaiter a => cases a <;> exact Or.inl hm
  | _ => exact Or.inl hm

/-- How a worker comes to a fiber that it may run. -/
theorem held_gain (hm : Moves s w act p) (hf : p.fiber? = some f) (hn : p ≠ .switching f) :
    ((s.worker w).fiber? = some f ∧ s.worker w ≠ .switching f) ∨ f ∈ s.taskQueue w ∨
      (s.fiber f).state = .runnable ∨ (s.fiber f).state = .blocked := by
  cases hm with
  | keep => exact Or.inl ⟨hf, hn⟩
  | poll hw hq =>
    cases hf
    exact Or.inr (Or.inl (by simp [hq]))
  | dispatch hw | swapOutPermit hw =>
    cases hf
    exact Or.inl ⟨by rw [hw]; rfl, by simp [hw]⟩
  | yield =>
    cases hf
    exact (hn rfl).elim
  | switchRunnable hw hs =>
    cases hf
    exact Or.inr (Or.inr (Or.inl hs))
  | switchBlocked hw hs =>
    cases hf
    exact Or.inr (Or.inr (Or.inr hs))
  | _ => cases hf

/-- Who resumes a fiber has found it suspended. -/
theorem resuming_gain [DecidableEq F] [DecidableEq W] [DecidableEq B] [DecidableEq T]
    {x : Resume F} (hst : Step s act t) (hr : t.resume a = some x)
    (hx : x.fiber? = some f) : (∃ y, s.resume a = some y ∧ y.fiber? = some f) ∨
      (s.fiber f).suspended = true ∧ ∀ g, act ≠ .finish g := by
  have hset : ∀ {b y}, t.resume = Function.update s.resume b y →
      (∀ z, y = some z → z.fiber? = some f → ∃ y, s.resume b = some y ∧ y.fiber? = some f) →
      ∃ y, s.resume a = some y ∧ y.fiber? = some f := by
    intro b y ht hy
    rw [ht] at hr
    by_cases ha : a = b
    · subst b
      rw [Function.update_self] at hr
      exact hy x hr hx
    · rw [Function.update_of_ne ha] at hr
      exact ⟨x, hr, hx⟩
  have hswap : ∀ {u : State F W B T} {b g}, u.resume = s.resume →
      ((u.fiber g).suspended = true → (s.fiber g).suspended = true) →
      (u.swapIn b g).resume a = some x →
      (∃ y, s.resume a = some y ∧ y.fiber? = some f) ∨ (s.fiber f).suspended = true := by
    intro u b g hu hs hr
    by_cases ha : a = b
    · subst b
      rw [swapIn_resume_self] at hr
      split at hr
      · next hsus =>
        obtain rfl := Option.some.inj hr
        obtain rfl := Option.some.inj hx
        exact Or.inr (hs hsus)
      · cases hr
    · rw [swapIn_resume ha, hu] at hr
      exact Or.inl ⟨x, hr, hx⟩
  cases hst with
  | @timer w g =>
    refine (hswap (u := s.modFiber g .timeEvent) rfl ?_ hr).imp_right fun hs => ⟨hs, by simp⟩
    simp [EFiber.suspended, EFiber.timeEvent]
  | fileEvent | swapIn => exact (hswap rfl id hr).imp_right fun hs => ⟨hs, by simp⟩
  | write ha =>
    refine Or.inl (hset rfl fun z hz hf => ⟨_, ha, ?_⟩)
    obtain rfl := Option.some.inj hz
    exact hf
  | @wakeUpRefused b | @wakeUpCounted b => cases b <;> exact Or.inl ⟨x, hr, hx⟩
  | @wakeUpWaiter b =>
    refine Or.inl (hset (congrArg (Function.update · b _) release_eq.2.2.2.2) fun z hz hf => ?_)
    obtain rfl := Option.some.inj hz
    cases hf
  | add => exact Or.inl (hset rfl fun _ hz => by cases hz)
  | _ => exact Or.inl ⟨x, hr, hx⟩

/-- A fiber that ends is with its worker only. -/
theorem finish_alone (hi : Inv s) (ha : s.Active w f) : (∀ v, f ∉ s.taskQueue v) ∧
    (∀ v, (s.worker v).fiber? = some f → v = w) ∧
      ∀ a x, s.resume a = some x → x.fiber? ≠ some f := by
  obtain ⟨loc, hl, -⟩ := hi
  have hloc := hl.active ha
  refine ⟨fun v hm => ?_, fun v hv => ?_, fun a x hr hx => ?_⟩
  · have := (hl.queue v f).mp hm
    simp [hloc] at this
  · have := (hl.held v f _).mpr ⟨rfl, hv⟩
    rw [hloc] at this
    injection this with hw
    exact hw.symm
  · have := (hl.resuming a f x).mpr ⟨hr, hx⟩
    simp [hloc] at this

variable [DecidableEq F] [DecidableEq W] [DecidableEq B] [DecidableEq T]

theorem alive_step (hst : Step s act t) (hi : Inv s) (h : Alive s) : Alive t := by
  have hterm : ∀ f, (t.fiber f).state = .terminated →
      (s.fiber f).state = .terminated ∨ act = .finish f :=
    fun f hf => terminated_change (change_step hst f) hf
  constructor
  case sane =>
    intro f
    refine sane_change (change_step hst f) (h.sane f) (fun w ha => ?_) fun a ha =>
      (h.resuming a _ f ha rfl).1
    obtain ⟨loc, hl, hf⟩ := hi
    simp [(hf.active hl ha).2]
  case queued =>
    intro w f hm ht
    rcases hterm f ht with hs | rfl
    · rcases queue_gain hst hm with hq | hn | hw | ⟨a, ha⟩
      · exact h.queued w f hq hs
      · simp [hn] at hs
      · exact h.held w f (by rw [hw]; rfl) (by simp [hw]) hs
      · exact (h.resuming a _ f ha rfl).1 hs
    · cases hst with
      | finish ha => exact (finish_alone hi ha).1 w hm
  case held =>
    intro w f hw hn ht
    rcases hterm f ht with hs | rfl
    · rcases held_gain (moves_step hst w) hw hn with ⟨hf, hne⟩ | hq | hr | hb
      · exact h.held w f hf hne hs
      · exact h.queued w f hq hs
      · simp [hr] at hs
      · simp [hb] at hs
    · cases hst with
      | @finish v g ha =>
        by_cases hwv : w = v
        · subst v
          simp at hn
        · exact hwv ((finish_alone hi ha).2.1 w (by simpa [hwv] using hw))
  case resuming =>
    intro a x f hr hx
    rcases resuming_gain hst hr hx with ⟨y, ha, hy⟩ | ⟨hs, hn⟩
    · obtain ⟨hs, hb⟩ := h.resuming a y f ha hy
      refine ⟨fun ht => ?_, bound_change (change_step hst f) hb⟩
      rcases hterm f ht with ht | rfl
      · exact hs ht
      · cases hst with
        | finish hact => exact (finish_alone hi hact).2.2 a y ha hy
    · refine ⟨fun ht => ?_, bound_change (change_step hst f) ((h.sane f).bound hs)⟩
      rcases hterm f ht with ht | rfl
      · simp [EFiber.suspended, ht] at hs
      · exact hn f rfl

/-- `swapIn` always finds the queue to add to. -/
theorem agent_goes (h : Alive s) (ha : s.resume a ≠ none) : CanGo s a := by
  cases hr : s.resume a with
  | none => exact (ha hr).elim
  | some x =>
    cases x with
    | owed g n => exact ⟨_, _, .swapIn hr, rfl⟩
    | tested g => exact ⟨_, _, .write hr, rfl⟩
    | adding g =>
      obtain ⟨v, hv⟩ := Option.ne_none_iff_exists'.mp (h.resuming a _ g hr rfl).2
      exact ⟨_, _, .add hr hv, rfl⟩

/-- The loop goes on at each of its places; the assertion before `swapOut` holds. -/
theorem worker_goes (h : Alive s) (hw : ∀ f, s.worker w ≠ .running f) : CanGo s (.worker w) := by
  by_cases hr : s.resume (.worker w) = none
  · cases hp : s.worker w with
    | head =>
      cases hq : s.taskQueue w with
      | nil => exact ⟨_, _, .pollEmpty hp hq, rfl⟩
      | cons f q => exact ⟨_, _, .poll hp hq, rfl⟩
    | idle => exact ⟨_, _, .endIdle hp hr, rfl⟩
    | polled f => exact ⟨_, _, .dispatch hp hr, rfl⟩
    | running f => exact (hw f hp).elim
    | switching f =>
      by_cases hrun : (s.fiber f).state = .runnable
      · exact ⟨_, _, .switchRunnable hp hrun, rfl⟩
      · by_cases hblk : (s.fiber f).state = .blocked
        · obtain ⟨b, hb⟩ := Option.ne_none_iff_exists'.mp ((h.sane f).blocked hblk)
          exact ⟨_, _, .switchBlocked hp hblk hb, rfl⟩
        · exact ⟨_, _, .switchOther hp hrun hblk, rfl⟩
    | swapOut f b =>
      cases hs : (s.blocker b).swapOut f with
      | mk c hung =>
        cases hung with
        | false => exact ⟨_, _, .swapOutPermit hp hs, rfl⟩
        | true => exact ⟨_, _, .swapOutHung hp hs, rfl⟩
    | requeue f => exact ⟨_, _, .requeue hp, rfl⟩
  · exact agent_goes h hr

/-- A running fiber goes on in its own code or out of the call it was suspended in. -/
theorem fiber_goes (h : Alive s) (hw : s.worker w = .running f) : CanGo s (.fiber f) := by
  by_cases hr : s.resume (.fiber f) = none
  · have ha : s.Active w f := ⟨hw, hr⟩
    have hwait : ∀ b k, (s.fiber f).pc = .parked b k ∨ (s.fiber f).pc = .granted b k →
        CanGo s (.fiber f) := by
      intro b k hp
      cases k with
      | wait => exact ⟨_, _, .waitReturn ha hp, rfl⟩
      | tryWait timer =>
        cases ht : (s.fiber f).isIoWaitTimeout with
        | false => exact ⟨_, _, .tryWaitReturn ha hp ht, rfl⟩
        | true => exact ⟨_, _, .timedOut ha hp ht, rfl⟩
    cases hp : (s.fiber f).pc with
    | user => exact ⟨_, _, .yield ha hp, rfl⟩
    | checked b k => exact ⟨_, _, .block ha hp, rfl⟩
    | parked b k => exact hwait b k (Or.inl hp)
    | granted b k => exact hwait b k (Or.inr hp)
    | removing b =>
      cases hc : (s.blocker b).remove f with
      | mk c found =>
        cases found with
        | false => exact ⟨_, _, .removeFalse ha hp hc, rfl⟩
        | true => exact ⟨_, _, .removeTrue ha hp hc, rfl⟩
    | sleeping => exact ⟨_, _, .sleepReturn ha hp, rfl⟩
    | polling reads => exact ⟨_, _, .pollReturn ha hp, rfl⟩
    | done => exact (h.held w f (by rw [hw]; rfl) (by simp [hw]) ((h.sane f).done hp)).elim
  · exact agent_goes h hr

theorem alive_run (h : Run (Guarded OnTime Step) (initial capacity limit) acts s) : Alive s :=
  (h.invariant (I := fun s => Inv s ∧ Alive s)
    (fun _ _ _ hi hs => ⟨inv_step hs.2 hs.1 hi.1, alive_step hs.2 hi.1 hi.2⟩)
    ⟨inv_initial capacity limit, alive_initial⟩).2

/-- Nobody is ever stuck, and a fiber that has ended is neither queued nor run nor resumed. -/
theorem never_stuck (h : Run (Guarded OnTime Step) (initial capacity limit) acts s) :
    Goes s ∧ ∀ f, (s.fiber f).state = .terminated → (∀ w, f ∉ s.taskQueue w) ∧
      (∀ w, (s.worker w).fiber? = some f → s.worker w = .switching f) ∧
      ∀ a x, s.resume a = some x → x.fiber? ≠ some f := by
  have ha := alive_run h
  refine ⟨⟨fun a => agent_goes ha, fun w => worker_goes ha, fun w f => fiber_goes ha⟩, ?_⟩
  intro f hf
  refine ⟨fun w hm => ha.queued w f hm hf, fun w hw => ?_,
    fun a x hr hx => (ha.resuming a x f hr hx).1 hf⟩
  by_contra hn
  exact ha.held w f hw hn hf

/-- A fiber has just ended. -/
theorem never_stuck_ended : ∃ s : State Unit Unit Unit Unit,
    (s.fiber ()).state = .terminated ∧ s.worker () = .switching () ∧
    Goes s ∧ ∀ f, (s.fiber f).state = .terminated → (∀ w, f ∉ s.taskQueue w) ∧
      (∀ w, (s.worker w).fiber? = some f → s.worker w = .switching f) ∧
      ∀ a x, s.resume a = some x → x.fiber? ≠ some f := by
  refine ⟨_, ?_, ?_, never_stuck <|
    .guard (.schedule (s := initial (fun _ => 0) fun _ => 1) (f := ()) (w := ()) rfl)
      ⟨trivial, trivial⟩ <|
    .guard (.poll (w := ()) rfl rfl) ⟨trivial, trivial⟩ <|
    .guard (.dispatch (w := ()) (f := ()) rfl rfl) ⟨trivial, trivial⟩ <|
    .guard (.finish (w := ()) (f := ()) ⟨rfl, rfl⟩ rfl) ⟨trivial, trivial⟩ .refl⟩
  · rfl
  · rfl

end CxxFiber.Scheduler
