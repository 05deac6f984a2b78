import CxxFiber.Library.Monitor
import CxxFiber.Scheduler.Change
import CxxFiber.Scheduler.Join.Interrupt

/-! The schedule callback of `join` and `joinWithThreadBind`, which all workers call. It is set
before the loops start and does not throw. -/
namespace CxxFiber.Callbacks

open Scheduler (WorkerPc Homed homed_initial)
open Join (Stage NotStarted notStarted_step sched_step)
open Interrupt (Tied tied_step)
open Transition

variable {n : ℕ} {F B T : Type}

/-- `SchedulePhase`, with `currentFiber` where it is not null. -/
inductive SchedulePhase (F : Type)
  | scheduleBefore
  | scheduleIdle
  | fiberBefore (currentFiber : F)
  | fiberAfter (currentFiber : F)
  | scheduleAfter
  deriving DecidableEq, Repr

/-- The calls before and after `fiber->context->swapIn()`. -/
def aroundSwapIn : WorkerPc F B → WorkerPc F B → Option (SchedulePhase F)
  | .polled f, .running _ => some (.fiberBefore f)
  | .running f, .switching _ => some (.fiberAfter f)
  | _, _ => none

/-- The other calls. -/
def aroundLoop : Stage n F → Stage n F → Option (SchedulePhase F)
  | .off, .loop => some .scheduleBefore
  | .events _, .loop => some .scheduleIdle
  | .clean _, .check => some .scheduleAfter
  | _, _ => none

/-- The call that lies between two places of a worker. -/
def scheduleCallback (x y : Join.State n F B T) (w : Fin (n + 1)) : Option (SchedulePhase F) :=
  (aroundLoop (x.stage w) (y.stage w)).or (aroundSwapIn (x.sched.worker w) (y.sched.worker w))

/-- The calls in a step of `join`, with the index of the thread. -/
def calls (x y : Join.State n F B T) : List (Fin (n + 1) × SchedulePhase F) :=
  reports (List.finRange (n + 1)) (scheduleCallback x y)

/-- A call that is made by `w`. -/
def madeBy (w : Fin (n + 1)) (c : Fin (n + 1) × SchedulePhase F) : Option (SchedulePhase F) :=
  if c.1 = w then some c.2 else none

/-- A call that is made around a run of `f`. -/
def about [DecidableEq F] (f : F) (c : Fin (n + 1) × SchedulePhase F) :
    Option (Fin (n + 1) × SchedulePhase F) :=
  if c.2 = .fiberBefore f ∨ c.2 = .fiberAfter f then some c else none

/-- Where a worker stands for someone who hears its calls only. -/
inductive Bracket (F : Type)
  | before
  | between
  | inside (f : F)
  | after
  deriving DecidableEq, Repr

inductive Next : Bracket F → SchedulePhase F → Bracket F → Prop
  | start : Next .before .scheduleBefore .between
  | idle : Next .between .scheduleIdle .between
  | enter {f} : Next .between (.fiberBefore f) (.inside f)
  | leave {f} : Next (.inside f) (.fiberAfter f) .between
  | stop : Next .between .scheduleAfter .after

/-- Where a fiber runs, for someone who hears the calls about it only. -/
inductive Turn (f : F) : Option (Fin (n + 1)) → Fin (n + 1) × SchedulePhase F →
    Option (Fin (n + 1)) → Prop
  | enter {w} : Turn f none (w, .fiberBefore f) (some w)
  | leave {w} : Turn f (some w) (w, .fiberAfter f) none

/-- Past the last call of a worker that no exception has stopped. -/
def Finished : Stage n F → Prop
  | .check | .left false | .done false => True
  | _ => False

/-- Past the loop. -/
def Ended : Stage n F → Prop
  | .check | .left _ | .done _ => True
  | _ => False

/-- The calls of a worker tell where it is. -/
structure Follows (c : Stage n F) (p : WorkerPc F B) (q : Bracket F) : Prop where
  before : q = .before ↔ c = .off
  inside : ∀ f, q = .inside f ↔ p = .running f
  after : Finished c → q = .after
  ended : q = .after → Ended c

variable {x y : Join.State n F B T}
  {act : Join.Act n F B T} {v w : Fin (n + 1)} {f g : F} {q : Bracket F}
  {capacity limit : B → ℕ}

/-- Runs of `join` with the calls that its workers have made. -/
abbrev Step [DecidableEq F] [DecidableEq B] [DecidableEq T] :
    Join.State n F B T × List (Fin (n + 1) × SchedulePhase F) → Join.Act n F B T →
    Join.State n F B T × List (Fin (n + 1) × SchedulePhase F) → Prop :=
  Logged Join.Step calls

/-- What is always so of the stages. -/
structure Placed (x : Join.State n F B T) : Prop where
  notStarted : NotStarted x
  tied : Tied x
  busy : ∀ w f, x.sched.worker w = .running f → x.stage w = .busy

theorem placed_initial : Placed (Join.initial capacity limit : Join.State n F B T) where
  notStarted _ := rfl
  tied _ := rfl
  busy _ _ h := by simp [Join.initial, Scheduler.initial] at h

theorem Placed.awake (h : Placed x) (ha : Join.Awake (x.stage w))
    (hw : x.sched.worker w ≠ .idle) : x.stage w = .busy := by
  have hr := h.tied w
  cases hs : x.stage w with
  | busy => rfl
  | events b =>
    rw [hs] at hr
    exact (hw hr).elim
  | _ =>
    rw [hs] at ha
    exact ha.elim

theorem placed_step [DecidableEq F] [DecidableEq B] [DecidableEq T]
    (hst : Join.Step x act y) (h : Placed x) : Placed y := by
  refine ⟨notStarted_step hst h.notStarted, tied_step hst h.notStarted h.tied, fun w f hf => ?_⟩
  by_cases hx : x.sched.worker w = .running f
  · refine Sleepers.busy_step hst h.notStarted (h.busy w f hx) (Or.inr hx) ?_
    rintro rfl
    cases hst with
    | raise _ hr => exact hr f hx
  · rcases sched_step hst with he | ⟨b, hu, hb⟩
    · exact (hx (he ▸ hf)).elim
    · have hm := Scheduler.moves_step hu w
      generalize y.sched.worker w = p at hm hf
      cases hm with
      | keep => exact (hx hf).elim
      | dispatch hw =>
        obtain rfl := WorkerPc.running.inj hf
        rcases hb with rfl | ⟨hl, _⟩
        · cases hst with
          | sched _ ha => exact h.awake ha (by simp [hw])
        · exact hl.elim
      | _ => cases hf

/-- One step at one worker, with its call. -/
inductive Moved : Stage n F → Stage n F → WorkerPc F B → WorkerPc F B →
    Option (SchedulePhase F) → Prop
  | quiet {c d p r} : (d = .off ↔ c = .off) → (∀ f, r = .running f ↔ p = .running f) →
      (Finished d → Finished c) → (Ended c → Ended d) → Moved c d p r none
  | start {p} : (∀ f, p ≠ .running f) → Moved .off .loop p p (some .scheduleBefore)
  | idle {b} : Moved (.events b) .loop .idle .head (some .scheduleIdle)
  | enter {f : F} : Moved .busy .busy (.polled f) (.running f) (some (.fiberBefore f))
  | leave {f : F} : Moved .busy .busy (.running f) (.switching f) (some (.fiberAfter f))
  | stop {l p} : (∀ f, p ≠ .running f) → Moved (.clean l) .check p p (some .scheduleAfter)

theorem aroundSwapIn_self (p : WorkerPc F B) : aroundSwapIn p p = none := by
  cases p <;> rfl

theorem aroundLoop_self (c : Stage n F) : aroundLoop c c = none := by
  cases c <;> rfl

theorem Moved.same {c : Stage n F} {p : WorkerPc F B} : Moved c c p p none :=
  .quiet Iff.rfl (fun _ => Iff.rfl) id id

/-- From a stage of the loop to another one, with no run in between. -/
theorem Moved.loop {c d : Stage n F} {p r : WorkerPc F B} (hc : c ≠ .off) (hd : d ≠ .off)
    (hp : ∀ f, p ≠ .running f) (hr : ∀ f, r ≠ .running f) (hf : ¬ Finished d) (he : ¬ Ended c) :
    Moved c d p r none :=
  .quiet ⟨fun h => (hd h).elim, fun h => (hc h).elim⟩
    (fun f => ⟨fun h => (hr f h).elim, fun h => (hp f h).elim⟩) (fun h => (hf h).elim)
    fun h => (he h).elim

def MovedAt (x y : Join.State n F B T) (w : Fin (n + 1)) : Prop :=
  Moved (x.stage w) (y.stage w) (x.sched.worker w) (y.sched.worker w) (scheduleCallback x y w)

/-- One worker moves. -/
theorem MovedAt.set {c : Stage n F} {p : WorkerPc F B} (hc : y.stage = Function.update x.stage v c)
    (hp : y.sched.worker = Function.update x.sched.worker v p)
    (hm : Moved (x.stage v) c (x.sched.worker v) p
      ((aroundLoop (x.stage v) c).or (aroundSwapIn (x.sched.worker v) p))) : MovedAt x y w := by
  unfold MovedAt scheduleCallback
  by_cases hw : w = v
  · subst v
    rwa [hc, hp, Function.update_self, Function.update_self]
  · rw [hc, hp, Function.update_of_ne hw, Function.update_of_ne hw, aroundLoop_self,
      aroundSwapIn_self]
    exact .same

theorem MovedAt.stage {c d : Stage n F} (hv : x.stage v = c)
    (hd : y.stage = Function.update x.stage v d) (hs : y.sched = x.sched)
    (hm : Moved c d (x.sched.worker v) (x.sched.worker v) (aroundLoop c d)) : MovedAt x y w := by
  refine .set hd (by rw [hs, Function.update_eq_self]) ?_
  rw [hv, aroundSwapIn_self, Option.or_none]
  exact hm

theorem MovedAt.worker {p r : WorkerPc F B} (hs : y.stage = x.stage) (hv : x.sched.worker v = p)
    (hp : y.sched.worker = Function.update x.sched.worker v r)
    (hm : Moved (x.stage v) (x.stage v) p r (aroundSwapIn p r)) : MovedAt x y w := by
  refine .set (by rw [hs, Function.update_eq_self]) hp ?_
  rw [hv, aroundLoop_self, Option.none_or]
  exact hm

theorem MovedAt.same (hs : y.stage = x.stage) (hw : y.sched.worker = x.sched.worker) :
    MovedAt x y w := by
  unfold MovedAt scheduleCallback
  rw [hs, hw, aroundLoop_self, aroundSwapIn_self]
  exact .same

theorem Placed.idle (h : Placed x) {c : Stage n F} (hs : x.stage w = c) (hc : c ≠ .busy) (f : F) :
    x.sched.worker w ≠ .running f := fun hf => hc (hs.symm.trans (h.busy w f hf))

/-- A stage of the loop follows another one without a fiber. -/
theorem Placed.loop (h : Placed x) {c d : Stage n F} (hv : x.stage v = c)
    (hd : y.stage = Function.update x.stage v d) (hs : y.sched = x.sched) (hb : c ≠ .busy)
    (hc : c ≠ .off ∧ ¬ Ended c) (ho : d ≠ .off ∧ ¬ Finished d) (hn : aroundLoop c d = none) :
    MovedAt x y w := by
  refine .stage hv hd hs ?_
  rw [hn]
  exact .loop hc.1 ho.1 (h.idle hv hb) (h.idle hv hb) ho.2 hc.2

theorem moved_step [DecidableEq F] [DecidableEq B] [DecidableEq T]
    (hst : Join.Step x act y) (h : Placed x) (w : Fin (n + 1)) :
    MovedAt x y w := by
  cases hst with
  | @start i hi hc =>
    have hn := h.notStarted
    simp only [NotStarted, hc] at hn
    have ho := hn.2 (Fin.succ ⟨i, hi⟩) (by simp)
    exact .stage ho rfl rfl (.start (h.idle ho (by simp)))
  | started hc =>
    have hn := h.notStarted
    simp only [NotStarted, hc] at hn
    exact .stage hn.1 rfl rfl (.start (h.idle hn.1 (by simp)))
  | interrupted hs | count hs | pollDone hs | setHung hs | block hs | wake hs | drain hs
  | cleanSignal hs | retire hs =>
    exact h.loop hs rfl rfl (by simp) ⟨by simp, id⟩ ⟨by simp, id⟩ rfl
  | cleaned hs => exact .stage hs rfl rfl (.stop (h.idle hs (by simp)))
  | leave hs =>
    exact .stage hs rfl rfl
      (.quiet (by simp) (fun _ => Iff.rfl) (fun _ => trivial) fun _ => trivial)
  | @raise v hs hr =>
    have hoff : x.stage v ≠ .off := by
      intro he
      simp [he, Join.InLoop] at hs
    refine .stage rfl rfl rfl ?_
    have hn : aroundLoop (x.stage v) (.left true) = none := by
      cases x.stage v <;> rfl
    rw [hn]
    exact .quiet (by simp [hoff]) (fun _ => Iff.rfl) False.elim fun _ => trivial
  | @caught v b hv hs =>
    exact .stage hs rfl rfl (.quiet (by simp) (fun _ => Iff.rfl) (by cases b <;> exact id) id)
  | poll hs hu =>
    cases hu with
    | poll hw hq =>
      refine .set rfl rfl ?_
      rw [hs, hw]
      exact .loop (by simp) (by simp) (by simp) (by simp) id id
  | pollEmpty hs hm hu =>
    cases hu with
    | pollEmpty hw hq =>
      refine .set rfl rfl ?_
      rw [hs, hw]
      exact .loop (by simp) (by simp) (by simp) (by simp) id id
  | clearHung hs hu =>
    cases hu with
    | endIdle hw hr =>
      refine .set rfl rfl ?_
      rw [hs, hw]
      exact .idle
  | dispatch _ _ hu | addCall _ hu =>
    cases hu
    exact .same rfl rfl
  | @sched b u ho hm hu =>
    -- the worker has switched back from a fiber, and lets it go or queues it
    have hback : ∀ {v p r}, Join.stageAfter x u b =
          Function.update x.stage v (Join.settled x.sched u v) →
        u.worker = Function.update x.sched.worker v r → x.sched.worker v = p →
        Join.Awake (x.stage v) → p ≠ .idle → (∀ f, p ≠ .running f) → (∀ f, r ≠ .running f) →
        aroundSwapIn p r = none →
          MovedAt x { x with sched := u, stage := Join.stageAfter x u b } w := by
      intro v p r hs hr hp ha hi hpr hrr hn
      have hb := h.awake ha (hp ▸ hi)
      refine .set hs hr ?_
      rw [hb, hp, hn]
      rcases Join.settled_ne x.sched u _ rfl with he | he | ⟨f, he⟩ <;> rw [he] <;>
        exact .loop (by simp) (by simp) hpr hrr id id
    cases hu with
    | dispatch hw =>
      refine .worker rfl hw rfl ?_
      rw [h.awake hm (by simp [hw])]
      exact .enter
    | yield ha | finish ha | block ha | sleep ha | pollEvents ha =>
      refine .worker rfl ha.1 rfl ?_
      rw [h.busy _ _ ha.1]
      exact .leave
    | switchRunnable hw | switchBlocked hw | switchOther hw | swapOutPermit hw | swapOutHung hw
    | requeue hw => exact hback rfl rfl hw hm (by simp) (by simp) (by simp) rfl
    | schedule | poll | pollEmpty | endIdle => exact (ho trivial).elim
    | timer | fileEvent | swapIn => exact .same rfl Scheduler.swapIn_worker
    | @wakeUpRefused a | @wakeUpCounted a | @wakeUpWaiter a => cases a <;> exact .same rfl rfl
    | _ => exact .same rfl rfl
  | _ => exact .same rfl rfl

theorem Follows.moved {c d : Stage n F} {p r : WorkerPc F B} {o : Option (SchedulePhase F)}
    (h : Follows c p q) (hm : Moved c d p r o) :
    ∃ q', Run Next q o.toList q' ∧ Follows d r q' := by
  -- with no fiber, in the loop
  have hbetween : (∀ f, p ≠ .running f) → c ≠ .off → ¬ Ended c → q = .between := by
    intro hp hc he
    cases hq : q with
    | before => exact (hc (h.before.mp hq)).elim
    | between => rfl
    | inside f => exact (hp f ((h.inside f).mp hq)).elim
    | after => exact (he (h.ended hq)).elim
  cases hm with
  | quiet ho hr hf he =>
    exact ⟨q, .refl, ⟨h.before.trans ho.symm, fun f => (h.inside f).trans (hr f).symm,
      fun hd => h.after (hf hd), fun hq => he (h.ended hq)⟩⟩
  | start hp =>
    obtain rfl := h.before.mpr rfl
    exact ⟨.between, .step .start .refl,
      ⟨by simp, fun f => ⟨by simp, fun hf => (hp f hf).elim⟩, False.elim, by simp⟩⟩
  | idle =>
    obtain rfl := hbetween (by simp) (by simp) id
    exact ⟨.between, .step .idle .refl, ⟨by simp, by simp, False.elim, by simp⟩⟩
  | @enter f =>
    obtain rfl := hbetween (by simp) (by simp) id
    exact ⟨.inside f, .step .enter .refl, ⟨by simp, by simp, False.elim, by simp⟩⟩
  | @leave f =>
    obtain rfl := (h.inside f).mpr rfl
    exact ⟨.between, .step .leave .refl, ⟨by simp, by simp, False.elim, by simp⟩⟩
  | stop hp =>
    obtain rfl := hbetween hp (by simp) id
    exact ⟨.after, .step .stop .refl,
      ⟨by simp, fun f => ⟨by simp, fun hf => (hp f hf).elim⟩, fun _ => rfl, fun _ => trivial⟩⟩

/-- One step moves one worker. -/
theorem mover [DecidableEq F] [DecidableEq B] [DecidableEq T] (hst : Join.Step x act y) :
    ∃ v, ∀ w, w ≠ v → y.stage w = x.stage w ∧ y.sched.worker w = x.sched.worker w := by
  have hset : ∀ {v c p}, y.stage = Function.update x.stage v c →
      y.sched.worker = Function.update x.sched.worker v p →
      ∃ v, ∀ w, w ≠ v → y.stage w = x.stage w ∧ y.sched.worker w = x.sched.worker w := by
    intro v c p hc hp
    refine ⟨v, fun w hw => ?_⟩
    rw [hc, hp, Function.update_of_ne hw, Function.update_of_ne hw]
    exact ⟨rfl, rfl⟩
  have hstage : ∀ {v c}, y.stage = Function.update x.stage v c → y.sched = x.sched →
      ∃ v, ∀ w, w ≠ v → y.stage w = x.stage w ∧ y.sched.worker w = x.sched.worker w :=
    fun hc hs => hset hc (by rw [hs, Function.update_eq_self])
  have hworker : ∀ {v p}, y.stage = x.stage →
      y.sched.worker = Function.update x.sched.worker v p →
      ∃ v, ∀ w, w ≠ v → y.stage w = x.stage w ∧ y.sched.worker w = x.sched.worker w :=
    fun hs hp => hset (by rw [hs, Function.update_eq_self]) hp
  have hsame : y.stage = x.stage → y.sched.worker = x.sched.worker →
      ∃ v, ∀ w, w ≠ v → y.stage w = x.stage w ∧ y.sched.worker w = x.sched.worker w :=
    fun hs hw => ⟨0, fun w _ => by rw [hs, hw]; exact ⟨rfl, rfl⟩⟩
  cases hst with
  | start | started | interrupted | count | pollDone | setHung | block | wake | drain
  | cleanSignal | retire | cleaned | leave | raise | caught => exact hstage rfl rfl
  | poll hs hu | pollEmpty hs hm hu | clearHung hs hu =>
    cases hu
    exact hset rfl rfl
  | dispatch _ _ hu | addCall _ hu =>
    cases hu
    exact hsame rfl rfl
  | sched ho hm hu =>
    cases hu with
    | dispatch | yield | finish | block | sleep | pollEvents => exact hworker rfl rfl
    | switchRunnable | switchBlocked | switchOther | swapOutPermit | swapOutHung | requeue =>
      exact hset rfl rfl
    | schedule | poll | pollEmpty | endIdle => exact (ho trivial).elim
    | timer | fileEvent | swapIn => exact hsame rfl Scheduler.swapIn_worker
    | @wakeUpRefused a | @wakeUpCounted a | @wakeUpWaiter a => cases a <;> exact hsame rfl rfl
    | _ => exact hsame rfl rfl
  | _ => exact hsame rfl rfl

theorem scheduleCallback_same (hs : y.stage w = x.stage w)
    (hp : y.sched.worker w = x.sched.worker w) : scheduleCallback x y w = none := by
  rw [scheduleCallback, hs, hp, aroundLoop_self, aroundSwapIn_self]
  rfl

variable [DecidableEq F] [DecidableEq B] [DecidableEq T]

/-- So it makes at most one call. -/
theorem calls_step (hst : Join.Step x act y) : ∃ v,
    (∀ w, w ≠ v → y.stage w = x.stage w ∧ y.sched.worker w = x.sched.worker w) ∧
      calls x y = ((scheduleCallback x y v).map (Prod.mk v)).toList := by
  obtain ⟨v, hv⟩ := mover hst
  exact ⟨v, hv, reports_single (List.nodup_finRange _) (List.mem_finRange v)
    fun w hw => scheduleCallback_same (hv w hw).1 (hv w hw).2⟩

theorem calls_madeBy (hst : Join.Step x act y) (w : Fin (n + 1)) :
    (calls x y).filterMap (madeBy w) = (scheduleCallback x y w).toList := by
  obtain ⟨v, hv, hc⟩ := calls_step hst
  rw [hc]
  by_cases hw : w = v
  · subst v
    cases scheduleCallback x y w <;> simp [madeBy]
  · rw [scheduleCallback_same (hv w hw).1 (hv w hw).2]
    cases scheduleCallback x y v <;> simp [madeBy, Ne.symm hw]

variable {as : List (Join.Act n F B T)}

/-- The caller's own loop ends once. -/
theorem left_zero_step (hst : Join.Step x act y) (hn : NotStarted x) {b : Bool}
    (h : x.stage 0 = .left b) : y.stage 0 = .left b := by
  by_cases ha : act = .start
  · subst act
    cases hst with
    | @start i hi hc =>
      simp only [NotStarted, hc] at hn
      simp [hn.1] at h
    | started hc =>
      simp only [NotStarted, hc] at hn
      simp [hn.1] at h
  · exact (Join.stage_step hst ha 0).left_zero h

/-- A caller that joins the pool, or has returned, has left its own loop without an exception. -/
structure LeftLoop (x : Join.State n F B T) : Prop where
  left : x.caller = .returned ∨ (∃ i, x.caller = .joining i) → x.stage 0 = .left false

theorem leftLoop_step (hst : Join.Step x act y) (hn : NotStarted x) (h : LeftLoop x) :
    LeftLoop y := by
  have hkeep : y.caller = x.caller → LeftLoop y :=
    fun hc => ⟨fun hy => left_zero_step hst hn (h.left (hc ▸ hy))⟩
  cases hst with
  | callJoin | dispatched | start | started => exact ⟨by simp⟩
  | @work b hc hs =>
    cases b with
    | true => exact ⟨by simp⟩
    | false => exact ⟨fun _ => hs⟩
  | joinPool _ hc => exact ⟨fun _ => h.left (Or.inr ⟨_, hc⟩)⟩
  | joined hc =>
    cases he : x.hasError with
    | true => exact ⟨by simp⟩
    | false => exact ⟨fun _ => h.left (Or.inr ⟨_, hc⟩)⟩
  | _ => exact hkeep rfl

/-- In a run that ends without an exception in the caller's loop, no exception has left the pool
behind. -/
theorem poolGone_run (h : Run Join.Step x as y) (hn : NotStarted x) (hy : y.stage 0 ≠ .left true) :
    Run (Guarded Join.PoolGone Join.Step) x as y := by
  induction h with
  | refl => exact .refl
  | @step x u y a as hst hrun ih =>
    have hu := notStarted_step hst hn
    have hleft : u.stage 0 ≠ .left true := fun he =>
      hy (hrun.invariant (I := fun z => NotStarted z ∧ z.stage 0 = .left true)
        (fun _ _ _ hi hs => ⟨notStarted_step hs hi.1, left_zero_step hs hi.1 hi.2⟩) ⟨hu, he⟩).2
    refine .step ⟨?_, hst⟩ (ih hu hy)
    rintro (⟨rfl, hi⟩ | rfl)
    · cases hst with
      | leave hs => exact (hleft (by simp [hi])).elim
    · cases hst with
      | raise hs hr => exact (hleft (by simp)).elim

/-- When `join` has returned, every worker has finished. -/
theorem finished_returned (h : Run Join.Step (Join.initial capacity limit) as x)
    (hr : x.caller = .returned) (w : Fin (n + 1)) : Finished (x.stage w) := by
  have hl := h.invariant (I := fun z => NotStarted z ∧ LeftLoop z)
    (fun _ _ _ hi hs => ⟨notStarted_step hs hi.1, leftLoop_step hs hi.1 hi.2⟩)
    ⟨fun _ => rfl, ⟨by simp [Join.initial]⟩⟩
  have h0 := hl.2.left (Or.inl hr)
  have hi := Join.exitInv_run (poolGone_run h (fun _ => rfl) (by simp [h0]))
  have hp := hi.exits.error hr w
  by_cases hw : w = 0
  · subst w
    rw [h0]
    trivial
  · have hc := hi.caller
    simp only [Join.CallerOk, hr] at hc
    obtain ⟨b, hb⟩ := hc.2.2 w hw
    rw [hb] at hp ⊢
    cases b with
    | true => exact (hp rfl).elim
    | false => trivial

variable {s : Join.State n F B T × List (Fin (n + 1) × SchedulePhase F)}

/-- The calls of a worker are SCHEDULE_BEFORE, then SCHEDULE_IDLE and pairs of FIBER_BEFORE and
FIBER_AFTER with one fiber in any order, then SCHEDULE_AFTER; they tell where the worker is, and
are complete when `join` has returned. -/
theorem calls_bracketed (h : Run Step (Join.initial capacity limit, []) as s) (w : Fin (n + 1)) :
    ∃ q, Run Next .before (s.2.filterMap (madeBy w)) q ∧
      Follows (s.1.stage w) (s.1.sched.worker w) q ∧ (s.1.caller = .returned → q = .after) := by
  have hq : ∃ q, Run Next .before (s.2.filterMap (madeBy w)) q ∧
      Follows (s.1.stage w) (s.1.sched.worker w) q := by
    refine Run.watched (I := Placed) (R := fun x q => Follows (x.stage w) (x.sched.worker w) q)
      (fun _ _ _ hi hst => placed_step hst hi) (fun x act y q hi hq hst => ?_) h placed_initial
      .refl ?_
    · rw [calls_madeBy hst]
      exact hq.moved (moved_step hst hi w)
    · constructor <;> simp [Join.initial, Scheduler.initial, Finished]
  obtain ⟨q, hq, hf⟩ := hq
  exact ⟨q, hq, hf, fun hr => hf.after (finished_returned h.unlogged hr w)⟩

/-- One worker and one fiber. -/
theorem calls_bracketed_once : ∃ s : Join.State 0 Unit Unit Unit ×
    List (Fin 1 × SchedulePhase Unit), s.1.caller = .returned ∧
      s.2 = [(0, .scheduleBefore), (0, .fiberBefore ()), (0, .fiberAfter ()), (0, .scheduleAfter)] ∧
      ∃ q, Run Next .before (s.2.filterMap (madeBy 0)) q ∧
        Follows (s.1.stage 0) (s.1.sched.worker 0) q ∧ (s.1.caller = .returned → q = .after) := by
  refine ⟨(_, _), ?_, ?_, calls_bracketed (n := 0) (T := Unit) (
    .step (.step (.schedule (s := Join.initial (fun _ => 0) fun _ => 1) (f := ()) rfl rfl)) <|
    .step (.step (.callJoin rfl)) <|
    .step (.step (.dispatch (w := 0) rfl rfl (.schedule rfl))) <|
    .step (.step (.dispatched rfl rfl)) <| .step (.step (.started rfl)) <|
    .step (.step (.count (w := 0) rfl rfl)) <|
    .step (.step (.poll (w := 0) (m := 1) rfl (.poll rfl rfl))) <|
    .step (.step (.sched (a := .dispatch 0) id trivial (.dispatch (f := ()) rfl rfl))) <|
    .step (.step (.sched (a := .finish ()) id rfl (.finish (w := 0) ⟨rfl, rfl⟩ rfl))) <|
    .step (.step (.sched (a := .switch 0) id trivial
      (.switchOther (f := ()) rfl (by decide) (by decide)))) <|
    .step (.step (.retire (w := 0) (f := ()) rfl)) <|
    .step (.step (.count (w := 0) rfl rfl)) <|
    .step (.step (.pollDone (w := 0) (m := 0) rfl (by decide) rfl)) <|
    .step (.step (.cleaned (w := 0) rfl)) <| .step (.step (.leave (w := 0) rfl)) <|
    .step (.step (.work (b := false) rfl rfl)) <| .step (.step (.joined rfl)) .refl) 0⟩
  · rfl
  · rfl

/-- Homes keep a fiber from running on two workers. -/
structure Kept (x : Join.State n F B T) : Prop where
  placed : Placed x
  homed : ∃ home, Homed x.sched home

theorem kept_step (hst : Join.Step x act y) (h : Kept x) : Kept y := by
  refine ⟨placed_step hst h.placed, ?_⟩
  obtain ⟨home, hh⟩ := h.homed
  rcases Affinity.homed_join hst hh with ⟨f, w, _, _, hy⟩ | hy
  · exact ⟨_, hy⟩
  · exact ⟨_, hy⟩

section

omit [DecidableEq F] [DecidableEq B] [DecidableEq T]

theorem Kept.single (h : Kept x) (hv : (x.sched.worker v).fiber? = some f)
    (hw : (x.sched.worker w).fiber? = some f) : v = w := by
  obtain ⟨home, hh⟩ := h.homed
  exact Option.some.inj ((hh.worker v f hv).symm.trans (hh.worker w f hw))

end

/-- The calls about a fiber tell on which worker it runs. -/
theorem turn_step {o : Option (Fin (n + 1))} (hst : Join.Step x act y) (h : Kept x)
    (ho : ∀ w, o = some w ↔ x.sched.worker w = .running f) :
    ∃ o', Run (Turn f) o ((calls x y).filterMap (about f)) o' ∧
      ∀ w, o' = some w ↔ y.sched.worker w = .running f := by
  obtain ⟨v, hv, hc⟩ := calls_step hst
  have hm : Moved _ _ _ _ _ := moved_step hst h.placed v
  rw [hc]
  -- a call that is not about `f`
  have hother : ∀ {l : List (Fin (n + 1) × SchedulePhase F)}, l = [] →
      (y.sched.worker v = .running f ↔ x.sched.worker v = .running f) →
      ∃ o', Run (Turn f) o l o' ∧ ∀ w, o' = some w ↔ y.sched.worker w = .running f := by
    rintro l rfl hr
    refine ⟨o, .refl, fun w => ?_⟩
    rw [ho w]
    by_cases hw : w = v
    · subst v
      exact hr.symm
    · rw [(hv w hw).2]
  generalize hpx : x.sched.worker v = p at hm hother
  generalize hpy : y.sched.worker v = r at hm hother
  generalize scheduleCallback x y v = c at hm
  generalize x.stage v = d at hm
  generalize y.stage v = e at hm
  cases hm with
  | quiet _ hr => exact hother rfl (hr f)
  | start hp | stop hp => exact hother (by simp [about]) Iff.rfl
  | idle => exact hother (by simp [about]) (by simp)
  | @enter g =>
    by_cases hg : g = f
    · subst g
      have hnone : ∀ w, x.sched.worker w ≠ .running f := by
        intro w hw
        obtain rfl := h.single (v := v) (w := w) (by rw [hpx]; rfl) (by rw [hw]; rfl)
        simp [hpx] at hw
      obtain rfl : o = none := by
        cases o with
        | none => rfl
        | some w => exact (hnone w ((ho w).mp rfl)).elim
      refine ⟨some v, by simpa [about] using Run.step .enter .refl, fun w => ?_⟩
      by_cases hw : w = v
      · subst v
        simp [hpy]
      · simp [(hv w hw).2, hnone w, Ne.symm hw]
    · exact hother (by simp [about, hg]) (by simp [hg])
  | @leave g =>
    by_cases hg : g = f
    · subst g
      obtain rfl := (ho v).mpr hpx
      refine ⟨none, by simpa [about] using Run.step .leave .refl, fun w => ?_⟩
      by_cases hw : w = v
      · subst v
        simp [hpy]
      · rw [(hv w hw).2, ← ho w]
        simp [Ne.symm hw]
    · exact hother (by simp [about, hg]) (by simp [hg])

/-- The calls about a fiber alternate between FIBER_BEFORE and FIBER_AFTER, each pair made by one
worker: no two workers report it at a time. -/
theorem calls_alternate (h : Run Step (Join.initial capacity limit, []) as s) (f : F) :
    ∃ o, Run (Turn f) none (s.2.filterMap (about f)) o ∧
      ∀ w, o = some w ↔ s.1.sched.worker w = .running f := by
  refine Run.watched (I := Kept)
    (R := fun x (o : Option (Fin (n + 1))) => ∀ w, o = some w ↔ x.sched.worker w = .running f)
    (fun _ _ _ hi hst => kept_step hst hi) (fun _ _ _ _ hi ho hst => turn_step hst hi ho) h
    ⟨placed_initial, _, homed_initial⟩ .refl ?_
  simp [Join.initial, Scheduler.initial]

/-- Two workers: the fiber runs on the pool thread. -/
theorem calls_alternate_pool : ∃ s : Join.State 1 Unit Unit Unit ×
    List (Fin 2 × SchedulePhase Unit),
      s.2 = [(1, .scheduleBefore), (0, .scheduleBefore), (1, .fiberBefore ())] ∧
      ∃ o, Run (Turn ()) none (s.2.filterMap (about ())) o ∧
        ∀ w, o = some w ↔ s.1.sched.worker w = .running () := by
  refine ⟨(_, _), ?_, calls_alternate (n := 1) (T := Unit) (
    .step (.step (.schedule (s := Join.initial (fun _ => 0) fun _ => 1) (f := ()) rfl rfl)) <|
    .step (.step (.callJoin rfl)) <|
    .step (.step (.dispatch (w := 1) rfl rfl (.schedule rfl))) <|
    .step (.step (.dispatched rfl rfl)) <|
    .step (.step (.start (i := 0) (by decide) rfl)) <| .step (.step (.started rfl)) <|
    .step (.step (.count (w := 1) rfl rfl)) <|
    .step (.step (.poll (w := 1) (m := 1) rfl (.poll rfl rfl))) <|
    .step (.step (.sched (a := .dispatch 1) id trivial (.dispatch (f := ()) rfl rfl))) .refl) ()⟩
  rfl

end CxxFiber.Callbacks
