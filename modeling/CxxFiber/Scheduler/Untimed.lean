import CxxFiber.Scheduler.Change
import CxxFiber.Scheduler.RunQueue

/-! Without timed waits no resume comes late, so every fiber keeps its one place. -/
namespace CxxFiber.Scheduler

open Transition

variable {F W B T : Type}
  {s t : State F W B T} {loc : F → Loc F W B T} {f g : F} {w v : W} {b : B}
  {a a' : Agent F W T} {k : WaitKind} {n : ℕ} {capacity limit : B → ℕ} {act : Act F W B T}
  {acts : List (Act F W B T)} {p : WorkerPc F B}

/-- A terminated fiber has no code left. -/
def Ended (s : State F W B T) : Prop :=
  ∀ f, (s.fiber f).state = .terminated → (s.fiber f).pc = .done

theorem Ended.update [DecidableEq F]
    {r : EFiber B W} (h : Ended s) (hf : t.fiber = Function.update s.fiber f r)
    (hr : r.state = .terminated →
      (s.fiber f).state = .terminated ∧ r.pc = (s.fiber f).pc ∨ r.pc = .done) : Ended t := by
  intro g hg
  by_cases hgf : g = f
  · subst g
    rw [hf, Function.update_self] at hg ⊢
    rcases hr hg with ⟨hs, hp⟩ | hp
    · exact hp.trans (h f hs)
    · exact hp
  · rw [hf, Function.update_of_ne hgf] at hg ⊢
    exact h g hg

theorem Ended.swapIn [DecidableEq F] [DecidableEq W] [DecidableEq T]
    (h : Ended s) : Ended (s.swapIn a g) := by
  simpa [Ended] using h

theorem ended_step [DecidableEq F] [DecidableEq W] [DecidableEq B] [DecidableEq T]
    (hst : Step s act t) (h : Ended s) : Ended t := by
  have hrun : ∀ {f p}, (s.fiber f).pc = p → p ≠ .done → (s.fiber f).state ≠ .terminated :=
    fun hp hne hs => hne (hp.symm.trans (h _ hs))
  cases hst with
  | poll | pollEmpty | endIdle | yield | tryWait | tryWaitFail | switchRunnable | switchBlocked
  | switchOther | swapOutHung | requeue | add | threadTryWait => exact h
  | @wakeUpRefused a b c | @wakeUpCounted a b c | @wakeUpWaiter a b c =>
    have hr : Ended ((s.setBlocker b c).release b a) := by
      intro g hg
      rw [release_eq.1] at hg ⊢
      exact h g hg
    exact hr
  | schedule => exact h.update rfl (by simp [EFiber.schedule])
  | write => exact h.update rfl (by simp [EFiber.swapIn])
  | @timer w f =>
    refine Ended.swapIn (Ended.update (t := s.modFiber f .timeEvent) h rfl ?_)
    exact fun hs => Or.inl ⟨hs, rfl⟩
  | fileEvent | swapIn => exact h.swapIn
  | dispatch => exact h.update rfl fun hs => Or.inl ⟨hs, rfl⟩
  | finish => exact h.update rfl fun _ => Or.inr rfl
  | check _ hp => exact h.update rfl fun hs => (hrun hp (by simp) hs).elim
  | block => exact h.update rfl (by simp [EFiber.block])
  | sleep => exact h.update rfl (by simp [EFiber.sleep])
  | pollEvents => exact h.update rfl (by simp [EFiber.pollEvents])
  | waitReturn _ hp | tryWaitReturn _ hp | timedOut _ hp =>
    refine h.update rfl fun hs => ?_
    rcases hp with hp | hp <;> exact (hrun hp (by simp) hs).elim
  | removeTrue _ hp | removeFalse _ hp | sleepReturn _ hp =>
    exact h.update rfl fun hs => (hrun hp (by simp) hs).elim
  | @pollReturn w f reads _ hp =>
    refine h.update rfl fun hs => ?_
    cases reads <;> exact (hrun hp (by simp) hs).elim
  | @swapOutPermit w f b c =>
    refine h.update rfl fun hs => ?_
    cases hp : (s.fiber f).pc with
    | parked b' k =>
      have hs : (s.fiber f).state = .terminated := by
        simpa [EFiber.grant, EFiber.setPc, hp] using hs
      exact (hrun hp (by simp) hs).elim
    | _ => exact Or.inl ⟨by simpa [EFiber.grant, hp] using hs, by simp [EFiber.grant, hp]⟩

/-- No wait arms a timer. -/
def NoTimer (_ : State F W B T) : Act F W B T → Prop
  | .check _ _ k => k ≠ .tryWait true
  | _ => True

/-- In nobody's hands and in no queue. -/
def Off (s : State F W B T) (f : F) : Prop :=
  (∀ w, f ∉ s.taskQueue w) ∧ (∀ w, (s.worker w).fiber? ≠ some f) ∧
    ∀ a, (s.resume a).bind Resume.fiber? ≠ some f

theorem Located.off_iff (h : Located s loc) : loc f = .off ↔ Off s f := by
  constructor
  · intro hf
    refine ⟨fun w hm => ?_, fun w hw => ?_, fun a ha => ?_⟩
    · simp [(h.queue w f).mp hm] at hf
    · simp [(h.held w f _).mpr ⟨rfl, hw⟩] at hf
    · obtain ⟨x, hx, hxf⟩ := Option.bind_eq_some_iff.mp ha
      simp [(h.resuming a f x).mpr ⟨hx, hxf⟩] at hf
  · rintro ⟨hq, hw, ha⟩
    cases hc : loc f with
    | off => rfl
    | queued w => exact (hq w ((h.queue w f).mpr hc)).elim
    | held w p =>
      obtain ⟨rfl, hp⟩ := (h.held w f p).mp hc
      exact (hw w hp).elim
    | resuming a x =>
      exact (ha a (Option.bind_eq_some_iff.mpr ⟨x, (h.resuming a f x).mp hc⟩)).elim

/-- The steps that can reach a fiber that is off. -/
inductive Reaches (s : State F W B T) (f : F) : Act F W B T → Prop
  | schedule (x : W) : (s.fiber f).state = .new → Reaches s f (.schedule f x)
  | timer (x : W) : (s.fiber f).timer = some x → Reaches s f (.timer x f)
  | fileEvent (x : W) : (s.fiber f).events = some x → Reaches s f (.fileEvent x f)
  | swapIn (x : Agent F W T) (m : ℕ) : s.resume x = some (.owed f m) → Reaches s f (.swapIn x)

theorem Off.frame (h : Off s f) (hq : t.taskQueue = s.taskQueue) (hw : t.worker = s.worker)
    (hr : t.resume = s.resume) : Off t f := by
  simpa only [Off, hq, hw, hr] using h

theorem Off.setWorker [DecidableEq W]
    (h : Off s f) (hp : p.fiber? ≠ some f) : Off (s.setWorker w p) f := by
  refine ⟨h.1, fun v => ?_, h.2.2⟩
  by_cases hv : v = w
  · subst v
    simpa using hp
  · simpa [hv] using h.2.1 v

theorem Off.add [DecidableEq W] (h : Off s f) (hg : g ≠ f) : Off (s.add w g) f := by
  refine ⟨fun v hm => ?_, h.2⟩
  by_cases hv : v = w
  · subst v
    have hm : f ∈ s.taskQueue w ∨ f = g := by simpa using hm
    rcases hm with hm | hm
    · exact h.1 w hm
    · exact hg hm.symm
  · exact h.1 v (by simpa [hv] using hm)

theorem Off.setResume [DecidableEq F] [DecidableEq W] [DecidableEq T]
    {r : Option (Resume F)} (h : Off s f)
    (hr : r.bind Resume.fiber? ≠ some f) :
    Off (s.setResume a r) f := by
  refine ⟨h.1, h.2.1, fun a' => ?_⟩
  by_cases ha : a' = a
  · subst a'
    simpa using hr
  · simpa [ha] using h.2.2 a'

theorem Off.ne (h : Off s f) (hg : (s.worker w).fiber? = some g) : g ≠ f := by
  rintro rfl
  exact h.2.1 w hg

theorem Off.ne_active (h : Off s f) (ha : s.Active w g) : g ≠ f := h.ne (by rw [ha.1]; rfl)

theorem Off.swapIn [DecidableEq F] [DecidableEq W] [DecidableEq T] (h : Off s f) (hg : g ≠ f) :
    (s.swapIn a g).fiber f = s.fiber f ∧ Off (s.swapIn a g) f := by
  unfold State.swapIn
  split
  · exact ⟨rfl, h.setResume (by simpa [Resume.fiber?])⟩
  · exact ⟨rfl, h.setResume (by simp)⟩

theorem Off.release [DecidableEq F] [DecidableEq B] (h : Off s f) : Off (s.release b a) f := by
  cases a <;> exact h

/-- Whatever does not reach a fiber leaves it as it is, and off. -/
theorem off_step [DecidableEq F] [DecidableEq W] [DecidableEq B] [DecidableEq T]
    (hst : Step s act t) (h : Off s f) (hr : ¬ Reaches s f act) :
    t.fiber f = s.fiber f ∧ Off t f := by
  have hmod : ∀ {g u}, g ≠ f → (s.modFiber g u).fiber f = s.fiber f := by
    intro g u hg
    simp [Ne.symm hg]
  cases hst with
  | @schedule g w hn =>
    have hg : g ≠ f := by
      rintro rfl
      exact hr (.schedule w hn)
    exact ⟨hmod hg, (h.frame (t := s.modFiber g _) rfl rfl rfl).add hg⟩
  | @poll w g q hw hq =>
    have hg : g ≠ f := by
      rintro rfl
      exact h.1 w (by simp [hq])
    refine ⟨rfl, Off.setWorker ⟨fun v hm => ?_, h.2⟩ (by simpa [WorkerPc.fiber?] using hg)⟩
    by_cases hv : v = w
    · subst v
      exact h.1 w (by rw [hq]; exact List.mem_cons_of_mem _ (by simpa using hm))
    · exact h.1 v (by simpa [hv] using hm)
  | pollEmpty | endIdle | switchOther => exact ⟨rfl, h.setWorker (by simp [WorkerPc.fiber?])⟩
  | @timer w g hw ht =>
    have hg : g ≠ f := by
      rintro rfl
      exact hr (.timer w ht)
    have hs := (h.frame (t := s.modFiber g .timeEvent) rfl rfl rfl).swapIn (a := .worker w) hg
    exact ⟨hs.1.trans (hmod hg), hs.2⟩
  | @fileEvent w g hw he =>
    refine h.swapIn ?_
    rintro rfl
    exact hr (.fileEvent w he)
  | @swapIn a g n ha =>
    refine h.swapIn ?_
    rintro rfl
    exact hr (.swapIn a n ha)
  | @dispatch w g hw _ =>
    have hg : g ≠ f := h.ne (w := w) (by rw [hw]; rfl)
    refine ⟨hmod hg, (h.frame (t := s.modFiber g _) rfl rfl rfl).setWorker ?_⟩
    simpa [WorkerPc.fiber?]
  | yield ha _ =>
    exact ⟨rfl, h.setWorker (by simpa [WorkerPc.fiber?] using h.ne_active ha)⟩
  | finish ha _ | block ha _ | sleep ha _ | pollEvents ha _ =>
    have hg := h.ne_active ha
    refine ⟨hmod hg, (h.frame (t := s.modFiber _ _) rfl rfl rfl).setWorker ?_⟩
    simpa [WorkerPc.fiber?]
  | tryWait | tryWaitFail | threadTryWait => exact ⟨rfl, h.frame rfl rfl rfl⟩
  | check ha | waitReturn ha | tryWaitReturn ha | timedOut ha | removeTrue ha | removeFalse ha
  | sleepReturn ha | pollReturn ha =>
    exact ⟨by simp [Ne.symm (h.ne_active ha)], h.frame rfl rfl rfl⟩
  | switchRunnable hw | switchBlocked hw =>
    have hg := h.ne (by rw [hw]; rfl)
    exact ⟨rfl, h.setWorker (by simpa [WorkerPc.fiber?])⟩
  | @swapOutPermit w g b c hw hc =>
    have hg : g ≠ f := h.ne (w := w) (by rw [hw]; rfl)
    exact ⟨hmod hg, (h.frame (t := (s.setBlocker b c).modFiber g _) rfl rfl rfl).setWorker
      (by simpa [WorkerPc.fiber?])⟩
  | swapOutHung =>
    exact ⟨rfl, (h.frame (t := s.setBlocker _ _) rfl rfl rfl).setWorker (by simp [WorkerPc.fiber?])⟩
  | @requeue w g hw =>
    have hg : g ≠ f := h.ne (w := w) (by rw [hw]; rfl)
    exact ⟨rfl, (h.add hg).setWorker (by simp [WorkerPc.fiber?])⟩
  | @wakeUpRefused a b c | @wakeUpCounted a b c =>
    have hs : Off (s.setBlocker b c) f := h.frame rfl rfl rfl
    exact ⟨by rw [release_eq.1]; rfl, hs.release⟩
  | @wakeUpWaiter a b c g =>
    have hs : Off (s.setBlocker b c) f := h.frame rfl rfl rfl
    exact ⟨congrFun release_eq.1 f, (hs.release (a := a)).setResume (by simp [Resume.fiber?])⟩
  | @write a g ha =>
    have hg : g ≠ f := by
      rintro rfl
      exact h.2.2 a (by rw [ha]; rfl)
    exact ⟨hmod hg, (h.frame (t := s.modFiber g _) rfl rfl rfl).setResume
      (by simpa [Resume.fiber?])⟩
  | @add a g v ha hb =>
    have hg : g ≠ f := by
      rintro rfl
      exact h.2.2 a (by rw [ha]; rfl)
    exact ⟨rfl, (h.add hg).setResume (by simp)⟩

/-- Not inside a wait that arms a timer. -/
def Plain (r : EFiber B W) : Prop :=
  ∀ b, r.pc ≠ .checked b (.tryWait true) ∧ r.pc ≠ .parked b (.tryWait true) ∧
    r.pc ≠ .granted b (.tryWait true)

/-- Suspended in a wait, or by a plain yield in state BLOCKED. -/
def Hung (r : EFiber B W) : Prop :=
  r.suspended = true ∧ ((∃ b k, r.pc = .parked b k) ∨ r.pc = .user)

/-- What a fiber in a wait queue, or dequeued and not yet resumed, is like without timers. -/
structure Untimed (s : State F W B T) : Prop where
  plain : ∀ f, Plain (s.fiber f)
  entry : ∀ b f, f ∈ (s.blocker b).waitQueue → (s.fiber f).suspended = true
  owed : ∀ a g n, s.resume a = some (.owed g n) →
    n = (s.fiber g).suspensions ∧ Hung (s.fiber g) ∧ Off s g
  unique : ∀ a a' g n n', s.resume a = some (.owed g n) → s.resume a' = some (.owed g n') → a = a'
  tested : ∀ a f w, s.resume a = some (.tested f) → (s.fiber f).timer = some w → a = .worker w

theorem untimed_initial : Untimed (initial capacity limit : State F W B T) := by
  constructor <;> simp [initial, EFiber.create, Plain]

theorem Plain.update [DecidableEq F] {r : EFiber B W} (h : ∀ g, Plain (s.fiber g))
    (hf : t.fiber = Function.update s.fiber f r) (hr : Plain (s.fiber f) → Plain r) (x : F) :
    Plain (t.fiber x) := by
  by_cases hx : x = f
  · subst x
    simpa [hf] using hr (h f)
  · simpa [hf, hx] using h x

theorem plain_step [DecidableEq F] [DecidableEq W] [DecidableEq B] [DecidableEq T]
    (hst : Step s act t) (hg : NoTimer s act) (h : ∀ g, Plain (s.fiber g)) (x : F) :
    Plain (t.fiber x) := by
  cases hst with
  | schedule | dispatch | write =>
    refine Plain.update h rfl (fun hp => ?_) x
    exact hp
  | poll | pollEmpty | endIdle | yield | tryWait | tryWaitFail | switchRunnable | switchBlocked
  | switchOther | swapOutHung | requeue | add | threadTryWait => exact h x
  | @wakeUpRefused a b c | @wakeUpCounted a b c | @wakeUpWaiter a b c =>
    have hr : Plain (((s.setBlocker b c).release b a).fiber x) := by
      rw [release_eq.1]
      exact h x
    exact hr
  | @timer w f =>
    rw [swapIn_fiber]
    exact Plain.update (t := s.modFiber f .timeEvent) h rfl (fun hp => hp) x
  | fileEvent | swapIn =>
    rw [swapIn_fiber]
    exact h x
  | finish => exact Plain.update h rfl (fun _ => by simp [Plain, EFiber.terminate]) x
  | check =>
    refine Plain.update h rfl (fun _ b' => ?_) x
    have hk : _ ≠ WaitKind.tryWait true := hg
    simp [EFiber.setPc, hk]
  | @block w f b k ha hp =>
    refine Plain.update h rfl (fun hf b' => ?_) x
    have hk : k ≠ .tryWait true := fun hk => (hf b).1 (hk ▸ hp)
    simp [EFiber.block, hk]
  | waitReturn | tryWaitReturn | timedOut | removeTrue | removeFalse | sleepReturn =>
    exact Plain.update h rfl (fun _ => by simp [Plain, EFiber.setPc]) x
  | sleep => exact Plain.update h rfl (fun _ => by simp [Plain, EFiber.sleep]) x
  | pollEvents => exact Plain.update h rfl (fun _ => by simp [Plain, EFiber.pollEvents]) x
  | pollReturn => exact Plain.update h rfl (fun _ => by simp [Plain, EFiber.pollDone]) x
  | @swapOutPermit w f b c hw hc =>
    refine Plain.update h rfl (fun hf b' => ?_) x
    cases hp : (s.fiber f).pc with
    | parked b'' k =>
      have hk : k ≠ .tryWait true := fun hk => (hf b'').2.1 (hk ▸ hp)
      simp [EFiber.grant, EFiber.setPc, hp, hk]
    | checked | granted => simpa [EFiber.grant, hp] using hf b'
    | _ => simp [EFiber.grant, hp]

theorem mem_setBlocker [DecidableEq B]
    {c : EFiberBlocker F} {b' : B} (hc : c.waitQueue ⊆ (s.blocker b').waitQueue)
    (hf : f ∈ (Function.update s.blocker b' c b).waitQueue) : f ∈ (s.blocker b).waitQueue := by
  by_cases hb : b = b'
  · subst b'
    exact hc (by simpa using hf)
  · simpa [hb] using hf

/-- Every entry of a wait queue was there before, or a `swapOut` has just put it there. -/
theorem waitQueue_step [DecidableEq F] [DecidableEq W] [DecidableEq B] [DecidableEq T]
    (hst : Step s act t) (hf : f ∈ (t.blocker b).waitQueue) :
    f ∈ (s.blocker b).waitQueue ∨ ∃ w, s.worker w = .swapOut f b ∧ t.fiber = s.fiber := by
  cases hst with
  | tryWait _ _ hc | tryWaitFail _ _ hc | threadTryWait _ hc | check _ _ hc =>
    exact Or.inl (mem_setBlocker (by rw [tryWait_waitQueue hc]; exact List.Subset.refl _) hf)
  | @removeTrue w g b' c _ _ hc | @removeFalse w g b' c _ _ hc =>
    have hce : ((s.blocker b').remove g).1 = c := congrArg Prod.fst hc
    refine Or.inl (mem_setBlocker ?_ hf)
    rw [← hce]
    exact List.erase_subset
  | swapOutPermit _ hc =>
    obtain ⟨-, rfl⟩ := EFiberBlocker.swapOut_permit.mp hc
    refine Or.inl (mem_setBlocker ?_ hf)
    exact List.Subset.refl _
  | @swapOutHung w g b' c hw hc =>
    obtain ⟨-, rfl⟩ := EFiberBlocker.swapOut_hung.mp hc
    by_cases hb : b = b'
    · subst b'
      have hm : f ∈ (s.blocker b).waitQueue ∨ f = g := by simpa using hf
      rcases hm with hm | rfl
      · exact Or.inl hm
      · exact Or.inr ⟨w, hw, rfl⟩
    · exact Or.inl (by simpa [hb] using hf)
  | wakeUpRefused _ hc =>
    obtain ⟨-, -, rfl⟩ := EFiberBlocker.wakeUp_refused.mp hc
    rw [release_eq.2.1] at hf
    refine Or.inl (mem_setBlocker ?_ hf)
    exact List.Subset.refl _
  | wakeUpCounted _ hc =>
    obtain ⟨-, -, rfl⟩ := EFiberBlocker.wakeUp_counted.mp hc
    rw [release_eq.2.1] at hf
    refine Or.inl (mem_setBlocker ?_ hf)
    exact List.Subset.refl _
  | @wakeUpWaiter x b' c g _ hc =>
    obtain ⟨q, hq, rfl⟩ := EFiberBlocker.wakeUp_waiter.mp hc
    have hf : f ∈ ((State.release _ b' x).blocker b).waitQueue := hf
    rw [release_eq.2.1] at hf
    refine Or.inl (mem_setBlocker ?_ hf)
    rw [hq]
    exact List.subset_cons_self _ _
  | timer | fileEvent | swapIn =>
    simp only [State.swapIn] at hf
    split at hf <;> exact Or.inl hf
  | _ => exact Or.inl hf

/-- Every outstanding `swapIn` was owed before, or a `wakeUp` has just dequeued its fiber. -/
theorem resume_step [DecidableEq F] [DecidableEq W] [DecidableEq B] [DecidableEq T]
    (hst : Step s act t) (hr : t.resume a = some (.owed g n)) :
    (s.resume a = some (.owed g n) ∧ act ≠ .swapIn a) ∨
      (s.resume a = none ∧ t.fiber = s.fiber ∧ n = (s.fiber g).suspensions ∧
        ∃ b, act = .wakeUp a b ∧ g ∈ (s.blocker b).waitQueue) := by
  have hswap : ∀ {u : State F W B T} {x h}, (u.swapIn x h).resume a = some (.owed g n) →
      u.resume a = some (.owed g n) ∧ a ≠ x := by
    intro u x h hu
    by_cases hx : a = x
    · subst x
      unfold State.swapIn at hu
      split at hu <;> simp at hu
    · unfold State.swapIn at hu
      split at hu <;> simpa [hx] using hu
  cases hst with
  | timer | fileEvent => exact Or.inl ⟨(hswap hr).1, by simp⟩
  | swapIn =>
    obtain ⟨hu, hx⟩ := hswap hr
    exact Or.inl ⟨hu, by simpa [eq_comm] using hx⟩
  | @write x _ | @add x =>
    by_cases hx : a = x
    · simp [hx] at hr
    · exact Or.inl ⟨by simpa [hx] using hr, by simp⟩
  | wakeUpRefused | wakeUpCounted =>
    exact Or.inl ⟨by rw [release_eq.2.2.2.2] at hr; exact hr, by simp⟩
  | @wakeUpWaiter x b c h hx hc =>
    by_cases hax : a = x
    · subst x
      have hgh : h = g ∧ (s.fiber h).suspensions = n := by simpa using hr
      obtain ⟨rfl, rfl⟩ := hgh
      obtain ⟨q, hq, -⟩ := EFiberBlocker.wakeUp_waiter.mp hc
      exact Or.inr ⟨hx.resume_none, release_eq.1, rfl, b, rfl, by simp [hq]⟩
    · refine Or.inl ⟨?_, by simp⟩
      have hr : ((s.setBlocker b c).release b x).resume a = some (.owed g n) := by
        simpa [hax] using hr
      rwa [release_eq.2.2.2.2] at hr
  | _ => exact Or.inl ⟨hr, by simp⟩

/-- Only its `swapIn` reaches a fiber that has been dequeued and not yet resumed. -/
theorem Untimed.reaches (hu : Untimed s) (hf : Facts s loc) (hh : Hung (s.fiber g))
    (hr : Reaches s g act) : ∃ x m, act = .swapIn x ∧ s.resume x = some (.owed g m) := by
  have hnt : ¬ Timed (s.fiber g).pc := by
    rcases hh.2 with ⟨b, k, hp⟩ | hp
    · have hk : k ≠ .tryWait true := fun hk => (hu.plain g b).2.1 (hk ▸ hp)
      simp [hp, Timed, hk]
    · simp [hp, Timed]
  cases hr with
  | schedule x hn => simp [Hung, EFiber.suspended, hn] at hh
  | timer x ht => simp [(hf.record g).timer_none hnt] at ht
  | fileEvent x he =>
    have hn := (hf.record g).events_none (by rcases hh.2 with ⟨b, k, hp⟩ | hp <;> simp [hp])
    simp [hn] at he
  | swapIn x m hx => exact ⟨x, m, rfl, hx⟩

theorem Untimed.hung (hu : Untimed s) (hf : Facts s loc) (hm : f ∈ (s.blocker b).waitQueue) :
    Hung (s.fiber f) ∧ loc f = .off := by
  have hs := hu.entry b f hm
  rcases hf.entry b f hm with ⟨k, hp, ⟨_, ho⟩ | ⟨_, hk, _⟩⟩ | ⟨_, hns⟩ | ⟨hp, _, _, ho⟩
  · exact ⟨⟨hs, Or.inl ⟨b, k, hp⟩⟩, ho⟩
  · exact ((hu.plain f b).2.1 (hk ▸ hp)).elim
  · simp [hs] at hns
  · exact ⟨⟨hs, Or.inr hp⟩, ho⟩

/-- A fiber whose `swapIn` is owed is in no wait queue. -/
theorem Untimed.unlinked (hu : Untimed s) (hf : Facts s loc) (ha : s.resume a = some (.owed g n))
    (b : B) : g ∉ (s.blocker b).waitQueue := by
  obtain ⟨hn, hh, -⟩ := hu.owed a g n ha
  exact fun hm => ((hf.owed a g n ha).2 hn hh.1).2.1 ⟨b, hm⟩

variable [DecidableEq F] [DecidableEq W] [DecidableEq B] [DecidableEq T]

theorem Untimed.onTime (hu : Untimed s) (hi : Inv s) (hst : Step s act t) : OnTime s act := by
  obtain ⟨loc, hl, hf⟩ := hi
  cases hst with
  | @timer w f hw ht =>
    refine ⟨fun b k hp => ?_, fun a ha => ?_⟩
    · have htimed := ((hf.record f).timer w ht).2
      simp only [hp, Timed] at htimed
      exact (hu.plain f b).2.2 (htimed ▸ hp)
    · -- nobody but the worker of the timer, who is in no callback
      rw [hu.tested a f w ha ht] at ha
      cases hw.2.symm.trans ha
  | swapIn =>
    refine ⟨fun g n hr _ => (hu.owed _ g n hr).1, fun g n hr _ a ha => ?_⟩
    exact (hu.owed _ g n hr).2.2.2.2 a (by rw [ha]; rfl)
  | _ => exact ⟨trivial, trivial⟩

/-- While a fiber with a timer is being resumed, it gets no other, and only its worker tests it. -/
theorem Untimed.tested_step (hu : Untimed s) (hl : Located s loc) (hf : Facts s loc)
    (hst : Step s act t) (hr : t.resume a = some (.tested f)) (ht : (t.fiber f).timer = some w) :
    a = .worker w := by
  rcases tested_gain hst hr with hs | ⟨v, rfl, -, hnone⟩ | ⟨v, rfl, he, hfib⟩ | ⟨n, hs, hfib⟩
  · rcases timer_gain (change_step hst f) ht with ht | ⟨v, ha⟩
    · exact hu.tested a f w hs ht
    · have hloc := (hl.resuming a f _).mpr ⟨hs, rfl⟩
      rw [hl.active ha] at hloc
      exact nomatch hloc
  · exact nomatch hnone.symm.trans ht
  · have hb := ((hf.record f).timer w (hfib ▸ ht)).1
    have hb' := ((hf.record f).events v he).1
    exact congrArg _ (Option.some.inj (hb'.symm.trans hb))
  · have htimed := ((hf.record f).timer w (hfib ▸ ht)).2
    rcases (hu.owed a f n hs).2.1.2 with ⟨b, k, hp⟩ | hp
    · simp only [hp, Timed] at htimed
      exact ((hu.plain f b).2.1 (htimed ▸ hp)).elim
    · simp [hp, Timed] at htimed

theorem untimed_step (hst : Step s act t) (hg : NoTimer s act) (hi : Inv s) (hu : Untimed s) :
    Untimed t := by
  obtain ⟨loc, hl, hf⟩ := hi
  have hkeep : ∀ {f}, Off s f → Hung (s.fiber f) →
      (∀ x m, act = .swapIn x → s.resume x ≠ some (.owed f m)) →
      t.fiber f = s.fiber f ∧ Off t f := by
    intro f ho hh hne
    refine off_step hst ho fun hr => ?_
    obtain ⟨x, m, ha, hx⟩ := hu.reaches hf hh hr
    exact hne x m ha hx
  refine ⟨plain_step hst hg hu.plain, fun b f hm => ?_, fun a g n hr => ?_,
    fun a a' g n n' hr hr' => ?_, fun a f w hr ht => ?_⟩
  · rcases waitQueue_step hst hm with hm | ⟨w, hw, hfib⟩
    · obtain ⟨hh, ho⟩ := hu.hung hf hm
      rw [(hkeep (hl.off_iff.mp ho) hh fun x m _ hx => hu.unlinked hf hx b hm).1]
      exact hh.1
    · have hp := hf.place f
      rw [(hl.held w f _).mpr ⟨hw, rfl⟩] at hp
      simp [hfib, EFiber.suspended, hp.2.1]
  · rcases resume_step hst hr with ⟨hs, hne⟩ | ⟨_, hfib, hn, b, rfl, hm⟩
    · obtain ⟨hn, hh, ho⟩ := hu.owed a g n hs
      obtain ⟨hfib, ho⟩ := hkeep ho hh fun x m hx hxm => hne (hu.unique x a g m n hxm hs ▸ hx)
      rw [hfib]
      exact ⟨hn, hh, ho⟩
    · obtain ⟨hh, ho⟩ := hu.hung hf hm
      have ho := (hkeep (hl.off_iff.mp ho) hh fun x m hx => by cases hx).2
      rw [hfib]
      exact ⟨hn, hh, ho⟩
  · rcases resume_step hst hr with ⟨hs, _⟩ | ⟨_, _, _, b, ha, hm⟩ <;>
      rcases resume_step hst hr' with ⟨hs', _⟩ | ⟨_, _, _, b', ha', hm'⟩
    · exact hu.unique a a' g n n' hs hs'
    · exact (hu.unlinked hf hs b' hm').elim
    · exact (hu.unlinked hf hs' b hm).elim
    · exact (Act.wakeUp.inj (ha.symm.trans ha')).1
  · exact hu.tested_step hl hf hst hr ht

theorem untimed_run (h : Run (Guarded NoTimer Step) (initial capacity limit) acts s) :
    Inv s ∧ Untimed s :=
  h.invariant (I := fun s => Inv s ∧ Untimed s)
    (fun _ _ _ hi hst => ⟨inv_step hst.2 (hi.2.onTime hi.1 hst.2) hi.1,
      untimed_step hst.2 hst.1 hi.1 hi.2⟩)
    ⟨inv_initial capacity limit, untimed_initial⟩

/-- Without timed waits no fiber is queued twice, or queued and running. -/
theorem run_queues_exclusive_untimed
    (h : Run (Guarded NoTimer Step) (initial capacity limit) acts s) : RunQueuesExclusive s :=
  (untimed_run h).1.exclusive

end CxxFiber.Scheduler
