import CxxFiber.Library.Counting
import CxxFiber.Scheduler.Join.Exit
import CxxFiber.Scheduler.Untimed

/-! `totalFiberCounter` counts the fibers that are not retired, and no loop ends before it is 0. -/
namespace CxxFiber.Join

open Transition
open Scheduler (Agent)

variable {n : ℕ} {F B T : Type}
  {s t : State n F B T} {a : Act n F B T} {as : List (Act n F B T)} {w v : Fin (n + 1)} {f g : F}
  {x y : Scheduler.State F (Fin (n + 1)) B T} {act : Scheduler.Act F (Fin (n + 1)) B T}
  {capacity limit : B → ℕ}

/-- Nobody interrupts, only fibers schedule once `join` is under way, and no wait arms a timer. -/
def Ordinary (_ : State n F B T) : Act n F B T → Prop
  | .interrupt => False
  | .countCall (.thread _) _ => False
  | .sched (.check _ _ k) => k ≠ .tryWait true
  | _ => True

/-- Fibers that are counted. -/
def counted : Life → ℕ
  | .live => 1
  | _ => 0

/-- Out of the loop, by its own end. -/
def OutOfLoop : Stage n F → Prop
  | .clean _ | .check | .left false | .done false => True
  | _ => False

/-- The counter is the number of fibers scheduled and not retired, and a worker that is out of its
loop has left nothing undone. -/
structure Accounted (s : State n F B T) : Prop where
  counter : ∃ L : Finset F, (∀ f, f ∈ L ↔ s.life f = .live) ∧ s.totalFiberCounter = L.card
  terminated : ∀ w, OutOfLoop (s.stage w) → ∀ f, s.life f ≠ .fresh →
    s.life f = .retired ∧ (s.sched.fiber f).state = .terminated
  queues : ∀ w, OutOfLoop (s.stage w) → s.defaultTaskQueue = [] ∧ ∀ v, s.sched.taskQueue v = []

/-- What the fibers are like: each has one place, no resume comes late, and a terminated fiber has
no code left. -/
structure Fibers (x : Scheduler.State F (Fin (n + 1)) B T) : Prop where
  inv : Scheduler.Inv x
  untimed : Scheduler.Untimed x
  ended : Scheduler.Ended x

/-- Not yet scheduled, or terminated and in nobody's hands. -/
def Outside (x : Scheduler.State F (Fin (n + 1)) B T) (f : F) : Prop :=
  ((x.fiber f).state = .new ∨ (x.fiber f).state = .terminated) ∧ Scheduler.Off x f

theorem fibers_initial : Fibers (Scheduler.initial capacity limit :
    Scheduler.State F (Fin (n + 1)) B T) where
  inv := Scheduler.inv_initial capacity limit
  untimed := Scheduler.untimed_initial
  ended := by simp [Scheduler.Ended, Scheduler.initial, EFiber.create]

theorem fibers_step [DecidableEq F] [DecidableEq B] [DecidableEq T]
    (hst : Scheduler.Step x act y) (hg : Scheduler.NoTimer x act) (h : Fibers x) :
    Fibers y :=
  ⟨Scheduler.inv_step hst (h.untimed.onTime h.inv hst) h.inv,
    Scheduler.untimed_step hst hg h.inv h.untimed, Scheduler.ended_step hst h.ended⟩

theorem Fibers.outside_new (h : Fibers x) (hn : (x.fiber f).state = .new) : Outside x f := by
  obtain ⟨loc, hl, hf⟩ := h.inv
  exact ⟨Or.inl hn, hl.off_iff.mp (hf.place_new hn)⟩

theorem schedule_new [DecidableEq F] [DecidableEq B] [DecidableEq T]
    (hst : Scheduler.Step x (.schedule f w) y) : (x.fiber f).state = .new := by
  cases hst with
  | schedule hn => exact hn

/-- Only `schedule` reaches a fiber that is outside. -/
theorem Fibers.reaches (h : Fibers x) (ho : Outside x f) (hr : Scheduler.Reaches x f act) :
    ∃ w, act = .schedule f w := by
  obtain ⟨loc, hl, hf⟩ := h.inv
  have hrec := hf.record f
  have hnot : ∀ v, (x.fiber f).boundQueue = some v → (x.fiber f).pc = .done := by
    intro v hv
    rcases ho.1 with hn | ht
    · simp [hrec.unbound hn] at hv
    · exact h.ended f ht
  cases hr with
  | schedule w hn => exact ⟨w, rfl⟩
  | timer w ht =>
    obtain ⟨hb, hp⟩ := hrec.timer w ht
    simp [hnot w hb, Scheduler.Timed] at hp
  | fileEvent w he =>
    obtain ⟨hb, c, hp⟩ := hrec.events w he
    simp [hnot w hb] at hp
  | swapIn b m ha =>
    have hh := (h.untimed.owed b f m ha).2.1.1
    rcases ho.1 with hs | hs <;> simp [EFiber.suspended, hs] at hh

/-- A fiber that is outside and not scheduled stays as it is. -/
theorem Fibers.outside_step [DecidableEq F] [DecidableEq B] [DecidableEq T]
    (h : Fibers x) (hst : Scheduler.Step x act y) (ho : Outside x f)
    (hne : ∀ w, act ≠ .schedule f w) : y.fiber f = x.fiber f ∧ Outside y f := by
  obtain ⟨he, hoff⟩ := Scheduler.off_step hst ho.2 fun hr => by
    obtain ⟨w, hw⟩ := h.reaches ho hr
    exact hne w hw
  exact ⟨he, he ▸ ho.1, hoff⟩

/-- A fiber that runs is not outside. -/
theorem Fibers.active (hw : (x.worker w).fiber? = some f) : ¬ Outside x f :=
  fun ho => ho.2.2.1 w hw

/-- The fiber that a worker deletes is outside from then on. -/
theorem Fibers.outside_retiring [DecidableEq F] (h : Fibers x) (hw : x.worker w = .switching f)
    (ht : (x.fiber f).state = .terminated) : Outside (x.setWorker w .head) f := by
  obtain ⟨loc, hl, hf⟩ := h.inv
  have hloc := (hl.held w f _).mpr ⟨hw, rfl⟩
  have hl' := hl.drop (w := w) (f := f) (by rw [hw]; rfl)
  exact ⟨Or.inr ht, hl'.off_iff.mp (by simp)⟩

/-- How the life of a fiber agrees with its fields and its place. -/
structure Lives (s : State n F B T) : Prop where
  fresh : ∀ f, s.life f = .fresh → (s.sched.fiber f).state = .new
  retired : ∀ f, s.life f = .retired → (s.sched.fiber f).state = .terminated ∧ Outside s.sched f
  retiring : ∀ w f, s.stage w = .retiring f →
    s.life f = .live ∧ (s.sched.fiber f).state = .terminated ∧ Outside s.sched f
  once : ∀ w v f, s.stage w = .retiring f → s.stage v = .retiring f → w = v
  queued : ∀ f, f ∈ s.defaultTaskQueue → s.life f ≠ .fresh
  called : ∀ a f, s.call a = .counted f → s.life f ≠ .fresh

theorem lives_initial : Lives (initial capacity limit : State n F B T) := by
  constructor <;> simp [initial, Scheduler.initial, EFiber.create]

/-- No fiber changes, and nobody starts to retire one. -/
theorem Lives.keep (h : Lives s) (hx : t.sched = s.sched) (hl : t.life = s.life)
    (hd : t.defaultTaskQueue = s.defaultTaskQueue)
    (hc : ∀ a f, t.call a = .counted f → s.call a = .counted f)
    (hr : ∀ w f, t.stage w = .retiring f → s.stage w = .retiring f) : Lives t := by
  constructor
  · rw [hx, hl]
    exact h.fresh
  · rw [hx, hl]
    exact h.retired
  · intro w f hw
    rw [hx, hl]
    exact h.retiring w f (hr w f hw)
  · exact fun w v f hw hv => h.once w v f (hr w f hw) (hr v f hv)
  · rw [hd, hl]
    exact h.queued
  · intro a f ha
    rw [hl]
    exact h.called a f (hc a f ha)

/-- One worker moves, and not to retire a fiber. -/
theorem Lives.stage {c : Stage n F} (h : Lives s) (hst : t.stage = Function.update s.stage w c)
    (hn : ∀ f, c ≠ .retiring f) (hx : t.sched = s.sched) (hl : t.life = s.life)
    (hd : t.defaultTaskQueue = s.defaultTaskQueue) (hc : t.call = s.call) : Lives t := by
  refine h.keep hx hl hd (fun a f ha => hc ▸ ha) fun v f hv => ?_
  rw [hst] at hv
  by_cases hvw : v = w
  · subst v
    exact (hn f (by simpa using hv)).elim
  · rwa [Function.update_of_ne hvw] at hv

/-- A step of the scheduler. It schedules none but counted fibers, and a worker that has to retire
one holds it in the TERMINATED case. -/
theorem Lives.run [DecidableEq F] [DecidableEq B] [DecidableEq T]
    (h : Lives s) (hf : Fibers s.sched) (hst : Scheduler.Step s.sched act t.sched)
    (hl : t.life = s.life) (hd : t.defaultTaskQueue ⊆ s.defaultTaskQueue)
    (hc : ∀ a f, t.call a = .counted f → s.call a = .counted f)
    (hn : ∀ f w, act = .schedule f w → s.life f ≠ .fresh)
    (hr : ∀ w f, t.stage w = .retiring f → s.stage w = .retiring f ∨
      s.sched.worker w = .switching f ∧ (s.sched.fiber f).state = .terminated ∧
        t.sched = s.sched.setWorker w .head) : Lives t := by
  have hdead : ∀ f, (s.sched.fiber f).state = .terminated → Outside s.sched f →
      (t.sched.fiber f).state = .terminated ∧ Outside t.sched f := by
    intro f hs ho
    obtain ⟨he, ho'⟩ := hf.outside_step hst ho fun w hw => by
      simp [schedule_new (hw ▸ hst)] at hs
    exact ⟨he ▸ hs, ho'⟩
  have hheld : ∀ w f, s.sched.worker w = .switching f → ¬ Outside s.sched f :=
    fun w f hw => Fibers.active (w := w) (by rw [hw]; rfl)
  constructor
  · intro f hfr
    rw [hl] at hfr
    have hs := h.fresh f hfr
    have he := (hf.outside_step hst (hf.outside_new hs) fun w hw => hn f w hw hfr).1
    rw [he, hs]
  · intro f hrt
    rw [hl] at hrt
    obtain ⟨hs, ho⟩ := h.retired f hrt
    exact hdead f hs ho
  · intro w f hw
    rw [hl]
    rcases hr w f hw with hw | ⟨hw, hs, hx⟩
    · obtain ⟨hlive, hs, ho⟩ := h.retiring w f hw
      exact ⟨hlive, hdead f hs ho⟩
    · refine ⟨?_, by simpa [hx] using hs, hx ▸ hf.outside_retiring hw hs⟩
      cases hlf : s.life f with
      | fresh => simp [h.fresh f hlf] at hs
      | live => rfl
      | retired => exact (hheld w f hw (h.retired f hlf).2).elim
  · intro w v f hw hv
    rcases hr w f hw with hw | ⟨hw, _⟩ <;> rcases hr v f hv with hv | ⟨hv, _⟩
    · exact h.once w v f hw hv
    · exact (hheld v f hv (h.retiring w f hw).2.2).elim
    · exact (hheld w f hw (h.retiring v f hv).2.2).elim
    · exact hf.inv.exclusive.single f w v (by rw [hw]; rfl) (by rw [hv]; rfl)
  · intro f hm
    rw [hl]
    exact h.queued f (hd hm)
  · intro a f ha
    rw [hl]
    exact h.called a f (hc a f ha)

/-- A fiber is counted; what waits to be added may now include it. -/
theorem Lives.count [DecidableEq F] (h : Lives s) (hfr : s.life f = .fresh) (hx : t.sched = s.sched)
    (hl : t.life = Function.update s.life f .live) (hst : t.stage = s.stage)
    (hd : ∀ g, g ∈ t.defaultTaskQueue → g = f ∨ g ∈ s.defaultTaskQueue)
    (hc : ∀ a g, t.call a = .counted g → g = f ∨ s.call a = .counted g) : Lives t := by
  have hother : ∀ {g l}, t.life g = l → l ≠ .live → s.life g = l ∧ g ≠ f := by
    intro g l hg hne
    by_cases hgf : g = f
    · subst g
      exact (hne (by simpa [hl] using hg.symm)).elim
    · exact ⟨by simpa [hl, hgf] using hg, hgf⟩
  have hcounted : ∀ g, g = f ∨ s.life g ≠ .fresh → t.life g ≠ .fresh := by
    intro g hg hfg
    obtain ⟨hs, hne⟩ := hother hfg (by simp)
    rcases hg with hg | hg
    · exact hne hg
    · exact hg hs
  constructor
  · intro g hg
    rw [hx]
    exact h.fresh g (hother hg (by simp)).1
  · intro g hg
    rw [hx]
    exact h.retired g (hother hg (by simp)).1
  · intro w g hw
    obtain ⟨hlive, ho⟩ := h.retiring w g (hst ▸ hw)
    have hgf : g ≠ f := by
      rintro rfl
      simp [hfr] at hlive
    rw [hx]
    exact ⟨by simpa [hl, hgf] using hlive, ho⟩
  · rw [hst]
    exact h.once
  · exact fun g hg => hcounted g ((hd g hg).imp id (h.queued g))
  · exact fun a g ha => hcounted g ((hc a g ha).imp id (h.called a g))

/-- The TERMINATED case. -/
theorem Lives.retire [DecidableEq F] (h : Lives s) (hw : s.stage w = .retiring f) :
    Lives ((s.retire f).setStage w .loop) := by
  obtain ⟨hlive, hs, ho⟩ := h.retiring w f hw
  have hother : ∀ {g l}, Function.update s.life f .retired g = l → l ≠ .retired →
      s.life g = l := by
    intro g l hg hne
    by_cases hgf : g = f
    · subst g
      exact (hne (by simpa using hg.symm)).elim
    · simpa [hgf] using hg
  have hstage : ∀ {v g}, Function.update s.stage w .loop v = .retiring g →
      s.stage v = .retiring g ∧ v ≠ w := by
    intro v g hv
    by_cases hvw : v = w
    · simp [hvw] at hv
    · exact ⟨by simpa [hvw] using hv, hvw⟩
  constructor
  · exact fun g hg => h.fresh g (hother hg (by simp))
  · intro g hg
    by_cases hgf : g = f
    · subst hgf
      exact ⟨hs, ho⟩
    · exact h.retired g (by simpa [hgf] using hg)
  · intro v g hv
    obtain ⟨hvs, hne⟩ := hstage hv
    have hgf : g ≠ f := by
      rintro rfl
      exact hne (h.once v w g hvs hw)
    obtain ⟨hg, hrest⟩ := h.retiring v g hvs
    exact ⟨by simpa [hgf] using hg, hrest⟩
  · exact fun v u g hv hu => h.once v u g (hstage hv).1 (hstage hu).1
  · exact fun g hg hfr => h.queued g hg (hother hfr (by simp))
  · exact fun a g ha hfr => h.called a g ha (hother hfr (by simp))

theorem settled_retiring (hs : settled x y w = .retiring f) :
    y.worker w = .head ∧ x.worker w = .switching f ∧ (x.fiber f).state = .terminated := by
  unfold settled at hs
  split at hs
  · rename_i g hy hx
    split at hs
    · rename_i ht
      obtain rfl : g = f := by simpa using hs
      exact ⟨hy, hx, ht⟩
    · simp at hs
  · simp at hs
  · simp at hs

/-- A worker comes to retire a fiber only in the TERMINATED case. -/
theorem stageAfter_retiring [DecidableEq F] [DecidableEq B] [DecidableEq T]
    (hst : Scheduler.Step s.sched act y)
    (hs : stageAfter s y act w = .retiring f) : s.stage w = .retiring f ∨
      s.sched.worker w = .switching f ∧ (s.sched.fiber f).state = .terminated ∧
        y = s.sched.setWorker w .head := by
  have hset : ∀ v, Function.update s.stage v (settled s.sched y v) w = .retiring f →
      s.stage w = .retiring f ∨ v = w ∧ y.worker w = .head ∧ s.sched.worker w = .switching f ∧
        (s.sched.fiber f).state = .terminated := by
    intro v hv
    by_cases hwv : w = v
    · subst v
      exact Or.inr ⟨rfl, settled_retiring (by simpa using hv)⟩
    · exact Or.inl (by simpa [hwv] using hv)
  cases act with
  | switch v =>
    rcases hset v hs with h | ⟨rfl, hy, hx, ht⟩
    · exact Or.inl h
    · refine Or.inr ⟨hx, ht, ?_⟩
      cases hst with
      | switchRunnable | switchBlocked => simp at hy
      | switchOther => rfl
  | swapOut v =>
    rcases hset v hs with h | ⟨rfl, hy, hx, ht⟩
    · exact Or.inl h
    · cases hst with
      | swapOutPermit hw | swapOutHung hw => simp [hw] at hx
  | requeue v =>
    rcases hset v hs with h | ⟨rfl, hy, hx, ht⟩
    · exact Or.inl h
    · cases hst with
      | requeue hw => simp [hw] at hx
  | _ => exact Or.inl hs

theorem update_retiring {c : Stage n F} (hc : ∀ f, c ≠ .retiring f)
    (h : Function.update s.stage v c w = .retiring f) : s.stage w = .retiring f := by
  by_cases hwv : w = v
  · subst v
    exact (hc f (by simpa using h)).elim
  · rwa [Function.update_of_ne hwv] at h

theorem update_counted [DecidableEq F] [DecidableEq T]
    {b c : Agent F (Fin (n + 1)) T} {k : CallPc n F} (hk : ∀ f, k ≠ .counted f)
    (h : Function.update s.call b k c = .counted f) : s.call c = .counted f := by
  by_cases hcb : c = b
  · subst b
    exact (hk f (by simpa using h)).elim
  · rwa [Function.update_of_ne hcb] at h

theorem lives_step [DecidableEq F] [DecidableEq B] [DecidableEq T]
    (hst : Step s a t) (hf : Fibers s.sched) (h : Lives s) : Lives t := by
  cases hst with
  | callJoin | dispatched | interrupt | signal | drainBusy | work | joinPool | joined =>
    exact h.keep rfl rfl rfl (fun _ _ h => h) fun _ _ h => h
  | start | started | interrupted | count | pollDone | setHung | block | wake | drain | cleanSignal
  | cleaned | leave | raise | caught => exact h.stage rfl (by simp) rfl rfl rfl rfl
  | readHung | readNull | signalCall =>
    exact h.keep rfl rfl rfl (fun _ _ => update_counted (by simp)) fun _ _ h => h
  | @schedule f hc hfr =>
    refine h.count hfr rfl rfl rfl (fun g hg => ?_) fun _ _ h => Or.inr h
    exact (List.mem_append.mp hg).elim Or.inr fun h => Or.inl (List.mem_singleton.mp h)
  | @countCall b f hc hm hi hfr =>
    refine h.count hfr rfl rfl rfl (fun _ h => Or.inr h) fun c g hg => ?_
    by_cases hcb : c = b
    · subst c
      exact Or.inl (by simpa using hg.symm)
    · exact Or.inr (by simpa [hcb] using hg)
  | retire hw => exact h.retire hw
  | @dispatch f q w y hc hq hy =>
    refine h.run hf hy rfl ?_ (fun _ _ h => h) (fun g v hg => ?_) fun _ _ h => Or.inl h
    · rw [hq]
      exact List.subset_cons_self _ _
    · cases hg
      exact h.queued f (by simp [hq])
  | poll _ hy | pollEmpty _ _ hy | clearHung _ hy =>
    exact h.run hf hy rfl (List.Subset.refl _) (fun _ _ h => h) (by simp)
      fun _ _ h => Or.inl (update_retiring (by simp) h)
  | sched hn _ hy =>
    refine h.run hf hy rfl (List.Subset.refl _) (fun _ _ h => h) (fun g v hg => ?_)
      fun _ _ h => stageAfter_retiring hy h
    subst hg
    exact (hn trivial).elim
  | @addCall b f w y hc hy =>
    refine h.run hf hy rfl (List.Subset.refl _) (fun _ _ => update_counted (by simp))
      (fun g v hg => ?_) fun _ _ h => Or.inl h
    cases hg
    exact h.called b f hc

/-- The counter is the number of live fibers. -/
def Counts (s : State n F B T) : Prop :=
  ∃ m : ℕ, s.totalFiberCounter = m ∧ Counting.Total counted s.life m

theorem counts_initial : Counts (initial capacity limit : State n F B T) :=
  ⟨0, rfl, .zero fun _ => rfl⟩

theorem Counts.count [DecidableEq F]
    (h : Counts s) (hfr : s.life f = .fresh) : Counts (s.count f) := by
  obtain ⟨m, hm, ht⟩ := h
  refine ⟨m + 1, by simp [hm], ht.update ?_⟩
  simp [hfr, counted]

theorem Counts.retire [DecidableEq F]
    (h : Counts s) (hl : s.life f = .live) : Counts (s.retire f) := by
  obtain ⟨m, hm, ht⟩ := h
  have hle : 1 ≤ m := by
    have := ht.single_le (p := f)
    rwa [hl] at this
  refine ⟨m - 1, by simp [hm]; omega, ht.update ?_⟩
  simp [hl, counted]
  omega

theorem counts_step [DecidableEq F] [DecidableEq B] [DecidableEq T]
    (hst : Step s a t) (hl : Lives s) (h : Counts s) : Counts t := by
  cases hst with
  | schedule _ hfr => exact h.count hfr
  | countCall _ _ _ hfr => exact h.count hfr
  | retire hw => exact h.retire (hl.retiring _ _ hw).1
  | _ => exact h

/-- With the counter at 0 nothing is left to do. -/
theorem Counts.none_live [DecidableEq F] (h : Counts s) (h0 : s.totalFiberCounter ≤ 0) (f : F) :
    s.life f ≠ .live := by
  obtain ⟨m, hm, ht⟩ := h
  intro hl
  have := ht.single_le (p := f)
  simp only [hl, counted] at this
  omega

/-- Has read that nothing is left, or is out of its loop. -/
def Ending : Stage n F → Prop
  | .counted m => m ≤ 0
  | .clean _ | .check | .left false | .done false => True
  | _ => False

theorem OutOfLoop.ending {c : Stage n F} (h : OutOfLoop c) : Ending c := by
  cases c with
  | clean | check => trivial
  | left b | done b =>
    cases b with
    | false => trivial
    | true => exact h
  | _ => exact h.elim

structure Ends (s : State n F B T) : Prop where
  calm : s.interrupted = false
  began : s.caller = .before ∨ s.caller = .dispatching → ∀ w, s.stage w = .off
  drained : s.caller = .before ∨ s.caller = .dispatching ∨ s.defaultTaskQueue = []
  noneLive : ∀ w, Ending (s.stage w) → ∀ f, s.life f ≠ .live

theorem ends_initial : Ends (initial capacity limit : State n F B T) := by
  constructor <;> simp [initial, Ending]

/-- A fiber in the hands of a worker is counted and not retired. -/
theorem Lives.live (h : Lives s) (hf : Fibers s.sched)
    (hw : (s.sched.worker w).fiber? = some f) : s.life f = .live := by
  have ho := Fibers.active hw
  cases hl : s.life f with
  | fresh => exact (ho (hf.outside_new (h.fresh f hl))).elim
  | live => rfl
  | retired => exact (ho (h.retired f hl).2).elim

theorem noneLive_stage {c : Stage n F} (h : ∀ w, Ending (s.stage w) → ∀ f, s.life f ≠ .live)
    (hst : t.stage = Function.update s.stage w c) (hl : t.life = s.life)
    (hc : Ending c → Ending (s.stage w) ∨ ∀ f, s.life f ≠ .live) (v : Fin (n + 1))
    (hv : Ending (t.stage v)) : ∀ f, t.life f ≠ .live := by
  rw [hl]
  rw [hst] at hv
  by_cases hvw : v = w
  · subst v
    rw [Function.update_self] at hv
    rcases hc hv with he | hall
    · exact h w he
    · exact hall
  · rw [Function.update_of_ne hvw] at hv
    exact h v hv

variable [DecidableEq F] [DecidableEq B] [DecidableEq T]

theorem noneLive_step (hst : Step s a t) (hg : Ordinary s a) (hf : Fibers s.sched) (hl : Lives s)
    (hc : Counts s) (h : Ends s) : ∀ w, Ending (t.stage w) → ∀ f, t.life f ≠ .live := by
  cases hst with
  | schedule hb =>
    intro w hw
    have hw : Ending (s.stage w) := hw
    rw [h.began (Or.inl hb) w] at hw
    exact hw.elim
  | @countCall b f _ hm =>
    intro w hw
    cases b with
    | worker v => exact hm.elim
    | fiber g =>
      obtain ⟨⟨v, hv⟩, _⟩ := hm
      exact (h.noneLive w hw g (hl.live hf (w := v) (by rw [hv.1]; rfl))).elim
    | thread y => exact hg.elim
  | @retire w f hw =>
    intro v hv g
    have hv : Ending (Function.update s.stage w .loop v) := hv
    have hvw : v ≠ w := by
      rintro rfl
      simp [Ending] at hv
    rw [Function.update_of_ne hvw] at hv
    exact (h.noneLive v hv f (hl.retiring w f hw).1).elim
  | interrupted _ hi => simp [h.calm] at hi
  | start | started | poll | pollEmpty | setHung | block | wake | drain | clearHung | raise =>
    exact noneLive_stage h.noneLive rfl rfl (by simp [Ending])
  | count => exact noneLive_stage h.noneLive rfl rfl fun h0 => Or.inr (hc.none_live h0)
  | pollDone hs hm => exact noneLive_stage h.noneLive rfl rfl fun _ => Or.inl (by rw [hs]; exact hm)
  | cleanSignal hs | cleaned hs | leave hs =>
    exact noneLive_stage h.noneLive rfl rfl fun _ => Or.inl (by rw [hs]; trivial)
  | @caught w b _ hs =>
    refine noneLive_stage h.noneLive rfl rfl fun hb => Or.inl ?_
    rw [hs]
    cases b with
    | false => trivial
    | true => exact hb
  | @sched act y _ _ hy =>
    have hset : ∀ v, ¬ Ending (settled s.sched y v) := by
      intro v
      rcases settled_ne s.sched y _ rfl with he | he | ⟨f, he⟩ <;> rw [he] <;> exact id
    cases act with
    | switch v | swapOut v | requeue v =>
      exact noneLive_stage h.noneLive rfl rfl fun hv => (hset v hv).elim
    | _ => exact h.noneLive
  | _ => exact h.noneLive

/-- The caller never goes back to before its own loop. -/
theorem early_step (hst : Step s a t) (hb : t.caller = .before ∨ t.caller = .dispatching) :
    (s.caller = .before ∨ s.caller = .dispatching) ∧ a ≠ .start := by
  cases hst with
  | callJoin hc | dispatch hc => exact ⟨by simp [hc], by simp⟩
  | dispatched | start | started | joinPool => simp at hb
  | @work b =>
    cases b <;> simp at hb
  | joined =>
    cases he : s.hasError <;> simp [he] at hb
  | _ => exact ⟨hb, by simp⟩

theorem ends_step (hst : Step s a t) (hg : Ordinary s a) (hf : Fibers s.sched) (hl : Lives s)
    (hc : Counts s) (h : Ends s) : Ends t := by
  refine ⟨?_, fun hb => ?_, ?_, noneLive_step hst hg hf hl hc h⟩
  · cases hst with
    | interrupt => exact hg.elim
    | _ => exact h.calm
  · obtain ⟨hs, ha⟩ := early_step hst hb
    exact fun w => (stage_step hst ha w).off (h.began hs w)
  · have hd := h.drained
    cases hst <;> simp_all

structure Ledger (s : State n F B T) : Prop where
  fibers : Fibers s.sched
  lives : Lives s
  counts : Counts s
  ends : Ends s

theorem fibers_of_step (hst : Step s a t) (hg : Ordinary s a) (h : Fibers s.sched) :
    Fibers t.sched := by
  cases hst with
  | dispatch _ _ hy | poll _ hy | pollEmpty _ _ hy | clearHung _ hy | addCall _ hy =>
    exact fibers_step hy trivial h
  | @sched act y _ _ hy =>
    refine fibers_step hy ?_ h
    cases act with
    | check f b k => exact hg
    | _ => trivial
  | _ => exact h

theorem ledger_run (h : Run (Guarded Ordinary Step) (initial capacity limit) as s) : Ledger s :=
  h.invariant (fun _ _ _ hi hst =>
      ⟨fibers_of_step hst.2 hst.1 hi.fibers, lives_step hst.2 hi.fibers hi.lives,
        counts_step hst.2 hi.lives hi.counts,
        ends_step hst.2 hst.1 hi.fibers hi.lives hi.counts hi.ends⟩)
    ⟨fibers_initial, lives_initial, counts_initial, ends_initial⟩

section

omit [DecidableEq B] [DecidableEq T]

theorem Ledger.accounted (h : Ledger s) : Accounted s := by
  have hlive : ∀ w, OutOfLoop (s.stage w) → ∀ f, s.life f ≠ .live :=
    fun w hw => h.ends.noneLive w hw.ending
  refine ⟨?_, fun w hw f hf => ?_, fun w hw => ⟨?_, fun v => ?_⟩⟩
  · obtain ⟨m, hm, ht⟩ := h.counts
    obtain ⟨L, hL, hcard⟩ := ht.card (by intro l; cases l <;> simp [counted])
    refine ⟨L, fun f => (hL f).trans ?_, by rw [hm, hcard]⟩
    cases s.life f <;> simp [counted]
  · cases hl : s.life f with
    | fresh => exact (hf hl).elim
    | live => exact (hlive w hw f hl).elim
    | retired => exact ⟨rfl, (h.lives.retired f hl).1⟩
  · rcases h.ends.drained with hb | hb | hd
    · rw [h.ends.began (Or.inl hb) w] at hw
      exact hw.elim
    · rw [h.ends.began (Or.inr hb) w] at hw
      exact hw.elim
    · exact hd
  · rw [List.eq_nil_iff_forall_not_mem]
    intro f hm
    have hno : ¬ Outside s.sched f := fun ho => ho.2.1 v hm
    cases hl : s.life f with
    | fresh => exact hno (h.fibers.outside_new (h.lives.fresh f hl))
    | live => exact hlive w hw f hl
    | retired => exact hno (h.lives.retired f hl).2

end

theorem join_accounted
    (h : Run (Guarded Ordinary Step) (initial capacity limit : State n F B T) as s) :
    Accounted s := (ledger_run h).accounted

/-- One fiber, two workers: the caller runs the fiber to its end, retires it and leaves. -/
theorem join_accounted_left : ∃ s : State 1 Unit Unit Unit,
    s.stage 0 = .clean [1] ∧ s.life () = .retired ∧ Accounted s := by
  refine ⟨_, ?_, ?_, join_accounted <|
    .guard (.schedule (s := initial (fun _ => 0) fun _ => 1) (f := ()) rfl rfl) trivial <|
    .guard (.callJoin rfl) trivial <|
    .guard (.dispatch (w := 0) rfl rfl (.schedule rfl)) trivial <|
    .guard (.dispatched rfl rfl) trivial <| .guard (.start (i := 0) (by decide) rfl) trivial <|
    .guard (.started rfl) trivial <| .guard (.count (w := 0) rfl rfl) trivial <|
    .guard (.poll (w := 0) (m := 1) rfl (.poll rfl rfl)) trivial <|
    .guard (.sched (a := .dispatch 0) id trivial (.dispatch (f := ()) rfl rfl)) trivial <|
    .guard (.sched (a := .finish ()) id rfl (.finish (w := 0) ⟨rfl, rfl⟩ rfl)) trivial <|
    .guard (.sched (a := .switch 0) id trivial
      (.switchOther (f := ()) rfl (by decide) (by decide))) trivial <|
    .guard (.retire (w := 0) (f := ()) rfl) trivial <|
    .guard (.count (w := 0) rfl rfl) trivial <|
    .guard (.pollDone (w := 0) (m := 0) rfl (by decide) rfl) trivial .refl⟩
  · rfl
  · rfl

end CxxFiber.Join
