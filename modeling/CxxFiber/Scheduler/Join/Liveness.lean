import CxxFiber.Scheduler.Join.Caller
import CxxFiber.Scheduler.Join.Counter
import CxxFiber.Scheduler.Join.EndOfWork
import CxxFiber.Scheduler.Join.Interrupt

/-! `join(int)` gives control back once every fiber has ended. -/
namespace CxxFiber.Join

open Transition Execution
open Interrupt (Tied)

variable {n : ℕ} {F B T : Type} [DecidableEq F] [DecidableEq B] [DecidableEq T]
  {E : Execution (Step : State n F B T → Act n F B T → State n F B T → Prop)}
  {capacity limit : B → ℕ} {s t : State n F B T} {a : Act n F B T} {f : F} {w b d : Fin (n + 1)}
  {c : Stage n F}

def Allowed (s : State n F B T) (a : Act n F B T) : Prop := Ordinary s a ∧ NoRaise s a

/-- The threads go on. -/
structure Going (E : Execution (Step : State n F B T → Act n F B T → State n F B T → Prop)) :
    Prop where
  allowed : ∀ k, Allowed (E.state k) (E.label k)
  goes : ∀ a, OfJoin a → E.WeaklyFair a

/-- The multiplexer returns for a byte in the pipe. It need not return without one. -/
structure FairRun (capacity limit : B → ℕ)
    (E : Execution (Step : State n F B T → Act n F B T → State n F B T → Prop)) : Prop
    extends Going E where
  wakes : ∀ w, E.LeadsTo (fun s => s.stage w = .blocked ∧ 0 < s.pipe w)
    fun s => s.stage w ≠ .blocked
  start : E.state 0 = initial capacity limit

/-- `join` has been called, and every fiber that was scheduled has been retired. -/
def Over (s : State n F B T) : Prop := s.caller ≠ .before ∧ s.totalFiberCounter = 0

/-! What holds in every state -/

structure NoFailure (s : State n F B T) : Prop where
  error : s.hasError = false
  stage : ∀ w, ¬ Failed (s.stage w)
  caller : s.caller ≠ .threw

structure Standing (s : State n F B T) : Prop where
  ledger : Ledger s
  watched : Watched s
  pool : Pool s
  tied : Tied s
  busy : ∀ w, s.stage w = .busy → (s.sched.worker w).fiber? ≠ none
  noFailure : NoFailure s
  unretired : ¬ Begun s → ∀ f, s.life f ≠ .retired

section

omit [DecidableEq F] [DecidableEq B] [DecidableEq T]

theorem standing_initial : Standing (initial capacity limit : State n F B T) where
  ledger := ⟨fibers_initial, lives_initial, counts_initial, ends_initial⟩
  watched := watched_initial
  pool := pool_initial
  tied _ := rfl
  busy := by simp [initial]
  noFailure := ⟨rfl, by simp [initial, Failed], by simp [initial]⟩
  unretired := by simp [initial]

end

section Busy

variable {x y : Scheduler.State F (Fin (n + 1)) B T} {act : Scheduler.Act F (Fin (n + 1)) B T}

theorem fiber_step (hst : Scheduler.Step x act y) (ho : ¬ OfLoop act)
    (hw : (x.worker w).fiber? ≠ none) :
    (y.worker w).fiber? ≠ none ∨ y.worker w = .head ∧ Switches w act := by
  have hset : ∀ {v p}, y.worker = Function.update x.worker v p →
      p.fiber? ≠ none ∨ p = .head ∧ Switches v act →
      (y.worker w).fiber? ≠ none ∨ y.worker w = .head ∧ Switches w act := by
    intro v p hy hp
    rw [hy]
    by_cases hv : w = v
    · subst v
      rwa [Function.update_self]
    · rw [Function.update_of_ne hv]
      exact Or.inl hw
  cases hst with
  | schedule | poll | pollEmpty | endIdle => exact (ho trivial).elim
  | dispatch | yield | finish | block | sleep | pollEvents | switchRunnable | switchBlocked
  | swapOutPermit => exact hset rfl (Or.inl (by simp [Scheduler.WorkerPc.fiber?]))
  | switchOther => exact hset rfl (Or.inr ⟨rfl, Or.inl rfl⟩)
  | swapOutHung => exact hset rfl (Or.inr ⟨rfl, Or.inr (Or.inl rfl)⟩)
  | requeue => exact hset rfl (Or.inr ⟨rfl, Or.inr (Or.inr rfl)⟩)
  | timer | fileEvent | swapIn =>
    rw [Scheduler.swapIn_worker]
    exact Or.inl hw
  | @wakeUpRefused b | @wakeUpCounted b | @wakeUpWaiter b => cases b <;> exact Or.inl hw
  | _ => exact Or.inl hw

section

omit [DecidableEq F] [DecidableEq B] [DecidableEq T]

theorem settled_busy (h : settled x y w = .busy) : y.worker w ≠ .head := by
  intro hy
  unfold settled at h
  rw [hy] at h
  cases hx : x.worker w with
  | switching f =>
    rw [hx] at h
    simp only at h
    split at h <;> simp at h
  | _ => simp [hx] at h

end

end Busy

/-- A busy worker has a fiber in its hands. -/
theorem busy_step (hst : Step s a t)
    (h : ∀ w, s.stage w = .busy → (s.sched.worker w).fiber? ≠ none) (hw : t.stage w = .busy) :
    (t.sched.worker w).fiber? ≠ none := by
  have hother : ∀ {v c}, t.stage = Function.update s.stage v c → c ≠ .busy →
      t.sched.worker w = s.sched.worker w ∨ w = v → (t.sched.worker w).fiber? ≠ none := by
    intro v c ht hc hs
    rw [ht] at hw
    by_cases hv : w = v
    · subst v
      exact (hc (by simpa using hw)).elim
    · rw [Function.update_of_ne hv] at hw
      rw [hs.resolve_right hv]
      exact h w hw
  cases hst with
  | start | started | interrupted | count | pollDone | setHung | block | wake | drain | retire
  | cleanSignal | cleaned | leave | raise | caught => exact hother rfl (by simp) (Or.inl rfl)
  | dispatch _ _ hu | addCall _ hu =>
    cases hu
    exact h w hw
  | @poll v m u hs hu =>
    cases hu
    by_cases hv : w = v
    · subst v
      simp [Scheduler.WorkerPc.fiber?]
    · simpa [hv] using h w (by simpa [hv] using hw)
  | @pollEmpty v m u _ _ hu | @clearHung v u _ hu =>
    cases hu
    refine hother (v := v) rfl (by simp) ?_
    by_cases hv : w = v
    · exact Or.inr hv
    · exact Or.inl (by simp [hv])
  | @sched act u ho hm hu =>
    have hw : stageAfter s u act w = .busy := hw
    by_cases hs : Switches w act
    · rw [stageAfter_own hs] at hw
      exact (fiber_step hu ho (hs.fiber hu)).resolve_right fun hy => settled_busy hw hy.1
    · rw [stageAfter_other hs] at hw
      exact (fiber_step hu ho (h w hw)).resolve_right fun hy => hs hy.2
  | _ => exact h w hw

theorem noFailure_step (hst : Step s a t) (hr : NoRaise s a) (hi : s.interrupted = false)
    (h : NoFailure s) : NoFailure t := by
  have hkeep : ∀ {v c}, t.stage = Function.update s.stage v c → ¬ Failed c →
      t.hasError = s.hasError → t.caller ≠ .threw → NoFailure t :=
    fun ht hc he hcall => ⟨he.trans h.error,
      fun w => update_stage (I := fun c => ¬ Failed c) ht hc (h.stage w), hcall⟩
  cases hst with
  | raise => exact hr.elim
  | start | started => exact hkeep rfl id rfl (by simp)
  | interrupted | count | poll | pollEmpty | pollDone | setHung | block | wake | drain | clearHung
  | retire | cleanSignal | cleaned => exact hkeep rfl id rfl h.caller
  | leave => exact hkeep rfl (by simp [Failed, hi]) rfl h.caller
  | @caught w b hw hs =>
    have hb : b = false := by
      have hf := h.stage w
      simpa [hs, Failed] using hf
    exact hkeep rfl (by simp [Failed, hb]) (by simp [hb]) h.caller
  | @sched act u ho hm hu =>
    cases act with
    | switch v | swapOut v | requeue v =>
      refine hkeep rfl ?_ rfl h.caller
      rcases settled_ne s.sched u _ rfl with he | he | ⟨f, he⟩ <;> rw [he] <;> exact id
    | _ => exact ⟨h.error, h.stage, h.caller⟩
  | @work b hc hs =>
    have hb : b = false := by
      have hf := h.stage 0
      simpa [hs, Failed] using hf
    exact ⟨h.error, h.stage, by simp [hb]⟩
  | joined => exact ⟨h.error, h.stage, by simp [h.error]⟩
  | callJoin | dispatched | joinPool => exact ⟨by first | rfl | exact h.error, h.stage, by simp⟩
  | _ => exact ⟨h.error, h.stage, h.caller⟩

/-- Before the pool is started, no fiber is retired. -/
theorem unretired_step (hst : Step s a t) (hn : NotStarted s)
    (h : ¬ Begun s → ∀ f, s.life f ≠ .retired) (hb : ¬ Begun t) (f : F) : t.life f ≠ .retired := by
  have hold : ∀ f, s.life f ≠ .retired := h fun hs => hb (begun_step hst hs)
  have hlive : ∀ {g}, Function.update s.life g .live f ≠ .retired := by
    intro g
    by_cases hfg : f = g
    · simp [hfg]
    · simpa [hfg] using hold f
  cases hst with
  | schedule | countCall => exact hlive
  | @retire w g hw =>
    have hoff : s.stage w = .off := by
      unfold Begun at hb
      unfold NotStarted at hn
      cases hc : s.caller with
      | before | dispatching =>
        simp only [hc] at hn
        exact hn w
      | _ => simp [hc] at hb
    simp [hoff] at hw
  | _ => exact hold f

theorem ledger_step (hst : Step s a t) (hg : Ordinary s a) (h : Ledger s) : Ledger t :=
  ⟨fibers_of_step hst hg h.fibers, lives_step hst h.fibers h.lives,
    counts_step hst h.lives h.counts, ends_step hst hg h.fibers h.lives h.counts h.ends⟩

theorem standing_step (hst : Step s a t) (hg : Allowed s a) (h : Standing s) :
    Standing t where
  ledger := ledger_step hst hg.1 h.ledger
  watched := watched_step hst hg.2 h.watched
  pool := pool_step hst h.pool
  tied := Interrupt.tied_step hst h.pool.notStarted h.tied
  busy _ := busy_step hst h.busy
  noFailure := noFailure_step hst hg.2 h.ledger.ends.calm h.noFailure
  unretired := unretired_step hst h.pool.notStarted h.unretired

theorem FairRun.holds (h : FairRun capacity limit E) (k : ℕ) : Standing (E.state k) := by
  induction k with
  | zero => exact h.start ▸ standing_initial
  | succ k ih => exact standing_step (E.step k) (h.allowed k) ih

/-! When everything is over -/

section

omit [DecidableEq B] [DecidableEq T]

theorem Standing.none_live (h : Standing s) (ho : Over s) (f : F) : s.life f ≠ .live :=
  h.ledger.counts.none_live ho.2.le f

theorem Standing.outside (h : Standing s) (ho : Over s) (f : F) : Outside s.sched f := by
  cases hl : s.life f with
  | fresh => exact h.ledger.fibers.outside_new (h.ledger.lives.fresh f hl)
  | live => exact (h.none_live ho f hl).elim
  | retired => exact (h.ledger.lives.retired f hl).2

theorem Standing.hands (h : Standing s) (ho : Over s) (w : Fin (n + 1)) :
    (s.sched.worker w).fiber? = none := by
  rw [Option.eq_none_iff_forall_ne_some]
  exact fun f => (h.outside ho f).2.2.1 w

theorem Standing.not_busy (h : Standing s) (ho : Over s) : s.stage w ≠ .busy :=
  fun hb => h.busy w hb (h.hands ho w)

theorem Standing.not_retiring (h : Standing s) (ho : Over s) : s.stage w ≠ .retiring f :=
  fun hr => h.none_live ho f (h.ledger.lives.retiring w f hr).1

theorem Standing.queue (h : Standing s) (ho : Over s) (w : Fin (n + 1)) :
    s.sched.taskQueue w = [] := by
  rw [List.eq_nil_iff_forall_not_mem]
  exact fun f => (h.outside ho f).2.1 w

theorem Standing.resume (h : Standing s) (ho : Over s) (w : Fin (n + 1)) :
    s.sched.resume (.worker w) = none := by
  rw [Option.eq_none_iff_forall_ne_some]
  intro x hr
  have hout : ∀ f, x.fiber? ≠ some f := fun f hx =>
    (h.outside ho f).2.2.2 (.worker w) (by rw [hr]; exact hx)
  cases x with
  | owed f k =>
    have hs := (h.ledger.fibers.untimed.owed _ f k hr).2.1.1
    rcases (h.outside ho f).1 with he | he <;> simp [EFiber.suspended, he] at hs
  | tested f => exact hout f rfl
  | adding f => exact hout f rfl

/-- What was scheduled before `join` has been handed out. -/
theorem Standing.defaultTaskQueue (h : Standing s) (ho : Over s) : s.defaultTaskQueue = [] := by
  rcases h.ledger.ends.drained with hc | hc | hd
  · exact (ho.1 hc).elim
  · rw [List.eq_nil_iff_forall_not_mem]
    intro f hf
    have hret : s.life f ≠ .retired := h.unretired (fun hb => hb.2 hc) f
    cases hl : s.life f with
    | fresh => exact h.ledger.lives.queued f hf hl
    | live => exact h.none_live ho f hl
    | retired => exact hret hl
  · exact hd

end

theorem over_step (hst : Step s a t) (hg : Ordinary s a) (h : Standing s) (ho : Over s) :
    Over t := by
  refine ⟨called_step hst ho.1, ?_⟩
  cases hst with
  | schedule hc => exact (ho.1 hc).elim
  | @countCall b f _ hm =>
    cases b with
    | worker v => exact hm.elim
    | thread y => exact hg.elim
    | fiber g =>
      obtain ⟨⟨v, hv⟩, -⟩ := hm
      have hn := h.hands ho v
      simp [hv.1, Scheduler.WorkerPc.fiber?] at hn
  | retire hw => exact (h.not_retiring ho hw).elim
  | _ => exact ho.2

theorem FairRun.over_lasts (h : FairRun capacity limit E) (k : ℕ) (ho : Over (E.state k)) :
    Over (E.state (k + 1)) :=
  over_step (E.step k) (h.allowed k).1 (h.holds k) ho

/-! The way of a worker out of its loop -/

/-- How many of its own steps a worker has before it at most. -/
def toGo : Stage n F → ℕ
  | .counted m => if 0 < m then n + 13 else n + 5
  | .empty => n + 12
  | .hanging => n + 11
  | .blocked => n + 10
  | .events true => n + 9
  | .events false => n + 8
  | .loop => n + 6
  | .clean rest => rest.length + 3
  | .check => 2
  | .left _ => 1
  | .off | .busy | .retiring _ | .done _ => 0

/-- The next of these steps. -/
def own (w : Fin (n + 1)) : Stage n F → Act n F B T
  | .loop => .count w
  | .counted _ => .poll w
  | .empty => .setHung w
  | .hanging => .block w
  | .blocked => .wake w
  | .events true => .drain w
  | .events false => .clearHung w
  | .clean _ => .clean w
  | .check => .leave w
  | _ => .caught w

/-- It needs nothing for it. -/
def Moving (w : Fin (n + 1)) : Stage n F → Prop
  | .loop | .counted _ | .empty | .hanging | .events _ | .clean _ | .check => True
  | .left _ => w.val ≠ 0
  | _ => False

section

omit [DecidableEq F] [DecidableEq B] [DecidableEq T]

theorem ofJoin_own (hm : Moving w c) : OfJoin (own w c : Act n F B T) := by
  cases c with
  | events r => cases r <;> trivial
  | off | blocked | busy | retiring | done => exact hm.elim
  | _ => trivial

end

/-- No step takes a worker back. -/
theorem goes_down (hst : Step s a t) (hr : NoRaise s a) (h : Standing s) (ho : Over s)
    (hw : s.stage w ≠ .off) : t.stage w = s.stage w ∨ toGo (t.stage w) < toGo (s.stage w) := by
  have hset : ∀ {v c}, t.stage = Function.update s.stage v c → toGo c < toGo (s.stage v) →
      t.stage w = s.stage w ∨ toGo (t.stage w) < toGo (s.stage w) := down_of_update
  by_cases hs : a = .start
  · subst hs
    exact Or.inl (start_keeps hst h.pool.notStarted hw)
  cases hst with
  | start | started => exact (hs rfl).elim
  | interrupted _ hi => simp [h.ledger.ends.calm] at hi
  | count hv => exact hset rfl (by simp [hv, toGo, ho.2])
  | @poll v m u _ hu =>
    cases hu with
    | poll _ hq => simp [h.queue ho v] at hq
  | pollEmpty hv hm => exact hset rfl (by simp [hv, toGo, hm])
  | @pollDone v m hv hm =>
    refine hset rfl ?_
    have hlen := length_others (w := v)
    simp only [hv, toGo, not_lt.mpr hm, if_false]
    omega
  | @wake v hv =>
    refine hset rfl ?_
    cases decide (0 < s.pipe v) <;> simp [hv, toGo]
  | setHung hv | block hv | drain hv | clearHung hv | cleanSignal hv | cleaned hv | leave hv
  | caught _ hv => exact hset rfl (by simp [hv, toGo])
  | retire hv => exact (h.not_retiring ho hv).elim
  | raise => exact hr.elim
  | @sched act u _ _ hu =>
    exact Or.inl (stageAfter_other fun hsw => hsw.fiber hu (h.hands ho w))
  | _ => exact Or.inl rfl

theorem own_enabled (h : Standing s) (ho : Over s) (hm : Moving w (s.stage w)) :
    Enabled Step s (own w (s.stage w)) := by
  have hrest := h.tied w
  cases hs : s.stage w with
  | loop => exact ⟨_, .count hs h.ledger.ends.calm⟩
  | counted m =>
    by_cases h0 : 0 < m
    · rw [hs] at hrest
      exact ⟨_, .pollEmpty hs h0 (.pollEmpty hrest (h.queue ho w))⟩
    · exact ⟨_, .pollDone hs (not_lt.mp h0) (h.queue ho w)⟩
  | empty => exact ⟨_, .setHung hs⟩
  | hanging => exact ⟨_, .block hs⟩
  | events r =>
    cases r with
    | true => exact ⟨_, .drain hs⟩
    | false =>
      rw [hs] at hrest
      exact ⟨_, .clearHung hs (.endIdle hrest (h.resume ho w))⟩
  | clean rest =>
    cases rest with
    | nil => exact ⟨_, .cleaned hs⟩
    | cons v rest => exact ⟨_, .cleanSignal hs⟩
  | check => exact ⟨_, .leave hs⟩
  | left r =>
    rw [hs] at hm
    exact ⟨_, .caught (Fin.val_ne_zero_iff.mp hm) hs⟩
  | off | blocked | busy | retiring | done =>
    rw [hs] at hm
    exact hm.elim

theorem own_moves (hc : s.stage w = c) (hm : Moving w c) (hst : Step s (own w c) t) :
    t.stage w ≠ c := by
  cases c with
  | off | blocked | busy | retiring | done => exact hm.elim
  | events r =>
    cases r with
    | true =>
      cases hst with
      | drain => simp
      | drainBusy hb => simp [hc] at hb
    | false =>
      cases hst
      simp
  | clean rest =>
    cases hst with
    | cleanSignal hs =>
      rw [← hc, hs]
      simp
    | cleaned => simp
  | _ => cases hst <;> simp

theorem moves_on (h : FairRun capacity limit E) (hm : Moving w c) :
    E.LeadsTo (fun s => Over s ∧ s.stage w = c) fun s => s.stage w ≠ c := by
  refine leadsTo_of_changes (fun s => s.stage w) (h.goes _ (ofJoin_own hm)) h.over_lasts
    (fun k ho hc => ?_) fun k _ hc hl => own_moves hc hm (hl ▸ E.step k)
  subst hc
  exact own_enabled (h.holds k) ho hm

/-! Whoever sleeps is signalled -/

/-- Who is going to signal `b` goes on to do so, until `b` has a byte. -/
theorem will_step (hst : Step s a t) (hr : NoRaise s a) (h : Standing s) (ho : Over s) (hd : b ≠ d)
    (hw : WillSignal b (s.stage d)) : WillSignal b (t.stage d) ∨ 0 < t.pipe b := by
  have hset : ∀ {v c}, t.stage = Function.update s.stage v c →
      (d = v → WillSignal b c ∨ 0 < t.pipe b) → WillSignal b (t.stage d) ∨ 0 < t.pipe b := by
    intro v c ht hc
    rw [ht]
    by_cases hv : d = v
    · subst v
      rw [Function.update_self]
      exact hc rfl
    · rw [Function.update_of_ne hv]
      exact Or.inl hw
  have hno : ∀ {v c}, s.stage v = c → ¬ WillSignal b c → d ≠ v := by
    rintro v c hv hc rfl
    exact hc (hv ▸ hw)
  cases hst with
  | start | started | poll | clearHung | retire => exact hset rfl fun _ => Or.inl trivial
  | interrupted | pollDone =>
    refine hset rfl fun he => Or.inl (mem_others.mpr ?_)
    rwa [← he]
  | count => exact hset rfl fun _ => Or.inl ho.2.le
  | pollEmpty hv hm => exact hset rfl fun he => (hno hv (not_le.mpr hm) he).elim
  | setHung hv | block hv | wake hv | drain hv | cleaned hv | leave hv | caught _ hv =>
    exact hset rfl fun he => (hno hv (by simp [WillSignal]) he).elim
  | @cleanSignal v x rest hv =>
    refine hset rfl fun he => ?_
    subst he
    rw [hv] at hw
    rcases List.mem_cons.mp hw with rfl | hin
    · exact Or.inr (by simp)
    · exact Or.inl hin
  | raise => exact hr.elim
  | @sched act u _ _ hu =>
    have hkeep : stageAfter s u act d = s.stage d :=
      stageAfter_other fun hsw => hsw.fiber hu (h.hands ho d)
    exact Or.inl (show WillSignal b (stageAfter s u act d) by rwa [hkeep])
  | _ => exact Or.inl hw

section

omit [DecidableEq F]

theorem WillSignal.moving (hw : WillSignal b c) (hb : c ≠ .busy) (hr : ∀ f, c ≠ .retiring f) :
    Moving d c := by
  cases c with
  | loop | counted | clean => trivial
  | busy => exact (hb rfl).elim
  | retiring f => exact (hr f rfl).elim
  | _ => exact hw.elim

end

theorem signalled (h : FairRun capacity limit E) (hd : b ≠ d) :
    E.LeadsTo (fun s => Over s ∧ WillSignal b (s.stage d)) fun s => 0 < s.pipe b := by
  refine leadsTo_of_rank (fun s => s.stage d) toGo (fun k ⟨ho, hw⟩ => ?_)
    fun c m ⟨⟨ho, hw⟩, hc⟩ => ?_
  · have hon : (E.state k).stage d ≠ .off := fun hoff => by simp [hoff, WillSignal] at hw
    have hdown := goes_down (E.step k) (h.allowed k).2 (h.holds k) ho hon
    have ho' := h.over_lasts k ho
    rcases will_step (E.step k) (h.allowed k).2 (h.holds k) ho hd hw with hw' | hp
    · exact Or.inr ⟨⟨ho', hw'⟩, hdown⟩
    · exact Or.inl hp
  · have hm : Moving d c := by
      subst hc
      exact hw.moving ((h.holds m).not_busy ho) fun _ => (h.holds m).not_retiring ho
    obtain ⟨k, hk, hne⟩ := moves_on h hm m ⟨ho, hc⟩
    exact ⟨k, hk, Or.inr hne⟩

/-- A worker that sleeps when everything is over comes out of the multiplexer. -/
theorem sleeper_leads (h : FairRun capacity limit E) :
    E.LeadsTo (fun s => Over s ∧ s.stage w = .blocked) fun s => s.stage w ≠ .blocked := by
  intro m ⟨ho, hb⟩
  have hbyte : ∃ k, m ≤ k ∧ 0 < (E.state k).pipe w := by
    rcases (h.holds m).watched w (by rw [hb]; trivial) with h0 | hp | ⟨d, hd, hw⟩
    · simp [ho.2] at h0
    · exact ⟨m, Nat.le_refl m, hp⟩
    · exact signalled h (Ne.symm hd) m ⟨ho, hw⟩
  obtain ⟨k, hk, hp⟩ := hbyte
  by_cases hs : (E.state k).stage w = .blocked
  · obtain ⟨j, hj, hne⟩ := h.wakes w k ⟨hs, hp⟩
    exact ⟨j, Nat.le_trans hk hj, hne⟩
  · exact ⟨k, hk, hs⟩

theorem gone_leads (h : FairRun capacity limit E) :
    E.LeadsTo (fun s => Over s ∧ s.stage w ≠ .off) (Gone w) := by
  refine leadsTo_of_rank (fun s => s.stage w) toGo (fun k ⟨ho, hon⟩ => Or.inr ?_)
    fun c m ⟨⟨ho, hon⟩, hc⟩ => ?_
  · exact ⟨⟨h.over_lasts k ho, on_step (E.step k) hon⟩,
      goes_down (E.step k) (h.allowed k).2 (h.holds k) ho hon⟩
  · have hmove : Moving w c → ∃ k, m ≤ k ∧ (Gone w (E.state k) ∨ (E.state k).stage w ≠ c) := by
      intro hm
      obtain ⟨k, hk, hne⟩ := moves_on h hm m ⟨ho, hc⟩
      exact ⟨k, hk, Or.inr hne⟩
    cases c with
    | off => exact (hon hc).elim
    | busy => exact ((h.holds m).not_busy ho hc).elim
    | retiring f => exact ((h.holds m).not_retiring ho hc).elim
    | blocked =>
      obtain ⟨k, hk, hne⟩ := sleeper_leads h m ⟨ho, hc⟩
      exact ⟨k, hk, Or.inr hne⟩
    | left r =>
      by_cases hw : w = 0
      · exact ⟨m, Nat.le_refl m, Or.inl (by simpa [Gone, hc] using hw)⟩
      · exact hmove (Fin.val_ne_zero_iff.mpr hw)
    | done r => exact ⟨m, Nat.le_refl m, Or.inl (by simp [Gone, hc])⟩
    | _ => exact hmove trivial

/-! The way of the caller -/

theorem FairRun.hosted (h : FairRun capacity limit E) : Hosted E id id Over where
  hosts := hosts_join
  pool := (h.holds 0).pool
  goes := h.goes
  lasts := h.over_lasts
  begun _ ho := ho.1
  gone _ := gone_leads h
  dispatches := by
    refine leadsTo_of_changes (fun s => s.caller) (h.goes .dispatch trivial) h.over_lasts
      (fun k ho hc => ⟨_, .dispatched hc ((h.holds k).defaultTaskQueue ho)⟩) fun k ho _ hl => ?_
    have hst := hl ▸ E.step k
    generalize E.state (k + 1) = t at hst ⊢
    cases hst with
    | dispatch _ hq => simp [(h.holds k).defaultTaskQueue ho] at hq
    | dispatched => simp

/-- `join` returns once every fiber that was scheduled has been retired. The bytes in the pipes are
enough for that: no worker needs its timeout. -/
theorem join_returns (h : FairRun capacity limit E) :
    E.LeadsTo (fun s => s.caller ≠ .before ∧ s.totalFiberCounter = 0)
      fun s => s.caller = .returned := by
  intro m ho
  obtain ⟨k, hk, hr | ht⟩ := h.hosted.ends m ho
  · exact ⟨k, hk, hr⟩
  · exact ((h.holds k).noFailure.caller ht).elim

/-! A fair run -/

theorem Going.cons (hst : Step s a (E.state 0)) (hg : Allowed s a) (h : Going E) :
    Going (E.cons hst) where
  allowed k := by
    cases k with
    | zero => exact hg
    | succ k => exact h.allowed k
  goes b hb := weaklyFair_cons (h.goes b hb)

/-- An outside thread whose `wakeUp` is refused changes nothing. -/
theorem refused_stutters {x : T} {p : B} (hc : s.call (.thread x) = .idle)
    (hr : s.sched.resume (.thread x) = none)
    (hb : (s.sched.blocker p).wakeUp = (s.sched.blocker p, .refused)) :
    Step s (.sched (.wakeUp (.thread x) p)) s := by
  have hst := Step.sched (s := s) (a := .wakeUp (.thread x) p) id hc (.wakeUpRefused hr hb)
  simpa [Scheduler.State.release, stageAfter] using hst

/-- A worker that finds everything over leaves and signals the others. -/
theorem clean_run {r : List (Fin (n + 1))} (hs : s.stage w = .clean r)
    (hi : s.interrupted = false) : ∃ as p, Run (Guarded Allowed Step) s as
      { s with stage := Function.update s.stage w (.left false), pipe := p } ∧
      ∀ b, s.pipe b ≤ p b ∧ (b ∈ r → s.pipe b < p b) := by
  induction r generalizing s with
  | nil =>
    have hrun : Run (Guarded Allowed Step) s _ _ :=
      .guard (.cleaned hs) ⟨trivial, trivial⟩ <|
      .guard (.leave (w := w) (by simp)) ⟨trivial, trivial⟩ .refl
    exact ⟨_, s.pipe, by simpa [hi] using hrun, fun b => ⟨le_rfl, by simp⟩⟩
  | cons v rest ih =>
    obtain ⟨as, p, hrun, hp⟩ := ih (s := (s.setPipe v (s.pipe v + 1)).setStage w (.clean rest))
      (by simp) hi
    refine ⟨_, p, .guard (.cleanSignal hs) ⟨trivial, trivial⟩ (by simpa using hrun), fun b => ?_⟩
    have hb := hp b
    by_cases hbv : b = v
    · subst v
      simp at hb ⊢
      omega
    · simpa [hbv] using hb

theorem leaves_run (hs : s.stage w = .loop) (hi : s.interrupted = false)
    (h0 : s.totalFiberCounter = 0) (hq : s.sched.taskQueue w = []) :
    ∃ as p, Run (Guarded Allowed Step) s as
      { s with stage := Function.update s.stage w (.left false), pipe := p } ∧
      ∀ b, s.pipe b ≤ p b ∧ (b ≠ w → s.pipe b < p b) := by
  obtain ⟨as, p, hrun, hp⟩ := clean_run (w := w) (r := others w)
    (s := (s.setStage w (.counted 0)).setStage w (.clean (others w))) (by simp) hi
  refine ⟨_, p, .guard (.count hs hi) ⟨trivial, trivial⟩ <|
    .guard (.pollDone (m := 0) (by simp [h0]) le_rfl hq) ⟨trivial, trivial⟩
      (by simpa [h0] using hrun), fun b => ⟨(hp b).1, fun hb => (hp b).2 (mem_others.mpr hb)⟩⟩

/-- One that sleeps is woken by a byte and leaves. -/
theorem woken_run (hs : s.stage w = .blocked) (hb : 0 < s.pipe w) (hi : s.interrupted = false)
    (h0 : s.totalFiberCounter = 0) (hq : s.sched.taskQueue w = []) (hw : s.sched.worker w = .idle)
    (hr : s.sched.resume (.worker w) = none) : ∃ as p, Run (Guarded Allowed Step) s as
      { s.setHung w false with
        sched := s.sched.setWorker w .head, pipe := p,
        stage := Function.update s.stage w (.left false) } := by
  obtain ⟨as, p, hrun, -⟩ := leaves_run (w := w)
    (s := { ((s.setPipe w (s.pipe w - 32)).setHung w false).setStage w .loop with
      sched := s.sched.setWorker w .head }) (by simp) hi h0 hq
  refine ⟨_, p, .guard (.wake hs) ⟨trivial, trivial⟩ <|
    .guard (.drain (w := w) (by simp [hb])) ⟨trivial, trivial⟩ <|
    .guard (.clearHung (w := w) (by simp) (.endIdle hw hr)) ⟨trivial, trivial⟩
      (by simpa using hrun)⟩

/-- The caller finds everything over, while a pool thread sleeps. -/
structure OneSleeps (s : State 1 F B T) : Prop where
  ended : Over s
  caller : s.caller = .working
  calm : s.interrupted = false
  error : s.hasError = false
  queue : ∀ w, s.sched.taskQueue w = []
  head : s.stage 0 = .loop
  blocked : s.stage 1 = .blocked
  idle : s.sched.worker 1 = .idle
  resume : s.sched.resume (.worker 1) = none

theorem OneSleeps.run {s : State 1 F B T} (h : OneSleeps s) :
    ∃ as t, Run (Guarded Allowed Step) s as t ∧ t.caller = .returned ∧ (∀ w, Gone w t) ∧
      t.call = s.call ∧ t.sched.resume = s.sched.resume ∧ t.sched.blocker = s.sched.blocker := by
  have h10 : (1 : Fin 2) ≠ 0 := by decide
  obtain ⟨as, p, hfirst, hp⟩ := leaves_run h.head h.calm h.ended.2 (h.queue 0)
  obtain ⟨bs, q, hsecond⟩ := woken_run (w := 1)
    (s := { s with stage := Function.update s.stage 0 (.left false), pipe := p })
    (by simpa [h10] using h.blocked) (Nat.lt_of_le_of_lt (Nat.zero_le _) ((hp 1).2 h10))
    h.calm h.ended.2 (h.queue 1) h.idle h.resume
  refine ⟨_, _, hfirst.append <| hsecond.append <|
    .guard (.caught (w := 1) (b := false) h10 (by simp)) ⟨trivial, trivial⟩ <|
    .guard (.work (b := false) h.caller (by simp)) ⟨trivial, trivial⟩ <|
    .guard (.joinPool (i := 0) (b := false) (by decide) (by simp) (by simp)) ⟨trivial, trivial⟩ <|
    .guard (.joined (by simp)) ⟨trivial, trivial⟩ .refl, ?_, ?_, rfl, rfl, rfl⟩
  · simp [h.error]
  · exact Fin.forall_fin_two.mpr ⟨by simp [Gone], by simp [Gone]⟩

/-- One fiber, two workers: the pool thread goes to sleep on a positive count, and the caller runs
the fiber and retires it. -/
theorem oneSleeps_run : ∃ as s, Run (Guarded Allowed Step)
    (initial (fun _ => 0) fun _ => 0 : State 1 Unit Unit Unit) as s ∧ OneSleeps s ∧
      s.pipe 1 = 0 ∧ s.call (.thread ()) = .idle ∧ s.sched.resume (.thread ()) = none ∧
      s.sched.blocker () = .create 0 0 := by
  refine ⟨_, _, .guard (.schedule (f := ()) rfl rfl) ⟨trivial, trivial⟩ <|
    .guard (.callJoin rfl) ⟨trivial, trivial⟩ <|
    .guard (.dispatch (w := 0) rfl rfl (.schedule rfl)) ⟨trivial, trivial⟩ <|
    .guard (.dispatched rfl rfl) ⟨trivial, trivial⟩ <|
    .guard (.start (i := 0) (by decide) rfl) ⟨trivial, trivial⟩ <|
    .guard (.started rfl) ⟨trivial, trivial⟩ <|
    .guard (.count (w := 1) rfl rfl) ⟨trivial, trivial⟩ <|
    .guard (.pollEmpty (w := 1) (m := 1) rfl (by decide) (.pollEmpty rfl rfl)) ⟨trivial, trivial⟩ <|
    .guard (.setHung (w := 1) rfl) ⟨trivial, trivial⟩ <|
    .guard (.block (w := 1) rfl) ⟨trivial, trivial⟩ <|
    .guard (.count (w := 0) rfl rfl) ⟨trivial, trivial⟩ <|
    .guard (.poll (w := 0) (m := 1) rfl (.poll rfl rfl)) ⟨trivial, trivial⟩ <|
    .guard (.sched (a := .dispatch 0) id trivial (.dispatch (f := ()) rfl rfl))
      ⟨trivial, trivial⟩ <|
    .guard (.sched (a := .finish ()) id rfl (.finish (w := 0) ⟨rfl, rfl⟩ rfl))
      ⟨trivial, trivial⟩ <|
    .guard (.sched (a := .switch 0) id trivial
      (.switchOther (f := ()) rfl (by decide) (by decide))) ⟨trivial, trivial⟩ <|
    .guard (.retire (w := 0) (f := ()) rfl) ⟨trivial, trivial⟩ .refl,
    ⟨⟨(fun h => by cases h), rfl⟩, rfl, rfl, rfl, Fin.forall_fin_two.mpr ⟨rfl, rfl⟩, rfl, rfl, rfl,
      rfl⟩,
    rfl, rfl, rfl, rfl⟩

/-- There it is over while the pool thread sleeps without a byte in its pipe. -/
theorem join_returns_two : ∃ E : Execution (Step : State 1 Unit Unit Unit → _ → _ → Prop),
    (∃ k, (E.state k).stage 1 = .blocked ∧ (E.state k).pipe 1 = 0 ∧
      (E.state k).caller ≠ .before ∧ (E.state k).totalFiberCounter = 0) ∧
    E.LeadsTo (fun s => s.caller ≠ .before ∧ s.totalFiberCounter = 0)
      fun s => s.caller = .returned := by
  obtain ⟨as, s, hbefore, hs, hpipe, hcall, hresume, hblocker⟩ := oneSleeps_run
  obtain ⟨bs, t, hafter, hret, hgone, hcall', hresume', hblocker'⟩ := hs.run
  have hstutter : Step t (.sched (.wakeUp (.thread ()) ())) t := by
    refine refused_stutters (hcall' ▸ hcall) (hresume' ▸ hresume) ?_
    rw [hblocker', hblocker]
    rfl
  have hE₀ : Going (cycle (fun _ => t) (fun _ => .sched (.wakeUp (.thread ()) ())) 1
      (fun _ _ => hstutter) rfl (by decide)) :=
    ⟨fun _ => ⟨trivial, trivial⟩, fun a ha => cycle_fair (i := 0) (by decide)
      (Or.inr (gone_disabled (Or.inl hret) hgone ha))⟩
  obtain ⟨E, hE, hstart, hcont⟩ := prepend Going.cons hafter hE₀ rfl
  obtain ⟨E', hE', hstart', hcont'⟩ := prepend Going.cons hbefore hE hstart
  have hend : ∀ k, E'.state (as.length + (bs.length + k)) = t :=
    fun k => (hcont' _).1.trans (hcont k).1
  refine ⟨E', ⟨as.length, ?_⟩, join_returns
    { toGoing := hE', start := hstart', wakes := fun w m _ => ?_ }⟩
  · have hmid : E'.state as.length = s := (hcont' 0).1.trans hstart
    rw [hmid]
    exact ⟨hs.blocked, hpipe, hs.ended⟩
  · refine ⟨as.length + (bs.length + m), by omega, fun hb => ?_⟩
    rw [hend] at hb
    rcases (hgone w).left_or_done with ⟨-, r, hg⟩ | ⟨r, hg⟩ <;> simp [hb] at hg

end CxxFiber.Join
