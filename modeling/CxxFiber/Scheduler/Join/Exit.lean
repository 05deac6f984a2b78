import CxxFiber.Scheduler.Join

/-! When `join(int)` gives control back, and what the caller then knows about the pool. -/
namespace CxxFiber.Join

open Transition

variable {n : ℕ} {F B T : Type}
  {s t : State n F B T} {a : Act n F B T} {as : List (Act n F B T)} {w : Fin (n + 1)} {b : Bool}
  {capacity limit : B → ℕ}

/-- Out of `joinWithThreadBind`. -/
def HasLeft : Stage n F → Prop
  | .left _ | .done _ => True
  | _ => False

def Failed : Stage n F → Prop
  | .left b | .done b => b = true
  | _ => False

/-- The caller gets control back only after the pool has left, and with an exception if a worker
failed. -/
structure Exits (s : State n F B T) : Prop where
  pool : s.caller = .returned ∨ s.caller = .threw → ∀ w, w ≠ 0 → HasLeft (s.stage w)
  error : s.caller = .returned → ∀ w, ¬ Failed (s.stage w)

/-- The condition on a step: when the caller's own loop raises, or finds the scheduler interrupted
at its last test, the pool has left. -/
def PoolGone (s : State n F B T) (a : Act n F B T) : Prop :=
  (a = .leave 0 ∧ s.interrupted = true) ∨ a = .raise 0 → ∀ w, w ≠ 0 → HasLeft (s.stage w)

/-- Out of its loop for good; a pool thread has returned from `Worker::run`. -/
def Gone (w : Fin (n + 1)) (s : State n F B T) : Prop :=
  match s.stage w with
  | .done _ => True
  | .left _ => w = 0
  | _ => False

/-- What the place of the caller says about the stages. -/
def CallerOk (s : State n F B T) : Prop :=
  match s.caller with
  | .before | .dispatching => ∀ w, s.stage w = .off
  | .starting i => s.stage 0 = .off ∧ ∀ w, i < w.val → s.stage w = .off
  | .working => True
  | .joining i =>
    s.stage 0 = .left false ∧ ∀ w, w ≠ 0 → w.val ≤ i → ∃ b, s.stage w = .done b
  | .returned =>
    s.hasError = false ∧ s.stage 0 = .left false ∧ ∀ w, w ≠ 0 → ∃ b, s.stage w = .done b
  | .threw => ∀ w, w ≠ 0 → HasLeft (s.stage w)

structure ExitInv (s : State n F B T) : Prop where
  caller : CallerOk s
  error : ∀ w, s.stage w = .done true → s.hasError = true
  thrown : s.stage 0 = .left true → ∀ w, w ≠ 0 → HasLeft (s.stage w)

/-- A stage changes from inside the loop, or when `Worker::run` catches or a thread starts. -/
inductive Moves (s t : State n F B T) (w : Fin (n + 1)) : Prop
  | stay : t.stage w = s.stage w → Moves s t w
  | loop : InLoop (s.stage w) → (∀ b, t.stage w ≠ .done b) → Moves s t w
  | caught (b : Bool) : w ≠ 0 → s.stage w = .left b → t.stage w = .done b →
      t.hasError = (s.hasError || b) → Moves s t w

theorem Moves.of_update {c : Stage n F} {v : Fin (n + 1)} (hv : InLoop (s.stage v))
    (ht : t.stage = Function.update s.stage v c) (hc : ∀ b, c ≠ .done b) : Moves s t w := by
  by_cases hw : w = v
  · subst w
    exact .loop hv (by simpa [ht] using hc)
  · exact .stay (by simp [ht, hw])

theorem settled_ne (x : Scheduler.State F (Fin (n + 1)) B T) (u) (c : Stage n F)
    (hc : c = settled x u w) : c = .busy ∨ c = .loop ∨ ∃ f, c = .retiring f := by
  subst hc
  unfold settled
  split
  · split <;> simp
  · simp
  · simp

theorem stage_step [DecidableEq F] [DecidableEq B] [DecidableEq T]
    (hst : Step s a t) (ha : a ≠ .start) (w : Fin (n + 1)) : Moves s t w := by
  cases hst with
  | start | started => exact (ha rfl).elim
  | @caught v b hv hs =>
    by_cases hw : w = v
    · subst w
      exact .caught b hv hs (by simp) rfl
    · exact .stay (by simp [hw])
  | interrupted hs | count hs | poll hs | pollEmpty hs | pollDone hs | setHung hs | block hs
  | wake hs | drain hs | clearHung hs | retire hs | cleanSignal hs | cleaned hs | leave hs =>
    exact .of_update (by rw [hs]; trivial) rfl (by simp)
  | raise hs => exact .of_update hs rfl (by simp)
  | @sched act u ho hm hu =>
    cases act with
    | switch v | swapOut v | requeue v =>
      have hv : InLoop (s.stage v) := by
        have hm : Awake (s.stage v) := hm
        cases hs : s.stage v <;> simp [hs, Awake] at hm <;> trivial
      refine .of_update hv rfl fun b => ?_
      rcases settled_ne s.sched u _ rfl with he | he | ⟨f, he⟩ <;> rw [he] <;> simp
    | _ => exact .stay rfl
  | _ => exact .stay rfl

theorem Moves.off (hm : Moves s t w) (h : s.stage w = .off) : t.stage w = .off := by
  cases hm with
  | stay he => exact he.trans h
  | loop hi _ => simp [h, InLoop] at hi
  | caught b hw hs => simp [h] at hs

theorem Moves.done (hm : Moves s t w) (h : s.stage w = .done b) : t.stage w = .done b := by
  cases hm with
  | stay he => exact he.trans h
  | loop hi _ => simp [h, InLoop] at hi
  | caught b hw hs => simp [h] at hs

theorem Moves.left_zero (hm : Moves s t 0) (h : s.stage 0 = .left b) : t.stage 0 = .left b := by
  cases hm with
  | stay he => exact he.trans h
  | loop hi _ => simp [h, InLoop] at hi
  | caught b hw hs => exact (hw rfl).elim

theorem Moves.hasLeft (hm : Moves s t w) (h : HasLeft (s.stage w)) : HasLeft (t.stage w) := by
  cases hm with
  | stay he => exact he ▸ h
  | loop hi _ => cases hs : s.stage w <;> simp [hs, HasLeft, InLoop] at h hi
  | caught b hw hs ht => exact ht ▸ trivial

/-- The pool threads after the one that starts. -/
theorem off_start {i : ℕ} (hi : i < n) (h : ∀ w, i < w.val → s.stage w = .off)
    (hw : i + 1 < w.val) : Function.update s.stage (Fin.succ ⟨i, hi⟩) .loop w = .off := by
  have hne : w ≠ Fin.succ ⟨i, hi⟩ := by
    rintro rfl
    simp at hw
  rw [Function.update_of_ne hne]
  exact h w (by omega)

/-- A worker that has not been started is not in its loop. -/
def NotStarted (s : State n F B T) : Prop :=
  match s.caller with
  | .before | .dispatching => ∀ w, s.stage w = .off
  | .starting i => s.stage 0 = .off ∧ ∀ w, i < w.val → s.stage w = .off
  | _ => True

/-- The pool threads that the caller has passed have been started. -/
def Started (s : State n F B T) : Prop :=
  match s.caller with
  | .before | .dispatching => True
  | .starting i => i ≤ n ∧ ∀ w, w ≠ 0 → w.val ≤ i → s.stage w ≠ .off
  | .joining i => i ≤ n ∧ ∀ w, s.stage w ≠ .off
  | .working | .returned | .threw => ∀ w, s.stage w ≠ .off

theorem notStarted_step [DecidableEq F] [DecidableEq B] [DecidableEq T]
    (hst : Step s a t) (h : NotStarted s) : NotStarted t := by
  have hkeep : t.caller = s.caller → a ≠ .start → NotStarted t := by
    intro hc ha
    have hm := stage_step hst ha
    unfold NotStarted at h ⊢
    rw [hc]
    cases hs : s.caller with
    | before | dispatching =>
      simp only [hs] at h
      exact fun w => (hm w).off (h w)
    | starting i =>
      simp only [hs] at h
      exact ⟨(hm 0).off h.1, fun w hw => (hm w).off (h.2 w hw)⟩
    | _ => trivial
  cases hst with
  | callJoin hc =>
    simp only [NotStarted, hc] at h ⊢
    exact h
  | dispatched hc =>
    simp only [NotStarted, hc] at h ⊢
    exact ⟨h 0, fun w _ => h w⟩
  | @start i hi hc =>
    simp only [NotStarted, hc] at h ⊢
    exact ⟨by simpa [(Fin.succ_ne_zero _).symm] using h.1, fun w => off_start hi h.2⟩
  | started | joinPool => trivial
  | @work b =>
    cases b <;> trivial
  | joined =>
    unfold NotStarted
    cases s.hasError <;> trivial
  | _ => exact hkeep rfl (by simp)

/-- A step of `join` is none of the scheduler, the one it names, or one of the loop. -/
theorem sched_step [DecidableEq F] [DecidableEq B] [DecidableEq T]
    (hst : Step s a t) : t.sched = s.sched ∨
    ∃ act, Scheduler.Step s.sched act t.sched ∧
      (a = .sched act ∨ OfLoop act ∧ ∀ w, act = .poll w → a = .poll w) := by
  cases hst with
  | dispatch _ _ hu | addCall _ hu | pollEmpty _ _ hu | clearHung _ hu =>
    exact Or.inr ⟨_, hu, Or.inr ⟨trivial, by simp⟩⟩
  | poll _ hu => exact Or.inr ⟨_, hu, Or.inr ⟨trivial, fun w hw => by cases hw; rfl⟩⟩
  | sched _ _ hu => exact Or.inr ⟨_, hu, Or.inl rfl⟩
  | _ => exact Or.inl rfl

theorem CallerOk.notStarted (h : CallerOk s) : NotStarted s := by
  unfold CallerOk at h
  unfold NotStarted
  cases hs : s.caller with
  | before | dispatching | starting i =>
    simp only [hs] at h
    exact h
  | _ => trivial

/-- What the caller knows stays true while others move. -/
theorem CallerOk.keep (h : CallerOk s) (hn : NotStarted t) (hm : ∀ w, Moves s t w)
    (hc : t.caller = s.caller)
    (he : t.hasError = s.hasError ∨ ∃ w b, w ≠ 0 ∧ s.stage w = .left b) : CallerOk t := by
  unfold CallerOk NotStarted at *
  rw [hc] at hn ⊢
  cases hs : s.caller with
  | before | dispatching | starting i =>
    simp only [hs] at hn
    exact hn
  | working => trivial
  | joining i =>
    simp only [hs] at h
    refine ⟨(hm 0).left_zero h.1, fun w hw hi => ?_⟩
    obtain ⟨b, hb⟩ := h.2 w hw hi
    exact ⟨b, (hm w).done hb⟩
  | returned =>
    simp only [hs] at h
    obtain ⟨herr, h0, hdone⟩ := h
    refine ⟨?_, (hm 0).left_zero h0, fun w hw => ?_⟩
    · rcases he with he | ⟨w, b, hw, hl⟩
      · exact he.trans herr
      · obtain ⟨b', hb⟩ := hdone w hw
        simp [hl] at hb
    · obtain ⟨b, hb⟩ := hdone w hw
      exact ⟨b, (hm w).done hb⟩
  | threw =>
    simp only [hs] at h
    exact fun w hw => (hm w).hasLeft (h w hw)

theorem hasError_step [DecidableEq F] [DecidableEq B] [DecidableEq T]
    (hst : Step s a t) : t.hasError = s.hasError ∨ a = .callJoin ∨
    ∃ w b, w ≠ 0 ∧ s.stage w = .left b ∧ t.hasError = (s.hasError || b) := by
  cases hst with
  | callJoin => exact Or.inr (Or.inl rfl)
  | @caught w b hw hs => exact Or.inr (Or.inr ⟨w, b, hw, hs, rfl⟩)
  | _ => exact Or.inl rfl

theorem callerOk_step [DecidableEq F] [DecidableEq B] [DecidableEq T]
    (hst : Step s a t) (h : ExitInv s) : CallerOk t := by
  have hok := h.caller
  have hn := notStarted_step hst hok.notStarted
  have hkeep : t.caller = s.caller → a ≠ .start → a ≠ .callJoin → CallerOk t := by
    intro hc hns hnj
    refine hok.keep hn (stage_step hst hns) hc ?_
    rcases hasError_step hst with he | ha | ⟨w, b, hw, hl, _⟩
    · exact Or.inl he
    · exact (hnj ha).elim
    · exact Or.inr ⟨w, b, hw, hl⟩
  cases hst with
  | callJoin | dispatched | start => exact hn
  | started hc => simp only [CallerOk]
  | @work b hc hs =>
    cases b with
    | false =>
      refine ⟨hs, fun w hw hle => ?_⟩
      exact (hw (Fin.ext (Nat.le_zero.mp hle))).elim
    | true => exact h.thrown hs
  | @joinPool i b hi hc hs =>
    simp only [CallerOk, hc] at hok ⊢
    refine ⟨hok.1, fun w hw hle => ?_⟩
    by_cases hwi : w.val ≤ i
    · exact hok.2 w hw hwi
    · have hws : w = Fin.succ ⟨i, hi⟩ := Fin.ext (by simp; omega)
      exact ⟨b, hws ▸ hs⟩
  | joined hc =>
    simp only [CallerOk, hc] at hok
    have hdone : ∀ w, w ≠ 0 → ∃ b, s.stage w = .done b :=
      fun w hw => hok.2 w hw (Nat.le_of_lt_succ w.isLt)
    cases he : s.hasError with
    | false => exact ⟨rfl, hok.1, hdone⟩
    | true =>
      intro w hw
      obtain ⟨b, hb⟩ := hdone w hw
      exact hb ▸ trivial
  | _ => exact hkeep rfl (by simp) (by simp)

theorem exitInv_initial : ExitInv (initial capacity limit : State n F B T) := by
  refine ⟨fun _ => rfl, ?_, ?_⟩ <;> simp [initial]

variable [DecidableEq F] [DecidableEq B] [DecidableEq T]

/-- Only its last test and an exception in its loop make the caller's worker throw. -/
theorem thrown_step (hst : Step s a t) (ht : t.stage 0 = .left true) : s.stage 0 = .left true ∨
    (a = .leave 0 ∧ s.interrupted = true) ∨ a = .raise 0 := by
  have hset : ∀ {u : State n F B T} {v c}, u.stage = Function.update s.stage v c →
      u.stage 0 = .left true → c ≠ .left true → s.stage 0 = .left true := by
    intro u v c hu hv hc
    rw [hu] at hv
    by_cases h0 : 0 = v
    · subst v
      exact (hc (by simpa using hv)).elim
    · rwa [Function.update_of_ne h0] at hv
  cases hst with
  | start | started | interrupted | count | poll | pollEmpty | pollDone | setHung | block | wake
  | drain | clearHung | retire | cleanSignal | cleaned | caught =>
    exact Or.inl (hset rfl ht (by simp))
  | @leave w hs =>
    by_cases h0 : 0 = w
    · subst w
      exact Or.inr (Or.inl ⟨rfl, by simpa using ht⟩)
    · exact Or.inl (by simpa [h0] using ht)
  | @raise w hs =>
    by_cases h0 : 0 = w
    · subst w
      exact Or.inr (Or.inr rfl)
    · exact Or.inl (by simpa [h0] using ht)
  | @sched act u ho hm hu =>
    cases act with
    | switch v | swapOut v | requeue v =>
      refine Or.inl (hset rfl ht ?_)
      rcases settled_ne s.sched u _ rfl with he | he | ⟨f, he⟩ <;> rw [he] <;> simp
    | _ => exact Or.inl ht
  | _ => exact Or.inl ht

/-- A pool thread that failed is recorded. -/
theorem error_step (hst : Step s a t) (h : ExitInv s) (hw : t.stage w = .done true) :
    t.hasError = true := by
  have hold : s.stage w = .done true → t.hasError = true := by
    intro hs
    rcases hasError_step hst with he | rfl | ⟨v, b, _, _, he⟩
    · exact he.trans (h.error w hs)
    · cases hst with
      | callJoin hc =>
        have hok := h.caller
        simp only [CallerOk, hc] at hok
        simp [hok w] at hs
    · simp [he, h.error w hs]
  by_cases ha : a = .start
  · subst a
    cases hst with
    | @start i hi hc =>
      by_cases hwi : w = Fin.succ ⟨i, hi⟩
      · simp [hwi] at hw
      · have hw : Function.update s.stage (Fin.succ ⟨i, hi⟩) .loop w = .done true := hw
        rw [Function.update_of_ne hwi] at hw
        exact hold hw
    | started hc =>
      by_cases hw0 : w = 0
      · simp [hw0] at hw
      · exact hold (by simpa [hw0] using hw)
  · cases stage_step hst ha w with
    | stay he => exact hold (he ▸ hw)
    | loop _ hn => exact (hn true hw).elim
    | caught b _ _ ht he =>
      obtain rfl : b = true := by simpa [ht] using hw
      simp [he]

theorem exitInv_step (hst : Step s a t) (hg : PoolGone s a) (h : ExitInv s) : ExitInv t := by
  refine ⟨callerOk_step hst h, fun w hw => error_step hst h hw, fun ht w hw => ?_⟩
  have hpool : ∀ w, w ≠ 0 → HasLeft (s.stage w) := by
    rcases thrown_step hst ht with hs | ha
    · exact h.thrown hs
    · exact hg ha
  by_cases ha : a = .start
  · -- a thread starts only before the caller enters its own loop
    subst a
    have hok := h.caller
    cases hst with
    | @start i hi hc =>
      simp only [CallerOk, hc] at hok
      have h0 : Function.update s.stage (Fin.succ ⟨i, hi⟩) .loop 0 = .left true := ht
      rw [Function.update_of_ne (Fin.succ_ne_zero _).symm, hok.1] at h0
      simp at h0
    | started hc => simp at ht
  · exact (stage_step hst ha w).hasLeft (hpool w hw)

theorem exitInv_run (h : Run (Guarded PoolGone Step) (initial capacity limit) as s) :
    ExitInv s :=
  h.invariant (fun _ _ _ hi hst => exitInv_step hst.2 hst.1 hi) exitInv_initial

section

omit [DecidableEq F] [DecidableEq B] [DecidableEq T]

theorem ExitInv.exits (h : ExitInv s) : Exits s := by
  have hok := h.caller
  refine ⟨fun hc w hw => ?_, fun hc w hf => ?_⟩
  · rcases hc with hc | hc
    · simp only [CallerOk, hc] at hok
      obtain ⟨b, hb⟩ := hok.2.2 w hw
      exact hb ▸ trivial
    · simp only [CallerOk, hc] at hok
      exact hok w hw
  · simp only [CallerOk, hc] at hok
    obtain ⟨herr, h0, hdone⟩ := hok
    by_cases hw : w = 0
    · subst w
      simp [h0, Failed] at hf
    · obtain ⟨b, hb⟩ := hdone w hw
      rw [hb] at hf
      have hb : s.stage w = .done true := hb.trans (congrArg _ hf)
      simp [h.error w hb] at herr

end

theorem join_waits (h : Run (Guarded PoolGone Step) (initial capacity limit : State n F B T) as s) :
    Exits s := (exitInv_run h).exits

/-- Two workers: the pool thread fails, the caller finishes its own loop, joins and throws. -/
theorem join_waits_failed : ∃ s : State 1 Unit Unit Unit,
    s.caller = .threw ∧ s.stage 1 = .done true ∧ Exits s := by
  refine ⟨_, ?_, ?_, join_waits <|
    .guard (.callJoin (s := initial (fun _ => 0) fun _ => 1) rfl) (by simp [PoolGone]) <|
    .guard (.dispatched rfl rfl) (by simp [PoolGone]) <|
    .guard (.start (i := 0) (by decide) rfl) (by simp [PoolGone]) <|
    .guard (.started rfl) (by simp [PoolGone]) <|
    .guard (.raise (w := 1) trivial (by simp [initial, Scheduler.initial])) (by simp [PoolGone]) <|
    .guard (.caught (w := 1) (b := true) (by decide) rfl) (by simp [PoolGone]) <|
    .guard (.count (w := 0) rfl rfl) (by simp [PoolGone]) <|
    .guard (.pollDone (w := 0) (m := 0) rfl (by decide) rfl) (by simp [PoolGone]) <|
    .guard (.cleanSignal (w := 0) (v := 1) (r := []) rfl) (by simp [PoolGone]) <|
    .guard (.cleaned (w := 0) rfl) (by simp [PoolGone]) <|
    .guard (.leave (w := 0) rfl) (by simp [PoolGone, initial]) <|
    .guard (.work (b := false) rfl rfl) (by simp [PoolGone]) <|
    .guard (.joinPool (i := 0) (b := true) (by decide) rfl rfl) (by simp [PoolGone]) <|
    .guard (.joined rfl) (by simp [PoolGone]) .refl⟩
  · rfl
  · rfl

/-- Two workers: `interrupt` is called before the pool thread has looked at the flag; the caller
finds it set at its last test and throws past the joins. -/
theorem join_leaves_pool : ∃ s : State 1 Unit Unit Unit,
    Reachable Step (initial (fun _ => 0) fun _ => 1) s ∧ s.caller = .threw ∧ s.stage 1 = .loop ∧
      ¬ Exits s := by
  refine ⟨_, ⟨_, .step (.callJoin rfl) <| .step (.dispatched rfl rfl) <|
    .step (.start (i := 0) (by decide) rfl) <| .step (.started rfl) <| .step .interrupt <|
    .step (.interrupted (w := 0) rfl rfl) <|
    .step (.cleanSignal (w := 0) (v := 1) (r := []) rfl) <|
    .step (.cleaned (w := 0) rfl) <| .step (.leave (w := 0) rfl) <|
    .step (.work (b := true) rfl rfl) .refl⟩, rfl, rfl, fun h => ?_⟩
  exact h.pool (Or.inr rfl) 1 (by decide)

end CxxFiber.Join
