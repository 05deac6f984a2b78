import CxxFiber.Scheduler.Join

/-! A worker that sleeps when the last fiber is retired is woken by one that leaves. -/
namespace CxxFiber.Join

open Transition

variable {n : ℕ} {F B T : Type}
  {s t u : State n F B T} {a : Act n F B T} {as : List (Act n F B T)} {w b d : Fin (n + 1)}
  {capacity limit : B → ℕ} {rest : List (Fin (n + 1))}

/-- No exception leaves a loop. -/
def NoRaise (_ : State n F B T) : Act n F B T → Prop
  | .raise _ => False
  | _ => True

/-- On the way into the multiplexer, with a positive count read, or in it. -/
def Asleep : Stage n F → Prop
  | .counted m => 0 < m
  | .empty | .hanging | .blocked => True
  | _ => False

/-- Will read the counter before it sleeps, or has read that nothing is left, and has `b` still to
signal. -/
def WillSignal (b : Fin (n + 1)) : Stage n F → Prop
  | .counted m => m ≤ 0
  | .clean rest => b ∈ rest
  | .loop | .busy | .retiring _ => True
  | _ => False

/-- A worker that sleeps does so on a positive count, or has a byte in its pipe, or somebody else
will signal it. -/
def Watched (s : State n F B T) : Prop :=
  ∀ b, Asleep (s.stage b) → 0 < s.totalFiberCounter ∨ 0 < s.pipe b ∨
    ∃ d, d ≠ b ∧ WillSignal b (s.stage d)

theorem watched_initial : Watched (initial capacity limit : State n F B T) := by
  intro b hb
  simp [initial, Asleep] at hb

/-- One worker moves. If it sleeps then, it slept before or has read a positive count; it still
signals whom it had to, and if it takes the last fiber away it signals everyone else. -/
theorem Watched.move {c : Stage n F} (h : Watched s) (hst : t.stage = Function.update s.stage w c)
    (hp : ∀ b, b ≠ w → s.pipe b ≤ t.pipe b)
    (hn : 0 < s.totalFiberCounter → 0 < t.totalFiberCounter ∨ ∀ b, b ≠ w → WillSignal b c)
    (hc : Asleep c → 0 < t.totalFiberCounter ∨ Asleep (s.stage w) ∧ t.pipe w = s.pipe w ∧
      t.totalFiberCounter = s.totalFiberCounter)
    (hw : ∀ b, b ≠ w → WillSignal b (s.stage w) →
      0 < t.totalFiberCounter ∨ 0 < t.pipe b ∨ WillSignal b c) : Watched t := by
  have hself : t.stage w = c := by simp [hst]
  have hother : ∀ d, d ≠ w → t.stage d = s.stage d := by
    intro d hd
    simp [hst, hd]
  intro b hb
  by_cases hbw : b = w
  · subst b
    rcases hc (hself ▸ hb) with h0 | ⟨ha, hpw, hcw⟩
    · exact Or.inl h0
    · rcases h w ha with h0 | h0 | ⟨d, hd, hds⟩
      · exact Or.inl (hcw ▸ h0)
      · exact Or.inr (Or.inl (hpw ▸ h0))
      · exact Or.inr (Or.inr ⟨d, hd, (hother d hd).symm ▸ hds⟩)
  · rcases h b (hother b hbw ▸ hb) with h0 | h0 | ⟨d, hd, hds⟩
    · rcases hn h0 with h0 | hall
      · exact Or.inl h0
      · exact Or.inr (Or.inr ⟨w, Ne.symm hbw, hself.symm ▸ hall b hbw⟩)
    · exact Or.inr (Or.inl (Nat.lt_of_lt_of_le h0 (hp b hbw)))
    · by_cases hdw : d = w
      · subst d
        rcases hw b hbw hds with h0 | h0 | hc
        · exact Or.inl h0
        · exact Or.inr (Or.inl h0)
        · exact Or.inr (Or.inr ⟨w, hd, hself.symm ▸ hc⟩)
      · exact Or.inr (Or.inr ⟨d, hd, (hother d hdw).symm ▸ hds⟩)

/-- The counter and the pipes only grow, and nobody moves. -/
theorem Watched.keep (h : Watched s) (hst : t.stage = s.stage) (hp : ∀ b, s.pipe b ≤ t.pipe b)
    (hn : s.totalFiberCounter ≤ t.totalFiberCounter) : Watched t := by
  intro b hb
  rw [hst] at hb ⊢
  rcases h b hb with h0 | h0 | hd
  · exact Or.inl (by omega)
  · exact Or.inr (Or.inl (Nat.lt_of_lt_of_le h0 (hp b)))
  · exact Or.inr (Or.inr hd)

/-- A worker moves to where it does not sleep and loses nobody; counter and pipes stay. -/
theorem Watched.stage {c : Stage n F} (h : Watched s) (hst : t.stage = Function.update s.stage w c)
    (hp : ∀ b, b ≠ w → s.pipe b ≤ t.pipe b) (hn : t.totalFiberCounter = s.totalFiberCounter)
    (hc : ¬ Asleep c)
    (hw : ∀ b, b ≠ w → WillSignal b (s.stage w) → 0 < t.pipe b ∨ WillSignal b c) : Watched t :=
  h.move hst hp (fun h0 => Or.inl (hn ▸ h0)) (fun ha => (hc ha).elim)
    fun b hb hs => Or.inr (hw b hb hs)

/-- A worker goes on sleeping. -/
theorem Watched.sleep {c : Stage n F} (h : Watched s) (hst : t.stage = Function.update s.stage w c)
    (hp : t.pipe = s.pipe) (hn : t.totalFiberCounter = s.totalFiberCounter)
    (ha : Asleep (s.stage w)) : Watched t := by
  refine h.move hst (fun b _ => by rw [hp]) (fun h0 => Or.inl (hn ▸ h0))
    (fun _ => Or.inr ⟨ha, by rw [hp], hn⟩) fun b _ hs => ?_
  cases hc : s.stage w <;> simp [hc, Asleep, WillSignal] at ha hs
  omega

theorem mem_others : b ∈ others w ↔ b ≠ w := by
  simp [others]

theorem pipe_le_setPipe {m : ℕ} (hm : s.pipe w ≤ m) : ∀ b, s.pipe b ≤ (s.setPipe w m).pipe b := by
  intro b
  by_cases hb : b = w
  · subst b
    simpa using hm
  · simp [hb]

variable [DecidableEq F] [DecidableEq B] [DecidableEq T]

theorem watched_step (hst : Step s a t) (hg : NoRaise s a) (h : Watched s) : Watched t := by
  cases hst with
  | callJoin | dispatch | dispatched | interrupt | addCall | readHung | readNull | work | joinPool
  | joined => exact h.keep rfl (fun _ => Nat.le_refl _) (Int.le_refl _)
  | schedule | countCall =>
    exact h.keep rfl (fun _ => Nat.le_refl _) (Int.le_add_of_nonneg_right (by decide))
  | signal | signalCall => exact h.keep rfl (pipe_le_setPipe (Nat.le_succ _)) (Int.le_refl _)
  | start | started =>
    exact h.stage rfl (fun _ _ => Nat.le_refl _) rfl (by simp [Asleep]) fun _ _ _ => Or.inr trivial
  | interrupted | pollDone =>
    exact h.stage rfl (fun _ _ => Nat.le_refl _) rfl (by simp [Asleep])
      fun b hb _ => Or.inr (mem_others.mpr hb)
  | @count w hs hi =>
    refine h.move (w := w) rfl (fun _ _ => Nat.le_refl _) Or.inl Or.inl fun b hb _ => ?_
    by_cases h0 : 0 < s.totalFiberCounter
    · exact Or.inl h0
    · exact Or.inr (Or.inr (Int.not_lt.mp h0))
  | poll =>
    exact h.stage rfl (fun _ _ => Nat.le_refl _) rfl (by simp [Asleep]) fun _ _ _ => Or.inr trivial
  | pollEmpty hs hm => exact h.sleep rfl rfl rfl (by rw [hs]; exact hm)
  | setHung hs | block hs => exact h.sleep rfl rfl rfl (by rw [hs]; trivial)
  | wake hs =>
    refine h.stage rfl (fun _ _ => Nat.le_refl _) rfl (by simp [Asleep]) fun b _ hb => ?_
    simp [hs, WillSignal] at hb
  | drain hs =>
    refine h.stage rfl (fun b hb => by simp [hb]) rfl (by simp [Asleep]) fun b _ hb => ?_
    simp [hs, WillSignal] at hb
  | @drainBusy w f hs =>
    refine h.stage (w := w) (c := .busy) ?_ (fun b hb => by simp [hb]) rfl (by simp [Asleep])
      fun _ _ _ => Or.inr trivial
    rw [← hs, Function.update_eq_self]
    rfl
  | clearHung hs =>
    exact h.stage rfl (fun _ _ => Nat.le_refl _) rfl (by simp [Asleep]) fun _ _ _ => Or.inr trivial
  | @sched act v ho hm hv =>
    cases act with
    | switch w | swapOut w | requeue w =>
      have hset : ¬ Asleep (settled s.sched v w) ∧ ∀ b, WillSignal b (settled s.sched v w) := by
        unfold settled
        split
        · split <;> simp [Asleep, WillSignal]
        · simp [Asleep, WillSignal]
        · simp [Asleep, WillSignal]
      exact h.stage rfl (fun _ _ => Nat.le_refl _) rfl hset.1 fun b _ _ => Or.inr (hset.2 b)
    | _ => exact h.keep rfl (fun _ => Nat.le_refl _) (Int.le_refl _)
  | retire hs =>
    exact h.move rfl (fun _ _ => Nat.le_refl _) (fun _ => Or.inr fun _ _ => trivial)
      (fun ha => ha.elim) fun _ _ _ => Or.inr (Or.inr trivial)
  | @cleanSignal w v rest hs =>
    refine h.stage rfl (fun b _ => pipe_le_setPipe (Nat.le_succ _) b) rfl (by simp [Asleep])
      fun b _ hb => ?_
    rw [hs] at hb
    rcases List.mem_cons.mp hb with rfl | hb
    · exact Or.inl (by simp)
    · exact Or.inr hb
  | cleaned hs =>
    refine h.stage rfl (fun _ _ => Nat.le_refl _) rfl (by simp [Asleep]) fun b _ hb => ?_
    simp [hs, WillSignal] at hb
  | leave hs =>
    refine h.stage rfl (fun _ _ => Nat.le_refl _) rfl (by simp [Asleep]) fun b _ hb => ?_
    simp [hs, WillSignal] at hb
  | caught hw hs =>
    refine h.stage rfl (fun _ _ => Nat.le_refl _) rfl (by simp [Asleep]) fun b _ hb => ?_
    simp [hs, WillSignal] at hb
  | raise => exact hg.elim

theorem watched_run (h : Run (Guarded NoRaise Step) (initial capacity limit) as s) : Watched s :=
  h.invariant (fun _ _ _ hi hst => watched_step hst.2 hst.1 hi) watched_initial

/-- Running a fiber, or about to retire it. -/
def HasFiber : Stage n F → Prop
  | .busy | .retiring _ => True
  | _ => False

/-- The work is done: every fiber that was counted has been retired, none is queued, and no worker
has one in its hands. -/
structure NoFiberLeft (s : State n F B T) : Prop where
  counter : s.totalFiberCounter = 0
  queues : ∀ w, s.sched.taskQueue w = []
  hands : ∀ w, ¬ HasFiber (s.stage w)

/-- The steps of the loop of `d` from its head to the end of its CLEAN section. -/
def Leaves (d : Fin (n + 1)) (a : Act n F B T) : Prop :=
  a = .interrupted d ∨ a = .count d ∨ a = .poll d ∨ a = .clean d

/-- The steps of `d` alone, up to the end of its CLEAN loop, bring it to signal `b`. -/
def StillSignals (s : State n F B T) (d b : Fin (n + 1)) : Prop :=
  ∃ as t, (∀ a ∈ as, Leaves d a) ∧ Run Step s as t ∧ s.pipe b < t.pipe b

theorem StillSignals.step (hst : Step s a u) (ha : Leaves d a) (hp : s.pipe b ≤ u.pipe b)
    (h : StillSignals u d b) : StillSignals s d b := by
  obtain ⟨as, t, has, hr, hlt⟩ := h
  refine ⟨a :: as, t, fun x hx => ?_, .step hst hr, Nat.lt_of_le_of_lt hp hlt⟩
  rcases List.mem_cons.mp hx with rfl | hx
  · exact ha
  · exact has x hx

theorem stillSignals_clean (hs : s.stage d = .clean rest) (hb : b ∈ rest) : StillSignals s d b := by
  induction rest generalizing s with
  | nil => simp at hb
  | cons v rest ih =>
    have hst : Step s (.clean d) _ := .cleanSignal hs
    have hd : Leaves d (.clean d : Act n F B T) := Or.inr (Or.inr (Or.inr rfl))
    by_cases hbv : b = v
    · subst b
      exact ⟨[.clean d], _, by simpa using hd, .step hst .refl, by simp⟩
    · refine .step hst hd ?_ (ih (by simp) ?_)
      · simp [hbv]
      · simpa [hbv] using hb

theorem stillSignals_counted {m : ℤ} (hs : s.stage d = .counted m) (hm : m ≤ 0)
    (hq : s.sched.taskQueue d = []) (hb : b ≠ d) : StillSignals s d b := by
  refine .step (.pollDone hs hm hq) (Or.inr (Or.inr (Or.inl rfl))) (Nat.le_refl _) ?_
  exact stillSignals_clean (by simp) (mem_others.mpr hb)

theorem stillSignals_loop (hs : s.stage d = .loop) (h0 : s.totalFiberCounter = 0)
    (hq : s.sched.taskQueue d = []) (hb : b ≠ d) : StillSignals s d b := by
  cases hi : s.interrupted with
  | true =>
    refine .step (.interrupted hs hi) (Or.inl rfl) (Nat.le_refl _) ?_
    exact stillSignals_clean (by simp) (mem_others.mpr hb)
  | false =>
    refine .step (.count hs hi) (Or.inr (Or.inl rfl)) (Nat.le_refl _) ?_
    exact stillSignals_counted (m := 0) (by simp [h0]) (Int.le_refl _) hq hb

/-- No worker is left asleep when the work is done: it is not blocked, or has a byte to read, or
another worker is going to signal it. -/
theorem end_of_work_noticed
    (h : Run (Guarded NoRaise Step) (initial capacity limit : State n F B T) as s)
    (hf : NoFiberLeft s) (b : Fin (n + 1)) :
    s.stage b ≠ .blocked ∨ 0 < s.pipe b ∨ ∃ d, d ≠ b ∧ StillSignals s d b := by
  by_cases hb : s.stage b = .blocked
  · rcases watched_run h b (by rw [hb]; trivial) with h0 | h0 | ⟨d, hd, hds⟩
    · have := hf.counter
      omega
    · exact Or.inr (Or.inl h0)
    · refine Or.inr (Or.inr ⟨d, hd, ?_⟩)
      have hq := hf.queues d
      cases hc : s.stage d with
      | loop => exact stillSignals_loop hc hf.counter hq (Ne.symm hd)
      | counted m =>
        rw [hc] at hds
        exact stillSignals_counted hc hds hq (Ne.symm hd)
      | clean rest =>
        rw [hc] at hds
        exact stillSignals_clean hc hds
      | busy | retiring f => exact (hf.hands d (by rw [hc]; trivial)).elim
      | _ => simp [hc, WillSignal] at hds
  · exact Or.inl hb

/-- One fiber, two workers: the pool thread sleeps on a positive count while the caller runs the
fiber to its end and retires it. -/
theorem end_of_work_noticed_blocked : ∃ s : State 1 Unit Unit Unit,
    s.stage 1 = .blocked ∧ s.pipe 1 = 0 ∧
      (s.stage 1 ≠ .blocked ∨ 0 < s.pipe 1 ∨ ∃ d, d ≠ 1 ∧ StillSignals s d 1) := by
  refine ⟨_, ?_, ?_, end_of_work_noticed (
    .guard (.schedule (s := initial (fun _ => 0) fun _ => 1) (f := ()) rfl rfl) trivial <|
    .guard (.callJoin rfl) trivial <|
    .guard (.dispatch (w := 0) rfl rfl (.schedule rfl)) trivial <|
    .guard (.dispatched rfl rfl) trivial <| .guard (.start (i := 0) (by decide) rfl) trivial <|
    .guard (.started rfl) trivial <| .guard (.count (w := 1) rfl rfl) trivial <|
    .guard (.pollEmpty (w := 1) (m := 1) rfl (by decide) (.pollEmpty rfl rfl)) trivial <|
    .guard (.setHung (w := 1) rfl) trivial <| .guard (.block (w := 1) rfl) trivial <|
    .guard (.count (w := 0) rfl rfl) trivial <|
    .guard (.poll (w := 0) (m := 1) rfl (.poll rfl rfl)) trivial <|
    .guard (.sched (a := .dispatch 0) id trivial (.dispatch (f := ()) rfl rfl)) trivial <|
    .guard (.sched (a := .finish ()) id rfl (.finish (w := 0) ⟨rfl, rfl⟩ rfl)) trivial <|
    .guard (.sched (a := .switch 0) id trivial
      (.switchOther (f := ()) rfl (by decide) (by decide))) trivial <|
    .guard (.retire (w := 0) (f := ()) rfl) trivial .refl) ⟨rfl, ?_, ?_⟩ 1⟩
  · rfl
  · rfl
  · exact Fin.forall_fin_two.mpr ⟨rfl, rfl⟩
  · exact Fin.forall_fin_two.mpr ⟨fun h => h, fun h => h⟩

end CxxFiber.Join
