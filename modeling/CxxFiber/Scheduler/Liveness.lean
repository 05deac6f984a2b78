import CxxFiber.Library.Executions
import CxxFiber.Scheduler.InTurn
import CxxFiber.Scheduler.Overtaking
import CxxFiber.Scheduler.Progress
import CxxFiber.Scheduler.Resumption

/-! What must happen: workers that go on serve everybody. -/
namespace CxxFiber.Scheduler

open Fifo Transition Execution

variable {F W B T : Type} [DecidableEq F] [DecidableEq W] [DecidableEq B] [DecidableEq T]
  {E : Execution (Step : State F W B T → Act F W B T → State F W B T → Prop)}
  {capacity limit : B → ℕ} {s t : State F W B T} {f g : F} {w : W} {b : B} {a : Agent F W T}
  {act : Act F W B T} {m n : ℕ}

/-- Every thread goes on, the event loop returns, armed timers fire, and no fiber keeps its worker
for ever. Resumes are in time. -/
structure Fair (E : Execution (Step : State F W B T → Act F W B T → State F W B T → Prop)) :
    Prop where
  onTime : ∀ n, OnTime (E.state n) (E.label n)
  poll : ∀ w, E.WeaklyFair (.poll w)
  pollEmpty : ∀ w, E.WeaklyFair (.pollEmpty w)
  endIdle : ∀ w, E.StronglyFair (.endIdle w)
  dispatch : ∀ w, E.StronglyFair (.dispatch w)
  switch : ∀ w, E.WeaklyFair (.switch w)
  swapOut : ∀ w, E.WeaklyFair (.swapOut w)
  requeue : ∀ w, E.WeaklyFair (.requeue w)
  swapIn : ∀ a, E.WeaklyFair (.swapIn a)
  write : ∀ a, E.WeaklyFair (.write a)
  add : ∀ a, E.WeaklyFair (.add a)
  timer : ∀ w f, E.StronglyFair (.timer w f)
  gives : ∀ w f, E.LeadsTo (fun s => s.worker w = .running f) fun s => s.worker w ≠ .running f

structure FairRun (capacity limit : B → ℕ)
    (E : Execution (Step : State F W B T → Act F W B T → State F W B T → Prop)) : Prop
    extends Fair E where
  start : E.state 0 = initial capacity limit

theorem FairRun.holds (h : FairRun capacity limit E) (n : ℕ) :
    Inv (E.state n) ∧ Alive (E.state n) := by
  have hstep : ∀ (s : State F W B T) act t, Inv s ∧ Alive s → Guarded OnTime Step s act t →
      Inv t ∧ Alive t :=
    fun s act t hi hst => ⟨inv_step hst.2 hst.1 hi.1, alive_step hst.2 hi.1 hi.2⟩
  have hrun := run_from (m := 0) (G := OnTime) (fun n _ => h.onTime n) n
  rw [Nat.zero_add, h.start] at hrun
  exact hrun.invariant (I := fun s => Inv s ∧ Alive s) hstep
    ⟨inv_initial capacity limit, alive_initial⟩

/-! Resumes come to an end -/

theorem swapIn_cases (hst : Step s (.swapIn a) t) :
    ∃ g k, s.resume a = some (.owed g k) ∧ t = s.swapIn a g := by
  cases hst with
  | swapIn ha => exact ⟨_, _, ha, rfl⟩

theorem write_cases (hst : Step s (.write a) t) : ∃ g, s.resume a = some (.tested g) ∧
    t = (s.modFiber g EFiber.swapIn).setResume a (some (.adding g)) := by
  cases hst with
  | write ha => exact ⟨_, ha, rfl⟩

theorem add_cases (hst : Step s (.add a) t) : ∃ g v, s.resume a = some (.adding g) ∧
    t = (s.add v g).setResume a none := by
  cases hst with
  | add ha => exact ⟨_, _, ha, rfl⟩

theorem owed_lasts {k : ℕ} (hst : Step s act t) (ha : s.resume a = some (.owed f k)) :
    t.resume a = some (.owed f k) ∨ act = .swapIn a := by
  rcases resume_next hst ha with hk | ⟨_, _, rfl, -⟩ | ⟨_, -, hx⟩ | ⟨_, -, hx⟩
  · exact Or.inl hk
  · exact Or.inr rfl
  · cases hx
  · cases hx

theorem tested_lasts (hst : Step s act t) (ha : s.resume a = some (.tested f)) :
    t.resume a = some (.tested f) ∨ act = .write a := by
  rcases resume_next hst ha with hk | ⟨_, _, -, hx, -⟩ | ⟨_, rfl, -⟩ | ⟨_, -, hx⟩
  · exact Or.inl hk
  · cases hx
  · exact Or.inr rfl
  · cases hx

theorem adding_lasts (hst : Step s act t) (ha : s.resume a = some (.adding f)) :
    t.resume a = some (.adding f) ∨ act = .add a := by
  rcases resume_next hst ha with hk | ⟨_, _, -, hx, -⟩ | ⟨_, -, hx⟩ | ⟨_, rfl, -⟩
  · exact Or.inl hk
  · cases hx
  · cases hx
  · exact Or.inr rfl

/-- In the hands of a `swapIn` that has found it suspended. -/
def InSwapIn (f : F) (s : State F W B T) : Prop := ∃ a x, s.resume a = some x ∧ x.fiber? = some f

theorem adding_leads (h : FairRun capacity limit E) :
    E.LeadsTo (fun s => s.resume a = some (.adding f))
      fun s => s.resume a = none ∧ ∃ w, f ∈ s.taskQueue w := by
  have hadd : ∀ n, (E.state n).resume a = some (.adding f) → E.label n = .add a →
      (E.state (n + 1)).resume a = none ∧ ∃ w, f ∈ (E.state (n + 1)).taskQueue w := by
    intro n hn hl
    obtain ⟨g, v, hg, ht⟩ := add_cases (hl ▸ E.step n)
    obtain rfl := Resume.adding.inj (Option.some.inj (hg.symm.trans hn))
    rw [ht]
    exact ⟨by simp, v, by simp⟩
  refine leadsTo_of_weaklyFair (h.add a) (fun n hn => ?_) (fun n hn => ?_) hadd
  · exact (adding_lasts (E.step n) hn).imp_right (hadd n hn)
  · obtain ⟨v, hv⟩ := Option.ne_none_iff_exists'.mp ((h.holds n).2.resuming a _ f hn rfl).2
    exact ⟨_, .add hn hv⟩

theorem tested_leads (h : FairRun capacity limit E) :
    E.LeadsTo (fun s => s.resume a = some (.tested f)) fun s => s.resume a = some (.adding f) := by
  have hwrite : ∀ n, (E.state n).resume a = some (.tested f) → E.label n = .write a →
      (E.state (n + 1)).resume a = some (.adding f) := by
    intro n hn hl
    obtain ⟨g, hg, ht⟩ := write_cases (hl ▸ E.step n)
    obtain rfl := Resume.tested.inj (Option.some.inj (hg.symm.trans hn))
    rw [ht]
    simp
  exact leadsTo_of_weaklyFair (h.write a)
    (fun n hn => (tested_lasts (E.step n) hn).imp_right (hwrite n hn))
    (fun n hn => ⟨_, .write hn⟩) hwrite

/-- Everybody gets out of `swapIn` again. -/
theorem resume_ends (h : FairRun capacity limit E) (a : Agent F W T) :
    E.LeadsTo (fun _ => True) fun s => s.resume a = none := by
  have hadding : ∀ f, E.LeadsTo (fun s => s.resume a = some (.adding f))
      fun s => s.resume a = none :=
    fun f => (adding_leads h).trans (.of_imp fun _ hn => hn.1)
  have htested : ∀ f, E.LeadsTo (fun s => s.resume a = some (.tested f))
      fun s => s.resume a = none :=
    fun f => (tested_leads h).trans (hadding f)
  have howed : ∀ g k, E.LeadsTo (fun s => s.resume a = some (.owed g k))
      fun s => s.resume a = none := by
    intro g k
    have hswap : ∀ n, (E.state n).resume a = some (.owed g k) → E.label n = .swapIn a →
        (E.state (n + 1)).resume a = none ∨ ∃ f, (E.state (n + 1)).resume a = some (.tested f) := by
      intro n hn hl
      obtain ⟨f, j, -, ht⟩ := swapIn_cases (hl ▸ E.step n)
      rw [ht, swapIn_resume_self]
      split
      · exact Or.inr ⟨f, rfl⟩
      · exact Or.inl rfl
    have hleads : E.LeadsTo (fun s => s.resume a = some (.owed g k))
        fun s => s.resume a = none ∨ ∃ f, s.resume a = some (.tested f) :=
      leadsTo_of_weaklyFair (h.swapIn a)
        (fun n hn => (owed_lasts (E.step n) hn).imp_right (hswap n hn))
        (fun n hn => ⟨_, .swapIn hn⟩) hswap
    exact hleads.trans (.or (.of_imp fun _ hn => hn) (.exists htested))
  intro m _
  cases hr : (E.state m).resume a with
  | none => exact ⟨m, Nat.le_refl m, hr⟩
  | some x =>
    cases x with
    | owed g k => exact howed g k m hr
    | tested f => exact htested f m hr
    | adding f => exact hadding f m hr

/-! A worker comes back to the head of its loop -/

/-- A place that the worker leaves by a step of its own. -/
theorem place_leads {p : WorkerPc F B} {Q : WorkerPc F B → Prop} (hf : E.WeaklyFair act)
    (he : ∀ n, (E.state n).worker w = p → Enabled Step (E.state n) act)
    (hk : ∀ (s : State F W B T) act q, s.worker w = p → Moves s w act q → q = p ∨ Q q)
    (hq : ∀ n t, (E.state n).worker w = p → Step (E.state n) act t → Q (t.worker w)) :
    E.LeadsTo (fun s => s.worker w = p) fun s => Q (s.worker w) := by
  refine leadsTo_of_weaklyFair hf (fun n hn => hk _ _ _ hn (moves_step (E.step n) w)) he
    fun n hn hl => hq n _ hn ?_
  have hst := E.step n
  rwa [hl] at hst

theorem requeue_leads (h : FairRun capacity limit E) :
    E.LeadsTo (fun s => s.worker w = .requeue f) fun s => s.worker w = .head := by
  refine place_leads (Q := fun p => p = .head) (h.requeue w) (fun n hn => ⟨_, .requeue hn⟩)
    (fun s act q hn hm => ?_) fun n t hn hst => ?_
  · cases hm with
    | keep => exact Or.inl hn
    | requeue => exact Or.inr rfl
    | _ hw => cases hw.symm.trans hn
  · cases hst with
    | requeue => simp

theorem swapOut_leads (h : FairRun capacity limit E) :
    E.LeadsTo (fun s => s.worker w = .swapOut f b) fun s => s.worker w = .head := by
  have hleads : E.LeadsTo (fun s => s.worker w = .swapOut f b)
      fun s => s.worker w = .head ∨ ∃ g, s.worker w = .requeue g := by
    refine place_leads (Q := fun p => p = .head ∨ ∃ g, p = .requeue g) (h.swapOut w)
      (fun n hn => ?_) (fun s act q hn hm => ?_) fun n t hn hst => ?_
    · cases hs : ((E.state n).blocker b).swapOut f with
      | mk c hung =>
        cases hung with
        | false => exact ⟨_, .swapOutPermit hn hs⟩
        | true => exact ⟨_, .swapOutHung hn hs⟩
    · cases hm with
      | keep => exact Or.inl hn
      | swapOutPermit => exact Or.inr (Or.inr ⟨_, rfl⟩)
      | swapOutHung => exact Or.inr (Or.inl rfl)
      | _ hw => cases hw.symm.trans hn
    · cases hst with
      | @swapOutPermit _ g => exact Or.inr ⟨g, by simp⟩
      | swapOutHung => exact Or.inl (by simp)
  exact hleads.trans (.or (.of_imp fun _ hn => hn) (.exists fun g => requeue_leads h))

theorem switching_leads (h : FairRun capacity limit E) :
    E.LeadsTo (fun s => s.worker w = .switching f) fun s => s.worker w = .head := by
  have hleads : E.LeadsTo (fun s => s.worker w = .switching f) fun s => s.worker w = .head ∨
      (∃ g, s.worker w = .requeue g) ∨ ∃ x : F × B, s.worker w = .swapOut x.1 x.2 := by
    refine place_leads (Q := fun p => p = .head ∨ (∃ g, p = .requeue g) ∨
      ∃ x : F × B, p = .swapOut x.1 x.2) (h.switch w) (fun n hn => ?_) (fun s act q hn hm => ?_)
      fun n t hn hst => ?_
    · by_cases hrun : ((E.state n).fiber f).state = .runnable
      · exact ⟨_, .switchRunnable hn hrun⟩
      · by_cases hblk : ((E.state n).fiber f).state = .blocked
        · obtain ⟨b, hb⟩ := Option.ne_none_iff_exists'.mp (((h.holds n).2.sane f).blocked hblk)
          exact ⟨_, .switchBlocked hn hblk hb⟩
        · exact ⟨_, .switchOther hn hrun hblk⟩
    · cases hm with
      | keep => exact Or.inl hn
      | @switchRunnable g => exact Or.inr (Or.inr (Or.inl ⟨g, rfl⟩))
      | @switchBlocked g b => exact Or.inr (Or.inr (Or.inr ⟨(g, b), rfl⟩))
      | switchOther => exact Or.inr (Or.inl rfl)
      | _ hw => cases hw.symm.trans hn
    · cases hst with
      | @switchRunnable _ g => exact Or.inr (Or.inl ⟨g, by simp⟩)
      | @switchBlocked _ g b => exact Or.inr (Or.inr ⟨(g, b), by simp⟩)
      | switchOther => exact Or.inl (by simp)
  refine hleads.trans (.or (.of_imp fun _ hn => hn) (.or (.exists fun g => requeue_leads h) ?_))
  exact .exists fun x => swapOut_leads h

theorem running_leads (h : FairRun capacity limit E) :
    E.LeadsTo (fun s => s.worker w = .running f) fun s => s.worker w = .head := by
  have hleads : E.LeadsTo (fun s => s.worker w = .running f)
      fun s => s.worker w = .switching f := by
    refine leadsTo_of_not_lasting (fun n hn => ?_) fun m hlast => ?_
    · have hm := moves_step (E.step n) w
      generalize (E.state (n + 1)).worker w = p at hm ⊢
      generalize E.label n = act at hm
      cases hm with
      | keep => exact Or.inl hn
      | yield hw =>
        obtain rfl := WorkerPc.running.inj (hw.symm.trans hn)
        exact Or.inr rfl
      | _ hw => cases hw.symm.trans hn
    · obtain ⟨n, hn, hne⟩ := h.gives w f m (hlast m (Nat.le_refl m))
      exact (hne (hlast n hn)).elim
  exact hleads.trans (switching_leads h)

/-- `f` has been polled and is run. -/
theorem polled_leads (h : FairRun capacity limit E) :
    E.LeadsTo (fun s => s.worker w = .polled f) fun s => s.worker w = .running f := by
  refine leadsTo_of_stronglyFair (h.dispatch w) (fun n hn => ?_) (fun m hm => ?_) fun n hn hl => ?_
  · have hm := moves_step (E.step n) w
    generalize (E.state (n + 1)).worker w = p at hm ⊢
    generalize E.label n = act at hm
    cases hm with
    | keep => exact Or.inl hn
    | dispatch hw =>
      obtain rfl := WorkerPc.polled.inj (hw.symm.trans hn)
      exact Or.inr rfl
    | _ hw => cases hw.symm.trans hn
  · obtain ⟨n, hn, hr⟩ := resume_ends h (.worker w) m trivial
    refine ⟨n, hn, ?_⟩
    by_cases hp : (E.state n).worker w = .polled f
    · exact Or.inr ⟨_, .dispatch hp hr⟩
    · exact Or.inl hp
  · have hst := E.step n
    rw [hl] at hst
    generalize E.state (n + 1) = t at hst ⊢
    cases hst with
    | dispatch hw =>
      obtain rfl := WorkerPc.polled.inj (hw.symm.trans hn)
      simp

theorem idle_leads (h : FairRun capacity limit E) :
    E.LeadsTo (fun s => s.worker w = .idle) fun s => s.worker w = .head := by
  refine leadsTo_of_stronglyFair (h.endIdle w) (fun n hn => ?_) (fun m hm => ?_) fun n hn hl => ?_
  · have hm := moves_step (E.step n) w
    generalize (E.state (n + 1)).worker w = p at hm ⊢
    generalize E.label n = act at hm
    cases hm with
    | keep => exact Or.inl hn
    | endIdle => exact Or.inr rfl
    | _ hw => cases hw.symm.trans hn
  · obtain ⟨n, hn, hr⟩ := resume_ends h (.worker w) m trivial
    refine ⟨n, hn, ?_⟩
    by_cases hp : (E.state n).worker w = .idle
    · exact Or.inr ⟨_, .endIdle hp hr⟩
    · exact Or.inl hp
  · have hst := E.step n
    rw [hl] at hst
    generalize E.state (n + 1) = t at hst ⊢
    cases hst with
    | endIdle => simp

theorem back_to_head (h : FairRun capacity limit E) (w : W) :
    E.LeadsTo (fun _ => True) fun s => s.worker w = .head := by
  intro m _
  cases hp : (E.state m).worker w with
  | head => exact ⟨m, Nat.le_refl m, hp⟩
  | idle => exact idle_leads h m hp
  | polled f => exact ((polled_leads h).trans (running_leads h)) m hp
  | running f => exact running_leads h m hp
  | switching f => exact switching_leads h m hp
  | swapOut f b => exact swapOut_leads h m hp
  | requeue f => exact requeue_leads h m hp

/-! Whoever is queued is run -/

/-- `f` had `i` others before it, and has come one place forward. -/
def Forward (f : F) (w : W) (i : ℕ) (s : State F W B T) : Prop :=
  (i = 0 ∧ s.worker w = .polled f) ∨ ∃ j, i = j + 1 ∧ (s.taskQueue w)[j]? = some f

/-- A step brings a queued fiber forward if it polls, and else leaves its place. -/
theorem place_step (hst : Step s act t) {i : ℕ} (hi : (s.taskQueue w)[i]? = some f) :
    (act ≠ .poll w ∧ (t.taskQueue w)[i]? = some f) ∨ (act = .poll w ∧ Forward f w i t) := by
  have hlt := (List.getElem?_eq_some_iff.mp hi).1
  by_cases ha : act = .poll w
  · subst ha
    refine Or.inr ⟨rfl, ?_⟩
    cases hst with
    | @poll _ g q hw hq =>
      rw [hq] at hi
      cases i with
      | zero => exact Or.inl ⟨rfl, by simpa using hi⟩
      | succ j => exact Or.inr ⟨j, rfl, by simpa using hi⟩
  · refine Or.inl ⟨ha, ?_⟩
    have hs := serve_step hst w
    rw [decide_eq_false ha] at hs
    generalize t.taskQueue w = q at hs ⊢
    generalize s.taskQueue w = r at hi hlt hs
    cases hs with
    | push l => rwa [List.getElem?_append_left hlt]

/-- A worker at the head of its loop polls if somebody is queued. -/
theorem head_forward (h : FairRun capacity limit E) (i : ℕ) :
    E.LeadsTo (fun s => (s.taskQueue w)[i]? = some f ∧ s.worker w = .head) (Forward f w i) := by
  refine leadsTo_of_weaklyFair (h.poll w) (fun n hn => ?_) (fun n hn => ?_) fun n hn hl => ?_
  · rcases place_step (E.step n) hn.1 with ⟨hl, hq⟩ | ⟨-, hq⟩
    · refine Or.inl ⟨hq, ?_⟩
      have hst := E.step n
      generalize E.state (n + 1) = t at hst ⊢
      generalize E.label n = act at hl hst
      have hm := moves_step hst w
      generalize t.worker w = p at hm
      cases hm with
      | keep => exact hn.2
      | poll => exact (hl rfl).elim
      | pollEmpty =>
        cases hst with
        | pollEmpty _ hq => simp [hq] at hn
      | _ hw => cases hw.symm.trans hn.2
    · exact Or.inr hq
  · cases hq : (E.state n).taskQueue w with
    | nil => simp [hq] at hn
    | cons g q => exact ⟨_, .poll hn.2 hq⟩
  · exact ((place_step (E.step n) hn.1).resolve_left fun hk => hk.1 hl).2

/-- A worker that keeps coming back to the head of its loop polls while somebody is queued. -/
theorem forward_leads (h : FairRun capacity limit E) (i : ℕ) :
    E.LeadsTo (fun s => (s.taskQueue w)[i]? = some f) (Forward f w i) := by
  have hkeep : ∀ n, ((E.state n).taskQueue w)[i]? = some f →
      ((E.state (n + 1)).taskQueue w)[i]? = some f ∨ Forward f w i (E.state (n + 1)) :=
    fun n hn => (place_step (E.step n) hn).imp And.right And.right
  have hback : E.LeadsTo (fun s => (s.taskQueue w)[i]? = some f) fun s => s.worker w = .head :=
    fun m _ => back_to_head h w m trivial
  intro m hm
  obtain ⟨n, hn, hq | hq⟩ := hback.until (Q := Forward f w i) hkeep m hm
  · exact ⟨n, hn, hq⟩
  · obtain ⟨k, hk, hq⟩ := head_forward h i n hq
    exact ⟨k, Nat.le_trans hn hk, hq⟩

theorem queued_leads (h : FairRun capacity limit E) :
    E.LeadsTo (fun s => f ∈ s.taskQueue w) fun s => s.worker w = .running f := by
  have hplace : ∀ i m : ℕ, ((E.state m).taskQueue w)[i]? = some f →
      ∃ n, m ≤ n ∧ (E.state n).worker w = .running f := by
    intro i
    induction i with
    | zero =>
      intro m hm
      obtain ⟨n, hn, ⟨-, hp⟩ | ⟨j, hj, -⟩⟩ := forward_leads h 0 m hm
      · obtain ⟨k, hk, hr⟩ := polled_leads h n hp
        exact ⟨k, Nat.le_trans hn hk, hr⟩
      · cases hj
    | succ j ih =>
      intro m hm
      obtain ⟨n, hn, ⟨hj, -⟩ | ⟨i, hi, hq⟩⟩ := forward_leads h (j + 1) m hm
      · cases hj
      · obtain rfl := Nat.succ.inj hi
        obtain ⟨k, hk, hr⟩ := ih n hq
        exact ⟨k, Nat.le_trans hn hk, hr⟩
  intro m hm
  obtain ⟨i, hi⟩ := List.getElem?_of_mem hm
  exact hplace i m hi

/-! Whoever is suspended is resumed -/

def Running (f : F) (s : State F W B T) : Prop := ∃ w, s.worker w = .running f

/-- Suspended, let go by its worker, and not yet found by a `swapIn`. -/
def Asleep (s : State F W B T) (f : F) : Prop := (s.fiber f).suspended = true ∧ Off s f

theorem resumed_leads (h : FairRun capacity limit E) : E.LeadsTo (InSwapIn f) (Running f) := by
  have hadding : ∀ a m, (E.state m).resume a = some (.adding f) →
      ∃ k, m ≤ k ∧ Running f (E.state k) := by
    intro a m ha
    obtain ⟨n, hn, -, w, hq⟩ := adding_leads h m ha
    obtain ⟨k, hk, hr⟩ := queued_leads h n hq
    exact ⟨k, Nat.le_trans hn hk, w, hr⟩
  rintro m ⟨a, x, ha, hx⟩
  cases x with
  | owed g n => cases hx
  | tested g =>
    obtain rfl := Option.some.inj hx
    obtain ⟨n, hn, hr⟩ := tested_leads h m ha
    obtain ⟨k, hk, hr⟩ := hadding a n hr
    exact ⟨k, Nat.le_trans hn hk, hr⟩
  | adding g =>
    obtain rfl := Option.some.inj hx
    exact hadding a m ha

section

omit [DecidableEq B]

theorem InSwapIn.of_swapIn (hs : (s.fiber f).suspended = true) : InSwapIn f (s.swapIn a f) :=
  ⟨a, .tested f, by rw [swapIn_resume_self, if_pos hs], rfl⟩

end

/-- A fiber that is asleep stays as it is until somebody resumes it. -/
theorem asleep_step (hst : Step s act t) (h : Asleep s f) :
    (Asleep t f ∧ t.fiber f = s.fiber f) ∨ InSwapIn f t := by
  by_cases hr : Reaches s f act
  · right
    have hst' := hst
    cases hr with
    | schedule x hn =>
      have hs := h.1
      simp [EFiber.suspended, hn] at hs
    | timer x =>
      cases hst with
      | timer =>
        refine .of_swapIn ?_
        simpa [EFiber.timeEvent, EFiber.suspended] using h.1
    | fileEvent x =>
      cases hst with
      | fileEvent => exact .of_swapIn h.1
    | swapIn x k hx =>
      obtain ⟨g, j, hg, rfl⟩ := swapIn_cases hst
      obtain ⟨rfl, -⟩ := Resume.owed.inj (Option.some.inj (hx.symm.trans hg))
      exact .of_swapIn h.1
  · obtain ⟨hf, hoff⟩ := off_step hst h.2 hr
    exact Or.inl ⟨⟨hf ▸ h.1, hoff⟩, hf⟩

/-- Inside `onceProcessEvents`. -/
def AtEvents (w : W) (s : State F W B T) : Prop :=
  s.worker w = .idle ∨ ∃ g, s.worker w = .polled g

/-- A worker that enters its event loop is at some time between two callbacks. -/
theorem event_loop_leads (h : FairRun capacity limit E) :
    E.LeadsTo (AtEvents w) fun s => s.InEvents w := by
  intro m hm
  by_contra hno
  -- it cannot leave the loop in the middle of a callback
  have hkeep : ∀ n, m ≤ n → AtEvents w (E.state n) → AtEvents w (E.state (n + 1)) := by
    intro n hn hp
    have hst := E.step n
    generalize E.state (n + 1) = t at hst ⊢
    generalize E.label n = act at hst
    have hout : (E.state n).resume (.worker w) ≠ none := fun hr => hno ⟨n, hn, hp, hr⟩
    have hmv := moves_step hst w
    generalize hpc : t.worker w = p at hmv
    cases hmv with
    | keep => simpa only [AtEvents, hpc] using hp
    | endIdle =>
      cases hst with
      | endIdle _ hr => exact (hout hr).elim
    | dispatch =>
      cases hst with
      | dispatch _ hr => exact (hout hr).elim
    | _ hw => rcases hp with hp | ⟨g, hp⟩ <;> cases hw.symm.trans hp
  obtain ⟨n, hn, hr⟩ := resume_ends h (.worker w) m trivial
  exact hno ⟨n, hn, lasts hm hkeep n hn, hr⟩

theorem head_leads (h : FairRun capacity limit E) :
    E.LeadsTo (fun s => s.worker w = .head) (AtEvents w) := by
  have hqueued : ∀ m f, ((E.state m).taskQueue w)[0]? = some f ∧ (E.state m).worker w = .head →
      ∃ n, m ≤ n ∧ ∃ g, (E.state n).worker w = .polled g := by
    intro m f hm
    obtain ⟨n, hn, ⟨-, hp⟩ | ⟨j, hj, -⟩⟩ := head_forward h 0 m hm
    · exact ⟨n, hn, f, hp⟩
    · cases hj
  have hempty : E.LeadsTo (fun s => s.taskQueue w = [] ∧ s.worker w = .head) fun s =>
      s.worker w = .idle ∨ ∃ f, (s.taskQueue w)[0]? = some f ∧ s.worker w = .head := by
    refine leadsTo_of_weaklyFair (h.pollEmpty w) (fun n hn => ?_)
      (fun n hn => ⟨_, .pollEmpty hn.2 hn.1⟩) fun n hn hl => ?_
    · have hst := E.step n
      generalize E.state (n + 1) = t at hst ⊢
      generalize E.label n = act at hst
      have hmv := moves_step hst w
      generalize hp : t.worker w = p at hmv ⊢
      cases hmv with
      | keep =>
        cases hq : t.taskQueue w with
        | nil => exact Or.inl ⟨rfl, hn.2⟩
        | cons f q => exact Or.inr (Or.inr ⟨f, rfl, hn.2⟩)
      | poll _ hq => cases hq.symm.trans hn.1
      | pollEmpty => exact Or.inr (Or.inl rfl)
      | _ hw => cases hw.symm.trans hn.2
    · have hst := E.step n
      rw [hl] at hst
      generalize E.state (n + 1) = t at hst ⊢
      cases hst with
      | pollEmpty => exact Or.inl (by simp)
  intro m hm
  cases hq : (E.state m).taskQueue w with
  | nil =>
    obtain ⟨n, hn, hi | ⟨f, hf⟩⟩ := hempty m ⟨hq, hm⟩
    · exact ⟨n, hn, Or.inl hi⟩
    · obtain ⟨k, hk, hp⟩ := hqueued n f hf
      exact ⟨k, Nat.le_trans hn hk, Or.inr hp⟩
  | cons f q =>
    obtain ⟨n, hn, hp⟩ := hqueued m f ⟨by rw [hq]; rfl, hm⟩
    exact ⟨n, hn, Or.inr hp⟩

/-- A worker looks for events again and again. -/
theorem in_events (h : FairRun capacity limit E) (w : W) :
    E.LeadsTo (fun _ => True) fun s => s.InEvents w :=
  ((back_to_head h w).trans (head_leads h)).trans (event_loop_leads h)

/-- Whoever sleeps with a timer is woken by it, if by nobody else. -/
theorem sleeper_leads (h : FairRun capacity limit E) :
    E.LeadsTo (fun s => Asleep s f ∧ (s.fiber f).timer = some w) (Running f) := by
  have hfire : ∀ n, Asleep (E.state n) f → E.label n = .timer w f →
      InSwapIn f (E.state (n + 1)) := by
    intro n hn hl
    have hst := E.step n
    rw [hl] at hst
    generalize E.state (n + 1) = t at hst ⊢
    cases hst with
    | timer =>
      refine .of_swapIn ?_
      simpa [EFiber.timeEvent, EFiber.suspended] using hn.1
  have hleads : E.LeadsTo (fun s => Asleep s f ∧ (s.fiber f).timer = some w)
      (InSwapIn f) := by
    refine leadsTo_of_stronglyFair (h.timer w f) (fun n hn => ?_) (fun m hm => ?_)
      fun n hn hl => hfire n hn.1 hl
    · refine (asleep_step (E.step n) hn.1).imp_left fun hk => ⟨hk.1, ?_⟩
      rw [hk.2]
      exact hn.2
    · obtain ⟨n, hn, hw⟩ := in_events h w m trivial
      refine ⟨n, hn, ?_⟩
      by_cases ht : ((E.state n).fiber f).timer = some w
      · exact Or.inr ⟨_, .timer hw ht⟩
      · exact Or.inl fun hk => ht hk.2
  exact hleads.trans (resumed_leads h)

/-- Dequeued by a `wakeUp`, asleep, and not yet resumed. -/
theorem owed_leads (h : FairRun capacity limit E) :
    E.LeadsTo (fun s => Asleep s f ∧ ∃ a k, s.resume a = some (.owed f k)) (InSwapIn f) := by
  rintro m ⟨hs, a, k, ha⟩
  have hleads : E.LeadsTo (fun s => Asleep s f ∧ s.resume a = some (.owed f k)) (InSwapIn f) := by
    have hswap : ∀ n, Asleep (E.state n) f ∧ (E.state n).resume a = some (.owed f k) →
        E.label n = .swapIn a → InSwapIn f (E.state (n + 1)) := by
      rintro n ⟨hn, ha⟩ hl
      obtain ⟨g, j, hg, ht⟩ := swapIn_cases (hl ▸ E.step n)
      obtain ⟨rfl, -⟩ := Resume.owed.inj (Option.some.inj (ha.symm.trans hg))
      rw [ht]
      exact .of_swapIn hn.1
    refine leadsTo_of_weaklyFair (h.swapIn a) (fun n hn => ?_) (fun n hn => ⟨_, .swapIn hn.2⟩) hswap
    rcases owed_lasts (E.step n) hn.2 with hk | hl
    · exact (asleep_step (E.step n) hn.1).imp_left fun hs => ⟨hs.1, hk⟩
    · exact Or.inr (hswap n hn hl)
  exact hleads m ⟨hs, ha⟩

section

omit [DecidableEq F] [DecidableEq W] [DecidableEq B] [DecidableEq T]

theorem Asleep.not_active (h : Asleep s f) : ¬ s.Active w f :=
  fun ha => h.2.2.1 w (by rw [ha.1]; rfl)

end

/-- Nobody stays asleep in a wait queue while the blocker is woken again and again. -/
theorem hung_leads (h : FairRun capacity limit E)
    (hb : ∀ n, f ∈ ((E.state n).blocker b).waitQueue →
      ∃ k, n ≤ k ∧ wakes b (E.label k) = true) :
    E.LeadsTo (fun s => f ∈ (s.blocker b).waitQueue ∧ Asleep s f) fun s =>
      InSwapIn f s ∨ (Asleep s f ∧ ∃ a k, s.resume a = some (.owed f k)) := by
  refine leadsTo_of_not_lasting (fun n hn => ?_) fun m hlast => ?_
  · rcases asleep_step (E.step n) hn.2 with ⟨hs, -⟩ | ha
    · rcases linked_step (E.step n) hn.1 with hq | ⟨a, -, ha⟩ | ⟨w, -, ha⟩
      · exact Or.inl ⟨hq, hs⟩
      · exact Or.inr (Or.inr ⟨hs, a, _, ha⟩)
      · exact (hn.2.not_active ha).elim
    · exact Or.inr (Or.inl ha)
  · have hstill : ∀ n, m ≤ n → StillWaits f b (E.state n) (E.label n) := by
      intro n hn
      have hst := E.step n
      have hnext := (hlast (n + 1) (Nat.le_succ_of_le hn)).1
      generalize E.state (n + 1) = t at hst hnext
      generalize E.label n = act at hst ⊢
      cases act with
      | wakeUp a c =>
        rintro rfl hhead
        obtain ⟨_, _, hf⟩ := (h.holds n).1
        have hnodup := hf.nodup c
        have htrue : wakes c (Act.wakeUp a c : Act F W B T) = true := by simp [wakes]
        have hs := serves_step hst c
        generalize t.blocker c = d at hs hnext
        cases hs with
        | keep hw | tryWait hw => cases htrue.symm.trans hw
        | @wakeUp _ _ r hd =>
          cases r with
          | refused => simp [(EFiberBlocker.wakeUp_refused.mp hd).1] at hhead
          | counted => simp [(EFiberBlocker.wakeUp_counted.mp hd).1] at hhead
          | waiter g =>
            obtain ⟨q, hq, rfl⟩ := EFiberBlocker.wakeUp_waiter.mp hd
            rw [hq] at hhead hnodup
            obtain rfl := Option.some.inj hhead
            exact (List.nodup_cons.mp hnodup).1 hnext
      | remove g c =>
        rintro rfl rfl
        cases hst with
        | removeTrue ha | removeFalse ha => exact (hlast n hn).2.not_active ha
      | _ => trivial
    obtain ⟨k, hk⟩ := count_unbounded (fun n hn => hb n (hlast n hn).1)
      ((ahead f ((E.state m).blocker b).waitQueue).length + 1)
    have hpass := pass_run (run_from hstill k) (hlast m (Nat.le_refl m)).1
    have hle := hpass.2.2
    unfold wakeUps at hle
    omega

/-! A fair execution -/

theorem Fair.cons (hst : Step s act (E.state 0)) (ht : OnTime s act) (h : Fair E) :
    Fair (E.cons hst) where
  onTime n := by
    cases n with
    | zero => exact ht
    | succ n => exact h.onTime n
  poll w := weaklyFair_cons (h.poll w)
  pollEmpty w := weaklyFair_cons (h.pollEmpty w)
  endIdle w := stronglyFair_cons (h.endIdle w)
  dispatch w := stronglyFair_cons (h.dispatch w)
  switch w := weaklyFair_cons (h.switch w)
  swapOut w := weaklyFair_cons (h.swapOut w)
  requeue w := weaklyFair_cons (h.requeue w)
  swapIn a := weaklyFair_cons (h.swapIn a)
  write a := weaklyFair_cons (h.write a)
  add a := weaklyFair_cons (h.add a)
  timer w f := stronglyFair_cons (h.timer w f)
  gives w f := by
    refine leadsTo_cons (fun _ => ?_) (h.gives w f)
    by_cases hr : (E.state 0).worker w = .running f
    · obtain ⟨n, -, hn⟩ := h.gives w f 0 hr
      exact ⟨n, hn⟩
    · exact ⟨0, hr⟩

/-- One fiber that has waited once, and now yields for ever. -/
def yielding (p : WorkerPc Unit Unit) (q : List Unit) : State Unit Unit Unit Unit :=
  { initial (fun _ => 0) fun _ => 0 with
    fiber := fun _ => ⟨.runnable, none, false, some (), none, none, .user, 1⟩
    taskQueue := fun _ => q
    worker := fun _ => p
    held := fun _ _ => true }

/-- The loop of its worker; an outside thread calls `wakeUp` once in a round. -/
def yieldingState : ℕ → State Unit Unit Unit Unit
  | 0 | 6 => yielding (.running ()) []
  | 1 => yielding (.switching ()) []
  | 2 => yielding (.requeue ()) []
  | 3 | 4 => yielding .head [()]
  | _ => yielding (.polled ()) []

def yieldingAct : ℕ → Act Unit Unit Unit Unit
  | 0 => .yield ()
  | 1 => .switch ()
  | 2 => .requeue ()
  | 3 => .wakeUp (.thread ()) ()
  | 4 => .poll ()
  | _ => .dispatch ()

theorem yielding_step (i : ℕ) (hi : i < 6) :
    Step (yieldingState i) (yieldingAct i) (yieldingState (i + 1)) := by
  match i, hi with
  | 0, _ => exact .yield (w := ()) ⟨rfl, rfl⟩ rfl
  | 1, _ => exact .switchRunnable (w := ()) rfl rfl
  | 2, _ => exact .requeue (w := ()) rfl
  | 3, _ => exact .wakeUpRefused (a := .thread ()) (c := ⟨0, 0, []⟩) rfl rfl
  | 4, _ => exact .poll rfl rfl
  | 5, _ => exact .dispatch (w := ()) (f := ()) rfl rfl

def yieldingRun : Execution (Step : State Unit Unit Unit Unit → _ → _ → Prop) :=
  cycle yieldingState yieldingAct 6 yielding_step rfl (by decide)

theorem yieldingState_eq (i : ℕ) : ∃ p q, yieldingState i = yielding p q ∧ p ≠ .idle ∧
    p ≠ .swapOut () () := by
  unfold yieldingState
  split <;> exact ⟨_, _, rfl, by simp, by simp⟩

theorem yielding_not_enabled {i : ℕ} {act : Act Unit Unit Unit Unit}
    (h : act = .swapOut () ∨ act = .endIdle () ∨ (∃ w f, act = .timer w f) ∨
      ∃ a, act = .swapIn a ∨ act = .write a ∨ act = .add a) :
    ¬ Enabled Step (yieldingState i) act := by
  rintro ⟨t, hst⟩
  obtain ⟨p, q, hs, hi, ho⟩ := yieldingState_eq i
  rw [hs] at hst
  rcases h with rfl | rfl | ⟨w, f, rfl⟩ | ⟨a, rfl | rfl | rfl⟩
  · cases hst with
    | swapOutPermit hw | swapOutHung hw => exact ho hw
  · cases hst with
    | endIdle hw => exact hi hw
  · cases hst with
    | timer _ ht => cases ht
  · cases hst with
    | swapIn ha => cases ha
  · cases hst with
    | write ha => cases ha
  · cases hst with
    | add ha => cases ha

theorem yielding_fair : Fair yieldingRun where
  onTime n := by
    change OnTime _ (yieldingAct (n % 6))
    unfold yieldingAct
    split <;> exact ⟨trivial, trivial⟩
  poll _ := cycle_fair (i := 4) (by decide) (Or.inl rfl)
  pollEmpty _ := cycle_fair (i := 0) (by decide) (Or.inr fun ⟨_, hs⟩ => by
    cases hs with
    | pollEmpty hw => cases hw)
  endIdle _ := cycle_stronglyFair (Or.inr fun i _ => yielding_not_enabled (by simp))
  dispatch _ := cycle_stronglyFair (Or.inl ⟨5, by decide, rfl⟩)
  switch _ := cycle_fair (i := 1) (by decide) (Or.inl rfl)
  swapOut _ := cycle_fair (i := 0) (by decide) (Or.inr (yielding_not_enabled (by simp)))
  requeue _ := cycle_fair (i := 2) (by decide) (Or.inl rfl)
  swapIn a := cycle_fair (i := 0) (by decide) (Or.inr (yielding_not_enabled (by simp)))
  write a := cycle_fair (i := 0) (by decide) (Or.inr (yielding_not_enabled (by simp)))
  add a := cycle_fair (i := 0) (by decide) (Or.inr (yielding_not_enabled (by simp)))
  timer w f := cycle_stronglyFair (Or.inr fun i _ => yielding_not_enabled (by simp))
  gives _ _ := cycle_leadsTo (i := 3) (by decide) (by simp [yieldingState, yielding])

/-- The fiber hangs on the blocker. -/
def hungState : State Unit Unit Unit Unit :=
  { initial (fun _ => 0) fun _ => 0 with
    fiber := fun _ => ⟨.blocked, some (), false, some (), none, none, .parked () .wait, 1⟩
    blocker := fun _ => ⟨0, 0, [()]⟩ }

section

omit [DecidableEq F] [DecidableEq W] [DecidableEq B] [DecidableEq T]

theorem eq_of_resume (h : t = { s with resume := t.resume })
    (hr : ∀ a, s.resume a = t.resume a) : s = t := by
  rw [h, ← funext hr]

end

/-- A fair run in which it hangs there and is woken. -/
theorem hung_once : ∃ E : Execution (Step : State Unit Unit Unit Unit → _ → _ → Prop),
    FairRun (fun _ => 0) (fun _ => 0) E ∧ (∃ n, E.state n = hungState) ∧
      ∀ n, ∃ k, n ≤ k ∧ E.state k = yielding .head [()] ∧ wakes () (E.label k) = true := by
  obtain ⟨as, u, hafter, hu⟩ : ∃ as u, Run (Guarded OnTime Step) hungState as u ∧
      yieldingRun.state 0 = u := by
    refine ⟨_, _, .guard (.wakeUpWaiter (a := .thread ()) (b := ()) rfl rfl) ⟨trivial, trivial⟩ <|
      .guard (.swapIn (a := .thread ()) rfl)
        ⟨fun _ _ h _ => by cases h; rfl, fun _ _ _ _ => untested_of_owed rfl fun _ => rfl⟩ <|
      .guard (.write (a := .thread ()) rfl) ⟨trivial, trivial⟩ <|
      .guard (.add (a := .thread ()) (v := ()) rfl rfl) ⟨trivial, trivial⟩ <|
      .guard (.poll (w := ()) rfl rfl) ⟨trivial, trivial⟩ <|
      .guard (.dispatch (w := ()) (f := ()) rfl rfl) ⟨trivial, trivial⟩ <|
      .guard (.waitReturn (w := ()) (f := ()) (b := ()) ⟨rfl, rfl⟩ (Or.inl rfl))
        ⟨trivial, trivial⟩ .refl,
      eq_of_resume rfl fun a => ?_⟩
    cases a <;> rfl
  have hbefore : Run (Guarded OnTime Step) (initial (fun _ => 0) fun _ => 0) _ hungState :=
    .guard (.schedule (f := ()) (w := ()) rfl) ⟨trivial, trivial⟩ <|
    .guard (.poll (w := ()) rfl rfl) ⟨trivial, trivial⟩ <|
    .guard (.dispatch (w := ()) (f := ()) rfl rfl) ⟨trivial, trivial⟩ <|
    .guard (.check (w := ()) (f := ()) (b := ()) (k := .wait) ⟨rfl, rfl⟩ rfl rfl)
      ⟨trivial, trivial⟩ <|
    .guard (.block (w := ()) (f := ()) ⟨rfl, rfl⟩ rfl) ⟨trivial, trivial⟩ <|
    .guard (.switchBlocked (w := ()) rfl rfl rfl) ⟨trivial, trivial⟩ <|
    .guard (.swapOutHung (w := ()) rfl rfl) ⟨trivial, trivial⟩ .refl
  obtain ⟨E, hE, hs, hcont⟩ := prepend Fair.cons hafter yielding_fair hu
  obtain ⟨E', hE', hs', hcont'⟩ := prepend Fair.cons hbefore hE hs
  refine ⟨E', { toFair := hE', start := hs' }, ⟨_, (hcont' 0).1.trans hs⟩, fun n => ?_⟩
  obtain ⟨k, hk, hmod⟩ := cycle_again (k := 6) (i := 3) (by decide) n
  refine ⟨_, ?_, ((hcont' _).1.trans (hcont k).1).trans ?_,
    (congrArg (wakes ()) ((hcont' _).2.trans (hcont k).2)).trans ?_⟩
  · omega
  · change yieldingState (k % 6) = _
    rw [hmod]
    rfl
  · change wakes () (yieldingAct (k % 6)) = true
    rw [hmod]
    rfl

/-! Nobody starves -/

/-- Whoever is queued is run by its worker, whoever has been resumed is run, and whoever sleeps with
a timer is run again. -/
theorem everybody_runs (h : FairRun capacity limit E) (f : F) :
    (∀ w, E.LeadsTo (fun s => f ∈ s.taskQueue w) fun s => s.worker w = .running f) ∧
    E.LeadsTo (InSwapIn f) (Running f) ∧
    ∀ w, E.LeadsTo (fun s => Asleep s f ∧ (s.fiber f).timer = some w) (Running f) :=
  ⟨fun _ => queued_leads h, resumed_leads h, fun _ => sleeper_leads h⟩

/-- It is queued again and again. -/
theorem everybody_runs_yielding : ∃ E : Execution (Step : State Unit Unit Unit Unit → _ → _ → Prop),
    (∀ n, ∃ k, n ≤ k ∧ () ∈ (E.state k).taskQueue ()) ∧
    (∀ w, E.LeadsTo (fun s => () ∈ s.taskQueue w) fun s => s.worker w = .running ()) ∧
    E.LeadsTo (InSwapIn ()) (Running ()) ∧
    ∀ w, E.LeadsTo (fun s => Asleep s () ∧ (s.fiber ()).timer = some w) (Running ()) := by
  obtain ⟨E, hE, -, hagain⟩ := hung_once
  refine ⟨E, fun n => ?_, everybody_runs hE ()⟩
  obtain ⟨k, hk, hs, -⟩ := hagain n
  exact ⟨k, hk, by simp [hs, yielding]⟩

/-- Whoever hangs on a blocker runs again, if the blocker is woken again and again as long as it
hangs there. -/
theorem waiter_runs (h : FairRun capacity limit E)
    (hb : ∀ n, f ∈ ((E.state n).blocker b).waitQueue →
      ∃ k, n ≤ k ∧ wakes b (E.label k) = true) :
    E.LeadsTo (fun s => f ∈ (s.blocker b).waitQueue ∧ (s.fiber f).suspended = true)
      (Running f) := by
  intro m hm
  obtain ⟨loc, hl, hf⟩ := (h.holds m).1
  by_cases hu : Untested (E.state m) f
  · have hoff := (hf.entry_suspended hm.1 hm.2).1.off (hl.not_tested hu)
    obtain ⟨n, hn, ha | ho⟩ := hung_leads h hb m ⟨hm.1, hm.2, hl.off_iff.mp hoff⟩
    · obtain ⟨k, hk, hr⟩ := resumed_leads h n ha
      exact ⟨k, Nat.le_trans hn hk, hr⟩
    · obtain ⟨k, hk, hr⟩ := ((owed_leads h).trans (resumed_leads h)) n ho
      exact ⟨k, Nat.le_trans hn hk, hr⟩
  · -- its timer has expired
    simp only [Untested, not_forall, Decidable.not_not] at hu
    obtain ⟨a, ha⟩ := hu
    exact resumed_leads h m ⟨a, _, ha, rfl⟩

theorem waiter_runs_hung : ∃ E : Execution (Step : State Unit Unit Unit Unit → _ → _ → Prop),
    (∃ n, () ∈ ((E.state n).blocker ()).waitQueue ∧ ((E.state n).fiber ()).suspended = true) ∧
    E.LeadsTo (fun s => () ∈ (s.blocker ()).waitQueue ∧ (s.fiber ()).suspended = true)
      (Running ()) := by
  obtain ⟨E, hE, ⟨n, hn⟩, hagain⟩ := hung_once
  refine ⟨E, ⟨n, ?_⟩, waiter_runs hE fun n _ => ?_⟩
  · rw [hn]
    exact ⟨List.mem_singleton.mpr rfl, rfl⟩
  · obtain ⟨k, hk, -, hw⟩ := hagain n
    exact ⟨k, hk, hw⟩

end CxxFiber.Scheduler
