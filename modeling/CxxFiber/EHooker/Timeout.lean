import CxxFiber.EHooker.System

/-! Who a timeout of `poll` and `select` belongs to. -/
namespace CxxFiber.EHooker

open EcoAe Transition

variable {F : Type} [DecidableEq F]

/-- A timeout is reported only when the timer that the call itself armed has fired during it. -/
def Attributed (s : State F) : Prop :=
  ∀ r ∈ s.reports, r.outcome = .returned 0 ∨ r.outcome = .etimedout →
    r.call.timer = true ∧ r.expired = true

/-- A call without a timer does not start with the flag set; a `swapIn` of a blocker, or a run from
a second entry, finds no fiber in a `poll` or `select` that has no registered slot; a call does not
end while it shares a descriptor with a `poll` or `select` that has been resumed and not by its
timer; and no record is deleted or read that has been deleted. -/
def Attributable (s : State F) : Act F → Prop
  | .enter f p _ => ∀ c, p.polled = some c →
    c.timer = true ∨ (s.fiber f).isIoWaitTimeout = false
  | .wakeUp f | .runStale f => ∀ p c, (s.fiber f).phase = .parked p false → p.polled = some c →
    ∃ fd ∈ c.fds, s.waiter.mask fd ≠ .none
  | .leave f => ∀ p, (s.fiber f).phase = .parked p true → Deletes s.waiter p.delMask p.fds ∧
    ∀ g q c, g ≠ f → (s.fiber g).phase = .parked q true → (s.fiber g).expired = false →
      q.polled = some c → ∀ fd ∈ p.fds, fd ∉ c.fds
  | .strayEvent => False
  | _ => True

/-- The flag of a `poll` or `select` is that of its own timer, and without it the slots that
the fiber will read back are not all empty. -/
structure Timed (s : State F) : Prop where
  placed : Placed s
  flag : ∀ f p r c, (s.fiber f).phase = .parked p r → p.polled = some c →
    (s.fiber f).isIoWaitTimeout = true → (s.fiber f).expired = true
  read : ∀ f p c, (s.fiber f).phase = .parked p true → p.polled = some c →
    (s.fiber f).expired = false → ∃ fd ∈ c.fds, s.waiter.mask fd ≠ .none
  reports : Attributed s

variable {s t : State F} {a : Act F} {as : List (Act F)} {f g : F} {x : Fiber} {p q : Park}
  {r : Bool} {api : ℕ → Bool} {c : HookCall}

omit [DecidableEq F] in
theorem timed_initial (h : Initial s) : Timed s where
  placed := placed_initial h
  flag f p r c hp := by
    rw [h.fiber] at hp
    exact nomatch hp
  read f p c hp := by
    rw [h.fiber] at hp
    exact nomatch hp
  reports r hr := by
    rw [h.reports] at hr
    exact nomatch hr

theorem timed_setFiber (hs : Timed s) (hx : Placed (s.setFiber f x))
    (hflag : ∀ p r c, x.phase = .parked p r → p.polled = some c → x.isIoWaitTimeout = true →
      x.expired = true)
    (hread : ∀ p c, x.phase = .parked p true → p.polled = some c → x.expired = false →
      ∃ fd ∈ c.fds, s.waiter.mask fd ≠ .none) : Timed (s.setFiber f x) where
  placed := hx
  flag g p r c := by
    by_cases hg : g = f
    · rw [hg, setFiber_self]
      exact hflag p r c
    · rw [setFiber_of_ne hg]
      exact hs.flag g p r c
  read g p c := by
    by_cases hg : g = f
    · rw [hg, setFiber_self]
      exact hread p c
    · rw [setFiber_of_ne hg]
      exact hs.read g p c
  reports := hs.reports

theorem timed_timeEvent (hs : Timed s) (ha : (s.fiber f).armed = true) :
    Timed (s.setFiber f (s.fiber f).timeEventProc) := by
  refine timed_setFiber hs (placed_step hs.placed (.timeEvent ha)) (fun p r c _ _ _ => ?_)
    fun p c _ _ he => ?_
  · simp [Fiber.timeEventProc]
  · simp [Fiber.timeEventProc] at he

/-- A fiber is resumed, by `swapIn` or from a second entry, with a slot that it will find
registered. -/
theorem timed_resume (hs : Timed s) (hx : Placed (s.setFiber f x))
    (hp : ∀ p r, x.phase = .parked p r → r = true ∧ ∃ r', (s.fiber f).phase = .parked p r')
    (hflag : x.isIoWaitTimeout = (s.fiber f).isIoWaitTimeout)
    (hexpired : x.expired = (s.fiber f).expired)
    (hslot : ∀ p c, (s.fiber f).phase = .parked p false → p.polled = some c →
      ∃ fd ∈ c.fds, s.waiter.mask fd ≠ .none) : Timed (s.setFiber f x) := by
  refine timed_setFiber hs hx (fun p r c hpark hc hf => ?_) fun p c hpark hc he => ?_
  · obtain ⟨-, r', hpark⟩ := hp p r hpark
    rw [hexpired]
    exact hs.flag f p r' c hpark hc (hflag.symm.trans hf)
  · obtain ⟨-, r', hpark⟩ := hp p true hpark
    cases r' with
    | true => exact hs.read f p c hpark hc (hexpired.symm.trans he)
    | false => exact hslot p c hpark hc

theorem timed_enter (hs : Timed s) (hu : (s.fiber f).phase = .user)
    (hg : ∀ c, p.polled = some c → c.timer = true ∨ (s.fiber f).isIoWaitTimeout = false) :
    Timed (s.enter f p api) where
  placed := placed_enter hs.placed hu
  flag g q r c hq hc hf := by
    by_cases hgf : g = f
    · rw [hgf, enter_self] at hq hf
      obtain ⟨rfl, -⟩ := Phase.parked.inj hq
      simp only [Fiber.park, Bool.and_eq_true, Bool.not_eq_true'] at hf
      rcases hg c hc with ht | hn
      · rw [← Park.timer_of_call (Park.polled_eq_some.mp hc).1, hf.1] at ht
        exact Bool.noConfusion ht
      · rw [hf.2] at hn
        exact Bool.noConfusion hn
    · rw [enter_of_ne hgf] at hq hf ⊢
      exact hs.flag g q r c hq hc hf
  read g q c hq hc he := by
    by_cases hgf : g = f
    · rw [hgf, enter_self] at hq
      exact Bool.noConfusion (Phase.parked.inj hq).2
    · rw [enter_of_ne hgf] at hq he
      obtain ⟨fd, hfd, hm⟩ := hs.read g q c hq hc he
      obtain ⟨d, hd⟩ := Mask.ne_none_iff_has.mp hm
      exact ⟨fd, hfd, Mask.ne_none_iff_has.mpr ⟨d, register_mask_mono hd⟩⟩
  reports := hs.reports

omit [DecidableEq F] in
/-- A call that returns 0, or makes its caller fail, has seen its timer fire. -/
theorem expired_of_outcome (hs : Timed s) (hp : (s.fiber f).phase = .parked p true)
    (hc : p.polled = some c)
    (ho : p.outcome (c.returns s.waiter (s.fiber f).isIoWaitTimeout) = .returned 0 ∨
      p.outcome (c.returns s.waiter (s.fiber f).isIoWaitTimeout) = .etimedout) :
    (s.fiber f).expired = true := by
  have hzero : c.returns s.waiter (s.fiber f).isIoWaitTimeout = 0 := by
    by_contra hne
    cases p <;> simp_all [Park.outcome]
  by_contra hn
  have he : (s.fiber f).expired = false := by simpa using hn
  have hf : (s.fiber f).isIoWaitTimeout = false := by
    by_contra hf
    exact hn (hs.flag f p true c hp hc (by simpa using hf))
  rw [hf] at hzero
  obtain ⟨fd, hfd, hm⟩ := hs.read f p c hp hc he
  exact HookCall.returns_ne_zero (Park.polled_eq_some.mp hc).2 hfd hm hzero

theorem timed_leave (hs : Timed s) (hp : (s.fiber f).phase = .parked p true)
    (hg : Attributable s (.leave f)) : Timed (s.leave f p) where
  placed := placed_leave hs.placed hp
  flag g q r c hq hc hf := by
    by_cases hgf : g = f
    · rw [hgf, leave_self] at hq
      exact nomatch hq
    · rw [leave_of_ne hgf] at hq hf ⊢
      exact hs.flag g q r c hq hc hf
  read g q c hq hc he := by
    by_cases hgf : g = f
    · rw [hgf, leave_self] at hq
      exact nomatch hq
    · rw [leave_of_ne hgf] at hq he
      obtain ⟨fd, hfd, hm⟩ := hs.read g q c hq hc he
      have hnot : fd ∉ p.fds := fun h => (hg p hp).2 g q c hgf hq he hc fd h hfd
      exact ⟨fd, hfd, by rwa [State.leave, (delFileEvents_of_notMem hnot).1]⟩
  reports r hr ho := by
    cases hc : p.polled with
    | none =>
      simp only [State.leave, hc, Option.elim_none] at hr
      exact hs.reports r hr ho
    | some c =>
      simp only [State.leave, hc, Option.elim_some] at hr
      rcases List.mem_cons.mp hr with rfl | hr
      · have he := expired_of_outcome hs hp hc ho
        have hok := hs.placed.ok f
        simp only [Fiber.Ok, hp] at hok
        exact ⟨(Park.timer_of_call (Park.polled_eq_some.mp hc).1).symm.trans (hok.2.1 he), he⟩
      · exact hs.reports r hr ho

theorem timed_step (hs : Timed s) (h : Guarded Attributable Step s a t) : Timed t := by
  obtain ⟨hg, h⟩ := h
  cases h with
  | enter _ hu _ => exact timed_enter hs hu hg
  | timeEvent ha => exact timed_timeEvent hs ha
  | fileEvent timeout batch hr =>
    refine timed_resume hs (placed_step hs.placed (.fileEvent timeout batch hr))
      (fun _ _ => Fiber.resume_phase.mp) Fiber.resume_isIoWaitTimeout Fiber.resume_expired
      fun p c hp hc => ?_
    obtain ⟨fd, hn, hm⟩ := hr.slot
    obtain ⟨-, q, r, hq, hfd⟩ := hs.placed.slot fd _ hn
    obtain ⟨rfl, -⟩ := Phase.parked.inj (hp.symm.trans hq)
    rw [Park.fds_of_call (Park.polled_eq_some.mp hc).1] at hfd
    exact ⟨fd, hfd, hm⟩
  | wakeUp hp =>
    exact timed_resume hs (placed_step hs.placed (.wakeUp hp)) (fun _ _ => Fiber.resume_phase.mp)
      Fiber.resume_isIoWaitTimeout Fiber.resume_expired hg
  | @queueAgain f =>
    refine timed_setFiber hs (placed_step hs.placed .queueAgain) (fun p r c => ?_) fun p c => ?_
    · exact hs.flag f p r c
    · exact hs.read f p c
  | runStale hr =>
    exact timed_resume hs (placed_step hs.placed (.runStale hr))
      (fun _ _ => Fiber.runStale_phase.mp) Fiber.resume_isIoWaitTimeout Fiber.resume_expired hg
  | strayEvent _ _ _ _ _ _ => exact hg.elim
  | leave hp => exact timed_leave hs hp hg

/-- In every run whose steps are attributable, every timeout is the call's own. -/
theorem timeouts_attributed (hi : Initial s) (h : Run (Guarded Attributable Step) s as t) :
    Attributed t := by
  have hrun : Timed t := h.invariant (fun _ _ _ hs hst => timed_step hs hst) (timed_initial hi)
  exact hrun.reports

/-- A `poll` of descriptor 3 ends by its timer. -/
theorem timeouts_attributed_own : ∃ t : State Unit,
    (∃ r ∈ t.reports, r.outcome = .returned 0) ∧ Attributed t := by
  refine ⟨_, ⟨_, List.mem_cons_self, ?_⟩, timeouts_attributed (initial_idle 8) <|
    .guard (.enter (f := ()) (p := .hook (.poll [⟨3, ⟨true, false⟩, ⟨false, false⟩⟩] 100))
      (fun _ => true) rfl rfl) (fun c hc => ?_) <|
    .guard (.timeEvent (f := ()) rfl) trivial <|
    .guard (.leave (f := ()) rfl) (fun p hp => ?_) .refl⟩
  · rfl
  · obtain rfl := Option.some.inj hc
    exact Or.inl rfl
  · obtain ⟨rfl, -⟩ := Phase.parked.inj hp
    exact ⟨⟨fun _ => Or.inr rfl, trivial⟩, fun g _ _ hg => absurd rfl hg⟩

/-- A sleep leaves the flag set, and a later `poll` without a timer is resumed by its event and
returns 0. A fiber whose timer fires while it is queued is queued twice; the second entry runs it
out of a `poll` of a descriptor beyond the table. -/
theorem timeouts_not_attributed :
    (∃ t : State Unit, Reachable Step (idle Unit 8) t ∧ ¬ Attributed t) ∧
    ∃ t : State Unit, Run Step (idle Unit 8) [.enter () (.tryWait 100) fun _ => true,
      .timeEvent (), .queueAgain (), .leave (),
      .enter () (.hook (.poll [⟨9, ⟨true, false⟩, ⟨false, false⟩⟩] (-1))) fun _ => true,
      .runStale (), .leave ()] t ∧ ¬ Attributed t := by
  constructor
  · refine ⟨_, ⟨_,
      .step (.enter (f := ()) (p := .sleep) (fun _ => true) rfl rfl) <|
      .step (.timeEvent (f := ()) rfl) <|
      .step (.leave (f := ()) rfl) <|
      .step (.enter (f := ()) (p := .hook (.poll [⟨3, ⟨true, false⟩, ⟨false, false⟩⟩] (-1)))
        (fun _ => true) rfl rfl) <|
      .step (.fileEvent (f := ()) 0 [(3, ⟨true, false, false, false⟩)]
        ⟨⟨.fileEventProc, 3, some 0, ⟨true, false⟩⟩, by decide, rfl⟩) <|
      .step (.leave (f := ()) rfl) .refl⟩, fun h => ?_⟩
    have hown := (h _ List.mem_cons_self (Or.inl rfl)).1
    exact nomatch hown
  · refine ⟨_, .step (.enter _ rfl rfl) <| .step (.timeEvent rfl) <| .step .queueAgain <|
      .step (.leave rfl) <| .step (.enter _ rfl rfl) <| .step (.runStale Nat.one_pos) <|
      .step (.leave rfl) .refl, fun h => ?_⟩
    have hown := (h _ List.mem_cons_self (Or.inl rfl)).1
    exact nomatch hown

end CxxFiber.EHooker
