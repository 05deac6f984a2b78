import CxxFiber.EHooker.System

/-! What can resume a fiber that waits in a hooked call. -/
namespace CxxFiber.EHooker

open EcoAe Transition

variable {F : Type} [DecidableEq F]

/-- The fiber's own timer is pending, or a slot names it and is registered in a direction that
the call asked for. -/
def Resumable (s : State F) (f : F) (c : HookCall) : Prop :=
  (s.fiber f).armed = true ∨ ∃ fd d, (c.asks fd).has d = true ∧
    s.waiter.named fd = some f ∧ (s.waiter.mask fd).has d = true

/-- Every fiber in the state WAITING in a hooked call can be resumed. -/
def NoOrphans (s : State F) : Prop :=
  ∀ f p c, (s.fiber f).phase = .parked p false → p.call = some c → Resumable s f c

/-- Two calls that both have a timer, or share no descriptor of the table. -/
def Compatible (setsize : ℕ) (c c' : HookCall) : Prop :=
  c.timer = true ∧ c'.timer = true ∨ ∀ fd ∈ c.fds, fd < setsize → fd ∉ c'.fds

/-- A call has a timer or succeeds in registering something that it asked for, and it is
compatible with the calls that have not ended; when it ends it deletes live records only, each
once; and `fileEventProc` reads no deleted record. -/
def Admissible (s : State F) : Act F → Prop
  | .enter f p api => ∀ c, p.call = some c →
    (c.timer = true ∨ ∃ k fd m d, c.regs[k]? = some (fd, m) ∧ Registers s.waiter (api k) fd ∧
      m.has d = true ∧ (c.asks fd).has d = true) ∧
    ∀ g q r c', g ≠ f → (s.fiber g).phase = .parked q r → q.call = some c' →
      Compatible s.waiter.poll.setsize c c'
  | .leave f => ∀ p, (s.fiber f).phase = .parked p true → Deletes s.waiter p.delMask p.fds
  | .strayEvent => False
  | _ => True

structure Guarding (s : State F) : Prop where
  placed : Placed s
  apart : ∀ f g p q r r' c c', f ≠ g → (s.fiber f).phase = .parked p r →
    (s.fiber g).phase = .parked q r' → p.call = some c → q.call = some c' →
    Compatible s.waiter.poll.setsize c c'
  live : NoOrphans s

variable {s t : State F} {a : Act F} {as : List (Act F)} {f g : F} {x : Fiber} {p q : Park}
  {r : Bool} {api : ℕ → Bool} {c c' : HookCall} {n : ℕ}

omit [DecidableEq F]

theorem Compatible.symm (h : Compatible n c c') : Compatible n c' c := by
  rcases h with ⟨hc, hc'⟩ | h
  · exact Or.inl ⟨hc', hc⟩
  · exact Or.inr fun fd hfd' hlt hfd => h fd hfd hlt hfd'

theorem guarding_initial (h : Initial s) : Guarding s where
  placed := placed_initial h
  apart f g p q r r' c c' _ hp := by
    rw [h.fiber] at hp
    exact nomatch hp
  live f p c hp := by
    rw [h.fiber] at hp
    exact nomatch hp

/-- A waiting fiber with a timer has not seen it fire. -/
theorem Placed.armed (hs : Placed s) (hq : (s.fiber g).phase = .parked q false)
    (hc : q.call = some c) (ht : c.timer = true) : (s.fiber g).armed = true := by
  have hok := hs.ok g
  simp only [Fiber.Ok, hq] at hok
  rw [(hok.2.2 trivial).1, Park.timer_of_call hc]
  exact ht

/-- A compatible call leaves a waiting fiber its timer or the slot that it has. -/
theorem Guarding.slot (hs : Guarding s) (hq : (s.fiber g).phase = .parked q false)
    (hc' : q.call = some c') (hc : Compatible s.waiter.poll.setsize c c') :
    (s.fiber g).armed = true ∨ ∃ fd d, fd ∉ c.fds ∧ (c'.asks fd).has d = true ∧
      s.waiter.named fd = some g ∧ (s.waiter.mask fd).has d = true := by
  rcases hs.live g q c' hq hc' with harm | ⟨fd, d, ha, hn, hd⟩
  · exact Or.inl harm
  rcases hc with ⟨-, ht⟩ | hdis
  · exact Or.inl (hs.placed.armed hq hc' ht)
  refine Or.inr ⟨fd, d, fun hfd => ?_, ha, hn, hd⟩
  obtain ⟨hlt, q', r, hq', hmem⟩ := hs.placed.slot fd g hn
  obtain ⟨rfl, -⟩ := Phase.parked.inj (hq.symm.trans hq')
  rw [Park.fds_of_call hc'] at hmem
  exact hdis fd hfd hlt hmem

variable [DecidableEq F]

/-- A fiber that stays in its call, resumed or with its timer. -/
theorem guarding_setFiber (hs : Guarding s) (hx : Placed (s.setFiber f x))
    (hp : ∀ p r, x.phase = .parked p r → ∃ r', (s.fiber f).phase = .parked p r')
    (hlive : ∀ p c, x.phase = .parked p false → p.call = some c →
      Resumable (s.setFiber f x) f c) :
    Guarding (s.setFiber f x) where
  placed := hx
  apart i j p q r r' c c' hij hi hj := by
    have hback : ∀ g p r, ((s.setFiber f x).fiber g).phase = .parked p r →
        ∃ r', (s.fiber g).phase = .parked p r' := by
      intro g p r h
      by_cases hg : g = f
      · rw [hg, setFiber_self] at h
        rw [hg]
        exact hp p r h
      · rw [setFiber_of_ne hg] at h
        exact ⟨r, h⟩
    obtain ⟨_, hi⟩ := hback i p r hi
    obtain ⟨_, hj⟩ := hback j q r' hj
    exact hs.apart i j p q _ _ c c' hij hi hj
  live g q c' hq hc' := by
    by_cases hg : g = f
    · subst hg
      rw [setFiber_self] at hq
      exact hlive q c' hq hc'
    · rw [setFiber_of_ne hg] at hq
      have := hs.live g q c' hq hc'
      rwa [Resumable, setFiber_of_ne hg]

theorem guarding_resume (hs : Guarding s) (hx : Placed (s.setFiber f x))
    (hp : ∀ p r, x.phase = .parked p r → r = true ∧ ∃ r', (s.fiber f).phase = .parked p r') :
    Guarding (s.setFiber f x) :=
  guarding_setFiber hs hx (fun p r h => (hp p r h).2) fun p _ h _ =>
    Bool.noConfusion (hp p false h).1

/-- The slots that the call does not use stay what they were. -/
theorem live_enter (hs : Guarding s) (hgf : g ≠ f) (hq : (s.fiber g).phase = .parked q false)
    (hc' : q.call = some c') (hg : ∀ c, p.call = some c → Compatible s.waiter.poll.setsize c c') :
    Resumable (s.enter f p api) g c' := by
  rw [Resumable, enter_of_ne hgf]
  cases hc : p.call with
  | none =>
    have hw : (s.enter f p api).waiter = s.waiter := by
      simp [State.enter, Park.regs, hc, register]
    rw [hw]
    exact hs.live g q c' hq hc'
  | some c =>
    refine (hs.slot hq hc' (hg c hc)).imp_right ?_
    rintro ⟨fd, d, hfd, ha, hn, hd⟩
    refine ⟨fd, d, ha, ?_, register_mask_mono hd⟩
    rw [State.enter, register_named_of_notMem]
    · exact hn
    · rwa [Park.regs_fds, Park.fds_of_call hc]

theorem guarding_enter (hs : Guarding s) (hu : (s.fiber f).phase = .user)
    (hg : Admissible s (.enter f p api)) : Guarding (s.enter f p api) where
  placed := placed_enter hs.placed hu
  apart i j q q' r r' c c' hij hi hj hc hc' := by
    have hsize : (s.enter f p api).waiter.poll.setsize = s.waiter.poll.setsize := register_setsize
    rw [hsize]
    by_cases hif : i = f
    · subst hif
      rw [enter_self] at hi
      obtain ⟨rfl, -⟩ := Phase.parked.inj hi
      rw [enter_of_ne hij.symm] at hj
      exact (hg c hc).2 j q' r' c' hij.symm hj hc'
    · rw [enter_of_ne hif] at hi
      by_cases hjf : j = f
      · subst hjf
        rw [enter_self] at hj
        obtain ⟨rfl, -⟩ := Phase.parked.inj hj
        exact ((hg c' hc').2 i q r c hij hi hc).symm
      · rw [enter_of_ne hjf] at hj
        exact hs.apart i j q q' r r' c c' hij hi hj hc hc'
  live g q c' hq hc' := by
    by_cases hgf : g = f
    · subst hgf
      rw [enter_self] at hq
      obtain ⟨rfl, -⟩ := Phase.parked.inj hq
      rw [Resumable, enter_self]
      rcases (hg c' hc').1 with ht | ⟨k, fd, m, d, hk, hr, hm, ha⟩
      · exact Or.inl ((Park.timer_of_call hc').trans ht)
      · rw [← Park.regs_of_call hc'] at hk
        exact Or.inr ⟨fd, d, ha, register_self hk hr hm⟩
    · rw [enter_of_ne hgf] at hq
      exact live_enter hs hgf hq hc' fun c hc => (hg c hc).2 g q false c' hgf hq hc'

theorem live_leave (hs : Guarding s) (hp : (s.fiber f).phase = .parked p true) (hgf : g ≠ f)
    (hq : (s.fiber g).phase = .parked q false) (hc' : q.call = some c') :
    Resumable (s.leave f p) g c' := by
  rw [Resumable, leave_of_ne hgf]
  cases hc : p.call with
  | none =>
    have hw : (s.leave f p).waiter = s.waiter := by
      simp [State.leave, Park.fds, hc, delFileEvents]
    rw [hw]
    exact hs.live g q c' hq hc'
  | some c =>
    have hcomp := hs.apart f g p q true false c c' hgf.symm hp hq hc hc'
    refine (hs.slot hq hc' hcomp).imp_right ?_
    rintro ⟨fd, d, hfd, ha, hn, hd⟩
    rw [← Park.fds_of_call hc] at hfd
    obtain ⟨hmask, hnamed⟩ := delFileEvents_of_notMem (w := s.waiter) (m := p.delMask) hfd
    exact ⟨fd, d, ha, hnamed.trans hn, (congrArg (·.has d) hmask).trans hd⟩

theorem guarding_leave (hs : Guarding s) (hp : (s.fiber f).phase = .parked p true) :
    Guarding (s.leave f p) where
  placed := placed_leave hs.placed hp
  apart i j q q' r r' c c' hij hi hj := by
    have hsize : (s.leave f p).waiter.poll.setsize = s.waiter.poll.setsize := delFileEvents_setsize
    rw [hsize]
    have hback : ∀ g p' r, ((s.leave f p).fiber g).phase = .parked p' r →
        (s.fiber g).phase = .parked p' r := by
      intro g p' r h
      by_cases hg : g = f
      · rw [hg, leave_self] at h
        exact nomatch h
      · rwa [leave_of_ne hg] at h
    exact hs.apart i j q q' r r' c c' hij (hback i q r hi) (hback j q' r' hj)
  live g q c' hq hc' := by
    by_cases hgf : g = f
    · rw [hgf, leave_self] at hq
      exact nomatch hq
    · rw [leave_of_ne hgf] at hq
      exact live_leave hs hp hgf hq hc'

theorem guarding_step (hs : Guarding s) (h : Guarded Admissible Step s a t) : Guarding t := by
  obtain ⟨hg, h⟩ := h
  have hplaced := placed_step hs.placed h
  cases h with
  | enter _ hu _ => exact guarding_enter hs hu hg
  | timeEvent ha => exact guarding_resume hs hplaced fun p r hp => Fiber.timeEventProc_phase.mp hp
  | fileEvent _ _ hr => exact guarding_resume hs hplaced fun p r hp => Fiber.resume_phase.mp hp
  | wakeUp hp => exact guarding_resume hs hplaced fun p r hp => Fiber.resume_phase.mp hp
  | @queueAgain f =>
    refine guarding_setFiber hs hplaced (fun p r hp => ⟨r, hp⟩) fun p c hp hc => ?_
    have hlive := hs.live f p c hp hc
    rwa [Resumable, setFiber_self]
  | runStale _ => exact guarding_resume hs hplaced fun p r hp => Fiber.runStale_phase.mp hp
  | strayEvent _ _ _ _ _ _ => exact hs
  | leave hp => exact guarding_leave hs hp

/-- In every run of admissible calls that end soundly, each waiting fiber can be resumed. -/
theorem no_orphans (hi : Initial s) (h : Run (Guarded Admissible Step) s as t) :
    NoOrphans t := by
  have hrun : Guarding t := h.invariant (fun _ _ _ hs hst => guarding_step hs hst)
    (guarding_initial hi)
  exact hrun.live

/-- Two fibers wait, each for a descriptor of its own. -/
theorem no_orphans_apart : ∃ t : State Bool,
    (∀ f, ∃ p, (t.fiber f).phase = .parked p false) ∧ NoOrphans t := by
  refine ⟨_, ?_, no_orphans (initial_idle 8) <|
    .guard (.enter (f := false) (p := .hook (.poll [⟨3, ⟨true, false⟩, ⟨false, false⟩⟩] (-1)))
      (fun _ => true) rfl rfl) (fun c hc => ?_) <|
    .guard (.enter (f := true) (p := .hook (.connect 4)) (fun _ => true) rfl rfl)
      (fun c hc => ?_) .refl⟩
  · intro f
    cases f with
    | false => exact ⟨_, rfl⟩
    | true => exact ⟨_, rfl⟩
  · obtain rfl := Option.some.inj hc
    refine ⟨Or.inr ⟨0, 3, ⟨true, false⟩, .read, rfl, ⟨by decide, rfl⟩, rfl, rfl⟩, ?_⟩
    intro g q r c' _ hq
    exact nomatch hq
  · obtain rfl := Option.some.inj hc
    refine ⟨Or.inr ⟨0, 4, ⟨false, true⟩, .write, rfl, ⟨by decide, rfl⟩, rfl, rfl⟩, ?_⟩
    intro g q r c' hg hq hc'
    cases g with
    | true => exact absurd rfl hg
    | false =>
      obtain ⟨rfl, -⟩ := Phase.parked.inj hq
      obtain rfl := Option.some.inj hc'
      refine Or.inr fun fd hfd _ => ?_
      obtain rfl := List.mem_singleton.mp hfd
      decide

/-- A reader and a writer of descriptor 3: the writer's record replaces the reader's. -/
theorem no_orphans_fails : ∃ t : State Bool, Reachable Step (idle Bool 8) t ∧ ¬ NoOrphans t := by
  refine ⟨_, ⟨_,
    .step (.enter (f := false) (p := .hook (.poll [⟨3, ⟨true, false⟩, ⟨false, false⟩⟩] (-1)))
      (fun _ => true) rfl rfl) <|
    .step (.enter (f := true) (p := .hook (.poll [⟨3, ⟨false, true⟩, ⟨false, false⟩⟩] (-1)))
      (fun _ => true) rfl rfl) .refl⟩, fun h => ?_⟩
  rcases h false _ _ rfl rfl with harm | ⟨fd, d, -, hn, -⟩
  · exact nomatch harm
  rcases register_named hn with hold | ⟨hne, -, -⟩
  · rcases register_named hold with hold | ⟨-, -, hfd⟩
    · exact nomatch hold
    · obtain rfl := List.mem_singleton.mp hfd
      exact nomatch Option.some.inj hn
  · exact nomatch hne

end CxxFiber.EHooker
