import CxxFiber.Library.Token
import CxxFiber.Scheduler.RunQueue

/-! `EFiberMutex` is a blocker with one permit: its lock is a token. -/
namespace CxxFiber.Scheduler

open Transition

variable {F W B T : Type}
  {s t : State F W B T} {f g : F} {w : W} {b : B} {p : WorkerPc F B} {a : Agent F W T}
  {k : WaitKind} {act : Act F W B T} {acts : List (Act F W B T)}

/-- The constructor of `EFiberMutex`, for every blocker. -/
def mutexes : State F W B T := initial (fun _ => 1) fun _ => 1

/-- `lock`, `tryLock` and `tryLock(time)` are the waits; `unlock` is `wakeUp`, called by a fiber
on a mutex it holds. -/
def UnlocksHeld (s : State F W B T) : Act F W B T → Prop
  | .wakeUp (.fiber f) b => s.held f b = true
  | .wakeUp _ _ => False
  | _ => True

def MutuallyExclusive (s : State F W B T) : Prop :=
  ∀ b f g, s.held f b = true → s.held g b = true → f = g

/-- The worker is about to switch on the state of `f`. -/
def Departing (s : State F W B T) (f : F) : Prop :=
  ∃ w, s.worker w = .switching f ∨ ∃ b, s.worker w = .swapOut f b

/-- `f` has the lock, or a wait of `f` is going to return it. -/
def Owns (s : State F W B T) (f : F) (b : B) : Prop :=
  s.held f b = true ∨ (∃ k, (s.fiber f).pc = .granted b k) ∨
  (∃ k, (s.fiber f).pc = .parked b k ∧ f ∉ (s.blocker b).waitQueue ∧ ¬ Departing s f) ∨
  ((s.fiber f).pc = .removing b ∧ f ∉ (s.blocker b).waitQueue)

/-- The lock `b` as a token. -/
def token (s : State F W B T) (b : B) : Token.State F where
  free := (s.blocker b).wakeup
  owns f := Owns s f b

theorem Owns.back (h : Owns t f b) (hh : t.held f b = s.held f b)
    (hp : (t.fiber f).pc = (s.fiber f).pc)
    (hq : f ∈ (s.blocker b).waitQueue → f ∈ (t.blocker b).waitQueue)
    (hd : ∀ k, (s.fiber f).pc = .parked b k → Departing s f → Departing t f) : Owns s f b := by
  rcases h with h | ⟨k, h⟩ | ⟨k, h, hn, hnd⟩ | ⟨h, hn⟩
  · exact Or.inl (hh ▸ h)
  · exact Or.inr (Or.inl ⟨k, hp ▸ h⟩)
  · exact Or.inr (Or.inr (Or.inl ⟨k, hp ▸ h, fun hm => hn (hq hm),
      fun h' => hnd (hd k (hp ▸ h) h')⟩))
  · exact Or.inr (Or.inr (Or.inr ⟨hp ▸ h, fun hm => hn (hq hm)⟩))

/-- A worker that is not about to switch on `f` moves on. -/
theorem Departing.setWorker [DecidableEq W] (h : Departing s f) (hs : s.worker w ≠ .switching f)
    (ho : ∀ b, s.worker w ≠ .swapOut f b) : Departing (s.setWorker w p) f := by
  obtain ⟨v, hv⟩ := h
  have hne : v ≠ w := by
    rintro rfl
    rcases hv with hv | ⟨b, hv⟩
    · exact hs hv
    · exact ho b hv
  exact ⟨v, by simpa [hne] using hv⟩

/-- Elsewhere only what a wait has returned is owned. -/
theorem owns_iff_held (hg : ∀ k, (s.fiber f).pc ≠ .granted b k)
    (hp : ∀ k, (s.fiber f).pc ≠ .parked b k) (hr : (s.fiber f).pc ≠ .removing b) :
    Owns s f b ↔ s.held f b = true := by
  simp [Owns, hg, hp, hr]

/-- Nothing the ownership of `b` depends on changes. -/
theorem token_frame (hb : (t.blocker b).wakeup ≤ (s.blocker b).wakeup)
    (hq : (t.blocker b).waitQueue = (s.blocker b).waitQueue)
    (hh : t.held = s.held) (hp : ∀ f, (t.fiber f).pc = (s.fiber f).pc)
    (hd : ∀ f k, (s.fiber f).pc = .parked b k → Departing s f → Departing t f) :
    Token.Move (token s b) (token t b) :=
  .stay hb fun f ho => ho.back (by rw [hh]) (hp f) (by rw [hq]; exact id) (hd f)

/-- Only `f` moves on in its code. -/
theorem token_local [DecidableEq F] (hb : (t.blocker b).wakeup ≤ (s.blocker b).wakeup)
    (hq : ∀ g, g ≠ f → g ∈ (s.blocker b).waitQueue → g ∈ (t.blocker b).waitQueue)
    (hh : ∀ g, g ≠ f → t.held g b = s.held g b)
    (hp : ∀ g, g ≠ f → (t.fiber g).pc = (s.fiber g).pc)
    (hd : ∀ g, g ≠ f → Departing s g → Departing t g) (ho : Owns t f b → Owns s f b) :
    Token.Move (token s b) (token t b) := by
  refine .stay hb fun g hg => ?_
  by_cases hgf : g = f
  · subst g
    exact ho hg
  · exact hg.back (hh g hgf) (hp g hgf) (hq g hgf) fun _ _ => hd g hgf

/-- `f` takes a permit of `b`. -/
theorem token_take [DecidableEq F] (hb : (t.blocker b).wakeup < (s.blocker b).wakeup)
    (hq : (t.blocker b).waitQueue = (s.blocker b).waitQueue)
    (hh : ∀ g, g ≠ f → t.held g b = s.held g b)
    (hp : ∀ g, g ≠ f → (t.fiber g).pc = (s.fiber g).pc)
    (hd : ∀ g, g ≠ f → Departing s g → Departing t g) :
    Token.Move (token s b) (token t b) := by
  refine .take f hb fun g hg => ?_
  by_cases hgf : g = f
  · exact Or.inl hgf
  · exact Or.inr (hg.back (hh g hgf) (hp g hgf) (by rw [hq]; exact id) fun _ _ => hd g hgf)

theorem Inv.not_departing (hi : Inv s) (ha : s.Active w f) : ¬ Departing s f := by
  rintro ⟨v, hv⟩
  have hx := hi.exclusive
  have hw : (s.worker w).fiber? = some f := by rw [ha.1]; rfl
  rcases hv with hv | ⟨b, hv⟩
  · obtain rfl := hx.single f w v hw (by rw [hv]; rfl)
    exact nomatch ha.1.symm.trans hv
  · obtain rfl := hx.single f w v hw (by rw [hv]; rfl)
    exact nomatch ha.1.symm.trans hv

/-- A fiber that is running and has not timed out was granted the wait it returns from. -/
theorem Inv.owns_returning (hi : Inv s) (ha : s.Active w f)
    (hp : (s.fiber f).pc = .parked b k ∨ (s.fiber f).pc = .granted b k)
    (hk : k = .wait ∨ (s.fiber f).isIoWaitTimeout = false) : Owns s f b := by
  rcases hp with hp | hp
  · refine Or.inr (Or.inr (Or.inl ⟨k, hp, fun hm => ?_, hi.not_departing ha⟩))
    obtain ⟨loc, hl, hf⟩ := hi
    have he := hf.entry b f hm
    rw [hl.active ha] at he
    rcases hk with hk | hk <;> simp_all [EntryOk]
  · exact Or.inr (Or.inl ⟨k, hp⟩)

theorem Inv.blocked_of_switching (hi : Inv s) (hw : s.worker w = .switching f)
    (hp : (s.fiber f).pc = .parked b k) : (s.fiber f).state = .blocked := by
  obtain ⟨loc, hl, hf⟩ := hi
  have hpl := hf.place f
  rw [(hl.held w f _).mpr ⟨hw, rfl⟩] at hpl
  exact hpl.2.2.1 b k hp

theorem Departing.congr (h : t.worker = s.worker) (hd : Departing s f) : Departing t f := by
  simpa only [Departing, h] using hd

theorem token_swapIn [DecidableEq F] [DecidableEq W] [DecidableEq T] :
    token (s.swapIn a g) b = token s b := by
  simp [token, Owns, Departing]

/-- A worker moves on without leaving a parked fiber behind. -/
theorem token_stage [DecidableEq W]
    (hw : ∀ f k, (s.fiber f).pc = .parked b k →
      (s.worker w ≠ .switching f ∧ ∀ c, s.worker w ≠ .swapOut f c) ∨ ∃ c, p = .swapOut f c) :
    Token.Move (token s b) (token (s.setWorker w p) b) := by
  refine token_frame (Nat.le_refl _) rfl rfl (fun _ => rfl) fun f k hp hd => ?_
  rcases hw f k hp with ⟨hs, ho⟩ | ⟨c, rfl⟩
  · exact hd.setWorker hs ho
  · exact ⟨w, Or.inr ⟨c, by simp⟩⟩

/-- A running fiber changes its place in its code and stays where it is. -/
theorem token_setPc [DecidableEq F]
    {u : EFiber B W → EFiber B W} (ho : Owns (s.modFiber f u) f b → Owns s f b) :
    Token.Move (token s b) (token (s.modFiber f u) b) :=
  token_local (f := f) (Nat.le_refl _) (fun _ _ => id) (fun _ _ => rfl)
    (fun g hg => by simp [hg]) (fun _ _ => id) ho

/-- A wait that returns successfully: what it now holds it owned before. -/
theorem token_return [DecidableEq F] [DecidableEq B] {u : EFiber B W → EFiber B W} {c : B}
    (hu : (u (s.fiber f)).pc = .user) (ho : Owns s f c) :
    Token.Move (token s b) (token ((s.modFiber f u).setHeld f c true) b) := by
  refine token_local (f := f) (Nat.le_refl _) (fun _ _ => id) (fun g hg => by simp [hg])
    (fun g hg => by simp [hg]) (fun _ _ => id) fun h => ?_
  by_cases hbc : b = c
  · subst b
    exact ho
  · refine Or.inl ?_
    rw [owns_iff_held (by simp [hu]) (by simp [hu]) (by simp [hu])] at h
    simpa [hbc] using h

/-- A running fiber gives the context back. -/
theorem token_leave [DecidableEq F] [DecidableEq W]
    {u : EFiber B W → EFiber B W} (ha : s.Active w f)
    (hu : ∀ b k, (u (s.fiber f)).pc ≠ .granted b k)
    (hr : ∀ b, (u (s.fiber f)).pc ≠ .removing b) :
    Token.Move (token s b) (token ((s.modFiber f u).setWorker w (.switching f)) b) := by
  refine token_local (f := f) (Nat.le_refl _) (fun _ _ => id) (fun _ _ => rfl)
    (fun g hg => by simp [hg]) (fun g hg hd => ?_) fun h => ?_
  · have := hd.setWorker (p := .switching f) (w := w) (by simp [ha.1]) (by simp [ha.1])
    exact this.congr rfl
  · rcases h with h | ⟨k, h⟩ | ⟨k, -, -, hd⟩ | ⟨h, -⟩
    · exact Or.inl h
    · exact (hu b k (by simpa using h)).elim
    · exact (hd ⟨w, Or.inl (by simp)⟩).elim
    · exact (hr b (by simpa using h)).elim

theorem token_release_other [DecidableEq F] [DecidableEq B] {c : B} (hbc : b ≠ c) :
    Token.Move (token s b) (token (s.release c a) b) := by
  obtain ⟨hf, hb, hq, hw, hr⟩ := release_eq (s := s) (a := a) (b := c)
  refine .stay (by simp [token, hb]) fun f ho => ?_
  refine ho.back ?_ (by rw [hf]) (by rw [hb]; exact id) fun _ _ hd => hd.congr hw
  cases a with
  | fiber g =>
    by_cases hfg : f = g
    · subst g
      simp [State.release, hbc]
    · simp [State.release, hfg]
  | worker v | thread t => rfl

/-- A blocker other than `b` changes, and `a` gives up what it held of it. -/
theorem token_other [DecidableEq F] [DecidableEq B] {c : B} {d : EFiberBlocker F} (hbc : b ≠ c) :
    Token.Move (token s b) (token ((s.setBlocker c d).release c a) b) := by
  have h := token_release_other (s := s.setBlocker c d) (a := a) hbc
  have hs : token (s.setBlocker c d) b = token s b := by
    simp [token, hbc, Owns, Departing]
  rwa [hs] at h

/-- A fiber that has called `unlock` does not own the mutex afterwards. -/
theorem not_owns_released [DecidableEq F] [DecidableEq B]
    {c : B} {d : EFiberBlocker F} (hp : (s.fiber f).pc = .user) :
    ¬ Owns ((s.setBlocker c d).release c (.fiber f)) f c := by
  rw [owns_iff_held (by simp [State.release, hp]) (by simp [State.release, hp])
    (by simp [State.release, hp])]
  simp [State.release]

theorem owns_of_released [DecidableEq F] [DecidableEq B] {c : B} {d : EFiberBlocker F} (hgf : g ≠ f)
    (hq : g ∈ (s.blocker c).waitQueue → g ∈ d.waitQueue)
    (ho : Owns ((s.setBlocker c d).release c (.fiber f)) g c) : Owns s g c :=
  ho.back (by simp [State.release, hgf]) rfl (by simpa [State.release] using hq)
    fun _ _ hd => hd.congr rfl

theorem token_wakeUp [DecidableEq F] [DecidableEq B]
    {c : B} {d : EFiberBlocker F} (hp : (s.fiber f).pc = .user)
    (hh : s.held f c = true) (hq : d.waitQueue = (s.blocker c).waitQueue)
    (hd : d.wakeup ≤ (s.blocker c).wakeup + 1) :
    Token.Move (token s b) (token ((s.setBlocker c d).release c (.fiber f)) b) := by
  by_cases hbc : b = c
  · subst b
    refine .post f (Or.inl hh) (by simpa [token, State.release] using hd) fun g ho => ?_
    have hgf : g ≠ f := by
      rintro rfl
      exact not_owns_released hp ho
    exact ⟨owns_of_released hgf (by rw [hq]; exact id) ho, hgf⟩
  · exact token_other hbc

theorem token_wakeUpWaiter [DecidableEq F] [DecidableEq B] {c : B} {d : EFiberBlocker F}
    (ha : s.MayCall (.fiber f)) (hh : s.held f c = true)
    (hd : (s.blocker c).wakeUp = (d, .waiter g)) :
    Token.Move (token s b) (token ((s.setBlocker c d).release c (.fiber f)) b) := by
  by_cases hbc : b = c
  · subst b
    obtain ⟨q, hq, rfl⟩ := EFiberBlocker.wakeUp_waiter.mp hd
    refine .pass f g (Or.inl hh) (by simp [token, State.release]) fun p ho => ?_
    have hpf : p ≠ f := by
      rintro rfl
      exact not_owns_released ha.2 ho
    by_cases hpg : p = g
    · exact Or.inl hpg
    · exact Or.inr ⟨owns_of_released hpf (by rw [hq]; simp [hpg]) ho, hpf⟩
  · exact token_other hbc

theorem token_swapOutPermit [DecidableEq F] [DecidableEq W] [DecidableEq B]
    {c : B} {d : EFiberBlocker F} (hi : Inv s)
    (hw : s.worker w = .swapOut f c) (hd : (s.blocker c).swapOut f = (d, false)) :
    Token.Move (token s b)
      (token (((s.setBlocker c d).modFiber f .grant).setWorker w (.requeue f)) b) := by
  obtain ⟨hpos, rfl⟩ := EFiberBlocker.swapOut_permit.mp hd
  have hdep : ∀ g, g ≠ f → Departing s g → Departing (s.setWorker w (.requeue f)) g := by
    intro g hg hd
    exact hd.setWorker (by simp [hw]) (by simp [hw, Ne.symm hg])
  by_cases hbc : b = c
  · subst b
    refine token_take (f := f) ?_ (by simp) (fun _ _ => rfl) (fun g hg => by simp [hg])
      fun g hg hd => (hdep g hg hd).congr rfl
    simp only [State.setBlocker, State.modFiber, State.setWorker, Function.update_self]
    omega
  · refine token_local (f := f) (by simp [hbc]) (by simp [hbc]) (fun _ _ => rfl)
      (fun g hg => by simp [hg]) (fun g hg hd => (hdep g hg hd).congr rfl) fun ho => ?_
    obtain ⟨loc, hl, hf⟩ := hi
    have hpl := hf.place f
    rw [(hl.held w f _).mpr ⟨hw, rfl⟩] at hpl
    obtain ⟨-, -, -, hp | ⟨k, hp⟩⟩ := hpl
    · rw [owns_iff_held] at ho <;> simp_all [EFiber.grant, Owns]
    · have hcb : c ≠ b := Ne.symm hbc
      rw [owns_iff_held] at ho <;> simp_all [EFiber.grant, EFiber.setPc, Owns]

theorem token_swapOutHung [DecidableEq F] [DecidableEq W] [DecidableEq B]
    {c : B} {d : EFiberBlocker F} (hi : Inv s)
    (hw : s.worker w = .swapOut f c) (hd : (s.blocker c).swapOut f = (d, true)) :
    Token.Move (token s b) (token ((s.setBlocker c d).setWorker w .head) b) := by
  obtain ⟨hz, rfl⟩ := EFiberBlocker.swapOut_hung.mp hd
  have hsub : ∀ g, g ∈ (s.blocker b).waitQueue →
      g ∈ (((s.setBlocker c { s.blocker c with
        waitQueue := (s.blocker c).waitQueue ++ [f] }).setWorker w .head).blocker b).waitQueue := by
    intro g hm
    by_cases hbc : b = c
    · subst b
      simp [hm]
    · simpa [hbc] using hm
  refine token_local (f := f) ?_ (fun g _ => hsub g) (fun _ _ => rfl) (fun _ _ => rfl)
    (fun g hg hd => ?_) fun ho => ?_
  · by_cases hbc : b = c <;> simp [hbc]
  · exact (hd.setWorker (p := .head) (by simp [hw]) (by simp [hw, Ne.symm hg])).congr rfl
  · rcases ho with h | ⟨k, h⟩ | ⟨k, h, hn, -⟩ | ⟨h, hn⟩
    · exact Or.inl h
    · exact Or.inr (Or.inl ⟨k, h⟩)
    · obtain ⟨loc, hl, hf⟩ := hi
      have hpl := hf.place f
      rw [(hl.held w f _).mpr ⟨hw, rfl⟩] at hpl
      obtain ⟨-, -, -, hp | ⟨k', hp⟩⟩ := hpl
      · exact nomatch hp.symm.trans h
      · obtain rfl := (FiberPc.parked.inj (hp.symm.trans h)).1
        exact (hn (by simp)).elim
    · exact Or.inr (Or.inr (Or.inr ⟨h, fun hm => hn (hsub f hm)⟩))

theorem token_keepPc [DecidableEq F]
    {u : EFiber B W → EFiber B W} (hu : (u (s.fiber f)).pc = (s.fiber f).pc) :
    Token.Move (token s b) (token (s.modFiber f u) b) :=
  token_setPc fun ho => ho.back rfl (by simpa using hu) id fun _ _ hd => hd.congr rfl

theorem token_dispatch [DecidableEq F] [DecidableEq W] (hw : s.worker w = .polled f) :
    Token.Move (token s b) (token ((s.modFiber f (.bind w)).setWorker w (.running f)) b) := by
  refine token_frame (Nat.le_refl _) rfl rfl (fun g => ?_) fun g k _ hd => ?_
  · by_cases hgf : g = f
    · subst g
      simp [EFiber.bind]
    · simp [hgf]
  · exact (hd.setWorker (p := .running f) (by simp [hw]) (by simp [hw])).congr rfl

theorem token_tryWait [DecidableEq F] [DecidableEq B]
    {c : B} {d : EFiberBlocker F} (hp : (s.fiber f).pc = .user)
    (hd : (s.blocker c).tryWait = (d, true)) :
    Token.Move (token s b) (token ((s.setBlocker c d).setHeld f c true) b) := by
  obtain ⟨hpos, rfl⟩ := EFiberBlocker.tryWait_true.mp hd
  by_cases hbc : b = c
  · subst b
    refine token_take (f := f) ?_ (by simp) (fun g hg => by simp [hg]) (fun _ _ => rfl)
      fun _ _ => id
    simp only [State.setBlocker, State.setHeld, Function.update_self]
    omega
  · refine token_local (f := f) (by simp [hbc]) (by simp [hbc]) (fun g hg => by simp [hg])
      (fun _ _ => rfl) (fun _ _ => id) fun ho => ?_
    rw [owns_iff_held (by simp [hp]) (by simp [hp]) (by simp [hp])] at ho
    exact Or.inl (by simpa [hbc] using ho)

theorem token_threadTryWait [DecidableEq B] {c : B} {d : EFiberBlocker F} {r : Bool}
    (hd : (s.blocker c).tryWait = (d, r)) :
    Token.Move (token s b) (token (s.setBlocker c d) b) := by
  refine token_frame ?_ ?_ rfl (fun _ => rfl) fun _ _ _ => id
  · by_cases hbc : b = c
    · subst b
      cases r with
      | true => simp [(EFiberBlocker.tryWait_true.mp hd).2]
      | false => simp [(EFiberBlocker.tryWait_false.mp hd).2]
    · simp [hbc]
  · by_cases hbc : b = c
    · subst b
      simpa using tryWait_waitQueue hd
    · simp [hbc]

theorem token_check [DecidableEq F] [DecidableEq B]
    {c : B} {d : EFiberBlocker F} (hd : (s.blocker c).tryWait = (d, false)) :
    Token.Move (token s b)
      (token ((s.setBlocker c d).modFiber f (.setPc (.checked c k))) b) := by
  obtain ⟨-, rfl⟩ := EFiberBlocker.tryWait_false.mp hd
  rw [State.setBlocker, Function.update_eq_self]
  refine token_setPc fun ho => ?_
  rw [owns_iff_held (by simp [EFiber.setPc]) (by simp [EFiber.setPc])
    (by simp [EFiber.setPc])] at ho
  exact Or.inl ho

theorem token_timedOut [DecidableEq F]
    {c : B} {u : EFiber B W → EFiber B W} (hi : Inv s) (ha : s.Active w f)
    (hp : (s.fiber f).pc = .parked c k ∨ (s.fiber f).pc = .granted c k)
    (hu : (u (s.fiber f)).pc = .removing c) :
    Token.Move (token s b) (token (s.modFiber f u) b) := by
  refine token_setPc fun ho => ?_
  rcases ho with h | ⟨k, h⟩ | ⟨k, h, -⟩ | ⟨h, hn⟩
  · exact Or.inl h
  · simp [hu] at h
  · simp [hu] at h
  · obtain rfl : c = b := by simpa [hu] using h
    rcases hp with hp | hp
    · exact Or.inr (Or.inr (Or.inl ⟨k, hp, hn, hi.not_departing ha⟩))
    · exact Or.inr (Or.inl ⟨k, hp⟩)

theorem token_remove [DecidableEq F] [DecidableEq B]
    {c : B} {d : EFiberBlocker F} {r : Bool} {h : F → B → Bool}
    (hp : (s.fiber f).pc = .removing c) (hd : (s.blocker c).remove f = (d, r))
    (hh : ∀ g, g ≠ f → h g b = s.held g b)
    (hf : h f b = true → s.held f b = true ∨ b = c ∧ r = false) :
    Token.Move (token s b)
      (token { (s.setBlocker c d).modFiber f (.setPc .user) with held := h } b) := by
  obtain ⟨rfl, rfl⟩ := Prod.mk.inj hd
  refine token_local (f := f) ?_ (fun g hg hm => ?_) hh (fun g hg => by simp [hg])
    (fun _ _ => id) fun ho => ?_
  · by_cases hbc : b = c <;> simp [hbc]
  · by_cases hbc : b = c
    · subst b
      simpa [hg] using hm
    · simpa [hbc] using hm
  · rw [owns_iff_held (by simp [EFiber.setPc]) (by simp [EFiber.setPc])
      (by simp [EFiber.setPc])] at ho
    rcases hf ho with hs | ⟨rfl, hn⟩
    · exact Or.inl hs
    · exact Or.inr (Or.inr (Or.inr ⟨hp, by simpa using hn⟩))

/-- Every step of the scheduler is a move of the token of every mutex. -/
theorem token_step [DecidableEq F] [DecidableEq W] [DecidableEq B] [DecidableEq T]
    (h : Step s act t) (hg : UnlocksHeld s act) (hi : Inv s) :
    Token.Move (token s b) (token t b) := by
  cases h with
  | schedule => exact token_keepPc (u := .schedule) rfl
  | poll hw _ => exact token_stage fun f k _ => Or.inl (by simp [hw])
  | pollEmpty hw _ => exact token_stage fun f k _ => Or.inl (by simp [hw])
  | endIdle hw _ => exact token_stage fun f k _ => Or.inl (by simp [hw])
  | timer =>
    rw [token_swapIn]
    exact token_keepPc rfl
  | fileEvent | swapIn =>
    rw [token_swapIn]
    exact .stay (Nat.le_refl _) fun _ => id
  | dispatch hw _ => exact token_dispatch hw
  | yield ha _ => exact token_stage fun f k _ => Or.inl (by simp [ha.1])
  | finish ha _ =>
    exact token_leave ha (by simp [EFiber.terminate]) (by simp [EFiber.terminate])
  | tryWait _ hp hd => exact token_tryWait hp hd
  | tryWaitFail _ _ hd => exact token_threadTryWait hd
  | threadTryWait _ hd => exact token_threadTryWait hd
  | check _ _ hd => exact token_check hd
  | block ha _ => exact token_leave ha (by simp [EFiber.block]) (by simp [EFiber.block])
  | waitReturn ha hp => exact token_return rfl (hi.owns_returning ha hp (Or.inl rfl))
  | tryWaitReturn ha hp ht => exact token_return rfl (hi.owns_returning ha hp (Or.inr ht))
  | timedOut ha hp _ => exact token_timedOut hi ha hp rfl
  | removeTrue _ hp hd => exact token_remove hp hd (fun _ _ => rfl) Or.inl
  | @removeFalse w f c d _ hp hd =>
    refine token_remove hp hd (fun g hg => by simp [hg]) fun h => ?_
    by_cases hbc : b = c
    · exact Or.inr ⟨hbc, rfl⟩
    · exact Or.inl (by simpa [hbc] using h)
  | sleep ha _ => exact token_leave ha (by simp [EFiber.sleep]) (by simp [EFiber.sleep])
  | sleepReturn =>
    refine token_setPc fun ho => ?_
    rw [owns_iff_held (by simp [EFiber.setPc]) (by simp [EFiber.setPc])
      (by simp [EFiber.setPc])] at ho
    exact Or.inl ho
  | pollEvents ha _ =>
    exact token_leave ha (by simp [EFiber.pollEvents]) (by simp [EFiber.pollEvents])
  | pollReturn =>
    refine token_setPc fun ho => ?_
    rw [owns_iff_held (by simp [EFiber.pollDone]) (by simp [EFiber.pollDone])
      (by simp [EFiber.pollDone])] at ho
    exact Or.inl ho
  | switchRunnable hw hs =>
    refine token_stage fun g k hp => Or.inl ⟨fun h => ?_, by simp [hw]⟩
    obtain rfl := WorkerPc.switching.inj (hw.symm.trans h)
    exact FiberState.noConfusion (hs.symm.trans (hi.blocked_of_switching hw hp))
  | @switchBlocked w f c hw _ _ =>
    refine token_stage fun g k _ => ?_
    by_cases hgf : g = f
    · exact Or.inr ⟨c, by rw [hgf]⟩
    · exact Or.inl (by simp [hw, Ne.symm hgf])
  | switchOther hw _ hs =>
    refine token_stage fun g k hp => Or.inl ⟨fun h => ?_, by simp [hw]⟩
    obtain rfl := WorkerPc.switching.inj (hw.symm.trans h)
    exact hs (hi.blocked_of_switching hw hp)
  | swapOutPermit hw hd => exact token_swapOutPermit hi hw hd
  | swapOutHung hw hd => exact token_swapOutHung hi hw hd
  | @requeue w f hw =>
    exact token_stage (s := s.add w f) fun g k _ => Or.inl (by simp [hw])
  | @wakeUpRefused a c d ha hd =>
    cases a with
    | fiber f =>
      obtain ⟨-, -, rfl⟩ := EFiberBlocker.wakeUp_refused.mp hd
      exact token_wakeUp ha.2 hg rfl (Nat.le_succ _)
    | worker w | thread x => exact hg.elim
  | @wakeUpCounted a c d ha hd =>
    cases a with
    | fiber f =>
      obtain ⟨-, -, rfl⟩ := EFiberBlocker.wakeUp_counted.mp hd
      exact token_wakeUp ha.2 hg rfl (Nat.le_refl _)
    | worker w | thread x => exact hg.elim
  | @wakeUpWaiter a c d g ha hd =>
    cases a with
    | fiber f => exact token_wakeUpWaiter ha hg hd
    | worker w | thread x => exact hg.elim
  | write => exact token_keepPc (u := EFiber.swapIn) rfl
  | add => exact .stay (Nat.le_refl _) fun _ => id

theorem single_initial : Token.Single (token (mutexes : State F W B T) b) := by
  refine ⟨Nat.le_refl _, fun _ f => ?_, fun f g hf => ?_⟩
  · simp [token, mutexes, initial, Owns, EFiber.create]
  · simp [token, mutexes, initial, Owns, EFiber.create] at hf

variable [DecidableEq F] [DecidableEq W] [DecidableEq B] [DecidableEq T]

/-- Fibers that unlock only what they hold, and resumes that do not come late. -/
def MutexUse (s : State F W B T) (act : Act F W B T) : Prop := UnlocksHeld s act ∧ OnTime s act

theorem mutual_exclusion (h : Run (Guarded MutexUse Step) mutexes acts s) :
    MutuallyExclusive s := by
  have hboth : Inv s ∧ ∀ b, Token.Single (token s b) := by
    refine h.invariant (I := fun s => Inv s ∧ ∀ b, Token.Single (token s b))
      (fun _ _ _ hi hs => ?_) ⟨inv_initial _ _, fun _ => single_initial⟩
    exact ⟨inv_step hs.2 hs.1.2 hi.1,
      fun b => Token.single_step (token_step hs.2 hs.1.1 hi.1) (hi.2 b)⟩
  exact fun b f g hf hg => (hboth.2 b).unique f g (Or.inl hf) (Or.inl hg)

/-- Two fibers, one mutex: the second is hung until the first unlocks. -/
theorem mutual_exclusion_handover : ∃ s : State (Fin 2) Unit Unit Unit,
    s.held 0 () = false ∧ s.held 1 () = true ∧ MutuallyExclusive s := by
  refine ⟨_, ?_, ?_, mutual_exclusion <|
    .guard (.schedule (s := mutexes) (f := 0) (w := ()) rfl) ⟨trivial, trivial, trivial⟩ <|
    .guard (.schedule (f := 1) (w := ()) rfl) ⟨trivial, trivial, trivial⟩ <|
    .guard (.poll (w := ()) rfl rfl) ⟨trivial, trivial, trivial⟩ <|
    .guard (.dispatch (w := ()) rfl rfl) ⟨trivial, trivial, trivial⟩ <|
    .guard (.tryWait (w := ()) (f := 0) (b := ()) ⟨rfl, rfl⟩ rfl rfl) ⟨trivial, trivial, trivial⟩ <|
    .guard (.yield (w := ()) (f := 0) ⟨rfl, rfl⟩ rfl) ⟨trivial, trivial, trivial⟩ <|
    .guard (.switchRunnable (w := ()) rfl rfl) ⟨trivial, trivial, trivial⟩ <|
    .guard (.requeue (w := ()) rfl) ⟨trivial, trivial, trivial⟩ <|
    .guard (.poll (w := ()) rfl rfl) ⟨trivial, trivial, trivial⟩ <|
    .guard (.dispatch (w := ()) rfl rfl) ⟨trivial, trivial, trivial⟩ <|
    .guard (.check (w := ()) (f := 1) (b := ()) (k := .wait) ⟨rfl, rfl⟩ rfl rfl)
      ⟨trivial, trivial, trivial⟩ <|
    .guard (.block (w := ()) (f := 1) ⟨rfl, rfl⟩ rfl) ⟨trivial, trivial, trivial⟩ <|
    .guard (.switchBlocked (w := ()) rfl rfl rfl) ⟨trivial, trivial, trivial⟩ <|
    .guard (.swapOutHung (w := ()) rfl rfl) ⟨trivial, trivial, trivial⟩ <|
    .guard (.poll (w := ()) rfl rfl) ⟨trivial, trivial, trivial⟩ <|
    .guard (.dispatch (w := ()) rfl rfl) ⟨trivial, trivial, trivial⟩ <|
    .guard (.wakeUpWaiter (a := .fiber 0) (b := ()) ⟨⟨(), rfl, rfl⟩, rfl⟩ rfl)
      ⟨rfl, trivial, trivial⟩ <|
    .guard (.swapIn (a := .fiber 0) rfl) ⟨trivial, fun _ _ h _ => by cases h; rfl,
      fun _ _ _ _ => untested_of_owed rfl fun _ => rfl⟩ <|
    .guard (.write (a := .fiber 0) rfl) ⟨trivial, trivial, trivial⟩ <|
    .guard (.add (a := .fiber 0) (v := ()) rfl rfl) ⟨trivial, trivial, trivial⟩ <|
    .guard (.finish (w := ()) (f := 0) ⟨rfl, rfl⟩ rfl) ⟨trivial, trivial, trivial⟩ <|
    .guard (.switchOther (w := ()) rfl nofun nofun) ⟨trivial, trivial, trivial⟩ <|
    .guard (.poll (w := ()) rfl rfl) ⟨trivial, trivial, trivial⟩ <|
    .guard (.dispatch (w := ()) rfl rfl) ⟨trivial, trivial, trivial⟩ <|
    .guard (.waitReturn (w := ()) (f := 1) (b := ()) ⟨rfl, rfl⟩ (Or.inl rfl))
      ⟨trivial, trivial, trivial⟩ .refl⟩
  · rfl
  · rfl

/-- Fiber 2 is dequeued from mutex 0, and times out before the `swapIn` that fiber 1 owes it is
done; the rest of that `swapIn` then reaches it in `lock` of mutex 1, which fiber 0 holds. Fiber 1
has stopped before its test, or between its test and its writes. -/
theorem mutual_exclusion_fails : (∃ s : State (Fin 3) (Fin 2) (Fin 2) Unit,
    Reachable (Guarded (fun s act => UnlocksHeld s act ∧ Alone s act) Step) mutexes s ∧
      ¬ MutuallyExclusive s) ∧
    ∃ s : State (Fin 3) (Fin 2) (Fin 2) Unit,
      Reachable (Guarded (fun s act => UnlocksHeld s act ∧ InTime s act) Step) mutexes s ∧
        ¬ MutuallyExclusive s := by
  refine ⟨⟨_, ⟨_,
    .guard (.schedule (f := 0) (w := 0) rfl) ⟨trivial, trivial⟩ <|
    .guard (.schedule (f := 2) (w := 0) rfl) ⟨trivial, trivial⟩ <|
    .guard (.schedule (f := 1) (w := 1) rfl) ⟨trivial, trivial⟩ <|
    .guard (.poll (w := 0) rfl rfl) ⟨trivial, trivial⟩ <|
    .guard (.dispatch (w := 0) rfl rfl) ⟨trivial, trivial⟩ <|
    .guard (.tryWait (w := 0) (f := 0) (b := 1) ⟨rfl, rfl⟩ rfl rfl) ⟨trivial, trivial⟩ <|
    .guard (.sleep (w := 0) (f := 0) ⟨rfl, rfl⟩ rfl) ⟨trivial, trivial⟩ <|
    .guard (.switchOther (w := 0) rfl nofun nofun) ⟨trivial, trivial⟩ <|
    .guard (.poll (w := 1) rfl rfl) ⟨trivial, trivial⟩ <|
    .guard (.dispatch (w := 1) rfl rfl) ⟨trivial, trivial⟩ <|
    .guard (.tryWait (w := 1) (f := 1) (b := 0) ⟨rfl, rfl⟩ rfl rfl) ⟨trivial, trivial⟩ <|
    .guard (.poll (w := 0) rfl rfl) ⟨trivial, trivial⟩ <|
    .guard (.dispatch (w := 0) rfl rfl) ⟨trivial, trivial⟩ <|
    .guard (.check (w := 0) (f := 2) (b := 0) (k := .tryWait true) ⟨rfl, rfl⟩ rfl rfl)
      ⟨trivial, trivial⟩ <|
    .guard (.block (w := 0) (f := 2) ⟨rfl, rfl⟩ rfl) ⟨trivial, trivial⟩ <|
    .guard (.switchBlocked (w := 0) rfl rfl rfl) ⟨trivial, trivial⟩ <|
    .guard (.swapOutHung (w := 0) rfl rfl) ⟨trivial, trivial⟩ <|
    .guard (.wakeUpWaiter (a := .fiber 1) (b := 0) ⟨⟨1, rfl, rfl⟩, rfl⟩ rfl) ⟨rfl, trivial⟩ <|
    .guard (.pollEmpty (w := 0) rfl rfl) ⟨trivial, trivial⟩ <|
    .guard (.timer (w := 0) (f := 2) ⟨Or.inl rfl, rfl⟩ rfl)
      ⟨trivial, untested_of_owed rfl fun _ => rfl⟩ <|
    .guard (.write (a := .worker 0) rfl) ⟨trivial, trivial⟩ <|
    .guard (.add (a := .worker 0) (v := 0) rfl rfl) ⟨trivial, trivial⟩ <|
    .guard (.endIdle (w := 0) rfl rfl) ⟨trivial, trivial⟩ <|
    .guard (.poll (w := 0) rfl rfl) ⟨trivial, trivial⟩ <|
    .guard (.dispatch (w := 0) rfl rfl) ⟨trivial, trivial⟩ <|
    .guard (.timedOut (w := 0) (f := 2) (b := 0) ⟨rfl, rfl⟩ (Or.inl rfl) rfl) ⟨trivial, trivial⟩ <|
    .guard (.removeFalse (w := 0) (f := 2) (b := 0) ⟨rfl, rfl⟩ rfl rfl) ⟨trivial, trivial⟩ <|
    .guard (.check (w := 0) (f := 2) (b := 1) (k := .wait) ⟨rfl, rfl⟩ rfl rfl) ⟨trivial, trivial⟩ <|
    .guard (.block (w := 0) (f := 2) ⟨rfl, rfl⟩ rfl) ⟨trivial, trivial⟩ <|
    .guard (.switchBlocked (w := 0) rfl rfl rfl) ⟨trivial, trivial⟩ <|
    .guard (.swapOutHung (w := 0) rfl rfl) ⟨trivial, trivial⟩ <|
    .guard (.swapIn (a := .fiber 1) rfl) ⟨trivial, ?_⟩ <|
    .guard (.write (a := .fiber 1) rfl) ⟨trivial, trivial⟩ <|
    .guard (.add (a := .fiber 1) (v := 0) rfl rfl) ⟨trivial, trivial⟩ <|
    .guard (.poll (w := 0) rfl rfl) ⟨trivial, trivial⟩ <|
    .guard (.dispatch (w := 0) rfl rfl) ⟨trivial, trivial⟩ <|
    .guard (.waitReturn (w := 0) (f := 2) (b := 1) ⟨rfl, rfl⟩ (Or.inl rfl))
      ⟨trivial, trivial⟩ .refl⟩,
    fun h => ?_⟩, ⟨_, ⟨_,
    .guard (.schedule (f := 0) (w := 0) rfl) ⟨trivial, trivial⟩ <|
    .guard (.schedule (f := 2) (w := 0) rfl) ⟨trivial, trivial⟩ <|
    .guard (.schedule (f := 1) (w := 1) rfl) ⟨trivial, trivial⟩ <|
    .guard (.poll (w := 0) rfl rfl) ⟨trivial, trivial⟩ <|
    .guard (.dispatch (w := 0) rfl rfl) ⟨trivial, trivial⟩ <|
    .guard (.tryWait (w := 0) (f := 0) (b := 1) ⟨rfl, rfl⟩ rfl rfl) ⟨trivial, trivial⟩ <|
    .guard (.sleep (w := 0) (f := 0) ⟨rfl, rfl⟩ rfl) ⟨trivial, trivial⟩ <|
    .guard (.switchOther (w := 0) rfl nofun nofun) ⟨trivial, trivial⟩ <|
    .guard (.poll (w := 1) rfl rfl) ⟨trivial, trivial⟩ <|
    .guard (.dispatch (w := 1) rfl rfl) ⟨trivial, trivial⟩ <|
    .guard (.tryWait (w := 1) (f := 1) (b := 0) ⟨rfl, rfl⟩ rfl rfl) ⟨trivial, trivial⟩ <|
    .guard (.poll (w := 0) rfl rfl) ⟨trivial, trivial⟩ <|
    .guard (.dispatch (w := 0) rfl rfl) ⟨trivial, trivial⟩ <|
    .guard (.check (w := 0) (f := 2) (b := 0) (k := .tryWait true) ⟨rfl, rfl⟩ rfl rfl)
      ⟨trivial, trivial⟩ <|
    .guard (.block (w := 0) (f := 2) ⟨rfl, rfl⟩ rfl) ⟨trivial, trivial⟩ <|
    .guard (.switchBlocked (w := 0) rfl rfl rfl) ⟨trivial, trivial⟩ <|
    .guard (.swapOutHung (w := 0) rfl rfl) ⟨trivial, trivial⟩ <|
    .guard (.wakeUpWaiter (a := .fiber 1) (b := 0) ⟨⟨1, rfl, rfl⟩, rfl⟩ rfl) ⟨rfl, trivial⟩ <|
    .guard (.swapIn (a := .fiber 1) rfl) ⟨trivial, fun _ _ h _ => by cases h; rfl⟩ <|
    .guard (.pollEmpty (w := 0) rfl rfl) ⟨trivial, trivial⟩ <|
    .guard (.timer (w := 0) (f := 2) ⟨Or.inl rfl, rfl⟩ rfl) ⟨trivial, nofun⟩ <|
    .guard (.write (a := .worker 0) rfl) ⟨trivial, trivial⟩ <|
    .guard (.add (a := .worker 0) (v := 0) rfl rfl) ⟨trivial, trivial⟩ <|
    .guard (.endIdle (w := 0) rfl rfl) ⟨trivial, trivial⟩ <|
    .guard (.poll (w := 0) rfl rfl) ⟨trivial, trivial⟩ <|
    .guard (.dispatch (w := 0) rfl rfl) ⟨trivial, trivial⟩ <|
    .guard (.timedOut (w := 0) (f := 2) (b := 0) ⟨rfl, rfl⟩ (Or.inl rfl) rfl) ⟨trivial, trivial⟩ <|
    .guard (.removeFalse (w := 0) (f := 2) (b := 0) ⟨rfl, rfl⟩ rfl rfl) ⟨trivial, trivial⟩ <|
    .guard (.check (w := 0) (f := 2) (b := 1) (k := .wait) ⟨rfl, rfl⟩ rfl rfl) ⟨trivial, trivial⟩ <|
    .guard (.block (w := 0) (f := 2) ⟨rfl, rfl⟩ rfl) ⟨trivial, trivial⟩ <|
    .guard (.switchBlocked (w := 0) rfl rfl rfl) ⟨trivial, trivial⟩ <|
    .guard (.swapOutHung (w := 0) rfl rfl) ⟨trivial, trivial⟩ <|
    .guard (.write (a := .fiber 1) rfl) ⟨trivial, trivial⟩ <|
    .guard (.add (a := .fiber 1) (v := 0) rfl rfl) ⟨trivial, trivial⟩ <|
    .guard (.poll (w := 0) rfl rfl) ⟨trivial, trivial⟩ <|
    .guard (.dispatch (w := 0) rfl rfl) ⟨trivial, trivial⟩ <|
    .guard (.waitReturn (w := 0) (f := 2) (b := 1) ⟨rfl, rfl⟩ (Or.inl rfl))
      ⟨trivial, trivial⟩ .refl⟩,
    fun h => ?_⟩⟩
  · -- nobody is inside `swapIn` but fiber 1, which is at its test
    rintro g n - - (w | f | t) hx
    · obtain rfl | rfl := Fin.exists_fin_two.mp ⟨w, rfl⟩ <;> cases hx
    · obtain rfl | rfl | rfl : f = 0 ∨ f = 1 ∨ f = 2 := by omega
      all_goals cases hx
    · cases hx
  · exact absurd (h 1 0 2 rfl rfl) (by decide)
  · exact absurd (h 1 0 2 rfl rfl) (by decide)

end CxxFiber.Scheduler
