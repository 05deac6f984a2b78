import CxxFiber.EContext.Invariant
import CxxFiber.Library.Coroutine

/-! What is switched away from is left in a buffer of its own until it is switched back to: threads
and fibers are coroutines. -/
namespace CxxFiber.EContext

open ByteMemory Transition

variable {T F : Type} [DecidableEq T] [DecidableEq F] {l : Labels} {s t : State T F} {u v : T}
  {f g : F} {c : EContext} {o a b : Word} {m : Bytes 64} {x y : T ⊕ F} {act : Act T F}
  {acts : List (Act T F)} {cpu : T → Cpu} {errno : T → ℤ} {mem : Bytes 64}

/-- Where the fiber goes on: at the start of `fiber_worker`, or where its buffer says. -/
def resumes (c : EContext) (m : Bytes 64) : Control × ℤ :=
  ((c.context.map Cpu.control).getD (frame m c.env), c.errno_)

/-- `errno` goes with a fiber, not with the code of a thread. -/
structure Refines (s : State T F) (k : Coroutine.State T F Control (Control × ℤ)) : Prop where
  active : ∀ u, k.active u = (s.place u).running
  own : ∀ u, (s.place u).running = none → k.own u = (s.cpu u).control
  waiting : ∀ u f o, (s.place u).running = some f → s.threadLocal u = some o →
    k.own u = frame s.mem o
  body : ∀ u f, (s.place u).running = some f →
    k.stored f = some ((s.cpu u).control, s.errno u)
  stored : ∀ f c, s.context f = some c → (∀ u, (s.place u).running ≠ some f) →
    k.stored f = some (resumes c s.mem)
  absent : ∀ f, s.context f = none → k.stored f = none

/-- All threads are in their own code, and there are no coroutines. -/
def start (cpu : T → Cpu) : Coroutine.State T F Control (Control × ℤ) :=
  ⟨fun u => (cpu u).control, fun _ => none, fun _ => none⟩

/-- What the coroutines see of a step. -/
def Act.switch : Act T F → List (Coroutine.Act T F (Control × ℤ))
  | .compute u => [.compute u]
  | .create f start e => [.create f (start.control, e)]
  | .destroy f => [.destroy f]
  | .swapIn u f _ => [.resume u f]
  | .swapOut u _ => [.suspend u]
  | .land _ | .cleanOrignContext _ => []

/-- The steps of coroutines that come back at the labels. -/
abbrev CoStep (l : Labels) :=
  Coroutine.Step (T := T) (F := F) (Control.goto l.swapIn)
    fun r : Control × ℤ => (r.1.goto l.swapOut, r.2)

/-- The low half of an address. -/
def low (o : Word) : BitVec 32 := o.setWidth 32

/-- No buffer of a thread lies at a multiple of 2 ^ 32. -/
def Usable (_ : State T F) : Act T F → Prop
  | .swapIn _ _ o => low o ≠ 0
  | _ => True

variable {k k' : Coroutine.State T F Control (Control × ℤ)}

section

omit [DecidableEq T] [DecidableEq F]

theorem refines_initial :
    Refines (initial cpu errno mem : State T F) (start cpu) where
  active _ := rfl
  own _ _ := rfl
  waiting u f o hu := by cases hu
  body u f hu := by cases hu
  stored f c hf := by cases hf
  absent _ _ := rfl

theorem frame_keeps (hm : s.KeepsBuffers m) (hx : s.buffer x = some a) :
    frame m a = frame s.mem a :=
  frame_congr fun i hi => hm x a hx i hi

theorem resumes_keeps (hm : s.KeepsBuffers m) (hf : s.context f = some c) :
    resumes c m = resumes c s.mem := by
  rw [resumes, resumes, frame_keeps hm (buffer_fiber hf)]

/-- `SETJMP` into one buffer keeps the others. -/
theorem keeps_setjmp {label : Word} {p : Machine} (ha : ∀ y b, y ≠ x → s.buffer y = some b →
    Apart a 80 b 80) (hy : y ≠ x) (hb : s.buffer y = some b) :
    frame (setjmp label a p).mem b = frame p.mem b :=
  frame_setjmp_apart (ha y b hy hb).symm

end

theorem refines_compute {e : ℤ} {d : Cpu} (hi : Inv s) (hr : Refines s k)
    (hp : s.place u = .own ∨ ∃ f, s.place u = .fiber f) (hm : s.KeepsBuffers m) :
    ∃ k', Run (CoStep l) k [.compute u] k' ∧
      Refines { (s.setCpu u d).setErrno u e with mem := m } k' := by
  rcases hp with hp | ⟨f, hp⟩
  · have ha : k.active u = none := by
      rw [hr.active, hp]
      rfl
    refine ⟨_, .step (.own (k := d.control) ha) .refl, hr.active, fun v hv => ?_,
      fun v g o hv ho => ?_,
      fun v g hv => ?_, fun g c hg hn => ?_, hr.absent⟩
    · by_cases hvu : v = u
      · simp [hvu]
      · simpa [hvu] using hr.own v hv
    · have hvu : v ≠ u := by
        rintro rfl
        change (s.place v).running = some g at hv
        rw [hp] at hv
        cases hv
      change _ = frame m o
      rw [frame_keeps hm (x := .inl v) ho]
      simpa [hvu] using hr.waiting v g o hv ho
    · have hvu : v ≠ u := by
        rintro rfl
        change (s.place v).running = some g at hv
        rw [hp] at hv
        cases hv
      simpa [hvu] using hr.body v g hv
    · change k.stored g = some (resumes c m)
      rw [resumes_keeps hm hg]
      exact hr.stored g c hg hn
  · have hrun : (s.place u).running = some f := congrArg Place.running hp
    have ha : k.active u = some f := (hr.active u).trans hrun
    refine ⟨_, .step (.body (l := (d.control, e)) ha) .refl, hr.active, fun v hv => ?_,
      fun v g o hv ho => ?_, fun v g hv => ?_, fun g c hg hn => ?_, fun g hg => ?_⟩
    · have hvu : v ≠ u := by
        rintro rfl
        change (s.place v).running = none at hv
        rw [hrun] at hv
        cases hv
      simpa [hvu] using hr.own v hv
    · change _ = frame m o
      rw [frame_keeps hm (x := .inl v) ho]
      exact hr.waiting v g o hv ho
    · change (s.place v).running = some g at hv
      by_cases hvu : v = u
      · subst v
        obtain rfl : f = g := Option.some.inj (hrun.symm.trans hv)
        simp
      · have hne : g ≠ f := by
          rintro rfl
          exact hvu (hi.exclusive v u g (running_eq hv) (running_eq hrun))
        simpa [hvu, hne] using hr.body v g hv
    · have hne : g ≠ f := by
        rintro rfl
        exact hn u hrun
      change Function.update k.stored f _ g = some (resumes c m)
      rw [resumes_keeps hm hg, Function.update_of_ne hne]
      exact hr.stored g c hg hn
    · obtain ⟨c, hc, -⟩ := hi.started u f (running_eq hrun)
      have hne : g ≠ f := by
        rintro rfl
        change s.context g = none at hg
        rw [hc] at hg
        cases hg
      simpa [hne] using hr.absent g hg

theorem refines_create {d : Cpu} {e : ℤ} (hi : Inv s) (hr : Refines s k)
    (hf : s.context f = none) : ∃ k', Run (CoStep l) k [.create f (d.control, e)] k' ∧
      Refines (s.setContext f (some ⟨a, some d, e⟩)) k' := by
  have hrun : ∀ u g, (s.place u).running = some g → g ≠ f := by
    rintro u g hu rfl
    obtain ⟨c, hc, -⟩ := hi.started u g (running_eq hu)
    rw [hf] at hc
    cases hc
  refine ⟨_, .step (.create (hr.absent f hf) fun u hu => ?_) .refl, hr.active, hr.own, hr.waiting,
    fun u g hu => ?_, fun g c hg hn => ?_, fun g hg => ?_⟩
  · rw [hr.active] at hu
    exact hrun u f hu rfl
  · simpa [hrun u g hu] using hr.body u g hu
  · by_cases hgf : g = f
    · subst g
      obtain rfl : ⟨a, some d, e⟩ = c := by simpa using hg
      simp [resumes]
    · simpa [hgf] using hr.stored g c (by simpa [hgf] using hg) hn
  · have hgf : g ≠ f := by
      rintro rfl
      simp at hg
    simpa [hgf] using hr.absent g (by simpa [hgf] using hg)

theorem refines_destroy (hr : Refines s k) (hf : s.Free f) :
    ∃ k', Run (CoStep l) k [.destroy f] k' ∧ Refines (s.setContext f none) k' := by
  have hrun : ∀ u g, (s.place u).running = some g → g ≠ f := by
    rintro u g hu rfl
    exact hf u (running_eq hu)
  refine ⟨_, .step (.destroy fun u hu => ?_) .refl, hr.active, hr.own, hr.waiting,
    fun u g hu => ?_, fun g c hg hn => ?_, fun g hg => ?_⟩
  · rw [hr.active] at hu
    exact hrun u f hu rfl
  · simpa [hrun u g hu] using hr.body u g hu
  · have hgf : g ≠ f := by
      rintro rfl
      simp at hg
    simpa [hgf] using hr.stored g c (by simpa [hgf] using hg) hn
  · by_cases hgf : g = f
    · simp [hgf]
    · simpa [hgf] using hr.absent g (by simpa [hgf] using hg)

theorem refines_swapIn (hi : Inv s) (hr : Refines s k) (hp : s.place u = .own) (hu : s.Free f)
    (hf : s.context f = some c) (ho : s.Orign u o) :
    ∃ k', Run (CoStep l) k [.resume u f] k' ∧ Refines (s.swapIn l u f c o) k' := by
  have hown : (s.place u).running = none := by
    rw [hp]
    rfl
  have hnot : ∀ v, (s.place v).running ≠ some f := fun v hv => hu v (running_eq hv)
  have hstored := hr.stored f c hf hnot
  have hplace : ((s.swapIn l u f c o).place u).running = some f := by
    rw [swapIn_place, Function.update_self]
    split <;> rfl
  have hother : ∀ v, v ≠ u → (s.swapIn l u f c o).place v = s.place v := by
    intro v hv
    rw [swapIn_place, Function.update_of_ne hv]
  -- every other buffer is as before
  have hkeep : ∀ y b, y ≠ .inl u → s.buffer y = some b →
      frame (s.swapIn l u f c o).mem b = frame s.mem b := by
    intro y b hy hb
    rw [swapIn_mem]
    exact keeps_setjmp (x := .inl u) (fun z b hz hb => hi.separate.orign ho hz hb) hy hb
  refine ⟨_, .step (.resume ((hr.active u).trans hown) (fun v => ?_) ?_) .refl, fun v => ?_,
    fun v hv => ?_, fun v g b hv hb => ?_, fun v g hv => ?_, fun g d hg hn => ?_, fun g hg => ?_⟩
  · rw [hr.active]
    exact hnot v
  · simp [hstored]
  · by_cases hvu : v = u
    · subst v
      simp [hplace]
    · simpa [hvu, hother v hvu] using hr.active v
  · have hvu : v ≠ u := by
      rintro rfl
      rw [hplace] at hv
      cases hv
    rw [hother v hvu] at hv
    simpa [hvu, swapIn_cpu] using hr.own v hv
  · by_cases hvu : v = u
    · subst v
      obtain rfl : o = b := by simpa [swapIn_threadLocal] using hb
      rw [swapIn_mem, frame_setjmp]
      simp [hr.own u hown]
    · rw [hother v hvu] at hv
      have hb : s.threadLocal v = some b := by simpa [swapIn_threadLocal, hvu] using hb
      rw [hkeep (.inl v) b (by simpa using hvu) hb]
      simpa [hvu] using hr.waiting v g b hv hb
  · by_cases hvu : v = u
    · subst v
      obtain rfl : f = g := Option.some.inj (hplace.symm.trans hv)
      have hbuf := hkeep (.inr f) c.env (by simp) (buffer_fiber hf)
      rw [swapIn_mem] at hbuf
      simp only [hstored, resumes, swapIn_cpu, swapIn_errno, Function.update_self]
      cases c.context with
      | some d => rfl
      | none => simp [control_longjmp, hbuf]
    · rw [hother v hvu] at hv
      simpa [hvu, swapIn_cpu, swapIn_errno] using hr.body v g hv
  · have hgf : g ≠ f := by
      rintro rfl
      exact hn u hplace
    have hg : s.context g = some d := by simpa [swapIn_context hf, hgf] using hg
    have hno : ∀ v, (s.place v).running ≠ some g := by
      intro v hv
      have hvu : v ≠ u := by
        rintro rfl
        rw [hown] at hv
        cases hv
      exact hn v (by rw [hother v hvu, hv])
    rw [resumes, hkeep (.inr g) d.env (by simp) (buffer_fiber hg)]
    exact hr.stored g d hg hno
  · have hgf : g ≠ f := by
      rintro rfl
      simp [swapIn_context hf] at hg
    exact hr.absent g (by simpa [swapIn_context hf, hgf] using hg)

theorem refines_swapOut (hi : Inv s) (hr : Refines s k) (hp : s.place u = .fiber f)
    (hf : s.context f = some c) (ho : s.Orign u o) :
    ∃ k', Run (CoStep l) k [.suspend u] k' ∧ Refines (s.swapOut l u f c o) k' := by
  have hrun : (s.place u).running = some f := congrArg Place.running hp
  have hlocal : s.threadLocal u = some o := by
    obtain ⟨b, hb⟩ := hi.orign u f (running_eq hrun)
    rcases ho with ho | ⟨ho, _⟩
    · exact ho
    · simp [hb] at ho
  obtain ⟨c', hc', hn⟩ := hi.started u f (running_eq hrun)
  obtain rfl : c = c' := Option.some.inj (hf.symm.trans hc')
  have hplace : (s.swapOut l u f c o).place u = .inSwapIn f := by
    simp [State.swapOut, State.leave]
  have hother : ∀ v, v ≠ u → (s.swapOut l u f c o).place v = s.place v := by
    intro v hv
    simp [State.swapOut, State.leave, State.jump, State.save, hv]
  have hsole : ∀ v, (s.place v).running = some f → v = u := fun v hv =>
    hi.exclusive v u f (running_eq hv) (running_eq hrun)
  have hlocals : (s.swapOut l u f c o).threadLocal = s.threadLocal := by
    change Function.update s.threadLocal u (some o) = _
    rw [← hlocal, Function.update_eq_self]
  have hcontext : (s.swapOut l u f c o).context =
      Function.update s.context f (some { c with errno_ := s.errno u }) := rfl
  have hkeep : ∀ y b, y ≠ .inr f → s.buffer y = some b →
      frame (s.swapOut l u f c o).mem b = frame s.mem b := by
    intro y b hy hb
    rw [swapOut_mem]
    exact keeps_setjmp (x := .inr f)
      (fun z b hz hb => hi.separate (.inr f) z c.env b (buffer_fiber hf) hb (Ne.symm hz)) hy hb
  refine ⟨_, .step (.suspend ((hr.active u).trans hrun) (hr.body u f hrun)) .refl, fun v => ?_,
    fun v hv => ?_, fun v g b hv hb => ?_, fun v g hv => ?_, fun g d hg hno => ?_, fun g hg => ?_⟩
  · by_cases hvu : v = u
    · subst v
      simp [hplace, Place.running]
    · simpa [hvu, hother v hvu] using hr.active v
  · by_cases hvu : v = u
    · subst v
      have hbuf := hkeep (.inl u) o (by simp) hlocal
      rw [swapOut_mem] at hbuf
      rw [swapOut_cpu, Function.update_self, control_longjmp, hbuf]
      exact hr.waiting u f o hrun hlocal
    · rw [hother v hvu] at hv
      simpa [hvu, swapOut_cpu] using hr.own v hv
  · have hvu : v ≠ u := by
      rintro rfl
      rw [hplace] at hv
      cases hv
    rw [hother v hvu] at hv
    rw [hlocals] at hb
    rw [hkeep (.inl v) b (by simp) hb]
    exact hr.waiting v g b hv hb
  · have hvu : v ≠ u := by
      rintro rfl
      rw [hplace] at hv
      cases hv
    rw [hother v hvu] at hv
    have hgf : g ≠ f := by
      rintro rfl
      exact hvu (hsole v hv)
    have herrno : (s.swapOut l u f c o).errno = s.errno := rfl
    simpa [hvu, hgf, swapOut_cpu, herrno] using hr.body v g hv
  · by_cases hgf : g = f
    · subst g
      obtain rfl : { c with errno_ := s.errno u } = d := by simpa [hcontext] using hg
      simp [resumes, hn, swapOut_mem, frame_setjmp]
    · have hg : s.context g = some d := by simpa [hcontext, hgf] using hg
      have hno' : ∀ v, (s.place v).running ≠ some g := by
        intro v hv
        by_cases hvu : v = u
        · subst v
          exact hgf (Option.some.inj (hrun.symm.trans hv)).symm
        · exact hno v (by rw [hother v hvu, hv])
      rw [resumes, hkeep (.inr g) d.env (by simpa using hgf) (buffer_fiber hg)]
      simpa [hgf, resumes] using hr.stored g d hg hno'
  · have hgf : g ≠ f := by
      rintro rfl
      simp [hcontext] at hg
    simpa [hgf] using hr.absent g (by simpa [hcontext, hgf] using hg)

/-- No buffer of a thread in use has a low half that is zero. -/
def LowHalves (s : State T F) : Prop := ∀ u o, s.threadLocal u = some o → low o ≠ 0

section

omit [DecidableEq T] [DecidableEq F]

theorem ret_back (hi : Inv s) (hp : s.place u = .inSwapIn f) (ho : s.threadLocal u = some o) :
    ret (s.cpu u) = low o := by
  rw [ret, hi.back u f o hp ho, low]

/-- The buffer of a fiber is 8 bytes behind a multiple of 16, and so its low half is not zero. -/
theorem ret_there (hi : Inv s) (hp : s.place u = .inSwapOut f) : ret (s.cpu u) ≠ 0 := by
  obtain ⟨c, hc, -⟩ := hi.started u f (congrArg Place.fiber? hp)
  have hal := hi.aligned f c hc
  rw [ret, hi.there u f c hp hc]
  intro hz
  have hnat := congrArg BitVec.toNat hz
  simp at hnat
  omega

end

theorem lowHalves_step (h : Guarded Usable (Step l) s act t) (hi : Inv s) (hl : LowHalves s) :
    LowHalves t := by
  obtain ⟨hg, hst⟩ := h
  have hset : ∀ u o v b, low o ≠ 0 → Function.update s.threadLocal u (some o) v = some b →
      low b ≠ 0 := by
    intro u o v b ho hb
    by_cases hvu : v = u
    · subst v
      obtain rfl : o = b := by simpa using hb
      exact ho
    · exact hl v b (by simpa [hvu] using hb)
  cases hst with
  | compute _ _ | create _ _ _ | destroy _ | returnIn _ _ | returnOut _ _ | leaveAgain _ _ _ =>
    exact hl
  | swapIn _ _ _ _ =>
    intro v b hb
    rw [swapIn_threadLocal] at hb
    exact hset _ _ v b hg hb
  | @swapOut u f c o hp _ ho =>
    intro v b hb
    obtain ⟨o', ho'⟩ := hi.orign u f (congrArg Place.fiber? hp)
    refine hset u o v b ?_ hb
    rcases ho with ho | ⟨ho, _⟩
    · exact hl u o ho
    · simp [ho'] at ho
  | @enterAgain u f c _ _ _ =>
    have henter : (s.enter u f c).threadLocal = s.threadLocal := by
      unfold State.enter
      cases c.context <;> rfl
    rw [LowHalves, henter]
    exact hl
  | @cleanOrignContext u _ =>
    intro v b hb
    by_cases hvu : v = u
    · simp [hvu] at hb
    · exact hl v b (by simpa [hvu] using hb)

section

omit [DecidableEq F]

/-- The test after a jump decides nothing about whose stack the thread is on. -/
theorem Refines.settle {p : Place F} (hr : Refines s k) (hp : p.running = (s.place u).running) :
    Refines (s.setPlace u p) k := by
  have hsame : ∀ v, ((s.setPlace u p).place v).running = (s.place v).running := by
    intro v
    by_cases hvu : v = u
    · subst v
      simp [hp]
    · simp [hvu]
  constructor
  case active => exact fun v => (hr.active v).trans (hsame v).symm
  case own => exact fun v hv => hr.own v ((hsame v).symm.trans hv)
  case waiting => exact fun v g o hv => hr.waiting v g o ((hsame v).symm.trans hv)
  case body => exact fun v g hv => hr.body v g ((hsame v).symm.trans hv)
  case stored => exact fun g c hg hn => hr.stored g c hg fun v hv => hn v ((hsame v).trans hv)
  case absent => exact hr.absent

end

theorem refines_step (h : Guarded Usable (Step l) s act t)
    (hs : Inv s ∧ LowHalves s ∧ Refines s k) :
    ∃ k', Run (CoStep l) k act.switch k' ∧ Inv t ∧ LowHalves t ∧ Refines t k' := by
  obtain ⟨hi, hl, hr⟩ := hs
  have hi' := inv_step h.2 hi
  have hl' := lowHalves_step h hi hl
  suffices hk : ∃ k', Run (CoStep l) k act.switch k' ∧ Refines t k' by
    obtain ⟨k', hrun, hr'⟩ := hk
    exact ⟨k', hrun, hi', hl', hr'⟩
  obtain ⟨-, hst⟩ := h
  cases hst with
  | compute hp hm => exact refines_compute hi hr hp hm
  | create hf _ _ => exact refines_create hi hr hf
  | destroy hf => exact refines_destroy hr hf
  | swapIn hp hu hf ho => exact refines_swapIn hi hr hp hu hf ho
  | swapOut hp hf ho => exact refines_swapOut hi hr hp hf ho
  | returnIn hp _ => exact ⟨k, .refl, hr.settle (congrArg Place.running hp).symm⟩
  | returnOut hp _ => exact ⟨k, .refl, hr.settle (congrArg Place.running hp).symm⟩
  | @enterAgain u f c hp hz _ =>
    obtain ⟨o, ho⟩ := hi.orign u f (congrArg Place.fiber? hp)
    rw [ret_back hi hp ho] at hz
    exact (hl u o ho hz).elim
  | leaveAgain hp hz _ => exact (ret_there hi hp hz).elim
  | @cleanOrignContext u hp =>
    have hne : ∀ v g, (s.place v).running = some g → v ≠ u := by
      rintro v g hv rfl
      rw [hp] at hv
      cases hv
    exact ⟨k, .refl, hr.active, hr.own,
      fun v g o hv ho => hr.waiting v g o hv (by simpa [hne v g hv] using ho), hr.body, hr.stored,
      hr.absent⟩

theorem refines_run (h : Run (Guarded Usable (Step l)) s acts t)
    (hs : Inv s ∧ LowHalves s ∧ Refines s k) :
    ∃ k', Run (CoStep l) k (acts.flatMap Act.switch) k' ∧ Inv t ∧ LowHalves t ∧ Refines t k' :=
  h.simulation (R := fun s k => Inv s ∧ LowHalves s ∧ Refines s k)
    (fun _ _ _ _ hs hst => refines_step hst hs) hs

theorem reached (h : Run (Guarded Usable (Step l)) (initial cpu errno mem) acts t) :
    ∃ k, Run (CoStep l) (start cpu) (acts.flatMap Act.switch) k ∧ Inv t ∧ LowHalves t ∧
      Refines t k := by
  have hl : LowHalves (initial cpu errno mem : State T F) := by
    intro u o ho
    cases ho
  exact refines_run h ⟨inv_initial, hl, refines_initial⟩

/-- The threads and fibers are coroutines: every `swapIn` resumes one, every `swapOut` suspends one,
and nothing else switches. -/
theorem switches_refine (h : Run (Guarded Usable (Step l)) (initial cpu errno mem) acts t) :
    ∃ k, Run (CoStep l) (start cpu) (acts.flatMap Act.switch) k ∧ Refines t k := by
  obtain ⟨k, hk, -, -, hr⟩ := reached h
  exact ⟨k, hk, hr⟩

/-- With one fiber, a buffer is new when it is apart from that of the fiber. -/
theorem fresh_of_apart {s : State Unit Unit} (h : Apart o 80 b 80) (hl : s.threadLocal () = none)
    (hc : ∀ c, s.context () = some c → c.env = b) : s.Fresh o := by
  intro x b' hb
  cases x with
  | inl u => simp [State.buffer, hl] at hb
  | inr f =>
    obtain ⟨c, hf, rfl⟩ := Option.map_eq_some_iff.mp hb
    rw [hc c hf]
    exact h

/-- Any address will do for the first buffer. -/
theorem fresh_initial {cpu : Unit → Cpu} {errno : Unit → ℤ} :
    (initial cpu errno mem : State Unit Unit).Fresh a := by
  intro x b hb
  cases x <;> cases hb

/-- A processor as a process starts with it, but for the rounding. -/
def blank (rounding : BitVec 32) : Cpu := ⟨fun _ => 0, 0, ⟨8064 + rounding, 895⟩⟩

/-- A fiber is made and entered, and gives the thread back. -/
theorem switches_refine_once : ∃ t : State Unit Unit, t.place () = .own ∧ ∃ k, Refines t k := by
  obtain ⟨k, -, hr⟩ := switches_refine <|
    show Run (Guarded Usable (Step ⟨1, 2⟩))
      (initial (fun _ => blank 0) (fun _ => 0) fun _ => 0 : State Unit Unit) _ _ from
    .guard (.create (f := ()) (a := 24) (d := blank 0) (e := 0) rfl fresh_initial
      (by decide)) trivial <|
    .guard (.swapIn (f := ()) (o := 128) (t := ()) rfl (fun u hu => by cases hu) rfl (Or.inr ⟨rfl,
      fresh_of_apart (b := 24) (by decide +kernel) rfl fun c hc => by cases hc; rfl⟩))
      (show low 128 ≠ 0 by decide) <|
    .guard (.swapOut (o := 128) (t := ()) (f := ()) rfl rfl (Or.inl rfl)) trivial <|
    .guard (.returnIn (t := ()) (f := ()) rfl (by
      rw [ret, rax_swapOut]
      decide)) trivial .refl
  exact ⟨_, rfl, k, hr⟩

/-- A step that neither runs nor replaces `f`. -/
def LeavesAlone (f : F) : Act T F → Prop
  | .create g _ _ | .destroy g | .swapIn _ g _ => g ≠ f
  | _ => True

section

omit [DecidableEq T] [DecidableEq F]

theorem passes_switch {b : Coroutine.Act T F (Control × ℤ)} (h : LeavesAlone f act)
    (hb : b ∈ act.switch) : Coroutine.Passes f b := by
  cases act with
  | compute _ | swapOut _ _ =>
    obtain rfl := List.mem_singleton.mp hb
    trivial
  | create _ _ _ | destroy _ | swapIn _ _ _ =>
    obtain rfl := List.mem_singleton.mp hb
    exact h
  | land _ | cleanOrignContext _ => exact (List.not_mem_nil hb).elim

end

/-- A fiber goes on where it swapped out, with the `errno` that it had, whatever has run since and
on whichever thread it goes on. Its modes are those of that thread. -/
theorem fiber_continues {s₁ s₂ s₃ : State T F} {bs : List (Act T F)} {o' : Word}
    (h₀ : Run (Guarded Usable (Step l)) (initial cpu errno mem) acts s) (hp : s.place u = .fiber f)
    (hout : Step l s (.swapOut u o) s₁) (h₁ : Run (Guarded Usable (Step l)) s₁ bs s₂)
    (hb : ∀ b ∈ bs, LeavesAlone f b) (hin : Guarded Usable (Step l) s₂ (.swapIn v f o') s₃)
    (hland : Step l s₃ (.land v) t) :
    t.place v = .fiber f ∧ (t.cpu v).control = (s.cpu u).control.goto l.swapOut ∧
      t.errno v = s.errno u ∧ (t.cpu v).modes = (s₂.cpu v).modes := by
  obtain ⟨k, -, hs⟩ := reached h₀
  have hg : Guarded Usable (Step l) s (.swapOut u o) s₁ := ⟨trivial, hout⟩
  obtain ⟨k₁, hk₁, hs₁⟩ := refines_step hg hs
  obtain ⟨k₂, hk₂, hs₂⟩ := refines_run h₁ hs₁
  obtain ⟨k₃, hk₃, hs₃⟩ := refines_step hin hs₂
  have hrun : (s.place u).running = some f := congrArg Place.running hp
  have hbody := hs.2.2.body u f hrun
  -- the coroutine is suspended, and stays so
  have hsus₁ : Coroutine.Suspended f ((s.cpu u).control.goto l.swapOut, s.errno u) k₁ := by
    obtain _ | ⟨hst, ⟨⟩⟩ := hk₁
    obtain _ | _ | _ | _ | _ | @⟨_, g, r, hg, hr⟩ := hst
    obtain rfl : f = g := Option.some.inj
      ((hrun.symm.trans (hs.2.2.active u).symm).trans hg)
    obtain rfl : ((s.cpu u).control, s.errno u) = r := Option.some.inj (hbody.symm.trans hr)
    refine ⟨by simp, fun w hw => ?_⟩
    by_cases hwu : w = u
    · simp [hwu] at hw
    · have hw : k.active w = some f := by simpa [hwu] using hw
      rw [hs.2.2.active] at hw
      exact hwu (hs.1.exclusive w u f (running_eq hw) (running_eq hrun))
  have hsus₂ := Coroutine.suspended_run hk₂ (fun b hm => by
    obtain ⟨a, ha, hba⟩ := List.mem_flatMap.mp hm
    exact passes_switch (hb a ha) hba) hsus₁
  have hstored : k₃.stored f = some ((s.cpu u).control.goto l.swapOut, s.errno u) ∧
      k₃.active v = some f := by
    obtain _ | ⟨hst, ⟨⟩⟩ := hk₃
    obtain _ | _ | _ | _ | _ := hst
    exact ⟨hsus₂.1, by simp⟩
  have hrun₃ : (s₃.place v).running = some f := (hs₃.2.2.active v).symm.trans hstored.2
  have heq := (hs₃.2.2.body v f hrun₃).symm.trans hstored.1
  obtain ⟨hcpu, herr⟩ := Prod.mk.inj (Option.some.inj heq)
  cases hland with
  | returnIn hpl _ | enterAgain hpl _ _ =>
    rw [hpl] at hrun₃
    cases hrun₃
  | @returnOut _ g hpl _ =>
    rw [hpl] at hrun₃
    obtain rfl : g = f := Option.some.inj hrun₃
    refine ⟨by simp, hcpu, herr, ?_⟩
    obtain ⟨-, hst⟩ := hin
    cases hst with
    | @swapIn _ _ c _ _ _ _ _ =>
      -- the fiber is not at its start, so the jump was a `LONGJMP`
      have hn : c.context = none := by
        rw [swapIn_place, Function.update_self] at hpl
        cases hc : c.context with
        | none => rfl
        | some _ => simp [hc] at hpl
      simp [swapIn_cpu, hn]
  | leaveAgain hpl hz _ => exact (ret_there hs₃.1 hpl hz).elim

/-- A fiber that yields once, its `errno` being 5. The thread changes the rounding, and the fiber
goes on with that. -/
theorem fiber_continues_once : ∃ t : State Unit Unit, t.place () = .fiber () ∧ t.errno () = 5 ∧
    (t.cpu ()).modes = (blank 8192).modes := by
  obtain ⟨hp, -, he, hm⟩ := fiber_continues
    (.guard (.create (s := initial (fun _ => blank 0) (fun _ => 0) fun _ => 0) (f := ())
        (a := 24) (d := blank 0) (e := 5) rfl fresh_initial (by decide)) trivial <|
      .guard (.swapIn (f := ()) (o := 128) (t := ()) rfl (fun u hu => by cases hu) rfl (Or.inr ⟨rfl,
        fresh_of_apart (b := 24) (by decide +kernel) rfl fun c hc => by cases hc; rfl⟩))
        (show low 128 ≠ 0 by decide) .refl)
    rfl
    (.swapOut (l := ⟨1, 2⟩) (t := ()) (f := ()) (c := ⟨24, none, 5⟩) (o := 128) rfl rfl
      (Or.inl rfl))
    (.guard (.returnIn (t := ()) (f := ()) rfl (by
      rw [ret, rax_swapOut]
      decide)) trivial <|
      .guard (.compute (t := ()) (c := blank 8192) (e := 0) (Or.inl rfl)
        fun _ _ _ _ _ => rfl) trivial .refl)
    (by simp [LeavesAlone])
    ⟨show low 128 ≠ 0 by decide,
      .swapIn (t := ()) (f := ()) (c := ⟨24, none, 5⟩) (o := 128) rfl (fun u hu => by cases hu) rfl
        (Or.inl rfl)⟩
    (.returnOut (t := ()) (f := ()) rfl (by
      rw [ret, rax_swapIn rfl]
      decide))
  exact ⟨_, hp, he, hm⟩

/-- The code of a thread goes on where it called `swapIn`, once the fiber has given the thread
back; it finds the `errno` and the modes of the fiber. -/
theorem thread_continues {s₁ s₂ s₃ : State T F} {bs : List (Act T F)} {o' : Word}
    (h₀ : Run (Guarded Usable (Step l)) (initial cpu errno mem) acts s)
    (hin : Guarded Usable (Step l) s (.swapIn u f o) s₁)
    (h₁ : Run (Guarded Usable (Step l)) s₁ bs s₂) (hb : ∀ b, .swapOut u b ∉ bs)
    (hout : Step l s₂ (.swapOut u o') s₃) (hland : Step l s₃ (.land u) t) :
    t.place u = .own ∧ (t.cpu u).control = (s.cpu u).control.goto l.swapIn ∧
      t.errno u = s₂.errno u ∧ (t.cpu u).modes = (s₂.cpu u).modes := by
  obtain ⟨k, -, hs⟩ := reached h₀
  obtain ⟨k₁, hk₁, hs₁⟩ := refines_step hin hs
  obtain ⟨k₂, hk₂, hs₂⟩ := refines_run h₁ hs₁
  have hg : Guarded Usable (Step l) s₂ (.swapOut u o') s₃ := ⟨trivial, hout⟩
  obtain ⟨k₃, hk₃, hs₃⟩ := refines_step hg hs₂
  have hwait₁ : Coroutine.Waiting u f ((s.cpu u).control.goto l.swapIn) k₁ := by
    have hown : k.own u = (s.cpu u).control := by
      obtain ⟨-, hst⟩ := hin
      obtain _ | _ | _ | @⟨_, _, _, _, hpl⟩ := hst
      exact hs.2.2.own u (congrArg Place.running hpl)
    obtain _ | ⟨hst, ⟨⟩⟩ := hk₁
    obtain _ | _ | _ | _ | _ := hst
    exact ⟨by simp, by simp [hown]⟩
  have hwait₂ := Coroutine.waiting_run hk₂ (fun hm => by
    obtain ⟨a, ha, hba⟩ := List.mem_flatMap.mp hm
    cases a with
    | swapOut w b =>
      obtain rfl : u = w := Coroutine.Act.suspend.inj (List.mem_singleton.mp hba)
      exact hb b ha
    | land _ | cleanOrignContext _ => exact List.not_mem_nil hba
    | compute _ | create _ _ _ | destroy _ | swapIn _ _ _ => cases List.mem_singleton.mp hba) hwait₁
  have hown₃ : k₃.own u = (s.cpu u).control.goto l.swapIn ∧ k₃.active u = none := by
    obtain _ | ⟨hst, ⟨⟩⟩ := hk₃
    obtain _ | _ | _ | _ | _ | _ := hst
    exact ⟨hwait₂.2, by simp⟩
  have hrun₃ : (s₃.place u).running = none := (hs₃.2.2.active u).symm.trans hown₃.2
  have hcpu := (hs₃.2.2.own u hrun₃).symm.trans hown₃.1
  have herr : s₃.errno u = s₂.errno u ∧ (s₃.cpu u).modes = (s₂.cpu u).modes := by
    cases hout
    simp [State.swapOut, State.leave, State.jump, State.save]
  cases hland with
  | returnIn _ _ => exact ⟨by simp, hcpu, herr⟩
  | @enterAgain _ g c hpl hz _ =>
    obtain ⟨b, hbuf⟩ := hs₃.1.orign u g (congrArg Place.fiber? hpl)
    rw [ret_back hs₃.1 hpl hbuf] at hz
    exact (hs₃.2.1 u b hbuf hz).elim
  | returnOut hpl _ | leaveAgain hpl _ _ =>
    rw [hpl] at hrun₃
    cases hrun₃

/-- The same fiber, seen from the thread. -/
theorem thread_continues_once : ∃ t : State Unit Unit, t.place () = .own ∧ t.errno () = 5 := by
  obtain ⟨hp, -, he, -⟩ := thread_continues
    (.guard (.create (s := initial (fun _ => blank 0) (fun _ => 0) fun _ => 0) (f := ())
      (a := 24) (d := blank 0) (e := 5) rfl fresh_initial (by decide)) trivial .refl)
    ⟨show low 128 ≠ 0 by decide, .swapIn (l := ⟨1, 2⟩) (f := ()) (o := 128) (t := ()) rfl
      (fun u hu => by cases hu) rfl (Or.inr ⟨rfl,
        fresh_of_apart (b := 24) (by decide +kernel) rfl fun c hc => by cases hc; rfl⟩)⟩
    .refl (fun b hb => by cases hb) (.swapOut (o := 128) rfl rfl (Or.inl rfl))
    (.returnIn (t := ()) (f := ()) rfl (by
      rw [ret, rax_swapOut]
      decide))
  exact ⟨_, hp, he⟩

/-- After a jump into `swapOut` the fiber goes on. After one into `swapIn` the code of the thread
goes on exactly when the low half of its buffer's address is not zero; else the fiber is entered
once more. -/
theorem lands_iff (h : Run (Step l) (initial cpu errno mem) acts s) (hl : Step l s (.land u) t) :
    (∀ f, s.place u = .inSwapOut f → t.place u = .fiber f) ∧
    ∀ f o, s.place u = .inSwapIn f → s.threadLocal u = some o →
      (t.place u = .own ↔ low o ≠ 0) ∧ (t.place u = .inSwapOut f ↔ low o = 0) := by
  have hi := inv_run h
  refine ⟨fun f hp => ?_, fun f o hp ho => ?_⟩
  · cases hl with
    | returnIn hpl _ | enterAgain hpl _ _ =>
      rw [hp] at hpl
      cases hpl
    | returnOut hpl _ =>
      rw [hp] at hpl
      cases hpl
      simp
    | leaveAgain hpl hz _ => exact (ret_there hi hpl hz).elim
  · have hret := ret_back hi hp ho
    cases hl with
    | returnIn hpl hz =>
      rw [hret] at hz
      simpa using hz
    | @enterAgain _ g c hpl hz hg =>
      rw [hp] at hpl
      cases hpl
      rw [hret] at hz
      obtain ⟨d, hd, hn⟩ := hi.started u f (congrArg Place.fiber? hp)
      obtain rfl : c = d := Option.some.inj (hg.symm.trans hd)
      simp [State.enter, hn, hz]
    | returnOut hpl _ | leaveAgain hpl _ _ =>
      rw [hp] at hpl
      cases hpl

/-- A thread whose buffer lies at 2 ^ 32: the fiber that gives it back is entered once more. -/
theorem lands_iff_high : ∃ t : State Unit Unit, t.place () = .inSwapOut () := by
  have h := lands_iff
    (.step (.create (s := initial (fun _ => blank 0) (fun _ => 0) fun _ => 0) (f := ())
        (a := 24) (d := blank 0) (e := 5) rfl fresh_initial (by decide)) <|
      .step (.swapIn (f := ()) (o := 4294967296) (t := ()) rfl (fun u hu => by cases hu) rfl
        (Or.inr ⟨rfl,
          fresh_of_apart (b := 24) (by decide +kernel) rfl fun c hc => by cases hc; rfl⟩)) <|
      .step (.swapOut (l := ⟨1, 2⟩) (o := 4294967296) (t := ()) (f := ()) rfl rfl (Or.inl rfl))
        .refl)
    (.enterAgain (t := ()) (f := ()) rfl (by
      rw [ret, rax_swapOut]
      decide) rfl)
  exact ⟨_, (h.2 () 4294967296 rfl rfl).2.mpr (by decide)⟩

end CxxFiber.EContext
