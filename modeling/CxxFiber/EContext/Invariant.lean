import CxxFiber.EContext.Model

/-! Every thread and every fiber has a buffer of its own, and a jump goes through that of whoever is
to go on. -/
namespace CxxFiber.EContext

open ByteMemory Transition

variable {T F : Type} {l : Labels} {s t : State T F} {u v : T}
  {f g : F} {c : EContext} {o a b : Word} {m : Bytes 64} {x y : T ⊕ F} {act : Act T F}
  {acts : List (Act T F)} {cpu : T → Cpu} {errno : T → ℤ} {mem : Bytes 64}

/-- The buffers lie apart from each other. -/
def Separate (s : State T F) : Prop :=
  ∀ x y a b, s.buffer x = some a → s.buffer y = some b → x ≠ y → Apart a 80 b 80

/-- `back` and `there` say from which buffer a thread has just jumped. -/
structure Inv (s : State T F) : Prop where
  separate : Separate s
  exclusive : ∀ u v f, (s.place u).fiber? = some f → (s.place v).fiber? = some f → u = v
  started : ∀ u f, (s.place u).fiber? = some f → ∃ c, s.context f = some c ∧ c.context = none
  orign : ∀ u f, (s.place u).fiber? = some f → ∃ o, s.threadLocal u = some o
  aligned : ∀ f c, s.context f = some c → c.env.toNat % 16 = 8
  back : ∀ u f o, s.place u = .inSwapIn f → s.threadLocal u = some o → (s.cpu u).reg .rax = o
  there : ∀ u f c, s.place u = .inSwapOut f → s.context f = some c → (s.cpu u).reg .rax = c.env

theorem inv_initial : Inv (initial cpu errno mem : State T F) := by
  constructor
  case separate =>
    intro x y a b hx
    cases x <;> cases hx
  case exclusive => exact fun u v f hu => by cases hu
  case started => exact fun u f hu => by cases hu
  case orign => exact fun u f hu => by cases hu
  case aligned => exact fun f c hf => by cases hf
  case back => exact fun u f o hu => by cases hu
  case there => exact fun u f c hu => by cases hu

theorem running_eq {p : Place F} (h : p.running = some f) : p.fiber? = some f := by
  cases p with
  | own | inSwapIn g => cases h
  | fiber g | inSwapOut g => exact h

theorem buffer_fiber (h : s.context f = some c) : s.buffer (.inr f) = some c.env := by
  simp [State.buffer, h]

/-- A buffer that is put into the place of its owner, or into an empty one. -/
theorem Separate.update [DecidableEq T] [DecidableEq F]
    (hs : Separate s) (hx : ∀ y, y ≠ x → t.buffer y = s.buffer y)
    (ha : ∀ a, t.buffer x = some a → ∀ y b, y ≠ x → s.buffer y = some b → Apart a 80 b 80) :
    Separate t := by
  intro y z a b hy hz hne
  by_cases hyx : y = x
  · subst y
    rw [hx z (Ne.symm hne)] at hz
    exact ha a hy z b (Ne.symm hne) hz
  · rw [hx y hyx] at hy
    by_cases hzx : z = x
    · subst z
      exact (ha b hz y a hyx hy).symm
    · rw [hx z hzx] at hz
      exact hs y z a b hy hz hne

/-- The buffer of a thread is apart from all others, also when it is new. -/
theorem Separate.orign (hs : Separate s) (ho : s.Orign u o) (hx : x ≠ .inl u)
    (hb : s.buffer x = some b) : Apart o 80 b 80 := by
  rcases ho with ho | ⟨-, hfresh⟩
  · exact hs (.inl u) x o b ho hb (Ne.symm hx)
  · exact hfresh x b hb

/-! `swapIn` -/

variable [DecidableEq T] [DecidableEq F]

theorem swapIn_context (h : s.context f = some c) :
    (s.swapIn l u f c o).context =
      Function.update s.context f (some { c with context := none }) := by
  unfold State.swapIn State.enter
  cases hc : c.context with
  | some start => rfl
  | none =>
    change s.context = _
    rw [← hc, ← h, Function.update_eq_self]

theorem swapIn_threadLocal :
    (s.swapIn l u f c o).threadLocal = Function.update s.threadLocal u (some o) := by
  unfold State.swapIn State.enter
  cases c.context <;> rfl

theorem swapIn_errno : (s.swapIn l u f c o).errno = Function.update s.errno u c.errno_ := by
  unfold State.swapIn State.enter
  cases c.context <;> rfl

theorem swapIn_mem : (s.swapIn l u f c o).mem = (setjmp l.swapIn o ⟨s.cpu u, s.mem⟩).mem := by
  unfold State.swapIn State.enter
  cases c.context <;> rfl

theorem swapIn_place : (s.swapIn l u f c o).place =
    Function.update s.place u (if c.context.isSome then .fiber f else .inSwapOut f) := by
  unfold State.swapIn State.enter
  cases c.context <;> rfl

theorem swapIn_cpu : (s.swapIn l u f c o).cpu = Function.update s.cpu u (c.context.getD
    (longjmp c.env (setjmp l.swapIn o ⟨s.cpu u, s.mem⟩)).cpu) := by
  unfold State.swapIn State.enter
  cases c.context <;> simp [State.save, State.jump]

/-! `swapOut` -/

theorem swapOut_mem :
    (s.swapOut l u f c o).mem = (setjmp l.swapOut c.env ⟨s.cpu u, s.mem⟩).mem := rfl

theorem swapOut_cpu : (s.swapOut l u f c o).cpu = Function.update s.cpu u
    (longjmp o (setjmp l.swapOut c.env ⟨s.cpu u, s.mem⟩)).cpu := by
  simp [State.swapOut, State.leave, State.save, State.jump]

/-! The invariant -/

section

omit [DecidableEq T]

theorem buffer_update {p : F → Option EContext} (hp : p = Function.update s.context f (some c))
    (ht : t.context = p) (hl : t.threadLocal = s.threadLocal) (hx : x ≠ .inr f) :
    t.buffer x = s.buffer x := by
  cases x with
  | inl u => simp [State.buffer, hl]
  | inr g =>
    have hne : g ≠ f := by
      rintro rfl
      exact hx rfl
    simp [State.buffer, ht, hp, hne]

end

section

omit [DecidableEq T] [DecidableEq F]

/-- Steps that touch no buffer and jump nowhere. -/
theorem Inv.quiet (hi : Inv s) (hl : t.threadLocal = s.threadLocal) (hc : t.context = s.context)
    (hp : ∀ u f, (t.place u).fiber? = some f → (s.place u).fiber? = some f)
    (hb : ∀ u f, t.place u = .inSwapIn f ∨ t.place u = .inSwapOut f →
      t.place u = s.place u ∧ t.cpu u = s.cpu u) : Inv t where
  separate x y a b hx hy hne := by
    have hbuf : t.buffer = s.buffer := by
      funext x
      cases x <;> simp [State.buffer, hl, hc]
    rw [hbuf] at hx hy
    exact hi.separate x y a b hx hy hne
  exclusive u v f hu hv := hi.exclusive u v f (hp u f hu) (hp v f hv)
  started u f hu := by
    rw [hc]
    exact hi.started u f (hp u f hu)
  orign u f hu := by
    rw [hl]
    exact hi.orign u f (hp u f hu)
  aligned f c hf := hi.aligned f c (hc ▸ hf)
  back u f o hu ho := by
    obtain ⟨hpl, hcpu⟩ := hb u f (Or.inl hu)
    rw [hcpu]
    exact hi.back u f o (hpl ▸ hu) (hl ▸ ho)
  there u f c hu hf := by
    obtain ⟨hpl, hcpu⟩ := hb u f (Or.inr hu)
    rw [hcpu]
    exact hi.there u f c (hpl ▸ hu) (hc ▸ hf)

end

theorem inv_create {start : Cpu} {e : ℤ} (hi : Inv s) (hf : s.context f = none) (ha : s.Fresh a)
    (hal : a.toNat % 16 = 8) : Inv (s.setContext f (some ⟨a, some start, e⟩)) where
  separate := by
    refine hi.separate.update (x := .inr f)
      (fun y hy => buffer_update rfl rfl rfl hy) fun b hb y b' hy hb' => ?_
    obtain rfl : a = b := by simpa [State.buffer] using hb
    exact ha y b' hb'
  exclusive := hi.exclusive
  started u g hu := by
    obtain ⟨c, hc, hn⟩ := hi.started u g hu
    have hne : g ≠ f := by
      rintro rfl
      rw [hf] at hc
      cases hc
    exact ⟨c, by simpa [hne] using hc, hn⟩
  orign := hi.orign
  aligned g c hg := by
    by_cases hgf : g = f
    · subst g
      obtain rfl : ⟨a, some start, e⟩ = c := by simpa using hg
      exact hal
    · exact hi.aligned g c (by simpa [hgf] using hg)
  back := hi.back
  there u g c hu hg := by
    obtain ⟨c', hc', -⟩ := hi.started u g (congrArg Place.fiber? hu)
    have hne : g ≠ f := by
      rintro rfl
      rw [hf] at hc'
      cases hc'
    exact hi.there u g c hu (by simpa [hne] using hg)

section

omit [DecidableEq T]

theorem inv_destroy (hi : Inv s) (hf : s.Free f) : Inv (s.setContext f none) where
  separate := by
    intro x y a b hx hy hne
    have hold : ∀ z k, (s.setContext f none).buffer z = some k → s.buffer z = some k := by
      intro z k hz
      cases z with
      | inl u => exact hz
      | inr g =>
        by_cases hgf : g = f
        · simp [State.buffer, hgf] at hz
        · simpa [State.buffer, hgf] using hz
    exact hi.separate x y a b (hold x a hx) (hold y b hy) hne
  exclusive := hi.exclusive
  started u g hu := by
    have hne : g ≠ f := by
      rintro rfl
      exact hf u hu
    simpa [hne] using hi.started u g hu
  orign := hi.orign
  aligned g c hg := by
    have hne : g ≠ f := by
      rintro rfl
      simp at hg
    exact hi.aligned g c (by simpa [hne] using hg)
  back := hi.back
  there u g c hu hg := by
    have hne : g ≠ f := by
      rintro rfl
      simp at hg
    exact hi.there u g c hu (by simpa [hne] using hg)

end

/-- After a call of `swapIn` or `swapOut` the thread is in a switch of `f`, with its own buffer and
`f` started; the rest is as before. -/
theorem Inv.switch {e : EContext} (hi : Inv s) (hf : s.context f = some c) (ho : s.Orign u o)
    (hu : ∀ v, (s.place v).fiber? = some f → v = u)
    (hc : t.context = Function.update s.context f (some e)) (henv : e.env = c.env)
    (hn : e.context = none) (hl : t.threadLocal = Function.update s.threadLocal u (some o))
    (hp : ∀ v, v ≠ u → t.place v = s.place v ∧ t.cpu v = s.cpu v)
    (hpu : (t.place u).fiber? = some f)
    (hb : t.place u = .inSwapIn f → (t.cpu u).reg .rax = o)
    (hth : t.place u = .inSwapOut f → (t.cpu u).reg .rax = c.env) : Inv t := by
  have hbuf : ∀ y, y ≠ .inl u → t.buffer y = s.buffer y := by
    intro y hy
    cases y with
    | inl v =>
      have hne : v ≠ u := by
        rintro rfl
        exact hy rfl
      simp [State.buffer, hl, hne]
    | inr g =>
      by_cases hg : g = f
      · subst g
        simp [State.buffer, hc, henv, hf]
      · simp [State.buffer, hc, hg]
  have hother : ∀ v g, v ≠ u → (t.place v).fiber? = some g →
      (s.place v).fiber? = some g ∧ g ≠ f := by
    intro v g hv hg
    rw [(hp v hv).1] at hg
    refine ⟨hg, ?_⟩
    rintro rfl
    exact hv (hu v hg)
  constructor
  case separate =>
    refine hi.separate.update hbuf fun a ha y b hy hb => ?_
    obtain rfl : o = a := by simpa [State.buffer, hl] using ha
    exact hi.separate.orign ho hy hb
  case exclusive =>
    intro v w g hv hw
    by_cases hvu : v = u
    · by_cases hwu : w = u
      · rw [hvu, hwu]
      · obtain ⟨_, hne⟩ := hother w g hwu hw
        subst v
        rw [hpu] at hv
        exact (hne (Option.some.inj hv).symm).elim
    · obtain ⟨hv', hne⟩ := hother v g hvu hv
      by_cases hwu : w = u
      · subst w
        rw [hpu] at hw
        exact (hne (Option.some.inj hw).symm).elim
      · exact hi.exclusive v w g hv' (hother w g hwu hw).1
  case started =>
    intro v g hv
    by_cases hvu : v = u
    · subst v
      rw [hpu] at hv
      obtain rfl := Option.some.inj hv
      exact ⟨e, by simp [hc], hn⟩
    · obtain ⟨hv', hne⟩ := hother v g hvu hv
      obtain ⟨d, hd, hdn⟩ := hi.started v g hv'
      exact ⟨d, by simpa [hc, hne] using hd, hdn⟩
  case orign =>
    intro v g hv
    by_cases hvu : v = u
    · exact ⟨o, by simp [hl, hvu]⟩
    · obtain ⟨b, hb⟩ := hi.orign v g (hother v g hvu hv).1
      exact ⟨b, by simpa [hl, hvu] using hb⟩
  case aligned =>
    intro g d hg
    by_cases hgf : g = f
    · subst g
      obtain rfl : e = d := by simpa [hc] using hg
      rw [henv]
      exact hi.aligned _ c hf
    · exact hi.aligned g d (by simpa [hc, hgf] using hg)
  case back =>
    intro v g b hv hb'
    by_cases hvu : v = u
    · subst v
      obtain rfl : o = b := by simpa [hl] using hb'
      have hgf : f = g := by
        rw [hv] at hpu
        exact (Option.some.inj hpu).symm
      subst g
      exact hb hv
    · rw [(hp v hvu).2]
      refine hi.back v g b ?_ (by simpa [hl, hvu] using hb')
      rw [← (hp v hvu).1]
      exact hv
  case there =>
    intro v g d hv hd
    by_cases hvu : v = u
    · subst v
      have hgf : f = g := by
        rw [hv] at hpu
        exact (Option.some.inj hpu).symm
      subst g
      obtain rfl : e = d := by simpa [hc] using hd
      rw [henv]
      exact hth hv
    · have hv' : s.place v = .inSwapOut g := by
        rw [← (hp v hvu).1]
        exact hv
      obtain ⟨_, hne⟩ := hother v g hvu (congrArg Place.fiber? hv)
      rw [(hp v hvu).2]
      exact hi.there v g d hv' (by simpa [hc, hne] using hd)

theorem rax_swapIn (hn : c.context = none) :
    ((s.swapIn l u f c o).cpu u).reg .rax = c.env := by
  rw [swapIn_cpu, hn]
  simp

theorem rax_swapOut : ((s.swapOut l u f c o).cpu u).reg .rax = o := by
  rw [swapOut_cpu]
  simp

theorem inv_swapIn (hi : Inv s) (hf : s.context f = some c) (hu : s.Free f) (ho : s.Orign u o) :
    Inv (s.swapIn l u f c o) := by
  have hplace : (s.swapIn l u f c o).place u =
      if c.context.isSome then .fiber f else .inSwapOut f := by
    rw [swapIn_place, Function.update_self]
  refine hi.switch hf ho (fun v hv => (hu v hv).elim) (swapIn_context hf) rfl rfl
    swapIn_threadLocal (fun v hv => ?_) ?_ (fun hb => ?_) fun hb => ?_
  · rw [swapIn_place, swapIn_cpu, Function.update_of_ne hv, Function.update_of_ne hv]
    exact ⟨rfl, rfl⟩
  · rw [hplace]
    split <;> rfl
  · rw [hplace] at hb
    split at hb <;> cases hb
  · cases hc : c.context with
    | none => exact rax_swapIn hc
    | some start =>
      rw [hplace, hc] at hb
      cases hb

theorem inv_swapOut (hi : Inv s) (hp : s.place u = .fiber f) (hf : s.context f = some c)
    (ho : s.Orign u o) : Inv (s.swapOut l u f c o) := by
  have hpu : (s.place u).fiber? = some f := congrArg Place.fiber? hp
  obtain ⟨c', hc', hn⟩ := hi.started u f hpu
  obtain rfl : c = c' := Option.some.inj (hf.symm.trans hc')
  have hplace : (s.swapOut l u f c o).place u = .inSwapIn f := by
    simp [State.swapOut, State.leave]
  refine hi.switch (e := { c with errno_ := s.errno u }) hf ho
    (fun v hv => hi.exclusive v u f hv hpu) rfl rfl hn rfl (fun v hv => ?_) ?_
    (fun _ => rax_swapOut) fun hb => ?_
  · rw [swapOut_cpu, Function.update_of_ne hv]
    exact ⟨Function.update_of_ne hv .., rfl⟩
  · rw [hplace]
    rfl
  · rw [hplace] at hb
    cases hb

/-- A second jump from where the first one has landed. -/
theorem Inv.bounce (hi : Inv s) (hf : s.context f = some c) (hp : (s.place u).fiber? = some f)
    (hl : s.threadLocal u = some o) (hc : t.context = s.context)
    (ht : t.threadLocal = s.threadLocal)
    (hv : ∀ v, v ≠ u → t.place v = s.place v ∧ t.cpu v = s.cpu v)
    (hpu : (t.place u).fiber? = some f)
    (hb : t.place u = .inSwapIn f → (t.cpu u).reg .rax = o)
    (hth : t.place u = .inSwapOut f → (t.cpu u).reg .rax = c.env) : Inv t := by
  obtain ⟨c', hc', hn⟩ := hi.started u f hp
  obtain rfl : c = c' := Option.some.inj (hf.symm.trans hc')
  refine hi.switch (e := c) hf (Or.inl hl) (fun v hv => hi.exclusive v u f hv hp) ?_ rfl hn ?_
    hv hpu
    hb hth
  · rw [hc, ← hf, Function.update_eq_self]
  · rw [ht, ← hl, Function.update_eq_self]

theorem inv_step (h : Step l s act t) (hi : Inv s) : Inv t := by
  cases h with
  | @compute u c m e hp _ =>
    refine hi.quiet rfl rfl (fun _ _ h => h) fun v f hv => ⟨rfl, ?_⟩
    have hne : v ≠ u := by
      rintro rfl
      rcases hp with hp | ⟨g, hp⟩ <;> rcases hv with hv | hv <;> simp [hp] at hv
    simp [hne]
  | create hf ha hal => exact inv_create hi hf ha hal
  | destroy hf => exact inv_destroy hi hf
  | swapIn _ hu hf ho => exact inv_swapIn hi hf hu ho
  | swapOut hp hf ho => exact inv_swapOut hi hp hf ho
  | @returnIn u f hp _ =>
    refine hi.quiet rfl rfl (fun v g hv => ?_) fun v g hv => ?_
    · by_cases hvu : v = u
      · subst v
        simp [Place.fiber?] at hv
      · simpa [hvu] using hv
    · have hvu : v ≠ u := by
        rintro rfl
        rcases hv with hv | hv <;> simp at hv
      simp [hvu]
  | @returnOut u f hp _ =>
    refine hi.quiet rfl rfl (fun v g hv => ?_) fun v g hv => ?_
    · by_cases hvu : v = u
      · subst v
        obtain rfl : f = g := by simpa [Place.fiber?] using hv
        exact congrArg Place.fiber? hp
      · simpa [hvu] using hv
    · have hvu : v ≠ u := by
        rintro rfl
        rcases hv with hv | hv <;> simp at hv
      simp [hvu]
  | @enterAgain u f c hp _ hf =>
    have hpu : (s.place u).fiber? = some f := congrArg Place.fiber? hp
    obtain ⟨o, ho⟩ := hi.orign u f hpu
    obtain ⟨c', hc', hn⟩ := hi.started u f hpu
    obtain rfl : c = c' := Option.some.inj (hf.symm.trans hc')
    have henter : s.enter u f c = (s.jump u c.env).setPlace u (.inSwapOut f) := by
      rw [State.enter, hn]
    rw [henter]
    refine hi.bounce hf hpu ho rfl rfl (fun v hv => ?_) ?_ (fun hb => ?_) fun _ => ?_
    · simp [State.jump, hv]
    · simp [Place.fiber?]
    · simp at hb
    · simp [State.jump]
  | @leaveAgain u f o hp _ ho =>
    have hpu : (s.place u).fiber? = some f := congrArg Place.fiber? hp
    obtain ⟨c, hf, -⟩ := hi.started u f hpu
    obtain ⟨o', ho'⟩ := hi.orign u f hpu
    obtain rfl : o = o' := by
      rcases ho with ho | ⟨ho, _⟩
      · exact Option.some.inj (ho.symm.trans ho')
      · simp [ho'] at ho
    refine hi.bounce hf hpu ho' rfl rfl (fun v hv => ?_) ?_ (fun _ => ?_) fun hb => ?_
    · simp [State.leave, State.jump, hv]
    · simp [State.leave, Place.fiber?]
    · simp [State.leave, State.jump]
    · simp [State.leave] at hb
  | @cleanOrignContext u hp =>
    have hne : ∀ v f, (s.place v).fiber? = some f → v ≠ u := by
      rintro v f hv rfl
      rw [hp] at hv
      cases hv
    constructor
    case separate =>
      have hold : ∀ z k, (s.setThreadLocal u none).buffer z = some k → s.buffer z = some k := by
        intro z k hz
        cases z with
        | inl v =>
          by_cases hvu : v = u
          · simp [State.buffer, hvu] at hz
          · simpa [State.buffer, hvu] using hz
        | inr g => exact hz
      exact fun x y a b hx hy => hi.separate x y a b (hold x a hx) (hold y b hy)
    case exclusive => exact hi.exclusive
    case started => exact hi.started
    case orign =>
      intro v f hv
      simpa [hne v f hv] using hi.orign v f hv
    case aligned => exact hi.aligned
    case back =>
      intro v f o hv ho
      have hvu := hne v f (congrArg Place.fiber? hv)
      exact hi.back v f o hv (by simpa [hvu] using ho)
    case there => exact hi.there

theorem inv_run (h : Run (Step l) (initial cpu errno mem) acts t) : Inv t :=
  h.invariant (fun _ _ _ hi hst => inv_step hst hi) inv_initial

end CxxFiber.EContext
