import CxxFiber.Library.Runs
import Mathlib.Logic.Function.Basic

/-! `sigfunc` and its flag, with signals delivered to any thread between any two of its steps. -/
namespace CxxFiber.EHooker.Signals

open Transition

def SIGRTMAX : ℕ := 64

/-- Where a call of `sigfunc` is: before it sets the flag, before it looks up the user's handler, in
the handler, and behind it. -/
inductive Pc
  | entered
  | marked
  | handler
  | handled
  deriving DecidableEq, Repr

structure Frame where
  sig_no : ℕ
  pc : Pc
  deriving DecidableEq, Repr

/-- `process_signaled` is one for all threads. `sigfunc_map sig`: a handler is there. `caught sig`:
the kernel calls `sigfunc` for it. `stack x`: the calls of `sigfunc` on the thread, innermost
first. -/
structure State (X : Type) where
  process_signaled : Bool
  sigfunc_map : ℕ → Bool
  caught : ℕ → Bool
  stack : X → List Frame

def initial (X : Type) : State X := ⟨false, fun _ => false, fun _ => false, fun _ => []⟩

namespace State

variable {X : Type}

/-- The `signal` hook, with a function or with one of the special values. -/
def signal (s : State X) (sig : ℕ) (func : Bool) : State X :=
  if sig < SIGRTMAX then
    if func then
      { s with sigfunc_map := Function.update s.sigfunc_map sig true,
               caught := Function.update s.caught sig true }
    else { s with caught := Function.update s.caught sig false }
  else s

def isInterrupted (s : State X) : Bool := s.process_signaled

variable [DecidableEq X]

def setStack (s : State X) (x : X) (l : List Frame) : State X :=
  { s with stack := Function.update s.stack x l }

@[simp] def setFlag (s : State X) (b : Bool) : State X := { s with process_signaled := b }

/-- The innermost call of `sigfunc` on the thread goes on. -/
def advance (s : State X) (x : X) : Option (State X) :=
  match s.stack x with
  | [] => none
  | f :: rest =>
    match f.pc with
    | .entered => some ((s.setFlag true).setStack x (⟨f.sig_no, .marked⟩ :: rest))
    | .marked =>
      if f.sig_no < SIGRTMAX ∧ s.sigfunc_map f.sig_no = true then
        some (s.setStack x (⟨f.sig_no, .handler⟩ :: rest))
      else some (s.setStack x (⟨f.sig_no, .handled⟩ :: rest))
    | .handler => some (s.setStack x (⟨f.sig_no, .handled⟩ :: rest))
    | .handled => some ((s.setFlag false).setStack x rest)

end State

inductive Act (X : Type)
  | signal (sig : ℕ) (func : Bool)
  | deliver (x : X) (sig : ℕ)
  | advance (x : X)
  deriving DecidableEq, Repr

/-- The thread on which it happens; `signal` is for the process. -/
def Act.On {X : Type} (x : X) : Act X → Prop
  | .signal _ _ => True
  | .deliver y _ | .advance y => y = x

variable {X : Type} {x : X} {s t : State X}

/-- The flag is up as long as a handler is on the stack of the thread, and down when no signal is
handled there. -/
structure Told (x : X) (s : State X) : Prop where
  inside : ∀ f ∈ s.stack x, f.pc = .handler → s.isInterrupted = true
  outside : s.stack x = [] → s.isInterrupted = false

/-- A call of `sigfunc` that relies on its mark. -/
def Pc.Marked (p : Pc) : Prop := p = .marked ∨ p = .handler

instance : DecidablePred Pc.Marked := fun p =>
  inferInstanceAs (Decidable (p = .marked ∨ p = .handler))

/-- `sigfunc` is called only for signals with a handler. -/
structure Mapped (s : State X) : Prop where
  caught : ∀ sig, s.caught sig = true → sig < SIGRTMAX ∧ s.sigfunc_map sig = true
  stack : ∀ x, ∀ f ∈ s.stack x, f.sig_no < SIGRTMAX ∧ s.sigfunc_map f.sig_no = true

/-- Only the innermost call relies on its mark, and finds it. -/
structure Calm (x : X) (s : State X) : Prop where
  outer : ∀ f ∈ (s.stack x).tail, ¬ f.pc.Marked
  inner : ∀ f ∈ (s.stack x).head?, f.pc.Marked → s.process_signaled = true
  empty : s.stack x = [] → s.process_signaled = false

/-- A call has lost its mark, or will. -/
def Doomed (x : X) (s : State X) : Prop :=
  (∃ f ∈ (s.stack x).tail, f.pc.Marked) ∨
    ∃ f ∈ (s.stack x).head?, f.pc = .marked ∧ s.process_signaled = false

theorem mapped_initial : Mapped (initial X) := ⟨by simp [initial], by simp [initial]⟩

/-- A signal is caught only after its handler is in the map. -/
theorem mapped_signal (hs : Mapped s) (sig : ℕ) (func : Bool) : Mapped (s.signal sig func) := by
  unfold State.signal
  split
  · next hsig =>
    cases func with
    | true =>
      have hmap : ∀ n, n < SIGRTMAX ∧ s.sigfunc_map n = true →
          n < SIGRTMAX ∧ Function.update s.sigfunc_map sig true n = true := by
        rintro n ⟨hn, hm⟩
        by_cases hne : n = sig
        · subst hne
          exact ⟨hn, Function.update_self ..⟩
        · rw [Function.update_of_ne hne]
          exact ⟨hn, hm⟩
      refine ⟨fun n hn => ?_, fun x f hf => hmap _ (hs.stack x f hf)⟩
      by_cases hne : n = sig
      · subst hne
        exact ⟨hsig, Function.update_self ..⟩
      · have hcaught : Function.update s.caught sig true n = true := hn
        rw [Function.update_of_ne hne] at hcaught
        exact hmap n (hs.caught n hcaught)
    | false =>
      refine ⟨fun n hn => ?_, hs.stack⟩
      by_cases hne : n = sig
      · subst hne
        simp at hn
      · refine hs.caught n ?_
        simpa [hne] using hn
  · exact hs

@[simp] theorem signal_flag (sig : ℕ) (func : Bool) :
    (s.signal sig func).process_signaled = s.process_signaled := by
  unfold State.signal
  split
  · cases func <;> rfl
  · rfl

@[simp] theorem signal_stack (sig : ℕ) (func : Bool) : (s.signal sig func).stack = s.stack := by
  unfold State.signal
  split
  · cases func <;> rfl
  · rfl

theorem Calm.congr (hc : Calm x s) (hflag : t.process_signaled = s.process_signaled)
    (hstack : t.stack x = s.stack x) : Calm x t := by
  obtain ⟨houter, hinner, hempty⟩ := hc
  constructor
  · rwa [hstack]
  · rwa [hstack, hflag]
  · rwa [hstack, hflag]

/-- In a calm state the flag is right. -/
theorem told_of_calm (hc : Calm x s) : Told x s := by
  refine ⟨fun f hf hpc => ?_, hc.empty⟩
  cases hstack : s.stack x with
  | nil =>
    rw [hstack] at hf
    cases hf
  | cons g rest =>
    obtain ⟨houter, hinner, _⟩ := hc
    rw [hstack] at houter hinner hf
    rcases List.mem_cons.mp hf with rfl | hf
    · exact hinner f rfl (.inr hpc)
    · exact absurd (.inr hpc) (houter f hf)

theorem calm_initial : Calm x (initial X) := ⟨by simp [initial], by simp [initial], fun _ => rfl⟩

variable [DecidableEq X]

/-- A signal may come at any time and interrupts what its thread runs. -/
inductive Step (s : State X) : Act X → State X → Prop
  | signal (sig : ℕ) (func : Bool) : Step s (.signal sig func) (s.signal sig func)
  | deliver {x : X} {sig : ℕ} (h : s.caught sig = true) :
      Step s (.deliver x sig) (s.setStack x (⟨sig, .entered⟩ :: s.stack x))
  | advance {x : X} {t : State X} (h : s.advance x = some t) : Step s (.advance x) t

/-- No signal is delivered to the thread between a mark of its own and the end of the handler;
another thread does not set the flag while nothing is handled here, and does not clear it between a
mark and the end of the handler. -/
def Undisturbed (x : X) (s : State X) : Act X → Prop
  | .signal _ _ => True
  | .deliver y _ => y = x → ∀ f ∈ s.stack x, ¬ f.pc.Marked
  | .advance y => y ≠ x → ∀ f ∈ (s.stack y).head?, (f.pc = .entered → s.stack x ≠ []) ∧
      (f.pc = .handled → ∀ g ∈ s.stack x, ¬ g.pc.Marked)

instance (x : X) (s : State X) : DecidablePred (Undisturbed x s)
  | .signal _ _ => isTrue trivial
  | .deliver y _ => inferInstanceAs (Decidable (y = x → ∀ f ∈ s.stack x, ¬ f.pc.Marked))
  | .advance y => inferInstanceAs (Decidable (y ≠ x → ∀ f ∈ (s.stack y).head?,
      (f.pc = .entered → s.stack x ≠ []) ∧
      (f.pc = .handled → ∀ g ∈ s.stack x, ¬ g.pc.Marked)))

variable {a : Act X} {as : List (Act X)} {y : X} {l : List Frame}

@[simp] theorem setStack_self : (s.setStack x l).stack x = l := Function.update_self ..

theorem setStack_of_ne (h : y ≠ x) : (s.setStack x l).stack y = s.stack y :=
  Function.update_of_ne h ..

/-- What an advance does to a stack with handlers for all signals. -/
theorem advance_cases (hs : Mapped s) (h : s.advance x = some t) :
    ∃ f rest, s.stack x = f :: rest ∧
      (f.pc = .entered ∧ t = (s.setFlag true).setStack x (⟨f.sig_no, .marked⟩ :: rest) ∨
        f.pc = .marked ∧ t = s.setStack x (⟨f.sig_no, .handler⟩ :: rest) ∨
        f.pc = .handler ∧ t = s.setStack x (⟨f.sig_no, .handled⟩ :: rest) ∨
        f.pc = .handled ∧ t = (s.setFlag false).setStack x rest) := by
  unfold State.advance at h
  split at h
  · cases h
  · next f rest hf =>
    refine ⟨f, rest, hf, ?_⟩
    have hmap := hs.stack x f (by rw [hf]; exact List.mem_cons_self)
    split at h
    · next hpc =>
      cases h
      exact .inl ⟨hpc, rfl⟩
    · next hpc =>
      rw [if_pos hmap] at h
      cases h
      exact .inr (.inl ⟨hpc, rfl⟩)
    · next hpc =>
      cases h
      exact .inr (.inr (.inl ⟨hpc, rfl⟩))
    · next hpc =>
      cases h
      exact .inr (.inr (.inr ⟨hpc, rfl⟩))

theorem mapped_setStack (hs : Mapped s) {b : Bool}
    (hl : ∀ f ∈ l, f.sig_no < SIGRTMAX ∧ s.sigfunc_map f.sig_no = true) :
    Mapped ((s.setFlag b).setStack x l) := by
  refine ⟨hs.caught, fun y f hf => ?_⟩
  by_cases hy : y = x
  · subst hy
    rw [setStack_self] at hf
    exact hl f hf
  · rw [setStack_of_ne hy] at hf
    exact hs.stack y f hf

theorem mapped_step (hs : Mapped s) (h : Step s a t) : Mapped t := by
  cases h with
  | signal sig func => exact mapped_signal hs sig func
  | @deliver x sig hc =>
    refine mapped_setStack (b := s.process_signaled) hs fun f hf => ?_
    rcases List.mem_cons.mp hf with rfl | hf
    · exact hs.caught _ hc
    · exact hs.stack x f hf
  | @advance x _ ha =>
    obtain ⟨f, rest, hstack, hcase⟩ := advance_cases hs ha
    have hframes := hs.stack x
    rw [hstack] at hframes
    have hkeep : ∀ pc, ∀ g ∈ (⟨f.sig_no, pc⟩ : Frame) :: rest,
        g.sig_no < SIGRTMAX ∧ s.sigfunc_map g.sig_no = true := by
      intro pc g hg
      rcases List.mem_cons.mp hg with rfl | hg
      · exact hframes f List.mem_cons_self
      · exact hframes g (List.mem_cons_of_mem f hg)
    rcases hcase with ⟨_, rfl⟩ | ⟨_, rfl⟩ | ⟨_, rfl⟩ | ⟨_, rfl⟩
    · exact mapped_setStack hs (hkeep _)
    · exact mapped_setStack (b := s.process_signaled) hs (hkeep _)
    · exact mapped_setStack (b := s.process_signaled) hs (hkeep _)
    · exact mapped_setStack hs fun g hg => hframes g (List.mem_cons_of_mem f hg)

/-- What another thread does to the flag. -/
theorem calm_other (hc : Calm x s) (hxy : x ≠ y) {b : Bool} (hset : b = true → s.stack x ≠ [])
    (hclear : b = false → ∀ f ∈ s.stack x, ¬ f.pc.Marked) :
    Calm x ((s.setFlag b).setStack y l) := by
  have hstack : ((s.setFlag b).setStack y l).stack x = s.stack x := setStack_of_ne hxy
  refine ⟨by rw [hstack]; exact hc.outer, fun f hf hmark => ?_, fun hnil => ?_⟩
  · rw [hstack] at hf
    cases b with
    | true => rfl
    | false => exact (hclear rfl f (List.mem_of_mem_head? hf) hmark).elim
  · rw [hstack] at hnil
    cases b with
    | true => exact (hset rfl hnil).elim
    | false => rfl

/-- A call that goes on or returns in a calm state leaves it calm. -/
theorem calm_advance (hc : Calm x s) {f : Frame} {rest : List Frame}
    (hstack : s.stack x = f :: rest)
    (hcase : f.pc = .entered ∧ t = (s.setFlag true).setStack x (⟨f.sig_no, .marked⟩ :: rest) ∨
      f.pc = .marked ∧ t = s.setStack x (⟨f.sig_no, .handler⟩ :: rest) ∨
      f.pc = .handler ∧ t = s.setStack x (⟨f.sig_no, .handled⟩ :: rest) ∨
      f.pc = .handled ∧ t = (s.setFlag false).setStack x rest) : Calm x t := by
  obtain ⟨houter, hinner, _⟩ := hc
  rw [hstack] at houter hinner
  rcases hcase with ⟨_, rfl⟩ | ⟨hpc, rfl⟩ | ⟨hpc, rfl⟩ | ⟨hpc, rfl⟩
  · exact ⟨by simpa using houter, fun _ _ _ => rfl, by simp⟩
  · exact ⟨by simpa using houter, fun _ _ _ => hinner f rfl (.inl hpc), by simp⟩
  · refine ⟨by simpa using houter, fun g hg hmark => ?_, by simp⟩
    rw [setStack_self] at hg
    obtain rfl : (⟨f.sig_no, .handled⟩ : Frame) = g := Option.some.inj hg
    exact absurd hmark (by simp [Pc.Marked])
  · refine ⟨fun g hg => ?_, fun g hg hmark => ?_, fun _ => rfl⟩
    · rw [setStack_self] at hg
      exact houter g (List.mem_of_mem_tail hg)
    · rw [setStack_self] at hg
      exact absurd hmark (houter g (List.mem_of_mem_head? hg))

theorem calm_step (hm : Mapped s) (hc : Calm x s) (h : Step s a t) (hq : Undisturbed x s a) :
    Calm x t := by
  cases h with
  | signal sig func => exact hc.congr (signal_flag sig func) (by rw [signal_stack])
  | @deliver y sig =>
    by_cases hy : y = x
    · subst hy
      refine ⟨fun f hf => ?_, fun f hf hmark => ?_, by simp⟩
      · rw [setStack_self] at hf
        exact hq rfl f hf
      · rw [setStack_self] at hf
        obtain rfl : (⟨sig, .entered⟩ : Frame) = f := Option.some.inj hf
        exact absurd hmark (by simp [Pc.Marked])
    · exact hc.congr rfl (setStack_of_ne (Ne.symm hy))
  | @advance y _ ha =>
    obtain ⟨f, rest, hstack, hcase⟩ := advance_cases hm ha
    by_cases hy : y = x
    · subst hy
      exact calm_advance hc hstack hcase
    · obtain ⟨hset, hclear⟩ := hq hy f (by rw [hstack]; rfl)
      rcases hcase with ⟨hpc, rfl⟩ | ⟨_, rfl⟩ | ⟨_, rfl⟩ | ⟨hpc, rfl⟩
      · exact calm_other hc (Ne.symm hy) (fun _ => hset hpc) nofun
      · exact hc.congr rfl (setStack_of_ne (Ne.symm hy))
      · exact hc.congr rfl (setStack_of_ne (Ne.symm hy))
      · exact calm_other hc (Ne.symm hy) nofun fun _ => hclear hpc

/-- A lost mark is never found again by the thread alone: a handler will be without it before the
stack is empty. -/
theorem doomed_step (hm : Mapped s) (hd : Doomed x s) (h : Step s a t) (hx : a.On x)
    (ht : Told x t) : Doomed x t := by
  cases h with
  | signal sig func => simpa [Doomed] using hd
  | @deliver y sig =>
    obtain rfl : y = x := hx
    left
    rw [setStack_self]
    rcases hd with ⟨f, hf, hmark⟩ | ⟨f, hf, hpc, _⟩
    · exact ⟨f, List.mem_of_mem_tail hf, hmark⟩
    · exact ⟨f, List.mem_of_mem_head? hf, .inl hpc⟩
  | @advance y _ ha =>
    obtain rfl : y = x := hx
    obtain ⟨f, rest, hstack, hcase⟩ := advance_cases hm ha
    have hinside := ht.inside
    unfold Doomed at hd ⊢
    rw [hstack] at hd
    rcases hd with ⟨g, hg, hmark⟩ | ⟨g, hg, hpc, hflag⟩
    · rcases hcase with ⟨_, rfl⟩ | ⟨_, rfl⟩ | ⟨_, rfl⟩ | ⟨_, rfl⟩
      · exact .inl ⟨g, by simpa using hg, hmark⟩
      · exact .inl ⟨g, by simpa using hg, hmark⟩
      · exact .inl ⟨g, by simpa using hg, hmark⟩
      · -- the flag has been cleared under the next call
        have hg' : g ∈ rest := hg
        rw [setStack_self] at hinside ⊢
        cases rest with
        | nil => cases hg'
        | cons f' rest' =>
          rcases List.mem_cons.mp hg' with rfl | hg'
          · rcases hmark with hpc | hpc
            · exact .inr ⟨g, rfl, hpc, rfl⟩
            · have hset := hinside g List.mem_cons_self hpc
              cases hset
          · exact .inl ⟨g, hg', hmark⟩
    · obtain rfl : f = g := Option.some.inj hg
      rcases hcase with ⟨hpc', _⟩ | ⟨_, rfl⟩ | ⟨hpc', _⟩ | ⟨hpc', _⟩
      · exact absurd (hpc.symm.trans hpc') (by decide)
      · rw [setStack_self] at hinside
        have hset := hinside ⟨f.sig_no, .handler⟩ List.mem_cons_self rfl
        have hsame : (s.setStack y (⟨f.sig_no, .handler⟩ :: rest)).isInterrupted =
          s.process_signaled := rfl
        rw [hsame, hflag] at hset
        cases hset
      · exact absurd (hpc.symm.trans hpc') (by decide)
      · exact absurd (hpc.symm.trans hpc') (by decide)

/-- A signal that comes after a mark dooms it. -/
theorem doomed_deliver {sig : ℕ} {f : Frame} (hf : f ∈ s.stack x) (hmark : f.pc.Marked) :
    Doomed x (s.setStack x (⟨sig, .entered⟩ :: s.stack x)) :=
  .inl ⟨f, by simpa using hf, hmark⟩

theorem doomed_run (hm : Mapped s) (hd : Doomed x s) (h : Run (Keeping (Told x) Step) s as t)
    (hx : ∀ a ∈ as, a.On x) : t.stack x ≠ [] := by
  induction h with
  | refl =>
    intro hnil
    rw [Doomed, hnil] at hd
    rcases hd with ⟨f, hf, _⟩ | ⟨f, hf, _⟩ <;> cases hf
  | step hst _ ih =>
    exact ih (mapped_step hm hst.1)
      (doomed_step hm hd hst.1 (hx _ List.mem_cons_self) hst.2)
      fun a ha => hx a (List.mem_cons_of_mem _ ha)

theorem keeping_of_guarded (hm : Mapped s) (hc : Calm x s)
    (h : Run (Guarded (Undisturbed x) Step) s as t) : Run (Keeping (Told x) Step) s as t := by
  induction h with
  | refl => exact .refl
  | step hst _ ih =>
    have hu := calm_step hm hc hst.2 hst.1
    exact .step ⟨hst.2, told_of_calm hu⟩ (ih (mapped_step hm hst.2) hu)

theorem guarded_of_keeping (hm : Mapped s) (h : Run (Keeping (Told x) Step) s as t)
    (hx : ∀ a ∈ as, a.On x) (ht : t.stack x = []) : Run (Guarded (Undisturbed x) Step) s as t := by
  induction h with
  | refl => exact .refl
  | step hst hrest ih =>
    have hon := hx _ List.mem_cons_self
    have hxs := fun a ha => hx a (List.mem_cons_of_mem _ ha)
    refine .step ⟨?_, hst.1⟩ (ih (mapped_step hm hst.1) hxs ht)
    cases hst.1 with
    | signal => exact trivial
    | deliver =>
      obtain rfl : _ = x := hon
      intro _ f hf hmark
      exact doomed_run (mapped_step hm hst.1) (doomed_deliver hf hmark) hrest hxs ht
    | advance => exact fun hne => (hne hon).elim

/-- In every run in which nothing disturbs the thread, the flag is right for it in every state. For
the whole runs of one thread, which end with an empty stack, that is so exactly when no signal is
delivered between a mark and the end of its handler. -/
theorem told_iff (x : X) :
    (∀ as t, Run (Guarded (Undisturbed x) Step) (initial X) as t →
      Run (Keeping (Told x) Step) (initial X) as t) ∧
    ∀ as t, (∀ a ∈ as, a.On x) → t.stack x = [] →
      (Run (Guarded (Undisturbed x) Step) (initial X) as t ↔
        Run (Keeping (Told x) Step) (initial X) as t) :=
  ⟨fun _ _ => keeping_of_guarded mapped_initial calm_initial, fun _ _ hx ht =>
    ⟨keeping_of_guarded mapped_initial calm_initial,
      fun h => guarded_of_keeping mapped_initial h hx ht⟩⟩

/-- Each of two threads handles a signal; the second is not through before the first has left its
handler. -/
theorem told_twice : ∃ t : State Bool, Run (Keeping (Told false) Step) (initial Bool)
    [.signal 10 true, .deliver false 10, .advance false, .advance false, .deliver true 10,
      .advance true, .advance true, .advance true, .advance false, .advance true] t ∧
    t.stack false = [⟨10, .handled⟩] ∧ t.stack true = [] :=
  ⟨_, (told_iff false).1 _ _ <|
    .guard (.signal 10 true) (by decide) <| .guard (.deliver rfl) (by decide) <|
    .guard (.advance rfl) (by decide) <| .guard (.advance rfl) (by decide) <|
    .guard (.deliver rfl) (by decide) <| .guard (.advance rfl) (by decide) <|
    .guard (.advance rfl) (by decide) <| .guard (.advance rfl) (by decide) <|
    .guard (.advance rfl) (by decide) <| .guard (.advance rfl) (by decide) .refl, rfl, rfl⟩

/-- A signal in a handler: when it has been handled the flag is down, and the first handler goes
on. A signal that another thread handles meanwhile takes the flag down as well. -/
theorem flag_lost_in_handler :
    (∃ s : State Bool, Run Step (initial Bool) [.signal 10 true, .deliver false 10,
      .advance false, .advance false, .deliver false 10, .advance false, .advance false,
      .advance false, .advance false] s ∧
      s.stack false = [⟨10, .handler⟩] ∧ s.isInterrupted = false ∧ ¬ Told false s) ∧
    ∃ s : State Bool, Run Step (initial Bool) [.signal 10 true, .deliver false 10,
      .advance false, .advance false, .deliver true 10, .advance true, .advance true,
      .advance true, .advance true] s ∧
      s.stack false = [⟨10, .handler⟩] ∧ s.isInterrupted = false ∧ ¬ Told false s := by
  have hlost : ∀ s : State Bool, s.stack false = [⟨10, .handler⟩] → s.isInterrupted = false →
      ¬ Told false s := by
    intro s hs hflag h
    have hset := h.inside ⟨10, .handler⟩ (by rw [hs]; exact List.mem_cons_self) rfl
    rw [hflag] at hset
    cases hset
  constructor
  · exact ⟨_, .step (.signal 10 true) <| .step (.deliver rfl) <| .step (.advance rfl) <|
      .step (.advance rfl) <| .step (.deliver rfl) <| .step (.advance rfl) <|
      .step (.advance rfl) <| .step (.advance rfl) <| .step (.advance rfl) .refl,
      rfl, rfl, hlost _ rfl rfl⟩
  · exact ⟨_, .step (.signal 10 true) <| .step (.deliver rfl) <| .step (.advance rfl) <|
      .step (.advance rfl) <| .step (.deliver rfl) <| .step (.advance rfl) <|
      .step (.advance rfl) <| .step (.advance rfl) <| .step (.advance rfl) .refl,
      rfl, rfl, hlost _ rfl rfl⟩

end CxxFiber.EHooker.Signals
