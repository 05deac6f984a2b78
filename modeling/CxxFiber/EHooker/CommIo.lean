import CxxFiber.EHooker.System

/-! `comm_io_on_fiber`: the calls that it makes, where it parks and what it returns. -/
namespace CxxFiber.EHooker.CommIo

inductive Errno
  | eagain
  | ewouldblock
  | etimedout
  | other (code : ℕ)
  deriving DecidableEq, Repr

/-- What a call returns; an error is -1 with `errno`. -/
inductive Result
  | value (n : ℕ)
  | error (errno : Errno)
  deriving DecidableEq, Repr

/-- The test for `EAGAIN` and `EWOULDBLOCK`. -/
def Result.again : Result → Bool
  | .error .eagain | .error .ewouldblock => true
  | _ => false

/-- An outcome of `fn` or of the inner `poll`, which returns what the kernel answers (0 only while a
signal is handled), or parks the fiber and returns 1 or 0 when it has been resumed. -/
inductive Event
  | fn (r : Result)
  | polled (ready : Bool)
  | pollError (errno : Errno)
  | park
  | resumed (ready : Bool)
  deriving DecidableEq, Repr

/-- `direct` only calls `fn`, `tryOnce` is the call before the first `poll`, `call` the one after
a `poll` that returned 1. -/
inductive Pc
  | direct
  | tryOnce
  | poll
  | parked
  | call
  | returned (r : Result)
  deriving DecidableEq, Repr

/-- The head of `comm_io_on_fiber`. It is `hooked` in a fiber, on a stream descriptor and outside of
signal handlers. -/
def enter (io : CommIo) (hooked userNonBlocked : Bool) : Pc :=
  if !hooked || userNonBlocked then .direct
  else if io.event.pollout then .tryOnce
  else .poll

/-- What an outcome leads to; none if it is not one that the code waits for. The timeout of `poll`
is `io.milliseconds`, which is never 0. -/
def Pc.next : Pc → Event → Option Pc
  | .direct, .fn r => some (.returned r)
  | .tryOnce, .fn (.value n) => some (.returned (.value n))
  -- the errno is not looked at
  | .tryOnce, .fn (.error _) => some .poll
  | .poll, .polled true | .parked, .resumed true => some .call
  | .poll, .polled false | .parked, .resumed false => some (.returned (.error .etimedout))
  | .poll, .pollError e => some (.returned (.error e))
  | .poll, .park => some .parked
  | .call, .fn r => some (if r.again then .poll else .returned r)
  | _, _ => none

/-- A call on a descriptor in user-blocking mode, after the given outcomes. -/
def exec (io : CommIo) (as : List Event) : Option Pc := as.foldlM Pc.next (io.enter true false)

/-- What an outcome makes the call return. -/
def Event.decides : Event → Option Result
  | .fn r => if r.again then none else some r
  | .pollError e => some (.error e)
  | .polled false | .resumed false => some (.error .etimedout)
  | _ => none

/-- What `fn` returned last. -/
def lastFn (as : List Event) : Option Result :=
  as.foldl (fun last a => match a with
    | .fn r => some r
    | _ => last) none

/-- After an `EAGAIN` or `EWOULDBLOCK`, or for reads before the first call. -/
def MayPark (io : CommIo) (as : List Event) : Prop :=
  match lastFn as with
  | none => io.event.pollout = false
  | some r => r.again = true

/-- The first deciding outcome is returned, nothing comes after it, and the fiber parks only where
it may. -/
structure Meets (io : CommIo) (as : List Event) (pc : Pc) : Prop where
  returns : ∀ r, pc = .returned r ↔ as.findSome? Event.decides = some r
  last : ∀ bs a cs, as = bs ++ a :: cs → a.decides ≠ none → cs = []
  parks : ∀ bs cs, as = bs ++ .park :: cs → MayPark io bs

/-- A write whose first call fails with another error. -/
def FailsFirst (io : CommIo) (as : List Event) : Prop :=
  io.event.pollout = true ∧ ∃ e cs, as = .fn (.error e) :: cs ∧ (Result.error e).again = false

variable {io : CommIo} {as bs cs : List Event} {a : Event} {pc pc' : Pc} {r : Result}

theorem exec_append : io.exec (as ++ [a]) = (io.exec as).bind fun pc => pc.next a := by
  unfold exec
  rw [List.foldlM_append]
  cases as.foldlM Pc.next (io.enter true false) with
  | none => rfl
  | some pc => simp

theorem lastFn_fn : lastFn (as ++ [.fn r]) = some r := by
  simp [lastFn]

/-- A list that ends with `a` splits before its last element or at it. -/
theorem append_eq_split {b : Event} (h : as ++ [a] = bs ++ b :: cs) :
    (cs = [] ∧ as = bs ∧ a = b) ∨ ∃ cs', as = bs ++ b :: cs' := by
  rcases List.eq_nil_or_concat cs with rfl | ⟨cs', c, rfl⟩
  · obtain ⟨h1, h2⟩ := List.append_inj' h rfl
    exact Or.inl ⟨rfl, h1, by simpa using h2⟩
  · have h : as ++ [a] = (bs ++ b :: cs') ++ [c] := by simpa using h
    obtain ⟨h1, -⟩ := List.append_inj' h rfl
    exact Or.inr ⟨cs', h1⟩

/-- One more outcome for a call that has not returned. -/
theorem Meets.snoc (h : Meets io as pc) (hp : ∀ r, pc ≠ .returned r)
    (hr : ∀ r, pc' = .returned r ↔ a.decides = some r) (hk : a = .park → MayPark io as) :
    Meets io (as ++ [a]) pc' := by
  have hnone : as.findSome? Event.decides = none := by
    cases hs : as.findSome? Event.decides with
    | none => rfl
    | some r => exact (hp r ((h.returns r).mpr hs)).elim
  constructor
  case returns =>
    intro r
    simp [List.findSome?_append, hnone, hr r]
  case last =>
    intro bs b cs hb hd
    rcases append_eq_split hb with ⟨hc, _⟩ | ⟨cs', rfl⟩
    · exact hc
    · exact (hd (List.findSome?_eq_none_iff.mp hnone b (by simp))).elim
  case parks =>
    intro bs cs hb
    rcases append_eq_split hb with ⟨_, rfl, rfl⟩ | ⟨cs', hs⟩
    · exact hk rfl
    · exact h.parks bs cs' hs

/-- What holds after any outcomes, unless a write has failed first. -/
structure Inv (io : CommIo) (as : List Event) (pc : Pc) : Prop where
  hooked : pc ≠ .direct
  first : pc = .tryOnce → as = [] ∧ io.event.pollout = true
  ready : pc = .poll → MayPark io as
  meets : Meets io as pc

theorem inv_enter : Inv io [] (io.enter true false) := by
  cases hp : io.event.pollout with
  | true =>
    have he : io.enter true false = .tryOnce := by simp [enter, hp]
    rw [he]
    exact ⟨by simp, fun _ => ⟨rfl, hp⟩, by simp, by simp, by simp, by simp⟩
  | false =>
    have he : io.enter true false = .poll := by simp [enter, hp]
    rw [he]
    exact ⟨by simp, by simp, fun _ => hp, by simp, by simp, by simp⟩

/-- The inner `poll` has returned 1 or 0. -/
theorem inv_polled {ready : Bool} (h : Meets io as pc) (hp : ∀ r, pc ≠ .returned r)
    (ha : a = .polled ready ∨ a = .resumed ready) :
    Inv io (as ++ [a]) (if ready then .call else .returned (.error .etimedout)) := by
  cases ready with
  | true =>
    refine ⟨by simp, by simp, by simp, h.snoc hp ?_ ?_⟩
    · rcases ha with rfl | rfl <;> simp [Event.decides]
    · rcases ha with rfl | rfl <;> simp
  | false =>
    refine ⟨by simp, by simp, by simp, h.snoc hp ?_ ?_⟩
    · rcases ha with rfl | rfl <;> simp [Event.decides]
    · rcases ha with rfl | rfl <;> simp

theorem inv_next (h : Inv io as pc) (hn : pc.next a = some pc')
    (hf : ¬ FailsFirst io (as ++ [a])) : Inv io (as ++ [a]) pc' := by
  cases pc with
  | direct => exact (h.hooked rfl).elim
  | returned r => simp [Pc.next] at hn
  | tryOnce =>
    obtain ⟨rfl, hp⟩ := h.first rfl
    cases a with
    | fn r =>
      cases r with
      | value n =>
        obtain rfl : Pc.returned (.value n) = pc' := Option.some.inj hn
        refine ⟨by simp, by simp, by simp, h.meets.snoc (by simp) ?_ (by simp)⟩
        simp [Event.decides, Result.again]
      | error e =>
        obtain rfl : Pc.poll = pc' := Option.some.inj hn
        have hag : (Result.error e).again = true := by
          by_contra hag
          exact hf ⟨hp, e, [], rfl, by simpa using hag⟩
        refine ⟨by simp, by simp, fun _ => ?_, h.meets.snoc (by simp) ?_ (by simp)⟩
        · simpa [MayPark, lastFn] using hag
        · simp [Event.decides, hag]
    | _ => simp [Pc.next] at hn
  | poll =>
    cases a with
    | polled ready =>
      obtain rfl : (if ready then Pc.call else .returned (.error .etimedout)) = pc' := by
        cases ready <;> exact Option.some.inj hn
      exact inv_polled h.meets (by simp) (Or.inl rfl)
    | pollError e =>
      obtain rfl : Pc.returned (.error e) = pc' := Option.some.inj hn
      exact ⟨by simp, by simp, by simp, h.meets.snoc (by simp) (by simp [Event.decides]) (by simp)⟩
    | park =>
      obtain rfl : Pc.parked = pc' := Option.some.inj hn
      exact ⟨by simp, by simp, by simp,
        h.meets.snoc (by simp) (by simp [Event.decides]) fun _ => h.ready rfl⟩
    | _ => simp [Pc.next] at hn
  | parked =>
    cases a with
    | resumed ready =>
      obtain rfl : (if ready then Pc.call else .returned (.error .etimedout)) = pc' := by
        cases ready <;> exact Option.some.inj hn
      exact inv_polled h.meets (by simp) (Or.inr rfl)
    | _ => simp [Pc.next] at hn
  | call =>
    cases a with
    | fn r =>
      obtain rfl : (if r.again then Pc.poll else .returned r) = pc' := Option.some.inj hn
      cases hag : r.again with
      | true =>
        refine ⟨by simp, by simp, fun _ => ?_, h.meets.snoc (by simp) ?_ (by simp)⟩
        · simpa [MayPark, lastFn_fn] using hag
        · simp [Event.decides, hag]
      | false =>
        refine ⟨by simp, by simp, by simp, h.meets.snoc (by simp) ?_ (by simp)⟩
        simp [Event.decides, hag]
    | _ => simp [Pc.next] at hn

theorem FailsFirst.append (h : FailsFirst io as) : FailsFirst io (as ++ [a]) := by
  obtain ⟨hp, e, cs, rfl, he⟩ := h
  exact ⟨hp, e, cs ++ [a], rfl, he⟩

theorem inv_exec (h : io.exec as = some pc) (hf : ¬ FailsFirst io as) : Inv io as pc := by
  induction as using List.reverseRecOn generalizing pc with
  | nil =>
    obtain rfl : io.enter true false = pc := Option.some.inj h
    exact inv_enter
  | append_singleton as a ih =>
    rw [exec_append] at h
    obtain ⟨pc₀, h₀, hn⟩ := Option.bind_eq_some_iff.mp h
    exact inv_next (ih h₀ fun hf₀ => hf hf₀.append) hn hf

theorem first_outcome_iff (h : io.exec as = some pc) : Meets io as pc ↔ ¬ FailsFirst io as := by
  constructor
  case mp =>
    rintro hm ⟨hp, e, cs, rfl, he⟩
    have hd : (Event.fn (.error e)).decides = some (.error e) := by simp [Event.decides, he]
    obtain rfl : cs = [] := hm.last [] _ cs rfl (by simp [hd])
    have hpc : pc = .returned (.error e) := (hm.returns _).mpr (by simp [hd])
    have hpoll : io.exec [.fn (.error e)] = some .poll := by simp [exec, enter, hp, Pc.next]
    simp [hpoll, hpc] at h
  case mpr => exact fun hf => (inv_exec h hf).meets

/-- A read that polls, finds nothing and parks, finds nothing again and parks until the timeout. -/
theorem first_outcome_timeout :
    Meets ⟨3, ⟨true, false⟩, 100, 0⟩ [.park, .resumed true, .fn (.error .eagain), .park,
      .resumed false] (.returned (.error .etimedout)) := by
  apply (first_outcome_iff (by decide)).mpr
  rintro ⟨hp, -⟩
  simp at hp

/-- A write on a broken pipe: `EPIPE` (32) is not returned, and the fiber parks. -/
theorem error_not_returned : (⟨3, ⟨false, true⟩, 0, 0⟩ : CommIo).exec
      [.fn (.error (.other 32)), .park] = some .parked ∧
    ¬ Meets ⟨3, ⟨false, true⟩, 0, 0⟩ [.fn (.error (.other 32)), .park] .parked := by
  refine ⟨by decide, fun h => ?_⟩
  have hl := h.last [] _ [.park] rfl (by decide)
  simp at hl

end CxxFiber.EHooker.CommIo
