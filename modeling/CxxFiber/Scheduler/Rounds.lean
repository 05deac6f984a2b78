import CxxFiber.Library.Counting
import CxxFiber.Library.Runs
import Mathlib.Data.Int.Notation

/-! Rounds of `join()` and `join(int)` on one scheduler, one after the other. -/
namespace CxxFiber.Rounds

open Transition

/-- `defaultTaskQueue`, and the task queue of a stub: each `join(int)` makes new stubs. -/
inductive Queue
  | default
  | stub (generation index : ℕ)
  deriving DecidableEq, Repr

inductive Round
  | between
  | single
  | dispatching
  | multi
  deriving DecidableEq, Repr

/-- Where a fiber is; `held` by a worker that has polled it, or whose fiber is scheduling it. -/
inductive Place
  | fresh
  | queued (q : Queue)
  | held (i : ℕ)
  | suspended
  | retired
  deriving DecidableEq, Repr

/-- A worker's place in its loop. `calling f g`: fiber `f` has counted `g` and not yet added it. -/
inductive Stage (F : Type)
  | off
  | head
  | counted (total : ℤ)
  | busy (f : F)
  | calling (f g : F)
  | left
  deriving DecidableEq, Repr

variable {F : Type}

/-- `schedulerStubs` is the generation of the stubs made last and their number. The order inside a
queue is left open. -/
structure State (F : Type) where
  place : F → Place
  boundQueue : F → Option Queue
  schedulerStubs : Option (ℕ × ℕ)
  round : Round
  worker : ℕ → Stage F
  totalFiberCounter : ℤ

def initial : State F where
  place _ := .fresh
  boundQueue _ := none
  schedulerStubs := none
  round := .between
  worker _ := .off
  totalFiberCounter := 0

namespace State

/-- The queue that the loop of worker `i` polls: `localQueue`, or `defaultTaskQueue` in `join()`. -/
def own (s : State F) (i : ℕ) : Queue :=
  match s.round, s.schedulerStubs with
  | .multi, some (g, _) => .stub g i
  | _, _ => .default

/-- The queues that `scheduleIgnoreBalance` may choose: the index is any one in range. -/
def Routes (s : State F) (q : Queue) : Prop :=
  match s.schedulerStubs with
  | none => q = .default
  | some (g, k) => ∃ i < k, q = .stub g i

/-- The round in progress drains `q`; between two rounds, both variants start with the default
queue. -/
def Drains (s : State F) (q : Queue) : Prop :=
  match s.round with
  | .between | .single => q = .default
  | .dispatching => q = .default ∨ s.schedulerStubs ≠ none ∧ s.Routes q
  | .multi => s.schedulerStubs ≠ none ∧ s.Routes q

/-- `poll` on `q` returns null. -/
def Empty (s : State F) (q : Queue) : Prop := ∀ f, s.place f ≠ .queued q

@[simp] def setWorker (s : State F) (i : ℕ) (c : Stage F) : State F :=
  { s with worker := Function.update s.worker i c }

variable [DecidableEq F]

@[simp] def move (s : State F) (f : F) (p : Place) : State F :=
  { s with place := Function.update s.place f p }

/-- The head of `scheduleIgnoreBalance`. -/
@[simp] def count (s : State F) : State F :=
  { s with totalFiberCounter := s.totalFiberCounter + 1 }

/-- A worker's writes before the context switch. -/
@[simp] def bind (s : State F) (i : ℕ) (f : F) : State F :=
  { s with
    boundQueue := Function.update s.boundQueue f (some ((s.boundQueue f).getD (s.own i))) }

end State

inductive Act (F : Type)
  | schedule (f : F)
  | join
  | joinN (threadNums : ℤ)
  | dispatch
  | count (i : ℕ)
  | poll (i : ℕ)
  | call (i : ℕ) (g : F)
  | put (i : ℕ)
  | yield (i : ℕ)
  | suspend (i : ℕ)
  | resume (f : F)
  | terminate (i : ℕ)
  | finish
  deriving DecidableEq, Repr

/-- Only fibers call `schedule` during a round, and only the user between two. -/
inductive Step [DecidableEq F] (s : State F) : Act F → State F → Prop
  | schedule {f q} : s.round = .between → s.place f = .fresh → s.Routes q →
      Step s (.schedule f) (s.count.move f (.queued q))
  -- the head of a round
  | join : s.round = .between →
      Step s .join { s.setWorker 0 .head with round := .single }
  | joinRefused {k} : s.round = .between → k < 1 → Step s (.joinN k) s
  | joinOne : s.round = .between →
      Step s (.joinN 1) { s.setWorker 0 .head with round := .single }
  | joinMany {k g} : s.round = .between → 1 < k →
      g = (s.schedulerStubs.elim 0 fun p => p.1 + 1) →
      Step s (.joinN k) { s with schedulerStubs := some (g, k.toNat), round := .dispatching }
  | dispatch {f g k i} : s.round = .dispatching → s.place f = .queued .default →
      s.schedulerStubs = some (g, k) → i < k →
      Step s .dispatch (s.move f (.queued (.stub g i)))
  | dispatched {g k} : s.round = .dispatching → s.Empty .default →
      s.schedulerStubs = some (g, k) →
      Step s .dispatch
        { s with round := .multi, worker := fun i => if i < k then .head else .off }
  -- the loop
  | count {i} : s.worker i = .head →
      Step s (.count i) (s.setWorker i (.counted s.totalFiberCounter))
  | poll {i m f} : s.worker i = .counted m → s.place f = .queued (s.own i) →
      Step s (.poll i) (((s.bind i f).setWorker i (.busy f)).move f (.held i))
  | pollNull {i m} : s.worker i = .counted m → s.Empty (s.own i) → 0 < m →
      Step s (.poll i) (s.setWorker i .head)
  | pollDone {i m} : s.worker i = .counted m → s.Empty (s.own i) → m ≤ 0 →
      Step s (.poll i) (s.setWorker i .left)
  -- the fiber that worker `i` runs
  | call {i f g} : s.worker i = .busy f → s.place g = .fresh →
      Step s (.call i g) ((s.count.setWorker i (.calling f g)).move g (.held i))
  | put {i f g q} : s.worker i = .calling f g → s.Routes q →
      Step s (.put i) ((s.setWorker i (.busy f)).move g (.queued q))
  | yield {i f} : s.worker i = .busy f →
      Step s (.yield i) ((s.setWorker i .head).move f (.queued (s.own i)))
  | suspend {i f} : s.worker i = .busy f →
      Step s (.suspend i) ((s.setWorker i .head).move f .suspended)
  | resume {f q} : s.place f = .suspended → s.boundQueue f = some q →
      Step s (.resume f) (s.move f (.queued q))
  | terminate {i f} : s.worker i = .busy f →
      Step s (.terminate i)
        { (s.setWorker i .head).move f .retired with
          totalFiberCounter := s.totalFiberCounter - 1 }
  -- the end of a round
  | finishSingle : s.round = .single → s.worker 0 = .left →
      Step s .finish { s.setWorker 0 .off with round := .between }
  | finishMulti {g k} : s.round = .multi → s.schedulerStubs = some (g, k) →
      (∀ i < k, s.worker i = .left) →
      Step s .finish { s with round := .between, worker := fun _ => .off }

/-- Every fiber in a queue is in one that the round in progress drains, or between two rounds the
next one, and a worker leaves its loop only when its queue has been drained. -/
structure Law (s : State F) : Prop where
  placed : ∀ f q, s.place f = .queued q → s.Drains q
  drained : ∀ i, s.worker i = .left → s.Empty (s.own i)

/-- The condition on a step: a fiber is scheduled only while no `join(int)` has made stubs, or in a
round that polls them. -/
def Routed (s : State F) : Act F → Prop
  | .schedule _ => s.schedulerStubs = none
  | .put _ => s.schedulerStubs = none ∨ s.round = .multi
  | _ => True

variable {s t : State F} {a : Act F} {as : List (Act F)} {f g : F} {i : ℕ} {q : Queue} {p : Place}
  {c : Stage F}

def weight : Place → ℕ
  | .fresh | .retired => 0
  | .queued _ | .held _ | .suspended => 1

/-- A worker has a fiber in its hands. -/
def Has : Stage F → F → Prop
  | .busy f, g => g = f
  | .calling f f', g => g = f ∨ g = f'
  | _, _ => False

/-- A worker that will leave its loop if it polls null, or has left. -/
def Done : Stage F → Prop
  | .counted m => m ≤ 0
  | .left => True
  | _ => False

/-- Worker `i` takes part in the round. -/
def Works (s : State F) (i : ℕ) : Prop :=
  match s.round with
  | .between | .dispatching => False
  | .single => i = 0
  | .multi => ∃ g k, s.schedulerStubs = some (g, k) ∧ i < k

def Counts (s : State F) : Prop :=
  ∃ m : ℕ, s.totalFiberCounter = m ∧ Counting.Total weight s.place m

/-- Where the workers, the bindings and the stubs stand in each round. -/
structure Inv (s : State F) : Prop where
  counts : Counts s
  holds : ∀ i f, Has (s.worker i) f → s.place f = .held i
  apart : ∀ i f g, s.worker i = .calling f g → f ≠ g
  calm : ∀ i, s.worker i ≠ .off → Works s i
  stubs : s.round = .dispatching ∨ s.round = .multi → s.schedulerStubs ≠ none
  workers : ∀ g k, s.schedulerStubs = some (g, k) → 0 < k
  done : ∀ i, Done (s.worker i) → ∀ f, weight (s.place f) = 0
  bound : ∀ f q, s.boundQueue f = some q → weight (s.place f) ≠ 0 →
    (s.round = .single ∨ s.round = .multi) ∧ s.Drains q
  unbound : ∀ f, s.place f = .fresh → s.boundQueue f = none

theorem inv_initial : Inv (initial : State F) where
  counts := ⟨0, rfl, .zero fun _ => rfl⟩
  holds := by simp [initial, Has]
  apart := by simp [initial]
  calm := by simp [initial]
  stubs := by simp [initial]
  workers := by simp [initial]
  done := by simp [initial, Done]
  bound := by simp [initial]
  unbound := by simp [initial]

theorem Inv.none_live [DecidableEq F] (h : Inv s) (h0 : s.totalFiberCounter ≤ 0) (f : F) :
    weight (s.place f) = 0 := by
  obtain ⟨m, hm, ht⟩ := h.counts
  have hle := ht.single_le (p := f)
  omega

theorem Inv.busy (h : Inv s) (hw : s.worker i = .busy f) : s.place f = .held i :=
  h.holds i f (by rw [hw]; rfl)

theorem Inv.drains_own (h : Inv s) (hw : s.worker i ≠ .off) :
    (s.round = .single ∨ s.round = .multi) ∧ s.Drains (s.own i) := by
  have hc := h.calm i hw
  cases hr : s.round with
  | between | dispatching => simp [Works, hr] at hc
  | single => exact ⟨Or.inl rfl, by simp [State.Drains, State.own, hr]⟩
  | multi =>
    obtain ⟨g, k, hs, hk⟩ : ∃ g k, s.schedulerStubs = some (g, k) ∧ i < k := by
      simpa [Works, hr] using hc
    refine ⟨Or.inr rfl, ?_⟩
    simp only [State.Drains, State.own, State.Routes, hr, hs]
    exact ⟨by simp, i, hk, rfl⟩

/-- A worker moves on without a fiber. -/
theorem Inv.stage (h : Inv s) (hw : s.worker i ≠ .off) (hn : ∀ f, ¬ Has c f)
    (hd : Done c → ∀ f, weight (s.place f) = 0) : Inv (s.setWorker i c) where
  counts := h.counts
  holds j f hf := by
    by_cases hj : j = i
    · subst j
      exact (hn f (by simpa using hf)).elim
    · exact h.holds j f (by simpa [hj] using hf)
  apart j f g hj := by
    by_cases he : j = i
    · subst j
      obtain rfl : c = .calling f g := by simpa using hj
      exact (hn f (Or.inl rfl)).elim
    · exact h.apart j f g (by simpa [he] using hj)
  calm j hj := by
    by_cases he : j = i
    · subst j
      exact h.calm i hw
    · exact h.calm j (by simpa [he] using hj)
  stubs := h.stubs
  workers := h.workers
  done j hj := by
    by_cases he : j = i
    · subst j
      exact hd (by simpa using hj)
    · exact h.done j (by simpa [he] using hj)
  bound := h.bound
  unbound := h.unbound

theorem Inv.not_done (h : Inv s) (hf : weight (s.place f) ≠ 0) (j : ℕ) : ¬ Done (s.worker j) :=
  fun hd => hf (h.done j hd f)

/-- One fiber changes its place, at the hands of worker `i` if it was or comes to be there. -/
theorem Inv.move [DecidableEq F] {x : ℤ} {b : F → Option Queue} (h : Inv s)
    (hfree : ∀ j, s.place f = .held j → j = i)
    (hc : ∀ g, Has c g → g = f ∧ p = .held i ∨ g ≠ f ∧ s.place g = .held i)
    (ha : ∀ g g', c = .calling g g' → g ≠ g') (hi : c ≠ .off → Works s i)
    (hd : ∀ j, ¬ Done (s.worker j)) (hdc : ¬ Done c)
    (hp : p ≠ .fresh) (hbg : ∀ g, g ≠ f → b g = s.boundQueue g)
    (hbf : ∀ q, b f = some q → weight p ≠ 0 →
      (s.round = .single ∨ s.round = .multi) ∧ s.Drains q)
    (hx : ∃ m : ℕ, x = m ∧ Counting.Total weight (Function.update s.place f p) m) :
    Inv { s with
      place := Function.update s.place f p, boundQueue := b,
      worker := Function.update s.worker i c, totalFiberCounter := x } := by
  constructor
  case counts => exact hx
  case holds =>
    intro j g hg
    by_cases hj : j = i
    · subst j
      rcases hc g (by simpa using hg) with ⟨rfl, hp⟩ | ⟨hgf, hpg⟩
      · simpa using hp
      · simpa [hgf] using hpg
    · have hpg := h.holds j g (by simpa [hj] using hg)
      have hgf : g ≠ f := by
        rintro rfl
        exact hj (hfree j hpg)
      simpa [hgf] using hpg
  case apart =>
    intro j g g' hj
    by_cases hji : j = i
    · subst j
      exact ha g g' (by simpa using hj)
    · exact h.apart j g g' (by simpa [hji] using hj)
  case calm =>
    intro j hj
    by_cases hji : j = i
    · subst j
      exact hi (by simpa using hj)
    · exact h.calm j (by simpa [hji] using hj)
  case stubs => exact h.stubs
  case workers => exact h.workers
  case done =>
    intro j hj
    by_cases hji : j = i
    · subst j
      exact (hdc (by simpa using hj)).elim
    · exact (hd j (by simpa [hji] using hj)).elim
  case bound =>
    intro g q hg hw
    by_cases hgf : g = f
    · subst g
      exact hbf q hg (by simpa using hw)
    · exact h.bound g q ((hbg g hgf).symm.trans hg) (by simpa [hgf] using hw)
  case unbound =>
    intro g hg
    by_cases hgf : g = f
    · subst g
      exact (hp (by simpa using hg)).elim
    · exact (hbg g hgf).trans (h.unbound g (by simpa [hgf] using hg))

/-- The counter follows the weight of the place. -/
theorem Inv.total [DecidableEq F] {x : ℤ} (h : Inv s)
    (hx : x + weight (s.place f) = s.totalFiberCounter + weight p) :
    ∃ m : ℕ, x = m ∧ Counting.Total weight (Function.update s.place f p) m := by
  obtain ⟨m, hm, ht⟩ := h.counts
  have hle := ht.single_le (p := f)
  refine ⟨m + weight p - weight (s.place f), by omega, ht.update ?_⟩
  omega

/-- A fiber outside the workers' hands changes its place. -/
theorem Inv.place [DecidableEq F] {x : ℤ} (h : Inv s) (hf : ∀ j, s.place f ≠ .held j)
    (hd : ∀ j, ¬ Done (s.worker j)) (hp : p ≠ .fresh)
    (hb : ∀ q, s.boundQueue f = some q → (s.round = .single ∨ s.round = .multi) ∧ s.Drains q)
    (hx : x + weight (s.place f) = s.totalFiberCounter + weight p) :
    Inv { s with place := Function.update s.place f p, totalFiberCounter := x } := by
  have hi := h.move (f := f) (p := p) (i := 0) (c := s.worker 0) (b := s.boundQueue) (x := x)
    (fun j hj => (hf j hj).elim) ?_ (h.apart 0) (h.calm 0) hd (hd 0) hp (fun _ _ => rfl)
    (fun q hq _ => hb q hq) (h.total hx)
  · simpa using hi
  · intro g hg
    have hpg := h.holds 0 g hg
    refine Or.inr ⟨?_, hpg⟩
    rintro rfl
    exact hf 0 hpg

/-- The fiber of a worker leaves it, or comes back from its scheduling call. -/
theorem Inv.leave [DecidableEq F] {x : ℤ} (h : Inv s) (hw : Has (s.worker i) f)
    (hc : ∀ g, Has c g → g ≠ f ∧ Has (s.worker i) g) (ha : ∀ g g', c ≠ .calling g g')
    (hdc : ¬ Done c) (hp : p ≠ .fresh)
    (hx : x + 1 = s.totalFiberCounter + weight p) :
    Inv { s with
      place := Function.update s.place f p, worker := Function.update s.worker i c,
      totalFiberCounter := x } := by
  have hpf := h.holds i f hw
  have hlive : weight (s.place f) ≠ 0 := by simp [hpf, weight]
  have hoff : s.worker i ≠ .off := by
    intro ho
    simp [ho, Has] at hw
  have hi := h.move (f := f) (p := p) (i := i) (c := c) (b := s.boundQueue) (x := x)
    (fun j hj => by simpa using hj.symm.trans hpf) ?_
    (fun g g' hcg => (ha g g' hcg).elim) (fun _ => h.calm i hoff) (h.not_done hlive) hdc hp
    (fun _ _ => rfl) (fun q hq _ => h.bound f q hq hlive)
    (h.total (by simpa [hpf, weight] using hx))
  · exact hi
  · intro g hg
    obtain ⟨hgf, hg⟩ := hc g hg
    exact Or.inr ⟨hgf, h.holds i g hg⟩

/-- A round starts or ends. -/
theorem Inv.turn {r : Round} {z : Option (ℕ × ℕ)} {w : ℕ → Stage F} (h : Inv s)
    (hb : ∀ f q, s.boundQueue f = some q → weight (s.place f) = 0)
    (hw : ∀ i, w i = .head ∧ Works { s with round := r, schedulerStubs := z } i ∨ w i = .off)
    (hz : r = .dispatching ∨ r = .multi → z ≠ none) (hk : ∀ g k, z = some (g, k) → 0 < k) :
    Inv { s with round := r, schedulerStubs := z, worker := w } := by
  constructor
  case counts => exact h.counts
  case holds =>
    intro i f hf
    rcases hw i with ⟨hi, _⟩ | hi <;> simp [hi, Has] at hf
  case apart =>
    intro i f g hf
    rcases hw i with ⟨hi, _⟩ | hi <;> simp [hi] at hf
  case calm =>
    intro i hn
    rcases hw i with ⟨_, hk⟩ | hi
    · exact hk
    · exact (hn hi).elim
  case stubs => exact hz
  case workers => exact hk
  case done =>
    intro i hd
    rcases hw i with ⟨hi, _⟩ | hi <;> simp [hi, Done] at hd
  case bound =>
    intro f q hq hlive
    exact (hlive (hb f q hq)).elim
  case unbound => exact h.unbound

theorem Inv.off [DecidableEq F]
    (h : Inv s) (hr : s.round = .between ∨ s.round = .dispatching) (i : ℕ) :
    s.worker i = .off := by
  by_contra hn
  have hw := h.calm i hn
  rcases hr with hr | hr <;> simp [Works, hr] at hw

/-- Outside the loops no fiber that is still to run is bound. -/
theorem Inv.unbound_live (h : Inv s) (hr : s.round = .between ∨ s.round = .dispatching) (f : F)
    (q : Queue) (hq : s.boundQueue f = some q) : weight (s.place f) = 0 := by
  by_contra hn
  obtain ⟨hs, _⟩ := h.bound f q hq hn
  rcases hr with hr | hr <;> simp [hr] at hs

/-- The workers of a round that starts. -/
theorem Inv.single [DecidableEq F] (h : Inv s) (hr : s.round = .between) :
    Inv { s.setWorker 0 .head with round := .single } := by
  apply h.turn (h.unbound_live (Or.inl hr))
  · intro i
    by_cases hi : i = 0
    · subst i
      exact Or.inl ⟨by simp, rfl⟩
    · exact Or.inr (by simpa [hi] using h.off (Or.inl hr) i)
  · simp
  · exact h.workers

theorem Inv.not_done_off [DecidableEq F]
    (h : Inv s) (hr : s.round = .between ∨ s.round = .dispatching) (j : ℕ) :
    ¬ Done (s.worker j) := by
  simp [h.off hr j, Done]

theorem Inv.poll [DecidableEq F] {m : ℤ} (h : Inv s) (hw : s.worker i = .counted m)
    (hf : s.place f = .queued (s.own i)) :
    Inv (((s.bind i f).setWorker i (.busy f)).move f (.held i)) := by
  have hlive : weight (s.place f) ≠ 0 := by simp [hf, weight]
  have hown := h.drains_own (i := i) (by simp [hw])
  apply h.move (f := f) (p := .held i) (i := i) (c := .busy f)
  · intro j hj
    simp [hf] at hj
  · intro g hg
    exact Or.inl ⟨hg, rfl⟩
  · simp
  · intro _
    exact h.calm i (by simp [hw])
  · exact h.not_done hlive
  · exact id
  · simp
  · intro g hg
    simp [hg]
  · intro q hq _
    -- an earlier binding is drained in this round, and so is the worker's own queue
    cases hb : s.boundQueue f with
    | none =>
      obtain rfl : s.own i = q := by simpa [hb] using hq
      exact hown
    | some q' =>
      obtain rfl : q' = q := by simpa [hb] using hq
      exact h.bound f q' hb hlive
  · exact h.total (by simp [hf, weight])

theorem inv_step [DecidableEq F] (hst : Step s a t) (h : Inv s) : Inv t := by
  cases hst with
  | @schedule f q hr hf hq =>
    apply h.place
    · simp [hf]
    · exact h.not_done_off (Or.inl hr)
    · simp
    · simp [h.unbound f hf]
    · simp [hf, weight]
  | join hr | joinOne hr => exact h.single hr
  | joinRefused => exact h
  | joinMany hr hk hg =>
    apply h.turn (h.unbound_live (Or.inl hr))
    · intro i
      exact Or.inr (h.off (Or.inl hr) i)
    · simp
    · rintro _ _ ⟨⟩
      omega
  | @dispatch f g k i hr hf hs hi =>
    have hlive : weight (s.place f) ≠ 0 := by simp [hf, weight]
    apply h.place
    · simp [hf]
    · exact h.not_done hlive
    · simp
    · intro q hq
      exact h.bound f q hq hlive
    · simp [hf, weight]
  | @dispatched g k hr he hs =>
    apply h.turn (h.unbound_live (Or.inr hr))
    · intro i
      by_cases hi : i < k
      · exact Or.inl ⟨by simp [hi], g, k, hs, hi⟩
      · exact Or.inr (by simp [hi])
    · simp [hs]
    · exact h.workers
  | @count i hw =>
    apply h.stage (by simp [hw]) (by simp [Has])
    exact fun hd => h.none_live hd
  | poll hw hf => exact h.poll hw hf
  | pollNull hw he hm =>
    exact h.stage (by simp [hw]) (by simp [Has]) fun hd => hd.elim
  | @pollDone i m hw he hm =>
    refine h.stage (by simp [hw]) (by simp [Has]) fun _ => h.done i ?_
    rw [hw]
    exact hm
  | @call i f g hw hg =>
    have hpf := h.busy hw
    have hlive : weight (s.place f) ≠ 0 := by simp [hpf, weight]
    apply h.move (f := g) (p := .held i) (i := i) (c := .calling f g)
    · simp [hg]
    · intro g' hg'
      by_cases he : g' = g
      · exact Or.inl ⟨he, rfl⟩
      · obtain rfl : g' = f := hg'.resolve_right he
        exact Or.inr ⟨he, hpf⟩
    · rintro _ _ ⟨⟩ rfl
      simp [hg] at hpf
    · intro _
      exact h.calm i (by simp [hw])
    · exact h.not_done hlive
    · exact id
    · simp
    · intro _ _
      rfl
    · simp [h.unbound g hg]
    · exact h.total (by simp [hg, weight])
  | @put i f g q hw hq =>
    apply h.leave (i := i)
    · simp [hw, Has]
    · intro g' hg'
      obtain rfl : g' = f := hg'
      exact ⟨h.apart i g' g hw, by simp [hw, Has]⟩
    · simp
    · exact id
    · simp
    · simp [weight]
  | @yield i f hw | @suspend i f hw =>
    apply h.leave (i := i)
    · simp [hw, Has]
    · exact fun _ hg => hg.elim
    · simp
    · exact id
    · simp
    · simp [weight]
  | @resume f q hf hq =>
    have hlive : weight (s.place f) ≠ 0 := by simp [hf, weight]
    apply h.place
    · simp [hf]
    · exact h.not_done hlive
    · simp
    · intro q hq
      exact h.bound f q hq hlive
    · simp [hf, weight]
  | @terminate i f hw =>
    apply h.leave (i := i)
    · simp [hw, Has]
    · exact fun _ hg => hg.elim
    · simp
    · exact id
    · simp
    · simp [weight]
  | finishSingle hr hw =>
    have hdone := h.done 0 (by rw [hw]; trivial)
    apply h.turn (fun f _ _ => hdone f)
    · intro i
      refine Or.inr ?_
      by_cases hi : i = 0
      · simp [hi]
      · by_contra hn
        have hc := h.calm i (by simpa [hi] using hn)
        exact hi (by simpa [Works, hr] using hc)
    · simp
    · exact h.workers
  | @finishMulti g k hr hs hw =>
    have hdone := h.done 0 (by rw [hw 0 (h.workers g k hs)]; trivial)
    apply h.turn (fun f _ _ => hdone f)
    · exact fun _ => Or.inr rfl
    · simp
    · exact h.workers

/-- What the law says about the queues; the other half always holds. -/
def Placed (s : State F) : Prop := ∀ f q, s.place f = .queued q → s.Drains q

theorem Inv.law (h : Inv s) : Law s ↔ Placed s := by
  constructor
  · intro hl
    exact hl.placed
  · intro hp
    refine ⟨hp, fun i hi f hf => ?_⟩
    have hz := h.done i (by rw [hi]; trivial) f
    simp [hf, weight] at hz

theorem placed_move [DecidableEq F]
    (hp : Placed s) : (∀ g q, Function.update s.place f p g = .queued q →
    s.Drains q) ↔ ∀ q, p = .queued q → s.Drains q := by
  constructor
  · intro h q hq
    exact h f q (by simpa using hq)
  · intro h g q hg
    by_cases hgf : g = f
    · subst g
      exact h q (by simpa using hg)
    · exact hp g q (by simpa [hgf] using hg)

theorem Inv.drains_put (h : Inv s) (hr : s.round = .single ∨ s.round = .multi)
    (hq : s.Routes q) : s.Drains q ↔ s.schedulerStubs = none ∨ s.round = .multi := by
  rcases hr with hr | hr
  · cases hs : s.schedulerStubs with
    | none => simpa [State.Drains, State.Routes, hr, hs] using hq
    | some z =>
      obtain ⟨i, _, rfl⟩ : ∃ i < z.2, q = .stub z.1 i := by simpa [State.Routes, hs] using hq
      simp [State.Drains, hr]
  · have hn := h.stubs (Or.inr hr)
    simp [State.Drains, hr, hn, hq]

theorem drains_schedule (hr : s.round = .between) (hq : s.Routes q) :
    s.Drains q ↔ s.schedulerStubs = none := by
  cases hs : s.schedulerStubs with
  | none => simpa [State.Drains, State.Routes, hr, hs] using hq
  | some z =>
    obtain ⟨i, _, rfl⟩ : ∃ i < z.2, q = .stub z.1 i := by simpa [State.Routes, hs] using hq
    simp [State.Drains, hr]

/-- A step keeps the queues drained exactly when the call it makes, if any, is routed. -/
theorem placed_step [DecidableEq F]
    (hst : Step s a t) (h : Inv s) (hp : Placed s) : Placed t ↔ Routed s a := by
  have hdefault : ∀ {f q}, s.round = .between → s.place f = .queued q → q = .default := by
    intro f q hr hf
    have hd := hp f q hf
    simpa [State.Drains, hr] using hd
  cases hst with
  | @schedule f q hr hf hq =>
    have hm := placed_move (f := f) (p := .queued q) hp
    have hd := drains_schedule hr hq
    constructor
    · intro ht
      exact hd.mp (hm.mp ht q rfl)
    · intro hg
      apply hm.mpr
      rintro _ ⟨⟩
      exact hd.mpr hg
  | @put i f g q hw hq =>
    have hm := placed_move (f := g) (p := .queued q) hp
    have hd := h.drains_put (h.drains_own (i := i) (by simp [hw])).1 hq
    constructor
    · intro ht
      exact hd.mp (hm.mp ht q rfl)
    · intro hg
      apply hm.mpr
      rintro _ ⟨⟩
      exact hd.mpr hg
  | join hr | joinOne hr =>
    refine iff_of_true (fun f q hf => ?_) trivial
    exact hdefault hr hf
  | joinRefused => exact iff_of_true hp trivial
  | joinMany hr =>
    refine iff_of_true (fun f q hf => ?_) trivial
    exact Or.inl (hdefault hr hf)
  | @dispatch f g k i hr hf hs hi =>
    refine iff_of_true ((placed_move hp).mpr ?_) trivial
    rintro _ ⟨⟩
    simp only [State.Drains, State.Routes, hr, hs]
    exact Or.inr ⟨by simp, i, hi, rfl⟩
  | dispatched hr he hs =>
    refine iff_of_true (fun f q hf => ?_) trivial
    have hd : q = .default ∨ s.schedulerStubs ≠ none ∧ s.Routes q := by
      have hd := hp f q hf
      simpa only [State.Drains, hr] using hd
    rcases hd with rfl | hd
    · exact (he f hf).elim
    · exact hd
  | count | pollNull | pollDone => exact iff_of_true hp trivial
  | poll | call | suspend | terminate =>
    refine iff_of_true ((placed_move hp).mpr ?_) trivial
    simp
  | @yield i f hw =>
    refine iff_of_true ((placed_move hp).mpr ?_) trivial
    rintro _ ⟨⟩
    exact (h.drains_own (i := i) (by simp [hw])).2
  | @resume f q hf hq =>
    refine iff_of_true ((placed_move hp).mpr ?_) trivial
    rintro _ ⟨⟩
    exact (h.bound f q hq (by simp [hf, weight])).2
  | finishSingle hr =>
    refine iff_of_true (fun f q hf => ?_) trivial
    have hd := hp f q hf
    simpa only [State.Drains, hr] using hd
  | @finishMulti g k hr hs hw =>
    refine iff_of_true (fun f q hf => ?_) trivial
    have hz := h.done 0 (by rw [hw 0 (h.workers g k hs)]; trivial) f
    have hf : s.place f = .queued q := hf
    simp [hf, weight] at hz

theorem law_initial : Law (initial : State F) := by
  constructor <;> simp [initial]

variable [DecidableEq F]

end CxxFiber.Rounds
