import CxxFiber.EFiberBlocker
import CxxFiber.Library.Runs
import Mathlib.Data.List.Range

/-! `EFiberCondition`: `await`, `signal` and `signalAll` on one queue of one-shot blockers. -/
namespace CxxFiber.Condition

open Transition

/-- Where a caller stands. `n` is the blocker that its `await` put into `waiters`, or the one that
its `signal` or `signalAll` is about to wake; an iterator is at `i`, and `k` blockers had been
added when it was made. -/
inductive CallPc
  | idle
  | checking (n : ℕ)
  | yielding (n : ℕ)
  | parked (n : ℕ)
  | resumed (n : ℕ)
  | signalling (n : ℕ)
  | iterating (i k : ℕ)
  | visiting (n k : ℕ)
  deriving DecidableEq, Repr

variable {P : Type}

/-- Blockers are numbered as they are added. `signalled` (the blockers that `signal` polled) and
`visited` (those that an iterator of `signalAll` returned) are history. -/
structure State (P : Type) where
  waiters : List ℕ
  enqueued : ℕ
  blocker : ℕ → EFiberBlocker P
  pc : P → CallPc
  signalled : List ℕ
  visited : List ℕ

def initial : State P where
  waiters := []
  enqueued := 0
  blocker _ := .create 0 EFiberBlocker.noLimit
  pc _ := .idle
  signalled := []
  visited := []

/-- The blocker that a caller is about to wake, and where it goes from there. -/
def waking : CallPc → Option (ℕ × CallPc)
  | .signalling n => some (n, .idle)
  | .visiting n k => some (n, .iterating (n + 1) k)
  | _ => none

/-- The blocker of a caller in `await`. -/
def entry : CallPc → Option ℕ
  | .checking n | .yielding n | .parked n | .resumed n => some n
  | _ => none

variable [DecidableEq P]

namespace State

@[simp] def setPc (s : State P) (p : P) (c : CallPc) : State P :=
  { s with pc := Function.update s.pc p c }

@[simp] def setBlocker (s : State P) (n : ℕ) (b : EFiberBlocker P) : State P :=
  { s with blocker := Function.update s.blocker n b }

/-- A dequeued waiter is resumed. -/
@[simp] def resume (s : State P) (n : ℕ) : Woken P → State P
  | .waiter q => s.setPc q (.resumed n)
  | _ => s

end State

inductive Act (P : Type)
  | await (p : P)
  | check (p : P)
  | swapOut (p : P)
  | resume (p : P)
  | signal (p : P)
  | signalAll (p : P)
  | next (p : P)
  | finish (p : P)
  | wakeUp (p : P)
  deriving DecidableEq, Repr

/-- The iterator is weakly consistent: it returns what was in the queue when it was made and still
is, in order, and may or may not return what was polled or added since. -/
inductive Step (s : State P) : Act P → State P → Prop
  | await {p} : s.pc p = .idle → Step s (.await p)
      { (s.setPc p (.checking s.enqueued)).setBlocker s.enqueued
          (.create 0 EFiberBlocker.noLimit) with
        waiters := s.waiters ++ [s.enqueued], enqueued := s.enqueued + 1 }
  | checkPermit {p n b} : s.pc p = .checking n → (s.blocker n).tryWait = (b, true) →
      Step s (.check p) ((s.setPc p .idle).setBlocker n b)
  | check {p n b} : s.pc p = .checking n → (s.blocker n).tryWait = (b, false) →
      Step s (.check p) (s.setPc p (.yielding n))
  | swapOut {p n b} : s.pc p = .yielding n → (s.blocker n).swapOut p = (b, true) →
      Step s (.swapOut p) ((s.setPc p (.parked n)).setBlocker n b)
  | swapOutPermit {p n b} : s.pc p = .yielding n → (s.blocker n).swapOut p = (b, false) →
      Step s (.swapOut p) ((s.setPc p (.resumed n)).setBlocker n b)
  | resume {p n} : s.pc p = .resumed n → Step s (.resume p) (s.setPc p .idle)
  | signal {p n q} : s.pc p = .idle → s.waiters = n :: q → Step s (.signal p)
      { s.setPc p (.signalling n) with waiters := q, signalled := s.signalled ++ [n] }
  | signalEmpty {p} : s.pc p = .idle → s.waiters = [] → Step s (.signal p) s
  | signalAll {p} : s.pc p = .idle → Step s (.signalAll p)
      (s.setPc p (.iterating (s.waiters.headD s.enqueued) s.enqueued))
  | next {p i k n} : s.pc p = .iterating i k → i ≤ n → n < s.enqueued →
      (∀ m ∈ s.waiters, i ≤ m → n ≤ m) →
      Step s (.next p) { s.setPc p (.visiting n k) with visited := s.visited ++ [n] }
  | finish {p i k} : s.pc p = .iterating i k → (∀ m ∈ s.waiters, i ≤ m → k ≤ m) →
      Step s (.finish p) (s.setPc p .idle)
  | wakeUp {p n c b r} : waking (s.pc p) = some (n, c) → (s.blocker n).wakeUp = (b, r) →
      Step s (.wakeUp p) (((s.setPc p c).setBlocker n b).resume n r)

variable {s t : State P} {p q : P} {n m i k : ℕ} {a : Act P} {as : List (Act P)}

/-- A `signal` or a `signalAll` has picked blocker `n`. -/
def Released (s : State P) (n : ℕ) : Prop := n ∈ s.signalled ∨ n ∈ s.visited

/-- Added by an `await` and not yet released. -/
def Waiting (s : State P) (n : ℕ) : Prop := n < s.enqueued ∧ ¬ Released s n

def PcOk (s : State P) : CallPc → Prop
  | .idle => True
  | .checking n | .yielding n | .parked n | .resumed n => n < s.enqueued
  | .signalling n => n ∈ s.signalled
  | .iterating i k => i ≤ s.enqueued ∧ k ≤ s.enqueued ∧ ∀ m ∈ s.waiters, m < i → m ∈ s.visited
  | .visiting n k => n ∈ s.visited ∧ k ≤ s.enqueued

/-- The queue is first in, first out, and what is visited and still there is a prefix of it. -/
structure Ordered (s : State P) : Prop where
  order : s.signalled ++ s.waiters = List.range s.enqueued
  bound : ∀ n ∈ s.visited, n < s.enqueued
  front : ∀ n ∈ s.visited, ∀ m ∈ s.waiters, m ≤ n → m ∈ s.visited
  pc : ∀ p, PcOk s (s.pc p)

section

omit [DecidableEq P]

theorem Ordered.lt_enqueued (h : Ordered s) : n < s.enqueued ↔ n ∈ s.signalled ∨ n ∈ s.waiters := by
  rw [← List.mem_range, ← h.order, List.mem_append]

theorem Ordered.lt (h : Ordered s) (hn : n ∈ s.signalled) (hm : m ∈ s.waiters) : n < m := by
  have hp := h.order ▸ List.pairwise_lt_range (n := s.enqueued)
  exact (List.pairwise_append.mp hp).2.2 n hn m hm

theorem Ordered.head_le {l : List ℕ} (h : Ordered s) (hl : s.waiters = n :: l) (hm : m ∈ l) :
    n < m := by
  have hp := h.order ▸ List.pairwise_lt_range (n := s.enqueued)
  rw [hl] at hp
  exact List.rel_of_pairwise_cons (List.pairwise_append.mp hp).2.1 hm

theorem PcOk.mono {c : CallPc} (h : PcOk s c) (he : s.enqueued ≤ t.enqueued)
    (hs : s.signalled ⊆ t.signalled) (hv : s.visited ⊆ t.visited)
    (hw : ∀ m ∈ t.waiters, m ∈ s.waiters ∨ s.enqueued ≤ m) : PcOk t c := by
  cases c with
  | idle => trivial
  | checking n | yielding n | parked n | resumed n => exact Nat.lt_of_lt_of_le h he
  | signalling n => exact hs h
  | visiting n k => exact ⟨hv h.1, h.2.trans he⟩
  | iterating i k =>
    refine ⟨h.1.trans he, h.2.1.trans he, fun m hm hi => ?_⟩
    rcases hw m hm with hm | hm
    · exact hv (h.2.2 m hm hi)
    · have := h.1
      omega

end

theorem PcOk.update {c : CallPc} {p : P} (h : ∀ x, PcOk t (s.pc x)) (hc : PcOk t c)
    (hpc : t.pc = Function.update s.pc p c) (x : P) : PcOk t (t.pc x) := by
  by_cases hx : x = p
  · subst x
    simpa [hpc] using hc
  · simpa [hpc, hx] using h x

/-- The queue and its history stay. -/
structure Keeps (s t : State P) : Prop where
  waiters : t.waiters = s.waiters
  enqueued : t.enqueued = s.enqueued
  signalled : t.signalled = s.signalled
  visited : t.visited = s.visited

section

omit [DecidableEq P]

theorem Keeps.pcOk {c : CallPc} (hk : Keeps s t) (h : PcOk s c) : PcOk t c :=
  h.mono hk.enqueued.ge (hk.signalled ▸ List.Subset.refl _) (hk.visited ▸ List.Subset.refl _)
    fun _ hm => Or.inl (hk.waiters ▸ hm)

theorem Ordered.keeps (h : Ordered s) (hk : Keeps s t) (hpc : ∀ x, PcOk t (t.pc x)) :
    Ordered t := by
  refine ⟨?_, ?_, ?_, hpc⟩
  · rw [hk.signalled, hk.waiters, hk.enqueued]
    exact h.order
  · rw [hk.visited, hk.enqueued]
    exact h.bound
  · rw [hk.visited, hk.waiters]
    exact h.front

end

/-- Only the control of one caller changes. -/
theorem Ordered.move {c : CallPc} {p : P} (h : Ordered s) (hk : Keeps s t) (hc : PcOk s c)
    (hpc : t.pc = Function.update s.pc p c) : Ordered t :=
  h.keeps hk (PcOk.update (fun x => hk.pcOk (h.pc x)) (hk.pcOk hc) hpc)

section

omit [DecidableEq P]

theorem ordered_initial : Ordered (initial : State P) where
  order := rfl
  bound := by simp [initial]
  front := by simp [initial]
  pc _ := trivial

end

theorem Ordered.await {p : P} {b : EFiberBlocker P} (h : Ordered s) : Ordered
    { (s.setPc p (.checking s.enqueued)).setBlocker s.enqueued b with
      waiters := s.waiters ++ [s.enqueued], enqueued := s.enqueued + 1 } := by
  refine ⟨?_, fun n hn => Nat.lt_succ_of_lt (h.bound n hn), fun n hn m hm hle => ?_,
    PcOk.update (fun x => (h.pc x).mono (Nat.le_succ _) (List.Subset.refl _)
      (List.Subset.refl _) fun m hm => ?_) (Nat.lt_succ_self _) rfl⟩
  · simp only [State.setPc, State.setBlocker]
    rw [List.range_succ, ← h.order, List.append_assoc]
  · rcases List.mem_append.mp hm with hm | hm
    · exact h.front n hn m hm hle
    · have := h.bound n hn
      rw [List.mem_singleton.mp hm] at hle
      omega
  · rcases List.mem_append.mp hm with hm | hm
    · exact Or.inl hm
    · exact Or.inr (List.mem_singleton.mp hm).ge

theorem Ordered.signal {p : P} {l : List ℕ} (h : Ordered s) (hl : s.waiters = n :: l) : Ordered
    { s.setPc p (.signalling n) with waiters := l, signalled := s.signalled ++ [n] } := by
  have hsub : ∀ m ∈ l, m ∈ s.waiters := fun m hm => hl ▸ List.mem_cons_of_mem n hm
  refine ⟨?_, h.bound, fun m hm k hk hle => h.front m hm k (hsub k hk) hle,
    PcOk.update (fun x => (h.pc x).mono le_rfl (List.subset_append_left _ _)
      (List.Subset.refl _) fun m hm => Or.inl (hsub m hm))
      (List.mem_append_right _ (List.mem_singleton_self n)) rfl⟩
  have ho := h.order
  rw [hl] at ho
  simpa using ho

theorem Ordered.next {p : P} (h : Ordered s) (hp : s.pc p = .iterating i k) (hn : n < s.enqueued)
    (hm : ∀ m ∈ s.waiters, i ≤ m → n ≤ m) :
    Ordered { s.setPc p (.visiting n k) with visited := s.visited ++ [n] } := by
  have hi := hp ▸ h.pc p
  have hfront : ∀ m ∈ s.waiters, m ≤ n → m ∈ s.visited ++ [n] := by
    intro m hmw hle
    by_cases him : i ≤ m
    · have := hm m hmw him
      simp [show m = n by omega]
    · exact List.mem_append_left _ (hi.2.2 m hmw (by omega))
  refine ⟨h.order, fun m hm => ?_, fun m hm k hk hle => ?_,
    PcOk.update (c := .visiting n k) (fun x => (h.pc x).mono le_rfl (List.Subset.refl _)
      (List.subset_append_left _ _) fun m hm => Or.inl hm)
      ⟨List.mem_append_right _ (List.mem_singleton_self n), hi.2.1⟩ rfl⟩
  · rcases List.mem_append.mp hm with hm | hm
    · exact h.bound m hm
    · exact List.mem_singleton.mp hm ▸ hn
  · rcases List.mem_append.mp hm with hm | hm
    · exact List.mem_append_left _ (h.front m hm k hk hle)
    · exact hfront k hk (List.mem_singleton.mp hm ▸ hle)

section

omit [DecidableEq P]

theorem Ordered.waking {c c' : CallPc} (h : Ordered s) (hc : PcOk s c)
    (hw : waking c = some (n, c')) : n < s.enqueued ∧ Released s n ∧ PcOk s c' := by
  cases c with
  | signalling m =>
    cases hw
    exact ⟨h.lt_enqueued.mpr (Or.inl hc), Or.inl hc, trivial⟩
  | visiting m k =>
    cases hw
    have hn := h.bound n hc.1
    exact ⟨hn, Or.inr hc.1, hn, hc.2, fun m hm hle => h.front n hc.1 m hm (by omega)⟩
  | _ => exact nomatch hw

theorem Ordered.entry {c : CallPc} (h : PcOk s c) (he : entry c = some n) : n < s.enqueued := by
  cases c <;> simp_all [Condition.entry, PcOk]

end

theorem ordered_step (hst : Step s a t) (h : Ordered s) : Ordered t := by
  cases hst with
  | await hp => exact h.await
  | checkPermit hp hb => exact h.move ⟨rfl, rfl, rfl, rfl⟩ (c := .idle) trivial rfl
  | check hp hb | swapOut hp hb | swapOutPermit hp hb =>
    have hn := hp ▸ h.pc _
    refine h.move ⟨rfl, rfl, rfl, rfl⟩ ?_ rfl
    exact hn
  | resume hp => exact h.move ⟨rfl, rfl, rfl, rfl⟩ (c := .idle) trivial rfl
  | signal hp hq => exact h.signal hq
  | signalEmpty hp hq => exact h
  | signalAll hp =>
    refine h.move ⟨rfl, rfl, rfl, rfl⟩ (c := .iterating _ _) ⟨?_, le_rfl, ?_⟩ rfl
    · cases hw : s.waiters with
      | nil => exact le_rfl
      | cons n l => exact (h.lt_enqueued.mpr (Or.inr (by simp [hw]))).le
    · intro m hm hlt
      cases hw : s.waiters with
      | nil => simp [hw] at hm
      | cons n l =>
        rw [hw] at hm hlt
        rcases List.mem_cons.mp hm with rfl | hm
        · exact (Nat.lt_irrefl _ hlt).elim
        · exact (Nat.lt_asymm hlt (h.head_le hw hm)).elim
  | next hp hi hn hm => exact h.next hp hn hm
  | finish hp hm => exact h.move ⟨rfl, rfl, rfl, rfl⟩ (c := .idle) trivial rfl
  | wakeUp hp hb =>
    rename_i p n c b r
    obtain ⟨hn, _, hc⟩ := h.waking (h.pc p) hp
    cases r with
    | refused => exact h.move ⟨rfl, rfl, rfl, rfl⟩ hc rfl
    | counted => exact h.move ⟨rfl, rfl, rfl, rfl⟩ hc rfl
    | waiter q =>
      have hmid : Ordered ((s.setPc p c).setBlocker n b) := h.move ⟨rfl, rfl, rfl, rfl⟩ hc rfl
      exact hmid.move ⟨rfl, rfl, rfl, rfl⟩ (c := .resumed n) hn rfl

end CxxFiber.Condition
