import CxxFiber.EFiberBlocker
import CxxFiber.Library.Counting
import CxxFiber.Library.Semaphore

/-! `EFiberChannel`: every call is cut into its steps on two semaphores and one queue. -/
namespace CxxFiber.Channel

open Transition

/-- Where a caller stands: `read`, `tryRead`, then `write` and `tryWrite`, which differ only in
how they get the writer permit. -/
inductive CallPc (E : Type)
  | idle
  | reading
  | readGranted
  | trying
  | tryFailed
  | tryGranted
  | writing (o : E)
  | writeGranted (o : E)
  | added
  deriving DecidableEq, Repr

/-- What the steps of a call have changed in total. -/
structure Tally where
  writer : ℤ
  reader : ℤ
  data : ℤ
  deriving DecidableEq, Repr

variable {E P : Type}

/-- `added`, `returned`, `tally`, `posted` and `refused` are history. `posted p`: the `wakeUp` of
p's last `read` or `tryRead` was not refused. `refused p`: p's last call was a `tryRead` that
returned false. -/
structure State (E P : Type) where
  dataQueue : List E
  reader : Semaphore.State
  writer : Semaphore.State
  pc : P → CallPc E
  added : List E
  returned : List (P × Option E)
  tally : P → Tally
  posted : P → Bool
  refused : P → Bool

/-- A channel of the given capacity; both blockers have the default limit. -/
def initial (capacity : ℕ) : State E P where
  dataQueue := []
  reader := ⟨0, 0, 0⟩
  writer := ⟨capacity, 0, 0⟩
  pc _ := .idle
  added := []
  returned := []
  tally _ := ⟨0, 0, 0⟩
  posted _ := false
  refused _ := false

variable [DecidableEq P]

namespace State

@[simp] def setPc (s : State E P) (p : P) (c : CallPc E) : State E P :=
  { s with pc := Function.update s.pc p c }

/-- A new call of `p`. -/
@[simp] def begin (s : State E P) (p : P) (posted : Bool) : State E P :=
  { s with
    tally := Function.update s.tally p ⟨0, 0, 0⟩
    posted := Function.update s.posted p posted
    refused := Function.update s.refused p false }

/-- Adds what led from `s` to `t` to the tally of `p`. -/
@[simp] def log (s : State E P) (p : P) (t : State E P) : State E P :=
  let sum : Tally :=
    { writer := (t.tally p).writer + t.writer.permits - s.writer.permits
      reader := (t.tally p).reader + t.reader.permits - s.reader.permits
      data := (t.tally p).data + t.dataQueue.length - s.dataQueue.length }
  { t with tally := Function.update t.tally p sum }

end State

/-- `wakeUp` on a semaphore: posted, or refused at the limit. -/
inductive WakeUp (m : Semaphore.State) : Bool → Semaphore.State → Prop
  | posted {m'} : Semaphore.Step EFiberBlocker.noLimit m .post m' → WakeUp m true m'
  | refused : EFiberBlocker.noLimit ≤ m.permits → WakeUp m false m

/-- `wait`, or a `tryWait` that returns true. -/
def Take (m m' : Semaphore.State) : Prop := Semaphore.Step EFiberBlocker.noLimit m .take m'

inductive Act (P : Type)
  | read (p : P)
  | tryRead (p : P)
  | readerWait (p : P)
  | readerTryWait (p : P)
  | writerTryWait (p : P)
  | poll (p : P)
  | write (p : P)
  | writerWait (p : P)
  | tryWrite (p : P)
  | add (p : P)
  | readerWakeUp (p : P)
  deriving DecidableEq, Repr

inductive Step (s : State E P) : Act P → State E P → Prop
  | read {p r m} : s.pc p = .idle → WakeUp s.writer r m →
      Step s (.read p) (s.log p { (s.begin p r).setPc p .reading with writer := m })
  | readerWait {p m} : s.pc p = .reading → Take s.reader m →
      Step s (.readerWait p) (s.log p { s.setPc p .readGranted with reader := m })
  | tryRead {p r m} : s.pc p = .idle → WakeUp s.writer r m →
      Step s (.tryRead p) (s.log p { (s.begin p r).setPc p .trying with writer := m })
  | readerTryWait {p m} : s.pc p = .trying → Take s.reader m →
      Step s (.readerTryWait p) (s.log p { s.setPc p .tryGranted with reader := m })
  | readerTryWaitFail {p} : s.pc p = .trying → s.reader.permits = 0 →
      Step s (.readerTryWait p) (s.log p (s.setPc p .tryFailed))
  | writerTryWait {p m} : s.pc p = .tryFailed → Take s.writer m →
      Step s (.writerTryWait p) (s.log p
        { s.setPc p .idle with writer := m, refused := Function.update s.refused p true })
  | writerTryWaitFail {p} : s.pc p = .tryFailed → s.writer.permits = 0 →
      Step s (.writerTryWait p) (s.log p (s.setPc p .trying))
  | poll {p o q} : s.pc p = .readGranted ∨ s.pc p = .tryGranted → s.dataQueue = o :: q →
      Step s (.poll p) (s.log p
        { s.setPc p .idle with dataQueue := q, returned := s.returned ++ [(p, some o)] })
  | pollEmpty {p} : s.pc p = .readGranted ∨ s.pc p = .tryGranted → s.dataQueue = [] →
      Step s (.poll p) (s.log p { s.setPc p .idle with returned := s.returned ++ [(p, none)] })
  | write {p o} : s.pc p = .idle → Step s (.write p) ((s.begin p false).setPc p (.writing o))
  | writerWait {p o m} : s.pc p = .writing o → Take s.writer m →
      Step s (.writerWait p) (s.log p { s.setPc p (.writeGranted o) with writer := m })
  | tryWrite {p o m} : s.pc p = .idle → Take s.writer m →
      Step s (.tryWrite p)
        (s.log p { (s.begin p false).setPc p (.writeGranted o) with writer := m })
  | tryWriteFail {p} : s.pc p = .idle → s.writer.permits = 0 →
      Step s (.tryWrite p) (s.begin p false)
  | add {p o} : s.pc p = .writeGranted o →
      Step s (.add p) (s.log p
        { s.setPc p .added with dataQueue := s.dataQueue ++ [o], added := s.added ++ [o] })
  | readerWakeUp {p r m} : s.pc p = .added → WakeUp s.reader r m →
      Step s (.readerWakeUp p) (s.log p { s.setPc p .idle with reader := m })

variable {s t : State E P} {p : P} {k : CallPc E} {c : ℕ} {act : Act P} {acts : List (Act P)}
  {m m' : Semaphore.State} {r : Bool}

/-- In `read` or `tryRead`. -/
def InRead : CallPc E → Prop
  | .reading | .readGranted | .trying | .tryFailed | .tryGranted => True
  | _ => False

/-- Every `poll` finds an object, and the objects come out once each, in the order in which they
went in; a null would show up in `returned`. -/
structure Delivery (s : State E P) : Prop where
  found : ∀ p, s.pc p = .readGranted ∨ s.pc p = .tryGranted → s.dataQueue ≠ []
  order : s.added.map some = s.returned.map Prod.snd ++ s.dataQueue.map some
  once : s.added.Nodup → (s.returned.map Prod.snd).Nodup

/-- The queue exceeds the capacity by at most one object for each reader under way, and a
`tryRead` that returned false has taken back what it gave. -/
structure Bounded (c : ℕ) (s : State E P) : Prop where
  bound : ∃ B : Finset P, (∀ p, p ∈ B ↔ InRead (s.pc p)) ∧ s.dataQueue.length ≤ c + B.card
  rendezvous : c = 0 → s.dataQueue ≠ [] → ∃ p, InRead (s.pc p)
  refused : ∀ p, s.refused p = true →
    s.tally p = ⟨if s.posted p then 0 else -1, 0, 0⟩

/-- Callers whose object is not yet, or no longer, covered by a reader permit. -/
def uncovered : CallPc E → ℕ
  | .readGranted | .tryGranted | .added => 1
  | _ => 0

/-- Callers that have a writer permit and have not added their object. -/
def pending : CallPc E → ℕ
  | .writeGranted _ => 1
  | _ => 0

def inRead : CallPc E → ℕ
  | .reading | .readGranted | .trying | .tryFailed | .tryGranted => 1
  | _ => 0

/-- What the steps of a `tryRead` have changed so far. -/
def TallyOk (k : CallPc E) (y : Tally) (posted refused : Bool) : Prop :=
  match k with
  | .idle => refused = true → y = ⟨if posted then 0 else -1, 0, 0⟩
  | .trying | .tryFailed => refused = false ∧ y = ⟨if posted then 1 else 0, 0, 0⟩
  | _ => refused = false

structure Inv (c : ℕ) (s : State E P) : Prop where
  delivery : ∃ n, Counting.Total uncovered s.pc n ∧ s.reader.permits + n ≤ s.dataQueue.length
  bound : ∃ w n, Counting.Total pending s.pc w ∧ Counting.Total inRead s.pc n ∧
    s.writer.permits + w + s.dataQueue.length ≤ c + n
  order : s.added.map some = s.returned.map Prod.snd ++ s.dataQueue.map some
  tally : ∀ p, TallyOk (s.pc p) (s.tally p) (s.posted p) (s.refused p)

section

omit [DecidableEq P]

theorem inv_initial : Inv c (initial c : State E P) := by
  refine ⟨⟨0, .zero fun _ => rfl, ?_⟩, ⟨0, 0, .zero fun _ => rfl, .zero fun _ => rfl, ?_⟩, rfl,
    fun p => ?_⟩
  · simp [initial]
  · simp [initial]
  · simp [initial, TallyOk]

end

/-- Only `p` moves; what the queue and the semaphores lose, `p` has to account for. -/
theorem Inv.move (hi : Inv c s) (hpc : t.pc = Function.update s.pc p k)
    (hd : t.reader.permits + uncovered k + s.dataQueue.length ≤
      s.reader.permits + uncovered (s.pc p) + t.dataQueue.length)
    (hb : t.writer.permits + pending k + t.dataQueue.length + inRead (s.pc p) ≤
      s.writer.permits + pending (s.pc p) + s.dataQueue.length + inRead k)
    (ho : t.added.map some = t.returned.map Prod.snd ++ t.dataQueue.map some)
    (ht : TallyOk k (t.tally p) (t.posted p) (t.refused p))
    (hq : ∀ q, q ≠ p → t.tally q = s.tally q ∧ t.posted q = s.posted q ∧
      t.refused q = s.refused q) : Inv c t := by
  obtain ⟨n, hn, hle⟩ := hi.delivery
  obtain ⟨w, x, hw, hx, hle'⟩ := hi.bound
  have hn' := hn.single_le (p := p)
  have hw' := hw.single_le (p := p)
  have hx' := hx.single_le (p := p)
  refine ⟨⟨n + uncovered k - uncovered (s.pc p), ?_, by omega⟩,
    ⟨w + pending k - pending (s.pc p), x + inRead k - inRead (s.pc p), ?_, ?_, by omega⟩,
    ho, fun q => ?_⟩
  · rw [hpc]
    exact hn.update (by omega)
  · rw [hpc]
    exact hw.update (by omega)
  · rw [hpc]
    exact hx.update (by omega)
  · by_cases hqp : q = p
    · subst q
      simpa [hpc] using ht
    · obtain ⟨h₁, h₂, h₃⟩ := hq q hqp
      simpa [hpc, hqp, h₁, h₂, h₃] using hi.tally q

theorem Take.permits (h : Take m m') : 0 < m.permits ∧ m'.permits = m.permits - 1 := by
  cases h with
  | take hp => exact ⟨hp, rfl⟩

theorem WakeUp.permits (h : WakeUp m r m') :
    m'.permits = m.permits + if r then 1 else 0 := by
  cases h with
  | posted h =>
    cases h with
    | post _ => rfl
  | refused _ => rfl

theorem inv_step (h : Step s act t) (hi : Inv c s) : Inv c t := by
  cases h with
  | @read p r m hp hm =>
    have hm := hm.permits
    refine hi.move (p := p) (k := .reading) rfl ?_ ?_ hi.order ?_ fun q hq => ?_
    · simp [hp, uncovered]
    · cases r <;> simp [hp, hm, pending, inRead]
      omega
    · simp [TallyOk]
    · simp [hq]
  | @readerWait p m hp hm =>
    obtain ⟨hpos, hm⟩ := hm.permits
    have ht := hi.tally p
    refine hi.move (p := p) (k := .readGranted) rfl ?_ ?_ hi.order ?_ fun q hq => ?_
    · simp [hp, hm, uncovered]
      omega
    · simp [hp, pending, inRead]
    · simpa [TallyOk, hp] using ht
    · simp [hq]
  | @tryRead p r m hp hm =>
    have hm := hm.permits
    refine hi.move (p := p) (k := .trying) rfl ?_ ?_ hi.order ?_ fun q hq => ?_
    · simp [hp, uncovered]
    · cases r <;> simp [hp, hm, pending, inRead]
      omega
    · cases r <;> simp [TallyOk, hm]
    · simp [hq]
  | @readerTryWait p m hp hm =>
    obtain ⟨hpos, hm⟩ := hm.permits
    have ht := hi.tally p
    refine hi.move (p := p) (k := .tryGranted) rfl ?_ ?_ hi.order ?_ fun q hq => ?_
    · simp [hp, hm, uncovered]
      omega
    · simp [hp, pending, inRead]
    · simp_all [TallyOk]
    · simp [hq]
  | @readerTryWaitFail p hp hz =>
    have ht := hi.tally p
    refine hi.move (p := p) (k := .tryFailed) rfl ?_ ?_ hi.order ?_ fun q hq => ?_
    · simp [hp, uncovered]
    · simp [hp, pending, inRead]
    · simp_all [TallyOk]
    · simp
  | @writerTryWait p m hp hm =>
    obtain ⟨hpos, hm⟩ := hm.permits
    have ht := hi.tally p
    refine hi.move (p := p) (k := .idle) rfl ?_ ?_ hi.order ?_ fun q hq => ?_
    · simp [hp, uncovered]
    · simp [hp, hm, pending, inRead]
      omega
    · have hc : ((m.permits : ℕ) : ℤ) = s.writer.permits - 1 := by omega
      cases hr : s.posted p <;> simp_all [TallyOk]
    · simp [hq]
  | @writerTryWaitFail p hp hz =>
    have ht := hi.tally p
    refine hi.move (p := p) (k := .trying) rfl ?_ ?_ hi.order ?_ fun q hq => ?_
    · simp [hp, uncovered]
    · simp [hp, pending, inRead]
    · simp_all [TallyOk]
    · simp
  | @poll p o q hp hq =>
    have ht := hi.tally p
    have hr : s.refused p = false := by rcases hp with hp | hp <;> simpa [TallyOk, hp] using ht
    refine hi.move (p := p) (k := .idle) rfl ?_ ?_ ?_ ?_ fun q hq => ?_
    · rcases hp with hp | hp <;> simp [hp, hq, uncovered] <;> omega
    · rcases hp with hp | hp <;> simp [hp, hq, pending, inRead, Nat.add_assoc]
    · have ho := hi.order
      simp only [hq] at ho
      simpa using ho
    · simp [TallyOk, hr]
    · simp [hq]
  | @pollEmpty p hp hq =>
    obtain ⟨n, hn, hle⟩ := hi.delivery
    have hn' := hn.single_le (p := p)
    rcases hp with hp | hp <;> simp [hp, hq, uncovered] at hn' hle <;> omega
  | @write p o hp =>
    refine hi.move (p := p) (k := .writing o) rfl ?_ ?_ hi.order ?_ fun q hq => ?_
    · simp [hp, uncovered]
    · simp [hp, pending, inRead]
    · simp [TallyOk]
    · simp [hq]
  | @writerWait p o m hp hm =>
    obtain ⟨hpos, hm⟩ := hm.permits
    have ht := hi.tally p
    refine hi.move (p := p) (k := .writeGranted o) rfl ?_ ?_ hi.order ?_ fun q hq => ?_
    · simp [hp, uncovered]
    · simp [hp, hm, pending, inRead]
      omega
    · simp_all [TallyOk]
    · simp [hq]
  | @tryWrite p o m hp hm =>
    obtain ⟨hpos, hm⟩ := hm.permits
    refine hi.move (p := p) (k := .writeGranted o) rfl ?_ ?_ hi.order ?_ fun q hq => ?_
    · simp [hp, uncovered]
    · simp [hp, hm, pending, inRead]
      omega
    · simp [TallyOk]
    · simp [hq]
  | @tryWriteFail p hp hz =>
    refine hi.move (p := p) (k := .idle) ?_ ?_ ?_ hi.order ?_ fun q hq => ?_
    · rw [← hp, Function.update_eq_self]
      rfl
    · simp [hp, uncovered]
    · simp [hp, pending, inRead]
    · simp [TallyOk]
    · simp [hq]
  | @add p o hp =>
    have ht := hi.tally p
    refine hi.move (p := p) (k := .added) rfl ?_ ?_ ?_ ?_ fun q hq => ?_
    · simp [hp, uncovered]
      omega
    · simp [hp, pending, inRead]
      omega
    · simp [hi.order]
    · simp_all [TallyOk]
    · simp [hq]
  | @readerWakeUp p r m hp hm =>
    have hm := hm.permits
    have ht := hi.tally p
    refine hi.move (p := p) (k := .idle) rfl ?_ ?_ hi.order ?_ fun q hq => ?_
    · cases r <;> simp [hp, hm, uncovered]
    · simp [hp, pending, inRead]
    · simp_all [TallyOk]
    · simp [hq]

theorem inv_run (h : Run Step (initial c) acts s) : Inv c s :=
  h.invariant (fun _ _ _ hi hs => inv_step hs hi) inv_initial

theorem inRead_eq_one : inRead k = 1 ↔ InRead k := by
  cases k <;> simp [inRead, InRead]

theorem delivery (h : Run Step (initial c) acts s) : Delivery s := by
  have hi := inv_run h
  refine ⟨fun p hp he => ?_, hi.order, fun hn => ?_⟩
  · obtain ⟨n, hn, hle⟩ := hi.delivery
    have hn' := hn.single_le (p := p)
    rcases hp with hp | hp <;> simp [hp, he, uncovered] at hn' hle <;> omega
  · have hm : (s.added.map some).Nodup := hn.map (Option.some_injective E)
    rw [hi.order] at hm
    exact (List.nodup_append.mp hm).1

/-- A write meets a read on a channel without capacity. -/
theorem delivery_rendezvous : ∃ s : State Bool (Fin 2),
    s.returned = [(0, some true)] ∧ s.dataQueue = [] ∧ Delivery s := by
  refine ⟨_, ?_, ?_, delivery (c := 0) <|
    .step (.write (p := 1) (o := true) rfl) <|
    .step (.read (p := 0) rfl (.posted (.post (by decide)))) <|
    .step (.writerWait (p := 1) rfl (.take (by decide))) <|
    .step (.add (p := 1) rfl) <|
    .step (.readerWakeUp (p := 1) rfl (.posted (.post (by decide)))) <|
    .step (.readerWait (p := 0) rfl (.take (by decide))) <|
    .step (.poll (p := 0) (Or.inl rfl) rfl) .refl⟩
  · rfl
  · rfl

theorem bounded (h : Run Step (initial c) acts s) : Bounded c s := by
  have hi := inv_run h
  obtain ⟨w, n, -, hn, hle⟩ := hi.bound
  obtain ⟨B, hB, hcard⟩ := hn.card fun k => by cases k <;> simp [inRead]
  have hB' : ∀ p, p ∈ B ↔ InRead (s.pc p) := fun p => (hB p).trans inRead_eq_one
  refine ⟨⟨B, hB', by omega⟩, fun hc hne => ?_, fun p hr => ?_⟩
  · have hpos : 0 < B.card := by
      have := List.length_pos_iff.mpr hne
      omega
    obtain ⟨p, hp⟩ := Finset.card_pos.mp hpos
    exact ⟨p, (hB' p).mp hp⟩
  · have ht := hi.tally p
    cases hk : s.pc p <;> simp_all [TallyOk]

/-- A `tryRead` that finds nothing, while a `read` waits and an object is on its way. -/
theorem bounded_tryRead : ∃ s : State Bool (Fin 3),
    s.refused 2 = true ∧ s.dataQueue = [true] ∧ Bounded 0 s := by
  refine ⟨_, ?_, ?_, bounded <|
    .step (.write (p := 1) (o := true) rfl) <|
    .step (.read (p := 0) rfl (.posted (.post (by decide)))) <|
    .step (.tryRead (p := 2) rfl (.posted (.post (by decide)))) <|
    .step (.writerWait (p := 1) rfl (.take (by decide))) <|
    .step (.add (p := 1) rfl) <|
    .step (.readerTryWaitFail (p := 2) rfl rfl) <|
    .step (.writerTryWait (p := 2) rfl (.take (by decide))) .refl⟩
  · rfl
  · rfl

end CxxFiber.Channel
