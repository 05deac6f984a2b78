import CxxFiber.Library.Runs
import Mathlib.Data.List.Flatten
import Mathlib.Logic.Function.Basic

/-! A byte stream between parties whose reads and writes take effect at one moment. -/
namespace ByteStream

open Transition

inductive Op (B : Type)
  | read (n : ℕ)
  | write (bytes : List B)
  deriving DecidableEq, Repr

/-- What a call has moved, or why it has failed. -/
inductive Answer (B E : Type)
  | moved (bytes : List B)
  | failed (e : E)
  deriving DecidableEq, Repr

inductive Phase (B E : Type)
  | idle
  | called (op : Op B)
  | answered (op : Op B) (a : Answer B E)
  deriving DecidableEq, Repr

/-- `sent` and `received` are what has gone into the wire and come out of it, piece by piece;
`answers` are the calls that have returned. -/
structure State (P B E : Type) where
  wire : List B
  phase : P → Phase B E
  sent : List (P × List B)
  received : List (P × List B)
  answers : List (P × Op B × Answer B E)

inductive Act (P B E : Type)
  | call (p : P) (op : Op B)
  | effect (p : P)
  | ret (p : P) (op : Op B) (a : Answer B E)

variable {P B E : Type} [DecidableEq P]

def initial : State P B E := ⟨[], fun _ => .idle, [], [], []⟩

@[simp] def State.setPhase (s : State P B E) (p : P) (k : Phase B E) : State P B E :=
  { s with phase := Function.update s.phase p k }

inductive Step (s : State P B E) : Act P B E → State P B E → Prop
  | call {p op} : s.phase p = .idle → Step s (.call p op) (s.setPhase p (.called op))
  | read {p n k} : s.phase p = .called (.read n) → k ≤ n → k ≤ s.wire.length →
      Step s (.effect p) { s.setPhase p (.answered (.read n) (.moved (s.wire.take k))) with
        wire := s.wire.drop k, received := s.received ++ [(p, s.wire.take k)] }
  | write {p bytes k} : s.phase p = .called (.write bytes) → k ≤ bytes.length →
      Step s (.effect p) { s.setPhase p (.answered (.write bytes) (.moved (bytes.take k))) with
        wire := s.wire ++ bytes.take k, sent := s.sent ++ [(p, bytes.take k)] }
  | fail {p op e} : s.phase p = .called op →
      Step s (.effect p) (s.setPhase p (.answered op (.failed e)))
  | ret {p op a} : s.phase p = .answered op a →
      Step s (.ret p op a) { s.setPhase p .idle with answers := s.answers ++ [(p, op, a)] }

/-- What a write of `p` has moved according to its answer. -/
def Op.wrote : Op B → Answer B E → List (List B)
  | .write _, .moved bytes => [bytes]
  | _, _ => []

/-- The same of a read. -/
def Op.got : Op B → Answer B E → List (List B)
  | .read _, .moved bytes => [bytes]
  | _, _ => []

/-- What the call of a party that has taken effect and not returned has moved. -/
def Phase.pending (f : Op B → Answer B E → List (List B)) : Phase B E → List (List B)
  | .answered op a => f op a
  | _ => []

/-- What the calls of `p` that have returned have moved. -/
def returned (f : Op B → Answer B E → List (List B)) (l : List (P × Op B × Answer B E)) (p : P) :
    List (List B) :=
  l.flatMap fun c => if c.1 = p then f c.2.1 c.2.2 else []

/-- The pieces of `p`. -/
def pieces (l : List (P × List B)) (p : P) : List (List B) :=
  l.flatMap fun c => if c.1 = p then [c.2] else []

/-- The pieces of every party are those of its calls, in their order. -/
def Told (f : Op B → Answer B E → List (List B)) (l : List (P × List B)) (s : State P B E) : Prop :=
  ∀ p, pieces l p = returned f s.answers p ++ (s.phase p).pending f

/-- No more than what was asked for. -/
def Op.Fits : Op B → Answer B E → Prop
  | .read n, .moved bytes => bytes.length ≤ n
  | .write bytes, .moved bytes' => bytes' <+: bytes
  | _, .failed _ => True

/-- The bytes come out once each in the order in which they went in, and every party has been told
of its pieces, in order, and of nothing else. -/
structure Intact (s : State P B E) : Prop where
  order : s.sent.flatMap Prod.snd = s.received.flatMap Prod.snd ++ s.wire
  sent : Told Op.wrote s.sent s
  received : Told Op.got s.received s
  answered : ∀ p op a, s.phase p = .answered op a → op.Fits a
  fits : ∀ p op a, (p, op, a) ∈ s.answers → op.Fits a

variable {s t : State P B E} {act : Act P B E} {acts : List (Act P B E)} {p q : P}
  {f : Op B → Answer B E → List (List B)} {l : List (P × List B)} {b : List B} {k : Phase B E}
  {as : List (P × Op B × Answer B E)} {op : Op B} {a : Answer B E}

theorem pieces_append : pieces (l ++ [(p, b)]) q = pieces l q ++ if p = q then [b] else [] := by
  simp [pieces]

theorem returned_append :
    returned f (as ++ [(p, op, a)]) q = returned f as q ++ if p = q then f op a else [] := by
  simp [returned]

/-- A party whose call moves nothing. -/
theorem Told.setPhase (h : Told f l s) (hk : k.pending f = (s.phase p).pending f) :
    Told f l (s.setPhase p k) := by
  intro q
  by_cases hq : q = p
  · subst q
    simpa [hk] using h p
  · simpa [hq] using h q

/-- A party whose call takes effect. -/
theorem Told.effect (h : Told f l s) (hp : (s.phase p).pending f = [])
    (hk : k.pending f = [b]) : Told f (l ++ [(p, b)]) (s.setPhase p k) := by
  intro q
  rw [pieces_append, h q]
  by_cases hq : q = p
  · subst q
    simp [hp, hk]
  · simp [hq, Ne.symm hq]

/-- A party whose call returns. -/
theorem Told.ret (h : Told f l s) (hp : s.phase p = .answered op a) :
    Told f l { s.setPhase p .idle with answers := s.answers ++ [(p, op, a)] } := by
  intro q
  change pieces l q = returned f (s.answers ++ [(p, op, a)]) q ++ _
  rw [returned_append, h q]
  by_cases hq : q = p
  · subst q
    simp [hp, Phase.pending]
  · simp [hq, Ne.symm hq]

theorem intact_initial : Intact (initial : State P B E) := by
  refine ⟨rfl, fun _ => rfl, fun _ => rfl, fun _ _ _ h => ?_, fun _ _ _ h => ?_⟩
  · cases h
  · cases h

/-- The answers of a step that changes the phase of one party. -/
theorem Intact.answered_update (hi : Intact s) (hk : ∀ op a, k = .answered op a → op.Fits a)
    (h : Function.update s.phase p k q = .answered op a) : op.Fits a := by
  by_cases hq : q = p
  · subst q
    exact hk op a (by simpa using h)
  · exact hi.answered q op a (by simpa [hq] using h)

theorem intact_step (h : Step s act t) (hi : Intact s) : Intact t := by
  cases h with
  | call hp =>
    refine ⟨hi.order, hi.sent.setPhase ?_, hi.received.setPhase ?_,
      fun q _ _ => hi.answered_update nofun, hi.fits⟩
    · rw [hp]
      rfl
    · rw [hp]
      rfl
  | @read p n k hp hn hk =>
    refine ⟨?_, hi.sent.setPhase ?_, hi.received.effect ?_ rfl,
      fun q _ _ => hi.answered_update ?_, hi.fits⟩
    · simpa using hi.order
    · rw [hp]
      rfl
    · rw [hp]
      rfl
    · rintro op a h
      obtain ⟨rfl, rfl⟩ := Phase.answered.inj h
      exact Nat.le_trans (List.length_take_le ..) hn
  | @write p bytes k hp hk =>
    refine ⟨?_, hi.sent.effect ?_ rfl, hi.received.setPhase ?_,
      fun q _ _ => hi.answered_update ?_, hi.fits⟩
    · simp [hi.order]
    · rw [hp]
      rfl
    · rw [hp]
      rfl
    · rintro op a h
      obtain ⟨rfl, rfl⟩ := Phase.answered.inj h
      exact List.take_prefix ..
  | @fail p op e hp =>
    refine ⟨hi.order, hi.sent.setPhase ?_, hi.received.setPhase ?_,
      fun q _ _ => hi.answered_update ?_, hi.fits⟩
    · rw [hp]
      cases op <;> rfl
    · rw [hp]
      cases op <;> rfl
    · rintro op a h
      obtain ⟨rfl, rfl⟩ := Phase.answered.inj h
      cases op <;> trivial
  | @ret p op a hp =>
    refine ⟨hi.order, hi.sent.ret hp, hi.received.ret hp,
      fun q _ _ => hi.answered_update nofun, fun q op' a' hm => ?_⟩
    rcases List.mem_append.mp hm with hm | hm
    · exact hi.fits q op' a' hm
    · obtain ⟨rfl, rfl, rfl⟩ := by simpa using hm
      exact hi.answered _ _ _ hp

theorem intact_run (h : Run Step (initial : State P B E) acts s) : Intact s :=
  h.invariant (fun _ _ _ hi hst => intact_step hst hi) intact_initial

end ByteStream
