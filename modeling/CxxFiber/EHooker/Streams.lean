import CxxFiber.EHooker.CommIo
import CxxFiber.Library.ByteStream

/-! The bytes of one stream under the hooked calls of the read and write families. -/
namespace CxxFiber.EHooker.Streams

open ByteStream Transition

/-- A call of `comm_io_on_fiber`: `data` is what `fn` has stored in the buffer of a read. -/
structure Call (B : Type) where
  op : Op B
  pc : CommIo.Pc
  data : List B

/-- The bytes of a stream that have been written and not yet read, and the calls under way.
`answers` are the calls that have returned. -/
structure State (P B : Type) where
  wire : List B
  call : P → Option (Call B)
  answers : List (P × Op B × Answer B CommIo.Errno)

/-- `transfer` is an `fn` that succeeds, `fail` any other outcome that ends a call. -/
inductive Act (P B : Type)
  | call (p : P) (op : Op B)
  | transfer (p : P)
  | fail (p : P)
  | internal (p : P)
  | ret (p : P) (op : Op B) (a : Answer B CommIo.Errno)

variable {P B : Type} [DecidableEq P]

/-- `POLLIN` for a read, `POLLOUT` for a write. -/
def events : Op B → PollEvents
  | .read _ => ⟨true, false⟩
  | .write _ => ⟨false, true⟩

/-- What the caller makes of the return value and the buffer. -/
def Call.answer (c : Call B) : CommIo.Result → Answer B CommIo.Errno
  | .value n =>
    match c.op with
    | .read _ => .moved (c.data.take n)
    | .write bytes => .moved (bytes.take n)
  | .error e => .failed e

def initial : State P B := ⟨[], fun _ => none, []⟩

@[simp] def State.setCall (s : State P B) (p : P) (c : Option (Call B)) : State P B :=
  { s with call := Function.update s.call p c }

/-- A successful `fn` moves some bytes, or none: at the end of the stream, or if none are asked for.
An `fn` that fails moves none. -/
inductive Step (s : State P B) : Act P B → State P B → Prop
  | call {p op io hooked userNonBlocked} : s.call p = none → io.event = events op →
      Step s (.call p op)
        (s.setCall p (some ⟨op, CommIo.enter io hooked userNonBlocked, []⟩))
  | read {p c n k pc} : s.call p = some c → c.op = .read n → k ≤ n → k ≤ s.wire.length →
      c.pc.next (.fn (.value k)) = some pc →
      Step s (.transfer p)
        { s.setCall p (some { c with pc := pc, data := s.wire.take k }) with
          wire := s.wire.drop k }
  | write {p c bytes k pc} : s.call p = some c → c.op = .write bytes → k ≤ bytes.length →
      c.pc.next (.fn (.value k)) = some pc →
      Step s (.transfer p)
        { s.setCall p (some { c with pc := pc }) with wire := s.wire ++ bytes.take k }
  | fail {p c a r} : s.call p = some c → (∀ k, a ≠ .fn (.value k)) →
      c.pc.next a = some (.returned r) →
      Step s (.fail p) (s.setCall p (some { c with pc := .returned r }))
  | internal {p c a pc} : s.call p = some c → (∀ k, a ≠ .fn (.value k)) →
      c.pc.next a = some pc → (∀ r, pc ≠ .returned r) →
      Step s (.internal p) (s.setCall p (some { c with pc := pc }))
  | ret {p c r} : s.call p = some c → c.pc = .returned r →
      Step s (.ret p c.op (c.answer r))
        { s.setCall p none with answers := s.answers ++ [(p, c.op, c.answer r)] }

/-! A call takes effect at one moment -/

/-- A call that has been decided has taken effect. -/
def phaseOf : Option (Call B) → ByteStream.Phase B CommIo.Errno
  | none => .idle
  | some c =>
    match c.pc with
    | .returned r => .answered c.op (c.answer r)
    | _ => .called c.op

/-- What each step does to the stream. -/
def Act.atomic : Act P B → List (ByteStream.Act P B CommIo.Errno)
  | .call p op => [.call p op]
  | .transfer p | .fail p => [.effect p]
  | .internal _ => []
  | .ret p op a => [.ret p op a]

structure Refines (s : State P B) (u : ByteStream.State P B CommIo.Errno) : Prop where
  wire : u.wire = s.wire
  phase : ∀ p, u.phase p = phaseOf (s.call p)
  answers : u.answers = s.answers

variable {s t : State P B} {u : ByteStream.State P B CommIo.Errno} {act : Act P B}
  {acts : List (Act P B)} {p : P} {c : Call B} {pc pc' : CommIo.Pc} {a : CommIo.Event}
  {r : CommIo.Result} {io : CommIo} {k : ℕ}

theorem phaseOf_called (h : ∀ r, c.pc ≠ .returned r) : phaseOf (some c) = .called c.op := by
  cases hpc : c.pc with
  | returned r => exact (h r hpc).elim
  | _ => simp [phaseOf, hpc]

theorem phaseOf_answered (h : c.pc = .returned r) :
    phaseOf (some c) = .answered c.op (c.answer r) := by
  simp [phaseOf, h]

theorem enter_ne_returned {hooked userNonBlocked : Bool} :
    CommIo.enter io hooked userNonBlocked ≠ .returned r := by
  unfold CommIo.enter
  split
  · simp
  · split <;> simp

theorem next_ne_returned (h : pc.next a = some pc') : pc ≠ .returned r := by
  rintro rfl
  cases h

/-- An `fn` that succeeds is the last one of its call. -/
theorem next_value (h : pc.next (.fn (.value k)) = some pc') : pc' = .returned (.value k) := by
  cases pc <;> simp_all [CommIo.Pc.next, CommIo.Result.again]

/-- A call that ends in any other way returns an error. -/
theorem next_error (h : pc.next a = some (.returned r)) (ha : ∀ k, a ≠ .fn (.value k)) :
    ∃ e, r = .error e := by
  have hfn : ∀ r', a = .fn r' → ∃ e, r' = .error e := by
    intro r' hr
    cases r' with
    | value k => exact (ha k hr).elim
    | error e => exact ⟨e, rfl⟩
  cases a with
  | fn r' =>
    obtain ⟨e, rfl⟩ := hfn r' rfl
    refine ⟨e, ?_⟩
    cases pc <;> simp_all [CommIo.Pc.next]
    split at h <;> simp_all
  | polled ready | resumed ready =>
    cases pc <;> cases ready <;> simp [CommIo.Pc.next] at h
    exact ⟨_, h.symm⟩
  | pollError e =>
    cases pc <;> simp [CommIo.Pc.next] at h
    exact ⟨e, h.symm⟩
  | park => cases pc <;> simp_all [CommIo.Pc.next]

section

omit [DecidableEq P]

theorem refines_initial : Refines (initial : State P B) ByteStream.initial :=
  ⟨rfl, fun _ => rfl, rfl⟩

end

/-- The call of one party changes, and its phase with it. -/
theorem Refines.update {o : Option (Call B)} {x : ByteStream.Phase B CommIo.Errno}
    (h : Refines s u) (hx : x = phaseOf o) (q : P) :
    Function.update u.phase p x q = phaseOf (Function.update s.call p o q) := by
  by_cases hq : q = p
  · subst q
    simpa using hx
  · simpa [hq] using h.phase q

theorem refines_step (h : Refines s u) (hst : Step s act t) :
    ∃ u', Run ByteStream.Step u act.atomic u' ∧ Refines t u' := by
  cases hst with
  | @call p op io hooked userNonBlocked hc _ =>
    have hu : u.phase p = .idle := by
      rw [h.phase, hc]
      rfl
    refine ⟨_, .step (.call hu) .refl, h.wire, h.update ?_, h.answers⟩
    exact (phaseOf_called (c := ⟨op, _, []⟩) fun r => enter_ne_returned).symm
  | @read p c n k pc hc hop hn hk hpc =>
    obtain rfl := next_value hpc
    have hu : u.phase p = .called (.read n) := by
      rw [h.phase, hc, phaseOf_called fun r => next_ne_returned hpc, hop]
    refine ⟨_, .step (.read hu hn (h.wire ▸ hk)) .refl, ?_, h.update ?_, h.answers⟩
    · exact congrArg (List.drop k) h.wire
    · simp [phaseOf, Call.answer, hop, h.wire]
  | @write p c bytes k pc hc hop hk hpc =>
    obtain rfl := next_value hpc
    have hu : u.phase p = .called (.write bytes) := by
      rw [h.phase, hc, phaseOf_called fun r => next_ne_returned hpc, hop]
    refine ⟨_, .step (.write hu hk) .refl, ?_, h.update ?_, h.answers⟩
    · exact congrArg (· ++ bytes.take k) h.wire
    · simp [phaseOf, Call.answer, hop]
  | @fail p c a r hc ha hpc =>
    obtain ⟨e, rfl⟩ := next_error hpc ha
    have hu : u.phase p = .called c.op := by
      rw [h.phase, hc, phaseOf_called fun r => next_ne_returned hpc]
    exact ⟨_, .step (.fail hu) .refl, h.wire, h.update rfl, h.answers⟩
  | @internal p c a pc hc ha hpc hr =>
    have hu : u.phase p = phaseOf (some { c with pc := pc }) := by
      rw [h.phase, hc, phaseOf_called fun r => next_ne_returned hpc, phaseOf_called hr]
    refine ⟨u, .refl, h.wire, fun q => ?_, h.answers⟩
    have hq := h.update (p := p) hu q
    rwa [Function.update_eq_self] at hq
  | @ret p c r hc hr =>
    have hu : u.phase p = .answered c.op (c.answer r) := by
      rw [h.phase, hc, phaseOf_answered hr]
    refine ⟨_, .step (.ret hu) .refl, h.wire, h.update rfl, ?_⟩
    exact congrArg (· ++ [(p, c.op, c.answer r)]) h.answers

/-- A read that parks, and a write of three bytes of which two are taken. -/
theorem run_partialWrite : ∃ (acts : List (Act (Fin 2) ℕ)) (t : State (Fin 2) ℕ),
    Run Step initial acts t ∧ t.wire = [] ∧ t.call = (fun _ => none) ∧
    t.answers = [(0, .write [1, 2, 3], .moved [1, 2]), (1, .read 5, .moved [1, 2])] := by
  refine ⟨_, _,
    .step (@Step.call _ _ _ _ 1 (.read 5) ⟨3, ⟨true, false⟩, 0, 0⟩ true false rfl rfl) <|
    .step (.internal (p := 1) (a := .park) rfl (by simp) rfl (by simp)) <|
    .step (@Step.call _ _ _ _ 0 (.write [1, 2, 3]) ⟨4, ⟨false, true⟩, 0, 0⟩ true false rfl rfl) <|
    .step (.write (p := 0) (k := 2) rfl rfl (by decide) rfl) <|
    .step (.ret (p := 0) rfl rfl) <|
    .step (.internal (p := 1) (a := .resumed true) rfl (by simp) rfl (by simp)) <|
    .step (.read (p := 1) (k := 2) rfl rfl (by decide) (by decide) rfl) <|
    .step (.ret (p := 1) rfl rfl) .refl, rfl, ?_, rfl⟩
  exact funext (Fin.forall_fin_two.mpr ⟨rfl, rfl⟩)

/-- Every call of a hook does what one call of a stream does that takes effect at one moment
between its beginning and its end; one that fails moves nothing. -/
theorem calls_atomic (h : Run Step initial acts t) :
    ∃ u, Run ByteStream.Step ByteStream.initial (acts.flatMap Act.atomic) u ∧ Refines t u :=
  h.simulation (fun _ _ _ _ hr hst => refines_step hr hst) refines_initial

theorem calls_atomic_partialWrite : ∃ (t : State (Fin 2) ℕ)
    (u : ByteStream.State (Fin 2) ℕ CommIo.Errno), Refines t u ∧
    u.answers = [(0, .write [1, 2, 3], .moved [1, 2]), (1, .read 5, .moved [1, 2])] := by
  obtain ⟨acts, t, h, -, -, ha⟩ := run_partialWrite
  obtain ⟨u, -, hr⟩ := calls_atomic h
  exact ⟨t, u, hr, hr.answers.trans ha⟩

/-- Whatever has been parked, retried, timed out or refused meanwhile: the bytes come out once each
in the order in which they went in, and what the calls of a party have returned is what was moved
for it. -/
theorem bytes_intact (h : Run Step initial acts t) : ∃ sent received : List (P × List B),
    sent.flatMap Prod.snd = received.flatMap Prod.snd ++ t.wire ∧
    (∀ p, t.call p = none → pieces sent p = returned Op.wrote t.answers p ∧
      pieces received p = returned Op.got t.answers p) ∧
    ∀ p op a, (p, op, a) ∈ t.answers → op.Fits a := by
  obtain ⟨u, hu, hr⟩ := h.simulation (fun _ _ _ _ hr hst => refines_step hr hst) refines_initial
  have hi := intact_run hu
  refine ⟨u.sent, u.received, ?_, fun p hp => ?_, fun p op a ha => hi.fits p op a (hr.answers ▸ ha)⟩
  · rw [hi.order, hr.wire]
  · have hidle : u.phase p = .idle := by
      rw [hr.phase, hp]
      rfl
    have hs := hi.sent p
    have hg := hi.received p
    simp only [hidle, Phase.pending, List.append_nil, hr.answers] at hs hg
    exact ⟨hs, hg⟩

theorem bytes_intact_partialWrite : ∃ sent received : List (Fin 2 × List ℕ),
    sent.flatMap Prod.snd = received.flatMap Prod.snd ∧ pieces sent 0 = [[1, 2]] ∧
    pieces received 1 = [[1, 2]] := by
  obtain ⟨acts, t, h, hw, hc, ha⟩ := run_partialWrite
  obtain ⟨sent, received, ho, hp, -⟩ := bytes_intact h
  have hcall : ∀ p, t.call p = none := fun p => congrFun hc p
  refine ⟨sent, received, by simpa [hw] using ho, ?_, ?_⟩
  · rw [(hp 0 (hcall 0)).1, ha]
    rfl
  · rw [(hp 1 (hcall 1)).2, ha]
    rfl

end CxxFiber.EHooker.Streams
