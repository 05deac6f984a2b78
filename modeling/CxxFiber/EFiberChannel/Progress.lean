import CxxFiber.EFiberChannel

/-! Who waits on a channel, and for what: a read only while the channel is empty, a write only while
it is full. -/
namespace CxxFiber.Channel

open Counting Transition

variable {E P : Type} [DecidableEq P] {s t : State E P} {p q : P} {c : ℕ} {act : Act P}
  {acts : List (Act P)} {k : CallPc E} {o : E}

/-- `EFiberChannel::isEmpty`. -/
def State.isEmpty (s : State E P) : Bool := !decide (0 < s.reader.permits)

/-- Who takes a step. -/
def Act.caller : Act P → P
  | .read p | .tryRead p | .readerWait p | .readerTryWait p | .writerTryWait p | .poll p
  | .write p | .writerWait p | .tryWrite p | .add p | .readerWakeUp p => p

/-- The call of `p` is under way and can take its next step. -/
def Moves (s : State E P) (p : P) : Prop :=
  s.pc p ≠ .idle ∧ ∃ a t, a.caller = p ∧ Step s a t

/-- No `wakeUp` is refused at the limit. -/
def Unrefused (s : State E P) : Act P → Prop
  | .read _ | .tryRead _ => s.writer.permits < EFiberBlocker.noLimit
  | .readerWakeUp _ => s.reader.permits < EFiberBlocker.noLimit
  | _ => True

/-- While none is refused, every permit is accounted for. -/
structure Exact (c : ℕ) (s : State E P) : Prop where
  delivery : ∃ n, Total uncovered s.pc n ∧ s.reader.permits + n = s.dataQueue.length
  bound : ∃ w n, Total pending s.pc w ∧ Total inRead s.pc n ∧
    s.writer.permits + w + s.dataQueue.length = c + n

section

omit [DecidableEq P]

theorem exact_initial : Exact c (initial c : State E P) := by
  refine ⟨⟨0, .zero fun _ => rfl, rfl⟩, ⟨0, 0, .zero fun _ => rfl, .zero fun _ => rfl, rfl⟩⟩

end

/-- Only `p` moves, and it accounts for what the queue and the semaphores gain or lose. -/
theorem Exact.move (he : Exact c s) (hpc : t.pc = Function.update s.pc p k)
    (hd : t.reader.permits + uncovered k + s.dataQueue.length =
      s.reader.permits + uncovered (s.pc p) + t.dataQueue.length)
    (hb : t.writer.permits + pending k + t.dataQueue.length + inRead (s.pc p) =
      s.writer.permits + pending (s.pc p) + s.dataQueue.length + inRead k) : Exact c t := by
  obtain ⟨n, hn, heq⟩ := he.delivery
  obtain ⟨w, x, hw, hx, heq'⟩ := he.bound
  have hn' := hn.single_le (p := p)
  have hw' := hw.single_le (p := p)
  have hx' := hx.single_le (p := p)
  refine ⟨⟨n + uncovered k - uncovered (s.pc p), ?_, by omega⟩,
    ⟨w + pending k - pending (s.pc p), x + inRead k - inRead (s.pc p), ?_, ?_, by omega⟩⟩
  · rw [hpc]
    exact hn.update (by omega)
  · rw [hpc]
    exact hw.update (by omega)
  · rw [hpc]
    exact hx.update (by omega)

/-- Below the limit a permit is posted. -/
theorem WakeUp.posted_permits {m m' : Semaphore.State} {r : Bool} (h : WakeUp m r m')
    (hl : m.permits < EFiberBlocker.noLimit) : m'.permits = m.permits + 1 := by
  cases h with
  | posted hs =>
    cases hs
    rfl
  | refused hr => omega

theorem exact_step (h : Step s act t) (hu : Unrefused s act) (he : Exact c s) : Exact c t := by
  cases h with
  | @read p r m hp hm =>
    have hm := hm.posted_permits hu
    refine he.move (p := p) (k := .reading) rfl ?_ ?_ <;> simp [hp, hm, uncovered, pending, inRead]
    omega
  | @readerWait p m hp hm =>
    obtain ⟨hpos, hm⟩ := hm.permits
    refine he.move (p := p) (k := .readGranted) rfl ?_ ?_ <;>
      simp [hp, hm, uncovered, pending, inRead]
    omega
  | @tryRead p r m hp hm =>
    have hm := hm.posted_permits hu
    refine he.move (p := p) (k := .trying) rfl ?_ ?_ <;> simp [hp, hm, uncovered, pending, inRead]
    omega
  | @readerTryWait p m hp hm =>
    obtain ⟨hpos, hm⟩ := hm.permits
    refine he.move (p := p) (k := .tryGranted) rfl ?_ ?_ <;>
      simp [hp, hm, uncovered, pending, inRead]
    omega
  | @readerTryWaitFail p hp hz =>
    refine he.move (p := p) (k := .tryFailed) rfl ?_ ?_ <;> simp [hp, uncovered, pending, inRead]
  | @writerTryWait p m hp hm =>
    obtain ⟨hpos, hm⟩ := hm.permits
    refine he.move (p := p) (k := .idle) rfl ?_ ?_ <;>
      simp [hp, hm, uncovered, pending, inRead]
    omega
  | @writerTryWaitFail p hp hz =>
    refine he.move (p := p) (k := .trying) rfl ?_ ?_ <;> simp [hp, uncovered, pending, inRead]
  | @poll p o q hp hq =>
    refine he.move (p := p) (k := .idle) rfl ?_ ?_ <;> rcases hp with hp | hp <;>
      simp [hp, hq, uncovered, pending, inRead] <;> omega
  | @pollEmpty p hp hq =>
    obtain ⟨n, hn, heq⟩ := he.delivery
    have hn' := hn.single_le (p := p)
    rcases hp with hp | hp <;> simp [hp, hq, uncovered] at hn' heq <;> omega
  | @write p o hp =>
    refine he.move (p := p) (k := .writing o) rfl ?_ ?_ <;> simp [hp, uncovered, pending, inRead]
  | @writerWait p o m hp hm =>
    obtain ⟨hpos, hm⟩ := hm.permits
    refine he.move (p := p) (k := .writeGranted o) rfl ?_ ?_ <;>
      simp [hp, hm, uncovered, pending, inRead]
    omega
  | @tryWrite p o m hp hm =>
    obtain ⟨hpos, hm⟩ := hm.permits
    refine he.move (p := p) (k := .writeGranted o) rfl ?_ ?_ <;>
      simp [hp, hm, uncovered, pending, inRead]
    omega
  | @tryWriteFail p hp hz => exact ⟨he.delivery, he.bound⟩
  | @add p o hp =>
    refine he.move (p := p) (k := .added) rfl ?_ ?_ <;> simp [hp, uncovered, pending, inRead] <;>
      omega
  | @readerWakeUp p r m hp hm =>
    have hm := hm.posted_permits hu
    refine he.move (p := p) (k := .idle) rfl ?_ ?_ <;> simp [hp, hm, uncovered, pending, inRead]

theorem exact_run (h : Run (Guarded Unrefused Step) (initial c) acts s) : Exact c s :=
  h.invariant (fun _ _ _ he hst => exact_step hst.2 hst.1 he) exact_initial

/-! Finitely many parties -/

theorem inRead_le_one : inRead k ≤ 1 := by
  cases k <;> simp [inRead]

/-- With `c` and the number of parties below the limit no `wakeUp` reaches it. -/
theorem unrefused [Fintype P] (hc : c + Fintype.card P ≤ EFiberBlocker.noLimit) (hi : Inv c s)
    (h : Step s act t) : Unrefused s act := by
  obtain ⟨n, hn, hle⟩ := hi.delivery
  obtain ⟨w, x, hw, hx, hle'⟩ := hi.bound
  -- the caller itself is not in a read
  have hlt : ∀ p, inRead (s.pc p) = 0 → x < Fintype.card P := fun p hp =>
    hx.lt Total.card_univ (p := p) (fun q => inRead_le_one) (by omega)
  cases h with
  | @read p r m hp hm | @tryRead p r m hp hm =>
    have := hlt p (by simp [hp, inRead])
    change s.writer.permits < EFiberBlocker.noLimit
    omega
  | @readerWakeUp p r m hp hm =>
    have := hlt p (by simp [hp, inRead])
    change s.reader.permits < EFiberBlocker.noLimit
    omega
  | _ => trivial

theorem exact [Fintype P] (hc : c + Fintype.card P ≤ EFiberBlocker.noLimit)
    (h : Run Step (initial c) acts s) : Exact c s :=
  exact_run <| h.imp (I := Inv c) (fun _ _ _ hi hst => ⟨unrefused hc hi hst, hst⟩)
    (fun _ _ _ hi hst => inv_step hst hi) inv_initial

/-! Progress -/

/-- Only a `wait` that finds no permit stands still. -/
theorem moves_or_waits (s : State E P) (p : P) : s.pc p = .idle ∨ Moves s p ∨
    (s.pc p = .reading ∧ s.reader.permits = 0) ∨
    ∃ o, s.pc p = .writing o ∧ s.writer.permits = 0 := by
  have hmove : s.pc p ≠ .idle → (∃ a t, a.caller = p ∧ Step s a t) → Moves s p :=
    fun hp h => ⟨hp, h⟩
  cases hp : s.pc p with
  | idle => exact Or.inl rfl
  | reading =>
    rcases Nat.eq_zero_or_pos s.reader.permits with hz | hpos
    · exact Or.inr (Or.inr (Or.inl ⟨rfl, hz⟩))
    · exact Or.inr (Or.inl (hmove (by simp [hp]) ⟨_, _, rfl, .readerWait hp (.take hpos)⟩))
  | readGranted | tryGranted =>
    refine Or.inr (Or.inl (hmove (by simp [hp]) ?_))
    cases hq : s.dataQueue with
    | nil => exact ⟨_, _, rfl, .pollEmpty (by simp [hp]) hq⟩
    | cons o q => exact ⟨_, _, rfl, .poll (by simp [hp]) hq⟩
  | trying =>
    refine Or.inr (Or.inl (hmove (by simp [hp]) ?_))
    rcases Nat.eq_zero_or_pos s.reader.permits with hz | hpos
    · exact ⟨_, _, rfl, .readerTryWaitFail hp hz⟩
    · exact ⟨_, _, rfl, .readerTryWait hp (.take hpos)⟩
  | tryFailed =>
    refine Or.inr (Or.inl (hmove (by simp [hp]) ?_))
    rcases Nat.eq_zero_or_pos s.writer.permits with hz | hpos
    · exact ⟨_, _, rfl, .writerTryWaitFail hp hz⟩
    · exact ⟨_, _, rfl, .writerTryWait hp (.take hpos)⟩
  | writing o =>
    rcases Nat.eq_zero_or_pos s.writer.permits with hz | hpos
    · exact Or.inr (Or.inr (Or.inr ⟨o, rfl, hz⟩))
    · exact Or.inr (Or.inl (hmove (by simp [hp]) ⟨_, _, rfl, .writerWait hp (.take hpos)⟩))
  | writeGranted o => exact Or.inr (Or.inl (hmove (by simp [hp]) ⟨_, _, rfl, .add hp⟩))
  | added =>
    refine Or.inr (Or.inl (hmove (by simp [hp]) ?_))
    rcases Nat.lt_or_ge s.reader.permits EFiberBlocker.noLimit with hlt | hge
    · exact ⟨_, _, rfl, .readerWakeUp hp (.posted (.post hlt))⟩
    · exact ⟨_, _, rfl, .readerWakeUp hp (.refused hge)⟩

theorem not_moves_reading (hp : s.pc p = .reading) (hz : s.reader.permits = 0) : ¬ Moves s p := by
  rintro ⟨-, a, t, rfl, hst⟩
  cases hst with
  | readerWait hpc hm =>
    cases hm with
    | take hpos => omega
  | poll hpc hq | pollEmpty hpc hq => rcases hpc with hpc | hpc <;> simp [Act.caller, hpc] at hp
  | _ hpc => simp [Act.caller, hpc] at hp

/-- Nobody who is in a call can go on. -/
def Stuck (s : State E P) : Prop := ∀ p, ¬ Moves s p

theorem Stuck.waits (h : Stuck s) (p : P) : s.pc p = .idle ∨
    (s.pc p = .reading ∧ s.reader.permits = 0) ∨
    ∃ o, s.pc p = .writing o ∧ s.writer.permits = 0 := by
  rcases moves_or_waits s p with hp | hp | hp
  · exact Or.inl hp
  · exact (h p hp).elim
  · exact Or.inr hp

/-- Then the permits of the readers are the objects, and those of the writers the free places and
the reads that wait. -/
theorem Stuck.permits (h : Stuck s) (he : Exact c s) : s.reader.permits = s.dataQueue.length ∧
    ∃ n, Total inRead s.pc n ∧ s.writer.permits + s.dataQueue.length = c + n := by
  obtain ⟨n, hn, heq⟩ := he.delivery
  obtain ⟨w, x, hw, hx, heq'⟩ := he.bound
  have hn0 : n = 0 := by
    refine hn.eq_zero fun p => ?_
    rcases h.waits p with hp | ⟨hp, -⟩ | ⟨o, hp, -⟩ <;> simp [hp, uncovered]
  have hw0 : w = 0 := by
    refine hw.eq_zero fun p => ?_
    rcases h.waits p with hp | ⟨hp, -⟩ | ⟨o, hp, -⟩ <;> simp [hp, pending]
  exact ⟨by omega, x, hx, by omega⟩

/-- When nobody can go on, a read waits only at an empty queue and a write only at a full one, and
never one for the other. -/
structure WaitsRightly (c : ℕ) (s : State E P) : Prop where
  reader : ∀ p, s.pc p = .reading → s.dataQueue = [] ∧ ∀ q o, s.pc q ≠ .writing o
  writer : ∀ p o, s.pc p = .writing o → s.dataQueue.length = c ∧ ∀ q, s.pc q ≠ .reading
  isEmpty : s.isEmpty = true ↔ s.dataQueue = []

theorem stuck_waits_rightly [Fintype P] (hc : c + Fintype.card P ≤ EFiberBlocker.noLimit)
    (h : Run Step (initial c) acts s) (hs : Stuck s) : WaitsRightly c s := by
  obtain ⟨hr, n, hn, hw⟩ := hs.permits (exact hc h)
  have hread : ∀ p, s.pc p = .reading → s.dataQueue = [] ∧ 0 < s.writer.permits := by
    intro p hp
    have hone := hn.single_le (p := p)
    rcases hs.waits p with hp' | ⟨-, hz⟩ | ⟨o, hp', -⟩
    · simp [hp] at hp'
    · refine ⟨List.length_eq_zero_iff.mp (by omega), ?_⟩
      simp [hp, inRead] at hone
      omega
    · simp [hp] at hp'
  have hwrite : ∀ p o, s.pc p = .writing o → s.writer.permits = 0 := by
    intro p o hp
    rcases hs.waits p with hp' | ⟨hp', -⟩ | ⟨o', -, hz⟩
    · simp [hp] at hp'
    · simp [hp] at hp'
    · exact hz
  refine ⟨fun p hp => ⟨(hread p hp).1, fun q o hq => ?_⟩, fun p o hp => ⟨?_, fun q hq => ?_⟩, ?_⟩
  · have := hwrite q o hq
    have := (hread p hp).2
    omega
  · have hz := hwrite p o hp
    have hnone : ∀ q, s.pc q ≠ .reading := by
      intro q hq
      have := (hread q hq).2
      omega
    have hn0 : n = 0 := by
      refine hn.eq_zero fun q => ?_
      rcases hs.waits q with hq | ⟨hq, -⟩ | ⟨o, hq, -⟩
      · simp [hq, inRead]
      · exact (hnone q hq).elim
      · simp [hq, inRead]
    omega
  · have := hwrite p o hp
    have := (hread q hq).2
    omega
  · simp [State.isEmpty, hr, List.length_eq_zero_iff]

/-- Two reads wait at an empty channel. -/
theorem stuck_waits_rightly_empty : ∃ s : State Bool (Fin 2),
    s.pc 0 = .reading ∧ s.pc 1 = .reading ∧ WaitsRightly 3 s := by
  refine ⟨_, ?_, ?_, stuck_waits_rightly (c := 3) (by decide)
    (.step (.read (p := 0) rfl (.posted (.post (by decide))))
      (.step (.read (p := 1) rfl (.posted (.post (by decide)))) .refl))
    (Fin.forall_fin_two.mpr ⟨not_moves_reading rfl rfl, not_moves_reading rfl rfl⟩)⟩
  · rfl
  · rfl

/-- A `tryRead` goes round again only while an object is on its way: a permit is there to be taken,
or a write has its permit and has not yet woken the reader. -/
theorem tryRead_repeats [Fintype P] (hc : c + Fintype.card P ≤ EFiberBlocker.noLimit)
    (h : Run Step (initial c) acts s) (hst : Step s (.writerTryWait p) t)
    (hp : t.pc p = .trying) :
    0 < s.reader.permits ∨ ∃ q, (∃ o, s.pc q = .writeGranted o) ∨ s.pc q = .added := by
  have he := exact hc h
  obtain ⟨n, hn, heq⟩ := he.delivery
  obtain ⟨w, x, hw, hx, heq'⟩ := he.bound
  cases hst with
  | writerTryWait hpc hm => simp at hp
  | writerTryWaitFail hpc hz =>
    by_contra hnot
    push Not at hnot
    obtain ⟨hr, hnone⟩ := hnot
    have hw0 : w = 0 := by
      refine hw.eq_zero fun q => ?_
      cases hq : s.pc q with
      | writeGranted o => exact ((hnone q).1 o hq).elim
      | _ => simp [pending]
    have hlt : n < x := by
      refine hn.lt hx (p := p) (fun q => ?_) (by simp [hpc, uncovered, inRead])
      cases hq : s.pc q with
      | added => exact ((hnone q).2 hq).elim
      | _ => simp [uncovered, inRead]
    omega

/-- A write has taken the place that the `tryRead` made, and not yet added its object. -/
theorem tryRead_repeats_granted : ∃ s t : State Bool (Fin 2), s.pc 1 = .writeGranted true ∧
    Step s (.writerTryWait 0) t ∧ t.pc 0 = .trying ∧
    (0 < s.reader.permits ∨ ∃ q, (∃ o, s.pc q = .writeGranted o) ∨ s.pc q = .added) := by
  refine ⟨_, _, ?_, .writerTryWaitFail (p := 0) ?_ ?_, ?_,
    tryRead_repeats (p := 0) (c := 0) (by decide)
      (.step (.tryRead (p := 0) rfl (.posted (.post (by decide))))
        (.step (.write (p := 1) (o := true) rfl)
          (.step (.writerWait (p := 1) (o := true) rfl (.take (by decide)))
            (.step (.readerTryWaitFail (p := 0) rfl rfl) .refl))))
      (.writerTryWaitFail (p := 0) rfl rfl) rfl⟩
  · rfl
  · rfl
  · rfl
  · rfl

end CxxFiber.Channel
