import CxxFiber.Scheduler.Join.Caller
import CxxFiber.Scheduler.Join.Interrupt

/-! A call of `interrupt` that has returned brings `join(int)` to an end. -/
namespace CxxFiber.Interrupt

open Transition Execution
open Join (Stage Awake Begun Gone Hosted Hosts NotStarted OfJoin Switches)

variable {n : ℕ} {F B T : Type} [DecidableEq F] [DecidableEq B] [DecidableEq T]
  {E : Execution (Step : State n F B T → Act n F B T → State n F B T → Prop)} {stale : Bool}
  {capacity limit : B → ℕ} {s t : State n F B T} {a : Act n F B T}
  {x y : Join.State n F B T} {act : Join.Act n F B T} {w : Fin (n + 1)} {c : Stage n F}

/-- The threads go on. -/
structure Going (E : Execution (Step : State n F B T → Act n F B T → State n F B T → Prop)) :
    Prop where
  seen : ∀ k, Seen (E.state k) (E.label k)
  goes : ∀ a, OfJoin a → E.WeaklyFair (.join a)

/-- The multiplexer returns for a byte in the pipe and for a timer that is due, its callbacks come
to an end, and no fiber keeps its worker for ever. -/
structure FairRun (stale : Bool) (capacity limit : B → ℕ)
    (E : Execution (Step : State n F B T → Act n F B T → State n F B T → Prop)) : Prop
    extends Going E where
  wakes : ∀ w, E.LeadsTo
    (fun s => s.join.stage w = .blocked ∧ (0 < s.join.pipe w ∨ s.due w = true))
    fun s => s.join.stage w ≠ .blocked
  returns : ∀ w, E.LeadsTo (fun s => Awake (s.join.stage w)) fun s => ¬ Awake (s.join.stage w)
  start : E.state 0 = initial stale capacity limit

/-- A call of `interrupt` has returned while `join` starts its pool, works or waits for it. -/
def Noticed (s : State n F B T) : Prop := s.returned = true ∧ Begun s.join

theorem hosts_join : Hosts (Step : State n F B T → Act n F B T → State n F B T → Prop)
    State.join .join where
  step hst := by
    cases hst with
    | setFlag _ hu | signal _ hu | join _ hu => exact Or.inr ⟨_, hu⟩
    | _ => exact Or.inl ⟨rfl, rfl⟩
  own _ hst := by
    cases hst with
    | join _ hu => exact hu
  enabled {x a} ha he := by
    obtain ⟨y, hy⟩ := he
    refine ⟨_, .join ?_ hy⟩
    cases a with
    | interrupt | schedule | countCall | sched => exact ha.elim
    | _ => trivial

theorem noticed_step (hst : Step s a t) (h : Noticed s) : Noticed t := by
  refine ⟨?_, ?_⟩
  · cases hst with
    | leave => rfl
    | _ => exact h.1
  · rcases hosts_join.step hst with ⟨_, hc⟩ | ⟨b, hu⟩
    · unfold Begun
      rw [hc]
      exact h.2
    · exact Join.begun_step hu h.2

theorem FairRun.holds (h : FairRun stale capacity limit E) (k : ℕ) : Inv (E.state k) := by
  induction k with
  | zero => exact h.start ▸ inv_initial
  | succ k ih => exact inv_step (E.step k) (h.seen k) ih

/-! Every loop ends -/

/-- How many of its own steps a worker has before it at most, once the flag is set. -/
def toEnd : Stage n F → ℕ
  | .counted _ => n + 15
  | .empty => n + 14
  | .hanging => n + 13
  | .blocked => n + 12
  | .events true => n + 11
  | .events false => n + 10
  | .busy => n + 9
  | .retiring _ => n + 8
  | .loop => n + 7
  | .clean rest => rest.length + 3
  | .check => 2
  | .left _ => 1
  | .off | .done _ => 0

section

omit [DecidableEq F]

theorem one_lt_toEnd (hc : Join.InLoop c) : 1 < toEnd c := by
  cases c with
  | off | left | done => exact hc.elim
  | events r => cases r <;> simp [toEnd]
  | _ => simp [toEnd]

end

/-- Only a worker with a fiber switches. -/
theorem switching_busy {b : Scheduler.Act F (Fin (n + 1)) B T}
    {u : Scheduler.State F (Fin (n + 1)) B T} (hsw : Switches w b) (ht : Tied x)
    (hm : x.MayStep (Join.party b)) (hu : Scheduler.Step x.sched b u) : x.stage w = .busy := by
  have hawake : Awake (x.stage w) := by
    rcases hsw with rfl | rfl | rfl <;> exact hm
  have hr := ht w
  cases hs : x.stage w with
  | busy => rfl
  | events r =>
    rw [hs] at hr
    have hr : x.sched.worker w = .idle := hr
    exact (hsw.fiber hu (by rw [hr]; rfl)).elim
  | _ =>
    rw [hs] at hawake
    exact hawake.elim

/-- The flag is set: no step takes a worker back. -/
theorem sinks (hst : Join.Step x act y) (hi : x.interrupted = true) (hn : NotStarted x)
    (ht : Tied x) (hw : x.stage w ≠ .off) :
    y.stage w = x.stage w ∨ toEnd (y.stage w) < toEnd (x.stage w) := by
  have hset : ∀ {v c}, y.stage = Function.update x.stage v c → toEnd c < toEnd (x.stage v) →
      y.stage w = x.stage w ∨ toEnd (y.stage w) < toEnd (x.stage w) := Join.down_of_update
  by_cases hs : act = .start
  · subst hs
    exact Or.inl (Join.start_keeps hst hn hw)
  cases hst with
  | start | started => exact (hs rfl).elim
  | count _ hc => simp [hi] at hc
  | @interrupted v hv | @pollDone v m hv =>
    refine hset rfl ?_
    have hlen := Join.length_others (w := v)
    simp only [hv, toEnd]
    omega
  | @wake v hv =>
    refine hset rfl ?_
    cases decide (0 < x.pipe v) <;> simp [hv, toEnd]
  | poll hv | pollEmpty hv | setHung hv | block hv | drain hv | clearHung hv | retire hv
  | cleanSignal hv | cleaned hv | leave hv | caught _ hv => exact hset rfl (by simp [hv, toEnd])
  | @raise v hv =>
    refine hset rfl ?_
    have hlow := one_lt_toEnd hv
    simpa [toEnd] using hlow
  | @sched b u _ hm hu =>
    by_cases hsw : Switches w b
    · have hb := switching_busy hsw ht hm hu
      have hy : (Join.stageAfter x u b) w = _ := Join.stageAfter_own hsw
      rcases Join.settled_ne x.sched u _ rfl with he | he | ⟨f, he⟩
      · exact Or.inl (hy.trans (he.trans hb.symm))
      · refine Or.inr ?_
        simp [hy, he, hb, toEnd]
      · refine Or.inr ?_
        simp [hy, he, hb, toEnd]
    · exact Or.inl (Join.stageAfter_other hsw)
  | _ => exact Or.inl rfl

/-- The next of a worker's own steps, where it needs nobody for it. -/
def own (w : Fin (n + 1)) : Stage n F → Join.Act n F B T
  | .loop => .interrupted w
  | .counted _ => .poll w
  | .empty => .setHung w
  | .hanging => .block w
  | .retiring _ => .retire w
  | .clean _ => .clean w
  | .check => .leave w
  | _ => .caught w

def Moving (w : Fin (n + 1)) : Stage n F → Prop
  | .loop | .counted _ | .empty | .hanging | .retiring _ | .clean _ | .check => True
  | .left _ => w.val ≠ 0
  | _ => False

section

omit [DecidableEq F] [DecidableEq B] [DecidableEq T]

theorem ofJoin_own (hm : Moving w c) : OfJoin (own w c : Join.Act n F B T) := by
  cases c with
  | off | blocked | events | busy | done => exact hm.elim
  | _ => trivial

end

theorem own_enabled (hi : x.interrupted = true) (ht : Tied x) (hc : x.stage w = c)
    (hm : Moving w c) : Enabled Join.Step x (own w c) := by
  have hr := ht w
  rw [hc] at hr
  cases c with
  | loop => exact ⟨_, .interrupted hc hi⟩
  | counted m =>
    cases hq : x.sched.taskQueue w with
    | cons f q => exact ⟨_, .poll hc (.poll hr hq)⟩
    | nil =>
      by_cases h0 : 0 < m
      · exact ⟨_, .pollEmpty hc h0 (.pollEmpty hr hq)⟩
      · exact ⟨_, .pollDone hc (not_lt.mp h0) hq⟩
  | empty => exact ⟨_, .setHung hc⟩
  | hanging => exact ⟨_, .block hc⟩
  | retiring f => exact ⟨_, .retire hc⟩
  | clean rest =>
    cases rest with
    | nil => exact ⟨_, .cleaned hc⟩
    | cons v rest => exact ⟨_, .cleanSignal hc⟩
  | check => exact ⟨_, .leave hc⟩
  | left r => exact ⟨_, .caught (Fin.val_ne_zero_iff.mp hm) hc⟩
  | off | blocked | events | busy | done => exact hm.elim

theorem own_moves (hc : x.stage w = c) (hm : Moving w c) (hst : Join.Step x (own w c) y) :
    y.stage w ≠ c := by
  cases c with
  | off | blocked | events | busy | done => exact hm.elim
  | clean rest =>
    cases hst with
    | cleanSignal hs =>
      rw [← hc, hs]
      simp
    | cleaned => simp
  | _ => cases hst <;> simp

theorem moves_on (h : FairRun stale capacity limit E) (hm : Moving w c) :
    E.LeadsTo (fun s => Noticed s ∧ s.join.stage w = c) fun s => s.join.stage w ≠ c := by
  refine leadsTo_of_changes (fun s => s.join.stage w) (h.goes _ (ofJoin_own hm))
    (fun k => noticed_step (E.step k)) (fun k hs hc => ?_) fun k _ hc hl => ?_
  · exact hosts_join.enabled (ofJoin_own hm)
      (own_enabled ((h.holds k).returned hs.1) (h.holds k).tied hc hm)
  · exact own_moves hc hm (hosts_join.own (ofJoin_own hm) (hl ▸ E.step k))

theorem gone_leads (h : FairRun stale capacity limit E) :
    E.LeadsTo (fun s => Noticed s ∧ s.join.stage w ≠ .off) fun s => Gone w s.join := by
  refine leadsTo_of_rank (fun s => s.join.stage w) toEnd (fun k ⟨hs, hon⟩ => Or.inr ?_)
    fun c m ⟨⟨hs, hon⟩, hc⟩ => ?_
  · have hs' := noticed_step (E.step k) hs
    rcases hosts_join.step (E.step k) with ⟨he, _⟩ | ⟨b, hu⟩
    · exact ⟨⟨hs', he ▸ hon⟩, Or.inl (congrFun he w)⟩
    · exact ⟨⟨hs', Join.on_step hu hon⟩,
        sinks hu ((h.holds k).returned hs.1) (h.holds k).started (h.holds k).tied hon⟩
  · have hmove : Moving w c →
        ∃ k, m ≤ k ∧ (Gone w (E.state k).join ∨ (E.state k).join.stage w ≠ c) := by
      intro hm
      obtain ⟨k, hk, hne⟩ := moves_on h hm m ⟨hs, hc⟩
      exact ⟨k, hk, Or.inr hne⟩
    have hback : Awake c →
        ∃ k, m ≤ k ∧ (Gone w (E.state k).join ∨ (E.state k).join.stage w ≠ c) := by
      intro ha
      subst hc
      obtain ⟨k, hk, hne⟩ := h.returns w m ha
      exact ⟨k, hk, Or.inr fun he => hne (he ▸ ha)⟩
    cases c with
    | off => exact (hon hc).elim
    | busy | events => exact hback trivial
    | blocked =>
      -- the byte or the timer that `interrupt` has left
      obtain ⟨k, hk, hne⟩ := h.wakes w m ⟨hc, (h.holds m).wakes hs.1 w hc⟩
      exact ⟨k, hk, Or.inr hne⟩
    | left r =>
      by_cases hw : w = 0
      · exact ⟨m, Nat.le_refl m, Or.inl (by simpa [Gone, hc] using hw)⟩
      · exact hmove (Fin.val_ne_zero_iff.mpr hw)
    | done r => exact ⟨m, Nat.le_refl m, Or.inl (by simp [Gone, hc])⟩
    | _ => exact hmove trivial

theorem FairRun.hosted (h : FairRun stale capacity limit E) :
    Hosted E State.join .join Noticed where
  hosts := hosts_join
  pool := h.start ▸ Join.pool_initial
  goes := h.goes
  lasts k := noticed_step (E.step k)
  begun _ hs := hs.2.1
  dispatches _ hs := (hs.1.2.2 hs.2).elim
  gone _ := gone_leads h

/-- A call of `interrupt` that has returned while `join` is under way ends it: every loop that has
begun ends, and the caller gets control back. -/
theorem interrupt_ends_join (h : FairRun stale capacity limit E) :
    (∀ w, E.LeadsTo (fun s => Noticed s ∧ s.join.stage w ≠ .off) fun s => Gone w s.join) ∧
    E.LeadsTo Noticed fun s => s.join.caller = .returned ∨ s.join.caller = .threw :=
  ⟨fun _ => gone_leads h, h.hosted.ends⟩

theorem Going.cons (hst : Step s a (E.state 0)) (hg : Seen s a) (h : Going E) :
    Going (E.cons hst) where
  seen k := by
    cases k with
    | zero => exact hg
    | succ k => exact h.seen k
  goes b hb := weaklyFair_cons (h.goes b hb)

theorem tick_stutters (h : s.due w = true) : Step s (.tick w) s := by
  have hst : Step s (.tick w) (s.setDue w (s.due w)) := h ▸ .tick
  simpa using hst

/-- Two workers: another thread interrupts while the caller starts the pool. Worker 1 leaves and the
caller throws. -/
theorem interrupted_run : ∃ as s bs t,
    Run (Guarded Seen Step) (initial false (fun _ => 0) fun _ => 0 : State 1 Unit Unit Unit) as s ∧
    Run (Guarded Seen Step) s bs t ∧ (Noticed s ∧ s.join.stage 1 = .loop) ∧
    t.due 0 = true ∧ t.join.caller = .threw ∧ ∀ w, Gone w t.join := by
  refine ⟨_, _, _, _,
    .guard (.join (a := .callJoin) trivial (.callJoin rfl)) trivial <|
    .guard (.join (a := .dispatch) trivial (.dispatched rfl rfl)) trivial <|
    .guard (.join (a := .start) trivial (.start (i := 0) (by decide) rfl)) trivial <|
    .guard (.setFlag (a := .thread ()) ⟨rfl, rfl, rfl⟩ .interrupt)
      (fun hn => absurd hn (by decide)) <|
    .guard (.findWaiters (a := .thread ()) rfl) trivial <|
    .guard (.interrupt (a := .thread ()) (w := 0) (r := [1]) true rfl) trivial <|
    .guard (.signal (a := .thread ()) (w := 0) (r := [1]) rfl (.signal (w := 0))) trivial <|
    .guard (.interrupt (a := .thread ()) (w := 1) (r := []) false rfl) trivial <|
    .guard (.signal (a := .thread ()) (w := 1) (r := []) rfl (.signal (w := 1))) trivial <|
    .guard (.leave (a := .thread ()) rfl) trivial .refl,
    .guard (.join (a := .interrupted 1) trivial (.interrupted (w := 1) rfl rfl)) trivial <|
    .guard (.join (a := .clean 1) trivial (.cleanSignal (w := 1) (v := 0) (r := []) rfl)) trivial <|
    .guard (.join (a := .clean 1) trivial (.cleaned (w := 1) rfl)) trivial <|
    .guard (.join (a := .leave 1) trivial (.leave (w := 1) rfl)) trivial <|
    .guard (.join (a := .caught 1) trivial (.caught (w := 1) (b := true) (by decide) rfl))
      trivial <|
    .guard (.join (a := .start) trivial (.started rfl)) trivial <|
    .guard (.join (a := .interrupted 0) trivial (.interrupted (w := 0) rfl rfl)) trivial <|
    .guard (.join (a := .clean 0) trivial (.cleanSignal (w := 0) (v := 1) (r := []) rfl)) trivial <|
    .guard (.join (a := .clean 0) trivial (.cleaned (w := 0) rfl)) trivial <|
    .guard (.join (a := .leave 0) trivial (.leave (w := 0) rfl)) trivial <|
    .guard (.join (a := .joinPool) trivial (.work (b := true) rfl rfl)) trivial .refl,
    ⟨⟨rfl, (fun h => by cases h), (fun h => by cases h)⟩, rfl⟩, rfl, rfl,
    Fin.forall_fin_two.mpr ⟨rfl, trivial⟩⟩

theorem interrupt_ends_join_thrown :
    ∃ E : Execution (Step : State 1 Unit Unit Unit → _ → _ → Prop),
    (∃ k, Noticed (E.state k) ∧ (E.state k).join.stage 1 = .loop) ∧
    (∀ w, E.LeadsTo (fun s => Noticed s ∧ s.join.stage w ≠ .off) fun s => Gone w s.join) ∧
    E.LeadsTo Noticed fun s => s.join.caller = .returned ∨ s.join.caller = .threw := by
  obtain ⟨as, s, bs, t, hbefore, hafter, hs, hdue, hthrew, hgone⟩ := interrupted_run
  have hE₀ : Going (cycle (fun _ => t) (fun _ => .tick 0) 1 (fun _ _ => tick_stutters hdue) rfl
      (by decide)) := by
    refine ⟨fun _ => trivial, fun a ha => cycle_fair (i := 0) (by decide) (Or.inr ?_)⟩
    rintro ⟨y, hy⟩
    exact Join.gone_disabled (Or.inr hthrew) hgone ha ⟨_, hosts_join.own ha hy⟩
  obtain ⟨E, hE, hstart, hcont⟩ := prepend Going.cons hafter hE₀ rfl
  obtain ⟨E', hE', hstart', hcont'⟩ := prepend Going.cons hbefore hE hstart
  have hmid : E'.state as.length = s := (hcont' 0).1.trans hstart
  have hend : ∀ k, E'.state (as.length + (bs.length + k)) = t :=
    fun k => (hcont' _).1.trans (hcont k).1
  have hlate : ∀ (Q : State 1 Unit Unit Unit → Prop) (m : ℕ), Q t →
      ∃ k, m ≤ k ∧ Q (E'.state k) := by
    intro Q m hq
    refine ⟨as.length + (bs.length + m), by omega, ?_⟩
    rwa [hend]
  have hblocked : ∀ w, t.join.stage w ≠ .blocked := by
    intro w hb
    rcases (hgone w).left_or_done with ⟨-, r, hg⟩ | ⟨r, hg⟩ <;> simp [hb] at hg
  have hawake : ∀ w, ¬ Awake (t.join.stage w) := by
    intro w ha
    rcases (hgone w).left_or_done with ⟨-, r, hg⟩ | ⟨r, hg⟩ <;> simp [hg, Awake] at ha
  refine ⟨E', ⟨as.length, by rwa [hmid]⟩, interrupt_ends_join
    { toGoing := hE', start := hstart'
      wakes := fun w m _ => hlate (fun s => s.join.stage w ≠ .blocked) m (hblocked w)
      returns := fun w m _ => hlate (fun s => ¬ Awake (s.join.stage w)) m (hawake w) }⟩

end CxxFiber.Interrupt
