import CxxFiber.Library.Executions
import CxxFiber.Scheduler.Join.Exit

/-! The caller of `join(int)` and the threads of its pool: once every worker that is started leaves
its loop, the caller gets control back. -/
namespace CxxFiber.Join

open Transition Execution

variable {n : ℕ} {F B T : Type}
  {capacity limit : B → ℕ} {s t : State n F B T} {a : Act n F B T} {w v : Fin (n + 1)}
  {c : Stage n F}

/-- The threads that there are. -/
structure Pool (s : State n F B T) : Prop where
  notStarted : NotStarted s
  started : Started s
  notDone : ∀ r, s.stage 0 ≠ .done r

theorem pool_initial : Pool (initial capacity limit : State n F B T) :=
  ⟨fun _ => rfl, trivial, by simp [initial]⟩

theorem Pool.congr (h : Pool s) (hs : t.stage = s.stage) (hc : t.caller = s.caller) : Pool t := by
  obtain ⟨hn, ho, hd⟩ := h
  constructor
  · unfold NotStarted
    rwa [hc, hs]
  · unfold Started
    rwa [hc, hs]
  · rwa [hs]

theorem update_stage {I : Stage n F → Prop}
    (ht : t.stage = Function.update s.stage v c) (hc : I c) (hw : I (s.stage w)) :
    I (t.stage w) := by
  rw [ht]
  by_cases hv : w = v
  · subst v
    rwa [Function.update_self]
  · rwa [Function.update_of_ne hv]

/-- When one worker goes down in a rank, none goes up. -/
theorem down_of_update {rank : Stage n F → ℕ} (ht : t.stage = Function.update s.stage v c)
    (hc : rank c < rank (s.stage v)) :
    t.stage w = s.stage w ∨ rank (t.stage w) < rank (s.stage w) := by
  rw [ht]
  by_cases hv : w = v
  · subst v
    exact Or.inr (by rwa [Function.update_self])
  · exact Or.inl (Function.update_of_ne hv _ _)

/-- The steps with which a worker may be done with its fiber. -/
def Switches (w : Fin (n + 1)) (act : Scheduler.Act F (Fin (n + 1)) B T) : Prop :=
  act = .switch w ∨ act = .swapOut w ∨ act = .requeue w

section Switches

variable {x y : Scheduler.State F (Fin (n + 1)) B T} {act : Scheduler.Act F (Fin (n + 1)) B T}

theorem Switches.fiber [DecidableEq F] [DecidableEq B] [DecidableEq T]
    (h : Switches w act) (hst : Scheduler.Step x act y) :
    (x.worker w).fiber? ≠ none := by
  rcases h with rfl | rfl | rfl <;> cases hst <;> simp [*, Scheduler.WorkerPc.fiber?]

/-- Only `Switches` takes a worker's own stage to where its fiber says. -/
theorem stageAfter_other {z : State n F B T} {u : Scheduler.State F (Fin (n + 1)) B T}
    (h : ¬ Switches w act) : stageAfter z u act w = z.stage w := by
  have hne : ∀ {v c}, v ≠ w → Function.update z.stage v c w = z.stage w :=
    fun hv => Function.update_of_ne (Ne.symm hv) _ _
  cases act with
  | switch v => exact hne fun hv => h (Or.inl (by rw [hv]))
  | swapOut v => exact hne fun hv => h (Or.inr (Or.inl (by rw [hv])))
  | requeue v => exact hne fun hv => h (Or.inr (Or.inr (by rw [hv])))
  | _ => rfl

theorem stageAfter_own {z : State n F B T} {u : Scheduler.State F (Fin (n + 1)) B T}
    (h : Switches w act) : stageAfter z u act w = settled z.sched u w := by
  rcases h with rfl | rfl | rfl <;> exact Function.update_self ..

end Switches

variable [DecidableEq F] [DecidableEq B] [DecidableEq T]

theorem length_others : (others w).length ≤ n + 1 :=
  (List.length_filter_le _ _).trans (List.length_finRange).le

/-- A worker that has been started stays so. -/
theorem on_step (hst : Step s a t) (hw : s.stage w ≠ .off) : t.stage w ≠ .off := by
  cases hst with
  | start | started | interrupted | count | poll | pollEmpty | pollDone | setHung | block | wake
  | drain | clearHung | retire | cleanSignal | cleaned | leave | raise | caught =>
    exact update_stage (I := fun c => c ≠ .off) rfl (by simp) hw
  | @sched act u ho hm hu =>
    cases act with
    | switch v | swapOut v | requeue v =>
      refine update_stage (I := fun c => c ≠ .off) rfl ?_ hw
      rcases settled_ne s.sched u _ rfl with he | he | ⟨f, he⟩ <;> rw [he] <;> simp
    | _ => exact hw
  | _ => exact hw

/-- A thread is started once. -/
theorem start_off (hst : Step s .start t) (hn : NotStarted s) :
    ∃ v, s.stage v = .off ∧ t.stage = Function.update s.stage v .loop := by
  cases hst with
  | start hi hc =>
    simp only [NotStarted, hc] at hn
    exact ⟨_, hn.2 _ (by simp), rfl⟩
  | started hc =>
    simp only [NotStarted, hc] at hn
    exact ⟨0, hn.1, rfl⟩

theorem start_keeps (hst : Step s .start t) (hn : NotStarted s) (hw : s.stage w ≠ .off) :
    t.stage w = s.stage w := by
  obtain ⟨v, hv, ht⟩ := start_off hst hn
  have hne : w ≠ v := by
    rintro rfl
    exact hw hv
  rw [ht, Function.update_of_ne hne]

theorem started_step (hst : Step s a t) (h : Started s) : Started t := by
  have hon := fun w => on_step (w := w) hst
  have hkeep : t.caller = s.caller → Started t := by
    intro hc
    unfold Started at *
    rw [hc]
    cases hs : s.caller with
    | before | dispatching => trivial
    | starting i =>
      simp only [hs] at h
      exact ⟨h.1, fun w hw hi => hon w (h.2 w hw hi)⟩
    | joining i =>
      simp only [hs] at h
      exact ⟨h.1, fun w => hon w (h.2 w)⟩
    | working | returned | threw =>
      simp only [hs] at h
      exact fun w => hon w (h w)
  cases hst with
  | callJoin => trivial
  | dispatched hc => exact ⟨Nat.zero_le n, fun w hw hz => (hw (Fin.ext (Nat.le_zero.mp hz))).elim⟩
  | @start i hi hc =>
    simp only [Started, hc] at h ⊢
    refine ⟨hi, fun w hw hle => ?_⟩
    by_cases hwi : w = Fin.succ ⟨i, hi⟩
    · simp [hwi]
    · have hlt : w.val ≤ i := by
        have hne : w.val ≠ i + 1 := fun he => hwi (Fin.ext he)
        omega
      exact hon w (h.2 w hw hlt)
  | started hc =>
    simp only [Started, hc] at h ⊢
    intro w
    by_cases hw : w = 0
    · simp [hw]
    · exact hon w (h.2 w hw (Nat.le_of_lt_succ w.isLt))
  | @work b hc =>
    simp only [Started, hc] at h
    cases b with
    | false => exact ⟨Nat.zero_le n, h⟩
    | true => exact h
  | joinPool hi hc =>
    simp only [Started, hc] at h
    exact ⟨hi, h.2⟩
  | joined hc =>
    simp only [Started, hc] at h
    unfold Started
    cases s.hasError <;> exact h.2
  | _ => exact hkeep rfl

theorem notDone_step (hst : Step s a t) (hn : NotStarted s) (h : ∀ r, s.stage 0 ≠ .done r)
    (r : Bool) : t.stage 0 ≠ .done r := by
  intro hr
  by_cases ha : a = .start
  · subst ha
    obtain ⟨v, -, ht⟩ := start_off hst hn
    exact update_stage (I := fun c => c ≠ .done r) ht (by simp) (h r) hr
  · cases stage_step hst ha 0 with
    | stay he => exact h r (he ▸ hr)
    | loop _ hd => exact hd r hr
    | caught b h0 => exact h0 rfl

theorem pool_step (hst : Step s a t) (h : Pool s) : Pool t where
  notStarted := notStarted_step hst h.notStarted
  started := started_step hst h.started
  notDone := notDone_step hst h.notStarted h.notDone

section

omit [DecidableEq F] [DecidableEq B] [DecidableEq T]

theorem Gone.left_or_done (h : Gone w s) :
    (w = 0 ∧ ∃ r, s.stage w = .left r) ∨ ∃ r, s.stage w = .done r := by
  unfold Gone at h
  cases hs : s.stage w with
  | left r =>
    rw [hs] at h
    exact Or.inl ⟨h, r, rfl⟩
  | done r => exact Or.inr ⟨r, rfl⟩
  | _ =>
    rw [hs] at h
    exact h.elim

theorem Gone.congr (h : Gone w s) (hs : t.stage w = s.stage w) : Gone w t := by
  unfold Gone
  rwa [hs]

end

theorem gone_step (hst : Step s a t) (hn : NotStarted s) (hg : Gone w s) : Gone w t := by
  by_cases ha : a = .start
  · subst ha
    refine hg.congr (start_keeps hst hn ?_)
    rcases hg.left_or_done with ⟨-, r, hs⟩ | ⟨r, hs⟩ <;> simp [hs]
  · rcases hg.left_or_done with ⟨rfl, r, hs⟩ | ⟨r, hs⟩
    · exact hg.congr (((stage_step hst ha 0).left_zero hs).trans hs.symm)
    · exact hg.congr (((stage_step hst ha w).done hs).trans hs.symm)

/-! The way of the caller -/

/-- How many of its own steps the caller has before it. -/
def callerToGo (n : ℕ) : CallerPc → ℕ
  | .before => 2 * n + 6
  | .dispatching => 2 * n + 5
  | .starting i => n - i + n + 3
  | .working => n + 2
  | .joining i => n - i + 1
  | .returned | .threw => 0

theorem caller_down (hst : Step s a t) (hc : s.caller ≠ .before) :
    t.caller = s.caller ∨ callerToGo n t.caller < callerToGo n s.caller := by
  cases hst with
  | callJoin hb => exact (hc hb).elim
  | dispatched hd =>
    simp only [hd, callerToGo]
    omega
  | start hi hd | joinPool hi hd =>
    simp only [hd, callerToGo]
    omega
  | started hd =>
    simp only [hd, callerToGo]
    omega
  | @work b hd =>
    cases b <;> simp [hd, callerToGo]
  | joined hd =>
    cases he : s.hasError <;> simp [hd, callerToGo]
  | _ => exact Or.inl rfl

/-- Nobody goes back to before the call. -/
theorem called_step (hst : Step s a t) (h : s.caller ≠ .before) : t.caller ≠ .before := by
  intro hb
  rcases caller_down hst h with he | hlt
  · exact h (he ▸ hb)
  · rw [hb] at hlt
    cases hc : s.caller <;> simp only [hc, callerToGo] at hlt <;> omega

/-- Once the caller is through with the fibers that it had to hand out, it does not go back. -/
def Begun (s : State n F B T) : Prop := s.caller ≠ .before ∧ s.caller ≠ .dispatching

theorem begun_step (hst : Step s a t) (h : Begun s) : Begun t := by
  obtain ⟨hb, hd⟩ := h
  refine ⟨called_step hst hb, fun ht => ?_⟩
  rcases caller_down hst hb with he | hlt
  · exact hd (he ▸ ht)
  · rw [ht] at hlt
    cases hc : s.caller with
    | before => exact hb hc
    | dispatching => exact hd hc
    | _ =>
      simp only [hc, callerToGo] at hlt
      omega

/-- The steps of the caller and of the loops that wait for nobody. -/
def OfJoin : Act n F B T → Prop
  | .dispatch | .start | .interrupted _ | .count _ | .poll _ | .setHung _ | .block _ | .drain _
  | .clearHung _ | .retire _ | .clean _ | .leave _ | .caught _ | .joinPool => True
  | _ => False

/-- When the caller has control back and the loops have ended, nothing is left to do. -/
theorem gone_disabled (hc : s.caller = .returned ∨ s.caller = .threw) (hs : ∀ w, Gone w s)
    (ha : OfJoin a) : ¬ Enabled Step s a := by
  rintro ⟨t, hst⟩
  have hgone : ∀ {v c}, s.stage v = c → (∀ r, c ≠ .left r) → (∀ r, c ≠ .done r) → False := by
    intro v c hv hl hd
    rcases (hs v).left_or_done with ⟨-, r, hg⟩ | ⟨r, hg⟩
    · exact hl r (hv.symm.trans hg)
    · exact hd r (hv.symm.trans hg)
  cases hst with
  | dispatch hd | dispatched hd | start _ hd | started hd | work hd | joinPool _ hd | joined hd =>
    simp [hd] at hc
  | interrupted hv | count hv | poll hv | pollEmpty hv | pollDone hv | setHung hv | block hv
  | drain hv | drainBusy hv | clearHung hv | retire hv | cleanSignal hv | cleaned hv | leave hv =>
    exact hgone hv (by simp) (by simp)
  | @caught v r hv hl =>
    rcases (hs v).left_or_done with ⟨h0, -⟩ | ⟨r', hg⟩
    · exact hv h0
    · simp [hl] at hg
  | _ => exact ha.elim

/-- A system around `join`: each step leaves the caller and the stages alone or is one of `join`,
and nothing of the system keeps `join` from going on. -/
structure Hosts {S A : Type*} (Sys : S → A → S → Prop) (j : S → State n F B T)
    (l : Act n F B T → A) : Prop where
  step : ∀ {x y b}, Sys x b y →
    ((j y).stage = (j x).stage ∧ (j y).caller = (j x).caller) ∨ ∃ a, Step (j x) a (j y)
  own : ∀ {x y a}, OfJoin a → Sys x (l a) y → Step (j x) a (j y)
  enabled : ∀ {x a}, OfJoin a → Enabled Step (j x) a → Enabled Sys x (l a)

theorem hosts_join : Hosts (Step : State n F B T → Act n F B T → State n F B T → Prop) id id where
  step hst := Or.inr ⟨_, hst⟩
  own _ hst := hst
  enabled _ he := he

section Host

variable {S A : Type*} {Sys : S → A → S → Prop} {E : Execution Sys} {j : S → State n F B T}
  {l : Act n F B T → A} {P : S → Prop} {pc : CallerPc}

/-- An execution of the system in which the threads go on; `P` lasts once it holds. -/
structure Hosted (E : Execution Sys) (j : S → State n F B T) (l : Act n F B T → A)
    (P : S → Prop) : Prop where
  hosts : Hosts Sys j l
  pool : Pool (j (E.state 0))
  goes : ∀ a, OfJoin a → E.WeaklyFair (l a)
  lasts : ∀ k, P (E.state k) → P (E.state (k + 1))
  begun : ∀ k, P (E.state k) → (j (E.state k)).caller ≠ .before
  dispatches : E.LeadsTo (fun x => P x ∧ (j x).caller = .dispatching)
    fun x => (j x).caller ≠ .dispatching
  gone : ∀ w, E.LeadsTo (fun x => P x ∧ (j x).stage w ≠ .off) fun x => Gone w (j x)

theorem Hosted.pools (h : Hosted E j l P) (k : ℕ) : Pool (j (E.state k)) := by
  induction k with
  | zero => exact h.pool
  | succ k ih =>
    rcases h.hosts.step (E.step k) with ⟨hs, hc⟩ | ⟨a, hst⟩
    · exact ih.congr hs hc
    · exact pool_step hst ih

/-- The caller goes on from where it is once it has what it waits for. -/
theorem Hosted.moves (h : Hosted E j l P) {R : State n F B T → Prop} (ha : OfJoin a)
    (hR : ∀ {s t b}, Pool s → Step s b t → R s → R t)
    (hc : ∀ {s t}, t.stage = s.stage → R s → R t)
    (he : ∀ {s}, Pool s → s.caller = pc → R s → Enabled Step s a)
    (hq : ∀ {s t}, s.caller = pc → Step s a t → t.caller ≠ pc) :
    E.LeadsTo (fun x => (P x ∧ (j x).caller = pc) ∧ R (j x)) fun x => (j x).caller ≠ pc := by
  have hlast : ∀ k, P (E.state k) ∧ R (j (E.state k)) →
      P (E.state (k + 1)) ∧ R (j (E.state (k + 1))) := by
    intro k ⟨hp, hr⟩
    refine ⟨h.lasts k hp, ?_⟩
    rcases h.hosts.step (E.step k) with ⟨hs, _⟩ | ⟨b, hst⟩
    · exact hc hs hr
    · exact hR (h.pools k) hst hr
  intro m ⟨⟨hp, hpc⟩, hr⟩
  refine leadsTo_of_changes (P := fun x => P x ∧ R (j x)) (fun x => (j x).caller) (h.goes a ha)
    hlast (fun k ⟨_, hr⟩ hpc => ?_) (fun k _ hpc hl => ?_) m ⟨⟨hp, hr⟩, hpc⟩
  · exact h.hosts.enabled ha (he (h.pools k) hpc hr)
  · exact hq hpc (h.hosts.own ha (hl ▸ E.step k))

theorem Hosted.starting (h : Hosted E j l P) (i : ℕ) :
    E.LeadsTo (fun x => P x ∧ (j x).caller = .starting i) fun x => (j x).caller ≠ .starting i := by
  intro m hm
  refine h.moves (R := fun _ => True) (a := .start) trivial (fun _ _ _ => trivial)
    (fun _ _ => trivial) (fun hs hc _ => ?_) (fun hc hst => ?_) m ⟨hm, trivial⟩
  · have hstarted := hs.started
    simp only [Started, hc] at hstarted
    rcases Nat.lt_or_eq_of_le hstarted.1 with hi | rfl
    · exact ⟨_, .start hi hc⟩
    · exact ⟨_, .started hc⟩
  · cases hst with
    | start _ hd =>
      obtain rfl := CallerPc.starting.inj (hc.symm.trans hd)
      simp
    | started => simp

/-- It waits for a worker. -/
theorem Hosted.waits (h : Hosted E j l P) (w : Fin (n + 1))
    (hon : ∀ {s : State n F B T}, Started s → s.caller = pc → s.stage w ≠ .off)
    (he : ∀ {s : State n F B T}, Pool s → s.caller = pc → Gone w s → Enabled Step s .joinPool)
    (hq : ∀ {s t : State n F B T}, s.caller = pc → Step s .joinPool t → t.caller ≠ pc) :
    E.LeadsTo (fun x => P x ∧ (j x).caller = pc) fun x => (j x).caller ≠ pc := by
  have hgone : E.LeadsTo (fun x => P x ∧ (j x).caller = pc) fun x => Gone w (j x) :=
    fun m ⟨hp, hc⟩ => h.gone w m ⟨hp, hon (h.pools m).started hc⟩
  have huntil : E.LeadsTo (fun x => P x ∧ (j x).caller = pc)
      fun x => (j x).caller ≠ pc ∨ (P x ∧ (j x).caller = pc) ∧ Gone w (j x) := by
    exact hgone.until fun _ => lasts_or_changes (fun x => (j x).caller) h.lasts
  refine huntil.trans (.or (.of_imp fun _ hc => hc) ?_)
  refine h.moves (R := Gone w) (a := .joinPool) trivial
    (fun hs hst => gone_step hst hs.notStarted) (fun hs hg => hg.congr (by rw [hs])) he hq

theorem Hosted.working (h : Hosted E j l P) :
    E.LeadsTo (fun x => P x ∧ (j x).caller = .working) fun x => (j x).caller ≠ .working := by
  refine h.waits 0 (fun hs hc => ?_) (fun {s} hs hc hg => ?_) fun hc hst => ?_
  · simp only [Started, hc] at hs
    exact hs 0
  · rcases hg.left_or_done with ⟨-, r, h0⟩ | ⟨r, h0⟩
    · exact ⟨_, .work hc h0⟩
    · exact (hs.notDone r h0).elim
  · cases hst with
    | @work b =>
      cases b <;> simp
    | joinPool _ hd => cases hc.symm.trans hd
    | joined hd => cases hc.symm.trans hd

theorem Hosted.joining (h : Hosted E j l P) (i : ℕ) :
    E.LeadsTo (fun x => P x ∧ (j x).caller = .joining i) fun x => (j x).caller ≠ .joining i := by
  have hmoves : ∀ {s t : State n F B T}, s.caller = .joining i → Step s .joinPool t →
      t.caller ≠ .joining i := by
    intro s t hc hst
    cases hst with
    | work hd => cases hc.symm.trans hd
    | joinPool _ hd =>
      obtain rfl := CallerPc.joining.inj (hc.symm.trans hd)
      simp
    | joined => cases s.hasError <;> simp
  by_cases hi : i < n
  · refine h.waits (Fin.succ ⟨i, hi⟩) (fun hs hc => ?_) (fun {s} hs hc hg => ?_) hmoves
    · simp only [Started, hc] at hs
      exact hs.2 _
    · rcases hg.left_or_done with ⟨h0, -⟩ | ⟨r, hd⟩
      · exact (Fin.succ_ne_zero _ h0).elim
      · exact ⟨_, .joinPool hi hc hd⟩
  · intro m hm
    refine h.moves (R := fun _ => True) (a := .joinPool) trivial (fun _ _ _ => trivial)
      (fun _ _ => trivial) (fun hs hc _ => ?_) hmoves m ⟨hm, trivial⟩
    have hstarted := hs.started
    simp only [Started, hc] at hstarted
    obtain rfl : i = n := by omega
    exact ⟨_, .joined hc⟩

/-- The caller gets control back. -/
theorem Hosted.ends (h : Hosted E j l P) :
    E.LeadsTo P fun x => (j x).caller = .returned ∨ (j x).caller = .threw := by
  refine leadsTo_of_rank (fun x => (j x).caller) (callerToGo n) (fun k hp => Or.inr ?_)
    fun pc m ⟨hp, hc⟩ => ?_
  · refine ⟨h.lasts k hp, ?_⟩
    rcases h.hosts.step (E.step k) with ⟨_, hc⟩ | ⟨a, hst⟩
    · exact Or.inl hc
    · exact caller_down hst (h.begun k hp)
  · have hleads : E.LeadsTo (fun x => P x ∧ (j x).caller = pc) (fun x => (j x).caller ≠ pc) →
        ∃ k, m ≤ k ∧ (((j (E.state k)).caller = .returned ∨ (j (E.state k)).caller = .threw) ∨
          (j (E.state k)).caller ≠ pc) := by
      intro hl
      obtain ⟨k, hk, hne⟩ := hl m ⟨hp, hc⟩
      exact ⟨k, hk, Or.inr hne⟩
    cases pc with
    | before => exact (h.begun m hp hc).elim
    | dispatching => exact hleads h.dispatches
    | starting i => exact hleads (h.starting i)
    | working => exact hleads h.working
    | joining i => exact hleads (h.joining i)
    | returned => exact ⟨m, Nat.le_refl m, Or.inl (Or.inl hc)⟩
    | threw => exact ⟨m, Nat.le_refl m, Or.inl (Or.inr hc)⟩

end Host

end CxxFiber.Join
