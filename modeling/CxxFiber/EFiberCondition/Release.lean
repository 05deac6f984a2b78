import CxxFiber.EFiberCondition

/-! What `signal` and `signalAll` release, and that it reaches the callers of `await`. -/
namespace CxxFiber.Condition

open Transition

variable {P : Type} {s t : State P} {p q : P} {n m i k : ℕ} {a : Act P}
  {as : List (Act P)}

/-- Nothing that a `signalAll` has visited is still in the queue. -/
def NoStale (s : State P) : Prop := ∀ n ∈ s.waiters, n ∉ s.visited

/-- The condition on a step: a `signal` finds no stale blocker. -/
def Fresh (s : State P) (a : Act P) : Prop := ∀ p, a = .signal p → NoStale s

/-- What the calls promise, at the step that decides it. -/
structure Lawful (s : State P) (a : Act P) (t : State P) : Prop where
  first : ∀ p n, a = .signal p → Waiting s n → (∀ m, Waiting s m → n ≤ m) →
    t.signalled = s.signalled ++ [n] ∧ t.pc p = .signalling n
  spent : ∀ p n, a = .signal p → t.signalled = s.signalled ++ [n] → Waiting s n
  started : ∀ p, a = .signalAll p → ∃ i, t.pc p = .iterating i s.enqueued
  all : ∀ p i k, a = .finish p → s.pc p = .iterating i k → ∀ n, n < k → Released t n
  returned : ∀ p n, entry (s.pc p) = some n → entry (t.pc p) ≠ some n → Released s n
  others : ∀ n, Released t n → Released s n ∨
    (∃ p, a = .signal p ∧ t.pc p = .signalling n) ∨ ∃ p, a = .next p ∧ n ∈ t.visited

/-- The blocker of a released caller has a permit, or will be woken, or its caller is through. -/
structure Delivered (s : State P) : Prop where
  unique : ∀ p q n, entry (s.pc p) = some n → entry (s.pc q) = some n → p = q
  ready : ∀ p n, entry (s.pc p) = some n → Released s n →
    s.pc p = .resumed n ∨ (s.pc p ≠ .parked n ∧ 0 < (s.blocker n).wakeup) ∨
      ∃ q c, waking (s.pc q) = some (n, c)

/-- Blocker `n`, once added: its one caller, its permits and its queue. -/
structure EntryOk (s : State P) (n : ℕ) : Prop where
  unique : ∀ p q, entry (s.pc p) = some n → entry (s.pc q) = some n → p = q
  limit : (s.blocker n).limit = EFiberBlocker.noLimit
  early : 0 < (s.blocker n).wakeup → Released s n
  resumed : ∀ p, s.pc p = .resumed n → Released s n
  hung : ∀ q ∈ (s.blocker n).waitQueue, s.pc q = .parked n
  parked : ∀ p, s.pc p = .parked n →
    (s.blocker n).wakeup = 0 ∧ (s.blocker n).waitQueue = [p]
  ready : ∀ p, entry (s.pc p) = some n → Released s n →
    s.pc p = .resumed n ∨ (s.pc p ≠ .parked n ∧ 0 < (s.blocker n).wakeup) ∨
      ∃ q c, waking (s.pc q) = some (n, c)

/-- The caller is in `await` on blocker `n`, or about to wake it. -/
def About (n : ℕ) (c : CallPc) : Prop := entry c = some n ∨ ∃ c', waking c = some (n, c')

/-- Nothing that concerns blocker `n` happens. -/
theorem EntryOk.frame (h : EntryOk s n) (hb : t.blocker n = s.blocker n)
    (hr : Released t n ↔ Released s n)
    (hpc : ∀ x, t.pc x = s.pc x ∨ ¬ About n (s.pc x) ∧ ¬ About n (t.pc x)) : EntryOk t n := by
  have hback : ∀ x, About n (t.pc x) → t.pc x = s.pc x := by
    intro x hx
    rcases hpc x with he | ⟨_, hn⟩
    · exact he
    · exact (hn hx).elim
  have hfwd : ∀ x, About n (s.pc x) → t.pc x = s.pc x := by
    intro x hx
    rcases hpc x with he | ⟨hn, _⟩
    · exact he
    · exact (hn hx).elim
  have habout : ∀ x c, t.pc x = c → entry c = some n → s.pc x = c := by
    intro x c hx hc
    rw [← hback x (Or.inl (hx ▸ hc)), hx]
  constructor
  case unique =>
    intro p q hp hq
    exact h.unique p q (habout p _ rfl hp ▸ hp) (habout q _ rfl hq ▸ hq)
  case limit =>
    rw [hb]
    exact h.limit
  case early =>
    rw [hb, hr]
    exact h.early
  case resumed =>
    intro p hp
    exact hr.mpr (h.resumed p (habout p _ hp rfl))
  case hung =>
    intro q hq
    have hs := h.hung q (hb ▸ hq)
    rw [hfwd q (Or.inl (hs ▸ rfl)), hs]
  case parked =>
    intro p hp
    rw [hb]
    exact h.parked p (habout p _ hp rfl)
  case ready =>
    intro p hp hrel
    have he := hback p (Or.inl hp)
    rw [he] at hp ⊢
    rcases h.ready p hp (hr.mp hrel) with hd | hd | ⟨q, c, hq⟩
    · exact Or.inl hd
    · exact Or.inr (Or.inl (hb ▸ hd))
    · exact Or.inr (Or.inr ⟨q, c, hfwd q (Or.inr ⟨c, hq⟩) ▸ hq⟩)

variable [DecidableEq P]

/-- One caller moves, and neither before nor after is it about blocker `n`. -/
theorem EntryOk.frame_one {c : CallPc} (h : EntryOk s n) (hb : t.blocker n = s.blocker n)
    (hr : Released t n ↔ Released s n) (hpc : t.pc = Function.update s.pc p c)
    (hs : ¬ About n (s.pc p)) (ht : ¬ About n c) : EntryOk t n := by
  refine h.frame hb hr fun x => ?_
  by_cases hx : x = p
  · subst x
    exact Or.inr ⟨hs, by simpa [hpc] using ht⟩
  · exact Or.inl (by simp [hpc, hx])

theorem entry_of_waking {c : CallPc} {x : ℕ × CallPc} (h : waking c = some x) : entry c = none := by
  cases c <;> simp [waking] at h <;> rfl

/-- The one caller of blocker `n` moves. -/
theorem EntryOk.solo {c : CallPc} {b : EFiberBlocker P} (h : EntryOk s n)
    (hp : entry (s.pc p) = some n) (hpc : t.pc = Function.update s.pc p c) (hb : t.blocker n = b)
    (hr : Released t n ↔ Released s n) (hl : b.limit = (s.blocker n).limit)
    (hw : b.wakeup ≤ (s.blocker n).wakeup) (hres : c = .resumed n → Released s n)
    (hq : b.waitQueue = if c = .parked n then [p] else [])
    (hpark : c = .parked n → b.wakeup = 0)
    (hready : entry c = some n → Released s n → c = .resumed n ∨ (c ≠ .parked n ∧ 0 < b.wakeup) ∨
      ∃ q c', waking (s.pc q) = some (n, c')) : EntryOk t n := by
  have honly : ∀ x, entry (t.pc x) = some n → x = p := by
    intro x hx
    by_contra hne
    rw [hpc, Function.update_of_ne hne] at hx
    exact hne (h.unique x p hx hp)
  have hself : t.pc p = c := by simp [hpc]
  constructor
  case unique => exact fun x y hx hy => (honly x hx).trans (honly y hy).symm
  case limit =>
    rw [hb, hl]
    exact h.limit
  case early =>
    intro h0
    rw [hb] at h0
    exact hr.mpr (h.early (by omega))
  case resumed =>
    intro x hx
    obtain rfl := honly x (hx ▸ rfl)
    exact hr.mpr (hres (hself.symm.trans hx))
  case hung =>
    intro q hqm
    rw [hb, hq] at hqm
    split at hqm
    · rename_i hc
      rw [List.mem_singleton.mp hqm, hself, hc]
    · exact (List.not_mem_nil hqm).elim
  case parked =>
    intro x hx
    obtain rfl := honly x (hx ▸ rfl)
    have hc := hself.symm.trans hx
    rw [hb, hq, if_pos hc]
    exact ⟨hpark hc, rfl⟩
  case ready =>
    intro x hx hrel
    obtain rfl := honly x hx
    rw [hself] at hx ⊢
    rw [hb]
    rcases hready hx (hr.mp hrel) with hd | hd | ⟨q, c', hd⟩
    · exact Or.inl hd
    · exact Or.inr (Or.inl hd)
    · refine Or.inr (Or.inr ⟨q, c', ?_⟩)
      have hne : q ≠ x := by
        rintro rfl
        simp [entry_of_waking hd] at hp
      rw [hpc, Function.update_of_ne hne]
      exact hd

/-- Some caller picks blocker `n`. -/
theorem EntryOk.pick {c c' : CallPc} (h : EntryOk s n) (hb : t.blocker n = s.blocker n)
    (hr : Released t n) (hpc : t.pc = Function.update s.pc p c) (hp : entry (s.pc p) = none)
    (hc : waking c = some (n, c')) : EntryOk t n := by
  have hself : t.pc p = c := by simp [hpc]
  have hsame : ∀ x, entry (t.pc x) = some n → t.pc x = s.pc x := by
    intro x hx
    by_cases hxp : x = p
    · subst x
      rw [hself, entry_of_waking hc] at hx
      exact nomatch hx
    · rw [hpc, Function.update_of_ne hxp]
  refine ⟨fun x y hx hy => ?_, ?_, fun _ => hr, fun _ _ => hr, fun q hq => ?_, fun x hx => ?_,
    fun x _ _ => Or.inr (Or.inr ⟨p, c', hself ▸ hc⟩)⟩
  · exact h.unique x y (hsame x hx ▸ hx) (hsame y hy ▸ hy)
  · rw [hb]
    exact h.limit
  · have hs := h.hung q (hb ▸ hq)
    have hne : q ≠ p := by
      rintro rfl
      rw [hs] at hp
      exact nomatch hp
    rw [hpc, Function.update_of_ne hne, hs]
  · rw [hb]
    exact h.parked x ((hsame x (hx ▸ rfl)).symm.trans hx)

theorem about_iff {c : CallPc} : About n c ↔ match c with
    | .checking m | .yielding m | .parked m | .resumed m | .signalling m | .visiting m _ => m = n
    | _ => False := by
  cases c <;> simp [About, entry, waking]

section

omit [DecidableEq P]

/-- The queue of a blocker is empty unless its caller is parked in it. -/
theorem EntryOk.waitQueue_nil (h : EntryOk s n) (hp : entry (s.pc p) = some n)
    (hn : s.pc p ≠ .parked n) : (s.blocker n).waitQueue = [] := by
  rw [List.eq_nil_iff_forall_not_mem]
  intro q hq
  have hs := h.hung q hq
  obtain rfl := h.unique p q hp (hs ▸ rfl)
  exact hn hs

end

theorem EntryOk.create (ho : Ordered s) : EntryOk
    { (s.setPc p (.checking s.enqueued)).setBlocker s.enqueued
        (.create 0 EFiberBlocker.noLimit) with
      waiters := s.waiters ++ [s.enqueued], enqueued := s.enqueued + 1 } s.enqueued := by
  have hother : ∀ x, x ≠ p → entry (s.pc x) ≠ some s.enqueued := by
    intro x _ hx
    exact Nat.lt_irrefl _ (Ordered.entry (ho.pc x) hx)
  have hpc : ∀ x, entry (Function.update s.pc p (.checking s.enqueued) x) = some s.enqueued →
      x = p := by
    intro x hx
    by_contra hne
    rw [Function.update_of_ne hne] at hx
    exact hother x hne hx
  have hpark : ∀ x c, entry c = some s.enqueued → c ≠ .checking s.enqueued →
      Function.update s.pc p (.checking s.enqueued) x ≠ c := by
    intro x c hc hne hx
    obtain rfl := hpc x (hx ▸ hc)
    exact hne (by simpa using hx.symm)
  constructor
  case unique => exact fun x y hx hy => (hpc x hx).trans (hpc y hy).symm
  case limit =>
    simp [State.setBlocker]
  case early =>
    simp [State.setBlocker]
  case resumed =>
    intro x hx
    exact (hpark x _ rfl (by simp) hx).elim
  case hung =>
    simp [State.setBlocker]
  case parked =>
    intro x hx
    exact (hpark x _ rfl (by simp) hx).elim
  case ready =>
    intro x _ hrel
    rcases hrel with hrel | hrel
    · exact (Nat.lt_irrefl _ (ho.lt_enqueued.mpr (Or.inl hrel))).elim
    · exact (Nat.lt_irrefl _ (ho.bound _ hrel)).elim

/-- A `wakeUp` without a waiter leaves a permit, which the blocker then has. -/
theorem EntryOk.post {c : CallPc} {b : EFiberBlocker P} (h : EntryOk s n)
    (hr : Released s n) (hc : entry c = none)
    (hq : (s.blocker n).waitQueue = []) (hbq : b.waitQueue = [])
    (hl : b.limit = (s.blocker n).limit) (hw : 0 < b.wakeup) :
    EntryOk ((s.setPc p c).setBlocker n b) n := by
  have hself : Function.update s.blocker n b n = b := Function.update_self ..
  have hsame : ∀ x m, entry (Function.update s.pc p c x) = some m →
      Function.update s.pc p c x = s.pc x := by
    intro x m hx
    by_cases hxp : x = p
    · subst x
      simp [hc] at hx
    · rw [Function.update_of_ne hxp]
  have hnopark : ∀ x, Function.update s.pc p c x ≠ .parked n := by
    intro x hx
    have := (h.parked x ((hsame x n (hx ▸ rfl)) ▸ hx)).2
    simp [hq] at this
  refine ⟨fun x y hx hy => ?_, ?_, fun _ => hr, fun _ _ => hr, fun q hqm => ?_,
    fun x hx => (hnopark x hx).elim, fun x hx _ => Or.inr (Or.inl ⟨hnopark x, ?_⟩)⟩
  · exact h.unique x y (hsame x n hx ▸ hx) (hsame y n hy ▸ hy)
  · simpa [hl] using h.limit
  · simp [hbq] at hqm
  · simpa using hw

/-- A `wakeUp` with a waiter resumes it. -/
theorem EntryOk.handOver {c : CallPc} {l : List P} (h : EntryOk s n) (hr : Released s n)
    (hp : entry (s.pc p) = none) (hc : entry c = none) (hq : (s.blocker n).waitQueue = q :: l) :
    EntryOk (((s.setPc p c).setBlocker n { s.blocker n with waitQueue := l }).resume n (.waiter q))
      n := by
  have hpark : s.pc q = .parked n := h.hung q (by simp [hq])
  obtain ⟨h0, hone⟩ := h.parked q hpark
  obtain rfl : l = [] := by
    rw [hq] at hone
    exact List.tail_eq_of_cons_eq hone
  have hne : q ≠ p := by
    rintro rfl
    simp [hpark, entry] at hp
  have honly : ∀ x, entry (Function.update (Function.update s.pc p c) q (.resumed n) x) = some n →
      x = q := by
    intro x hx
    by_contra hxq
    rw [Function.update_of_ne hxq] at hx
    by_cases hxp : x = p
    · subst x
      simp [hc] at hx
    · rw [Function.update_of_ne hxp] at hx
      exact hxq (h.unique x q hx (hpark ▸ rfl))
  refine ⟨fun x y hx hy => (honly x hx).trans (honly y hy).symm, ?_, fun _ => hr, fun _ _ => hr,
    fun x hx => ?_, fun x hx => ?_, fun x hx _ => ?_⟩
  · simpa using h.limit
  · simp at hx
  · obtain rfl := honly x (congrArg entry hx)
    simp at hx
  · obtain rfl := honly x hx
    exact Or.inl (by simp)

theorem EntryOk.wakeUp {c : CallPc} {b : EFiberBlocker P} {r : Woken P} (h : EntryOk s n)
    (hr : Released s n) (hp : waking (s.pc p) = some (n, c))
    (hb : (s.blocker n).wakeUp = (b, r)) :
    EntryOk (((s.setPc p c).setBlocker n b).resume n r) n := by
  have hpe := entry_of_waking hp
  have hce : entry c = none := by
    cases hc : s.pc p <;> simp [hc, waking] at hp <;> simp [← hp.2, entry]
  cases r with
  | refused =>
    obtain ⟨hq, hl, rfl⟩ := EFiberBlocker.wakeUp_refused.mp hb
    refine h.post hr hce hq hq rfl ?_
    rw [h.limit] at hl
    exact Nat.lt_of_lt_of_le (by decide) hl
  | counted =>
    obtain ⟨hq, hl, rfl⟩ := EFiberBlocker.wakeUp_counted.mp hb
    exact h.post hr hce hq hq rfl (Nat.succ_pos _)
  | waiter q =>
    obtain ⟨l, hq, rfl⟩ := EFiberBlocker.wakeUp_waiter.mp hb
    exact h.handOver hr hpe hce hq

theorem entries_step (hst : Step s a t) (ho : Ordered s) (h : ∀ n, n < s.enqueued → EntryOk s n) :
    ∀ m, m < t.enqueued → EntryOk t m := by
  intro m hm
  cases hst with
  | await hp =>
    by_cases hme : m = s.enqueued
    · exact hme ▸ .create ho
    · have hlt : m < s.enqueued := by
        have : m < s.enqueued + 1 := hm
        omega
      refine (h m hlt).frame_one (by simp [hme]) Iff.rfl rfl ?_ ?_
      · simp [about_iff, hp]
      · simpa [about_iff, eq_comm] using hme
  | checkPermit hp hb =>
    rename_i p n b
    by_cases hmn : m = n
    · subst m
      obtain ⟨h0, rfl⟩ := EFiberBlocker.tryWait_true.mp hb
      have hnil := (h n hm).waitQueue_nil (p := p) (hp ▸ rfl) (by simp [hp])
      refine (h n hm).solo (c := .idle) (by rw [hp]; rfl) rfl (Function.update_self ..) Iff.rfl rfl
        (Nat.sub_le _ _) (by simp) ?_ (by simp) (by simp [entry])
      simpa using hnil
    · exact (h m hm).frame_one (by simp [hmn]) Iff.rfl rfl (by simpa [about_iff, hp, eq_comm])
        (by simp [about_iff])
  | check hp hb =>
    rename_i p n b
    by_cases hmn : m = n
    · subst m
      have hnil := (h n hm).waitQueue_nil (p := p) (hp ▸ rfl) (by simp [hp])
      have hready := (h n hm).ready p (hp ▸ rfl)
      refine (h n hm).solo (c := .yielding n) (by rw [hp]; rfl) rfl rfl Iff.rfl rfl le_rfl (by simp)
        ?_ (by simp) ?_
      · simpa using hnil
      · intro _ hrel
        simpa [hp] using hready hrel
    · exact (h m hm).frame_one rfl Iff.rfl rfl (by simpa [about_iff, hp, eq_comm])
        (by simpa [about_iff, eq_comm])
  | swapOut hp hb =>
    rename_i p n b
    by_cases hmn : m = n
    · subst m
      obtain ⟨h0, rfl⟩ := EFiberBlocker.swapOut_hung.mp hb
      have hnil := (h n hm).waitQueue_nil (p := p) (hp ▸ rfl) (by simp [hp])
      have hready := (h n hm).ready p (hp ▸ rfl)
      refine (h n hm).solo (c := .parked n) (by rw [hp]; rfl) rfl (Function.update_self ..) Iff.rfl
        rfl le_rfl (by simp) ?_ (fun _ => h0) ?_
      · simp [hnil]
      · intro _ hrel
        simpa [hp, h0] using hready hrel
    · exact (h m hm).frame_one (by simp [hmn]) Iff.rfl rfl (by simpa [about_iff, hp, eq_comm])
        (by simpa [about_iff, eq_comm])
  | swapOutPermit hp hb =>
    rename_i p n b
    by_cases hmn : m = n
    · subst m
      obtain ⟨h0, rfl⟩ := EFiberBlocker.swapOut_permit.mp hb
      have hnil := (h n hm).waitQueue_nil (p := p) (hp ▸ rfl) (by simp [hp])
      refine (h n hm).solo (c := .resumed n) (by rw [hp]; rfl) rfl (Function.update_self ..) Iff.rfl
        rfl (Nat.sub_le _ _) (fun _ => (h n hm).early h0) ?_ (by simp)
        (fun _ _ => Or.inl rfl)
      simpa using hnil
    · exact (h m hm).frame_one (by simp [hmn]) Iff.rfl rfl (by simpa [about_iff, hp, eq_comm])
        (by simpa [about_iff, eq_comm])
  | resume hp =>
    rename_i p n
    by_cases hmn : m = n
    · subst m
      have hnil := (h n hm).waitQueue_nil (p := p) (hp ▸ rfl) (by simp [hp])
      refine (h n hm).solo (c := .idle) (by rw [hp]; rfl) rfl rfl Iff.rfl rfl le_rfl (by simp)
        ?_ (by simp) (by simp [entry])
      simpa using hnil
    · exact (h m hm).frame_one rfl Iff.rfl rfl (by simpa [about_iff, hp, eq_comm])
        (by simp [about_iff])
  | signal hp hq =>
    rename_i p n q
    by_cases hmn : m = n
    · subst m
      exact (h n hm).pick rfl (Or.inl (by simp)) rfl (hp ▸ rfl) rfl
    · exact (h m hm).frame_one rfl (by simp [Released, hmn]) rfl (by simp [about_iff, hp])
        (by simpa [about_iff, eq_comm])
  | signalEmpty hp hq => exact h m hm
  | signalAll hp =>
    exact (h m hm).frame_one rfl Iff.rfl rfl (by simp [about_iff, hp]) (by simp [about_iff])
  | next hp hi hn hmin =>
    rename_i p i k n
    by_cases hmn : m = n
    · subst m
      exact (h n hm).pick rfl (Or.inr (by simp)) rfl (hp ▸ rfl) rfl
    · exact (h m hm).frame_one rfl (by simp [Released, hmn]) rfl (by simp [about_iff, hp])
        (by simpa [about_iff, eq_comm])
  | finish hp hmin =>
    exact (h m hm).frame_one rfl Iff.rfl rfl (by simp [about_iff, hp]) (by simp [about_iff])
  | wakeUp hp hb =>
    rename_i p n c b r
    obtain ⟨hn, hr, _⟩ := ho.waking (ho.pc p) hp
    have hm : m < s.enqueued := by cases r <;> exact hm
    by_cases hmn : m = n
    · exact hmn ▸ (hmn ▸ h m hm : EntryOk s n).wakeUp hr hp hb
    · have hone : EntryOk ((s.setPc p c).setBlocker n b) m := by
        refine (h m hm).frame_one (by simp [hmn]) Iff.rfl rfl ?_ ?_
        · cases hc : s.pc p <;> simp [hc, waking] at hp <;> simp [about_iff] <;> omega
        · cases hc : s.pc p <;> simp [hc, waking] at hp <;> simp [about_iff, ← hp.2]
      cases r with
      | refused | counted => exact hone
      | waiter q =>
        obtain ⟨l, hq, rfl⟩ := EFiberBlocker.wakeUp_waiter.mp hb
        have hpark : s.pc q = .parked n := (h n hn).hung q (by simp [hq])
        have hne : q ≠ p := by
          rintro rfl
          simp [hpark, waking] at hp
        refine hone.frame_one rfl Iff.rfl rfl ?_ (by simpa [about_iff, eq_comm])
        simpa [about_iff, hne, hpark, eq_comm] using hmn

structure Inv (s : State P) : Prop where
  ordered : Ordered s
  entries : ∀ n, n < s.enqueued → EntryOk s n

section

omit [DecidableEq P]

theorem inv_initial : Inv (initial : State P) := ⟨ordered_initial, by simp [initial]⟩

end

theorem inv_step (hi : Inv s) (hst : Step s a t) : Inv t :=
  ⟨ordered_step hst hi.ordered, entries_step hst hi.ordered hi.entries⟩

theorem inv_run (h : Run Step initial as s) : Inv s :=
  h.invariant (fun _ _ _ hi hst => inv_step hi hst) inv_initial

section

omit [DecidableEq P]

theorem Inv.lt_enqueued (hi : Inv s) (hp : entry (s.pc p) = some n) : n < s.enqueued :=
  Ordered.entry (hi.ordered.pc p) hp

theorem Inv.delivered (hi : Inv s) : Delivered s where
  unique p q n hp hq := (hi.entries n (hi.lt_enqueued hp)).unique p q hp hq
  ready p n hp := (hi.entries n (hi.lt_enqueued hp)).ready p hp

theorem Inv.waiting_mem (hi : Inv s) (hn : Waiting s n) : n ∈ s.waiters := by
  rcases hi.ordered.lt_enqueued.mp hn.1 with hs | hw
  · exact (hn.2 (Or.inl hs)).elim
  · exact hw

theorem Inv.waiting_of_mem (hi : Inv s) (hn : n ∈ s.waiters) (hv : n ∉ s.visited) :
    Waiting s n := by
  refine ⟨hi.ordered.lt_enqueued.mpr (Or.inr hn), ?_⟩
  rintro (hs | hs)
  · exact Nat.lt_irrefl _ (hi.ordered.lt hs hn)
  · exact hv hs

/-- Without stale blockers the head of the queue is the first that waits. -/
theorem Inv.head_first {l : List ℕ} (hi : Inv s) (hf : NoStale s) (hw : s.waiters = n :: l) :
    Waiting s n ∧ ∀ m, Waiting s m → n ≤ m := by
  have hn : n ∈ s.waiters := by simp [hw]
  refine ⟨hi.waiting_of_mem hn (hf n hn), fun m hm => ?_⟩
  have hmw := hi.waiting_mem hm
  rw [hw] at hmw
  rcases List.mem_cons.mp hmw with rfl | hml
  · exact le_rfl
  · exact (hi.ordered.head_le hw hml).le

end

/-- `await` is left by finding a permit, or after being resumed. -/
theorem Inv.entry_step (hi : Inv s) (hst : Step s a t) (hx : entry (s.pc q) = some n) :
    entry (t.pc q) = some n ∨ Released s n := by
  have hok := hi.entries n (hi.lt_enqueued hx)
  have hmove : ∀ {p c}, t.pc = Function.update s.pc p c → (q = p → entry c = some n) →
      entry (t.pc q) = some n := by
    intro p c hpc hc
    by_cases hqp : q = p
    · simp [hpc, ← hqp, hc hqp]
    · simpa [hpc, hqp] using hx
  cases hst with
  | await hp | signal hp _ | signalAll hp | next hp _ _ _ | finish hp _ =>
    refine Or.inl (hmove rfl fun hqp => ?_)
    rw [hqp, hp] at hx
    exact nomatch hx
  | signalEmpty hp hw => exact Or.inl hx
  | check hp hb | swapOut hp hb | swapOutPermit hp hb =>
    refine Or.inl (hmove rfl fun hqp => ?_)
    rwa [hqp, hp] at hx
  | checkPermit hp hb =>
    rename_i p m b
    by_cases hqp : q = p
    · rw [hqp, hp] at hx
      cases hx
      exact Or.inr (hok.early (EFiberBlocker.tryWait_true.mp hb).1)
    · exact Or.inl (hmove rfl fun h => (hqp h).elim)
  | resume hp =>
    rename_i p m
    by_cases hqp : q = p
    · rw [hqp, hp] at hx
      cases hx
      exact Or.inr (hok.resumed p hp)
    · exact Or.inl (hmove rfl fun h => (hqp h).elim)
  | wakeUp hp hb =>
    rename_i p m c b r
    have hqp : q ≠ p := by
      rintro rfl
      simp [entry_of_waking hp] at hx
    cases r with
    | refused | counted => exact Or.inl (hmove rfl fun h => (hqp h).elim)
    | waiter y =>
      obtain ⟨l, hl, rfl⟩ := EFiberBlocker.wakeUp_waiter.mp hb
      have hm := (hi.ordered.waking (hi.ordered.pc p) hp).1
      have hy : s.pc y = .parked m := (hi.entries m hm).hung y (by simp [hl])
      by_cases hqy : q = y
      · rw [hqy, hy] at hx
        cases hx
        simp [hqy, entry]
      · simpa [hqy, hqp] using Or.inl hx

theorem released_step (hst : Step s a t) (hr : Released t n) : Released s n ∨
    (∃ p, a = .signal p ∧ t.pc p = .signalling n) ∨ ∃ p, a = .next p ∧ n ∈ t.visited := by
  have hsame : t.signalled = s.signalled → t.visited = s.visited → Released s n := by
    intro hs hv
    simpa [Released, hs, hv] using hr
  cases hst with
  | signal hp hw =>
    rename_i p m q
    rcases hr with hr | hr
    · rcases List.mem_append.mp hr with hr | hr
      · exact Or.inl (Or.inl hr)
      · refine Or.inr (Or.inl ⟨p, rfl, ?_⟩)
        simp [List.mem_singleton.mp hr]
    · exact Or.inl (Or.inr hr)
  | next hp hi hn hm =>
    rename_i p i k m
    rcases hr with hr | hr
    · exact Or.inl (Or.inl hr)
    · exact Or.inr (Or.inr ⟨p, rfl, hr⟩)
  | wakeUp hp hb =>
    rename_i p m c b r
    cases r <;> exact Or.inl (hsame rfl rfl)
  | _ => exact Or.inl (hsame rfl rfl)

theorem Inv.lawful (hi : Inv s) (hst : Step s a t) (hf : Fresh s a) : Lawful s a t := by
  refine ⟨?_, ?_, ?_, ?_, fun p n hp ht => (hi.entry_step hst hp).resolve_left ht,
    fun n hr => released_step hst hr⟩
  · rintro p n rfl hn hmin
    cases hst with
    | signal hp hw =>
      obtain ⟨hm, hfirst⟩ := hi.head_first (hf p rfl) hw
      obtain rfl := Nat.le_antisymm (hmin _ hm) (hfirst n hn)
      exact ⟨rfl, by simp⟩
    | signalEmpty hp hw =>
      have := hi.waiting_mem hn
      simp [hw] at this
  · rintro p n rfl ht
    cases hst with
    | signal hp hw =>
      obtain ⟨hm, _⟩ := hi.head_first (hf p rfl) hw
      obtain rfl : _ = n := by simpa using ht
      exact hm
    | signalEmpty hp hw => simp at ht
  · rintro p rfl
    cases hst with
    | signalAll hp => exact ⟨_, by simp; rfl⟩
  · rintro p i k rfl hp n hn
    cases hst with
    | finish hp' hm =>
      cases hp.symm.trans hp'
      by_contra hr
      have hw := hi.waiting_mem ⟨hn.trans_le (hp ▸ hi.ordered.pc p).2.1, hr⟩
      by_cases hin : i ≤ n
      · exact absurd (hm n hw hin) (Nat.not_le.mpr hn)
      · exact hr (Or.inr ((hp ▸ hi.ordered.pc p).2.2 n hw (Nat.lt_of_not_le hin)))

theorem Inv.fresh (hi : Inv s) (hst : Step s a t) (hl : Lawful s a t) : Fresh s a := by
  rintro p rfl m hm hv
  cases hst with
  | signal hp hw =>
    rename_i n q
    have hn := hl.spent p n rfl rfl
    refine hn.2 (Or.inr ?_)
    refine hi.ordered.front m hv n (by simp [hw]) ?_
    rw [hw] at hm
    rcases List.mem_cons.mp hm with rfl | hm
    · exact le_rfl
    · exact (hi.ordered.head_le hw hm).le
  | signalEmpty hp hw => simp [hw] at hm

/-- A run keeps the promises of all three calls if and only if no `signal` comes while a blocker
that `signalAll` has visited is still in the queue; and what is released in any run is delivered. -/
theorem lawful_run_iff_fresh : (Run (Guarded Fresh Step) initial as s ↔
      Run (fun s a t => Step s a t ∧ Lawful s a t) (initial : State P) as s) ∧
    (Run Step initial as s → Delivered s) := by
  refine ⟨⟨fun h => ?_, fun h => ?_⟩, fun h => (inv_run h).delivered⟩
  · exact h.imp (fun _ _ _ hi hst => ⟨hst.2, hi.lawful hst.2 hst.1⟩)
      (fun _ _ _ hi hst => inv_step hi hst.2) inv_initial
  · exact h.imp (fun _ _ _ hi hst => ⟨hi.fresh hst.1 hst.2, hst.1⟩)
      (fun _ _ _ hi hst => inv_step hi hst.1) inv_initial

/-- Callers 0 and 1 wait, with a `signalAll` of caller 2 between them; the next `signal` goes to
the blocker of caller 0, and caller 1 stays where it is. -/
theorem signal_spent_on_released : ∃ (as : List (Act ℕ)) (s t : State ℕ),
    Run Step initial as s ∧ Step s (.signal 2) t ∧ Released s 0 ∧ t.signalled = [0] ∧
      Waiting s 1 ∧ Waiting t 1 ∧ ¬ Lawful s (.signal 2) t := by
  refine ⟨[.await 0, .signalAll 2, .next 2, .wakeUp 2, .finish 2, .await 1], _, _,
    .step (.await rfl) (.step (.signalAll rfl) (.step (.next (n := 0) rfl ?_ ?_ ?_)
      (.step (.wakeUp rfl rfl) (.step (.finish rfl ?_) (.step (.await rfl) .refl))))),
    .signal rfl rfl, ?_⟩
  · decide
  · decide
  · decide
  · decide
  · refine ⟨Or.inr (by decide), rfl, ⟨by decide, ?_⟩, ⟨by decide, ?_⟩, fun h => ?_⟩
    · unfold Released
      decide
    · unfold Released
      decide
    · have hr := (h.spent 2 0 rfl rfl).2
      exact hr (Or.inr (by decide))

end CxxFiber.Condition
