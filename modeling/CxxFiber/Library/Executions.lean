import CxxFiber.Library.Runs
import Mathlib.Data.Nat.Init

/-! Infinite executions, and what fairness brings about in them. -/
namespace Transition

variable {S A : Type*} {Step : S → A → S → Prop} {G : S → A → Prop} {P Q R : S → Prop} {s : S}
  {a b : A}

/-- Every state with the step that is taken in it. -/
structure Execution (Step : S → A → S → Prop) where
  state : ℕ → S
  label : ℕ → A
  step : ∀ n, Step (state n) (label n) (state (n + 1))

def Enabled (Step : S → A → S → Prop) (s : S) (a : A) : Prop := ∃ t, Step s a t

namespace Execution

/-- What can be done from some time on is done. -/
def WeaklyFair (E : Execution Step) (a : A) : Prop :=
  ∀ m, (∀ n, m ≤ n → Enabled Step (E.state n) a) → ∃ n, m ≤ n ∧ E.label n = a

/-- What can be done again and again is done. -/
def StronglyFair (E : Execution Step) (a : A) : Prop :=
  ∀ m, (∀ n, m ≤ n → ∃ k, n ≤ k ∧ Enabled Step (E.state k) a) → ∃ n, m ≤ n ∧ E.label n = a

variable {E : Execution Step} {m n k : ℕ}

/-- What each step keeps lasts. -/
theorem lasts (hm : P (E.state m)) (hk : ∀ n, m ≤ n → P (E.state n) → P (E.state (n + 1))) :
    ∀ n, m ≤ n → P (E.state n) := by
  intro n hn
  induction n, hn using Nat.le_induction with
  | base => exact hm
  | succ n hn ih => exact hk n hn ih

/-- Whenever `P` holds, `Q` holds then or later. -/
def LeadsTo (E : Execution Step) (P Q : S → Prop) : Prop :=
  ∀ m, P (E.state m) → ∃ n, m ≤ n ∧ Q (E.state n)

theorem LeadsTo.of_imp (h : ∀ n, P (E.state n) → Q (E.state n)) : E.LeadsTo P Q :=
  fun m hm => ⟨m, Nat.le_refl m, h m hm⟩

theorem LeadsTo.trans (h : E.LeadsTo P Q) (h' : E.LeadsTo Q R) : E.LeadsTo P R := by
  intro m hm
  obtain ⟨n, hn, hq⟩ := h m hm
  obtain ⟨k, hk, hr⟩ := h' n hq
  exact ⟨k, Nat.le_trans hn hk, hr⟩

theorem LeadsTo.or (h : E.LeadsTo P R) (h' : E.LeadsTo Q R) :
    E.LeadsTo (fun s => P s ∨ Q s) R :=
  fun m hm => hm.elim (h m) (h' m)

theorem LeadsTo.exists {ι : Type*} {P : ι → S → Prop} (h : ∀ i, E.LeadsTo (P i) R) :
    E.LeadsTo (fun s => ∃ i, P i s) R :=
  fun m ⟨i, hi⟩ => h i m hi

/-- What only ends in `Q` does so if it does not last. -/
theorem leadsTo_of_not_lasting (hk : ∀ n, P (E.state n) → P (E.state (n + 1)) ∨ Q (E.state (n + 1)))
    (he : ∀ m, (∀ n, m ≤ n → P (E.state n)) → ∃ n, m ≤ n ∧ Q (E.state n)) : E.LeadsTo P Q := by
  intro m hm
  by_contra hno
  have hP : ∀ n, m ≤ n → P (E.state n) := lasts hm fun n hn hp =>
    (hk n hp).resolve_right fun hq => hno ⟨n + 1, Nat.le_succ_of_le hn, hq⟩
  exact hno (he m hP)

/-- What only ends in `Q`, allows `a` and is ended by `a`. -/
theorem leadsTo_of_weaklyFair (hf : E.WeaklyFair a)
    (hk : ∀ n, P (E.state n) → P (E.state (n + 1)) ∨ Q (E.state (n + 1)))
    (he : ∀ n, P (E.state n) → Enabled Step (E.state n) a)
    (hq : ∀ n, P (E.state n) → E.label n = a → Q (E.state (n + 1))) : E.LeadsTo P Q := by
  refine leadsTo_of_not_lasting hk fun m hP => ?_
  obtain ⟨n, hn, ha⟩ := hf m fun n hn => he n (hP n hn)
  exact ⟨n + 1, Nat.le_succ_of_le hn, hq n (hP n hn) ha⟩

/-- The same when it allows `a` again and again. -/
theorem leadsTo_of_stronglyFair (hf : E.StronglyFair a)
    (hk : ∀ n, P (E.state n) → P (E.state (n + 1)) ∨ Q (E.state (n + 1)))
    (he : E.LeadsTo P fun s => ¬ P s ∨ Enabled Step s a)
    (hq : ∀ n, P (E.state n) → E.label n = a → Q (E.state (n + 1))) : E.LeadsTo P Q := by
  refine leadsTo_of_not_lasting hk fun m hP => ?_
  obtain ⟨n, hn, ha⟩ := hf m fun n hn => by
    obtain ⟨k, hk, hen⟩ := he n (hP n hn)
    exact ⟨k, hk, hen.resolve_left fun hno => hno (hP k (Nat.le_trans hn hk))⟩
  exact ⟨n + 1, Nat.le_succ_of_le hn, hq n (hP n hn) ha⟩

/-- What lasts does so with the same view until that changes. -/
theorem lasts_or_changes {V : Type*} (view : S → V) {v : V}
    (hk : ∀ n, P (E.state n) → P (E.state (n + 1))) (hn : P (E.state n) ∧ view (E.state n) = v) :
    P (E.state (n + 1)) ∧ view (E.state (n + 1)) = v ∨ view (E.state (n + 1)) ≠ v := by
  by_cases hv : view (E.state (n + 1)) = v
  · exact Or.inl ⟨hk n hn.1, hv⟩
  · exact Or.inr hv

/-- What lasts allows `a` as long as the view is `v`, and `a` changes the view. -/
theorem leadsTo_of_changes {V : Type*} (view : S → V) {v : V} (hf : E.WeaklyFair a)
    (hk : ∀ n, P (E.state n) → P (E.state (n + 1)))
    (he : ∀ n, P (E.state n) → view (E.state n) = v → Enabled Step (E.state n) a)
    (hq : ∀ n, P (E.state n) → view (E.state n) = v → E.label n = a →
      view (E.state (n + 1)) ≠ v) :
    E.LeadsTo (fun s => P s ∧ view s = v) fun s => view s ≠ v :=
  leadsTo_of_weaklyFair hf (fun _ => lasts_or_changes view hk) (fun n ⟨hp, hv⟩ => he n hp hv)
    fun n ⟨hp, hv⟩ => hq n hp hv

/-- What only ends in `Q` holds until then. -/
theorem LeadsTo.until (hk : ∀ n, P (E.state n) → P (E.state (n + 1)) ∨ Q (E.state (n + 1)))
    (h : E.LeadsTo P R) : E.LeadsTo P fun s => Q s ∨ P s ∧ R s := by
  refine leadsTo_of_not_lasting (fun n hn => (hk n hn).imp_right Or.inl) fun m hP => ?_
  obtain ⟨n, hn, hr⟩ := h m (hP m (Nat.le_refl m))
  exact ⟨n, hn, Or.inr ⟨hP n hn, hr⟩⟩

/-- A rank that never goes up and does not stay. -/
theorem leadsTo_of_rank {V : Type*} (view : S → V) (rank : V → ℕ)
    (hk : ∀ n, P (E.state n) → Q (E.state (n + 1)) ∨ P (E.state (n + 1)) ∧
      (view (E.state (n + 1)) = view (E.state n) ∨
        rank (view (E.state (n + 1))) < rank (view (E.state n))))
    (hv : ∀ v, E.LeadsTo (fun s => P s ∧ view s = v) fun s => Q s ∨ view s ≠ v) :
    E.LeadsTo P Q := by
  have hdown : ∀ v, E.LeadsTo (fun s => P s ∧ view s = v)
      fun s => Q s ∨ P s ∧ rank (view s) < rank v := by
    intro v
    refine leadsTo_of_not_lasting (fun n ⟨hp, he⟩ => ?_) fun m hlast => ?_
    · rcases hk n hp with hq | ⟨hp', he' | hlt⟩
      · exact Or.inr (Or.inl hq)
      · exact Or.inl ⟨hp', he'.trans he⟩
      · exact Or.inr (Or.inr ⟨hp', he ▸ hlt⟩)
    · obtain ⟨n, hn, hq | hne⟩ := hv v m (hlast m (Nat.le_refl m))
      · exact ⟨n, hn, Or.inl hq⟩
      · exact (hne (hlast n hn).2).elim
  intro m hm
  induction hr : rank (view (E.state m)) using Nat.strong_induction_on generalizing m with
  | h r ih =>
    obtain ⟨n, hn, hq | ⟨hp, hlt⟩⟩ := hdown _ m ⟨hm, rfl⟩
    · exact ⟨n, hn, hq⟩
    · obtain ⟨k, hk, hq⟩ := ih _ (hr ▸ hlt) n hp rfl
      exact ⟨k, Nat.le_trans hn hk, hq⟩

/-- The labels of `k` steps from the `m`-th state on. -/
def labels (E : Execution Step) (m : ℕ) : ℕ → List A
  | 0 => []
  | k + 1 => E.label m :: E.labels (m + 1) k

theorem run_from (hg : ∀ n, m ≤ n → G (E.state n) (E.label n)) (k : ℕ) :
    Run (Guarded G Step) (E.state m) (E.labels m k) (E.state (m + k)) := by
  induction k generalizing m with
  | zero => exact .refl
  | succ k ih =>
    have hrest := ih fun n hn => hg n (Nat.le_of_succ_le hn)
    rw [Nat.succ_add_eq_add_succ] at hrest
    exact .step ⟨hg m (Nat.le_refl m), E.step m⟩ hrest

theorem labels_append (j : ℕ) : E.labels m (j + k) = E.labels m j ++ E.labels (m + j) k := by
  induction j generalizing m with
  | zero => simp [labels]
  | succ j ih =>
    rw [Nat.succ_add, labels, labels, ih, List.cons_append, Nat.succ_add_eq_add_succ]

/-- What is done again and again is done more often than any number. -/
theorem count_unbounded {p : A → Bool} (h : ∀ n, m ≤ n → ∃ k, n ≤ k ∧ p (E.label k) = true)
    (c : ℕ) : ∃ k, c ≤ ((E.labels m k).map p).count true := by
  induction c with
  | zero => exact ⟨0, Nat.zero_le _⟩
  | succ c ih =>
    obtain ⟨k, hk⟩ := ih
    obtain ⟨n, hn, hp⟩ := h (m + k) (Nat.le_add_right m k)
    obtain ⟨j, rfl⟩ := Nat.exists_eq_add_of_le hn
    refine ⟨k + (j + 1), ?_⟩
    have hlast : E.labels (m + k + j) 1 = [E.label (m + k + j)] := rfl
    rw [labels_append, labels_append (m := m + k), hlast]
    simp only [List.map_append, List.count_append, List.map_cons, List.map_nil, hp]
    simp only [List.count_singleton_self]
    omega

/-- One step before an execution. -/
def cons (E : Execution Step) (h : Step s a (E.state 0)) : Execution Step where
  state := fun n => n.casesOn s E.state
  label := fun n => n.casesOn a E.label
  step
    | 0 => h
    | n + 1 => E.step n

theorem weaklyFair_cons {h : Step s a (E.state 0)} (hf : E.WeaklyFair b) :
    (E.cons h).WeaklyFair b := by
  intro m he
  obtain ⟨n, hn, hb⟩ := hf m fun n hn => he (n + 1) (Nat.le_succ_of_le hn)
  exact ⟨n + 1, Nat.le_succ_of_le hn, hb⟩

theorem stronglyFair_cons {h : Step s a (E.state 0)} (hf : E.StronglyFair b) :
    (E.cons h).StronglyFair b := by
  intro m he
  obtain ⟨n, hn, hb⟩ := hf m fun n hn => by
    obtain ⟨k, hk, hen⟩ := he (n + 1) (Nat.le_succ_of_le hn)
    cases k with
    | zero => omega
    | succ k => exact ⟨k, Nat.le_of_succ_le_succ hk, hen⟩
  exact ⟨n + 1, Nat.le_succ_of_le hn, hb⟩

theorem leadsTo_cons {h : Step s a (E.state 0)} (hs : P s → ∃ n, Q (E.state n))
    (hE : E.LeadsTo P Q) : (E.cons h).LeadsTo P Q := by
  intro m hm
  cases m with
  | zero =>
    obtain ⟨n, hn⟩ := hs hm
    exact ⟨n + 1, Nat.zero_le _, hn⟩
  | succ m =>
    obtain ⟨n, hn, hq⟩ := hE m hm
    exact ⟨n + 1, Nat.succ_le_succ hn, hq⟩

/-- A run before an execution, with what one step before it keeps. -/
theorem prepend {as : List A} {u : S} {I : Execution Step → Prop}
    (hc : ∀ {s a} {E : Execution Step} (h : Step s a (E.state 0)), G s a → I E → I (E.cons h))
    (h : Run (Guarded G Step) s as u) (hE : I E) (hu : E.state 0 = u) :
    ∃ E' : Execution Step, I E' ∧ E'.state 0 = s ∧
      ∀ n, E'.state (as.length + n) = E.state n ∧ E'.label (as.length + n) = E.label n := by
  induction h with
  | refl => exact ⟨E, hE, hu, fun n => by simp⟩
  | @step s v u a as hst _ ih =>
    obtain ⟨E', hE', rfl, hs⟩ := ih hu
    refine ⟨E'.cons hst.2, hc hst.2 hst.1 hE', rfl, fun n => ?_⟩
    have hlen : (a :: as).length + n = as.length + n + 1 := by
      rw [List.length_cons]
      omega
    rw [hlen]
    exact hs n

/-- `k` steps that lead back to where they began, again and again. -/
def cycle (c : ℕ → S) (l : ℕ → A) (k : ℕ) (h : ∀ i, i < k → Step (c i) (l i) (c (i + 1)))
    (hc : c k = c 0) (hk : 0 < k) : Execution Step where
  state n := c (n % k)
  label n := l (n % k)
  step n := by
    have hlt := Nat.mod_lt n hk
    have hst := h (n % k) hlt
    rw [← Nat.mod_add_mod n k 1]
    by_cases he : n % k + 1 = k
    · rw [he, hc] at hst
      rwa [he, Nat.mod_self]
    · rwa [Nat.mod_eq_of_lt (Nat.lt_of_le_of_ne hlt he)]

section Cycle

variable {c : ℕ → S} {l : ℕ → A} {h : ∀ i, i < k → Step (c i) (l i) (c (i + 1))} {hc : c k = c 0}
  {hk : 0 < k} {i : ℕ}

/-- Each of its states comes again and again. -/
theorem cycle_again (hi : i < k) (m : ℕ) : ∃ n, m ≤ n ∧ n % k = i := by
  refine ⟨k * m + i, ?_, ?_⟩
  · have hle := Nat.le_mul_of_pos_left m (Nat.lt_of_le_of_lt (Nat.zero_le i) hi)
    omega
  · rw [Nat.mul_add_mod, Nat.mod_eq_of_lt hi]

theorem cycle_fair (hi : i < k) (ha : l i = a ∨ ¬ Enabled Step (c i) a) :
    (cycle c l k h hc hk).WeaklyFair a := by
  intro m he
  obtain ⟨n, hn, hmod⟩ := cycle_again hi m
  refine ⟨n, hn, ?_⟩
  have hen := he n hn
  simp only [cycle, hmod] at hen ⊢
  exact ha.resolve_right fun hno => hno hen

theorem cycle_stronglyFair (ha : (∃ i, i < k ∧ l i = a) ∨ ∀ i, i < k → ¬ Enabled Step (c i) a) :
    (cycle c l k h hc hk).StronglyFair a := by
  intro m he
  rcases ha with ⟨i, hi, ha⟩ | hno
  · obtain ⟨n, hn, hmod⟩ := cycle_again hi m
    exact ⟨n, hn, by simp only [cycle, hmod, ha]⟩
  · obtain ⟨n, -, hen⟩ := he m (Nat.le_refl m)
    exact (hno (n % k) (Nat.mod_lt n hk) hen).elim

theorem cycle_leadsTo (hi : i < k) (hq : Q (c i)) : (cycle c l k h hc hk).LeadsTo P Q := by
  intro m _
  obtain ⟨n, hn, hmod⟩ := cycle_again hi m
  exact ⟨n, hn, by simpa only [cycle, hmod] using hq⟩

end Cycle

end Execution

end Transition
