import Mathlib.Data.List.Basic

/-! Finite runs of a labelled step relation, guarded steps and the invariant rule. -/
namespace Transition

variable {S A : Type*} {Step : S → A → S → Prop} {G : S → A → Prop}
  {I : S → Prop} {s t u : S} {a : A} {as bs : List A}

/-- A finite run, with the label of every step. -/
inductive Run (Step : S → A → S → Prop) : S → List A → S → Prop
  | refl {s : S} : Run Step s [] s
  | step {s u t : S} {a : A} {as : List A} :
      Step s a u → Run Step u as t → Run Step s (a :: as) t

/-- The steps whose label is allowed by `G` in the state they start from. -/
def Guarded (G : S → A → Prop) (Step : S → A → S → Prop) (s : S) (a : A) (t : S) : Prop :=
  G s a ∧ Step s a t

/-- The steps that end in a state with `I`. -/
def Keeping (I : S → Prop) (Step : S → A → S → Prop) (s : S) (a : A) (t : S) : Prop :=
  Step s a t ∧ I t

/-- The steps that show `Q`. -/
def Showing (Q : S → A → S → Prop) (Step : S → A → S → Prop) (s : S) (a : A) (t : S) : Prop :=
  Step s a t ∧ Q s a t

/-- Some run from `s₀` ends in `s`. -/
def Reachable (Step : S → A → S → Prop) (s₀ s : S) : Prop := ∃ as, Run Step s₀ as s

theorem Run.append (h : Run Step s as t) (h' : Run Step t bs u) : Run Step s (as ++ bs) u := by
  induction h with
  | refl => exact h'
  | step hs _ ih => exact .step hs (ih h')

theorem Run.guard (h : Step s a u) (hg : G s a) (h' : Run (Guarded G Step) u as t) :
    Run (Guarded G Step) s (a :: as) t := .step ⟨hg, h⟩ h'

/-- An invariant of every step holds at the end of every run. -/
theorem Run.invariant (hI : ∀ s a t, I s → Step s a t → I t) (h : Run Step s as t)
    (hs : I s) : I t := by
  induction h with
  | refl => exact hs
  | step hst _ ih => exact ih (hI _ _ _ hs hst)

/-- If a step keeps the invariant exactly when it is allowed, so does a run. -/
theorem Run.guarded_iff (hI : ∀ s a t, I s → Step s a t → (I t ↔ G s a)) (hs : I s) :
    Run (Guarded G Step) s as t ↔ Run (Keeping I Step) s as t := by
  constructor
  · intro h
    induction h with
    | refl => exact .refl
    | step hst _ ih =>
      have hu := (hI _ _ _ hs hst.2).mpr hst.1
      exact .step ⟨hst.2, hu⟩ (ih hu)
  · intro h
    induction h with
    | refl => exact .refl
    | step hst _ ih =>
      have hg := (hI _ _ _ hs hst.1).mp hst.2
      exact .step ⟨hg, hst.1⟩ (ih hst.2)

/-- The same beside an invariant of every step: the property alone says which steps are allowed. -/
theorem Run.guarded_iff_keeping {P : S → Prop} (hI : ∀ s a t, I s → Step s a t → I t)
    (hP : ∀ s a t, I s → P s → Step s a t → (P t ↔ G s a)) (hs : I s) (hp : P s) :
    Run (Guarded G Step) s as t ↔ Run (Keeping P Step) s as t := by
  constructor
  · intro h
    induction h with
    | refl => exact .refl
    | step hst _ ih =>
      have hu := (hP _ _ _ hs hp hst.2).mpr hst.1
      exact .step ⟨hst.2, hu⟩ (ih (hI _ _ _ hs hst.2) hu)
  · intro h
    induction h with
    | refl => exact .refl
    | step hst _ ih =>
      have hg := (hP _ _ _ hs hp hst.1).mp hst.2
      exact .step ⟨hg, hst.1⟩ (ih (hI _ _ _ hs hst.1) hst.2)

/-- If each step shows a property exactly when it is allowed, so do the steps of a run. -/
theorem Run.guarded_iff_showing {Q : S → A → S → Prop}
    (hI : ∀ s a t, I s → Step s a t → Q s a t → I t)
    (hQ : ∀ s a t, I s → Step s a t → (Q s a t ↔ G s a)) (hs : I s) :
    Run (Guarded G Step) s as t ↔ Run (Showing Q Step) s as t := by
  constructor
  · intro h
    induction h with
    | refl => exact .refl
    | step hst _ ih =>
      have hq := (hQ _ _ _ hs hst.2).mpr hst.1
      exact .step ⟨hst.2, hq⟩ (ih (hI _ _ _ hs hst.2 hq))
  · intro h
    induction h with
    | refl => exact .refl
    | step hst _ ih =>
      have hg := (hQ _ _ _ hs hst.1).mp hst.2
      exact .step ⟨hg, hst.1⟩ (ih (hI _ _ _ hs hst.1 hst.2))

/-- Steps may be exchanged for others that the invariant allows. -/
theorem Run.imp {Step' : S → A → S → Prop} (h : Run Step s as t)
    (hs : ∀ s a t, I s → Step s a t → Step' s a t) (hI : ∀ s a t, I s → Step s a t → I t)
    (h₀ : I s) : Run Step' s as t := by
  induction h with
  | refl => exact .refl
  | step hst _ ih => exact .step (hs _ _ _ h₀ hst) (ih (hI _ _ _ h₀ hst))

theorem Run.unguarded (h : Run (Guarded G Step) s as t) : Run Step s as t :=
  h.imp (I := fun _ => True) (fun _ _ _ _ hst => hst.2) (fun _ _ _ _ _ => trivial) trivial

/-- Every step of the concrete system is a step of the abstract one, with the label that goes with
its own. -/
theorem Run.map {S' A' : Type*} {Abs : S' → A' → S' → Prop} {r : S → S'} {l : A → A'}
    (hI : ∀ s a t, I s → Step s a t → I t)
    (hr : ∀ s a t, I s → Step s a t → Abs (r s) (l a) (r t))
    (h : Run Step s as t) (hs : I s) : Run Abs (r s) (as.map l) (r t) := by
  induction h with
  | refl => exact .refl
  | step hst _ ih => exact .step (hr _ _ _ hs hst) (ih (hI _ _ _ hs hst))

/-- Every step of the concrete system is matched by a run of the abstract one. -/
theorem Run.simulate {S' A' : Type*} {Abs : S' → A' → S' → Prop} {r : S → S'}
    (hI : ∀ s a t, I s → Step s a t → I t)
    (hr : ∀ s a t, I s → Step s a t → ∃ bs, Run Abs (r s) bs (r t))
    (h : Run Step s as t) (hs : I s) : ∃ bs, Run Abs (r s) bs (r t) := by
  induction h with
  | refl => exact ⟨[], .refl⟩
  | step hst _ ih =>
    obtain ⟨bs, hb⟩ := hr _ _ _ hs hst
    obtain ⟨cs, hc⟩ := ih (hI _ _ _ hs hst)
    exact ⟨bs ++ cs, hb.append hc⟩

/-- A relation between the states of two systems that every concrete step keeps by a run of the
abstract system with the labels that go with its own. -/
theorem Run.simulation {S' A' : Type*} {Abs : S' → A' → S' → Prop} {R : S → S' → Prop}
    {l : A → List A'}
    (hR : ∀ s a t s', R s s' → Step s a t → ∃ t', Run Abs s' (l a) t' ∧ R t t')
    (h : Run Step s as t) {s' : S'} (hs : R s s') :
    ∃ t', Run Abs s' (as.flatMap l) t' ∧ R t t' := by
  induction h generalizing s' with
  | refl => exact ⟨s', .refl, hs⟩
  | step hst _ ih =>
    obtain ⟨u', hu, hr⟩ := hR _ _ _ _ hs hst
    obtain ⟨t', ht, hr'⟩ := ih hr
    exact ⟨t', hu.append ht, hr'⟩

end Transition
