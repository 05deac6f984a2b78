import CxxFiber.Library.Runs

/-! Systems that report what they do, and automata that watch some of the reports. -/
namespace Transition

variable {S A E E' Q W : Type*} {Step : S → A → S → Prop} {report : S → S → List E}
  {Next : Q → E' → Q → Prop} {g : E → Option E'} {I : S → Prop} {R : S → Q → Prop}
  {s t : S} {p r : S × List E} {a : A} {as : List A} {q q₀ : Q} {e : E'}

/-- The steps of a system, with all that they have reported. -/
inductive Logged (Step : S → A → S → Prop) (report : S → S → List E) :
    S × List E → A → S × List E → Prop
  | step {s a t l} : Step s a t → Logged Step report (s, l) a (t, l ++ report s t)

/-- The log adds no run to those of the system. -/
theorem Run.unlogged (h : Run (Logged Step report) p as r) : Run Step p.1 as r.1 := by
  induction h with
  | refl => exact .refl
  | step hst _ ih =>
    cases hst with
    | step hst => exact .step hst ih

theorem Run.snoc (h : Run Step s as t) {u : S} (hst : Step t a u) : Run Step s (as ++ [a]) u :=
  h.append (.step hst .refl)

/-- An automaton that can follow the reports of every step can follow the log. -/
theorem Run.watched (hI : ∀ s a t, I s → Step s a t → I t)
    (hR : ∀ s a t q, I s → R s q → Step s a t →
      ∃ q', Run Next q ((report s t).filterMap g) q' ∧ R t q')
    (h : Run (Logged Step report) p as r) (hi : I p.1)
    (hq : Run Next q₀ (p.2.filterMap g) q) (hr : R p.1 q) :
    ∃ q', Run Next q₀ (r.2.filterMap g) q' ∧ R r.1 q' := by
  induction h generalizing q with
  | refl => exact ⟨q, hq, hr⟩
  | step hst _ ih =>
    cases hst with
    | step hst =>
      obtain ⟨q', hq', hr'⟩ := hR _ _ _ _ hi hr hst
      refine ih (hI _ _ _ hi hst) (q := q') ?_ hr'
      rw [List.filterMap_append]
      exact hq.append hq'

/-- What the parties of a system report, each of them at most one thing. -/
def reports (ws : List W) (k : W → Option E) : List (W × E) :=
  ws.filterMap fun w => (k w).map (Prod.mk w)

theorem reports_nil {ws : List W} {k : W → Option E} (hk : ∀ w ∈ ws, k w = none) :
    reports ws k = [] := by
  rw [reports, List.filterMap_eq_nil_iff]
  intro w hw
  rw [hk w hw, Option.map_none]

/-- When only one party has something to report. -/
theorem reports_single {ws : List W} {k : W → Option E} {w : W} (hn : ws.Nodup) (hw : w ∈ ws)
    (hk : ∀ v, v ≠ w → k v = none) : reports ws k = ((k w).map (Prod.mk w)).toList := by
  induction ws with
  | nil => exact (List.not_mem_nil hw).elim
  | cons v ws ih =>
    obtain ⟨hv, hn⟩ := List.nodup_cons.mp hn
    by_cases he : v = w
    · subst v
      have hrest : reports ws k = [] := by
        refine reports_nil fun u hu => hk u ?_
        rintro rfl
        exact hv hu
      unfold reports at hrest ⊢
      rw [List.filterMap_cons, hrest]
      cases k w <;> rfl
    · have hrest := ih hn ((List.mem_cons.mp hw).resolve_left (Ne.symm he))
      unfold reports at hrest ⊢
      rw [List.filterMap_cons, hk v he, Option.map_none, hrest]

end Transition
