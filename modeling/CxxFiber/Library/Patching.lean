import Mathlib.Data.List.Basic
import Mathlib.Data.List.Induction
import Mathlib.Logic.Function.Basic

/-! Places that are rewritten one after the other. What a place held is saved, unless it holds the
new value already. -/
namespace Patching

/-- The new value of a place, and where its old one is saved. -/
structure Entry (A V R : Type*) where
  place : A
  value : V
  keep : Option R
  deriving DecidableEq

structure State (A V R : Type*) where
  mem : A → V
  saved : List (R × V)

variable {A V R : Type*} [DecidableEq A] [DecidableEq V]

/-- What is saved of a place that holds `old`. -/
def Entry.save (e : Entry A V R) (old : V) : List (R × V) :=
  if old = e.value then [] else (e.keep.map fun r => (r, old)).toList

def State.patch (s : State A V R) (e : Entry A V R) : State A V R where
  mem := Function.update s.mem e.place e.value
  saved := s.saved ++ e.save (s.mem e.place)

def State.patchAll (s : State A V R) (es : List (Entry A V R)) : State A V R :=
  es.foldl State.patch s

/-- A place has one entry. -/
def Consistent (es : List (Entry A V R)) : Prop :=
  ∀ e ∈ es, ∀ e' ∈ es, e.place = e'.place → e = e'

/-- The places of `es` are rewritten, the others are as in `s`, and what is saved is what the places
held in `s`. -/
structure Patched (s : State A V R) (es : List (Entry A V R)) (t : State A V R) : Prop where
  value : ∀ e ∈ es, t.mem e.place = e.value
  other : ∀ a, (∀ e ∈ es, e.place ≠ a) → t.mem a = s.mem a
  saved : ∀ x, x ∈ t.saved ↔ x ∈ s.saved ∨ ∃ e ∈ es, x ∈ e.save (s.mem e.place)

variable {s t u : State A V R} {es fs : List (Entry A V R)} {e : Entry A V R}

section

omit [DecidableEq A] [DecidableEq V]

theorem Consistent.mono (h : Consistent fs) (hsub : es ⊆ fs) : Consistent es :=
  fun e he e' he' => h e (hsub he) e' (hsub he')

end

section

omit [DecidableEq A]

theorem save_value : e.save e.value = [] := if_pos rfl

theorem mem_save {old : V} {x : R × V} :
    x ∈ e.save old ↔ e.keep = some x.1 ∧ old = x.2 ∧ x.2 ≠ e.value := by
  obtain ⟨r, v⟩ := x
  unfold Entry.save
  by_cases ho : old = e.value
  · simp only [ho, if_true, List.not_mem_nil, false_iff]
    rintro ⟨-, rfl, hv⟩
    exact hv rfl
  · cases hk : e.keep with
    | none => simp [ho]
    | some q =>
      simp only [ho, if_false, Option.map_some, Option.toList_some, List.mem_singleton,
        Prod.mk.injEq, Option.some.injEq]
      constructor
      · rintro ⟨rfl, rfl⟩
        exact ⟨rfl, rfl, ho⟩
      · rintro ⟨rfl, rfl, -⟩
        exact ⟨rfl, rfl⟩

end

theorem patch_of_value (h : s.mem e.place = e.value) : s.patch e = s := by
  have hmem : Function.update s.mem e.place e.value = s.mem := by
    rw [← h, Function.update_eq_self]
  rw [State.patch, hmem, h, save_value, List.append_nil]

/-- Places that hold their values are left alone. -/
theorem patchAll_of_value (h : ∀ e ∈ es, s.mem e.place = e.value) : s.patchAll es = s := by
  induction es with
  | nil => rfl
  | cons e es ih =>
    rw [State.patchAll, List.foldl_cons, patch_of_value (h e (List.mem_cons_self ..))]
    exact ih fun e' he => h e' (List.mem_cons_of_mem _ he)

section

omit [DecidableEq A]

theorem Patched.refl : Patched s [] s :=
  ⟨fun e he => (List.not_mem_nil he).elim, fun _ _ => rfl, fun x => by simp⟩

end

/-- One more entry, whose place may have been rewritten before. -/
theorem Patched.patch (h : Patched s es t) (hc : Consistent (es ++ [e])) :
    Patched s (es ++ [e]) (t.patch e) := by
  have hone : ∀ e' ∈ es, e'.place = e.place → e' = e := fun e' he =>
    hc e' (List.mem_append_left _ he) e (List.mem_append_right _ (List.mem_singleton_self e))
  by_cases hin : e ∈ es
  · rw [patch_of_value (h.value e hin)]
    have hmem : ∀ e', e' ∈ es ++ [e] ↔ e' ∈ es := by
      intro e'
      rw [List.mem_append, List.mem_singleton]
      exact ⟨fun h => h.elim id fun he => he ▸ hin, Or.inl⟩
    exact ⟨fun e' he => h.value e' ((hmem e').mp he),
      fun a ha => h.other a fun e' he => ha e' ((hmem e').mpr he),
      fun x => by simp only [hmem, h.saved x]⟩
  · have hplace : ∀ e' ∈ es, e'.place ≠ e.place := by
      intro e' he hp
      exact hin (hone e' he hp ▸ he)
    have hold : t.mem e.place = s.mem e.place := h.other _ hplace
    constructor
    case value =>
      intro e' he
      rcases List.mem_append.mp he with he | he
      · simpa [State.patch, hplace e' he] using h.value e' he
      · obtain rfl := List.mem_singleton.mp he
        simp [State.patch]
    case other =>
      intro a ha
      have hne : a ≠ e.place := fun hp => ha e (by simp) hp.symm
      refine (Function.update_of_ne hne ..).trans ?_
      exact h.other a fun e' he => ha e' (List.mem_append_left _ he)
    case saved =>
      intro x
      simp only [State.patch, List.mem_append, h.saved x, hold, List.mem_singleton]
      constructor
      · rintro ((hx | ⟨e', he, hx⟩) | hx)
        · exact Or.inl hx
        · exact Or.inr ⟨e', Or.inl he, hx⟩
        · exact Or.inr ⟨e, Or.inr rfl, hx⟩
      · rintro (hx | ⟨e', he | rfl, hx⟩)
        · exact Or.inl (Or.inl hx)
        · exact Or.inl (Or.inr ⟨e', he, hx⟩)
        · exact Or.inr hx

theorem patched (hc : Consistent es) : Patched s es (s.patchAll es) := by
  induction es using List.reverseRecOn with
  | nil => exact .refl
  | append_singleton es e ih =>
    rw [State.patchAll, List.foldl_append]
    exact (ih (hc.mono (List.subset_append_left _ _))).patch hc

/-- To rewrite some of the places again changes nothing. -/
theorem patchAll_again (hc : Consistent es) (hsub : fs ⊆ es) :
    (s.patchAll es).patchAll fs = s.patchAll es :=
  patchAll_of_value fun e he => (patched hc).value e (hsub he)

theorem patchAll_append : s.patchAll (es ++ fs) = (s.patchAll es).patchAll fs :=
  List.foldl_append

end Patching
