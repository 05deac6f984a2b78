import CxxFiber.EHooker.Modes

/-! Descriptors made by `dup2` and `dup3`, whose status flags are those of the old descriptor. -/
namespace CxxFiber.Modes

open Transition

section Hooks

variable [AlignUp] {X : Type} [DecidableEq X] {s t : State X} {a : Op X} {as : List (Op X)}
  {status : X → Flags} {maxfd : ℕ}

/-- The contexts live on: no `join` ends. -/
def NoClear (_ : State X) : Op X → Prop
  | .clear => False
  | _ => True

/-- The condition on a call: it stays inside of the vectors, and what the user sees of the other
descriptors, and of a duplicated one, does not come from a flag that the library has set. -/
def Faithful (s : State X) (a : Op X) : Prop := HasSlot s.files a ∧ Kept s.files a

theorem faithful_step (hi : s.files.Coherent) (hv : Virtual s) (hst : Guarded NoClear Step s a t) :
    Virtual t ↔ Faithful s a := by
  obtain ⟨hn, hst⟩ := hst
  refine (step_virtual hi hv hst).trans (and_congr_right fun hslot => ?_)
  cases hst with
  | @fault e hp he => exact ((run_error hp).mp ⟨e, he⟩ hslot).elim
  | run hp hr =>
    apply shows_run hi hv.shows hp hr
    rintro rfl
    exact hn

/-- Duplicated descriptors keep the user's mode in a run exactly when every call is faithful. -/
theorem duplicates_keep_mode_iff :
    Run (Guarded Faithful (Guarded NoClear Step)) (initial status maxfd) as s ↔
      Run (Keeping Virtual (Guarded NoClear Step)) (initial status maxfd) as s := by
  apply Run.guarded_iff_keeping (I := fun s => s.files.Coherent)
  · rintro s a t hi ⟨_, hst⟩
    cases hst with
    | run hp hr => exact coherent_run hi hp hr
    | fault => exact hi
  · intro s a t hi hv hst
    exact faithful_step hi hv hst
  · exact initial_coherent
  · exact virtual_initial

end Hooks

/-- A pipe that the user has never made non-blocking is read and then duplicated. -/
theorem duplicate_loses_mode : ∃ s : State Unit,
    Reachable (Guarded NoClear Step) (initial (fun _ => ⟨false, 0⟩) 1024) s ∧
      s.mode 3 = false ∧ s.files.visible 3 = some false ∧ s.mode 4 = false ∧
      s.files.visible 4 = some true ∧ ¬ Virtual s := by
  refine ⟨_, ⟨[.opened 3 () ⟨false, 0⟩, .io 3, .dup2 3 4 false],
    .step ⟨trivial, .run ⟨rfl, by simp [initial]⟩ rfl⟩ <|
    .step ⟨trivial, .run (by simp [Op.Possible, Descriptors.Table.install]) rfl⟩ <|
    .step ⟨trivial, .run (fun _ h => Option.some_ne_none () h) rfl⟩ .refl⟩, rfl, rfl, rfl, rfl, ?_⟩
  intro h
  have hv : some true = some false := h.shows 4 (Option.some_ne_none ())
  cases hv

end CxxFiber.Modes
