import CxxFiber.EFileContext.Manager
import CxxFiber.Library.Runs

/-! The vectors of `EFileContextManager` as a map from descriptors to contexts. -/
namespace CxxFiber.Mapping

open Descriptors (Table)
open Manager (Act Answers Builds Context Fits Got Timeval element_create element_store_of_ne
  element_store_self get_cases get_pool get_returned get_thrown get_undefined construct_number
  remove_eq setLock_pool)
open Transition

section Operations

variable {X : Type} [DecidableEq X]

/-- `last fd` is history: the context that the last `get` of `fd` has returned, if it was not
removed and nothing was cleared since. So is `cleared`. -/
structure State (X : Type) where
  files : Manager.State X
  last : ℤ → Option Context
  cleared : Bool

variable [AlignUp]

def initial (k : Table X Flags) (maxfd : ℕ) : State X := ⟨.create k maxfd, fun _ => none, false⟩

/-- What an operation does to the map. -/
def State.lastAfter (s : State X) : Act X → ℤ → Option Context
  | .get fd a =>
    match (s.files.get fd a).1 with
    | .returned c => Function.update s.last fd (some c)
    | _ => s.last
  | .remove fd => Function.update s.last fd none
  | .clear => fun _ => none
  | .world _ => s.last

def State.clearedAfter (s : State X) : Act X → Bool
  | .clear => true
  | _ => s.cleared

/-- The descriptor of the operation is inside the table and no multiple of the chunk size. -/
def InTable (maxfd : ℕ) : Act X → Prop
  | .get fd _ | .remove fd => Fits maxfd fd
  | _ => True

inductive Step (maxfd : ℕ) (s : State X) : Act X → State X → Prop
  | act {act files} : InTable maxfd act → Manager.Step s.files act files →
      Step maxfd s act ⟨files, s.lastAfter act, s.clearedAfter act⟩

/-- `get` returns the context that it has returned before, or one that it builds. -/
structure Gets (s : State X) (fd : ℤ) (a : Answers) (t : State X) (c : Context) : Prop where
  returned : (s.files.get fd a).1 = .returned c
  same : ∀ c', s.last fd = some c' → c = c'
  fresh : s.last fd = none → c.number = s.files.built ∧ t.files.built = s.files.built + 1

/-- An operation on `fd` stays inside the vectors, leaves all others alone and gives its lock back,
so that none waits for ever; `get` returns a context. -/
structure Maps (s : State X) (act : Act X) (t : State X) : Prop where
  get : ∀ fd a, act = .get fd a → ∃ c, Gets s fd a t c
  remove_inside : ∀ fd, act = .remove fd → s.files.remove fd ≠ none
  others : ∀ fd a, act = .get fd a ∨ act = .remove fd →
    ∀ fd', fd' ≠ fd → t.files.element fd' = s.files.element fd'
  free : ∀ i, t.files.pool i = false

/-- No `get` or `remove` after the contexts were cleared, and a `get` that has to build a context
finds the descriptor open and, for a socket, its receive timeout. -/
def Served (s : State X) : Act X → Prop
  | .get fd a => s.cleared = false ∧ (s.last fd = none → Builds s.files.kernel fd.toNat a)
  | .remove _ => s.cleared = false
  | _ => True

/-- Until they are cleared the vectors hold the map. -/
structure Inv (maxfd : ℕ) (s : State X) : Prop where
  element : s.cleared = false → ∀ fd, Fits maxfd fd → s.files.element fd = some (s.last fd)
  empty : s.cleared = true → s.files.hookedFiles = []
  free : ∀ i, s.files.pool i = false

variable {s t : State X} {k : Table X Flags} {fd fd' : ℤ} {a : Answers} {act : Act X}
  {acts : List (Act X)} {maxfd : ℕ} {c : Context} {f : Manager.State X}

section

omit [DecidableEq X]

theorem element_nil (h : f.hookedFiles = []) : f.element fd = none := by
  unfold Manager.State.element
  rw [h, Grid.read_nil, ite_self]

theorem inv_initial : Inv maxfd (initial k maxfd) where
  element _ _ hf := element_create hf
  empty h := nomatch h
  free _ := rfl

end

/-- Where the vectors have a place, `get` changes that place only, and holds there what it has
returned. -/
theorem get_element {e : Option Context} (he : s.files.element fd = some e) (fd' : ℤ) :
    (s.files.get fd a).2.element fd' =
      if fd' = fd then some (match (s.files.get fd a).1 with
        | .returned c => some c
        | _ => e) else s.files.element fd' := by
  have hg := get_cases s.files fd a
  generalize s.files.get fd a = p at hg
  obtain ⟨r, f⟩ := p
  cases hg with
  | outside h => exact nomatch h.symm.trans he
  | old h =>
    split
    · next hfd => rw [hfd]; exact h
    · rfl
  | thrown h =>
    obtain rfl := Option.some.inj (he.symm.trans h)
    split
    · next hfd => rw [hfd]; exact h
    · rfl
  | new h =>
    split
    · next hfd => rw [hfd]; exact element_store_self h
    · next hfd => exact element_store_of_ne h hfd

section

omit [DecidableEq X]

theorem remove_element {e : Option Context} (he : s.files.element fd = some e)
    (hr : s.files.remove fd = some f) (fd' : ℤ) :
    f.element fd' = if fd' = fd then some none else s.files.element fd' := by
  rw [remove_eq, he] at hr
  obtain rfl := Option.some.inj hr
  split
  · next hfd => rw [hfd]; exact element_store_self he
  · next hfd => exact element_store_of_ne he hfd

theorem cleared_outside (h : Inv maxfd s) (hc : s.cleared ≠ false) (fd : ℤ) :
    s.files.element fd = none :=
  element_nil (h.empty (Bool.not_eq_false _ ▸ hc))

end

theorem served_of_maps (h : Inv maxfd s) (hst : Step maxfd s act t) (hm : Maps s act t) :
    Served s act := by
  cases act with
  | get fd a =>
    obtain ⟨c, hg⟩ := hm.get fd a rfl
    have hc : s.cleared = false := by
      by_contra hc
      exact nomatch (get_undefined (cleared_outside h hc fd)).symm.trans hg.returned
    refine ⟨hc, fun hlast => ?_⟩
    obtain ⟨hin, _⟩ := hst
    have he : s.files.element fd = some none := hlast ▸ h.element hc fd hin
    by_contra hn
    exact nomatch (get_thrown he hn).1.symm.trans hg.returned
  | remove fd =>
    by_contra hc
    exact hm.remove_inside fd rfl (by rw [remove_eq, cleared_outside h hc fd]; rfl)
  | clear | world => trivial

theorem gets (h : Inv maxfd s) (hf : Fits maxfd fd) (hs : Served s (.get fd a)) :
    ∃ c, Gets s fd a ⟨(s.files.get fd a).2, s.lastAfter (.get fd a), s.cleared⟩ c := by
  have he := h.element hs.1 fd hf
  obtain ⟨c, hc⟩ := get_returned he hs.2
  have hg := get_cases s.files fd a
  refine ⟨c, hc, fun c' hlast => ?_, fun hlast => ?_⟩
  · rw [hlast] at he
    generalize s.files.get fd a = p at hg hc
    obtain ⟨r, f⟩ := p
    cases hg with
    | outside | thrown => exact nomatch hc
    | old h =>
      obtain rfl := Manager.Result.returned.inj hc
      exact Option.some.inj (Option.some.inj (h.symm.trans he))
    | new h => exact nomatch h.symm.trans he
  · rw [hlast] at he
    change _ ∧ (s.files.get fd a).2.built = _
    generalize s.files.get fd a = p at hg hc
    obtain ⟨r, f⟩ := p
    cases hg with
    | outside | thrown => exact nomatch hc
    | old h => exact nomatch h.symm.trans he
    | new _ _ hcon =>
      obtain rfl := Manager.Result.returned.inj hc
      exact ⟨construct_number hcon, rfl⟩

theorem maps_get (h : Inv maxfd s) (hf : Fits maxfd fd) (hs : Served s (.get fd a)) :
    Maps s (.get fd a) ⟨(s.files.get fd a).2, s.lastAfter (.get fd a), s.cleared⟩ where
  get fd' a' heq := by
    obtain ⟨rfl, rfl⟩ := Act.get.inj heq
    exact gets h hf hs
  remove_inside := nofun
  others fd' a' heq fd'' hne := by
    obtain ⟨rfl, rfl⟩ := Act.get.inj (heq.resolve_right nofun)
    rw [get_element (h.element hs.1 fd hf), if_neg hne]
  free i := by
    obtain ⟨c, hg⟩ := gets h hf hs
    exact (congrFun (get_pool (h.free _) hg.returned) i).trans (h.free i)

theorem maps_remove (h : Inv maxfd s) (hf : Fits maxfd fd) (hc : s.cleared = false)
    (hr : s.files.remove fd = some f) :
    Maps s (.remove fd) ⟨f, s.lastAfter (.remove fd), s.cleared⟩ where
  get := nofun
  remove_inside fd' heq := by
    obtain rfl := Act.remove.inj heq
    rw [hr]
    exact Option.some_ne_none f
  others fd' a heq fd'' hne := by
    obtain rfl := Act.remove.inj (heq.resolve_left nofun)
    rw [remove_element (h.element hc fd hf) hr, if_neg hne]
  free i := by
    rw [remove_eq, Option.map_eq_some_iff] at hr
    obtain ⟨_, _, rfl⟩ := hr
    exact (congrFun (setLock_pool (h.free _)) i).trans (h.free i)

theorem maps_of_other (hg : ∀ fd a, act ≠ .get fd a) (hr : ∀ fd, act ≠ .remove fd)
    (hf : ∀ i, t.files.pool i = false) : Maps s act t where
  get fd a he := (hg fd a he).elim
  remove_inside fd he := (hr fd he).elim
  others fd a he := he.elim (fun he => (hg fd a he).elim) fun he => (hr fd he).elim
  free := hf

theorem maps_step (h : Inv maxfd s) (hst : Step maxfd s act t) (hs : Served s act) :
    Maps s act t := by
  cases hst with
  | @act f hin hst =>
    cases hst with
    | get => exact maps_get h hin hs
    | remove _ hr => exact maps_remove h hin hs hr
    | @stray fd _ hr =>
      rw [remove_eq, h.element hs fd hin] at hr
      exact nomatch hr
    | clear => exact maps_of_other nofun nofun h.free
    | world => exact maps_of_other nofun nofun h.free

theorem Inv.get (h : Inv maxfd s) (hf : Fits maxfd fd)
    (hp : ∀ i, (s.files.get fd a).2.pool i = false) :
    Inv maxfd ⟨(s.files.get fd a).2, s.lastAfter (.get fd a), s.cleared⟩ where
  element hc fd' hf' := by
    have he := h.element hc fd hf
    change (s.files.get fd a).2.element fd' = some (s.lastAfter (.get fd a) fd')
    rw [get_element he]
    by_cases hfd : fd' = fd
    · subst hfd
      rw [if_pos rfl]
      unfold State.lastAfter
      cases hr : (s.files.get fd' a).1 <;> simp [hr]
    · rw [if_neg hfd, h.element hc fd' hf']
      unfold State.lastAfter
      cases hr : (s.files.get fd a).1 <;> simp [hr, hfd]
  empty hc := by
    have he : s.files.element fd = none := element_nil (h.empty hc)
    have hg := get_cases s.files fd a
    change (s.files.get fd a).2.hookedFiles = []
    generalize s.files.get fd a = p at hg
    obtain ⟨r, f⟩ := p
    cases hg with
    | outside => exact h.empty hc
    | old h | thrown h | new h => exact nomatch he.symm.trans h
  free := hp

theorem inv_step (h : Inv maxfd s) (hst : Step maxfd s act t) (hm : Maps s act t) :
    Inv maxfd t := by
  have hfree := hm.free
  cases hst with
  | @act f hin hst =>
    cases hst with
    | get => exact h.get hin hfree
    | @remove fd f _ hr =>
      constructor
      case element =>
        intro hc fd' hf'
        have he := h.element hc fd hin
        change f.element fd' = some (Function.update s.last fd none fd')
        rw [remove_element he hr]
        by_cases hfd : fd' = fd
        · rw [if_pos hfd, hfd, Function.update_self]
        · rw [if_neg hfd, Function.update_of_ne hfd]
          exact h.element hc fd' hf'
      case empty =>
        intro hc
        rw [remove_eq, element_nil (h.empty hc)] at hr
        exact nomatch hr
      case free => exact hfree
    | @stray fd _ hr =>
      constructor
      case element =>
        intro hc
        rw [remove_eq, h.element hc fd hin] at hr
        exact nomatch hr
      case empty => exact h.empty
      case free => exact hfree
    | clear => exact ⟨nofun, fun _ => rfl, hfree⟩
    | world => exact ⟨h.element, h.empty, hfree⟩

/-- The vectors are a map from descriptors to contexts exactly until they are cleared, or a context
that has to be built cannot be. -/
theorem maps_iff : Run (Guarded Served (Step maxfd)) (initial k maxfd) acts s ↔
    Run (Showing Maps (Step maxfd)) (initial k maxfd) acts s :=
  Run.guarded_iff_showing (fun _ _ _ h hst hm => inv_step h hst hm)
    (fun _ _ _ h hst => ⟨served_of_maps h hst, maps_step h hst⟩) inv_initial

section

omit [DecidableEq X]

theorem element_initial (h : Fits maxfd fd) : (initial k maxfd).files.element fd = some none :=
  element_create h

end

/-- After the contexts were cleared, the next `get` is outside of the vectors. -/
theorem get_cleared (hf : Fits maxfd fd) (hl : s.files.pool (Manager.lockFor fd) = false)
    (hc : (s.files.get fd a).1 = .returned c) :
    ∃ t u, Run (Step maxfd) s [.get fd a, .clear] t ∧ Step maxfd t (.get fd a) u ∧
      (t.files.get fd a).1 = .undefined ∧ ¬ Maps t (.get fd a) u := by
  have hfree : (s.files.get fd a).2.clear.pool (Manager.lockFor fd) = false :=
    (congrFun (get_pool hl hc) _).trans hl
  have hnil : (s.files.get fd a).2.clear.element fd = none := element_nil rfl
  have hundef := get_undefined (a := a) hnil
  let u : State X :=
    ⟨(s.files.get fd a).2, s.lastAfter (.get fd a), s.clearedAfter (.get fd a)⟩
  have hget : Step maxfd s (.get fd a) u := .act hf (.get hl)
  have hclear : Step maxfd u .clear ⟨u.files.clear, u.lastAfter .clear, u.clearedAfter .clear⟩ :=
    .act trivial .clear
  have hagain : Step maxfd ⟨u.files.clear, u.lastAfter .clear, u.clearedAfter .clear⟩ (.get fd a)
    ⟨_, _, _⟩ := .act hf (.get hfree)
  exact ⟨_, _, .step hget (.step hclear .refl), hagain, hundef,
    fun h => by
      obtain ⟨_, hg⟩ := h.get fd a rfl
      exact nomatch hundef.symm.trans hg.returned⟩

/-- Where the constructor throws, `get` returns nothing and keeps its lock. -/
theorem get_unbuilt (hf : Fits maxfd fd) (hl : s.files.pool (Manager.lockFor fd) = false)
    (he : s.files.element fd = some none) (hn : ¬ Builds s.files.kernel fd.toNat a) :
    ∃ t, Step maxfd s (.get fd a) t ∧ t.files.pool (Manager.lockFor fd) = true ∧
      ¬ Maps s (.get fd a) t := by
  have hthrown := get_thrown he hn
  refine ⟨_, .act hf (.get hl), hthrown.2.1, fun h => ?_⟩
  obtain ⟨_, hg⟩ := h.get fd a rfl
  exact nomatch hthrown.1.symm.trans hg.returned

end Operations

/-- A hooked call of a fiber in a second `join`. A `get` of descriptor 5, which is not open, after
which one of 46 waits for ever. -/
theorem get_after_clear :
    (∃ s t : State Unit, Run (Step 1024) (initial ⟨fun _ => some (), fun _ => ⟨false, 0⟩⟩ 1024)
      [.get 3 ⟨true, false, none, none⟩, .clear] s ∧
      Step 1024 s (.get 3 ⟨true, false, none, none⟩) t ∧
      (s.files.get 3 ⟨true, false, none, none⟩).1 = .undefined ∧
      ¬ Maps s (.get 3 ⟨true, false, none, none⟩) t) ∧
    ∃ t : State Unit, Step 1024 (initial ⟨fun _ => none, fun _ => ⟨false, 0⟩⟩ 1024)
      (.get 5 ⟨true, false, none, none⟩) t ∧
      ¬ Maps (initial ⟨fun _ => none, fun _ => ⟨false, 0⟩⟩ 1024)
        (.get 5 ⟨true, false, none, none⟩) t ∧ ∀ a u, ¬ Step 1024 t (.get 46 a) u := by
  have hfits : ∀ fd : ℤ, fd = 3 ∨ fd = 5 → Fits 1024 fd := by
    rintro fd (rfl | rfl) <;> exact ⟨by decide, by decide, by decide⟩
  constructor
  · obtain ⟨c, hc⟩ := get_returned (a := ⟨true, false, none, none⟩)
      (element_initial (k := ⟨fun _ => some (), fun _ => ⟨false, 0⟩⟩) (hfits 3 (Or.inl rfl)))
      (by simp [Builds, initial, Manager.State.create, Table.read])
    exact get_cleared (hfits 3 (Or.inl rfl)) rfl hc
  · obtain ⟨t, hst, hl, hm⟩ := get_unbuilt (a := ⟨true, false, none, none⟩)
      (hfits 5 (Or.inr rfl)) rfl
      (element_initial (k := (⟨fun _ => none, fun _ => ⟨false, 0⟩⟩ : Table Unit Flags))
        (hfits 5 (Or.inr rfl)))
      (by simp [Builds, initial, Manager.State.create, Table.read])
    refine ⟨t, hst, hm, fun a u hu => ?_⟩
    cases hu with
    | act _ hget =>
      cases hget with
      | get hfree => exact Bool.false_ne_true (hfree.symm.trans hl)

end CxxFiber.Mapping
