import CxxFiber.Library.Chain
import CxxFiber.Library.Holders
import CxxFiber.Library.Runs

/-! `EFiberConcurrentQueue`: the two-lock queues of fibers, whose nodes are the `packing` of the
fibers and move between them. -/
namespace CxxFiber.ConcurrentQueue

/-- A `NODE`. `E` are the handles, `sp<EFiber>*`. -/
structure Node (N E : Type) where
  value : Option E
  next : Option N

/-- Where a fiber is: between the two sections of its `add`, in a queue, or between the two sections
of the `poll` that takes it out, which holds the old dummy. -/
inductive Phase (N E Q : Type)
  | absent
  | idle
  | adding (q : Q) (node : N) (e : E)
  | queued (q : Q)
  | polling (node : N) (v : E)

/-- `own` is the handle that a fiber was last added with; `added` and `polled` list what has been
linked into a queue and taken out of it, in order. -/
structure State (N E Q F : Type) where
  node : N → Node N E
  allocated : N → Bool
  made : Q → Bool
  head : Q → N
  tail : Q → N
  packing : F → N
  phase : F → Phase N E Q
  own : F → Option E
  added : Q → List E
  polled : Q → List E

variable {N E Q F : Type} [DecidableEq N] [DecidableEq Q] [DecidableEq F]

namespace State

variable (s : State N E Q F)

/-- The constructor of the queue. -/
def newQueue (q : Q) (n : N) : State N E Q F :=
  { s with
    node := Function.update s.node n ⟨none, none⟩
    allocated := Function.update s.allocated n true
    made := Function.update s.made q true
    head := Function.update s.head q n
    tail := Function.update s.tail q n }

/-- The constructor of a fiber. -/
def newFiber (f : F) (n : N) : State N E Q F :=
  { s with
    node := Function.update s.node n ⟨none, none⟩
    allocated := Function.update s.allocated n true
    packing := Function.update s.packing f n
    phase := Function.update s.phase f .idle }

/-- The destructor of a fiber. -/
def deleteFiber (f : F) : State N E Q F :=
  { s with
    allocated := Function.update s.allocated (s.packing f) false
    phase := Function.update s.phase f .absent
    own := Function.update s.own f none }

/-- The section of `add` before its lock, for a handle of `f`. -/
def prepare (f : F) (q : Q) (e : E) : State N E Q F :=
  { s with
    node := Function.update s.node (s.packing f) ⟨some e, none⟩
    phase := Function.update s.phase f (.adding q (s.packing f) e)
    own := Function.update s.own f (some e) }

/-- The locked section of `add`. -/
def link (f : F) (q : Q) (n : N) (e : E) : State N E Q F :=
  { s with
    node := Function.update s.node (s.tail q) { s.node (s.tail q) with next := some n }
    tail := Function.update s.tail q n
    phase := Function.update s.phase f (.queued q)
    added := Function.update s.added q (s.added q ++ [e]) }

/-- The locked section of `poll`, when it finds the node `n` with a handle `v` of `f`. -/
def take (f : F) (q : Q) (n : N) (v : E) : State N E Q F :=
  { s with
    head := Function.update s.head q n
    phase := Function.update s.phase f (.polling (s.head q) v)
    polled := Function.update s.polled q (s.polled q ++ [v]) }

/-- The section of `poll` after its lock: the old dummy becomes the fiber's packing. -/
def recycle (f : F) (n : N) (v : E) : State N E Q F :=
  { s with
    node := Function.update s.node n { s.node n with value := some v }
    packing := Function.update s.packing f n
    phase := Function.update s.phase f .idle }

end State

inductive Act (N E Q F : Type)
  | newQueue (q : Q) (n : N)
  | newFiber (f : F) (n : N)
  | deleteFiber (f : F)
  | prepare (q : Q) (e : E)
  | link (f : F)
  | pollNull (q : Q)
  | take (q : Q)
  | recycle (f : F)

/-- `fiber` is what a handle points to. A fiber is added only when it is in no queue and its last
`poll` has returned. -/
inductive Step (fiber : E → F) : State N E Q F → Act N E Q F → State N E Q F → Prop
  | newQueue {s : State N E Q F} {q : Q} {n : N} (hq : s.made q = false)
      (hn : s.allocated n = false) : Step fiber s (.newQueue q n) (s.newQueue q n)
  | newFiber {s : State N E Q F} {f : F} {n : N} (hf : s.phase f = .absent)
      (hn : s.allocated n = false) : Step fiber s (.newFiber f n) (s.newFiber f n)
  | deleteFiber {s : State N E Q F} {f : F} (hf : s.phase f = .idle) :
      Step fiber s (.deleteFiber f) (s.deleteFiber f)
  | prepare {s : State N E Q F} {q : Q} {e : E} (hq : s.made q = true)
      (hf : s.phase (fiber e) = .idle) : Step fiber s (.prepare q e) (s.prepare (fiber e) q e)
  | link {s : State N E Q F} {f : F} {q : Q} {n : N} {e : E} (hf : s.phase f = .adding q n e) :
      Step fiber s (.link f) (s.link f q n e)
  | pollNull {s : State N E Q F} {q : Q} (hq : s.made q = true)
      (hn : (s.node (s.head q)).next = none) : Step fiber s (.pollNull q) s
  | take {s : State N E Q F} {q : Q} {n : N} {v : E} (hq : s.made q = true)
      (hn : (s.node (s.head q)).next = some n) (hv : (s.node n).value = some v) :
      Step fiber s (.take q) (s.take (fiber v) q n v)
  | recycle {s : State N E Q F} {f : F} {n : N} {v : E} (hf : s.phase f = .polling n v) :
      Step fiber s (.recycle f) (s.recycle f n v)

/-- Nothing has been made yet. -/
structure Initial (s : State N E Q F) : Prop where
  allocated : ∀ n, s.allocated n = false
  made : ∀ q, s.made q = false
  phase : ∀ f, s.phase f = .absent
  own : ∀ f, s.own f = none
  added : ∀ q, s.added q = []
  polled : ∀ q, s.polled q = []

inductive Owner (Q F : Type)
  | dummy (q : Q)
  | packing (f : F)
  | poll (f : F)
  deriving DecidableEq

/-- The node that an owner has. Between its two sections a `poll` has the old dummy, instead of the
fiber that it is about to return. -/
def State.holds (s : State N E Q F) : Owner Q F → Option N
  | .dummy q => if s.made q then some (s.head q) else none
  | .packing f => match s.phase f with
    | .absent => none
    | .polling _ _ => none
    | _ => some (s.packing f)
  | .poll f => match s.phase f with
    | .polling n _ => some n
    | _ => none

variable {s : State N E Q F} {f g : F} {q : Q} {n k : N} {e v : E}

omit [DecidableEq N] [DecidableEq Q] [DecidableEq F] in
theorem holds_poll : s.holds (.poll f) = some n ↔ ∃ v, s.phase f = .polling n v := by
  cases hp : s.phase f <;> simp [State.holds, hp]

omit [DecidableEq N] [DecidableEq Q] [DecidableEq F] in
theorem holds_dummy (hq : s.made q = true) : s.holds (.dummy q) = some (s.head q) := by
  simp [State.holds, hq]

theorem holds_newQueue :
    (s.newQueue q n).holds = Function.update s.holds (.dummy q) (some n) := by
  funext o
  cases o with
  | dummy q' =>
    by_cases hq : q' = q
    · simp [State.holds, State.newQueue, hq]
    · simp [State.holds, State.newQueue, hq]
  | packing g => rfl
  | poll g => rfl

theorem holds_newFiber (hf : s.phase f = .absent) :
    (s.newFiber f n).holds = Function.update s.holds (.packing f) (some n) := by
  funext o
  cases o with
  | dummy q => rfl
  | packing g =>
    by_cases hg : g = f
    · simp [State.holds, State.newFiber, hg]
    · simp [State.holds, State.newFiber, hg]
  | poll g =>
    by_cases hg : g = f
    · simp [State.holds, State.newFiber, hg, hf]
    · simp [State.holds, State.newFiber, hg]

theorem holds_deleteFiber (hf : s.phase f = .idle) :
    (s.deleteFiber f).holds = Function.update s.holds (.packing f) none := by
  funext o
  cases o with
  | dummy q => rfl
  | packing g =>
    by_cases hg : g = f
    · simp [State.holds, State.deleteFiber, hg]
    · simp [State.holds, State.deleteFiber, hg]
  | poll g =>
    by_cases hg : g = f
    · simp [State.holds, State.deleteFiber, hg, hf]
    · simp [State.holds, State.deleteFiber, hg]

omit [DecidableEq Q] in
theorem holds_prepare (hf : s.phase f = .idle) : (s.prepare f q e).holds = s.holds := by
  funext o
  cases o with
  | dummy q => rfl
  | packing g =>
    by_cases hg : g = f
    · simp [State.holds, State.prepare, hg, hf]
    · simp [State.holds, State.prepare, hg]
  | poll g =>
    by_cases hg : g = f
    · simp [State.holds, State.prepare, hg, hf]
    · simp [State.holds, State.prepare, hg]

theorem holds_link (hf : s.phase f = .adding q n e) : (s.link f q n e).holds = s.holds := by
  funext o
  cases o with
  | dummy q => rfl
  | packing g =>
    by_cases hg : g = f
    · simp [State.holds, State.link, hg, hf]
    · simp [State.holds, State.link, hg]
  | poll g =>
    by_cases hg : g = f
    · simp [State.holds, State.link, hg, hf]
    · simp [State.holds, State.link, hg]

omit [DecidableEq N] in
/-- The poll takes over the dummy, and the queue the node of the fiber. -/
theorem holds_take {q' : Q} (hq : s.made q = true) (hf : s.phase f = .queued q')
    (hn : s.packing f = n) : (s.take f q n v).holds =
      (s.holds ∘ Equiv.swap (.dummy q) (.poll f)) ∘ Equiv.swap (.dummy q) (.packing f) := by
  funext o
  cases o with
  | dummy q₂ =>
    by_cases hq₂ : q₂ = q
    · rw [hq₂, Function.comp_apply, Equiv.swap_apply_left, Function.comp_apply,
        Equiv.swap_apply_of_ne_of_ne (by simp) (by simp)]
      simp [State.holds, State.take, hq, hf, hn]
    · rw [Function.comp_apply, Equiv.swap_apply_of_ne_of_ne (by simpa using hq₂) (by simp),
        Function.comp_apply, Equiv.swap_apply_of_ne_of_ne (by simpa using hq₂) (by simp)]
      simp [State.holds, State.take, hq₂]
  | packing g =>
    by_cases hg : g = f
    · rw [hg, Function.comp_apply, Equiv.swap_apply_right, Function.comp_apply,
        Equiv.swap_apply_left]
      simp [State.holds, State.take, hf]
    · rw [Function.comp_apply, Equiv.swap_apply_of_ne_of_ne (by simp) (by simpa using hg),
        Function.comp_apply, Equiv.swap_apply_of_ne_of_ne (by simp) (by simp)]
      simp [State.holds, State.take, hg]
  | poll g =>
    by_cases hg : g = f
    · rw [hg, Function.comp_apply, Equiv.swap_apply_of_ne_of_ne (by simp) (by simp),
        Function.comp_apply, Equiv.swap_apply_right]
      simp [State.holds, State.take, hq]
    · rw [Function.comp_apply, Equiv.swap_apply_of_ne_of_ne (by simp) (by simp),
        Function.comp_apply, Equiv.swap_apply_of_ne_of_ne (by simp) (by simpa using hg)]
      simp [State.holds, State.take, hg]

/-- The fiber takes over what the poll had. -/
theorem holds_recycle (hf : s.phase f = .polling n v) : (s.recycle f n v).holds =
    s.holds ∘ Equiv.swap (.packing f) (.poll f) := by
  funext o
  cases o with
  | dummy q =>
    rw [Function.comp_apply, Equiv.swap_apply_of_ne_of_ne (by simp) (by simp)]
    rfl
  | packing g =>
    by_cases hg : g = f
    · rw [hg, Function.comp_apply, Equiv.swap_apply_left]
      simp [State.holds, State.recycle, hf]
    · rw [Function.comp_apply, Equiv.swap_apply_of_ne_of_ne (by simpa using hg) (by simp)]
      simp [State.holds, State.recycle, hg]
  | poll g =>
    by_cases hg : g = f
    · rw [hg, Function.comp_apply, Equiv.swap_apply_right]
      simp [State.holds, State.recycle, hf]
    · rw [Function.comp_apply, Equiv.swap_apply_of_ne_of_ne (by simp) (by simpa using hg)]
      simp [State.holds, State.recycle, hg]

end CxxFiber.ConcurrentQueue
